import Mathlib.Data.List.Nodup
import ClassCohesion.Metrics.Class
import ClassCohesion.Proofs.TreeWalk

/-!
# Lists of names, part by part

The classes that a class node refers to and the names that it calls are gathered by a walk over the
whole tree and then listed once each, by first occurrence. The same lists come about part by part:
what the node itself names, then the lists of its children, with later occurrences left out. A name
that a child has listed once may as well have been listed as often as it occurs there.

- `eraseDups_append_flatMap`: leaving out later occurrences in the parts first changes nothing.
- `firstSeen_collect`: the list of a tree from the lists of its children.
-/

namespace ClassCohesion

namespace Syntax

variable {α : Type} [BEq α] [LawfulBEq α]

/-! ## First occurrences in a list of parts -/

theorem nodup_eraseDups (as : List α) : as.eraseDups.Nodup := by
  induction as using List.reverseRecOn with
  | nil => exact .nil
  | append_singleton as a ih =>
    rw [eraseDups_concat]
    split
    · exact ih
    · next h =>
      have hnew : a ∉ as.eraseDups := by
        rw [List.mem_eraseDups]
        exact fun ha => h (List.contains_iff_mem.mpr ha)
      exact List.nodup_append_comm.mp (List.nodup_cons.mpr ⟨hnew, ih⟩)

theorem eraseDups_append_congr {as as' : List α} (h : as.eraseDups = as'.eraseDups)
    (bs : List α) : (as ++ bs).eraseDups = (as' ++ bs).eraseDups := by
  have hmem : ∀ a, a ∈ as ↔ a ∈ as' := by
    intro a
    rw [← List.mem_eraseDups, h, List.mem_eraseDups]
  have hrest : bs.removeAll as = bs.removeAll as' := by
    refine List.filter_congr fun b _ => ?_
    rw [Bool.eq_iff_iff]
    simp [hmem b]
  rw [List.eraseDups_append, List.eraseDups_append, h, hrest]

theorem eraseDups_append_eraseDups (as bs : List α) :
    (as ++ bs.eraseDups).eraseDups = (as ++ bs).eraseDups := by
  induction bs using List.reverseRecOn with
  | nil => rfl
  | append_singleton bs b ih =>
    rw [← List.append_assoc, eraseDups_concat, eraseDups_concat (as ++ bs)]
    by_cases hb : b ∈ bs
    · -- a later occurrence counts neither among the parts nor in the whole
      rw [if_pos (by simpa using hb), if_pos (by simp [hb]), ih]
    · rw [if_neg (by simpa using hb), ← List.append_assoc, eraseDups_concat, ih]
      simp [hb]

/-- **First occurrences, part by part.** -/
theorem eraseDups_append_flatMap {β : Type} (as : List α) (f : β → List α) (parts : List β) :
    (as ++ parts.flatMap fun part => (f part).eraseDups).eraseDups =
      (as ++ parts.flatMap f).eraseDups := by
  induction parts generalizing as with
  | nil => rfl
  | cons part parts ih =>
    rw [List.flatMap_cons, List.flatMap_cons, ← List.append_assoc, ← List.append_assoc, ih]
    exact eraseDups_append_congr (eraseDups_append_eraseDups as (f part)) _

/-- What a walk gathers, by first occurrence: what the root contributes, then what its children
do. -/
theorem firstSeen_collect (give : Node → List α) (n : Node) :
    firstSeen (collect (fun m => (give m, true)) n) =
      (give n ++ n.children.flatMap fun c =>
        firstSeen (collect (fun m => (give m, true)) c)).eraseDups := by
  simp only [firstSeen_eq_eraseDups]
  rw [eraseDups_append_flatMap, collect_eq]
  rfl

end Syntax

namespace Metrics

open Syntax (Node)

/-! ## The lists of a class -/

theorem coupledClasses_eq (n : Node) :
    coupledClasses n = (couplingAt n ++ n.children.flatMap coupledClasses).eraseDups :=
  Syntax.firstSeen_collect couplingAt n

theorem calledNames_eq (n : Node) :
    calledNames n = (calleesAt n ++ n.children.flatMap calledNames).eraseDups :=
  Syntax.firstSeen_collect calleesAt n

theorem couplingAt_eq (n : Node) :
    couplingAt n = if n.kind ∈ typeKinds ∧ 1 < Text.width n.text ∧ n.text ∉ Language.primitives
      then [n.text] else [] := by
  simp [couplingAt, Language.isPrimitive]

theorem calleesAt_eq (n : Node) :
    calleesAt n = if n.kind ∈ callKinds
      then (["function", "name", "method"].filterMap n.child?).map Node.text else [] := by
  simp [calleesAt, calleeFields]

/-- **The names of a class, part by part.** The coupled classes of a node are its own text, if it
refers to a type by more than one code unit and is no primitive, and those of its children in
order; the called names are the texts of its callees, if it calls something, and those of its
children. Both are listed once each by first occurrence, and counted so by the metrics of the
class. -/
theorem names_by_first_occurrence (path language : String) (graph : Inheritance.Graph)
    (node : Node) :
    (coupledClasses node).Nodup ∧ (calledNames node).Nodup ∧
    coupledClasses node =
      ((if node.kind ∈ typeKinds ∧ 1 < Text.width node.text ∧ node.text ∉ Language.primitives
        then [node.text] else []) ++ node.children.flatMap coupledClasses).eraseDups ∧
    calledNames node =
      ((if node.kind ∈ callKinds
        then (["function", "name", "method"].filterMap node.child?).map Node.text else []) ++
          node.children.flatMap calledNames).eraseDups ∧
    (ClassMetrics.ofNode path language graph node).coupledClasses = coupledClasses node ∧
    (ClassMetrics.ofNode path language graph node).cbo = (coupledClasses node).length ∧
    ∃ nom : Nat, (ClassMetrics.ofNode path language graph node).nom = nom ∧
      (ClassMetrics.ofNode path language graph node).rfc =
        (nom + (calledNames node).length : Nat) := by
  refine ⟨?_, ?_, ?_, ?_, rfl, rfl, _, rfl, rfl⟩
  · rw [coupledClasses_eq]
    exact Syntax.nodup_eraseDups _
  · rw [calledNames_eq]
    exact Syntax.nodup_eraseDups _
  · rw [← couplingAt_eq]
    exact coupledClasses_eq node
  · rw [← calleesAt_eq]
    exact calledNames_eq node

end Metrics

end ClassCohesion
