import Mathlib.Data.List.Nodup
import Mathlib.Data.List.Perm.Basic
import ClassCohesion.Metrics.Class
import ClassCohesion.Proofs.TreeWalk

/-!
# Decisions are counted once

The complexity of a method is taken by a walk over its own tree, and the weight of a class is the sum
of them. A method inside a method is no method of the class, so the trees of the methods do not meet,
and a decision point of the class adds to the weight at most once: exactly if it lies in one of them.

- `methodsOf_eq_sites`: the methods of a class are the named method nodes of the outline that stops
  at method nodes.
- `decisionsUnder_disjoint`: no decision point lies in two methods.
- `flatMap_decisionsUnder`: those in some method are decision points of the class.
-/

namespace ClassCohesion.Metrics

open Syntax (Node Precedes)
open ClassCohesion.Language (Profile)

variable {profile : Profile} {root : Node} {a : List Nat} {s t : List Nat × Node}

/-! ## The places of the methods -/

/-- A node that declares a method with a name. -/
def IsNamedMethod (profile : Profile) (n : Node) : Prop :=
  n.kind ∈ profile.methodKinds ∧ profile.methodName n ≠ ""

instance (profile : Profile) (n : Node) : Decidable (IsNamedMethod profile n) :=
  inferInstanceAs (Decidable (_ ∧ _))

/-- The places of the methods of a class. -/
def methodSites (profile : Profile) (root : Node) : List (List Nat × Node) :=
  (root.outline fun n => !profile.methodKinds.contains n.kind).filter fun e =>
    IsNamedMethod profile e.2

theorem methodsOf_eq_sites (profile : Profile) (declared : List String) (root : Node) :
    methodsOf profile declared root = (methodSites profile root).map fun e =>
      ⟨profile.methodName e.2, complexity e.2, usedFields profile declared e.2⟩ := by
  have hgive : ∀ n : Node,
      (if profile.methodKinds.contains n.kind then
          (if profile.methodName n = "" then []
            else [(⟨profile.methodName n, complexity n, usedFields profile declared n⟩ : Method)],
            false)
        else ([], true)) =
      (if IsNamedMethod profile n then
          [⟨profile.methodName n, complexity n, usedFields profile declared n⟩] else [],
        !profile.methodKinds.contains n.kind) := by
    intro n
    by_cases hk : n.kind ∈ profile.methodKinds
    · by_cases hn : profile.methodName n = "" <;> simp [IsNamedMethod, hk, hn]
    · simp [IsNamedMethod, hk]
  rw [methodsOf]
  dsimp only
  rw [funext hgive, Syntax.collect_eq_map (IsNamedMethod profile)]
  rfl

/-- A method of a class is a named method node without a method node above it. -/
theorem mem_methodSites {n : Node} :
    (a, n) ∈ methodSites profile root ↔
      root.at? a = some n ∧ n.kind ∈ profile.methodKinds ∧ profile.methodName n ≠ "" ∧
        ∀ m, root.Above a m → m.kind ∉ profile.methodKinds := by
  rw [methodSites, List.mem_filter, Syntax.mem_outline, decide_eq_true_eq, IsNamedMethod]
  simp only [Bool.not_eq_true', List.contains_eq_mem, decide_eq_false_iff_not]
  tauto

theorem methodSites_ordered (profile : Profile) (root : Node) :
    (methodSites profile root).Pairwise Precedes :=
  (Syntax.outline_ordered _ root).filter _

/-- No method lies inside another. -/
theorem not_isPrefix_of_mem_methodSites (hs : s ∈ methodSites profile root)
    (ht : t ∈ methodSites profile root) (hne : s.1 ≠ t.1) : ¬ s.1 <+: t.1 := by
  intro hpre
  obtain ⟨hat, hkind, -, -⟩ := mem_methodSites.mp hs
  obtain ⟨-, -, -, habove⟩ := mem_methodSites.mp ht
  exact habove s.2 ⟨s.1, hpre, hne, hat⟩ hkind

/-! ## Decision points -/

/-- The addresses of the decision points of a tree. -/
def decisionsIn (n : Node) : List (List Nat) :=
  ((n.outline fun _ => true).filter fun e => isDecision e.2).map Prod.fst

theorem mem_decisionsIn {n : Node} :
    a ∈ decisionsIn n ↔ ∃ d, n.at? a = some d ∧ isDecision d = true := by
  rw [decisionsIn, List.mem_map]
  constructor
  · rintro ⟨⟨b, d⟩, hmem, rfl⟩
    obtain ⟨hout, hd⟩ := List.mem_filter.mp hmem
    exact ⟨d, (Syntax.mem_outline.mp hout).1, hd⟩
  · rintro ⟨d, hat, hd⟩
    exact ⟨(a, d), List.mem_filter.mpr ⟨Syntax.mem_outline.mpr ⟨hat, fun _ _ => rfl⟩, hd⟩, rfl⟩

theorem decisionsIn_nodup (n : Node) : (decisionsIn n).Nodup := by
  rw [decisionsIn, List.Nodup, List.pairwise_map]
  exact ((Syntax.outline_ordered _ n).filter _).imp Precedes.ne

theorem complexity_eq (n : Node) : complexity n = 1 + (decisionsIn n).length := by
  rw [complexity, Syntax.countNodes_eq, decisionsIn, List.length_map]

/-- The addresses, in the whole tree, of the decision points of a tree within it. -/
def decisionsUnder (s : List Nat × Node) : List (List Nat) := (decisionsIn s.2).map (s.1 ++ ·)

theorem mem_decisionsUnder (hs : root.at? s.1 = some s.2) :
    a ∈ decisionsUnder s ↔ s.1 <+: a ∧ a ∈ decisionsIn root := by
  rw [decisionsUnder, List.mem_map]
  constructor
  · rintro ⟨b, hb, rfl⟩
    obtain ⟨d, hat, hd⟩ := mem_decisionsIn.mp hb
    exact ⟨List.prefix_append _ _, mem_decisionsIn.mpr ⟨d, Node.at?_append hs hat, hd⟩⟩
  · rintro ⟨⟨b, rfl⟩, ha⟩
    obtain ⟨d, hat, hd⟩ := mem_decisionsIn.mp ha
    rw [Node.at?_append_eq hs] at hat
    exact ⟨b, mem_decisionsIn.mpr ⟨d, hat, hd⟩, rfl⟩

/-- No decision point lies in two methods. -/
theorem decisionsUnder_disjoint (hs : s ∈ methodSites profile root)
    (ht : t ∈ methodSites profile root) (hne : s.1 ≠ t.1) :
    List.Disjoint (decisionsUnder s) (decisionsUnder t) := by
  intro a has hat
  have hspre := ((mem_decisionsUnder (mem_methodSites.mp hs).1).mp has).1
  have htpre := ((mem_decisionsUnder (mem_methodSites.mp ht).1).mp hat).1
  -- two methods above one node would be one above the other
  rcases List.prefix_or_prefix_of_prefix hspre htpre with h | h
  · exact not_isPrefix_of_mem_methodSites hs ht hne h
  · exact not_isPrefix_of_mem_methodSites ht hs hne.symm h

/-- Whether an address lies in one of some trees. -/
def liesIn (sites : List (List Nat × Node)) (a : List Nat) : Bool :=
  sites.any fun s => s.1.isPrefixOf a

theorem liesIn_iff {sites : List (List Nat × Node)} :
    liesIn sites a = true ↔ ∃ s ∈ sites, s.1 <+: a := by
  simp [liesIn]

/-- **Decisions are counted once.** What the methods count, taken together, are the decision points
of the class that lie in a method. -/
theorem flatMap_decisionsUnder (profile : Profile) (root : Node) :
    ((methodSites profile root).flatMap decisionsUnder).Perm
      ((decisionsIn root).filter (liesIn (methodSites profile root))) := by
  have hnodup : ((methodSites profile root).flatMap decisionsUnder).Nodup := by
    rw [List.nodup_flatMap]
    refine ⟨fun s _ => (decisionsIn_nodup s.2).map (List.append_right_injective s.1), ?_⟩
    refine (methodSites_ordered profile root).imp_of_mem fun hs ht hlt => ?_
    exact decisionsUnder_disjoint hs ht hlt.ne
  rw [List.perm_ext_iff_of_nodup hnodup ((decisionsIn_nodup root).filter _)]
  intro a
  rw [List.mem_flatMap, List.mem_filter, liesIn_iff]
  constructor
  · rintro ⟨s, hs, ha⟩
    obtain ⟨hpre, hmem⟩ := (mem_decisionsUnder (mem_methodSites.mp hs).1).mp ha
    exact ⟨hmem, s, hs, hpre⟩
  · rintro ⟨hmem, s, hs, hpre⟩
    exact ⟨s, hs, (mem_decisionsUnder (mem_methodSites.mp hs).1).mpr ⟨hpre, hmem⟩⟩

/-! ## The weight of a class -/

theorem foldl_complexity (sites : List (List Nat × Node)) (total : Nat) :
    sites.foldl (fun total s => total + complexity s.2) total =
      total + (sites.length + (sites.flatMap decisionsUnder).length) := by
  induction sites generalizing total with
  | nil => rfl
  | cons s sites ih =>
    rw [List.foldl_cons, ih, List.flatMap_cons, List.length_append, List.length_cons,
      complexity_eq, decisionsUnder, List.length_map]
    omega

theorem wmc_ofNode (path language : String) (graph : Inheritance.Graph) (node : Node) :
    (ClassMetrics.ofNode path language graph node).wmc =
      Number.ofNat ((methodSites (.ofTag language) node).length +
        ((decisionsIn node).filter (liesIn (methodSites (.ofTag language) node))).length) := by
  show Number.ofNat ((methodsOf (.ofTag language) _ node).foldl _ 0) = _
  rw [methodsOf_eq_sites, List.foldl_map, foldl_complexity, Nat.zero_add,
    (flatMap_decisionsUnder _ node).length_eq]

theorem nom_ofNode (path language : String) (graph : Inheritance.Graph) (node : Node) :
    (ClassMetrics.ofNode path language graph node).nom =
      Number.ofNat (methodSites (.ofTag language) node).length := by
  show Number.ofNat (methodsOf _ _ node).length = _
  rw [methodsOf_eq_sites, List.length_map]

/-- **The weight of a class.** In every language, the methods of a class node are the named method
nodes of its tree without a method node above them, in the order of the document. Its weight is at
least their number, and exceeds it by at most the number of decision points of the class: by exactly
that if and only if every decision point lies in one of them. -/
theorem weight_counts_decisions_once (path language : String) (graph : Inheritance.Graph)
    (node : Node) :
    ∃ sites : List (List Nat × Node), sites.Pairwise Precedes ∧
      (∀ a n, (a, n) ∈ sites ↔
        node.at? a = some n ∧ n.kind ∈ (Profile.ofTag language).methodKinds ∧
          (Profile.ofTag language).methodName n ≠ "" ∧
          ∀ m, node.Above a m → m.kind ∉ (Profile.ofTag language).methodKinds) ∧
      (∀ declared, methodsOf (.ofTag language) declared node = sites.map fun s =>
        ⟨(Profile.ofTag language).methodName s.2, complexity s.2,
          usedFields (.ofTag language) declared s.2⟩) ∧
      ∃ nom wmc : Nat,
        (ClassMetrics.ofNode path language graph node).nom = Number.ofNat nom ∧
        (ClassMetrics.ofNode path language graph node).wmc = Number.ofNat wmc ∧
        nom = sites.length ∧ nom ≤ wmc ∧ wmc ≤ nom + (complexity node - 1) ∧
        (wmc = nom + (complexity node - 1) ↔
          ∀ a d, node.at? a = some d → isDecision d = true → ∃ s ∈ sites, s.1 <+: a) := by
  refine ⟨methodSites (.ofTag language) node, methodSites_ordered _ node,
    fun a n => mem_methodSites, fun declared => methodsOf_eq_sites _ declared node, _, _,
    nom_ofNode path language graph node, wmc_ofNode path language graph node, rfl,
    Nat.le_add_right _ _, ?_, ?_⟩
  · rw [complexity_eq, Nat.add_sub_cancel_left]
    exact Nat.add_le_add_left (List.length_filter_le _ _) _
  · rw [complexity_eq, Nat.add_sub_cancel_left, Nat.add_left_cancel_iff,
      List.length_filter_eq_length_iff]
    simp only [liesIn_iff, mem_decisionsIn]
    constructor
    · exact fun h a d hat hd => h a ⟨d, hat, hd⟩
    · rintro h a ⟨d, hat, hd⟩
      exact h a d hat hd

end ClassCohesion.Metrics
