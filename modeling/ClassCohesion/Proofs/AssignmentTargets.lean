import Mathlib.Data.List.Basic
import ClassCohesion.Language.Profile

/-!
# Targets of assignments

A Python class has the fields that its methods assign to: `self.x` on the left of an assignment, alone
or in a row of targets. A left side that is not an attribute is opened and its parts are taken for
targets, whatever it is. So an element that is assigned to, `self.xs[self.i]`, names two fields, of
which the assignment binds neither.

- `mem_python_fieldNames`: what is listed is what is bound and what is read on the left.
- `fieldNames_bound_iff`: only bound names are listed exactly if no part of an opened left side that
  is no row of targets is an attribute of the object.
-/

namespace ClassCohesion.Language.Profile

open Syntax (Node)

/-- The node is the attribute `name` of `self`. -/
def IsSelfAttribute (n : Node) (name : String) : Prop :=
  n.kind = "attribute" ∧ ∃ object member, n.child? "object" = some object ∧
    n.child? "attribute" = some member ∧ object.text = "self" ∧ member.text = name

theorem selfAttribute_eq_some {n : Node} {name : String} :
    selfAttribute n = some name ↔ IsSelfAttribute n name := ownAccess_eq_some

/-- Kinds of left sides that are rows of targets. -/
def targetRows : List String := ["pattern_list", "tuple_pattern", "list_pattern"]

/-- The assignment binds the attribute `name`: its left side is that attribute, or a row of targets
with that attribute among them. -/
def Binds (n : Node) (name : String) : Prop :=
  ∃ left, n.child? "left" = some left ∧
    (IsSelfAttribute left name ∨
      left.kind ∈ targetRows ∧ ∃ target ∈ left.namedChildren, IsSelfAttribute target name)

/-- The attribute `name` is a part of the left side, which is neither an attribute nor a row of
targets: the container or the index of a subscript, for one. It is read there and not bound. -/
def ReadsOnLeft (n : Node) (name : String) : Prop :=
  ∃ left, n.child? "left" = some left ∧ left.kind ≠ "attribute" ∧ left.kind ∉ targetRows ∧
    ∃ part ∈ left.namedChildren, IsSelfAttribute part name

/-- An assignment has one left side, so it does not both bind and read attributes there. -/
theorem Binds.not_readsOnLeft {n : Node} {name other : String} (h : Binds n name) :
    ¬ ReadsOnLeft n other := by
  rintro ⟨left, hleft, hkind, hrow, -⟩
  obtain ⟨left', hleft', hself | ⟨hrow', -⟩⟩ := h
  · rw [hleft] at hleft'
    cases hleft'
    exact hkind hself.1
  · rw [hleft] at hleft'
    cases hleft'
    exact hrow hrow'

theorem mem_nonempty {names : List String} {name : String} :
    name ∈ nonempty names ↔ name ∈ names ∧ name ≠ "" := by
  rw [nonempty, List.mem_filter, decide_eq_true_eq]

/-- The nodes that are taken for the targets of a left side. -/
def targetsOf (left : Node) : List Node :=
  if left.kind = "attribute" then [left] else left.namedChildren

theorem python_fieldNames_of_left {n left : Node} (h : n.child? "left" = some left) :
    python.fieldNames n = nonempty ((targetsOf left).filterMap selfAttribute) := by
  simp only [python, h, targetsOf]

theorem python_fieldNames_of_no_left {n : Node} (h : n.child? "left" = none) :
    python.fieldNames n = [] := by
  simp only [python, h]

/-- A left side that is taken for a target is bound, or read if it is of another kind. -/
theorem exists_target_iff {n left : Node} {name : String} (h : n.child? "left" = some left) :
    (∃ target ∈ targetsOf left, IsSelfAttribute target name) ↔
      Binds n name ∨ ReadsOnLeft n name := by
  unfold targetsOf
  by_cases hkind : left.kind = "attribute"
  · rw [if_pos hkind]
    constructor
    · rintro ⟨target, hmem, hself⟩
      rw [List.mem_singleton.mp hmem] at hself
      exact .inl ⟨left, h, .inl hself⟩
    · have hrow : left.kind ∉ targetRows := by
        rw [hkind]
        decide
      rintro (⟨left', hleft, hself | ⟨hrow', -⟩⟩ | ⟨left', hleft, hne, -⟩) <;>
        rw [h] at hleft <;> cases hleft
      · exact ⟨left, List.mem_singleton_self left, hself⟩
      · exact absurd hrow' hrow
      · exact absurd hkind hne
  · rw [if_neg hkind]
    constructor
    · rintro ⟨target, hmem, hself⟩
      by_cases hrow : left.kind ∈ targetRows
      · exact .inl ⟨left, h, .inr ⟨hrow, target, hmem, hself⟩⟩
      · exact .inr ⟨left, h, hkind, hrow, target, hmem, hself⟩
    · rintro (⟨left', hleft, hself | ⟨-, hpart⟩⟩ | ⟨left', hleft, -, -, hpart⟩) <;>
        rw [h] at hleft <;> cases hleft
      · exact absurd hself.1 hkind
      · exact hpart
      · exact hpart

/-- **What an assignment lists.** The names that it binds, and those that it reads on the left. -/
theorem mem_python_fieldNames {n : Node} {name : String} :
    name ∈ python.fieldNames n ↔ name ≠ "" ∧ (Binds n name ∨ ReadsOnLeft n name) := by
  cases hleft : n.child? "left" with
  | none =>
    rw [python_fieldNames_of_no_left hleft]
    simp [Binds, ReadsOnLeft, hleft]
  | some left =>
    rw [python_fieldNames_of_left hleft, mem_nonempty, List.mem_filterMap,
      ← exists_target_iff hleft, and_comm]
    simp only [selfAttribute_eq_some]

/-! ## Only bound names -/

/-- **When only bound names are listed.** An assignment lists every attribute that it binds. All that
it lists is bound exactly if it reads no attribute of the object on the left: no part of a left side
that is neither an attribute nor a row of targets is one with a name. -/
theorem fieldNames_bound_iff (n : Node) :
    (∀ name, Binds n name → name ≠ "" → name ∈ python.fieldNames n) ∧
    ((∀ name ∈ python.fieldNames n, Binds n name) ↔ ∀ name, ReadsOnLeft n name → name = "") ∧
    (∀ name ∈ python.fieldNames n, ¬ Binds n name → ReadsOnLeft n name) := by
  refine ⟨fun name hbinds hne => ?_, ⟨fun h name hreads => ?_, fun h name hmem => ?_⟩,
    fun name hmem hbinds => ?_⟩
  · exact mem_python_fieldNames.mpr ⟨hne, .inl hbinds⟩
  · by_contra hne
    have hbinds := h name (mem_python_fieldNames.mpr ⟨hne, .inr hreads⟩)
    exact hbinds.not_readsOnLeft hreads
  · obtain ⟨hne, hbinds | hreads⟩ := mem_python_fieldNames.mp hmem
    · exact hbinds
    · exact absurd (h name hreads) hne
  · exact (mem_python_fieldNames.mp hmem).2.resolve_left hbinds

namespace Sample

/-- The attribute `name` of `self`, in a field of its parent. -/
def ofSelf (name field : String) : Node :=
  .mk "attribute" true ("self." ++ name) (some field) 0 0
    [some (.mk "identifier" true "self" (some "object") 0 0 []),
     some (.mk "." false "." none 0 0 []),
     some (.mk "identifier" true name (some "attribute") 0 0 [])]

/-- The assignment `self.slots[self.next] = item`. -/
def fillSlot : Node :=
  .mk "assignment" true "self.slots[self.next] = item" none 0 0
    [some (.mk "subscript" true "self.slots[self.next]" (some "left") 0 0
      [some (ofSelf "slots" "value"), some (.mk "[" false "[" none 0 0 []),
       some (ofSelf "next" "subscript"), some (.mk "]" false "]" none 0 0 [])]),
     some (.mk "=" false "=" none 0 0 []),
     some (.mk "identifier" true "item" (some "right") 0 0 [])]

end Sample

/-- **A subscript on the left names fields.** The assignment binds no attribute, and lists both the
container and the index of the element that it assigns to. -/
theorem subscript_target_names_fields :
    Sample.fillSlot.kind = "assignment" ∧ (∀ name, ¬ Binds Sample.fillSlot name) ∧
      python.fieldNames Sample.fillSlot = ["slots", "next"] := by
  refine ⟨rfl, fun name h => ?_, by decide +kernel⟩
  have hreads : ReadsOnLeft Sample.fillSlot "slots" :=
    ⟨_, rfl, by decide, by decide, Sample.ofSelf "slots" "value", List.mem_cons_self,
      rfl, _, _, rfl, rfl, rfl, rfl⟩
  exact h.not_readsOnLeft hreads

end ClassCohesion.Language.Profile
