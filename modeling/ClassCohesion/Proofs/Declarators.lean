import ClassCohesion.Language.Profile
import ClassCohesion.Proofs.TreeWalk

/-!
# Names from declarators

A C++ declaration names the fields that its children end at. A child is followed inwards, through the
field `declarator` or else to the last named child, until a name is met; if that is a field
identifier it names a field. This is done for every named child, so the type and the default value
are followed too, and where they end at a field identifier the declaration names a field that it does
not declare.

- `declaredName_eq_some`: the search for the name is the relation `EndsAt`.
- `fieldNames_keeping_eq_iff`: some children give no name exactly if leaving them out changes
  nothing.
- `fieldNames_through_declarators_iff`: when the names come from the declarators alone.
-/

namespace ClassCohesion

namespace Syntax

/-- A node with only those of its children that `keep` accepts. -/
def Node.keeping (keep : Node → Bool) : Node → Node
  | .mk kind named text field startRow endRow places =>
    .mk kind named text field startRow endRow (places.map fun place => place.filter keep)

theorem Node.children_keeping (keep : Node → Bool) (n : Node) :
    (n.keeping keep).children = n.children.filter keep := by
  cases n with
  | mk kind named text field startRow endRow places =>
    show (places.map fun place => place.filter keep).filterMap id =
      (places.filterMap id).filter keep
    rw [List.filterMap_map, List.filter_filterMap]
    rfl

theorem Node.namedChildren_keeping (keep : Node → Bool) (n : Node) :
    (n.keeping keep).namedChildren = n.namedChildren.filter keep := by
  rw [Node.namedChildren, Node.namedChildren, Node.children_keeping, List.filter_filter,
    List.filter_filter]
  exact List.filter_congr fun c _ => Bool.and_comm _ _

end Syntax

namespace Language.Profile

open Syntax (Node)

/-! ## Where a declarator ends -/

/-- Followed inwards, `n` ends at the name `m`, without a function declarator on the way. -/
inductive EndsAt : Node → Node → Prop where
  | name {n : Node} (hname : n.kind ∈ declaratorNames) : EndsAt n n
  | inner {n c m : Node} (hname : n.kind ∉ declaratorNames) (hfun : n.kind ≠ "function_declarator")
      (hinner : innerDeclarator n = some c) (h : EndsAt c m) : EndsAt n m

theorem EndsAt.declaredName_eq {n m : Node} (h : EndsAt n m) : declaredName false n = some m := by
  induction h with
  | name hname => rw [declaredName, if_pos (List.contains_iff_mem.mpr hname)]
  | @inner n c m hname hfun hinner _ ih =>
    rw [declaredName, if_neg (by simpa using hname), if_neg fun h => hfun h.1, ← ih]
    split
    · next inner heq =>
      rw [hinner] at heq
      cases heq
      rfl
    · next heq =>
      rw [hinner] at heq
      cases heq

theorem endsAt_of_declaredName {n m : Node} (h : declaredName false n = some m) : EndsAt n m := by
  induction hs : n.size using Nat.strongRecOn generalizing n with
  | _ size ih =>
    rw [declaredName] at h
    split at h
    · next hname =>
      cases h
      exact .name (List.contains_iff_mem.mp hname)
    · next hname =>
      split at h
      · cases h
      · next hfun =>
        split at h
        · next c hinner =>
          have hlt := size_innerDeclarator_lt hinner
          rw [hs] at hlt
          refine .inner ?_ ?_ hinner (ih c.size hlt h rfl)
          · exact fun hmem => hname (List.contains_iff_mem.mpr hmem)
          · exact fun hkind => hfun ⟨hkind, rfl⟩
        · cases h

/-- **The search follows the declarator.** -/
theorem declaredName_eq_some {n m : Node} : declaredName false n = some m ↔ EndsAt n m :=
  ⟨endsAt_of_declaredName, EndsAt.declaredName_eq⟩

/-- What a declarator ends at is a node of its tree. -/
theorem EndsAt.exists_at? {n m : Node} (h : EndsAt n m) : ∃ a, n.at? a = some m := by
  induction h with
  | @name n _ => exact ⟨[], n.at?_nil⟩
  | @inner n c m _ _ hinner _ ih =>
    obtain ⟨a, ha⟩ := ih
    have hmem : some c ∈ n.places := by
      simpa [Node.children] using innerDeclarator_mem_children hinner
    obtain ⟨i, hi⟩ := List.getElem?_of_mem hmem
    exact ⟨i :: a, Node.at?_cons.mpr ⟨c, hi, ha⟩⟩

/-! ## The names that children give -/

/-- The child gives the name of a field. -/
def Gives (c : Node) (name : String) : Prop :=
  ∃ m, EndsAt c m ∧ m.kind = "field_identifier" ∧ m.text = name

/-- The name that a child gives, if it gives one. -/
def givenName (c : Node) : Option String :=
  ((declaredName false c).filter (·.kind = "field_identifier")).map Node.text

theorem givenName_eq_some {c : Node} {name : String} : givenName c = some name ↔ Gives c name := by
  unfold givenName Gives
  simp only [Option.map_eq_some_iff, Option.filter_eq_some_iff, declaredName_eq_some,
    decide_eq_true_eq, and_assoc]

theorem givenName_eq_none {c : Node} : givenName c = none ↔ ∀ name, ¬ Gives c name := by
  rw [Option.eq_none_iff_forall_ne_some]
  exact forall_congr' fun name => not_congr givenName_eq_some

theorem fieldNames_eq (n : Node) : cpp.fieldNames n = n.namedChildren.filterMap givenName := by
  show ((n.namedChildren.filterMap (declaredName false)).filter
    (·.kind = "field_identifier")).map Node.text = _
  rw [List.filter_filterMap, List.map_filterMap]
  rfl

theorem mem_fieldNames {n : Node} {name : String} :
    name ∈ cpp.fieldNames n ↔ ∃ c ∈ n.namedChildren, Gives c name := by
  rw [fieldNames_eq, List.mem_filterMap]
  simp only [givenName_eq_some]

/-- Leaving elements out of a list changes what is taken from it exactly if something is taken from
one of them. -/
theorem filterMap_filter_eq_iff {α β : Type} {f : α → Option β} {keep : α → Bool} {l : List α} :
    (l.filter keep).filterMap f = l.filterMap f ↔ ∀ x ∈ l, keep x = false → f x = none := by
  have hle : ∀ l : List α, ((l.filter keep).filterMap f).length ≤ (l.filterMap f).length :=
    fun l => (List.filter_sublist.filterMap f).length_le
  induction l with
  | nil => simp
  | cons x l ih =>
    refine Iff.trans ?_ ((and_congr_right' ih).trans List.forall_mem_cons.symm)
    cases hk : keep x with
    | true => cases hf : f x <;> simp [hk, hf]
    | false =>
      rw [List.filter_cons_of_neg (by simp [hk])]
      cases hf : f x with
      | none => simp [hf]
      | some y =>
        -- there is one name more on the right, and in the rest there are never fewer
        have hne : (l.filter keep).filterMap f ≠ (x :: l).filterMap f := by
          intro heq
          have hlen := congrArg List.length heq
          rw [List.filterMap_cons_some hf, List.length_cons] at hlen
          have := hle l
          omega
        simp [hne]

/-- Some children give no name exactly if leaving them out changes nothing. -/
theorem fieldNames_keeping_eq_iff {keep : Node → Bool} {n : Node} :
    cpp.fieldNames (n.keeping keep) = cpp.fieldNames n ↔
      ∀ c ∈ n.namedChildren, keep c = false → ∀ name, ¬ Gives c name := by
  rw [fieldNames_eq, fieldNames_eq, Node.namedChildren_keeping, filterMap_filter_eq_iff]
  simp only [givenName_eq_none]

/-! ## Types and default values -/

/-- The type of a declaration, or the default value of one of its declarators. -/
def isTypeOrDefault (c : Node) : Bool :=
  c.field = some "type" || c.field = some "default_value"

/-- The declarator of one of the names. -/
def isDeclarator (c : Node) : Bool := c.field = some "declarator"

/-- **Where the names of a declaration come from.** They are those that its named children give. No
name comes from the type or a default value exactly if none of these, followed inwards, ends at a
field identifier, which is so whenever there is no field identifier in them; and the names come from
the declarators alone exactly if that is so for all other children. -/
theorem fieldNames_through_declarators_iff (n : Node) :
    (∀ name, name ∈ cpp.fieldNames n ↔ ∃ c ∈ n.namedChildren, Gives c name) ∧
    (cpp.fieldNames (n.keeping fun c => !isTypeOrDefault c) = cpp.fieldNames n ↔
      ∀ c ∈ n.namedChildren, isTypeOrDefault c = true →
        ∀ m, EndsAt c m → m.kind ≠ "field_identifier") ∧
    ((∀ c ∈ n.namedChildren, isTypeOrDefault c = true →
        ∀ a m, c.at? a = some m → m.kind ≠ "field_identifier") →
      cpp.fieldNames (n.keeping fun c => !isTypeOrDefault c) = cpp.fieldNames n) ∧
    (cpp.fieldNames (n.keeping isDeclarator) = cpp.fieldNames n ↔
      ∀ c ∈ n.namedChildren, isDeclarator c = false →
        ∀ m, EndsAt c m → m.kind ≠ "field_identifier") := by
  have hgives : ∀ c, (∀ name, ¬ Gives c name) ↔ ∀ m, EndsAt c m → m.kind ≠ "field_identifier" := by
    intro c
    constructor
    · intro h m hm hkind
      exact h m.text ⟨m, hm, hkind, rfl⟩
    · rintro h name ⟨m, hm, hkind, -⟩
      exact h m hm hkind
  have htype : cpp.fieldNames (n.keeping fun c => !isTypeOrDefault c) = cpp.fieldNames n ↔
      ∀ c ∈ n.namedChildren, isTypeOrDefault c = true →
        ∀ m, EndsAt c m → m.kind ≠ "field_identifier" := by
    rw [fieldNames_keeping_eq_iff]
    simp only [hgives, Bool.not_eq_false']
  refine ⟨fun name => mem_fieldNames, htype, fun h => ?_, ?_⟩
  · refine htype.mpr fun c hc hplace m hm => ?_
    obtain ⟨a, ha⟩ := hm.exists_at?
    exact h c hc hplace a m ha
  · rw [fieldNames_keeping_eq_iff]
    simp only [hgives]

namespace Sample

/-- The default value `base.height`. -/
def baseHeight : Node :=
  .mk "field_expression" true "base.height" (some "default_value") 0 0
    [some (.mk "identifier" true "base" (some "argument") 0 0 []),
     some (.mk "." false "." (some "operator") 0 0 []),
     some (.mk "field_identifier" true "height" (some "field") 0 0 [])]

/-- The declaration `int width = base.height;`. -/
def width : Node :=
  .mk "field_declaration" true "int width = base.height;" none 0 0
    [some (.mk "primitive_type" true "int" (some "type") 0 0 []),
     some (.mk "field_identifier" true "width" (some "declarator") 0 0 []),
     some (.mk "=" false "=" none 0 0 []), some baseHeight,
     some (.mk ";" false ";" none 0 0 [])]

end Sample

/-- **A default value names a field.** The declaration of `width` declares one field, and lists two
names, the second of which stands in the default value. -/
theorem default_value_names_field :
    Sample.width.kind = "field_declaration" ∧
      cpp.fieldNames Sample.width = ["width", "height"] ∧
      cpp.fieldNames (Sample.width.keeping fun c => !isTypeOrDefault c) = ["width"] := by
  refine ⟨rfl, ?_, ?_⟩
  · decide +kernel
  · decide +kernel

end Language.Profile

end ClassCohesion
