import ClassCohesion.Metrics.Extract
import ClassCohesion.Proofs.TreeWalk

/-!
# Members of other objects

In Java and C# a method uses a field of its object by an access through `this` or by a lone
identifier. The member of an access is an identifier as well, and the walk over the body meets it
once more below the access, so a member of another object is taken for a lone identifier: it counts
as a use exactly if the class declares a field of the same name.

- `mem_usedFields`: the two ways in which a field is used, said of the nodes of the body.
- `Foreign.exists_identifier`, `IsForeignMember.foreign`: the identifiers that are members of other
  objects, seen from the access and from the identifier.
- `foreign_member_unused_iff`: when a name that only occurs as such a member is not a used field.
-/

namespace ClassCohesion

open Syntax (Node)

namespace Syntax

/-- The place of the first child that stands in a field. -/
def Node.placeOf? (n : Node) (field : String) : Option Nat :=
  n.places.findIdx? fun place => place.any fun c => c.field == some field

/-- The child in a field is the one at the place of the field. -/
theorem Node.at?_placeOf? {n : Node} {field : String} {i : Nat} (h : n.placeOf? field = some i) :
    ∃ c, n.child? field = some c ∧ n.at? [i] = some c := by
  unfold Node.placeOf? at h
  unfold Node.child? Node.children
  have hat : ∀ c, n.at? [i] = some c ↔ n.places[i]? = some (some c) := by
    intro c
    rw [Node.at?_cons]
    simp
  simp only [hat]
  clear hat
  generalize n.places = places at h ⊢
  induction places generalizing i with
  | nil => cases h
  | cons place rest ih =>
    rw [List.findIdx?_cons] at h
    cases place with
    | none =>
      obtain ⟨j, hj, rfl⟩ := Option.map_eq_some_iff.mp h
      exact ih hj
    | some c =>
      by_cases hc : (c.field == some field) = true
      · rw [Option.any_some, if_pos hc] at h
        cases h
        exact ⟨c, by simp [hc], rfl⟩
      · rw [Option.any_some, if_neg hc] at h
        obtain ⟨j, hj, rfl⟩ := Option.map_eq_some_iff.mp h
        obtain ⟨d, hd, hplace⟩ := ih hj
        refine ⟨d, ?_, hplace⟩
        rw [← hd]
        simp [hc]

end Syntax

namespace Metrics

open ClassCohesion.Language (Profile)

/-! ## Accesses -/

/-- How a language writes an access to a member: the kind of its node, and the fields of the receiver
and the member. -/
structure AccessForm where
  kind : String
  receiver : String
  member : String

/-- The languages in which a member is written as an identifier, with the form of their accesses. -/
def memberLanguages : List (Profile × AccessForm) :=
  [(.java, ⟨"field_access", "object", "field"⟩),
   (.csharp, ⟨"member_access_expression", "expression", "name"⟩)]

namespace AccessForm

/-- The node is an access to the member `name` of the object itself. -/
def Own (form : AccessForm) (n : Node) (name : String) : Prop :=
  n.kind = form.kind ∧ ∃ receiver member, n.child? form.receiver = some receiver ∧
    n.child? form.member = some member ∧ receiver.text = "this" ∧ member.text = name

/-- The node is an access to the member `name`, an identifier, of something that is not `this`. -/
def Foreign (form : AccessForm) (n : Node) (name : String) : Prop :=
  n.kind = form.kind ∧ ∃ receiver member, n.child? form.receiver = some receiver ∧
    receiver.text ≠ "this" ∧ n.child? form.member = some member ∧
    member.kind = "identifier" ∧ member.text = name

/-- The node at an address is the member of an access to something that is not `this`. -/
def IsForeignMember (form : AccessForm) (root : Node) (a : List Nat) : Prop :=
  ∃ b i access receiver, a = b ++ [i] ∧ root.at? b = some access ∧ access.kind = form.kind ∧
    access.placeOf? form.member = some i ∧ access.child? form.receiver = some receiver ∧
    receiver.text ≠ "this"

variable {form : AccessForm} {root n : Node} {name : String}

instance (form : AccessForm) (n : Node) (name : String) : Decidable (form.Own n name) :=
  decidable_of_iff _ Profile.ownAccess_eq_some

/-- The member of an access is itself a node of the tree. -/
theorem Foreign.exists_identifier {a : List Nat} (hn : root.at? a = some n)
    (h : form.Foreign n name) :
    ∃ b m, root.at? b = some m ∧ m.kind = "identifier" ∧ m.text = name := by
  obtain ⟨-, -, member, -, -, hmember, hkind, htext⟩ := h
  obtain ⟨i, hi⟩ := Node.at?_child hmember
  exact ⟨a ++ [i], member, Node.at?_append hn hi, hkind, htext⟩

/-- The access that an identifier is the member of is a node of the tree. -/
theorem IsForeignMember.foreign {a : List Nat} (h : form.IsForeignMember root a)
    (hn : root.at? a = some n) (hkind : n.kind = "identifier") (htext : n.text = name) :
    ∃ b access, root.at? b = some access ∧ form.Foreign access name := by
  obtain ⟨b, i, access, receiver, rfl, haccess, hform, hplace, hreceiver, hthis⟩ := h
  obtain ⟨member, hmember, hi⟩ := Node.at?_placeOf? hplace
  have hsame : n = member := by
    have hboth := (Node.at?_append haccess hi).symm.trans hn
    exact (Option.some.inj hboth).symm
  subst hsame
  exact ⟨b, access, haccess, hform, receiver, n, hreceiver, hthis, hmember, hkind, htext⟩

end AccessForm

/-! ## Uses of fields -/

/-- What the two languages have in common. -/
theorem memberLanguages_spec {profile : Profile} {form : AccessForm}
    (h : (profile, form) ∈ memberLanguages) :
    profile.bareAccess = true ∧ form.kind ≠ "identifier" ∧
      ∀ n name, profile.fieldAccess n = some name ↔ form.Own n name := by
  have hcases : (profile, form) = (.java, ⟨"field_access", "object", "field"⟩) ∨
      (profile, form) = (.csharp, ⟨"member_access_expression", "expression", "name"⟩) := by
    simpa [memberLanguages] using h
  rcases hcases with heq | heq
  all_goals
    cases heq
    exact ⟨rfl, by decide, fun n name => Profile.ownAccess_eq_some⟩

theorem fieldUse_eq_some {profile : Profile} {declared : List String} {n : Node} {name : String} :
    fieldUse profile true declared n = some name ↔
      (profile.fieldAccess n = some name ∧ name ≠ "") ∨
      ((∀ other, profile.fieldAccess n = some other → other = "") ∧
        n.kind = "identifier" ∧ name ∈ declared ∧ n.text = name) := by
  have hbare : fieldUse.bareUse true declared n = some name ↔
      n.kind = "identifier" ∧ name ∈ declared ∧ n.text = name := by
    unfold fieldUse.bareUse
    constructor
    · intro h
      split at h
      · next hc =>
        cases h
        exact ⟨hc.2.1, List.contains_iff_mem.mp hc.2.2, rfl⟩
      · cases h
    · rintro ⟨hkind, hmem, rfl⟩
      exact if_pos ⟨rfl, hkind, List.contains_iff_mem.mpr hmem⟩
  unfold fieldUse
  cases haccess : profile.fieldAccess n with
  | none => simp [hbare]
  | some other =>
    by_cases hne : other = ""
    · simp only [hne, ne_eq, not_true, if_false, hbare]
      constructor
      · intro h
        refine .inr ⟨?_, h⟩
        rintro _ ⟨⟩
        rfl
      · rintro (⟨h, hname⟩ | ⟨-, h⟩)
        · exact absurd (Option.some.inj h).symm hname
        · exact h
    · simp only [hne, ne_eq, not_false_iff, if_true]
      constructor
      · rintro ⟨⟩
        exact .inl ⟨rfl, hne⟩
      · rintro (⟨h, -⟩ | ⟨h, -⟩)
        · exact h
        · exact absurd (h other rfl) hne

variable {profile : Profile} {form : AccessForm} {method body : Node} {declared : List String}
  {name : String}

/-- **The fields that a method uses.** Those that its body accesses through the object itself, and
those of the declared ones that an identifier of the body names, wherever it stands. -/
theorem mem_usedFields (hl : (profile, form) ∈ memberLanguages)
    (hb : method.child? "body" = some body) :
    name ∈ usedFields profile declared method ↔
      (name ≠ "" ∧ ∃ a n, body.at? a = some n ∧ form.Own n name) ∨
      (name ∈ declared ∧ ∃ a n, body.at? a = some n ∧ n.kind = "identifier" ∧ n.text = name) := by
  obtain ⟨hbare, hkind, haccess⟩ := memberLanguages_spec hl
  have huse : ∀ n, fieldUse profile true declared n = some name ↔
      (name ≠ "" ∧ form.Own n name) ∨
      (name ∈ declared ∧ n.kind = "identifier" ∧ n.text = name) := by
    intro n
    rw [fieldUse_eq_some, haccess]
    constructor
    · rintro (⟨hown, hne⟩ | ⟨-, hident, hmem, htext⟩)
      · exact .inl ⟨hne, hown⟩
      · exact .inr ⟨hmem, hident, htext⟩
    · rintro (⟨hne, hown⟩ | ⟨hmem, hident, htext⟩)
      · exact .inl ⟨hown, hne⟩
      · -- an identifier is no access, so that nothing is accessed at it
        refine .inr ⟨fun other hother => ?_, hident, hmem, htext⟩
        have hform := ((haccess n other).mp hother).1
        exact absurd (hform.symm.trans hident) hkind
  rw [usedFields, Syntax.mem_firstSeen, hb, hbare, Option.getD_some, Syntax.mem_collect]
  simp only [Option.isSome_some, Bool.and_self, Option.mem_toList, huse]
  constructor
  · rintro ⟨a, n, hn, ⟨hne, hown⟩ | ⟨hmem, hident⟩⟩
    · exact .inl ⟨hne, a, n, hn, hown⟩
    · exact .inr ⟨hmem, a, n, hn, hident⟩
  · rintro (⟨hne, a, n, hn, hown⟩ | ⟨hmem, a, n, hn, hident⟩)
    · exact ⟨a, n, hn, .inl ⟨hne, hown⟩⟩
    · exact ⟨a, n, hn, .inr ⟨hmem, hident⟩⟩

/-! ## Names that occur only as members of other objects -/

/-- **A member of another object is taken for a field of the same name.** Let no node of the body
access `name` through the object itself, and let every identifier with that text be the member of an
access to something else. Then `name` is not among the used fields exactly if the class declares no
such field or there is no such access at all. -/
theorem foreign_member_unused_iff (hl : (profile, form) ∈ memberLanguages)
    (hb : method.child? "body" = some body) (declared : List String)
    (hown : ∀ a n, body.at? a = some n → ¬ form.Own n name)
    (hforeign : ∀ a n, body.at? a = some n → n.kind = "identifier" → n.text = name →
      form.IsForeignMember body a) :
    name ∉ usedFields profile declared method ↔
      name ∉ declared ∨ ∀ a n, body.at? a = some n → ¬ form.Foreign n name := by
  have hnone : ¬ (name ≠ "" ∧ ∃ a n, body.at? a = some n ∧ form.Own n name) := by
    rintro ⟨-, a, n, hn, h⟩
    exact hown a n hn h
  have hident : (∃ a n, body.at? a = some n ∧ n.kind = "identifier" ∧ n.text = name) ↔
      ∃ a n, body.at? a = some n ∧ form.Foreign n name := by
    constructor
    · rintro ⟨a, n, hn, hkind, htext⟩
      exact (hforeign a n hn hkind htext).foreign hn hkind htext
    · rintro ⟨a, n, hn, h⟩
      exact h.exists_identifier hn
  rw [mem_usedFields hl hb, or_iff_right hnone, hident, not_and_or]
  apply or_congr Iff.rfl
  constructor
  · intro h a n hn haccess
    exact h ⟨a, n, hn, haccess⟩
  · rintro h ⟨a, n, hn, haccess⟩
    exact h a n hn haccess

namespace Sample

/-- The count of another counter, `other.count`. -/
def otherCount : Node :=
  .mk "field_access" true "other.count" none 0 0
    [some (.mk "identifier" true "other" (some "object") 0 0 []),
     some (.mk "." false "." none 0 0 []),
     some (.mk "identifier" true "count" (some "field") 0 0 [])]

/-- A body that returns it. -/
def returnOther : Node :=
  .mk "block" true "" (some "body") 0 0 [some otherCount]

/-- The method with that body. -/
def ofOther : Node :=
  .mk "method_declaration" true "" none 0 0
    [some (.mk "identifier" true "ofOther" (some "name") 0 0 []), some returnOther]

/-- How Java writes an access. -/
def javaAccess : AccessForm := ⟨"field_access", "object", "field"⟩

theorem returnOther_outline :
    returnOther.outline (fun _ => true) =
      [([], returnOther), ([0], otherCount),
       ([0, 0], .mk "identifier" true "other" (some "object") 0 0 []),
       ([0, 1], .mk "." false "." none 0 0 []),
       ([0, 2], .mk "identifier" true "count" (some "field") 0 0 [])] := rfl

theorem returnOther_not_own (a : List Nat) (n : Node) (h : returnOther.at? a = some n) :
    ¬ javaAccess.Own n "count" := by
  have hall : ∀ e ∈ returnOther.outline fun _ => true, ¬ javaAccess.Own e.2 "count" := by
    rw [returnOther_outline]
    decide
  exact hall (a, n) (Syntax.mem_outline.mpr ⟨h, fun _ _ => rfl⟩)

theorem returnOther_foreign (a : List Nat) (n : Node) (h : returnOther.at? a = some n)
    (_ : n.kind = "identifier") (htext : n.text = "count") :
    javaAccess.IsForeignMember returnOther a := by
  have hall : ∀ e ∈ returnOther.outline fun _ => true, e.2.text = "count" → e.1 = [0, 2] := by
    rw [returnOther_outline]
    decide
  obtain rfl := hall (a, n) (Syntax.mem_outline.mpr ⟨h, fun _ _ => rfl⟩) htext
  exact ⟨[0], 2, otherCount, _, rfl, rfl, rfl, rfl, rfl, by decide⟩

end Sample

/-- A class without a field of that name does not use the count of the other counter; one with such
a field does. -/
theorem foreign_member_unused_iff_count :
    (∀ a n, Sample.returnOther.at? a = some n → ¬ Sample.javaAccess.Own n "count") ∧
      (∀ a n, Sample.returnOther.at? a = some n → n.kind = "identifier" → n.text = "count" →
        Sample.javaAccess.IsForeignMember Sample.returnOther a) ∧
      "count" ∉ usedFields .java ["total"] Sample.ofOther ∧
      ¬ "count" ∉ usedFields .java ["count"] Sample.ofOther := by
  have hiff : ∀ declared, "count" ∉ usedFields .java declared Sample.ofOther ↔
      "count" ∉ declared ∨
        ∀ a n, Sample.returnOther.at? a = some n → ¬ Sample.javaAccess.Foreign n "count" := by
    intro declared
    exact foreign_member_unused_iff List.mem_cons_self rfl declared Sample.returnOther_not_own
      Sample.returnOther_foreign
  refine ⟨Sample.returnOther_not_own, Sample.returnOther_foreign, ?_, ?_⟩
  · exact (hiff ["total"]).mpr (.inl (by decide))
  · intro h
    rcases (hiff ["count"]).mp h with hcount | hnone
    · exact hcount (by decide)
    · exact hnone [0] Sample.otherCount rfl
        ⟨rfl, _, _, rfl, by decide, rfl, rfl, rfl⟩

/-- **A member of another object counts as a field.** No node of the body accesses the count of the
object itself, and the only identifier `count` is the member of an access to another object. -/
theorem foreign_count_is_used :
    (∀ a n, Sample.returnOther.at? a = some n → ¬ Sample.javaAccess.Own n "count") ∧
      (∀ a n, Sample.returnOther.at? a = some n → n.kind = "identifier" → n.text = "count" →
        Sample.javaAccess.IsForeignMember Sample.returnOther a) ∧
      Sample.ofOther.child? "body" = some Sample.returnOther ∧
      usedFields .java ["count"] Sample.ofOther = ["count"] := by
  refine ⟨Sample.returnOther_not_own, Sample.returnOther_foreign, rfl, ?_⟩
  decide +kernel

end Metrics

end ClassCohesion
