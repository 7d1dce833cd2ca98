import Mathlib.Data.List.FinRange
import Mathlib.Data.List.Perm.Basic
import ClassCohesion.Proofs.MethodGroups

/-!
# The more methods use, the fewer groups there are

How a change of the methods changes the lack of cohesion. The order of the methods does not matter,
and a method that uses more fields can only join groups. One more method takes the place of the
groups that it shares a field with.

- `classCount_le_of_map`: if the methods of one list go onto those of another and use no more than
  their images, the other list has at most as many classes.
- `Reordered.exists_map`: reordered methods that use more are such images.
- `Grouping.snoc`: the groups that one more method touches become one group with it, and the others
  stay.
- `classCount_snoc`: so do the classes.
-/

namespace ClassCohesion.Metrics

open Relation (ReflTransGen)

variable {methods methods' : List (List String)} {used : List String} {i j : Nat}

/-! ## Methods that use more -/

/-- The second list holds the methods of the first in some order, each replaced by one that is
related to it. -/
def Reordered (related : List String → List String → Prop) (methods methods' : List (List String)) :
    Prop :=
  ∃ reordered, methods.Perm reordered ∧ List.Forall₂ related reordered methods'

/-- The same fields, in whatever order and number. -/
def SameFields (a b : List String) : Prop := ∀ field, field ∈ a ↔ field ∈ b

theorem Reordered.imp {r r' : List String → List String → Prop} (h : Reordered r methods methods')
    (hr : ∀ a b, r a b → r' a b) : Reordered r' methods methods' := by
  obtain ⟨reordered, hperm, hall⟩ := h
  exact ⟨reordered, hperm, hall.imp hr⟩

/-- What can be replaced can be put back. -/
theorem Reordered.flip {r : List String → List String → Prop} (h : Reordered r methods methods') :
    Reordered (fun a b => r b a) methods' methods := by
  obtain ⟨reordered, hperm, hall⟩ := h
  have hback : List.Forall₂ (fun a b => r b a) methods' reordered := hall.flip
  have hcomp : Relation.Comp (List.Forall₂ fun a b => r b a) List.Perm methods' methods :=
    ⟨reordered, hback, hperm.symm⟩
  rwa [List.forall₂_comp_perm_eq_perm_comp_forall₂] at hcomp

/-- Every method of the first list has a place of its own in the second. -/
theorem Reordered.exists_map {r : List String → List String → Prop}
    (h : Reordered r methods methods') :
    ∃ f : Fin methods.length → Fin methods'.length,
      Function.Surjective f ∧ ∀ i, r (methods.get i) (methods'.get (f i)) := by
  obtain ⟨reordered, hperm, hall⟩ := h
  -- the positions of the second list, put in the order of the first
  have hpositions : List.Forall₂ (fun a i => r a (methods'.get i)) reordered
      (List.finRange methods'.length) := by
    rw [← List.map_get_finRange methods', List.forall₂_map_right_iff] at hall
    exact hall
  obtain ⟨places, hplaces, hsame⟩ := List.perm_comp_forall₂ hperm hpositions
  obtain ⟨hlength, hget⟩ := List.forall₂_iff_get.mp hplaces
  refine ⟨fun i => places.get (i.cast hlength), fun j => ?_, fun i => hget _ _ _⟩
  obtain ⟨k, hk⟩ := List.get_of_mem (hsame.mem_iff.mpr (List.mem_finRange j))
  exact ⟨k.cast hlength.symm, hk⟩

/-- Methods that use more hang together where the others do. -/
theorem classCount_le_of_map {f : Fin methods.length → Fin methods'.length}
    (hf : Function.Surjective f) (huse : ∀ i, methods.get i ⊆ methods'.get (f i)) :
    classCount methods' ≤ classCount methods := by
  have hlink : ∀ i j, (hangTogether methods).r i j → (hangTogether methods').r (f i) (f j) := by
    intro i j h
    refine ReflTransGen.lift f ?_ _ _ h
    rintro a b ⟨field, ha, hb⟩
    exact ⟨field, huse a ha, huse b hb⟩
  refine Nat.card_le_card_of_surjective (Quotient.map f hlink) ?_
  intro q
  obtain ⟨j, rfl⟩ := Quotient.exists_rep q
  obtain ⟨i, rfl⟩ := hf j
  exact ⟨Quotient.mk _ i, rfl⟩

theorem classCount_antitone (h : Reordered (· ⊆ ·) methods methods') :
    classCount methods' ≤ classCount methods := by
  obtain ⟨f, hf, huse⟩ := h.exists_map
  exact classCount_le_of_map hf huse

theorem classCount_eq_of_same (h : Reordered SameFields methods methods') :
    classCount methods' = classCount methods := by
  apply Nat.le_antisymm
  · exact classCount_antitone (h.imp fun a b hab field => (hab field).mp)
  · exact classCount_antitone (h.flip.imp fun a b hab field => (hab field).mpr)

/-! ## One more method -/

namespace Joined

/-- One more method leaves those before it as they are. -/
theorem snoc_iff (hi : i < methods.length) (hj : j < methods.length) :
    Joined (methods ++ [used]) i j ↔ Joined methods i j := by
  unfold Joined
  rw [List.getD_append _ _ _ _ hi, List.getD_append _ _ _ _ hj]

theorem last_iff (hj : j < methods.length) :
    Joined (methods ++ [used]) methods.length j ↔ shareField used (methods.getD j []) = true := by
  rw [shareField_iff, Joined, List.getD_append _ _ _ _ hj,
    List.getD_append_right _ _ _ _ (Nat.le_refl _), Nat.sub_self]
  rfl

end Joined

/-- Methods that are linked stay linked when there is one more. -/
theorem linked_snoc (hi : i < methods.length) (h : ReflTransGen (Joined methods) i j) :
    ReflTransGen (Joined (methods ++ [used])) i j := by
  suffices hboth : ReflTransGen (Joined (methods ++ [used])) i j ∧ j < methods.length from hboth.1
  induction h with
  | refl => exact ⟨.refl, hi⟩
  | tail _ hstep ih =>
    exact ⟨ih.1.tail ((Joined.snoc_iff ih.2 hstep.lt_length).mpr hstep), hstep.lt_length⟩

/-- Whether a method shares a field with one of those at the given positions. -/
def touches (methods : List (List String)) (used : List String) (g : List Nat) : Bool :=
  g.any fun i => shareField used (methods.getD i [])

/-- Adds the position behind a list of methods to groups of positions. -/
def addPosition (methods : List (List String)) (used : List String) (groups : List (List Nat)) :
    List (List Nat) :=
  (methods.length :: (groups.filter (touches methods used)).flatten) ::
    groups.filter fun g => !touches methods used g

namespace Grouping

variable {groups : List (List Nat)} {g : List Nat}

theorem touches_iff (h : Grouping methods groups) (hg : g ∈ groups) :
    touches methods used g = true ↔
      ∃ i ∈ g, Joined (methods ++ [used]) methods.length i := by
  rw [touches, List.any_eq_true]
  exact exists_congr fun i => and_congr_right fun hi => (Joined.last_iff (h.lt_length hg hi)).symm

/-- The groups that a method touches hang together through it. -/
theorem linked_last (h : Grouping methods groups) (hg : g ∈ groups)
    (ht : touches methods used g = true) (hi : i ∈ g) :
    ReflTransGen (Joined (methods ++ [used])) i methods.length := by
  obtain ⟨k, hk, hjoined⟩ := (h.touches_iff hg).mp ht
  exact (linked_snoc (h.lt_length hg hi) (h.linked g hg i hi k hk)).tail hjoined.symm

/-- What is joined to a position of a group is in the group, or the group is touched. -/
theorem closed_snoc (h : Grouping methods groups) (hg : g ∈ groups) (hi : i ∈ g)
    (hj : Joined (methods ++ [used]) i j) :
    j ∈ g ∨ j = methods.length ∧ touches methods used g = true := by
  have hlt := hj.lt_length
  rw [List.length_append, List.length_singleton] at hlt
  rcases Nat.lt_succ_iff_lt_or_eq.mp hlt with hold | rfl
  · exact .inl (h.closed g hg i hi j ((Joined.snoc_iff (h.lt_length hg hi) hold).mp hj))
  · exact .inr ⟨rfl, (h.touches_iff hg).mpr ⟨i, hi, hj.symm⟩⟩

theorem positions_snoc (h : Grouping methods groups) (used : List String) :
    (addPosition methods used groups).flatten.Perm (List.range (methods ++ [used]).length) := by
  have hsplit := (List.filter_append_perm (touches methods used) groups).flatten
  rw [List.flatten_append] at hsplit
  rw [List.length_append, List.length_singleton, List.range_succ, addPosition, List.flatten_cons,
    List.cons_append]
  exact ((hsplit.trans h.positions).cons _).trans (List.perm_append_singleton _ _).symm

/-- **One more method.** The groups that it touches become one with it, and the others stay. -/
theorem snoc (h : Grouping methods groups) (used : List String) :
    Grouping (methods ++ [used]) (addPosition methods used groups) := by
  -- where the positions of the group of the new method come from
  have hnew : ∀ i ∈ methods.length :: (groups.filter (touches methods used)).flatten,
      i = methods.length ∨ ∃ g ∈ groups, touches methods used g = true ∧ i ∈ g := by
    intro i hi
    refine (List.mem_cons.mp hi).imp id fun hi => ?_
    obtain ⟨g, hg, hi⟩ := List.mem_flatten.mp hi
    exact ⟨g, (List.mem_filter.mp hg).1, (List.mem_filter.mp hg).2, hi⟩
  have hold : ∀ g ∈ groups.filter fun g => !touches methods used g,
      g ∈ groups ∧ touches methods used g = false := by
    intro g hg
    exact ⟨(List.mem_filter.mp hg).1, by simpa using (List.mem_filter.mp hg).2⟩
  have hmerge : ∀ g ∈ groups, touches methods used g = true → ∀ j ∈ g,
      j ∈ methods.length :: (groups.filter (touches methods used)).flatten := by
    intro g hg ht j hj
    exact List.mem_cons_of_mem _ (List.mem_flatten.mpr ⟨g, List.mem_filter.mpr ⟨hg, ht⟩, hj⟩)
  refine ⟨h.positions_snoc used, ?_, ?_, ?_⟩
  · intro g hg
    rcases List.mem_cons.mp hg with rfl | hg
    · exact List.cons_ne_nil _ _
    · exact h.inhabited g (hold g hg).1
  · intro g hg i hi j hj
    rcases List.mem_cons.mp hg with rfl | hg
    · -- every position of the new group is linked to the last one
      have hlast : ∀ k ∈ methods.length :: (groups.filter (touches methods used)).flatten,
          ReflTransGen (Joined (methods ++ [used])) k methods.length := by
        intro k hk
        rcases hnew k hk with rfl | ⟨g, hg, ht, hk⟩
        · exact .refl
        · exact h.linked_last hg ht hk
      exact (hlast i hi).trans (linked_symm (hlast j hj))
    · have hg := (hold g hg).1
      exact linked_snoc (h.lt_length hg hi) (h.linked g hg i hi j hj)
  · intro g hg i hi j hj
    rcases List.mem_cons.mp hg with rfl | hg
    · rcases hnew i hi with rfl | ⟨g, hg, ht, hi⟩
      · have hlt := hj.lt_length
        rw [List.length_append, List.length_singleton] at hlt
        rcases Nat.lt_succ_iff_lt_or_eq.mp hlt with hlt | rfl
        · obtain ⟨g, hg, hjg⟩ := h.exists_mem hlt
          exact hmerge g hg ((h.touches_iff hg).mpr ⟨j, hjg, hj⟩) j hjg
        · exact List.mem_cons_self
      · rcases h.closed_snoc hg hi hj with hjg | ⟨rfl, -⟩
        · exact hmerge g hg ht j hjg
        · exact List.mem_cons_self
    · obtain ⟨hg, ht⟩ := hold g hg
      rcases h.closed_snoc hg hi hj with hjg | ⟨-, ht'⟩
      · exact hjg
      · rw [ht] at ht'
        cases ht'

end Grouping

/-- A class of methods, one of which uses a field of the given ones. -/
def Touched (used : List String) (q : Quotient (hangTogether methods)) : Prop :=
  ∃ i, Quotient.mk (hangTogether methods) i = q ∧
    ∃ field, field ∈ used ∧ field ∈ methods.get i

/-- The number of classes that a method touches. -/
noncomputable def touchedCount (methods : List (List String)) (used : List String) : Nat :=
  Nat.card { q : Quotient (hangTogether methods) // Touched used q }

theorem card_positions {γ : Type} (p : γ → Bool) (l : List γ) :
    Nat.card { k : Fin l.length // p (l.get k) = true } = (l.filter p).length := by
  rw [Nat.card_eq_fintype_card, Fintype.card_subtype]
  conv_rhs => rw [← List.map_get_finRange l, List.filter_map, List.length_map]
  simp only [Finset.card, Finset.filter, Fin.univ_def, Multiset.filter_coe, Multiset.coe_card,
    Bool.decide_eq_true, Function.comp_def]

/-- The groups that a method touches are those of the classes that it touches. -/
theorem Grouping.length_touching {groups : List (List Nat)} (h : Grouping methods groups) :
    (groups.filter (touches methods used)).length = touchedCount methods used := by
  obtain ⟨classOf, hbij, hclass⟩ := h.exists_classOf
  rw [← card_positions, touchedCount]
  refine Nat.card_congr ((Equiv.ofBijective classOf hbij).subtypeEquiv fun k => ?_)
  rw [Equiv.ofBijective_apply, touches, List.any_eq_true]
  constructor
  · rintro ⟨i, hi, hshare⟩
    have hlt := h.lt_length (List.get_mem groups k) hi
    rw [List.getD_eq_getElem _ _ hlt, shareField_iff] at hshare
    exact ⟨⟨i, hlt⟩, ((hclass k ⟨i, hlt⟩).mpr hi).symm, hshare⟩
  · rintro ⟨i, hi, hshare⟩
    refine ⟨i, (hclass k i).mp hi.symm, ?_⟩
    rw [List.getD_eq_getElem _ _ i.isLt, shareField_iff]
    exact hshare

/-- **One more method** and the classes that it touches are one class. -/
theorem classCount_snoc (methods : List (List String)) (used : List String) :
    classCount (methods ++ [used]) + touchedCount methods used = classCount methods + 1 := by
  obtain ⟨groups, h, -⟩ := exists_grouping methods
  have hsplit := (List.filter_append_perm (touches methods used) groups).length_eq
  rw [List.length_append] at hsplit
  rw [← (h.snoc used).card, ← h.card, ← h.length_touching, addPosition, List.length_cons]
  omega

/-! ## The lack of cohesion -/

/-- **More use, fewer groups.** With a declared field, the lack of cohesion does not depend on the
order of the methods and cannot grow when methods use more fields. One more method adds one group
and takes away those that it shares a field with. -/
theorem lackOfCohesion_symmetric_antitone (fields : List String) (hf : fields ≠ []) :
    (∀ methods methods', Reordered (· ⊆ ·) methods methods' →
      lackOfCohesion methods' fields ≤ lackOfCohesion methods fields) ∧
    (∀ methods methods', Reordered SameFields methods methods' →
      lackOfCohesion methods' fields = lackOfCohesion methods fields) ∧
    ∀ methods used,
      (lackOfCohesion (methods ++ [used]) fields : ℤ) - lackOfCohesion methods fields =
        1 - Nat.card { q : Quotient (hangTogether methods) // Touched used q } := by
  simp only [lackOfCohesion_of_fields hf]
  refine ⟨fun _ _ => classCount_antitone, fun _ _ => classCount_eq_of_same, ?_⟩
  intro methods used
  have hsnoc := classCount_snoc methods used
  rw [touchedCount] at hsnoc
  omega

/-- Two methods change places and one of them comes to use the field of the other; a method that
uses both fields touches both groups. -/
theorem lackOfCohesion_symmetric_antitone_pair :
    ["a"] ≠ [] ∧ Reordered (· ⊆ ·) [["a"], ["b"]] [["b", "a"], ["a"]] ∧
      lackOfCohesion [["b", "a"], ["a"]] ["a"] = 1 ∧ lackOfCohesion [["a"], ["b"]] ["a"] = 2 ∧
      lackOfCohesion [["b", "a"], ["a"]] ["a"] ≤ lackOfCohesion [["a"], ["b"]] ["a"] ∧
      Reordered SameFields [["a"], ["b"]] [["b", "b"], ["a"]] ∧
      lackOfCohesion [["b", "b"], ["a"]] ["a"] = lackOfCohesion [["a"], ["b"]] ["a"] ∧
      Nat.card { q : Quotient (hangTogether [["a"], ["b"]]) // Touched ["a", "b"] q } = 2 := by
  obtain ⟨hantitone, hsame, hsnoc⟩ := lackOfCohesion_symmetric_antitone ["a"] (by decide)
  have hmore : Reordered (· ⊆ ·) [["a"], ["b"]] [["b", "a"], ["a"]] :=
    ⟨[["b"], ["a"]], .swap _ _ _, .cons (by decide) (.cons (by decide) .nil)⟩
  have hequal : Reordered SameFields [["a"], ["b"]] [["b", "b"], ["a"]] :=
    ⟨[["b"], ["a"]], .swap _ _ _, .cons (by simp [SameFields]) (.cons (by simp [SameFields]) .nil)⟩
  have hboth := hsnoc [["a"], ["b"]] ["a", "b"]
  have hone : lackOfCohesion ([["a"], ["b"]] ++ [["a", "b"]]) ["a"] = 1 := by decide +kernel
  have htwo : lackOfCohesion [["a"], ["b"]] ["a"] = 2 := by decide +kernel
  rw [hone, htwo] at hboth
  exact ⟨by decide, hmore, by decide +kernel, htwo, hantitone _ _ hmore, hequal, hsame _ _ hequal,
    by omega⟩

end ClassCohesion.Metrics
