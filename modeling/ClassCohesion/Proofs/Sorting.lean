import Mathlib.Data.List.Nodup
import Mathlib.Algebra.Order.Ring.Rat
import Mathlib.Data.List.Perm.Basic
import Mathlib.Data.Nat.Cast.Order.Basic
import Mathlib.Tactic.Choose
import ClassCohesion.Analysis.Basic

/-!
# The orders of an analysis

Sorting erases the order in which things came, as far as the order sorted by tells them apart.

- `inFileOrder_eq`: results that come in any order go back to the order of their files.
- `collationLe_trans`, `collationLe_total`: the alphabetical order compares any two texts and is
  transitive. It need not tell texts apart.
- `mergeSort_falling`, `pairwise_mergeSort_falling`: what a stable sort by falling counts does.
- `StablySorted`: what a stable sort by falling values is, and `sortBy_stablySorted` that classes
  are sorted so by a value that is a count.
-/

namespace ClassCohesion

variable {γ : Type}

/-- A sort forgets the order of a list whose elements the order tells apart. -/
theorem mergeSort_eq_of_perm {le : γ → γ → Bool} (trans : ∀ a b c, le a b → le b c → le a c)
    (total : ∀ a b, le a b || le b a) {l₁ l₂ : List γ} (h : l₁.Perm l₂)
    (anti : ∀ a ∈ l₁, ∀ b ∈ l₁, le a b → le b a → a = b) :
    l₁.mergeSort le = l₂.mergeSort le := by
  have hp₁ := List.mergeSort_perm l₁ le
  have hp₂ := List.mergeSort_perm l₂ le
  refine List.Perm.eq_of_pairwise (fun a b ha hb => ?_) (List.pairwise_mergeSort trans total l₁)
    (List.pairwise_mergeSort trans total l₂) (hp₁.trans (h.trans hp₂.symm))
  exact anti a (hp₁.mem_iff.mp ha) b (h.mem_iff.mpr (hp₂.mem_iff.mp hb))

/-- Under such an order, what is sorted and then selected is what is selected and then sorted. -/
theorem filter_mergeSort {le : γ → γ → Bool} (trans : ∀ a b c, le a b → le b c → le a c)
    (total : ∀ a b, le a b || le b a) {l : List γ}
    (anti : ∀ a ∈ l, ∀ b ∈ l, le a b → le b a → a = b) (keep : γ → Bool) :
    (l.mergeSort le).filter keep = (l.filter keep).mergeSort le := by
  have hperm := List.mergeSort_perm l le
  refine List.Perm.eq_of_pairwise (fun a b ha hb => ?_)
    ((List.pairwise_mergeSort trans total l).filter keep) (List.pairwise_mergeSort trans total _)
    ((hperm.filter keep).trans (List.mergeSort_perm _ _).symm)
  exact anti a (hperm.mem_iff.mp (List.mem_of_mem_filter ha)) b
    (List.mem_of_mem_filter ((List.mergeSort_perm _ _).mem_iff.mp hb))

theorem Number.lt_ofNat (m n : Nat) : Number.lt (m : Number) (n : Number) = decide (m < n) := by
  simp only [Number.lt, Number.ofNat, Nat.cast_lt]

theorem Number.ofNat_inj {m n : Nat} : (m : Number) = (n : Number) ↔ m = n := by
  simp only [Number.ofNat, Number.finite.injEq, Nat.cast_inj]

/-! ## Sorting by falling counts -/

section Falling

variable {value : γ → Number} {l : List γ}

/-- A sort by falling values that are counts is one, and where values are the same it keeps the
order. -/
theorem mergeSort_falling (hcount : ∀ a ∈ l, ∃ n : Nat, value a = n) :
    (l.mergeSort fun a b => !Number.lt (value a) (value b)).Pairwise
        (fun a b => Number.lt (value a) (value b) = false) ∧
      ∀ v, (l.mergeSort fun a b => !Number.lt (value a) (value b)).filter (value · = v) =
        l.filter (value · = v) := by
  choose! count h using hcount
  let byCount : γ → γ → Bool := fun a b => decide (count b ≤ count a)
  have hle : ∀ a ∈ l, ∀ b ∈ l, (!Number.lt (value a) (value b)) = byCount a b := by
    intro a ha b hb
    rw [h a ha, h b hb, Number.lt_ofNat]
    simp only [byCount, ← Nat.not_lt, decide_not]
  have htrans : ∀ a b c, byCount a b → byCount b c → byCount a c := by
    intro a b c hab hbc
    simp only [byCount, decide_eq_true_eq] at hab hbc ⊢
    exact hbc.trans hab
  have htotal : ∀ a b, byCount a b || byCount b a := by
    intro a b
    simp only [byCount, Bool.or_eq_true, decide_eq_true_eq]
    exact Nat.le_total _ _
  have hsort : (l.mergeSort fun a b => !Number.lt (value a) (value b)) = l.mergeSort byCount := by
    simpa only [List.map_id] using List.map_mergeSort (f := id) hle
  have hperm : (l.mergeSort byCount).Perm l := List.mergeSort_perm _ _
  rw [hsort]
  refine ⟨?_, fun v => ?_⟩
  · refine (List.pairwise_mergeSort htrans htotal l).imp_of_mem ?_
    intro a b ha hb hab
    rw [← hle a (hperm.mem_iff.mp ha) b (hperm.mem_iff.mp hb)] at hab
    simpa using hab
  · -- what has one value is in order already, so the sort keeps it as a sublist
    have hpair : (l.filter (value · = v)).Pairwise fun a b => byCount a b = true := by
      refine List.pairwise_of_forall_mem_list fun a ha b hb => ?_
      obtain ⟨ha, hva⟩ := List.mem_filter.mp ha
      obtain ⟨hb, hvb⟩ := List.mem_filter.mp hb
      rw [decide_eq_true_eq] at hva hvb
      rw [← hle a ha b hb, hva, ← hvb, h b hb, Number.lt_ofNat]
      simp
    have hsub : (l.filter (value · = v)).Sublist (l.mergeSort byCount) :=
      List.sublist_mergeSort htrans htotal hpair List.filter_sublist
    have hsub := hsub.filter (value · = v)
    simp only [List.filter_filter, Bool.and_self] at hsub
    exact (hsub.eq_of_length (hperm.filter _).length_eq.symm).symm

/-- **A stable sort refines an order.** What was in some order is in the lexicographic one of the
value and that order. -/
theorem pairwise_mergeSort_falling {R : γ → γ → Prop} (hcount : ∀ a ∈ l, ∃ n : Nat, value a = n)
    (h : l.Pairwise R) :
    (l.mergeSort fun a b => !Number.lt (value a) (value b)).Pairwise fun a b =>
      Number.lt (value b) (value a) = true ∨ value a = value b ∧ R a b := by
  obtain ⟨hfalling, hstable⟩ := mergeSort_falling hcount
  rw [List.pairwise_iff_forall_sublist] at h hfalling ⊢
  intro a b hab
  have hmem : ∀ x ∈ [a, b], ∃ n : Nat, value x = n := fun x hx =>
    hcount x (List.mem_mergeSort.mp (hab.subset hx))
  obtain ⟨m, hm⟩ := hmem a (by simp)
  obtain ⟨n, hn⟩ := hmem b (by simp)
  have hnot := hfalling hab
  rw [hm, hn, Number.lt_ofNat, decide_eq_false_iff_not, Nat.not_lt] at hnot
  rcases Nat.lt_or_eq_of_le hnot with hlt | rfl
  · left
    rw [hm, hn, Number.lt_ofNat]
    exact decide_eq_true hlt
  · -- a pair with one value is one of the list before the sort
    right
    have hpair : [a, b].filter (value · = n) = [a, b] := by simp [hm, hn]
    have hsub := hab.filter (value · = n)
    rw [hstable, hpair] at hsub
    exact ⟨hm.trans hn.symm, h (hsub.trans List.filter_sublist)⟩

end Falling

namespace Analysis

/-! ## The order of files -/

theorem position_getElem {files : List String} (hnd : files.Nodup) {i : Nat}
    (hi : i < files.length) : position files files[i] = i := by
  have hlt : files.length - 1 - i < files.reverse.length := by
    rw [List.length_reverse]
    omega
  have hrev : files.reverse[files.length - 1 - i] = files[i] := by
    rw [List.getElem_reverse]
    congr 1
    omega
  unfold position
  rw [← hrev, List.Nodup.idxOf_getElem (List.nodup_reverse.mpr hnd)]
  omega

theorem position_inj {files : List String} (hnd : files.Nodup) {a b : String}
    (ha : a ∈ files) (hb : b ∈ files) (h : position files a = position files b) : a = b := by
  obtain ⟨i, hi, rfl⟩ := List.getElem_of_mem ha
  obtain ⟨j, hj, rfl⟩ := List.getElem_of_mem hb
  rw [position_getElem hnd hi, position_getElem hnd hj] at h
  subst h
  rfl

theorem getElem?_eq_some_iff_position {files : List String} (hnd : files.Nodup) {path : String}
    (h : path ∈ files) {i : Nat} : files[i]? = some path ↔ i = position files path := by
  constructor
  · intro hi
    obtain ⟨hlt, rfl⟩ := List.getElem?_eq_some_iff.mp hi
    exact (position_getElem hnd hlt).symm
  · rintro rfl
    obtain ⟨i, hi, rfl⟩ := List.getElem_of_mem h
    rw [position_getElem hnd hi, List.getElem?_eq_getElem hi]

theorem position_pairwise_lt {files : List String} (hnd : files.Nodup) :
    files.Pairwise fun a b => position files a < position files b := by
  rw [List.pairwise_iff_getElem]
  intro i j hi hj hij
  rwa [position_getElem hnd hi, position_getElem hnd hj]

/-- **Back to the order of the files.** Results of distinct files, one for each file that has one,
are put in the order of the files. -/
theorem inFileOrder_eq {α : Type} {fileOf : α → String} {files : List String}
    {resultFor : String → Option α} {results : List α} (hnd : files.Nodup)
    (hfile : ∀ file r, resultFor file = some r → fileOf r = file)
    (h : results.Perm (files.filterMap resultFor)) :
    inFileOrder fileOf files results = files.filterMap resultFor := by
  have hmem : ∀ r ∈ results, fileOf r ∈ files ∧ resultFor (fileOf r) = some r := by
    intro r hr
    obtain ⟨file, hf, hres⟩ := List.mem_filterMap.mp (h.mem_iff.mp hr)
    rw [hfile file r hres]
    exact ⟨hf, hres⟩
  have hsorted : (files.filterMap resultFor).Pairwise fun a b =>
      decide (position files (fileOf a) ≤ position files (fileOf b)) = true := by
    refine (position_pairwise_lt hnd).filterMap resultFor fun a b hab r hr r' hr' => ?_
    rw [hfile a r hr, hfile b r' hr', decide_eq_true_eq]
    exact Nat.le_of_lt hab
  unfold inFileOrder
  rw [mergeSort_eq_of_perm _ _ h _, List.mergeSort_of_pairwise hsorted]
  · intro a b c hab hbc
    rw [decide_eq_true_eq] at hab hbc ⊢
    exact hab.trans hbc
  · intro a b
    rw [Bool.or_eq_true, decide_eq_true_eq, decide_eq_true_eq]
    exact Nat.le_total _ _
  · intro a ha b hb hab hba
    rw [decide_eq_true_eq] at hab hba
    have heq := position_inj hnd (hmem a ha).1 (hmem b hb).1 (Nat.le_antisymm hab hba)
    have hsome := (hmem a ha).2
    rw [heq, (hmem b hb).2] at hsome
    exact (Option.some.inj hsome).symm

end Analysis

namespace Text

/-! ## The alphabetical order -/

theorem lexLe_total : ∀ a b : List Nat, lexLe a b || lexLe b a
  | [], _ => rfl
  | _ :: _, [] => rfl
  | a :: as, b :: bs => by
    have ih := lexLe_total as bs
    rw [Bool.or_eq_true] at ih ⊢
    simp only [lexLe, Bool.or_eq_true, Bool.and_eq_true, decide_eq_true_eq]
    rcases Nat.lt_trichotomy a b with h | h | h
    · exact .inl (.inl h)
    · rcases ih with ih | ih
      · exact .inl (.inr ⟨h, ih⟩)
      · exact .inr (.inr ⟨h.symm, ih⟩)
    · exact .inr (.inl h)

theorem lexLe_trans : ∀ a b c : List Nat, lexLe a b → lexLe b c → lexLe a c
  | [], _, _, _, _ => rfl
  | _ :: _, [], _, h, _ => by cases h
  | _ :: _, _ :: _, [], _, h => by cases h
  | a :: as, b :: bs, c :: cs, hab, hbc => by
    simp only [lexLe, Bool.or_eq_true, Bool.and_eq_true, decide_eq_true_eq] at hab hbc ⊢
    rcases hab with hab | ⟨rfl, hab⟩
    · rcases hbc with hbc | ⟨rfl, -⟩
      · exact .inl (Nat.lt_trans hab hbc)
      · exact .inl hab
    · rcases hbc with hbc | ⟨rfl, hbc⟩
      · exact .inl hbc
      · exact .inr ⟨rfl, lexLe_trans as bs cs hab hbc⟩

theorem lexLe_antisymm : ∀ a b : List Nat, lexLe a b → lexLe b a → a = b
  | [], [], _, _ => rfl
  | [], _ :: _, _, h => by cases h
  | _ :: _, [], h, _ => by cases h
  | a :: as, b :: bs, hab, hba => by
    simp only [lexLe, Bool.or_eq_true, Bool.and_eq_true, decide_eq_true_eq] at hab hba
    rcases hab with hab | ⟨rfl, hab⟩
    · rcases hba with hba | ⟨rfl, -⟩
      · exact absurd hba (Nat.lt_asymm hab)
      · exact absurd hab (Nat.lt_irrefl _)
    · rcases hba with hba | ⟨-, hba⟩
      · exact absurd hba (Nat.lt_irrefl _)
      · rw [lexLe_antisymm as bs hab hba]

theorem collationLe_total (a b : String) : collationLe a b || collationLe b a := by
  by_cases h : collationKey a = collationKey b
  · simp only [collationLe, h, if_true]
    exact lexLe_total _ _
  · simp only [collationLe, h, Ne.symm h, if_false]
    exact lexLe_total _ _

theorem collationLe_trans (a b c : String) (hab : collationLe a b) (hbc : collationLe b c) :
    collationLe a c := by
  unfold collationLe at hab hbc ⊢
  dsimp only at hab hbc ⊢
  by_cases h₁ : collationKey a = collationKey b
  · rw [if_pos h₁] at hab
    rw [h₁]
    by_cases h₂ : collationKey b = collationKey c
    · rw [if_pos h₂] at hbc ⊢
      exact lexLe_trans _ _ _ hab hbc
    · rw [if_neg h₂] at hbc ⊢
      exact hbc
  · rw [if_neg h₁] at hab
    by_cases h₂ : collationKey b = collationKey c
    · rw [← h₂, if_neg h₁]
      exact hab
    · rw [if_neg h₂] at hbc
      by_cases h₃ : collationKey a = collationKey c
      · rw [h₃] at hab
        exact absurd (lexLe_antisymm _ _ hbc hab) h₂
      · rw [if_neg h₃]
        exact lexLe_trans _ _ _ hab hbc

end Text

namespace Report

/-! ## The order of classes -/

/-- The second list is the first one sorted by falling value, and where values are the same it has
the order of the first. -/
structure StablySorted (value : ClassMetrics → Number) (before after : List ClassMetrics) :
    Prop where
  perm : after.Perm before
  falling : after.Pairwise fun a b => Number.lt (value a) (value b) = false
  stable : ∀ v, after.filter (value · = v) = before.filter (value · = v)

/-- Classes whose value is a count are sorted by it. -/
theorem sortBy_stablySorted {value : ClassMetrics → Number} {classes : List ClassMetrics}
    (hcount : ∀ c ∈ classes, ∃ n : Nat, value c = n) :
    StablySorted value classes (sortBy value classes) := by
  obtain ⟨hfalling, hstable⟩ := mergeSort_falling hcount
  exact ⟨List.mergeSort_perm _ _, hfalling, hstable⟩

end Report

end ClassCohesion
