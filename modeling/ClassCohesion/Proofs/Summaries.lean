import Mathlib.Algebra.GroupWithZero.Nat
import Mathlib.Data.Finset.Dedup
import Mathlib.Data.List.Forall2
import Mathlib.Data.List.Perm.Basic
import ClassCohesion.Proofs.NameLists
import ClassCohesion.Proofs.Rounding
import ClassCohesion.Proofs.Sorting

/-!
# Summaries of counts

The measures of a class are natural numbers, held as `Number`s. As long as a total stays among the
safe integers no sum is rounded, so a total is the sum of the natural numbers, and an average is
rounded once. `Counted` lists the natural numbers that classes have as a measure.

- `Counted.total_eq`, `Counted.average_eq`, `Counted.maximum_eq`: one aggregate each.
- `Counted.perm`: classes in another order have the same numbers in another order, and no aggregate
  of a summary depends on that.
-/

namespace ClassCohesion

namespace Number

theorem safeLimit_le : safeLimit ≤ 2 ^ 53 := Nat.sub_le _ _

/-- No sum within the safe limit is rounded. -/
theorem ofNat_add {m n : Nat} (h : m + n ≤ safeLimit) :
    (m : Number) + (n : Number) = (m + n : Nat) := by
  have hbits : m + n ≤ 2 ^ 53 := Nat.le_trans h safeLimit_le
  show round ((m : ℚ) + n) = finite (m + n : Nat)
  rw [← round_exact hbits, Nat.cast_add]

theorem max_ofNat (m n : Nat) : Number.max m n = (Nat.max m n : Nat) := by
  show (if Number.lt m n then (n : Number) else m) = _
  rw [Number.lt_ofNat]
  by_cases h : m < n
  · simp [h, Nat.max_eq_right (Nat.le_of_lt h)]
  · simp [h, Nat.max_eq_left (Nat.le_of_not_lt h)]

end Number

namespace Report

variable {value : ClassMetrics → Number} {classes classes' : List ClassMetrics} {counts : List Nat}

/-- The values of a measure, class by class, are these natural numbers. -/
def Counted (value : ClassMetrics → Number) (classes : List ClassMetrics) (counts : List Nat) :
    Prop :=
  List.Forall₂ (fun c n => value c = Number.ofNat n) classes counts

namespace Counted

/-! ## Aggregates -/

theorem foldl_add (h : Counted value classes counts) (start : Nat)
    (hsafe : start + counts.sum ≤ Number.safeLimit) :
    classes.foldl (fun sum c => sum + value c) (start : Number) =
      (start + counts.sum : Nat) := by
  induction h generalizing start with
  | nil => rfl
  | @cons c n classes counts hc _ ih =>
    rw [List.sum_cons, ← Nat.add_assoc] at hsafe ⊢
    -- no partial sum is above the total
    have hstep : (start : Number) + value c = (start + n : Nat) := by
      rw [hc]
      exact Number.ofNat_add (Nat.le_trans (Nat.le_add_right _ _) hsafe)
    rw [List.foldl_cons, hstep]
    exact ih (start + n) hsafe

theorem total_eq (h : Counted value classes counts) (hsafe : counts.sum ≤ Number.safeLimit) :
    total value classes = counts.sum := by
  have hfold := h.foldl_add 0 (by rwa [Nat.zero_add])
  rwa [Nat.zero_add] at hfold

/-- The average is the exact quotient, rounded once. -/
theorem average_eq (h : Counted value classes counts) (hsafe : counts.sum ≤ Number.safeLimit) :
    average value classes = Number.round ((counts.sum : ℚ) / classes.length) := by
  rw [average, h.total_eq hsafe]
  split
  · next hnone =>
    rw [List.isEmpty_iff.mp hnone, List.length_nil, Nat.cast_zero, div_zero, Number.round_zero]
    rfl
  · rfl

theorem foldl_max (h : Counted value classes counts) (start : Nat) :
    classes.foldl (fun most c => most.max (value c)) (start : Number) =
      (counts.foldl Nat.max start : Nat) := by
  induction h generalizing start with
  | nil => rfl
  | cons hc _ ih =>
    rw [List.foldl_cons, List.foldl_cons, hc, Number.max_ofNat]
    exact ih _

theorem maximum_eq (h : Counted value classes counts) :
    maximum value classes = (counts.max?.getD 0 : Nat) := by
  have hfold := h.foldl_max 0
  have hmax : counts.foldl Nat.max 0 = counts.max?.getD 0 := by
    cases counts with
    | nil => rfl
    | cons n counts =>
      rw [List.max?_cons', Option.getD_some, List.foldl_cons]
      congr 1
  rw [← hmax]
  exact hfold

theorem lowCohesion_eq (h : Counted ClassMetrics.lcom classes counts) :
    classes.countP isLowCohesion = counts.countP (1 < ·) := by
  induction h with
  | nil => rfl
  | @cons c n _ _ hc _ ih =>
    have hlow : isLowCohesion c = decide (1 < n) := by
      rw [isLowCohesion, hc]
      exact Number.lt_ofNat 1 n
    rw [List.countP_cons, List.countP_cons, ih, hlow]

/-! ## Classes in another order -/

theorem perm (h : Counted value classes counts) (hp : classes'.Perm classes) :
    ∃ counts', Counted value classes' counts' ∧ counts'.Perm counts :=
  List.perm_comp_forall₂ hp h

end Counted

theorem max?_perm {ms ns : List Nat} (h : ms.Perm ns) : ms.max? = ns.max? := by
  ext n
  simp only [List.max?_eq_some_iff, h.mem_iff]

theorem length_firstSeen (paths : List String) :
    (Syntax.firstSeen paths).length = paths.toFinset.card := by
  rw [Syntax.firstSeen_eq_eraseDups, ← List.toFinset_card_of_nodup (Syntax.nodup_eraseDups paths)]
  congr 1
  ext path
  simp

/-! ## The summary -/

/-- The natural numbers that classes have as the measures of a summary. -/
structure CountedBy (classes : List ClassMetrics) (wmc cbo rfc lcom dit : List Nat) : Prop where
  wmc : Counted ClassMetrics.wmc classes wmc
  cbo : Counted ClassMetrics.cbo classes cbo
  rfc : Counted ClassMetrics.rfc classes rfc
  lcom : Counted ClassMetrics.lcom classes lcom
  dit : Counted ClassMetrics.dit classes dit

/-- The summary of classes with the given paths and natural numbers. -/
def summaryOf (paths : List String) (wmc cbo rfc lcom dit : List Nat) : Summary where
  totalClasses := paths.length
  totalFiles := paths.toFinset.card
  avgWMC := Number.round ((wmc.sum : ℚ) / paths.length)
  avgCBO := Number.round ((cbo.sum : ℚ) / paths.length)
  avgRFC := Number.round ((rfc.sum : ℚ) / paths.length)
  avgLCOM := Number.round ((lcom.sum : ℚ) / paths.length)
  maxWMC := (wmc.max?.getD 0 : Nat)
  maxCBO := (cbo.max?.getD 0 : Nat)
  maxRFC := (rfc.max?.getD 0 : Nat)
  maxLCOM := (lcom.max?.getD 0 : Nat)
  maxDIT := (dit.max?.getD 0 : Nat)
  lowCohesionCount := lcom.countP (1 < ·)

section

variable {wmc cbo rfc lcom dit wmc' cbo' rfc' lcom' dit' : List Nat}

theorem CountedBy.summarize_eq (h : CountedBy classes wmc cbo rfc lcom dit)
    (hsafe : ∀ counts ∈ [wmc, cbo, rfc, lcom], counts.sum ≤ Number.safeLimit) :
    summarize classes = summaryOf (classes.map ClassMetrics.path) wmc cbo rfc lcom dit := by
  simp only [List.forall_mem_cons] at hsafe
  obtain ⟨hwmc, hcbo, hrfc, hlcom, -⟩ := hsafe
  rw [summarize, summaryOf, h.wmc.average_eq hwmc, h.cbo.average_eq hcbo, h.rfc.average_eq hrfc,
    h.lcom.average_eq hlcom, h.wmc.maximum_eq, h.cbo.maximum_eq, h.rfc.maximum_eq,
    h.lcom.maximum_eq, h.dit.maximum_eq, h.lcom.lowCohesion_eq, length_firstSeen, List.length_map]

theorem summaryOf_perm {paths paths' : List String} (hpaths : paths'.Perm paths)
    (hwmc : wmc'.Perm wmc) (hcbo : cbo'.Perm cbo) (hrfc : rfc'.Perm rfc) (hlcom : lcom'.Perm lcom)
    (hdit : dit'.Perm dit) :
    summaryOf paths' wmc' cbo' rfc' lcom' dit' = summaryOf paths wmc cbo rfc lcom dit := by
  rw [summaryOf, summaryOf, hpaths.length_eq, List.toFinset_eq_of_perm _ _ hpaths, hwmc.sum_eq,
    hcbo.sum_eq, hrfc.sum_eq, hlcom.sum_eq, max?_perm hwmc, max?_perm hcbo, max?_perm hrfc,
    max?_perm hlcom, max?_perm hdit, hlcom.countP_eq]

theorem CountedBy.summarize_perm (h : CountedBy classes wmc cbo rfc lcom dit)
    (hsafe : ∀ counts ∈ [wmc, cbo, rfc, lcom], counts.sum ≤ Number.safeLimit)
    (hp : classes'.Perm classes) : summarize classes' = summarize classes := by
  obtain ⟨wmc', hwmc, hpwmc⟩ := h.wmc.perm hp
  obtain ⟨cbo', hcbo, hpcbo⟩ := h.cbo.perm hp
  obtain ⟨rfc', hrfc, hprfc⟩ := h.rfc.perm hp
  obtain ⟨lcom', hlcom, hplcom⟩ := h.lcom.perm hp
  obtain ⟨dit', hdit, hpdit⟩ := h.dit.perm hp
  have hsafe' : ∀ counts ∈ [wmc', cbo', rfc', lcom'], counts.sum ≤ Number.safeLimit := by
    simpa only [List.forall_mem_cons, hpwmc.sum_eq, hpcbo.sum_eq, hprfc.sum_eq, hplcom.sum_eq]
      using hsafe
  rw [h.summarize_eq hsafe, CountedBy.summarize_eq ⟨hwmc, hcbo, hrfc, hlcom, hdit⟩ hsafe']
  exact summaryOf_perm (hp.map _) hpwmc hpcbo hprfc hplcom hpdit

/-- **The summary of counts.** If the measures of classes are natural numbers with totals among the
safe integers, the summary holds the number of classes, of different paths and of classes with a
lack of cohesion above one, the exact averages, rounded once, and the maxima; without classes,
everything is zero. Classes in another order have the same summary, so a report that is put in the
order of a key keeps the summary of its classes. -/
theorem summary_true_in_any_order (h : CountedBy classes wmc cbo rfc lcom dit)
    (hsafe : ∀ counts ∈ [wmc, cbo, rfc, lcom], counts.sum ≤ Number.safeLimit) :
    summarize classes = summaryOf (classes.map ClassMetrics.path) wmc cbo rfc lcom dit ∧
    (classes = [] → summarize classes = ⟨0, 0, 0, 0, 0, 0, 0, 0, 0, 0, 0, 0⟩) ∧
    (∀ classes', classes'.Perm classes → summarize classes' = summarize classes) ∧
    ∀ (report : Report) (key : SortKey), report.classes = classes →
      report.summary = summarize report.classes →
      (report.orderBy key).summary = summarize (report.orderBy key).classes := by
  refine ⟨h.summarize_eq hsafe, ?_, fun classes' => h.summarize_perm hsafe, ?_⟩
  · rintro rfl
    rfl
  · rintro report key rfl hsummary
    have hsorted : (report.orderBy key).classes.Perm report.classes := List.mergeSort_perm _ _
    rw [h.summarize_perm hsafe hsorted]
    exact hsummary

end

namespace Sample

/-- A class with the measures that a summary takes. -/
def measured (path : String) (wmc cbo rfc lcom dit : Nat) : ClassMetrics where
  path
  className := "C"
  language := "java"
  startLine := 1
  endLine := 1
  loc := 1
  methods := []
  fields := []
  coupledClasses := []
  wmc
  cbo
  rfc
  lcom
  dit
  noc := 0
  nom := 0
  nof := 0

/-- Two classes of one file. -/
def twoClasses : List ClassMetrics :=
  [measured "/p/A.java" 3 1 4 2 0, measured "/p/A.java" 4 0 5 1 6]

theorem twoClasses_counted : CountedBy twoClasses [3, 4] [1, 0] [4, 5] [2, 1] [0, 6] where
  wmc := .cons rfl (.cons rfl .nil)
  cbo := .cons rfl (.cons rfl .nil)
  rfc := .cons rfl (.cons rfl .nil)
  lcom := .cons rfl (.cons rfl .nil)
  dit := .cons rfl (.cons rfl .nil)

end Sample

/-- Two classes of one file with weights three and four. -/
theorem summary_true_in_any_order_two :
    CountedBy Sample.twoClasses [3, 4] [1, 0] [4, 5] [2, 1] [0, 6] ∧
      (∀ counts ∈ [[3, 4], [1, 0], [4, 5], [2, 1]], counts.sum ≤ Number.safeLimit) ∧
      summarize Sample.twoClasses = summarize Sample.twoClasses.reverse ∧
      summarize Sample.twoClasses =
        { totalClasses := 2
          totalFiles := 1
          avgWMC := Number.round (7 / 2)
          avgCBO := Number.round (1 / 2)
          avgRFC := Number.round (9 / 2)
          avgLCOM := Number.round (3 / 2)
          maxWMC := 4
          maxCBO := 1
          maxRFC := 5
          maxLCOM := 2
          maxDIT := 6
          lowCohesionCount := 1 } := by
  have hsafe : ∀ counts ∈ [[3, 4], [1, 0], [4, 5], [2, 1]], counts.sum ≤ Number.safeLimit := by
    decide
  obtain ⟨hsummary, -, hperm, -⟩ := summary_true_in_any_order Sample.twoClasses_counted hsafe
  refine ⟨Sample.twoClasses_counted, hsafe, (hperm _ (List.reverse_perm _)).symm, ?_⟩
  rw [hsummary, summaryOf, Summary.mk.injEq]
  norm_num [Sample.twoClasses, Sample.measured]
  exact ⟨rfl, rfl, rfl, rfl, rfl⟩

end Report

end ClassCohesion
