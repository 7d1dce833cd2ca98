import Mathlib.Data.List.Basic
import ClassCohesion.Text.Units

/-!
# Texts as rows of code units

Code units tell texts apart, and padding, joining and cutting a text pad, join and cut its units.
Only a cut that falls inside a pair of surrogates is mended: the half that remains is replaced.

- `units_inj`: texts with the same units are the same.
- `units_truncate`: the units of a text that is cut to a width.
-/

namespace ClassCohesion.Text

/-! ## Characters -/

/-- The first half of a pair of surrogates. -/
def IsFirstHalf (u : Nat) : Prop := 0xD800 ≤ u ∧ u < 0xDC00

instance (u : Nat) : Decidable (IsFirstHalf u) :=
  inferInstanceAs (Decidable (0xD800 ≤ u ∧ u < 0xDC00))

/-- A character is one unit that is no half of a pair, or a pair of halves. -/
theorem charUnits_cases (c : Char) :
    c.toNat < 0x10000 ∧ charUnits c = [c.toNat] ∧ ¬IsFirstHalf c.toNat ∨
      ¬c.toNat < 0x10000 ∧ ∃ first second, charUnits c = [first, second] ∧
        IsFirstHalf first ∧ ¬IsFirstHalf second := by
  have hc : c.toNat < 0xD800 ∨ 0xDFFF < c.toNat ∧ c.toNat < 0x110000 := c.valid
  unfold charUnits IsFirstHalf
  by_cases hnarrow : c.toNat < 0x10000
  · rw [if_pos hnarrow]
    exact .inl ⟨hnarrow, rfl, by omega⟩
  · rw [if_neg hnarrow]
    exact .inr ⟨hnarrow, _, _, rfl, by omega, by omega⟩

/-- No character is half of a surrogate pair, so the first unit tells where a character ends. -/
theorem charUnits_append_inj {c d : Char} {as bs : List Nat}
    (h : charUnits c ++ as = charUnits d ++ bs) : c = d ∧ as = bs := by
  have hc : c.toNat < 0xD800 ∨ 0xDFFF < c.toNat ∧ c.toNat < 0x110000 := c.valid
  have hd : d.toNat < 0xD800 ∨ 0xDFFF < d.toNat ∧ d.toNat < 0x110000 := d.valid
  suffices hnat : c.toNat = d.toNat ∧ as = bs from ⟨Char.toNat_inj.mp hnat.1, hnat.2⟩
  unfold charUnits at h
  split at h <;> split at h <;>
    simp only [List.cons_append, List.nil_append, List.cons.injEq] at h
  · exact h
  · omega
  · omega
  · exact ⟨by omega, h.2.2⟩

theorem units_inj {a b : List Char} : units a = units b ↔ a = b := by
  refine ⟨fun h => ?_, congrArg units⟩
  have hne (c : Char) (cs : List Char) : units (c :: cs) ≠ [] := by
    rw [units_cons, charUnits]
    split <;> simp
  induction a generalizing b with
  | nil =>
    cases b with
    | nil => rfl
    | cons d b => exact absurd h.symm (hne d b)
  | cons c a ih =>
    cases b with
    | nil => exact absurd h (hne c a)
    | cons d b =>
      rw [units_cons, units_cons] at h
      obtain ⟨rfl, htail⟩ := charUnits_append_inj h
      rw [ih htail]

/-! ## Padding, joining and cutting -/

/-- The code unit of a blank. -/
def blank : Nat := 0x20

theorem units_replicate {c : Char} (h : c.toNat < 0x10000) (n : Nat) :
    units (List.replicate n c) = List.replicate n c.toNat := by
  induction n with
  | zero => rfl
  | succ n ih =>
    rw [List.replicate_succ, List.replicate_succ, units_cons, ih, charUnits, if_pos h]
    rfl

theorem units_padLeft (n : Nat) (s : String) :
    units (padLeft n s).toList = List.replicate (n - width s) blank ++ units s.toList := by
  rw [padLeft, String.toList_append, String.toList_ofList, units_append,
    units_replicate (by decide)]
  rfl

theorem units_padRight (n : Nat) (s : String) :
    units (padRight n s).toList = units s.toList ++ List.replicate (n - width s) blank := by
  rw [padRight, String.toList_append, String.toList_ofList, units_append,
    units_replicate (by decide)]
  rfl

theorem units_intercalate (sep : List Char) (parts : List (List Char)) :
    units (sep.intercalate parts) = (units sep).intercalate (parts.map units) := by
  induction parts with
  | nil => rfl
  | cons part parts ih =>
    cases parts with
    | nil => simp
    | cons next parts =>
      rw [List.intercalate_cons_cons, units_append, units_append, ih]
      exact List.intercalate_cons_cons.symm

/-- Units in which a first half of a pair that has lost the second one, at the end, is replaced. -/
def mendEnd : List Nat → List Nat
  | [] => []
  | [u] => if IsFirstHalf u then [replacement.toNat] else [u]
  | u :: v :: us => u :: mendEnd (v :: us)

theorem mendEnd_cons {u : Nat} (h : ¬IsFirstHalf u) (us : List Nat) :
    mendEnd (u :: us) = u :: mendEnd us := by
  cases us with
  | nil => exact if_neg h
  | cons v us => rfl

/-- The beginning of a text is the beginning of its units, unless the cut falls inside a pair. -/
theorem units_takeUnits (n : Nat) (cs : List Char) :
    units (takeUnits n cs) = mendEnd ((units cs).take n) := by
  fun_induction takeUnits n cs with
  | case1 n => rw [units_nil, List.take_nil, mendEnd]
  | case2 => rfl
  | case3 n c cs hnarrow ih =>
    obtain ⟨-, hunits, hhalf⟩ | ⟨hwide, -⟩ := charUnits_cases c
    · rw [units_cons, units_cons, hunits, ih]
      exact (mendEnd_cons hhalf _).symm
    · exact absurd hnarrow hwide
  | case4 c cs hwide =>
    obtain ⟨hnarrow, -⟩ | ⟨-, first, second, hunits, hfirst, -⟩ := charUnits_cases c
    · exact absurd hnarrow hwide
    · rw [units_cons c, hunits]
      exact (if_pos hfirst).symm
  | case5 c cs hwide m ih =>
    obtain ⟨hnarrow, -⟩ | ⟨-, first, second, hunits, -, hsecond⟩ := charUnits_cases c
    · exact absurd hnarrow hwide
    · rw [units_cons, units_cons, hunits, ih]
      exact congrArg (first :: ·) (mendEnd_cons hsecond _).symm

/-- The units of a text of at most `n` units: a wider one is cut to `n - 3` units and three dots. -/
def cutTo (n : Nat) (us : List Nat) : List Nat :=
  if us.length ≤ n then us else mendEnd (us.take (n - 3)) ++ List.replicate 3 0x2E

theorem units_truncate (n : Nat) (s : String) :
    units (truncate n s).toList = cutTo n (units s.toList) := by
  rw [truncate, cutTo, width]
  by_cases h : n < (units s.toList).length
  · rw [if_pos h, if_neg (Nat.not_le.mpr h), String.toList_append, String.toList_ofList,
      units_append, units_takeUnits]
    rfl
  · rw [if_neg h, if_pos (Nat.not_lt.mp h)]

end ClassCohesion.Text
