import Mathlib.Data.List.TakeWhile
import ClassCohesion.Json.Reader
import ClassCohesion.Number.Text
import ClassCohesion.Proofs.Rounding

/-!
# Numbers read back from their text

The text of a number lays out the digits of a decimal from the interval of the number, so it is read
as the number (`reread_exact`). Whatever positive rational is laid out, its text is in the grammar
of JSON numbers, and nothing of what follows it is taken for a part of it (`readNumber_text`).
-/

namespace ClassCohesion.Number

/-! ## The shortest decimal -/

section Shortest

variable {v : ℚ}

theorem value_eq (d : Decimal) : d.value = d.digits * 10 ^ d.exponent := by
  rw [Decimal.value, tenPow_eq_zpow]

theorem onGrid_holds {e : Int} {d : Decimal} (h : onGrid v e = some d) :
    (interval v).holds d.value = true := by
  unfold onGrid at h
  simp only at h
  split at h
  · cases h
  · rename_i hlower hupper
    cases h
    exact hlower
  · rename_i hlower hupper
    cases h
    exact hupper
  · rename_i hlower hupper
    split_ifs at h <;> cases h <;> assumption

/-- On any grid that is not coarser than its first digit, a number has a digit. -/
theorem floor_pos (hv : 0 < v) {e : Int} (he : e ≤ decade v) : 0 < (v / tenPow e).floor.toNat := by
  rw [decade_eq_log hv] at he
  have hten : (10 : ℚ) ^ e ≤ v := (Int.zpow_le_iff_le_log (by norm_num : 1 < 10) hv).mpr he
  have hone : ((1 : Int) : ℚ) ≤ v / tenPow e := by
    rw [tenPow_eq_zpow, le_div_iff₀ (by positivity)]
    simpa using hten
  have hfloor : 1 ≤ (v / tenPow e).floor := Rat.le_floor_iff.mpr hone
  omega

theorem onGrid_digits_pos (hv : 0 < v) {e : Int} (he : e ≤ decade v) {d : Decimal}
    (h : onGrid v e = some d) : 0 < d.digits := by
  have hpos := floor_pos hv he
  unfold onGrid at h
  simp only at h
  split at h
  · cases h
  · cases h
    exact hpos
  · cases h
    exact Nat.succ_pos _
  · split_ifs at h <;> cases h <;> first | exact hpos | exact Nat.succ_pos _

theorem refine_digits_pos (hv : 0 < v) (n : Nat) {e : Int} (he : e ≤ decade v) :
    0 < (refine v n e).digits := by
  induction n generalizing e with
  | zero => exact floor_pos hv he
  | succ n ih =>
    unfold refine
    cases hg : onGrid v e with
    | none => exact ih (by omega)
    | some d => exact onGrid_digits_pos hv he hg

theorem shortest_digits_pos (hv : 0 < v) : 0 < (shortest v).digits :=
  refine_digits_pos hv 17 le_rfl

/-- Seventeen places behind its first digit, a number is cut off within its interval. -/
theorem cut_holds (hv : 0 < v) (hr : round v = finite v) {e : Int} (he : e ≤ decade v - 17) :
    (interval v).holds (Decimal.value ⟨(v / tenPow e).floor.toNat, e⟩) = true := by
  obtain ⟨⟨n, hn⟩, -⟩ := exists_bits hv hr
  have hten : (0 : ℚ) < 10 ^ e := by positivity
  have hstep : (0 : ℚ) < 2 ^ lastBit v := by positivity
  -- the cut is less than a quarter of a step wide
  have hcut : (10 : ℚ) ^ e < 2 ^ lastBit v / 4 := by
    have hlog : (10 : ℚ) ^ Int.log 10 v ≤ v := (log_spec (by norm_num : 1 < 10) hv).1
    have hbits : v < 2 ^ lastBit v * 2 ^ 53 := by
      have h := lt_pow_lastBit hv
      rw [zpow_add₀ two_ne_zero] at h
      exact_mod_cast h
    have hle : (10 : ℚ) ^ e * 10 ^ 17 ≤ 10 ^ Int.log 10 v := by
      rw [decade_eq_log hv] at he
      rw [← zpow_natCast, ← zpow_add₀ (by norm_num)]
      exact zpow_le_zpow_right₀ (by norm_num) (by push_cast; omega)
    linarith
  have hfloor : 0 ≤ (v / tenPow e).floor := by
    have h : ((0 : Int) : ℚ) ≤ v / tenPow e := by
      rw [tenPow_eq_zpow]
      push_cast
      positivity
    exact Rat.le_floor_iff.mpr h
  have hdigits : (((v / tenPow e).floor.toNat : ℕ) : ℚ) = ⌊v / 10 ^ e⌋ := by
    rw [← tenPow_eq_zpow]
    change _ = (((v / tenPow e).floor : Int) : ℚ)
    exact_mod_cast congrArg (Int.cast (R := ℚ)) (Int.toNat_of_nonneg hfloor)
  have hlow : (⌊v / 10 ^ e⌋ : ℚ) * 10 ^ e ≤ v := by
    rw [← le_div_iff₀ hten]
    exact Int.floor_le _
  have hhigh : v < (⌊v / 10 ^ e⌋ : ℚ) * 10 ^ e + 10 ^ e := by
    have h := Int.lt_floor_add_one (v / 10 ^ e)
    rw [div_lt_iff₀ hten] at h
    linarith
  rw [value_eq, hdigits, holds_iff rfl hn _ rfl]
  have hbelow : (2 : ℚ) ^ lastBit v / 4 ≤
      if n = 2 ^ 52 ∧ -1074 < lastBit v then 2 ^ lastBit v / 4 else 2 ^ lastBit v / 2 := by
    split_ifs <;> linarith
  refine ⟨by linarith, by linarith, ?_⟩
  rintro (heq | heq) <;> linarith

theorem refine_holds (hv : 0 < v) (hr : round v = finite v) (n : Nat) {e : Int}
    (he : e - n ≤ decade v - 17) : (interval v).holds (refine v n e).value = true := by
  induction n generalizing e with
  | zero => exact cut_holds hv hr (by simpa using he)
  | succ n ih =>
    unfold refine
    cases hg : onGrid v e with
    | none => exact ih (by push_cast at he ⊢; omega)
    | some d => exact onGrid_holds hg

theorem round_shortest (hv : 0 < v) (hr : round v = finite v) :
    round (shortest v).value = finite v :=
  round_of_holds hv hr (refine_holds hv hr 17 (by simp))

end Shortest

/-! ## Digits -/

theorem natOfDigits_eq (ds : List Char) : natOfDigits ds = Nat.ofDigitChars 10 ds 0 := by
  rw [natOfDigits, Nat.ofDigitChars_eq_foldl]
  congr 1
  funext n c
  rw [digitValue, Nat.mul_comm]
  rfl

theorem natOfDigits_append (xs ys : List Char) :
    natOfDigits (xs ++ ys) = natOfDigits xs * 10 ^ ys.length + natOfDigits ys := by
  rw [natOfDigits_eq, natOfDigits_eq, natOfDigits_eq, Nat.ofDigitChars_append,
    Nat.ofDigitChars_eq_ofDigitChars_zero, Nat.mul_comm]

theorem natOfDigits_zeros (n : ℕ) : natOfDigits (List.replicate n '0') = 0 := by
  rw [natOfDigits_eq, Nat.ofDigitChars_replicate_zero, Nat.mul_zero]

/-- A row of digits that starts with another one than zero. -/
structure Row (ds : List Char) : Prop where
  digit : ∀ c ∈ ds, c.isDigit = true
  first : ∃ d rest, ds = d :: rest ∧ d ≠ '0'

theorem row_digitsOf {n : ℕ} (hn : 0 < n) : Row (digitsOf n) := by
  refine ⟨fun c hc => Nat.isDigit_of_mem_toDigits (by norm_num) (by norm_num) hc, ?_⟩
  unfold digitsOf
  induction n using Nat.strongRecOn with
  | _ n ih =>
    rcases Nat.lt_or_ge n 10 with hlt | hge
    · rw [Nat.toDigits_of_lt_base hlt]
      refine ⟨_, _, rfl, ?_⟩
      rw [ne_eq, Nat.digitChar_eq_zero]
      omega
    · obtain ⟨d, rest, hd, hne⟩ := ih (n / 10) (by omega) (by omega)
      rw [Nat.toDigits_of_base_le (by norm_num) hge, hd]
      exact ⟨d, rest ++ _, rfl, hne⟩

theorem natOfDigits_digitsOf (n : ℕ) : natOfDigits (digitsOf n) = n := by
  rw [natOfDigits_eq]
  exact Nat.ofDigitChars_ten_toDigits

/-- The zeros at the end of a row that are dropped. -/
theorem exists_dropZerosEnd (ds : List Char) :
    ∃ j, ds = dropZerosEnd ds ++ List.replicate j '0' := by
  have hzeros : ds.reverse.takeWhile (· == '0') =
      List.replicate (ds.reverse.takeWhile (· == '0')).length '0' := by
    rw [List.eq_replicate_iff]
    refine ⟨rfl, fun c hc => ?_⟩
    simpa using List.mem_takeWhile_imp hc
  refine ⟨(ds.reverse.takeWhile (· == '0')).length, ?_⟩
  have hsplit := List.takeWhile_append_dropWhile (p := (· == '0')) (l := ds.reverse)
  have hback := congrArg List.reverse hsplit
  rw [List.reverse_append, List.reverse_reverse, hzeros, List.reverse_replicate] at hback
  exact hback.symm

theorem Row.dropZerosEnd {ds : List Char} (h : Row ds) : Row (dropZerosEnd ds) := by
  obtain ⟨j, hj⟩ := exists_dropZerosEnd ds
  obtain ⟨d, rest, hd, hne⟩ := h.first
  constructor
  · intro c hc
    exact h.digit c (by rw [hj]; exact List.mem_append_left _ hc)
  · cases hdrop : Number.dropZerosEnd ds with
    | nil =>
      -- a row of zeros does not start with another digit
      rw [hdrop, List.nil_append, hd] at hj
      have hmem : d ∈ List.replicate j '0' := by
        rw [← hj]
        exact List.mem_cons_self
      exact absurd (List.eq_of_mem_replicate hmem) hne
    | cons c cs =>
      rw [hdrop, hd, List.cons_append] at hj
      exact ⟨c, cs, rfl, (List.cons.inj hj).1 ▸ hne⟩

/-! ## Reading -/

/-- A text that does not go on with a number. -/
def Ends (rest : List Char) : Prop :=
  ∀ c ∈ rest.head?, c.isDigit = false ∧ c ≠ '.' ∧ c ≠ 'e' ∧ c ≠ 'E'

section Reading

variable {ds rest : List Char}

theorem Ends.not_digit (h : Ends rest) : ∀ c ∈ rest.head?, c.isDigit = false :=
  fun c hc => (h c hc).1

theorem spanDigits_append (hd : ∀ c ∈ ds, c.isDigit = true)
    (hr : ∀ c ∈ rest.head?, c.isDigit = false) : spanDigits (ds ++ rest) = (ds, rest) := by
  unfold spanDigits
  rw [List.takeWhile_append_of_pos hd, List.dropWhile_append_of_pos hd]
  cases rest with
  | nil => simp
  | cons c cs =>
    have hc : c.isDigit = false := hr c rfl
    rw [List.takeWhile_cons_of_neg (by simp [hc]), List.dropWhile_cons_of_neg (by simp [hc]),
      List.append_nil]

theorem readWhole_row (h : Row ds) (hr : ∀ c ∈ rest.head?, c.isDigit = false) :
    Json.readWhole (ds ++ rest) = some (ds, rest) := by
  have hspan := spanDigits_append h.digit hr
  obtain ⟨d, tail, rfl, hne⟩ := h.first
  rw [List.cons_append] at hspan ⊢
  unfold Json.readWhole
  split
  · rename_i heq
    exact absurd (List.cons.inj heq).1 hne
  · rw [hspan]

theorem readFraction_point (hd : ∀ c ∈ ds, c.isDigit = true) (hne : ds ≠ [])
    (hr : ∀ c ∈ rest.head?, c.isDigit = false) :
    Json.readFraction ('.' :: (ds ++ rest)) = some (ds, rest) := by
  unfold Json.readFraction
  simp only [spanDigits_append hd hr]

theorem readFraction_none (hr : ∀ c ∈ rest.head?, c ≠ '.') :
    Json.readFraction rest = some ([], rest) := by
  unfold Json.readFraction
  split
  · exact absurd rfl (hr '.' rfl)
  · rfl

theorem readExponent_none (hr : Ends rest) : Json.readExponent rest = some (0, rest) := by
  unfold Json.readExponent
  split
  · exact absurd rfl (hr 'e' rfl).2.2.1
  · exact absurd rfl (hr 'E' rfl).2.2.2
  · rfl

/-- The mark of an exponent, with its sign and digits. -/
theorem readExponent_mark (e : Int) (hr : Ends rest) :
    Json.readExponent ((if e < 0 then ['e', '-'] else ['e', '+']) ++ digitsOf e.natAbs ++ rest) =
      some (e, rest) := by
  have hdigit : ∀ c ∈ digitsOf e.natAbs, c.isDigit = true := fun c hc =>
    Nat.isDigit_of_mem_toDigits (by norm_num) (by norm_num) hc
  have hspan := spanDigits_append hdigit hr.not_digit
  have hne : (digitsOf e.natAbs).isEmpty = false := by
    rw [List.isEmpty_eq_false_iff]
    exact Nat.toDigits_ne_nil
  split
  · rename_i hneg
    simp only [List.cons_append, List.nil_append, Json.readExponent, readExponent?, hspan, hne,
      natOfDigits_digitsOf]
    simp [abs_of_neg hneg]
  · rename_i hnonneg
    simp only [List.cons_append, List.nil_append, Json.readExponent, readExponent?, hspan, hne,
      natOfDigits_digitsOf]
    simp [abs_of_nonneg (not_lt.mp hnonneg)]

theorem readMagnitude_eq {whole fraction cs cs' cs'' : List Char} {e : Int}
    (hw : Json.readWhole cs = some (whole, cs'))
    (hf : Json.readFraction cs' = some (fraction, cs''))
    (he : Json.readExponent cs'' = some (e, rest)) :
    Json.readMagnitude cs =
      some (round (natOfDigits (whole ++ fraction) * 10 ^ (e - fraction.length)), rest) := by
  simp [Json.readMagnitude, hw, hf, he, ofDecimal_eq_round]

/-! ### The four ways to lay out a row -/

theorem readMagnitude_zeros (h : Row ds) (j : ℕ) (hr : Ends rest) :
    Json.readMagnitude (ds ++ List.replicate j '0' ++ rest) =
      some (round (natOfDigits ds * 10 ^ (j : Int)), rest) := by
  have hrow : Row (ds ++ List.replicate j '0') := by
    obtain ⟨d, tail, hd, hne⟩ := h.first
    refine ⟨fun c hc => ?_, d, tail ++ _, by rw [hd]; rfl, hne⟩
    rcases List.mem_append.mp hc with hold | hnew
    · exact h.digit c hold
    · rw [List.eq_of_mem_replicate hnew]
      rfl
  rw [readMagnitude_eq (readWhole_row hrow hr.not_digit)
    (readFraction_none fun c hc => (hr c hc).2.1) (readExponent_none hr), List.append_nil,
    natOfDigits_append, natOfDigits_zeros, List.length_replicate]
  simp

theorem readMagnitude_point (h : Row ds) {p : ℕ} (hp : 0 < p) (hlt : p < ds.length)
    (hr : Ends rest) :
    Json.readMagnitude (ds.take p ++ '.' :: ds.drop p ++ rest) =
      some (round (natOfDigits ds * 10 ^ ((p : Int) - ds.length)), rest) := by
  have hrow : Row (ds.take p) := by
    obtain ⟨d, tail, hd, hne⟩ := h.first
    refine ⟨fun c hc => h.digit c (List.mem_of_mem_take hc), d, tail.take (p - 1), ?_, hne⟩
    obtain ⟨q, rfl⟩ := Nat.exists_eq_succ_of_ne_zero (by omega : p ≠ 0)
    rw [hd]
    rfl
  have hfraction : ds.drop p ≠ [] := by
    rw [ne_eq, List.drop_eq_nil_iff]
    omega
  rw [List.append_assoc, List.cons_append,
    readMagnitude_eq (readWhole_row hrow (by simp))
      (readFraction_point (fun c hc => h.digit c (List.mem_of_mem_drop hc)) hfraction
        hr.not_digit) (readExponent_none hr), List.take_append_drop, List.length_drop]
  congr 5
  omega

theorem readMagnitude_leading (h : Row ds) (p : ℕ) (hr : Ends rest) :
    Json.readMagnitude (['0', '.'] ++ List.replicate p '0' ++ ds ++ rest) =
      some (round (natOfDigits ds * 10 ^ (-(p : Int) - ds.length)), rest) := by
  obtain ⟨d, tail, hd, -⟩ := h.first
  have hdigits : ∀ c ∈ List.replicate p '0' ++ ds, c.isDigit = true := by
    intro c hc
    rcases List.mem_append.mp hc with hzero | hold
    · rw [List.eq_of_mem_replicate hzero]
      rfl
    · exact h.digit c hold
  have hwhole : Json.readWhole ('0' :: '.' :: (List.replicate p '0' ++ ds ++ rest)) =
      some (['0'], '.' :: (List.replicate p '0' ++ ds ++ rest)) := rfl
  have hlead : natOfDigits (['0'] ++ List.replicate p '0') = 0 := natOfDigits_zeros (p + 1)
  have htext : ['0', '.'] ++ List.replicate p '0' ++ ds ++ rest =
      '0' :: '.' :: (List.replicate p '0' ++ ds ++ rest) := by simp
  rw [htext, readMagnitude_eq hwhole (readFraction_point hdigits (by simp [hd]) hr.not_digit)
    (readExponent_none hr), ← List.append_assoc, natOfDigits_append, hlead, Nat.zero_mul,
    Nat.zero_add, List.length_append, List.length_replicate]
  congr 5
  push_cast
  omega

theorem readMagnitude_exponent {d : Char} {tail mark : List Char} {e : Int} (h : Row (d :: tail))
    (hmark : Json.readExponent (mark ++ rest) = some (e, rest)) (hhead : mark.head? = some 'e') :
    Json.readMagnitude
        ((match d :: tail with
          | [] => mark
          | [d] => d :: mark
          | d :: tail => d :: '.' :: tail ++ mark) ++ rest) =
      some (round (natOfDigits (d :: tail) * 10 ^ (e - tail.length)), rest) := by
  obtain ⟨cs, rfl⟩ : ∃ cs, mark = 'e' :: cs := List.head?_eq_some_iff.mp hhead
  obtain ⟨d', tail', heq, hne⟩ := h.first
  obtain ⟨rfl, rfl⟩ := List.cons.inj heq
  have hfirst : Row [d] := ⟨fun c hc => h.digit c (by simp_all), d, [], rfl, hne⟩
  cases tail with
  | nil =>
    show Json.readMagnitude ([d] ++ ('e' :: cs ++ rest)) = _
    rw [readMagnitude_eq (readWhole_row hfirst (by simp)) (readFraction_none (by simp)) hmark]
    rfl
  | cons c tail =>
    have hdigits : ∀ x ∈ c :: tail, x.isDigit = true := fun x hx =>
      h.digit x (List.mem_cons_of_mem d hx)
    have htext : d :: '.' :: (c :: tail) ++ 'e' :: cs ++ rest =
        [d] ++ '.' :: ((c :: tail) ++ ('e' :: cs ++ rest)) := by simp
    show Json.readMagnitude (d :: '.' :: (c :: tail) ++ 'e' :: cs ++ rest) = _
    rw [htext, readMagnitude_eq (readWhole_row hfirst (by simp))
      (readFraction_point hdigits (by simp) (by simp)) hmark, List.singleton_append]

/-- A row of digits that is laid out is read as the decimal that it stands for. -/
theorem readMagnitude_layout (h : Row ds) (point : Int) (hr : Ends rest) :
    Json.readMagnitude (layout ds point ++ rest) =
      some (round (natOfDigits ds * 10 ^ (point - ds.length)), rest) := by
  unfold layout
  simp only
  split
  · rename_i hwhole
    obtain ⟨j, hj⟩ := Int.eq_ofNat_of_zero_le (sub_nonneg.mpr hwhole.1)
    rw [hj, Int.toNat_natCast]
    exact readMagnitude_zeros h j hr
  split
  · rename_i hmore hmixed
    obtain ⟨p, rfl⟩ := Int.eq_ofNat_of_zero_le hmixed.1.le
    rw [Int.toNat_natCast]
    exact readMagnitude_point h (by omega) (by omega) hr
  split
  · rename_i hmore hmixed hfraction
    obtain ⟨p, hp⟩ := Int.eq_ofNat_of_zero_le (by omega : 0 ≤ -point)
    rw [hp, Int.toNat_natCast, show point - ds.length = -(p : Int) - ds.length by omega]
    exact readMagnitude_leading h p hr
  · obtain ⟨d, tail, rfl, -⟩ := h.first
    have hhead : ((if point - 1 < 0 then ['e', '-'] else ['e', '+']) ++
        digitsOf (point - 1).natAbs).head? = some 'e' := by
      split <;> rfl
    rw [show point - (d :: tail).length = point - 1 - tail.length by simp; omega]
    exact readMagnitude_exponent h (readExponent_mark (point - 1) hr) hhead

theorem readMagnitude_textOfPositive {v : ℚ} (hv : 0 < v) (hr : Ends rest) :
    Json.readMagnitude (textOfPositive v ++ rest) = some (round (shortest v).value, rest) := by
  have hrow := row_digitsOf (shortest_digits_pos hv)
  obtain ⟨j, hj⟩ := exists_dropZerosEnd (digitsOf (shortest v).digits)
  have hdigits := natOfDigits_digitsOf (shortest v).digits
  have hlength := congrArg List.length hj
  rw [hj, natOfDigits_append, natOfDigits_zeros, List.length_replicate, Nat.add_zero] at hdigits
  rw [List.length_append, List.length_replicate] at hlength
  unfold textOfPositive
  simp only
  have hvalue : ((shortest v).digits : ℚ) =
      natOfDigits (dropZerosEnd (digitsOf (shortest v).digits)) * 10 ^ j := by
    exact_mod_cast hdigits.symm
  rw [readMagnitude_layout hrow.dropZerosEnd _ hr, value_eq, hvalue, hlength, mul_assoc,
    ← zpow_natCast, ← zpow_add₀ (by norm_num)]
  congr 5
  push_cast
  ring

/-! ### Signs -/

theorem readMagnitude_head {cs : List Char} {r : Number × List Char}
    (h : Json.readMagnitude cs = some r) : ∃ d tail, cs = d :: tail ∧ d.isDigit = true := by
  unfold Json.readMagnitude at h
  cases hw : Json.readWhole cs with
  | none => simp [hw] at h
  | some w =>
    unfold Json.readWhole at hw
    split at hw
    · exact ⟨_, _, rfl, rfl⟩
    · cases cs with
      | nil => simp [spanDigits] at hw
      | cons d tail =>
        refine ⟨d, tail, rfl, ?_⟩
        by_contra hd
        simp [spanDigits, hd] at hw

theorem readNumber_of_readMagnitude {cs : List Char} {r : Number × List Char}
    (h : Json.readMagnitude cs = some r) : Json.readNumber cs = some r := by
  obtain ⟨d, tail, rfl, hd⟩ := readMagnitude_head h
  unfold Json.readNumber
  split
  · rename_i heq
    rw [(List.cons.inj heq).1] at hd
    cases hd
  · exact h

/-- The number that is read from the text of a finite one. -/
def reread (v : ℚ) : Number :=
  if v = 0 then finite 0
  else if 0 < v then round (shortest v).value
  else (round (shortest (-v)).value).neg

theorem readNumber_text (v : ℚ) (hr : Ends rest) :
    Json.readNumber ((finite v).text.toList ++ rest) = some (reread v, rest) := by
  unfold text reread
  simp only
  split
  · have hzero : Json.readWhole ('0' :: rest) = some (['0'], rest) := rfl
    have hread := readMagnitude_eq hzero (readFraction_none fun c hc => (hr c hc).2.1)
      (readExponent_none hr)
    have hvalue : natOfDigits (['0'] ++ []) = 0 := rfl
    rw [hvalue, Nat.cast_zero, zero_mul, round_zero] at hread
    exact readNumber_of_readMagnitude hread
  split
  · rename_i hv
    rw [String.toList_ofList]
    exact readNumber_of_readMagnitude (readMagnitude_textOfPositive hv hr)
  · rename_i hne hv
    have hneg : 0 < -v := neg_pos.mpr (lt_of_le_of_ne (not_lt.mp hv) hne)
    have hread := readMagnitude_textOfPositive hneg hr
    rw [String.toList_ofList]
    simp [Json.readNumber, hread]

/-- A number is read back from its text. -/
theorem reread_exact {v : ℚ} (hr : round v = finite v) : reread v = finite v := by
  unfold reread
  split
  · rename_i hv
    rw [hv]
  split
  · rename_i hv
    exact round_shortest hv hr
  · rename_i hne hv
    have hneg : 0 < -v := neg_pos.mpr (lt_of_le_of_ne (not_lt.mp hv) hne)
    have hround : round (-v) = finite (-v) := by
      unfold round at hr
      rw [if_neg hne, if_neg hv] at hr
      simp only at hr
      split at hr
      · cases hr
      · rename_i hlimit
        have hsame : roundMagnitude (-v) = -v := by
          have h := finite.inj hr
          linarith
        rw [twoPow_eq_zpow, not_le] at hlimit
        exact round_eq_of_magnitude hneg hsame (hsame ▸ hlimit)
    rw [round_shortest hneg hround]
    simp [neg]

end Reading

end ClassCohesion.Number
