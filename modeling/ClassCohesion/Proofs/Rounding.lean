import Mathlib.Algebra.Order.Field.Power
import Mathlib.Data.Int.Log
import Mathlib.Data.Rat.Floor
import Mathlib.Tactic.FieldSimp
import Mathlib.Tactic.Linarith
import Mathlib.Tactic.NormNum
import Mathlib.Tactic.Positivity
import Mathlib.Tactic.Ring
import ClassCohesion.Number.Reader

/-!
# Rounding

A positive rational lies on a grid of powers of two, `lastBit` being the exponent of its step, and
is rounded to the nearest point of it. What has at most 53 bits stays as it is
(`roundMagnitude_exact`), and rounding commutes with a shift of the bits (`roundMagnitude_shift`).
The interval of a number holds only rationals that round to it (`round_of_holds`), and the short
ways of `ofDecimal` are no more than that (`ofDecimal_eq_round`).
-/

namespace ClassCohesion.Number

/-! ## Powers and logarithms -/

theorem twoPow_eq_zpow (e : Int) : twoPow e = (2 : ℚ) ^ e := by
  unfold twoPow
  split
  · rename_i he
    obtain ⟨n, rfl⟩ := Int.eq_ofNat_of_zero_le he
    simp
  · rename_i he
    obtain ⟨n, hn⟩ := Int.eq_ofNat_of_zero_le (show 0 ≤ -e by omega)
    obtain rfl : e = -(n : Int) := by omega
    simp

theorem tenPow_eq_zpow (e : Int) : tenPow e = (10 : ℚ) ^ e := by
  unfold tenPow
  split
  · rename_i he
    obtain ⟨n, rfl⟩ := Int.eq_ofNat_of_zero_le he
    simp
  · rename_i he
    obtain ⟨n, hn⟩ := Int.eq_ofNat_of_zero_le (show 0 ≤ -e by omega)
    obtain rfl : e = -(n : Int) := by omega
    simp

/-- A positive rational between two powers of a base has the exponent of the lower one. -/
theorem log_eq {b : ℕ} (hb : 1 < b) {x : ℚ} {e : Int} (hlow : (b : ℚ) ^ e ≤ x)
    (hhigh : x < (b : ℚ) ^ (e + 1)) : Int.log b x = e := by
  have hb0 : (0 : ℚ) < b := by exact_mod_cast (by omega : 0 < b)
  have hpos : 0 < x := lt_of_lt_of_le (zpow_pos hb0 e) hlow
  have hle : e ≤ Int.log b x := (Int.zpow_le_iff_le_log hb hpos).mp hlow
  have hlt : Int.log b x < e + 1 := (Int.lt_zpow_iff_log_lt hb hpos).mp hhigh
  omega

theorem log_spec {b : ℕ} (hb : 1 < b) {x : ℚ} (hx : 0 < x) :
    (b : ℚ) ^ Int.log b x ≤ x ∧ x < (b : ℚ) ^ (Int.log b x + 1) :=
  ⟨Int.zpow_log_le_self hb hx, Int.lt_zpow_succ_log_self hb x⟩

/-- A quotient of two numbers with known leading places lies within one place of theirs. -/
theorem log_of_guess {b : ℕ} (hb : 1 < b) {x : ℚ} (hx : 0 < x) {p q : ℕ}
    (hp : b ^ p ≤ x.num.natAbs ∧ x.num.natAbs < b ^ (p + 1))
    (hq : b ^ q ≤ x.den ∧ x.den < b ^ (q + 1)) :
    (if (b : ℚ) ^ ((p : Int) - q) ≤ x then (p : Int) - q else (p : Int) - q - 1) = Int.log b x := by
  have hb0 : (0 : ℚ) < b := by exact_mod_cast (by omega : 0 < b)
  have hden : (0 : ℚ) < x.den := by exact_mod_cast x.den_pos
  have hnum : ((x.num.natAbs : ℕ) : ℚ) = x * x.den := by
    have habs : (x.num.natAbs : Int) = x.num := Int.natAbs_of_nonneg (Rat.num_nonneg.mpr hx.le)
    calc ((x.num.natAbs : ℕ) : ℚ) = ((x.num.natAbs : Int) : ℚ) := by simp
      _ = (x.num : ℚ) := by rw [habs]
      _ = x * x.den := (Rat.mul_den_eq_num x).symm
  have hp1 : (b : ℚ) ^ p ≤ x * x.den := by rw [← hnum]; exact_mod_cast hp.1
  have hp2 : x * x.den < (b : ℚ) ^ (p + 1) := by rw [← hnum]; exact_mod_cast hp.2
  have hq1 : (b : ℚ) ^ q ≤ x.den := by exact_mod_cast hq.1
  have hq2 : (x.den : ℚ) < (b : ℚ) ^ (q + 1) := by exact_mod_cast hq.2
  have hlow : (b : ℚ) ^ ((p : Int) - q - 1) ≤ x := by
    rw [show (p : Int) - q - 1 = (p : Int) - ((q + 1 : ℕ) : Int) by push_cast; ring,
      zpow_sub₀ hb0.ne', zpow_natCast, zpow_natCast, div_le_iff₀ (by positivity)]
    exact hp1.trans (mul_le_mul_of_nonneg_left hq2.le hx.le)
  have hhigh : x < (b : ℚ) ^ ((p : Int) - q + 1) := by
    rw [show (p : Int) - q + 1 = ((p + 1 : ℕ) : Int) - (q : Int) by push_cast; ring,
      zpow_sub₀ hb0.ne', zpow_natCast, zpow_natCast, lt_div_iff₀ (by positivity)]
    exact lt_of_le_of_lt (mul_le_mul_of_nonneg_left hq1 hx.le) hp2
  split
  · rename_i hle
    exact (log_eq hb hle hhigh).symm
  · rename_i hlt
    refine (log_eq hb hlow ?_).symm
    rw [sub_add_cancel]
    exact lt_of_not_ge hlt

theorem binade_eq_log {x : ℚ} (hx : 0 < x) : binade x = Int.log 2 x := by
  have hnum : x.num.natAbs ≠ 0 := by
    rw [ne_eq, Int.natAbs_eq_zero]
    exact (Rat.num_pos.mpr hx).ne'
  rw [← log_of_guess (by norm_num : 1 < 2) hx
    ⟨Nat.log2_self_le hnum, Nat.lt_log2_self⟩ ⟨Nat.log2_self_le x.den_nz, Nat.lt_log2_self⟩]
  simp only [binade, twoPow_eq_zpow]
  rfl

/-! ## The nearest integer -/

section NearestEven

variable {x : ℚ} {n : Int}

/-- What is at most half a unit away is the nearest integer; at half a unit it has to be even. -/
theorem nearestEven_eq (h : |x - n| ≤ 1 / 2) (heven : |x - n| = 1 / 2 → n % 2 = 0) :
    nearestEven x = n := by
  rw [abs_le] at h
  unfold nearestEven
  rcases le_or_gt (n : ℚ) x with hle | hlt
  · have hfloor : x.floor = n := by
      change ⌊x⌋ = n
      rw [Int.floor_eq_iff]
      exact ⟨hle, by linarith⟩
    simp only [hfloor]
    rcases lt_or_eq_of_le h.2 with hless | hhalf
    · rw [if_pos hless]
    · have htie : n % 2 = 0 := heven (by rw [hhalf, abs_of_pos (by norm_num)])
      rw [hhalf, if_neg (lt_irrefl _), if_neg (lt_irrefl _), if_pos htie]
  · have hfloor : x.floor = n - 1 := by
      change ⌊x⌋ = n - 1
      rw [Int.floor_eq_iff]
      push_cast
      exact ⟨by linarith, by linarith⟩
    have hrest : x - ((n - 1 : Int) : ℚ) = x - n + 1 := by
      push_cast
      ring
    simp only [hfloor, hrest]
    rw [if_neg (by linarith)]
    rcases lt_or_eq_of_le h.1 with hmore | hhalf
    · rw [if_pos (by linarith)]
      omega
    · have htie : n % 2 = 0 := heven (by rw [← hhalf, abs_neg, abs_of_pos (by norm_num)])
      rw [if_neg (by linarith), if_neg (by omega)]
      omega

theorem nearestEven_intCast (n : Int) : nearestEven (n : ℚ) = n :=
  nearestEven_eq (by norm_num) (by norm_num)

theorem le_nearestEven (h : (n : ℚ) ≤ x) : n ≤ nearestEven x := by
  have hfloor : n ≤ x.floor := Rat.le_floor_iff.mpr h
  unfold nearestEven
  simp only
  split_ifs <;> omega

theorem nearestEven_le (h : x ≤ n) : nearestEven x ≤ n := by
  rcases eq_or_lt_of_le h with rfl | hlt
  · rw [nearestEven_intCast]
  · have hfloor : x.floor < n := by
      change ⌊x⌋ < n
      rw [Int.floor_lt]
      exact hlt
    unfold nearestEven
    simp only
    split_ifs <;> omega

end NearestEven

/-! ## The grid of a number -/

theorem lastBit_eq {x : ℚ} (hx : 0 < x) : lastBit x = Max.max (Int.log 2 x - 52) (-1074) := by
  unfold lastBit
  rw [binade_eq_log hx]

/-- A positive rational has fewer than 54 bits before the end of its grid. -/
theorem lt_pow_lastBit {x : ℚ} (hx : 0 < x) : x < 2 ^ (lastBit x + 53) := by
  have hlog : lastBit x = Max.max (Int.log 2 x - 52) (-1074) := lastBit_eq hx
  refine lt_of_lt_of_le (log_spec (by norm_num : 1 < 2) hx).2 ?_
  exact zpow_le_zpow_right₀ (by norm_num) (by omega)

theorem lastBit_of_bounds {x : ℚ} {k : Int} (hk : -1074 ≤ k) (hlow : k = -1074 ∨ 2 ^ (k + 52) ≤ x)
    (hpos : 0 < x) (hhigh : x < 2 ^ (k + 53)) : lastBit x = k := by
  have hlt : Int.log 2 x < k + 53 := (Int.lt_zpow_iff_log_lt (by norm_num : 1 < 2) hpos).mp hhigh
  rw [lastBit_eq hpos]
  rcases hlow with rfl | hle
  · omega
  · have hge : k + 52 ≤ Int.log 2 x := (Int.zpow_le_iff_le_log (by norm_num : 1 < 2) hpos).mp hle
    omega

theorem roundMagnitude_eq_mul (x : ℚ) :
    roundMagnitude x = nearestEven (x / 2 ^ lastBit x) * 2 ^ lastBit x := by
  simp only [roundMagnitude, twoPow_eq_zpow]

/-- What is at most half a step away on the grid is the rounded number; at half a step its last bit
has to be even. -/
theorem roundMagnitude_eq {x : ℚ} {k n : Int} (hk : lastBit x = k)
    (h : |x - n * 2 ^ k| ≤ 2 ^ k / 2) (heven : |x - n * 2 ^ k| = 2 ^ k / 2 → n % 2 = 0) :
    roundMagnitude x = n * 2 ^ k := by
  have hstep : (0 : ℚ) < 2 ^ k := by positivity
  have hscaled : |x / 2 ^ k - n| = |x - n * 2 ^ k| / 2 ^ k := by
    rw [show x / 2 ^ k - n = (x - n * 2 ^ k) / 2 ^ k by field_simp, abs_div, abs_of_pos hstep]
  rw [roundMagnitude_eq_mul, hk, nearestEven_eq]
  · rw [hscaled, div_le_iff₀ hstep]
    linarith
  · intro hhalf
    rw [hscaled, div_eq_iff hstep.ne'] at hhalf
    exact heven (by linarith)

/-- What has at most 53 bits, the last one within the range, is not rounded. -/
theorem roundMagnitude_exact {m : ℕ} {e : Int} (hm : 0 < m) (hbits : m ≤ 2 ^ 53) (he : -1074 ≤ e) :
    roundMagnitude (m * 2 ^ e) = m * 2 ^ e := by
  have hstep : (0 : ℚ) < 2 ^ e := by positivity
  have hpos : (0 : ℚ) < m * 2 ^ e := by positivity
  suffices hwhole : ∃ n : Int, (m * 2 ^ e : ℚ) = n * 2 ^ lastBit (m * 2 ^ e) by
    obtain ⟨n, hn⟩ := hwhole
    have hround := roundMagnitude_eq (n := n) rfl (by rw [← hn]; simp; positivity)
      (fun h => by
        rw [← hn, sub_self, abs_zero] at h
        exact absurd h.symm (by positivity))
    rw [hround, ← hn]
  rcases le_or_gt (lastBit (m * 2 ^ e)) e with hle | hgt
  · obtain ⟨d, hd⟩ := Int.eq_ofNat_of_zero_le (sub_nonneg.mpr hle)
    refine ⟨m * 2 ^ d, ?_⟩
    have hsplit : (2 : ℚ) ^ e = 2 ^ d * 2 ^ lastBit (m * 2 ^ e) := by
      rw [← zpow_natCast, ← zpow_add₀ two_ne_zero]
      congr 1
      omega
    push_cast
    rw [mul_assoc, ← hsplit]
  · -- only a carry has a longer row of bits, and then all but the first are zero
    have hlog : lastBit (m * 2 ^ e) = Max.max (Int.log 2 ((m : ℚ) * 2 ^ e) - 52) (-1074) :=
      lastBit_eq hpos
    have hlow : (2 : ℚ) ^ (e + 53) ≤ m * 2 ^ e :=
      (Int.zpow_le_iff_le_log (by norm_num : 1 < 2) hpos).mpr (by omega)
    have hmge : (2 : ℚ) ^ 53 ≤ m := by
      rw [zpow_add₀ two_ne_zero, mul_comm] at hlow
      exact_mod_cast le_of_mul_le_mul_right hlow hstep
    obtain rfl : m = 2 ^ 53 := le_antisymm hbits (by exact_mod_cast hmge)
    have hvalue : ((2 ^ 53 : ℕ) : ℚ) * 2 ^ e = 2 ^ (e + 53) := by
      rw [zpow_add₀ two_ne_zero, mul_comm, Nat.cast_pow]
      rfl
    have hlast : lastBit ((2 ^ 53 : ℕ) * 2 ^ e) = e + 1 := by
      refine lastBit_of_bounds (by omega) (.inr ?_) hpos ?_
      · rw [hvalue]
        exact zpow_le_zpow_right₀ (by norm_num) (by omega)
      · rw [hvalue]
        exact zpow_lt_zpow_right₀ (by norm_num) (by omega)
    refine ⟨2 ^ 52, ?_⟩
    rw [hlast, hvalue, show e + 53 = 52 + (e + 1) by ring, zpow_add₀ two_ne_zero]
    norm_cast

/-- A rounded number has at most 53 bits, but for a carry. -/
theorem roundMagnitude_bits {x : ℚ} (hx : 0 < x) :
    ∃ m : ℕ, m ≤ 2 ^ 53 ∧ roundMagnitude x = m * 2 ^ lastBit x := by
  have hstep : (0 : ℚ) < 2 ^ lastBit x := by positivity
  have hlow : (0 : Int) ≤ nearestEven (x / 2 ^ lastBit x) :=
    le_nearestEven (by push_cast; positivity)
  have hhigh : nearestEven (x / 2 ^ lastBit x) ≤ ((2 ^ 53 : ℕ) : Int) := by
    refine nearestEven_le ?_
    rw [div_le_iff₀ hstep]
    have hlt := lt_pow_lastBit hx
    rw [zpow_add₀ two_ne_zero, mul_comm] at hlt
    exact_mod_cast hlt.le
  obtain ⟨m, hm⟩ := Int.eq_ofNat_of_zero_le hlow
  refine ⟨m, by omega, ?_⟩
  rw [roundMagnitude_eq_mul, hm, Int.cast_natCast]

theorem roundMagnitude_nonneg {x : ℚ} (hx : 0 < x) : 0 ≤ roundMagnitude x := by
  obtain ⟨m, -, hm⟩ := roundMagnitude_bits hx
  rw [hm]
  positivity

theorem le_roundMagnitude_of_pow {x : ℚ} {k : Int} (hk : -1022 ≤ k) (h : 2 ^ k ≤ x) :
    2 ^ k ≤ roundMagnitude x := by
  have hpos : 0 < x := lt_of_lt_of_le (by positivity) h
  have hstep : (0 : ℚ) < 2 ^ lastBit x := by positivity
  have hlog : k ≤ Int.log 2 x := (Int.zpow_le_iff_le_log (by norm_num : 1 < 2) hpos).mp h
  have hbit : lastBit x = Int.log 2 x - 52 := by
    rw [lastBit_eq hpos]
    omega
  have hbits : ((2 ^ 52 : ℕ) : Int) ≤ nearestEven (x / 2 ^ lastBit x) := by
    refine le_nearestEven ?_
    rw [le_div_iff₀ hstep, hbit]
    calc (((2 ^ 52 : ℕ) : Int) : ℚ) * 2 ^ (Int.log 2 x - 52)
        = 2 ^ (52 : Int) * 2 ^ (Int.log 2 x - 52) := by norm_cast
      _ = 2 ^ Int.log 2 x := by rw [← zpow_add₀ two_ne_zero]; congr 1; ring
      _ ≤ x := (log_spec (by norm_num : 1 < 2) hpos).1
  calc (2 : ℚ) ^ k ≤ 2 ^ Int.log 2 x := zpow_le_zpow_right₀ (by norm_num) hlog
    _ = 2 ^ (52 : Int) * 2 ^ lastBit x := by
      rw [hbit, ← zpow_add₀ two_ne_zero]
      congr 1
      ring
    _ ≤ nearestEven (x / 2 ^ lastBit x) * 2 ^ lastBit x := by
      refine mul_le_mul_of_nonneg_right ?_ hstep.le
      exact_mod_cast hbits
    _ = roundMagnitude x := (roundMagnitude_eq_mul x).symm

/-- A shift to the left of a number of at least one changes nothing but the place of its bits. -/
theorem roundMagnitude_shift {x : ℚ} (hx : 1 ≤ x) (k : ℕ) :
    roundMagnitude (x * 2 ^ k) = roundMagnitude x * 2 ^ k := by
  have hpos : 0 < x := by linarith
  have hlog : Int.log 2 (x * 2 ^ k) = Int.log 2 x + k := by
    obtain ⟨hlow, hhigh⟩ := log_spec (by norm_num : 1 < 2) hpos
    have hshift : (0 : ℚ) < 2 ^ k := by positivity
    refine log_eq (by norm_num) ?_ ?_
    · rw [zpow_add₀ (by norm_num), zpow_natCast]
      exact mul_le_mul_of_nonneg_right hlow hshift.le
    · rw [show Int.log 2 x + k + 1 = Int.log 2 x + 1 + k by ring, zpow_add₀ (by norm_num),
        zpow_natCast]
      exact mul_lt_mul_of_pos_right hhigh hshift
  have hnonneg : 0 ≤ Int.log 2 x :=
    (Int.zpow_le_iff_le_log (by norm_num : 1 < 2) hpos).mp (by simpa using hx)
  have hbit : lastBit (x * 2 ^ k) = lastBit x + k := by
    rw [lastBit_eq hpos, lastBit_eq (by positivity), hlog]
    omega
  rw [roundMagnitude_eq_mul, roundMagnitude_eq_mul x, hbit, zpow_add₀ two_ne_zero, zpow_natCast,
    mul_div_mul_right _ _ (by positivity), mul_assoc]

/-! ## Numbers -/

theorem round_zero : round 0 = finite 0 := by simp [round]

theorem round_of_pos {x : ℚ} (hx : 0 < x) :
    round x = if 2 ^ 1024 ≤ roundMagnitude x then infinity else finite (roundMagnitude x) := by
  have hlimit : twoPow 1024 = 2 ^ 1024 := by
    rw [twoPow_eq_zpow]
    rfl
  simp only [round, if_neg hx.ne', if_pos hx, hlimit]

theorem round_eq_infinity {x : ℚ} (h : 2 ^ 1024 ≤ x) : round x = infinity := by
  have hpos : 0 < x := lt_of_lt_of_le (by positivity) h
  rw [round_of_pos hpos, if_pos]
  exact le_roundMagnitude_of_pow (k := 1024) (by norm_num) h

theorem round_eq_zero {x : ℚ} (hx : 0 < x) (h : x < 2 ^ (-1075 : Int)) : round x = finite 0 := by
  have hbit : lastBit x = -1074 :=
    lastBit_of_bounds le_rfl (.inl rfl) hx
      (h.trans (zpow_lt_zpow_right₀ (by norm_num) (by norm_num)))
  have hhalf : (2 : ℚ) ^ (-1074 : Int) / 2 = 2 ^ (-1075 : Int) := by
    rw [show (-1074 : Int) = -1075 + 1 by norm_num, zpow_add₀ two_ne_zero]
    ring
  have hzero : roundMagnitude x = ((0 : Int) : ℚ) * 2 ^ (-1074 : Int) := by
    refine roundMagnitude_eq hbit ?_ (fun _ => rfl)
    rw [Int.cast_zero, zero_mul, sub_zero, abs_of_pos hx, hhalf]
    exact h.le
  rw [round_of_pos hx, hzero, Int.cast_zero, zero_mul, if_neg (by norm_num)]

theorem round_exact {m : ℕ} (hm : m ≤ 2 ^ 53) : round m = finite m := by
  rcases Nat.eq_zero_or_pos m with rfl | hpos
  · exact_mod_cast round_zero
  · have hexact : roundMagnitude m = m := by
      have h := roundMagnitude_exact (e := 0) hpos hm (by norm_num)
      rwa [zpow_zero, mul_one] at h
    rw [round_of_pos (by exact_mod_cast hpos), hexact, if_neg]
    rw [not_le]
    calc (m : ℚ) ≤ 2 ^ 53 := by exact_mod_cast hm
      _ < 2 ^ 1024 := pow_lt_pow_right₀ (by norm_num) (by norm_num)

theorem round_nonneg {x : ℚ} (hx : 0 ≤ x) :
    round x = infinity ∨ ∃ v, 0 ≤ v ∧ round x = finite v := by
  rcases eq_or_lt_of_le hx with rfl | hpos
  · exact .inr ⟨0, le_rfl, round_zero⟩
  · rw [round_of_pos hpos]
    split
    · exact .inl rfl
    · exact .inr ⟨_, roundMagnitude_nonneg hpos, rfl⟩

/-- A count that is rounded before it is shifted to the left is the rounded product. -/
theorem round_scale (n k : ℕ) : (round n).scale (2 ^ k) = round (n * 2 ^ k : ℕ) := by
  rcases Nat.eq_zero_or_pos n with rfl | hn
  · simp [round, scale]
  · have hone : (1 : ℚ) ≤ n := by exact_mod_cast hn
    have hpos : (0 : ℚ) < n := by linarith
    have hshift : (0 : ℚ) < 2 ^ k := by positivity
    have hge : 1 ≤ roundMagnitude n := by
      have h := le_roundMagnitude_of_pow (x := n) (k := 0) (by norm_num) (by simpa using hone)
      simpa using h
    have hright : round (n * 2 ^ k : ℕ) =
        if 2 ^ 1024 ≤ roundMagnitude n * 2 ^ k then infinity
        else finite (roundMagnitude n * 2 ^ k) := by
      push_cast
      rw [round_of_pos (by positivity), roundMagnitude_shift hone]
    rw [hright, round_of_pos hpos]
    by_cases hlarge : 2 ^ 1024 ≤ roundMagnitude n
    · rw [if_pos hlarge, if_pos]
      · rfl
      · exact hlarge.trans
          (le_mul_of_one_le_right (zero_le_one.trans hge) (one_le_pow₀ (by norm_num)))
    · rw [if_neg hlarge]
      show round (roundMagnitude n * ((2 ^ k : ℕ) : ℚ)) = _
      -- a rounded number is not rounded again
      have hagain : roundMagnitude (roundMagnitude n) = roundMagnitude n := by
        obtain ⟨m, hm, hvalue⟩ := roundMagnitude_bits hpos
        have hbit := lastBit_eq hpos
        rw [hvalue] at hge ⊢
        refine roundMagnitude_exact (Nat.pos_of_ne_zero ?_) hm (by omega)
        rintro rfl
        norm_num at hge
      push_cast
      rw [round_of_pos (by positivity), roundMagnitude_shift hge, hagain]

/-! ## The interval of a number -/

section Interval

variable {v x : ℚ}

/-- A positive number that is not rounded is a multiple of the step of its grid, and finite. -/
theorem exists_bits (hv : 0 < v) (hr : round v = finite v) :
    (∃ n : Int, v = n * 2 ^ lastBit v) ∧ v < 2 ^ 1024 := by
  rw [round_of_pos hv] at hr
  split at hr
  · cases hr
  · rename_i hlimit
    have hsame : roundMagnitude v = v := finite.inj hr
    rw [hsame, not_le] at hlimit
    refine ⟨⟨nearestEven (v / 2 ^ lastBit v), ?_⟩, hlimit⟩
    rw [← roundMagnitude_eq_mul, hsame]

theorem round_eq_of_magnitude (hx : 0 < x) (hm : roundMagnitude x = v) (hv : v < 2 ^ 1024) :
    round x = finite v := by
  rw [round_of_pos hx, hm, if_neg (not_le.mpr hv)]

/-- The interval of a number in terms of the step of its grid. -/
theorem holds_iff {n k : Int} (hk : lastBit v = k) (hn : v = n * 2 ^ k) (below : ℚ)
    (hbelow : below = if n = 2 ^ 52 ∧ -1074 < k then 2 ^ k / 4 else 2 ^ k / 2) :
    (interval v).holds x = true ↔
      v - below ≤ x ∧ x ≤ v + 2 ^ k / 2 ∧
        (x = v - below ∨ x = v + 2 ^ k / 2 → n % 2 = 0) := by
  have hstep : (0 : ℚ) < 2 ^ k := by positivity
  have hmantissa : v / twoPow (lastBit v) = n := by
    rw [twoPow_eq_zpow, hk, hn, mul_div_assoc, div_self hstep.ne', mul_one]
  have hcarry : ((n : ℚ) = twoPow 52) ↔ n = 2 ^ 52 := by
    rw [twoPow_eq_zpow]
    norm_cast
  have hinterval : interval v = ⟨v - below, v + 2 ^ k / 2, decide (n % 2 = 0)⟩ := by
    simp only [interval, hmantissa, hcarry, Rat.num_intCast]
    rw [hbelow, hk, twoPow_eq_zpow]
  rw [hinterval]
  by_cases heven : n % 2 = 0
  · simp [Interval.holds, heven]
  · simp only [Interval.holds, heven, decide_false, Bool.false_eq_true, if_false,
      Bool.and_eq_true, decide_eq_true_eq, imp_false, not_or]
    constructor
    · rintro ⟨hlow, hhigh⟩
      exact ⟨hlow.le, hhigh.le, hlow.ne', hhigh.ne⟩
    · rintro ⟨hlow, hhigh, hne, hne'⟩
      exact ⟨lt_of_le_of_ne hlow (Ne.symm hne), lt_of_le_of_ne hhigh hne'⟩

/-- On the grid of `v`, what is at most half a step away from `v` is rounded to it. -/
theorem roundMagnitude_same_grid {n k : Int} (hn : v = n * 2 ^ k) (hbit : lastBit x = k)
    (hlow : v - 2 ^ k / 2 ≤ x) (hup : x ≤ v + 2 ^ k / 2)
    (heven : x = v - 2 ^ k / 2 ∨ x = v + 2 ^ k / 2 → n % 2 = 0) : roundMagnitude x = v := by
  rw [roundMagnitude_eq hbit, ← hn]
  · rw [← hn, abs_le]
    constructor <;> linarith
  · rw [← hn]
    intro htie
    apply heven
    rcases (abs_eq (by positivity)).mp htie with habove | hunder
    · exact .inr (by linarith)
    · exact .inl (by linarith)

/-- Below a power of two the grid is twice as fine. -/
theorem roundMagnitude_below_power {k : Int} (hk : -1074 < k) (hvalue : v = 2 ^ 52 * 2 ^ k)
    (hx : x < v) (hlow : v - 2 ^ k / 4 ≤ x) : roundMagnitude x = v := by
  have hstep : (0 : ℚ) < 2 ^ k := by positivity
  have hhalf : (2 : ℚ) ^ (k - 1) = 2 ^ k / 2 := by
    rw [zpow_sub₀ two_ne_zero, zpow_one]
  have hbit : lastBit x = k - 1 := by
    refine lastBit_of_bounds (by omega) (.inr ?_) (by linarith) ?_
    · rw [show k - 1 + 52 = 51 + k by ring, zpow_add₀ two_ne_zero]
      have h : (2 : ℚ) ^ (51 : Int) = 2 ^ 52 / 2 := by norm_num
      rw [h]
      linarith
    · rw [show k - 1 + 53 = 52 + k by ring, zpow_add₀ two_ne_zero]
      exact hx.trans_eq hvalue
  have hdouble : v = ((2 ^ 53 : Int) : ℚ) * 2 ^ (k - 1) := by
    rw [hvalue, hhalf]
    push_cast
    ring
  refine roundMagnitude_same_grid hdouble hbit ?_ ?_ fun _ => by norm_num
  · rw [hhalf]
    linarith
  · rw [hhalf]
    linarith

/-- Whatever the interval of a number holds is rounded to that number. -/
theorem round_of_holds (hv : 0 < v) (hr : round v = finite v)
    (hx : (interval v).holds x = true) : round x = finite v := by
  obtain ⟨⟨n, hn⟩, hlimit⟩ := exists_bits hv hr
  have hhigh : v < 2 ^ (lastBit v + 53) := lt_pow_lastBit hv
  have hlog : lastBit v = Max.max (Int.log 2 v - 52) (-1074) := lastBit_eq hv
  generalize hk : lastBit v = k at *
  have hstep : (0 : ℚ) < 2 ^ k := by positivity
  have hsteps : ∀ {a b : Int}, a ≤ b → (a : ℚ) * 2 ^ k ≤ b * 2 ^ k := fun h =>
    mul_le_mul_of_nonneg_right (by exact_mod_cast h) hstep.le
  obtain ⟨hlow, hup, heven⟩ := (holds_iff hk hn _ rfl).mp hx
  have hnpos : 1 ≤ n := by
    rw [hn] at hv
    exact_mod_cast (mul_pos_iff_of_pos_right hstep).mp hv
  have hnlt : n + 1 ≤ 2 ^ 53 := by
    rw [hn, zpow_add₀ two_ne_zero, mul_comm] at hhigh
    exact_mod_cast lt_of_mul_lt_mul_left hhigh hstep.le
  have hbelow : (if n = 2 ^ 52 ∧ -1074 < k then (2 : ℚ) ^ k / 4 else 2 ^ k / 2) ≤ 2 ^ k / 2 := by
    split_ifs <;> linarith
  have hxpos : 0 < x := by
    have h := hsteps hnpos
    push_cast at h
    linarith
  refine round_eq_of_magnitude hxpos ?_ hlimit
  by_cases hsame : k = -1074 ∨ 2 ^ (k + 52) ≤ x
  · have hxhigh : x < 2 ^ (k + 53) := by
      have h := hsteps hnlt
      push_cast at h
      rw [zpow_add₀ two_ne_zero, mul_comm]
      exact_mod_cast (show x < 2 ^ 53 * 2 ^ k by linarith)
    refine roundMagnitude_same_grid hn (lastBit_of_bounds (by omega) hsame hxpos hxhigh)
      (by linarith) hup ?_
    rintro (hunder | habove)
    · exact heven (.inl (by linarith))
    · exact heven (.inr habove)
  · -- a number whose interval leaves its grid is a power of two
    rw [not_or, not_le] at hsame
    obtain ⟨hk', hxlow⟩ := hsame
    have hvlow : (2 : ℚ) ^ (k + 52) ≤ v :=
      (Int.zpow_le_iff_le_log (by norm_num : 1 < 2) hv).mpr (by omega)
    have hpow : (2 : ℚ) ^ (k + 52) = 2 ^ 52 * 2 ^ k := by
      rw [zpow_add₀ two_ne_zero, mul_comm]
      rfl
    have hcarry : n = 2 ^ 52 := by
      refine le_antisymm ?_ ?_
      · by_contra hgt
        have h := hsteps (not_le.mp hgt)
        push_cast at h
        linarith
      · rw [hpow, hn] at hvlow
        exact_mod_cast le_of_mul_le_mul_right hvlow hstep
    have hvalue : v = 2 ^ 52 * 2 ^ k := by
      rw [hn, hcarry]
      norm_cast
    rw [if_pos ⟨hcarry, by omega⟩] at hlow
    exact roundMagnitude_below_power (by omega) hvalue (by linarith) hlow

end Interval

/-! ## Decimals -/

theorem digitCount_spec {n : ℕ} (hn : 0 < n) :
    10 ^ (digitCount n - 1) ≤ n ∧ n < 10 ^ (digitCount n - 1 + 1) := by
  have hpos : 0 < digitCount n := Nat.length_toDigits_pos
  rw [Nat.sub_add_cancel hpos]
  refine ⟨?_, (Nat.length_toDigits_le_iff (by norm_num) hpos).mp le_rfl⟩
  by_contra hlt
  rcases Nat.eq_zero_or_pos (digitCount n - 1) with hzero | hmore
  · rw [hzero] at hlt
    omega
  · have hle : digitCount n ≤ digitCount n - 1 :=
      (Nat.length_toDigits_le_iff (by norm_num) hmore).mpr (by omega)
    omega

theorem decade_eq_log {x : ℚ} (hx : 0 < x) : decade x = Int.log 10 x := by
  have hnum : 0 < x.num.natAbs := by
    rw [Int.natAbs_pos]
    exact (Rat.num_pos.mpr hx).ne'
  have hp : 0 < digitCount x.num.natAbs := Nat.length_toDigits_pos
  have hq : 0 < digitCount x.den := Nat.length_toDigits_pos
  rw [← log_of_guess (by norm_num : 1 < 10) hx (digitCount_spec hnum) (digitCount_spec x.den_pos)]
  have hguess : ((digitCount x.num.natAbs - 1 : ℕ) : Int) - (digitCount x.den - 1 : ℕ) =
      (digitCount x.num.natAbs : Int) - digitCount x.den := by
    omega
  simp only [decade, tenPow_eq_zpow, hguess]
  rfl

theorem two_pow_le_ten_pow : (2 : ℚ) ^ 1075 ≤ 10 ^ 400 :=
  calc (2 : ℚ) ^ 1075 ≤ 2 ^ (3 * 400) := pow_le_pow_right₀ (by norm_num) (by norm_num)
    _ = (2 ^ 3) ^ 400 := pow_mul 2 3 400
    _ ≤ 10 ^ 400 := pow_le_pow_left₀ (by norm_num) (by norm_num) 400

/-- A decimal is read as the number nearest to it, however far from the range it is. -/
theorem ofDecimal_eq_round (d : ℕ) (e : Int) : ofDecimal d e = round (d * 10 ^ e) := by
  unfold ofDecimal
  split
  · rename_i hd
    simp [hd, round]
  · rename_i hd
    have hdpos : 0 < d := Nat.pos_of_ne_zero hd
    have hten : (0 : ℚ) < 10 ^ e := by positivity
    have hcount : 0 < digitCount d := Nat.length_toDigits_pos
    have hpos : (0 : ℚ) < d * 10 ^ e := by positivity
    obtain ⟨hlow, hhigh⟩ := digitCount_spec hdpos
    rw [Nat.sub_add_cancel hcount] at hhigh
    simp only
    split_ifs with hlarge hsmall
    · refine (round_eq_infinity ?_).symm
      calc (2 : ℚ) ^ 1024 ≤ 2 ^ 1075 := pow_le_pow_right₀ (by norm_num) (by norm_num)
        _ ≤ 10 ^ 400 := two_pow_le_ten_pow
        _ ≤ 10 ^ ((digitCount d - 1 : ℕ) + e) := by
          rw [← zpow_natCast]
          exact zpow_le_zpow_right₀ (by norm_num) (by omega)
        _ = 10 ^ (digitCount d - 1) * 10 ^ e := by rw [zpow_add₀ (by norm_num), zpow_natCast]
        _ ≤ d * 10 ^ e := mul_le_mul_of_nonneg_right (by exact_mod_cast hlow) hten.le
    · refine (round_eq_zero hpos ?_).symm
      calc (d : ℚ) * 10 ^ e < 10 ^ digitCount d * 10 ^ e :=
            mul_lt_mul_of_pos_right (by exact_mod_cast hhigh) hten
        _ = 10 ^ ((digitCount d : Int) + e) := by rw [zpow_add₀ (by norm_num), zpow_natCast]
        _ ≤ 10 ^ (-400 : Int) := zpow_le_zpow_right₀ (by norm_num) (by omega)
        _ ≤ 2 ^ (-1075 : Int) := by
          rw [zpow_neg, zpow_neg]
          exact inv_anti₀ (by positivity) two_pow_le_ten_pow
    · rw [tenPow_eq_zpow]

end ClassCohesion.Number
