/-!
# Numbers

Sizes, metrics and settings are numbers of 53 significant bits. A finite one is held as the exact
rational it denotes, so that sums, quotients and comparisons are those of the rationals followed by
one rounding: `round` takes a rational to the nearest number, a tie to the one with an even last
bit, and beyond the largest finite one to an infinity. There is one zero.
-/

namespace ClassCohesion

/-- A number: a rational of at most 53 significant bits, or one of the values beyond them. -/
inductive Number where
  | finite (value : Rat)
  | infinity
  | negInfinity
  | nan
deriving DecidableEq, Repr, Inhabited

namespace Number

/-! ## Rounding -/

def twoPow (e : Int) : Rat :=
  if 0 ≤ e then (Nat.pow 2 e.toNat : Rat) else 1 / (Nat.pow 2 (-e).toNat : Rat)

/-- The exponent of the largest power of two that is not above `x`, for positive `x`. -/
def binade (x : Rat) : Int :=
  let e : Int := (Nat.log2 x.num.natAbs : Int) - (Nat.log2 x.den : Int)
  if twoPow e ≤ x then e else e - 1

/-- The exponent of the last bit of a number near `x`: the 53rd from its first one, but never below
the last bit of the least positive number. -/
def lastBit (x : Rat) : Int := max (binade x - 52) (-1074)

/-- The integer nearest to `x`, a tie going to the even one. -/
def nearestEven (x : Rat) : Int :=
  let below := x.floor
  let rest := x - (below : Rat)
  if rest < 1 / 2 then below
  else if 1 / 2 < rest then below + 1
  else if below % 2 = 0 then below else below + 1

/-- The magnitude of the number nearest to a positive `x`, before it is held against the range. -/
def roundMagnitude (x : Rat) : Rat :=
  let unit := twoPow (lastBit x)
  (nearestEven (x / unit) : Rat) * unit

def round (x : Rat) : Number :=
  if x = 0 then finite 0
  else if 0 < x then
    let v := roundMagnitude x
    -- rounding may go up to a power of two that is out of range
    if twoPow 1024 ≤ v then infinity else finite v
  else
    let v := roundMagnitude (-x)
    if twoPow 1024 ≤ v then negInfinity else finite (-v)

/-- A count as a number. Counts stay far below the 53 bits from which rounding would matter. -/
def ofNat (n : Nat) : Number := finite (n : Rat)

def ofInt (n : Int) : Number := finite (n : Rat)

instance : Coe Nat Number := ⟨ofNat⟩

instance (n : Nat) : OfNat Number n := ⟨ofNat n⟩

/-! ## Arithmetic -/

def add : Number → Number → Number
  | finite a, finite b => round (a + b)
  | nan, _ => nan
  | _, nan => nan
  | infinity, negInfinity => nan
  | negInfinity, infinity => nan
  | infinity, _ => infinity
  | _, infinity => infinity
  | negInfinity, _ => negInfinity
  | _, negInfinity => negInfinity

instance : Add Number := ⟨add⟩

def scale (a : Number) (n : Nat) : Number :=
  match a with
  | finite v => round (v * (n : Rat))
  | other => other

def share (a : Number) (n : Nat) : Number :=
  match a with
  | finite v => round (v / (n : Rat))
  | other => other

/-- Whether the first number is below the second; nothing is below or above `nan`. -/
def lt : Number → Number → Bool
  | finite a, finite b => decide (a < b)
  | nan, _ => false
  | _, nan => false
  | infinity, _ => false
  | _, infinity => true
  | _, negInfinity => false
  | negInfinity, _ => true

def le (a b : Number) : Bool := lt a b || (a != nan && a == b)

/-- The larger of two numbers, `nan` if either is. -/
def max (a b : Number) : Number :=
  match a, b with
  | nan, _ => nan
  | _, nan => nan
  | a, b => if lt a b then b else a

def toNat? : Number → Option Nat
  | finite v => if v.den = 1 ∧ 0 ≤ v.num then some v.num.toNat else none
  | _ => none

/-- Whether a number is whole: neither a fraction nor one of the values beyond. -/
def isWhole : Number → Bool
  | finite v => v.den = 1
  | _ => false

/-- The largest number `n` such that `n` and `n + 1` are both exact, less one. -/
def safeLimit : Nat := Nat.pow 2 53 - 1

/-- The whole number a number denotes, if its magnitude is within the safe limit. -/
def toSafeInt? : Number → Option Int
  | finite v => if v.den = 1 ∧ v.num.natAbs ≤ safeLimit then some v.num else none
  | _ => none

end Number

end ClassCohesion
