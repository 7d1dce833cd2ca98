import ClassCohesion.Number.Basic

/-!
# The shortest decimal of a number

Of all decimals that round to a given positive number, `shortest` takes one with the fewest digits
and, among those, the nearest, a tie going to an even last digit. The decimals that round to the
number form an interval: half a step of the last bit to either side (a quarter below a power of two,
where the step below is half as wide), with the ends included when the last bit is even.
-/

namespace ClassCohesion.Number

def tenPow (e : Int) : Rat :=
  if 0 ≤ e then (Nat.pow 10 e.toNat : Rat) else 1 / (Nat.pow 10 (-e).toNat : Rat)

def digitCount (n : Nat) : Nat := (Nat.toDigits 10 n).length

/-- The exponent of the largest power of ten that is not above `x`, for positive `x`. -/
def decade (x : Rat) : Int :=
  let e : Int := (digitCount x.num.natAbs : Int) - (digitCount x.den : Int)
  if tenPow e ≤ x then e else e - 1

/-- The rationals that round to a positive number. -/
structure Interval where
  low : Rat
  high : Rat
  closed : Bool
deriving Repr

def Interval.holds (i : Interval) (x : Rat) : Bool :=
  if i.closed then decide (i.low ≤ x) && decide (x ≤ i.high)
  else decide (i.low < x) && decide (x < i.high)

def interval (v : Rat) : Interval :=
  let unit := twoPow (lastBit v)
  let mantissa := v / unit
  let below := if mantissa = twoPow 52 ∧ -1074 < lastBit v then unit / 4 else unit / 2
  ⟨v - below, v + unit / 2, decide (mantissa.num % 2 = 0)⟩

structure Decimal where
  digits : Nat
  exponent : Int
deriving Repr, DecidableEq

def Decimal.value (d : Decimal) : Rat := (d.digits : Rat) * tenPow d.exponent

/-- The better of the two neighbours of `v` on the grid of multiples of `10 ^ e`, if one of them
rounds to `v`. -/
def onGrid (v : Rat) (e : Int) : Option Decimal :=
  let below := (v / tenPow e).floor.toNat
  let i := interval v
  let lower : Decimal := ⟨below, e⟩
  let upper : Decimal := ⟨below + 1, e⟩
  match i.holds lower.value, i.holds upper.value with
  | false, false => none
  | true, false => some lower
  | false, true => some upper
  | true, true =>
    let toLower := v - lower.value
    let toUpper := upper.value - v
    if toLower < toUpper then some lower
    else if toUpper < toLower then some upper
    else if below % 2 = 0 then some lower else some upper

/-- Tries grids of more and more digits; seventeen always suffice. -/
def refine (v : Rat) : Nat → Int → Decimal
  | 0, e => ⟨(v / tenPow e).floor.toNat, e⟩
  | n + 1, e => (onGrid v e).getD (refine v n (e - 1))

/-- The shortest decimal of a positive number. -/
def shortest (v : Rat) : Decimal := refine v 17 (decade v)

end ClassCohesion.Number
