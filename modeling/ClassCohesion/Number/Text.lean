import ClassCohesion.Number.Shortest

/-!
# The text of a number

`text` writes the shortest decimal. Below `10 ^ 21` it is written positionally, and so are fractions
down to `10 ^ -6`; beyond, one digit stands before the point and a signed exponent follows `e`.

`fixedText` writes a number with a fixed count of places, a half going away from zero; from
`10 ^ 21` on it is `text`.
-/

namespace ClassCohesion.Number

def digitsOf (n : Nat) : List Char := Nat.toDigits 10 n

/-- Drops the zeros at the end of a row of digits. -/
def dropZerosEnd (ds : List Char) : List Char := (ds.reverse.dropWhile (· == '0')).reverse

/-- Writes the digits `ds` with the decimal point after the first `point` of them, where `point` may
lie outside the row. -/
def layout (ds : List Char) (point : Int) : List Char :=
  let k : Int := ds.length
  if k ≤ point ∧ point ≤ 21 then
    ds ++ List.replicate (point - k).toNat '0'
  else if 0 < point ∧ point ≤ 21 then
    ds.take point.toNat ++ '.' :: ds.drop point.toNat
  else if -6 < point ∧ point ≤ 0 then
    ['0', '.'] ++ List.replicate (-point).toNat '0' ++ ds
  else
    let e := point - 1
    let mark := (if e < 0 then ['e', '-'] else ['e', '+']) ++ digitsOf e.natAbs
    match ds with
    | [] => mark
    | [d] => d :: mark
    | d :: rest => d :: '.' :: rest ++ mark

def textOfPositive (v : Rat) : List Char :=
  let d := shortest v
  let ds := digitsOf d.digits
  layout (dropZerosEnd ds) (d.exponent + ds.length)

def text : Number → String
  | finite v =>
    if v = 0 then "0"
    else if 0 < v then String.ofList (textOfPositive v)
    else String.ofList ('-' :: textOfPositive (-v))
  | infinity => "Infinity"
  | negInfinity => "-Infinity"
  | nan => "NaN"

/-- A row of digits with a point before the last `places` of them. -/
def pointBefore (places : Nat) (n : Nat) : List Char :=
  let ds := digitsOf n
  let padded := List.replicate (places + 1 - ds.length) '0' ++ ds
  let whole := padded.length - places
  padded.take whole ++ '.' :: padded.drop whole

def fixedText (x : Number) : String :=
  match x with
  | finite v =>
    let a := if v < 0 then -v else v
    if tenPow 21 ≤ a then text x
    else
      let body := pointBefore 2 (a * 100 + 1 / 2).floor.toNat
      String.ofList (if v < 0 then '-' :: body else body)
  | other => text other

end ClassCohesion.Number
