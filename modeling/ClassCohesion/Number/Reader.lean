import ClassCohesion.Number.Basic
import ClassCohesion.Number.Shortest
import ClassCohesion.Text.Split

/-!
# Reading numbers

A decimal literal is a row of digits with an optional fraction and exponent; its value is the number
nearest to the decimal it writes. `ofText` reads a whole text: blanks at either end are ignored, the
empty text is zero, `0x`, `0o` and `0b` introduce whole numbers in other bases, and a text that is
none of these is `nan`.
-/

namespace ClassCohesion.Number

/-- The number nearest to `digits · 10 ^ exponent`. Far beyond the range no power is computed. -/
def ofDecimal (digits : Nat) (exponent : Int) : Number :=
  if digits = 0 then finite 0
  else
    let magnitude : Int := digitCount digits + exponent
    if 400 < magnitude then infinity
    else if magnitude < -400 then finite 0
    else round ((digits : Rat) * tenPow exponent)

def neg : Number → Number
  | finite v => finite (-v)
  | infinity => negInfinity
  | negInfinity => infinity
  | nan => nan

def digitValue (c : Char) : Nat := c.toNat - 48

def natOfDigits (ds : List Char) : Nat := ds.foldl (fun n c => n * 10 + digitValue c) 0

def spanDigits (cs : List Char) : List Char × List Char :=
  (cs.takeWhile Char.isDigit, cs.dropWhile Char.isDigit)

/-- An exponent mark with its sign and digits, if the text starts with a complete one. -/
def readExponent? (cs : List Char) : Option (Int × List Char) :=
  match cs with
  | 'e' :: rest | 'E' :: rest =>
    let (negative, rest) := match rest with
      | '+' :: r => (false, r)
      | '-' :: r => (true, r)
      | r => (false, r)
    let (ds, rest) := spanDigits rest
    if ds.isEmpty then none
    else
      let e : Int := natOfDigits ds
      some (if negative then -e else e, rest)
  | _ => none

/-- An unsigned decimal that makes up the whole text: digits on at least one side of the point. -/
def readDecimal? (cs : List Char) : Option Number :=
  let (whole, rest) := spanDigits cs
  let (fraction, rest) := match rest with
    | '.' :: r => spanDigits r
    | r => ([], r)
  if whole.isEmpty && fraction.isEmpty then none
  else
    let digits := natOfDigits (whole ++ fraction)
    let shift : Int := -(fraction.length : Int)
    match rest with
    | [] => some (ofDecimal digits shift)
    | rest => match readExponent? rest with
      | some (e, []) => some (ofDecimal digits (shift + e))
      | _ => none

def digitIn? (base : Nat) (c : Char) : Option Nat :=
  let v := if c.isDigit then c.toNat - 48
    else if 'a' ≤ c && c ≤ 'f' then c.toNat - 87
    else if 'A' ≤ c && c ≤ 'F' then c.toNat - 55
    else base
  if v < base then some v else none

/-- A non-empty row of digits in the given base. -/
def readBase? (base : Nat) (cs : List Char) : Option Number :=
  if cs.isEmpty then none
  else (cs.mapM (digitIn? base)).map fun ds =>
    round ((ds.foldl (fun n d => n * base + d) 0 : Nat) : Rat)

def readUnsigned? (cs : List Char) : Option Number :=
  if cs = "Infinity".toList then some infinity else readDecimal? cs

/-- The number a whole text denotes, `nan` if it denotes none. -/
def ofText (s : String) : Number :=
  let read? : Option Number := match Text.trim s.toList with
    | [] => some (finite 0)
    | '0' :: 'x' :: ds | '0' :: 'X' :: ds => readBase? 16 ds
    | '0' :: 'o' :: ds | '0' :: 'O' :: ds => readBase? 8 ds
    | '0' :: 'b' :: ds | '0' :: 'B' :: ds => readBase? 2 ds
    | '+' :: cs => readUnsigned? cs
    | '-' :: cs => (readUnsigned? cs).map neg
    | cs => readUnsigned? cs
  read?.getD nan

end ClassCohesion.Number
