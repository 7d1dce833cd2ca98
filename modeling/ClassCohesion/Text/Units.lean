/-!
# Text measured in code units

Widths, cuts, padding and the sorting order of a report are counted in 16-bit code units: a
character below U+10000 is one unit, any other is a pair of surrogates. The text itself stays a
`String`; what this module adds is a measure (`width`), a view (`units`) and an order (`unitsLe`).

A `String` has no lone surrogates. So a cut that falls inside a pair leaves the replacement character
where a text of code units would keep the half itself; either way a cut text has exactly the width
that was asked for.

`collationLe` is the order in which a person would list ASCII texts: first blanks, then punctuation,
symbols, digits and letters, where capitals count as small letters; only of two texts that agree so
far, the one with a small letter at the first difference comes first. Control characters do not count.
It is for ASCII only. Other characters come last, by their code, where a locale has its own order.
-/

namespace ClassCohesion.Text

def replacement : Char := Char.ofNat 0xFFFD

def charUnits (c : Char) : List Nat :=
  if c.toNat < 0x10000 then [c.toNat]
  else [0xD800 + (c.toNat - 0x10000) / 0x400, 0xDC00 + (c.toNat - 0x10000) % 0x400]

def units (cs : List Char) : List Nat := cs.flatMap charUnits

def width (s : String) : Nat := (units s.toList).length

@[simp] theorem units_nil : units [] = [] := rfl

@[simp] theorem units_cons (c : Char) (cs : List Char) :
    units (c :: cs) = charUnits c ++ units cs := rfl

@[simp] theorem units_append (as bs : List Char) : units (as ++ bs) = units as ++ units bs := by
  simp [units]

/-- Whether a row of numbers comes before another one or is the same: they are compared number by
number, a proper beginning first. -/
def lexLe : List Nat → List Nat → Bool
  | [], _ => true
  | _ :: _, [] => false
  | a :: as, b :: bs => decide (a < b) || (decide (a = b) && lexLe as bs)

/-- The order in which names and paths are sorted: by code unit, a proper beginning first. -/
def unitsLe (a b : String) : Bool := lexLe (units a.toList) (units b.toList)

/-- The beginning of a text that is `n` units wide, or all of it when it is narrower. -/
def takeUnits : Nat → List Char → List Char
  | _, [] => []
  | 0, _ :: _ => []
  | n + 1, c :: cs =>
    if c.toNat < 0x10000 then c :: takeUnits n cs
    else match n with
      | 0 => [replacement]
      | m + 1 => c :: takeUnits m cs

def padLeft (n : Nat) (s : String) : String :=
  String.ofList (List.replicate (n - width s) ' ') ++ s

def padRight (n : Nat) (s : String) : String :=
  s ++ String.ofList (List.replicate (n - width s) ' ')

/-- A text of at most `n` units: a wider one is cut to `n - 3` units and three dots. -/
def truncate (n : Nat) (s : String) : String :=
  if n < width s then String.ofList (takeUnits (n - 3) s.toList) ++ "..." else s

/-! ## Alphabetical order -/

def collationOrder : List Char :=
  "\t\n\x0b\x0c\r _-,;:!?.'\"()[]\x7b\x7d@*/\\&#%`^+<=>|~$0123456789".toList

/-- The place of a character in the order, if it counts at all. Letters are alike in either case,
and what is not ASCII comes last. -/
def collationWeight (c : Char) : Option Nat :=
  if c.isAlpha then some (1000 + c.toLower.toNat)
  else if 128 ≤ c.toNat then some (10000 + c.toNat)
  else collationOrder.idxOf? c

/-- The first order of comparison: the places of the characters that count. -/
def collationKey (s : String) : List Nat := s.toList.filterMap collationWeight

/-- The second order of comparison: small letters before capitals. -/
def caseKey (s : String) : List Nat :=
  (s.toList.filter fun c => (collationWeight c).isSome).map fun c => if c.isUpper then 1 else 0

/-- Whether the first text comes before the second or at the same place. -/
def collationLe (a b : String) : Bool :=
  let ka := collationKey a
  let kb := collationKey b
  if ka = kb then lexLe (caseKey a) (caseKey b) else lexLe ka kb

end ClassCohesion.Text
