import ClassCohesion.Text.Units

/-!
# Segments of a pattern

A pattern is matched segment by segment, on code units. In a segment `?` stands for one unit, `*`
for any number of them, and square brackets for one unit out of a set; a backslash makes the next
unit an ordinary one. A segment of two stars stands for any number of segments, which is for
`Pattern` to use. The segments `.` and `..` of a path are matched only by a segment that writes
them.

In a segment that is a row of stars, or of question marks, followed by plain text, a backslash is
plain text too, and after stars that text may be `.` or `..`.
-/

namespace ClassCohesion.Glob

inductive Piece where
  | unit (u : Nat)
  | any
  | many
  | oneOf (negated : Bool) (ranges : List (Nat × Nat))
  | nothing
deriving DecidableEq, Repr

namespace Piece

/-- Whether a piece stands for more than one unit that it writes. -/
def isWild : Piece → Bool
  | unit _ => false
  | _ => true

def accepts (p : Piece) (u : Nat) : Bool :=
  match p with
  | unit v => u == v
  | any => true
  | many => false
  | oneOf negated ranges => ranges.any (fun r => decide (r.1 ≤ u) && decide (u ≤ r.2)) != negated
  | nothing => false

/-- What is left of a list after each number of its members, all of it first. -/
def rests {α : Type} : List α → List (List α)
  | [] => [[]]
  | a :: as => (a :: as) :: rests as

def accept : List Piece → List Nat → Bool
  | [], us => us.isEmpty
  | many :: ps, us => (rests us).any (accept ps)
  | _ :: _, [] => false
  | p :: ps, u :: us => p.accepts u && accept ps us

end Piece

/-! ## Reading a segment -/

/-- A unit of a segment, and whether a backslash makes it ordinary. -/
structure Mark where
  value : Nat
  ordinary : Bool
deriving DecidableEq, Repr

namespace Mark

def isSign (m : Mark) (c : Char) : Bool := !m.ordinary && m.value == c.toNat

/-- The marks of a segment. A backslash at the end is ordinary. -/
def ofUnits : List Nat → List Mark
  | [] => []
  | [u] => [⟨u, u == '\\'.toNat⟩]
  | u :: v :: us =>
    if u == '\\'.toNat then ⟨v, true⟩ :: ofUnits us else ⟨u, false⟩ :: ofUnits (v :: us)

end Mark

/-- The range between two units; the other way round it is empty. -/
def rangeBetween (low high : Nat) : List (Nat × Nat) :=
  if low ≤ high then [(low, high)] else []

/-- Where the reader of a set stands: before its first member, before another one, or before the
dash or the upper end of a range. -/
inductive SetReader where
  | first
  | next
  | dash (low : Nat)
  | high (low : Nat)
deriving DecidableEq

/-- Whether a range goes on: a dash follows that is not the last member. -/
def rangeGoesOn : List Mark → Bool
  | d :: m :: _ => d.isSign '-' && !m.isSign ']'
  | _ => false

/-- The members of a set up to its closing bracket, and how many units they and the bracket take. A
closing bracket in first place is a member. -/
def readMembers : SetReader → List Mark → Option (List (Nat × Nat) × Nat)
  | _, [] => none
  | .dash low, _ :: ms =>
    (readMembers (.high low) ms).map fun (ranges, used) => (ranges, used + 1)
  | .high low, m :: ms =>
    (readMembers .next ms).map fun (ranges, used) => (rangeBetween low m.value ++ ranges, used + 1)
  | r, m :: ms =>
    if m.isSign ']' && r != .first then some ([], 1)
    else if rangeGoesOn ms then
      (readMembers (.dash m.value) ms).map fun (ranges, used) => (ranges, used + 1)
    else
      (readMembers .next ms).map fun (ranges, used) => ((m.value, m.value) :: ranges, used + 1)

/-- The piece that a set with the given members is. Without members it stands for nothing, and one
unit stands for itself. An ordinary caret in front of other members negates like a special one. -/
def setPiece : (negated : Bool) → List (Nat × Nat) → Piece
  | _, [] => .nothing
  | false, [(a, b)] => if a = b then .unit a else .oneOf false [(a, b)]
  | false, (a, b) :: more =>
    if a = '^'.toNat ∧ b = a then .oneOf true more else .oneOf false ((a, b) :: more)
  | true, ranges => .oneOf true ranges

def readSet (ms : List Mark) : Option (Piece × Nat) :=
  match ms with
  | m :: rest =>
    if m.isSign '!' || m.isSign '^' then
      (readMembers .first rest).map fun (ranges, used) => (setPiece true ranges, used + 1)
    else (readMembers .first ms).map fun (ranges, used) => (setPiece false ranges, used)
  | [] => none

/-- The pieces of a segment after the given number of units. An opening bracket without a closing
one stands for itself, and after a set that stands for nothing the rest does not matter. -/
def readPieces : Nat → List Mark → List Piece
  | _, [] => []
  | skip + 1, _ :: ms => readPieces skip ms
  | 0, m :: ms =>
    if m.isSign '[' then
      match readSet ms with
      | some (.nothing, _) => [.nothing]
      | some (p, used) => p :: readPieces used ms
      | none => .unit m.value :: readPieces 0 ms
    else if m.isSign '*' then .many :: readPieces 0 ms
    else if m.isSign '?' then .any :: readPieces 0 ms
    else .unit m.value :: readPieces 0 ms

/-! ## Segments -/

inductive Segment where
  | anyDepth
  | exact (units : List Nat)
  | shape (pieces : List Piece) (dots : Bool)
deriving DecidableEq, Repr

namespace Segment

def unitsOf (s : String) : List Nat := Text.units s.toList

def isDots (us : List Nat) : Bool := us == unitsOf "." || us == unitsOf ".."

def isPlain (us : List Nat) : Bool := us.all fun u => !(unitsOf "+@!?*[(").contains u

/-- A row of one wildcard followed by plain text. -/
def plainTail? (wildcard : Char) (us : List Nat) : Option (List Nat × List Nat) :=
  let isWildcard := fun u => u == wildcard.toNat
  let tail := us.dropWhile isWildcard
  if tail.length < us.length ∧ isPlain tail then some (us.takeWhile isWildcard, tail) else none

def ofText (text : List Char) : Segment :=
  let us := Text.units text
  if us = unitsOf "**" then anyDepth
  -- a wildcard with plain text behind it is read without regard to backslashes
  else match plainTail? '*' us, plainTail? '?' us with
    | some (_, tail), _ => shape (.many :: tail.map .unit) (!tail.isEmpty)
    | none, some (row, tail) => shape (row.map (fun _ => .any) ++ tail.map .unit) false
    | none, none =>
      let pieces := readPieces 0 (Mark.ofUnits us)
      if pieces.any Piece.isWild then shape pieces false
      else exact (pieces.filterMap fun | .unit u => some u | _ => none)

/-- Whether a segment of a pattern stands for a segment of a path. A star alone stands for at least
one unit. -/
def accepts : Segment → List Nat → Bool
  | anyDepth, _ => false
  | exact us, segment => us == segment
  | shape [.many] _, segment => !segment.isEmpty && !isDots segment
  | shape pieces dots, segment => (dots || !isDots segment) && Piece.accept pieces segment

end Segment

end ClassCohesion.Glob
