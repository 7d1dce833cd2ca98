import ClassCohesion.Json.Basic
import ClassCohesion.Number.Reader
import ClassCohesion.Text.Units

/-!
# Reading JSON

The strict grammar: blanks are tab, line feed, carriage return and space, strings hold no bare
control characters, numbers have no leading zeros or signs other than a minus, and nothing may
follow the value. Reading descends through the text with a bound on the number of steps; the bound
that `parse?` gives is above any that a text of its length can need.
-/

namespace ClassCohesion.Json

def isSpace (c : Char) : Bool := c == ' ' || c == '\n' || c == '\r' || c == '\t'

def skipSpace (cs : List Char) : List Char := cs.dropWhile isSpace

/-! ## Strings -/

/-- Joins pairs of surrogate codes into characters; a lone surrogate becomes the replacement. -/
def charsOfCodes : List Nat → List Char
  | [] => []
  | [a] => [if 0xD800 ≤ a && a < 0xE000 then Text.replacement else Char.ofNat a]
  | a :: b :: rest =>
    if 0xD800 ≤ a && a < 0xDC00 && 0xDC00 ≤ b && b < 0xE000 then
      Char.ofNat (0x10000 + (a - 0xD800) * 0x400 + (b - 0xDC00)) :: charsOfCodes rest
    else if 0xD800 ≤ a && a < 0xE000 then Text.replacement :: charsOfCodes (b :: rest)
    else Char.ofNat a :: charsOfCodes (b :: rest)

def hexCode? (a b c d : Char) : Option Nat := do
  let a ← Number.digitIn? 16 a
  let b ← Number.digitIn? 16 b
  let c ← Number.digitIn? 16 c
  let d ← Number.digitIn? 16 d
  return ((a * 16 + b) * 16 + c) * 16 + d

def escapeCode? : Char → Option Nat
  | '"' => some 0x22
  | '\\' => some 0x5C
  | '/' => some 0x2F
  | 'b' => some 0x8
  | 'f' => some 0xC
  | 'n' => some 0xA
  | 'r' => some 0xD
  | 't' => some 0x9
  | _ => none

/-- The codes of a string up to its closing quote, and the text behind it. -/
def readCodes : List Char → Option (List Nat × List Char)
  | [] => none
  | '"' :: rest => some ([], rest)
  | '\\' :: 'u' :: a :: b :: c :: d :: rest => do
    let code ← hexCode? a b c d
    let (codes, rest) ← readCodes rest
    return (code :: codes, rest)
  | '\\' :: e :: rest => do
    let code ← escapeCode? e
    let (codes, rest) ← readCodes rest
    return (code :: codes, rest)
  | c :: rest =>
    -- a backslash that is left here starts no escape
    if c.toNat < 0x20 || c == '\\' then none
    else do
      let (codes, rest) ← readCodes rest
      return (c.toNat :: codes, rest)

def readString (cs : List Char) : Option (String × List Char) := do
  let (codes, rest) ← readCodes cs
  return (String.ofList (charsOfCodes codes), rest)

/-! ## Numbers -/

/-- The whole part of a number: a lone zero, or digits that start with another one. -/
def readWhole (cs : List Char) : Option (List Char × List Char) :=
  match cs with
  | '0' :: rest => some (['0'], rest)
  | cs => match Number.spanDigits cs with
    | ([], _) => none
    | (ds, rest) => some (ds, rest)

def readFraction (cs : List Char) : Option (List Char × List Char) :=
  match cs with
  | '.' :: rest => match Number.spanDigits rest with
    | ([], _) => none
    | (ds, rest) => some (ds, rest)
  | cs => some ([], cs)

def readExponent (cs : List Char) : Option (Int × List Char) :=
  match cs with
  | 'e' :: _ => Number.readExponent? cs
  | 'E' :: _ => Number.readExponent? cs
  | cs => some (0, cs)

def readMagnitude (cs : List Char) : Option (Number × List Char) := do
  let (whole, rest) ← readWhole cs
  let (fraction, rest) ← readFraction rest
  let (e, rest) ← readExponent rest
  return (Number.ofDecimal (Number.natOfDigits (whole ++ fraction)) (e - fraction.length), rest)

def readNumber (cs : List Char) : Option (Number × List Char) :=
  match cs with
  | '-' :: rest => (readMagnitude rest).map fun r => (r.1.neg, r.2)
  | cs => readMagnitude cs

/-! ## Values -/

mutual

/-- A value, whose first character is no blank, in at most `fuel` steps. -/
def readValue : Nat → List Char → Option (Json × List Char)
  | 0, _ => none
  | fuel + 1, cs =>
    match cs with
    | 'n' :: 'u' :: 'l' :: 'l' :: rest => some (null, rest)
    | 't' :: 'r' :: 'u' :: 'e' :: rest => some (bool true, rest)
    | 'f' :: 'a' :: 'l' :: 's' :: 'e' :: rest => some (bool false, rest)
    | '"' :: rest => (readString rest).map fun r => (str r.1, r.2)
    | '[' :: rest =>
      match skipSpace rest with
      | ']' :: rest => some (arr [], rest)
      | rest => (readItems fuel rest).map fun r => (arr r.1, r.2)
    | '\x7b' :: rest =>
      match skipSpace rest with
      | '\x7d' :: rest => some (obj [], rest)
      | rest => (readPairs fuel rest).map fun r => (obj (Fields.ofPairs r.1), r.2)
    | cs => (readNumber cs).map fun r => (num r.1, r.2)

/-- The items of an array up to its closing bracket, at least one. -/
def readItems : Nat → List Char → Option (List Json × List Char)
  | 0, _ => none
  | fuel + 1, cs => do
    let (item, rest) ← readValue fuel cs
    match skipSpace rest with
    | ']' :: rest => return ([item], rest)
    | ',' :: rest =>
      let (items, rest) ← readItems fuel (skipSpace rest)
      return (item :: items, rest)
    | _ => none

/-- The pairs of an object up to its closing brace, at least one. -/
def readPairs : Nat → List Char → Option (List (String × Json) × List Char)
  | 0, _ => none
  | fuel + 1, cs =>
    match cs with
    | '"' :: rest => do
      let (name, rest) ← readString rest
      match skipSpace rest with
      | ':' :: rest =>
        let (value, rest) ← readValue fuel (skipSpace rest)
        match skipSpace rest with
        | '\x7d' :: rest => return ([(name, value)], rest)
        | ',' :: rest =>
          let (pairs, rest) ← readPairs fuel (skipSpace rest)
          return ((name, value) :: pairs, rest)
        | _ => none
      | _ => none
    | _ => none

end

/-- The value that a whole text writes, if it is in the grammar. -/
def parse? (s : String) : Option Json :=
  let cs := s.toList
  match readValue (2 * cs.length + 2) (skipSpace cs) with
  | some (value, rest) => if (skipSpace rest).isEmpty then some value else none
  | none => none

end ClassCohesion.Json
