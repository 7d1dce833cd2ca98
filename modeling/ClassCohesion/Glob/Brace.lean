import ClassCohesion.Number.Reader
import ClassCohesion.Text.Split

/-!
# Alternatives in braces

A pattern may hold alternatives in braces: a list such as `{a,b}`, whose members may hold braces
again, or a range such as `{1..3}` or `{a..e..2}`. `expand` writes the pattern out into patterns
without alternatives, the first member first and the last braces running fastest.

Braces without a comma and without a range stand for themselves, and so does a brace without a
partner. A backslash before a brace, a comma, a dot or a backslash makes that character an ordinary
one; in a pattern with braces such a backslash is used up.
-/

namespace ClassCohesion.Glob

/-- A character of a pattern with braces: as written, or made ordinary by a backslash. -/
inductive Sign where
  | written (c : Char)
  | ordinary (c : Char)
deriving DecidableEq, Repr

namespace Sign

def char : Sign → Char
  | written c => c
  | ordinary c => c

def ofChars : List Char → List Sign
  | '\\' :: c :: cs =>
    if c ∈ ['\\', '\x7b', '\x7d', ',', '.'] then ordinary c :: ofChars cs
    else written '\\' :: ofChars (c :: cs)
  | c :: cs => written c :: ofChars cs
  | [] => []

def toChars (signs : List Sign) : List Char := signs.map char

end Sign

namespace Brace

def opening : Sign := .written '\x7b'

def closing : Sign := .written '\x7d'

def comma : Sign := .written ','

structure Pair where
  before : List Sign
  body : List Sign
  after : List Sign
deriving Repr

/-- The signs up to the brace that closes the current depth, and those after it. -/
def spanBody : Nat → List Sign → Option (List Sign × List Sign)
  | _, [] => none
  | depth, s :: rest =>
    if s = closing then
      match depth with
      | 0 => some ([], rest)
      | depth + 1 => (spanBody depth rest).map fun (body, after) => (s :: body, after)
    else
      let depth := if s = opening then depth + 1 else depth
      (spanBody depth rest).map fun (body, after) => (s :: body, after)

/-- The first opening brace that has a partner, with that partner. -/
def pair? : List Sign → Option Pair
  | [] => none
  | s :: rest =>
    let here := if s = opening then
        (spanBody 0 rest).map fun (body, after) => (⟨[], body, after⟩ : Pair)
      else none
    here.or ((pair? rest).map fun p => { p with before := s :: p.before })

/-- The members of a list: the parts between the commas that stand in no inner braces. The depth
counts the braces that are open; an opening brace without a partner does not count. -/
def members : Nat → List Sign → List (List Sign)
  | _, [] => [[]]
  | depth, s :: rest =>
    if s = comma ∧ depth = 0 then [] :: members 0 rest
    else
      let depth :=
        if s = opening ∧ (spanBody 0 rest).isSome then depth + 1
        else if s = closing then depth - 1
        else depth
      match members depth rest with
      | [] => [[s]]
      | m :: ms => (s :: m) :: ms

/-! ## Ranges -/

/-- The ends, the step and the width of a range; letters are given by their codes. -/
structure Range where
  first : Int
  last : Int
  step : Nat
  letters : Bool
  width : Nat
  padded : Bool
deriving Repr

def int? (signs : List Char) : Option Int :=
  let (sign, digits) : Int × List Char := match signs with
    | '-' :: ds => (-1, ds)
    | ds => (1, ds)
  if !digits.isEmpty ∧ digits.all Char.isDigit then some (sign * Number.natOfDigits digits)
  else none

def isPadded : List Char → Bool
  | '-' :: '0' :: c :: _ => c.isDigit
  | '0' :: c :: _ => c.isDigit
  | _ => false

def dotParts : List Char → List (List Char)
  | '.' :: '.' :: cs => [] :: dotParts cs
  | c :: cs => match dotParts cs with
    | [] => [[c]]
    | p :: ps => (c :: p) :: ps
  | [] => [[]]

/-- The range that the body of two braces writes: two numbers or two letters, and a step. -/
def range? (body : List Sign) : Option Range :=
  let chars := body.filterMap fun
    | .written c => some c
    | .ordinary _ => none
  if chars.length ≠ body.length then none
  else
    let parts := dotParts chars
    let step : Option Nat := match parts with
      | [_, _] => some 1
      | [_, _, s] => (int? s).map Int.natAbs
      | _ => none
    match parts, step with
    | a :: b :: _, some step =>
      match a, b, int? a, int? b with
      | _, _, some first, some last =>
        some ⟨first, last, step, false, max a.length b.length, parts.any isPadded⟩
      | [x], [y], _, _ =>
        if x.isAlpha ∧ y.isAlpha then some ⟨x.toNat, y.toNat, step, true, 1, false⟩ else none
      | _, _, _, _ => none
    | _, _ => none

/-- The values of a range. A step of zero counts as one. -/
def Range.values (r : Range) : List Int :=
  let step := max r.step 1
  let count := (r.last - r.first).natAbs / step + 1
  let direction : Int := if r.last < r.first then -1 else 1
  (List.range count).map fun i => r.first + direction * (i * step : Nat)

/-- The text of a value: a letter, or a number with zeros up to the width of the wider end if one
end has such. A backslash between the letters has no text. -/
def Range.text (r : Range) (value : Int) : List Char :=
  if r.letters then
    let c := Char.ofNat value.toNat
    if c = '\\' then [] else [c]
  else
    let digits := (toString value.natAbs).toList
    let sign := if value < 0 then ['-'] else []
    let zeros := if r.padded then r.width - (sign.length + digits.length) else 0
    sign ++ List.replicate zeros '0' ++ digits

/-! ## Expansion -/

/-- Whether a comma, and after it on the same line a closing brace, follows. -/
def listGoesOn : List Sign → Bool
  | [] => false
  | s :: rest =>
    (s = comma && (rest.takeWhile fun s =>
      s.char ∉ ['\n', '\r', '\u2028', '\u2029']).contains closing) || listGoesOn rest

/-- The patterns that signs with braces write out to. At the top an empty one is left out unless it
comes from a range. The first argument bounds the depth of the recursion. -/
def expandSigns : Nat → Bool → List Sign → List (List Sign)
  | 0, _, signs => [signs]
  | fuel + 1, top, signs =>
    match pair? signs with
    | none => [signs]
    | some ⟨before, body, after⟩ =>
      let ends := if after.isEmpty then [[]] else expandSigns fuel false after
      let around (middles : List (List Sign)) : List (List Sign) :=
        middles.flatMap fun m => ends.map fun e => before ++ m ++ e
      -- braces after a dollar sign stand for themselves
      if before.getLast? = some (.written '$') then around [opening :: body ++ [closing]]
      else match range? body with
        | some r => around (r.values.map fun v => (r.text v).map .written)
        | none =>
          if body.contains comma then
            match members 0 body with
            | [only] =>
              -- the comma stands in inner braces, so the outer ones stand for themselves
              match expandSigns fuel false only with
              | [one] => around [opening :: one ++ [closing]]
              | many =>
                let out := around ((many.map fun m => opening :: m ++ [closing]).flatMap
                  (expandSigns fuel false))
                if top then out.filter (!·.isEmpty) else out
            | parts =>
              let out := around (parts.flatMap (expandSigns fuel false))
              if top then out.filter (!·.isEmpty) else out
          else if listGoesOn after then
            -- the closing brace is an ordinary one, and the next may be the partner
            expandSigns fuel false (before ++ opening :: body ++ .ordinary '\x7d' :: after)
          else [signs]

/-- Whether a pattern has an opening brace with a closing one after it on the same line, and no
opening one between. -/
def hasBraces : List Char → Bool
  | [] => false
  | c :: cs =>
    (c = '\x7b' && (cs.takeWhile fun d =>
      d ∉ ['\x7b', '\n', '\r', '\u2028', '\u2029']).contains '\x7d') || hasBraces cs

/-- Braces with nothing between them at the start of a pattern stand for themselves. -/
def protectStart : List Char → List Char
  | '\x7b' :: '\x7d' :: cs => '\\' :: '\x7b' :: '\\' :: '\x7d' :: cs
  | cs => cs

def expand (pattern : List Char) : List (List Char) :=
  if hasBraces pattern then
    let signs := Sign.ofChars (protectStart pattern)
    (expandSigns (2 * signs.length + 1) true signs).map Sign.toChars
  else [pattern]

end Brace

end ClassCohesion.Glob
