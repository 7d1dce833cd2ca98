import ClassCohesion.Json.Basic
import ClassCohesion.Number.Text

/-!
# Writing JSON

`compact` writes a value without blanks; `pretty` writes every item and field on a line of its own,
two blanks deeper than its container. Both quote a string in the same way: a quote and a backslash
take a backslash, control characters have their short escape or four hexadecimal digits, and
everything else stands for itself. A number that is not finite is written as `null`.
-/

namespace ClassCohesion.Json

def hexDigit (n : Nat) : Char := if n < 10 then Char.ofNat (48 + n) else Char.ofNat (87 + n)

def quoteChar (c : Char) : List Char :=
  match c.toNat with
  | 0x22 => ['\\', '"']
  | 0x5C => ['\\', '\\']
  | 0x8 => ['\\', 'b']
  | 0xC => ['\\', 'f']
  | 0xA => ['\\', 'n']
  | 0xD => ['\\', 'r']
  | 0x9 => ['\\', 't']
  | n => if n < 0x20 then ['\\', 'u', '0', '0', hexDigit (n / 16), hexDigit (n % 16)] else [c]

def quote (s : String) : List Char := '"' :: s.toList.flatMap quoteChar ++ ['"']

/-- The text of a number, or `null` for one that is not finite. -/
def numberText (n : Number) : List Char :=
  match n with
  | .finite _ => n.text.toList
  | _ => "null".toList

mutual

def compactChars : Json → List Char
  | null => "null".toList
  | bool true => "true".toList
  | bool false => "false".toList
  | num n => numberText n
  | str s => quote s
  | arr [] => ['[', ']']
  | arr (item :: items) => '[' :: compactChars item ++ compactItems items
  | obj [] => ['\x7b', '\x7d']
  | obj ((name, value) :: fields) =>
    '\x7b' :: quote name ++ ':' :: compactChars value ++ compactFields fields

/-- The items behind the first one, with the closing bracket. -/
def compactItems : List Json → List Char
  | [] => [']']
  | item :: items => ',' :: compactChars item ++ compactItems items

def compactFields : List (String × Json) → List Char
  | [] => ['\x7d']
  | (name, value) :: fields =>
    ',' :: quote name ++ ':' :: compactChars value ++ compactFields fields

end

def compact (j : Json) : String := String.ofList (compactChars j)

def newline (depth : Nat) : List Char := '\n' :: List.replicate (2 * depth) ' '

mutual

def prettyChars (depth : Nat) : Json → List Char
  | null => "null".toList
  | bool true => "true".toList
  | bool false => "false".toList
  | num n => numberText n
  | str s => quote s
  | arr [] => ['[', ']']
  | arr (item :: items) =>
    '[' :: newline (depth + 1) ++ prettyChars (depth + 1) item ++ prettyItems depth items
  | obj [] => ['\x7b', '\x7d']
  | obj ((name, value) :: fields) =>
    '\x7b' :: newline (depth + 1) ++ quote name ++ ':' :: ' ' :: prettyChars (depth + 1) value ++
      prettyFields depth fields

/-- The items behind the first one of an array at the given depth, with the closing bracket. -/
def prettyItems (depth : Nat) : List Json → List Char
  | [] => newline depth ++ [']']
  | item :: items =>
    ',' :: newline (depth + 1) ++ prettyChars (depth + 1) item ++ prettyItems depth items

/-- The fields behind the first one of an object at the given depth, with the closing brace. -/
def prettyFields (depth : Nat) : List (String × Json) → List Char
  | [] => newline depth ++ ['\x7d']
  | (name, value) :: fields =>
    ',' :: newline (depth + 1) ++ quote name ++ ':' :: ' ' :: prettyChars (depth + 1) value ++
      prettyFields depth fields

end

def pretty (j : Json) : String := String.ofList (prettyChars 0 j)

end ClassCohesion.Json
