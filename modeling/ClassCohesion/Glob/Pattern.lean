import ClassCohesion.Fault
import ClassCohesion.Glob.Brace
import ClassCohesion.Glob.Segment

/-!
# Patterns for paths

A pattern is a path with wildcards. It is read in four steps: exclamation marks in front negate it,
each one once more; its alternatives are written out; each of them is cut at its slashes; each
segment is read on its own. A path matches if one of the alternatives does. A pattern that starts
with a hash is a remark and matches nothing, negated or not.

An alternative matches a path if their segments match one by one, where `**` stands for any number
of segments other than `.` and `..`, and at the end of an alternative for at least one. A slash at
the end of a path may be left over, one at the end of a pattern may not.

A pattern of more than 65536 code units is refused when it is needed.
-/

namespace ClassCohesion.Glob

/-- A path or pattern cut at its slashes. A row of slashes is one. -/
def cut (path : List Char) : List (List Char) :=
  match Text.pieces '/' path with
  | [] => []
  | first :: rest => first :: (rest.dropLast.filter (!·.isEmpty) ++ rest.getLast?.toList)

/-- Takes up one segment of an alternative: a double dot takes back a segment that it can, and a
second `**` in a row is dropped. -/
def settleSegment (above : List (List Char)) (segment : List Char) : List (List Char) :=
  let last := above.getLast?
  let isBack := segment = ['.', '.'] ∧
    last.any fun s => s ≠ [] ∧ s ≠ ['.'] ∧ s ≠ ['.', '.'] ∧ s ≠ ['*', '*']
  if segment = ['*', '*'] ∧ last = some ['*', '*'] then above
  else if isBack then above.dropLast
  else above ++ [segment]

def segmentsOf (alternative : List Char) : List Segment :=
  let texts := (cut alternative).foldl settleSegment []
  (if texts.isEmpty then [[]] else texts).map Segment.ofText

/-- What is left of a path after each number of segments that `**` can stand for, all of it first
and never nothing. -/
def depths : List (List Nat) → List (List (List Nat))
  | [] => []
  | s :: rest => (s :: rest) :: if Segment.isDots s then [] else depths rest

def matchSegments : List Segment → List (List Nat) → Bool
  | [], path => path.isEmpty || path == [[]]
  | [.anyDepth], path => !path.isEmpty && path.all (!Segment.isDots ·)
  | .anyDepth :: ps, path => (depths path).any (matchSegments ps)
  | _ :: _, [] => false
  | p :: ps, s :: rest => p.accepts s && matchSegments ps rest

structure Pattern where
  negated : Bool
  alternatives : List (List Segment)
deriving Repr

namespace Pattern

def maxWidth : Nat := 65536

def alternativesOf (text : List Char) : List (List Segment) := (Brace.expand text).map segmentsOf

def ofText? (text : String) : Option Pattern :=
  if maxWidth < Text.width text then none
  else if Text.startsWith text "#" then some ⟨false, []⟩
  else
    let marks := text.toList.takeWhile (· == '!')
    some ⟨marks.length % 2 == 1, alternativesOf (text.toList.dropWhile (· == '!'))⟩

def accepts (p : Pattern) (path : String) : Bool :=
  let segments := (cut path.toList).map Text.units
  p.alternatives.any (matchSegments · segments) != p.negated

end Pattern

def tooLong : Cause := ⟨"TypeError", "pattern is too long"⟩

/-- Whether a pattern matches a path. The empty pattern matches the empty path and no other. -/
def matchesPattern (path pattern : String) : Except Cause Bool :=
  match Pattern.ofText? pattern with
  | some p => .ok (if pattern = "" then path == "" else p.accepts path)
  | none => .error tooLong

/-- A matcher tells whether a pattern matches a path, unless it refuses the pattern. The program asks
a library; `matchesPattern` reads the patterns that have no groups and no named sets of characters
as that library does. -/
abbrev Matcher := (path pattern : String) → Except Cause Bool

/-- Whether one of the patterns matches a path, looked at in order. -/
def matchesSome (matcher : Matcher) (path : String) : List String → Except Cause Bool
  | [] => .ok false
  | pattern :: rest =>
    match matcher path pattern with
    | .ok true => .ok true
    | .ok false => matchesSome matcher path rest
    | .error e => .error e

def withoutDot (path : String) : String :=
  match path.toList with
  | '.' :: '/' :: cs => String.ofList cs
  | _ => path

/-- Whether one of the patterns matches a path that may have a `./` in front. -/
def matchesAny (path : String) (patterns : List String) (matcher : Matcher := matchesPattern) :
    Except Cause Bool :=
  matchesSome matcher (withoutDot path) patterns

/-- The pattern for what is to be left out: a directory, written with a slash at its end, stands for
all that is in such a directory at any depth. -/
def exclusion (pattern : String) : String :=
  if Text.endsWith pattern "/" then
    (if Text.startsWith pattern "**/" then pattern else "**/" ++ pattern) ++ "**"
  else pattern

end ClassCohesion.Glob
