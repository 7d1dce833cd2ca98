import ClassCohesion.Text.Split

/-!
# Paths

A path is a text with slashes. What it denotes is the list of segments that lead to it from the
root: a relative path starts at the working directory, empty and single-dot segments stay where they
are, and a double dot goes up one, never above the root. `render` writes such a list in normal form,
so `normalize` is reading followed by writing; `relative` is the way from one place to another.
-/

namespace ClassCohesion

structure Host where
  cwd : String
  home : String
deriving Repr

namespace Path

/-- Follows one segment from the place that the segments `above` lead to. -/
def enter (above : List String) (segment : String) : List String :=
  if segment = "" ∨ segment = "." then above
  else if segment = ".." then above.dropLast
  else above ++ [segment]

def follow (start segments : List String) : List String := segments.foldl enter start

@[simp] theorem follow_nil (start : List String) : follow start [] = start := rfl

@[simp] theorem follow_cons (start : List String) (s : String) (ss : List String) :
    follow start (s :: ss) = follow (enter start s) ss := rfl

def isAbsolute (path : String) : Bool := Text.startsWith path "/"

/-- The place a path denotes, as the segments that lead to it from the root. -/
def segments (host : Host) (path : String) : List String :=
  let start := if isAbsolute path then [] else follow [] (Text.split '/' host.cwd)
  follow start (Text.split '/' path)

def render (segments : List String) : String := "/" ++ Text.join "/" segments

/-- The absolute path to where a path leads, without empty or dot segments or a slash at the end. -/
def normalize (host : Host) (path : String) : String := render (segments host path)

def parent (place : List String) : List String := place.dropLast

def stripShared : List String → List String → List String × List String
  | a :: as, b :: bs => if a = b then stripShared as bs else (a :: as, b :: bs)
  | as, bs => (as, bs)

def relative (base target : List String) : List String :=
  let (up, down) := stripShared base target
  up.map (fun _ => "..") ++ down

/-- The path from a base to a target, with slashes for backslashes. -/
def toRelative (host : Host) (target base : String) : String :=
  Text.exchange '\\' '/' (Text.join "/" (relative (segments host base) (segments host target)))

/-- The absolute path that a relative one denotes from a base. A slash at the end is kept. -/
def toAbsolute (host : Host) (path base : String) : String :=
  let place := follow (segments host base) (Text.split '/' path)
  if Text.endsWith path "/" ∧ place ≠ [] then render place ++ "/" else render place

/-- Whether a path is a directory or continues its text after a slash. -/
def isWithin (host : Host) (target directory : String) : Bool :=
  let target := normalize host target
  let directory := normalize host directory
  target == directory || Text.startsWith target (directory ++ "/")

/-- The directory of a path, read off its text: slashes at the end do not count, and a path without
a directory is in the root or, if it is relative, in the directory it starts from. -/
def dirName (path : String) : String :=
  match path.toList with
  | [] => "."
  | first :: rest =>
    match (rest.reverse.dropWhile (· == '/')).dropWhile (· != '/') with
    | [] => if first = '/' then "/" else "."
    | _ :: before =>
      -- two slashes at the start are a root of their own
      if first = '/' ∧ before = [] then "//" else String.ofList (first :: before.reverse)

/-- How far a list goes on like the first one, from a position up to a length. -/
def sharedFrom (first other : List String) (length position : Nat) : Nat :=
  if position < length ∧ other[position]? = first[position]? then
    sharedFrom first other length (position + 1)
  else position
termination_by length - position

def isDrive (s : String) : Bool :=
  match s.toList with
  | [c, ':'] => c.isAlpha
  | _ => false

/-- The deepest directory that holds all of the files. The pieces of the first file's directory are
kept as far as all the others have them. If nothing is left of them but what stands before the
first slash, that slash is put back. -/
def commonDirectory (host : Host) (files : List String) : Option String :=
  match files.map fun file => Text.split '/' (dirName (normalize host file)) with
  | [] => none
  | first :: rest =>
    let length := rest.foldl (fun length other => sharedFrom first other length 0) first.length
    let joined := Text.join "/" (first.take length)
    -- an empty text or a drive is no directory without its slash
    some (if joined = "" ∨ isDrive joined then joined ++ "/" else joined)

def settingsName : String := "cohesion.config.json"

def settingsPath (host : Host) (project : String) : String :=
  render (segments host project ++ [settingsName])

/-- A path as messages show it: from the project when it is inside, else from the home directory
when it is inside that, else in full. -/
def display (host : Host) (path : String) (project : Option String) : String :=
  if path = "" then "<unknown>"
  else
    let inProject := match project with
      | some project => if project ≠ "" ∧ isWithin host path project then some project else none
      | none => none
    match inProject with
    | some project => "./" ++ toRelative host path project
    | none =>
      if isWithin host path host.home then "~/" ++ toRelative host path host.home
      else Text.exchange '\\' '/' (normalize host path)

end Path

end ClassCohesion
