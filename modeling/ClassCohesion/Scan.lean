import ClassCohesion.Disk
import ClassCohesion.Glob.Pattern
import ClassCohesion.Language.Profile
import ClassCohesion.Settings.Config

/-!
# Scanning a project

A scan lists the source files below a root: those that a pattern includes, that no pattern excludes,
and whose extension belongs to a language. Paths are matched from the root; in the patterns that
exclude and in the answer a backslash in a name counts as a slash.

Two libraries do the matching, a finder that walks the project and a matcher for single paths. They
are parameters of the scan. Those that the program runs by default, `find` and `matchesPattern`,
know the patterns without groups and without named sets of characters; a pattern that is absolute
or names the way down again after double dots finds nothing there.
-/

namespace ClassCohesion.Scan

structure Query where
  root : String
  included : List String
  excluded : List String
deriving Repr

def standardExclusions : List String := Config.standardExcludes.map Glob.exclusion

/-- An alternative that includes files. Its dot segments stand for where they lead from, and double
dots at its start lead above the root. -/
structure Inclusion where
  up : Nat
  segments : List Glob.Segment
deriving Repr

namespace Inclusion

def isText (text : String) (s : Glob.Segment) : Bool := s == .exact (Glob.Segment.unitsOf text)

def ofAlternative (segments : List Glob.Segment) : Inclusion :=
  let segments := segments.filter (!isText "." ·)
  ⟨(segments.takeWhile (isText "..")).length, segments.dropWhile (isText "..")⟩

def literalStem? : List Glob.Segment → Option (List (List Nat))
  | [.anyDepth] => some []
  | .exact us :: rest => (literalStem? rest).map (us :: ·)
  | _ => none

/-- Whether an inclusion takes the file with the given way from the root. A `**` after literal
segments only also takes the file that these name. -/
def takes (i : Inclusion) (way : List String) : Bool :=
  let up := (way.takeWhile (· == "..")).length
  let path := (way.drop i.up).map Glob.Segment.unitsOf
  up == i.up && (Glob.matchSegments i.segments path || literalStem? i.segments == some path)

end Inclusion

/-- The inclusions that patterns write, unless one of them is too wide. Exclamation marks and hashes
have no special meaning here. -/
def inclusions (patterns : List String) : Option (List Inclusion) :=
  if patterns.any fun p => Glob.Pattern.maxWidth < Text.width p then none
  else some (patterns.flatMap fun p =>
    (Glob.Pattern.alternativesOf p.toList).map Inclusion.ofAlternative)

/-- Whether one of the patterns matches a path, as it is or with a slash at its end. -/
def isIgnored (ignored : List String) (path : String) : Bool :=
  [path, path ++ "/"].any fun p =>
    (Glob.matchesSome Glob.matchesPattern p ignored).toOption != some false

/-- A finder gives the paths, from a root on a disk, of the files that one of its first patterns
includes and none of the others ignores. -/
abbrev Finder :=
  Disk → (root : List String) → (patterns ignored : List String) → Except Cause (List String)

def find : Finder := fun disk root patterns ignored =>
  match inclusions patterns with
  | none => .error Glob.tooLong
  | some is =>
    let ways := disk.files.map fun f => Path.relative root f.1
    let ways := ways.filter fun way =>
      is.any (·.takes way) && !isIgnored ignored (Text.join "/" way)
    .ok (ways.map (Text.join "/"))

structure Library where
  finder : Finder := find
  matcher : Glob.Matcher := Glob.matchesPattern

/-- The paths that pass a test which may be refused. -/
def keepUnless (test : String → Except Cause Bool) : List String → Except Cause (List String)
  | [] => .ok []
  | p :: ps => do
    let out ← test p
    let rest ← keepUnless test ps
    return if out then rest else p :: rest

/-- The paths of the source files that are not excluded, in order, from the paths of the included
files. -/
def sources (host : Host) (q : Query) (matcher : Glob.Matcher) (found : List String) :
    Except Cause (List String) := do
  -- patterns are for paths with slashes
  let paths := found.map (Text.exchange '\\' '/')
  let paths ← keepUnless (Glob.matchesAny · standardExclusions matcher) paths
  let paths ← keepUnless (Glob.matchesAny · (q.excluded.map Glob.exclusion) matcher) paths
  return ((paths.filter Language.isSupported).mergeSort Text.unitsLe).map fun p =>
    Path.normalize host (Path.toAbsolute host p q.root)

/-! ## Log entries -/

def startEntry (root : String) : Log.Entry :=
  ⟨.info, "FileScanner", "Starting file scan", [("projectPath", .str root)]⟩

def matchedEntry (matched : Nat) : Log.Entry :=
  ⟨.debug, "FileScanner", "Found " ++ toString matched ++ " total files before filtering", []⟩

def finishEntry (matched supported : Nat) : Log.Entry :=
  ⟨.info, "FileScanner", "File scan complete",
    [("matched", .num matched), ("supported", .num supported)]⟩

/-! ## The scan -/

/-- The root of a scan has to be a directory. -/
def check (host : Host) (disk : Disk) (root : String) : Except Fault Unit :=
  if disk.isDirectory (Path.segments host root) then .ok () else .error (.pathNotFound root)

/-- Scans below a root that is a directory: the log entries it leaves and the files it lists. -/
def run (host : Host) (disk : Disk) (q : Query) (library : Library := {}) :
    List Log.Entry × Except Problem (List String) :=
  let patterns := if q.included.isEmpty then ["**/*"] else q.included
  match library.finder disk (Path.segments host q.root) patterns standardExclusions with
  | .error cause => ([], .error (.fault (.scanFailed q.root cause)))
  | .ok found =>
    match sources host q library.matcher found with
    | .error cause => ([matchedEntry found.length], .error (.error cause.name cause.message))
    | .ok files => ([matchedEntry found.length, finishEntry found.length files.length], .ok files)

end ClassCohesion.Scan
