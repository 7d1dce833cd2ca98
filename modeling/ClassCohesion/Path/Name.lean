import ClassCohesion.Path.Basic
import ClassCohesion.Text.Case

/-!
# File names

The last segment of a path and its extension. An extension starts at the last dot of the name,
unless the name begins with that dot or is the double dot.

Which files of a project hold tests is told by their name or by a directory they are in. Only what
lies below the project root counts, so that the place of the project itself has no say.
-/

namespace ClassCohesion.Path

def dropSlashes (path : String) : String :=
  String.ofList (path.toList.reverse.dropWhile (· == '/')).reverse

/-- The last segment of a path, slashes at its end apart. -/
def baseName (path : String) : String := ((Text.split '/' (dropSlashes path)).getLast?).getD ""

/-- The part of a row of characters from its last dot on, with what stands before it. -/
def cutAtLastDot (cs : List Char) : Option (List Char × List Char) :=
  let tail := cs.reverse.takeWhile (· != '.')
  let rest := cs.reverse.dropWhile (· != '.')
  match rest with
  | [] => none
  | dot :: before => some (before.reverse, dot :: tail.reverse)

def rawExtension (path : String) : String :=
  let name := baseName path
  match cutAtLastDot name.toList with
  | some (before, ext) => if before = [] ∨ name = ".." then "" else String.ofList ext
  | none => ""

def fileExtension (path : String) : String := Text.lower (rawExtension path)

/-! ## Test files -/

def testEndings : List String :=
  ["_test.go", "_test.py",
   ".test.ts", ".test.js", ".test.tsx", ".test.jsx",
   ".spec.ts", ".spec.js", ".spec.tsx", ".spec.jsx",
   "_test.rb", "_spec.rb", "Test.java", "Tests.cs", "Test.cs"]

def testDirectories : List String := ["tests", "test", "__tests__", "spec"]

/-- Whether a path, taken as it stands, is that of a test file. -/
def looksLikeTest (path : String) : Bool :=
  let name := baseName path
  testEndings.any (Text.endsWith path ·) ||
    Text.startsWith name "test_" ||
    (Text.startsWith name "Test" && Text.endsWith name ".java") ||
    (Text.split '/' path).dropLast.any testDirectories.contains

/-- Whether a file is a test file of the project at `root`. -/
def isTestFile (host : Host) (file : String) (root : Option String) : Bool :=
  let shown := match root with
    | some root => if root = "" then file else toRelative host file root
    | none => file
  looksLikeTest (Text.exchange '\\' '/' shown)

end ClassCohesion.Path
