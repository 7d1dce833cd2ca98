import ClassCohesion.Inheritance.Graph
import ClassCohesion.Language.Profile
import ClassCohesion.Path.Name
import ClassCohesion.Pool.Basic
import ClassCohesion.Report.Basic
import ClassCohesion.Text.Units

/-!
# Analysing a project

Of the files it is given, an analysis looks at those in a language with classes, and leaves out test
files if it is told to. What counts as a test file depends on the path from the root of the project;
where no root is given it is the deepest directory that holds all of the files.

An analysis goes over its files twice. In the first phase every file within the size limit is parsed
for the inheritance facts it declares, and the facts of all files together make the inheritance
graph. In the second phase the files that came through are parsed again, and their classes are
measured against that graph. Both phases are pools. A file that fails in either phase is skipped,
with the reason; it does not stop the analysis. What does is a parser that cannot be started, and a
phase that is rejected.

Whatever order the calls settle in, results are put back into the order of the files.
-/

namespace ClassCohesion.Analysis

/-! ## Candidates -/

/-- The options of an analysis. A size limit of zero is none. -/
structure Options where
  skipTestFiles : Bool := true
  projectRoot : Option String := none
  maxFileSize : Number := 0
  concurrency : Int := 1
deriving Repr

def isObjectOriented (file : String) : Bool := (Language.ofPath? file).any Language.hasClasses

/-- The root that test files are judged from. -/
def rootFor (host : Host) (options : Options) (files : List String) : Option String :=
  options.projectRoot.or (Path.commonDirectory host files)

/-- Whether a file is looked at if test files are judged from `root`. -/
def isCandidate (host : Host) (options : Options) (root : Option String) (file : String) : Bool :=
  isObjectOriented file && !(options.skipTestFiles && Path.isTestFile host file root)

def candidates (host : Host) (options : Options) (files : List String) : List String :=
  files.filter (isCandidate host options (rootFor host options files))

/-! ## Reading a file -/

/-- A parsed file. What reading its tree is stopped by, if anything, is its flaw. -/
structure Source where
  language : String
  root : Syntax.Node
  flaw : Option Problem := none

structure FileFacts where
  file : String
  facts : List Inheritance.Fact
deriving Repr, DecidableEq

structure FileClasses where
  file : String
  classes : List ClassMetrics
deriving Repr, DecidableEq

/-- The facts of a parsed file; one without a tree declares nothing. -/
def FileFacts.ofSource (file : String) : Option Source → FileFacts
  | some s => ⟨file, Inheritance.factsIn (Language.Profile.ofTag s.language) file s.root⟩
  | none => ⟨file, []⟩

def FileClasses.ofSource (graph : Inheritance.Graph) (file : String) : Option Source → FileClasses
  | some s => ⟨file, ClassMetrics.ofTree file s.language graph s.root⟩
  | none => ⟨file, []⟩

/-- What reading a parsed file comes to. A file without a tree has no flaw. -/
def read {α : Type} (make : Option Source → α) (source : Option Source) : Except Problem α :=
  match source.bind Source.flaw with
  | some p => .error p
  | none => .ok (make source)

/-- The job of the first phase, of which nobody hears before it is over. -/
def survey (host : Host) (options : Options) : Pool.Job (Option Source) FileFacts where
  host
  limit := options.maxFileSize
  holds := Option.isSome
  read file source := Thrown.lift (read (.ofSource file) source)
  reports := false

/-- The job of the second phase, with the numbers of trees and of reports before it. -/
def measure (host : Host) (graph : Inheritance.Graph) (trees processed : Nat := 0) :
    Pool.Job (Option Source) FileClasses where
  host
  holds := Option.isSome
  read file source := Thrown.lift (read (.ofSource graph file) source)
  trees
  processed

/-! ## Putting results together -/

/-- The last position of a file in a list. -/
def position (files : List String) (file : String) : Nat :=
  files.length - 1 - (files.reverse.idxOf file)

def inFileOrder {α : Type} (fileOf : α → String) (files : List String) (results : List α) :
    List α :=
  results.mergeSort fun a b => position files (fileOf a) ≤ position files (fileOf b)

def skipReason : Problem → SkipReason
  | .fault (.fileTooLarge ..) => .tooLarge
  | .fault (.parseFailed ..) => .parseError
  | _ => .readError

def skippedFile (host : Host) (error : String × Problem) : SkippedFile :=
  ⟨error.1, skipReason error.2, error.2.developerMessage host⟩

/-! ## Log entries -/

def countEntry (level : Log.Level) (message : String) (counts : List (String × Number)) :
    Log.Entry :=
  ⟨level, "CohesionAnalyzer", message, counts.map fun (name, n) => (name, .num n)⟩

def startEntry (files candidates : Nat) (limit : Number) : Log.Entry :=
  countEntry .info "Starting cohesion analysis"
    [("files", files), ("candidates", candidates), ("maxFileSize", limit)]

def graphEntry (classes skipped : Nat) : Log.Entry :=
  countEntry .debug "Inheritance graph built" [("classes", classes), ("skipped", skipped)]

def finishEntry (summary : Report.Summary) (skipped : Nat) : Log.Entry :=
  countEntry .info "Cohesion analysis complete"
    [("classes", summary.totalClasses), ("lowCohesion", summary.lowCohesionCount),
     ("skipped", skipped)]

/-! ## The two phases -/

def surveyed (files : List String) (first : Pool (Option Source) FileFacts) : List FileFacts :=
  inFileOrder FileFacts.file files first.results

def graphOf (facts : List FileFacts) : Inheritance.Graph :=
  .ofFacts (facts.flatMap FileFacts.facts)

/-- The report that the two phases give; `survivors` are the files of the second one. -/
def report (host : Host) (survivors : List String) (first : Pool (Option Source) FileFacts)
    (second : Pool (Option Source) FileClasses) : Report :=
  let classes := Report.sortClasses .lcom
    ((inFileOrder FileClasses.file survivors second.results).flatMap FileClasses.classes)
  { classes
    summary := Report.summarize classes
    skipped := ((first.errors ++ second.errors).map (skippedFile host)).mergeSort fun a b =>
      Text.collationLe a.path b.path }

/-- Reports progress for the files that the first phase skipped, one after the other, counting from
one. Also gives the number of reports. -/
def announce (skipped : List (String × Problem)) : List Pool.Event × Nat :=
  skipped.foldl (fun told error =>
    (told.1 ++ [.progress error.1 (told.2 + 1)], told.2 + 1)) ([], 0)

/-- What an analysis comes to: a report or what stopped it, the number of files it looks at, and the
trace. -/
structure Outcome where
  report : Except Thrown Report
  total : Nat
  trace : List Pool.Event

structure Progress where
  processed : Nat
  total : Nat
  path : String
deriving Repr, DecidableEq

structure Choices where
  first : List Nat
  second : List Nat

/-- What an analysis of the candidates comes to when both phases are over, of which the first was not
rejected. -/
def conclude (host : Host) (candidates : List String) (start : Pool.Event)
    (first : Pool (Option Source) FileFacts) (second : Pool (Option Source) FileClasses) : Outcome :=
  let facts := surveyed candidates first
  let trace := [start] ++ first.trace ++
    [.logged (graphEntry (graphOf facts).size first.errors.length)] ++
    (announce first.errors).1 ++ second.trace
  match second.rejected with
  | some why => ⟨.error why, candidates.length, trace⟩
  | none =>
    let report := report host (facts.map FileFacts.file) first second
    ⟨.ok report, candidates.length,
      trace ++ [.logged (finishEntry report.summary report.skipped.length)]⟩

/-- Analyses files. `ready` says whether the parser could be started. Without choices the workers go
on in the order in which they asked. -/
def run {σ : Type} (host : Host) (world : Pool.World σ (Option Source)) (options : Options)
    (files : List String) (ready : Except Thrown Unit) (choices : Option Choices) (s : σ) :
    σ × Outcome :=
  let options := { options with maxFileSize := Number.max 0 options.maxFileSize }
  let candidates := candidates host options files
  let start := Pool.Event.logged (startEntry files.length candidates.length options.maxFileSize)
  match ready with
  | .error t => (s, ⟨.error t, candidates.length, start :: (t.entries host).map .logged⟩)
  | .ok () =>
    let firstChoices := (choices.map (·.first)).getD (Pool.inOrder candidates)
    let (s, first) := Pool.run (survey host options) world options.concurrency candidates
      firstChoices s
    match first.rejected with
    | some why => (s, ⟨.error why, candidates.length, start :: first.trace⟩)
    | none =>
      -- the graph has all facts, in the order of the files
      let facts := surveyed candidates first
      let survivors := facts.map FileFacts.file
      let secondChoices := (choices.map (·.second)).getD (Pool.inOrder survivors)
      let (s, second) := Pool.run
        (measure host (graphOf facts) first.trees (announce first.errors).2) world
        options.concurrency survivors secondChoices s
      (s, conclude host candidates start first second)

namespace Outcome

def entries (o : Outcome) : List Log.Entry :=
  o.trace.filterMap fun
    | .logged e => some e
    | _ => none

/-- The progress that was reported: after each file, how many are done. -/
def progress (o : Outcome) : List Progress :=
  o.trace.filterMap fun
    | .progress path processed => some ⟨processed, o.total, path⟩
    | _ => none

def doneWith (o : Outcome) : List String := o.progress.map Progress.path

def released (o : Outcome) : Nat :=
  o.trace.countP fun
    | .released _ => true
    | _ => false

end Outcome

end ClassCohesion.Analysis
