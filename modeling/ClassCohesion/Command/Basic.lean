import ClassCohesion.Analysis.Basic
import ClassCohesion.Command.Arguments
import ClassCohesion.Command.Screen
import ClassCohesion.Log.Shared
import ClassCohesion.Scan

/-!
# The commands

`Command.run` carries out a command line on a disk. What a command leaves behind is an exit code,
the lines it printed, the lines on the console, and the disk.

To analyse a project is to load its settings file, overlay the options, list the source files,
analyse them and order the report. The first problem stops it. Every fault is logged when it is
made.
-/

namespace ClassCohesion.Command

structure Machine where
  host : Host
  env : Log.Environment := {}
  colors : Bool := false
  processors : Nat := 1
  now : Instant := .epoch
  library : Scan.Library := {}

/-- A parser with states of type `σ`: whether it can be started, and what it makes of a file. -/
structure Parser (σ : Type) where
  ready : Except Problem Unit
  source : σ → String → Except Problem (Option Analysis.Source) × σ

/-- What a running command has left behind so far. -/
structure Desk where
  disk : Disk
  logger : Option Log.Logger := none
  output : List String := []
  console : List String := []

/-- A part of a command, which a problem may stop. -/
abbrev Run := ExceptT Problem (StateM Desk)

def request (m : Machine) (r : Log.Request) : StateM Desk Unit := modify fun d =>
  let (logger, disk, shown) := r.answer m.host m.env (Disk.logStore m.host) m.now d.logger d.disk
  { d with logger, disk, console := d.console ++ shown }

def log (m : Machine) (e : Log.Entry) : StateM Desk Unit := request m (.call (.log e))

def logAll (m : Machine) : List Log.Entry → StateM Desk Unit
  | [] => pure ()
  | e :: es => do
    log m e
    logAll m es

def print (lines : List String) : StateM Desk Unit :=
  modify fun d => { d with output := d.output ++ lines }

/-- Stops with a problem that has just been made. -/
def stop {α : Type} (m : Machine) (p : Problem) : Run α := do
  logAll m (p.entries m.host)
  throw p

def orStop {α : Type} (m : Machine) : Except Fault α → Run α
  | .ok a => pure a
  | .error f => stop m (.fault f)

/-! ## Settings files -/

def configSource (host : Host) (disk : Disk) (path : String) : Config.Source :=
  if disk.has (Path.segments host path) then
    match disk.read host path with
    | .ok text => .text text
    | .error f => .unreadable f.message
  else .missing

def loadConfig (m : Machine) (project : String) : Run Config := do
  let path := Path.settingsPath m.host project
  let (config, entry) := Config.load path (configSource m.host (← get).disk path)
  log m entry
  return config

/-! ## Analysing -/

def scan (m : Machine) (project : String) (settings : Settings) : Run (List String) := do
  orStop m (Scan.check m.host (← get).disk project)
  log m (Scan.startEntry project)
  let query : Scan.Query := ⟨project, settings.included, settings.excluded⟩
  let (entries, found) := Scan.run m.host (← get).disk query m.library
  logAll m entries
  match found with
  | .ok files => return files
  | .error p => stop m p

/-- How the world of a command answers an analysis: sizes come from the disk. -/
def world {σ : Type} (m : Machine) (parser : Parser σ) (disk : Disk) :
    Pool.World σ (Option Analysis.Source) where
  size s path :=
    let size := (disk.stat m.host path).map fun n => (n : Number)
    (Thrown.lift (size.mapError fun f => .error "Error" f.message), s)
  value s path :=
    let (answer, s) := parser.source s path
    (Thrown.lift answer, s)

def defaultConcurrency (m : Machine) : Int := max 1 (2 * m.processors)

def analysisOptions (m : Machine) (project : String) (settings : Settings) : Analysis.Options where
  skipTestFiles := settings.skipTestFiles
  projectRoot := some project
  maxFileSize := settings.maxFileSize
  concurrency := (settings.concurrency.map fun n => (n : Int)).getD (defaultConcurrency m)

def analyzeFiles {σ : Type} (m : Machine) (parser : Parser σ) (s : σ) (project : String)
    (settings : Settings) (files : List String) : Run Report := do
  let options := analysisOptions m project settings
  let world := world m parser (← get).disk
  let ready := Thrown.lift parser.ready
  let outcome := (Analysis.run m.host world options files ready none s).2
  logAll m outcome.entries
  match outcome.report with
  | .ok report => return report.orderBy settings.sort
  -- the analysis has left the entries of what stopped it
  | .error t => throw t.root

def analyzeProject {σ : Type} (m : Machine) (parser : Parser σ) (s : σ) (project : String)
    (options : Options) : Run (Settings × Report) := do
  let config ← loadConfig m project
  let settings ← orStop m (Settings.resolve config options)
  let files ← scan m project settings
  let report ← analyzeFiles m parser s project settings files
  return (settings, report)

def isDebug (m : Machine) : Bool := m.env.debugSwitch.isSome

/-- The project that a target names: by default the working directory. -/
def projectOf (m : Machine) (target : Option String) : String :=
  Path.normalize m.host (target.getD m.host.cwd)

/-- The command that analyses a project; gives the exit code. -/
def analyze {σ : Type} (m : Machine) (parser : Parser σ) (s : σ) (target : Option String)
    (options : Options) : StateM Desk Nat := do
  request m (.configure options.verbose options.logFile)
  let project := projectOf m target
  if options.json then
    match ← (analyzeProject m parser s project options).run with
    | .ok (_, report) =>
      print [(report.toJson m.host m.now project).pretty]
      return 0
    | .error p =>
      print [problemJson p]
      return 1
  else
    print (headerLines m.colors "OO Cohesion - Class Metrics")
    match ← (analyzeProject m parser s project options).run with
    | .ok (settings, report) =>
      print (reportLines m.host m.colors project settings.top report)
      return 0
    | .error p =>
      print (problemLines m.host m.colors (isDebug m) p)
      return 1

/-! ## Writing a settings file -/

/-- The command that writes a settings file, unless there is one; gives the exit code. -/
def create (m : Machine) (target : Option String) (force : Bool) : StateM Desk Nat := do
  let path := Path.settingsPath m.host (projectOf m target)
  print (headerLines m.colors "OO Cohesion - Init")
  let disk := (← get).disk
  if disk.has (Path.segments m.host path) ∧ !force then
    print [warningLine m.colors
      (Path.settingsName ++ " already exists. Use --force to overwrite it."), ""]
    return 0
  else
    match disk.write m.host path Config.template with
    | .ok disk =>
      modify fun d => { d with disk }
      log m (Config.templateEntry path)
      print [successLine m.colors ("Wrote " ++ path), ""]
      return 0
    | .error f =>
      print (problemLines m.host m.colors (isDebug m) (.error "Error" f.message))
      return 1

/-! ## Command lines -/

def version : String := "0.1.0"

/-- Carries out an invocation; gives the exit code. -/
def invoke {σ : Type} (m : Machine) (parser : Parser σ) (s : σ) : Invocation → StateM Desk Nat
  | .analyze target options => analyze m parser s target options
  | .create target force => create m target force
  | .version => do
    print [version]
    return 0
  | .help => do
    print usageLines
    return 0
  | .refused => return 1

structure Result where
  exit : Nat
  output : List String
  console : List String
  disk : Disk

def run {σ : Type} (m : Machine) (parser : Parser σ) (s : σ) (disk : Disk) (args : List String) :
    Result :=
  let (exit, desk) := (invoke m parser s (.ofArguments args)).run { disk }
  ⟨exit, desk.output, desk.console, desk.disk⟩

end ClassCohesion.Command
