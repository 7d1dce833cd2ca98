import ClassCohesion.Command.Basic
import ClassCohesion.Json.Reader
import ClassCohesion.Syntax.Dump
import Std.Time

/-!
# The command line program

The program takes a picture of the disk below the working directory and the project, lets
`Command.run` do the work on it, prints what that printed, and writes the files that it changed.

The tree of a source file is read from a dump beside it, which has the same name with `.tree.json`
behind it: an object with the tree, and the source text that it refers to. A source file without a
dump has no tree.
-/

namespace ClassCohesion.Program

def dumpEnding : String := ".tree.json"

def logFileOf (host : Host) (args : List String) : Option String :=
  match Command.Invocation.ofArguments args with
  | .analyze _ options => options.logFile.map (Path.normalize host)
  | _ => none

/-- Whether the text of a file matters, and not only its size. -/
def needsText (logFile : Option String) (path : String) : Bool :=
  Text.endsWith path ".json" || logFile == some path

partial def filesBelow (directory : String) : IO (List String) := do
  let here ← IO.currentDir
  let mut found := []
  for entry in ← (here / directory).readDir do
    let path := entry.path
    if ← path.isDir then found := found ++ (← filesBelow path.toString)
    else found := found ++ [path.toString]
  return found

def loadFile (host : Host) (logFile : Option String) (path : String) :
    IO (List String × Disk.File) := do
  let here ← IO.currentDir
  let size := (← (here / path).metadata).byteSize.toNat
  let text ← if needsText logFile path then IO.FS.readFile path else pure ""
  return (Path.segments host path, ⟨text, size⟩)

/-- The files below some directories, each once. -/
def loadDisk (host : Host) (logFile : Option String) (directories : List String) : IO Disk := do
  let here ← IO.currentDir
  let mut disk : Disk := { directories := [Path.segments host host.cwd] }
  for directory in directories do
    if ← (here / directory).isDir then
      disk := { disk with directories := disk.directories ++ [Path.segments host directory] }
      for path in ← filesBelow directory do
        let file ← loadFile host logFile path
        if (disk.file? file.1).isNone then
          disk := { disk with files := disk.files ++ [file] }
  return disk

/-- Writes the files that differ from what they were. -/
def saveDisk (before after : Disk) : IO Unit := do
  let here ← IO.currentDir
  for (place, file) in after.files do
    if before.file? place ≠ some file then
      IO.FS.createDirAll (here / Path.render (Path.parent place))
      IO.FS.writeFile (here / Path.render place) file.content

/-- The parsed file that a dump describes. -/
def sourceOf (path text : String) : Option Analysis.Source := do
  let dump ← Json.parse? text
  let source := match dump.get? "source" with
    | some (.str s) => s
    | _ => ""
  let root ← Syntax.Node.ofDump source (← dump.get? "tree")
  return { language := (Language.ofPath? path).getD "", root }

/-- The parser that reads dumps. -/
def dumpParser (host : Host) (disk : Disk) : Command.Parser Unit where
  ready := .ok ()
  source _ path :=
    let dump := disk.file? (Path.segments host (path ++ dumpEnding))
    (.ok (dump.bind fun file => sourceOf path file.text), ())

def environment : IO Log.Environment := do
  return {
    debug := ← IO.getEnv "DEBUG"
    toolDebug := ← IO.getEnv "COHESION_DEBUG"
    level := ← IO.getEnv "LOG_LEVEL"
    toolLevel := ← IO.getEnv "COHESION_LOG_LEVEL" }

def presentInstant : IO Instant := do
  let now ← Std.Time.Timestamp.now
  return (Instant.ofMs? now.toMillisecondsSinceUnixEpoch.val).getD .epoch

def directoriesOf (host : Host) (args : List String) : List String :=
  match Command.Invocation.ofArguments args with
  | .analyze target options =>
    let logs := options.logFile.toList.map fun file => Path.parent (Path.segments host file)
    Path.normalize host (target.getD host.cwd) :: logs.map Path.render
  | .create target _ => [Path.normalize host (target.getD host.cwd)]
  | _ => []

def run (args : List String) : IO UInt32 := do
  let here ← IO.currentDir
  let host : Host := ⟨here.toString, (← IO.getEnv "HOME").getD "/"⟩
  let machine : Command.Machine :=
    { host, env := ← environment, colors := ← (← IO.getStdout).isTty, now := ← presentInstant }
  let disk ← loadDisk host (logFileOf host args) (directoriesOf host args)
  let result := Command.run machine (dumpParser host disk) () disk args
  for line in result.console do IO.eprintln line
  for line in result.output do IO.println line
  saveDisk disk result.disk
  return UInt32.ofNat result.exit

end ClassCohesion.Program

def main (args : List String) : IO UInt32 := ClassCohesion.Program.run args
