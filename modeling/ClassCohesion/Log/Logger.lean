import ClassCohesion.Log.Entry
import ClassCohesion.Path.Basic

/-!
# The logger

A logger admits the entries up to its level. An admitted entry is appended to the log file, if there
is one, and shown on the console unless that is silenced. The directory of the file is made before
the first entry. When the directory cannot be made or an entry cannot be appended, the console shows
one notice and the file is given up for good; the entry itself still goes to the console.

What the file system does is a parameter: `Store` says how to make a directory and how to append to
a file, and either may fail with a reason.
-/

namespace ClassCohesion.Log

/-- The two things a logger asks of a file system with states of type `σ`. -/
structure Store (σ : Type) where
  makeDirectory : σ → String → Except String σ
  append : σ → String → String → Except String σ

structure Logger where
  level : Level
  silent : Bool := false
  file : Option String := none
  directoryReady : Bool := false
deriving Repr, DecidableEq

namespace Logger

/-- A new logger, with an absolute path for its file. An empty file name is none. -/
def create (host : Host) (env : Environment) (level : Option Level) (file : Option String) :
    Logger :=
  { level := level.getD env.logLevel
    file := (file.filter (· ≠ "")).map (Path.normalize host) }

def admits (l : Logger) (e : Entry) : Bool := e.level.rank ≤ l.level.rank

def directoryOf (file : String) : String :=
  Path.render (Path.parent (Path.follow [] (Text.split '/' file)))

def notice (file reason : String) : String :=
  "[Logger] Cannot write log file " ++ file ++ ": " ++ reason

/-- Appends a line to the log file, making its directory first if that has not been done. -/
def appendLine {σ : Type} (store : Store σ) (l : Logger) (disk : σ) (file line : String) :
    Logger × σ × List String :=
  let ready : Except String σ := if l.directoryReady then .ok disk
    else store.makeDirectory disk (directoryOf file)
  match ready with
  | .error reason => ({ l with file := none }, disk, [notice file reason])
  | .ok disk =>
    let l := { l with directoryReady := true }
    match store.append disk file (line ++ "\n") with
    | .error reason => ({ l with file := none }, disk, [notice file reason])
    | .ok disk => (l, disk, [])

/-- Writes an entry; the lines are what the console shows. -/
def write {σ : Type} (store : Store σ) (now : Instant) (l : Logger) (disk : σ) (e : Entry) :
    Logger × σ × List String :=
  if l.admits e then
    let line := e.line now
    let (l', disk', notices) := match l.file with
      | some file => appendLine store l disk file line
      | none => (l, disk, [])
    (l', disk', notices ++ if l.silent then [] else [line])
  else (l, disk, [])

def writeAll {σ : Type} (store : Store σ) (now : Instant) (l : Logger) (disk : σ) :
    List Entry → Logger × σ × List String
  | [] => (l, disk, [])
  | e :: es =>
    let (l, disk, shown) := write store now l disk e
    let (l, disk, rest) := writeAll store now l disk es
    (l, disk, shown ++ rest)

inductive Call where
  | log (entry : Entry)
  | setLevel (level : Level)
  | setSilent (silent : Bool)
deriving Repr

def call {σ : Type} (store : Store σ) (now : Instant) (l : Logger) (disk : σ) :
    Call → Logger × σ × List String
  | .log e => write store now l disk e
  | .setLevel level => ({ l with level }, disk, [])
  | .setSilent silent => ({ l with silent }, disk, [])

end Logger

/-- The lines that a logger of the given level shows for a list of entries. -/
def lines (now : Instant) (level : Level) (entries : List Entry) : List String :=
  (entries.filter fun e => e.level.rank ≤ level.rank).map (Entry.line now)

end ClassCohesion.Log
