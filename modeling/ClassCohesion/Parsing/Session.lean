import ClassCohesion.Fault
import ClassCohesion.Language.Profile
import ClassCohesion.Lock

/-!
# The life of the parser

One parser is shared by everything that reads source text. It works through an engine, which has to
be started first, and through one grammar per language, which is read from a file when it is first
needed. Starting the engine, reading a grammar and reading a source file take time, so that other
calls can come in between. A session is the state of all this as a step system: a step is a call
that is made, or an answer that arrives for one that is waiting.

* Starting is shared: whoever needs the engine while it is being started waits for that attempt. An
  attempt that fails in the engine is forgotten. One that fails because the engine's files cannot be
  located is kept, and all who need the engine meet the same fault until the session is cleared.
* Grammars are read one at a time, in the order in which they were asked for. Whoever needs a
  grammar that is being read waits for that load. A failed load is forgotten.
* Clearing deletes the engine and forgets grammars and attempts. Attempts and loads that are under
  way go on: an attempt that succeeds later brings an engine back.
* Setting the grammar and parsing happen in one step, on the engine of that moment. An engine parses
  with the grammar that was last set on it.

`journal` records what was done to engines.
-/

namespace ClassCohesion.Parsing

/-- What a failed read throws: an error or some other value, with a code if it has one. -/
structure Thrown where
  isError : Bool := true
  code : Option Json := none
deriving Repr

/-- The code of what was thrown: only an error has one, and only if it is text. -/
def Thrown.errno? (t : Thrown) : Option String :=
  match t.isError, t.code with
  | true, some (.str code) => some code
  | _, _ => none

structure ReadFailure where
  thrown : Thrown
  message : String
deriving Repr

def ReadFailure.fault (f : ReadFailure) (path : String) : Fault :=
  let cause : Cause := ⟨"Error", f.message⟩
  match f.thrown.errno? with
  | some "EACCES" => .permissionDenied path cause
  | some "EPERM" => .permissionDenied path cause
  | _ => .fileNotFound path cause

inductive Attempt where
  | pending
  | succeeded
  | failed (fault : Fault)
deriving Repr, DecidableEq

inductive LoadState where
  | queued
  | reading
  | ending
  | loaded
  | failed (reason : String)
deriving Repr, DecidableEq

structure Load where
  language : String
  state : LoadState
deriving Repr, DecidableEq

/-- A tree, known by what it was made from: a grammar, known by its language, and a text. -/
structure Tree where
  grammar : String
  source : String
deriving Repr, DecidableEq

structure Parsed where
  tree : Tree
  language : String
  source : String
deriving Repr, DecidableEq

/-- What a call answers. A file without a grammar for its language answers nothing. -/
inductive Answer where
  | nothing
  | parsed (file : Parsed)
  | failed (fault : Fault)
deriving Repr, DecidableEq

inductive Goal where
  | start
  | parse (path source : String)
deriving Repr, DecidableEq

inductive Stage where
  | reading (path : String)
  | starting (goal : Goal) (attempt : Nat)
  | loading (path source language : String) (load : Nat)
  | ended (answer : Answer)
deriving Repr, DecidableEq

structure Engine where
  number : Nat
  grammar : Option String := none
deriving Repr, DecidableEq

/-- What an engine makes of a text. Whether it gives a tree or throws is its own matter. -/
def Engine.parse (e : Engine) (source : String) (answer : Except String Bool) :
    Except String (Option Tree) :=
  answer.map fun gives => if gives then e.grammar.map fun grammar => ⟨grammar, source⟩ else none

inductive EngineEvent where
  | made (engine : Nat)
  | deleted (engine : Nat)
  | grammarSet (engine : Nat) (grammar : String)
  | parsed (engine : Nat) (source : String)
deriving Repr, DecidableEq

/-- The state of a session. Engines, attempts, loads and calls are known by their numbers. -/
structure Session where
  engine : Option Engine := none
  engines : Nat := 0
  ready : Bool := false
  starting : Option Nat := none
  attempts : List Attempt := []
  grammars : List (String × Nat) := []
  loads : List Load := []
  lock : Lock Nat := {}
  directoryKnown : Bool := false
  calls : List Stage := []
  journal : List EngineEvent := []
deriving Repr

inductive Request where
  | start
  | parse (path source : String)
  | parseFile (path : String)
deriving Repr, DecidableEq

namespace Session

def note (s : Session) (e : EngineEvent) : Session := { s with journal := s.journal ++ [e] }

/-! ## Parts of a call -/

def startFault (message : String) : Fault := .parserUnavailable ⟨"Error", message⟩

/-- The attempt that someone who needs the engine waits for: the one under way, or a new one. A new
one fails at once if the files of the engine cannot be located. -/
def joinAttempt (s : Session) (located : Bool) : Session × Nat :=
  match s.starting with
  | some k => (s, k)
  | none =>
    let k := s.attempts.length
    let attempt := if located then .pending
      else .failed (startFault "Could not find web-tree-sitter WASM file")
    ({ s with attempts := s.attempts ++ [attempt], starting := some k }, k)

/-- The load that someone who needs a grammar waits for: the current one, or a new one, which queues
up for its turn. -/
def joinLoad (s : Session) (language : String) : Session × Nat :=
  match s.grammars.lookup language with
  | some k => (s, k)
  | none =>
    -- the load is known before it has its turn, so that others join it
    let k := s.loads.length
    ({ s with
        loads := s.loads ++ [⟨language, .queued⟩]
        grammars := s.grammars ++ [(language, k)]
        lock := s.lock.acquire (.worker k) }, k)

/-- Goes on once the engine is there: with the grammar, unless the path belongs to no language. -/
def seekGrammar (s : Session) (path source : String) : Session × Stage :=
  match Language.ofPath? path with
  | none => (s, .ended .nothing)
  | some language =>
    let (s, k) := s.joinLoad language
    (s, .loading path source language k)

/-- Goes for a goal: with the engine if it is there, else with an attempt to start it. -/
def pursue (s : Session) (located : Bool) (goal : Goal) : Session × Stage :=
  if s.ready then
    match goal with
    | .start => (s, .ended .nothing)
    | .parse path source => s.seekGrammar path source
  else
    let (s, k) := s.joinAttempt located
    (s, .starting goal k)

def open? (s : Session) (located : Bool) : Request → Session × Stage
  | .start => s.pursue located .start
  | .parse path source => s.pursue located (.parse path source)
  | .parseFile path =>
    if Language.isSupported path then (s, .reading path) else (s, .ended .nothing)

/-- Sets a grammar on the engine of the moment and parses with it. Both are up to the engine: it may
refuse the grammar, give no tree or throw. -/
def useEngine (s : Session) (path source language grammar : String) (setting : Except String Unit)
    (answer : Except String Bool) : Session × Answer :=
  match s.engine with
  -- the session was cleared while the call waited
  | none => (s, .failed (.parseFailed path "parser was released during parsing" none))
  | some e =>
    let s := s.note (.grammarSet e.number grammar)
    match setting with
    | .error message => (s, .failed (.parseFailed path message (some ⟨"Error", message⟩)))
    | .ok () =>
      let e := { e with grammar := some grammar }
      let s := { s with engine := some e }.note (.parsed e.number source)
      match e.parse source answer with
      | .ok (some tree) => (s, .parsed ⟨tree, language, source⟩)
      | .ok none => (s, .failed (.parseFailed path "parser returned no tree" none))
      | .error message => (s, .failed (.parseFailed path message (some ⟨"Error", message⟩)))

/-! ## Steps -/

def setCall (s : Session) (i : Nat) (stage : Stage) : Session :=
  { s with calls := s.calls.set i stage }

def call (s : Session) (located : Bool) (r : Request) : Session :=
  let (s, stage) := s.open? located r
  { s with calls := s.calls ++ [stage] }

def clear (s : Session) : Session :=
  let s := match s.engine with
    | some e => s.note (.deleted e.number)
    | none => s
  -- loads and attempts under way go on, but nobody joins them any more
  { s with engine := none, grammars := [], ready := false, starting := none }

def startSettles (s : Session) (k : Nat) (outcome : Except String Unit) : Session :=
  match s.attempts[k]?, outcome with
  | some .pending, .ok () =>
    { s with
        attempts := s.attempts.set k .succeeded
        engine := some { number := s.engines }
        engines := s.engines + 1
        ready := true }.note (.made s.engines)
  | some .pending, .error message =>
    { s with attempts := s.attempts.set k (.failed (startFault message)), starting := none }
  | _, _ => s

def readSettles (s : Session) (i : Nat) (located : Bool) (outcome : Except ReadFailure String) :
    Session :=
  match s.calls[i]?, outcome with
  | some (.reading path), .ok source =>
    let (s, stage) := s.pursue located (.parse path source)
    s.setCall i stage
  | some (.reading path), .error failure => s.setCall i (.ended (.failed (failure.fault path)))
  | _, _ => s

def setLoad (s : Session) (k : Nat) (state : LoadState) : Session :=
  match s.loads[k]? with
  | some load => { s with loads := s.loads.set k { load with state } }
  | none => s

/-- A load gives the lock back. Its outcome is reported later. -/
def endLoad (s : Session) (k : Nat) (outcome : Lock.Outcome) : Session :=
  { s with lock := (s.lock.finish k outcome).1 }.setLoad k .ending

/-- A load gets its turn: it looks for the directory of the grammars, unless that is known, and
starts to read. -/
def beginLoad (s : Session) (k : Nat) (located : Bool) : Session :=
  if s.directoryKnown || located then { s with directoryKnown := true }.setLoad k .reading
  else s.endLoad k (.failure "Could not find the tree-sitter-wasms grammar directory")

/-- The outcome of a load is known to those who wait for it. A load that failed is forgotten. -/
def reportLoad (s : Session) (k : Nat) : Lock.Outcome → Session
  | .value _ => s.setLoad k .loaded
  | .failure reason =>
    let language := (s.loads[k]?).map Load.language
    let grammars := s.grammars.filter fun g => some g.1 != language
    { s with grammars }.setLoad k (.failed reason)

def lockProceeds (s : Session) (i : Nat) (located : Bool) : Session :=
  match s.lock.followUps[i]? with
  | none => s
  | some f =>
    let s := { s with lock := (s.lock.followAt i).1 }
    match f with
    | .proceed (.worker k) => s.beginLoad k located
    | .proceed (.holder _) => s
    | .report k outcome => s.reportLoad k outcome

def grammarSettles (s : Session) (k : Nat) (outcome : Except String Unit) : Session :=
  match s.loads[k]?, outcome with
  | some ⟨_, .reading⟩, .ok () => s.endLoad k (.value "")
  | some ⟨_, .reading⟩, .error reason => s.endLoad k (.failure reason)
  | _, _ => s

/-- A call whose attempt or load has come to its end goes on. -/
def resume (s : Session) (i : Nat) (setting : Except String Unit) (answer : Except String Bool) :
    Session :=
  match s.calls[i]? with
  | some (.starting goal k) =>
    match s.attempts[k]? with
    | some .succeeded =>
      match goal with
      | .start => s.setCall i (.ended .nothing)
      | .parse path source =>
        let (s, stage) := s.seekGrammar path source
        s.setCall i stage
    | some (.failed fault) => s.setCall i (.ended (.failed fault))
    | _ => s
  | some (.loading path source language k) =>
    match s.loads[k]? with
    | some ⟨grammar, .loaded⟩ =>
      let (s, answer) := s.useEngine path source language grammar setting answer
      s.setCall i (.ended answer)
    | some ⟨_, .failed reason⟩ =>
      s.setCall i (.ended (.failed (.parseFailed path
        ("grammar for " ++ language ++ " unavailable: " ++ reason) (some ⟨"Error", reason⟩))))
    | _ => s
  | _ => s

/-- What can happen to a session, with what the surroundings answer: whether files of packages can
be located, and how a start, a read, a grammar or the engine turns out. -/
inductive Step where
  | call (request : Request) (located : Bool)
  | clear
  | startSettles (attempt : Nat) (outcome : Except String Unit)
  | readSettles (call : Nat) (located : Bool) (outcome : Except ReadFailure String)
  | lockProceeds (followUp : Nat) (located : Bool)
  | grammarSettles (load : Nat) (outcome : Except String Unit)
  | resume (call : Nat) (setting : Except String Unit) (answer : Except String Bool)

/-- Takes a step. One for which nothing waits changes nothing. -/
def step (s : Session) : Step → Session
  | .call r located => s.call located r
  | .clear => s.clear
  | .startSettles k outcome => s.startSettles k outcome
  | .readSettles i located outcome => s.readSettles i located outcome
  | .lockProceeds i located => s.lockProceeds i located
  | .grammarSettles k outcome => s.grammarSettles k outcome
  | .resume i setting answer => s.resume i setting answer

def steps (s : Session) (ss : List Step) : Session := ss.foldl step s

end Session

end ClassCohesion.Parsing
