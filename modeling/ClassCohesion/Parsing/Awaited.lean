import ClassCohesion.Parsing.Session

/-!
# A session used step by step

Here a session is asked for one thing at a time, and everything that follows from it is done before
the next one. The surroundings answer in the same way for the whole time: `Surroundings` says which
of their parts fail.
-/

namespace ClassCohesion.Parsing

structure Surroundings where
  located : Bool := true
  start : Except String Unit := .ok ()
  text : Except ReadFailure String := .ok ""
  grammar : Except String Unit := .ok ()
  setting : Except String Unit := .ok ()
  engine : Except String Bool := .ok true

inductive Ask where
  | start
  | startTwice
  | clear
  | parse (path source : String)
  | parseFile (path : String)
  | parseThenClear (path source : String)
deriving Repr

namespace Session

def canResume (s : Session) : Stage → Bool
  | .starting _ k => match s.attempts[k]? with
    | some .succeeded => true
    | some (.failed _) => true
    | _ => false
  | .loading _ _ _ k => match s.loads[k]? with
    | some ⟨_, .loaded⟩ => true
    | some ⟨_, .failed _⟩ => true
    | _ => false
  | _ => false

/-- The next step that is not a request, if anything waits for one. -/
def next? (s : Session) (w : Surroundings) : Option Step :=
  let start := (s.attempts.idxOf? .pending).map fun k => .startSettles k w.start
  let lock := if s.lock.followUps.isEmpty then none else some (.lockProceeds 0 w.located)
  let grammar := (s.loads.findIdx? fun l => l.state = .reading).map fun k =>
    .grammarSettles k w.grammar
  let resume := (s.calls.findIdx? s.canResume).map fun i =>
    .resume i w.setting w.engine
  let read := (s.calls.findIdx? fun | .reading _ => true | _ => false).map fun i =>
    .readSettles i w.located w.text
  start <|> lock <|> grammar <|> resume <|> read

/-- Takes the steps that follow until nothing waits, up to a number of steps. -/
def settle (w : Surroundings) : Nat → Session → Session
  | 0, s => s
  | n + 1, s =>
    match s.next? w with
    | some step => settle w n (s.step step)
    | none => s

/-- The greatest number of steps that can follow from one request: its text, a start, going on, the
turn of a load, its file, its report and going on again. -/
def stepsPerCall : Nat := 8

def settleAll (w : Surroundings) (s : Session) : Session :=
  settle w (stepsPerCall * s.calls.length + stepsPerCall) s

def answerOf (s : Session) (i : Nat) : Answer :=
  match s.calls[i]? with
  | some (.ended answer) => answer
  | _ => .nothing

/-- Makes the calls of a request, without waiting in between. -/
def issue (w : Surroundings) (s : Session) : Ask → Session
  | .start => s.call w.located .start
  | .startTwice => (s.call w.located .start).call w.located .start
  | .clear => s.clear
  | .parse path source => s.call w.located (.parse path source)
  | .parseFile path => s.call w.located (.parseFile path)
  | .parseThenClear path source => (s.call w.located (.parse path source)).clear

/-- Asks for something and waits for the answer: that of the first call, or nothing if there is
none. -/
def await (w : Surroundings) (s : Session) (a : Ask) : Session × Answer :=
  let s' := settleAll w (s.issue w a)
  (s', s'.answerOf s.calls.length)

end Session

end ClassCohesion.Parsing
