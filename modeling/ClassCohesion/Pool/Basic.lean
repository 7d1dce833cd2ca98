import ClassCohesion.Fault

/-!
# Working on files at the same time

A pool works through a list of files with a bounded number of workers. A worker takes the next file,
starts its call and waits for it; when the call settles, the outcome is recorded, progress is
reported and the worker takes another file. Calls are started in the order of the list, but they may
settle in any order.

If the job has a size limit, the worker first asks for the size of the file, and a file that is too
large, or whose size is not known, fails without its call being started. A job may also refuse a
file as soon as its call is started.

The answer to a call may hold a tree. The worker reads the answer, releases the tree whether or not
it could be read, and only then the call settles. Trees are numbered in the order in which they are
opened.

Whatever stops a call is recorded as an error, for which its text may be needed. A value whose text
cannot be had is not recorded: it is the end of the worker, which takes no other file, and the pool
as a whole is rejected. The other workers go on.

The pool is a step system. `settle` lets one of the workers go on, and where it waits for an answer
the world says which; a run is given by the list of choices. Everything that can be observed goes to
a trace.
-/

namespace ClassCohesion

namespace Pool

/-- What a worker waits for: the size of its file, the answer to the call for it, or its turn to
read that answer and to release what it holds. -/
inductive Stage (β α : Type) where
  | sizing
  | working
  | reading (tree : Option Nat) (value : β)
  | releasing (tree : Option Nat) (outcome : Except Thrown α)

structure Pending (β α : Type) where
  path : String
  stage : Stage β α

inductive Event where
  | started (path : String)
  | settled (path : String)
  | logged (entry : Log.Entry)
  | opened (tree : Nat) (path : String)
  | read (tree : Nat)
  | released (tree : Nat)
  | recorded (path : String)
  | progress (path : String) (processed : Nat)
deriving Repr

/-- What is to be done with each file. The call for a file answers with a `β`, which may hold a tree,
and `read` makes the result of it. A limit of zero or less is none. Trees and reports of progress are
counted on from the numbers of the job. -/
structure Job (β α : Type) where
  host : Host
  limit : Number := 0
  refuse : String → Option Thrown := fun _ => none
  holds : β → Bool := fun _ => false
  read : String → β → Except Thrown α
  reports : Bool := true
  trees : Nat := 0
  processed : Nat := 0

/-- How the world, in a state of type `σ`, answers the calls of a job. -/
structure World (σ β : Type) where
  size : σ → String → Except Thrown Number × σ
  value : σ → String → Except Thrown β × σ

def workers (concurrency : Int) (files : Nat) : Nat := min files (max 1 concurrency).toNat

end Pool

/-- The state of a pool: the files nobody has taken, those that are worked on in the order in which
their questions were asked, the outcomes in the order in which they came, what the pool was first
rejected with, the numbers of trees and of reports so far, and the trace. -/
structure Pool (β α : Type) where
  waiting : List String
  pending : List (Pool.Pending β α) := []
  results : List α := []
  errors : List (String × Problem) := []
  rejected : Option Thrown := none
  trees : Nat := 0
  processed : Nat := 0
  trace : List Pool.Event := []

namespace Pool

variable {σ β α : Type}

def note (pool : Pool β α) (events : List Event) : Pool β α :=
  { pool with trace := pool.trace ++ events }

/-! ## Outcomes -/

def report (job : Job β α) (pool : Pool β α) (path : String) : Pool β α :=
  if job.reports then
    { pool with processed := pool.processed + 1 }.note [.progress path (pool.processed + 1)]
  else pool

def record (job : Job β α) (pool : Pool β α) (path : String) : Except Thrown α → Pool β α
  | .ok result =>
    ({ pool with results := pool.results ++ [result] }.note [.recorded path]).report job path
  | .error t =>
    let pool := pool.note ((t.entries job.host).map .logged)
    -- the text of what was thrown is asked for here
    match t.asError with
    | .ok p =>
      ({ pool with errors := pool.errors ++ [(path, p)] }.note [.recorded path]).report job path
    | .error why => { pool with rejected := pool.rejected.or (some why) }

/-- Whether an outcome can be recorded. If not, recording it is the end of the worker. -/
def isKept : Except Thrown α → Bool
  | .error (.textless _) => false
  | _ => true

/-! ## Workers -/

def ask (pool : Pool β α) (path : String) (stage : Stage β α) : Pool β α :=
  { pool with pending := pool.pending ++ [⟨path, stage⟩] }

def turn (pool : Pool β α) (i : Nat) (path : String) (stage : Stage β α) : Pool β α :=
  { pool with pending := pool.pending.set i ⟨path, stage⟩ }

def leave (pool : Pool β α) (i : Nat) : Pool β α :=
  { pool with pending := pool.pending.eraseIdx i }

/-- Starts the call for a file; says whether the worker is free for another one. -/
def start (job : Job β α) (pool : Pool β α) (path : String) : Pool β α × Bool :=
  match job.refuse path with
  | some t =>
    ((pool.note [.started path, .settled path]).record job path (.error t),
      isKept (.error t : Except Thrown α))
  | none => ((pool.note [.started path]).ask path .working, false)

def takeOn (job : Job β α) (pool : Pool β α) (path : String) : Pool β α × Bool :=
  if Number.le job.limit 0 then pool.start job path else (pool.ask path .sizing, false)

/-- A worker takes files until it is not free any more or none are left. -/
def take (job : Job β α) : List String → Pool β α → Pool β α
  | [], pool => { pool with waiting := [] }
  | path :: rest, pool =>
    let (pool, free) := takeOn job { pool with waiting := rest } path
    if free then take job rest pool else pool

def takeNext (job : Job β α) (pool : Pool β α) : Pool β α := take job pool.waiting pool

/-- The call for a file is over. Its worker takes the next file if it can. -/
def close (job : Job β α) (pool : Pool β α) (path : String) (outcome : Except Thrown α) :
    Pool β α :=
  let pool := pool.record job path outcome
  if isKept outcome then pool.takeNext job else pool

def sized (job : Job β α) (pool : Pool β α) (path : String) : Except Thrown Number → Pool β α
  | .error t => pool.close job path (.error t)
  | .ok size =>
    if Number.lt job.limit size then
      pool.close job path (.error (.problem (.fault (.fileTooLarge path size job.limit))))
    else
      let (pool, free) := pool.start job path
      if free then pool.takeNext job else pool

/-- The number of the tree that an answer holds, if it holds one. -/
def treeIn (job : Job β α) (pool : Pool β α) (value : β) : Option Nat :=
  if job.holds value then some pool.trees else none

/-- The answer to the `i`-th question, which is a call, has come. What it holds is open from now
on. -/
def answer (job : Job β α) (pool : Pool β α) (i : Nat) (path : String) :
    Except Thrown β → Pool β α
  | .error t => ((pool.leave i).note [.settled path]).close job path (.error t)
  | .ok value =>
    let tree := pool.treeIn job value
    ({ pool with trees := pool.trees + tree.toList.length }.note
      (tree.toList.map (Event.opened · path))).turn i path (.reading tree value)

/-- One of the workers goes on. -/
def settle (job : Job β α) (world : World σ β) (state : σ × Pool β α) (i : Nat) : σ × Pool β α :=
  let (s, pool) := state
  match pool.pending[i]? with
  | none => state
  | some ⟨path, .sizing⟩ =>
    let (answer, s) := world.size s path
    (s, (pool.leave i).sized job path answer)
  | some ⟨path, .working⟩ =>
    let (answer, s) := world.value s path
    (s, pool.answer job i path answer)
  -- whether or not the tree could be read, it is released before the outcome counts
  | some ⟨path, .reading tree value⟩ =>
    (s, (pool.note (tree.toList.map Event.read)).turn i path (.releasing tree (job.read path value)))
  | some ⟨path, .releasing tree outcome⟩ =>
    (s, ((pool.leave i).note (tree.toList.map Event.released ++ [.settled path])).close job path outcome)

/-! ## Runs -/

def fresh (job : Job β α) (files : List String) : Pool β α where
  waiting := files
  trees := job.trees
  processed := job.processed

def launch (job : Job β α) (concurrency : Int) (files : List String) : Pool β α :=
  (List.range (workers concurrency files.length)).foldl (fun pool _ => pool.takeNext job)
    (fresh job files)

/-- Whether all files have been worked on and every outcome is recorded. -/
def isDone (pool : Pool β α) : Bool :=
  pool.waiting.isEmpty && pool.pending.isEmpty && pool.rejected.isNone

/-- The log entry at the end, unless there were no files or the pool is rejected. -/
def finishEvents (concurrency : Int) (files : List String) (pool : Pool β α) : List Event :=
  if files.isEmpty || pool.rejected.isSome then []
  else [.logged ⟨.debug, "fileProcessing", "Processed files",
    [("total", .num files.length), ("failed", .num pool.errors.length),
     ("workers", .num (workers concurrency files.length))]⟩]

/-- A run in which the workers go on in the order of the choices. -/
def run (job : Job β α) (world : World σ β) (concurrency : Int) (files : List String)
    (choices : List Nat) (s : σ) : σ × Pool β α :=
  let (s, pool) := choices.foldl (settle job world) (s, launch job concurrency files)
  (s, pool.note (pool.finishEvents concurrency files))

/-- The choices that always let the worker with the oldest question go on. No file takes more than
four of them. -/
def inOrder (files : List String) : List Nat := List.replicate (4 * files.length) 0

end Pool

end ClassCohesion
