import ClassCohesion.Pool.Basic

/-!
# A pool on a clock

When every call takes a known time, the times decide which worker goes on next: the one whose call
ends first, and of those that end together the one that started first. Sizes are known at once, and
an answer is read and released as soon as it is there. The clock jumps from end to end, and the
events of the pool carry the time at which they happen.
-/

namespace ClassCohesion.Pool

/-- A pool on a clock, with the times at which its workers go on. -/
structure Timeline (σ β α : Type) where
  now : Nat
  world : σ
  pool : Pool β α
  due : List Nat
  events : List (Nat × Event)

namespace Timeline

variable {σ β α : Type}

def dueAt (duration : String → Nat) (now : Nat) (p : Pending β α) : Nat :=
  match p.stage with
  | .working => now + duration p.path
  | _ => now

/-- The timeline of a pool that has gone on to a new state. The questions before the given number
were asked earlier. -/
def advance (duration : String → Nat) (t : Timeline σ β α) (world : σ) (pool : Pool β α)
    (due : List Nat) : Timeline σ β α :=
  { now := t.now, world, pool
    due := due ++ (pool.pending.drop due.length).map (dueAt duration t.now)
    events := t.events ++ (pool.trace.drop t.pool.trace.length).map fun e => (t.now, e) }

def isTimed (p : Pending β α) : Bool :=
  match p.stage with
  | .working => true
  | _ => false

/-- The position of the worker that goes on next, with its time: one that does not wait for a call
first, then the first of the least times. -/
def next? (t : Timeline σ β α) : Option (Nat × Nat) :=
  let asked := (t.pool.pending.zip t.due).zipIdx
  match asked.find? fun q => !isTimed q.1.1 with
  | some q => some (q.2, q.1.2)
  | none => asked.foldl (fun best q =>
      match best with
      | some (i, time) => if q.1.2 < time then some (q.2, q.1.2) else some (i, time)
      | none => some (q.2, q.1.2)) none

/-- The times of the questions that were asked before the `i`-th worker went on. It may still be in
its place, with an answer to read or to release. -/
def dueAfter (pool : Pool β α) (due : List Nat) (i : Nat) : List Nat :=
  match (pool.pending[i]?).map Pending.stage with
  | some (.reading ..) => due
  | some (.releasing ..) => due
  | _ => due.eraseIdx i

def step (job : Job β α) (world : World σ β) (duration : String → Nat) (t : Timeline σ β α) :
    Timeline σ β α :=
  match t.next? with
  | none => t
  | some (i, time) =>
    let t := { t with now := max t.now time }
    let (s, pool) := settle job world (t.world, t.pool) i
    t.advance duration s pool (dueAfter pool t.due i)

def run (job : Job β α) (world : World σ β) (duration : String → Nat) (concurrency : Int)
    (files : List String) (s : σ) : Timeline σ β α :=
  let start : Timeline σ β α := ⟨0, s, fresh job files, [], []⟩
  let start := start.advance duration s (launch job concurrency files) []
  let t := (inOrder files).foldl (fun t _ => t.step job world duration) start
  t.advance duration t.world (t.pool.note (t.pool.finishEvents concurrency files)) t.due

end Timeline

end ClassCohesion.Pool
