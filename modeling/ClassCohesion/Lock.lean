import ClassCohesion.Log.Entry

/-!
# A lock with a queue

A lock is held by at most one caller, known by an id of any type. A caller who asks for it while it
is held waits, and on release the lock goes to the one who has waited longest without being free in
between. Callers are of two kinds: a holder takes the lock and gives it back by hand, a worker runs
a section while it holds the lock and gives it back at the end of the section, whatever its outcome.

The lock goes to a caller in one step and the caller goes on in a later one; likewise a worker
reports in a later step than the one in which its section ended. These steps are `FollowUp`s. They
are taken in the order in which they arose by `settle`, and in any order by `follow`.
-/

namespace ClassCohesion

namespace Lock

inductive Caller (ι : Type) where
  | holder (id : ι)
  | worker (id : ι)
deriving DecidableEq, Repr

inductive Outcome where
  | value (value : String)
  | failure (message : String)
deriving DecidableEq, Repr

/-- What remains to be done after a step. -/
inductive FollowUp (ι : Type) where
  | proceed (caller : Caller ι)
  | report (id : ι) (outcome : Outcome)
deriving DecidableEq, Repr

/-- What can be seen of a lock from outside. -/
inductive Event (ι : Type) where
  | granted (id : ι)
  | entered (id : ι)
  | ended (id : ι) (outcome : Outcome)
  | strayRelease
deriving DecidableEq, Repr

end Lock

/-- The state of a lock: whether it is held, who waits for it, the longest wait first, whose
sections are running, and what remains to be done. -/
structure Lock (ι : Type) where
  locked : Bool := false
  waiters : List (Lock.Caller ι) := []
  running : List ι := []
  followUps : List (Lock.FollowUp ι) := []
deriving DecidableEq, Repr

namespace Lock

variable {ι : Type}

def acquire (l : Lock ι) (caller : Caller ι) : Lock ι :=
  if l.locked then { l with waiters := l.waiters ++ [caller] }
  else { l with locked := true, followUps := l.followUps ++ [.proceed caller] }

/-- The lock is given back: to the caller who has waited longest, if there is one. -/
def release (l : Lock ι) : Lock ι × List (Event ι) :=
  if l.locked then
    match l.waiters with
    -- the lock stays held and passes to the next caller, so that nobody gets in between
    | w :: ws => ({ l with waiters := ws, followUps := l.followUps ++ [.proceed w] }, [])
    | [] => ({ l with locked := false }, [])
  else (l, [.strayRelease])

/-- A running section ends and gives the lock back. One that does not run cannot end. -/
def finish [DecidableEq ι] (l : Lock ι) (id : ι) (outcome : Outcome) : Lock ι × List (Event ι) :=
  if id ∈ l.running then
    let (l, events) := release { l with running := l.running.erase id }
    ({ l with followUps := l.followUps ++ [.report id outcome] }, events)
  else (l, [])

def follow (l : Lock ι) : FollowUp ι → Lock ι × List (Event ι)
  | .proceed (.holder id) => (l, [.granted id])
  | .proceed (.worker id) => ({ l with running := l.running ++ [id] }, [.entered id])
  | .report id outcome => (l, [.ended id outcome])

def followAt (l : Lock ι) (i : Nat) : Lock ι × List (Event ι) :=
  match l.followUps[i]? with
  | some f => follow { l with followUps := l.followUps.eraseIdx i } f
  | none => (l, [])

def followAll (l : Lock ι) : List (FollowUp ι) → Lock ι × List (Event ι)
  | [] => (l, [])
  | f :: fs =>
    let (l, events) := follow l f
    let (l, rest) := followAll l fs
    (l, events ++ rest)

def settle (l : Lock ι) : Lock ι × List (Event ι) :=
  followAll { l with followUps := [] } l.followUps

inductive Call (ι : Type) where
  | acquire (caller : Caller ι)
  | release
  | finish (id : ι) (outcome : Outcome)
deriving DecidableEq, Repr

/-- Answers a call without what follows from it. -/
def step [DecidableEq ι] (l : Lock ι) : Call ι → Lock ι × List (Event ι)
  | .acquire caller => (l.acquire caller, [])
  | .release => l.release
  | .finish id outcome => l.finish id outcome

def call [DecidableEq ι] (l : Lock ι) (c : Call ι) : Lock ι × List (Event ι) :=
  let (l, events) := l.step c
  let (l, rest) := l.settle
  (l, events ++ rest)

/-- The log entry about a lock that was given back while nobody held it. -/
def strayEntry (name : String) : Log.Entry :=
  ⟨.warn, name, "release() called when mutex is not locked", []⟩

def defaultName : String := "AsyncMutex"

end Lock

end ClassCohesion
