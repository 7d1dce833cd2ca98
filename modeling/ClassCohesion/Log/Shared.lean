import ClassCohesion.Log.Logger

/-!
# The shared logger

A program has one logger that all of its parts share. It is made on first use with the level that
the environment asks for, it can be replaced by another one, and it can be dropped, so that the next
use makes a new one.

A run is set up by `configure`: with a file for the log there is a new logger that writes to it, and
the console is silent unless the run is verbose.
-/

namespace ClassCohesion.Log

inductive Request where
  | create (level : Option Level) (file : Option String)
  | configure (verbose : Bool) (file : Option String)
  | drop
  | call (call : Logger.Call)
deriving Repr

/-- The shared logger, made if there is none. -/
def shared (host : Host) (env : Environment) (current : Option Logger) : Logger :=
  current.getD (Logger.create host env none none)

def configured (host : Host) (env : Environment) (current : Option Logger) (verbose : Bool)
    (file : Option String) : Logger :=
  let logger := match file.filter (· ≠ "") with
    | some file => Logger.create host env none (some file)
    | none => shared host env current
  { logger with silent := !verbose }

/-- Does what is asked of the shared logger; the lines are what the console shows. -/
def Request.answer {σ : Type} (host : Host) (env : Environment) (store : Store σ) (now : Instant)
    (current : Option Logger) (disk : σ) : Request → Option Logger × σ × List String
  | .create level file => (some (Logger.create host env level file), disk, [])
  | .configure verbose file => (some (configured host env current verbose file), disk, [])
  | .drop => (none, disk, [])
  | .call c =>
    let (logger, disk, shown) := (shared host env current).call store now disk c
    (some logger, disk, shown)

end ClassCohesion.Log
