import ClassCohesion.Instant
import ClassCohesion.Json.Writer
import ClassCohesion.Text.Case

/-!
# Log entries

An entry has a level, the component it comes from, a message and optional details. Its line holds
the time, the level and the component in square brackets, then the message, then the details as JSON
if there are any.
-/

namespace ClassCohesion.Log

inductive Level where
  | error
  | warn
  | info
  | debug
deriving DecidableEq, Repr, Inhabited

namespace Level

/-- The position of a level; a logger admits the levels up to its own. -/
def rank : Level → Nat
  | error => 0
  | warn => 1
  | info => 2
  | debug => 3

def ofRank? : Nat → Option Level
  | 0 => some error
  | 1 => some warn
  | 2 => some info
  | 3 => some debug
  | _ => none

def name : Level → String
  | error => "ERROR"
  | warn => "WARN"
  | info => "INFO"
  | debug => "DEBUG"

/-- The level a word asks for, in letters of either case; any other word asks for `info`. -/
def ofWord (word : String) : Level :=
  match Text.capital word with
  | "ERROR" => error
  | "WARN" => warn
  | "WARNING" => warn
  | "DEBUG" => debug
  | _ => info

end Level

structure Entry where
  level : Level
  component : String
  message : String
  details : Json.Fields := []
deriving Repr

def Entry.line (now : Instant) (e : Entry) : String :=
  let head := "[" ++ now.text ++ "] [" ++ e.level.name ++ "] [" ++ e.component ++ "] " ++ e.message
  if e.details.isEmpty then head else head ++ " " ++ (Json.obj e.details).compact

/-! ## Settings from the environment -/

/-- The variables of the environment that the program looks at. -/
structure Environment where
  debug : Option String := none
  toolDebug : Option String := none
  level : Option String := none
  toolLevel : Option String := none
deriving Repr, Inhabited

namespace Environment

/-- The first variable that is set to something. -/
def firstSet (a b : Option String) : Option String :=
  match a with
  | some v => if v = "" then b.filter (· ≠ "") else some v
  | none => b.filter (· ≠ "")

/-- The debug switch, if it is set at all. -/
def debugSwitch (env : Environment) : Option String := firstSet env.debug env.toolDebug

def logLevel (env : Environment) : Level :=
  let switched := match env.debugSwitch with
    | some v => v == "1" || v == "true" || Text.lower v == "debug"
    | none => false
  if switched then .debug
  else match firstSet env.level env.toolLevel with
    | some word => Level.ofWord word
    | none => .info

end Environment

end ClassCohesion.Log
