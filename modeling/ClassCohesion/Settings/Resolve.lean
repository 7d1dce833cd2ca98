import ClassCohesion.Fault
import ClassCohesion.Settings.Config

/-!
# The settings of a run

The settings of a run are those of the project, overlaid by the options of the command line. An
option or setting without a sound value is a fault that names the first one in the order `--top`,
`--sort`, `--max-file-size`.
-/

namespace ClassCohesion

structure Options where
  top : Option String := none
  sort : Option String := none
  includeTests : Bool := false
  maxFileSize : Option String := none
  json : Bool := false
  verbose : Bool := false
  logFile : Option String := none
deriving Repr, DecidableEq

/-- The settings of one run. -/
structure Settings where
  top : Nat
  sort : SortKey
  skipTestFiles : Bool
  maxFileSize : Number
  included : List String
  excluded : List String
  concurrency : Option Nat
deriving Repr, DecidableEq

namespace Settings

/-- The positive whole number that an option gives. -/
def positiveOption (option value : String) : Except Fault Nat :=
  match (Number.ofText value).toNat? with
  | some (n + 1) => .ok (n + 1)
  | _ => .error (.invalidOption option ("expected a positive integer, got \"" ++ value ++ "\""))

def sortOption (value : String) : Except Fault SortKey :=
  match SortKey.ofWord? value with
  | some key => .ok key
  | none => .error (.invalidOption "--sort" ("expected one of " ++
      Text.join ", " (SortKey.all.map SortKey.word) ++ ", got \"" ++ value ++ "\""))

def sizeOption (value : String) : Except Fault Number :=
  match FileSize.parse? value with
  | some bytes => .ok bytes
  | none => .error (.invalidOption "--max-file-size" (FileSize.complaint value))

/-- The settings of a run with the given options. -/
def resolve (config : Config) (options : Options) : Except Fault Settings := do
  let top ← match options.top with
    | some value => positiveOption "--top" value
    | none => .ok config.top
  let sort ← sortOption (options.sort.getD config.sort)
  let maxFileSize ← sizeOption (options.maxFileSize.getD config.maxFileSize)
  return {
    top, sort, maxFileSize
    skipTestFiles := if options.includeTests then false else config.skipTestFiles
    included := config.included
    excluded := config.excluded
    concurrency := config.concurrency }

end Settings

end ClassCohesion
