import ClassCohesion.Settings.Resolve

/-!
# Command line arguments

A command line is a command, its target, and options. An option is written long, as in `--top 3` or
`--top=3`, or short, as in `-n 3` or `-n3`; options without a value can be written in a row behind
one dash. The value of an option is the next argument, whatever it looks like. After `--` nothing is
an option. Of an option that is given twice the last value counts, and targets beyond the first are
ignored.

The arguments are read twice: first for the options of the program itself, where everything from the
first unknown option on is left over, and then what is left over for the options of the command.
-/

namespace ClassCohesion.Command

structure Flag where
  short : Option Char
  long : String
  takesValue : Bool
deriving Repr, DecidableEq

/-- What was read: the options with their values, the other arguments, and from the first unknown
option on what was not read. -/
structure Reading where
  values : List (String × String) := []
  operands : List String := []
  unknown : List String := []
deriving Repr, DecidableEq

inductive Refusal where
  | missingValue (long : String)
deriving Repr, DecidableEq

namespace Reading

def withValue (long value : String) (r : Reading) : Reading :=
  { r with values := (long, value) :: r.values }

def withOther (afterUnknown : Bool) (arg : String) (r : Reading) : Reading :=
  if afterUnknown then { r with unknown := arg :: r.unknown }
  else { r with operands := arg :: r.operands }

def value? (r : Reading) (long : String) : Option String := r.values.reverse.lookup long

def has (r : Reading) (long : String) : Bool := (r.value? long).isSome

end Reading

def looksLikeOption (arg : String) : Bool :=
  match arg.toList with
  | '-' :: _ :: _ => true
  | _ => false

/-- What an argument says to a command: an option with its value, one whose value comes next, one
that has none, or none of its options. -/
inductive Reply where
  | withValue (long value : String)
  | needsValue (long : String)
  | plain (long : String)
  | other
deriving Repr, DecidableEq

def exactFlag? (flags : List Flag) (arg : String) : Option Flag :=
  flags.find? fun f =>
    arg == "--" ++ f.long || f.short.any fun c => arg == "-" ++ String.singleton c

/-- The option with a value that a short form has its value behind. -/
def shortWithValue? (flags : List Flag) (arg : String) : Option (Flag × String) :=
  match arg.toList with
  | '-' :: c :: d :: rest =>
    (flags.find? fun f => f.short = some c ∧ f.takesValue).map fun f =>
      (f, String.ofList (d :: rest))
  | _ => none

/-- The option with a value that a long form has behind an equals sign. -/
def longWithValue? (flags : List Flag) (arg : String) : Option (Flag × String) :=
  match arg.toList with
  | '-' :: '-' :: rest =>
    let name := rest.takeWhile (· != '=')
    match rest.dropWhile (· != '=') with
    | '=' :: value =>
      (flags.find? fun f => f.long.toList = name ∧ f.takesValue).map fun f =>
        (f, String.ofList value)
    | _ => none
  | _ => none

def reply (flags : List Flag) (arg : String) : Reply :=
  match exactFlag? flags arg with
  | some f => if f.takesValue then .needsValue f.long else .plain f.long
  | none =>
    match shortWithValue? flags arg, longWithValue? flags arg with
    | some (f, value), _ => .withValue f.long value
    | none, some (f, value) => .withValue f.long value
    | none, none => .other

/-- The options without a value at the start of a row, and the argument that is left of it. -/
def unbundle (flags : List Flag) : List Char → List Flag × List Char
  | '-' :: c :: d :: rest =>
    match flags.find? fun f => f.short = some c ∧ !f.takesValue with
    | some f =>
      let (more, left) := unbundle flags ('-' :: d :: rest)
      (f :: more, left)
    | none => ([], '-' :: c :: d :: rest)
  | arg => ([], arg)
termination_by cs => cs.length

def read (flags : List Flag) (afterUnknown : Bool) : List String → Except Refusal Reading
  | [] => .ok {}
  | arg :: rest =>
    let (row, left) := unbundle flags arg.toList
    let arg := String.ofList left
    let withRow (r : Reading) : Reading := row.foldr (fun f r => r.withValue f.long "") r
    if arg = "--" then
      .ok (withRow (if afterUnknown then { unknown := arg :: rest } else { operands := rest }))
    else
      match reply flags arg with
      | .plain long => (read flags afterUnknown rest).map (withRow ∘ .withValue long "")
      | .withValue long value =>
        (read flags afterUnknown rest).map (withRow ∘ .withValue long value)
      | .needsValue long =>
        match rest with
        | [] => .error (.missingValue long)
        | value :: rest => (read flags afterUnknown rest).map (withRow ∘ .withValue long value)
      | .other =>
        let afterUnknown := afterUnknown || looksLikeOption arg
        (read flags afterUnknown rest).map (withRow ∘ .withOther afterUnknown arg)

/-! ## The commands -/

inductive Invocation where
  | analyze (target : Option String) (options : Options)
  | create (target : Option String) (force : Bool)
  | version
  | help
  | refused
deriving Repr, DecidableEq

def programFlags : List Flag := [⟨some 'v', "version", false⟩]

def analyzeFlags : List Flag :=
  [⟨some 'n', "top", true⟩, ⟨some 's', "sort", true⟩, ⟨none, "include-tests", false⟩,
   ⟨none, "max-file-size", true⟩, ⟨none, "json", false⟩, ⟨none, "verbose", false⟩,
   ⟨none, "log-file", true⟩]

def createFlags : List Flag := [⟨some 'f', "force", false⟩]

def optionsOf (r : Reading) : Options where
  top := r.value? "top"
  sort := r.value? "sort"
  includeTests := r.has "include-tests"
  maxFileSize := r.value? "max-file-size"
  json := r.has "json"
  verbose := r.has "verbose"
  logFile := r.value? "log-file"

def asksHelp (args : List String) : Bool := args.contains "-h" || args.contains "--help"

/-- Reads what is left for a command, and makes the invocation of it. -/
def command (flags : List Flag) (program : Reading)
    (invocation : Option String → Reading → Invocation) : Invocation :=
  match read flags false program.unknown with
  | .error _ => .refused
  | .ok r =>
    if asksHelp r.unknown then .help
    else if r.unknown.isEmpty then invocation (program.operands.drop 1 ++ r.operands).head? r
    else .refused

def Invocation.ofArguments (args : List String) : Invocation :=
  match read programFlags false args with
  | .error _ => .refused
  | .ok r =>
    if r.has "version" then .version
    else match r.operands.head? with
      | some "analyze" => command analyzeFlags r fun target r => .analyze target (optionsOf r)
      | some "init" => command createFlags r fun target r => .create target (r.has "force")
      | some "help" => .help
      | _ => if asksHelp r.unknown then .help else .refused

end ClassCohesion.Command
