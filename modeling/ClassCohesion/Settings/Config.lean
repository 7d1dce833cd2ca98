import ClassCohesion.Json.Reader
import ClassCohesion.Log.Entry
import ClassCohesion.Number.Reader
import ClassCohesion.Path.Basic
import ClassCohesion.Report.Order

/-!
# The settings file

A project may hold a settings file: a JSON object with up to seven known fields. Fields whose name
starts with an underscore are remarks and do not count. Either every other field is known and has an
admissible value, and then absent ones have their defaults, or the file as a whole is set aside and
all settings have their defaults; a log entry says which.

A file size is written as digits followed by `KB` or `MB` in letters of either case. A kilobyte is
1024 bytes and a megabyte 1024 kilobytes.
-/

namespace ClassCohesion

namespace FileSize

def unit? (cs : List Char) : Option Nat :=
  match cs.map Char.toUpper with
  | ['K', 'B'] => some 1024
  | ['M', 'B'] => some (1024 * 1024)
  | _ => none

def parts? (s : String) : Option (List Char × Nat) :=
  let (ds, rest) := Number.spanDigits s.toList
  if ds.isEmpty then none else (unit? rest).map fun unit => (ds, unit)

def isValid (s : String) : Bool := (parts? s).isSome

def parse? (s : String) : Option Number :=
  (parts? s).map fun (ds, unit) => (Number.ofDecimal (Number.natOfDigits ds) 0).scale unit

def complaint (s : String) : String :=
  "Invalid file size format: \"" ++ s ++ "\". Expected format like \"1MB\" or \"500KB\"."

end FileSize

/-- The settings of a project. Sizes and orders are kept as written. -/
structure Config where
  included : List String
  excluded : List String
  skipTestFiles : Bool
  maxFileSize : String
  concurrency : Option Nat
  top : Nat
  sort : String
deriving Repr, DecidableEq

namespace Config

def default : Config where
  included := ["**/*"]
  excluded := []
  skipTestFiles := true
  maxFileSize := "1MB"
  concurrency := none
  top := 20
  sort := "lcom"

/-! ## Validation -/

inductive Issue where
  | wrongKind (field expected received : String)
  | notWhole (field : String)
  | notPositive (field : String)
  | badSize (field : String)
  | badChoice (field value : String)
  | unknownFields (names : List String)
deriving Repr, DecidableEq

def sortChoices : String :=
  Text.join " | " (SortKey.all.map fun k => "'" ++ k.word ++ "'")

/-- The text of an issue: the field, then what is wrong with it. -/
def Issue.text : Issue → String
  | wrongKind field expected received =>
    field ++ ": Expected " ++ expected ++ ", received " ++ received
  | notWhole field => field ++ ": Expected integer, received float"
  | notPositive field => field ++ ": Number must be greater than 0"
  | badSize field => field ++ ": Must be a valid file size like \"1MB\" or \"500KB\""
  | badChoice field value =>
    field ++ ": Invalid enum value. Expected " ++ sortChoices ++ ", received '" ++ value ++ "'"
  | unknownFields names =>
    ": Unrecognized key(s) in object: " ++ Text.join ", " (names.map fun n => "'" ++ n ++ "'")

/-- The outcome of checking a field: a value, which counts only if there are no issues. -/
structure Checked (α : Type) where
  value : α
  issues : List Issue := []

/-- Checks a field that may be absent. -/
def check {α : Type} (fields : Json.Fields) (name : String) (absent : α)
    (accept : String → Json → Checked α) : Checked α :=
  match fields.lookup name with
  | some j => accept name j
  | none => ⟨absent, []⟩

def strings (field : String) : Json → Checked (List String)
  | .arr items =>
    let issues := items.zipIdx.filterMap fun
      | (.str _, _) => none
      | (j, i) => some (.wrongKind (field ++ "." ++ toString i) "string" j.kind)
    ⟨items.filterMap fun | .str s => some s | _ => none, issues⟩
  | j => ⟨[], [.wrongKind field "array" j.kind]⟩

def boolean (field : String) : Json → Checked Bool
  | .bool b => ⟨b, []⟩
  | j => ⟨false, [.wrongKind field "boolean" j.kind]⟩

def size (field : String) : Json → Checked String
  | .str s => ⟨s, if FileSize.isValid s then [] else [.badSize field]⟩
  | j => ⟨"", [.wrongKind field "string" j.kind]⟩

def positive (field : String) : Json → Checked Nat
  | .num n =>
    ⟨n.toNat?.getD 0,
      (if n.isWhole then [] else [.notWhole field]) ++
        if Number.lt 0 n then [] else [.notPositive field]⟩
  | j => ⟨0, [.wrongKind field "number" j.kind]⟩

def choice (field : String) : Json → Checked String
  | .str s => ⟨s, if (SortKey.ofWord? s).isSome then [] else [.badChoice field s]⟩
  | j => ⟨"", [.wrongKind field sortChoices j.kind]⟩

def knownFields : List String :=
  ["include", "exclude", "skipTestFiles", "maxFileSize", "concurrency", "top", "sort"]

def withoutRemarks (fields : Json.Fields) : Json.Fields :=
  fields.filter fun f => !Text.startsWith f.1 "_"

/-- The settings that the fields of an object give, or all that is wrong with them. -/
def ofFields (fields : Json.Fields) : Except (List Issue) Config :=
  let included := check fields "include" default.included strings
  let excluded := check fields "exclude" default.excluded strings
  let skipTestFiles := check fields "skipTestFiles" default.skipTestFiles boolean
  let maxFileSize := check fields "maxFileSize" default.maxFileSize size
  let concurrency := check fields "concurrency" none fun field j =>
    let c := positive field j
    ⟨some c.value, c.issues⟩
  let top := check fields "top" default.top positive
  let sort := check fields "sort" default.sort choice
  let unknown := (fields.map (·.1)).filter fun name => !knownFields.contains name
  let issues := included.issues ++ excluded.issues ++ skipTestFiles.issues ++ maxFileSize.issues ++
    concurrency.issues ++ top.issues ++ sort.issues ++
    if unknown.isEmpty then [] else [.unknownFields unknown]
  if issues.isEmpty then
    .ok
      { included := included.value, excluded := excluded.value
        skipTestFiles := skipTestFiles.value, maxFileSize := maxFileSize.value
        concurrency := concurrency.value, top := top.value, sort := sort.value }
  else .error issues

/-! ## Loading -/

inductive Source where
  | missing
  | text (content : String)
  | unreadable (reason : String)
deriving Repr

def loadEntry (level : Log.Level) (message path : String) (more : Json.Fields) : Log.Entry :=
  ⟨level, "ConfigManager", message, ("configPath", .str path) :: more⟩

/-- The settings of the project whose settings file has the given path, with the log entry that
loading them leaves. -/
def load (path : String) : Source → Config × Log.Entry
  | .missing => (default, loadEntry .debug "No config file found, using defaults" path [])
  | .unreadable reason =>
    (default, loadEntry .warn "Failed to load config, using defaults" path [("error", .str reason)])
  | .text content =>
    match Json.parse? content with
    | none =>
      (default, loadEntry .warn "Failed to load config, using defaults" path
        [("error", .str "The text is not valid JSON")])
    | some (.obj fields) =>
      match ofFields (withoutRemarks fields) with
      | .ok config => (config, loadEntry .debug "Config loaded successfully" path [])
      | .error issues =>
        (default, loadEntry .warn "Config validation failed, using defaults" path
          [("errors", .str (Text.join "; " (issues.map Issue.text)))])
    | some _ => (default, loadEntry .warn "Config is not a JSON object, using defaults" path [])

/-! ## Writing -/

def standardExcludes : List String :=
  ["node_modules/", ".git/", "dist/", "build/", "vendor/", "coverage/"]

def toFields (c : Config) : Json.Fields :=
  [("include", .ofStrings c.included), ("exclude", .ofStrings c.excluded),
   ("skipTestFiles", .bool c.skipTestFiles), ("maxFileSize", .str c.maxFileSize)] ++
  (c.concurrency.toList.map fun n => ("concurrency", .num n)) ++
  [("top", .num c.top), ("sort", .str c.sort)]

def remarks : Json.Fields :=
  [("_comment", .str
      "oo-cohesion configuration file. Modify these settings to customize the analysis."),
   ("_hardcodedExcludes", .ofStrings standardExcludes),
   ("_availableOptions", .obj
     [("include", .str
        "Array of glob patterns for files to include (default: [\"**/*\"])"),
      ("exclude", .str
        "Array of glob patterns for additional files to exclude (merged with hardcoded excludes)"),
      ("skipTestFiles", .str "Leave test files out of the analysis (default: true)"),
      ("maxFileSize", .str
        "Skip files larger than this, e.g., \"1MB\" or \"500KB\" (default: \"1MB\")"),
      ("concurrency", .str "Files processed concurrently (default: 2 x CPU count)"),
      ("top", .str "Rows shown in the report table (default: 20)"),
      ("sort", .str ("Report order, one of " ++
        Text.join ", " (SortKey.all.map SortKey.word) ++ " (default: \"lcom\")"))])]

/-- The content of a new settings file: the defaults with remarks. -/
def template : String := (Json.obj (remarks ++ default.toFields)).pretty ++ "\n"

def templateEntry (path : String) : Log.Entry :=
  loadEntry .info "Generated default config file" path []

end Config

end ClassCohesion
