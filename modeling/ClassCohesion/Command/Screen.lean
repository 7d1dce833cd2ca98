import ClassCohesion.Fault
import ClassCohesion.Report.Basic
import ClassCohesion.Report.Table
import ClassCohesion.Settings.Resolve

/-!
# What the commands print

The lines of the commands: a header, the report with its table and summary, notes about files that
were skipped, and error messages. Every line is painted as a whole.
-/

namespace ClassCohesion.Command

open Report (Paint)

def headerLines (colors : Bool) (title : String) : List String :=
  ["", Paint.cyanBold.apply colors title,
   Paint.cyan.apply colors (String.ofList (List.replicate (Text.width title) '=')), ""]

def successLine (colors : Bool) (text : String) : String := Paint.green.apply colors ("  " ++ text)

def warningLine (colors : Bool) (text : String) : String :=
  Paint.yellow.apply colors ("  Warning: " ++ text)

def infoLine (colors : Bool) (label value : String) : String :=
  Paint.gray.apply colors ("  " ++ label ++ ": ") ++ Paint.white.apply colors value

def approximationNote : String :=
  "CBO and RFC are syntactic approximations: type references and call sites are " ++
    "counted by name without resolving them."

def heavyRule : String := String.ofList (List.replicate 58 '━')

/-- The classes that a report shows, and the number of those it leaves out. -/
def shownClasses (top : Nat) (r : Report) : List ClassMetrics × Nat :=
  (r.classes.take top, r.classes.length - top)

def classLines (host : Host) (colors : Bool) (project : String) (top : Nat) (r : Report) :
    List String :=
  if r.classes.isEmpty then [Paint.yellow.apply colors "  No classes found."]
  else
    let (shown, more) := shownClasses top r
    (Report.table host colors project shown).map ("  " ++ ·) ++
      if more = 0 then []
      else [Paint.gray.apply colors
        ("  ... " ++ toString more ++ " more (use --top to show more)")]

def skippedLines (host : Host) (colors : Bool) (project : String) (skipped : List SkippedFile) :
    List String :=
  if skipped.isEmpty then []
  else ["", warningLine colors (toString skipped.length ++ " files skipped")] ++
    skipped.map fun s => Paint.gray.apply colors
      ("    - " ++ Path.toRelative host s.path project ++ " (" ++ s.reason.word ++ "): " ++
        s.message)

def reportLines (host : Host) (colors : Bool) (project : String) (top : Nat) (r : Report) :
    List String :=
  [""] ++ classLines host colors project top r ++
    ["", Paint.white.apply colors heavyRule] ++
    (r.summary.lines.map fun (label, value) => infoLine colors label value) ++
    ["", Paint.gray.apply colors ("  " ++ approximationNote)] ++
    skippedLines host colors project r.skipped ++ [""]

/-- The line for a developer, where there is one. -/
def developerLines (host : Host) (colors : Bool) : Problem → List String
  | .fault f => [Paint.gray.apply colors ("  Developer: " ++ f.developerMessage host)]
  | .error name message => [Paint.gray.apply colors ("  Stack: " ++ name ++ ": " ++ message)]
  | .bare _ => []

/-- The lines about a problem that stopped a command. -/
def problemLines (host : Host) (colors debug : Bool) (p : Problem) : List String :=
  ["", Paint.red.apply colors ("  Error: " ++ p.userMessage)] ++
    (if debug then developerLines host colors p else []) ++
    ["", Paint.gray.apply colors "  For more details, run with DEBUG=1 environment variable", ""]

/-- The line about a problem in place of a JSON report. -/
def problemJson (p : Problem) : String :=
  (Json.obj [("success", .bool false), ("error", .str p.userMessage)]).compact

def usageLines : List String :=
  ["Usage: oo-cohesion [options] [command]",
   "",
   "CK class metrics (WMC, CBO, RFC, LCOM4, DIT, NOC) for object-oriented code",
   "",
   "Options:",
   "  -v, --version             Show version number",
   "  -h, --help                display help for command",
   "",
   "Commands:",
   "  analyze [options] [path]  Analyze classes under a directory (default: current",
   "                            directory)",
   "  init [options] [path]     Write a default cohesion.config.json",
   "  help [command]            display help for command"]

end ClassCohesion.Command
