import ClassCohesion.Metrics.Class
import ClassCohesion.Number.Text
import ClassCohesion.Path.Basic
import ClassCohesion.Report.Paint
import ClassCohesion.Text.Units

/-!
# The table of classes

A header, a rule of dashes and one line per class, in columns that are two blanks apart. A column is
as wide as its widest cell; texts stand on the left, numbers on the right. Measures beyond a
threshold are painted, after they have been padded, so that colours do not shift the columns.
-/

namespace ClassCohesion.Report

inductive Severity where
  | ok
  | warn
  | bad
deriving DecidableEq, Repr

namespace Severity

def word : Severity → String
  | ok => "ok"
  | warn => "warn"
  | bad => "bad"

def paint : Severity → Paint
  | ok => .plain
  | warn => .yellow
  | bad => .redBold

/-- A value that is bad above one limit and a warning above another. -/
def above (warn bad : Nat) (v : Number) : Severity :=
  if Number.lt bad v then .bad else if Number.lt warn v then .warn else .ok

/-- A value that is bad from one limit on and a warning from another on. -/
def reaching (warn bad : Nat) (v : Number) : Severity :=
  if Number.le bad v then .bad else if Number.le warn v then .warn else .ok

/-- Lack of cohesion: more than one group is a warning. -/
def ofLcom : Number → Severity := above 1 3

def ofWmc : Number → Severity := above 15 30

def ofDit : Number → Severity := reaching 4 5

def ofNoc : Number → Severity := reaching 4 6

end Severity

structure Column where
  header : String
  rightAligned : Bool
  cell : Host → String → ClassMetrics → String
  severity : ClassMetrics → Severity := fun _ => .ok

def numberColumn (header : String) (value : ClassMetrics → Number)
    (severity : Number → Severity) : Column where
  header
  rightAligned := true
  cell _ _ c := (value c).text
  severity c := severity (value c)

def columns : List Column :=
  [{ header := "Class", rightAligned := false, cell := fun _ _ c => Text.truncate 40 c.className },
   { header := "Path", rightAligned := false
     cell := fun host project c =>
       Text.truncate 50 (Path.toRelative host c.path project ++ ":" ++ c.startLine.text) },
   numberColumn "WMC" ClassMetrics.wmc Severity.ofWmc,
   numberColumn "CBO" ClassMetrics.cbo fun _ => .ok,
   numberColumn "RFC" ClassMetrics.rfc fun _ => .ok,
   numberColumn "LCOM" ClassMetrics.lcom Severity.ofLcom,
   numberColumn "DIT" ClassMetrics.dit Severity.ofDit,
   numberColumn "NOC" ClassMetrics.noc Severity.ofNoc,
   numberColumn "Methods" ClassMetrics.nom fun _ => .ok]

def columnWidth (host : Host) (project : String) (classes : List ClassMetrics) (col : Column) :
    Nat :=
  classes.foldl (fun w c => max w (Text.width (col.cell host project c))) (Text.width col.header)

/-- A cell, padded to the width of its column. -/
def pad (col : Column) (width : Nat) (s : String) : String :=
  if col.rightAligned then Text.padLeft width s else Text.padRight width s

def table (host : Host) (colors : Bool) (project : String) (classes : List ClassMetrics) :
    List String :=
  let sized := columns.map fun col => (col, columnWidth host project classes col)
  let line (cells : List String) := Text.join "  " cells
  let header := line (sized.map fun (col, w) => pad col w col.header)
  let rule := line (sized.map fun (_, w) => String.ofList (List.replicate w '-'))
  let row (c : ClassMetrics) := line (sized.map fun (col, w) =>
    (col.severity c).paint.apply colors (pad col w (col.cell host project c)))
  Paint.bold.apply colors header :: Paint.gray.apply colors rule :: classes.map row

end ClassCohesion.Report
