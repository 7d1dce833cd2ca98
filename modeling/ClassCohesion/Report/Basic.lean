import ClassCohesion.Instant
import ClassCohesion.Path.Basic
import ClassCohesion.Report.Order
import ClassCohesion.Report.Summary

/-!
# Reports

The outcome of an analysis: the metrics of the classes, their summary, and the files that
contributed nothing, with the reason. `Report.toJson` is its form for other programs, with paths
that start at the project.
-/

namespace ClassCohesion

inductive SkipReason where
  | parseError
  | readError
  | tooLarge
deriving DecidableEq, Repr

def SkipReason.word : SkipReason → String
  | parseError => "parse_error"
  | readError => "read_error"
  | tooLarge => "too_large"

structure SkippedFile where
  path : String
  reason : SkipReason
  message : String
deriving DecidableEq, Repr

def SkippedFile.toJson (s : SkippedFile) : Json :=
  .obj [("path", .str s.path), ("reason", .str s.reason.word), ("message", .str s.message)]

def ClassMetrics.toJson (c : ClassMetrics) : Json :=
  .obj
    [("path", .str c.path), ("className", .str c.className), ("language", .str c.language),
     ("startLine", .num c.startLine), ("endLine", .num c.endLine), ("loc", .num c.loc),
     ("methods", .ofStrings c.methods), ("fields", .ofStrings c.fields),
     ("coupledClasses", .ofStrings c.coupledClasses),
     ("wmc", .num c.wmc), ("cbo", .num c.cbo), ("rfc", .num c.rfc), ("lcom", .num c.lcom),
     ("dit", .num c.dit), ("noc", .num c.noc), ("nom", .num c.nom), ("nof", .num c.nof)]

structure Report where
  classes : List ClassMetrics
  summary : Report.Summary
  skipped : List SkippedFile
deriving Repr

namespace Report

def orderBy (r : Report) (key : SortKey) : Report :=
  { r with classes := sortClasses key r.classes }

/-- A report as JSON, with paths relative to the project. -/
def toJson (host : Host) (generatedAt : Instant) (project : String) (r : Report) : Json :=
  .obj
    [("success", .bool true),
     ("projectPath", .str project),
     ("generatedAt", .str generatedAt.text),
     ("summary", r.summary.toJson),
     ("classes", .arr (r.classes.map fun c =>
       ClassMetrics.toJson { c with path := Path.toRelative host c.path project })),
     ("skippedFiles", .arr (r.skipped.map fun s =>
       SkippedFile.toJson { s with path := Path.toRelative host s.path project }))]

end Report

end ClassCohesion
