import ClassCohesion.Json.Basic
import ClassCohesion.Metrics.Class
import ClassCohesion.Number.Text

/-!
# The summary of a report

Averages and maxima over all classes. Everything is zero when there are no classes; no maximum is
below zero.
-/

namespace ClassCohesion.Report

structure Summary where
  totalClasses : Nat
  totalFiles : Nat
  avgWMC : Number
  avgCBO : Number
  avgRFC : Number
  avgLCOM : Number
  maxWMC : Number
  maxCBO : Number
  maxRFC : Number
  maxLCOM : Number
  maxDIT : Number
  lowCohesionCount : Nat
deriving Repr, DecidableEq

/-- The sum of a measure, added up in order. -/
def total (value : ClassMetrics → Number) (classes : List ClassMetrics) : Number :=
  classes.foldl (fun sum c => sum + value c) 0

/-- The average of a measure, zero when there are no classes. -/
def average (value : ClassMetrics → Number) (classes : List ClassMetrics) : Number :=
  if classes.isEmpty then 0 else (total value classes).share classes.length

/-- The maximum of a measure and zero. -/
def maximum (value : ClassMetrics → Number) (classes : List ClassMetrics) : Number :=
  classes.foldl (fun most c => most.max (value c)) 0

/-- Whether a class falls into more than one group. -/
def isLowCohesion (c : ClassMetrics) : Bool := Number.lt 1 c.lcom

def summarize (classes : List ClassMetrics) : Summary where
  totalClasses := classes.length
  totalFiles := (Syntax.firstSeen (classes.map (·.path))).length
  avgWMC := average ClassMetrics.wmc classes
  avgCBO := average ClassMetrics.cbo classes
  avgRFC := average ClassMetrics.rfc classes
  avgLCOM := average ClassMetrics.lcom classes
  maxWMC := maximum ClassMetrics.wmc classes
  maxCBO := maximum ClassMetrics.cbo classes
  maxRFC := maximum ClassMetrics.rfc classes
  maxLCOM := maximum ClassMetrics.lcom classes
  maxDIT := maximum ClassMetrics.dit classes
  lowCohesionCount := classes.countP isLowCohesion

namespace Summary

def lines (s : Summary) : List (String × String) :=
  [("Classes", toString s.totalClasses ++ " in " ++ toString s.totalFiles ++ " files"),
   ("Low cohesion (LCOM > 1)", toString s.lowCohesionCount),
   ("WMC", "avg " ++ s.avgWMC.fixedText ++ ", max " ++ s.maxWMC.text),
   ("Max DIT", s.maxDIT.text)]

def toJson (s : Summary) : Json :=
  .obj
    [("totalClasses", .num s.totalClasses), ("totalFiles", .num s.totalFiles),
     ("avgWMC", .num s.avgWMC), ("avgCBO", .num s.avgCBO), ("avgRFC", .num s.avgRFC),
     ("avgLCOM", .num s.avgLCOM), ("maxWMC", .num s.maxWMC), ("maxCBO", .num s.maxCBO),
     ("maxRFC", .num s.maxRFC), ("maxLCOM", .num s.maxLCOM), ("maxDIT", .num s.maxDIT),
     ("lowCohesionCount", .num s.lowCohesionCount)]

end Summary

end ClassCohesion.Report
