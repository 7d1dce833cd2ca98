import ClassCohesion.Metrics.Class

/-!
# The order of a report

Classes are listed by one measure, the largest value first; classes with one value keep the order
they came in. A report can be ordered by four of the measures.
-/

namespace ClassCohesion

inductive SortKey where
  | lcom
  | wmc
  | cbo
  | dit
deriving DecidableEq, Repr, Inhabited

namespace SortKey

def word : SortKey → String
  | lcom => "lcom"
  | wmc => "wmc"
  | cbo => "cbo"
  | dit => "dit"

def all : List SortKey := [lcom, wmc, cbo, dit]

def ofWord? (word : String) : Option SortKey := all.find? (·.word == word)

def value : SortKey → ClassMetrics → Number
  | lcom => ClassMetrics.lcom
  | wmc => ClassMetrics.wmc
  | cbo => ClassMetrics.cbo
  | dit => ClassMetrics.dit

end SortKey

namespace Report

/-- Classes by falling value; those with one value keep their order. -/
def sortBy (value : ClassMetrics → Number) (classes : List ClassMetrics) : List ClassMetrics :=
  classes.mergeSort fun a b => !Number.lt (value a) (value b)

def sortClasses (key : SortKey) (classes : List ClassMetrics) : List ClassMetrics :=
  sortBy key.value classes

def numericColumns : List (String × (ClassMetrics → Number)) :=
  [("startLine", ClassMetrics.startLine), ("endLine", ClassMetrics.endLine),
   ("loc", ClassMetrics.loc), ("wmc", ClassMetrics.wmc), ("cbo", ClassMetrics.cbo),
   ("rfc", ClassMetrics.rfc), ("lcom", ClassMetrics.lcom), ("dit", ClassMetrics.dit),
   ("noc", ClassMetrics.noc), ("nom", ClassMetrics.nom), ("nof", ClassMetrics.nof)]

/-- Classes in the order of any numeric column; another name leaves them as they are. -/
def sortByColumn (name : String) (classes : List ClassMetrics) : List ClassMetrics :=
  match numericColumns.lookup name with
  | some value => sortBy value classes
  | none => classes

end Report

end ClassCohesion
