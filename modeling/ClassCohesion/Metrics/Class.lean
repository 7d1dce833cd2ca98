import ClassCohesion.Inheritance.Graph
import ClassCohesion.Metrics.Extract
import ClassCohesion.Number.Basic

/-!
# The metrics of a class

One record per class: where it is, what it consists of, and the measures. `ClassMetrics.ofNode`
takes them from a class node and the inheritance graph of the project.

| field | measure |
|---|---|
| `wmc` | sum of the complexities of the methods |
| `cbo` | number of coupled classes |
| `rfc` | number of methods and of called names |
| `lcom` | lack of cohesion of the methods |
| `dit` | depth in the inheritance tree |
| `noc` | number of children |
| `nom`, `nof` | number of methods and of field declarations |
-/

namespace ClassCohesion

structure ClassMetrics where
  path : String
  className : String
  language : String
  startLine : Number
  endLine : Number
  loc : Number
  methods : List String
  fields : List String
  coupledClasses : List String
  wmc : Number
  cbo : Number
  rfc : Number
  lcom : Number
  dit : Number
  noc : Number
  nom : Number
  nof : Number
deriving Repr, DecidableEq

namespace ClassMetrics

/-- The metrics of the class at a node of a file. -/
def ofNode (path language : String) (graph : Inheritance.Graph) (node : Syntax.Node) :
    ClassMetrics :=
  let profile := Language.Profile.ofTag language
  let fields := Metrics.fieldsOf profile node
  let methods := Metrics.methodsOf profile fields node
  let called := Metrics.calledNames node
  let coupled := Metrics.coupledClasses node
  { path
    className := node.nameText
    language
    startLine := (node.startRow + 1 : Nat)
    endLine := (node.endRow + 1 : Nat)
    loc := .ofInt ((node.endRow : Int) - node.startRow + 1)
    methods := methods.map (·.name)
    fields
    coupledClasses := coupled
    wmc := (methods.foldl (fun total m => total + m.complexity) 0 : Nat)
    cbo := coupled.length
    rfc := (methods.length + called.length : Nat)
    lcom := Metrics.lackOfCohesion (methods.map (·.usedFields)) fields
    dit := graph.depth node.nameText
    noc := graph.childCount node.nameText
    nom := methods.length
    nof := fields.length }

def ofTree (path language : String) (graph : Inheritance.Graph) (root : Syntax.Node) :
    List ClassMetrics :=
  (Language.classesIn (Language.Profile.ofTag language) root).map fun c =>
    ofNode path language graph c.node

end ClassMetrics

end ClassCohesion
