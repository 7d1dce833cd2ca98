import ClassCohesion.Language.Profile

/-!
# Class declarations

`classesIn` finds the classes of a file for which metrics are taken: the named class nodes that are
not inside another class node, in document order. `parentNames` reads the inheritance clauses of a
class node: of each clause, the nodes that name a parent, looking neither into type arguments nor
into a name that has already been found.
-/

namespace ClassCohesion.Language

open Syntax (Node)

structure ClassDeclaration where
  name : String
  node : Node

def ClassDeclaration.startLine (c : ClassDeclaration) : Nat := c.node.startRow + 1

def ClassDeclaration.endLine (c : ClassDeclaration) : Nat := c.node.endRow + 1

/-- The classes of a tree, without those inside other classes. -/
def classesIn (profile : Profile) (root : Node) : List ClassDeclaration :=
  Syntax.collect (fun n =>
    if profile.classKinds.contains n.kind then
      (if n.nameText = "" then [] else [⟨n.nameText, n⟩], false)
    else ([], true)) root

/-- Kinds of nodes in an inheritance clause below which no parent is named. -/
def argumentKinds : List String :=
  ["type_arguments", "type_argument_list", "template_argument_list", "arguments",
   "keyword_argument"]

/-- The parent that a node names, unless it is a built-in type. -/
def parentOf (n : Node) : List String :=
  let name := simpleName n.text
  if name = "" ∨ isPrimitive name then [] else [name]

def parentsInClause (profile : Profile) (clause : Node) : List String :=
  Syntax.collectRow (fun n =>
    if argumentKinds.contains n.kind then ([], false)
    else if profile.parentKinds.contains n.kind then (parentOf n, false)
    else ([], true)) clause.children

/-- The parents that a class node names, in document order. -/
def parentNames (profile : Profile) (classNode : Node) : List String :=
  (classNode.children.filter fun c => profile.heritageKinds.contains c.kind).flatMap
    (parentsInClause profile)

end ClassCohesion.Language
