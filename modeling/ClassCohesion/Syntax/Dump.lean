import ClassCohesion.Json.Basic
import ClassCohesion.Syntax.Node
import ClassCohesion.Text.Split

/-!
# Syntax trees as JSON

Trees are made by a parser outside of the program and arrive as JSON. A node is an object with its
kind `t` and, where they differ from the default, `n` (whether it is named, default true), `f` (the
field it stands in), `r` (its first and last row, default zero), and `c` (its children, where `null`
is a missing child). Its text is `x`, or the piece of the source from one character to another that
`s` gives, or the kind if it is an anonymous leaf, or else the texts of its children with a blank
between them. With `rep` the node stands for a row of that many nodes, each the only child of the
one before, the last with the children.
-/

namespace ClassCohesion.Syntax

/-- What a JSON value is as a part of a dump: a node if it is an object, children if it is an array.
-/
structure Part where
  node : Option Node := none
  places : List (Option Node) := []

namespace Part

def nat? : Json → Option Nat
  | .num (.finite v) => some v.floor.toNat
  | _ => none

def pair? : Option Json → Option (Nat × Nat)
  | some (.arr [a, b]) => do return (← nat? a, ← nat? b)
  | _ => none

def text? : Option Json → Option String
  | some (.str s) => some s
  | _ => none

def nodeOf (source : Array Char) (fields : Json.Fields) (places : List (Option Node)) : Node :=
  let kind := (text? (fields.lookup "t")).getD ""
  let named := match fields.lookup "n" with
    | some (.bool b) => b
    | _ => true
  let text := match text? (fields.lookup "x"), pair? (fields.lookup "s") with
    | some x, _ => x
    | none, some (a, b) => String.ofList (source.extract a b).toList
    | none, none =>
      if !named && places.isEmpty then kind
      else Text.join " " ((places.filterMap id).map Node.text)
  let (startRow, endRow) := (pair? (fields.lookup "r")).getD (0, 0)
  let node := Node.mk kind named text (text? (fields.lookup "f")) startRow endRow
  let rows := ((fields.lookup "rep").bind nat?).getD 1
  (List.range (rows - 1)).foldl (fun inner _ => node [some inner]) (node places)

mutual

def ofJson (source : Array Char) : Json → Part
  | .obj fields => { node := some (nodeOf source fields (placesIn source fields)) }
  | .arr items => { places := ofItems source items }
  | _ => {}

def ofItems (source : Array Char) : List Json → List (Option Node)
  | [] => []
  | j :: js => (ofJson source j).node :: ofItems source js

def placesIn (source : Array Char) : List (String × Json) → List (Option Node)
  | [] => []
  | (name, j) :: rest => if name = "c" then (ofJson source j).places else placesIn source rest

end

end Part

/-- The tree that a dump of a source text describes. -/
def Node.ofDump (source : String) (dump : Json) : Option Node :=
  (Part.ofJson source.toList.toArray dump).node

end ClassCohesion.Syntax
