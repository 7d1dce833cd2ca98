import ClassCohesion.Number.Basic

/-!
# JSON values

A value of the JSON format. The fields of an object are an association list without repeated names,
kept in the order in which they are written out: first the names that are array indices, in
ascending order, then all others in the order in which they were first given. `Fields.ofPairs`
brings any list of pairs into that form; of two pairs with one name the later value wins and the
earlier position stays.
-/

namespace ClassCohesion

inductive Json where
  | null
  | bool (value : Bool)
  | num (value : Number)
  | str (value : String)
  | arr (items : List Json)
  | obj (fields : List (String × Json))
deriving Inhabited, Repr

namespace Json

abbrev Fields := List (String × Json)

/-- The array index that a name writes in its only canonical form, if it is one. -/
def arrayIndex? (name : String) : Option Nat :=
  let cs := name.toList
  let canonical := !cs.isEmpty && cs.all Char.isDigit && (cs.length == 1 || cs.head? != some '0')
  let n := cs.foldl (fun n c => n * 10 + (c.toNat - 48)) 0
  if canonical && cs.length ≤ 10 && n < Nat.pow 2 32 - 1 then some n else none

/-- Sets a field: a new name goes to the end, a known one keeps its place. -/
def Fields.put (fields : Fields) (name : String) (value : Json) : Fields :=
  if fields.any (·.1 == name) then fields.map fun f => if f.1 == name then (name, value) else f
  else fields ++ [(name, value)]

/-- The fields in writing order. -/
def Fields.arrange (fields : Fields) : Fields :=
  let indexed := fields.filter fun f => (arrayIndex? f.1).isSome
  let named := fields.filter fun f => (arrayIndex? f.1).isNone
  indexed.mergeSort (fun a b => (arrayIndex? a.1).getD 0 ≤ (arrayIndex? b.1).getD 0) ++ named

/-- The fields that a list of pairs sets, one after the other. -/
def Fields.ofPairs (pairs : List (String × Json)) : Fields :=
  Fields.arrange (pairs.foldl (fun fields p => Fields.put fields p.1 p.2) [])

def get? (j : Json) (name : String) : Option Json :=
  match j with
  | obj fields => (fields.find? (·.1 == name)).map (·.2)
  | _ => none

def kind : Json → String
  | null => "null"
  | bool _ => "boolean"
  | num _ => "number"
  | str _ => "string"
  | arr _ => "array"
  | obj _ => "object"

def ofOptional (fields : List (String × Option Json)) : Json :=
  obj (fields.filterMap fun f => f.2.map fun v => (f.1, v))

def ofStrings (ss : List String) : Json := arr (ss.map str)

end Json

end ClassCohesion
