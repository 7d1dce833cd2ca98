/-!
# Syntax trees

A node has a kind, is named or anonymous, covers a piece of the source text and a range of rows, may
stand in a field of its parent, and has children in order. A child may be missing.

The measures `Node.size` and `forestSize` count nodes; they bound every walk over a tree.
-/

namespace ClassCohesion.Syntax

inductive Node where
  | mk (kind : String) (named : Bool) (text : String) (field : Option String)
      (startRow endRow : Nat) (places : List (Option Node))
deriving Inhabited

namespace Node

def kind : Node → String
  | mk kind .. => kind

/-- Whether the grammar names the node; keywords and punctuation are anonymous. -/
def named : Node → Bool
  | mk _ named .. => named

def text : Node → String
  | mk _ _ text .. => text

/-- The field that a node stands in under its parent. -/
def field : Node → Option String
  | mk _ _ _ field .. => field

def startRow : Node → Nat
  | mk _ _ _ _ startRow .. => startRow

def endRow : Node → Nat
  | mk _ _ _ _ _ endRow _ => endRow

/-- The places for children, in order; a missing child leaves its place empty. -/
def places : Node → List (Option Node)
  | mk _ _ _ _ _ _ places => places

def children (n : Node) : List Node := n.places.filterMap id

def namedChildren (n : Node) : List Node := n.children.filter named

/-- The first child that stands in a field. -/
def child? (n : Node) (field : String) : Option Node :=
  n.children.find? fun c => c.field == some field

/-- The text of the child in the field `name`, empty if there is none. -/
def nameText (n : Node) : String := ((n.child? "name").map text).getD ""

end Node

/-! ## Size -/

mutual

def Node.size : Node → Nat
  | .mk _ _ _ _ _ _ places => 1 + forestSize places

/-- The number of nodes below a row of places. -/
def forestSize : List (Option Node) → Nat
  | [] => 0
  | none :: rest => forestSize rest
  | some n :: rest => n.size + forestSize rest

end

theorem Node.size_eq (n : Node) : n.size = 1 + forestSize n.places := by
  cases n
  simp [Node.size, Node.places]

def rowSize : List Node → Nat
  | [] => 0
  | n :: ns => n.size + rowSize ns

@[simp] theorem rowSize_nil : rowSize [] = 0 := rfl

@[simp] theorem rowSize_cons (n : Node) (ns : List Node) :
    rowSize (n :: ns) = n.size + rowSize ns := rfl

@[simp] theorem rowSize_append (as bs : List Node) :
    rowSize (as ++ bs) = rowSize as + rowSize bs := by
  induction as with
  | nil => simp
  | cons n as ih => simp only [List.cons_append, rowSize_cons, ih, Nat.add_assoc]

theorem forestSize_eq (places : List (Option Node)) :
    forestSize places = rowSize (places.filterMap id) := by
  induction places with
  | nil => rfl
  | cons p rest ih => cases p <;> simp [forestSize, ih]

theorem Node.size_eq_children (n : Node) : n.size = 1 + rowSize n.children := by
  rw [n.size_eq, forestSize_eq, Node.children]

theorem Node.size_pos (n : Node) : 0 < n.size := by
  rw [n.size_eq_children]
  omega

end ClassCohesion.Syntax
