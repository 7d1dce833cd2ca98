import ClassCohesion.Syntax.Node

/-!
# Walking a tree

A visitor carries a state, sees the nodes one after the other and says of each whether the walk goes
on below it. `walk` keeps the nodes that are still to be seen on a stack, so that the depth of a
tree costs nothing; `visitTree` is the same traversal by recursion on the tree.

`collect` is the walk that most extractors are: it gathers what each node contributes and prunes
below some.
-/

namespace ClassCohesion.Syntax

/-- What a visitor does with a node: the new state, and whether the walk goes on below the node. -/
abbrev Visitor (σ : Type) := σ → Node → σ × Bool

def walkStack {σ : Type} (visit : Visitor σ) (state : σ) : List Node → σ
  | [] => state
  | n :: stack =>
    let (state, descend) := visit state n
    if descend then walkStack visit state (n.children ++ stack)
    else walkStack visit state stack
termination_by stack => rowSize stack
decreasing_by
  · simp only [rowSize_append, rowSize_cons, n.size_eq_children]
    omega
  · have := n.size_pos
    simp only [rowSize_cons]
    omega

/-- Walks a tree from its root, parents before children and children in order. -/
def walk {σ : Type} (visit : Visitor σ) (state : σ) (root : Node) : σ :=
  walkStack visit state [root]

mutual

/-- The traversal by recursion: the node, then, if the visitor says so, what is below it. -/
def visitTree {σ : Type} (visit : Visitor σ) (state : σ) : Node → σ
  | .mk kind named text field startRow endRow places =>
    let (state, descend) := visit state (.mk kind named text field startRow endRow places)
    if descend then visitForest visit state places else state

def visitForest {σ : Type} (visit : Visitor σ) (state : σ) : List (Option Node) → σ
  | [] => state
  | none :: rest => visitForest visit state rest
  | some n :: rest => visitForest visit (visitTree visit state n) rest

end

/-- What the nodes below a row of trees contribute, in walking order; `give` says what a node
contributes and whether the walk goes on below it. -/
def collectRow {α : Type} (give : Node → List α × Bool) (row : List Node) : List α :=
  (walkStack (fun gathered n =>
    let (given, descend) := give n
    (given.reverse ++ gathered, descend)) [] row).reverse

/-- What the nodes of a tree contribute, in walking order. -/
def collect {α : Type} (give : Node → List α × Bool) (root : Node) : List α :=
  collectRow give [root]

def countNodes (p : Node → Bool) (root : Node) : Nat :=
  walk (fun count n => (if p n then count + 1 else count, true)) 0 root

/-- A list without the later occurrences of what it repeats. -/
def firstSeen {α : Type} [BEq α] (as : List α) : List α :=
  as.foldl (fun seen a => if seen.contains a then seen else seen ++ [a]) []

end ClassCohesion.Syntax
