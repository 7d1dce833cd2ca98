/-!
# Lack of cohesion

Two methods hang together when they use a field in common, and so do methods that are linked by a
chain of such pairs. The lack of cohesion of a class is the number of groups into which its methods
fall. A class without methods has none; in a class without fields every method is a group of its
own.

A method is given by the names of the fields it uses, and in the search by its position. Every pair
of methods is compared once, and each of the two is listed as a neighbour of the other. The groups
are counted by a depth-first search from every position that none before it has reached.
-/

namespace ClassCohesion.Metrics

/-- Whether two methods use a field in common. The names of the one that uses fewer are looked up in
the other. -/
def shareField (a b : List String) : Bool :=
  if a.length ≤ b.length then a.any b.contains else b.any a.contains

/-! ## Neighbours -/

def pairs (n : Nat) : List (Nat × Nat) :=
  (List.range n).flatMap fun i => (List.range' (i + 1) (n - (i + 1))).map (i, ·)

/-- Two positions whose methods use a field in common become neighbours of each other. -/
def addPair (methods : List (List String)) (found : List (List Nat)) :
    Nat × Nat → List (List Nat)
  | (i, j) =>
    if shareField (methods.getD i []) (methods.getD j []) then
      (found.modify i (· ++ [j])).modify j (· ++ [i])
    else found

/-- For each position, the other ones whose methods use a field of its own. -/
def neighbours (methods : List (List String)) : List (List Nat) :=
  (pairs methods.length).foldl (addPair methods) (List.replicate methods.length [])

/-! ## The search -/

/-- A search: which positions have been reached, and those whose neighbours have not been looked at,
the last one first. -/
structure Search where
  reached : List Bool
  stack : List Nat
deriving Repr

namespace Search

/-- A position that has not been reached is now, and goes on the stack. -/
def reach (search : Search) (i : Nat) : Search :=
  if search.reached[i]? = some false then ⟨search.reached.set i true, i :: search.stack⟩ else search

/-- What is left to do: the positions on the stack and those that may still come to be there. -/
def load (search : Search) : Nat := search.reached.count false + search.stack.length

theorem count_set_true {reached : List Bool} {i : Nat} (h : reached[i]? = some false) :
    (reached.set i true).count false + 1 = reached.count false := by
  induction reached generalizing i with
  | nil => simp at h
  | cons b reached ih =>
    cases i with
    | zero =>
      obtain rfl : b = false := by simpa using h
      simp
    | succ i =>
      have hrest := ih (by simpa using h)
      rw [List.set_cons_succ, List.count_cons, List.count_cons]
      omega

theorem load_reach (search : Search) (i : Nat) : (search.reach i).load = search.load := by
  unfold reach
  split
  · next h =>
    have hcount := count_set_true h
    simp only [load, List.length_cons]
    omega
  · rfl

theorem load_foldl_reach (positions : List Nat) (search : Search) :
    (positions.foldl reach search).load = search.load := by
  induction positions generalizing search with
  | nil => rfl
  | cons i positions ih => rw [List.foldl_cons, ih, load_reach]

/-- Goes on until the stack is empty, and says what has been reached. -/
def finish (neighbours : List (List Nat)) (search : Search) : List Bool :=
  match search with
  | ⟨reached, []⟩ => reached
  | ⟨reached, i :: stack⟩ =>
    finish neighbours ((neighbours.getD i []).foldl reach ⟨reached, stack⟩)
termination_by search.load
decreasing_by
  rw [load_foldl_reach]
  exact Nat.lt_succ_self _

end Search

/-- A search from a position that none before it has reached is counted. -/
def searchFrom (neighbours : List (List Nat)) : List Bool × Nat → Nat → List Bool × Nat
  | (reached, count), start =>
    if reached[start]? = some false then
      ((Search.mk (reached.set start true) [start]).finish neighbours, count + 1)
    else (reached, count)

def searches (neighbours : List (List Nat)) : Nat :=
  ((List.range neighbours.length).foldl (searchFrom neighbours)
    (List.replicate neighbours.length false, 0)).2

def lackOfCohesion (methods : List (List String)) (fields : List String) : Nat :=
  if methods.isEmpty then 0
  else if fields.isEmpty then methods.length
  else searches (neighbours methods)

end ClassCohesion.Metrics
