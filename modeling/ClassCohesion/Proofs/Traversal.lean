import Mathlib.Data.List.Nodup
import ClassCohesion.Proofs.TreeWalk

/-!
# Walks with a stack and walks by recursion

A walk keeps the nodes that are still to be seen on a stack. What lies on top of the stack is a row
of children that have been put there together, so the walk works through such a row as the traversal
by recursion does and then goes on with what was below it. The visitor may answer by its state, and
so differently for nodes that look the same: what it has seen is told by `Node.visits`, visit by
visit, with the address of each node.

- `walkStack_cons`: the stack walk takes up the tree on top by recursion.
- `visitTree_recording`: the visits that the traversal makes.
- `mem_visits_iff`: a node is visited unless a visit above it ended with a refusal to go on.
- `walk_visits_by_recursion`: both walks make the same visits.
-/

namespace ClassCohesion.Syntax

variable {σ : Type} {visit : Visitor σ} {state : σ}

/-! ## Rows on the stack -/

theorem visitTree_eq (visit : Visitor σ) (state : σ) (n : Node) :
    visitTree visit state n =
      if (visit state n).2 then visitForest visit (visit state n).1 n.places
      else (visit state n).1 := by
  cases n
  rw [visitTree]
  rfl

/-- If the stack walk takes up each tree of a row by recursion, it so takes up the row. -/
theorem walkStack_places {places : List (Option Node)}
    (h : ∀ c, some c ∈ places → ∀ state stack,
      walkStack visit state (c :: stack) = walkStack visit (visitTree visit state c) stack)
    (state : σ) (stack : List Node) :
    walkStack visit state (places.filterMap id ++ stack) =
      walkStack visit (visitForest visit state places) stack := by
  induction places generalizing state with
  | nil => rw [visitForest]; rfl
  | cons p rest ih =>
    have hrest := ih fun c hc => h c (List.mem_cons_of_mem _ hc)
    cases p with
    | none =>
      rw [visitForest]
      exact hrest state
    | some c =>
      rw [visitForest, ← hrest]
      exact h c List.mem_cons_self state _

/-- The stack walk takes up the tree on top by recursion and goes on with the state it ends in. -/
theorem walkStack_cons (visit : Visitor σ) (n : Node) (state : σ) (stack : List Node) :
    walkStack visit state (n :: stack) = walkStack visit (visitTree visit state n) stack := by
  induction n using Node.induction generalizing state stack with
  | step n ih =>
    have hstep : walkStack visit state (n :: stack) =
        if (visit state n).2 then walkStack visit (visit state n).1 (n.children ++ stack)
        else walkStack visit (visit state n).1 stack := by
      rw [walkStack]
    rw [hstep, visitTree_eq]
    by_cases hd : (visit state n).2 = true
    · rw [if_pos hd, if_pos hd]
      exact walkStack_places ih _ stack
    · rw [if_neg hd, if_neg hd]

theorem walk_eq_visitTree (visit : Visitor σ) (state : σ) (root : Node) :
    walk visit state root = visitTree visit state root := by
  rw [walk, walkStack_cons, walkStack]

/-! ## Visits -/

/-- A visit of a walk: the address of the node, the node itself, and the visitor's answer whether
the walk goes on below it. -/
structure Visit where
  address : List Nat
  node : Node
  descends : Bool

namespace Visit

/-- What the visitor takes notice of: it does not know addresses. -/
def seen (v : Visit) : Node × Bool := (v.node, v.descends)

/-- A visit of a tree as a visit of the tree in which it stands at a place. -/
def under (i : Nat) (v : Visit) : Visit := { v with address := i :: v.address }

theorem under_inj {i j : Nat} {v w : Visit} : v.under i = w.under j ↔ i = j ∧ v = w := by
  cases v
  cases w
  simp [under, and_assoc]

/-- The order of the document. -/
def Precedes (v w : Visit) : Prop := v.address < w.address

end Visit

mutual

/-- The visits of the traversal by recursion, in their order. -/
def Node.visits (visit : Visitor σ) (state : σ) : Node → List Visit
  | .mk kind named text field startRow endRow places =>
    let n := .mk kind named text field startRow endRow places
    ⟨[], n, (visit state n).2⟩ ::
      if (visit state n).2 then rowVisits visit (visit state n).1 0 places else []

/-- The visits of a row of places, the first of which has the given number. -/
def rowVisits (visit : Visitor σ) (state : σ) (i : Nat) : List (Option Node) → List Visit
  | [] => []
  | none :: rest => rowVisits visit state (i + 1) rest
  | some n :: rest =>
    (n.visits visit state).map (.under i) ++ rowVisits visit (visitTree visit state n) (i + 1) rest

end

theorem Node.visits_eq (visit : Visitor σ) (state : σ) (n : Node) :
    n.visits visit state = ⟨[], n, (visit state n).2⟩ ::
      if (visit state n).2 then rowVisits visit (visit state n).1 0 n.places else [] := by
  cases n
  rw [Node.visits]
  rfl

/-! ## What a visitor can record -/

/-- A visitor that keeps, beside its state, the nodes it has been shown and its answers. -/
def recording (visit : Visitor σ) : Visitor (σ × List (Node × Bool)) := fun (state, seen) n =>
  (((visit state n).1, seen ++ [(n, (visit state n).2)]), (visit state n).2)

theorem visitForest_recording {places : List (Option Node)}
    (h : ∀ c, some c ∈ places → ∀ state seen, visitTree (recording visit) (state, seen) c =
      (visitTree visit state c, seen ++ (c.visits visit state).map Visit.seen))
    (state : σ) (seen : List (Node × Bool)) (i : Nat) :
    visitForest (recording visit) (state, seen) places =
      (visitForest visit state places, seen ++ (rowVisits visit state i places).map Visit.seen) := by
  induction places generalizing state seen i with
  | nil => simp [visitForest, rowVisits]
  | cons p rest ih =>
    have hrest := ih fun c hc => h c (List.mem_cons_of_mem _ hc)
    cases p with
    | none =>
      rw [visitForest, visitForest, rowVisits]
      exact hrest state seen (i + 1)
    | some c =>
      have hunder : (c.visits visit state).map (Visit.seen ∘ Visit.under i) =
          (c.visits visit state).map Visit.seen := rfl
      rw [visitForest, visitForest, rowVisits, h c List.mem_cons_self, hrest _ _ (i + 1),
        List.map_append, List.map_map, hunder, List.append_assoc]

/-- The traversal shows its visitor the nodes of its visits. -/
theorem visitTree_recording (visit : Visitor σ) (n : Node) (state : σ) (seen : List (Node × Bool)) :
    visitTree (recording visit) (state, seen) n =
      (visitTree visit state n, seen ++ (n.visits visit state).map Visit.seen) := by
  induction n using Node.induction generalizing state seen with
  | step n ih =>
    have hvisit : recording visit (state, seen) n =
        (((visit state n).1, seen ++ [(n, (visit state n).2)]), (visit state n).2) := rfl
    rw [visitTree_eq, visitTree_eq, Node.visits_eq, hvisit]
    by_cases hd : (visit state n).2 = true
    · simp only [hd, if_true]
      rw [visitForest_recording ih _ _ 0, List.map_cons, List.append_assoc]
      rfl
    · simp only [hd]
      rfl

/-! ## Which nodes are visited -/

/-- The visits of a row are those of its trees, each with the state that the ones before it leave. -/
theorem mem_rowVisits {places : List (Option Node)} {i : Nat} {v : Visit} :
    v ∈ rowVisits visit state i places ↔
      ∃ (j : Nat) (c : Node) (w : Visit), places[j]? = some (some c) ∧ v = w.under (i + j) ∧
        w ∈ c.visits visit (visitForest visit state (places.take j)) := by
  induction places generalizing state i with
  | nil => simp [rowVisits]
  | cons p rest ih =>
    -- the place at the front has number `i`; the others are one further on in the row
    have hrest (state' : σ) (hstate : ∀ j, visitForest visit state ((p :: rest).take (j + 1)) =
          visitForest visit state' (rest.take j)) :
        v ∈ rowVisits visit state' (i + 1) rest ↔
          ∃ (j : Nat) (c : Node) (w : Visit), (p :: rest)[j + 1]? = some (some c) ∧
            v = w.under (i + (j + 1)) ∧
            w ∈ c.visits visit (visitForest visit state ((p :: rest).take (j + 1))) := by
      rw [ih]
      simp only [hstate, List.getElem?_cons_succ, Nat.add_assoc, Nat.add_comm 1]
    cases p with
    | none =>
      rw [rowVisits, hrest state fun j => by rw [List.take_succ_cons, visitForest]]
      constructor
      · rintro ⟨j, c, w, h⟩
        exact ⟨j + 1, c, w, h⟩
      · rintro ⟨j, c, w, hc, h⟩
        cases j with
        | zero => cases hc
        | succ j => exact ⟨j, c, w, hc, h⟩
    | some n =>
      rw [rowVisits, List.mem_append,
        hrest (visitTree visit state n) fun j => by rw [List.take_succ_cons, visitForest]]
      constructor
      · rintro (h | ⟨j, c, w, h⟩)
        · obtain ⟨w, hw, rfl⟩ := List.mem_map.mp h
          refine ⟨0, n, w, rfl, rfl, ?_⟩
          rw [List.take_zero, visitForest]
          exact hw
        · exact ⟨j + 1, c, w, h⟩
      · rintro ⟨j, c, w, hc, rfl, hw⟩
        cases j with
        | zero =>
          cases hc
          rw [List.take_zero, visitForest] at hw
          exact .inl (List.mem_map.mpr ⟨w, hw, rfl⟩)
        | succ j => exact .inr ⟨j, c, w, hc, rfl, hw⟩

theorem at?_of_mem_visits {n : Node} {v : Visit} (h : v ∈ n.visits visit state) :
    n.at? v.address = some v.node := by
  induction n using Node.induction generalizing state v with
  | step n ih =>
    rw [Node.visits_eq, List.mem_cons] at h
    rcases h with rfl | h
    · exact Node.at?_nil n
    · split at h
      · obtain ⟨j, c, w, hc, rfl, hw⟩ := mem_rowVisits.mp h
        rw [Nat.zero_add]
        exact Node.at?_cons.mpr ⟨c, hc, ih c (List.mem_of_getElem? hc) hw⟩
      · cases h

/-- The visits of a child, where the traversal goes on below its parent. -/
theorem under_mem_visits {n c : Node} {i : Nat} {w : Visit} (hc : n.places[i]? = some (some c))
    (hd : (visit state n).2 = true) :
    w.under i ∈ n.visits visit state ↔
      w ∈ c.visits visit (visitForest visit (visit state n).1 (n.places.take i)) := by
  have hroot : w.under i ≠ ⟨[], n, (visit state n).2⟩ := by
    intro h
    cases congrArg Visit.address h
  rw [Node.visits_eq, List.mem_cons, or_iff_right hroot, if_pos hd, mem_rowVisits]
  constructor
  · rintro ⟨j, d, u, hj, heq, hu⟩
    rw [Nat.zero_add] at heq
    obtain ⟨rfl, rfl⟩ := Visit.under_inj.mp heq
    rw [hc] at hj
    cases hj
    exact hu
  · intro hw
    exact ⟨i, c, w, hc, by rw [Nat.zero_add], hw⟩

/-- Whether a visit above an address ended with a refusal to go on. -/
def prunedAbove (visits : List Visit) (address : List Nat) : Bool :=
  visits.any fun v => v.address.isPrefixOf address && v.address != address && !v.descends

theorem prunedAbove_iff {visits : List Visit} {a : List Nat} :
    prunedAbove visits a = true ↔
      ∃ v ∈ visits, v.address <+: a ∧ v.address ≠ a ∧ v.descends = false := by
  simp [prunedAbove, and_assoc]

theorem prunedAbove_nil (visits : List Visit) : prunedAbove visits [] = false := by
  rw [← Bool.not_eq_true, prunedAbove_iff]
  rintro ⟨v, -, hpre, hne, -⟩
  exact hne (List.prefix_nil.mp hpre)

/-- Above a node that is not the root, refusals are those of the traversal of the child it is in. -/
theorem prunedAbove_cons {n c : Node} {i : Nat} {is : List Nat}
    (hc : n.places[i]? = some (some c)) (hd : (visit state n).2 = true) :
    prunedAbove (n.visits visit state) (i :: is) =
      prunedAbove (c.visits visit (visitForest visit (visit state n).1 (n.places.take i))) is := by
  rw [Bool.eq_iff_iff, prunedAbove_iff, prunedAbove_iff]
  constructor
  · rintro ⟨⟨a, m, d⟩, hv, hpre, hne, hfalse⟩
    cases a with
    | nil =>
      -- the root itself has not refused, and every other visit lies below it
      rw [Node.visits_eq, if_pos hd, List.mem_cons, hd] at hv
      rcases hv with hv | hv
      · cases hv
        cases hfalse
      · obtain ⟨j, d', w, -, heq, -⟩ := mem_rowVisits.mp hv
        cases congrArg Visit.address heq
    | cons j js =>
      obtain ⟨rfl, hjs⟩ := List.cons_prefix_cons.mp hpre
      refine ⟨⟨js, m, d⟩, (under_mem_visits hc hd).mp hv, hjs, ?_, hfalse⟩
      exact fun h => hne (congrArg (j :: ·) h)
  · rintro ⟨w, hw, hpre, hne, hfalse⟩
    refine ⟨w.under i, (under_mem_visits hc hd).mpr hw, List.cons_prefix_cons.mpr ⟨rfl, hpre⟩, ?_,
      hfalse⟩
    exact fun h => hne (List.cons.inj h).2

/-- **What is visited.** A node of the tree is visited unless a visit above it ended with a refusal
to go on. -/
theorem mem_visits_iff {n m : Node} {a : List Nat} (hat : n.at? a = some m) :
    a ∈ (n.visits visit state).map Visit.address ↔
      prunedAbove (n.visits visit state) a = false := by
  induction n using Node.induction generalizing state a with
  | step n ih =>
    cases a with
    | nil => simp [prunedAbove_nil, Node.visits_eq]
    | cons i is =>
      obtain ⟨c, hc, hat⟩ := Node.at?_cons.mp hat
      by_cases hd : (visit state n).2 = true
      · rw [prunedAbove_cons hc hd, ← ih c (List.mem_of_getElem? hc) hat, List.mem_map,
          List.mem_map]
        constructor
        · rintro ⟨⟨b, k, d⟩, hv, rfl⟩
          exact ⟨⟨is, k, d⟩, (under_mem_visits hc hd).mp hv, rfl⟩
        · rintro ⟨w, hw, rfl⟩
          exact ⟨w.under i, (under_mem_visits hc hd).mpr hw, rfl⟩
      · simp [Node.visits_eq, hd, prunedAbove]

/-! ## The order of the visits -/

theorem rowVisits_ordered {places : List (Option Node)} {i : Nat}
    (h : ∀ c, some c ∈ places → ∀ state, (c.visits visit state).Pairwise Visit.Precedes)
    (state : σ) : (rowVisits visit state i places).Pairwise Visit.Precedes := by
  induction places generalizing state i with
  | nil => exact .nil
  | cons p rest ih =>
    have hrest := ih (i := i + 1) fun c hc => h c (List.mem_cons_of_mem _ hc)
    cases p with
    | none => exact hrest state
    | some n =>
      rw [rowVisits, List.pairwise_append]
      refine ⟨?_, hrest _, ?_⟩
      · rw [List.pairwise_map]
        exact (h n List.mem_cons_self state).imp fun hlt =>
          List.cons_lt_cons_iff.mpr (.inr ⟨rfl, hlt⟩)
      · intro v hv w hw
        obtain ⟨u, -, rfl⟩ := List.mem_map.mp hv
        obtain ⟨j, c, x, -, rfl, -⟩ := mem_rowVisits.mp hw
        exact List.cons_lt_cons_iff.mpr (.inl (by omega))

theorem visits_ordered (visit : Visitor σ) (n : Node) (state : σ) :
    (n.visits visit state).Pairwise Visit.Precedes := by
  induction n using Node.induction generalizing state with
  | step n ih =>
    rw [Node.visits_eq]
    split
    · refine List.pairwise_cons.mpr ⟨fun v hv => ?_, rowVisits_ordered ih _⟩
      obtain ⟨j, c, w, -, rfl, -⟩ := mem_rowVisits.mp hv
      exact List.nil_lt_cons _ _
    · exact List.pairwise_singleton _ _

theorem nodup_visits (visit : Visitor σ) (n : Node) (state : σ) :
    ((n.visits visit state).map Visit.address).Nodup := by
  rw [List.Nodup, List.pairwise_map]
  refine (visits_ordered visit n state).imp fun {v w} hlt heq => ?_
  rw [Visit.Precedes, heq] at hlt
  exact List.lt_irrefl w.address hlt

/-- Each node of the tree is visited once, or not at all where a visit above it has pruned it. -/
theorem count_visits {n m : Node} {a : List Nat} (hat : n.at? a = some m) :
    ((n.visits visit state).map Visit.address).count a =
      if prunedAbove (n.visits visit state) a then 0 else 1 := by
  split
  · next hpruned =>
    refine List.count_eq_zero_of_not_mem fun hmem => ?_
    rw [(mem_visits_iff hat).mp hmem] at hpruned
    cases hpruned
  · next hfree =>
    exact List.count_eq_one_of_mem (nodup_visits visit n state)
      ((mem_visits_iff hat).mpr (Bool.not_eq_true _ ▸ hfree))

/-- **A stack in place of recursion.** For every tree, empty places included, and every visitor, the
walk with a stack ends in the state of the traversal by recursion and shows the visitor the same nodes
in the same order with the same answers. These are the visits of `Node.visits`: they are in the order
of the document, each is of a node of the tree, and every node is visited exactly once, except below
a node at which the visitor has refused to go on. -/
theorem walk_visits_by_recursion (visit : Visitor σ) (state : σ) (root : Node) :
    walk visit state root = visitTree visit state root ∧
      walk (recording visit) (state, []) root = visitTree (recording visit) (state, []) root ∧
      walk (recording visit) (state, []) root =
        (walk visit state root, (root.visits visit state).map Visit.seen) ∧
      (root.visits visit state).Pairwise Visit.Precedes ∧
      (∀ v ∈ root.visits visit state, root.at? v.address = some v.node) ∧
      ∀ a n, root.at? a = some n →
        ((root.visits visit state).map Visit.address).count a =
          if prunedAbove (root.visits visit state) a then 0 else 1 := by
  refine ⟨walk_eq_visitTree visit state root, walk_eq_visitTree (recording visit) _ root, ?_,
    visits_ordered visit root state, fun v hv => at?_of_mem_visits hv, fun a n hat => count_visits hat⟩
  rw [walk_eq_visitTree, walk_eq_visitTree, visitTree_recording, List.nil_append]

namespace Sample

/-- A visitor that goes on below as many nodes as its state says. -/
def sparing : Visitor Nat := fun budget _ => (budget - 1, decide (0 < budget))

/-- Two names with a gap between them. -/
def pairOfNames : Node :=
  let name := .mk "identifier" true "x" none 0 0 []
  .mk "block" true "" none 0 0 [some name, none, some name]

/-- Two blocks that look the same, with a gap between them. -/
def twoBlocks : Node := .mk "program" true "" none 0 0 [some pairOfNames, none, some pairOfNames]

end Sample

/-- The budget is used up in the first block. Its twin is visited too, but the names in it are not. -/
theorem walk_visits_by_recursion_sparing :
    (walk (recording Sample.sparing) (2, []) Sample.twoBlocks).2.map (fun e => (e.1.kind, e.2)) =
        [("program", true), ("block", true), ("identifier", false), ("identifier", false),
          ("block", false)] ∧
      Sample.twoBlocks.at? [0, 2] = Sample.twoBlocks.at? [2, 2] ∧
      ((Sample.twoBlocks.visits Sample.sparing 2).map Visit.address).count [0, 2] = 1 ∧
      ((Sample.twoBlocks.visits Sample.sparing 2).map Visit.address).count [2, 2] = 0 := by
  obtain ⟨-, -, hrecord, -, -, hcount⟩ := walk_visits_by_recursion Sample.sparing 2 Sample.twoBlocks
  refine ⟨?_, rfl, ?_, ?_⟩
  · rw [hrecord]
    rfl
  · rw [hcount [0, 2] _ rfl]
    rfl
  · rw [hcount [2, 2] _ rfl]
    rfl

end ClassCohesion.Syntax
