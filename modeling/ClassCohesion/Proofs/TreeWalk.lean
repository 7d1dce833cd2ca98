import Mathlib.Data.List.Basic
import Mathlib.Data.List.Induction
import ClassCohesion.Syntax.Walk

/-!
# Walks and addresses

A node of a tree has an address: the numbers of the places that lead to it from the root. Addresses
tell apart nodes that look the same, the proper beginnings of an address are those of the nodes
above, and the lexicographic order of addresses is the order of the document.

`Node.outline` lists the nodes that a walk sees, with their addresses.

- `collect_eq_outline`: a walk gathers what the nodes of the outline contribute.
- `mem_outline`: a node is in the outline exactly if the walk goes on below every node above it.
- `outline_ordered`: the outline is in the order of the document.
-/

namespace ClassCohesion.Syntax

variable {α : Type}

/-! ## Induction on a tree -/

theorem size_le_forestSize {c : Node} {places : List (Option Node)} (h : some c ∈ places) :
    c.size ≤ forestSize places := by
  induction places with
  | nil => cases h
  | cons p rest ih =>
    rcases List.mem_cons.mp h with rfl | h
    · rw [forestSize]
      exact Nat.le_add_right _ _
    · have hrest := ih h
      cases p with
      | none => exact hrest
      | some n =>
        rw [forestSize]
        exact Nat.le_trans hrest (Nat.le_add_left _ _)

theorem Node.size_lt {n c : Node} (h : some c ∈ n.places) : c.size < n.size := by
  have hle := size_le_forestSize h
  rw [n.size_eq]
  omega

/-- What a node has because its children have it, all nodes have. -/
theorem Node.induction {P : Node → Prop} (step : ∀ n, (∀ c, some c ∈ n.places → P c) → P n)
    (n : Node) : P n := by
  induction hs : n.size using Nat.strongRecOn generalizing n with
  | _ size ih =>
    refine step n fun c hc => ih c.size ?_ c rfl
    rw [← hs]
    exact Node.size_lt hc

/-! ## Walks by recursion on the tree -/

/-- What a walk gathers comes on top of what it has. -/
theorem walkStack_gather (give : Node → List α × Bool) (gathered : List α) (row : List Node) :
    walkStack (fun gathered n => ((give n).1.reverse ++ gathered, (give n).2)) gathered row =
      (collectRow give row).reverse ++ gathered := by
  suffices h : ∀ gathered, walkStack
      (fun gathered n => ((give n).1.reverse ++ gathered, (give n).2)) gathered row =
        walkStack (fun gathered n => ((give n).1.reverse ++ gathered, (give n).2)) [] row ++
          gathered by
    rw [h, collectRow, List.reverse_reverse]
  induction hs : rowSize row using Nat.strongRecOn generalizing row with
  | _ size ih =>
    intro gathered
    cases row with
    | nil => simp [walkStack]
    | cons n stack =>
      rw [rowSize_cons, n.size_eq_children] at hs
      have hdown := ih (rowSize (n.children ++ stack)) (by rw [rowSize_append]; omega) _ rfl
      have hpast := ih (rowSize stack) (by omega) _ rfl
      rw [walkStack, walkStack]
      dsimp only
      by_cases hd : (give n).2 = true
      · rw [if_pos hd, if_pos hd, hdown, hdown (_ ++ []), List.append_nil, List.append_assoc]
      · rw [if_neg hd, if_neg hd, hpast, hpast (_ ++ []), List.append_nil, List.append_assoc]

@[simp]
theorem collectRow_nil (give : Node → List α × Bool) : collectRow give [] = [] := by
  simp [collectRow, walkStack]

theorem collectRow_cons (give : Node → List α × Bool) (n : Node) (row : List Node) :
    collectRow give (n :: row) =
      (give n).1 ++ collectRow give (if (give n).2 then n.children ++ row else row) := by
  have hstep : collectRow give (n :: row) =
      (walkStack (fun gathered n => ((give n).1.reverse ++ gathered, (give n).2))
        (give n).1.reverse (if (give n).2 then n.children ++ row else row)).reverse := by
    rw [collectRow, walkStack]
    dsimp only
    rw [List.append_nil]
    split <;> rfl
  rw [hstep, walkStack_gather, List.reverse_append, List.reverse_reverse, List.reverse_reverse]

theorem collectRow_append (give : Node → List α × Bool) (as bs : List Node) :
    collectRow give (as ++ bs) = collectRow give as ++ collectRow give bs := by
  induction hs : rowSize as using Nat.strongRecOn generalizing as with
  | _ size ih =>
    cases as with
    | nil => simp
    | cons n as =>
      rw [rowSize_cons, n.size_eq_children] at hs
      rw [List.cons_append, collectRow_cons, collectRow_cons, List.append_assoc]
      congr 1
      split
      · rw [← List.append_assoc]
        exact ih (rowSize (n.children ++ as)) (by rw [rowSize_append]; omega) _ rfl
      · exact ih (rowSize as) (by omega) _ rfl

theorem collectRow_eq_flatMap (give : Node → List α × Bool) (row : List Node) :
    collectRow give row = row.flatMap (collect give) := by
  induction row with
  | nil => simp
  | cons n row ih =>
    rw [List.flatMap_cons, ← ih, collect, ← collectRow_append, List.singleton_append]

/-- A walk takes what the root contributes and then, if it goes on, what the children do. -/
theorem collect_eq (give : Node → List α × Bool) (n : Node) :
    collect give n =
      (give n).1 ++ if (give n).2 then n.children.flatMap (collect give) else [] := by
  rw [collect, collectRow_cons, ← collectRow_eq_flatMap]
  split
  · rw [List.append_nil]
  · rw [collectRow_nil]

/-! ## Addresses -/

/-- The node that an address leads to. -/
def Node.at? : Node → List Nat → Option Node
  | n, [] => some n
  | n, i :: is => n.places[i]?.join.bind (·.at? is)

@[simp]
theorem Node.at?_nil (n : Node) : n.at? [] = some n := by
  rw [Node.at?]

theorem Node.at?_cons {n m : Node} {i : Nat} {is : List Nat} :
    n.at? (i :: is) = some m ↔ ∃ c, n.places[i]? = some (some c) ∧ c.at? is = some m := by
  rw [Node.at?, Option.bind_eq_some_iff]
  simp only [Option.join_eq_some_iff]

/-- Below a node the addresses go on as in its own tree. -/
theorem Node.at?_append_eq {n c : Node} {a : List Nat} (hc : n.at? a = some c) (b : List Nat) :
    n.at? (a ++ b) = c.at? b := by
  induction a generalizing n with
  | nil =>
    cases (Node.at?_nil n).symm.trans hc
    rfl
  | cons i is ih =>
    obtain ⟨d, hd, hc⟩ := Node.at?_cons.mp hc
    rw [List.cons_append, Node.at?, hd, ← ih hc]
    rfl

/-- A node of a tree within a tree. -/
theorem Node.at?_append {n c m : Node} {a b : List Nat} (hc : n.at? a = some c)
    (hm : c.at? b = some m) : n.at? (a ++ b) = some m :=
  (Node.at?_append_eq hc b).trans hm

theorem Node.at?_child {n c : Node} {field : String} (h : n.child? field = some c) :
    ∃ i, n.at? [i] = some c := by
  have hmem : some c ∈ n.places := by simpa [Node.children] using List.mem_of_find?_eq_some h
  obtain ⟨i, hi⟩ := List.getElem?_of_mem hmem
  exact ⟨i, Node.at?_cons.mpr ⟨c, hi, Node.at?_nil c⟩⟩

/-- A node above the one at an address. -/
def Node.Above (n : Node) (address : List Nat) (m : Node) : Prop :=
  ∃ b, b <+: address ∧ b ≠ address ∧ n.at? b = some m

/-- A node above the one at an address, but not the root. -/
def Node.Between (n : Node) (address : List Nat) (m : Node) : Prop :=
  ∃ b, b ≠ [] ∧ b <+: address ∧ b ≠ address ∧ n.at? b = some m

theorem Node.not_above_nil {n m : Node} : ¬ n.Above [] m := by
  rintro ⟨b, hb, hne, -⟩
  exact hne (List.prefix_nil.mp hb)

/-- Between the root and a node are the nodes above it in the tree of a child. -/
theorem Node.between_cons {n c m : Node} {i : Nat} {is : List Nat}
    (hc : n.places[i]? = some (some c)) : n.Between (i :: is) m ↔ c.Above is m := by
  constructor
  · rintro ⟨b, hb, hpre, hne, hm⟩
    cases b with
    | nil => exact absurd rfl hb
    | cons j js =>
      obtain ⟨rfl, hjs⟩ := List.cons_prefix_cons.mp hpre
      obtain ⟨c', hc', hm⟩ := Node.at?_cons.mp hm
      rw [hc] at hc'
      cases hc'
      exact ⟨js, hjs, fun h => hne (by rw [h]), hm⟩
  · rintro ⟨js, hjs, hne, hm⟩
    refine ⟨i :: js, by simp, List.cons_prefix_cons.mpr ⟨rfl, hjs⟩, ?_, Node.at?_cons.mpr ⟨c, hc, hm⟩⟩
    intro h
    exact hne (List.cons.inj h).2

/-- Above a node other than the root are the root and the nodes between. -/
theorem Node.above_iff {n m : Node} {a : List Nat} (ha : a ≠ []) :
    n.Above a m ↔ m = n ∨ n.Between a m := by
  constructor
  · rintro ⟨b, hpre, hne, hm⟩
    by_cases hb : b = []
    · subst hb
      rw [Node.at?_nil] at hm
      exact .inl (Option.some.inj hm).symm
    · exact .inr ⟨b, hb, hpre, hne, hm⟩
  · rintro (rfl | ⟨b, -, hpre, hne, hm⟩)
    · exact ⟨[], List.nil_prefix, fun h => ha h.symm, Node.at?_nil _⟩
    · exact ⟨b, hpre, hne, hm⟩

/-! ## Outlines -/

mutual

/-- The nodes of a tree with their addresses, parents before children and children in order; what is
below a node only if `descend` says so. -/
def Node.outline (descend : Node → Bool) : Node → List (List Nat × Node)
  | .mk kind named text field startRow endRow places =>
    ([], .mk kind named text field startRow endRow places) ::
      if descend (.mk kind named text field startRow endRow places) then
        outlineRow descend 0 places
      else []

/-- The nodes below a row of places, the first of which has the given number. -/
def outlineRow (descend : Node → Bool) (i : Nat) : List (Option Node) → List (List Nat × Node)
  | [] => []
  | none :: rest => outlineRow descend (i + 1) rest
  | some n :: rest =>
    (n.outline descend).map (fun e => (i :: e.1, e.2)) ++ outlineRow descend (i + 1) rest

end

section Outline

variable {descend : Node → Bool}

theorem Node.outline_eq (descend : Node → Bool) (n : Node) :
    n.outline descend = ([], n) :: if descend n then outlineRow descend 0 n.places else [] := by
  cases n
  rw [Node.outline, Node.places]

theorem mem_outlineRow {places : List (Option Node)} {i : Nat} {a : List Nat} {m : Node} :
    (a, m) ∈ outlineRow descend i places ↔
      ∃ j is c, places[j]? = some (some c) ∧ a = (i + j) :: is ∧ (is, m) ∈ c.outline descend := by
  induction places generalizing i with
  | nil => simp [outlineRow]
  | cons p rest ih =>
    -- the place at the front has number `i`; the others are one further on in the row
    have hrest : (a, m) ∈ outlineRow descend (i + 1) rest ↔
        ∃ j is c, (p :: rest)[j + 1]? = some (some c) ∧ a = (i + (j + 1)) :: is ∧
          (is, m) ∈ c.outline descend := by
      rw [ih]
      simp only [List.getElem?_cons_succ, Nat.add_assoc, Nat.add_comm 1]
    cases p with
    | none =>
      rw [outlineRow, hrest]
      constructor
      · rintro ⟨j, is, c, h⟩
        exact ⟨j + 1, is, c, h⟩
      · rintro ⟨j, is, c, hc, h⟩
        cases j with
        | zero => cases hc
        | succ j => exact ⟨j, is, c, hc, h⟩
    | some n =>
      rw [outlineRow, List.mem_append, hrest]
      constructor
      · rintro (h | ⟨j, is, c, h⟩)
        · obtain ⟨⟨is, m'⟩, hmem, heq⟩ := List.mem_map.mp h
          cases heq
          exact ⟨0, is, n, rfl, rfl, hmem⟩
        · exact ⟨j + 1, is, c, h⟩
      · rintro ⟨j, is, c, hc, rfl, hmem⟩
        cases j with
        | zero =>
          cases hc
          exact .inl (List.mem_map.mpr ⟨(is, m), hmem, rfl⟩)
        | succ j => exact .inr ⟨j, is, c, hc, rfl, hmem⟩

/-- Below a node the walk sees what lies in the outline of one of its children. -/
theorem mem_outlineRow_places {n m : Node} {i : Nat} {is : List Nat} :
    (i :: is, m) ∈ outlineRow descend 0 n.places ↔
      ∃ c, n.places[i]? = some (some c) ∧ (is, m) ∈ c.outline descend := by
  rw [mem_outlineRow]
  constructor
  · rintro ⟨j, is', c, hc, heq, hm⟩
    rw [Nat.zero_add] at heq
    cases heq
    exact ⟨c, hc, hm⟩
  · rintro ⟨c, hc, hm⟩
    exact ⟨i, is, c, hc, by rw [Nat.zero_add], hm⟩

theorem nil_not_mem_outlineRow {places : List (Option Node)} {i : Nat} {m : Node} :
    ([], m) ∉ outlineRow descend i places := by
  rw [mem_outlineRow]
  rintro ⟨j, is, c, -, h, -⟩
  cases h

/-- **What a walk sees.** A node is in the outline exactly if the walk goes on below every node
above it. -/
theorem mem_outline {n m : Node} {a : List Nat} :
    (a, m) ∈ n.outline descend ↔
      n.at? a = some m ∧ ∀ k, n.Above a k → descend k = true := by
  induction n using Node.induction generalizing a m with
  | step n ih =>
    rw [Node.outline_eq]
    cases a with
    | nil =>
      have hrow : ([], m) ∉ if descend n then outlineRow descend 0 n.places else [] := by
        split
        · exact nil_not_mem_outlineRow
        · exact List.not_mem_nil
      rw [List.mem_cons, or_iff_left hrow, Node.at?_nil]
      constructor
      · intro h
        cases h
        exact ⟨rfl, fun k hk => absurd hk Node.not_above_nil⟩
      · rintro ⟨h, -⟩
        cases h
        rfl
    | cons i is =>
      have hchild : ∀ c, n.places[i]? = some (some c) →
          ((is, m) ∈ c.outline descend ↔
            c.at? is = some m ∧ ∀ k, n.Between (i :: is) k → descend k = true) := by
        intro c hc
        rw [ih c (List.mem_of_getElem? hc)]
        simp only [Node.between_cons hc]
      have habove : (∀ k, n.Above (i :: is) k → descend k = true) ↔
          descend n = true ∧ ∀ k, n.Between (i :: is) k → descend k = true := by
        simp only [Node.above_iff (List.cons_ne_nil i is), or_imp, forall_and, forall_eq]
      rw [List.mem_cons, or_iff_right (by simp), habove, Node.at?_cons]
      constructor
      · intro h
        split at h
        · next hd =>
          obtain ⟨c, hc, hm⟩ := mem_outlineRow_places.mp h
          obtain ⟨hat, hbetween⟩ := (hchild c hc).mp hm
          exact ⟨⟨c, hc, hat⟩, hd, hbetween⟩
        · cases h
      · rintro ⟨⟨c, hc, hat⟩, hd, hbetween⟩
        rw [if_pos hd]
        exact mem_outlineRow_places.mpr ⟨c, hc, (hchild c hc).mpr ⟨hat, hbetween⟩⟩

/-- Below a node the walk sees the nodes for which it goes on below every node between. -/
theorem mem_outlineRow_iff {n m : Node} {a : List Nat} :
    (a, m) ∈ outlineRow descend 0 n.places ↔
      a ≠ [] ∧ n.at? a = some m ∧ ∀ k, n.Between a k → descend k = true := by
  cases a with
  | nil => simp [nil_not_mem_outlineRow]
  | cons i is =>
    rw [mem_outlineRow_places, Node.at?_cons]
    constructor
    · rintro ⟨c, hc, hm⟩
      obtain ⟨hat, habove⟩ := mem_outline.mp hm
      refine ⟨List.cons_ne_nil i is, ⟨c, hc, hat⟩, fun k hk => ?_⟩
      exact habove k ((Node.between_cons hc).mp hk)
    · rintro ⟨-, ⟨c, hc, hat⟩, hbetween⟩
      refine ⟨c, hc, mem_outline.mpr ⟨hat, fun k hk => ?_⟩⟩
      exact hbetween k ((Node.between_cons hc).mpr hk)

/-! ## The order of an outline -/

/-- The order of the document. -/
def Precedes (x y : List Nat × Node) : Prop := x.1 < y.1

theorem Precedes.ne {x y : List Nat × Node} (h : Precedes x y) : x.1 ≠ y.1 := by
  intro heq
  rw [Precedes, heq] at h
  exact List.lt_irrefl y.1 h

theorem outlineRow_ordered {places : List (Option Node)} {i : Nat}
    (h : ∀ c, some c ∈ places → (c.outline descend).Pairwise Precedes) :
    (outlineRow descend i places).Pairwise Precedes := by
  induction places generalizing i with
  | nil => exact .nil
  | cons p rest ih =>
    have hrest := ih (i := i + 1) fun c hc => h c (List.mem_cons_of_mem _ hc)
    cases p with
    | none => exact hrest
    | some n =>
      have hn := h n List.mem_cons_self
      rw [outlineRow, List.pairwise_append]
      refine ⟨?_, hrest, ?_⟩
      · rw [List.pairwise_map]
        exact hn.imp fun hxy => List.cons_lt_cons_iff.mpr (.inr ⟨rfl, hxy⟩)
      · rintro x hx ⟨b, m⟩ hy
        obtain ⟨e, -, rfl⟩ := List.mem_map.mp hx
        obtain ⟨j, is, c, -, rfl, -⟩ := mem_outlineRow.mp hy
        exact List.cons_lt_cons_iff.mpr (.inl (by omega))

/-- **The order of the document.** An outline lists the nodes in it. -/
theorem outline_ordered (descend : Node → Bool) (n : Node) :
    (n.outline descend).Pairwise Precedes := by
  induction n using Node.induction with
  | step n ih =>
    rw [Node.outline_eq]
    split
    · refine List.pairwise_cons.mpr ⟨?_, outlineRow_ordered ih⟩
      rintro ⟨b, m⟩ hm
      obtain ⟨j, is, c, -, rfl, -⟩ := mem_outlineRow.mp hm
      exact List.nil_lt_cons _ _
    · exact List.pairwise_singleton _ _

/-- A walk that goes on below more nodes sees all that another does, in the same order. -/
theorem outline_sublist {descend' : Node → Bool} (h : ∀ n, descend n = true → descend' n = true)
    (n : Node) : (n.outline descend).Sublist (n.outline descend') := by
  induction n using Node.induction with
  | step n ih =>
    have hrow : ∀ (places : List (Option Node)) (i : Nat), (∀ c, some c ∈ places →
        (c.outline descend).Sublist (c.outline descend')) →
          (outlineRow descend i places).Sublist (outlineRow descend' i places) := by
      intro places
      induction places with
      | nil => exact fun i _ => .slnil
      | cons p rest ihrest =>
        intro i hc
        have hrest := ihrest (i + 1) fun c hm => hc c (List.mem_cons_of_mem _ hm)
        cases p with
        | none => exact hrest
        | some c => exact ((hc c List.mem_cons_self).map _).append hrest
    rw [Node.outline_eq, Node.outline_eq]
    refine .cons_cons _ ?_
    by_cases hd : descend n = true
    · rw [if_pos hd, if_pos (h n hd)]
      exact hrow n.places 0 ih
    · rw [if_neg hd]
      exact List.nil_sublist _

end Outline

/-! ## Walks gather what their outline contributes -/

theorem flatMap_outlineRow {descend : Node → Bool} (f : Node → List α) (i : Nat)
    (places : List (Option Node)) :
    (outlineRow descend i places).flatMap (fun e => f e.2) =
      (places.filterMap id).flatMap fun c => (c.outline descend).flatMap fun e => f e.2 := by
  induction places generalizing i with
  | nil => rfl
  | cons p rest ih =>
    cases p with
    | none => exact ih (i + 1)
    | some n =>
      rw [outlineRow, List.flatMap_append, ih, List.flatMap_map]
      rfl

theorem collect_eq_outline (give : Node → List α × Bool) (n : Node) :
    collect give n = (n.outline fun m => (give m).2).flatMap fun e => (give e.2).1 := by
  induction n using Node.induction with
  | step n ih =>
    rw [collect_eq, Node.outline_eq, List.flatMap_cons]
    congr 1
    split
    · rw [flatMap_outlineRow fun m => (give m).1]
      refine List.flatMap_congr fun c hc => ih c ?_
      simpa [Node.children] using hc
    · rfl

theorem flatMap_ite {β : Type} (pick : β → Prop) [DecidablePred pick] (f : β → List α)
    (es : List β) :
    (es.flatMap fun e => if pick e then f e else []) =
      (es.filter fun e => decide (pick e)).flatMap f := by
  induction es with
  | nil => rfl
  | cons e es ih => by_cases h : pick e <;> simp [h, ih]

/-- A walk that takes one thing from each of the nodes that `pick` chooses. -/
theorem collect_eq_map (pick : Node → Prop) [DecidablePred pick] (f : Node → α)
    (descend : Node → Bool) (n : Node) :
    collect (fun m => (if pick m then [f m] else [], descend m)) n =
      ((n.outline descend).filter fun e => decide (pick e.2)).map fun e => f e.2 := by
  rw [collect_eq_outline, List.map_eq_flatMap]
  exact flatMap_ite (fun e : List Nat × Node => pick e.2) (fun e => [f e.2]) _

/-- A walk that goes on everywhere gathers what the nodes of the tree contribute. -/
theorem mem_collect {give : Node → List α} {n : Node} {x : α} :
    x ∈ collect (fun m => (give m, true)) n ↔ ∃ a m, n.at? a = some m ∧ x ∈ give m := by
  rw [collect_eq_outline, List.mem_flatMap]
  constructor
  · rintro ⟨⟨a, m⟩, hm, hx⟩
    exact ⟨a, m, (mem_outline.mp hm).1, hx⟩
  · rintro ⟨a, m, hat, hx⟩
    exact ⟨(a, m), mem_outline.mpr ⟨hat, fun _ _ => rfl⟩, hx⟩

/-- A walk that counts nodes counts those that it could gather. -/
theorem walkStack_count (p : Node → Bool) (count : Nat) (row : List Node) :
    walkStack (fun count n => (if p n then count + 1 else count, true)) count row =
      count + (collectRow (fun n => (if p n then [n] else [], true)) row).length := by
  induction hs : rowSize row using Nat.strongRecOn generalizing row count with
  | _ size ih =>
    cases row with
    | nil => simp [walkStack]
    | cons n stack =>
      rw [rowSize_cons, n.size_eq_children] at hs
      have hdown := fun count =>
        ih (rowSize (n.children ++ stack)) (by rw [rowSize_append]; omega) count _ rfl
      rw [walkStack, collectRow_cons]
      dsimp only
      rw [if_pos rfl, if_pos rfl, hdown, List.length_append, ← Nat.add_assoc]
      congr 1
      split <;> rfl

theorem countNodes_eq (p : Node → Bool) (n : Node) :
    countNodes p n = ((n.outline fun _ => true).filter fun e => p e.2).length := by
  rw [countNodes, walk, walkStack_count, Nat.zero_add]
  change (collect (fun m => (if p m = true then [m] else [], true)) n).length = _
  rw [collect_eq_map (fun m => p m = true) (fun m => m), List.length_map]
  simp only [Bool.decide_eq_true]

/-- The walk below a node gathers what the nodes below it contribute. -/
theorem collectRow_children (give : Node → List α × Bool) (n : Node) :
    collectRow give n.children =
      (outlineRow (fun m => (give m).2) 0 n.places).flatMap fun e => (give e.2).1 := by
  rw [collectRow_eq_flatMap, flatMap_outlineRow fun m => (give m).1]
  exact List.flatMap_congr fun c _ => collect_eq_outline give c

/-! ## First occurrences -/

theorem eraseDups_concat [BEq α] [LawfulBEq α] (as : List α) (a : α) :
    (as ++ [a]).eraseDups = if as.contains a then as.eraseDups else as.eraseDups ++ [a] := by
  rw [List.eraseDups_append]
  by_cases h : a ∈ as <;> simp [List.removeAll, List.eraseDups_cons, h]

theorem firstSeen_eq_eraseDups [BEq α] [LawfulBEq α] (as : List α) :
    firstSeen as = as.eraseDups := by
  induction as using List.reverseRecOn with
  | nil => rfl
  | append_singleton as a ih =>
    have hseen : as.eraseDups.contains a = as.contains a := by
      rw [Bool.eq_iff_iff, List.contains_iff_mem, List.contains_iff_mem, List.mem_eraseDups]
    have hstep : firstSeen (as ++ [a]) =
        if (firstSeen as).contains a then firstSeen as else firstSeen as ++ [a] := by
      rw [firstSeen, List.foldl_append]
      rfl
    rw [hstep, ih, hseen, eraseDups_concat]

theorem mem_firstSeen [BEq α] [LawfulBEq α] {as : List α} {x : α} : x ∈ firstSeen as ↔ x ∈ as := by
  rw [firstSeen_eq_eraseDups, List.mem_eraseDups]

end ClassCohesion.Syntax
