import Mathlib.Data.List.GetD
import Mathlib.Data.List.Nodup
import Mathlib.Logic.Relation
import Mathlib.SetTheory.Cardinal.Finite
import ClassCohesion.Metrics.Cohesion

/-!
# Methods that hang together

Two methods are joined when they use a field in common. They hang together when a chain of joined
methods leads from one to the other, which is an equivalence of the positions in a list of methods
(`hangTogether`). The lack of cohesion is the number of its classes.

- `mem_neighbours`: the neighbours of a position are the others that it is joined to.
- `Search.Frontier`: what a search keeps. Only the positions on its stack may have neighbours that
  it has not reached.
- `Search.Frontier.next`, `Search.Frontier.finish`: one position is taken from the stack, and the
  search goes on to its end.
- `finish_reached_iff`: so a search reaches what is linked to its start.
- `Explored.searchFrom`, `exists_grouping`: what one search adds, and what all of them come to.
- `Grouping.card`: there are as many groups as classes.
-/

namespace ClassCohesion.Metrics

open Relation (ReflTransGen)

variable {methods : List (List String)} {used : List String} {i j : Nat}

/-! ## Joined methods -/

theorem shareField_iff {a b : List String} :
    shareField a b = true ↔ ∃ field, field ∈ a ∧ field ∈ b := by
  unfold shareField
  split
  · simp
  · simp [and_comm]

/-- The methods at two positions use a field in common. -/
def Joined (methods : List (List String)) (i j : Nat) : Prop :=
  ∃ field, field ∈ methods.getD i [] ∧ field ∈ methods.getD j []

theorem shareField_iff_joined :
    shareField (methods.getD i []) (methods.getD j []) = true ↔ Joined methods i j :=
  shareField_iff

namespace Joined

theorem symm (h : Joined methods i j) : Joined methods j i := by
  obtain ⟨field, hi, hj⟩ := h
  exact ⟨field, hj, hi⟩

theorem lt_length (h : Joined methods i j) : j < methods.length := by
  obtain ⟨field, -, hj⟩ := h
  by_contra hn
  rw [List.getD_eq_default _ _ (Nat.le_of_not_lt hn)] at hj
  cases hj

end Joined

theorem linked_symm (h : ReflTransGen (Joined methods) i j) :
    ReflTransGen (Joined methods) j i := by
  induction h with
  | refl => exact .refl
  | tail _ hstep ih => exact .head hstep.symm ih

/-! ## Neighbours -/

theorem mem_pairs {n : Nat} : (i, j) ∈ pairs n ↔ i < j ∧ j < n := by
  simp only [pairs, List.mem_flatMap, List.mem_range, List.mem_map, List.mem_range'_1,
    Prod.mk.injEq]
  constructor
  · rintro ⟨a, ha, b, hb, rfl, rfl⟩
    omega
  · rintro ⟨hij, hj⟩
    exact ⟨i, by omega, j, by omega, rfl, rfl⟩

theorem length_addPair (methods : List (List String)) (found : List (List Nat)) (p : Nat × Nat) :
    (addPair methods found p).length = found.length := by
  obtain ⟨i, j⟩ := p
  simp only [addPair]
  split
  · rw [List.length_modify, List.length_modify]
  · rfl

theorem mem_modify {found : List (List Nat)} (hi : i < found.length) {a b : Nat} :
    b ∈ (found.modify i (· ++ [j])).getD a [] ↔ b ∈ found.getD a [] ∨ a = i ∧ b = j := by
  rw [List.getD_eq_getElem?_getD, List.getD_eq_getElem?_getD, List.getElem?_modify]
  by_cases hia : i = a
  · subst hia
    rw [List.getElem?_eq_getElem hi]
    simp
  · have hai : a ≠ i := Ne.symm hia
    cases found[a]? <;> simp [hia, hai]

/-- A pair that is compared adds what is joined. -/
theorem mem_addPair {found : List (List Nat)} (hfound : found.length = methods.length)
    (hp : (i, j) ∈ pairs methods.length) {a b : Nat} :
    b ∈ (addPair methods found (i, j)).getD a [] ↔
      b ∈ found.getD a [] ∨ ((a, b) = (i, j) ∨ (b, a) = (i, j)) ∧ Joined methods a b := by
  obtain ⟨hij, hj⟩ := mem_pairs.mp hp
  simp only [addPair]
  split
  · next hshare =>
    have hjoined := shareField_iff_joined.mp hshare
    rw [mem_modify (by rw [List.length_modify]; omega), mem_modify (by omega), or_assoc]
    refine or_congr_right ⟨?_, ?_⟩
    · rintro (⟨rfl, rfl⟩ | ⟨rfl, rfl⟩)
      · exact ⟨.inl rfl, hjoined⟩
      · exact ⟨.inr rfl, hjoined.symm⟩
    · rintro ⟨hab | hab, -⟩
      · cases hab
        exact .inl ⟨rfl, rfl⟩
      · cases hab
        exact .inr ⟨rfl, rfl⟩
  · next hshare =>
    rw [shareField_iff_joined] at hshare
    refine ⟨.inl, ?_⟩
    rintro (hold | ⟨hab | hab, hjoined⟩)
    · exact hold
    · cases hab
      exact absurd hjoined hshare
    · cases hab
      exact absurd hjoined.symm hshare

theorem mem_foldl_addPair {ps : List (Nat × Nat)} (hps : ∀ p ∈ ps, p ∈ pairs methods.length)
    {found : List (List Nat)} (hfound : found.length = methods.length) {a b : Nat} :
    b ∈ (ps.foldl (addPair methods) found).getD a [] ↔
      b ∈ found.getD a [] ∨ ((a, b) ∈ ps ∨ (b, a) ∈ ps) ∧ Joined methods a b := by
  induction ps generalizing found with
  | nil => simp
  | cons p ps ih =>
    rw [List.foldl_cons, ih (fun p hp => hps p (List.mem_cons_of_mem _ hp))
      ((length_addPair methods found p).trans hfound),
      mem_addPair hfound (hps p List.mem_cons_self), or_assoc, ← or_and_right, List.mem_cons,
      List.mem_cons, or_or_or_comm]

theorem length_neighbours (methods : List (List String)) :
    (neighbours methods).length = methods.length := by
  have hfold : ∀ (ps : List (Nat × Nat)) (found : List (List Nat)),
      (ps.foldl (addPair methods) found).length = found.length := by
    intro ps
    induction ps with
    | nil => exact fun _ => rfl
    | cons p ps ih => exact fun found => (ih _).trans (length_addPair methods found p)
  rw [neighbours, hfold, List.length_replicate]

/-- **Neighbours** are other positions that are joined. -/
theorem mem_neighbours : j ∈ (neighbours methods).getD i [] ↔ i ≠ j ∧ Joined methods i j := by
  rw [neighbours, mem_foldl_addPair (fun p hp => hp) List.length_replicate]
  have hnone : j ∉ (List.replicate methods.length ([] : List Nat)).getD i [] := by
    rw [List.getD_eq_getElem?_getD, List.getElem?_replicate]
    split <;> exact List.not_mem_nil
  rw [mem_pairs, mem_pairs, or_iff_right hnone]
  refine and_congr_left fun h => ?_
  have hi := h.symm.lt_length
  have hj := h.lt_length
  omega

/-! ## The search -/

/-- A position has been reached. -/
def Reached (reached : List Bool) (i : Nat) : Prop := reached[i]? = some true

theorem Reached.lt_length {reached : List Bool} (h : Reached reached i) : i < reached.length :=
  (List.getElem?_eq_some_iff.mp h).1

theorem getElem?_eq_false {reached : List Bool} (hi : i < reached.length) :
    reached[i]? = some false ↔ ¬Reached reached i := by
  rw [Reached, List.getElem?_eq_getElem hi]
  simp

theorem reached_set {reached : List Bool} (hj : j < reached.length) :
    Reached (reached.set j true) i ↔ Reached reached i ∨ i = j := by
  unfold Reached
  by_cases hij : i = j
  · subst hij
    simp [hj]
  · rw [List.getElem?_set_ne (Ne.symm hij), or_iff_left hij]

namespace Search

/-- What a search comes to by reaching positions: those that are new to it go on the stack. -/
structure Reaches (search : Search) (positions : List Nat) (search' : Search) : Prop where
  length : search'.reached.length = search.reached.length
  reached : ∀ i, Reached search'.reached i ↔ Reached search.reached i ∨ i ∈ positions
  new : ∀ i, Reached search'.reached i → Reached search.reached i ∨ i ∈ search'.stack
  kept : ∀ i ∈ search.stack, i ∈ search'.stack
  stack : ∀ i ∈ search'.stack, i ∈ search.stack ∨ i ∈ positions

variable {search : Search}

theorem reach_reaches (hj : j < search.reached.length) : search.Reaches [j] (search.reach j) := by
  unfold reach
  split
  · refine ⟨List.length_set, fun i => ?_, fun i hi => ?_, fun i hi => ?_, fun i hi => ?_⟩
    · rw [reached_set hj, List.mem_singleton]
    · exact ((reached_set hj).mp hi).imp id fun hij => List.mem_cons.mpr (.inl hij)
    · exact List.mem_cons_of_mem _ hi
    · exact (List.mem_cons.mp hi).symm.imp id List.mem_singleton.mpr
  · next h =>
    rw [getElem?_eq_false hj, not_not] at h
    refine ⟨rfl, fun i => ⟨.inl, ?_⟩, fun i => .inl, fun i hi => hi, fun i => .inl⟩
    rintro (hi | hi)
    · exact hi
    · exact List.mem_singleton.mp hi ▸ h

theorem foldl_reaches {positions : List Nat} (hlt : ∀ j ∈ positions, j < search.reached.length) :
    search.Reaches positions (positions.foldl reach search) := by
  induction positions generalizing search with
  | nil => exact ⟨rfl, fun i => by simp, fun i => .inl, fun i hi => hi, fun i => .inl⟩
  | cons j positions ih =>
    have hone : search.Reaches [j] (search.reach j) := reach_reaches (hlt j List.mem_cons_self)
    have hrest : (search.reach j).Reaches positions (positions.foldl reach (search.reach j)) :=
      ih fun k hk => hone.length ▸ hlt k (List.mem_cons_of_mem _ hk)
    rw [List.foldl_cons]
    refine ⟨hrest.length.trans hone.length, fun i => ?_, fun i hi => ?_, fun i hi => ?_,
      fun i hi => ?_⟩
    · rw [hrest.reached, hone.reached, or_assoc, List.mem_singleton, List.mem_cons]
    · rcases hrest.new i hi with hi | hi
      · exact (hone.new i hi).imp id (hrest.kept i)
      · exact .inr hi
    · exact hrest.kept i (hone.kept i hi)
    · rcases hrest.stack i hi with hi | hi
      · exact (hone.stack i hi).imp id fun hi => List.mem_cons.mpr (.inl (List.mem_singleton.mp hi))
      · exact .inr (List.mem_cons_of_mem _ hi)

/-- What a search from a position keeps. It reaches what was reached before and what is linked to
its start, and only what is on the stack may be joined to something that it has not reached. -/
structure Frontier (methods : List (List String)) (before : Nat → Prop) (start : Nat)
    (search : Search) : Prop where
  length : search.reached.length = methods.length
  linked : ∀ i, Reached search.reached i → before i ∨ ReflTransGen (Joined methods) start i
  stack : ∀ i ∈ search.stack, Reached search.reached i
  closed : ∀ i, Reached search.reached i → i ∈ search.stack ∨
    ∀ j, Joined methods i j → Reached search.reached j

namespace Frontier

variable {before : Nat → Prop} {start : Nat}

theorem reaches {reached : List Bool} {stack : List Nat}
    (h : Frontier methods before start ⟨reached, i :: stack⟩) :
    (Search.mk reached stack).Reaches ((neighbours methods).getD i [])
      (((neighbours methods).getD i []).foldl reach ⟨reached, stack⟩) := by
  refine foldl_reaches fun j hj => ?_
  exact h.length ▸ (mem_neighbours.mp hj).2.lt_length

/-- **One step.** The neighbours of the position on top of the stack are reached. -/
theorem next (hbefore : ∀ i j, before i → Joined methods i j → before j) {reached : List Bool}
    {stack : List Nat} (h : Frontier methods before start ⟨reached, i :: stack⟩) :
    Frontier methods before start
      (((neighbours methods).getD i []).foldl reach ⟨reached, stack⟩) := by
  have hstep := h.reaches
  have htop : Reached reached i := h.stack i List.mem_cons_self
  have hself : ∀ j, Joined methods i j → Reached reached j ∨ j ∈ (neighbours methods).getD i [] := by
    intro j hj
    by_cases hij : i = j
    · exact .inl (hij ▸ htop)
    · exact .inr (mem_neighbours.mpr ⟨hij, hj⟩)
  refine ⟨hstep.length.trans h.length, fun k hk => ?_, fun k hk => ?_, fun k hk => ?_⟩
  · rcases (hstep.reached k).mp hk with hk | hk
    · exact h.linked k hk
    · have hjoined := (mem_neighbours.mp hk).2
      exact (h.linked i htop).imp (hbefore i k · hjoined) (·.tail hjoined)
  · rw [hstep.reached]
    exact (hstep.stack k hk).imp (fun hk => h.stack k (List.mem_cons_of_mem _ hk)) id
  · rcases hstep.new k hk with hold | hnew
    · rcases h.closed k hold with hk | hk
      · rcases List.mem_cons.mp hk with rfl | hk
        · exact .inr fun j hj => (hstep.reached j).mpr (hself j hj)
        · exact .inl (hstep.kept k hk)
      · exact .inr fun j hj => (hstep.reached j).mpr (.inl (hk j hj))
    · exact .inl hnew

/-- **The whole search.** At its end nothing is joined to what it has reached but that itself. -/
theorem finish (hbefore : ∀ i j, before i → Joined methods i j → before j) {search : Search}
    (h : Frontier methods before start search) :
    Frontier methods before start ⟨search.finish (neighbours methods), []⟩ ∧
      ∀ i, Reached search.reached i → Reached (search.finish (neighbours methods)) i := by
  fun_induction search.finish (neighbours methods) with
  | case1 reached => exact ⟨h, fun i hi => hi⟩
  | case2 reached i stack ih =>
    obtain ⟨hend, hmore⟩ := ih (h.next hbefore)
    exact ⟨hend, fun k hk => hmore k ((h.reaches.reached k).mpr (.inl hk))⟩

end Frontier

end Search

/-- **A search reaches what is linked to its start**, if what was reached before is closed. -/
theorem finish_reached_iff {reached : List Bool} (hlength : reached.length = methods.length)
    (hclosed : ∀ i j, Reached reached i → Joined methods i j → Reached reached j)
    {start : Nat} (hstart : start < methods.length) :
    ((Search.mk (reached.set start true) [start]).finish (neighbours methods)).length =
        methods.length ∧
      ∀ i, Reached ((Search.mk (reached.set start true) [start]).finish (neighbours methods)) i ↔
        Reached reached i ∨ ReflTransGen (Joined methods) start i := by
  have hset : ∀ i, Reached (reached.set start true) i ↔ Reached reached i ∨ i = start :=
    fun i => reached_set (hlength ▸ hstart)
  have hbegin : Search.Frontier methods (Reached reached) start
      ⟨reached.set start true, [start]⟩ := by
    refine ⟨List.length_set.trans hlength, fun i hi => ?_, fun i hi => ?_, fun i hi => ?_⟩
    · rcases (hset i).mp hi with hi | rfl
      · exact .inl hi
      · exact .inr .refl
    · exact (hset i).mpr (.inr (List.mem_singleton.mp hi))
    · rcases (hset i).mp hi with hi | rfl
      · exact .inr fun j hj => (hset j).mpr (.inl (hclosed i j hi hj))
      · exact .inl List.mem_cons_self
  obtain ⟨hend, hmore⟩ := hbegin.finish hclosed
  refine ⟨hend.length, fun i => ⟨hend.linked i, ?_⟩⟩
  rintro (hi | hlink)
  · exact hmore i ((hset i).mpr (.inl hi))
  · induction hlink with
    | refl => exact hmore start ((hset start).mpr (.inr rfl))
    | tail _ hjoined ih => exact (hend.closed _ ih).elim nofun fun h => h _ hjoined

/-! ## Groups of positions -/

/-- Lists of positions that share out the positions of a list of methods: those in one list are
linked, and nothing outside of it is joined to them. -/
structure Grouping (methods : List (List String)) (groups : List (List Nat)) : Prop where
  positions : groups.flatten.Perm (List.range methods.length)
  inhabited : ∀ g ∈ groups, g ≠ []
  linked : ∀ g ∈ groups, ∀ i ∈ g, ∀ j ∈ g, ReflTransGen (Joined methods) i j
  closed : ∀ g ∈ groups, ∀ i ∈ g, ∀ j, Joined methods i j → j ∈ g

namespace Grouping

variable {groups : List (List Nat)} {g : List Nat}

theorem lt_length (h : Grouping methods groups) (hg : g ∈ groups) (hi : i ∈ g) :
    i < methods.length :=
  List.mem_range.mp (h.positions.mem_iff.mp (List.mem_flatten.mpr ⟨g, hg, hi⟩))

theorem exists_mem (h : Grouping methods groups) (hi : i < methods.length) :
    ∃ g ∈ groups, i ∈ g :=
  List.mem_flatten.mp (h.positions.mem_iff.mpr (List.mem_range.mpr hi))

/-- A group holds what is linked to one of its positions. -/
theorem mem_iff (h : Grouping methods groups) (hg : g ∈ groups) (hi : i ∈ g) :
    j ∈ g ↔ ReflTransGen (Joined methods) i j := by
  constructor
  · exact h.linked g hg i hi j
  · intro hlink
    induction hlink with
    | refl => exact hi
    | tail _ hstep ih => exact h.closed g hg _ ih _ hstep

end Grouping

/-! ## The groups of the searches -/

/-- What has been reached is shared out over groups, one for each search that was counted. -/
structure Explored (methods : List (List String)) (reached : List Bool) (groups : List (List Nat)) :
    Prop where
  length : reached.length = methods.length
  reached_iff : ∀ i, Reached reached i ↔ i ∈ groups.flatten
  nodup : groups.flatten.Nodup
  inhabited : ∀ g ∈ groups, g ≠ []
  linked : ∀ g ∈ groups, ∀ i ∈ g, ∀ j ∈ g, ReflTransGen (Joined methods) i j
  closed : ∀ g ∈ groups, ∀ i ∈ g, ∀ j, Joined methods i j → j ∈ g

namespace Explored

variable {reached : List Bool} {groups : List (List Nat)}

theorem reached_of_joined (h : Explored methods reached groups) (hi : Reached reached i)
    (hj : Joined methods i j) : Reached reached j := by
  obtain ⟨g, hg, hi⟩ := List.mem_flatten.mp ((h.reached_iff i).mp hi)
  exact (h.reached_iff j).mpr (List.mem_flatten.mpr ⟨g, hg, h.closed g hg i hi j hj⟩)

theorem reached_of_linked (h : Explored methods reached groups) (hi : Reached reached i)
    (hj : ReflTransGen (Joined methods) i j) : Reached reached j := by
  induction hj with
  | refl => exact hi
  | tail _ hstep ih => exact h.reached_of_joined ih hstep

/-- What is linked to a position that has not been reached is a group of its own. -/
theorem add (h : Explored methods reached groups) {start : Nat} (hnew : ¬Reached reached start)
    {found : List Bool} (hlength : found.length = methods.length)
    (hfound : ∀ i, Reached found i ↔ Reached reached i ∨ ReflTransGen (Joined methods) start i) :
    ∃ group, Explored methods found (group :: groups) := by
  let group := (List.range methods.length).filter fun i =>
    found[i]? = some true ∧ reached[i]? ≠ some true
  have hgroup : ∀ i, i ∈ group ↔ ReflTransGen (Joined methods) start i := by
    intro i
    rw [List.mem_filter, List.mem_range, decide_eq_true_iff]
    constructor
    · rintro ⟨-, hi, hold⟩
      exact ((hfound i).mp hi).resolve_left hold
    · intro hi
      have hreached := (hfound i).mpr (.inr hi)
      refine ⟨hlength ▸ hreached.lt_length, hreached, fun hold => hnew ?_⟩
      exact h.reached_of_linked hold (linked_symm hi)
  have hapart : ∀ i ∈ group, i ∉ groups.flatten := by
    intro i hi hold
    exact hnew (h.reached_of_linked ((h.reached_iff i).mpr hold) (linked_symm ((hgroup i).mp hi)))
  refine ⟨group, hlength, fun i => ?_, ?_, ?_, ?_, ?_⟩
  · rw [hfound, List.flatten_cons, List.mem_append, hgroup, h.reached_iff, or_comm]
  · rw [List.flatten_cons]
    exact List.nodup_append'.mpr ⟨List.nodup_range.filter _, h.nodup, hapart⟩
  · intro g hg
    rcases List.mem_cons.mp hg with rfl | hg
    · exact List.ne_nil_of_mem ((hgroup start).mpr .refl)
    · exact h.inhabited g hg
  · intro g hg i hi j hj
    rcases List.mem_cons.mp hg with rfl | hg
    · exact (linked_symm ((hgroup i).mp hi)).trans ((hgroup j).mp hj)
    · exact h.linked g hg i hi j hj
  · intro g hg i hi j hj
    rcases List.mem_cons.mp hg with rfl | hg
    · exact (hgroup j).mpr (((hgroup i).mp hi).tail hj)
    · exact h.closed g hg i hi j hj

/-- **One more start** is in a group already, or its search is counted and adds one. -/
theorem searchFrom (h : Explored methods reached groups) {start : Nat}
    (hlt : start < methods.length) :
    ∃ found groups', Metrics.searchFrom (neighbours methods) (reached, groups.length) start =
        (found, groups'.length) ∧ Explored methods found groups' ∧ Reached found start ∧
      ∀ i, Reached reached i → Reached found i := by
  have hfalse : reached[start]? = some false ↔ ¬Reached reached start :=
    getElem?_eq_false (h.length ▸ hlt)
  by_cases hold : Reached reached start
  · refine ⟨reached, groups, if_neg ?_, h, hold, fun i hi => hi⟩
    exact fun hnew => hfalse.mp hnew hold
  · obtain ⟨hlength, hfound⟩ := finish_reached_iff h.length (fun i j => h.reached_of_joined) hlt
    obtain ⟨group, hadd⟩ := h.add hold hlength hfound
    exact ⟨_, group :: groups, if_pos (hfalse.mpr hold), hadd, (hfound start).mpr (.inr .refl),
      fun i hi => (hfound i).mpr (.inl hi)⟩

/-- **All starts** are in a group in the end. -/
theorem foldl_searchFrom (h : Explored methods reached groups) {starts : List Nat}
    (hlt : ∀ start ∈ starts, start < methods.length) :
    ∃ found groups', starts.foldl (Metrics.searchFrom (neighbours methods))
        (reached, groups.length) = (found, groups'.length) ∧ Explored methods found groups' ∧
      ∀ i, Reached reached i ∨ i ∈ starts → Reached found i := by
  induction starts generalizing reached groups with
  | nil => exact ⟨reached, groups, rfl, h, fun i hi => hi.elim id nofun⟩
  | cons start starts ih =>
    obtain ⟨found, groups', heq, hnext, hstart, hkept⟩ := h.searchFrom (hlt start List.mem_cons_self)
    obtain ⟨last, all, hend, hlast, hreached⟩ :=
      ih hnext fun i hi => hlt i (List.mem_cons_of_mem _ hi)
    rw [List.foldl_cons, heq]
    refine ⟨last, all, hend, hlast, fun i hi => hreached i ?_⟩
    rcases hi with hi | hi
    · exact .inl (hkept i hi)
    · rcases List.mem_cons.mp hi with rfl | hi
      · exact .inl hstart
      · exact .inr hi

end Explored

/-- The searches that are counted share out the positions into groups. -/
theorem exists_grouping (methods : List (List String)) :
    ∃ groups, Grouping methods groups ∧ searches (neighbours methods) = groups.length := by
  have hnone : Explored methods (List.replicate methods.length false) [] := by
    refine ⟨List.length_replicate, fun i => ?_, List.nodup_nil, nofun, nofun, nofun⟩
    simp [Reached, List.getElem?_replicate]
  obtain ⟨found, groups, heq, h, hall⟩ := hnone.foldl_searchFrom fun i => List.mem_range.mp
  refine ⟨groups, ⟨?_, h.inhabited, h.linked, h.closed⟩, ?_⟩
  · refine (List.perm_ext_iff_of_nodup h.nodup List.nodup_range).mpr fun i => ?_
    rw [← h.reached_iff]
    exact ⟨fun hi => List.mem_range.mpr (h.length ▸ hi.lt_length), fun hi => hall i (.inr hi)⟩
  · rw [searches, length_neighbours]
    exact congrArg Prod.snd heq

/-! ## Classes of positions -/

/-- The methods at two positions of a list use a field in common. -/
def SharesField (methods : List (List String)) (i j : Fin methods.length) : Prop :=
  ∃ field, field ∈ methods.get i ∧ field ∈ methods.get j

theorem sharesField_iff {i j : Fin methods.length} :
    SharesField methods i j ↔ Joined methods i j := by
  unfold SharesField Joined
  rw [List.getD_eq_getElem _ _ i.isLt, List.getD_eq_getElem _ _ j.isLt]
  rfl

theorem reflTransGen_sharesField_iff {i j : Fin methods.length} :
    ReflTransGen (SharesField methods) i j ↔ ReflTransGen (Joined methods) i j := by
  constructor
  · exact fun h => h.lift Fin.val fun _ _ => sharesField_iff.mp
  · -- a chain of positions never leaves the list
    intro h
    suffices hchain : ∀ k : Nat, ReflTransGen (Joined methods) i k →
        ∃ hk : k < methods.length, ReflTransGen (SharesField methods) i ⟨k, hk⟩ by
      exact (hchain j h).2
    intro k hk
    induction hk with
    | refl => exact ⟨i.isLt, .refl⟩
    | tail _ hstep ih =>
      obtain ⟨hlt, hchain⟩ := ih
      exact ⟨hstep.lt_length, hchain.tail (sharesField_iff.mpr hstep)⟩

/-- Positions are equivalent if a chain of methods, each with a field in common with the next, leads
from one to the other. -/
def hangTogether (methods : List (List String)) : Setoid (Fin methods.length) where
  r := ReflTransGen (SharesField methods)
  iseqv :=
    { refl := fun _ => .refl
      symm := fun h => by
        rw [reflTransGen_sharesField_iff] at h ⊢
        exact linked_symm h
      trans := .trans }

/-- The number of classes of methods that hang together. -/
noncomputable def classCount (methods : List (List String)) : Nat :=
  Nat.card (Quotient (hangTogether methods))

/-- Each group is a class, and each class is a group. -/
theorem Grouping.exists_classOf {groups : List (List Nat)} (h : Grouping methods groups) :
    ∃ classOf : Fin groups.length → Quotient (hangTogether methods), Function.Bijective classOf ∧
      ∀ k i, classOf k = Quotient.mk _ i ↔ i.val ∈ groups.get k := by
  have hhead : ∀ k : Fin groups.length, ∃ i : Fin methods.length, i.val ∈ groups.get k := by
    intro k
    obtain ⟨i, hi⟩ := List.exists_mem_of_ne_nil _ (h.inhabited _ (List.get_mem groups k))
    exact ⟨⟨i, h.lt_length (List.get_mem groups k) hi⟩, hi⟩
  choose head hmem using hhead
  have hclass : ∀ k i, Quotient.mk (hangTogether methods) (head k) = Quotient.mk _ i ↔
      i.val ∈ groups.get k := by
    intro k i
    rw [h.mem_iff (List.get_mem groups k) (hmem k), ← reflTransGen_sharesField_iff]
    exact Quotient.eq
  refine ⟨fun k => Quotient.mk (hangTogether methods) (head k), ⟨?_, ?_⟩, hclass⟩
  · intro k l heq
    have hboth : (head l).val ∈ groups.get k := (hclass k (head l)).mp heq
    -- no position is in two groups
    have hnodup : groups.flatten.Nodup := h.positions.nodup_iff.mpr List.nodup_range
    have hdisjoint := List.pairwise_iff_get.mp (List.nodup_flatten.mp hnodup).2
    rcases lt_trichotomy k l with hlt | heq | hlt
    · exact absurd (hmem l) (hdisjoint k l hlt hboth)
    · exact heq
    · exact absurd hboth (hdisjoint l k hlt (hmem l))
  · intro q
    obtain ⟨i, rfl⟩ := Quotient.exists_rep q
    obtain ⟨g, hg, hi⟩ := h.exists_mem i.isLt
    obtain ⟨k, rfl⟩ := List.get_of_mem hg
    exact ⟨k, (hclass k i).mpr hi⟩

/-- **There are as many groups as classes.** -/
theorem Grouping.card {groups : List (List Nat)} (h : Grouping methods groups) :
    groups.length = classCount methods := by
  obtain ⟨classOf, hbij, -⟩ := h.exists_classOf
  rw [classCount, ← Nat.card_fin groups.length]
  exact Nat.card_eq_of_bijective classOf hbij

/-- The searches count the classes. -/
theorem searches_neighbours (methods : List (List String)) :
    searches (neighbours methods) = classCount methods := by
  obtain ⟨groups, h, hcount⟩ := exists_grouping methods
  rw [hcount, h.card]

theorem classCount_nil : classCount [] = 0 := (searches_neighbours []).symm

theorem classCount_pos (h : methods ≠ []) : 0 < classCount methods := by
  have : Nonempty (Quotient (hangTogether methods)) :=
    ⟨Quotient.mk _ ⟨0, List.length_pos_iff.mpr h⟩⟩
  exact Nat.card_pos

theorem classCount_le (methods : List (List String)) : classCount methods ≤ methods.length := by
  have hle := Nat.card_le_card_of_surjective (Quotient.mk (hangTogether methods))
    Quotient.mk_surjective
  rwa [Nat.card_fin] at hle

theorem lackOfCohesion_nil (fields : List String) : lackOfCohesion [] fields = 0 := rfl

/-- With a declared field, the lack of cohesion is counted by the searches. -/
theorem lackOfCohesion_of_fields {fields : List String} (hf : fields ≠ []) :
    lackOfCohesion methods fields = classCount methods := by
  unfold lackOfCohesion
  split
  · next hm =>
    rw [List.isEmpty_iff.mp hm, classCount_nil]
  · rw [if_neg (by simpa using hf), searches_neighbours]

/-- **The lack of cohesion** of a class with a declared field is the number of classes of methods
that hang together: at least one and at most the number of methods, and none without methods. -/
theorem lackOfCohesion_eq_card_classes (methods : List (List String)) (fields : List String)
    (hf : fields ≠ []) :
    lackOfCohesion methods fields = Nat.card (Quotient (hangTogether methods)) ∧
      (methods ≠ [] → 1 ≤ lackOfCohesion methods fields ∧
        lackOfCohesion methods fields ≤ methods.length) ∧
      (methods = [] → lackOfCohesion methods fields = 0) := by
  have hcount : lackOfCohesion methods fields = classCount methods := lackOfCohesion_of_fields hf
  refine ⟨hcount, fun hm => ?_, fun hm => ?_⟩
  · rw [hcount]
    exact ⟨classCount_pos hm, classCount_le methods⟩
  · rw [hm, lackOfCohesion_nil]

/-- A chain that its last method closes, two equal methods that use no field, and one that is alone
with a field that is not declared. -/
theorem lackOfCohesion_eq_card_classes_chain :
    ["a"] ≠ [] ∧
      lackOfCohesion [["a"], ["c"], [], ["z"], [], ["a", "b"], ["b", "c"]] ["a"] = 4 ∧
      Nat.card (Quotient (hangTogether [["a"], ["c"], [], ["z"], [], ["a", "b"], ["b", "c"]])) =
        4 := by
  have hcount : lackOfCohesion [["a"], ["c"], [], ["z"], [], ["a", "b"], ["b", "c"]] ["a"] = 4 := by
    decide +kernel
  have h := lackOfCohesion_eq_card_classes
    [["a"], ["c"], [], ["z"], [], ["a", "b"], ["b", "c"]] ["a"] (by decide)
  exact ⟨by decide, hcount, h.1.symm.trans hcount⟩

end ClassCohesion.Metrics
