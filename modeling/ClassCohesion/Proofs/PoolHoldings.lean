import Mathlib.Data.List.Basic
import ClassCohesion.Proofs.PoolOrder

/-!
# What a pool holds

A tree is open from its opening until its release. `openAfter` follows the open trees along a trace;
a trace is careful if nothing but an open tree is read or released, and no more trees are open than
there are workers (`Careful`).

A pool is careful because every open tree is in the hands of a busy worker, and the other way round
(`Manned`). `Manned.taken` and `Manned.answered` say what a move keeps, `run_manned` what follows for
a run.
-/

namespace ClassCohesion.Pool

variable {σ β α : Type} {job : Job β α} {world : World σ β}

/-! ## Trees along a trace -/

/-- The tree that an event says is opened, after its file. -/
def openedOf : Event → Option (String × Nat)
  | .opened tree path => some (path, tree)
  | _ => none

/-- The tree that an event says is released. -/
def releasedOf : Event → Option Nat
  | .released tree => some tree
  | _ => none

/-- The trees that are open after an event. -/
def Event.leaves (held : List Nat) : Event → List Nat
  | .opened tree _ => held ++ [tree]
  | .released tree => held.erase tree
  | _ => held

/-- The trees that are open after some events. -/
def openAfter (held : List Nat) (events : List Event) : List Nat := events.foldl Event.leaves held

/-- Whether an event can be while some trees are open. -/
def Event.Allowed (held : List Nat) : Event → Prop
  | .read tree => tree ∈ held
  | .released tree => tree ∈ held
  | _ => True

/-- Nothing but an open tree is read or released, and at every moment no more trees are open than the
given number. -/
def Careful (width : Nat) : List Nat → List Event → Prop
  | _, [] => True
  | held, e :: events =>
    e.Allowed held ∧ (e.leaves held).length ≤ width ∧ Careful width (e.leaves held) events

section Trace

variable {width : Nat} {held : List Nat} {as bs events : List Event}

@[simp]
theorem openAfter_nil (held : List Nat) : openAfter held [] = held := rfl

@[simp]
theorem openAfter_cons (held : List Nat) (e : Event) (events : List Event) :
    openAfter held (e :: events) = openAfter (e.leaves held) events := rfl

@[simp]
theorem openAfter_append (held : List Nat) (as bs : List Event) :
    openAfter held (as ++ bs) = openAfter (openAfter held as) bs := List.foldl_append

theorem careful_append :
    Careful width held (as ++ bs) ↔
      Careful width held as ∧ Careful width (openAfter held as) bs := by
  induction as generalizing held with
  | nil => exact (true_and _).symm.to_iff
  | cons e as ih => simp only [List.cons_append, Careful, ih, openAfter_cons, and_assoc]

/-- Whether an event is about a tree. -/
def Event.isOfTree : Event → Bool
  | .opened .. => true
  | .read _ => true
  | .released _ => true
  | _ => false

theorem Event.leaves_of_not_isOfTree {e : Event} (h : e.isOfTree = false) : e.leaves held = held := by
  cases e with
  | opened => cases h
  | released => cases h
  | _ => rfl

theorem openAfter_idle (h : ∀ e ∈ events, e.isOfTree = false) : openAfter held events = held := by
  induction events with
  | nil => rfl
  | cons e events ih =>
    rw [openAfter_cons, Event.leaves_of_not_isOfTree (h e List.mem_cons_self)]
    exact ih fun e he => h e (List.mem_cons_of_mem _ he)

theorem careful_idle (hlen : held.length ≤ width) (h : ∀ e ∈ events, e.isOfTree = false) :
    Careful width held events := by
  induction events with
  | nil => trivial
  | cons e events ih =>
    have he := h e List.mem_cons_self
    rw [Careful, Event.leaves_of_not_isOfTree he]
    refine ⟨?_, hlen, ih fun e he => h e (List.mem_cons_of_mem _ he)⟩
    cases e with
    | read => cases he
    | released => cases he
    | _ => trivial

theorem isOfTree_news {e : Event} (h : e.isNews) : e.isOfTree = false := by
  cases e with
  | opened => cases h
  | read => cases h
  | released => cases h
  | _ => rfl

/-- What has been opened has been released or is open. -/
theorem opened_perm (h : Careful width held events) :
    (held ++ (events.filterMap openedOf).map Prod.snd).Perm
      (events.filterMap releasedOf ++ openAfter held events) := by
  induction events generalizing held with
  | nil => exact .of_eq (List.append_nil _)
  | cons e events ih =>
    obtain ⟨hallowed, -, hrest⟩ := h
    have hperm := ih hrest
    rw [openAfter_cons]
    cases e with
    | opened tree path => exact (List.Perm.of_eq (List.append_cons _ _ _)).trans hperm
    | released tree =>
      have hopen : held.Perm (tree :: held.erase tree) := List.perm_cons_erase hallowed
      exact (hopen.append_right _).trans (hperm.cons tree)
    | _ => exact hperm

/-- The moments of a careful trace. -/
theorem Careful.of_prefix (h : Careful width held events) (hpre : as <+: events) :
    Careful width held as := by
  obtain ⟨rest, rfl⟩ := hpre
  exact (careful_append.mp h).1

theorem Careful.length_le (h : Careful width held events) (hlen : held.length ≤ width) :
    (openAfter held events).length ≤ width := by
  induction events generalizing held with
  | nil => exact hlen
  | cons e events ih => exact ih h.2.2 h.2.1

theorem Careful.allowed (h : Careful width held events) {e : Event} (hpre : as ++ [e] <+: events) :
    e.Allowed (openAfter held as) :=
  (careful_append.mp (h.of_prefix hpre)).2.1

end Trace

/-! ## What a move keeps -/

/-- The tree in the hands of a worker. -/
def Pending.tree : Pending β α → Option Nat
  | ⟨_, .reading tree _⟩ => tree
  | ⟨_, .releasing tree _⟩ => tree
  | _ => none

/-- The trees in the hands of the workers of a pool. -/
def handled (pool : Pool β α) : List Nat := pool.pending.filterMap Pending.tree

/-- The open trees are those in the hands of the workers, of whom there are enough. -/
structure Manned (width : Nat) (pool : Pool β α) : Prop where
  careful : Careful width [] pool.trace
  held : (openAfter [] pool.trace).Perm pool.handled
  numbered : ∀ tree ∈ pool.handled, tree < pool.trees
  room : pool.pending.length ≤ width

namespace Manned

variable {width : Nat} {pool pool' : Pool β α} {events : List Event}

theorem fresh (width : Nat) (job : Job β α) (files : List String) :
    Manned width (Pool.fresh job files) where
  careful := trivial
  held := .nil
  numbered := by simp [handled, Pool.fresh]
  room := Nat.zero_le _

theorem length_le (h : Manned width pool) : (openAfter [] pool.trace).length ≤ width :=
  h.careful.length_le (Nat.zero_le _)

/-- Events that are not about trees, and workers without a tree, are no matter. -/
theorem idle (h : Manned width pool) (htrace : pool'.trace = pool.trace ++ events)
    (hidle : ∀ e ∈ events, e.isOfTree = false) (hhandled : pool'.handled.Perm pool.handled)
    (htrees : pool'.trees = pool.trees) (hroom : pool'.pending.length ≤ width) :
    Manned width pool' where
  careful := by
    rw [htrace]
    exact careful_append.mpr ⟨h.careful, careful_idle h.length_le hidle⟩
  held := by
    rw [htrace, openAfter_append, openAfter_idle hidle]
    exact h.held.trans hhandled.symm
  numbered := by
    intro tree htree
    rw [htrees]
    exact h.numbered tree (hhandled.mem_iff.mp htree)
  room := hroom

theorem record (h : Manned width pool) (path : String) (o : Except Thrown α) :
    Manned width (pool.record job path o) := by
  rw [record_eq]
  exact h.idle rfl (fun e he => isOfTree_news (isNews_recordEvents _ _ _ _ e he)) (.refl _) rfl h.room

theorem handled_ask (pool : Pool β α) (path : String) {stage : Stage β α}
    (hstage : Pending.tree ⟨path, stage⟩ = none) :
    (pool.ask path stage).handled = pool.handled := by
  simp [handled, ask, hstage]

theorem handled_leave {i : Nat} {q : Pending β α} (hq : pool.pending[i]? = some q) :
    pool.handled.Perm (q.tree.toList ++ (pool.leave i).handled) := by
  have hperm := (perm_cons_eraseIdx hq).filterMap Pending.tree
  rw [List.filterMap_cons] at hperm
  cases htree : q.tree <;> rw [htree] at hperm <;> exact hperm

theorem handled_turn {i : Nat} {q : Pending β α} (hq : pool.pending[i]? = some q) (path : String)
    (stage : Stage β α) :
    (pool.turn i path stage).handled.Perm
      ((Pending.tree ⟨path, stage⟩).toList ++ (pool.leave i).handled) := by
  have hperm := (perm_cons_set hq ⟨path, stage⟩).filterMap Pending.tree
  rw [List.filterMap_cons] at hperm
  cases htree : Pending.tree ⟨path, stage⟩ <;> rw [htree] at hperm <;> exact hperm

/-- A free worker takes a file. -/
theorem taken (h : Manned width pool) (hlt : pool.pending.length < width)
    (hm : Taken job pool pool') : Manned width pool' := by
  have hroom : pool.pending.length + 1 ≤ width := hlt
  cases hm with
  | @sizing path rest hw hl =>
    refine h.idle (List.append_nil _).symm (by simp) (.of_eq ?_) rfl (List.length_append ▸ hroom)
    exact handled_ask { pool with waiting := rest } path rfl
  | @working path rest hw hl hr =>
    refine h.idle rfl (by simp [Event.isOfTree]) (.of_eq ?_) rfl (List.length_append ▸ hroom)
    exact handled_ask { pool with waiting := rest } path rfl
  | @refused path rest t hw hl hr =>
    refine Manned.record ?_ path _
    exact h.idle rfl (by simp [Event.isOfTree]) (.refl _) rfl h.room

/-- A worker whose stage has no tree is left, or goes on without one. -/
theorem handled_leave_nil {i : Nat} {q : Pending β α} (hq : pool.pending[i]? = some q)
    (htree : q.tree = none) : (pool.leave i).handled.Perm pool.handled := by
  have hperm := handled_leave hq
  rw [htree] at hperm
  exact hperm.symm

theorem length_handled_le (pool : Pool β α) : pool.handled.length ≤ pool.pending.length :=
  List.length_filterMap_le _ _

theorem length_leave_le (h : Manned width pool) {i : Nat} {q : Pending β α}
    (hq : pool.pending[i]? = some q) : (pool.leave i).pending.length + 1 ≤ width := by
  have hlength := length_eraseIdx_pending hq
  exact Nat.le_trans (Nat.le_of_eq hlength) h.room

/-- The answer to a call is there, and what it holds is open. -/
theorem opened (h : Manned width pool) {i : Nat} {path : String} {v : β}
    (hq : pool.pending[i]? = some ⟨path, .working⟩) :
    Manned width
      (({ pool with trees := pool.trees + (pool.treeIn job v).toList.length }.note
        ((pool.treeIn job v).toList.map (Event.opened · path))).turn i path
          (.reading (pool.treeIn job v) v)) := by
  have hturn := handled_turn hq path (.reading (pool.treeIn job v) v)
  have hleave := handled_leave_nil hq rfl
  have hlength : (pool.pending.set i ⟨path, .reading (pool.treeIn job v) v⟩).length ≤ width :=
    Nat.le_trans (Nat.le_of_eq List.length_set) h.room
  cases htree : pool.treeIn job v with
  | none =>
    rw [htree] at hturn hlength
    exact h.idle rfl (by simp) (hturn.trans hleave) rfl hlength
  | some tree =>
    obtain rfl : tree = pool.trees := by
      unfold treeIn at htree
      split at htree <;> cases htree
      rfl
    rw [htree] at hturn hlength
    have hhandled : (openAfter [] pool.trace ++ [pool.trees]).Perm
        (pool.turn i path (.reading (some pool.trees) v)).handled :=
      (List.perm_append_singleton _ _).trans
        (((h.held.trans hleave.symm).cons _).trans hturn.symm)
    refine ⟨careful_append.mpr ⟨h.careful, trivial, ?_, trivial⟩, ?_, fun t ht => ?_, hlength⟩
    · have hle := length_handled_le (pool.turn i path (.reading (some pool.trees) v))
      rw [← hhandled.length_eq] at hle
      exact Nat.le_trans hle hlength
    · rw [turn, note, openAfter_append]
      exact hhandled
    · show t < pool.trees + 1
      rcases List.mem_append.mp (hhandled.mem_iff.mpr ht) with ht | ht
      · exact Nat.lt_succ_of_lt (h.numbered t (h.held.mem_iff.mp ht))
      · rw [List.mem_singleton] at ht
        omega

/-- A worker reads the tree in its hands. -/
theorem read (h : Manned width pool) {i : Nat} {path : String} {tree : Option Nat} {v : β}
    (hq : pool.pending[i]? = some ⟨path, .reading tree v⟩) (o : Except Thrown α) :
    Manned width ((pool.note (tree.toList.map Event.read)).turn i path (.releasing tree o)) := by
  have hsame : (pool.turn i path (.releasing tree o)).handled.Perm pool.handled :=
    (handled_turn hq path (.releasing tree o)).trans (handled_leave hq).symm
  have hlength : (pool.pending.set i ⟨path, .releasing tree o⟩).length ≤ width :=
    Nat.le_trans (Nat.le_of_eq List.length_set) h.room
  cases tree with
  | none => exact h.idle rfl (by simp) hsame rfl hlength
  | some tree =>
    have hmem : tree ∈ openAfter [] pool.trace :=
      h.held.mem_iff.mpr (List.mem_filterMap.mpr ⟨_, List.mem_of_getElem? hq, rfl⟩)
    refine ⟨careful_append.mpr ⟨h.careful, hmem, h.length_le, trivial⟩, ?_, fun t ht => ?_, hlength⟩
    · rw [turn, note, openAfter_append]
      exact h.held.trans hsame.symm
    · exact h.numbered t (hsame.mem_iff.mp ht)

/-- A worker releases the tree in its hands. -/
theorem release (h : Manned width pool) {i : Nat} {path : String} {tree : Option Nat}
    {o : Except Thrown α} (hq : pool.pending[i]? = some ⟨path, .releasing tree o⟩) :
    Manned width ((pool.leave i).note (tree.toList.map Event.released ++ [.settled path])) := by
  have hleave := handled_leave hq
  have hlength := Nat.le_of_succ_le (h.length_leave_le hq)
  cases tree with
  | none => exact h.idle rfl (by simp [Event.isOfTree]) hleave.symm rfl hlength
  | some tree =>
    have hmem : tree ∈ openAfter [] pool.trace :=
      h.held.mem_iff.mpr (List.mem_filterMap.mpr ⟨_, List.mem_of_getElem? hq, rfl⟩)
    have hopen : ((openAfter [] pool.trace).erase tree).Perm (pool.leave i).handled :=
      List.Perm.cons_inv ((List.perm_cons_erase hmem).symm.trans (h.held.trans hleave))
    have hless : ((openAfter [] pool.trace).erase tree).length ≤ width :=
      Nat.le_trans List.length_erase_le h.length_le
    refine ⟨careful_append.mpr ⟨h.careful, hmem, hless, trivial, hless, trivial⟩, ?_, fun t ht => ?_,
      hlength⟩
    · rw [note, openAfter_append]
      exact hopen
    · exact h.numbered t (hleave.mem_iff.mpr (List.mem_append_right _ ht))

/-- A worker goes on. -/
theorem answered {st st' : σ × Pool β α} (h : Manned width st.2)
    (hm : Answered job world st st') : Manned width st'.2 := by
  cases hm with
  | @passed s pool i path n hq ha hn hr =>
    have hask := handled_ask (pool.leave i) path (show Pending.tree ⟨path, .working⟩ = none from rfl)
    refine h.idle rfl (by simp [Event.isOfTree]) ?_ rfl (List.length_append ▸ h.length_leave_le hq)
    exact (List.Perm.of_eq hask).trans (handled_leave_nil hq rfl)
  | opened hq ha => exact h.opened hq
  | read hq => exact h.read hq _
  | @closed s s' pool i q events o hq hc =>
    refine Manned.record ?_ q.path o
    have hlength := Nat.le_of_succ_le (h.length_leave_le hq)
    cases hc with
    | released => exact h.release hq
    | _ => exact h.idle rfl (by simp [Event.isOfTree]) (handled_leave_nil hq rfl) rfl hlength

end Manned

/-! ## Runs -/

/-- **What a run holds.** At every moment of it, the open trees are in the hands of the workers. -/
theorem run_manned (job : Job β α) (world : World σ β) (concurrency : Int)
    (files : List String) (choices : List Nat) (s : σ) :
    Manned (max 1 concurrency).toNat (run job world concurrency files choices s).2 := by
  have htaken (pool pool' : Pool β α) (h : Manned (max 1 concurrency).toNat pool)
      (hlt : pool.pending.length < (max 1 concurrency).toNat)
      (hm : Taken job pool pool') : Manned (max 1 concurrency).toNat pool' := h.taken hlt hm
  have hlaunch : Manned (max 1 concurrency).toNat (launch job concurrency files) :=
    launch_induction htaken (.fresh _ job files) (Nat.min_le_right _ _)
  have hall : Manned (max 1 concurrency).toNat
      (settleAll job world (s, launch job concurrency files) choices).2 :=
    settleAll_induction htaken (fun _ _ h hm => h.answered hm) (fun _ h => h.room) choices _ hlaunch
  exact hall.idle rfl (fun e he => isOfTree_news (isNews_finishEvents _ _ _ e he)) (.refl _) rfl
    hall.room

/-- At the end of an order every tree is released. -/
theorem Order.openAfter_eq_nil {concurrency : Int} {files : List String} {choices : List Nat} {s : σ}
    (ho : Order job world (s, launch job concurrency files) choices) :
    openAfter [] (run job world concurrency files choices s).2.trace = [] := by
  have hheld := (run_manned job world concurrency files choices s).held
  have hnone : (run job world concurrency files choices s).2.handled = [] := by
    show List.filterMap _ (settleAll job world _ choices).2.pending = []
    rw [ho.pending_eq_nil]
    rfl
  rw [hnone] at hheld
  exact hheld.eq_nil

end ClassCohesion.Pool
