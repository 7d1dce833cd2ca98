import Mathlib.Data.List.FinRange
import Mathlib.Data.List.InsertIdx
import Mathlib.Data.List.TakeDrop
import ClassCohesion.Proofs.PoolStarts

/-!
# The calls of a pool

A pool without a size limit starts one call for every position of its list. `Tracks` follows the
calls: which are in flight, which the world has answered, and which are over, with what came of them.
The results, the errors and what is told of outcomes are readings of the calls that are over, in the
order in which they ended. That order is the world's; the order in which calls are started is that of
the list.

The bound on the calls in flight is about the trace. At every point of it, the calls that have been
started are at most as many as those that have settled, and one for each worker (`Bounded`).

- `Tracks.move`, `settleAll_tracks`: what one move keeps, and so every run.
- `Within.taken`, `Within.answered`, `settleAll_within`: the bound, for a worker that takes a file, for
  one that goes on and for a run.
- `run_calls`: what both say of a run, while it goes on and when it is over.
-/

namespace ClassCohesion.Pool

open Relation (ReflTransGen)

variable {σ β α : Type} {job : Job β α} {world : World σ β}

/-- A job without a size limit whose progress is reported. -/
structure Job.Plain (job : Job β α) : Prop where
  unlimited : Number.le job.limit 0 = true
  reports : job.reports = true

/-! ## What the world answers -/

namespace World

/-- The answers of a world to calls for files, one after the other. -/
def replies (world : World σ β) : σ → List String → List (Except Thrown β)
  | _, [] => []
  | s, path :: paths => (world.value s path).1 :: world.replies (world.value s path).2 paths

/-- The world after these calls. -/
def called (world : World σ β) (s : σ) (paths : List String) : σ :=
  paths.foldl (fun s path => (world.value s path).2) s

theorem called_snoc (world : World σ β) (s : σ) (paths : List String) (path : String) :
    world.called s (paths ++ [path]) = (world.value (world.called s paths) path).2 :=
  List.foldl_append

theorem replies_snoc (world : World σ β) (s : σ) (paths : List String) (path : String) :
    world.replies s (paths ++ [path]) =
      world.replies s paths ++ [(world.value (world.called s paths) path).1] := by
  induction paths generalizing s with
  | nil => rfl
  | cons first paths ih =>
    rw [List.cons_append, replies, ih, replies]
    rfl

end World

/-! ## Calls -/

/-- A call for a position of the list, with what came of it. -/
abbrev Over (files : List String) (γ : Type) := Fin files.length × Except Thrown γ

def Over.file {γ : Type} {files : List String} (e : Over files γ) : String := files.get e.1

/-- The entry of a ledger that a call makes. -/
def Over.entry {γ : Type} {files : List String} (e : Over files γ) : String × Except Thrown γ :=
  (e.file, e.2)

/-- A call in flight, by its position and what its worker waits for. -/
abbrev Flying (files : List String) (β α : Type) := Fin files.length × Stage β α

section Calls

variable (job) (files : List String)

/-- Calls are started in the order of the list, and each position for which one has been is either
done with or in flight. -/
structure Flow (pool : Pool β α) (done : List (Fin files.length)) (flying : List (Flying files β α)) :
    Prop where
  started : pool.starts ++ pool.waiting = files
  positions : (done ++ flying.map Prod.fst).Perm
    ((List.finRange files.length).take pool.starts.length)
  pending : pool.pending = flying.map fun f => ⟨files.get f.1, f.2⟩
  accepted : ∀ f ∈ flying, job.refuse (files.get f.1) = none

/-- What a call in flight has to do with the answers of the world: it waits for one, or has one. -/
def Tells (heard : List (Over files β)) : Flying files β α → Prop
  | (_, .sizing) => False
  | (k, .working) => k ∉ heard.map Prod.fst
  | (k, .reading _ v) => (k, .ok v) ∈ heard
  | (k, .releasing _ o) => ∃ v, (k, .ok v) ∈ heard ∧ o = job.read (files.get k) v

/-- How a call came to its end: it was refused when it was started, or it is what an answer of the
world comes to. -/
inductive Came (heard : List (Over files β)) (e : Over files α) : Prop where
  | refused {t : Thrown} (hr : job.refuse e.file = some t) (he : e.2 = .error t)
  | heard {answer : Except Thrown β} (hr : job.refuse e.file = none)
      (ha : (e.1, answer) ∈ heard) (he : e.2 = answer.bind (job.read e.file))

/-- The answers of the world, in the order in which it gave them, are one for each call in flight that
has one and for each call that is over and was not refused. -/
structure Hears (world : World σ β) (start s : σ) (flying : List (Flying files β α))
    (ended : List (Over files α)) (heard : List (Over files β)) : Prop where
  replies : heard.map Prod.snd = world.replies start (heard.map Over.file)
  state : s = world.called start (heard.map Over.file)
  once : (heard.map Prod.fst).Nodup
  known : ∀ h ∈ heard, h.1 ∈ ended.map Prod.fst ++ flying.map Prod.fst
  tells : ∀ f ∈ flying, Tells job files heard f
  came : ∀ e ∈ ended, Came job files heard e

/-- The calls in flight, those that are over and the answers of the world account for the state of a
pool. -/
structure Tracks (world : World σ β) (start : σ) (st : σ × Pool β α)
    (flying : List (Flying files β α)) (ended : List (Over files α)) (heard : List (Over files β)) :
    Prop where
  flow : Flow job files st.2 (ended.map Prod.fst) flying
  hears : Hears job files world start st.1 flying ended heard
  ledger : Ledger job world files st.2 (ended.map Over.entry)

end Calls

/-! ## What a move keeps of the positions -/

section Positions

variable {files : List String} {flying : List (Flying files β α)} {i : Nat} {k : Fin files.length}
  {stage : Stage β α} (hk : flying[i]? = some (k, stage)) (done : List (Fin files.length))

include hk

theorem positions_turn (next : Stage β α) :
    (done ++ (flying.set i (k, next)).map Prod.fst).Perm (done ++ flying.map Prod.fst) := by
  have hturned := (perm_cons_set hk (k, next)).map Prod.fst
  have hsame := (perm_cons_eraseIdx hk).map Prod.fst
  exact (hturned.trans hsame.symm).append_left done

theorem positions_land :
    (done ++ [k] ++ (flying.eraseIdx i).map Prod.fst).Perm (done ++ flying.map Prod.fst) := by
  rw [List.append_assoc]
  exact ((perm_cons_eraseIdx hk).map Prod.fst).symm.append_left done

/-- The other calls in flight are for other positions. -/
theorem ne_of_mem_eraseIdx (hnd : (done ++ flying.map Prod.fst).Nodup) :
    ∀ f ∈ flying.eraseIdx i, f.1 ≠ k := by
  intro f hf hsame
  have hcons := ((perm_cons_eraseIdx hk).map Prod.fst).nodup_iff.mp (List.nodup_append.mp hnd).2.1
  have hmem : f.1 ∈ (flying.eraseIdx i).map Prod.fst := List.mem_map_of_mem hf
  rw [hsame] at hmem
  exact (List.nodup_cons.mp hcons).1 hmem

end Positions

namespace Flow

variable {files : List String} {pool : Pool β α} {done : List (Fin files.length)}
  {flying : List (Flying files β α)}

theorem nodup (h : Flow job files pool done flying) : (done ++ flying.map Prod.fst).Nodup :=
  h.positions.nodup_iff.mpr ((List.nodup_finRange _).sublist (List.take_sublist _ _))

/-- The next call is for the position after those that have been started. -/
theorem next (h : Flow job files pool done flying) {path : String} {rest : List String}
    (hw : pool.waiting = path :: rest) :
    ∃ k : Fin files.length, files.get k = path ∧ pool.starts ++ [path] ++ rest = files ∧
      (k :: (done ++ flying.map Prod.fst)).Perm
        ((List.finRange files.length).take (pool.starts.length + 1)) := by
  have hsplit : pool.starts ++ path :: rest = files := hw ▸ h.started
  have hlt : pool.starts.length < files.length := by
    rw [← hsplit, List.length_append, List.length_cons]
    omega
  refine ⟨⟨pool.starts.length, hlt⟩, ?_, ?_, ?_⟩
  · rw [List.get_eq_getElem]
    simp only [← hsplit, List.getElem_append_right (Nat.le_refl _), Nat.sub_self,
      List.getElem_cons_zero]
  · rw [List.append_assoc]
    exact hsplit
  · have hlt' : pool.starts.length < (List.finRange files.length).length := by
      rwa [List.length_finRange]
    rw [List.take_succ_eq_append_getElem hlt', List.getElem_finRange]
    exact (h.positions.cons _).trans (List.perm_append_singleton _ _).symm

/-- The position of the next call is none of those that have been started. -/
theorem not_mem_of_next {k : Fin files.length} {n : Nat}
    (h : (k :: (done ++ flying.map Prod.fst)).Perm ((List.finRange files.length).take n)) :
    k ∉ done ++ flying.map Prod.fst :=
  (List.nodup_cons.mp
    (h.nodup_iff.mpr ((List.nodup_finRange _).sublist (List.take_sublist _ _)))).1

/-- A call is started and is in flight. -/
theorem start (h : Flow job files pool done flying) {path : String} {rest : List String}
    (hw : pool.waiting = path :: rest) (hr : job.refuse path = none) :
    ∃ k, k ∉ done ++ flying.map Prod.fst ∧
      Flow job files (({ pool with waiting := rest }.note [.started path]).ask path .working)
        done (flying ++ [(k, .working)]) := by
  obtain ⟨k, rfl, hsplit, hperm⟩ := h.next hw
  refine ⟨k, not_mem_of_next hperm, ?_, ?_, ?_, ?_⟩
  · rw [starts_ask, starts_note]
    exact hsplit
  · rw [starts_ask, starts_note, List.length_append, List.map_append, ← List.append_assoc]
    exact (List.perm_append_singleton _ _).trans hperm
  · rw [List.map_append]
    exact congrArg (· ++ _) h.pending
  · intro f hf
    rcases List.mem_append.mp hf with hf | hf
    · exact h.accepted f hf
    · rw [List.mem_singleton] at hf
      exact hf ▸ hr

/-- A call is refused when it is started, and done with. -/
theorem refuse (h : Flow job files pool done flying) {path : String} {rest : List String}
    (hw : pool.waiting = path :: rest) (o : Except Thrown α) :
    ∃ k, files.get k = path ∧ Flow job files
      (({ pool with waiting := rest }.note [.started path, .settled path]).record job path o)
        (done ++ [k]) flying := by
  obtain ⟨k, rfl, hsplit, hperm⟩ := h.next hw
  refine ⟨k, rfl, ?_, ?_, ?_, h.accepted⟩
  · rw [starts_record, starts_note, record_waiting]
    exact hsplit
  · rw [starts_record, starts_note, List.length_append, List.append_assoc]
    exact List.perm_middle.trans hperm
  · rw [record_pending]
    exact h.pending

/-- The call that a busy worker is for. -/
theorem find (h : Flow job files pool done flying) {i : Nat} {q : Pending β α}
    (hq : pool.pending[i]? = some q) :
    ∃ k, flying[i]? = some (k, q.stage) ∧ files.get k = q.path ∧ job.refuse q.path = none := by
  rw [h.pending, List.getElem?_map, Option.map_eq_some_iff] at hq
  obtain ⟨⟨k, stage⟩, hk, rfl⟩ := hq
  exact ⟨k, hk, rfl, h.accepted _ (List.mem_of_getElem? hk)⟩

/-- A call in flight waits for something else. -/
theorem turn (h : Flow job files pool done flying) {i : Nat} {k : Fin files.length}
    {stage : Stage β α} (hk : flying[i]? = some (k, stage)) {pool' : Pool β α} (next : Stage β α)
    (hstarts : pool'.starts = pool.starts) (hwaiting : pool'.waiting = pool.waiting)
    (hpending : pool'.pending = pool.pending.set i ⟨files.get k, next⟩) :
    Flow job files pool' done (flying.set i (k, next)) := by
  refine ⟨?_, ?_, ?_, fun f hf => ?_⟩
  · rw [hstarts, hwaiting]
    exact h.started
  · rw [hstarts]
    exact (positions_turn hk done next).trans h.positions
  · rw [hpending, h.pending, List.map_set]
  · rcases List.mem_or_eq_of_mem_set hf with hf | rfl
    · exact h.accepted f hf
    · have hr := h.accepted _ (List.mem_of_getElem? hk)
      exact hr

/-- A call in flight is done with. -/
theorem land (h : Flow job files pool done flying) {i : Nat} {k : Fin files.length}
    {stage : Stage β α} (hk : flying[i]? = some (k, stage)) {pool' : Pool β α}
    (hstarts : pool'.starts = pool.starts) (hwaiting : pool'.waiting = pool.waiting)
    (hpending : pool'.pending = pool.pending.eraseIdx i) :
    Flow job files pool' (done ++ [k]) (flying.eraseIdx i) := by
  refine ⟨?_, ?_, ?_, fun f hf => h.accepted f (List.mem_of_mem_eraseIdx hf)⟩
  · rw [hstarts, hwaiting]
    exact h.started
  · rw [hstarts]
    exact (positions_land hk done).trans h.positions
  · rw [hpending, h.pending, List.eraseIdx_map]

end Flow

/-! ## What a move keeps of the answers -/

section Heard

variable {files : List String} {heard : List (Over files β)}

theorem Came.snoc {e : Over files α} (h : Came job files heard e) (x : Over files β) :
    Came job files (heard ++ [x]) e := by
  cases h with
  | refused hr he => exact .refused hr he
  | heard hr ha he => exact .heard hr (List.mem_append_left _ ha) he

/-- One more answer is no matter of the calls for other positions. -/
theorem Tells.snoc {f : Flying files β α} (h : Tells job files heard f) {x : Over files β}
    (hne : f.1 ≠ x.1) : Tells job files (heard ++ [x]) f := by
  obtain ⟨k, stage⟩ := f
  cases stage with
  | sizing => exact h
  | working =>
    show k ∉ (heard ++ [x]).map Prod.fst
    rw [List.map_append, List.mem_append, not_or]
    exact ⟨h, by simpa using hne⟩
  | reading tree v => exact List.mem_append_left _ h
  | releasing tree o =>
    obtain ⟨v, hv, ho⟩ := h
    exact ⟨v, List.mem_append_left _ hv, ho⟩

end Heard

namespace Hears

variable {files : List String} {start s : σ} {flying : List (Flying files β α)}
  {ended : List (Over files α)} {heard : List (Over files β)} {i : Nat} {k : Fin files.length}

/-- A call is started, for which there is no answer yet. -/
theorem start_call (h : Hears job files world start s flying ended heard)
    (hk : k ∉ ended.map Prod.fst ++ flying.map Prod.fst) :
    Hears job files world start s (flying ++ [(k, .working)]) ended heard where
  replies := h.replies
  state := h.state
  once := h.once
  known := by
    intro x hx
    rw [List.map_append, ← List.append_assoc]
    exact List.mem_append_left _ (h.known x hx)
  tells := by
    intro f hf
    rcases List.mem_append.mp hf with hf | hf
    · exact h.tells f hf
    · rw [List.mem_singleton] at hf
      subst hf
      intro hmem
      obtain ⟨x, hx, rfl⟩ := List.mem_map.mp hmem
      exact hk (h.known x hx)
  came := h.came

/-- A call is over, with what is known of its end. -/
theorem end_call (h : Hears job files world start s flying ended heard) {e : Over files α}
    (he : Came job files heard e) {flying' : List (Flying files β α)}
    (hsub : ∀ f ∈ flying', f ∈ flying)
    (hpos : ∀ j ∈ flying.map Prod.fst, j = e.1 ∨ j ∈ flying'.map Prod.fst) :
    Hears job files world start s flying' (ended ++ [e]) heard where
  replies := h.replies
  state := h.state
  once := h.once
  known := by
    intro x hx
    rw [List.map_append, List.append_assoc]
    rcases List.mem_append.mp (h.known x hx) with hx | hx
    · exact List.mem_append_left _ hx
    · refine List.mem_append_right _ ?_
      rcases hpos _ hx with heq | hx
      · exact List.mem_append_left _ (by rw [heq]; exact List.mem_cons_self)
      · exact List.mem_append_right _ hx
  tells := fun f hf => h.tells f (hsub f hf)
  came := by
    intro e' he'
    rcases List.mem_append.mp he' with he' | he'
    · exact h.came e' he'
    · rw [List.mem_singleton] at he'
      exact he' ▸ he

/-- The worker of a call in flight is left. -/
theorem leave_call (h : Hears job files world start s flying ended heard) {stage : Stage β α}
    (hk : flying[i]? = some (k, stage)) {o : Except Thrown α} (he : Came job files heard (k, o)) :
    Hears job files world start s (flying.eraseIdx i) (ended ++ [(k, o)]) heard := by
  refine h.end_call he (fun f hf => List.mem_of_mem_eraseIdx hf) fun j hj => ?_
  have hperm := (perm_cons_eraseIdx hk).map Prod.fst
  exact List.mem_cons.mp (hperm.mem_iff.mp hj)

/-- A call in flight waits for something else, with what is known of it. -/
theorem turn (h : Hears job files world start s flying ended heard) {stage next : Stage β α}
    (hk : flying[i]? = some (k, stage)) (ht : Tells job files heard (k, next)) :
    Hears job files world start s (flying.set i (k, next)) ended heard where
  replies := h.replies
  state := h.state
  once := h.once
  known := fun x hx => (positions_turn hk _ next).mem_iff.mpr (h.known x hx)
  tells := by
    intro f hf
    rcases List.mem_or_eq_of_mem_set hf with hf | rfl
    · exact h.tells f hf
    · exact ht
  came := h.came

/-- The world answers a call in flight, which goes on or is over. -/
theorem hear (h : Hears job files world start s flying ended heard)
    (hk : flying[i]? = some (k, .working))
    (hnd : (ended.map Prod.fst ++ flying.map Prod.fst).Nodup)
    {flying' : List (Flying files β α)} {ended' : List (Over files α)} {answer : Except Thrown β}
    (ha : (world.value s (files.get k)).1 = answer)
    (hpos : ∀ j ∈ ended.map Prod.fst ++ flying.map Prod.fst,
      j ∈ ended'.map Prod.fst ++ flying'.map Prod.fst)
    (htells : ∀ f ∈ flying', f ∈ flying.eraseIdx i ∨ Tells job files (heard ++ [(k, answer)]) f)
    (hcame : ∀ e ∈ ended', e ∈ ended ∨ Came job files (heard ++ [(k, answer)]) e) :
    Hears job files world start (world.value s (files.get k)).2 flying' ended'
      (heard ++ [(k, answer)]) where
  replies := by
    -- the world is asked in the state that the calls it has answered so far have left it in
    rw [List.map_append, List.map_append, h.replies, List.map_singleton, List.map_singleton,
      World.replies_snoc, ← h.state, ← ha]
    rfl
  state := by
    rw [List.map_append, List.map_singleton, World.called_snoc, ← h.state]
    rfl
  once := by
    rw [List.map_append, List.nodup_append]
    refine ⟨h.once, List.nodup_singleton _, fun a hmem b hb => ?_⟩
    rw [List.map_singleton, List.mem_singleton] at hb
    have hnew : k ∉ heard.map Prod.fst := h.tells _ (List.mem_of_getElem? hk)
    rintro rfl
    rw [hb] at hmem
    exact hnew hmem
  known := by
    intro x hx
    rcases List.mem_append.mp hx with hx | hx
    · exact hpos _ (h.known x hx)
    · rw [List.mem_singleton] at hx
      subst hx
      exact hpos k (List.mem_append_right _ (List.mem_map_of_mem (List.mem_of_getElem? hk)))
  tells := by
    intro f hf
    rcases htells f hf with hf | hf
    · exact (h.tells f (List.mem_of_mem_eraseIdx hf)).snoc (ne_of_mem_eraseIdx hk _ hnd f hf)
    · exact hf
  came := by
    intro e he
    rcases hcame e he with he | he
    · exact (h.came e he).snoc _
    · exact he

/-- The world answers a call in flight with a value, which is now to be read. -/
theorem open_call (h : Hears job files world start s flying ended heard)
    (hk : flying[i]? = some (k, .working))
    (hnd : (ended.map Prod.fst ++ flying.map Prod.fst).Nodup) {v : β}
    (ha : (world.value s (files.get k)).1 = .ok v) (tree : Option Nat) :
    Hears job files world start (world.value s (files.get k)).2
      (flying.set i (k, .reading tree v)) ended (heard ++ [(k, .ok v)]) := by
  refine h.hear hk hnd ha (fun j hj => (positions_turn hk _ _).mem_iff.mpr hj) (fun f hf => ?_)
    fun e he => .inl he
  rcases List.mem_cons.mp ((perm_cons_set hk _).mem_iff.mp hf) with rfl | hf
  · exact .inr (List.mem_append_right _ List.mem_cons_self)
  · exact .inl hf

/-- The world stops a call in flight, which is over with that. -/
theorem fail_call (h : Hears job files world start s flying ended heard)
    (hk : flying[i]? = some (k, .working))
    (hnd : (ended.map Prod.fst ++ flying.map Prod.fst).Nodup)
    (hr : job.refuse (files.get k) = none) {t : Thrown}
    (ha : (world.value s (files.get k)).1 = .error t) :
    Hears job files world start (world.value s (files.get k)).2 (flying.eraseIdx i)
      (ended ++ [(k, .error t)]) (heard ++ [(k, .error t)]) := by
  refine h.hear hk hnd ha (fun j hj => ?_) (fun f hf => .inl hf) fun e he => ?_
  · rw [List.map_append]
    exact (positions_land hk _).mem_iff.mpr hj
  · rcases List.mem_append.mp he with he | he
    · exact .inl he
    · rw [List.mem_singleton] at he
      subst he
      exact .inr (.heard hr (List.mem_append_right _ List.mem_cons_self) rfl)

end Hears

/-! ## What a move keeps -/

namespace Tracks

variable {files : List String} {start : σ} {flying : List (Flying files β α)}
  {ended : List (Over files α)} {heard : List (Over files β)}

theorem fresh (job : Job β α) (world : World σ β) (start : σ) (files : List String) :
    Tracks job files world start (start, Pool.fresh job files) [] [] [] where
  flow := ⟨rfl, .refl _, rfl, by simp⟩
  hears := ⟨rfl, rfl, .nil, by simp, by simp, by simp⟩
  ledger := .fresh job world files

theorem taken (hp : job.Plain) {s : σ} {pool pool' : Pool β α}
    (h : Tracks job files world start (s, pool) flying ended heard) (hm : Taken job pool pool') :
    ∃ flying' ended', Tracks job files world start (s, pool') flying' ended' heard := by
  cases hm with
  | sizing hw hl =>
    rw [hp.unlimited] at hl
    cases hl
  | @working path rest hw hl hr =>
    obtain ⟨k, hnew, hflow⟩ := h.flow.start hw hr
    exact ⟨_, ended, hflow, h.hears.start_call hnew, h.ledger.working hw hl hr⟩
  | @refused path rest t hw hl hr =>
    obtain ⟨k, rfl, hflow⟩ := h.flow.refuse hw (.error t)
    refine ⟨flying, ended ++ [(k, .error t)], ?_, ?_, ?_⟩
    · rw [List.map_append]
      exact hflow
    · have hcame : Came job files heard (k, .error t) := .refused hr rfl
      exact h.hears.end_call hcame (fun f hf => hf) fun j hj => .inr hj
    · rw [List.map_append]
      exact h.ledger.refused hw hl hr

theorem answered {st st' : σ × Pool β α}
    (h : Tracks job files world start st flying ended heard) (hm : Answered job world st st') :
    ∃ flying' ended' heard', Tracks job files world start st' flying' ended' heard' := by
  have hnd := h.flow.nodup
  cases hm with
  | passed hq =>
    -- without a limit no size is asked for
    obtain ⟨k, hk, -⟩ := h.flow.find hq
    exact absurd (h.hears.tells _ (List.mem_of_getElem? hk)) id
  | @opened s pool i path v hq ha =>
    obtain ⟨k, hk, rfl, hr⟩ := h.flow.find hq
    refine ⟨flying.set i (k, .reading (pool.treeIn job v) v), ended, heard ++ [(k, .ok v)], ?_,
      h.hears.open_call hk hnd ha _, h.ledger.opened hq ha⟩
    refine h.flow.turn hk _ ?_ rfl rfl
    rw [starts_turn, starts_note, starts_opened]
    exact List.append_nil _
  | @read s pool i path tree v hq =>
    obtain ⟨k, hk, rfl, hr⟩ := h.flow.find hq
    refine ⟨flying.set i (k, .releasing tree (job.read (files.get k) v)), ended, heard, ?_, ?_,
      h.ledger.read hq⟩
    · refine h.flow.turn hk _ ?_ rfl rfl
      rw [starts_turn, starts_note, starts_read]
      exact List.append_nil _
    · exact h.hears.turn hk ⟨v, h.hears.tells _ (List.mem_of_getElem? hk), rfl⟩
  | @closed s s' pool i q events o hq hc =>
    obtain ⟨k, hk, hpath, hr⟩ := h.flow.find hq
    have hledger := h.ledger.close hq hc
    have hflow (hev : events.filterMap startedOf = []) :
        Flow job files (((pool.leave i).note events).record job q.path o)
          (ended.map Prod.fst ++ [k]) (flying.eraseIdx i) := by
      refine h.flow.land hk ?_ (record_waiting ..) (record_pending ..)
      rw [starts_record, starts_note, hev]
      exact List.append_nil _
    have hentry : ended.map Over.entry ++ [(q.path, o)] = (ended ++ [(k, o)]).map Over.entry := by
      rw [List.map_append, ← hpath]
      rfl
    have hdone : (ended ++ [(k, o)]).map Prod.fst = ended.map Prod.fst ++ [k] := List.map_append
    have htell := h.hears.tells _ (List.mem_of_getElem? hk)
    rw [hentry] at hledger
    rw [← hpath] at hr
    cases hc with
    | @failed path t ha =>
      subst hpath
      exact ⟨_, _, heard ++ [(k, .error t)], hdone ▸ hflow rfl, h.hears.fail_call hk hnd hr ha,
        hledger⟩
    | @released path tree o =>
      obtain ⟨v, hv, ho⟩ := htell
      have hcame : Came job files heard (k, o) := .heard hr hv ho
      exact ⟨_, _, heard, hdone ▸ hflow (starts_released path tree), h.hears.leave_call hk hcame,
        hledger⟩
    | _ => exact absurd htell id

theorem move (hp : job.Plain) {st st' : σ × Pool β α}
    (h : Tracks job files world start st flying ended heard) (hm : Move job world st st') :
    ∃ flying' ended' heard', Tracks job files world start st' flying' ended' heard' := by
  cases hm with
  | taken hm =>
    obtain ⟨flying', ended', h'⟩ := h.taken hp hm
    exact ⟨flying', ended', heard, h'⟩
  | answered hm => exact h.answered hm

theorem moves (hp : job.Plain) {st st' : σ × Pool β α}
    (h : Tracks job files world start st flying ended heard)
    (hm : ReflTransGen (Move job world) st st') :
    ∃ flying' ended' heard', Tracks job files world start st' flying' ended' heard' := by
  induction hm with
  | refl => exact ⟨flying, ended, heard, h⟩
  | tail _ hstep ih =>
    obtain ⟨flying', ended', heard', h'⟩ := ih
    exact h'.move hp hstep

end Tracks

/-- **The calls of a run** can be followed at every moment of it. -/
theorem settleAll_tracks (hp : job.Plain) (world : World σ β) (concurrency : Int)
    (files : List String) (start : σ) (choices : List Nat) :
    ∃ flying ended heard, Tracks job files world start
      (settleAll job world (start, launch job concurrency files) choices) flying ended heard :=
  (Tracks.fresh job world start files).moves hp (run_path job world concurrency files choices start)

/-! ## The bound on the calls in flight -/

/-- The file whose call an event says is settled. -/
def settledOf : Event → Option String
  | .settled path => some path
  | _ => none

/-- The files whose calls have settled, in order. -/
def settles (pool : Pool β α) : List String := pool.trace.filterMap settledOf

theorem settledOf_news (e : Event) (h : e.isNews) : settledOf e = none := by
  cases e with
  | settled => cases h
  | _ => rfl

/-- At every point of a trace, at most so many calls have been started and not settled. -/
def Bounded (width : Nat) (trace : List Event) : Prop :=
  ∀ sofar, sofar <+: trace →
    (sofar.filterMap startedOf).length ≤ (sofar.filterMap settledOf).length + width

namespace Bounded

variable {width : Nat} {trace events : List Event}

/-- It is enough to look at the points after those of a trace that is bounded. -/
theorem append (h : Bounded width trace)
    (hnew : ∀ more, more <+: events → ((trace ++ more).filterMap startedOf).length ≤
      ((trace ++ more).filterMap settledOf).length + width) :
    Bounded width (trace ++ events) := by
  rintro sofar ⟨rest, hrest⟩
  rcases List.append_eq_append_iff.mp hrest with ⟨more, htrace, -⟩ | ⟨more, hsofar, hevents⟩
  · exact h sofar ⟨more, htrace.symm⟩
  · rw [hsofar]
    exact hnew more ⟨rest, hevents.symm⟩

theorem quiet (h : Bounded width trace) (hev : events.filterMap startedOf = []) :
    Bounded width (trace ++ events) := by
  refine h.append fun more hmore => ?_
  have htrace := h trace (List.prefix_refl _)
  have hnone : more.filterMap startedOf = [] := by
    rw [List.filterMap_eq_nil_iff] at hev ⊢
    exact fun e he => hev e (hmore.subset he)
  rw [List.filterMap_append, hnone, List.append_nil, List.filterMap_append, List.length_append]
  omega

theorem start (h : Bounded width trace) (path : String)
    (hlt : (trace.filterMap startedOf).length < (trace.filterMap settledOf).length + width) :
    Bounded width (trace ++ [.started path]) := by
  refine h.append fun more hmore => ?_
  have hone : (more.filterMap startedOf).length ≤ 1 :=
    (List.length_filterMap_le _ _).trans hmore.length_le
  rw [List.filterMap_append, List.length_append, List.filterMap_append, List.length_append]
  omega

end Bounded

/-- The calls in flight are those that have been started and not settled, and there have never been
more of them than the given number. -/
structure Within (width : Nat) (pool : Pool β α) : Prop where
  bounded : Bounded width pool.trace
  balance : pool.starts.length = pool.settles.length + pool.pending.length
  unsized : ∀ q ∈ pool.pending, q.stage ≠ .sizing

namespace Within

variable {width : Nat} {pool pool' : Pool β α} {events : List Event}

theorem fresh (width : Nat) (job : Job β α) (files : List String) :
    Within width (Pool.fresh job files) where
  bounded := by
    intro sofar h
    rw [List.prefix_nil.mp h]
    exact Nat.zero_le _
  balance := rfl
  unsized := by simp [Pool.fresh]

theorem pending_le (h : Within width pool) : pool.pending.length ≤ width := by
  have hall := h.bounded pool.trace (List.prefix_refl _)
  have hbalance := h.balance
  unfold starts settles at hbalance
  omega

/-- Events that start no call, and settle as many as there are workers less. -/
theorem extend (h : Within width pool) (htrace : pool'.trace = pool.trace ++ events)
    (hsilent : events.filterMap startedOf = [])
    (hlength : (events.filterMap settledOf).length + pool'.pending.length = pool.pending.length)
    (hunsized : ∀ q ∈ pool'.pending, q.stage ≠ .sizing) : Within width pool' := by
  refine ⟨?_, ?_, hunsized⟩
  · rw [htrace]
    exact h.bounded.quiet hsilent
  · have hbalance := h.balance
    unfold starts settles at hbalance ⊢
    rw [htrace, List.filterMap_append, hsilent, List.append_nil, List.filterMap_append,
      List.length_append]
    omega

theorem record (h : Within width pool) (path : String) (o : Except Thrown α) :
    Within width (pool.record job path o) := by
  have hsettled : (recordEvents job pool.processed path o).filterMap settledOf = [] :=
    filterMap_news settledOf_news (isNews_recordEvents _ _ _ _)
  rw [record_eq]
  refine h.extend rfl (filterMap_news startedOf_news (isNews_recordEvents _ _ _ _)) ?_ h.unsized
  rw [hsettled]
  exact Nat.zero_add _

/-- A worker that is free takes a file: it is busy with it or the file is done with. -/
theorem taken (hp : job.Plain) (h : Within width pool) (hlt : pool.pending.length < width)
    (hm : Taken job pool pool') : Within width pool' := by
  have hbalance := h.balance
  have hstart : ∀ path, Bounded width (pool.trace ++ [.started path]) := by
    intro path
    refine h.bounded.start path ?_
    unfold starts settles at hbalance
    omega
  cases hm with
  | sizing hw hl =>
    rw [hp.unlimited] at hl
    cases hl
  | @working path rest hw hl hr =>
    refine ⟨hstart path, ?_, fun q hq => ?_⟩
    · unfold starts settles at hbalance ⊢
      simp only [note, ask, List.filterMap_append, List.length_append]
      simp only [List.filterMap_cons, List.filterMap_nil, startedOf, settledOf, List.length_cons,
        List.length_nil]
      omega
    · rcases List.mem_append.mp hq with hq | hq
      · exact h.unsized q hq
      · rw [List.mem_singleton] at hq
        rw [hq]
        intro hstage
        cases hstage
  | @refused path rest t hw hl hr =>
    refine Within.record ?_ path _
    refine ⟨?_, ?_, h.unsized⟩
    · show Bounded width (pool.trace ++ [.started path, .settled path])
      rw [List.append_cons]
      exact (hstart path).quiet rfl
    · unfold starts settles at hbalance ⊢
      simp only [note, List.filterMap_append, List.length_append]
      simp only [List.filterMap_cons, List.filterMap_nil, startedOf, settledOf, List.length_cons,
        List.length_nil]
      omega

/-- A worker that waits for something else. -/
theorem turn (h : Within width pool) {i : Nat} {path : String} {stage : Stage β α}
    (htrace : pool'.trace = pool.trace ++ events)
    (hpending : pool'.pending = pool.pending.set i ⟨path, stage⟩)
    (hsilent : events.filterMap startedOf = []) (hnone : events.filterMap settledOf = [])
    (hstage : stage ≠ .sizing) : Within width pool' := by
  refine h.extend htrace hsilent ?_ fun q hq => ?_
  · rw [hnone, hpending, List.length_set]
    exact Nat.zero_add _
  · rw [hpending] at hq
    rcases List.mem_or_eq_of_mem_set hq with hq | rfl
    · exact h.unsized q hq
    · exact hstage

/-- A call settles. -/
theorem leave (h : Within width pool) {i : Nat} {q : Pending β α}
    (hq : pool.pending[i]? = some q) (hsilent : events.filterMap startedOf = [])
    (hone : (events.filterMap settledOf).length = 1) :
    Within width ((pool.leave i).note events) := by
  refine h.extend rfl hsilent ?_ fun q' hq' => h.unsized q' (List.mem_of_mem_eraseIdx hq')
  rw [hone, Nat.add_comm]
  exact length_eraseIdx_pending hq

theorem answered {st st' : σ × Pool β α} (h : Within width st.2)
    (hm : Answered job world st st') : Within width st'.2 := by
  cases hm with
  | passed hq => exact absurd rfl (h.unsized _ (List.mem_of_getElem? hq))
  | @opened s pool i path v hq ha =>
    refine h.turn rfl rfl (starts_opened path _) ?_ nofun
    cases pool.treeIn job v <;> rfl
  | @read s pool i path tree v hq =>
    refine h.turn rfl rfl (starts_read tree) ?_ nofun
    cases tree <;> rfl
  | @closed s s' pool i q events o hq hc =>
    have hstage := h.unsized _ (List.mem_of_getElem? hq)
    refine Within.record ?_ q.path o
    cases hc with
    | failed ha => exact h.leave hq rfl rfl
    | @released path tree o =>
      refine h.leave hq (starts_released path tree) ?_
      cases tree <;> rfl
    | _ => exact absurd rfl hstage

end Within

/-- **The bound of a run**, at every moment of it. -/
theorem settleAll_within (hp : job.Plain) (world : World σ β) (concurrency : Int)
    (files : List String) (start : σ) (choices : List Nat) :
    Within (workers concurrency files.length)
      (settleAll job world (start, launch job concurrency files) choices).2 := by
  have htaken (pool pool' : Pool β α) (h : Within (workers concurrency files.length) pool)
      (hlt : pool.pending.length < workers concurrency files.length)
      (hm : Taken job pool pool') : Within (workers concurrency files.length) pool' :=
    h.taken hp hlt hm
  refine settleAll_induction htaken (fun _ _ h hm => h.answered hm) (fun _ h => h.pending_le)
    choices _ ?_
  exact launch_induction htaken (.fresh _ job files) (Nat.le_refl _)

/-! ## Whole runs -/

namespace Tracks

variable {files : List String} {start : σ} {st : σ × Pool β α} {flying : List (Flying files β α)}
  {ended : List (Over files α)} {heard : List (Over files β)}

theorem length_flying (h : Tracks job files world start st flying ended heard) :
    flying.length = st.2.pending.length := by
  rw [h.flow.pending, List.length_map]

/-- A pool is rejected if, and only if, the outcome of some call could not be recorded. -/
theorem rejected_eq_none_iff (h : Tracks job files world start st flying ended heard) :
    st.2.rejected = none ↔ ∀ e ∈ ended, isKept e.2 = true := by
  constructor
  · intro hr e he
    exact h.ledger.isKept_of_not_rejected hr _ (List.mem_map_of_mem he)
  · intro hkept
    rw [h.ledger.rejected, List.head?_eq_none_iff, List.filterMap_eq_nil_iff]
    intro c hc
    obtain ⟨e, he, rfl⟩ := List.mem_map.mp hc
    have hkept := hkept e he
    obtain ⟨k, o⟩ := e
    rcases o with (p | why) | result
    · rfl
    · cases hkept
    · rfl

/-- At the end a call has been started for each position, and is over. -/
theorem complete (h : Tracks job files world start st flying ended heard)
    (hdone : st.2.isDone = true) :
    st.2.starts = files ∧ (ended.map Prod.fst).Perm (List.finRange files.length) := by
  obtain ⟨hwaiting, hpending, -⟩ := isDone_iff.mp hdone
  have hstarts := h.flow.started
  rw [hwaiting, List.append_nil] at hstarts
  have hflying := h.length_flying
  rw [hpending, List.length_nil, List.length_eq_zero_iff] at hflying
  have hpositions := h.flow.positions
  rw [hflying, List.map_nil, List.append_nil, hstarts, List.take_of_length_le (by simp)]
    at hpositions
  exact ⟨hstarts, hpositions⟩

end Tracks

/-- One call for each position is one outcome for each. -/
theorem exists_outcome {files : List String} {ended : List (Over files α)}
    (hperm : (ended.map Prod.fst).Perm (List.finRange files.length)) :
    ∃ outcome : Fin files.length → Except Thrown α, ∀ e ∈ ended, e.2 = outcome e.1 := by
  have hsome : ∀ k, ∃ o, (k, o) ∈ ended := by
    intro k
    have hk : k ∈ ended.map Prod.fst := hperm.mem_iff.mpr (List.mem_finRange k)
    obtain ⟨⟨_, o⟩, he, rfl⟩ := List.mem_map.mp hk
    exact ⟨o, he⟩
  choose outcome houtcome using hsome
  have hnodup : (ended.map Prod.fst).Nodup := hperm.nodup_iff.mpr (List.nodup_finRange _)
  refine ⟨outcome, fun e he => ?_⟩
  have heq := List.inj_on_of_nodup_map hnodup he (houtcome e.1) rfl
  exact congrArg Prod.snd heq

/-- A moment of a run: the state after the choices so far. -/
abbrev moment (job : Job β α) (world : World σ β) (concurrency : Int) (files : List String)
    (start : σ) (choices : List Nat) : σ × Pool β α :=
  settleAll job world (start, launch job concurrency files) choices

/-- Whatever has been chosen, the workers can go on until none is busy. Then the pool is done, unless
it is rejected. -/
theorem exists_idle (job : Job β α) (world : World σ β) (concurrency : Int) (files : List String)
    (start : σ) (choices : List Nat) :
    ∃ more, (moment job world concurrency files start (choices ++ more)).2.pending = [] ∧
      ((moment job world concurrency files start (choices ++ more)).2.rejected = none →
        (moment job world concurrency files start (choices ++ more)).2.isDone = true) := by
  obtain ⟨more, hmore⟩ := exists_order job world
    (moment job world concurrency files start choices)
  have hpending : (moment job world concurrency files start (choices ++ more)).2.pending = [] := by
    rw [moment, settleAll, List.foldl_append]
    exact hmore.pending_eq_nil
  refine ⟨more, hpending, fun hr => isDone_iff.mpr ⟨?_, hpending, hr⟩⟩
  have hwaiting := settleAll_attended job world concurrency files start _ hpending
  rw [hr] at hwaiting
  exact hwaiting.resolve_right Bool.false_ne_true

/-- **The calls of a pool without a size limit**, for every number of workers and every order in
which the calls settle. At every moment calls have been started in the order of the list, at most one
for each worker is in flight, and the others are over. What came of a call is recorded and then
reported, once, if it can be recorded. The pool is rejected if, and only if, some outcome cannot; when
all workers are done without that, there is one outcome for each position of the list. -/
theorem run_calls (hp : job.Plain) (world : World σ β) (concurrency : Int) (files : List String)
    (start : σ) (choices : List Nat) :
    ∃ flying ended heard,
      Tracks job files world start (moment job world concurrency files start choices) flying ended
        heard ∧
      flying.length ≤ min files.length (max 1 concurrency).toNat ∧
      Bounded (min files.length (max 1 concurrency).toNat)
        (moment job world concurrency files start choices).2.trace ∧
      (moment job world concurrency files start choices).2.trace.filter Event.isTold =
        (((ended.filter fun e => isKept e.2).map Over.file).zipIdx job.processed).flatMap
          (fun entry => [.recorded entry.1, .progress entry.1 (entry.2 + 1)]) ∧
      ((moment job world concurrency files start choices).2.rejected = none ↔
        ∀ e ∈ ended, isKept e.2 = true) ∧
      ((moment job world concurrency files start choices).2.isDone = true →
        (run job world concurrency files choices start).2.starts = files ∧
        (run job world concurrency files choices start).2.trace.filterMap progressOf =
          (ended.map Over.file).zipIdx (job.processed + 1) ∧
        (ended.map Prod.fst).Perm (List.finRange files.length) ∧
        ∃ outcome : Fin files.length → Except Thrown α, (∀ e ∈ ended, e.2 = outcome e.1) ∧
          (run job world concurrency files choices start).2.results.Perm
            ((List.finRange files.length).filterMap fun k => resultOf (files.get k, outcome k)) ∧
          (run job world concurrency files choices start).2.errors.Perm
            ((List.finRange files.length).filterMap fun k => problemOf (files.get k, outcome k))) ∧
      ∃ more, (moment job world concurrency files start (choices ++ more)).2.pending = [] ∧
        ((moment job world concurrency files start (choices ++ more)).2.rejected = none →
          (moment job world concurrency files start (choices ++ more)).2.isDone = true) := by
  obtain ⟨flying, ended, heard, h⟩ := settleAll_tracks hp world concurrency files start choices
  have hwithin := settleAll_within hp world concurrency files start choices
  have htidings (entry : String × Nat) :
      tidings job entry.2 entry.1 = [.recorded entry.1, .progress entry.1 (entry.2 + 1)] := by
    rw [tidings, if_pos hp.reports]
  have hrecorded : recordedIn (ended.map Over.entry) =
      (ended.filter fun e => isKept e.2).map Over.file := by
    rw [recordedIn, List.filter_map, List.map_map]
    rfl
  refine ⟨flying, ended, heard, h, h.length_flying.trans_le hwithin.pending_le, hwithin.bounded, ?_,
    h.rejected_eq_none_iff, fun hdone => ?_, exists_idle job world concurrency files start choices⟩
  · rw [h.ledger.told, hrecorded, allTidings]
    exact List.flatMap_congr fun entry _ => htidings entry
  obtain ⟨hstarts, hperm⟩ := h.complete hdone
  obtain ⟨outcome, houtcome⟩ := exists_outcome hperm
  -- what the calls come to, in the order of the list
  have hended : ended.map Over.entry =
      (ended.map Prod.fst).map fun k => (files.get k, outcome k) := by
    conv_lhs => rw [closed_eq_map houtcome, List.map_map]
    rfl
  have hlast : Ledger job world files (run job world concurrency files choices start).2
      (ended.map Over.entry) := h.ledger.note (finishEvents_quiet concurrency files _)
  have hall : (ended.filter fun e => isKept e.2) = ended :=
    List.filter_eq_self.mpr (h.rejected_eq_none_iff.mp (isDone_iff.mp hdone).2.2)
  refine ⟨?_, ?_, hperm, outcome, houtcome, ?_, ?_⟩
  · rw [starts_run]
    exact hstarts
  · rw [hlast.progress, if_pos hp.reports, hrecorded, hall]
  · rw [hlast.results, hended, List.filterMap_map]
    exact hperm.filterMap _
  · rw [hlast.errors, hended, List.filterMap_map]
    exact hperm.filterMap _

namespace Sample

/-- A job that pairs a file with the number it is given, and refuses one of its files. -/
def numbered : Job Nat (String × Nat) where
  host := ⟨"/work", "/home/dev"⟩
  refuse path := if path = "c" then some (.problem (.bare "refused")) else none
  read path n := .ok (path, n)

/-- Calls are numbered as they are answered, and those for one of the files fail. -/
def counter : World Nat Nat where
  size n _ := (.ok 0, n)
  value n path := (if path = "b" then .error (.problem (.bare "lost")) else .ok n, n + 1)

def files : List String := ["a", "b", "a", "c"]

/-- What asking for the text of an object without one comes to. -/
def noText : Thrown := .problem (.error "TypeError" "Cannot convert object to primitive value")

/-- Calls for one of the files are stopped by a value that has no text. -/
def mute : World Nat Nat where
  size n _ := (.ok 0, n)
  value n path := (if path = "a" then .error (.textless noText) else .ok n, n + 1)

theorem numbered_plain : numbered.Plain where
  unlimited := by decide
  reports := rfl

end Sample

/-- Four positions, two of them with the same file: the third call ends before the first. -/
theorem run_calls_numbered :
    Sample.numbered.Plain ∧
      (moment Sample.numbered Sample.counter 2 Sample.files 0 [1, 1, 1, 1, 0, 0, 0]).2.isDone = true ∧
      (run Sample.numbered Sample.counter 2 Sample.files [1, 1, 1, 1, 0, 0, 0] 0).2.starts =
        Sample.files ∧
      ∃ outcome : Fin Sample.files.length → Except Thrown (String × Nat),
        (run Sample.numbered Sample.counter 2 Sample.files [1, 1, 1, 1, 0, 0, 0] 0).2.results.Perm
          ((List.finRange Sample.files.length).filterMap fun k =>
            resultOf (Sample.files.get k, outcome k)) := by
  have hdone : (moment Sample.numbered Sample.counter 2 Sample.files 0
      [1, 1, 1, 1, 0, 0, 0]).2.isDone = true := by decide
  obtain ⟨flying, ended, heard, -, -, -, -, -, hend, -⟩ := run_calls Sample.numbered_plain
    Sample.counter 2 Sample.files 0 [1, 1, 1, 1, 0, 0, 0]
  obtain ⟨hstarts, -, -, outcome, -, hresults, -⟩ := hend hdone
  exact ⟨Sample.numbered_plain, hdone, hstarts, outcome, hresults⟩

/-- The call for the first file is stopped by a value without a text. It is the end of the only
worker: the call is neither recorded nor reported, and that for the second file is never started. -/
theorem textless_call_unrecorded :
    ∃ last : Nat × Pool Nat (String × Nat),
      last = moment Sample.numbered Sample.mute 1 ["a", "b"] 0 [0] ∧
      last.2.pending = [] ∧ last.2.starts = ["a"] ∧ last.2.waiting = ["b"] ∧
      last.2.results = [] ∧ last.2.errors = [] ∧ last.2.trace.filterMap progressOf = [] ∧
      last.2.rejected = some Sample.noText ∧ last.2.isDone = false := by
  refine ⟨_, rfl, ?_, ?_, ?_, ?_, ?_, ?_, ?_, ?_⟩ <;> rfl

end ClassCohesion.Pool
