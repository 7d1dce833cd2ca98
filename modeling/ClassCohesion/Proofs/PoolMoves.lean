import Mathlib.Logic.Relation
import ClassCohesion.Pool.Basic

/-!
# What a step of a pool can do

Every step of a pool is made of moves of single files. `Taken` says what happens to a file that a
worker takes from the queue, `Answered` what happens to a file whose worker goes on. The rest of the
theory looks at moves only and never opens the step function again:

- `record_eq`: what recording an outcome adds to a pool, whatever the outcome.
- `settle_moves`: a step is one `Answered` move, after which the worker takes files if it is free.
- `run_path`: so a whole run is a path of moves, from the pool in which nothing has been taken yet.
-/

namespace ClassCohesion.Pool

open Relation (ReflTransGen)

variable {σ β α : Type} {job : Job β α} {world : World σ β}

@[simp]
theorem note_nil (pool : Pool β α) : pool.note [] = pool := by
  simp [note]

/-! ## Outcomes -/

/-- The result in an outcome. -/
def resultOf : String × Except Thrown α → Option α
  | (_, .ok result) => some result
  | (_, .error _) => none

/-- The problem in an outcome that can be recorded, with its file. -/
def problemOf : String × Except Thrown α → Option (String × Problem)
  | (path, .error (.problem p)) => some (path, p.asError)
  | _ => none

/-- What a pool is rejected with if an outcome cannot be recorded. -/
def lossOf : String × Except Thrown α → Option Thrown
  | (_, .error (.textless why)) => some why
  | _ => none

/-- What is told of a file whose outcome is recorded, after so many reports. -/
def tidings (job : Job β α) (processed : Nat) (path : String) : List Event :=
  .recorded path :: if job.reports then [.progress path (processed + 1)] else []

/-- The events of recording an outcome. -/
def recordEvents (job : Job β α) (processed : Nat) (path : String) : Except Thrown α → List Event
  | .ok _ => tidings job processed path
  | .error (.problem p) => (p.entries job.host).map .logged ++ tidings job processed path
  | .error (.textless why) => (why.entries job.host).map .logged

/-- The number of reports that an outcome adds. -/
def tally (job : Job β α) (o : Except Thrown α) : Nat := if job.reports && isKept o then 1 else 0

/-- Whether an event is about recording: an entry of the log, a record or a report. -/
def Event.isNews : Event → Bool
  | .logged _ => true
  | .recorded _ => true
  | .progress .. => true
  | _ => false

theorem isNews_logged (entries : List Log.Entry) : ∀ e ∈ entries.map Event.logged, e.isNews := by
  intro e he
  obtain ⟨entry, -, rfl⟩ := List.mem_map.mp he
  rfl

theorem isNews_tidings (job : Job β α) (processed : Nat) (path : String) :
    ∀ e ∈ tidings job processed path, e.isNews := by
  unfold tidings
  split <;> simp [Event.isNews]

theorem isNews_recordEvents (job : Job β α) (processed : Nat) (path : String)
    (o : Except Thrown α) : ∀ e ∈ recordEvents job processed path o, e.isNews := by
  rcases o with (p | why) | result
  · intro e he
    rcases List.mem_append.mp he with he | he
    · exact isNews_logged _ e he
    · exact isNews_tidings job processed path e he
  · exact isNews_logged _
  · exact isNews_tidings job processed path

theorem isNews_finishEvents (concurrency : Int) (files : List String) (pool : Pool β α) :
    ∀ e ∈ pool.finishEvents concurrency files, e.isNews := by
  unfold finishEvents
  split <;> simp [Event.isNews]

/-- A reading that does not look at news passes them over. -/
theorem filterMap_news {γ : Type} {f : Event → Option γ} (hf : ∀ e, e.isNews → f e = none)
    {events : List Event} (hnews : ∀ e ∈ events, e.isNews) : events.filterMap f = [] :=
  List.filterMap_eq_nil_iff.mpr fun e he => hf e (hnews e he)

/-- Recording an outcome, as a whole. -/
theorem record_eq (job : Job β α) (pool : Pool β α) (path : String) (o : Except Thrown α) :
    pool.record job path o =
      { pool with
        results := pool.results ++ (resultOf (path, o)).toList
        errors := pool.errors ++ (problemOf (path, o)).toList
        rejected := pool.rejected.or (lossOf (path, o))
        processed := pool.processed + tally job o
        trace := pool.trace ++ recordEvents job pool.processed path o } := by
  rcases o with (p | why) | result <;> cases h : job.reports <;>
    simp [record, report, note, resultOf, problemOf, lossOf, tally, isKept, recordEvents, tidings,
      Thrown.asError, Thrown.entries, Thrown.root, h]

@[simp]
theorem record_waiting (pool : Pool β α) (path : String) (o : Except Thrown α) :
    (pool.record job path o).waiting = pool.waiting := by
  rw [record_eq]

@[simp]
theorem record_pending (pool : Pool β α) (path : String) (o : Except Thrown α) :
    (pool.record job path o).pending = pool.pending := by
  rw [record_eq]

theorem record_lost (pool : Pool β α) (path : String) {o : Except Thrown α}
    (h : isKept o = false) : (pool.record job path o).rejected.isSome = true := by
  rcases o with (p | why) | result
  · cases h
  · rw [record_eq]
    simp [lossOf]
  · cases h

/-! ## Moves -/

/-- A file is taken from the queue: its size is asked for, its call is started, or the job refuses
it. -/
inductive Taken (job : Job β α) : Pool β α → Pool β α → Prop where
  | sizing {pool : Pool β α} {path : String} {rest : List String}
      (hw : pool.waiting = path :: rest) (hl : Number.le job.limit 0 = false) :
      Taken job pool ({ pool with waiting := rest }.ask path .sizing)
  | working {pool : Pool β α} {path : String} {rest : List String}
      (hw : pool.waiting = path :: rest) (hl : Number.le job.limit 0 = true)
      (hr : job.refuse path = none) :
      Taken job pool (({ pool with waiting := rest }.note [.started path]).ask path .working)
  | refused {pool : Pool β α} {path : String} {rest : List String} {t : Thrown}
      (hw : pool.waiting = path :: rest) (hl : Number.le job.limit 0 = true)
      (hr : job.refuse path = some t) :
      Taken job pool
        (({ pool with waiting := rest }.note [.started path, .settled path]).record job path
          (.error t))

/-- A worker that goes on is done with its file, after some events and with an outcome. -/
inductive Closes (job : Job β α) (world : World σ β) (s : σ) :
    Pending β α → σ → List Event → Except Thrown α → Prop where
  | unsized {path : String} {t : Thrown} (ha : (world.size s path).1 = .error t) :
      Closes job world s ⟨path, .sizing⟩ (world.size s path).2 [] (.error t)
  | tooLarge {path : String} {n : Number} (ha : (world.size s path).1 = .ok n)
      (hn : Number.lt job.limit n = true) :
      Closes job world s ⟨path, .sizing⟩ (world.size s path).2 []
        (.error (.problem (.fault (.fileTooLarge path n job.limit))))
  | refused {path : String} {n : Number} {t : Thrown} (ha : (world.size s path).1 = .ok n)
      (hn : Number.lt job.limit n = false) (hr : job.refuse path = some t) :
      Closes job world s ⟨path, .sizing⟩ (world.size s path).2 [.started path, .settled path]
        (.error t)
  | failed {path : String} {t : Thrown} (ha : (world.value s path).1 = .error t) :
      Closes job world s ⟨path, .working⟩ (world.value s path).2 [.settled path] (.error t)
  | released {path : String} {tree : Option Nat} {o : Except Thrown α} :
      Closes job world s ⟨path, .releasing tree o⟩ s
        (tree.toList.map Event.released ++ [.settled path]) o

/-- A worker goes on: the call of its file is started, the answer to the call has come or is read, or
the file is done with. -/
inductive Answered (job : Job β α) (world : World σ β) : σ × Pool β α → σ × Pool β α → Prop where
  | passed {s : σ} {pool : Pool β α} {i : Nat} {path : String} {n : Number}
      (hq : pool.pending[i]? = some ⟨path, .sizing⟩) (ha : (world.size s path).1 = .ok n)
      (hn : Number.lt job.limit n = false) (hr : job.refuse path = none) :
      Answered job world (s, pool)
        ((world.size s path).2, ((pool.leave i).note [.started path]).ask path .working)
  | opened {s : σ} {pool : Pool β α} {i : Nat} {path : String} {v : β}
      (hq : pool.pending[i]? = some ⟨path, .working⟩) (ha : (world.value s path).1 = .ok v) :
      Answered job world (s, pool) ((world.value s path).2,
        ({ pool with trees := pool.trees + (pool.treeIn job v).toList.length }.note
          ((pool.treeIn job v).toList.map (Event.opened · path))).turn i path
            (.reading (pool.treeIn job v) v))
  | read {s : σ} {pool : Pool β α} {i : Nat} {path : String} {tree : Option Nat} {v : β}
      (hq : pool.pending[i]? = some ⟨path, .reading tree v⟩) :
      Answered job world (s, pool) (s,
        (pool.note (tree.toList.map Event.read)).turn i path (.releasing tree (job.read path v)))
  | closed {s s' : σ} {pool : Pool β α} {i : Nat} {q : Pending β α} {events : List Event}
      {o : Except Thrown α} (hq : pool.pending[i]? = some q)
      (hc : Closes job world s q s' events o) :
      Answered job world (s, pool) (s', ((pool.leave i).note events).record job q.path o)

/-- A move of one file. -/
inductive Move (job : Job β α) (world : World σ β) : σ × Pool β α → σ × Pool β α → Prop where
  | taken {s : σ} {pool pool' : Pool β α} (h : Taken job pool pool') :
      Move job world (s, pool) (s, pool')
  | answered {st st' : σ × Pool β α} (h : Answered job world st st') : Move job world st st'

/-! ## Workers take files -/

section Take

variable {path : String} {rest : List String} {t : Thrown}

theorem take_sizing (pool : Pool β α) (hl : Number.le job.limit 0 = false) :
    take job (path :: rest) pool = { pool with waiting := rest }.ask path .sizing := by
  simp [take, takeOn, hl]

theorem take_working (pool : Pool β α) (hl : Number.le job.limit 0 = true)
    (hr : job.refuse path = none) :
    take job (path :: rest) pool =
      ({ pool with waiting := rest }.note [.started path]).ask path .working := by
  simp [take, takeOn, start, hl, hr]

theorem take_refused (pool : Pool β α) (hl : Number.le job.limit 0 = true)
    (hr : job.refuse path = some t) :
    take job (path :: rest) pool =
      if isKept (.error t : Except Thrown α) then
        take job rest (({ pool with waiting := rest }.note [.started path, .settled path]).record
          job path (.error t))
      else
        ({ pool with waiting := rest }.note [.started path, .settled path]).record job path
          (.error t) := by
  simp [take, takeOn, start, hl, hr]

end Take

/-- What is kept whenever a free worker takes a file is kept until it is not free any more. -/
theorem take_induction {P : Pool β α → Prop} (bound : Nat)
    (htaken : ∀ pool pool', P pool → pool.pending.length < bound → Taken job pool pool' →
      P pool') :
    ∀ (waiting : List String) (pool : Pool β α), pool.waiting = waiting → P pool →
      pool.pending.length < bound → P (take job waiting pool)
  | [], pool, hw, h, _ => by
    rw [take, ← hw]
    exact h
  | path :: rest, pool, hw, h, hlt => by
    cases hl : Number.le job.limit 0 with
    | false =>
      rw [take_sizing pool hl]
      exact htaken _ _ h hlt (.sizing hw hl)
    | true =>
      cases hr : job.refuse path with
      | none =>
        rw [take_working pool hl hr]
        exact htaken _ _ h hlt (.working hw hl hr)
      | some t =>
        have h' := htaken _ _ h hlt (.refused hw hl hr)
        rw [take_refused pool hl hr]
        split
        · refine take_induction bound htaken rest _ (record_waiting ..) h' ?_
          rw [record_pending]
          exact hlt
        · exact h'

theorem takeNext_moves (pool : Pool β α) : ReflTransGen (Taken job) pool (pool.takeNext job) := by
  have htake := @take_induction β α job (ReflTransGen (Taken job) pool) (pool.pending.length + 1)
  exact htake (fun _ _ h _ hstep => h.tail hstep) _ pool rfl .refl (Nat.lt_succ_self _)

/-- Files only wait if some worker is busy, or one has come to its end. -/
def Attended (pool : Pool β α) : Prop :=
  pool.pending = [] → pool.waiting = [] ∨ pool.rejected.isSome = true

theorem take_attended : ∀ (waiting : List String) (pool : Pool β α),
    (take job waiting pool).Attended
  | [], pool => fun _ => .inl (by rw [take])
  | path :: rest, pool => by
    cases hl : Number.le job.limit 0 with
    | false =>
      rw [take_sizing pool hl]
      exact fun h => by simp [ask] at h
    | true =>
      cases hr : job.refuse path with
      | none =>
        rw [take_working pool hl hr]
        exact fun h => by simp [ask] at h
      | some t =>
        rw [take_refused pool hl hr]
        split
        · exact take_attended rest _
        · next hkept => exact fun _ => .inr (record_lost _ path (Bool.eq_false_iff.mpr hkept))

/-- A worker is busy with one file at most. -/
theorem take_length_le : ∀ (waiting : List String) (pool : Pool β α),
    (take job waiting pool).pending.length ≤ pool.pending.length + 1
  | [], pool => Nat.le_succ _
  | path :: rest, pool => by
    cases hl : Number.le job.limit 0 with
    | false =>
      rw [take_sizing pool hl]
      exact Nat.le_of_eq List.length_append
    | true =>
      cases hr : job.refuse path with
      | none =>
        rw [take_working pool hl hr]
        exact Nat.le_of_eq List.length_append
      | some t =>
        rw [take_refused pool hl hr]
        split
        · refine Nat.le_trans (take_length_le rest _) ?_
          rw [record_pending]
          exact Nat.le_refl _
        · rw [record_pending]
          exact Nat.le_succ _

/-! ## Steps are moves -/

theorem length_eraseIdx_pending {pool : Pool β α} {i : Nat} {q : Pending β α}
    (hq : pool.pending[i]? = some q) :
    (pool.pending.eraseIdx i).length + 1 = pool.pending.length := by
  have hi := (List.getElem?_eq_some_iff.mp hq).1
  rw [List.length_eraseIdx_of_lt hi]
  omega

/-- What a move and its worker come to: the worker is free and takes files, it is still busy, or it
has come to its end. -/
inductive Follows (job : Job β α) (pool mid : Pool β α) : Pool β α → Prop where
  | free (h : mid.pending.length < pool.pending.length) : Follows job pool mid (mid.takeNext job)
  | busy (h : mid.pending.length = pool.pending.length) : Follows job pool mid mid
  | dead (h : mid.pending.length < pool.pending.length) (hr : mid.rejected.isSome = true) :
      Follows job pool mid mid

/-- A file is done with, and its worker goes on if the outcome can be recorded. -/
theorem close_follows {pool : Pool β α} {i : Nat} {q : Pending β α}
    (hq : pool.pending[i]? = some q) (events : List Event) (o : Except Thrown α) :
    Follows job pool (((pool.leave i).note events).record job q.path o)
      (((pool.leave i).note events).close job q.path o) := by
  have hlt : (((pool.leave i).note events).record job q.path o).pending.length <
      pool.pending.length := by
    rw [record_pending]
    exact Nat.lt_of_succ_le (Nat.le_of_eq (length_eraseIdx_pending hq))
  unfold close
  cases hkept : isKept o with
  | true => exact .free hlt
  | false => exact .dead hlt (record_lost _ _ hkept)

theorem sized_moves (job : Job β α) (world : World σ β) (s : σ) {pool : Pool β α} {i : Nat}
    {path : String} (hq : pool.pending[i]? = some ⟨path, .sizing⟩) :
    ∃ mid, Answered job world (s, pool) ((world.size s path).2, mid) ∧
      Follows job pool mid ((pool.leave i).sized job path (world.size s path).1) := by
  cases ha : (world.size s path).1 with
  | error t =>
    refine ⟨_, .closed hq (.unsized ha), ?_⟩
    have hclose := @close_follows _ _ job _ _ _ hq [] (.error t)
    rw [note_nil] at hclose ⊢
    exact hclose
  | ok n =>
    cases hn : Number.lt job.limit n with
    | true =>
      refine ⟨_, .closed hq (.tooLarge ha hn), ?_⟩
      have hclose := @close_follows _ _ job _ _ _ hq []
        (.error (.problem (.fault (.fileTooLarge path n job.limit))))
      rw [note_nil] at hclose ⊢
      simp only [sized, hn, if_true]
      exact hclose
    | false =>
      cases hr : job.refuse path with
      | none =>
        refine ⟨_, .passed hq ha hn hr, ?_⟩
        simp only [sized, start, hn, hr, Bool.false_eq_true, if_false]
        exact .busy (List.length_append.trans (length_eraseIdx_pending hq))
      | some t =>
        refine ⟨_, .closed hq (.refused ha hn hr), ?_⟩
        simp only [sized, start, hn, hr, Bool.false_eq_true, if_false]
        exact close_follows hq [.started path, .settled path] (.error t)

theorem answer_moves (job : Job β α) (world : World σ β) (s : σ) {pool : Pool β α} {i : Nat}
    {path : String} (hq : pool.pending[i]? = some ⟨path, .working⟩) :
    ∃ mid, Answered job world (s, pool) ((world.value s path).2, mid) ∧
      Follows job pool mid (pool.answer job i path (world.value s path).1) := by
  cases ha : (world.value s path).1 with
  | error t => exact ⟨_, .closed hq (.failed ha), close_follows hq [.settled path] (.error t)⟩
  | ok v => exact ⟨_, .opened hq ha, .busy List.length_set⟩

/-- **A step.** The worker at a position goes on, which is one move; then, if it is free, it takes
files. -/
theorem settle_moves (job : Job β α) (world : World σ β) {s : σ} {pool : Pool β α} {i : Nat}
    (hi : i < pool.pending.length) :
    ∃ s' mid next, Answered job world (s, pool) (s', mid) ∧ Follows job pool mid next ∧
      settle job world (s, pool) i = (s', next) := by
  obtain ⟨⟨path, stage⟩, hq⟩ : ∃ q, pool.pending[i]? = some q :=
    ⟨_, List.getElem?_eq_getElem hi⟩
  unfold settle
  simp only [hq]
  cases stage with
  | sizing =>
    obtain ⟨mid, hmid, hnext⟩ := sized_moves job world s hq
    exact ⟨_, mid, _, hmid, hnext, rfl⟩
  | working =>
    obtain ⟨mid, hmid, hnext⟩ := answer_moves job world s hq
    exact ⟨_, mid, _, hmid, hnext, rfl⟩
  | reading tree v => exact ⟨_, _, _, .read hq, .busy List.length_set, rfl⟩
  | releasing tree o => exact ⟨_, _, _, .closed hq .released, close_follows hq _ o, rfl⟩

/-! ## Runs are moves -/

/-- The state that a list of choices leads to. -/
def settleAll (job : Job β α) (world : World σ β) (st : σ × Pool β α) (choices : List Nat) :
    σ × Pool β α :=
  choices.foldl (settle job world) st

theorem Move.of_taken {s : σ} {pool pool' : Pool β α}
    (h : ReflTransGen (Taken job) pool pool') :
    ReflTransGen (Move job world) (s, pool) (s, pool') := by
  induction h with
  | refl => exact .refl
  | tail _ hstep ih => exact ih.tail (.taken hstep)

/-- There is no such worker. -/
theorem settle_eq_self (job : Job β α) (world : World σ β) {st : σ × Pool β α} {i : Nat}
    (hi : st.2.pending.length ≤ i) : settle job world st i = st := by
  simp [settle, List.getElem?_eq_none hi]

theorem settle_path (st : σ × Pool β α) (i : Nat) :
    ReflTransGen (Move job world) st (settle job world st i) := by
  obtain ⟨s, pool⟩ := st
  by_cases hi : i < pool.pending.length
  · obtain ⟨s', mid, next, hmid, hnext, heq⟩ := settle_moves job world (s := s) hi
    rw [heq]
    cases hnext with
    | free _ => exact .head (.answered hmid) (Move.of_taken (takeNext_moves mid))
    | busy _ => exact .single (.answered hmid)
    | dead _ _ => exact .single (.answered hmid)
  · rw [settle_eq_self job world (Nat.le_of_not_lt hi)]

theorem settleAll_path (choices : List Nat) (st : σ × Pool β α) :
    ReflTransGen (Move job world) st (settleAll job world st choices) := by
  induction choices generalizing st with
  | nil => exact .refl
  | cons i is ih => exact (settle_path st i).trans (ih _)

theorem launch_path (job : Job β α) (concurrency : Int) (files : List String) :
    ReflTransGen (Taken job) (fresh job files) (launch job concurrency files) := by
  unfold launch
  induction workers concurrency files.length with
  | zero => exact .refl
  | succ n ih =>
    rw [List.range_succ, List.foldl_append]
    exact ih.trans (takeNext_moves _)

/-- **A run.** Whatever is chosen, a run is a sequence of moves from the pool in which no file has
been taken. -/
theorem run_path (job : Job β α) (world : World σ β) (concurrency : Int) (files : List String)
    (choices : List Nat) (s : σ) :
    ReflTransGen (Move job world) (s, fresh job files)
      (settleAll job world (s, launch job concurrency files) choices) :=
  (Move.of_taken (launch_path job concurrency files)).trans (settleAll_path choices _)

/-! ## Invariants that need a free worker -/

section Bound

variable {P : Pool β α → Prop} {bound : Nat}
  (htaken : ∀ pool pool', P pool → pool.pending.length < bound → Taken job pool pool' → P pool')

include htaken

/-- What a free worker that takes a file keeps holds when all workers have taken their first file. -/
theorem launch_induction {concurrency : Int} {files : List String} (hfresh : P (fresh job files))
    (hbound : workers concurrency files.length ≤ bound) :
    P (launch job concurrency files) := by
  -- of workers that take a file one after the other, each finds those before it busy at most
  have hstart : ∀ n ≤ workers concurrency files.length,
      P ((List.range n).foldl (fun pool _ => pool.takeNext job) (fresh job files)) ∧
        ((List.range n).foldl (fun pool _ => pool.takeNext job)
          (fresh job files)).pending.length ≤ n := by
    intro n
    induction n with
    | zero => exact fun _ => ⟨hfresh, Nat.le_refl 0⟩
    | succ n ih =>
      intro hn
      obtain ⟨hsofar, hpending⟩ := ih (Nat.le_of_succ_le hn)
      rw [List.range_succ, List.foldl_append]
      exact ⟨take_induction bound htaken _ _ rfl hsofar (by omega),
        Nat.le_trans (take_length_le _ _) (Nat.succ_le_succ hpending)⟩
  exact (hstart _ (Nat.le_refl _)).1

/-- So do the choices of a run, if no move breaks it and there are no more questions than workers. -/
theorem settleAll_induction {world : World σ β}
    (hanswered : ∀ st st' : σ × Pool β α, P st.2 → Answered job world st st' → P st'.2)
    (hroom : ∀ pool, P pool → pool.pending.length ≤ bound) (choices : List Nat)
    (st : σ × Pool β α) (h : P st.2) : P (settleAll job world st choices).2 := by
  induction choices generalizing st with
  | nil => exact h
  | cons i choices ih =>
    refine ih _ ?_
    obtain ⟨s, pool⟩ := st
    by_cases hi : i < pool.pending.length
    · obtain ⟨s', mid, next, hmid, hnext, heq⟩ := settle_moves job world (s := s) hi
      have hP := hanswered _ _ h hmid
      rw [heq]
      cases hnext with
      | free hlt =>
        exact take_induction bound htaken _ mid rfl hP (Nat.lt_of_lt_of_le hlt (hroom pool h))
      | busy _ => exact hP
      | dead _ _ => exact hP
    · rw [settle_eq_self job world (Nat.le_of_not_lt hi)]
      exact h

end Bound

end ClassCohesion.Pool
