import Mathlib.Data.List.Nodup
import ClassCohesion.Proofs.PoolLedger

/-!
# Pools in a world that answers by the file

In a world whose answers depend on the file alone, what becomes of a file is a function of the file,
and the order in which questions are answered shows only in the order of the outcomes.

A world may change with every question. `Fixed` says that for certain files it gives certain answers
the first time it is asked, whatever it has been asked before. A pool over distinct files asks each
question once, so in a fixed world its moves are moves in the world that gives these answers all the
time (`Traced.move`). There `Job.outcome` says what becomes of a file, and `run_outcomes` what a
whole run comes to.
-/

namespace ClassCohesion.Pool

open Relation (ReflTransGen)

variable {σ β α : Type} {job : Job β α} {world : World σ β}

/-! ## Questions and answers -/

/-- What a world can be asked. -/
inductive Question where
  | size (path : String)
  | value (path : String)
deriving DecidableEq

namespace World

/-- The world after a question. -/
def ask (world : World σ β) (s : σ) : Question → σ
  | .size path => (world.size s path).2
  | .value path => (world.value s path).2

/-- The world after several questions. -/
def after (world : World σ β) (s : σ) (asked : List Question) : σ := asked.foldl world.ask s

theorem after_append (world : World σ β) (s : σ) (asked more : List Question) :
    world.after s (asked ++ more) = world.after (world.after s asked) more :=
  List.foldl_append

/-- The world that gives the same answers all the time. -/
def const (size : String → Except Thrown Number) (value : String → Except Thrown β) :
    World Unit β where
  size _ path := (size path, ())
  value _ path := (value path, ())

/-- For each of the files, the first question for its size and the first call are answered as
given. -/
structure Fixed (world : World σ β) (s : σ) (files : List String)
    (size : String → Except Thrown Number) (value : String → Except Thrown β) : Prop where
  size : ∀ asked, ∀ path ∈ files, .size path ∉ asked →
    (world.size (world.after s asked) path).1 = size path
  value : ∀ asked, ∀ path ∈ files, .value path ∉ asked →
    (world.value (world.after s asked) path).1 = value path

end World

/-! ## What becomes of a file -/

/-- What becomes of a file whose call is started. -/
def Job.call (job : Job β α) (value : String → Except Thrown β) (path : String) :
    Except Thrown α :=
  match job.refuse path with
  | some t => .error t
  | none => (value path).bind (job.read path)

/-- What becomes of a file. -/
def Job.outcome (job : Job β α) (size : String → Except Thrown Number)
    (value : String → Except Thrown β) (path : String) : Except Thrown α :=
  if Number.le job.limit 0 then job.call value path
  else
    match size path with
    | .error t => .error t
    | .ok n =>
      if Number.lt job.limit n then
        .error (.problem (.fault (.fileTooLarge path n job.limit)))
      else job.call value path

section Outcome

variable {size : String → Except Thrown Number} {value : String → Except Thrown β}
  {path : String}

theorem outcome_of_starts (h : Starts job (World.const size value) path) :
    job.outcome size value path = job.call value path := by
  cases h with
  | unlimited hl => simp [Job.outcome, hl]
  | within hl ha hn =>
    have ha' : size path = .ok _ := ha
    simp [Job.outcome, hl, ha', hn]

/-- A result is read from the answer to the call. -/
theorem outcome_ok {result : α} (h : job.outcome size value path = .ok result) :
    ∃ v, value path = .ok v ∧ job.read path v = .ok result := by
  have hcall : job.call value path = .ok result := by
    unfold Job.outcome at h
    split at h
    · exact h
    · split at h
      · cases h
      · split at h
        · cases h
        · exact h
  unfold Job.call at hcall
  split at hcall
  · cases hcall
  · cases hv : value path with
    | error t =>
      rw [hv] at hcall
      cases hcall
    | ok v =>
      rw [hv] at hcall
      exact ⟨v, rfl, hcall⟩

/-- In a world of constant answers a file can end in one way only. -/
theorem ends_const {o : Except Thrown α} (h : Ends job (World.const size value) path o) :
    o = job.outcome size value path := by
  cases h with
  | unsized hl ha =>
    have ha' : size path = .error _ := ha
    simp [Job.outcome, hl, ha']
  | tooLarge hl ha hn =>
    have ha' : size path = .ok _ := ha
    simp [Job.outcome, hl, ha', hn]
  | refused hs hr => simp [outcome_of_starts hs, Job.call, hr]
  | failed hs hr ha =>
    have ha' : value path = .error _ := ha
    simp [outcome_of_starts hs, Job.call, hr, ha', Except.bind]
  | finished hs hr ha =>
    have ha' : value path = .ok _ := ha
    simp [outcome_of_starts hs, Job.call, hr, ha', Except.bind]

end Outcome

/-! ## The questions of a pool -/

/-- The questions that may still be asked about a file that a worker is busy with. -/
def Pending.questions : Pending β α → List Question
  | ⟨path, .sizing⟩ => [.size path, .value path]
  | ⟨path, .working⟩ => [.value path]
  | _ => []

/-- The question that a worker waits for the answer to, if it does. -/
def Pending.asking : Pending β α → List Question
  | ⟨path, .sizing⟩ => [.size path]
  | ⟨path, .working⟩ => [.value path]
  | _ => []

/-- The questions that a pool may still ask. -/
def questions (pool : Pool β α) : List Question :=
  pool.pending.flatMap Pending.questions ++
    pool.waiting.flatMap fun path => [.size path, .value path]

section Questions

variable {pool : Pool β α} {path : String}

theorem questions_leave {i : Nat} {q : Pending β α} (hq : pool.pending[i]? = some q) :
    pool.questions.Perm (q.questions ++ (pool.leave i).questions) := by
  have hperm := (perm_cons_eraseIdx hq).flatMap_right Pending.questions
  rw [List.flatMap_cons] at hperm
  exact (hperm.append_right _).trans (.of_eq (List.append_assoc _ _ _))

theorem questions_tail {rest : List String} (hw : pool.waiting = path :: rest) :
    pool.questions.Perm
      ([.size path, .value path] ++ questions { pool with waiting := rest }) := by
  rw [questions, hw, List.flatMap_cons]
  exact List.perm_append_comm_assoc _ _ _

theorem questions_ask (pool : Pool β α) (path : String) (stage : Stage β α) :
    (pool.ask path stage).questions.Perm (Pending.questions ⟨path, stage⟩ ++ pool.questions) := by
  simp only [questions, ask, List.flatMap_append, List.flatMap_cons, List.flatMap_nil,
    List.append_nil, List.append_assoc]
  exact List.perm_append_comm_assoc _ _ _

theorem questions_turn {i : Nat} {q : Pending β α} (hq : pool.pending[i]? = some q) (path : String)
    (stage : Stage β α) :
    (pool.turn i path stage).questions.Perm
      (Pending.questions ⟨path, stage⟩ ++ (pool.leave i).questions) := by
  have hperm := (perm_cons_set hq ⟨path, stage⟩).flatMap_right Pending.questions
  rw [List.flatMap_cons] at hperm
  exact (hperm.append_right _).trans (.of_eq (List.append_assoc _ _ _))

theorem questions_record (pool : Pool β α) (path : String) (o : Except Thrown α) :
    (pool.record job path o).questions = pool.questions := by
  rw [questions, record_pending, record_waiting]
  rfl

end Questions

/-! ## What a move spends -/

/-- A file has failed, or the pool is rejected altogether. -/
def Failed (pool : Pool β α) (path : String) : Prop :=
  path ∈ pool.errors.map Prod.fst ∨ pool.rejected.isSome = true

theorem failed_record_error (pool : Pool β α) (path : String) (t : Thrown) :
    (pool.record job path (.error t)).Failed path := by
  rw [record_eq]
  cases t with
  | problem p => exact .inl (by simp [problemOf])
  | textless why => exact .inr (by simp [lossOf])

theorem Failed.record {pool : Pool β α} {file : String} (h : pool.Failed file) (path : String)
    (o : Except Thrown α) : (pool.record job path o).Failed file := by
  rw [record_eq]
  rcases h with h | h
  · refine .inl ?_
    rw [List.map_append]
    exact List.mem_append_left _ h
  · exact .inr (by simp [h])

/-- The questions of a pool are those that a move asks, those that it gives up, and those that the
pool keeps. A call that is given up is one for a file that has failed. -/
structure Spends (pool pool' : Pool β α) (new : List Question) : Prop where
  questions : ∃ dropped, pool.questions.Perm (new ++ dropped ++ pool'.questions) ∧
    ∀ path, .value path ∈ dropped → pool'.Failed path
  failed : ∀ path, pool.Failed path → pool'.Failed path

theorem Taken.spends {pool pool' : Pool β α} (hm : Taken job pool pool') :
    Spends pool pool' [] := by
  cases hm with
  | @sizing path rest hw =>
    refine ⟨⟨[], ?_, by simp⟩, fun _ h => h⟩
    exact (questions_tail hw).trans (questions_ask _ path .sizing).symm
  | @working path rest hw =>
    refine ⟨⟨[.size path], ?_, by simp⟩, fun _ h => h⟩
    exact (questions_tail hw).trans ((questions_ask _ path .working).symm.cons _)
  | @refused path rest t hw =>
    refine ⟨⟨[.size path, .value path], ?_, fun file hfile => ?_⟩, fun file h => ?_⟩
    · rw [questions_record]
      exact questions_tail hw
    · have hsame : file = path := by simpa using hfile
      rw [hsame]
      exact failed_record_error _ path t
    · refine Failed.record ?_ path _
      exact h

theorem Answered.spends {s s' : σ} {pool pool' : Pool β α}
    (hm : Answered job world (s, pool) (s', pool')) :
    ∃ q ∈ pool.pending, s' = world.after s q.asking ∧ Spends pool pool' q.asking := by
  cases hm with
  | @passed _ _ i path _ hq =>
    refine ⟨_, List.mem_of_getElem? hq, rfl, ⟨[], ?_, by simp⟩, fun _ h => h⟩
    exact (questions_leave hq).trans ((questions_ask _ path .working).symm.cons _)
  | @opened _ _ i path v hq =>
    refine ⟨_, List.mem_of_getElem? hq, rfl, ⟨[], ?_, by simp⟩, fun _ h => h⟩
    have hturn := (questions_turn hq path (.reading (pool.treeIn job v) v)).symm.cons
      (Question.value path)
    exact (questions_leave hq).trans hturn
  | @read _ _ i path tree v hq =>
    refine ⟨_, List.mem_of_getElem? hq, rfl, ⟨[], ?_, by simp⟩, fun _ h => h⟩
    have hturn := questions_turn hq path (.releasing tree (job.read path v))
    exact (questions_leave hq).trans hturn.symm
  | @closed _ _ _ i q events o hq hc =>
    have hleave := questions_leave hq
    refine ⟨q, List.mem_of_getElem? hq, by cases hc <;> rfl, ?_, fun file h => ?_⟩
    swap
    · refine Failed.record ?_ q.path o
      exact h
    rw [questions_record]
    -- before the call has been asked for, a file can only fail
    have hsized (path : String) (t : Thrown) : ∀ file, Question.value file ∈ [.value path] →
        (((pool.leave i).note events).record job path (.error t)).Failed file := by
      intro file hfile
      have hsame : file = path := by simpa using hfile
      rw [hsame]
      exact failed_record_error _ path t
    cases hc with
    | @unsized path t => exact ⟨[.value path], hleave, hsized path _⟩
    | @tooLarge path n => exact ⟨[.value path], hleave, hsized path _⟩
    | @refused path n t => exact ⟨[.value path], hleave, hsized path _⟩
    | failed => exact ⟨[], hleave, by simp⟩
    | released => exact ⟨[], hleave, by simp⟩

/-! ## Moves in a fixed world -/

/-- How a state came about: by questions none of which is asked again. For every file whose call is
not to be asked for any more, it has been, or the file has failed. -/
structure Traced (world : World σ β) (start : σ) (files : List String) (st : σ × Pool β α)
    (asked : List Question) : Prop where
  state : st.1 = world.after start asked
  nodup : (asked ++ st.2.questions).Nodup
  known : ∀ path, .value path ∈ st.2.questions → path ∈ files
  done : ∀ path ∈ files,
    .value path ∈ st.2.questions ∨ st.2.Failed path ∨ .value path ∈ asked

namespace Traced

variable {start s s' : σ} {files : List String} {pool pool' : Pool β α} {asked : List Question}

theorem fresh (job : Job β α) (world : World σ β) (start : σ) {files : List String}
    (hnd : files.Nodup) : Traced world start files (start, Pool.fresh job files) [] where
  state := rfl
  nodup := by
    show (files.flatMap fun path => [Question.size path, .value path]).Nodup
    rw [List.nodup_flatMap]
    refine ⟨fun path _ => by simp, hnd.imp fun {a b} hab => ?_⟩
    simp [Function.onFun, hab.symm]
  known := by
    intro path hp
    simpa [questions, Pool.fresh] using hp
  done := by
    intro path hp
    refine .inl ?_
    simpa [questions, Pool.fresh] using hp

theorem spend (h : Traced world start files (s, pool) asked) {new : List Question}
    (hs : s' = world.after s new) (hm : Spends pool pool' new) :
    Traced world start files (s', pool') (asked ++ new) := by
  obtain ⟨dropped, hperm, hdropped⟩ := hm.questions
  refine ⟨?_, ?_, fun path hp => ?_, fun path hp => ?_⟩
  · have hstate : s = world.after start asked := h.state
    rw [World.after_append, ← hstate, hs]
  · have hnodup := h.nodup
    rw [List.nodup_iff_count_le_one] at hnodup ⊢
    intro a
    have h1 := hnodup a
    have h2 := hperm.count_eq a
    simp only [List.count_append] at h1 h2 ⊢
    omega
  · exact h.known path (hperm.mem_iff.mpr (List.mem_append_right _ hp))
  · rcases h.done path hp with hq | hf | ha
    · rcases List.mem_append.mp (hperm.mem_iff.mp hq) with hq | hq
      · rcases List.mem_append.mp hq with hq | hq
        · exact .inr (.inr (List.mem_append_right _ hq))
        · exact .inr (.inl (hdropped path hq))
      · exact .inl hq
    · exact .inr (.inl (hm.failed path hf))
    · exact .inr (.inr (List.mem_append_left _ ha))

/-- What a worker waits for has not been asked, and is about one of the files. -/
theorem not_asked (h : Traced world start files (s, pool) asked) {q : Pending β α}
    (hq : q ∈ pool.pending) :
    (∀ a ∈ q.asking, a ∉ asked) ∧ (q.asking ≠ [] → q.path ∈ files) := by
  have hmem {a : Question} (ha : a ∈ q.questions) : a ∈ pool.questions :=
    List.mem_append_left _ (List.mem_flatMap.mpr ⟨q, hq, ha⟩)
  have hsub : ∀ a ∈ q.asking, a ∈ q.questions := by
    obtain ⟨path, stage⟩ := q
    cases stage <;> simp [Pending.asking, Pending.questions]
  refine ⟨fun a ha hasked => ?_, fun hne => ?_⟩
  · exact (List.nodup_append.mp h.nodup).2.2 _ hasked _ (hmem (hsub a ha)) rfl
  · have hcall : .value q.path ∈ q.questions := by
      obtain ⟨path, stage⟩ := q
      cases stage <;> simp_all [Pending.asking, Pending.questions]
    exact h.known _ (hmem hcall)

/-- **Moves in a fixed world** are moves in the world that gives its answers all the time. -/
theorem move {size : String → Except Thrown Number} {value : String → Except Thrown β}
    (hfix : world.Fixed start files size value) {st st' : σ × Pool β α}
    (h : Traced world start files st asked) (hm : Move job world st st') :
    (∃ asked', Traced world start files st' asked') ∧
      Move job (World.const size value) ((), st.2) ((), st'.2) := by
  cases hm with
  | taken hm =>
    refine ⟨⟨asked ++ [], h.spend rfl hm.spends⟩, .taken hm⟩
  | answered hm =>
    obtain ⟨s, pool⟩ := st
    obtain ⟨s', pool'⟩ := st'
    obtain ⟨q, hq, hs, hspend⟩ := hm.spends
    refine ⟨⟨asked ++ q.asking, h.spend hs hspend⟩, .answered ?_⟩
    have hstate : s = world.after start asked := h.state
    -- the answers of the world are those it is fixed to give
    have hsize : ∀ path, ⟨path, .sizing⟩ ∈ pool.pending → (world.size s path).1 = size path := by
      intro path hmem
      obtain ⟨hnew, hfile⟩ := h.not_asked hmem
      rw [hstate]
      exact hfix.size asked path (hfile (List.cons_ne_nil _ _)) (hnew _ List.mem_cons_self)
    have hvalue : ∀ path, ⟨path, .working⟩ ∈ pool.pending →
        (world.value s path).1 = value path := by
      intro path hmem
      obtain ⟨hnew, hfile⟩ := h.not_asked hmem
      rw [hstate]
      exact hfix.value asked path (hfile (List.cons_ne_nil _ _)) (hnew _ List.mem_cons_self)
    cases hm with
    | passed hq ha hn hr =>
      rw [hsize _ (List.mem_of_getElem? hq)] at ha
      exact .passed (s := ()) hq ha hn hr
    | opened hq ha =>
      rw [hvalue _ (List.mem_of_getElem? hq)] at ha
      exact .opened (s := ()) hq ha
    | read hq => exact .read hq
    | closed hq hc =>
      refine .closed (s := ()) hq ?_
      have hmem := List.mem_of_getElem? hq
      cases hc with
      | unsized ha =>
        rw [hsize _ hmem] at ha
        exact .unsized ha
      | tooLarge ha hn =>
        rw [hsize _ hmem] at ha
        exact .tooLarge ha hn
      | refused ha hn hr =>
        rw [hsize _ hmem] at ha
        exact .refused ha hn hr
      | failed ha =>
        rw [hvalue _ hmem] at ha
        exact .failed ha
      | released => exact .released

theorem moves {size : String → Except Thrown Number} {value : String → Except Thrown β}
    (hfix : world.Fixed start files size value) {st st' : σ × Pool β α}
    (h : Traced world start files st asked) (hm : ReflTransGen (Move job world) st st') :
    (∃ asked', Traced world start files st' asked') ∧
      ReflTransGen (Move job (World.const size value)) ((), st.2) ((), st'.2) := by
  induction hm with
  | refl => exact ⟨⟨asked, h⟩, .refl⟩
  | tail _ hstep ih =>
    obtain ⟨⟨asked', h'⟩, hpath⟩ := ih
    obtain ⟨htraced, hmove⟩ := h'.move hfix hstep
    exact ⟨htraced, hpath.tail hmove⟩

end Traced

/-! ## Runs in a fixed world -/

/-- What a run in a fixed world comes to. The results and problems are those of the files, in some
order, and of every file with a result the call has been asked for. -/
structure Outcomes (job : Job β α) (world : World σ β) (start : σ) (files : List String)
    (outcome : String → Except Thrown α) (last : σ × Pool β α) : Prop where
  accepted : last.2.rejected = none
  results : last.2.results.Perm (files.filterMap fun path => resultOf (path, outcome path))
  errors : last.2.errors.Perm (files.filterMap fun path => problemOf (path, outcome path))
  asked : ∃ asked, last.1 = world.after start asked ∧ asked.Nodup ∧
    ∀ path ∈ files, ∀ result, outcome path = .ok result → .value path ∈ asked

/-- A list in which everything has come to its outcome lists the outcomes. -/
theorem closed_eq_map {γ δ : Type} {closed : List (γ × δ)} {outcome : γ → δ}
    (h : ∀ c ∈ closed, c.2 = outcome c.1) :
    closed = (closed.map Prod.fst).map fun c => (c, outcome c) := by
  rw [List.map_map]
  conv_lhs => rw [← List.map_id closed]
  refine List.map_congr_left fun c hc => ?_
  exact Prod.ext rfl (h c hc)

/-- **Runs in a fixed world.** Whatever the number of workers and the order in which they go on, a
complete run over distinct files whose outcomes can be recorded comes to these outcomes. -/
theorem run_outcomes {size : String → Except Thrown Number} {value : String → Except Thrown β}
    {start : σ} {files : List String} (hnd : files.Nodup)
    (hfix : world.Fixed start files size value)
    (hkept : ∀ path ∈ files, isKept (job.outcome size value path) = true) {concurrency : Int}
    {choices : List Nat} (ho : Order job world (start, launch job concurrency files) choices) :
    Outcomes job world start files (job.outcome size value)
      (run job world concurrency files choices start) := by
  obtain ⟨⟨asked, ht⟩, hpath⟩ := (Traced.fresh job world start hnd).moves hfix
    (run_path job world concurrency files choices start)
  have hfresh : Ledger job (World.const size value) files
      (((), fresh job files) : Unit × Pool β α).2 [] := .fresh _ _ files
  obtain ⟨closed, hledger⟩ := hfresh.moves hpath
  -- the ledger is one of the constant world, where there is one way to end for each file
  have hends : ∀ c ∈ closed, c.2 = job.outcome size value c.1 :=
    fun c hc => ends_const (hledger.ends c hc)
  have haccepted : (settleAll job world (start, launch job concurrency files) choices).2.rejected =
      none := by
    refine hledger.not_rejected fun path hp o ho => ?_
    rw [ends_const ho]
    exact hkept path hp
  obtain ⟨hwaiting, hpending, -⟩ := isDone_iff.mp (ho.isDone haccepted)
  have hfiles : (closed.map Prod.fst).Perm files := by
    have hperm := hledger.files
    rw [hwaiting, hpending] at hperm
    simpa using hperm
  refine ⟨haccepted, ?_, ?_, ?_⟩
  · show List.Perm (settleAll job world _ choices).2.results _
    rw [hledger.results, closed_eq_map hends, List.filterMap_map]
    exact hfiles.filterMap _
  · show List.Perm (settleAll job world _ choices).2.errors _
    rw [hledger.errors, closed_eq_map hends, List.filterMap_map]
    exact hfiles.filterMap _
  · refine ⟨asked, ht.state, (List.nodup_append.mp ht.nodup).1, fun path hp result hok => ?_⟩
    rcases ht.done path hp with hq | hf | ha
    · rw [questions, hwaiting, hpending] at hq
      exact absurd hq List.not_mem_nil
    · rcases hf with hf | hf
      · obtain ⟨e, he, rfl⟩ := List.mem_map.mp hf
        obtain ⟨p, hend, -⟩ := hledger.exists_problem he
        cases (ends_const hend).trans hok
      · rw [haccepted] at hf
        cases hf
    · exact ha

end ClassCohesion.Pool
