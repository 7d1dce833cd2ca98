import Mathlib.Data.List.Basic
import Mathlib.Data.List.Perm.Basic
import ClassCohesion.Proofs.PoolOrder

/-!
# The ledger of a pool

A ledger lists the files that a pool is done with, in the order in which they were, with what became
of each. The results, the problems, the rejection and what the trace tells of outcomes are readings of
one ledger, and the files of the ledger together with those still in the pool are the files of the
job. So no file is lost, none is counted twice, and none ends both ways.

`Ends` says what can become of a file, one rule for each way to end; `Ledger` is the invariant,
`Ledger.move` its preservation by a move, and `run_ledger` what follows for a whole run.
-/

namespace ClassCohesion.Pool

open Relation (ReflTransGen)

variable {σ β α : Type} {job : Job β α} {world : World σ β}

/-! ## How a file can end -/

/-- The size of a file does not keep its call from being started. -/
inductive Starts (job : Job β α) (world : World σ β) (path : String) : Prop where
  | unlimited (hl : Number.le job.limit 0 = true)
  | within {s : σ} {n : Number} (hl : Number.le job.limit 0 = false)
      (ha : (world.size s path).1 = .ok n) (hn : Number.lt job.limit n = false)

/-- What can become of a file. -/
inductive Ends (job : Job β α) (world : World σ β) (path : String) : Except Thrown α → Prop where
  | unsized {s : σ} {t : Thrown} (hl : Number.le job.limit 0 = false)
      (ha : (world.size s path).1 = .error t) : Ends job world path (.error t)
  | tooLarge {s : σ} {n : Number} (hl : Number.le job.limit 0 = false)
      (ha : (world.size s path).1 = .ok n) (hn : Number.lt job.limit n = true) :
      Ends job world path (.error (.problem (.fault (.fileTooLarge path n job.limit))))
  | refused {t : Thrown} (h : Starts job world path) (hr : job.refuse path = some t) :
      Ends job world path (.error t)
  | failed {s : σ} {t : Thrown} (h : Starts job world path) (hr : job.refuse path = none)
      (ha : (world.value s path).1 = .error t) : Ends job world path (.error t)
  | finished {s : σ} {v : β} (h : Starts job world path) (hr : job.refuse path = none)
      (ha : (world.value s path).1 = .ok v) : Ends job world path (job.read path v)

/-- A result is read from an answer of the world. -/
theorem Ends.exists_value {path : String} {o : Except Thrown α} {result : α}
    (h : Ends job world path o) (ho : o = .ok result) :
    ∃ s v, (world.value s path).1 = .ok v ∧ job.read path v = .ok result := by
  cases h with
  | @finished s v _ _ ha => exact ⟨s, v, ha, ho⟩
  | _ => cases ho

/-- What is known of a file that a worker is busy with. -/
def Asks (job : Job β α) (world : World σ β) : Pending β α → Prop
  | ⟨_, .sizing⟩ => Number.le job.limit 0 = false
  | ⟨path, .working⟩ => Starts job world path ∧ job.refuse path = none
  | ⟨path, .reading _ v⟩ =>
    Starts job world path ∧ job.refuse path = none ∧ ∃ s, (world.value s path).1 = .ok v
  | ⟨path, .releasing _ o⟩ => Ends job world path o

/-! ## What is told of outcomes -/

/-- Whether an event tells of an outcome. -/
def Event.isTold : Event → Bool
  | .recorded _ => true
  | .progress .. => true
  | _ => false

/-- The file whose outcome an event says is recorded. -/
def recordedOf : Event → Option String
  | .recorded path => some path
  | _ => none

/-- The file and the number of a report of progress. -/
def progressOf : Event → Option (String × Nat)
  | .progress path n => some (path, n)
  | _ => none

/-- The files of a ledger whose outcome is recorded. -/
def recordedIn (closed : List (String × Except Thrown α)) : List String :=
  (closed.filter fun c => isKept c.2).map Prod.fst

/-- What is told of files whose outcomes are recorded one after the other. -/
def allTidings (job : Job β α) (recorded : List String) : List Event :=
  (recorded.zipIdx job.processed).flatMap fun entry => tidings job entry.2 entry.1

/-- The number of reports after the outcomes of so many files have been recorded. -/
def reportsAfter (job : Job β α) (recorded : Nat) : Nat :=
  job.processed + if job.reports then recorded else 0

theorem recordedIn_append (as bs : List (String × Except Thrown α)) :
    recordedIn (as ++ bs) = recordedIn as ++ recordedIn bs := by
  rw [recordedIn, List.filter_append, List.map_append]
  rfl

theorem allTidings_snoc (job : Job β α) (recorded : List String) (path : String) :
    allTidings job (recorded ++ [path]) =
      allTidings job recorded ++ tidings job (reportsAfter job recorded.length) path := by
  have hnumber : tidings job (job.processed + recorded.length) path =
      tidings job (reportsAfter job recorded.length) path := by
    cases h : job.reports <;> simp [tidings, reportsAfter, h]
  rw [allTidings, List.zipIdx_append, List.flatMap_append, ← hnumber]
  exact congrArg (_ ++ ·) (List.flatMap_singleton _ _)

theorem isTold_logged (entries : List Log.Entry) :
    (entries.map Event.logged).filter Event.isTold = [] := by
  simp [List.filter_map, Function.comp_def, Event.isTold]

/-- Recording an outcome is told, if it can be recorded. -/
theorem isTold_recordEvents (job : Job β α) (processed : Nat) (path : String)
    (o : Except Thrown α) :
    (recordEvents job processed path o).filter Event.isTold =
      if isKept o then tidings job processed path else [] := by
  have htidings : (tidings job processed path).filter Event.isTold = tidings job processed path := by
    unfold tidings
    split <;> rfl
  rcases o with (p | why) | result
  · rw [recordEvents, List.filter_append, isTold_logged, htidings]
    rfl
  · exact isTold_logged _
  · exact htidings

theorem recordedOf_allTidings (job : Job β α) (recorded : List String) :
    (allTidings job recorded).filterMap recordedOf = recorded := by
  have hone (entry : String × Nat) :
      (tidings job entry.2 entry.1).filterMap recordedOf = [entry.1] := by
    unfold tidings
    split <;> rfl
  rw [allTidings, List.filterMap_flatMap]
  simp only [hone]
  rw [← List.map_eq_flatMap, List.zipIdx_map_fst]

theorem progressOf_allTidings (job : Job β α) (recorded : List String) :
    (allTidings job recorded).filterMap progressOf =
      if job.reports then recorded.zipIdx (job.processed + 1) else [] := by
  cases h : job.reports with
  | false =>
    simp [allTidings, tidings, h, List.filterMap_flatMap, progressOf]
  | true =>
    have hone (entry : String × Nat) :
        (tidings job entry.2 entry.1).filterMap progressOf = [(entry.1, entry.2 + 1)] := by
      rw [tidings, if_pos h]
      rfl
    rw [allTidings, List.filterMap_flatMap, if_pos rfl]
    simp only [hone]
    rw [← List.map_eq_flatMap, List.zipIdx_succ]

/-- Two selections from a list, joined element by element. -/
theorem filterMap_append_perm {γ δ : Type} {f g k : γ → Option δ} {l : List γ}
    (h : ∀ x ∈ l, (f x).toList ++ (g x).toList = (k x).toList) :
    (l.filterMap f ++ l.filterMap g).Perm (l.filterMap k) := by
  simp only [List.filterMap_eq_flatMap_toList]
  rw [← List.flatMap_congr h]
  exact List.flatMap_append_perm l _ _

/-- A reading that only looks at what is told of outcomes. -/
theorem filterMap_isTold {γ : Type} {f : Event → Option γ} (hf : ∀ e, e.isTold = false → f e = none)
    (trace : List Event) : trace.filterMap f = (trace.filter Event.isTold).filterMap f := by
  rw [List.filterMap_filter]
  refine List.filterMap_congr fun e _ => ?_
  cases h : e.isTold with
  | true => rfl
  | false => exact hf e h

theorem recordedOf_isTold (e : Event) (h : e.isTold = false) : recordedOf e = none := by
  cases e with
  | recorded => cases h
  | _ => rfl

theorem progressOf_isTold (e : Event) (h : e.isTold = false) : progressOf e = none := by
  cases e with
  | progress => cases h
  | _ => rfl

/-! ## Ledgers -/

/-- The files a pool is done with, and what became of each, account for all it has done. -/
structure Ledger (job : Job β α) (world : World σ β) (files : List String) (pool : Pool β α)
    (closed : List (String × Except Thrown α)) : Prop where
  results : pool.results = closed.filterMap resultOf
  errors : pool.errors = closed.filterMap problemOf
  rejected : pool.rejected = (closed.filterMap lossOf).head?
  told : pool.trace.filter Event.isTold = allTidings job (recordedIn closed)
  processed : pool.processed = reportsAfter job (recordedIn closed).length
  files : (closed.map Prod.fst ++ pool.pending.map Pending.path ++ pool.waiting).Perm files
  ends : ∀ c ∈ closed, Ends job world c.1 c.2
  asks : ∀ q ∈ pool.pending, Asks job world q

namespace Ledger

variable {files : List String} {pool : Pool β α} {closed : List (String × Except Thrown α)}

theorem fresh (job : Job β α) (world : World σ β) (files : List String) :
    Ledger job world files (Pool.fresh job files) [] where
  results := rfl
  errors := rfl
  rejected := rfl
  told := rfl
  processed := by
    show job.processed = job.processed + if job.reports then 0 else 0
    rw [ite_self, Nat.add_zero]
  files := .refl files
  ends := by simp
  asks := by simp [Pool.fresh]

/-- Events that tell of no outcome leave a ledger as it is. -/
theorem note (h : Ledger job world files pool closed) {events : List Event}
    (hev : events.filter Event.isTold = []) :
    Ledger job world files (pool.note events) closed where
  results := h.results
  errors := h.errors
  rejected := h.rejected
  told := by
    show (pool.trace ++ events).filter Event.isTold = _
    rw [List.filter_append, hev, List.append_nil, h.told]
  processed := h.processed
  files := h.files
  ends := h.ends
  asks := h.asks

/-- The number of trees is no matter of a ledger. -/
theorem of_trees (h : Ledger job world files pool closed) (trees : Nat) :
    Ledger job world files { pool with trees } closed :=
  ⟨h.results, h.errors, h.rejected, h.told, h.processed, h.files, h.ends, h.asks⟩

/-! Between leaving the queue or its worker and being asked about or done with, a file is in hand: the
ledger of the pool is then one of the other files. -/

theorem leave_queue (h : Ledger job world files pool closed) {path : String}
    {rest : List String} (hw : pool.waiting = path :: rest) :
    ∃ others, files.Perm (path :: others) ∧
      Ledger job world others { pool with waiting := rest } closed := by
  refine ⟨_, ?_, h.results, h.errors, h.rejected, h.told, h.processed, .refl _, h.ends, h.asks⟩
  have hfiles := h.files
  rw [hw] at hfiles
  exact hfiles.symm.trans List.perm_middle

theorem leave_worker (h : Ledger job world files pool closed) {i : Nat} {q : Pending β α}
    (hq : pool.pending[i]? = some q) :
    ∃ others, files.Perm (q.path :: others) ∧ Ledger job world others (pool.leave i) closed := by
  refine ⟨_, ?_, h.results, h.errors, h.rejected, h.told, h.processed, .refl _, h.ends,
    fun q' hq' => ?_⟩
  · have hpend := ((perm_cons_eraseIdx hq).map Pending.path).append_left (closed.map Prod.fst)
    exact h.files.symm.trans ((hpend.trans List.perm_middle).append_right _)
  · exact h.asks q' (List.mem_of_mem_eraseIdx hq')

theorem ask {others : List String} (h : Ledger job world others pool closed) {path : String}
    {stage : Stage β α} (hfiles : files.Perm (path :: others))
    (ha : Asks job world ⟨path, stage⟩) :
    Ledger job world files (pool.ask path stage) closed where
  results := h.results
  errors := h.errors
  rejected := h.rejected
  told := h.told
  processed := h.processed
  files := by
    simp only [Pool.ask, List.map_append, List.map_cons, List.map_nil, List.append_assoc,
      List.cons_append, List.nil_append]
    rw [← List.append_assoc]
    exact List.perm_middle.trans (((h.files).cons path).trans hfiles.symm)
  ends := h.ends
  asks := by
    intro q hq
    rcases List.mem_append.mp hq with hq | hq
    · exact h.asks q hq
    · rw [List.mem_singleton] at hq
      exact hq ▸ ha

/-- A worker that waits for something else is busy with the same file. -/
theorem turn (h : Ledger job world files pool closed) {i : Nat} {q : Pending β α}
    (hq : pool.pending[i]? = some q) {stage : Stage β α} (ha : Asks job world ⟨q.path, stage⟩) :
    Ledger job world files (pool.turn i q.path stage) closed where
  results := h.results
  errors := h.errors
  rejected := h.rejected
  told := h.told
  processed := h.processed
  files := by
    have hturned := (perm_cons_set hq ⟨q.path, stage⟩).map Pending.path
    have hsame := (perm_cons_eraseIdx hq).map Pending.path
    exact (((hturned.trans hsame.symm).append_left _).append_right _).trans h.files
  ends := h.ends
  asks := by
    intro q' hq'
    rcases List.mem_or_eq_of_mem_set hq' with hq' | rfl
    · exact h.asks q' hq'
    · exact ha

/-- A file in hand is entered in the ledger. -/
theorem enter {others : List String} (h : Ledger job world others pool closed) {path : String}
    (hfiles : files.Perm (path :: others)) (o : Except Thrown α) :
    (((closed ++ [(path, o)]).map Prod.fst) ++ pool.pending.map Pending.path ++
      pool.waiting).Perm files := by
  simp only [List.map_append, List.map_cons, List.map_nil, List.append_assoc, List.cons_append,
    List.nil_append]
  have hrest := h.files
  rw [List.append_assoc] at hrest
  exact List.perm_middle.trans ((hrest.cons path).trans hfiles.symm)

/-- The outcome of a file in hand is recorded, if it can be. -/
theorem record {others : List String} (h : Ledger job world others pool closed) {path : String}
    {o : Except Thrown α} (hfiles : files.Perm (path :: others)) (he : Ends job world path o) :
    Ledger job world files (pool.record job path o) (closed ++ [(path, o)]) := by
  have hone {γ δ : Type} (f : γ → Option δ) (c : γ) : [c].filterMap f = (f c).toList := by
    cases hc : f c <;> simp [hc]
  have hlast : recordedIn [(path, o)] = if isKept o then [path] else [] := by
    cases hk : isKept o <;> simp [recordedIn, hk]
  rw [record_eq]
  refine ⟨?_, ?_, ?_, ?_, ?_, h.enter hfiles o, fun c hc => ?_, h.asks⟩
  · rw [List.filterMap_append, hone, ← h.results]
  · rw [List.filterMap_append, hone, ← h.errors]
  · rw [List.filterMap_append, hone, List.head?_append, ← h.rejected, Option.head?_toList]
  · show (pool.trace ++ _).filter Event.isTold = _
    rw [List.filter_append, h.told, isTold_recordEvents, recordedIn_append, hlast, h.processed]
    cases isKept o with
    | true => exact (allTidings_snoc ..).symm
    | false => rw [if_neg Bool.false_ne_true, if_neg Bool.false_ne_true, List.append_nil,
        List.append_nil]
  · show pool.processed + tally job o = _
    rw [h.processed, recordedIn_append, hlast, List.length_append, tally, reportsAfter, reportsAfter]
    cases job.reports <;> cases isKept o <;> simp [Nat.add_assoc]
  · rcases List.mem_append.mp hc with hc | hc
    · exact h.ends c hc
    · rw [List.mem_singleton] at hc
      exact hc ▸ he

/-! The moves, one by one. -/

section Moves

variable {path : String} {rest : List String} {i : Nat} {s s' : σ} {t : Thrown} {v : β}

theorem working (h : Ledger job world files pool closed) (hw : pool.waiting = path :: rest)
    (hl : Number.le job.limit 0 = true) (hr : job.refuse path = none) :
    Ledger job world files
      (({ pool with waiting := rest }.note [.started path]).ask path .working) closed := by
  obtain ⟨others, hfiles, h'⟩ := h.leave_queue hw
  exact (h'.note rfl).ask hfiles ⟨.unlimited hl, hr⟩

theorem refused (h : Ledger job world files pool closed) (hw : pool.waiting = path :: rest)
    (hl : Number.le job.limit 0 = true) (hr : job.refuse path = some t) :
    Ledger job world files
      (({ pool with waiting := rest }.note [.started path, .settled path]).record job path
        (.error t)) (closed ++ [(path, .error t)]) := by
  obtain ⟨others, hfiles, h'⟩ := h.leave_queue hw
  exact (h'.note rfl).record hfiles (.refused (.unlimited hl) hr)

theorem opened (h : Ledger job world files pool closed)
    (hq : pool.pending[i]? = some ⟨path, .working⟩) (ha : (world.value s path).1 = .ok v) :
    Ledger job world files
      (({ pool with trees := pool.trees + (pool.treeIn job v).toList.length }.note
        ((pool.treeIn job v).toList.map (Event.opened · path))).turn i path
          (.reading (pool.treeIn job v) v)) closed := by
  obtain ⟨hstarts, hr⟩ := h.asks _ (List.mem_of_getElem? hq)
  refine ((h.of_trees _).note ?_).turn hq ⟨hstarts, hr, s, ha⟩
  cases pool.treeIn job v <;> rfl

theorem read (h : Ledger job world files pool closed) {tree : Option Nat}
    (hq : pool.pending[i]? = some ⟨path, .reading tree v⟩) :
    Ledger job world files
      ((pool.note (tree.toList.map Event.read)).turn i path (.releasing tree (job.read path v)))
      closed := by
  obtain ⟨hstarts, hr, s, ha⟩ := h.asks _ (List.mem_of_getElem? hq)
  refine (h.note ?_).turn hq (.finished hstarts hr ha)
  cases tree <;> rfl

/-- A worker that is done with its file ends it in one of the ways there are. -/
theorem ends_of_closes {q : Pending β α} {events : List Event} {o : Except Thrown α}
    (ha : Asks job world q) (hc : Closes job world s q s' events o) :
    Ends job world q.path o ∧ events.filter Event.isTold = [] := by
  cases hc with
  | unsized hs => exact ⟨.unsized ha hs, rfl⟩
  | tooLarge hs hn => exact ⟨.tooLarge ha hs hn, rfl⟩
  | refused hs hn hr => exact ⟨.refused (.within ha hs hn) hr, rfl⟩
  | failed hv => exact ⟨.failed ha.1 ha.2 hv, rfl⟩
  | @released path tree o =>
    refine ⟨ha, ?_⟩
    cases tree <;> rfl

theorem close (h : Ledger job world files pool closed) {q : Pending β α} {events : List Event}
    {o : Except Thrown α} (hq : pool.pending[i]? = some q)
    (hc : Closes job world s q s' events o) :
    Ledger job world files (((pool.leave i).note events).record job q.path o)
      (closed ++ [(q.path, o)]) := by
  obtain ⟨others, hfiles, h'⟩ := h.leave_worker hq
  obtain ⟨he, hev⟩ := ends_of_closes (h.asks _ (List.mem_of_getElem? hq)) hc
  exact (h'.note hev).record hfiles he

end Moves

theorem taken (h : Ledger job world files pool closed) {pool' : Pool β α}
    (hm : Taken job pool pool') : ∃ closed', Ledger job world files pool' closed' := by
  cases hm with
  | sizing hw hl =>
    obtain ⟨others, hfiles, h'⟩ := h.leave_queue hw
    exact ⟨_, h'.ask hfiles hl⟩
  | working hw hl hr => exact ⟨_, h.working hw hl hr⟩
  | refused hw hl hr => exact ⟨_, h.refused hw hl hr⟩

theorem answered {st st' : σ × Pool β α} (h : Ledger job world files st.2 closed)
    (hm : Answered job world st st') : ∃ closed', Ledger job world files st'.2 closed' := by
  cases hm with
  | passed hq hs hn hr =>
    obtain ⟨others, hfiles, h'⟩ := h.leave_worker hq
    have ha := h.asks _ (List.mem_of_getElem? hq)
    exact ⟨_, (h'.note rfl).ask hfiles ⟨.within ha hs hn, hr⟩⟩
  | opened hq hv => exact ⟨_, h.opened hq hv⟩
  | read hq => exact ⟨_, h.read hq⟩
  | closed hq hc => exact ⟨_, h.close hq hc⟩

theorem move {st st' : σ × Pool β α} (h : Ledger job world files st.2 closed)
    (hm : Move job world st st') : ∃ closed', Ledger job world files st'.2 closed' := by
  cases hm with
  | taken hm => exact h.taken hm
  | answered hm => exact h.answered hm

theorem moves {st st' : σ × Pool β α} (h : Ledger job world files st.2 closed)
    (hm : ReflTransGen (Move job world) st st') :
    ∃ closed', Ledger job world files st'.2 closed' := by
  induction hm with
  | refl => exact ⟨closed, h⟩
  | tail _ hstep ih =>
    obtain ⟨closed', h'⟩ := ih
    exact h'.move hstep

/-- Without a rejection every outcome is recorded. -/
theorem isKept_of_not_rejected (h : Ledger job world files pool closed)
    (hr : pool.rejected = none) : ∀ c ∈ closed, isKept c.2 = true := by
  rw [h.rejected, List.head?_eq_none_iff, List.filterMap_eq_nil_iff] at hr
  rintro ⟨path, o⟩ hc
  rcases o with (p | why) | result
  · rfl
  · have hloss := hr _ hc
    cases hloss
  · rfl

theorem recordedIn_eq (h : Ledger job world files pool closed) (hr : pool.rejected = none) :
    recordedIn closed = closed.map Prod.fst := by
  rw [recordedIn, List.filter_eq_self.mpr (h.isKept_of_not_rejected hr)]

theorem mem_files (h : Ledger job world files pool closed) {c : String × Except Thrown α}
    (hc : c ∈ closed) : c.1 ∈ files :=
  h.files.mem_iff.mp
    (List.mem_append_left _ (List.mem_append_left _ (List.mem_map_of_mem hc)))

/-- A rejection comes from a file whose outcome could not be recorded. -/
theorem exists_loss (h : Ledger job world files pool closed) {why : Thrown}
    (hr : pool.rejected = some why) :
    ∃ path ∈ files, Ends job world path (.error (.textless why)) := by
  rw [h.rejected] at hr
  obtain ⟨⟨path, o⟩, hc, hloss⟩ := List.mem_filterMap.mp (List.mem_of_head? hr)
  rcases o with (p | why') | result
  · cases hloss
  · cases hloss
    exact ⟨path, h.mem_files hc, h.ends _ hc⟩
  · cases hloss

/-- Where every outcome can be recorded, there is no rejection. -/
theorem not_rejected (h : Ledger job world files pool closed)
    (hkept : ∀ path ∈ files, ∀ o, Ends job world path o → isKept o = true) :
    pool.rejected = none := by
  cases hr : pool.rejected with
  | none => rfl
  | some why =>
    obtain ⟨path, hp, hloss⟩ := h.exists_loss hr
    cases hkept path hp _ hloss

/-- Without a rejection, every file of a ledger has a problem or a result, which may be told by the
name that results bear. -/
theorem errors_append_results (h : Ledger job world files pool closed) (hr : pool.rejected = none)
    {fileOf : α → String} (hfile : ∀ path result, Ends job world path (.ok result) →
      fileOf result = path) :
    (pool.errors.map Prod.fst ++ pool.results.map fileOf).Perm (closed.map Prod.fst) := by
  have hkept := h.isKept_of_not_rejected hr
  rw [h.errors, h.results, List.map_filterMap, List.map_filterMap, ← List.filterMap_eq_map]
  refine filterMap_append_perm fun c hc => ?_
  have hend := h.ends c hc
  have hk := hkept c hc
  obtain ⟨path, o⟩ := c
  rcases o with (p | why) | result
  · rfl
  · cases hk
  · exact congrArg (· :: []) (hfile path result hend)

/-- A recorded error is one that a file ended with. -/
theorem exists_problem (h : Ledger job world files pool closed) {e : String × Problem}
    (he : e ∈ pool.errors) :
    ∃ p, Ends job world e.1 (.error (.problem p)) ∧ e.2 = p.asError := by
  rw [h.errors] at he
  obtain ⟨⟨path, o⟩, hc, hproblem⟩ := List.mem_filterMap.mp he
  rcases o with (p | why) | result
  · cases hproblem
    exact ⟨p, h.ends _ hc, rfl⟩
  · cases hproblem
  · cases hproblem

/-- A result is one that a file ended with. -/
theorem exists_result (h : Ledger job world files pool closed) {result : α}
    (he : result ∈ pool.results) : ∃ path ∈ files, Ends job world path (.ok result) := by
  rw [h.results] at he
  obtain ⟨⟨path, o⟩, hc, hresult⟩ := List.mem_filterMap.mp he
  cases o with
  | error t => cases hresult
  | ok result' =>
    cases hresult
    exact ⟨path, h.mem_files hc, h.ends _ hc⟩

/-- The files whose outcomes the trace says are recorded. -/
theorem recorded (h : Ledger job world files pool closed) :
    pool.trace.filterMap recordedOf = recordedIn closed := by
  rw [filterMap_isTold recordedOf_isTold, h.told, recordedOf_allTidings]

/-- The reports of progress, with their numbers. -/
theorem progress (h : Ledger job world files pool closed) :
    pool.trace.filterMap progressOf =
      if job.reports then (recordedIn closed).zipIdx (job.processed + 1) else [] := by
  rw [filterMap_isTold progressOf_isTold, h.told, progressOf_allTidings]

end Ledger

/-! ## The ledger of a run -/

theorem finishEvents_quiet (concurrency : Int) (files : List String) (pool : Pool β α) :
    (pool.finishEvents concurrency files).filter Event.isTold = [] := by
  unfold finishEvents
  split <;> rfl

/-- **The ledger of a run.** When no worker is busy any more, the files of the ledger are the files of
the job, unless the run is rejected. -/
theorem run_ledger {concurrency : Int} {files : List String} {choices : List Nat} {s : σ}
    (ho : Order job world (s, launch job concurrency files) choices) :
    ∃ closed, Ledger job world files (run job world concurrency files choices s).2 closed ∧
      ((run job world concurrency files choices s).2.rejected = none →
        (closed.map Prod.fst).Perm files) := by
  have hfresh : Ledger job world files ((s, fresh job files) : σ × Pool β α).2 [] :=
    .fresh job world files
  obtain ⟨closed, h⟩ := hfresh.moves (run_path job world concurrency files choices s)
  refine ⟨closed, h.note (finishEvents_quiet concurrency files _), fun hr => ?_⟩
  obtain ⟨hwaiting, hpending, -⟩ := isDone_iff.mp (ho.isDone hr)
  have hfiles := h.files
  rw [hwaiting, hpending] at hfiles
  simpa using hfiles

end ClassCohesion.Pool
