import ClassCohesion.Proofs.SessionSettling

/-!
# What an awaited request answers

A session that is used step by step comes to rest after every request, so that the next one is the
only call under way. What it answers can then be told beforehand (`parseReply`, `fileReply`): from
whether the engine is ready, from the grammars that have been loaded and from the surroundings. The
faults of earlier requests do not enter into it.

The proof follows the call through its stages. `Nears` says at each of them what may be under way
besides it, and what it will answer; `Alone.step` that the steps that are due keep this.
-/

namespace ClassCohesion.Parsing

/-! ## Replies -/

namespace Surroundings

/-- What comes of an attempt to start the engine. -/
def startOutcome (w : Surroundings) : Attempt → Except Fault Unit
  | .pending => w.start.mapError Session.startFault
  | .succeeded => .ok ()
  | .failed fault => .error fault

/-- What comes of a load. -/
def loadOutcome (w : Surroundings) : LoadState → Except String Unit
  | .loaded => .ok ()
  | .failed reason => .error reason
  | _ => w.grammar

/-- What a load reports when its file has been read. -/
def verdict (w : Surroundings) : Lock.Outcome :=
  match w.grammar with
  | .ok () => .value ""
  | .error reason => .failure reason

/-- What the engine makes of a text in a language. -/
def engineReply (w : Surroundings) (path source language : String) : Answer :=
  match w.setting, w.engine with
  | .error message, _ => .failed (.parseFailed path message (some ⟨"Error", message⟩))
  | .ok (), .error message => .failed (.parseFailed path message (some ⟨"Error", message⟩))
  | .ok (), .ok false => .failed (.parseFailed path "parser returned no tree" none)
  | .ok (), .ok true => .parsed ⟨⟨language, source⟩, language, source⟩

/-- What a call that waits for a grammar answers. -/
def loadReply (w : Surroundings) (path source language : String) : Except String Unit → Answer
  | .ok () => w.engineReply path source language
  | .error reason => .failed (.parseFailed path
      ("grammar for " ++ language ++ " unavailable: " ++ reason) (some ⟨"Error", reason⟩))

end Surroundings

namespace Session

/-- What comes of a load of the grammar of a language, if nothing is under way. -/
def grammarOutcome (s : Session) (w : Surroundings) (language : String) : Except String Unit :=
  match s.grammars.lookup language with
  | some _ => .ok ()
  | none => w.grammar

/-- What a call answers that has the engine. -/
def seekReply (s : Session) (w : Surroundings) (path source : String) : Answer :=
  match Language.ofPath? path with
  | none => .nothing
  | some language => w.loadReply path source language (s.grammarOutcome w language)

/-- What a call answers that waits for the engine. -/
def startReply (s : Session) (w : Surroundings) (path source : String) :
    Except Fault Unit → Answer
  | .ok () => s.seekReply w path source
  | .error fault => .failed fault

/-- What a request to parse a text answers. -/
def parseReply (s : Session) (w : Surroundings) (path source : String) : Answer :=
  s.startReply w path source (w.startOutcome (if s.ready then .succeeded else .pending))

/-- What a request to parse a file of a known language answers. -/
def fileReply (s : Session) (w : Surroundings) (path : String) : Answer :=
  match w.text with
  | .ok source => s.parseReply w path source
  | .error failure => .failed (failure.fault path)

section Reply

variable {s t : Session} (w : Surroundings) {path : String} (source : String)

theorem seekReply_none (hl : Language.ofPath? path = none) :
    s.seekReply w path source = .nothing := by
  unfold seekReply
  rw [hl]

theorem seekReply_some {language : String} (hl : Language.ofPath? path = some language) :
    s.seekReply w path source = w.loadReply path source language (s.grammarOutcome w language) := by
  unfold seekReply
  rw [hl]

theorem startReply_congr (hg : t.grammars = s.grammars) (outcome : Except Fault Unit) :
    t.startReply w path source outcome = s.startReply w path source outcome := by
  unfold startReply seekReply grammarOutcome
  rw [hg]

theorem parseReply_ready (hr : s.ready = true) :
    s.parseReply w path source = s.seekReply w path source := by
  simp only [parseReply, hr, if_true, Surroundings.startOutcome, startReply]

theorem parseReply_unready (hr : s.ready = false) :
    s.parseReply w path source = s.startReply w path source (w.startOutcome .pending) := by
  simp only [parseReply, hr, Bool.false_eq_true, if_false]

theorem fileReply_congr (hr : t.ready = s.ready) (hg : t.grammars = s.grammars) :
    t.fileReply w path = s.fileReply w path := by
  unfold fileReply parseReply
  simp only [hr, startReply_congr w _ hg]

end Reply

theorem useEngine_reply {s : Session} (he : s.engine.isSome = true) (w : Surroundings)
    (path source language : String) :
    (s.useEngine path source language language w.setting w.engine).2 =
      w.engineReply path source language := by
  obtain ⟨e, he⟩ := Option.isSome_iff_exists.mp he
  unfold useEngine Surroundings.engineReply
  rw [he]
  cases w.setting with
  | error message => rfl
  | ok =>
    cases w.engine with
    | error message => rfl
    | ok gives => cases gives <;> rfl

end Session

/-! ## The only load under way -/

/-- A load of a language is the only one that may be under way, and its outcome is the one that the
surroundings give. -/
structure Shelf.OnlyLoad (b : Shelf) (w : Surroundings) (k : Nat) (language : String)
    (state : LoadState) : Prop where
  get : b.loads[k]? = some ⟨language, state⟩
  only : ∀ (j : Nat) (load : Load), b.loads[j]? = some load → load.state.remaining ≠ 0 → j = k
  verdict : ∀ outcome, .report k outcome ∈ b.lock.followUps → outcome = w.verdict

namespace Shelf

variable {b : Shelf} {w : Surroundings} {k m : Nat} {language : String} {state : LoadState}

/-- Only loads that have given the lock back are reported. -/
theorem Tidy.not_reported (h : Tidy b m)
    (hk : ∀ other, b.loads[k]? ≠ some ⟨other, .ending⟩) (outcome : Lock.Outcome) :
    .report k outcome ∉ b.lock.followUps := by
  intro hmem
  obtain ⟨i, hi⟩ := List.mem_iff_getElem?.mp hmem
  obtain ⟨other, hother⟩ := h.reported hi
  exact hk other hother

theorem no_followUps (h : Tidy b m) (hb : b.weight = 0) : b.lock.followUps = [] := by
  have hover := weight_eq_zero_iff.mp hb
  apply List.eq_nil_iff_forall_not_mem.mpr
  intro f hf
  obtain ⟨i, hi⟩ := List.mem_iff_getElem?.mp hf
  cases f with
  | proceed caller =>
    obtain ⟨-, other, hload⟩ := h.granted hi
    simpa [LoadState.remaining] using hover m _ hload
  | report j outcome =>
    obtain ⟨other, hload⟩ := h.reported hi
    simpa [LoadState.remaining] using hover j _ hload

theorem OnlyLoad.set (h : b.OnlyLoad w k language state) (new : LoadState)
    (grammars : List (String × Nat)) {lock : Lock Nat}
    (hl : ∀ outcome, .report k outcome ∈ lock.followUps → outcome = w.verdict) :
    Shelf.OnlyLoad ⟨grammars, b.loads.set k ⟨language, new⟩, lock⟩ w k language new := by
  obtain ⟨hlt, -⟩ := List.getElem?_eq_some_iff.mp h.get
  refine ⟨List.getElem?_set_self hlt, fun j load hj hload => ?_, hl⟩
  by_contra hne
  have hj' : b.loads[j]? = some load := (List.getElem?_set_ne (Ne.symm hne)).symm.trans hj
  exact hne (h.only j load hj' hload)

/-- What remains to be done about the lock when one thing has been done. -/
theorem followAt_subset (l : Lock Nat) (i : Nat) : (l.followAt i).1.followUps ⊆ l.followUps := by
  unfold Lock.followAt
  split
  · rename_i f hf
    have hsub : l.followUps.eraseIdx i ⊆ l.followUps := List.eraseIdx_subset
    rcases f with (caller | caller) | ⟨k, outcome⟩ <;> exact hsub
  · exact List.Subset.refl _

theorem OnlyLoad.follow (h : b.OnlyLoad w k language state) (i : Nat) (new : LoadState)
    (grammars : List (String × Nat)) :
    Shelf.OnlyLoad ⟨grammars, b.loads.set k ⟨language, new⟩, (b.lock.followAt i).1⟩ w k language
      new :=
  h.set new grammars fun outcome hmem => h.verdict outcome (followAt_subset b.lock i hmem)

theorem OnlyLoad.finish (h : b.OnlyLoad w k language .reading) (ht : Tidy b m) :
    Shelf.OnlyLoad ⟨b.grammars, b.loads.set k ⟨language, .ending⟩, (b.lock.finish k w.verdict).1⟩
      w k language .ending := by
  refine h.set .ending b.grammars fun outcome hmem => ?_
  have hrunning : k ∈ b.lock.running := (ht.reading k).mpr ⟨language, h.get⟩
  have hbefore : .report k outcome ∉ b.lock.followUps :=
    ht.not_reported (by simp [h.get]) outcome
  obtain ⟨hlocked, -⟩ := ht.orderly.locked_of_running hrunning
  rw [Lock.finish, if_pos hrunning, Lock.release, if_pos hlocked] at hmem
  cases hw : b.lock.waiters with
  | nil => simpa [hw, hbefore] using hmem
  | cons waiter waiters => simpa [hw, hbefore] using hmem

end Shelf

namespace Session

open Parsing.Shelf

section OnlyLoad

variable {s : Session} {w : Surroundings} {m k : Nat} {language : String} {state : LoadState}

theorem grammarSettles_only (h : s.shelf.OnlyLoad w k language .reading)
    (ht : Tidy s.shelf m) :
    (s.grammarSettles k w.grammar).shelf.OnlyLoad w k language .ending := by
  have hend : s.grammarSettles k w.grammar = s.endLoad k w.verdict := by
    have hk : s.loads[k]? = some ⟨language, .reading⟩ := h.get
    unfold grammarSettles Surroundings.verdict
    rw [hk]
    cases w.grammar <;> rfl
  rw [hend, endLoad_shelf s h.get]
  exact h.finish ht

theorem lockProceeds_only (h : s.shelf.OnlyLoad w k language state) (ht : Tidy s.shelf m)
    {f : Lock.FollowUp Nat} (hf : s.lock.followUps[0]? = some f) :
    ∃ new, (s.lockProceeds 0 true).shelf.OnlyLoad w k language new ∧
      w.loadOutcome new = w.loadOutcome state := by
  unfold lockProceeds
  rw [hf]
  cases f with
  | proceed caller =>
    obtain ⟨rfl, other, hload⟩ := ht.granted hf
    obtain rfl := h.only m _ hload (by simp [LoadState.remaining])
    obtain ⟨rfl, rfl⟩ := Load.mk.inj (Option.some.inj (h.get.symm.trans hload))
    refine ⟨.reading, ?_, rfl⟩
    simp only [beginLoad, Bool.or_true, if_true]
    rw [setLoad_shelf { s with lock := (s.lock.followAt 0).1, directoryKnown := true } h.get]
    exact h.follow 0 .reading s.grammars
  | report j outcome =>
    obtain ⟨other, hload⟩ := ht.reported hf
    obtain rfl := h.only j _ hload (by simp [LoadState.remaining])
    obtain ⟨rfl, rfl⟩ := Load.mk.inj (Option.some.inj (h.get.symm.trans hload))
    have hverdict := h.verdict outcome (List.mem_of_getElem? hf)
    cases outcome with
    | value v =>
      refine ⟨.loaded, ?_, ?_⟩
      · simp only [reportLoad]
        rw [setLoad_shelf { s with lock := (s.lock.followAt 0).1 } h.get]
        exact h.follow 0 .loaded s.grammars
      · cases hg : w.grammar with
        | ok => simp [Surroundings.loadOutcome, hg]
        | error reason => simp [Surroundings.verdict, hg] at hverdict
    | failure reason =>
      refine ⟨.failed reason, ?_, ?_⟩
      · simp only [reportLoad]
        rw [setLoad_shelf { s with lock := (s.lock.followAt 0).1, grammars := _ } h.get]
        exact h.follow 0 (.failed reason) _
      · cases hg : w.grammar with
        | ok => simp [Surroundings.verdict, hg] at hverdict
        | error reason' =>
          simp only [Surroundings.verdict, hg, Lock.Outcome.failure.injEq] at hverdict
          simp [Surroundings.loadOutcome, hg, hverdict]

end OnlyLoad

/-! ## The only call under way -/

/-- A call at a stage is on its way to an answer, and no other call is under way. -/
inductive Nears (w : Surroundings) (answer : Answer) (s : Session) : Stage → Prop where
  | reading {path : String} (hs : s.supply = 0) (ha : s.fileReply w path = answer) :
      Nears w answer s (.reading path)
  | starting {path source : String} {k : Nat} {attempt : Attempt}
      (hk : s.attempts[k]? = some attempt)
      (only : ∀ j : Nat, s.attempts[j]? = some .pending → j = k) (hs : s.shelf.weight = 0)
      (he : attempt = .succeeded → s.engine.isSome = true)
      (ha : s.startReply w path source (w.startOutcome attempt) = answer) :
      Nears w answer s (.starting (.parse path source) k)
  | loading {path source language : String} {k : Nat} {state : LoadState}
      (hk : s.shelf.OnlyLoad w k language state) (hs : ∀ j : Nat, s.attempts[j]? ≠ some .pending)
      (he : s.engine.isSome = true)
      (ha : w.loadReply path source language (w.loadOutcome state) = answer) :
      Nears w answer s (.loading path source language k)
  | ended (hs : s.supply = 0) : Nears w answer s (.ended answer)

/-- Which calls there are is nothing to what is under way besides them. -/
theorem Nears.put {w : Surroundings} {answer : Answer} {s : Session} {stage : Stage}
    (h : Nears w answer s stage) (calls : List Stage) : Nears w answer { s with calls } stage := by
  cases h with
  | reading hs ha =>
    refine .reading hs ?_
    rw [← ha]
    apply fileReply_congr <;> rfl
  | starting hk only hs he ha =>
    refine .starting hk only hs he ?_
    rw [← ha]
    apply startReply_congr
    rfl
  | loading hk hs he ha => exact .loading hk hs he ha
  | ended hs => exact .ended hs

section Entering

variable {s : Session} {w : Surroundings} (path source : String)

theorem seekGrammar_nears (h : Sound s) (hs : s.supply = 0) (he : s.engine.isSome = true) :
    Nears w (s.seekReply w path source) (s.seekGrammar path source).1
      (s.seekGrammar path source).2 := by
  obtain ⟨m, hm⟩ := h.tidy
  obtain ⟨hattempts, hloads⟩ := supply_eq_zero_iff.mp hs
  have hover := weight_eq_zero_iff.mp hloads
  cases hl : Language.ofPath? path with
  | none =>
    rw [seekGrammar_none s hl, seekReply_none w source hl]
    exact .ended hs
  | some language =>
    rw [seekGrammar_some s hl, seekReply_some w source hl, grammarOutcome]
    cases hn : s.grammars.lookup language with
    | some k =>
      rw [joinLoad_some hn]
      have hloaded := h.loaded hloads hn
      refine .loading ⟨hloaded, ?_, ?_⟩ hattempts he rfl
      · intro j load hj hload
        exact absurd (hover j load hj) hload
      · intro outcome hmem
        exact absurd hmem (hm.not_reported (by simp [shelf, hloaded]) outcome)
    | none =>
      rw [joinLoad_none hn]
      have hnew : (s.loads ++ [(⟨language, .queued⟩ : Load)])[s.loads.length]? =
          some ⟨language, .queued⟩ := List.getElem?_concat_length
      refine .loading ⟨hnew, ?_, ?_⟩ hattempts he rfl
      · intro j load hj hload
        rcases Nat.lt_or_ge j s.loads.length with hlt | hge
        · exact absurd (hover j load ((List.getElem?_append_left hlt).symm.trans hj)) hload
        · have hlt := (List.getElem?_eq_some_iff.mp hj).1
          simp only [shelf, List.length_append, List.length_singleton] at hlt
          omega
      · intro outcome hmem
        have hask := hm.ask language (s.grammars ++ [(language, s.loads.length)])
        exact absurd hmem (hask.not_reported (by simp [shelf]) outcome)

theorem pursue_nears (h : Sound s) (hs : s.supply = 0) :
    Nears w (s.parseReply w path source) (s.pursue true (.parse path source)).1
      (s.pursue true (.parse path source)).2 := by
  obtain ⟨hattempts, hloads⟩ := supply_eq_zero_iff.mp hs
  cases hr : s.ready with
  | true =>
    rw [pursue_parse s hr, parseReply_ready w source hr]
    exact seekGrammar_nears path source h hs (h.equipped hr)
  | false =>
    rw [pursue_opens s hr (h.starting_eq_none hs hr), parseReply_unready w source hr]
    have hnew : (s.attempts ++ [Attempt.pending])[s.attempts.length]? = some .pending :=
      List.getElem?_concat_length
    refine .starting hnew (fun j hj => ?_) hloads (by simp) ?_
    · rcases Nat.lt_or_ge j s.attempts.length with hlt | hge
      · exact absurd ((List.getElem?_append_left hlt).symm.trans hj) (hattempts j)
      · have hlt := (List.getElem?_eq_some_iff.mp hj).1
        simp only [List.length_append, List.length_singleton] at hlt
        omega
    · apply startReply_congr
      rfl

end Entering

/-! ### Steps that are due -/

section Due

variable {s : Session} {w : Surroundings} {answer : Answer} {stage : Stage} {m i k : Nat}

theorem startSettles_outcome (hk : s.attempts[k]? = some .pending) (w : Surroundings) :
    ∃ attempt, (s.startSettles k w.start).attempts = s.attempts.set k attempt ∧
      attempt ≠ .pending ∧ w.startOutcome attempt = w.startOutcome .pending ∧
      (attempt = .succeeded → (s.startSettles k w.start).engine.isSome = true) := by
  unfold Session.startSettles Surroundings.startOutcome
  rw [hk]
  cases w.start with
  | ok => exact ⟨.succeeded, rfl, by simp, rfl, fun _ => rfl⟩
  | error message => exact ⟨.failed (startFault message), rfl, by simp, rfl, by simp⟩

theorem Nears.startSettles (h : Nears w answer s stage) (hk : s.attempts[k]? = some .pending) :
    Nears w answer (s.startSettles k w.start) stage := by
  cases h with
  | reading hs ha => exact absurd hk ((supply_eq_zero_iff.mp hs).1 k)
  | ended hs => exact absurd hk ((supply_eq_zero_iff.mp hs).1 k)
  | loading hload hs he ha => exact absurd hk (hs k)
  | starting hj only hs he ha =>
    obtain rfl := only k hk
    obtain rfl := Option.some.inj (hk.symm.trans hj)
    obtain ⟨hlt, -⟩ := List.getElem?_eq_some_iff.mp hk
    obtain ⟨attempt, hattempts, hne, hout, hengine⟩ := startSettles_outcome hk w
    have hshelf := startSettles_shelf s k w.start
    have hget : (s.startSettles k w.start).attempts[k]? = some attempt := by
      rw [hattempts, List.getElem?_set_self hlt]
    refine .starting hget ?_ ?_ hengine ?_
    · intro j hpending
      rw [hattempts] at hpending
      by_contra hjk
      exact hjk (only j ((List.getElem?_set_ne (Ne.symm hjk)).symm.trans hpending))
    · rw [hshelf, hs]
    · rw [startReply_congr w _ (congrArg Shelf.grammars hshelf), hout, ha]

theorem Nears.lockProceeds (h : Nears w answer s stage) (ht : Tidy s.shelf m)
    {f : Lock.FollowUp Nat} (hf : s.lock.followUps[0]? = some f) :
    Nears w answer (s.lockProceeds 0 true) stage := by
  have hbusy : s.shelf.weight ≠ 0 := by
    intro hs
    have hnone : s.lock.followUps = [] := no_followUps ht hs
    simp [hnone] at hf
  cases h with
  | reading hs ha => exact absurd (supply_eq_zero_iff.mp hs).2 hbusy
  | starting hk only hs he ha => exact absurd hs hbusy
  | ended hs => exact absurd (supply_eq_zero_iff.mp hs).2 hbusy
  | loading hk hs he ha =>
    obtain ⟨new, hnew, hout⟩ := lockProceeds_only hk ht hf
    have hkeeps := (lockProceeds_aside s 0 true).keeps
    refine .loading hnew ?_ ?_ ?_
    · rw [hkeeps.attempts]
      exact hs
    · rw [hkeeps.engine]
      exact he
    · rw [hout, ha]

theorem Nears.grammarSettles (h : Nears w answer s stage) (ht : Tidy s.shelf m)
    {language : String} (hk : s.loads[k]? = some ⟨language, .reading⟩) :
    Nears w answer (s.grammarSettles k w.grammar) stage := by
  have hbusy : s.shelf.weight ≠ 0 := by
    intro hs
    simpa [LoadState.remaining] using weight_eq_zero_iff.mp hs k _ hk
  cases h with
  | reading hs ha => exact absurd (supply_eq_zero_iff.mp hs).2 hbusy
  | starting hk only hs he ha => exact absurd hs hbusy
  | ended hs => exact absurd (supply_eq_zero_iff.mp hs).2 hbusy
  | loading hj hs he ha =>
    obtain rfl := hj.only k _ hk (by simp [LoadState.remaining])
    obtain ⟨rfl, rfl⟩ := Load.mk.inj (Option.some.inj (hk.symm.trans hj.get))
    have hkeeps := (grammarSettles_aside s k w.grammar).keeps
    refine .loading (grammarSettles_only hj ht) ?_ ?_ ?_
    · rw [hkeeps.attempts]
      exact hs
    · rw [hkeeps.engine]
      exact he
    · exact ha

/-- A call that goes on comes closer to the same answer. -/
theorem Nears.resume (h : Nears w answer s stage) (hs : Sound s) (hc : s.calls[i]? = some stage)
    (hr : s.canResume stage = true) :
    ∃ new, (s.resume i w.setting w.engine).calls = s.calls.set i new ∧
      Nears w answer (s.resume i w.setting w.engine) new := by
  unfold Session.resume
  rw [hc]
  cases h with
  | reading hs ha => simp [canResume] at hr
  | ended hs => simp [canResume] at hr
  | @starting path source k attempt hk only hl he ha =>
    simp only [hk]
    have hover : attempt ≠ .pending → s.supply = 0 := by
      intro hne
      refine supply_eq_zero_iff.mpr ⟨fun j hj => hne ?_, hl⟩
      obtain rfl := only j hj
      exact Option.some.inj (hk.symm.trans hj)
    cases attempt with
    | pending => simp [canResume, hk] at hr
    | failed fault =>
      have hsupply := hover (by simp)
      obtain rfl : answer = .failed fault := ha.symm
      exact ⟨.ended _, rfl, (Nears.ended hsupply).put _⟩
    | succeeded =>
      have hnext := seekGrammar_nears (w := w) path source hs (hover (by simp)) (he rfl)
      simp only [Surroundings.startOutcome, startReply] at ha
      rw [ha] at hnext
      show ∃ new,
        ((s.seekGrammar path source).1.setCall i (s.seekGrammar path source).2).calls = _ ∧
        Nears w answer ((s.seekGrammar path source).1.setCall i _) new
      refine ⟨(s.seekGrammar path source).2, ?_, hnext.put _⟩
      simp only [setCall, seekGrammar_calls]
  | @loading path source language k state hk hl he ha =>
    have hload : s.loads[k]? = some ⟨language, state⟩ := hk.get
    simp only [hload]
    have hover : state.remaining = 0 → s.supply = 0 := by
      intro hsettled
      refine supply_eq_zero_iff.mpr ⟨hl, weight_eq_zero_iff.mpr fun j load hj => ?_⟩
      by_contra hne
      obtain rfl := hk.only j load hj hne
      obtain rfl := Option.some.inj (hk.get.symm.trans hj)
      exact hne hsettled
    cases state with
    | queued => simp [canResume, hload] at hr
    | reading => simp [canResume, hload] at hr
    | ending => simp [canResume, hload] at hr
    | failed reason =>
      obtain rfl := ha
      exact ⟨.ended _, rfl, (Nears.ended (hover rfl)).put _⟩
    | loaded =>
      obtain rfl := ha
      have hreply := useEngine_reply he w path source language
      have hsupply :
          (s.useEngine path source language language w.setting w.engine).1.supply = 0 := by
        rw [supply_of_shelf (useEngine_attempts s _ _ _ _ _ _) (useEngine_shelf s _ _ _ _ _ _)]
        exact hover rfl
      refine ⟨.ended (w.engineReply path source language), ?_, ?_⟩
      · simp only [setCall, useEngine_calls, hreply]
      · exact (Nears.ended hsupply).put _

/-- A call whose text arrives, or does not, comes closer to the same answer. -/
theorem Nears.readSettles {path : String} (h : Nears w answer s (.reading path)) (hs : Sound s)
    (hc : s.calls[i]? = some (.reading path)) :
    ∃ new, (s.readSettles i true w.text).calls = s.calls.set i new ∧
      Nears w answer (s.readSettles i true w.text) new := by
  cases h with
  | reading hsupply ha =>
    unfold Session.readSettles
    unfold fileReply at ha
    rw [hc]
    cases htext : w.text with
    | error failure =>
      rw [htext] at ha
      obtain rfl := ha
      exact ⟨.ended _, rfl, (Nears.ended hsupply).put _⟩
    | ok source =>
      rw [htext] at ha
      obtain rfl := ha
      have hnext := pursue_nears (w := w) path source hs hsupply
      refine ⟨(s.pursue true (.parse path source)).2, ?_, hnext.put _⟩
      simp only [setCall, pursue_calls]

end Due

/-- One call is on its way to an answer, and no other call is under way. -/
structure Alone (w : Surroundings) (i : Nat) (answer : Answer) (s : Session) : Prop where
  sound : Sound s
  others : ∀ (j : Nat) (stage : Stage), j ≠ i → s.calls[j]? = some stage → stage.remaining = 0
  nears : ∃ stage, s.calls[i]? = some stage ∧ Nears w answer s stage

namespace Alone

variable {s s' : Session} {w : Surroundings} {i : Nat} {answer : Answer}

theorem index (h : Alone w i answer s) {j : Nat} {stage : Stage} (hc : s.calls[j]? = some stage)
    (hs : stage.remaining ≠ 0) : j = i := by
  by_contra hne
  exact hs (h.others j stage hne hc)

theorem puts (h : Alone w i answer s) {stage : Stage} (hs : Sound s')
    (hp : Puts s.calls i stage s'.calls) (hn : Nears w answer s' stage) : Alone w i answer s' := by
  refine ⟨hs, fun j other hne hj => ?_, stage, hp.self, hn⟩
  rw [hp.other hne] at hj
  exact h.others j other hne hj

theorem step (h : Alone w i answer s) (hw : w.located = true) {step : Step} (hd : Due s w step) :
    Alone w i answer (s.step step) := by
  have hsound := h.sound.step (hd.isLocated hw)
  obtain ⟨m, hm⟩ := h.sound.tidy
  obtain ⟨stage, hc, hn⟩ := h.nears
  have hsame : ∀ {s' : Session}, Sound s' → s'.calls = s.calls → Nears w answer s' stage →
      Alone w i answer s' := by
    intro s' hs' hcalls hnears
    refine ⟨hs', ?_, stage, hcalls ▸ hc, hnears⟩
    rw [hcalls]
    exact h.others
  cases hd with
  | start hk =>
    refine hsame hsound ?_ (hn.startSettles hk)
    show (s.startSettles _ w.start).calls = s.calls
    unfold Session.startSettles
    split <;> rfl
  | lock hf =>
    rw [hw] at hsound ⊢
    exact hsame hsound (lockProceeds_aside s 0 true).calls (hn.lockProceeds hm hf)
  | grammar hk =>
    exact hsame hsound (grammarSettles_aside s _ w.grammar).calls (hn.grammarSettles hm hk)
  | @resume j other hj hr =>
    obtain rfl : j = i := by
      refine h.index hj ?_
      cases other <;> simp_all [canResume]
    obtain rfl := Option.some.inj (hc.symm.trans hj)
    obtain ⟨new, hcalls, hnears⟩ := hn.resume h.sound hj hr
    have hp := puts_set hj new
    rw [← hcalls] at hp
    exact h.puts hsound hp hnears
  | @read j path hj =>
    obtain rfl := h.index hj (by simp)
    obtain rfl := Option.some.inj (hc.symm.trans hj)
    rw [hw] at hsound ⊢
    obtain ⟨new, hcalls, hnears⟩ := hn.readSettles h.sound hj
    have hp := puts_set hj new
    rw [← hcalls] at hp
    exact h.puts hsound hp hnears

theorem settles (h : Alone w i answer s) (hw : w.located = true) {n : Nat} (hn : s.weight ≤ n) :
    (settle w n s).calls[i]? = some (.ended answer) := by
  obtain ⟨hsound, hweight⟩ := settle_rests hw h.sound hn
  have halone : Alone w i answer (settle w n s) :=
    settle_induction (fun t step ht hd => ht.step hw hd) h
  obtain ⟨stage, hc, hnears⟩ := halone.nears
  obtain ⟨other, rfl⟩ := Resting.ended ⟨hsound, hweight⟩ hc
  cases hnears
  exact hc

end Alone

/-! ## Requests -/

section Requests

variable {s : Session} {w : Surroundings} {path : String}

theorem Resting.supply_eq_zero (h : Resting s) : s.supply = 0 := by
  have hweight := h.weight
  unfold Session.weight at hweight
  omega

theorem Resting.others (h : Resting s) {stage new : Stage} {j : Nat} (hne : j ≠ s.calls.length)
    (hc : (s.calls ++ [new])[j]? = some stage) : stage.remaining = 0 := by
  rw [(puts_append s.calls new).other hne] at hc
  obtain ⟨answer, rfl⟩ := h.ended hc
  rfl

theorem Resting.parse_alone (h : Resting s) (hw : w.located = true) (path source : String) :
    Alone w s.calls.length (s.parseReply w path source) (s.issue w (.parse path source)) := by
  have hsound := h.sound.issue hw (.parse path source)
  have hnears := pursue_nears (w := w) path source h.sound h.supply_eq_zero
  simp only [Session.issue, hw] at hsound ⊢
  have hcalls : (s.call true (.parse path source)).calls =
      s.calls ++ [(s.pursue true (.parse path source)).2] :=
    congrArg (· ++ [(s.pursue true (.parse path source)).2]) (pursue_calls s _)
  refine ⟨hsound, fun j stage hne hj => ?_, _, ?_, hnears.put _⟩
  · rw [hcalls] at hj
    exact h.others hne hj
  · rw [hcalls]
    exact List.getElem?_concat_length

theorem Resting.parseFile_alone (h : Resting s) (hw : w.located = true) (path : String) :
    Alone w s.calls.length
      (if Language.isSupported path then s.fileReply w path else .nothing)
      (s.issue w (.parseFile path)) := by
  have hsound := h.sound.issue hw (.parseFile path)
  have hopen : s.open? w.located (.parseFile path) =
      if Language.isSupported path then (s, .reading path) else (s, .ended .nothing) := rfl
  simp only [Session.issue] at hsound ⊢
  unfold call at hsound ⊢
  rw [hopen] at hsound ⊢
  cases hl : Language.isSupported path with
  | true =>
    rw [hl] at hsound
    exact ⟨hsound, fun j stage hne hj => h.others hne hj, _, List.getElem?_concat_length,
      (Nears.reading h.supply_eq_zero rfl).put _⟩
  | false =>
    rw [hl] at hsound
    exact ⟨hsound, fun j stage hne hj => h.others hne hj, _, List.getElem?_concat_length,
      (Nears.ended h.supply_eq_zero).put _⟩

/-- The request has been answered: its call is over, with this answer. -/
def Replies (s : Session) (w : Surroundings) (a : Ask) (answer : Answer) : Prop :=
  (s.await w a).1.calls[s.calls.length]? = some (.ended answer) ∧ (s.await w a).2 = answer

theorem Alone.replies {a : Ask} {answer : Answer} (h : Resting s) (hw : w.located = true)
    (ha : Alone w s.calls.length answer (s.issue w a)) : s.Replies w a answer := by
  have hended := ha.settles hw (issue_weight h.weight a)
  refine ⟨hended, ?_⟩
  show answerOf (settleAll w (s.issue w a)) s.calls.length = answer
  unfold answerOf settleAll
  rw [hended]

end Requests

/-! ## Faults -/

/-- Requests, one after the other, each in surroundings of its own. -/
def awaits (s : Session) (history : List (Surroundings × Ask)) : Session :=
  history.foldl (fun s a => (s.await a.1 a.2).1) s

theorem Resting.awaits {s : Session} (h : Resting s) {history : List (Surroundings × Ask)}
    (hw : ∀ a ∈ history, a.1.located = true) : Resting (s.awaits history) := by
  induction history generalizing s with
  | nil => exact h
  | cons a history ih =>
    rw [List.forall_mem_cons] at hw
    exact ih (h.await hw.1 a.2) hw.2

/-- The engine is not ready, and the surroundings do not let it start. -/
def Unstartable (s : Session) (w : Surroundings) : Prop :=
  s.ready = false ∧ ∃ message, w.start = .error message

/-- The surroundings do not let the grammar of a language be loaded, or the engine give a tree. -/
def Unparsable (s : Session) (w : Surroundings) (language : String) : Prop :=
  s.grammars.lookup language = none ∧ (∃ reason, w.grammar = .error reason) ∨
    (∃ message, w.setting = .error message) ∨ w.engine ≠ .ok true

/-- The surroundings do not let a file of a language be parsed. -/
def Hindered (s : Session) (w : Surroundings) (language : String) : Prop :=
  (∃ failure, w.text = .error failure) ∨ s.Unstartable w ∨ s.Unparsable w language

/-- The code of the fault that a hindrance leads to. What comes first counts: the text, then the
engine, then all the rest. -/
def hindranceCode (s : Session) (w : Surroundings) : String :=
  match w.text, s.ready, w.start with
  | .error failure, _, _ =>
    if failure.thrown.errno? = some "EACCES" ∨ failure.thrown.errno? = some "EPERM" then
      "PERMISSION_DENIED"
    else "FILE_NOT_FOUND"
  | .ok _, false, .error _ => "PARSER_UNAVAILABLE"
  | .ok _, _, _ => "PARSE_FAILED"

theorem fault_code (failure : ReadFailure) (path : String) :
    (failure.fault path).code =
      if failure.thrown.errno? = some "EACCES" ∨ failure.thrown.errno? = some "EPERM" then
        "PERMISSION_DENIED"
      else "FILE_NOT_FOUND" := by
  unfold ReadFailure.fault
  simp only
  split
  · rename_i hcode
    rw [if_pos (.inl hcode)]
    rfl
  · rename_i hcode
    rw [if_pos (.inr hcode)]
    rfl
  · rename_i hacces hperm
    rw [if_neg (not_or.mpr ⟨hacces, hperm⟩)]
    rfl

section Faults

variable {s : Session} {path language : String}

theorem engineReply_cases (w : Surroundings) (path source language : String) :
    (∃ fault, w.engineReply path source language = .failed fault ∧ fault.code = "PARSE_FAILED" ∧
        ((∃ message, w.setting = .error message) ∨ w.engine ≠ .ok true)) ∨
      w.engineReply path source language = .parsed ⟨⟨language, source⟩, language, source⟩ ∧
        w.setting = .ok () ∧ w.engine = .ok true := by
  unfold Surroundings.engineReply
  cases w.setting with
  | error message => exact .inl ⟨_, rfl, rfl, .inl ⟨message, rfl⟩⟩
  | ok =>
    cases w.engine with
    | error message => exact .inl ⟨_, rfl, rfl, .inr (by simp)⟩
    | ok gives =>
      cases gives with
      | false => exact .inl ⟨_, rfl, rfl, .inr (by simp)⟩
      | true => exact .inr ⟨rfl, rfl, rfl⟩

theorem seekReply_cases (w : Surroundings) (source : String)
    (hl : Language.ofPath? path = some language) :
    (∃ fault, s.seekReply w path source = .failed fault ∧ fault.code = "PARSE_FAILED" ∧
        s.Unparsable w language) ∨
      s.seekReply w path source = .parsed ⟨⟨language, source⟩, language, source⟩ ∧
        ¬s.Unparsable w language := by
  rw [seekReply_some w source hl]
  cases hg : s.grammarOutcome w language with
  | error reason =>
    refine .inl ⟨_, rfl, rfl, .inl ?_⟩
    unfold grammarOutcome at hg
    split at hg
    · cases hg
    · rename_i hn
      exact ⟨hn, reason, hg⟩
  | ok =>
    rcases engineReply_cases w path source language with ⟨fault, hreply, hcode, hwhy⟩ | hparsed
    · exact .inl ⟨fault, hreply, hcode, .inr hwhy⟩
    · obtain ⟨hreply, hsetting, hengine⟩ := hparsed
      refine .inr ⟨hreply, ?_⟩
      rintro (⟨hn, reason, hreason⟩ | ⟨message, hmessage⟩ | hne)
      · simp [grammarOutcome, hn, hreason] at hg
      · simp [hsetting] at hmessage
      · exact hne hengine

theorem parseReply_cases (w : Surroundings) (path source : String) :
    (∃ message, s.ready = false ∧ w.start = .error message ∧
        s.parseReply w path source = .failed (startFault message)) ∨
      (s.ready = true ∨ w.start = .ok ()) ∧
        s.parseReply w path source = s.seekReply w path source := by
  cases hr : s.ready with
  | true => exact .inr ⟨.inl rfl, parseReply_ready w source hr⟩
  | false =>
    rw [parseReply_unready w source hr]
    cases hstart : w.start with
    | error message =>
      refine .inl ⟨message, rfl, rfl, ?_⟩
      simp only [Surroundings.startOutcome, hstart, Except.mapError, startReply]
    | ok =>
      refine .inr ⟨.inr rfl, ?_⟩
      simp only [Surroundings.startOutcome, hstart, Except.mapError, startReply]

/-- Parsing a file of a known language fails, with the code of what stands in the way, or gives the
parsed file. -/
theorem fileReply_cases (w : Surroundings) (hl : Language.ofPath? path = some language) :
    (∃ fault, s.fileReply w path = .failed fault ∧ fault.code = s.hindranceCode w ∧
        s.Hindered w language) ∨
      ∃ source, w.text = .ok source ∧
        s.fileReply w path = .parsed ⟨⟨language, source⟩, language, source⟩ ∧
        ¬s.Hindered w language := by
  unfold fileReply Hindered
  cases htext : w.text with
  | error failure =>
    refine .inl ⟨_, rfl, ?_, .inl ⟨failure, rfl⟩⟩
    simp only [hindranceCode, htext, fault_code]
  | ok source =>
    rcases parseReply_cases (s := s) w path source with
      ⟨message, hr, hstart, hreply⟩ | ⟨hstart, hreply⟩
    · refine .inl ⟨_, hreply, ?_, .inr (.inl ⟨hr, message, hstart⟩)⟩
      simp [hindranceCode, htext, hr, hstart, startFault, Fault.code]
    · have hcode : s.hindranceCode w = "PARSE_FAILED" := by
        rcases hstart with hr | hs
        · simp [hindranceCode, htext, hr]
        · cases hr : s.ready <;> simp [hindranceCode, htext, hr, hs]
      have hstartable : ¬s.Unstartable w := by
        rintro ⟨hr, message, hmessage⟩
        rcases hstart with hready | hs
        · simp [hr] at hready
        · simp [hs] at hmessage
      simp only [hreply]
      rcases seekReply_cases (s := s) w source hl with
        ⟨fault, hfailed, hfault, hwhy⟩ | ⟨hparsed, hwhy⟩
      · exact .inl ⟨fault, hfailed, hfault.trans hcode.symm, .inr (.inr hwhy)⟩
      · refine .inr ⟨source, rfl, hparsed, ?_⟩
        simp [hstartable, hwhy]

end Faults

theorem ofPath?_eq_none_iff (path : String) :
    Language.ofPath? path = none ↔ Path.fileExtension path ∉ Language.extensions.map Prod.fst := by
  unfold Language.ofPath?
  rw [List.lookup_eq_none_iff, List.mem_map]
  constructor
  · rintro h ⟨entry, hmem, heq⟩
    have hne := h entry hmem
    simp [heq] at hne
  · intro h entry hmem
    rw [bne_iff_ne]
    intro heq
    exact h ⟨entry, hmem, heq.symm⟩

/-- A session at rest that meets no fault parses every file of a known language. -/
theorem faultless_reply (s : Session) (path source : String) :
    (s.parseReply { text := .ok source } path source = .nothing ↔
        Path.fileExtension path ∉ Language.extensions.map Prod.fst) ∧
      ∀ language, Language.ofPath? path = some language →
        s.parseReply { text := .ok source } path source =
          .parsed ⟨⟨language, source⟩, language, source⟩ := by
  rcases parseReply_cases (s := s) { text := .ok source } path source with
    ⟨message, -, hstart, -⟩ | ⟨-, hreply⟩
  · cases hstart
  · rw [hreply, ← ofPath?_eq_none_iff]
    cases hl : Language.ofPath? path with
    | none => simp [seekReply_none _ source hl]
    | some language =>
      rcases seekReply_cases (s := s) { text := .ok source } source hl with
        ⟨fault, -, -, hwhy⟩ | ⟨hparsed, -⟩
      · simp [Unparsable] at hwhy
      · simp [hparsed]

/-- No fault of an earlier request is felt later. After any requests in any surroundings that can
locate the files of packages, a request that meets no fault is answered with the parsed file, or
with nothing if the extension of the path belongs to no language. A request for a file of a known
language that does meet one fails with the code for its kind. -/
theorem awaits_replies (history : List (Surroundings × Ask))
    (hlocated : ∀ a ∈ history, a.1.located = true) :
    (∀ (path source : String), ∀ a ∈ [Ask.parse path source, .parseFile path],
      ∃ answer, (({} : Session).awaits history).Replies { text := .ok source } a answer ∧
        (answer = .nothing ↔ Path.fileExtension path ∉ Language.extensions.map Prod.fst) ∧
        ∀ language, Language.ofPath? path = some language →
          answer = .parsed ⟨⟨language, source⟩, language, source⟩) ∧
    ∀ (w : Surroundings) (path language : String), w.located = true →
      Language.ofPath? path = some language →
      (∃ fault, (({} : Session).awaits history).Replies w (.parseFile path) (.failed fault) ∧
        fault.code = (({} : Session).awaits history).hindranceCode w ∧
        (({} : Session).awaits history).Hindered w language) ∨
      ∃ source, w.text = .ok source ∧
        (({} : Session).awaits history).Replies w (.parseFile path)
          (.parsed ⟨⟨language, source⟩, language, source⟩) ∧
        ¬(({} : Session).awaits history).Hindered w language := by
  have hrest : Resting (({} : Session).awaits history) := resting_fresh.awaits hlocated
  generalize ({} : Session).awaits history = s at *
  have hfile : ∀ {w : Surroundings} (path : String), w.located = true →
      s.Replies w (.parseFile path)
        (if Language.isSupported path then s.fileReply w path else .nothing) :=
    fun path hw => Alone.replies hrest hw (hrest.parseFile_alone hw path)
  refine ⟨fun path source a ha => ?_, fun w path language hw hl => ?_⟩
  · have hreply := faultless_reply s path source
    refine ⟨_, ?_, hreply⟩
    rcases List.mem_pair.mp ha with rfl | rfl
    · exact Alone.replies hrest rfl (hrest.parse_alone rfl path source)
    · have hreplies := hfile (w := { text := .ok source }) path rfl
      rw [Language.isSupported] at hreplies
      cases hl : Language.ofPath? path with
      | none =>
        rw [hl] at hreplies
        rwa [hreply.1.mpr ((ofPath?_eq_none_iff path).mp hl)]
      | some language =>
        rw [hl] at hreplies
        exact hreplies
  · have hreplies := hfile path hw
    rw [Language.isSupported, hl, Option.isSome_some, if_pos rfl] at hreplies
    rcases fileReply_cases (s := s) w hl with
      ⟨fault, hfailed, hwhy⟩ | ⟨source, htext, hparsed, hwhy⟩
    · exact .inl ⟨fault, hfailed ▸ hreplies, hwhy⟩
    · exact .inr ⟨source, htext, hparsed ▸ hreplies, hwhy⟩

/-- One request for every kind of fault, and a clear in the end. -/
def troubledHistory : List (Surroundings × Ask) :=
  [({ start := .error "abort" }, .startTwice),
    ({ grammar := .error "no such file" }, .parse "a.ts" ""),
    ({ text := .error ⟨{ code := some (.str "EACCES") }, "denied"⟩ }, .parseFile "b.PY"),
    ({ engine := .error "trap" }, .parse "b.py" ""),
    ({ engine := .ok false }, .parseThenClear "c.go" "")]

theorem awaits_replies_troubledHistory :
    (∀ a ∈ troubledHistory, a.1.located = true) ∧
      (({} : Session).awaits troubledHistory).Replies { text := .ok "class A {}" }
        (.parseFile "src/A.TS")
        (.parsed ⟨⟨"typescript", "class A {}"⟩, "typescript", "class A {}"⟩) := by
  have hlocated : ∀ a ∈ troubledHistory, a.1.located = true := by simp [troubledHistory]
  refine ⟨hlocated, ?_⟩
  obtain ⟨answer, hreplies, -, hparsed⟩ := (awaits_replies troubledHistory hlocated).1
    "src/A.TS" "class A {}" (.parseFile "src/A.TS") (by simp)
  rwa [hparsed "typescript" (by decide +kernel)] at hreplies

end Session

end ClassCohesion.Parsing
