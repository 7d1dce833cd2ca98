import Mathlib.Data.List.Induction
import ClassCohesion.Parsing.Awaited
import ClassCohesion.Proofs.SessionMoves

/-!
# Starting again after a failed start

A session that is used step by step: nothing is asked of it before all calls are over
(`AwaitedRun`). A call that is made after a failed attempt may find that attempt again. An attempt
that fails in the engine is forgotten, so that the next call opens a new one. An attempt that fails
because the files of the engine cannot be located is not (`Kept`), and all calls that need the
engine meet its fault until the session is cleared.

- `kept_iff_refused`: after a run step by step, such an attempt is kept if and only if one was
  refused in the run and the session was not cleared since.
- `restarts_iff_not_refused`: a start that is asked for while the files are located and the engine
  starts is answered, and leaves the engine ready, if and only if no attempt is kept.
-/

namespace ClassCohesion.Parsing

def Stage.hasEnded : Stage → Bool
  | .ended _ => true
  | _ => false

namespace Session

/-! ## Sessions in general -/

/-- What holds of a session whatever the order of its steps: a call waits for every attempt under
way, and the attempt that calls join is the one that made the engine ready, if it succeeded. -/
structure Standing (s : Session) : Prop where
  awaited : ∀ k : Nat, s.attempts[k]? = some .pending →
    ∃ (i : Nat) (goal : Goal), s.calls[i]? = some (.starting goal k)
  joined : ∀ k, s.starting = some k → ∃ attempt, s.attempts[k]? = some attempt ∧
    (attempt = .succeeded → s.ready = true)

theorem standing_fresh : Standing {} where
  awaited := by
    intro k hk
    simp at hk
  joined := by
    intro k hk
    cases hk

theorem Standing.turn {s s' : Session} {step : Step} (h : Standing s) (ht : Turn s step s') :
    Standing s' where
  awaited := by
    intro k hk
    rcases ht.start.pending_cases hk with hold | ⟨-, -, i, located, goal, -, hnew⟩
    · obtain ⟨i, goal, hc⟩ := h.awaited k hold
      exact ⟨i, goal, ht.waiting_kept hc hold⟩
    · exact ⟨i, goal, hnew⟩
  joined := by
    intro k hk
    cases ht.start with
    | kept hs keeps =>
      rw [keeps.starting] at hk
      rw [keeps.attempts, keeps.ready]
      exact h.joined k hk
    | cleared => simp at hk
    | succeeded hj =>
      obtain ⟨attempt, ha, -⟩ := h.joined k hk
      obtain ⟨hlt, -⟩ := List.getElem?_eq_some_iff.mp ha
      exact ⟨_, List.getElem?_eq_getElem (by simpa using hlt), fun _ => rfl⟩
    | failed message hj => cases hk
    | opens hg hr hn opens puts =>
      rw [opens.starting] at hk
      cases hk
      refine ⟨_, by rw [opens.attempts]; exact List.getElem?_concat_length, ?_⟩
      intro hsucceeded
      split at hsucceeded <;> cases hsucceeded

theorem standing_steps (run : List Step) : Standing (({} : Session).steps run) :=
  steps_induction standing_fresh (fun t step h => h.turn (step_turn t step)) run

/-! ## Sessions that are used step by step -/

/-- All calls are over. -/
def AtRest (s : Session) : Prop := ∀ stage ∈ s.calls, stage.hasEnded = true

instance (s : Session) : Decidable (AtRest s) :=
  inferInstanceAs (Decidable (∀ stage ∈ s.calls, stage.hasEnded = true))

/-- A run in which something is asked for only when all calls are over. -/
inductive AwaitedRun : List Step → Prop where
  | nil : AwaitedRun []
  | answer {run : List Step} {step : Step} (h : AwaitedRun run) (hs : step.isRequest = false) :
      AwaitedRun (run ++ [step])
  | request {run : List Step} {step : Step} (h : AwaitedRun run)
      (hr : AtRest (({} : Session).steps run)) : AwaitedRun (run ++ [step])

theorem Standing.no_pending {s : Session} (h : Standing s) (hr : AtRest s) (k : Nat) :
    s.attempts[k]? ≠ some .pending := by
  intro hk
  obtain ⟨i, goal, hc⟩ := h.awaited k hk
  have hended := hr _ (List.mem_of_getElem? hc)
  simp [Stage.hasEnded] at hended

/-- The attempt that calls join has failed, and so will they. -/
def Kept (s : Session) : Prop :=
  ∃ k fault, s.starting = some k ∧ s.attempts[k]? = some (.failed fault)

/-- What holds of a session that is used step by step: there is one attempt under way at most, the
one that calls join, and none is once a failed attempt is kept. -/
structure Calm (s : Session) : Prop where
  pending : ∀ k : Nat, s.attempts[k]? = some .pending → s.starting = some k
  unready : Kept s → s.ready = false

theorem calm_fresh : Calm {} where
  pending := by
    intro k hk
    simp at hk
  unready := fun _ => rfl

theorem Calm.turn {s s' : Session} {step : Step} (h : Calm s) (hs : Standing s)
    (ht : Turn s step s') (hrest : step = .clear → AtRest s) : Calm s' := by
  have hset : ∀ {k j : Nat} (new : Attempt), s.attempts[k]? = some .pending → new ≠ .pending →
      (s.attempts.set k new)[j]? ≠ some .pending := by
    intro k j new hk hnew hj
    by_cases heq : k = j
    · rw [List.getElem?_set, if_pos heq] at hj
      split at hj
      · exact hnew (Option.some.inj hj)
      · cases hj
    · rw [List.getElem?_set_ne heq] at hj
      exact heq (Option.some.inj ((h.pending k hk).symm.trans (h.pending j hj)))
  cases ht.start with
  | kept hne keeps =>
    refine ⟨fun k hk => ?_, ?_⟩
    · rw [keeps.starting]
      exact h.pending k (keeps.attempts ▸ hk)
    · rintro ⟨k, fault, hk, hf⟩
      rw [keeps.ready]
      exact h.unready ⟨k, fault, keeps.starting ▸ hk, keeps.attempts ▸ hf⟩
  | cleared =>
    refine ⟨fun k hk => ?_, fun _ => rfl⟩
    rw [clear_attempts] at hk
    exact absurd hk (hs.no_pending (hrest rfl) k)
  | succeeded hk =>
    refine ⟨fun j hj => absurd hj (hset _ hk (by simp)), ?_⟩
    -- the attempt that calls join is the one that has just succeeded
    rintro ⟨j, fault, hj, hf⟩
    obtain rfl := Option.some.inj ((h.pending _ hk).symm.trans hj)
    rw [List.getElem?_set_self (List.getElem?_eq_some_iff.mp hk).1] at hf
    cases hf
  | failed message hk =>
    refine ⟨fun j hj => absurd hj (hset _ hk (by simp)), ?_⟩
    rintro ⟨j, fault, hj, -⟩
    cases hj
  | opens hg hr hn opens puts =>
    refine ⟨fun k hk => ?_, fun _ => opens.ready.trans hr⟩
    rcases ht.start.pending_cases hk with hold | ⟨-, hstarting, -⟩
    · rw [h.pending k hold] at hn
      cases hn
    · exact hstarting

theorem calm_of_awaited {run : List Step} (h : AwaitedRun run) :
    Calm (({} : Session).steps run) := by
  induction h with
  | nil => exact calm_fresh
  | @answer run step h hs ih =>
    rw [steps_snoc]
    refine ih.turn (standing_steps run) (step_turn _ step) ?_
    rintro rfl
    simp [Step.isRequest] at hs
  | @request run step h hr ih =>
    rw [steps_snoc]
    exact ih.turn (standing_steps run) (step_turn _ step) fun _ => hr

/-! ## Attempts that are refused -/

/-- A call has to start the engine, and its files cannot be located. -/
def Refusal (s : Session) (step : Step) : Prop := ∃ i, Opening s step i false

/-- In a run an attempt was refused, and the session was not cleared since. -/
def Refused (run : List Step) : Prop :=
  ∃ before step after, run = before ++ step :: after ∧
    Refusal (({} : Session).steps before) step ∧ Step.clear ∉ after

theorem refused_snoc (run : List Step) (step : Step) :
    Refused (run ++ [step]) ↔
      Refusal (({} : Session).steps run) step ∨ Refused run ∧ step ≠ .clear := by
  constructor
  · rintro ⟨before, refusal, after, hsplit, hrefusal, hclear⟩
    rcases List.eq_nil_or_concat after with rfl | ⟨after, last, rfl⟩
    · obtain ⟨rfl, hlast⟩ := List.append_inj' hsplit rfl
      cases hlast
      exact .inl hrefusal
    · rw [List.concat_eq_append, ← List.cons_append, ← List.append_assoc] at hsplit
      obtain ⟨rfl, hlast⟩ := List.append_inj' hsplit rfl
      cases hlast
      simp only [List.concat_eq_append, List.mem_append, List.mem_singleton, not_or] at hclear
      exact .inr ⟨⟨before, refusal, after, rfl, hrefusal, hclear.1⟩, Ne.symm hclear.2⟩
  · rintro (hrefusal | ⟨⟨before, refusal, after, rfl, hrefusal, hclear⟩, hne⟩)
    · exact ⟨run, step, [], rfl, hrefusal, List.not_mem_nil⟩
    · refine ⟨before, refusal, after ++ [step], by simp, hrefusal, ?_⟩
      simp [hclear, Ne.symm hne]

theorem Refusal.attempts {s : Session} {step : Step} (h : Refusal s step) :
    (s.step step).attempts =
      s.attempts ++ [.failed (startFault "Could not find web-tree-sitter WASM file")] := by
  obtain ⟨i, hopening⟩ := h
  exact hopening.opens.attempts

theorem not_refusal_of_length {s : Session} {step : Step}
    (h : (s.step step).attempts.length = s.attempts.length) : ¬ Refusal s step := by
  intro hrefusal
  simp [hrefusal.attempts] at h

theorem Calm.not_kept {s : Session} (h : Calm s) {k : Nat} (hk : s.attempts[k]? = some .pending) :
    ¬ Kept s := by
  rintro ⟨j, fault, hj, hf⟩
  obtain rfl := Option.some.inj ((h.pending k hk).symm.trans hj)
  rw [hk] at hf
  cases hf

/-- A failed attempt is kept after a step if the step refused it, or if it was kept before and the
session was not cleared. -/
theorem Calm.kept_step {s : Session} (h : Calm s) (step : Step) :
    Kept (s.step step) ↔ Refusal s step ∨ Kept s ∧ step ≠ .clear := by
  have hturn := (step_turn s step).start
  have hno : (s.step step).attempts.length = s.attempts.length → ¬ Refusal s step :=
    not_refusal_of_length
  have hrefusal : Refusal s step → _ := Refusal.attempts
  generalize s.step step = s' at *
  cases hturn with
  | kept hne keeps =>
    have hsame : Kept s' ↔ Kept s := by
      unfold Kept
      rw [keeps.starting, keeps.attempts]
    have hno := hno (by rw [keeps.attempts])
    tauto
  | cleared =>
    have hno := hno (by rw [clear_attempts])
    have hforgotten : ¬ Kept s.clear := by
      rintro ⟨k, fault, hk, -⟩
      cases hk
    tauto
  | @succeeded k hk =>
    have hno := hno (by simp)
    have hbefore := h.not_kept hk
    refine iff_of_false ?_ (by tauto)
    rintro ⟨j, fault, hj, hf⟩
    obtain rfl := Option.some.inj ((h.pending k hk).symm.trans hj)
    rw [List.getElem?_set_self (List.getElem?_eq_some_iff.mp hk).1] at hf
    cases hf
  | @failed k message hk =>
    have hno := hno (by simp)
    have hbefore := h.not_kept hk
    refine iff_of_false ?_ (by tauto)
    rintro ⟨j, fault, hj, -⟩
    cases hj
  | @opens _ i located goal _ hg hr hn opens puts =>
    have hnew : s'.attempts[s.attempts.length]? = some (if located then .pending
        else .failed (startFault "Could not find web-tree-sitter WASM file")) := by
      rw [opens.attempts]
      exact List.getElem?_concat_length
    cases located with
    | false => exact iff_of_true ⟨_, _, opens.starting, hnew⟩ (.inl ⟨i, hr, hn, goal, hg⟩)
    | true =>
      refine iff_of_false ?_ ?_
      · rintro ⟨k, fault, hk, hf⟩
        rw [opens.starting] at hk
        cases hk
        rw [hnew] at hf
        cases hf
      · rintro (hr | ⟨⟨k, fault, hk, -⟩, -⟩)
        · have hattempts := hrefusal hr
          rw [opens.attempts] at hattempts
          simp at hattempts
        · rw [hn] at hk
          cases hk

theorem kept_iff_refused {run : List Step} (h : AwaitedRun run) :
    Kept (({} : Session).steps run) ↔ Refused run := by
  induction h with
  | nil =>
    refine iff_of_false ?_ ?_
    · rintro ⟨k, fault, hk, -⟩
      cases hk
    · rintro ⟨before, step, after, hsplit, -⟩
      simp at hsplit
  | answer h hs ih => rw [steps_snoc, (calm_of_awaited h).kept_step, refused_snoc, ih]
  | request h hr ih => rw [steps_snoc, (calm_of_awaited h).kept_step, refused_snoc, ih]

/-! ## A start in good surroundings -/

/-- Whether a step is not the failure of an attempt. -/
def Step.startsWell : Step → Bool
  | .startSettles _ (.error _) => false
  | _ => true

/-- Answers that come while nothing is asked for, none of them the failure of an attempt. -/
def Favourable (answers : List Step) : Prop :=
  ∀ step ∈ answers, step.isRequest = false ∧ step.startsWell = true

/-- A start that is asked for now, with the files located and the engine starting, is answered and
leaves the engine ready. It is never answered otherwise, and whatever has been answered already, the
answers that are still to come can bring its own. -/
def Restarts (s : Session) : Prop :=
  ∀ answers, Favourable answers →
    (∀ answer, ((s.call true .start).steps answers).calls[s.calls.length]? = some (.ended answer) →
      answer = .nothing ∧ ((s.call true .start).steps answers).ready = true) ∧
    ∃ more, Favourable more ∧
      ((s.call true .start).steps (answers ++ more)).calls[s.calls.length]? = some (.ended .nothing)

/-- How far a start has come: its attempt is under way, or has succeeded, or the start is over. -/
inductive Underway (i k : Nat) (s : Session) : Prop where
  | waiting (hc : s.calls[i]? = some (.starting .start k)) (ha : s.attempts[k]? = some .pending)
  | started (hc : s.calls[i]? = some (.starting .start k)) (ha : s.attempts[k]? = some .succeeded)
      (hr : s.ready = true)
  | ended (hc : s.calls[i]? = some (.ended .nothing)) (hr : s.ready = true)

namespace Underway

variable {i k : Nat} {s s' : Session} {step : Step}

/-- A start whose attempt has succeeded goes on in one way only. -/
theorem ended_of_started (hc : s.calls[i]? = some (.starting .start k))
    (ha : s.attempts[k]? = some .succeeded) (ht : Turn s step s') :
    s'.calls[i]? = some (.starting .start k) ∨ s'.calls[i]? = some (.ended .nothing) := by
  have hother : ∀ {j : Nat} {stage : Stage}, Puts s.calls j stage s'.calls → j ≠ i →
      s'.calls[i]? = some (.starting .start k) ∨ s'.calls[i]? = some (.ended .nothing) := by
    intro j stage puts hj
    exact .inl (by rw [puts.other (Ne.symm hj), hc])
  have hgoes : ∀ {j : Nat} {located : Bool} {goal : Goal}, Goes s step j located goal → j ≠ i := by
    rintro j located goal hg rfl
    rcases hg.stage with hnone | ⟨path, hreading⟩
    · simp [hc] at hnone
    · simp [hc] at hreading
  have hseeks : ∀ {j : Nat} {path source : String}, Seeks s step j path source → j ≠ i := by
    rintro j path source hs rfl
    cases hs with
    | ready hg hr => exact hgoes hg rfl
    | resumed hc' ha' => simp [hc] at hc'
  cases ht with
  | quiet hs keeps calls => exact .inl (by rw [calls, hc])
  | cleared => exact .inl (by rw [clear_calls, hc])
  | succeeded hk => exact .inl hc
  | failed message hk => exact .inl hc
  | reads hl keeps puts =>
    refine hother puts ?_
    rintro rfl
    simp at hc
  | joins hg hr hk keeps puts => exact hother puts (hgoes hg)
  | opens hg hr hn opens puts => exact hother puts (hgoes hg)
  | seeks hs hl hk keeps puts => exact hother puts (hseeks hs)
  | uses hc' hk he uses puts =>
    refine hother puts ?_
    rintro rfl
    simp [hc] at hc'
  | @ends _ j answer _ he keeps puts =>
    by_cases hj : j = i
    · subst hj
      cases he with
      | started hc' ha' => exact .inr puts.self
      | ready hg hr => exact absurd rfl (hgoes hg)
      | unknown hs hl => exact absurd rfl (hseeks hs)
      | unsupported hl => simp at hc
      | unread hc' => simp [hc] at hc'
      | unloaded hc' hk => simp [hc] at hc'
      | released hc' hk hn => simp [hc] at hc'
      | unstarted hc' ha' =>
        obtain ⟨-, rfl⟩ := Stage.starting.inj (Option.some.inj (hc.symm.trans hc'))
        simp [ha] at ha'
    · exact hother puts hj

theorem turn (h : Underway i k s) (ht : Turn s step s') (hs : step.isRequest = false)
    (hw : step.startsWell = true) : Underway i k s' := by
  have hclear : step ≠ .clear := by
    rintro rfl
    simp [Step.isRequest] at hs
  cases h with
  | waiting hc ha =>
    have hc' := ht.waiting_kept hc ha
    cases ht.start with
    | kept hne keeps => exact .waiting hc' (by rw [keeps.attempts, ha])
    | cleared => exact absurd rfl hclear
    | failed message hj => simp [Step.startsWell] at hw
    | @succeeded j hj =>
      by_cases heq : j = k
      · subst heq
        exact .started hc' (List.getElem?_set_self (List.getElem?_eq_some_iff.mp ha).1) rfl
      · exact .waiting hc' (by rw [List.getElem?_set_ne heq, ha])
    | opens hg hr hn opens puts =>
      obtain ⟨hlt, -⟩ := List.getElem?_eq_some_iff.mp ha
      exact .waiting hc' (by rw [opens.attempts, List.getElem?_append_left hlt, ha])
  | started hc ha hr =>
    have hr' := ht.start.ready_kept hclear hr
    have ha' : s'.attempts[k]? = some .succeeded := by
      rcases ht.start.attempts_kept ha with hkept | ⟨hpending, -⟩
      · exact hkept
      · cases hpending
    rcases ended_of_started hc ha ht with hc' | hc'
    · exact .started hc' ha' hr'
    · exact .ended hc' hr'
  | ended hc hr => exact .ended (ht.ended_kept hc) (ht.start.ready_kept hclear hr)

theorem steps (h : Underway i k s) {answers : List Step} (ha : Favourable answers) :
    Underway i k (s.steps answers) := by
  induction answers generalizing s with
  | nil => exact h
  | cons step answers ih =>
    obtain ⟨⟨hs, hw⟩, hrest⟩ := List.forall_mem_cons.mp ha
    exact ih (h.turn (step_turn s step) hs hw) hrest

/-- The answers that are still to come can end the start. -/
theorem exists_ended (h : Underway i k s) :
    ∃ more, Favourable more ∧ (s.steps more).calls[i]? = some (.ended .nothing) := by
  have hresume : ∀ t : Session, t.calls[i]? = some (.starting .start k) →
      t.attempts[k]? = some .succeeded →
      (t.step (.resume i (.ok ()) (.ok true))).calls[i]? = some (.ended .nothing) := by
    intro t hc ha
    obtain ⟨hi, -⟩ := List.getElem?_eq_some_iff.mp hc
    simp only [Session.step, resume, hc, ha]
    exact List.getElem?_set_self hi
  cases h with
  | waiting hc ha =>
    refine ⟨[.startSettles k (.ok ()), .resume i (.ok ()) (.ok true)], by simp [Favourable,
      Step.isRequest, Step.startsWell], ?_⟩
    obtain ⟨hk, -⟩ := List.getElem?_eq_some_iff.mp ha
    apply hresume
    · simp only [Session.step, startSettles, ha]
      exact hc
    · simp only [Session.step, startSettles, ha]
      exact List.getElem?_set_self hk
  | started hc ha hr =>
    exact ⟨[.resume i (.ok ()) (.ok true)], by simp [Favourable, Step.isRequest, Step.startsWell],
      hresume s hc ha⟩
  | ended hc hr => exact ⟨[], by simp [Favourable], hc⟩

theorem answer_eq (h : Underway i k s) {answer : Answer}
    (ha : s.calls[i]? = some (.ended answer)) : answer = .nothing ∧ s.ready = true := by
  cases h with
  | waiting hc hp => simp [hc] at ha
  | started hc hs hr => simp [hc] at ha
  | ended hc hr =>
    cases Option.some.inj (hc.symm.trans ha)
    exact ⟨rfl, hr⟩

theorem restarts {s : Session} (h : Underway s.calls.length k (s.call true .start)) :
    Restarts s := by
  intro answers hanswers
  have hlater := h.steps hanswers
  obtain ⟨more, hmore, hended⟩ := hlater.exists_ended
  refine ⟨fun answer => hlater.answer_eq, more, hmore, ?_⟩
  rw [steps_append]
  exact hended

end Underway

/-- Without a failed attempt that is kept, a session at rest has its engine ready or opens a new
attempt. -/
theorem restarts_of_not_kept {s : Session} (hs : Standing s) (hrest : AtRest s) (hk : ¬ Kept s) :
    Restarts s := by
  cases hr : s.ready with
  | true =>
    -- the number of an attempt does not matter here
    apply Underway.restarts (k := 0)
    have hcall : s.call true .start = { s with calls := s.calls ++ [.ended .nothing] } := by
      simp only [call, open?, pursue_start s hr]
    rw [hcall]
    exact .ended List.getElem?_concat_length hr
  | false =>
    have hn : s.starting = none := by
      by_contra hne
      obtain ⟨k, hstarting⟩ := Option.ne_none_iff_exists'.mp hne
      obtain ⟨attempt, ha, hsucceeded⟩ := hs.joined k hstarting
      cases attempt with
      | pending => exact hs.no_pending hrest k ha
      | succeeded => simp [hr] at hsucceeded
      | failed fault => exact hk ⟨k, fault, hstarting, ha⟩
    apply Underway.restarts (k := s.attempts.length)
    simp only [call, open?, pursue_opens s hr hn]
    exact .waiting List.getElem?_concat_length List.getElem?_concat_length

/-- A failed attempt that is kept is the one that the next start joins. -/
theorem Kept.not_restarts {s : Session} (h : Kept s) (hr : s.ready = false) : ¬ Restarts s := by
  obtain ⟨k, fault, hk, hf⟩ := h
  intro hrestarts
  have hcall : s.call true .start = { s with calls := s.calls ++ [.starting .start k] } := by
    simp only [call, open?, pursue_joins s hr hk]
  obtain ⟨hanswer, -⟩ := hrestarts [.resume s.calls.length (.ok ()) (.ok true)]
    (by simp [Favourable, Step.isRequest, Step.startsWell])
  have hended := hanswer (.failed fault) (by simp [hcall, steps, step, resume, hf, setCall])
  cases hended.1

/-- **Starting again.** After a run step by step, a start in good surroundings is answered and
leaves the engine ready if and only if, since the session was cleared last, no call had to start the
engine and found that its files cannot be located. -/
theorem restarts_iff_not_refused {run : List Step} (h : AwaitedRun run)
    (hrest : AtRest (({} : Session).steps run)) :
    Restarts (({} : Session).steps run) ↔ ¬ Refused run := by
  rw [← kept_iff_refused h]
  constructor
  · intro hrestarts hkept
    exact hkept.not_restarts ((calm_of_awaited h).unready hkept) hrestarts
  · exact restarts_of_not_kept (standing_steps run) hrest

namespace Sample

/-- A start that fails in the engine, and a call to parse that fails in the same way. -/
def failedStart : List Step :=
  [.call .start true, .startSettles 0 (.error "init failed"), .resume 0 (.ok ()) (.ok true),
   .call (.parse "Shape.java" "class Shape {}") true, .startSettles 1 (.error "init failed"),
   .resume 1 (.ok ()) (.ok true)]

/-- A start that fails because the files of the engine cannot be located. -/
def refusedStart : List Step := [.call .start false, .resume 0 (.ok ()) (.ok true)]

theorem failedStart_awaited : AwaitedRun failedStart :=
  .answer (.answer (.request (.answer (.answer (.request .nil (by decide)) rfl) rfl) (by decide))
    rfl) rfl

theorem failedStart_not_refused : ¬ Refused failedStart := by
  rintro ⟨before, step, after, hsplit, ⟨i, -, -, goal, hg⟩, -⟩
  have hmem : step ∈ failedStart := by simp [hsplit]
  cases hg <;> simp [failedStart] at hmem

end Sample

/-- Both calls have failed, and the next start succeeds. -/
theorem restarts_iff_not_refused_failed_start :
    AtRest (({} : Session).steps Sample.failedStart) ∧
      (({} : Session).steps Sample.failedStart).calls =
        [.ended (.failed (startFault "init failed")), .ended (.failed (startFault "init failed"))] ∧
      Restarts (({} : Session).steps Sample.failedStart) := by
  have hrest : AtRest (({} : Session).steps Sample.failedStart) := by decide
  refine ⟨hrest, by decide, ?_⟩
  exact (restarts_iff_not_refused Sample.failedStart_awaited hrest).mpr
    Sample.failedStart_not_refused

/-- A start fails because the files of the engine cannot be located. They can be when the next start
is asked for, and it fails all the same. -/
theorem refused_start_not_retried :
    AwaitedRun Sample.refusedStart ∧ AtRest (({} : Session).steps Sample.refusedStart) ∧
      ¬ Restarts (({} : Session).steps Sample.refusedStart) ∧
      (await {} (await { located := false } {} .start).1 .start).2 =
        .failed (startFault "Could not find web-tree-sitter WASM file") ∧
      (await {} (await { located := false } {} .start).1 .start).1.ready = false := by
  refine ⟨.answer (.request .nil (by decide)) rfl, by decide, ?_, by decide, by decide⟩
  exact Kept.not_restarts ⟨0, _, rfl, rfl⟩ rfl

end Session

end ClassCohesion.Parsing
