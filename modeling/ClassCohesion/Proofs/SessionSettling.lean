import ClassCohesion.Parsing.Awaited
import ClassCohesion.Proofs.SessionEngines
import ClassCohesion.Proofs.SharedLoads

/-!
# A session settles

After a request, a session that is used step by step takes the steps that are due until none is. The
number of these steps is bounded beforehand, so it has to be shown that the bound is never reached:
every step that is due lessens `weight`, and a request adds less to it than the bound allows. A
session without weight is at rest: all calls are over and nothing is under way.

This needs what holds of every session whose surroundings can locate the files (`Sound`): whatever a
call waits for is there, and an attempt that failed is not kept.
-/

namespace ClassCohesion.Parsing

namespace Session

/-! ## Sound sessions -/

/-- Whether a step finds the files of packages if it looks for them. -/
def Step.isLocated : Step → Bool
  | .call _ located => located
  | .readSettles _ located _ => located
  | .lockProceeds _ located => located
  | _ => true

theorem Goes.isLocated {s : Session} {step : Step} {i : Nat} {located : Bool} {goal : Goal}
    (h : Goes s step i located goal) : step.isLocated = located := by
  cases h <;> rfl

end Session

open Session

/-- The list of grammars names loads of these grammars that are under way or have succeeded. -/
def Shelf.Named (b : Shelf) : Prop :=
  ∀ g ∈ b.grammars, ∃ state, b.loads[g.2]? = some ⟨g.1, state⟩ ∧ state.isCurrent = true

theorem Shelf.Named.set {b : Shelf} (h : b.Named) {k : Nat} {language : String}
    {old new : LoadState} (hk : b.loads[k]? = some ⟨language, old⟩) (hnew : new.isCurrent = true)
    (lock : Lock Nat) : Shelf.Named ⟨b.grammars, b.loads.set k ⟨language, new⟩, lock⟩ := by
  intro g hg
  obtain ⟨state, hstate, hcurrent⟩ := h g hg
  obtain ⟨hlt, -⟩ := List.getElem?_eq_some_iff.mp hk
  by_cases heq : k = g.2
  · rw [← heq] at hstate
    obtain ⟨hlanguage, -⟩ := Load.mk.inj (Option.some.inj (hk.symm.trans hstate))
    refine ⟨new, ?_, hnew⟩
    show (b.loads.set k ⟨language, new⟩)[g.2]? = _
    rw [← heq, List.getElem?_set_self hlt, hlanguage]
  · exact ⟨state, (List.getElem?_set_ne heq).trans hstate, hcurrent⟩

theorem Shelf.Named.move {b b' : Shelf} (h : b.Named) (hm : Shelf.Move b b') : b'.Named := by
  cases hm with
  | ask ha =>
    cases ha
    intro g hg
    rcases List.mem_append.mp hg with hold | hnew
    · obtain ⟨state, hstate, hcurrent⟩ := h g hold
      obtain ⟨hlt, -⟩ := List.getElem?_eq_some_iff.mp hstate
      exact ⟨state, (List.getElem?_append_left hlt).trans hstate, hcurrent⟩
    · obtain rfl := List.mem_singleton.mp hnew
      exact ⟨.queued, List.getElem?_concat_length, rfl⟩
  | advance ha =>
    cases ha with
    | enter hf hk => exact h.set hk rfl _
    | finish outcome hk => exact h.set hk rfl _
    | report hf hk => exact h.set hk rfl _
    | @fail i k language reason hf hk =>
      intro g hg
      obtain ⟨hmem, hne⟩ := List.mem_filter.mp hg
      obtain ⟨state, hstate, hcurrent⟩ := h g hmem
      refine ⟨state, (List.getElem?_set_ne ?_).trans hstate, hcurrent⟩
      rintro rfl
      obtain ⟨hlanguage, -⟩ := Load.mk.inj (Option.some.inj (hk.symm.trans hstate))
      simp [hlanguage] at hne

namespace Session

/-- What holds of a session whose surroundings can locate the files. -/
structure Sound (s : Session) : Prop where
  tidy : ∃ m, s.shelf.Tidy m
  named : s.shelf.Named
  equipped : s.ready = true → s.engine.isSome = true
  joined : ∀ k, s.starting = some k → s.attempts[k]? = some .pending ∨
    s.attempts[k]? = some .succeeded ∧ s.ready = true
  starting : ∀ (i : Nat) (goal : Goal) (k : Nat), s.calls[i]? = some (.starting goal k) →
    ∃ attempt, s.attempts[k]? = some attempt
  loading : ∀ (i : Nat) (path source language : String) (k : Nat),
    s.calls[i]? = some (.loading path source language k) → s.HasLoad k language

theorem sound_fresh : Sound {} where
  tidy := ⟨0, Shelf.tidy_fresh⟩
  named := by simp [Shelf.Named, shelf]
  equipped := by simp
  joined := by simp
  starting := by simp
  loading := by simp

theorem StartTurn.attempts_length {s s' : Session} {step : Step} (h : StartTurn s step s') :
    s.attempts.length ≤ s'.attempts.length := by
  cases h with
  | kept hs keeps => exact Nat.le_of_eq (by rw [keeps.attempts])
  | cleared => exact Nat.le_of_eq (by rw [clear_attempts])
  | succeeded hk => simp
  | failed message hk => simp
  | opens hg hr hn opens puts => simp [opens.attempts]

theorem StartTurn.joined {s s' : Session} {step : Step} (h : StartTurn s step s')
    (hl : step.isLocated = true) (hs : ∀ k, s.starting = some k → s.attempts[k]? = some .pending ∨
      s.attempts[k]? = some .succeeded ∧ s.ready = true) (k : Nat) (hk : s'.starting = some k) :
    s'.attempts[k]? = some .pending ∨ s'.attempts[k]? = some .succeeded ∧ s'.ready = true := by
  cases h with
  | kept hne keeps =>
    rw [keeps.starting] at hk
    rw [keeps.attempts, keeps.ready]
    exact hs k hk
  | cleared => simp at hk
  | failed message hj => cases hk
  | @succeeded j hj =>
    obtain ⟨hlt, -⟩ := List.getElem?_eq_some_iff.mp hj
    by_cases heq : j = k
    · subst heq
      exact .inr ⟨List.getElem?_set_self hlt, rfl⟩
    · rcases hs k hk with hpending | ⟨hsucceeded, -⟩
      · exact .inl ((List.getElem?_set_ne heq).trans hpending)
      · exact .inr ⟨(List.getElem?_set_ne heq).trans hsucceeded, rfl⟩
  | opens hg hr hn opens puts =>
    rw [opens.starting] at hk
    cases hk
    obtain rfl := hg.isLocated.symm.trans hl
    refine .inl ?_
    rw [opens.attempts]
    exact List.getElem?_concat_length

/-- A call that waits for an attempt did so before, or the attempt is the one that calls join. -/
theorem Turn.starting_cases {s s' : Session} {step : Step} (ht : Turn s step s') {i k : Nat}
    {goal : Goal} (hc : s'.calls[i]? = some (.starting goal k)) :
    s.calls[i]? = some (.starting goal k) ∨ s'.starting = some k := by
  have hother : ∀ {j : Nat} {stage : Stage}, Puts s.calls j stage s'.calls →
      stage ≠ .starting goal k → s.calls[i]? = some (.starting goal k) := by
    intro j stage puts hne
    rcases puts.cases hc with ⟨-, rfl⟩ | ⟨-, hold⟩
    · exact absurd rfl hne
    · exact hold
  cases ht with
  | quiet hq keeps calls => exact .inl (calls ▸ hc)
  | cleared => exact .inl (clear_calls s ▸ hc)
  | succeeded hk => exact .inl hc
  | failed message hk => exact .inl hc
  | reads hl keeps puts => exact .inl (hother puts (by simp))
  | seeks hs hl hk keeps puts => exact .inl (hother puts (by simp))
  | ends he keeps puts => exact .inl (hother puts (by simp))
  | uses hc' hk he uses puts => exact .inl (hother puts (by simp))
  | joins hg hr hk keeps puts =>
    rcases puts.cases hc with ⟨-, hstage⟩ | ⟨-, hold⟩
    · obtain ⟨-, rfl⟩ := Stage.starting.inj hstage
      exact .inr (keeps.starting.trans hk)
    · exact .inl hold
  | opens hg hr hn opens puts =>
    rcases puts.cases hc with ⟨-, hstage⟩ | ⟨-, hold⟩
    · obtain ⟨-, rfl⟩ := Stage.starting.inj hstage
      exact .inr opens.starting
    · exact .inl hold

theorem Sound.registered {s : Session} (h : Sound s) : Registered s := by
  intro g hg
  obtain ⟨state, hstate, -⟩ := h.named g hg
  exact ⟨state, hstate⟩

theorem Sound.step {s : Session} (h : Sound s) {step : Step} (hl : step.isLocated = true) :
    Sound (s.step step) := by
  have hturn := step_turn s step
  obtain ⟨m, hm⟩ := h.tidy
  have hjoined := hturn.start.joined hl h.joined
  refine ⟨tidy_step hm step, ?_, hturn.engine_of_ready h.equipped, hjoined, ?_, ?_⟩
  · by_cases hs : step = .clear
    · subst hs
      show s.clear.shelf.Named
      rw [clear_shelf]
      simp [Shelf.Named]
    · have hmoves := step_shelf hm hs
      have hkept : ∀ {b : Shelf}, Relation.ReflTransGen Shelf.Move s.shelf b → b.Named := by
        intro b hb
        induction hb with
        | refl => exact h.named
        | tail _ hlast ih => exact ih.move hlast
      exact hkept hmoves
  · intro i goal k hc
    rcases hturn.starting_cases hc with hold | hnew
    · obtain ⟨attempt, ha⟩ := h.starting i goal k hold
      obtain ⟨hlt, -⟩ := List.getElem?_eq_some_iff.mp ha
      exact ⟨_, List.getElem?_eq_getElem (Nat.lt_of_lt_of_le hlt hturn.start.attempts_length)⟩
    · rcases hjoined k hnew with hpending | ⟨hsucceeded, -⟩
      · exact ⟨_, hpending⟩
      · exact ⟨_, hsucceeded⟩
  · intro i path source language k hc
    rcases hturn.loading_cases hc with hold | ⟨-, -, hnew⟩
    · exact (step_keepsLoads s step).hasLoad (h.loading i path source language k hold)
    · exact hnew h.registered

end Session

/-! ## Steps that are due -/

/-- The number of steps until the outcome of an attempt is known. -/
def Attempt.remaining : Attempt → Nat
  | pending => 1
  | _ => 0

/-- The greatest number of steps that a call can still bring about by itself: to read its file, to
start the engine and to load a grammar, and to go on after each of them. -/
def Stage.remaining : Stage → Nat
  | .reading _ => 7
  | .starting _ _ => 5
  | .loading _ _ _ _ => 1
  | .ended _ => 0

@[simp]
theorem Stage.remaining_reading (path : String) : (Stage.reading path).remaining = 7 := rfl

@[simp]
theorem Stage.remaining_starting (goal : Goal) (k : Nat) :
    (Stage.starting goal k).remaining = 5 := rfl

@[simp]
theorem Stage.remaining_loading (path source language : String) (k : Nat) :
    (Stage.loading path source language k).remaining = 1 := rfl

@[simp]
theorem Stage.remaining_ended (answer : Answer) : (Stage.ended answer).remaining = 0 := rfl

namespace Session

/-- The steps that attempts and loads are still to take. -/
def supply (s : Session) : Nat := (s.attempts.map Attempt.remaining).sum + s.shelf.weight

/-- A bound on the steps that can still follow. -/
def weight (s : Session) : Nat := s.supply + (s.calls.map Stage.remaining).sum

/-- A step that waits to be taken, with what the surroundings answer. -/
inductive Due (s : Session) (w : Surroundings) : Step → Prop where
  | start {k : Nat} (hk : s.attempts[k]? = some .pending) : Due s w (.startSettles k w.start)
  | lock {f : Lock.FollowUp Nat} (hf : s.lock.followUps[0]? = some f) :
      Due s w (.lockProceeds 0 w.located)
  | grammar {k : Nat} {language : String} (hk : s.loads[k]? = some ⟨language, .reading⟩) :
      Due s w (.grammarSettles k w.grammar)
  | resume {i : Nat} {stage : Stage} (hc : s.calls[i]? = some stage)
      (hr : s.canResume stage = true) : Due s w (.resume i w.setting w.engine)
  | read {i : Nat} {path : String} (hc : s.calls[i]? = some (.reading path)) :
      Due s w (.readSettles i w.located w.text)

theorem Due.isLocated {s : Session} {w : Surroundings} {step : Step} (h : Due s w step)
    (hw : w.located = true) : step.isLocated = true := by
  cases h <;> first | rfl | exact hw

theorem supply_eq_zero_iff {s : Session} :
    s.supply = 0 ↔ (∀ k : Nat, s.attempts[k]? ≠ some .pending) ∧ s.shelf.weight = 0 := by
  rw [supply, Nat.add_eq_zero_iff, List.sum_eq_zero_iff_forall_eq_nat, List.forall_mem_map]
  refine and_congr_left fun _ => ⟨fun h k hk => ?_, fun h attempt hmem => ?_⟩
  · simpa [Attempt.remaining] using h _ (List.mem_of_getElem? hk)
  · obtain ⟨k, hk⟩ := List.mem_iff_getElem?.mp hmem
    cases attempt with
    | pending => exact absurd hk (h k)
    | succeeded => rfl
    | failed fault => rfl

theorem seekGrammar_cost (s : Session) (path source : String) :
    (s.seekGrammar path source).1.supply + (s.seekGrammar path source).2.remaining ≤
      s.supply + 4 := by
  cases hl : Language.ofPath? path with
  | none =>
    rw [seekGrammar_none s hl]
    simp
  | some language =>
    rw [seekGrammar_some s hl]
    cases hn : s.grammars.lookup language with
    | some k =>
      rw [joinLoad_some hn]
      simp
    | none =>
      rw [joinLoad_none hn]
      simp [supply, shelf, Shelf.weight, LoadState.remaining]
      omega

theorem pursue_cost (s : Session) (located : Bool) (goal : Goal) :
    (s.pursue located goal).1.supply + (s.pursue located goal).2.remaining ≤ s.supply + 6 := by
  cases hr : s.ready with
  | true =>
    cases goal with
    | start =>
      rw [pursue_start s hr]
      simp
    | parse path source =>
      rw [pursue_parse s hr]
      have hcost := seekGrammar_cost s path source
      omega
  | false =>
    cases hk : s.starting with
    | some k =>
      rw [pursue_joins s hr hk]
      simp
    | none =>
      rw [pursue_opens s hr hk]
      have hnew : (if located then Attempt.pending
          else .failed (startFault "Could not find web-tree-sitter WASM file")).remaining ≤ 1 := by
        cases located <;> decide
      simp only [supply, shelf, Stage.remaining_starting, List.map_append, List.sum_append,
        List.map_cons, List.map_nil, List.sum_singleton]
      omega

theorem call_weight (s : Session) (located : Bool) (r : Request) :
    (s.call located r).weight ≤ s.weight + 7 ∧
      (s.call located r).calls.length = s.calls.length + 1 := by
  have hput : ∀ {t : Session} {stage : Stage}, t.calls = s.calls →
      t.supply + stage.remaining ≤ s.supply + 7 →
      { t with calls := t.calls ++ [stage] }.weight ≤ s.weight + 7 ∧
        (t.calls ++ [stage]).length = s.calls.length + 1 := by
    intro t stage hcalls hcost
    have hsupply : { t with calls := t.calls ++ [stage] }.supply = t.supply := rfl
    refine ⟨?_, by simp [hcalls]⟩
    rw [weight, hsupply]
    simp only [hcalls, List.map_append, List.sum_append, List.map_cons, List.map_nil,
      List.sum_singleton, weight]
    omega
  have hpursue : ∀ goal, _ ∧ _ := fun goal =>
    @hput (s.pursue located goal).1 (s.pursue located goal).2 (pursue_calls s goal)
      (Nat.le_succ_of_le (pursue_cost s located goal))
  cases r with
  | start => exact hpursue .start
  | parse path source => exact hpursue (.parse path source)
  | parseFile path =>
    -- stated by itself, so that the table of languages stays closed
    have hopen : s.open? located (.parseFile path) =
        if Language.isSupported path then (s, .reading path) else (s, .ended .nothing) := rfl
    unfold call
    rw [hopen]
    cases Language.isSupported path
    · exact hput rfl (by simp)
    · exact hput rfl (by simp)

theorem clear_weight (s : Session) : s.clear.weight = s.weight := by
  have hshelf : s.clear.shelf.weight = s.shelf.weight := by
    rw [clear_shelf]
    rfl
  rw [weight, supply, clear_attempts, clear_calls, hshelf]
  rfl

/-- A call that goes on costs less than what it waited for. -/
theorem weight_setCall {s t : Session} {i : Nat} {old new : Stage}
    (hc : s.calls[i]? = some old) (hcalls : t.calls = s.calls)
    (hcost : t.supply + new.remaining < s.supply + old.remaining) :
    (t.setCall i new).weight < s.weight := by
  have hsupply : (t.setCall i new).supply = t.supply := rfl
  have hbefore : (s.calls.map Stage.remaining)[i]? = some old.remaining := by simp [hc]
  have hsum := Shelf.sum_set_add new.remaining hbefore
  rw [weight, hsupply]
  simp only [setCall, hcalls, List.map_set, weight]
  omega

theorem supply_of_shelf {s t : Session} (ha : t.attempts = s.attempts) (hs : t.shelf = s.shelf) :
    t.supply = s.supply := by
  rw [supply, ha, hs]
  rfl

theorem useEngine_attempts (s : Session) (path source language grammar : String)
    (setting : Except String Unit) (reply : Except String Bool) :
    (s.useEngine path source language grammar setting reply).1.attempts = s.attempts := by
  cases he : s.engine with
  | none => rw [useEngine_none he]
  | some e => exact (useEngine_uses he path source language grammar setting reply).1.attempts

theorem resume_weight_lt {s : Session} {i : Nat} {stage : Stage} (hc : s.calls[i]? = some stage)
    (hr : s.canResume stage = true) (setting : Except String Unit) (reply : Except String Bool) :
    (s.resume i setting reply).weight < s.weight := by
  unfold resume
  rw [hc]
  cases stage with
  | reading path => simp [canResume] at hr
  | ended answer => simp [canResume] at hr
  | starting goal k =>
    cases ha : s.attempts[k]? with
    | none => simp [canResume, ha] at hr
    | some attempt =>
      cases attempt with
      | pending => simp [canResume, ha] at hr
      | failed fault =>
        simp only [ha]
        exact weight_setCall hc rfl (by simp)
      | succeeded =>
        simp only [ha]
        cases goal with
        | start => exact weight_setCall hc rfl (by simp)
        | parse path source =>
          have hcost := seekGrammar_cost s path source
          show ((s.seekGrammar path source).1.setCall i (s.seekGrammar path source).2).weight <
            s.weight
          refine weight_setCall hc (seekGrammar_calls s) ?_
          rw [Stage.remaining_starting]
          omega
  | loading path source language k =>
    cases hk : s.loads[k]? with
    | none => simp [canResume, hk] at hr
    | some load =>
      obtain ⟨grammar, state⟩ := load
      cases state with
      | queued => simp [canResume, hk] at hr
      | reading => simp [canResume, hk] at hr
      | ending => simp [canResume, hk] at hr
      | failed reason =>
        simp only [hk]
        exact weight_setCall hc rfl (by simp)
      | loaded =>
        simp only [hk]
        refine weight_setCall hc (useEngine_calls s _ _ _ _ _ _) ?_
        rw [supply_of_shelf (useEngine_attempts s _ _ _ _ _ _) (useEngine_shelf s _ _ _ _ _ _)]
        simp

theorem readSettles_weight_lt {s : Session} {i : Nat} {path : String}
    (hc : s.calls[i]? = some (.reading path)) (located : Bool)
    (outcome : Except ReadFailure String) :
    (s.readSettles i located outcome).weight < s.weight := by
  unfold readSettles
  rw [hc]
  cases outcome with
  | error failure => exact weight_setCall hc rfl (by simp)
  | ok source =>
    have hcost := pursue_cost s located (.parse path source)
    show ((s.pursue located (.parse path source)).1.setCall i
      (s.pursue located (.parse path source)).2).weight < s.weight
    refine weight_setCall hc (pursue_calls s _) ?_
    rw [Stage.remaining_reading]
    omega

theorem startSettles_weight_lt {s : Session} {k : Nat} (hk : s.attempts[k]? = some .pending)
    (outcome : Except String Unit) : (s.startSettles k outcome).weight < s.weight := by
  have hsum : ∀ attempt : Attempt, attempt.remaining = 0 →
      ((s.attempts.set k attempt).map Attempt.remaining).sum + 1 =
        (s.attempts.map Attempt.remaining).sum := by
    intro attempt hattempt
    have hbefore : (s.attempts.map Attempt.remaining)[k]? = some 1 := by
      simp [hk, Attempt.remaining]
    have hset := Shelf.sum_set_add attempt.remaining hbefore
    rw [List.map_set]
    omega
  have hshelf : (s.startSettles k outcome).shelf = s.shelf := startSettles_shelf s k outcome
  cases outcome with
  | ok =>
    have hless := hsum .succeeded rfl
    simp only [weight, supply, hshelf]
    simp only [startSettles, hk, note]
    omega
  | error message =>
    have hless := hsum (.failed (startFault message)) rfl
    simp only [weight, supply, hshelf]
    simp only [startSettles, hk]
    omega

theorem aside_weight_lt {s t : Session} (h : Aside s t) (hw : t.shelf.weight < s.shelf.weight) :
    t.weight < s.weight := by
  simp only [weight, supply, h.keeps.attempts, h.calls]
  omega

theorem Due.weight_lt {s : Session} {w : Surroundings} {step : Step} (h : Due s w step)
    (hs : Sound s) : (s.step step).weight < s.weight := by
  obtain ⟨m, hm⟩ := hs.tidy
  cases h with
  | start hk => exact startSettles_weight_lt hk w.start
  | lock hf =>
    exact aside_weight_lt (lockProceeds_aside s 0 w.located)
      (Shelf.weight_lt_of_transGen (lockProceeds_advances hm hf w.located))
  | grammar hk =>
    exact aside_weight_lt (grammarSettles_aside s _ w.grammar)
      (grammarSettles_advance hk w.grammar).weight_lt
  | resume hc hr => exact resume_weight_lt hc hr w.setting w.engine
  | read hc => exact readSettles_weight_lt hc w.located w.text

/-! ## The next step -/

theorem next?_due {s : Session} {w : Surroundings} {step : Step} (h : s.next? w = some step) :
    Due s w step := by
  simp only [next?, Option.orElse_eq_orElse, Option.orElse_eq_or, Option.or_eq_some_iff,
    Option.map_eq_some_iff] at h
  rcases h with ⟨k, hk, rfl⟩ | ⟨-, h⟩
  · obtain ⟨hlt, hpending, -⟩ := List.idxOf?_eq_some_iff.mp hk
    exact .start (by rw [List.getElem?_eq_getElem hlt, hpending])
  rcases h with hlock | ⟨-, h⟩
  · cases hf : s.lock.followUps with
    | nil => simp [hf] at hlock
    | cons f fs =>
      simp only [hf, List.isEmpty_cons, Bool.false_eq_true, if_false, Option.some.injEq] at hlock
      subst hlock
      exact .lock (f := f) (by simp [hf])
  rcases h with ⟨k, hk, rfl⟩ | ⟨-, h⟩
  · obtain ⟨hlt, hreading, -⟩ := List.findIdx?_eq_some_iff_getElem.mp hk
    have hstate : s.loads[k].state = .reading := by simpa using hreading
    have hload : s.loads[k]? = some ⟨s.loads[k].language, .reading⟩ := by
      rw [List.getElem?_eq_getElem hlt, ← hstate]
    exact .grammar hload
  rcases h with ⟨i, hi, rfl⟩ | ⟨-, i, hi, rfl⟩
  · obtain ⟨hlt, hresume, -⟩ := List.findIdx?_eq_some_iff_getElem.mp hi
    exact .resume (List.getElem?_eq_getElem hlt) hresume
  · obtain ⟨hlt, hreading, -⟩ := List.findIdx?_eq_some_iff_getElem.mp hi
    cases hc : s.calls[i] with
    | reading path => exact .read (by rw [List.getElem?_eq_getElem hlt, hc])
    | starting goal k => simp [hc] at hreading
    | loading path source language k => simp [hc] at hreading
    | ended answer => simp [hc] at hreading

/-- If no step is due, nothing is under way. -/
theorem weight_eq_zero_of_next? {s : Session} {w : Surroundings} (hs : Sound s)
    (h : s.next? w = none) : s.weight = 0 := by
  simp only [next?, Option.orElse_eq_orElse, Option.orElse_eq_or, Option.or_eq_none_iff,
    Option.map_eq_none_iff, List.idxOf?_eq_none_iff, List.findIdx?_eq_none_iff] at h
  obtain ⟨hstart, hlock, hgrammar, hresume, hread⟩ := h
  obtain ⟨m, hm⟩ := hs.tidy
  have hfollowUps : s.lock.followUps = [] := by
    by_contra hne
    simp [hne] at hlock
  have hreading : ∀ (k : Nat) (language : String), s.loads[k]? ≠ some ⟨language, .reading⟩ := by
    intro k language hk
    simpa using hgrammar _ (List.mem_of_getElem? hk)
  have hattempts : ∀ k : Nat, s.attempts[k]? ≠ some .pending := fun k hk =>
    hstart (List.mem_of_getElem? hk)
  have hloads : s.shelf.weight = 0 := Shelf.weight_eq_zero_iff.mpr fun k load hk =>
    hm.all_settled hfollowUps hreading hk
  have hcalls : ∀ stage ∈ s.calls, stage.remaining = 0 := by
    intro stage hmem
    obtain ⟨i, hi⟩ := List.mem_iff_getElem?.mp hmem
    have hstays := hresume stage hmem
    cases stage with
    | ended answer => rfl
    | reading path => simpa using hread _ hmem
    | starting goal k =>
      obtain ⟨attempt, ha⟩ := hs.starting i goal k hi
      cases attempt with
      | pending => exact absurd ha (hattempts k)
      | succeeded => simp [canResume, ha] at hstays
      | failed fault => simp [canResume, ha] at hstays
    | loading path source language k =>
      obtain ⟨state, hk⟩ := hs.loading i path source language k hi
      have hover := Shelf.weight_eq_zero_iff.mp hloads k _ hk
      cases state <;> simp_all [canResume, LoadState.remaining]
  rw [weight, supply_eq_zero_iff.mpr ⟨hattempts, hloads⟩, Nat.zero_add,
    List.sum_eq_zero_iff_forall_eq_nat]
  simpa using hcalls

/-! ## Settling -/

/-- The steps that are due are taken until nothing is under way. -/
theorem settle_rests {w : Surroundings} (hw : w.located = true) {n : Nat} {s : Session}
    (hs : Sound s) (hn : s.weight ≤ n) :
    Sound (settle w n s) ∧ (settle w n s).weight = 0 := by
  induction n generalizing s with
  | zero => exact ⟨hs, Nat.le_zero.mp hn⟩
  | succ n ih =>
    unfold settle
    cases hnext : s.next? w with
    | none => exact ⟨hs, weight_eq_zero_of_next? hs hnext⟩
    | some step =>
      have hdue := next?_due hnext
      have hless := hdue.weight_lt hs
      exact ih (hs.step (hdue.isLocated hw)) (by omega)

/-- What the steps that are due keep holds when nothing is under way any more. -/
theorem settle_induction {w : Surroundings} {P : Session → Prop}
    (hstep : ∀ (t : Session) (step : Step), P t → Due t w step → P (t.step step)) {n : Nat}
    {s : Session} (h : P s) : P (settle w n s) := by
  induction n generalizing s with
  | zero => exact h
  | succ n ih =>
    unfold settle
    cases hnext : s.next? w with
    | none => exact h
    | some step => exact ih (hstep s step h (next?_due hnext))

theorem issue_weight {w : Surroundings} {s : Session} (h : s.weight = 0) (a : Ask) :
    (s.issue w a).weight ≤ stepsPerCall * (s.issue w a).calls.length + stepsPerCall := by
  have hcall := call_weight s w.located
  cases a with
  | clear =>
    show s.clear.weight ≤ _
    rw [clear_weight]
    omega
  | start =>
    obtain ⟨hweight, hlength⟩ := hcall .start
    simp only [issue, stepsPerCall]
    omega
  | parse path source =>
    obtain ⟨hweight, hlength⟩ := hcall (.parse path source)
    simp only [issue, stepsPerCall]
    omega
  | parseFile path =>
    obtain ⟨hweight, hlength⟩ := hcall (.parseFile path)
    simp only [issue, stepsPerCall]
    omega
  | parseThenClear path source =>
    obtain ⟨hweight, hlength⟩ := hcall (.parse path source)
    simp only [issue, stepsPerCall]
    rw [clear_weight, clear_calls]
    omega
  | startTwice =>
    obtain ⟨hweight, hlength⟩ := hcall .start
    obtain ⟨hweight', hlength'⟩ := call_weight (s.call w.located .start) w.located .start
    simp only [issue, stepsPerCall]
    omega

theorem Sound.issue {w : Surroundings} (hw : w.located = true) {s : Session} (h : Sound s)
    (a : Ask) : Sound (s.issue w a) := by
  have hcall : ∀ {t : Session} (r : Request), Sound t → Sound (t.call w.located r) :=
    fun r ht => @Sound.step _ ht (.call r w.located) hw
  have hclear : ∀ {t : Session}, Sound t → Sound t.clear := fun ht => @Sound.step _ ht .clear rfl
  cases a with
  | clear => exact hclear h
  | start => exact hcall .start h
  | parse path source => exact hcall (.parse path source) h
  | parseFile path =>
    simp only [Session.issue]
    exact hcall (.parseFile path) h
  | parseThenClear path source => exact hclear (hcall (.parse path source) h)
  | startTwice => exact hcall .start (hcall .start h)

/-- A session that is sound and has nothing under way. -/
structure Resting (s : Session) : Prop where
  sound : Sound s
  weight : s.weight = 0

theorem resting_fresh : Resting {} := ⟨sound_fresh, rfl⟩

theorem Resting.await {w : Surroundings} (hw : w.located = true) {s : Session} (h : Resting s)
    (a : Ask) : Resting (s.await w a).1 := by
  obtain ⟨hsound, hweight⟩ := settle_rests hw (h.sound.issue hw a) (issue_weight h.weight a)
  exact ⟨hsound, hweight⟩

/-- If nothing is under way, the engine is ready or an attempt has to be opened. -/
theorem Sound.starting_eq_none {s : Session} (h : Sound s) (hs : s.supply = 0)
    (hr : s.ready = false) : s.starting = none := by
  cases hk : s.starting with
  | none => rfl
  | some k =>
    rcases h.joined k hk with hpending | ⟨-, hready⟩
    · exact absurd hpending ((supply_eq_zero_iff.mp hs).1 k)
    · simp [hr] at hready

/-- If nothing is under way, a grammar that callers find has been loaded. -/
theorem Sound.loaded {s : Session} (h : Sound s) (hs : s.shelf.weight = 0) {language : String}
    {k : Nat} (hk : s.grammars.lookup language = some k) :
    s.loads[k]? = some ⟨language, .loaded⟩ := by
  obtain ⟨before, after, hsplit, -⟩ := List.lookup_eq_some_iff.mp hk
  have hmem : (language, k) ∈ s.shelf.grammars := by simp [shelf, hsplit]
  obtain ⟨state, hstate, hcurrent⟩ := h.named _ hmem
  have hover := Shelf.weight_eq_zero_iff.mp hs k _ hstate
  cases state <;> simp_all [LoadState.remaining, LoadState.isCurrent, shelf]

theorem Resting.ended {s : Session} (h : Resting s) {i : Nat} {stage : Stage}
    (hc : s.calls[i]? = some stage) : ∃ answer, stage = .ended answer := by
  have hweight := h.weight
  simp only [Session.weight, Nat.add_eq_zero_iff, List.sum_eq_zero_iff_forall_eq_nat,
    List.forall_mem_map] at hweight
  have hover := hweight.2 stage (List.mem_of_getElem? hc)
  cases stage <;> simp_all

end Session

end ClassCohesion.Parsing
