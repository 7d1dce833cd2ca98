import Mathlib.Data.List.Induction
import ClassCohesion.Parsing.Awaited
import ClassCohesion.Proofs.SessionMoves

/-!
# What clearing a session leaves behind

Clearing is final if an engine that is held later on was set up by a call that was made after it
(`ClearIsFinal`): the attempt that made the engine was opened by such a call. Clearing forgets the
attempt that calls join, but it does not stop the attempts that are under way, and it does not know
of calls that still read their file. Either of them can bring an engine back.

- `Since.snoc`, `since_clear`: if there is neither, the attempts under way and the engine that is
  held go back to calls made after the clearing. This is what a step keeps, and so does a run.
- `clear_isFinal_iff`: clearing is final in exactly these sessions.
-/

namespace ClassCohesion.Parsing.Session

/-! ## Who set up an engine -/

/-- In a run from a session, a call opened the attempt with this number. -/
def OpenedBy (s : Session) (run : List Step) (i k : Nat) : Prop :=
  ∃ before step after, run = before ++ step :: after ∧ (s.steps before).attempts.length = k ∧
    ∃ located, Opening (s.steps before) step i located

/-- In a run from a session, a call opened the attempt that made the engine which is held. -/
def SetUpBy (s : Session) (run : List Step) (i : Nat) : Prop :=
  ∃ before k after, run = before ++ .startSettles k (.ok ()) :: after ∧
    (s.steps before).attempts[k]? = some .pending ∧
    (s.steps run).engine.map Engine.number = some (s.steps before).engines ∧
    OpenedBy s before i k

/-- An engine is held, or the session says so. -/
def Held (s : Session) : Prop := s.ready = true ∨ s.engine ≠ none

/-- Whatever happens after a session is cleared, an engine that is held was set up by a call that
was made after it. -/
def ClearIsFinal (s : Session) : Prop :=
  ∀ run, Held (s.clear.steps run) → ∃ i, s.calls.length ≤ i ∧ SetUpBy s.clear run i

theorem OpenedBy.snoc {s : Session} {run : List Step} {i k : Nat} (h : OpenedBy s run i k)
    (step : Step) : OpenedBy s (run ++ [step]) i k := by
  obtain ⟨before, opening, after, rfl, hk, hopening⟩ := h
  exact ⟨before, opening, after ++ [step], by simp, hk, hopening⟩

theorem SetUpBy.snoc {s : Session} {run : List Step} {i : Nat} (h : SetUpBy s run i) {step : Step}
    (hengine : ((s.steps run).step step).engine.map Engine.number =
      (s.steps run).engine.map Engine.number) : SetUpBy s (run ++ [step]) i := by
  obtain ⟨before, k, after, rfl, hk, hheld, hopened⟩ := h
  refine ⟨before, k, after ++ [step], by simp, hk, ?_, hopened⟩
  rw [steps_snoc, hengine, hheld]

/-! ## Runs without a trace of earlier calls -/

/-- After a run from a session, the attempts under way and the engine that is held go back to calls
from this number on, and so do the calls that read their file. -/
structure Since (s : Session) (n : Nat) (run : List Step) : Prop where
  pending : ∀ k : Nat, (s.steps run).attempts[k]? = some .pending → ∃ i, n ≤ i ∧ OpenedBy s run i k
  reading : ∀ (i : Nat) (path : String), (s.steps run).calls[i]? = some (.reading path) → n ≤ i
  held : (s.steps run).engine ≠ none → ∃ i, n ≤ i ∧ SetUpBy s run i
  ready : (s.steps run).ready = (s.steps run).engine.isSome
  length : n ≤ (s.steps run).calls.length

theorem Since.snoc {s : Session} {n : Nat} {run : List Step} (h : Since s n run) (step : Step) :
    Since s n (run ++ [step]) := by
  have hturn := step_turn (s.steps run) step
  refine ⟨?_, ?_, ?_, ?_, ?_⟩
  · intro k hk
    rw [steps_snoc] at hk
    rcases hturn.start.pending_cases hk with hold | ⟨hlen, -, i, located, -, hopening, -⟩
    · obtain ⟨i, hi, hopened⟩ := h.pending k hold
      exact ⟨i, hi, hopened.snoc step⟩
    · refine ⟨i, ?_, run, step, [], rfl, hlen, located, hopening⟩
      -- the call that opens the attempt is new, or it is one that read its file
      obtain ⟨-, -, goal, hg⟩ := hopening
      cases hg with
      | start located => exact h.length
      | parse path source located => exact h.length
      | read located source hc => exact h.reading _ _ hc
  · intro i path hi
    rw [steps_snoc] at hi
    rcases hturn.reading_cases hi with hold | rfl
    · exact h.reading i path hold
    · exact h.length
  · intro hheld
    rw [steps_snoc] at hheld
    have hkept : ((s.steps run).step step).engine.map Engine.number =
        (s.steps run).engine.map Engine.number → ∃ i, n ≤ i ∧ SetUpBy s (run ++ [step]) i := by
      intro hsame
      have hold : (s.steps run).engine ≠ none := by
        intro hnone
        rw [hnone] at hsame
        exact hheld (Option.map_eq_none_iff.mp hsame)
      obtain ⟨i, hi, hsetup⟩ := h.held hold
      exact ⟨i, hi, hsetup.snoc hsame⟩
    generalize hs' : (s.steps run).step step = s' at *
    cases hturn.start with
    | kept hne keeps => exact hkept keeps.engine
    | cleared => exact absurd rfl hheld
    | failed message hk => exact hkept rfl
    | opens hg hr hn opens puts => exact hkept (by rw [opens.engine])
    | @succeeded k hk =>
      obtain ⟨i, hi, hopened⟩ := h.pending k hk
      refine ⟨i, hi, run, k, [], rfl, hk, ?_, hopened⟩
      rw [steps_snoc, hs']
      rfl
  · rw [steps_snoc]
    generalize (s.steps run).step step = s' at *
    cases hturn.start with
    | kept hne keeps =>
      rw [keeps.ready, h.ready, ← Option.isSome_map, ← keeps.engine, Option.isSome_map]
    | cleared => rfl
    | succeeded hk => rfl
    | failed message hk => exact h.ready
    | opens hg hr hn opens puts => rw [opens.ready, opens.engine, h.ready]
  · rw [steps_snoc, hturn.length]
    exact Nat.le_trans h.length (Nat.le_add_right _ _)

theorem since_clear {s : Session} (hp : ∀ k : Nat, s.attempts[k]? ≠ some .pending)
    (hr : ∀ (i : Nat) (path : String), s.calls[i]? ≠ some (.reading path)) (run : List Step) :
    Since s.clear s.calls.length run := by
  induction run using List.reverseRecOn with
  | append_singleton run step ih => exact ih.snoc step
  | nil =>
    refine ⟨?_, ?_, ?_, rfl, ?_⟩
    · intro k hk
      exact absurd (clear_attempts s ▸ hk) (hp k)
    · intro i path hi
      exact absurd (clear_calls s ▸ hi) (hr i path)
    · intro hheld
      exact absurd rfl hheld
    · exact Nat.le_of_eq (by rw [← clear_calls s]; rfl)

/-! ## Engines that come back -/

/-- An attempt that is under way when a session is cleared can still succeed. -/
theorem not_final_of_pending {s : Session} {k : Nat} (hk : s.attempts[k]? = some .pending) :
    ¬ ClearIsFinal s := by
  intro hfinal
  have hready : (s.clear.steps [.startSettles k (.ok ())]).ready = true := by
    simp [steps, step, startSettles, hk, note]
  obtain ⟨i, -, before, j, after, hsplit, -, -, opened, opening, rest, rfl, -⟩ :=
    hfinal [.startSettles k (.ok ())] (.inl hready)
  -- nothing comes before the end of the attempt
  have hlength := congrArg List.length hsplit
  simp only [List.length_append, List.length_cons, List.length_nil] at hlength
  omega

/-- A call that reads its file when a session is cleared opens an attempt afterwards. -/
theorem not_final_of_reading {s : Session} {i : Nat} {path : String}
    (hi : s.calls[i]? = some (.reading path)) : ¬ ClearIsFinal s := by
  intro hfinal
  have hread : Opening s.clear (.readSettles i true (.ok "")) i true :=
    ⟨rfl, rfl, _, .read true "" (by rw [clear_calls, hi])⟩
  have hpending : (s.clear.steps [.readSettles i true (.ok "")]).attempts[s.attempts.length]? =
      some .pending := by
    have hopens := hread.opens.attempts
    rw [clear_attempts] at hopens
    show (s.clear.step (.readSettles i true (.ok ""))).attempts[s.attempts.length]? = _
    rw [hopens]
    exact List.getElem?_concat_length
  have hready : (s.clear.steps [.readSettles i true (.ok ""),
      .startSettles s.attempts.length (.ok ())]).ready = true := by
    show ((s.clear.steps [.readSettles i true (.ok "")]).startSettles _ (.ok ())).ready = true
    simp only [startSettles, hpending]
    rfl
  obtain ⟨j, hj, before, k, after, hsplit, -, -, hopened⟩ := hfinal _ (.inl hready)
  obtain ⟨opened, opening, rest, rfl, -, located, hopening⟩ := hopened
  -- the attempt can only have been opened when the file was read
  have hlength := congrArg List.length hsplit
  simp only [List.length_append, List.length_cons, List.length_nil] at hlength
  obtain rfl : opened = [] := List.eq_nil_of_length_eq_zero (by omega)
  obtain ⟨rfl, -⟩ := List.cons.inj hsplit
  obtain ⟨-, -, goal, hg⟩ := hopening
  cases hg
  exact absurd (List.getElem?_eq_some_iff.mp hi).1 (Nat.not_lt.mpr hj)

/-- **Clearing is final** if and only if no attempt is under way and no call reads its file. -/
theorem clear_isFinal_iff (s : Session) :
    ClearIsFinal s ↔ (∀ k : Nat, s.attempts[k]? ≠ some .pending) ∧
      ∀ (i : Nat) (path : String), s.calls[i]? ≠ some (.reading path) := by
  constructor
  · intro hfinal
    exact ⟨fun k hk => not_final_of_pending hk hfinal,
      fun i path hi => not_final_of_reading hi hfinal⟩
  · rintro ⟨hpending, hreading⟩ run hheld
    have hsince := since_clear hpending hreading run
    apply hsince.held
    rcases hheld with hready | hengine
    · rw [hsince.ready] at hready
      exact Option.isSome_iff_ne_none.mp hready
    · exact hengine

namespace Sample

/-- A call to parse that waits for the engine to be started. -/
def waitingForEngine : List Step := [.call (.parse "A.java" "class A {}") true]

/-- A call to parse that waits for a grammar. -/
def waitingForGrammar : List Step :=
  [.call .start true, .startSettles 0 (.ok ()), .resume 0 (.ok ()) (.ok true),
   .call (.parse "A.java" "class A {}") true]

end Sample

/-- Clearing is final while a call waits for a grammar. -/
theorem clear_isFinal_waiting_for_grammar :
    (({} : Session).steps Sample.waitingForGrammar).ready = true ∧
      ClearIsFinal (({} : Session).steps Sample.waitingForGrammar) := by
  have hattempts : (({} : Session).steps Sample.waitingForGrammar).attempts = [.succeeded] := by
    decide
  have hcalls : (({} : Session).steps Sample.waitingForGrammar).calls =
      [.ended .nothing, .loading "A.java" "class A {}" "java" 0] := by
    decide
  refine ⟨by decide, (clear_isFinal_iff _).mpr ⟨fun k hk => ?_, fun i path hi => ?_⟩⟩
  · have hmem := List.mem_of_getElem? hk
    simp [hattempts] at hmem
  · have hmem := List.mem_of_getElem? hi
    simp [hcalls] at hmem

/-- A session is cleared while a call waits for the engine to be started. The attempt goes on: when
it succeeds the engine is back, and the call parses with it. -/
theorem cleared_engine_comes_back :
    ¬ ClearIsFinal (({} : Session).steps Sample.waitingForEngine) ∧
      (await {} {} (.parseThenClear "A.java" "class A {}")).2 =
        .parsed ⟨⟨"java", "class A {}"⟩, "java", "class A {}"⟩ ∧
      (await {} {} (.parseThenClear "A.java" "class A {}")).1.ready = true := by
  refine ⟨?_, by decide, by decide⟩
  exact not_final_of_pending (k := 0) (by decide)

end ClassCohesion.Parsing.Session
