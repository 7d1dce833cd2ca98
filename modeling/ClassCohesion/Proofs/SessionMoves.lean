import Mathlib.Data.List.Basic
import ClassCohesion.Parsing.Session

/-!
# What a step does to a session

A step changes the stage of one call at most (`Puts`), and loads keep their languages
(`KeepsLoads`). Most steps leave the engine and the attempts to start it as they are
(`KeepsEngine`). The others open an attempt (`Opens`), bring one to its end, clear the session or
use the engine (`Uses`). `Turn` says which step can do which of these, and in what state of the
session; `step_turn` that this is all a step can do.

A call goes on in three ways, and each of them is shared by several steps: it goes for its goal
(`Goes`), it looks for a grammar once there is an engine (`Seeks`), and it ends (`Ends`).
-/

namespace ClassCohesion.Parsing.Session

/-! ## Parts that a step leaves alone -/

/-- All that has to do with engines is the same. -/
structure KeepsEngine (s s' : Session) : Prop where
  engine : s'.engine = s.engine
  engines : s'.engines = s.engines
  ready : s'.ready = s.ready
  starting : s'.starting = s.starting
  attempts : s'.attempts = s.attempts
  journal : s'.journal = s.journal

theorem KeepsEngine.refl (s : Session) : KeepsEngine s s := ⟨rfl, rfl, rfl, rfl, rfl, rfl⟩

theorem KeepsEngine.trans {s t u : Session} (h : KeepsEngine s t) (h' : KeepsEngine t u) :
    KeepsEngine s u where
  engine := h'.engine.trans h.engine
  engines := h'.engines.trans h.engines
  ready := h'.ready.trans h.ready
  starting := h'.starting.trans h.starting
  attempts := h'.attempts.trans h.attempts
  journal := h'.journal.trans h.journal

/-- Which calls there are is nothing to the engine. -/
theorem KeepsEngine.put {s s' : Session} (h : KeepsEngine s s') (calls : List Stage) :
    KeepsEngine s { s' with calls } :=
  h.trans ⟨rfl, rfl, rfl, rfl, rfl, rfl⟩

/-- The calls are the same but for one, which may be new. -/
structure Puts (calls : List Stage) (i : Nat) (stage : Stage) (calls' : List Stage) : Prop where
  le : i ≤ calls.length
  get : ∀ j, calls'[j]? = if j = i then some stage else calls[j]?

theorem puts_append (calls : List Stage) (stage : Stage) :
    Puts calls calls.length stage (calls ++ [stage]) := by
  refine ⟨Nat.le_refl _, fun j => ?_⟩
  split
  · rename_i hj
    simp [hj]
  · rename_i hj
    rcases Nat.lt_or_gt_of_ne hj with hlt | hgt
    · exact List.getElem?_append_left hlt
    · rw [List.getElem?_eq_none (by simp; omega), List.getElem?_eq_none (by omega)]

theorem puts_set {calls : List Stage} {i : Nat} {old : Stage} (h : calls[i]? = some old)
    (stage : Stage) : Puts calls i stage (calls.set i stage) := by
  obtain ⟨hi, -⟩ := List.getElem?_eq_some_iff.mp h
  refine ⟨Nat.le_of_lt hi, fun j => ?_⟩
  rw [List.getElem?_set]
  by_cases hj : j = i
  · simp [hj, hi]
  · rw [if_neg (Ne.symm hj), if_neg hj]

namespace Puts

variable {calls calls' : List Stage} {i : Nat} {stage : Stage}

theorem self (h : Puts calls i stage calls') : calls'[i]? = some stage := by
  rw [h.get, if_pos rfl]

theorem other (h : Puts calls i stage calls') {j : Nat} (hj : j ≠ i) : calls'[j]? = calls[j]? := by
  rw [h.get, if_neg hj]

theorem cases (h : Puts calls i stage calls') {j : Nat} {new : Stage} (hn : calls'[j]? = some new) :
    (j = i ∧ new = stage) ∨ (j ≠ i ∧ calls[j]? = some new) := by
  rw [h.get] at hn
  split at hn
  · rename_i hj
    exact .inl ⟨hj, (Option.some.inj hn).symm⟩
  · rename_i hj
    exact .inr ⟨hj, hn⟩

theorem length (h : Puts calls i stage calls') : calls'.length = max calls.length (i + 1) := by
  have hnone : ∀ j, calls'.length ≤ j ↔ j ≠ i ∧ calls.length ≤ j := by
    intro j
    rw [← List.getElem?_eq_none_iff, h.get]
    split
    · rename_i hj
      simp [hj]
    · rename_i hj
      simp [hj]
  have hle := h.le
  have hself := hnone calls'.length
  have hmax := hnone (max calls.length (i + 1))
  omega

end Puts

/-! ## Loads -/

/-- There is a load with this number, and it is for this language. -/
def HasLoad (s : Session) (k : Nat) (language : String) : Prop :=
  ∃ state, s.loads[k]? = some ⟨language, state⟩

/-- Whoever needs a grammar joins a load for it. -/
def Registered (s : Session) : Prop := ∀ g ∈ s.grammars, s.HasLoad g.2 g.1

theorem Registered.of_lookup {s : Session} (h : Registered s) {language : String} {k : Nat}
    (hk : s.grammars.lookup language = some k) : s.HasLoad k language := by
  obtain ⟨before, after, hsplit, -⟩ := List.lookup_eq_some_iff.mp hk
  exact h (language, k) (by simp [hsplit])

theorem joinLoad_keepsEngine (s : Session) (language : String) :
    KeepsEngine s (s.joinLoad language).1 := by
  unfold joinLoad
  split <;> exact ⟨rfl, rfl, rfl, rfl, rfl, rfl⟩

theorem joinLoad_calls (s : Session) (language : String) :
    (s.joinLoad language).1.calls = s.calls := by
  unfold joinLoad
  split <;> rfl

theorem joinLoad_hasLoad {s : Session} (h : Registered s) (language : String) :
    (s.joinLoad language).1.HasLoad (s.joinLoad language).2 language := by
  unfold joinLoad
  split
  · rename_i k hk
    exact h.of_lookup hk
  · exact ⟨.queued, by simp⟩

/-- Loads are still there, and whoever needs a grammar still joins a load for it. -/
structure KeepsLoads (s s' : Session) : Prop where
  hasLoad : ∀ {k : Nat} {language : String}, s.HasLoad k language → s'.HasLoad k language
  registered : Registered s → Registered s'

namespace KeepsLoads

theorem of_eq {s s' : Session} (hl : s'.loads = s.loads) (hg : s'.grammars ⊆ s.grammars) :
    KeepsLoads s s' := by
  have hload : ∀ {k : Nat} {language : String}, s.HasLoad k language → s'.HasLoad k language := by
    rintro k language ⟨state, hk⟩
    exact ⟨state, by rw [hl, hk]⟩
  exact ⟨hload, fun hs g hg' => hload (hs g (hg hg'))⟩

theorem refl (s : Session) : KeepsLoads s s := of_eq rfl (List.Subset.refl _)

theorem trans {s t u : Session} (h : KeepsLoads s t) (h' : KeepsLoads t u) : KeepsLoads s u :=
  ⟨fun hk => h'.hasLoad (h.hasLoad hk), fun hs => h'.registered (h.registered hs)⟩

/-- Which calls there are is nothing to the loads. -/
theorem put {s s' : Session} (h : KeepsLoads s s') (calls : List Stage) :
    KeepsLoads s { s' with calls } :=
  h.trans (.of_eq rfl (List.Subset.refl _))

end KeepsLoads

theorem joinLoad_keepsLoads (s : Session) (language : String) :
    KeepsLoads s (s.joinLoad language).1 := by
  unfold joinLoad
  split
  · exact .refl s
  · have hload : ∀ {k : Nat} {other : String}, s.HasLoad k other →
        ∃ state, (s.loads ++ [(⟨language, .queued⟩ : Load)])[k]? = some ⟨other, state⟩ := by
      rintro k other ⟨state, hk⟩
      obtain ⟨hlt, -⟩ := List.getElem?_eq_some_iff.mp hk
      exact ⟨state, by rw [List.getElem?_append_left hlt, hk]⟩
    refine ⟨hload, fun hs g hg => ?_⟩
    rcases List.mem_append.mp hg with hold | hnew
    · exact hload (hs g hold)
    · obtain rfl := List.mem_singleton.mp hnew
      exact ⟨.queued, by simp⟩

/-! ## Clearing -/

section Clearing

variable (s : Session)

@[simp]
theorem clear_engine : s.clear.engine = none := rfl

@[simp]
theorem clear_ready : s.clear.ready = false := rfl

@[simp]
theorem clear_starting : s.clear.starting = none := rfl

@[simp]
theorem clear_engines : s.clear.engines = s.engines := by
  unfold clear
  split <;> rfl

@[simp]
theorem clear_attempts : s.clear.attempts = s.attempts := by
  unfold clear
  split <;> rfl

@[simp]
theorem clear_calls : s.clear.calls = s.calls := by
  unfold clear
  split <;> rfl

end Clearing

/-! ## How a call goes on -/

/-- A call goes for its goal: a new one, or one for which the text of its file has arrived. -/
inductive Goes (s : Session) : Step → Nat → Bool → Goal → Prop where
  | start (located : Bool) : Goes s (.call .start located) s.calls.length located .start
  | parse (path source : String) (located : Bool) :
      Goes s (.call (.parse path source) located) s.calls.length located (.parse path source)
  | read {i : Nat} {path : String} (located : Bool) (source : String)
      (hc : s.calls[i]? = some (.reading path)) :
      Goes s (.readSettles i located (.ok source)) i located (.parse path source)

/-- A call looks for a grammar: the engine is there, or the attempt that it waits for succeeded. -/
inductive Seeks (s : Session) : Step → Nat → String → String → Prop where
  | ready {step : Step} {i : Nat} {located : Bool} {path source : String}
      (hg : Goes s step i located (.parse path source)) (hr : s.ready = true) :
      Seeks s step i path source
  | resumed {i k : Nat} {path source : String} {setting : Except String Unit}
      {answer : Except String Bool} (hc : s.calls[i]? = some (.starting (.parse path source) k))
      (ha : s.attempts[k]? = some .succeeded) : Seeks s (.resume i setting answer) i path source

/-- A call ends, and the engine is not used. -/
inductive Ends (s : Session) : Step → Nat → Answer → Prop where
  | ready {step : Step} {i : Nat} {located : Bool} (hg : Goes s step i located .start)
      (hr : s.ready = true) : Ends s step i .nothing
  | started {i k : Nat} {setting : Except String Unit} {answer : Except String Bool}
      (hc : s.calls[i]? = some (.starting .start k)) (ha : s.attempts[k]? = some .succeeded) :
      Ends s (.resume i setting answer) i .nothing
  | unsupported {path : String} {located : Bool} (hl : Language.ofPath? path = none) :
      Ends s (.call (.parseFile path) located) s.calls.length .nothing
  | unknown {step : Step} {i : Nat} {path source : String} (hs : Seeks s step i path source)
      (hl : Language.ofPath? path = none) : Ends s step i .nothing
  | unread {i : Nat} {located : Bool} {path : String} {failure : ReadFailure}
      (hc : s.calls[i]? = some (.reading path)) :
      Ends s (.readSettles i located (.error failure)) i (.failed (failure.fault path))
  | unstarted {i k : Nat} {goal : Goal} {fault : Fault} {setting : Except String Unit}
      {answer : Except String Bool} (hc : s.calls[i]? = some (.starting goal k))
      (ha : s.attempts[k]? = some (.failed fault)) :
      Ends s (.resume i setting answer) i (.failed fault)
  | unloaded {i k : Nat} {path source language grammar reason : String}
      {setting : Except String Unit} {answer : Except String Bool}
      (hc : s.calls[i]? = some (.loading path source language k))
      (hk : s.loads[k]? = some ⟨grammar, .failed reason⟩) :
      Ends s (.resume i setting answer) i (.failed (.parseFailed path
        ("grammar for " ++ language ++ " unavailable: " ++ reason) (some ⟨"Error", reason⟩)))
  | released {i k : Nat} {path source language grammar : String} {setting : Except String Unit}
      {answer : Except String Bool} (hc : s.calls[i]? = some (.loading path source language k))
      (hk : s.loads[k]? = some ⟨grammar, .loaded⟩) (he : s.engine = none) :
      Ends s (.resume i setting answer) i
        (.failed (.parseFailed path "parser was released during parsing" none))

/-- An attempt is opened. It fails at once if the files of the engine cannot be located. -/
structure Opens (s : Session) (located : Bool) (s' : Session) : Prop where
  engine : s'.engine = s.engine
  engines : s'.engines = s.engines
  ready : s'.ready = s.ready
  starting : s'.starting = some s.attempts.length
  attempts : s'.attempts = s.attempts ++ [if located then .pending
    else .failed (startFault "Could not find web-tree-sitter WASM file")]
  journal : s'.journal = s.journal

/-- The engine is used: a grammar is set on it and, unless it refuses the grammar, a text is parsed.
Only the second can give a file. -/
structure Uses (s : Session) (e : Engine) (grammar source language : String) (answer : Answer)
    (s' : Session) : Prop where
  engine : ∃ g, s'.engine = some { e with grammar := g }
  engines : s'.engines = s.engines
  ready : s'.ready = s.ready
  starting : s'.starting = s.starting
  attempts : s'.attempts = s.attempts
  journal : s'.journal = s.journal ++ [.grammarSet e.number grammar] ∧
      (∃ fault, answer = .failed fault) ∨
    s'.journal = s.journal ++ [.grammarSet e.number grammar, .parsed e.number source] ∧
      ∀ file, answer = .parsed file → file = ⟨⟨grammar, source⟩, language, source⟩

/-! ## Steps -/

/-- Whether something is asked of the session in a step. The other steps bring answers. -/
def Step.isRequest : Step → Bool
  | .call _ _ => true
  | .clear => true
  | _ => false

/-- What is asked of the parser in a step. -/
def Step.request? : Step → Option Request
  | .call r _ => some r
  | _ => none

theorem Step.request?_eq_none {step : Step} (h : step.isRequest = false) :
    step.request? = none := by
  cases step <;> simp_all [isRequest, request?]

/-- What a step can do. -/
inductive Turn (s : Session) : Step → Session → Prop where
  | quiet {step : Step} {s' : Session} (hs : step.isRequest = false)
      (keeps : KeepsEngine s s') (calls : s'.calls = s.calls) : Turn s step s'
  | cleared : Turn s .clear s.clear
  | succeeded {k : Nat} (hk : s.attempts[k]? = some .pending) :
      Turn s (.startSettles k (.ok ()))
        { s with
          attempts := s.attempts.set k .succeeded
          engine := some { number := s.engines }
          engines := s.engines + 1
          ready := true
          journal := s.journal ++ [.made s.engines] }
  | failed {k : Nat} (message : String) (hk : s.attempts[k]? = some .pending) :
      Turn s (.startSettles k (.error message))
        { s with attempts := s.attempts.set k (.failed (startFault message)), starting := none }
  | reads {path language : String} {located : Bool} {s' : Session}
      (hl : Language.ofPath? path = some language) (keeps : KeepsEngine s s')
      (puts : Puts s.calls s.calls.length (.reading path) s'.calls) :
      Turn s (.call (.parseFile path) located) s'
  | joins {step : Step} {i k : Nat} {located : Bool} {goal : Goal} {s' : Session}
      (hg : Goes s step i located goal) (hr : s.ready = false) (hk : s.starting = some k)
      (keeps : KeepsEngine s s') (puts : Puts s.calls i (.starting goal k) s'.calls) :
      Turn s step s'
  | opens {step : Step} {i : Nat} {located : Bool} {goal : Goal} {s' : Session}
      (hg : Goes s step i located goal) (hr : s.ready = false) (hn : s.starting = none)
      (opens : Opens s located s')
      (puts : Puts s.calls i (.starting goal s.attempts.length) s'.calls) : Turn s step s'
  | seeks {step : Step} {i k : Nat} {path source language : String} {s' : Session}
      (hs : Seeks s step i path source) (hl : Language.ofPath? path = some language)
      (hk : Registered s → s'.HasLoad k language) (keeps : KeepsEngine s s')
      (puts : Puts s.calls i (.loading path source language k) s'.calls) : Turn s step s'
  | ends {step : Step} {i : Nat} {answer : Answer} {s' : Session} (he : Ends s step i answer)
      (keeps : KeepsEngine s s') (puts : Puts s.calls i (.ended answer) s'.calls) : Turn s step s'
  | uses {i k : Nat} {path source language grammar : String} {setting : Except String Unit}
      {reply : Except String Bool} {e : Engine} {answer : Answer} {s' : Session}
      (hc : s.calls[i]? = some (.loading path source language k))
      (hk : s.loads[k]? = some ⟨grammar, .loaded⟩) (he : s.engine = some e)
      (uses : Uses s e grammar source language answer s')
      (puts : Puts s.calls i (.ended answer) s'.calls) : Turn s (.resume i setting reply) s'

section Parts

variable (s : Session) {path source language : String} {located : Bool}

theorem seekGrammar_none (hl : Language.ofPath? path = none) :
    s.seekGrammar path source = (s, .ended .nothing) := by
  unfold seekGrammar
  rw [hl]

theorem seekGrammar_some (hl : Language.ofPath? path = some language) :
    s.seekGrammar path source =
      ((s.joinLoad language).1, .loading path source language (s.joinLoad language).2) := by
  unfold seekGrammar
  rw [hl]

theorem seekGrammar_calls : (s.seekGrammar path source).1.calls = s.calls := by
  cases hl : Language.ofPath? path with
  | none => rw [seekGrammar_none s hl]
  | some language =>
    rw [seekGrammar_some s hl]
    exact joinLoad_calls s language

theorem pursue_start (hr : s.ready = true) : s.pursue located .start = (s, .ended .nothing) := by
  simp only [pursue, hr, if_true]

theorem pursue_parse (hr : s.ready = true) :
    s.pursue located (.parse path source) = s.seekGrammar path source := by
  simp only [pursue, hr, if_true]

theorem pursue_joins {goal : Goal} {k : Nat} (hr : s.ready = false) (hk : s.starting = some k) :
    s.pursue located goal = (s, .starting goal k) := by
  simp [pursue, hr, joinAttempt, hk]

theorem pursue_opens {goal : Goal} (hr : s.ready = false) (hn : s.starting = none) :
    s.pursue located goal =
      ({ s with
          attempts := s.attempts ++ [if located then .pending
            else .failed (startFault "Could not find web-tree-sitter WASM file")]
          starting := some s.attempts.length }, .starting goal s.attempts.length) := by
  simp [pursue, hr, joinAttempt, hn]

theorem pursue_calls (goal : Goal) : (s.pursue located goal).1.calls = s.calls := by
  cases hr : s.ready with
  | true =>
    cases goal with
    | start => rw [pursue_start s hr]
    | parse path source =>
      rw [pursue_parse s hr]
      exact seekGrammar_calls s
  | false =>
    cases hk : s.starting with
    | some k => rw [pursue_joins s hr hk]
    | none => rw [pursue_opens s hr hk]

end Parts

section Goals

variable {s : Session} {step : Step} {i : Nat} {calls : List Stage}

theorem turn_of_seek {path source : String} (hs : Seeks s step i path source)
    (puts : Puts s.calls i (s.seekGrammar path source).2 calls) :
    Turn s step { (s.seekGrammar path source).1 with calls } := by
  cases hl : Language.ofPath? path with
  | none =>
    rw [seekGrammar_none s hl] at puts ⊢
    exact .ends (.unknown hs hl) ((KeepsEngine.refl s).put _) puts
  | some language =>
    rw [seekGrammar_some s hl] at puts ⊢
    exact .seeks hs hl (fun h => joinLoad_hasLoad h language)
      ((joinLoad_keepsEngine s language).put calls) puts

theorem turn_of_pursue {located : Bool} {goal : Goal} (hg : Goes s step i located goal)
    (puts : Puts s.calls i (s.pursue located goal).2 calls) :
    Turn s step { (s.pursue located goal).1 with calls } := by
  cases hr : s.ready with
  | true =>
    cases goal with
    | start =>
      rw [pursue_start s hr] at puts ⊢
      exact .ends (.ready hg hr) ((KeepsEngine.refl s).put _) puts
    | parse path source =>
      rw [pursue_parse s hr] at puts ⊢
      exact turn_of_seek (.ready hg hr) puts
  | false =>
    cases hk : s.starting with
    | some k =>
      rw [pursue_joins s hr hk] at puts ⊢
      exact .joins hg hr hk ((KeepsEngine.refl s).put _) puts
    | none =>
      rw [pursue_opens s hr hk] at puts ⊢
      exact .opens hg hr hk ⟨rfl, rfl, rfl, rfl, rfl, rfl⟩ puts

end Goals

theorem turn_of_new {s : Session} {step : Step} {located : Bool} {goal : Goal}
    (hg : Goes s step s.calls.length located goal) :
    Turn s step { (s.pursue located goal).1 with
      calls := (s.pursue located goal).1.calls ++ [(s.pursue located goal).2] } := by
  apply turn_of_pursue hg
  rw [pursue_calls]
  exact puts_append _ _

theorem turn_of_call (s : Session) (r : Request) (located : Bool) :
    Turn s (.call r located) (s.call located r) := by
  cases r with
  | start => exact turn_of_new (.start located)
  | parse path source => exact turn_of_new (.parse path source located)
  | parseFile path =>
    -- stated by itself, so that the table of languages stays closed
    have hopen : s.open? located (.parseFile path) =
        if Language.isSupported path then (s, .reading path) else (s, .ended .nothing) := rfl
    unfold call
    rw [hopen, Language.isSupported]
    cases hl : Language.ofPath? path with
    | none => exact .ends (.unsupported hl) ((KeepsEngine.refl s).put _) (puts_append _ _)
    | some language => exact .reads hl ((KeepsEngine.refl s).put _) (puts_append _ _)

/-! ### Steps that concern loads only -/

/-- Neither engines nor calls are concerned, and loads keep their languages. -/
structure Aside (s s' : Session) : Prop where
  keeps : KeepsEngine s s'
  calls : s'.calls = s.calls
  loads : KeepsLoads s s'

theorem Aside.refl (s : Session) : Aside s s := ⟨.refl s, rfl, .refl s⟩

theorem Aside.trans {s t u : Session} (h : Aside s t) (h' : Aside t u) : Aside s u :=
  ⟨h.keeps.trans h'.keeps, h'.calls.trans h.calls, h.loads.trans h'.loads⟩

theorem setLoad_keepsLoads (s : Session) (k : Nat) (state : LoadState) :
    KeepsLoads s (s.setLoad k state) := by
  unfold setLoad
  split
  · rename_i load hload
    have hset : ∀ {j : Nat} {language : String}, s.HasLoad j language →
        ∃ state', (s.loads.set k { load with state })[j]? = some ⟨language, state'⟩ := by
      rintro j language ⟨old, hj⟩
      by_cases heq : k = j
      · subst heq
        obtain rfl := Option.some.inj (hload.symm.trans hj)
        obtain ⟨hlt, -⟩ := List.getElem?_eq_some_iff.mp hj
        exact ⟨state, List.getElem?_set_self hlt⟩
      · exact ⟨old, by rw [List.getElem?_set_ne heq, hj]⟩
    exact ⟨hset, fun hs g hg => hset (hs g hg)⟩
  · exact .refl s

theorem setLoad_aside (s : Session) (k : Nat) (state : LoadState) :
    Aside s (s.setLoad k state) := by
  have hloads := setLoad_keepsLoads s k state
  unfold setLoad at hloads ⊢
  split at hloads <;> exact ⟨⟨rfl, rfl, rfl, rfl, rfl, rfl⟩, rfl, hloads⟩

theorem lock_aside (s : Session) (lock : Lock Nat) : Aside s { s with lock } :=
  ⟨⟨rfl, rfl, rfl, rfl, rfl, rfl⟩, rfl, .of_eq rfl (List.Subset.refl _)⟩

theorem endLoad_aside (s : Session) (k : Nat) (outcome : Lock.Outcome) :
    Aside s (s.endLoad k outcome) :=
  (lock_aside s _).trans (setLoad_aside _ k .ending)

theorem beginLoad_aside (s : Session) (k : Nat) (located : Bool) :
    Aside s (s.beginLoad k located) := by
  unfold beginLoad
  split
  · have hknown : Aside s { s with directoryKnown := true } :=
      ⟨⟨rfl, rfl, rfl, rfl, rfl, rfl⟩, rfl, .of_eq rfl (List.Subset.refl _)⟩
    exact hknown.trans (setLoad_aside _ k .reading)
  · exact endLoad_aside s k _

theorem reportLoad_aside (s : Session) (k : Nat) (outcome : Lock.Outcome) :
    Aside s (s.reportLoad k outcome) := by
  cases outcome with
  | value v => exact setLoad_aside s k .loaded
  | failure reason =>
    have hforget (p : String × Nat → Bool) :
        Aside s { s with grammars := s.grammars.filter p } :=
      ⟨⟨rfl, rfl, rfl, rfl, rfl, rfl⟩, rfl, .of_eq rfl (List.filter_subset_self _)⟩
    exact (hforget _).trans (setLoad_aside _ k _)

theorem lockProceeds_aside (s : Session) (i : Nat) (located : Bool) :
    Aside s (s.lockProceeds i located) := by
  unfold lockProceeds
  split
  · exact .refl s
  · have hlock := lock_aside s (s.lock.followAt i).1
    split
    · exact hlock.trans (beginLoad_aside _ _ located)
    · exact hlock
    · exact hlock.trans (reportLoad_aside _ _ _)

theorem grammarSettles_aside (s : Session) (k : Nat) (outcome : Except String Unit) :
    Aside s (s.grammarSettles k outcome) := by
  unfold grammarSettles
  split
  · exact endLoad_aside s k _
  · exact endLoad_aside s k _
  · exact .refl s

/-! ### Calls that go on -/

theorem useEngine_none {s : Session} (he : s.engine = none) (path source language grammar : String)
    (setting : Except String Unit) (reply : Except String Bool) :
    s.useEngine path source language grammar setting reply =
      (s, .failed (.parseFailed path "parser was released during parsing" none)) := by
  simp only [useEngine, he]

theorem useEngine_uses {s : Session} {e : Engine} (he : s.engine = some e)
    (path source language grammar : String) (setting : Except String Unit)
    (reply : Except String Bool) :
    Uses s e grammar source language (s.useEngine path source language grammar setting reply).2
        (s.useEngine path source language grammar setting reply).1 ∧
      (s.useEngine path source language grammar setting reply).1.calls = s.calls := by
  cases setting with
  | error message =>
    simp only [useEngine, he]
    exact ⟨⟨⟨e.grammar, he⟩, rfl, rfl, rfl, rfl, .inl ⟨rfl, _, rfl⟩⟩, rfl⟩
  | ok =>
    have hjournal : s.journal ++ [EngineEvent.grammarSet e.number grammar] ++
        [.parsed e.number source] =
          s.journal ++ [.grammarSet e.number grammar, .parsed e.number source] :=
      List.append_assoc _ _ _
    simp only [useEngine, he]
    rcases reply with message | gives
    · exact ⟨⟨⟨_, rfl⟩, rfl, rfl, rfl, rfl, .inr ⟨hjournal, by rintro file ⟨⟩⟩⟩, rfl⟩
    · cases gives with
      | false => exact ⟨⟨⟨_, rfl⟩, rfl, rfl, rfl, rfl, .inr ⟨hjournal, by rintro file ⟨⟩⟩⟩, rfl⟩
      | true => exact ⟨⟨⟨_, rfl⟩, rfl, rfl, rfl, rfl, .inr ⟨hjournal, by rintro file ⟨⟩; rfl⟩⟩, rfl⟩

theorem turn_of_resume (s : Session) (i : Nat) (setting : Except String Unit)
    (reply : Except String Bool) :
    Turn s (.resume i setting reply) (s.resume i setting reply) := by
  have hquiet : Turn s (.resume i setting reply) s := .quiet rfl (.refl s) rfl
  unfold resume
  cases hc : s.calls[i]? with
  | none => exact hquiet
  | some stage =>
    cases stage with
    | reading path => exact hquiet
    | ended answer => exact hquiet
    | starting goal k =>
      cases ha : s.attempts[k]? with
      | none => simpa only [ha] using hquiet
      | some attempt =>
        cases attempt with
        | pending => simpa only [ha] using hquiet
        | failed fault =>
          simp only [ha]
          exact .ends (.unstarted hc ha) ((KeepsEngine.refl s).put _) (puts_set hc _)
        | succeeded =>
          simp only [ha]
          cases goal with
          | start => exact .ends (.started hc ha) ((KeepsEngine.refl s).put _) (puts_set hc _)
          | parse path source =>
            apply turn_of_seek (.resumed hc ha)
            rw [seekGrammar_calls]
            exact puts_set hc _
    | loading path source language k =>
      cases hk : s.loads[k]? with
      | none => simpa only [hk] using hquiet
      | some load =>
        obtain ⟨grammar, state⟩ := load
        cases state with
        | queued => simpa only [hk] using hquiet
        | reading => simpa only [hk] using hquiet
        | ending => simpa only [hk] using hquiet
        | failed reason =>
          simp only [hk]
          exact .ends (.unloaded hc hk) ((KeepsEngine.refl s).put _) (puts_set hc _)
        | loaded =>
          simp only [hk]
          cases he : s.engine with
          | none =>
            rw [useEngine_none he]
            exact .ends (.released hc hk he) ((KeepsEngine.refl s).put _) (puts_set hc _)
          | some e =>
            obtain ⟨huses, hcalls⟩ := useEngine_uses he path source language grammar setting reply
            refine .uses hc hk he ⟨huses.engine, huses.engines, huses.ready, huses.starting,
              huses.attempts, huses.journal⟩ ?_
            show Puts s.calls i _ (List.set _ i _)
            rw [hcalls]
            exact puts_set hc _

theorem turn_of_startSettles (s : Session) (k : Nat) (outcome : Except String Unit) :
    Turn s (.startSettles k outcome) (s.startSettles k outcome) := by
  have hquiet : Turn s (.startSettles k outcome) s := .quiet rfl (.refl s) rfl
  unfold startSettles
  cases hk : s.attempts[k]? with
  | none => exact hquiet
  | some attempt =>
    cases attempt with
    | succeeded => exact hquiet
    | failed fault => exact hquiet
    | pending =>
      cases outcome with
      | error message => exact .failed message hk
      | ok => exact .succeeded hk

theorem turn_of_readSettles (s : Session) (i : Nat) (located : Bool)
    (outcome : Except ReadFailure String) :
    Turn s (.readSettles i located outcome) (s.readSettles i located outcome) := by
  have hquiet : Turn s (.readSettles i located outcome) s := .quiet rfl (.refl s) rfl
  unfold readSettles
  cases hc : s.calls[i]? with
  | none => exact hquiet
  | some stage =>
    cases stage with
    | starting goal k => exact hquiet
    | loading path source language k => exact hquiet
    | ended answer => exact hquiet
    | reading path =>
      cases outcome with
      | error failure =>
        exact .ends (.unread hc) ((KeepsEngine.refl s).put _) (puts_set hc _)
      | ok source =>
        have hturn : Turn s (.readSettles i located (.ok source))
            { (s.pursue located (.parse path source)).1 with
              calls := (s.pursue located (.parse path source)).1.calls.set i
                (s.pursue located (.parse path source)).2 } := by
          apply turn_of_pursue (.read located source hc)
          rw [pursue_calls]
          exact puts_set hc _
        exact hturn

/-- This is all that a step can do. -/
theorem step_turn (s : Session) (step : Step) : Turn s step (s.step step) := by
  cases step with
  | call r located => exact turn_of_call s r located
  | clear => exact .cleared
  | startSettles k outcome => exact turn_of_startSettles s k outcome
  | readSettles i located outcome => exact turn_of_readSettles s i located outcome
  | lockProceeds i located =>
    have haside := lockProceeds_aside s i located
    exact .quiet rfl haside.keeps haside.calls
  | grammarSettles k outcome =>
    have haside := grammarSettles_aside s k outcome
    exact .quiet rfl haside.keeps haside.calls
  | resume i setting reply => exact turn_of_resume s i setting reply

/-! ## What a step keeps -/

/-- A call that a step can take on: it is not over, and the attempt that it may wait for has come to
its end. -/
structure Movable (s : Session) (i : Nat) : Prop where
  not_ended : ∀ answer, s.calls[i]? ≠ some (.ended answer)
  not_waiting : ∀ goal k, s.calls[i]? = some (.starting goal k) → s.attempts[k]? ≠ some .pending

section Movable

variable {s : Session} {step : Step} {i : Nat}

theorem movable_new (s : Session) : Movable s s.calls.length := by
  have hnone : s.calls[s.calls.length]? = none := List.getElem?_eq_none (Nat.le_refl _)
  constructor <;> intros <;> simp_all

theorem movable_reading {path : String} (hc : s.calls[i]? = some (.reading path)) :
    Movable s i := by
  constructor <;> intros <;> simp_all

theorem movable_loading {path source language : String} {k : Nat}
    (hc : s.calls[i]? = some (.loading path source language k)) : Movable s i := by
  constructor <;> intros <;> simp_all

theorem movable_starting {goal : Goal} {k : Nat} {attempt : Attempt}
    (hc : s.calls[i]? = some (.starting goal k)) (ha : s.attempts[k]? = some attempt)
    (hne : attempt ≠ .pending) : Movable s i := by
  constructor
  · intro answer h
    simp [hc] at h
  · intro goal' k' h
    obtain ⟨-, rfl⟩ := Stage.starting.inj (Option.some.inj (hc.symm.trans h))
    simpa [ha] using hne

theorem Goes.stage {located : Bool} {goal : Goal} (h : Goes s step i located goal) :
    s.calls[i]? = none ∨ ∃ path, s.calls[i]? = some (.reading path) := by
  cases h with
  | start located => exact .inl (List.getElem?_eq_none (Nat.le_refl _))
  | parse path source located => exact .inl (List.getElem?_eq_none (Nat.le_refl _))
  | read located source hc => exact .inr ⟨_, hc⟩

theorem Goes.movable {located : Bool} {goal : Goal} (h : Goes s step i located goal) :
    Movable s i := by
  cases h with
  | start located => exact movable_new s
  | parse path source located => exact movable_new s
  | read located source hc => exact movable_reading hc

theorem Seeks.movable {path source : String} (h : Seeks s step i path source) : Movable s i := by
  cases h with
  | ready hg hr => exact hg.movable
  | resumed hc ha => exact movable_starting hc ha (by simp)

theorem Ends.movable {answer : Answer} (h : Ends s step i answer) : Movable s i := by
  cases h with
  | ready hg hr => exact hg.movable
  | started hc ha => exact movable_starting hc ha (by simp)
  | unsupported hl => exact movable_new s
  | unknown hs hl => exact hs.movable
  | unread hc => exact movable_reading hc
  | unstarted hc ha => exact movable_starting hc ha (by simp)
  | unloaded hc hk => exact movable_loading hc
  | released hc hk he => exact movable_loading hc

end Movable

/-! ### New calls and old ones -/

/-- The call that a step takes on is new if something is asked of the parser, else it is there. -/
def Takes (s : Session) (step : Step) (i : Nat) : Prop :=
  (∃ r, step.request? = some r) ∧ i = s.calls.length ∨ step.request? = none ∧ i < s.calls.length

section Takes

variable {s : Session} {step : Step} {i : Nat}

theorem takes_old {stage : Stage} (hs : step.request? = none) (hc : s.calls[i]? = some stage) :
    Takes s step i :=
  .inr ⟨hs, (List.getElem?_eq_some_iff.mp hc).1⟩

theorem Goes.takes {located : Bool} {goal : Goal} (h : Goes s step i located goal) :
    Takes s step i := by
  cases h with
  | start located => exact .inl ⟨⟨_, rfl⟩, rfl⟩
  | parse path source located => exact .inl ⟨⟨_, rfl⟩, rfl⟩
  | read located source hc => exact takes_old rfl hc

theorem Seeks.takes {path source : String} (h : Seeks s step i path source) : Takes s step i := by
  cases h with
  | ready hg hr => exact hg.takes
  | resumed hc ha => exact takes_old rfl hc

theorem Ends.takes {answer : Answer} (h : Ends s step i answer) : Takes s step i := by
  cases h with
  | ready hg hr => exact hg.takes
  | started hc ha => exact takes_old rfl hc
  | unsupported hl => exact .inl ⟨⟨_, rfl⟩, rfl⟩
  | unknown hs hl => exact hs.takes
  | unread hc => exact takes_old rfl hc
  | unstarted hc ha => exact takes_old rfl hc
  | unloaded hc hk => exact takes_old rfl hc
  | released hc hk he => exact takes_old rfl hc

end Takes

namespace Turn

variable {s s' : Session} {step : Step}

theorem calls_kept (h : Turn s step s') {i : Nat} (hi : ¬ Movable s i) :
    s'.calls[i]? = s.calls[i]? := by
  have hother : ∀ {j : Nat} {stage : Stage}, Puts s.calls j stage s'.calls → Movable s j →
      s'.calls[i]? = s.calls[i]? := by
    intro j stage puts hj
    exact puts.other fun heq => hi (heq ▸ hj)
  cases h with
  | quiet hs keeps calls => rw [calls]
  | cleared => rw [clear_calls]
  | succeeded hk => rfl
  | failed message hk => rfl
  | reads hl keeps puts => exact hother puts (movable_new s)
  | joins hg hr hk keeps puts => exact hother puts hg.movable
  | opens hg hr hn opens puts => exact hother puts hg.movable
  | seeks hs hl hk keeps puts => exact hother puts hs.movable
  | ends he keeps puts => exact hother puts he.movable
  | uses hc hk he uses puts => exact hother puts (movable_loading hc)

theorem ended_kept (h : Turn s step s') {i : Nat} {answer : Answer}
    (hc : s.calls[i]? = some (.ended answer)) : s'.calls[i]? = some (.ended answer) := by
  rw [h.calls_kept fun hm => hm.not_ended answer hc, hc]

theorem waiting_kept (h : Turn s step s') {i k : Nat} {goal : Goal}
    (hc : s.calls[i]? = some (.starting goal k)) (ha : s.attempts[k]? = some .pending) :
    s'.calls[i]? = some (.starting goal k) := by
  rw [h.calls_kept fun hm => hm.not_waiting goal k hc ha, hc]

/-- Only a new call starts to read a file. -/
theorem reading_cases (h : Turn s step s') {i : Nat} {path : String}
    (hi : s'.calls[i]? = some (.reading path)) :
    s.calls[i]? = some (.reading path) ∨ i = s.calls.length := by
  have hother : ∀ {j : Nat} {stage : Stage}, Puts s.calls j stage s'.calls →
      stage ≠ .reading path → s.calls[i]? = some (.reading path) := by
    intro j stage puts hne
    rcases puts.cases hi with ⟨-, rfl⟩ | ⟨-, hold⟩
    · exact absurd rfl hne
    · exact hold
  cases h with
  | quiet hs keeps calls => exact .inl (calls ▸ hi)
  | cleared => exact .inl (clear_calls s ▸ hi)
  | succeeded hk => exact .inl hi
  | failed message hk => exact .inl hi
  | reads hl keeps puts =>
    rcases puts.cases hi with ⟨rfl, -⟩ | ⟨-, hold⟩
    · exact .inr rfl
    · exact .inl hold
  | joins hg hr hk keeps puts => exact .inl (hother puts (by simp))
  | opens hg hr hn opens puts => exact .inl (hother puts (by simp))
  | seeks hs hl hk keeps puts => exact .inl (hother puts (by simp))
  | ends he keeps puts => exact .inl (hother puts (by simp))
  | uses hc hk he uses puts => exact .inl (hother puts (by simp))

theorem length (h : Turn s step s') :
    s'.calls.length = s.calls.length + step.request?.toList.length := by
  have hputs : ∀ {j : Nat} {stage : Stage}, Puts s.calls j stage s'.calls → Takes s step j →
      s'.calls.length = s.calls.length + step.request?.toList.length := by
    intro j stage puts htakes
    rw [puts.length]
    rcases htakes with ⟨⟨r, hr⟩, rfl⟩ | ⟨hr, hj⟩
    · rw [hr]
      simp
    · rw [hr, Nat.max_eq_left hj]
      rfl
  cases h with
  | quiet hs keeps calls => simp [calls, Step.request?_eq_none hs]
  | cleared => simp [Step.request?]
  | succeeded hk => simp [Step.request?]
  | failed message hk => simp [Step.request?]
  | reads hl keeps puts => exact hputs puts (.inl ⟨⟨_, rfl⟩, rfl⟩)
  | joins hg hr hk keeps puts => exact hputs puts hg.takes
  | opens hg hr hn opens puts => exact hputs puts hg.takes
  | seeks hs hl hk keeps puts => exact hputs puts hs.takes
  | ends he keeps puts => exact hputs puts he.takes
  | uses hc hk he uses puts => exact hputs puts (takes_old rfl hc)

end Turn

/-! ## What a step does about starting the engine -/

theorem Goes.ne_clear {s : Session} {step : Step} {i : Nat} {located : Bool} {goal : Goal}
    (h : Goes s step i located goal) : step ≠ .clear := by
  cases h <;> simp

theorem Seeks.ne_clear {s : Session} {step : Step} {i : Nat} {path source : String}
    (h : Seeks s step i path source) : step ≠ .clear := by
  cases h with
  | ready hg hr => exact hg.ne_clear
  | resumed hc ha => simp

theorem Ends.ne_clear {s : Session} {step : Step} {i : Nat} {answer : Answer}
    (h : Ends s step i answer) : step ≠ .clear := by
  cases h with
  | ready hg hr => exact hg.ne_clear
  | unknown hs hl => exact hs.ne_clear
  | _ => simp

/-- The engine that is held and the attempts to start one are the same. -/
structure KeepsStart (s s' : Session) : Prop where
  engine : s'.engine.map Engine.number = s.engine.map Engine.number
  engines : s'.engines = s.engines
  ready : s'.ready = s.ready
  starting : s'.starting = s.starting
  attempts : s'.attempts = s.attempts

theorem KeepsEngine.keepsStart {s s' : Session} (h : KeepsEngine s s') : KeepsStart s s' :=
  ⟨by rw [h.engine], h.engines, h.ready, h.starting, h.attempts⟩

/-- What a step can do about starting the engine: nothing, in most cases. -/
inductive StartTurn (s : Session) : Step → Session → Prop where
  | kept {step : Step} {s' : Session} (hs : step ≠ .clear) (keeps : KeepsStart s s') :
      StartTurn s step s'
  | cleared : StartTurn s .clear s.clear
  | succeeded {k : Nat} (hk : s.attempts[k]? = some .pending) :
      StartTurn s (.startSettles k (.ok ()))
        { s with
          attempts := s.attempts.set k .succeeded
          engine := some { number := s.engines }
          engines := s.engines + 1
          ready := true
          journal := s.journal ++ [.made s.engines] }
  | failed {k : Nat} (message : String) (hk : s.attempts[k]? = some .pending) :
      StartTurn s (.startSettles k (.error message))
        { s with attempts := s.attempts.set k (.failed (startFault message)), starting := none }
  | opens {step : Step} {i : Nat} {located : Bool} {goal : Goal} {s' : Session}
      (hg : Goes s step i located goal) (hr : s.ready = false) (hn : s.starting = none)
      (opens : Opens s located s')
      (puts : Puts s.calls i (.starting goal s.attempts.length) s'.calls) : StartTurn s step s'

theorem Turn.start {s s' : Session} {step : Step} (h : Turn s step s') : StartTurn s step s' := by
  cases h with
  | quiet hs keeps calls =>
    refine .kept ?_ keeps.keepsStart
    rintro rfl
    simp [Step.isRequest] at hs
  | cleared => exact .cleared
  | succeeded hk => exact .succeeded hk
  | failed message hk => exact .failed message hk
  | reads hl keeps puts => exact .kept (by simp) keeps.keepsStart
  | joins hg hr hk keeps puts => exact .kept hg.ne_clear keeps.keepsStart
  | opens hg hr hn opens puts => exact .opens hg hr hn opens puts
  | seeks hs hl hk keeps puts => exact .kept hs.ne_clear keeps.keepsStart
  | ends he keeps puts => exact .kept he.ne_clear keeps.keepsStart
  | uses hc hk he uses puts =>
    obtain ⟨g, hg⟩ := uses.engine
    exact .kept (by simp) ⟨by rw [hg, he]; rfl, uses.engines, uses.ready, uses.starting,
      uses.attempts⟩

/-! ### Openings -/

/-- A call that needs the engine finds neither one nor an attempt to start it. -/
def Opening (s : Session) (step : Step) (i : Nat) (located : Bool) : Prop :=
  s.ready = false ∧ s.starting = none ∧ ∃ goal, Goes s step i located goal

theorem Opening.opens {s : Session} {step : Step} {i : Nat} {located : Bool}
    (h : Opening s step i located) : Opens s located (s.step step) := by
  obtain ⟨hr, hn, goal, hg⟩ := h
  cases hg with
  | start located =>
    simp only [step, call, open?, pursue_opens s hr hn]
    exact ⟨rfl, rfl, rfl, rfl, rfl, rfl⟩
  | parse path source located =>
    simp only [step, call, open?, pursue_opens s hr hn]
    exact ⟨rfl, rfl, rfl, rfl, rfl, rfl⟩
  | read located source hc =>
    simp only [step, readSettles, hc, pursue_opens s hr hn]
    exact ⟨rfl, rfl, rfl, rfl, rfl, rfl⟩

namespace StartTurn

variable {s s' : Session} {step : Step}

/-- An attempt stays as it is, unless it is under way and the step brings its outcome. -/
theorem attempts_kept (h : StartTurn s step s') {k : Nat} {attempt : Attempt}
    (ha : s.attempts[k]? = some attempt) :
    s'.attempts[k]? = some attempt ∨
      attempt = .pending ∧ ∃ outcome, step = .startSettles k outcome := by
  have hset : ∀ {j : Nat} (new : Attempt), s.attempts[j]? = some .pending →
      (s.attempts.set j new)[k]? = some attempt ∨ attempt = .pending ∧ j = k := by
    intro j new hj
    by_cases heq : j = k
    · subst heq
      exact .inr ⟨Option.some.inj (ha.symm.trans hj), rfl⟩
    · exact .inl (by rw [List.getElem?_set_ne heq, ha])
  cases h with
  | kept hs keeps => exact .inl (by rw [keeps.attempts, ha])
  | cleared => exact .inl (by rw [clear_attempts, ha])
  | succeeded hj =>
    rcases hset .succeeded hj with hkept | ⟨hpending, rfl⟩
    · exact .inl hkept
    · exact .inr ⟨hpending, _, rfl⟩
  | failed message hj =>
    rcases hset (.failed (startFault message)) hj with hkept | ⟨hpending, rfl⟩
    · exact .inl hkept
    · exact .inr ⟨hpending, _, rfl⟩
  | opens hg hr hn opens puts =>
    obtain ⟨hlt, -⟩ := List.getElem?_eq_some_iff.mp ha
    exact .inl (by rw [opens.attempts, List.getElem?_append_left hlt, ha])

theorem ready_kept (h : StartTurn s step s') (hs : step ≠ .clear) (hr : s.ready = true) :
    s'.ready = true := by
  cases h with
  | kept hne keeps => rw [keeps.ready, hr]
  | cleared => exact absurd rfl hs
  | succeeded hk => rfl
  | failed message hk => exact hr
  | opens hg hn hk opens puts => rw [opens.ready, hr]

/-- An attempt that is under way after a step was so before, or has just been opened. -/
theorem pending_cases (h : StartTurn s step s') {k : Nat} (hk : s'.attempts[k]? = some .pending) :
    s.attempts[k]? = some .pending ∨
      s.attempts.length = k ∧ s'.starting = some k ∧ ∃ i located goal,
        Opening s step i located ∧ s'.calls[i]? = some (.starting goal k) := by
  cases h with
  | kept hs keeps => exact .inl (keeps.attempts ▸ hk)
  | cleared => exact .inl (clear_attempts s ▸ hk)
  | succeeded hj =>
    rw [List.getElem?_set] at hk
    split at hk
    · split at hk <;> simp at hk
    · exact .inl hk
  | failed message hj =>
    rw [List.getElem?_set] at hk
    split at hk
    · split at hk <;> simp at hk
    · exact .inl hk
  | opens hg hr hn opens puts =>
    rw [opens.attempts] at hk
    rcases Nat.lt_or_ge k s.attempts.length with hlt | hge
    · exact .inl (by rwa [List.getElem?_append_left hlt] at hk)
    · -- there is one attempt more than before, and this is it
      have hlt := (List.getElem?_eq_some_iff.mp hk).1
      rw [List.length_append, List.length_singleton] at hlt
      obtain rfl : s.attempts.length = k := by omega
      exact .inr ⟨rfl, opens.starting, _, _, _, ⟨hr, hn, _, hg⟩, puts.self⟩

end StartTurn

/-! ## Runs -/

theorem steps_snoc (s : Session) (run : List Step) (step : Step) :
    s.steps (run ++ [step]) = (s.steps run).step step :=
  List.foldl_append

theorem steps_append (s : Session) (run more : List Step) :
    s.steps (run ++ more) = (s.steps run).steps more :=
  List.foldl_append

/-- What holds of a session and is kept by its steps holds after a run. -/
theorem steps_induction {P : Session → Prop} {s : Session} (h : P s)
    (hstep : ∀ t step, P t → P (t.step step)) (run : List Step) : P (s.steps run) := by
  induction run generalizing s with
  | nil => exact h
  | cons step run ih => exact ih (hstep s step h)

end ClassCohesion.Parsing.Session
