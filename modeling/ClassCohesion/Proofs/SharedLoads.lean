import ClassCohesion.Proofs.LoadTurns

/-!
# One load for all who ask

In a session that is not cleared, a language has at most one load that counts: one that is under way
or has succeeded. Whoever asks for the language joins it. A load that failed does not count any
more, and the next one who asks starts a new load.

The list by which callers find a load is changed when a load is asked for and when one fails.
`Current` says that it names the loads that count, and that all other loads of a language are older
than the one that does.
-/

namespace ClassCohesion.Parsing

/-- Whether the outcome of a load is still to come. -/
def LoadState.isPending : LoadState → Bool
  | queued | reading | ending => true
  | loaded | failed _ => false

/-- Whether a load is under way or has succeeded. -/
def LoadState.isCurrent : LoadState → Bool
  | failed _ => false
  | _ => true

theorem LoadState.isCurrent_of_isPending {state : LoadState} (h : state.isPending = true) :
    state.isCurrent = true := by
  cases state <;> simp_all [isPending, isCurrent]

theorem LoadState.isCurrent_of_remaining {state : LoadState} (h : state.remaining ≠ 0) :
    state.isCurrent = true := by
  cases state <;> simp_all [remaining, isCurrent]

namespace Shelf

/-! ## The loads that count -/

/-- The list of grammars names the loads that count, and older loads of a language have failed. -/
structure Current (b : Shelf) : Prop where
  named : ∀ (language : String) (k : Nat), (language, k) ∈ b.grammars ↔
    ∃ state, b.loads[k]? = some ⟨language, state⟩ ∧ state.isCurrent = true
  older : ∀ (language : String) (j k : Nat) (old new : LoadState), j < k →
    b.loads[j]? = some ⟨language, old⟩ → b.loads[k]? = some ⟨language, new⟩ → old.isCurrent = false

theorem current_fresh : Current ⟨[], [], {}⟩ where
  named := by simp
  older := by
    intro language j k old new hlt hj
    simp at hj

namespace Current

variable {b b' : Shelf} {language : String}

/-- A language has at most one load that counts. -/
theorem unique (h : Current b) {j k : Nat} {one other : LoadState}
    (hj : b.loads[j]? = some ⟨language, one⟩) (hk : b.loads[k]? = some ⟨language, other⟩)
    (hone : one.isCurrent = true) (hother : other.isCurrent = true) : j = k := by
  rcases Nat.lt_trichotomy j k with hlt | heq | hgt
  · have hfailed := h.older language j k one other hlt hj hk
    simp [hfailed] at hone
  · exact heq
  · have hfailed := h.older language k j other one hgt hk hj
    simp [hfailed] at hother

theorem lookup_eq_some (h : Current b) {k : Nat} {state : LoadState}
    (hk : b.loads[k]? = some ⟨language, state⟩) (hs : state.isCurrent = true) :
    b.grammars.lookup language = some k := by
  have hmem := (h.named language k).mpr ⟨state, hk, hs⟩
  cases hl : b.grammars.lookup language with
  | none =>
    have hno := List.lookup_eq_none_iff.mp hl _ hmem
    simp at hno
  | some j =>
    obtain ⟨before, after, hsplit, -⟩ := List.lookup_eq_some_iff.mp hl
    have hj : (language, j) ∈ b.grammars := by simp [hsplit]
    obtain ⟨state', hj', hs'⟩ := (h.named language j).mp hj
    rw [h.unique hj' hk hs' hs]

theorem lookup_eq_none (h : Current b)
    (hn : ∀ (k : Nat) (state : LoadState), b.loads[k]? = some ⟨language, state⟩ →
      state.isCurrent = false) : b.grammars.lookup language = none := by
  rw [List.lookup_eq_none_iff]
  rintro ⟨other, k⟩ hmem
  simp only [bne_iff_ne]
  rintro rfl
  obtain ⟨state, hk, hs⟩ := (h.named language k).mp hmem
  simp [hn k state hk] at hs

theorem failed_of_lookup (h : Current b) (hn : b.grammars.lookup language = none) {k : Nat}
    {state : LoadState} (hk : b.loads[k]? = some ⟨language, state⟩) : state.isCurrent = false := by
  by_contra hs
  have hfound := h.lookup_eq_some hk (by simpa using hs)
  simp [hn] at hfound

theorem ask (h : Current b) (hn : b.grammars.lookup language = none) (lock : Lock Nat) :
    Current
      ⟨b.grammars ++ [(language, b.loads.length)], b.loads ++ [⟨language, .queued⟩], lock⟩ := by
  have hget : ∀ (k : Nat) (load : Load), (b.loads ++ [⟨language, .queued⟩])[k]? = some load ↔
      b.loads[k]? = some load ∨ k = b.loads.length ∧ load = ⟨language, .queued⟩ := by
    intro k load
    rcases Nat.lt_trichotomy k b.loads.length with hlt | rfl | hgt
    · rw [List.getElem?_append_left hlt]
      constructor
      · exact .inl
      · rintro (hold | ⟨heq, -⟩)
        · exact hold
        · omega
    · rw [List.getElem?_concat_length, List.getElem?_eq_none (Nat.le_refl _)]
      simp [eq_comm]
    · rw [List.getElem?_eq_none (by simp; omega), List.getElem?_eq_none (by omega)]
      simp
      omega
  constructor
  · intro other k
    simp only [List.mem_append, List.mem_singleton, hget, h.named other k, Prod.mk.injEq]
    constructor
    · rintro (⟨state, hk, hs⟩ | ⟨rfl, rfl⟩)
      · exact ⟨state, .inl hk, hs⟩
      · exact ⟨.queued, .inr ⟨rfl, rfl⟩, rfl⟩
    · rintro ⟨state, hk | ⟨rfl, hload⟩, hs⟩
      · exact .inl ⟨state, hk, hs⟩
      · exact .inr ⟨(Load.mk.inj hload).1, rfl⟩
  · intro other j k old new hlt hj hk
    rcases (hget j _).mp hj with hj' | ⟨rfl, -⟩
    · rcases (hget k _).mp hk with hk' | ⟨rfl, hload⟩
      · exact h.older other j k old new hlt hj' hk'
      · -- the new load is asked for because no other one counts
        obtain ⟨rfl, -⟩ := Load.mk.inj hload
        exact h.failed_of_lookup hn hj'
    · rcases (hget k _).mp hk with hk' | ⟨rfl, -⟩
      · have hlt' := (List.getElem?_eq_some_iff.mp hk').1
        omega
      · omega

/-- What a step of a load does to the loads of all languages. -/
theorem getElem?_set_cases {loads : List Load} {k j : Nat} {language other : String}
    {old new state : LoadState} (hk : loads[k]? = some ⟨language, old⟩)
    (hj : (loads.set k ⟨language, new⟩)[j]? = some ⟨other, state⟩) :
    j = k ∧ other = language ∧ state = new ∨ j ≠ k ∧ loads[j]? = some ⟨other, state⟩ := by
  obtain ⟨hlt, -⟩ := List.getElem?_eq_some_iff.mp hk
  by_cases heq : j = k
  · subst heq
    rw [List.getElem?_set_self hlt] at hj
    obtain ⟨rfl, rfl⟩ := Load.mk.inj (Option.some.inj hj)
    exact .inl ⟨rfl, rfl, rfl⟩
  · rw [List.getElem?_set_ne (Ne.symm heq)] at hj
    exact .inr ⟨heq, hj⟩

theorem older_set (h : Current b) {k : Nat} {old new : LoadState}
    (hk : b.loads[k]? = some ⟨language, old⟩) (hold : old.isCurrent = true) (other : String)
    (i j : Nat) (one two : LoadState) (hlt : i < j)
    (hi : (b.loads.set k ⟨language, new⟩)[i]? = some ⟨other, one⟩)
    (hj : (b.loads.set k ⟨language, new⟩)[j]? = some ⟨other, two⟩) : one.isCurrent = false := by
  rcases getElem?_set_cases hk hj with ⟨rfl, rfl, -⟩ | ⟨-, hj'⟩
  · rcases getElem?_set_cases hk hi with ⟨rfl, -, -⟩ | ⟨-, hi'⟩
    · omega
    · exact h.older other i j one old hlt hi' hk
  · rcases getElem?_set_cases hk hi with ⟨rfl, rfl, -⟩ | ⟨-, hi'⟩
    · -- a load that takes a step counts, so no load of its language is newer
      have hfailed := h.older other i j old two hlt hk hj'
      simp [hfailed] at hold
    · exact h.older other i j one two hlt hi' hj'

/-- A load that counts takes a step and still does. -/
theorem keep (h : Current b) {k : Nat} {old new : LoadState}
    (hk : b.loads[k]? = some ⟨language, old⟩) (hold : old.isCurrent = true)
    (hnew : new.isCurrent = true) (lock : Lock Nat) :
    Current ⟨b.grammars, b.loads.set k ⟨language, new⟩, lock⟩ := by
  obtain ⟨hlt, -⟩ := List.getElem?_eq_some_iff.mp hk
  refine ⟨fun other j => ?_, h.older_set hk hold⟩
  rw [h.named other j]
  constructor
  · rintro ⟨state, hj, hs⟩
    by_cases heq : k = j
    · subst heq
      obtain ⟨rfl, -⟩ := Load.mk.inj (Option.some.inj (hk.symm.trans hj))
      exact ⟨new, List.getElem?_set_self hlt, hnew⟩
    · exact ⟨state, (List.getElem?_set_ne heq).trans hj, hs⟩
  · rintro ⟨state, hj, hs⟩
    rcases getElem?_set_cases hk hj with ⟨rfl, rfl, -⟩ | ⟨-, hj'⟩
    · exact ⟨old, hk, hold⟩
    · exact ⟨state, hj', hs⟩

/-- A load that counts fails, and its language is taken off the list. -/
theorem drop (h : Current b) {k : Nat} {old : LoadState}
    (hk : b.loads[k]? = some ⟨language, old⟩) (hold : old.isCurrent = true) (reason : String)
    (lock : Lock Nat) :
    Current ⟨b.grammars.filter fun g => some g.1 != some language,
      b.loads.set k ⟨language, .failed reason⟩, lock⟩ := by
  refine ⟨fun other j => ?_, h.older_set hk hold⟩
  simp only [List.mem_filter, bne_iff_ne, ne_eq, Option.some.injEq, h.named other j]
  constructor
  · rintro ⟨⟨state, hj, hs⟩, hne⟩
    refine ⟨state, ?_, hs⟩
    rw [List.getElem?_set_ne ?_, hj]
    rintro rfl
    exact hne (Load.mk.inj (Option.some.inj (hj.symm.trans hk))).1
  · rintro ⟨state, hj, hs⟩
    rcases getElem?_set_cases hk hj with ⟨-, -, rfl⟩ | ⟨hne, hj'⟩
    · simp [LoadState.isCurrent] at hs
    · refine ⟨⟨state, hj', hs⟩, ?_⟩
      rintro rfl
      exact hne (h.unique hj' hk hs hold)

theorem move (h : Current b) (hm : Move b b') : Current b' := by
  cases hm with
  | ask ha =>
    obtain ⟨hn⟩ := ha
    exact h.ask hn _
  | advance ha =>
    cases ha with
    | enter hf hk => exact h.keep hk rfl rfl _
    | finish outcome hk => exact h.keep hk rfl rfl _
    | report hf hk => exact h.keep hk rfl rfl _
    | fail hf hk => exact h.drop hk rfl _ _

theorem moves (h : Current b) (hm : Relation.ReflTransGen Move b b') : Current b' := by
  induction hm with
  | refl => exact h
  | tail _ hlast ih => exact ih.move hlast

/-- Once a load has succeeded, the loads of its language stay what they are. -/
theorem loads_kept (h : Current b) {k : Nat} (hk : b.loads[k]? = some ⟨language, .loaded⟩)
    (hm : Move b b') (j : Nat) (state : LoadState) :
    b'.loads[j]? = some ⟨language, state⟩ ↔ b.loads[j]? = some ⟨language, state⟩ := by
  have hsettled : ∀ {j : Nat} {state : LoadState}, b.loads[j]? = some ⟨language, state⟩ →
      state.remaining = 0 := by
    intro j state hj
    by_contra hne
    obtain rfl := h.unique hj hk (LoadState.isCurrent_of_remaining hne) rfl
    obtain rfl := (Load.mk.inj (Option.some.inj (hk.symm.trans hj))).2
    exact hne rfl
  refine ⟨fun hj => ?_, fun hj => hm.settled_kept hj (hsettled hj)⟩
  cases hm with
  | ask ha =>
    obtain @⟨other, hn⟩ := ha
    rcases Nat.lt_or_ge j b.loads.length with hlt | hge
    · exact (List.getElem?_append_left hlt).symm.trans hj
    · -- a new load is for another language
      have hnew : (⟨language, state⟩ : Load) ∈ [⟨other, .queued⟩] := by
        rw [List.getElem?_append_right hge] at hj
        exact List.mem_of_getElem? hj
      obtain ⟨rfl, -⟩ := Load.mk.inj (List.mem_singleton.mp hnew)
      simp [h.lookup_eq_some hk rfl] at hn
  | advance ha =>
    obtain ⟨i, other, old, new, hi, hloads, hless⟩ := ha.turn
    rw [hloads] at hj
    rcases getElem?_set_cases hi hj with ⟨rfl, rfl, -⟩ | ⟨-, hj⟩
    · have hdone := hsettled hi
      omega
    · exact hj

theorem loads_kept_moves (h : Current b) {k : Nat} (hk : b.loads[k]? = some ⟨language, .loaded⟩)
    (hm : Relation.ReflTransGen Move b b') :
    b'.loads[k]? = some ⟨language, .loaded⟩ ∧
      ∀ (j : Nat) (state : LoadState),
        b'.loads[j]? = some ⟨language, state⟩ ↔ b.loads[j]? = some ⟨language, state⟩ := by
  induction hm with
  | refl => exact ⟨hk, fun _ _ => .rfl⟩
  | tail hmoves hlast ih =>
    obtain ⟨hloaded, hsame⟩ := ih
    refine ⟨hlast.settled_kept hloaded rfl, fun j state => ?_⟩
    rw [(h.moves hmoves).loads_kept hloaded hlast, hsame]

/-- If the last load of a language has failed, none of them counts. -/
theorem none_counts (h : Current b) {k : Nat} {reason : String}
    (hk : b.loads[k]? = some ⟨language, .failed reason⟩)
    (hlast : ∀ j, k < j → ∀ state, b.loads[j]? ≠ some ⟨language, state⟩) (j : Nat)
    (state : LoadState) (hj : b.loads[j]? = some ⟨language, state⟩) : state.isCurrent = false := by
  rcases Nat.lt_trichotomy j k with hlt | rfl | hgt
  · exact h.older language j k state _ hlt hj hk
  · obtain rfl := (Load.mk.inj (Option.some.inj (hk.symm.trans hj))).2
    rfl
  · exact absurd hj (hlast j hgt state)

end Current

end Shelf

namespace Session

open Parsing.Shelf

/-! ## Sessions that are not cleared -/

theorem steps_moves {s : Session} {m : Nat} (h : Tidy s.shelf m) {run : List Step}
    (hrun : .clear ∉ run) : Relation.ReflTransGen Move s.shelf (s.steps run).shelf := by
  induction run generalizing s m with
  | nil => exact .refl
  | cons step run ih =>
    rw [List.mem_cons, not_or] at hrun
    have hfirst := step_shelf h (Ne.symm hrun.1)
    obtain ⟨n, hn⟩ := tidy_step h step
    exact hfirst.trans (ih hn hrun.2)

theorem current_steps {run : List Step} (hrun : .clear ∉ run) :
    Current (({} : Session).steps run).shelf :=
  current_fresh.moves (steps_moves (s := {}) tidy_fresh hrun)

theorem settled_kept_steps {s : Session} {m : Nat} (h : Tidy s.shelf m) {run : List Step}
    (hrun : .clear ∉ run) {k : Nat} {load : Load} (hk : s.loads[k]? = some load)
    (hs : load.state.remaining = 0) : (s.steps run).loads[k]? = some load := by
  have hmoves := steps_moves h hrun
  have hkept : ∀ {b : Shelf}, Relation.ReflTransGen Move s.shelf b → b.loads[k]? = some load := by
    intro b hb
    induction hb with
    | refl => exact hk
    | tail _ hlast ih => exact hlast.settled_kept ih hs
  exact hkept hmoves

/-! ### The engine is there for whoever waits for a grammar -/

/-- Nobody waits for a grammar or can go on to do so without an engine. -/
structure Equipped (s : Session) : Prop where
  ready : s.ready = true → s.engine.isSome = true
  started : ∀ k : Nat, s.attempts[k]? = some .succeeded → s.ready = true
  loading : ∀ (i : Nat) (path source language : String) (k : Nat),
    s.calls[i]? = some (.loading path source language k) → s.ready = true

theorem equipped_fresh : Equipped {} := by
  constructor <;> simp

theorem Equipped.engine_of_seeks {s : Session} (h : Equipped s) {step : Step} {i : Nat}
    {path source : String} (hs : Seeks s step i path source) : s.ready = true := by
  cases hs with
  | ready hg hr => exact hr
  | resumed hc ha => exact h.started _ ha

/-- A call that waits for a load did so before, or has just asked for a grammar. -/
theorem Turn.loading_cases {s s' : Session} {step : Step} (ht : Turn s step s') {i k : Nat}
    {path source language : String} (hc : s'.calls[i]? = some (.loading path source language k)) :
    s.calls[i]? = some (.loading path source language k) ∨
      Seeks s step i path source ∧ Language.ofPath? path = some language ∧
        (Registered s → s'.HasLoad k language) := by
  have hother : ∀ {j : Nat} {stage : Stage}, Puts s.calls j stage s'.calls →
      stage ≠ .loading path source language k →
      s.calls[i]? = some (.loading path source language k) := by
    intro j stage puts hne
    rcases puts.cases hc with ⟨-, rfl⟩ | ⟨-, hold⟩
    · exact absurd rfl hne
    · exact hold
  cases ht with
  | quiet hq keeps calls => exact .inl (calls ▸ hc)
  | cleared => exact .inl (clear_calls s ▸ hc)
  | succeeded hk => exact .inl hc
  | failed message hk => exact .inl hc
  | reads hl keeps puts => exact .inl (hother puts (by simp))
  | joins hg hr hk keeps puts => exact .inl (hother puts (by simp))
  | opens hg hr hn opens puts => exact .inl (hother puts (by simp))
  | ends he keeps puts => exact .inl (hother puts (by simp))
  | uses hc' hk he uses puts => exact .inl (hother puts (by simp))
  | seeks hseeks hl hk keeps puts =>
    rcases puts.cases hc with ⟨rfl, hstage⟩ | ⟨-, hold⟩
    · obtain ⟨rfl, rfl, rfl, rfl⟩ := Stage.loading.inj hstage
      exact .inr ⟨hseeks, hl, hk⟩
    · exact .inl hold

/-- An engine that is announced is there. -/
theorem Turn.engine_of_ready {s s' : Session} {step : Step} (ht : Turn s step s')
    (h : s.ready = true → s.engine.isSome = true) (hr : s'.ready = true) :
    s'.engine.isSome = true := by
  have hkeeps : KeepsEngine s s' → s'.engine.isSome = true :=
    fun keeps => keeps.engine ▸ h (keeps.ready ▸ hr)
  cases ht with
  | quiet hq keeps calls => exact hkeeps keeps
  | cleared => simp at hr
  | succeeded hk => rfl
  | failed message hk => exact h hr
  | reads hl keeps puts => exact hkeeps keeps
  | joins hg hn hk keeps puts => exact hkeeps keeps
  | opens hg hf hn opens puts => exact opens.engine ▸ h (opens.ready ▸ hr)
  | seeks hseeks hl hk keeps puts => exact hkeeps keeps
  | ends he keeps puts => exact hkeeps keeps
  | uses hc hk he uses puts =>
    obtain ⟨g, hg⟩ := uses.engine
    simp [hg]

theorem Equipped.turn {s s' : Session} {step : Step} (h : Equipped s) (ht : Turn s step s')
    (hs : step ≠ .clear) : Equipped s' := by
  have hready : s.ready = true → s'.ready = true := ht.start.ready_kept hs
  constructor
  · exact ht.engine_of_ready h.ready
  · intro k hk
    cases ht.start with
    | kept hne keeps => exact hready (h.started k (keeps.attempts ▸ hk))
    | cleared => exact absurd rfl hs
    | succeeded hj => rfl
    | failed message hj =>
      rw [List.getElem?_set] at hk
      split at hk
      · split at hk <;> simp at hk
      · exact h.started k hk
    | opens hg hr hn opens puts =>
      rw [opens.attempts] at hk
      rcases Nat.lt_or_ge k s.attempts.length with hlt | hge
      · exact hready (h.started k (by rwa [List.getElem?_append_left hlt] at hk))
      · rw [List.getElem?_append_right hge] at hk
        have hnew := List.mem_singleton.mp (List.mem_of_getElem? hk)
        split at hnew <;> cases hnew
  · intro i path source language k hc
    rcases ht.loading_cases hc with hold | ⟨hseeks, -, -⟩
    · exact hready (h.loading i path source language k hold)
    · exact hready (h.engine_of_seeks hseeks)

theorem Equipped.steps {s : Session} (h : Equipped s) {run : List Step} (hrun : .clear ∉ run) :
    Equipped (s.steps run) := by
  induction run generalizing s with
  | nil => exact h
  | cons step run ih =>
    rw [List.mem_cons, not_or] at hrun
    exact ih (h.turn (step_turn s step) (Ne.symm hrun.1)) hrun.2

/-! ## A call that waits for a load -/

/-- The answer of a call that waited for a load, given what happened since: the failure of the load,
or what the engine makes of the text with the grammar that was loaded. -/
inductive Brings (s : Session) (run : List Step) (i k : Nat) (path source language : String) :
    Answer → Prop where
  | failure {reason : String} (hk : (s.steps run).loads[k]? = some ⟨language, .failed reason⟩) :
      Brings s run i k path source language (.failed (.parseFailed path
        ("grammar for " ++ language ++ " unavailable: " ++ reason) (some ⟨"Error", reason⟩)))
  | grammar {before after : List Step} {setting : Except String Unit} {reply : Except String Bool}
      {e : Engine} (hk : (s.steps run).loads[k]? = some ⟨language, .loaded⟩)
      (hrun : run = before ++ .resume i setting reply :: after)
      (he : (s.steps before).engine = some e) :
      Brings s run i k path source language
        ((s.steps before).useEngine path source language language setting reply).2

/-- Whatever happens, a call goes by the outcome of this load: it waits for it, or has the answer
that this outcome brings. It can always still come to its answer, with nothing asked for. -/
def Follows (s : Session) (i k : Nat) (path source language : String) : Prop :=
  ∀ run : List Step, .clear ∉ run →
    ((s.steps run).calls[i]? = some (.loading path source language k) ∨
      ∃ answer, (s.steps run).calls[i]? = some (.ended answer) ∧
        Brings s run i k path source language answer) ∧
    ∃ more : List Step, (∀ step ∈ more, step.isRequest = false) ∧
      ∃ answer, (s.steps (run ++ more)).calls[i]? = some (.ended answer)

section Waiting

variable {s : Session} {i k : Nat} {path source language : String}

/-- A call that waits for a load goes on only when it is resumed. -/
theorem loading_kept (hc : s.calls[i]? = some (.loading path source language k)) {step : Step}
    (hs : ∀ setting reply, step ≠ .resume i setting reply) :
    (s.step step).calls[i]? = some (.loading path source language k) := by
  have hother : ∀ {j : Nat} {stage : Stage}, Puts s.calls j stage (s.step step).calls → j ≠ i →
      (s.step step).calls[i]? = some (.loading path source language k) := by
    intro j stage puts hne
    rw [puts.other (Ne.symm hne), hc]
  have hnew : s.calls.length ≠ i := by
    rintro rfl
    simp at hc
  have hgoes : ∀ {j : Nat} {located : Bool} {goal : Goal}, Goes s step j located goal → j ≠ i := by
    rintro j located goal hg rfl
    rcases hg.stage with hnone | ⟨path', hreading⟩
    · simp [hc] at hnone
    · simp [hc] at hreading
  have hseeks : ∀ {j : Nat} {path' source' : String}, Seeks s step j path' source' → j ≠ i := by
    rintro j path' source' hseeks rfl
    cases hseeks with
    | ready hg hr => exact hgoes hg rfl
    | resumed hc' ha => exact hs _ _ rfl
  have hturn := step_turn s step
  generalize s.step step = s' at *
  cases hturn with
  | quiet hq keeps calls => rw [calls, hc]
  | cleared => rw [clear_calls, hc]
  | succeeded hk => exact hc
  | failed message hk => exact hc
  | reads hl keeps puts => exact hother puts hnew
  | joins hg hr hk keeps puts => exact hother puts (hgoes hg)
  | opens hg hr hn opens puts => exact hother puts (hgoes hg)
  | seeks hseek hl hk keeps puts => exact hother puts (hseeks hseek)
  | uses hc' hk he uses puts =>
    refine hother puts ?_
    rintro rfl
    exact hs _ _ rfl
  | ends he keeps puts =>
    refine hother puts ?_
    rintro rfl
    cases he with
    | ready hg hr => exact hgoes hg rfl
    | unknown hseek hl => exact hseeks hseek rfl
    | unsupported hl => exact hnew rfl
    | unread hc' => simp [hc] at hc'
    | started hc' ha => exact hs _ _ rfl
    | unstarted hc' ha => exact hs _ _ rfl
    | unloaded hc' hk => exact hs _ _ rfl
    | released hc' hk he => exact hs _ _ rfl

theorem resume_failed (hc : s.calls[i]? = some (.loading path source language k))
    {grammar reason : String} (hk : s.loads[k]? = some ⟨grammar, .failed reason⟩)
    (setting : Except String Unit) (reply : Except String Bool) :
    (s.resume i setting reply).calls[i]? = some (.ended (.failed (.parseFailed path
      ("grammar for " ++ language ++ " unavailable: " ++ reason) (some ⟨"Error", reason⟩)))) := by
  obtain ⟨hlt, -⟩ := List.getElem?_eq_some_iff.mp hc
  simp only [resume, hc, hk]
  exact List.getElem?_set_self hlt

theorem useEngine_calls (s : Session) (path source language grammar : String)
    (setting : Except String Unit) (reply : Except String Bool) :
    (s.useEngine path source language grammar setting reply).1.calls = s.calls := by
  cases he : s.engine with
  | none => rw [useEngine_none he]
  | some e => exact (useEngine_uses he path source language grammar setting reply).2

theorem resume_loaded (hc : s.calls[i]? = some (.loading path source language k))
    {grammar : String} (hk : s.loads[k]? = some ⟨grammar, .loaded⟩)
    (setting : Except String Unit) (reply : Except String Bool) :
    (s.resume i setting reply).calls[i]? =
      some (.ended (s.useEngine path source language grammar setting reply).2) := by
  obtain ⟨hlt, -⟩ := List.getElem?_eq_some_iff.mp hc
  simp only [resume, hc, hk]
  refine List.getElem?_set_self ?_
  rw [useEngine_calls]
  exact hlt

theorem resume_pending (hc : s.calls[i]? = some (.loading path source language k)) {load : Load}
    (hk : s.loads[k]? = some load) (hs : load.state.remaining ≠ 0) (setting : Except String Unit)
    (reply : Except String Bool) : s.resume i setting reply = s := by
  obtain ⟨grammar, state⟩ := load
  simp only [resume, hc, hk]
  cases state <;> simp_all [LoadState.remaining]

end Waiting

/-! ### Loads come to their end -/

/-- While a load is under way, one of the loads can take a step. -/
theorem exists_advance {s : Session} {m : Nat} (h : Tidy s.shelf m) {k : Nat} {load : Load}
    (hk : s.loads[k]? = some load) (hs : load.state.remaining ≠ 0) :
    ∃ step : Step, step.isRequest = false ∧ (s.step step).calls = s.calls ∧
      (s.step step).shelf.weight < s.shelf.weight := by
  by_cases hf : s.lock.followUps = []
  · by_cases hr : ∃ (j : Nat) (language : String), s.loads[j]? = some ⟨language, .reading⟩
    · obtain ⟨j, language, hj⟩ := hr
      exact ⟨.grammarSettles j (.ok ()), rfl, (grammarSettles_aside s j _).calls,
        (grammarSettles_advance hj _).weight_lt⟩
    · push Not at hr
      exact absurd (h.all_settled hf hr hk) hs
  · obtain ⟨f, fs, hcons⟩ := List.exists_cons_of_ne_nil hf
    have hfirst : s.lock.followUps[0]? = some f := by simp [hcons]
    exact ⟨.lockProceeds 0 true, rfl, (lockProceeds_aside s 0 true).calls,
      weight_lt_of_transGen (lockProceeds_advances h hfirst true)⟩

theorem exists_settled {s : Session} {m : Nat} (h : Tidy s.shelf m) :
    ∃ more : List Step, (∀ step ∈ more, step.isRequest = false) ∧
      (s.steps more).calls = s.calls ∧
      ∀ (k : Nat) (load : Load), (s.steps more).loads[k]? = some load →
        load.state.remaining = 0 := by
  induction hw : s.shelf.weight using Nat.strongRecOn generalizing s m with
  | _ weight ih =>
    by_cases hall : ∀ (k : Nat) (load : Load), s.loads[k]? = some load → load.state.remaining = 0
    · exact ⟨[], by simp, rfl, hall⟩
    · push Not at hall
      obtain ⟨k, load, hk, hs⟩ := hall
      obtain ⟨step, hrequest, hcalls, hless⟩ := exists_advance h hk hs
      obtain ⟨n, hn⟩ := tidy_step h step
      obtain ⟨more, hmore, hkept, hsettled⟩ := ih _ (hw ▸ hless) hn rfl
      refine ⟨step :: more, ?_, hkept.trans hcalls, hsettled⟩
      intro step' hstep'
      rcases List.mem_cons.mp hstep' with rfl | htail
      · exact hrequest
      · exact hmore step' htail

section Follows

variable {s : Session} {m i k : Nat} {path source language : String}

theorem Brings.later {run : List Step} {answer : Answer} (ht : Tidy (s.steps run).shelf m)
    (h : Brings s run i k path source language answer) {step : Step} (hs : step ≠ .clear) :
    Brings s (run ++ [step]) i k path source language answer := by
  have hkept : ∀ {load : Load}, (s.steps run).loads[k]? = some load → load.state.remaining = 0 →
      (s.steps (run ++ [step])).loads[k]? = some load := by
    intro load hk hsettled
    rw [steps_append]
    exact settled_kept_steps ht (by simpa using Ne.symm hs) hk hsettled
  cases h with
  | failure hk => exact .failure (hkept hk rfl)
  | @grammar before after setting reply e hk hrun he =>
    have hlater : run ++ [step] = before ++ .resume i setting reply :: (after ++ [step]) := by
      simp [hrun]
    exact .grammar (hkept hk rfl) hlater he

theorem hasLoad_step (ht : Tidy s.shelf m) (hk : s.HasLoad k language) {step : Step}
    (hs : step ≠ .clear) : (s.step step).HasLoad k language := by
  have hkept : ∀ {b : Shelf}, Relation.ReflTransGen Move s.shelf b →
      ∃ state, b.loads[k]? = some ⟨language, state⟩ := by
    intro b hb
    induction hb with
    | refl => exact hk
    | tail _ hlast ih =>
      obtain ⟨state, hstate⟩ := ih
      exact hlast.language_kept hstate
  exact hkept (step_shelf ht hs)

/-- A call that is resumed while it waits for a load goes by the outcome of that load, if there is
one. -/
theorem brings_resume {run : List Step} {state : LoadState} (ht : Tidy (s.steps run).shelf m)
    (he : Equipped (s.steps run))
    (hc : (s.steps run).calls[i]? = some (.loading path source language k))
    (hload : (s.steps run).loads[k]? = some ⟨language, state⟩) (setting : Except String Unit)
    (reply : Except String Bool) :
    ((s.steps run).resume i setting reply).calls[i]? = some (.loading path source language k) ∨
      ∃ answer, ((s.steps run).resume i setting reply).calls[i]? = some (.ended answer) ∧
        Brings s (run ++ [.resume i setting reply]) i k path source language answer := by
  by_cases hpending : state.remaining = 0
  · have hsame : (s.steps (run ++ [.resume i setting reply])).loads[k]? =
        some ⟨language, state⟩ := by
      rw [steps_append]
      exact settled_kept_steps ht (by simp) hload hpending
    cases state with
    | failed reason => exact .inr ⟨_, resume_failed hc hload setting reply, .failure hsame⟩
    | loaded =>
      obtain ⟨e, hengine⟩ := Option.isSome_iff_exists.mp
        (he.ready (he.loading i path source language k hc))
      exact .inr ⟨_, resume_loaded hc hload setting reply, .grammar hsame rfl hengine⟩
    | queued => simp [LoadState.remaining] at hpending
    | reading => simp [LoadState.remaining] at hpending
    | ending => simp [LoadState.remaining] at hpending
  · rw [resume_pending hc hload hpending]
    exact .inl hc

/-- A call that waits for a load of its language goes by the outcome of that load. -/
theorem brings_steps (ht : Tidy s.shelf m) (he : Equipped s)
    (hc : s.calls[i]? = some (.loading path source language k)) (hk : s.HasLoad k language)
    {run : List Step} (hrun : .clear ∉ run) :
    (∃ state, (s.steps run).loads[k]? = some ⟨language, state⟩) ∧
      ((s.steps run).calls[i]? = some (.loading path source language k) ∨
        ∃ answer, (s.steps run).calls[i]? = some (.ended answer) ∧
          Brings s run i k path source language answer) := by
  induction run using List.reverseRecOn with
  | nil => exact ⟨hk, .inl hc⟩
  | append_singleton run step ih =>
    rw [List.mem_append, List.mem_singleton, not_or] at hrun
    obtain ⟨hrun, hstep⟩ := hrun
    obtain ⟨⟨state, hload⟩, hstage⟩ := ih hrun
    obtain ⟨n, hn⟩ := ht.moves (steps_moves ht hrun)
    rw [steps_snoc]
    refine ⟨hasLoad_step hn ⟨state, hload⟩ (Ne.symm hstep), ?_⟩
    rcases hstage with hwaits | ⟨answer, hended, hbrings⟩
    · by_cases hres : ∃ setting reply, step = .resume i setting reply
      · obtain ⟨setting, reply, rfl⟩ := hres
        exact brings_resume hn (he.steps hrun) hwaits hload setting reply
      · push Not at hres
        exact .inl (loading_kept hwaits hres)
    · refine .inr ⟨answer, ?_, hbrings.later hn (Ne.symm hstep)⟩
      exact (step_turn _ step).ended_kept hended

theorem follows_of_loading (ht : Tidy s.shelf m) (he : Equipped s)
    (hc : s.calls[i]? = some (.loading path source language k)) (hk : s.HasLoad k language) :
    Follows s i k path source language := by
  intro run hrun
  obtain ⟨⟨state, hload⟩, hstage⟩ := brings_steps ht he hc hk hrun
  refine ⟨hstage, ?_⟩
  rcases hstage with hwaits | ⟨answer, hended, -⟩
  · -- first all loads come to their end, then the call is resumed
    obtain ⟨n, hn⟩ := ht.moves (steps_moves ht hrun)
    obtain ⟨more, hmore, hcalls, hsettled⟩ := exists_settled hn
    have hclear : .clear ∉ more := by
      intro hmem
      have hrequest := hmore _ hmem
      simp [Step.isRequest] at hrequest
    refine ⟨more ++ [.resume i (.ok ()) (.ok true)], ?_, ?_⟩
    · intro step hstep
      rcases List.mem_append.mp hstep with hold | hlast
      · exact hmore step hold
      · obtain rfl := List.mem_singleton.mp hlast
        rfl
    · have hrun' : .clear ∉ run ++ more := by simp [hrun, hclear]
      obtain ⟨⟨state', hload'⟩, -⟩ := brings_steps ht he hc hk hrun'
      rw [← List.append_assoc, steps_snoc]
      rw [steps_append] at hload' ⊢
      have hwaits' : ((s.steps run).steps more).calls[i]? =
          some (.loading path source language k) := by rw [hcalls, hwaits]
      have hdone := hsettled k _ hload'
      cases state' with
      | failed reason => exact ⟨_, resume_failed hwaits' hload' _ _⟩
      | loaded => exact ⟨_, resume_loaded hwaits' hload' _ _⟩
      | queued => simp [LoadState.remaining] at hdone
      | reading => simp [LoadState.remaining] at hdone
      | ending => simp [LoadState.remaining] at hdone
  · refine ⟨[], by simp, answer, ?_⟩
    rw [List.append_nil, hended]

end Follows

/-! ## Who asks for a grammar -/

/-- A call that asks for a grammar joins a load and waits for it. -/
theorem Seeks.joins {s : Session} {step : Step} {i : Nat} {path source language : String}
    (h : Seeks s step i path source) (hl : Language.ofPath? path = some language) :
    (s.step step).shelf = (s.joinLoad language).1.shelf ∧
      (s.step step).calls[i]? = some (.loading path source language (s.joinLoad language).2) := by
  have hcalls : (s.joinLoad language).1.calls = s.calls := joinLoad_calls s language
  cases h with
  | @ready _ _ located _ _ hg hr =>
    cases hg with
    | parse path source located =>
      have hstep : s.step (.call (.parse path source) located) =
          { (s.joinLoad language).1 with
            calls := (s.joinLoad language).1.calls ++
              [.loading path source language (s.joinLoad language).2] } := by
        simp only [Session.step, call, open?, pursue_parse s hr, seekGrammar_some s hl]
      rw [hstep]
      refine ⟨rfl, ?_⟩
      rw [hcalls]
      exact List.getElem?_concat_length
    | @read _ path located source hc =>
      obtain ⟨hlt, -⟩ := List.getElem?_eq_some_iff.mp hc
      have hstep : s.step (.readSettles i located (.ok source)) =
          (s.joinLoad language).1.setCall i
            (.loading path source language (s.joinLoad language).2) := by
        simp only [Session.step, readSettles, hc, pursue_parse s hr, seekGrammar_some s hl]
      rw [hstep]
      refine ⟨rfl, ?_⟩
      simp only [setCall, hcalls]
      exact List.getElem?_set_self hlt
  | @resumed _ k _ _ setting answer hc ha =>
    obtain ⟨hlt, -⟩ := List.getElem?_eq_some_iff.mp hc
    have hstep : s.step (.resume i setting answer) =
        (s.joinLoad language).1.setCall i
          (.loading path source language (s.joinLoad language).2) := by
      simp only [Session.step, resume, hc, ha, seekGrammar_some s hl]
    rw [hstep]
    refine ⟨rfl, ?_⟩
    simp only [setCall, hcalls]
    exact List.getElem?_set_self hlt

/-- How loads are shared in a session. -/
structure SharesLoads (s : Session) : Prop where
  /-- One load at most reads its file. -/
  one_reads : ∀ (j k : Nat) (one other : String), s.loads[j]? = some ⟨one, .reading⟩ →
    s.loads[k]? = some ⟨other, .reading⟩ → j = k
  /-- One load at most of a language is under way or has succeeded. -/
  one_counts : ∀ (language : String) (j k : Nat) (one other : LoadState),
    s.loads[j]? = some ⟨language, one⟩ → s.loads[k]? = some ⟨language, other⟩ →
    one.isCurrent = true → other.isCurrent = true → j = k
  /-- Whoever asks for a language while a load of it is under way goes by that load. -/
  joined : ∀ (step : Step) (i k : Nat) (path source language : String) (state : LoadState),
    Seeks s step i path source → Language.ofPath? path = some language →
    s.loads[k]? = some ⟨language, state⟩ → state.isPending = true →
    (s.step step).loads = s.loads ∧ Follows (s.step step) i k path source language
  /-- After a load has succeeded there are no other loads of its language, ever. -/
  never_again : ∀ (language : String) (k : Nat), s.loads[k]? = some ⟨language, .loaded⟩ →
    ∀ run : List Step, .clear ∉ run → ∀ (j : Nat) (state : LoadState),
      (s.steps run).loads[j]? = some ⟨language, state⟩ ↔ s.loads[j]? = some ⟨language, state⟩
  /-- If the last load of a language has failed, whoever asks for it next starts a new load and goes
  by that one. -/
  retried : ∀ (step : Step) (i k : Nat) (path source language reason : String),
    Seeks s step i path source → Language.ofPath? path = some language →
    s.loads[k]? = some ⟨language, .failed reason⟩ → (∀ j, k < j → ¬ s.HasLoad j language) →
    (s.step step).loads = s.loads ++ [⟨language, .queued⟩] ∧
      Follows (s.step step) i s.loads.length path source language

/-- **One load for all who ask.** In every run without a clear, whatever the order of the steps and
whichever loads fail, loads are shared in this way. -/
theorem steps_shareLoads (run : List Step) (hrun : .clear ∉ run) :
    SharesLoads (({} : Session).steps run) := by
  obtain ⟨m, htidy⟩ := tidy_steps run
  have hcurrent := current_steps hrun
  have hequipped := equipped_fresh.steps hrun
  have hfollows : ∀ {step : Step} {i k : Nat} {path source language : String},
      Seeks (({} : Session).steps run) step i path source →
      ((({} : Session).steps run).step step).calls[i]? =
        some (.loading path source language k) →
      ((({} : Session).steps run).step step).HasLoad k language →
      Follows ((({} : Session).steps run).step step) i k path source language := by
    intro step i k path source language hseeks hc hk
    obtain ⟨n, hn⟩ := tidy_step htidy step
    exact follows_of_loading hn (hequipped.turn (step_turn _ step) hseeks.ne_clear) hc hk
  constructor
  · intro j k one other hj hk
    exact htidy.reading_le_one hj hk
  · intro language j k one other hj hk hone hother
    exact hcurrent.unique hj hk hone hother
  · intro step i k path source language state hseeks hl hk hpending
    have hlookup := hcurrent.lookup_eq_some hk (LoadState.isCurrent_of_isPending hpending)
    obtain ⟨hshelf, hc⟩ := hseeks.joins hl
    rw [joinLoad_some hlookup] at hshelf hc
    have hloads : ((({} : Session).steps run).step step).loads =
        (({} : Session).steps run).loads := congrArg Shelf.loads hshelf
    exact ⟨hloads, hfollows hseeks hc ⟨state, by rw [hloads]; exact hk⟩⟩
  · intro language k hk more hmore
    exact (hcurrent.loads_kept_moves hk (steps_moves htidy hmore)).2
  · intro step i k path source language reason hseeks hl hk hlast
    have hnone := hcurrent.none_counts hk fun j hj state hstate => hlast j hj ⟨state, hstate⟩
    obtain ⟨hshelf, hc⟩ := hseeks.joins hl
    rw [joinLoad_none (hcurrent.lookup_eq_none hnone)] at hshelf hc
    have hloads : ((({} : Session).steps run).step step).loads =
        (({} : Session).steps run).loads ++ [⟨language, .queued⟩] := congrArg Shelf.loads hshelf
    refine ⟨hloads, hfollows hseeks hc ⟨.queued, ?_⟩⟩
    rw [hloads]
    exact List.getElem?_concat_length

namespace Sample

/-- Two calls ask for one grammar and a third for another one. The file of the first grammar cannot
be read, and the third call's load gets its turn before that is reported. -/
def lostGrammar : List Step :=
  [.call (.parse "A.java" "class A {}") true, .startSettles 0 (.ok ()),
   .resume 0 (.ok ()) (.ok true), .call (.parse "B.java" "class B {}") true, .lockProceeds 0 true,
   .call (.parse "c.py" "class C: pass") true, .grammarSettles 0 (.error "lost"),
   .lockProceeds 0 true, .lockProceeds 0 true, .resume 0 (.ok ()) (.ok true)]

end Sample

/-- Both calls met the same failure or still will, and the next one that asks for the grammar starts
a new load while the other grammar is being read. -/
theorem steps_shareLoads_lost_grammar :
    .clear ∉ Sample.lostGrammar ∧
    (({} : Session).steps Sample.lostGrammar).calls =
      [.ended (.failed (.parseFailed "A.java" "grammar for java unavailable: lost"
        (some ⟨"Error", "lost"⟩))),
       .loading "B.java" "class B {}" "java" 0, .loading "c.py" "class C: pass" "python" 1] ∧
    (({} : Session).steps Sample.lostGrammar).loads =
      [⟨"java", .failed "lost"⟩, ⟨"python", .reading⟩] ∧
    ((({} : Session).steps Sample.lostGrammar).step
      (.call (.parse "D.java" "class D {}") true)).loads =
        [⟨"java", .failed "lost"⟩, ⟨"python", .reading⟩, ⟨"java", .queued⟩] ∧
    Follows ((({} : Session).steps Sample.lostGrammar).step
      (.call (.parse "D.java" "class D {}") true)) 3 2 "D.java" "class D {}" "java" ∧
    Follows ((({} : Session).steps Sample.lostGrammar).step
      (.call (.parse "e.py" "class E: pass") true)) 3 1 "e.py" "class E: pass" "python" := by
  have hclear : .clear ∉ Sample.lostGrammar := by simp [Sample.lostGrammar]
  have hloads : (({} : Session).steps Sample.lostGrammar).loads =
      [⟨"java", .failed "lost"⟩, ⟨"python", .reading⟩] := by decide
  have hshares := steps_shareLoads Sample.lostGrammar hclear
  have hready : (({} : Session).steps Sample.lostGrammar).ready = true := by decide
  have hlast : ∀ j, 0 < j → ¬ (({} : Session).steps Sample.lostGrammar).HasLoad j "java" := by
    rintro j hj ⟨state, hstate⟩
    obtain ⟨j, rfl⟩ := Nat.exists_eq_succ_of_ne_zero (Nat.ne_of_gt hj)
    cases j with
    | zero => simp [hloads] at hstate
    | succ j => simp [hloads] at hstate
  obtain ⟨hnew, hretries⟩ := hshares.retried _ _ 0 _ _ "java" "lost"
    (.ready (.parse "D.java" "class D {}" true) hready) (by decide) (by rw [hloads]; rfl) hlast
  obtain ⟨-, hjoins⟩ := hshares.joined _ _ 1 _ _ "python" .reading
    (.ready (.parse "e.py" "class E: pass" true) hready) (by decide) (by rw [hloads]; rfl) rfl
  refine ⟨hclear, by decide, hloads, ?_, ?_, hjoins⟩
  · rw [hnew, hloads]
    rfl
  · rw [hloads] at hretries
    exact hretries

end Session

end ClassCohesion.Parsing
