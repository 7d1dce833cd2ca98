import Mathlib.Data.List.Induction
import ClassCohesion.Proofs.SessionMoves

/-!
# Engines and the files they give

All calls of a session share one engine, and a clear can delete it while they wait. An engine is
used only while it is alive (`UsedAlive`), and a call that gives a file has set the grammar of its
own language on the engine in the very step in which its text is parsed (`Produced`).

The first is an invariant of the journal, of the number of engines made and of the engine that is
held (`Tended`). For the second, what the stage of a call says is traced back through the run: the
text to what was asked or read, the language to the path and the grammar to a load of that language
(`Grounded`).
-/

namespace ClassCohesion.Parsing

/-- The engine that an event is about. -/
def EngineEvent.engine : EngineEvent → Nat
  | .made e => e
  | .deleted e => e
  | .grammarSet e _ => e
  | .parsed e _ => e

/-- The engine that an event puts to use. -/
def EngineEvent.used? : EngineEvent → Option Nat
  | .grammarSet e _ => some e
  | .parsed e _ => some e
  | _ => none

namespace Session

/-! ## Engines are used while they are alive -/

/-- The engine has been made and not been deleted. -/
def Alive (journal : List EngineEvent) (e : Nat) : Prop := .made e ∈ journal ∧ .deleted e ∉ journal

/-- Whatever uses an engine finds it alive. -/
def UsedAlive (journal : List EngineEvent) : Prop :=
  ∀ before event after e, journal = before ++ event :: after → event.used? = some e →
    Alive before e

theorem UsedAlive.snoc {journal : List EngineEvent} {event : EngineEvent} (h : UsedAlive journal)
    (halive : ∀ e, event.used? = some e → Alive journal e) : UsedAlive (journal ++ [event]) := by
  intro before event' after e hsplit hused
  rcases List.eq_nil_or_concat after with rfl | ⟨after, last, rfl⟩
  · obtain ⟨rfl, hlast⟩ := List.append_inj' hsplit rfl
    obtain rfl := List.singleton_inj.mp hlast
    exact halive e hused
  · have hsplit' : journal ++ [event] = (before ++ event' :: after) ++ [last] := by
      simpa using hsplit
    obtain ⟨rfl, -⟩ := List.append_inj' hsplit' rfl
    exact h before event' after e rfl hused

/-- Engines are numbered as they are made, used while they are alive, and the one that is held is
alive. -/
structure Tended (journal : List EngineEvent) (engines : Nat) (held : Option Nat) : Prop where
  used : UsedAlive journal
  numbered : ∀ event ∈ journal, event.engine < engines
  alive : ∀ e, held = some e → Alive journal e

theorem numbered_snoc {journal : List EngineEvent} {event : EngineEvent} {n m : Nat} (hle : n ≤ m)
    (h : ∀ event ∈ journal, event.engine < n) (hnew : event.engine < m) :
    ∀ event' ∈ journal ++ [event], event'.engine < m := by
  intro event' hmem
  rcases List.mem_append.mp hmem with hold | hlast
  · exact Nat.lt_of_lt_of_le (h event' hold) hle
  · obtain rfl := List.mem_singleton.mp hlast
    exact hnew

namespace Tended

variable {journal : List EngineEvent} {engines e : Nat} {held : Option Nat}

theorem empty : Tended [] 0 none where
  used := by
    intro before event after e hsplit
    simp at hsplit
  numbered := by simp
  alive := by simp

theorem lt (h : Tended journal engines (some e)) : e < engines :=
  h.numbered (.made e) (h.alive e rfl).1

theorem make (h : Tended journal engines held) :
    Tended (journal ++ [.made engines]) (engines + 1) (some engines) where
  used := h.used.snoc (by simp [EngineEvent.used?])
  numbered := numbered_snoc (Nat.le_succ _) h.numbered (Nat.lt_succ_self engines)
  alive := by
    rintro e ⟨⟩
    refine ⟨by simp, fun hdeleted => ?_⟩
    -- a deletion of the new engine would be of one that was made before
    have hold : EngineEvent.deleted engines ∈ journal := by simpa using hdeleted
    exact Nat.lt_irrefl engines (h.numbered _ hold)

theorem delete (h : Tended journal engines (some e)) :
    Tended (journal ++ [.deleted e]) engines none where
  used := h.used.snoc (by simp [EngineEvent.used?])
  numbered := numbered_snoc (Nat.le_refl _) h.numbered h.lt
  alive := by simp

theorem use (h : Tended journal engines (some e)) (event : EngineEvent)
    (hused : event.used? = some e) : Tended (journal ++ [event]) engines (some e) where
  used := h.used.snoc fun e' he' => h.alive e' (hused.symm.trans he')
  numbered := by
    have hengine : event.engine = e := by
      cases event <;> simp_all [EngineEvent.used?, EngineEvent.engine]
    exact numbered_snoc (Nat.le_refl _) h.numbered (hengine ▸ h.lt)
  alive := by
    rintro e' ⟨⟩
    obtain ⟨hmade, hdeleted⟩ := h.alive e rfl
    refine ⟨List.mem_append_left _ hmade, fun hmem => ?_⟩
    rcases List.mem_append.mp hmem with hold | hlast
    · exact hdeleted hold
    · obtain rfl := List.mem_singleton.mp hlast
      simp [EngineEvent.used?] at hused

end Tended

/-- The engines of a session are tended. -/
def TendsEngines (s : Session) : Prop := Tended s.journal s.engines (s.engine.map Engine.number)

theorem KeepsEngine.tendsEngines {s s' : Session} (h : KeepsEngine s s') (hs : TendsEngines s) :
    TendsEngines s' := by
  unfold TendsEngines
  rw [h.journal, h.engines, h.engine]
  exact hs

theorem clear_tendsEngines {s : Session} (hs : TendsEngines s) : TendsEngines s.clear := by
  unfold TendsEngines at hs ⊢
  rw [clear_engines, clear_engine]
  cases he : s.engine with
  | none =>
    rw [he] at hs
    simpa [clear, he] using hs
  | some e =>
    rw [he] at hs
    simpa [clear, he, note] using hs.delete

theorem Uses.tendsEngines {s s' : Session} {e : Engine} {grammar source language : String}
    {answer : Answer} (h : Uses s e grammar source language answer s') (he : s.engine = some e)
    (hs : TendsEngines s) : TendsEngines s' := by
  unfold TendsEngines at hs ⊢
  rw [he] at hs
  obtain ⟨g, hg⟩ := h.engine
  rw [hg, h.engines]
  have hset := hs.use (.grammarSet e.number grammar) rfl
  rcases h.journal with ⟨hj, -⟩ | ⟨hj, -⟩
  · rw [hj]
    exact hset
  · have hparsed := hset.use (.parsed e.number source) rfl
    rw [hj]
    simpa using hparsed

theorem Turn.tendsEngines {s s' : Session} {step : Step} (h : Turn s step s')
    (hs : TendsEngines s) : TendsEngines s' := by
  cases h with
  | quiet hstep keeps calls => exact keeps.tendsEngines hs
  | cleared => exact clear_tendsEngines hs
  | succeeded hk => exact hs.make
  | failed message hk => exact hs
  | reads hl keeps puts => exact keeps.tendsEngines hs
  | joins hg hr hk keeps puts => exact keeps.tendsEngines hs
  | opens hg hr hn opens puts =>
    unfold TendsEngines
    rw [opens.journal, opens.engines, opens.engine]
    exact hs
  | seeks hseeks hl hk keeps puts => exact keeps.tendsEngines hs
  | ends he keeps puts => exact keeps.tendsEngines hs
  | uses hc hk he uses puts => exact uses.tendsEngines he hs

theorem steps_tendsEngines (run : List Step) : TendsEngines (({} : Session).steps run) :=
  steps_induction Tended.empty (fun s step hs => (step_turn s step).tendsEngines hs) run

/-! ## Loads keep their languages -/

theorem clear_keepsLoads (s : Session) : KeepsLoads s s.clear := by
  refine .of_eq ?_ (List.nil_subset _)
  unfold clear
  split <;> rfl

theorem startSettles_keepsLoads (s : Session) (k : Nat) (outcome : Except String Unit) :
    KeepsLoads s (s.startSettles k outcome) := by
  unfold startSettles
  split <;> exact .of_eq rfl (List.Subset.refl _)

theorem seekGrammar_keepsLoads (s : Session) (path source : String) :
    KeepsLoads s (s.seekGrammar path source).1 := by
  cases hl : Language.ofPath? path with
  | none =>
    rw [seekGrammar_none s hl]
    exact .refl s
  | some language =>
    rw [seekGrammar_some s hl]
    exact joinLoad_keepsLoads s language

theorem pursue_keepsLoads (s : Session) (located : Bool) (goal : Goal) :
    KeepsLoads s (s.pursue located goal).1 := by
  cases hr : s.ready with
  | true =>
    cases goal with
    | start =>
      rw [pursue_start s hr]
      exact .refl s
    | parse path source =>
      rw [pursue_parse s hr]
      exact seekGrammar_keepsLoads s path source
  | false =>
    cases hk : s.starting with
    | some k =>
      rw [pursue_joins s hr hk]
      exact .refl s
    | none =>
      rw [pursue_opens s hr hk]
      exact .of_eq rfl (List.Subset.refl _)

theorem call_keepsLoads (s : Session) (r : Request) (located : Bool) :
    KeepsLoads s (s.call located r) := by
  refine KeepsLoads.put ?_ _
  cases r with
  | start => exact pursue_keepsLoads s located .start
  | parse path source => exact pursue_keepsLoads s located (.parse path source)
  | parseFile path =>
    show KeepsLoads s (if Language.isSupported path then (s, Stage.reading path)
      else (s, .ended .nothing)).1
    split <;> exact .refl s

theorem readSettles_keepsLoads (s : Session) (i : Nat) (located : Bool)
    (outcome : Except ReadFailure String) :
    KeepsLoads s (s.readSettles i located outcome) := by
  unfold readSettles
  split
  · exact (pursue_keepsLoads s located _).put _
  · exact (KeepsLoads.refl s).put _
  · exact .refl s

theorem useEngine_keepsLoads (s : Session) (path source language grammar : String)
    (setting : Except String Unit) (reply : Except String Bool) :
    KeepsLoads s (s.useEngine path source language grammar setting reply).1 := by
  unfold useEngine
  cases he : s.engine with
  | none => exact .refl s
  | some e =>
    cases setting with
    | error message => exact .of_eq rfl (List.Subset.refl _)
    | ok =>
      simp only
      split <;> exact .of_eq rfl (List.Subset.refl _)

theorem resume_keepsLoads (s : Session) (i : Nat) (setting : Except String Unit)
    (reply : Except String Bool) : KeepsLoads s (s.resume i setting reply) := by
  unfold resume
  cases hc : s.calls[i]? with
  | none => exact .refl s
  | some stage =>
    cases stage with
    | reading path => exact .refl s
    | ended answer => exact .refl s
    | starting goal k =>
      cases ha : s.attempts[k]? with
      | none => simpa only [ha] using .refl s
      | some attempt =>
        cases attempt with
        | pending => simpa only [ha] using .refl s
        | failed fault =>
          simp only [ha]
          exact (KeepsLoads.refl s).put _
        | succeeded =>
          simp only [ha]
          cases goal with
          | start => exact (KeepsLoads.refl s).put _
          | parse path source =>
            show KeepsLoads s ((s.seekGrammar path source).1.setCall i _)
            exact (seekGrammar_keepsLoads s path source).put _
    | loading path source language k =>
      simp only
      split
      · exact (useEngine_keepsLoads s path source language _ setting reply).put _
      · exact (KeepsLoads.refl s).put _
      · exact .refl s

theorem step_keepsLoads (s : Session) (step : Step) : KeepsLoads s (s.step step) := by
  cases step with
  | call r located => exact call_keepsLoads s r located
  | clear => exact clear_keepsLoads s
  | startSettles k outcome => exact startSettles_keepsLoads s k outcome
  | readSettles i located outcome => exact readSettles_keepsLoads s i located outcome
  | lockProceeds i located => exact (lockProceeds_aside s i located).loads
  | grammarSettles k outcome => exact (grammarSettles_aside s k outcome).loads
  | resume i setting reply => exact resume_keepsLoads s i setting reply

/-! ## Where the file of a call comes from -/

/-- What was asked of the parser in a run. The calls have the numbers of their requests. -/
def requests (run : List Step) : List Request := run.filterMap Step.request?

theorem requests_snoc (run : List Step) (step : Step) :
    requests (run ++ [step]) = requests run ++ step.request?.toList := by
  unfold requests
  rw [List.filterMap_append]
  cases h : step.request? <;> simp [h]

theorem requests_kept {run : List Step} {i : Nat} {r : Request} (step : Step)
    (h : (requests run)[i]? = some r) : (requests (run ++ [step]))[i]? = some r := by
  obtain ⟨hlt, -⟩ := List.getElem?_eq_some_iff.mp h
  rw [requests_snoc, List.getElem?_append_left hlt, h]

theorem requests_new (run : List Step) {step : Step} {r : Request} (h : step.request? = some r) :
    (requests (run ++ [step]))[(requests run).length]? = some r := by
  rw [requests_snoc, h]
  exact List.getElem?_concat_length

/-- The text of a call that reads a file arrived in the run. -/
def ReadBy (run : List Step) (i : Nat) (path source : String) : Prop :=
  ∃ before located after, run = before ++ .readSettles i located (.ok source) :: after ∧
    (({} : Session).steps before).calls[i]? = some (.reading path)

/-- A call is to parse this text, which was given with it or read for it, as the file at this
path. -/
inductive Wants (run : List Step) (i : Nat) (path source : String) : Prop where
  | given (hr : (requests run)[i]? = some (.parse path source))
  | read (hr : (requests run)[i]? = some (.parseFile path)) (h : ReadBy run i path source)

/-- A call for a path gave a file in one of its own steps. In that step the grammar of the path's
language was set on the engine of the moment and the text was parsed by that engine, with nothing in
between, and the tree is of this grammar and this text. -/
structure Produced (run : List Step) (i : Nat) (path : String) (file : Parsed) : Prop where
  language : Language.ofPath? path = some file.language
  tree : file.tree = ⟨file.language, file.source⟩
  moment : ∃ before setting reply after e, run = before ++ .resume i setting reply :: after ∧
    (({} : Session).steps before).engine = some e ∧
    ((({} : Session).steps before).resume i setting reply).journal =
      (({} : Session).steps before).journal ++
        [.grammarSet e.number file.language, .parsed e.number file.source] ∧
    ((({} : Session).steps before).resume i setting reply).calls[i]? = some (.ended (.parsed file))

section Later

variable {run : List Step} {i : Nat} {path source : String}

theorem Wants.later (h : Wants run i path source) (step : Step) :
    Wants (run ++ [step]) i path source := by
  cases h with
  | given hr => exact .given (requests_kept step hr)
  | read hr hread =>
    obtain ⟨before, located, after, rfl, hc⟩ := hread
    exact .read (requests_kept step hr) ⟨before, located, after ++ [step], by simp, hc⟩

theorem Produced.later {file : Parsed} (h : Produced run i path file) (step : Step) :
    Produced (run ++ [step]) i path file := by
  obtain ⟨before, setting, reply, after, e, rfl, hmoment⟩ := h.moment
  exact ⟨h.language, h.tree, before, setting, reply, after ++ [step], e, by simp, hmoment⟩

end Later

/-- What the stage of a call says is borne out by the run. -/
def Grounded (run : List Step) (i : Nat) : Stage → Prop
  | .reading path => (requests run)[i]? = some (.parseFile path)
  | .starting goal _ => ∀ path source, goal = .parse path source → Wants run i path source
  | .loading path source language k =>
    Wants run i path source ∧ Language.ofPath? path = some language ∧
      (({} : Session).steps run).HasLoad k language
  | .ended answer =>
    ∀ file, answer = .parsed file → ∃ path, Wants run i path file.source ∧ Produced run i path file

theorem Grounded.later {run : List Step} {i : Nat} {stage : Stage} (h : Grounded run i stage)
    (step : Step) : Grounded (run ++ [step]) i stage := by
  cases stage with
  | reading path => exact requests_kept step h
  | starting goal k => exact fun path source hgoal => (h path source hgoal).later step
  | loading path source language k =>
    obtain ⟨hwants, hl, hload⟩ := h
    refine ⟨hwants.later step, hl, ?_⟩
    rw [steps_snoc]
    exact (step_keepsLoads _ step).hasLoad hload
  | ended answer =>
    intro file hfile
    obtain ⟨path, hwants, hproduced⟩ := h file hfile
    exact ⟨path, hwants.later step, hproduced.later step⟩

/-- Each request has its call, and the stages of all calls are grounded. -/
structure Traced (run : List Step) : Prop where
  length : (({} : Session).steps run).calls.length = (requests run).length
  registered : Registered (({} : Session).steps run)
  grounded : ∀ i stage, (({} : Session).steps run).calls[i]? = some stage → Grounded run i stage

section Traced

variable {run : List Step} {step : Step} {i : Nat} {path source : String}

theorem Goes.wants {located : Bool} {goal : Goal}
    (h : Goes (({} : Session).steps run) step i located goal) (ht : Traced run)
    (hgoal : goal = .parse path source) : Wants (run ++ [step]) i path source := by
  subst hgoal
  cases h with
  | parse path source located =>
    rw [ht.length]
    exact .given (requests_new run rfl)
  | read located source hc =>
    exact .read (requests_kept _ (ht.grounded i _ hc)) ⟨run, located, [], rfl, hc⟩

theorem Seeks.wants (h : Seeks (({} : Session).steps run) step i path source) (ht : Traced run) :
    Wants (run ++ [step]) i path source := by
  cases h with
  | ready hg hr => exact hg.wants ht rfl
  | resumed hc ha => exact (ht.grounded i _ hc path source rfl).later _

theorem Ends.ne_parsed {s : Session} {answer : Answer} (h : Ends s step i answer) (file : Parsed) :
    answer ≠ .parsed file := by
  cases h <;> simp

/-- The call that uses the engine gives a file of its own language, since the grammar that it sets
comes from a load of that language. -/
theorem Uses.grounded {s' : Session} {k : Nat} {language grammar : String} {e : Engine}
    {answer : Answer} {setting : Except String Unit} {reply : Except String Bool}
    (h : Uses (({} : Session).steps run) e grammar source language answer s') (ht : Traced run)
    (hs' : s' = (({} : Session).steps run).resume i setting reply)
    (hc : (({} : Session).steps run).calls[i]? = some (.loading path source language k))
    (hk : (({} : Session).steps run).loads[k]? = some ⟨grammar, .loaded⟩)
    (he : (({} : Session).steps run).engine = some e)
    (hi : s'.calls[i]? = some (.ended answer)) :
    Grounded (run ++ [.resume i setting reply]) i (.ended answer) := by
  intro file hfile
  obtain ⟨hwants, hl, state, hload⟩ := ht.grounded i _ hc
  obtain ⟨rfl, -⟩ := Load.mk.inj (Option.some.inj (hk.symm.trans hload))
  rcases h.journal with ⟨-, fault, hfailed⟩ | ⟨hjournal, hgives⟩
  · rw [hfile] at hfailed
    cases hfailed
  · obtain rfl := hgives file hfile
    rw [hs', hfile] at hi
    rw [hs'] at hjournal
    exact ⟨path, hwants.later _, hl, rfl, run, setting, reply, [], e, rfl, he, hjournal, hi⟩

theorem Turn.grounded {s' : Session} (h : Turn (({} : Session).steps run) step s')
    (hs' : s' = (({} : Session).steps run).step step) (ht : Traced run) {j : Nat} {stage : Stage}
    (hj : s'.calls[j]? = some stage) : Grounded (run ++ [step]) j stage := by
  have hold : ∀ {stage : Stage}, (({} : Session).steps run).calls[j]? = some stage →
      Grounded (run ++ [step]) j stage := fun hc => (ht.grounded j _ hc).later step
  have hput : ∀ {i : Nat} {new : Stage}, Puts (({} : Session).steps run).calls i new s'.calls →
      Grounded (run ++ [step]) i new → Grounded (run ++ [step]) j stage := by
    intro i new puts hnew
    rcases puts.cases hj with ⟨rfl, rfl⟩ | ⟨-, hc⟩
    · exact hnew
    · exact hold hc
  -- what is left is the one stage that the step puts
  cases h with
  | quiet hstep keeps calls => exact hold (calls ▸ hj)
  | cleared => exact hold (clear_calls _ ▸ hj)
  | succeeded hk => exact hold hj
  | failed message hk => exact hold hj
  | reads hl keeps puts =>
    refine hput puts ?_
    rw [ht.length]
    exact requests_new run rfl
  | joins hg hr hk keeps puts => exact hput puts fun path source => hg.wants ht
  | opens hg hr hn opens puts => exact hput puts fun path source => hg.wants ht
  | seeks hs hl hk keeps puts =>
    refine hput puts ⟨hs.wants ht, hl, ?_⟩
    rw [steps_snoc, ← hs']
    exact hk ht.registered
  | ends he keeps puts => exact hput puts fun file hfile => absurd hfile (he.ne_parsed file)
  | uses hc hk he uses puts => exact hput puts (uses.grounded ht hs' hc hk he puts.self)

end Traced

theorem Traced.snoc {run : List Step} (h : Traced run) (step : Step) : Traced (run ++ [step]) := by
  have hturn := step_turn (({} : Session).steps run) step
  constructor
  · rw [steps_snoc, hturn.length, h.length, requests_snoc, List.length_append]
  · rw [steps_snoc]
    exact (step_keepsLoads _ step).registered h.registered
  · intro i stage hi
    rw [steps_snoc] at hi
    exact hturn.grounded rfl h hi

theorem traced (run : List Step) : Traced run := by
  induction run using List.reverseRecOn with
  | nil => exact ⟨rfl, by simp [Registered, steps], by simp [steps]⟩
  | append_singleton run step ih => exact ih.snoc step

/-- **Files in their own grammar.** In every run, engines are used only while they are alive, and a
call that gives a file gives that of its own text, in the language of its path, with a tree that was
made right after the grammar of this language was set. -/
theorem parsed_in_own_grammar (run : List Step) :
    UsedAlive (({} : Session).steps run).journal ∧
    (∀ i path source file, (requests run)[i]? = some (.parse path source) →
      (({} : Session).steps run).calls[i]? = some (.ended (.parsed file)) →
        file.source = source ∧ Produced run i path file) ∧
    ∀ i path file, (requests run)[i]? = some (.parseFile path) →
      (({} : Session).steps run).calls[i]? = some (.ended (.parsed file)) →
        ReadBy run i path file.source ∧ Produced run i path file := by
  have hfile := fun i file hc => (traced run).grounded i (.ended (.parsed file)) hc file rfl
  refine ⟨(steps_tendsEngines run).used, ?_, ?_⟩
  · intro i path source file hr hc
    obtain ⟨path', hwants, hproduced⟩ := hfile i file hc
    cases hwants with
    | given hr' =>
      obtain ⟨rfl, rfl⟩ := Request.parse.inj (Option.some.inj (hr.symm.trans hr'))
      exact ⟨rfl, hproduced⟩
    | read hr' hread => simp [hr] at hr'
  · intro i path file hr hc
    obtain ⟨path', hwants, hproduced⟩ := hfile i file hc
    cases hwants with
    | given hr' => simp [hr] at hr'
    | read hr' hread =>
      obtain rfl := Request.parseFile.inj (Option.some.inj (hr.symm.trans hr'))
      exact ⟨hread, hproduced⟩

namespace Sample

/-- Two files in different languages are under way at once. The first is parsed; then the session is
cleared and started anew, and the second is parsed on the new engine. -/
def clearedBetween : List Step :=
  [.call (.parse "A.java" "class A {}") true, .call (.parseFile "b.py") true,
    .startSettles 0 (.ok ()), .resume 0 (.ok ()) (.ok true),
    .readSettles 1 true (.ok "class B: pass"),
    .lockProceeds 0 true, .grammarSettles 0 (.ok ()), .lockProceeds 0 true, .lockProceeds 0 true,
    .resume 0 (.ok ()) (.ok true),
    .clear, .call .start true, .grammarSettles 1 (.ok ()), .startSettles 1 (.ok ()),
    .lockProceeds 0 true, .resume 1 (.ok ()) (.ok true)]

def javaFile : Parsed := ⟨⟨"java", "class A {}"⟩, "java", "class A {}"⟩

def pythonFile : Parsed := ⟨⟨"python", "class B: pass"⟩, "python", "class B: pass"⟩

end Sample

theorem parsed_in_own_grammar_cleared_between :
    (({} : Session).steps Sample.clearedBetween).journal =
      [.made 0, .grammarSet 0 "java", .parsed 0 "class A {}", .deleted 0,
        .made 1, .grammarSet 1 "python", .parsed 1 "class B: pass"] ∧
    UsedAlive (({} : Session).steps Sample.clearedBetween).journal ∧
    Produced Sample.clearedBetween 0 "A.java" Sample.javaFile ∧
    ReadBy Sample.clearedBetween 1 "b.py" Sample.pythonFile.source ∧
    Produced Sample.clearedBetween 1 "b.py" Sample.pythonFile := by
  obtain ⟨halive, hparse, hparseFile⟩ := parsed_in_own_grammar Sample.clearedBetween
  refine ⟨by decide, halive, ?_, ?_⟩
  · exact (hparse 0 "A.java" "class A {}" Sample.javaFile (by decide) (by decide)).2
  · exact hparseFile 1 "b.py" Sample.pythonFile (by decide) (by decide)

end Session

end ClassCohesion.Parsing
