import ClassCohesion.Proofs.LateFailure
import ClassCohesion.Proofs.PoolStarts

/-!
# Files that fail early

A file that fails in the first phase is not among the survivors and has no facts in the graph, so
nothing of it gets into the second phase. The report differs from the one without the file by the
record of why it was skipped.

- `Replies.facts_eq_error_iff`: the four ways to fail early.
- `Replies.graph_without_early`, `Replies.survivors_without_early`: what the second phase is given
  does not change if the file is left out.
- `survivor_of_started`, `passes_of_started`: what is handed to the parser, in the second phase and in
  the first.
-/

namespace ClassCohesion.Analysis

open Pool (World startedOf)

variable {σ : Type}

namespace Replies

/-- The size of a file does not keep it from the parser. -/
def Passes (r : Replies) (options : Options) (path : String) : Prop :=
  Number.le options.bounded.maxFileSize 0 = true ∨
    ∃ n, r.size path = .ok n ∧ Number.lt options.bounded.maxFileSize n = false

/-- How a file fails in the first phase: its size is not to be had or over the limit, the parser does
not get through it, or its tree cannot be read. -/
inductive FailsEarly (r : Replies) (options : Options) (path : String) : Problem → Prop where
  | unsized {p : Problem} (hl : Number.le options.bounded.maxFileSize 0 = false)
      (hs : r.size path = .error p) : FailsEarly r options path p
  | tooLarge {n : Number} (hl : Number.le options.bounded.maxFileSize 0 = false)
      (hs : r.size path = .ok n) (hn : Number.lt options.bounded.maxFileSize n = true) :
      FailsEarly r options path (.fault (.fileTooLarge path n options.bounded.maxFileSize))
  | thrown {p : Problem} (hpasses : r.Passes options path) (hv : r.first path = .error p) :
      FailsEarly r options path p
  | flawed {source : Source} {p : Problem} (hpasses : r.Passes options path)
      (hv : r.first path = .ok (some source)) (hflaw : source.flaw = some p) :
      FailsEarly r options path p

variable {r : Replies} {host : Host} {options : Options} {files : List String} {f path : String}
  {p : Problem}

/-! ## Failing early -/

theorem starts_survey_iff :
    Pool.Starts (survey host options.bounded) (World.const (fun path => Thrown.lift (r.size path))
      (fun path => Thrown.lift (r.first path))) path ↔ r.Passes options path := by
  constructor
  · intro h
    cases h with
    | unlimited hl => exact .inl hl
    | within hl ha hn => exact .inr ⟨_, lift_eq_ok ha, hn⟩
  · rintro (hl | ⟨n, ha, hn⟩)
    · exact .unlimited hl
    · cases hl : Number.le options.bounded.maxFileSize 0 with
      | true => exact .unlimited hl
      | false => exact .within (s := ()) hl (congrArg Thrown.lift ha) hn

theorem facts_of_passes (h : r.Passes options path) :
    r.facts host options path =
      Thrown.lift ((r.first path).bind (read (FileFacts.ofSource path))) := by
  rw [facts, Pool.outcome_of_starts (starts_survey_iff.mpr h)]
  show (Thrown.lift (r.first path)).bind _ = _
  cases r.first path <;> rfl

/-- A file that passes fails on its call or at its tree. -/
theorem failsEarly_of_passes (h : r.Passes options path)
    (hread : (r.first path).bind (read (FileFacts.ofSource path)) = .error p) :
    r.FailsEarly options path p := by
  cases hv : r.first path with
  | error q =>
    rw [hv] at hread
    cases hread
    exact .thrown h hv
  | ok source =>
    rw [hv] at hread
    change read (FileFacts.ofSource path) source = .error p at hread
    unfold read at hread
    split at hread
    · next q hflaw =>
      cases hread
      obtain ⟨tree, rfl, htree⟩ := Option.bind_eq_some_iff.mp hflaw
      exact .flawed h hv htree
    · cases hread

theorem facts_eq_error_iff :
    r.facts host options path = .error (.problem p) ↔ r.FailsEarly options path p := by
  have hunsized : ∀ {q : Problem}, Number.le options.bounded.maxFileSize 0 = false →
      r.size path = .error q → r.facts host options path = .error (.problem q) := by
    intro q hl hs
    simp [facts, Pool.Job.outcome, survey, hl, hs, Thrown.lift, Except.mapError]
  have htooLarge : ∀ {n : Number}, Number.le options.bounded.maxFileSize 0 = false →
      r.size path = .ok n → Number.lt options.bounded.maxFileSize n = true →
      r.facts host options path =
        .error (.problem (.fault (.fileTooLarge path n options.bounded.maxFileSize))) := by
    intro n hl hs hn
    simp [facts, Pool.Job.outcome, survey, hl, hs, hn, Thrown.lift, Except.mapError]
  constructor
  · intro h
    by_cases hpasses : r.Passes options path
    · rw [facts_of_passes hpasses] at h
      exact failsEarly_of_passes hpasses (lift_eq_error h)
    · have hl : Number.le options.bounded.maxFileSize 0 = false :=
        Bool.eq_false_iff.mpr fun hl => hpasses (.inl hl)
      cases hs : r.size path with
      | error q =>
        rw [hunsized hl hs] at h
        cases h
        exact .unsized hl hs
      | ok n =>
        have hn : Number.lt options.bounded.maxFileSize n = true :=
          Bool.eq_true_of_not_eq_false fun hn => hpasses (.inr ⟨n, hs, hn⟩)
        rw [htooLarge hl hs hn] at h
        cases h
        exact .tooLarge hl hs hn
  · intro h
    cases h with
    | unsized hl hs => exact hunsized hl hs
    | tooLarge hl hs hn => exact htooLarge hl hs hn
    | thrown hpasses hv =>
      rw [facts_of_passes hpasses, hv]
      rfl
    | flawed hpasses hv hflaw =>
      rw [facts_of_passes hpasses, hv]
      simp [Except.bind, read, hflaw, Thrown.lift, Except.mapError]

/-! ## Leaving the file out -/

theorem filterMap_without {γ : Type} {g : String → Option γ} (hg : g f = none)
    (paths : List String) : (without paths f).filterMap g = paths.filterMap g := by
  rw [List.filterMap_eq_flatMap_toList, List.filterMap_eq_flatMap_toList]
  exact flatMap_without (by rw [hg]; rfl) paths

theorem perm_cons_without {paths : List String} (hnd : paths.Nodup) (hf : f ∈ paths) :
    paths.Perm (f :: without paths f) := by
  have hsplit := List.perm_cons_erase hf
  rw [hnd.erase_eq_filter] at hsplit
  refine hsplit.trans (.of_eq (congrArg (f :: ·) (List.filter_congr fun path _ => ?_)))
  rw [bne, beq_eq_decide, decide_not]

section Early

variable {root : String} (hroot : options.projectRoot = some root)
  (hearly : r.facts host options f = .error (.problem p))

include hroot hearly

theorem survivors_without_early :
    r.survivors host options (without files f) = r.survivors host options files := by
  rw [survivors_without hroot, without, List.filter_eq_self]
  intro path hpath
  obtain ⟨-, hok⟩ := List.mem_filter.mp hpath
  have hne : path ≠ f := by
    rintro rfl
    rw [hearly] at hok
    cases hok
  exact decide_eq_true hne

theorem graph_without_early :
    r.graph host options (without files f) = r.graph host options files := by
  rw [graph, candidates_without hroot, filterMap_without (by rw [hearly]; rfl)]
  rfl

theorem measured_without_early :
    r.measured host options (without files f) = r.measured host options files := by
  rw [measured, survivors_without_early hroot hearly, graph_without_early hroot hearly]
  rfl

end Early

theorem path_of_mem_skipped {skip : SkippedFile} (h : skip ∈ r.skipped host options files) :
    skip.path ∈ candidates host options files := by
  obtain ⟨path, hpath, hskip⟩ := List.mem_filterMap.mp h
  obtain ⟨p, -, rfl⟩ := Option.map_eq_some_iff.mp hskip
  exact hpath

theorem skipped_without {root : String} (hroot : options.projectRoot = some root) :
    r.skipped host options (without files f) =
      (r.skipped host options files).filter (·.path ≠ f) := by
  rw [skipped, skipped, candidates_without hroot, without, List.filterMap_filter,
    List.filter_filterMap]
  refine List.filterMap_congr fun path _ => ?_
  cases r.problem host options path with
  | none => simp
  | some p => by_cases hne : path = f <;> simp [hne, skippedFile, Option.filter]

theorem skipped_perm_cons {root : String} (hroot : options.projectRoot = some root)
    (hearly : r.facts host options f = .error (.problem p)) (hnd : files.Nodup)
    (hf : f ∈ candidates host options files) :
    (r.skipped host options files).Perm
      (skippedFile host (f, p.asError) :: r.skipped host options (without files f)) := by
  rw [skipped, skipped, candidates_without hroot]
  refine ((perm_cons_without (hnd.filter _) hf).filterMap _).trans (.of_eq ?_)
  rw [List.filterMap_cons, problem, hearly]
  rfl

/-- The order of the other skipped files does not change. -/
theorem report_skipped_without {root : String} (hroot : options.projectRoot = some root)
    (hpaths : ∀ a ∈ candidates host options files, ∀ b ∈ candidates host options files,
      Text.collationLe a b → Text.collationLe b a → a = b) :
    (r.report host options files).skipped.filter (·.path ≠ f) =
      (r.report host options (without files f)).skipped := by
  show ((r.skipped host options files).mergeSort _).filter _ =
    (r.skipped host options (without files f)).mergeSort _
  rw [skipped_without hroot]
  exact filter_mergeSort (fun a b c : SkippedFile => Text.collationLe_trans a.path b.path c.path)
    (fun a b => Text.collationLe_total a.path b.path) (skipped_anti hpaths) _

end Replies

/-! ## What is handed to the parser -/

theorem announce_starts (skipped : List (String × Problem)) :
    (announce skipped).1.filterMap startedOf = [] := by
  rw [announce_eq]
  simp [List.filterMap_map, Function.comp_def, startedOf]

section

variable {host : Host} {world : World σ (Option Source)} {options : Options} {files : List String}
  {s : σ} {r : Replies} {f root : String} {p : Problem} {c c' : Choices}

/-- The calls of a run are those of the first phase and then those of the second. -/
theorem run_trace_starts (hnd : files.Nodup) (hw : r.Given world s)
    (hc : c.Complete host world options files s) :
    (run host world options files (.ok ()) (some c) s).2.trace.filterMap startedOf =
      (surveyRun host world options files s c.first).2.starts ++
        (measureRun host world options files s c).2.starts := by
  have hlog (entry : Log.Entry) : [Pool.Event.logged entry].filterMap startedOf = [] := rfl
  rw [run_eq_conclude (Replies.surveyRun_accepted hnd hw hc)]
  simp only [conclude, (Replies.measureRun_outcomes hnd hw hc).accepted, startEvent,
    List.filterMap_append, announce_starts, hlog, List.nil_append, List.append_nil]
  rfl

theorem passes_of_started (hnd : files.Nodup) (hw : r.Given world s) {is : List Nat} {path : String}
    (hp : path ∈ (surveyRun host world options files s is).2.starts) : r.Passes options path :=
  Replies.starts_survey_iff.mp (Pool.run_starts_fixed (hnd.filter _) (hw.fixed_survey _) hp)

theorem survivor_of_started (hnd : files.Nodup) (hw : r.Given world s)
    (hc : c.Complete host world options files s) {path : String}
    (hp : path ∈ (measureRun host world options files s c).2.starts) :
    path ∈ r.survivors host options files := by
  have hstarts := Pool.run_starts hp
  rw [Replies.survivorsOf_eq hnd hw hc.first] at hstarts
  exact hstarts.1

/-! ## With and without a file -/

end

namespace Sample

/-- Files of more than ten bytes are skipped. -/
def limited : Options := { options with maxFileSize := 10 }

/-- All files can be read, but that of the dog is large. -/
def heavy : Replies where
  size path := if path = "/p/Dog.java" then .ok 100 else .ok 1
  first := reply
  second := reply

def tooHeavy : Problem := .fault (.fileTooLarge "/p/Dog.java" 100 10)

theorem heavy_failsEarly : heavy.FailsEarly limited "/p/Dog.java" tooHeavy :=
  .tooLarge (by decide) rfl (by decide)

theorem heavy_not_passes : ¬ heavy.Passes limited "/p/Dog.java" := by
  rintro (hl | ⟨n, hs, hn⟩)
  · exact absurd hl (by decide)
  · cases hs
    exact absurd hn (by decide)

end Sample

end ClassCohesion.Analysis
