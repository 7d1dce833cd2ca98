import ClassCohesion.Analysis.Basic
import ClassCohesion.Proofs.PoolLedger

/-!
# The phases of an analysis

An analysis is two pools, one after the other: the survey and, unless that is rejected, the
measurement of its survivors with the graph that it gave. The choices of an analysis are complete if
they are an order of both (`Choices.Complete`).

- `run_eq`: what a run with choices comes to, in terms of the ends of its two pools.
- `exists_complete_inOrder`: the run without choices is one with complete choices.
- `Begun.complete`: an analysis that has begun comes to an end, however its workers go on.
-/

namespace ClassCohesion.Analysis

open Pool (World Order Steps launch progressOf)

variable {σ : Type}

/-- The options that an analysis goes by. No size limit is below zero. -/
def Options.bounded (options : Options) : Options :=
  { options with maxFileSize := Number.max 0 options.maxFileSize }

section

variable (host : Host) (world : World σ (Option Source)) (options : Options)
  (files : List String) (s : σ)

/-- The end of the first phase. -/
def surveyRun (choices : List Nat) : σ × Pool (Option Source) FileFacts :=
  Pool.run (survey host options.bounded) world options.concurrency
    (candidates host options files) choices s

/-- The job of the second phase after a first one. -/
def measureAfter (first : Pool (Option Source) FileFacts) :
    Pool.Job (Option Source) FileClasses :=
  measure host (graphOf (surveyed (candidates host options files) first)) first.trees
    (announce first.errors).2

/-- The files of the second phase after a first one. -/
def survivorsOf (first : Pool (Option Source) FileFacts) : List String :=
  (surveyed (candidates host options files) first).map FileFacts.file

/-- The end of the second phase. -/
def measureRun (c : Choices) : σ × Pool (Option Source) FileClasses :=
  let first := surveyRun host world options files s c.first
  Pool.run (measureAfter host options files first.2) world options.concurrency
    (survivorsOf host options files first.2) c.second first.1

/-- The beginning of the first phase. -/
def surveyStart : σ × Pool (Option Source) FileFacts :=
  (s, launch (survey host options.bounded) options.concurrency (candidates host options files))

/-- The beginning of the second phase after a first one. -/
def measureStart (first : σ × Pool (Option Source) FileFacts) :
    σ × Pool (Option Source) FileClasses :=
  (first.1, launch (measureAfter host options files first.2) options.concurrency
    (survivorsOf host options files first.2))

/-- The choices let a busy worker go on each, until there is none, in both phases. There is no second
phase if the first is rejected. -/
structure Choices.Complete (c : Choices) : Prop where
  first : Order (survey host options.bounded) world (surveyStart host options files s) c.first
  second : (surveyRun host world options files s c.first).2.rejected = none →
    Order (measureAfter host options files (surveyRun host world options files s c.first).2) world
      (measureStart host options files (surveyRun host world options files s c.first)) c.second

/-- The choices let a busy worker go on each; the analysis may still be in either phase. -/
inductive Begun : Choices → Prop where
  | first {is : List Nat}
      (h : Steps (survey host options.bounded) world (surveyStart host options files s) is) :
      Begun ⟨is, []⟩
  | second {is js : List Nat}
      (hf : Order (survey host options.bounded) world (surveyStart host options files s) is)
      (hr : (surveyRun host world options files s is).2.rejected = none)
      (h : Steps (measureAfter host options files (surveyRun host world options files s is).2)
        world (measureStart host options files (surveyRun host world options files s is)) js) :
      Begun ⟨is, js⟩

end

variable {host : Host} {world : World σ (Option Source)} {options : Options}
  {files : List String} {s : σ}

/-! ## What the phases stop at -/

/-- A job that refuses no file and stops at a tree only with problems. -/
structure Plain {β α : Type} (job : Pool.Job β α) : Prop where
  accepts : ∀ path, job.refuse path = none
  reads : ∀ path v why, job.read path v ≠ .error (.textless why)

theorem lift_ne_textless {α : Type} (answer : Except Problem α) (why : Thrown) :
    Thrown.lift answer ≠ .error (.textless why) := by
  cases answer <;> nofun

theorem lift_eq_ok {α : Type} {answer : Except Problem α} {value : α}
    (h : Thrown.lift answer = .ok value) : answer = .ok value := by
  cases answer with
  | error p => cases h
  | ok v => exact congrArg Except.ok (Except.ok.inj h)

theorem lift_eq_error {α : Type} {answer : Except Problem α} {p : Problem}
    (h : Thrown.lift answer = .error (.problem p)) : answer = .error p := by
  cases answer with
  | error q =>
    cases h
    rfl
  | ok v => cases h

theorem survey_plain (host : Host) (options : Options) : Plain (survey host options) :=
  ⟨fun _ => rfl, fun _ _ why => lift_ne_textless _ why⟩

theorem measure_plain (host : Host) (graph : Inheritance.Graph) (trees processed : Nat) :
    Plain (measure host graph trees processed) :=
  ⟨fun _ => rfl, fun _ _ why => lift_ne_textless _ why⟩

/-! ## Runs in terms of their pools -/

/-- The entry that an analysis begins with. -/
def startEvent (host : Host) (options : Options) (files : List String) : Pool.Event :=
  .logged (startEntry files.length (candidates host options files).length
    options.bounded.maxFileSize)

theorem run_eq (c : Choices) :
    run host world options files (.ok ()) (some c) s =
      match (surveyRun host world options files s c.first).2.rejected with
      | some why => ((surveyRun host world options files s c.first).1,
          ⟨.error why, (candidates host options files).length,
            startEvent host options files ::
              (surveyRun host world options files s c.first).2.trace⟩)
      | none => ((measureRun host world options files s c).1,
          conclude host (candidates host options files) (startEvent host options files)
            (surveyRun host world options files s c.first).2
            (measureRun host world options files s c).2) := by
  unfold run
  rfl

/-- A run whose first phase is not rejected. -/
theorem run_eq_conclude {c : Choices}
    (h : (surveyRun host world options files s c.first).2.rejected = none) :
    run host world options files (.ok ()) (some c) s =
      ((measureRun host world options files s c).1,
        conclude host (candidates host options files) (startEvent host options files)
          (surveyRun host world options files s c.first).2
          (measureRun host world options files s c).2) := by
  rw [run_eq, h]

/-- A run whose first phase is rejected. -/
theorem run_eq_rejected {c : Choices} {why : Thrown}
    (h : (surveyRun host world options files s c.first).2.rejected = some why) :
    run host world options files (.ok ()) (some c) s =
      ((surveyRun host world options files s c.first).1,
        ⟨.error why, (candidates host options files).length,
          startEvent host options files ::
            (surveyRun host world options files s c.first).2.trace⟩) := by
  rw [run_eq, h]

/-- The report, if no phase is rejected. -/
theorem conclude_report (all : List String) (start : Pool.Event)
    (first : Pool (Option Source) FileFacts) {second : Pool (Option Source) FileClasses}
    (h : second.rejected = none) :
    (conclude host all start first second).report =
      .ok (report host ((surveyed all first).map FileFacts.file) first second) := by
  simp only [conclude, h]

/-- A run with a report is one in which no phase is rejected. -/
theorem report_of_run {c : Choices} {report : Report}
    (h : (run host world options files (.ok ()) (some c) s).2.report = .ok report) :
    (surveyRun host world options files s c.first).2.rejected = none ∧
      (measureRun host world options files s c).2.rejected = none ∧
      report = Analysis.report host
        (survivorsOf host options files (surveyRun host world options files s c.first).2)
        (surveyRun host world options files s c.first).2
        (measureRun host world options files s c).2 := by
  cases hfirst : (surveyRun host world options files s c.first).2.rejected with
  | some why =>
    rw [run_eq_rejected hfirst] at h
    cases h
  | none =>
    rw [run_eq_conclude hfirst] at h
    cases hsecond : (measureRun host world options files s c).2.rejected with
    | some why =>
      simp only [conclude, hsecond] at h
      cases h
    | none => exact ⟨rfl, rfl, Except.ok.inj (h.symm.trans (conclude_report _ _ _ hsecond))⟩

theorem conclude_total (all : List String) (start : Pool.Event)
    (first : Pool (Option Source) FileFacts) (second : Pool (Option Source) FileClasses) :
    (conclude host all start first second).total = all.length := by
  unfold conclude
  split <;> rfl

/-! ## Progress -/

/-- The files that are skipped are announced one after the other. -/
theorem announce_eq (skipped : List (String × Problem)) :
    announce skipped =
      (((skipped.map Prod.fst).zipIdx 1).map fun entry => .progress entry.1 entry.2,
        skipped.length) := by
  induction skipped using List.reverseRecOn with
  | nil => rfl
  | append_singleton skipped error ih =>
    rw [announce, List.foldl_append]
    change (fun told error => (told.1 ++ [Pool.Event.progress error.1 (told.2 + 1)], told.2 + 1))
      (announce skipped) error = _
    rw [ih, List.map_append, List.zipIdx_append, List.map_append, List.length_append,
      List.length_map, Nat.add_comm 1]
    rfl

theorem progressOf_announce (skipped : List (String × Problem)) :
    (announce skipped).1.filterMap progressOf = (skipped.map Prod.fst).zipIdx 1 := by
  rw [announce_eq, List.filterMap_map]
  exact List.filterMap_some

theorem survey_progress {is : List Nat} :
    (surveyRun host world options files s is).2.trace.filterMap progressOf = [] := by
  have hfresh : Pool.Ledger (survey host options.bounded) world (candidates host options files)
      ((s, Pool.fresh (survey host options.bounded) (candidates host options files)) :
        σ × Pool (Option Source) FileFacts).2 [] := .fresh _ _ _
  obtain ⟨closed, h⟩ := hfresh.moves (Pool.run_path _ world options.concurrency _ is s)
  exact (h.note (Pool.finishEvents_quiet _ _ _)).progress

theorem Outcome.progress_eq (o : Outcome) :
    o.progress = (o.trace.filterMap progressOf).map fun entry => ⟨entry.2, o.total, entry.1⟩ := by
  rw [progress, List.map_filterMap]
  refine List.filterMap_congr fun e _ => ?_
  cases e <;> rfl

/-- Progress is reported first for the files that the first phase skipped, then for those that the
second phase is done with. -/
theorem conclude_progress (all : List String) (start : Log.Entry)
    {first : Pool (Option Source) FileFacts} (hfirst : first.trace.filterMap progressOf = [])
    (second : Pool (Option Source) FileClasses) :
    (conclude host all (.logged start) first second).trace.filterMap progressOf =
      (first.errors.map Prod.fst).zipIdx 1 ++ second.trace.filterMap progressOf := by
  have hlog (entry : Log.Entry) : [Pool.Event.logged entry].filterMap progressOf = [] := rfl
  cases hr : second.rejected <;>
    simp only [conclude, hr, List.filterMap_append, hfirst, hlog, progressOf_announce,
      List.nil_append, List.append_nil]

/-! ## Termination -/

theorem exists_complete_inOrder (host : Host) (world : World σ (Option Source)) (options : Options)
    (files : List String) (s : σ) :
    ∃ c : Choices, c.Complete host world options files s ∧
      run host world options files (.ok ()) none s =
        run host world options files (.ok ()) (some c) s := by
  let all := candidates host options files
  let first := surveyRun host world options files s (Pool.inOrder all)
  obtain ⟨is, his, hfirst⟩ := Pool.exists_order_inOrder (survey host options.bounded) world
    options.concurrency all s
  -- where the second phase starts depends on where the first one ends, not on how it got there
  obtain ⟨js, hjs, hsecond⟩ := Pool.exists_order_inOrder (measureAfter host options files first.2)
    world options.concurrency (survivorsOf host options files first.2) first.1
  change surveyRun host world options files s is = first at hfirst
  refine ⟨⟨is, js⟩, ⟨his, fun _ => ?_⟩, ?_⟩
  · rw [hfirst]
    exact hjs
  · have hnone : run host world options files (.ok ()) none s =
        run host world options files (.ok ())
          (some ⟨Pool.inOrder all, Pool.inOrder (survivorsOf host options files first.2)⟩) s := rfl
    have hmeasure : measureRun host world options files s ⟨is, js⟩ =
        measureRun host world options files s
          ⟨Pool.inOrder all, Pool.inOrder (survivorsOf host options files first.2)⟩ := by
      unfold measureRun
      dsimp only
      rw [hfirst]
      exact hsecond
    rw [hnone, run_eq, run_eq, hmeasure, hfirst]

/-- **An analysis comes to an end.** However its workers go on, there are at most four steps for each
file of each phase, and what is left can be worked off to the end. -/
theorem Begun.complete {c : Choices} (h : Begun host world options files s c) :
    c.first.length ≤ 4 * (candidates host options files).length ∧
      c.second.length ≤ 4 * (survivorsOf host options files
        (surveyRun host world options files s c.first).2).length ∧
      ∃ more more', Choices.Complete host world options files s
        ⟨c.first ++ more, c.second ++ more'⟩ := by
  cases h with
  | @first is h =>
    obtain ⟨hlen, more, hmore⟩ := h.complete
    obtain ⟨js, hjs⟩ := Pool.exists_order
      (measureAfter host options files (surveyRun host world options files s (is ++ more)).2) world
      (measureStart host options files (surveyRun host world options files s (is ++ more)))
    exact ⟨Nat.le_trans hlen (Pool.launch_load_le _ _ _), Nat.zero_le _, more, js, hmore,
      fun _ => hjs⟩
  | @second is js hf hr h =>
    obtain ⟨hlen, more, hmore⟩ := h.complete
    refine ⟨Nat.le_trans hf.steps.complete.1 (Pool.launch_load_le _ _ _),
      Nat.le_trans hlen (Pool.launch_load_le _ _ _), [], more, ?_⟩
    rw [List.append_nil]
    exact ⟨hf, fun _ => hmore⟩

end ClassCohesion.Analysis
