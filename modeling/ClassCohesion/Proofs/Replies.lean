import ClassCohesion.Proofs.Accounts
import ClassCohesion.Proofs.PoolAnswers
import ClassCohesion.Proofs.Sorting

/-!
# Analyses in a world that answers by the file

`Replies` says how a world answers an analysis: the size of each file, and what comes of the first
and of the second call for it. In such a world the report is a function of the replies, the options
and the files (`Replies.report`): neither the number of workers nor the order of the answers has a
part in it.

- `Replies.surveyed_eq`, `Replies.measured_eq`: what the phases hand on is in the order of the files.
- `Replies.run_report_eq`: every complete run over distinct files gives that report.
- `Replies.given_toWorld`: there is a world for all replies.
-/

namespace ClassCohesion.Analysis

open Pool (World Question)

variable {σ : Type}

/-- The size of each file, and what comes of the first and of the second call for it. -/
structure Replies where
  size : String → Except Problem Number
  first : String → Except Problem (Option Source)
  second : String → Except Problem (Option Source)

namespace Replies

/-- A world gives these replies, whatever it has been asked before. -/
structure Given (r : Replies) (world : World σ (Option Source)) (s : σ) : Prop where
  size : ∀ asked path, (world.size (world.after s asked) path).1 = Thrown.lift (r.size path)
  first : ∀ asked path, .value path ∉ asked →
    (world.value (world.after s asked) path).1 = Thrown.lift (r.first path)
  second : ∀ asked path, asked.count (.value path) = 1 →
    (world.value (world.after s asked) path).1 = Thrown.lift (r.second path)

/-! ## The report by the replies -/

section

variable (r : Replies) (host : Host) (options : Options) (files : List String)

/-- What the first phase makes of a file. -/
def facts (path : String) : Except Thrown FileFacts :=
  (survey host options.bounded).outcome (fun path => Thrown.lift (r.size path))
    (fun path => Thrown.lift (r.first path)) path

/-- The tree of the second call, if the second phase gets through it. -/
def reread (path : String) : Except Problem (Option Source) := (r.second path).bind (read id)

/-- The candidates that come through the first phase. -/
def survivors : List String :=
  (candidates host options files).filter fun path => (r.facts host options path).isOk

/-- The graph of all facts, folded in the order of the files. -/
def graph : Inheritance.Graph :=
  graphOf ((candidates host options files).filterMap fun path =>
    (r.facts host options path).toOption)

/-- The classes of the survivors that come through the second phase, in the order of the files. -/
def measured : List FileClasses :=
  (r.survivors host options files).filterMap fun path =>
    (r.reread path).toOption.map (FileClasses.ofSource (r.graph host options files) path)

/-- What keeps a file out of the report. -/
def problem (path : String) : Option Problem :=
  match r.facts host options path with
  | .error t => some t.root.asError
  | .ok _ =>
    match r.reread path with
    | .error p => some p.asError
    | .ok _ => none

/-- The files that are skipped, in the order of the files. -/
def skipped : List SkippedFile :=
  (candidates host options files).filterMap fun path =>
    (r.problem host options path).map fun p => skippedFile host (path, p)

/-- The report. -/
def report : Report :=
  let classes := Report.sortClasses .lcom
    ((r.measured host options files).flatMap FileClasses.classes)
  { classes
    summary := Report.summarize classes
    skipped := (r.skipped host options files).mergeSort fun a b =>
      Text.collationLe a.path b.path }

end

variable {r : Replies} {host : Host} {options : Options} {files : List String}
  {world : World σ (Option Source)} {s : σ}

theorem facts_file {path : String} {f : FileFacts} (h : r.facts host options path = .ok f) :
    f.file = path := by
  obtain ⟨source, -, hread⟩ := Pool.outcome_ok h
  obtain ⟨-, rfl⟩ := read_eq_ok hread
  cases source <;> rfl

theorem survivors_eq :
    ((candidates host options files).filterMap fun path =>
      (r.facts host options path).toOption).map FileFacts.file =
      r.survivors host options files := by
  rw [List.map_filterMap, survivors, ← List.filterMap_eq_filter]
  refine List.filterMap_congr fun path _ => ?_
  rw [Option.guard_apply]
  cases h : r.facts host options path with
  | error p => rfl
  | ok f => exact congrArg some (facts_file h)

/-- Replies are problems, so whatever becomes of a file can be recorded. -/
theorem isKept_outcome {β α : Type} {job : Pool.Job β α} (hjob : Plain job)
    (size : String → Except Problem Number) (value : String → Except Problem β) (path : String) :
    Pool.isKept (job.outcome (fun path => Thrown.lift (size path))
      (fun path => Thrown.lift (value path)) path) = true := by
  have hcall : Pool.isKept (job.call (fun path => Thrown.lift (value path)) path) = true := by
    rw [Pool.Job.call, hjob.accepts]
    cases value path with
    | error p => rfl
    | ok v =>
      show Pool.isKept (job.read path v) = true
      rcases hread : job.read path v with (p | why) | result
      · rfl
      · exact absurd hread (hjob.reads path v why)
      · rfl
  unfold Pool.Job.outcome
  split
  · exact hcall
  · dsimp only
    cases size path with
    | error p => rfl
    | ok n =>
      dsimp only [Thrown.lift, Except.mapError]
      split
      · rfl
      · exact hcall

theorem measure_outcome (host : Host) (graph : Inheritance.Graph) (trees processed : Nat)
    (size : String → Except Thrown Number) (path : String) :
    (measure host graph trees processed).outcome size
        (fun path => Thrown.lift (r.second path)) path =
      Thrown.lift ((r.reread path).map (FileClasses.ofSource graph path)) := by
  have hl : Number.le (measure host graph trees processed).limit 0 = true := rfl
  simp only [Pool.Job.outcome, hl, if_true]
  show (Thrown.lift (r.second path)).bind _ = _
  unfold reread
  cases r.second path with
  | error p => rfl
  | ok source =>
    show Thrown.lift (read (FileClasses.ofSource graph path) source) =
      Thrown.lift ((read id source).map (FileClasses.ofSource graph path))
    unfold read
    cases source.bind Source.flaw <;> rfl

/-- If the alphabetical order tells the candidates apart, it does so with the skipped files. -/
theorem skipped_anti
    (hpaths : ∀ a ∈ candidates host options files, ∀ b ∈ candidates host options files,
      Text.collationLe a b → Text.collationLe b a → a = b) :
    ∀ a ∈ r.skipped host options files, ∀ b ∈ r.skipped host options files,
      Text.collationLe a.path b.path → Text.collationLe b.path a.path → a = b := by
  intro a ha b hb hab hba
  obtain ⟨path, hpath, ha⟩ := List.mem_filterMap.mp ha
  obtain ⟨path', hpath', hb⟩ := List.mem_filterMap.mp hb
  obtain ⟨p, hp, rfl⟩ := Option.map_eq_some_iff.mp ha
  obtain ⟨p', hp', rfl⟩ := Option.map_eq_some_iff.mp hb
  -- a path has one problem, so what is equal in the alphabetical order is equal
  obtain rfl : path = path' := hpaths path hpath path' hpath' hab hba
  rw [hp] at hp'
  cases hp'
  rfl

/-! ## The two phases in a world of replies -/

theorem Given.fixed_survey (h : r.Given world s) (files : List String) :
    world.Fixed s files (fun path => Thrown.lift (r.size path))
      (fun path => Thrown.lift (r.first path)) where
  size := fun asked path _ _ => h.size asked path
  value := fun asked path _ hnew => h.first asked path hnew

/-- After a phase that has asked once for the call of each of the files, the next answers are the
second ones. -/
theorem Given.fixed_measure (h : r.Given world s) {asked : List Question} (hnd : asked.Nodup)
    {files : List String} (hcalled : ∀ path ∈ files, .value path ∈ asked) :
    world.Fixed (world.after s asked) files (fun path => Thrown.lift (r.size path))
      (fun path => Thrown.lift (r.second path)) where
  size := by
    intro more path _ _
    rw [← World.after_append]
    exact h.size _ path
  value := by
    intro more path hp hnew
    rw [← World.after_append]
    refine h.second _ path ?_
    rw [List.count_append, List.count_eq_one_of_mem hnd (hcalled path hp),
      List.count_eq_zero_of_not_mem hnew]

section

variable {is : List Nat} (hnd : files.Nodup) (hw : r.Given world s)
  (ho : Pool.Order (survey host options.bounded) world (surveyStart host options files s) is)

include hnd hw ho

theorem surveyRun_outcomes :
    Pool.Outcomes (survey host options.bounded) world s (candidates host options files)
      (r.facts host options) (surveyRun host world options files s is) :=
  Pool.run_outcomes (hnd.filter _) (hw.fixed_survey _)
    (fun path _ => isKept_outcome (survey_plain _ _) r.size r.first path) ho

/-- The first phase puts the facts in the order of the files. -/
theorem surveyed_eq :
    surveyed (candidates host options files) (surveyRun host world options files s is).2 =
      (candidates host options files).filterMap fun path =>
        (r.facts host options path).toOption := by
  refine inFileOrder_eq (hnd.filter _) (fun path f hf => ?_) ?_
  · cases h : r.facts host options path with
    | error p =>
      rw [h] at hf
      cases hf
    | ok f' =>
      rw [h] at hf
      cases hf
      exact facts_file h
  · refine (surveyRun_outcomes hnd hw ho).results.trans (List.Perm.of_eq ?_)
    refine List.filterMap_congr fun path _ => ?_
    cases r.facts host options path <;> rfl

theorem measureAfter_eq :
    measureAfter host options files (surveyRun host world options files s is).2 =
      measure host (r.graph host options files) (surveyRun host world options files s is).2.trees
        (announce (surveyRun host world options files s is).2.errors).2 := by
  rw [measureAfter, surveyed_eq hnd hw ho]
  rfl

theorem survivorsOf_eq :
    survivorsOf host options files (surveyRun host world options files s is).2 =
      r.survivors host options files := by
  rw [survivorsOf, surveyed_eq hnd hw ho, survivors_eq]

end

section

variable {c : Choices} (hnd : files.Nodup) (hw : r.Given world s)
  (hc : c.Complete host world options files s)

include hnd hw hc

theorem surveyRun_accepted : (surveyRun host world options files s c.first).2.rejected = none :=
  (surveyRun_outcomes hnd hw hc.first).accepted

theorem measureRun_outcomes :
    Pool.Outcomes (measureAfter host options files (surveyRun host world options files s c.first).2)
      world (surveyRun host world options files s c.first).1 (r.survivors host options files)
      (fun path => Thrown.lift ((r.reread path).map
        (FileClasses.ofSource (r.graph host options files) path)))
      (measureRun host world options files s c) := by
  obtain ⟨asked, hstate, hasked, hcalled⟩ := (surveyRun_outcomes hnd hw hc.first).asked
  have hfix : world.Fixed (surveyRun host world options files s c.first).1
      (r.survivors host options files) (fun path => Thrown.lift (r.size path))
      (fun path => Thrown.lift (r.second path)) := by
    -- the call for a survivor has been asked for once, so its next answer is the second one
    rw [hstate]
    refine hw.fixed_measure hasked fun path hp => ?_
    obtain ⟨hp, hok⟩ := List.mem_filter.mp hp
    cases h : r.facts host options path with
    | error t =>
      rw [h] at hok
      cases hok
    | ok f => exact hcalled path hp f h
  have horder := hc.second (surveyRun_accepted hnd hw hc)
  rw [measureStart, survivorsOf_eq hnd hw hc.first] at horder
  have hkept : ∀ path ∈ r.survivors host options files, Pool.isKept
      ((measureAfter host options files (surveyRun host world options files s c.first).2).outcome
        (fun path => Thrown.lift (r.size path)) (fun path => Thrown.lift (r.second path)) path) =
          true :=
    fun path _ => isKept_outcome (measure_plain _ _ _ _) r.size r.second path
  have hrun := Pool.run_outcomes ((hnd.filter _).filter _) hfix hkept horder
  have houtcome := funext (measure_outcome (r := r) host (r.graph host options files)
    (surveyRun host world options files s c.first).2.trees
    (announce (surveyRun host world options files s c.first).2.errors).2
    (fun path => Thrown.lift (r.size path)))
  rw [← measureAfter_eq hnd hw hc.first] at houtcome
  rw [houtcome] at hrun
  rw [measureRun, survivorsOf_eq hnd hw hc.first]
  exact hrun

/-- The second phase puts the classes in the order of the files. -/
theorem measured_eq :
    inFileOrder FileClasses.file (r.survivors host options files)
      (measureRun host world options files s c).2.results = r.measured host options files := by
  refine inFileOrder_eq ((hnd.filter _).filter _) (fun path f hf => ?_) ?_
  · obtain ⟨source, -, rfl⟩ := Option.map_eq_some_iff.mp hf
    cases source <;> rfl
  · refine (measureRun_outcomes hnd hw hc).results.trans (List.Perm.of_eq ?_)
    refine List.filterMap_congr fun path _ => ?_
    cases r.reread path <;> rfl

/-- The problems of both phases are those that keep the candidates out of the report. -/
theorem errors_perm :
    ((surveyRun host world options files s c.first).2.errors ++
      (measureRun host world options files s c).2.errors).Perm
      ((candidates host options files).filterMap fun path =>
        (r.problem host options path).map (path, ·)) := by
  refine ((surveyRun_outcomes hnd hw hc.first).errors.append
    (measureRun_outcomes hnd hw hc).errors).trans ?_
  rw [survivors, List.filterMap_filter]
  refine Pool.filterMap_append_perm fun path _ => ?_
  have hkept := isKept_outcome (survey_plain host options.bounded) r.size r.first path
  change Pool.isKept (r.facts host options path) = true at hkept
  unfold problem
  rcases hfacts : r.facts host options path with (p | why) | f
  · rfl
  · rw [hfacts] at hkept
    cases hkept
  · cases r.reread path <;> rfl

theorem skipped_perm :
    (((surveyRun host world options files s c.first).2.errors ++
      (measureRun host world options files s c).2.errors).map (skippedFile host)).Perm
      (r.skipped host options files) := by
  refine ((errors_perm hnd hw hc).map (skippedFile host)).trans (.of_eq ?_)
  rw [List.map_filterMap]
  exact List.filterMap_congr fun path _ => Option.map_map ..

/-- The classes and the summary of a complete run are those of the replies. -/
theorem run_report :
    (run host world options files (.ok ()) (some c) s).2.report =
      .ok { r.report host options files with
        skipped := (((surveyRun host world options files s c.first).2.errors ++
          (measureRun host world options files s c).2.errors).map (skippedFile host)).mergeSort
            fun a b => Text.collationLe a.path b.path } := by
  have hclasses := measured_eq hnd hw hc
  rw [← survivorsOf_eq hnd hw hc.first] at hclasses
  rw [run_eq_conclude (surveyRun_accepted hnd hw hc)]
  refine (conclude_report _ _ _ (measureRun_outcomes hnd hw hc).accepted).trans ?_
  show Except.ok (Analysis.report host (survivorsOf host options files _) _ _) = _
  rw [Analysis.report, hclasses]
  rfl

/-- The skipped files of a complete run are those of the replies, in the alphabetical order if that
tells the candidates apart. -/
theorem mergeSort_errors_eq
    (hpaths : ∀ a ∈ candidates host options files, ∀ b ∈ candidates host options files,
      Text.collationLe a b → Text.collationLe b a → a = b) :
    (((surveyRun host world options files s c.first).2.errors ++
        (measureRun host world options files s c).2.errors).map (skippedFile host)).mergeSort
          (fun a b => Text.collationLe a.path b.path) =
      (r.report host options files).skipped := by
  refine (mergeSort_eq_of_perm
    (fun a b c : SkippedFile => Text.collationLe_trans a.path b.path c.path)
    (fun a b => Text.collationLe_total a.path b.path) (skipped_perm hnd hw hc).symm ?_).symm
  exact skipped_anti hpaths

/-- **One report.** Every complete run over distinct files gives the report of the replies, if the
alphabetical order tells the candidates apart. -/
theorem run_report_eq
    (hpaths : ∀ a ∈ candidates host options files, ∀ b ∈ candidates host options files,
      Text.collationLe a b → Text.collationLe b a → a = b) :
    (run host world options files (.ok ()) (some c) s).2.report =
      .ok (r.report host options files) := by
  rw [run_report hnd hw hc, mergeSort_errors_eq hnd hw hc hpaths]

end

/-- The lack of cohesion of every measured class is a count. -/
theorem lcom_measured : ∀ m ∈ (r.measured host options files).flatMap FileClasses.classes,
    ∃ n : Nat, m.lcom = n := by
  intro m hm
  obtain ⟨f, hf, hm⟩ := List.mem_flatMap.mp hm
  obtain ⟨path, -, hf⟩ := List.mem_filterMap.mp hf
  obtain ⟨source, -, rfl⟩ := Option.map_eq_some_iff.mp hf
  cases source with
  | none => cases hm
  | some source =>
    obtain ⟨declared, -, rfl⟩ := List.mem_map.mp hm
    exact ⟨_, rfl⟩

/-! ## Worlds of replies -/

/-- A world that gives replies. It knows the files whose call it has been asked for. -/
def toWorld (r : Replies) : World (List String) (Option Source) where
  size called path := (Thrown.lift (r.size path), called)
  value called path :=
    (Thrown.lift (if path ∈ called then r.second path else r.first path), path :: called)

theorem toWorld_textful (r : Replies) : Textful r.toWorld :=
  fun _ _ why => ⟨lift_ne_textless _ why, lift_ne_textless _ why⟩

theorem mem_after_toWorld {asked : List Question} {called : List String} {path : String} :
    path ∈ r.toWorld.after called asked ↔ path ∈ called ∨ .value path ∈ asked := by
  induction asked generalizing called with
  | nil => simp [World.after]
  | cons q asked ih =>
    rw [World.after, List.foldl_cons]
    refine ih.trans ?_
    cases q with
    | size p => simp [World.ask, toWorld]
    | value p =>
      simp only [World.ask, toWorld, List.mem_cons, Question.value.injEq, or_assoc]
      exact or_left_comm

/-- All replies are given by some world. -/
theorem given_toWorld (r : Replies) : r.Given r.toWorld [] where
  size := fun _ _ => rfl
  first := by
    intro asked path hnew
    have hcalled : path ∉ r.toWorld.after [] asked := by
      rw [mem_after_toWorld]
      rintro (h | h)
      · cases h
      · exact hnew h
    exact congrArg Thrown.lift (if_neg hcalled)
  second := by
    intro asked path hone
    have hasked : Question.value path ∈ asked := List.count_pos_iff.mp (by omega)
    exact congrArg Thrown.lift (if_pos (mem_after_toWorld.mpr (.inr hasked)))

end Replies

/-! ## A small project -/

namespace Sample

/-- A class declaration, with the classes it extends. -/
def declaration (name : String) (parents : List String) : Syntax.Node :=
  .mk "class_declaration" true "" none 0 0
    [some (.mk "identifier" true name (some "name") 0 0 []),
     some (.mk "superclass" true "" none 0 0
      (parents.map fun parent => some (.mk "type_identifier" true parent none 0 0 [])))]

/-- A file with one class. -/
def source (name : String) (parents : List String) : Option Source :=
  some { language := "java",
         root := .mk "program" true "" none 0 0 [some (declaration name parents)] }

def host : Host := ⟨"/work/app", "/home/dev"⟩

def options : Options := { projectRoot := some "/p", concurrency := 2 }

def files : List String := ["/p/Dog.java", "/p/Animal.java", "/p/Lost.java"]

/-- A dog is an animal; the file of the lost one cannot be read. -/
def reply (path : String) : Except Problem (Option Source) :=
  if path = "/p/Dog.java" then .ok (source "Dog" ["Animal"])
  else if path = "/p/Animal.java" then .ok (source "Animal" [])
  else .error (.bare "lost")

def replies : Replies := ⟨fun _ => .ok 1, reply, reply⟩

/-- Two workers who take turns, the later one first. So both have a tree open at the same time. -/
def choices : Choices := ⟨[1, 0, 1, 0, 1, 1, 0], [1, 0, 1, 0, 1, 0]⟩

theorem candidates_files : candidates host options files = files := by decide +kernel

theorem choices_order :
    Pool.Order (survey host options.bounded) replies.toWorld (surveyStart host options files [])
      choices.first := by
  rw [surveyStart, candidates_files]
  decide +kernel

theorem choices_complete : choices.Complete host replies.toWorld options files [] where
  first := choices_order
  second := by
    intro _
    have hw := Replies.given_toWorld replies
    rw [measureStart, Replies.measureAfter_eq (by decide) hw choices_order,
      Replies.survivorsOf_eq (by decide) hw choices_order, Replies.graph, Replies.survivors,
      surveyRun, candidates_files]
    decide +kernel

end Sample

/-! ## One result for all schedules -/

/-- **Schedules leave no trace.** An analysis of distinct files in a world that answers by the file
gives one report, whatever the number of workers and the order in which calls settle: the one that a
single worker gives. Its classes are those of the surviving files, measured against the graph of all
facts in the order of the files and sorted by falling lack of cohesion; its skipped files are those
that failed. The alphabetical order has to tell the candidates apart. -/
theorem run_eq_sequential {host : Host} {world : World σ (Option Source)} {options : Options}
    {files : List String} {s : σ} {r : Replies} {c : Choices} (hnd : files.Nodup)
    (hw : r.Given world s)
    (hpaths : ∀ a ∈ candidates host options files, ∀ b ∈ candidates host options files,
      Text.collationLe a b → Text.collationLe b a → a = b)
    (hc : c.Complete host world options files s) :
    ∃ report : Report,
      (run host world options files (.ok ()) (some c) s).2.report = .ok report ∧
      (run host world { options with concurrency := 1 } files (.ok ()) none s).2.report =
        .ok report ∧
      Report.StablySorted ClassMetrics.lcom
        ((r.measured host options files).flatMap FileClasses.classes) report.classes ∧
      report.summary = Report.summarize report.classes ∧
      report.skipped.Perm (r.skipped host options files) ∧
      report.skipped.Pairwise fun a b => Text.collationLe a.path b.path = true := by
  obtain ⟨c', hc', hrun⟩ :=
    exists_complete_inOrder host world { options with concurrency := 1 } files s
  refine ⟨r.report host options files, Replies.run_report_eq hnd hw hc hpaths, ?_,
    Report.sortBy_stablySorted Replies.lcom_measured, rfl, List.mergeSort_perm _ _, ?_⟩
  · rw [hrun]
    exact Replies.run_report_eq hnd hw hc' hpaths
  · exact List.pairwise_mergeSort
      (fun a b c : SkippedFile => Text.collationLe_trans a.path b.path c.path)
      (fun a b => Text.collationLe_total a.path b.path) (r.skipped host options files)

theorem run_eq_sequential_two_workers :
    Sample.choices.Complete Sample.host Sample.replies.toWorld Sample.options Sample.files [] ∧
      ∃ report : Report,
        (run Sample.host Sample.replies.toWorld Sample.options Sample.files (.ok ())
          (some Sample.choices) []).2.report = .ok report ∧
        (run Sample.host Sample.replies.toWorld { Sample.options with concurrency := 1 }
          Sample.files (.ok ()) none []).2.report = .ok report ∧
        report.classes.length = 2 ∧ report.skipped.length = 1 := by
  refine ⟨Sample.choices_complete, ?_⟩
  have hpaths : ∀ a ∈ candidates Sample.host Sample.options Sample.files,
      ∀ b ∈ candidates Sample.host Sample.options Sample.files,
        Text.collationLe a b → Text.collationLe b a → a = b := by
    rw [Sample.candidates_files]
    decide +kernel
  obtain ⟨report, hrun, hseq, hclasses, -, hskipped, -⟩ :=
    run_eq_sequential (by decide) (Replies.given_toWorld Sample.replies) hpaths
      Sample.choices_complete
  refine ⟨report, hrun, hseq, ?_, ?_⟩
  · rw [hclasses.perm.length_eq, Replies.measured, Replies.survivors, Replies.graph,
      Sample.candidates_files]
    decide +kernel
  · rw [hskipped.length_eq, Replies.skipped, Sample.candidates_files]
    decide +kernel

end ClassCohesion.Analysis
