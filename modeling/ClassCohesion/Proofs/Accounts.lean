import Mathlib.Data.List.Range
import ClassCohesion.Proofs.Phases

/-!
# Accounts of an analysis

Every candidate of an analysis ends in one of three groups: the problems of the first phase, those of
the second, and the results of the second. An `Account` says so of the two pools of a run, and that
the report and the progress of the run are readings of these groups. So every occurrence of a
candidate is accounted for once, whatever the world answers and in whatever order the workers go on.

The one thing that keeps an analysis from its account is a value without a text that stops the size or
the call of a file. It stops the whole analysis (`Account.of_complete`).
-/

namespace ClassCohesion.Analysis

open Pool (World Ends Ledger progressOf)

variable {σ : Type}

/-- Nothing that a world stops with is without a text. -/
def Textful {β : Type} (world : World σ β) : Prop :=
  ∀ s path why, (world.size s path).1 ≠ .error (.textless why) ∧
    (world.value s path).1 ≠ .error (.textless why)

/-- The groups of the candidates, told by the pools of the two phases, and what an analysis makes of
them. -/
structure Account (host : Host) (world : World σ (Option Source)) (options : Options)
    (files : List String) (first : Pool (Option Source) FileFacts)
    (second : Pool (Option Source) FileClasses) (o : Outcome) : Prop where
  /-- Every occurrence of a candidate is in one of the groups. -/
  groups : (first.errors.map Prod.fst ++ second.errors.map Prod.fst ++
    second.results.map FileClasses.file).Perm (candidates host options files)
  /-- The second phase is for the files that come through the first. -/
  survivors : (second.errors.map Prod.fst ++ second.results.map FileClasses.file).Perm
    (first.results.map FileFacts.file)
  surveyed : ∀ f ∈ first.results, Ends (survey host options.bounded) world f.file (.ok f)
  unsurveyed : ∀ e ∈ first.errors, ∃ p,
    Ends (survey host options.bounded) world e.1 (.error (.problem p)) ∧ e.2 = p.asError
  unmeasured : ∀ e ∈ second.errors, ∃ p,
    Ends (measureAfter host options files first) world e.1 (.error (.problem p)) ∧ e.2 = p.asError
  /-- Classes are read from a tree of their file, with the graph of the first phase. -/
  measured : ∀ f ∈ second.results, Ends (measureAfter host options files first) world f.file (.ok f) ∧
    ∀ m ∈ f.classes, m.path = f.file
  report : ∃ report, o.report = .ok report ∧
    report.skipped.Perm ((first.errors ++ second.errors).map (skippedFile host)) ∧
    report.classes.Perm (second.results.flatMap FileClasses.classes)
  /-- Progress is reported once for every occurrence of a candidate, and counted from one. -/
  progress : ∃ paths : List String, paths.Perm (candidates host options files) ∧
    o.progress = (paths.zipIdx 1).map fun entry =>
      ⟨entry.2, (candidates host options files).length, entry.1⟩

variable {host : Host} {world : World σ (Option Source)} {options : Options}
  {files : List String} {s : σ}

/-! ## Results bear the name of their file -/

theorem read_eq_ok {α : Type} {make : Option Source → α} {source : Option Source} {result : α}
    (h : Thrown.lift (read make source) = .ok result) :
    source.bind Source.flaw = none ∧ make source = result := by
  unfold read at h
  split at h
  · cases h
  · next hflaw => exact ⟨hflaw, Except.ok.inj h⟩

theorem ends_survey_file (path : String) (f : FileFacts)
    (h : Ends (survey host options) world path (.ok f)) : f.file = path := by
  obtain ⟨s, source, -, hread⟩ := h.exists_value rfl
  obtain ⟨-, rfl⟩ := read_eq_ok hread
  cases source <;> rfl

theorem ends_measure_file {graph : Inheritance.Graph} {trees processed : Nat} (path : String)
    (f : FileClasses) (h : Ends (measure host graph trees processed) world path (.ok f)) :
    f.file = path := by
  obtain ⟨s, source, -, hread⟩ := h.exists_value rfl
  obtain ⟨-, rfl⟩ := read_eq_ok hread
  cases source <;> rfl

theorem ends_measure_own {graph : Inheritance.Graph} {trees processed : Nat} {path : String}
    {f : FileClasses} (h : Ends (measure host graph trees processed) world path (.ok f)) :
    ∀ m ∈ f.classes, m.path = f.file := by
  obtain ⟨s, source, -, hread⟩ := h.exists_value rfl
  obtain ⟨-, rfl⟩ := read_eq_ok hread
  intro m hm
  cases source with
  | none => cases hm
  | some source =>
    obtain ⟨declared, -, rfl⟩ := List.mem_map.mp hm
    rfl

/-! ## What stops an analysis -/

/-- A value without a text comes from the world. -/
theorem exists_textless {β α : Type} {job : Pool.Job β α} {world : World σ β} (hjob : Plain job)
    {path : String} {why : Thrown} {o : Except Thrown α} (h : Ends job world path o)
    (ho : o = .error (.textless why)) :
    ∃ s, (world.size s path).1 = .error (.textless why) ∨
      (world.value s path).1 = .error (.textless why) := by
  cases h with
  | unsized hl ha =>
    cases ho
    exact ⟨_, .inl ha⟩
  | tooLarge => cases ho
  | refused hs hr =>
    rw [hjob.accepts] at hr
    cases hr
  | failed hs hr ha =>
    cases ho
    exact ⟨_, .inr ha⟩
  | finished hs hr ha => exact absurd ho (hjob.reads _ _ _)

/-! ## The two phases together -/

/-- The survivors are the files that the first phase has a result for. -/
theorem survivorsOf_perm (first : Pool (Option Source) FileFacts) :
    (survivorsOf host options files first).Perm (first.results.map FileFacts.file) :=
  (List.mergeSort_perm first.results _).map FileFacts.file

theorem survivorsOf_length_le {is : List Nat}
    (ho : Pool.Order (survey host options.bounded) world (surveyStart host options files s) is)
    (hr : (surveyRun host world options files s is).2.rejected = none) :
    (survivorsOf host options files (surveyRun host world options files s is).2).length ≤
      (candidates host options files).length := by
  obtain ⟨closed, h, hall⟩ := Pool.run_ledger ho
  have hperm := (h.errors_append_results hr ends_survey_file).trans (hall hr)
  rw [(survivorsOf_perm _).length_eq, ← hperm.length_eq, List.length_append]
  exact Nat.le_add_left _ _

/-- The second phase counts its reports on from those of the first. -/
theorem progress_of_ledger (start : Log.Entry) {all survivors : List String}
    {first : Pool (Option Source) FileFacts} {second : Pool (Option Source) FileClasses}
    {closed : List (String × Except Thrown FileClasses)}
    (hfirst : first.trace.filterMap progressOf = [])
    (h : Ledger (measureAfter host options files first) world survivors second closed)
    (hr : second.rejected = none) :
    (conclude host all (.logged start) first second).progress =
      ((first.errors.map Prod.fst ++ closed.map Prod.fst).zipIdx 1).map fun entry =>
        ⟨entry.2, all.length, entry.1⟩ := by
  have hbefore : (measureAfter host options files first).processed =
      (first.errors.map Prod.fst).length := by
    show (announce first.errors).2 = _
    rw [announce_eq, List.length_map]
  have htold := h.progress.trans (if_pos rfl)
  rw [h.recordedIn_eq hr, hbefore, Nat.add_comm] at htold
  rw [Outcome.progress_eq, conclude_progress _ _ hfirst, conclude_total, htold,
    ← List.zipIdx_append]

/-- Where no phase is rejected, the ledgers of both make the account. -/
theorem Account.of_accepted {c : Choices} (hc : c.Complete host world options files s)
    (hfirst : (surveyRun host world options files s c.first).2.rejected = none)
    (hsecond : (measureRun host world options files s c).2.rejected = none) :
    Account host world options files (surveyRun host world options files s c.first).2
      (measureRun host world options files s c).2
      (run host world options files (.ok ()) (some c) s).2 := by
  obtain ⟨closed₁, h₁, hall₁⟩ := Pool.run_ledger hc.first
  obtain ⟨closed₂, h₂, hall₂⟩ := Pool.run_ledger (hc.second hfirst)
  have hperm₁ := (h₁.errors_append_results hfirst ends_survey_file).trans (hall₁ hfirst)
  have hperm₂ := h₂.errors_append_results hsecond ends_measure_file
  have hsurvivors := (hall₂ hsecond).trans (survivorsOf_perm _)
  have hclosed₂ := (hsurvivors.append_left _).trans hperm₁
  rw [run_eq_conclude hfirst]
  refine ⟨?_, hperm₂.trans hsurvivors, fun f hf => ?_, fun e he => h₁.exists_problem he,
    fun e he => h₂.exists_problem he, fun f hf => ?_, ⟨_, conclude_report _ _ _ hsecond, ?_, ?_⟩,
    ⟨_, hclosed₂, ?_⟩⟩
  · rw [List.append_assoc]
    exact (hperm₂.append_left _).trans hclosed₂
  · obtain ⟨path, -, hend⟩ := h₁.exists_result hf
    obtain rfl := ends_survey_file path f hend
    exact hend
  · obtain ⟨path, -, hend⟩ := h₂.exists_result hf
    obtain rfl := ends_measure_file path f hend
    exact ⟨hend, ends_measure_own hend⟩
  · exact List.mergeSort_perm _ _
  · exact (List.mergeSort_perm _ _).trans ((List.mergeSort_perm _ _).flatMap_right _)
  · exact progress_of_ledger _ survey_progress h₂ hsecond

/-- **An analysis that is over** has its account, or was stopped by a value without a text. -/
theorem Account.of_complete {c : Choices} (hc : c.Complete host world options files s) :
    Account host world options files (surveyRun host world options files s c.first).2
        (measureRun host world options files s c).2
        (run host world options files (.ok ()) (some c) s).2 ∨
      ∃ why, (run host world options files (.ok ()) (some c) s).2.report = .error why ∧
        ∃ path ∈ candidates host options files, ∃ s',
          (world.size s' path).1 = .error (.textless why) ∨
          (world.value s' path).1 = .error (.textless why) := by
  obtain ⟨closed₁, h₁, hall₁⟩ := Pool.run_ledger hc.first
  cases hfirst : (surveyRun host world options files s c.first).2.rejected with
  | some why =>
    obtain ⟨path, hpath, hend⟩ := h₁.exists_loss hfirst
    rw [run_eq_rejected hfirst]
    exact .inr ⟨why, rfl, path, hpath, exists_textless (survey_plain _ _) hend rfl⟩
  | none =>
    cases hsecond : (measureRun host world options files s c).2.rejected with
    | none => exact .inl (.of_accepted hc hfirst hsecond)
    | some why =>
      obtain ⟨closed₂, h₂, -⟩ := Pool.run_ledger (hc.second hfirst)
      obtain ⟨path, hpath, hend⟩ := h₂.exists_loss hsecond
      -- a file of the second phase came through the first, so it is a candidate
      have hperm := (h₁.errors_append_results hfirst ends_survey_file).trans (hall₁ hfirst)
      have hcandidate := hperm.mem_iff.mp
        (List.mem_append_right _ ((survivorsOf_perm _).mem_iff.mp hpath))
      rw [run_eq_conclude hfirst]
      refine .inr ⟨why, ?_, path, hcandidate,
        exists_textless (measure_plain _ _ _ _) hend rfl⟩
      simp only [conclude, hsecond]

theorem Account.of_textful (htext : Textful world) {c : Choices}
    (hc : c.Complete host world options files s) :
    Account host world options files (surveyRun host world options files s c.first).2
      (measureRun host world options files s c).2
      (run host world options files (.ok ()) (some c) s).2 := by
  rcases Account.of_complete hc with h | ⟨why, -, path, -, s', hsize | hvalue⟩
  · exact h
  · exact absurd hsize (htext s' path why).1
  · exact absurd hvalue (htext s' path why).2

/-- **Every file is accounted for.** Whatever the world answers and in whatever order: an analysis
that has begun can only go on to its end, within four steps for each file of each phase. Where nothing
is stopped by a value without a text, every occurrence of a candidate is at the end in one of the three
groups, by which it is skipped or contributes its classes, and progress has been reported once for it.
Where something is, the analysis may come to that value's own error instead, and to nothing else. A
parser that cannot be started stops an analysis, which then comes to that problem. -/
theorem run_accounts (host : Host) (world : World σ (Option Source)) (options : Options)
    (files : List String) (s : σ) :
    (∀ c, Begun host world options files s c →
      c.first.length ≤ 4 * (candidates host options files).length ∧
      c.second.length ≤ 4 * (candidates host options files).length ∧
      ∃ more more', Choices.Complete host world options files s
        ⟨c.first ++ more, c.second ++ more'⟩) ∧
    (Textful world → ∀ c, Choices.Complete host world options files s c →
      Account host world options files (surveyRun host world options files s c.first).2
        (measureRun host world options files s c).2
        (run host world options files (.ok ()) (some c) s).2) ∧
    (∀ c, Choices.Complete host world options files s c →
      Account host world options files (surveyRun host world options files s c.first).2
          (measureRun host world options files s c).2
          (run host world options files (.ok ()) (some c) s).2 ∨
        ∃ why, (run host world options files (.ok ()) (some c) s).2.report = .error why ∧
          ∃ path ∈ candidates host options files, ∃ s',
            (world.size s' path).1 = .error (.textless why) ∨
            (world.value s' path).1 = .error (.textless why)) ∧
    (∀ t choices, (run host world options files (.error t) choices s).2.report = .error t) := by
  refine ⟨fun c hc => ?_, fun htext c hc => .of_textful htext hc, fun c hc => Account.of_complete hc,
    fun _ _ => rfl⟩
  obtain ⟨hfirst, hsecond, hmore⟩ := hc.complete
  refine ⟨hfirst, ?_, hmore⟩
  cases hc with
  | first => exact Nat.zero_le _
  | second ho hr =>
    have hle := survivorsOf_length_le ho hr
    dsimp only at hsecond ⊢
    omega

/-- A parser that fails from the second call on. -/
def tiring : World Nat (Option Source) where
  size calls _ := (.ok 1, calls)
  value calls _ := (if calls = 0 then .ok none else .error (.problem (.bare "tired")), calls + 1)

theorem tiring_textful : Textful tiring := by
  intro calls path why
  refine ⟨nofun, ?_⟩
  unfold tiring
  dsimp only
  split <;> nofun

theorem run_accounts_tiring :
    ∃ c, Choices.Complete ⟨"/p", "/home"⟩ tiring { concurrency := 2 }
        ["/p/A.java", "/p/A.java"] 0 c ∧
      Account ⟨"/p", "/home"⟩ tiring { concurrency := 2 } ["/p/A.java", "/p/A.java"]
        (surveyRun ⟨"/p", "/home"⟩ tiring { concurrency := 2 } ["/p/A.java", "/p/A.java"] 0
          c.first).2
        (measureRun ⟨"/p", "/home"⟩ tiring { concurrency := 2 } ["/p/A.java", "/p/A.java"] 0 c).2
        (run ⟨"/p", "/home"⟩ tiring { concurrency := 2 } ["/p/A.java", "/p/A.java"] (.ok ())
          (some c) 0).2 := by
  obtain ⟨c, hc, -⟩ := exists_complete_inOrder ⟨"/p", "/home"⟩ tiring { concurrency := 2 }
    ["/p/A.java", "/p/A.java"] 0
  exact ⟨c, hc, (run_accounts ⟨"/p", "/home"⟩ tiring { concurrency := 2 }
    ["/p/A.java", "/p/A.java"] 0).2.1 tiring_textful c hc⟩

/-- A parser that stops with a value without a text. -/
def speechless : World Unit (Option Source) where
  size _ _ := (.ok 1, ())
  value _ _ := (.error (.textless (.problem (.error "TypeError" "no text"))), ())

/-- The call for the only file is stopped by a value without a text. The analysis is over, with no
report and no progress. -/
theorem textless_problem_unaccounted :
    Choices.Complete ⟨"/p", "/home"⟩ speechless {} ["/p/A.java"] () ⟨[0], []⟩ ∧
      (run ⟨"/p", "/home"⟩ speechless {} ["/p/A.java"] (.ok ()) (some ⟨[0], []⟩) ()).2.report =
        .error (.problem (.error "TypeError" "no text")) ∧
      (run ⟨"/p", "/home"⟩ speechless {} ["/p/A.java"] (.ok ()) (some ⟨[0], []⟩) ()).2.progress =
        [] := by
  have hrejected : (surveyRun ⟨"/p", "/home"⟩ speechless {} ["/p/A.java"] () [0]).2.rejected =
      some (.problem (.error "TypeError" "no text")) := by decide +kernel
  refine ⟨⟨by decide +kernel, fun hr => ?_⟩, ?_, by decide +kernel⟩
  · cases hrejected.symm.trans hr
  · rw [run_eq_rejected hrejected]

end ClassCohesion.Analysis
