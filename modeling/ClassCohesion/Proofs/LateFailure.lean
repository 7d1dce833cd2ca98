import ClassCohesion.Proofs.Replies

/-!
# Files that fail late

A file that fails in the second phase has no classes in the report, but the graph was made in the
first phase and keeps what the file declared. So the file is not gone without a trace: the classes
of other files are measured against a graph that has its facts.

- `Replies.report_classes`, `Replies.report_without_classes`: with and without the file the same
  sites are measured in the same order, each time against another graph.
- `Site.metrics_eq_iff`: so nothing but depths and numbers of children can differ, and the reports
  have the same classes if and only if these do not.

A class whose only child is declared in such a file is one for which they do.
-/

namespace ClassCohesion.Analysis

open Pool (World)

variable {σ : Type}

/-- The files but one. -/
def without (files : List String) (f : String) : List String := files.filter (· ≠ f)

/-! ## Sites -/

/-- Where a class is measured. -/
structure Site where
  path : String
  language : String
  node : Syntax.Node

namespace Site

/-- The name of the class. -/
def name (site : Site) : String := site.node.nameText

/-- The metrics of the class against a graph. -/
def metrics (graph : Inheritance.Graph) (site : Site) : ClassMetrics :=
  .ofNode site.path site.language graph site.node

/-- The classes of a parsed file. -/
def ofSource (path : String) : Option Source → List Site
  | some s => (Language.classesIn (Language.Profile.ofTag s.language) s.root).map fun c =>
      ⟨path, s.language, c.node⟩
  | none => []

theorem classes_ofSource (graph : Inheritance.Graph) (path : String) (source : Option Source) :
    (FileClasses.ofSource graph path source).classes =
      (ofSource path source).map (metrics graph) := by
  cases source with
  | none => rfl
  | some s =>
    show ClassMetrics.ofTree path s.language graph s.root = _
    rw [ofSource, List.map_map]
    rfl

/-- Two graphs give a class the same metrics if they give it the same depth and number of
children. -/
theorem metrics_eq_iff {graph graph' : Inheritance.Graph} {site : Site} :
    site.metrics graph = site.metrics graph' ↔
      graph.depth site.name = graph'.depth site.name ∧
        graph.childCount site.name = graph'.childCount site.name := by
  constructor
  · intro h
    exact ⟨Number.ofNat_inj.mp (congrArg ClassMetrics.dit h),
      Number.ofNat_inj.mp (congrArg ClassMetrics.noc h)⟩
  · rintro ⟨hdepth, hcount⟩
    unfold name at hdepth hcount
    simp only [metrics, ClassMetrics.ofNode, hdepth, hcount]

/-- The metrics of a class but those that depend on the graph. -/
def ownMetrics (m : ClassMetrics) : ClassMetrics := { m with dit := 0, noc := 0 }

theorem ownMetrics_metrics (graph graph' : Inheritance.Graph) (site : Site) :
    ownMetrics (site.metrics graph) = ownMetrics (site.metrics graph') := by
  simp only [ownMetrics, metrics, ClassMetrics.ofNode]

/-- Sites in the order of a report. -/
def sort (sites : List Site) : List Site :=
  sites.mergeSort fun a b => !Number.lt (a.metrics .empty).lcom (b.metrics .empty).lcom

/-- The order of a report does not depend on the graph. -/
theorem sortClasses_metrics (graph : Inheritance.Graph) (sites : List Site) :
    Report.sortClasses .lcom (sites.map (metrics graph)) = (sort sites).map (metrics graph) := by
  unfold Report.sortClasses Report.sortBy sort
  exact (List.map_mergeSort (f := metrics graph) fun a _ b _ => rfl).symm

theorem map_metrics_sort_eq_iff {graph graph' : Inheritance.Graph} {sites : List Site} :
    (sort sites).map (metrics graph) = (sort sites).map (metrics graph') ↔
      ∀ site ∈ sites, graph.depth site.name = graph'.depth site.name ∧
        graph.childCount site.name = graph'.childCount site.name := by
  rw [List.map_inj_left]
  simp only [metrics_eq_iff, sort, List.mem_mergeSort]

end Site

namespace Replies

variable {r : Replies} {host : Host} {options : Options} {files : List String} {f : String}

/-- The sites that are measured, in the order of the files. -/
def sites (r : Replies) (host : Host) (options : Options) (files : List String) : List Site :=
  (r.survivors host options files).flatMap fun path =>
    (r.reread path).toOption.toList.flatMap (Site.ofSource path)

theorem measured_classes :
    (r.measured host options files).flatMap FileClasses.classes =
      (r.sites host options files).map (Site.metrics (r.graph host options files)) := by
  rw [measured, sites, List.map_flatMap, List.filterMap_eq_flatMap_toList, List.flatMap_assoc]
  refine List.flatMap_congr fun path _ => ?_
  cases r.reread path with
  | error p => rfl
  | ok source =>
    simp only [Except.toOption, Option.map_some, Option.toList_some, List.flatMap_cons,
      List.flatMap_nil, List.append_nil]
    exact Site.classes_ofSource _ path source

theorem report_classes (r : Replies) (host : Host) (options : Options) (files : List String) :
    (r.report host options files).classes =
      (Site.sort (r.sites host options files)).map (Site.metrics (r.graph host options files)) := by
  rw [← Site.sortClasses_metrics, ← measured_classes]
  rfl

/-! ## Leaving a file out -/

theorem filter_without (keep : String → Bool) (paths : List String) :
    (without paths f).filter keep = without (paths.filter keep) f := by
  rw [without, without, List.filter_filter, List.filter_filter]
  exact List.filter_congr fun path _ => Bool.and_comm _ _

/-- Under a given root, a file is a candidate whatever other files there are. -/
theorem candidates_without {root : String} (hroot : options.projectRoot = some root) :
    candidates host options (without files f) = without (candidates host options files) f := by
  have h : ∀ files, rootFor host options files = some root := by
    intro files
    rw [rootFor, hroot, Option.some_or]
  unfold candidates
  rw [h, h]
  exact filter_without _ _

theorem survivors_without {root : String} (hroot : options.projectRoot = some root) :
    r.survivors host options (without files f) = without (r.survivors host options files) f := by
  rw [survivors, candidates_without hroot]
  exact filter_without _ _

theorem flatMap_without {γ : Type} {g : String → List γ} (hg : g f = []) (paths : List String) :
    (without paths f).flatMap g = paths.flatMap g := by
  induction paths with
  | nil => rfl
  | cons path paths ih =>
    by_cases h : path = f
    · subst h
      rw [List.flatMap_cons, hg, List.nil_append, ← ih, without, without,
        List.filter_cons_of_neg (by simp)]
    · rw [without, List.filter_cons_of_pos (by simpa using h), List.flatMap_cons,
        List.flatMap_cons, ← ih, without]

theorem reread_of_late {p : Problem} (hlate : r.second f = .error p) : r.reread f = .error p := by
  rw [reread, hlate]
  rfl

/-- A file that fails in the second phase has no sites. -/
theorem sites_without {root : String} (hroot : options.projectRoot = some root) {p : Problem}
    (hlate : r.second f = .error p) :
    r.sites host options (without files f) = r.sites host options files := by
  rw [sites, survivors_without hroot]
  refine flatMap_without ?_ _
  rw [reread_of_late hlate]
  rfl

theorem report_without_classes (r : Replies) (host : Host) (files : List String) {root : String}
    (hroot : options.projectRoot = some root) {p : Problem} (hlate : r.second f = .error p) :
    (r.report host options (without files f)).classes =
      (Site.sort (r.sites host options files)).map
        (Site.metrics (r.graph host options (without files f))) := by
  rw [report_classes, sites_without hroot hlate]

theorem mem_skipped_of_late (hf : f ∈ candidates host options files) {p : Problem}
    (hlate : r.second f = .error p) : ∃ skip ∈ r.skipped host options files, skip.path = f := by
  have hproblem : ∃ q, r.problem host options f = some q := by
    unfold problem
    cases r.facts host options f with
    | error q => exact ⟨_, rfl⟩
    | ok facts =>
      rw [reread_of_late hlate]
      exact ⟨_, rfl⟩
  obtain ⟨q, hq⟩ := hproblem
  exact ⟨_, List.mem_filterMap.mpr ⟨f, hf, by rw [hq]; rfl⟩, rfl⟩

end Replies

/-! ## Two files -/

namespace Sample

/-- One worker. -/
def alone : Options := { options with concurrency := 1 }

def pair : List String := ["/p/Animal.java", "/p/Dog.java"]

/-- A file that can be read the first time only. -/
def losing (lost : String) : Replies where
  size _ := .ok 1
  first := reply
  second path := if path = lost then .error (.bare "gone") else reply path

end Sample

/-! ## With and without a file -/

section

variable {host : Host} {world : World σ (Option Source)} {options : Options} {files : List String}
  {s : σ} {r : Replies} {f root : String} {p : Problem} {c c' : Choices}

/-- **What a late failure leaves behind.** Of a file that fails in the second phase the report of a
run has no classes, only the reason why it was skipped. Against the run without the file, nothing
but depths and numbers of children can differ, and they do unless the facts of the file make no
difference to them for any class that is measured. -/
theorem late_failure_traceless_iff (hnd : files.Nodup) (hw : r.Given world s)
    (hroot : options.projectRoot = some root) (hf : f ∈ candidates host options files)
    (hlate : r.second f = .error p) (hc : c.Complete host world options files s)
    (hc' : c'.Complete host world options (without files f) s) :
    ∃ report report' : Report,
      (run host world options files (.ok ()) (some c) s).2.report = .ok report ∧
      (run host world options (without files f) (.ok ()) (some c') s).2.report = .ok report' ∧
      (∃ skip ∈ report.skipped, skip.path = f) ∧
      report.classes.map Site.ownMetrics = report'.classes.map Site.ownMetrics ∧
      ((report.classes = report'.classes ∧ report.summary = report'.summary) ↔
        ∀ site ∈ r.sites host options files,
          (r.graph host options files).depth site.name =
            (r.graph host options (without files f)).depth site.name ∧
          (r.graph host options files).childCount site.name =
            (r.graph host options (without files f)).childCount site.name) := by
  -- both reports measure the same sites in the same order, each against its own graph
  have hclasses := r.report_classes host options files
  have hclasses' := r.report_without_classes host files hroot hlate
  refine ⟨_, _, Replies.run_report hnd hw hc, Replies.run_report (hnd.filter _) hw hc', ?_, ?_, ?_⟩
  · obtain ⟨skip, hskip, hpath⟩ := Replies.mem_skipped_of_late hf hlate
    refine ⟨skip, ?_, hpath⟩
    exact List.mem_mergeSort.mpr ((Replies.skipped_perm hnd hw hc).mem_iff.mpr hskip)
  · show (r.report host options files).classes.map _ =
      (r.report host options (without files f)).classes.map _
    rw [hclasses, hclasses', List.map_map, List.map_map]
    exact List.map_congr_left fun site _ => Site.ownMetrics_metrics _ _ site
  · show ((r.report host options files).classes =
      (r.report host options (without files f)).classes ∧
        Report.summarize (r.report host options files).classes =
          Report.summarize (r.report host options (without files f)).classes) ↔ _
    rw [hclasses, hclasses', ← Site.map_metrics_sort_eq_iff]
    exact ⟨fun h => h.1, fun h => ⟨h, congrArg Report.summarize h⟩⟩

end

/-- The file of the animal may fail late: to the dog a parent that is not declared is like one
without parents. -/
theorem late_animal_traceless :
    ∃ report report' : Report,
      (run Sample.host (Sample.losing "/p/Animal.java").toWorld Sample.alone Sample.pair (.ok ())
        none []).2.report = .ok report ∧
      (run Sample.host (Sample.losing "/p/Animal.java").toWorld Sample.alone
        (without Sample.pair "/p/Animal.java") (.ok ()) none []).2.report = .ok report' ∧
      report.classes = report'.classes ∧ report.summary = report'.summary := by
  obtain ⟨c, hc, hrun⟩ := exists_complete_inOrder Sample.host
    (Sample.losing "/p/Animal.java").toWorld Sample.alone Sample.pair []
  obtain ⟨c', hc', hrun'⟩ := exists_complete_inOrder Sample.host
    (Sample.losing "/p/Animal.java").toWorld Sample.alone (without Sample.pair "/p/Animal.java") []
  obtain ⟨report, report', h, h', -, -, hiff⟩ := late_failure_traceless_iff (by decide)
    (Replies.given_toWorld (Sample.losing "/p/Animal.java")) rfl (by decide +kernel) rfl hc hc'
  rw [← hrun] at h
  rw [← hrun'] at h'
  exact ⟨report, report', h, h', hiff.mpr (by decide +kernel)⟩

/-- **A late failure counts.** The animal is measured as having a child, though the file of the dog
is skipped; without that file it has none. -/
theorem late_dog_counts :
    ((Sample.losing "/p/Dog.java").facts Sample.host Sample.alone "/p/Dog.java").isOk = true ∧
      (Sample.losing "/p/Dog.java").second "/p/Dog.java" = .error (.bare "gone") ∧
      ∃ report report' : Report,
        (run Sample.host (Sample.losing "/p/Dog.java").toWorld Sample.alone Sample.pair (.ok ())
          none []).2.report = .ok report ∧
        (run Sample.host (Sample.losing "/p/Dog.java").toWorld Sample.alone
          (without Sample.pair "/p/Dog.java") (.ok ()) none []).2.report = .ok report' ∧
        report.classes.map ClassMetrics.noc = [1] ∧ report'.classes.map ClassMetrics.noc = [0] := by
  obtain ⟨c, hc, hrun⟩ := exists_complete_inOrder Sample.host
    (Sample.losing "/p/Dog.java").toWorld Sample.alone Sample.pair []
  obtain ⟨c', hc', hrun'⟩ := exists_complete_inOrder Sample.host
    (Sample.losing "/p/Dog.java").toWorld Sample.alone (without Sample.pair "/p/Dog.java") []
  have hw := Replies.given_toWorld (Sample.losing "/p/Dog.java")
  rw [hrun, hrun', Replies.run_report (by decide) hw hc, Replies.run_report (by decide) hw hc']
  refine ⟨by decide +kernel, rfl, _, _, rfl, rfl, List.perm_singleton.mp ?_,
    List.perm_singleton.mp ?_⟩
  · refine ((List.mergeSort_perm _ _).map ClassMetrics.noc).trans (.of_eq ?_)
    decide +kernel
  · refine ((List.mergeSort_perm _ _).map ClassMetrics.noc).trans (.of_eq ?_)
    decide +kernel

end ClassCohesion.Analysis
