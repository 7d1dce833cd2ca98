import ClassCohesion.Proofs.ClassNodes
import ClassCohesion.Proofs.SizeLimits

/-!
# The order of a report

A report comes out of three sorts: results go back to the order of their files, the analysis sorts
the classes by their lack of cohesion, and the command sorts them by the key it is given. All of
them are stable, so together they are one lexicographic order.

A class is found at a place, which is the position of its file and the address of its node.
`Finding` keeps the place next to the metrics, so that classes that look the same are told apart.

- `Replies.findings`: what an analysis finds, in the order of the files and of the document.
- `Finding.Ahead`: the lexicographic order, and `ranked_ahead` that the sorts lead to it.
- `Command.exists_shows`: what the table of a sorted report shows.
-/

namespace ClassCohesion

/-- The measures that a report can be ordered by are counts. -/
theorem SortKey.exists_value_ofNode (key : SortKey) (path language : String)
    (graph : Inheritance.Graph) (node : Syntax.Node) :
    ∃ n : Nat, key.value (ClassMetrics.ofNode path language graph node) = n := by
  cases key <;> exact ⟨_, rfl⟩

namespace Analysis

open ClassCohesion.Language (Profile classSites)

/-! ## Findings -/

/-- A class that an analysis finds: the position of its file, the address of its node in the tree of
the file, and its metrics. -/
structure Finding where
  file : Nat
  address : List Nat
  metrics : ClassMetrics

namespace Finding

/-- The order of the files and, within a file, of the document. -/
def Before (a b : Finding) : Prop := a.file < b.file ∨ a.file = b.file ∧ a.address < b.address

/-- The order of a report: by falling value of the key, then by falling lack of cohesion, then by
place. -/
def Ahead (key : SortKey) (a b : Finding) : Prop :=
  Number.lt (key.value b.metrics) (key.value a.metrics) = true ∨
    key.value a.metrics = key.value b.metrics ∧
      (Number.lt b.metrics.lcom a.metrics.lcom = true ∨
        a.metrics.lcom = b.metrics.lcom ∧ a.Before b)

end Finding

namespace Replies

section

variable (r : Replies) (host : Host) (options : Options) (files : List String)

/-- The findings of an analysis are the named class nodes without a class node above them, in the
trees of the files that come through both phases. -/
def Finds (f : Finding) : Prop :=
  ∃ path source node, files[f.file]? = some path ∧ path ∈ r.survivors host options files ∧
    r.reread path = .ok (some source) ∧ source.root.at? f.address = some node ∧
    node.kind ∈ (Profile.ofTag source.language).classKinds ∧ node.nameText ≠ "" ∧
    (∀ m, source.root.Above f.address m → m.kind ∉ (Profile.ofTag source.language).classKinds) ∧
    f.metrics = ClassMetrics.ofNode path source.language (r.graph host options files) node

/-- The findings in one file. -/
def findingsIn (path : String) : Option Source → List Finding
  | some source => (classSites (.ofTag source.language) source.root).map fun site =>
      ⟨position files path, site.1,
        ClassMetrics.ofNode path source.language (r.graph host options files) site.2⟩
  | none => []

/-- The findings of an analysis, by place. -/
def findings : List Finding :=
  (r.survivors host options files).flatMap fun path =>
    (r.reread path).toOption.toList.flatMap (r.findingsIn host options files path)

end

variable {r : Replies} {host : Host} {options : Options} {files : List String}

theorem mem_findingsIn {path : String} {source : Option Source} {f : Finding} :
    f ∈ r.findingsIn host options files path source ↔
      ∃ s node, source = some s ∧ f.file = position files path ∧
        (f.address, node) ∈ classSites (.ofTag s.language) s.root ∧
        f.metrics = ClassMetrics.ofNode path s.language (r.graph host options files) node := by
  cases source with
  | none => simp [findingsIn]
  | some s =>
    rw [findingsIn, List.mem_map]
    constructor
    · rintro ⟨⟨a, node⟩, hsite, rfl⟩
      exact ⟨s, node, rfl, rfl, hsite, rfl⟩
    · rintro ⟨_, node, ⟨⟩, hfile, hsite, hmetrics⟩
      obtain ⟨file, address, metrics⟩ := f
      obtain rfl : file = position files path := hfile
      obtain rfl : metrics = _ := hmetrics
      exact ⟨(address, node), hsite, rfl⟩

theorem mem_findings {f : Finding} :
    f ∈ r.findings host options files ↔
      ∃ path source node, path ∈ r.survivors host options files ∧
        r.reread path = .ok (some source) ∧ f.file = position files path ∧
        (f.address, node) ∈ classSites (.ofTag source.language) source.root ∧
        f.metrics = ClassMetrics.ofNode path source.language (r.graph host options files) node := by
  rw [findings, List.mem_flatMap]
  constructor
  · rintro ⟨path, hpath, hf⟩
    obtain ⟨source, hsource, hf⟩ := List.mem_flatMap.mp hf
    obtain ⟨s, node, rfl, hfile, hsite, hmetrics⟩ := mem_findingsIn.mp hf
    refine ⟨path, s, node, hpath, ?_, hfile, hsite, hmetrics⟩
    cases h : r.reread path with
    | error p =>
      rw [h] at hsource
      cases hsource
    | ok answer =>
      rw [h] at hsource
      rw [List.mem_singleton.mp hsource]
  · rintro ⟨path, s, node, hpath, hsecond, hfound⟩
    have hf := mem_findingsIn.mpr ⟨s, node, rfl, hfound⟩
    refine ⟨path, hpath, List.mem_flatMap.mpr ⟨some s, ?_, hf⟩⟩
    simp [hsecond, Except.toOption]

theorem survivors_subset {path : String} (h : path ∈ r.survivors host options files) :
    path ∈ files :=
  List.mem_of_mem_filter (List.mem_of_mem_filter h)

theorem mem_findings_iff (hnd : files.Nodup) {f : Finding} :
    f ∈ r.findings host options files ↔ r.Finds host options files f := by
  rw [mem_findings, Finds]
  constructor
  · rintro ⟨path, source, node, hpath, hsecond, hfile, hsite, hmetrics⟩
    obtain ⟨hat, hkind, hname, habove⟩ := Language.mem_classSites.mp hsite
    exact ⟨path, source, node,
      (getElem?_eq_some_iff_position hnd (survivors_subset hpath)).mpr hfile,
      hpath, hsecond, hat, hkind, hname, habove, hmetrics⟩
  · rintro ⟨path, source, node, hfile, hpath, hsecond, hat, hkind, hname, habove, hmetrics⟩
    exact ⟨path, source, node, hpath, hsecond,
      (getElem?_eq_some_iff_position hnd (survivors_subset hpath)).mp hfile,
      Language.mem_classSites.mpr ⟨hat, hkind, hname, habove⟩, hmetrics⟩

theorem map_metrics_findingsIn (path : String) (source : Option Source) :
    (r.findingsIn host options files path source).map Finding.metrics =
      (FileClasses.ofSource (r.graph host options files) path source).classes := by
  cases source with
  | none => rfl
  | some s =>
    rw [findingsIn, FileClasses.ofSource, ClassMetrics.ofTree, Language.classesIn_eq_outline,
      List.map_map, List.map_map]
    rfl

/-- The metrics of the findings are those that the second phase hands on. -/
theorem map_metrics_findings :
    (r.findings host options files).map Finding.metrics =
      (r.measured host options files).flatMap FileClasses.classes := by
  rw [findings, measured, List.filterMap_eq_flatMap_toList, List.flatMap_assoc, List.map_flatMap]
  refine List.flatMap_congr fun path _ => ?_
  cases r.reread path with
  | error p => rfl
  | ok source =>
    simp only [Except.toOption, Option.toList_some, Option.map_some, List.flatMap_cons,
      List.flatMap_nil, List.append_nil]
    exact map_metrics_findingsIn path source

/-- Findings are listed by place. -/
theorem findings_before (hnd : files.Nodup) :
    (r.findings host options files).Pairwise Finding.Before := by
  have hsurvivors : (r.survivors host options files).Pairwise fun a b =>
      position files a < position files b := ((position_pairwise_lt hnd).filter _).filter _
  rw [findings, List.pairwise_flatMap]
  refine ⟨fun path _ => ?_, hsurvivors.imp fun hlt a ha b hb => ?_⟩
  · cases r.reread path with
    | error p => exact .nil
    | ok source =>
      cases source with
      | none => exact .nil
      | some s =>
        have hsites := Language.classSites_ordered (.ofTag s.language) s.root
        simp only [Except.toOption, Option.toList_some, List.flatMap_cons, List.flatMap_nil,
          List.append_nil, findingsIn, List.pairwise_map]
        exact hsites.imp fun hlt => .inr ⟨rfl, hlt⟩
  · obtain ⟨_, -, ha⟩ := List.mem_flatMap.mp ha
    obtain ⟨_, -, hb⟩ := List.mem_flatMap.mp hb
    obtain ⟨_, _, -, hfile, -⟩ := mem_findingsIn.mp ha
    obtain ⟨_, _, -, hfile', -⟩ := mem_findingsIn.mp hb
    left
    rw [hfile, hfile']
    exact hlt

theorem exists_value_of_mem_findings (key : SortKey) :
    ∀ f ∈ r.findings host options files, ∃ n : Nat, key.value f.metrics = n := by
  intro f hf
  obtain ⟨path, source, node, -, -, -, -, hmetrics⟩ := mem_findings.mp hf
  rw [hmetrics]
  exact key.exists_value_ofNode _ _ _ _

end Replies

/-! ## The three sorts together -/

/-- Findings by falling value of a key. -/
def sortFindings (key : SortKey) (findings : List Finding) : List Finding :=
  findings.mergeSort fun a b => !Number.lt (key.value a.metrics) (key.value b.metrics)

theorem map_metrics_sortFindings (key : SortKey) (findings : List Finding) :
    (sortFindings key findings).map Finding.metrics =
      Report.sortClasses key (findings.map Finding.metrics) :=
  List.map_mergeSort fun _ _ _ _ => rfl

/-- Findings in the order of a report. -/
def ranked (key : SortKey) (findings : List Finding) : List Finding :=
  sortFindings key (sortFindings .lcom findings)

theorem ranked_perm (key : SortKey) (findings : List Finding) :
    (ranked key findings).Perm findings :=
  (List.mergeSort_perm _ _).trans (List.mergeSort_perm _ _)

theorem map_metrics_ranked (key : SortKey) (findings : List Finding) :
    (ranked key findings).map Finding.metrics =
      Report.sortClasses key (Report.sortClasses .lcom (findings.map Finding.metrics)) := by
  rw [ranked, map_metrics_sortFindings, map_metrics_sortFindings]

/-- **Stable sorts make a lexicographic order.** -/
theorem ranked_ahead {key : SortKey} {findings : List Finding}
    (hcount : ∀ key : SortKey, ∀ f ∈ findings, ∃ n : Nat, key.value f.metrics = n)
    (h : findings.Pairwise Finding.Before) :
    (ranked key findings).Pairwise (Finding.Ahead key) := by
  have hlcom := pairwise_mergeSort_falling (hcount .lcom) h
  refine pairwise_mergeSort_falling (fun f hf => ?_) hlcom
  exact hcount key f (List.mem_mergeSort.mp hf)

theorem Replies.ranked_findings_ahead {r : Replies} {host : Host} {options : Options}
    {files : List String} (hnd : files.Nodup) (key : SortKey) :
    (ranked key (r.findings host options files)).Pairwise (Finding.Ahead key) :=
  ranked_ahead (fun key => exists_value_of_mem_findings key) (findings_before hnd)

end Analysis

namespace Command

open Analysis (Finding Replies ranked)
open ClassCohesion.Report (Paint)

/-! ## The table of a report -/

/-- The line that tells how many classes the table leaves out. -/
def remainderLine (colors : Bool) (more : Nat) : String :=
  Paint.gray.apply colors ("  ... " ++ toString more ++ " more (use --top to show more)")

/-- A report shows some of its classes, the first ones, and leaves out the rest: as many as `top`
allows are shown, none of the rest has a larger value, and the number of the rest is printed. -/
structure Shows (host : Host) (colors : Bool) (project : String) (key : SortKey) (top : Nat)
    (report : Report) (shown rest : List ClassMetrics) : Prop where
  split : shown ++ rest = report.classes
  length : shown.length = min top report.classes.length
  above : ∀ a ∈ shown, ∀ b ∈ rest, Number.le (key.value b) (key.value a) = true
  lines : report.classes ≠ [] →
    (Report.table host colors project shown).map ("  " ++ ·) ++
      (if rest = [] then []
        else [remainderLine colors (report.classes.length - shown.length)]) <:+:
      reportLines host colors project top report

/-- The lines about the classes are among those of the report. -/
theorem classLines_isInfix (host : Host) (colors : Bool) (project : String) (top : Nat)
    (report : Report) :
    classLines host colors project top report <:+: reportLines host colors project top report := by
  unfold reportLines
  simp only [List.append_assoc]
  exact (List.prefix_append _ _).isInfix.trans (List.suffix_append [""] _).isInfix

theorem classLines_eq {host : Host} {colors : Bool} {project : String} {top : Nat}
    {report : Report} (h : report.classes ≠ []) :
    classLines host colors project top report =
      (Report.table host colors project (report.classes.take top)).map ("  " ++ ·) ++
        if report.classes.drop top = [] then []
        else [remainderLine colors
          (report.classes.length - (report.classes.take top).length)] := by
  have hempty : ¬report.classes.isEmpty = true := by simpa using h
  have hmore : report.classes.length - (report.classes.take top).length =
      report.classes.length - top := by
    rw [List.length_take]
    omega
  have hnone : report.classes.drop top = [] ↔ report.classes.length - top = 0 := by
    rw [← List.length_eq_zero_iff, List.length_drop]
  rw [classLines, if_neg hempty, hmore]
  simp only [shownClasses, hnone]
  rfl

theorem exists_shows {report : Report} {key : SortKey}
    (h : report.classes.Pairwise fun a b => Number.le (key.value b) (key.value a) = true)
    (host : Host) (colors : Bool) (project : String) (top : Nat) :
    ∃ shown rest, Shows host colors project key top report shown rest := by
  refine ⟨report.classes.take top, report.classes.drop top, List.take_append_drop _ _,
    List.length_take, ?_, fun hne => ?_⟩
  · rw [← List.take_append_drop top report.classes, List.pairwise_append] at h
    exact h.2.2
  · rw [← classLines_eq hne]
    exact classLines_isInfix host colors project top report

/-- In the lexicographic order the values of the key do not rise. -/
theorem pairwise_le_of_ahead {key : SortKey} {findings : List Finding}
    (hcount : ∀ f ∈ findings, ∃ n : Nat, key.value f.metrics = n)
    (h : findings.Pairwise (Finding.Ahead key)) :
    (findings.map Finding.metrics).Pairwise fun a b =>
      Number.le (key.value b) (key.value a) = true := by
  rw [List.pairwise_map]
  refine h.imp_of_mem fun {a b} _ hb hab => Number.le_iff.mpr ?_
  rcases hab with hlt | ⟨heq, -⟩
  · exact .inl hlt
  · obtain ⟨n, hn⟩ := hcount b hb
    exact .inr ⟨hn ▸ nofun, heq.symm⟩

/-! ## The run of the command -/

section

variable {σ : Type} {m : Machine} {parser : Parser σ} {s : σ} {project : String}
  {settings : Settings} {files : List String} {d : Desk} {report : Report}

/-- The command puts the report of its analysis in order. -/
theorem analyzeFiles_eq
    (h : (Analysis.run m.host (world m parser d.disk) (analysisOptions m project settings) files
      (Thrown.lift parser.ready) none s).2.report = .ok report) :
    ((analyzeFiles m parser s project settings files).run d).1 =
      .ok (report.orderBy settings.sort) := by
  unfold analyzeFiles
  simp only [ExceptT.run, bind, ExceptT.bind, ExceptT.mk, ExceptT.bindCont, StateT.bind, get,
    getThe, MonadStateOf.get, liftM, monadLift, MonadLift.monadLift, ExceptT.lift, StateT.get,
    Functor.map, StateT.map, pure, h]
  rfl

variable {r : Replies}

theorem Gives.classes_eq (hnd : files.Nodup) (hw : r.Given (world m parser d.disk) s)
    (h : Gives m parser d.disk project files s settings report) :
    (report.orderBy settings.sort).classes = (ranked settings.sort
      (r.findings m.host (analysisOptions m project settings) files)).map Finding.metrics := by
  obtain ⟨c, hc, hrun⟩ := h.exists_complete
  rw [Replies.run_report hnd hw hc] at hrun
  cases hrun
  rw [Analysis.map_metrics_ranked, Replies.map_metrics_findings]
  rfl

/-- **The order of a report.** When a command analyses distinct files, the classes of its report are
those that the files declare, ordered by falling value of the key, then by falling lack of cohesion,
then by the order of the files and of the document. The table shows the first of them, as many as
the settings allow, none of the rest has a larger value, and their number is printed. -/
theorem report_in_lexicographic_order (project : String) (settings : Settings) (d : Desk)
    (hnd : files.Nodup) (hready : parser.ready = .ok ()) (hw : r.Given (world m parser d.disk) s) :
    (∃ report, Gives m parser d.disk project files s settings report ∧
      ((analyzeFiles m parser s project settings files).run d).1 =
        .ok (report.orderBy settings.sort)) ∧
    ∀ report, Gives m parser d.disk project files s settings report →
      (report.orderBy settings.sort).classes.Perm
        ((r.measured m.host (analysisOptions m project settings) files).flatMap
          Analysis.FileClasses.classes) ∧
      (∃ findings : List Finding,
        (report.orderBy settings.sort).classes = findings.map Finding.metrics ∧
        (∀ f, f ∈ findings ↔ r.Finds m.host (analysisOptions m project settings) files f) ∧
        findings.Pairwise (Finding.Ahead settings.sort)) ∧
      ∃ shown rest, Shows m.host m.colors project settings.sort settings.top
        (report.orderBy settings.sort) shown rest := by
  constructor
  · obtain ⟨report, hreport⟩ := exists_report hready settings
    exact ⟨report, ⟨none, nofun, hreport⟩, analyzeFiles_eq hreport⟩
  · intro report hreport
    have hclasses := hreport.classes_eq hnd hw
    have hahead : (ranked settings.sort (r.findings m.host (analysisOptions m project settings)
        files)).Pairwise (Finding.Ahead settings.sort) := Replies.ranked_findings_ahead hnd _
    refine ⟨?_, ⟨_, hclasses, fun f => ?_, hahead⟩, exists_shows ?_ _ _ _ _⟩
    · rw [hclasses, ← Replies.map_metrics_findings]
      exact (Analysis.ranked_perm _ _).map _
    · rw [(Analysis.ranked_perm _ _).mem_iff]
      exact Replies.mem_findings_iff hnd
    · rw [hclasses]
      refine pairwise_le_of_ahead (fun f hf => ?_) hahead
      exact Replies.exists_value_of_mem_findings _ f ((Analysis.ranked_perm _ _).mem_iff.mp hf)

end

namespace Sample

/-- A parser that answers by the file. -/
def answering (reply : String → Except Problem (Option Analysis.Source)) : Parser Unit :=
  ⟨.ok (), fun _ path => (reply path, ())⟩

theorem answering_given (reply : String → Except Problem (Option Analysis.Source)) (disk : Disk) :
    Replies.Given ⟨sizeOn machine disk, reply, reply⟩
      (world machine (answering reply) disk) () where
  size := fun _ _ => rfl
  first := fun _ _ _ => rfl
  second := fun _ _ _ => rfl

/-- The file of an animal comes before that of a dog, which extends it. -/
def pets : List String := ["/p/Animal.java", "/p/Dog.java"]

/-- One class, the deepest first. -/
def deepest : Settings := ⟨1, .dit, true, 0, ["**/*"], [], none⟩

/-- What the parser says about the pets. -/
def petReplies : Replies :=
  ⟨sizeOn machine {}, Analysis.Sample.reply, Analysis.Sample.reply⟩

theorem candidates_pets :
    Analysis.candidates machine.host (analysisOptions machine "/p" deepest) pets = pets := by
  decide +kernel

/-- The pets by the order of the files. -/
theorem measured_pets :
    ((petReplies.measured machine.host (analysisOptions machine "/p" deepest) pets).flatMap
      Analysis.FileClasses.classes).map (fun c => (c.className, c.dit)) =
        [("Animal", 0), ("Dog", 1)] := by
  rw [Replies.measured, Replies.survivors, Replies.graph, candidates_pets]
  decide +kernel

end Sample

open Sample

/-- The dog is shown and the animal, which comes first in the order of the files, is left out. -/
theorem report_in_lexicographic_order_pets :
    pets.Nodup ∧ (answering Analysis.Sample.reply).ready = .ok () ∧
      petReplies.Given (world machine (answering Analysis.Sample.reply) {}) () ∧
      ∃ report shown rest,
        ((analyzeFiles machine (answering Analysis.Sample.reply) () "/p" deepest pets).run
          { disk := {} }).1 = .ok report ∧
        Shows machine.host machine.colors "/p" .dit 1 report shown rest ∧
        shown.map ClassMetrics.className = ["Dog"] ∧
        rest.map ClassMetrics.className = ["Animal"] := by
  have hnd : pets.Nodup := by decide
  have hw := answering_given Analysis.Sample.reply {}
  obtain ⟨⟨report, hgives, hrun⟩, horder⟩ :=
    report_in_lexicographic_order "/p" deepest { disk := {} } hnd rfl hw
  obtain ⟨hperm, -, shown, rest, hshows⟩ := horder report hgives
  refine ⟨hnd, rfl, hw, _, shown, rest, hrun, hshows, ?_⟩
  have hpairs : ((shown ++ rest).map fun c => (c.className, c.dit)).Perm
      [("Animal", 0), ("Dog", 1)] := by
    rw [hshows.split, ← measured_pets]
    exact hperm.map _
  have htwo : shown.length + rest.length = 2 := by simpa using hpairs.length_eq
  have hone : shown.length = 1 := by
    rw [hshows.length, ← hshows.split, List.length_append, htwo]
    rfl
  obtain ⟨a, rfl⟩ := List.length_eq_one_iff.mp hone
  obtain ⟨b, rfl⟩ := List.length_eq_one_iff.mp (by omega : rest.length = 1)
  have habove : Number.le b.dit a.dit = true := hshows.above a (by simp) b (by simp)
  have hfirst : (a.className, a.dit) ∈ [("Animal", 0), ("Dog", (1 : Number))] :=
    hpairs.subset List.mem_cons_self
  simp only [List.singleton_append, List.map_cons, List.map_nil] at hpairs
  simp only [List.mem_cons, List.not_mem_nil, or_false, Prod.mk.injEq] at hfirst
  rcases hfirst with ⟨ha, hda⟩ | ⟨ha, hda⟩
  · -- the animal would stand above the dog
    rw [ha, hda] at hpairs
    have hb := List.singleton_inj.mp (List.perm_singleton.mp hpairs.cons_inv)
    rw [hda, (Prod.mk.inj hb).2] at habove
    exact absurd habove (by decide)
  · rw [ha, hda] at hpairs
    have hb := List.singleton_inj.mp (List.perm_singleton.mp (hpairs.trans (.swap _ _ _)).cons_inv)
    exact ⟨congrArg ([·]) ha, congrArg ([·]) (Prod.mk.inj hb).1⟩

end Command

end ClassCohesion
