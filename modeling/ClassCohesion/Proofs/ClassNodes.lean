import ClassCohesion.Proofs.Accounts
import ClassCohesion.Proofs.GraphFacts
import ClassCohesion.Proofs.Replies
import ClassCohesion.Proofs.TreeWalk

/-!
# What a class is, in both phases

The first phase takes a fact from every named class node of a tree, the second one measures those
that are not inside another class node. Both walk the tree on their own, and they agree:

- `classesIn_eq_outline`: the classes that are measured are the named class nodes of the outline that
  stops at class nodes.
- `classNames_sublist`: their names are among those of the facts, in the same order.
- `has_className_of_mem`: so if both phases see the same tree, the graph has every class that is
  measured.
-/

namespace ClassCohesion

open Syntax (Node Precedes)

namespace Language

variable {profile : Profile} {root : Node}

/-- A node that declares a class with a name. -/
def IsNamedClass (profile : Profile) (n : Node) : Prop :=
  n.kind ∈ profile.classKinds ∧ n.nameText ≠ ""

instance (profile : Profile) (n : Node) : Decidable (IsNamedClass profile n) :=
  inferInstanceAs (Decidable (_ ∧ _))

/-- A node that declares no class, with or without a name. -/
def isOther (profile : Profile) (n : Node) : Bool := !profile.classKinds.contains n.kind

theorem isOther_eq_true {n : Node} : isOther profile n = true ↔ n.kind ∉ profile.classKinds := by
  simp [isOther]

/-- The places of the classes that are measured. -/
def classSites (profile : Profile) (root : Node) : List (List Nat × Node) :=
  (root.outline (isOther profile)).filter fun e => IsNamedClass profile e.2

theorem classesIn_eq_outline (profile : Profile) (root : Node) :
    classesIn profile root = (classSites profile root).map fun e => ⟨e.2.nameText, e.2⟩ := by
  have hgive : ∀ n : Node,
      (if profile.classKinds.contains n.kind then
          (if n.nameText = "" then [] else [(⟨n.nameText, n⟩ : ClassDeclaration)], false)
        else ([], true)) =
      (if IsNamedClass profile n then [⟨n.nameText, n⟩] else [], isOther profile n) := by
    intro n
    by_cases hk : n.kind ∈ profile.classKinds
    · by_cases hn : n.nameText = "" <;> simp [IsNamedClass, isOther, hk, hn]
    · simp [IsNamedClass, isOther, hk]
  rw [classesIn, funext hgive, Syntax.collect_eq_map (IsNamedClass profile)]
  rfl

/-- A class is measured exactly if it has a name and no class node is above it. -/
theorem mem_classSites {a : List Nat} {n : Node} :
    (a, n) ∈ classSites profile root ↔
      root.at? a = some n ∧ n.kind ∈ profile.classKinds ∧ n.nameText ≠ "" ∧
        ∀ m, root.Above a m → m.kind ∉ profile.classKinds := by
  rw [classSites, List.mem_filter, Syntax.mem_outline, decide_eq_true_eq, IsNamedClass]
  simp only [isOther_eq_true]
  tauto

theorem classSites_ordered (profile : Profile) (root : Node) :
    (classSites profile root).Pairwise Precedes :=
  (Syntax.outline_ordered (isOther profile) root).filter _

end Language

namespace Inheritance

open ClassCohesion.Language (Profile IsNamedClass)

theorem factsIn_eq_outline (profile : Profile) (file : String) (root : Node) :
    factsIn profile file root =
      ((root.outline fun _ => true).filter fun e => IsNamedClass profile e.2).map
        fun e => ⟨e.2.nameText, Language.parentNames profile e.2, file⟩ := by
  rw [factsIn, Syntax.collect_eq_map
    fun n => profile.classKinds.contains n.kind = true ∧ n.nameText ≠ ""]
  congr 1
  refine List.filter_congr fun e _ => ?_
  rw [decide_eq_decide, List.contains_iff_mem, IsNamedClass]

theorem mem_factsIn {profile : Profile} {file : String} {root : Node} {fact : Fact} :
    fact ∈ factsIn profile file root ↔
      ∃ a n, root.at? a = some n ∧ IsNamedClass profile n ∧
        fact = ⟨n.nameText, Language.parentNames profile n, file⟩ := by
  rw [factsIn_eq_outline, List.mem_map]
  constructor
  · rintro ⟨⟨a, n⟩, hmem, rfl⟩
    obtain ⟨hout, hclass⟩ := List.mem_filter.mp hmem
    exact ⟨a, n, (Syntax.mem_outline.mp hout).1, of_decide_eq_true hclass, rfl⟩
  · rintro ⟨a, n, hat, hclass, rfl⟩
    refine ⟨(a, n), List.mem_filter.mpr ⟨?_, decide_eq_true hclass⟩, rfl⟩
    exact Syntax.mem_outline.mpr ⟨hat, fun _ _ => rfl⟩

/-- The names of the classes that are measured are among those that facts are taken of. -/
theorem classNames_sublist (profile : Profile) (file : String) (root : Node) :
    ((Language.classesIn profile root).map Language.ClassDeclaration.name).Sublist
      ((factsIn profile file root).map Fact.className) := by
  rw [Language.classesIn_eq_outline, factsIn_eq_outline, List.map_map, List.map_map]
  exact ((Syntax.outline_sublist (fun _ _ => rfl) root).filter _).map fun e => e.2.nameText

end Inheritance

namespace Analysis

open Pool (World Ends Ledger)

variable {σ : Type} {host : Host} {world : World σ (Option Source)} {options : Options}
  {files : List String} {s : σ}

/-- Whenever the parser has an answer for a file, it is the same one. -/
def SameTrees (world : World σ (Option Source)) : Prop :=
  ∀ s s' path source source', (world.value s path).1 = .ok source →
    (world.value s' path).1 = .ok source' → source = source'

/-- A class that is measured in a file is one that the file has a fact of. -/
theorem exists_fact_of_mem_classes {graph : Inheritance.Graph} {path : String}
    {source : Option Source} {m : ClassMetrics}
    (hm : m ∈ (FileClasses.ofSource graph path source).classes) :
    ∃ fact ∈ (FileFacts.ofSource path source).facts, fact.className = m.className := by
  cases source with
  | none => cases hm
  | some source =>
    obtain ⟨declared, hdeclared, rfl⟩ := List.mem_map.mp hm
    have hname : declared.name = declared.node.nameText := by
      rw [Language.classesIn_eq_outline] at hdeclared
      obtain ⟨e, -, rfl⟩ := List.mem_map.mp hdeclared
      rfl
    have hsub := (Inheritance.classNames_sublist (Language.Profile.ofTag source.language) path
      source.root).subset (List.mem_map_of_mem hdeclared)
    obtain ⟨fact, hfact, heq⟩ := List.mem_map.mp hsub
    exact ⟨fact, hfact, heq.trans hname⟩

/-- Every file of the second phase has given facts in the first. -/
theorem exists_facts_of_survivor {first : Pool (Option Source) FileFacts}
    {closed : List (String × Except Thrown FileFacts)}
    (h : Ledger (survey host options.bounded) world (candidates host options files) first closed)
    {path : String} (hpath : path ∈ survivorsOf host options files first) :
    ∃ s source, (world.value s path).1 = .ok source ∧
      FileFacts.ofSource path source ∈ surveyed (candidates host options files) first := by
  obtain ⟨f, hf, rfl⟩ := List.mem_map.mp hpath
  obtain ⟨file, -, hend⟩ := h.exists_result (List.mem_mergeSort.mp hf)
  obtain rfl : f.file = file := ends_survey_file file f hend
  obtain ⟨s, source, hv, hread⟩ := hend.exists_value rfl
  have hmade : FileFacts.ofSource f.file source = f := (read_eq_ok hread).2
  refine ⟨s, source, hv, ?_⟩
  rw [hmade]
  exact hf

/-- **The graph has every class that is measured**, if both phases see the same trees. -/
theorem has_className_of_mem {c : Choices} (hw : SameTrees world)
    (hc : c.Complete host world options files s) {report : Report}
    (hreport : (run host world options files (.ok ()) (some c) s).2.report = .ok report)
    {m : ClassMetrics} (hm : m ∈ report.classes) :
    (graphOf (surveyed (candidates host options files)
      (surveyRun host world options files s c.first).2)).has m.className = true := by
  obtain ⟨hfirst, -, rfl⟩ := report_of_run hreport
  obtain ⟨closed₁, h₁, -⟩ := Pool.run_ledger hc.first
  obtain ⟨closed₂, h₂, -⟩ := Pool.run_ledger (hc.second hfirst)
  -- the class is one of a file with a result in the second phase
  obtain ⟨f, hf, hmf⟩ := List.mem_flatMap.mp (List.mem_mergeSort.mp hm)
  obtain ⟨path, hpath, hend⟩ := h₂.exists_result (List.mem_mergeSort.mp hf)
  obtain ⟨s₂, source₂, hv₂, hread⟩ := hend.exists_value rfl
  obtain ⟨s₁, source₁, hv₁, hfacts⟩ := exists_facts_of_survivor h₁ hpath
  obtain rfl : source₁ = source₂ := hw s₁ s₂ path source₁ source₂ hv₁ hv₂
  rw [← (read_eq_ok hread).2] at hmf
  obtain ⟨fact, hfact, hname⟩ := exists_fact_of_mem_classes hmf
  exact Inheritance.Graph.has_ofFacts.mpr ⟨fact, List.mem_flatMap.mpr ⟨_, hfacts, hfact⟩, hname⟩

/-! ## Agreement -/

/-- **The phases agree on what a class is.** In every tree and language, the classes that are
measured are the named class nodes without a class node above them, in the order of the document, and
their names are among those of the facts, in that order. So if both phases see the same trees, the
graph has every class of the report, which there is unless something without a text stops the
analysis. -/
theorem phases_agree_on_classes :
    (∀ (language : String) (root : Node),
      (∃ sites : List (List Nat × Node), sites.Pairwise Precedes ∧
        (∀ a n, (a, n) ∈ sites ↔
          root.at? a = some n ∧ n.kind ∈ (Language.Profile.ofTag language).classKinds ∧
            n.nameText ≠ "" ∧
            ∀ m, root.Above a m → m.kind ∉ (Language.Profile.ofTag language).classKinds) ∧
        Language.classesIn (Language.Profile.ofTag language) root =
          sites.map fun site => ⟨site.2.nameText, site.2⟩) ∧
      ∀ file : String,
        ((Language.classesIn (Language.Profile.ofTag language) root).map
          Language.ClassDeclaration.name).Sublist
            ((Inheritance.factsIn (Language.Profile.ofTag language) file root).map
              Inheritance.Fact.className)) ∧
    ∀ (σ : Type) (host : Host) (world : World σ (Option Source)) (options : Options)
      (files : List String) (s : σ) (c : Choices),
      SameTrees world → c.Complete host world options files s →
        (Textful world → ∃ report : Report,
          (run host world options files (.ok ()) (some c) s).2.report = .ok report) ∧
        ∀ report : Report,
          (run host world options files (.ok ()) (some c) s).2.report = .ok report →
          ∀ m ∈ report.classes,
            (graphOf (surveyed (candidates host options files)
              (surveyRun host world options files s c.first).2)).has m.className = true := by
  refine ⟨fun language root => ⟨?_, fun file => ?_⟩, ?_⟩
  · exact ⟨_, Language.classSites_ordered _ root, fun a n => Language.mem_classSites,
      Language.classesIn_eq_outline _ root⟩
  · exact Inheritance.classNames_sublist _ file root
  · intro σ host world options files s c hw hc
    refine ⟨fun htext => ?_, fun report hreport m hm => has_className_of_mem hw hc hreport hm⟩
    obtain ⟨report, hreport, -⟩ := (Account.of_textful htext hc).report
    exact ⟨report, hreport⟩

theorem Sample.sameTrees : SameTrees Sample.replies.toWorld := by
  intro called called' path source source' h h'
  have hreply : ∀ called : List String,
      (Sample.replies.toWorld.value called path).1 = Thrown.lift (Sample.reply path) :=
    fun _ => congrArg Thrown.lift (ite_self _)
  rw [hreply] at h h'
  rw [h] at h'
  exact Except.ok.inj h'

theorem phases_agree_on_classes_sample :
    SameTrees Sample.replies.toWorld ∧
      Sample.choices.Complete Sample.host Sample.replies.toWorld Sample.options Sample.files [] ∧
      ∃ report : Report,
        (run Sample.host Sample.replies.toWorld Sample.options Sample.files (.ok ())
          (some Sample.choices) []).2.report = .ok report ∧
        report.classes.length = 2 ∧
        ∀ m ∈ report.classes,
          (graphOf (surveyed (candidates Sample.host Sample.options Sample.files)
            (surveyRun Sample.host Sample.replies.toWorld Sample.options Sample.files []
              Sample.choices.first).2)).has m.className = true := by
  refine ⟨Sample.sameTrees, Sample.choices_complete, ?_⟩
  obtain ⟨hexists, hhas⟩ := phases_agree_on_classes.2 _ Sample.host _ Sample.options
    Sample.files [] Sample.choices Sample.sameTrees Sample.choices_complete
  obtain ⟨report, hreport⟩ := hexists (Replies.toWorld_textful _)
  refine ⟨report, hreport, ?_, hhas report hreport⟩
  rw [Replies.run_report (by decide) (Replies.given_toWorld Sample.replies)
    Sample.choices_complete] at hreport
  cases hreport
  refine (List.mergeSort_perm _ _).length_eq.trans ?_
  rw [Replies.measured, Replies.survivors, Replies.graph, Sample.candidates_files]
  decide +kernel

end Analysis

end ClassCohesion
