import Mathlib.Data.List.Pairwise
import ClassCohesion.Proofs.AddedDeclarations
import ClassCohesion.Proofs.Depth

/-!
# Forward declarations

A class node without a body gives a fact like any other, and the last fact of a class gives its
parents. So a forward declaration before the definition of its class changes nothing, and one after
it takes the parents of the class away. The parents of other classes stay in any case, and so do the
depths of the classes that are not below it.

- `parents_other`: the parents of other classes stay.
- `parents_declared`: those of the class stay if its definition comes last, and are none otherwise.
- `forward_declarations_keep_iff`: when nothing changes.
-/

namespace ClassCohesion.Inheritance

open Syntax (Node)
open ClassCohesion.Language (Profile IsNamedClass parentNames)
open ClassCohesion.Inheritance.Graph (lastParents?)

variable {profile : Profile} {name : String} {project project' : List (String × Node)}

/-! ## Projects -/

/-- The graph of a project, whose files are given by their paths and trees. -/
def graphOfTrees (profile : Profile) (project : List (String × Node)) : Graph :=
  .ofFacts (project.flatMap fun file => factsIn profile file.1 file.2)

/-- The named class nodes of a project with their files, in the order of the files and of the
documents. -/
def declarations (profile : Profile) (project : List (String × Node)) : List (String × Node) :=
  project.flatMap fun file => (declarationsIn profile file.2).map fun n => (file.1, n)

/-- The fact that a class node gives. -/
def factOf (profile : Profile) (d : String × Node) : Fact :=
  ⟨d.2.nameText, parentNames profile d.2, d.1⟩

theorem graphOfTrees_eq (profile : Profile) (project : List (String × Node)) :
    graphOfTrees profile project = .ofFacts ((declarations profile project).map (factOf profile)) := by
  rw [graphOfTrees, declarations, List.map_flatMap]
  congr 1
  refine List.flatMap_congr fun file _ => ?_
  rw [factsIn_eq_map, List.map_map]
  rfl

/-- One class node of the project has the name, and it has a body. -/
def DeclaredOnce (profile : Profile) (name : String) (project : List (String × Node)) : Prop :=
  ∃ d, (declarations profile project).filter (fun e => e.2.nameText = name) = [d] ∧
    (d.2.child? "body").isSome = true

/-- No declaration of the class comes after one with a body. -/
def DefinitionLast (profile : Profile) (name : String) (project : List (String × Node)) : Prop :=
  (declarations profile project).Pairwise fun d e =>
    d.2.nameText = name → (d.2.child? "body").isSome = true → e.2.nameText ≠ name

instance (profile : Profile) (name : String) (project : List (String × Node)) :
    Decidable (DefinitionLast profile name project) :=
  inferInstanceAs (Decidable (List.Pairwise _ _))

/-- The files of a project with forward declarations of a class added to their trees. -/
def GrownProject (profile : Profile) (name : String) (project project' : List (String × Node)) :
    Prop :=
  List.Forall₂ (fun file file' => file'.1 = file.1 ∧ Grown profile name file.2 file'.2)
    project project'

/-- A class node that was there before. -/
abbrev KeptAt (profile : Profile) (d d' : String × Node) : Prop := Kept profile d.2 d'.2

/-- A forward declaration in a file. -/
abbrev ForwardAt (profile : Profile) (name : String) (d : String × Node) : Prop :=
  IsForward profile name d.2

theorem GrownProject.interspersed (h : GrownProject profile name project project') :
    Interspersed (KeptAt profile) (ForwardAt profile name)
      (declarations profile project) (declarations profile project') := by
  induction h with
  | nil => exact .nil
  | @cons file file' project project' hfile _ ih =>
    have htree : Interspersed (KeptAt profile) (ForwardAt profile name)
        ((declarationsIn profile file.2).map fun n => (file.1, n))
        ((declarationsIn profile file'.2).map fun n => (file'.1, n)) :=
      hfile.2.interspersed.map (fun _ _ hkept => hkept) (fun _ hnew => hnew)
    exact htree.append ih

/-! ## Parents -/

/-- **The parents of other classes stay.** -/
theorem parents_other (h : GrownProject profile name project project') {c : String} (hc : c ≠ name) :
    (graphOfTrees profile project').parents c = (graphOfTrees profile project).parents c := by
  have hlast : ∀ {ds ds' : List (String × Node)},
      Interspersed (KeptAt profile) (ForwardAt profile name) ds ds' →
        lastParents? c (ds'.map (factOf profile)) = lastParents? c (ds.map (factOf profile)) := by
    intro ds ds' hd
    induction hd with
    | nil => rfl
    | @keep d d' ds ds' hkept _ ih =>
      have hname : (factOf profile d').className = (factOf profile d).className := hkept.name
      have hparents : (factOf profile d').parents = (factOf profile d).parents := hkept.parents
      rw [List.map_cons, List.map_cons, lastParents?, lastParents?, ih, hname, hparents]
    | @add d' ds ds' hnew _ ih =>
      have hname : (factOf profile d').className ≠ c := fun e => hc (e.symm.trans hnew.name)
      rw [List.map_cons, lastParents?, if_neg hname, Option.or_none, ih]
  rw [graphOfTrees_eq, graphOfTrees_eq, Graph.parents_ofFacts, Graph.parents_ofFacts,
    hlast h.interspersed]

/-- The definition of a class stands between declarations of which those of the class are forward
declarations. -/
structure Placed (profile : Profile) (name : String) (before after : List (String × Node))
    (d : String × Node) : Prop where
  named : d.2.nameText = name
  body : (d.2.child? "body").isSome = true
  forward_before : ∀ e ∈ before, e.2.nameText = name → ForwardAt profile name e
  forward_after : ∀ e ∈ after, e.2.nameText = name → ForwardAt profile name e

/-- The definition is last exactly if no declaration of the class follows it. -/
theorem Placed.definitionLast_iff {before after : List (String × Node)} {d : String × Node}
    (h : Placed profile name before after d)
    (hd : declarations profile project = before ++ d :: after) :
    DefinitionLast profile name project ↔ ∀ e ∈ after, e.2.nameText ≠ name := by
  have hforward : ∀ e : String × Node, ForwardAt profile name e →
      ¬ (e.2.child? "body").isSome = true := by
    intro e he
    rw [he.body]
    exact Bool.false_ne_true
  rw [DefinitionLast, hd, List.pairwise_append, List.pairwise_cons]
  constructor
  · rintro ⟨-, ⟨hlast, -⟩, -⟩ e he
    exact hlast e he h.named h.body
  · intro hnone
    refine ⟨?_, ⟨fun e he _ _ => hnone e he, ?_⟩, ?_⟩
    · refine List.pairwise_of_forall_mem_list fun a ha b _ hname hbody => ?_
      exact absurd hbody (hforward a (h.forward_before a ha hname))
    · refine List.pairwise_of_forall_mem_list fun a ha b _ hname _ => ?_
      exact absurd hname (hnone a ha)
    · intro a ha b _ hname hbody
      exact absurd hbody (hforward a (h.forward_before a ha hname))

/-- Without a declaration of the class after it, the definition gives the parents. -/
theorem Placed.parents_eq {before after : List (String × Node)} {d : String × Node}
    (h : Placed profile name before after d)
    (hd : declarations profile project = before ++ d :: after)
    (hlast : ∀ e ∈ after, e.2.nameText ≠ name) :
    (graphOfTrees profile project).parents name = parentNames profile d.2 := by
  have hafter : lastParents? name (after.map (factOf profile)) = none := by
    refine Graph.lastParents?_eq_none fun fact hfact => ?_
    obtain ⟨e, he, rfl⟩ := List.mem_map.mp hfact
    exact hlast e he
  have hnamed : (factOf profile d).className = name := h.named
  rw [graphOfTrees_eq, Graph.parents_ofFacts, hd, List.map_append, List.map_cons,
    Graph.lastParents?_append, lastParents?, hafter, if_pos hnamed]
  rfl

/-- With one, the class has no parents. -/
theorem Placed.parents_eq_nil {before after : List (String × Node)} {d : String × Node}
    (h : Placed profile name before after d)
    (hd : declarations profile project = before ++ d :: after)
    (hlater : ∃ e ∈ after, e.2.nameText = name) :
    (graphOfTrees profile project).parents name = [] := by
  have hafter : lastParents? name (after.map (factOf profile)) = some [] := by
    refine Graph.lastParents?_eq_some (fun fact hfact hname => ?_) ?_
    · obtain ⟨e, he, rfl⟩ := List.mem_map.mp hfact
      exact (h.forward_after e he hname).parentNames_eq
    · obtain ⟨e, he, hname⟩ := hlater
      exact ⟨factOf profile e, List.mem_map_of_mem he, hname⟩
  rw [graphOfTrees_eq, Graph.parents_ofFacts, hd, List.map_append, List.map_cons,
    Graph.lastParents?_append, lastParents?, hafter]
  rfl

/-- The additions keep the definition, and what else there is of the class is added. -/
theorem GrownProject.exists_placed (h : GrownProject profile name project project')
    (once : DeclaredOnce profile name project) :
    ∃ before d after, declarations profile project' = before ++ d :: after ∧
      Placed profile name before after d ∧
      parentNames profile d.2 = (graphOfTrees profile project).parents name := by
  obtain ⟨d, honly, hbody⟩ := once
  obtain ⟨before, after, hd, hbefore, hname, hafter⟩ := List.filter_eq_cons_iff.mp honly
  simp only [decide_eq_true_eq] at hbefore hname
  have hafter : ∀ e ∈ after, e.2.nameText ≠ name := by
    simpa using List.filter_eq_nil_iff.mp hafter
  have hinter := h.interspersed
  rw [hd] at hinter
  obtain ⟨before', d', after', hd', hb, hkept, ha⟩ := hinter.split
  -- a declaration of the class in `project'` that is not new would be one in `project`
  have hnew : ∀ {ds ds' : List (String × Node)}, (∀ e ∈ ds, e.2.nameText ≠ name) →
      Interspersed (KeptAt profile) (ForwardAt profile name) ds ds' →
        ∀ e ∈ ds', e.2.nameText = name → ForwardAt profile name e := by
    intro ds ds' hds hi e he hename
    rcases hi.mem_cases he with hforward | ⟨a, ha, hkept⟩
    · exact hforward
    · exact absurd (hkept.name.symm.trans hename) (hds a ha)
  have hplaced : Placed profile name before after d :=
    ⟨hname, hbody, fun e he hename => absurd hename (hbefore e he),
      fun e he hename => absurd hename (hafter e he)⟩
  refine ⟨before', d', after', hd', ⟨hkept.name.trans hname, hkept.body hbody,
    hnew hbefore hb, hnew hafter ha⟩, ?_⟩
  rw [hplaced.parents_eq hd hafter]
  exact hkept.parents

/-- **The parents of the class** stay if its definition comes last, and are none otherwise. -/
theorem parents_declared (once : DeclaredOnce profile name project)
    (h : GrownProject profile name project project') :
    (DefinitionLast profile name project' →
      (graphOfTrees profile project').parents name =
        (graphOfTrees profile project).parents name) ∧
    (¬ DefinitionLast profile name project' →
      (graphOfTrees profile project').parents name = []) := by
  obtain ⟨before, d, after, hd, hplaced, hparents⟩ := h.exists_placed once
  rw [hplaced.definitionLast_iff hd]
  refine ⟨fun hlast => ?_, fun hlater => ?_⟩
  · rw [hplaced.parents_eq hd hlast, hparents]
  · push Not at hlater
    exact hplaced.parents_eq_nil hd hlater

/-! ## Parents and depths -/

/-- **Forward declarations before the definition change nothing.** Let a class be declared once in a
C++ project, with a body, and let forward declarations of it be added. All parents and depths stay
exactly if the class has no parents or no forward declaration comes after its definition. In any case
the other classes keep their parents, and all but the class and those below it keep their depths; and
if a forward declaration does come after the definition, the class has no parents and depth zero. -/
theorem forward_declarations_keep_iff (once : DeclaredOnce .cpp name project)
    (h : GrownProject .cpp name project project') :
    ((∀ c, (graphOfTrees .cpp project').parents c = (graphOfTrees .cpp project).parents c ∧
        (graphOfTrees .cpp project').depth c = (graphOfTrees .cpp project).depth c) ↔
      (graphOfTrees .cpp project).parents name = [] ∨ DefinitionLast .cpp name project') ∧
    (∀ c, c ≠ name →
      (graphOfTrees .cpp project').parents c = (graphOfTrees .cpp project).parents c) ∧
    (∀ c, ¬ (graphOfTrees .cpp project).Reaches c name →
      (graphOfTrees .cpp project').depth c = (graphOfTrees .cpp project).depth c) ∧
    (¬ DefinitionLast .cpp name project' →
      (graphOfTrees .cpp project').parents name = [] ∧
        (graphOfTrees .cpp project').depth name = 0) := by
  obtain ⟨hstay, hlose⟩ := parents_declared once h
  have hsame : (graphOfTrees .cpp project).parents name = [] ∨ DefinitionLast .cpp name project' →
      ∀ c, (graphOfTrees .cpp project').parents c = (graphOfTrees .cpp project).parents c := by
    intro hcase c
    by_cases hc : c = name
    · subst hc
      by_cases hlast : DefinitionLast .cpp c project'
      · exact hstay hlast
      · rw [hlose hlast, hcase.resolve_right hlast]
    · exact parents_other h hc
  refine ⟨⟨fun hall => ?_, fun hcase c => ⟨hsame hcase c, ?_⟩⟩, fun c hc => parents_other h hc,
    fun c hc => ?_, fun hlater => ⟨hlose hlater, ?_⟩⟩
  · by_cases hlast : DefinitionLast .cpp name project'
    · exact .inr hlast
    · exact .inl ((hall name).1.symm.trans (hlose hlast))
  · exact Graph.depth_congr fun a _ => hsame hcase a
  · refine Graph.depth_congr fun a ha => parents_other h ?_
    rintro rfl
    exact hc ha
  · rw [Graph.depth_eq_zero_iff]
    exact Graph.rootLike_of_parents_eq_nil (hlose hlater)

namespace Sample

/-- The node that names a class. -/
def nameNode (name : String) : Node := .mk "type_identifier" true name (some "name") 0 0 []

/-- The forward declaration `class Dog`. -/
def forward : Node := .mk "class_specifier" true "class Dog" none 0 0 [some (nameNode "Dog")]

/-- The definition of a class whose inheritance clause holds the given nodes. -/
def defined (name : String) (clause : List (Option Node)) : Node :=
  .mk "class_specifier" true "" none 0 0
    [some (nameNode name), some (.mk "base_class_clause" true "" none 0 0 clause),
     some (.mk "field_declaration_list" true "" (some "body") 0 0 [])]

/-- The words by which a class names a parent. -/
def parentNode (name : String) : Node := .mk "type_identifier" true name none 0 0 []

/-- The definition `class Dog : Animal`. -/
def dog : Node := defined "Dog" [some (parentNode "Animal")]

/-- The tree of a file. -/
def unit (members : List (Option Node)) : Node :=
  .mk "translation_unit" true "" none 0 0 members

/-- Two files, the first of which ends with the definition. -/
def zoo (first second : List (Option Node)) : List (String × Node) :=
  [("/p/dog.cpp", unit (first ++ [some dog])), ("/p/zoo.cpp", unit second)]

theorem forward_isForward : IsForward .cpp "Dog" forward where
  kind := by decide
  name := rfl
  body := rfl
  clauses := by decide

theorem declarationsIn_leaf {n : Node} (hkind : n.kind ∉ Profile.cpp.classKinds)
    (hleaf : n.children = []) : declarationsIn .cpp n = [] := by
  rw [declarationsIn_eq, hleaf, if_neg fun h => hkind h.1]
  rfl

theorem declarationsIn_forward : declarationsIn .cpp forward = [forward] := by
  rw [declarationsIn_eq, if_pos ⟨forward_isForward.kind, by decide⟩]
  show [forward] ++ (declarationsIn .cpp (nameNode "Dog") ++ []) = [forward]
  rw [declarationsIn_leaf (by decide) rfl]
  rfl

theorem declarationsIn_dog : declarationsIn .cpp dog = [dog] := by
  have hclause : declarationsIn .cpp
      (.mk "base_class_clause" true "" none 0 0 [some (parentNode "Animal")]) = [] := by
    rw [declarationsIn_eq, if_neg (by decide)]
    show [] ++ (declarationsIn .cpp (parentNode "Animal") ++ []) = []
    rw [declarationsIn_leaf (by decide) rfl]
    rfl
  rw [declarationsIn_eq, if_pos (by decide)]
  show [dog] ++ (declarationsIn .cpp (nameNode "Dog") ++ (declarationsIn .cpp _ ++
    (declarationsIn .cpp _ ++ []))) = [dog]
  rw [declarationsIn_leaf (by decide) rfl, hclause, declarationsIn_leaf (by decide) rfl]
  rfl

theorem zoo_once : DeclaredOnce .cpp "Dog" (zoo [] []) := by
  have hfirst : declarationsIn .cpp (unit [some dog]) = [dog] := by
    rw [declarationsIn_eq, if_neg (by decide)]
    show [] ++ (declarationsIn .cpp dog ++ []) = [dog]
    rw [declarationsIn_dog]
    rfl
  have hsecond : declarationsIn .cpp (unit []) = [] := declarationsIn_leaf (by decide) rfl
  refine ⟨("/p/dog.cpp", dog), ?_, rfl⟩
  show ((declarationsIn .cpp (unit [some dog])).map _ ++
    ((declarationsIn .cpp (unit [])).map _ ++ [])).filter _ = _
  rw [hfirst, hsecond]
  rfl

theorem grownRow_forward {row row' : List Node} (h : GrownRow .cpp "Dog" row row') :
    GrownRow .cpp "Dog" row (forward :: row') := by
  refine .add forward_isForward (fun d hd => ?_) h
  rw [declarationsIn_forward, List.mem_singleton] at hd
  exact hd ▸ forward_isForward

theorem unit_grown {members members' : List (Option Node)}
    (h : GrownRow .cpp "Dog" (unit members).children (unit members').children) :
    Grown .cpp "Dog" (unit members) (unit members') := by
  have hkind : "translation_unit" ∉ Profile.cpp.classKinds := by decide
  exact .node rfl rfl (fun hclass => absurd hclass hkind) h

theorem early_grown : GrownProject .cpp "Dog" (zoo [] []) (zoo [some forward] []) := by
  refine .cons ⟨rfl, unit_grown (grownRow_forward ?_)⟩ (.cons ⟨rfl, Grown.refl _ _ _⟩ .nil)
  exact .keep (Grown.refl _ _ _) .nil

theorem late_grown : GrownProject .cpp "Dog" (zoo [] []) (zoo [] [some forward]) :=
  .cons ⟨rfl, Grown.refl _ _ _⟩ (.cons ⟨rfl, unit_grown (grownRow_forward .nil)⟩ .nil)

/-- A file in which a class for puppies comes before the definition. -/
def kennel (clause : List (Option Node)) : List (String × Node) :=
  [("/p/puppy.cpp", unit [some (defined "Puppy" (clause ++ [some (parentNode "Pet")])), some dog])]

end Sample

/-- A forward declaration before the definition changes nothing. -/
theorem forward_declarations_keep_iff_early :
    DeclaredOnce .cpp "Dog" (Sample.zoo [] []) ∧
      GrownProject .cpp "Dog" (Sample.zoo [] []) (Sample.zoo [some Sample.forward] []) ∧
      DefinitionLast .cpp "Dog" (Sample.zoo [some Sample.forward] []) ∧
      (graphOfTrees .cpp (Sample.zoo [some Sample.forward] [])).parents "Dog" = ["Animal"] ∧
      (graphOfTrees .cpp (Sample.zoo [some Sample.forward] [])).depth "Dog" = 1 := by
  have hlast : DefinitionLast .cpp "Dog" (Sample.zoo [some Sample.forward] []) := by
    decide +kernel
  obtain ⟨hparents, hdepth⟩ :=
    (forward_declarations_keep_iff Sample.zoo_once Sample.early_grown).1.mpr (.inr hlast) "Dog"
  refine ⟨Sample.zoo_once, Sample.early_grown, hlast, ?_, ?_⟩
  · rw [hparents]
    decide +kernel
  · rw [hdepth]
    decide +kernel

/-- **A forward declaration after the definition takes the parents away**, and one in the inheritance
clause of another class is taken for a parent of that class. -/
theorem late_forward_declaration_orphans :
    DeclaredOnce .cpp "Dog" (Sample.zoo [] []) ∧
      GrownProject .cpp "Dog" (Sample.zoo [] []) (Sample.zoo [] [some Sample.forward]) ∧
      (graphOfTrees .cpp (Sample.zoo [] [])).parents "Dog" = ["Animal"] ∧
      (graphOfTrees .cpp (Sample.zoo [] [])).depth "Dog" = 1 ∧
      (graphOfTrees .cpp (Sample.zoo [] [some Sample.forward])).parents "Dog" = [] ∧
      (graphOfTrees .cpp (Sample.zoo [] [some Sample.forward])).depth "Dog" = 0 ∧
      (graphOfTrees .cpp (Sample.kennel [])).parents "Puppy" = ["Pet"] ∧
      (graphOfTrees .cpp (Sample.kennel [some Sample.forward])).parents "Puppy" =
        ["Dog", "Pet"] := by
  refine ⟨Sample.zoo_once, Sample.late_grown, ?_, ?_, ?_, ?_, ?_, ?_⟩ <;> decide +kernel

end ClassCohesion.Inheritance
