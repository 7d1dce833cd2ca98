import ClassCohesion.Proofs.ClassNodes
import ClassCohesion.Proofs.SimpleNames

/-!
# Links between classes

A class is declared under the text of its name, and named as a parent by the simple name of a text.
The two meet only where the declared text is a simple name. A class that is declared under a qualified
name, or under one with arguments, is never the parent of another, even if the other names it in the
very same words.

- `parentsInClause_eq_sites`: the parents in a clause are named at its sites, in document order.
- `mem_parentNames`: the parents of a class are the simple names of the nodes that name one.
- `children_eq_nil`: what is not a simple name has no children in any project.
- `linked_iff_simpleName`: so a class and another that names it in the same words are linked exactly
  if the declared name is simple.
-/

namespace ClassCohesion

open Syntax (Node)

namespace Language

variable {profile : Profile}

/-- A node in an inheritance clause of a class that names a parent: of a kind that does, and not
inside type arguments or inside another such node. -/
def NamesParent (profile : Profile) (declaration n : Node) : Prop :=
  ∃ clause ∈ declaration.children, clause.kind ∈ profile.heritageKinds ∧
    ∃ a, a ≠ [] ∧ clause.at? a = some n ∧ n.kind ∈ profile.parentKinds ∧
      ∀ m, clause.Between a m → m.kind ∉ argumentKinds ∧ m.kind ∉ profile.parentKinds

/-- A name that a parent may have. -/
def IsParentName (name : String) : Prop := name ≠ "" ∧ isPrimitive name = false

instance (name : String) : Decidable (IsParentName name) := inferInstanceAs (Decidable (_ ∧ _))

theorem parentOf_eq (n : Node) :
    parentOf n = if IsParentName (simpleName n.text) then [simpleName n.text] else [] := by
  unfold parentOf IsParentName
  generalize simpleName n.text = name
  have hname : name ≠ "" ∧ isPrimitive name = false ↔ ¬ (name = "" ∨ isPrimitive name = true) := by
    rw [not_or, Bool.not_eq_true]
  simp only [hname, ite_not]

theorem mem_parentOf {n : Node} {name : String} :
    name ∈ parentOf n ↔ name = simpleName n.text ∧ name ≠ "" ∧ isPrimitive name = false := by
  rw [parentOf_eq]
  split
  · next h =>
    rw [List.mem_singleton]
    constructor
    · rintro rfl
      exact ⟨rfl, h⟩
    · exact And.left
  · next h =>
    refine ⟨fun hm => absurd hm List.not_mem_nil, ?_⟩
    rintro ⟨rfl, hname⟩
    exact absurd hname h

/-- What a node of a clause gives, and whether the search for parents goes on below it. -/
def parentStep (profile : Profile) (n : Node) : List String × Bool :=
  if argumentKinds.contains n.kind then ([], false)
  else if profile.parentKinds.contains n.kind then (parentOf n, false)
  else ([], true)

theorem parentStep_descends {n : Node} :
    (parentStep profile n).2 = true ↔ n.kind ∉ argumentKinds ∧ n.kind ∉ profile.parentKinds := by
  unfold parentStep
  by_cases ha : n.kind ∈ argumentKinds
  · simp [ha]
  · by_cases hp : n.kind ∈ profile.parentKinds <;> simp [ha, hp]

theorem parentStep_gives (n : Node) :
    (parentStep profile n).1 =
      if n.kind ∉ argumentKinds ∧ n.kind ∈ profile.parentKinds then parentOf n else [] := by
  unfold parentStep
  by_cases ha : n.kind ∈ argumentKinds
  · simp [ha]
  · by_cases hp : n.kind ∈ profile.parentKinds <;> simp [ha, hp]

/-- The places, in an inheritance clause, of the nodes that name a parent. -/
def clauseSites (profile : Profile) (clause : Node) : List (List Nat × Node) :=
  (Syntax.outlineRow (fun n => (parentStep profile n).2) 0 clause.places).filter fun e =>
    e.2.kind ∉ argumentKinds ∧ e.2.kind ∈ profile.parentKinds

theorem parentsInClause_eq_sites (profile : Profile) (clause : Node) :
    parentsInClause profile clause = (clauseSites profile clause).flatMap fun e => parentOf e.2 := by
  change Syntax.collectRow (parentStep profile) clause.children = _
  rw [Syntax.collectRow_children, clauseSites]
  simp only [parentStep_gives]
  exact Syntax.flatMap_ite
    (fun e : List Nat × Node => e.2.kind ∉ argumentKinds ∧ e.2.kind ∈ profile.parentKinds)
    (fun e => parentOf e.2) _

/-- A node of a clause names a parent if it is of a kind that does, and nothing between is such a
node or holds type arguments. -/
theorem mem_clauseSites {clause n : Node} {a : List Nat} :
    (a, n) ∈ clauseSites profile clause ↔
      a ≠ [] ∧ clause.at? a = some n ∧
        (∀ m, clause.Between a m → m.kind ∉ argumentKinds ∧ m.kind ∉ profile.parentKinds) ∧
        n.kind ∉ argumentKinds ∧ n.kind ∈ profile.parentKinds := by
  rw [clauseSites, List.mem_filter, Syntax.mem_outlineRow_iff, decide_eq_true_eq]
  simp only [parentStep_descends, and_assoc]

theorem mem_parentsInClause {clause : Node} {name : String} :
    name ∈ parentsInClause profile clause ↔
      ∃ a n, a ≠ [] ∧ clause.at? a = some n ∧
        (∀ m, clause.Between a m → m.kind ∉ argumentKinds ∧ m.kind ∉ profile.parentKinds) ∧
        n.kind ∉ argumentKinds ∧ n.kind ∈ profile.parentKinds ∧ name ∈ parentOf n := by
  rw [parentsInClause_eq_sites, List.mem_flatMap]
  simp only [Prod.exists, mem_clauseSites, and_assoc]

/-- No language names a parent by a node of type arguments. -/
theorem parentKinds_not_argument (tag kind : String) (h : kind ∈ (Profile.ofTag tag).parentKinds) :
    kind ∉ argumentKinds := by
  have htable : ∀ entry ∈ Profile.table, ∀ kind ∈ entry.2.parentKinds, kind ∉ argumentKinds := by
    decide
  unfold Profile.ofTag at h
  cases hlookup : Profile.table.lookup tag with
  | none =>
    rw [hlookup] at h
    exact absurd h List.not_mem_nil
  | some profile =>
    rw [hlookup] at h
    obtain ⟨before, after, hsplit, -⟩ := List.lookup_eq_some_iff.mp hlookup
    refine htable (tag, profile) ?_ kind h
    rw [hsplit]
    exact List.mem_append_right _ List.mem_cons_self

theorem mem_parentNames {tag : String} {d : Node} {name : String} :
    name ∈ parentNames (Profile.ofTag tag) d ↔
      ∃ n, NamesParent (Profile.ofTag tag) d n ∧ name ∈ parentOf n := by
  rw [parentNames, List.mem_flatMap]
  constructor
  · rintro ⟨clause, hclause, hname⟩
    obtain ⟨hmem, hkind⟩ := List.mem_filter.mp hclause
    obtain ⟨a, n, hne, hat, hbetween, -, hparent, hname⟩ := mem_parentsInClause.mp hname
    exact ⟨n, ⟨clause, hmem, List.contains_iff_mem.mp hkind, a, hne, hat, hparent, hbetween⟩, hname⟩
  · rintro ⟨n, ⟨clause, hmem, hkind, a, hne, hat, hparent, hbetween⟩, hname⟩
    refine ⟨clause, List.mem_filter.mpr ⟨hmem, List.contains_iff_mem.mpr hkind⟩, ?_⟩
    exact mem_parentsInClause.mpr
      ⟨a, n, hne, hat, hbetween, parentKinds_not_argument tag _ hparent, hparent, hname⟩

/-- The parents of a class have simple names. -/
theorem simpleName_of_mem_parentNames {tag : String} {d : Node} {name : String}
    (h : name ∈ parentNames (Profile.ofTag tag) d) : simpleName name = name := by
  obtain ⟨n, -, hname⟩ := mem_parentNames.mp h
  rw [(mem_parentOf.mp hname).1, simpleName_simpleName]

end Language

namespace Analysis

open Inheritance (Fact Graph factsIn)
open ClassCohesion.Language (Profile IsNamedClass NamesParent simpleName isPrimitive parentNames)

variable {project : List (String × Source)}

/-- The facts of all files of a project. -/
def factsOf (project : List (String × Source)) : List Fact :=
  project.flatMap fun file => factsIn (Profile.ofTag file.2.language) file.1 file.2.root

/-- A named class node in a file of a project. -/
structure DeclaredIn (project : List (String × Source)) (file : String × Source) (n : Node) :
    Prop where
  mem : file ∈ project
  node : ∃ a, file.2.root.at? a = some n
  named : IsNamedClass (Profile.ofTag file.2.language) n

theorem mem_factsOf {fact : Fact} :
    fact ∈ factsOf project ↔
      ∃ file n, DeclaredIn project file n ∧
        fact = ⟨n.nameText, parentNames (Profile.ofTag file.2.language) n, file.1⟩ := by
  rw [factsOf, List.mem_flatMap]
  constructor
  · rintro ⟨file, hfile, hfact⟩
    obtain ⟨a, n, hat, hnamed, rfl⟩ := Inheritance.mem_factsIn.mp hfact
    exact ⟨file, n, ⟨hfile, ⟨a, hat⟩, hnamed⟩, rfl⟩
  · rintro ⟨file, n, ⟨hfile, ⟨a, hat⟩, hnamed⟩, rfl⟩
    exact ⟨file, hfile, Inheritance.mem_factsIn.mpr ⟨a, n, hat, hnamed, rfl⟩⟩

/-- What is not a simple name has no children. -/
theorem children_eq_nil {name : String} (h : simpleName name ≠ name) :
    (Graph.ofFacts (factsOf project)).children name = [] := by
  rw [List.eq_nil_iff_forall_not_mem]
  intro x hx
  obtain ⟨fact, hfact, -, hparent⟩ := Graph.mem_children_ofFacts.mp hx
  obtain ⟨file, n, -, rfl⟩ := mem_factsOf.mp hfact
  exact h (Language.simpleName_of_mem_parentNames hparent)

/-! ## A shop -/

namespace Sample

/-- A class for the items of a shop. -/
def item (kind name : String) : Node :=
  .mk "class" true "" none 0 0 [some (.mk kind true name (some "name") 0 0 [])]

/-- The words by which a book says what it is. -/
def itemReference (kind name : String) : Node := .mk kind true name none 0 0 []

/-- A class for books, which are items. -/
def book (kind name : String) : Node :=
  .mk "class" true "" none 0 0
    [some (.mk "constant" true "Book" (some "name") 0 0 []),
     some (.mk "superclass" true "" (some "superclass") 0 0
      [some (.mk "<" false "<" none 0 0 []), some (itemReference kind name)])]

/-- The file with both classes. -/
def shop (kind name : String) : String × Source :=
  ("/p/shop.rb",
    { language := "ruby"
      root := .mk "program" true "" none 0 0 [some (item kind name), some (book kind name)] })

theorem isClass : "class" ∈ (Profile.ofTag "ruby").classKinds := by decide

theorem isHeritage : "superclass" ∈ (Profile.ofTag "ruby").heritageKinds := by decide

theorem book_namesParent {kind : String} (name : String)
    (h : kind ∈ (Profile.ofTag "ruby").parentKinds) :
    NamesParent (Profile.ofTag "ruby") (book kind name) (itemReference kind name) := by
  refine ⟨_, List.mem_cons_of_mem _ List.mem_cons_self, isHeritage, [1], by simp, rfl, h, ?_⟩
  rintro m ⟨b, hne, hpre, hne', -⟩
  obtain rfl | rfl : b = [] ∨ b = [1] := by simpa [List.prefix_cons_iff] using hpre
  · exact absurd rfl hne
  · exact absurd rfl hne'

theorem item_declaredIn (kind name : String) (h : name ≠ "") :
    DeclaredIn [shop kind name] (shop kind name) (item kind name) :=
  ⟨List.mem_cons_self, ⟨[0], rfl⟩, isClass, h⟩

theorem book_declaredIn (kind name : String) :
    DeclaredIn [shop kind name] (shop kind name) (book kind name) :=
  ⟨List.mem_cons_self, ⟨[1], rfl⟩, isClass, (by decide : "Book" ≠ "")⟩

end Sample

/-! ## Classes that name others in the same words -/

/-- **Links go by simple names.** Let a class of a project name another as its parent in the words in
which that one is declared. The graph has the other class and there is a fact of the first, but the
first is among the children of the other, the other has children at all, and the fact lists it as a
parent, exactly if those words are a simple name. -/
theorem linked_iff_simpleName {fileC fileD : String × Source} {c d n : Node}
    (hc : DeclaredIn project fileC c) (hd : DeclaredIn project fileD d)
    (hn : NamesParent (Profile.ofTag fileD.2.language) d n) (htext : n.text = c.nameText)
    (hprim : isPrimitive (simpleName n.text) = false) :
    (Graph.ofFacts (factsOf project)).has c.nameText = true ∧
    (d.nameText ∈ (Graph.ofFacts (factsOf project)).children c.nameText ↔
      simpleName c.nameText = c.nameText) ∧
    (0 < (Graph.ofFacts (factsOf project)).childCount c.nameText ↔
      simpleName c.nameText = c.nameText) ∧
    ∃ fact ∈ factsOf project, fact.className = d.nameText ∧ fact.file = fileD.1 ∧
      (c.nameText ∈ fact.parents ↔ simpleName c.nameText = c.nameText) := by
  have hfact : (⟨d.nameText, parentNames (Profile.ofTag fileD.2.language) d, fileD.1⟩ : Fact) ∈
      factsOf project := mem_factsOf.mpr ⟨fileD, d, hd, rfl⟩
  have hparent : simpleName c.nameText = c.nameText →
      c.nameText ∈ parentNames (Profile.ofTag fileD.2.language) d := by
    intro hsimple
    rw [htext, hsimple] at hprim
    refine Language.mem_parentNames.mpr ⟨n, hn, Language.mem_parentOf.mpr ⟨?_, hc.named.2, hprim⟩⟩
    rw [htext, hsimple]
  have hchild : simpleName c.nameText = c.nameText →
      d.nameText ∈ (Graph.ofFacts (factsOf project)).children c.nameText := fun hsimple =>
    Graph.mem_children_ofFacts.mpr ⟨_, hfact, rfl, hparent hsimple⟩
  have hsimple_of_mem : ∀ x, x ∈ (Graph.ofFacts (factsOf project)).children c.nameText →
      simpleName c.nameText = c.nameText := by
    intro x hx
    -- a class with a child at all has a simple name, whoever the child is
    by_contra hne
    rw [children_eq_nil hne] at hx
    exact absurd hx List.not_mem_nil
  refine ⟨?_, ⟨hsimple_of_mem _, hchild⟩, ⟨fun hpos => ?_, fun hsimple => ?_⟩,
    _, hfact, rfl, rfl, Language.simpleName_of_mem_parentNames, hparent⟩
  · exact Graph.has_ofFacts.mpr ⟨_, mem_factsOf.mpr ⟨fileC, c, hc, rfl⟩, rfl⟩
  · obtain ⟨x, hx⟩ := List.exists_mem_of_length_pos hpos
    exact hsimple_of_mem x hx
  · exact List.length_pos_of_mem (hchild hsimple)

theorem linked_iff_simpleName_item :
    "Book" ∈ (Graph.ofFacts (factsOf [Sample.shop "constant" "Item"])).children "Item" := by
  have h := linked_iff_simpleName (Sample.item_declaredIn "constant" "Item" (by decide))
    (Sample.book_declaredIn "constant" "Item") (Sample.book_namesParent "Item" (by decide)) rfl
    (by decide +kernel)
  exact h.2.1.mpr (by decide +kernel)

/-- **A qualified declaration has no children.** The book names the item in the words in which it is
declared, and is not among its children. -/
theorem qualified_item_unlinked :
    DeclaredIn [Sample.shop "scope_resolution" "Shop::Item"]
        (Sample.shop "scope_resolution" "Shop::Item")
        (Sample.item "scope_resolution" "Shop::Item") ∧
      DeclaredIn [Sample.shop "scope_resolution" "Shop::Item"]
        (Sample.shop "scope_resolution" "Shop::Item")
        (Sample.book "scope_resolution" "Shop::Item") ∧
      NamesParent (Profile.ofTag "ruby") (Sample.book "scope_resolution" "Shop::Item")
        (Sample.itemReference "scope_resolution" "Shop::Item") ∧
      (Sample.itemReference "scope_resolution" "Shop::Item").text =
        (Sample.item "scope_resolution" "Shop::Item").nameText ∧
      isPrimitive (simpleName "Shop::Item") = false ∧
      (Graph.ofFacts (factsOf [Sample.shop "scope_resolution" "Shop::Item"])).children
        "Shop::Item" = [] ∧
      (factsOf [Sample.shop "scope_resolution" "Shop::Item"]).map Fact.parents = [[], ["Item"]] := by
  refine ⟨Sample.item_declaredIn _ _ (by decide), Sample.book_declaredIn _ _,
    Sample.book_namesParent _ (by decide), rfl, by decide +kernel, ?_, by decide +kernel⟩
  exact children_eq_nil (by decide +kernel)

end Analysis

end ClassCohesion
