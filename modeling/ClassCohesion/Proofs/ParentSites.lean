import ClassCohesion.Proofs.AddedDeclarations

/-!
# Where the parents of a class are named

The parents of a class are read from the nodes at certain places of its tree: strictly inside an
inheritance clause, which is a child of the class node, and neither inside type arguments nor inside
a node that names a parent already. The clause itself may be of any kind.

- `mem_parentSites`: which places these are.
- `parentSites_ordered`: they come in the order of the document.
- `parentNames_eq_sites`: each gives the simple name of its text, unless that is empty or the name of
  a built-in type.
- `parents_known_by_simple_names`: so parents are known by simple names only.
-/

namespace ClassCohesion.Language

open Syntax (Node Precedes)

variable {profile : Profile} {node : Node}

/-- The places, from a class node, of the nodes that name a parent in the clause at a place. -/
def sitesAt (profile : Profile) (place : Option Node × Nat) : List (List Nat × Node) :=
  (place.1.filter fun clause => profile.heritageKinds.contains clause.kind).toList.flatMap
    fun clause => (clauseSites profile clause).map fun e => (place.2 :: e.1, e.2)

/-- The places, from a class node, of the nodes that name its parents. -/
def parentSites (profile : Profile) (node : Node) : List (List Nat × Node) :=
  node.places.zipIdx.flatMap (sitesAt profile)

theorem mem_sitesAt {place : Option Node × Nat} {a : List Nat} {n : Node} :
    (a, n) ∈ sitesAt profile place ↔
      ∃ clause is, place.1 = some clause ∧ clause.kind ∈ profile.heritageKinds ∧
        a = place.2 :: is ∧ (is, n) ∈ clauseSites profile clause := by
  unfold sitesAt
  simp only [List.mem_flatMap, Option.mem_toList, Option.filter_eq_some_iff, List.contains_iff_mem,
    List.mem_map]
  constructor
  · rintro ⟨clause, ⟨hplace, hkind⟩, ⟨is, m⟩, hmem, heq⟩
    cases heq
    exact ⟨clause, is, hplace, hkind, rfl, hmem⟩
  · rintro ⟨clause, is, hplace, hkind, rfl, hmem⟩
    exact ⟨clause, ⟨hplace, hkind⟩, (is, n), hmem, rfl⟩

theorem mem_parentSites {a : List Nat} {n : Node} :
    (a, n) ∈ parentSites profile node ↔
      ∃ i is clause, a = i :: is ∧ node.at? [i] = some clause ∧
        clause.kind ∈ profile.heritageKinds ∧ (is, n) ∈ clauseSites profile clause := by
  rw [parentSites, List.mem_flatMap]
  constructor
  · rintro ⟨⟨place, i⟩, hplace, hmem⟩
    obtain ⟨clause, is, rfl, hkind, rfl, hsite⟩ := mem_sitesAt.mp hmem
    have hget := List.mk_mem_zipIdx_iff_getElem?.mp hplace
    exact ⟨i, is, clause, rfl, Node.at?_cons.mpr ⟨clause, hget, Node.at?_nil clause⟩, hkind, hsite⟩
  · rintro ⟨i, is, clause, rfl, hat, hkind, hsite⟩
    obtain ⟨c, hget, hc⟩ := Node.at?_cons.mp hat
    cases (Node.at?_nil c).symm.trans hc
    exact ⟨(some clause, i), List.mk_mem_zipIdx_iff_getElem?.mpr hget,
      mem_sitesAt.mpr ⟨clause, is, rfl, hkind, rfl, hsite⟩⟩

/-! ## The order of the document -/

theorem clauseSites_ordered (profile : Profile) (clause : Node) :
    (clauseSites profile clause).Pairwise Precedes :=
  (Syntax.outlineRow_ordered fun c _ => Syntax.outline_ordered _ c).filter _

theorem sitesAt_ordered (profile : Profile) (place : Option Node × Nat) :
    (sitesAt profile place).Pairwise Precedes := by
  unfold sitesAt
  cases place.1.filter fun clause => profile.heritageKinds.contains clause.kind with
  | none => exact .nil
  | some clause =>
    rw [Option.toList_some, List.flatMap_singleton, List.pairwise_map]
    exact (clauseSites_ordered profile clause).imp fun hlt =>
      List.cons_lt_cons_iff.mpr (.inr ⟨rfl, hlt⟩)

theorem zipIdx_ordered {α : Type} (as : List α) : as.zipIdx.Pairwise fun x y => x.2 < y.2 := by
  rw [← List.pairwise_map (R := (· < ·)), List.zipIdx_map_snd]
  exact List.pairwise_lt_range'

theorem parentSites_ordered (profile : Profile) (node : Node) :
    (parentSites profile node).Pairwise Precedes := by
  rw [parentSites, List.pairwise_flatMap]
  refine ⟨fun place _ => sitesAt_ordered profile place, (zipIdx_ordered node.places).imp ?_⟩
  rintro p q hlt ⟨a, m⟩ hp ⟨b, n⟩ hq
  obtain ⟨-, is, -, -, rfl, -⟩ := mem_sitesAt.mp hp
  obtain ⟨-, js, -, -, rfl, -⟩ := mem_sitesAt.mp hq
  exact List.cons_lt_cons_iff.mpr (.inl hlt)

/-! ## Names -/

/-- The clauses of a class node stand at its places. -/
theorem clauses_eq (profile : Profile) (node : Node) :
    (node.children.filter fun c => profile.heritageKinds.contains c.kind) =
      node.places.flatMap fun place =>
        (place.filter fun c => profile.heritageKinds.contains c.kind).toList := by
  rw [Node.children, List.filter_filterMap, List.filterMap_eq_flatMap_toList]
  rfl

theorem flatMap_sitesAt (profile : Profile) (place : Option Node × Nat) :
    (sitesAt profile place).flatMap (fun e => parentOf e.2) =
      (place.1.filter fun c => profile.heritageKinds.contains c.kind).toList.flatMap
        (parentsInClause profile) := by
  unfold sitesAt
  rw [List.flatMap_assoc]
  refine List.flatMap_congr fun clause _ => ?_
  rw [List.flatMap_map, parentsInClause_eq_sites]

theorem parentNames_eq_flatMap (profile : Profile) (node : Node) :
    parentNames profile node = (parentSites profile node).flatMap fun e => parentOf e.2 := by
  rw [parentNames, clauses_eq, List.flatMap_assoc, parentSites, List.flatMap_assoc]
  simp only [flatMap_sitesAt]
  conv_lhs => rw [← List.zipIdx_map_fst 0 node.places, List.flatMap_map]

theorem parentNames_eq_sites (profile : Profile) (node : Node) :
    parentNames profile node =
      ((parentSites profile node).map fun e => simpleName e.2.text).filter fun name =>
        IsParentName name := by
  rw [parentNames_eq_flatMap, List.filter_map, List.map_eq_flatMap]
  simp only [parentOf_eq, Function.comp_def]
  exact Syntax.flatMap_ite (fun e : List Nat × Node => IsParentName (simpleName e.2.text))
    (fun e => [simpleName e.2.text]) _

/-- **The parents of a class.** In every language they are, in the order of the document and with
repetitions, the simple names of the nodes of a kind that names a parent which lie strictly inside an
inheritance clause of the class node, with no type arguments and no such node between; empty names
and those of built-in types are left out. What stands outside of the clauses, inside type arguments
or inside a node that names a parent does not count. -/
theorem parentNames_at_sites (language : String) (node : Node) :
    (∃ sites : List (List Nat × Node), sites.Pairwise Precedes ∧
      (∀ a n, (a, n) ∈ sites ↔
        ∃ i is clause, a = i :: is ∧ node.at? [i] = some clause ∧
          clause.kind ∈ (Profile.ofTag language).heritageKinds ∧
          is ≠ [] ∧ clause.at? is = some n ∧
          (∀ m, clause.Between is m →
            m.kind ∉ argumentKinds ∧ m.kind ∉ (Profile.ofTag language).parentKinds) ∧
          n.kind ∉ argumentKinds ∧ n.kind ∈ (Profile.ofTag language).parentKinds) ∧
      parentNames (.ofTag language) node =
        (sites.map fun s => unqualifiedName (cleanTypeName s.2.text)).filter fun name =>
          name ≠ "" ∧ isPrimitive name = false) ∧
    ∀ node' : Node, clauseViews (.ofTag language) node' = clauseViews (.ofTag language) node →
      parentNames (.ofTag language) node' = parentNames (.ofTag language) node := by
  refine ⟨⟨parentSites (.ofTag language) node, parentSites_ordered _ node, fun a n => ?_,
    parentNames_eq_sites _ node⟩, fun node' h => parentNames_congr h⟩
  rw [mem_parentSites]
  simp only [mem_clauseSites]

namespace Sample

/-- A leaf of a tree. -/
def leafOf (kind text : String) : Node := .mk kind true text none 0 0 []

/-- The type of a kennel for something. -/
def kennel (argument : String) : Node :=
  .mk "generic_type" true ("Kennel<" ++ argument ++ ">") none 0 0
    [some (leafOf "type_identifier" "Kennel"),
     some (.mk "type_arguments" true "" none 0 0 [some (leafOf "type_identifier" argument)])]

/-- A clause with two interfaces of one name, and one with the name of a built-in type. -/
def interfaces : Node :=
  .mk "super_interfaces" true "" none 0 0
    [some (.mk "type_list" true "" none 0 0
      [some (leafOf "type_identifier" "Pet"), some (leafOf "type_identifier" "Object"),
       some (leafOf "scoped_type_identifier" "zoo.Pet")])]

/-- A class that extends a kennel and implements the interfaces. -/
def puppy (argument : String) (members : List (Option Node)) : Node :=
  .mk "class_declaration" true "" none 0 0
    [some (.mk "superclass" true "" none 0 0 [some (kennel argument)]), some interfaces,
     some (.mk "class_body" true "" (some "body") 0 0 members)]

theorem clauseViews_puppy (argument : String) (members : List (Option Node)) :
    clauseViews .java (puppy argument members) =
      [[.mk "generic_type" true (cleanTypeName ("Kennel<" ++ argument ++ ">")) none 0 0 []],
        interfaces.children.map (clauseView .java)] := by
  have hkennel : clauseView .java (kennel argument) =
      .mk "generic_type" true (cleanTypeName ("Kennel<" ++ argument ++ ">")) none 0 0 [] := by
    have hparent : (kennel argument).kind ∈ Profile.java.parentKinds := by
      show "generic_type" ∈ Profile.java.parentKinds
      decide
    have hargument : (kennel argument).kind ∉ argumentKinds := by
      show "generic_type" ∉ argumentKinds
      decide
    rw [clauseView_eq, if_neg hargument, if_pos hparent]
    rfl
  rw [← hkennel]
  rfl

theorem clauseViews_puppy_cat :
    clauseViews (.ofTag "java") (puppy "Cat" [some (leafOf "type_identifier" "Bird")]) =
      clauseViews (.ofTag "java") (puppy "Dog" []) := by
  have hname : cleanTypeName ("Kennel<" ++ "Cat" ++ ">") =
      cleanTypeName ("Kennel<" ++ "Dog" ++ ">") := by
    decide +kernel
  show clauseViews .java _ = clauseViews .java _
  rw [clauseViews_puppy, clauseViews_puppy, hname]

end Sample

/-- Neither the argument of the superclass nor a type in the body is a parent. -/
theorem parentNames_at_sites_puppy :
    clauseViews (.ofTag "java") (Sample.puppy "Cat" [some (Sample.leafOf "type_identifier" "Bird")]) =
        clauseViews (.ofTag "java") (Sample.puppy "Dog" []) ∧
      parentNames (.ofTag "java")
        (Sample.puppy "Cat" [some (Sample.leafOf "type_identifier" "Bird")]) =
          ["Kennel", "Pet", "Pet"] := by
  refine ⟨Sample.clauseViews_puppy_cat, ?_⟩
  rw [(parentNames_at_sites "java" (Sample.puppy "Dog" [])).2 _ Sample.clauseViews_puppy_cat]
  decide +kernel

/-- **Names by which parents are known.** Whatever the text of a type, with separators and blanks
wherever they may stand, it comes to a simple name, which comes to itself. So every parent of every
class, in every language, is known by a simple name that comes to itself, is not empty and is not that
of a built-in type. -/
theorem parents_known_by_simple_names :
    (∀ text, IsSimple (unqualifiedName (cleanTypeName text)) ∧
      unqualifiedName (cleanTypeName (unqualifiedName (cleanTypeName text))) =
        unqualifiedName (cleanTypeName text)) ∧
    ∀ language node, ∀ name ∈ parentNames (.ofTag language) node,
      IsSimple name ∧ unqualifiedName (cleanTypeName name) = name ∧ name ≠ "" ∧
        isPrimitive name = false := by
  refine ⟨fun text => ⟨isSimple_simpleName text, simpleName_simpleName text⟩, ?_⟩
  intro language node name hname
  rw [parentNames_eq_sites, List.mem_filter, List.mem_map, decide_eq_true_eq] at hname
  obtain ⟨⟨⟨a, n⟩, -, rfl⟩, hparent⟩ := hname
  exact ⟨isSimple_simpleName n.text, simpleName_simpleName n.text, hparent⟩

/-- An interface with a qualified name, and a text with a run of colons and blanks around it. -/
theorem parents_known_by_simple_names_pet :
    "Pet" ∈ parentNames (.ofTag "java") (Sample.puppy "Dog" []) ∧
      IsSimple "Pet" ∧ unqualifiedName (cleanTypeName "Pet") = "Pet" ∧ "Pet" ≠ "" ∧
      isPrimitive "Pet" = false ∧
      unqualifiedName (cleanTypeName "\u3000zoo:::Cat\t: <Dog>") = ":Cat\t:" ∧ IsSimple ":Cat\t:" := by
  have hmem : "Pet" ∈ parentNames (.ofTag "java") (Sample.puppy "Dog" []) := by decide +kernel
  have hcat : unqualifiedName (cleanTypeName "\u3000zoo:::Cat\t: <Dog>") = ":Cat\t:" := by
    decide +kernel
  obtain ⟨htexts, hparents⟩ := parents_known_by_simple_names
  obtain ⟨hsimple, hself, hne, hprimitive⟩ := hparents "java" _ "Pet" hmem
  have hcolons := (htexts "\u3000zoo:::Cat\t: <Dog>").1
  rw [hcat] at hcolons
  exact ⟨hmem, hsimple, hself, hne, hprimitive, hcat, hcolons⟩

end ClassCohesion.Language
