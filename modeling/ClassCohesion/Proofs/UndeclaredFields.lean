import Mathlib.Combinatorics.SimpleGraph.Connectivity.Connected
import ClassCohesion.Proofs.DecisionCounts
import ClassCohesion.Proofs.MethodGroups
import ClassCohesion.Proofs.Sorting

/-!
# Fields that are used and not declared

The lack of cohesion looks at two things: whether a class declares a field, and which fields its
methods use. Without a declared field the methods are not compared. A field may be used that the
class does not declare, through the object itself, so this is a measure of its own: it is the number
of methods, and the methods may still hang together.

- `card_connectedComponent`: the classes of methods are the components of the graph that joins
  methods with a field in common.
- `classCount_eq_length_iff`: there are as many of them as methods exactly if no two methods are
  joined.
- `fieldsOf_ne_nil_of_ruby`: in Ruby every use of a field is a declaration of it.
-/

namespace ClassCohesion.Metrics

open Relation (ReflTransGen)
open Syntax (Node)
open ClassCohesion.Language (Profile)

variable {methods : List (List String)}

/-! ## The graph of the methods -/

/-- The graph on the positions of a list of methods that joins two when their methods use a field in
common. -/
def methodGraph (methods : List (List String)) : SimpleGraph (Fin methods.length) :=
  SimpleGraph.fromRel (SharesField methods)

theorem methodGraph_adj {i j : Fin methods.length} :
    (methodGraph methods).Adj i j ↔ i ≠ j ∧ SharesField methods i j := by
  have hsymm : SharesField methods j i → SharesField methods i j :=
    fun ⟨field, hj, hi⟩ => ⟨field, hi, hj⟩
  rw [methodGraph, SimpleGraph.fromRel_adj]
  exact and_congr_right fun _ => ⟨fun h => h.elim id hsymm, .inl⟩

theorem reachable_iff {i j : Fin methods.length} :
    (methodGraph methods).Reachable i j ↔ ReflTransGen (SharesField methods) i j := by
  rw [SimpleGraph.reachable_iff_reflTransGen]
  constructor
  · exact fun h => h.lift id fun _ _ hadj => (methodGraph_adj.mp hadj).2
  · intro h
    induction h with
    | refl => exact .refl
    | @tail k l _ hstep ih =>
      -- a method that is joined to itself makes no edge, and needs none
      by_cases hkl : k = l
      · exact hkl ▸ ih
      · exact ih.tail (methodGraph_adj.mpr ⟨hkl, hstep⟩)

theorem card_connectedComponent (methods : List (List String)) :
    Nat.card (methodGraph methods).ConnectedComponent = classCount methods :=
  Nat.card_congr (Quot.congrRight fun _ _ => reachable_iff)

theorem methodGraph_eq_bot_iff :
    methodGraph methods = ⊥ ↔ ∀ i j, SharesField methods i j → i = j := by
  rw [SimpleGraph.eq_bot_iff_forall_not_adj]
  refine forall_congr' fun i => forall_congr' fun j => ?_
  rw [methodGraph_adj, not_and', not_not]

/-- Every method is a class of its own exactly if no two are joined. -/
theorem classCount_eq_length_iff :
    classCount methods = methods.length ↔ methodGraph methods = ⊥ := by
  rw [methodGraph_eq_bot_iff]
  have hsurj : Function.Surjective (Quotient.mk (hangTogether methods)) := Quotient.mk_surjective
  constructor
  · intro hcount i j hij
    have hle : Nat.card (Fin methods.length) ≤ Nat.card (Quotient (hangTogether methods)) := by
      rw [Nat.card_fin]
      exact Nat.le_of_eq hcount.symm
    exact (hsurj.bijective_of_nat_card_le hle).1 (Quotient.sound (ReflTransGen.single hij))
  · intro hfree
    have hinj : Function.Injective (Quotient.mk (hangTogether methods)) := by
      intro i j hij
      have hchain : ReflTransGen (SharesField methods) i j := Quotient.exact hij
      induction hchain with
      | refl => rfl
      | tail _ hstep ih => exact (ih (Quotient.sound ‹_›)).trans (hfree _ _ hstep)
    rw [classCount, ← Nat.card_eq_of_bijective _ ⟨hinj, hsurj⟩, Nat.card_fin]

/-! ## With and without a declared field -/

/-- Without a declared field every method counts. -/
theorem lackOfCohesion_of_no_fields (methods : List (List String)) :
    lackOfCohesion methods [] = methods.length := by
  cases methods <;> rfl

/-- The fields that each method of a class uses. -/
def usedByMethods (profile : Profile) (node : Node) : List (List String) :=
  (methodsOf profile (fieldsOf profile node) node).map Method.usedFields

theorem lcom_ofNode (path language : String) (graph : Inheritance.Graph) (node : Node) :
    (ClassMetrics.ofNode path language graph node).lcom =
      Number.ofNat (lackOfCohesion (usedByMethods (.ofTag language) node)
        (fieldsOf (.ofTag language) node)) := rfl

/-! ## Fields in Ruby -/

/-- The node that a method is searched in is a node of its class. -/
theorem exists_at?_body {node method : Node} {a : List Nat} (h : node.at? a = some method) :
    ∃ b, node.at? b = some ((method.child? "body").getD method) := by
  cases hb : method.child? "body" with
  | none => exact ⟨a, h⟩
  | some body =>
    obtain ⟨i, hi⟩ := Node.at?_child hb
    exact ⟨a ++ [i], Node.at?_append h hi⟩

/-- A field that a method of a class uses is used at a node of the class. -/
theorem exists_fieldUse {profile : Profile} {node : Node} {used : List String} {field : String}
    (hused : used ∈ usedByMethods profile node) (hfield : field ∈ used) :
    ∃ a n bare, node.at? a = some n ∧
      fieldUse profile (profile.bareAccess && bare) (fieldsOf profile node) n = some field := by
  rw [usedByMethods, methodsOf_eq_sites, List.map_map] at hused
  obtain ⟨⟨a, method⟩, hsite, rfl⟩ := List.mem_map.mp hused
  have hat := (mem_methodSites.mp hsite).1
  rw [Function.comp_apply, usedFields, Syntax.mem_firstSeen, Syntax.mem_collect] at hfield
  obtain ⟨b, n, hn, hfield⟩ := hfield
  obtain ⟨c, hc⟩ := exists_at?_body hat
  exact ⟨c ++ b, n, _, Node.at?_append hc hn, Option.mem_toList.mp hfield⟩

/-- What is used in Ruby is written as an instance variable, and that is a declaration. -/
theorem fieldsOf_ne_nil_of_ruby {node : Node} {used : List String} {field : String}
    (hused : used ∈ usedByMethods .ruby node) (hfield : field ∈ used) :
    fieldsOf .ruby node ≠ [] := by
  obtain ⟨a, n, bare, hat, huse⟩ := exists_fieldUse hused hfield
  have hkind : n.kind = "instance_variable" := by
    by_contra hne
    simp [fieldUse, fieldUse.bareUse, Profile.ruby, hne] at huse
  have hmem : n.text ∈ fieldsOf .ruby node := by
    refine Syntax.mem_collect.mpr ⟨a, n, hat, ?_⟩
    simp [Profile.ruby, hkind]
  exact List.ne_nil_of_mem hmem

/-- Without a declared field no two methods of a Ruby class are joined. -/
theorem methodGraph_ruby {node : Node} (h : fieldsOf .ruby node = []) :
    methodGraph (usedByMethods .ruby node) = ⊥ := by
  rw [methodGraph_eq_bot_iff]
  rintro i j ⟨field, hi, -⟩
  exact absurd h (fieldsOf_ne_nil_of_ruby (List.get_mem _ i) hi)

/-! ## What is measured -/

/-- **The lack of cohesion of a class node.** It is the number of components of the graph of the
methods if the class declares a field, and in Ruby always. If there is no declaration it is the
number of methods, which is that of the components exactly if no two methods are joined. -/
theorem lcom_counts_components (path language : String) (graph : Inheritance.Graph) (node : Node) :
    (fieldsOf (.ofTag language) node ≠ [] ∨ language = "ruby" →
      (ClassMetrics.ofNode path language graph node).lcom = Number.ofNat
        (Nat.card (methodGraph (usedByMethods (.ofTag language) node)).ConnectedComponent)) ∧
    (fieldsOf (.ofTag language) node = [] →
      (ClassMetrics.ofNode path language graph node).lcom =
        Number.ofNat (usedByMethods (.ofTag language) node).length ∧
      ((ClassMetrics.ofNode path language graph node).lcom = Number.ofNat
          (Nat.card (methodGraph (usedByMethods (.ofTag language) node)).ConnectedComponent) ↔
        methodGraph (usedByMethods (.ofTag language) node) = ⊥)) := by
  rw [card_connectedComponent, lcom_ofNode, Number.ofNat_inj, Number.ofNat_inj]
  have hnone : fieldsOf (.ofTag language) node = [] →
      lackOfCohesion (usedByMethods (.ofTag language) node) (fieldsOf (.ofTag language) node) =
        (usedByMethods (.ofTag language) node).length := by
    intro hfields
    rw [hfields, lackOfCohesion_of_no_fields]
  refine ⟨fun h => ?_, fun hfields => ⟨hnone hfields, ?_⟩⟩
  · by_cases hfields : fieldsOf (.ofTag language) node = []
    · have hruby : language = "ruby" := h.resolve_left (not_not_intro hfields)
      subst hruby
      rw [hnone hfields]
      exact (classCount_eq_length_iff.mpr (methodGraph_ruby hfields)).symm
    · exact lackOfCohesion_of_fields hfields
  · rw [hnone hfields, eq_comm]
    exact classCount_eq_length_iff

namespace Sample

/-- A leaf in a field of its parent. -/
def leaf (kind field text : String) : Node := .mk kind true text (some field) 0 0 []

/-- A method that accesses a field of its object. -/
def accessing (name access : String) : Node :=
  .mk "method_definition" true "" none 0 0
    [some (leaf "property_identifier" "name" name),
     some (.mk "statement_block" true "" (some "body") 0 0
      [some (.mk "member_expression" true "" none 0 0
        [some (leaf "this" "object" "this"),
         some (leaf "property_identifier" "property" access)])])]

/-- A class with two methods, which share a field. -/
def counter (members : List (Option Node)) : Node :=
  .mk "class_declaration" true "" none 0 0
    [some (leaf "identifier" "name" "Counter"),
     some (.mk "class_body" true "" (some "body") 0 0
      (members ++ [some (accessing "constructor" "n"), some (accessing "next" "n")]))]

/-- The declaration of another field. -/
def declaration : Node :=
  .mk "field_definition" true "" none 0 0 [some (leaf "property_identifier" "property" "step")]

end Sample

/-- The two methods are one component, and with any declaration in the class they are one group. -/
theorem lcom_counts_components_counter :
    fieldsOf (.ofTag "javascript") (Sample.counter [some Sample.declaration]) ≠ [] ∧
      (ClassMetrics.ofNode "/p/counter.js" "javascript" (.ofFacts [])
        (Sample.counter [some Sample.declaration])).lcom = 1 ∧
      Nat.card (methodGraph (usedByMethods (.ofTag "javascript")
        (Sample.counter [some Sample.declaration]))).ConnectedComponent = 1 := by
  have hfields : fieldsOf (.ofTag "javascript") (Sample.counter [some Sample.declaration]) ≠
      [] := by
    decide +kernel
  have hone : (ClassMetrics.ofNode "/p/counter.js" "javascript" (.ofFacts [])
      (Sample.counter [some Sample.declaration])).lcom = 1 := by
    decide +kernel
  have h := (lcom_counts_components "/p/counter.js" "javascript" (.ofFacts [])
    (Sample.counter [some Sample.declaration])).1 (.inl hfields)
  exact ⟨hfields, hone, Number.ofNat_inj.mp (h.symm.trans hone)⟩

/-- **A field that is not declared does not hold methods together.** Both methods use it and are one
component, but they are counted as two. -/
theorem undeclared_field_splits_methods :
    (Sample.counter []).kind ∈ (Profile.ofTag "javascript").classKinds ∧
      fieldsOf (.ofTag "javascript") (Sample.counter []) = [] ∧
      (ClassMetrics.ofNode "/p/counter.js" "javascript" (.ofFacts [])
        (Sample.counter [])).lcom = 2 ∧
      Nat.card (methodGraph (usedByMethods (.ofTag "javascript")
        (Sample.counter []))).ConnectedComponent = 1 := by
  refine ⟨by decide, by decide +kernel, by decide +kernel, ?_⟩
  rw [card_connectedComponent, ← searches_neighbours]
  decide +kernel

end ClassCohesion.Metrics
