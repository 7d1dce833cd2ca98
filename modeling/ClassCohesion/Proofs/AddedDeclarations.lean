import ClassCohesion.Proofs.Links

/-!
# Trees with added declarations

A forward declaration is a class node with a name, without a body and without an inheritance clause.
It may be added at any place of a tree; what stands around it is on other rows then and has another
text. Only the classes of the tree keep their names and, outside of type arguments, what their
inheritance clauses say.

- `parentNames_congr`: clauses that say the same outside of type arguments name the same parents.
- `Grown`: one tree is another with forward declarations of a class added to it.
- `Grown.interspersed`: then its class nodes, in the order of the document, are those of the other
  with the forward declarations in between.
-/

namespace ClassCohesion

open Syntax (Node)

namespace Language

/-! ## What an inheritance clause says -/

theorem withoutArguments_withoutArguments (cs : List Char) :
    withoutArguments (withoutArguments cs) = withoutArguments cs := by
  have hplain : (withoutArguments cs).takeWhile (fun c => c != '<' && c != '[') =
      withoutArguments cs := by
    rw [List.takeWhile_eq_self_iff]
    intro c hc
    have hmem : c ∈ cs.takeWhile fun c => c != '<' && c != '[' :=
      (Text.isInfix_trim _).subset hc
    simpa using List.mem_takeWhile_imp hmem
  rw [withoutArguments, hplain, withoutArguments, Text.trim_trim]

theorem simpleName_cleanTypeName (name : String) :
    simpleName (cleanTypeName name) = simpleName name := by
  rw [simpleName, simpleName, cleanTypeName, cleanTypeName, String.toList_ofList,
    withoutArguments_withoutArguments]

mutual

/-- A node of an inheritance clause without what is inside type arguments or inside the name of a
parent, and without the texts and rows that say nothing about parents. -/
def clauseView (profile : Profile) : Node → Node
  | .mk kind _ text _ _ _ places =>
    if kind ∈ argumentKinds then .mk kind true "" none 0 0 []
    else if kind ∈ profile.parentKinds then .mk kind true (cleanTypeName text) none 0 0 []
    else .mk kind true "" none 0 0 (clauseViewRow profile places)

/-- The nodes of a row, each without what says nothing about parents. -/
def clauseViewRow (profile : Profile) : List (Option Node) → List (Option Node)
  | [] => []
  | none :: rest => clauseViewRow profile rest
  | some n :: rest => some (clauseView profile n) :: clauseViewRow profile rest

end

/-- What the inheritance clauses of a class node say. -/
def clauseViews (profile : Profile) (n : Node) : List (List Node) :=
  (n.children.filter fun c => profile.heritageKinds.contains c.kind).map fun clause =>
    clause.children.map (clauseView profile)

variable {profile : Profile}

theorem clauseView_eq (profile : Profile) (n : Node) :
    clauseView profile n =
      if n.kind ∈ argumentKinds then .mk n.kind true "" none 0 0 []
      else if n.kind ∈ profile.parentKinds then
        .mk n.kind true (cleanTypeName n.text) none 0 0 []
      else .mk n.kind true "" none 0 0 (clauseViewRow profile n.places) := by
  cases n
  rw [clauseView]
  rfl

theorem filterMap_clauseViewRow (profile : Profile) (places : List (Option Node)) :
    (clauseViewRow profile places).filterMap id =
      (places.filterMap id).map (clauseView profile) := by
  induction places with
  | nil => rfl
  | cons place rest ih =>
    cases place with
    | none => exact ih
    | some n =>
      show clauseView profile n :: (clauseViewRow profile rest).filterMap id =
        clauseView profile n :: (rest.filterMap id).map (clauseView profile)
      rw [ih]

theorem kind_clauseView (n : Node) : (clauseView profile n).kind = n.kind := by
  rw [clauseView_eq]
  split
  · rfl
  · split <;> rfl

theorem children_clauseView {n : Node} (harg : n.kind ∉ argumentKinds)
    (hparent : n.kind ∉ profile.parentKinds) :
    (clauseView profile n).children = n.children.map (clauseView profile) := by
  rw [clauseView_eq, if_neg harg, if_neg hparent]
  exact filterMap_clauseViewRow profile n.places

theorem parentOf_clauseView {n : Node} (harg : n.kind ∉ argumentKinds)
    (hparent : n.kind ∈ profile.parentKinds) : parentOf (clauseView profile n) = parentOf n := by
  have htext : (clauseView profile n).text = cleanTypeName n.text := by
    rw [clauseView_eq, if_neg harg, if_pos hparent]
    rfl
  rw [parentOf, parentOf, htext, simpleName_cleanTypeName]

theorem parentNames_eq (profile : Profile) (n : Node) :
    parentNames profile n =
      (n.children.filter fun c => profile.heritageKinds.contains c.kind).flatMap fun clause =>
        clause.children.flatMap (Syntax.collect (parentStep profile)) := by
  rw [parentNames]
  refine List.flatMap_congr fun clause _ => ?_
  exact Syntax.collectRow_eq_flatMap (parentStep profile) clause.children

theorem parentStep_clauseView (n : Node) :
    parentStep profile (clauseView profile n) = parentStep profile n := by
  unfold parentStep
  rw [kind_clauseView]
  by_cases harg : n.kind ∈ argumentKinds
  · simp [harg]
  · by_cases hparent : n.kind ∈ profile.parentKinds
    · simp [harg, hparent, parentOf_clauseView harg hparent]
    · simp [harg, hparent]

theorem collect_clauseView (n : Node) :
    Syntax.collect (parentStep profile) (clauseView profile n) =
      Syntax.collect (parentStep profile) n := by
  induction n using Node.induction with
  | step n ih =>
    rw [Syntax.collect_eq, Syntax.collect_eq (parentStep profile) n, parentStep_clauseView]
    congr 1
    by_cases hdown : (parentStep profile n).2 = true
    · -- the walk goes on only where the view keeps the children
      have hkinds := parentStep_descends.mp hdown
      rw [if_pos hdown, if_pos hdown, children_clauseView hkinds.1 hkinds.2, List.flatMap_map]
      refine List.flatMap_congr fun c hc => ih c ?_
      simpa [Node.children] using hc
    · rw [if_neg hdown, if_neg hdown]

/-- **Clauses that say the same name the same parents.** -/
theorem parentNames_congr {n n' : Node} (h : clauseViews profile n' = clauseViews profile n) :
    parentNames profile n' = parentNames profile n := by
  have hviews : ∀ m : Node, parentNames profile m =
      (clauseViews profile m).flatMap (·.flatMap (Syntax.collect (parentStep profile))) := by
    intro m
    rw [parentNames_eq, clauseViews, List.flatMap_map]
    refine List.flatMap_congr fun clause _ => ?_
    rw [List.flatMap_map]
    exact List.flatMap_congr fun c _ => (collect_clauseView c).symm
  rw [hviews, hviews, h]

end Language

namespace Inheritance

open ClassCohesion.Language (Profile IsNamedClass clauseViews parentNames)

variable {profile : Profile} {name : String}

/-! ## Class nodes in the order of the document -/

/-- The named class nodes of a tree. -/
def declarationsIn (profile : Profile) (root : Node) : List Node :=
  Syntax.collect (fun n => (if IsNamedClass profile n then [n] else [], true)) root

theorem declarationsIn_eq (profile : Profile) (n : Node) :
    declarationsIn profile n =
      (if IsNamedClass profile n then [n] else []) ++
        n.children.flatMap (declarationsIn profile) := by
  rw [declarationsIn, Syntax.collect_eq, if_pos rfl]
  rfl

theorem factsIn_eq_map (profile : Profile) (file : String) (root : Node) :
    factsIn profile file root =
      (declarationsIn profile root).map fun n => ⟨n.nameText, parentNames profile n, file⟩ := by
  rw [factsIn_eq_outline, declarationsIn,
    Syntax.collect_eq_map (IsNamedClass profile) (fun n => n), List.map_map]
  rfl

/-! ## Forward declarations -/

/-- A class node with a name, and without a body or an inheritance clause. -/
structure IsForward (profile : Profile) (name : String) (n : Node) : Prop where
  kind : n.kind ∈ profile.classKinds
  name : n.nameText = name
  body : n.child? "body" = none
  clauses : ∀ c ∈ n.children, c.kind ∉ profile.heritageKinds

theorem IsForward.parentNames_eq {n : Node} (h : IsForward profile name n) :
    parentNames profile n = [] := by
  have hnone : (n.children.filter fun c => profile.heritageKinds.contains c.kind) = [] := by
    rw [List.filter_eq_nil_iff]
    intro c hc
    rw [List.contains_iff_mem]
    exact h.clauses c hc
  rw [parentNames, hnone]
  rfl

mutual

/-- The tree `n'` is `n` with forward declarations of a class added below its root. -/
inductive Grown (profile : Profile) (name : String) : Node → Node → Prop where
  | node {n n' : Node} (kind : n'.kind = n.kind) (field : n'.field = n.field)
      (class_kept : n.kind ∈ profile.classKinds →
        n'.nameText = n.nameText ∧ clauseViews profile n' = clauseViews profile n)
      (row : GrownRow profile name n.children n'.children) : Grown profile name n n'

/-- The row of trees `row'` is `row` with forward declarations added in it and below it. A tree that
is added may hold further class nodes, if these are forward declarations of the class as well. -/
inductive GrownRow (profile : Profile) (name : String) : List Node → List Node → Prop where
  | nil : GrownRow profile name [] []
  | keep {n n' : Node} {row row' : List Node} (tree : Grown profile name n n')
      (rest : GrownRow profile name row row') : GrownRow profile name (n :: row) (n' :: row')
  | add {n : Node} {row row' : List Node} (forward : IsForward profile name n)
      (only : ∀ d ∈ declarationsIn profile n, IsForward profile name d)
      (rest : GrownRow profile name row row') : GrownRow profile name row (n :: row')

end

theorem grownRow_refl {row : List Node} (h : ∀ n ∈ row, Grown profile name n n) :
    GrownRow profile name row row := by
  induction row with
  | nil => exact .nil
  | cons n row ih =>
    refine .keep (h n List.mem_cons_self) (ih fun m hm => h m ?_)
    exact List.mem_cons_of_mem n hm

/-- Nothing has to be added. -/
theorem Grown.refl (profile : Profile) (name : String) (n : Node) : Grown profile name n n := by
  induction n using Node.induction with
  | step n ih =>
    refine .node rfl rfl (fun _ => ⟨rfl, rfl⟩) (grownRow_refl fun c hc => ih c ?_)
    simpa [Node.children] using hc

/-! ## Lists with added elements -/

/-- The second list is the first one with new elements in between, where the others are kept. -/
inductive Interspersed {α : Type} (kept : α → α → Prop) (new : α → Prop) :
    List α → List α → Prop where
  | nil : Interspersed kept new [] []
  | keep {a b : α} {as bs : List α} (h : kept a b) (rest : Interspersed kept new as bs) :
      Interspersed kept new (a :: as) (b :: bs)
  | add {b : α} {as bs : List α} (h : new b) (rest : Interspersed kept new as bs) :
      Interspersed kept new as (b :: bs)

namespace Interspersed

variable {α β : Type} {kept : α → α → Prop} {new : α → Prop} {as bs cs ds : List α}

theorem append (h : Interspersed kept new as bs) (h' : Interspersed kept new cs ds) :
    Interspersed kept new (as ++ cs) (bs ++ ds) := by
  induction h with
  | nil => exact h'
  | keep hk _ ih => exact .keep hk ih
  | add hn _ ih => exact .add hn ih

theorem of_new (h : ∀ b ∈ bs, new b) : Interspersed kept new [] bs := by
  induction bs with
  | nil => exact .nil
  | cons b bs ih =>
    refine .add (h b List.mem_cons_self) (ih fun c hc => h c ?_)
    exact List.mem_cons_of_mem b hc

theorem map {kept' : β → β → Prop} {new' : β → Prop} {f g : α → β}
    (hk : ∀ a b, kept a b → kept' (f a) (g b)) (hn : ∀ b, new b → new' (g b))
    (h : Interspersed kept new as bs) : Interspersed kept' new' (as.map f) (bs.map g) := by
  induction h with
  | nil => exact .nil
  | keep h _ ih => exact .keep (hk _ _ h) ih
  | add h _ ih => exact .add (hn _ h) ih

/-- An element of the first list splits both. -/
theorem split {a : α} (h : Interspersed kept new (as ++ a :: cs) bs) :
    ∃ before b after, bs = before ++ b :: after ∧ Interspersed kept new as before ∧ kept a b ∧
      Interspersed kept new cs after := by
  generalize hwhole : as ++ a :: cs = whole at h
  induction h generalizing as with
  | nil => simp at hwhole
  | @keep a' b as' bs hk rest ih =>
    cases as with
    | nil =>
      cases hwhole
      exact ⟨[], b, bs, rfl, .nil, hk, rest⟩
    | cons x as =>
      cases hwhole
      obtain ⟨before, c, after, rfl, hbefore, hc, hafter⟩ := ih rfl
      exact ⟨b :: before, c, after, rfl, .keep hk hbefore, hc, hafter⟩
  | @add b as' bs hn rest ih =>
    obtain ⟨before, c, after, rfl, hbefore, hc, hafter⟩ := ih hwhole
    exact ⟨b :: before, c, after, rfl, .add hn hbefore, hc, hafter⟩

/-- An element of the second list is new or is one of the first. -/
theorem mem_cases {b : α} (h : Interspersed kept new as bs) (hb : b ∈ bs) :
    new b ∨ ∃ a ∈ as, kept a b := by
  induction h with
  | nil => cases hb
  | @keep a b' as bs hk _ ih =>
    rcases List.mem_cons.mp hb with rfl | hb
    · exact .inr ⟨a, List.mem_cons_self, hk⟩
    · rcases ih hb with hnew | ⟨c, hc, hkept⟩
      · exact .inl hnew
      · exact .inr ⟨c, List.mem_cons_of_mem a hc, hkept⟩
  | add hn _ ih =>
    rcases List.mem_cons.mp hb with rfl | hb
    · exact .inl hn
    · exact ih hb

end Interspersed

/-! ## The class nodes of a tree with added declarations -/

/-- A class node after an addition: it has the name and the parents it had, and a body if it had
one. -/
structure Kept (profile : Profile) (n n' : Node) : Prop where
  name : n'.nameText = n.nameText
  parents : parentNames profile n' = parentNames profile n
  body : (n.child? "body").isSome = true → (n'.child? "body").isSome = true

theorem GrownRow.exists_field {row row' : List Node} (h : GrownRow profile name row row')
    {field : String} (hc : ∃ c ∈ row, c.field = some field) : ∃ c ∈ row', c.field = some field := by
  obtain ⟨c, hmem, hfield⟩ := hc
  induction row' generalizing row with
  | nil =>
    cases h
    cases hmem
  | cons n' row' ih =>
    cases h with
    | @keep n _ row _ tree rest =>
      rcases List.mem_cons.mp hmem with rfl | hmem
      · cases tree with
        | node _ hkept => exact ⟨n', List.mem_cons_self, hkept.trans hfield⟩
      · obtain ⟨d, hd, hdfield⟩ := ih rest hmem
        exact ⟨d, List.mem_cons_of_mem n' hd, hdfield⟩
    | add _ _ rest =>
      obtain ⟨d, hd, hdfield⟩ := ih rest hmem
      exact ⟨d, List.mem_cons_of_mem n' hd, hdfield⟩

theorem child?_isSome_iff {n : Node} {field : String} :
    (n.child? field).isSome = true ↔ ∃ c ∈ n.children, c.field = some field := by
  rw [Node.child?, List.find?_isSome]
  simp only [beq_iff_eq]

theorem Grown.kept {n n' : Node} (h : Grown profile name n n') (hn : IsNamedClass profile n) :
    Kept profile n n' := by
  cases h with
  | node _ _ class_kept row =>
    obtain ⟨hname, hclauses⟩ := class_kept hn.1
    refine ⟨hname, Language.parentNames_congr hclauses, fun hbody => ?_⟩
    exact child?_isSome_iff.mpr (row.exists_field (child?_isSome_iff.mp hbody))

theorem Grown.isNamedClass_iff {n n' : Node} (h : Grown profile name n n') :
    IsNamedClass profile n' ↔ IsNamedClass profile n := by
  cases h with
  | node hkind _ class_kept _ =>
    unfold IsNamedClass
    rw [hkind]
    refine and_congr_right fun hclass => ?_
    rw [(class_kept hclass).1]

theorem Grown.root {n n' : Node} (h : Grown profile name n n') :
    Interspersed (Kept profile) (IsForward profile name)
      (if IsNamedClass profile n then [n] else [])
      (if IsNamedClass profile n' then [n'] else []) := by
  by_cases hn : IsNamedClass profile n
  · rw [if_pos hn, if_pos (h.isNamedClass_iff.mpr hn)]
    exact .keep (h.kept hn) .nil
  · rw [if_neg hn, if_neg fun hn' => hn (h.isNamedClass_iff.mp hn')]
    exact .nil

mutual

/-- **The class nodes of a tree to which forward declarations have been added** are those that it
had, with the forward declarations in between. -/
theorem Grown.interspersed {n n' : Node} : Grown profile name n n' →
    Interspersed (Kept profile) (IsForward profile name)
      (declarationsIn profile n) (declarationsIn profile n')
  | .node kind field class_kept row => by
    rw [declarationsIn_eq, declarationsIn_eq profile n']
    exact (Grown.node kind field class_kept row).root.append row.interspersed

theorem GrownRow.interspersed {row row' : List Node} : GrownRow profile name row row' →
    Interspersed (Kept profile) (IsForward profile name)
      (row.flatMap (declarationsIn profile)) (row'.flatMap (declarationsIn profile))
  | .nil => .nil
  | .keep tree rest => by
    rw [List.flatMap_cons, List.flatMap_cons]
    exact tree.interspersed.append rest.interspersed
  | .add _ only rest => by
    rw [List.flatMap_cons]
    exact (Interspersed.of_new only).append rest.interspersed

end

end Inheritance

end ClassCohesion
