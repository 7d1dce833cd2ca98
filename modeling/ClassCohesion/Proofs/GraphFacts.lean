import Mathlib.Data.List.Induction
import Mathlib.Data.List.Nodup
import ClassCohesion.Inheritance.Graph

/-!
# The graph of a list of facts

What a graph knows is what the facts say that it was folded from. A class is declared if a fact
declares it (`has_ofFacts`), its parents are those of its last fact (`parents_ofFacts`), and it is a
child of another if a fact of it names the other as a parent (`mem_children_ofFacts`), also where a
later fact for it says something else.
-/

namespace ClassCohesion.Inheritance

variable {α : Type}

/-! ## Tables -/

theorem Table.get?_cons (k name : String) (v : α) (t : Table α) :
    Table.get? ((k, v) :: t) name = if name = k then some v else t.get? name := by
  unfold Table.get?
  rw [List.lookup_cons]
  by_cases h : name = k
  · rw [if_pos h, beq_iff_eq.mpr h]
  · rw [if_neg h, beq_false_of_ne h]

/-- Setting a key changes the value of that key only. -/
theorem Table.get?_put (t : Table α) (key name : String) (value : α) :
    (Table.put t key value).get? name = if name = key then some value else t.get? name := by
  induction t with
  | nil =>
    rw [Table.put, Table.get?_cons]
  | cons entry rest ih =>
    obtain ⟨k, v⟩ := entry
    rw [Table.put, Table.get?_cons]
    by_cases hk : k = key
    · subst hk
      rw [if_pos rfl, Table.get?_cons]
      split <;> rfl
    · rw [if_neg hk, Table.get?_cons, ih]
      by_cases h : name = k
      · have hne : name ≠ key := fun e => hk (h.symm.trans e)
        rw [if_pos h, if_neg hne, if_pos h]
      · rw [if_neg h, if_neg h]

namespace Graph

/-- The children that a table has for a class. -/
def childrenIn (t : Table (List String)) (name : String) : List String := (t.get? name).getD []

theorem mem_addOnce {names : List String} {name x : String} :
    x ∈ addOnce names name ↔ x ∈ names ∨ x = name := by
  unfold addOnce
  split
  · next h =>
    have hmem : name ∈ names := List.contains_iff_mem.mp h
    constructor
    · exact .inl
    · rintro (hx | rfl)
      · exact hx
      · exact hmem
  · rw [List.mem_append, List.mem_singleton]

theorem addOnce_nodup {names : List String} (h : names.Nodup) (name : String) :
    (addOnce names name).Nodup := by
  unfold addOnce
  split
  · exact h
  · next hc =>
    refine h.append (List.nodup_singleton name) ?_
    rw [List.disjoint_singleton]
    exact fun hmem => hc (List.contains_iff_mem.mpr hmem)

/-- Recording a child adds it to the children of its parent and of no other class. -/
theorem childrenIn_addChild (child parent name : String) (t : Table (List String)) :
    childrenIn (addChild child t parent) name =
      if name = parent then addOnce (childrenIn t parent) child else childrenIn t name := by
  unfold childrenIn addChild
  rw [Table.get?_put]
  split <;> rfl

theorem addOnce_addOnce (names : List String) (name : String) :
    addOnce (addOnce names name) name = addOnce names name := by
  have hmem : name ∈ addOnce names name := mem_addOnce.mpr (.inr rfl)
  rw [addOnce, if_pos (List.contains_iff_mem.mpr hmem)]

/-- A class is added to the children of each of its parents, however often it names it. -/
theorem childrenIn_foldl (child name : String) (parents : List String) (t : Table (List String)) :
    childrenIn (parents.foldl (addChild child) t) name =
      if name ∈ parents then addOnce (childrenIn t name) child else childrenIn t name := by
  induction parents generalizing t with
  | nil => rfl
  | cons parent rest ih =>
    rw [List.foldl_cons, ih, childrenIn_addChild]
    by_cases h : name = parent
    · subst h
      rw [if_pos rfl, if_pos List.mem_cons_self, addOnce_addOnce, ite_self]
    · have hmem : name ∈ parent :: rest ↔ name ∈ rest := by simp [h]
      simp only [if_neg h, hmem]

/-! ## One more fact -/

theorem has_addFact (g : Graph) (fact : Fact) (name : String) :
    (g.addFact fact).has name = true ↔ g.has name = true ∨ fact.className = name := by
  show (Table.get? (Table.put g.parentsOf fact.className fact.parents) name).isSome = true ↔ _
  rw [Table.get?_put]
  by_cases h : name = fact.className
  · simp [h]
  · have hne : ¬ fact.className = name := fun e => h e.symm
    simp [h, hne, has]

theorem parents_addFact (g : Graph) (fact : Fact) (name : String) :
    (g.addFact fact).parents name =
      if name = fact.className then fact.parents else g.parents name := by
  show (Table.get? (Table.put g.parentsOf fact.className fact.parents) name).getD [] = _
  rw [Table.get?_put]
  split <;> rfl

theorem children_addFact (g : Graph) (fact : Fact) (name : String) :
    (g.addFact fact).children name =
      if name ∈ fact.parents then addOnce (g.children name) fact.className else g.children name :=
  childrenIn_foldl _ _ _ _

theorem mem_children_addFact {g : Graph} {fact : Fact} {name x : String} :
    x ∈ (g.addFact fact).children name ↔
      x ∈ g.children name ∨ (x = fact.className ∧ name ∈ fact.parents) := by
  rw [children_addFact]
  split
  · next h => rw [mem_addOnce, and_iff_left h]
  · next h => rw [or_iff_left fun hx => h hx.2]

/-! ## All facts -/

theorem ofFacts_snoc (facts : List Fact) (fact : Fact) :
    ofFacts (facts ++ [fact]) = (ofFacts facts).addFact fact := by
  rw [ofFacts, ofFacts, List.foldl_append]
  rfl

theorem has_ofFacts {facts : List Fact} {name : String} :
    (ofFacts facts).has name = true ↔ ∃ fact ∈ facts, fact.className = name := by
  induction facts using List.reverseRecOn with
  | nil => simp [ofFacts, empty, has, Table.get?]
  | append_singleton facts fact ih =>
    rw [ofFacts_snoc, has_addFact, ih]
    constructor
    · rintro (⟨f, hf, hn⟩ | hn)
      · exact ⟨f, List.mem_append_left _ hf, hn⟩
      · exact ⟨fact, List.mem_append_right _ List.mem_cons_self, hn⟩
    · rintro ⟨f, hf, hn⟩
      rcases List.mem_append.mp hf with hf | hf
      · exact .inl ⟨f, hf, hn⟩
      · rw [List.mem_singleton] at hf
        exact .inr (hf ▸ hn)

theorem mem_children_ofFacts {facts : List Fact} {name x : String} :
    x ∈ (ofFacts facts).children name ↔
      ∃ fact ∈ facts, fact.className = x ∧ name ∈ fact.parents := by
  induction facts using List.reverseRecOn with
  | nil => simp [ofFacts, empty, children, Table.get?]
  | append_singleton facts fact ih =>
    rw [ofFacts_snoc, mem_children_addFact, ih]
    constructor
    · rintro (⟨f, hf, h⟩ | ⟨rfl, h⟩)
      · exact ⟨f, List.mem_append_left _ hf, h⟩
      · exact ⟨fact, List.mem_append_right _ List.mem_cons_self, rfl, h⟩
    · rintro ⟨f, hf, rfl, h⟩
      rcases List.mem_append.mp hf with hf | hf
      · exact .inl ⟨f, hf, rfl, h⟩
      · rw [List.mem_singleton] at hf
        subst hf
        exact .inr ⟨rfl, h⟩

/-- The parents that the last fact of a class names. -/
def lastParents? (name : String) : List Fact → Option (List String)
  | [] => none
  | fact :: rest =>
    (lastParents? name rest).or (if fact.className = name then some fact.parents else none)

/-- The last fact of a class gives its parents. -/
theorem parents_ofFacts (facts : List Fact) (name : String) :
    (ofFacts facts).parents name = (lastParents? name facts).getD [] := by
  suffices h : ∀ g : Graph,
      (facts.foldl addFact g).parents name = (lastParents? name facts).getD (g.parents name) by
    exact h empty
  induction facts with
  | nil => exact fun _ => rfl
  | cons fact rest ih =>
    intro g
    rw [List.foldl_cons, ih, parents_addFact, lastParents?]
    cases lastParents? name rest with
    | some parents => rfl
    | none =>
      rw [Option.none_or, Option.getD_none]
      by_cases h : fact.className = name
      · rw [if_pos h, if_pos h.symm, Option.getD_some]
      · rw [if_neg h, if_neg fun e => h e.symm, Option.getD_none]

theorem lastParents?_append (name : String) (facts facts' : List Fact) :
    lastParents? name (facts ++ facts') =
      (lastParents? name facts').or (lastParents? name facts) := by
  induction facts with
  | nil => rw [List.nil_append, lastParents?, Option.or_none]
  | cons fact rest ih => rw [List.cons_append, lastParents?, lastParents?, ih, Option.or_assoc]

theorem lastParents?_eq_none {name : String} {facts : List Fact}
    (h : ∀ fact ∈ facts, fact.className ≠ name) : lastParents? name facts = none := by
  induction facts with
  | nil => rfl
  | cons fact rest ih =>
    rw [lastParents?, ih fun f hf => h f (List.mem_cons_of_mem fact hf), Option.none_or,
      if_neg (h fact List.mem_cons_self)]

/-- If the facts of a class all name the same parents, so does the last one. -/
theorem lastParents?_eq_some {name : String} {facts : List Fact} {parents : List String}
    (h : ∀ fact ∈ facts, fact.className = name → fact.parents = parents)
    (hex : ∃ fact ∈ facts, fact.className = name) : lastParents? name facts = some parents := by
  induction facts with
  | nil =>
    obtain ⟨fact, hfact, -⟩ := hex
    cases hfact
  | cons fact rest ih =>
    have hrest := fun f hf => h f (List.mem_cons_of_mem fact hf)
    rw [lastParents?]
    by_cases hlater : ∃ f ∈ rest, f.className = name
    · rw [ih hrest hlater, Option.some_or]
    · have hnone : ∀ f ∈ rest, f.className ≠ name := fun f hf hname => hlater ⟨f, hf, hname⟩
      obtain ⟨f, hf, hname⟩ := hex
      obtain rfl : f = fact :=
        (List.mem_cons.mp hf).resolve_right fun hf => hnone f hf hname
      rw [lastParents?_eq_none hnone, Option.none_or, if_pos hname, h f List.mem_cons_self hname]

/-- A child is listed once, so the number of children counts classes. -/
theorem children_ofFacts_nodup (facts : List Fact) (name : String) :
    ((ofFacts facts).children name).Nodup := by
  induction facts using List.reverseRecOn generalizing name with
  | nil => exact List.nodup_nil
  | append_singleton facts fact ih =>
    rw [ofFacts_snoc, children_addFact]
    split
    · exact addOnce_nodup (ih name) fact.className
    · exact ih name

end Graph

end ClassCohesion.Inheritance
