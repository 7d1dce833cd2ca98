import Mathlib.Data.Finset.Card
import ClassCohesion.Proofs.Depth
import ClassCohesion.Proofs.GraphFacts

/-!
# The two indexes of the facts

A graph keeps two tables that one pass over the facts fills: a fact overwrites the parents of its
class, and adds its class to the children of each parent. So the tables agree one way only. What is
recorded as a parent has the class among its children, but a class stays a child of what a later fact
of it no longer names.

- `parents_eq_last`: the parents of a class are those of its last fact.
- `size_ofFacts`: the size counts the declared names.
- `children_ordered`: children come in the order in which they are first mentioned.
- `tables_answer_for_facts`: how the two tables fit together, and what they say of facts in another
  order.
-/

namespace ClassCohesion.Inheritance.Graph

variable {facts facts' : List Fact} {c p : String}

/-! ## Parents -/

/-- The facts of a class, in their order. -/
def factsFor (c : String) (facts : List Fact) : List Fact :=
  facts.filter fun fact => fact.className = c

theorem lastParents?_eq_getLast? (c : String) (facts : List Fact) :
    lastParents? c facts = (factsFor c facts).getLast?.map Fact.parents := by
  induction facts with
  | nil => rfl
  | cons fact rest ih =>
    unfold factsFor at ih ⊢
    rw [lastParents?, ih]
    by_cases h : fact.className = c
    · rw [if_pos h, List.filter_cons_of_pos (by simpa using h), List.getLast?_cons]
      cases (rest.filter fun fact => fact.className = c).getLast? <;> rfl
    · rw [if_neg h, List.filter_cons_of_neg (by simpa using h), Option.or_none]

theorem parents_eq_last (facts : List Fact) (c : String) :
    (ofFacts facts).parents c = ((factsFor c facts).getLast?.map Fact.parents).getD [] := by
  rw [parents_ofFacts, lastParents?_eq_getLast?]

/-- What a class has as a parent, a fact of the class names. -/
theorem exists_fact_of_mem_parents (h : p ∈ (ofFacts facts).parents c) :
    ∃ fact ∈ facts, fact.className = c ∧ p ∈ fact.parents := by
  rw [parents_eq_last] at h
  cases hlast : (factsFor c facts).getLast? with
  | none =>
    rw [hlast] at h
    cases h
  | some fact =>
    rw [hlast] at h
    obtain ⟨hmem, hname⟩ := List.mem_filter.mp (List.mem_of_getLast? hlast)
    exact ⟨fact, hmem, of_decide_eq_true hname, h⟩

/-- Where no name is declared twice, every fact gives the parents of its class. -/
theorem parents_of_mem (hd : (facts.map Fact.className).Nodup) {fact : Fact} (h : fact ∈ facts) :
    (ofFacts facts).parents fact.className = fact.parents := by
  have honly : ∀ f ∈ facts, f.className = fact.className → f.parents = fact.parents := by
    intro f hf hname
    rw [List.inj_on_of_nodup_map hd hf h hname]
  rw [parents_ofFacts, lastParents?_eq_some honly ⟨fact, h, rfl⟩]
  rfl

/-! ## Declared names -/

/-- Setting a key adds it to the keys, once. -/
theorem keys_put {α : Type} (t : Table α) (key : String) (value : α) :
    (Table.put t key value).map (·.1) = addOnce (t.map (·.1)) key := by
  unfold addOnce
  induction t with
  | nil => rfl
  | cons entry rest ih =>
    obtain ⟨k, v⟩ := entry
    rw [Table.put]
    by_cases hk : k = key
    · simp [hk]
    · have hk' : ¬ key = k := fun e => hk e.symm
      rw [if_neg hk, List.map_cons, ih]
      by_cases hmem : key ∈ rest.map (·.1) <;> simp [hmem, hk']

theorem declared_snoc (facts : List Fact) (fact : Fact) :
    (ofFacts (facts ++ [fact])).declared = addOnce (ofFacts facts).declared fact.className := by
  rw [ofFacts_snoc]
  exact keys_put _ _ _

theorem declared_ofFacts (facts : List Fact) :
    (ofFacts facts).declared.Nodup ∧
      ∀ c, c ∈ (ofFacts facts).declared ↔ c ∈ facts.map Fact.className := by
  induction facts using List.reverseRecOn with
  | nil => exact ⟨List.nodup_nil, fun _ => Iff.rfl⟩
  | append_singleton facts fact ih =>
    rw [declared_snoc]
    refine ⟨addOnce_nodup ih.1 _, fun c => ?_⟩
    rw [mem_addOnce, ih.2, List.map_append, List.mem_append, List.map_singleton,
      List.mem_singleton]

theorem size_ofFacts (facts : List Fact) :
    (ofFacts facts).size = (facts.map Fact.className).toFinset.card := by
  obtain ⟨hnodup, hmem⟩ := declared_ofFacts facts
  have hsame : (facts.map Fact.className).toFinset = (ofFacts facts).declared.toFinset := by
    ext c
    rw [List.mem_toFinset, List.mem_toFinset, hmem]
  rw [hsame, List.toFinset_card_of_nodup hnodup]
  exact (List.length_map _).symm

/-! ## Children -/

/-- The position of the first fact of a class that names a parent. -/
def firstMention (facts : List Fact) (p c : String) : Nat :=
  facts.findIdx fun fact => fact.className = c ∧ p ∈ fact.parents

theorem firstMention_lt (h : c ∈ (ofFacts facts).children p) :
    firstMention facts p c < facts.length := by
  obtain ⟨fact, hfact, hname, hparent⟩ := mem_children_ofFacts.mp h
  exact List.findIdx_lt_length.mpr ⟨fact, hfact, by simp [hname, hparent]⟩

/-- A further fact does not change where a child was first mentioned. -/
theorem firstMention_snoc (fact : Fact) (h : c ∈ (ofFacts facts).children p) :
    firstMention (facts ++ [fact]) p c = firstMention facts p c := by
  rw [firstMention, List.findIdx_append]
  exact if_pos (firstMention_lt h)

/-- What is not yet a child is first mentioned later. -/
theorem length_le_firstMention (fact : Fact) (h : c ∉ (ofFacts facts).children p) :
    facts.length ≤ firstMention (facts ++ [fact]) p c := by
  have hnone : ¬ facts.findIdx (fun fact => fact.className = c ∧ p ∈ fact.parents) <
      facts.length := by
    rw [List.findIdx_lt_length]
    rintro ⟨f, hf, hmention⟩
    exact h (mem_children_ofFacts.mpr ⟨f, hf, of_decide_eq_true hmention⟩)
  rw [firstMention, List.findIdx_append, if_neg hnone]
  exact Nat.le_add_left _ _

/-- Children come in the order in which they are first mentioned. -/
theorem children_ordered (facts : List Fact) (p : String) :
    ((ofFacts facts).children p).Pairwise fun c d =>
      firstMention facts p c < firstMention facts p d := by
  induction facts using List.reverseRecOn with
  | nil => exact .nil
  | append_singleton facts fact ih =>
    have hold : ((ofFacts facts).children p).Pairwise fun c d =>
        firstMention (facts ++ [fact]) p c < firstMention (facts ++ [fact]) p d := by
      refine ih.imp_of_mem fun hc hd hlt => ?_
      rwa [firstMention_snoc fact hc, firstMention_snoc fact hd]
    rw [ofFacts_snoc, children_addFact]
    split
    · unfold addOnce
      split
      · exact hold
      · next hnew =>
        -- the class of the last fact is mentioned for the first time
        rw [List.contains_iff_mem] at hnew
        refine List.pairwise_append.mpr ⟨hold, List.pairwise_singleton _ _, fun x hx d hd => ?_⟩
        rw [List.mem_singleton] at hd
        subst hd
        rw [firstMention_snoc fact hx]
        exact Nat.lt_of_lt_of_le (firstMention_lt hx) (length_le_firstMention fact hnew)
    · exact hold

/-! ## Facts in another order -/

theorem has_eq_of_perm (h : facts'.Perm facts) (c : String) :
    (ofFacts facts').has c = (ofFacts facts).has c := by
  rw [Bool.eq_iff_iff, has_ofFacts, has_ofFacts]
  simp only [h.mem_iff]

theorem size_eq_of_perm (h : facts'.Perm facts) : (ofFacts facts').size = (ofFacts facts).size := by
  rw [size_ofFacts, size_ofFacts, List.toFinset_eq_of_perm _ _ (h.map _)]

theorem children_perm (h : facts'.Perm facts) (p : String) :
    ((ofFacts facts').children p).Perm ((ofFacts facts).children p) := by
  rw [List.perm_ext_iff_of_nodup (children_ofFacts_nodup _ p) (children_ofFacts_nodup _ p)]
  intro c
  rw [mem_children_ofFacts, mem_children_ofFacts]
  simp only [h.mem_iff]

theorem parents_eq_of_factsFor (h : factsFor c facts' = factsFor c facts) :
    (ofFacts facts').parents c = (ofFacts facts).parents c := by
  rw [parents_eq_last, parents_eq_last, h]

/-- **The tables of a graph and its facts.** The parents of a class are those of its last fact, it is
declared if it has one, and the size counts the names of facts. The children of a class are the
classes with a fact that names it, in the order of the first such facts and without repetition. A
class is a child of each of its parents, and the converse holds if no name is declared twice. In
another order the facts give the same declared classes, the same size and the same children, and if
those of each class keep their order, the same parents and depths. -/
theorem tables_answer_for_facts (facts : List Fact) :
    (∀ c, (ofFacts facts).parents c =
        ((factsFor c facts).getLast?.map Fact.parents).getD [] ∧
      ((ofFacts facts).has c = true ↔ ∃ fact ∈ facts, fact.className = c)) ∧
    (ofFacts facts).size = (facts.map Fact.className).toFinset.card ∧
    (∀ p, ((ofFacts facts).children p).Nodup ∧
      (∀ c, c ∈ (ofFacts facts).children p ↔
        ∃ fact ∈ facts, fact.className = c ∧ p ∈ fact.parents) ∧
      ((ofFacts facts).children p).Pairwise (fun c d =>
        firstMention facts p c < firstMention facts p d) ∧
      (ofFacts facts).childCount p = ((ofFacts facts).children p).length) ∧
    (∀ c p, p ∈ (ofFacts facts).parents c → c ∈ (ofFacts facts).children p) ∧
    ((facts.map Fact.className).Nodup →
      ∀ c p, c ∈ (ofFacts facts).children p → p ∈ (ofFacts facts).parents c) ∧
    ∀ facts' : List Fact, facts'.Perm facts →
      (∀ c, (ofFacts facts').has c = (ofFacts facts).has c) ∧
      (ofFacts facts').size = (ofFacts facts).size ∧
      (∀ p, (ofFacts facts').childCount p = (ofFacts facts).childCount p ∧
        ((ofFacts facts').children p).Perm ((ofFacts facts).children p)) ∧
      ((∀ c, factsFor c facts' = factsFor c facts) →
        ∀ c, (ofFacts facts').parents c = (ofFacts facts).parents c ∧
          (ofFacts facts').depth c = (ofFacts facts).depth c) := by
  refine ⟨fun c => ⟨parents_eq_last facts c, has_ofFacts⟩, size_ofFacts facts, fun p => ?_,
    fun c p hp => mem_children_ofFacts.mpr (exists_fact_of_mem_parents hp), fun hd c p hc => ?_,
    fun facts' h => ⟨has_eq_of_perm h, size_eq_of_perm h, fun p => ?_, fun hsame c => ?_⟩⟩
  · exact ⟨children_ofFacts_nodup facts p, fun c => mem_children_ofFacts, children_ordered facts p,
      rfl⟩
  · obtain ⟨fact, hfact, rfl, hp⟩ := mem_children_ofFacts.mp hc
    rwa [parents_of_mem hd hfact]
  · exact ⟨(children_perm h p).length_eq, children_perm h p⟩
  · have hparents : ∀ a, (ofFacts facts').parents a = (ofFacts facts).parents a :=
      fun a => parents_eq_of_factsFor (hsame a)
    exact ⟨hparents c, depth_congr fun a _ => hparents a⟩

namespace Sample

/-- A dog that is declared as an animal. -/
def dog : Fact := ⟨"Dog", ["Animal"], "/p/dog.py"⟩

/-- The same class declared as a pet. -/
def petDog : Fact := ⟨"Dog", ["Pet"], "/p/pets.py"⟩

/-- A cat that names its parent twice. -/
def cat : Fact := ⟨"Cat", ["Animal", "Animal"], "/p/cat.py"⟩

theorem cat_first_perm : [cat, dog, petDog].Perm [dog, petDog, cat] := by decide

theorem cat_first_factsFor (c : String) :
    factsFor c [cat, dog, petDog] = factsFor c [dog, petDog, cat] := by
  by_cases hdog : "Dog" = c
  · subst hdog
    decide
  · simp [factsFor, List.filter_cons, dog, petDog, hdog]

end Sample

/-- With the cat first, the dog has the parents of its last fact as before, and the animal the same
two children. Of two facts that declare different classes the tables agree both ways. -/
theorem tables_answer_for_facts_pets :
    [Sample.cat, Sample.dog, Sample.petDog].Perm [Sample.dog, Sample.petDog, Sample.cat] ∧
      (∀ c, factsFor c [Sample.cat, Sample.dog, Sample.petDog] =
        factsFor c [Sample.dog, Sample.petDog, Sample.cat]) ∧
      (ofFacts [Sample.cat, Sample.dog, Sample.petDog]).parents "Dog" = ["Pet"] ∧
      (ofFacts [Sample.cat, Sample.dog, Sample.petDog]).depth "Dog" = 1 ∧
      (ofFacts [Sample.cat, Sample.dog, Sample.petDog]).childCount "Animal" = 2 ∧
      ([Sample.dog, Sample.cat].map Fact.className).Nodup ∧
      "Animal" ∈ (ofFacts [Sample.dog, Sample.cat]).parents "Cat" := by
  obtain ⟨-, -, -, -, -, hreorder⟩ :=
    tables_answer_for_facts [Sample.dog, Sample.petDog, Sample.cat]
  obtain ⟨-, -, hchildren, hkeep⟩ := hreorder _ Sample.cat_first_perm
  obtain ⟨hparents, hdepth⟩ := hkeep Sample.cat_first_factsFor "Dog"
  obtain ⟨-, -, -, -, hback, -⟩ := tables_answer_for_facts [Sample.dog, Sample.cat]
  have hdistinct : ([Sample.dog, Sample.cat].map Fact.className).Nodup := by decide
  refine ⟨Sample.cat_first_perm, Sample.cat_first_factsFor, ?_, ?_, ?_, hdistinct, ?_⟩
  · rw [hparents]
    decide +kernel
  · rw [hdepth]
    decide +kernel
  · rw [(hchildren "Animal").1]
    decide +kernel
  · exact hback hdistinct "Cat" "Animal" (by decide +kernel)

end ClassCohesion.Inheritance.Graph
