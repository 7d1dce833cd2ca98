import ClassCohesion.Proofs.Depth
import ClassCohesion.Proofs.GraphFacts

/-!
# Depths that can be remembered

The search for a depth carries the chain of classes below the one at hand, and what a class comes to
depends on the chain as far as it can be reached from the class. On the way to a class that is on no
cycle everything on the chain has the class above it, so nothing on the chain can be reached. Such a
class comes to its own depth in every search.

- `branch_congr_path`: chains that agree on what lies above a class give it the same branch.
- `OnNoCycle.branch_eq`: a class on no cycle comes to its depth in every search that arrives at it.
- `OnNoCycle.depth_eq`: its depth is one more than the greatest depth of its parents.
- `askAll_eq`: so depths of such classes may be kept from one question to the next.
-/

namespace ClassCohesion.Inheritance.Graph

variable {g : Graph} {path path' : List String} {name c : String} {memo : Table Nat}

/-! ## What the chain can change -/

theorem branch_congr_path (h : ∀ x, g.Reaches name x → (x ∈ path ↔ x ∈ path')) :
    g.branch path name = g.branch path' name := by
  induction path, name using branch_induction g generalizing path' with
  | on path name hp => rw [branch_of_mem hp, branch_of_mem ((h name .refl).mp hp)]
  | off path name hp ih =>
    have hp' : name ∉ path' := fun hm => hp ((h name .refl).mpr hm)
    have hbranches : (g.parents name).map (g.branch (name :: path)) =
        (g.parents name).map (g.branch (name :: path')) := by
      refine List.map_congr_left fun p hpar => ih p hpar fun x hx => ?_
      rw [List.mem_cons, List.mem_cons, h x (.head hpar hx)]
    rw [branch, dif_neg hp, branch, dif_neg hp', hbranches]

/-- A class comes to its depth if nothing on the chain lies above it. -/
theorem branch_eq_depth (h : ∀ x ∈ path, ¬ g.Reaches name x) :
    g.branch path name = .depth (g.depth name) := by
  have hnone : ∀ x, g.Reaches name x → (x ∈ path ↔ x ∈ []) := by
    intro x hx
    exact ⟨fun hm => absurd hx (h x hm), fun hm => absurd hm List.not_mem_nil⟩
  rw [branch_congr_path hnone, branch_nil_eq_depth]

/-! ## Classes on no cycle -/

/-- No walk along recorded parents leads from a parent of the class back to it. -/
def OnNoCycle (g : Graph) (c : String) : Prop := ∀ p ∈ g.parents c, ¬ g.Reaches p c

/-- A search that arrives at a class on no cycle finds its depth. -/
theorem OnNoCycle.branch_eq (h : g.OnNoCycle c) (hp : c ∉ path) (hpath : ∀ x ∈ path, g.Reaches x c) :
    g.branch path c = .depth (g.depth c) := by
  refine branch_eq_depth fun x hx hreach => ?_
  -- the way from the class up to `x` and on along the chain would be a cycle
  rcases hreach.cases_head with rfl | ⟨p, hpar, hpx⟩
  · exact hp hx
  · exact h p hpar (hpx.trans (hpath x hx))

/-- **One step up.** The depth of a class on no cycle is one more than the greatest depth of its
parents. -/
theorem OnNoCycle.depth_eq (h : g.OnNoCycle c) (hne : g.parents c ≠ []) :
    ∃ m, ((g.parents c).map g.depth).max? = some m ∧ g.depth c = 1 + m := by
  have hparents : ∀ p ∈ g.parents c, g.branch [c] p = .depth (g.depth p) := by
    intro p hpar
    refine branch_eq_depth fun x hx => ?_
    rw [List.mem_singleton.mp hx]
    exact h p hpar
  have ho : Outcome g [] c (g.branch [] c) := branch_outcome List.not_mem_nil
  rw [branch_nil_eq_depth] at ho
  generalize g.depth c = d at ho ⊢
  cases ho with
  | @rises p m hpar hm hmax =>
    refine ⟨m, List.max?_eq_some_iff.mpr ⟨?_, ?_⟩, Nat.add_comm m 1⟩
    · rw [hparents p hpar] at hm
      exact List.mem_map.mpr ⟨p, hpar, Branch.depth.inj hm⟩
    · intro k hk
      obtain ⟨q, hq, rfl⟩ := List.mem_map.mp hk
      exact hmax q hq _ (hparents q hq)
  | roots hall =>
    obtain ⟨p, hpar⟩ := List.exists_mem_of_ne_nil _ hne
    obtain ⟨ns, hns⟩ := hall p hpar
    rw [hparents p hpar] at hns
    cases hns

/-! ## Remembered depths -/

/-- The search that takes what it can from a table of depths. -/
def recallBranch (g : Graph) (memo : Table Nat) (path : List String) (name : String) : Branch :=
  if _hp : name ∈ path then .closes [name]
  else match memo.get? name with
    | some d => .depth d
    | none =>
      if _hn : g.parents name = [] then .depth 0
      else combine name ((g.parents name).map (recallBranch g memo (name :: path)))
termination_by g.offPath path
decreasing_by exact offPath_cons_lt (by assumption) (by assumption)

/-- The depth of a class, with the help of a table of depths. -/
def recallDepth (g : Graph) (memo : Table Nat) (name : String) : Nat :=
  match g.recallBranch memo [] name with
  | .depth n => n
  | .closes _ => 0

/-- The depths of classes that are asked for one after the other. Those of the classes that `keep`
chooses are put in the table. -/
def askAll (g : Graph) (keep : String → Bool) (memo : Table Nat) : List String → List Nat
  | [] => []
  | name :: rest =>
    let d := g.recallDepth memo name
    d :: askAll g keep (if keep name then memo.put name d else memo) rest

/-- A table that has depths of classes on no cycle. -/
def Remembers (g : Graph) (memo : Table Nat) : Prop :=
  ∀ c d, memo.get? c = some d → g.OnNoCycle c ∧ d = g.depth c

theorem remembers_nil (g : Graph) : g.Remembers [] := fun _ _ h => nomatch h

theorem Remembers.put (h : g.Remembers memo) (hc : g.OnNoCycle c) :
    g.Remembers (memo.put c (g.depth c)) := by
  intro a d ha
  rw [Table.get?_put] at ha
  split at ha
  · next hac =>
    subst hac
    exact ⟨hc, (Option.some.inj ha).symm⟩
  · exact h a d ha

theorem Remembers.recallBranch_eq (h : g.Remembers memo) :
    ∀ path name, (∀ x ∈ path, g.Reaches x name) →
      g.recallBranch memo path name = g.branch path name := by
  intro path name
  induction path, name using branch_induction g with
  | on path name hp =>
    intro _
    rw [branch_of_mem hp, recallBranch, dif_pos hp]
  | off path name hp ih =>
    intro hpath
    rw [recallBranch, dif_neg hp]
    cases hmemo : memo.get? name with
    | some d =>
      obtain ⟨hcycle, rfl⟩ := h name d hmemo
      exact (hcycle.branch_eq hp hpath).symm
    | none =>
      have hbranches : (g.parents name).map (g.recallBranch memo (name :: path)) =
          (g.parents name).map (g.branch (name :: path)) := by
        refine List.map_congr_left fun p hpar => ih p hpar fun x hx => ?_
        rcases List.mem_cons.mp hx with rfl | hx
        · exact .single hpar
        · exact (hpath x hx).tail hpar
      dsimp only
      rw [branch, dif_neg hp, hbranches]

theorem Remembers.recallDepth_eq (h : g.Remembers memo) (name : String) :
    g.recallDepth memo name = g.depth name := by
  have hbranch : g.recallBranch memo [] name = .depth (g.depth name) := by
    rw [h.recallBranch_eq [] name fun x hx => absurd hx List.not_mem_nil, branch_nil_eq_depth]
  rw [recallDepth, hbranch]

/-- **Depths of classes on no cycle may be kept.** -/
theorem askAll_eq {keep : String → Bool} (hkeep : ∀ c, keep c = true → g.OnNoCycle c)
    (h : g.Remembers memo) (names : List String) : g.askAll keep memo names = names.map g.depth := by
  induction names generalizing memo with
  | nil => rfl
  | cons name rest ih =>
    rw [askAll, h.recallDepth_eq, List.map_cons]
    congr 1
    split
    · next hk => exact ih (h.put (hkeep name hk))
    · exact ih h

/-- **Depths, class by class.** In the graph of any facts, the depth of a class that has parents and
is on no cycle, whatever cycles there are above it, is one more than the greatest of the depths of
its parents. So the depths of classes on no cycle may be kept from one question to the next: every
answer stays what it is. -/
theorem depths_class_by_class (facts : List Fact) :
    (∀ c, (ofFacts facts).parents c ≠ [] → (ofFacts facts).OnNoCycle c →
      ∃ m, (((ofFacts facts).parents c).map (ofFacts facts).depth).max? = some m ∧
        (ofFacts facts).depth c = 1 + m) ∧
    ∀ keep : String → Bool, (∀ c, keep c = true → (ofFacts facts).OnNoCycle c) →
      ∀ names, (ofFacts facts).askAll keep [] names = names.map (ofFacts facts).depth := by
  refine ⟨fun c hne hcycle => hcycle.depth_eq hne, fun keep hkeep names => ?_⟩
  exact askAll_eq hkeep (remembers_nil _) names

/-- A class is on no cycle if its parents are among classes that have all their parents among them,
and it is not. -/
theorem onNoCycle_of_closed (names : List String)
    (hclosed : ∀ a ∈ names, ∀ p ∈ g.parents a, p ∈ names) (hparents : ∀ p ∈ g.parents c, p ∈ names)
    (hc : c ∉ names) : g.OnNoCycle c := by
  intro p hpar hreach
  have hmem : ∀ b, g.Reaches p b → b ∈ names := by
    intro b hb
    induction hb with
    | refl => exact hparents p hpar
    | tail _ hstep ih => exact hclosed _ ih _ hstep
  exact hc (hmem c hreach)

namespace Sample

/-- Two classes that name each other as parents, one below them, and one below that. -/
def tangle : List Fact :=
  [⟨"A", ["B"], "/p/a.py"⟩, ⟨"B", ["A"], "/p/b.py"⟩, ⟨"C", ["A"], "/p/c.py"⟩,
    ⟨"D", ["B", "C"], "/p/d.py"⟩]

/-- The classes below the cycle. -/
def belowCycle (c : String) : Bool := c == "C" || c == "D"

theorem belowCycle_onNoCycle (c : String) (h : belowCycle c = true) :
    (ofFacts tangle).OnNoCycle c := by
  obtain rfl | rfl : c = "C" ∨ c = "D" := by simpa [belowCycle] using h
  · exact onNoCycle_of_closed ["A", "B"] (by decide +kernel) (by decide +kernel) (by decide)
  · exact onNoCycle_of_closed ["A", "B", "C"] (by decide +kernel) (by decide +kernel) (by decide)

end Sample

/-- The last class is one step above the deeper of its parents, and asking for it twice with others
in between gives the same depths with a table as without. -/
theorem depths_class_by_class_tangle :
    (ofFacts Sample.tangle).parents "D" ≠ [] ∧ (ofFacts Sample.tangle).OnNoCycle "D" ∧
      (ofFacts Sample.tangle).depth "D" = 1 + 1 ∧
      (∀ c, Sample.belowCycle c = true → (ofFacts Sample.tangle).OnNoCycle c) ∧
      (ofFacts Sample.tangle).askAll Sample.belowCycle [] ["C", "D", "A", "D"] = [1, 2, 0, 2] := by
  have hne : (ofFacts Sample.tangle).parents "D" ≠ [] := by decide +kernel
  have hcycle : (ofFacts Sample.tangle).OnNoCycle "D" := Sample.belowCycle_onNoCycle "D" rfl
  have hgreatest : (((ofFacts Sample.tangle).parents "D").map
      (ofFacts Sample.tangle).depth).max? = some 1 := by
    decide +kernel
  obtain ⟨hstep, hkeep⟩ := depths_class_by_class Sample.tangle
  obtain ⟨m, hm, hdepth⟩ := hstep "D" hne hcycle
  rw [hgreatest] at hm
  cases hm
  refine ⟨hne, hcycle, hdepth, Sample.belowCycle_onNoCycle, ?_⟩
  rw [hkeep Sample.belowCycle Sample.belowCycle_onNoCycle]
  decide +kernel

end ClassCohesion.Inheritance.Graph
