import Mathlib.Data.List.Chain
import Mathlib.Order.Bounds.Defs
import ClassCohesion.Proofs.Ancestry

/-!
# Depth is the longest way up to a root

An ascent leads from a class along recorded parents, without repeating a class, to the first
root-like class on its way. The depth of a class is the length of its longest ascent, whatever
cycles the graph has.

`Climb` is the same notion in the shape of the search, with the chain below the class at hand:
`branch_finds` says that the search finds the longest climb, `climb_nil_iff` that climbs from an
empty chain are ascents.
-/

namespace ClassCohesion.Inheritance.Graph

variable {g : Graph} {path : List String} {name : String}

/-- The way up from `c` over the classes of `below` to `top`: each is a parent of the one before, no
class is repeated, and `top` is the first root-like class. -/
structure Ascent (g : Graph) (c : String) (below : List String) (top : String) : Prop where
  starts : (below ++ [top]).head? = some c
  linked : (below ++ [top]).IsChain g.IsParent
  nodup : (below ++ [top]).Nodup
  ends : g.RootLike top
  first : ∀ x ∈ below, ¬ g.RootLike x

/-- A way up of the given length that keeps off the chain. -/
inductive Climb (g : Graph) : List String → String → Nat → Prop where
  | top {path : List String} {name : String} (hp : name ∉ path) (hr : g.RootLike name) :
      Climb g path name 0
  | up {path : List String} {name p : String} {k : Nat} (hp : name ∉ path)
      (hr : ¬ g.RootLike name) (hpar : p ∈ g.parents name) (h : Climb g (name :: path) p k) :
      Climb g path name (k + 1)

/-! ## Climbs and ascents -/

theorem Climb.ascent {k : Nat} (h : g.Climb path name k) :
    ∃ below top, g.Ascent name below top ∧ below.length = k ∧
      ∀ x ∈ below ++ [top], x ∉ path := by
  induction h with
  | @top path name hp hr =>
    refine ⟨[], name, ⟨rfl, .singleton _, by simp, hr, by simp⟩, rfl, ?_⟩
    intro x hx
    rw [List.nil_append, List.mem_singleton] at hx
    exact hx ▸ hp
  | @up path name p k hp hr hpar _ ih =>
    obtain ⟨below, top, ha, hk, hoff⟩ := ih
    refine ⟨name :: below, top, ⟨rfl, ?_, ?_, ha.ends, ?_⟩, by rw [List.length_cons, hk], ?_⟩
    · rw [List.cons_append, List.isChain_cons]
      refine ⟨fun y hy => ?_, ha.linked⟩
      rw [ha.starts] at hy
      cases hy
      exact hpar
    · rw [List.cons_append, List.nodup_cons]
      exact ⟨fun hm => hoff name hm List.mem_cons_self, ha.nodup⟩
    · intro x hx
      rcases List.mem_cons.mp hx with rfl | hx
      · exact hr
      · exact ha.first x hx
    · intro x hx
      rcases List.mem_cons.mp hx with rfl | hx
      · exact hp
      · exact fun hm => hoff x hx (List.mem_cons_of_mem _ hm)

theorem Ascent.climb {below : List String} {top : String} (h : g.Ascent name below top)
    (hoff : ∀ x ∈ below ++ [top], x ∉ path) : g.Climb path name below.length := by
  induction below generalizing path name with
  | nil =>
    have htop : top = name := Option.some.inj h.starts
    rw [htop] at hoff
    exact .top (hoff name List.mem_cons_self) (htop ▸ h.ends)
  | cons b below ih =>
    have hb : b = name := Option.some.inj h.starts
    subst hb
    have hlinked := h.linked
    have hnodup := h.nodup
    rw [List.cons_append, List.isChain_cons] at hlinked
    rw [List.cons_append, List.nodup_cons] at hnodup
    obtain ⟨p, hp⟩ : ∃ p, (below ++ [top]).head? = some p := by
      cases below with
      | nil => exact ⟨top, rfl⟩
      | cons b' _ => exact ⟨b', rfl⟩
    refine .up (hoff b List.mem_cons_self) (h.first b List.mem_cons_self)
      (hlinked.1 p hp) (ih ⟨hp, hlinked.2, hnodup.2, h.ends, ?_⟩ ?_)
    · exact fun x hx => h.first x (List.mem_cons_of_mem _ hx)
    · intro x hx hm
      rcases List.mem_cons.mp hm with rfl | hm
      · exact hnodup.1 hx
      · exact hoff x (List.mem_cons_of_mem _ hx) hm

/-- A class of the way up is declared, so no way is longer than the number of declared classes
that are off the chain. -/
theorem Climb.le_offPath {k : Nat} (h : g.Climb path name k) : k ≤ g.offPath path := by
  induction h with
  | top => exact Nat.zero_le _
  | up hp _ hpar _ ih =>
    have hlt := offPath_cons_lt (List.ne_nil_of_mem hpar) hp
    omega

theorem Climb.eq_zero {k : Nat} (h : g.Climb path name k) (hr : g.RootLike name) : k = 0 := by
  cases h with
  | top => rfl
  | up _ hnr => exact absurd hr hnr

theorem Climb.via_parent {k : Nat} (h : g.Climb path name k) (hr : ¬ g.RootLike name) :
    ∃ p ∈ g.parents name, ∃ j, g.Climb (name :: path) p j ∧ k = j + 1 := by
  cases h with
  | top _ hr' => exact absurd hr' hr
  | up _ _ hpar hj => exact ⟨_, hpar, _, hj, rfl⟩

/-! ## The search finds the longest climb -/

/-- What the search says about climbs, below a chain without root-like classes: a depth is the
length of the longest one, and where a branch closes there is none. -/
def Finds (g : Graph) (path : List String) (name : String) : Branch → Prop
  | .depth n => IsGreatest {k | g.Climb path name k} n
  | .closes _ => ∀ k, ¬ g.Climb path name k

/-- A root-like class off a chain without root-like classes does not reach the chain. -/
theorem not_reaches_of_rootLike (hpath : ∀ x ∈ path, ¬ g.RootLike x) (hr : g.RootLike name) :
    ∀ x ∈ path, ¬ g.Reaches name x := by
  intro x hx hw
  exact hpath x hx (hr.of_reaches hw)

theorem branch_finds (g : Graph) (path : List String) (name : String) :
    (∀ x ∈ path, ¬ g.RootLike x) → g.Finds path name (g.branch path name) := by
  induction path, name using branch_induction g with
  | on path name hp =>
    intro _
    rw [branch_of_mem hp]
    intro k hk
    cases hk with
    | top hnp => exact hnp hp
    | up hnp => exact hnp hp
  | off path name hp ih =>
    intro hpath
    -- below a root-like class the chain would hold one, so the parents are searched only otherwise
    by_cases hr : g.RootLike name
    · rw [depth_zero_of_rootLike hp hr (not_reaches_of_rootLike hpath hr)]
      exact ⟨.top hp hr, fun k hk => (hk.eq_zero hr).le⟩
    · have hpath' : ∀ x ∈ name :: path, ¬ g.RootLike x := by
        intro x hx
        rcases List.mem_cons.mp hx with rfl | hx
        · exact hr
        · exact hpath x hx
      have ho := branch_outcome (g := g) hp
      cases hb : g.branch path name with
      | depth n =>
        rw [hb] at ho
        cases ho with
        | @rises p m hpar hm hmax =>
          have hfind := ih p hpar hpath'
          rw [hm] at hfind
          refine ⟨.up hp hr hpar hfind.1, fun k hk => ?_⟩
          obtain ⟨q, hq, j, hj, rfl⟩ := hk.via_parent hr
          have hfind' := ih q hq hpath'
          cases hbq : g.branch (name :: path) q with
          | depth i =>
            rw [hbq] at hfind'
            exact Nat.succ_le_succ ((hfind'.2 hj).trans (hmax q hq i hbq))
          | closes _ =>
            rw [hbq] at hfind'
            exact absurd hj (hfind' j)
        | roots => exact absurd (rootLike_of_depth_zero hp hb).1 hr
      | closes names =>
        rw [hb] at ho
        cases ho with
        | closes hall _ _ =>
          intro k hk
          obtain ⟨q, hq, j, hj, -⟩ := hk.via_parent hr
          have hfind := ih q hq hpath'
          obtain ⟨ns, hns⟩ := hall q hq
          rw [hns] at hfind
          exact hfind j hj

/-! ## Depth -/

/-- With nothing on the chain, no branch closes. -/
theorem branch_nil_eq_depth (g : Graph) (name : String) :
    g.branch [] name = .depth (g.depth name) := by
  unfold depth
  cases hb : g.branch [] name with
  | depth n => rfl
  | closes names =>
    obtain ⟨x, hx, -⟩ := (trapped_of_closes g [] name names hb).1 name .refl
    exact absurd hx List.not_mem_nil

/-- The search looks only at the parents of what lies above the class. -/
theorem branch_congr {g' : Graph} (h : ∀ a, g.Reaches name a → g'.parents a = g.parents a) :
    g'.branch path name = g.branch path name := by
  induction path, name using branch_induction g with
  | on path name hp => rw [branch_of_mem hp, branch_of_mem hp]
  | off path name hp ih =>
    have hparents : g'.parents name = g.parents name := h name .refl
    have hbranches : (g'.parents name).map (g'.branch (name :: path)) =
        (g.parents name).map (g.branch (name :: path)) := by
      rw [hparents]
      refine List.map_congr_left fun p hpar => ih p hpar fun a ha => h a ?_
      exact Relation.ReflTransGen.head hpar ha
    rw [branch, dif_neg hp, branch.eq_def g, dif_neg hp, hbranches]
    simp only [hparents]

theorem depth_congr {g' : Graph} (h : ∀ a, g.Reaches name a → g'.parents a = g.parents a) :
    g'.depth name = g.depth name := by
  rw [depth, depth, branch_congr h]

theorem depth_isGreatest_climb (g : Graph) (name : String) :
    IsGreatest {k | g.Climb [] name k} (g.depth name) := by
  have h := branch_finds g [] name (fun x hx => absurd hx List.not_mem_nil)
  rw [branch_nil_eq_depth] at h
  exact h

theorem climb_nil_iff {k : Nat} :
    g.Climb [] name k ↔ ∃ below top, g.Ascent name below top ∧ below.length = k := by
  constructor
  · intro h
    obtain ⟨below, top, ha, hk, -⟩ := h.ascent
    exact ⟨below, top, ha, hk⟩
  · rintro ⟨below, top, ha, rfl⟩
    exact ha.climb fun x _ => List.not_mem_nil

theorem depth_eq_zero_iff (g : Graph) (name : String) : g.depth name = 0 ↔ g.RootLike name := by
  constructor
  · intro h
    have hb := branch_nil_eq_depth g name
    rw [h] at hb
    exact (rootLike_of_depth_zero List.not_mem_nil hb).1
  · intro hr
    exact (depth_isGreatest_climb g name).1.eq_zero hr

theorem depth_le_size (g : Graph) (name : String) : g.depth name ≤ g.size := by
  have hle := (depth_isGreatest_climb g name).1.le_offPath
  have hcount : g.offPath [] ≤ g.declared.length := List.countP_le_length
  have hlen : g.declared.length = g.size := List.length_map _
  omega

/-- **Depth.** In the graph of any facts, with whatever cycles and undeclared parents, the depth of
a class is the length of its longest ascent; it is zero exactly at the root-like classes, and never
more than the number of declared classes. -/
theorem depth_isGreatest_ascent (facts : List Fact) (c : String) :
    IsGreatest {k | ∃ below top, (ofFacts facts).Ascent c below top ∧ below.length = k}
        ((ofFacts facts).depth c) ∧
      ((ofFacts facts).depth c = 0 ↔ (ofFacts facts).RootLike c) ∧
      (ofFacts facts).depth c ≤ (ofFacts facts).size := by
  refine ⟨?_, depth_eq_zero_iff _ c, depth_le_size _ c⟩
  have h := depth_isGreatest_climb (ofFacts facts) c
  simp only [climb_nil_iff] at h
  exact h

end ClassCohesion.Inheritance.Graph
