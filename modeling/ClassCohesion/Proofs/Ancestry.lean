import Mathlib.Logic.Relation
import Mathlib.Data.List.Basic
import ClassCohesion.Inheritance.Graph

/-!
# Ancestry: walks along parents and the branches that close

Reachability along recorded parents, and what a branch of the depth search that closes says about
it. The search below a chain only leaves classes that are not on the chain, so the walks that matter
are those of `Off`: every step starts off the chain.

- `Outcome`: the three ways in which the search settles a class off the chain.
- `trapped_of_closes`, `closes_of_trapped`: a branch closes exactly if everything it leads to leads
  back to the chain, and it does so at the classes of the chain that it leads to.
- `rootLike_of_depth_zero`, `depth_zero_of_rootLike`: a branch has depth zero exactly at a root-like
  class from which the chain is out of reach.
-/

namespace ClassCohesion.Inheritance.Graph

open Relation (ReflTransGen)

variable {g : Graph} {path : List String} {name : String}

/-- `p` is recorded as a parent of `c`. -/
def IsParent (g : Graph) (c p : String) : Prop := p ∈ g.parents c

/-- `a` lies above `c`, or is `c`: a walk along recorded parents leads from `c` to `a`. -/
def Reaches (g : Graph) : String → String → Prop := ReflTransGen g.IsParent

/-- Every class above `c` has `c` above it in turn. -/
def RootLike (g : Graph) (c : String) : Prop := ∀ a, g.Reaches c a → g.Reaches a c

/-- A step to a parent from a class that is not on the chain. -/
def OffStep (g : Graph) (path : List String) (a b : String) : Prop := a ∉ path ∧ g.IsParent a b

/-- A walk that leaves only classes that are not on the chain. -/
def Off (g : Graph) (path : List String) : String → String → Prop := ReflTransGen (g.OffStep path)

/-! ## Root-like classes -/

theorem rootLike_of_parents_eq_nil (h : g.parents name = []) : g.RootLike name := by
  intro a ha
  rcases ha.cases_head with rfl | ⟨p, hp, -⟩
  · exact .refl
  · rw [IsParent, h] at hp
    exact absurd hp List.not_mem_nil

/-- What lies above a root-like class is root-like. -/
theorem RootLike.of_reaches {a : String} (h : g.RootLike name) (ha : g.Reaches name a) :
    g.RootLike a := by
  intro b hb
  exact (h b (ha.trans hb)).trans ha

/-! ## Walks off the chain -/

theorem Off.reaches {a b : String} (h : g.Off path a b) : g.Reaches a b :=
  ReflTransGen.mono (fun _ _ hs => hs.2) a b h

theorem Off.of_cons {a b : String} (h : g.Off (name :: path) a b) : g.Off path a b :=
  ReflTransGen.mono (fun _ _ hs => ⟨fun hm => hs.1 (List.mem_cons_of_mem _ hm), hs.2⟩) a b h

/-- From a class of the chain no step leads away. -/
theorem Off.eq_of_mem {b : String} (hp : name ∈ path) (h : g.Off path name b) : name = b := by
  rcases h.cases_head with rfl | ⟨c, hc, -⟩
  · rfl
  · exact absurd hp hc.1

/-- A walk that ends elsewhere leaves its first class for the last time to one of its parents. -/
theorem Off.last_leave {x : String} (h : g.Off path name x) (hx : x ≠ name) :
    ∃ p ∈ g.parents name, g.Off (name :: path) p x := by
  induction h with
  | refl => exact absurd rfl hx
  | @tail y x _ hyx ih =>
    by_cases hy : y = name
    · subst hy
      exact ⟨x, hyx.2, .refl⟩
    · obtain ⟨p, hp, hw⟩ := ih hy
      refine ⟨p, hp, hw.tail ⟨?_, hyx.2⟩⟩
      rw [List.mem_cons, not_or]
      exact ⟨hy, hyx.1⟩

/-- A walk to the chain can be cut where it first meets the chain with one more class on it. -/
theorem Off.first_meet {a x : String} (h : g.Off path a x) (hx : x ∈ path) :
    ∃ y ∈ name :: path, g.Off (name :: path) a y := by
  induction h using ReflTransGen.head_induction_on with
  | refl => exact ⟨x, List.mem_cons_of_mem _ hx, .refl⟩
  | @head a b hab _ ih =>
    by_cases ha : a = name
    · exact ⟨a, by rw [ha]; exact List.mem_cons_self, .refl⟩
    · obtain ⟨y, hy, hw⟩ := ih
      refine ⟨y, hy, ReflTransGen.head ⟨?_, hab.2⟩ hw⟩
      rw [List.mem_cons, not_or]
      exact ⟨ha, hab.1⟩

/-- The chain seen from a class off it is the chain seen from its parents, less the class. -/
theorem off_mem_iff {x : String} (hn : name ∉ path) :
    (x ∈ path ∧ g.Off path name x) ↔
      x ≠ name ∧ ∃ p ∈ g.parents name, x ∈ name :: path ∧ g.Off (name :: path) p x := by
  constructor
  · rintro ⟨hx, hw⟩
    have hne : x ≠ name := fun e => hn (e ▸ hx)
    obtain ⟨p, hp, hw'⟩ := hw.last_leave hne
    exact ⟨hne, p, hp, List.mem_cons_of_mem _ hx, hw'⟩
  · rintro ⟨hne, p, hp, hx, hw⟩
    exact ⟨(List.mem_cons.mp hx).resolve_left hne, ReflTransGen.head ⟨hn, hp⟩ hw.of_cons⟩

/-! ## What a class comes to -/

theorem mem_above {bs : List Branch} {d : Nat} :
    d ∈ bs.filterMap Branch.above? ↔ ∃ k, .depth k ∈ bs ∧ k + 1 = d := by
  rw [List.mem_filterMap]
  constructor
  · rintro ⟨b, hb, hd⟩
    cases b with
    | depth k => exact ⟨k, hb, Option.some.inj hd⟩
    | closes _ => cases hd
  · rintro ⟨k, hk, rfl⟩
    exact ⟨_, hk, rfl⟩

theorem mem_closing {bs : List Branch} {x : String} :
    x ∈ bs.flatMap Branch.closing ↔ ∃ ns, .closes ns ∈ bs ∧ x ∈ ns := by
  rw [List.mem_flatMap]
  constructor
  · rintro ⟨b, hb, hx⟩
    cases b with
    | depth _ => exact absurd hx List.not_mem_nil
    | closes ns => exact ⟨ns, hb, hx⟩
  · rintro ⟨ns, hns, hx⟩
    exact ⟨_, hns, hx⟩

/-- The three ways in which a class off the chain comes to a branch. -/
inductive Outcome (g : Graph) (path : List String) (name : String) : Branch → Prop where
  /-- Some parents have a depth, and the greatest of these counts. -/
  | rises {p : String} {m : Nat} (hpar : p ∈ g.parents name)
      (hp : g.branch (name :: path) p = .depth m)
      (hmax : ∀ q ∈ g.parents name, ∀ k, g.branch (name :: path) q = .depth k → k ≤ m) :
      Outcome g path name (.depth (m + 1))
  /-- All parents close, and none of them at another class. -/
  | roots (hall : ∀ p ∈ g.parents name, ∃ ns, g.branch (name :: path) p = .closes ns)
      (honly : ∀ p ∈ g.parents name, ∀ ns, g.branch (name :: path) p = .closes ns →
        ∀ x ∈ ns, x = name) :
      Outcome g path name (.depth 0)
  /-- All parents close, and some of them at other classes. -/
  | closes {names : List String}
      (hall : ∀ p ∈ g.parents name, ∃ ns, g.branch (name :: path) p = .closes ns)
      (hne : names ≠ [])
      (hmem : ∀ x, x ∈ names ↔ x ≠ name ∧
        ∃ p ∈ g.parents name, ∃ ns, g.branch (name :: path) p = .closes ns ∧ x ∈ ns) :
      Outcome g path name (.closes names)

theorem outcome_combine (g : Graph) (path : List String) (name : String) :
    Outcome g path name (combine name ((g.parents name).map (g.branch (name :: path)))) := by
  have mem_bs : ∀ b, b ∈ (g.parents name).map (g.branch (name :: path)) ↔
      ∃ p ∈ g.parents name, g.branch (name :: path) p = b := fun b => List.mem_map
  -- from here on only membership of the branches counts, not where they come from
  generalize (g.parents name).map (g.branch (name :: path)) = bs at mem_bs
  unfold combine
  cases hds : bs.filterMap Branch.above? with
  | cons d ds =>
    have hmax : (d :: ds).max? = some (ds.foldl max d) := List.max?_cons'
    obtain ⟨hd, hle⟩ := List.max?_eq_some_iff.mp hmax
    obtain ⟨m, hm, hmd⟩ := mem_above.mp (hds ▸ hd)
    obtain ⟨p, hpar, hp⟩ := (mem_bs _).mp hm
    show Outcome g path name (.depth (ds.foldl max d))
    rw [← hmd]
    refine .rises hpar hp fun q hq k hk => ?_
    have hk' : k + 1 ∈ d :: ds := hds ▸ mem_above.mpr ⟨k, (mem_bs _).mpr ⟨q, hq, hk⟩, rfl⟩
    have hkm := hle _ hk'
    omega
  | nil =>
    have hall : ∀ p ∈ g.parents name, ∃ ns, g.branch (name :: path) p = .closes ns := by
      intro p hpar
      cases hb : g.branch (name :: path) p with
      | closes ns => exact ⟨ns, rfl⟩
      | depth n =>
        have hn := mem_above.mpr ⟨n, (mem_bs _).mpr ⟨p, hpar, hb⟩, rfl⟩
        rw [hds] at hn
        exact absurd hn List.not_mem_nil
    have hmem : ∀ x, x ∈ (bs.flatMap Branch.closing).filter (· ≠ name) ↔ x ≠ name ∧
        ∃ p ∈ g.parents name, ∃ ns, g.branch (name :: path) p = .closes ns ∧ x ∈ ns := by
      intro x
      rw [List.mem_filter, mem_closing, decide_eq_true_eq, and_comm]
      refine and_congr_right fun _ => ⟨?_, ?_⟩
      · rintro ⟨ns, hns, hx⟩
        obtain ⟨p, hpar, hp⟩ := (mem_bs _).mp hns
        exact ⟨p, hpar, ns, hp, hx⟩
      · rintro ⟨p, hpar, ns, hp, hx⟩
        exact ⟨ns, (mem_bs _).mpr ⟨p, hpar, hp⟩, hx⟩
    cases hns : (bs.flatMap Branch.closing).filter (· ≠ name) with
    | nil =>
      refine .roots hall fun p hpar ns hp x hx => ?_
      by_contra hne
      have hx' := (hmem x).mpr ⟨hne, p, hpar, ns, hp, hx⟩
      rw [hns] at hx'
      exact List.not_mem_nil hx'
    | cons y ys => exact .closes hall (List.cons_ne_nil _ _) (hns ▸ hmem)

theorem branch_of_mem (hp : name ∈ path) : g.branch path name = .closes [name] := by
  rw [branch, dif_pos hp]

/-- What the search makes of a class off the chain. -/
theorem branch_outcome (hp : name ∉ path) : Outcome g path name (g.branch path name) := by
  rw [branch, dif_neg hp]
  split
  · rename_i hn
    refine .roots (fun p hpar => ?_) (fun p hpar => ?_) <;>
    · rw [hn] at hpar
      exact absurd hpar List.not_mem_nil
  · exact outcome_combine g path name

/-- Induction along the search: from the parents, with the class on the chain, to the class. -/
theorem branch_induction (g : Graph) {motive : List String → String → Prop}
    (on : ∀ path name, name ∈ path → motive path name)
    (off : ∀ path name, name ∉ path → (∀ p ∈ g.parents name, motive (name :: path) p) →
      motive path name)
    (path : List String) (name : String) : motive path name := by
  induction path, name using branch.induct g with
  | case1 path name hp => exact on path name hp
  | case2 path name hp hn =>
    refine off path name hp fun p hpar => ?_
    rw [hn] at hpar
    exact absurd hpar List.not_mem_nil
  | case3 path name hp hn ih => exact off path name hp fun p _ => ih p

/-! ## The branches that close -/

/-- Everything that a walk off the chain leads to leads back to the chain. -/
def Trapped (g : Graph) (path : List String) (name : String) : Prop :=
  ∀ a, g.Off path name a → ∃ x ∈ path, g.Off path a x

/-- The parents of a trapped class are trapped by the chain with the class on it. -/
theorem Trapped.parent {p : String} (h : g.Trapped path name) (hn : name ∉ path)
    (hp : p ∈ g.parents name) : g.Trapped (name :: path) p := by
  intro a ha
  obtain ⟨x, hx, hw⟩ := h a (ReflTransGen.head ⟨hn, hp⟩ ha.of_cons)
  exact hw.first_meet hx

/-- A class is trapped if its parents are and one of them sees the chain past the class. -/
theorem Trapped.of_parents {y : String} (hy : y ∈ path) (hyw : g.Off path name y)
    (h : ∀ p ∈ g.parents name, g.Trapped (name :: path) p) : g.Trapped path name := by
  intro a ha
  by_cases ha' : a = name
  · exact ⟨y, hy, ha' ▸ hyw⟩
  · obtain ⟨p, hpar, hw⟩ := ha.last_leave ha'
    obtain ⟨x, hx, hwx⟩ := h p hpar a hw
    rcases List.mem_cons.mp hx with rfl | hx
    · exact ⟨y, hy, hwx.of_cons.trans hyw⟩
    · exact ⟨x, hx, hwx.of_cons⟩

/-- A branch that closes is trapped, and closes at the part of the chain that it sees. -/
theorem trapped_of_closes (g : Graph) (path : List String) (name : String) :
    ∀ names, g.branch path name = .closes names →
      g.Trapped path name ∧ ∀ x, x ∈ names ↔ x ∈ path ∧ g.Off path name x := by
  induction path, name using branch_induction g with
  | on path name hp =>
    rw [branch_of_mem hp]
    rintro names ⟨rfl⟩
    refine ⟨fun a ha => ⟨name, hp, ?_⟩, fun x => ?_⟩
    · rw [← ha.eq_of_mem hp]
      exact .refl
    · rw [List.mem_singleton]
      constructor
      · rintro rfl
        exact ⟨hp, .refl⟩
      · rintro ⟨-, hw⟩
        exact (hw.eq_of_mem hp).symm
  | off path name hp ih =>
    intro names h
    have ho := branch_outcome (g := g) hp
    rw [h] at ho
    cases ho with
    | closes hall hne hmem =>
      have hnames : ∀ x, x ∈ names ↔ x ∈ path ∧ g.Off path name x := by
        intro x
        rw [hmem, off_mem_iff hp]
        refine and_congr_right fun _ => exists_congr fun p => and_congr_right fun hpar => ?_
        obtain ⟨ns, hns⟩ := hall p hpar
        rw [← (ih p hpar ns hns).2 x]
        constructor
        · rintro ⟨ns', hns', hx⟩
          rw [hns] at hns'
          cases hns'
          exact hx
        · exact fun hx => ⟨ns, hns, hx⟩
      -- a branch that closes has a class to close at, which is the way back for the class itself
      obtain ⟨y, hy⟩ := List.exists_mem_of_ne_nil names hne
      obtain ⟨hyp, hyw⟩ := (hnames y).mp hy
      refine ⟨.of_parents hyp hyw fun p hpar => ?_, hnames⟩
      obtain ⟨ns, hns⟩ := hall p hpar
      exact (ih p hpar ns hns).1

/-- A trapped branch closes. -/
theorem closes_of_trapped (g : Graph) (path : List String) (name : String) :
    g.Trapped path name → ∃ names, g.branch path name = .closes names := by
  induction path, name using branch_induction g with
  | on path name hp => exact fun _ => ⟨_, branch_of_mem hp⟩
  | off path name hp ih =>
    intro ht
    have ho := branch_outcome (g := g) hp
    generalize g.branch path name = b at ho ⊢
    cases ho with
    | @rises p m hpar hb _ =>
      obtain ⟨ns, hns⟩ := ih p hpar (ht.parent hp hpar)
      rw [hns] at hb
      cases hb
    | roots hall honly =>
      -- the class sees the chain, so one of its parents closes there
      obtain ⟨x, hx, hw⟩ := ht name .refl
      obtain ⟨hne, p, hpar, hsee⟩ := (off_mem_iff hp).mp ⟨hx, hw⟩
      obtain ⟨ns, hns⟩ := hall p hpar
      have hxn := ((trapped_of_closes g _ p ns hns).2 x).mpr hsee
      exact absurd (honly p hpar ns hns x hxn) hne
    | closes hall hne hmem => exact ⟨_, rfl⟩

/-! ## Branches of depth zero -/

/-- A walk that never meets the chain can be cut where it first meets a further class. -/
theorem Reaches.off_cons {a b : String} (hout : ∀ x ∈ path, ¬ g.Reaches a x)
    (h : g.Reaches a b) : g.Off (b :: path) a b := by
  induction h using ReflTransGen.head_induction_on with
  | refl => exact .refl
  | @head a c hac hcb ih =>
    by_cases ha : a = b
    · rw [ha]
      exact .refl
    · have hc : ∀ x ∈ path, ¬ g.Reaches c x := fun x hx hcx => hout x hx (.head hac hcx)
      refine .head ⟨?_, hac⟩ (ih hc)
      rw [List.mem_cons, not_or]
      exact ⟨ha, fun hm => hout a hm .refl⟩

/-- A branch of depth zero ends at a root-like class from which the chain is out of reach. -/
theorem rootLike_of_depth_zero (hp : name ∉ path) (h : g.branch path name = .depth 0) :
    g.RootLike name ∧ ∀ x ∈ path, ¬ g.Reaches name x := by
  have ho := branch_outcome (g := g) hp
  rw [h] at ho
  cases ho with
  | roots hall honly =>
    have hunseen : ∀ x ∈ path, ¬ g.Off path name x := by
      intro x hx hw
      obtain ⟨hne, p, hpar, hsee⟩ := (off_mem_iff hp).mp ⟨hx, hw⟩
      obtain ⟨ns, hns⟩ := hall p hpar
      exact hne (honly p hpar ns hns x (((trapped_of_closes g _ p ns hns).2 x).mpr hsee))
    have hoff : ∀ a, g.Reaches name a → g.Off path name a := by
      intro a ha
      induction ha with
      | refl => exact .refl
      | @tail b c _ hbc ih => exact ih.tail ⟨fun hm => hunseen b hm ih, hbc⟩
    refine ⟨fun a ha => ?_, fun x hx hr => hunseen x hx (hoff x hr)⟩
    by_cases ha' : a = name
    · rw [ha']
      exact .refl
    · obtain ⟨p, hpar, hw⟩ := (hoff a ha).last_leave ha'
      obtain ⟨ns, hns⟩ := hall p hpar
      obtain ⟨x, hx, hwx⟩ := (trapped_of_closes g _ p ns hns).1 a hw
      rcases List.mem_cons.mp hx with rfl | hx
      · exact hwx.reaches
      · exact absurd ((hoff a ha).trans hwx.of_cons) (hunseen x hx)

/-- The search ends at a root-like class from which the chain is out of reach. -/
theorem depth_zero_of_rootLike (hp : name ∉ path) (hroot : g.RootLike name)
    (hout : ∀ x ∈ path, ¬ g.Reaches name x) : g.branch path name = .depth 0 := by
  have htrap : ∀ p ∈ g.parents name, g.Trapped (name :: path) p := by
    intro p hpar a ha
    have hna : g.Reaches name a := .head hpar ha.reaches
    have hout' : ∀ x ∈ path, ¬ g.Reaches a x := fun x hx hax => hout x hx (hna.trans hax)
    exact ⟨name, List.mem_cons_self, (hroot a hna).off_cons hout'⟩
  have ho := branch_outcome (g := g) hp
  generalize g.branch path name = b at ho ⊢
  cases ho with
  | @rises p m hpar hb _ =>
    obtain ⟨ns, hns⟩ := closes_of_trapped g _ p (htrap p hpar)
    rw [hns] at hb
    cases hb
  | roots => rfl
  | closes hall hne hmem =>
    rename_i names
    obtain ⟨x, hx⟩ := List.exists_mem_of_ne_nil names hne
    obtain ⟨hxn, p, hpar, ns, hns, hxs⟩ := (hmem x).mp hx
    obtain ⟨hxp, hw⟩ := ((trapped_of_closes g _ p ns hns).2 x).mp hxs
    exact absurd (.head hpar hw.reaches) (hout x ((List.mem_cons.mp hxp).resolve_left hxn))

end ClassCohesion.Inheritance.Graph
