import ClassCohesion.Proofs.Depth
import ClassCohesion.Proofs.GraphFacts

/-!
# One chain for the whole search

`branch` hands every branch a chain of its own. `search` has one chain, which all branches share: a
class is put on its end while its parents are searched and is taken off afterwards, and what its
parents come to is gathered on the way. Each search returns the chain with a proof that it is as it
was, which is also why the next one may go on with it.

- `searchAll_sums`: the gathered results are those of the branches.
- `search_alike`: both searches come to the same, up to the repetition of classes.
- `search_leaves_chain`: the chain is left as it was, and a branch closes at all the classes of the
  chain that can be reached off it.
-/

namespace ClassCohesion.Inheritance.Graph

variable {g : Graph} {path : List String} {name : String}

/-- What the search over the parents of a class has gathered so far: the greatest depth that a
branch gives, if one has, and the classes at which branches close, each once. -/
structure Tally where
  best : Option Nat
  closesAt : List String

namespace Tally

/-- Nothing gathered. -/
def empty : Tally := ⟨none, []⟩

/-- Takes up what one parent comes to. -/
def add (t : Tally) : Branch → Tally
  | .depth n => { t with best := some (max (t.best.getD 0) (n + 1)) }
  | .closes names => { t with closesAt := names.foldl addOnce t.closesAt }

/-- What a class comes to after all its parents. -/
def branch (t : Tally) (name : String) : Branch :=
  match t.best, t.closesAt.erase name with
  | some d, _ => .depth d
  | none, [] => .depth 0
  | none, names => .closes names

end Tally

/-- A result, and the chain as it is after the search, which has to be as it was before. -/
structure Restoring (path : List String) (α : Type) where
  value : α
  after : List String
  after_eq : after = path

theorem offPath_congr {path' : List String} (h : ∀ x, x ∈ path ↔ x ∈ path') :
    g.offPath path = g.offPath path' := by
  unfold offPath
  exact List.countP_congr fun x _ => by simp [h]

theorem offPath_concat_lt (hn : g.parents name ≠ []) (hp : name ∉ path) :
    g.offPath (path ++ [name]) < g.offPath path := by
  have hcons : g.offPath (path ++ [name]) = g.offPath (name :: path) :=
    offPath_congr fun x => by simp [or_comm]
  rw [hcons]
  exact offPath_cons_lt hn hp

theorem erase_concat (hp : name ∉ path) : (path ++ [name]).erase name = path := by
  rw [List.erase_append_right _ hp, List.erase_cons_head, List.append_nil]

mutual

/-- Searches upwards from a class. There is one chain for the whole search: the class is put on it
while its parents are searched, and taken off again. -/
def search (g : Graph) (path : List String) (name : String) (hp : name ∉ path) :
    Restoring path Branch :=
  if hn : g.parents name = [] then ⟨.depth 0, path, rfl⟩
  else
    let above := searchAll g (path ++ [name]) .empty (g.parents name)
    ⟨above.value.branch name, above.after.erase name, by rw [above.after_eq, erase_concat hp]⟩
termination_by (g.offPath path, 0)
decreasing_by exact Prod.Lex.left _ _ (offPath_concat_lt hn hp)

/-- Searches upwards from one class after the other, each time with the chain that the search
before has left. -/
def searchAll (g : Graph) (path : List String) (tally : Tally) (names : List String) :
    Restoring path Tally :=
  match names with
  | [] => ⟨tally, path, rfl⟩
  | p :: ps =>
    if hp : p ∈ path then searchAll g path { tally with closesAt := addOnce tally.closesAt p } ps
    else
      let found := search g path p hp
      let rest := searchAll g found.after (tally.add found.value) ps
      ⟨rest.value, rest.after, rest.after_eq.trans found.after_eq⟩
termination_by (g.offPath path, names.length + 1)
decreasing_by
  · exact Prod.Lex.right _ (Nat.lt_succ_self _)
  · exact Prod.Lex.right _ (Nat.succ_pos _)
  · rw [found.after_eq]
    exact Prod.Lex.right _ (Nat.lt_succ_self _)

end

/-! ## What is gathered -/

/-- Results that tell the same: equal depths, or the same classes, on the left each once. -/
inductive Branch.Alike : Branch → Branch → Prop where
  | depth (n : Nat) : Alike (.depth n) (.depth n)
  | closes {once names : List String} (nodup : once.Nodup) (same : ∀ x, x ∈ once ↔ x ∈ names) :
      Alike (.closes once) (.closes names)

theorem Branch.Alike.singleton (name : String) : Alike (.closes [name]) (.closes [name]) :=
  .closes (List.nodup_singleton name) fun _ => .rfl

theorem Branch.Alike.of_closes {once : List String} {b : Branch} (h : Alike (.closes once) b) :
    ∃ names, b = .closes names ∧ once.Nodup ∧ ∀ x, x ∈ once ↔ x ∈ names := by
  cases h with
  | closes nodup same => exact ⟨_, rfl, nodup, same⟩

theorem mem_foldl_addOnce {names seen : List String} {x : String} :
    x ∈ names.foldl addOnce seen ↔ x ∈ seen ∨ x ∈ names := by
  induction names generalizing seen with
  | nil => simp
  | cons name names ih => rw [List.foldl_cons, ih, mem_addOnce, List.mem_cons, or_assoc]

theorem nodup_foldl_addOnce {names seen : List String} (h : seen.Nodup) :
    (names.foldl addOnce seen).Nodup := by
  induction names generalizing seen with
  | nil => exact h
  | cons name names ih => exact ih (addOnce_nodup h name)

theorem max?_concat (ds : List Nat) (d : Nat) :
    (ds ++ [d]).max? = some (max (ds.max?.getD 0) d) := by
  cases ds with
  | nil => simp
  | cons e ds => rw [List.cons_append, List.max?_cons', List.max?_cons', List.foldl_append]; rfl

/-- A tally of a row of branches. -/
structure Tally.Sums (t : Tally) (branches : List Branch) : Prop where
  best : t.best = (branches.filterMap Branch.above?).max?
  nodup : t.closesAt.Nodup
  closes : ∀ x, x ∈ t.closesAt ↔ x ∈ branches.flatMap Branch.closing

namespace Tally.Sums

variable {t : Tally} {branches : List Branch} {b b' : Branch}

theorem empty : Sums .empty [] := ⟨rfl, List.nodup_nil, fun _ => .rfl⟩

theorem add (h : Sums t branches) (hb : b.Alike b') : Sums (t.add b) (branches ++ [b']) := by
  cases hb with
  | depth n =>
    refine ⟨?_, h.nodup, fun x => ?_⟩
    · rw [List.filterMap_append]
      exact (congrArg (fun d => some (max (d.getD 0) (n + 1))) h.best).trans
        (max?_concat _ (n + 1)).symm
    · rw [List.flatMap_append, List.flatMap_singleton, Branch.closing, List.append_nil]
      exact h.closes x
  | closes nodup same =>
    refine ⟨?_, nodup_foldl_addOnce h.nodup, fun x => ?_⟩
    · rw [List.filterMap_append]
      exact h.best.trans (congrArg _ (List.append_nil _).symm)
    · rw [List.flatMap_append, List.mem_append, List.flatMap_singleton, Branch.closing, ← same,
        ← h.closes]
      exact mem_foldl_addOnce

/-- What a tally comes to is what the branches come to. -/
theorem branch_alike (h : Sums t branches) (name : String) :
    (t.branch name).Alike (combine name branches) := by
  have hbest := h.best
  have hmem : ∀ x, x ∈ t.closesAt.erase name ↔
      x ∈ (branches.flatMap Branch.closing).filter (· ≠ name) := by
    intro x
    rw [h.nodup.mem_erase_iff, h.closes, List.mem_filter, decide_eq_true_eq, and_comm]
  unfold Tally.branch combine
  cases hds : branches.filterMap Branch.above? with
  | cons d ds =>
    rw [hds, List.max?_cons'] at hbest
    rw [hbest]
    exact .depth _
  | nil =>
    rw [hds, List.max?_nil] at hbest
    rw [hbest]
    have hnodup := h.nodup.erase name
    -- both rows have the same members, so one is empty exactly if the other is
    generalize t.closesAt.erase name = once at hmem hnodup ⊢
    generalize (branches.flatMap Branch.closing).filter (· ≠ name) = names at hmem ⊢
    cases once with
    | nil =>
      cases names with
      | nil => exact .depth 0
      | cons x names => exact absurd ((hmem x).mpr List.mem_cons_self) List.not_mem_nil
    | cons y once =>
      cases names with
      | nil => exact absurd ((hmem y).mp List.mem_cons_self) List.not_mem_nil
      | cons x names => exact .closes hnodup hmem

end Tally.Sums

/-! ## Both searches come to the same -/

/-- If the search on the shared chain is right about each class, its tally is. -/
theorem searchAll_sums {chain : List String} (hchain : ∀ x, x ∈ path ↔ x ∈ chain)
    {names : List String} (h : ∀ p ∈ names, ∀ hp : p ∉ path,
      (g.search path p hp).value.Alike (g.branch chain p))
    {t : Tally} {branches : List Branch} (ht : t.Sums branches) :
    (g.searchAll path t names).value.Sums (branches ++ names.map (g.branch chain)) := by
  induction names generalizing t branches with
  | nil =>
    rw [searchAll, List.map_nil, List.append_nil]
    exact ht
  | cons p names ih =>
    have hnames : ∀ q ∈ names, ∀ hq : q ∉ path,
        (g.search path q hq).value.Alike (g.branch chain q) :=
      fun q hq => h q (List.mem_cons_of_mem _ hq)
    rw [searchAll, List.map_cons, ← List.singleton_append, ← List.append_assoc]
    split
    · next hp =>
      rw [branch_of_mem ((hchain p).mp hp)]
      exact ih hnames (ht.add (.singleton p))
    · next hp =>
      have hafter : (g.searchAll (g.search path p hp).after
          (t.add (g.search path p hp).value) names).value =
            (g.searchAll path (t.add (g.search path p hp).value) names).value := by
        rw [(g.search path p hp).after_eq]
      show Tally.Sums (g.searchAll (g.search path p hp).after
        (t.add (g.search path p hp).value) names).value _
      rw [hafter]
      exact ih hnames (ht.add (h p List.mem_cons_self hp))

theorem search_alike (g : Graph) (chain : List String) (name : String) :
    ∀ path, (∀ x, x ∈ path ↔ x ∈ chain) → ∀ hp : name ∉ path,
      (g.search path name hp).value.Alike (g.branch chain name) := by
  induction chain, name using branch_induction g with
  | on chain name hmem => exact fun path hchain hp => absurd ((hchain name).mpr hmem) hp
  | off chain name hmem ih =>
    intro path hchain hp
    have hlonger : ∀ x, x ∈ path ++ [name] ↔ x ∈ name :: chain := by
      intro x
      rw [List.mem_append, List.mem_singleton, List.mem_cons, hchain, or_comm]
    have hsums := searchAll_sums hlonger (fun p hpar => ih p hpar _ hlonger) Tally.Sums.empty
    rw [search, branch, dif_neg hmem]
    split
    · exact .depth 0
    · exact hsums.branch_alike name

/-- A branch that closes does so at some class. -/
theorem closes_ne_nil {names : List String} (h : g.branch path name = .closes names) :
    names ≠ [] := by
  obtain ⟨htrapped, hnames⟩ := trapped_of_closes g path name names h
  obtain ⟨x, hx, hw⟩ := htrapped name .refl
  exact List.ne_nil_of_mem ((hnames x).mpr ⟨hx, hw⟩)

/-- **The chain after a search.** For every graph, every chain and every class off it, the search on a
shared chain leaves the chain as it was and comes to what `branch` comes to: a depth, or a non-empty
set of classes of the chain. If it is a set, then it is that of the classes of the chain to which a
walk along recorded parents leads that leaves only classes off the chain. So a search that starts
with an empty chain always finds a depth. -/
theorem search_leaves_chain (g : Graph) (path : List String) (c : String) (hc : c ∉ path) :
    (g.search path c hc).after = path ∧
      (g.search path c hc).value.Alike (g.branch path c) ∧
      ((∃ n, (g.search path c hc).value = .depth n) ∨
        ∃ names, (g.search path c hc).value = .closes names ∧ names ≠ [] ∧ names.Nodup ∧
          ∀ x, x ∈ names ↔ x ∈ path ∧ g.Off path c x) ∧
      ∀ a, (g.search [] a List.not_mem_nil).value = .depth (g.depth a) ∧
        g.branch [] a = .depth (g.depth a) := by
  have halike := search_alike g path c path (fun _ => .rfl) hc
  refine ⟨(g.search path c hc).after_eq, halike, ?_, fun a => ⟨?_, branch_nil_eq_depth g a⟩⟩
  · cases hvalue : (g.search path c hc).value with
    | depth n => exact .inl ⟨n, rfl⟩
    | closes names =>
      rw [hvalue] at halike
      obtain ⟨all, hbranch, hnodup, hsame⟩ := halike.of_closes
      obtain ⟨y, hy⟩ := List.exists_mem_of_ne_nil all (closes_ne_nil hbranch)
      refine .inr ⟨names, rfl, List.ne_nil_of_mem ((hsame y).mpr hy), hnodup, fun x => ?_⟩
      rw [hsame, (trapped_of_closes g path c all hbranch).2]
  · have hempty := search_alike g [] a [] (fun _ => .rfl) List.not_mem_nil
    rw [branch_nil_eq_depth] at hempty
    generalize (g.search [] a List.not_mem_nil).value = b at hempty ⊢
    cases hempty
    rfl

namespace Sample

/-- Two classes that name each other as parents, and each one further class. -/
def knot : Graph :=
  ofFacts [⟨"M", ["N", "X"], "/p/m.py"⟩, ⟨"N", ["Y", "M"], "/p/n.py"⟩, ⟨"X", ["M"], "/p/x.py"⟩]

theorem m_off_chain : "M" ∉ ["X", "Y"] := by decide

end Sample

open Sample in
/-- With the two further classes on the chain, the branch closes at both and not at the class itself;
with an empty chain it has a depth. -/
theorem search_leaves_chain_knot :
    (knot.search ["X", "Y"] "M" m_off_chain).after = ["X", "Y"] ∧
      (knot.search ["X", "Y"] "M" m_off_chain).value = .closes ["Y", "X"] ∧
      (∀ x, x ∈ ["Y", "X"] ↔ x ∈ ["X", "Y"] ∧ knot.Off ["X", "Y"] "M" x) ∧
      (knot.search [] "M" List.not_mem_nil).value = .depth 2 := by
  have hparents : knot.parents "M" = ["N", "X"] ∧ knot.parents "N" = ["Y", "M"] := by
    decide +kernel
  have hvalue : (knot.search ["X", "Y"] "M" m_off_chain).value = .closes ["Y", "X"] := by
    simp [search, searchAll, hparents, Tally.empty, Tally.add, Tally.branch, addOnce]
  have hdepth : knot.depth "M" = 2 := by decide +kernel
  obtain ⟨hafter, -, hresult, hempty⟩ := search_leaves_chain knot ["X", "Y"] "M" m_off_chain
  refine ⟨hafter, hvalue, ?_, by rw [(hempty "M").1, hdepth]⟩
  rw [hvalue] at hresult
  obtain ⟨n, hn⟩ | ⟨names, hnames, -, -, hmem⟩ := hresult
  · cases hn
  · cases hnames
    exact hmem

end ClassCohesion.Inheritance.Graph
