import Mathlib.Data.List.Chain
import Mathlib.Data.List.Infix
import ClassCohesion.Glob.Pattern
import ClassCohesion.Proofs.CodeUnits
import ClassCohesion.Proofs.Places

/-!
# Paths under patterns

A path of names is cut into just these names, and its segments are compared by their code units,
which tell names apart. So a directory pattern matches by the names on the way: `**` on both sides
of literal segments looks for them anywhere but at the very end.

- `matchSegments_within`: what such a pattern matches.
- `Matcher.Laws`: what is assumed of a matcher where another one may take the place of ours.
- `matchesSome_cases`: a list of patterns is refused or answers whether one of them matches.
-/

namespace ClassCohesion

namespace Glob

open ClassCohesion.Path (IsName IsPlace)

theorem Segment.unitsOf_inj {a b : String} : unitsOf a = unitsOf b ↔ a = b := by
  rw [unitsOf, unitsOf, Text.units_inj, String.toList_inj]

theorem Segment.isDots_name {s : String} (h : IsName s) : isDots (unitsOf s) = false := by
  rw [isDots, Bool.or_eq_false_iff, beq_eq_false_iff_ne, beq_eq_false_iff_ne, ne_eq, ne_eq,
    unitsOf_inj, unitsOf_inj]
  exact ⟨h.ne_dot, h.ne_dots⟩

theorem Segment.isDots_names {names : List String} (h : IsPlace names) :
    ∀ s ∈ names.map unitsOf, isDots s = false := by
  intro s hs
  obtain ⟨name, hname, rfl⟩ := List.mem_map.mp hs
  exact isDots_name (h name hname)

/-! ## Cutting a path -/

theorem cut_eq_pieces {cs : List Char} (h : ∀ p ∈ (Text.pieces '/' cs).tail.dropLast, p ≠ []) :
    cut cs = Text.pieces '/' cs := by
  rw [cut]
  cases hps : Text.pieces '/' cs with
  | nil => rfl
  | cons first rest =>
    rw [hps, List.tail_cons] at h
    have hkeep : rest.dropLast.filter (!·.isEmpty) = rest.dropLast := by
      refine List.filter_eq_self.mpr fun p hp => ?_
      simpa using h p hp
    show first :: _ = _
    rw [hkeep]
    cases hlast : rest.getLast? with
    | none => rw [List.getLast?_eq_none_iff.mp hlast]; rfl
    | some last => exact congrArg _ (List.dropLast_append_getLast? last hlast)

theorem pieces_names {names : List String} (hne : names ≠ []) (h : IsPlace names) :
    Text.pieces '/' (Text.join "/" names).toList = names.map String.toList := by
  rw [Text.toList_join, Text.pieces_intercalate]
  · simpa using hne
  · intro p hp
    obtain ⟨s, hs, rfl⟩ := List.mem_map.mp hp
    exact (h s hs).no_slash

theorem toList_ne_nil_of_isPlace {names : List String} (h : IsPlace names) {p : List Char}
    (hp : p ∈ names.map String.toList) : p ≠ [] := by
  obtain ⟨s, hs, rfl⟩ := List.mem_map.mp hp
  simpa using (h s hs).ne_empty

theorem cut_names {names : List String} (hne : names ≠ []) (h : IsPlace names) :
    cut (Text.join "/" names).toList = names.map String.toList := by
  rw [cut_eq_pieces, pieces_names hne h]
  intro p hp
  rw [pieces_names hne h] at hp
  exact toList_ne_nil_of_isPlace h (List.mem_of_mem_tail (List.dropLast_subset _ hp))

/-- A slash at the end adds an empty segment. -/
theorem cut_names_slash {names : List String} (hne : names ≠ []) (h : IsPlace names) :
    cut (Text.join "/" names ++ "/").toList = names.map String.toList ++ [[]] := by
  have hpieces : Text.pieces '/' (Text.join "/" names ++ "/").toList =
      names.map String.toList ++ [[]] := by
    rw [String.toList_append]
    exact (Text.pieces_append_sep '/' _ []).trans (congrArg (· ++ [[]]) (pieces_names hne h))
  rw [cut_eq_pieces, hpieces]
  intro p hp
  rw [hpieces, List.tail_append_of_ne_nil (by simpa using hne), List.dropLast_concat] at hp
  exact toList_ne_nil_of_isPlace h (List.mem_of_mem_tail hp)

theorem withoutDot_names {names : List String} (h : IsPlace names) :
    withoutDot (Text.join "/" names) = Text.join "/" names := by
  rw [withoutDot]
  split
  · rename_i cs hcs
    cases names with
    | nil => cases hcs
    | cons s names =>
      have hpieces := pieces_names (List.cons_ne_nil s names) h
      rw [hcs, show '.' :: '/' :: cs = ['.'] ++ '/' :: cs from rfl,
        Text.pieces_append_sep] at hpieces
      have hdot : s.toList = ".".toList := (List.cons.inj hpieces).1.symm
      exact absurd (String.toList_inj.mp hdot) (h s List.mem_cons_self).ne_dot
  · rfl

/-! ## Literal segments at any depth -/

theorem mem_depths {rest path : List (List Nat)} :
    rest ∈ depths path ↔ ∃ before, path = before ++ rest ∧ rest ≠ [] ∧
      ∀ s ∈ before, Segment.isDots s = false := by
  induction path with
  | nil =>
    refine ⟨nofun, ?_⟩
    rintro ⟨before, heq, hne, -⟩
    exact absurd (List.append_eq_nil_iff.mp heq.symm).2 hne
  | cons s path ih =>
    rw [depths, List.mem_cons]
    constructor
    · rintro (rfl | hrest)
      · exact ⟨[], rfl, List.cons_ne_nil s path, nofun⟩
      · cases hs : Segment.isDots s with
        | true => simp [hs] at hrest
        | false =>
          rw [hs] at hrest
          obtain ⟨before, rfl, hne, hbefore⟩ := ih.mp hrest
          exact ⟨s :: before, rfl, hne, List.forall_mem_cons.mpr ⟨hs, hbefore⟩⟩
    · rintro ⟨before, heq, hne, hbefore⟩
      cases before with
      | nil => exact .inl heq.symm
      | cons t before =>
        obtain ⟨rfl, rfl⟩ := List.cons.inj heq
        obtain ⟨hs, hbefore⟩ := List.forall_mem_cons.mp hbefore
        rw [hs]
        exact .inr (ih.mpr ⟨before, rfl, hne, hbefore⟩)

theorem matchSegments_literal (us : List (List Nat)) (ps : List Segment)
    (path : List (List Nat)) :
    matchSegments (us.map .exact ++ ps) path = true ↔
      ∃ rest, path = us ++ rest ∧ matchSegments ps rest = true := by
  induction us generalizing path with
  | nil => simp
  | cons u us ih =>
    cases path with
    | nil => simp [matchSegments]
    | cons s path =>
      have hstep : matchSegments (.exact u :: (us.map .exact ++ ps)) (s :: path) =
          (u == s && matchSegments (us.map .exact ++ ps) path) := rfl
      rw [List.map_cons, List.cons_append, hstep, Bool.and_eq_true, beq_iff_eq, ih]
      constructor
      · rintro ⟨rfl, rest, rfl, hrest⟩
        exact ⟨rest, rfl, hrest⟩
      · rintro ⟨rest, heq, hrest⟩
        obtain ⟨rfl, rfl⟩ := List.cons.inj heq
        exact ⟨rfl, rest, rfl, hrest⟩

theorem matchSegments_anyDepth (path : List (List Nat)) :
    matchSegments [.anyDepth] path = true ↔
      path ≠ [] ∧ ∀ s ∈ path, Segment.isDots s = false := by
  simp [matchSegments]

/-- **Anywhere but at the end.** Between two `**`, literal segments are found in a path if they
stand in it in a row, with something after them. -/
theorem matchSegments_within (us path : List (List Nat))
    (hpath : ∀ s ∈ path, Segment.isDots s = false) :
    matchSegments (.anyDepth :: (us.map .exact ++ [.anyDepth])) path = true ↔
      ∃ before after, path = before ++ (us ++ after) ∧ after ≠ [] := by
  have hstep : matchSegments (.anyDepth :: (us.map .exact ++ [.anyDepth])) path =
      (depths path).any (matchSegments (us.map .exact ++ [.anyDepth])) := by
    cases us <;> rfl
  rw [hstep, List.any_eq_true]
  constructor
  · rintro ⟨rest, hrest, hmatch⟩
    obtain ⟨before, rfl, -, -⟩ := mem_depths.mp hrest
    obtain ⟨after, rfl, hafter⟩ := (matchSegments_literal us _ rest).mp hmatch
    exact ⟨before, after, rfl, ((matchSegments_anyDepth after).mp hafter).1⟩
  · rintro ⟨before, after, rfl, hafter⟩
    simp only [List.forall_mem_append] at hpath
    obtain ⟨hbefore, -, hdots⟩ := hpath
    refine ⟨us ++ after, mem_depths.mpr ⟨before, rfl, ?_, hbefore⟩, ?_⟩
    · exact List.append_ne_nil_of_right_ne_nil us hafter
    · exact (matchSegments_literal us _ _).mpr
        ⟨after, rfl, (matchSegments_anyDepth after).mpr ⟨hafter, hdots⟩⟩

/-! ## Literal names and rows of them -/

/-- The characters with a special meaning in a pattern. -/
def specials : List Char := ['*', '?', '[', '\x7b', '\\']

/-- A name that a pattern can only take literally: it holds no special character, and no group such
as `+(a)`. -/
structure IsLiteral (s : String) : Prop extends IsName s where
  no_special : ∀ c ∈ specials, c ∉ s.toList
  no_group : ∀ c ∈ ['!', '+', '@'], ¬[c, '('] <:+: s.toList

-- the characters are tested one by one, not by running through all characters there are
instance : DecidablePred IsLiteral := fun s =>
  decidable_of_iff (IsName s ∧ (specials.all fun c => decide (c ∉ s.toList)) = true ∧
      (['!', '+', '@'].all fun c => decide (¬[c, '('] <:+: s.toList)) = true) <| by
    simp only [List.all_eq_true, decide_eq_true_eq]
    exact ⟨fun ⟨h₁, h₂, h₃⟩ => ⟨h₁, h₂, h₃⟩, fun h => ⟨h.toIsName, h.no_special, h.no_group⟩⟩

theorem IsLiteral.ne_stars {s : String} (h : IsLiteral s) : s ≠ "**" := by
  rintro rfl
  exact h.no_special '*' (by decide) (by decide)

/-- What a row of literal names and `**` stands for: a literal name for itself, a `**` for any number
of names, and at the end of the row for at least one. -/
inductive Stands : List String → List String → Prop where
  | nil : Stands [] []
  | name {s : String} {row names : List String} (hs : s ≠ "**") (h : Stands row names) :
      Stands (s :: row) (s :: names)
  | deep {row names : List String} (before : List String) (hrow : row ≠ []) (h : Stands row names) :
      Stands ("**" :: row) (before ++ names)
  | last {names : List String} (hnames : names ≠ []) : Stands ["**"] names

/-- A row of literal names and `**` without two `**` in a row. -/
structure IsRow (row : List String) : Prop where
  segments : ∀ s ∈ row, s = "**" ∨ IsLiteral s
  apart : row.IsChain fun s t => s ≠ "**" ∨ t ≠ "**"

/-- **What is documented about a matcher**: it refuses a pattern that is too wide and answers for any
other; and a pattern that starts with a `**` and goes on with literal names and more of them matches
the paths of names that it stands for, hidden names included. -/
structure Matcher.Laws (matcher : Matcher) : Prop where
  refuses : ∀ {pattern : String}, Pattern.maxWidth < Text.width pattern →
    ∀ path, matcher path pattern = .error tooLong
  answers : ∀ {pattern : String}, ¬Pattern.maxWidth < Text.width pattern →
    ∀ path, ∃ b, matcher path pattern = .ok b
  rows : ∀ {row names : List String}, row ≠ [] → IsRow ("**" :: row) → Path.IsPlace names →
    ¬Pattern.maxWidth < Text.width (Text.join "/" ("**" :: row)) →
    (matcher (Text.join "/" names) (Text.join "/" ("**" :: row)) = .ok true ↔
      Stands ("**" :: row) names)

/-! ## Lists of patterns -/

section Lists

variable {matcher : Matcher} (hm : matcher.Laws)

/-- Patterns are refused for a path if one that is too wide comes up before any has matched. -/
def Refuses (matcher : Matcher) (path : String) (patterns : List String) : Prop :=
  ∃ before pattern after, patterns = before ++ pattern :: after ∧
    (∀ p ∈ before, matcher path p = .ok false) ∧ Pattern.maxWidth < Text.width pattern

theorem refuses_cons {path p : String} {ps : List String} :
    Refuses matcher path (p :: ps) ↔ Pattern.maxWidth < Text.width p ∨
      matcher path p = .ok false ∧ Refuses matcher path ps := by
  constructor
  · rintro ⟨before, pattern, after, heq, hbefore, hwide⟩
    cases before with
    | nil =>
      obtain ⟨rfl, -⟩ := List.cons.inj heq
      exact .inl hwide
    | cons q before =>
      obtain ⟨rfl, rfl⟩ := List.cons.inj heq
      obtain ⟨hp, hbefore⟩ := List.forall_mem_cons.mp hbefore
      exact .inr ⟨hp, before, pattern, after, rfl, hbefore, hwide⟩
  · rintro (hwide | ⟨hp, before, pattern, after, rfl, hbefore, hwide⟩)
    · exact ⟨[], p, ps, rfl, nofun, hwide⟩
    · exact ⟨p :: before, pattern, after, rfl, List.forall_mem_cons.mpr ⟨hp, hbefore⟩, hwide⟩

theorem not_refuses_of_narrow {patterns : List String}
    (h : ∀ p ∈ patterns, Text.width p ≤ Pattern.maxWidth) (path : String) :
    ¬Refuses matcher path patterns := by
  rintro ⟨before, pattern, after, rfl, -, hwide⟩
  exact Nat.not_lt.mpr (h pattern (by simp)) hwide

include hm in
/-- **What a list of patterns answers.** It is refused, or it tells whether one of them matches. -/
theorem matchesSome_cases (path : String) (patterns : List String) :
    (Refuses matcher path patterns ∧ matchesSome matcher path patterns = .error tooLong) ∨
      ¬Refuses matcher path patterns ∧ ∃ b, matchesSome matcher path patterns = .ok b ∧
        (b = true ↔ ∃ p ∈ patterns, matcher path p = .ok true) := by
  induction patterns with
  | nil => exact .inr ⟨not_refuses_of_narrow (by simp) path, false, rfl, by simp⟩
  | cons p ps ih =>
    by_cases hwide : Pattern.maxWidth < Text.width p
    · refine .inl ⟨refuses_cons.mpr (.inl hwide), ?_⟩
      rw [matchesSome, hm.refuses hwide]
    · obtain ⟨b, hb⟩ := hm.answers hwide path
      rw [refuses_cons, or_iff_right hwide, matchesSome, hb]
      cases b with
      | true => exact .inr ⟨by simp, true, rfl, by simp [hb]⟩
      | false =>
        simp only [hb, true_and, List.exists_mem_cons_iff, Except.ok.injEq, Bool.false_eq_true,
          false_or]
        exact ih

end Lists

/-! ## Names between two double stars -/

theorem stands_nil {names : List String} : Stands [] names ↔ names = [] := by
  constructor
  · intro h
    cases h
    rfl
  · rintro rfl
    exact .nil

theorem stands_name {s : String} {row names : List String} (hs : s ≠ "**") :
    Stands (s :: row) names ↔ ∃ rest, names = s :: rest ∧ Stands row rest := by
  constructor
  · intro h
    cases h with
    | name _ h => exact ⟨_, rfl, h⟩
    | deep => exact absurd rfl hs
    | last => exact absurd rfl hs
  · rintro ⟨rest, rfl, h⟩
    exact .name hs h

theorem stands_append {segments row names : List String} (h : ∀ s ∈ segments, IsLiteral s) :
    Stands (segments ++ row) names ↔ ∃ rest, names = segments ++ rest ∧ Stands row rest := by
  induction segments generalizing names with
  | nil => simp
  | cons s segments ih =>
    rw [List.forall_mem_cons] at h
    rw [List.cons_append, stands_name h.1.ne_stars]
    constructor
    · rintro ⟨_, rfl, hrest⟩
      obtain ⟨rest, rfl, hrow⟩ := (ih h.2).mp hrest
      exact ⟨rest, rfl, hrow⟩
    · rintro ⟨rest, rfl, hrow⟩
      exact ⟨_, rfl, (ih h.2).mpr ⟨rest, rfl, hrow⟩⟩

theorem stands_stars {names : List String} : Stands ["**"] names ↔ names ≠ [] := by
  constructor
  · intro h
    cases h with
    | name hs => exact absurd rfl hs
    | deep _ hrow => exact absurd rfl hrow
    | last hnames => exact hnames
  · exact .last

theorem stands_deep {row names : List String} (hrow : row ≠ []) :
    Stands ("**" :: row) names ↔ ∃ before rest, names = before ++ rest ∧ Stands row rest := by
  constructor
  · intro h
    cases h with
    | name hs => exact absurd rfl hs
    | deep before _ h => exact ⟨before, _, rfl, h⟩
    | last => exact absurd rfl hrow
  · rintro ⟨before, rest, rfl, h⟩
    exact .deep before hrow h

/-- The text of the pattern that looks for segments at any depth. -/
def within (segments : List String) : String := Text.join "/" ("**" :: (segments ++ ["**"]))

/-- Literal names between two `**` are found anywhere but at the end. -/
theorem stands_within {segments names : List String} (h : ∀ s ∈ segments, IsLiteral s) :
    Stands ("**" :: (segments ++ ["**"])) names ↔
      ∃ before after, names = before ++ (segments ++ after) ∧ after ≠ [] := by
  simp only [stands_deep (List.append_ne_nil_of_right_ne_nil segments (List.cons_ne_nil _ _)),
    stands_append h, stands_stars]
  constructor
  · rintro ⟨before, _, rfl, after, rfl, hafter⟩
    exact ⟨before, after, rfl, hafter⟩
  · rintro ⟨before, after, rfl, hafter⟩
    exact ⟨before, _, rfl, after, rfl, hafter⟩

theorem isRow_within {segments : List String} (hne : segments ≠ [])
    (h : ∀ s ∈ segments, IsLiteral s) : IsRow ("**" :: (segments ++ ["**"])) := by
  have hstars : ∀ s ∈ segments, s ≠ "**" := fun s hs => (h s hs).ne_stars
  have hpairs : segments.Pairwise fun s t => s ≠ "**" ∨ t ≠ "**" :=
    List.pairwise_of_forall_mem_list fun s hs _ _ => .inl (hstars s hs)
  refine ⟨?_, .cons (.append hpairs.isChain (.singleton _) ?_) ?_⟩
  · simp only [List.mem_cons, List.mem_append, List.not_mem_nil, or_false]
    rintro s (rfl | hs | rfl)
    · exact .inl rfl
    · exact .inr (h s hs)
    · exact .inl rfl
  · intro s hs _ _
    exact .inl (hstars s (List.mem_of_getLast? hs))
  · intro t ht
    rw [List.head?_append_of_ne_nil _ hne] at ht
    exact .inr (hstars t (List.mem_of_head? ht))

end Glob

end ClassCohesion
