import Mathlib.Data.List.Infix
import ClassCohesion.Proofs.GlobMatching

/-!
# Directories that are left out

A directory pattern is a row of literal segments with a slash at its end. As an exclusion it becomes
the same segments between two `**`, and a matcher that takes these for what they stand for leaves out
a path exactly if the segments stand in it in a row before its last name.

Our own matcher does. A literal segment holds none of the characters that the readers of alternatives
and of segments look for, so a row is read back as such, and its backtracking finds what it stands
for.

- `ofText_literal`: a literal segment stands for itself.
- `segmentsOf_row`: what a row of literal segments and `**` is read as.
- `matchesPattern_laws`: our matcher has the properties that are assumed of one.
- `directories_left_out`: what directory patterns leave out, with any matcher that has them.
-/

namespace ClassCohesion

namespace Text

/-- A unit of a character is its number or half of a pair of surrogates. -/
theorem mem_charUnits {c : Char} {u : Nat} (h : u ∈ charUnits c) : u = c.toNat ∨ 0xD800 ≤ u := by
  unfold charUnits at h
  split at h
  · exact .inl (List.mem_singleton.mp h)
  · simp only [List.mem_cons, List.not_mem_nil, or_false] at h
    omega

/-- A character of the basic range is found among the units of a text only if it stands there. -/
theorem mem_of_toNat_mem_units {c : Char} {cs : List Char} (hc : c.toNat < 0xD800)
    (h : c.toNat ∈ units cs) : c ∈ cs := by
  obtain ⟨d, hd, hmem⟩ := List.mem_flatMap.mp h
  rcases mem_charUnits hmem with heq | hle
  · rw [Char.toNat_inj.mp heq]
    exact hd
  · omega

end Text

namespace Glob

open ClassCohesion.Path (IsName IsPlace)

/-! ## Literal segments -/

theorem IsLiteral.not_mem_units {s : String} (h : IsLiteral s) {c : Char} (hc : c ∈ specials) :
    c.toNat ∉ Text.units s.toList := by
  have hall : (specials.all fun c => decide (c.toNat < 0xD800)) = true := by decide
  have hnarrow : c.toNat < 0xD800 := of_decide_eq_true (List.all_eq_true.mp hall c hc)
  exact fun hmem => h.no_special c hc (Text.mem_of_toNat_mem_units hnarrow hmem)

theorem ofUnits_literal {us : List Nat} (h : '\\'.toNat ∉ us) :
    Mark.ofUnits us = us.map (⟨·, false⟩) := by
  fun_induction Mark.ofUnits us with
  | case1 => rfl
  | case2 u =>
    have hu : (u == '\\'.toNat) = false := by
      rw [beq_eq_false_iff_ne]
      exact fun heq => h (heq ▸ List.mem_cons_self)
    rw [hu]
    rfl
  | case3 u v us hu _ => exact absurd (beq_iff_eq.mp hu ▸ List.mem_cons_self) h
  | case4 u v us _ ih =>
    rw [ih fun hm => h (List.mem_cons_of_mem _ hm)]
    rfl

theorem readPieces_literal {us : List Nat}
    (h : '['.toNat ∉ us ∧ '*'.toNat ∉ us ∧ '?'.toNat ∉ us) :
    readPieces 0 (us.map (⟨·, false⟩)) = us.map .unit := by
  induction us with
  | nil => rfl
  | cons u us ih =>
    simp only [List.mem_cons, not_or] at h
    obtain ⟨⟨hset, hset'⟩, ⟨hstar, hstar'⟩, hany, hany'⟩ := h
    have hsign {c : Char} (hc : c.toNat ≠ u) : (⟨u, false⟩ : Mark).isSign c = false := by
      simp [Mark.isSign, hc.symm]
    rw [List.map_cons, readPieces, hsign hset, hsign hstar, hsign hany, ih ⟨hset', hstar', hany'⟩]
    rfl

theorem plainTail?_literal {wildcard : Char} {us : List Nat} (h : wildcard.toNat ∉ us) :
    Segment.plainTail? wildcard us = none := by
  have hall : us.dropWhile (fun u => u == wildcard.toNat) = us := by
    cases us with
    | nil => rfl
    | cons u us =>
      have hu : (u == wildcard.toNat) = false := by
        rw [beq_eq_false_iff_ne]
        exact fun heq => h (heq ▸ List.mem_cons_self)
      rw [List.dropWhile_cons_of_neg (by simp [hu])]
  rw [Segment.plainTail?, hall, if_neg]
  exact fun hlt => Nat.lt_irrefl _ hlt.1

/-- A literal segment stands for itself. -/
theorem ofText_literal {s : String} (h : IsLiteral s) :
    Segment.ofText s.toList = .exact (Segment.unitsOf s) := by
  have hstar : '*'.toNat ∉ Text.units s.toList := h.not_mem_units (by decide)
  have hany : '?'.toNat ∉ Text.units s.toList := h.not_mem_units (by decide)
  have hset : '['.toNat ∉ Text.units s.toList := h.not_mem_units (by decide)
  have hslash : '\\'.toNat ∉ Text.units s.toList := h.not_mem_units (by decide)
  have hne : Text.units s.toList ≠ Segment.unitsOf "**" := by
    intro heq
    rw [heq] at hstar
    exact hstar (by decide)
  rw [Segment.ofText, if_neg hne, plainTail?_literal hstar, plainTail?_literal hany]
  show (if _ then _ else Segment.exact _) = _
  rw [ofUnits_literal hslash, readPieces_literal ⟨hset, hstar, hany⟩, if_neg (by simp [Piece.isWild]),
    List.filterMap_map]
  simp [Segment.unitsOf]

/-! ## Rows -/

theorem hasBraces_eq_false {cs : List Char} (h : '\x7b' ∉ cs) : Brace.hasBraces cs = false := by
  induction cs with
  | nil => rfl
  | cons c cs ih =>
    obtain ⟨hc, hcs⟩ := List.ne_and_not_mem_of_not_mem_cons h
    simp [Brace.hasBraces, ih hcs, hc.symm]

theorem expand_of_no_brace {cs : List Char} (h : '\x7b' ∉ cs) : Brace.expand cs = [cs] := by
  rw [Brace.expand, hasBraces_eq_false h]
  rfl

theorem settleSegment_eq {above : List (List Char)} {segment : List Char}
    (hback : segment ≠ ['.', '.'])
    (hdepth : segment = ['*', '*'] → above.getLast? ≠ some ['*', '*']) :
    settleSegment above segment = above ++ [segment] := by
  rw [settleSegment, if_neg fun h => hdepth h.1 h.2, if_neg fun h => hback h.1]

/-- The segment that a member of a row is read as. -/
def rowSegment (s : String) : Segment := if s = "**" then .anyDepth else .exact (Segment.unitsOf s)

theorem IsRow.isPlace {row : List String} (h : IsRow row) : IsPlace row := by
  intro s hs
  rcases h.segments s hs with rfl | hs
  · decide
  · exact hs.toIsName

theorem IsRow.tail {s : String} {row : List String} (h : IsRow (s :: row)) : IsRow row :=
  ⟨fun t ht => h.segments t (List.mem_cons_of_mem s ht), h.apart.tail⟩

/-- After a `**` comes a literal segment. -/
theorem IsRow.literal_after {s : String} {row : List String} (h : IsRow ("**" :: s :: row)) :
    IsLiteral s := by
  rcases h.segments s (List.mem_cons_of_mem _ List.mem_cons_self) with rfl | hs
  · exact absurd (List.isChain_cons_cons.mp h.apart).1 (by decide)
  · exact hs

theorem ofText_row {s : String} (h : s = "**" ∨ IsLiteral s) :
    Segment.ofText s.toList = rowSegment s := by
  rcases h with rfl | h
  · decide
  · rw [ofText_literal h, rowSegment, if_neg h.ne_stars]

/-- No segment of a row takes back another one or is dropped. -/
theorem foldl_settleSegment {above row : List String} (h : IsRow (above ++ row)) :
    (row.map String.toList).foldl settleSegment (above.map String.toList) =
      (above ++ row).map String.toList := by
  induction row generalizing above with
  | nil => simp
  | cons s row ih =>
    have hstep : settleSegment (above.map String.toList) s.toList =
        (above ++ [s]).map String.toList := by
      have hname : IsName s := h.isPlace s (by simp)
      rw [settleSegment_eq, List.map_append, List.map_singleton]
      · exact fun heq => hname.ne_dots (String.toList_inj.mp heq)
      · intro heq hlast
        obtain rfl : s = "**" := String.toList_inj.mp heq
        rw [List.getLast?_map, Option.map_eq_some_iff] at hlast
        obtain ⟨t, ht, heq⟩ := hlast
        obtain rfl : t = "**" := String.toList_inj.mp heq
        have hapart := (List.isChain_append.mp h.apart).2.2 "**" ht "**" rfl
        exact absurd hapart (by decide)
    have hmore : IsRow (above ++ [s] ++ row) := by
      rw [List.append_assoc]
      exact h
    rw [List.map_cons, List.foldl_cons, hstep, ih hmore, List.append_assoc, List.singleton_append]

/-- A row is read segment by segment. -/
theorem segmentsOf_row {row : List String} (hne : row ≠ []) (h : IsRow row) :
    segmentsOf (Text.join "/" row).toList = row.map rowSegment := by
  have hsettle := @foldl_settleSegment [] row h
  rw [List.map_nil, List.nil_append] at hsettle
  rw [segmentsOf, cut_names hne h.isPlace, hsettle, if_neg (by simpa using hne), List.map_map]
  exact List.map_congr_left fun s hs => ofText_row (h.segments s hs)

theorem no_brace_row {row : List String} (h : IsRow row) :
    '\x7b' ∉ (Text.join "/" row).toList := by
  rw [Text.mem_toList_join (by decide)]
  rintro ⟨s, hs, hmem⟩
  rcases h.segments s hs with rfl | hs
  · exact absurd hmem (by decide)
  · exact hs.no_special _ (by decide) hmem

theorem toList_row (row : List String) :
    ∃ rest, (Text.join "/" ("**" :: row)).toList = '*' :: rest := by
  cases row with
  | nil => exact ⟨['*'], by decide⟩
  | cons s row =>
    rw [Text.join, ← List.singleton_append, String.intercalate_append_of_ne_nil (by simp) (by simp),
      String.intercalate_singleton, String.append_assoc, String.toList_append]
    exact ⟨_, rfl⟩

/-- A row that starts with a `**` is neither a remark nor negated, and has no alternatives. -/
theorem matchesPattern_row {row : List String} (h : IsRow ("**" :: row))
    (hnarrow : ¬Pattern.maxWidth < Text.width (Text.join "/" ("**" :: row))) {path : String}
    {us : List (List Nat)} (hcut : (cut path.toList).map Text.units = us) :
    matchesPattern path (Text.join "/" ("**" :: row)) =
      .ok (matchSegments (("**" :: row).map rowSegment) us) := by
  have hsegments := segmentsOf_row (List.cons_ne_nil _ _) h
  have hbrace := no_brace_row h
  obtain ⟨rest, hrest⟩ := toList_row row
  generalize Text.join "/" ("**" :: row) = pattern at hnarrow hsegments hbrace hrest ⊢
  have hsome : pattern ≠ "" := by
    rintro rfl
    cases hrest
  have hremark : Text.startsWith pattern "#" = false := by
    rw [Text.startsWith, hrest]
    rfl
  have hmarks : pattern.toList.takeWhile (· == '!') = [] ∧
      pattern.toList.dropWhile (· == '!') = pattern.toList := by
    rw [hrest]
    exact ⟨rfl, rfl⟩
  have hread : Pattern.ofText? pattern = some ⟨false, [("**" :: row).map rowSegment]⟩ := by
    rw [Pattern.ofText?, if_neg hnarrow, hremark, if_neg Bool.false_ne_true, hmarks.1, hmarks.2,
      Pattern.alternativesOf, expand_of_no_brace hbrace, List.map_singleton, hsegments]
    rfl
  rw [matchesPattern, hread]
  show Except.ok (if _ then _ else _) = _
  rw [if_neg hsome, Pattern.accepts, hcut, Bool.bne_false, List.any_cons, List.any_nil,
    Bool.or_false]

theorem matchSegments_deep (p : Segment) (ps : List Segment) (path : List (List Nat)) :
    matchSegments (.anyDepth :: p :: ps) path = (depths path).any (matchSegments (p :: ps)) := rfl

theorem matchSegments_exact (us s : List Nat) (ps : List Segment) (path : List (List Nat)) :
    matchSegments (.exact us :: ps) (s :: path) = (us == s && matchSegments ps path) := rfl

/-- Below names there is something to go on with after each of them but the last. -/
theorem any_depths_names {names : List String} (hnames : IsPlace names)
    {P : List (List Nat) → Bool} :
    (depths (names.map Segment.unitsOf)).any P = true ↔
      ∃ before rest, names = before ++ rest ∧ rest ≠ [] ∧ P (rest.map Segment.unitsOf) = true := by
  rw [List.any_eq_true]
  constructor
  · rintro ⟨us, hmem, hP⟩
    obtain ⟨before, heq, hus, -⟩ := mem_depths.mp hmem
    obtain ⟨first, rest, rfl, -, rfl⟩ := List.map_eq_append_iff.mp heq
    exact ⟨first, rest, rfl, fun hnil => hus (hnil ▸ rfl), hP⟩
  · rintro ⟨before, rest, rfl, hrest, hP⟩
    have hbefore : IsPlace before := fun x hx => hnames x (List.mem_append_left _ hx)
    refine ⟨rest.map Segment.unitsOf, mem_depths.mpr ?_, hP⟩
    exact ⟨before.map Segment.unitsOf, List.map_append, by simpa using hrest,
      Segment.isDots_names hbefore⟩

/-- **Backtracking finds what a row stands for.** -/
theorem matchSegments_row {row names : List String} (h : IsRow row) (hnames : IsPlace names) :
    matchSegments (row.map rowSegment) (names.map Segment.unitsOf) = true ↔ Stands row names := by
  induction row generalizing names with
  | nil =>
    have hempty : names.map Segment.unitsOf ≠ [[]] := by
      intro heq
      obtain ⟨s, hs, hunits⟩ := List.mem_map.mp (heq ▸ List.mem_singleton_self ([] : List Nat))
      exact (hnames s hs).ne_empty (Segment.unitsOf_inj.mp hunits)
    rw [stands_nil, List.map_nil, matchSegments, Bool.or_eq_true, beq_iff_eq, or_iff_left hempty,
      List.isEmpty_iff, List.map_eq_nil_iff]
  | cons s row ih =>
    by_cases hs : s = "**"
    · subst hs
      cases row with
      | nil =>
        rw [stands_stars, List.map_singleton, rowSegment, if_pos rfl, matchSegments_anyDepth, ne_eq,
          List.map_eq_nil_iff, and_iff_left (Segment.isDots_names hnames)]
      | cons t row =>
        rw [stands_deep (List.cons_ne_nil t row), List.map_cons, List.map_cons, rowSegment,
          if_pos rfl, matchSegments_deep, ← List.map_cons, any_depths_names hnames]
        constructor
        · rintro ⟨before, rest, rfl, -, hmatch⟩
          exact ⟨before, rest, rfl, (ih h.tail hnames.of_append_right).mp hmatch⟩
        · rintro ⟨before, rest, rfl, hstands⟩
          have hrest : rest ≠ [] := by
            obtain ⟨_, rfl, -⟩ := (stands_name h.literal_after.ne_stars).mp hstands
            exact List.cons_ne_nil _ _
          exact ⟨before, rest, rfl, hrest, (ih h.tail hnames.of_append_right).mpr hstands⟩
    · rw [stands_name hs, List.map_cons, rowSegment, if_neg hs]
      cases names with
      | nil =>
        constructor
        · intro hmatch
          cases hmatch
        · rintro ⟨rest, hrest, -⟩
          cases hrest
      | cons name names =>
        have hmore : IsPlace names := fun x hx => hnames x (List.mem_cons_of_mem name hx)
        rw [List.map_cons, matchSegments_exact, Bool.and_eq_true, beq_iff_eq, Segment.unitsOf_inj,
          ih h.tail hmore]
        constructor
        · rintro ⟨rfl, hstands⟩
          exact ⟨names, rfl, hstands⟩
        · rintro ⟨rest, heq, hstands⟩
          obtain ⟨rfl, rfl⟩ := List.cons.inj heq
          exact ⟨rfl, hstands⟩

/-- A literal segment does not stand for the empty one of the empty path. -/
theorem matchSegments_row_empty {s : String} {row : List String} (h : IsLiteral s) :
    matchSegments (("**" :: s :: row).map rowSegment) [[]] = false := by
  have hunits : Segment.unitsOf s ≠ [] :=
    fun hempty => h.ne_empty (Segment.unitsOf_inj.mp (hempty.trans rfl : _ = Segment.unitsOf ""))
  have hdepths : depths [[]] = [[[]]] := by decide
  rw [List.map_cons, List.map_cons, rowSegment, if_pos rfl, rowSegment, if_neg h.ne_stars,
    matchSegments_deep, hdepths, List.any_cons, List.any_nil, matchSegments_exact]
  simp [hunits]

theorem exists_matchesPattern {pattern : String} (h : ¬Pattern.maxWidth < Text.width pattern)
    (path : String) : ∃ b, matchesPattern path pattern = .ok b := by
  rw [matchesPattern, Pattern.ofText?, if_neg h]
  split
  · exact ⟨_, rfl⟩
  · rename_i hnone
    split at hnone <;> cases hnone

/-- **Our matcher** has the properties that are documented about one. -/
theorem matchesPattern_laws : Matcher.Laws matchesPattern where
  refuses h path := by rw [matchesPattern, Pattern.ofText?, if_pos h]
  answers h path := exists_matchesPattern h path
  rows := by
    intro row names hne hrow hnames hnarrow
    by_cases hnil : names = []
    · subst hnil
      cases row with
      | nil => exact absurd rfl hne
      | cons s row =>
        have hcut : (cut (Text.join "/" []).toList).map Text.units = [[]] := rfl
        rw [matchesPattern_row hrow hnarrow hcut, matchSegments_row_empty hrow.literal_after]
        refine ⟨nofun, fun hstands => ?_⟩
        obtain ⟨before, rest, heq, hstands⟩ := (stands_deep (List.cons_ne_nil s row)).mp hstands
        obtain ⟨_, rfl, -⟩ := (stands_name hrow.literal_after.ne_stars).mp hstands
        exact absurd heq.symm (List.append_ne_nil_of_right_ne_nil _ (List.cons_ne_nil _ _))
    · have hcut : (cut (Text.join "/" names).toList).map Text.units =
          names.map Segment.unitsOf := by
        rw [cut_names hnil hnames, List.map_map]
        rfl
      rw [matchesPattern_row hrow hnarrow hcut, Except.ok.injEq, matchSegments_row hrow hnames]

/-! ## Segments between two double stars -/

/-- Segments that stand in a row before the last one have something after them. -/
theorem isInfix_dropLast_iff {α : Type} {us path : List α} (hne : us ≠ []) :
    us <:+: path.dropLast ↔ ∃ before after, path = before ++ (us ++ after) ∧ after ≠ [] := by
  constructor
  · rintro ⟨before, rest, heq⟩
    rw [List.append_assoc] at heq
    have hpath : path ≠ [] := by
      rintro rfl
      exact hne (List.append_eq_nil_iff.mp (List.append_eq_nil_iff.mp heq).2).1
    refine ⟨before, rest ++ [path.getLast hpath], ?_, by simp⟩
    rw [← List.append_assoc us, ← List.append_assoc, heq, List.dropLast_append_getLast]
  · rintro ⟨before, after, rfl, hafter⟩
    refine ⟨before, after.dropLast, ?_⟩
    rw [List.dropLast_append_of_ne_nil (List.append_ne_nil_of_right_ne_nil us hafter),
      List.dropLast_append_of_ne_nil hafter, List.append_assoc]

section Within

variable {segments names : List String}

/-- **Segments at any depth.** Between two `**`, our matcher finds literal segments in a path if they
stand in it in a row before the last segment, which may be empty. -/
theorem matchesPattern_within (hne : segments ≠ []) (h : ∀ s ∈ segments, IsLiteral s)
    (hnarrow : ¬Pattern.maxWidth < Text.width (within segments)) {path : String}
    {us : List (List Nat)} (hcut : (cut path.toList).map Text.units = us)
    (hdots : ∀ s ∈ us, Segment.isDots s = false) :
    matchesPattern path (within segments) =
      .ok (decide (segments.map Segment.unitsOf <:+: us.dropLast)) := by
  have hunits : segments.map Segment.unitsOf ≠ [] := by simpa using hne
  have hsegments : ("**" :: (segments ++ ["**"])).map rowSegment =
      .anyDepth :: ((segments.map Segment.unitsOf).map .exact ++ [.anyDepth]) := by
    have hliterals : segments.map rowSegment = (segments.map Segment.unitsOf).map .exact := by
      rw [List.map_map]
      exact List.map_congr_left fun s hs => if_neg (h s hs).ne_stars
    rw [List.map_cons, List.map_append, hliterals]
    rfl
  rw [within, matchesPattern_row (isRow_within hne h) hnarrow hcut, hsegments, Except.ok.injEq,
    Bool.eq_iff_iff, matchSegments_within _ _ hdots, ← isInfix_dropLast_iff hunits,
    decide_eq_true_iff]

/-- The same for the paths of names, with any matcher that has the properties of one. -/
theorem Matcher.Laws.within {matcher : Matcher} (hm : matcher.Laws) (hne : segments ≠ [])
    (h : ∀ s ∈ segments, IsLiteral s)
    (hnarrow : ¬Pattern.maxWidth < Text.width (Glob.within segments)) (hnames : IsPlace names) :
    matcher (Text.join "/" names) (Glob.within segments) =
      .ok (decide (segments <:+: names.dropLast)) := by
  obtain ⟨b, hb⟩ := hm.answers hnarrow (Text.join "/" names)
  have hrows := hm.rows (List.append_ne_nil_of_right_ne_nil segments (List.cons_ne_nil _ _))
    (isRow_within hne h) hnames hnarrow
  rw [← Glob.within, hb, Except.ok.injEq, stands_within h, ← isInfix_dropLast_iff hne] at hrows
  rw [hb, Except.ok.injEq, Bool.eq_iff_iff, decide_eq_true_iff, hrows]

theorem within_eq (hne : segments ≠ []) :
    within segments = "**/" ++ Text.join "/" segments ++ "/" ++ "**" := by
  rw [within, Text.join, Text.join, ← List.singleton_append,
    String.intercalate_append_of_ne_nil (by simp) (by simp),
    String.intercalate_append_of_ne_nil hne (by simp), String.intercalate_singleton]
  simp only [← String.append_assoc]
  rfl

/-! ## Directory patterns -/

theorem not_startsWith_stars (h : ∀ s ∈ segments, IsLiteral s) :
    Text.startsWith (Text.join "/" segments ++ "/") "**/" = false := by
  rw [← Bool.not_eq_true, Text.startsWith, List.isPrefixOf_iff_prefix]
  intro hstarts
  have hmem : '*' ∈ (Text.join "/" segments ++ "/").toList := hstarts.subset List.mem_cons_self
  rw [String.toList_append, List.mem_append, Text.mem_toList_join (by decide)] at hmem
  rcases hmem with ⟨s, hs, hstar⟩ | hslash
  · exact (h s hs).no_special '*' (by decide) hstar
  · exact absurd hslash (by decide)

/-- A directory pattern, with or without a `**` in front, leaves out what is within its segments. -/
theorem exclusion_directory (hne : segments ≠ []) (h : ∀ s ∈ segments, IsLiteral s) {depth : String}
    (hdepth : depth = "" ∨ depth = "**/") :
    exclusion (depth ++ Text.join "/" segments ++ "/") = within segments := by
  have hends : Text.endsWith (depth ++ Text.join "/" segments ++ "/") "/" = true := by
    rw [Text.endsWith, String.toList_append, List.isSuffixOf_iff_suffix]
    exact List.suffix_append _ _
  rw [exclusion, if_pos hends, within_eq hne]
  rcases hdepth with rfl | rfl
  · rw [String.empty_append, not_startsWith_stars h, if_neg Bool.false_ne_true,
      ← String.append_assoc]
  · have hstars : Text.startsWith ("**/" ++ Text.join "/" segments ++ "/") "**/" = true := by
      rw [Text.startsWith, List.isPrefixOf_iff_prefix, String.append_assoc, String.toList_append]
      exact List.prefix_append _ _
    rw [hstars, if_pos rfl]

theorem withoutDot_dot (path : String) : withoutDot ("./" ++ path) = path := by
  rw [withoutDot, String.toList_append]
  exact String.ofList_toList

end Within

/-- **Directories are left out at any depth.** Take a directory pattern of literal segments, with or
without a `**` in front, and a path of names, hidden ones included, with or without a `./` in front.
The exclusion of the pattern matches the path exactly if the segments stand in it in a row that does
not take in the last name; only if it is wider than patterns may be, it is refused. -/
theorem directories_left_out {matcher : Matcher} (hm : matcher.Laws) {segments names : List String}
    {depth dot : String} (hne : segments ≠ []) (hsegments : ∀ s ∈ segments, IsLiteral s)
    (hnames : IsPlace names) (hdepth : depth = "" ∨ depth = "**/")
    (hdot : dot = "" ∨ dot = "./") :
    matchesAny (dot ++ Text.join "/" names) [exclusion (depth ++ Text.join "/" segments ++ "/")]
        matcher =
      if Pattern.maxWidth < Text.width (exclusion (depth ++ Text.join "/" segments ++ "/")) then
        .error tooLong
      else .ok (decide (segments <:+: names.dropLast)) := by
  have hpath : withoutDot (dot ++ Text.join "/" names) = Text.join "/" names := by
    rcases hdot with rfl | rfl
    · rw [String.empty_append, withoutDot_names hnames]
    · exact withoutDot_dot _
  rw [matchesAny, hpath, exclusion_directory hne hsegments hdepth, matchesSome]
  by_cases hwide : Pattern.maxWidth < Text.width (within segments)
  · rw [hm.refuses hwide, if_pos hwide]
  · rw [hm.within hne hsegments hwide hnames, if_neg hwide]
    cases decide (segments <:+: names.dropLast) <;> rfl

namespace Sample

/-- A name that is too wide for a pattern. -/
def longName : String := String.ofList (List.replicate 65531 'a')

theorem toList_longName : longName.toList = List.replicate 65531 'a' := String.toList_ofList

theorem eq_of_mem_longName {c : Char} (h : c ∈ longName.toList) : c = 'a' := by
  rw [toList_longName] at h
  exact List.eq_of_mem_replicate h

theorem isLiteral_longName : IsLiteral longName := by
  have hne : ∀ s : String, s.length ≠ 65531 → longName ≠ s := by
    rintro s hlength rfl
    rw [← String.length_toList, toList_longName, List.length_replicate] at hlength
    exact hlength rfl
  refine ⟨⟨hne "" (by decide), hne "." (by decide), hne ".." (by decide), fun h => ?_⟩,
    fun c hc hmem => ?_, fun c _ hgroup => ?_⟩
  · exact absurd (eq_of_mem_longName h) (by decide)
  · rw [eq_of_mem_longName hmem] at hc
    exact absurd hc (by decide)
  · exact absurd (eq_of_mem_longName (hgroup.subset (by simp : '(' ∈ [c, '(']))) (by decide)

theorem width_longName : Pattern.maxWidth < Text.width (exclusion (longName ++ "/")) := by
  have hne : [longName] ≠ [] := List.cons_ne_nil _ _
  have hexclusion : exclusion (longName ++ "/") = "**/" ++ longName ++ "/" ++ "**" := by
    have hdirectory := exclusion_directory hne
      (List.forall_mem_singleton.mpr isLiteral_longName) (.inl rfl)
    rwa [within_eq hne, Text.join, String.intercalate_singleton, String.empty_append] at hdirectory
  rw [hexclusion, Text.width]
  simp only [String.toList_append, Text.units_append, List.length_append, toList_longName,
    Text.units_replicate (show 'a'.toNat < 0x10000 by decide), List.length_replicate]
  decide

end Sample

/-- The directory is found below another one, with hidden names after it, but not at the end of a
path, and not by a longer name. -/
theorem directories_left_out_gen :
    Matcher.Laws matchesPattern ∧
      matchesAny ("./" ++ Text.join "/" ["app", "src", "gen", ".cache", "A.java"])
        [exclusion ("" ++ Text.join "/" ["src", "gen"] ++ "/")] = .ok true ∧
      matchesAny ("" ++ Text.join "/" ["app", "src", "gen"])
        [exclusion ("**/" ++ Text.join "/" ["src", "gen"] ++ "/")] = .ok false ∧
      matchesAny ("" ++ Text.join "/" ["src", "gens", "A.java"])
        [exclusion ("**/" ++ Text.join "/" ["src", "gen"] ++ "/")] = .ok false := by
  have hne : ["src", "gen"] ≠ [] := by decide
  have hliteral : ∀ s ∈ ["src", "gen"], IsLiteral s := by decide
  refine ⟨matchesPattern_laws, ?_, ?_, ?_⟩
  · rw [directories_left_out matchesPattern_laws hne hliteral (by decide) (.inl rfl) (.inr rfl)]
    decide
  · rw [directories_left_out matchesPattern_laws hne hliteral (by decide) (.inr rfl) (.inl rfl)]
    decide
  · rw [directories_left_out matchesPattern_laws hne hliteral (by decide) (.inr rfl) (.inl rfl)]
    decide

open Sample in
/-- The file lies in the directory, and yet the pattern does not match it: it cannot be asked. -/
theorem long_directory_refused :
    IsLiteral longName ∧ IsPlace [longName, "A.java"] ∧
      [longName] <:+: [longName, "A.java"].dropLast ∧
      matchesAny (Text.join "/" [longName, "A.java"]) [exclusion (longName ++ "/")] =
        .error tooLong := by
  have hplace : IsPlace [longName, "A.java"] :=
    List.forall_mem_cons.mpr ⟨isLiteral_longName.toIsName, by decide⟩
  refine ⟨isLiteral_longName, hplace, List.infix_rfl, ?_⟩
  rw [matchesAny, withoutDot_names hplace, matchesSome, matchesPattern_laws.refuses width_longName]

end Glob

end ClassCohesion
