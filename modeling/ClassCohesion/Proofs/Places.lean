import Mathlib.Data.List.Basic
import Mathlib.Data.List.Induction
import ClassCohesion.Path.Basic
import ClassCohesion.Path.Name

/-!
# Places and the paths to them

The place that a path denotes is a list of names, and every list of names is the place of the path
that `render` writes for it. Names hold no slash, so a text of names joined by slashes is cut into
the same names again; with backslashes exchanged for slashes it may be cut into more.

- `segments_render`: the path to a place leads there.
- `follow_relative`: the way from one place to another leads there.
- `follow_exchanged_iff`: with backslashes taken for slashes, a way leads to the same place exactly
  if it has none.
-/

namespace ClassCohesion

namespace Text

/-! ## Cutting and joining -/

theorem pieces_eq_splitOn (sep : Char) (cs : List Char) : pieces sep cs = cs.splitOn sep := by
  induction cs with
  | nil => rfl
  | cons c cs ih =>
    have hcut : (c :: cs).splitOn sep =
        if c == sep then [] :: cs.splitOn sep else (cs.splitOn sep).modifyHead (c :: ·) :=
      List.splitOnP_cons_eq_if_modifyHead c cs
    rw [hcut, ← ih, pieces]
    by_cases h : c = sep
    · simp [h]
    · rw [if_neg h, if_neg (by simpa using h)]
      cases hps : pieces sep cs with
      | nil => exact absurd hps (pieces_ne_nil sep cs)
      | cons p ps => rfl

theorem pieces_append_sep (sep : Char) (a b : List Char) :
    pieces sep (a ++ sep :: b) = pieces sep a ++ pieces sep b := by
  simp only [pieces_eq_splitOn]
  exact List.splitOnP_append_cons a b (beq_self_eq_true sep)

theorem pieces_intercalate {sep : Char} {ps : List (List Char)} (hne : ps ≠ [])
    (h : ∀ p ∈ ps, sep ∉ p) : pieces sep ([sep].intercalate ps) = ps := by
  rw [pieces_eq_splitOn]
  exact List.splitOn_intercalate sep h hne

theorem intercalate_pieces (sep : Char) (cs : List Char) :
    [sep].intercalate (pieces sep cs) = cs := by
  rw [pieces_eq_splitOn]
  exact List.intercalate_splitOn sep

theorem not_mem_of_mem_pieces {sep : Char} {p : List Char} :
    ∀ {cs : List Char}, p ∈ pieces sep cs → sep ∉ p
  | [], h => by
    rw [pieces_nil, List.mem_singleton] at h
    subst h
    exact List.not_mem_nil
  | c :: cs, h => by
    rw [pieces] at h
    by_cases hc : c = sep
    · rw [if_pos hc, List.mem_cons] at h
      rcases h with rfl | h
      · exact List.not_mem_nil
      · exact not_mem_of_mem_pieces h
    · rw [if_neg hc] at h
      cases hps : pieces sep cs with
      | nil => exact absurd hps (pieces_ne_nil sep cs)
      | cons q qs =>
        rw [hps] at h
        have hold : ∀ q' ∈ q :: qs, sep ∉ q' := by
          intro q' hq'
          rw [← hps] at hq'
          exact not_mem_of_mem_pieces hq'
        rcases List.mem_cons.mp h with rfl | h
        · simpa [Ne.symm hc] using hold q List.mem_cons_self
        · exact hold p (List.mem_cons_of_mem q h)

theorem toList_join (names : List String) :
    (join "/" names).toList = ['/'].intercalate (names.map String.toList) :=
  String.toList_intercalate

theorem split_ne_nil (sep : Char) (s : String) : split sep s ≠ [] := by
  rw [split, ne_eq, List.map_eq_nil_iff]
  exact pieces_ne_nil sep s.toList

theorem not_mem_of_mem_split {sep : Char} {s part : String} (h : part ∈ split sep s) :
    sep ∉ part.toList := by
  obtain ⟨p, hp, rfl⟩ := List.mem_map.mp h
  rw [String.toList_ofList]
  exact not_mem_of_mem_pieces hp

theorem split_append_slash (a b : String) :
    split '/' (a ++ "/" ++ b) = split '/' a ++ split '/' b := by
  have hlist : (a ++ "/" ++ b).toList = a.toList ++ '/' :: b.toList := by
    rw [String.append_assoc, String.toList_append, String.toList_append]
    rfl
  rw [split, hlist, pieces_append_sep, List.map_append]
  rfl

theorem join_split (s : String) : join "/" (split '/' s) = s := by
  rw [← String.toList_inj, toList_join, split, List.map_map]
  have hid : String.toList ∘ String.ofList = id := funext fun _ => String.toList_ofList
  rw [hid, List.map_id, intercalate_pieces]

theorem split_join {names : List String} (hne : names ≠ []) (h : ∀ s ∈ names, '/' ∉ s.toList) :
    split '/' (join "/" names) = names := by
  rw [split, toList_join, pieces_intercalate]
  · rw [List.map_map]
    have hid : String.ofList ∘ String.toList = id := funext fun _ => String.ofList_toList
    rw [hid, List.map_id]
  · simpa using hne
  · intro p hp
    obtain ⟨s, hs, rfl⟩ := List.mem_map.mp hp
    exact h s hs

/-- Joining adds nothing but separators. -/
theorem mem_toList_join {c : Char} {sep : String} (hc : c ∉ sep.toList) (ss : List String) :
    c ∈ (join sep ss).toList ↔ ∃ s ∈ ss, c ∈ s.toList := by
  induction ss with
  | nil => simp [join]
  | cons s ss ih =>
    cases ss with
    | nil => simp [join]
    | cons t ss =>
      rw [join, String.intercalate_cons_cons, String.toList_append, String.toList_append,
        List.mem_append, List.mem_append, or_iff_left hc, List.exists_mem_cons_iff]
      exact or_congr_right ih

/-- The last piece of a text stands at its end. -/
theorem getLast_split_suffix {s last : String} (h : (split '/' s).getLast? = some last) :
    last.toList <:+ s.toList := by
  obtain ⟨front, hfront⟩ := List.getLast?_eq_some_iff.mp h
  have hs := join_split s
  rw [hfront] at hs
  rw [← hs]
  cases front with
  | nil =>
    refine ⟨[], ?_⟩
    rw [List.nil_append, List.nil_append, join, String.intercalate_singleton]
  | cons first front =>
    rw [join, String.intercalate_append_of_ne_nil (List.cons_ne_nil _ _) (List.cons_ne_nil _ _),
      String.intercalate_singleton, String.toList_append]
    exact List.suffix_append _ _

/-! ## Backslashes for slashes -/

theorem exchange_eq_self {old new : Char} {s : String} (h : old ∉ s.toList) :
    exchange old new s = s := by
  have hmap : s.toList.map (fun c => if c = old then new else c) = s.toList := by
    refine (List.map_congr_left fun c hc => if_neg ?_).trans (List.map_id _)
    rintro rfl
    exact h hc
  rw [exchange, hmap, String.ofList_toList]

theorem not_mem_exchange (old new : Char) (hne : new ≠ old) (s : String) :
    old ∉ (exchange old new s).toList := by
  rw [exchange, String.toList_ofList]
  intro h
  obtain ⟨c, -, hc⟩ := List.mem_map.mp h
  by_cases heq : c = old
  · rw [if_pos heq] at hc
    exact hne hc
  · rw [if_neg heq] at hc
    exact heq hc

theorem exchange_append (old new : Char) (a b : String) :
    exchange old new (a ++ b) = exchange old new a ++ exchange old new b := by
  simp only [exchange, String.toList_append, List.map_append, String.ofList_append]

/-- A slash stays a slash, so each of the names is cut on its own. -/
theorem split_exchange_join {names : List String} (hne : names ≠ []) :
    split '/' (exchange '\\' '/' (join "/" names)) =
      names.flatMap fun s => split '/' (exchange '\\' '/' s) := by
  induction names with
  | nil => exact absurd rfl hne
  | cons s names ih =>
    cases names with
    | nil => simp [join]
    | cons t names =>
      rw [join, String.intercalate_cons_cons, exchange_append, exchange_append]
      have hslash : exchange '\\' '/' "/" = "/" := by decide
      rw [hslash, split_append_slash]
      exact congrArg _ (ih (List.cons_ne_nil _ _))

end Text

namespace Path

/-! ## Names and places -/

/-- What a directory or a file can be called. -/
structure IsName (s : String) : Prop where
  ne_empty : s ≠ ""
  ne_dot : s ≠ "."
  ne_dots : s ≠ ".."
  no_slash : '/' ∉ s.toList

instance : DecidablePred IsName := fun s =>
  decidable_of_iff (s ≠ "" ∧ s ≠ "." ∧ s ≠ ".." ∧ '/' ∉ s.toList)
    ⟨fun ⟨h₁, h₂, h₃, h₄⟩ => ⟨h₁, h₂, h₃, h₄⟩, fun h => ⟨h.1, h.2, h.3, h.4⟩⟩

/-- A place is a list of names. -/
def IsPlace (place : List String) : Prop := ∀ s ∈ place, IsName s

instance : DecidablePred IsPlace := fun place =>
  inferInstanceAs (Decidable (∀ s ∈ place, IsName s))

theorem IsPlace.append {a b : List String} (ha : IsPlace a) (hb : IsPlace b) :
    IsPlace (a ++ b) := by
  intro s hs
  rcases List.mem_append.mp hs with hs | hs
  · exact ha s hs
  · exact hb s hs

theorem IsPlace.of_append_right {a b : List String} (h : IsPlace (a ++ b)) : IsPlace b :=
  fun s hs => h s (List.mem_append_right a hs)

theorem enter_name {above : List String} {s : String} (h : IsName s) :
    enter above s = above ++ [s] := by
  rw [enter, if_neg, if_neg h.ne_dots]
  rintro (hs | hs)
  · exact h.ne_empty hs
  · exact h.ne_dot hs

theorem follow_append (start a b : List String) :
    follow start (a ++ b) = follow (follow start a) b :=
  List.foldl_append

theorem follow_names {names : List String} (h : IsPlace names) (start : List String) :
    follow start names = start ++ names := by
  induction names generalizing start with
  | nil => simp
  | cons s names ih =>
    rw [follow_cons, enter_name (h s List.mem_cons_self),
      ih fun t ht => h t (List.mem_cons_of_mem s ht)]
    simp

/-- A row of double dots leads up by its length. -/
theorem follow_dots (p up : List String) : follow (p ++ up) (up.map fun _ => "..") = p := by
  induction up using List.reverseRecOn with
  | nil => simp
  | append_singleton up s ih =>
    have hrow : ((up ++ [s]).map fun _ => "..") = ".." :: up.map fun _ => ".." := by
      rw [List.map_append, List.map_const', List.map_const']
      exact (List.replicate_succ' ..).symm
    have hstep : enter (p ++ (up ++ [s])) ".." = p ++ up := by
      rw [← List.append_assoc]
      exact List.dropLast_concat
    rw [hrow, follow_cons, hstep, ih]

/-- Following goes back to a beginning of where it started, and from there on by what it follows. -/
theorem exists_follow (start ss : List String) :
    ∃ kept new, follow start ss = kept ++ new ∧ kept <+: start ∧ ∀ s ∈ new, s ∈ ss := by
  induction ss using List.reverseRecOn with
  | nil => exact ⟨start, [], by simp, List.prefix_rfl, by simp⟩
  | append_singleton ss s ih =>
    obtain ⟨kept, new, heq, hkept, hnew⟩ := ih
    have hold : ∀ t ∈ new, t ∈ ss ++ [s] := fun t ht => List.mem_append_left _ (hnew t ht)
    rw [follow_append, heq, follow_cons, follow_nil, enter]
    split
    · exact ⟨kept, new, rfl, hkept, hold⟩
    · split
      · -- a double dot takes back the last new segment, or the last one kept
        rcases List.eq_nil_or_concat new with rfl | ⟨new, t, rfl⟩
        · refine ⟨kept.dropLast, [], by simp, ?_, by simp⟩
          exact (List.dropLast_prefix kept).trans hkept
        · refine ⟨kept, new, by simp [← List.append_assoc], hkept, ?_⟩
          intro u hu
          exact hold u (by simp [hu])
      · refine ⟨kept, new ++ [s], by simp, hkept, ?_⟩
        intro t ht
        rcases List.mem_append.mp ht with ht | ht
        · exact hold t ht
        · exact List.mem_append_right _ ht

theorem isPlace_follow {start ss : List String} (hstart : IsPlace start)
    (hss : ∀ s ∈ ss, '/' ∉ s.toList) : IsPlace (follow start ss) := by
  induction ss generalizing start with
  | nil => exact hstart
  | cons s ss ih =>
    rw [follow_cons]
    apply ih _ fun t ht => hss t (List.mem_cons_of_mem s ht)
    rw [enter]
    split
    · exact hstart
    · rename_i hsame
      rw [not_or] at hsame
      split
      · intro t ht
        exact hstart t (List.dropLast_subset start ht)
      · rename_i hup
        apply hstart.append
        intro t ht
        rw [List.mem_singleton] at ht
        subst ht
        exact ⟨hsame.1, hsame.2, hup, hss t List.mem_cons_self⟩

theorem isPlace_segments (host : Host) (path : String) : IsPlace (segments host path) := by
  apply isPlace_follow
  · split
    · exact nofun
    · exact isPlace_follow nofun fun _ hs => Text.not_mem_of_mem_split hs
  · exact fun _ hs => Text.not_mem_of_mem_split hs

/-! ## Absolute paths -/

theorem isAbsolute_iff {path : String} : isAbsolute path = true ↔ ∃ rest, path = "/" ++ rest := by
  rw [isAbsolute, Text.startsWith, List.isPrefixOf_iff_prefix]
  constructor
  · rintro ⟨cs, hcs⟩
    refine ⟨String.ofList cs, ?_⟩
    rw [← String.toList_inj, String.toList_append, ← hcs]
    exact congrArg _ String.toList_ofList.symm
  · rintro ⟨rest, rfl⟩
    rw [String.toList_append]
    exact List.prefix_append _ _

theorem isAbsolute_append {path : String} (h : isAbsolute path = true) (rest : String) :
    isAbsolute (path ++ rest) = true := by
  obtain ⟨tail, rfl⟩ := isAbsolute_iff.mp h
  exact isAbsolute_iff.mpr ⟨tail ++ rest, String.append_assoc ..⟩

theorem isAbsolute_render (place : List String) : isAbsolute (render place) = true :=
  isAbsolute_iff.mpr ⟨Text.join "/" place, rfl⟩

theorem segments_of_isAbsolute {path : String} (h : isAbsolute path = true) (host : Host) :
    segments host path = follow [] (Text.split '/' path) := by
  rw [segments, if_pos h]

/-- Where a path leads that goes on after a slash. -/
theorem segments_append_slash {root : String} (h : isAbsolute root = true) (host : Host)
    (path : String) :
    segments host (root ++ "/" ++ path) = follow (segments host root) (Text.split '/' path) := by
  have habs : isAbsolute (root ++ "/" ++ path) = true :=
    isAbsolute_append (isAbsolute_append h "/") path
  rw [segments_of_isAbsolute habs, segments_of_isAbsolute h, Text.split_append_slash,
    follow_append]

/-- Following the pieces of names joined by slashes is following the names. -/
theorem follow_split_join {names : List String} (h : ∀ s ∈ names, '/' ∉ s.toList)
    (start : List String) : follow start (Text.split '/' (Text.join "/" names)) =
      follow start names := by
  cases names with
  | nil =>
    have hempty : Text.split '/' (Text.join "/" []) = [""] := by decide
    rw [hempty]
    rfl
  | cons s names => rw [Text.split_join (List.cons_ne_nil s names) h]

theorem split_render (place : List String) :
    Text.split '/' (render place) = "" :: Text.split '/' (Text.join "/" place) := by
  have hsplit := Text.split_append_slash "" (Text.join "/" place)
  rw [String.empty_append] at hsplit
  exact hsplit

/-- **The path to a place leads there.** -/
theorem segments_render {place : List String} (h : IsPlace place) (host : Host) :
    segments host (render place) = place := by
  rw [segments_of_isAbsolute (isAbsolute_render place), split_render, follow_cons]
  show follow [] _ = _
  rw [follow_split_join fun s hs => (h s hs).no_slash, follow_names h, List.nil_append]

theorem render_inj {a b : List String} (ha : IsPlace a) (hb : IsPlace b)
    (h : render a = render b) : a = b := by
  have host : Host := ⟨"", ""⟩
  rw [← segments_render ha host, h, segments_render hb host]

/-- From a base, a relative path leads to where following it leads. -/
theorem normalize_toAbsolute (host : Host) (path base : String) :
    normalize host (toAbsolute host path base) =
      render (follow (segments host base) (Text.split '/' path)) := by
  have hplace : IsPlace (follow (segments host base) (Text.split '/' path)) :=
    isPlace_follow (isPlace_segments host base) fun _ hs => Text.not_mem_of_mem_split hs
  rw [normalize, toAbsolute]
  split
  · -- a slash at the end adds an empty piece, which leads nowhere
    have hslash := segments_append_slash (isAbsolute_render
      (follow (segments host base) (Text.split '/' path))) host ""
    rw [String.append_empty] at hslash
    rw [hslash, segments_render hplace]
    rfl
  · rw [segments_render hplace]

/-! ## The way from one place to another -/

theorem exists_stripShared (a b : List String) :
    ∃ p, a = p ++ (stripShared a b).1 ∧ b = p ++ (stripShared a b).2 := by
  fun_induction stripShared a b with
  | case1 as b bs ih =>
    obtain ⟨p, ha, hb⟩ := ih
    exact ⟨b :: p, congrArg (b :: ·) ha, congrArg (b :: ·) hb⟩
  | case2 => exact ⟨[], rfl, rfl⟩
  | case3 => exact ⟨[], rfl, rfl⟩

theorem stripShared_append (p a b : List String) :
    stripShared (p ++ a) (p ++ b) = stripShared a b := by
  induction p with
  | nil => rfl
  | cons s p ih => rw [List.cons_append, List.cons_append, stripShared, if_pos rfl, ih]

/-- What two places have in common does not matter for the way between them. -/
theorem relative_append (p a b : List String) : relative (p ++ a) (p ++ b) = relative a b := by
  rw [relative, relative, stripShared_append]

theorem relative_self_append (base way : List String) : relative base (base ++ way) = way := by
  have h := relative_append base [] way
  rw [List.append_nil] at h
  rw [h]
  cases way <;> rfl

/-- A way goes up by double dots and then down by the names that its end has after a common
beginning. -/
theorem exists_relative (base target : List String) :
    ∃ p up down, base = p ++ up ∧ target = p ++ down ∧
      relative base target = up.map (fun _ => "..") ++ down := by
  obtain ⟨p, hbase, htarget⟩ := exists_stripShared base target
  exact ⟨p, _, _, hbase, htarget, rfl⟩

theorem mem_relative {base target : List String} {s : String} (h : s ∈ relative base target) :
    s = ".." ∨ s ∈ target := by
  obtain ⟨p, up, down, -, rfl, hway⟩ := exists_relative base target
  rw [hway, List.mem_append] at h
  rcases h with h | h
  · obtain ⟨_, -, rfl⟩ := List.mem_map.mp h
    exact .inl rfl
  · exact .inr (List.mem_append_right p h)

theorem relative_no_slash {base target : List String} (h : IsPlace target) :
    ∀ s ∈ relative base target, '/' ∉ s.toList := by
  intro s hs
  rcases mem_relative hs with rfl | hs
  · decide
  · exact (h s hs).no_slash

/-- **The way to a place leads there.** -/
theorem follow_relative {base target : List String} (h : IsPlace target) :
    follow base (relative base target) = target := by
  obtain ⟨p, up, down, rfl, rfl, hway⟩ := exists_relative base target
  rw [hway, follow_append, follow_dots, follow_names h.of_append_right]

/-- A text without backslashes. -/
def Unslashed (s : String) : Prop := '\\' ∉ s.toList

instance : DecidablePred Unslashed := fun s => inferInstanceAs (Decidable ('\\' ∉ s.toList))

theorem exchange_join_of_unslashed {names : List String} (h : ∀ s ∈ names, Unslashed s) :
    Text.exchange '\\' '/' (Text.join "/" names) = Text.join "/" names := by
  apply Text.exchange_eq_self
  rw [Text.mem_toList_join (by decide)]
  rintro ⟨s, hs, hback⟩
  exact h s hs hback

/-- **Backslashes lead astray.** With backslashes taken for slashes, the way to a place leads there
exactly if it has none. -/
theorem follow_exchanged_iff {base target : List String} (h : IsPlace target) :
    follow base (Text.split '/' (Text.exchange '\\' '/'
        (Text.join "/" (relative base target)))) = target ↔
      ∀ s ∈ relative base target, Unslashed s := by
  constructor
  · intro heq
    obtain ⟨p, up, down, rfl, rfl, hway⟩ := exists_relative base target
    rw [hway] at heq ⊢
    intro s hs
    rcases List.mem_append.mp hs with hs | hs
    · obtain ⟨_, -, rfl⟩ := List.mem_map.mp hs
      show '\\' ∉ _
      decide
    · have hne : up.map (fun _ => "..") ++ down ≠ [] :=
        List.append_ne_nil_of_right_ne_nil _ (List.ne_nil_of_mem hs)
      have hdots : (up.map fun _ => "..").flatMap
          (fun s => Text.split '/' (Text.exchange '\\' '/' s)) = up.map fun _ => ".." := by
        have hone : Text.split '/' (Text.exchange '\\' '/' "..") = [".."] := by decide
        simp only [List.flatMap_map, hone]
        exact List.map_eq_flatMap.symm
      rw [Text.split_exchange_join hne, List.flatMap_append, hdots, follow_append,
        follow_dots] at heq
      -- below the common beginning there are only pieces in which no backslash is left
      obtain ⟨kept, new, hfollow, ⟨rest, rfl⟩, hnew⟩ := exists_follow p
        (down.flatMap fun s => Text.split '/' (Text.exchange '\\' '/' s))
      rw [hfollow, List.append_assoc, List.append_cancel_left_eq] at heq
      obtain ⟨t, -, ht⟩ := List.mem_flatMap.mp
        (hnew s (heq ▸ List.mem_append_right rest hs))
      intro hback
      apply Text.not_mem_exchange '\\' '/' (by decide) t
      rw [← Text.join_split (Text.exchange '\\' '/' t), Text.mem_toList_join (by decide)]
      exact ⟨s, ht, hback⟩
  · intro hplain
    rw [exchange_join_of_unslashed hplain, follow_split_join (relative_no_slash h),
      follow_relative h]

end Path

end ClassCohesion
