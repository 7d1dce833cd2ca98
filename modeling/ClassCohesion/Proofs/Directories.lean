import ClassCohesion.Proofs.Checkouts

/-!
# Directories and what they hold

A directory holds what its names lead to first: its place is a prefix of every place in it. Places
under the prefix order have meets, and the deepest common directory of files is the meet of the
directories that the files are in. On texts, `names` reads a place off a path in normal form.

A text in normal form goes on with a slash exactly below it, the root apart: there the slash is part
of the text already, so no path goes on with a second one.

- `render_slash_isPrefix_iff`: which texts go on below which.
- `isWithin_iff_names_isPrefix`: which paths are taken to be within a directory.
- `isPrefix_foldl_shared_iff`: what places begin with in common is a meet.
- `commonDirectory_isGreatest`: the deepest common directory of files.
-/

namespace ClassCohesion.Path

variable {host : Host} {place a b : List String}

/-! ## The names of a path -/

/-- The names in a path. The root has none. -/
def names (path : String) : List String := (Text.split '/' path).filter (· ≠ "")

theorem names_append_slash (a b : String) : names (a ++ "/" ++ b) = names a ++ names b := by
  rw [names, Text.split_append_slash, List.filter_append]
  rfl

theorem split_render_of_ne_nil (h : IsPlace place) (hne : place ≠ []) :
    Text.split '/' (render place) = "" :: place := by
  rw [split_render, Text.split_join hne fun s hs => (h s hs).no_slash]

theorem names_render (h : IsPlace place) : names (render place) = place := by
  by_cases hne : place = []
  · subst hne
    decide
  · have hkept : place.filter (· ≠ "") = place := by
      rw [List.filter_eq_self]
      intro s hs
      simpa using (h s hs).ne_empty
    rw [names, split_render_of_ne_nil h hne, List.filter_cons_of_neg (by simp), hkept]

/-- The names of the normal form of a path are the place that the path denotes. -/
@[simp] theorem names_normalize (host : Host) (path : String) :
    names (normalize host path) = segments host path :=
  names_render (isPlace_segments host path)

theorem isPlace_nil : IsPlace [] := List.forall_mem_nil _

theorem normalize_eq_root_iff {path : String} :
    normalize host path = "/" ↔ segments host path = [] := by
  have hroot : render [] = "/" := by decide
  rw [normalize, ← hroot]
  exact ⟨render_inj (isPlace_segments host path) isPlace_nil, congrArg render⟩

/-! ## Texts that go on -/

theorem render_append (ha : a ≠ []) (hb : b ≠ []) :
    render (a ++ b) = render a ++ "/" ++ Text.join "/" b := by
  rw [render, render, Text.join, String.intercalate_append_of_ne_nil ha hb]
  simp only [String.append_assoc]
  rfl

/-- The path to a place goes on with a slash exactly in the paths to the places below it, but the
path to the root never does. -/
theorem render_slash_isPrefix_iff (ha : IsPlace a) (hb : IsPlace b) :
    Text.startsWith (render b) (render a ++ "/") = true ↔ a ≠ [] ∧ a <+: b ∧ a ≠ b := by
  rw [Text.startsWith, List.isPrefixOf_iff_prefix]
  constructor
  · rintro ⟨rest, hrest⟩
    have htext : render b = render a ++ "/" ++ String.ofList rest := by
      rw [← String.toList_inj, String.toList_append, String.toList_ofList, hrest]
    have hnames : b = a ++ names (String.ofList rest) := by
      rw [← names_render ha, ← names_append_slash, ← htext, names_render hb]
    have hne : a ≠ b := by
      rintro rfl
      have hlength := congrArg List.length hrest
      simp at hlength
    refine ⟨?_, ⟨_, hnames.symm⟩, hne⟩
    rintro rfl
    -- behind the slash of the root there would be an empty name
    have hcut : Text.split '/' (render b) = "" :: "" :: Text.split '/' (String.ofList rest) := by
      rw [htext, Text.split_append_slash]
      rfl
    rw [split_render_of_ne_nil hb hne.symm] at hcut
    have hempty : "" ∈ b := by
      rw [(List.cons.inj hcut).2]
      exact List.mem_cons_self
    exact (hb "" hempty).ne_empty rfl
  · rintro ⟨hnil, ⟨more, rfl⟩, hne⟩
    have hmore : more ≠ [] := by
      rintro rfl
      exact hne (List.append_nil a).symm
    rw [render_append hnil hmore]
    exact ⟨(Text.join "/" more).toList, String.toList_append.symm⟩

/-- Which paths are taken to be within a directory. -/
theorem isWithin_iff_isPrefix {target directory : String} :
    isWithin host target directory = true ↔
      segments host directory <+: segments host target ∧
        (segments host directory = [] → segments host target = []) := by
  have ht := isPlace_segments host target
  have hd := isPlace_segments host directory
  rw [isWithin, Bool.or_eq_true, beq_iff_eq]
  unfold normalize
  rw [render_slash_isPrefix_iff hd ht]
  generalize segments host target = t at ht ⊢
  generalize segments host directory = d at hd ⊢
  constructor
  · rintro (heq | ⟨hne, hbegins, -⟩)
    · rw [render_inj ht hd heq]
      exact ⟨List.prefix_rfl, id⟩
    · exact ⟨hbegins, fun hnil => absurd hnil hne⟩
  · rintro ⟨hbelow, hroot⟩
    by_cases heq : d = t
    · exact .inl (congrArg render heq.symm)
    · refine .inr ⟨fun hnil => heq ?_, hbelow, heq⟩
      rw [hnil, hroot hnil]

/-! ## Ways without double dots -/

theorem isPrefix_follow {ss : List String} (h : ".." ∉ ss) (start : List String) :
    start <+: follow start ss := by
  induction ss generalizing start with
  | nil => exact List.prefix_rfl
  | cons s ss ih =>
    rw [List.mem_cons, not_or] at h
    have hstep : start <+: enter start s := by
      rw [enter]
      split
      · exact List.prefix_rfl
      · rw [if_neg (Ne.symm h.1)]
        exact List.prefix_append _ _
    exact hstep.trans (ih h.2 _)

theorem isPrefix_iff_exists_follow (hb : IsPlace b) :
    a <+: b ↔ ∃ way, ".." ∉ way ∧ follow a way = b := by
  constructor
  · rintro ⟨way, rfl⟩
    have hway := hb.of_append_right
    exact ⟨way, fun hdots => (hway ".." hdots).ne_dots rfl, follow_names hway a⟩
  · rintro ⟨way, hway, rfl⟩
    exact isPrefix_follow hway a

theorem isPrefix_iff_relative (hb : IsPlace b) : a <+: b ↔ ".." ∉ relative a b := by
  constructor
  · rintro ⟨way, rfl⟩
    rw [relative_self_append]
    exact fun hdots => (hb.of_append_right ".." hdots).ne_dots rfl
  · intro hway
    exact (isPrefix_iff_exists_follow hb).mpr ⟨_, hway, follow_relative hb⟩

/-! ## Containment -/

theorem display_of_isWithin {target project : String} (ht : target ≠ "") (hp : project ≠ "")
    (h : isWithin host target project = true) :
    display host target (some project) = "./" ++ toRelative host target project := by
  rw [display, if_neg ht]
  simp only [ne_eq, hp, not_false_eq_true, h, and_self, if_true]

/-- Outside of the project a path is shown from the home directory or in full. -/
theorem display_of_not_isWithin {target project : String} (ht : target ≠ "")
    (h : isWithin host target project = false) (rest : String) :
    display host target (some project) ≠ "./" ++ rest := by
  intro hshown
  have hfirst : (display host target (some project)).toList.head? = some '.' := by
    rw [hshown, String.toList_append]
    rfl
  have hslash : Text.exchange '\\' '/' "/" = "/" := by decide
  rw [display, if_neg ht] at hfirst
  simp only [h, Bool.false_eq_true, and_false, if_false] at hfirst
  split at hfirst
  · rw [String.toList_append] at hfirst
    simp at hfirst
  · rw [normalize, render, Text.exchange_append, hslash, String.toList_append] at hfirst
    simp at hfirst

/-- **Containment of segments.** A path is taken to be within a directory exactly if the names of
the directory come first in its names, except that the root is taken to hold only itself. The names
come first exactly if the way from the directory, or any way at all, needs no double dot. What is
taken to be within a project, and nothing else, is shown from there. -/
theorem isWithin_iff_names_isPrefix (host : Host) (target directory : String) :
    (isWithin host target directory = true ↔
      names (normalize host directory) <+: names (normalize host target) ∧
        (normalize host directory = "/" → normalize host target = "/")) ∧
    (names (normalize host directory) <+: names (normalize host target) ↔
      ".." ∉ relative (names (normalize host directory)) (names (normalize host target))) ∧
    (names (normalize host directory) <+: names (normalize host target) ↔
      ∃ way, ".." ∉ way ∧
        follow (names (normalize host directory)) way = names (normalize host target)) ∧
    (target ≠ "" → directory ≠ "" →
      ((∃ rest, display host target (some directory) = "./" ++ rest) ↔
        names (normalize host directory) <+: names (normalize host target) ∧
          (normalize host directory = "/" → normalize host target = "/")) ∧
      (names (normalize host directory) <+: names (normalize host target) →
        (normalize host directory = "/" → normalize host target = "/") →
        display host target (some directory) = "./" ++ toRelative host target directory)) := by
  simp only [names_normalize, normalize_eq_root_iff, ← isWithin_iff_isPrefix]
  refine ⟨trivial, isPrefix_iff_relative (isPlace_segments host target),
    isPrefix_iff_exists_follow (isPlace_segments host target), fun ht hd => ⟨⟨?_, ?_⟩, ?_⟩⟩
  · rintro ⟨rest, hshown⟩
    by_contra hout
    exact display_of_not_isWithin ht (Bool.eq_false_iff.mpr hout) rest hshown
  · exact fun hin => ⟨_, display_of_isWithin ht hd hin⟩
  · exact fun hnames hroot => display_of_isWithin ht hd (isWithin_iff_isPrefix.mpr ⟨hnames, hroot⟩)

namespace Sample

/-- Where the samples run. -/
def atWork : Host := ⟨"/work/app", "/home/dev"⟩

end Sample

open Sample in
/-- A file of a project whose name is also the beginning of another one. -/
theorem isWithin_iff_names_isPrefix_shapes :
    names (normalize atWork "../app/shapes/") = ["work", "app", "shapes"] ∧
      isWithin atWork "/work/app/shapes/./src//A.java" "../app/shapes/" = true ∧
      display atWork "/work/app/shapes/./src//A.java" (some "../app/shapes/") = "./src/A.java" ∧
      isWithin atWork "/work/app/shapes-old/A.java" "../app/shapes/" = false := by
  obtain ⟨hin, -, -, hshown⟩ :=
    isWithin_iff_names_isPrefix atWork "/work/app/shapes/./src//A.java" "../app/shapes/"
  obtain ⟨-, hshown⟩ := hshown (by decide) (by decide)
  refine ⟨by decide +kernel, hin.mpr (by decide +kernel), ?_, by decide +kernel⟩
  rw [hshown (by decide +kernel) (by decide +kernel)]
  decide +kernel

open Sample in
/-- The root holds every path, but no other path is taken to be within it or shown from it. -/
theorem root_not_within :
    names (normalize atWork "/") <+: names (normalize atWork "/a") ∧
      ".." ∉ relative (names (normalize atWork "/")) (names (normalize atWork "/a")) ∧
      isWithin atWork "/a" "/" = false ∧
      display atWork "/a" (some "/") = "/a" := by
  decide +kernel

/-! ## The deepest common directory -/

theorem isPrefix_shared_iff : place <+: shared a b ↔ place <+: a ∧ place <+: b := by
  constructor
  · intro h
    refine ⟨h.trans (shared_isPrefix a b), ?_⟩
    rw [shared_comm] at h
    exact h.trans (shared_isPrefix b a)
  · rintro ⟨⟨x, rfl⟩, y, rfl⟩
    rw [shared_append]
    exact List.prefix_append _ _

/-- **Meets.** What all places begin with in common is the longest of their common prefixes. -/
theorem isPrefix_foldl_shared_iff (first : List String) (rest : List (List String)) :
    place <+: rest.foldl shared first ↔ ∀ p ∈ first :: rest, place <+: p := by
  induction rest generalizing first with
  | nil => simp
  | cons p rest ih =>
    rw [List.foldl_cons, ih, List.forall_mem_cons, isPrefix_shared_iff, and_assoc,
      ← List.forall_mem_cons, ← List.forall_mem_cons]

/-- Places with the same prefixes are the same. -/
theorem eq_of_isPrefix_iff (h : ∀ place, place <+: a ↔ place <+: b) : a = b := by
  have hab : a <+: b := (h a).mp List.prefix_rfl
  have hba : b <+: a := (h b).mpr List.prefix_rfl
  exact hab.eq_of_length (Nat.le_antisymm hab.length_le hba.length_le)

theorem exists_commonDirectory (host : Host) {files : List String} (hne : files ≠ []) :
    ∃ common, commonDirectory host files = some (render common) ∧ IsPlace common ∧
      ∀ place, place <+: common ↔ ∀ file ∈ files, place <+: parent (segments host file) := by
  cases files with
  | nil => exact absurd rfl hne
  | cons file files =>
    refine ⟨_, commonDirectory_cons host file files, ?_, ?_⟩
    · intro s hs
      have hparent : s ∈ parent (segments host file) :=
        (foldl_shared_isPrefix _ _).subset hs
      exact isPlace_segments host file s (List.dropLast_subset _ hparent)
    · intro place
      rw [isPrefix_foldl_shared_iff, List.forall_mem_cons, List.forall_mem_cons,
        List.forall_mem_map]

/-- **The deepest common directory.** Files have a common directory: an absolute path in normal
form, whose names begin those of the directory of every file, and with which every such row of
names begins. It is the root exactly if no name is shared, and it depends only on which files there
are. -/
theorem commonDirectory_isGreatest (host : Host) {files : List String} (hne : files ≠ []) :
    ∃ directory, commonDirectory host files = some directory ∧
      isAbsolute directory = true ∧
      normalize host directory = directory ∧
      (∀ file ∈ files, names directory <+: parent (names (normalize host file))) ∧
      (∀ place, (∀ file ∈ files, place <+: parent (names (normalize host file))) →
        place <+: names directory) ∧
      (directory = "/" ↔
        ∀ place, (∀ file ∈ files, place <+: parent (names (normalize host file))) → place = []) ∧
      ∀ files' : List String, (∀ file, file ∈ files' ↔ file ∈ files) →
        commonDirectory host files' = some directory := by
  obtain ⟨common, hcommon, hplace, hmeet⟩ := exists_commonDirectory host hne
  have hnames : names (render common) = common := names_render hplace
  simp only [names_normalize]
  refine ⟨render common, hcommon, isAbsolute_render common, ?_, ?_, ?_, ?_, ?_⟩
  · rw [normalize, segments_render hplace]
  · rw [hnames]
    exact (hmeet common).mp List.prefix_rfl
  · rw [hnames]
    exact fun place => (hmeet place).mpr
  · simp only [← hmeet]
    constructor
    · intro hroot place hbegins
      rw [← hnames, hroot] at hbegins
      exact List.prefix_nil.mp hbegins
    · intro hnone
      rw [hnone common List.prefix_rfl]
      rfl
  · intro files' hsame
    have hne' : files' ≠ [] := by
      obtain ⟨file, hfile⟩ := List.exists_mem_of_ne_nil files hne
      exact List.ne_nil_of_mem ((hsame file).mpr hfile)
    obtain ⟨common', hcommon', -, hmeet'⟩ := exists_commonDirectory host hne'
    have heq : common' = common := by
      refine eq_of_isPrefix_iff fun place => ?_
      rw [hmeet', hmeet]
      exact forall_congr' fun file => imp_congr_left (hsame file)
    rw [hcommon', heq]

open Sample in
/-- Two directories of which one has the name that the other begins with. -/
theorem commonDirectory_isGreatest_apple :
    ["/work/app/A.java", "../apple//B.java"] ≠ [] ∧
      commonDirectory atWork ["/work/app/A.java", "../apple//B.java"] = some "/work" ∧
      commonDirectory atWork ["../apple//B.java", "/work/app/A.java", "../apple//B.java"] =
        some "/work" := by
  have hwork : commonDirectory atWork ["/work/app/A.java", "../apple//B.java"] = some "/work" := by
    decide +kernel
  obtain ⟨directory, hsome, -, -, -, -, -, hsame⟩ :=
    commonDirectory_isGreatest atWork (List.cons_ne_nil "/work/app/A.java" ["../apple//B.java"])
  rw [hwork, Option.some.injEq] at hsome
  subst hsome
  refine ⟨List.cons_ne_nil _ _, hwork, hsame _ fun file => ?_⟩
  simp only [List.mem_cons, List.not_mem_nil, or_false]
  tauto

end ClassCohesion.Path
