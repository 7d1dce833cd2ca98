import ClassCohesion.Proofs.Directories
import ClassCohesion.Report.Basic

/-!
# Relative and absolute paths

The path from a base to a target and the absolute path that it denotes from the base undo each
other, as long as nothing on the way is lost: the text of a way has slashes for backslashes, so a
name with a backslash comes back as another place. A path without empty and dot segments comes back
letter by letter.

- `toAbsolute_toRelative_iff`: which paths come back from their relative form.
- `toRelative_toAbsolute`: relative paths come back from their absolute form.
- `relative_absolute_inverse`: both, and so a report keeps different paths apart.
-/

namespace ClassCohesion

namespace Path

variable {host : Host} {path base : String}

/-! ## From absolute to relative paths and back -/

/-- A path that ends with a slash has an empty segment. -/
theorem not_endsWith_slash (h : "" ∉ Text.split '/' path) : Text.endsWith path "/" = false := by
  rw [Bool.eq_false_iff]
  intro hends
  obtain ⟨front, hfront⟩ := List.isSuffixOf_iff_suffix.mp hends
  have hpath : path = String.ofList front ++ "/" ++ "" := by
    rw [String.append_empty, ← String.toList_inj, String.toList_append, String.toList_ofList,
      hfront]
  rw [hpath, Text.split_append_slash] at h
  exact h (List.mem_append_right _ (by decide))

theorem toAbsolute_of_not_endsWith (h : Text.endsWith path "/" = false) :
    toAbsolute host path base = render (follow (segments host base) (Text.split '/' path)) := by
  rw [toAbsolute, h]
  simp

theorem normalize_normalize (host : Host) (path : String) :
    normalize host (normalize host path) = normalize host path := by
  rw [normalize, normalize, segments_render (isPlace_segments host path)]

theorem relative_ne_empty {a b : List String} (hb : IsPlace b) : "" ∉ relative a b := by
  intro hempty
  rcases mem_relative hempty with hdots | hmem
  · exact absurd hdots (by decide)
  · exact (hb "" hmem).ne_empty rfl

theorem not_endsWith_join {names : List String} (hempty : "" ∉ names)
    (hslash : ∀ s ∈ names, '/' ∉ s.toList) : Text.endsWith (Text.join "/" names) "/" = false := by
  cases names with
  | nil => decide
  | cons s names =>
    apply not_endsWith_slash
    rwa [Text.split_join (List.cons_ne_nil s names) hslash]

/-- **Back from the relative form.** A path leads to the same place again exactly if there is no
backslash on the way to it. -/
theorem toAbsolute_toRelative_iff (host : Host) (path base : String) :
    toAbsolute host (toRelative host path base) base = normalize host path ↔
      ∀ s ∈ relative (segments host base) (segments host path), Unslashed s := by
  have hplace := isPlace_segments host path
  rw [← follow_exchanged_iff hplace]
  constructor
  · intro hback
    have hnormal := normalize_toAbsolute host (toRelative host path base) base
    rw [hback, normalize_normalize] at hnormal
    refine (render_inj hplace ?_ hnormal).symm
    exact isPlace_follow (isPlace_segments host base) fun _ hs => Text.not_mem_of_mem_split hs
  · intro hback
    have hway := (follow_exchanged_iff hplace).mp hback
    have hends : Text.endsWith (toRelative host path base) "/" = false := by
      rw [toRelative, exchange_join_of_unslashed hway]
      exact not_endsWith_join (relative_ne_empty hplace) (relative_no_slash hplace)
    rw [toAbsolute_of_not_endsWith hends, toRelative, hback]
    rfl

/-! ## From relative to absolute paths and back -/

/-- **Back from the absolute form.** A relative path without empty, dot and double-dot segments and
without backslashes is found again. -/
theorem toRelative_toAbsolute (hnormal : IsNormal path) (hplain : Unslashed path) (host : Host)
    (base : String) : toRelative host (toAbsolute host path base) base = path := by
  have hends : Text.endsWith path "/" = false :=
    not_endsWith_slash fun hempty => (hnormal "" hempty).1 rfl
  have hplace : IsPlace (segments host base ++ Text.split '/' path) :=
    (isPlace_segments host base).append hnormal.isPlace
  rw [toAbsolute_of_not_endsWith hends, follow_names hnormal.isPlace, toRelative,
    segments_render hplace, relative_self_append, Text.join_split, Text.exchange_eq_self hplain]

/-! ## Paths without backslashes -/

theorem mem_segments {s : String} (h : s ∈ segments host path) :
    s ∈ Text.split '/' path ∨ isAbsolute path = false ∧ s ∈ Text.split '/' host.cwd := by
  obtain ⟨kept, new, hfollow, hkept, hnew⟩ := exists_follow
    (if isAbsolute path then [] else follow [] (Text.split '/' host.cwd)) (Text.split '/' path)
  rw [segments, hfollow, List.mem_append] at h
  rcases h with h | h
  · have hstart := hkept.subset h
    split at hstart
    · exact absurd hstart List.not_mem_nil
    · rename_i hrelative
      obtain ⟨_, _, hcwd, hroot, hnames⟩ := exists_follow [] (Text.split '/' host.cwd)
      rw [hcwd, List.prefix_nil.mp hroot, List.nil_append] at hstart
      exact .inr ⟨Bool.eq_false_iff.mpr hrelative, hnames s hstart⟩
  · exact .inl (hnew s h)

theorem Unslashed.of_mem_split (h : Unslashed path) : ∀ s ∈ Text.split '/' path, Unslashed s := by
  intro s hs hback
  rw [Unslashed, ← Text.join_split path, Text.mem_toList_join (by decide)] at h
  exact h ⟨s, hs, hback⟩

theorem unslashed_segments (hpath : Unslashed path)
    (hstart : isAbsolute path = true ∨ Unslashed host.cwd) :
    ∀ s ∈ segments host path, Unslashed s := by
  intro s hs
  rcases mem_segments hs with hs | ⟨hrelative, hs⟩
  · exact hpath.of_mem_split s hs
  · rcases hstart with habsolute | hcwd
    · rw [habsolute] at hrelative
      cases hrelative
    · exact hcwd.of_mem_split s hs

theorem unslashed_segments_of_normalize (h : Unslashed (normalize host path)) :
    ∀ s ∈ segments host path, Unslashed s := by
  intro s hs
  rw [← names_normalize, names, List.mem_filter] at hs
  exact h.of_mem_split s hs.1

theorem unslashed_relative {a b : List String} (h : ∀ s ∈ b, Unslashed s) :
    ∀ s ∈ relative a b, Unslashed s := by
  intro s hs
  rcases mem_relative hs with rfl | hs
  · show '\\' ∉ _
    decide
  · exact h s hs

/-- Places that are told apart by their normal forms are told apart by their relative forms. -/
theorem normalize_eq_of_toRelative_eq {path' : String} (h : Unslashed (normalize host path))
    (h' : Unslashed (normalize host path'))
    (heq : toRelative host path base = toRelative host path' base) :
    normalize host path = normalize host path' := by
  have hback {p : String} (hp : Unslashed (normalize host p)) :
      toAbsolute host (toRelative host p base) base = normalize host p :=
    (toAbsolute_toRelative_iff host p base).mpr
      (unslashed_relative (unslashed_segments_of_normalize hp))
  rw [← hback h, heq, hback h']

end Path

/-! ## Reports -/

namespace Json

/-- The text in a field of an object. -/
def text? (j : Json) (name : String) : Option String :=
  match j.get? name with
  | some (.str s) => some s
  | _ => none

/-- The paths of the records in a list of an object. -/
def recordPaths (j : Json) (list : String) : List String :=
  match j.get? list with
  | some (.arr records) => records.filterMap (·.text? "path")
  | _ => []

theorem recordPaths_eq {α : Type} {j : Json} {list : String} {records : List α} {toJson : α → Json}
    {path : α → String} (hlist : j.get? list = some (.arr (records.map toJson)))
    (hpath : ∀ r, (toJson r).text? "path" = some (path r)) :
    j.recordPaths list = records.map path := by
  have hsome : (fun r => text? r "path") ∘ toJson = fun r => some (path r) := funext hpath
  rw [recordPaths, hlist]
  dsimp only
  rw [List.filterMap_map, hsome, List.filterMap_eq_map']

end Json

namespace Report

/-- The paths of the classes and of the skipped files. -/
def paths (r : Report) : List String := r.classes.map (·.path) ++ r.skipped.map (·.path)

/-- The paths that a report shows for the classes and for the skipped files. -/
def shownPaths (json : Json) : List String :=
  json.recordPaths "classes" ++ json.recordPaths "skippedFiles"

theorem shownPaths_toJson (host : Host) (generatedAt : Instant) (project : String) (r : Report) :
    shownPaths (r.toJson host generatedAt project) =
      r.paths.map (Path.toRelative host · project) := by
  have hclasses : (r.toJson host generatedAt project).recordPaths "classes" =
      r.classes.map fun c => Path.toRelative host c.path project :=
    Json.recordPaths_eq rfl fun _ => rfl
  have hskipped : (r.toJson host generatedAt project).recordPaths "skippedFiles" =
      r.skipped.map fun s => Path.toRelative host s.path project :=
    Json.recordPaths_eq rfl fun _ => rfl
  rw [shownPaths, hclasses, hskipped, paths, List.map_append, List.map_map, List.map_map]
  rfl

/-- Records whose paths have different normal forms without backslashes are shown with different
paths. -/
theorem shownPaths_ne (host : Host) (generatedAt : Instant) (project : String) (r : Report) :
    ∀ a ∈ r.paths.zip (shownPaths (r.toJson host generatedAt project)),
      ∀ b ∈ r.paths.zip (shownPaths (r.toJson host generatedAt project)),
        Path.Unslashed (Path.normalize host a.1) → Path.Unslashed (Path.normalize host b.1) →
        Path.normalize host a.1 ≠ Path.normalize host b.1 → a.2 ≠ b.2 := by
  rw [shownPaths_toJson, ← List.map_prod_left_eq_zip]
  rintro _ ha _ hb
  obtain ⟨path, -, rfl⟩ := List.mem_map.mp ha
  obtain ⟨path', -, rfl⟩ := List.mem_map.mp hb
  exact fun h h' hne heq => hne (Path.normalize_eq_of_toRelative_eq h h' heq)

end Report

namespace Path

/-- **Relative and absolute paths undo each other.** From its relative form a path comes back in
normal form if it holds no backslash, counting the working directory as part of a path that starts
there; in general, exactly if no name on the way from the base does. From its absolute form a
relative path without empty and dot segments comes back as it is. So a report shows records whose
paths differ in normal form, and hold no backslash there, under different paths. -/
theorem relative_absolute_inverse (host : Host) :
    (∀ path base, Unslashed path → isAbsolute path = true ∨ Unslashed host.cwd →
      toAbsolute host (toRelative host path base) base = normalize host path) ∧
    (∀ path base, toAbsolute host (toRelative host path base) base = normalize host path ↔
      ∀ s ∈ relative (segments host base) (segments host path), Unslashed s) ∧
    (∀ path base, IsNormal path → Unslashed path →
      toRelative host (toAbsolute host path base) base = path) ∧
    ∀ (report : Report) (generatedAt : Instant) (project : String),
      (Report.shownPaths (report.toJson host generatedAt project)).length = report.paths.length ∧
      ∀ a ∈ report.paths.zip (Report.shownPaths (report.toJson host generatedAt project)),
      ∀ b ∈ report.paths.zip (Report.shownPaths (report.toJson host generatedAt project)),
        Unslashed (normalize host a.1) → Unslashed (normalize host b.1) →
        normalize host a.1 ≠ normalize host b.1 → a.2 ≠ b.2 := by
  refine ⟨?_, toAbsolute_toRelative_iff host, ?_, ?_⟩
  · intro path base hpath hstart
    rw [toAbsolute_toRelative_iff]
    exact unslashed_relative (unslashed_segments hpath hstart)
  · exact fun path base hnormal hplain => toRelative_toAbsolute hnormal hplain host base
  · intro report generatedAt project
    refine ⟨?_, Report.shownPaths_ne host generatedAt project report⟩
    rw [Report.shownPaths_toJson, List.length_map]

namespace Sample

/-- A report of two skipped files. -/
def skips : Report where
  classes := []
  summary := Report.summarize []
  skipped := [⟨"lib/../A.java", .tooLarge, ""⟩, ⟨"/work/B.java", .readError, ""⟩]

theorem zip_skips : skips.paths.zip (Report.shownPaths (skips.toJson atWork .epoch "/work/app")) =
    [("lib/../A.java", "A.java"), ("/work/B.java", "../B.java")] := by
  rw [Report.shownPaths_toJson]
  decide +kernel

end Sample

open Sample in
/-- A file beside the base, a path from above the base, and a report of files in two directories. -/
theorem relative_absolute_inverse_beside :
    Unslashed "lib//./A.java" ∧ Unslashed atWork.cwd ∧
      toAbsolute atWork (toRelative atWork "lib//./A.java" "/work/ap\\p/") "/work/ap\\p/" =
        "/work/app/lib/A.java" ∧
      IsNormal "lib/A.java" ∧ Unslashed "lib/A.java" ∧
      toRelative atWork (toAbsolute atWork "lib/A.java" "..//") "..//" = "lib/A.java" ∧
      skips.paths.zip (Report.shownPaths (skips.toJson atWork .epoch "/work/app")) =
        [("lib/../A.java", "A.java"), ("/work/B.java", "../B.java")] ∧
      "A.java" ≠ "../B.java" := by
  obtain ⟨hback, -, hforth, hreport⟩ := relative_absolute_inverse atWork
  have hnormal : normalize atWork "lib//./A.java" = "/work/app/lib/A.java" := by decide +kernel
  have hplain : Unslashed "lib//./A.java" := by decide
  have hcwd : Unslashed atWork.cwd := by decide
  refine ⟨hplain, hcwd, ?_, by decide, by decide, hforth _ _ (by decide) (by decide), zip_skips, ?_⟩
  · rw [hback _ _ hplain (.inr hcwd), hnormal]
  · have hne := (hreport skips .epoch "/work/app").2
    rw [zip_skips] at hne
    exact hne _ List.mem_cons_self _ (List.mem_cons_of_mem _ List.mem_cons_self) (by decide +kernel)
      (by decide +kernel) (by decide +kernel)

/-- In a working directory with a backslash in its name, a relative path without one comes back as
another place: that of the path which has a slash there. -/
theorem working_directory_lost :
    let host : Host := ⟨"/w\\x", "/home/dev"⟩
    Unslashed "a.java" ∧ normalize host "a.java" = "/w\\x/a.java" ∧
      toRelative host "a.java" "/" = "w/x/a.java" ∧
      toRelative host "/w/x/a.java" "/" = "w/x/a.java" ∧
      toAbsolute host (toRelative host "a.java" "/") "/" = "/w/x/a.java" := by
  decide +kernel

end Path

end ClassCohesion
