import ClassCohesion.Analysis.Basic
import ClassCohesion.Proofs.CommonDirectory

/-!
# Projects in different places

A project is the same wherever it is checked out: the candidates of an analysis are chosen by what
lies below the root, whether the root is given or inferred as the deepest directory that holds all
of the files. What leads to the root is shared by all files, so it drops out of the deepest common
directory and of every way that is judged.

- `commonDirectory_below`: the directory that files below a root have in common lies below the root.
- `isCandidate_below`: the choice of a file is a matter of its path from the root.
- `checkouts_choose_alike`: two checkouts of a project have their candidates at the same positions.
-/

namespace ClassCohesion

namespace Path

variable {host : Host} {root path : String}

/-- The path of what has the given path from a root. -/
def below (root path : String) : String := root ++ "/" ++ path

/-- A relative path without empty and dot segments. -/
def IsNormal (path : String) : Prop := ∀ s ∈ Text.split '/' path, s ≠ "" ∧ s ≠ "." ∧ s ≠ ".."

instance (path : String) : Decidable (IsNormal path) := by
  unfold IsNormal
  infer_instance

theorem IsNormal.isPlace (h : IsNormal path) : IsPlace (Text.split '/' path) := by
  intro s hs
  obtain ⟨hempty, hdot, hdots⟩ := h s hs
  exact ⟨hempty, hdot, hdots, Text.not_mem_of_mem_split hs⟩

theorem segments_below (hroot : isAbsolute root = true) (h : IsNormal path) :
    segments host (below root path) = segments host root ++ Text.split '/' path := by
  rw [below, segments_append_slash hroot, follow_names h.isPlace]

theorem ne_empty_of_isAbsolute (h : isAbsolute root = true) : root ≠ "" := by
  rintro rfl
  exact absurd h (by decide)

/-! ## Names of files -/

theorem dropSlashes_eq_self {last : String} (hlast : (Text.split '/' path).getLast? = some last)
    (hne : last ≠ "") : dropSlashes path = path := by
  obtain ⟨front, hfront⟩ := Text.getLast_split_suffix hlast
  have hmem : last ∈ Text.split '/' path := List.mem_of_getLast? hlast
  -- the last character belongs to the last piece, so it is no slash
  have hchars : last.toList ≠ [] := by simpa using hne
  obtain ⟨cs, c, hcs⟩ := List.eq_nil_or_concat last.toList |>.resolve_left hchars
  have hc : c ≠ '/' := by
    rintro rfl
    exact Text.not_mem_of_mem_split hmem (by simp [hcs])
  have hpath : path.toList.reverse = c :: (front ++ cs).reverse := by
    rw [← hfront, hcs]
    simp
  rw [dropSlashes, hpath, List.dropWhile_cons_of_neg (by simpa using hc), ← hpath,
    List.reverse_reverse, String.ofList_toList]

theorem baseName_eq {last : String} (hlast : (Text.split '/' path).getLast? = some last)
    (hne : last ≠ "") : baseName path = last := by
  rw [baseName, dropSlashes_eq_self hlast hne, hlast]
  rfl

/-- The name of a file does not depend on where the file is. -/
theorem baseName_below (h : IsNormal path) (root : String) :
    baseName (below root path) = baseName path := by
  obtain ⟨front, last, hsplit⟩ :=
    (List.eq_nil_or_concat (Text.split '/' path)).resolve_left (Text.split_ne_nil '/' path)
  have hne : last ≠ "" := (h last (by simp [hsplit])).1
  have hlast : (Text.split '/' path).getLast? = some last := by simp [hsplit]
  have hbelow : (Text.split '/' (below root path)).getLast? = some last := by
    rw [below, Text.split_append_slash, hsplit]
    simp
  rw [baseName_eq hlast hne, baseName_eq hbelow hne]

theorem fileExtension_below (h : IsNormal path) (root : String) :
    fileExtension (below root path) = fileExtension path := by
  unfold fileExtension rawExtension
  rw [baseName_below h]

/-! ## The directory that files have in common -/

/-- The directory that relative paths have in common. -/
def commonBelow (path : String) (more : List String) : List String :=
  (more.map fun p => parent (Text.split '/' p)).foldl shared (parent (Text.split '/' path))

theorem foldl_shared_append (p a : List String) (bs : List (List String)) :
    (bs.map (p ++ ·)).foldl shared (p ++ a) = p ++ bs.foldl shared a := by
  induction bs generalizing a with
  | nil => rfl
  | cons b bs ih => rw [List.map_cons, List.foldl_cons, shared_append, ih, List.foldl_cons]

theorem parent_segments_below (hroot : isAbsolute root = true) (h : IsNormal path) :
    parent (segments host (below root path)) =
      segments host root ++ parent (Text.split '/' path) := by
  rw [segments_below hroot h]
  exact List.dropLast_append_of_ne_nil (Text.split_ne_nil '/' path)

theorem commonDirectory_below {more : List String} (hroot : isAbsolute root = true)
    (h : ∀ p ∈ path :: more, IsNormal p) :
    commonDirectory host ((path :: more).map (below root)) =
      some (render (segments host root ++ commonBelow path more)) := by
  rw [List.forall_mem_cons] at h
  have hparents : (more.map (below root)).map (fun file => parent (segments host file)) =
      (more.map fun p => parent (Text.split '/' p)).map (segments host root ++ ·) := by
    rw [List.map_map, List.map_map]
    exact List.map_congr_left fun p hp => parent_segments_below hroot (h.2 p hp)
  rw [List.map_cons, commonDirectory_cons, hparents, parent_segments_below hroot h.1,
    foldl_shared_append]
  rfl

theorem segments_commonDirectory {more : List String} (h : ∀ p ∈ path :: more, IsNormal p)
    (root : String) :
    segments host (render (segments host root ++ commonBelow path more)) =
      segments host root ++ commonBelow path more := by
  apply segments_render
  apply (isPlace_segments host root).append
  intro s hs
  have hpre : commonBelow path more <+: parent (Text.split '/' path) := foldl_shared_isPrefix _ _
  have hparent : s ∈ Text.split '/' path := List.dropLast_subset _ (hpre.subset hs)
  exact (h path List.mem_cons_self).isPlace s hparent

end Path

namespace Analysis

open ClassCohesion.Path (IsNormal below commonBelow isAbsolute segments)

variable {host : Host} {options : Options} {root path : String}

/-! ## Candidates by their path from the root -/

/-- Whether a file is looked at, by its path from the root of a project and the directory below the
root from which test files are judged. -/
def isChosen (skipTestFiles : Bool) (common : List String) (path : String) : Bool :=
  isObjectOriented path && !(skipTestFiles && Path.looksLikeTest (Text.exchange '\\' '/'
    (Text.exchange '\\' '/' (Text.join "/" (Path.relative common (Text.split '/' path))))))

/-- The positions of the candidates among the files. -/
def positions (host : Host) (options : Options) (files : List String) : List Nat :=
  files.findIdxs (isCandidate host options (rootFor host options files))

theorem filterMap_findIdxs {γ : Type} (p : γ → Bool) (front xs : List γ) :
    (xs.findIdxs p front.length).filterMap (fun i => (front ++ xs)[i]?) = xs.filter p := by
  induction xs generalizing front with
  | nil => rfl
  | cons x xs ih =>
    have ih := ih (front ++ [x])
    rw [List.length_append, List.length_singleton, List.append_assoc, List.singleton_append] at ih
    rw [List.findIdxs_cons, List.filter_cons]
    by_cases hx : p x = true
    · rw [if_pos hx, if_pos hx, List.filterMap_cons, ih]
      simp
    · rw [if_neg hx, if_neg hx, ih]

theorem findIdxs_congr {γ : Type} {p q : γ → Bool} {xs : List γ} {start : Nat}
    (h : ∀ x ∈ xs, p x = q x) : xs.findIdxs p start = xs.findIdxs q start := by
  induction xs generalizing start with
  | nil => rfl
  | cons x xs ih =>
    rw [List.findIdxs_cons, List.findIdxs_cons, h x List.mem_cons_self,
      ih fun y hy => h y (List.mem_cons_of_mem x hy)]

/-- The candidates are the files at their positions. -/
theorem candidates_eq_filterMap_positions (host : Host) (options : Options)
    (files : List String) :
    candidates host options files = (positions host options files).filterMap (files[·]?) :=
  (filterMap_findIdxs (isCandidate host options (rootFor host options files)) [] files).symm

theorem isObjectOriented_below (h : IsNormal path) (root : String) :
    isObjectOriented (below root path) = isObjectOriented path := by
  rw [isObjectOriented, isObjectOriented, Language.ofPath?, Language.ofPath?,
    Path.fileExtension_below h]

/-- The choice of a file is a matter of its path from the root. -/
theorem isCandidate_below {base : String} {common : List String} (hroot : isAbsolute root = true)
    (h : IsNormal path) (hbase : base ≠ "")
    (hcommon : segments host base = segments host root ++ common) :
    isCandidate host options (some base) (below root path) =
      isChosen options.skipTestFiles common path := by
  rw [isCandidate, isChosen, isObjectOriented_below h, Path.isTestFile]
  simp only [if_neg hbase]
  rw [Path.toRelative, Path.segments_below hroot h, hcommon, Path.relative_append]

theorem positions_below (base : String) {common paths : List String}
    (hroot : isAbsolute root = true) (h : ∀ p ∈ paths, IsNormal p) (hbase : base ≠ "")
    (hcommon : segments host base = segments host root ++ common)
    (hjudged : rootFor host options (paths.map (below root)) = some base) :
    positions host options (paths.map (below root)) =
      paths.findIdxs (isChosen options.skipTestFiles common) := by
  rw [positions, hjudged, List.findIdxs_map]
  apply findIdxs_congr
  intro p hp
  rw [Function.comp_apply, isCandidate_below hroot (h p hp) hbase hcommon]

/-- With a given root, nothing but the paths from the root counts. -/
theorem positions_given {paths : List String} (hroot : isAbsolute root = true)
    (h : ∀ p ∈ paths, IsNormal p) :
    positions host { options with projectRoot := some root } (paths.map (below root)) =
      paths.findIdxs (isChosen options.skipTestFiles []) := by
  have hcommon : segments host root = segments host root ++ [] := (List.append_nil _).symm
  exact positions_below root hroot h (Path.ne_empty_of_isAbsolute hroot) hcommon Option.some_or

/-- Where no root is given, the inferred one lies below the root. -/
theorem positions_inferred {more : List String} (hroot : isAbsolute root = true)
    (h : ∀ p ∈ path :: more, IsNormal p) :
    positions host { options with projectRoot := none } ((path :: more).map (below root)) =
      (path :: more).findIdxs (isChosen options.skipTestFiles (commonBelow path more)) := by
  have habs := Path.isAbsolute_render (segments host root ++ commonBelow path more)
  exact positions_below _ hroot h (Path.ne_empty_of_isAbsolute habs)
    (Path.segments_commonDirectory h root) (Path.commonDirectory_below hroot h)

/-- **Where a project is checked out does not matter.** Of the same paths below two roots, the files
at the same positions are looked at, with test files or without, whether the roots are given or
inferred, and on whatever hosts. -/
theorem checkouts_choose_alike {host₁ host₂ : Host} {root₁ root₂ : String} {paths : List String}
    (hroot₁ : isAbsolute root₁ = true) (hroot₂ : isAbsolute root₂ = true)
    (h : ∀ p ∈ paths, IsNormal p) (options : Options) :
    positions host₁ { options with projectRoot := some root₁ } (paths.map (below root₁)) =
        positions host₂ { options with projectRoot := some root₂ } (paths.map (below root₂)) ∧
      positions host₁ { options with projectRoot := none } (paths.map (below root₁)) =
        positions host₂ { options with projectRoot := none } (paths.map (below root₂)) := by
  constructor
  · rw [positions_given hroot₁ h, positions_given hroot₂ h]
  · cases paths with
    | nil => rfl
    | cons path more => rw [positions_inferred hroot₁ h, positions_inferred hroot₂ h]

namespace Sample

/-- A source file and a test file, by their paths from the root. -/
def shapes : List String := ["src/Circle.java", "spec/Draft.java"]

theorem shapes_normal : ∀ p ∈ shapes, IsNormal p := by decide +kernel

end Sample

/-- A project that lies in a directory for tests has the candidates that it has at the root of a
disk. -/
theorem checkouts_choose_alike_in_test_directory :
    (∀ p ∈ Sample.shapes, IsNormal p) ∧
      candidates ⟨"/home/dev", "/home/dev"⟩ {} (Sample.shapes.map (below "/home/dev/test/shapes")) =
        ["/home/dev/test/shapes/src/Circle.java"] := by
  refine ⟨Sample.shapes_normal, ?_⟩
  have halike : positions ⟨"/home/dev", "/home/dev"⟩ {}
        (Sample.shapes.map (below "/home/dev/test/shapes")) =
      positions ⟨"/", "/root"⟩ {} (Sample.shapes.map (below "/")) :=
    (checkouts_choose_alike (by decide) (by decide) Sample.shapes_normal {}).2
  have hone : positions ⟨"/", "/root"⟩ {} (Sample.shapes.map (below "/")) = [0] := by
    decide +kernel
  rw [candidates_eq_filterMap_positions, halike, hone]
  rfl

end Analysis

end ClassCohesion
