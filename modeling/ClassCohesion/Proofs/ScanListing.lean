import ClassCohesion.Proofs.Checkouts
import ClassCohesion.Proofs.ScanPaths
import ClassCohesion.Proofs.Sorting

/-!
# What a scan lists

In a project without backslashes in its names, the standard exclusions come down to six names of
directories, a scan without patterns takes every file below its root, and the order of the paths is
strict. So a scan lists exactly the source files that are included, in none of the six directories
and not excluded, each once and in order, unless a pattern is too wide. Which files a pattern
includes or excludes is for the libraries to say.

- `not_ignored_iff`, `passes_standard`: what every scan leaves out.
- `scan_lists_exactly`: the list of a scan.
-/

namespace ClassCohesion

theorem Text.unitsLe_trans {a b c : String} (hab : unitsLe a b = true) (hbc : unitsLe b c = true) :
    unitsLe a c = true :=
  lexLe_trans _ _ _ hab hbc

theorem Text.unitsLe_total (a b : String) : (unitsLe a b || unitsLe b a) = true :=
  lexLe_total _ _

theorem Text.lex_of_lexLe {a b : List Nat} (h : lexLe a b = true) (hne : a ≠ b) :
    List.Lex (· < ·) a b := by
  induction a generalizing b with
  | nil =>
    cases b with
    | nil => exact absurd rfl hne
    | cons n b => exact .nil
  | cons m a ih =>
    cases b with
    | nil => cases h
    | cons n b =>
      rw [lexLe, Bool.or_eq_true, Bool.and_eq_true, decide_eq_true_iff, decide_eq_true_iff] at h
      rcases h with h | ⟨rfl, h⟩
      · exact .rel h
      · exact .cons (ih h fun heq => hne (congrArg _ heq))

theorem Language.isSupported_iff {path : String} :
    isSupported path = true ↔ Path.fileExtension path ∈ extensions.map Prod.fst := by
  rw [isSupported, ofPath?, isSome_lookup_iff]

namespace Scan

open ClassCohesion.Path (IsName IsPlace relative render Unslashed)

/-! ## Directories that are left out -/

/-- The names of the directories that every scan leaves out. -/
def leftOut : List String := ["node_modules", ".git", "dist", "build", "vendor", "coverage"]

theorem standardExclusions_eq :
    standardExclusions = leftOut.map fun name => Glob.within [name] := by
  decide

theorem isLiteral_leftOut : ∀ name ∈ leftOut, Glob.IsLiteral name := by decide +kernel

theorem width_leftOut :
    ∀ name ∈ leftOut, Text.width (Glob.within [name]) ≤ Glob.Pattern.maxWidth := by
  decide +kernel

/-- A file is left out at once if it, or a directory that it is in, has one of the names. -/
theorem not_ignored_iff {finder : Finder} {reading : Reading} (hf : finder.Laws reading)
    {root way : List String} (h : IsPlace way) (hne : way ≠ []) :
    (∀ p ∈ standardExclusions, reading.ignores root p (root ++ way) = false) ↔
      ∀ name ∈ way, name ∉ leftOut := by
  have hone (name : String) (hname : name ∈ leftOut) :
      reading.ignores root (Glob.within [name]) (root ++ way) = false ↔ name ∉ way := by
    rw [← Bool.not_eq_true,
      hf.ignores_within h hne (isLiteral_leftOut name hname) (width_leftOut name hname)]
  rw [standardExclusions_eq, List.forall_mem_map]
  constructor
  · intro hall name hmem hname
    exact (hone name hname).mp (hall name hname) hmem
  · intro hout name hname
    exact (hone name hname).mpr fun hmem => hout name hmem hname

/-! ## Ways without backslashes -/

theorem slashed_eq_join {way : List String} (h : ∀ s ∈ way, Unslashed s) :
    slashed way = Text.join "/" way := by
  refine Text.exchange_eq_self ?_
  rw [Text.mem_toList_join (by decide)]
  rintro ⟨s, hs, hback⟩
  exact h s hs hback

section Matching

variable {matcher : Glob.Matcher} {way : List String}

theorem passes_iff {patterns : List String} (h : IsPlace way) (hplain : ∀ s ∈ way, Unslashed s) :
    passes matcher patterns way = true ↔
      Glob.matchesSome matcher (Text.join "/" way) patterns = .ok false := by
  rw [passes, slashed_eq_join hplain, Glob.matchesAny, Glob.withoutDot_names h, beq_iff_eq]
  cases Glob.matchesSome matcher (Text.join "/" way) patterns <;> simp [Except.toOption]

/-- After the files that are left out at once, the standard exclusions leave out no more. -/
theorem passes_standard (hm : matcher.Laws) (h : IsPlace way) (hplain : ∀ s ∈ way, Unslashed s)
    (hout : ∀ name ∈ way, name ∉ leftOut) : passes matcher standardExclusions way = true := by
  rw [passes_iff h hplain]
  rcases Glob.matchesSome_cases hm (Text.join "/" way) standardExclusions with
    ⟨hrefuses, -⟩ | ⟨-, b, hb, hiff⟩
  · exact absurd hrefuses (Glob.not_refuses_of_narrow (by decide) _)
  · rw [hb, Except.ok.injEq, ← Bool.not_eq_true, hiff, standardExclusions_eq]
    rintro ⟨p, hp, hmatches⟩
    obtain ⟨name, hname, rfl⟩ := List.mem_map.mp hp
    rw [hm.within (List.cons_ne_nil name [])
      (List.forall_mem_singleton.mpr (isLiteral_leftOut name hname))
      (Nat.not_lt.mpr (width_leftOut name hname)) h, Except.ok.injEq, decide_eq_true_iff,
      List.singleton_infix_iff] at hmatches
    exact hout name (List.dropLast_subset way hmatches) hname

end Matching

/-! ## The list -/

/-- A project as a scan expects it: the root is a directory, the names below it have no backslash,
and the patterns include no file that is not below it. -/
structure Plain (reading : Reading) (disk : Disk) (root : List String) (q : Query) : Prop where
  tree : disk.IsTree
  directory : disk.isDirectory root = true
  unslashed : ∀ way, disk.HasFile (root ++ way) → ∀ s ∈ way, Unslashed s
  below : ∀ p ∈ q.included, ∀ place, disk.HasFile place → reading.includes root p place = true →
    root <+: place

section

variable (library : Library) (reading : Reading) (disk : Disk) (root : List String) (q : Query)
  (way : List String)

/-- A file below the root is included and not left out. -/
structure Reaches : Prop where
  file : disk.HasFile (root ++ way)
  included : q.included = [] ∨ ∃ p ∈ q.included, reading.includes root p (root ++ way) = true
  outside : ∀ name ∈ way, name ∉ leftOut

/-- A file below the root is to be listed: it is included, in no directory that is left out, not
excluded, and a source file. -/
structure Listed : Prop where
  file : disk.HasFile (root ++ way)
  included : q.included = [] ∨ ∃ p ∈ q.included, reading.includes root p (root ++ way) = true
  outside : ∀ name ∈ way.dropLast, name ∉ leftOut
  kept : ∀ p ∈ q.excluded, library.matcher (Text.join "/" way) (Glob.exclusion p) ≠ .ok true
  source : Path.fileExtension (Text.join "/" way) ∈ Language.extensions.map Prod.fst

end

instance (library : Library) (reading : Reading) (disk : Disk) (root : List String) (q : Query) :
    DecidablePred (Listed library reading disk root q) :=
  fun way => decidable_of_iff
    (disk.HasFile (root ++ way) ∧
      (q.included = [] ∨ ∃ p ∈ q.included, reading.includes root p (root ++ way) = true) ∧
      (∀ name ∈ way.dropLast, name ∉ leftOut) ∧
      (∀ p ∈ q.excluded,
        library.matcher (Text.join "/" way) (Glob.exclusion p) ≠ .ok true) ∧
      Path.fileExtension (Text.join "/" way) ∈ Language.extensions.map Prod.fst)
    ⟨fun ⟨h₁, h₂, h₃, h₄, h₅⟩ => ⟨h₁, h₂, h₃, h₄, h₅⟩, fun h => ⟨h.1, h.2, h.3, h.4, h.5⟩⟩

theorem exists_pattern_iff {q : Query} {P : String → Prop} :
    (∃ p ∈ q.patterns, P p) ↔ q.included = [] ∧ P "**/*" ∨ ∃ p ∈ q.included, P p := by
  rw [Query.patterns]
  cases q.included with
  | nil => simp
  | cons p ps => simp

theorem wide_pattern_iff {q : Query} :
    (∃ p ∈ q.patterns, Glob.Pattern.maxWidth < Text.width p) ↔
      ∃ p ∈ q.included, Glob.Pattern.maxWidth < Text.width p :=
  exists_pattern_iff.trans (or_iff_right fun hall => absurd hall.2 (by decide))

/-- The extension of a path is that of its last name. -/
theorem fileExtension_join {front : List String} {last : String} (h : IsPlace (front ++ [last])) :
    Path.fileExtension (Text.join "/" (front ++ [last])) = Path.fileExtension last := by
  have hname : IsName last := h last (by simp)
  have hbase {names : List String} (hnames : IsPlace (names ++ [last])) :
      Path.baseName (Text.join "/" (names ++ [last])) = last := by
    refine Path.baseName_eq ?_ hname.ne_empty
    rw [Text.split_join (by simp) fun s hs => (hnames s hs).no_slash]
    simp
  have hself : Path.baseName last = last := by
    have hone : IsPlace ([] ++ [last]) := by
      intro s hs
      rw [List.mem_singleton.mp hs]
      exact hname
    have hjoin := hbase hone
    rw [List.nil_append, Text.join, String.intercalate_singleton] at hjoin
    exact hjoin
  unfold Path.fileExtension Path.rawExtension
  rw [hbase h, hself]

/-- A source file has none of the names that are left out. -/
theorem getLast_not_leftOut {front : List String} {last : String} (h : IsPlace (front ++ [last]))
    (hsource : Path.fileExtension (Text.join "/" (front ++ [last])) ∈
      Language.extensions.map Prod.fst) : last ∉ leftOut := by
  have hnone : ∀ name ∈ leftOut, Path.fileExtension name ∉ Language.extensions.map Prod.fst := by
    decide +kernel
  rw [fileExtension_join h] at hsource
  exact fun hmem => hnone last hmem hsource

namespace Plain

variable {library : Library} {reading : Reading} {disk : Disk} {root : List String} {q : Query}
  {way : List String} {places : List (List String)}

theorem ne_nil (h : Plain reading disk root q) (hfile : disk.HasFile (root ++ way)) :
    way ≠ [] := by
  rintro rfl
  have hapart := h.tree.apart _ (Disk.hasFile_iff.mp hfile)
  rw [List.append_nil, h.directory] at hapart
  cases hapart

theorem isPlace (h : Plain reading disk root q) (hfile : disk.HasFile (root ++ way)) :
    IsPlace way :=
  (h.tree.isPlace_of_hasFile hfile).of_append_right

section

variable (hl : library.Laws reading) (h : Plain reading disk root q)
  (hfound : IsFound reading disk root q.patterns standardExclusions places)
include hl h hfound

/-- Every file that is found is below the root. -/
theorem exists_way {place : List String} (hmem : place ∈ places) : ∃ way, place = root ++ way := by
  obtain ⟨hfile, hincluded, -⟩ := hfound.mem_iff.mp hmem
  have hbelow : root <+: place := by
    rcases exists_pattern_iff.mp hincluded with ⟨-, hall⟩ | ⟨p, hp, hincludes⟩
    · exact (hl.finder.includes_all (h.tree.isPlace_of_hasFile hfile)).2 hall
    · exact h.below p hp place hfile hincludes
  obtain ⟨way, rfl⟩ := hbelow
  exact ⟨way, rfl⟩

theorem mem_left_iff :
    root ++ way ∈ left library.matcher root places ↔ Reaches reading disk root q way := by
  rw [mem_left, hfound.mem_iff, Path.relative_self_append, exists_pattern_iff]
  constructor
  · rintro ⟨⟨hfile, hincluded, hout⟩, -⟩
    refine ⟨hfile, hincluded.imp_left And.left, ?_⟩
    exact (not_ignored_iff hl.finder (h.isPlace hfile) (h.ne_nil hfile)).mp hout
  · rintro ⟨hfile, hincluded, hout⟩
    have hne := h.ne_nil hfile
    have hplace := h.isPlace hfile
    have hall : reading.includes root "**/*" (root ++ way) = true :=
      (hl.finder.includes_all (h.tree.isPlace_of_hasFile hfile)).1 (List.prefix_append root way)
        fun heq => hne (List.self_eq_append_right.mp heq)
    exact ⟨⟨hfile, hincluded.imp_left fun hnone => ⟨hnone, hall⟩,
      (not_ignored_iff hl.finder hplace hne).mpr hout⟩,
      passes_standard hl.matcher hplace (h.unslashed way hfile) hout⟩

omit hl hfound in
theorem stops_iff (hfile : disk.HasFile (root ++ way)) :
    Stops library.matcher q.exclusions way ↔
      Glob.Refuses library.matcher (Text.join "/" way) q.exclusions := by
  rw [Stops, slashed_eq_join (h.unslashed way hfile), Glob.withoutDot_names (h.isPlace hfile)]

omit hfound in
theorem passes_excluded_iff (hfile : disk.HasFile (root ++ way))
    (hgoes : ¬Stops library.matcher q.exclusions way) :
    passes library.matcher q.exclusions way = true ↔
      ∀ p ∈ q.excluded, library.matcher (Text.join "/" way) (Glob.exclusion p) ≠ .ok true := by
  rw [h.stops_iff hfile] at hgoes
  rw [passes_iff (h.isPlace hfile) (h.unslashed way hfile)]
  rcases Glob.matchesSome_cases hl.matcher (Text.join "/" way) q.exclusions with
    ⟨hrefuses, -⟩ | ⟨-, b, hb, hiff⟩
  · exact absurd hrefuses hgoes
  · rw [hb, Except.ok.injEq, ← Bool.not_eq_true, hiff]
    simp [Query.exclusions]

/-- The scan is stopped by a file that it comes to. -/
theorem exists_stops_iff :
    (∃ place ∈ left library.matcher root places,
        Stops library.matcher q.exclusions (relative root place)) ↔
      ∃ way, Reaches reading disk root q way ∧
        Glob.Refuses library.matcher (Text.join "/" way) q.exclusions := by
  constructor
  · rintro ⟨place, hmem, hstops⟩
    obtain ⟨way, rfl⟩ := h.exists_way hl hfound (mem_left.mp hmem).1
    have hreaches := (h.mem_left_iff hl hfound).mp hmem
    rw [Path.relative_self_append, h.stops_iff hreaches.file] at hstops
    exact ⟨way, hreaches, hstops⟩
  · rintro ⟨way, hreaches, hrefuses⟩
    refine ⟨_, (h.mem_left_iff hl hfound).mpr hreaches, ?_⟩
    rw [Path.relative_self_append, h.stops_iff hreaches.file]
    exact hrefuses

/-- A way is listed exactly if it is to be. -/
theorem mem_listing_iff
    (hgoes : ¬∃ place ∈ left library.matcher root places,
      Stops library.matcher q.exclusions (relative root place)) :
    root ++ way ∈ listing library.matcher root q places ↔
      Listed library reading disk root q way := by
  have hstops (hreaches : Reaches reading disk root q way) :
      ¬Stops library.matcher q.exclusions way := by
    rw [h.stops_iff hreaches.file]
    exact fun hrefuses => hgoes ((h.exists_stops_iff hl hfound).mpr ⟨way, hreaches, hrefuses⟩)
  rw [mem_listing, h.mem_left_iff hl hfound, Path.relative_self_append]
  constructor
  · rintro ⟨hreaches, hpasses, hsource⟩
    have hfile := hreaches.file
    rw [slashed_eq_join (h.unslashed way hfile), Language.isSupported_iff] at hsource
    exact ⟨hfile, hreaches.included,
      fun name hname => hreaches.outside name (List.dropLast_subset way hname),
      (h.passes_excluded_iff hl hfile (hstops hreaches)).mp hpasses, hsource⟩
  · rintro ⟨hfile, hincluded, hout, hkept, hsource⟩
    have houtside : ∀ name ∈ way, name ∉ leftOut := by
      obtain ⟨front, last, rfl⟩ := (List.eq_nil_or_concat' way).resolve_left (h.ne_nil hfile)
      rw [List.dropLast_concat] at hout
      refine List.forall_mem_append.mpr ⟨hout, ?_⟩
      simpa using getLast_not_leftOut (h.isPlace hfile) hsource
    have hreaches : Reaches reading disk root q way := ⟨hfile, hincluded, houtside⟩
    refine ⟨hreaches, (h.passes_excluded_iff hl hfile (hstops hreaches)).mpr hkept, ?_⟩
    rw [slashed_eq_join (h.unslashed way hfile), Language.isSupported_iff]
    exact hsource

theorem exists_listed_way {place : List String}
    (hmem : place ∈ listing library.matcher root q places) :
    ∃ way, place = root ++ way ∧ way ≠ [] ∧ IsPlace way ∧ ∀ s ∈ way, Unslashed s := by
  have hplace := mem_of_mem_listing hmem
  obtain ⟨way, rfl⟩ := h.exists_way hl hfound hplace
  have hfile := (hfound.mem_iff.mp hplace).1
  exact ⟨way, rfl, h.ne_nil hfile, h.isPlace hfile, h.unslashed way hfile⟩

theorem mem_map_listing :
    way ∈ (listing library.matcher root q places).map (relative root) ↔
      root ++ way ∈ listing library.matcher root q places := by
  rw [List.mem_map]
  constructor
  · rintro ⟨place, hmem, rfl⟩
    obtain ⟨way, rfl, -⟩ := h.exists_listed_way hl hfound hmem
    rw [Path.relative_self_append]
    exact hmem
  · intro hmem
    exact ⟨_, hmem, Path.relative_self_append ..⟩

/-- The ways to the listed files lead to them. -/
theorem map_listing :
    ((listing library.matcher root q places).map (relative root)).map
        (fun way => render (root ++ way)) =
      (listing library.matcher root q places).map render := by
  rw [List.map_map]
  refine List.map_congr_left fun place hmem => ?_
  obtain ⟨way, rfl, -⟩ := h.exists_listed_way hl hfound hmem
  rw [Function.comp_apply, Path.relative_self_append]

/-- Listed files are shown by their own paths. -/
theorem map_shown_listing (hroot : IsPlace root) :
    (listing library.matcher root q places).map (shown root) =
      (listing library.matcher root q places).map render := by
  refine List.map_congr_left fun place hmem => ?_
  obtain ⟨way, rfl, -, hway, hplain⟩ := h.exists_listed_way hl hfound hmem
  rw [shown_eq_render_iff hroot (hroot.append hway), Path.relative_self_append]
  exact hplain

/-- Listed files are in order, and no two have the same path. -/
theorem pairwise_listing :
    (listing library.matcher root q places).Pairwise fun a b => List.Lex (· < ·)
      (Text.units (Text.join "/" (relative root a)).toList)
      (Text.units (Text.join "/" (relative root b)).toList) := by
  have hsorted : (listing library.matcher root q places).Pairwise fun a b =>
      Text.unitsLe (slashed (relative root a)) (slashed (relative root b)) = true := by
    rw [listing]
    apply List.pairwise_mergeSort
    · exact fun _ _ _ => Text.unitsLe_trans
    · exact fun _ _ => Text.unitsLe_total _ _
  refine (hsorted.and (nodup_listing hfound.nodup)).imp_of_mem ?_
  rintro a b ha hb ⟨hle, hne⟩
  obtain ⟨wa, rfl, hnea, hplacea, hplaina⟩ := h.exists_listed_way hl hfound ha
  obtain ⟨wb, rfl, hneb, hplaceb, hplainb⟩ := h.exists_listed_way hl hfound hb
  rw [Path.relative_self_append, Path.relative_self_append] at hle ⊢
  rw [Text.unitsLe, slashed_eq_join hplaina, slashed_eq_join hplainb] at hle
  refine Text.lex_of_lexLe hle fun hunits => hne ?_
  have hjoin : Text.join "/" wa = Text.join "/" wb :=
    String.toList_inj.mp (Text.units_inj.mp hunits)
  rw [← Text.split_join hnea fun s hs => (hplacea s hs).no_slash, hjoin,
    Text.split_join hneb fun s hs => (hplaceb s hs).no_slash]

end

end Plain

/-- A project on a disk with nothing outside of it. -/
theorem plain_of_forall_below {reading : Reading} {disk : Disk} {root : List String} {q : Query}
    (htree : disk.IsTree) (hroot : disk.isDirectory root = true)
    (hbelow : ∀ place ∈ disk.files.map Prod.fst, root <+: place)
    (hplain : ∀ place ∈ disk.files.map Prod.fst, ∀ s ∈ place, Unslashed s) :
    Plain reading disk root q where
  tree := htree
  directory := hroot
  unslashed := by
    intro way hfile s hs
    exact hplain _ (Disk.hasFile_iff.mp hfile) s (List.mem_append_right _ hs)
  below := fun _ _ place hfile _ => hbelow place (Disk.hasFile_iff.mp hfile)

namespace Sample

/-- A project with a directory that is left out and one that is excluded. -/
def tree : List (List String) :=
  [["p", "src", "dist.java"], ["p", "gen", "B.java"], ["p", "src", "dist", "C.java"],
    ["p", "A.java"]]

def java : Query := ⟨"/p", ["**/*.java"], ["gen/"]⟩

theorem plain_java : Plain .standard (diskOf tree) (Path.segments host java.root) java :=
  plain_of_forall_below (by decide +kernel) (by decide +kernel) (by decide +kernel)
    (by decide +kernel)

end Sample

namespace Sample

/-- A name with one unit more than a pattern may have. -/
def wide : String := String.ofList (List.replicate 65537 'a')

theorem toList_wide : wide.toList = List.replicate 65537 'a' := String.toList_ofList

theorem width_wide : Glob.Pattern.maxWidth < Text.width wide := by
  rw [Text.width, toList_wide, Text.units_replicate (by decide), List.length_replicate]
  decide

theorem exclusion_wide : Glob.exclusion wide = wide := by
  rw [Glob.exclusion, if_neg]
  rw [Text.endsWith, List.isSuffixOf_iff_suffix, toList_wide]
  intro hsuffix
  exact absurd (List.eq_of_mem_replicate (hsuffix.subset List.mem_cons_self)) (by decide)

def lone : Disk := diskOf [["p", "A.java"]]

def excluding : Query := ⟨"/p", [], [wide]⟩

theorem plain_excluding : Plain .standard lone (Path.segments host excluding.root) excluding :=
  plain_of_forall_below (by decide +kernel) (by decide +kernel) (by decide +kernel)
    (by decide +kernel)

end Sample

end Scan

end ClassCohesion
