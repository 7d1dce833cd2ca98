import Mathlib.Data.List.Nodup
import Mathlib.Data.List.Perm.Basic
import ClassCohesion.Proofs.DirectoryPatterns
import ClassCohesion.Scan

/-!
# The paths that a scan lists

A scan goes over the files that a finder has found on the disk, keeps some of them, sorts them and
writes their paths. On the way a backslash in a name becomes a slash. `listing` says which files are
kept and in what order, and `shown` what is written for each. So the path that is listed for a file
is the path to that file exactly if there is no backslash on the way from the root.

All of this holds for any libraries that do what theirs are documented to do: `Finder.Laws` says so
of the finder, in terms of how it reads patterns, and `Matcher.Laws` of the matcher.

- `Library.Laws`: what is assumed of the libraries.
- `run_outcome`: a scan is refused, or it shows the files of its listing.
- `listed_paths_own_iff`: which files are listed by their own paths.
-/

namespace ClassCohesion

theorem isSome_lookup_iff {α β : Type} [BEq α] [LawfulBEq α] {entries : List (α × β)} {key : α} :
    (entries.lookup key).isSome = true ↔ key ∈ entries.map Prod.fst := by
  rw [List.lookup_isSome_iff, List.mem_map]
  refine exists_congr fun entry => and_congr_right fun _ => ?_
  rw [beq_iff_eq, eq_comm]

namespace Disk

/-- There is a file at a place. -/
def HasFile (d : Disk) (place : List String) : Prop := (d.file? place).isSome = true

instance (d : Disk) : DecidablePred d.HasFile := fun place =>
  inferInstanceAs (Decidable ((d.file? place).isSome = true))

theorem hasFile_iff {d : Disk} {place : List String} :
    d.HasFile place ↔ place ∈ d.files.map Prod.fst := by
  rw [HasFile, file?, isSome_lookup_iff]

/-- A disk as a file system keeps it: every file has a place of its own, which is no directory. -/
structure IsTree (d : Disk) : Prop where
  nodup : (d.files.map Prod.fst).Nodup
  isPlace : ∀ place ∈ d.files.map Prod.fst, Path.IsPlace place
  apart : ∀ place ∈ d.files.map Prod.fst, d.isDirectory place = false

instance : DecidablePred IsTree := fun d =>
  decidable_of_iff ((d.files.map Prod.fst).Nodup ∧
      (∀ place ∈ d.files.map Prod.fst, Path.IsPlace place) ∧
      ∀ place ∈ d.files.map Prod.fst, d.isDirectory place = false)
    ⟨fun ⟨h₁, h₂, h₃⟩ => ⟨h₁, h₂, h₃⟩, fun h => ⟨h.1, h.2, h.3⟩⟩

theorem IsTree.isPlace_of_hasFile {d : Disk} (h : d.IsTree) {place : List String}
    (hfile : d.HasFile place) : Path.IsPlace place :=
  h.isPlace place (hasFile_iff.mp hfile)

end Disk

namespace Scan

open ClassCohesion.Path (IsPlace relative render follow Unslashed)

/-! ## What a scan does -/

/-- The patterns that include files. -/
def Query.patterns (q : Query) : List String :=
  if q.included.isEmpty then ["**/*"] else q.included

/-- The patterns that exclude files, directories written out. -/
def Query.exclusions (q : Query) : List String := q.excluded.map Glob.exclusion

/-- A way as a path, with slashes for backslashes. -/
def slashed (way : List String) : String := Text.exchange '\\' '/' (Text.join "/" way)

/-- Whether a way passes patterns that exclude. -/
def passes (matcher : Glob.Matcher) (patterns way : List String) : Bool :=
  (Glob.matchesAny (slashed way) patterns matcher).toOption == some false

/-- The places of found files that the standard exclusions leave over. -/
def left (matcher : Glob.Matcher) (root : List String) (places : List (List String)) :
    List (List String) :=
  places.filter (passes matcher standardExclusions ∘ relative root)

/-- The places of the listed files, in order, from the places of the found ones. -/
def listing (matcher : Glob.Matcher) (root : List String) (q : Query)
    (places : List (List String)) : List (List String) :=
  (((left matcher root places).filter (passes matcher q.exclusions ∘ relative root)).filter
    (Language.isSupported ∘ slashed ∘ relative root)).mergeSort fun a b =>
      Text.unitsLe (slashed (relative root a)) (slashed (relative root b))

/-- The path that is listed for a file. -/
def shown (root place : List String) : String :=
  render (follow root (Text.split '/' (slashed (relative root place))))

/-! ## What is assumed of the libraries -/

/-- How a finder reads patterns: which places a pattern includes and which ones it ignores, seen
from a root. -/
structure Reading where
  includes : (root : List String) → (pattern : String) → (place : List String) → Bool
  ignores : (root : List String) → (pattern : String) → (place : List String) → Bool

/-- The places that are to be found: those of the files that some pattern includes and none of the
others ignores, each once. -/
structure IsFound (reading : Reading) (disk : Disk) (root patterns ignored : List String)
    (places : List (List String)) : Prop where
  nodup : places.Nodup
  mem_iff : ∀ {place}, place ∈ places ↔ disk.HasFile place ∧
    (∃ p ∈ patterns, reading.includes root p place = true) ∧
    ∀ p ∈ ignored, reading.ignores root p place = false

/-- **What is documented about a finder**, which reads patterns in some way: it refuses patterns that
are too wide; otherwise it gives the paths of the files that are to be found, in any order. By
default it includes all that lies below the root. A name between two `**` ignores what is in a
directory of that name, and the directory itself. -/
structure Finder.Laws (finder : Finder) (reading : Reading) : Prop where
  refuses : ∀ (disk : Disk) (root : List String) {patterns : List String} (ignored : List String),
    (∃ p ∈ patterns, Glob.Pattern.maxWidth < Text.width p) →
    finder disk root patterns ignored = .error Glob.tooLong
  finds : ∀ {disk : Disk} {root patterns ignored : List String}, disk.IsTree → IsPlace root →
    (∀ p ∈ patterns ++ ignored, Text.width p ≤ Glob.Pattern.maxWidth) →
    ∃ places, IsFound reading disk root patterns ignored places ∧
      finder disk root patterns ignored =
        .ok (places.map fun place => Text.join "/" (relative root place))
  includes_all : ∀ {root place : List String}, IsPlace place →
    (root <+: place → root ≠ place → reading.includes root "**/*" place = true) ∧
    (reading.includes root "**/*" place = true → root <+: place)
  ignores_within : ∀ {root way : List String} {name : String}, IsPlace way → way ≠ [] →
    Glob.IsLiteral name → Text.width (Glob.within [name]) ≤ Glob.Pattern.maxWidth →
    (reading.ignores root (Glob.within [name]) (root ++ way) = true ↔ name ∈ way)

/-- What is assumed of the libraries of a scan. -/
structure Library.Laws (library : Library) (reading : Reading) : Prop where
  finder : library.finder.Laws reading
  matcher : library.matcher.Laws

/-! ## What a scan comes to -/

theorem keepUnless_cases (test : String → Except Cause Bool) (ps : List String) :
    (∃ p ∈ ps, ∃ e, test p = .error e ∧ keepUnless test ps = .error e) ∨
      (∀ p ∈ ps, ∃ b, test p = .ok b) ∧
        keepUnless test ps = .ok (ps.filter fun p => (test p).toOption == some false) := by
  induction ps with
  | nil => exact .inr ⟨by simp, rfl⟩
  | cons p ps ih =>
    cases hp : test p with
    | error e => exact .inl ⟨p, List.mem_cons_self, e, hp, by rw [keepUnless, hp]; rfl⟩
    | ok b =>
      rcases ih with ⟨p', hp', e, he, hrest⟩ | ⟨hall, hrest⟩
      · refine .inl ⟨p', List.mem_cons_of_mem p hp', e, he, ?_⟩
        rw [keepUnless, hp, hrest]
        rfl
      · refine .inr ⟨List.forall_mem_cons.mpr ⟨⟨b, hp⟩, hall⟩, ?_⟩
        rw [keepUnless, hp, hrest, List.filter_cons, hp]
        cases b <;> rfl

/-- Patterns are refused for a way. -/
def Stops (matcher : Glob.Matcher) (patterns way : List String) : Prop :=
  Glob.Refuses matcher (Glob.withoutDot (slashed way)) patterns

section Matching

variable {matcher : Glob.Matcher} (hm : matcher.Laws)
include hm

theorem matchesAny_cases (patterns way : List String) :
    (Stops matcher patterns way ∧
        Glob.matchesAny (slashed way) patterns matcher = .error Glob.tooLong) ∨
      ¬Stops matcher patterns way ∧ ∃ b, Glob.matchesAny (slashed way) patterns matcher = .ok b := by
  rcases Glob.matchesSome_cases hm (Glob.withoutDot (slashed way)) patterns with
    h | ⟨hrefuses, b, hb, -⟩
  · exact .inl h
  · exact .inr ⟨hrefuses, b, hb⟩

/-- The paths of files that pass patterns, unless the patterns are refused for one of the files. -/
theorem keepUnless_ways (patterns : List String) (way : List String → List String)
    (places : List (List String)) :
    ((∃ place ∈ places, Stops matcher patterns (way place)) ∧
        keepUnless (Glob.matchesAny · patterns matcher) (places.map (slashed ∘ way)) =
          .error Glob.tooLong) ∨
      (¬∃ place ∈ places, Stops matcher patterns (way place)) ∧
        keepUnless (Glob.matchesAny · patterns matcher) (places.map (slashed ∘ way)) =
          .ok ((places.filter (passes matcher patterns ∘ way)).map (slashed ∘ way)) := by
  rcases keepUnless_cases (Glob.matchesAny · patterns matcher) (places.map (slashed ∘ way)) with
    ⟨p, hp, e, he, herror⟩ | ⟨hall, hok⟩
  · obtain ⟨place, hplace, rfl⟩ := List.mem_map.mp hp
    rcases matchesAny_cases hm patterns (way place) with ⟨hstops, h⟩ | ⟨-, b, h⟩
    · rw [Function.comp_apply, h] at he
      cases he
      exact .inl ⟨⟨place, hplace, hstops⟩, herror⟩
    · rw [Function.comp_apply, h] at he
      cases he
  · refine .inr ⟨?_, ?_⟩
    · rintro ⟨place, hplace, hstops⟩
      obtain ⟨b, hb⟩ := hall _ (List.mem_map_of_mem hplace)
      rcases matchesAny_cases hm patterns (way place) with ⟨-, h⟩ | ⟨hnot, -⟩
      · rw [Function.comp_apply, h] at hb
        cases hb
      · exact hnot hstops
    · rw [hok, List.filter_map]
      rfl

/-- The paths of the source files that pass all patterns, unless these are refused. The standard
exclusions are narrow, so they never are. -/
theorem sources_cases (host : Host) (q : Query) {root : List String}
    (hroot : Path.segments host q.root = root) (places : List (List String)) :
    ((∃ place ∈ left matcher root places, Stops matcher q.exclusions (relative root place)) ∧
        sources host q matcher (places.map fun place => Text.join "/" (relative root place)) =
          .error Glob.tooLong) ∨
      (¬∃ place ∈ left matcher root places, Stops matcher q.exclusions (relative root place)) ∧
        sources host q matcher (places.map fun place => Text.join "/" (relative root place)) =
          .ok ((listing matcher root q places).map (shown root)) := by
  have hsources :
      sources host q matcher (places.map fun place => Text.join "/" (relative root place)) =
        (keepUnless (Glob.matchesAny · standardExclusions matcher)
            (places.map (slashed ∘ relative root)) >>=
          fun paths => keepUnless (Glob.matchesAny · q.exclusions matcher) paths >>=
          fun paths => .ok (((paths.filter Language.isSupported).mergeSort Text.unitsLe).map
            fun p => Path.normalize host (Path.toAbsolute host p q.root))) := by
    unfold sources
    dsimp only
    rw [List.map_map]
    rfl
  rw [hsources]
  rcases keepUnless_ways hm standardExclusions (relative root) places with
    ⟨⟨place, -, hstops⟩, -⟩ | ⟨-, hok⟩
  · exact absurd hstops (Glob.not_refuses_of_narrow (by decide) _)
  · rw [hok]
    show ((_ ∧ (keepUnless _ _ >>= _) = _) ∨ _ ∧ (keepUnless _ _ >>= _) = _)
    rcases keepUnless_ways hm q.exclusions (relative root) (left matcher root places) with
      ⟨hstops, herror⟩ | ⟨hgoes, hok⟩
    · rw [← left, herror]
      exact .inl ⟨hstops, rfl⟩
    · -- paths are sorted here, places in the listing: the order is that of the paths
      have hsort (l : List (List String)) :
          (l.map (slashed ∘ relative root)).mergeSort Text.unitsLe =
            (l.mergeSort fun a b =>
              Text.unitsLe (slashed (relative root a)) (slashed (relative root b))).map
              (slashed ∘ relative root) := by
        symm
        apply List.map_mergeSort
        exact fun _ _ _ _ => rfl
      have hpath : (fun p => Path.normalize host (Path.toAbsolute host p q.root)) ∘
          slashed ∘ relative root = shown root := by
        funext place
        rw [shown, ← hroot]
        exact Path.normalize_toAbsolute host _ q.root
      refine .inr ⟨hgoes, ?_⟩
      rw [← left, hok]
      show Except.ok _ = _
      rw [List.filter_map, hsort, List.map_map, hpath]
      rfl

end Matching

/-- What a scan below a root comes to. -/
inductive Outcome (library : Library) (reading : Reading) (disk : Disk) (root : List String)
    (q : Query) : Except Problem (List String) → Prop where
  | tooWide (hwide : ∃ p ∈ q.patterns, Glob.Pattern.maxWidth < Text.width p) :
      Outcome library reading disk root q (.error (.fault (.scanFailed q.root Glob.tooLong)))
  | stopped {places : List (List String)}
      (hnarrow : ¬∃ p ∈ q.patterns, Glob.Pattern.maxWidth < Text.width p)
      (hfound : IsFound reading disk root q.patterns standardExclusions places)
      (hstops : ∃ place ∈ left library.matcher root places,
        Stops library.matcher q.exclusions (relative root place)) :
      Outcome library reading disk root q
        (.error (.error Glob.tooLong.name Glob.tooLong.message))
  | listed {places : List (List String)}
      (hnarrow : ¬∃ p ∈ q.patterns, Glob.Pattern.maxWidth < Text.width p)
      (hfound : IsFound reading disk root q.patterns standardExclusions places)
      (hgoes : ¬∃ place ∈ left library.matcher root places,
        Stops library.matcher q.exclusions (relative root place)) :
      Outcome library reading disk root q
        (.ok ((listing library.matcher root q places).map (shown root)))

section Outcomes

variable {library : Library} {reading : Reading} {disk : Disk}

/-- **What a scan comes to.** -/
theorem run_outcome (hl : library.Laws reading) (htree : disk.IsTree) (host : Host) (q : Query) :
    Outcome library reading disk (Path.segments host q.root) q (run host disk q library).2 := by
  have hroot : IsPlace (Path.segments host q.root) := Path.isPlace_segments host q.root
  unfold run
  dsimp only
  rw [show (if q.included.isEmpty then ["**/*"] else q.included) = q.patterns from rfl]
  by_cases hwide : ∃ p ∈ q.patterns, Glob.Pattern.maxWidth < Text.width p
  · rw [hl.finder.refuses disk _ _ hwide]
    exact .tooWide hwide
  · have hnarrow : ∀ p ∈ q.patterns ++ standardExclusions,
        Text.width p ≤ Glob.Pattern.maxWidth := by
      refine List.forall_mem_append.mpr ⟨fun p hp => ?_, by decide⟩
      exact Nat.not_lt.mp fun hlt => hwide ⟨p, hp, hlt⟩
    obtain ⟨places, hfound, hfind⟩ := hl.finder.finds htree hroot hnarrow
    rw [hfind]
    dsimp only
    rcases sources_cases hl.matcher host q rfl places with ⟨hstops, herror⟩ | ⟨hgoes, hok⟩
    · rw [herror]
      exact .stopped hwide hfound hstops
    · rw [hok]
      exact .listed hwide hfound hgoes

/-! ## Which files are listed -/

variable {matcher : Glob.Matcher} {root : List String} {q : Query}
  {places : List (List String)} {place : List String}

theorem mem_left : place ∈ left matcher root places ↔
    place ∈ places ∧ passes matcher standardExclusions (relative root place) = true := by
  rw [left, List.mem_filter, Function.comp_apply]

theorem mem_listing :
    place ∈ listing matcher root q places ↔ place ∈ left matcher root places ∧
      passes matcher q.exclusions (relative root place) = true ∧
      Language.isSupported (slashed (relative root place)) = true := by
  rw [listing, List.mem_mergeSort, List.mem_filter, List.mem_filter, and_assoc]
  simp only [Function.comp_apply]

theorem mem_of_mem_listing (h : place ∈ listing matcher root q places) : place ∈ places :=
  (mem_left.mp (mem_listing.mp h).1).1

theorem nodup_listing (h : places.Nodup) : (listing matcher root q places).Nodup := by
  rw [listing, (List.mergeSort_perm _ _).nodup_iff]
  exact ((h.filter _).filter _).filter _

/-- The paths to the listed files are different. -/
theorem nodup_render_listing {patterns ignored : List String} (htree : disk.IsTree)
    (h : IsFound reading disk root patterns ignored places) :
    ((listing matcher root q places).map render).Nodup := by
  have hplace {place : List String} (hmem : place ∈ listing matcher root q places) :
      IsPlace place :=
    htree.isPlace_of_hasFile (h.mem_iff.mp (mem_of_mem_listing hmem)).1
  exact (nodup_listing h.nodup).map_on fun a ha b hb => Path.render_inj (hplace ha) (hplace hb)

end Outcomes

/-- A file is shown by its own path exactly if there is no backslash on the way to it. -/
theorem shown_eq_render_iff {root place : List String} (hroot : IsPlace root) (h : IsPlace place) :
    shown root place = render place ↔ ∀ s ∈ relative root place, Unslashed s := by
  rw [← Path.follow_exchanged_iff h]
  have hplace : IsPlace (follow root (Text.split '/' (slashed (relative root place)))) :=
    Path.isPlace_follow hroot fun _ hs => Text.not_mem_of_mem_split hs
  exact ⟨Path.render_inj hplace h, congrArg render⟩

/-- **Listed paths.** A scan that lists files has a path for each file that it chooses. This is the
path to the file exactly if no name on the way from the root holds a backslash; so if none does,
every path that is listed leads to an included file, and to another one each time. -/
theorem listed_paths_own_iff (host : Host) {library : Library} {reading : Reading}
    (hl : library.Laws reading) {disk : Disk} {q : Query} {files : List String}
    (htree : disk.IsTree) (hrun : (run host disk q library).2 = .ok files) :
    ∃ places : List (List String), places.Nodup ∧
      files = places.map (shown (Path.segments host q.root)) ∧
      (∀ place ∈ places, disk.HasFile place ∧
        ∃ p ∈ q.patterns, reading.includes (Path.segments host q.root) p place = true) ∧
      (∀ place ∈ places, shown (Path.segments host q.root) place = render place ↔
        ∀ s ∈ relative (Path.segments host q.root) place, Unslashed s) ∧
      ((∀ place ∈ places, ∀ s ∈ relative (Path.segments host q.root) place, Unslashed s) →
        files = places.map render ∧ files.Nodup) := by
  have houtcome := run_outcome hl htree host q
  rw [hrun] at houtcome
  have hroot : IsPlace (Path.segments host q.root) := Path.isPlace_segments host q.root
  generalize Path.segments host q.root = root at houtcome hroot ⊢
  cases houtcome with
  | @listed found hnarrow hfound hgoes =>
    have hmem {place : List String} (h : place ∈ listing library.matcher root q found) :=
      hfound.mem_iff.mp (mem_of_mem_listing h)
    have hiff : ∀ place ∈ listing library.matcher root q found, shown root place = render place ↔
        ∀ s ∈ relative root place, Unslashed s :=
      fun place h => shown_eq_render_iff hroot (htree.isPlace_of_hasFile (hmem h).1)
    refine ⟨_, nodup_listing hfound.nodup, rfl, ?_, hiff, ?_⟩
    · exact fun place h => ⟨(hmem h).1, (hmem h).2.1⟩
    · intro hplain
      have hmap : (listing library.matcher root q found).map (shown root) =
          (listing library.matcher root q found).map render :=
        List.map_congr_left fun place h => (hiff place h).mpr (hplain place h)
      rw [hmap]
      exact ⟨rfl, nodup_render_listing htree hfound⟩

/-! ## The default libraries -/

/-- A pattern includes the file with the given way from the root, for the default finder. -/
def takes (pattern : String) (way : List String) : Bool :=
  (Glob.Pattern.alternativesOf pattern.toList).any fun a => (Inclusion.ofAlternative a).takes way

/-- How the default finder reads patterns. -/
def Reading.standard : Reading where
  includes root pattern place := takes pattern (relative root place)
  ignores root pattern place := isIgnored [pattern] (Text.join "/" (relative root place))

/-- The places that the default finder finds. -/
def found (disk : Disk) (root patterns ignored : List String) : List (List String) :=
  (disk.files.map Prod.fst).filter fun place =>
    patterns.any (takes · (relative root place)) &&
      !isIgnored ignored (Text.join "/" (relative root place))

theorem matchesSome_iff {patterns : List String}
    (h : ∀ p ∈ patterns, Text.width p ≤ Glob.Pattern.maxWidth) (path : String) :
    ((Glob.matchesSome Glob.matchesPattern path patterns).toOption != some false) = true ↔
      ∃ p ∈ patterns, Glob.matchesPattern path p = .ok true := by
  rcases Glob.matchesSome_cases Glob.matchesPattern_laws path patterns with
    ⟨hrefuses, -⟩ | ⟨-, b, hb, hiff⟩
  · exact absurd hrefuses (Glob.not_refuses_of_narrow h path)
  · rw [hb, ← hiff]
    cases b <;> simp [Except.toOption]

theorem isIgnored_iff {ignored : List String}
    (h : ∀ p ∈ ignored, Text.width p ≤ Glob.Pattern.maxWidth) (path : String) :
    isIgnored ignored path = true ↔ ∃ p ∈ ignored,
      Glob.matchesPattern path p = .ok true ∨ Glob.matchesPattern (path ++ "/") p = .ok true := by
  simp only [isIgnored, List.any_cons, List.any_nil, Bool.or_false, Bool.or_eq_true,
    matchesSome_iff h, and_or_left, exists_or]

/-- A name between two `**` is met by the path of a file in or at such a directory. -/
theorem isIgnored_within_iff {way : List String} {name : String} (hway : IsPlace way)
    (hne : way ≠ []) (hname : Glob.IsLiteral name)
    (hnarrow : Text.width (Glob.within [name]) ≤ Glob.Pattern.maxWidth) :
    isIgnored [Glob.within [name]] (Text.join "/" way) = true ↔ name ∈ way := by
  have hmatches {path : String} {us : List (List Nat)}
      (hcut : (Glob.cut path.toList).map Text.units = us)
      (hdots : ∀ s ∈ us, Glob.Segment.isDots s = false) :
      Glob.matchesPattern path (Glob.within [name]) = .ok true ↔
        Glob.Segment.unitsOf name ∈ us.dropLast := by
    rw [Glob.matchesPattern_within (List.cons_ne_nil name []) (List.forall_mem_singleton.mpr hname)
      (Nat.not_lt.mpr hnarrow) hcut hdots, Except.ok.injEq, decide_eq_true_iff, List.map_singleton,
      List.singleton_infix_iff]
  have hcut : (Glob.cut (Text.join "/" way).toList).map Text.units =
      way.map Glob.Segment.unitsOf := by
    rw [Glob.cut_names hne hway, List.map_map]
    rfl
  have hslash : (Glob.cut (Text.join "/" way ++ "/").toList).map Text.units =
      way.map Glob.Segment.unitsOf ++ [[]] := by
    rw [Glob.cut_names_slash hne hway, List.map_append, List.map_map]
    rfl
  have hdots := Glob.Segment.isDots_names hway
  have hunits (ways : List String) :
      Glob.Segment.unitsOf name ∈ ways.map Glob.Segment.unitsOf ↔ name ∈ ways := by
    simp only [List.mem_map, Glob.Segment.unitsOf_inj, exists_eq_right]
  rw [isIgnored_iff (List.forall_mem_singleton.mpr hnarrow), List.exists_mem_cons_iff,
    hmatches hcut hdots,
    hmatches hslash (List.forall_mem_append.mpr ⟨hdots, List.forall_mem_singleton.mpr (by decide)⟩),
    List.dropLast_concat, ← List.map_dropLast, hunits, hunits]
  simp only [List.not_mem_nil, false_and, exists_false, or_false]
  exact or_iff_right_of_imp fun hmem => List.dropLast_subset way hmem

theorem takes_all_iff {way : List String} :
    takes "**/*" way = true ↔ (way.takeWhile (· == "..")).length = 0 ∧
      Glob.matchSegments [.anyDepth, .shape [.many] false] (way.map Glob.Segment.unitsOf) =
        true := by
  have hread : Glob.Pattern.alternativesOf "**/*".toList =
      [[.anyDepth, .shape [.many] false]] := by
    decide +kernel
  have htakes : (Inclusion.ofAlternative [.anyDepth, .shape [.many] false]).takes way =
      ((way.takeWhile (· == "..")).length == 0 &&
        (Glob.matchSegments [.anyDepth, .shape [.many] false] (way.map Glob.Segment.unitsOf) ||
          false)) := rfl
  rw [takes, hread, List.any_cons, List.any_nil, htakes, Bool.or_false, Bool.or_false,
    Bool.and_eq_true, beq_iff_eq]

/-- By default, a file is included only if it is below the root. -/
theorem prefix_of_takes_all {root place : List String}
    (htakes : takes "**/*" (relative root place) = true) : root <+: place := by
  obtain ⟨p, up, down, rfl, rfl, hway⟩ := Path.exists_relative root place
  rw [takes_all_iff, hway] at htakes
  have hup : up = [] := by
    cases up with
    | nil => rfl
    | cons s up => simp at htakes
  rw [hup, List.append_nil]
  exact List.prefix_append p down

/-- By default, every file below the root is included. -/
theorem takes_all {way : List String} (hne : way ≠ []) (h : IsPlace way) :
    takes "**/*" way = true := by
  rw [takes_all_iff]
  constructor
  · cases way with
    | nil => rfl
    | cons s way =>
      rw [List.takeWhile_cons_of_neg (by simpa using (h s List.mem_cons_self).ne_dots)]
      rfl
  · obtain ⟨front, last, rfl⟩ := (List.eq_nil_or_concat' way).resolve_left hne
    simp only [List.map_append, List.map_cons, List.map_nil]
    have hlast : Path.IsName last := h last (by simp)
    have hfront : IsPlace front := fun s hs => h s (by simp [hs])
    show (Glob.depths _).any _ = true
    rw [List.any_eq_true]
    refine ⟨[Glob.Segment.unitsOf last], Glob.mem_depths.mpr
      ⟨_, rfl, List.cons_ne_nil _ _, Glob.Segment.isDots_names hfront⟩, ?_⟩
    have hunits : (Glob.Segment.unitsOf last).isEmpty = false := by
      rw [List.isEmpty_eq_false_iff]
      exact fun hempty => hlast.ne_empty (Glob.Segment.unitsOf_inj.mp hempty)
    show (!(Glob.Segment.unitsOf last).isEmpty &&
      !Glob.Segment.isDots (Glob.Segment.unitsOf last) && true) = true
    rw [hunits, Glob.Segment.isDots_name hlast]
    rfl

theorem find_of_narrow (disk : Disk) (root : List String) {patterns : List String}
    (ignored : List String) (h : ∀ p ∈ patterns, Text.width p ≤ Glob.Pattern.maxWidth) :
    find disk root patterns ignored =
      .ok ((found disk root patterns ignored).map fun place => Text.join "/" (relative root place)) := by
  have hsome : inclusions patterns = some (patterns.flatMap fun p =>
      (Glob.Pattern.alternativesOf p.toList).map Inclusion.ofAlternative) := by
    rw [inclusions, if_neg]
    simpa using h
  have hways : disk.files.map (fun f => relative root f.1) =
      (disk.files.map Prod.fst).map (relative root) := by
    rw [List.map_map]
    rfl
  have htakes (way : List String) : (patterns.flatMap fun p =>
        (Glob.Pattern.alternativesOf p.toList).map Inclusion.ofAlternative).any (·.takes way) =
      patterns.any (takes · way) := by
    simp only [List.any_flatMap, List.any_map, takes]
    rfl
  rw [find, hsome]
  dsimp only
  rw [hways, List.filter_map, List.map_map]
  simp only [htakes]
  rfl

theorem isFound_found {disk : Disk} {root patterns ignored : List String} (htree : disk.IsTree)
    (hnarrow : ∀ p ∈ ignored, Text.width p ≤ Glob.Pattern.maxWidth) :
    IsFound .standard disk root patterns ignored (found disk root patterns ignored) where
  nodup := htree.nodup.filter _
  mem_iff := by
    intro place
    have hone {p : String} (hp : p ∈ ignored) : ∀ q ∈ [p], Text.width q ≤ Glob.Pattern.maxWidth :=
      List.forall_mem_singleton.mpr (hnarrow p hp)
    have hignored : isIgnored ignored (Text.join "/" (relative root place)) = false ↔
        ∀ p ∈ ignored, isIgnored [p] (Text.join "/" (relative root place)) = false := by
      rw [← Bool.not_eq_true, isIgnored_iff hnarrow, not_exists]
      refine forall_congr' fun p => ?_
      rw [not_and]
      refine forall_congr' fun hp => ?_
      rw [← Bool.not_eq_true, isIgnored_iff (hone hp)]
      simp
    rw [found, List.mem_filter, Disk.hasFile_iff, Bool.and_eq_true, Bool.not_eq_true', hignored,
      List.any_eq_true]
    rfl

/-- **The default libraries** do what is documented about libraries. -/
theorem default_laws : Library.Laws {} .standard where
  finder :=
    { refuses := by
        intro disk root patterns ignored hwide
        have hnone : inclusions patterns = none := by
          rw [inclusions, if_pos]
          simpa using hwide
        show find disk root patterns ignored = _
        rw [find, hnone]
      finds := by
        intro disk root patterns ignored htree _ hnarrow
        rw [List.forall_mem_append] at hnarrow
        exact ⟨_, isFound_found htree hnarrow.2, find_of_narrow disk root ignored hnarrow.1⟩
      includes_all := by
        intro root place hplace
        refine ⟨?_, prefix_of_takes_all⟩
        rintro ⟨way, rfl⟩ hne
        have hway : way ≠ [] := by
          rintro rfl
          exact hne (List.append_nil root).symm
        show takes "**/*" (relative root (root ++ way)) = true
        rw [Path.relative_self_append]
        exact takes_all hway hplace.of_append_right
      ignores_within := by
        intro root way name hway hne hname hnarrow
        show isIgnored _ (Text.join "/" (relative root (root ++ way))) = true ↔ _
        rw [Path.relative_self_append]
        exact isIgnored_within_iff hway hne hname hnarrow }
  matcher := Glob.matchesPattern_laws

/-- With patterns that are not too wide, a scan with the default libraries lists files. -/
theorem run_of_narrow (host : Host) (disk : Disk) {q : Query}
    (hpatterns : ∀ p ∈ q.patterns, Text.width p ≤ Glob.Pattern.maxWidth)
    (hexclusions : ∀ p ∈ q.exclusions, Text.width p ≤ Glob.Pattern.maxWidth) :
    (run host disk q).2 = .ok ((listing Glob.matchesPattern (Path.segments host q.root) q
      (found disk (Path.segments host q.root) q.patterns standardExclusions)).map
        (shown (Path.segments host q.root))) := by
  unfold run
  dsimp only
  rw [show (if q.included.isEmpty then ["**/*"] else q.included) = q.patterns from rfl,
    find_of_narrow disk _ _ hpatterns]
  dsimp only
  rcases sources_cases Glob.matchesPattern_laws host q rfl _ with ⟨⟨place, -, hstops⟩, -⟩ | ⟨-, hok⟩
  · exact absurd hstops (Glob.not_refuses_of_narrow hexclusions _)
  · rw [hok]

/-- Files that come in order stay in order. -/
theorem listing_of_sorted {matcher : Glob.Matcher} {root : List String} {q : Query}
    {found listed : List (List String)}
    (h : ((left matcher root found).filter (passes matcher q.exclusions ∘ relative root)).filter
      (Language.isSupported ∘ slashed ∘ relative root) = listed)
    (hsorted : listed.Pairwise fun a b =>
      Text.unitsLe (slashed (relative root a)) (slashed (relative root b)) = true) :
    listing matcher root q found = listed := by
  rw [listing, h, List.mergeSort_of_pairwise hsorted]

namespace Sample

def host : Host := ⟨"/p", "/home/dev"⟩

/-- A disk with empty files at the given places. -/
def diskOf (places : List (List String)) : Disk := { files := places.map fun p => (p, .ofText "") }

/-- A scan of all files. -/
def all : Query := ⟨"/p", [], []⟩

theorem run_all {places listed : List (List String)} {files : List String}
    (h : ((left Glob.matchesPattern ["p"]
        (found (diskOf places) ["p"] all.patterns standardExclusions)).filter
        (passes Glob.matchesPattern all.exclusions ∘ relative ["p"])).filter
      (Language.isSupported ∘ slashed ∘ relative ["p"]) = listed)
    (hsorted : listed.Pairwise fun a b =>
      Text.unitsLe (slashed (relative ["p"] a)) (slashed (relative ["p"] b)) = true)
    (hshown : listed.map (shown ["p"]) = files) :
    (run host (diskOf places) all).2 = .ok files := by
  have hroot : Path.segments host all.root = ["p"] := by decide
  rw [run_of_narrow host _ (by decide) (by decide), hroot, listing_of_sorted h hsorted, hshown]

/-- A directory that is left out, among others. -/
def mixed : List (List String) :=
  [["p", "B.java"], ["p", "lib", "dist", "C.java"], ["p", "src", "A.java"]]

theorem run_mixed : (run host (diskOf mixed) all).2 = .ok ["/p/B.java", "/p/src/A.java"] :=
  run_all (by decide +kernel : _ = [["p", "B.java"], ["p", "src", "A.java"]]) (by decide +kernel)
    (by decide +kernel)

end Sample

open Sample in
/-- Both files that are listed here are listed by their own paths. -/
theorem listed_paths_own_iff_mixed :
    Library.Laws {} .standard ∧ (diskOf mixed).IsTree ∧
      (run host (diskOf mixed) all).2 = .ok ["/p/B.java", "/p/src/A.java"] ∧
      ∃ places : List (List String), ["/p/B.java", "/p/src/A.java"] = places.map (shown ["p"]) ∧
        ∀ place ∈ places, (diskOf mixed).HasFile place := by
  have htree : (diskOf mixed).IsTree := by decide +kernel
  obtain ⟨places, -, hfiles, htaken, -⟩ := listed_paths_own_iff host default_laws htree run_mixed
  exact ⟨default_laws, htree, run_mixed, places, hfiles, fun place h => (htaken place h).1⟩

open Sample in
/-- A file with a backslash in its name is listed by the path of another file, which is not there;
and if it is, that path is listed twice. -/
theorem backslash_listed_astray :
    (diskOf [["p", "a\\b.java"]]).IsTree ∧
      (run host (diskOf [["p", "a\\b.java"]]) all).2 = .ok ["/p/a/b.java"] ∧
      ¬(diskOf [["p", "a\\b.java"]]).HasFile (Path.segments host "/p/a/b.java") ∧
      (diskOf [["p", "a", "b.java"], ["p", "a\\b.java"]]).IsTree ∧
      (run host (diskOf [["p", "a", "b.java"], ["p", "a\\b.java"]]) all).2 =
        .ok ["/p/a/b.java", "/p/a/b.java"] := by
  refine ⟨by decide +kernel, ?_, by decide +kernel, by decide +kernel, ?_⟩
  · exact run_all (by decide +kernel : _ = [["p", "a\\b.java"]]) (by decide +kernel)
      (by decide +kernel)
  · exact run_all (by decide +kernel : _ = [["p", "a", "b.java"], ["p", "a\\b.java"]])
      (by decide +kernel) (by decide +kernel)

end Scan

end ClassCohesion
