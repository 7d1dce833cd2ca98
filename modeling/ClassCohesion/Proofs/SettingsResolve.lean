import ClassCohesion.Proofs.SettingsFile
import ClassCohesion.Settings.Resolve

/-!
# Settings that resolve

A run takes each setting from the command line or from the settings of the project. The checks of the
settings file and those of a run agree: whatever is loaded resolves, if the command line is silent.
Otherwise the first unsound one among `--top`, `--sort` and `--max-file-size` is blamed, and only
then is there a fault.

- `FileSize.parse?_of_writes`: a file size is its digits times its unit, rounded once.
- `Settings.resolve_cases`: what resolving comes to.
-/

namespace ClassCohesion

theorem Number.zero_le_round {x : ℚ} (hx : 0 ≤ x) : Number.le 0 (Number.round x) = true := by
  rcases Number.round_nonneg hx with h | ⟨v, hv, h⟩
  · rw [h]
    rfl
  · rw [h]
    rcases hv.eq_or_lt with rfl | hpos
    · rfl
    · have hlt : Number.lt 0 (.finite v) = true := decide_eq_true hpos
      rw [Number.le, hlt]
      rfl

namespace FileSize

variable {s : String} {ds : List Char} {unit : Nat}

theorem UnitLetters.exists_pow {letters : List Char} (h : UnitLetters letters unit) :
    ∃ k, unit = 2 ^ k := by
  rcases h with ⟨-, -⟩ | ⟨-, -⟩
  · exact ⟨10, rfl⟩
  · exact ⟨20, rfl⟩

/-- The number of bytes of a file size, before rounding. -/
def bytes (ds : List Char) (unit : Nat) : Nat := Nat.ofDigitChars 10 ds 0 * unit

/-- The digits and then the product are rounded, but the unit is a power of two. -/
theorem parse?_of_writes (h : Writes s ds unit) :
    parse? s = some (Number.round (bytes ds unit)) := by
  obtain ⟨_, -, hletters⟩ := h.text
  obtain ⟨k, rfl⟩ := hletters.exists_pow
  rw [parse?, parts?_eq_some_iff.mpr h]
  show some ((Number.ofDecimal (Number.natOfDigits ds) 0).scale (2 ^ k)) = _
  rw [Number.ofDecimal_eq_round, zpow_zero, mul_one, Number.round_scale, Number.natOfDigits_eq]
  rfl

theorem parse?_eq_none (h : ¬∃ ds unit, Writes s ds unit) : parse? s = none := by
  rw [parse?, Option.map_eq_none_iff, Option.eq_none_iff_forall_ne_some]
  rintro ⟨ds, unit⟩ hparts
  exact h ⟨ds, unit, parts?_eq_some_iff.mp hparts⟩

end FileSize

namespace Settings

open Config (IsSize IsSort)

/-- A text for a positive whole number. -/
def IsPositive (value : String) : Prop := ∃ n : Nat, 0 < n ∧ Number.ofText value = n

section Options

variable (config : Config) (options : Options)

def TopFails : Prop := ∃ value, options.top = some value ∧ ¬IsPositive value

def SortFails : Prop := ¬IsSort (options.sort.getD config.sort)

def SizeFails : Prop := ¬IsSize (options.maxFileSize.getD config.maxFileSize)

/-- The first option that fails. -/
inductive Blames : String → Prop where
  | top : TopFails options → Blames "--top"
  | sort : ¬TopFails options → SortFails config options → Blames "--sort"
  | size : ¬TopFails options → ¬SortFails config options → SizeFails config options →
    Blames "--max-file-size"

/-- The option, or the setting of the project. -/
def TopIs (n : Nat) : Prop :=
  match options.top with
  | some value => 0 < n ∧ Number.ofText value = n
  | none => n = config.top

/-- The settings of the project, overlaid by the options. -/
structure Overlays (s : Settings) : Prop where
  top : TopIs config options s.top
  sort : s.sort.word = options.sort.getD config.sort
  maxFileSize : ∃ ds unit, FileSize.Writes (options.maxFileSize.getD config.maxFileSize) ds unit ∧
    s.maxFileSize = Number.round (FileSize.bytes ds unit)
  skipTestFiles : s.skipTestFiles = (!options.includeTests && config.skipTestFiles)
  included : s.included = config.included
  excluded : s.excluded = config.excluded
  concurrency : s.concurrency = config.concurrency

end Options

theorem positiveOption_cases (option value : String) :
    (∃ n : Nat, positiveOption option value = .ok n ∧ 0 < n ∧ Number.ofText value = n) ∨
      ¬IsPositive value ∧ ∃ detail, positiveOption option value =
        .error (.invalidOption option detail) := by
  unfold positiveOption
  split
  · rename_i n hn
    exact .inl ⟨n + 1, rfl, n.succ_pos, Number.toNat?_eq_some_iff.mp hn⟩
  · rename_i hnone
    refine .inr ⟨?_, _, rfl⟩
    rintro ⟨n, hn, htext⟩
    obtain ⟨m, rfl⟩ := Nat.exists_eq_add_one.mpr hn
    exact hnone m (Number.toNat?_eq_some_iff.mpr htext)

theorem sortOption_cases (value : String) :
    (∃ key, sortOption value = .ok key ∧ key.word = value) ∨
      ¬IsSort value ∧ ∃ detail, sortOption value = .error (.invalidOption "--sort" detail) := by
  unfold sortOption
  split
  · rename_i key hkey
    exact .inl ⟨key, rfl, SortKey.ofWord?_eq_some_iff.mp hkey⟩
  · rename_i hnone
    refine .inr ⟨?_, _, rfl⟩
    rintro ⟨key, hword⟩
    rw [SortKey.ofWord?_eq_some_iff.mpr hword] at hnone
    cases hnone

theorem sizeOption_cases (value : String) :
    (∃ ds unit, FileSize.Writes value ds unit ∧
        sizeOption value = .ok (Number.round (FileSize.bytes ds unit))) ∨
      ¬IsSize value ∧ ∃ detail, sizeOption value =
        .error (.invalidOption "--max-file-size" detail) := by
  by_cases h : IsSize value
  · obtain ⟨ds, unit, hwrites⟩ := h
    refine .inl ⟨ds, unit, hwrites, ?_⟩
    rw [sizeOption, FileSize.parse?_of_writes hwrites]
  · refine .inr ⟨h, FileSize.complaint value, ?_⟩
    rw [sizeOption, FileSize.parse?_eq_none h]

/-- The first of the three steps of `resolve`. -/
def topOption (config : Config) (options : Options) : Except Fault Nat :=
  match options.top with
  | some value => positiveOption "--top" value
  | none => .ok config.top

theorem resolve_eq (config : Config) (options : Options) :
    resolve config options = (do
      let top ← topOption config options
      let sort ← sortOption (options.sort.getD config.sort)
      let maxFileSize ← sizeOption (options.maxFileSize.getD config.maxFileSize)
      return {
        top, sort, maxFileSize
        skipTestFiles := if options.includeTests then false else config.skipTestFiles
        included := config.included
        excluded := config.excluded
        concurrency := config.concurrency }) := by
  unfold resolve topOption
  cases options.top <;> rfl

theorem topOption_cases (config : Config) (options : Options) :
    (∃ n, topOption config options = .ok n ∧ TopIs config options n ∧ ¬TopFails options) ∨
      TopFails options ∧ ∃ detail, topOption config options =
        .error (.invalidOption "--top" detail) := by
  unfold topOption TopIs TopFails
  cases options.top with
  | none => exact .inl ⟨config.top, rfl, rfl, nofun⟩
  | some value =>
    rcases positiveOption_cases "--top" value with ⟨n, hok, hpos, htext⟩ | ⟨hbad, herror⟩
    · refine .inl ⟨n, hok, ⟨hpos, htext⟩, ?_⟩
      rintro ⟨_, ⟨⟩, hbad⟩
      exact hbad ⟨n, hpos, htext⟩
    · exact .inr ⟨⟨value, rfl, hbad⟩, herror⟩

/-- Resolving overlays the settings or blames the first option that fails. -/
theorem resolve_cases (config : Config) (options : Options) :
    (∃ s, resolve config options = .ok s ∧ Overlays config options s) ∨
      ∃ option detail, resolve config options = .error (.invalidOption option detail) ∧
        Blames config options option := by
  rw [resolve_eq]
  rcases topOption_cases config options with ⟨top, htop, hgiven, hsound⟩ | ⟨hfails, detail, htop⟩
  · rcases sortOption_cases (options.sort.getD config.sort) with
      ⟨key, hsort, hword⟩ | ⟨hfails, detail, hsort⟩
    · rcases sizeOption_cases (options.maxFileSize.getD config.maxFileSize) with
        ⟨ds, unit, hwrites, hsize⟩ | ⟨hfails, detail, hsize⟩
      · rw [htop, hsort, hsize]
        refine .inl ⟨_, rfl, ?_⟩
        exact {
          top := hgiven
          sort := hword
          maxFileSize := ⟨ds, unit, hwrites, rfl⟩
          skipTestFiles := by cases options.includeTests <;> rfl
          included := rfl
          excluded := rfl
          concurrency := rfl }
      · rw [htop, hsort, hsize]
        exact .inr ⟨_, detail, rfl, .size hsound (fun hsort => hsort ⟨key, hword⟩) hfails⟩
    · rw [htop, hsort]
      exact .inr ⟨_, detail, rfl, .sort hsound hfails⟩
  · rw [htop]
    exact .inr ⟨_, detail, rfl, .top hfails⟩

theorem Blames.fails {config : Config} {options : Options} {option : String}
    (h : Blames config options option) :
    TopFails options ∨ SortFails config options ∨ SizeFails config options := by
  cases h with
  | top htop => exact .inl htop
  | sort _ hsort => exact .inr (.inl hsort)
  | size _ _ hsize => exact .inr (.inr hsize)

theorem Overlays.sound {config : Config} {options : Options} {s : Settings}
    (h : Overlays config options s) :
    ¬(TopFails options ∨ SortFails config options ∨ SizeFails config options) := by
  rintro (⟨value, hvalue, hbad⟩ | hsort | hsize)
  · have htop := h.top
    rw [TopIs, hvalue] at htop
    exact hbad ⟨s.top, htop⟩
  · exact hsort ⟨s.sort, h.sort⟩
  · obtain ⟨ds, unit, hwrites, -⟩ := h.maxFileSize
    exact hsize ⟨ds, unit, hwrites⟩

/-- What the settings of a project make of a run without options. -/
structure Carries (config : Config) (s : Settings) : Prop where
  top : s.top = config.top ∧ 0 < s.top
  sort : s.sort.word = config.sort ∧ s.sort ∈ SortKey.all
  maxFileSize : ∃ ds unit, FileSize.Writes config.maxFileSize ds unit ∧
    s.maxFileSize = Number.round (FileSize.bytes ds unit) ∧
    (FileSize.bytes ds unit ≤ Number.safeLimit → s.maxFileSize = FileSize.bytes ds unit)
  maxFileSize_nonneg : Number.le 0 s.maxFileSize = true
  concurrency : s.concurrency = config.concurrency ∧ ∀ n ∈ s.concurrency, 0 < n

theorem Overlays.carries {config : Config} {s : Settings} (h : Overlays config {} s)
    (hadmitted : config.Admitted) : Carries config s := by
  obtain ⟨ds, unit, hwrites, hround⟩ := h.maxFileSize
  have htop : s.top = config.top := h.top
  constructor
  · exact ⟨htop, htop ▸ hadmitted.top⟩
  · exact ⟨h.sort, by cases s.sort <;> decide⟩
  · refine ⟨ds, unit, hwrites, hround, fun hsafe => ?_⟩
    rw [hround, Number.round_exact (hsafe.trans (Nat.sub_le _ _))]
    rfl
  · rw [hround]
    exact Number.zero_le_round (Nat.cast_nonneg _)
  · exact ⟨h.concurrency, h.concurrency ▸ hadmitted.concurrency⟩

/-- What is loaded resolves; a fault blames the first option that fails, and there is none if none
fails. -/
theorem resolve_load :
    (∀ (path : String) (source : Config.Source), ∃ s,
      resolve (Config.load path source).1 {} = .ok s ∧ Carries (Config.load path source).1 s) ∧
    ∀ (config : Config) (options : Options),
      ((∃ fault, resolve config options = .error fault) ↔
        TopFails options ∨ SortFails config options ∨ SizeFails config options) ∧
      ∀ fault, resolve config options = .error fault →
        fault.code = "INVALID_OPTION" ∧
          ∃ option detail, fault = .invalidOption option detail ∧ Blames config options option := by
  constructor
  · intro path source
    have hadmitted := Config.load_admitted path source
    rcases resolve_cases (Config.load path source).1 {} with ⟨s, hok, hs⟩ | ⟨_, _, -, hblames⟩
    · exact ⟨s, hok, hs.carries hadmitted⟩
    · rcases hblames.fails with ⟨_, ⟨⟩, -⟩ | hsort | hsize
      · exact absurd hadmitted.sort hsort
      · exact absurd hadmitted.maxFileSize hsize
  · intro config options
    rcases resolve_cases config options with ⟨s, hok, hs⟩ | ⟨option, detail, herror, hblames⟩
    · refine ⟨⟨?_, fun hfails => absurd hfails hs.sound⟩, ?_⟩
      · rintro ⟨fault, hfault⟩
        rw [hok] at hfault
        cases hfault
      · intro fault hfault
        rw [hok] at hfault
        cases hfault
    · refine ⟨⟨fun _ => hblames.fails, fun _ => ⟨_, herror⟩⟩, ?_⟩
      intro fault hfault
      rw [herror] at hfault
      cases hfault
      exact ⟨rfl, option, detail, rfl, hblames⟩

theorem resolve_load_samples :
    (∃ s, resolve (Config.load "cohesion.config.json" .missing).1 {} = .ok s ∧
      s.maxFileSize = (1048576 : Nat)) ∧
    Blames .default { top := some "1.5", sort := some "size" } "--top" := by
  constructor
  · obtain ⟨s, hok, hcarries⟩ := resolve_load.1 "cohesion.config.json" .missing
    obtain ⟨ds, unit, hwrites, -, hexact⟩ := hcarries.maxFileSize
    have hparts : FileSize.parts? "1MB" = some (['1'], 1024 * 1024) := by decide
    cases hparts.symm.trans (FileSize.parts?_eq_some_iff.mpr hwrites)
    exact ⟨s, hok, hexact (by decide)⟩
  · have hfault : resolve .default { top := some "1.5", sort := some "size" } =
        .error (.invalidOption "--top" "expected a positive integer, got \"1.5\"") := by
      decide +kernel
    obtain ⟨-, option, detail, heq, hblames⟩ := (resolve_load.2 _ _).2 _ hfault
    cases heq
    exact hblames

end Settings

end ClassCohesion
