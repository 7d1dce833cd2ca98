import ClassCohesion.Proofs.JsonRoundTrip
import ClassCohesion.Settings.Config

/-!
# What a settings file holds

`Describes` says what the fields of a settings file have to be like and which settings they give: a
known field has a value of its kind, an absent one stands for its default, and there are no other
fields. A file that is not like that, in whatever way, gives the default settings as a whole.

- `FileSize.parts?_eq_some_iff`: which texts write a file size.
- `Config.ofFields_eq_ok_iff`: checking fields is deciding `Describes`.
- `Config.load_admitted`: whatever the file is like, the settings are admissible.
- `Config.describes_written`: settings are described by what is read from their text.
-/

namespace ClassCohesion

/-! ## File sizes -/

namespace FileSize

/-- The letters for a number of bytes. -/
inductive UnitLetters : List Char → Nat → Prop where
  | kilo {k b : Char} (hk : k = 'k' ∨ k = 'K') (hb : b = 'b' ∨ b = 'B') : UnitLetters [k, b] 1024
  | mega {m b : Char} (hm : m = 'm' ∨ m = 'M') (hb : b = 'b' ∨ b = 'B') :
    UnitLetters [m, b] (1024 * 1024)

/-- The text consists of digits and of the letters for a number of bytes. -/
structure Writes (s : String) (ds : List Char) (unit : Nat) : Prop where
  nonempty : ds ≠ []
  digits : ∀ c ∈ ds, c.isDigit = true
  text : ∃ letters, s.toList = ds ++ letters ∧ UnitLetters letters unit

theorem toUpper_eq_iff {c d : Char} (hd : d.isUpper = true) :
    c.toUpper = d ↔ c = d.toLower ∨ c = d := by
  have hbounds : 65 ≤ d.val.toNat ∧ d.val.toNat ≤ 90 := of_decide_eq_true hd
  have hlower : d.toLower.val.toNat = d.val.toNat + 32 := by
    unfold Char.toLower
    rw [dif_pos (of_decide_eq_true hd)]
    show (d.val + 32).toNat = _
    rw [UInt32.toNat_add]
    apply Nat.mod_eq_of_lt
    show d.val.toNat + 32 < 2 ^ 32
    omega
  simp only [Char.ext_iff, ← UInt32.toNat_inj, hlower]
  unfold Char.toUpper
  split
  · rename_i h
    have h : 97 ≤ c.val.toNat ∧ c.val.toNat ≤ 122 := h
    have hupper : (c.val + ('A'.val - 'a'.val)).toNat = c.val.toNat - 32 := by
      rw [UInt32.toNat_add]
      show (c.val.toNat + 4294967264) % 4294967296 = _
      omega
    rw [hupper]
    omega
  · rename_i h
    have h : ¬(97 ≤ c.val.toNat ∧ c.val.toNat ≤ 122) := h
    omega

theorem toUpper_pair {cs : List Char} {a b : Char} (ha : a.isUpper = true) (hb : b.isUpper = true)
    (h : cs.map Char.toUpper = [a, b]) :
    ∃ c d, cs = [c, d] ∧ (c = a.toLower ∨ c = a) ∧ (d = b.toLower ∨ d = b) := by
  match cs, h with
  | [c, d], h =>
    obtain ⟨hc, hd, -⟩ := List.cons.inj h |>.imp_right List.cons.inj
    exact ⟨c, d, rfl, (toUpper_eq_iff ha).mp hc, (toUpper_eq_iff hb).mp hd⟩

theorem unit?_eq_some_iff {cs : List Char} {unit : Nat} :
    unit? cs = some unit ↔ UnitLetters cs unit := by
  constructor
  · intro h
    unfold unit? at h
    split at h
    · rename_i heq
      obtain ⟨k, b, rfl, hk, hb⟩ := toUpper_pair rfl rfl heq
      cases h
      exact .kilo hk hb
    · rename_i heq
      obtain ⟨m, b, rfl, hm, hb⟩ := toUpper_pair rfl rfl heq
      cases h
      exact .mega hm hb
    · cases h
  · rintro (⟨rfl | rfl, rfl | rfl⟩ | ⟨rfl | rfl, rfl | rfl⟩) <;> rfl

theorem UnitLetters.head_not_digit {letters : List Char} {unit : Nat}
    (h : UnitLetters letters unit) : ∀ c ∈ letters.head?, c.isDigit = false := by
  intro c hc
  rcases h with ⟨hk, -⟩ | ⟨hm, -⟩
  · cases hc
    rcases hk with rfl | rfl <;> rfl
  · cases hc
    rcases hm with rfl | rfl <;> rfl

theorem parts?_eq_some_iff {s : String} {ds : List Char} {unit : Nat} :
    parts? s = some (ds, unit) ↔ Writes s ds unit := by
  constructor
  · intro h
    simp only [parts?] at h
    split at h
    · cases h
    · rename_i hempty
      obtain ⟨_, hunit, heq⟩ := Option.map_eq_some_iff.mp h
      cases heq
      exact {
        nonempty := by simpa using hempty
        digits := fun c hc => List.mem_takeWhile_imp hc
        text := ⟨_, List.takeWhile_append_dropWhile.symm, unit?_eq_some_iff.mp hunit⟩ }
  · rintro ⟨hne, hdigits, letters, htext, hletters⟩
    simp only [parts?, htext, Number.spanDigits_append hdigits hletters.head_not_digit]
    simp [hne, unit?_eq_some_iff.mpr hletters]

theorem isValid_iff {s : String} : isValid s = true ↔ ∃ ds unit, Writes s ds unit := by
  simp [isValid, Option.isSome_iff_exists, parts?_eq_some_iff]

end FileSize

theorem SortKey.ofWord?_eq_some_iff {word : String} {key : SortKey} :
    ofWord? word = some key ↔ key.word = word := by
  constructor
  · intro h
    simpa using List.find?_some h
  · rintro rfl
    cases key <;> decide

namespace Number

theorem toNat?_eq_some_iff {x : Number} {n : Nat} : x.toNat? = some n ↔ x = n := by
  cases x with
  | finite v =>
    show (if v.den = 1 ∧ 0 ≤ v.num then some v.num.toNat else none) = some n ↔
      Number.finite v = .finite n
    rw [Option.ite_none_right_eq_some, Number.finite.injEq, Option.some_inj]
    constructor
    · rintro ⟨⟨hden, hnum⟩, rfl⟩
      rw [← Int.cast_natCast (R := ℚ), Int.toNat_of_nonneg hnum]
      exact ((Rat.den_eq_one_iff v).mp hden).symm
    · rintro rfl
      simp
  | infinity => exact ⟨nofun, nofun⟩
  | negInfinity => exact ⟨nofun, nofun⟩
  | nan => exact ⟨nofun, nofun⟩

theorem isWhole_and_pos_iff {x : Number} :
    x.isWhole = true ∧ lt 0 x = true ↔ ∃ n : Nat, 0 < n ∧ x = n := by
  cases x with
  | finite v =>
    show decide (v.den = 1) = true ∧ decide (((0 : Nat) : ℚ) < v) = true ↔
      ∃ n : Nat, 0 < n ∧ Number.finite v = .finite n
    simp only [decide_eq_true_eq, Number.finite.injEq, Nat.cast_zero]
    constructor
    · rintro ⟨hden, hpos⟩
      have hnum : 0 < v.num := Rat.num_pos.mpr hpos
      obtain ⟨n, hn⟩ := Int.eq_ofNat_of_zero_le hnum.le
      have hv : (v.num : ℚ) = v := (Rat.den_eq_one_iff v).mp hden
      refine ⟨n, by omega, ?_⟩
      rw [← hv, hn]
      exact Int.cast_natCast n
    · rintro ⟨n, hn, rfl⟩
      exact ⟨Rat.den_natCast n, by exact_mod_cast hn⟩
  | infinity => exact ⟨nofun, nofun⟩
  | negInfinity => exact ⟨nofun, nofun⟩
  | nan => exact ⟨nofun, nofun⟩

end Number

namespace Config

/-! ## Admissible values -/

/-- A text that writes a file size. -/
def IsSize (s : String) : Prop := ∃ ds unit, FileSize.Writes s ds unit

/-- A word for an order. -/
def IsSort (s : String) : Prop := ∃ key : SortKey, key.word = s

def StringsValue (j : Json) (ss : List String) : Prop := j = .ofStrings ss

def BooleanValue (j : Json) (b : Bool) : Prop := j = .bool b

def SizeValue (j : Json) (s : String) : Prop := j = .str s ∧ IsSize s

def PositiveValue (j : Json) (n : Nat) : Prop := j = .num n ∧ 0 < n

def SortValue (j : Json) (s : String) : Prop := j = .str s ∧ IsSort s

/-- A field that may be absent, and what it gives. -/
def Entry {α : Type} (value : Json → α → Prop) (absent : α) : Option Json → α → Prop
  | some j, v => value j v
  | none, v => v = absent

/-- What the fields of a settings file, remarks apart, say about the settings. -/
structure Describes (fields : Json.Fields) (c : Config) : Prop where
  known : ∀ f ∈ fields, f.1 ∈ knownFields
  included : Entry StringsValue default.included (fields.lookup "include") c.included
  excluded : Entry StringsValue default.excluded (fields.lookup "exclude") c.excluded
  skipTestFiles :
    Entry BooleanValue default.skipTestFiles (fields.lookup "skipTestFiles") c.skipTestFiles
  maxFileSize : Entry SizeValue default.maxFileSize (fields.lookup "maxFileSize") c.maxFileSize
  concurrency :
    Entry (fun j v => ∃ n, PositiveValue j n ∧ v = some n) none (fields.lookup "concurrency")
      c.concurrency
  top : Entry PositiveValue default.top (fields.lookup "top") c.top
  sort : Entry SortValue default.sort (fields.lookup "sort") c.sort

/-! ## Checking -/

/-- Nothing is wrong with a value. -/
def Checked.Yields {α : Type} (checked : Checked α) (v : α) : Prop :=
  checked.issues = [] ∧ checked.value = v

theorem exists_map_str {items : List Json} (h : ∀ j ∈ items, ∃ s, j = .str s) :
    ∃ ss : List String, items = ss.map .str := by
  induction items with
  | nil => exact ⟨[], rfl⟩
  | cons item items ih =>
    obtain ⟨s, rfl⟩ := h item List.mem_cons_self
    obtain ⟨ss, rfl⟩ := ih fun j hj => h j (List.mem_cons_of_mem _ hj)
    exact ⟨s :: ss, rfl⟩

theorem strings_ofStrings (field : String) (ss : List String) :
    (strings field (.ofStrings ss)).Yields ss := by
  constructor
  · apply List.filterMap_eq_nil_iff.mpr
    rintro ⟨j, i⟩ hmem
    have hj : j ∈ ss.map Json.str := List.mem_of_getElem? (List.mk_mem_zipIdx_iff_getElem?.mp hmem)
    obtain ⟨s, -, rfl⟩ := List.mem_map.mp hj
    rfl
  · show (ss.map Json.str).filterMap _ = ss
    rw [List.filterMap_map]
    exact List.filterMap_some

theorem strings_yields (field : String) (j : Json) (ss : List String) :
    (strings field j).Yields ss ↔ StringsValue j ss := by
  constructor
  · rintro ⟨hissues, hvalue⟩
    cases j with
    | arr items =>
      have hitems : ∀ j ∈ items, ∃ s, j = .str s := by
        intro j hj
        obtain ⟨i, hi⟩ := List.mem_iff_getElem?.mp hj
        have hnone := List.filterMap_eq_nil_iff.mp hissues (j, i)
          (List.mk_mem_zipIdx_iff_getElem?.mpr hi)
        cases j with
        | str s => exact ⟨s, rfl⟩
        | null => cases hnone
        | bool b => cases hnone
        | num n => cases hnone
        | arr items => cases hnone
        | obj fields => cases hnone
      obtain ⟨ss', rfl⟩ := exists_map_str hitems
      exact congrArg Json.ofStrings ((strings_ofStrings field ss').2.symm.trans hvalue)
    | null => cases hissues
    | bool b => cases hissues
    | num n => cases hissues
    | str s => cases hissues
    | obj fields => cases hissues
  · rintro rfl
    exact strings_ofStrings field ss

theorem boolean_yields (field : String) (j : Json) (b : Bool) :
    (boolean field j).Yields b ↔ BooleanValue j b := by
  cases j with
  | bool b' => simp [Checked.Yields, boolean, BooleanValue]
  | _ => exact ⟨nofun, nofun⟩

theorem yields_guard {α : Type} {v v' : α} {b : Bool} {issue : Issue} :
    (Checked.mk v' (if b then [] else [issue])).Yields v ↔ v' = v ∧ b = true := by
  cases b <;> simp [Checked.Yields]

theorem size_yields (field : String) (j : Json) (s : String) :
    (size field j).Yields s ↔ SizeValue j s := by
  cases j with
  | str s' =>
    rw [size, yields_guard, FileSize.isValid_iff, SizeValue, Json.str.injEq]
    exact and_congr_right fun h => h ▸ Iff.rfl
  | _ => exact ⟨nofun, nofun⟩

theorem choice_yields (field : String) (j : Json) (s : String) :
    (choice field j).Yields s ↔ SortValue j s := by
  cases j with
  | str s' =>
    rw [choice, yields_guard, Option.isSome_iff_exists, SortValue, Json.str.injEq]
    simp only [SortKey.ofWord?_eq_some_iff]
    exact and_congr_right fun h => h ▸ Iff.rfl
  | _ => exact ⟨nofun, nofun⟩

theorem positive_yields (field : String) (j : Json) (n : Nat) :
    (positive field j).Yields n ↔ PositiveValue j n := by
  cases j with
  | num x =>
    simp only [Checked.Yields, positive, PositiveValue, Json.num.injEq]
    constructor
    · rintro ⟨hissues, rfl⟩
      have hx : x.isWhole = true ∧ Number.lt 0 x = true := by simpa using hissues
      obtain ⟨k, hk, rfl⟩ := Number.isWhole_and_pos_iff.mp hx
      rw [Number.toNat?_eq_some_iff.mpr rfl]
      exact ⟨rfl, hk⟩
    · rintro ⟨rfl, hn⟩
      obtain ⟨hwhole, hpos⟩ := Number.isWhole_and_pos_iff.mpr ⟨n, hn, rfl⟩
      rw [hwhole, hpos, Number.toNat?_eq_some_iff.mpr rfl]
      exact ⟨rfl, rfl⟩
  | _ => exact ⟨nofun, nofun⟩

theorem check_yields {α : Type} {accept : String → Json → Checked α} {value : Json → α → Prop}
    (h : ∀ field j v, (accept field j).Yields v ↔ value j v) (fields : Json.Fields) (name : String)
    (absent v : α) :
    (check fields name absent accept).Yields v ↔ Entry value absent (fields.lookup name) v := by
  unfold check
  cases fields.lookup name with
  | some j => exact h name j v
  | none => exact ⟨fun hv => hv.2.symm, fun hv => ⟨rfl, hv.symm⟩⟩

/-- Checking fields is deciding what they describe. -/
theorem ofFields_eq_ok_iff {fields : Json.Fields} {c : Config} :
    ofFields fields = .ok c ↔ Describes fields c := by
  have hconcurrency : ∀ field j v, (Checked.mk (some (positive field j).value)
      (positive field j).issues).Yields v ↔ ∃ n, PositiveValue j n ∧ v = some n := by
    intro field j v
    simp only [← positive_yields field j, Checked.Yields]
    constructor
    · rintro ⟨hissues, rfl⟩
      exact ⟨_, ⟨hissues, rfl⟩, rfl⟩
    · rintro ⟨n, ⟨hissues, rfl⟩, rfl⟩
      exact ⟨hissues, rfl⟩
  have hunknown : ((fields.map (·.1)).filter fun name => !knownFields.contains name) = [] ↔
      ∀ f ∈ fields, f.1 ∈ knownFields := by
    simp [List.filter_eq_nil_iff]
  constructor
  · intro h
    simp only [ofFields] at h
    rcases ite_eq_iff.mp h with ⟨hissues, hc⟩ | ⟨-, hc⟩
    · cases hc
      simp only [List.isEmpty_iff, List.append_eq_nil_iff] at hissues
      obtain ⟨⟨⟨⟨⟨⟨⟨hincluded, hexcluded⟩, htests⟩, hsize⟩, hconc⟩, htop⟩, hsort⟩, hnames⟩ := hissues
      exact {
        known := hunknown.mp (by simpa using hnames)
        included := (check_yields strings_yields fields _ _ _).mp ⟨hincluded, rfl⟩
        excluded := (check_yields strings_yields fields _ _ _).mp ⟨hexcluded, rfl⟩
        skipTestFiles := (check_yields boolean_yields fields _ _ _).mp ⟨htests, rfl⟩
        maxFileSize := (check_yields size_yields fields _ _ _).mp ⟨hsize, rfl⟩
        concurrency := (check_yields hconcurrency fields _ _ _).mp ⟨hconc, rfl⟩
        top := (check_yields positive_yields fields _ _ _).mp ⟨htop, rfl⟩
        sort := (check_yields choice_yields fields _ _ _).mp ⟨hsort, rfl⟩ }
    · cases hc
  · intro h
    obtain ⟨hincluded, hincluded'⟩ := (check_yields strings_yields fields _ _ _).mpr h.included
    obtain ⟨hexcluded, hexcluded'⟩ := (check_yields strings_yields fields _ _ _).mpr h.excluded
    obtain ⟨htests, htests'⟩ := (check_yields boolean_yields fields _ _ _).mpr h.skipTestFiles
    obtain ⟨hsize, hsize'⟩ := (check_yields size_yields fields _ _ _).mpr h.maxFileSize
    obtain ⟨hconc, hconc'⟩ := (check_yields hconcurrency fields _ _ _).mpr h.concurrency
    obtain ⟨htop, htop'⟩ := (check_yields positive_yields fields _ _ _).mpr h.top
    obtain ⟨hsort, hsort'⟩ := (check_yields choice_yields fields _ _ _).mpr h.sort
    simp only [ofFields, hincluded, hexcluded, htests, hsize, hconc, htop, hsort,
      hunknown.mpr h.known, hincluded', hexcluded', htests', hsize', hconc', htop', hsort']
    rfl

/-! ## Admissible settings -/

/-- Settings that a settings file can give. -/
structure Admitted (c : Config) : Prop where
  maxFileSize : IsSize c.maxFileSize
  concurrency : ∀ n ∈ c.concurrency, 0 < n
  top : 0 < c.top
  sort : IsSort c.sort

theorem default_admitted : Admitted default where
  maxFileSize := FileSize.isValid_iff.mp (by decide)
  concurrency := nofun
  top := by decide
  sort := ⟨.lcom, rfl⟩

theorem Entry.elim {α : Type} {value : Json → α → Prop} {absent v : α} {j? : Option Json}
    (h : Entry value absent j? v) (good : α → Prop) (hvalue : ∀ j v, value j v → good v)
    (habsent : good absent) : good v := by
  cases j? with
  | some j => exact hvalue j v h
  | none => exact h ▸ habsent

theorem Describes.admitted {fields : Json.Fields} {c : Config} (h : Describes fields c) :
    Admitted c where
  maxFileSize := h.maxFileSize.elim IsSize (fun _ _ hv => hv.2) default_admitted.maxFileSize
  concurrency := by
    refine h.concurrency.elim (fun v => ∀ n ∈ v, 0 < n) ?_ nofun
    rintro j _ ⟨n, hn, rfl⟩ _ ⟨⟩
    exact hn.2
  top := h.top.elim (0 < ·) (fun _ _ hv => hv.2) default_admitted.top
  sort := h.sort.elim IsSort (fun _ _ hv => hv.2) default_admitted.sort

/-! ## Loading -/

/-- The file is an object whose fields describe the settings. -/
def Source.Holds (source : Source) (c : Config) : Prop :=
  ∃ content fields, source = .text content ∧ Json.parse? content = some (.obj fields) ∧
    Describes (withoutRemarks fields) c

theorem load_of_holds {source : Source} {c : Config} (h : source.Holds c) (path : String) :
    (load path source).1 = c := by
  obtain ⟨content, fields, rfl, hparse, hdescribes⟩ := h
  simp only [load, hparse, ofFields_eq_ok_iff.mpr hdescribes]

theorem load_of_not_holds {source : Source} (h : ∀ c, ¬source.Holds c) (path : String) :
    (load path source).1 = default := by
  cases source with
  | missing => rfl
  | unreadable reason => rfl
  | text content =>
    simp only [load]
    split
    · rfl
    · rename_i fields hparse
      split
      · rename_i config hconfig
        exact absurd ⟨content, fields, rfl, hparse, ofFields_eq_ok_iff.mp hconfig⟩ (h config)
      · rfl
    · rfl

theorem load_admitted (path : String) (source : Source) : Admitted (load path source).1 := by
  by_cases h : ∃ c, source.Holds c
  · obtain ⟨c, hc⟩ := h
    rw [load_of_holds hc]
    obtain ⟨_, _, -, -, hdescribes⟩ := hc
    exact hdescribes.admitted
  · rw [load_of_not_holds (not_exists.mp h)]
    exact default_admitted

/-! ## Settings and their text -/

section Text

variable {c : Config} {fields : Json.Fields}

/-- The counts among the settings are numbers without rounding. -/
structure Exact (c : Config) : Prop where
  concurrency : ∀ n ∈ c.concurrency, Number.round n = .finite n
  top : Number.round c.top = .finite c.top

theorem not_remark : ∀ name ∈ knownFields, Text.startsWith name "_" = false := by decide

theorem toFields_names (c : Config) : (c.toFields.map Prod.fst).Sublist knownFields := by
  unfold toFields
  cases c.concurrency with
  | none =>
    show ["include", "exclude", "skipTestFiles", "maxFileSize", "top", "sort"].Sublist knownFields
    decide
  | some n => exact List.Sublist.refl knownFields

theorem toFields_nodup (c : Config) : (c.toFields.map Prod.fst).Nodup :=
  (toFields_names c).nodup (by decide)

theorem toFields_describes (h : Admitted c) : Describes c.toFields c := by
  have hget : ∀ {name j}, (name, j) ∈ c.toFields → c.toFields.lookup name = some j :=
    fun hmem => (Json.Fields.lookup_eq_some_iff_mem (toFields_nodup c)).mpr hmem
  have hconcurrency : c.toFields.lookup "concurrency" = c.concurrency.map fun n => .num n := by
    cases hn : c.concurrency with
    | none => simp [toFields, hn, Json.Fields.lookup_cons_ite]
    | some n => exact hget (by simp [toFields, hn])
  constructor
  · exact fun f hf => (toFields_names c).subset (List.mem_map_of_mem hf)
  · rw [hget (j := .ofStrings c.included) (by simp [toFields])]
    rfl
  · rw [hget (j := .ofStrings c.excluded) (by simp [toFields])]
    rfl
  · rw [hget (j := .bool c.skipTestFiles) (by simp [toFields])]
    rfl
  · rw [hget (j := .str c.maxFileSize) (by simp [toFields])]
    exact ⟨rfl, h.maxFileSize⟩
  · rw [hconcurrency]
    cases hn : c.concurrency with
    | none => rfl
    | some n => exact ⟨n, ⟨rfl, h.concurrency n hn⟩, rfl⟩
  · rw [hget (j := .num c.top) (by simp [toFields])]
    exact ⟨rfl, h.top⟩
  · rw [hget (j := .str c.sort) (by simp [toFields])]
    exact ⟨rfl, h.sort⟩

theorem Describes.of_lookup {fields' : Json.Fields} (h : Describes fields c)
    (hknown : ∀ f ∈ fields', f.1 ∈ knownFields)
    (hlookup : ∀ name ∈ knownFields, fields'.lookup name = fields.lookup name) :
    Describes fields' c where
  known := hknown
  included := hlookup "include" (by decide) ▸ h.included
  excluded := hlookup "exclude" (by decide) ▸ h.excluded
  skipTestFiles := hlookup "skipTestFiles" (by decide) ▸ h.skipTestFiles
  maxFileSize := hlookup "maxFileSize" (by decide) ▸ h.maxFileSize
  concurrency := hlookup "concurrency" (by decide) ▸ h.concurrency
  top := hlookup "top" (by decide) ▸ h.top
  sort := hlookup "sort" (by decide) ▸ h.sort

theorem lookup_withoutRemarks {name : String} (h : Text.startsWith name "_" = false)
    (fields : Json.Fields) : (withoutRemarks fields).lookup name = fields.lookup name := by
  induction fields with
  | nil => rfl
  | cons f fields ih =>
    rw [withoutRemarks, List.filter_cons, Json.Fields.lookup_cons_ite]
    split
    · rw [Json.Fields.lookup_cons_ite]
      exact congrArg _ ih
    · rename_i hremark
      have hne : name ≠ f.1 := by
        rintro rfl
        exact hremark (by rw [h]; rfl)
      rw [if_neg hne]
      exact ih

theorem reread_ofStrings (ss : List String) : (Json.ofStrings ss).reread = .ofStrings ss := by
  rw [Json.ofStrings, Json.reread, Json.rereadItems_eq_map, List.map_map]
  rfl

theorem reread_toFields (h : Exact c) : ∀ f ∈ c.toFields, f.2.reread = f.2 := by
  intro f hf
  simp only [toFields, List.mem_append, List.mem_cons, List.mem_map, List.not_mem_nil,
    or_false, Option.mem_toList] at hf
  rcases hf with ((rfl | rfl | rfl | rfl) | ⟨n, hn, rfl⟩) | rfl | rfl
  · exact reread_ofStrings c.included
  · exact reread_ofStrings c.excluded
  · rfl
  · rfl
  · exact congrArg Json.num (Number.reread_exact (h.concurrency n hn))
  · exact congrArg Json.num (Number.reread_exact h.top)
  · rfl

theorem lookup_reread_toFields (h : Exact c) (name : String) :
    (c.toFields.lookup name).map Json.reread = c.toFields.lookup name := by
  cases hvalue : c.toFields.lookup name with
  | none => rfl
  | some j =>
    have hmem := (Json.Fields.lookup_eq_some_iff_mem (toFields_nodup c)).mp hvalue
    exact congrArg some (reread_toFields h _ hmem)

theorem lookup_written (h : Exact c) (hp : (withoutRemarks fields).Perm c.toFields) {name : String}
    (hname : Text.startsWith name "_" = false) :
    (withoutRemarks (.ofPairs (Json.rereadFields fields))).lookup name =
      c.toFields.lookup name := by
  have hreverse : (withoutRemarks fields.reverse).Perm c.toFields := by
    rw [withoutRemarks, List.filter_reverse]
    exact (List.reverse_perm _).trans hp
  calc (withoutRemarks (.ofPairs (Json.rereadFields fields))).lookup name
      = (fields.reverse.lookup name).map Json.reread := by
        rw [lookup_withoutRemarks hname, Json.Fields.lookup_reread]
    _ = ((withoutRemarks fields.reverse).lookup name).map Json.reread := by
        rw [lookup_withoutRemarks hname]
    _ = (c.toFields.lookup name).map Json.reread := by
        rw [Json.Fields.lookup_eq_of_perm (toFields_nodup c) hreverse.symm]
    _ = c.toFields.lookup name := lookup_reread_toFields h name

/-- Settings are described by what is read from a text of theirs, whatever the remarks. -/
theorem describes_written (h : Admitted c) (he : Exact c)
    (hp : (withoutRemarks fields).Perm c.toFields) :
    Describes (withoutRemarks (.ofPairs (Json.rereadFields fields))) c := by
  refine (toFields_describes h).of_lookup ?_ fun name hname =>
    lookup_written he hp (not_remark name hname)
  intro f hf
  have hnodup : ((withoutRemarks (.ofPairs (Json.rereadFields fields))).map Prod.fst).Nodup :=
    (List.filter_sublist.map Prod.fst).nodup (Json.Fields.nodup_ofPairs _)
  have hlookup := (Json.Fields.lookup_eq_some_iff_mem hnodup).mpr hf
  have hname : Text.startsWith f.1 "_" = false := by simpa using (List.mem_filter.mp hf).2
  rw [lookup_written he hp hname, Json.Fields.lookup_eq_some_iff_mem (toFields_nodup c)] at hlookup
  exact (toFields_names c).subset (List.mem_map_of_mem hlookup)

end Text

/-- A settings file counts as a whole or not at all, and settings are loaded from their text. -/
theorem load_all_or_nothing (path : String) :
    (∀ source c, source.Holds c → (load path source).1 = c) ∧
      (∀ source, (∀ c, ¬source.Holds c) → (load path source).1 = default) ∧
      ∀ (c : Config) (fields : Json.Fields), Admitted c → Exact c →
        (withoutRemarks fields).Perm c.toFields →
        (load path (.text (Json.obj fields).compact)).1 = c ∧
          (load path (.text (Json.obj fields).pretty)).1 = c := by
  refine ⟨fun source c h => load_of_holds h path, fun source h => load_of_not_holds h path, ?_⟩
  intro c fields hadmitted hexact hperm
  have hdescribes := describes_written hadmitted hexact hperm
  constructor
  · exact load_of_holds ⟨_, _, rfl, Json.parse?_compact _, hdescribes⟩ path
  · exact load_of_holds ⟨_, _, rfl, Json.parse?_pretty _, hdescribes⟩ path

/-- Settings with a value of their own in every field. -/
def sampleConfig : Config where
  included := ["src/**/*.ts", "\"quoted\"\n"]
  excluded := []
  skipTestFiles := false
  maxFileSize := "500kB"
  concurrency := some 4
  top := 7
  sort := "wmc"

theorem sampleConfig_admitted : Admitted sampleConfig where
  maxFileSize := FileSize.isValid_iff.mp (by decide)
  concurrency := by rintro _ ⟨⟩; decide
  top := by decide
  sort := ⟨.wmc, rfl⟩

theorem sampleConfig_exact : Exact sampleConfig where
  concurrency := by rintro _ ⟨⟩; exact Number.round_exact (by norm_num)
  top := Number.round_exact (by norm_num [sampleConfig])

/-- The fields of these settings in another order and with remarks between them. -/
def sampleFields : Json.Fields :=
  ("_availableOptions", .obj [("top", .num 20), ("_note", .null)]) ::
    sampleConfig.toFields.reverse ++ [("_comment", .arr [.num (.finite (1 / 10)), .bool true])]

theorem sampleFields_perm : (withoutRemarks sampleFields).Perm sampleConfig.toFields := by
  have hfields : withoutRemarks sampleFields = sampleConfig.toFields.reverse := rfl
  rw [hfields]
  exact List.reverse_perm _

/-- One bad word takes the other field with it. -/
def badSource : Source := .text (Json.obj [("top", .num 3), ("sort", .str "size")]).compact

theorem badSource_holds_nothing (c : Config) : ¬badSource.Holds c := by
  rintro ⟨_, fields, ⟨⟩, hparse, hdescribes⟩
  rw [Json.parse?_compact, Option.some_inj] at hparse
  cases hparse
  have hsort := hdescribes.sort
  rw [lookup_withoutRemarks (by decide), Json.Fields.lookup_reread] at hsort
  obtain ⟨hvalue, key, hkey⟩ := hsort
  have hword : key.word = "size" := hkey.trans (Json.str.inj hvalue).symm
  cases key <;> revert hword <;> decide

theorem load_all_or_nothing_sample :
    (load "cohesion.config.json" (.text (Json.obj sampleFields).pretty)).1 = sampleConfig ∧
      (load "cohesion.config.json" (.text (Json.obj sampleFields).compact)).1 = sampleConfig ∧
      (load "cohesion.config.json" badSource).1 = default := by
  obtain ⟨hholds, hnothing, hwritten⟩ := load_all_or_nothing "cohesion.config.json"
  refine ⟨?_, ?_, hnothing badSource badSource_holds_nothing⟩
  · exact hholds _ _ ⟨_, _, rfl, Json.parse?_pretty _,
      describes_written sampleConfig_admitted sampleConfig_exact sampleFields_perm⟩
  · exact (hwritten sampleConfig sampleFields sampleConfig_admitted sampleConfig_exact
      sampleFields_perm).1

end Config

end ClassCohesion
