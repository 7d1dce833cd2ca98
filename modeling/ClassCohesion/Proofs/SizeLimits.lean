import ClassCohesion.Command.Basic
import ClassCohesion.Proofs.Accounts
import ClassCohesion.Proofs.SettingsResolve

/-!
# Size limits

The limit of a run is written as a file size, in the settings of the project or on the command line.
It goes through the settings to the analysis, where zero stands for no limit at all. Other than
that, a candidate is skipped as too large exactly if it has more bytes than the limit, so a lower
limit skips what a higher one does.

- `Analysis.skipsTooLarge_iff`: which files a run skips as too large.
- `Command.size_limits_ordered`: limits that are written as file sizes.
-/

namespace ClassCohesion

namespace Number

theorem le_iff {a b : Number} : le a b = true ↔ lt a b = true ∨ a ≠ nan ∧ a = b := by
  rw [le, Bool.or_eq_true, Bool.and_eq_true, bne_iff_ne, beq_iff_eq]

theorem lt_finite {u v : ℚ} : lt (finite u) (finite v) = true ↔ u < v := decide_eq_true_iff

theorem lt_trans {a b c : Number} (hab : lt a b = true) (hbc : lt b c = true) :
    lt a c = true := by
  cases a with
  | nan => cases hab
  | infinity => cases b <;> cases hab
  | negInfinity =>
    cases c with
    | finite w => rfl
    | infinity => rfl
    | negInfinity => cases b <;> cases hbc
    | nan => cases b <;> cases hbc
  | finite u =>
    cases b with
    | finite v =>
      cases c with
      | finite w => exact lt_finite.mpr ((lt_finite.mp hab).trans (lt_finite.mp hbc))
      | infinity => rfl
      | negInfinity => cases hbc
      | nan => cases hbc
    | infinity => cases c <;> cases hbc
    | negInfinity => cases hab
    | nan => cases hab

theorem lt_of_le_of_lt {a b c : Number} (hab : le a b = true) (hbc : lt b c = true) :
    lt a c = true := by
  rcases le_iff.mp hab with hab | ⟨-, rfl⟩
  · exact lt_trans hab hbc
  · exact hbc

theorem zero_le_cases {a : Number} (h : le 0 a = true) :
    a = infinity ∨ ∃ v : ℚ, 0 ≤ v ∧ a = finite v := by
  rcases le_iff.mp h with h | ⟨-, rfl⟩
  · cases a with
    | finite v => exact .inr ⟨v, (lt_finite.mp h).le, rfl⟩
    | infinity => exact .inl rfl
    | negInfinity => cases h
    | nan => cases h
  · exact .inr ⟨0, le_rfl, rfl⟩

theorem max_zero_of_le {a : Number} (h : le 0 a = true) : Number.max 0 a = a := by
  rcases zero_le_cases h with rfl | ⟨v, hv, rfl⟩
  · rfl
  · show (if lt (finite 0) (finite v) = true then finite v else finite 0) = finite v
    rcases hv.eq_or_lt with rfl | hpos
    · rfl
    · rw [if_pos (lt_finite.mpr hpos)]

/-- Of the numbers that are not negative, zero is the only limit that is none. -/
theorem le_zero_eq_false_iff {a : Number} (h : le 0 a = true) : le a 0 = false ↔ a ≠ 0 := by
  rw [← Bool.not_eq_true, not_iff_not]
  constructor
  · intro hle
    rcases le_iff.mp hle with hlt | ⟨-, heq⟩
    · rcases zero_le_cases h with rfl | ⟨v, hv, rfl⟩
      · cases hlt
      · exact absurd (lt_finite.mp hlt) hv.not_gt
    · exact heq
  · rintro rfl
    rfl

end Number

theorem FileSize.zero_le_of_parse? {size : String} {limit : Number}
    (h : FileSize.parse? size = some limit) : Number.le 0 limit = true := by
  by_cases hwrites : ∃ ds unit, FileSize.Writes size ds unit
  · obtain ⟨ds, unit, hwrites⟩ := hwrites
    rw [FileSize.parse?_of_writes hwrites] at h
    cases h
    exact Number.zero_le_round (Nat.cast_nonneg _)
  · rw [FileSize.parse?_eq_none hwrites] at h
    cases h

/-! ## What an analysis skips -/

/-- A report lists a file as too large. -/
def Report.SkipsTooLarge (report : Report) (path : String) : Prop :=
  ∃ skip ∈ report.skipped, skip.path = path ∧ skip.reason = .tooLarge

namespace Analysis

open Pool (World Ends Starts)

variable {σ : Type} {host : Host} {world : World σ (Option Source)} {options : Options}
  {files : List String} {s : σ} {path : String} {p : Problem}

theorem skipReason_asError (p : Problem) : skipReason p.asError = skipReason p := by
  cases p <;> rfl

/-- What comes of a call: the answer, if its tree can be read. -/
def called (world : World σ (Option Source)) (s : σ) (path : String) :
    Except Thrown (Option Source) :=
  (world.value s path).1.bind fun source => Thrown.lift (read id source)

/-- A world in which the size of a file does not change, nobody but the analysis itself blames a file
for its size, and nothing is without a text. -/
structure Sizes (world : World σ (Option Source)) (size : String → Except Problem Number) :
    Prop where
  size_eq : ∀ s path, (world.size s path).1 = Thrown.lift (size path)
  size_blameless : ∀ {path p}, size path = .error p → skipReason p ≠ .tooLarge
  call_blameless : ∀ {s path p}, called world s path = .error (.problem p) →
    skipReason p ≠ .tooLarge
  call_textful : ∀ s path why, (world.value s path).1 ≠ .error (.textless why)

/-- What makes a file too large: there is a limit, and the file is over it. -/
def Exceeds (size : String → Except Problem Number) (limit : Number) (path : String) : Prop :=
  Number.le limit 0 = false ∧ ∃ n, size path = .ok n ∧ Number.lt limit n = true

variable {size : String → Except Problem Number}

theorem Sizes.textful (hw : Sizes world size) : Textful world := by
  intro s path why
  refine ⟨?_, hw.call_textful s path why⟩
  rw [hw.size_eq]
  exact lift_ne_textless _ why

theorem called_of_answer {t : Thrown} (h : (world.value s path).1 = .error t) :
    called world s path = .error t := by
  rw [called, h]
  rfl

/-- A tree that cannot be read cannot be read, whatever is made of it. -/
theorem called_of_read {α : Type} {make : Option Source → α} {source : Option Source} {t : Thrown}
    (h : (world.value s path).1 = .ok source) (hread : Thrown.lift (read make source) = .error t) :
    called world s path = .error t := by
  rw [called, h]
  show Thrown.lift (read id source) = .error t
  unfold read at hread ⊢
  split at hread
  · cases hread
    rfl
  · cases hread

/-- The first phase blames a file for its size exactly if the file is too large. -/
theorem Sizes.exceeds_of_survey (hw : Sizes world size) {o : Except Thrown FileFacts}
    (h : Ends (survey host options) world path o) (ho : o = .error (.problem p))
    (hp : skipReason p = .tooLarge) : Exceeds size options.maxFileSize path := by
  cases h with
  | unsized hl ha =>
    cases ho
    rw [hw.size_eq] at ha
    exact absurd hp (hw.size_blameless (lift_eq_error ha))
  | tooLarge hl ha hn =>
    rw [hw.size_eq] at ha
    exact ⟨hl, _, lift_eq_ok ha, hn⟩
  | refused _ hr => cases hr
  | failed _ _ ha =>
    cases ho
    exact absurd hp (hw.call_blameless (called_of_answer ha))
  | finished _ _ ha => exact absurd hp (hw.call_blameless (called_of_read ha ho))

theorem Sizes.measure_blameless (hw : Sizes world size) {graph : Inheritance.Graph}
    {trees processed : Nat} {o : Except Thrown FileClasses}
    (h : Ends (measure host graph trees processed) world path o) (ho : o = .error (.problem p)) :
    skipReason p ≠ .tooLarge := by
  cases h with
  | unsized hl => cases hl
  | tooLarge hl => cases hl
  | refused _ hr => cases hr
  | failed _ _ ha =>
    cases ho
    exact hw.call_blameless (called_of_answer ha)
  | finished _ _ ha => exact hw.call_blameless (called_of_read ha ho)

theorem Sizes.not_starts (hw : Sizes world size) (h : Exceeds size options.maxFileSize path) :
    ¬Starts (survey host options) world path := by
  obtain ⟨hlimit, n, hsize, hn⟩ := h
  intro hstarts
  cases hstarts with
  | unlimited hl =>
    rw [show Number.le options.maxFileSize 0 = true from hl] at hlimit
    cases hlimit
  | within _ ha hwithin =>
    rw [hw.size_eq, hsize] at ha
    cases ha
    rw [show Number.lt options.maxFileSize n = false from hwithin] at hn
    cases hn

/-- A file that is too large never comes to its call. -/
theorem Sizes.tooLarge_of_exceeds (hw : Sizes world size) {o : Except Thrown FileFacts}
    (h : Exceeds size options.maxFileSize path) (hend : Ends (survey host options) world path o) :
    ∃ p, o = .error (.problem p) ∧ skipReason p = .tooLarge := by
  have hstarts : ¬Starts (survey host options) world path := hw.not_starts h
  obtain ⟨-, n, hsize, -⟩ := h
  cases hend with
  | unsized _ ha =>
    rw [hw.size_eq, hsize] at ha
    cases ha
  | tooLarge => exact ⟨_, rfl, rfl⟩
  | refused hs => exact absurd hs hstarts
  | failed hs => exact absurd hs hstarts
  | finished hs => exact absurd hs hstarts

/-- **What is skipped as too large.** Whatever order its calls settle in, a run skips the candidates
that are over its limit as too large, and no other file. -/
theorem skipsTooLarge_iff (hw : Sizes world size) {c : Choices}
    (hc : c.Complete host world options files s) :
    ∃ report, (run host world options files (.ok ()) (some c) s).2.report = .ok report ∧
      ∀ path, report.SkipsTooLarge path ↔ path ∈ candidates host options files ∧
        Exceeds size options.bounded.maxFileSize path := by
  have haccount := Account.of_textful hw.textful hc
  obtain ⟨report, hreport, hskipped, -⟩ := haccount.report
  refine ⟨report, hreport, fun path => ?_⟩
  constructor
  · rintro ⟨skip, hskip, rfl, hreason⟩
    obtain ⟨e, he, rfl⟩ := List.mem_map.mp (hskipped.mem_iff.mp hskip)
    change skipReason e.2 = .tooLarge at hreason
    rcases List.mem_append.mp he with he | he
    · obtain ⟨p, hend, hp⟩ := haccount.unsurveyed e he
      rw [hp, skipReason_asError] at hreason
      have hmem : e.1 ∈ candidates host options files := haccount.groups.mem_iff.mp
        (List.mem_append_left _ (List.mem_append_left _ (List.mem_map_of_mem he)))
      exact ⟨hmem, hw.exceeds_of_survey hend rfl hreason⟩
    · obtain ⟨p, hend, hp⟩ := haccount.unmeasured e he
      rw [hp, skipReason_asError] at hreason
      exact absurd hreason (hw.measure_blameless hend rfl)
  · rintro ⟨hmem, hexceeds⟩
    -- a file that is too large does not come through the first phase
    have hlost : path ∉ (surveyRun host world options files s c.first).2.results.map
        FileFacts.file := by
      rintro hsurvived
      obtain ⟨f, hf, rfl⟩ := List.mem_map.mp hsurvived
      obtain ⟨_, ⟨⟩, -⟩ := hw.tooLarge_of_exceeds hexceeds (haccount.surveyed f hf)
    have hgroups := haccount.groups.mem_iff.mpr hmem
    rw [List.append_assoc, List.mem_append, haccount.survivors.mem_iff] at hgroups
    obtain ⟨e, he, rfl⟩ := List.mem_map.mp (hgroups.resolve_right hlost)
    obtain ⟨p, hend, hp⟩ := haccount.unsurveyed e he
    obtain ⟨_, ⟨⟩, hreason⟩ := hw.tooLarge_of_exceeds hexceeds hend
    refine ⟨skippedFile host e, ?_, rfl, ?_⟩
    · exact hskipped.mem_iff.mpr (List.mem_map_of_mem (List.mem_append_left _ he))
    · show skipReason e.2 = .tooLarge
      rw [hp, skipReason_asError]
      exact hreason

end Analysis

namespace Command

open Analysis (Choices Sizes Exceeds candidates)

/-- A parser that refuses no file for its size, and whose trees do not either: only a limit does. -/
def Parser.MindsNoSize {σ : Type} (parser : Parser σ) : Prop :=
  ∀ s path p, (parser.source s path).1.bind (Analysis.read id) = .error p →
    Analysis.skipReason p ≠ .tooLarge

/-- Settings whose limit is written as `size`: by the option, or else by the project. -/
def LimitedBy (settings : Settings) (size : String) : Prop :=
  ∃ config options, Settings.resolve config options = .ok settings ∧
    options.maxFileSize.getD config.maxFileSize = size

theorem LimitedBy.parse? {settings : Settings} {size : String} (h : LimitedBy settings size) :
    FileSize.parse? size = some settings.maxFileSize := by
  obtain ⟨config, options, hok, rfl⟩ := h
  rcases Settings.resolve_cases config options with ⟨s, hs, hoverlays⟩ | ⟨_, _, herror, -⟩
  · rw [hok] at hs
    cases hs
    obtain ⟨ds, unit, hwrites, hlimit⟩ := hoverlays.maxFileSize
    rw [FileSize.parse?_of_writes hwrites, hlimit]
  · rw [hok] at herror
    cases herror

section

variable {σ : Type} (m : Machine) (parser : Parser σ) (disk : Disk) (project : String)
  (files : List String) (s : σ)

/-- The size of a file as an analysis is told it. -/
def sizeOn (path : String) : Except Problem Number :=
  ((disk.stat m.host path).map fun n => (n : Number)).mapError fun f => .error "Error" f.message

/-- A run over the files under settings, in one order of its calls or another, gives a report. -/
def Gives (settings : Settings) (report : Report) : Prop :=
  ∃ choices : Option Choices,
    (∀ c ∈ choices, c.Complete m.host (world m parser disk) (analysisOptions m project settings)
      files s) ∧
    (Analysis.run m.host (world m parser disk) (analysisOptions m project settings) files
      (Thrown.lift parser.ready) choices s).2.report = .ok report

end

variable {σ : Type} {m : Machine} {parser : Parser σ} {disk : Disk} {project : String}
  {files : List String} {s : σ} {settings : Settings} {size : String} {report : Report}

theorem world_sizes (h : parser.MindsNoSize) : Sizes (world m parser disk) (sizeOn m disk) where
  size_eq := fun _ _ => rfl
  size_blameless := by
    intro path p hp
    rw [sizeOn] at hp
    cases hstat : disk.stat m.host path with
    | error f =>
      rw [hstat] at hp
      cases hp
      exact nofun
    | ok n =>
      rw [hstat] at hp
      cases hp
  call_blameless := by
    intro s path p hp
    refine h s path p (Analysis.lift_eq_error ?_)
    rw [← hp]
    show _ = (Thrown.lift (parser.source s path).1).bind _
    cases (parser.source s path).1 <;> rfl
  call_textful := fun _ _ why => Analysis.lift_ne_textless _ why

theorem exceeds_iff {limit : Number} (h : Number.le 0 limit = true) {path : String} :
    Exceeds (sizeOn m disk) limit path ↔
      limit ≠ 0 ∧ ∃ n : Nat, disk.stat m.host path = .ok n ∧ Number.lt limit n = true := by
  rw [Exceeds, Number.le_zero_eq_false_iff h, sizeOn]
  cases disk.stat m.host path with
  | error f =>
    refine and_congr_right fun _ => ⟨?_, ?_⟩
    · rintro ⟨n, ⟨⟩, -⟩
    · rintro ⟨n, ⟨⟩, -⟩
  | ok k =>
    refine and_congr_right fun _ => ⟨?_, ?_⟩
    · rintro ⟨n, hn, hlt⟩
      cases hn
      exact ⟨k, rfl, hlt⟩
    · rintro ⟨n, hn, hlt⟩
      cases hn
      exact ⟨k, rfl, hlt⟩

theorem world_textful (m : Machine) (parser : Parser σ) (disk : Disk) :
    Analysis.Textful (world m parser disk) :=
  fun _ _ why => ⟨Analysis.lift_ne_textless _ why, Analysis.lift_ne_textless _ why⟩

theorem exists_report (hready : parser.ready = .ok ()) (settings : Settings) :
    ∃ report, (Analysis.run m.host (world m parser disk) (analysisOptions m project settings) files
      (Thrown.lift parser.ready) none s).2.report = .ok report := by
  obtain ⟨c, hc, hrun⟩ := Analysis.exists_complete_inOrder m.host (world m parser disk)
    (analysisOptions m project settings) files s
  obtain ⟨report, hreport, -⟩ :=
    (Analysis.Account.of_textful (world_textful m parser disk) hc).report
  refine ⟨report, ?_⟩
  rw [hready, show Thrown.lift (.ok ()) = .ok () from rfl, hrun]
  exact hreport

/-- A run that can start gives a report. -/
theorem exists_gives (hready : parser.ready = .ok ()) (settings : Settings) :
    ∃ report, Gives m parser disk project files s settings report := by
  obtain ⟨report, hreport⟩ := exists_report hready settings
  exact ⟨report, none, nofun, hreport⟩

/-- A run that gives a report can start, and it is one with complete choices: without choices there
are some that come to the same. -/
theorem Gives.exists_complete (h : Gives m parser disk project files s settings report) :
    ∃ c : Choices,
      c.Complete m.host (world m parser disk) (analysisOptions m project settings) files s ∧
      (Analysis.run m.host (world m parser disk) (analysisOptions m project settings) files
        (.ok ()) (some c) s).2.report = .ok report := by
  obtain ⟨choices, hchoices, hreport⟩ := h
  have hready : parser.ready = .ok () := by
    cases hready : parser.ready with
    | ok => rfl
    | error p =>
      rw [hready] at hreport
      cases hreport
  rw [hready, show Thrown.lift (.ok ()) = .ok () from rfl] at hreport
  cases choices with
  | some c => exact ⟨c, hchoices c rfl, hreport⟩
  | none =>
    obtain ⟨c, hc, hrun⟩ := Analysis.exists_complete_inOrder m.host (world m parser disk)
      (analysisOptions m project settings) files s
    rw [hrun] at hreport
    exact ⟨c, hc, hreport⟩

/-- What a run under a written limit skips as too large. -/
theorem Gives.skipsTooLarge_iff (hparser : parser.MindsNoSize) (hlimit : LimitedBy settings size)
    (h : Gives m parser disk project files s settings report) (path : String) :
    report.SkipsTooLarge path ↔
      path ∈ candidates m.host (analysisOptions m project settings) files ∧
        settings.maxFileSize ≠ 0 ∧ ∃ n : Nat, disk.stat m.host path = .ok n ∧
          Number.lt settings.maxFileSize n = true := by
  have hzero := FileSize.zero_le_of_parse? hlimit.parse?
  obtain ⟨c, hc, hrun⟩ := h.exists_complete
  obtain ⟨report', hreport', hskips⟩ := Analysis.skipsTooLarge_iff (world_sizes hparser) hc
  rw [hrun] at hreport'
  cases hreport'
  have hbounded : (analysisOptions m project settings).bounded.maxFileSize = settings.maxFileSize :=
    Number.max_zero_of_le hzero
  rw [hskips, hbounded, exceeds_iff hzero]

/-- **Limits are in order, but for zero.** A run whose limit is written as a file size skips a file
as too large exactly if it is a candidate with more bytes than that and the size is not zero. So of
two runs that differ in the limit only, the one with the lower limit skips all that the other does,
unless its limit is zero. -/
theorem size_limits_ordered (m : Machine) (disk : Disk) (project : String) (files : List String)
    (s : σ) (hparser : parser.MindsNoSize) (hready : parser.ready = .ok ()) :
    (∀ settings size, LimitedBy settings size → ∃ limit, FileSize.parse? size = some limit ∧
      (∃ report, Gives m parser disk project files s settings report) ∧
      ∀ report, Gives m parser disk project files s settings report →
        ∀ path, report.SkipsTooLarge path ↔
          path ∈ candidates m.host (analysisOptions m project settings) files ∧ limit ≠ 0 ∧
            ∃ n : Nat, disk.stat m.host path = .ok n ∧ Number.lt limit n = true) ∧
    ∀ settings₁ settings₂ size₁ size₂ limit₁ limit₂ report₁ report₂,
      LimitedBy settings₁ size₁ → LimitedBy settings₂ size₂ →
      settings₂ = { settings₁ with maxFileSize := settings₂.maxFileSize } →
      FileSize.parse? size₁ = some limit₁ → FileSize.parse? size₂ = some limit₂ →
      limit₁ ≠ 0 → Number.le limit₁ limit₂ = true →
      Gives m parser disk project files s settings₁ report₁ →
      Gives m parser disk project files s settings₂ report₂ →
      ∀ path, report₂.SkipsTooLarge path → report₁.SkipsTooLarge path := by
  constructor
  · intro settings size hlimit
    exact ⟨_, hlimit.parse?, exists_gives hready settings,
      fun report h path => h.skipsTooLarge_iff hparser hlimit path⟩
  · intro settings₁ settings₂ size₁ size₂ limit₁ limit₂ report₁ report₂ h₁ h₂ hsame hparse₁ hparse₂
      hne hle hgives₁ hgives₂ path hskips
    rw [h₁.parse?] at hparse₁
    rw [h₂.parse?] at hparse₂
    cases hparse₁
    cases hparse₂
    rw [hgives₂.skipsTooLarge_iff hparser h₂] at hskips
    rw [hgives₁.skipsTooLarge_iff hparser h₁]
    obtain ⟨hmem, -, n, hstat, hlt⟩ := hskips
    refine ⟨?_, hne, n, hstat, Number.lt_of_le_of_lt hle hlt⟩
    rw [hsame] at hmem
    exact hmem

end Command

/-! ## A project of one file -/

namespace Command.Sample

def machine : Machine := { host := ⟨"/p", "/home/dev"⟩ }

/-- A parser without grammars. -/
def blank : Parser Unit := ⟨.ok (), fun _ _ => (.ok none, ())⟩

/-- A disk with a file of 3000 bytes. -/
def disk : Disk := { files := [(["p", "A.java"], ⟨"", 3000⟩)] }

/-- The settings of a project without a settings file, under a limit. -/
def limited (limit : Number) : Settings := ⟨20, .lcom, true, limit, ["**/*"], [], none⟩

/-- What a run over the file under a limit gives. -/
def FileGives (limit : Number) (report : Report) : Prop :=
  Gives machine blank disk "/p" ["/p/A.java"] () (limited limit) report

theorem blank_mindsNoSize : blank.MindsNoSize := by
  intro s path p h
  cases h

theorem limitedBy_zero : LimitedBy (limited 0) "0KB" :=
  ⟨.default, { maxFileSize := some "0KB" }, by decide +kernel, rfl⟩

theorem limitedBy_one : LimitedBy (limited 1024) "1KB" :=
  ⟨.default, { maxFileSize := some "1KB" }, by decide +kernel, rfl⟩

theorem limitedBy_two : LimitedBy (limited 2048) "2KB" :=
  ⟨.default, { maxFileSize := some "2KB" }, by decide +kernel, rfl⟩

theorem mem_candidates (limit : Number) :
    "/p/A.java" ∈ Analysis.candidates machine.host (analysisOptions machine "/p" (limited limit))
      ["/p/A.java"] := by
  show "/p/A.java" ∈ Analysis.candidates machine.host (analysisOptions machine "/p" (limited 0))
    ["/p/A.java"]
  decide +kernel

theorem stat_file : disk.stat machine.host "/p/A.java" = .ok 3000 := by decide +kernel

end Command.Sample

namespace Command

open Sample

/-- A file of 3000 bytes is over two kilobytes, and so over one. -/
theorem size_limits_ordered_kilobytes :
    blank.MindsNoSize ∧ blank.ready = .ok () ∧
      FileSize.parse? "1KB" = some 1024 ∧ FileSize.parse? "2KB" = some 2048 ∧
      (∃ report, FileGives 2048 report ∧ report.SkipsTooLarge "/p/A.java") ∧
      ∀ report, FileGives 1024 report → report.SkipsTooLarge "/p/A.java" := by
  have ⟨hexact, hmono⟩ := size_limits_ordered machine disk "/p" ["/p/A.java"] ()
    blank_mindsNoSize rfl
  obtain ⟨limit, hparse, ⟨report₂, hgives₂⟩, hskips⟩ := hexact (limited 2048) "2KB" limitedBy_two
  have hskips₂ : report₂.SkipsTooLarge "/p/A.java" := by
    rw [limitedBy_two.parse?] at hparse
    cases hparse
    exact (hskips _ hgives₂ _).mpr ⟨mem_candidates _, by decide, _, stat_file, by decide +kernel⟩
  refine ⟨blank_mindsNoSize, rfl, limitedBy_one.parse?, limitedBy_two.parse?,
    ⟨report₂, hgives₂, hskips₂⟩, fun report₁ hgives₁ => ?_⟩
  exact hmono _ _ _ _ _ _ _ _ limitedBy_one limitedBy_two rfl limitedBy_one.parse?
    limitedBy_two.parse? (by decide) (by decide +kernel) hgives₁ hgives₂ _ hskips₂

/-- Zero is the lowest size, and yet as a limit it skips nothing. -/
theorem zero_limit_skips_nothing :
    FileSize.parse? "0KB" = some 0 ∧ FileSize.parse? "1KB" = some 1024 ∧
      Number.le 0 1024 = true ∧
      ∃ report₀ report₁, FileGives 0 report₀ ∧ FileGives 1024 report₁ ∧
        report₁.SkipsTooLarge "/p/A.java" ∧ ¬report₀.SkipsTooLarge "/p/A.java" := by
  have ⟨report₀, hgives₀⟩ : ∃ report, FileGives 0 report := exists_gives rfl _
  have ⟨report₁, hgives₁⟩ : ∃ report, FileGives 1024 report := exists_gives rfl _
  refine ⟨limitedBy_zero.parse?, limitedBy_one.parse?, by decide +kernel, report₀, report₁,
    hgives₀, hgives₁, ?_, ?_⟩
  · exact (hgives₁.skipsTooLarge_iff blank_mindsNoSize limitedBy_one _).mpr
      ⟨mem_candidates _, by decide, _, stat_file, by decide +kernel⟩
  · intro hskips
    obtain ⟨-, hne, -⟩ := (hgives₀.skipsTooLarge_iff blank_mindsNoSize limitedBy_zero _).mp hskips
    exact hne rfl

end Command

end ClassCohesion
