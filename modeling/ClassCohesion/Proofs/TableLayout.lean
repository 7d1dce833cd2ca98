import Mathlib.Data.List.Forall2
import ClassCohesion.Proofs.Places
import ClassCohesion.Proofs.Rows
import ClassCohesion.Report.Table

/-!
# The layout of the table

No cell of the table is wider than its column, so every line has the width of the rule, and the rule
cuts every line into the cells that were put into it. Numbers have no line breaks in their texts, so
a painted cell is the cell with the sequences of its paint around it, and without colours every line
is what remains of its painted form.

- `units_apply`: what painting adds to a text.
- `cellsOf_fit`: texts that are not too wide for their columns are found again below the rule.
- `lines_plain`, `lines_painted`: the lines of a table without and with colours.
- `table_aligned`: the layout of the table.
-/

namespace ClassCohesion

namespace Number

/-! ## Numbers have no line breaks -/

theorem no_break_digitsOf (n : Nat) : '\n' ∉ digitsOf n := by
  intro h
  have hdigit := Nat.isDigit_of_mem_toDigits (by decide) (by decide) h
  exact absurd hdigit (by decide)

theorem no_break_layout {ds : List Char} (h : '\n' ∉ ds) (point : Int) :
    '\n' ∉ layout ds point := by
  have hexponent := no_break_digitsOf (point - 1).natAbs
  have htake (n : Nat) : '\n' ∉ ds.take n := fun hmem => h (List.mem_of_mem_take hmem)
  have hdrop (n : Nat) : '\n' ∉ ds.drop n := fun hmem => h (List.mem_of_mem_drop hmem)
  unfold layout
  dsimp only
  split
  · simp [h]
  · split
    · simp [htake, hdrop]
    · split
      · simp [h]
      · have hmark : '\n' ∉ (if point - 1 < 0 then ['e', '-'] else ['e', '+']) ++
            digitsOf (point - 1).natAbs := by
          split <;> simp [hexponent]
        split <;> simp_all

theorem no_break_textOfPositive (v : Rat) : '\n' ∉ textOfPositive v := by
  apply no_break_layout
  intro h
  apply no_break_digitsOf (shortest v).digits
  rw [dropZerosEnd, List.mem_reverse] at h
  exact List.mem_reverse.mp ((List.dropWhile_suffix _).subset h)

theorem no_break_text (x : Number) : '\n' ∉ x.text.toList := by
  cases x with
  | finite v =>
    have hneg := no_break_textOfPositive (-v)
    rw [text]
    split
    · decide
    · split
      · rw [String.toList_ofList]
        exact no_break_textOfPositive v
      · rw [String.toList_ofList, List.mem_cons, not_or]
        exact ⟨by decide, hneg⟩
  | infinity => decide
  | negInfinity => decide
  | nan => decide

end Number

namespace Report

open ClassCohesion.Text (blank units width cutTo)

/-! ## Painted texts -/

namespace Paint

theorem aroundBreaks_nil (cs : List Char) : aroundBreaks [] [] cs = cs := by
  fun_induction aroundBreaks [] [] cs <;> simp_all

theorem aroundBreaks_of_no_break {cs : List Char} (h : '\n' ∉ cs) (opens closes : List Char) :
    aroundBreaks opens closes cs = cs := by
  fun_induction aroundBreaks opens closes cs <;> simp_all

end Paint

/-- A text without line breaks that is painted has the sequences of the paint around it. -/
theorem units_apply {p : Paint} {s : String} (hne : s ≠ "") (h : p = .plain ∨ '\n' ∉ s.toList) :
    units (p.apply true s).toList = painted p (units s.toList) := by
  have hbody : Paint.aroundBreaks p.opening.toList p.closing.toList s.toList = s.toList := by
    rcases h with rfl | h
    · exact Paint.aroundBreaks_nil s.toList
    · exact Paint.aroundBreaks_of_no_break h _ _
  rw [Paint.apply, if_neg (by simp [hne])]
  dsimp only
  rw [hbody, String.ofList_toList, String.toList_append, String.toList_append, Text.units_append,
    Text.units_append]
  rfl

/-! ## What the table shows -/

/-- What a column shows: the units of a text, the side on which it stands, and how it is judged. -/
structure Entry where
  text : List Nat
  rightAligned : Bool
  severity : Severity

namespace Entry

/-- A text that stands on the left. -/
def left (s : String) : Entry := ⟨units s.toList, false, .ok⟩

/-- A text on the left of which at most `n` units are shown. -/
def leftCut (n : Nat) (s : String) : Entry := ⟨cutTo n (units s.toList), false, .ok⟩

/-- A text that stands on the right. -/
def right (s : String) (severity : Severity) : Entry := ⟨units s.toList, true, severity⟩

/-- A cell is the text of an entry, with blanks on the other side. -/
def Fills (e : Entry) (cell : List Nat) : Prop :=
  ∃ n, cell = if e.rightAligned then List.replicate n blank ++ e.text
    else e.text ++ List.replicate n blank

end Entry

/-- The headings of the columns. -/
def headings : List Entry :=
  ["Class", "Path"].map .left ++
    ["WMC", "CBO", "RFC", "LCOM", "DIT", "NOC", "Methods"].map fun s => .right s .ok

variable (host : Host) (project : String) (classes : List ClassMetrics)

/-- What the columns show of a class. -/
def entries (c : ClassMetrics) : List Entry :=
  [.leftCut 40 c.className,
   .leftCut 50 (Path.toRelative host c.path project ++ ":" ++ c.startLine.text),
   .right c.wmc.text (.ofWmc c.wmc), .right c.cbo.text .ok, .right c.rfc.text .ok,
   .right c.lcom.text (.ofLcom c.lcom), .right c.dit.text (.ofDit c.dit),
   .right c.noc.text (.ofNoc c.noc), .right c.nom.text .ok]

/-- The lines of a table, in code units. -/
def lines (colors : Bool) : List (List Nat) :=
  (table host colors project classes).map fun line => units line.toList

/-- How the line of a class is painted, below a rule: the paint and the width of each cell. -/
def paintsOf (rule : List Nat) (c : ClassMetrics) : List (Paint × Nat) :=
  ((entries host project c).map fun e => e.severity.paint).zip
    ((atDashes rule rule).map List.length)

theorem headings_eq :
    headings = columns.map fun col => ⟨units col.header.toList, col.rightAligned, .ok⟩ :=
  rfl

theorem entries_eq (c : ClassMetrics) :
    entries host project c = columns.map fun col =>
      ⟨units (col.cell host project c).toList, col.rightAligned, col.severity c⟩ := by
  simp only [columns, numberColumn, List.map_cons, List.map_nil, Text.units_truncate]
  rfl

/-! ## Columns -/

/-- A text, padded to the width of its column. -/
def padded (col : Column) (s : String) : String := pad col (columnWidth host project classes col) s

/-- The widths of the columns. -/
def widths : List Nat := columns.map (columnWidth host project classes)

/-- The cells of a line: a text for each column, padded to its width. -/
def cellsOf (shown : Column → String) : List (List Nat) :=
  columns.map fun col => units (padded host project classes col (shown col)).toList

/-- The cells of the line of a class, each with its paint. -/
def paintedCells (c : ClassMetrics) : List (Paint × List Nat) :=
  columns.map fun col => ((col.severity c).paint,
    units (padded host project classes col (col.cell host project c)).toList)

/-- The table, line by line. -/
theorem table_eq (colors : Bool) :
    table host colors project classes =
      Paint.bold.apply colors (Text.join "  " (columns.map fun col =>
        padded host project classes col col.header)) ::
      Paint.gray.apply colors (Text.join "  " (columns.map fun col =>
        String.ofList (List.replicate (columnWidth host project classes col) '-'))) ::
      classes.map fun c => Text.join "  " (columns.map fun col =>
        (col.severity c).paint.apply colors
          (padded host project classes col (col.cell host project c))) := by
  rw [table]
  simp only [List.map_map]
  rfl

variable {host project classes}

theorem width_le_columnWidth (col : Column) :
    width col.header ≤ columnWidth host project classes col ∧
      ∀ c ∈ classes, width (col.cell host project c) ≤ columnWidth host project classes col := by
  unfold columnWidth
  generalize width col.header = start
  induction classes generalizing start with
  | nil => exact ⟨Nat.le_refl _, List.forall_mem_nil _⟩
  | cons c classes ih =>
    obtain ⟨hstart, hclasses⟩ := ih (max start (width (col.cell host project c)))
    rw [List.foldl_cons]
    refine ⟨Nat.le_trans (Nat.le_max_left _ _) hstart, List.forall_mem_cons.mpr ⟨?_, hclasses⟩⟩
    exact Nat.le_trans (Nat.le_max_right _ _) hstart

theorem width_header_le (col : Column) : width col.header ≤ columnWidth host project classes col :=
  (width_le_columnWidth col).1

theorem width_cell_le {c : ClassMetrics} (hc : c ∈ classes) (col : Column) :
    width (col.cell host project c) ≤ columnWidth host project classes col :=
  (width_le_columnWidth col).2 c hc

theorem columnWidth_pos {col : Column} (hcol : col ∈ columns) :
    0 < columnWidth host project classes col := by
  have hheader : ∀ col ∈ columns, 0 < width col.header := by decide
  exact Nat.lt_of_lt_of_le (hheader col hcol) (width_header_le col)

theorem widths_pos : ∀ w ∈ widths host project classes, 0 < w := by
  rw [widths, List.forall_mem_map]
  exact fun col hcol => columnWidth_pos hcol

theorem units_padded (col : Column) (s : String) :
    ∃ n, units (padded host project classes col s).toList =
      if col.rightAligned then List.replicate n blank ++ units s.toList
      else units s.toList ++ List.replicate n blank := by
  refine ⟨columnWidth host project classes col - width s, ?_⟩
  rw [padded, pad]
  split
  · exact Text.units_padLeft _ s
  · exact Text.units_padRight _ s

theorem length_units_padded {col : Column} {s : String}
    (h : width s ≤ columnWidth host project classes col) :
    (units (padded host project classes col s).toList).length =
      columnWidth host project classes col := by
  rw [padded, pad]
  unfold width at h
  split
  · rw [Text.units_padLeft, List.length_append, List.length_replicate, width]
    omega
  · rw [Text.units_padRight, List.length_append, List.length_replicate, width]
    omega

/-- A line of texts that are not wider than their columns is cut into them by the rule. -/
theorem cellsOf_fit {shown : Column → String}
    (h : ∀ col, width (shown col) ≤ columnWidth host project classes col) :
    (spaced (cellsOf host project classes shown)).length =
        (ruleOf (widths host project classes)).length ∧
      atDashes (ruleOf (widths host project classes))
          (spaced (cellsOf host project classes shown)) =
        cellsOf host project classes shown := by
  have hwidths : (cellsOf host project classes shown).map List.length =
      widths host project classes := by
    rw [cellsOf, List.map_map]
    exact List.map_congr_left fun col _ => length_units_padded (h col)
  have hne : ∀ cell ∈ cellsOf host project classes shown, cell ≠ [] := by
    rw [cellsOf, List.forall_mem_map]
    intro col hcol
    rw [← List.length_pos_iff, length_units_padded (h col)]
    exact columnWidth_pos hcol
  rw [← hwidths]
  exact ⟨(length_ruleOf _).symm, atDashes_spaced hne⟩

theorem fills_cellsOf (shown : Column → String) (severity : Column → Severity) :
    List.Forall₂ Entry.Fills
      (columns.map fun col => ⟨units (shown col).toList, col.rightAligned, severity col⟩)
      (cellsOf host project classes shown) := by
  rw [cellsOf, List.forall₂_map_left_iff, List.forall₂_map_right_iff, List.forall₂_same]
  exact fun col _ => units_padded col (shown col)

/-! ## Lines without colours -/

theorem units_rule : units (Text.join "  " (columns.map fun col =>
    String.ofList (List.replicate (columnWidth host project classes col) '-'))).toList =
      ruleOf (widths host project classes) := by
  rw [units_join, List.map_map, ruleOf, widths, List.map_map]
  refine congrArg spaced (List.map_congr_left fun col _ => ?_)
  rw [Function.comp_apply, String.toList_ofList]
  exact Text.units_replicate (by decide) _

theorem units_line (shown : Column → String) :
    units (Text.join "  " (columns.map fun col =>
        padded host project classes col (shown col))).toList =
      spaced (cellsOf host project classes shown) := by
  rw [units_join, List.map_map]
  rfl

theorem lines_plain : lines host project classes false =
    spaced (cellsOf host project classes Column.header) ::
      ruleOf (widths host project classes) ::
      classes.map fun c => spaced (cellsOf host project classes (·.cell host project c)) := by
  have hplain (p : Paint) (s : String) : p.apply false s = s := if_pos (.inl rfl)
  rw [lines, table_eq]
  simp only [hplain, List.map_cons, List.map_map, Function.comp_def, units_rule]
  simp only [units_line]

/-! ## Lines with colours -/

theorem ne_empty_of_units {s : String} (h : units s.toList ≠ []) : s ≠ "" := by
  rintro rfl
  exact h rfl

theorem no_break_padded {s : String} (h : '\n' ∉ s.toList) (col : Column) :
    '\n' ∉ (padded host project classes col s).toList := by
  rw [padded, pad]
  split
  · simp [Text.padLeft, h]
  · simp [Text.padRight, h]

/-- Only numbers are painted. -/
theorem plain_or_no_break {col : Column} (hcol : col ∈ columns) (c : ClassMetrics) :
    (col.severity c).paint = .plain ∨ '\n' ∉ (col.cell host project c).toList := by
  simp only [columns, List.mem_cons, List.not_mem_nil, or_false] at hcol
  rcases hcol with rfl | rfl | rfl | rfl | rfl | rfl | rfl | rfl | rfl
  · exact .inl rfl
  · exact .inl rfl
  all_goals exact .inr (Number.no_break_text _)

theorem units_apply_join {p : Paint} {ss : List String}
    (hne : units (Text.join "  " ss).toList ≠ []) (hbreak : ∀ s ∈ ss, '\n' ∉ s.toList) :
    units (p.apply true (Text.join "  " ss)).toList =
      painted p (units (Text.join "  " ss).toList) := by
  refine units_apply (ne_empty_of_units hne) (.inr ?_)
  rw [Text.mem_toList_join (by decide)]
  rintro ⟨s, hs, hmem⟩
  exact hbreak s hs hmem

theorem ruleOf_widths_ne_nil : ruleOf (widths host project classes) ≠ [] :=
  ruleOf_ne_nil widths_pos (List.cons_ne_nil _ _)

theorem units_header_bold :
    units (Paint.bold.apply true (Text.join "  " (columns.map fun col =>
        padded host project classes col col.header))).toList =
      painted .bold (spaced (cellsOf host project classes Column.header)) := by
  have hbreaks : ∀ col ∈ columns, '\n' ∉ col.header.toList := by decide
  have hne : spaced (cellsOf host project classes Column.header) ≠ [] := by
    rw [← List.length_pos_iff, (cellsOf_fit width_header_le).1, List.length_pos_iff]
    exact ruleOf_widths_ne_nil
  rw [← units_line] at hne ⊢
  refine units_apply_join hne ?_
  rw [List.forall_mem_map]
  exact fun col hcol => no_break_padded (hbreaks col hcol) col

theorem units_rule_gray :
    units (Paint.gray.apply true (Text.join "  " (columns.map fun col =>
        String.ofList (List.replicate (columnWidth host project classes col) '-')))).toList =
      painted .gray (ruleOf (widths host project classes)) := by
  have hne : ruleOf (widths host project classes) ≠ [] := ruleOf_widths_ne_nil
  rw [← units_rule] at hne ⊢
  refine units_apply_join hne ?_
  rw [List.forall_mem_map]
  intro col _ hmem
  rw [String.toList_ofList] at hmem
  exact absurd (List.eq_of_mem_replicate hmem) (by decide)

theorem units_row_painted {c : ClassMetrics} (hc : c ∈ classes) :
    units (Text.join "  " (columns.map fun col => (col.severity c).paint.apply true
        (padded host project classes col (col.cell host project c)))).toList =
      spaced ((paintedCells host project classes c).map fun cell => painted cell.1 cell.2) := by
  rw [units_join, paintedCells, List.map_map, List.map_map]
  refine congrArg spaced (List.map_congr_left fun col hcol => ?_)
  have hne : units (padded host project classes col (col.cell host project c)).toList ≠ [] := by
    rw [← List.length_pos_iff, length_units_padded (width_cell_le hc col)]
    exact columnWidth_pos hcol
  refine units_apply (ne_empty_of_units hne) ?_
  exact (plain_or_no_break hcol c).imp_right fun h => no_break_padded h col

theorem lines_painted : lines host project classes true =
    painted .bold (spaced (cellsOf host project classes Column.header)) ::
      painted .gray (ruleOf (widths host project classes)) ::
      classes.map fun c =>
        spaced ((paintedCells host project classes c).map fun cell => painted cell.1 cell.2) := by
  rw [lines, table_eq, List.map_cons, List.map_cons, List.map_map, Function.comp_def,
    units_header_bold, units_rule_gray]
  rw [List.map_congr_left fun c hc => units_row_painted hc]

/-! ## The layout -/

theorem unpaint_row {c : ClassMetrics} (hc : c ∈ classes) :
    unpaint (paintsOf host project (ruleOf (widths host project classes)) c)
        (spaced ((paintedCells host project classes c).map fun cell => painted cell.1 cell.2)) =
      some (spaced (cellsOf host project classes (·.cell host project c))) := by
  have hpaints : paintsOf host project (ruleOf (widths host project classes)) c =
      (paintedCells host project classes c).map fun cell => (cell.1, cell.2.length) := by
    rw [paintsOf, map_length_atDashes_ruleOf widths_pos, entries_eq, List.map_map, widths,
      List.zip_map', paintedCells, List.map_map]
    refine List.map_congr_left fun col _ => ?_
    rw [Function.comp_apply, Function.comp_apply, length_units_padded (width_cell_le hc col)]
  rw [hpaints, unpaint_spaced, paintedCells, List.map_map]
  rfl

variable (host project classes)

/-- **The layout of the table.** Without colours all lines have the width of the rule. Below its
dashes the header has its headings and every other line what the columns show of its class, with
blanks on the other side, and there is nothing but gaps between. With colours, every line is this
line again once the sequences around the header, the rule and the cells with a severity are
removed. -/
theorem table_aligned :
    ∃ header rule rows, lines host project classes false = header :: rule :: rows ∧
      (∀ line ∈ lines host project classes false, line.length = rule.length) ∧
      header = spaced (atDashes rule header) ∧
      List.Forall₂ Entry.Fills headings (atDashes rule header) ∧
      List.Forall₂ (fun c row => row = spaced (atDashes rule row) ∧
        List.Forall₂ Entry.Fills (entries host project c) (atDashes rule row)) classes rows ∧
      (lines host project classes true).length = (lines host project classes false).length ∧
      List.zipWith unpaint
          ([(.bold, rule.length)] :: [(.gray, rule.length)] ::
            classes.map (paintsOf host project rule))
          (lines host project classes true) =
        (lines host project classes false).map some := by
  have hheader : ∀ col, width col.header ≤ columnWidth host project classes col := width_header_le
  obtain ⟨hlength, hcells⟩ := cellsOf_fit hheader
  refine ⟨_, _, _, lines_plain, ?_, ?_, ?_, ?_, ?_, ?_⟩
  · rw [lines_plain, List.forall_mem_cons, List.forall_mem_cons, List.forall_mem_map]
    exact ⟨hlength, rfl, fun c hc => (cellsOf_fit (width_cell_le hc)).1⟩
  · rw [hcells]
  · rw [hcells, headings_eq]
    exact fills_cellsOf Column.header fun _ => .ok
  · rw [List.forall₂_map_right_iff, List.forall₂_same]
    intro c hc
    rw [(cellsOf_fit (width_cell_le hc)).2, entries_eq]
    exact ⟨rfl, fills_cellsOf _ fun col => col.severity c⟩
  · rw [lines_plain, lines_painted, List.length_cons, List.length_cons, List.length_cons,
      List.length_cons, List.length_map, List.length_map]
  · rw [lines_plain, lines_painted, List.zipWith_cons_cons, List.zipWith_cons_cons,
      List.zipWith_map, List.zipWith_self, List.map_cons, List.map_cons, List.map_map,
      unpaint_painted, ← hlength, unpaint_painted]
    rw [List.map_congr_left fun c hc => unpaint_row hc]
    rfl

end Report

end ClassCohesion
