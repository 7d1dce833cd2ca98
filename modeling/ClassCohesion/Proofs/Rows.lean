import ClassCohesion.Proofs.CodeUnits
import ClassCohesion.Report.Paint
import ClassCohesion.Text.Split

/-!
# Rows of cells

A line of a table is a row of cells, two blanks apart. In code units, a rule of dashes with the same
gaps cuts a row into its cells, as long as every cell is as wide as the dashes above it. A painted
cell has the sequences of its paint around it; as they are known, they can be taken off again.

- `atDashes_spaced`: a rule cuts a row into its cells.
- `unpaint_spaced`: the paint comes off a row of painted cells.
-/

namespace ClassCohesion.Report

open ClassCohesion.Text (blank units)

/-! ## Cells under a rule -/

/-- The code unit of a dash. -/
def dash : Nat := 0x2D

/-- Cells in a row, two blanks apart. -/
def spaced (cells : List (List Nat)) : List Nat := [blank, blank].intercalate cells

theorem spaced_singleton (a : List Nat) : spaced [a] = a := List.intercalate_singleton

theorem spaced_cons_cons (a b : List Nat) (cells : List (List Nat)) :
    spaced (a :: b :: cells) = a ++ blank :: blank :: spaced (b :: cells) := by
  rw [spaced, List.intercalate_cons_cons, List.append_assoc]
  rfl

theorem units_join (cells : List String) :
    units (Text.join "  " cells).toList = spaced (cells.map fun s => units s.toList) := by
  rw [Text.join, String.toList_intercalate, Text.units_intercalate, List.map_map]
  rfl

/-- The parts of a row that stand below the dashes of a rule. -/
def atDashes (rule row : List Nat) : List (List Nat) :=
  (((rule.zip row).splitOnP fun x => x.1 != dash).filter (! ·.isEmpty)).map (·.map Prod.snd)

/-- The rule for columns of the given widths. -/
def ruleOf (widths : List Nat) : List Nat := spaced (widths.map fun w => List.replicate w dash)

section

variable {cells : List (List Nat)}

theorem length_ruleOf (cells : List (List Nat)) :
    (ruleOf (cells.map List.length)).length = (spaced cells).length := by
  induction cells with
  | nil => rfl
  | cons a cells ih =>
    cases cells with
    | nil =>
      rw [ruleOf, List.map_singleton, List.map_singleton, spaced_singleton, spaced_singleton,
        List.length_replicate]
    | cons b cells =>
      rw [ruleOf] at ih ⊢
      simp only [List.map_cons] at ih ⊢
      rw [spaced_cons_cons, spaced_cons_cons, List.length_append, List.length_append,
        List.length_replicate, List.length_cons, List.length_cons, ih]
      rfl

/-- Where the rule has a blank, a row is cut. -/
theorem atDashes_gap {rule row : List Nat} (h : rule.length = row.length) (rule' row' : List Nat) :
    atDashes (rule ++ blank :: rule') (row ++ blank :: row') =
      atDashes rule row ++ atDashes rule' row' := by
  rw [atDashes, List.zip_append h, List.zip_cons_cons, List.splitOnP_append_cons _ _ (by decide),
    List.filter_append, List.map_append]
  rfl

theorem atDashes_cell {cell : List Nat} (h : cell ≠ []) :
    atDashes (List.replicate cell.length dash) cell = [cell] := by
  have hcut : ((List.replicate cell.length dash).zip cell).splitOnP (fun x => x.1 != dash) =
      [(List.replicate cell.length dash).zip cell] := by
    apply List.splitOnP_eq_singleton
    rintro ⟨d, u⟩ hmem
    rw [List.eq_of_mem_replicate (List.of_mem_zip hmem).1]
    exact bne_self_eq_false dash
  have hcell : ((List.replicate cell.length dash).zip cell).map Prod.snd = cell :=
    List.map_snd_zip (by simp)
  have hne : ((List.replicate cell.length dash).zip cell).isEmpty = false := by
    rw [List.isEmpty_eq_false_iff]
    intro hnil
    rw [hnil] at hcell
    exact h hcell.symm
  rw [atDashes, hcut, List.filter_cons_of_pos (by rw [hne]; rfl), List.filter_nil,
    List.map_singleton, hcell]

/-- **A rule cuts a row into its cells.** -/
theorem atDashes_spaced (h : ∀ cell ∈ cells, cell ≠ []) :
    atDashes (ruleOf (cells.map List.length)) (spaced cells) = cells := by
  induction cells with
  | nil => rfl
  | cons a cells ih =>
    obtain ⟨ha, hcells⟩ := List.forall_mem_cons.mp h
    cases cells with
    | nil =>
      rw [ruleOf, List.map_singleton, List.map_singleton, spaced_singleton, spaced_singleton]
      exact atDashes_cell ha
    | cons b cells =>
      have hrule : ruleOf ((a :: b :: cells).map List.length) =
          List.replicate a.length dash ++ blank :: ([] ++ blank ::
            ruleOf ((b :: cells).map List.length)) :=
        spaced_cons_cons _ _ _
      have hrow : spaced (a :: b :: cells) = a ++ blank :: ([] ++ blank :: spaced (b :: cells)) :=
        spaced_cons_cons a b cells
      rw [hrule, hrow, atDashes_gap List.length_replicate, atDashes_gap rfl, atDashes_cell ha,
        ih hcells]
      rfl

/-- A rule has a run of dashes for every column. -/
theorem map_length_atDashes_ruleOf {widths : List Nat} (h : ∀ w ∈ widths, 0 < w) :
    (atDashes (ruleOf widths) (ruleOf widths)).map List.length = widths := by
  have hlengths : (widths.map fun w => List.replicate w dash).map List.length = widths := by
    simp [Function.comp_def]
  have hne : ∀ cell ∈ widths.map fun w => List.replicate w dash, cell ≠ [] := by
    rw [List.forall_mem_map]
    intro w hw hnil
    exact Nat.ne_of_gt (h w hw) ((List.replicate_eq_nil_iff dash).mp hnil)
  have hcut := atDashes_spaced hne
  rw [hlengths] at hcut
  exact (congrArg (List.map List.length) hcut).trans hlengths

theorem ruleOf_ne_nil {widths : List Nat} (h : ∀ w ∈ widths, 0 < w) (hne : widths ≠ []) :
    ruleOf widths ≠ [] := by
  intro hnil
  have hlengths := map_length_atDashes_ruleOf h
  rw [hnil] at hlengths
  exact hne hlengths.symm

end

/-! ## Painted cells -/

/-- The units that switch a paint on. -/
def opens (p : Paint) : List Nat := units p.opening.toList

/-- The units that switch a paint off. -/
def closes (p : Paint) : List Nat := units p.closing.toList

/-- A painted cell. -/
def painted (p : Paint) (cell : List Nat) : List Nat := opens p ++ cell ++ closes p

/-- Takes a painted cell of a known width from the front of a row: the cell without its paint, and
what follows it. -/
def takePainted (p : Paint) (width : Nat) (row : List Nat) : Option (List Nat × List Nat) := do
  let opened ← row.dropPrefix? (opens p)
  let rest ← (opened.drop width).dropPrefix? (closes p)
  return (opened.take width, rest)

/-- Removes the paint of every cell from a row, given the paints and the widths of the cells. -/
def unpaint : List (Paint × Nat) → List Nat → Option (List Nat)
  | [], row => if row = [] then some [] else none
  | [(p, width)], row => do
    let (cell, rest) ← takePainted p width row
    if rest = [] then some cell else none
  | (p, width) :: next :: cells, row => do
    let (cell, rest) ← takePainted p width row
    let others ← unpaint (next :: cells) (rest.drop 2)
    return cell ++ rest.take 2 ++ others

theorem takePainted_painted (p : Paint) (cell rest : List Nat) :
    takePainted p cell.length (painted p cell ++ rest) = some (cell, rest) := by
  have hopen : (painted p cell ++ rest).dropPrefix? (opens p) =
      some (cell ++ (closes p ++ rest)) := by
    rw [painted, List.append_assoc, List.append_assoc]
    exact List.dropPrefix?_append_of_beq _ (beq_self_eq_true _)
  have hclose : (closes p ++ rest).dropPrefix? (closes p) = some rest :=
    List.dropPrefix?_append_of_beq _ (beq_self_eq_true _)
  rw [takePainted, hopen]
  simp [hclose]

/-- **Paint comes off.** -/
theorem unpaint_spaced (cells : List (Paint × List Nat)) :
    unpaint (cells.map fun c => (c.1, c.2.length)) (spaced (cells.map fun c => painted c.1 c.2)) =
      some (spaced (cells.map Prod.snd)) := by
  induction cells with
  | nil => rfl
  | cons a cells ih =>
    cases cells with
    | nil =>
      have h := takePainted_painted a.1 a.2 []
      rw [List.append_nil] at h
      rw [List.map_singleton, List.map_singleton, List.map_singleton, spaced_singleton,
        spaced_singleton, unpaint, h]
      rfl
    | cons b cells =>
      simp only [List.map_cons] at ih ⊢
      rw [spaced_cons_cons, spaced_cons_cons, unpaint, takePainted_painted]
      -- the gap behind the cell is not painted
      have hgap (row : List Nat) : (blank :: blank :: row).drop 2 = row := rfl
      simp only [Option.bind_eq_bind, Option.bind_some, hgap, ih]
      simp

theorem unpaint_painted (p : Paint) (row : List Nat) :
    unpaint [(p, row.length)] (painted p row) = some row := by
  have h := unpaint_spaced [(p, row)]
  simp only [List.map_cons, List.map_nil, spaced_singleton] at h
  exact h

end ClassCohesion.Report
