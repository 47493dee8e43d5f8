/-
  RateThrottle.Regression.Tables

  The tables that `printRegression` prints, for both regression tools
  (framework.h of regression/custom/support and of regression/google/support).

  The loop has no variable for "no table is open": it starts with the group " "
  and takes that group for none.  As long as no entry has this group, the
  printed lines are one table for each stretch of entries of one group
  (`lines_printGrouped`); as soon as one has it, a table is left without its
  closing border (`closings_lt_groups`).
-/

import RateThrottle.Library.Sections
import RateThrottle.Regression.Google
import RateThrottle.Regression.Results

namespace RateThrottle

open Sections Mealy

section Grouped

variable {E R : Type} (group : E → Bytes) (item : Bytes → E → List (Line R) × Bytes)
  {printRow : E → Report R → Report R}

/-- What `printRow` appends to the output, given `lastRowGroup`. -/
structure Appends (printRow : E → Report R → Report R)
    (item : Bytes → E → List (Line R) × Bytes) : Prop where
  lines : ∀ e report, (printRow e report).lines = report.lines ++ (item report.lastRowGroup e).1
  last : ∀ e report, (printRow e report).lastRowGroup = (item report.lastRowGroup e).2

/-- The tables as they are printed: the section is the open group, the state
    inside it `lastRowGroup`. -/
def tablePrinter : Printer E Bytes Bytes (Line R) where
  key := group
  start := []
  opening title := [.blank, .header title]
  item _ := item
  closing _ := [.closing]
  gap _ _ := []

/-- The open table, seen from `currentGroup`. -/
def openTable (currentGroup : Bytes) (report : Report R) : Option (Bytes × Bytes) :=
  if currentGroup = bytes " " then none else some (currentGroup, report.lastRowGroup)

variable {group item}

/-- From here to the end, the loop does what the table printer does. -/
theorem lines_printGrouped_from (h : Appends printRow item) {entries : List E}
    (hgroups : ∀ e ∈ entries, group e ≠ bytes " ") (currentGroup : Bytes) (report : Report R) :
    (printGrouped group printRow entries currentGroup report).lines
      = report.lines
        ++ (trace (tablePrinter group item).step (openTable currentGroup report)
            entries).flatMap Prod.snd
        ++ (tablePrinter group item).stop
            (final (tablePrinter group item).step (openTable currentGroup report) entries) := by
  induction entries generalizing currentGroup report with
  | nil =>
      rw [printGrouped, openTable]
      by_cases hnone : currentGroup = bytes " "
      · simp [hnone, Printer.stop]
      · simp [hnone, Printer.stop, tablePrinter, Report.endTable, Report.write]
  | cons e entries ih =>
      have he := hgroups e List.mem_cons_self
      have hrest := ih fun x hx => hgroups x (List.mem_cons_of_mem e hx)
      -- the state after `e`, in the table of its own group
      have hopen : openTable (group e) (printRow e (report.openGroup currentGroup (group e)))
          = some (group e, (item [] e).2) := by
        rw [openTable, if_neg he, h.last]
        rfl
      rw [printGrouped, trace_cons, final_cons, List.flatMap_cons]
      by_cases hnone : currentGroup = bytes " "
      · rw [if_pos (hnone ▸ he.symm), hrest, hopen, h.lines, openTable, if_pos hnone]
        simp [Report.openGroup, Report.setHeader, Report.write, hnone, Printer.step, tablePrinter]
      · by_cases hsame : currentGroup = group e
        · have hsame' : openTable currentGroup (printRow e report)
              = some (group e, (item report.lastRowGroup e).2) := by
            rw [openTable, if_neg hnone, h.last, hsame]
          rw [if_neg (not_not.mpr hsame), hrest, hsame', h.lines, openTable, if_neg hnone, hsame]
          simp [Printer.step, tablePrinter]
        · rw [if_pos hsame, hrest, hopen, h.lines, openTable, if_neg hnone]
          have hstep : (tablePrinter group item).step (some (currentGroup, report.lastRowGroup)) e
              = ([.closing, .blank, .header (group e)] ++ (item [] e).1,
                  some (group e, (item [] e).2)) := if_neg hsame
          rw [hstep]
          simp [Report.openGroup, Report.setHeader, Report.endTable, Report.write, hnone]

/-- Without the group " " the output is one table after the other. -/
theorem lines_printGrouped (h : Appends printRow item) {entries : List E}
    (hgroups : ∀ e ∈ entries, group e ≠ bytes " ") :
    (printGrouped group printRow entries (bytes " ") .start).lines
      = (tablePrinter group item).render (Adjacent.group group entries) := by
  rw [lines_printGrouped_from h hgroups, openTable, if_pos rfl]
  exact (tablePrinter group item).printed_eq_render entries

-- ============================================================================
-- Closing borders
-- ============================================================================

/-- Whether a line is a closing border. -/
def Line.isClosing : Line R → Bool
  | .closing => true
  | _ => false

/-- The closing borders of some lines. -/
def closings (lines : List (Line R)) : Nat := lines.countP Line.isClosing

theorem closings_append (left right : List (Line R)) :
    closings (left ++ right) = closings left + closings right := List.countP_append

theorem closings_openGroup (report : Report R) (currentGroup title : Bytes) :
    closings (report.openGroup currentGroup title).lines
      = closings report.lines + if currentGroup ≠ bytes " " then 1 else 0 := by
  by_cases hnone : currentGroup = bytes " "
  · have hlines : (report.openGroup currentGroup title).lines
        = report.lines ++ [.blank, .header title] := by
      simp [Report.openGroup, Report.setHeader, Report.write, hnone]
    rw [hlines, closings_append, if_neg (not_not.mpr hnone)]
    rfl
  · have hlines : (report.openGroup currentGroup title).lines
        = report.lines ++ [.closing, .blank, .header title] := by
      simp [Report.openGroup, Report.setHeader, Report.endTable, Report.write, hnone]
    rw [hlines, closings_append, if_pos hnone]
    rfl

variable (group)

/-- The closing borders that the loop prints from here on. -/
def closedTables : List E → Bytes → Nat
  | [], currentGroup => if currentGroup ≠ bytes " " then 1 else 0
  | e :: rest, currentGroup =>
      if currentGroup ≠ group e then
        (if currentGroup ≠ bytes " " then 1 else 0) + closedTables rest (group e)
      else closedTables rest currentGroup

/-- The groups from here on, the open one included. -/
def tablesFrom : List E → Bytes → Nat
  | [], _ => 1
  | e :: rest, currentGroup =>
      if currentGroup ≠ group e then 1 + tablesFrom rest (group e)
      else tablesFrom rest currentGroup

theorem closings_printGrouped (h : Appends printRow item)
    (hitem : ∀ last e, closings (item last e).1 = 0) (entries : List E) (currentGroup : Bytes)
    (report : Report R) :
    closings (printGrouped group printRow entries currentGroup report).lines
      = closings report.lines + closedTables group entries currentGroup := by
  induction entries generalizing currentGroup report with
  | nil =>
      rw [printGrouped, closedTables]
      by_cases hnone : currentGroup = bytes " "
      · simp [hnone]
      · simp [hnone, Report.endTable, Report.write, closings, Line.isClosing]
  | cons e entries ih =>
      rw [printGrouped, closedTables]
      by_cases hsame : currentGroup = group e
      · rw [if_neg (not_not.mpr hsame), if_neg (not_not.mpr hsame), ih, h.lines, closings_append,
          hitem, Nat.add_zero]
      · rw [if_pos hsame, if_pos hsame, ih, h.lines, closings_append, hitem, closings_openGroup]
        omega

/-- A table of the group " " stays open: from an open table on, no closing
    border is missing unless the loop meets that group. -/
theorem closedTables_le (entries : List E) :
    (∀ currentGroup, closedTables group entries currentGroup
        ≤ tablesFrom group entries currentGroup) ∧
      closedTables group entries (bytes " ") < tablesFrom group entries (bytes " ") ∧
      ((∃ e ∈ entries, group e = bytes " ") → ∀ currentGroup,
        closedTables group entries currentGroup < tablesFrom group entries currentGroup) := by
  induction entries with
  | nil =>
      refine ⟨fun currentGroup => ?_, by simp [closedTables, tablesFrom], by simp⟩
      rw [closedTables, tablesFrom]
      split <;> omega
  | cons e entries ih =>
      obtain ⟨hle, hblank, hlt⟩ := ih
      refine ⟨fun currentGroup => ?_, ?_, fun hexists currentGroup => ?_⟩
      · rw [closedTables, tablesFrom]
        have := hle (group e)
        have := hle currentGroup
        split
        · split <;> omega
        · omega
      · rw [closedTables, tablesFrom]
        have := hle (group e)
        split
        · rw [if_neg (not_not.mpr rfl)]
          omega
        · exact hblank
      · rw [closedTables, tablesFrom]
        have hnext : closedTables group entries (group e) < tablesFrom group entries (group e) := by
          obtain ⟨x, hx, hgroup⟩ := hexists
          rcases List.mem_cons.mp hx with rfl | hx
          · rw [hgroup]
            exact hblank
          · exact hlt ⟨x, hx, hgroup⟩ _
        by_cases hsame : currentGroup = group e
        · rw [if_neg (not_not.mpr hsame), if_neg (not_not.mpr hsame), hsame]
          exact hnext
        · rw [if_pos hsame, if_pos hsame]
          split <;> omega

/-- A printed table has its closing border. -/
theorem closings_printed_from (hitem : ∀ last e, closings (item last e).1 = 0) (entries : List E)
    (title last : Bytes) :
    closings ((trace (tablePrinter group item).step (some (title, last)) entries).flatMap Prod.snd
        ++ (tablePrinter group item).stop
          (final (tablePrinter group item).step (some (title, last)) entries))
      = tablesFrom group entries title := by
  induction entries generalizing title last with
  | nil => rfl
  | cons e entries ih =>
      rw [trace_cons, final_cons, List.flatMap_cons, List.append_assoc, closings_append, tablesFrom]
      by_cases hsame : title = group e
      · have hstep : (tablePrinter group item).step (some (title, last)) e
            = ((item last e).1, some (title, (item last e).2)) := if_pos hsame
        rw [hstep, ih, hitem, if_neg (not_not.mpr hsame), Nat.zero_add]
      · have hstep : (tablePrinter group item).step (some (title, last)) e
            = ([.closing, .blank, .header (group e)] ++ (item [] e).1,
                some (group e, (item [] e).2)) := if_neg hsame
        rw [hstep, ih, closings_append, hitem, if_pos hsame]
        rfl

variable {group}

/-- **When the tables are complete.** The output is one table for each stretch of
    entries of one group exactly when no entry has the group " ". -/
theorem lines_printGrouped_iff (h : Appends printRow item)
    (hitem : ∀ last e, closings (item last e).1 = 0) (entries : List E) :
    (printGrouped group printRow entries (bytes " ") .start).lines
        = (tablePrinter group item).render (Adjacent.group group entries) ↔
      ∀ e ∈ entries, group e ≠ bytes " " := by
  refine ⟨fun heq => ?_, lines_printGrouped h⟩
  by_contra hexists
  push Not at hexists
  have hclosed := closings_printGrouped group h hitem entries (bytes " ") .start
  rw [heq] at hclosed
  cases entries with
  | nil =>
      obtain ⟨e, he, -⟩ := hexists
      cases he
  | cons e entries =>
      obtain ⟨-, hblank, hlt⟩ := closedTables_le group entries
      have hprinted := (tablePrinter group item).printed_eq_render (e :: entries)
      have hfrom := closings_printed_from group hitem entries (group e) (item [] e).2
      have hclosings : closings ((tablePrinter group item).render (Adjacent.group group (e :: entries)))
          = tablesFrom group entries (group e) := by
        have hkey : (tablePrinter group item).key = group := rfl
        rw [hkey] at hprinted
        have hstep : (tablePrinter group item).step none e
            = ([.blank, .header (group e)] ++ (item [] e).1, some (group e, (item [] e).2)) := rfl
        rw [← hprinted, Printer.printed, Printer.output, trace_cons, final_cons, List.flatMap_cons,
          List.append_assoc, closings_append, hstep, hfrom, closings_append, hitem]
        exact Nat.zero_add _
      rw [hclosings, closedTables] at hclosed
      have hstart : closings (Report.start : Report R).lines = 0 := rfl
      rw [hstart, Nat.zero_add] at hclosed
      by_cases hfirst : bytes " " = group e
      · rw [if_neg (not_not.mpr hfirst), ← hfirst] at hclosed
        omega
      · have hlater : ∃ x ∈ entries, group x = bytes " " := by
          obtain ⟨x, hx, hgroup⟩ := hexists
          rcases List.mem_cons.mp hx with rfl | hx
          · exact absurd hgroup.symm hfirst
          · exact ⟨x, hx, hgroup⟩
        have := hlt hlater (group e)
        rw [if_pos hfirst, if_neg (not_not.mpr rfl)] at hclosed
        omega

end Grouped

-- ============================================================================
-- The two tools
-- ============================================================================

namespace Regression

/-- The line of one baseline entry. -/
def rowLine (current : List BenchmarkResult) (entry : BenchmarkResult) : Line RegressionRow :=
  .row (rowOf current entry) (arrow (rowOf current entry).pct_change)

/-- What `printComparisonRow` appends for an entry. -/
def rowItem (current : List BenchmarkResult) (last : Bytes) (entry : BenchmarkResult) :
    List (Line RegressionRow) × Bytes :=
  ((if last ≠ [] ∧ last ≠ entry.operation then [.separator] else []) ++ [rowLine current entry],
    entry.operation)

theorem appends_printEntry (current : List BenchmarkResult) :
    Appends (printEntry current) (rowItem current) where
  lines entry report := by
    simp only [printEntry, printComparisonRow, drawGroupSeparatorIfNeeded, rowItem, Report.write]
    split
    · rw [List.append_assoc]
      rfl
    · rfl
  last entry report := by
    simp only [printEntry, printComparisonRow, drawGroupSeparatorIfNeeded]
    split <;> rfl

/-- The tables of a comparison: one for each stretch of entries of one suite,
    with a border between two methods. -/
def tables (baseline current : List BenchmarkResult) : List (Line RegressionRow) :=
  (Adjacent.group BenchmarkResult.suite baseline).flatMap fun g =>
    [.blank, .header g.1]
      ++ separated BenchmarkResult.operation .separator (rowLine current) g.2 ++ [.closing]

end Regression

namespace GoogleRegression

/-- The line of one baseline entry. -/
def rowLine (current : List BenchmarkResult) (entry : BenchmarkResult) : Line RegressionRow :=
  .row (rowOf current entry) (arrow (rowOf current entry).pct_change)

/-- What `printComparisonRow` appends for an entry: here are no separators. -/
def rowItem (current : List BenchmarkResult) (last : Bytes) (entry : BenchmarkResult) :
    List (Line RegressionRow) × Bytes := ([rowLine current entry], last)

/-- The tables of a comparison: one for each stretch of entries of one base
    name. -/
def tables (baseline current : List BenchmarkResult) : List (Line RegressionRow) :=
  (Adjacent.group (fun entry => baseName entry.name) baseline).flatMap fun g =>
    [.blank, .header g.1] ++ g.2.map (rowLine current) ++ [.closing]

/-- **The printed report**, with base names for suites. -/
theorem google_printRegression_lines_iff (baseline current : List BenchmarkResult) :
    (printRegression baseline current .start).lines = tables baseline current ↔
      ∀ entry ∈ baseline, baseName entry.name ≠ bytes " " := by
  have happends : Appends (printEntry current) (rowItem current) := ⟨fun _ _ => rfl, fun _ _ => rfl⟩
  rw [printRegression, ← lines_printGrouped_iff happends fun _ _ => rfl]
  have hrender : (tablePrinter (fun entry => baseName entry.name) (rowItem current)).render
      (Adjacent.group (fun entry => baseName entry.name) baseline) = tables baseline current := by
    refine (joined_no_gap _ _).trans (List.flatMap_congr fun g _ => ?_)
    have hbody : ∀ members : List BenchmarkResult,
        (tablePrinter (fun entry => baseName entry.name) (rowItem current)).body g.1 members
          = members.map (rowLine current) := by
      intro members
      rw [Printer.body]
      generalize (tablePrinter (fun entry => baseName entry.name) (rowItem current)).start = last
      induction members generalizing last with
      | nil => rfl
      | cons entry members ih => exact congrArg _ (ih _)
    rw [Printer.layout, hbody]
    rfl
  rw [hrender]

end GoogleRegression

end RateThrottle
