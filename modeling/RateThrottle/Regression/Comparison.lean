/-
  RateThrottle.Regression.Comparison

  What the two regression tools (regression/custom and regression/google) share
  word for word in their support headers: the percentage of a comparison row,
  its three-way reading against `NOISE_THRESHOLD`, the tally of `printSummary`,
  and the table a tool draws around its rows.

  Times are `double`s in the source and exact rationals here, except that a
  quotient may leave the numbers (`ExtendedRat`).  Of the printed text the
  structure is kept (headers, separators, rows, borders), not the contents of
  the cells.
-/

import RateThrottle.Library.ExtendedRat
import RateThrottle.Support.Bytes

namespace RateThrottle

/-! ## Percentages -/

/-- `NOISE_THRESHOLD`. -/
def noiseThreshold : ℚ := 1

/-- `bNs == 0 ? 0.0 : (bNs - cNs) / cNs * 100.0` of `printComparisonRow`. -/
def percentChange (bNs cNs : ℚ) : ExtendedRat :=
  if bNs = 0 then .finite 0 else (ExtendedRat.div (bNs - cNs) cNs).scale 100

/-- The arrow in front of a percentage: "— ", "▲ " or "▼ ". -/
inductive Arrow where
  | noise
  | faster
  | slower
deriving DecidableEq, Repr

/-- `noise ? "— " : (pct > 0.0) ? "▲ " : "▼ "`. -/
def arrow (pct : ExtendedRat) : Arrow :=
  if pct.absLt noiseThreshold then .noise
  else if pct.gt 0 then .faster
  else .slower

/-- With a current time other than zero the percentage is a number. -/
theorem percentChange_of_ne {cNs : ℚ} (hc : cNs ≠ 0) (bNs : ℚ) :
    (percentChange bNs cNs).IsFinite := by
  rw [percentChange]
  split
  · exact ExtendedRat.isFinite_finite 0
  · rw [ExtendedRat.div_of_ne hc]
    exact ExtendedRat.isFinite_finite _

/-- The guard of `percentChange` looks at the baseline, so a zero current time
    is divided by. -/
theorem percentChange_zero {bNs : ℚ} (hb : 0 < bNs) : percentChange bNs 0 = .posInf := by
  rw [percentChange, if_neg hb.ne', sub_zero, ExtendedRat.div_zero_of_pos hb]
  rfl

@[simp] theorem percentChange_zero_baseline (cNs : ℚ) : percentChange 0 cNs = .finite 0 :=
  if_pos rfl

/-! ## The summary -/

/-- The counters of `printSummary`. -/
structure Tally where
  faster : Nat
  slower : Nat
  tied : Nat
deriving DecidableEq, Repr

namespace Tally

/-- One round of the loop of `printSummary`. -/
def count (tally : Tally) (pct : ExtendedRat) : Tally :=
  if pct.absLt noiseThreshold then { tally with tied := tally.tied + 1 }
  else if pct.gt 0 then { tally with faster := tally.faster + 1 }
  else { tally with slower := tally.slower + 1 }

/-- `faster + slower + tied`. -/
def total (tally : Tally) : Nat := tally.faster + tally.slower + tally.tied

/-- A row raises the counter its arrow points to. -/
theorem faster_count (tally : Tally) (pct : ExtendedRat) :
    (tally.count pct).faster = tally.faster + if arrow pct = .faster then 1 else 0 := by
  rw [count, arrow]
  split
  · rfl
  · split <;> rfl

theorem total_count (tally : Tally) (pct : ExtendedRat) :
    (tally.count pct).total = tally.total + 1 := by
  rw [count]
  split
  · simp only [total]; omega
  · split <;> (simp only [total]; omega)

end Tally

/-- The loop of `printSummary` over the percentages of all rows. -/
def tally (pcts : List ExtendedRat) : Tally := pcts.foldl Tally.count ⟨0, 0, 0⟩

theorem tally_foldl_faster (pcts : List ExtendedRat) (start : Tally) :
    (pcts.foldl Tally.count start).faster
      = start.faster + pcts.countP (arrow · = .faster) := by
  induction pcts generalizing start with
  | nil => rfl
  | cons pct pcts ih =>
      rw [List.foldl_cons, ih, Tally.faster_count, List.countP_cons]
      simp only [decide_eq_true_eq]
      omega

/-- The summary counts as faster the rows printed with "▲ ". -/
theorem tally_faster (pcts : List ExtendedRat) :
    (tally pcts).faster = pcts.countP (arrow · = .faster) := by
  rw [tally, tally_foldl_faster, Nat.zero_add]

theorem tally_foldl_total (pcts : List ExtendedRat) (start : Tally) :
    (pcts.foldl Tally.count start).total = start.total + pcts.length := by
  induction pcts generalizing start with
  | nil => rfl
  | cons pct pcts ih =>
      rw [List.foldl_cons, ih, Tally.total_count, List.length_cons]
      omega

/-- Every row is counted once. -/
theorem tally_total (pcts : List ExtendedRat) : (tally pcts).total = pcts.length := by
  rw [tally, tally_foldl_total]
  exact Nat.zero_add _

/-! ## Tables -/

/-- What a tool writes to `std::cout`, in order. -/
inductive Line (R : Type) where
  /-- `std::cout << "\n"`. -/
  | blank
  /-- The three lines of `setHeader`. -/
  | header (title : Bytes)
  /-- The border between two methods of one table. -/
  | separator
  /-- One comparison row with its arrow. -/
  | row (row : R) (delta : Arrow)
  /-- `endTable`. -/
  | closing
deriving DecidableEq

/-- The process-wide state a run writes to. -/
structure Report (R : Type) where
  lines : List (Line R)
  lastRowGroup : Bytes
  regression_results : List R

namespace Report

variable {R : Type}

/-- Before the run. -/
def start : Report R := ⟨[], [], []⟩

/-- Append one piece of output. -/
def write (report : Report R) (line : Line R) : Report R :=
  { report with lines := report.lines ++ [line] }

/-- `setHeader`. -/
def setHeader (report : Report R) (header : Bytes) : Report R :=
  { report with lastRowGroup := [] }.write (.header header)

/-- `endTable`. -/
def endTable (report : Report R) : Report R := report.write .closing

/-- The body of the `if` at the top of the loop of `printRegression`: close the
    table of the previous group, open that of the next. -/
def openGroup (report : Report R) (currentGroup group : Bytes) : Report R :=
  ((if currentGroup ≠ bytes " " then report.endTable else report).write .blank).setHeader group

@[simp] theorem regression_results_start : (start : Report R).regression_results = [] := rfl

@[simp] theorem regression_results_write (report : Report R) (line : Line R) :
    (report.write line).regression_results = report.regression_results := rfl

@[simp] theorem regression_results_setHeader (report : Report R) (header : Bytes) :
    (report.setHeader header).regression_results = report.regression_results := rfl

@[simp] theorem regression_results_endTable (report : Report R) :
    report.endTable.regression_results = report.regression_results := rfl

@[simp] theorem regression_results_openGroup (report : Report R) (currentGroup group : Bytes) :
    (report.openGroup currentGroup group).regression_results = report.regression_results := by
  rw [openGroup, regression_results_setHeader, regression_results_write]
  split <;> rfl

end Report

/-- The loop of `printRegression`: `group` of an entry decides on headers and
    `printRow` prints the row of one entry. -/
def printGrouped {E R : Type} (group : E → Bytes) (printRow : E → Report R → Report R) :
    List E → Bytes → Report R → Report R
  | [], currentGroup, report =>
      if currentGroup ≠ bytes " " then report.endTable else report
  | e :: rest, currentGroup, report =>
      if currentGroup ≠ group e then
        printGrouped group printRow rest (group e)
          (printRow e (report.openGroup currentGroup (group e)))
      else printGrouped group printRow rest currentGroup (printRow e report)

/-- When `printRow` records one row for its entry, the loop records one row per
    entry, in order, whatever the grouping. -/
theorem regression_results_printGrouped {E R : Type} {group : E → Bytes}
    {printRow : E → Report R → Report R} {row : E → R}
    (hrow : ∀ e report, (printRow e report).regression_results
      = report.regression_results ++ [row e])
    (entries : List E) (currentGroup : Bytes) (report : Report R) :
    (printGrouped group printRow entries currentGroup report).regression_results
      = report.regression_results ++ entries.map row := by
  induction entries generalizing currentGroup report with
  | nil =>
      rw [printGrouped, List.map_nil, List.append_nil]
      split <;> rfl
  | cons e rest ih =>
      rw [printGrouped, List.map_cons, List.append_cons]
      split
      · rw [ih, hrow, Report.regression_results_openGroup]
      · rw [ih, hrow]

end RateThrottle
