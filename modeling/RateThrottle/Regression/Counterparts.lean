/-
  RateThrottle.Regression.Counterparts

  Which current entry a baseline entry is compared with, and what happens when
  there is none.

  `getCns` reports "not found" as the time 0.0, and the zero guard of
  `printComparisonRow` tests the baseline time instead.  A missing benchmark
  with a non-zero baseline is therefore divided by zero and shown as faster by
  an infinite percentage (`missing_row`); `noFalseImprovement_iff` says exactly
  which snapshots are free of that.  `rows_compare_first_of_operation` describes
  the join of the two lists: it is by operation and iteration count, and the
  suite decides only when no other suite has recorded the same operation.
-/

import Mathlib.Data.List.Forall2
import RateThrottle.Regression.Results

namespace RateThrottle.Regression

variable {baseline current : List BenchmarkResult}

/-- The rows a run records. -/
def rows (baseline current : List BenchmarkResult) : List RegressionRow :=
  (printRegression baseline current .start).regression_results

theorem rows_eq (baseline current : List BenchmarkResult) :
    rows baseline current = baseline.map (rowOf current) :=
  regression_results_printRegression baseline current .start

/-- Rows stand beside their baseline entries. -/
theorem forall₂_rows {P : BenchmarkResult → RegressionRow → Prop} :
    List.Forall₂ P baseline (rows baseline current)
      ↔ ∀ entry ∈ baseline, P entry (rowOf current entry) := by
  rw [rows_eq, List.forall₂_map_right_iff, List.forall₂_same]

/-! ## Missing benchmarks -/

/-- No current entry has the operation and iteration count of `entry`. -/
def Missing (current : List BenchmarkResult) (entry : BenchmarkResult) : Prop :=
  ∀ result ∈ current, result.isOf entry.operation entry.iterations = false

theorem Missing.getCns {entry : BenchmarkResult} (h : Missing current entry) :
    getCns current entry.operation entry.iterations = 0 := by
  have hnone : current.find? (·.isOf entry.operation entry.iterations) = none := by
    rw [List.find?_eq_none]
    intro result hresult
    rw [h result hresult]
    exact Bool.false_ne_true
  rw [getCns_eq, hnone]
  rfl

/-- A missing benchmark is shown as infinitely faster. -/
theorem missing_row {entry : BenchmarkResult} (h : Missing current entry)
    (hpos : 0 < entry.ns_per_op) :
    (rowOf current entry).pct_change = .posInf ∧
      arrow (rowOf current entry).pct_change = .faster := by
  have hpct : (rowOf current entry).pct_change = .posInf := by
    simp only [rowOf]
    rw [h.getCns]
    exact percentChange_zero hpos
  rw [hpct]
  exact ⟨rfl, rfl⟩

/-- Every percentage of a run is a number, and no baseline entry without a
    current counterpart raises the counter of faster rows. -/
structure NoFalseImprovement (baseline current : List BenchmarkResult) : Prop where
  finite : ∀ row ∈ rows baseline current, row.pct_change.IsFinite
  missing : List.Forall₂ (fun entry row => Missing current entry →
    ∀ tally : Tally, (tally.count row.pct_change).faster = tally.faster)
      baseline (rows baseline current)

/-- A percentage is a number unless a time other than zero is compared with zero. -/
theorem rowOf_isFinite_iff (entry : BenchmarkResult) :
    (rowOf current entry).pct_change.IsFinite
      ↔ (entry.ns_per_op ≠ 0 → getCns current entry.operation entry.iterations ≠ 0) := by
  simp only [rowOf]
  refine ⟨?_, ?_⟩
  · intro hfinite hb hc
    rw [hc, percentChange, if_neg hb, sub_zero, ExtendedRat.div, if_pos rfl] at hfinite
    split at hfinite
    · exact hfinite
    · split at hfinite <;> exact hfinite
  · intro h
    by_cases hb : entry.ns_per_op = 0
    · rw [hb, percentChange_zero_baseline]
      exact ExtendedRat.isFinite_finite 0
    · exact percentChange_of_ne (h hb) _

/-- A run is free of false improvements when every entry with a time other than
    zero finds such a time; the missing ones among the rest are ties. -/
theorem noFalseImprovement_iff_getCns :
    NoFalseImprovement baseline current
      ↔ ∀ entry ∈ baseline, entry.ns_per_op ≠ 0 →
          getCns current entry.operation entry.iterations ≠ 0 := by
  refine ⟨?_, ?_⟩
  · intro h entry hentry
    have hrow : rowOf current entry ∈ rows baseline current := by
      rw [rows_eq]
      exact List.mem_map_of_mem hentry
    exact (rowOf_isFinite_iff entry).mp (h.finite _ hrow)
  · intro h
    refine ⟨?_, ?_⟩
    · intro row hrow
      rw [rows_eq, List.mem_map] at hrow
      obtain ⟨entry, hentry, rfl⟩ := hrow
      exact (rowOf_isFinite_iff entry).mpr (h entry hentry)
    · rw [forall₂_rows]
      intro entry hentry hmissing tally
      have hzero : entry.ns_per_op = 0 := by
        by_contra hb
        exact h entry hentry hb hmissing.getCns
      rw [Tally.faster_count]
      simp only [rowOf, hzero, percentChange_zero_baseline]
      rfl

/-- **When a run reports no missing benchmark as an improvement.** Exactly when
    every compared baseline entry with a time other than zero has a counterpart
    in the current run, the first of which has a time other than zero too. -/
theorem noFalseImprovement_iff {selection : Selection} {currentLabel baselineLabel : Bytes}
    {filtered : List BenchmarkResult × List BenchmarkResult}
    (hfilter : selection.apply baseline current currentLabel baselineLabel = .ok filtered) :
    NoFalseImprovement filtered.1 filtered.2
      ↔ ∀ entry ∈ baseline, selection.covers entry.operation = true → entry.ns_per_op ≠ 0 →
          ∃ result, current.find? (·.isOf entry.operation entry.iterations) = some result ∧
            result.ns_per_op ≠ 0 := by
  rw [Selection.of_apply hfilter, noFalseImprovement_iff_getCns]
  refine ⟨?_, ?_⟩
  · intro h entry hentry hcovers hb
    rw [← Selection.find?_keep hcovers, ← getCns_ne_zero_iff]
    exact h entry (Selection.mem_keep.mpr ⟨hentry, hcovers⟩) hb
  · intro h entry hentry hb
    obtain ⟨hentry, hcovers⟩ := Selection.mem_keep.mp hentry
    rw [getCns_ne_zero_iff, Selection.find?_keep hcovers]
    exact h entry hentry hcovers hb

/-- A method gone from the current run whose baseline time is zero is a tie. -/
theorem noFalseImprovement_get_idle :
    NoFalseImprovement
      [⟨bytes "Cache", bytes "Get", 50000, 10000, 5⟩, ⟨bytes "Cache", bytes "Idle", 0, 10000, 0⟩]
      [⟨bytes "Cache", bytes "Get", 40000, 10000, 4⟩] := by
  have hfilter : Selection.apply ⟨[], []⟩
      [⟨bytes "Cache", bytes "Get", 50000, 10000, 5⟩, ⟨bytes "Cache", bytes "Idle", 0, 10000, 0⟩]
      [⟨bytes "Cache", bytes "Get", 40000, 10000, 4⟩] (bytes "Current") (bytes "v1.0.0")
    = .ok (_, _) := rfl
  apply (noFalseImprovement_iff hfilter).mpr
  intro entry hentry _ hb
  rcases List.mem_pair.mp hentry with rfl | rfl
  · exact ⟨_, rfl, by decide +kernel⟩
  · exact absurd rfl hb

/-- A method of the group is gone: it is tallied as faster, by an infinite
    percentage. -/
theorem missing_method_tallied_faster :
    ∃ filtered,
      Selection.apply ⟨[bytes "Get", bytes "Grow"], bytes "g"⟩
          [⟨bytes "Cache", bytes "Get", 50000, 10000, 5⟩,
            ⟨bytes "Cache", bytes "Grow", 70000, 10000, 7⟩]
          [⟨bytes "Cache", bytes "Get", 50000, 10000, 5⟩]
          (bytes "Current") (bytes "v1.0.0") = .ok filtered ∧
        (rows filtered.1 filtered.2).map RegressionRow.pct_change = [.finite 0, .posInf] ∧
        printSummary (printRegression filtered.1 filtered.2 .start) = some ⟨1, 0, 1⟩ ∧
        ¬ NoFalseImprovement filtered.1 filtered.2 := by
  refine ⟨_, rfl, by decide +kernel, by decide +kernel, fun h => ?_⟩
  exact h.finite ⟨bytes "Cache", bytes "Grow", 10000, 7, 0, .posInf⟩ (by decide +kernel)

/-! ## The join -/

/-- What identifies a result in a snapshot. -/
def BenchmarkResult.key (result : BenchmarkResult) : Bytes × Bytes × UInt64 :=
  (result.suite, result.operation, result.iterations)

theorem isOf_iff {result : BenchmarkResult} {op : Bytes} {iter : UInt64} :
    result.isOf op iter = true ↔ result.operation = op ∧ result.iterations = iter := by
  simp [BenchmarkResult.isOf]

/-- The entry with an entry's key is found first, unless another suite has the
    operation and iteration count earlier. -/
theorem find?_like (hcurrent : (current.map BenchmarkResult.key).Nodup) {entry : BenchmarkResult}
    {before after : List BenchmarkResult} {like : BenchmarkResult}
    (hsplit : current = before ++ like :: after) (hlike : like.key = entry.key)
    (hother : ∀ other ∈ before, other.suite ≠ entry.suite →
      ¬ (other.operation = entry.operation ∧ other.iterations = entry.iterations)) :
    current.find? (·.isOf entry.operation entry.iterations) = some like := by
  simp only [BenchmarkResult.key, Prod.mk.injEq] at hlike
  obtain ⟨hsuite, hop, hiter⟩ := hlike
  rw [List.find?_eq_some_iff_append]
  refine ⟨isOf_iff.mpr ⟨hop, hiter⟩, before, after, hsplit, fun other hbefore => ?_⟩
  rw [Bool.not_eq_true', Bool.eq_false_iff, ne_eq, isOf_iff]
  rintro ⟨hop', hiter'⟩
  by_cases hsame : other.suite = entry.suite
  · -- an earlier entry of the same suite would have the same key
    have hkey : other.key = like.key := by
      simp only [BenchmarkResult.key, hsame, hop', hiter', hsuite, hop, hiter]
    rw [hsplit, List.map_append, List.map_cons, List.nodup_append] at hcurrent
    exact hcurrent.2.2 _ (List.mem_map_of_mem hbefore) _ List.mem_cons_self hkey
  · exact hother other hbefore hsame ⟨hop', hiter'⟩

/-- **The join of two snapshots.** One row per baseline entry, in baseline order,
    compared with the first current entry of the same operation and iteration
    count.  That is the entry of the same suite, if there is one and no other
    suite has recorded the operation before it. -/
theorem rows_compare_first_of_operation (baseline : List BenchmarkResult)
    (hcurrent : (current.map BenchmarkResult.key).Nodup) (report : Report RegressionRow) :
    ∃ rows, (printRegression baseline current report).regression_results
          = report.regression_results ++ rows ∧
      List.Forall₂ (fun entry row =>
        row.suite = entry.suite ∧ row.operation = entry.operation ∧
          row.iteration = entry.iterations ∧ row.baseline_ns = entry.ns_per_op ∧
          (∀ first, current.find? (fun result => result.operation = entry.operation ∧
              result.iterations = entry.iterations) = some first →
            row.current_ns = first.ns_per_op) ∧
          ∀ before like after, current = before ++ like :: after → like.key = entry.key →
            (∀ other ∈ before, other.suite ≠ entry.suite →
              ¬ (other.operation = entry.operation ∧ other.iterations = entry.iterations)) →
            row.current_ns = like.ns_per_op) baseline rows := by
  refine ⟨baseline.map (rowOf current), regression_results_printRegression _ _ _, ?_⟩
  rw [List.forall₂_map_right_iff, List.forall₂_same]
  intro entry _
  have hfound : ∀ first, current.find? (·.isOf entry.operation entry.iterations) = some first →
      (rowOf current entry).current_ns = first.ns_per_op := by
    intro first hfirst
    simp only [rowOf]
    rw [getCns_eq, hfirst]
    rfl
  refine ⟨rfl, rfl, rfl, rfl, fun first hfirst => hfound first ?_, ?_⟩
  · rw [← hfirst]
    congr 1
    funext result
    simp [BenchmarkResult.isOf]
  · intro before like after hsplit hlike hother
    exact hfound like (find?_like hcurrent hsplit hlike hother)

/-- Two suites share an operation, and the compared one has recorded it first. -/
theorem rows_compare_map_insert :
    ∃ row, rows [⟨bytes "Map", bytes "Insert", 80000, 10000, 8⟩]
        [⟨bytes "Map", bytes "Insert", 60000, 10000, 6⟩,
          ⟨bytes "List", bytes "Insert", 30000, 10000, 3⟩] = [row] ∧ row.current_ns = 6 := by
  have hcurrent : (([⟨bytes "Map", bytes "Insert", 60000, 10000, 6⟩,
      ⟨bytes "List", bytes "Insert", 30000, 10000, 3⟩] : List BenchmarkResult).map
        BenchmarkResult.key).Nodup := by decide
  obtain ⟨found, hfound, hjoin⟩ := rows_compare_first_of_operation
    [⟨bytes "Map", bytes "Insert", 80000, 10000, 8⟩] hcurrent .start
  cases hjoin with
  | cons hrow hrest =>
      cases hrest with
      | nil => exact ⟨_, hfound, hrow.2.2.2.2.2 [] _ _ rfl rfl (by simp)⟩

/-- Two suites with an operation of one name: the row of the second suite is
    compared with the first suite's time. -/
theorem join_mixes_suites :
    ¬ ∀ baseline current : List BenchmarkResult, (baseline.map BenchmarkResult.key).Nodup →
        (current.map BenchmarkResult.key).Nodup →
        List.Forall₂ (fun entry row => ∀ like ∈ current, like.key = entry.key →
          row.current_ns = like.ns_per_op) baseline (rows baseline current) := by
  intro h
  have hrows := h [⟨bytes "Map", bytes "Insert", 80000, 10000, 8⟩]
    [⟨bytes "List", bytes "Insert", 30000, 10000, 3⟩,
      ⟨bytes "Map", bytes "Insert", 80000, 10000, 8⟩] (by decide) (by decide)
  rw [forall₂_rows] at hrows
  have hcns := hrows _ List.mem_cons_self ⟨bytes "Map", bytes "Insert", 80000, 10000, 8⟩
    (by decide +kernel) rfl
  exact absurd hcns (by decide +kernel)

end RateThrottle.Regression
