/-
  RateThrottle.Regression.Results

  The comparison of the custom regression tool (regression/custom/support):
  benchmark results, the lookup of a current counterpart, the method filters,
  and `printRegression` with its rows.

  `printRegression` records one row per baseline entry, and a row depends on
  its entry and on the first current entry with the same operation and
  iteration count (`regression_results_printRegression`, `getCns_eq`); the
  suite plays no part in the lookup.  What this means for benchmarks that are
  missing from the current run, and for suites that share an operation, is
  stated at the end.
-/

import RateThrottle.Regression.Comparison

namespace RateThrottle.Regression

/-- `struct BenchmarkResult`. -/
structure BenchmarkResult where
  suite : Bytes
  operation : Bytes
  total_ns : UInt64
  iterations : UInt64
  ns_per_op : ℚ
deriving DecidableEq

/-- `struct RegressionRow`. -/
structure RegressionRow where
  suite : Bytes
  operation : Bytes
  iteration : UInt64
  baseline_ns : ℚ
  current_ns : ℚ
  pct_change : ExtendedRat
deriving DecidableEq

/-! ## Lookup and filters -/

/-- The test of `getCns`. -/
def BenchmarkResult.isOf (result : BenchmarkResult) (op : Bytes) (iter : UInt64) : Bool :=
  result.operation = op && result.iterations = iter

/-- `getCns`. -/
def getCns (results : List BenchmarkResult) (op : Bytes) (iter : UInt64) : ℚ :=
  match results with
  | [] => 0
  | result :: rest => if result.isOf op iter then result.ns_per_op else getCns rest op iter

/-- `uniqueOperations`, from the operations collected so far. -/
def uniqueOperationsFrom (operations : List Bytes) : List BenchmarkResult → List Bytes
  | [] => operations
  | result :: rest =>
      if result.operation ∈ operations then uniqueOperationsFrom operations rest
      else uniqueOperationsFrom (operations ++ [result.operation]) rest

/-- `uniqueOperations`: the distinct operations in first-seen order. -/
def uniqueOperations (results : List BenchmarkResult) : List Bytes :=
  uniqueOperationsFrom [] results

/-- `filterByOperation`. -/
def filterByOperation (results : List BenchmarkResult) (operation : Bytes) :
    List BenchmarkResult :=
  results.filter fun result => result.operation = operation

/-- `filterByOperations`. -/
def filterByOperations (results : List BenchmarkResult) (operations : List Bytes) :
    List BenchmarkResult :=
  results.filter fun result => result.operation ∈ operations

/-- The common body of the two overloads of `applyMethodFilter`: filter both
    sides, and complain about the first one left empty. -/
def applyFilter (keep : List BenchmarkResult → List BenchmarkResult) (complaint : Bytes)
    (baselineResults currentResults : List BenchmarkResult) (currentLabel baselineLabel : Bytes) :
    Except Bytes (List BenchmarkResult × List BenchmarkResult) :=
  if keep baselineResults = [] then .error (baselineLabel ++ complaint)
  else if keep currentResults = [] then .error (currentLabel ++ complaint)
  else .ok (keep baselineResults, keep currentResults)

/-- `applyMethodFilter` for one method. -/
def applyMethodFilter (baselineResults currentResults : List BenchmarkResult) (method : Bytes)
    (currentLabel baselineLabel : Bytes) :
    Except Bytes (List BenchmarkResult × List BenchmarkResult) :=
  applyFilter (filterByOperation · method)
    (bytes " has no benchmark method '" ++ method ++ bytes "'.")
    baselineResults currentResults currentLabel baselineLabel

/-- `applyMethodFilter` for the methods of a letter group. -/
def applyMethodsFilter (baselineResults currentResults : List BenchmarkResult)
    (methods : List Bytes) (currentLabel baselineLabel : Bytes) :
    Except Bytes (List BenchmarkResult × List BenchmarkResult) :=
  applyFilter (filterByOperations · methods) (bytes " has no benchmark methods in that group.")
    baselineResults currentResults currentLabel baselineLabel

/-- What `main` has made of its method argument: the operations of a letter
    group if there is one, else a method name if there is one. -/
structure Selection where
  methodGroup : List Bytes
  methodFilter : Bytes
deriving DecidableEq

namespace Selection

/-- The filter step of `main`. -/
def apply (selection : Selection) (baselineResults currentResults : List BenchmarkResult)
    (currentLabel baselineLabel : Bytes) :
    Except Bytes (List BenchmarkResult × List BenchmarkResult) :=
  if selection.methodGroup ≠ [] then
    applyMethodsFilter baselineResults currentResults selection.methodGroup currentLabel
      baselineLabel
  else if selection.methodFilter ≠ [] then
    applyMethodFilter baselineResults currentResults selection.methodFilter currentLabel
      baselineLabel
  else .ok (baselineResults, currentResults)

/-- Whether a selection is about an operation. -/
def covers (selection : Selection) (operation : Bytes) : Bool :=
  if selection.methodGroup ≠ [] then operation ∈ selection.methodGroup
  else if selection.methodFilter ≠ [] then operation = selection.methodFilter
  else true

/-- The entries a selection is about. -/
def keep (selection : Selection) (results : List BenchmarkResult) : List BenchmarkResult :=
  results.filter fun result => selection.covers result.operation

theorem mem_keep {selection : Selection} {results : List BenchmarkResult}
    {result : BenchmarkResult} :
    result ∈ selection.keep results
      ↔ result ∈ results ∧ selection.covers result.operation = true := by
  rw [keep, List.mem_filter]

theorem of_applyFilter {keep : List BenchmarkResult → List BenchmarkResult} {complaint : Bytes}
    {baseline current : List BenchmarkResult} {currentLabel baselineLabel : Bytes}
    {filtered : List BenchmarkResult × List BenchmarkResult}
    (h : applyFilter keep complaint baseline current currentLabel baselineLabel = .ok filtered) :
    filtered = (keep baseline, keep current) := by
  rw [applyFilter] at h
  split at h
  · cases h
  · split at h
    · cases h
    · exact (Except.ok.inj h).symm

/-- A run that gets past the filter goes on with the kept entries of both sides. -/
theorem of_apply {selection : Selection} {baseline current : List BenchmarkResult}
    {currentLabel baselineLabel : Bytes}
    {filtered : List BenchmarkResult × List BenchmarkResult}
    (h : selection.apply baseline current currentLabel baselineLabel = .ok filtered) :
    filtered = (selection.keep baseline, selection.keep current) := by
  obtain ⟨methodGroup, methodFilter⟩ := selection
  by_cases hgroup : methodGroup = []
  · subst hgroup
    by_cases hfilter : methodFilter = []
    · subst hfilter
      have hall : ∀ results, keep ⟨[], []⟩ results = results := by simp [keep, covers]
      rw [hall, hall]
      exact (Except.ok.inj h).symm
    · simp only [apply, ne_eq, not_true_eq_false, if_false, hfilter, not_false_eq_true,
        if_true] at h
      have hone : ∀ results, keep ⟨[], methodFilter⟩ results
          = filterByOperation results methodFilter := by
        intro results
        simp [keep, covers, filterByOperation, hfilter]
      rw [hone, hone]
      exact of_applyFilter h
  · simp only [apply, ne_eq, hgroup, not_false_eq_true, if_true] at h
    have hmany : ∀ results, keep ⟨methodGroup, methodFilter⟩ results
        = filterByOperations results methodGroup := by
      intro results
      simp [keep, covers, filterByOperations, hgroup]
    rw [hmany, hmany]
    exact of_applyFilter h

/-- The lookup of a covered operation does not see the filter. -/
theorem find?_keep {selection : Selection} {op : Bytes} (hop : selection.covers op = true)
    (results : List BenchmarkResult) (iter : UInt64) :
    (selection.keep results).find? (·.isOf op iter) = results.find? (·.isOf op iter) := by
  rw [keep, List.find?_filter]
  congr 1
  funext result
  by_cases hresult : result.operation = op
  · simp [hresult, hop]
  · simp [BenchmarkResult.isOf, hresult]

end Selection

/-! ## The comparison -/

/-- `convertIter`. -/
def convertIter (iter : UInt64) : Bytes :=
  if iter = 10000 then bytes "10K" else if iter = 100000 then bytes "100K" else bytes "1M"

/-- `drawGroupSeparatorIfNeeded`. -/
def drawGroupSeparatorIfNeeded (name : Bytes) (report : Report RegressionRow) :
    Report RegressionRow :=
  let report := if report.lastRowGroup ≠ [] ∧ report.lastRowGroup ≠ name then
    report.write .separator else report
  { report with lastRowGroup := name }

/-- `printComparisonRow`. -/
def printComparisonRow (suite name : Bytes) (iter : UInt64) (bNs cNs : ℚ)
    (report : Report RegressionRow) : Report RegressionRow :=
  let report := drawGroupSeparatorIfNeeded name report
  let pct := percentChange bNs cNs
  let row : RegressionRow :=
    { suite, operation := name, iteration := iter, baseline_ns := bNs, current_ns := cNs,
      pct_change := pct }
  { report.write (.row row (arrow pct)) with
    regression_results := report.regression_results ++ [row] }

/-- The part of the loop of `printRegression` after the group header. -/
def printEntry (current : List BenchmarkResult) (entry : BenchmarkResult) :
    Report RegressionRow → Report RegressionRow :=
  printComparisonRow entry.suite entry.operation entry.iterations entry.ns_per_op
    (getCns current entry.operation entry.iterations)

/-- `printRegression`. -/
def printRegression (baseline current : List BenchmarkResult) (report : Report RegressionRow) :
    Report RegressionRow :=
  printGrouped BenchmarkResult.suite (printEntry current) baseline (bytes " ") report

/-- `printSummary`, none when it prints nothing. -/
def printSummary (report : Report RegressionRow) : Option Tally :=
  let counters := tally (report.regression_results.map RegressionRow.pct_change)
  if counters.total = 0 then none else some counters

/-- The row of one baseline entry. -/
def rowOf (current : List BenchmarkResult) (entry : BenchmarkResult) : RegressionRow :=
  let cNs := getCns current entry.operation entry.iterations
  { suite := entry.suite, operation := entry.operation, iteration := entry.iterations,
    baseline_ns := entry.ns_per_op, current_ns := cNs,
    pct_change := percentChange entry.ns_per_op cNs }

theorem regression_results_printEntry (current : List BenchmarkResult) (entry : BenchmarkResult)
    (report : Report RegressionRow) :
    (printEntry current entry report).regression_results
      = report.regression_results ++ [rowOf current entry] := by
  simp only [printEntry, printComparisonRow, drawGroupSeparatorIfNeeded]
  split <;> rfl

/-- **One row per baseline entry, in baseline order.** -/
theorem regression_results_printRegression (baseline current : List BenchmarkResult)
    (report : Report RegressionRow) :
    (printRegression baseline current report).regression_results
      = report.regression_results ++ baseline.map (rowOf current) :=
  regression_results_printGrouped (regression_results_printEntry current) baseline _ report

/-- `getCns` reads the first entry with the operation and iteration count. -/
theorem getCns_eq (results : List BenchmarkResult) (op : Bytes) (iter : UInt64) :
    getCns results op iter
      = ((results.find? (·.isOf op iter)).map BenchmarkResult.ns_per_op).getD 0 := by
  induction results with
  | nil => rfl
  | cons result rest ih =>
      rw [getCns, List.find?_cons]
      split
      · next h =>
          rw [h]
          rfl
      · next h =>
          rw [ih, Bool.eq_false_of_not_eq_true h]

/-- With non-negative times, `getCns` is zero when there is nothing to find and
    when a zero is found. -/
theorem getCns_ne_zero_iff {results : List BenchmarkResult} {op : Bytes} {iter : UInt64} :
    getCns results op iter ≠ 0
      ↔ ∃ result, results.find? (·.isOf op iter) = some result ∧ result.ns_per_op ≠ 0 := by
  rw [getCns_eq]
  cases results.find? (·.isOf op iter) with
  | none => simp
  | some result => simp

end RateThrottle.Regression
