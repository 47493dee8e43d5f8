/-
  RateThrottle.Regression.Pipeline

  The two tools one after the other: a snapshot that the benchmark tool wrote,
  kept as a baseline and compared with itself by the regression tool.

  The lookup of a counterpart goes by operation and iteration count and takes
  the first entry, so a comparison of a snapshot with itself shows ties only
  when every entry agrees with the first one that is looked up like it
  (`self_comparison_ties_iff`).  For the snapshots of the benchmark tool it is
  enough that no two macro calls of the run have one name
  (`published_run_ties`).
-/

import RateThrottle.Benchmarks.Main
import RateThrottle.Regression.Main

namespace RateThrottle.Regression

-- ============================================================================
-- Ties
-- ============================================================================

/-- A baseline time without a change beyond `NOISE_THRESHOLD` percent. -/
def WithinNoise (bNs cNs : ℚ) : Prop := bNs = 0 ∨ cNs ≠ 0 ∧ |bNs - cNs| < |cNs| / 100

theorem absLt_percentChange_iff (bNs cNs : ℚ) :
    (percentChange bNs cNs).absLt noiseThreshold = true ↔ WithinNoise bNs cNs := by
  by_cases hb : bNs = 0
  · refine iff_of_true ?_ (Or.inl hb)
    rw [hb, percentChange_zero_baseline]
    simp [ExtendedRat.absLt, noiseThreshold]
  · rw [WithinNoise, or_iff_right hb]
    by_cases hc : cNs = 0
    · refine iff_of_false (fun hlt => ?_) fun h => h.1 hc
      have hfinite : (percentChange bNs cNs).IsFinite := by
        cases hpct : percentChange bNs cNs with
        | finite q => trivial
        | _ =>
            rw [hpct] at hlt
            cases hlt
      exact isFinite_percentChange_iff.mp hfinite hb hc
    · have hpos : 0 < |cNs| := abs_pos.mpr hc
      rw [percentChange, if_neg hb, ExtendedRat.div_of_ne hc]
      simp only [ExtendedRat.scale, ExtendedRat.absLt, decide_eq_true_eq]
      rw [noiseThreshold, abs_mul, abs_div, and_iff_right hc, div_mul_eq_mul_div, div_lt_iff₀ hpos,
        one_mul, lt_div_iff₀ (by norm_num)]
      norm_num

/-- A time compared with itself. -/
theorem percentChange_self (ns : ℚ) : percentChange ns ns = .finite 0 := by
  by_cases hns : ns = 0
  · rw [hns, percentChange_zero_baseline]
  · rw [percentChange, if_neg hns, ExtendedRat.div_of_ne hns, sub_self, zero_div,
      ExtendedRat.scale, zero_mul]

/-- The counter of the ties. -/
theorem tied_tally (pcts : List ExtendedRat) :
    (tally pcts).tied = pcts.countP (·.absLt noiseThreshold) := by
  have hfold : ∀ start : Tally, (pcts.foldl Tally.count start).tied
      = start.tied + pcts.countP (·.absLt noiseThreshold) := by
    induction pcts with
    | nil => exact fun _ => rfl
    | cons pct pcts ih =>
        intro start
        rw [List.foldl_cons, ih, List.countP_cons, Tally.count]
        split
        · simp only
          omega
        · split <;> rfl
  rw [tally, hfold]
  exact Nat.zero_add _

/-- Only ties are counted when every change is noise. -/
theorem tally_eq_ties_iff (pcts : List ExtendedRat) :
    tally pcts = ⟨0, 0, pcts.length⟩ ↔ ∀ pct ∈ pcts, pct.absLt noiseThreshold = true := by
  have htotal := tally_total pcts
  have htied := tied_tally pcts
  rw [← List.countP_eq_length, ← htied]
  constructor
  · intro h
    rw [h]
  · intro h
    rw [Tally.total] at htotal
    have hfaster : (tally pcts).faster = 0 := by omega
    have hslower : (tally pcts).slower = 0 := by omega
    calc tally pcts = ⟨(tally pcts).faster, (tally pcts).slower, (tally pcts).tied⟩ := rfl
      _ = ⟨0, 0, pcts.length⟩ := by rw [hfaster, hslower, h]

/-- A summary that counts ties only, none for an empty comparison. -/
def tiesOnly (n : Nat) : Option Tally := if n = 0 then none else some ⟨0, 0, n⟩

theorem printSummary_eq_tiesOnly_iff (report : Report RegressionRow) :
    printSummary report = tiesOnly report.regression_results.length ↔
      ∀ row ∈ report.regression_results, row.pct_change.absLt noiseThreshold = true := by
  have htotal := tally_total (report.regression_results.map RegressionRow.pct_change)
  rw [List.length_map] at htotal
  have hties := tally_eq_ties_iff (report.regression_results.map RegressionRow.pct_change)
  rw [List.length_map, List.forall_mem_map] at hties
  rw [← hties, printSummary, tiesOnly]
  simp only [htotal]
  split
  · next hzero =>
      rw [List.length_eq_zero_iff] at hzero
      simp [hzero, tally]
  · exact Option.some_inj

/-- **A snapshot compared with itself** shows ties only, exactly when every entry
    is within noise of the first one with its operation and iteration count. -/
theorem self_comparison_ties_iff (results : List BenchmarkResult) :
    printSummary (printRegression results results .start) = tiesOnly results.length ↔
      ∀ entry ∈ results, ∀ first,
        results.find? (·.isOf entry.operation entry.iterations) = some first →
          WithinNoise entry.ns_per_op first.ns_per_op := by
  have hrows : (printRegression results results .start).regression_results
      = results.map (rowOf results) := by
    rw [regression_results_printRegression]
    rfl
  have hlength : (printRegression results results .start).regression_results.length
      = results.length := by
    rw [hrows, List.length_map]
  rw [← hlength, printSummary_eq_tiesOnly_iff, hrows, List.forall_mem_map]
  refine forall₂_congr fun entry hentry => ?_
  rw [show (rowOf results entry).pct_change = percentChange entry.ns_per_op
    (getCns results entry.operation entry.iterations) from rfl, absLt_percentChange_iff, getCns_eq]
  cases hfind : results.find? (·.isOf entry.operation entry.iterations) with
  | none =>
      have hself := List.find?_eq_none.mp hfind entry hentry
      exact absurd (isOf_iff.mpr ⟨rfl, rfl⟩) hself
  | some first => simp

-- ============================================================================
-- Snapshots of the benchmark tool
-- ============================================================================

open Benchmarks (BenchSuite Bench Measurement)

/-- The name that a macro call records. -/
def benchName : Bench → Bytes
  | .BENCH name _ _ => name
  | .BENCH_SOLO name _ => name
  | .BENCH_CUSTOM name _ _ => name
  | .BENCH_SOLO_CUSTOM name _ => name

/-- What the lookup looks at. -/
def lookupKey (result : BenchmarkResult) : Bytes × UInt64 := (result.operation, result.iterations)

/-- With different keys every entry is its own counterpart. -/
theorem find?_self {results : List BenchmarkResult} (hkeys : (results.map lookupKey).Nodup)
    {entry : BenchmarkResult} (hentry : entry ∈ results) :
    results.find? (·.isOf entry.operation entry.iterations) = some entry := by
  cases hfind : results.find? (·.isOf entry.operation entry.iterations) with
  | none => exact absurd (isOf_iff.mpr ⟨rfl, rfl⟩) (List.find?_eq_none.mp hfind entry hentry)
  | some first =>
      have hfirst : first.isOf entry.operation entry.iterations = true := by
        simpa using List.find?_some hfind
      obtain ⟨hop, hiter⟩ := isOf_iff.mp hfirst
      have hsame : lookupKey first = lookupKey entry := by rw [lookupKey, hop, hiter, lookupKey]
      rw [List.inj_on_of_nodup_map hkeys (List.mem_of_find?_eq_some hfind) hentry hsame]

/-- A macro call records its name, in tiers of different iteration counts. -/
theorem measurements_keys (bench : Bench) :
    (∀ m ∈ bench.measurements, m.row.name = benchName bench) ∧
      (bench.measurements.map fun m => m.tier.iterations).Nodup := by
  cases bench <;>
  · refine ⟨?_, ?_⟩
    · simp [Bench.measurements, Benchmarks.standardTiers, Benchmarks.customTiers,
        Benchmarks.soloCustomTiers, Benchmarks.Row.name, benchName]
    · simp [Bench.measurements, Benchmarks.standardTiers, Benchmarks.customTiers,
        Benchmarks.soloCustomTiers]

/-- A run whose macro calls have different names records different keys. -/
theorem nodup_keys_of_names (nearest : ℚ → ℚ) {suites : List BenchSuite}
    (hdistinct : (suites.flatMap fun suite => suite.run.map benchName).Nodup) :
    (((suites.flatMap BenchSuite.results).map (reloaded nearest)).map lookupKey).Nodup := by
  have hsuite : ∀ suite : BenchSuite,
      suite.results.map (fun r => lookupKey (reloaded nearest r))
        = suite.run.flatMap fun bench =>
          bench.measurements.map fun m => (benchName bench, m.tier.iterations) := by
    intro suite
    rw [BenchSuite.results, BenchSuite.measurements, List.map_map, List.map_flatMap]
    refine List.flatMap_congr fun bench _ => List.map_congr_left fun m hm => ?_
    rw [← (measurements_keys bench).1 m hm]
    rfl
  have hkeys : ((suites.flatMap BenchSuite.results).map (reloaded nearest)).map lookupKey
      = (suites.flatMap BenchSuite.run).flatMap fun bench =>
        bench.measurements.map fun m => (benchName bench, m.tier.iterations) := by
    rw [List.map_map, List.map_flatMap, List.flatMap_assoc]
    exact List.flatMap_congr fun suite _ => hsuite suite
  have hnames : ((suites.flatMap BenchSuite.run).map benchName).Nodup := by
    rw [List.map_flatMap]
    exact hdistinct
  rw [hkeys, List.nodup_flatMap]
  refine ⟨fun bench _ => ?_, ?_⟩
  · -- one call: its tiers
    have htiers := (measurements_keys bench).2
    refine List.Nodup.of_map Prod.snd ?_
    rw [List.map_map]
    exact htiers
  · -- two calls: their names
    refine (List.pairwise_map.mp hnames).imp fun hne => ?_
    rintro ⟨name, iterations⟩ hleft hright
    obtain ⟨_, -, hfirst⟩ := List.mem_map.mp hleft
    obtain ⟨_, -, hsecond⟩ := List.mem_map.mp hright
    exact hne ((Prod.mk.inj hfirst).1.trans (Prod.mk.inj hsecond).1.symm)

/-- A whole snapshot against another. -/
theorem compareFiles_all (sort : MethodSort) (nearest : ℚ → ℚ) {w : World}
    {currentFile baselineFile : Bytes} {baseline current : List BenchmarkResult}
    (hbaseline : loadResults nearest (w.content baselineFile) = .ok baseline)
    (hcurrent : loadResults nearest (w.content currentFile) = .ok current) :
    compareFiles sort nearest w currentFile baselineFile []
      = .ok (compareResults w (labelFor currentFile) (labelFor baselineFile) baseline current) := by
  have hload : loadFile nearest w baselineFile = .ok baseline := by
    rw [loadFile, hbaseline]
    rfl
  have hload' : loadFile nearest w currentFile = .ok current := by
    rw [loadFile, hcurrent]
    rfl
  simp only [compareFiles, hload, hload']
  rfl

/-- What a run records: a name of its own, and a time that is not negative. -/
theorem of_mem_results {suites : List BenchSuite} {r : Benchmarks.BenchmarkResult}
    (hr : r ∈ suites.flatMap BenchSuite.results) :
    0 ≤ r.ns_per_op ∧ ∃ suite ∈ suites, r.suite = suite.name ∧
      ∃ bench ∈ suite.run, r.operation = benchName bench := by
  obtain ⟨suite, hsuite, hr⟩ := List.mem_flatMap.mp hr
  obtain ⟨m, hm, rfl⟩ := List.mem_map.mp hr
  obtain ⟨bench, hbench, hm⟩ := List.mem_flatMap.mp hm
  refine ⟨div_nonneg (Nat.cast_nonneg _) (Nat.cast_nonneg _), suite, hsuite, rfl, bench, hbench, ?_⟩
  exact (measurements_keys bench).1 m hm

/-- **A published run.** The results of a benchmark run are kept as a baseline
    and compared with themselves: when all names are plain and no two macro calls
    of the run have the same one, every change is zero, the summary counts ties
    only, one for each measurement, and the report can be read again. -/
theorem published_run_ties (sort : MethodSort) (nearest : ℚ → ℚ) {registry suites : List BenchSuite}
    {args : List Bytes} (hruns : Benchmarks.runs registry args = some suites)
    (hnames : ∀ suite ∈ suites, PlainName suite.name ∧
      ∀ bench ∈ suite.run, PlainName (benchName bench))
    (hdistinct : (suites.flatMap fun suite => suite.run.map benchName).Nodup)
    {w : World} {tag : Bytes} {version : Baseline} (htag : tryParseVersionArg tag = some version)
    (hsaved : ∀ text, .json text ∈ (Benchmarks.main true registry args).2.2 →
      w.content kLiveResultsFile = some text ∧ w.content (baselinePath version) = some text) :
    ∃ comparison, main sort nearest w [tag] = .comparison (.ok comparison) ∧
      (∀ row ∈ comparison.report.regression_results, row.pct_change = .finite 0) ∧
      comparison.summary = tiesOnly (suites.flatMap BenchSuite.measurements).length ∧
      ∀ text, comparison.json = some text → Json.WellFormed text := by
  -- both files hold the snapshot of the run
  obtain ⟨hlive, hbase⟩ := hsaved (Benchmarks.exportJson (suites.flatMap BenchSuite.results)) (by
    rw [Benchmarks.main_of_runs_some true hruns, Benchmarks.exports, if_pos rfl,
      (Benchmarks.finished_spec suites).2.2]
    exact List.mem_cons_self)
  have hplain : ∀ r ∈ suites.flatMap BenchSuite.results, PlainName r.suite ∧
      PlainName r.operation := by
    intro r hr
    obtain ⟨-, suite, hsuite, hname, bench, hbench, hop⟩ := of_mem_results hr
    rw [hname, hop]
    exact ⟨(hnames suite hsuite).1, (hnames suite hsuite).2 bench hbench⟩
  have hloads : loadResults nearest
      (some (Benchmarks.exportJson (suites.flatMap BenchSuite.results)))
      = .ok ((suites.flatMap BenchSuite.results).map (reloaded nearest)) := by
    refine loadResults_exportJson nearest (fun r hr c hc => ?_) (fun r hr => ?_) fun r hr => ?_
    · apply isPlain_iff_bytes.mp
      rcases List.mem_append.mp hc with hc | hc
      · exact (hplain r hr).1.1 c hc
      · exact (hplain r hr).2.1 c hc
    · exact ⟨(hplain r hr).1.2, (hplain r hr).2.2⟩
    · exact (of_mem_results hr).1
  have hkeys := nodup_keys_of_names nearest hdistinct
  generalize hresults : (suites.flatMap BenchSuite.results).map (reloaded nearest) = results
    at hloads hkeys
  have hrows : (printRegression results results .start).regression_results
      = results.map (rowOf results) := by
    rw [regression_results_printRegression]
    rfl
  have hzero : ∀ row ∈ (printRegression results results .start).regression_results,
      row.pct_change = .finite 0 := by
    rw [hrows, List.forall_mem_map]
    intro entry hentry
    have hself : getCns results entry.operation entry.iterations = entry.ns_per_op := by
      rw [getCns_eq, find?_self hkeys hentry]
      rfl
    rw [rowOf, hself]
    exact percentChange_self _
  refine ⟨compareResults w (labelFor kLiveResultsFile) (labelFor (baselinePath version)) results
    results, ?_, hzero, ?_, fun text htext => ?_⟩
  · have hversions : versionArgs [tag] = ([version], []) := by
      simp only [versionArgs, htag]
    rw [main_of_tag sort nearest w (by rw [htag]; rfl), compareArgs, hversions]
    refine congrArg Run.comparison ?_
    exact compareFiles_all sort nearest (hbase ▸ hloads) (hlive ▸ hloads)
  · have hlength : (suites.flatMap BenchSuite.measurements).length
        = (printRegression results results .start).regression_results.length := by
      rw [hrows, ← hresults, List.length_map, List.length_map, List.length_flatMap,
        List.length_flatMap]
      simp only [BenchSuite.results, List.length_map]
    rw [hlength]
    refine (printSummary_eq_tiesOnly_iff _).mpr fun row hrow => ?_
    rw [hzero row hrow]
    simp [ExtendedRat.absLt, noiseThreshold]
  · have hjson : text = exportJson (results.map (rowOf results)) := by
      simp only [compareResults, hrows] at htext
      split at htext
      · exact (Option.some.inj htext).symm
      · cases htext
    rw [hjson, wellFormed_report_iff]
    · intro row hrow
      rw [hzero row (hrows ▸ hrow)]
      trivial
    · rw [List.forall_mem_map, ← hresults, List.forall_mem_map]
      exact hplain

/-- A suite of one benchmark, published as v1.0.0: three ties. -/
theorem published_run_ties_allow :
    ∃ comparison, main .insertion id
        ⟨none, fun _ => some (Benchmarks.exportJson Benchmarks.allowSuite.results), true⟩
        [bytes "v1.0.0"] = .comparison (.ok comparison) ∧
      comparison.summary = some ⟨0, 0, 3⟩ := by
  have hruns : Benchmarks.runs [Benchmarks.allowSuite] [] = some [Benchmarks.allowSuite] := rfl
  have htag : tryParseVersionArg (bytes "v1.0.0") = some ⟨1, 0, 0, bytes "v1.0.0"⟩ := by decide
  have hallow : PlainName (bytes "allow") := ⟨List.all_eq_true.mp (by decide), by decide⟩
  have hallow_one : PlainName (bytes "allow_one") := ⟨List.all_eq_true.mp (by decide), by decide⟩
  obtain ⟨comparison, hmain, -, hsummary, -⟩ := published_run_ties .insertion id hruns
    (fun suite hsuite => by
      rw [List.mem_singleton.mp hsuite]
      refine ⟨hallow, fun bench hbench => ?_⟩
      rw [List.mem_singleton.mp hbench]
      exact hallow_one)
    (List.nodup_singleton _) htag
    (w := ⟨none, fun _ => some (Benchmarks.exportJson Benchmarks.allowSuite.results), true⟩)
    (fun text htext => by
      rw [Benchmarks.main_of_runs_some true hruns, Benchmarks.exports, if_pos rfl,
        (Benchmarks.finished_spec _).2.2] at htext
      simp only [List.mem_cons, Benchmarks.File.json.injEq, reduceCtorEq, List.not_mem_nil,
        or_false] at htext
      rw [htext, List.flatMap_singleton]
      exact ⟨rfl, rfl⟩)
  exact ⟨comparison, hmain, hsummary⟩

end RateThrottle.Regression
