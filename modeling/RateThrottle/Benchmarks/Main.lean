/-
  RateThrottle.Benchmarks.Main

  The command line of the benchmark tool (benchmarks/custom/bench_main.cpp and
  the drivers and exports it calls).

  A run is a list of suites, run one after the other on the process-wide state
  of `Session`.  `main_run` describes every run at once: what is on the console,
  what the summary counts, and what is written to the results directory; the
  exports happen exactly in the runs that measure something to export.
-/

import RateThrottle.Benchmarks.Tables

namespace RateThrottle.Benchmarks

open Sections

-- ============================================================================
-- Exports and main
-- ============================================================================

/-- A file written to `kResultsDir`. -/
inductive File where
  /-- `benchmark_results.json`. -/
  | json (text : Bytes)
  /-- `benchmark_results.md`. -/
  | markdown (buffer : List Markdown)
deriving DecidableEq

/-- `exportJson("benchmark_results.json"); exportMarkdown("benchmark_results.md");`,
    where `opens` says whether the results directory is there. -/
def exports (opens : Bool) (s : Session) : List File :=
  if opens then [.json (exportJson s.benchmark_results), .markdown s.markdown_buffer] else []

/-- `printAllBenchSuite`. -/
def printAllBenchSuite (opens : Bool) (registry : List BenchSuite) (s : Session) :
    Session × List File :=
  let s := printSummary (registry.foldl printOneSuite s)
  (s, exports opens s)

/-- The loop of `main` over the registry and what follows it. -/
def scanSuites (opens : Bool) (requested requestedLower : Bytes) :
    List BenchSuite → Bool → Session → Int × Session × List File
  | [], foundCategory, s =>
      if foundCategory then
        let s := printSummary s
        (0, s, exports opens s)
      else (1, s.print (.unknownSuite requested), [])
  | suite :: rest, foundCategory, s =>
      -- exact match by name or id: run just this one and exit
      if toLower suite.name = requestedLower ∨ toLower suite.id = requestedLower then
        let s := printSummary (printOneSuite s suite)
        (0, s, exports opens s)
      -- category match: run it and keep scanning
      else if toLower suite.category = requestedLower then
        scanSuites opens requested requestedLower rest true (printOneSuite s suite)
      else scanSuites opens requested requestedLower rest foundCategory s

/-- `main`: the exit status, the state it leaves and the files it writes; `args`
    are `argv[1]`, `argv[2]`, and so on. -/
def main (opens : Bool) (registry : List BenchSuite) (args : List Bytes) :
    Int × Session × List File :=
  match args with
  | [] => (0, printAllBenchSuite opens registry .start)
  | requested :: _ =>
      if requested = bytes "-h" ∨ requested = bytes "--help" then
        (0, Session.start.print .usage, [])
      else if requested = bytes "list" then
        (0, Session.start.print (.suiteList (registry.map BenchSuite.id)), [])
      else scanSuites opens requested (toLower (prettify requested)) registry false .start

-- ============================================================================
-- What a command line asks for
-- ============================================================================

/-- The suites up to and including the first exact match that match at all. -/
def selectFrom (requestedLower : Bytes) : List BenchSuite → List BenchSuite
  | [] => []
  | suite :: rest =>
      if toLower suite.name = requestedLower ∨ toLower suite.id = requestedLower then [suite]
      else if toLower suite.category = requestedLower then
        suite :: selectFrom requestedLower rest
      else selectFrom requestedLower rest

/-- The suites that a command line runs, none when it runs nothing. -/
def runs (registry : List BenchSuite) (args : List Bytes) : Option (List BenchSuite) :=
  match args with
  | [] => some registry
  | requested :: _ =>
      if requested = bytes "-h" ∨ requested = bytes "--help" ∨ requested = bytes "list" then none
      else
        let chosen := selectFrom (toLower (prettify requested)) registry
        if chosen.isEmpty then none else some chosen

/-- The rows of several suites, in order. -/
def allRows (suites : List BenchSuite) : List Row := suites.flatMap BenchSuite.rows

/-- The counters after some rows. -/
def tallyOf (rows : List Row) : ResultTally := rows.foldl ResultTally.countRow ⟨0, 0, 0⟩

/-- The console output of a run of some suites. -/
def report (suites : List BenchSuite) : List Line :=
  suites.flatMap (fun suite => .blank :: suiteTables (prettify suite.name) suite.rows)
    ++ if (tallyOf (allRows suites)).total = 0 then [] else [.summary (tallyOf (allRows suites))]

/-- What the transcript keeps of a line. -/
def Line.toMarkdown : Line → Option Markdown
  | .header solo title => some (.header solo title)
  | .row r => some (.row r)
  | .summary tally => some (.summary tally)
  | .blank | .separator _ | .closing _ | .usage | .suiteList _ | .unknownSuite _ => none

-- ============================================================================
-- The transcript follows the console
-- ============================================================================

/-- The markdown transcript has what it keeps of the console output. -/
def Transcribed (s : Session) : Prop := s.markdown_buffer = s.stdout.filterMap Line.toMarkdown

/-- A line that is not transcribed. -/
theorem Transcribed.print {s : Session} (h : Transcribed s) {line : Line}
    (hline : line.toMarkdown = none) : Transcribed (s.print line) := by
  have hout : (s.print line).stdout.filterMap Line.toMarkdown
      = s.stdout.filterMap Line.toMarkdown := by
    simp [Session.print, List.filterMap_append, hline]
  exact h.trans hout.symm

/-- A line and its transcript. -/
theorem Transcribed.print_append {s : Session} (h : Transcribed s) {line : Line}
    {piece : Markdown} (hline : line.toMarkdown = some piece) :
    Transcribed ((s.print line).append piece) := by
  have hout : (s.print line).stdout.filterMap Line.toMarkdown
      = s.stdout.filterMap Line.toMarkdown ++ [piece] := by
    simp [Session.print, List.filterMap_append, hline]
  exact (congrArg (· ++ [piece]) h).trans hout.symm

theorem Transcribed.closeTable {s : Session} (h : Transcribed s) : Transcribed s.closeTable := by
  rw [Session.closeTable]
  split
  · exact h.print rfl
  · exact h

theorem Transcribed.ensureTable {s : Session} (h : Transcribed s) (solo : Bool) :
    Transcribed (s.ensureTable solo) := by
  obtain ⟨-, hs⟩ | ⟨-, hs⟩ | ⟨other, -, -, hs⟩ := Session.ensureTable_cases solo s <;> rw [hs]
  · exact h
  · exact h.print_append rfl
  · exact ((h.print rfl).print rfl).print_append rfl

theorem Transcribed.printRow {s : Session} (h : Transcribed s) (row : Row) :
    Transcribed (s.printRow row) := by
  have hdraw : Transcribed ((s.ensureTable row.isSolo).drawGroupSeparatorIfNeeded row.name) := by
    rw [Session.drawGroupSeparatorIfNeeded]
    split
    · exact (h.ensureTable row.isSolo).print rfl
    · exact h.ensureTable row.isSolo
  exact hdraw.print_append rfl

theorem Transcribed.printOneSuite {s : Session} (h : Transcribed s) (suite : BenchSuite) :
    Transcribed (printOneSuite s suite) := by
  rw [Benchmarks.printOneSuite, run_eq_measure]
  have hstart : Transcribed ((s.print .blank).beginSuite suite.name) := h.print rfl
  generalize (s.print .blank).beginSuite suite.name = t at hstart
  apply Transcribed.closeTable
  induction suite.measurements generalizing t with
  | nil => exact hstart
  | cons m ms ih =>
      have hrecord : Transcribed (t.record m.row.name m.tier.iterations m.row.customNs) := hstart
      exact ih _ (hrecord.printRow m.row)

-- ============================================================================
-- Whole runs
-- ============================================================================

/-- Several suites, one after the other. -/
theorem foldl_printOneSuite (suites : List BenchSuite) (s : Session) (h : Transcribed s) :
    (suites.foldl printOneSuite s).stdout
        = s.stdout
          ++ suites.flatMap (fun suite =>
            .blank :: suiteTables (prettify suite.name) suite.rows) ∧
      (suites.foldl printOneSuite s).resultTally
        = (allRows suites).foldl ResultTally.countRow s.resultTally ∧
      (suites.foldl printOneSuite s).benchmark_results
        = s.benchmark_results ++ suites.flatMap BenchSuite.results ∧
      Transcribed (suites.foldl printOneSuite s) := by
  induction suites generalizing s with
  | nil => exact ⟨(List.append_nil _).symm, rfl, (List.append_nil _).symm, h⟩
  | cons suite suites ih =>
      obtain ⟨hout, htotals⟩ := stdout_printOneSuite s suite
      simp only [Session.totals, Prod.mk.injEq] at htotals
      obtain ⟨hrest, htally, hresults, htranscribed⟩ :=
        ih (printOneSuite s suite) (h.printOneSuite suite)
      rw [List.foldl_cons, hrest, htally, hresults, hout, htotals.2.1, htotals.2.2]
      refine ⟨?_, ?_, ?_, htranscribed⟩
      · rw [List.flatMap_cons, List.append_assoc]
      · rw [allRows, allRows, List.flatMap_cons, List.foldl_append]
      · rw [List.flatMap_cons, List.append_assoc]

/-- The state in which some suites have been run and the summary printed. -/
def finished (suites : List BenchSuite) : Session :=
  printSummary (suites.foldl printOneSuite .start)

theorem finished_spec (suites : List BenchSuite) :
    (finished suites).stdout = report suites ∧
      (finished suites).markdown_buffer = (report suites).filterMap Line.toMarkdown ∧
      (finished suites).benchmark_results = suites.flatMap BenchSuite.results := by
  obtain ⟨hout, htally, hresults, htranscribed⟩ := foldl_printOneSuite suites .start rfl
  have htally' : (suites.foldl printOneSuite .start).resultTally = tallyOf (allRows suites) :=
    htally
  have hout' : (finished suites).stdout = report suites := by
    rw [finished, report, printSummary, htally']
    split
    · rw [hout, List.append_nil]
      rfl
    · simp only [Session.append, Session.print, hout]
      rfl
  have hmark : Transcribed (finished suites) := by
    rw [finished, printSummary]
    split
    · exact htranscribed
    · exact htranscribed.print_append rfl
  refine ⟨hout', by rw [← hout']; exact hmark, ?_⟩
  rw [finished, printSummary]
  split <;> exact hresults

/-- How a scan ends that has run the given suites. -/
def outcome (opens : Bool) (requested : Bytes) (suites : List BenchSuite) :
    Int × Session × List File :=
  if suites.isEmpty then (1, Session.start.print (.unknownSuite requested), [])
  else (0, finished suites, exports opens (finished suites))

/-- The scan runs what it selects after the suites run before it. -/
theorem scanSuites_eq (opens : Bool) (requested requestedLower : Bytes)
    (registry before : List BenchSuite) :
    scanSuites opens requested requestedLower registry (!before.isEmpty)
        (before.foldl printOneSuite .start)
      = outcome opens requested (before ++ selectFrom requestedLower registry) := by
  induction registry generalizing before with
  | nil =>
      rw [selectFrom, List.append_nil]
      cases before with
      | nil => rfl
      | cons suite suites => rfl
  | cons suite rest ih =>
      have hmore : printOneSuite (before.foldl printOneSuite .start) suite
          = (before ++ [suite]).foldl printOneSuite .start := by
        rw [List.foldl_append]
        rfl
      have hsome : (before ++ [suite]).isEmpty = false := by simp
      unfold scanSuites selectFrom
      split
      · rw [hmore, outcome, hsome]
        rfl
      · split
        · have hassoc : before ++ suite :: selectFrom requestedLower rest
              = before ++ [suite] ++ selectFrom requestedLower rest := List.append_cons ..
          rw [hmore, hassoc, ← ih (before ++ [suite]), hsome]
          rfl
        · exact ih before

/-- A command line that runs suites leaves them finished and exported. -/
theorem main_of_runs_some (opens : Bool) {registry : List BenchSuite} {args : List Bytes}
    {suites : List BenchSuite} (hruns : runs registry args = some suites) :
    main opens registry args = (0, finished suites, exports opens (finished suites)) := by
  cases args with
  | nil =>
      obtain rfl := Option.some.inj hruns
      rfl
  | cons requested rest =>
      simp only [runs] at hruns
      split at hruns
      · cases hruns
      · next hother =>
          split at hruns
          · cases hruns
          · next hne =>
              have hscan := scanSuites_eq opens requested (toLower (prettify requested)) registry []
              rw [List.nil_append, outcome, if_neg hne, Option.some.inj hruns] at hscan
              rw [← or_assoc, not_or] at hother
              rw [main, if_neg hother.1, if_neg hother.2]
              exact hscan

/-- The texts that only print something. -/
def IsHelp (args : List Bytes) : Prop :=
  ∃ requested, args.head? = some requested ∧
    (requested = bytes "-h" ∨ requested = bytes "--help" ∨ requested = bytes "list")

/-- Any other command line writes nothing; it fails unless it asks for help. -/
theorem main_of_runs_none (opens : Bool) {registry : List BenchSuite} {args : List Bytes}
    (hruns : runs registry args = none) :
    (main opens registry args).2.2 = [] ∧ ((main opens registry args).1 = 0 ↔ IsHelp args) := by
  cases args with
  | nil => cases hruns
  | cons requested rest =>
      simp only [runs] at hruns
      split at hruns
      · next hhelp =>
          have hmain : (main opens registry (requested :: rest)).2.2 = [] ∧
              (main opens registry (requested :: rest)).1 = 0 := by
            rw [main]
            split
            · exact ⟨rfl, rfl⟩
            · next hnot =>
                rw [if_pos (or_assoc.mpr hhelp |>.resolve_left hnot)]
                exact ⟨rfl, rfl⟩
          exact ⟨hmain.1, iff_of_true hmain.2 ⟨requested, rfl, hhelp⟩⟩
      · next hother =>
          split at hruns
          · next hempty =>
              have hscan := scanSuites_eq opens requested (toLower (prettify requested)) registry []
              rw [List.nil_append, outcome, if_pos hempty] at hscan
              have hnot := hother
              rw [← or_assoc, not_or] at hnot
              have hmain : main opens registry (requested :: rest)
                  = (1, Session.start.print (.unknownSuite requested), []) := by
                rw [main, if_neg hnot.1, if_neg hnot.2]
                exact hscan
              rw [hmain]
              have hone : (1 : Int) ≠ 0 := by decide
              refine ⟨rfl, iff_of_false hone ?_⟩
              rintro ⟨_, hhead, h⟩
              obtain rfl := Option.some.inj hhead
              exact hother h
          · cases hruns

/-- A suite with one solo benchmark that takes 5 ns in every tier. -/
def allowSuite : BenchSuite where
  id := bytes "R1"
  category := bytes "limiter"
  name := bytes "allow"
  run := [.BENCH_SOLO (bytes "allow_one") fun _ => 5]

/-- A row whose arrow is the given one; solo rows have none. -/
def shows (arrow : Arrow) : Row → Bool
  | .solo _ _ _ => false
  | .comparison _ _ customNs stdNs => delta customNs stdNs = arrow

/-- A comparison with its two sides exchanged. -/
def Row.mirror : Row → Row
  | .solo name iteration ns => .solo name iteration ns
  | .comparison name iteration customNs stdNs => .comparison name iteration stdNs customNs

/-- A row whose reference took no measurable time while the other side did. -/
def onlyCustomMeasured : Row → Bool
  | .solo _ _ _ => false
  | .comparison _ _ customNs stdNs => customNs ≠ 0 ∧ stdNs = 0

/-- The numerator of `pct`, with its sign. -/
theorem delta_of_ne {stdNs : UInt64} (hstd : stdNs ≠ 0) (customNs : UInt64) :
    delta customNs stdNs =
      if customNs < stdNs then .faster else if stdNs < customNs then .slower else .noise := by
  have hden : (0 : ℚ) ≤ customNs.toNat := Nat.cast_nonneg _
  have hgt : (pct customNs stdNs).gt 0 = true ↔ customNs < stdNs := by
    rw [pct, if_neg hstd, ExtendedRat.gt_zero_scale_div hden (by norm_num), sub_pos, Nat.cast_lt,
      UInt64.lt_iff_toNat_lt]
  have hlt : (pct customNs stdNs).lt 0 = true ↔ stdNs < customNs := by
    rw [pct, if_neg hstd, ExtendedRat.lt_zero_scale_div hden (by norm_num), sub_neg, Nat.cast_lt,
      UInt64.lt_iff_toNat_lt]
  simp only [delta, hgt, hlt]

theorem delta_zero (customNs : UInt64) : delta customNs 0 = .noise := rfl

/-- The three counters count the three arrows. -/
theorem foldl_countRow (rows : List Row) (tally : ResultTally) :
    rows.foldl ResultTally.countRow tally =
      ⟨tally.customWins + rows.countP (shows .faster),
        tally.standardWins + rows.countP (shows .slower),
        tally.ties + rows.countP (shows .noise)⟩ := by
  induction rows generalizing tally with
  | nil => rfl
  | cons row rows ih =>
      rw [List.foldl_cons, ih]
      cases row with
      | solo name iteration ns => simp [ResultTally.countRow, shows]
      | comparison name iteration customNs stdNs =>
          rw [ResultTally.countRow, ResultTally.count]
          split <;> next harrow => simp [shows, harrow]; omega

theorem tallyOf_eq (rows : List Row) :
    tallyOf rows =
      ⟨rows.countP (shows .faster), rows.countP (shows .slower), rows.countP (shows .noise)⟩ := by
  rw [tallyOf, foldl_countRow]
  simp only [Nat.zero_add]

/-- Every comparison row is counted once. -/
theorem total_tallyOf (rows : List Row) :
    (tallyOf rows).total = rows.countP (fun row => !row.isSolo) := by
  rw [tallyOf_eq]
  induction rows with
  | nil => rfl
  | cons row rows ih =>
      simp only [ResultTally.total] at ih ⊢
      rw [List.countP_cons, List.countP_cons, List.countP_cons, List.countP_cons, ← ih]
      cases row with
      | solo name iteration ns => rfl
      | comparison name iteration customNs stdNs =>
          cases harrow : delta customNs stdNs <;> simp [shows, Row.isSolo, harrow] <;> omega

theorem mirror_mirror (rows : List Row) : (rows.map Row.mirror).map Row.mirror = rows := by
  have hinv : Row.mirror ∘ Row.mirror = id := by
    funext row
    cases row <;> rfl
  rw [List.map_map, hinv, List.map_id]

/-- Exchanging the sides turns a loss into a win, and so it does a reference
    that took no measurable time. -/
theorem countP_mirror (rows : List Row) :
    (rows.map Row.mirror).countP (shows .faster)
      = rows.countP (shows .slower) + rows.countP onlyCustomMeasured := by
  induction rows with
  | nil => rfl
  | cons row rows ih =>
      have hrow : (if shows .faster row.mirror then 1 else 0)
          = (if shows .slower row then 1 else 0) + if onlyCustomMeasured row then 1 else 0 := by
        cases row with
        | solo name iteration ns => rfl
        | comparison name iteration customNs stdNs =>
            by_cases hstd : stdNs = 0
            · subst hstd
              by_cases hcustom : customNs = 0
              · subst hcustom
                rfl
              · have hpos : 0 < customNs := UInt64.pos_iff_ne_zero.mpr hcustom
                simp [shows, Row.mirror, onlyCustomMeasured, delta_of_ne hcustom, delta_zero,
                  hcustom, hpos]
            · by_cases hcustom : customNs = 0
              · subst hcustom
                have hpos : 0 < stdNs := UInt64.pos_iff_ne_zero.mpr hstd
                simp [shows, Row.mirror, onlyCustomMeasured, delta_of_ne hstd, delta_zero, hpos]
              · have hsame : delta stdNs customNs = .faster ↔ delta customNs stdNs = .slower := by
                  rw [delta_of_ne hcustom, delta_of_ne hstd]
                  grind
                simp [shows, Row.mirror, onlyCustomMeasured, hstd, hsame]
      rw [List.map_cons, List.countP_cons, ih, List.countP_cons, List.countP_cons, hrow]
      omega

/-- No row is half measured. -/
theorem countP_onlyCustomMeasured (rows : List Row) :
    rows.countP onlyCustomMeasured = 0 ∧ (rows.map Row.mirror).countP onlyCustomMeasured = 0 ↔
      ∀ name iteration customNs stdNs,
        .comparison name iteration customNs stdNs ∈ rows → (customNs = 0 ↔ stdNs = 0) := by
  rw [List.countP_eq_zero, List.countP_eq_zero, List.forall_mem_map, ← forall₂_and]
  constructor
  · intro h name iteration customNs stdNs hrow
    have := h _ hrow
    simp only [onlyCustomMeasured, Row.mirror, decide_eq_true_eq] at this
    tauto
  · intro h row hrow
    cases row with
    | solo name iteration ns => exact ⟨Bool.false_ne_true, Bool.false_ne_true⟩
    | comparison name iteration customNs stdNs =>
        have := h name iteration customNs stdNs hrow
        simp only [onlyCustomMeasured, Row.mirror, decide_eq_true_eq]
        tauto

/-- **The summary is fair to both sides exactly** when no comparison has a
    duration of zero on one side only: then, and only then, exchanging the two
    implementations exchanges their wins and leaves the ties. -/
theorem tallyOf_mirror_iff (rows : List Row) :
    tallyOf (rows.map Row.mirror)
        = ⟨(tallyOf rows).standardWins, (tallyOf rows).customWins, (tallyOf rows).ties⟩ ↔
      ∀ name iteration customNs stdNs,
        .comparison name iteration customNs stdNs ∈ rows → (customNs = 0 ↔ stdNs = 0) := by
  have hwins := countP_mirror rows
  have hlosses := countP_mirror (rows.map Row.mirror)
  rw [mirror_mirror] at hlosses
  have htotal := total_tallyOf (rows.map Row.mirror)
  have hkinds : (rows.map Row.mirror).countP (fun row => !row.isSolo)
      = rows.countP (fun row => !row.isSolo) := by
    rw [List.countP_map]
    exact List.countP_congr fun row _ => by cases row <;> rfl
  rw [hkinds, ← total_tallyOf rows, tallyOf_eq, tallyOf_eq] at htotal
  simp only [ResultTally.total] at htotal
  rw [← countP_onlyCustomMeasured]
  simp only [tallyOf_eq, ResultTally.mk.injEq]
  constructor
  · rintro ⟨hfaster, hslower, -⟩
    omega
  · rintro ⟨hcustom, hstandard⟩
    omega

end RateThrottle.Benchmarks
