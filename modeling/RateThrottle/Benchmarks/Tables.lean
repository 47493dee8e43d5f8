/-
  RateThrottle.Benchmarks.Tables

  A run of benchmark suites (benchmarks/custom/support: helpers.h, macros.h and
  the suite drivers of framework.h).

  Tables are opened by the row that needs them and closed by the row that does
  not fit, with the process-wide variables `tableOpen`, `tableIsSolo` and
  `lastRowGroup` as the only memory.  `stdout_printOneSuite` says what comes out:
  the rows of a suite, in sections of one kind, and within a section in groups
  of one name.

  Of the printed text the structure is kept, not the contents of the cells; a
  duration is its count of nanoseconds.  `markdown_buffer` is kept as the list
  of the pieces appended to it.
-/

import RateThrottle.Benchmarks.Export
import RateThrottle.Library.Sections
import RateThrottle.Regression.Comparison

namespace RateThrottle.Benchmarks

open Sections Mealy

-- ============================================================================
-- Rows and lines
-- ============================================================================

/-- The arguments of `printSoloRow` and of `printComparisonRow`. -/
inductive Row where
  | solo (name iteration : Bytes) (ns : UInt64)
  | comparison (name iteration : Bytes) (customNs stdNs : UInt64)
deriving DecidableEq, Repr

namespace Row

def name : Row → Bytes
  | solo name _ _ => name
  | comparison name _ _ _ => name

def iteration : Row → Bytes
  | solo _ iteration _ => iteration
  | comparison _ iteration _ _ => iteration

/-- The duration of the implementation under test. -/
def customNs : Row → UInt64
  | solo _ _ ns => ns
  | comparison _ _ customNs _ => customNs

/-- Whether the row belongs to a solo table. -/
def isSolo : Row → Bool
  | solo _ _ _ => true
  | comparison _ _ _ _ => false

end Row

/-- `pct` of `printComparisonRow`. -/
def pct (customNs stdNs : UInt64) : ExtendedRat :=
  if stdNs = 0 then .finite 0
  else (ExtendedRat.div (stdNs.toNat - customNs.toNat) customNs.toNat).scale 100

/-- The arrow of a comparison row: there is no noise threshold here. -/
def delta (customNs stdNs : UInt64) : Arrow :=
  if (pct customNs stdNs).gt 0 then .faster
  else if (pct customNs stdNs).lt 0 then .slower
  else .noise

/-- `struct ResultTally`. -/
structure ResultTally where
  customWins : Nat
  standardWins : Nat
  ties : Nat
deriving DecidableEq, Repr

namespace ResultTally

/-- `total()`. -/
def total (tally : ResultTally) : Nat := tally.customWins + tally.standardWins + tally.ties

/-- The counter that a comparison row raises. -/
def count (tally : ResultTally) (customNs stdNs : UInt64) : ResultTally :=
  match delta customNs stdNs with
  | .faster => { tally with customWins := tally.customWins + 1 }
  | .slower => { tally with standardWins := tally.standardWins + 1 }
  | .noise => { tally with ties := tally.ties + 1 }

/-- The counting of `printComparisonRow`; `printSoloRow` counts nothing. -/
def countRow (tally : ResultTally) : Row → ResultTally
  | .solo _ _ _ => tally
  | .comparison _ _ customNs stdNs => tally.count customNs stdNs

end ResultTally

/-- What a run writes to `std::cout`, in order. -/
inductive Line where
  /-- `std::cout << "\n"`. -/
  | blank
  /-- The three lines of `setHeader`, or of `setSoloHeader`. -/
  | header (solo : Bool) (title : Bytes)
  /-- The border between two operations of one table. -/
  | separator (solo : Bool)
  | row (row : Row)
  /-- `endTable`, or `endSoloTable`. -/
  | closing (solo : Bool)
  /-- The box of `printSummary`. -/
  | summary (tally : ResultTally)
  | usage
  | suiteList (ids : List Bytes)
  /-- "Unknown bench suite: " on `std::cerr`. -/
  | unknownSuite (requested : Bytes)
deriving DecidableEq, Repr

/-- What a run appends to `markdown_buffer()`, in order. -/
inductive Markdown where
  | header (solo : Bool) (title : Bytes)
  | row (row : Row)
  | summary (tally : ResultTally)
deriving DecidableEq, Repr

/-- The loop of `prettify`, from a given value of `firstLetter`; unlike the test
    runner's, a space starts a word as well. -/
def prettifyFrom : Bool → Bytes → Bytes
  | _, [] => []
  | true, c :: cs => toupper c :: prettifyFrom false cs
  | false, c :: cs =>
      if c = 95 ∨ c = 32 then 32 :: prettifyFrom true cs else c :: prettifyFrom false cs

/-- `prettify`. -/
def prettify (text : Bytes) : Bytes := prettifyFrom true text

-- ============================================================================
-- The process-wide state
-- ============================================================================

/-- The variables of helpers.h and `benchmark_results()`. -/
structure Session where
  suiteName : Bytes
  lastRowGroup : Bytes
  tableOpen : Bool
  tableIsSolo : Bool
  stdout : List Line
  markdown_buffer : List Markdown
  resultTally : ResultTally
  benchmark_results : List BenchmarkResult

namespace Session

def start : Session where
  suiteName := []
  lastRowGroup := []
  tableOpen := false
  tableIsSolo := false
  stdout := []
  markdown_buffer := []
  resultTally := ⟨0, 0, 0⟩
  benchmark_results := []

def print (s : Session) (line : Line) : Session := { s with stdout := s.stdout ++ [line] }

def append (s : Session) (piece : Markdown) : Session :=
  { s with markdown_buffer := s.markdown_buffer ++ [piece] }

/-- `setHeader(suiteName)` and `setSoloHeader(suiteName)`. -/
def setHeader (solo : Bool) (s : Session) : Session :=
  (s.print (.header solo (prettify s.suiteName))).append (.header solo (prettify s.suiteName))

/-- `closeTable`. -/
def closeTable (s : Session) : Session :=
  if s.tableOpen then { s.print (.closing s.tableIsSolo) with tableOpen := false } else s

/-- `ensureTable`. -/
def ensureTable (solo : Bool) (s : Session) : Session :=
  let s := if s.tableOpen && s.tableIsSolo != solo then s.closeTable.print .blank else s
  if s.tableOpen then s
  else { s.setHeader solo with tableOpen := true, tableIsSolo := solo, lastRowGroup := [] }

/-- `drawGroupSeparatorIfNeeded`. -/
def drawGroupSeparatorIfNeeded (name : Bytes) (s : Session) : Session :=
  let s := if s.lastRowGroup ≠ [] ∧ s.lastRowGroup ≠ name then s.print (.separator s.tableIsSolo)
    else s
  { s with lastRowGroup := name }

/-- `printSoloRow` and `printComparisonRow`. -/
def printRow (s : Session) (row : Row) : Session :=
  let s := (s.ensureTable row.isSolo).drawGroupSeparatorIfNeeded row.name
  let s := { s with resultTally := s.resultTally.countRow row }
  (s.print (.row row)).append (.row row)

/-- `beginSuite`. -/
def beginSuite (name : Bytes) (s : Session) : Session :=
  { s with suiteName := name, tableOpen := false, lastRowGroup := [] }

/-- `BENCHMARK` with `custom` set: the measured duration is recorded. -/
def record (s : Session) (name : Bytes) (iteration : UInt64) (outNs : UInt64) : Session :=
  { s with benchmark_results := s.benchmark_results ++
      [{ suite := s.suiteName, operation := name, total_ns := outNs, iterations := iteration,
         ns_per_op := outNs.toNat / iteration.toNat }] }

end Session

-- ============================================================================
-- The macros and the suites
-- ============================================================================

/-- One tier of a macro: how often the expression runs and what the row says. -/
structure Tier where
  iterations : UInt64
  label : Bytes
deriving DecidableEq, Repr

/-- The tiers of `BENCH` and `BENCH_SOLO`. -/
def standardTiers : List Tier :=
  [⟨10000, bytes "10K"⟩, ⟨100000, bytes "100K"⟩, ⟨1000000, bytes "1M"⟩]

/-- The tiers of `BENCH_CUSTOM`. -/
def customTiers : List Tier := [⟨1, bytes "1"⟩, ⟨10, bytes "10"⟩, ⟨100, bytes "100"⟩]

/-- The tiers of `BENCH_SOLO_CUSTOM`. -/
def soloCustomTiers : List Tier :=
  [⟨100, bytes "100"⟩, ⟨1000, bytes "1K"⟩, ⟨10000, bytes "10k"⟩]

/-- A macro call of a suite; the functions give the durations that the clock
    measures for its expressions in each tier. -/
inductive Bench where
  | BENCH (name : Bytes) (c_expr s_expr : Tier → UInt64)
  | BENCH_SOLO (name : Bytes) (expr : Tier → UInt64)
  | BENCH_CUSTOM (name : Bytes) (c_expr s_expr : Tier → UInt64)
  | BENCH_SOLO_CUSTOM (name : Bytes) (expr : Tier → UInt64)

/-- The three statements of a comparison macro for one tier. -/
def comparisonTier (name : Bytes) (c_expr s_expr : Tier → UInt64) (s : Session) (tier : Tier) :
    Session :=
  (s.record name tier.iterations (c_expr tier)).printRow
    (.comparison name tier.label (c_expr tier) (s_expr tier))

/-- The two statements of a solo macro for one tier. -/
def soloTier (name : Bytes) (expr : Tier → UInt64) (s : Session) (tier : Tier) : Session :=
  (s.record name tier.iterations (expr tier)).printRow (.solo name tier.label (expr tier))

/-- A macro call. -/
def Bench.exec (s : Session) : Bench → Session
  | BENCH name c_expr s_expr => standardTiers.foldl (comparisonTier name c_expr s_expr) s
  | BENCH_SOLO name expr => standardTiers.foldl (soloTier name expr) s
  | BENCH_CUSTOM name c_expr s_expr => customTiers.foldl (comparisonTier name c_expr s_expr) s
  | BENCH_SOLO_CUSTOM name expr => soloCustomTiers.foldl (soloTier name expr) s

/-- `struct BenchSuite`, with the macro calls that its `run` makes. -/
structure BenchSuite where
  id : Bytes
  category : Bytes
  name : Bytes
  run : List Bench

/-- `printOneSuite`, and the body of the loop of `printAllBenchSuite`. -/
def printOneSuite (s : Session) (suite : BenchSuite) : Session :=
  (suite.run.foldl Bench.exec ((s.print .blank).beginSuite suite.name)).closeTable

/-- `printSummary`. -/
def printSummary (s : Session) : Session :=
  if s.resultTally.total = 0 then s
  else (s.print (.summary s.resultTally)).append (.summary s.resultTally)

-- ============================================================================
-- The measurements of a suite
-- ============================================================================

/-- One recorded and printed measurement. -/
structure Measurement where
  tier : Tier
  row : Row

/-- The measurements of a macro call, in order. -/
def Bench.measurements : Bench → List Measurement
  | BENCH name c_expr s_expr =>
      standardTiers.map fun tier =>
        ⟨tier, .comparison name tier.label (c_expr tier) (s_expr tier)⟩
  | BENCH_SOLO name expr =>
      standardTiers.map fun tier => ⟨tier, .solo name tier.label (expr tier)⟩
  | BENCH_CUSTOM name c_expr s_expr =>
      customTiers.map fun tier =>
        ⟨tier, .comparison name tier.label (c_expr tier) (s_expr tier)⟩
  | BENCH_SOLO_CUSTOM name expr =>
      soloCustomTiers.map fun tier => ⟨tier, .solo name tier.label (expr tier)⟩

/-- The measurements of a suite, in order. -/
def BenchSuite.measurements (suite : BenchSuite) : List Measurement :=
  suite.run.flatMap Bench.measurements

/-- The rows of a suite, in order. -/
def BenchSuite.rows (suite : BenchSuite) : List Row := suite.measurements.map Measurement.row

/-- One measurement: recorded, then printed. -/
def measure (s : Session) (m : Measurement) : Session :=
  (s.record m.row.name m.tier.iterations m.row.customNs).printRow m.row

/-- Every macro call is its measurements. -/
theorem exec_eq_measure (s : Session) (bench : Bench) :
    bench.exec s = bench.measurements.foldl measure s := by
  cases bench <;> rw [Bench.exec, Bench.measurements, List.foldl_map] <;> rfl

theorem run_eq_measure (s : Session) (suite : BenchSuite) :
    suite.run.foldl Bench.exec s = suite.measurements.foldl measure s := by
  rw [BenchSuite.measurements]
  induction suite.run generalizing s with
  | nil => rfl
  | cons bench benches ih =>
      rw [List.foldl_cons, ih, List.flatMap_cons, List.foldl_append, exec_eq_measure]

-- ============================================================================
-- The tables of a suite
-- ============================================================================

/-- The rows of one table: groups of one name, with a border between two of them
    unless the first has the empty name. -/
def tableRows (solo : Bool) (rows : List Row) : List Line :=
  joined (fun g => g.2.map .row) (fun name _ => if name = [] then [] else [.separator solo])
    (Adjacent.group Row.name rows)

/-- The tables of a suite: one for each stretch of rows of one kind, with a
    blank line between two of them. -/
def suiteTables (title : Bytes) (rows : List Row) : List Line :=
  joined (fun g => .header g.1 title :: tableRows g.1 g.2 ++ [.closing g.1]) (fun _ _ => [.blank])
    (Adjacent.group Row.isSolo rows)

/-- The tables of a suite as they are printed: the section is the kind of the
    open table, the state inside it `lastRowGroup`. -/
def tablePrinter (title : Bytes) : Printer Row Bool Bytes Line where
  key := Row.isSolo
  start := []
  opening solo := [.header solo title]
  item solo lastRowGroup row :=
    ((if lastRowGroup ≠ [] ∧ lastRowGroup ≠ row.name then [.separator solo] else [])
      ++ [.row row], row.name)
  closing solo := [.closing solo]
  gap _ _ := [.blank]

/-- Inside a table, `lastRowGroup` is the name of the open group. -/
theorem tablePrinter_body (title : Bytes) (solo : Bool) (rows : List Row) :
    (tablePrinter title).body solo rows = tableRows solo rows :=
  Printer.body_eq_separated Row.name (Line.separator solo) Line.row rfl (fun _ _ => rfl) rows

/-- The steps of the table printer: in no table, in one of the right kind, and
    in one of the other kind. -/
theorem tablePrinter_step_none (title : Bytes) (row : Row) :
    (tablePrinter title).step none row
      = ([.header row.isSolo title, .row row], some (row.isSolo, row.name)) := rfl

theorem tablePrinter_step_same (title lastRowGroup : Bytes) (row : Row) :
    (tablePrinter title).step (some (row.isSolo, lastRowGroup)) row
      = ((if lastRowGroup ≠ [] ∧ lastRowGroup ≠ row.name then [.separator row.isSolo] else [])
          ++ [.row row], some (row.isSolo, row.name)) := if_pos rfl

theorem tablePrinter_step_other (title lastRowGroup : Bytes) {row : Row} {other : Bool}
    (h : other ≠ row.isSolo) :
    (tablePrinter title).step (some (other, lastRowGroup)) row
      = ([.closing other, .blank, .header row.isSolo title, .row row],
          some (row.isSolo, row.name)) := if_neg h

theorem tablePrinter_printed (title : Bytes) (rows : List Row) :
    (tablePrinter title).printed rows = suiteTables title rows := by
  rw [Printer.printed_eq_render, Printer.render, suiteTables]
  refine joined_congr fun g _ => ?_
  rw [Printer.layout, tablePrinter_body]
  rfl

namespace Session

/-- The open table and the last name in it. -/
def openTable (s : Session) : Option (Bool × Bytes) :=
  if s.tableOpen then some (s.tableIsSolo, s.lastRowGroup) else none

/-- What `ensureTable` does: nothing, it opens a table, or it closes one of the
    other kind first. -/
theorem ensureTable_cases (solo : Bool) (s : Session) :
    (s.openTable = some (solo, s.lastRowGroup) ∧ s.ensureTable solo = s) ∨
    (s.openTable = none ∧ s.ensureTable solo
      = { s.setHeader solo with tableOpen := true, tableIsSolo := solo, lastRowGroup := [] }) ∨
    (∃ other, other ≠ solo ∧ s.openTable = some (other, s.lastRowGroup) ∧ s.ensureTable solo
      = { (((s.print (.closing other)).print .blank).setHeader solo) with
          tableOpen := true, tableIsSolo := solo, lastRowGroup := [] }) := by
  cases hopen : s.tableOpen with
  | false => exact Or.inr (Or.inl ⟨by simp [openTable, hopen], by simp [ensureTable, hopen]⟩)
  | true =>
      by_cases hkind : s.tableIsSolo = solo
      · exact Or.inl ⟨by simp [openTable, hopen, hkind], by simp [ensureTable, hopen, hkind]⟩
      · refine Or.inr (Or.inr ⟨s.tableIsSolo, hkind, by simp [openTable, hopen], ?_⟩)
        simp [ensureTable, closeTable, print, setHeader, append, hopen, hkind]

/-- A row in the table that is open by now. -/
theorem printRow_open (s : Session) (row : Row) {t : Session}
    (ht : s.ensureTable row.isSolo = t) (hopen : t.tableOpen = true)
    (hkind : t.tableIsSolo = row.isSolo) :
    (s.printRow row).stdout
        = t.stdout ++ ((if t.lastRowGroup ≠ [] ∧ t.lastRowGroup ≠ row.name then
            [.separator row.isSolo] else []) ++ [.row row]) ∧
      (s.printRow row).openTable = some (row.isSolo, row.name) := by
  have hdraw : (t.drawGroupSeparatorIfNeeded row.name).stdout
        = t.stdout ++ (if t.lastRowGroup ≠ [] ∧ t.lastRowGroup ≠ row.name then
            [.separator row.isSolo] else []) ∧
      (t.drawGroupSeparatorIfNeeded row.name).openTable = some (row.isSolo, row.name) := by
    rw [drawGroupSeparatorIfNeeded]
    split
    · exact ⟨by rw [← hkind]; rfl, by simp [openTable, print, hopen, hkind]⟩
    · exact ⟨(List.append_nil _).symm, by simp [openTable, hopen, hkind]⟩
  have hrow : (s.printRow row).stdout
        = (t.drawGroupSeparatorIfNeeded row.name).stdout ++ [.row row] ∧
      (s.printRow row).openTable = (t.drawGroupSeparatorIfNeeded row.name).openTable := by
    rw [printRow, ht]
    exact ⟨rfl, rfl⟩
  rw [hrow.1, hrow.2, hdraw.1, hdraw.2, List.append_assoc]
  exact ⟨rfl, rfl⟩

/-- One row is one step of the table printer. -/
theorem printRow_spec (s : Session) (row : Row) :
    (s.printRow row).stdout
        = s.stdout ++ ((tablePrinter (prettify s.suiteName)).step s.openTable row).1 ∧
      (s.printRow row).openTable
        = ((tablePrinter (prettify s.suiteName)).step s.openTable row).2 := by
  obtain ⟨hopen, ht⟩ | ⟨hopen, ht⟩ | ⟨other, hother, hopen, ht⟩ := ensureTable_cases row.isSolo s
  · have hfields : s.tableOpen = true ∧ s.tableIsSolo = row.isSolo := by
      rw [openTable] at hopen
      split at hopen
      · next h => exact ⟨h, congrArg Prod.fst (Option.some.inj hopen)⟩
      · cases hopen
    rw [hopen, tablePrinter_step_same]
    exact printRow_open s row ht hfields.1 hfields.2
  · obtain ⟨hout, hstate⟩ := printRow_open s row ht rfl rfl
    rw [hopen, tablePrinter_step_none, hout, hstate]
    simp [setHeader, print, append]
  · obtain ⟨hout, hstate⟩ := printRow_open s row ht rfl rfl
    rw [hopen, tablePrinter_step_other _ _ hother, hout, hstate]
    simp [setHeader, print, append]

/-- What printing does not touch. -/
def totals (s : Session) : Bytes × ResultTally × List BenchmarkResult :=
  (s.suiteName, s.resultTally, s.benchmark_results)

theorem totals_ensureTable (solo : Bool) (s : Session) : (s.ensureTable solo).totals = s.totals := by
  obtain ⟨-, hs⟩ | ⟨-, hs⟩ | ⟨other, -, -, hs⟩ := ensureTable_cases solo s <;> rw [hs] <;> rfl

theorem totals_drawGroupSeparatorIfNeeded (name : Bytes) (s : Session) :
    (s.drawGroupSeparatorIfNeeded name).totals = s.totals := by
  rw [drawGroupSeparatorIfNeeded]
  split <;> rfl

theorem totals_closeTable (s : Session) : s.closeTable.totals = s.totals := by
  rw [closeTable]
  split <;> rfl

theorem totals_printRow (s : Session) (row : Row) :
    (s.printRow row).totals
      = (s.suiteName, s.resultTally.countRow row, s.benchmark_results) := by
  have hdraw : ((s.ensureTable row.isSolo).drawGroupSeparatorIfNeeded row.name).totals
      = s.totals := by
    rw [totals_drawGroupSeparatorIfNeeded, totals_ensureTable]
  simp only [totals, Prod.mk.injEq] at hdraw
  obtain ⟨hname, htally, hresults⟩ := hdraw
  simp only [printRow, totals, print, append, hname, htally, hresults]

end Session

-- ============================================================================
-- A whole suite
-- ============================================================================

/-- What `BENCHMARK` records for a measurement. -/
def Measurement.result (suite : Bytes) (m : Measurement) : BenchmarkResult where
  suite := suite
  operation := m.row.name
  total_ns := m.row.customNs
  iterations := m.tier.iterations
  ns_per_op := m.row.customNs.toNat / m.tier.iterations.toNat

/-- The results of a suite, in order. -/
def BenchSuite.results (suite : BenchSuite) : List BenchmarkResult :=
  suite.measurements.map (Measurement.result suite.name)

/-- The measurements made so far: their rows are printed, counted and recorded. -/
theorem foldl_measure (ms : List Measurement) (s : Session) :
    (ms.foldl measure s).stdout
        = s.stdout ++ (trace (tablePrinter (prettify s.suiteName)).step s.openTable
            (ms.map Measurement.row)).flatMap Prod.snd ∧
      (ms.foldl measure s).openTable
        = final (tablePrinter (prettify s.suiteName)).step s.openTable (ms.map Measurement.row) ∧
      (ms.foldl measure s).totals
        = (s.suiteName, (ms.map Measurement.row).foldl ResultTally.countRow s.resultTally,
            s.benchmark_results ++ ms.map (Measurement.result s.suiteName)) := by
  induction ms generalizing s with
  | nil => simp [Session.totals]
  | cons m ms ih =>
      obtain ⟨hout, hopen, htotals⟩ := ih (measure s m)
      obtain ⟨hrow, hstate⟩ := (s.record m.row.name m.tier.iterations m.row.customNs).printRow_spec
        m.row
      have hmeasure := (s.record m.row.name m.tier.iterations m.row.customNs).totals_printRow m.row
      simp only [Session.totals, Prod.mk.injEq] at hmeasure
      obtain ⟨hname, htally, hresults⟩ := hmeasure
      rw [List.foldl_cons, hout, hopen, htotals, List.map_cons, trace_cons, final_cons,
        List.flatMap_cons, List.map_cons]
      simp only [measure, hrow, hstate, hname, htally, hresults, List.append_assoc, List.foldl_cons]
      refine ⟨rfl, rfl, ?_⟩
      simp [Session.record, Measurement.result]

/-- **The console output of a suite** is a blank line and the suite's tables:
    whatever was printed before, and however comparison and solo benchmarks are
    mixed, every row stands in a table of its kind, every table that is opened is
    closed, and one name's rows are set off from the next. -/
theorem stdout_printOneSuite (s : Session) (suite : BenchSuite) :
    (printOneSuite s suite).stdout
        = s.stdout ++ .blank :: suiteTables (prettify suite.name) suite.rows ∧
      (printOneSuite s suite).totals
        = (suite.name, suite.rows.foldl ResultTally.countRow s.resultTally,
            s.benchmark_results ++ suite.results) := by
  obtain ⟨hout, hopen, htotals⟩ :=
    foldl_measure suite.measurements ((s.print .blank).beginSuite suite.name)
  have hclose : ∀ t : Session, t.closeTable.stdout
      = t.stdout ++ (tablePrinter (prettify suite.name)).stop t.openTable := by
    intro t
    rw [Session.closeTable, Session.openTable]
    split
    · rfl
    · exact (List.append_nil _).symm
  rw [printOneSuite, run_eq_measure, hclose, Session.totals_closeTable, htotals, hout, hopen]
  refine ⟨?_, rfl⟩
  have hprinted := tablePrinter_printed (prettify suite.name) suite.rows
  rw [Printer.printed, Printer.output] at hprinted
  rw [← hprinted]
  simp [Session.print, Session.beginSuite, Session.openTable, BenchSuite.rows]

end RateThrottle.Benchmarks
