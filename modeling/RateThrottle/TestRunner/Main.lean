/-
  RateThrottle.TestRunner.Main

  The suite drivers and the command line of the custom `tests` executable
  (tests/custom/support/framework.h, registry.h and tests/custom/test_main.cpp).

  `main` threads the console session through the suites it selects and returns
  the exit status.  `selected` says which suites those are without running them
  (`main_ran`).  The counters record every failure (`main_fail`), but no path of
  `main` reads them: an executable that ran a suite exits with 0
  (`main_status_of_ran`), whatever the tests did.
-/

import RateThrottle.TestRunner.Macros

namespace RateThrottle
namespace TestRunner

-- ============================================================================
-- Suites and their drivers
-- ============================================================================

/-- `struct TestSuite`, with the tests that its `run` executes through `RUN`. -/
structure TestSuite where
  id : Bytes
  category : Bytes
  name : Bytes
  run : List Test
deriving DecidableEq, Repr

/-- A check of the suite fails or one of its tests throws. -/
def TestSuite.fails (suite : TestSuite) : Bool := suite.run.any Test.fails

/-- The session with the suites run so far; the list is not in the source. -/
structure Process where
  session : Session
  ran : List TestSuite
deriving DecidableEq, Repr

def Process.start : Process := ⟨.start, []⟩

def Process.print (p : Process) (lines : List Line) : Process :=
  { p with session := p.session.print lines }

/-- `stats`, with the rate before it is rounded. -/
def Process.stats (p : Process) : Process :=
  let counters := p.session.counters
  let rate : Rat := if counters.total > 0 then 100 * counters.pass / counters.total else 0
  p.print [.stats counters rate]

/-- `setTitle(suite.name); suite.run();`. -/
def runSuite (p : Process) (suite : TestSuite) : Process where
  session := suite.run.foldl RUN (p.session.print [.title (prettify suite.name)])
  ran := p.ran ++ [suite]

/-- `printOneSuite`. -/
def printOneSuite (p : Process) (suite : TestSuite) : Process := runSuite p suite

/-- `printAllTestSuite`. -/
def printAllTestSuite (registry : List TestSuite) (p : Process) : Process :=
  (registry.foldl runSuite p).stats

/-- The loop of `printTestSuiteList` that groups adjacent suites by category. -/
def groupSuites (grouped : List (Bytes × List TestSuite)) (suite : TestSuite) :
    List (Bytes × List TestSuite) :=
  match grouped.getLast? with
  | some (category, suites) =>
      if category = suite.category then grouped.dropLast ++ [(category, suites ++ [suite])]
      else grouped ++ [(suite.category, [suite])]
  | none => [(suite.category, [suite])]

/-- `printTestSuiteList`. -/
def printTestSuiteList (registry : List TestSuite) (p : Process) : Process :=
  let grouped := registry.foldl groupSuites []
  let tree := grouped.flatMap fun (category, suites) =>
    .category (prettify category) suites.length
      :: suites.map fun suite => .listed suite.id suite.name
  p.print (.listHeader :: tree ++ [.listTotals registry.length grouped.length])

-- ============================================================================
-- main
-- ============================================================================

/-- The loop of `main` over the registry and what follows it. -/
def scanSuites (requested requestedLower : Bytes) :
    List TestSuite → Bool → Process → Int × Process
  | [], foundCategory, p =>
      if foundCategory then (0, p.stats)
      else (1, p.print [.unknownSuite requested])
  | suite :: rest, foundCategory, p =>
      -- exact match by name or id: run just this one and exit
      if toLower suite.name = requestedLower ∨ toLower suite.id = requestedLower then
        (0, (printOneSuite p suite).stats)
      -- category match: run it and keep scanning
      else if toLower suite.category = requestedLower then
        scanSuites requested requestedLower rest true (printOneSuite p suite)
      else scanSuites requested requestedLower rest foundCategory p

/-- `main`: the exit status and the process it leaves; `args` are
    `argv[1]`, `argv[2]`, and so on. -/
def main (registry : List TestSuite) (args : List Bytes) : Int × Process :=
  match args with
  | [] => (0, printAllTestSuite registry .start)
  | requested :: _ =>
      if requested = bytes "-h" ∨ requested = bytes "--help" then
        (0, Process.start.print [.usage])
      else if requested = bytes "list" then (0, printTestSuiteList registry .start)
      else scanSuites requested (toLower (prettify requested)) registry false .start

-- ============================================================================
-- The suites that a command line selects
-- ============================================================================

/-- The suites up to and including the first exact match that match at all. -/
def selectFrom (requestedLower : Bytes) : List TestSuite → List TestSuite
  | [] => []
  | suite :: rest =>
      if toLower suite.name = requestedLower ∨ toLower suite.id = requestedLower then [suite]
      else if toLower suite.category = requestedLower then
        suite :: selectFrom requestedLower rest
      else selectFrom requestedLower rest

/-- The suites that the arguments select, in the order in which they run. -/
def selected (registry : List TestSuite) (args : List Bytes) : List TestSuite :=
  match args with
  | [] => registry
  | requested :: _ =>
      if requested = bytes "-h" ∨ requested = bytes "--help" ∨ requested = bytes "list" then []
      else selectFrom (toLower (prettify requested)) registry

@[simp] theorem print_ran (p : Process) (lines : List Line) : (p.print lines).ran = p.ran := rfl

@[simp] theorem stats_ran (p : Process) : p.stats.ran = p.ran := rfl

theorem foldl_runSuite_ran (suites : List TestSuite) (p : Process) :
    (suites.foldl runSuite p).ran = p.ran ++ suites := by
  induction suites generalizing p with
  | nil => simp
  | cons suite suites ih =>
      rw [List.foldl_cons, ih]
      simp [runSuite]

theorem scanSuites_ran (requested requestedLower : Bytes) (registry : List TestSuite)
    (foundCategory : Bool) (p : Process) :
    (scanSuites requested requestedLower registry foundCategory p).2.ran
      = p.ran ++ selectFrom requestedLower registry := by
  induction registry generalizing foundCategory p with
  | nil => cases foundCategory <;> simp [scanSuites, selectFrom]
  | cons suite rest ih =>
      unfold scanSuites selectFrom
      split
      · rfl
      · split
        · rw [ih]
          simp [printOneSuite, runSuite]
        · exact ih foundCategory p

/-- `main` runs exactly the selected suites, in order. -/
theorem main_ran (registry : List TestSuite) (args : List Bytes) :
    (main registry args).2.ran = selected registry args := by
  unfold main selected
  cases args with
  | nil => exact foldl_runSuite_ran registry .start
  | cons requested more =>
      simp only
      by_cases hhelp : requested = bytes "-h" ∨ requested = bytes "--help"
      · rw [if_pos hhelp, if_pos (by rw [← or_assoc]; exact Or.inl hhelp)]
        rfl
      · rw [if_neg hhelp]
        by_cases hlist : requested = bytes "list"
        · rw [if_pos hlist, if_pos (Or.inr (Or.inr hlist))]
          rfl
        · rw [if_neg hlist, if_neg (by rw [← or_assoc, not_or]; exact ⟨hhelp, hlist⟩)]
          exact scanSuites_ran requested _ registry false .start

-- ============================================================================
-- The counters and the exit status
-- ============================================================================

/-- Tests run one after the other leave `fail` alone exactly when none fails. -/
theorem fail_foldl_RUN (tests : List Test) (s : Session) :
    s.counters.fail ≤ (tests.foldl RUN s).counters.fail ∧
      ((tests.foldl RUN s).counters.fail = s.counters.fail ↔ tests.any Test.fails = false) := by
  induction tests generalizing s with
  | nil => exact ⟨Nat.le_refl _, by simp⟩
  | cons t tests ih =>
      obtain ⟨hle, hrest⟩ := ih (RUN s t)
      obtain ⟨hle', hfirst⟩ := fail_RUN s t
      rw [List.foldl_cons, List.any_cons, Bool.or_eq_false_iff, ← hfirst, ← hrest]
      omega

theorem fail_runSuite (p : Process) (suite : TestSuite) :
    p.session.counters.fail ≤ (runSuite p suite).session.counters.fail ∧
      ((runSuite p suite).session.counters.fail = p.session.counters.fail
        ↔ suite.fails = false) :=
  fail_foldl_RUN suite.run (p.session.print [.title (prettify suite.name)])

/-- A process whose `fail` counts the failures of the suites it ran. -/
def Accounted (p : Process) : Prop :=
  p.session.counters.fail = 0 ↔ ∀ suite ∈ p.ran, suite.fails = false

theorem accounted_start : Accounted .start := by
  simp [Accounted, Process.start, Session.start]

theorem Accounted.print {p : Process} (h : Accounted p) (lines : List Line) :
    Accounted (p.print lines) := h

theorem Accounted.stats {p : Process} (h : Accounted p) : Accounted p.stats := h

theorem Accounted.runSuite {p : Process} (h : Accounted p) (suite : TestSuite) :
    Accounted (runSuite p suite) := by
  obtain ⟨hle, hsame⟩ := fail_runSuite p suite
  have hran : (TestRunner.runSuite p suite).ran = p.ran ++ [suite] := rfl
  unfold Accounted at h ⊢
  rw [hran, List.forall_mem_append, List.forall_mem_singleton, ← h, ← hsame]
  omega

theorem Accounted.foldl_runSuite (suites : List TestSuite) {p : Process} (h : Accounted p) :
    Accounted (suites.foldl TestRunner.runSuite p) := by
  induction suites generalizing p with
  | nil => exact h
  | cons suite suites ih => exact ih (h.runSuite suite)

theorem Accounted.scanSuites (requested requestedLower : Bytes) (registry : List TestSuite)
    {foundCategory : Bool} {p : Process} (h : Accounted p) :
    Accounted (scanSuites requested requestedLower registry foundCategory p).2 := by
  induction registry generalizing foundCategory p with
  | nil =>
      unfold TestRunner.scanSuites
      split
      · exact h.stats
      · exact h.print _
  | cons suite rest ih =>
      unfold TestRunner.scanSuites
      split
      · exact (h.runSuite suite).stats
      · split
        · exact ih (h.runSuite suite)
        · exact ih h

/-- After every run of `main`, `fail` is zero exactly when no suite it ran fails. -/
theorem main_fail (registry : List TestSuite) (args : List Bytes) :
    Accounted (main registry args).2 := by
  unfold main
  split
  · exact (accounted_start.foldl_runSuite registry).stats
  · split
    · exact accounted_start.print _
    · split
      · exact accounted_start.print _
      · exact accounted_start.scanSuites _ _ registry

/-- The scan gives a non-zero status only where it ran nothing. -/
theorem scanSuites_status (requested requestedLower : Bytes) (registry : List TestSuite)
    (foundCategory : Bool) (p : Process) :
    (scanSuites requested requestedLower registry foundCategory p).1 = 0 ∨
      (foundCategory = false ∧ selectFrom requestedLower registry = []) := by
  induction registry generalizing foundCategory p with
  | nil => cases foundCategory <;> simp [scanSuites, selectFrom]
  | cons suite rest ih =>
      unfold scanSuites selectFrom
      split
      · exact Or.inl rfl
      · split
        · rcases ih true (printOneSuite p suite) with hzero | ⟨hfound, -⟩
          · exact Or.inl hzero
          · exact nomatch hfound
        · exact ih foundCategory p

/-- An executable that selected a suite exits with 0, whatever its tests did. -/
theorem main_status_of_selected (registry : List TestSuite) (args : List Bytes)
    (hselected : selected registry args ≠ []) : (main registry args).1 = 0 := by
  unfold selected at hselected
  unfold main
  cases args with
  | nil => rfl
  | cons requested more =>
      simp only at hselected ⊢
      split
      · rfl
      · split
        · rfl
        · split at hselected
          · exact absurd rfl hselected
          · rcases scanSuites_status requested (toLower (prettify requested)) registry false .start
              with hzero | ⟨-, hnone⟩
            · exact hzero
            · exact absurd hnone hselected

/-- **The exit status and the outcome of the run.** Whenever the executable runs
    at least one suite, its status tells failure from success exactly when none
    of the selected suites has a failing check or a test that throws. -/
theorem exit_status_tells_failure_iff (registry : List TestSuite) (args : List Bytes)
    (hran : (main registry args).2.ran ≠ []) :
    ((main registry args).1 ≠ 0 ↔ ∃ suite ∈ (main registry args).2.ran, suite.fails = true)
      ↔ ∀ suite ∈ selected registry args, suite.fails = false := by
  rw [main_ran] at hran ⊢
  rw [main_status_of_selected registry args hran]
  simp

/-- A suite of one test whose only check has the given outcome. -/
def oneCheckSuite (holds : Bool) : TestSuite where
  id := bytes "U1"
  category := bytes "unit"
  name := bytes "Basic Behavior"
  run := [⟨bytes "test_pass", [.chk ⟨bytes "unit/basic_behavior.cpp", 4⟩ (bytes "1 == 1") holds],
    none⟩]

/-- Every suite is run and a check fails, but the status is 0. -/
theorem failing_check_exits_zero :
    (main [oneCheckSuite false] []).2.ran = [oneCheckSuite false] ∧
      (main [oneCheckSuite false] []).2.session.counters = ⟨1, 0, 1⟩ ∧
      ¬ ((main [oneCheckSuite false] []).1 ≠ 0
        ↔ ∃ suite ∈ (main [oneCheckSuite false] []).2.ran, suite.fails = true) := by
  decide

/-- A passing suite selected by its id in lower case. -/
theorem exit_status_tells_failure_passing :
    ((main [oneCheckSuite true] [bytes "u1"]).1 ≠ 0
        ↔ ∃ suite ∈ (main [oneCheckSuite true] [bytes "u1"]).2.ran, suite.fails = true)
      ↔ ∀ suite ∈ selected [oneCheckSuite true] [bytes "u1"], suite.fails = false :=
  exit_status_tells_failure_iff [oneCheckSuite true] [bytes "u1"] (by decide)

end TestRunner
end RateThrottle
