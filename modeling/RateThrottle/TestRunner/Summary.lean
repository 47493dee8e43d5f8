/-
  RateThrottle.TestRunner.Summary

  The three counters of the custom test framework beside each other
  (tests/custom/support/macros.h, and `stats` of helpers.h).

  A check raises `total` together with `pass` or `fail`, so checks keep
  `total = pass + fail`.  The exception handlers of `RUN` raise `fail` alone:
  after a run, `pass + fail` exceeds `total` by the number of tests that ended
  in an exception (`Exceeds.main`), and the box of `stats` may show 100 percent
  beside a failure.
-/

import Mathlib.Algebra.Field.Rat
import Mathlib.Tactic.NormNum
import RateThrottle.TestRunner.Main

namespace RateThrottle
namespace TestRunner

-- ============================================================================
-- What each step does to the balance
-- ============================================================================

/-- `pass + fail` is `n` more than `total`. -/
def Exceeds (s : Session) (n : Nat) : Prop :=
  s.counters.pass + s.counters.fail = s.counters.total + n

/-- The test ends in an exception. -/
def Test.throws (t : Test) : Bool := t.exception.isSome

theorem exceeds_start : Exceeds .start 0 := rfl

theorem Exceeds.exec {s : Session} {n : Nat} (h : Exceeds s n) (c : Check) :
    Exceeds (c.exec s) n := by
  have hpassed : Exceeds s.passed n := by
    simp only [Exceeds, Session.passed] at h ⊢
    omega
  have hfailed : ∀ lines, Exceeds (s.failed lines) n := by
    intro lines
    simp only [Exceeds, Session.failed] at h ⊢
    omega
  cases c with
  | chk site expr holds =>
      rw [Check.exec]
      split
      · exact hfailed _
      · exact hpassed
  | chkThrows site exceptionType ending =>
      rw [Check.exec]
      split
      · exact hpassed
      · exact hfailed _

theorem Exceeds.foldl_exec {s : Session} {n : Nat} (h : Exceeds s n) (checks : List Check) :
    Exceeds (checks.foldl Check.exec s) n := by
  induction checks generalizing s with
  | nil => exact h
  | cons c checks ih => exact ih (h.exec c)

/-- A test adds one to the difference exactly when it throws. -/
theorem Exceeds.RUN {s : Session} {n : Nat} (h : Exceeds s n) (t : Test) :
    Exceeds (RUN s t) (n + if t.throws then 1 else 0) := by
  have hbody : Exceeds (t.body s) n := by
    have hempty : Exceeds { s with out := [] } n := h
    exact hempty.foldl_exec t.checks
  unfold TestRunner.RUN Test.throws
  cases t.exception with
  | none => exact hbody
  | some e =>
      -- the handler raises `fail` and leaves `total`
      simp only [Exceeds, Option.isSome_some, if_true] at hbody ⊢
      omega

theorem Exceeds.foldl_RUN {s : Session} {n : Nat} (h : Exceeds s n) (tests : List Test) :
    Exceeds (tests.foldl TestRunner.RUN s) (n + tests.countP Test.throws) := by
  induction tests generalizing s n with
  | nil => exact h
  | cons t tests ih =>
      have hrest := ih (h.RUN t)
      rw [List.foldl_cons, List.countP_cons, Nat.add_comm (tests.countP _), ← Nat.add_assoc]
      exact hrest

/-- The tests of the suites, in the order in which they run. -/
def testsOf (suites : List TestSuite) : List Test := suites.flatMap TestSuite.run

theorem Exceeds.foldl_runSuite {p : Process} {n : Nat} (h : Exceeds p.session n)
    (suites : List TestSuite) :
    Exceeds (suites.foldl runSuite p).session (n + (testsOf suites).countP Test.throws) := by
  induction suites generalizing p n with
  | nil => exact h
  | cons suite suites ih =>
      have htitle : Exceeds (p.session.print [.title (prettify suite.name)]) n := h
      have hsuite : Exceeds (runSuite p suite).session (n + suite.run.countP Test.throws) :=
        htitle.foldl_RUN suite.run
      have hrest := ih hsuite
      rw [List.foldl_cons, testsOf, List.flatMap_cons, List.countP_append, ← Nat.add_assoc]
      exact hrest

-- ============================================================================
-- The printed summary
-- ============================================================================

/-- The line of the summary box. -/
def Line.isStats : Line → Bool
  | .stats _ _ => true
  | _ => false

/-- No summary has been printed. -/
def NoStats (lines : List Line) : Prop := ∀ line ∈ lines, line.isStats = false

theorem noStats_append {left right : List Line} :
    NoStats (left ++ right) ↔ NoStats left ∧ NoStats right := List.forall_mem_append

theorem noStats_singleton {line : Line} (h : line.isStats = false) : NoStats [line] :=
  List.forall_mem_singleton.mpr h

theorem noStats_exec {s : Session} (h : NoStats s.out) (c : Check) : NoStats (c.exec s).out := by
  cases c with
  | chk site expr holds =>
      rw [Check.exec]
      split
      · exact noStats_append.mpr ⟨h, noStats_singleton rfl⟩
      · exact h
  | chkThrows site exceptionType ending =>
      rw [Check.exec]
      split
      · exact h
      · exact noStats_append.mpr ⟨h, noStats_singleton rfl⟩

theorem noStats_body (t : Test) (s : Session) : NoStats (t.body s).out := by
  have hempty : NoStats ({ s with out := [] } : Session).out := by simp [NoStats]
  rw [Test.body]
  generalize ({ s with out := [] } : Session) = start at hempty ⊢
  induction t.checks generalizing start with
  | nil => exact hempty
  | cons c checks ih => exact ih _ (noStats_exec hempty c)

theorem noStats_RUN {s : Session} (h : NoStats s.out) (t : Test) : NoStats (RUN s t).out := by
  have hbody := noStats_body t s
  have hmark : ∀ passed, NoStats [.test passed (prettify t.name)] := fun _ =>
    noStats_singleton rfl
  unfold RUN
  cases t.exception with
  | none =>
      refine noStats_append.mpr ⟨h, ?_⟩
      exact noStats_append.mpr ⟨hmark _, hbody⟩
  | some e =>
      refine noStats_append.mpr ⟨noStats_append.mpr ⟨h, ?_⟩, noStats_singleton rfl⟩
      exact noStats_append.mpr ⟨hmark _, hbody⟩

theorem noStats_foldl_runSuite (suites : List TestSuite) {p : Process}
    (h : NoStats p.session.out) : NoStats (suites.foldl runSuite p).session.out := by
  have hrun : ∀ (tests : List Test) (s : Session), NoStats s.out →
      NoStats (tests.foldl RUN s).out := by
    intro tests
    induction tests with
    | nil => exact fun _ hs => hs
    | cons t tests ih => exact fun s hs => ih _ (noStats_RUN hs t)
  induction suites generalizing p with
  | nil => exact h
  | cons suite suites ih =>
      refine ih (hrun suite.run _ ?_)
      exact noStats_append.mpr ⟨h, noStats_singleton rfl⟩

/-- How `main` ends once its suites have run: with the summary, or with other lines. -/
def Ends (p q : Process) : Prop := q = p.stats ∨ ∃ lines, NoStats lines ∧ q = p.print lines

theorem ends_scanSuites (requested requestedLower : Bytes) (registry : List TestSuite)
    (foundCategory : Bool) (p : Process) :
    Ends ((selectFrom requestedLower registry).foldl runSuite p)
      (scanSuites requested requestedLower registry foundCategory p).2 := by
  induction registry generalizing foundCategory p with
  | nil =>
      rw [scanSuites, selectFrom]
      split
      · exact Or.inl rfl
      · exact Or.inr ⟨_, noStats_singleton rfl, rfl⟩
  | cons suite rest ih =>
      unfold scanSuites selectFrom
      split
      · exact Or.inl rfl
      · split
        · exact ih true (printOneSuite p suite)
        · exact ih foundCategory p

theorem noStats_printTestSuiteList (registry : List TestSuite) :
    ∃ lines, NoStats lines ∧ printTestSuiteList registry .start = Process.start.print lines := by
  refine ⟨_, ?_, rfl⟩
  have htree : ∀ grouped : List (Bytes × List TestSuite),
      NoStats (grouped.flatMap fun group =>
        .category (prettify group.1) group.2.length
          :: group.2.map fun suite => .listed suite.id suite.name) := by
    intro grouped line hline
    obtain ⟨group, -, hline⟩ := List.mem_flatMap.mp hline
    rcases List.mem_cons.mp hline with rfl | hline
    · rfl
    · obtain ⟨suite, -, rfl⟩ := List.mem_map.mp hline
      rfl
  intro line hline
  rcases List.mem_cons.mp hline with rfl | hline
  · rfl
  · rcases List.mem_append.mp hline with hline | hline
    · exact htree _ line hline
    · rw [List.mem_singleton.mp hline]
      rfl

/-- `main` runs the selected suites and ends. -/
theorem ends_main (registry : List TestSuite) (args : List Bytes) :
    Ends ((selected registry args).foldl runSuite .start) (main registry args).2 := by
  unfold main selected
  cases args with
  | nil => exact Or.inl rfl
  | cons requested more =>
      simp only
      by_cases hhelp : requested = bytes "-h" ∨ requested = bytes "--help"
      · rw [if_pos hhelp, if_pos (by rw [← or_assoc]; exact Or.inl hhelp)]
        exact Or.inr ⟨_, noStats_singleton rfl, rfl⟩
      · rw [if_neg hhelp]
        by_cases hlist : requested = bytes "list"
        · rw [if_pos hlist, if_pos (Or.inr (Or.inr hlist))]
          exact Or.inr (noStats_printTestSuiteList registry)
        · rw [if_neg hlist, if_neg (by rw [← or_assoc, not_or]; exact ⟨hhelp, hlist⟩)]
          exact ends_scanSuites requested _ registry false .start

/-- The balance of a whole run of the executable. -/
theorem Exceeds.main (registry : List TestSuite) (args : List Bytes) :
    Exceeds (main registry args).2.session
      ((testsOf (selected registry args)).countP Test.throws) := by
  have hrun := exceeds_start.foldl_runSuite (p := .start) (selected registry args)
  rw [Nat.zero_add] at hrun
  rcases ends_main registry args with hend | ⟨lines, -, hend⟩
  · rw [hend]
    exact hrun
  · rw [hend]
    exact hrun

/-- The counters after a run add up, and the box of `stats` shows 100 percent
    only where nothing has failed. -/
structure AddsUp (p : Process) : Prop where
  counters : p.session.counters.total = p.session.counters.pass + p.session.counters.fail
  rate : ∀ counters rate, .stats counters rate ∈ p.session.out → rate = 100 → counters.fail = 0

/-- What a printed summary says. -/
theorem of_stats_mem {registry : List TestSuite} {args : List Bytes} {counters : Counters}
    {rate : Rat} (h : .stats counters rate ∈ (main registry args).2.session.out) :
    counters = (main registry args).2.session.counters ∧
      rate = if counters.total > 0 then (100 * counters.pass / counters.total : Rat) else 0 := by
  have hnone : NoStats ((selected registry args).foldl runSuite .start).session.out :=
    noStats_foldl_runSuite _ (by simp [NoStats, Process.start, Session.start])
  rcases ends_main registry args with hend | ⟨lines, hlines, hend⟩
  · rw [hend] at h ⊢
    rcases List.mem_append.mp h with h | h
    · exact absurd (hnone _ h) (by simp [Line.isStats])
    · cases List.mem_singleton.mp h
      exact ⟨rfl, rfl⟩
  · rw [hend] at h
    rcases List.mem_append.mp h with h | h
    · exact absurd (hnone _ h) (by simp [Line.isStats])
    · exact absurd (hlines _ h) (by simp [Line.isStats])

/-- Where the counters add up, a rate of 100 leaves no room for a failure. -/
theorem fail_eq_zero_of_rate {c : Counters} (hsum : c.total = c.pass + c.fail)
    (hrate : (if c.total > 0 then (100 * c.pass / c.total : Rat) else 0) = 100) : c.fail = 0 := by
  split at hrate
  · next hpos =>
      have htotal : (c.total : Rat) ≠ 0 := Nat.cast_ne_zero.mpr (Nat.ne_of_gt hpos)
      have hall : (100 * c.pass : Rat) = 100 * c.total := by rwa [div_eq_iff htotal] at hrate
      have hpass : (c.pass : Rat) = c.total := mul_left_cancel₀ (by norm_num) hall
      have hcast := Nat.cast_injective hpass
      omega
  · exact absurd hrate (by norm_num)

/-- **The summary counters add up** after a run exactly when no test that ran
    ended in an exception. -/
theorem main_addsUp_iff (registry : List TestSuite) (args : List Bytes) :
    AddsUp (main registry args).2
      ↔ ∀ suite ∈ selected registry args, ∀ t ∈ suite.run, t.exception = none := by
  have hbalance := Exceeds.main registry args
  have hthrows : (testsOf (selected registry args)).countP Test.throws = 0
      ↔ ∀ suite ∈ selected registry args, ∀ t ∈ suite.run, t.exception = none := by
    simp only [List.countP_eq_zero, testsOf, List.mem_flatMap, Test.throws,
      Option.not_isSome_iff_eq_none]
    exact ⟨fun h suite hsuite t ht => h t ⟨suite, hsuite, ht⟩,
      fun h t ⟨suite, hsuite, ht⟩ => h suite hsuite t ht⟩
  rw [← hthrows]
  unfold Exceeds at hbalance
  refine ⟨?_, ?_⟩
  · intro h
    have hsum := h.counters
    omega
  · intro hzero
    rw [hzero] at hbalance
    refine ⟨by omega, fun counters rate hmem hrate => ?_⟩
    obtain ⟨rfl, hprinted⟩ := of_stats_mem hmem
    rw [hprinted] at hrate
    exact fail_eq_zero_of_rate (by omega) hrate

/-- A suite of one test that passes its only check and then throws. -/
def throwingSuite : TestSuite where
  id := bytes "U1"
  category := bytes "unit"
  name := bytes "Basic Behavior"
  run := [⟨bytes "test_throw", [.chk ⟨bytes "unit/basic_behavior.cpp", 4⟩ (bytes "1 == 1") true],
    some (.std (bytes "boom"))⟩]

/-- One check, one passed, one failed: 100 percent beside a failure. -/
theorem throwing_test_shows_all_passed :
    ¬ ∀ (registry : List TestSuite) (args : List Bytes), AddsUp (main registry args).2 := by
  intro h
  have hrun := (h [throwingSuite] []).rate ⟨1, 1, 1⟩ 100 (by decide +kernel) rfl
  cases hrun

end TestRunner
end RateThrottle
