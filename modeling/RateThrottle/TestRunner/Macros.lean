/-
  RateThrottle.TestRunner.Macros

  The check macros of the custom test framework
  (tests/custom/support/macros.h) with the global counters and the console
  output they update (tests/custom/support/helpers.h).

  A test body is given by what it does to the framework: the checks it
  executes, in order, and the exception it ends with, if any.  Elapsed times
  are left out of the printed lines.  The counters are `int`s, far from their
  range in any run of a test executable.
-/

import RateThrottle.Support.Bytes

namespace RateThrottle
namespace TestRunner

-- ============================================================================
-- Counters and console
-- ============================================================================

/-- The global counters `total`, `pass` and `fail`. -/
structure Counters where
  total : Nat
  pass : Nat
  fail : Nat
deriving DecidableEq, Repr

/-- `__FILE__` and `__LINE__` of a check. -/
structure Site where
  file : Bytes
  line : Nat
deriving DecidableEq, Repr

/-- What is printed on `std::cout` and `std::cerr`, less colors, layout and times. -/
inductive Line where
  | title (text : Bytes)
  | test (passed : Bool) (name : Bytes)
  | chkFailed (site : Site) (expr : Bytes)
  | throwsFailed (site : Site) (expected actual : Bytes)
  | extra (text : Bytes)
  | stats (counters : Counters) (rate : Rat)
  | listHeader
  | category (name : Bytes) (suites : Nat)
  | listed (id name : Bytes)
  | listTotals (suites categories : Nat)
  | usage
  | unknownSuite (requested : Bytes)
deriving DecidableEq, Repr

/-- The state that the macros share. -/
structure Session where
  counters : Counters
  out : List Line
deriving DecidableEq, Repr

/-- Nothing counted, nothing printed. -/
def Session.start : Session := ⟨⟨0, 0, 0⟩, []⟩

def Session.print (s : Session) (lines : List Line) : Session := { s with out := s.out ++ lines }

/-- `++pass; ++total`. -/
def Session.passed (s : Session) : Session :=
  { s with counters := { s.counters with
      pass := s.counters.pass + 1, total := s.counters.total + 1 } }

/-- `++fail; ++total` and the lines that explain the failure. -/
def Session.failed (s : Session) (lines : List Line) : Session :=
  { s with
    counters := { s.counters with fail := s.counters.fail + 1, total := s.counters.total + 1 }
    out := s.out ++ lines }

-- ============================================================================
-- CHK and CHK_THROWS
-- ============================================================================

/-- How the expression of a `CHK_THROWS` ended. -/
inductive Ending where
  | threw
  | wrongType
  | noThrow
deriving DecidableEq, Repr

/-- One executed check with the outcome of its expression. -/
inductive Check where
  | chk (site : Site) (expr : Bytes) (holds : Bool)
  | chkThrows (site : Site) (exceptionType : Bytes) (ending : Ending)
deriving DecidableEq, Repr

/-- The `actual:` text of a failed `CHK_THROWS`. -/
def Ending.actual : Ending → Bytes
  | .wrongType => bytes "different exception type"
  | .threw | .noThrow => bytes "no throw"

/-- `CHK` and `CHK_THROWS`. -/
def Check.exec (s : Session) : Check → Session
  | .chk site expr holds =>
      if !holds then s.failed [.chkFailed site expr]
      else s.passed
  | .chkThrows site exceptionType ending =>
      if ending = .threw then s.passed
      else s.failed [.throwsFailed site exceptionType ending.actual]

/-- The check does not hold. -/
def Check.fails : Check → Bool
  | .chk _ _ holds => !holds
  | .chkThrows _ _ ending => decide (ending ≠ .threw)

-- ============================================================================
-- RUN
-- ============================================================================

/-- An exception that leaves a test body: a `std::exception` with its `what()`,
    or anything else. -/
inductive Exception where
  | std (what : Bytes)
  | unknown
deriving DecidableEq, Repr

/-- `__runExtra`. -/
def Exception.extra : Exception → Bytes
  | .std what => bytes "threw: " ++ what
  | .unknown => bytes "threw unknown"

/-- A test function: its name, the checks it executes and how it ends. -/
structure Test where
  name : Bytes
  checks : List Check
  exception : Option Exception
deriving DecidableEq, Repr

/-- A check of the test fails or the test throws. -/
def Test.fails (t : Test) : Bool := t.checks.any Check.fails || t.exception.isSome

/-- The body of the test, with `std::cout` redirected to an empty buffer. -/
def Test.body (t : Test) (s : Session) : Session :=
  t.checks.foldl Check.exec { s with out := [] }

/-- `RUN`. -/
def RUN (s : Session) (t : Test) : Session :=
  let body := t.body s
  match t.exception with
  | none =>
      -- a failed check does not throw: it shows as a changed `fail`
      let passed := decide (s.counters.fail = body.counters.fail)
      { body with out := s.out ++ .test passed (prettify t.name) :: body.out }
  | some e =>
      { counters := { body.counters with fail := body.counters.fail + 1 }
        out := s.out ++ .test false (prettify t.name) :: body.out ++ [.extra e.extra] }

/-! ## What the counters say -/

/-- A check adds one to `fail` exactly when it does not hold. -/
theorem Check.fail_exec (s : Session) (c : Check) :
    (c.exec s).counters.fail = s.counters.fail + if c.fails then 1 else 0 := by
  cases c with
  | chk site expr holds => cases holds <;> rfl
  | chkThrows site exceptionType ending => cases ending <;> rfl

theorem fail_foldl_exec (checks : List Check) (s : Session) :
    (checks.foldl Check.exec s).counters.fail
      = s.counters.fail + checks.countP Check.fails := by
  induction checks generalizing s with
  | nil => rfl
  | cons c checks ih =>
      rw [List.foldl_cons, ih, Check.fail_exec, List.countP_cons]
      omega

/-- The body of a test adds its failed checks to `fail`. -/
theorem Test.fail_body (t : Test) (s : Session) :
    (t.body s).counters.fail = s.counters.fail + t.checks.countP Check.fails :=
  fail_foldl_exec t.checks { s with out := [] }

/-- A test adds to `fail` exactly when one of its checks fails or it throws. -/
theorem fail_RUN (s : Session) (t : Test) :
    s.counters.fail ≤ (RUN s t).counters.fail ∧
      ((RUN s t).counters.fail = s.counters.fail ↔ t.fails = false) := by
  have hbody := t.fail_body s
  have hchecks : t.checks.countP Check.fails = 0 ↔ t.checks.any Check.fails = false := by
    rw [List.countP_eq_zero, List.any_eq_false]
  unfold RUN Test.fails
  cases t.exception with
  | none =>
      show _ ≤ (t.body s).counters.fail ∧ ((t.body s).counters.fail = _ ↔ _)
      simp only [Option.isSome_none, Bool.or_false]
      rw [hbody, ← hchecks]
      omega
  | some e =>
      show _ ≤ (t.body s).counters.fail + 1 ∧ ((t.body s).counters.fail + 1 = _ ↔ _)
      simp only [Option.isSome_some, Bool.or_true, Bool.true_eq_false, iff_false]
      omega

/-- The mark of the result line is a cross exactly when the test fails. -/
theorem mark_RUN (s : Session) (t : Test) :
    ∃ detail, (RUN s t).out = s.out ++ .test (!t.fails) (prettify t.name) :: detail := by
  have hbody := t.fail_body s
  unfold RUN Test.fails
  cases t.exception with
  | none =>
      refine ⟨(t.body s).out, ?_⟩
      have hmark : decide (s.counters.fail = (t.body s).counters.fail)
          = !t.checks.any Check.fails := by
        rw [Bool.eq_iff_iff, decide_eq_true_eq, Bool.not_eq_true', List.any_eq_false,
          ← List.countP_eq_zero, hbody]
        omega
      simp only [hmark, Option.isSome_none, Bool.or_false]
  | some e =>
      refine ⟨(t.body s).out ++ [.extra e.extra], ?_⟩
      simp

end TestRunner
end RateThrottle
