/-
  RateThrottle.RateLimiter.Linearizability

  One limiter shared by many threads, seen from outside.

  `allow` locks `mutex_` for its whole body, so what callers observe is
  explained by some order of their calls: a sequential run of the limiter in
  which no call comes before one that had already returned when it was made.
  And since the body under the lock takes two steps whatever it finds, no
  reachable state is a deadlock.
-/

import RateThrottle.Library.Linearization
import RateThrottle.RateLimiter.Concurrency

namespace RateThrottle

open Mealy Monitor

variable {K : Type} {cache : LRUCache K RateLimitWindow} {T : Type} [DecidableEq T]

/-- A schedule of callers of one limiter, with the moments at which their calls
    were made and returned. -/
def recordedSchedule (chrono : Chrono) (limiter : RateLimiter cache)
    (events : List (Event T (Call K))) :
    Recorded T (RateLimiter cache) (Call K) Bool (AllowFrame K) :=
  Monitor.record (allowBody chrono) limiter events

/-- **Linearizability.** Under every schedule of any number of threads, the
    finished calls with their results are those of the schedule's own log, every
    thread made its calls one after the other, and some order of them is a
    sequential run of the limiter that respects real time. -/
theorem schedule_linearizable (chrono : Chrono) (limiter : RateLimiter cache)
    (events : List (Event T (Call K))) :
    (recordedSchedule chrono limiter events).finished.map Operation.entry
        = (schedule chrono limiter events).log ∧
      SessionOrdered (recordedSchedule chrono limiter events).finished ∧
      Linearizable (RateLimiter.step chrono) limiter
        (recordedSchedule chrono limiter events).finished := by
  have hnotes := consistent_record (allowBody chrono) limiter events
  refine ⟨?_, hnotes.session, linearizable_record (allow_implements chrono) events⟩
  rw [schedule, ← record_state]
  exact hnotes.log_eq.symm

/-- How many small steps a frame of `allow` is away from its last one. -/
def AllowFrame.stepsLeft : AllowFrame K → Nat
  | .locked _ => 1
  | .lookedUp _ _ => 0

theorem allowBody_ends (chrono : Chrono) :
    Ends (allowBody chrono : Body (RateLimiter cache) (Call K) Bool (AllowFrame K))
      AllowFrame.stepsLeft := by
  intro frame limiter frame' limiter' hstep
  cases frame with
  | locked call =>
      by_cases hzero : limiter.requestsPerWindow_ = 0
      · simp [allowBody, hzero] at hstep
      · simp only [allowBody, if_neg hzero, Prod.mk.injEq, Sum.inl.injEq] at hstep
        rw [← hstep.1]
        exact Nat.zero_lt_one
  | lookedUp call existing => simp [allowBody] at hstep

theorem AllowFrame.stepsLeft_lt (frame : AllowFrame K) : frame.stepsLeft < 2 := by
  cases frame with
  | locked _ => exact Nat.one_lt_two
  | lookedUp _ _ => exact Nat.zero_lt_two

/-- **Deadlock freedom.** In every state that any schedule leads to, every call
    that has been made and has not returned can return within five moves, none
    of them a new call. -/
theorem schedule_can_return (chrono : Chrono) (limiter : RateLimiter cache)
    (events : List (Event T (Call K))) {t : T} {call : Call K}
    (hpending : (schedule chrono limiter events).pc t = .waiting call ∨
      ∃ frame, (schedule chrono limiter events).pc t = .inside call frame) :
    ∃ more : List (Event T (Call K)), more.length ≤ 5 ∧ (∀ e ∈ more, ∃ u, e = .advance u) ∧
      (schedule chrono limiter (events ++ more)).pc t = .outside ∧
      ∃ earlier result, (schedule chrono limiter (events ++ more)).log
        = (schedule chrono limiter events).log ++ earlier ++ [(call, result)] :=
  can_return (allowBody_ends chrono) AllowFrame.stepsLeft_lt limiter events hpending

/-- Thread 1 waits while thread 0 is past the lookup. -/
theorem schedule_can_return_waiting :
    let limiter : RateLimiter (LRUCache.reference String RateLimitWindow) := .new 1 1000 8
    let events : List (Event (Fin 2) (Call String)) :=
      [.call 0 ⟨"shared", 0⟩, .advance 0, .call 1 ⟨"shared", 5⟩, .advance 0, .advance 1]
    ∃ more : List (Event (Fin 2) (Call String)), more.length ≤ 5 ∧
      (∀ e ∈ more, ∃ u, e = .advance u) ∧
      (schedule .exact limiter (events ++ more)).pc 1 = .outside ∧
      ∃ earlier result, (schedule .exact limiter (events ++ more)).log
        = (schedule .exact limiter events).log ++ earlier ++ [(⟨"shared", 5⟩, result)] :=
  schedule_can_return .exact _ _ (Or.inl rfl)

end RateThrottle
