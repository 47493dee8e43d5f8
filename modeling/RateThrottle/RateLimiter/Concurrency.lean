/-
  RateThrottle.RateLimiter.Concurrency

  Concurrent callers of one limiter.

  `allow` evaluates its default argument `now` before it takes `mutex_`, so a
  thread carries its timestamp while it waits and the calls may be processed in
  another order than that of their timestamps.  The body below is the source's,
  cut at its accesses to the cache; `allow_implements` shows that run alone it
  is `RateLimiter.allow`, and the monitor library turns every schedule of any
  number of threads into a sequential run in processing order.
-/

import Mathlib.Order.Bounds.Defs
import RateThrottle.Library.Monitor
import RateThrottle.RateLimiter.Resident

namespace RateThrottle

open Mealy Monitor

variable {K : Type} {cache : LRUCache K RateLimitWindow}

/-- The local variables of an `allow` call that holds `mutex_`. -/
inductive AllowFrame (K : Type) where
  | locked (call : Call K)
  | lookedUp (call : Call K) (existing : Option RateLimitWindow)

/-- The body of `allow` under `mutex_`: the zero-limit test and the lookup, then
    the decision. -/
def allowBody (chrono : Chrono) :
    Body (RateLimiter cache) (Call K) Bool (AllowFrame K) where
  enter call := .locked call
  step
    | .locked call, limiter =>
        if limiter.requestsPerWindow_ = 0 then (.inr false, limiter)
        else
          let (existing, cache_) := cache.get limiter.cache_ call.key
          (.inl (.lookedUp call existing), { limiter with cache_ := cache_ })
    | .lookedUp call existing, limiter =>
        let (result, limiter) := limiter.afterGet chrono call.key call.now existing
        (.inr result, limiter)

/-- A body that got past the lookup found a limit other than zero. -/
theorem allowBody_reaches (chrono : Chrono) {limiter₀ limiter : RateLimiter cache}
    {call : Call K} {frame : AllowFrame K}
    (h : Reaches (allowBody chrono) limiter₀ call frame limiter) :
    match frame with
    | .locked call' => call' = call ∧ limiter = limiter₀
    | .lookedUp call' existing => call' = call ∧ limiter₀.requestsPerWindow_ ≠ 0 ∧
        existing = (cache.get limiter₀.cache_ call.key).1 ∧
        limiter = { limiter₀ with cache_ := (cache.get limiter₀.cache_ call.key).2 } := by
  induction h with
  | enter => exact ⟨rfl, rfl⟩
  | @step f f' s s' _ hstep ih =>
      cases f with
      | locked call' =>
          obtain ⟨rfl, rfl⟩ := ih
          by_cases hzero : s.requestsPerWindow_ = 0
          · simp [allowBody, hzero] at hstep
          · simp only [allowBody, if_neg hzero, Prod.mk.injEq, Sum.inl.injEq] at hstep
            obtain ⟨rfl, rfl⟩ := hstep
            exact ⟨rfl, hzero, rfl, rfl⟩
      | lookedUp call' existing => simp [allowBody] at hstep

/-- Run alone, the body of `allow` is `allow`. -/
theorem allow_implements (chrono : Chrono) :
    Implements (allowBody chrono)
      (RateLimiter.step chrono : RateLimiter cache → Call K → Bool × RateLimiter cache) := by
  intro limiter₀ call frame limiter result limiter' hreach hstep
  have hframe := allowBody_reaches chrono hreach
  cases frame with
  | locked call' =>
      obtain ⟨rfl, rfl⟩ := hframe
      by_cases hzero : limiter.requestsPerWindow_ = 0
      · simp only [allowBody, if_pos hzero, Prod.mk.injEq, Sum.inr.injEq] at hstep
        obtain ⟨rfl, rfl⟩ := hstep
        exact RateLimiter.allow_zero chrono hzero call'.key call'.now
      · simp [allowBody, hzero] at hstep
  | lookedUp call' existing =>
      obtain ⟨rfl, hlimit, rfl, rfl⟩ := hframe
      simp only [allowBody, Prod.mk.injEq, Sum.inr.injEq] at hstep
      obtain ⟨rfl, rfl⟩ := hstep
      exact RateLimiter.allow_nonzero chrono hlimit call'.key call'.now

section Schedules

variable {T : Type} [DecidableEq T]

/-- A limiter and the threads that call it, after a schedule. -/
def schedule (chrono : Chrono) (limiter : RateLimiter cache) (events : List (Event T (Call K))) :
    State T (RateLimiter cache) (Call K) Bool (AllowFrame K) :=
  Monitor.run (allowBody chrono) limiter events

/-- Every schedule is a sequential run of its calls in processing order. -/
theorem schedule_log (chrono : Chrono) (limiter : RateLimiter cache)
    (events : List (Event T (Call K))) :
    (schedule chrono limiter events).log
      = limiter.results chrono ((schedule chrono limiter events).log.map Prod.fst) :=
  log_eq_trace (allow_implements chrono) events

/-- No two threads are past the lock of `allow` together. -/
theorem schedule_mutual_exclusion (chrono : Chrono) (limiter : RateLimiter cache)
    (events : List (Event T (Call K))) {t u : T} {call call' : Call K} {frame frame' : AllowFrame K}
    (ht : (schedule chrono limiter events).pc t = .inside call frame)
    (hu : (schedule chrono limiter events).pc u = .inside call' frame') : t = u :=
  mutual_exclusion (allow_implements chrono) events ht hu

variable [DecidableEq K] {view : cache.Store → LruStore K RateLimitWindow}

end Schedules

end RateThrottle
