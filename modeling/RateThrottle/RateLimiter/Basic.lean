/-
  RateThrottle.RateLimiter.Basic

  `ThrottlePro::RateLimiter` (include/ThrottlePro/RateLimiter.h and
  src/ThrottlePro/RateLimiter.cpp): the per-key window, the limiter object and
  its only operation, `allow`.

  A `steady_clock::time_point` is its count of nanoseconds, a
  `std::chrono::milliseconds` its count of milliseconds.  The two `std::chrono`
  operations of the expiry test are a parameter (`Chrono`), so that the same
  `allow` can be read in exact integers (`Chrono.exact`) and in the 64-bit
  arithmetic of the compiled code.  The counts are `std::size_t`, that is
  `UInt64`, and wrap like it.

  `allow` holds `mutex_` for its whole body; here it is a function, and the
  interleavings of several callers are in `RateThrottle.RateLimiter.Concurrency`.
-/

import RateThrottle.CachePro.LRUCache
import RateThrottle.Library.Mealy

namespace RateThrottle

/-- `struct RateLimitWindow`. -/
structure RateLimitWindow where
  windowStart : Int
  count : UInt64
deriving DecidableEq, Repr

/-! ## Time -/

/-- A duration of `ms` milliseconds in nanoseconds. -/
def nanos (ms : Int) : Int := ms * 1000000

theorem nanos_pos {ms : Int} (h : 0 < ms) : 0 < nanos ms := by
  rw [nanos]
  omega

/-- The `std::chrono` operations of the expiry test. -/
structure Chrono where
  /-- `now - windowStart`, in nanoseconds. -/
  sub : Int → Int → Int
  /-- `elapsed >= windowDuration_`, nanoseconds against milliseconds. -/
  ge : Int → Int → Bool

/-- The operations computed in unbounded integers. -/
def Chrono.exact : Chrono where
  sub a b := a - b
  ge elapsed ms := decide (elapsed ≥ nanos ms)

/-- `(now - existing->windowStart) >= windowDuration_`. -/
def Chrono.expired (chrono : Chrono) (windowDuration now windowStart : Int) : Bool :=
  chrono.ge (chrono.sub now windowStart) windowDuration

@[simp] theorem Chrono.expired_exact (windowDuration now windowStart : Int) :
    Chrono.exact.expired windowDuration now windowStart = true
      ↔ windowStart + nanos windowDuration ≤ now := by
  simp only [Chrono.expired, Chrono.exact, decide_eq_true_eq]
  omega

/-! ## The limiter -/

variable {K : Type}

/-- `class RateLimiter`, less its mutex. -/
structure RateLimiter (cache : LRUCache K RateLimitWindow) where
  requestsPerWindow_ : UInt64
  windowDuration_ : Int
  cache_ : cache.Store

namespace RateLimiter

variable {cache : LRUCache K RateLimitWindow}

/-- The constructor. -/
def new (requestsPerWindow : UInt64) (windowDuration : Int) (cacheCapacity : Nat) :
    RateLimiter cache where
  requestsPerWindow_ := requestsPerWindow
  windowDuration_ := windowDuration
  cache_ := cache.new cacheCapacity

/-- `cache_.put(key, RateLimitWindow{now, 1}); return true;`. -/
def freshWindow (self : RateLimiter cache) (key : K) (now : Int) : Bool × RateLimiter cache :=
  (true, { self with cache_ := cache.put self.cache_ key { windowStart := now, count := 1 } })

/-- The part of `allow` after `existing = cache_.get(key)`. -/
def afterGet (chrono : Chrono) (self : RateLimiter cache) (key : K) (now : Int) :
    Option RateLimitWindow → Bool × RateLimiter cache
  | none => self.freshWindow key now
  | some existing =>
      if chrono.expired self.windowDuration_ now existing.windowStart then
        self.freshWindow key now
      else if existing.count < self.requestsPerWindow_ then
        -- `++existing->count` through the live pointer
        (true, { self with
          cache_ := cache.setLive self.cache_ key { existing with count := existing.count + 1 } })
      else
        (false, self)

/-- `RateLimiter::allow`. -/
def allow (chrono : Chrono) (self : RateLimiter cache) (key : K) (now : Int) :
    Bool × RateLimiter cache :=
  if self.requestsPerWindow_ = 0 then (false, self)
  else
    let (existing, cache_) := cache.get self.cache_ key
    afterGet chrono { self with cache_ := cache_ } key now existing

theorem allow_zero (chrono : Chrono) {self : RateLimiter cache}
    (hzero : self.requestsPerWindow_ = 0) (key : K) (now : Int) :
    self.allow chrono key now = (false, self) :=
  if_pos hzero

theorem allow_nonzero (chrono : Chrono) {self : RateLimiter cache}
    (hlimit : self.requestsPerWindow_ ≠ 0) (key : K) (now : Int) :
    self.allow chrono key now
      = afterGet chrono { self with cache_ := (cache.get self.cache_ key).2 } key now
          (cache.get self.cache_ key).1 :=
  if_neg hlimit

/-- `allow` never changes the configuration. -/
theorem config_allow (chrono : Chrono) (self : RateLimiter cache) (key : K) (now : Int) :
    (self.allow chrono key now).2.requestsPerWindow_ = self.requestsPerWindow_ ∧
      (self.allow chrono key now).2.windowDuration_ = self.windowDuration_ := by
  by_cases hzero : self.requestsPerWindow_ = 0
  · rw [allow_zero chrono hzero]
    exact ⟨rfl, rfl⟩
  · rw [allow_nonzero chrono hzero]
    cases (cache.get self.cache_ key).1 with
    | none => exact ⟨rfl, rfl⟩
    | some w =>
        simp only [afterGet]
        split
        · exact ⟨rfl, rfl⟩
        · split <;> exact ⟨rfl, rfl⟩

end RateLimiter

/-! ## Runs -/

/-- The arguments of one `allow` call. -/
structure Call (K : Type) where
  key : K
  now : Int
deriving DecidableEq, Repr

namespace RateLimiter

variable {cache : LRUCache K RateLimitWindow}

/-- One call of a run. -/
def step (chrono : Chrono) (self : RateLimiter cache) (call : Call K) :
    Bool × RateLimiter cache :=
  self.allow chrono call.key call.now

/-- The calls of a run with their results, in processing order. -/
def results (chrono : Chrono) (self : RateLimiter cache) (calls : List (Call K)) :
    List (Call K × Bool) :=
  Mealy.trace (step chrono) self calls

/-- The limiter after a run. -/
def after (chrono : Chrono) (self : RateLimiter cache) (calls : List (Call K)) :
    RateLimiter cache :=
  Mealy.final (step chrono) self calls

/-- The results of a run are results of its calls. -/
theorem mem_of_mem_results {chrono : Chrono} {self : RateLimiter cache} {calls : List (Call K)}
    {e : Call K × Bool} (he : e ∈ results chrono self calls) : e.1 ∈ calls := by
  have hmem := List.mem_map_of_mem (f := Prod.fst) he
  rwa [results, Mealy.trace_map_fst] at hmem

/-- With the zero limit every call of a run is denied and nothing is stored. -/
theorem run_zero (chrono : Chrono) {self : RateLimiter cache}
    (hzero : self.requestsPerWindow_ = 0) (calls : List (Call K)) :
    results chrono self calls = calls.map (fun call => (call, false)) ∧
      after chrono self calls = self := by
  induction calls with
  | nil => exact ⟨rfl, rfl⟩
  | cons call calls ih =>
      have hstep : step chrono self call = (false, self) :=
        allow_zero chrono hzero call.key call.now
      simp only [results, after, Mealy.trace_cons, Mealy.final_cons, hstep, List.map_cons]
      exact ⟨congrArg _ ih.1, ih.2⟩

end RateLimiter

/-- How many calls of a run that satisfy `p` returned true. -/
def acceptedCalls (p : Call K → Bool) (results : List (Call K × Bool)) : Nat :=
  results.countP fun e => e.2 && p e.1

@[simp] theorem acceptedCalls_nil (p : Call K → Bool) : acceptedCalls p [] = 0 := rfl

theorem acceptedCalls_concat (p : Call K → Bool) (results : List (Call K × Bool))
    (call : Call K) (result : Bool) :
    acceptedCalls p (results ++ [(call, result)])
      = acceptedCalls p results + (if result && p call then 1 else 0) := by
  rw [acceptedCalls, List.countP_append, List.countP_singleton]
  rfl

theorem acceptedCalls_cons (p : Call K → Bool) (call : Call K) (result : Bool)
    (results : List (Call K × Bool)) :
    acceptedCalls p ((call, result) :: results)
      = acceptedCalls p results + if result && p call then 1 else 0 := by
  rw [acceptedCalls, List.countP_cons]
  rfl

/-- The timestamps used on `key`, in processing order. -/
def timesOn [DecidableEq K] (key : K) (calls : List (Call K)) : List Int :=
  (calls.filter (·.key = key)).map Call.now

theorem timesOn_append [DecidableEq K] (key : K) (calls more : List (Call K)) :
    timesOn key (calls ++ more) = timesOn key calls ++ timesOn key more := by
  simp [timesOn, List.filter_append]

theorem timesOn_concat_self [DecidableEq K] (calls : List (Call K)) (key : K) (now : Int) :
    timesOn key (calls ++ [⟨key, now⟩]) = timesOn key calls ++ [now] := by
  simp [timesOn, List.filter_append]

theorem timesOn_concat_of_ne [DecidableEq K] (calls : List (Call K)) {key : K} {call : Call K}
    (hne : key ≠ call.key) : timesOn key (calls ++ [call]) = timesOn key calls := by
  simp [timesOn, List.filter_append, Ne.symm hne]

theorem mem_timesOn [DecidableEq K] {key : K} {calls : List (Call K)} {t : Int} :
    t ∈ timesOn key calls ↔ ⟨key, t⟩ ∈ calls := by
  simp only [timesOn, List.mem_map, List.mem_filter, decide_eq_true_eq]
  refine ⟨?_, ?_⟩
  · rintro ⟨c, ⟨hc, rfl⟩, rfl⟩
    exact hc
  · intro h
    exact ⟨⟨key, t⟩, ⟨h, rfl⟩, rfl⟩

end RateThrottle
