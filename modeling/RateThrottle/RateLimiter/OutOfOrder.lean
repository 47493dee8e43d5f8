/-
  RateThrottle.RateLimiter.OutOfOrder

  Requests processed out of order.

  examples/suite/advanced/custom_time_source.cpp feeds requests with their own
  timestamps in an order that is not theirs and says that the limiter "sees
  them in logical arrival order regardless of processing order".  A window is
  anchored at the request that happens to open it, and whatever is processed
  while it is full is denied, so that holds only while nothing is denied at
  all: for the zero limit, and for request sets with no key over the limit.
-/

import Mathlib.Data.Finset.Max
import RateThrottle.RateLimiter.Resident

namespace RateThrottle

open Mealy KeyedRun

variable {K : Type} {cache : LRUCache K RateLimitWindow}

/-- Every request gets one decision, whatever the order of processing. -/
def OrderIrrelevant (limiter : RateLimiter cache) (requests : List (Call K)) : Prop :=
  ∀ order₁ order₂ : List (Call K), order₁.Perm requests → order₂.Perm requests →
    ∀ request ∈ requests, ∀ decision,
      (request, decision) ∈ limiter.results .exact order₁
        ↔ (request, decision) ∈ limiter.results .exact order₂

/-- If every order gives all its requests one decision, the order is irrelevant. -/
theorem orderIrrelevant_of_constant {limiter : RateLimiter cache} {requests : List (Call K)}
    (decision : Bool) (h : ∀ order : List (Call K), order.Perm requests →
      limiter.results .exact order = order.map (fun request => (request, decision))) :
    OrderIrrelevant limiter requests := by
  intro order₁ order₂ h₁ h₂ request hrequest decision'
  rw [h order₁ h₁, h order₂ h₂]
  simp only [List.mem_map, h₁.mem_iff, h₂.mem_iff]

variable [DecidableEq K] {view : cache.Store → LruStore K RateLimitWindow}

/-! ## Runs without a denial -/

/-- While no key has more calls than the limit, every call is allowed. -/
theorem results_all_allowed (hdoc : cache.Documented view) (chrono : Chrono) {limit : UInt64}
    (hlimit : limit ≠ 0) (windowDuration : Int) {C : Nat} (hC : 0 < C) {calls : List (Call K)}
    (hroom : ∀ key, (timesOn key calls).length ≤ limit.toNat) :
    (RateLimiter.new limit windowDuration C : RateLimiter cache).results chrono calls
      = calls.map (fun call => (call, true)) := by
  have hpos := one_le_toNat hlimit
  induction calls using List.reverseRecOn with
  | nil => rfl
  | append_singleton calls call ih =>
      have hlength : ∀ key, (timesOn key (calls ++ [call])).length
          = (timesOn key calls).length + (timesOn key [call]).length := by
        intro key
        rw [timesOn_append, List.length_append]
      have hprefix : ∀ key, (timesOn key calls).length ≤ limit.toNat := by
        intro key
        have h := hroom key
        rw [hlength] at h
        omega
      have hown : (timesOn call.key calls).length < limit.toNat := by
        have h := hroom call.key
        rw [timesOn_concat_self, List.length_append, List.length_singleton] at h
        omega
      rw [results_concat chrono windowDuration hdoc hlimit hC, ih hprefix, List.map_append]
      have hcount := storedWindow_count_le chrono windowDuration hpos hC calls call.key
      have hdec := windowStep_decision chrono limit windowDuration call.now
        (storedWindow chrono limit windowDuration C calls call.key)
      generalize windowStep chrono limit windowDuration
        (storedWindow chrono limit windowDuration C calls call.key) call.now = r at hdec ⊢
      generalize storedWindow chrono limit windowDuration C calls call.key = stored
        at hcount hdec
      cases hdec with
      | opened _ _ => rfl
      | counted _ _ _ => rfl
      | denied w _ hfull =>
          -- a full window would need as many earlier calls as the limit
          have hge := UInt64.le_iff_toNat_le.mp hfull
          have hle := (hcount w rfl).2
          omega

/-! ## A key over the limit -/

/-- The request processed first is allowed. -/
theorem first_allowed (hdoc : cache.Documented view) (chrono : Chrono) {limit : UInt64}
    (hlimit : limit ≠ 0) (windowDuration : Int) {C : Nat} (hC : 0 < C) (first : Call K)
    (rest : List (Call K)) :
    (first, true) ∈ (RateLimiter.new limit windowDuration C : RateLimiter cache).results chrono
      (first :: rest) := by
  rw [RateLimiter.results_eq_cached hdoc chrono hlimit windowDuration hC]
  exact List.mem_cons_self ..

/-- A key over the limit whose latest request is processed first has a request
    denied: all the others fall below the end of the window it opens. -/
theorem denied_after_latest (hdoc : cache.Documented view) {limit : UInt64} (hlimit : limit ≠ 0)
    {windowDuration : Int} (hwindow : 0 < windowDuration) {C : Nat} {latest : Call K}
    {rest : List (Call K)} (hfew : ((latest :: rest).map Call.key).toFinset.card ≤ C)
    (hlatest : ∀ c ∈ rest, c.key = latest.key → c.now ≤ latest.now)
    (hover : limit.toNat < (timesOn latest.key (latest :: rest)).length) :
    ∃ request, (request, false)
      ∈ (RateLimiter.new limit windowDuration C : RateLimiter cache).results .exact
        (latest :: rest) := by
  by_contra hnone
  have hpos := one_le_toNat hlimit
  have hown : (latest :: rest).filter (fun c => c.key = latest.key)
      = latest :: rest.filter (fun c => c.key = latest.key) :=
    List.filter_cons_of_pos (by simp)
  have hfilter := results_filter .exact windowDuration hdoc hlimit hfew latest.key
  have haccepted : acceptedCalls (fun _ => true)
      (trace (slotStep (windowUpdate .exact limit windowDuration)) none
        (latest :: rest.filter (fun c => c.key = latest.key)))
      = min (latest :: rest.filter (fun c => c.key = latest.key)).length limit.toNat := by
    refine accepted_from_first hpos (fun c hc => ?_)
    rw [List.mem_filter, decide_eq_true_eq] at hc
    have hle := hlatest c hc.1 hc.2
    have hnanos := nanos_pos hwindow
    omega
  rw [hown] at hfilter
  -- without a denial the key would have got all its requests
  have hall : acceptedCalls (fun _ => true)
      (trace (slotStep (windowUpdate .exact limit windowDuration)) none
        (latest :: rest.filter (fun c => c.key = latest.key)))
      = (latest :: rest.filter (fun c => c.key = latest.key)).length := by
    rw [← hfilter]
    have hlength := congrArg List.length hfilter
    rw [length_trace] at hlength
    rw [← hlength]
    refine List.countP_eq_length.mpr (fun e he => ?_)
    by_contra hdenied
    refine hnone ⟨e.1, ?_⟩
    have hfalse : e.2 = false := by simpa using hdenied
    rw [← hfalse]
    exact (List.mem_filter.mp he).1
  rw [hall] at haccepted
  rw [timesOn, List.length_map, hown] at hover
  omega

/-! ## When the order of processing does not matter -/

end RateThrottle
