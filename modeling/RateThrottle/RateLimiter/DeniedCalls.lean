/-
  RateThrottle.RateLimiter.DeniedCalls

  Denied requests leave no trace.

  A denied call still reaches the cache: `get` promotes the key it denies.
  While nothing can be evicted the recency order is never observed, so on the
  unbounded map of windows a denial is a step that changes nothing
  (`mapStep_denied`), and any set of denied calls can be deleted from a run.
-/

import RateThrottle.RateLimiter.Resident

namespace RateThrottle

open Mealy KeyedRun

variable {K : Type} [DecidableEq K]

/-- A denied call leaves the map of windows as it was. -/
theorem mapStep_denied (chrono : Chrono) (limit : UInt64) (windowDuration : Int)
    (windows : K → Option RateLimitWindow) (call : Call K)
    (hdenied : (mapStep Call.key (windowUpdate chrono limit windowDuration) windows call).1
      = false) :
    (mapStep Call.key (windowUpdate chrono limit windowDuration) windows call).2 = windows := by
  have hdec := windowStep_decision chrono limit windowDuration call.now (windows call.key)
  simp only [mapStep, windowUpdate] at hdenied ⊢
  generalize windowStep chrono limit windowDuration (windows call.key) call.now = r
    at hdec hdenied ⊢
  generalize hstored : windows call.key = stored at hdec
  cases hdec with
  | opened _ _ => cases hdenied
  | counted w _ _ => cases hdenied
  | denied w _ _ =>
      show Function.update windows call.key (some w) = windows
      rw [← hstored, Function.update_eq_self]

variable {cache : LRUCache K RateLimitWindow} {view : cache.Store → LruStore K RateLimitWindow}

/-- **Denied requests leave no trace.** While at most `C` distinct keys occur,
    deleting any of the denied calls from a run changes neither the result of a
    remaining call nor the window finally stored for any key. -/
theorem denied_calls_leave_no_trace (hdoc : cache.Documented view) (chrono : Chrono)
    (limit : UInt64) (windowDuration : Int) {C : Nat} (hC : 0 < C) (calls : List (Call K))
    (hfew : (calls.map Call.key).toFinset.card ≤ C) {kept : List (Call K × Bool)}
    (hdrop : DropsSilent (· = false)
      ((RateLimiter.new limit windowDuration C : RateLimiter cache).results chrono calls) kept) :
    (RateLimiter.new limit windowDuration C : RateLimiter cache).results chrono
        (kept.map Prod.fst) = kept ∧
      ∀ key,
        (view ((RateLimiter.new limit windowDuration C : RateLimiter cache).after chrono
            (kept.map Prod.fst)).cache_).lookup key
          = (view ((RateLimiter.new limit windowDuration C : RateLimiter cache).after chrono
              calls).cache_).lookup key := by
  by_cases hlimit : limit = 0
  · subst hlimit
    -- the zero limit never touches the limiter at all
    obtain ⟨hresults, hafter⟩ := dropsSilent_run
      (P := fun limiter : RateLimiter cache => limiter.requestsPerWindow_ = 0)
      (fun limiter call hzero => (limiter.config_allow chrono call.key call.now).1.trans hzero)
      (fun _ call hzero _ => congrArg Prod.snd
        (RateLimiter.allow_zero chrono hzero call.key call.now)) rfl hdrop
    refine ⟨hresults, fun key => ?_⟩
    rw [RateLimiter.after, RateLimiter.after, hafter]
  · have hsub : (kept.map Prod.fst).Sublist calls := by
      have h := hdrop.sublist.map Prod.fst
      rwa [RateLimiter.results, trace_map_fst] at h
    have hkeys : ((kept.map Prod.fst).map Call.key).toFinset
        ⊆ (calls.map Call.key).toFinset := by
      intro key hkey
      rw [List.mem_toFinset] at hkey ⊢
      exact (hsub.map Call.key).subset hkey
    have hfew' := (Finset.card_le_card hkeys).trans hfew
    rw [results_eq_map chrono windowDuration hdoc hlimit hfew] at hdrop
    obtain ⟨hresults, hafter⟩ := dropsSilent_run (P := fun _ => True) (fun _ _ _ => trivial)
      (fun windows call _ h => mapStep_denied chrono limit windowDuration windows call h)
      trivial hdrop
    refine ⟨?_, fun key => ?_⟩
    · rw [results_eq_map chrono windowDuration hdoc hlimit hfew']
      exact hresults
    · rw [lookup_after_eq_map chrono windowDuration hdoc hlimit hC hfew,
        lookup_after_eq_map chrono windowDuration hdoc hlimit hC hfew', hafter]

/-- `deny_does_not_mutate_state`, with a second client: the denied retries of
    `alice` are deleted, the one at the end of her window is not. -/
theorem denied_calls_leave_no_trace_retries :
    let limiter : RateLimiter (LRUCache.reference String RateLimitWindow) := .new 1 1000 2
    let calls : List (Call String) :=
      [⟨"alice", 0⟩, ⟨"alice", 1⟩, ⟨"bob", 2⟩, ⟨"alice", 3⟩, ⟨"alice", 1000000000⟩]
    limiter.results .exact [⟨"alice", 0⟩, ⟨"bob", 2⟩, ⟨"alice", 1000000000⟩]
        = [(⟨"alice", 0⟩, true), (⟨"bob", 2⟩, true), (⟨"alice", 1000000000⟩, true)] ∧
      ∀ key,
        ((limiter.after .exact [⟨"alice", 0⟩, ⟨"bob", 2⟩, ⟨"alice", 1000000000⟩]).cache_).lookup key
          = ((limiter.after .exact calls).cache_).lookup key := by
  intro limiter calls
  have hresults : limiter.results .exact calls
      = [(⟨"alice", 0⟩, true), (⟨"alice", 1⟩, false), (⟨"bob", 2⟩, true),
        (⟨"alice", 3⟩, false), (⟨"alice", 1000000000⟩, true)] := by decide
  have hdrop : DropsSilent (· = false) (limiter.results .exact calls)
      [(⟨"alice", 0⟩, true), (⟨"bob", 2⟩, true), (⟨"alice", 1000000000⟩, true)] := by
    rw [hresults]
    exact .keep _ (.drop _ (by rfl) (.keep _ (.drop _ (by rfl) (.keep _ .nil))))
  exact denied_calls_leave_no_trace LRUCache.reference_documented .exact 1 1000
    (show 0 < 2 by decide) calls (by decide) hdrop

end RateThrottle
