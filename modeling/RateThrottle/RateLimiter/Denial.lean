/-
  RateThrottle.RateLimiter.Denial

  A denial is always justified by the key's own recent requests.

  The stored count is tied to the history of the run: it never exceeds the
  number of accepted calls on the key from the window's start on
  (`count_le_accepted`).  A full window is then a list of accepted requests that
  are all younger than the window duration.
-/

import RateThrottle.RateLimiter.Refinement

namespace RateThrottle

variable {K : Type} [DecidableEq K]
variable {cache : LRUCache K RateLimitWindow} {view : cache.Store → LruStore K RateLimitWindow}

/-- The window stored for `key` counts no more than the accepted calls on `key`
    from its start on. -/
theorem count_le_accepted (hdoc : cache.Documented view) {limit : UInt64} (hlimit : limit ≠ 0)
    (windowDuration : Int) {C : Nat} (hC : 0 < C) (key : K) (calls : List (Call K))
    (hmono : (timesOn key calls).Pairwise (· ≤ ·)) (w : RateLimitWindow)
    (hw : storedWindow .exact limit windowDuration C calls key = some w) :
    w.count.toNat ≤ acceptedCalls (fun c => c.key = key ∧ w.windowStart ≤ c.now)
      ((RateLimiter.new limit windowDuration C : RateLimiter cache).results .exact calls) := by
  revert hmono
  refine storedWindow_induction .exact windowDuration hC key
    (P := fun calls w => (timesOn key calls).Pairwise (· ≤ ·) →
      w.count.toNat ≤ acceptedCalls (fun c => c.key = key ∧ w.windowStart ≤ c.now)
        ((RateLimiter.new limit windowDuration C : RateLimiter cache).results .exact calls))
    (fun calls now ih => ?_) (fun calls call w hne h => ?_) calls w hw
  · intro hmono
    rw [timesOn_concat_self, List.pairwise_append] at hmono
    have hlast : ∀ t ∈ timesOn key calls, t ≤ now := fun t ht => hmono.2.2 t ht _ (by simp)
    have hstart : ∀ w, storedWindow .exact limit windowDuration C calls key = some w →
        w.windowStart ∈ timesOn key calls :=
      storedWindow_start_mem .exact windowDuration hC calls key
    rw [results_concat .exact windowDuration hdoc hlimit hC, acceptedCalls_concat]
    have hdec := windowStep_decision .exact limit windowDuration now
      (storedWindow .exact limit windowDuration C calls key)
    generalize windowStep .exact limit windowDuration
      (storedWindow .exact limit windowDuration C calls key) now = r at hdec ⊢
    generalize storedWindow .exact limit windowDuration C calls key = stored at ih hstart hdec
    cases hdec with
    | opened _ _ => simp
    | counted w _ hroom =>
        have hcount := ih w rfl hmono.1
        have hle : w.windowStart ≤ now := hlast _ (hstart w rfl)
        rw [toNat_count_succ hroom]
        simpa [hle] using hcount
    | denied w _ _ => simpa using ih w rfl hmono.1
  · intro hmono
    rw [timesOn_concat_of_ne calls hne] at hmono
    rw [results_concat .exact windowDuration hdoc hlimit hC, acceptedCalls_concat]
    exact (h hmono).trans (Nat.le_add_right _ _)

end RateThrottle
