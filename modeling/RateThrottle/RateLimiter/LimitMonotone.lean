/-
  RateThrottle.RateLimiter.LimitMonotone

  Raising the limit never hurts.

  Two limiters that differ only in `requestsPerWindow` run in lockstep: whether
  a window is opened, and which key is evicted, never depends on the limit, so
  both caches hold the same keys in the same recency order with the same window
  starts, and the smaller limit merely caps the counts (`CappedBy`).
-/

import RateThrottle.RateLimiter.Refinement

namespace RateThrottle

variable {K : Type} [DecidableEq K]
variable {cache : LRUCache K RateLimitWindow} {view : cache.Store → LruStore K RateLimitWindow}

/-- The same window, its count capped at `limit`. -/
def CappedBy (limit : UInt64) (w w' : RateLimitWindow) : Prop :=
  w.windowStart = w'.windowStart ∧ w.count.toNat = min limit.toNat w'.count.toNat

/-- One call under two limits: what the smaller one accepts, the larger one
    accepts too, and the windows left behind stay capped. -/
theorem CappedBy.step {limit limit' : UInt64} (hpos : 1 ≤ limit.toNat)
    (hle : limit.toNat ≤ limit'.toNat) (chrono : Chrono) (windowDuration : Int)
    {stored stored' : Option RateLimitWindow} (h : Option.Rel (CappedBy limit) stored stored')
    (now : Int) :
    ((windowStep chrono limit windowDuration stored now).1 = true →
        (windowStep chrono limit' windowDuration stored' now).1 = true) ∧
      CappedBy limit (windowStep chrono limit windowDuration stored now).2
        (windowStep chrono limit' windowDuration stored' now).2 := by
  have hfresh : CappedBy limit ⟨now, 1⟩ ⟨now, 1⟩ := by
    refine ⟨rfl, ?_⟩
    simp only [UInt64.reduceToNat]
    omega
  have hdec := windowStep_decision chrono limit windowDuration now stored
  have hdec' := windowStep_decision chrono limit' windowDuration now stored'
  generalize windowStep chrono limit windowDuration stored now = r at hdec ⊢
  generalize windowStep chrono limit' windowDuration stored' now = r' at hdec' ⊢
  cases h with
  | none =>
      cases hdec
      cases hdec'
      exact ⟨fun _ => rfl, hfresh⟩
  | @some w w' hw =>
      obtain ⟨hstart, hcount⟩ := hw
      -- the expiry test reads the start only, so both open or neither does
      cases hdec with
      | opened _ hgone =>
          have hexp := hgone w rfl
          cases hdec' with
          | opened _ _ => exact ⟨fun _ => rfl, hfresh⟩
          | counted _ hlive' _ => simp [← hstart, hexp] at hlive'
          | denied _ hlive' _ => simp [← hstart, hexp] at hlive'
      | counted _ hlive hroom =>
          have hlt := UInt64.lt_iff_toNat_lt.mp hroom
          cases hdec' with
          | opened _ hgone' => simp [← hstart, hlive] at hgone'
          | counted _ _ hroom' =>
              refine ⟨fun _ => rfl, hstart, ?_⟩
              simp only [toNat_count_succ hroom, toNat_count_succ hroom']
              omega
          | denied _ _ hfull' =>
              -- a count below the smaller limit is not capped, hence below the larger
              have hge := UInt64.le_iff_toNat_le.mp hfull'
              omega
      | denied _ hlive hfull =>
          have hge := UInt64.le_iff_toNat_le.mp hfull
          cases hdec' with
          | opened _ hgone' => simp [← hstart, hlive] at hgone'
          | counted _ _ hroom' =>
              refine ⟨fun hfalse => by simp at hfalse, hstart, ?_⟩
              simp only [toNat_count_succ hroom']
              omega
          | denied _ _ _ => exact ⟨fun hfalse => by simp at hfalse, hstart, hcount⟩

/-- **Raising the limit never hurts.** Every call accepted under `limit` is
    accepted under `limit'`; for a non-zero `limit` both caches hold the same
    keys in the same recency order with the same window starts, and each count
    is the minimum of `limit` and the count under `limit'`. -/
theorem results_mono_limit (hdoc : cache.Documented view) (chrono : Chrono)
    {limit limit' : UInt64} (hle : limit ≤ limit') (windowDuration : Int) {C : Nat} (hC : 0 < C)
    (calls : List (Call K)) :
    let smaller : RateLimiter cache := .new limit windowDuration C
    let larger : RateLimiter cache := .new limit' windowDuration C
    List.Forall₂ (fun e e' => e.1 = e'.1 ∧ (e.2 = true → e'.2 = true))
        (smaller.results chrono calls) (larger.results chrono calls) ∧
      (1 ≤ limit →
        List.Forall₂ (fun e e' => e.1 = e'.1 ∧ e.2.windowStart = e'.2.windowStart ∧
            e.2.count.toNat = min limit.toNat e'.2.count.toNat)
          (view (smaller.after chrono calls).cache_).entries
          (view (larger.after chrono calls).cache_).entries) := by
  intro smaller larger
  have hlen := UInt64.le_iff_toNat_le.mp hle
  by_cases hzero : limit = 0
  · subst hzero
    refine ⟨?_, fun hpos => by simp at hpos⟩
    refine (Mealy.simulation
      (R := fun (self _ : RateLimiter cache) => self.requestsPerWindow_ = 0)
      (O := fun b b' => b = true → b' = true) (fun self self' call h => ?_) rfl calls).1
    have hdeny : RateLimiter.step chrono self call = (false, self) :=
      RateLimiter.allow_zero chrono h call.key call.now
    rw [hdeny]
    exact ⟨fun hfalse => by simp at hfalse, h⟩
  · have hpos := one_le_toNat hzero
    have hzero' : limit' ≠ 0 := by
      rintro rfl
      simp at hlen
      omega
    have hupdate : ∀ (v v' : Option RateLimitWindow) (call : Call K),
        Option.Rel (CappedBy limit) v v' →
          ((windowUpdate chrono limit windowDuration v call).1 = true →
            (windowUpdate chrono limit' windowDuration v' call).1 = true) ∧
          CappedBy limit (windowUpdate chrono limit windowDuration v call).2
            (windowUpdate chrono limit' windowDuration v' call).2 :=
      fun _ _ call h => CappedBy.step hpos hlen chrono windowDuration h call.now
    have hrun := KeyedRun.cached_related Call.key _ (O := fun b b' => b = true → b' = true)
      hupdate C calls
    rw [RateLimiter.results_eq_cached hdoc chrono hzero windowDuration hC,
      RateLimiter.results_eq_cached hdoc chrono hzero' windowDuration hC,
      (RateLimiter.represents_after hdoc chrono hzero windowDuration hC calls).view_eq,
      (RateLimiter.represents_after hdoc chrono hzero' windowDuration hC calls).view_eq]
    exact ⟨hrun.1, fun _ => hrun.2.entries_rel⟩

/-- Limits 1 and 2 over a run with an eviction and an expiry. -/
theorem results_mono_limit_one_two :
    let calls : List (Call String) :=
      [⟨"k1", 0⟩, ⟨"k1", 0⟩, ⟨"k2", 0⟩, ⟨"k3", 0⟩, ⟨"k3", 5⟩, ⟨"k1", 0⟩, ⟨"k3", 1000000⟩]
    let smaller : RateLimiter (LRUCache.reference String RateLimitWindow) := .new 1 1 2
    let larger : RateLimiter (LRUCache.reference String RateLimitWindow) := .new 2 1 2
    List.Forall₂ (fun e e' => e.1 = e'.1 ∧ (e.2 = true → e'.2 = true))
        (smaller.results .exact calls) (larger.results .exact calls) ∧
      ((1 : UInt64) ≤ 1 →
        List.Forall₂ (fun e e' => e.1 = e'.1 ∧ e.2.windowStart = e'.2.windowStart ∧
            e.2.count.toNat = min (1 : UInt64).toNat e'.2.count.toNat)
          (smaller.after .exact calls).cache_.entries
          (larger.after .exact calls).cache_.entries) :=
  results_mono_limit LRUCache.reference_documented .exact (show (1 : UInt64) ≤ 2 by decide) 1
    (show 0 < 2 by decide) _

end RateThrottle
