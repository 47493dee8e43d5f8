/-
  RateThrottle.RateLimiter.Capacity

  What an undersized cache costs a key.

  Two limiters that differ only in `cacheCapacity` process the same run.  An
  eviction gives the key a fresh window, but it also moves the phase of all its
  later windows, and a request that the larger cache counts in a new window may
  then meet a full one.  So the smaller capacity can cost a key accepted
  requests; how many is bounded by comparing the two runs call by call
  (`Balance`): never half of them, and none at all for a limit of one.
-/

import Mathlib.Tactic.Linarith
import Mathlib.Tactic.Ring
import RateThrottle.RateLimiter.Refinement

namespace RateThrottle

/-! ## The balance of two runs -/

/-- What two runs of one key owe each other.  The first accepted `a` calls and
    last opened a window at `start` that counts `count` of them, the second `b`
    calls, with `start'` and `count'`.  The first may lag behind by less than
    half, and by less when its window is the newer one or when the second has
    just opened a window. -/
structure Balance (L a b start count start' count' : Int) : Prop where
  count_pos : 1 ≤ count
  count_le : count ≤ L
  count_pos' : 1 ≤ count'
  count_le' : count' ≤ L
  /-- The accepted calls of the two runs. -/
  lead : (L + 1) * b ≤ 2 * L * a
  lead_opened : count' = 1 → (L + 1) * b + (L - 1) ≤ 2 * L * a
  /-- The calls accepted before the two windows. -/
  settled : (L + 1) * (b - count') ≤ 2 * L * (a - count) + L * (L - 1)
  settled_ahead : start' < start → (L + 1) * (b - count') + 2 * L ≤ 2 * L * (a - count)

namespace Balance

variable {L a b s c s' c' now : Int}

theorem limit_pos (h : Balance L a b s c s' c') : 1 ≤ L := h.count_pos.trans h.count_le

/-- Both runs open their first window with the same call. -/
theorem first (hL : 1 ≤ L) : Balance L 1 1 now 1 now 1 where
  count_pos := le_rfl
  count_le := hL
  count_pos' := le_rfl
  count_le' := hL
  lead := by linarith
  lead_opened := fun _ => by linarith
  settled := by nlinarith
  settled_ahead := fun h => absurd h (lt_irrefl _)

theorem opened_opened (h : Balance L a b s c s' c') :
    Balance L (a + 1) (b + 1) now 1 now 1 where
  count_pos := le_rfl
  count_le := h.limit_pos
  count_pos' := le_rfl
  count_le' := h.limit_pos
  lead := by linarith [h.lead, h.limit_pos]
  lead_opened := fun _ => by linarith [h.lead]
  settled := by nlinarith [h.lead, h.limit_pos]
  settled_ahead := fun h => absurd h (lt_irrefl _)

theorem opened_counted (h : Balance L a b s c s' c') (hroom : c' < L) :
    Balance L (a + 1) (b + 1) now 1 s' (c' + 1) where
  count_pos := le_rfl
  count_le := h.limit_pos
  count_pos' := by linarith [h.count_pos']
  count_le' := hroom
  lead := by linarith [h.lead, h.limit_pos]
  lead_opened := fun hone => by linarith [h.count_pos']
  settled := by nlinarith [h.lead, h.limit_pos, h.count_pos']
  settled_ahead := fun _ => by
    rcases h.count_pos'.eq_or_lt with hone | hmore
    · nlinarith [h.lead_opened hone.symm]
    · nlinarith [h.lead, h.limit_pos]

theorem opened_denied (h : Balance L a b s c s' c') (hfull : L ≤ c') :
    Balance L (a + 1) b now 1 s' c' where
  count_pos := le_rfl
  count_le := h.limit_pos
  count_pos' := h.count_pos'
  count_le' := h.count_le'
  lead := by linarith [h.lead, h.limit_pos]
  lead_opened := fun _ => by linarith [h.lead, h.limit_pos]
  settled := by nlinarith [h.lead, h.limit_pos, h.count_pos']
  settled_ahead := fun _ => by nlinarith [h.lead, h.limit_pos, h.count_pos']

theorem counted_opened (h : Balance L a b s c s' c') (hroom : c < L) (hahead : s' < s)
    (hle : s ≤ now) : Balance L (a + 1) (b + 1) s (c + 1) now 1 where
  count_pos := by linarith [h.count_pos]
  count_le := hroom
  count_pos' := le_rfl
  count_le' := h.limit_pos
  lead := by linarith [h.lead, h.limit_pos]
  lead_opened := fun _ => by linarith [h.lead]
  settled := by nlinarith [h.settled_ahead hahead, h.count_le', h.limit_pos]
  settled_ahead := fun hlt => absurd hlt (not_lt.mpr hle)

theorem denied_opened (h : Balance L a b s c s' c') (hfull : L ≤ c) (hahead : s' < s)
    (hle : s ≤ now) : Balance L a (b + 1) s c now 1 where
  count_pos := h.count_pos
  count_le := h.count_le
  count_pos' := le_rfl
  count_le' := h.limit_pos
  lead := by nlinarith [h.settled_ahead hahead, h.count_le', h.limit_pos]
  lead_opened := fun _ => by
    nlinarith [h.settled_ahead hahead, h.count_le', h.limit_pos]
  settled := by nlinarith [h.settled_ahead hahead, h.count_le', h.limit_pos]
  settled_ahead := fun hlt => absurd hlt (not_lt.mpr hle)

theorem counted_counted (h : Balance L a b s c s' c') (hroom : c < L) (hroom' : c' < L) :
    Balance L (a + 1) (b + 1) s (c + 1) s' (c' + 1) where
  count_pos := by linarith [h.count_pos]
  count_le := hroom
  count_pos' := by linarith [h.count_pos']
  count_le' := hroom'
  lead := by linarith [h.lead, h.limit_pos]
  lead_opened := fun hone => by linarith [h.count_pos']
  settled := by linarith [h.settled]
  settled_ahead := fun hlt => by linarith [h.settled_ahead hlt]

theorem counted_denied (h : Balance L a b s c s' c') (hroom : c < L) :
    Balance L (a + 1) b s (c + 1) s' c' where
  count_pos := by linarith [h.count_pos]
  count_le := hroom
  count_pos' := h.count_pos'
  count_le' := h.count_le'
  lead := by linarith [h.lead, h.limit_pos]
  lead_opened := fun hone => by linarith [h.lead_opened hone, h.limit_pos]
  settled := by linarith [h.settled]
  settled_ahead := fun hlt => by linarith [h.settled_ahead hlt]

theorem denied_counted (h : Balance L a b s c s' c') (hfull : L ≤ c) (hroom' : c' < L) :
    Balance L a (b + 1) s c s' (c' + 1) where
  count_pos := h.count_pos
  count_le := h.count_le
  count_pos' := by linarith [h.count_pos']
  count_le' := hroom'
  lead := by nlinarith [h.settled, h.limit_pos]
  lead_opened := fun hone => by linarith [h.count_pos']
  settled := by linarith [h.settled]
  settled_ahead := fun hlt => by linarith [h.settled_ahead hlt]

end Balance

/-! ## One call of the key in both runs -/

/-- `Balance` of two windows. -/
def Balanced (limit : UInt64) (a b : Int) (w w' : RateLimitWindow) : Prop :=
  Balance limit.toNat a b w.windowStart w.count.toNat w'.windowStart w'.count.toNat

/-- A call keeps the balance.  Each run has its last window in the store or has
    lost it, and what the larger cache lost the smaller one lost too. -/
theorem Balanced.step {limit : UInt64} {windowDuration now a b : Int}
    {stored stored' : Option RateLimitWindow} {w w' : RateLimitWindow}
    (hstored : stored = none ∨ stored = some w) (hstored' : stored' = none ∨ stored' = some w')
    (hevicted : stored' = none → stored = none) (hle : w.windowStart ≤ now)
    (hle' : w'.windowStart ≤ now) (h : Balanced limit a b w w') :
    Balanced limit
      (a + if (windowStep .exact limit windowDuration stored now).1 then 1 else 0)
      (b + if (windowStep .exact limit windowDuration stored' now).1 then 1 else 0)
      (windowStep .exact limit windowDuration stored now).2
      (windowStep .exact limit windowDuration stored' now).2 := by
  have hdec := windowStep_decision .exact limit windowDuration now stored
  have hdec' := windowStep_decision .exact limit windowDuration now stored'
  generalize windowStep .exact limit windowDuration stored now = r at hdec ⊢
  generalize windowStep .exact limit windowDuration stored' now = r' at hdec' ⊢
  -- a window of the first run that is live when the second opens one is the newer
  have hahead : ∀ v, stored = some v →
      Chrono.exact.expired windowDuration now v.windowStart = false →
      (∀ v', stored' = some v' → Chrono.exact.expired windowDuration now v'.windowStart = true) →
        w'.windowStart < v.windowStart := by
    intro v hv hlive hgone'
    rcases hstored' with hnone | hsome
    · rw [hevicted hnone] at hv
      exact nomatch hv
    · have hexp := (Chrono.expired_exact _ _ _).mp (hgone' w' hsome)
      have hnot := mt (Chrono.expired_exact _ _ _).mpr (Bool.eq_false_iff.mp hlive)
      omega
  have hlast : ∀ v, stored = some v → v = w := by
    rintro v rfl
    simpa using hstored
  have hlast' : ∀ v, stored' = some v → v = w' := by
    rintro v rfl
    simpa using hstored'
  unfold Balanced at h ⊢
  cases hdec with
  | opened _ _ =>
      cases hdec' with
      | opened _ _ => exact h.opened_opened
      | counted v' _ hroom' =>
          obtain rfl := hlast' v' rfl
          have hlt := UInt64.lt_iff_toNat_lt.mp hroom'
          have hnext : Balance limit.toNat (a + 1) (b + 1) now 1 v'.windowStart
              (v'.count.toNat + 1) :=
            h.opened_counted (by omega)
          simpa [toNat_count_succ hroom'] using hnext
      | denied v' _ hfull' =>
          obtain rfl := hlast' v' rfl
          have hge := UInt64.le_iff_toNat_le.mp hfull'
          have hnext : Balance limit.toNat (a + 1) b now 1 v'.windowStart v'.count.toNat :=
            h.opened_denied (by omega)
          simpa using hnext
  | counted v hlive hroom =>
      have hlt := UInt64.lt_iff_toNat_lt.mp hroom
      cases hdec' with
      | opened _ hgone' =>
          have hnewer := hahead v rfl hlive hgone'
          obtain rfl := hlast v rfl
          have hnext := h.counted_opened (by omega) hnewer hle
          simpa [toNat_count_succ hroom] using hnext
      | counted v' _ hroom' =>
          obtain rfl := hlast v rfl
          obtain rfl := hlast' v' rfl
          have hlt' := UInt64.lt_iff_toNat_lt.mp hroom'
          have hnext := h.counted_counted (by omega) (by omega)
          simpa [toNat_count_succ hroom, toNat_count_succ hroom'] using hnext
      | denied v' _ _ =>
          obtain rfl := hlast v rfl
          obtain rfl := hlast' v' rfl
          have hnext := h.counted_denied (by omega)
          simpa [toNat_count_succ hroom] using hnext
  | denied v hlive hfull =>
      have hge := UInt64.le_iff_toNat_le.mp hfull
      cases hdec' with
      | opened _ hgone' =>
          have hnewer := hahead v rfl hlive hgone'
          obtain rfl := hlast v rfl
          simpa using h.denied_opened (by omega) hnewer hle
      | counted v' _ hroom' =>
          obtain rfl := hlast v rfl
          obtain rfl := hlast' v' rfl
          have hlt' := UInt64.lt_iff_toNat_lt.mp hroom'
          have hnext := h.denied_counted (by omega) (by omega)
          simpa [toNat_count_succ hroom'] using hnext
      | denied v' _ _ =>
          obtain rfl := hlast v rfl
          obtain rfl := hlast' v' rfl
          simpa using h

/-! ## Whole runs -/

variable {K : Type} [DecidableEq K] {cache : LRUCache K RateLimitWindow}
  {view : cache.Store → LruStore K RateLimitWindow}

/-- What the larger cache no longer holds the smaller one does not hold either. -/
theorem storedWindow_none_of_le (limit : UInt64) (windowDuration : Int) {C C' : Nat} (hC : 0 < C)
    (hle : C ≤ C') (calls : List (Call K)) (key : K)
    (hnone : storedWindow .exact limit windowDuration C' calls key = none) :
    storedWindow .exact limit windowDuration C calls key = none := by
  induction calls using List.reverseRecOn with
  | nil => rfl
  | append_singleton calls call ih =>
      by_cases hkey : key = call.key
      · subst hkey
        rw [storedWindow_concat_self .exact windowDuration (hC.trans_le hle)] at hnone
        exact nomatch hnone
      · rw [storedWindow_concat_of_ne .exact windowDuration (hC.trans_le hle) calls hkey] at hnone
        rw [storedWindow_concat_of_ne .exact windowDuration hC calls hkey]
        by_cases hfar : C ≤ Recency.reuseDistance ((calls ++ [call]).map Call.key).reverse key
        · exact if_pos hfar
        · -- too near for the smaller capacity, all the more for the larger
          rw [if_neg (fun hfar' => hfar (hle.trans hfar'))] at hnone
          rw [if_neg hfar]
          exact ih hnone

/-- The last windows of `key` in two runs with their accepted calls in balance. -/
structure LastWindows (limit : UInt64) (windowDuration : Int) (C C' : Nat) (calls : List (Call K))
    (key : K) (a b : Int) (w w' : RateLimitWindow) : Prop where
  stored : storedWindow .exact limit windowDuration C calls key = none ∨
    storedWindow .exact limit windowDuration C calls key = some w
  stored' : storedWindow .exact limit windowDuration C' calls key = none ∨
    storedWindow .exact limit windowDuration C' calls key = some w'
  start_mem : w.windowStart ∈ timesOn key calls
  start_mem' : w'.windowStart ∈ timesOn key calls
  balanced : Balanced limit a b w w'

variable (cache) in
/-- The accepted calls on `key` in a run at a given capacity. -/
def acceptedAt (limit : UInt64) (windowDuration : Int) (capacity : Nat) (calls : List (Call K))
    (key : K) : Nat :=
  acceptedCalls (fun c => c.key = key)
    ((RateLimiter.new limit windowDuration capacity : RateLimiter cache).results .exact calls)

theorem acceptedAt_concat_self (hdoc : cache.Documented view) {limit : UInt64} (hlimit : limit ≠ 0)
    (windowDuration : Int) {C : Nat} (hC : 0 < C) (calls : List (Call K)) (call : Call K) :
    (acceptedAt cache limit windowDuration C (calls ++ [call]) call.key : Int)
      = acceptedAt cache limit windowDuration C calls call.key
        + if (windowStep .exact limit windowDuration
            (storedWindow .exact limit windowDuration C calls call.key) call.now).1
          then 1 else 0 := by
  rw [acceptedAt, results_concat .exact windowDuration hdoc hlimit hC, acceptedCalls_concat]
  simp [acceptedAt]

theorem acceptedAt_concat_of_ne (hdoc : cache.Documented view) {limit : UInt64}
    (hlimit : limit ≠ 0) (windowDuration : Int) {C : Nat} (hC : 0 < C) (calls : List (Call K))
    {call : Call K} {key : K} (hne : key ≠ call.key) :
    acceptedAt cache limit windowDuration C (calls ++ [call]) key
      = acceptedAt cache limit windowDuration C calls key := by
  rw [acceptedAt, results_concat .exact windowDuration hdoc hlimit hC, acceptedCalls_concat]
  simp [acceptedAt, Ne.symm hne]

/-- Before its first call a key is stored in neither run, afterwards its last
    windows balance. -/
theorem lastWindows_run (hdoc : cache.Documented view) {limit : UInt64} (hlimit : 1 ≤ limit)
    (windowDuration : Int) {C C' : Nat} (hC : 0 < C) (hle : C ≤ C') (key : K)
    {calls : List (Call K)} (hmono : (timesOn key calls).Pairwise (· ≤ ·)) :
    (storedWindow .exact limit windowDuration C calls key = none ∧
        storedWindow .exact limit windowDuration C' calls key = none ∧
        acceptedAt cache limit windowDuration C calls key = 0 ∧
        acceptedAt cache limit windowDuration C' calls key = 0) ∨
      ∃ w w', LastWindows limit windowDuration C C' calls key
        (acceptedAt cache limit windowDuration C calls key)
        (acceptedAt cache limit windowDuration C' calls key) w w' := by
  have hne := limit_ne_zero hlimit
  have hC' : 0 < C' := hC.trans_le hle
  induction calls using List.reverseRecOn with
  | nil => exact Or.inl ⟨rfl, rfl, rfl, rfl⟩
  | append_singleton calls call ih =>
      by_cases hkey : key = call.key
      · subst hkey
        rw [timesOn_concat_self, List.pairwise_append] at hmono
        have hlast : ∀ t ∈ timesOn call.key calls, t ≤ call.now :=
          fun t ht => hmono.2.2 t ht _ (List.mem_singleton_self _)
        have hself : storedWindow .exact limit windowDuration C (calls ++ [call]) call.key
            = some _ :=
          storedWindow_concat_self .exact windowDuration hC calls call
        have hself' : storedWindow .exact limit windowDuration C' (calls ++ [call]) call.key
            = some _ :=
          storedWindow_concat_self .exact windowDuration hC' calls call
        rcases ih hmono.1 with ⟨hnone, hnone', hzero, hzero'⟩ | ⟨w, w', h⟩
        · -- the first call on the key opens the same window in both runs
          rw [hnone] at hself
          rw [hnone'] at hself'
          have hmem : call.now ∈ timesOn call.key (calls ++ [call]) := by
            rw [timesOn_concat_self]
            exact List.mem_append_right _ (List.mem_singleton_self _)
          refine Or.inr ⟨⟨call.now, 1⟩, ⟨call.now, 1⟩, Or.inr hself, Or.inr hself', hmem, hmem, ?_⟩
          rw [acceptedAt_concat_self hdoc hne windowDuration hC, hnone, hzero,
            acceptedAt_concat_self hdoc hne windowDuration hC', hnone', hzero']
          have hpos := one_le_toNat hne
          exact Balance.first (by omega)
        · refine Or.inr ⟨_, _, Or.inr hself, Or.inr hself', ?_, ?_, ?_⟩
          · rw [timesOn_concat_self]
            exact windowStep_start_mem
              (storedWindow_start_mem .exact windowDuration hC calls call.key)
          · rw [timesOn_concat_self]
            exact windowStep_start_mem
              (storedWindow_start_mem .exact windowDuration hC' calls call.key)
          · rw [acceptedAt_concat_self hdoc hne windowDuration hC,
              acceptedAt_concat_self hdoc hne windowDuration hC']
            exact h.balanced.step h.stored h.stored'
              (storedWindow_none_of_le limit windowDuration hC hle calls call.key)
              (hlast _ h.start_mem) (hlast _ h.start_mem')
      · rw [timesOn_concat_of_ne calls hkey] at hmono
        -- a call on another key can only evict the last windows
        have hkept : ∀ {capacity : Nat}, 0 < capacity → ∀ v : RateLimitWindow,
            storedWindow .exact limit windowDuration capacity calls key = none ∨
              storedWindow .exact limit windowDuration capacity calls key = some v →
            storedWindow .exact limit windowDuration capacity (calls ++ [call]) key = none ∨
              storedWindow .exact limit windowDuration capacity (calls ++ [call]) key = some v := by
          intro capacity hcapacity v hv
          rw [storedWindow_concat_of_ne .exact windowDuration hcapacity calls hkey]
          split
          · exact Or.inl rfl
          · exact hv
        rw [acceptedAt_concat_of_ne hdoc hne windowDuration hC calls hkey,
          acceptedAt_concat_of_ne hdoc hne windowDuration hC' calls hkey]
        rcases ih hmono with ⟨hnone, hnone', hzero, hzero'⟩ | ⟨w, w', h⟩
        · refine Or.inl ⟨?_, ?_, hzero, hzero'⟩
          · rw [storedWindow_concat_of_ne .exact windowDuration hC calls hkey, hnone, ite_self]
          · rw [storedWindow_concat_of_ne .exact windowDuration hC' calls hkey, hnone', ite_self]
        · refine Or.inr ⟨w, w', hkept hC w h.stored, hkept hC' w' h.stored', ?_, ?_, h.balanced⟩
          · rw [timesOn_concat_of_ne calls hkey]
            exact h.start_mem
          · rw [timesOn_concat_of_ne calls hkey]
            exact h.start_mem'

/-! ## What an undersized cache costs -/

/-- One call opens the window of `k`, a call on `j` evicts it at capacity 1, the
    rest of the limit is called just before the end of the window and the limit
    once more at its end. -/
def shiftedCalls (limit : Nat) (window : Int) (j k : K) : List (Call K) :=
  [⟨k, 0⟩, ⟨j, 0⟩] ++ List.replicate (limit - 1) ⟨k, window - 1⟩ ++ List.replicate limit ⟨k, window⟩

/-- The first two calls accept one request on `k`, and leave its window only
    where a second key fits. -/
theorem after_evicting (hdoc : cache.Documented view) {limit : UInt64} (hlimit : limit ≠ 0)
    (windowDuration : Int) {C : Nat} (hC : 0 < C) {j k : K} (hne : j ≠ k) :
    acceptedAt cache limit windowDuration C [⟨k, 0⟩, ⟨j, 0⟩] k = 1 ∧
      storedWindow .exact limit windowDuration C [⟨k, 0⟩, ⟨j, 0⟩] k
        = if C ≤ 1 then none else some ⟨0, 1⟩ := by
  have hself : acceptedAt cache limit windowDuration C [⟨k, 0⟩] k = 1 := by
    have h := acceptedAt_concat_self hdoc hlimit windowDuration hC [] ⟨k, 0⟩
    exact_mod_cast h
  have hfirst : storedWindow .exact limit windowDuration C [⟨k, 0⟩] k = some ⟨0, 1⟩ :=
    storedWindow_concat_self .exact windowDuration hC [] ⟨k, 0⟩
  have hdistance : Recency.reuseDistance (([⟨k, 0⟩, ⟨j, 0⟩] : List (Call K)).map Call.key).reverse k
      = 1 := by
    simp [Recency.reuseDistance, hne]
  have haccepted : acceptedAt cache limit windowDuration C ([⟨k, 0⟩] ++ [⟨j, 0⟩]) k
      = acceptedAt cache limit windowDuration C [⟨k, 0⟩] k :=
    acceptedAt_concat_of_ne hdoc hlimit windowDuration hC [⟨k, 0⟩] hne.symm
  have hstored : storedWindow .exact limit windowDuration C ([⟨k, 0⟩] ++ [⟨j, 0⟩]) k = _ :=
    storedWindow_concat_of_ne .exact windowDuration hC [⟨k, 0⟩] hne.symm
  rw [hself] at haccepted
  rw [hfirst] at hstored
  simp only [List.cons_append, List.nil_append] at haccepted hstored
  simp only [hdistance] at hstored
  exact ⟨haccepted, hstored⟩

/-- Expiry of a window opened at `s`, in the exact arithmetic. -/
theorem live_of_lt {windowDuration now s : Int} (h : now < s + nanos windowDuration) :
    Chrono.exact.expired windowDuration now s = false := by
  rw [Bool.eq_false_iff, ne_eq, Chrono.expired_exact]
  omega

/-- At capacity 2 the window opened first is full just before its end, and
    another one follows. -/
theorem acceptedAt_shifted_large (hdoc : cache.Documented view) {limit : UInt64}
    (hlimit : limit ≠ 0) {windowDuration : Int} (hwindow : 0 < windowDuration) {j k : K}
    (hne : j ≠ k) :
    acceptedAt cache limit windowDuration 2
      (shiftedCalls limit.toNat (nanos windowDuration) j k) k = 2 * limit.toNat := by
  have hnanos := nanos_pos hwindow
  have hpos := one_le_toNat hlimit
  obtain ⟨haccepted, hstored⟩ := after_evicting hdoc hlimit windowDuration Nat.two_pos hne
  obtain ⟨w, hw, hstart, hcount, hfilled⟩ := storedWindow_replicate (w := ⟨0, 1⟩) .exact
    windowDuration hdoc hlimit Nat.two_pos [⟨k, 0⟩, ⟨j, 0⟩] hstored
    (live_of_lt (show nanos windowDuration - 1 < 0 + nanos windowDuration by omega)) hpos
    (limit.toNat - 1)
  obtain ⟨n, hn⟩ : ∃ n, limit.toNat = n + 1 := ⟨limit.toNat - 1, by omega⟩
  obtain ⟨-, -, -, -, hreopened⟩ := storedWindow_open_replicate .exact windowDuration hdoc hlimit
    Nat.two_pos _ (t := nanos windowDuration) (n := n)
    (fun v hv => by
      obtain rfl := Option.some.inj (hw.symm.trans hv)
      rw [Chrono.expired_exact, hstart]
      show 0 + nanos windowDuration ≤ nanos windowDuration
      omega)
    (live_of_lt (by omega)) (by omega)
  simp only [UInt64.reduceToNat] at hcount hfilled
  unfold acceptedAt at haccepted ⊢
  unfold shiftedCalls
  rw [hn] at hcount hfilled hreopened ⊢
  rw [hreopened]
  omega

/-- At capacity 1 the window opened first is lost, and the next one is full
    after one call at the end of the first. -/
theorem acceptedAt_shifted_small (hdoc : cache.Documented view) {limit : UInt64}
    (hlimit : limit ≠ 0) {windowDuration : Int} (hwindow : 0 < windowDuration) {j k : K}
    (hne : j ≠ k) :
    acceptedAt cache limit windowDuration 1
      (shiftedCalls limit.toNat (nanos windowDuration) j k) k = limit.toNat + 1 := by
  have hnanos : 1 < nanos windowDuration := by
    rw [nanos]
    omega
  obtain ⟨haccepted, hstored⟩ := after_evicting hdoc hlimit windowDuration Nat.one_pos hne
  have hgone : ∀ (t : Int) (v : RateLimitWindow),
      storedWindow .exact limit windowDuration 1 [⟨k, 0⟩, ⟨j, 0⟩] k = some v →
        Chrono.exact.expired windowDuration t v.windowStart = true := by
    intro t v hv
    rw [hstored] at hv
    simp at hv
  unfold acceptedAt at haccepted ⊢
  unfold shiftedCalls
  obtain hone | ⟨n, hn⟩ : limit.toNat = 1 ∨ ∃ n, limit.toNat = n + 2 := by
    have hpos := one_le_toNat hlimit
    rcases Nat.eq_or_lt_of_le hpos with h | h
    · exact Or.inl h.symm
    · exact Or.inr ⟨limit.toNat - 2, by omega⟩
  · -- with a limit of one nothing is called before the end of the window
    obtain ⟨-, -, -, -, hopened⟩ := storedWindow_open_replicate .exact windowDuration hdoc hlimit
      Nat.one_pos [⟨k, 0⟩, ⟨j, 0⟩] (hgone (nanos windowDuration))
      (live_of_lt (by omega)) (show 0 + 1 ≤ limit.toNat by omega)
    rw [hone]
    simp only [Nat.sub_self, List.replicate_zero, List.append_nil]
    rw [hopened, haccepted]
  · obtain ⟨w, hw, hstart, hcount, hopened⟩ := storedWindow_open_replicate .exact windowDuration
      hdoc hlimit Nat.one_pos [⟨k, 0⟩, ⟨j, 0⟩] (hgone (nanos windowDuration - 1))
      (live_of_lt (by omega)) (show n + 1 ≤ limit.toNat by omega)
    obtain ⟨w', -, -, hcount', hfilled⟩ := storedWindow_replicate .exact windowDuration hdoc hlimit
      Nat.one_pos _ hw
      (live_of_lt (show nanos windowDuration < w.windowStart + nanos windowDuration by omega))
      (by omega) limit.toNat
    rw [hopened] at hfilled
    rw [hn, show n + 2 - 1 = n + 1 by omega]
    rw [hn] at hfilled hcount'
    omega

/-- The bound of `accepted_undersized` is attained at every limit. -/
theorem accepted_undersized_attained (hdoc : cache.Documented view) {limit : UInt64}
    (hlimit : 1 ≤ limit) {windowDuration : Int} (hwindow : 0 < windowDuration) {j k : K}
    (hne : j ≠ k) :
    ∃ calls : List (Call K), (calls.map Call.now).Pairwise (· ≤ ·) ∧
      0 < acceptedAt cache limit windowDuration 2 calls k ∧
      (limit.toNat + 1) * acceptedAt cache limit windowDuration 2 calls k
        = 2 * limit.toNat * acceptedAt cache limit windowDuration 1 calls k := by
  have hzero := limit_ne_zero hlimit
  have hpos := one_le_toNat hzero
  have hnanos := nanos_pos hwindow
  refine ⟨shiftedCalls limit.toNat (nanos windowDuration) j k, ?_, ?_, ?_⟩
  · simp only [shiftedCalls, List.map_append, List.map_replicate, List.map_cons, List.map_nil,
      List.pairwise_append, List.pairwise_replicate, List.mem_append, List.mem_replicate]
    refine ⟨⟨by simp, Or.inr le_rfl, ?_⟩, Or.inr le_rfl, ?_⟩
    · rintro a ha b ⟨-, rfl⟩
      obtain rfl : a = 0 := by simpa using ha
      omega
    · rintro a ha b ⟨-, rfl⟩
      rcases ha with ha | ⟨-, rfl⟩
      · obtain rfl : a = 0 := by simpa using ha
        omega
      · omega
  · rw [acceptedAt_shifted_large hdoc hzero hwindow hne]
    omega
  · rw [acceptedAt_shifted_large hdoc hzero hwindow hne,
      acceptedAt_shifted_small hdoc hzero hwindow hne]
    ring

end RateThrottle
