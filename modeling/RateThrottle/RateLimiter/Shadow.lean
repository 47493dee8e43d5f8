/-
  RateThrottle.RateLimiter.Shadow

  The limiter against the shadow model of the fuzz harness
  (fuzz/fuzz_rate_limiter.cpp).

  `shadowAllow` keeps every window forever.  The harness trusts it only while
  nothing can be evicted; here it is made exact for every run by forgetting the
  window of a key at the right moment: just before a call on the key, when at
  least `cacheCapacity` distinct other keys were passed to `allow` since the
  previous call on it.
-/

import RateThrottle.RateLimiter.Refinement

namespace RateThrottle

open Mealy KeyedRun Recency

variable {K : Type} [DecidableEq K]

/-- `struct ShadowWindow`. -/
structure ShadowWindow where
  windowStart : Int
  count : UInt64
deriving DecidableEq, Repr

/-- `shadowAllow`; the `unordered_map` is a function from keys. -/
def shadowAllow (chrono : Chrono) (shadow : K → Option ShadowWindow)
    (requestsPerWindow : UInt64) (windowDuration : Int) (key : K) (now : Int) :
    Bool × (K → Option ShadowWindow) :=
  if requestsPerWindow = 0 then (false, shadow)
  else
    match shadow key with
    | none => (true, Function.update shadow key (some ⟨now, 1⟩))
    | some it =>
        if chrono.expired windowDuration now it.windowStart then
          (true, Function.update shadow key (some ⟨now, 1⟩))
        else if it.count < requestsPerWindow then
          (true, Function.update shadow key (some { it with count := it.count + 1 }))
        else
          (false, shadow)

/-- One call of a run of the shadow model. -/
def shadowStep (chrono : Chrono) (requestsPerWindow : UInt64) (windowDuration : Int)
    (shadow : K → Option ShadowWindow) (call : Call K) : Bool × (K → Option ShadowWindow) :=
  shadowAllow chrono shadow requestsPerWindow windowDuration call.key call.now

/-- The shadow model with the keys passed to `allow` so far, newest first. -/
structure ShadowRun (K : Type) where
  passed : List K
  shadow : K → Option ShadowWindow

/-- No call made, no window stored. -/
def ShadowRun.start : ShadowRun K := ⟨[], fun _ => none⟩

/-- `shadowAllow` on a map from which the window of the key is erased first when
    `cacheCapacity` distinct other keys were passed since its previous call. -/
def forgettingShadowStep (chrono : Chrono) (requestsPerWindow : UInt64) (windowDuration : Int)
    (cacheCapacity : Nat) (run : ShadowRun K) (call : Call K) : Bool × ShadowRun K :=
  let known :=
    if cacheCapacity ≤ reuseDistance run.passed call.key then
      Function.update run.shadow call.key none
    else run.shadow
  let r := shadowAllow chrono known requestsPerWindow windowDuration call.key call.now
  (r.1, ⟨call.key :: run.passed, r.2⟩)

/-! ## The shadow model decides like `windowStep` -/

/-- The limiter's window with the content of a shadow window. -/
def ShadowWindow.toWindow (w : ShadowWindow) : RateLimitWindow := ⟨w.windowStart, w.count⟩

/-- The shadow map stores the windows of `value`. -/
def Shadows (shadow : K → Option ShadowWindow) (value : K → Option RateLimitWindow) : Prop :=
  ∀ k, (shadow k).map ShadowWindow.toWindow = value k

omit [DecidableEq K] in
theorem shadows_nothing : Shadows (fun _ : K => none) (fun _ => none) := fun _ => rfl

theorem Shadows.update {shadow : K → Option ShadowWindow} {value : K → Option RateLimitWindow}
    (h : Shadows shadow value) (key : K) (w : ShadowWindow) :
    Shadows (Function.update shadow key (some w))
      (Function.update value key (some w.toWindow)) := by
  intro k
  by_cases hk : k = key
  · subst hk
    simp
  · simpa [Function.update_of_ne hk] using h k

/-- A call on a shadow map that agrees with `value` gives the decision on the
    stored window and stores the decided one. -/
theorem Shadows.step {shadow : K → Option ShadowWindow}
    {value : K → Option RateLimitWindow} (h : Shadows shadow value) (chrono : Chrono)
    {limit : UInt64} (hlimit : limit ≠ 0) (windowDuration : Int) (key : K) (now : Int) :
    (shadowAllow chrono shadow limit windowDuration key now).1
        = (windowStep chrono limit windowDuration (value key) now).1 ∧
      Shadows (shadowAllow chrono shadow limit windowDuration key now).2
        (Function.update value key
          (some (windowStep chrono limit windowDuration (value key) now).2)) := by
  have hkey := h key
  unfold shadowAllow
  rw [if_neg hlimit]
  cases hw : shadow key with
  | none =>
      rw [hw, Option.map_none] at hkey
      rw [← hkey]
      exact ⟨rfl, h.update key ⟨now, 1⟩⟩
  | some w =>
      rw [hw, Option.map_some] at hkey
      rw [← hkey]
      have hdec := windowStep_decision chrono limit windowDuration now (some w.toWindow)
      generalize windowStep chrono limit windowDuration (some w.toWindow) now = r at hdec ⊢
      cases hdec with
      | opened _ hgone =>
          have hexp : chrono.expired windowDuration now w.windowStart = true := hgone _ rfl
          simp only [if_pos hexp]
          exact ⟨trivial, h.update key ⟨now, 1⟩⟩
      | counted _ hlive hroom =>
          have hexp : ¬ chrono.expired windowDuration now w.windowStart = true :=
            Bool.eq_false_iff.mp hlive
          have hlt : w.count < limit := hroom
          simp only [if_neg hexp, if_pos hlt]
          exact ⟨trivial, h.update key { w with count := w.count + 1 }⟩
      | denied _ hlive hfull =>
          have hexp : ¬ chrono.expired windowDuration now w.windowStart = true :=
            Bool.eq_false_iff.mp hlive
          have hge : ¬ w.count < limit := UInt64.not_lt.mpr hfull
          -- a denial stores nothing, and the stored window is already the decided one
          have hstored := h.update key w
          rw [← hw, Function.update_eq_self] at hstored
          simp only [if_neg hexp, if_neg hge]
          exact ⟨trivial, hstored⟩

/-- The forgetting shadow run and the record of a keyed run that forgets. -/
structure ShadowsLedger (run : ShadowRun K) (ledger : Ledger K RateLimitWindow) : Prop where
  passed_eq : run.passed = ledger.history
  shadows : Shadows run.shadow ledger.value

theorem ShadowsLedger.step {run : ShadowRun K} {ledger : Ledger K RateLimitWindow}
    (h : ShadowsLedger run ledger) (chrono : Chrono) {limit : UInt64} (hlimit : limit ≠ 0)
    (windowDuration : Int) (C : Nat) (call : Call K) :
    (forgettingShadowStep chrono limit windowDuration C run call).1
        = (forgetStep Call.key (windowUpdate chrono limit windowDuration) C ledger call).1 ∧
      ShadowsLedger (forgettingShadowStep chrono limit windowDuration C run call).2
        (forgetStep Call.key (windowUpdate chrono limit windowDuration) C ledger call).2 := by
  obtain ⟨hpassed, hshadows⟩ := h
  simp only [forgettingShadowStep, forgetStep, Ledger.recall, windowUpdate, hpassed]
  split
  · -- forgotten on both sides before the decision
    have herased : Shadows (Function.update run.shadow call.key none)
        (Function.update ledger.value call.key none) := by
      intro k
      by_cases hk : k = call.key
      · subst hk
        simp
      · simpa [Function.update_of_ne hk] using hshadows k
    obtain ⟨hresult, hstored⟩ :=
      herased.step chrono hlimit windowDuration call.key call.now
    rw [Function.update_self, Function.update_idem] at hstored
    rw [Function.update_self] at hresult
    exact ⟨hresult, rfl, hstored⟩
  · obtain ⟨hresult, hstored⟩ :=
      hshadows.step chrono hlimit windowDuration call.key call.now
    exact ⟨hresult, rfl, hstored⟩

/-! ## Exact semantics under eviction -/

variable {cache : LRUCache K RateLimitWindow} {view : cache.Store → LruStore K RateLimitWindow}

/-- With the zero limit both sides deny every call. -/
theorem results_zero_eq_forgetting_shadow (cache : LRUCache K RateLimitWindow) (chrono : Chrono)
    (windowDuration : Int) (C : Nat) (calls : List (Call K)) :
    (RateLimiter.new 0 windowDuration C : RateLimiter cache).results chrono calls
        = trace (forgettingShadowStep chrono 0 windowDuration C) .start calls ∧
      (RateLimiter.new 0 windowDuration C : RateLimiter cache).results chrono calls
        = trace (shadowStep chrono 0 windowDuration) (fun _ => none) calls := by
  have hdeny : ∀ (self : RateLimiter cache) (call : Call K), self.requestsPerWindow_ = 0 →
      RateLimiter.step chrono self call = (false, self) :=
    fun self call h => RateLimiter.allow_zero chrono h call.key call.now
  refine ⟨?_, ?_⟩
  · refine trace_eq_of_simulation
      (R := fun (self : RateLimiter cache) (_ : ShadowRun K) => self.requestsPerWindow_ = 0)
      (fun self run call h => ?_) rfl calls
    rw [hdeny self call h]
    exact ⟨rfl, h⟩
  · refine trace_eq_of_simulation
      (R := fun (self : RateLimiter cache) (_ : K → Option ShadowWindow) =>
        self.requestsPerWindow_ = 0)
      (fun self shadow call h => ?_) rfl calls
    rw [hdeny self call h]
    exact ⟨rfl, h⟩

/-- **The limiter is the forgetting shadow model.** Every call of every run
    gets the result of `shadowAllow` on a map that forgets the window of the key
    at reuse distance `C`; while at most `C` distinct keys occur, the result of
    the harness's own, never forgetting, shadow model. -/
theorem results_eq_forgetting_shadow (hdoc : cache.Documented view) (chrono : Chrono)
    (limit : UInt64) (windowDuration : Int) {C : Nat} (hC : 0 < C) (calls : List (Call K)) :
    (RateLimiter.new limit windowDuration C : RateLimiter cache).results chrono calls
        = trace (forgettingShadowStep chrono limit windowDuration C) .start calls ∧
      ((calls.map Call.key).toFinset.card ≤ C →
        (RateLimiter.new limit windowDuration C : RateLimiter cache).results chrono calls
          = trace (shadowStep chrono limit windowDuration) (fun _ => none) calls) := by
  by_cases hlimit : limit = 0
  · subst hlimit
    obtain ⟨hforget, hplain⟩ :=
      results_zero_eq_forgetting_shadow cache chrono windowDuration C calls
    exact ⟨hforget, fun _ => hplain⟩
  · rw [RateLimiter.results_eq_cached hdoc chrono hlimit windowDuration hC]
    refine ⟨?_, ?_⟩
    · rw [cached_forget_trace _ _ hC]
      symm
      exact trace_eq_of_simulation (R := ShadowsLedger)
        (fun _ _ call h => h.step chrono hlimit windowDuration C call)
        ⟨rfl, shadows_nothing⟩ calls
    · intro hfew
      rw [(cached_map_trace Call.key _ calls hfew).1]
      symm
      exact trace_eq_of_simulation (R := Shadows)
        (fun _ _ call h => h.step chrono hlimit windowDuration call.key call.now)
        shadows_nothing calls

/-- The run of `eviction_resets_window`: at capacity 2 the third key evicts `k1`,
    whose window the shadow model has to forget; at capacity 3 it need not. -/
theorem results_eq_forgetting_shadow_eviction :
    let calls : List (Call String) :=
      [⟨"k1", 0⟩, ⟨"k1", 0⟩, ⟨"k2", 0⟩, ⟨"k3", 0⟩, ⟨"k1", 0⟩]
    let limiter (C : Nat) : RateLimiter (LRUCache.reference String RateLimitWindow) := .new 1 1000 C
    ((limiter 2).results .exact calls).map Prod.snd = [true, false, true, true, true] ∧
      (limiter 2).results .exact calls
        = trace (forgettingShadowStep .exact 1 1000 2) .start calls ∧
      ((limiter 3).results .exact calls).map Prod.snd = [true, false, true, true, false] ∧
      (limiter 3).results .exact calls
        = trace (shadowStep .exact 1 1000) (fun _ => none) calls :=
  ⟨by decide,
    (results_eq_forgetting_shadow LRUCache.reference_documented .exact 1 1000
      (by decide) _).1,
    by decide,
    (results_eq_forgetting_shadow LRUCache.reference_documented .exact 1 1000
      (by decide) _).2 (by decide)⟩

end RateThrottle
