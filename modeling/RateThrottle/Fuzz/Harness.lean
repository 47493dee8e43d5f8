/-
  RateThrottle.Fuzz.Harness

  The fuzz harness (fuzz/fuzz_rate_limiter.cpp): what a passing run says about
  the limiter under test, and what no run can say.

  `LLVMFuzzerTestOneInput` is translated for an arbitrary limiter under test, a
  constructor and an `allow`; `none` is `std::abort()`.  The calls it makes
  depend on the input alone (`steadyCalls`, `overflowCalls`), never on an answer
  of the limiter, so a run of the harness is a comparison of two traces
  (`fuzz_run`) and passing is agreeing with the repository's limiter on these
  calls (`fuzz_passes_iff`).

  `fuzz_steady_inputs` is about the calls themselves: time never goes back, no
  eviction is possible, and at the cache capacities 4 and 8 every fourth key is
  never denied.
-/

import Mathlib.Data.Finset.Range
import RateThrottle.Library.Decimal
import RateThrottle.RateLimiter.Resident
import RateThrottle.RateLimiter.Shadow
import RateThrottle.Support.Bytes

namespace RateThrottle
namespace Fuzz

open Decimal Mealy KeyedRun

-- ============================================================================
-- The harness
-- ============================================================================

/-- A limiter under test. -/
structure Implementation where
  State : Type
  /-- `RateLimiter(requestsPerWindow, windowDuration, cacheCapacity)`. -/
  new : UInt64 → Int → Nat → State
  allow : State → Bytes → Int → Bool × State

namespace Implementation

/-- One call of a run. -/
def step (impl : Implementation) (state : impl.State) (call : Call Bytes) : Bool × impl.State :=
  impl.allow state call.key call.now

/-- The results of a limiter constructed anew. -/
def results (impl : Implementation) (requestsPerWindow : UInt64) (windowDuration : Int)
    (cacheCapacity : Nat) (calls : List (Call Bytes)) : List (Call Bytes × Bool) :=
  trace impl.step (impl.new requestsPerWindow windowDuration cacheCapacity) calls

end Implementation

/-- The repository's limiter under test. -/
def rateLimiter (cache : LRUCache Bytes RateLimitWindow) (chrono : Chrono) : Implementation where
  State := RateLimiter cache
  new := RateLimiter.new
  allow := RateLimiter.allow chrono

/-- The configuration that the first three bytes of an input give. -/
structure Config where
  cacheCapacity : Nat
  requestsPerWindow : UInt64
  windowDuration : Int

/-- The header of an input. -/
def Config.ofHeader (d₀ d₁ d₂ : UInt8) : Config where
  cacheCapacity := d₀.toNat % 8 + 1
  requestsPerWindow := .ofNat (d₁.toNat % 9)
  windowDuration := d₂.toNat % 200 + 1

/-- `steadyKeys[i]`. -/
def steadyKey (i : Nat) : Bytes := bytes "steady-" ++ decimal i

/-- `"overflow-" + std::to_string(overflowCounter)`. -/
def overflowKey (counter : Nat) : Bytes := bytes "overflow-" ++ decimal counter

/-- The clock after the step that `byte` asks for. -/
def advanceClock (config : Config) (now : Int) (byte : UInt8) : Int :=
  match byte.toNat % 4 with
  | 0 => now + nanos (byte.toNat % 5)
  | 1 => now + nanos config.windowDuration
  | 2 => if config.windowDuration > 0 then now + nanos (config.windowDuration - 1) else now
  | _ => now

/-- `byte % 16 == 0`. -/
def useOverflowKey (byte : UInt8) : Bool := byte.toNat % 16 = 0

/-- The variables of the loop. -/
structure Locals (impl : Implementation) where
  steadyLimiter : impl.State
  overflowLimiter : impl.State
  shadow : Bytes → Option ShadowWindow
  overflowCounter : Nat
  now : Int

/-- One byte of the input; none for `std::abort()`. -/
def loopBody (chrono : Chrono) (impl : Implementation) (config : Config) (s : Locals impl)
    (byte : UInt8) : Option (Locals impl) :=
  let now := advanceClock config s.now byte
  if useOverflowKey byte then
    let (realResult, limiter) := impl.allow s.overflowLimiter (overflowKey s.overflowCounter) now
    if config.requestsPerWindow = 0 ∧ realResult = true then none
    else some { s with
      overflowLimiter := limiter, overflowCounter := s.overflowCounter + 1, now := now }
  else
    let key := steadyKey (byte.toNat % config.cacheCapacity)
    let (realResult, limiter) := impl.allow s.steadyLimiter key now
    let (shadowResult, shadow) :=
      shadowAllow chrono s.shadow config.requestsPerWindow config.windowDuration key now
    if realResult ≠ shadowResult then none
    else some { s with steadyLimiter := limiter, shadow := shadow, now := now }

/-- The variables before the loop; `clock` is `Clock::now()`. -/
def Locals.start (impl : Implementation) (config : Config) (clock : Int) : Locals impl where
  steadyLimiter := impl.new config.requestsPerWindow config.windowDuration config.cacheCapacity
  overflowLimiter := impl.new config.requestsPerWindow config.windowDuration config.cacheCapacity
  shadow := fun _ => none
  overflowCounter := 0
  now := clock

/-- `LLVMFuzzerTestOneInput`; none for `std::abort()`. -/
def LLVMFuzzerTestOneInput (chrono : Chrono) (impl : Implementation) (clock : Int) :
    List UInt8 → Option Unit
  | d₀ :: d₁ :: d₂ :: d₃ :: data =>
      let config := Config.ofHeader d₀ d₁ d₂
      ((d₃ :: data).foldlM (loopBody chrono impl config) (.start impl config clock)).map fun _ => ()
  | _ => some ()

-- ============================================================================
-- The calls of an input
-- ============================================================================

/-- The calls on steady keys. -/
def steadyCalls (config : Config) : Int → List UInt8 → List (Call Bytes)
  | _, [] => []
  | now, byte :: data =>
      let now := advanceClock config now byte
      if useOverflowKey byte then steadyCalls config now data
      else ⟨steadyKey (byte.toNat % config.cacheCapacity), now⟩ :: steadyCalls config now data

/-- The calls on overflow keys. -/
def overflowCalls (config : Config) : Nat → Int → List UInt8 → List (Call Bytes)
  | _, _, [] => []
  | counter, now, byte :: data =>
      let now := advanceClock config now byte
      if useOverflowKey byte then
        ⟨overflowKey counter, now⟩ :: overflowCalls config (counter + 1) now data
      else overflowCalls config counter now data

/-- A byte that uses an overflow key. -/
theorem loopBody_overflow (chrono : Chrono) (impl : Implementation) (config : Config)
    (s : Locals impl) {byte : UInt8} (hover : useOverflowKey byte = true) {now : Int}
    (hnow : advanceClock config s.now byte = now) {r : Bool × impl.State}
    (hreal : impl.step s.overflowLimiter ⟨overflowKey s.overflowCounter, now⟩ = r) :
    loopBody chrono impl config s byte
      = if config.requestsPerWindow = 0 ∧ r.1 = true then none
        else some { s with
          overflowLimiter := r.2, overflowCounter := s.overflowCounter + 1, now := now } := by
  subst hnow hreal
  rw [loopBody, if_pos hover]
  rfl

/-- A byte that uses a steady key. -/
theorem loopBody_steady (chrono : Chrono) (impl : Implementation) (config : Config)
    (s : Locals impl) {byte : UInt8} (hsteady : ¬ useOverflowKey byte = true) {call : Call Bytes}
    (hcall : ⟨steadyKey (byte.toNat % config.cacheCapacity), advanceClock config s.now byte⟩
      = call)
    {r : Bool × impl.State} (hreal : impl.step s.steadyLimiter call = r)
    {r' : Bool × (Bytes → Option ShadowWindow)}
    (hshadow : shadowStep chrono config.requestsPerWindow config.windowDuration s.shadow call
      = r') :
    loopBody chrono impl config s byte
      = if r.1 ≠ r'.1 then none
        else some { s with steadyLimiter := r.2, shadow := r'.2, now := call.now } := by
  subst hreal hshadow
  subst hcall
  rw [loopBody, if_neg hsteady]
  rfl

/-- **The loop compares two traces.** It gets through exactly when the limiter
    under test answers the steady calls like the shadow model and, with the zero
    limit, denies the overflow calls. -/
theorem fuzz_run (chrono : Chrono) (impl : Implementation) (config : Config) (data : List UInt8)
    (s : Locals impl) :
    (data.foldlM (loopBody chrono impl config) s).isSome = true ↔
      trace impl.step s.steadyLimiter (steadyCalls config s.now data)
          = trace (shadowStep chrono config.requestsPerWindow config.windowDuration) s.shadow
              (steadyCalls config s.now data) ∧
        (config.requestsPerWindow = 0 →
          ∀ e ∈ trace impl.step s.overflowLimiter
            (overflowCalls config s.overflowCounter s.now data), e.2 = false) := by
  induction data generalizing s with
  | nil => simp [steadyCalls, overflowCalls]
  | cons byte data ih =>
      rw [List.foldlM_cons]
      by_cases hover : useOverflowKey byte = true
      · -- an overflow call: only the zero limit is checked
        rw [loopBody_overflow chrono impl config s hover rfl rfl]
        simp only [steadyCalls, overflowCalls, if_pos hover, trace_cons, List.forall_mem_cons]
        generalize impl.step s.overflowLimiter
          ⟨overflowKey s.overflowCounter, advanceClock config s.now byte⟩ = r
        by_cases habort : config.requestsPerWindow = 0 ∧ r.1 = true
        · rw [if_pos habort]
          simp [habort.1, habort.2]
        · rw [if_neg habort]
          refine (ih _).trans (and_congr_right fun _ => forall_congr' fun hzero => ?_)
          have hdenied : r.1 = false :=
            Bool.eq_false_iff.mpr fun htrue => habort ⟨hzero, htrue⟩
          rw [and_iff_right hdenied]
      · -- a steady call: compared with the shadow model
        rw [loopBody_steady chrono impl config s hover rfl rfl rfl]
        simp only [steadyCalls, overflowCalls, if_neg hover, trace_cons, List.cons.injEq,
          Prod.mk.injEq, true_and]
        generalize (⟨steadyKey (byte.toNat % config.cacheCapacity),
          advanceClock config s.now byte⟩ : Call Bytes) = call
        generalize impl.step s.steadyLimiter call = r
        generalize shadowStep chrono config.requestsPerWindow config.windowDuration s.shadow call
          = r'
        by_cases hsame : r.1 = r'.1
        · rw [if_neg (not_not.mpr hsame), and_iff_right hsame]
          exact ih _
        · rw [if_pos hsame]
          simp [hsame]

-- ============================================================================
-- What a passing run says
-- ============================================================================

variable {cache : LRUCache Bytes RateLimitWindow}
  {view : cache.Store → LruStore Bytes RateLimitWindow}

theorem Config.capacity_pos (d₀ d₁ d₂ : UInt8) : 0 < (Config.ofHeader d₀ d₁ d₂).cacheCapacity :=
  Nat.succ_pos _

theorem Config.window_pos (d₀ d₁ d₂ : UInt8) : 0 < (Config.ofHeader d₀ d₁ d₂).windowDuration := by
  simp only [Config.ofHeader]
  omega

theorem exists_steadyKey {config : Config} (hcap : 0 < config.cacheCapacity) {now : Int}
    {data : List UInt8} {c : Call Bytes} (hc : c ∈ steadyCalls config now data) :
    ∃ i < config.cacheCapacity, c.key = steadyKey i := by
  induction data generalizing now with
  | nil => simp [steadyCalls] at hc
  | cons byte data ih =>
      rw [steadyCalls] at hc
      split at hc
      · exact ih hc
      · rcases List.mem_cons.mp hc with rfl | hc
        · exact ⟨_, Nat.mod_lt _ hcap, rfl⟩
        · exact ih hc

/-- The pool of steady keys is as large as the cache. -/
theorem card_steadyCalls_le {config : Config} (hcap : 0 < config.cacheCapacity) (now : Int)
    (data : List UInt8) :
    ((steadyCalls config now data).map Call.key).toFinset.card ≤ config.cacheCapacity := by
  have hsub : ((steadyCalls config now data).map Call.key).toFinset
      ⊆ (Finset.range config.cacheCapacity).image steadyKey := by
    intro k hk
    rw [List.mem_toFinset, List.mem_map] at hk
    obtain ⟨c, hc, rfl⟩ := hk
    obtain ⟨i, hi, hkey⟩ := exists_steadyKey hcap hc
    exact Finset.mem_image.mpr ⟨i, Finset.mem_range.mpr hi, hkey.symm⟩
  calc ((steadyCalls config now data).map Call.key).toFinset.card
      ≤ ((Finset.range config.cacheCapacity).image steadyKey).card := Finset.card_le_card hsub
    _ ≤ (Finset.range config.cacheCapacity).card := Finset.card_image_le
    _ = config.cacheCapacity := Finset.card_range _

/-- A run in which nothing is accepted. -/
theorem trace_eq_denied_iff {σ ι : Type*} (step : σ → ι → Bool × σ) (s : σ) (xs : List ι) :
    (∀ e ∈ trace step s xs, e.2 = false) ↔ trace step s xs = xs.map fun x => (x, false) := by
  refine ⟨fun h => ?_, fun h e he => ?_⟩
  · conv_rhs => rw [← trace_map_fst step s xs, List.map_map]
    conv_lhs => rw [← List.map_id (trace step s xs)]
    exact List.map_congr_left fun e he => Prod.ext rfl (h e he)
  · rw [h, List.mem_map] at he
    obtain ⟨x, -, rfl⟩ := he
    rfl

/-- **What the harness proves.** On every input and from every clock, a limiter
    under test gets through the harness exactly when it answers the steady calls
    of the input, and at the zero limit the overflow calls, like the repository's
    limiter; in particular the repository's limiter always gets through. -/
theorem fuzz_passes_iff (hdoc : cache.Documented view) (chrono : Chrono) (impl : Implementation)
    (clock : Int) (d₀ d₁ d₂ : UInt8) (data : List UInt8) :
    let config := Config.ofHeader d₀ d₁ d₂
    let results := fun (impl : Implementation) =>
      impl.results config.requestsPerWindow config.windowDuration config.cacheCapacity
    LLVMFuzzerTestOneInput chrono impl clock (d₀ :: d₁ :: d₂ :: data) = some () ↔
      results impl (steadyCalls config clock data)
          = results (rateLimiter cache chrono) (steadyCalls config clock data) ∧
        (config.requestsPerWindow = 0 →
          results impl (overflowCalls config 0 clock data)
            = results (rateLimiter cache chrono) (overflowCalls config 0 clock data)) := by
  intro config results
  have hcap : 0 < config.cacheCapacity := Config.capacity_pos d₀ d₁ d₂
  -- without evictions the limiter is the shadow model
  have hshadow : results (rateLimiter cache chrono) (steadyCalls config clock data)
      = trace (shadowStep chrono config.requestsPerWindow config.windowDuration) (fun _ => none)
          (steadyCalls config clock data) := by
    by_cases hzero : config.requestsPerWindow = 0
    · have hboth := results_zero_eq_forgetting_shadow cache chrono config.windowDuration
        config.cacheCapacity (steadyCalls config clock data)
      rw [← hzero] at hboth
      exact hboth.2
    · have hmap := results_eq_map chrono config.windowDuration hdoc hzero
        (card_steadyCalls_le hcap clock data)
      refine Eq.trans hmap (Eq.symm ?_)
      exact trace_eq_of_simulation (R := Shadows)
        (fun _ _ call h => h.step chrono hzero config.windowDuration call.key call.now)
        shadows_nothing _
  have hdenied : config.requestsPerWindow = 0 →
      results (rateLimiter cache chrono) (overflowCalls config 0 clock data)
        = (overflowCalls config 0 clock data).map fun call => (call, false) :=
    fun hzero => (RateLimiter.run_zero chrono hzero _).1
  cases data with
  | nil =>
      simp only [LLVMFuzzerTestOneInput, true_iff]
      exact ⟨rfl, fun _ => rfl⟩
  | cons byte data =>
      have hrun := fuzz_run chrono impl config (byte :: data) (.start impl config clock)
      rw [hshadow]
      refine Iff.trans ?_ (hrun.trans (and_congr_right fun _ => forall_congr' fun hzero => ?_))
      · simp only [LLVMFuzzerTestOneInput]
        cases (byte :: data).foldlM (loopBody chrono impl config) (.start impl config clock) <;>
          simp
      · rw [trace_eq_denied_iff, hdenied hzero]
        rfl

/-- A limiter that lets a window expire one nanosecond late is caught by two
    bytes that land on the boundary. -/
theorem fuzz_passes_iff_late :
    let late : Chrono := { Chrono.exact with ge := fun elapsed ms => decide (elapsed > nanos ms) }
    let impl := rateLimiter (LRUCache.reference Bytes RateLimitWindow) late
    let config := Config.ofHeader 0 1 9
    let results := fun (impl : Implementation) =>
      impl.results config.requestsPerWindow config.windowDuration config.cacheCapacity
    LLVMFuzzerTestOneInput .exact impl 0 [0, 1, 9, 1, 1] = none ∧
      ¬ (results impl (steadyCalls config 0 [1, 1])
            = results (rateLimiter (LRUCache.reference Bytes RateLimitWindow) .exact)
                (steadyCalls config 0 [1, 1]) ∧
          (config.requestsPerWindow = 0 → results impl (overflowCalls config 0 0 [1, 1])
            = results (rateLimiter (LRUCache.reference Bytes RateLimitWindow) .exact)
                (overflowCalls config 0 0 [1, 1]))) := by
  intro late impl config results
  have habort : LLVMFuzzerTestOneInput .exact impl 0 [0, 1, 9, 1, 1] = none := by decide
  refine ⟨habort, fun hagree => ?_⟩
  have hpass := (fuzz_passes_iff LRUCache.reference_documented .exact impl 0 0 1 9 [1, 1]).mpr hagree
  rw [habort] at hpass
  exact nomatch hpass

-- ============================================================================
-- What no run can say
-- ============================================================================

theorem le_advanceClock {config : Config} (hwindow : 0 < config.windowDuration) (now : Int)
    (byte : UInt8) : now ≤ advanceClock config now byte := by
  have hnanos : ∀ ms : Int, 0 ≤ ms → now ≤ now + nanos ms := fun ms hms => by
    rw [nanos]
    omega
  unfold advanceClock
  split
  · exact hnanos _ (Int.natCast_nonneg _)
  · exact hnanos _ hwindow.le
  · rw [if_pos hwindow]
    exact hnanos _ (by omega)
  · exact le_rfl

/-- The harness never turns its clock back. -/
theorem sorted_steadyCalls {config : Config} (hwindow : 0 < config.windowDuration) (now : Int)
    (data : List UInt8) :
    (now :: (steadyCalls config now data).map Call.now).Pairwise (· ≤ ·) := by
  induction data generalizing now with
  | nil => exact List.pairwise_singleton _ _
  | cons byte data ih =>
      have hle := le_advanceClock hwindow now byte
      have hrest := ih (advanceClock config now byte)
      rw [List.pairwise_cons] at hrest
      rw [steadyCalls]
      split
      · exact List.pairwise_cons.mpr ⟨fun t ht => hle.trans (hrest.1 t ht), hrest.2⟩
      · rw [List.map_cons, List.pairwise_cons]
        refine ⟨fun t ht => ?_, List.pairwise_cons.mpr hrest⟩
        rcases List.mem_cons.mp ht with rfl | ht
        · exact hle
        · exact hle.trans (hrest.1 t ht)

theorem steadyKey_injective : Function.Injective steadyKey := by
  intro i j h
  have hdigits := congrArg ofDigits (List.append_cancel_left h)
  rwa [ofDigits_decimal, ofDigits_decimal] at hdigits

/-- At a capacity divisible by four the key chooses the clock step with the byte:
    a key with index 1 modulo 4 is only ever called a whole window later. -/
theorem accepted_of_boundary_key {config : Config} (hwindow : 0 < config.windowDuration)
    (hfour : config.cacheCapacity % 4 = 0) (limit : UInt64) (data : List UInt8) (now : Int)
    (stored : Bytes → Option RateLimitWindow)
    (hstored : ∀ k w, stored k = some w → w.windowStart ≤ now) :
    ∀ e ∈ trace (mapStep Call.key (windowUpdate .exact limit config.windowDuration)) stored
        (steadyCalls config now data),
      ∀ i, i % 4 = 1 → e.1.key = steadyKey i → e.2 = true := by
  induction data generalizing now stored with
  | nil => simp [steadyCalls]
  | cons byte data ih =>
      have hle := le_advanceClock hwindow now byte
      rw [steadyCalls]
      split
      · exact ih _ _ fun k w hw => (hstored k w hw).trans hle
      · rw [trace_cons, List.forall_mem_cons]
        refine ⟨fun i hi hkey => ?_, ih _ _ fun k w hw => ?_⟩
        · -- the byte moved the clock by a whole window first
          have hindex : byte.toNat % config.cacheCapacity = i := steadyKey_injective hkey
          have hop : byte.toNat % 4 = 1 := by
            rw [← hindex, Nat.mod_mod_of_dvd _ (Nat.dvd_of_mod_eq_zero hfour)] at hi
            exact hi
          have hnow : advanceClock config now byte = now + nanos config.windowDuration := by
            simp only [advanceClock, hop]
          have hopen : windowStep .exact limit config.windowDuration
              (stored (steadyKey (byte.toNat % config.cacheCapacity)))
              (advanceClock config now byte) = (true, ⟨advanceClock config now byte, 1⟩) := by
            refine windowStep_of_gone limit (fun w hw => ?_)
            have hstart := hstored _ w hw
            rw [Chrono.expired_exact, hnow]
            omega
          exact congrArg Prod.fst hopen
        · -- every window starts at a time the clock has shown
          simp only [mapStep] at hw
          by_cases hk : k = steadyKey (byte.toNat % config.cacheCapacity)
          · rw [hk, Function.update_self, Option.some.injEq] at hw
            rw [← hw]
            have hdec := windowStep_decision .exact limit config.windowDuration
              (advanceClock config now byte)
              (stored (steadyKey (byte.toNat % config.cacheCapacity)))
            have hstart := hstored (steadyKey (byte.toNat % config.cacheCapacity))
            simp only [windowUpdate]
            generalize windowStep .exact limit config.windowDuration
              (stored (steadyKey (byte.toNat % config.cacheCapacity)))
              (advanceClock config now byte) = r at hdec ⊢
            generalize stored (steadyKey (byte.toNat % config.cacheCapacity)) = existing
              at hdec hstart
            cases hdec with
            | opened _ _ => exact le_rfl
            | counted v _ _ => exact (hstart v rfl).trans hle
            | denied v _ _ => exact (hstart v rfl).trans hle
          · rw [Function.update_of_ne hk] at hw
            exact (hstored k w hw).trans hle

/-- **Blind spots of the harness.** On every input the timestamps on the steady
    limiter never decrease, so requests out of order are never tried; and at a
    cache capacity of 4 or 8 the limiter never denies a call on a steady key with
    index 1 modulo 4, whatever the limit, so denials are never tried on it. -/
theorem fuzz_steady_inputs (hdoc : cache.Documented view) (clock : Int) (d₀ d₁ d₂ : UInt8)
    (data : List UInt8) :
    let config := Config.ofHeader d₀ d₁ d₂
    ((steadyCalls config clock data).map Call.now).Pairwise (· ≤ ·) ∧
      (config.cacheCapacity = 4 ∨ config.cacheCapacity = 8 → config.requestsPerWindow ≠ 0 →
        ∀ e ∈ (rateLimiter cache .exact).results config.requestsPerWindow config.windowDuration
            config.cacheCapacity (steadyCalls config clock data),
          ∀ i, i % 4 = 1 → e.1.key = steadyKey i → e.2 = true) := by
  intro config
  have hwindow : 0 < config.windowDuration := Config.window_pos d₀ d₁ d₂
  refine ⟨(List.pairwise_cons.mp (sorted_steadyCalls hwindow clock data)).2, ?_⟩
  intro hcapacity hlimit
  have hcap : 0 < config.cacheCapacity := Config.capacity_pos d₀ d₁ d₂
  have hmap := results_eq_map .exact config.windowDuration hdoc hlimit
    (card_steadyCalls_le hcap clock data)
  have hfour : config.cacheCapacity % 4 = 0 := by omega
  have haccepted := accepted_of_boundary_key hwindow hfour config.requestsPerWindow data clock
    (fun _ => none) (fun _ _ h => nomatch h)
  rw [← hmap] at haccepted
  exact haccepted

/-- Capacity 4, limit 1: two calls on the first key, and a key that is never denied. -/
theorem fuzz_steady_inputs_four :
    let config := Config.ofHeader 3 1 9
    ∀ e ∈ (rateLimiter (LRUCache.reference Bytes RateLimitWindow) .exact).results
        config.requestsPerWindow config.windowDuration config.cacheCapacity
        (steadyCalls config 0 [1, 1, 4, 4, 5, 9]),
      ∀ i, i % 4 = 1 → e.1.key = steadyKey i → e.2 = true :=
  (fuzz_steady_inputs LRUCache.reference_documented 0 3 1 9 [1, 1, 4, 4, 5, 9]).2
    (Or.inl (by decide)) (by decide)

end Fuzz
end RateThrottle
