/-
  RateThrottle.RateLimiter.TimeArithmetic

  The expiry test in the arithmetic of the compiled code.

  `steady_clock::duration` counts nanoseconds in a signed 64-bit integer and
  `std::chrono::milliseconds` milliseconds in another.  The comparison
  `(now - existing->windowStart) >= windowDuration_` converts the right side to
  nanoseconds first, a product by 1,000,000 that the constructor never bounds
  and that wraps from about 292 years on (in two's complement; the language
  leaves the overflow undefined).  Here the decisions are compared with those
  computed in unbounded integers, over whole runs.
-/

import Mathlib.Tactic.LinearCombination
import RateThrottle.RateLimiter.Refinement

namespace RateThrottle

open Mealy KeyedRun

/-! ## Signed 64-bit nanoseconds -/

/-- Two's complement wrap onto the signed 64-bit integers. -/
def wrap64 (x : Int) : Int := (x + 2 ^ 63) % 2 ^ 64 - 2 ^ 63

/-- The operations as compiled: the difference and the converted duration wrap. -/
def Chrono.int64 : Chrono where
  sub a b := wrap64 (a - b)
  ge elapsed ms := decide (elapsed ≥ wrap64 (nanos ms))

/-- The timestamps of a run: non-negative and representable. -/
def Timestamp (t : Int) : Prop := 0 ≤ t ∧ t < 2 ^ 63

/-- The subtraction of two timestamps never overflows. -/
theorem wrap64_sub {a b : Int} (ha : Timestamp a) (hb : Timestamp b) : wrap64 (a - b) = a - b := by
  unfold Timestamp at ha hb
  rw [wrap64]
  omega

theorem Chrono.expired_int64 (windowDuration : Int) {now windowStart : Int} (hnow : Timestamp now)
    (hstart : Timestamp windowStart) :
    Chrono.int64.expired windowDuration now windowStart = true
      ↔ windowStart + wrap64 (nanos windowDuration) ≤ now := by
  simp only [Chrono.expired, Chrono.int64, wrap64_sub hnow hstart, decide_eq_true_eq]
  omega

/-- The durations whose conversion to nanoseconds never changes an expiry test:
    those that fit in 64 bits, and the negative ones that wrap to the least
    64-bit value, which no elapsed time is below either. -/
def SafeDuration (windowDuration : Int) : Prop :=
  (-9223372036854 ≤ windowDuration ∧ windowDuration ≤ 9223372036854) ∨
    (windowDuration < 0 ∧ windowDuration % 2 ^ 58 = 2 ^ 57)

theorem wrap64_lt (x : Int) : wrap64 x < 2 ^ 63 := by
  rw [wrap64]
  omega

theorem wrap64_of_fits {x : Int} (hlow : -2 ^ 63 ≤ x) (hhigh : x < 2 ^ 63) : wrap64 x = x := by
  rw [wrap64]
  omega

theorem le_wrap64 (x : Int) : -2 ^ 63 ≤ wrap64 x := by
  rw [wrap64]
  omega

/-- Wrapping takes away a multiple of `2 ^ 64`. -/
theorem wrap64_eq_sub (x : Int) : ∃ q, wrap64 x = x - 2 ^ 64 * q :=
  ⟨(x + 2 ^ 63) / 2 ^ 64, by rw [wrap64]; omega⟩

/-- The odd multiples of `2 ^ 57` milliseconds are those that wrap to the least value. -/
theorem wrap64_nanos_eq_least_iff {windowDuration : Int} :
    wrap64 (nanos windowDuration) = -2 ^ 63 ↔ windowDuration % 2 ^ 58 = 2 ^ 57 := by
  refine ⟨?_, ?_⟩
  · intro hleast
    obtain ⟨q, hq⟩ := wrap64_eq_sub (nanos windowDuration)
    rw [hleast, nanos] at hq
    have hreduced : 15625 * windowDuration + 2 ^ 57 = 2 ^ 58 * q :=
      Int.eq_of_mul_eq_mul_left (show (64 : Int) ≠ 0 by decide) (by linear_combination -hq)
    -- 15625 is a unit modulo `2 ^ 58`
    have hunit : windowDuration = 2 ^ 58 * (76480200929599801 * q - 4146 * windowDuration
        - 38240100464799900 - 1) + 2 ^ 57 := by
      linear_combination 76480200929599801 * hreduced
    rw [hunit, Int.mul_add_emod_self_left]
    rfl
  · intro hodd
    have hdiv := Int.mul_ediv_add_emod windowDuration (2 ^ 58)
    rw [hodd] at hdiv
    have hmultiple : nanos windowDuration + 2 ^ 63
        = 2 ^ 64 * (15625 * (windowDuration / 2 ^ 58) + 7813) := by
      rw [nanos]
      linear_combination -1000000 * hdiv
    rw [wrap64, hmultiple, Int.mul_emod_right]
    rfl

/-- The conversion changes no expiry test of a safe duration. -/
theorem expired_int64_eq_exact {windowDuration now windowStart : Int}
    (hsafe : SafeDuration windowDuration) (hnow : Timestamp now) (hstart : Timestamp windowStart) :
    Chrono.int64.expired windowDuration now windowStart
      = Chrono.exact.expired windowDuration now windowStart := by
  rw [Bool.eq_iff_iff, Chrono.expired_int64 windowDuration hnow hstart, Chrono.expired_exact]
  rcases hsafe with ⟨hlow, hhigh⟩ | ⟨hneg, hleast⟩
  · rw [wrap64_of_fits (by rw [nanos]; omega) (by rw [nanos]; omega)]
  · -- both sides hold whatever the elapsed time
    have hlong : nanos windowDuration ≤ -2 ^ 63 := by
      rw [nanos]
      omega
    rw [wrap64_nanos_eq_least_iff.mpr hleast]
    unfold Timestamp at hnow hstart
    omega

/-- A duration that is not safe wraps to one side of an elapsed time: a long one
    to at most the longest elapsed time, a negative one to more than the most
    negative. -/
theorem wrap64_of_not_safe {windowDuration : Int} (hnotsafe : ¬ SafeDuration windowDuration) :
    (2 ^ 63 ≤ nanos windowDuration ∧ wrap64 (nanos windowDuration) ≤ 2 ^ 63 - 1) ∨
      (nanos windowDuration ≤ -2 ^ 63 ∧ -(2 ^ 63 - 1) < wrap64 (nanos windowDuration)) := by
  have hlt := wrap64_lt (nanos windowDuration)
  unfold SafeDuration at hnotsafe
  by_cases hneg : windowDuration < 0
  · right
    have hleast := mt wrap64_nanos_eq_least_iff.mp (fun h => hnotsafe (Or.inr ⟨hneg, h⟩))
    have hge := le_wrap64 (nanos windowDuration)
    -- a wrapped number of nanoseconds is even
    obtain ⟨q, hq⟩ := wrap64_eq_sub (nanos windowDuration)
    have heven : wrap64 (nanos windowDuration) = 2 * (500000 * windowDuration - 2 ^ 63 * q) := by
      rw [hq, nanos]
      linear_combination
    generalize 500000 * windowDuration - 2 ^ 63 * q = half at heven
    refine ⟨by rw [nanos]; omega, ?_⟩
    generalize wrap64 (nanos windowDuration) = wrapped at hleast hge heven ⊢
    omega
  · left
    exact ⟨by rw [nanos]; omega, by omega⟩

/-! ## Runs under two clocks -/

variable {K : Type} [DecidableEq K] {cache : LRUCache K RateLimitWindow}
  {view : cache.Store → LruStore K RateLimitWindow}

theorem windowStep_congr {chrono chrono' : Chrono} (limit : UInt64) {windowDuration now : Int}
    {existing : Option RateLimitWindow}
    (h : ∀ w, existing = some w →
      chrono.expired windowDuration now w.windowStart
        = chrono'.expired windowDuration now w.windowStart) :
    windowStep chrono limit windowDuration existing now
      = windowStep chrono' limit windowDuration existing now := by
  cases existing with
  | none => rfl
  | some w => simp only [windowStep, h w rfl]

/-- Two readings of the expiry test that agree on the timestamps of a run give
    the same results and store the same windows. -/
theorem results_congr_chrono (hdoc : cache.Documented view) {chrono chrono' : Chrono}
    {limit : UInt64} (hlimit : limit ≠ 0) {windowDuration : Int} {C : Nat} (hC : 0 < C)
    {calls : List (Call K)}
    (hagree : ∀ c ∈ calls, ∀ d ∈ calls,
      chrono.expired windowDuration c.now d.now = chrono'.expired windowDuration c.now d.now) :
    (RateLimiter.new limit windowDuration C : RateLimiter cache).results chrono calls
        = (RateLimiter.new limit windowDuration C : RateLimiter cache).results chrono' calls ∧
      ∀ key, storedWindow chrono limit windowDuration C calls key
        = storedWindow chrono' limit windowDuration C calls key := by
  induction calls using List.reverseRecOn with
  | nil => exact ⟨rfl, fun _ => rfl⟩
  | append_singleton calls call ih =>
      obtain ⟨hresults, hstored⟩ := ih fun c hc d hd =>
        hagree c (List.mem_append_left _ hc) d (List.mem_append_left _ hd)
      -- a stored window starts at an earlier timestamp of the run
      have hstep : windowStep chrono limit windowDuration
            (storedWindow chrono limit windowDuration C calls call.key) call.now
          = windowStep chrono' limit windowDuration
            (storedWindow chrono limit windowDuration C calls call.key) call.now := by
        refine windowStep_congr limit (fun w hw => ?_)
        have hstart := storedWindow_start_mem chrono windowDuration hC calls call.key w hw
        exact hagree call (List.mem_append_right _ (List.mem_singleton_self _))
          ⟨call.key, w.windowStart⟩ (List.mem_append_left _ (mem_timesOn.mp hstart))
      refine ⟨?_, fun key => ?_⟩
      · rw [results_concat chrono windowDuration hdoc hlimit hC,
          results_concat chrono' windowDuration hdoc hlimit hC, hresults, hstep, hstored]
      · by_cases hkey : key = call.key
        · subst hkey
          rw [storedWindow_concat_self chrono windowDuration hC,
            storedWindow_concat_self chrono' windowDuration hC, hstep, hstored]
        · rw [storedWindow_concat_of_ne chrono windowDuration hC calls hkey,
            storedWindow_concat_of_ne chrono' windowDuration hC calls hkey, hstored]

/-! ## A run that fills one window -/

/-- A window opened at `s` and joined by `n` calls at `t`. -/
def fillCalls (key : K) (s t : Int) (n : Nat) : List (Call K) :=
  ⟨key, s⟩ :: List.replicate n ⟨key, t⟩

omit [DecidableEq K] in
theorem mem_fillCalls {key : K} {s t : Int} {n : Nat} {c : Call K}
    (hc : c ∈ fillCalls key s t n) : c = ⟨key, s⟩ ∨ c = ⟨key, t⟩ := by
  rw [fillCalls, List.mem_cons] at hc
  rcases hc with hc | hc
  · exact Or.inl hc
  · exact Or.inr (List.eq_of_mem_replicate hc)

/-- While the window is live at `t` and has room, every call is counted in it. -/
theorem storedWindow_fillCalls (hdoc : cache.Documented view) {chrono : Chrono} {limit : UInt64}
    (hlimit : limit ≠ 0) {windowDuration : Int} {C : Nat} (hC : 0 < C) (key : K) {s t : Int}
    (hlive : chrono.expired windowDuration t s = false) {n : Nat} (hroom : n + 1 ≤ limit.toNat) :
    ∃ w, storedWindow chrono limit windowDuration C (fillCalls key s t n) key = some w ∧
      w.windowStart = s ∧ w.count.toNat = n + 1 := by
  have hfirst : storedWindow chrono limit windowDuration C [⟨key, s⟩] key = some ⟨s, 1⟩ :=
    storedWindow_concat_self chrono windowDuration hC [] ⟨key, s⟩
  obtain ⟨w, hw, hstart, hcount, -⟩ := storedWindow_replicate (w := ⟨s, 1⟩) chrono windowDuration
    hdoc hlimit hC [⟨key, s⟩] hfirst hlive (one_le_toNat hlimit) n
  refine ⟨w, hw, hstart, ?_⟩
  simp only [UInt64.reduceToNat] at hcount
  omega

/-- Where one reading keeps the window of `s` alive at `t` and at `u`, and the
    other lets windows of `s` and of `t` expire at `u`, a run tells them apart. -/
theorem exists_results_ne (hdoc : cache.Documented view) {chrono chrono' : Chrono}
    {limit : UInt64} (hlimit : limit ≠ 0) {windowDuration : Int} {C : Nat} (hC : 0 < C) (key : K)
    {s t u : Int} (ht : chrono.expired windowDuration t s = false)
    (hu : chrono.expired windowDuration u s = false)
    (hs' : chrono'.expired windowDuration u s = true)
    (ht' : chrono'.expired windowDuration u t = true) :
    ∃ calls : List (Call K), (∀ c ∈ calls, c.now = s ∨ c.now = t ∨ c.now = u) ∧
      (RateLimiter.new limit windowDuration C : RateLimiter cache).results chrono calls
        ≠ (RateLimiter.new limit windowDuration C : RateLimiter cache).results chrono' calls := by
  have hpos := one_le_toNat hlimit
  refine ⟨fillCalls key s t (limit.toNat - 1) ++ [⟨key, u⟩], fun c hc => ?_, fun heq => ?_⟩
  · rw [List.mem_append, List.mem_singleton] at hc
    rcases hc with hc | rfl
    · rcases mem_fillCalls hc with rfl | rfl
      · exact Or.inl rfl
      · exact Or.inr (Or.inl rfl)
    · exact Or.inr (Or.inr rfl)
  · rw [results_concat chrono windowDuration hdoc hlimit hC,
      results_concat chrono' windowDuration hdoc hlimit hC] at heq
    have hlast := (List.append_inj' heq rfl).2
    -- the first reading finds the window full
    have hfilled : ∃ w, storedWindow chrono limit windowDuration C
        (fillCalls key s t (limit.toNat - 1)) key = some w ∧
        w.windowStart = s ∧ w.count.toNat = limit.toNat - 1 + 1 :=
      storedWindow_fillCalls hdoc hlimit hC key ht (by omega)
    obtain ⟨w, hstored, hstart, hcount⟩ := hfilled
    have hnotexp : ¬ chrono.expired windowDuration u w.windowStart = true := by
      rw [hstart, hu]
      exact Bool.false_ne_true
    have hfull : ¬ w.count < limit := by
      rw [UInt64.lt_iff_toNat_lt]
      omega
    have hdenied : (windowStep chrono limit windowDuration
        (storedWindow chrono limit windowDuration C (fillCalls key s t (limit.toNat - 1)) key)
        u).1 = false := by
      rw [hstored]
      simp only [windowStep, if_neg hnotexp, if_neg hfull]
    -- the second finds it expired, wherever it started
    have hallowed : (windowStep chrono' limit windowDuration
        (storedWindow chrono' limit windowDuration C (fillCalls key s t (limit.toNat - 1)) key)
        u).1 = true := by
      cases hw' : storedWindow chrono' limit windowDuration C
          (fillCalls key s t (limit.toNat - 1)) key with
      | none => rfl
      | some w' =>
          have hmem := mem_timesOn.mp
            (storedWindow_start_mem chrono' windowDuration hC _ key w' hw')
          have hexp : chrono'.expired windowDuration u w'.windowStart = true := by
            rcases mem_fillCalls hmem with h | h
            · rw [(Call.mk.inj h).2]
              exact hs'
            · rw [(Call.mk.inj h).2]
              exact ht'
          simp only [windowStep, if_pos hexp]
    rw [hdenied, hallowed] at hlast
    exact absurd hlast (by simp)

/-! ## When the compiled arithmetic is exact -/

/-- **Time arithmetic.** Over all runs with representable, non-negative timestamps
    the compiled limiter gives the results of the algorithm computed in
    unbounded integers exactly when the limit is zero or the window duration is
    one that converts to nanoseconds safely. -/
theorem results_int64_eq_exact_iff [Inhabited K] (hdoc : cache.Documented view) (limit : UInt64)
    (windowDuration : Int) {C : Nat} (hC : 0 < C) :
    (∀ calls : List (Call K), (∀ c ∈ calls, Timestamp c.now) →
        (RateLimiter.new limit windowDuration C : RateLimiter cache).results .int64 calls
          = (RateLimiter.new limit windowDuration C : RateLimiter cache).results .exact calls)
      ↔ limit = 0 ∨ SafeDuration windowDuration := by
  refine ⟨?_, ?_⟩
  · intro hexact
    by_contra hcond
    obtain ⟨hlimit, hnotsafe⟩ := not_or.mp hcond
    have hzero : Timestamp 0 := by unfold Timestamp; omega
    have hmax : Timestamp (2 ^ 63 - 1) := by unfold Timestamp; omega
    rcases wrap64_of_not_safe hnotsafe with ⟨hlong, hwrapped⟩ | ⟨hlong, hwrapped⟩
    · -- exact arithmetic never lets the window expire, the compiled one does at the end of time
      have hlive : ∀ now : Int, now < 2 ^ 63 →
          Chrono.exact.expired windowDuration now 0 = false := by
        intro now hnow
        rw [Bool.eq_false_iff, ne_eq, Chrono.expired_exact]
        omega
      have hexpired : Chrono.int64.expired windowDuration (2 ^ 63 - 1) 0 = true := by
        rw [Chrono.expired_int64 _ hmax hzero]
        omega
      obtain ⟨calls, htimes, hne⟩ := exists_results_ne hdoc hlimit hC (default : K)
        (hlive 0 (by omega)) (hlive (2 ^ 63 - 1) (by omega)) hexpired hexpired
      refine hne (hexact calls fun c hc => ?_).symm
      rcases htimes c hc with h | h | h <;> rw [h] <;> assumption
    · -- the compiled arithmetic keeps a window of the far future alive, the exact one does not
      have hlive : Chrono.int64.expired windowDuration 0 (2 ^ 63 - 1) = false := by
        rw [Bool.eq_false_iff, ne_eq, Chrono.expired_int64 _ hzero hmax]
        omega
      have hexpired : ∀ start : Int, start < 2 ^ 63 →
          Chrono.exact.expired windowDuration 0 start = true := by
        intro start hstart
        rw [Chrono.expired_exact]
        omega
      obtain ⟨calls, htimes, hne⟩ := exists_results_ne hdoc hlimit hC (default : K)
        hlive hlive (hexpired (2 ^ 63 - 1) (by omega)) (hexpired 0 (by omega))
      refine hne (hexact calls fun c hc => ?_)
      rcases htimes c hc with h | h | h <;> rw [h] <;> assumption
  · rintro (rfl | hsafe) calls htimes
    · rw [(RateLimiter.run_zero .int64 rfl calls).1, (RateLimiter.run_zero .exact rfl calls).1]
    · by_cases hlimit : limit = 0
      · subst hlimit
        rw [(RateLimiter.run_zero .int64 rfl calls).1, (RateLimiter.run_zero .exact rfl calls).1]
      · exact (results_congr_chrono hdoc hlimit hC fun c hc d hd =>
          expired_int64_eq_exact hsafe (htimes c hc) (htimes d hd)).1

/-- With `milliseconds::max()` as a window that never resets, the compiled
    limiter restarts the window on every call: the product wraps to -1,000,000. -/
theorem results_int64_ne_exact_max :
    let limiter : RateLimiter (LRUCache.reference String RateLimitWindow) := .new 1 (2 ^ 63 - 1) 1
    let calls : List (Call String) := [⟨"client", 0⟩, ⟨"client", 0⟩]
    (∀ c ∈ calls, 0 ≤ c.now ∧ c.now < 2 ^ 63) ∧
      (limiter.results .int64 calls).map Prod.snd = [true, true] ∧
      (limiter.results .exact calls).map Prod.snd = [true, false] := by
  decide

/-- A window of one second converts exactly. -/
theorem results_int64_eq_exact_second :
    let limiter : RateLimiter (LRUCache.reference String RateLimitWindow) := .new 1 1000 100
    let calls : List (Call String) :=
      [⟨"client", 0⟩, ⟨"client", 999999999⟩, ⟨"client", 1000000000⟩]
    limiter.results .int64 calls = limiter.results .exact calls ∧
      (limiter.results .exact calls).map Prod.snd = [true, false, true] :=
  ⟨(results_int64_eq_exact_iff LRUCache.reference_documented 1 1000 (show 0 < 100 by decide)).mpr
    (Or.inr (Or.inl (by decide))) _ (by unfold Timestamp; decide), by decide⟩

end RateThrottle
