/-
  RateThrottle.RateLimiter.Isolation

  What the requests of a key do not depend on.

  Keys share one cache, so the only way in which other keys reach a key is by
  evicting its window.  As long as that does not happen between two of its own
  calls, its results are those of a limiter of its own (`results_isolated`).
  And no run depends on what the keys are called, on where the clock starts, or
  on which of the documented caches holds the windows (`results_equivariant`).
-/

import RateThrottle.RateLimiter.Resident
import RateThrottle.RateLimiter.TimeArithmetic

namespace RateThrottle

open Mealy KeyedRun Recency

variable {K K' : Type} [DecidableEq K] [DecidableEq K']
variable {cache : LRUCache K RateLimitWindow} {view : cache.Store → LruStore K RateLimitWindow}

-- ============================================================================
-- Other keys
-- ============================================================================

/-- Between any two successive calls on `key`, fewer than `C` distinct other
    keys are used. -/
def StaysResident (C : Nat) (key : K) (calls : List (Call K)) : Prop :=
  ∀ earlier c later, calls = earlier ++ c :: later → c.key = key → key ∈ earlier.map Call.key →
    reuseDistance (earlier.map Call.key).reverse key < C

/-- Calls on one key alone keep it resident. -/
theorem staysResident_of_same {C : Nat} (hC : 0 < C) {key : K} {calls : List (Call K)}
    (hsame : ∀ c ∈ calls, c.key = key) : StaysResident C key calls := by
  intro earlier c later hsplit _ _
  have hstop : ∀ j ∈ (earlier.map Call.key).reverse, j = key := by
    intro j hj
    rw [List.mem_reverse, List.mem_map] at hj
    obtain ⟨c', hc', rfl⟩ := hj
    exact hsame c' (hsplit ▸ List.mem_append_left _ hc')
  have hnone : (earlier.map Call.key).reverse.takeWhile (· ≠ key) = [] := by
    cases hhist : (earlier.map Call.key).reverse with
    | nil => rfl
    | cons j hist =>
        have hj := hstop j (hhist ▸ List.mem_cons_self)
        rw [List.takeWhile_cons_of_neg (by simp [hj])]
  rw [reuseDistance, hnone]
  exact hC

/-- The calls on a key that stays resident, seen by a machine of their own. -/
theorem results_filter_of_resident (hdoc : cache.Documented view) (chrono : Chrono)
    {limit : UInt64} (hlimit : limit ≠ 0) (windowDuration : Int) {C : Nat} (hC : 0 < C) {key : K}
    {calls : List (Call K)} (hnear : StaysResident C key calls) :
    ((RateLimiter.new limit windowDuration C : RateLimiter cache).results chrono calls).filter
        (fun e => e.1.key = key)
      = trace (slotStep (windowUpdate chrono limit windowDuration)) none
          (calls.filter fun c => c.key = key) := by
  rw [RateLimiter.results_eq_cached hdoc chrono hlimit windowDuration hC]
  exact (cached_trace_filter Call.key _ hC key calls hnear).1

/-- **Isolation.** A key that fewer than `C` distinct other keys come between
    gets the results it would get from a limiter of its own, of any capacity and
    over any documented cache: other clients cannot change them, whatever they
    send and however often. -/
theorem results_isolated (hdoc : cache.Documented view) {cache' : LRUCache K RateLimitWindow}
    {view' : cache'.Store → LruStore K RateLimitWindow} (hdoc' : cache'.Documented view')
    (chrono : Chrono) (limit : UInt64) (windowDuration : Int) {C C' : Nat} (hC : 0 < C)
    (hC' : 0 < C') (key : K) (calls : List (Call K)) (hnear : StaysResident C key calls) :
    ((RateLimiter.new limit windowDuration C : RateLimiter cache).results chrono calls).filter
        (fun e => e.1.key = key)
      = (RateLimiter.new limit windowDuration C' : RateLimiter cache').results chrono
          (calls.filter fun c => c.key = key) := by
  by_cases hlimit : limit = 0
  · subst hlimit
    rw [(RateLimiter.run_zero chrono rfl calls).1, (RateLimiter.run_zero chrono rfl _).1,
      List.filter_map]
    rfl
  · have hsame : ∀ c ∈ calls.filter (fun c => c.key = key), c.key = key :=
      fun c hc => of_decide_eq_true (List.mem_filter.mp hc).2
    -- the limiter of its own, filtered for its only key
    have hsolo := results_filter_of_resident hdoc' chrono hlimit windowDuration hC'
      (staysResident_of_same hC' hsame)
    have hall : ∀ e ∈ (RateLimiter.new limit windowDuration C' : RateLimiter cache').results chrono
        (calls.filter fun c => c.key = key), decide (e.1.key = key) = true :=
      fun e he => decide_eq_true (hsame e.1 (RateLimiter.mem_of_mem_results he))
    rw [List.filter_eq_self.mpr hall, List.filter_filter] at hsolo
    simp only [Bool.and_self] at hsolo
    rw [results_filter_of_resident hdoc chrono hlimit windowDuration hC hnear, hsolo]

/-- Fourteen calls of a noisy neighbour that never gets past the limit, and the
    client next to it. -/
theorem results_isolated_noisy :
    let calls : List (Call String) :=
      ⟨"quiet", 0⟩ :: List.replicate 14 ⟨"noisy", 1⟩ ++ [⟨"quiet", 2⟩, ⟨"noisy", 3⟩, ⟨"quiet", 4⟩]
    ((RateLimiter.new 2 1000 2 : RateLimiter (LRUCache.reference String RateLimitWindow)).results
        .exact calls).filter (fun e => e.1.key = "quiet")
      = (RateLimiter.new 2 1000 1 : RateLimiter (LRUCache.reference String RateLimitWindow)).results
          .exact (calls.filter fun c => c.key = "quiet") := by
  intro calls
  refine results_isolated LRUCache.reference_documented LRUCache.reference_documented .exact 2 1000
    (show 0 < 2 by decide) (show 0 < 1 by decide) "quiet" calls ?_
  intro earlier c later hsplit hkey hseen
  -- only one other key occurs at all
  have htwo : calls.map Call.key ⊆ ["quiet", "noisy"] := by decide
  have hfinset : ((earlier.map Call.key).reverse).toFinset ⊆ {"quiet", "noisy"} := by
    intro j hj
    rw [List.mem_toFinset, List.mem_reverse] at hj
    have hin : j ∈ calls.map Call.key := by
      rw [hsplit, List.map_append]
      exact List.mem_append_left _ hj
    simpa using htwo hin
  refine (reuseDistance_lt_card (List.mem_reverse.mpr hseen)).trans_le ?_
  exact (Finset.card_le_card hfinset).trans (by decide)

-- ============================================================================
-- Names, clocks and caches
-- ============================================================================

/-- A call under another name of its key and `d` nanoseconds later. -/
def Call.translate (f : K → K') (d : Int) (c : Call K) : Call K' := ⟨f c.key, c.now + d⟩

/-- The expiry test looks at the difference of two times only. -/
def Chrono.TranslationInvariant (chrono : Chrono) : Prop :=
  ∀ a b d, chrono.sub (a + d) (b + d) = chrono.sub a b

theorem Chrono.exact_translationInvariant : Chrono.exact.TranslationInvariant := by
  intro a b d
  simp only [Chrono.exact]
  omega

theorem Chrono.int64_translationInvariant : Chrono.int64.TranslationInvariant := by
  intro a b d
  simp only [Chrono.int64, Int.add_sub_add_right]

/-- A window that starts `d` nanoseconds later. -/
def RateLimitWindow.translate (d : Int) (w : RateLimitWindow) : RateLimitWindow :=
  { w with windowStart := w.windowStart + d }

/-- The decision on a translated window at a translated time. -/
theorem windowStep_translate {chrono : Chrono} (hchrono : chrono.TranslationInvariant)
    (limit : UInt64) (windowDuration : Int) (d now : Int) (existing : Option RateLimitWindow) :
    windowStep chrono limit windowDuration (existing.map (RateLimitWindow.translate d)) (now + d)
      = ((windowStep chrono limit windowDuration existing now).1,
          (windowStep chrono limit windowDuration existing now).2.translate d) := by
  cases existing with
  | none => rfl
  | some w =>
      have hexpired : chrono.expired windowDuration (now + d) (w.translate d).windowStart
          = chrono.expired windowDuration now w.windowStart := by
        simp only [Chrono.expired, RateLimitWindow.translate, hchrono now w.windowStart d]
      simp only [Option.map_some, windowStep, hexpired]
      by_cases hexp : chrono.expired windowDuration now w.windowStart = true
      · simp only [if_pos hexp, RateLimitWindow.translate]
      · simp only [if_neg hexp]
        by_cases hroom : w.count < limit
        · rw [if_pos (show (w.translate d).count < limit from hroom), if_pos hroom]
          rfl
        · rw [if_neg (show ¬ (w.translate d).count < limit from hroom), if_neg hroom]

/-- **Names, clocks and caches do not matter.** Renaming the keys apart, moving
    all timestamps by the same amount and storing the windows in another
    documented cache leaves the results of every run as they are. -/
theorem results_equivariant (hdoc : cache.Documented view) {cache' : LRUCache K' RateLimitWindow}
    {view' : cache'.Store → LruStore K' RateLimitWindow} (hdoc' : cache'.Documented view')
    {chrono : Chrono} (hchrono : chrono.TranslationInvariant) (limit : UInt64)
    (windowDuration : Int) {C : Nat} (hC : 0 < C) {f : K → K'} (hf : Function.Injective f)
    (d : Int) (calls : List (Call K)) :
    (RateLimiter.new limit windowDuration C : RateLimiter cache').results chrono
        (calls.map (Call.translate f d))
      = ((RateLimiter.new limit windowDuration C : RateLimiter cache).results chrono calls).map
          (fun e => (e.1.translate f d, e.2)) := by
  by_cases hlimit : limit = 0
  · subst hlimit
    rw [(RateLimiter.run_zero chrono rfl _).1, (RateLimiter.run_zero chrono rfl _).1,
      List.map_map, List.map_map]
    rfl
  · rw [RateLimiter.results_eq_cached hdoc chrono hlimit windowDuration hC,
      RateLimiter.results_eq_cached hdoc' chrono hlimit windowDuration hC]
    exact (cached_equivariant Call.key (windowUpdate chrono limit windowDuration) Call.key
      (windowUpdate chrono limit windowDuration) hf (g := Call.translate f d)
      (h := RateLimitWindow.translate d) (fun _ => rfl) (fun v c => windowStep_translate hchrono limit windowDuration d c.now v) hC calls).1

/-- Lists as keys instead of numbers, an hour later, in the compiled arithmetic. -/
theorem results_equivariant_hour :
    let calls : List (Call Nat) := [⟨1, 0⟩, ⟨2, 5⟩, ⟨1, 10⟩, ⟨1, 1000000000⟩]
    (RateLimiter.new 1 1000 2 : RateLimiter (LRUCache.reference (List Nat) RateLimitWindow)).results
        .int64 (calls.map (Call.translate (fun n => [n]) 3600000000000))
      = ((RateLimiter.new 1 1000 2 :
            RateLimiter (LRUCache.reference Nat RateLimitWindow)).results .int64 calls).map
          (fun e => (e.1.translate (fun n => [n]) 3600000000000, e.2)) :=
  results_equivariant LRUCache.reference_documented LRUCache.reference_documented
    Chrono.int64_translationInvariant 1 1000 (show 0 < 2 by decide)
    (fun _ _ h => List.singleton_inj.mp h) 3600000000000 _

end RateThrottle
