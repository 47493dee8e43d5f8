/-
  RateThrottle.RateLimiter.Burst

  How many requests of one key get through in an interval of time.

  The header documents a burst of up to about twice the limit at a window
  boundary, and a free burst after an eviction.  Both are counted here at once.
  The windows of a key that are opened inside `[t, t + D)` are separated either
  by a whole window duration or by an eviction, and an eviction takes at least
  `C` calls on other keys; a window left over from before `t` has already spent
  the request that opened it.

  `Burst` is the invariant that carries this count through a run: before the
  first window is opened in the interval (`leftover`) and after it (`reopened`).
-/

import Mathlib.Data.Rat.Floor
import RateThrottle.RateLimiter.Refinement

namespace RateThrottle

variable {K : Type} [DecidableEq K]
variable {cache : LRUCache K RateLimitWindow} {view : cache.Store → LruStore K RateLimitWindow}

/-- The accepted requests `acc` of a key in `[t, t + D)` against the window
    stored for it, the calls on other keys since its last call (`since`) and
    those in the interval (`others`); `times` are all timestamps so far. -/
inductive Burst (limit C : Nat) (window t D : Int) (times : List Int)
    (stored : Option RateLimitWindow) (since others acc : Nat) : Prop
  /-- No window was opened in the interval yet. -/
  | leftover
      (hacc : acc + 1 ≤ limit)
      (hstored : ∀ w, stored = some w → w.windowStart < t ∧ acc + 1 ≤ w.count.toNat)
      (hinside : 0 < acc → ∃ x ∈ times, t ≤ x)
  /-- After the window opened at `first`, `again` more were opened, `evicted` of
      them because the one before was evicted; the last started at `last`. -/
  | reopened (first last : Int) (again evicted count : Nat)
      (hfirst : t ≤ first) (hle : first ≤ last) (hlast : last ∈ times) (hend : last < t + D)
      (hspan : first + again * window ≤ last + evicted * window)
      (hothers : evicted * C + since ≤ others)
      (hacc : acc + 1 ≤ limit * (again + 1) + count)
      (hcount : count ≤ limit)
      (hstored : (∃ w, stored = some w ∧ w.windowStart = last ∧ w.count.toNat = count) ∨
        stored = none ∧ C ≤ since)

/-- A call on the key itself, before the end of the interval and not earlier
    than any call before it. -/
theorem Burst.step_self {limit : UInt64} (hlimit : 1 ≤ limit.toNat) {C : Nat}
    {windowDuration t D now : Int} {times : List Int} {stored : Option RateLimitWindow}
    {since others acc : Nat} (hwindow : 0 < nanos windowDuration)
    (h : Burst limit.toNat C (nanos windowDuration) t D times stored since others acc)
    (hnow : ∀ x ∈ times, x ≤ now) (hend : now < t + D) :
    Burst limit.toNat C (nanos windowDuration) t D (times ++ [now])
      (some (windowStep .exact limit windowDuration stored now).2) 0 others
      (acc + if (windowStep .exact limit windowDuration stored now).1 && decide (t ≤ now)
        then 1 else 0) := by
  have hmem : now ∈ times ++ [now] := by simp
  have hdec := windowStep_decision .exact limit windowDuration now stored
  generalize windowStep .exact limit windowDuration stored now = r at hdec ⊢
  cases h with
  | leftover hacc hstored hinside =>
      have hearlier : (∃ x ∈ times, t ≤ x) → t ≤ now :=
        fun ⟨x, hx, htx⟩ => htx.trans (hnow x hx)
      by_cases ht : t ≤ now
      · cases hdec with
        | opened _ _ =>
            -- the first window of the interval
            refine .reopened now now 0 0 1 ht le_rfl hmem hend (by simp) (by simp) ?_ hlimit
              (Or.inl ⟨_, rfl, rfl, rfl⟩)
            simp only [Bool.true_and, decide_eq_true_eq, if_pos ht]
            omega
        | counted w hlive hroom =>
            obtain ⟨hstart, hspent⟩ := hstored w rfl
            have hlt := UInt64.lt_iff_toNat_lt.mp hroom
            simp only [Bool.true_and, decide_eq_true_eq, if_pos ht]
            refine .leftover (by omega) (fun w' hw' => ?_) (fun _ => ⟨now, hmem, ht⟩)
            obtain rfl := Option.some.inj hw'
            rw [toNat_count_succ hroom]
            exact ⟨hstart, by omega⟩
        | denied w hlive hfull =>
            refine .leftover (by simpa using hacc) (fun w' hw' => ?_)
              (fun _ => ⟨now, hmem, ht⟩)
            obtain rfl := Option.some.inj hw'
            simpa using hstored w rfl
      · have hzero : acc = 0 := by
          by_contra hne
          exact ht (hearlier (hinside (by omega)))
        subst hzero
        simp only [ht, decide_false, Bool.and_false, Bool.false_eq_true, if_false]
        refine .leftover hacc (fun w' hw' => ?_) (by omega)
        obtain rfl := Option.some.inj hw'
        cases hdec with
        | opened _ _ => exact ⟨by simpa using ht, by simp⟩
        | counted w hlive hroom =>
            rw [toNat_count_succ hroom]
            exact ⟨(hstored w rfl).1, by omega⟩
        | denied w hlive hfull => exact hstored w rfl
  | reopened first last again evicted count hfirst hle hlast hlend hspan hothers hacc hcount
      hstored =>
      have hln : last ≤ now := hnow last hlast
      have ht : t ≤ now := by omega
      cases hdec with
      | opened _ hgone =>
          simp only [Bool.true_and, decide_eq_true_eq, if_pos ht]
          have hfull : acc + 1 + 1 ≤ limit.toNat * (again + 1 + 1) + 1 := by
            rw [Nat.mul_add _ (again + 1) 1]
            omega
          rcases hstored with ⟨w, rfl, rfl, -⟩ | ⟨-, hsince⟩
          · -- expired: a whole window after the previous start
            have hexp := (Chrono.expired_exact _ _ _).mp (hgone w rfl)
            refine .reopened first now (again + 1) evicted 1 hfirst (by omega) hmem hend ?_
              (by omega) hfull hlimit (Or.inl ⟨_, rfl, rfl, rfl⟩)
            push_cast
            rw [Int.add_mul]
            omega
          · -- evicted: `C` more calls on other keys
            refine .reopened first now (again + 1) (evicted + 1) 1 hfirst (by omega) hmem hend ?_
              ?_ hfull hlimit (Or.inl ⟨_, rfl, rfl, rfl⟩)
            · push_cast
              rw [Int.add_mul, Int.add_mul]
              omega
            · rw [Nat.add_mul]
              omega
      | counted w hlive hroom =>
          obtain ⟨w', hw', hstart, hcnt⟩ | ⟨hnone, -⟩ := hstored
          · obtain rfl := Option.some.inj hw'
            have hlt := UInt64.lt_iff_toNat_lt.mp hroom
            simp only [Bool.true_and, decide_eq_true_eq, if_pos ht]
            exact .reopened first last again evicted (count + 1) hfirst hle
              (List.mem_append_left _ hlast) hlend hspan (by omega) (by omega) (by omega)
              (Or.inl ⟨_, rfl, hstart, by rw [toNat_count_succ hroom, hcnt]⟩)
          · simp at hnone
      | denied w hlive hfull =>
          obtain ⟨w', hw', hstart, hcnt⟩ | ⟨hnone, -⟩ := hstored
          · obtain rfl := Option.some.inj hw'
            exact .reopened first last again evicted count hfirst hle
              (List.mem_append_left _ hlast) hlend hspan (by omega) (by simpa using hacc) hcount
              (Or.inl ⟨_, rfl, hstart, hcnt⟩)
          · simp at hnone

/-- A call on another key, which can evict the key's window only when `C` calls
    on other keys have been made since the key's last call. -/
theorem Burst.step_other {limit C : Nat} {window t D now : Int} {times : List Int}
    {stored stored' : Option RateLimitWindow} {since others acc : Nat}
    (h : Burst limit C window t D times stored since others acc)
    (hnow : ∀ x ∈ times, x ≤ now)
    (hkept : stored' = stored ∨ stored' = none ∧ C ≤ since + 1) :
    Burst limit C window t D (times ++ [now]) stored' (since + 1)
      (others + if decide (t ≤ now) then 1 else 0) acc := by
  cases h with
  | leftover hacc hstored hinside =>
      refine .leftover hacc (fun w hw => ?_) fun hpos => ?_
      · rcases hkept with rfl | ⟨rfl, -⟩
        · exact hstored w hw
        · simp at hw
      · obtain ⟨x, hx, htx⟩ := hinside hpos
        exact ⟨x, List.mem_append_left _ hx, htx⟩
  | reopened first last again evicted count hfirst hle hlast hlend hspan hothers hacc hcount
      hstored =>
      have ht : t ≤ now := by
        have := hnow last hlast
        omega
      simp only [ht, decide_true, if_true]
      refine .reopened first last again evicted count hfirst hle (List.mem_append_left _ hlast)
        hlend hspan (by omega) hacc hcount ?_
      rcases hkept with rfl | ⟨rfl, hC⟩
      · exact hstored.imp_right fun ⟨hnone, hsince⟩ => ⟨hnone, by omega⟩
      · exact Or.inr ⟨rfl, hC⟩

/-- What the invariant says about the accepted requests. -/
theorem Burst.accepted_le {limit C : Nat} {window t D : Int} {times : List Int}
    {stored : Option RateLimitWindow} {since others acc : Nat} (hwindow : 0 < window)
    (hD : 0 < D) (hC : 0 < C) (h : Burst limit C window t D times stored since others acc) :
    acc + 1 ≤ limit * (⌈(D : ℚ) / window⌉₊ + others / C + 1) := by
  cases h with
  | leftover hacc _ _ => exact hacc.trans (Nat.le_mul_of_pos_right _ (Nat.succ_pos _))
  | reopened first last again evicted count hfirst hle hlast hend hspan hothers hacc hcount _ =>
      have hevicted : evicted ≤ others / C := (Nat.le_div_iff_mul_le hC).mpr (by omega)
      -- the openings that are not due to an eviction are a window apart
      have hfit : ((again - evicted : Nat) : Int) * window < D := by
        rcases Nat.le_total again evicted with hsub | hsub
        · rw [Nat.sub_eq_zero_of_le hsub]
          simpa using hD
        · push_cast [hsub]
          rw [Int.sub_mul]
          omega
      have hceil : again - evicted < ⌈(D : ℚ) / window⌉₊ := by
        rw [Nat.lt_ceil, lt_div_iff₀ (by exact_mod_cast hwindow)]
        exact_mod_cast hfit
      calc acc + 1 ≤ limit * (again + 1) + limit := by omega
        _ = limit * (again + 1 + 1) := by rw [Nat.mul_add _ (again + 1) 1, Nat.mul_one]
        _ ≤ limit * (⌈(D : ℚ) / window⌉₊ + others / C + 1) :=
            Nat.mul_le_mul_left _ (by omega)

/-! ## The count over a run -/

/-- The calls since the last call on `key`. -/
def callsSince (key : K) (calls : List (Call K)) : Nat :=
  ((calls.map Call.key).reverse.takeWhile (· ≠ key)).length

theorem callsSince_concat_self (calls : List (Call K)) (call : Call K) :
    callsSince call.key (calls ++ [call]) = 0 := by
  simp [callsSince]

theorem callsSince_concat_of_ne (calls : List (Call K)) {call : Call K} {key : K}
    (hne : key ≠ call.key) : callsSince key (calls ++ [call]) = callsSince key calls + 1 := by
  simp [callsSince, Ne.symm hne]

/-- The calls on other keys with a timestamp in `[t, t + D)`. -/
def otherCalls (key : K) (t D : Int) (calls : List (Call K)) : Nat :=
  calls.countP fun c => c.key ≠ key ∧ t ≤ c.now ∧ c.now < t + D

/-- The invariant after every run that has not passed the end of the interval. -/
theorem burst_run (hdoc : cache.Documented view) {limit : UInt64} (hlimit : 1 ≤ limit)
    {windowDuration : Int} (hwindow : 0 < windowDuration) {C : Nat} (hC : 0 < C) (key : K)
    (t D : Int) (calls : List (Call K)) (hmono : (calls.map Call.now).Pairwise (· ≤ ·))
    (hend : ∀ c ∈ calls, c.now < t + D) :
    Burst limit.toNat C (nanos windowDuration) t D (calls.map Call.now)
      (storedWindow .exact limit windowDuration C calls key) (callsSince key calls)
      (otherCalls key t D calls)
      (acceptedCalls (fun c => c.key = key ∧ t ≤ c.now ∧ c.now < t + D)
        ((RateLimiter.new limit windowDuration C : RateLimiter cache).results .exact calls)) := by
  have hne := limit_ne_zero hlimit
  have hpos := one_le_toNat hne
  have hnanos := nanos_pos hwindow
  induction calls using List.reverseRecOn with
  | nil => exact .leftover hpos (by simp) (by simp [RateLimiter.results])
  | append_singleton calls call ih =>
      rw [List.map_append, List.pairwise_append] at hmono
      have hnow : ∀ x ∈ calls.map Call.now, x ≤ call.now :=
        fun x hx => hmono.2.2 x hx _ (by simp)
      have hcall : call.now < t + D := hend call (by simp)
      have hinv := ih hmono.1 fun c hc => hend c (List.mem_append_left _ hc)
      rw [results_concat .exact windowDuration hdoc hne hC, acceptedCalls_concat, List.map_append]
      by_cases hkey : key = call.key
      · subst hkey
        rw [storedWindow_concat_self .exact windowDuration hC, callsSince_concat_self]
        have hsame : otherCalls call.key t D (calls ++ [call]) = otherCalls call.key t D calls := by
          simp [otherCalls]
        rw [hsame]
        simpa [hcall] using hinv.step_self hpos hnanos hnow hcall
      · rw [callsSince_concat_of_ne calls hkey]
        have hone : otherCalls key t D (calls ++ [call])
            = otherCalls key t D calls + if decide (t ≤ call.now) then 1 else 0 := by
          simp [otherCalls, List.countP_append, List.countP_singleton, Ne.symm hkey, hcall]
        have hkept : storedWindow .exact limit windowDuration C (calls ++ [call]) key
              = storedWindow .exact limit windowDuration C calls key ∨
            storedWindow .exact limit windowDuration C (calls ++ [call]) key = none ∧
              C ≤ callsSince key calls + 1 := by
          rw [storedWindow_concat_of_ne .exact windowDuration hC calls hkey,
            ← callsSince_concat_of_ne calls hkey]
          split
          · next hfar =>
              exact Or.inr ⟨rfl, hfar.trans (Recency.reuseDistance_le_length _ _)⟩
          · exact Or.inl rfl
        rw [hone]
        simpa [Ne.symm hkey] using hinv.step_other hnow hkept

end RateThrottle
