/-
  RateThrottle.RateLimiter.Resident

  Runs in which nothing is evicted, and the requests of one key in them.

  While at most `cacheCapacity` distinct keys occur, the limiter is an unbounded
  map of windows, and the calls on one key see a machine of their own whose
  only state is that key's window (`results_filter`).  Two bounds on this
  single-window machine are proved here for timestamps in any order: how much
  it accepts while the window cannot expire (`accepted_live`), and how much it
  accepts at all (`accepted_from_window`).
-/

import RateThrottle.RateLimiter.Refinement

namespace RateThrottle

open Mealy KeyedRun

variable {K : Type}

section FewKeys

variable [DecidableEq K] {cache : LRUCache K RateLimitWindow}
  {view : cache.Store → LruStore K RateLimitWindow}
variable (chrono : Chrono) {limit : UInt64} (windowDuration : Int) {C : Nat}

theorem capacity_pos_of_few {calls : List (Call K)} {call : Call K} (hcall : call ∈ calls)
    (hfew : (calls.map Call.key).toFinset.card ≤ C) : 0 < C := by
  refine Nat.lt_of_lt_of_le (Finset.card_pos.mpr ⟨call.key, ?_⟩) hfew
  rw [List.mem_toFinset]
  exact List.mem_map_of_mem hcall

/-- Without evictions the limiter is an unbounded map of windows. -/
theorem results_eq_map (hdoc : cache.Documented view) (hlimit : limit ≠ 0) {calls : List (Call K)}
    (hfew : (calls.map Call.key).toFinset.card ≤ C) :
    (RateLimiter.new limit windowDuration C : RateLimiter cache).results chrono calls
      = trace (mapStep Call.key (windowUpdate chrono limit windowDuration)) (fun _ => none)
          calls := by
  cases calls with
  | nil => rfl
  | cons call calls =>
      have hC : 0 < C := capacity_pos_of_few (List.mem_cons_self ..) hfew
      rw [RateLimiter.results_eq_cached hdoc chrono hlimit windowDuration hC]
      exact (cached_map_trace Call.key _ _ hfew).1

/-- Without evictions the stored windows are those of the unbounded map. -/
theorem lookup_after_eq_map (hdoc : cache.Documented view) (hlimit : limit ≠ 0) (hC : 0 < C)
    {calls : List (Call K)} (hfew : (calls.map Call.key).toFinset.card ≤ C) (key : K) :
    (view ((RateLimiter.new limit windowDuration C : RateLimiter cache).after chrono
        calls).cache_).lookup key
      = final (mapStep Call.key (windowUpdate chrono limit windowDuration)) (fun _ => none)
          calls key := by
  rw [(RateLimiter.represents_after hdoc chrono hlimit windowDuration hC calls).view_eq]
  exact (cached_map_trace Call.key _ _ hfew).2 key

/-- Without evictions the calls on one key form a run of their own. -/
theorem results_filter (hdoc : cache.Documented view) (hlimit : limit ≠ 0) {calls : List (Call K)}
    (hfew : (calls.map Call.key).toFinset.card ≤ C) (key : K) :
    ((RateLimiter.new limit windowDuration C : RateLimiter cache).results chrono calls).filter
        (fun e => e.1.key = key)
      = trace (slotStep (windowUpdate chrono limit windowDuration)) none
          (calls.filter fun c => c.key = key) := by
  rw [results_eq_map chrono windowDuration hdoc hlimit hfew]
  exact (map_trace_filter Call.key _ _ calls key).1

/-- The accepted calls on one key, counted in its own run. -/
theorem acceptedCalls_key (hdoc : cache.Documented view) (hlimit : limit ≠ 0)
    {calls : List (Call K)} (hfew : (calls.map Call.key).toFinset.card ≤ C) (key : K) :
    acceptedCalls (fun c => c.key = key)
        ((RateLimiter.new limit windowDuration C : RateLimiter cache).results chrono calls)
      = acceptedCalls (fun _ => true)
          (trace (slotStep (windowUpdate chrono limit windowDuration)) none
            (calls.filter fun c => c.key = key)) := by
  rw [← results_filter chrono windowDuration hdoc hlimit hfew, acceptedCalls, acceptedCalls,
    List.countP_filter]
  simp

end FewKeys

/-! ## The window of one key -/

/-- One call of a single-key run. -/
theorem slot_trace_cons (chrono : Chrono) (limit : UInt64) (windowDuration : Int)
    (stored : Option RateLimitWindow) (call : Call K) (calls : List (Call K)) :
    trace (slotStep (windowUpdate chrono limit windowDuration)) stored (call :: calls)
      = (call, (windowStep chrono limit windowDuration stored call.now).1)
        :: trace (slotStep (windowUpdate chrono limit windowDuration))
            (some (windowStep chrono limit windowDuration stored call.now).2) calls := rfl

/-- While the window cannot expire it accepts until its count reaches the limit. -/
theorem accepted_live {limit : UInt64} {windowDuration : Int} {w : RateLimitWindow}
    (hcount : w.count.toNat ≤ limit.toNat) {calls : List (Call K)}
    (hlive : ∀ c ∈ calls, c.now < w.windowStart + nanos windowDuration) :
    w.count.toNat + acceptedCalls (fun _ => true)
        (trace (slotStep (windowUpdate .exact limit windowDuration)) (some w) calls)
      = min (w.count.toNat + calls.length) limit.toNat := by
  induction calls generalizing w with
  | nil => simpa using hcount
  | cons call calls ih =>
      have hnow := hlive call (List.mem_cons_self ..)
      have hrest : ∀ c ∈ calls, c.now < w.windowStart + nanos windowDuration :=
        fun c hc => hlive c (List.mem_cons_of_mem _ hc)
      rw [slot_trace_cons, acceptedCalls_cons, List.length_cons]
      have hdec := windowStep_decision .exact limit windowDuration call.now (some w)
      generalize windowStep .exact limit windowDuration (some w) call.now = r at hdec ⊢
      cases hdec with
      | opened _ hgone =>
          have hexp := (Chrono.expired_exact _ _ _).mp (hgone w rfl)
          omega
      | counted _ _ hroom =>
          have hlt := UInt64.lt_iff_toNat_lt.mp hroom
          have hsucc := toNat_count_succ hroom
          have hnext := ih (w := { w with count := w.count + 1 })
            (by rw [hsucc]; omega) hrest
          rw [hsucc] at hnext
          simp only [Bool.and_self, if_true]
          omega
      | denied _ _ hfull =>
          have hge := UInt64.le_iff_toNat_le.mp hfull
          have hnext := ih hcount hrest
          simp only [Bool.and_true, Bool.false_eq_true, if_false]
          omega

/-- Successive windows of one key start a window duration apart, whatever the
    order of the timestamps, so only so many fit below a latest timestamp. -/
theorem accepted_from_window {limit : UInt64} (hlimit : 1 ≤ limit.toNat) {windowDuration : Int}
    (hwindow : 0 < nanos windowDuration) {latest : Int} {w : RateLimitWindow}
    (hcount : w.count.toNat ≤ limit.toNat) (hstart : w.windowStart ≤ latest)
    {calls : List (Call K)} (hlatest : ∀ c ∈ calls, c.now ≤ latest) :
    (w.count.toNat + acceptedCalls (fun _ => true)
        (trace (slotStep (windowUpdate .exact limit windowDuration)) (some w) calls) : Int)
      ≤ limit.toNat * (1 + (latest - w.windowStart) / nanos windowDuration) := by
  induction calls generalizing w with
  | nil =>
      have hdiv : 0 ≤ (latest - w.windowStart) / nanos windowDuration :=
        Int.ediv_nonneg (by omega) hwindow.le
      rw [trace_nil, acceptedCalls_nil, Int.mul_add]
      have := Int.mul_nonneg (Int.natCast_nonneg limit.toNat) hdiv
      omega
  | cons call calls ih =>
      have hnow := hlatest call (List.mem_cons_self ..)
      have hrest : ∀ c ∈ calls, c.now ≤ latest := fun c hc => hlatest c (List.mem_cons_of_mem _ hc)
      rw [slot_trace_cons, acceptedCalls_cons]
      have hdec := windowStep_decision .exact limit windowDuration call.now (some w)
      generalize windowStep .exact limit windowDuration (some w) call.now = r at hdec ⊢
      cases hdec with
      | opened _ hgone =>
          have hexp := (Chrono.expired_exact _ _ _).mp (hgone w rfl)
          have hnext := ih (w := ⟨call.now, 1⟩) hlimit hnow hrest
          -- the new window starts at least one duration later
          have hdiv : (latest - call.now) / nanos windowDuration + 1
              ≤ (latest - w.windowStart) / nanos windowDuration := by
            rw [← Int.add_mul_ediv_right _ 1 hwindow.ne', Int.one_mul]
            exact Int.ediv_le_ediv hwindow (by omega)
          have hmul := Int.mul_le_mul_of_nonneg_left hdiv (Int.natCast_nonneg limit.toNat)
          simp only [Int.mul_add, Int.mul_one, UInt64.reduceToNat] at hnext hmul ⊢
          simp only [Bool.and_self, if_true]
          push_cast at hnext ⊢
          omega
      | counted _ _ hroom =>
          have hlt := UInt64.lt_iff_toNat_lt.mp hroom
          have hsucc := toNat_count_succ hroom
          have hnext := ih (w := { w with count := w.count + 1 })
            (by rw [hsucc]; omega) hstart hrest
          rw [hsucc] at hnext
          simp only [Bool.and_self, if_true]
          push_cast at hnext ⊢
          omega
      | denied _ _ hfull =>
          have hnext := ih hcount hstart hrest
          simpa using hnext

/-- A key whose first request is at most a window duration older than all others
    gets exactly the limit. -/
theorem accepted_from_first {limit : UInt64} (hlimit : 1 ≤ limit.toNat) {windowDuration : Int}
    {first : Call K} {calls : List (Call K)}
    (hlive : ∀ c ∈ calls, c.now < first.now + nanos windowDuration) :
    acceptedCalls (fun _ => true)
        (trace (slotStep (windowUpdate .exact limit windowDuration)) none (first :: calls))
      = min (first :: calls).length limit.toNat := by
  have hopen : windowStep .exact limit windowDuration none first.now = (true, ⟨first.now, 1⟩) := rfl
  have hrest := accepted_live (w := ⟨first.now, 1⟩) hlimit hlive
  rw [slot_trace_cons, acceptedCalls_cons, hopen, List.length_cons]
  simp only [Bool.and_self, if_true, UInt64.reduceToNat] at hrest ⊢
  omega

/-! ## Bounds on the accepted requests of one key -/

section KeyBounds

variable [DecidableEq K] {cache : LRUCache K RateLimitWindow}
  {view : cache.Store → LruStore K RateLimitWindow}
variable {limit : UInt64} {windowDuration : Int} {C : Nat} {calls : List (Call K)} {key : K}

/-- What a key gets in all, from the span of its timestamps. -/
theorem accepted_le_of_span (hdoc : cache.Documented view) (hlimit : 1 ≤ limit)
    (hwindow : 0 < windowDuration) (hfew : (calls.map Call.key).toFinset.card ≤ C)
    {least latest : Int} (hspan : least ≤ latest) (hleast : ∀ t ∈ timesOn key calls, least ≤ t)
    (hlatest : ∀ t ∈ timesOn key calls, t ≤ latest) :
    (acceptedCalls (fun c => c.key = key)
        ((RateLimiter.new limit windowDuration C : RateLimiter cache).results .exact calls) : Int)
      ≤ limit.toNat * (1 + (latest - least) / nanos windowDuration) := by
  have hne := limit_ne_zero hlimit
  have hpos := one_le_toNat hne
  have hnanos := nanos_pos hwindow
  rw [acceptedCalls_key .exact windowDuration hdoc hne hfew]
  have htimes : ∀ c ∈ calls.filter (fun c => c.key = key), c.now ∈ timesOn key calls :=
    fun c hc => List.mem_map_of_mem hc
  generalize calls.filter (fun c => c.key = key) = own at htimes
  cases own with
  | nil =>
      have hdiv : 0 ≤ (latest - least) / nanos windowDuration :=
        Int.ediv_nonneg (by omega) hnanos.le
      exact Int.mul_nonneg (Int.natCast_nonneg _) (by omega)
  | cons first rest =>
      have hfirst := htimes first (List.mem_cons_self ..)
      have hbound := accepted_from_window (w := ⟨first.now, 1⟩) hpos hnanos hpos
        (hlatest _ hfirst)
        (fun c hc => hlatest _ (htimes c (List.mem_cons_of_mem _ hc)))
      have hopen : windowStep .exact limit windowDuration none first.now
        = (true, ⟨first.now, 1⟩) := rfl
      -- starting at the least timestamp leaves room for the most windows
      have hdiv : (latest - first.now) / nanos windowDuration
          ≤ (latest - least) / nanos windowDuration :=
        Int.ediv_le_ediv hnanos (by have := hleast _ hfirst; omega)
      have hmul := Int.mul_le_mul_of_nonneg_left hdiv (Int.natCast_nonneg limit.toNat)
      rw [slot_trace_cons, acceptedCalls_cons, hopen]
      simp only [Int.mul_add, Bool.and_self, if_true, UInt64.reduceToNat] at hbound hmul ⊢
      push_cast at hbound ⊢
      omega

/-- What a key gets when all its timestamps lie within one window duration. -/
theorem accepted_eq_of_span_lt (hdoc : cache.Documented view) (hlimit : 1 ≤ limit)
    (hfew : (calls.map Call.key).toFinset.card ≤ C) {least latest : Int}
    (hspan : latest - least < nanos windowDuration) (hleast : ∀ t ∈ timesOn key calls, least ≤ t)
    (hlatest : ∀ t ∈ timesOn key calls, t ≤ latest) :
    acceptedCalls (fun c => c.key = key)
        ((RateLimiter.new limit windowDuration C : RateLimiter cache).results .exact calls)
      = min (timesOn key calls).length limit.toNat := by
  have hne := limit_ne_zero hlimit
  rw [acceptedCalls_key .exact windowDuration hdoc hne hfew]
  have htimes : ∀ c ∈ calls.filter (fun c => c.key = key), c.now ∈ timesOn key calls :=
    fun c hc => List.mem_map_of_mem hc
  have hlength : (timesOn key calls).length = (calls.filter (fun c => c.key = key)).length :=
    List.length_map ..
  rw [hlength]
  generalize calls.filter (fun c => c.key = key) = own at htimes
  cases own with
  | nil => rfl
  | cons first rest =>
      have hfirst := hleast _ (htimes first (List.mem_cons_self ..))
      refine accepted_from_first (one_le_toNat hne) (fun c hc => ?_)
      have hlast := hlatest _ (htimes c (List.mem_cons_of_mem _ hc))
      omega

end KeyBounds

end RateThrottle
