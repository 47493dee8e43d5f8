/-
  RateThrottle.RateLimiter.StoreHistory

  What the stored windows say about the calls made so far.

  A call opens a window when it takes one of the two paths to
  `cache_.put(key, RateLimitWindow{now, 1})`.  Every entry of the cache was
  opened by such a call on its key, no later call on the key opened another,
  and its count is the number of requests on the key accepted from that call on
  (`WindowHistory`).  The count therefore stays within the limit, so that
  `++existing->count` never wraps, and a window that replaces a stored one
  starts only when the stored one has expired.
-/

import RateThrottle.RateLimiter.TimeArithmetic

namespace RateThrottle

open Mealy KeyedRun

variable {K : Type} {cache : LRUCache K RateLimitWindow}

namespace RateLimiter

/-! ## Calls that open a window -/

/-- `allow` reaches `cache_.put(key, RateLimitWindow{now, 1})`. -/
def opensWindow (chrono : Chrono) (self : RateLimiter cache) (key : K) (now : Int) : Bool :=
  self.requestsPerWindow_ != 0 &&
    match (cache.get self.cache_ key).1 with
    | none => true
    | some existing => chrono.expired self.windowDuration_ now existing.windowStart

/-- A call that opens a window is accepted and puts the window. -/
theorem allow_of_opensWindow {chrono : Chrono} {self : RateLimiter cache} {key : K} {now : Int}
    (hopens : self.opensWindow chrono key now = true) :
    self.allow chrono key now
      = freshWindow { self with cache_ := (cache.get self.cache_ key).2 } key now := by
  rw [opensWindow, Bool.and_eq_true, bne_iff_ne] at hopens
  obtain ⟨hlimit, hget⟩ := hopens
  rw [allow_nonzero chrono hlimit]
  cases hexisting : (cache.get self.cache_ key).1 with
  | none => rfl
  | some existing =>
      simp only [hexisting] at hget
      show (if _ then _ else _) = _
      rw [if_pos hget]

end RateLimiter

open RateLimiter

variable [DecidableEq K] {view : cache.Store → LruStore K RateLimitWindow}
variable (chrono : Chrono) {limit : UInt64} (windowDuration : Int) {C : Nat}

/-- Whether the next call opens a window is read off the stored one. -/
theorem opensWindow_after (hdoc : cache.Documented view) (hlimit : limit ≠ 0) (hC : 0 < C)
    (calls : List (Call K)) (key : K) (now : Int) :
    ((new limit windowDuration C : RateLimiter cache).after chrono calls).opensWindow chrono key now
        = true
      ↔ ∀ w, storedWindow chrono limit windowDuration C calls key = some w →
          chrono.expired windowDuration now w.windowStart = true := by
  have hrep := represents_after hdoc chrono hlimit windowDuration hC calls
  have hstored : (cache.get ((new limit windowDuration C : RateLimiter cache).after chrono
      calls).cache_ key).1 = storedWindow chrono limit windowDuration C calls key := by
    rw [hdoc.get_value, hrep.view_eq]
    rfl
  rw [opensWindow, hrep.limit_eq, hrep.window_eq, hstored, Bool.and_eq_true, bne_iff_ne]
  cases storedWindow chrono limit windowDuration C calls key with
  | none => simp [hlimit]
  | some w => simp [hlimit]

/-! ## The history of an entry -/

/-- The entry `(key, w)` as the calls of a run account for it: `opener` opened
    the window, no call on the key opened another one since, and `count` is the
    number of calls on the key accepted from `opener` on. -/
structure WindowHistory (chrono : Chrono) (limiter : RateLimiter cache) (calls : List (Call K))
    (key : K) (w : RateLimitWindow) (before : List (Call K)) (opener : Call K)
    (rest : List (Call K)) : Prop where
  split : calls = before ++ opener :: rest
  key_eq : opener.key = key
  now_eq : opener.now = w.windowStart
  accepted : ((limiter.after chrono before).allow chrono key opener.now).1 = true
  opens : (limiter.after chrono before).opensWindow chrono key opener.now = true
  last : ∀ mid call later, rest = mid ++ call :: later → call.key = key →
    (limiter.after chrono (before ++ opener :: mid)).opensWindow chrono key call.now = false
  count_eq : w.count.toNat = acceptedCalls (fun c => c.key = key)
    ((limiter.after chrono before).results chrono (opener :: rest))

section WindowHistory

variable {windowDuration}
variable {calls before rest : List (Call K)} {opener : Call K} {key : K} {w : RateLimitWindow}
  {limiter : RateLimiter cache}

/-- One more call that opens no window for the key extends the history. -/
theorem WindowHistory.concat {chrono : Chrono}
    (h : WindowHistory chrono limiter calls key w before opener rest) {call : Call K}
    {w' : RateLimitWindow} (hstart : w'.windowStart = w.windowStart)
    (hlast : call.key = key →
      (limiter.after chrono calls).opensWindow chrono key call.now = false)
    (hcount : w'.count.toNat = w.count.toNat
      + if ((limiter.after chrono calls).allow chrono call.key call.now).1 && decide (call.key = key)
          then 1 else 0) :
    WindowHistory chrono limiter (calls ++ [call]) key w' before opener (rest ++ [call]) where
  split := by rw [h.split, List.append_assoc, List.cons_append]
  key_eq := h.key_eq
  now_eq := by rw [h.now_eq, hstart]
  accepted := h.accepted
  opens := h.opens
  last := by
    intro mid call' later hsplit hkey
    -- the call asked about is the new one or one of the old rest
    rcases List.eq_nil_or_concat later with rfl | ⟨later', last, rfl⟩
    · obtain ⟨rfl, hcall⟩ := List.append_inj' hsplit rfl
      obtain rfl := List.singleton_inj.mp hcall
      rw [← h.split]
      exact hlast hkey
    · have hrest : rest = mid ++ call' :: later' := by
        rw [List.concat_eq_append, ← List.cons_append, ← List.append_assoc] at hsplit
        exact (List.append_inj' hsplit rfl).1
      exact h.last mid call' later' hrest hkey
  count_eq := by
    have hafter : (limiter.after chrono before).after chrono (opener :: rest)
        = limiter.after chrono calls := by
      rw [h.split]
      exact (final_append _ _ _ _).symm
    have hresults : (limiter.after chrono before).results chrono (opener :: (rest ++ [call]))
        = (limiter.after chrono before).results chrono (opener :: rest)
          ++ [(call, ((limiter.after chrono calls).allow chrono call.key call.now).1)] := by
      rw [← hafter]
      exact trace_concat _ _ (opener :: rest) call
    rw [hresults, acceptedCalls_concat, ← h.count_eq]
    exact hcount

/-- A call that opens a window starts its history. -/
theorem WindowHistory.start {chrono : Chrono} {now : Int}
    (hopens : (limiter.after chrono calls).opensWindow chrono key now = true) :
    WindowHistory chrono limiter (calls ++ [⟨key, now⟩]) key ⟨now, 1⟩ calls ⟨key, now⟩ [] where
  split := rfl
  key_eq := rfl
  now_eq := rfl
  accepted := by rw [allow_of_opensWindow hopens]; rfl
  opens := hopens
  last := by
    intro mid call later hsplit
    cases mid <;> simp at hsplit
  count_eq := by
    have hresult : ((limiter.after chrono calls).allow chrono key now).1 = true := by
      rw [allow_of_opensWindow hopens]
      rfl
    show _ = acceptedCalls _ [(⟨key, now⟩, ((limiter.after chrono calls).allow chrono key now).1)]
    simp [acceptedCalls, hresult]

/-- The opener counts itself. -/
theorem WindowHistory.one_le_count {chrono : Chrono}
    (h : WindowHistory chrono limiter calls key w before opener rest) : 1 ≤ w.count.toNat := by
  rw [h.count_eq]
  show 1 ≤ acceptedCalls _ ((opener, ((limiter.after chrono before).allow chrono opener.key
    opener.now).1) :: _)
  rw [acceptedCalls_cons, h.key_eq, h.accepted]
  simp

end WindowHistory

/-- Every stored window is accounted for by the calls made. -/
theorem storedWindow_history (hdoc : cache.Documented view) (hlimit : limit ≠ 0) (hC : 0 < C)
    (calls : List (Call K)) (key : K) (w : RateLimitWindow)
    (hw : storedWindow chrono limit windowDuration C calls key = some w) :
    ∃ before opener rest, WindowHistory chrono
      (new limit windowDuration C : RateLimiter cache) calls key w before opener rest := by
  refine storedWindow_induction chrono windowDuration hC key
    (P := fun calls w => ∃ before opener rest, WindowHistory chrono
      (new limit windowDuration C : RateLimiter cache) calls key w before opener rest)
    (fun calls now ih => ?_) (fun calls call w hne h => ?_) calls w hw
  · have hopens := opensWindow_after chrono windowDuration hdoc hlimit hC calls key now
    have hallow := allow_after chrono windowDuration hdoc hlimit hC calls key now
    have hdec := windowStep_decision chrono limit windowDuration now
      (storedWindow chrono limit windowDuration C calls key)
    generalize windowStep chrono limit windowDuration
      (storedWindow chrono limit windowDuration C calls key) now = r at hallow hdec ⊢
    generalize storedWindow chrono limit windowDuration C calls key = stored at ih hopens hdec
    -- a live window keeps the call from opening another
    have hclosed : ∀ v, stored = some v →
        chrono.expired windowDuration now v.windowStart = false →
          ((new limit windowDuration C : RateLimiter cache).after chrono calls).opensWindow
            chrono key now = false := by
      intro v hv hlive
      rw [Bool.eq_false_iff, Ne, hopens]
      intro hexp
      exact absurd (hexp v hv) (by simp [hlive])
    cases hdec with
    | opened _ hgone => exact ⟨calls, ⟨key, now⟩, [], .start (hopens.mpr hgone)⟩
    | counted v hlive hroom =>
        obtain ⟨before, opener, rest, h⟩ := ih v rfl
        refine ⟨before, opener, rest ++ [⟨key, now⟩], ?_⟩
        apply h.concat
        · rfl
        · exact fun _ => hclosed v rfl hlive
        · rw [hallow]
          simpa using toNat_count_succ hroom
    | denied v hlive _ =>
        obtain ⟨before, opener, rest, h⟩ := ih v rfl
        refine ⟨before, opener, rest ++ [⟨key, now⟩], ?_⟩
        apply h.concat
        · rfl
        · exact fun _ => hclosed v rfl hlive
        · rw [hallow]
          simp
  · obtain ⟨before, opener, rest, h⟩ := h
    refine ⟨before, opener, rest ++ [call], h.concat rfl (fun hkey => absurd hkey.symm hne) ?_⟩
    simp [Ne.symm hne]

/-! ## Successive windows of a resident key -/

/-- As long as no call on its key opens another window, a stored window is the
    one that was opened. -/
theorem storedWindow_start_eq (hdoc : cache.Documented view) (hlimit : limit ≠ 0) (hC : 0 < C)
    {before mid : List (Call K)} {first : Call K}
    (hopens : ((new limit windowDuration C : RateLimiter cache).after chrono before).opensWindow
      chrono first.key first.now = true)
    (hclosed : ∀ m call later, mid = m ++ call :: later → call.key = first.key →
      ((new limit windowDuration C : RateLimiter cache).after chrono
        (before ++ first :: m)).opensWindow chrono first.key call.now = false)
    {w : RateLimitWindow}
    (hw : storedWindow chrono limit windowDuration C (before ++ first :: mid) first.key = some w) :
    w.windowStart = first.now := by
  induction mid using List.reverseRecOn generalizing w with
  | nil =>
      rw [opensWindow_after chrono windowDuration hdoc hlimit hC] at hopens
      rw [storedWindow_concat_self chrono windowDuration hC, windowStep_of_gone limit hopens] at hw
      rw [← Option.some.inj hw]
  | append_singleton mid call ih =>
      have hprefix : ∀ m c later, mid = m ++ c :: later → c.key = first.key →
          ((new limit windowDuration C : RateLimiter cache).after chrono
            (before ++ first :: m)).opensWindow chrono first.key c.now = false := by
        intro m c later hmid hkey
        refine hclosed m c (later ++ [call]) ?_ hkey
        rw [hmid, List.append_assoc, List.cons_append]
      have hsplit : before ++ first :: (mid ++ [call]) = (before ++ first :: mid) ++ [call] := by
        rw [List.append_assoc, List.cons_append]
      rw [hsplit] at hw
      by_cases hkey : first.key = call.key
      · have hnot := hclosed mid call [] rfl hkey.symm
        rw [Bool.eq_false_iff, Ne, opensWindow_after chrono windowDuration hdoc hlimit hC] at hnot
        rw [hkey, storedWindow_concat_self chrono windowDuration hC, ← hkey] at hw
        have hdec := windowStep_decision chrono limit windowDuration call.now
          (storedWindow chrono limit windowDuration C (before ++ first :: mid) first.key)
        generalize windowStep chrono limit windowDuration
          (storedWindow chrono limit windowDuration C (before ++ first :: mid) first.key) call.now
            = r at hw hdec
        generalize storedWindow chrono limit windowDuration C (before ++ first :: mid) first.key
          = stored at ih hnot hdec
        rw [← Option.some.inj hw]
        cases hdec with
        | opened _ hgone => exact absurd hgone hnot
        | counted v _ _ =>
            have hstart : v.windowStart = first.now := ih hprefix rfl
            exact hstart
        | denied v _ _ => exact ih hprefix rfl
      · rw [storedWindow_concat_of_ne chrono windowDuration hC _ hkey] at hw
        split at hw
        · -- the key was evicted
          simp at hw
        · exact ih hprefix hw

/-- A window that takes the place of a resident one starts when that has expired. -/
theorem expired_of_reopened (hdoc : cache.Documented view) (hlimit : limit ≠ 0) (hC : 0 < C)
    {before mid : List (Call K)} {first second : Call K} (hkey : second.key = first.key)
    (hfirst : ((new limit windowDuration C : RateLimiter cache).after chrono before).opensWindow
      chrono first.key first.now = true)
    (hclosed : ∀ m call later, mid = m ++ call :: later → call.key = first.key →
      ((new limit windowDuration C : RateLimiter cache).after chrono
        (before ++ first :: m)).opensWindow chrono first.key call.now = false)
    (hresident : first.key ∈ (view ((new limit windowDuration C : RateLimiter cache).after chrono
      (before ++ first :: mid)).cache_).keys)
    (hsecond : ((new limit windowDuration C : RateLimiter cache).after chrono
      (before ++ first :: mid)).opensWindow chrono second.key second.now = true) :
    chrono.expired windowDuration second.now first.now = true := by
  have hrep := represents_after hdoc chrono hlimit windowDuration hC (before ++ first :: mid)
  rw [hrep.view_eq] at hresident
  obtain ⟨⟨_, w⟩, hentry, rfl⟩ := List.mem_map.mp hresident
  have hw : storedWindow chrono limit windowDuration C (before ++ first :: mid) first.key = some w :=
    LruStore.lookup_eq_some_iff.mpr hentry
  rw [hkey, opensWindow_after chrono windowDuration hdoc hlimit hC] at hsecond
  rw [← storedWindow_start_eq chrono windowDuration hdoc hlimit hC hfirst hclosed hw]
  exact hsecond w hw

/-- In the compiled arithmetic too the windows are a safe duration apart. -/
theorem apart_of_reopened_int64 (hdoc : cache.Documented view) (hlimit : limit ≠ 0) (hC : 0 < C)
    (hsafe : SafeDuration windowDuration) {before mid : List (Call K)} {first second : Call K}
    (hnow : Timestamp second.now) (hstart : Timestamp first.now) (hkey : second.key = first.key)
    (hfirst : ((new limit windowDuration C : RateLimiter cache).after .int64 before).opensWindow
      .int64 first.key first.now = true)
    (hclosed : ∀ m call later, mid = m ++ call :: later → call.key = first.key →
      ((new limit windowDuration C : RateLimiter cache).after .int64
        (before ++ first :: m)).opensWindow .int64 first.key call.now = false)
    (hresident : first.key ∈ (view ((new limit windowDuration C : RateLimiter cache).after .int64
      (before ++ first :: mid)).cache_).keys)
    (hsecond : ((new limit windowDuration C : RateLimiter cache).after .int64
      (before ++ first :: mid)).opensWindow .int64 second.key second.now = true) :
    first.now + nanos windowDuration ≤ second.now := by
  have hexpired := expired_of_reopened .int64 windowDuration hdoc hlimit hC hkey hfirst hclosed
    hresident hsecond
  rw [expired_int64_eq_exact hsafe hnow hstart] at hexpired
  exact (Chrono.expired_exact _ _ _).mp hexpired

/-! ## The store after any run -/

/-- The cache of a limiter that was built with capacity `C` and has processed `calls`. -/
structure StoreInvariant (chrono : Chrono) (view : cache.Store → LruStore K RateLimitWindow)
    (limiter : RateLimiter cache) (C : Nat) (calls : List (Call K)) : Prop where
  bounded : (view (limiter.after chrono calls).cache_).entries.length ≤ C
  distinct : (view (limiter.after chrono calls).cache_).keys.Nodup
  zero_limit : limiter.requestsPerWindow_ = 0 →
    (view (limiter.after chrono calls).cache_).entries = []
  count_bounds : ∀ key w, (key, w) ∈ (view (limiter.after chrono calls).cache_).entries →
    1 ≤ w.count.toNat ∧ w.count.toNat ≤ limiter.requestsPerWindow_.toNat
  history : ∀ key w, (key, w) ∈ (view (limiter.after chrono calls).cache_).entries →
    ∃ before opener rest, WindowHistory chrono limiter calls key w before opener rest
  /-- `++existing->count` adds one. -/
  no_wrap : ∀ key w now, (key, w) ∈ (view (limiter.after chrono calls).cache_).entries →
    ((limiter.after chrono calls).allow chrono key now).1 = true →
    (limiter.after chrono calls).opensWindow chrono key now = false →
      ∃ w', (key, w') ∈ (view ((limiter.after chrono calls).allow chrono key now).2.cache_).entries ∧
        w'.windowStart = w.windowStart ∧ w'.count.toNat = w.count.toNat + 1
  /-- Two successive openings for a key that is resident in between. -/
  reopened : ∀ before first mid second rest,
    calls = before ++ first :: (mid ++ second :: rest) → second.key = first.key →
    (limiter.after chrono before).opensWindow chrono first.key first.now = true →
    (∀ m call later, mid = m ++ call :: later → call.key = first.key →
      (limiter.after chrono (before ++ first :: m)).opensWindow chrono first.key call.now
        = false) →
    first.key ∈ (view (limiter.after chrono (before ++ first :: mid)).cache_).keys →
    (limiter.after chrono (before ++ first :: mid)).opensWindow chrono second.key second.now
      = true →
      chrono.expired limiter.windowDuration_ second.now first.now = true ∧
        (chrono = .exact → first.now + nanos limiter.windowDuration_ ≤ second.now)

/-- With the zero limit nothing is ever stored. -/
theorem storeInvariant_zero (hdoc : cache.Documented view) (C : Nat) (calls : List (Call K)) :
    StoreInvariant chrono view (new 0 windowDuration C : RateLimiter cache) C calls := by
  have hafter : ∀ calls, (new 0 windowDuration C : RateLimiter cache).after chrono calls
      = new 0 windowDuration C := fun calls => (run_zero chrono rfl calls).2
  have hempty : view ((new 0 windowDuration C : RateLimiter cache).after chrono calls).cache_
      = LruStore.empty C := by
    rw [hafter]
    exact hdoc.view_new C
  have hnone : ∀ key w,
      (key, w) ∉ (view ((new 0 windowDuration C : RateLimiter cache).after chrono
        calls).cache_).entries := by
    intro key w hmem
    rw [hempty] at hmem
    cases hmem
  refine {
    bounded := by rw [hempty]; exact Nat.zero_le _
    distinct := LruStore.nodupKeys _
    zero_limit := fun _ => by rw [hempty]; rfl
    count_bounds := fun key w hmem => absurd hmem (hnone key w)
    history := fun key w hmem => absurd hmem (hnone key w)
    no_wrap := fun key w now hmem => absurd hmem (hnone key w)
    reopened := fun before first mid second rest _ _ hfirst => ?_ }
  -- no call opens a window
  rw [hafter] at hfirst
  exact absurd hfirst Bool.false_ne_true

end RateThrottle
