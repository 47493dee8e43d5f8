/-
  RateThrottle.RateLimiter.Refinement

  What one `allow` call does, said once.

  For a limit other than zero every path of `allow` is: look the key up, decide
  from the window found (`windowStep`), and leave the decided window as the
  most recent entry.  The four paths of the source reach the cache in different
  ways (`put`, a write through the live pointer, the promotion of `get`), but
  `view_allow` shows that each of them is one `put` of the store that describes
  the cache.  A run of the limiter is therefore a keyed run over an LRU store
  (`results_eq_cached`), and what is known about those holds of the limiter.

  `Decision` lists the three outcomes of `windowStep`; proofs about windows
  split on it and never unfold the code.
-/

import RateThrottle.RateLimiter.Basic
import RateThrottle.Library.KeyedRun

namespace RateThrottle

open Mealy KeyedRun

variable {K : Type} [DecidableEq K]

/-! ## The decision on one window -/

/-- The result of a call and the window it leaves behind, from the window found. -/
def windowStep (chrono : Chrono) (limit : UInt64) (windowDuration : Int)
    (existing : Option RateLimitWindow) (now : Int) : Bool × RateLimitWindow :=
  match existing with
  | none => (true, ⟨now, 1⟩)
  | some w =>
      if chrono.expired windowDuration now w.windowStart then (true, ⟨now, 1⟩)
      else if w.count < limit then (true, { w with count := w.count + 1 })
      else (false, w)

/-- The outcomes of a call: a window is opened, a request is counted in the
    live window, or it is denied by a full one. -/
inductive Decision (chrono : Chrono) (limit : UInt64) (windowDuration now : Int) :
    Option RateLimitWindow → Bool × RateLimitWindow → Prop
  | opened (existing : Option RateLimitWindow)
      (hgone : ∀ w, existing = some w → chrono.expired windowDuration now w.windowStart = true) :
      Decision chrono limit windowDuration now existing (true, ⟨now, 1⟩)
  | counted (w : RateLimitWindow)
      (hlive : chrono.expired windowDuration now w.windowStart = false)
      (hroom : w.count < limit) :
      Decision chrono limit windowDuration now (some w) (true, { w with count := w.count + 1 })
  | denied (w : RateLimitWindow)
      (hlive : chrono.expired windowDuration now w.windowStart = false)
      (hfull : limit ≤ w.count) :
      Decision chrono limit windowDuration now (some w) (false, w)

theorem windowStep_decision (chrono : Chrono) (limit : UInt64) (windowDuration now : Int)
    (existing : Option RateLimitWindow) :
    Decision chrono limit windowDuration now existing
      (windowStep chrono limit windowDuration existing now) := by
  cases existing with
  | none => exact .opened none (by simp)
  | some w =>
      simp only [windowStep]
      split
      · next hexp => exact .opened (some w) (by simpa using hexp)
      · next hlive =>
          split
          · next hroom => exact .counted w (by simpa using hlive) hroom
          · next hfull => exact .denied w (by simpa using hlive) (UInt64.not_lt.mp hfull)

/-- Without a live window a call opens one. -/
theorem windowStep_of_gone {chrono : Chrono} (limit : UInt64) {windowDuration now : Int}
    {existing : Option RateLimitWindow}
    (hgone : ∀ w, existing = some w → chrono.expired windowDuration now w.windowStart = true) :
    windowStep chrono limit windowDuration existing now = (true, ⟨now, 1⟩) := by
  cases existing with
  | none => rfl
  | some w => simp only [windowStep, if_pos (hgone w rfl)]

theorem one_le_toNat {limit : UInt64} (h : limit ≠ 0) : 1 ≤ limit.toNat := by
  have hne : limit.toNat ≠ 0 := fun hzero => h (UInt64.toNat_inj.mp hzero)
  omega

theorem limit_ne_zero {limit : UInt64} (h : 1 ≤ limit) : limit ≠ 0 := by
  rintro rfl
  exact absurd h (by decide)

/-- A counted request does not wrap: the count was below a `size_t` limit. -/
theorem toNat_count_succ {limit c : UInt64} (h : c < limit) : (c + 1).toNat = c.toNat + 1 := by
  have hlt := UInt64.lt_iff_toNat_lt.mp h
  have hlimit := limit.toNat_lt
  rw [UInt64.toNat_add]
  simp only [UInt64.reduceToNat]
  omega

/-- A decided window starts with the one found, or with the call itself. -/
theorem windowStep_start_mem {chrono : Chrono} {limit : UInt64} {windowDuration now : Int}
    {existing : Option RateLimitWindow} {times : List Int}
    (hstart : ∀ w, existing = some w → w.windowStart ∈ times) :
    (windowStep chrono limit windowDuration existing now).2.windowStart ∈ times ++ [now] := by
  rw [List.mem_append, List.mem_singleton]
  have hdec := windowStep_decision chrono limit windowDuration now existing
  generalize windowStep chrono limit windowDuration existing now = r at hdec ⊢
  cases hdec with
  | opened _ _ => exact Or.inr rfl
  | counted w _ _ => exact Or.inl (hstart w rfl)
  | denied w _ _ => exact Or.inl (hstart w rfl)

/-- `windowStep` as the update of a keyed run. -/
def windowUpdate (chrono : Chrono) (limit : UInt64) (windowDuration : Int)
    (existing : Option RateLimitWindow) (call : Call K) : Bool × RateLimitWindow :=
  windowStep chrono limit windowDuration existing call.now

/-! ## `allow` is a lookup, a decision and a put -/

variable {cache : LRUCache K RateLimitWindow} {view : cache.Store → LruStore K RateLimitWindow}

namespace RateLimiter

/-- The result of `allow` is the decision on the stored window, and its effect
    is to put the decided window. -/
theorem view_allow (hdoc : cache.Documented view) (chrono : Chrono) {self : RateLimiter cache}
    (hlimit : self.requestsPerWindow_ ≠ 0) (hcap : 0 < (view self.cache_).capacity)
    (key : K) (now : Int) :
    (self.allow chrono key now).1
        = (windowStep chrono self.requestsPerWindow_ self.windowDuration_
            ((view self.cache_).lookup key) now).1 ∧
      view (self.allow chrono key now).2.cache_
        = (view self.cache_).put key (windowStep chrono self.requestsPerWindow_
            self.windowDuration_ ((view self.cache_).lookup key) now).2 := by
  rw [allow_nonzero chrono hlimit, hdoc.get_value]
  cases hw : (view self.cache_).lookup key with
  | none => exact ⟨rfl, hdoc.view_put_get hcap key _⟩
  | some w =>
      simp only [afterGet, windowStep]
      split
      · exact ⟨rfl, hdoc.view_put_get hcap key _⟩
      · split
        · exact ⟨rfl, hdoc.view_setLive_get hw _⟩
        · exact ⟨rfl, hdoc.view_get_hit hw⟩

/-- The limiter with its configuration, and the store its cache amounts to. -/
structure Represents (view : cache.Store → LruStore K RateLimitWindow) (limit : UInt64)
    (windowDuration : Int) (limiter : RateLimiter cache) (store : LruStore K RateLimitWindow) :
    Prop where
  limit_eq : limiter.requestsPerWindow_ = limit
  window_eq : limiter.windowDuration_ = windowDuration
  view_eq : view limiter.cache_ = store
  capacity_pos : 0 < store.capacity

theorem Represents.step (hdoc : cache.Documented view) (chrono : Chrono) {limit : UInt64}
    (hlimit : limit ≠ 0) {windowDuration : Int} {self : RateLimiter cache}
    {store : LruStore K RateLimitWindow} (h : Represents view limit windowDuration self store)
    (call : Call K) :
    (step chrono self call).1
        = (cachedStep Call.key (windowUpdate chrono limit windowDuration) store call).1 ∧
      Represents view limit windowDuration (step chrono self call).2
        (cachedStep Call.key (windowUpdate chrono limit windowDuration) store call).2 := by
  obtain ⟨rfl, rfl, rfl, hcap⟩ := h
  obtain ⟨hresult, hview⟩ := view_allow hdoc chrono hlimit hcap call.key call.now
  obtain ⟨hl, hw⟩ := config_allow chrono self call.key call.now
  exact ⟨hresult, hl, hw, hview, hcap⟩

theorem represents_new (hdoc : cache.Documented view) (limit : UInt64) (windowDuration : Int)
    {C : Nat} (hC : 0 < C) :
    Represents view limit windowDuration (new limit windowDuration C : RateLimiter cache)
      (LruStore.empty C) :=
  ⟨rfl, rfl, hdoc.view_new C, hC⟩

/-- A run of the limiter is a keyed run over an LRU store. -/
theorem results_eq_cached (hdoc : cache.Documented view) (chrono : Chrono) {limit : UInt64}
    (hlimit : limit ≠ 0) (windowDuration : Int) {C : Nat} (hC : 0 < C) (calls : List (Call K)) :
    results chrono (new limit windowDuration C : RateLimiter cache) calls
      = trace (cachedStep Call.key (windowUpdate chrono limit windowDuration))
          (LruStore.empty C) calls :=
  trace_eq_of_simulation (R := Represents view limit windowDuration)
    (fun _ _ call h => h.step hdoc chrono hlimit call)
    (represents_new hdoc limit windowDuration hC) calls

theorem represents_after (hdoc : cache.Documented view) (chrono : Chrono) {limit : UInt64}
    (hlimit : limit ≠ 0) (windowDuration : Int) {C : Nat} (hC : 0 < C) (calls : List (Call K)) :
    Represents view limit windowDuration
      (after chrono (new limit windowDuration C : RateLimiter cache) calls)
      (final (cachedStep Call.key (windowUpdate chrono limit windowDuration))
        (LruStore.empty C) calls) :=
  final_of_simulation (R := Represents view limit windowDuration)
    (fun _ _ call h => h.step hdoc chrono hlimit call)
    (represents_new hdoc limit windowDuration hC) calls

end RateLimiter

/-! ## The window stored for a key -/

/-- The window stored for `key` after a run of a limiter with a non-zero limit. -/
def storedWindow (chrono : Chrono) (limit : UInt64) (windowDuration : Int) (C : Nat)
    (calls : List (Call K)) (key : K) : Option RateLimitWindow :=
  (final (cachedStep Call.key (windowUpdate chrono limit windowDuration))
    (LruStore.empty C) calls).lookup key

section StoredWindow

variable (chrono : Chrono) {limit : UInt64} (windowDuration : Int) {C : Nat}

@[simp] theorem storedWindow_nil (key : K) :
    storedWindow chrono limit windowDuration C [] key = none := rfl

/-- A call leaves the decided window for its own key. -/
theorem storedWindow_concat_self (hC : 0 < C) (calls : List (Call K)) (call : Call K) :
    storedWindow chrono limit windowDuration C (calls ++ [call]) call.key
      = some (windowStep chrono limit windowDuration
          (storedWindow chrono limit windowDuration C calls call.key) call.now).2 :=
  cached_lookup_concat_self Call.key _ hC calls call

/-- A call on another key can only evict the window of `key`, and does so when
    the reuse distance of `key` reaches the capacity. -/
theorem storedWindow_concat_of_ne (hC : 0 < C) (calls : List (Call K)) {call : Call K} {key : K}
    (hne : key ≠ call.key) :
    storedWindow chrono limit windowDuration C (calls ++ [call]) key
      = if C ≤ Recency.reuseDistance ((calls ++ [call]).map Call.key).reverse key then none
        else storedWindow chrono limit windowDuration C calls key :=
  cached_lookup_concat_of_ne Call.key _ hC calls hne

/-- **Induction over the windows of one key.** What holds of every window the
    key is left with by a call of its own, and is not lost by calls on other
    keys, holds of its stored window after every run; evictions only remove it. -/
theorem storedWindow_induction (hC : 0 < C) (key : K)
    {P : List (Call K) → RateLimitWindow → Prop}
    (hself : ∀ calls now,
      (∀ w, storedWindow chrono limit windowDuration C calls key = some w → P calls w) →
        P (calls ++ [⟨key, now⟩]) (windowStep chrono limit windowDuration
          (storedWindow chrono limit windowDuration C calls key) now).2)
    (hother : ∀ calls call w, key ≠ call.key → P calls w → P (calls ++ [call]) w)
    (calls : List (Call K)) (w : RateLimitWindow)
    (hw : storedWindow chrono limit windowDuration C calls key = some w) : P calls w := by
  induction calls using List.reverseRecOn generalizing w with
  | nil => simp at hw
  | append_singleton calls call ih =>
      by_cases hkey : key = call.key
      · subst hkey
        rw [storedWindow_concat_self chrono windowDuration hC] at hw
        rw [← Option.some.inj hw]
        exact hself calls call.now ih
      · rw [storedWindow_concat_of_ne chrono windowDuration hC calls hkey] at hw
        split at hw
        · simp at hw
        · exact hother calls call w hkey (ih w hw)

/-- A stored window starts at a timestamp used on its key. -/
theorem storedWindow_start_mem (hC : 0 < C) (calls : List (Call K)) (key : K)
    (w : RateLimitWindow) (hw : storedWindow chrono limit windowDuration C calls key = some w) :
    w.windowStart ∈ timesOn key calls := by
  refine storedWindow_induction chrono windowDuration hC key
    (P := fun calls w => w.windowStart ∈ timesOn key calls) (fun calls now ih => ?_)
    (fun calls call w hne h => ?_) calls w hw
  · rw [timesOn_concat_self]
    exact windowStep_start_mem ih
  · rwa [timesOn_concat_of_ne calls hne]

/-- A stored count never exceeds the limit, nor the calls made on its key. -/
theorem storedWindow_count_le (hpos : 1 ≤ limit.toNat) (hC : 0 < C) (calls : List (Call K))
    (key : K) (w : RateLimitWindow)
    (hw : storedWindow chrono limit windowDuration C calls key = some w) :
    w.count.toNat ≤ limit.toNat ∧ w.count.toNat ≤ (timesOn key calls).length := by
  refine storedWindow_induction chrono windowDuration hC key
    (P := fun calls w => w.count.toNat ≤ limit.toNat ∧ w.count.toNat ≤ (timesOn key calls).length)
    (fun calls now ih => ?_) (fun calls call w hne h => ?_) calls w hw
  · rw [timesOn_concat_self, List.length_append, List.length_singleton]
    have hdec := windowStep_decision chrono limit windowDuration now
      (storedWindow chrono limit windowDuration C calls key)
    generalize windowStep chrono limit windowDuration
      (storedWindow chrono limit windowDuration C calls key) now = r at hdec ⊢
    generalize storedWindow chrono limit windowDuration C calls key = stored at ih hdec
    cases hdec with
    | opened _ _ => exact ⟨hpos, by simp⟩
    | counted w _ hroom =>
        have hlt := UInt64.lt_iff_toNat_lt.mp hroom
        have hcalls := (ih w rfl).2
        simp only [toNat_count_succ hroom]
        omega
    | denied w _ _ =>
        have hcount := ih w rfl
        exact ⟨hcount.1, hcount.2.trans (Nat.le_succ _)⟩
  · rwa [timesOn_concat_of_ne calls hne]

/-- The next call after a run decides on the stored window of its key. -/
theorem allow_after (hdoc : cache.Documented view) (hlimit : limit ≠ 0) (hC : 0 < C)
    (calls : List (Call K)) (key : K) (now : Int) :
    (((RateLimiter.new limit windowDuration C : RateLimiter cache).after chrono calls).allow
        chrono key now).1
      = (windowStep chrono limit windowDuration
          (storedWindow chrono limit windowDuration C calls key) now).1 :=
  ((RateLimiter.represents_after hdoc chrono hlimit windowDuration hC calls).step hdoc chrono
    hlimit ⟨key, now⟩).1

/-- The results of a run with one more call. -/
theorem results_concat (hdoc : cache.Documented view) (hlimit : limit ≠ 0) (hC : 0 < C)
    (calls : List (Call K)) (call : Call K) :
    (RateLimiter.new limit windowDuration C : RateLimiter cache).results chrono (calls ++ [call])
      = (RateLimiter.new limit windowDuration C : RateLimiter cache).results chrono calls
        ++ [(call, (windowStep chrono limit windowDuration
              (storedWindow chrono limit windowDuration C calls call.key) call.now).1)] := by
  rw [← allow_after chrono windowDuration hdoc hlimit hC]
  exact trace_concat _ _ _ _

/-! ## Repeated calls on one key -/

/-- Calls on a key at an instant at which its window is live are counted in it
    up to the limit, and exactly those counted are accepted. -/
theorem storedWindow_replicate (hdoc : cache.Documented view) (hlimit : limit ≠ 0) (hC : 0 < C)
    (calls : List (Call K)) {key : K} {t : Int} {w : RateLimitWindow}
    (hw : storedWindow chrono limit windowDuration C calls key = some w)
    (hlive : chrono.expired windowDuration t w.windowStart = false)
    (hcount : w.count.toNat ≤ limit.toNat) (n : Nat) :
    ∃ w', storedWindow chrono limit windowDuration C (calls ++ List.replicate n ⟨key, t⟩) key
        = some w' ∧
      w'.windowStart = w.windowStart ∧
      w'.count.toNat = min (w.count.toNat + n) limit.toNat ∧
      acceptedCalls (fun c => c.key = key)
          ((RateLimiter.new limit windowDuration C : RateLimiter cache).results chrono
            (calls ++ List.replicate n ⟨key, t⟩)) + w.count.toNat
        = acceptedCalls (fun c => c.key = key)
          ((RateLimiter.new limit windowDuration C : RateLimiter cache).results chrono calls)
          + w'.count.toNat := by
  induction n with
  | zero =>
      rw [List.replicate_zero, List.append_nil]
      exact ⟨w, hw, rfl, by omega, rfl⟩
  | succ n ih =>
      obtain ⟨v, hv, hstart, hcapped, haccepted⟩ := ih
      rw [List.replicate_succ', ← List.append_assoc,
        results_concat chrono windowDuration hdoc hlimit hC, acceptedCalls_concat,
        storedWindow_concat_self chrono windowDuration hC _ ⟨key, t⟩, hv]
      have hdec := windowStep_decision chrono limit windowDuration t (some v)
      generalize windowStep chrono limit windowDuration (some v) t = r at hdec ⊢
      refine ⟨r.2, rfl, ?_⟩
      cases hdec with
      | opened _ hgone =>
          have hexp := hgone v rfl
          rw [hstart, hlive] at hexp
          exact nomatch hexp
      | counted _ _ hroom =>
          have hlt := UInt64.lt_iff_toNat_lt.mp hroom
          simp only [toNat_count_succ hroom, hstart, true_and, decide_true, Bool.and_self,
            if_true]
          omega
      | denied _ _ hfull =>
          have hge := UInt64.le_iff_toNat_le.mp hfull
          simp only [hstart, true_and, Bool.false_and, Bool.false_eq_true, if_false]
          omega

/-- Calls on a key without a live window open one, if no more than the limit
    they are all accepted. -/
theorem storedWindow_open_replicate (hdoc : cache.Documented view) (hlimit : limit ≠ 0)
    (hC : 0 < C) (calls : List (Call K)) {key : K} {t : Int}
    (hgone : ∀ w, storedWindow chrono limit windowDuration C calls key = some w →
      chrono.expired windowDuration t w.windowStart = true)
    (hlive : chrono.expired windowDuration t t = false) {n : Nat} (hn : n + 1 ≤ limit.toNat) :
    ∃ w', storedWindow chrono limit windowDuration C
          (calls ++ List.replicate (n + 1) ⟨key, t⟩) key = some w' ∧
      w'.windowStart = t ∧ w'.count.toNat = n + 1 ∧
      acceptedCalls (fun c => c.key = key)
          ((RateLimiter.new limit windowDuration C : RateLimiter cache).results chrono
            (calls ++ List.replicate (n + 1) ⟨key, t⟩))
        = acceptedCalls (fun c => c.key = key)
          ((RateLimiter.new limit windowDuration C : RateLimiter cache).results chrono calls)
          + (n + 1) := by
  have hopen : windowStep chrono limit windowDuration
      (storedWindow chrono limit windowDuration C calls key) t = (true, ⟨t, 1⟩) :=
    windowStep_of_gone limit hgone
  have hfirst : storedWindow chrono limit windowDuration C (calls ++ [⟨key, t⟩]) key
      = some ⟨t, 1⟩ := by
    rw [storedWindow_concat_self chrono windowDuration hC calls ⟨key, t⟩, hopen]
  obtain ⟨w', hw', hstart, hcount, haccepted⟩ := storedWindow_replicate (w := ⟨t, 1⟩) chrono
    windowDuration hdoc hlimit hC (calls ++ [⟨key, t⟩]) hfirst hlive (one_le_toNat hlimit) n
  rw [results_concat chrono windowDuration hdoc hlimit hC, acceptedCalls_concat, hopen] at haccepted
  rw [List.replicate_succ, List.append_cons]
  simp only [decide_true, Bool.and_self, if_true, UInt64.reduceToNat] at hcount haccepted
  exact ⟨w', hw', hstart, by omega, by omega⟩

end StoredWindow

end RateThrottle
