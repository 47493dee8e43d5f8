/-
  RateThrottle.CachePro.LRUCache

  The cache the limiter stores its windows in.

  `CachePro::LRUCache` lives in a submodule whose source is not part of this
  repository, so it is a parameter: `LRUCache` lists the operations the limiter
  calls and `LRUCache.Documented` what the limiter relies on.  The content of a
  cache is described by an `LruStore` (its `view`), which the class itself does
  not expose; only specifications mention it.

  `LRUCache.reference` is an implementation with these properties.
-/

import RateThrottle.Library.LruStore

namespace RateThrottle

/-- The operations of `CachePro::LRUCache<K, V>` that `RateLimiter` calls. -/
structure LRUCache (K V : Type) where
  /-- The state of a cache object. -/
  Store : Type
  /-- `LRUCache(capacity)`. -/
  new : Nat → Store
  /-- `get(key)`: the value behind the returned pointer, none for `nullptr`. -/
  get : Store → K → Option V × Store
  /-- A write through the pointer that the last `get(key)` returned. -/
  setLive : Store → K → V → Store
  /-- `put(key, value)`. -/
  put : Store → K → V → Store

namespace LRUCache

variable {K V : Type} [DecidableEq K]

/-- What the limiter relies on: `get` promotes a hit to most recently used and
    returns a live reference, `put` inserts or overwrites and promotes, and only
    a new key put into a full cache evicts, always the least recently used key. -/
structure Documented (cache : LRUCache K V) (view : cache.Store → LruStore K V) : Prop where
  new_entries : ∀ C, (view (cache.new C)).entries = []
  new_capacity : ∀ C, (view (cache.new C)).capacity = C
  get_value : ∀ s k, (cache.get s k).1 = (view s).lookup k
  get_hit : ∀ s k v, (view s).lookup k = some v →
    (view (cache.get s k).2).entries = (k, v) :: (view s).others k
  get_miss : ∀ s k, (view s).lookup k = none →
    (view (cache.get s k).2).entries = (view s).entries
  get_capacity : ∀ s k, (view (cache.get s k).2).capacity = (view s).capacity
  live_write : ∀ s k v w rest, (view s).entries = (k, v) :: rest →
    (view (cache.setLive s k w)).entries = (k, w) :: rest
  live_capacity : ∀ s k v, (view (cache.setLive s k v)).capacity = (view s).capacity
  put_present : ∀ s k v, k ∈ (view s).keys →
    (view (cache.put s k v)).entries = (k, v) :: (view s).others k
  put_room : ∀ s k v, k ∉ (view s).keys → (view s).entries.length < (view s).capacity →
    (view (cache.put s k v)).entries = (k, v) :: (view s).entries
  put_full : ∀ s k v, k ∉ (view s).keys → 0 < (view s).capacity →
    (view s).entries.length = (view s).capacity →
    (view (cache.put s k v)).entries = (k, v) :: (view s).entries.dropLast
  put_capacity : ∀ s k v, (view (cache.put s k v)).capacity = (view s).capacity

variable {cache : LRUCache K V} {view : cache.Store → LruStore K V}

namespace Documented

theorem view_new (h : cache.Documented view) (C : Nat) :
    view (cache.new C) = LruStore.empty C :=
  LruStore.ext (h.new_capacity C) (h.new_entries C)

theorem view_put (h : cache.Documented view) {s : cache.Store} (hcap : 0 < (view s).capacity)
    (k : K) (v : V) : view (cache.put s k v) = (view s).put k v := by
  refine LruStore.ext (by rw [h.put_capacity, LruStore.capacity_put]) ?_
  by_cases hk : k ∈ (view s).keys
  · rw [h.put_present s k v hk, LruStore.entries_put_of_mem v hk]
  · rcases Nat.lt_or_ge (view s).entries.length (view s).capacity with hroom | hfull
    · rw [h.put_room s k v hk hroom, LruStore.entries_put_of_room v hk hroom]
    · have hlen := Nat.le_antisymm (view s).bounded hfull
      rw [h.put_full s k v hk hcap hlen, LruStore.entries_put_of_full v hk hcap hlen]

/-- A hit leaves the store as if the value found had been put again. -/
theorem view_get_hit (h : cache.Documented view) {s : cache.Store} {k : K} {v : V}
    (hv : (view s).lookup k = some v) : view (cache.get s k).2 = (view s).put k v := by
  refine LruStore.ext (by rw [h.get_capacity, LruStore.capacity_put]) ?_
  rw [h.get_hit s k v hv, LruStore.entries_put_of_mem v (LruStore.mem_keys_of_lookup hv)]

theorem view_get_miss (h : cache.Documented view) {s : cache.Store} {k : K}
    (hv : (view s).lookup k = none) : view (cache.get s k).2 = view s :=
  LruStore.ext (h.get_capacity s k) (h.get_miss s k hv)

/-- Looking a key up and putting it is putting it. -/
theorem view_put_get (h : cache.Documented view) {s : cache.Store}
    (hcap : 0 < (view s).capacity) (k : K) (v : V) :
    view (cache.put (cache.get s k).2 k v) = (view s).put k v := by
  rw [h.view_put (by rw [h.get_capacity]; exact hcap)]
  cases hv : (view s).lookup k with
  | none => rw [h.view_get_miss hv]
  | some w => rw [h.view_get_hit hv, LruStore.put_put_self _ _ _ (LruStore.mem_keys_of_lookup hv)]

/-- Writing through the pointer of a hit is putting the key. -/
theorem view_setLive_get (h : cache.Documented view) {s : cache.Store} {k : K} {w : V}
    (hw : (view s).lookup k = some w) (v : V) :
    view (cache.setLive (cache.get s k).2 k v) = (view s).put k v := by
  apply LruStore.ext
  · rw [h.live_capacity, h.get_capacity, LruStore.capacity_put]
  · rw [h.live_write _ _ _ _ _ (h.get_hit s k w hw),
      LruStore.entries_put_of_mem v (LruStore.mem_keys_of_lookup hw)]

end Documented

/-- An LRU cache kept as a list of entries, most recent first. -/
def reference (K V : Type) [DecidableEq K] : LRUCache K V where
  Store := LruStore K V
  new := LruStore.empty
  get s k := (s.lookup k, s.touch k)
  setLive s k v := s.assign k v
  put s k v := s.put k v

theorem reference_documented : (reference K V).Documented fun s => s where
  new_entries _ := rfl
  new_capacity _ := rfl
  get_value _ _ := rfl
  get_hit s k v hv := by
    change (s.touch k).entries = _
    rw [LruStore.touch_of_some hv, LruStore.entries_put_of_mem v (LruStore.mem_keys_of_lookup hv)]
  get_miss s k hv := by
    change (s.touch k).entries = _
    rw [LruStore.touch_of_none hv]
  get_capacity s k := LruStore.capacity_touch s k
  live_write s k v w rest hs := LruStore.entries_assign_head w hs
  live_capacity _ _ _ := rfl
  put_present s k v hk := LruStore.entries_put_of_mem v hk
  put_room s k v hk hroom := LruStore.entries_put_of_room v hk hroom
  put_full s k v hk hcap hfull := LruStore.entries_put_of_full v hk hcap hfull
  put_capacity _ _ _ := rfl

end LRUCache

end RateThrottle
