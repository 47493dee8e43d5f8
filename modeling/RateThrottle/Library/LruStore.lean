/-
  RateThrottle.Library.LruStore

  A bounded key-value store in recency order, most recently used entry first.

  The invariant travels with the data: keys are pairwise distinct and at most
  `capacity` entries are held, so no operation has to re-prove it.  `put`
  inserts or overwrites at the front and drops what then exceeds the capacity,
  which is the least recently used entry; `touch` is a lookup that promotes;
  `assign` overwrites the value of a key in place.

  `lookup` after `put` is described by two lemmas (`lookup_put_self`,
  `lookup_put_of_ne`), and the keys after `put` by `keys_put`; nothing above
  this file unfolds the operations.
-/

import Mathlib.Data.List.Forall2
import RateThrottle.Library.Recency

/-- Entries in recency order, newest first, with distinct keys and at most
    `capacity` of them. -/
@[ext] structure LruStore (K V : Type*) where
  capacity : Nat
  entries : List (K × V)
  nodupKeys : (entries.map Prod.fst).Nodup
  bounded : entries.length ≤ capacity

namespace LruStore

open Recency

variable {K V V' : Type*}

/-- A store that holds nothing yet. -/
def empty (capacity : Nat) : LruStore K V := ⟨capacity, [], List.nodup_nil, Nat.zero_le _⟩

/-- The keys, most recently used first. -/
def keys (s : LruStore K V) : List K := s.entries.map Prod.fst

@[simp] theorem capacity_empty (C : Nat) : (empty C : LruStore K V).capacity = C := rfl

@[simp] theorem entries_empty (C : Nat) : (empty C : LruStore K V).entries = [] := rfl

@[simp] theorem keys_empty (C : Nat) : (empty C : LruStore K V).keys = [] := rfl

variable [DecidableEq K]

/-- The value stored for `k`. -/
def lookup (s : LruStore K V) (k : K) : Option V := s.entries.lookup k

/-- The entries other than the one of `k`, in order. -/
def others (s : LruStore K V) (k : K) : List (K × V) := s.entries.filter (·.1 ≠ k)

theorem map_fst_others (s : LruStore K V) (k : K) :
    (s.others k).map Prod.fst = s.keys.filter (· ≠ k) := by
  unfold others keys
  induction s.entries with
  | nil => rfl
  | cons e es ih => by_cases he : e.1 = k <;> simp_all

theorem nodup_cons_others (s : LruStore K V) (k : K) (v : V) :
    (((k, v) :: s.others k).map Prod.fst).Nodup := by
  rw [List.map_cons, map_fst_others, List.nodup_cons]
  exact ⟨by simp, s.nodupKeys.filter _⟩

/-- Insert or overwrite `k` at the front.  When that leaves one entry too many
    the least recently used one goes. -/
def put (s : LruStore K V) (k : K) (v : V) : LruStore K V where
  capacity := s.capacity
  entries := ((k, v) :: s.others k).take s.capacity
  nodupKeys := by
    rw [List.map_take]
    exact (s.nodup_cons_others k v).sublist (List.take_sublist _ _)
  bounded := List.length_take_le _ _

/-- A lookup that promotes: a stored `k` becomes the most recent key, a missing
    one changes nothing. -/
def touch (s : LruStore K V) (k : K) : LruStore K V :=
  match s.lookup k with
  | none => s
  | some v => s.put k v

/-- Overwrite the value of `k` where it stands. -/
def assign (s : LruStore K V) (k : K) (v : V) : LruStore K V where
  capacity := s.capacity
  entries := s.entries.map fun e => (e.1, if e.1 = k then v else e.2)
  nodupKeys := by
    rw [List.map_map]
    exact s.nodupKeys
  bounded := by
    rw [List.length_map]
    exact s.bounded

/-! ## Lookup -/

theorem lookup_eq_some_iff {s : LruStore K V} {k : K} {v : V} :
    s.lookup k = some v ↔ (k, v) ∈ s.entries := by
  have hnodup := s.nodupKeys
  unfold lookup
  generalize s.entries = entries at hnodup ⊢
  induction entries with
  | nil => simp
  | cons e es ih =>
      obtain ⟨j, w⟩ := e
      rw [List.map_cons, List.nodup_cons] at hnodup
      rw [List.lookup_cons, List.mem_cons]
      by_cases hkj : k = j
      · subst hkj
        have habsent : (k, v) ∉ es := fun h => hnodup.1 (List.mem_map.mpr ⟨_, h, rfl⟩)
        simp [habsent, eq_comm]
      · have hbeq : (k == j) = false := by simpa using hkj
        rw [hbeq]
        exact (ih hnodup.2).trans (by simp [hkj])

theorem lookup_eq_none_iff {s : LruStore K V} {k : K} :
    s.lookup k = none ↔ k ∉ s.keys := by
  unfold lookup keys
  rw [List.lookup_eq_none_iff]
  refine ⟨?_, ?_⟩
  · intro h hk
    obtain ⟨e, he, rfl⟩ := List.mem_map.mp hk
    simpa using h e he
  · intro h e he
    have hne : k ≠ e.1 := fun heq => h (heq ▸ List.mem_map_of_mem he)
    simpa using hne

theorem mem_keys_of_lookup {s : LruStore K V} {k : K} {v : V} (h : s.lookup k = some v) :
    k ∈ s.keys := by
  by_contra hk
  rw [lookup_eq_none_iff.mpr hk] at h
  simp at h

@[simp] theorem lookup_empty (C : Nat) (k : K) : (empty C : LruStore K V).lookup k = none := rfl

/-! ## The effect of `put` -/

@[simp] theorem capacity_put (s : LruStore K V) (k : K) (v : V) :
    (s.put k v).capacity = s.capacity := rfl

theorem entries_put (s : LruStore K V) (k : K) (v : V) :
    (s.put k v).entries = ((k, v) :: s.others k).take s.capacity := rfl

theorem keys_put (s : LruStore K V) (k : K) (v : V) :
    (s.put k v).keys = (k :: s.keys.filter (· ≠ k)).take s.capacity := by
  rw [← map_fst_others, ← List.map_cons (f := Prod.fst) (a := (k, v)), ← List.map_take]
  rfl

theorem lookup_put_self (s : LruStore K V) (k : K) (v : V) (hcap : 0 < s.capacity) :
    (s.put k v).lookup k = some v := by
  obtain ⟨n, hn⟩ := Nat.exists_eq_succ_of_ne_zero hcap.ne'
  rw [lookup_eq_some_iff, entries_put, hn, List.take_succ_cons]
  exact List.mem_cons_self

/-- Storing `k` leaves the value of another key alone, unless it evicts it. -/
theorem lookup_put_of_ne (s : LruStore K V) {j k : K} (v : V) (hjk : j ≠ k) :
    (s.put k v).lookup j = if j ∈ (s.put k v).keys then s.lookup j else none := by
  split
  · next hj =>
      obtain ⟨⟨i, w⟩, he, hi⟩ := List.mem_map.mp hj
      obtain rfl : i = j := hi
      have hother : (i, w) ∈ s.others k := by
        have hcons := List.mem_of_mem_take he
        rw [List.mem_cons] at hcons
        exact hcons.resolve_left fun h => hjk (congrArg Prod.fst h)
      rw [lookup_eq_some_iff.mpr he, lookup_eq_some_iff.mpr (List.mem_filter.mp hother).1]
  · next hj => exact lookup_eq_none_iff.mpr hj

/-! ## The documented cases of `put`, `touch` and `assign` -/

theorem length_others_lt {s : LruStore K V} {k : K} (hk : k ∈ s.keys) :
    (s.others k).length < s.entries.length := by
  obtain ⟨e, he, rfl⟩ := List.mem_map.mp hk
  exact List.length_filter_lt_length_iff_exists.mpr ⟨e, he, by simp⟩

theorem others_eq_self {s : LruStore K V} {k : K} (hk : k ∉ s.keys) :
    s.others k = s.entries := by
  apply List.filter_eq_self.mpr
  intro e he
  have hne : e.1 ≠ k := fun h => hk (h ▸ List.mem_map_of_mem he)
  simpa using hne

/-- A stored key is overwritten and promoted; nothing is evicted. -/
theorem entries_put_of_mem {s : LruStore K V} {k : K} (v : V) (hk : k ∈ s.keys) :
    (s.put k v).entries = (k, v) :: s.others k := by
  rw [entries_put, List.take_of_length_le]
  have := length_others_lt hk
  have := s.bounded
  simp only [List.length_cons]
  omega

/-- A new key that still fits goes to the front. -/
theorem entries_put_of_room {s : LruStore K V} {k : K} (v : V) (hk : k ∉ s.keys)
    (hroom : s.entries.length < s.capacity) :
    (s.put k v).entries = (k, v) :: s.entries := by
  rw [entries_put, others_eq_self hk, List.take_of_length_le]
  simp only [List.length_cons]
  omega

/-- A new key put into a full store evicts the least recently used entry. -/
theorem entries_put_of_full {s : LruStore K V} {k : K} (v : V) (hk : k ∉ s.keys)
    (hcap : 0 < s.capacity) (hfull : s.entries.length = s.capacity) :
    (s.put k v).entries = (k, v) :: s.entries.dropLast := by
  obtain ⟨n, hn⟩ := Nat.exists_eq_succ_of_ne_zero hcap.ne'
  rw [entries_put, others_eq_self hk, List.dropLast_eq_take, hfull, hn, List.take_succ_cons]
  rfl

theorem others_put_self (s : LruStore K V) {k : K} (v : V) (hk : k ∈ s.keys) :
    (s.put k v).others k = s.others k := by
  unfold others
  rw [entries_put_of_mem v hk, List.filter_cons_of_neg (by simp)]
  simp [others, List.filter_filter]

theorem put_put_self (s : LruStore K V) {k : K} (v w : V) (hk : k ∈ s.keys) :
    (s.put k v).put k w = s.put k w := by
  ext1
  · rfl
  · rw [entries_put, entries_put, others_put_self s v hk]
    rfl

theorem touch_of_none {s : LruStore K V} {k : K} (h : s.lookup k = none) : s.touch k = s := by
  unfold touch
  rw [h]

theorem touch_of_some {s : LruStore K V} {k : K} {v : V} (h : s.lookup k = some v) :
    s.touch k = s.put k v := by
  unfold touch
  rw [h]

theorem capacity_touch (s : LruStore K V) (k : K) : (s.touch k).capacity = s.capacity := by
  cases h : s.lookup k with
  | none => rw [touch_of_none h]
  | some v => rw [touch_of_some h, capacity_put]

/-- Overwriting the most recent entry in place leaves the others as they are. -/
theorem entries_assign_head {s : LruStore K V} {k : K} {v : V} (w : V) {rest : List (K × V)}
    (hs : s.entries = (k, v) :: rest) : (s.assign k w).entries = (k, w) :: rest := by
  have hnodup := s.nodupKeys
  rw [hs, List.map_cons, List.nodup_cons] at hnodup
  change s.entries.map _ = _
  rw [hs, List.map_cons, if_pos rfl]
  congr 1
  conv_rhs => rw [← List.map_id rest]
  apply List.map_congr_left
  intro e he
  have hne : e.1 ≠ k := fun h => hnodup.1 (List.mem_map.mpr ⟨e, he, h⟩)
  rw [if_neg hne]
  rfl

/-! ## Stores over related values -/

/-- Same capacity, same keys in the same recency order, related values. -/
structure Related (r : V → V' → Prop) (s : LruStore K V) (s' : LruStore K V') : Prop where
  capacity_eq : s.capacity = s'.capacity
  entries_rel : List.Forall₂ (fun e e' => e.1 = e'.1 ∧ r e.2 e'.2) s.entries s'.entries

omit [DecidableEq K] in
theorem related_empty (r : V → V' → Prop) (C : Nat) :
    Related r (empty C : LruStore K V) (empty C : LruStore K V') :=
  ⟨rfl, .nil⟩

theorem Related.lookup {r : V → V' → Prop} {s : LruStore K V} {s' : LruStore K V'}
    (h : Related r s s') (k : K) : Option.Rel r (s.lookup k) (s'.lookup k) := by
  have hrel := h.entries_rel
  unfold LruStore.lookup
  generalize s.entries = es₀, s'.entries = es₀' at hrel ⊢
  induction hrel with
  | nil => exact .none
  | @cons e e' es es' he _ ih =>
      obtain ⟨j, v⟩ := e
      obtain ⟨j', v'⟩ := e'
      obtain ⟨rfl, hv⟩ : j = j' ∧ r v v' := he
      rw [List.lookup_cons, List.lookup_cons]
      cases k == j with
      | true => exact .some hv
      | false => exact ih

theorem Related.put {r : V → V' → Prop} {s : LruStore K V} {s' : LruStore K V'}
    (h : Related r s s') (k : K) {v : V} {v' : V'} (hv : r v v') :
    Related r (s.put k v) (s'.put k v') := by
  have hothers : List.Forall₂ (fun e e' => e.1 = e'.1 ∧ r e.2 e'.2) (s.others k) (s'.others k) :=
    List.rel_filter (fun e e' he => by simp [he.1]) h.entries_rel
  refine ⟨h.capacity_eq, ?_⟩
  rw [entries_put, entries_put, h.capacity_eq]
  exact List.forall₂_take _ (.cons ⟨rfl, hv⟩ hothers)

end LruStore
