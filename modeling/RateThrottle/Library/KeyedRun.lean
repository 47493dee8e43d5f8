/-
  RateThrottle.Library.KeyedRun

  Runs that keep one value per key, over three kinds of memory.

  `update` says what one input does to the value of its key: from the value
  stored so far (none for a key that is not stored) it gives an output and the
  value to store.  The same `update` is run over

    * an `LruStore` of bounded capacity (`cachedStep`),
    * an unbounded map (`mapStep`), and
    * an unbounded map that forgets the value of a key at reuse distance `C`
      (`forgetStep`),

  and on the inputs of one key alone (`slotStep`).  A store of capacity `C`
  behaves like the forgetting map (`cached_forget_trace`), hence like the plain
  map while at most `C` keys occur (`cached_map_trace`), and the plain map
  splits into one run per key (`map_trace_filter`).
-/

import RateThrottle.Library.Mealy
import RateThrottle.Library.LruStore

namespace KeyedRun

open Mealy Recency

variable {K V ι ο : Type*} [DecidableEq K]

/-- An unbounded record of a keyed run: the accessed keys, newest first, and
    the last value of every key. -/
structure Ledger (K V : Type*) where
  history : List K
  value : K → Option V

/-- Nothing accessed, nothing stored. -/
def Ledger.blank : Ledger K V := ⟨[], fun _ => none⟩

/-- The last value of `k`, forgotten once `C` distinct other keys were accessed
    after it. -/
def Ledger.recall (C : Nat) (l : Ledger K V) (k : K) : Option V :=
  if C ≤ reuseDistance l.history k then none else l.value k

variable (key : ι → K) (update : Option V → ι → ο × V)

/-- One input over a bounded store. -/
def cachedStep (s : LruStore K V) (x : ι) : ο × LruStore K V :=
  let r := update (s.lookup (key x)) x
  (r.1, s.put (key x) r.2)

/-- One input over a record that forgets at reuse distance `C`. -/
def forgetStep (C : Nat) (l : Ledger K V) (x : ι) : ο × Ledger K V :=
  let r := update (l.recall C (key x)) x
  (r.1, ⟨key x :: l.history, Function.update l.value (key x) (some r.2)⟩)

/-- One input over an unbounded map. -/
def mapStep (m : K → Option V) (x : ι) : ο × (K → Option V) :=
  let r := update (m (key x)) x
  (r.1, Function.update m (key x) (some r.2))

/-- One input of a single key. -/
def slotStep (v : Option V) (x : ι) : ο × Option V :=
  let r := update v x
  (r.1, some r.2)

/-! ## A bounded store forgets exactly at reuse distance `C` -/

/-- The store holds the `C` most recent keys of the record, with their values. -/
structure Mirrors (C : Nat) (s : LruStore K V) (l : Ledger K V) : Prop where
  capacity : s.capacity = C
  keys : s.keys = (recency l.history).take C
  value : ∀ k v, s.lookup k = some v → l.value k = some v
  unseen : ∀ k, k ∉ l.history → l.value k = none

theorem mirrors_blank (C : Nat) : Mirrors C (LruStore.empty C : LruStore K V) .blank where
  capacity := rfl
  keys := by simp [Ledger.blank, recency]
  value := by simp
  unseen := fun _ _ => rfl

theorem Mirrors.lookup_eq_recall {C : Nat} {s : LruStore K V} {l : Ledger K V}
    (h : Mirrors C s l) (k : K) : s.lookup k = l.recall C k := by
  have hres : k ∈ s.keys ↔ k ∈ l.history ∧ reuseDistance l.history k < C := by
    rw [h.keys, mem_take_recency_iff]
  unfold Ledger.recall
  split
  · next hfar =>
      rw [LruStore.lookup_eq_none_iff, hres]
      omega
  · next hnear =>
      cases hv : s.lookup k with
      | some v => rw [h.value k v hv]
      | none =>
          have hold : k ∉ l.history := fun hk =>
            LruStore.lookup_eq_none_iff.mp hv (hres.mpr ⟨hk, by omega⟩)
          rw [h.unseen k hold]

theorem Mirrors.step {C : Nat} (hC : 0 < C) {s : LruStore K V} {l : Ledger K V}
    (h : Mirrors C s l) (x : ι) :
    (cachedStep key update s x).1 = (forgetStep key update C l x).1 ∧
      Mirrors C (cachedStep key update s x).2 (forgetStep key update C l x).2 := by
  have hrecall := h.lookup_eq_recall (key x)
  simp only [cachedStep, forgetStep, hrecall, true_and]
  refine ⟨?_, ?_, ?_, ?_⟩
  · exact h.capacity
  · rw [LruStore.keys_put, h.keys, h.capacity, take_cons_filter_take (nodup_recency _)]
    rfl
  · intro k v hv
    by_cases hk : k = key x
    · subst hk
      rw [LruStore.lookup_put_self _ _ _ (h.capacity ▸ hC)] at hv
      simpa using hv
    · rw [LruStore.lookup_put_of_ne _ _ hk] at hv
      split at hv
      · simpa [Function.update_of_ne hk] using h.value k v hv
      · simp at hv
  · intro k hk
    rw [List.mem_cons, not_or] at hk
    simpa [Function.update_of_ne hk.1] using h.unseen k hk.2

/-- **Stack distance.** A run over a store of capacity `C` gives the outputs of
    the unbounded run that forgets at reuse distance `C`. -/
theorem cached_forget_trace {C : Nat} (hC : 0 < C) (xs : List ι) :
    trace (cachedStep key update) (LruStore.empty C) xs
      = trace (forgetStep key update C) .blank xs :=
  trace_eq_of_simulation (R := Mirrors C)
    (fun _ _ x h => Mirrors.step key update hC h x) (mirrors_blank C) xs

theorem history_final (C : Nat) (l : Ledger K V) (xs : List ι) :
    (final (forgetStep key update C) l xs).history = (xs.map key).reverse ++ l.history := by
  induction xs generalizing l with
  | nil => rfl
  | cons x xs ih =>
      rw [final_cons, ih]
      simp [forgetStep]

theorem mirrors_final {C : Nat} (hC : 0 < C) (xs : List ι) :
    Mirrors C (final (cachedStep key update) (LruStore.empty C) xs)
      (final (forgetStep key update C) .blank xs) :=
  final_of_simulation (R := Mirrors C)
    (fun _ _ x h => Mirrors.step key update hC h x) (mirrors_blank C) xs

/-- The store holds the `C` most recently accessed keys, in recency order. -/
theorem cached_keys {C : Nat} (hC : 0 < C) (xs : List ι) :
    (final (cachedStep key update) (LruStore.empty C) xs).keys
      = (recency (xs.map key).reverse).take C := by
  rw [(mirrors_final key update hC xs).keys, history_final]
  simp [Ledger.blank]

theorem cached_capacity {C : Nat} (xs : List ι) :
    (final (cachedStep key update) (LruStore.empty C) xs).capacity = C :=
  Mealy.invariant (P := fun s : LruStore K V => s.capacity = C) (fun _ _ h => h) rfl xs

/-! ## What a key's slot holds after one more input -/

theorem cached_lookup_concat_self {C : Nat} (hC : 0 < C) (xs : List ι) (x : ι) :
    (final (cachedStep key update) (LruStore.empty C) (xs ++ [x])).lookup (key x)
      = some (update ((final (cachedStep key update) (LruStore.empty C) xs).lookup (key x)) x).2
      := by
  rw [final_concat]
  exact LruStore.lookup_put_self _ _ _ (by rw [cached_capacity]; exact hC)

/-- An input of another key leaves the slot of `k` alone, unless it pushes the
    reuse distance of `k` to the capacity. -/
theorem cached_lookup_concat_of_ne {C : Nat} (hC : 0 < C) (xs : List ι) {x : ι} {k : K}
    (hk : k ≠ key x) :
    (final (cachedStep key update) (LruStore.empty C) (xs ++ [x])).lookup k
      = if C ≤ reuseDistance ((xs ++ [x]).map key).reverse k then none
        else (final (cachedStep key update) (LruStore.empty C) xs).lookup k := by
  have hkeys := cached_keys key update hC (xs ++ [x])
  have hres : k ∈ (final (cachedStep key update) (LruStore.empty C) (xs ++ [x])).keys ↔
      k ∈ ((xs ++ [x]).map key).reverse ∧
        reuseDistance ((xs ++ [x]).map key).reverse k < C := by
    rw [hkeys, mem_take_recency_iff]
  rw [final_concat] at hres ⊢
  change (LruStore.put _ _ _).lookup k = _
  rw [LruStore.lookup_put_of_ne _ _ hk]
  change k ∈ (LruStore.put _ _ _).keys ↔ _ at hres
  by_cases hfar : C ≤ reuseDistance ((xs ++ [x]).map key).reverse k
  · rw [if_pos hfar, if_neg (by rw [hres]; omega)]
  · rw [if_neg hfar]
    split
    · rfl
    · next hgone =>
        -- not resident at a short distance: `k` never occurred
        have hold : k ∉ ((xs ++ [x]).map key).reverse := fun h => hgone (hres.mpr ⟨h, by omega⟩)
        symm
        rw [LruStore.lookup_eq_none_iff, cached_keys key update hC]
        intro h
        apply hold
        have hmem := mem_recency.mp (List.mem_of_mem_take h)
        simp only [List.mem_reverse, List.map_append, List.mem_append] at hmem ⊢
        exact Or.inl hmem

/-! ## Few keys: the bounded store is the unbounded map -/

/-- With at most `C` distinct keys nothing is ever evicted: outputs and stored
    values are those of the unbounded map. -/
theorem cached_map_trace {C : Nat} (xs : List ι) (hfew : (xs.map key).toFinset.card ≤ C) :
    trace (cachedStep key update) (LruStore.empty C) xs
        = trace (mapStep key update) (fun _ => none) xs ∧
      ∀ k, (final (cachedStep key update) (LruStore.empty C) xs).lookup k
        = final (mapStep key update) (fun _ => none) xs k := by
  induction xs using List.reverseRecOn with
  | nil => exact ⟨rfl, fun _ => rfl⟩
  | append_singleton xs x ih =>
      have hsub : (xs.map key).toFinset ⊆ ((xs ++ [x]).map key).toFinset := by
        intro j hj
        simp only [List.map_append, List.toFinset_append, Finset.mem_union]
        exact Or.inl hj
      obtain ⟨htrace, hlookup⟩ := ih ((Finset.card_le_card hsub).trans hfew)
      have hC : 0 < C := by
        refine Nat.lt_of_lt_of_le (Finset.card_pos.mpr ⟨key x, ?_⟩) hfew
        simp
      refine ⟨?_, fun k => ?_⟩
      · rw [trace_concat, trace_concat, htrace]
        simp only [cachedStep, mapStep, hlookup]
      · by_cases hk : k = key x
        · subst hk
          rw [cached_lookup_concat_self key update hC, hlookup, final_concat]
          simp [mapStep]
        · rw [cached_lookup_concat_of_ne key update hC xs hk, hlookup, final_concat]
          simp only [mapStep, Function.update_of_ne hk]
          split
          · next hfar =>
              -- a long distance is impossible unless `k` never occurred
              have hnew : k ∉ ((xs ++ [x]).map key).reverse := by
                intro hmem
                have hlt := reuseDistance_lt_card hmem
                rw [List.toFinset_reverse] at hlt
                omega
              symm
              rw [← hlookup, LruStore.lookup_eq_none_iff, cached_keys key update hC]
              intro h
              apply hnew
              have hmem := mem_recency.mp (List.mem_of_mem_take h)
              simp only [List.mem_reverse, List.map_append, List.mem_append] at hmem ⊢
              exact Or.inl hmem
          · rfl

/-! ## The unbounded map, key by key -/

/-- The inputs of `k` see a machine of their own. -/
theorem map_trace_filter (m : K → Option V) (xs : List ι) (k : K) :
    (trace (mapStep key update) m xs).filter (fun e => key e.1 = k)
        = trace (slotStep update) (m k) (xs.filter fun x => key x = k) ∧
      final (mapStep key update) m xs k
        = final (slotStep update) (m k) (xs.filter fun x => key x = k) := by
  induction xs generalizing m with
  | nil => exact ⟨rfl, rfl⟩
  | cons x xs ih =>
      obtain ⟨htrace, hfinal⟩ := ih (mapStep key update m x).2
      by_cases hk : key x = k
      · subst hk
        have hslot : (mapStep key update m x).2 (key x) = (slotStep update (m (key x)) x).2 := by
          simp [mapStep, slotStep]
        rw [List.filter_cons_of_pos (by simp), trace_cons, trace_cons, final_cons, final_cons,
          List.filter_cons_of_pos (by simp), htrace, hfinal, hslot]
        exact ⟨rfl, rfl⟩
      · have hslot : (mapStep key update m x).2 k = m k := by
          simp [mapStep, Function.update_of_ne (Ne.symm hk)]
        rw [List.filter_cons_of_neg (by simpa using hk), trace_cons, final_cons,
          List.filter_cons_of_neg (by simpa using hk), htrace, hfinal, hslot]
        exact ⟨rfl, rfl⟩

/-! ## A key that stays resident -/

/-- While `k` is never evicted before an input of its own, its inputs see a
    machine of their own: whatever the other inputs do, they get the outputs of
    a single-key run. -/
theorem cached_trace_filter {C : Nat} (hC : 0 < C) (k : K) (xs : List ι)
    (hnear : ∀ front x back, xs = front ++ x :: back → key x = k → k ∈ front.map key →
      reuseDistance (front.map key).reverse k < C) :
    (trace (cachedStep key update) (LruStore.empty C) xs).filter (fun e => key e.1 = k)
        = trace (slotStep update) none (xs.filter fun x => key x = k) ∧
      (k ∉ xs.map key ∨ reuseDistance (xs.map key).reverse k < C →
        (final (cachedStep key update) (LruStore.empty C) xs).lookup k
          = final (slotStep update) none (xs.filter fun x => key x = k)) := by
  induction xs using List.reverseRecOn with
  | nil => exact ⟨rfl, fun _ => rfl⟩
  | append_singleton xs x ih =>
      obtain ⟨htrace, hlookup⟩ := ih fun front y back hsplit => by
        refine hnear front y (back ++ [x]) ?_
        rw [hsplit, List.append_assoc, List.cons_append]
      rw [trace_concat, List.filter_append, List.filter_append, htrace]
      by_cases hk : key x = k
      · subst hk
        -- at an input of the key itself its value is still there
        have hhere : key x ∉ xs.map key ∨ reuseDistance (xs.map key).reverse (key x) < C :=
          or_iff_not_imp_left.mpr fun hseen =>
            hnear xs x [] rfl rfl (not_not.mp hseen)
        rw [List.filter_cons_of_pos (by simp), List.filter_cons_of_pos (by simp), List.filter_nil,
          List.filter_nil, trace_concat]
        refine ⟨?_, fun _ => ?_⟩
        · simp only [cachedStep, slotStep, hlookup hhere]
        · rw [cached_lookup_concat_self key update hC, hlookup hhere, final_concat]
          rfl
      · rw [List.filter_cons_of_neg (by simpa using hk), List.filter_cons_of_neg (by simpa using hk),
          List.filter_nil, List.filter_nil, List.append_nil, List.append_nil]
        refine ⟨rfl, fun hclose => ?_⟩
        rw [cached_lookup_concat_of_ne key update hC xs (Ne.symm hk)]
        split
        · next hfar =>
            -- too far, so the key has not occurred at all
            have hnew : k ∉ (xs ++ [x]).map key := hclose.resolve_right (by omega)
            have hnone : xs.filter (fun x => key x = k) = [] := by
              rw [List.filter_eq_nil_iff]
              intro y hy hyk
              apply hnew
              rw [← of_decide_eq_true hyk]
              exact List.mem_map_of_mem (List.mem_append_left _ hy)
            rw [hnone]
            rfl
        · next hnear' =>
            apply hlookup
            rcases hclose with hnew | -
            · exact Or.inl fun hold => hnew (by simp [hold])
            · refine Or.inr (Nat.lt_of_le_of_lt (reuseDistance_le_cons (Ne.symm hk) _) ?_)
              simpa using hnear'

/-! ## What a run does not depend on -/

/-- Runs over renamed keys and translated inputs and values are the same runs. -/
theorem cached_equivariant {K' V' ι' : Type*} [DecidableEq K'] (key' : ι' → K')
    (update' : Option V' → ι' → ο × V') {f : K → K'} (hf : Function.Injective f) {g : ι → ι'}
    {h : V → V'} (hkey : ∀ x, key' (g x) = f (key x))
    (hupdate : ∀ v x, update' (v.map h) (g x) = ((update v x).1, h (update v x).2))
    {C : Nat} (hC : 0 < C) (xs : List ι) :
    trace (cachedStep key' update') (LruStore.empty C) (xs.map g)
        = (trace (cachedStep key update) (LruStore.empty C) xs).map (fun e => (g e.1, e.2)) ∧
      ∀ k, (final (cachedStep key' update') (LruStore.empty C) (xs.map g)).lookup (f k)
        = ((final (cachedStep key update) (LruStore.empty C) xs).lookup k).map h := by
  induction xs using List.reverseRecOn with
  | nil => exact ⟨rfl, fun _ => rfl⟩
  | append_singleton xs x ih =>
      obtain ⟨htrace, hlookup⟩ := ih
      have hhere := hlookup (key x)
      rw [← hkey] at hhere
      have hkeys : ((xs ++ [x]).map g).map key' = ((xs ++ [x]).map key).map f := by
        rw [List.map_map, List.map_map]
        exact List.map_congr_left fun y _ => hkey y
      refine ⟨?_, fun k => ?_⟩
      · rw [List.map_append, List.map_singleton, trace_concat, trace_concat, List.map_append,
          htrace, List.map_singleton]
        simp only [cachedStep, hhere, hupdate]
      · by_cases hk : k = key x
        · subst hk
          rw [← hkey, List.map_append, List.map_singleton,
            cached_lookup_concat_self key' update' hC, cached_lookup_concat_self key update hC,
            hhere, hupdate]
          rfl
        · have hk' : f k ≠ key' (g x) := by
            rw [hkey]
            exact hf.ne hk
          rw [List.map_append, List.map_singleton, cached_lookup_concat_of_ne key' update' hC _ hk',
            cached_lookup_concat_of_ne key update hC xs hk, hlookup, ← List.map_singleton,
            ← List.map_append, hkeys, ← List.map_reverse, reuseDistance_map hf]
          split <;> rfl

/-! ## Two bounded runs over related values -/

/-- Updates that take related values to related outputs and values do so over
    whole runs, and the two stores keep the same keys in the same order. -/
theorem cached_related {V' ο' : Type*} {update' : Option V' → ι → ο' × V'} {r : V → V' → Prop}
    {O : ο → ο' → Prop}
    (hupdate : ∀ v v' x, Option.Rel r v v' →
      O (update v x).1 (update' v' x).1 ∧ r (update v x).2 (update' v' x).2)
    (C : Nat) (xs : List ι) :
    List.Forall₂ (fun e e' => e.1 = e'.1 ∧ O e.2 e'.2)
        (trace (cachedStep key update) (LruStore.empty C) xs)
        (trace (cachedStep key update') (LruStore.empty C) xs) ∧
      LruStore.Related r (final (cachedStep key update) (LruStore.empty C) xs)
        (final (cachedStep key update') (LruStore.empty C) xs) := by
  refine simulation (R := LruStore.Related r) (fun s s' x h => ?_) (LruStore.related_empty r C) xs
  obtain ⟨hout, hval⟩ := hupdate _ _ x (h.lookup (key x))
  exact ⟨hout, h.put (key x) hval⟩

end KeyedRun
