/-
  RateThrottle.Library.Adjacent

  Grouping adjacent elements with equal keys, as a loop that looks at the last
  group built so far.

  A key may get several groups when its elements are apart.  When the elements
  come in the order of a rank, and one rank belongs to the key alone, it gets at
  most one (`count_keys_le_one`), so that the first group found under the key is
  the group (`find?_group`).  When the elements come in the order of their keys,
  the groups are a partition: the keys increase (`pairwise_keys`) and a group
  has all elements with its key (`mem_members_iff`).
-/

import Mathlib.Data.List.Basic
import Mathlib.Data.List.Dedup
import Mathlib.Data.List.Induction
import Mathlib.Data.List.Nodup
import Mathlib.Order.Basic

namespace Adjacent

variable {α κ : Type*} [DecidableEq κ] (key : α → κ)

/-- One more element: it joins the last group if that has its key. -/
def push (groups : List (κ × List α)) (x : α) : List (κ × List α) :=
  match groups.getLast? with
  | none => groups ++ [(key x, [x])]
  | some (k, members) =>
      if k = key x then groups.dropLast ++ [(k, members ++ [x])] else groups ++ [(key x, [x])]

/-- All elements, in their order. -/
def group (xs : List α) : List (κ × List α) := xs.foldl (push key) []

/-- Between two elements with one key all elements have that key. -/
def Together (xs : List α) : Prop :=
  ∀ pre x mid y post, xs = pre ++ x :: (mid ++ y :: post) → key x = key y →
    ∀ z ∈ mid, key z = key x

theorem group_concat (xs : List α) (x : α) : group key (xs ++ [x]) = push key (group key xs) x :=
  List.foldl_concat ..

/-- The two outcomes of `push`. -/
theorem push_cases (groups : List (κ × List α)) (x : α) :
    (∃ init members, groups = init ++ [(key x, members)] ∧
        push key groups x = init ++ [(key x, members ++ [x])]) ∨
      ((groups.map Prod.fst).getLast? ≠ some (key x) ∧
        push key groups x = groups ++ [(key x, [x])]) := by
  rcases List.eq_nil_or_concat groups with rfl | ⟨init, ⟨k, members⟩, rfl⟩
  · exact Or.inr ⟨by simp, rfl⟩
  · by_cases hk : k = key x
    · subst hk
      exact Or.inl ⟨init, members, List.concat_eq_append, by simp [push]⟩
    · exact Or.inr ⟨by simpa using hk, by simp [push, hk]⟩

/-- The keys after one more element: as before, or with its key at the end. -/
theorem keys_push_cases (groups : List (κ × List α)) (x : α) :
    (push key groups x).map Prod.fst = groups.map Prod.fst ∨
      ((groups.map Prod.fst).getLast? ≠ some (key x) ∧
        (push key groups x).map Prod.fst = groups.map Prod.fst ++ [key x]) := by
  rcases push_cases key groups x with ⟨init, members, rfl, hpush⟩ | ⟨hlast, hpush⟩
  · refine Or.inl ?_
    rw [hpush, List.map_append, List.map_append]
    rfl
  · refine Or.inr ⟨hlast, ?_⟩
    rw [hpush, List.map_append, List.map_singleton]

/-- The last group has the key of the last element. -/
theorem getLast?_keys (xs : List α) :
    ((group key xs).map Prod.fst).getLast? = xs.getLast?.map key := by
  induction xs using List.reverseRecOn with
  | nil => rfl
  | append_singleton xs x ih =>
      rw [group_concat]
      rcases push_cases key (group key xs) x with ⟨init, members, -, hpush⟩ | ⟨-, hpush⟩
      · simp [hpush]
      · simp [hpush]

variable {key}

/-- The members of a group are there and have its key. -/
theorem of_mem_group {xs : List α} {k : κ} {members : List α}
    (h : (k, members) ∈ group key xs) :
    members ≠ [] ∧ (∀ x ∈ members, key x = k) ∧ members.length ≤ xs.length := by
  induction xs using List.reverseRecOn generalizing k members with
  | nil => cases h
  | append_singleton xs x ih =>
      rw [group_concat] at h
      rw [List.length_append, List.length_singleton]
      rcases push_cases key (group key xs) x with ⟨init, old, hgroups, hpush⟩ | ⟨-, hpush⟩
      · rw [hpush, List.mem_append, List.mem_singleton, Prod.mk.injEq] at h
        rw [hgroups] at ih
        rcases h with h | ⟨rfl, rfl⟩
        · obtain ⟨hne, hkey, hlen⟩ := ih (List.mem_append_left _ h)
          exact ⟨hne, hkey, by omega⟩
        · -- the last group has grown by one
          obtain ⟨-, hkey, hlen⟩ := ih (List.mem_append_right _ (List.mem_singleton_self _))
          refine ⟨by simp, fun y hy => ?_, by simpa using hlen⟩
          rcases List.mem_append.mp hy with hy | hy
          · exact hkey y hy
          · rw [List.mem_singleton.mp hy]
      · rw [hpush, List.mem_append, List.mem_singleton, Prod.mk.injEq] at h
        rcases h with h | ⟨rfl, rfl⟩
        · obtain ⟨hne, hkey, hlen⟩ := ih h
          exact ⟨hne, hkey, by omega⟩
        · exact ⟨by simp, by simp, by simp⟩

/-- Every group key is the key of an element. -/
theorem exists_of_mem_keys {xs : List α} {k : κ} (h : k ∈ (group key xs).map Prod.fst) :
    ∃ x ∈ xs, key x = k := by
  induction xs using List.reverseRecOn with
  | nil => cases h
  | append_singleton xs x ih =>
      rw [group_concat] at h
      rcases keys_push_cases key (group key xs) x with hkeys | ⟨-, hkeys⟩
      · rw [hkeys] at h
        obtain ⟨y, hy, hk⟩ := ih h
        exact ⟨y, List.mem_append_left _ hy, hk⟩
      · rw [hkeys, List.mem_append] at h
        rcases h with h | h
        · obtain ⟨y, hy, hk⟩ := ih h
          exact ⟨y, List.mem_append_left _ hy, hk⟩
        · exact ⟨x, List.mem_append_right _ (List.mem_singleton_self x),
            (List.mem_singleton.mp h).symm⟩

/-- Nothing is lost, and the order is kept. -/
theorem flatMap_group (xs : List α) : (group key xs).flatMap Prod.snd = xs := by
  induction xs using List.reverseRecOn with
  | nil => rfl
  | append_singleton xs x ih =>
      rw [group_concat]
      rcases push_cases key (group key xs) x with ⟨init, members, hgroups, hpush⟩ | ⟨-, hpush⟩
      · rw [hgroups, List.flatMap_append] at ih
        rw [hpush, List.flatMap_append, ← ih]
        simp
      · rw [hpush, List.flatMap_append, ih]
        simp

/-- Where no key repeats, a group has all elements with its key. -/
theorem mem_members_iff {xs : List α} (hkeys : ((group key xs).map Prod.fst).Nodup) {k : κ}
    {members : List α} (h : (k, members) ∈ group key xs) {x : α} :
    x ∈ members ↔ x ∈ xs ∧ key x = k := by
  have hall : x ∈ xs ↔ ∃ g ∈ group key xs, x ∈ g.2 := by
    rw [← List.mem_flatMap, flatMap_group]
  refine ⟨fun hx => ⟨hall.mpr ⟨_, h, hx⟩, (of_mem_group h).2.1 x hx⟩, ?_⟩
  rintro ⟨hx, hk⟩
  obtain ⟨⟨k', members'⟩, hg, hx⟩ := hall.mp hx
  have hkey : k' = k := by rw [← hk, (of_mem_group hg).2.1 x hx]
  have hsame : (k', members') = (k, members) :=
    List.inj_on_of_nodup_map hkeys hg h hkey
  cases hsame
  exact hx

/-- Elements in an order come before the last one. -/
theorem exists_last {R : α → α → Prop} {xs : List α} (hxs : xs.Pairwise R)
    (hrefl : ∀ x, R x x) {y : α} (hy : y ∈ xs) : ∃ init z, xs = init ++ [z] ∧ R y z := by
  obtain ⟨init, z, rfl⟩ := (List.eq_nil_or_concat' xs).resolve_left (List.ne_nil_of_mem hy)
  refine ⟨init, z, rfl, ?_⟩
  rcases List.mem_append.mp hy with hy | hy
  · exact (List.pairwise_append.mp hxs).2.2 y hy z (List.mem_singleton_self z)
  · rw [List.mem_singleton.mp hy]
    exact hrefl z

/-! ## Elements that stand together -/

theorem mem_keys_iff {xs : List α} {k : κ} :
    k ∈ (group key xs).map Prod.fst ↔ k ∈ xs.map key := by
  refine ⟨fun h => ?_, fun h => ?_⟩
  · obtain ⟨x, hx, rfl⟩ := exists_of_mem_keys h
    exact List.mem_map_of_mem hx
  · obtain ⟨x, hx, rfl⟩ := List.mem_map.mp h
    have hall : (group key xs).flatMap Prod.snd = xs := flatMap_group xs
    rw [← hall] at hx
    obtain ⟨⟨k, members⟩, hgroup, hmem⟩ := List.mem_flatMap.mp hx
    rw [(of_mem_group hgroup).2.1 x hmem]
    exact List.mem_map_of_mem hgroup

/-- One more element stands together with those before it when it follows one
    with its key, or its key is new. -/
theorem together_concat {xs : List α} {a : α} :
    Together key (xs ++ [a])
      ↔ Together key xs ∧ (xs.getLast?.map key = some (key a) ∨ key a ∉ xs.map key) := by
  refine ⟨fun h => ⟨?_, ?_⟩, ?_⟩
  · intro pre x mid y post hxs
    exact h pre x mid y (post ++ [a]) (by rw [hxs]; simp)
  · by_cases hmem : key a ∈ xs.map key
    · refine Or.inl ?_
      obtain ⟨x, hx, hkey⟩ := List.mem_map.mp hmem
      obtain ⟨pre, mid, rfl⟩ := List.append_of_mem hx
      have hmid := h pre x mid a [] (by simp) hkey
      rcases List.eq_nil_or_concat' mid with rfl | ⟨mid, z, rfl⟩
      · simp [hkey]
      · have hz := hmid z (List.mem_append_right _ (List.mem_singleton_self z))
        have hsplit : pre ++ x :: (mid ++ [z]) = (pre ++ x :: mid) ++ [z] := by simp
        rw [hsplit, List.getLast?_concat, Option.map_some, hz, hkey]
    · exact Or.inr hmem
  · rintro ⟨hxs, hlast⟩ pre x mid y post hsplit hkey
    rcases List.eq_nil_or_concat' post with rfl | ⟨post, b, rfl⟩
    · -- the pair ends at the new element
      have hassoc : pre ++ x :: (mid ++ [y]) = (pre ++ x :: mid) ++ [y] := by simp
      rw [hassoc] at hsplit
      obtain ⟨rfl, hy⟩ := List.append_inj' hsplit rfl
      obtain rfl := List.singleton_inj.mp hy
      rcases hlast with hlast | hnew
      · rcases List.eq_nil_or_concat' mid with rfl | ⟨mid, z, rfl⟩
        · simp
        · have hassoc' : pre ++ x :: (mid ++ [z]) = (pre ++ x :: mid) ++ [z] := by simp
          rw [hassoc', List.getLast?_concat, Option.map_some, Option.some_inj] at hlast
          have hz : key z = key x := by rw [hlast, hkey]
          refine List.forall_mem_append.mpr ⟨hxs pre x mid z [] rfl hz.symm, ?_⟩
          simpa using hz
      · rw [← hkey] at hnew
        exact absurd (List.mem_map_of_mem (by simp)) hnew
    · have hassoc : pre ++ x :: (mid ++ y :: (post ++ [b]))
          = (pre ++ x :: (mid ++ y :: post)) ++ [b] := by
        simp
      rw [hassoc] at hsplit
      obtain ⟨rfl, -⟩ := List.append_inj' hsplit rfl
      exact hxs pre x mid y post rfl hkey

/-- No key gets two groups exactly when the elements of each key stand together. -/
theorem nodup_keys_iff {xs : List α} :
    ((group key xs).map Prod.fst).Nodup ↔ Together key xs := by
  induction xs using List.reverseRecOn with
  | nil =>
      refine iff_of_true List.nodup_nil fun pre x mid y post h => ?_
      simp at h
  | append_singleton xs a ih =>
      have hkeys := getLast?_keys key xs
      rw [group_concat, together_concat, ← ih]
      rcases push_cases key (group key xs) a with ⟨init, members, hgroups, hpush⟩ | ⟨hlast, hpush⟩
      · -- the element joins the last group
        rw [hgroups, List.map_append, List.map_singleton, List.getLast?_concat] at hkeys
        rw [hpush, hgroups, and_iff_left (Or.inl hkeys.symm)]
        simp
      · rw [hkeys] at hlast
        rw [hpush, List.map_append, List.map_singleton, ← List.concat_eq_append,
          List.nodup_concat, mem_keys_iff, and_comm, or_iff_right hlast]

/-- There are at least as many groups as keys, and as many exactly when the
    elements of each key stand together. -/
theorem length_group {xs : List α} {keys : List κ} (hkeys : keys.Nodup)
    (hmem : ∀ k, k ∈ keys ↔ k ∈ xs.map key) :
    keys.length ≤ (group key xs).length ∧
      ((group key xs).length = keys.length ↔ Together key xs) := by
  have hperm : keys.Perm ((group key xs).map Prod.fst).dedup :=
    (List.perm_ext_iff_of_nodup hkeys (List.nodup_dedup _)).mpr fun k => by
      rw [hmem, List.mem_dedup, mem_keys_iff]
  have hsub := List.dedup_sublist ((group key xs).map Prod.fst)
  rw [← nodup_keys_iff, ← List.length_map Prod.fst, hperm.length_eq]
  refine ⟨hsub.length_le, fun h => ?_, fun h => by rw [h.dedup]⟩
  exact List.dedup_eq_self.mp (hsub.eq_of_length h.symm)

/-! ## Elements in the order of their keys -/

/-- The keys of the groups increase when those of the elements do not decrease. -/
theorem pairwise_keys {ρ : Type*} [PartialOrder ρ] {order : κ → ρ}
    (horder : Function.Injective order) {xs : List α}
    (hsorted : xs.Pairwise fun x y => order (key x) ≤ order (key y)) :
    ((group key xs).map Prod.fst).Pairwise fun k l => order k < order l := by
  induction xs using List.reverseRecOn with
  | nil => exact .nil
  | append_singleton xs x ih =>
      obtain ⟨hxs, -, hle⟩ := List.pairwise_append.mp hsorted
      rw [group_concat]
      rcases keys_push_cases key (group key xs) x with hkeys | ⟨hlast, hkeys⟩
      · rw [hkeys]
        exact ih hxs
      · rw [hkeys, List.pairwise_append]
        refine ⟨ih hxs, List.pairwise_singleton _ _, fun k hk l hl => ?_⟩
        rw [List.mem_singleton.mp hl]
        obtain ⟨y, hy, rfl⟩ := exists_of_mem_keys hk
        refine lt_of_le_of_ne (hle y hy x (List.mem_singleton_self x)) fun heq => hlast ?_
        -- the last element stands between two elements with the new key
        obtain ⟨init, z, rfl, hyz⟩ := exists_last hxs (fun _ => le_rfl) hy
        have hzx := hle z (List.mem_append_right _ (List.mem_singleton_self z)) x
          (List.mem_singleton_self x)
        have hz : key z = key x := horder (le_antisymm hzx (heq ▸ hyz))
        rw [getLast?_keys, List.getLast?_concat, Option.map_some, hz]

/-! ## Elements in the order of a rank -/

section Ranked

variable {rank : α → Nat} {k : κ} {r : Nat}

/-- A key that owns a rank gets at most one group. -/
theorem count_keys_le_one (hrank : ∀ x, key x = k ↔ rank x = r) {xs : List α}
    (hsorted : xs.Pairwise fun x y => rank x ≤ rank y) :
    ((group key xs).map Prod.fst).count k ≤ 1 := by
  induction xs using List.reverseRecOn with
  | nil => exact Nat.zero_le _
  | append_singleton xs x ih =>
      obtain ⟨hxs, -, hle⟩ := List.pairwise_append.mp hsorted
      rw [group_concat]
      rcases keys_push_cases key (group key xs) x with hkeys | ⟨hlast, hkeys⟩
      · rw [hkeys]
        exact ih hxs
      · rw [hkeys, List.count_append]
        by_cases hk : key x = k
        · -- were there an earlier group, the last element would have its rank
          have habsent : k ∉ (group key xs).map Prod.fst := by
            intro hmem
            obtain ⟨y, hy, hyk⟩ := exists_of_mem_keys hmem
            obtain ⟨init, z, rfl, hyz⟩ := exists_last hxs (fun _ => Nat.le_refl _) hy
            have hzx := hle z (List.mem_append_right _ (List.mem_singleton_self z)) x
              (List.mem_singleton_self x)
            rw [(hrank y).mp hyk] at hyz
            rw [(hrank x).mp hk] at hzx
            have hz : key z = key x := by rw [hk, hrank]; omega
            rw [getLast?_keys, List.getLast?_concat, Option.map_some, hz] at hlast
            exact hlast rfl
          rw [List.count_eq_zero_of_not_mem habsent, Nat.zero_add]
          exact List.count_le_length
        · rw [List.count_singleton, if_neg (by simpa using hk)]
          exact ih hxs

/-- The first group under a key that occurs once. -/
theorem find?_of_count_le_one {groups : List (κ × List α)} {members : List α}
    (hcount : (groups.map Prod.fst).count k ≤ 1) (h : (k, members) ∈ groups) :
    groups.find? (fun g => g.1 = k) = some (k, members) := by
  induction groups with
  | nil => cases h
  | cons g groups ih =>
      rw [List.map_cons, List.count_cons] at hcount
      rw [List.find?_cons]
      rcases List.mem_cons.mp h with rfl | h
      · simp
      · have hpos : 0 < (groups.map Prod.fst).count k :=
          List.count_pos_iff.mpr (List.mem_map_of_mem h)
        have hg : g.1 ≠ k := by
          intro hg
          rw [hg, beq_self_eq_true, if_pos rfl] at hcount
          omega
        simp only [hg, decide_false]
        exact ih (by omega) h

/-- The group of a key that owns a rank is found under its key. -/
theorem find?_group (hrank : ∀ x, key x = k ↔ rank x = r) {xs : List α}
    (hsorted : xs.Pairwise fun x y => rank x ≤ rank y) {members : List α}
    (h : (k, members) ∈ group key xs) :
    (group key xs).find? (fun g => g.1 = k) = some (k, members) :=
  find?_of_count_le_one (count_keys_le_one hrank hsorted) h

end Ranked

end Adjacent
