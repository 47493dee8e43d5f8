/-
  RateThrottle.Library.Recency

  Recency order and reuse distance of a history of accesses.

  A history lists the accessed keys newest first.  `recency hist` is the list
  of its distinct keys in the order of their last access, and
  `reuseDistance hist k` counts the distinct other keys accessed since the
  last access of `k`.  The two meet in `mem_take_recency_iff`: `k` is among
  the first `C` keys of the recency order exactly when it was accessed and its
  reuse distance is below `C`.
-/

import Mathlib.Data.Finset.Card
import Mathlib.Data.List.TakeWhile

namespace Recency

variable {K : Type*} [DecidableEq K]

/-- The distinct keys of a history (newest access first), most recent first. -/
def recency : List K → List K
  | [] => []
  | k :: hist => k :: (recency hist).filter (· ≠ k)

/-- How many distinct keys other than `k` were accessed since the last access
    of `k` (since the beginning when `k` was never accessed). -/
def reuseDistance (hist : List K) (k : K) : Nat :=
  (hist.takeWhile (· ≠ k)).toFinset.card

@[simp] theorem recency_cons (k : K) (hist : List K) :
    recency (k :: hist) = k :: (recency hist).filter (· ≠ k) := rfl

@[simp] theorem mem_recency {hist : List K} {k : K} : k ∈ recency hist ↔ k ∈ hist := by
  induction hist with
  | nil => simp [recency]
  | cons j hist ih =>
      simp only [recency_cons, List.mem_cons, List.mem_filter, ih, decide_eq_true_eq]
      by_cases hjk : k = j
      · simp [hjk]
      · simp [hjk]

theorem nodup_recency (hist : List K) : (recency hist).Nodup := by
  induction hist with
  | nil => exact List.nodup_nil
  | cons k hist ih =>
      rw [recency_cons, List.nodup_cons]
      exact ⟨by simp, ih.filter _⟩

theorem length_recency (hist : List K) : (recency hist).length = hist.toFinset.card := by
  rw [← List.toFinset_card_of_nodup (nodup_recency hist)]
  congr 1
  ext k
  simp

/-- The recency order of two consecutive stretches: what the newer stretch did
    not touch keeps its order behind it. -/
theorem recency_append (newer older : List K) :
    recency (newer ++ older)
      = recency newer ++ (recency older).filter (· ∉ newer) := by
  induction newer with
  | nil => simp [recency]
  | cons k newer ih =>
      simp only [List.cons_append, recency_cons, ih, List.filter_append, List.filter_filter]
      congr 2
      apply List.filter_congr
      intro j _
      simp [not_or]

/-- A history in which `k` occurs, cut at the last access of `k`. -/
theorem eq_takeWhile_append {hist : List K} {k : K} (hk : k ∈ hist) :
    ∃ older, hist = hist.takeWhile (· ≠ k) ++ k :: older := by
  induction hist with
  | nil => simp at hk
  | cons j hist ih =>
      by_cases hjk : j = k
      · exact ⟨hist, by simp [hjk]⟩
      · obtain ⟨older, holder⟩ := ih ((List.mem_cons.mp hk).resolve_left (Ne.symm hjk))
        refine ⟨older, ?_⟩
        rw [List.takeWhile_cons_of_pos (by simpa using hjk), List.cons_append, ← holder]

/-- Residency by reuse distance: `k` is one of the `C` most recent keys iff
    fewer than `C` other keys were accessed after it. -/
theorem mem_take_recency_iff {hist : List K} {k : K} {C : Nat} :
    k ∈ (recency hist).take C ↔ k ∈ hist ∧ reuseDistance hist k < C := by
  by_cases hk : k ∈ hist
  · obtain ⟨older, hcut⟩ := eq_takeWhile_append hk
    have hnew : k ∉ recency (hist.takeWhile (· ≠ k)) := by
      intro hmem
      simpa using List.mem_takeWhile_imp (mem_recency.mp hmem)
    have hlen : (recency (hist.takeWhile (· ≠ k))).length = reuseDistance hist k :=
      length_recency _
    have hsplit : ∃ tail, recency hist
        = recency (hist.takeWhile (· ≠ k)) ++ k :: tail := by
      have hself : k ∉ hist.takeWhile (· ≠ k) := fun h => hnew (mem_recency.mpr h)
      conv => enter [1, tail, 1]; rw [hcut]
      rw [recency_append, recency_cons, List.filter_cons_of_pos (by simpa using hself)]
      exact ⟨_, rfl⟩
    obtain ⟨tail, htail⟩ := hsplit
    have hnodup : (recency (hist.takeWhile (· ≠ k)) ++ k :: tail).Nodup :=
      htail ▸ nodup_recency hist
    rw [htail, List.take_append, List.mem_append, hlen]
    refine ⟨?_, ?_⟩
    · rintro (hmem | hmem)
      · exact absurd (List.mem_of_mem_take hmem) hnew
      · refine ⟨hk, ?_⟩
        by_contra hfar
        rw [Nat.sub_eq_zero_of_le (by omega)] at hmem
        simp at hmem
    · rintro ⟨-, hlt⟩
      obtain ⟨n, hn⟩ : ∃ n, C - reuseDistance hist k = n + 1 :=
        ⟨C - reuseDistance hist k - 1, by omega⟩
      right
      rw [hn, List.take_succ_cons]
      exact List.mem_cons_self
  · refine ⟨?_, ?_⟩
    · intro hmem
      exact absurd (mem_recency.mp (List.mem_of_mem_take hmem)) hk
    · exact fun h => absurd h.1 hk

/-- Accessing `k` next keeps the `C` most recent keys computable from the `C`
    most recent ones before: what lies beyond them cannot come back. -/
theorem take_cons_filter_take {l : List K} (hl : l.Nodup) (k : K) (C : Nat) :
    (k :: (l.take C).filter (· ≠ k)).take C = (k :: l.filter (· ≠ k)).take C := by
  cases C with
  | zero => rfl
  | succ n =>
      simp only [List.take_succ_cons, List.cons.injEq, true_and]
      induction l generalizing n with
      | nil => rfl
      | cons j l ih =>
          rw [List.nodup_cons] at hl
          by_cases hjk : j = k
          · subst hjk
            have hself : ∀ m, (l.take m).filter (· ≠ j) = l.take m := by
              intro m
              apply List.filter_eq_self.mpr
              intro i hi
              have hne : i ≠ j := fun h => hl.1 (h ▸ List.mem_of_mem_take hi)
              simpa using hne
            have hwhole := hself l.length
            rw [List.take_length] at hwhole
            rw [List.take_succ_cons, List.filter_cons_of_neg (by simp), hself,
              List.filter_cons_of_neg (by simp), hwhole, List.take_take, Nat.min_self]
          · rw [List.take_succ_cons, List.filter_cons_of_pos (by simpa using hjk),
              List.filter_cons_of_pos (by simpa using hjk)]
            cases n with
            | zero => rfl
            | succ m => rw [List.take_succ_cons, List.take_succ_cons, ih hl.2]

/-- The reuse distance never exceeds the number of accesses since the last
    access of `k`. -/
theorem reuseDistance_le_length (hist : List K) (k : K) :
    reuseDistance hist k ≤ (hist.takeWhile (· ≠ k)).length :=
  List.toFinset_card_le _

/-- An access of another key does not bring `k` closer. -/
theorem reuseDistance_le_cons {j k : K} (hne : k ≠ j) (hist : List K) :
    reuseDistance hist k ≤ reuseDistance (j :: hist) k := by
  rw [reuseDistance, reuseDistance, List.takeWhile_cons_of_pos (by simpa using hne.symm),
    List.toFinset_cons]
  exact Finset.card_le_card (Finset.subset_insert _ _)

/-- Reuse distances do not depend on what the keys are called. -/
theorem reuseDistance_map {J : Type*} [DecidableEq J] {f : K → J} (hf : Function.Injective f)
    (hist : List K) (k : K) : reuseDistance (hist.map f) (f k) = reuseDistance hist k := by
  have hsame : (fun j => decide (j ≠ f k)) ∘ f = fun j => decide (j ≠ k) := by
    funext j
    simp [hf.eq_iff]
  rw [reuseDistance, reuseDistance, List.takeWhile_map, hsame, ← Finset.card_image_of_injective _ hf]
  congr 1
  ext j
  simp

/-- Only keys other than `k` count towards its reuse distance, so a history
    with at most `C` distinct keys that contains `k` keeps it below `C`. -/
theorem reuseDistance_lt_card {hist : List K} {k : K} (hk : k ∈ hist) :
    reuseDistance hist k < hist.toFinset.card := by
  apply Finset.card_lt_card
  refine ⟨fun j hj => ?_, fun hsub => ?_⟩
  · exact List.mem_toFinset.mpr
      ((List.takeWhile_sublist _).subset (List.mem_toFinset.mp hj))
  · have hself := List.mem_toFinset.mp (hsub (List.mem_toFinset.mpr hk))
    simpa using List.mem_takeWhile_imp hself

end Recency
