/-
  RateThrottle.Library.Champion

  The search for a greatest element that keeps the first value it meets and
  replaces it by every strictly greater one.

  Over a total order in which only equal values compare equal the result does
  not depend on the order in which the values come (`champion_congr`).
-/

import Mathlib.Data.List.Basic
import Mathlib.Data.List.Induction

namespace Champion

open Std

variable {α : Type*} (cmp : α → α → Ordering)

/-- The value kept after one more candidate. -/
def keep (best : Option α) (x : α) : Option α :=
  match best with
  | none => some x
  | some b => if cmp x b = .gt then some x else some b

/-- The value kept after all candidates. -/
def champion (xs : List α) : Option α := xs.foldl (keep cmp) none

/-- Something is kept as soon as there is a candidate. -/
theorem isSome_foldl_keep (b : α) (xs : List α) :
    ((xs.foldl (keep cmp) (some b)).isSome) = true := by
  induction xs generalizing b with
  | nil => rfl
  | cons x xs ih =>
      rw [List.foldl_cons, keep]
      split
      · exact ih x
      · exact ih b

theorem champion_eq_none_iff {xs : List α} : champion cmp xs = none ↔ xs = [] := by
  cases xs with
  | nil => exact ⟨fun _ => rfl, fun _ => rfl⟩
  | cons x xs =>
      have hsome := isSome_foldl_keep cmp x xs
      rw [Option.isSome_iff_ne_none] at hsome
      exact ⟨fun h => absurd h hsome, fun h => by cases h⟩

variable {cmp}

/-- What is kept was met, and nothing met is greater. -/
theorem foldl_keep_spec [TransCmp cmp] {b m : α} {xs : List α}
    (h : xs.foldl (keep cmp) (some b) = some m) :
    m ∈ b :: xs ∧ ∀ x ∈ b :: xs, (cmp x m).isLE = true := by
  induction xs generalizing b with
  | nil =>
      obtain rfl : b = m := Option.some.inj h
      refine ⟨List.mem_singleton_self b, fun x hx => ?_⟩
      rw [List.mem_singleton.mp hx]
      exact ReflCmp.isLE_rfl
  | cons y ys ih =>
      rw [List.foldl_cons, keep] at h
      split at h
      · next hgt =>
          obtain ⟨hmem, hmax⟩ := ih h
          refine ⟨List.mem_cons_of_mem b hmem, fun x hx => ?_⟩
          rcases List.mem_cons.mp hx with rfl | hx
          · -- the old value is below the new one, and so below the last one kept
            have hlt : cmp x y = .lt := OrientedCmp.gt_iff_lt.mp hgt
            exact TransCmp.isLE_trans (by rw [hlt]; rfl) (hmax y (List.mem_cons_self ..))
          · exact hmax x hx
      · next hle =>
          obtain ⟨hmem, hmax⟩ := ih h
          refine ⟨?_, fun x hx => ?_⟩
          · rcases List.mem_cons.mp hmem with rfl | hmem
            · exact List.mem_cons_self ..
            · exact List.mem_cons_of_mem _ (List.mem_cons_of_mem _ hmem)
          · rcases List.mem_cons.mp hx with rfl | hx
            · exact hmax x (List.mem_cons_self ..)
            · rcases List.mem_cons.mp hx with rfl | hx
              · refine TransCmp.isLE_trans ?_ (hmax b (List.mem_cons_self ..))
                exact Ordering.ne_gt_iff_isLE.mp hle
              · exact hmax x (List.mem_cons_of_mem _ hx)

theorem champion_spec [TransCmp cmp] {m : α} {xs : List α} (h : champion cmp xs = some m) :
    m ∈ xs ∧ ∀ x ∈ xs, (cmp x m).isLE = true := by
  cases xs with
  | nil => cases h
  | cons x xs => exact foldl_keep_spec h

/-- The result depends on which values are met only. -/
theorem champion_congr [TransCmp cmp] [LawfulEqCmp cmp] {xs ys : List α}
    (hmem : ∀ x, x ∈ xs ↔ x ∈ ys) : champion cmp xs = champion cmp ys := by
  cases hx : champion cmp xs with
  | none =>
      rw [champion_eq_none_iff] at hx
      subst hx
      symm
      rw [champion_eq_none_iff, List.eq_nil_iff_forall_not_mem]
      exact fun y hy => absurd ((hmem y).mpr hy) (by simp)
  | some m =>
      cases hy : champion cmp ys with
      | none =>
          rw [champion_eq_none_iff] at hy
          have hm := (hmem m).mp (champion_spec hx).1
          rw [hy] at hm
          cases hm
      | some m' =>
          obtain ⟨hm, hmax⟩ := champion_spec hx
          obtain ⟨hm', hmax'⟩ := champion_spec hy
          -- each is at most the other
          have hle := hmax' m ((hmem m).mp hm)
          have hge := hmax m' ((hmem m').mpr hm')
          rw [LawfulEqCmp.eq_of_compare (OrientedCmp.isLE_antisymm hle hge)]

/-- Of sorted values it is the last one. -/
theorem champion_eq_getLast? [TransCmp cmp] [LawfulEqCmp cmp] {xs : List α}
    (hsorted : xs.Pairwise fun a b => (cmp a b).isLE = true) : champion cmp xs = xs.getLast? := by
  induction xs using List.reverseRecOn with
  | nil => rfl
  | append_singleton xs x ih =>
      rw [List.pairwise_append] at hsorted
      obtain ⟨hinit, -, hle⟩ := hsorted
      have hstep : champion cmp (xs ++ [x]) = keep cmp (champion cmp xs) x := by
        rw [champion, List.foldl_concat]
        rfl
      rw [hstep, List.getLast?_concat, ih hinit]
      cases hlast : xs.getLast? with
      | none => rfl
      | some best =>
          rw [keep]
          split
          · rfl
          · next hngt =>
              -- not above the last value and not below it
              have hup := hle best (List.mem_of_getLast? hlast) x (List.mem_singleton_self x)
              have hdown : (cmp x best).isLE = true := Ordering.ne_gt_iff_isLE.mp hngt
              rw [LawfulEqCmp.eq_of_compare (OrientedCmp.isLE_antisymm hdown hup)]

end Champion
