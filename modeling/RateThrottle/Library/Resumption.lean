/-
  RateThrottle.Library.Resumption

  Programs that rewrite one cell after the other and stop at the first cell that
  they cannot rewrite.

  Nothing is rolled back, so a run that stops leaves some cells rewritten.  What
  it leaves is described cell by cell (`cells_run`), and so is what a run depends
  on (`run_congr`).  Together they say when the program can be started again: where
  rewriting a rewritten cell gives what rewriting it gave at first, the second run
  does what it would have done without the first one, whatever has happened to the
  other cells in between (`run_resumed`).
-/

import Mathlib.Data.List.Nodup
import Mathlib.Logic.Function.Basic

namespace Resumption

variable {ι α ε : Type*}

/-- One cell gets a new content, made from the one it has. -/
structure Step (ι α ε : Type*) where
  cell : ι
  rewrite : α → Except ε α

variable [DecidableEq ι]

/-- The program on the given cells: how it ends and what it leaves. -/
def run : List (Step ι α ε) → (ι → α) → Except ε Unit × (ι → α)
  | [], s => (.ok (), s)
  | step :: steps, s =>
      match step.rewrite (s step.cell) with
      | .error e => (.error e, s)
      | .ok a => run steps (Function.update s step.cell a)

section Steps

variable {step : Step ι α ε} {steps steps' : List (Step ι α ε)} {s : ι → α}

theorem run_cons_error {e : ε} (h : step.rewrite (s step.cell) = .error e) :
    run (step :: steps) s = (.error e, s) := by
  rw [run, h]

theorem run_cons_ok {a : α} (h : step.rewrite (s step.cell) = .ok a) :
    run (step :: steps) s = run steps (Function.update s step.cell a) := by
  rw [run, h]

/-- A program after another one. -/
theorem run_append (steps steps' : List (Step ι α ε)) (s : ι → α) :
    run (steps ++ steps') s
      = match run steps s with
        | (.error e, s') => (.error e, s')
        | (.ok (), s') => run steps' s' := by
  induction steps generalizing s with
  | nil => rfl
  | cons step steps ih =>
      rw [List.cons_append]
      cases h : step.rewrite (s step.cell) with
      | error e => rw [run_cons_error h, run_cons_error h]
      | ok a => rw [run_cons_ok h, run_cons_ok h, ih]

/-- The other cells are left alone. -/
theorem run_of_not_mem {i : ι} (hi : i ∉ steps.map Step.cell) : (run steps s).2 i = s i := by
  induction steps generalizing s with
  | nil => rfl
  | cons step steps ih =>
      rw [List.map_cons, List.mem_cons, not_or] at hi
      cases h : step.rewrite (s step.cell) with
      | error e => rw [run_cons_error h]
      | ok a => rw [run_cons_ok h, ih hi.2, Function.update_of_ne hi.1]

/-- A run that stops has not rewritten the last cell. -/
theorem run_last_of_error {last : Step ι α ε} (hlast : last.cell ∉ steps.map Step.cell) {e : ε}
    (h : (run (steps ++ [last]) s).1 = .error e) :
    (run (steps ++ [last]) s).2 last.cell = s last.cell := by
  have hinit : (run steps s).2 last.cell = s last.cell := run_of_not_mem hlast
  rw [run_append] at h ⊢
  rcases hrun : run steps s with ⟨e' | ⟨⟩, s'⟩
  · rw [hrun] at hinit
    exact hinit
  · rw [hrun] at hinit h
    cases hrewrite : last.rewrite (s' last.cell) with
    | error e' =>
        simp only [run_cons_error hrewrite]
        exact hinit
    | ok a =>
        simp only [run_cons_ok hrewrite] at h
        cases h

/-- **What a run leaves.** Each cell is as it was, or its step has rewritten it. -/
theorem cells_run (hcells : (steps.map Step.cell).Nodup) (s : ι → α) (i : ι) :
    (run steps s).2 i = s i ∨
      ∃ step ∈ steps, step.cell = i ∧ step.rewrite (s i) = .ok ((run steps s).2 i) := by
  induction steps generalizing s with
  | nil => exact Or.inl rfl
  | cons step steps ih =>
      obtain ⟨hfirst, hlater⟩ := List.nodup_cons.mp hcells
      cases h : step.rewrite (s step.cell) with
      | error e =>
          rw [run_cons_error h]
          exact Or.inl rfl
      | ok a =>
          rw [run_cons_ok h]
          by_cases hi : step.cell = i
          · -- no later step has this cell
            subst hi
            refine Or.inr ⟨step, List.mem_cons_self, rfl, ?_⟩
            rw [run_of_not_mem hfirst, Function.update_self]
            exact h
          · have hsame : Function.update s step.cell a i = s i :=
              Function.update_of_ne (Ne.symm hi) a s
            rcases ih hlater (Function.update s step.cell a) with hleft | ⟨other, hother, hrest⟩
            · exact Or.inl (hleft.trans hsame)
            · rw [hsame] at hrest
              exact Or.inr ⟨other, List.mem_cons_of_mem _ hother, hrest⟩

/-- **What a run depends on.** Cells that are rewritten alike make runs that end
    alike, and leave the same if they finish. -/
theorem run_congr (hcells : (steps.map Step.cell).Nodup) {s t : ι → α}
    (hsteps : ∀ step ∈ steps, step.rewrite (s step.cell) = step.rewrite (t step.cell))
    (hothers : ∀ i, i ∉ steps.map Step.cell → s i = t i) :
    (run steps s).1 = (run steps t).1 ∧
      ((run steps t).1 = .ok () → (run steps s).2 = (run steps t).2) := by
  induction steps generalizing s t with
  | nil => exact ⟨rfl, fun _ => funext fun i => hothers i List.not_mem_nil⟩
  | cons step steps ih =>
      obtain ⟨hfirst, hlater⟩ := List.nodup_cons.mp hcells
      have hstep := hsteps step List.mem_cons_self
      cases h : step.rewrite (t step.cell) with
      | error e =>
          rw [run_cons_error h, run_cons_error (hstep.trans h)]
          exact ⟨rfl, fun hdone => by cases hdone⟩
      | ok a =>
          rw [run_cons_ok h, run_cons_ok (hstep.trans h)]
          refine ih hlater (fun other hother => ?_) (fun i hi => ?_)
          · have hne : other.cell ≠ step.cell := by
              intro heq
              exact hfirst (heq ▸ List.mem_map_of_mem hother)
            rw [Function.update_of_ne hne, Function.update_of_ne hne]
            exact hsteps other (List.mem_cons_of_mem _ hother)
          · by_cases heq : i = step.cell
            · rw [heq, Function.update_self, Function.update_self]
            · rw [Function.update_of_ne heq, Function.update_of_ne heq]
              exact hothers i (by rw [List.map_cons, List.mem_cons, not_or]; exact ⟨heq, hi⟩)

end Steps

/-- Two states to go on with after a run from `s` has left `left`: each cell is as
    it was before the run in one of them and as it has been left in the other, or
    it has been given the same content in both. -/
def GoOn (s left fresh resumed : ι → α) : Prop :=
  ∀ i, fresh i = s i ∧ resumed i = left i ∨ fresh i = resumed i

/-- **A run can be resumed** by a program that rewrites every cell, where it
    rewrites what the first run has rewritten like what was there before. -/
theorem run_resumed {steps steps' : List (Step ι α ε)} (hcells : (steps.map Step.cell).Nodup)
    (hcells' : (steps'.map Step.cell).Nodup) (hall : ∀ i, i ∈ steps'.map Step.cell) {s : ι → α}
    (hagain : ∀ i, (run steps s).2 i ≠ s i → ∀ step ∈ steps, step.cell = i →
      step.rewrite (s i) = .ok ((run steps s).2 i) → ∀ step' ∈ steps', step'.cell = i →
        step'.rewrite ((run steps s).2 i) = step'.rewrite (s i))
    {fresh resumed : ι → α} (hgoOn : GoOn s (run steps s).2 fresh resumed) :
    (run steps' resumed).1 = (run steps' fresh).1 ∧
      ((run steps' fresh).1 = .ok () → (run steps' resumed).2 = (run steps' fresh).2) := by
  refine run_congr hcells' (fun step' hstep' => ?_) fun i hi => absurd (hall i) hi
  rcases hgoOn step'.cell with ⟨hfresh, hresumed⟩ | hsame
  · rw [hfresh, hresumed]
    by_cases hleft : (run steps s).2 step'.cell = s step'.cell
    · rw [hleft]
    · rcases cells_run hcells s step'.cell with hkept | ⟨step, hstep, hcell, hrewrite⟩
      · exact absurd hkept hleft
      · exact hagain _ hleft step hstep hcell hrewrite step' hstep' rfl
  · rw [hsame]

end Resumption
