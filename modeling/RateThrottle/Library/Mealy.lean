/-
  RateThrottle.Library.Mealy

  Deterministic machines run over a list of inputs: a step turns a state and
  an input into an output and the next state.

  `final` is the state a run ends in and `trace` pairs every input with the
  output it got.  A relation between the states of two machines that every
  step keeps relates whole runs (`simulation`); a predicate that every step
  keeps holds at the end of every run (`invariant`).
-/

import Mathlib.Data.List.Forall2

namespace Mealy

variable {σ σ' ι ο ο' : Type*}

/-- The state reached after feeding the inputs one by one. -/
def final (step : σ → ι → ο × σ) : σ → List ι → σ
  | s, [] => s
  | s, x :: xs => final step (step s x).2 xs

/-- Every input paired with its output, in processing order. -/
def trace (step : σ → ι → ο × σ) : σ → List ι → List (ι × ο)
  | _, [] => []
  | s, x :: xs => (x, (step s x).1) :: trace step (step s x).2 xs

variable (step : σ → ι → ο × σ)

@[simp] theorem final_nil (s : σ) : final step s [] = s := rfl

@[simp] theorem final_cons (s : σ) (x : ι) (xs : List ι) :
    final step s (x :: xs) = final step (step s x).2 xs := rfl

@[simp] theorem trace_nil (s : σ) : trace step s [] = [] := rfl

@[simp] theorem trace_cons (s : σ) (x : ι) (xs : List ι) :
    trace step s (x :: xs) = (x, (step s x).1) :: trace step (step s x).2 xs := rfl

theorem final_append (s : σ) (xs ys : List ι) :
    final step s (xs ++ ys) = final step (final step s xs) ys := by
  induction xs generalizing s with
  | nil => rfl
  | cons x xs ih => simp only [List.cons_append, final_cons, ih]

theorem trace_append (s : σ) (xs ys : List ι) :
    trace step s (xs ++ ys) = trace step s xs ++ trace step (final step s xs) ys := by
  induction xs generalizing s with
  | nil => rfl
  | cons x xs ih => simp only [List.cons_append, trace_cons, final_cons, ih]

/-- One more input at the end of a run. -/
theorem final_concat (s : σ) (xs : List ι) (x : ι) :
    final step s (xs ++ [x]) = (step (final step s xs) x).2 := by
  rw [final_append]
  rfl

/-- One more input at the end of a run. -/
theorem trace_concat (s : σ) (xs : List ι) (x : ι) :
    trace step s (xs ++ [x]) = trace step s xs ++ [(x, (step (final step s xs) x).1)] := by
  rw [trace_append]
  rfl

@[simp] theorem trace_map_fst (s : σ) (xs : List ι) :
    (trace step s xs).map Prod.fst = xs := by
  induction xs generalizing s with
  | nil => rfl
  | cons x xs ih => simp only [trace_cons, List.map_cons, ih]

@[simp] theorem length_trace (s : σ) (xs : List ι) : (trace step s xs).length = xs.length := by
  conv_rhs => rw [← trace_map_fst step s xs]
  rw [List.length_map]

/-- The beginning of a trace is the trace of the beginning. -/
theorem trace_take (s : σ) (xs : List ι) (n : Nat) :
    (trace step s xs).take n = trace step s (xs.take n) := by
  induction xs generalizing s n with
  | nil => simp
  | cons x xs ih =>
      cases n with
      | zero => rfl
      | succ n => rw [trace_cons, List.take_succ_cons, List.take_succ_cons, trace_cons, ih]

variable {step}

/-- A predicate kept by every step holds at the end of every run. -/
theorem invariant {P : σ → Prop} (hstep : ∀ s x, P s → P (step s x).2)
    {s : σ} (hs : P s) (xs : List ι) : P (final step s xs) := by
  induction xs generalizing s with
  | nil => exact hs
  | cons x xs ih => exact ih (hstep s x hs)

/-- Two machines whose states stay related, and whose outputs are related at
    every step, have related traces and end in related states. -/
theorem simulation {step' : σ' → ι → ο' × σ'} {R : σ → σ' → Prop} {O : ο → ο' → Prop}
    (hstep : ∀ s s' x, R s s' →
      O (step s x).1 (step' s' x).1 ∧ R (step s x).2 (step' s' x).2)
    {s : σ} {s' : σ'} (hs : R s s') (xs : List ι) :
    List.Forall₂ (fun e e' => e.1 = e'.1 ∧ O e.2 e'.2) (trace step s xs) (trace step' s' xs)
      ∧ R (final step s xs) (final step' s' xs) := by
  induction xs generalizing s s' with
  | nil => exact ⟨.nil, hs⟩
  | cons x xs ih =>
      obtain ⟨hout, hnext⟩ := hstep s s' x hs
      obtain ⟨htrace, hfinal⟩ := ih hnext
      exact ⟨.cons ⟨rfl, hout⟩ htrace, hfinal⟩

/-- A simulation with equal outputs gives equal traces. -/
theorem trace_eq_of_simulation {step' : σ' → ι → ο × σ'} {R : σ → σ' → Prop}
    (hstep : ∀ s s' x, R s s' →
      (step s x).1 = (step' s' x).1 ∧ R (step s x).2 (step' s' x).2)
    {s : σ} {s' : σ'} (hs : R s s') (xs : List ι) :
    trace step s xs = trace step' s' xs := by
  obtain ⟨htrace, -⟩ := simulation (O := Eq) hstep hs xs
  rw [← List.forall₂_eq_eq_eq]
  exact htrace.imp fun _ _ h => Prod.ext h.1 h.2

/-- A simulation relates the states that the two runs end in. -/
theorem final_of_simulation {step' : σ' → ι → ο × σ'} {R : σ → σ' → Prop}
    (hstep : ∀ s s' x, R s s' →
      (step s x).1 = (step' s' x).1 ∧ R (step s x).2 (step' s' x).2)
    {s : σ} {s' : σ'} (hs : R s s') (xs : List ι) :
    R (final step s xs) (final step' s' xs) :=
  (simulation (O := Eq) hstep hs xs).2

/-! ## Silent outputs -/

/-- Some of the entries with a silent output are deleted, the others kept in order. -/
inductive DropsSilent (silent : ο → Prop) : List (ι × ο) → List (ι × ο) → Prop
  | nil : DropsSilent silent [] []
  | keep (e : ι × ο) {es kept : List (ι × ο)} (h : DropsSilent silent es kept) :
      DropsSilent silent (e :: es) (e :: kept)
  | drop (x : ι) {o : ο} (ho : silent o) {es kept : List (ι × ο)}
      (h : DropsSilent silent es kept) : DropsSilent silent ((x, o) :: es) kept

theorem DropsSilent.sublist {silent : ο → Prop} {es kept : List (ι × ο)}
    (h : DropsSilent silent es kept) : kept.Sublist es := by
  induction h with
  | nil => exact .slnil
  | keep e _ ih => exact ih.cons_cons e
  | drop x _ _ ih => exact ih.cons (x, _)

/-- Where a silent output leaves the state alone, the inputs that got it can be
    deleted: the others keep their outputs and the run ends in the same state. -/
theorem dropsSilent_run {silent : ο → Prop} {P : σ → Prop}
    (hinv : ∀ s x, P s → P (step s x).2)
    (hsilent : ∀ s x, P s → silent (step s x).1 → (step s x).2 = s)
    {s : σ} (hs : P s) {xs : List ι} {kept : List (ι × ο)}
    (hdrop : DropsSilent silent (trace step s xs) kept) :
    trace step s (kept.map Prod.fst) = kept ∧
      final step s (kept.map Prod.fst) = final step s xs := by
  induction xs generalizing s kept with
  | nil =>
      cases hdrop
      exact ⟨rfl, rfl⟩
  | cons x xs ih =>
      rw [trace_cons] at hdrop
      cases hdrop with
      | keep _ hrest =>
          obtain ⟨htrace, hfinal⟩ := ih (hinv s x hs) hrest
          rw [List.map_cons, trace_cons, final_cons, htrace, hfinal]
          exact ⟨rfl, rfl⟩
      | drop _ ho hrest =>
          -- the deleted input left the state where it was
          have hsame := hsilent s x hs ho
          rw [final_cons]
          rw [hsame] at hrest ⊢
          exact ih hs hrest

end Mealy
