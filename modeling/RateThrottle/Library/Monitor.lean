/-
  RateThrottle.Library.Monitor

  An object whose operations hold one mutex for their whole body.

  Any number of threads call the object.  A call carries its argument from the
  moment it is made, waits for the mutex, executes its body in small steps
  while other threads keep moving, and gives the mutex back with its result.
  `run` executes an arbitrary schedule of such events.

  `log_eq_trace` is the atomicity of the pattern: if the body run alone is one
  step of a sequential machine, then under every schedule the finished calls,
  in the order in which they released the mutex, are a trace of that machine.
-/

import Mathlib.Data.List.Induction
import Mathlib.Logic.Function.Basic
import RateThrottle.Library.Mealy

namespace Monitor

open Mealy

variable {T σ ι ο φ : Type*}

/-- The body of an operation: the frame it starts in, and one small step from a
    frame, to the next frame or to the result. -/
structure Body (σ ι ο φ : Type*) where
  enter : ι → φ
  step : φ → σ → (φ ⊕ ο) × σ

/-- Where a thread is. -/
inductive Pc (ι φ : Type*) where
  | outside
  | waiting (x : ι)
  | inside (x : ι) (frame : φ)

/-- The object, its mutex, the threads, and the finished calls with their
    results, oldest first. -/
structure State (T σ ι ο φ : Type*) where
  shared : σ
  owner : Option T
  pc : T → Pc ι φ
  log : List (ι × ο)

/-- What a schedule is made of. -/
inductive Event (T ι : Type*) where
  | call (t : T) (x : ι)
  | advance (t : T)

variable [DecidableEq T]

/-- A thread outside the object makes a call. -/
def State.call (s : State T σ ι ο φ) (t : T) (x : ι) : State T σ ι ο φ :=
  match s.pc t with
  | .outside => { s with pc := Function.update s.pc t (.waiting x) }
  | .waiting _ | .inside _ _ => s

/-- A thread moves: it takes the mutex if it is free, or does its next small step. -/
def State.advance (body : Body σ ι ο φ) (s : State T σ ι ο φ) (t : T) : State T σ ι ο φ :=
  match s.pc t with
  | .outside => s
  | .waiting x =>
      match s.owner with
      | none => { s with
          owner := some t, pc := Function.update s.pc t (.inside x (body.enter x)) }
      | some _ => s
  | .inside x frame =>
      match body.step frame s.shared with
      | (.inl frame', shared) => { s with
          shared := shared, pc := Function.update s.pc t (.inside x frame') }
      | (.inr o, shared) =>
          { shared := shared, owner := none, pc := Function.update s.pc t .outside,
            log := s.log ++ [(x, o)] }

/-- One event. -/
def exec (body : Body σ ι ο φ) (s : State T σ ι ο φ) : Event T ι → State T σ ι ο φ
  | .call t x => s.call t x
  | .advance t => s.advance body t

/-- Nobody inside, nothing finished. -/
def State.start (shared : σ) : State T σ ι ο φ := ⟨shared, none, fun _ => .outside, []⟩

/-- A whole schedule. -/
def run (body : Body σ ι ο φ) (shared : σ) (events : List (Event T ι)) : State T σ ι ο φ :=
  events.foldl (exec body) (.start shared)

/-! ## The body run alone -/

/-- The frames that a call of `x` on `s₀` passes through, with the state it has
    made of `s₀` so far. -/
inductive Reaches (body : Body σ ι ο φ) (s₀ : σ) (x : ι) : φ → σ → Prop
  | enter : Reaches body s₀ x (body.enter x) s₀
  | step {f f' : φ} {s s' : σ} (h : Reaches body s₀ x f s)
      (hstep : body.step f s = (.inl f', s')) : Reaches body s₀ x f' s'

/-- Run alone, the body is one step of `machine`. -/
def Implements (body : Body σ ι ο φ) (machine : σ → ι → ο × σ) : Prop :=
  ∀ s₀ x f s o s', Reaches body s₀ x f s → body.step f s = (.inr o, s') →
    machine s₀ x = (o, s')

/-! ## Atomicity -/

/-- The log is a trace of the machine.  A free object is in the state that the
    trace ends in, an owned one on the way from there. -/
structure Inv (body : Body σ ι ο φ) (machine : σ → ι → ο × σ) (init : σ)
    (s : State T σ ι ο φ) : Prop where
  log_eq : s.log = trace machine init (s.log.map Prod.fst)
  free : s.owner = none → s.shared = final machine init (s.log.map Prod.fst)
  owner_of_inside : ∀ t x f, s.pc t = .inside x f → s.owner = some t ∧
    Reaches body (final machine init (s.log.map Prod.fst)) x f s.shared

variable {body : Body σ ι ο φ} {machine : σ → ι → ο × σ} {init : σ}

omit [DecidableEq T] in
theorem inv_start : Inv body machine init (.start init : State T σ ι ο φ) where
  log_eq := rfl
  free := fun _ => rfl
  owner_of_inside := fun _ _ _ h => nomatch h

theorem Inv.call {s : State T σ ι ο φ} (h : Inv body machine init s) (t : T) (x : ι) :
    Inv body machine init (s.call t x) := by
  unfold State.call
  split
  · refine ⟨h.log_eq, h.free, fun u y f hu => ?_⟩
    by_cases hut : u = t
    · subst hut
      simp at hu
    · exact h.owner_of_inside u y f (by simpa [Function.update_of_ne hut] using hu)
  · exact h
  · exact h

theorem Inv.advance (himpl : Implements body machine) {s : State T σ ι ο φ}
    (h : Inv body machine init s) (t : T) : Inv body machine init (s.advance body t) := by
  unfold State.advance
  split
  · exact h
  · next x hpc =>
      split
      · next hfree =>
          -- the mutex was free, so the call starts from the end of the trace
          refine ⟨h.log_eq, fun hnone => (nomatch hnone), fun u y f hu => ?_⟩
          by_cases hut : u = t
          · subst hut
            simp only [Function.update_self, Pc.inside.injEq] at hu
            obtain ⟨rfl, rfl⟩ := hu
            show _ ∧ Reaches body _ x (body.enter x) s.shared
            rw [h.free hfree]
            exact ⟨rfl, .enter⟩
          · have hin := h.owner_of_inside u y f (by simpa [Function.update_of_ne hut] using hu)
            rw [hfree] at hin
            exact nomatch hin.1
      · exact h
  · next x f hpc =>
      obtain ⟨hown, hreach⟩ := h.owner_of_inside t x f hpc
      -- nobody else is inside while `t` owns the mutex
      have hothers : ∀ u y g, u ≠ t → s.pc u ≠ .inside y g := by
        intro u y g hut hu
        have hown' := (h.owner_of_inside u y g hu).1
        rw [hown, Option.some.injEq] at hown'
        exact hut hown'.symm
      split
      · next f' shared hstep =>
          refine ⟨h.log_eq, fun hnone => ?_, fun u y g hu => ?_⟩
          · rw [show s.owner = some t from hown] at hnone
            exact nomatch hnone
          · by_cases hut : u = t
            · subst hut
              simp only [Function.update_self, Pc.inside.injEq] at hu
              obtain ⟨rfl, rfl⟩ := hu
              exact ⟨hown, hreach.step hstep⟩
            · exact absurd (by simpa [Function.update_of_ne hut] using hu) (hothers u y g hut)
      · next o shared hstep =>
          -- the call is finished: one more step of the machine
          have hmachine := himpl _ _ _ _ _ _ hreach hstep
          refine ⟨?_, fun _ => ?_, fun u y g hu => ?_⟩
          · rw [List.map_append, List.map_cons, List.map_nil, trace_concat, hmachine,
              ← h.log_eq]
          · rw [List.map_append, List.map_cons, List.map_nil, final_concat, hmachine]
          · by_cases hut : u = t
            · subst hut
              simp at hu
            · exact absurd (by simpa [Function.update_of_ne hut] using hu) (hothers u y g hut)

theorem inv_run (himpl : Implements body machine) (events : List (Event T ι)) :
    Inv body machine init (run body init events) := by
  unfold run
  induction events using List.reverseRecOn with
  | nil => exact inv_start
  | append_singleton events e ih =>
      rw [List.foldl_append]
      cases e with
      | call t x => exact ih.call t x
      | advance t => exact ih.advance himpl t

/-- **Atomicity.** Under every schedule the finished calls are a sequential
    run of the machine, in the order in which they released the mutex. -/
theorem log_eq_trace (himpl : Implements body machine) (events : List (Event T ι)) :
    (run body init events).log
      = trace machine init ((run body init events).log.map Prod.fst) :=
  (inv_run himpl events).log_eq

/-- Two threads are never inside together. -/
theorem mutual_exclusion (himpl : Implements body machine) (events : List (Event T ι))
    {t u : T} {x y : ι} {f g : φ} (ht : (run body init events).pc t = .inside x f)
    (hu : (run body init events).pc u = .inside y g) : t = u := by
  have hinv : Inv body machine init (run body init events) := inv_run himpl events
  have hown := (hinv.owner_of_inside t x f ht).1
  rw [(hinv.owner_of_inside u y g hu).1, Option.some.injEq] at hown
  exact hown.symm

end Monitor
