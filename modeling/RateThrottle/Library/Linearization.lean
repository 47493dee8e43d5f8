/-
  RateThrottle.Library.Linearization

  Linearizability and deadlock freedom of a monitor.

  `record` replays a schedule of `Monitor.run` and notes, for every finished
  call, the events at which it was made and at which it returned.  The notes
  change nothing (`record_state`), so what is proved about them is about the
  schedule itself.

  `linearizable_record`: the finished calls have an order that is a run of the
  sequential machine and in which a call that returned before another was made
  comes first.  `can_return`: from every reachable state every pending call can
  still return, if the body run alone always comes to an end.
-/

import RateThrottle.Library.Monitor

namespace Monitor

open Mealy

variable {T σ ι ο φ : Type*}

-- ============================================================================
-- Linearizability
-- ============================================================================

/-- A finished call, with the numbers of the events that made and ended it. -/
structure Operation (T ι ο : Type*) where
  thread : T
  input : ι
  output : ο
  invoked : Nat
  returned : Nat

/-- What a sequential run shows of a call. -/
def Operation.entry (op : Operation T ι ο) : ι × ο := (op.input, op.output)

/-- `order` lists the calls of `history` as a sequential run that respects real
    time: no call comes after one that was made only after its return. -/
structure Linearization (machine : σ → ι → ο × σ) (init : σ)
    (history order : List (Operation T ι ο)) : Prop where
  perm : order.Perm history
  legal : order.map Operation.entry = trace machine init (order.map Operation.input)
  realTime : order.Pairwise fun a b => ¬ b.returned < a.invoked

/-- Some order of the finished calls explains all their results. -/
def Linearizable (machine : σ → ι → ο × σ) (init : σ) (history : List (Operation T ι ο)) : Prop :=
  ∃ order, Linearization machine init history order

/-- A thread makes its next call after its last one returned. -/
def SessionOrdered (history : List (Operation T ι ο)) : Prop :=
  history.Pairwise fun a b => a.thread = b.thread → a.returned < b.invoked

-- ============================================================================
-- Recording a schedule
-- ============================================================================

/-- A state with the number of events so far, the event at which each thread
    made its pending call, and the finished calls in the order of their returns. -/
structure Recorded (T σ ι ο φ : Type*) where
  state : State T σ ι ο φ
  clock : Nat
  since : T → Nat
  finished : List (Operation T ι ο)

/-- The call that ends if `t` moves now, with its result. -/
def State.ending (body : Body σ ι ο φ) (s : State T σ ι ο φ) (t : T) : Option (ι × ο) :=
  match s.pc t with
  | .inside x frame =>
      match (body.step frame s.shared).1 with
      | .inl _ => none
      | .inr o => some (x, o)
  | .outside | .waiting _ => none

variable [DecidableEq T]

/-- One event, recorded. -/
def Recorded.exec (body : Body σ ι ο φ) (r : Recorded T σ ι ο φ) :
    Event T ι → Recorded T σ ι ο φ
  | .call t x =>
      { state := r.state.call t x
        clock := r.clock + 1
        since := match r.state.pc t with
          | .outside => Function.update r.since t r.clock
          | .waiting _ | .inside _ _ => r.since
        finished := r.finished }
  | .advance t =>
      { state := r.state.advance body t
        clock := r.clock + 1
        since := r.since
        finished := r.finished ++ (r.state.ending body t).toList.map fun e =>
          ⟨t, e.1, e.2, r.since t, r.clock⟩ }

/-- A whole schedule, recorded. -/
def record (body : Body σ ι ο φ) (shared : σ) (events : List (Event T ι)) : Recorded T σ ι ο φ :=
  events.foldl (Recorded.exec body) ⟨.start shared, 0, fun _ => 0, []⟩

theorem record_concat (body : Body σ ι ο φ) (shared : σ) (events : List (Event T ι))
    (e : Event T ι) :
    record body shared (events ++ [e]) = (record body shared events).exec body e := by
  rw [record, List.foldl_append]
  rfl

theorem run_concat (body : Body σ ι ο φ) (shared : σ) (events : List (Event T ι))
    (e : Event T ι) : run body shared (events ++ [e]) = exec body (run body shared events) e := by
  rw [run, List.foldl_append]
  rfl

/-- Recording does not change the run. -/
theorem record_state (body : Body σ ι ο φ) (shared : σ) (events : List (Event T ι)) :
    (record body shared events).state = run body shared events := by
  induction events using List.reverseRecOn with
  | nil => rfl
  | append_singleton events e ih =>
      rw [record_concat, run_concat, ← ih]
      cases e <;> rfl

/-- What a move does: nothing, it takes the free mutex, makes a small step, or
    returns. -/
theorem advance_cases (body : Body σ ι ο φ) (s : State T σ ι ο φ) (t : T) :
    (s.advance body t = s ∧ s.ending body t = none) ∨
    (∃ x, s.pc t = .waiting x ∧ s.owner = none ∧ s.ending body t = none ∧
      s.advance body t = { s with
        owner := some t, pc := Function.update s.pc t (.inside x (body.enter x)) }) ∨
    (∃ x f f' shared, s.pc t = .inside x f ∧ body.step f s.shared = (.inl f', shared) ∧
      s.ending body t = none ∧
      s.advance body t = { s with
        shared := shared, pc := Function.update s.pc t (.inside x f') }) ∨
    (∃ x f o shared, s.pc t = .inside x f ∧ body.step f s.shared = (.inr o, shared) ∧
      s.ending body t = some (x, o) ∧
      s.advance body t = { s with
        shared := shared, owner := none, pc := Function.update s.pc t .outside,
        log := s.log ++ [(x, o)] }) := by
  cases hpc : s.pc t with
  | outside =>
      left
      simp [State.advance, State.ending, hpc]
  | waiting x =>
      cases howner : s.owner with
      | none =>
          right; left
          exact ⟨x, rfl, rfl, by simp [State.ending, hpc], by simp [State.advance, hpc, howner]⟩
      | some u =>
          left
          simp [State.advance, State.ending, hpc, howner]
  | inside x f =>
      cases hstep : body.step f s.shared with
      | mk next shared =>
          cases next with
          | inl f' =>
              right; right; left
              exact ⟨x, f, f', shared, rfl, hstep, by simp [State.ending, hpc, hstep],
                by simp [State.advance, hpc, hstep]⟩
          | inr o =>
              right; right; right
              exact ⟨x, f, o, shared, rfl, hstep, by simp [State.ending, hpc, hstep],
                by simp [State.advance, hpc, hstep]⟩

/-- The notes of a schedule: they list the log, their numbers lie in the past
    and grow, and a pending call is younger than the last return of its thread. -/
structure Recorded.Consistent (r : Recorded T σ ι ο φ) : Prop where
  log_eq : r.state.log = r.finished.map Operation.entry
  past : ∀ op ∈ r.finished, op.invoked < op.returned ∧ op.returned < r.clock
  increasing : r.finished.Pairwise fun a b => a.returned < b.returned
  session : SessionOrdered r.finished
  pending : ∀ t, r.state.pc t ≠ .outside → r.since t < r.clock ∧
    ∀ op ∈ r.finished, op.thread = t → op.returned < r.since t

omit [DecidableEq T] in
theorem consistent_start (shared : σ) :
    (⟨.start shared, 0, fun _ => 0, []⟩ : Recorded T σ ι ο φ).Consistent where
  log_eq := rfl
  past := by simp
  increasing := .nil
  session := .nil
  pending := fun _ h => absurd rfl h

omit [DecidableEq T] in
/-- An event that ends no call and lets threads outside stay there. -/
theorem Recorded.Consistent.silent {r : Recorded T σ ι ο φ} (h : r.Consistent)
    {s : State T σ ι ο φ} (hlog : s.log = r.state.log)
    (hpc : ∀ t, s.pc t ≠ .outside → r.state.pc t ≠ .outside) :
    (⟨s, r.clock + 1, r.since, r.finished⟩ : Recorded T σ ι ο φ).Consistent where
  log_eq := hlog.trans h.log_eq
  past := fun op hop => ⟨(h.past op hop).1, Nat.lt_succ_of_lt (h.past op hop).2⟩
  increasing := h.increasing
  session := h.session
  pending := fun t ht => ⟨Nat.lt_succ_of_lt (h.pending t (hpc t ht)).1, (h.pending t (hpc t ht)).2⟩

theorem Recorded.Consistent.call {r : Recorded T σ ι ο φ} (h : r.Consistent)
    (body : Body σ ι ο φ) (t : T) (x : ι) : (r.exec body (.call t x)).Consistent := by
  simp only [Recorded.exec, State.call]
  cases hpc : r.state.pc t with
  | outside =>
      refine ⟨h.log_eq, fun op hop => ?_, h.increasing, h.session, fun u hu => ?_⟩
      · exact ⟨(h.past op hop).1, Nat.lt_succ_of_lt (h.past op hop).2⟩
      · by_cases hut : u = t
        · subst hut
          simp only [Function.update_self]
          exact ⟨Nat.lt_succ_self _, fun op hop _ => (h.past op hop).2⟩
        · have hpending := h.pending u (by simpa [Function.update_of_ne hut] using hu)
          simp only [Function.update_of_ne hut]
          exact ⟨Nat.lt_succ_of_lt hpending.1, hpending.2⟩
  | waiting y => exact h.silent rfl fun _ hu => hu
  | inside y f => exact h.silent rfl fun _ hu => hu

theorem Recorded.Consistent.advance {r : Recorded T σ ι ο φ} (h : r.Consistent)
    (body : Body σ ι ο φ) (t : T) : (r.exec body (.advance t)).Consistent := by
  simp only [Recorded.exec]
  obtain ⟨hs, he⟩ | ⟨x, hpc, -, he, hs⟩ | ⟨x, f, f', shared, hpc, -, he, hs⟩ |
    ⟨x, f, o, shared, hpc, -, he, hs⟩ := advance_cases body r.state t
  · rw [hs, he, Option.toList_none, List.map_nil, List.append_nil]
    exact h.silent rfl fun _ hu => hu
  · rw [hs, he, Option.toList_none, List.map_nil, List.append_nil]
    refine h.silent rfl fun u hu => ?_
    by_cases hut : u = t
    · simp [hut, hpc]
    · simpa [Function.update_of_ne hut] using hu
  · rw [hs, he, Option.toList_none, List.map_nil, List.append_nil]
    refine h.silent rfl fun u hu => ?_
    by_cases hut : u = t
    · simp [hut, hpc]
    · simpa [Function.update_of_ne hut] using hu
  · -- the call of `t` returns at this event
    obtain ⟨hmade, hearlier⟩ := h.pending t (by simp [hpc])
    rw [hs, he, Option.toList_some, List.map_singleton]
    refine ⟨?_, fun op hop => ?_, ?_, ?_, fun u hu => ?_⟩
    · simp [h.log_eq, Operation.entry]
    · rcases List.mem_append.mp hop with hold | hnew
      · exact ⟨(h.past op hold).1, Nat.lt_succ_of_lt (h.past op hold).2⟩
      · rw [List.mem_singleton.mp hnew]
        exact ⟨hmade, Nat.lt_succ_self _⟩
    · refine List.pairwise_append.mpr ⟨h.increasing, List.pairwise_singleton _ _, ?_⟩
      intro a ha b hb
      rw [List.mem_singleton.mp hb]
      exact (h.past a ha).2
    · refine List.pairwise_append.mpr ⟨h.session, List.pairwise_singleton _ _, ?_⟩
      intro a ha b hb hsame
      rw [List.mem_singleton.mp hb] at hsame ⊢
      exact hearlier a ha hsame
    · by_cases hut : u = t
      · subst hut
        simp at hu
      · have hpending := h.pending u (by simpa [Function.update_of_ne hut] using hu)
        refine ⟨Nat.lt_succ_of_lt hpending.1, fun op hop hthread => ?_⟩
        rcases List.mem_append.mp hop with hold | hnew
        · exact hpending.2 op hold hthread
        · rw [List.mem_singleton.mp hnew] at hthread
          exact absurd hthread.symm hut

theorem consistent_record (body : Body σ ι ο φ) (shared : σ) (events : List (Event T ι)) :
    (record body shared events).Consistent := by
  induction events using List.reverseRecOn with
  | nil => exact consistent_start shared
  | append_singleton events e ih =>
      rw [record_concat]
      cases e with
      | call t x => exact ih.call body t x
      | advance t => exact ih.advance body t

/-- **Linearizability.** Under every schedule the finished calls are explained by
    the order in which they released the mutex. -/
theorem linearizable_record {body : Body σ ι ο φ} {machine : σ → ι → ο × σ} {init : σ}
    (himpl : Implements body machine) (events : List (Event T ι)) :
    Linearizable machine init (record body init events).finished := by
  have hnotes := consistent_record body init events
  refine ⟨(record body init events).finished, .refl _, ?_, ?_⟩
  · have hlog : (run body init events).log = _ := log_eq_trace himpl events
    rw [← record_state, hnotes.log_eq, List.map_map] at hlog
    exact hlog
  · refine hnotes.increasing.imp_of_mem fun {a b} ha hb hlt => ?_
    have hb := hnotes.past a ha
    omega

-- ============================================================================
-- Deadlock freedom
-- ============================================================================

/-- The mutex is only held by a thread that is inside. -/
theorem owner_inside (body : Body σ ι ο φ) (init : σ) (events : List (Event T ι)) {t : T}
    (ht : (run body init events).owner = some t) :
    ∃ x f, (run body init events).pc t = .inside x f := by
  induction events using List.reverseRecOn generalizing t with
  | nil => exact nomatch ht
  | append_singleton events e ih =>
      rw [run_concat] at ht ⊢
      generalize run body init events = s at ih ht ⊢
      cases e with
      | call u x =>
          simp only [exec, State.call] at ht ⊢
          cases hpc : s.pc u with
          | outside =>
              simp only [hpc] at ht ⊢
              obtain ⟨y, f, hin⟩ := ih ht
              have hne : t ≠ u := by
                rintro rfl
                rw [hpc] at hin
                exact nomatch hin
              exact ⟨y, f, (Function.update_of_ne hne _ _).trans hin⟩
          | waiting _ => simpa only [hpc] using ih (by simpa only [hpc] using ht)
          | inside _ _ => simpa only [hpc] using ih (by simpa only [hpc] using ht)
      | advance u =>
          simp only [exec] at ht ⊢
          obtain ⟨hs, -⟩ | ⟨x, hpc, -, -, hs⟩ | ⟨x, f, f', shared, hpc, -, -, hs⟩ |
            ⟨x, f, o, shared, hpc, -, -, hs⟩ := advance_cases body s u <;> rw [hs] at ht ⊢
          · exact ih ht
          · obtain rfl := Option.some.inj ht
            exact ⟨x, body.enter x, Function.update_self _ _ _⟩
          · by_cases htu : t = u
            · subst htu
              exact ⟨x, f', Function.update_self _ _ _⟩
            · obtain ⟨y, g, hin⟩ := ih ht
              exact ⟨y, g, (Function.update_of_ne htu _ _).trans hin⟩
          · exact nomatch ht

/-- The body run alone ends: every small step lowers the rank of the frame. -/
def Ends (body : Body σ ι ο φ) (rank : φ → Nat) : Prop :=
  ∀ f s f' s', body.step f s = (.inl f', s') → rank f' < rank f

/-- A thread inside that keeps moving returns, touching nobody else. -/
theorem return_of_inside {body : Body σ ι ο φ} {rank : φ → Nat} (hends : Ends body rank) {t : T}
    {x : ι} {f : φ} {s : State T σ ι ο φ} (hin : s.pc t = .inside x f) :
    ∃ n o s', (List.replicate (n + 1) (.advance t)).foldl (exec body) s = s' ∧ n ≤ rank f ∧
      s'.owner = none ∧ s'.pc = Function.update s.pc t .outside ∧ s'.log = s.log ++ [(x, o)] := by
  generalize hr : rank f = r
  induction r using Nat.strongRecOn generalizing f s with
  | _ r ih =>
      obtain ⟨hs, he⟩ | ⟨y, hpc, -⟩ | ⟨y, g, g', shared, hpc, hstep, -, hs⟩ |
        ⟨y, g, o, shared, hpc, -, -, hs⟩ := advance_cases body s t
      · -- inside, a move never does nothing
        cases hstep : body.step f s.shared with
        | mk next shared =>
            cases next with
            | inl g =>
                have hpc := congrFun (congrArg State.pc hs) t
                simp only [State.advance, hin, hstep, Function.update_self, Pc.inside.injEq,
                  true_and] at hpc
                have hlt := hends f s.shared g shared hstep
                rw [hpc] at hlt
                exact absurd hlt (Nat.lt_irrefl _)
            | inr o => simp [State.ending, hin, hstep] at he
      · rw [hin] at hpc
        exact nomatch hpc
      · rw [hin, Pc.inside.injEq] at hpc
        obtain ⟨rfl, rfl⟩ := hpc
        have hlt := hends f s.shared g' shared hstep
        obtain ⟨n, o, s', hrun, hn, howner, hpc', hlog⟩ := ih (rank g') (hr ▸ hlt) (f := g')
          (s := s.advance body t) (by rw [hs]; exact Function.update_self _ _ _) rfl
        refine ⟨n + 1, o, s', ?_, by omega, howner, ?_, ?_⟩
        · rw [List.replicate_succ, List.foldl_cons]
          exact hrun
        · rw [hpc', hs]
          exact Function.update_idem _ _ _
        · rw [hlog, hs]
      · rw [hin, Pc.inside.injEq] at hpc
        obtain ⟨rfl, rfl⟩ := hpc
        refine ⟨0, o, s.advance body t, rfl, Nat.zero_le _, ?_⟩
        rw [hs]
        exact ⟨rfl, rfl, rfl⟩

/-- A waiting thread that finds the mutex free takes it and returns. -/
theorem return_of_free {body : Body σ ι ο φ} {rank : φ → Nat} (hends : Ends body rank) {t : T}
    {x : ι} {s : State T σ ι ο φ} (hwait : s.pc t = .waiting x) (hfree : s.owner = none) :
    ∃ n o s', (List.replicate (n + 2) (.advance t)).foldl (exec body) s = s' ∧
      n ≤ rank (body.enter x) ∧ s'.pc t = .outside ∧ s'.log = s.log ++ [(x, o)] := by
  have hlock : s.advance body t = { s with
      owner := some t, pc := Function.update s.pc t (.inside x (body.enter x)) } := by
    simp [State.advance, hwait, hfree]
  have hin : (s.advance body t).pc t = .inside x (body.enter x) := by
    rw [hlock]
    exact Function.update_self _ _ _
  obtain ⟨n, o, s', hrun, hn, -, hpc, hlog⟩ := return_of_inside hends hin
  refine ⟨n, o, s', ?_, hn, by rw [hpc, Function.update_self], by rw [hlog, hlock]⟩
  rw [List.replicate_succ, List.foldl_cons]
  exact hrun

/-- **Deadlock freedom.** From every reachable state every pending call can
    still return, within as many moves as two bodies and one lock take. -/
theorem can_return {body : Body σ ι ο φ} {rank : φ → Nat} (hends : Ends body rank) {B : Nat}
    (hB : ∀ f, rank f < B) (init : σ) (events : List (Event T ι)) {t : T} {x : ι}
    (hpending : (run body init events).pc t = .waiting x ∨
      ∃ f, (run body init events).pc t = .inside x f) :
    ∃ more : List (Event T ι), more.length ≤ 2 * B + 1 ∧ (∀ e ∈ more, ∃ u, e = .advance u) ∧
      (run body init (events ++ more)).pc t = .outside ∧
      ∃ earlier o, (run body init (events ++ more)).log
        = (run body init events).log ++ earlier ++ [(x, o)] := by
  have hmoves : ∀ {n : Nat} {u : T}, ∀ e ∈ List.replicate n (Event.advance u : Event T ι),
      ∃ u, e = .advance u := fun e he => ⟨_, List.eq_of_mem_replicate he⟩
  have hsplit : ∀ more, run body init (events ++ more)
      = more.foldl (exec body) (run body init events) := fun more => List.foldl_append
  have howner : ∀ {u}, (run body init events).owner = some u →
      ∃ y g, (run body init events).pc u = .inside y g := owner_inside body init events
  simp only [hsplit]
  generalize run body init events = s at hpending howner
  rcases hpending with hwait | ⟨f, hin⟩
  · have henter := hB (body.enter x)
    cases hs : s.owner with
    | none =>
        obtain ⟨n, o, s', hrun, hn, hpc, hlog⟩ := return_of_free hends hwait hs
        refine ⟨List.replicate (n + 2) (.advance t), ?_, hmoves, ?_⟩
        · rw [List.length_replicate]
          omega
        · rw [hrun]
          exact ⟨hpc, [], o, by rw [hlog, List.append_nil]⟩
    | some u =>
        -- first the holder of the mutex returns
        obtain ⟨y, g, hin⟩ := howner hs
        obtain ⟨m, o', s₁, hrun₁, hm, hfree₁, hpc₁, hlog₁⟩ := return_of_inside hends hin
        have hne : t ≠ u := by
          rintro rfl
          rw [hwait] at hin
          exact nomatch hin
        have hwait₁ : s₁.pc t = .waiting x := by rw [hpc₁, Function.update_of_ne hne, hwait]
        obtain ⟨n, o, s', hrun, hn, hpc, hlog⟩ := return_of_free hends hwait₁ hfree₁
        have hg := hB g
        refine ⟨List.replicate (m + 1) (.advance u) ++ List.replicate (n + 2) (.advance t), ?_,
          fun e he => ?_, ?_⟩
        · rw [List.length_append, List.length_replicate, List.length_replicate]
          omega
        · rcases List.mem_append.mp he with he | he
          · exact hmoves e he
          · exact hmoves e he
        · rw [List.foldl_append, hrun₁, hrun]
          exact ⟨hpc, [(y, o')], o, by rw [hlog, hlog₁]⟩
  · have hf := hB f
    obtain ⟨n, o, s', hrun, hn, -, hpc, hlog⟩ := return_of_inside hends hin
    refine ⟨List.replicate (n + 1) (.advance t), ?_, hmoves, ?_⟩
    · rw [List.length_replicate]
      omega
    · rw [hrun]
      exact ⟨by rw [hpc, Function.update_self], [], o, by rw [hlog, List.append_nil]⟩

end Monitor
