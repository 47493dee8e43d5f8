/-
  RateThrottle.Library.Sections

  Printing a list in sections while it is produced.

  A `Printer` looks at one element after the other and remembers the section
  that is open.  An element of another section closes the open one and opens
  its own; at the end the open section is closed (`printed`).

  The same text is described from the finished list: adjacent elements with
  equal keys form the sections, and these are laid out one after the other
  (`render`).  `printed_eq_render` says that the two agree, so a claim about the
  layout of a printed text can be read off the groups.  A section's body may be
  printed in sections again (`body_eq_printed`).
-/

import RateThrottle.Library.Adjacent
import RateThrottle.Library.Mealy

namespace Sections

open Mealy

variable {α κ σ β : Type*}

/-- Sections one after the other, with what stands between two of them. -/
def joined (layout : κ × List α → List β) (gap : κ → κ → List β) : List (κ × List α) → List β
  | [] => []
  | [g] => layout g
  | g :: g' :: groups => layout g ++ gap g.1 g'.1 ++ joined layout gap (g' :: groups)

theorem joined_congr {layout layout' : κ × List α → List β} {gap : κ → κ → List β}
    {groups : List (κ × List α)} (h : ∀ g ∈ groups, layout g = layout' g) :
    joined layout gap groups = joined layout' gap groups := by
  induction groups with
  | nil => rfl
  | cons g groups ih =>
      have hg := h g List.mem_cons_self
      have hrest := ih fun g' hg' => h g' (List.mem_cons_of_mem g hg')
      cases groups with
      | nil => exact hg
      | cons g' groups => rw [joined, joined, hg, hrest]

/-- Sections with nothing between them. -/
theorem joined_no_gap (layout : κ × List α → List β) (groups : List (κ × List α)) :
    joined layout (fun _ _ => []) groups = groups.flatMap layout := by
  induction groups with
  | nil => rfl
  | cons g groups ih =>
      cases groups with
      | nil => exact (List.append_nil _).symm
      | cons g' groups => rw [joined, ih, List.append_nil, ← List.flatMap_cons]

/-- How sections are opened, filled, closed and kept apart. -/
structure Printer (α κ σ β : Type*) where
  /-- The section of an element. -/
  key : α → κ
  /-- The state inside a section that was just opened. -/
  start : σ
  opening : κ → List β
  item : κ → σ → α → List β × σ
  closing : κ → List β
  /-- What stands between two sections. -/
  gap : κ → κ → List β

namespace Printer

variable (p : Printer α κ σ β)

/-- One element, in the section that is open, if any. -/
def step [DecidableEq κ] : Option (κ × σ) → α → List β × Option (κ × σ)
  | none, x =>
      (p.opening (p.key x) ++ (p.item (p.key x) p.start x).1,
        some (p.key x, (p.item (p.key x) p.start x).2))
  | some (k, s), x =>
      if k = p.key x then ((p.item k s x).1, some (k, (p.item k s x).2))
      else
        (p.closing k ++ p.gap k (p.key x) ++ p.opening (p.key x)
            ++ (p.item (p.key x) p.start x).1,
          some (p.key x, (p.item (p.key x) p.start x).2))

/-- The end of the list. -/
def stop : Option (κ × σ) → List β
  | none => []
  | some (k, _) => p.closing k

/-- What has been printed after some elements, before the end. -/
def output [DecidableEq κ] (xs : List α) : List β := (trace p.step none xs).flatMap Prod.snd

/-- What is printed for a whole list. -/
def printed [DecidableEq κ] (xs : List α) : List β :=
  p.output xs ++ p.stop (final p.step none xs)

-- ============================================================================
-- The layout of finished sections
-- ============================================================================

/-- The inside of a section. -/
def body (k : κ) (members : List α) : List β :=
  (trace (p.item k) p.start members).flatMap Prod.snd

/-- A whole section. -/
def layout (g : κ × List α) : List β := p.opening g.1 ++ p.body g.1 g.2 ++ p.closing g.1

/-- All sections. -/
def render (groups : List (κ × List α)) : List β := joined p.layout p.gap groups

/-- The sections one after the other, the last one still open. -/
def unclosed : List (κ × List α) → List β
  | [] => []
  | [g] => p.opening g.1 ++ p.body g.1 g.2
  | g :: g' :: groups => p.layout g ++ p.gap g.1 g'.1 ++ unclosed (g' :: groups)

theorem body_concat (k : κ) (members : List α) (x : α) :
    p.body k (members ++ [x])
      = p.body k members ++ (p.item k (final (p.item k) p.start members) x).1 := by
  rw [body, trace_concat, List.flatMap_append, List.flatMap_singleton]
  rfl

@[simp] theorem body_singleton (k : κ) (x : α) : p.body k [x] = (p.item k p.start x).1 := by
  simp [body]

/-- Closing the last section finishes the layout. -/
theorem render_concat (groups : List (κ × List α)) (g : κ × List α) :
    p.render (groups ++ [g]) = p.unclosed (groups ++ [g]) ++ p.closing g.1 := by
  induction groups with
  | nil => rfl
  | cons g₁ groups ih =>
      cases groups with
      | nil => simp [render, joined, unclosed, layout]
      | cons g₂ groups =>
          simp only [List.cons_append, render, joined, unclosed] at ih ⊢
          rw [ih]
          simp only [List.append_assoc]

/-- A new section after the open one. -/
theorem unclosed_concat_concat (groups : List (κ × List α)) (g g' : κ × List α) :
    p.unclosed (groups ++ [g] ++ [g'])
      = p.unclosed (groups ++ [g]) ++ p.closing g.1 ++ p.gap g.1 g'.1 ++ p.opening g'.1
          ++ p.body g'.1 g'.2 := by
  induction groups with
  | nil => simp [unclosed, layout]
  | cons g₁ groups ih =>
      cases groups with
      | nil =>
          simp only [List.cons_append, List.nil_append, unclosed, layout, List.append_assoc]
      | cons g₂ groups =>
          simp only [List.cons_append, unclosed] at ih ⊢
          rw [ih]
          simp only [List.append_assoc]

/-- One more element in the open section. -/
theorem unclosed_grow (groups : List (κ × List α)) (k : κ) (members : List α) (x : α) :
    p.unclosed (groups ++ [(k, members ++ [x])])
      = p.unclosed (groups ++ [(k, members)])
        ++ (p.item k (final (p.item k) p.start members) x).1 := by
  induction groups with
  | nil => simp [unclosed, body_concat]
  | cons g₁ groups ih =>
      cases groups with
      | nil => simp [unclosed, body_concat]
      | cons g₂ groups =>
          simp only [List.cons_append, unclosed] at ih ⊢
          rw [ih]
          simp only [List.append_assoc]

-- ============================================================================
-- The two descriptions agree
-- ============================================================================

variable [DecidableEq κ]

/-- The section that is open after the given sections, and the state inside it. -/
def openAfter (groups : List (κ × List α)) : Option (κ × σ) :=
  groups.getLast?.map fun g => (g.1, final (p.item g.1) p.start g.2)

omit [DecidableEq κ] in
theorem openAfter_concat (groups : List (κ × List α)) (g : κ × List α) :
    p.openAfter (groups ++ [g]) = some (g.1, final (p.item g.1) p.start g.2) := by
  rw [openAfter, List.getLast?_concat]
  rfl

theorem output_concat (xs : List α) (x : α) :
    p.output (xs ++ [x]) = p.output xs ++ (p.step (final p.step none xs) x).1 := by
  rw [output, trace_concat, List.flatMap_append, List.flatMap_singleton]
  rfl

/-- After every beginning of the list, its sections have been printed and the
    last of them is open. -/
theorem output_eq_unclosed (xs : List α) :
    p.output xs = p.unclosed (Adjacent.group p.key xs) ∧
      final p.step none xs = p.openAfter (Adjacent.group p.key xs) := by
  induction xs using List.reverseRecOn with
  | nil => exact ⟨rfl, rfl⟩
  | append_singleton xs x ih =>
      obtain ⟨hout, hopen⟩ := ih
      rw [output_concat, final_concat, Adjacent.group_concat, hout, hopen]
      rcases Adjacent.push_cases p.key (Adjacent.group p.key xs) x with
        ⟨init, members, hgroups, hpush⟩ | ⟨hlast, hpush⟩
      · rw [hpush, hgroups, openAfter_concat, openAfter_concat, unclosed_grow, final_concat]
        simp only [step, if_true, and_self]
      · rw [hpush, openAfter_concat]
        rcases List.eq_nil_or_concat' (Adjacent.group p.key xs) with hnil | ⟨init, g, hgroups⟩
        · rw [hnil]
          exact ⟨by simp [step, unclosed, openAfter], rfl⟩
        · have hne : g.1 ≠ p.key x := by simpa [hgroups] using hlast
          rw [hgroups, openAfter_concat, unclosed_concat_concat]
          simp only [step, if_neg hne, body_singleton, List.append_assoc, true_and]
          rfl

/-- **Printing as it comes is laying out the groups.** -/
theorem printed_eq_render (xs : List α) :
    p.printed xs = p.render (Adjacent.group p.key xs) := by
  obtain ⟨hout, hopen⟩ := p.output_eq_unclosed xs
  rw [printed, hout, hopen]
  rcases List.eq_nil_or_concat' (Adjacent.group p.key xs) with hnil | ⟨init, g, hgroups⟩
  · rw [hnil]
    rfl
  · rw [hgroups, openAfter_concat, render_concat]
    rfl

omit [DecidableEq κ] in
/-- A body is printed in sections when its items are the steps of a printer
    that opens and closes nothing at its ends. -/
theorem body_eq_printed {κ' σ' : Type*} [DecidableEq κ'] (q : Printer α κ' σ' β) {k : κ}
    {R : σ → Option (κ' × σ') → Prop} (hstart : R p.start none)
    (hstep : ∀ s s' x, R s s' →
      (p.item k s x).1 = (q.step s' x).1 ∧ R (p.item k s x).2 (q.step s' x).2)
    (hstop : ∀ s', q.stop s' = []) (members : List α) :
    p.body k members = q.printed members := by
  rw [body, printed, hstop, List.append_nil, output,
    trace_eq_of_simulation (R := R) hstep hstart members]

end Printer

-- ============================================================================
-- Separators
-- ============================================================================

section Separators

variable {γ : Type*} [DecidableEq γ] (name : α → List γ) (separator : β) (item : α → β)

/-- The items of a section with a separator between two names, unless the first
    of them is empty. -/
def separated (members : List α) : List β :=
  joined (fun g => g.2.map item) (fun k _ => if k = [] then [] else [separator])
    (Adjacent.group name members)

/-- The groups of `separated` as they are printed. -/
def namePrinter : Printer α (List γ) Unit β where
  key := name
  start := ()
  opening _ := []
  item _ _ x := ([item x], ())
  closing _ := []
  gap k _ := if k = [] then [] else [separator]

theorem namePrinter_printed (members : List α) :
    (namePrinter name separator item).printed members = separated name separator item members := by
  rw [Printer.printed_eq_render, Printer.render, separated]
  refine joined_congr fun g _ => ?_
  have hbody : ∀ xs : List α, (namePrinter name separator item).body g.1 xs = xs.map item := by
    intro xs
    induction xs with
    | nil => rfl
    | cons x xs ih => exact congrArg _ ih
  exact (List.append_nil _).trans (hbody g.2)

/-- Sections that remember the last name, empty at first, print `separated`. -/
theorem Printer.body_eq_separated {p : Printer α κ (List γ) β} {k : κ} (hstart : p.start = [])
    (hitem : ∀ last x, p.item k last x
      = ((if last ≠ [] ∧ last ≠ name x then [separator] else []) ++ [item x], name x))
    (members : List α) : p.body k members = separated name separator item members := by
  rw [← namePrinter_printed]
  refine p.body_eq_printed (namePrinter name separator item)
    (R := fun last group => last = (group.map Prod.fst).getD []) hstart ?_ ?_ members
  · rintro last group x rfl
    cases group with
    | none => simp [hitem, namePrinter, Printer.step]
    | some opened =>
        obtain ⟨last, _⟩ := opened
        by_cases hlast : last = name x
        · subst hlast
          simp [hitem, namePrinter, Printer.step]
        · have hstep : (namePrinter name separator item).step (some (last, ())) x
              = ((if last = [] then [] else [separator]) ++ [item x], some (name x, ())) := by
            rw [Printer.step, if_neg (show last ≠ (namePrinter name separator item).key x from hlast)]
            simp [namePrinter]
          rw [hstep, hitem]
          by_cases hempty : last = []
          · simp [hempty]
          · simp [hlast, hempty]
  · rintro (_ | _) <;> rfl

end Separators

end Sections
