/-
  RateThrottle.Library.Pattern

  Patterns that are sequences of literals and repeated character classes,
  matched the way a backtracking regular-expression engine does: every
  repetition takes as much as it can and gives back one character at a time.

  `matchPrefix` returns the text of every atom, so that a capture is an index
  into it; `search` finds the leftmost match, `subn` rewrites all matches from
  left to right.

  Nothing above this file unfolds the engine.  Which texts can match at all is
  `matchPrefix_sound`; where each repetition is followed by a character outside
  its class no backtracking takes place (`greedy_run`); a search is described by
  the split it returns (`search_eq_some_iff`), and a rewritten text by the
  relation `Rewrites` (`rewrites_of_subn`).
-/

import Mathlib.Data.List.Basic

namespace Pattern

variable {α β : Type*}

/-- One element of a pattern. -/
inductive Atom (α : Type*) where
  | lit (text : List α)
  | star (p : α → Bool)
  | plus (p : α → Bool)

/-- The texts an atom stands for. -/
def Atom.Accepts : Atom α → List α → Prop
  | .lit text, piece => piece = text
  | .star p, piece => ∀ c ∈ piece, p c = true
  | .plus p, piece => piece ≠ [] ∧ ∀ c ∈ piece, p c = true

/-- The longest run of the class after which `next` succeeds. -/
def greedy (p : α → Bool) (next : List α → Option β) : List α → Option (List α × β)
  | [] => (next []).map fun b => ([], b)
  | c :: text =>
      match if p c then greedy p next text else none with
      | some (run, b) => some (c :: run, b)
      | none => (next (c :: text)).map fun b => ([], b)

/-! ## Repetitions -/

theorem greedy_sound {p : α → Bool} {next : List α → Option β} {text run : List α} {b : β}
    (h : greedy p next text = some (run, b)) :
    ∃ rest, text = run ++ rest ∧ (∀ c ∈ run, p c = true) ∧ next rest = some b := by
  induction text generalizing run with
  | nil =>
      obtain ⟨b', hb, heq⟩ := Option.map_eq_some_iff.mp h
      obtain ⟨rfl, rfl⟩ := Prod.mk.inj heq
      exact ⟨[], rfl, by simp, hb⟩
  | cons c text ih =>
      rw [greedy] at h
      split at h
      · next run' b' hrun =>
          split at hrun
          · next hc =>
              obtain ⟨rfl, rfl⟩ := Prod.mk.inj (Option.some.inj h)
              obtain ⟨rest, rfl, hall, hnext⟩ := ih hrun
              exact ⟨rest, rfl, by simpa [hc] using hall, hnext⟩
          · cases hrun
      · obtain ⟨b', hb, heq⟩ := Option.map_eq_some_iff.mp h
        obtain ⟨rfl, rfl⟩ := Prod.mk.inj heq
        exact ⟨c :: text, rfl, by simp, hb⟩

/-- The text does not go on with a character of the class. -/
def Stops (p : α → Bool) (text : List α) : Prop := ∀ c ∈ text.head?, p c = false

theorem stops_cons {p : α → Bool} {c : α} (hc : p c = false) (text : List α) :
    Stops p (c :: text) := by
  intro d hd
  rw [List.head?_cons, Option.mem_def, Option.some_inj] at hd
  rwa [← hd]

/-- A run that stops where `next` succeeds is taken whole. -/
theorem greedy_run {p : α → Bool} {next : List α → Option β} {run rest : List α} {b : β}
    (hrun : ∀ c ∈ run, p c = true) (hstop : Stops p rest) (hnext : next rest = some b) :
    greedy p next (run ++ rest) = some (run, b) := by
  induction run with
  | nil =>
      rw [List.nil_append]
      cases rest with
      | nil => rw [greedy, hnext, Option.map_some]
      | cons c rest =>
          have hc := hstop c rfl
          simp [greedy, hc, hnext]
  | cons c run ih =>
      have hc := hrun c (List.mem_cons_self ..)
      rw [List.cons_append, greedy, if_pos hc,
        ih fun d hd => hrun d (List.mem_cons_of_mem c hd)]

/-! ## The engine -/

variable [DecidableEq α]

/-- The first match in the engine's order: the text of every atom, and the text left. -/
def matchPrefix : List (Atom α) → List α → Option (List (List α) × List α)
  | [], text => some ([], text)
  | .lit s :: atoms, text =>
      match text.dropPrefix? s with
      | none => none
      | some rest => (matchPrefix atoms rest).map fun (pieces, rest) => (s :: pieces, rest)
  | .star p :: atoms, text =>
      (greedy p (matchPrefix atoms) text).map fun (run, pieces, rest) => (run :: pieces, rest)
  | .plus _ :: _, [] => none
  | .plus p :: atoms, c :: text =>
      if p c then
        (greedy p (matchPrefix atoms) text).map fun (run, pieces, rest) =>
          ((c :: run) :: pieces, rest)
      else none

/-- `re.search`: the text before the leftmost match, its pieces, the text after it. -/
def search (atoms : List (Atom α)) : List α → Option (List α × List (List α) × List α)
  | [] => (matchPrefix atoms []).map fun (pieces, rest) => ([], pieces, rest)
  | c :: text =>
      match matchPrefix atoms (c :: text) with
      | some (pieces, rest) => some ([], pieces, rest)
      | none => (search atoms text).map fun (before, found) => (c :: before, found)

/-- `re.subn` with a function that may fail, for a pattern that does not match
    the empty text.  The number is that of characters still to be passed over. -/
def subn {ε : Type*} (atoms : List (Atom α)) (f : List (List α) → Except ε (List α)) :
    Nat → List α → Except ε (List α × Nat)
  | _, [] => .ok ([], 0)
  | skip + 1, _ :: text => subn atoms f skip text
  | 0, c :: text =>
      match matchPrefix atoms (c :: text) with
      | none =>
          match subn atoms f 0 text with
          | .error e => .error e
          | .ok (text', n) => .ok (c :: text', n)
      | some (pieces, _) =>
          match f pieces with
          | .error e => .error e
          | .ok out =>
              match subn atoms f (pieces.flatten.length - 1) text with
              | .error e => .error e
              | .ok (text', n) => .ok (out ++ text', n + 1)

/-! ## Matches -/

theorem dropPrefix?_eq_some {text s rest : List α} :
    text.dropPrefix? s = some rest ↔ text = s ++ rest := by
  simp [List.dropPrefix?_eq_some_iff]

/-- A match splits the text into pieces that the atoms accept, and the rest. -/
theorem matchPrefix_sound {atoms : List (Atom α)} {text rest : List α} {pieces : List (List α)}
    (h : matchPrefix atoms text = some (pieces, rest)) :
    text = pieces.flatten ++ rest ∧ List.Forall₂ Atom.Accepts atoms pieces := by
  induction atoms generalizing text pieces with
  | nil =>
      obtain ⟨rfl, rfl⟩ := Prod.mk.inj (Option.some.inj h)
      exact ⟨rfl, .nil⟩
  | cons atom atoms ih =>
      cases atom with
      | lit s =>
          rw [matchPrefix] at h
          split at h
          · cases h
          · next text' hdrop =>
              obtain ⟨⟨pieces', rest'⟩, hmatch, heq⟩ := Option.map_eq_some_iff.mp h
              obtain ⟨rfl, rfl⟩ := Prod.mk.inj heq
              obtain ⟨rfl, hpieces⟩ := ih hmatch
              rw [dropPrefix?_eq_some.mp hdrop, List.flatten_cons, List.append_assoc]
              exact ⟨rfl, .cons rfl hpieces⟩
      | star p =>
          rw [matchPrefix] at h
          obtain ⟨⟨run, pieces', rest'⟩, hrun, heq⟩ := Option.map_eq_some_iff.mp h
          obtain ⟨rfl, rfl⟩ := Prod.mk.inj heq
          obtain ⟨text', rfl, hall, hmatch⟩ := greedy_sound hrun
          obtain ⟨rfl, hpieces⟩ := ih hmatch
          rw [List.flatten_cons, List.append_assoc]
          exact ⟨rfl, .cons hall hpieces⟩
      | plus p =>
          cases text with
          | nil => cases h
          | cons c text =>
              rw [matchPrefix] at h
              split at h
              · next hc =>
                  obtain ⟨⟨run, pieces', rest'⟩, hrun, heq⟩ := Option.map_eq_some_iff.mp h
                  obtain ⟨rfl, rfl⟩ := Prod.mk.inj heq
                  obtain ⟨text', rfl, hall, hmatch⟩ := greedy_sound hrun
                  obtain ⟨rfl, hpieces⟩ := ih hmatch
                  refine ⟨by simp, ?_⟩
                  exact .cons ⟨by simp, by simpa [hc] using hall⟩ hpieces
              · cases h

theorem matchPrefix_lit (s : List α) (atoms : List (Atom α)) (text : List α) :
    matchPrefix (.lit s :: atoms) (s ++ text)
      = (matchPrefix atoms text).map fun (pieces, rest) => (s :: pieces, rest) := by
  rw [matchPrefix, dropPrefix?_eq_some.mpr rfl]

theorem matchPrefix_star {p : α → Bool} {atoms : List (Atom α)} {run text rest : List α}
    {pieces : List (List α)} (hrun : ∀ c ∈ run, p c = true) (hstop : Stops p text)
    (h : matchPrefix atoms text = some (pieces, rest)) :
    matchPrefix (.star p :: atoms) (run ++ text) = some (run :: pieces, rest) := by
  rw [matchPrefix, greedy_run hrun hstop h]
  rfl

theorem matchPrefix_plus {p : α → Bool} {atoms : List (Atom α)} {run text rest : List α}
    {pieces : List (List α)} (hne : run ≠ []) (hrun : ∀ c ∈ run, p c = true)
    (hstop : Stops p text) (h : matchPrefix atoms text = some (pieces, rest)) :
    matchPrefix (.plus p :: atoms) (run ++ text) = some (run :: pieces, rest) := by
  obtain ⟨c, run, rfl⟩ := List.exists_cons_of_ne_nil hne
  have hc := hrun c (List.mem_cons_self ..)
  rw [List.cons_append, matchPrefix, if_pos hc,
    greedy_run (fun d hd => hrun d (List.mem_cons_of_mem c hd)) hstop h]
  rfl

/-- A pattern that starts with a literal matches only where the literal stands. -/
theorem prefix_of_matchPrefix {s : List α} {atoms : List (Atom α)} {text rest : List α}
    {pieces : List (List α)} (h : matchPrefix (.lit s :: atoms) text = some (pieces, rest)) :
    s <+: text := by
  obtain ⟨rfl, hpieces⟩ := matchPrefix_sound h
  cases hpieces with
  | cons hlit _ =>
      obtain rfl := hlit
      exact ⟨_, by rw [List.flatten_cons, List.append_assoc]⟩

/-! ## Searching -/

/-- The leftmost match. -/
theorem search_eq_some_iff {atoms : List (Atom α)} {text before rest : List α}
    {pieces : List (List α)} :
    search atoms text = some (before, pieces, rest)
      ↔ ∃ found, text = before ++ found ∧ matchPrefix atoms found = some (pieces, rest) ∧
          ∀ left right, before = left ++ right → right ≠ [] →
            matchPrefix atoms (right ++ found) = none := by
  induction text generalizing before with
  | nil =>
      rw [search, Option.map_eq_some_iff]
      refine ⟨?_, ?_⟩
      · rintro ⟨⟨pieces', rest'⟩, hmatch, heq⟩
        obtain ⟨hbefore, heq⟩ := Prod.mk.inj heq
        obtain ⟨rfl, rfl⟩ := Prod.mk.inj heq
        subst hbefore
        refine ⟨[], rfl, hmatch, fun left right hsplit hne => ?_⟩
        exact absurd (List.append_eq_nil_iff.mp hsplit.symm).2 hne
      · rintro ⟨found, htext, hmatch, -⟩
        obtain ⟨rfl, rfl⟩ := List.append_eq_nil_iff.mp htext.symm
        exact ⟨_, hmatch, rfl⟩
  | cons c text ih =>
      rw [search]
      split
      · next pieces' rest' hmatch =>
          refine ⟨?_, ?_⟩
          · intro h
            obtain ⟨rfl, heq⟩ := Prod.mk.inj (Option.some.inj h)
            obtain ⟨rfl, rfl⟩ := Prod.mk.inj heq
            refine ⟨c :: text, rfl, hmatch, fun left right hsplit hne => ?_⟩
            exact absurd (List.append_eq_nil_iff.mp hsplit.symm).2 hne
          · rintro ⟨found, htext, hfound, hleftmost⟩
            -- nothing can stand before a match at the start
            cases before with
            | nil =>
                rw [List.nil_append] at htext
                rw [htext, hfound] at hmatch
                obtain ⟨rfl, rfl⟩ := Prod.mk.inj (Option.some.inj hmatch)
                rfl
            | cons d before =>
                have hnone := hleftmost [] (d :: before) rfl (by simp)
                rw [← htext, hmatch] at hnone
                cases hnone
      · next hnone =>
          rw [Option.map_eq_some_iff]
          refine ⟨?_, ?_⟩
          · rintro ⟨⟨before', found'⟩, hsearch, heq⟩
            obtain ⟨rfl, rfl⟩ := Prod.mk.inj heq
            obtain ⟨found, rfl, hmatch, hleftmost⟩ := ih.mp hsearch
            refine ⟨found, rfl, hmatch, fun left right hsplit hne => ?_⟩
            cases left with
            | nil =>
                rw [List.nil_append] at hsplit
                rw [← hsplit]
                exact hnone
            | cons d left => exact hleftmost left right (List.cons.inj hsplit).2 hne
          · rintro ⟨found, htext, hmatch, hleftmost⟩
            cases before with
            | nil =>
                rw [List.nil_append] at htext
                rw [htext, hmatch] at hnone
                cases hnone
            | cons d before =>
                obtain ⟨rfl, rfl⟩ := List.cons.inj htext
                refine ⟨(before, pieces, rest), ih.mpr ⟨found, rfl, hmatch, ?_⟩, rfl⟩
                exact fun left right hsplit hne =>
                  hleftmost (c :: left) right (by rw [hsplit, List.cons_append]) hne

/-- No match at any position. -/
theorem matchPrefix_of_search_eq_none {atoms : List (Atom α)} {left right : List α}
    (h : search atoms (left ++ right) = none) : matchPrefix atoms right = none := by
  induction left with
  | nil =>
      rw [List.nil_append] at h
      cases right with
      | nil => simpa [search] using h
      | cons c right =>
          rw [search] at h
          split at h
          · cases h
          · next hnone => exact hnone
  | cons c left ih =>
      rw [List.cons_append, search] at h
      split at h
      · cases h
      · exact ih (Option.map_eq_none_iff.mp h)

/-- A search goes on after a text in which nothing matches. -/
theorem search_append {atoms : List (Atom α)} {text rest : List α}
    (h : ∀ left right, text = left ++ right → right ≠ [] →
      matchPrefix atoms (right ++ rest) = none) :
    search atoms (text ++ rest)
      = (search atoms rest).map fun (before, found) => (text ++ before, found) := by
  induction text with
  | nil =>
      rw [List.nil_append]
      exact Option.map_id'.symm
  | cons c text ih =>
      have hnone := h [] (c :: text) rfl (by simp)
      rw [List.cons_append] at hnone
      rw [List.cons_append, search, hnone, ih, Option.map_map]
      · rfl
      · intro left right hsplit hne
        exact h (c :: left) right (by rw [hsplit, List.cons_append]) hne

/-! ## Rewriting -/

/-- A text and what `subn` makes of it. -/
inductive Rewrites {ε : Type*} (atoms : List (Atom α)) (f : List (List α) → Except ε (List α)) :
    List α → List α → Prop
  | nil : Rewrites atoms f [] []
  | hit {text rest out rest' : List α} {pieces : List (List α)}
      (hmatch : matchPrefix atoms text = some (pieces, rest)) (hout : f pieces = .ok out)
      (h : Rewrites atoms f rest rest') : Rewrites atoms f text (out ++ rest')
  | skip {c : α} {text text' : List α} (hnone : matchPrefix atoms (c :: text) = none)
      (h : Rewrites atoms f text text') : Rewrites atoms f (c :: text) (c :: text')

section Rewrites

variable {ε : Type*} {atoms : List (Atom α)} {f : List (List α) → Except ε (List α)}

/-- A match is rewritten. -/
theorem Rewrites.hit_inv {text text' rest : List α} {pieces : List (List α)}
    (h : Rewrites atoms f text text') (hmatch : matchPrefix atoms text = some (pieces, rest))
    (hne : text ≠ []) :
    ∃ out rest', f pieces = .ok out ∧ text' = out ++ rest' ∧ Rewrites atoms f rest rest' := by
  cases h with
  | nil => exact absurd rfl hne
  | hit hmatch' hout hrest =>
      rw [hmatch] at hmatch'
      obtain ⟨rfl, rfl⟩ := Prod.mk.inj (Option.some.inj hmatch')
      exact ⟨_, _, hout, rfl, hrest⟩
  | skip hnone _ =>
      rw [hnone] at hmatch
      cases hmatch

/-- A character where nothing matches is passed over. -/
theorem Rewrites.skip_inv {c : α} {text text' : List α} (h : Rewrites atoms f (c :: text) text')
    (hnone : matchPrefix atoms (c :: text) = none) :
    ∃ rest', text' = c :: rest' ∧ Rewrites atoms f text rest' := by
  cases h with
  | hit hmatch _ _ =>
      rw [hnone] at hmatch
      cases hmatch
  | skip _ hrest => exact ⟨_, rfl, hrest⟩

/-- A text in which nothing matches is passed over. -/
theorem Rewrites.append_inv {text rest text' : List α} (h : Rewrites atoms f (text ++ rest) text')
    (hnone : ∀ left right, text = left ++ right → right ≠ [] →
      matchPrefix atoms (right ++ rest) = none) :
    ∃ rest', text' = text ++ rest' ∧ Rewrites atoms f rest rest' := by
  induction text generalizing text' with
  | nil => exact ⟨text', rfl, h⟩
  | cons c text ih =>
      obtain ⟨middle, rfl, hmiddle⟩ := h.skip_inv (hnone [] (c :: text) rfl (by simp))
      obtain ⟨rest', rfl, hrest'⟩ := ih hmiddle fun left right hsplit hne =>
        hnone (c :: left) right (by rw [hsplit, List.cons_append]) hne
      exact ⟨rest', rfl, hrest'⟩

end Rewrites

section Subn

variable {ε : Type*} {atoms : List (Atom α)} {f : List (List α) → Except ε (List α)}

/-- Passing over characters is dropping them. -/
theorem subn_skip (skip : Nat) (text : List α) :
    subn atoms f skip text = subn atoms f 0 (text.drop skip) := by
  induction skip generalizing text with
  | zero => rfl
  | succ skip ih =>
      cases text with
      | nil => simp [subn]
      | cons c text =>
          rw [List.drop_succ_cons, ← ih]
          rfl

/-- A failing rewrite fails at one of its matches. -/
theorem exists_of_subn_eq_error {skip : Nat} {text : List α} {e : ε}
    (h : subn atoms f skip text = .error e) : ∃ pieces, f pieces = .error e := by
  fun_induction subn atoms f skip text with
  | case1 skip => cases h
  | case2 skip c text ih => exact ih h
  | case3 c text hnone e' hrest ih =>
      cases h
      exact ih hrest
  | case4 c text hnone text' n hrest ih => cases h
  | case5 c text pieces rest hmatch e' hout =>
      cases h
      exact ⟨pieces, hout⟩
  | case6 c text pieces rest hmatch out hout e' hrest ih =>
      cases h
      exact ih hrest
  | case7 c text pieces rest hmatch out hout text' n hrest ih => cases h

/-- What `subn` computes, for a pattern that never matches the empty text. -/
theorem rewrites_of_subn
    (hne : ∀ text pieces rest, matchPrefix atoms text = some (pieces, rest) →
      pieces.flatten ≠ []) {text text' : List α} {n : Nat}
    (h : subn atoms f 0 text = .ok (text', n)) : Rewrites atoms f text text' := by
  induction hlen : text.length using Nat.strongRecOn generalizing text text' n with
  | _ len ih =>
      cases text with
      | nil =>
          obtain ⟨rfl, -⟩ := Prod.mk.inj (Except.ok.inj h)
          exact .nil
      | cons c text =>
          rw [subn] at h
          split at h
          · next hnone =>
              split at h
              · cases h
              · next rest' n' hrest =>
                  obtain ⟨rfl, -⟩ := Prod.mk.inj (Except.ok.inj h)
                  refine .skip hnone (ih text.length ?_ hrest rfl)
                  rw [← hlen, List.length_cons]
                  exact Nat.lt_succ_self _
          · next pieces rest hmatch =>
              split at h
              · cases h
              · next out hout =>
                  split at h
                  · cases h
                  · next rest' n' hrest =>
                      obtain ⟨rfl, -⟩ := Prod.mk.inj (Except.ok.inj h)
                      obtain ⟨htext, -⟩ := matchPrefix_sound hmatch
                      obtain ⟨d, found, hfound⟩ := List.exists_cons_of_ne_nil (hne _ _ _ hmatch)
                      rw [hfound, List.cons_append] at htext
                      obtain ⟨rfl, rfl⟩ := List.cons.inj htext
                      rw [subn_skip, hfound, List.length_cons, Nat.add_sub_cancel,
                        List.drop_left] at hrest
                      refine .hit hmatch hout (ih rest.length ?_ hrest rfl)
                      rw [← hlen, List.length_cons, List.length_append]
                      omega

end Subn

end Pattern
