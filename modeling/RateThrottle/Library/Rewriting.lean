/-
  RateThrottle.Library.Rewriting

  Rewriting a text a second time.

  The texts here are rewritten with a pattern that starts with a literal, and
  the first character of the literal stands nowhere else in it.  What is written
  in place of a match starts with that character too.  Then a text without the
  character, read off the rewritten text at a place that was passed over, stands
  in the text before (`Rewrites.of_append`), so that a match in the rewritten
  text can be traced back to one in the text before.

  `subn_self`: when matches are rewritten to what is rewritten to itself, and a
  place that was passed over is passed over again, a second rewriting changes
  nothing and finds as many matches.
-/

import RateThrottle.Library.Pattern

namespace Pattern

variable {α β : Type*}

/-- A text without the leading character ends before a text that starts with it. -/
theorem append_of_not_mem {c : α} {right found word rest : List α}
    (hword : c ∉ word) (h : right ++ c :: found = word ++ rest) :
    ∃ right', right = word ++ right' ∧ rest = right' ++ c :: found := by
  rcases List.append_eq_append_iff.mp h with ⟨middle, rfl, hmiddle⟩ | ⟨middle, rfl, hrest⟩
  · cases middle with
    | nil => exact ⟨[], by simp, by simpa using hmiddle.symm⟩
    | cons d middle =>
        obtain ⟨rfl, -⟩ := List.cons.inj hmiddle
        exact absurd (List.mem_append_right right (List.mem_cons_self ..)) hword
  · exact ⟨middle, rfl, hrest⟩

theorem stops_dropWhile (p : α → Bool) (text : List α) : Stops p (text.dropWhile p) := by
  intro c hc
  have hhead := List.head?_dropWhile_not p text
  rw [Option.mem_def.mp hc] at hhead
  exact hhead

theorem Stops.append {p : α → Bool} {left right : List α} (hleft : Stops p left)
    (hright : left = [] → Stops p right) : Stops p (left ++ right) := by
  cases left with
  | nil => exact hright rfl
  | cons c left => exact stops_cons (hleft c rfl) _

/-- Whether a run stops is decided by one character. -/
theorem Stops.of_cons {p : α → Bool} {left rest rest' : List α} {c : α}
    (h : Stops p (left ++ c :: rest)) : Stops p (left ++ c :: rest') := by
  cases left with
  | nil => exact stops_cons (h c rfl) _
  | cons d left => exact stops_cons (h d rfl) _

/-! ## Every split into accepted pieces is found -/

theorem greedy_ne_none {p : α → Bool} {next : List α → Option β} {run rest : List α}
    (hrun : ∀ c ∈ run, p c = true) (hnext : next rest ≠ none) :
    greedy p next (run ++ rest) ≠ none := by
  induction run with
  | nil =>
      obtain ⟨b, hb⟩ := Option.ne_none_iff_exists'.mp hnext
      rw [List.nil_append]
      cases rest with
      | nil => simp [greedy, hb]
      | cons c rest =>
          rw [greedy]
          split
          · simp
          · simp [hb]
  | cons c run ih =>
      have hc := hrun c (List.mem_cons_self ..)
      obtain ⟨⟨run', b⟩, hfound⟩ := Option.ne_none_iff_exists'.mp
        (ih fun d hd => hrun d (List.mem_cons_of_mem c hd))
      rw [List.cons_append, greedy, if_pos hc, hfound]
      simp

variable [DecidableEq α]

/-- The engine finds a match where there is one, although perhaps another. -/
theorem matchPrefix_ne_none {atoms : List (Atom α)} {pieces : List (List α)}
    (h : List.Forall₂ Atom.Accepts atoms pieces) (rest : List α) :
    matchPrefix atoms (pieces.flatten ++ rest) ≠ none := by
  induction h with
  | nil => simp [matchPrefix]
  | @cons atom piece atoms pieces hpiece _ ih =>
      rw [List.flatten_cons, List.append_assoc]
      cases atom with
      | lit s =>
          obtain rfl := hpiece
          rw [matchPrefix_lit]
          simpa using ih
      | star p =>
          rw [matchPrefix]
          simpa using greedy_ne_none hpiece ih
      | plus p =>
          obtain ⟨hne, hpiece⟩ := hpiece
          obtain ⟨c, run, rfl⟩ := List.exists_cons_of_ne_nil hne
          have hc := hpiece c (List.mem_cons_self ..)
          rw [List.cons_append, matchPrefix, if_pos hc]
          simpa using greedy_ne_none (fun d hd => hpiece d (List.mem_cons_of_mem c hd)) ih

/-! ## Texts without the leading character -/

section Leading

variable {ε : Type*} {atoms : List (Atom α)} {f : List (List α) → Except ε (List α)} {c : α}

/-- A text without the leading character has not been written by the rewriting. -/
theorem Rewrites.of_append
    (hlead : ∀ text pieces rest out, matchPrefix atoms text = some (pieces, rest) →
      f pieces = .ok out → out.head? = some c)
    {text word rest : List α} (h : Rewrites atoms f text (word ++ rest)) (hword : c ∉ word) :
    ∃ text', text = word ++ text' ∧ Rewrites atoms f text' rest := by
  induction word generalizing text with
  | nil => exact ⟨text, rfl, h⟩
  | cons d word ih =>
      rw [List.mem_cons, not_or] at hword
      rw [List.cons_append] at h
      generalize hout : d :: (word ++ rest) = out' at h
      cases h with
      | nil => cases hout
      | @hit _ _ out rest' pieces hmatch hf _ =>
          have hd : out.head? = some d ∨ out = [] := by
            cases out with
            | nil => exact Or.inr rfl
            | cons e out => exact Or.inl (by rw [(List.cons.inj hout).1]; rfl)
          have hc := hlead _ pieces _ out hmatch hf
          rcases hd with hd | rfl
          · rw [hc] at hd
            exact absurd (Option.some.inj hd) hword.1
          · cases hc
      | skip _ hrest =>
          obtain ⟨rfl, rfl⟩ := List.cons.inj hout
          obtain ⟨text', rfl, htext'⟩ := ih hrest hword.2
          exact ⟨text', rfl, htext'⟩

/-- The first character stays. -/
theorem Rewrites.head?_eq {s : List α} {text text' : List α}
    (hlead : ∀ text pieces rest out, matchPrefix (.lit (c :: s) :: atoms) text = some (pieces, rest) →
      f pieces = .ok out → out.head? = some c)
    (h : Rewrites (.lit (c :: s) :: atoms) f text text') : text'.head? = text.head? := by
  cases h with
  | nil => rfl
  | hit hmatch hout _ =>
      obtain ⟨tail, rfl⟩ := prefix_of_matchPrefix hmatch
      rw [List.head?_append, hlead _ _ _ _ hmatch hout]
      rfl
  | skip _ _ => rfl

/-- What holds of all characters of a text holds of those of the rewritten text. -/
theorem Rewrites.forall_mem {Q : α → Prop}
    (hf : ∀ text pieces rest out, matchPrefix atoms text = some (pieces, rest) →
      f pieces = .ok out → (∀ d ∈ pieces.flatten, Q d) → ∀ d ∈ out, Q d)
    {text text' : List α} (h : Rewrites atoms f text text') (htext : ∀ d ∈ text, Q d) :
    ∀ d ∈ text', Q d := by
  induction h with
  | nil => simp
  | hit hmatch hout _ ih =>
      obtain ⟨hsplit, -⟩ := matchPrefix_sound hmatch
      rw [hsplit, List.forall_mem_append] at htext
      exact List.forall_mem_append.mpr ⟨hf _ _ _ _ hmatch hout htext.1, ih htext.2⟩
  | skip _ _ ih =>
      rw [List.forall_mem_cons] at htext
      exact List.forall_mem_cons.mpr ⟨htext.1, ih htext.2⟩

end Leading

/-! ## A second rewriting -/

section Again

variable {ε : Type*} {atoms : List (Atom α)} {f : List (List α) → Except ε (List α)}

theorem subn_hit {text out rest rest' : List α} {pieces : List (List α)} {n : Nat}
    (hmatch : matchPrefix atoms text = some (pieces, rest)) (hne : pieces.flatten ≠ [])
    (hout : f pieces = .ok out) (hrest : subn atoms f 0 rest = .ok (rest', n)) :
    subn atoms f 0 text = .ok (out ++ rest', n + 1) := by
  obtain ⟨rfl, -⟩ := matchPrefix_sound hmatch
  obtain ⟨c, found, hfound⟩ := List.exists_cons_of_ne_nil hne
  rw [hfound, List.cons_append] at hmatch ⊢
  have hdrop : subn atoms f (pieces.flatten.length - 1) (found ++ rest) = .ok (rest', n) := by
    rw [subn_skip, hfound, List.length_cons, Nat.add_sub_cancel, List.drop_left, hrest]
  rw [subn]
  simp only [hmatch, hout, hdrop]

theorem subn_miss {c : α} {text text' : List α} {n : Nat}
    (hnone : matchPrefix atoms (c :: text) = none) (h : subn atoms f 0 text = .ok (text', n)) :
    subn atoms f 0 (c :: text) = .ok (c :: text', n) := by
  rw [subn]
  simp only [hnone, h]

/-- A second rewriting.  `P` is what is known of the text that is rewritten first
    and of the texts at its end. -/
theorem subn_self {P : List α → Prop} (hP : ∀ left right, P (left ++ right) → P right)
    (hne : ∀ text pieces rest, matchPrefix atoms text = some (pieces, rest) → pieces.flatten ≠ [])
    (hagain : ∀ text pieces rest out rest', P text →
      matchPrefix atoms text = some (pieces, rest) → f pieces = .ok out →
      ∃ pieces', matchPrefix atoms (out ++ rest') = some (pieces', rest') ∧ f pieces' = .ok out)
    (hskip : ∀ c text text', P (c :: text) → matchPrefix atoms (c :: text) = none →
      Rewrites atoms f text text' → matchPrefix atoms (c :: text') = none)
    {text text' : List α} {n : Nat} (htext : P text)
    (h : subn atoms f 0 text = .ok (text', n)) : subn atoms f 0 text' = .ok (text', n) := by
  induction hlength : text.length using Nat.strongRecOn generalizing text text' n with
  | _ length ih =>
      cases text with
      | nil =>
          obtain ⟨rfl, rfl⟩ := Prod.mk.inj (Except.ok.inj h)
          rfl
      | cons c text =>
          rw [subn] at h
          split at h
          · next hnone =>
              split at h
              · cases h
              · next rest' m hrest =>
                  obtain ⟨rfl, rfl⟩ := Prod.mk.inj (Except.ok.inj h)
                  have hlt : text.length < length := by
                    rw [← hlength, List.length_cons]
                    exact Nat.lt_succ_self _
                  exact subn_miss (hskip c text rest' htext hnone (rewrites_of_subn hne hrest))
                    (ih text.length hlt (hP [c] text htext) hrest rfl)
          · next pieces rest hmatch =>
              split at h
              · cases h
              · next out hout =>
                  split at h
                  · cases h
                  · next rest' m hrest =>
                      obtain ⟨rfl, rfl⟩ := Prod.mk.inj (Except.ok.inj h)
                      obtain ⟨hsplit, -⟩ := matchPrefix_sound hmatch
                      obtain ⟨d, found, hfound⟩ := List.exists_cons_of_ne_nil (hne _ _ _ hmatch)
                      have htail : text = found ++ rest := by
                        rw [hfound, List.cons_append] at hsplit
                        exact (List.cons.inj hsplit).2
                      rw [subn_skip, hfound, List.length_cons, Nat.add_sub_cancel, htail,
                        List.drop_left] at hrest
                      have hlt : rest.length < length := by
                        rw [← hlength, htail, List.length_cons, List.length_append]
                        omega
                      have hrest' : P rest := by
                        rw [hsplit] at htext
                        exact hP _ rest htext
                      obtain ⟨pieces', hmatch', hout'⟩ :=
                        hagain _ pieces rest out rest' htext hmatch hout
                      have hlast := ih rest.length hlt hrest' hrest rfl
                      exact subn_hit hmatch' (hne _ _ _ hmatch') hout' hlast

/-- The leftmost match stays the leftmost one when the text from it on changes,
    as long as no match before it comes up. -/
theorem search_replaced {text before rest found' rest' : List α} {pieces pieces' : List (List α)}
    (h : search atoms text = some (before, pieces, rest))
    (hmatch : matchPrefix atoms found' = some (pieces', rest'))
    (hbefore : ∀ right, right ≠ [] → matchPrefix atoms (right ++ found') ≠ none →
      matchPrefix atoms (right ++ (pieces.flatten ++ rest)) ≠ none) :
    search atoms (before ++ found') = some (before, pieces', rest') := by
  obtain ⟨found, rfl, hfound, hleftmost⟩ := search_eq_some_iff.mp h
  obtain ⟨rfl, -⟩ := matchPrefix_sound hfound
  refine search_eq_some_iff.mpr ⟨found', rfl, hmatch, fun left right hsplit hne => ?_⟩
  by_contra hsome
  exact hbefore right hne hsome (hleftmost left right hsplit hne)

end Again

end Pattern
