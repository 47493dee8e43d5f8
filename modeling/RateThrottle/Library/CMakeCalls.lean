/-
  RateThrottle.Library.CMakeCalls

  The calls of one command in a CMake file.

  A call starts at the top of a file, where the reader is outside of all
  parentheses, arguments and comments (`callAt`).  A text in which the calls of
  a command have other bodies and nothing else has changed is described by
  `CallsRewritten`; `FirstCall` is the place of the first call.  Two facts carry
  the proofs about them: the reader is where it was before after a call
  (`after_call`), and no call starts within a call (`call_cases`).
-/

import RateThrottle.Library.CMake

namespace CMake

/-- The call at the start of a text: the blanks before its parenthesis, its body
    and the text after it. -/
def callAt (name text : List Char) : Option (List Char × List Char × List Char) :=
  match text.dropPrefix? name with
  | none => none
  | some after =>
      match after.dropWhile isBlank with
      | '(' :: open_ => (splitBody inside open_).map fun (body, rest) =>
          (after.takeWhile isBlank, body, rest)
      | _ => none

/-- A call as it is written, and the text after it. -/
def callText (name gap body rest : List Char) : List Char :=
  name ++ (gap ++ '(' :: (body ++ ')' :: rest))

theorem callAt_eq_some {name text gap body rest : List Char} :
    callAt name text = some (gap, body, rest)
      ↔ text = callText name gap body rest ∧ (∀ c ∈ gap, isBlank c = true) ∧
          Closes inside body := by
  have hinside : inside.depth ≠ 0 := Nat.one_ne_zero
  refine ⟨?_, ?_⟩
  · intro h
    rw [callAt] at h
    split at h
    · cases h
    · next after hprefix =>
        rw [List.dropPrefix?_eq_some_iff] at hprefix
        obtain ⟨name', rfl, hname⟩ := hprefix
        rw [eq_of_beq hname]
        split at h
        · next text' hdrop =>
            obtain ⟨⟨body', rest'⟩, hsplit, heq⟩ := Option.map_eq_some_iff.mp h
            cases heq
            obtain ⟨rfl, hbody⟩ := (splitBody_eq_some hinside).mp hsplit
            refine ⟨?_, fun c hc => ?_, hbody⟩
            · rw [callText, ← hdrop, List.takeWhile_append_dropWhile]
            · exact List.all_eq_true.mp List.all_takeWhile c hc
        · cases h
  · rintro ⟨rfl, hgap, hbody⟩
    have hparen : isBlank '(' = false := rfl
    have hprefix : (callText name gap body rest).dropPrefix? name
        = some (gap ++ '(' :: (body ++ ')' :: rest)) := by
      simp [callText, List.dropPrefix?_eq_some_iff]
    rw [callAt, hprefix]
    simp only [List.dropWhile_append_of_pos hgap, List.takeWhile_append_of_pos hgap,
      List.dropWhile_cons, List.takeWhile_cons, hparen]
    simp [hbody rest]

/-- A text in which the calls of a command have other bodies, and nothing else. -/
inductive CallsRewritten (name : List Char) (rewritten : List Char → List Char → Prop) :
    Context → List Char → List Char → Prop
  | nil {k : Context} : CallsRewritten name rewritten k [] []
  | call {text gap body body' rest rest' : List Char}
      (hcall : callAt name text = some (gap, body, rest)) (hbody : rewritten body body')
      (h : CallsRewritten name rewritten top rest rest') :
      CallsRewritten name rewritten top text (callText name gap body' rest')
  | char {k : Context} {c : Char} {text text' : List Char}
      (hnone : k = top → callAt name (c :: text) = none)
      (h : CallsRewritten name rewritten (k.step c) text text') :
      CallsRewritten name rewritten k (c :: text) (c :: text')

/-- The first call of a command in a text. -/
structure FirstCall (name text before gap body rest : List Char) : Prop where
  atTop : top.after before = top
  splits : text = before ++ callText name gap body rest
  isCall : callAt name (callText name gap body rest) = some (gap, body, rest)
  isFirst : ∀ left right, before = left ++ right → right ≠ [] → top.after left = top →
    callAt name (right ++ callText name gap body rest) = none

theorem callText_append (name gap body rest text : List Char) :
    callText name gap body (rest ++ text) = callText name gap body rest ++ text := by
  simp [callText]

theorem callText_inj {name gap body body' rest : List Char}
    (h : callText name gap body rest = callText name gap body' rest) : body = body' := by
  rw [callText, callText] at h
  have hbody := List.append_cancel_left (List.append_cancel_left h)
  exact List.append_cancel_right (List.cons.inj hbody).2

/-- The name of a command is one word. -/
structure IsName (name : List Char) : Prop where
  ne_nil : name ≠ []
  plain : ∀ c ∈ name, isPlain c = true

section Calls

variable {name gap body rest : List Char}

/-- The parenthesis of a call opens its body. -/
theorem after_open (hname : IsName name) (hgap : ∀ c ∈ gap, isBlank c = true) :
    top.after (name ++ (gap ++ ['('])) = inside := by
  rw [after_append, after_of_isPlain rfl hname.ne_nil hname.plain, after_append]
  by_cases hne : gap = []
  · rw [hne]
    rfl
  · rw [after_of_isBlank rfl hne hgap]
    rfl

/-- After a call the reader is where it was before. -/
theorem after_call (hname : IsName name) (hgap : ∀ c ∈ gap, isBlank c = true)
    (hbody : Closes inside body) : top.after (callText name gap body []) = top := by
  have hsplit : callText name gap body [] = (name ++ (gap ++ ['('])) ++ (body ++ [')']) := by
    simp [callText]
  rw [hsplit, after_append, after_open hname hgap, after_append]
  exact step_close_of_closes Nat.one_ne_zero hbody

/-- Between the start of a call and its end no call starts. -/
theorem call_cases (hname : IsName name)
    (hcall : callAt name (callText name gap body rest) = some (gap, body, rest))
    {before found : List Char} (htext : callText name gap body rest = before ++ found)
    (htop : top.after before = top) (hfound : name <+: found) :
    before = [] ∨ ∃ before', before = callText name gap body [] ++ before' ∧
      rest = before' ++ found := by
  obtain ⟨-, hgap, hbody⟩ := callAt_eq_some.mp hcall
  obtain ⟨tail, rfl⟩ := hfound
  -- the first character of the name stands neither for a blank nor for a parenthesis
  obtain ⟨c, name', hcons⟩ := List.exists_cons_of_ne_nil hname.ne_nil
  have hplain := hname.plain c (by rw [hcons]; exact List.mem_cons_self ..)
  have hfirst {d : Char} {right : List Char} (hd : isPlain d = false) :
      name ++ tail ≠ d :: right := by
    intro heq
    rw [hcons] at heq
    rw [(List.cons.inj heq).1, hd] at hplain
    cases hplain
  rcases List.append_eq_append_iff.mp htext with ⟨left, rfl, hleft⟩ | ⟨left, hleft, -⟩
  · rcases List.append_eq_append_iff.mp hleft with ⟨middle, rfl, hmiddle⟩ | ⟨middle, rfl, hmiddle⟩
    · cases middle with
      | nil => exact absurd hmiddle.symm (hfirst rfl)
      | cons d middle =>
          obtain ⟨rfl, hinner⟩ := List.cons.inj hmiddle
          rcases List.append_eq_append_iff.mp hinner with ⟨after, rfl, hafter⟩ | ⟨after, rfl, -⟩
          · -- the text before ends after the call
            cases after with
            | nil => exact absurd hafter.symm (hfirst rfl)
            | cons e after =>
                obtain ⟨rfl, hrest⟩ := List.cons.inj hafter
                exact Or.inr ⟨after, by simp [callText], hrest⟩
          · -- it ends within the body
            have hdepth := depth_ne_zero_of_closes Nat.one_ne_zero hbody
            have hsplit : name ++ (gap ++ '(' :: middle) = (name ++ (gap ++ ['('])) ++ middle := by
              simp
            rw [hsplit, after_append, after_open hname hgap] at htop
            rw [htop] at hdepth
            exact absurd rfl hdepth
    · -- it ends before the parenthesis
      cases middle with
      | nil => exact absurd hmiddle (hfirst rfl)
      | cons d middle =>
          have hd := hgap d (by simp)
          have hblank : isPlain d = false := by simp [isPlain, isSeparator, hd]
          exact absurd hmiddle (hfirst hblank)
  · -- it ends within the name
    cases before with
    | nil => exact Or.inl rfl
    | cons d before =>
        have hplain' : ∀ e ∈ d :: before, isPlain e = true := fun e he =>
          hname.plain e (by rw [hleft]; exact List.mem_append_left _ he)
        rw [after_of_isPlain rfl (by simp) hplain'] at htop
        cases htop

variable {rewritten : List Char → List Char → Prop}

theorem callsRewritten_call {text text' : List Char}
    (hcall : callAt name text = some (gap, body, rest)) :
    CallsRewritten name rewritten top text text'
      ↔ ∃ body' rest', text' = callText name gap body' rest' ∧ rewritten body body' ∧
          CallsRewritten name rewritten top rest rest' := by
  refine ⟨?_, ?_⟩
  · intro h
    cases h with
    | nil =>
        obtain ⟨htext, -⟩ := callAt_eq_some.mp hcall
        simp [callText] at htext
    | @call _ gap' body₀ body' rest₀ rest' hcall' hbody h =>
        rw [hcall] at hcall'
        cases hcall'
        exact ⟨body', rest', rfl, hbody, h⟩
    | char hnone h =>
        rw [hnone rfl] at hcall
        cases hcall
  · rintro ⟨body', rest', rfl, hbody, h⟩
    exact .call hcall hbody h

/-- A text that starts with the call is rewritten where the call and the rest are. -/
theorem callsRewritten_callText {text body₁ rest₁ : List Char}
    (hcall : callAt name text = some (gap, body, rest))
    (hcloses : ∀ body', rewritten body body' → Closes inside body') (hbody₁ : Closes inside body₁) :
    CallsRewritten name rewritten top text (callText name gap body₁ rest₁)
      ↔ rewritten body body₁ ∧ CallsRewritten name rewritten top rest rest₁ := by
  rw [callsRewritten_call hcall]
  refine ⟨?_, ?_⟩
  · rintro ⟨body', rest', htext, hbody, h⟩
    have hinner := List.append_cancel_left (List.append_cancel_left htext)
    obtain ⟨rfl, rfl⟩ := closes_unique hbody₁ (hcloses body' hbody) (List.cons.inj hinner).2
    exact ⟨hbody, h⟩
  · rintro ⟨hbody, h⟩
    exact ⟨body₁, rest₁, rfl, hbody, h⟩

theorem callsRewritten_char {k : Context} {c : Char} {text text' : List Char}
    (hnone : k = top → callAt name (c :: text) = none) :
    CallsRewritten name rewritten k (c :: text) text'
      ↔ ∃ rest', text' = c :: rest' ∧ CallsRewritten name rewritten (k.step c) text rest' := by
  refine ⟨?_, ?_⟩
  · intro h
    cases h with
    | call hcall hbody h =>
        rw [hnone rfl] at hcall
        cases hcall
    | char _ h => exact ⟨_, rfl, h⟩
  · rintro ⟨rest', rfl, h⟩
    exact .char hnone h

/-- A first call does not come after another call. -/
theorem FirstCall.before_eq {text before right gap' body' rest' : List Char}
    (h : FirstCall name text before gap body rest)
    (h' : FirstCall name text (before ++ right) gap' body' rest')
    (hcall : callText name gap body rest = right ++ callText name gap' body' rest') :
    before = before ++ right := by
  by_cases hne : right = []
  · rw [hne, List.append_nil]
  · have hnone := h'.isFirst before right rfl hne h.atTop
    rw [← hcall, h.isCall] at hnone
    cases hnone

theorem firstCall_unique {text before before' gap' body' rest' : List Char}
    (h : FirstCall name text before gap body rest)
    (h' : FirstCall name text before' gap' body' rest') :
    before = before' ∧ gap = gap' ∧ body = body' ∧ rest = rest' := by
  have hsame : before = before' := by
    have htext := h.splits.symm.trans h'.splits
    rcases List.append_eq_append_iff.mp htext with ⟨right, rfl, hcall⟩ | ⟨right, rfl, hcall⟩
    · exact h.before_eq h' hcall
    · exact (h'.before_eq h hcall).symm
  subst hsame
  have hcall := h.isCall
  rw [List.append_cancel_left (h.splits.symm.trans h'.splits), h'.isCall] at hcall
  cases hcall
  exact ⟨rfl, rfl, rfl, rfl⟩

end Calls

end CMake
