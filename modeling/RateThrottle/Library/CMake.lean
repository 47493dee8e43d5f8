/-
  RateThrottle.Library.CMake

  Reading the arguments of a command invocation in a CMake file.

  A file is read one character at a time; the reader's `Context` is the nesting
  of parentheses and whether it is between arguments, in a comment or inside an
  argument.  The body of a call is the text up to the parenthesis that brings
  the nesting back to zero (`splitBody`), and its `tokens` are the arguments,
  the parentheses and the single characters that separate them.  Bracket
  arguments and bracket comments are not told apart from words and line
  comments.

  `Body` says which token lists a body can have.  It is closed under giving an
  argument another value (`body_set`), and a body is read back from its tokens
  (`tokens_flatten`, `closes_flatten`); so a text with one argument changed is
  read like the text before.
-/

import Mathlib.Data.List.Basic

namespace CMake

-- ============================================================================
-- Reading a file
-- ============================================================================

/-- What the reader is in the middle of. -/
inductive Mode where
  | between
  | comment
  | argument
  | escaped
  | quoted
  | quotedEscape
deriving DecidableEq

/-- The modes in which the character read last belongs to an argument. -/
def Mode.inArgument : Mode → Bool
  | .between | .comment => false
  | .argument | .escaped | .quoted | .quotedEscape => true

/-- The modes in which parentheses and separators count. -/
def Mode.reads : Mode → Bool
  | .between | .argument => true
  | .comment | .escaped | .quoted | .quotedEscape => false

def isBlank (c : Char) : Bool := c = ' ' || c = '\t'

def isSeparator (c : Char) : Bool := isBlank c || c = '\n' || c = '\r'

/-- The characters an argument can be written with as they are. -/
def isPlain (c : Char) : Bool :=
  !isSeparator c && c ≠ '(' && c ≠ ')' && c ≠ '#' && c ≠ '"' && c ≠ '\\'

/-- The mode after a character that is read. -/
def modeOf (c : Char) : Mode :=
  if isSeparator c || c = '(' || c = ')' then .between
  else if c = '#' then .comment
  else if c = '"' then .quoted
  else if c = '\\' then .escaped
  else .argument

def Mode.step : Mode → Char → Mode
  | .between, c => modeOf c
  | .argument, c => modeOf c
  | .comment, c => if c = '\n' then .between else .comment
  | .escaped, _ => .argument
  | .quoted, c => if c = '"' then .argument else if c = '\\' then .quotedEscape else .quoted
  | .quotedEscape, _ => .quoted

structure Context where
  depth : Nat
  mode : Mode
deriving DecidableEq

/-- The nesting after a character. -/
def Context.depthAfter (k : Context) (c : Char) : Nat :=
  if k.mode.reads then
    if c = '(' then k.depth + 1 else if c = ')' then k.depth - 1 else k.depth
  else k.depth

def Context.step (k : Context) (c : Char) : Context := ⟨k.depthAfter c, k.mode.step c⟩

def Context.after (k : Context) (text : List Char) : Context := text.foldl Context.step k

/-- At the start of a file, and between its calls. -/
def top : Context := ⟨0, .between⟩

/-- After the parenthesis that opens a call. -/
def inside : Context := ⟨1, .between⟩

@[simp] theorem after_nil (k : Context) : k.after [] = k := rfl

@[simp] theorem after_cons (k : Context) (c : Char) (text : List Char) :
    k.after (c :: text) = (k.step c).after text := rfl

@[simp] theorem after_append (k : Context) (left right : List Char) :
    k.after (left ++ right) = (k.after left).after right := List.foldl_append ..

/-- A plain character continues an argument. -/
theorem step_of_isPlain {k : Context} {c : Char} (hk : k.mode.reads = true)
    (hc : isPlain c = true) : k.step c = ⟨k.depth, .argument⟩ := by
  obtain ⟨d, m⟩ := k
  simp only [isPlain, Bool.and_eq_true, Bool.not_eq_true', decide_eq_true_eq, ne_eq] at hc
  obtain ⟨⟨⟨⟨⟨hsep, hopen⟩, hclose⟩, hhash⟩, hquote⟩, hslash⟩ := hc
  have hmode : modeOf c = .argument := by simp [modeOf, hsep, hopen, hclose, hhash, hquote, hslash]
  cases m with
  | between => simp [Context.step, Context.depthAfter, Mode.reads, Mode.step, *]
  | argument => simp [Context.step, Context.depthAfter, Mode.reads, Mode.step, *]
  | comment => cases hk
  | escaped => cases hk
  | quoted => cases hk
  | quotedEscape => cases hk

theorem after_of_isPlain {k : Context} {word : List Char} (hk : k.mode.reads = true)
    (hne : word ≠ []) (hword : ∀ c ∈ word, isPlain c = true) :
    k.after word = ⟨k.depth, .argument⟩ := by
  induction word generalizing k with
  | nil => exact absurd rfl hne
  | cons c word ih =>
      rw [after_cons, step_of_isPlain hk (hword c (List.mem_cons_self ..))]
      cases word with
      | nil => rfl
      | cons d word =>
          exact ih rfl (by simp) fun e he => hword e (List.mem_cons_of_mem c he)

/-- Blanks before the parenthesis of a call are passed over. -/
theorem after_of_isBlank {k : Context} {gap : List Char} (hk : k.mode.reads = true)
    (hne : gap ≠ []) (hgap : ∀ c ∈ gap, isBlank c = true) :
    k.after gap = ⟨k.depth, .between⟩ := by
  induction gap generalizing k with
  | nil => exact absurd rfl hne
  | cons c gap ih =>
      have hstep : k.step c = ⟨k.depth, .between⟩ := by
        have hc := hgap c (List.mem_cons_self ..)
        have hsep : isSeparator c = true := by simp [isSeparator, hc]
        obtain ⟨d, m⟩ := k
        have hparen : c ≠ '(' ∧ c ≠ ')' := by
          rw [isBlank, Bool.or_eq_true, decide_eq_true_eq, decide_eq_true_eq] at hc
          rcases hc with rfl | rfl
          · decide
          · decide
        cases m with
        | between => simp [Context.step, Context.depthAfter, Mode.step, modeOf, *]
        | argument => simp [Context.step, Context.depthAfter, Mode.step, modeOf, *]
        | comment => cases hk
        | escaped => cases hk
        | quoted => cases hk
        | quotedEscape => cases hk
      rw [after_cons, hstep]
      cases gap with
      | nil => rfl
      | cons d gap =>
          exact ih rfl (by simp) fun e he => hgap e (List.mem_cons_of_mem c he)

-- ============================================================================
-- The body of a call
-- ============================================================================

/-- The text up to the parenthesis that closes the call, and the text after it. -/
def splitBody : Context → List Char → Option (List Char × List Char)
  | _, [] => none
  | k, c :: text =>
      if (k.step c).depth = 0 then some ([], text)
      else (splitBody (k.step c) text).map fun (body, rest) => (c :: body, rest)

/-- The text is a whole body: a closing parenthesis after it closes the call. -/
def Closes (k : Context) (body : List Char) : Prop :=
  ∀ rest, splitBody k (body ++ ')' :: rest) = some (body, rest)

/-- Only a parenthesis that is read closes a call. -/
theorem eq_of_step_depth {k : Context} {c : Char} (hk : k.depth ≠ 0)
    (h : (k.step c).depth = 0) : c = ')' := by
  by_contra hc
  have hdepth : k.depthAfter c = 0 := h
  rw [Context.depthAfter] at hdepth
  split at hdepth
  · split at hdepth
    · omega
    · exact hk hdepth
  · exact hk hdepth

theorem closes_nil {k : Context} : Closes k [] ↔ (k.step ')').depth = 0 := by
  refine ⟨?_, ?_⟩
  · intro h
    have hnil := h []
    by_contra hdepth
    rw [List.nil_append, splitBody, if_neg hdepth] at hnil
    simp [splitBody] at hnil
  · intro h rest
    rw [List.nil_append, splitBody, if_pos h]

theorem closes_cons {k : Context} {c : Char} {body : List Char} :
    Closes k (c :: body) ↔ (k.step c).depth ≠ 0 ∧ Closes (k.step c) body := by
  refine ⟨?_, ?_⟩
  · intro h
    have hdepth : (k.step c).depth ≠ 0 := by
      intro hdepth
      have hnil := h []
      rw [List.cons_append, splitBody, if_pos hdepth] at hnil
      cases hnil
    refine ⟨hdepth, fun rest => ?_⟩
    have hrest := h rest
    rw [List.cons_append, splitBody, if_neg hdepth, Option.map_eq_some_iff] at hrest
    obtain ⟨⟨body', rest'⟩, hsplit, heq⟩ := hrest
    obtain ⟨hbody, rfl⟩ := Prod.mk.inj heq
    rw [hsplit, (List.cons.inj hbody).2]
  · rintro ⟨hdepth, hbody⟩ rest
    rw [List.cons_append, splitBody, if_neg hdepth, hbody rest, Option.map_some]

/-- A call is split at the first parenthesis that closes it. -/
theorem splitBody_eq_some {k : Context} {text body rest : List Char} (hk : k.depth ≠ 0) :
    splitBody k text = some (body, rest) ↔ text = body ++ ')' :: rest ∧ Closes k body := by
  refine ⟨?_, ?_⟩
  · intro h
    induction text generalizing k body with
    | nil => cases h
    | cons c text ih =>
        rw [splitBody] at h
        split at h
        · next hdepth =>
            obtain ⟨rfl, rfl⟩ := Prod.mk.inj (Option.some.inj h)
            obtain rfl := eq_of_step_depth hk hdepth
            exact ⟨rfl, closes_nil.mpr hdepth⟩
        · next hdepth =>
            obtain ⟨⟨body', rest'⟩, hsplit, heq⟩ := Option.map_eq_some_iff.mp h
            obtain ⟨rfl, rfl⟩ := Prod.mk.inj heq
            obtain ⟨rfl, hbody⟩ := ih hdepth hsplit
            exact ⟨rfl, closes_cons.mpr ⟨hdepth, hbody⟩⟩
  · rintro ⟨rfl, hbody⟩
    exact hbody rest

/-- Two bodies that start one text are the same. -/
theorem closes_unique {k : Context} {body body' rest rest' : List Char} (h : Closes k body)
    (h' : Closes k body') (htext : body ++ ')' :: rest = body' ++ ')' :: rest') :
    body = body' ∧ rest = rest' := by
  have hsplit := h rest
  rw [htext, h' rest'] at hsplit
  obtain ⟨hbody, hrest⟩ := Prod.mk.inj (Option.some.inj hsplit)
  exact ⟨hbody.symm, hrest.symm⟩

/-- Inside a body the call is open. -/
theorem depth_ne_zero_of_closes {k : Context} {left right : List Char} (hk : k.depth ≠ 0)
    (h : Closes k (left ++ right)) : (k.after left).depth ≠ 0 := by
  induction left generalizing k with
  | nil => exact hk
  | cons c left ih =>
      obtain ⟨hdepth, hbody⟩ := closes_cons.mp h
      exact ih hdepth hbody

/-- The call ends where the reader started. -/
theorem step_close_of_closes {k : Context} {body : List Char} (hk : k.depth ≠ 0)
    (h : Closes k body) : (k.after body).step ')' = top := by
  induction body generalizing k with
  | nil =>
      rw [closes_nil] at h
      obtain ⟨d, m⟩ := k
      rw [after_nil]
      cases m with
      | between => exact congrArg (Context.mk · .between) h
      | argument => exact congrArg (Context.mk · .between) h
      | comment => exact absurd h hk
      | escaped => exact absurd h hk
      | quoted => exact absurd h hk
      | quotedEscape => exact absurd h hk
  | cons c body ih =>
      obtain ⟨hdepth, hbody⟩ := closes_cons.mp h
      exact ih hdepth hbody

-- ============================================================================
-- Tokens
-- ============================================================================

inductive Token where
  | argument (word : List Char)
  | separator (c : Char)
  | paren (c : Char)
deriving DecidableEq

def Token.text : Token → List Char
  | .argument word => word
  | .separator c => [c]
  | .paren c => [c]

def flatten (tokens : List Token) : List Char := tokens.flatMap Token.text

/-- The argument read so far, if there is one. -/
def flush (word : List Char) (tokens : List Token) : List Token :=
  if word = [] then tokens else .argument word :: tokens

/-- The tokens of a text of which `word` has been read into the current argument. -/
def tokensFrom : Context → List Char → List Char → List Token
  | _, word, [] => flush word []
  | k, word, c :: text =>
      if (k.step c).mode.inArgument then tokensFrom (k.step c) (word ++ [c]) text
      else
        flush word ((if (k.step c).depth = k.depth then .separator c else .paren c)
          :: tokensFrom (k.step c) [] text)

/-- The tokens of the body of a call. -/
def tokens (body : List Char) : List Token := tokensFrom inside [] body

/-- All characters belong to an argument. -/
def Runs : Mode → List Char → Prop
  | _, [] => True
  | m, c :: text => (m.step c).inArgument = true ∧ Runs (m.step c) text

/-- The text is one argument of a call. -/
structure IsArgument (word : List Char) : Prop where
  ne_nil : word ≠ []
  runs : Runs .between word
  ends : word.foldl Mode.step .between = .argument

/-- The token lists of bodies. -/
inductive Body : Context → List Token → Prop
  | nil {k : Context} (hclose : (k.step ')').depth = 0) : Body k []
  | separator {k : Context} {c : Char} {rest : List Token}
      (hmode : (k.step c).mode.inArgument = false) (hdepth : (k.step c).depth = k.depth)
      (h : Body (k.step c) rest) : Body k (.separator c :: rest)
  | paren {k : Context} {c : Char} {rest : List Token}
      (hmode : (k.step c).mode.inArgument = false) (hdepth : (k.step c).depth ≠ k.depth)
      (hopen : (k.step c).depth ≠ 0) (h : Body (k.step c) rest) : Body k (.paren c :: rest)
  | argument {k : Context} {word : List Char} {rest : List Token} (hk : k.mode = .between)
      (hword : IsArgument word) (hnext : ∀ next, rest.head? ≠ some (.argument next))
      (h : Body ⟨k.depth, .argument⟩ rest) : Body k (.argument word :: rest)

theorem runs_append {m : Mode} {left right : List Char} :
    Runs m (left ++ right) ↔ Runs m left ∧ Runs (left.foldl Mode.step m) right := by
  induction left generalizing m with
  | nil => simp [Runs]
  | cons c left ih => rw [List.cons_append, Runs, Runs, ih, List.foldl_cons, and_assoc]

/-- The nesting does not change within an argument. -/
theorem step_of_inArgument {k : Context} {c : Char} (h : (k.mode.step c).inArgument = true) :
    k.step c = ⟨k.depth, k.mode.step c⟩ := by
  have hdepth : k.depthAfter c = k.depth := by
    rw [Context.depthAfter]
    split
    · next hk =>
        have hmode : k.mode.step c = modeOf c := by
          cases hm : k.mode with
          | between => rfl
          | argument => rfl
          | comment => rw [hm] at hk; cases hk
          | escaped => rw [hm] at hk; cases hk
          | quoted => rw [hm] at hk; cases hk
          | quotedEscape => rw [hm] at hk; cases hk
        rw [hmode] at h
        split
        · next hc =>
            rw [hc] at h
            cases h
        · split
          · next hc =>
              rw [hc] at h
              cases h
          · rfl
    · rfl
  rw [Context.step, hdepth]

/-- An argument starts between arguments. -/
theorem between_of_step {m : Mode} {c : Char} (hm : m.inArgument = false)
    (h : (m.step c).inArgument = true) : m = .between := by
  cases m with
  | between => rfl
  | comment =>
      rw [Mode.step] at h
      split at h
      · cases h
      · cases h
  | argument => cases hm
  | escaped => cases hm
  | quoted => cases hm
  | quotedEscape => cases hm

/-- An argument ends outside of quotes. -/
theorem argument_of_step {m : Mode} {c : Char} (hm : m.inArgument = true)
    (h : (m.step c).inArgument = false) : m = .argument := by
  cases m with
  | between => cases hm
  | comment => cases hm
  | argument => rfl
  | escaped => cases h
  | quoted =>
      rw [Mode.step] at h
      split at h
      · cases h
      · split at h
        · cases h
        · cases h
  | quotedEscape => cases h

theorem inArgument_of_runs {m : Mode} {word : List Char} (hne : word ≠ []) (h : Runs m word) :
    (word.foldl Mode.step m).inArgument = true := by
  induction word generalizing m with
  | nil => exact absurd rfl hne
  | cons c word ih =>
      cases word with
      | nil => exact h.1
      | cons d word => exact ih (by simp) h.2

/-- The tokens of a body form a body. -/
theorem body_tokensFrom {k : Context} {text : List Char} (hk : k.depth ≠ 0)
    (h : Closes k text) :
    (k.mode.inArgument = false → Body k (tokensFrom k [] text)) ∧
      ∀ word, word ≠ [] → Runs .between word → k.mode = word.foldl Mode.step .between →
        Body ⟨k.depth, .between⟩ (tokensFrom k word text) := by
  induction text generalizing k with
  | nil =>
      have hclose := closes_nil.mp h
      refine ⟨fun _ => .nil hclose, fun word hne hruns hmode => ?_⟩
      rw [tokensFrom, flush, if_neg hne]
      have harg : k.mode.inArgument = true := by
        rw [hmode]
        exact inArgument_of_runs hne hruns
      have hmode' : (k.mode.step ')').inArgument = false := by
        by_contra hin
        rw [Bool.not_eq_false] at hin
        rw [step_of_inArgument hin] at hclose
        exact hk hclose
      have hend := argument_of_step harg hmode'
      refine .argument rfl ⟨hne, hruns, by rw [← hmode, hend]⟩ (by simp) (.nil ?_)
      rw [← hend]
      exact hclose
  | cons c text ih =>
      obtain ⟨hdepth, hrest⟩ := closes_cons.mp h
      obtain ⟨ihstart, ihword⟩ := ih hdepth hrest
      by_cases harg : (k.step c).mode.inArgument = true
      · -- the character belongs to an argument
        have hstep := step_of_inArgument harg
        have hsame : (k.step c).depth = k.depth := by rw [hstep]
        refine ⟨fun hm => ?_, fun word hne hruns hmode => ?_⟩
        · have hbetween := between_of_step hm harg
          have hbody := ihword [c] (by simp) ⟨by rw [← hbetween]; exact harg, trivial⟩
            (by rw [hstep, hbetween]; rfl)
          rw [hsame, ← hbetween] at hbody
          rw [tokensFrom, if_pos harg]
          exact hbody
        · have hbody := ihword (word ++ [c]) (by simp)
            (runs_append.mpr ⟨hruns, by rw [← hmode]; exact harg, trivial⟩)
            (by rw [hstep, List.foldl_append, ← hmode]; rfl)
          rw [hsame] at hbody
          rw [tokensFrom, if_pos harg]
          exact hbody
      · -- the character ends the argument before it
        rw [Bool.not_eq_true] at harg
        have hbody : Body k ((if (k.step c).depth = k.depth then .separator c else .paren c)
            :: tokensFrom (k.step c) [] text) := by
          split
          · next hsame => exact .separator harg hsame (ihstart harg)
          · next hdiff => exact .paren harg hdiff hdepth (ihstart harg)
        refine ⟨fun _ => ?_, fun word hne hruns hmode => ?_⟩
        · rw [tokensFrom, if_neg (by rw [harg]; simp)]
          exact hbody
        · have hin : k.mode.inArgument = true := by
            rw [hmode]
            exact inArgument_of_runs hne hruns
          have hend := argument_of_step hin harg
          rw [tokensFrom, if_neg (by rw [harg]; simp), flush, if_neg hne]
          refine .argument rfl ⟨hne, hruns, by rw [← hmode, hend]⟩ ?_ ?_
          · intro next
            split
            · simp
            · simp
          · rw [← hend]
            exact hbody

theorem body_tokens {body : List Char} (h : Closes inside body) : Body inside (tokens body) :=
  (body_tokensFrom (by decide) h).1 rfl

/-- Giving an argument another value leaves a body. -/
theorem body_set {k : Context} {pre post : List Token} {old new : List Char}
    (hnew : IsArgument new) (h : Body k (pre ++ .argument old :: post)) :
    Body k (pre ++ .argument new :: post) := by
  induction pre generalizing k with
  | nil =>
      cases h with
      | argument hk _ hnext hpost => exact .argument hk hnew hnext hpost
  | cons token pre ih =>
      cases h with
      | separator hmode hdepth hrest => exact .separator hmode hdepth (ih hrest)
      | paren hmode hdepth hopen hrest => exact .paren hmode hdepth hopen (ih hrest)
      | argument hk hword hnext hrest =>
          refine .argument hk hword (fun next => ?_) (ih hrest)
          cases pre with
          | nil => exact absurd rfl (hnext old)
          | cons first pre => exact hnext next

theorem closes_runs {k : Context} {word text : List Char} (hk : k.depth ≠ 0)
    (hruns : Runs k.mode word) (h : Closes ⟨k.depth, word.foldl Mode.step k.mode⟩ text) :
    Closes k (word ++ text) := by
  induction word generalizing k with
  | nil => exact h
  | cons c word ih =>
      have hstep := step_of_inArgument hruns.1
      rw [List.cons_append, closes_cons, hstep]
      exact ⟨hk, ih hk hruns.2 h⟩

/-- What a body is written as closes where it ends. -/
theorem closes_flatten {k : Context} {tokens : List Token} (hk : k.depth ≠ 0)
    (h : Body k tokens) : Closes k (flatten tokens) := by
  induction h with
  | nil hclose => exact closes_nil.mpr hclose
  | separator hmode hdepth hrest ih =>
      rw [← hdepth] at hk
      exact closes_cons.mpr ⟨hk, ih hk⟩
  | paren hmode hdepth hopen hrest ih => exact closes_cons.mpr ⟨hopen, ih hopen⟩
  | @argument k word rest hm hword hnext hrest ih =>
      show Closes k (word ++ flatten rest)
      refine closes_runs hk (by rw [hm]; exact hword.runs) ?_
      rw [hm, hword.ends]
      exact ih hk

theorem tokensFrom_runs {k : Context} {start word text : List Char} (h : Runs k.mode word) :
    tokensFrom k start (word ++ text)
      = tokensFrom ⟨k.depth, word.foldl Mode.step k.mode⟩ (start ++ word) text := by
  induction word generalizing k start with
  | nil => rw [List.append_nil]; rfl
  | cons c word ih =>
      have hstep := step_of_inArgument h.1
      rw [List.cons_append, tokensFrom, hstep, if_pos h.1, ih h.2, List.append_assoc]
      rfl

theorem tokensFrom_flatten {k : Context} {tokens : List Token} (h : Body k tokens)
    {word : List Char} (hword : word = [] ∨ ∀ next, tokens.head? ≠ some (.argument next)) :
    tokensFrom k word (flatten tokens) = flush word tokens := by
  induction h generalizing word with
  | nil hclose => rfl
  | @separator k c rest hmode hdepth hrest ih =>
      show tokensFrom k word (c :: flatten rest) = _
      rw [tokensFrom, if_neg (by rw [hmode]; simp), if_pos hdepth, ih (.inl rfl)]
      rfl
  | @paren k c rest hmode hdepth hopen hrest ih =>
      show tokensFrom k word (c :: flatten rest) = _
      rw [tokensFrom, if_neg (by rw [hmode]; simp), if_neg hdepth, ih (.inl rfl)]
      rfl
  | @argument k next rest hm hnext hhead hrest ih =>
      rcases hword with rfl | hword
      · show tokensFrom k [] (next ++ flatten rest) = _
        rw [tokensFrom_runs (by rw [hm]; exact hnext.runs), hm, hnext.ends, List.nil_append,
          ih (.inr hhead), flush, if_neg hnext.ne_nil]
        rfl
      · exact absurd rfl (hword next)

/-- A body is read back from what it is written as. -/
theorem tokens_flatten {list : List Token} (h : Body inside list) :
    tokens (flatten list) = list := by
  rw [tokens, tokensFrom_flatten h (.inl rfl)]
  rfl

theorem flatten_flush (word : List Char) (list : List Token) :
    flatten (flush word list) = word ++ flatten list := by
  rw [flush]
  split
  · next h => rw [h]; rfl
  · rfl

/-- The tokens of a text are its text. -/
theorem flatten_tokensFrom (k : Context) (word text : List Char) :
    flatten (tokensFrom k word text) = word ++ text := by
  induction text generalizing k word with
  | nil => exact flatten_flush word []
  | cons c text ih =>
      rw [tokensFrom]
      split
      · rw [ih, List.append_assoc]
        rfl
      · rw [flatten_flush]
        split
        · exact congrArg (word ++ c :: ·) (ih _ [])
        · exact congrArg (word ++ c :: ·) (ih _ [])

theorem flatten_tokens (body : List Char) : flatten (tokens body) = body :=
  flatten_tokensFrom inside [] body

theorem mode_after (k : Context) (text : List Char) :
    (k.after text).mode = text.foldl Mode.step k.mode := by
  induction text generalizing k with
  | nil => rfl
  | cons c text ih => exact ih (k.step c)

theorem runs_of_isPlain {k : Context} {word : List Char} (hk : k.mode.reads = true)
    (h : ∀ c ∈ word, isPlain c = true) : Runs k.mode word := by
  induction word generalizing k with
  | nil => exact trivial
  | cons c word ih =>
      have hstep := step_of_isPlain hk (h c (List.mem_cons_self ..))
      have hmode : k.mode.step c = .argument := congrArg Context.mode hstep
      rw [Runs, hmode]
      refine ⟨rfl, ?_⟩
      exact ih (k := ⟨k.depth, .argument⟩) rfl fun d hd => h d (List.mem_cons_of_mem c hd)

/-- A word of plain characters is an argument. -/
theorem isArgument_of_isPlain {word : List Char} (hne : word ≠ [])
    (h : ∀ c ∈ word, isPlain c = true) : IsArgument word where
  ne_nil := hne
  runs := runs_of_isPlain (k := top) rfl h
  ends := by
    have hmode := mode_after top word
    rw [after_of_isPlain rfl hne h] at hmode
    exact hmode.symm

-- ============================================================================
-- Keyword arguments
-- ============================================================================

/-- The value of an argument, without the quotes it may be written in. -/
def unquote : List Char → List Char
  | '"' :: word => if word.getLast? = some '"' then word.dropLast else '"' :: word
  | word => word

theorem unquote_of_isPlain {word : List Char} (h : ∀ c ∈ word, isPlain c = true) :
    unquote word = word := by
  rw [unquote.eq_def]
  split
  · next word' =>
      have hquote := h '"' (List.mem_cons_self ..)
      cases hquote
  · rfl

/-- The tokens before an argument, its text and the tokens after it. -/
abbrev Split := List Token × List Char × List Token

def Split.cons (token : Token) (split : Split) : Split := (token :: split.1, split.2)

/-- The next argument, where only separators come before it. -/
def nextArgument : List Token → Option Split
  | [] => none
  | .argument word :: rest => some ([], word, rest)
  | .separator c :: rest => (nextArgument rest).map (Split.cons (.separator c))
  | .paren _ :: _ => none

/-- The argument after a keyword. -/
def splitArgument (keyword : List Char) : List Token → Option Split
  | [] => none
  | .argument word :: rest =>
      (if unquote word = keyword then nextArgument rest else splitArgument keyword rest).map
        (Split.cons (.argument word))
  | .separator c :: rest => (splitArgument keyword rest).map (Split.cons (.separator c))
  | .paren c :: rest => (splitArgument keyword rest).map (Split.cons (.paren c))

/-- The value of a keyword. -/
def argument (keyword : List Char) (tokens : List Token) : Option (List Char) :=
  (splitArgument keyword tokens).map fun split => unquote split.2.1

/-- The second list is the first with another text for the value of a keyword. -/
def SetsArgument (keyword : List Char) (before after : List Token) : Prop :=
  ∃ pre old new post, splitArgument keyword before = some (pre, old, post) ∧
    IsArgument new ∧ after = pre ++ .argument new :: post

theorem map_cons_eq_some {token : Token} {split : Option Split} {pre post : List Token}
    {word : List Char} :
    split.map (Split.cons token) = some (pre, word, post)
      ↔ ∃ pre', split = some (pre', word, post) ∧ pre = token :: pre' := by
  cases split with
  | none => simp
  | some split =>
      obtain ⟨pre', word', post'⟩ := split
      simp only [Split.cons, Option.map_some, Option.some.injEq, Prod.mk.injEq]
      refine ⟨?_, ?_⟩
      · rintro ⟨rfl, rfl, rfl⟩
        exact ⟨pre', ⟨rfl, rfl, rfl⟩, rfl⟩
      · rintro ⟨pre'', ⟨rfl, rfl, rfl⟩, rfl⟩
        exact ⟨rfl, rfl, rfl⟩

theorem nextArgument_eq_some {list pre post : List Token} {old : List Char}
    (h : nextArgument list = some (pre, old, post)) :
    list = pre ++ .argument old :: post ∧
      ∀ new, nextArgument (pre ++ .argument new :: post) = some (pre, new, post) := by
  induction list generalizing pre with
  | nil => cases h
  | cons token list ih =>
      cases token with
      | argument word =>
          obtain ⟨rfl, heq⟩ := Prod.mk.inj (Option.some.inj h)
          obtain ⟨rfl, rfl⟩ := Prod.mk.inj heq
          exact ⟨rfl, fun _ => rfl⟩
      | separator c =>
          obtain ⟨pre', hrest, rfl⟩ := map_cons_eq_some.mp h
          obtain ⟨rfl, hset⟩ := ih hrest
          exact ⟨rfl, fun new => map_cons_eq_some.mpr ⟨pre', hset new, rfl⟩⟩
      | paren c => cases h

/-- A keyword keeps its place when its value changes. -/
theorem splitArgument_eq_some {keyword : List Char} {list pre post : List Token}
    {old : List Char} (h : splitArgument keyword list = some (pre, old, post)) :
    list = pre ++ .argument old :: post ∧
      ∀ new, splitArgument keyword (pre ++ .argument new :: post) = some (pre, new, post) := by
  induction list generalizing pre with
  | nil => cases h
  | cons token list ih =>
      cases token with
      | argument word =>
          obtain ⟨pre', hrest, rfl⟩ := map_cons_eq_some.mp h
          split at hrest
          · next hword =>
              obtain ⟨rfl, hset⟩ := nextArgument_eq_some hrest
              refine ⟨rfl, fun new => map_cons_eq_some.mpr ⟨pre', ?_, rfl⟩⟩
              rw [if_pos hword]
              exact hset new
          · next hword =>
              obtain ⟨rfl, hset⟩ := ih hrest
              refine ⟨rfl, fun new => map_cons_eq_some.mpr ⟨pre', ?_, rfl⟩⟩
              rw [if_neg hword]
              exact hset new
      | separator c =>
          obtain ⟨pre', hrest, rfl⟩ := map_cons_eq_some.mp h
          obtain ⟨rfl, hset⟩ := ih hrest
          exact ⟨rfl, fun new => map_cons_eq_some.mpr ⟨pre', hset new, rfl⟩⟩
      | paren c =>
          obtain ⟨pre', hrest, rfl⟩ := map_cons_eq_some.mp h
          obtain ⟨rfl, hset⟩ := ih hrest
          exact ⟨rfl, fun new => map_cons_eq_some.mpr ⟨pre', hset new, rfl⟩⟩

theorem argument_eq_some {keyword value : List Char} {list : List Token} :
    argument keyword list = some value
      ↔ ∃ pre word post, splitArgument keyword list = some (pre, word, post) ∧
          unquote word = value := by
  rw [argument, Option.map_eq_some_iff]
  refine ⟨?_, ?_⟩
  · rintro ⟨⟨pre, word, post⟩, hsplit, hvalue⟩
    exact ⟨pre, word, post, hsplit, hvalue⟩
  · rintro ⟨pre, word, post, hsplit, hvalue⟩
    exact ⟨(pre, word, post), hsplit, hvalue⟩

theorem body_of_setsArgument {keyword : List Char} {k : Context} {before after : List Token}
    (h : SetsArgument keyword before after) (hbody : Body k before) : Body k after := by
  obtain ⟨pre, old, new, post, hsplit, hnew, rfl⟩ := h
  rw [(splitArgument_eq_some hsplit).1] at hbody
  exact body_set hnew hbody

theorem isArgument_of_body {k : Context} {pre post : List Token} {word : List Char}
    (h : Body k (pre ++ .argument word :: post)) : IsArgument word := by
  induction pre generalizing k with
  | nil =>
      cases h with
      | argument _ hword _ _ => exact hword
  | cons token pre ih =>
      cases h with
      | separator _ _ hrest => exact ih hrest
      | paren _ _ _ hrest => exact ih hrest
      | argument _ _ _ hrest => exact ih hrest

/-- A value may be set to the text that it has. -/
theorem setsArgument_self {keyword value : List Char} {k : Context} {list : List Token}
    (hbody : Body k list) (h : argument keyword list = some value) :
    SetsArgument keyword list list := by
  obtain ⟨pre, word, post, hsplit, -⟩ := argument_eq_some.mp h
  obtain ⟨hlist, -⟩ := splitArgument_eq_some hsplit
  rw [hlist] at hbody
  exact ⟨pre, word, word, post, hsplit, isArgument_of_body hbody, hlist⟩

/-- Separators as tokens. -/
def separators (gap : List Char) : List Token := gap.map Token.separator

theorem flatten_separators (gap : List Char) : flatten (separators gap) = gap := by
  induction gap with
  | nil => rfl
  | cons c gap ih => exact congrArg (c :: ·) ih

theorem flatten_append (left right : List Token) :
    flatten (left ++ right) = flatten left ++ flatten right := List.flatMap_append ..

theorem flatten_argument (word : List Char) (rest : List Token) :
    flatten (.argument word :: rest) = word ++ flatten rest := rfl

theorem nextArgument_separators (gap word : List Char) (post : List Token) :
    nextArgument (separators gap ++ .argument word :: post)
      = some (separators gap, word, post) := by
  induction gap with
  | nil => rfl
  | cons c gap ih => exact map_cons_eq_some.mpr ⟨separators gap, ih, rfl⟩

/-- The first token that is the keyword is where its value is looked up. -/
theorem splitArgument_keyword {keyword : List Char} (hkeyword : unquote keyword = keyword)
    {pre : List Token} (hpre : ∀ word, .argument word ∈ pre → unquote word ≠ keyword)
    (gap word : List Char) (post : List Token) :
    splitArgument keyword
        (pre ++ .argument keyword :: (separators gap ++ .argument word :: post))
      = some (pre ++ .argument keyword :: separators gap, word, post) := by
  induction pre with
  | nil =>
      refine map_cons_eq_some.mpr ⟨separators gap, ?_, rfl⟩
      rw [if_pos hkeyword]
      exact nextArgument_separators gap word post
  | cons token pre ih =>
      have hrest := ih fun word hmem => hpre word (List.mem_cons_of_mem token hmem)
      cases token with
      | argument first =>
          refine map_cons_eq_some.mpr ⟨_, ?_, rfl⟩
          rw [if_neg (hpre first (List.mem_cons_self ..))]
          exact hrest
      | separator c => exact map_cons_eq_some.mpr ⟨_, hrest, rfl⟩
      | paren c => exact map_cons_eq_some.mpr ⟨_, hrest, rfl⟩

end CMake
