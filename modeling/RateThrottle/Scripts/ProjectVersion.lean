/-
  RateThrottle.Scripts.ProjectVersion

  What the bump of CMakeLists.txt is for: the first project() call of the file
  carries the new version, and nothing else has changed (`VersionBumped`).

  The script edits the leftmost text of the form `project( ... )` up to its first
  closing parenthesis, and in it the leftmost `VERSION` with a value after it;
  where there is no such value it writes the file back as it was.  On a file
  where these are the call and its argument (`PlainProject`), the bump does its
  work exactly when there was a value to replace or none was needed
  (`versionBumped_iff`).
-/

import RateThrottle.Library.CMakeCalls
import RateThrottle.Scripts.UpdatePackageFiles

namespace RateThrottle.Scripts

open Pattern CMake

/-- The words that both the script and CMake read as one value. -/
structure IsWord (word : Text) : Prop where
  ne_nil : word ≠ []
  nonSpace : ∀ c ∈ word, nonSpace c = true
  plain : ∀ c ∈ word, isPlain c = true

instance (word : Text) : Decidable (IsWord word) :=
  decidable_of_iff (word ≠ [] ∧ word.all Scripts.nonSpace = true ∧ word.all isPlain = true)
    ⟨fun h => ⟨h.1, List.all_eq_true.mp h.2.1, List.all_eq_true.mp h.2.2⟩,
      fun h => ⟨h.ne_nil, List.all_eq_true.mpr h.nonSpace, List.all_eq_true.mpr h.plain⟩⟩

theorem IsWord.isArgument {word : Text} (h : IsWord word) : IsArgument word :=
  isArgument_of_isPlain h.ne_nil h.plain

theorem IsWord.not_mem {word : Text} (h : IsWord word) : '\\' ∉ word := by
  intro hmem
  have hplain := h.plain _ hmem
  cases hplain

-- ============================================================================
-- The purpose of the step
-- ============================================================================

/-- The body carries the version, in the place of the value it had before. -/
def VersionSet (version body body' : Text) : Prop :=
  ∃ list, SetsArgument (text "VERSION") (tokens body) list ∧
    argument (text "VERSION") list = some version ∧ body' = flatten list

/-- The first project() call carries the version; all other text is unchanged. -/
def VersionBumped (version content content' : Text) : Prop :=
  ∃ before gap body body' rest, FirstCall (text "project") content before gap body rest ∧
    VersionSet version body body' ∧
    content' = before ++ callText (text "project") gap body' rest

/-- The leftmost text that the script takes for a project() call is one, and the
    value that it replaces there is the value of the argument VERSION, which
    stands one space after it. -/
def PlainProject (content : Text) : Prop :=
  ∀ before pieces rest, search projectRe content = some (before, pieces, rest) →
    top.after before = top ∧
    ∃ gap body rest', callAt (text "project") (pieces.flatten ++ rest) = some (gap, body, rest') ∧
      ∀ left found right, search versionRe pieces.flatten = some (left, found, right) →
        ∃ pre value post, splitArgument (text "VERSION") (tokens body) = some (pre, value, post) ∧
          left ++ text "VERSION " = text "project" ++ (gap ++ '(' :: flatten pre) ∧
          found.flatten = text "VERSION " ++ value

/-- The script finds a value to replace, or the call carries the version already. -/
def VersionReached (version content : Text) : Prop :=
  ∃ before pieces rest, search projectRe content = some (before, pieces, rest) ∧
    ((search versionRe pieces.flatten).isSome = true ∨
      ∃ gap body rest', callAt (text "project") (pieces.flatten ++ rest) = some (gap, body, rest') ∧
        argument (text "VERSION") (tokens body) = some version)

-- ============================================================================
-- The leftmost match is the first call
-- ============================================================================

theorem isSpace_of_isBlank {c : Char} (h : isBlank c = true) : isSpace c = true := by
  rw [isBlank, Bool.or_eq_true, decide_eq_true_eq, decide_eq_true_eq] at h
  rcases h with rfl | rfl
  · rfl
  · rfl

/-- Every project() call is matched. -/
theorem matchPrefix_projectRe_ne_none {content gap body rest : Text}
    (h : callAt (text "project") content = some (gap, body, rest)) :
    matchPrefix projectRe content ≠ none := by
  obtain ⟨rfl, hgap, -⟩ := callAt_eq_some.mp h
  -- the match ends at the first closing parenthesis
  have hmem : ')' ∈ body ++ ')' :: rest := by simp
  obtain ⟨args, after, hsplit, hargs⟩ := List.eq_append_cons_of_mem hmem
  have hstar : matchPrefix [.star (· ≠ ')'), .lit (text ")")] (args ++ ')' :: after)
      = some ([args, text ")"], after) := by
    refine matchPrefix_star (fun c hc => ?_) (stops_cons rfl after) ?_
    · exact decide_eq_true fun heq => hargs (heq ▸ hc)
    · exact matchPrefix_lit (text ")") [] after
  have hgaps : ∀ c ∈ gap, isSpace c = true := fun c hc => isSpace_of_isBlank (hgap c hc)
  have hopen : matchPrefix [.lit (text "("), .star (· ≠ ')'), .lit (text ")")]
      ('(' :: (body ++ ')' :: rest)) = some ([text "(", args, text ")"], after) := by
    show matchPrefix _ (text "(" ++ (body ++ ')' :: rest)) = _
    rw [matchPrefix_lit, hsplit, hstar]
    rfl
  rw [callText, projectRe, matchPrefix_lit, matchPrefix_star hgaps (stops_cons rfl _) hopen]
  simp

/-- Where the leftmost match is a call, it is the first one. -/
theorem firstCall_of_search {content before rest gap body rest' : Text} {pieces : List Text}
    (hsearch : search projectRe content = some (before, pieces, rest))
    (htop : top.after before = top)
    (hcall : callAt (text "project") (pieces.flatten ++ rest) = some (gap, body, rest')) :
    FirstCall (text "project") content before gap body rest' := by
  obtain ⟨found, hcontent, hmatch, hleftmost⟩ := search_eq_some_iff.mp hsearch
  obtain ⟨hfound, -⟩ := matchPrefix_sound hmatch
  rw [← hfound] at hcall
  obtain ⟨htext, -, -⟩ := callAt_eq_some.mp hcall
  rw [htext] at hcontent hcall
  refine ⟨htop, hcontent, hcall, fun left right hsplit hne _ => ?_⟩
  by_contra hsome
  obtain ⟨⟨gap', body', rest''⟩, hearlier⟩ := Option.ne_none_iff_exists'.mp hsome
  rw [← htext] at hearlier
  exact matchPrefix_projectRe_ne_none hearlier (hleftmost left right hsplit hne)

-- ============================================================================
-- The edit
-- ============================================================================

/-- Writing the value of a keyword changes the body in one place. -/
theorem versionSet_of_split {version body : Text} {pre post : List Token} {value : Text}
    (hword : IsWord version)
    (hsplit : splitArgument (text "VERSION") (tokens body) = some (pre, value, post)) :
    VersionSet version body (flatten pre ++ (version ++ flatten post)) := by
  refine ⟨pre ++ .argument version :: post, ⟨pre, value, version, post, hsplit,
    hword.isArgument, rfl⟩, ?_, ?_⟩
  · rw [argument_eq_some]
    exact ⟨pre, version, post, (splitArgument_eq_some hsplit).2 version,
      unquote_of_isPlain hword.plain⟩
  · simp [flatten, Token.text]

/-- A body that needs no edit carries the version. -/
theorem versionSet_self {version body : Text} (hbody : Closes inside body) :
    VersionSet version body body ↔ argument (text "VERSION") (tokens body) = some version := by
  refine ⟨?_, ?_⟩
  · rintro ⟨list, hset, hversion, hflatten⟩
    have hlist := tokens_flatten (body_of_setsArgument hset (body_tokens hbody))
    rw [← hflatten] at hlist
    rw [hlist]
    exact hversion
  · intro hversion
    exact ⟨tokens body, setsArgument_self (body_tokens hbody) hversion, hversion,
      (flatten_tokens body).symm⟩

/-- Where the value of VERSION is found, the matched text with the new value is
    the call with the new value. -/
theorem call_of_search {version gap body rest rest' left right value : Text}
    {pieces found : List Text} {pre post : List Token}
    (htext : pieces.flatten ++ rest = callText (text "project") gap body rest')
    (hfound : search versionRe pieces.flatten = some (left, found, right))
    (hsplit : splitArgument (text "VERSION") (tokens body) = some (pre, value, post))
    (hleft : left ++ text "VERSION " = text "project" ++ (gap ++ '(' :: flatten pre))
    (hvalue : found.flatten = text "VERSION " ++ value) :
    (left ++ ((text "VERSION " ++ version) ++ right)) ++ rest
      = callText (text "project") gap (flatten pre ++ (version ++ flatten post)) rest' := by
  have hbody : body = flatten pre ++ (value ++ flatten post) := by
    rw [← flatten_tokens body, (splitArgument_eq_some hsplit).1]
    simp [flatten, Token.text]
  obtain ⟨suffix, hpieces, hmatch, -⟩ := search_eq_some_iff.mp hfound
  obtain ⟨hsuffix, -⟩ := matchPrefix_sound hmatch
  have hright : right ++ rest = flatten post ++ ')' :: rest' := by
    rw [hpieces, hsuffix, hvalue, hbody, callText] at htext
    have hcancel : (left ++ text "VERSION ") ++ (value ++ (right ++ rest))
        = (text "project" ++ (gap ++ '(' :: flatten pre)) ++ (value ++ (flatten post ++ ')' :: rest')) := by
      simpa using htext
    rw [hleft] at hcancel
    exact List.append_cancel_left (List.append_cancel_left hcancel)
  calc (left ++ ((text "VERSION " ++ version) ++ right)) ++ rest
      = (left ++ text "VERSION ") ++ (version ++ (right ++ rest)) := by simp
    _ = callText (text "project") gap (flatten pre ++ (version ++ flatten post)) rest' := by
        rw [hleft, hright, callText]
        simp

/-- On a plain file the bump is complete exactly when it finds a value to
    replace or the call carries the version already. -/
theorem versionBumped_iff {args : Arguments} {content content' : Text}
    (hword : IsWord args.version) (hplain : PlainProject content)
    (h : bumpCMakeLists args content = .ok content') :
    VersionBumped args.version content content' ↔ VersionReached args.version content := by
  rw [bumpCMakeLists] at h
  split at h
  · cases h
  next before pieces rest hsearch =>
  split at h
  · cases h
  next call hbump =>
  cases h
  obtain ⟨htop, gap, body, rest', hcall, hversion⟩ := hplain before pieces rest hsearch
  have hfirst := firstCall_of_search hsearch htop hcall
  obtain ⟨htext, -, hbody⟩ := callAt_eq_some.mp hcall
  have hslash : '\\' ∉ text "VERSION " ++ args.version := by
    rw [List.mem_append, not_or]
    exact ⟨by decide, hword.not_mem⟩
  -- both sides speak about the same call
  have hbumped : VersionBumped args.version content (before ++ (call ++ rest))
      ↔ ∃ body', VersionSet args.version body body' ∧
          call ++ rest = callText (text "project") gap body' rest' := by
    refine ⟨?_, ?_⟩
    · rintro ⟨before', gap', body', body'', rest'', hfirst', hset, heq⟩
      obtain ⟨rfl, rfl, rfl, rfl⟩ := firstCall_unique hfirst hfirst'
      exact ⟨body'', hset, List.append_cancel_left heq⟩
    · rintro ⟨body', hset, heq⟩
      exact ⟨before, gap, body, body', rest', hfirst, hset, by rw [heq]⟩
  have hreached : VersionReached args.version content
      ↔ (search versionRe pieces.flatten).isSome = true ∨
        argument (text "VERSION") (tokens body) = some args.version := by
    refine ⟨?_, ?_⟩
    · rintro ⟨before', pieces', rest'', hsearch', hcases⟩
      rw [hsearch] at hsearch'
      cases hsearch'
      rcases hcases with hsome | ⟨gap', body', rest'', hcall', hversion'⟩
      · exact Or.inl hsome
      · rw [hcall] at hcall'
        cases hcall'
        exact Or.inr hversion'
    · rintro (hsome | hversion')
      · exact ⟨before, pieces, rest, hsearch, Or.inl hsome⟩
      · exact ⟨before, pieces, rest, hsearch, Or.inr ⟨gap, body, rest', hcall, hversion'⟩⟩
  rw [hbumped, hreached]
  cases hfound : search versionRe pieces.flatten with
  | none =>
      rw [bumpProjectVersion, subOnce_of_search_eq_none hslash hfound] at hbump
      obtain rfl := Option.some.inj hbump
      rw [htext, ← versionSet_self hbody]
      refine ⟨?_, ?_⟩
      · rintro ⟨body', hset, heq⟩
        rw [← callText_inj heq] at hset
        exact Or.inr hset
      · rintro (hsome | hset)
        · cases hsome
        · exact ⟨body, hset, rfl⟩
  | some split =>
      obtain ⟨left, found, right⟩ := split
      obtain ⟨pre, value, post, hsplit, hleft, hvalue⟩ := hversion left found right hfound
      rw [bumpProjectVersion, subOnce_of_search hslash hfound] at hbump
      obtain rfl := Option.some.inj hbump
      refine ⟨?_, ?_⟩
      · intro _
        exact Or.inl rfl
      · intro _
        exact ⟨_, versionSet_of_split hword hsplit,
          call_of_search htext hfound hsplit hleft hvalue⟩

end RateThrottle.Scripts
