/-
  RateThrottle.Scripts.VersionRerun

  A second bump of CMakeLists.txt and of conanfile.py.

  The script looks for the version by its shape, so a second run finds the
  version that the first one has written, and replaces it by itself.  There is
  one exception: in CMakeLists.txt a version is a run of letters, digits, dots,
  hyphens and underscores.  Of a version with any other character, such as a
  plus sign, the second run replaces only the part before that character, and
  what follows stands twice (`bumpCMakeLists_again`).
-/

import Mathlib.Data.List.TakeWhile
import RateThrottle.Library.Rewriting
import RateThrottle.Scripts.FailedBump
import RateThrottle.Scripts.ProjectVersion

namespace RateThrottle.Scripts

open Pattern

-- ============================================================================
-- CMakeLists.txt
-- ============================================================================

theorem matchPrefix_projectRe {gap args : Text} (hgap : ∀ c ∈ gap, isSpace c = true)
    (hargs : ')' ∉ args) (rest : Text) :
    matchPrefix projectRe (text "project" ++ (gap ++ (text "(" ++ (args ++ ')' :: rest))))
      = some ([text "project", gap, text "(", args, text ")"], rest) := by
  have hclose : matchPrefix [.lit (text ")")] (')' :: rest) = some ([text ")"], rest) :=
    matchPrefix_lit (text ")") [] rest
  have hstar : matchPrefix [.star (· ≠ ')'), .lit (text ")")] (args ++ ')' :: rest)
      = some ([args, text ")"], rest) := by
    refine matchPrefix_star (fun c hc => ?_) (stops_cons rfl rest) hclose
    exact decide_eq_true fun heq => hargs (heq ▸ hc)
  have hopen : matchPrefix [.lit (text "("), .star (· ≠ ')'), .lit (text ")")]
      (text "(" ++ (args ++ ')' :: rest)) = some ([text "(", args, text ")"], rest) := by
    rw [matchPrefix_lit, hstar]
    rfl
  have hstop : Stops isSpace (text "(" ++ (args ++ ')' :: rest)) := stops_cons rfl _
  rw [projectRe, matchPrefix_lit, matchPrefix_star hgap hstop hopen]
  rfl

/-- The parts of a match. -/
theorem project_of_matchPrefix {content rest : Text} {pieces : List Text}
    (h : matchPrefix projectRe content = some (pieces, rest)) :
    ∃ gap args, pieces = [text "project", gap, text "(", args, text ")"] ∧
      (∀ c ∈ gap, isSpace c = true) ∧ ')' ∉ args ∧
      content = text "project" ++ (gap ++ (text "(" ++ (args ++ ')' :: rest))) := by
  obtain ⟨hcontent, hpieces⟩ := matchPrefix_sound h
  rw [projectRe] at hpieces
  obtain _ | ⟨rfl, _ | ⟨hgap, _ | ⟨rfl, _ | ⟨hargs, _ | ⟨rfl, hnil⟩⟩⟩⟩⟩ := hpieces
  cases hnil
  refine ⟨_, _, rfl, hgap, fun hmem => ?_, ?_⟩
  · exact absurd rfl (of_decide_eq_true (hargs ')' hmem))
  · rw [hcontent]
    simp [text]

/-- A match that starts before a text with a `p` at its start does not depend on
    the text, as long as there is a closing parenthesis in it. -/
theorem projectRe_before {right x y : Text} (hne : right ≠ []) (hclose : ')' ∈ y)
    (h : matchPrefix projectRe (right ++ 'p' :: x) ≠ none) :
    matchPrefix projectRe (right ++ 'p' :: y) ≠ none := by
  obtain ⟨⟨pieces, rest⟩, hmatch⟩ := Option.ne_none_iff_exists'.mp h
  obtain ⟨gap, args, -, hgap, -, hcontent⟩ := project_of_matchPrefix hmatch
  obtain ⟨c, right, rfl⟩ := List.exists_cons_of_ne_nil hne
  have hproject : text "project" = 'p' :: text "roject" := rfl
  rw [hproject, List.cons_append, List.cons_append] at hcontent
  obtain ⟨rfl, hright⟩ := List.cons.inj hcontent
  have hword : 'p' ∉ text "roject" ++ (gap ++ text "(") := by
    rw [List.mem_append, List.mem_append, not_or, not_or]
    refine ⟨by decide, fun hmem => ?_, by decide⟩
    have hspace := hgap _ hmem
    cases hspace
  obtain ⟨right', rfl, -⟩ := append_of_not_mem hword (by simpa using hright)
  have hmem : ')' ∈ right' ++ 'p' :: y := by simp [hclose]
  obtain ⟨args', after, hsplit, hargs⟩ := List.eq_append_cons_of_mem hmem
  have hfound := matchPrefix_projectRe hgap hargs after
  rw [← hsplit, hproject] at hfound
  have heq : ('p' :: (text "roject" ++ (gap ++ text "(") ++ right')) ++ 'p' :: y
      = 'p' :: text "roject" ++ (gap ++ (text "(" ++ (right' ++ 'p' :: y))) := by simp
  rw [heq, hfound]
  simp

theorem range_of_versionChar {c : Char} (h : versionChar c = true) :
    45 ≤ c.toNat ∧ c.toNat ≤ 122 := by
  delta versionChar Char.isAlphanum Char.isAlpha Char.isUpper Char.isLower Char.isDigit at h
  simp only [Bool.or_eq_true, Bool.and_eq_true, decide_eq_true_eq, ge_iff_le,
    UInt32.le_iff_toNat_le] at h
  rcases h with ((((h | h) | h) | rfl) | rfl) | rfl
  · exact ⟨Nat.le_trans (by decide) h.1, Nat.le_trans h.2 (by decide)⟩
  · exact ⟨Nat.le_trans (by decide) h.1, Nat.le_trans h.2 (by decide)⟩
  · exact ⟨Nat.le_trans (by decide) h.1, Nat.le_trans h.2 (by decide)⟩
  · decide
  · decide
  · decide

theorem not_isSpace_of_versionChar {c : Char} (h : versionChar c = true) : isSpace c = false := by
  obtain ⟨hlow, hhigh⟩ := range_of_versionChar h
  simp only [isSpace, Bool.or_eq_false_iff, Bool.and_eq_false_iff, decide_eq_false_iff_not,
    beq_eq_false_iff_ne]
  omega
theorem matchPrefix_versionRe {gap value rest : Text}
    (hgap : gap ≠ [] ∧ ∀ c ∈ gap, isSpace c = true)
    (hvalue : value ≠ [] ∧ ∀ c ∈ value, versionChar c = true) (hstop : Stops versionChar rest) :
    matchPrefix versionRe (text "VERSION" ++ (gap ++ (value ++ rest)))
      = some ([text "VERSION", gap, value], rest) := by
  have hlast : matchPrefix [.plus versionChar] (value ++ rest) = some ([value], rest) :=
    matchPrefix_plus hvalue.1 hvalue.2 hstop rfl
  have hstart : Stops isSpace (value ++ rest) := by
    obtain ⟨c, value, rfl⟩ := List.exists_cons_of_ne_nil hvalue.1
    exact stops_cons (not_isSpace_of_versionChar (hvalue.2 c (List.mem_cons_self ..))) _
  rw [versionRe, matchPrefix_lit, matchPrefix_plus hgap.1 hgap.2 hstart hlast]
  rfl

/-- The parts of a match; the value is as long as it can be. -/
theorem version_of_matchPrefix {content rest : Text} {pieces : List Text}
    (h : matchPrefix versionRe content = some (pieces, rest)) :
    ∃ gap value, pieces = [text "VERSION", gap, value] ∧
      (gap ≠ [] ∧ ∀ c ∈ gap, isSpace c = true) ∧
      (value ≠ [] ∧ ∀ c ∈ value, versionChar c = true) ∧ Stops versionChar rest ∧
      content = text "VERSION" ++ (gap ++ (value ++ rest)) := by
  obtain ⟨hcontent, hpieces⟩ := matchPrefix_sound h
  rw [versionRe] at hpieces
  obtain _ | ⟨rfl, _ | ⟨hgap, _ | ⟨hvalue, hnil⟩⟩⟩ := hpieces
  cases hnil
  rename_i gap value
  have hsplit : content = text "VERSION" ++ (gap ++ (value ++ rest)) := by
    rw [hcontent]
    simp
  refine ⟨gap, value, rfl, hgap, hvalue, ?_, hsplit⟩
  -- the whole run of version characters is a value too, and the engine takes it
  obtain ⟨c, value, rfl⟩ := List.exists_cons_of_ne_nil hvalue.1
  have hc := hvalue.2 c (List.mem_cons_self ..)
  have hchars : ((c :: value) ++ rest).takeWhile versionChar ≠ [] ∧
      ∀ d ∈ ((c :: value) ++ rest).takeWhile versionChar, versionChar d = true :=
    ⟨by simp [hc], List.all_eq_true.mp List.all_takeWhile⟩
  have hrun := matchPrefix_versionRe hgap hchars (stops_dropWhile versionChar ((c :: value) ++ rest))
  rw [List.takeWhile_append_dropWhile, ← hsplit, h] at hrun
  obtain ⟨-, hrest⟩ := Prod.mk.inj (Option.some.inj hrun)
  rw [hrest]
  exact stops_dropWhile _ _

/-- A match that starts before a text with a `V` at its start does not depend on
    the text. -/
theorem versionRe_before {right x y : Text} (hne : right ≠ [])
    (h : matchPrefix versionRe (right ++ 'V' :: x) ≠ none) :
    matchPrefix versionRe (right ++ 'V' :: y) ≠ none := by
  obtain ⟨⟨pieces, rest⟩, hmatch⟩ := Option.ne_none_iff_exists'.mp h
  obtain ⟨gap, value, -, hgap, hvalue, -, hcontent⟩ := version_of_matchPrefix hmatch
  obtain ⟨c, right, rfl⟩ := List.exists_cons_of_ne_nil hne
  have hversion : text "VERSION" = 'V' :: text "ERSION" := rfl
  rw [hversion, List.cons_append, List.cons_append] at hcontent
  obtain ⟨rfl, hright⟩ := List.cons.inj hcontent
  have hword : 'V' ∉ text "ERSION" ++ gap := by
    rw [List.mem_append, not_or]
    refine ⟨by decide, fun hmem => ?_⟩
    have hspace := hgap.2 _ hmem
    cases hspace
  obtain ⟨right', rfl, hrest⟩ := append_of_not_mem hword (by simpa using hright)
  -- the first character of the value is the first one of what follows the gap
  obtain ⟨d, value, rfl⟩ := List.exists_cons_of_ne_nil hvalue.1
  have hd := hvalue.2 d (List.mem_cons_self ..)
  have hfirst : ∃ after, right' ++ 'V' :: y = d :: after := by
    cases right' with
    | nil =>
        obtain ⟨rfl, -⟩ := List.cons.inj hrest
        exact ⟨y, rfl⟩
    | cons e right' =>
        obtain ⟨rfl, -⟩ := List.cons.inj hrest
        exact ⟨_, rfl⟩
  obtain ⟨after, hafter⟩ := hfirst
  have haccepts : List.Forall₂ Atom.Accepts versionRe [text "VERSION", gap, [d]] :=
    .cons rfl (.cons hgap (.cons ⟨by simp, by simpa using hd⟩ .nil))
  have hfound := matchPrefix_ne_none haccepts after
  have heq : ('V' :: (text "ERSION" ++ gap ++ right')) ++ 'V' :: y
      = [text "VERSION", gap, [d]].flatten ++ after := by
    rw [hversion]
    simp [hafter]
  rw [heq]
  exact hfound

/-- Where the version stands in the call: after the opening parenthesis, and
    before the closing one. -/
theorem split_of_search {content rest left right : Text} {pieces found : List Text}
    (hmatch : matchPrefix projectRe content = some (pieces, rest))
    (hfound : search versionRe pieces.flatten = some (left, found, right)) :
    ∃ gap args, (∀ c ∈ gap, isSpace c = true) ∧ ')' ∉ args ∧
      left = text "project" ++ (gap ++ (text "(" ++ args)) ∧ ')' ∈ right := by
  obtain ⟨gap, args, rfl, hgap, hargs, -⟩ := project_of_matchPrefix hmatch
  obtain ⟨suffix, hsplit, hversion, -⟩ := search_eq_some_iff.mp hfound
  obtain ⟨vgap, value, -, ⟨-, hvgap⟩, ⟨-, hvalue⟩, -, rfl⟩ := version_of_matchPrefix hversion
  have hcall : left ++ 'V' :: (text "ERSION" ++ (vgap ++ (value ++ right)))
      = (text "project" ++ (gap ++ text "(")) ++ (args ++ text ")") := by
    have hversion : text "VERSION" = 'V' :: text "ERSION" := rfl
    rw [hversion, List.cons_append] at hsplit
    rw [← hsplit]
    simp
  have hword : 'V' ∉ text "project" ++ (gap ++ text "(") := by
    rw [List.mem_append, List.mem_append, not_or, not_or]
    refine ⟨by decide, fun hmem => ?_, by decide⟩
    have hspace := hgap _ hmem
    cases hspace
  obtain ⟨args', rfl, hbody⟩ := append_of_not_mem hword hcall
  -- what follows `VERSION` has the closing parenthesis, so what stands before it has none
  have hargs' : ')' ∉ args' := by
    intro hmem
    rcases List.append_eq_append_iff.mp hbody with ⟨middle, -, hclose⟩ | ⟨middle, rfl, -⟩
    · have hlength := congrArg List.length hclose
      have hone : (text ")").length = 1 := rfl
      rw [hone, List.length_append, List.length_cons, List.length_append] at hlength
      have hpos : 0 < (text "ERSION").length := by decide
      omega
    · exact hargs (List.mem_append_left _ hmem)
  refine ⟨gap, args', hgap, hargs', by simp, ?_⟩
  have hmem : ')' ∈ args ++ text ")" := List.mem_append_right _ (List.mem_singleton_self _)
  rw [hbody] at hmem
  simp only [List.mem_append, List.mem_cons, hargs', false_or] at hmem
  rcases hmem with hmem | hmem | hmem | hmem | hmem
  · cases hmem
  · exact absurd hmem (by decide)
  · exact nomatch hvgap _ hmem
  · exact nomatch hvalue _ hmem
  · exact hmem

/-- The leftmost `VERSION` is found again when its value and what follows change. -/
theorem search_version_again {t left right word tail : Text} {found : List Text}
    (h : search versionRe t = some (left, found, right))
    (hword : word ≠ [] ∧ ∀ c ∈ word, versionChar c = true) (hstop : Stops versionChar tail) :
    search versionRe (left ++ (text "VERSION " ++ (word ++ tail)))
      = some (left, [text "VERSION", text " ", word], tail) := by
  obtain ⟨suffix, -, hmatch, -⟩ := search_eq_some_iff.mp h
  obtain ⟨hsuffix, -⟩ := matchPrefix_sound hmatch
  obtain ⟨gap, value, -, -, -, -, hversion⟩ := version_of_matchPrefix hmatch
  have hspace : text "VERSION " = text "VERSION" ++ text " " := rfl
  have hgap : text " " ≠ [] ∧ ∀ c ∈ text " ", isSpace c = true :=
    ⟨by decide, List.all_eq_true.mp rfl⟩
  have hagain := matchPrefix_versionRe hgap hword hstop
  rw [← List.append_assoc, ← hspace] at hagain
  refine search_replaced h hagain fun right' hne hbefore => ?_
  rw [← hsuffix, hversion]
  exact versionRe_before hne hbefore

/-- The leftmost project() text is found again when what stands in it changes. -/
theorem search_project_again {content before rest gap args : Text} {pieces : List Text}
    (h : search projectRe content = some (before, pieces, rest))
    (hgap : ∀ c ∈ gap, isSpace c = true) (hargs : ')' ∉ args) (after : Text) :
    search projectRe (before ++ (text "project" ++ (gap ++ (text "(" ++ (args ++ ')' :: after)))))
      = some (before, [text "project", gap, text "(", args, text ")"], after) := by
  obtain ⟨found, -, hmatch, -⟩ := search_eq_some_iff.mp h
  obtain ⟨hfound, -⟩ := matchPrefix_sound hmatch
  obtain ⟨gap', args', -, -, -, hproject⟩ := project_of_matchPrefix hmatch
  refine search_replaced h (matchPrefix_projectRe hgap hargs after) fun right hne hbefore => ?_
  rw [← hfound, hproject]
  exact projectRe_before hne (by simp) hbefore

/-- A version that the scripts may have: it starts with a character of the
    pattern for versions. -/
structure Release (version : Text) : Prop where
  starts : ∃ c tail, version = c :: tail ∧ versionChar c = true
  plain : '\\' ∉ version ∧ '"' ∉ version ∧ '\r' ∉ version

theorem not_mem_versionTemplate {version : Text} (hslash : '\\' ∉ version) :
    '\\' ∉ text "VERSION " ++ version := by
  rw [List.mem_append, not_or]
  exact ⟨by decide, hslash⟩

/-- A project() text without a version is written back. -/
theorem bumpCMakeLists_of_none {args : Arguments} {content before rest : Text}
    {pieces : List Text} (hslash : '\\' ∉ args.version)
    (hsearch : search projectRe content = some (before, pieces, rest))
    (hfound : search versionRe pieces.flatten = none) :
    bumpCMakeLists args content = .ok content := by
  obtain ⟨found, hcontent, hmatch, -⟩ := search_eq_some_iff.mp hsearch
  obtain ⟨rfl, -⟩ := matchPrefix_sound hmatch
  rw [bumpCMakeLists, hsearch]
  simp only [bumpProjectVersion,
    subOnce_of_search_eq_none (not_mem_versionTemplate hslash) hfound]
  rw [hcontent]

/-- The value of the leftmost `VERSION` is replaced. -/
theorem bumpCMakeLists_of_some {args : Arguments} {content before rest left right : Text}
    {pieces found : List Text} (hslash : '\\' ∉ args.version)
    (hsearch : search projectRe content = some (before, pieces, rest))
    (hfound : search versionRe pieces.flatten = some (left, found, right)) :
    bumpCMakeLists args content
      = .ok (before ++ (left ++ ((text "VERSION " ++ args.version) ++ right) ++ rest)) := by
  rw [bumpCMakeLists, hsearch]
  simp only [bumpProjectVersion, subOnce_of_search (not_mem_versionTemplate hslash) hfound]

/-- A second bump of CMakeLists.txt: what stands in the version after its first
    characters of the pattern is written once more. -/
theorem bumpCMakeLists_again {args : Arguments} {content before rest content' : Text}
    {pieces : List Text} (hrelease : Release args.version)
    (hsearch : search projectRe content = some (before, pieces, rest))
    (h : bumpCMakeLists args content = .ok content') :
    ∃ content'', bumpCMakeLists args content' = .ok content'' ∧
      (content'' = content'
        ↔ search versionRe pieces.flatten = none ∨ ∀ c ∈ args.version, versionChar c = true) := by
  obtain ⟨hslash, -, -⟩ := hrelease.plain
  cases hfound : search versionRe pieces.flatten with
  | none =>
      rw [bumpCMakeLists_of_none hslash hsearch hfound] at h
      obtain rfl := Except.ok.inj h
      exact ⟨content, bumpCMakeLists_of_none hslash hsearch hfound, by simp⟩
  | some split =>
      obtain ⟨left, found, right⟩ := split
      rw [bumpCMakeLists_of_some hslash hsearch hfound] at h
      obtain rfl := Except.ok.inj h
      simp only [reduceCtorEq, false_or]
      obtain ⟨whole, -, hmatch, -⟩ := search_eq_some_iff.mp hsearch
      obtain ⟨gap, callArgs, hgap, hcallArgs, hleft, hclose⟩ := split_of_search hmatch hfound
      -- the second run takes this much of the version for its value
      obtain ⟨word, hword⟩ : ∃ word, word = args.version.takeWhile versionChar := ⟨_, rfl⟩
      obtain ⟨extra, hextra⟩ : ∃ extra, extra = args.version.dropWhile versionChar := ⟨_, rfl⟩
      have hversion : args.version = word ++ extra := by
        rw [hword, hextra, List.takeWhile_append_dropWhile]
      have hchars : word ≠ [] ∧ ∀ c ∈ word, versionChar c = true := by
        obtain ⟨c, tail, hstart, hc⟩ := hrelease.starts
        rw [hword]
        exact ⟨by simp [hstart, hc], fun d hd => List.all_eq_true.mp List.all_takeWhile d hd⟩
      have hstop : Stops versionChar (extra ++ (right ++ rest)) := by
        obtain ⟨_, -, hversionMatch, -⟩ := search_eq_some_iff.mp hfound
        obtain ⟨-, -, -, -, -, hright, -⟩ := version_of_matchPrefix hversionMatch
        have hextraStops : Stops versionChar extra := by
          rw [hextra]
          exact stops_dropWhile _ _
        refine hextraStops.append fun _ => hright.append fun hnil => ?_
        rw [hnil] at hclose
        cases hclose
      -- and the call ends here
      have hmem : ')' ∈ extra ++ (right ++ rest) := by simp [hclose]
      obtain ⟨args₁, after, hsplit, hargs₁⟩ := List.eq_append_cons_of_mem hmem
      have hargs : ')' ∉ callArgs ++ (text "VERSION " ++ (word ++ args₁)) := by
        simp only [List.mem_append, not_or]
        exact ⟨hcallArgs, by decide, fun hmem => (nomatch hchars.2 _ hmem), hargs₁⟩
      rw [hsplit] at hstop
      have hstop' : Stops versionChar (args₁ ++ text ")") := hstop.of_cons
      have hsearch' := search_project_again hsearch hgap hargs after
      have hfound' := search_version_again hfound hchars hstop'
      have hpieces : [text "project", gap, text "(",
          callArgs ++ (text "VERSION " ++ (word ++ args₁)), text ")"].flatten
          = left ++ (text "VERSION " ++ (word ++ (args₁ ++ text ")"))) := by
        rw [hleft]
        simp
      have hcontent' : before ++ (left ++ ((text "VERSION " ++ args.version) ++ right) ++ rest)
          = before ++ (text "project" ++ (gap ++ (text "(" ++
              ((callArgs ++ (text "VERSION " ++ (word ++ args₁))) ++ ')' :: after)))) := by
        calc before ++ (left ++ ((text "VERSION " ++ args.version) ++ right) ++ rest)
            = before ++ (left ++ (text "VERSION " ++ (word ++ (extra ++ (right ++ rest))))) := by
              rw [hversion]
              simp
          _ = _ := by
              rw [hsplit, hleft]
              simp
      rw [← hpieces] at hfound'
      have hsecond := bumpCMakeLists_of_some hslash hsearch' hfound'
      rw [← hcontent'] at hsecond
      refine ⟨_, hsecond, ?_⟩
      have hclosed : (args₁ ++ text ")") ++ after = extra ++ (right ++ rest) := by
        rw [hsplit]
        simp [text]
      calc before ++ (left ++ ((text "VERSION " ++ args.version) ++ (args₁ ++ text ")")) ++ after)
              = before ++ (left ++ ((text "VERSION " ++ args.version) ++ right) ++ rest)
            ↔ (args₁ ++ text ")") ++ after = right ++ rest := by
              simp only [List.append_assoc, List.append_cancel_left_eq]
        _ ↔ extra = [] := by rw [hclosed, List.append_left_eq_self]
        _ ↔ ∀ c ∈ args.version, versionChar c = true := by
              rw [hextra, List.dropWhile_eq_nil_iff]

/-- A suffix after a plus sign stands twice after the second bump. -/
example : bumpCMakeLists { bumpToTwo with version := text "2+b" } (text "project(p VERSION 2+b)")
    = .ok (text "project(p VERSION 2+b+b)") := rfl

-- ============================================================================
-- conanfile.py
-- ============================================================================

theorem matchPrefix_conanVersionRe {gap gap' value : Text}
    (hgap : ∀ c ∈ gap, isSpace c = true) (hgap' : ∀ c ∈ gap', isSpace c = true)
    (hvalue : value ≠ [] ∧ '"' ∉ value) (rest : Text) :
    matchPrefix conanVersionRe (text "version" ++ (gap ++ (text "=" ++ (gap' ++
        (text "\"" ++ (value ++ '"' :: rest))))))
      = some ([text "version", gap, text "=", gap', text "\"", value, text "\""], rest) := by
  have hclose : matchPrefix [.lit (text "\"")] ('"' :: rest) = some ([text "\""], rest) :=
    matchPrefix_lit (text "\"") [] rest
  have hplus : matchPrefix [.plus (· ≠ '"'), .lit (text "\"")] (value ++ '"' :: rest)
      = some ([value, text "\""], rest) := by
    refine matchPrefix_plus hvalue.1 (fun c hc => ?_) (stops_cons rfl rest) hclose
    exact decide_eq_true fun heq => hvalue.2 (heq ▸ hc)
  have hopen : matchPrefix [.lit (text "\""), .plus (· ≠ '"'), .lit (text "\"")]
      (text "\"" ++ (value ++ '"' :: rest)) = some ([text "\"", value, text "\""], rest) := by
    rw [matchPrefix_lit, hplus]
    rfl
  have hstop' : Stops isSpace (text "\"" ++ (value ++ '"' :: rest)) := stops_cons rfl _
  have hequals : matchPrefix [.lit (text "="), .star isSpace, .lit (text "\""),
      .plus (· ≠ '"'), .lit (text "\"")] (text "=" ++ (gap' ++ (text "\"" ++ (value ++ '"' :: rest))))
      = some ([text "=", gap', text "\"", value, text "\""], rest) := by
    rw [matchPrefix_lit, matchPrefix_star hgap' hstop' hopen]
    rfl
  have hstop : Stops isSpace (text "=" ++ (gap' ++ (text "\"" ++ (value ++ '"' :: rest)))) :=
    stops_cons rfl _
  rw [conanVersionRe, matchPrefix_lit, matchPrefix_star hgap hstop hequals]
  rfl

/-- The parts of a match. -/
theorem conanVersion_of_matchPrefix {content rest : Text} {pieces : List Text}
    (h : matchPrefix conanVersionRe content = some (pieces, rest)) :
    ∃ gap gap' value, pieces = [text "version", gap, text "=", gap', text "\"", value, text "\""] ∧
      (∀ c ∈ gap, isSpace c = true) ∧ (∀ c ∈ gap', isSpace c = true) ∧
      (value ≠ [] ∧ '"' ∉ value) ∧
      content = text "version" ++ (gap ++ (text "=" ++ (gap' ++
        (text "\"" ++ (value ++ '"' :: rest))))) := by
  obtain ⟨hcontent, hpieces⟩ := matchPrefix_sound h
  rw [conanVersionRe] at hpieces
  obtain _ | ⟨rfl, _ | ⟨hgap, _ | ⟨rfl, _ | ⟨hgap', _ | ⟨rfl, hpieces⟩⟩⟩⟩⟩ := hpieces
  obtain _ | ⟨hvalue, _ | ⟨rfl, hnil⟩⟩ := hpieces
  cases hnil
  refine ⟨_, _, _, rfl, hgap, hgap', ⟨hvalue.1, fun hmem => ?_⟩, ?_⟩
  · exact absurd rfl (of_decide_eq_true (hvalue.2 '"' hmem))
  · rw [hcontent]
    simp [text]

section Conan

variable {version : Text}

/-- Every line that is written is found again, with its value. -/
theorem matchPrefix_conan_template (hne : version ≠ []) (hquote : '"' ∉ version) (rest : Text) :
    matchPrefix conanVersionRe ((text "version = \"" ++ version ++ text "\"") ++ rest)
      = some ([text "version", text " ", text "=", text " ", text "\"", version, text "\""], rest) := by
  have hspace : ∀ c ∈ text " ", isSpace c = true := List.all_eq_true.mp rfl
  rw [← matchPrefix_conanVersionRe hspace hspace ⟨hne, hquote⟩ rest]
  simp [text]

/-- A place that is passed over is passed over again. -/
theorem conan_skipped {c : Char} {t t' : Text}
    (hnone : matchPrefix conanVersionRe (c :: t) = none)
    (h : Rewrites conanVersionRe
      (constantly (text "version = \"" ++ version ++ text "\"")) t t') :
    matchPrefix conanVersionRe (c :: t') = none := by
  by_contra hsome
  obtain ⟨⟨pieces, rest⟩, hmatch⟩ := Option.ne_none_iff_exists'.mp hsome
  obtain ⟨gap, gap', value, -, hgap, hgap', hvalue, hcontent⟩ := conanVersion_of_matchPrefix hmatch
  have hliteral : text "version" = 'v' :: text "ersion" := rfl
  rw [hliteral, List.cons_append] at hcontent
  obtain ⟨rfl, ht'⟩ := List.cons.inj hcontent
  have hlead : ∀ t pieces rest out, matchPrefix conanVersionRe t = some (pieces, rest) →
      constantly (text "version = \"" ++ version ++ text "\"") pieces = .ok out →
      out.head? = some 'v' := by
    intro t pieces rest out _ hout
    rw [← Except.ok.inj hout]
    rfl
  -- up to the opening quote the text stood there before
  have hword : 'v' ∉ text "ersion" ++ (gap ++ (text "=" ++ (gap' ++ text "\""))) := by
    simp only [List.mem_append, not_or]
    exact ⟨by decide, fun hmem => (nomatch hgap _ hmem), by decide,
      fun hmem => (nomatch hgap' _ hmem), by decide⟩
  have hsplit : t' = (text "ersion" ++ (gap ++ (text "=" ++ (gap' ++ text "\"")))) ++
      (value ++ '"' :: rest) := by
    rw [ht']
    simp
  rw [hsplit] at h
  obtain ⟨t₀, rfl, hrest⟩ := h.of_append hlead hword
  -- and what follows has a quote, but not at its start
  have hfirst := hrest.head?_eq hlead
  have hquoted : '"' ∈ t₀ := by
    by_contra hmem
    have hall := hrest.forall_mem (Q := (· ≠ '"')) (fun t pieces rest out hmatch _ hpieces => ?_)
      (fun d hd heq => hmem (heq ▸ hd))
    · exact hall '"' (by simp) rfl
    · obtain ⟨gap, gap', value, rfl, -⟩ := conanVersion_of_matchPrefix hmatch
      exact absurd rfl (hpieces '"' (by simp [text]))
  obtain ⟨value', rest', rfl, hvalue'⟩ := List.eq_append_cons_of_mem hquoted
  have hne : value' ≠ [] := by
    rintro rfl
    obtain ⟨d, value, rfl⟩ := List.exists_cons_of_ne_nil hvalue.1
    have hd : d = '"' := Option.some.inj hfirst
    exact hvalue.2 (by rw [hd]; exact List.mem_cons_self ..)
  have hfound := matchPrefix_conanVersionRe hgap hgap' ⟨hne, hvalue'⟩ rest'
  have heq : 'v' :: (text "ersion" ++ (gap ++ (text "=" ++ (gap' ++ text "\""))) ++
      (value' ++ '"' :: rest')) = text "version" ++ (gap ++ (text "=" ++ (gap' ++
        (text "\"" ++ (value' ++ '"' :: rest'))))) := by
    rw [hliteral]
    simp
  rw [heq, hfound] at hnone
  cases hnone

theorem conan_flatten_ne_nil (t : Text) (pieces : List Text) (rest : Text)
    (h : matchPrefix conanVersionRe t = some (pieces, rest)) : pieces.flatten ≠ [] := by
  obtain ⟨gap, gap', value, rfl, -⟩ := conanVersion_of_matchPrefix h
  simp [text]

theorem not_mem_conanTemplate (hslash : '\\' ∉ version) :
    '\\' ∉ text "version = \"" ++ version ++ text "\"" := by
  simp only [List.mem_append, not_or]
  exact ⟨⟨by decide, hslash⟩, by decide⟩

theorem bumpConanfile_eq_ok {args : Arguments} {content content' : Text} :
    bumpConanfile args content = .ok content'
      ↔ subAll conanVersionRe (text "version = \"" ++ args.version ++ text "\"") content
          = some content' := by
  rw [bumpConanfile]
  split
  · next hsub =>
      rw [hsub]
      simp
  · next hsub =>
      rw [hsub]
      simp

/-- A second bump of conanfile.py changes nothing. -/
theorem bumpConanfile_again {args : Arguments} {content content' : Text}
    (hrelease : Release args.version) (h : bumpConanfile args content = .ok content') :
    bumpConanfile args content' = .ok content' := by
  obtain ⟨hslash, hquote, -⟩ := hrelease.plain
  obtain ⟨c, tail, hstart, -⟩ := hrelease.starts
  have hne : args.version ≠ [] := by simp [hstart]
  obtain ⟨n, hsub⟩ := (subAll_eq_some (not_mem_conanTemplate hslash)).mp (bumpConanfile_eq_ok.mp h)
  have hagain := subn_self (P := fun _ => True) (fun _ _ _ => trivial) conan_flatten_ne_nil
    (fun t pieces rest out rest' _ _ hout => ?_) (fun _ _ _ _ => conan_skipped) trivial hsub
  · exact bumpConanfile_eq_ok.mpr
      ((subAll_eq_some (not_mem_conanTemplate hslash)).mpr ⟨n, hagain⟩)
  · obtain rfl := Except.ok.inj hout
    exact ⟨_, matchPrefix_conan_template hne hquote rest', rfl⟩

end Conan

-- ============================================================================
-- Reading back what was written
-- ============================================================================

theorem not_mem_bumpCMakeLists {args : Arguments} {content content' : Text}
    (hrelease : Release args.version) (hcontent : '\r' ∉ content)
    (h : bumpCMakeLists args content = .ok content') : '\r' ∉ content' := by
  obtain ⟨hslash, -, hcr⟩ := hrelease.plain
  have htemplate : '\r' ∉ text "VERSION " ++ args.version := by
    rw [List.mem_append, not_or]
    exact ⟨by decide, hcr⟩
  rw [bumpCMakeLists] at h
  split at h
  · cases h
  next before pieces rest hsearch =>
  split at h
  · cases h
  next call hbump =>
  obtain rfl := Except.ok.inj h
  obtain ⟨found, rfl, hmatch, -⟩ := search_eq_some_iff.mp hsearch
  obtain ⟨rfl, -⟩ := matchPrefix_sound hmatch
  simp only [List.mem_append, not_or] at hcontent ⊢
  exact ⟨hcontent.1, not_mem_of_subOnce (not_mem_versionTemplate hslash) htemplate hcontent.2.1
    hbump, hcontent.2.2⟩

theorem not_mem_bumpConanfile {args : Arguments} {content content' : Text}
    (hrelease : Release args.version) (hcontent : '\r' ∉ content)
    (h : bumpConanfile args content = .ok content') : '\r' ∉ content' := by
  obtain ⟨hslash, -, hcr⟩ := hrelease.plain
  have htemplate : '\r' ∉ text "version = \"" ++ args.version ++ text "\"" := by
    simp only [List.mem_append, not_or]
    exact ⟨⟨by decide, hcr⟩, by decide⟩
  obtain ⟨n, hsub⟩ := (subAll_eq_some (not_mem_conanTemplate hslash)).mp (bumpConanfile_eq_ok.mp h)
  have hrewrites := rewrites_of_subn conan_flatten_ne_nil hsub
  have hall := hrewrites.forall_mem (Q := (· ≠ '\r')) (fun _ pieces _ out _ hout _ d hd heq => ?_)
    (fun d hd heq => hcontent (heq ▸ hd))
  · exact fun hmem => hall _ hmem rfl
  · rw [← Except.ok.inj hout, heq] at hd
    exact htemplate hd

end RateThrottle.Scripts
