/-
  RateThrottle.Scripts.PortfilePins

  What the bump of portfile.cmake is for: every vcpkg_from_github() call carries
  the REF and the SHA512 that are pinned for its REPO, and nothing else has
  changed (`PinsBumped`).

  The script only sees calls of the form of BLOCK_RE, that is with the arguments
  OUT_SOURCE_PATH, REPO, REF and SHA512 in this order and no other; every other
  call is passed over.  On a file in which the texts it sees are calls with
  these arguments (`PlainPortfile`), the bump does its work exactly when every
  call that it passes over carries its pins already (`pinsBumped_iff`).
-/

import RateThrottle.Scripts.ProjectVersion

namespace RateThrottle.Scripts

open Pattern CMake

/-- The command whose calls are pinned. -/
def fetchCall : Text := text "vcpkg_from_github"

theorem isName_fetchCall : IsName fetchCall := ⟨by decide, List.all_eq_true.mp rfl⟩

-- ============================================================================
-- The purpose of the step
-- ============================================================================

/-- The tokens carry the pins of their REPO. -/
def Carries (pins : RepoPins) (list : List Token) : Prop :=
  ∃ repo ref sha512, argument (text "REPO") list = some repo ∧
    pins repo = some (ref, sha512) ∧ argument (text "REF") list = some ref ∧
    argument (text "SHA512") list = some sha512

/-- The body carries its pins, in the places of the values it had before. -/
def PinsSet (pins : RepoPins) (body body' : Text) : Prop :=
  ∃ middle list, SetsArgument (text "REF") (tokens body) middle ∧
    SetsArgument (text "SHA512") middle list ∧ Carries pins list ∧ body' = flatten list

/-- Every vcpkg_from_github() call carries its pins; all other text is unchanged. -/
def PinsBumped (pins : RepoPins) (content content' : Text) : Prop :=
  CallsRewritten fetchCall (PinsSet pins) top content content'

/-- From the context on, every call that the script does not see carries its pins. -/
def PinsReached (pins : RepoPins) (k : Context) (content : Text) : Prop :=
  ∀ before found gap body rest, content = before ++ found → k.after before = top →
    callAt fetchCall found = some (gap, body, rest) → matchPrefix blockRe found = none →
    Carries pins (tokens body)

theorem closes_of_pinsSet {pins : RepoPins} {body body' : Text} (hbody : Closes inside body)
    (h : PinsSet pins body body') : Closes inside body' := by
  obtain ⟨middle, list, href, hsha512, -, rfl⟩ := h
  have hmiddle := body_of_setsArgument href (body_tokens hbody)
  exact closes_flatten Nat.one_ne_zero (body_of_setsArgument hsha512 hmiddle)

/-- A body that needs no edit carries its pins. -/
theorem pinsSet_self {pins : RepoPins} {body : Text} (hbody : Closes inside body) :
    PinsSet pins body body ↔ Carries pins (tokens body) := by
  refine ⟨?_, ?_⟩
  · rintro ⟨middle, list, href, hsha512, hcarries, hflatten⟩
    have hmiddle := body_of_setsArgument href (body_tokens hbody)
    have hlist := tokens_flatten (body_of_setsArgument hsha512 hmiddle)
    rw [← hflatten] at hlist
    rw [hlist]
    exact hcarries
  · intro hcarries
    have hself {keyword value : Text} (h : argument keyword (tokens body) = some value) :=
      setsArgument_self (body_tokens hbody) h
    obtain ⟨repo, ref, sha512, hrepo, hpin, href, hsha512⟩ := hcarries
    exact ⟨tokens body, tokens body, hself href, hself hsha512,
      ⟨repo, ref, sha512, hrepo, hpin, href, hsha512⟩, (flatten_tokens body).symm⟩

-- ============================================================================
-- The text of a block
-- ============================================================================

/-- What the repetitions of BLOCK_RE take, in their order. -/
structure Block where
  gap₀ : Text
  gap₁ : Text
  out : Text
  gap₂ : Text
  gap₃ : Text
  repo : Text
  gap₄ : Text
  gap₅ : Text
  ref : Text
  gap₆ : Text
  gap₇ : Text
  sha512 : Text
  gap₈ : Text

namespace Block

def pieces (b : Block) : List Text :=
  [text "vcpkg_from_github(", b.gap₀,
    text "OUT_SOURCE_PATH", b.gap₁, b.out, b.gap₂,
    text "REPO", b.gap₃, b.repo, b.gap₄,
    text "REF", b.gap₅, b.ref, b.gap₆,
    text "SHA512", b.gap₇, b.sha512, b.gap₈,
    text ")"]

/-- The tokens before REF. -/
def startTokens (b : Block) : List Token :=
  separators b.gap₀ ++ .argument (text "OUT_SOURCE_PATH") ::
    (separators b.gap₁ ++ .argument b.out ::
      (separators b.gap₂ ++ .argument (text "REPO") ::
        (separators b.gap₃ ++ .argument b.repo :: separators b.gap₄)))

/-- The tokens between the parentheses. -/
def tokens (b : Block) : List Token :=
  b.startTokens ++ .argument (text "REF") :: (separators b.gap₅ ++ .argument b.ref ::
    (separators b.gap₆ ++ .argument (text "SHA512") ::
      (separators b.gap₇ ++ .argument b.sha512 :: separators b.gap₈)))

def body (b : Block) : Text := flatten b.tokens

/-- The gaps are white space and the values are not. -/
structure Accepted (b : Block) : Prop where
  gap : ∀ gap ∈ [b.gap₀, b.gap₁, b.gap₂, b.gap₃, b.gap₄, b.gap₅, b.gap₆, b.gap₇, b.gap₈],
    ∀ c ∈ gap, isSpace c = true
  gap_ne_nil : ∀ gap ∈ [b.gap₁, b.gap₃, b.gap₅, b.gap₇], gap ≠ []
  value : ∀ value ∈ [b.out, b.repo, b.ref, b.sha512], value ≠ [] ∧ ∀ c ∈ value, nonSpace c = true

end Block

/-- A match of BLOCK_RE is a block. -/
theorem block_of_matchPrefix {content rest : Text} {pieces : List Text}
    (h : matchPrefix blockRe content = some (pieces, rest)) :
    ∃ b : Block, pieces = b.pieces ∧ b.Accepted ∧ content = b.pieces.flatten ++ rest := by
  obtain ⟨hcontent, hpieces⟩ := matchPrefix_sound h
  rw [blockRe] at hpieces
  obtain _ | ⟨rfl, _ | ⟨hgap₀, _ | ⟨rfl, _ | ⟨hgap₁, _ | ⟨hout, _ | ⟨hgap₂, hpieces⟩⟩⟩⟩⟩⟩ := hpieces
  obtain _ | ⟨rfl, _ | ⟨hgap₃, _ | ⟨hrepo, _ | ⟨hgap₄, hpieces⟩⟩⟩⟩ := hpieces
  obtain _ | ⟨rfl, _ | ⟨hgap₅, _ | ⟨href, _ | ⟨hgap₆, hpieces⟩⟩⟩⟩ := hpieces
  obtain _ | ⟨rfl, _ | ⟨hgap₇, _ | ⟨hsha512, _ | ⟨hgap₈, _ | ⟨rfl, hnil⟩⟩⟩⟩⟩ := hpieces
  cases hnil
  refine ⟨⟨_, _, _, _, _, _, _, _, _, _, _, _, _⟩, rfl, ⟨?_, ?_, ?_⟩, hcontent⟩
  · simp only [List.forall_mem_cons]
    exact ⟨hgap₀, hgap₁.2, hgap₂, hgap₃.2, hgap₄, hgap₅.2, hgap₆, hgap₇.2, hgap₈, by simp⟩
  · simp only [List.forall_mem_cons]
    exact ⟨hgap₁.1, hgap₃.1, hgap₅.1, hgap₇.1, by simp⟩
  · simp only [List.forall_mem_cons]
    exact ⟨hout, hrepo, href, hsha512, by simp⟩

-- ============================================================================
-- Searching for a keyword
-- ============================================================================

/-- `KEYWORD\s+\S+`. -/
def keywordRe (keyword : Text) : List (Atom Char) :=
  [.lit keyword, .plus isSpace, .plus nonSpace]

theorem refRe_eq : refRe = keywordRe (text "REF") := rfl

theorem sha512Re_eq : sha512Re = keywordRe (text "SHA512") := rfl

section Keywords

variable {keyword : Text}

/-- A match starts with the keyword and a white space. -/
theorem keyword_of_matchPrefix {content rest : Text} {pieces : List Text}
    (h : matchPrefix (keywordRe keyword) content = some (pieces, rest)) :
    ∃ c tail, content = keyword ++ c :: tail ∧ isSpace c = true := by
  obtain ⟨hcontent, hpieces⟩ := matchPrefix_sound h
  obtain _ | ⟨rfl, _ | ⟨⟨hne, hgap⟩, _ | ⟨hvalue, hnil⟩⟩⟩ := hpieces
  rename_i gap value pieces
  obtain ⟨c, gap, rfl⟩ := List.exists_cons_of_ne_nil hne
  refine ⟨c, gap ++ (value ++ (pieces.flatten ++ rest)), ?_, hgap c (List.mem_cons_self ..)⟩
  simpa using hcontent

theorem takeWhile_word {word rest : Text} {c : Char} (hword : ∀ d ∈ word, nonSpace d = true)
    (hc : isSpace c = true) : (word ++ c :: rest).takeWhile nonSpace = word := by
  have hstop : nonSpace c = false := by rw [nonSpace, hc]; rfl
  rw [List.takeWhile_append_of_pos hword, List.takeWhile_cons, hstop]
  simp

/-- A search for the keyword goes on after the text. -/
def Skips (keyword content : Text) : Prop :=
  ∀ rest, search (keywordRe keyword) (content ++ rest)
    = (search (keywordRe keyword) rest).map fun (before, found) => (content ++ before, found)

theorem Skips.append {left right : Text} (hleft : Skips keyword left)
    (hright : Skips keyword right) : Skips keyword (left ++ right) := by
  intro rest
  rw [List.append_assoc, hleft, hright, Option.map_map]
  refine congrArg (Option.map · _) (funext fun (before, found) => ?_)
  simp

/-- A word that does not end in the keyword is passed over. -/
theorem skips_word {word gap : Text} (hkeyword : IsWord keyword)
    (hword : ∀ c ∈ word, nonSpace c = true)
    (hend : ¬ keyword <:+ word) (hne : gap ≠ []) (hgap : ∀ c ∈ gap, isSpace c = true) :
    Skips keyword (word ++ gap) := by
  intro rest
  refine search_append fun left right hsplit hright => ?_
  by_contra hsome
  obtain ⟨⟨pieces, after⟩, hmatch⟩ := Option.ne_none_iff_exists'.mp hsome
  obtain ⟨c, tail, htext, hc⟩ := keyword_of_matchPrefix hmatch
  rcases List.append_eq_append_iff.mp hsplit with ⟨middle, -, hmiddle⟩ | ⟨middle, hmiddle, rfl⟩
  · -- a gap does not start with the keyword
    obtain ⟨d, right, rfl⟩ := List.exists_cons_of_ne_nil hright
    obtain ⟨e, keyword', rfl⟩ := List.exists_cons_of_ne_nil hkeyword.ne_nil
    have hspace := hgap d (by rw [hmiddle]; simp)
    have hsame : d = e := (List.cons.inj htext).1
    have hnon := hkeyword.nonSpace e (List.mem_cons_self ..)
    rw [← hsame, nonSpace, hspace] at hnon
    cases hnon
  · -- a word that starts with the keyword and a white space is the keyword
    obtain ⟨d, gap, rfl⟩ := List.exists_cons_of_ne_nil hne
    have hmem : ∀ e ∈ middle, nonSpace e = true := fun e he =>
      hword e (by rw [hmiddle]; exact List.mem_append_right _ he)
    have htake := congrArg (List.takeWhile nonSpace) htext
    rw [takeWhile_word hkeyword.nonSpace hc, List.append_assoc, List.cons_append,
      takeWhile_word hmem (hgap d (List.mem_cons_self ..))] at htake
    exact hend ⟨left, by rw [hmiddle, htake]⟩

/-- The keyword itself is found, with its value. -/
theorem search_keyword {gap value rest : Text} (hgap : gap ≠ [] ∧ ∀ c ∈ gap, isSpace c = true)
    (hvalue : value ≠ [] ∧ ∀ c ∈ value, nonSpace c = true) (hstop : Stops nonSpace rest) :
    search (keywordRe keyword) (keyword ++ (gap ++ (value ++ rest)))
      = some ([], [keyword, gap, value], rest) := by
  rw [search_eq_some_iff]
  refine ⟨keyword ++ (gap ++ (value ++ rest)), rfl, ?_, fun left right hsplit hne => ?_⟩
  · have hlast : matchPrefix [.plus nonSpace] (value ++ rest) = some ([value], rest) :=
      matchPrefix_plus hvalue.1 hvalue.2 hstop rfl
    have hstart : Stops isSpace (value ++ rest) := by
      obtain ⟨c, value, rfl⟩ := List.exists_cons_of_ne_nil hvalue.1
      refine stops_cons ?_ _
      have hc := hvalue.2 c (List.mem_cons_self ..)
      rw [nonSpace, Bool.not_eq_true'] at hc
      exact hc
    rw [keywordRe, matchPrefix_lit, matchPrefix_plus hgap.1 hgap.2 hstart hlast]
    rfl
  · exact absurd (List.append_eq_nil_iff.mp hsplit.symm).2 hne

end Keywords

-- ============================================================================
-- Rewriting a block
-- ============================================================================

/-- Neither the regular expression for the keyword nor its argument is found in
    the value. -/
structure Free (keyword value : Text) : Prop where
  notSuffix : ¬ keyword <:+ value
  notKeyword : unquote value ≠ keyword

instance (keyword value : Text) : Decidable (Free keyword value) :=
  decidable_of_iff (¬ keyword <:+ value ∧ unquote value ≠ keyword)
    ⟨fun h => ⟨h.1, h.2⟩, fun h => ⟨h.notSuffix, h.notKeyword⟩⟩

/-- The block is a call with these arguments, one space after REF and after
    SHA512, and none of its values ends at or is taken for a keyword. -/
structure Block.Plain (b : Block) (rest : Text) : Prop where
  call : callAt fetchCall (b.pieces.flatten ++ rest) = some ([], b.body, rest)
  tokens : CMake.tokens b.body = b.tokens
  oneSpace : b.gap₅ = text " " ∧ b.gap₇ = text " "
  ends : b.gap₂ ≠ [] ∧ b.gap₄ ≠ [] ∧ b.gap₆ ≠ [] ∧ b.gap₈ ≠ []
  out : unquote b.out ≠ text "REPO" ∧ Free (text "REF") b.out ∧ Free (text "SHA512") b.out
  repo : unquote b.repo = b.repo ∧ Free (text "REF") b.repo ∧ Free (text "SHA512") b.repo

namespace Block

/-- The text before REF. -/
def start (b : Block) : Text :=
  text "vcpkg_from_github(" ++ (b.gap₀ ++ (text "OUT_SOURCE_PATH" ++ (b.gap₁ ++ (b.out ++
    (b.gap₂ ++ (text "REPO" ++ (b.gap₃ ++ (b.repo ++ b.gap₄))))))))

theorem flatten_pieces (b : Block) :
    b.pieces.flatten = b.start ++ (text "REF" ++ (b.gap₅ ++ (b.ref ++ (b.gap₆ ++
      (text "SHA512" ++ (b.gap₇ ++ (b.sha512 ++ (b.gap₈ ++ text ")")))))))) := by
  simp [pieces, start]

theorem callText_body (b : Block) (rest : Text) :
    b.pieces.flatten ++ rest = callText fetchCall [] b.body rest := by
  have hopen : text "vcpkg_from_github(" = fetchCall ++ text "(" := rfl
  have hparen : text "(" = ['('] := rfl
  have hclose : text ")" = [')'] := rfl
  rw [flatten_pieces, start, callText, body, tokens, startTokens, hopen, hparen, hclose]
  simp [flatten_append, flatten_argument, flatten_separators]

/-- Nothing before REF is taken for a keyword. -/
theorem skips_start {b : Block} {rest keyword : Text} (haccepted : b.Accepted)
    (hplain : b.Plain rest) (hkeyword : keyword = text "REF" ∨ keyword = text "SHA512") :
    Skips keyword b.start := by
  obtain ⟨hgap, hgapne, hvalue⟩ := haccepted
  simp only [List.forall_mem_cons] at hgap hgapne hvalue
  obtain ⟨hgap₀, hgap₁, hgap₂, hgap₃, hgap₄, -⟩ := hgap
  obtain ⟨hne₁, hne₃, -⟩ := hgapne
  obtain ⟨⟨-, hout⟩, ⟨-, hrepo⟩, -⟩ := hvalue
  obtain ⟨hne₂, hne₄, -, -⟩ := hplain.ends
  have hfree : ¬ keyword <:+ b.out ∧ ¬ keyword <:+ b.repo := by
    rcases hkeyword with rfl | rfl
    · exact ⟨hplain.out.2.1.notSuffix, hplain.repo.2.1.notSuffix⟩
    · exact ⟨hplain.out.2.2.notSuffix, hplain.repo.2.2.notSuffix⟩
  have hskips {word gap : Text} (hword : ∀ c ∈ word, nonSpace c = true)
      (hend : ¬ keyword <:+ word) (hne : gap ≠ []) (hgap : ∀ c ∈ gap, isSpace c = true) :
      Skips keyword (word ++ gap) := by
    rcases hkeyword with rfl | rfl
    · exact skips_word (by decide) hword hend hne hgap
    · exact skips_word (by decide) hword hend hne hgap
  have hliteral {gap : Text} (literal : Text) (hword : literal.all nonSpace = true)
      (hend : ¬ text "REF" <:+ literal ∧ ¬ text "SHA512" <:+ literal) (hne : gap ≠ [])
      (hgap : ∀ c ∈ gap, isSpace c = true) : Skips keyword (literal ++ gap) := by
    refine hskips (List.all_eq_true.mp hword) ?_ hne hgap
    rcases hkeyword with rfl | rfl
    · exact hend.1
    · exact hend.2
  -- the opening and the first keyword are one word when there is no gap between them
  have hopen : Skips keyword
      (text "vcpkg_from_github(" ++ (b.gap₀ ++ (text "OUT_SOURCE_PATH" ++ b.gap₁))) := by
    by_cases hne₀ : b.gap₀ = []
    · have hword : text "vcpkg_from_github(" ++ text "OUT_SOURCE_PATH"
          = text "vcpkg_from_github(OUT_SOURCE_PATH" := rfl
      rw [hne₀, List.nil_append, ← List.append_assoc, hword]
      exact hliteral (text "vcpkg_from_github(OUT_SOURCE_PATH") rfl (by decide) hne₁ hgap₁
    · rw [← List.append_assoc]
      exact (hliteral (text "vcpkg_from_github(") rfl (by decide) hne₀ hgap₀).append
        (hliteral (text "OUT_SOURCE_PATH") rfl (by decide) hne₁ hgap₁)
  have hstart := ((hopen.append (hskips hout hfree.1 hne₂ hgap₂)).append
    (hliteral (text "REPO") rfl (by decide) hne₃ hgap₃)).append (hskips hrepo hfree.2 hne₄ hgap₄)
  have heq : b.start = ((text "vcpkg_from_github(" ++ (b.gap₀ ++ (text "OUT_SOURCE_PATH" ++
      b.gap₁))) ++ (b.out ++ b.gap₂) ++ (text "REPO" ++ b.gap₃)) ++ (b.repo ++ b.gap₄) := by
    simp [start]
  rw [heq]
  exact hstart

theorem stops_gap {gap rest : Text} (hne : gap ≠ []) (hgap : ∀ c ∈ gap, isSpace c = true) :
    Stops nonSpace (gap ++ rest) := by
  obtain ⟨c, gap, rfl⟩ := List.exists_cons_of_ne_nil hne
  refine stops_cons ?_ _
  rw [nonSpace, hgap c (List.mem_cons_self ..)]
  rfl

/-- The expression for REF finds the value of REF. -/
theorem search_ref {b : Block} {rest : Text} (haccepted : b.Accepted) (hplain : b.Plain rest) :
    search refRe b.pieces.flatten
      = some (b.start, [text "REF", b.gap₅, b.ref], b.gap₆ ++
          (text "SHA512" ++ (b.gap₇ ++ (b.sha512 ++ (b.gap₈ ++ text ")"))))) := by
  have hskips := skips_start haccepted hplain (Or.inl rfl)
  obtain ⟨hgap, hgapne, hvalue⟩ := haccepted
  simp only [List.forall_mem_cons] at hgap hgapne hvalue
  obtain ⟨-, -, -, -, -, hgap₅, hgap₆, -⟩ := hgap
  obtain ⟨-, -, hne₅, -⟩ := hgapne
  obtain ⟨-, -, href, -⟩ := hvalue
  obtain ⟨-, -, hne₆, -⟩ := hplain.ends
  rw [refRe_eq, flatten_pieces, hskips,
    search_keyword ⟨hne₅, hgap₅⟩ href (stops_gap hne₆ hgap₆)]
  simp

/-- After a new value of REF the expression for SHA512 finds the value of SHA512. -/
theorem search_sha512 {b : Block} {rest ref : Text} (haccepted : b.Accepted)
    (hplain : b.Plain rest) (href : ∀ c ∈ ref, nonSpace c = true)
    (hend : ¬ text "SHA512" <:+ ref) :
    search sha512Re (b.start ++ ((text "REF " ++ ref) ++ (b.gap₆ ++
        (text "SHA512" ++ (b.gap₇ ++ (b.sha512 ++ (b.gap₈ ++ text ")")))))))
      = some (b.start ++ (text "REF " ++ (ref ++ b.gap₆)),
          [text "SHA512", b.gap₇, b.sha512], b.gap₈ ++ text ")") := by
  have hskips := skips_start haccepted hplain (Or.inr rfl)
  obtain ⟨hgap, hgapne, hvalue⟩ := haccepted
  simp only [List.forall_mem_cons] at hgap hgapne hvalue
  obtain ⟨-, -, -, -, -, -, hgap₆, hgap₇, hgap₈, -⟩ := hgap
  obtain ⟨-, -, -, hne₇, -⟩ := hgapne
  obtain ⟨-, -, -, hsha512, -⟩ := hvalue
  obtain ⟨-, -, hne₆, hne₈⟩ := hplain.ends
  have hkeyword : Skips (text "SHA512") (text "REF" ++ text " ") :=
    skips_word (by decide) (List.all_eq_true.mp rfl) (by decide) (by decide)
      (List.all_eq_true.mp rfl)
  have hvalue : Skips (text "SHA512") (ref ++ b.gap₆) :=
    skips_word (by decide) href hend hne₆ hgap₆
  have hall := ((hskips.append hkeyword).append hvalue)
    (text "SHA512" ++ (b.gap₇ ++ (b.sha512 ++ (b.gap₈ ++ text ")"))))
  rw [search_keyword ⟨hne₇, hgap₇⟩ hsha512 (stops_gap hne₈ hgap₈)] at hall
  have hspace : text "REF " = text "REF" ++ text " " := rfl
  rw [sha512Re_eq, hspace]
  simpa using hall

/-- The block with the values of a pin. -/
def pinned (b : Block) (ref sha512 : Text) : Block := { b with ref := ref, sha512 := sha512 }

theorem rewriteBlock_eq {pins : RepoPins} {b : Block} {rest ref sha512 : Text}
    (haccepted : b.Accepted) (hplain : b.Plain rest) (hpin : pins b.repo = some (ref, sha512))
    (href : IsWord ref) (hend : ¬ text "SHA512" <:+ ref) (hsha512 : IsWord sha512) :
    rewriteBlock pins b.pieces = .ok (b.pinned ref sha512).pieces.flatten := by
  have hrefslash : '\\' ∉ text "REF " ++ ref := by
    rw [List.mem_append, not_or]
    exact ⟨by decide, href.not_mem⟩
  have hshaslash : '\\' ∉ text "SHA512 " ++ sha512 := by
    rw [List.mem_append, not_or]
    exact ⟨by decide, hsha512.not_mem⟩
  have hfirst := subOnce_of_search hrefslash (search_ref haccepted hplain)
  have hsecond := subOnce_of_search hshaslash
    (search_sha512 haccepted hplain href.nonSpace hend)
  have hrepo : b.pieces.getD 8 [] = b.repo := rfl
  simp only [rewriteBlock, hrepo, hpin, hfirst, hsecond]
  have hstart : (b.pinned ref sha512).start = b.start := rfl
  have hkeywords : text "REF " = text "REF" ++ text " " ∧ text "SHA512 " = text "SHA512" ++ text " " :=
    ⟨rfl, rfl⟩
  rw [flatten_pieces, hstart, hkeywords.1, hkeywords.2]
  simp [pinned, hplain.oneSpace.1, hplain.oneSpace.2]

theorem not_mem_separators {gap word : Text} : .argument word ∉ separators gap := by
  intro h
  obtain ⟨c, -, hc⟩ := List.mem_map.mp h
  cases hc

theorem mem_startTokens {b : Block} {word : Text} (h : .argument word ∈ b.startTokens) :
    word = text "OUT_SOURCE_PATH" ∨ word = b.out ∨ word = text "REPO" ∨ word = b.repo := by
  simpa [startTokens, not_mem_separators] using h

/-- The tokens of a block, split at REPO. -/
theorem pinned_tokens_repo (b : Block) (ref sha512 : Text) :
    (b.pinned ref sha512).tokens
      = (separators b.gap₀ ++ .argument (text "OUT_SOURCE_PATH") ::
          (separators b.gap₁ ++ .argument b.out :: separators b.gap₂)) ++
        .argument (text "REPO") :: (separators b.gap₃ ++ .argument b.repo ::
          (separators b.gap₄ ++ .argument (text "REF") :: (separators b.gap₅ ++ .argument ref ::
            (separators b.gap₆ ++ .argument (text "SHA512") ::
              (separators b.gap₇ ++ .argument sha512 :: separators b.gap₈))))) := by
  simp [tokens, startTokens, pinned]

/-- The tokens of a block, split at SHA512. -/
theorem pinned_tokens_sha512 (b : Block) (ref sha512 : Text) :
    (b.pinned ref sha512).tokens
      = (b.startTokens ++ .argument (text "REF") ::
          (separators b.gap₅ ++ .argument ref :: separators b.gap₆)) ++
        .argument (text "SHA512") ::
          (separators b.gap₇ ++ .argument sha512 :: separators b.gap₈) := by
  simp [tokens, startTokens, pinned]

/-- The value of REPO, whatever REF and SHA512 are. -/
theorem argument_repo {b : Block} {rest ref sha512 : Text} (hplain : b.Plain rest) :
    argument (text "REPO") (b.pinned ref sha512).tokens = some b.repo := by
  have hpre : ∀ word, .argument word ∈ separators b.gap₀ ++ .argument (text "OUT_SOURCE_PATH") ::
      (separators b.gap₁ ++ .argument b.out :: separators b.gap₂) →
      unquote word ≠ text "REPO" := by
    intro word hmem
    have hword : word = text "OUT_SOURCE_PATH" ∨ word = b.out := by
      simpa [not_mem_separators] using hmem
    rcases hword with rfl | rfl
    · decide
    · exact hplain.out.1
  have hsplit := splitArgument_keyword (rfl : unquote (text "REPO") = text "REPO") hpre b.gap₃
    b.repo (separators b.gap₄ ++ .argument (text "REF") :: (separators b.gap₅ ++ .argument ref ::
      (separators b.gap₆ ++ .argument (text "SHA512") ::
        (separators b.gap₇ ++ .argument sha512 :: separators b.gap₈))))
  rw [argument_eq_some]
  rw [← pinned_tokens_repo] at hsplit
  exact ⟨_, b.repo, _, hsplit, hplain.repo.1⟩

/-- REF stands before the values that are set. -/
theorem splitArgument_ref {b : Block} {rest : Text} (hplain : b.Plain rest) (ref sha512 : Text) :
    splitArgument (text "REF") (b.pinned ref sha512).tokens
      = some (b.startTokens ++ .argument (text "REF") :: separators b.gap₅, ref,
          separators b.gap₆ ++ .argument (text "SHA512") ::
            (separators b.gap₇ ++ .argument sha512 :: separators b.gap₈)) := by
  refine splitArgument_keyword rfl (fun word hmem => ?_) b.gap₅ ref _
  rcases mem_startTokens hmem with rfl | rfl | rfl | rfl
  · decide
  · exact hplain.out.2.1.notKeyword
  · decide
  · exact hplain.repo.2.1.notKeyword

theorem splitArgument_sha512 {b : Block} {rest ref : Text} (hplain : b.Plain rest)
    (href : unquote ref ≠ text "SHA512") (sha512 : Text) :
    splitArgument (text "SHA512") (b.pinned ref sha512).tokens
      = some ((b.startTokens ++ .argument (text "REF") ::
          (separators b.gap₅ ++ .argument ref :: separators b.gap₆)) ++
            .argument (text "SHA512") :: separators b.gap₇, sha512, separators b.gap₈) := by
  have hpre : ∀ word, .argument word ∈ b.startTokens ++ .argument (text "REF") ::
      (separators b.gap₅ ++ .argument ref :: separators b.gap₆) →
      unquote word ≠ text "SHA512" := by
    intro word hmem
    have hword : .argument word ∈ b.startTokens ∨ word = text "REF" ∨ word = ref := by
      simpa [not_mem_separators] using hmem
    rcases hword with hmem | rfl | rfl
    · rcases mem_startTokens hmem with rfl | rfl | rfl | rfl
      · decide
      · exact hplain.out.2.2.notKeyword
      · decide
      · exact hplain.repo.2.2.notKeyword
    · decide
    · exact href
  rw [pinned_tokens_sha512]
  exact splitArgument_keyword rfl hpre b.gap₇ sha512 (separators b.gap₈)

/-- The call with the values of a pin is the call in which they are set. -/
theorem pinsSet_pinned {pins : RepoPins} {b : Block} {rest ref sha512 : Text}
    (hplain : b.Plain rest) (hpin : pins b.repo = some (ref, sha512)) (href : IsWord ref)
    (hend : ¬ text "SHA512" <:+ ref) (hsha512 : IsWord sha512) :
    PinsSet pins b.body (b.pinned ref sha512).body := by
  have hrefvalue := unquote_of_isPlain href.plain
  have hne : unquote ref ≠ text "SHA512" := by
    rw [hrefvalue]
    rintro rfl
    exact hend List.suffix_rfl
  have hsplitref := splitArgument_ref hplain b.ref b.sha512
  have hsplitsha512 := splitArgument_sha512 hplain hne b.sha512
  refine ⟨(b.pinned ref b.sha512).tokens, (b.pinned ref sha512).tokens, ?_, ?_, ?_, rfl⟩
  · rw [hplain.tokens]
    exact ⟨_, _, ref, _, hsplitref, href.isArgument, by simp [tokens, pinned, startTokens]⟩
  · exact ⟨_, _, sha512, _, hsplitsha512, hsha512.isArgument,
      by simp [tokens, pinned, startTokens]⟩
  · refine ⟨b.repo, ref, sha512, argument_repo hplain, hpin, ?_, ?_⟩
    · rw [argument_eq_some]
      exact ⟨_, ref, _, splitArgument_ref hplain ref sha512, hrefvalue⟩
    · rw [argument_eq_some]
      exact ⟨_, sha512, _, splitArgument_sha512 hplain hne sha512,
        unquote_of_isPlain hsha512.plain⟩

end Block

-- ============================================================================
-- The whole file
-- ============================================================================

/-- The pinned values are words, and no ref ends at the keyword SHA512. -/
def PlainPins (pins : RepoPins) : Prop :=
  ∀ repo ref sha512, pins repo = some (ref, sha512) →
    IsWord ref ∧ ¬ text "SHA512" <:+ ref ∧ IsWord sha512

/-- From the context on, every text that BLOCK_RE matches is a plain call. -/
def PlainPortfile (k : Context) (content : Text) : Prop :=
  ∀ before found pieces rest, content = before ++ found →
    matchPrefix blockRe found = some (pieces, rest) →
    k.after before = top ∧ ∀ b : Block, pieces = b.pieces → b.Plain rest

theorem PlainPortfile.append {k : Context} {left right : Text}
    (h : PlainPortfile k (left ++ right)) : PlainPortfile (k.after left) right := by
  intro before found pieces rest hright hmatch
  have hsplit : left ++ right = (left ++ before) ++ found := by rw [hright, List.append_assoc]
  have hplain := h (left ++ before) found pieces rest hsplit hmatch
  rw [after_append] at hplain
  exact hplain

section Reached

variable {pins : RepoPins}

theorem isPrefix_of_callAt {content gap body rest : Text}
    (h : callAt fetchCall content = some (gap, body, rest)) : fetchCall <+: content := by
  obtain ⟨rfl, -⟩ := callAt_eq_some.mp h
  exact ⟨_, rfl⟩

theorem isPrefix_of_matchPrefix {content rest : Text} {pieces : List Text}
    (h : matchPrefix blockRe content = some (pieces, rest)) : fetchCall <+: content := by
  have hopen : text "vcpkg_from_github(" = fetchCall ++ text "(" := rfl
  obtain ⟨tail, htail⟩ := prefix_of_matchPrefix h
  rw [hopen, List.append_assoc] at htail
  exact ⟨text "(" ++ tail, htail⟩

theorem callText_split (name gap body rest : Text) :
    callText name gap body rest = callText name gap body [] ++ rest := by
  rw [← callText_append, List.nil_append]

/-- The calls of a text that starts with a call. -/
theorem pinsReached_call {gap body rest : Text}
    (hcall : callAt fetchCall (callText fetchCall gap body rest) = some (gap, body, rest)) :
    PinsReached pins top (callText fetchCall gap body rest)
      ↔ (matchPrefix blockRe (callText fetchCall gap body rest) = none →
          Carries pins (tokens body)) ∧ PinsReached pins top rest := by
  obtain ⟨-, hgap, hbody⟩ := callAt_eq_some.mp hcall
  refine ⟨?_, ?_⟩
  · intro h
    refine ⟨h [] _ gap body rest rfl rfl hcall, ?_⟩
    intro before found gap' body' rest' hrest htop hcall' hnone
    refine h (callText fetchCall gap body [] ++ before) found gap' body' rest' ?_ ?_ hcall' hnone
    · rw [callText_split, hrest, List.append_assoc]
    · rw [after_append, after_call isName_fetchCall hgap hbody]
      exact htop
  · rintro ⟨hfirst, hrest⟩ before found gap' body' rest' hcontent htop hcall' hnone
    rcases call_cases isName_fetchCall hcall hcontent htop (isPrefix_of_callAt hcall')
      with rfl | ⟨before', rfl, hsplit⟩
    · rw [List.nil_append] at hcontent
      rw [← hcontent] at hcall' hnone
      rw [hcall] at hcall'
      cases hcall'
      exact hfirst hnone
    · rw [after_append, after_call isName_fetchCall hgap hbody] at htop
      exact hrest before' found gap' body' rest' hsplit htop hcall' hnone

theorem pinsReached_char {k : Context} {c : Char} {content : Text}
    (hnone : k = top → callAt fetchCall (c :: content) = none) :
    PinsReached pins k (c :: content) ↔ PinsReached pins (k.step c) content := by
  refine ⟨?_, ?_⟩
  · intro h before found gap body rest hcontent htop
    exact h (c :: before) found gap body rest (by rw [hcontent, List.cons_append]) htop
  · intro h before found gap body rest hcontent htop hcall
    cases before with
    | nil =>
        rw [List.nil_append] at hcontent
        rw [← hcontent, hnone htop] at hcall
        cases hcall
    | cons d before =>
        obtain ⟨rfl, hrest⟩ := List.cons.inj hcontent
        exact h before found gap body rest hrest htop hcall

/-- Within a call the script matches nothing, where it does not match the call. -/
theorem not_matched_within {gap body rest : Text}
    (hcall : callAt fetchCall (callText fetchCall gap body rest) = some (gap, body, rest))
    (hplain : PlainPortfile top (callText fetchCall gap body rest))
    (hnone : matchPrefix blockRe (callText fetchCall gap body rest) = none)
    {left right : Text} (hsplit : callText fetchCall gap body [] = left ++ right)
    (hne : right ≠ []) : matchPrefix blockRe (right ++ rest) = none := by
  by_contra hsome
  obtain ⟨⟨pieces, after⟩, hmatch⟩ := Option.ne_none_iff_exists'.mp hsome
  have hcontent : callText fetchCall gap body rest = left ++ (right ++ rest) := by
    rw [callText_split, hsplit, List.append_assoc]
  obtain ⟨htop, -⟩ := hplain left (right ++ rest) pieces after hcontent hmatch
  rcases call_cases isName_fetchCall hcall hcontent htop (isPrefix_of_matchPrefix hmatch)
    with rfl | ⟨before, rfl, -⟩
  · rw [List.nil_append] at hcontent
    rw [← hcontent, hnone] at hmatch
    cases hmatch
  · -- the call does not end before its end
    have hlength := congrArg List.length hsplit
    rw [List.length_append, List.length_append] at hlength
    have hpos := List.length_pos_of_ne_nil hne
    omega

/-- A block is only rewritten with a pin for its repository. -/
theorem exists_pin_of_rewriteBlock {b : Block} {out : Text}
    (h : rewriteBlock pins b.pieces = .ok out) :
    ∃ ref sha512, pins b.repo = some (ref, sha512) := by
  have hrepo : b.pieces.getD 8 [] = b.repo := rfl
  simp only [rewriteBlock, hrepo] at h
  cases hpin : pins b.repo with
  | none =>
      rw [hpin] at h
      cases h
  | some pin => exact ⟨pin.1, pin.2, rfl⟩

/-- What the bump makes of a text is complete exactly when the skipped calls carry
    their pins. -/
def Agrees (pins : RepoPins) (k : Context) (content content' : Text) : Prop :=
  CallsRewritten fetchCall (PinsSet pins) k content content' ↔ PinsReached pins k content

/-- A call that is passed over. -/
theorem agrees_skipped {gap body rest rest' : Text}
    (hcall : callAt fetchCall (callText fetchCall gap body rest) = some (gap, body, rest))
    (hnone : matchPrefix blockRe (callText fetchCall gap body rest) = none)
    (h : Agrees pins top rest rest') :
    Agrees pins top (callText fetchCall gap body rest) (callText fetchCall gap body rest') := by
  obtain ⟨-, -, hbody⟩ := callAt_eq_some.mp hcall
  have hcloses : ∀ body', PinsSet pins body body' → Closes inside body' :=
    fun _ hset => closes_of_pinsSet hbody hset
  rw [Agrees] at h ⊢
  rw [callsRewritten_callText hcall hcloses hbody, pinsSet_self hbody, h,
    pinsReached_call hcall]
  exact and_congr_left' ⟨fun hcarries _ => hcarries, fun hcarries => hcarries hnone⟩

/-- A call that is rewritten. -/
theorem agrees_block {b : Block} {ref sha512 rest rest' : Text} (hplain : b.Plain rest)
    (hmatch : matchPrefix blockRe (b.pieces.flatten ++ rest) = some (b.pieces, rest))
    (hset : PinsSet pins b.body (b.pinned ref sha512).body) (h : Agrees pins top rest rest') :
    Agrees pins top (b.pieces.flatten ++ rest)
      ((b.pinned ref sha512).pieces.flatten ++ rest') := by
  have hcall := hplain.call
  rw [Block.callText_body] at hcall hmatch
  obtain ⟨-, -, hbody⟩ := callAt_eq_some.mp hcall
  have hcloses : ∀ body', PinsSet pins b.body body' → Closes inside body' :=
    fun _ hset => closes_of_pinsSet hbody hset
  rw [Agrees] at h ⊢
  rw [Block.callText_body, Block.callText_body,
    callsRewritten_callText hcall hcloses (hcloses _ hset), h, pinsReached_call hcall, hmatch]
  exact and_congr_left' ⟨fun _ hnone => (by cases hnone), fun _ => hset⟩

/-- A character where no call starts. -/
theorem agrees_char {k : Context} {c : Char} {content content' : Text}
    (hnone : k = top → callAt fetchCall (c :: content) = none)
    (h : Agrees pins (k.step c) content content') :
    Agrees pins k (c :: content) (c :: content') := by
  rw [Agrees] at h ⊢
  rw [callsRewritten_char hnone, pinsReached_char hnone, ← h]
  refine ⟨?_, fun hrest => ⟨content', rfl, hrest⟩⟩
  rintro ⟨rest', heq, hrest⟩
  rw [(List.cons.inj heq).2]
  exact hrest

theorem agrees_nil (k : Context) : Agrees pins k [] [] := by
  refine iff_of_true .nil fun before found gap body rest hcontent _ hcall => ?_
  obtain ⟨rfl, rfl⟩ := List.append_eq_nil_iff.mp hcontent.symm
  obtain ⟨hempty, -⟩ := callAt_eq_some.mp hcall
  simp [callText] at hempty

/-- Where BLOCK_RE matches, a call starts. -/
theorem callAt_ne_none {k : Context} {content : Text} (hplain : PlainPortfile k content)
    (h : matchPrefix blockRe content ≠ none) : k = top ∧ callAt fetchCall content ≠ none := by
  obtain ⟨⟨pieces, rest⟩, hmatch⟩ := Option.ne_none_iff_exists'.mp h
  obtain ⟨b, rfl, -, htext⟩ := block_of_matchPrefix hmatch
  obtain ⟨htop, hblock⟩ := hplain [] content _ _ rfl hmatch
  refine ⟨htop, ?_⟩
  rw [htext, (hblock b rfl).call]
  simp

/-- On a plain file the bump is complete exactly when the calls that it passes
    over carry their pins. -/
theorem agrees_of_rewrites (hpins : PlainPins pins) {k : Context} {content content' : Text}
    (hplain : PlainPortfile k content)
    (h : Rewrites blockRe (rewriteBlock pins) content content') :
    Agrees pins k content content' := by
  induction hlength : content.length using Nat.strongRecOn generalizing k content content' with
  | _ length ih =>
      by_cases hsite : k = top ∧ callAt fetchCall content ≠ none
      · obtain ⟨rfl, hsome⟩ := hsite
        obtain ⟨⟨gap, body, rest⟩, hcall⟩ := Option.ne_none_iff_exists'.mp hsome
        obtain ⟨rfl, hgap, hbody⟩ := callAt_eq_some.mp hcall
        have hshorter : rest.length < length := by
          rw [← hlength, callText]
          simp
          omega
        have hrest : PlainPortfile top rest := by
          rw [callText_split] at hplain
          have happend := hplain.append
          rw [after_call isName_fetchCall hgap hbody] at happend
          exact happend
        cases hmatch : matchPrefix blockRe (callText fetchCall gap body rest) with
        | none =>
            have hskip := h
            rw [callText_split] at hskip
            obtain ⟨rest', rfl, hrest'⟩ := hskip.append_inv fun left right hsplit hne =>
              not_matched_within hcall hplain hmatch hsplit hne
            rw [← callText_split]
            exact agrees_skipped hcall hmatch (ih rest.length hshorter hrest hrest' rfl)
        | some found =>
            obtain ⟨pieces, after⟩ := found
            obtain ⟨b, rfl, haccepted, htext⟩ := block_of_matchPrefix hmatch
            have hblock := (hplain [] _ _ _ rfl hmatch).2 b rfl
            obtain ⟨out, rest', hout, rfl, hrest'⟩ := h.hit_inv hmatch (by simp [callText])
            rw [htext, hblock.call] at hcall
            cases hcall
            obtain ⟨ref, sha512, hpin⟩ := exists_pin_of_rewriteBlock hout
            obtain ⟨href, hend, hsha512⟩ := hpins b.repo ref sha512 hpin
            rw [Block.rewriteBlock_eq haccepted hblock hpin href hend hsha512] at hout
            obtain rfl := Except.ok.inj hout
            rw [htext] at hmatch ⊢
            exact agrees_block hblock hmatch
              (Block.pinsSet_pinned hblock hpin href hend hsha512)
              (ih rest.length hshorter hrest hrest' rfl)
      · -- no call starts here, so nothing is matched
        have hunmatched : matchPrefix blockRe content = none := by
          by_contra hmatch
          exact hsite (callAt_ne_none hplain hmatch)
        cases content with
        | nil =>
            cases h with
            | nil => exact agrees_nil k
            | hit hmatch _ _ =>
                rw [hunmatched] at hmatch
                cases hmatch
        | cons c content =>
            obtain ⟨rest', rfl, hrest'⟩ := h.skip_inv hunmatched
            have hsplit : PlainPortfile k ([c] ++ content) := hplain
            have hrest : PlainPortfile (k.step c) content := hsplit.append
            refine agrees_char (fun htop => ?_) (ih content.length ?_ hrest hrest' rfl)
            · by_contra hcall
              exact hsite ⟨htop, hcall⟩
            · rw [← hlength, List.length_cons]
              exact Nat.lt_succ_self _

theorem pinsBumped_iff {args : Arguments} {content content' : Text} (hpins : PlainPins pins)
    (hplain : PlainPortfile top content) (h : bumpPortfile args pins content = .ok content') :
    PinsBumped pins content content' ↔ PinsReached pins top content := by
  rw [bumpPortfile] at h
  split at h
  · cases h
  next content'' count hsub =>
  split at h
  · cases h
  obtain rfl := Except.ok.inj h
  refine agrees_of_rewrites hpins hplain (rewrites_of_subn ?_ hsub)
  -- no match is empty
  intro found pieces rest hmatch hempty
  obtain ⟨b, rfl, -, -⟩ := block_of_matchPrefix hmatch
  rw [Block.flatten_pieces] at hempty
  simp [text] at hempty

end Reached

-- ============================================================================
-- The pins of a run
-- ============================================================================

theorem isWord_of_hexdigest {env : Environment} {path sha512 : Text}
    (h : env.archive path = .file sha512) : IsWord sha512 := by
  obtain ⟨hlength, hchars⟩ := env.hexdigest path sha512 h
  have hdigits : IsWord (text "0123456789abcdef") := by decide
  refine ⟨?_, fun c hc => hdigits.nonSpace c (hchars c hc), fun c hc => hdigits.plain c (hchars c hc)⟩
  rintro rfl
  cases hlength

/-- The hashes are the digests of archives. -/
def HashesWords (pins : RepoPins) : Prop :=
  ∀ repo ref sha512, pins repo = some (ref, sha512) → IsWord sha512

theorem hashesWords_update {pins : RepoPins} {repo ref sha512 : Text} (h : HashesWords pins)
    (hsha512 : IsWord sha512) :
    HashesWords (Function.update pins repo (some (ref, sha512))) := by
  intro repo' ref' sha512' hpin
  by_cases heq : repo' = repo
  · rw [heq, Function.update_self] at hpin
    cases hpin
    exact hsha512
  · rw [Function.update_of_ne heq] at hpin
    exact h repo' ref' sha512' hpin

theorem hashesWords_addSubmodule {env : Environment} {pins pins' : RepoPins}
    {submodule : Text × Text × Text × Text} (h : HashesWords pins)
    (hadd : addSubmodule env pins submodule = .ok pins') : HashesWords pins' := by
  rw [addSubmodule] at hadd
  split at hadd
  · cases hadd
  · cases hadd
  · next subSha512 harchive =>
      cases hadd
      exact hashesWords_update h (isWord_of_hexdigest harchive)

theorem hashesWords_foldlM {env : Environment} {submodules : List (Text × Text × Text × Text)}
    {pins pins' : RepoPins} (h : HashesWords pins)
    (hfold : submodules.foldlM (addSubmodule env) pins = .ok pins') : HashesWords pins' := by
  induction submodules generalizing pins with
  | nil =>
      cases hfold
      exact h
  | cons submodule submodules ih =>
      rw [List.foldlM_cons] at hfold
      cases hadd : addSubmodule env pins submodule with
      | error why =>
          rw [hadd] at hfold
          cases hfold
      | ok next =>
          rw [hadd] at hfold
          exact ih (hashesWords_addSubmodule h hadd) hfold

theorem hashesWords_of_makePins {env : Environment} {args : Arguments} {pins : RepoPins}
    (h : makePins env args = .ok pins) : HashesWords pins := by
  rw [makePins] at h
  split at h
  · cases h
  next submodules _ =>
  split at h
  · cases h
  · cases h
  next sha512 harchive =>
  refine hashesWords_foldlM (hashesWords_update (fun repo ref sha512' hpin => ?_)
    (isWord_of_hexdigest harchive)) h
  cases hpin

end RateThrottle.Scripts
