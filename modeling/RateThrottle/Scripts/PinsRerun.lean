/-
  RateThrottle.Scripts.PinsRerun

  A second bump of portfile.cmake.

  In a portfile where every text that looks like the start of a block is that of
  a plain call, a place that BLOCK_RE passes over is passed over again, a block
  that was written is matched as a block with the pins for its values, and these
  are replaced by themselves (`bumpPortfile_again`).
-/

import RateThrottle.Library.Rewriting
import RateThrottle.Scripts.PortfilePins

namespace RateThrottle.Scripts

open Pattern CMake

-- ============================================================================
-- portfile.cmake
-- ============================================================================

/-- Every text that looks like the start of a block is that of a plain call. -/
def SteadyPortfile (content : Text) : Prop :=
  ∀ before found, content = before ++ found → text "vcpkg_from_github(" <+: found →
    ∃ pieces rest, matchPrefix blockRe found = some (pieces, rest) ∧
      ∀ b : Block, pieces = b.pieces → b.Plain rest

theorem SteadyPortfile.append {left right : Text} (h : SteadyPortfile (left ++ right)) :
    SteadyPortfile right := by
  intro before found hright hopen
  exact h (left ++ before) found (by rw [hright, List.append_assoc]) hopen

/-- A keyword with its value and white space around it. -/
theorem matchPrefix_keyword (keyword : Text) {gap value gap' tail rest : Text}
    {atoms : List (Atom Char)} {pieces : List Text}
    (hgap : gap ≠ [] ∧ ∀ c ∈ gap, isSpace c = true)
    (hvalue : value ≠ [] ∧ ∀ c ∈ value, nonSpace c = true)
    (hgap' : gap' ≠ [] ∧ ∀ c ∈ gap', isSpace c = true)
    (h : matchPrefix atoms tail = some (pieces, rest)) (hstop : Stops isSpace tail) :
    matchPrefix (.lit keyword :: .plus isSpace :: .plus nonSpace :: .star isSpace :: atoms)
        (keyword ++ (gap ++ (value ++ (gap' ++ tail))))
      = some (keyword :: gap :: value :: gap' :: pieces, rest) := by
  have hstart : Stops isSpace (value ++ (gap' ++ tail)) := by
    obtain ⟨c, value, rfl⟩ := List.exists_cons_of_ne_nil hvalue.1
    have hc := hvalue.2 c (List.mem_cons_self ..)
    rw [nonSpace, Bool.not_eq_true'] at hc
    exact stops_cons hc _
  rw [matchPrefix_lit, matchPrefix_plus hgap.1 hgap.2 hstart
    (matchPrefix_plus hvalue.1 hvalue.2 (Block.stops_gap hgap'.1 hgap'.2)
      (matchPrefix_star hgap'.2 hstop h))]
  rfl

namespace Block

/-- A block with white space after its values is matched, whatever follows. -/
theorem matchPrefix_pieces {b : Block} (haccepted : b.Accepted)
    (hends : b.gap₂ ≠ [] ∧ b.gap₄ ≠ [] ∧ b.gap₆ ≠ [] ∧ b.gap₈ ≠ []) (rest : Text) :
    matchPrefix blockRe (b.pieces.flatten ++ rest) = some (b.pieces, rest) := by
  obtain ⟨hgap, hgapne, hvalue⟩ := haccepted
  simp only [List.forall_mem_cons] at hgap hgapne hvalue
  obtain ⟨hgap₀, hgap₁, hgap₂, hgap₃, hgap₄, hgap₅, hgap₆, hgap₇, hgap₈, -⟩ := hgap
  obtain ⟨hne₁, hne₃, hne₅, hne₇, -⟩ := hgapne
  obtain ⟨hout, hrepo, href, hsha512, -⟩ := hvalue
  obtain ⟨hne₂, hne₄, hne₆, hne₈⟩ := hends
  have hclose : matchPrefix [.lit (text ")")] (text ")" ++ rest) = some ([text ")"], rest) :=
    matchPrefix_lit (text ")") [] rest
  have hsha := matchPrefix_keyword (text "SHA512") ⟨hne₇, hgap₇⟩ hsha512 ⟨hne₈, hgap₈⟩ hclose
    (stops_cons rfl _)
  have hrefs := matchPrefix_keyword (text "REF") ⟨hne₅, hgap₅⟩ href ⟨hne₆, hgap₆⟩ hsha
    (stops_cons rfl _)
  have hrepos := matchPrefix_keyword (text "REPO") ⟨hne₃, hgap₃⟩ hrepo ⟨hne₄, hgap₄⟩ hrefs
    (stops_cons rfl _)
  have houts := matchPrefix_keyword (text "OUT_SOURCE_PATH") ⟨hne₁, hgap₁⟩ hout ⟨hne₂, hgap₂⟩
    hrepos (stops_cons rfl _)
  have hstop : ∀ tail, Stops isSpace (text "OUT_SOURCE_PATH" ++ tail) :=
    fun _ => stops_cons rfl _
  rw [flatten_pieces, start]
  simp only [List.append_assoc]
  rw [blockRe, matchPrefix_lit, matchPrefix_star hgap₀ (hstop _) houts]
  rfl

/-- The parts of a block can be told from its pieces. -/
theorem pieces_injective {b b' : Block} (h : b.pieces = b'.pieces) : b = b' := by
  cases b
  cases b'
  simpa [pieces] using h

theorem accepted_pinned {b : Block} {ref sha512 : Text} (haccepted : b.Accepted)
    (href : IsWord ref) (hsha512 : IsWord sha512) : (b.pinned ref sha512).Accepted := by
  obtain ⟨hgap, hgapne, hvalue⟩ := haccepted
  refine ⟨hgap, hgapne, ?_⟩
  simp only [List.forall_mem_cons] at hvalue
  obtain ⟨hout, hrepo, -⟩ := hvalue
  simp only [pinned, List.forall_mem_cons]
  exact ⟨hout, hrepo, ⟨href.ne_nil, href.nonSpace⟩, ⟨hsha512.ne_nil, hsha512.nonSpace⟩, by simp⟩

/-- A plain call is one with the values of a pin too. -/
theorem plain_pinned {pins : RepoPins} {b : Block} {rest ref sha512 : Text} (hplain : b.Plain rest)
    (hpin : pins b.repo = some (ref, sha512)) (href : IsWord ref)
    (hend : ¬ text "SHA512" <:+ ref) (hsha512 : IsWord sha512) (rest' : Text) :
    (b.pinned ref sha512).Plain rest' := by
  obtain ⟨hcontent, hgap, hbody⟩ := callAt_eq_some.mp hplain.call
  have hset := pinsSet_pinned hplain hpin href hend hsha512
  have hbody' := closes_of_pinsSet hbody hset
  refine ⟨?_, ?_, hplain.oneSpace, hplain.ends, hplain.out, hplain.repo⟩
  · rw [callText_body]
    exact callAt_eq_some.mpr ⟨rfl, hgap, hbody'⟩
  · -- the tokens are those of the call, with two of them set
    have hne : unquote ref ≠ text "SHA512" := by
      rw [unquote_of_isPlain href.plain]
      rintro rfl
      exact hend List.suffix_rfl
    have hfirst : SetsArgument (text "REF") b.tokens (b.pinned ref b.sha512).tokens :=
      ⟨_, _, ref, _, splitArgument_ref hplain b.ref b.sha512, href.isArgument,
        by simp [Block.tokens, pinned, startTokens]⟩
    have hsecond : SetsArgument (text "SHA512") (b.pinned ref b.sha512).tokens
        (b.pinned ref sha512).tokens :=
      ⟨_, _, sha512, _, splitArgument_sha512 hplain hne b.sha512, hsha512.isArgument,
        by simp [Block.tokens, pinned, startTokens]⟩
    have hlist := body_tokens hbody
    rw [hplain.tokens] at hlist
    exact tokens_flatten (body_of_setsArgument hsecond (body_of_setsArgument hfirst hlist))

/-- A plain call with its pins is left as it is. -/
theorem rewriteBlock_pinned {pins : RepoPins} {b : Block} {rest ref sha512 : Text}
    (haccepted : b.Accepted) (hplain : b.Plain rest) (hpin : pins b.repo = some (ref, sha512))
    (href : IsWord ref) (hend : ¬ text "SHA512" <:+ ref) (hsha512 : IsWord sha512) :
    rewriteBlock pins (b.pinned ref sha512).pieces
      = .ok (b.pinned ref sha512).pieces.flatten :=
  rewriteBlock_eq (accepted_pinned haccepted href hsha512)
    (plain_pinned hplain hpin href hend hsha512 rest) hpin href hend hsha512

end Block

section Portfile

variable {pins : RepoPins}

/-- A block is written after two substitutions. -/
theorem of_rewriteBlock_eq_ok {pieces : List Text} {out : Text}
    (h : rewriteBlock pins pieces = .ok out) :
    ∃ ref sha512 middle, pins (pieces.getD 8 []) = some (ref, sha512) ∧
      subOnce refRe (text "REF " ++ ref) pieces.flatten = some middle ∧
      subOnce sha512Re (text "SHA512 " ++ sha512) middle = some out := by
  simp only [rewriteBlock] at h
  split at h
  · cases h
  · next ref sha512 hpin =>
      split at h
      · cases h
      · next middle href =>
          split at h
          · cases h
          · next out' hsha =>
              obtain rfl := Except.ok.inj h
              exact ⟨ref, sha512, middle, hpin, href, hsha⟩

/-- What is written for a block starts like a block. -/
theorem head?_of_rewriteBlock {t rest out : Text} {pieces : List Text}
    (hmatch : matchPrefix blockRe t = some (pieces, rest))
    (h : rewriteBlock pins pieces = .ok out) : out.head? = some 'v' := by
  obtain ⟨b, rfl, -, -⟩ := block_of_matchPrefix hmatch
  obtain ⟨ref, sha512, middle, -, href, hsha⟩ := of_rewriteBlock_eq_ok h
  have hfirst : middle.head? = some 'v' := head?_of_subOnce (by decide) rfl href
  exact head?_of_subOnce (by decide) hfirst hsha

/-- A place that is passed over is passed over again. -/
theorem block_skipped {c : Char} {t t' : Text} (hsteady : SteadyPortfile (c :: t))
    (hnone : matchPrefix blockRe (c :: t) = none) (h : Rewrites blockRe (rewriteBlock pins) t t') :
    matchPrefix blockRe (c :: t') = none := by
  by_contra hsome
  obtain ⟨⟨pieces, rest⟩, hmatch⟩ := Option.ne_none_iff_exists'.mp hsome
  obtain ⟨tail, hopen⟩ := prefix_of_matchPrefix hmatch
  have hliteral : text "vcpkg_from_github(" = 'v' :: text "cpkg_from_github(" := rfl
  rw [hliteral, List.cons_append] at hopen
  obtain ⟨rfl, rfl⟩ := List.cons.inj hopen
  -- the start of the block stood there before
  have hlead : ∀ t pieces rest out, matchPrefix blockRe t = some (pieces, rest) →
      rewriteBlock pins pieces = .ok out → out.head? = some 'v' :=
    fun _ _ _ _ hmatch hout => head?_of_rewriteBlock hmatch hout
  obtain ⟨t₀, rfl, -⟩ := h.of_append hlead (by decide)
  obtain ⟨pieces, rest, hfound, -⟩ := hsteady [] _ rfl ⟨t₀, rfl⟩
  rw [hnone] at hfound
  cases hfound

/-- A block that was written is found again, and is left as it is. -/
theorem block_again {t rest out : Text} {pieces : List Text} (hpins : PlainPins pins)
    (hsteady : SteadyPortfile t) (hmatch : matchPrefix blockRe t = some (pieces, rest))
    (hout : rewriteBlock pins pieces = .ok out) (rest' : Text) :
    ∃ pieces', matchPrefix blockRe (out ++ rest') = some (pieces', rest') ∧
      rewriteBlock pins pieces' = .ok out := by
  obtain ⟨pieces₁, rest₁, hfound, hblock⟩ := hsteady [] t rfl (prefix_of_matchPrefix hmatch)
  rw [hmatch] at hfound
  obtain ⟨rfl, rfl⟩ := Prod.mk.inj (Option.some.inj hfound)
  obtain ⟨b, rfl, haccepted, -⟩ := block_of_matchPrefix hmatch
  have hplain := hblock b rfl
  obtain ⟨ref, sha512, hpin⟩ := exists_pin_of_rewriteBlock hout
  obtain ⟨href, hend, hsha512⟩ := hpins b.repo ref sha512 hpin
  rw [Block.rewriteBlock_eq haccepted hplain hpin href hend hsha512] at hout
  obtain rfl := Except.ok.inj hout
  exact ⟨_, Block.matchPrefix_pieces (Block.accepted_pinned haccepted href hsha512) hplain.ends rest',
    Block.rewriteBlock_pinned haccepted hplain hpin href hend hsha512⟩

theorem block_flatten_ne_nil (t : Text) (pieces : List Text) (rest : Text)
    (h : matchPrefix blockRe t = some (pieces, rest)) : pieces.flatten ≠ [] := by
  obtain ⟨b, rfl, -, -⟩ := block_of_matchPrefix h
  rw [Block.flatten_pieces]
  simp [text, Block.start]

/-- A second bump of portfile.cmake changes nothing. -/
theorem bumpPortfile_again {args : Arguments} {content content' : Text} (hpins : PlainPins pins)
    (hsteady : SteadyPortfile content) (h : bumpPortfile args pins content = .ok content') :
    bumpPortfile args pins content' = .ok content' := by
  rw [bumpPortfile] at h
  split at h
  · cases h
  next content'' count hsub =>
  split at h
  · cases h
  next hcount =>
  obtain rfl := Except.ok.inj h
  have hagain := subn_self (P := SteadyPortfile) (fun _ _ h => h.append) block_flatten_ne_nil
    (fun _ _ _ _ rest' h hmatch hout => block_again hpins h hmatch hout rest')
    (fun _ _ _ h hnone hrest => block_skipped h hnone hrest) hsteady hsub
  rw [bumpPortfile, hagain]
  exact if_neg hcount

end Portfile

-- ============================================================================
-- Reading back what was written
-- ============================================================================

theorem not_mem_pinTemplate {keyword word : Text} (hword : IsWord word)
    (hkeyword : keyword = text "REF " ∨ keyword = text "SHA512 ") :
    '\\' ∉ keyword ++ word ∧ '\r' ∉ keyword ++ word := by
  have hslash := hword.not_mem
  have hcr : '\r' ∉ word := by
    intro hmem
    have hspace := hword.nonSpace _ hmem
    cases hspace
  simp only [List.mem_append, not_or]
  rcases hkeyword with rfl | rfl
  · exact ⟨⟨by decide, hslash⟩, by decide, hcr⟩
  · exact ⟨⟨by decide, hslash⟩, by decide, hcr⟩

theorem not_mem_bumpPortfile {args : Arguments} {pins : RepoPins} {content content' : Text}
    (hpins : PlainPins pins) (hcontent : '\r' ∉ content)
    (h : bumpPortfile args pins content = .ok content') : '\r' ∉ content' := by
  rw [bumpPortfile] at h
  split at h
  · cases h
  next content'' count hsub =>
  split at h
  · cases h
  obtain rfl := Except.ok.inj h
  have hrewrites := rewrites_of_subn block_flatten_ne_nil hsub
  have hall := hrewrites.forall_mem (Q := (· ≠ '\r'))
    (fun _ pieces _ out _ hout hpieces d hd heq => ?_) (fun d hd heq => hcontent (heq ▸ hd))
  · exact fun hmem => hall _ hmem rfl
  · obtain ⟨ref, sha512, middle, hpin, href, hsha⟩ := of_rewriteBlock_eq_ok hout
    obtain ⟨hrefword, -, hshaword⟩ := hpins _ ref sha512 hpin
    obtain ⟨hslash, hcr⟩ := not_mem_pinTemplate hrefword (Or.inl rfl)
    obtain ⟨hslash', hcr'⟩ := not_mem_pinTemplate hshaword (Or.inr rfl)
    have hmiddle := not_mem_of_subOnce hslash hcr (fun hmem => hpieces _ hmem rfl) href
    rw [heq] at hd
    exact not_mem_of_subOnce hslash' hcr' hmiddle hsha hd

end RateThrottle.Scripts
