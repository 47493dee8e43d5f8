/-
  RateThrottle.Library.JsonLex

  How much text a JSON value takes.

  `content` scans a text for string tokens and counts the bytes between their
  quotes; it fails on a control character inside a token.  `weight` is what the
  strings of a value need at least: one byte per byte, two for a byte that
  cannot stand for itself.  A value that was read weighs no more than the tokens
  of the text it was read from (`weight_readValue`), so a text in which a string
  stands unescaped cannot be read back as that string.
-/

import RateThrottle.Library.Json

namespace Json

/-- Where a scan stands. -/
inductive Mode where
  | outside
  | inside
  | escaped

/-- The bytes inside string tokens. -/
def content : Mode → List UInt8 → Option Nat
  | .outside, [] => some 0
  | .inside, [] => none
  | .escaped, [] => none
  | .outside, c :: rest => if c = 34 then content .inside rest else content .outside rest
  | .inside, c :: rest =>
      if c = 34 then content .outside rest
      else if c < 32 then none
      else (content (if c = 92 then .escaped else .inside) rest).map (· + 1)
  | .escaped, c :: rest =>
      if c < 32 then none else (content .inside rest).map (· + 1)

/-- What a string needs between its quotes. -/
def need (s : List UInt8) : Nat := s.length + s.countP fun c => !isPlain c

mutual

/-- What the strings of a value need. -/
def weight : Json → Nat
  | string s => need s
  | array elements => weightElements elements
  | object members => weightMembers members
  | _ => 0

def weightElements : List Json → Nat
  | [] => 0
  | element :: rest => weight element + weightElements rest

def weightMembers : List (List UInt8 × Json) → Nat
  | [] => 0
  | (key, value) :: rest => need key + weight value + weightMembers rest

end

theorem need_append (s t : List UInt8) : need (s ++ t) = need s + need t := by
  rw [need, need, need, List.length_append, List.countP_append]
  omega

theorem need_le (s : List UInt8) : need s ≤ 2 * s.length := by
  have hcount := List.countP_le_length (p := fun c => !isPlain c) (l := s)
  rw [need]
  omega

theorem length_le_need (s : List UInt8) : s.length ≤ need s := Nat.le_add_right _ _

/-- Only plain strings need no more than their length. -/
theorem isPlain_of_need_le {s : List UInt8} (h : need s ≤ s.length) : ∀ c ∈ s, isPlain c = true := by
  intro c hc
  have hzero : s.countP (fun c => !isPlain c) = 0 := by
    rw [need] at h
    omega
  rw [List.countP_eq_zero] at hzero
  simpa using hzero c hc

/-- An encoded code point needs no more than the escapes that can stand for it. -/
theorem need_encodeUtf8 (point : Nat) :
    need (encodeUtf8 point) ≤ 8 ∧ (point < 0x10000 → need (encodeUtf8 point) ≤ 6) := by
  have hneed := need_le (encodeUtf8 point)
  have hlength : (encodeUtf8 point).length ≤ 4 ∧
      (point < 0x10000 → (encodeUtf8 point).length ≤ 3) := by
    rw [encodeUtf8]
    split
    · exact ⟨by simp, fun _ => by simp⟩
    · split
      · exact ⟨by simp, fun _ => by simp⟩
      · split
        · exact ⟨by simp, fun _ => by simp⟩
        · next h => exact ⟨by simp, fun hlt => absurd hlt h⟩
  refine ⟨?_, ?_⟩
  · omega
  · intro hpoint
    have hshort := hlength.2 hpoint
    omega

/-- The text starts, inside a token, with what `s` needs, and `rest` follows the
    token. -/
def Covers (mode : Mode) (text : List UInt8) (needed : Nat) (rest : List UInt8) : Prop :=
  ∀ m, content .outside rest = some m → ∃ n, content mode text = some n ∧ needed + m ≤ n

theorem Covers.mono {mode : Mode} {text rest : List UInt8} {k n : Nat}
    (h : Covers mode text n rest) (hk : k ≤ n) : Covers mode text k rest := by
  intro m hm
  obtain ⟨count, hcount, hn⟩ := h m hm
  exact ⟨count, hcount, by omega⟩

/-- A plain byte adds one to what follows. -/
theorem Covers.plain {c : UInt8} {text rest : List UInt8} {k : Nat} (hc : isPlain c = true)
    (h : Covers .inside text k rest) : Covers .inside (c :: text) (k + 1) rest := by
  intro m hm
  obtain ⟨hquote, hescape, hcontrol⟩ := isPlain_iff.mp hc
  obtain ⟨count, hcount, hn⟩ := h m hm
  refine ⟨count + 1, ?_, by omega⟩
  rw [content, if_neg hquote, if_neg hcontrol, if_neg hescape, hcount]
  rfl

/-- An escape adds two. -/
theorem Covers.escape {e : UInt8} {text rest : List UInt8} {k : Nat} (he : ¬ e < 32)
    (h : Covers .inside text k rest) : Covers .inside (92 :: e :: text) (k + 2) rest := by
  intro m hm
  obtain ⟨count, hcount, hn⟩ := h m hm
  refine ⟨count + 2, ?_, by omega⟩
  have hescaped : content .escaped (e :: text) = some (count + 1) := by
    rw [content, if_neg he, hcount]
    rfl
  show (content .escaped (e :: text)).map (· + 1) = _
  rw [hescaped]
  rfl

theorem isPlain_of_hexDigit {c : UInt8} {n : Nat} (h : hexDigit c = some n) :
    isPlain c = true ∧ n < 16 := by
  simp only [hexDigit, UInt8.le_iff_toNat_le, UInt8.reduceToNat] at h
  have hplain : 48 ≤ c.toNat ∧ c.toNat ≤ 102 ∧ c.toNat ≠ 92 → isPlain c = true := by
    rintro ⟨hlow, _, hne⟩
    refine isPlain_iff.mpr ⟨?_, ?_, ?_⟩
    · rintro rfl
      exact absurd hlow (by decide)
    · rintro rfl
      exact hne rfl
    · rw [UInt8.lt_iff_toNat_lt]
      simp only [UInt8.reduceToNat]
      omega
  split at h
  · have hn := Option.some.inj h
    exact ⟨hplain (by omega), by omega⟩
  · split at h
    · have hn := Option.some.inj h
      exact ⟨hplain (by omega), by omega⟩
    · split at h
      · have hn := Option.some.inj h
        exact ⟨hplain (by omega), by omega⟩
      · cases h

/-- A four-digit escape adds six. -/
theorem Covers.hex4 {a b c d : UInt8} {v : Nat} {text rest : List UInt8} {k : Nat}
    (hv : hex4 a b c d = some v) (h : Covers .inside text k rest) :
    Covers .inside (92 :: 117 :: a :: b :: c :: d :: text) (k + 6) rest ∧ v < 0x10000 := by
  simp only [Json.hex4, Option.bind_eq_bind, Option.bind_eq_some_iff, Option.pure_def,
    Option.some.injEq] at hv
  obtain ⟨va, ha, vb, hb, vc, hc, vd, hd, rfl⟩ := hv
  obtain ⟨ha, ha'⟩ := isPlain_of_hexDigit ha
  obtain ⟨hb, hb'⟩ := isPlain_of_hexDigit hb
  obtain ⟨hc, hc'⟩ := isPlain_of_hexDigit hc
  obtain ⟨hd, hd'⟩ := isPlain_of_hexDigit hd
  refine ⟨?_, by omega⟩
  exact (((((h.plain hd).plain hc).plain hb).plain ha).escape (by decide)).mono (by omega)

theorem not_lt_of_shortEscape {e c : UInt8} (h : shortEscape e = some c) : ¬ e < 32 := by
  intro hlt
  have hne : ∀ d : UInt8, ¬ d < 32 → e ≠ d := by
    rintro d hd rfl
    exact hd hlt
  rw [shortEscape] at h
  simp [hne 34 (by decide), hne 92 (by decide), hne 47 (by decide), hne 98 (by decide),
    hne 102 (by decide), hne 110 (by decide), hne 114 (by decide), hne 116 (by decide)] at h

/-- The characters read for a string took at least what the string needs. -/
theorem covers_readChars (text : List UInt8) (r : List UInt8 × List UInt8)
    (h : readChars text = some r) : Covers .inside text (need r.1) r.2 := by
  fun_induction readChars text generalizing r with
  | case2 rest =>
      cases h
      intro m hm
      exact ⟨m, by rw [content, if_pos rfl]; exact hm, by rw [need]; simp⟩
  | case5 e rest c hshort _ _ ih =>
      obtain ⟨r', hr', rfl⟩ := Option.map_eq_some_iff.mp h
      have hneed := need_le [c]
      refine ((ih r' hr').escape (not_lt_of_shortEscape hshort)).mono ?_
      rw [prepend, need_append]
      simp only [List.length_singleton] at hneed
      omega
  | case6 h₁ h₂ h₃ h₄ rest _ _ _ ihlow ihhigh =>
      obtain ⟨high, hhigh, h⟩ := Option.bind_eq_some_iff.mp h
      split at h
      · split at h
        · -- two escapes for one code point
          obtain ⟨low, hlow, h⟩ := Option.bind_eq_some_iff.mp h
          obtain ⟨point, -, h⟩ := Option.bind_eq_some_iff.mp h
          obtain ⟨r', hr', rfl⟩ := Option.map_eq_some_iff.mp h
          have hcovers := (((ihlow r' hr').hex4 hlow).1.hex4 hhigh).1
          have hneed := (need_encodeUtf8 point).1
          refine hcovers.mono ?_
          rw [prepend, need_append]
          omega
        · cases h
      · obtain ⟨r', hr', rfl⟩ := Option.map_eq_some_iff.mp h
        obtain ⟨hcovers, hpoint⟩ := (ihhigh r' hr').hex4 hhigh
        have hneed := (need_encodeUtf8 high).2 hpoint
        refine hcovers.mono ?_
        rw [prepend, need_append]
        omega
  | case9 c rest hquote hcontrol hescape ih =>
      obtain ⟨r', hr', rfl⟩ := Option.map_eq_some_iff.mp h
      have hplain := isPlain_iff.mpr ⟨hquote, hescape, hcontrol⟩
      refine ((ih r' hr').plain hplain).mono ?_
      rw [prepend, need_append, need]
      simp only [List.length_singleton, List.countP_singleton, hplain]
      simp only [Bool.not_true, Bool.false_eq_true, if_false]
      omega
  | _ => cases h

/-! ## Outside tokens -/

theorem Covers.trans {text mid rest : List UInt8} {k n : Nat} (h : Covers .outside text k mid)
    (h' : Covers .outside mid n rest) : Covers .outside text (k + n) rest := by
  intro m hm
  obtain ⟨count', hcount', hn'⟩ := h' m hm
  obtain ⟨count, hcount, hn⟩ := h count' hcount'
  exact ⟨count, hcount, by omega⟩

/-- Whether a text has a quote can be computed. -/
theorem forall_ne_quote {text : List UInt8} (h : text.all (· ≠ 34) = true) :
    ∀ c ∈ text, c ≠ 34 := fun c hc => of_decide_eq_true (List.all_eq_true.mp h c hc)

/-- Text without a quote holds no token. -/
theorem content_append {skipped : List UInt8} (h : ∀ c ∈ skipped, c ≠ 34) (text : List UInt8) :
    content .outside (skipped ++ text) = content .outside text := by
  induction skipped with
  | nil => rfl
  | cons c skipped ih =>
      rw [List.cons_append, content, if_neg (h c List.mem_cons_self)]
      exact ih fun d hd => h d (List.mem_cons_of_mem c hd)

theorem covers_append {skipped : List UInt8} (h : ∀ c ∈ skipped, c ≠ 34) (text : List UInt8) :
    Covers .outside (skipped ++ text) 0 text := by
  intro m hm
  exact ⟨m, by rw [content_append h, hm], by omega⟩

theorem Covers.skip {c : UInt8} (hc : c ≠ 34) {text rest : List UInt8} {k : Nat}
    (h : Covers .outside text k rest) : Covers .outside (c :: text) k rest := by
  have hskip : Covers .outside ([c] ++ text) 0 text := covers_append (by simpa using hc) text
  exact (hskip.trans h).mono (by omega)

theorem Covers.refl (text : List UInt8) : Covers .outside text 0 text :=
  fun m hm => ⟨m, hm, by omega⟩

/-- Bytes of a class without the quote. -/
theorem content_dropWhile {p : UInt8 → Bool} (hp : p 34 = false) (text : List UInt8) :
    content .outside text = content .outside (text.dropWhile p) := by
  have hskipped : ∀ c ∈ text.takeWhile p, c ≠ 34 := by
    rintro c hc rfl
    rw [List.mem_takeWhile_imp hc] at hp
    cases hp
  have hskip := content_append hskipped (text.dropWhile p)
  rwa [List.takeWhile_append_dropWhile] at hskip

theorem covers_dropWhile {p : UInt8 → Bool} (hp : p 34 = false) (text : List UInt8) :
    Covers .outside text 0 (text.dropWhile p) := by
  intro m hm
  exact ⟨m, by rw [content_dropWhile hp, hm], by omega⟩

theorem Covers.space {text rest : List UInt8} {k : Nat}
    (h : Covers .outside (skipSpace text) k rest) : Covers .outside text k rest :=
  ((covers_dropWhile rfl text).trans h).mono (by omega)

/-- A string token, from its opening quote. -/
theorem covers_readString {text : List UInt8} {r : List UInt8 × List UInt8}
    (h : readString text = some r) : Covers .outside (34 :: text) (need r.1) r.2 := by
  obtain ⟨chars, hchars, h⟩ := Option.bind_eq_some_iff.mp h
  split at h
  · cases h
    exact covers_readChars text _ hchars
  · cases h

/-! ## Numbers and literals -/

theorem covers_optional {c : UInt8} (hc : c ≠ 34) (text : List UInt8) :
    Covers .outside text 0 (optional c text).2 := by
  cases text with
  | nil => exact Covers.refl []
  | cons d text =>
      rw [optional]
      split
      · next heq =>
          subst heq
          exact (Covers.refl text).skip hc
      · exact Covers.refl _

theorem covers_readInt {text : List UInt8} {r : List UInt8 × List UInt8}
    (h : readInt text = some r) : Covers .outside text 0 r.2 := by
  cases text with
  | nil => cases h
  | cons c text =>
      rw [readInt] at h
      split at h
      · next heq =>
          cases h
          exact (Covers.refl text).skip (by rw [heq]; decide)
      · split at h
        · next hdigit =>
            cases h
            refine (covers_dropWhile rfl text).skip ?_
            rintro rfl
            cases hdigit
        · cases h

theorem covers_readDigits {text : List UInt8} {r : List UInt8 × List UInt8}
    (h : readDigits text = some r) : Covers .outside text 0 r.2 := by
  rw [readDigits] at h
  split at h
  · cases h
  · cases h
    exact covers_dropWhile rfl text

theorem covers_readFraction {text : List UInt8} {r : Option (List UInt8) × List UInt8}
    (h : readFraction text = some r) : Covers .outside text 0 r.2 := by
  have hoptional := covers_optional (c := 46) (by decide) text
  rw [readFraction] at h
  split at h
  · next rest heq =>
      obtain ⟨r', hr', rfl⟩ := Option.map_eq_some_iff.mp h
      rw [heq] at hoptional
      exact hoptional.trans (covers_readDigits hr')
  · next rest heq =>
      cases h
      rwa [heq] at hoptional

theorem covers_readExponent {text : List UInt8} {r : Option Int × List UInt8}
    (h : readExponent text = some r) : Covers .outside text 0 r.2 := by
  cases text with
  | nil =>
      cases h
      exact Covers.refl []
  | cons c text =>
      rw [readExponent] at h
      split at h
      · next hc =>
          obtain ⟨r', hr', rfl⟩ := Option.map_eq_some_iff.mp h
          have hminus := covers_optional (c := 45) (by decide) text
          have hsigned : Covers .outside text 0 (if (optional 45 text).1 = true then
              (optional 45 text).2 else (optional 43 (optional 45 text).2).2) := by
            split
            · exact hminus
            · exact hminus.trans (covers_optional (by decide) _)
          refine ((hsigned.trans (covers_readDigits hr')).skip ?_)
          rcases hc with rfl | rfl <;> decide
      · cases h
        exact Covers.refl _

theorem weight_number (negative : Bool) (int : List UInt8) (fraction : Option (List UInt8))
    (exponent : Option Int) : weight (number negative int fraction exponent) = 0 := by
  simp only [number]
  split
  · split
    · split <;> rfl
    · split <;> rfl
  · rfl

theorem covers_readNumber {text : List UInt8} {r : Json × List UInt8}
    (h : readNumber text = some r) : Covers .outside text (weight r.1) r.2 := by
  obtain ⟨int, hint, h⟩ := Option.bind_eq_some_iff.mp h
  obtain ⟨fraction, hfraction, h⟩ := Option.bind_eq_some_iff.mp h
  obtain ⟨exponent, hexponent, rfl⟩ := Option.map_eq_some_iff.mp h
  have hsign := covers_optional (c := 45) (by decide) text
  have hdigits := (covers_readInt hint).trans (covers_readFraction hfraction)
  refine (hsign.trans (hdigits.trans (covers_readExponent hexponent))).mono ?_
  exact (weight_number _ _ _ _).le

theorem covers_readLiteral {literal text : List UInt8} {value : Json} {r : Json × List UInt8}
    (hliteral : literal.all (· ≠ 34) = true) (hvalue : weight value = 0)
    (h : readLiteral literal value text = some r) : Covers .outside text (weight r.1) r.2 := by
  rw [readLiteral] at h
  split at h
  · next heq =>
      cases h
      have hskip := covers_append (forall_ne_quote hliteral) (text.drop literal.length)
      nth_rewrite 1 [← heq] at hskip
      rw [List.take_append_drop] at hskip
      exact hskip.mono hvalue.le
  · cases h

/-! ## Values -/

/-- A function that reads one value and never weighs more than it has read. -/
def Weighs (readValue : List UInt8 → Option (Json × List UInt8)) : Prop :=
  ∀ text r, readValue text = some r → Covers .outside text (weight r.1) r.2

variable {readValue : List UInt8 → Option (Json × List UInt8)}

theorem covers_readElements (hread : Weighs readValue) {fuel : Nat} (text : List UInt8)
    (r : List Json × List UInt8) (h : readElements readValue fuel text = some r) :
    Covers .outside text (weightElements r.1) r.2 := by
  induction fuel generalizing text r with
  | zero => cases h
  | succ fuel ih =>
      rw [readElements] at h
      obtain ⟨element, helement, h⟩ := Option.bind_eq_some_iff.mp h
      have hfirst := hread text element helement
      split at h
      · cases h
      · next c rest hrest =>
          split at h
          · next hcomma =>
              obtain ⟨r', hr', rfl⟩ := Option.map_eq_some_iff.mp h
              have hmore : Covers .outside element.2 _ r'.2 :=
                Covers.space (hrest ▸ (ih rest r' hr').skip (by rw [hcomma]; decide))
              exact hfirst.trans hmore
          · split at h
            · next hclose =>
                cases h
                have hmore : Covers .outside element.2 0 rest :=
                  Covers.space (hrest ▸ (Covers.refl rest).skip (by rw [hclose]; decide))
                exact hfirst.trans hmore
            · cases h

theorem covers_readMembers (hread : Weighs readValue) {fuel : Nat} (text : List UInt8)
    (r : List (List UInt8 × Json) × List UInt8)
    (h : readMembers readValue fuel text = some r) :
    Covers .outside text (weightMembers r.1) r.2 := by
  induction fuel generalizing text r with
  | zero => cases h
  | succ fuel ih =>
      rw [readMembers] at h
      split at h
      · cases h
      · next quote rest hquote =>
          split at h
          · next heq =>
              subst heq
              obtain ⟨key, hkey, h⟩ := Option.bind_eq_some_iff.mp h
              have htoken : Covers .outside text (need key.1) key.2 :=
                Covers.space (hquote ▸ covers_readString hkey)
              split at h
              · cases h
              · next colon rest hcolon =>
                  split at h
                  · next heq =>
                      obtain ⟨value, hvalue, h⟩ := Option.bind_eq_some_iff.mp h
                      have hmember : Covers .outside text (need key.1 + weight value.1) value.2 :=
                        htoken.trans (Covers.space
                          (hcolon ▸ (hread rest value hvalue).skip (by rw [heq]; decide)))
                      split at h
                      · cases h
                      · next c rest hrest =>
                          split at h
                          · next hcomma =>
                              obtain ⟨r', hr', rfl⟩ := Option.map_eq_some_iff.mp h
                              exact hmember.trans (Covers.space
                                (hrest ▸ (ih rest r' hr').skip (by rw [hcomma]; decide)))
                          · split at h
                            · next hclose =>
                                cases h
                                exact hmember.trans (Covers.space
                                  (hrest ▸ (Covers.refl rest).skip (by rw [hclose]; decide)))
                            · cases h
                  · cases h
          · cases h

theorem weightMembers_setMember (key : List UInt8) (value : Json)
    (members : List (List UInt8 × Json)) :
    weightMembers (setMember key value members)
      ≤ need key + weight value + weightMembers members := by
  induction members with
  | nil => exact le_rfl
  | cons m rest ih =>
      rw [setMember]
      split
      · simp only [weightMembers]
        omega
      · split
        · exact le_rfl
        · simp only [weightMembers]
          omega

/-- What a repeated key loses is never more than was written. -/
theorem weightMembers_mapOf (members : List (List UInt8 × Json)) :
    weightMembers (mapOf members) ≤ weightMembers members := by
  suffices h : ∀ map, weightMembers (members.foldl (fun map m => setMember m.1 m.2 map) map)
      ≤ weightMembers map + weightMembers members from (h []).trans (by simp [weightMembers])
  induction members with
  | nil => exact fun map => le_rfl
  | cons m rest ih =>
      intro map
      have hset := weightMembers_setMember m.1 m.2 map
      have hrest := ih (setMember m.1 m.2 map)
      rw [List.foldl_cons]
      simp only [weightMembers]
      omega

/-- An array or object from its opening bracket: empty, or with a body. -/
theorem covers_bracket {bracket close : UInt8} (hbracket : bracket ≠ 34) (hclose : close ≠ 34)
    {rest : List UInt8} {empty : Json} (hempty : weight empty = 0)
    {body : Option (Json × List UInt8)}
    (hbody : ∀ r, body = some r → Covers .outside rest (weight r.1) r.2)
    {r : Json × List UInt8}
    (h : (match skipSpace rest with
        | [] => none
        | d :: after => if d = close then some (empty, after) else body) = some r) :
    Covers .outside (bracket :: rest) (weight r.1) r.2 := by
  apply Covers.skip hbracket
  split at h
  · cases h
  · next d after hrest =>
      split at h
      · next heq =>
          cases h
          rw [hempty]
          exact Covers.space (hrest ▸ (Covers.refl after).skip (heq ▸ hclose))
      · exact hbody r h

/-- **A value weighs no more than the text it was read from.** -/
theorem weighs_readValue (fuel : Nat) : Weighs (Json.readValue fuel) := by
  induction fuel with
  | zero =>
      intro text r h
      cases h
  | succ fuel ih =>
      intro text r h
      rw [Json.readValue] at h
      split at h
      · cases h
      · next c rest hc =>
          apply Covers.space
          rw [hc]
          split at h
          · next hquote =>
              obtain ⟨s, hs, rfl⟩ := Option.map_eq_some_iff.mp h
              rw [hquote]
              exact covers_readString hs
          · next hquote =>
              split at h
              · refine covers_bracket hquote (by decide) rfl (fun r hr => ?_) h
                obtain ⟨r', hr', rfl⟩ := Option.map_eq_some_iff.mp hr
                exact covers_readElements ih rest r' hr'
              · split at h
                · refine covers_bracket hquote (by decide) rfl (fun r hr => ?_) h
                  obtain ⟨r', hr', rfl⟩ := Option.map_eq_some_iff.mp hr
                  exact (covers_readMembers ih rest r' hr').mono (weightMembers_mapOf r'.1)
                · split at h
                  · exact covers_readLiteral (by decide) rfl h
                  · split at h
                    · exact covers_readLiteral (by decide) rfl h
                    · split at h
                      · exact covers_readLiteral (by decide) rfl h
                      · exact covers_readNumber h

/-- A document, read whole, holds in its tokens what its value needs. -/
theorem weight_read {text rest : List UInt8} {value : Json}
    (h : read text = some (value, rest)) (hrest : skipSpace rest = []) :
    ∃ n, content .outside text = some n ∧ weight value ≤ n := by
  have hend : content .outside rest = some 0 := by
    rw [content_dropWhile (p := isSpace) rfl]
    show content .outside (skipSpace rest) = some 0
    rw [hrest]
    rfl
  obtain ⟨n, hn, hle⟩ := weighs_readValue _ text _ h 0 hend
  exact ⟨n, hn, by omega⟩

/-! ## Counting a text -/

/-- A plain name between quotes counts its length. -/
theorem content_name {name : List UInt8} (hname : ∀ c ∈ name, isPlain c = true)
    (text : List UInt8) :
    content .inside (name ++ 34 :: text) = (content .outside text).map (· + name.length) := by
  induction name with
  | nil =>
      rw [List.nil_append, content, if_pos rfl]
      cases content .outside text <;> rfl
  | cons c name ih =>
      obtain ⟨hquote, hescape, hcontrol⟩ := isPlain_iff.mp (hname c List.mem_cons_self)
      rw [List.cons_append, content, if_neg hquote, if_neg hcontrol, if_neg hescape,
        ih fun d hd => hname d (List.mem_cons_of_mem c hd), Option.map_map]
      rfl

/-- Any bytes after an opening quote, when a quote, a comma and a line end follow
    them: the line end cannot be inside a token, so the last quote closes one, and
    the tokens of the line have no more than the bytes in between. -/
theorem content_line (mode : Mode) (s text : List UInt8) {n : Nat}
    (h : content mode (s ++ 34 :: 44 :: 10 :: text) = some n) :
    ∃ m, content .outside text = some m ∧ n ≤ s.length + m := by
  induction s generalizing mode n with
  | nil =>
      cases mode with
      | outside => cases h
      | inside => exact ⟨n, h, by simp⟩
      | escaped => cases h
  | cons c s ih =>
      rw [List.cons_append] at h
      rw [List.length_cons]
      cases mode with
      | outside =>
          rw [content] at h
          split at h
          · obtain ⟨m, hm, hn⟩ := ih _ h
            exact ⟨m, hm, by omega⟩
          · obtain ⟨m, hm, hn⟩ := ih _ h
            exact ⟨m, hm, by omega⟩
      | inside =>
          rw [content] at h
          split at h
          · obtain ⟨m, hm, hn⟩ := ih _ h
            exact ⟨m, hm, by omega⟩
          · split at h
            · cases h
            · obtain ⟨k, hk, rfl⟩ := Option.map_eq_some_iff.mp h
              obtain ⟨m, hm, hn⟩ := ih _ hk
              exact ⟨m, hm, by omega⟩
      | escaped =>
          rw [content] at h
          split at h
          · cases h
          · obtain ⟨k, hk, rfl⟩ := Option.map_eq_some_iff.mp h
            obtain ⟨m, hm, hn⟩ := ih _ hk
            exact ⟨m, hm, by omega⟩

/-! ## Members found in an object -/

/-- Without the members of one key, a list of members loses at most one. -/
theorem weightMembers_filter {key : List UInt8} {value : Json}
    {found : List (List UInt8 × Json)} (hnodup : (found.map Prod.fst).Nodup)
    (hvalue : ∀ m ∈ found, m.1 = key → m.2 = value) :
    weightMembers found
      ≤ need key + weight value + weightMembers (found.filter fun m => m.1 ≠ key) := by
  induction found with
  | nil => simp [weightMembers]
  | cons m rest ih =>
      rw [List.map_cons, List.nodup_cons] at hnodup
      by_cases hm : m.1 = key
      · -- no other member has the key
        have hrest : rest.filter (fun m => m.1 ≠ key) = rest := by
          rw [List.filter_eq_self]
          intro m' hm'
          rw [decide_eq_true_eq]
          rintro heq
          exact hnodup.1 (hm ▸ heq ▸ List.mem_map_of_mem hm')
        rw [List.filter_cons_of_neg (by simpa using hm), hrest]
        rw [← hvalue m List.mem_cons_self hm, ← hm]
        exact le_rfl
      · have hrest := ih hnodup.2 fun m' hm' => hvalue m' (List.mem_cons_of_mem m hm')
        rw [List.filter_cons_of_pos (by simpa using hm)]
        simp only [weightMembers]
        omega

/-- Members looked up under distinct keys weigh no more than the object. -/
theorem weightMembers_le_of_lookup {found members : List (List UInt8 × Json)}
    (hnodup : (found.map Prod.fst).Nodup) (hfound : ∀ m ∈ found, lookup m.1 members = some m.2) :
    weightMembers found ≤ weightMembers members := by
  induction members generalizing found with
  | nil =>
      cases found with
      | nil => exact le_rfl
      | cons m rest => cases hfound m List.mem_cons_self
  | cons first members ih =>
      have hfirst : ∀ m ∈ found, m.1 = first.1 → m.2 = first.2 := by
        intro m hm heq
        have hlookup := hfound m hm
        rw [lookup, if_pos heq.symm] at hlookup
        exact (Option.some.inj hlookup).symm
      have hsplit := weightMembers_filter hnodup hfirst
      have hrest : weightMembers (found.filter fun m => m.1 ≠ first.1) ≤ weightMembers members := by
        apply ih
        · exact hnodup.sublist (List.Sublist.map _ List.filter_sublist)
        · intro m hm
          obtain ⟨hm, hne⟩ := List.mem_filter.mp hm
          have hlookup := hfound m hm
          rwa [lookup, if_neg (Ne.symm (by simpa using hne))] at hlookup
      rw [weightMembers]
      omega

end Json
