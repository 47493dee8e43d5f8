/-
  RateThrottle.Library.Json

  JSON texts (RFC 8259) as bytes, and a reader for them.

  Numbers keep their exact decimal value.  A string is read byte by byte:
  control characters are refused, escapes are decoded, and what results must be
  valid UTF-8.  An object is a map ordered by key, in which a repeated key keeps
  its last value.

  The reader recurses on fuel; a text never needs more than its length.
-/

import Mathlib.Algebra.Order.Field.Rat
import RateThrottle.Library.Decimal

/-- A JSON value. -/
inductive Json where
  | null
  | bool (b : Bool)
  /-- A number without sign, fraction and exponent that fits 64 bits. -/
  | unsigned (n : Nat)
  /-- Such a number with a minus sign. -/
  | integer (i : Int)
  /-- Any other number. -/
  | float (q : ℚ)
  | string (s : List UInt8)
  | array (elements : List Json)
  | object (members : List (List UInt8 × Json))

namespace Json

open Decimal

/-! ## UTF-8 -/

/-- The ranges of the bytes that must follow a first byte. -/
def utf8Tail (c : UInt8) : Option (List (UInt8 × UInt8)) :=
  if c ≤ 0x7F then some []
  else if 0xC2 ≤ c ∧ c ≤ 0xDF then some [(0x80, 0xBF)]
  else if c = 0xE0 then some [(0xA0, 0xBF), (0x80, 0xBF)]
  else if c = 0xED then some [(0x80, 0x9F), (0x80, 0xBF)]
  else if 0xE1 ≤ c ∧ c ≤ 0xEF then some [(0x80, 0xBF), (0x80, 0xBF)]
  else if c = 0xF0 then some [(0x90, 0xBF), (0x80, 0xBF), (0x80, 0xBF)]
  else if 0xF1 ≤ c ∧ c ≤ 0xF3 then some [(0x80, 0xBF), (0x80, 0xBF), (0x80, 0xBF)]
  else if c = 0xF4 then some [(0x80, 0x8F), (0x80, 0xBF), (0x80, 0xBF)]
  else none

/-- Whether bytes are UTF-8, when the bytes of the given ranges are still owed. -/
def validUtf8From : List (UInt8 × UInt8) → List UInt8 → Bool
  | [], [] => true
  | _ :: _, [] => false
  | [], c :: rest =>
      match utf8Tail c with
      | none => false
      | some owed => validUtf8From owed rest
  | (least, greatest) :: owed, c :: rest =>
      least ≤ c && c ≤ greatest && validUtf8From owed rest

/-- Whether bytes are UTF-8. -/
def validUtf8 (s : List UInt8) : Bool := validUtf8From [] s

/-- The UTF-8 encoding of a code point. -/
def encodeUtf8 (point : Nat) : List UInt8 :=
  if point < 0x80 then [.ofNat point]
  else if point < 0x800 then [.ofNat (0xC0 + point / 0x40), .ofNat (0x80 + point % 0x40)]
  else if point < 0x10000 then
    [.ofNat (0xE0 + point / 0x1000), .ofNat (0x80 + point / 0x40 % 0x40),
      .ofNat (0x80 + point % 0x40)]
  else
    [.ofNat (0xF0 + point / 0x40000), .ofNat (0x80 + point / 0x1000 % 0x40),
      .ofNat (0x80 + point / 0x40 % 0x40), .ofNat (0x80 + point % 0x40)]

/-! ## Strings -/

/-- The character of a two-character escape. -/
def shortEscape (c : UInt8) : Option UInt8 :=
  if c = 34 ∨ c = 92 ∨ c = 47 then some c
  else if c = 98 then some 8
  else if c = 102 then some 12
  else if c = 110 then some 10
  else if c = 114 then some 13
  else if c = 116 then some 9
  else none

/-- The value of a hexadecimal digit. -/
def hexDigit (c : UInt8) : Option Nat :=
  if 48 ≤ c ∧ c ≤ 57 then some (c.toNat - 48)
  else if 65 ≤ c ∧ c ≤ 70 then some (c.toNat - 55)
  else if 97 ≤ c ∧ c ≤ 102 then some (c.toNat - 87)
  else none

/-- The number written by four hexadecimal digits. -/
def hex4 (a b c d : UInt8) : Option Nat := do
  let a ← hexDigit a
  let b ← hexDigit b
  let c ← hexDigit c
  let d ← hexDigit d
  return ((a * 16 + b) * 16 + c) * 16 + d

/-- Whether a code unit is half of a code point. -/
def isSurrogate (unit : Nat) : Bool := 0xD800 ≤ unit && unit < 0xE000

/-- The code point of a high surrogate and the low one that must follow. -/
def surrogatePair (high low : Nat) : Option Nat :=
  if high < 0xDC00 ∧ 0xDC00 ≤ low ∧ low < 0xE000 then
    some (0x10000 + (high - 0xD800) * 0x400 + (low - 0xDC00))
  else none

/-- Put decoded bytes in front of a string read after them. -/
def prepend (decoded : List UInt8) (r : List UInt8 × List UInt8) : List UInt8 × List UInt8 :=
  (decoded ++ r.1, r.2)

/-- The characters of a string up to its closing quote, decoded, and the text
    after the quote. -/
def readChars : List UInt8 → Option (List UInt8 × List UInt8)
  | [] => none
  | c :: rest =>
      if c = 34 then some ([], rest)
      else if c < 32 then none
      else if c = 92 then
        match rest with
        | [] => none
        | e :: rest =>
            match shortEscape e with
            | some c => (readChars rest).map (prepend [c])
            | none =>
                if e = 117 then
                  match rest with
                  | h₁ :: h₂ :: h₃ :: h₄ :: rest =>
                      (hex4 h₁ h₂ h₃ h₄).bind fun high =>
                      if isSurrogate high then
                        match rest with
                        | 92 :: 117 :: l₁ :: l₂ :: l₃ :: l₄ :: rest =>
                            (hex4 l₁ l₂ l₃ l₄).bind fun low =>
                            (surrogatePair high low).bind fun point =>
                            (readChars rest).map (prepend (encodeUtf8 point))
                        | _ => none
                      else (readChars rest).map (prepend (encodeUtf8 high))
                  | _ => none
                else none
      else (readChars rest).map (prepend [c])

/-- A string, after its opening quote. -/
def readString (text : List UInt8) : Option (List UInt8 × List UInt8) :=
  (readChars text).bind fun r => if validUtf8 r.1 then some r else none

/-! ## Numbers -/

/-- An optional character. -/
def optional (c : UInt8) : List UInt8 → Bool × List UInt8
  | [] => (false, [])
  | d :: rest => if d = c then (true, rest) else (false, d :: rest)

/-- The digits before the point: a zero, or digits that do not start with one. -/
def readInt (text : List UInt8) : Option (List UInt8 × List UInt8) :=
  match text with
  | [] => none
  | c :: rest =>
      if c = 48 then some ([c], rest)
      else if isDigit c then some (c :: rest.takeWhile isDigit, rest.dropWhile isDigit)
      else none

/-- One digit or more. -/
def readDigits (text : List UInt8) : Option (List UInt8 × List UInt8) :=
  if text.takeWhile isDigit = [] then none
  else some (text.takeWhile isDigit, text.dropWhile isDigit)

/-- The digits after the point, if there is one. -/
def readFraction (text : List UInt8) : Option (Option (List UInt8) × List UInt8) :=
  match optional 46 text with
  | (true, rest) => (readDigits rest).map fun r => (some r.1, r.2)
  | (false, rest) => some (none, rest)

/-- The exponent, if there is one. -/
def readExponent (text : List UInt8) : Option (Option Int × List UInt8) :=
  match text with
  | c :: rest =>
      if c = 69 ∨ c = 101 then
        let negative := (optional 45 rest).1
        let rest := (optional 45 rest).2
        let rest := if negative then rest else (optional 43 rest).2
        (readDigits rest).map fun r =>
          (some (if negative then -(ofDigits r.1 : Int) else ofDigits r.1), r.2)
      else some (none, c :: rest)
  | [] => some (none, [])

/-- The value of a number from its parts. -/
def number (negative : Bool) (int : List UInt8) (fraction : Option (List UInt8))
    (exponent : Option Int) : Json :=
  let digits := int ++ fraction.getD []
  let magnitude : ℚ :=
    ofDigits digits * (10 : ℚ) ^ (exponent.getD 0 - ((fraction.getD []).length : Int))
  let value := if negative then -magnitude else magnitude
  match fraction, exponent with
  | none, none =>
      let n := ofDigits int
      if negative then if n ≤ 2 ^ 63 then integer (-n) else float value
      else if n < 2 ^ 64 then unsigned n else float value
  | _, _ => float value

/-- A number. -/
def readNumber (text : List UInt8) : Option (Json × List UInt8) :=
  let negative := (optional 45 text).1
  (readInt (optional 45 text).2).bind fun int =>
  (readFraction int.2).bind fun fraction =>
  (readExponent fraction.2).map fun exponent =>
    (number negative int.1 fraction.1 exponent.1, exponent.2)

/-! ## Values -/

def isSpace (c : UInt8) : Bool := c = 32 || c = 9 || c = 10 || c = 13

/-- The text after white space. -/
def skipSpace (text : List UInt8) : List UInt8 := text.dropWhile isSpace

/-- The text after a literal name. -/
def readLiteral (literal : List UInt8) (value : Json) (text : List UInt8) :
    Option (Json × List UInt8) :=
  if text.take literal.length = literal then some (value, text.drop literal.length) else none

/-- The elements of an array that has some, and the text after its bracket. -/
def readElements (readValue : List UInt8 → Option (Json × List UInt8)) :
    Nat → List UInt8 → Option (List Json × List UInt8)
  | 0, _ => none
  | fuel + 1, text =>
      (readValue text).bind fun element =>
      match skipSpace element.2 with
      | [] => none
      | c :: rest =>
          if c = 44 then
            (readElements readValue fuel rest).map fun r => (element.1 :: r.1, r.2)
          else if c = 93 then some ([element.1], rest)
          else none

/-- The members of an object that has some, and the text after its brace. -/
def readMembers (readValue : List UInt8 → Option (Json × List UInt8)) :
    Nat → List UInt8 → Option (List (List UInt8 × Json) × List UInt8)
  | 0, _ => none
  | fuel + 1, text =>
      match skipSpace text with
      | [] => none
      | quote :: rest =>
          if quote = 34 then
            (readString rest).bind fun key =>
            match skipSpace key.2 with
            | [] => none
            | colon :: rest =>
                if colon = 58 then
                  (readValue rest).bind fun value =>
                  match skipSpace value.2 with
                  | [] => none
                  | c :: rest =>
                      if c = 44 then
                        (readMembers readValue fuel rest).map fun r =>
                          ((key.1, value.1) :: r.1, r.2)
                      else if c = 125 then some ([(key.1, value.1)], rest)
                      else none
                else none
          else none

/-- Set a key of an ordered map. -/
def setMember (key : List UInt8) (value : Json) :
    List (List UInt8 × Json) → List (List UInt8 × Json)
  | [] => [(key, value)]
  | m :: rest =>
      if key = m.1 then (key, value) :: rest
      else if key < m.1 then (key, value) :: m :: rest
      else m :: setMember key value rest

/-- The map of members in the order they are written. -/
def mapOf (members : List (List UInt8 × Json)) : List (List UInt8 × Json) :=
  members.foldl (fun map m => setMember m.1 m.2 map) []

/-- A value, with white space in front of it. -/
def readValue : Nat → List UInt8 → Option (Json × List UInt8)
  | 0, _ => none
  | fuel + 1, text =>
      match skipSpace text with
      | [] => none
      | c :: rest =>
          if c = 34 then (readString rest).map fun r => (string r.1, r.2)
          else if c = 91 then
            match skipSpace rest with
            | [] => none
            | d :: after =>
                if d = 93 then some (array [], after)
                else (readElements (readValue fuel) fuel rest).map fun r => (array r.1, r.2)
          else if c = 123 then
            match skipSpace rest with
            | [] => none
            | d :: after =>
                if d = 125 then some (object [], after)
                else (readMembers (readValue fuel) fuel rest).map fun r =>
                  (object (mapOf r.1), r.2)
          else if c = 116 then readLiteral [116, 114, 117, 101] (bool true) (c :: rest)
          else if c = 102 then readLiteral [102, 97, 108, 115, 101] (bool false) (c :: rest)
          else if c = 110 then readLiteral [110, 117, 108, 108] null (c :: rest)
          else readNumber (c :: rest)

/-- The value at the start of a text, and the text after it. -/
def read (text : List UInt8) : Option (Json × List UInt8) := readValue (text.length + 1) text

/-- A well-formed JSON document is one value and white space around it. -/
def WellFormed (text : List UInt8) : Prop :=
  ∃ value rest, read text = some (value, rest) ∧ skipSpace rest = []

/-- The value of a key of an ordered map. -/
def lookup (key : List UInt8) : List (List UInt8 × Json) → Option Json
  | [] => none
  | m :: rest => if m.1 = key then some m.2 else lookup key rest

/-! ## Reading plain strings -/

/-- A byte that stands for itself in a string. -/
def isPlain (c : UInt8) : Bool := c ≠ 34 && c ≠ 92 && 32 ≤ c

theorem isPlain_iff {c : UInt8} : isPlain c = true ↔ c ≠ 34 ∧ c ≠ 92 ∧ ¬ c < 32 := by
  simp [isPlain, UInt8.not_lt, and_assoc]

theorem readChars_quote (rest : List UInt8) : readChars (34 :: rest) = some ([], rest) := by
  unfold readChars
  exact if_pos rfl

theorem readChars_cons {c : UInt8} (hc : isPlain c = true) (rest : List UInt8) :
    readChars (c :: rest) = (readChars rest).map (prepend [c]) := by
  obtain ⟨hquote, hescape, hcontrol⟩ := isPlain_iff.mp hc
  rw [readChars.eq_def]
  simp only [if_neg hquote, if_neg hcontrol, if_neg hescape]

theorem readChars_plain {s : List UInt8} (hs : ∀ c ∈ s, isPlain c = true) (rest : List UInt8) :
    readChars (s ++ 34 :: rest) = some (s, rest) := by
  induction s with
  | nil => exact readChars_quote rest
  | cons c s ih =>
      have hrest := ih fun d hd => hs d (List.mem_cons_of_mem c hd)
      rw [List.cons_append, readChars_cons (hs c List.mem_cons_self), hrest]
      rfl

/-- A plain string is read as it stands. -/
theorem readString_plain {s : List UInt8} (hs : ∀ c ∈ s, isPlain c = true)
    (hutf8 : validUtf8 s = true) (rest : List UInt8) :
    readString (s ++ 34 :: rest) = some (s, rest) := by
  rw [readString, readChars_plain hs]
  show (if validUtf8 s = true then some (s, rest) else none) = some (s, rest)
  rw [if_pos hutf8]

/-! ## Reading numbers -/

/-- Where a number without a fraction ends. -/
def EndsNumber (text : List UInt8) : Prop :=
  ∀ c ∈ text.head?, isDigit c = false ∧ c ≠ 46 ∧ c ≠ 69 ∧ c ≠ 101

theorem EndsNumber.noDigit {text : List UInt8} (h : EndsNumber text) : NoDigit text :=
  fun c hc => (h c hc).1

theorem optional_of_head {c : UInt8} {text : List UInt8} (h : ∀ d ∈ text.head?, d ≠ c) :
    optional c text = (false, text) := by
  cases text with
  | nil => rfl
  | cons d text => rw [optional, if_neg (h d rfl)]

/-- A written number starts with a digit. -/
theorem head_decimal {n : Nat} {text : List UInt8} :
    ∀ d ∈ (decimal n ++ text).head?, isDigit d = true := by
  intro d hd
  cases hn : decimal n with
  | nil => exact absurd hn (decimal_ne_nil n)
  | cons c rest =>
      rw [hn, List.cons_append, List.head?_cons, Option.mem_def, Option.some_inj] at hd
      rw [← hd]
      exact isDigit_of_mem_decimal (hn ▸ List.mem_cons_self)

theorem optional_minus_decimal (n : Nat) (text : List UInt8) :
    optional 45 (decimal n ++ text) = (false, decimal n ++ text) := by
  apply optional_of_head
  rintro d hd rfl
  exact absurd (head_decimal _ hd) (by decide)

theorem readInt_decimal (n : Nat) {text : List UInt8} (htext : NoDigit text) :
    readInt (decimal n ++ text) = some (decimal n, text) := by
  by_cases hn : n = 0
  · subst hn
    rfl
  · obtain ⟨c, rest, hdec, hc⟩ := exists_decimal hn
    have hdigits : ∀ d ∈ c :: rest, isDigit d = true := by
      rw [← hdec]
      exact fun d hd => isDigit_of_mem_decimal hd
    have hrest : ∀ d ∈ rest, isDigit d = true := fun d hd => hdigits d (List.mem_cons_of_mem c hd)
    rw [hdec, List.cons_append, readInt, if_neg hc, if_pos (hdigits c List.mem_cons_self),
      takeWhile_digits hrest htext, dropWhile_digits hrest htext]

theorem readDigits_append {digits text : List UInt8} (hne : digits ≠ [])
    (hdigits : ∀ c ∈ digits, isDigit c = true) (htext : NoDigit text) :
    readDigits (digits ++ text) = some (digits, text) := by
  rw [readDigits, takeWhile_digits hdigits htext, dropWhile_digits hdigits htext, if_neg hne]

theorem readExponent_none {text : List UInt8} (htext : EndsNumber text) :
    readExponent text = some (none, text) := by
  cases text with
  | nil => rfl
  | cons c text =>
      obtain ⟨_, _, hE, he⟩ := htext c rfl
      rw [readExponent, if_neg (by simp [hE, he])]

theorem readFraction_none {text : List UInt8} (htext : EndsNumber text) :
    readFraction text = some (none, text) := by
  rw [readFraction, optional_of_head fun d hd => (htext d hd).2.1]

/-- An integer is read as written. -/
theorem readNumber_decimal {n : Nat} (hn : n < 2 ^ 64) {text : List UInt8}
    (htext : EndsNumber text) : readNumber (decimal n ++ text) = some (unsigned n, text) := by
  rw [readNumber, optional_minus_decimal]
  simp only [readInt_decimal n htext.noDigit, Option.bind_some, readFraction_none htext,
    readExponent_none htext, Option.map_some, number, ofDigits_decimal, Bool.false_eq_true,
    if_false, if_pos hn]

/-- A number with a fraction is read as written. -/
theorem readNumber_fraction (n : Nat) {fraction text : List UInt8} (hne : fraction ≠ [])
    (hdigits : ∀ c ∈ fraction, isDigit c = true) (htext : EndsNumber text) :
    readNumber (decimal n ++ 46 :: (fraction ++ text))
      = some (float (ofDigits (decimal n ++ fraction) * (10 : ℚ) ^ (-(fraction.length : Int))),
          text) := by
  have hpoint : NoDigit (46 :: (fraction ++ text)) := noDigit_cons (by decide) _
  have hfraction : readFraction (46 :: (fraction ++ text)) = some (some fraction, text) := by
    rw [readFraction, optional, if_pos rfl]
    show (readDigits (fraction ++ text)).map _ = _
    rw [readDigits_append hne hdigits htext.noDigit]
    rfl
  rw [readNumber, optional_minus_decimal]
  simp only [readInt_decimal n hpoint, Option.bind_some, hfraction, readExponent_none htext,
    Option.map_some, number, Option.getD_some, Option.getD_none, zero_sub, Bool.false_eq_true,
    if_false]

/-- A negative number with a fraction. -/
theorem readNumber_minus_fraction (n : Nat) {fraction text : List UInt8} (hne : fraction ≠ [])
    (hdigits : ∀ c ∈ fraction, isDigit c = true) (htext : EndsNumber text) :
    readNumber (45 :: (decimal n ++ 46 :: (fraction ++ text)))
      = some (float (-(ofDigits (decimal n ++ fraction) * (10 : ℚ) ^ (-(fraction.length : Int)))),
          text) := by
  have hpoint : NoDigit (46 :: (fraction ++ text)) := noDigit_cons (by decide) _
  have hfraction : readFraction (46 :: (fraction ++ text)) = some (some fraction, text) := by
    rw [readFraction, optional, if_pos rfl]
    show (readDigits (fraction ++ text)).map _ = _
    rw [readDigits_append hne hdigits htext.noDigit]
    rfl
  have hminus : optional 45 (45 :: (decimal n ++ 46 :: (fraction ++ text)))
      = (true, decimal n ++ 46 :: (fraction ++ text)) := by
    rw [optional, if_pos rfl]
  rw [readNumber, hminus]
  simp only [readInt_decimal n hpoint, Option.bind_some, hfraction, readExponent_none htext,
    Option.map_some, number, Option.getD_some, Option.getD_none, zero_sub, if_true]

/-- Where no digit follows the sign there is no number. -/
theorem readNumber_eq_none {text : List UInt8}
    (h : ∀ c ∈ (optional 45 text).2.head?, isDigit c = false) : readNumber text = none := by
  have hint : readInt (optional 45 text).2 = none := by
    cases hrest : (optional 45 text).2 with
    | nil => rfl
    | cons c rest =>
        have hc : isDigit c = false := h c (by rw [hrest]; rfl)
        have hzero : c ≠ 48 := by
          rintro rfl
          cases hc
        rw [readInt, if_neg hzero, if_neg (Bool.eq_false_iff.mp hc)]
  rw [readNumber, hint, Option.bind_none]

/-! ## Reading values -/

theorem skipSpace_append {spaces text : List UInt8} (hspaces : ∀ c ∈ spaces, isSpace c = true) :
    skipSpace (spaces ++ text) = skipSpace text :=
  List.dropWhile_append_of_pos hspaces

theorem skipSpace_of_head {text : List UInt8} (h : ∀ c ∈ text.head?, isSpace c = false) :
    skipSpace text = text := by
  cases text with
  | nil => rfl
  | cons c text => exact List.dropWhile_cons_of_neg (by simp [h c rfl])

theorem isSpace_of_isDigit {c : UInt8} (hc : isDigit c = true) : isSpace c = false := by
  have hrange := isDigit_iff.mp hc
  rw [Bool.eq_false_iff]
  intro hspace
  simp only [isSpace, Bool.or_eq_true, decide_eq_true_eq] at hspace
  rcases hspace with ((rfl | rfl) | rfl) | rfl <;> exact absurd hrange.1 (by decide)

theorem readValue_string {fuel : Nat} {text s rest after : List UInt8}
    (htext : skipSpace text = 34 :: rest) (hs : readString rest = some (s, after)) :
    readValue (fuel + 1) text = some (string s, after) := by
  rw [readValue, htext]
  simp only [if_true, hs, Option.map_some]

/-- A number is recognized by its first digit. -/
theorem readValue_number {fuel : Nat} {text : List UInt8} {c : UInt8} {rest : List UInt8}
    (htext : skipSpace text = c :: rest) (hc : isDigit c = true) :
    readValue (fuel + 1) text = readNumber (c :: rest) := by
  have hrange := isDigit_iff.mp hc
  have hne : ∀ d : UInt8, ¬ (48 ≤ d.toNat ∧ d.toNat ≤ 57) → c ≠ d := by
    rintro d hd rfl
    exact hd hrange
  rw [readValue, htext]
  simp only [hne 34 (by decide), hne 91 (by decide), hne 123 (by decide), hne 116 (by decide),
    hne 102 (by decide), hne 110 (by decide), if_false]

/-- So is a text that starts like no other value. -/
theorem readValue_other {fuel : Nat} {text : List UInt8} {c : UInt8} {rest : List UInt8}
    (htext : skipSpace text = c :: rest) (hc : c ∉ ([34, 91, 123, 116, 102, 110] : List UInt8)) :
    readValue (fuel + 1) text = readNumber (c :: rest) := by
  simp only [List.mem_cons, List.not_mem_nil, or_false, not_or] at hc
  obtain ⟨hquote, hbracket, hbrace, htrue, hfalse, hnull⟩ := hc
  rw [readValue, htext]
  simp only [hquote, hbracket, hbrace, htrue, hfalse, hnull, if_false]

theorem readValue_decimal (fuel n : Nat) (text : List UInt8) :
    readValue (fuel + 1) (32 :: (decimal n ++ text)) = readNumber (decimal n ++ text) := by
  cases hn : decimal n with
  | nil => exact absurd hn (decimal_ne_nil n)
  | cons c rest =>
      have hc : isDigit c = true := isDigit_of_mem_decimal (hn ▸ List.mem_cons_self)
      apply readValue_number _ hc
      show skipSpace (c :: (rest ++ text)) = c :: (rest ++ text)
      apply skipSpace_of_head
      intro d hd
      rw [List.head?_cons, Option.mem_def, Option.some_inj] at hd
      rw [← hd]
      exact isSpace_of_isDigit hc

theorem readValue_array {fuel : Nat} {text rest tail after : List UInt8} {d : UInt8}
    {elements : List Json} (htext : skipSpace text = 91 :: rest)
    (hrest : skipSpace rest = d :: tail) (hd : d ≠ 93)
    (helements : readElements (readValue fuel) fuel rest = some (elements, after)) :
    readValue (fuel + 1) text = some (array elements, after) := by
  rw [readValue, htext]
  simp only [hrest, if_neg hd, helements, Option.map_some]
  rfl

theorem readValue_object {fuel : Nat} {text rest tail after : List UInt8} {d : UInt8}
    {members : List (List UInt8 × Json)} (htext : skipSpace text = 123 :: rest)
    (hrest : skipSpace rest = d :: tail) (hd : d ≠ 125)
    (hmembers : readMembers (readValue fuel) fuel rest = some (members, after)) :
    readValue (fuel + 1) text = some (object (mapOf members), after) := by
  rw [readValue, htext]
  simp only [hrest, if_neg hd, hmembers, Option.map_some]
  rfl

section Sequences

variable {readValue : List UInt8 → Option (Json × List UInt8)} {fuel : Nat}

theorem readElements_last {text rest after : List UInt8} {value : Json}
    (hvalue : readValue text = some (value, rest)) (hrest : skipSpace rest = 93 :: after) :
    readElements readValue (fuel + 1) text = some ([value], after) := by
  rw [readElements, hvalue]
  simp only [Option.bind_some, hrest]
  rfl

theorem readElements_cons {text rest more after : List UInt8} {value : Json}
    {values : List Json} (hvalue : readValue text = some (value, rest))
    (hrest : skipSpace rest = 44 :: more)
    (hmore : readElements readValue fuel more = some (values, after)) :
    readElements readValue (fuel + 1) text = some (value :: values, after) := by
  rw [readElements, hvalue]
  simp only [Option.bind_some, hrest, hmore, if_true, Option.map_some]

variable {text rest colon rest' more after key : List UInt8} {value : Json}

theorem readMembers_last (htext : skipSpace text = 34 :: rest)
    (hkey : readString rest = some (key, colon)) (hcolon : skipSpace colon = 58 :: rest')
    (hvalue : readValue rest' = some (value, more)) (hmore : skipSpace more = 125 :: after) :
    readMembers readValue (fuel + 1) text = some ([(key, value)], after) := by
  rw [readMembers, htext]
  simp only [if_true, hkey, Option.bind_some, hcolon, hvalue, hmore]
  rfl

theorem readMembers_cons {tail : List UInt8} {members : List (List UInt8 × Json)}
    (htext : skipSpace text = 34 :: rest)
    (hkey : readString rest = some (key, colon)) (hcolon : skipSpace colon = 58 :: rest')
    (hvalue : readValue rest' = some (value, more)) (hmore : skipSpace more = 44 :: tail)
    (htail : readMembers readValue fuel tail = some (members, after)) :
    readMembers readValue (fuel + 1) text = some ((key, value) :: members, after) := by
  rw [readMembers, htext]
  simp only [if_true, hkey, Option.bind_some, hcolon, hvalue, hmore, htail, Option.map_some]

end Sequences

/-! ## Members -/

theorem lookup_setMember_self (key : List UInt8) (value : Json)
    (members : List (List UInt8 × Json)) : lookup key (setMember key value members) = some value := by
  induction members with
  | nil => exact if_pos rfl
  | cons m rest ih =>
      rw [setMember]
      split
      · exact if_pos rfl
      · next hne =>
          split
          · exact if_pos rfl
          · rw [lookup, if_neg (Ne.symm hne), ih]

theorem lookup_setMember_of_ne {key other : List UInt8} (hne : other ≠ key) (value : Json)
    (members : List (List UInt8 × Json)) :
    lookup other (setMember key value members) = lookup other members := by
  induction members with
  | nil => exact if_neg (Ne.symm hne)
  | cons m rest ih =>
      rw [setMember]
      split
      · next heq =>
          rw [lookup, if_neg (Ne.symm hne), lookup, if_neg (heq ▸ Ne.symm hne)]
      · split
        · rw [lookup, if_neg (Ne.symm hne)]
        · rw [lookup, lookup, ih]

end Json
