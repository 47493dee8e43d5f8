/-
  RateThrottle.Library.IStream

  Formatted extraction from a text stream, as `std::stringstream` does it in
  the C locale: every `>>` skips white space first; `>> int` reads an optional
  sign and a maximal run of digits, and fails when there is no digit or the
  number does not fit; `>> char` reads one byte.  A failed extraction is
  `none`, and so is one at the end of the text.

  `IntText` and `CharText` say which texts an extraction consumes
  (`getInt_eq_some_iff`, `getChar_eq_some_iff`).
-/

import RateThrottle.Library.Decimal

namespace IStream

open Decimal

/-- `std::isspace`. -/
def isSpace (c : UInt8) : Bool := c == 32 || 9 ≤ c && c ≤ 13

/-- The text after its leading white space. -/
def skipSpace (text : List UInt8) : List UInt8 := text.dropWhile isSpace

/-- An optional sign, and what follows it. -/
def getSign : List UInt8 → Bool × List UInt8
  | 45 :: rest => (true, rest)
  | 43 :: rest => (false, rest)
  | text => (false, text)

/-- The number that sign and digits stand for. -/
def signed (negative : Bool) (n : Nat) : Int := if negative then -n else n

/-- `n` is a value of a 32-bit `int`. -/
def FitsInt (n : Int) : Prop := -2147483648 ≤ n ∧ n ≤ 2147483647

instance (n : Int) : Decidable (FitsInt n) := inferInstanceAs (Decidable (_ ∧ _))

/-- `stream >> n` for an `int`: the number and the text left. -/
def getInt (text : List UInt8) : Option (Int × List UInt8) :=
  let (negative, field) := getSign (skipSpace text)
  let digits := field.takeWhile isDigit
  let n := signed negative (ofDigits digits)
  if digits ≠ [] ∧ FitsInt n then some (n, field.dropWhile isDigit) else none

/-- `stream >> c` for a `char`: the byte and the text left. -/
def getChar (text : List UInt8) : Option (UInt8 × List UInt8) :=
  match skipSpace text with
  | [] => none
  | c :: rest => some (c, rest)

/-! ## White space -/

/-- All of the text is white space. -/
def Blank (text : List UInt8) : Prop := ∀ c ∈ text, isSpace c = true

theorem skipSpace_append {space : List UInt8} (hspace : Blank space) (text : List UInt8) :
    skipSpace (space ++ text) = skipSpace text :=
  List.dropWhile_append_of_pos hspace

theorem skipSpace_of_head {c : UInt8} (hc : isSpace c = false) (text : List UInt8) :
    skipSpace (c :: text) = c :: text := by
  rw [skipSpace, List.dropWhile_cons_of_neg (by simp [hc])]

/-- White space and the text after it. -/
theorem exists_blank_append (text : List UInt8) :
    ∃ space, Blank space ∧ text = space ++ skipSpace text :=
  ⟨text.takeWhile isSpace, fun _ hc => List.mem_takeWhile_imp hc,
    List.takeWhile_append_dropWhile.symm⟩

theorem skipSpace_eq_nil_iff {text : List UInt8} : skipSpace text = [] ↔ Blank text :=
  List.dropWhile_eq_nil_iff

theorem isSpace_of_isDigit {c : UInt8} (hc : isDigit c = true) : isSpace c = false := by
  rw [isDigit_iff] at hc
  rw [isSpace, Bool.or_eq_false_iff, Bool.and_eq_false_iff]
  refine ⟨?_, Or.inr ?_⟩
  · rw [beq_eq_false_iff_ne]
    rintro rfl
    simp at hc
  · rw [decide_eq_false_iff_not, UInt8.le_iff_toNat_le]
    simp only [UInt8.reduceToNat]
    omega

/-! ## Integers -/

/-- The signs that may stand before a number. -/
inductive SignText : List UInt8 → Bool → Prop
  | absent : SignText [] false
  | plus : SignText [43] false
  | minus : SignText [45] true

/-- A text that `>> int` consumes: white space, an optional sign, and the digits
    of a number that fits. -/
inductive IntText : List UInt8 → Int → Prop
  | mk (space : List UInt8) (hspace : Blank space) {sign : List UInt8} {negative : Bool}
      (hsign : SignText sign negative) (digits : List UInt8)
      (hdigits : ∀ c ∈ digits, isDigit c = true) (hne : digits ≠ [])
      (hfits : FitsInt (signed negative (ofDigits digits))) :
      IntText (space ++ (sign ++ digits)) (signed negative (ofDigits digits))

/-- The sign is read off before the digits. -/
theorem getSign_append {sign : List UInt8} {negative : Bool} (hsign : SignText sign negative)
    {d : UInt8} (hd : isDigit d = true) (text : List UInt8) :
    getSign (sign ++ d :: text) = (negative, d :: text) := by
  cases hsign with
  | absent =>
      rw [List.nil_append, getSign]
      · rintro rest heq
        rw [(List.cons.inj heq).1] at hd
        exact absurd hd (by decide)
      · rintro rest heq
        rw [(List.cons.inj heq).1] at hd
        exact absurd hd (by decide)
  | plus => rfl
  | minus => rfl

/-- Every text starts with the sign that is read off. -/
theorem getSign_spec (text : List UInt8) :
    ∃ sign, SignText sign (getSign text).1 ∧ text = sign ++ (getSign text).2 := by
  fun_cases getSign text with
  | case1 rest => exact ⟨[45], .minus, rfl⟩
  | case2 rest => exact ⟨[43], .plus, rfl⟩
  | case3 => exact ⟨[], .absent, rfl⟩

/-- White space, sign and digits start with nothing that a `>>` would skip. -/
theorem skipSpace_sign {sign : List UInt8} {negative : Bool} (hsign : SignText sign negative)
    {d : UInt8} (hd : isDigit d = true) (text : List UInt8) :
    skipSpace (sign ++ d :: text) = sign ++ d :: text := by
  cases hsign with
  | absent => exact skipSpace_of_head (isSpace_of_isDigit hd) text
  | plus => exact skipSpace_of_head rfl _
  | minus => exact skipSpace_of_head rfl _

/-- What `>> int` reads. -/
theorem getInt_eq_some_iff {text rest : List UInt8} {n : Int} :
    getInt text = some (n, rest) ↔ ∃ field, text = field ++ rest ∧ IntText field n ∧ NoDigit rest := by
  refine ⟨?_, ?_⟩
  · intro h
    obtain ⟨space, hspace, htext⟩ := exists_blank_append text
    obtain ⟨sign, hsign, hfield⟩ := getSign_spec (skipSpace text)
    simp only [getInt] at h
    generalize getSign (skipSpace text) = read at hsign hfield h
    obtain ⟨negative, field⟩ := read
    split at h
    · next hread =>
        obtain ⟨rfl, rfl⟩ := Prod.mk.inj (Option.some.inj h)
        refine ⟨space ++ (sign ++ field.takeWhile isDigit), ?_,
          .mk space hspace hsign _ (fun _ hc => List.mem_takeWhile_imp hc) hread.1 hread.2, ?_⟩
        · rw [List.append_assoc, List.append_assoc, List.takeWhile_append_dropWhile, ← hfield]
          exact htext
        · -- the run of digits was maximal
          intro c hc
          have hstop := List.head?_dropWhile_not isDigit field
          rw [Option.mem_def.mp hc] at hstop
          simpa using hstop
    · cases h
  · rintro ⟨_, rfl, ⟨space, hspace, hsign, digits, hdigits, hne, hfits⟩, hrest⟩
    obtain ⟨d, ds, rfl⟩ := List.exists_cons_of_ne_nil hne
    have hd : isDigit d = true := hdigits d (List.mem_cons_self ..)
    rw [List.append_assoc, List.append_assoc, getInt, skipSpace_append hspace, List.cons_append,
      skipSpace_sign hsign hd, getSign_append hsign hd, ← List.cons_append]
    simp only [takeWhile_digits hdigits hrest, dropWhile_digits hdigits hrest]
    exact if_pos ⟨hne, hfits⟩

/-! ## Characters -/

/-- A text that `>> char` consumes: white space and the byte read. -/
def CharText (text : List UInt8) (c : UInt8) : Prop :=
  ∃ space, Blank space ∧ isSpace c = false ∧ text = space ++ [c]

/-- What `>> char` reads. -/
theorem getChar_eq_some_iff {text rest : List UInt8} {c : UInt8} :
    getChar text = some (c, rest) ↔ ∃ field, text = field ++ rest ∧ CharText field c := by
  refine ⟨?_, ?_⟩
  · intro h
    obtain ⟨space, hspace, htext⟩ := exists_blank_append text
    rw [getChar] at h
    split at h
    · cases h
    · next d tail heq =>
        obtain ⟨rfl, rfl⟩ := Prod.mk.inj (Option.some.inj h)
        have hd : isSpace d = false := by
          have hstop := List.head?_dropWhile_not isSpace text
          rw [show text.dropWhile isSpace = d :: tail from heq] at hstop
          simpa using hstop
        refine ⟨space ++ [d], ?_, space, hspace, hd, rfl⟩
        rw [List.append_assoc, List.singleton_append, ← heq]
        exact htext
  · rintro ⟨_, rfl, space, hspace, hc, rfl⟩
    rw [List.append_assoc, List.singleton_append, getChar, skipSpace_append hspace,
      skipSpace_of_head hc]

/-- `>> char` fails on white space only. -/
theorem getChar_eq_none_iff {text : List UInt8} : getChar text = none ↔ Blank text := by
  rw [← skipSpace_eq_nil_iff, getChar]
  split
  · next heq => simp [heq]
  · next heq => simp [heq]

/-- White space ends a number. -/
theorem noDigit_of_blank {text : List UInt8} (h : Blank text) : NoDigit text := by
  intro c hc
  have hspace := h c (List.mem_of_mem_head? hc)
  by_contra hdigit
  rw [isSpace_of_isDigit (by simpa using hdigit)] at hspace
  cases hspace

/-- A byte that is no digit ends the number before it. -/
theorem noDigit_charText {field text : List UInt8} {c : UInt8} (hfield : CharText field c)
    (hc : isDigit c = false) : NoDigit (field ++ text) := by
  obtain ⟨space, hspace, -, rfl⟩ := hfield
  cases space with
  | nil => exact noDigit_cons hc text
  | cons s space =>
      have hstop := noDigit_of_blank hspace s rfl
      exact noDigit_cons hstop _

end IStream
