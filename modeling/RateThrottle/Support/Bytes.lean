/-
  RateThrottle.Support.Bytes

  `std::string` and the string utilities that every tool of the repository
  carries in its support/helpers.h: `prettify` and `toLower`.

  A string is its bytes.  `std::toupper` and `std::tolower` are those of the C
  locale, which no tool changes: only the ASCII letters move.

  Where texts are compared in lower case, `prettify` shows only in underscores
  after the first byte (`toLower_prettify_eq_iff`).
-/

namespace RateThrottle

/-- `std::string`. -/
abbrev Bytes := List UInt8

/-- The bytes of a string literal. -/
def bytes (literal : String) : Bytes := literal.toUTF8.data.toList

/-- `std::toupper` of the C locale. -/
def toupper (c : UInt8) : UInt8 := if 97 ≤ c ∧ c ≤ 122 then c - 32 else c

/-- `std::tolower` of the C locale. -/
def tolower (c : UInt8) : UInt8 := if 65 ≤ c ∧ c ≤ 90 then c + 32 else c

/-- `std::isalpha` of the C locale. -/
def isalpha (c : UInt8) : Bool := 65 ≤ c && c ≤ 90 || 97 ≤ c && c ≤ 122

/-- The loop of `prettify`, from a given value of `firstLetter`. -/
def prettifyFrom : Bool → Bytes → Bytes
  | _, [] => []
  | true, c :: cs => toupper c :: prettifyFrom false cs
  | false, c :: cs =>
      -- an underscore becomes a space and starts the next word
      if c = 95 then 32 :: prettifyFrom true cs else c :: prettifyFrom false cs

/-- `prettify`: a snake_case name in title case. -/
def prettify (text : Bytes) : Bytes := prettifyFrom true text

/-- `toLower`. -/
def toLower (str : Bytes) : Bytes := str.map tolower

/-! ## Letter case -/

/-- A property of bytes is checked on all of them. -/
theorem forall_byte {P : UInt8 → Prop} (h : ∀ n : Fin 256, P (.ofNat n.val)) (c : UInt8) :
    P c := by
  have hc := h ⟨c.toNat, c.toNat_lt⟩
  rwa [UInt8.ofNat_toNat] at hc

/-- What the case of a byte is after a change of case; an underscore has none. -/
theorem letterCase (c : UInt8) :
    tolower (toupper c) = tolower c ∧ tolower (tolower c) = tolower c ∧
      toupper (toupper c) = toupper c ∧ toupper (tolower c) = toupper c ∧
      isalpha (tolower c) = isalpha c ∧ (tolower c = 95 ↔ c = 95) := by
  revert c
  refine forall_byte ?_
  decide +kernel

theorem tolower_toupper (c : UInt8) : tolower (toupper c) = tolower c := (letterCase c).1

theorem tolower_tolower (c : UInt8) : tolower (tolower c) = tolower c := (letterCase c).2.1

theorem toLower_toLower (text : Bytes) : toLower (toLower text) = toLower text := by
  rw [toLower, toLower, List.map_map]
  exact List.map_congr_left fun c _ => tolower_tolower c

theorem toupper_toupper (c : UInt8) : toupper (toupper c) = toupper c := (letterCase c).2.2.1

theorem toupper_tolower (c : UInt8) : toupper (tolower c) = toupper c := (letterCase c).2.2.2.1

theorem isalpha_tolower (c : UInt8) : isalpha (tolower c) = isalpha c :=
  (letterCase c).2.2.2.2.1

theorem tolower_eq_underscore_iff (c : UInt8) : tolower c = 95 ↔ c = 95 :=
  (letterCase c).2.2.2.2.2

/-- The case of a text does not matter to `prettify`, up to case. -/
theorem toLower_prettifyFrom_toLower (firstLetter : Bool) (text : Bytes) :
    toLower (prettifyFrom firstLetter (toLower text)) = toLower (prettifyFrom firstLetter text) := by
  induction text generalizing firstLetter with
  | nil => cases firstLetter <;> rfl
  | cons c text ih =>
      cases firstLetter with
      | true =>
          show tolower (toupper (tolower c)) :: toLower (prettifyFrom false (toLower text))
            = tolower (toupper c) :: toLower (prettifyFrom false text)
          rw [toupper_tolower, ih]
      | false =>
          have hlower : toLower (c :: text) = tolower c :: toLower text := rfl
          rw [hlower, prettifyFrom, prettifyFrom]
          by_cases hc : c = 95
          · rw [if_pos ((tolower_eq_underscore_iff c).mpr hc), if_pos hc]
            exact congrArg (tolower 32 :: ·) (ih true)
          · rw [if_neg fun h => hc ((tolower_eq_underscore_iff c).mp h), if_neg hc]
            show tolower (tolower c) :: toLower (prettifyFrom false (toLower text))
              = tolower c :: toLower (prettifyFrom false text)
            rw [tolower_tolower, ih]

theorem toLower_prettify_congr {text text' : Bytes} (h : toLower text = toLower text') :
    toLower (prettify text) = toLower (prettify text') := by
  rw [prettify, prettify, ← toLower_prettifyFrom_toLower, h, toLower_prettifyFrom_toLower]

theorem toLower_prettifyFrom_eq_iff {rest : Bytes} :
    toLower (prettifyFrom false rest) = toLower rest ↔ 95 ∉ rest := by
  induction rest with
  | nil => exact iff_of_true rfl List.not_mem_nil
  | cons c rest ih =>
      by_cases hc : c = 95
      · subst hc
        exact iff_of_false (fun h => absurd (List.cons.inj h).1 (by decide))
          fun h => h (List.mem_cons_self ..)
      · rw [prettifyFrom, if_neg hc, List.mem_cons, not_or]
        show tolower c :: toLower (prettifyFrom false rest) = tolower c :: toLower rest ↔ _
        rw [List.cons.injEq, ih]
        exact and_congr_left fun _ => iff_of_true rfl (Ne.symm hc)

/-- A text keeps its words, up to case, when it has no underscore after its first
    byte. -/
theorem toLower_prettify_eq_iff {text : Bytes} :
    toLower (prettify text) = toLower text ↔ 95 ∉ text.tail := by
  cases text with
  | nil => exact iff_of_true rfl List.not_mem_nil
  | cons c text =>
      show tolower (toupper c) :: toLower (prettifyFrom false text) = tolower c :: toLower text ↔ _
      rw [tolower_toupper, List.cons.injEq, toLower_prettifyFrom_eq_iff]
      exact and_iff_right rfl

/-- Otherwise there is a space in it. -/
theorem space_mem_toLower_prettify {text : Bytes} (h : 95 ∈ text.tail) :
    32 ∈ (toLower (prettify text)).tail := by
  have hrest : ∀ rest : Bytes, 95 ∈ rest → 32 ∈ prettifyFrom false rest := by
    intro rest
    induction rest with
    | nil => exact fun hmem => nomatch hmem
    | cons c rest ih =>
        intro hmem
        rw [prettifyFrom]
        by_cases hc : c = 95
        · rw [if_pos hc]
          exact List.mem_cons_self ..
        · rw [if_neg hc]
          exact List.mem_cons_of_mem c (ih ((List.mem_cons.mp hmem).resolve_left (Ne.symm hc)))
  cases text with
  | nil => cases h
  | cons c text => exact List.mem_map_of_mem (hrest text h)

end RateThrottle
