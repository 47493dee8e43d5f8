/-
  RateThrottle.Regression.Cells

  The name cells of the comparison table: `displayWidth`, `padCell` and
  `truncateCell` of the custom regression tool (regression/custom/support).

  `displayWidth` counts the bytes that are no continuation bytes, `truncateCell`
  walks by the lengths that first bytes announce; on UTF-8 both count characters
  (`truncateCell_encode`).  Widths are `int`s: a text of 2^31 characters or more
  may pass for one that fits, because its width is converted to `int` before it
  is compared (`nameCell_iff`).
-/

import Mathlib.Algebra.Ring.Int.Defs
import Mathlib.Algebra.Ring.Nat
import RateThrottle.Library.Utf8
import RateThrottle.Support.Bytes

namespace RateThrottle.Regression

open Utf8

-- ============================================================================
-- The functions
-- ============================================================================

/-- `displayWidth`, a `std::size_t`. -/
def displayWidth (text : Bytes) : Nat := text.countP fun c => !(c &&& 0xC0 = 0x80)

/-- `static_cast<int>` of a `std::size_t`: its last 32 bits, with a sign. -/
def toInt (n : Nat) : Int :=
  let low : Nat := n % 2 ^ 32
  if low < 2 ^ 31 then low else low - 2 ^ 32

/-- `padCell`. -/
def padCell (s : Bytes) (width : Int) : Bytes :=
  let w := toInt (displayWidth s)
  if w ≥ width then s else s ++ List.replicate (width - w).toNat 32

/-- `s.substr(pos, len)`, none for `std::out_of_range`. -/
def substr (s : Bytes) (pos len : Nat) : Option Bytes :=
  if pos ≤ s.length then some ((s.drop pos).take len) else none

/-- "…". -/
def ellipsis : Bytes := bytes "…"

/-- The loop of `truncateCell`, with what it returns; none when `substr` throws. -/
def truncateFrom (s : Bytes) (width : Int) (out : Bytes) (cols : Int) (i : Nat) : Option Bytes :=
  if h : i < s.length then
    let c := s[i]
    let len := sequenceLength c
    if cols ≥ width - 1 then some (out ++ ellipsis)
    else
      match substr s i len with
      | none => none
      | some piece => truncateFrom s width (out ++ piece) (cols + 1) (i + len)
  else some (out ++ ellipsis)
termination_by s.length - i
decreasing_by
  have hpos := sequenceLength_pos s[i]
  omega

/-- `truncateCell`. -/
def truncateCell (s : Bytes) (width : Int) : Option Bytes :=
  if width ≤ 0 then some []
  else if toInt (displayWidth s) ≤ width then some s
  else if width = 1 then some ellipsis
  else truncateFrom s width [] 0 0

-- ============================================================================
-- Widths are numbers of characters
-- ============================================================================

theorem displayWidth_eq (text : Bytes) : displayWidth text = starts text := rfl

@[simp] theorem displayWidth_encode (chars : List Char) :
    displayWidth (encode chars) = chars.length := by
  rw [displayWidth_eq, starts_encode]

theorem displayWidth_append (left right : Bytes) :
    displayWidth (left ++ right) = displayWidth left + displayWidth right := by
  rw [displayWidth_eq, displayWidth_eq, displayWidth_eq, starts_append]

theorem displayWidth_replicate_space (n : Nat) : displayWidth (List.replicate n 32) = n := by
  rw [displayWidth, List.countP_replicate]
  exact if_pos rfl

theorem ellipsis_eq : ellipsis = encode ['…'] := by decide

/-- A number in the range of `int` is converted as it is. -/
theorem toInt_of_lt {n : Nat} (h : n < 2 ^ 31) : toInt n = n := by
  simp only [toInt]
  split
  · omega
  · omega

/-- A converted number is greater than `width` when its last 32 bits are, and are
    in the range of `int`. -/
theorem lt_toInt_iff {n : Nat} {width : Int} (hwidth : 0 ≤ width) :
    width < toInt n ↔ width < (n % 2 ^ 32 : Nat) ∧ n % 2 ^ 32 < 2 ^ 31 := by
  simp only [toInt]
  split
  · omega
  · omega

-- ============================================================================
-- Truncation keeps whole characters
-- ============================================================================

/-- The loop, when it has come to a character: it takes whole characters while
    there are columns left. -/
theorem truncateFrom_encode (width : Int) (done rest : List Char) (out : Bytes) (cols : Int) :
    truncateFrom (encode (done ++ rest)) width out cols (encode done).length
      = some (out ++ (encode (rest.take (width - 1 - cols).toNat) ++ ellipsis)) := by
  induction rest generalizing done out cols with
  | nil =>
      rw [truncateFrom, dif_neg (by simp)]
      simp
  | cons c rest ih =>
      obtain ⟨lead, tail, hchar, hlead, -⟩ := exists_lead c
      have htext : encode (done ++ c :: rest) = encode done ++ (lead :: (tail ++ encode rest)) := by
        rw [encode_append, encode_cons, hchar, List.cons_append]
      have hi : (encode done).length < (encode (done ++ c :: rest)).length := by
        rw [htext, List.length_append, List.length_cons]
        omega
      have hbyte : (encode (done ++ c :: rest))[(encode done).length] = lead := by
        simp only [htext]
        simp
      rw [truncateFrom, dif_pos hi, hbyte]
      simp only [hlead.announces]
      by_cases hcols : cols ≥ width - 1
      · have hzero : (width - 1 - cols).toNat = 0 := by omega
        rw [if_pos hcols, hzero, List.take_zero, encode_nil, List.nil_append]
      · have hpiece : substr (encode (done ++ c :: rest)) (encode done).length (tail.length + 1)
            = some (String.utf8EncodeChar c) := by
          rw [substr, if_pos (Nat.le_of_lt hi), htext, List.drop_left, hchar, ← List.cons_append]
          exact congrArg some (List.take_left' rfl)
        have hnext : (encode done).length + (tail.length + 1) = (encode (done ++ [c])).length := by
          rw [encode_append, encode_singleton, hchar, List.length_append, List.length_cons]
        have hleft : (width - 1 - cols).toNat = (width - 1 - (cols + 1)).toNat + 1 := by omega
        have hstep := ih (done ++ [c]) (out ++ String.utf8EncodeChar c) (cols + 1)
        rw [List.append_assoc, List.singleton_append] at hstep
        rw [if_neg hcols, hpiece]
        simp only
        rw [hnext, hstep, hleft, List.take_succ_cons, encode_cons]
        simp only [List.append_assoc]

/-- What `truncateCell` makes of a text of characters: the text, if the converted
    width fits, else as many characters as leave room for the ellipsis. -/
theorem truncateCell_encode (chars : List Char) {width : Int} (hwidth : 1 ≤ width) :
    truncateCell (encode chars) width
      = some (if toInt chars.length ≤ width then encode chars
          else encode (chars.take (width - 1).toNat) ++ ellipsis) := by
  rw [truncateCell, if_neg (by omega), displayWidth_encode]
  split
  · rfl
  · split
    · next hone =>
        rw [hone]
        rfl
    · have hloop := truncateFrom_encode width [] chars [] 0
      rw [List.nil_append, encode_nil, List.length_nil, List.nil_append] at hloop
      rw [hloop, Int.sub_zero]

-- ============================================================================
-- Name cells
-- ============================================================================

/-- The cell is the text, or characters from its start and the ellipsis; it is
    UTF-8, leaves room for the space before it, and fills the column with it. -/
structure NameCell (chars : List Char) (w : Int) (cell : Bytes) : Prop where
  shape : cell = encode chars ∨ ∃ front, front <+: chars ∧ cell = encode front ++ ellipsis
  utf8 : ∃ chars', cell = encode chars'
  width : displayWidth cell ≤ w - 1
  padded : displayWidth (padCell (bytes " " ++ cell) w) = w

/-- A cell that fits fills its column after padding. -/
theorem displayWidth_padCell {cell : Bytes} {w : Int} (hint : w < 2 ^ 31)
    (hcell : displayWidth cell ≤ w - 1) :
    (displayWidth (padCell (bytes " " ++ cell) w) : Int) = w := by
  have hspace : displayWidth (bytes " " ++ cell) = displayWidth cell + 1 := by
    rw [displayWidth_append, Nat.add_comm]
    rfl
  have hconverted : toInt (displayWidth (bytes " " ++ cell)) = displayWidth cell + 1 := by
    rw [hspace, toInt_of_lt (by omega)]
    rfl
  simp only [padCell, hconverted]
  split
  · rw [hspace]
    omega
  · rw [displayWidth_append, hspace, displayWidth_replicate_space]
    omega

/-- **Name cells.** In a column of `w` columns, `truncateCell` returns and the
    cell is as it should be exactly when the text fits, or the last 32 bits of
    its number of characters are an `int` that is at least `w`. -/
theorem nameCell_iff (chars : List Char) {w : Int} (hw : 2 ≤ w) (hint : w < 2 ^ 31) :
    (∃ cell, truncateCell (encode chars) (w - 1) = some cell ∧ NameCell chars w cell)
      ↔ chars.length < w ∨
        w ≤ (chars.length % 2 ^ 32 : Nat) ∧ chars.length % 2 ^ 32 < 2 ^ 31 := by
  have hlong : w - 1 < toInt chars.length
      ↔ w ≤ (chars.length % 2 ^ 32 : Nat) ∧ chars.length % 2 ^ 32 < 2 ^ 31 := by
    rw [lt_toInt_iff (by omega)]
    omega
  have hellipsis : displayWidth ellipsis = 1 := rfl
  rw [← hlong, truncateCell_encode chars (by omega)]
  refine ⟨?_, ?_⟩
  · rintro ⟨cell, hcell, hname⟩
    by_cases hfits : toInt chars.length ≤ w - 1
    · rw [if_pos hfits] at hcell
      obtain rfl := Option.some.inj hcell
      have hwidth := hname.width
      rw [displayWidth_encode] at hwidth
      exact Or.inl (by omega)
    · exact Or.inr (by omega)
  · intro hcondition
    refine ⟨_, rfl, ?_⟩
    by_cases hfits : toInt chars.length ≤ w - 1
    · -- the text is kept, and it does fit
      have hwidth : displayWidth (encode chars) ≤ w - 1 := by
        rw [displayWidth_encode]
        omega
      rw [if_pos hfits]
      exact ⟨Or.inl rfl, ⟨chars, rfl⟩, hwidth, displayWidth_padCell hint hwidth⟩
    · have hwidth : displayWidth (encode (chars.take (w - 1 - 1).toNat) ++ ellipsis) ≤ w - 1 := by
        rw [displayWidth_append, displayWidth_encode, hellipsis, List.length_take]
        omega
      rw [if_neg hfits]
      refine ⟨Or.inr ⟨_, List.take_prefix _ _, rfl⟩,
        ⟨chars.take (w - 1 - 1).toNat ++ ['…'], ?_⟩, hwidth, displayWidth_padCell hint hwidth⟩
      rw [encode_append, ellipsis_eq]

/-- A name with two-byte characters, cut to six columns. -/
theorem nameCell_resume :
    ∃ cell, truncateCell (encode "résumé naïf".toList) (7 - 1) = some cell ∧
      NameCell "résumé naïf".toList 7 cell :=
  (nameCell_iff "résumé naïf".toList (by decide) (by decide)).mpr (by decide)

/-- A name of 2^31 characters is not truncated: its width is converted to a
    negative `int`. -/
theorem nameCell_overlong :
    ¬ ∀ (chars : List Char) (w : Int), 2 ≤ w → w < 2 ^ 31 →
        ∃ cell, truncateCell (encode chars) (w - 1) = some cell ∧ NameCell chars w cell := by
  intro h
  have hcell := h (List.replicate (2 ^ 31) 'a') 26 (by decide) (by decide)
  rw [nameCell_iff _ (by decide) (by decide), List.length_replicate] at hcell
  omega

end RateThrottle.Regression
