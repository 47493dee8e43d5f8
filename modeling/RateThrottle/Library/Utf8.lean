/-
  RateThrottle.Library.Utf8

  UTF-8 texts as the encodings of lists of characters, and the two ways to step
  through one byte by byte: counting the bytes that are no continuation bytes
  (`starts`), and adding up the lengths that first bytes announce
  (`sequenceLength`).  Both see the characters: `starts_encode` counts them, and
  `exists_lead` says that a character is as long as its first byte announces.
-/

import Mathlib.Data.List.Basic

namespace Utf8

/-- The encoding of a text. -/
def encode (chars : List Char) : List UInt8 := chars.flatMap String.utf8EncodeChar

/-- The bytes after the first one of a character. -/
def isContinuation (b : UInt8) : Bool := b &&& 0xC0 = 0x80

/-- The length of a character that its first byte announces. -/
def sequenceLength (lead : UInt8) : Nat :=
  if lead &&& 0x80 = 0 then 1
  else if lead &&& 0xE0 = 0xC0 then 2
  else if lead &&& 0xF0 = 0xE0 then 3
  else 4

/-- The number of bytes at which a character starts. -/
def starts (text : List UInt8) : Nat := text.countP fun b => !isContinuation b

@[simp] theorem encode_nil : encode [] = [] := rfl

@[simp] theorem encode_cons (c : Char) (chars : List Char) :
    encode (c :: chars) = String.utf8EncodeChar c ++ encode chars := rfl

@[simp] theorem encode_append (left right : List Char) :
    encode (left ++ right) = encode left ++ encode right := List.flatMap_append ..

theorem encode_singleton (c : Char) : encode [c] = String.utf8EncodeChar c :=
  List.append_nil _

theorem sequenceLength_pos (lead : UInt8) : 0 < sequenceLength lead := by
  unfold sequenceLength
  split
  · exact Nat.one_pos
  · split
    · exact Nat.two_pos
    · split
      · exact Nat.succ_pos 2
      · exact Nat.succ_pos 3

theorem isContinuation_ofNat :
    ∀ n : Fin 64, isContinuation (.ofNat (n.val + 0x80)) = true := by decide

/-- What the first byte of a character says. -/
structure Lead (lead : UInt8) (length : Nat) : Prop where
  notContinuation : isContinuation lead = false
  announces : sequenceLength lead = length

instance (lead : UInt8) (length : Nat) : Decidable (Lead lead length) :=
  decidable_of_iff (isContinuation lead = false ∧ sequenceLength lead = length)
    ⟨fun h => ⟨h.1, h.2⟩, fun h => ⟨h.notContinuation, h.announces⟩⟩

theorem lead_one : ∀ n : Fin 128, Lead (.ofNat n.val) 1 := by decide

theorem lead_two : ∀ n : Fin 32, Lead (.ofNat (n.val + 0xC0)) 2 := by decide

theorem lead_three : ∀ n : Fin 16, Lead (.ofNat (n.val + 0xE0)) 3 := by decide

theorem lead_four : ∀ n : Fin 8, Lead (.ofNat (n.val + 0xF0)) 4 := by decide

/-- A character is a first byte and the continuation bytes that it announces. -/
theorem exists_lead (c : Char) :
    ∃ lead tail, String.utf8EncodeChar c = lead :: tail ∧ Lead lead (tail.length + 1) ∧
      ∀ b ∈ tail, isContinuation b = true := by
  have hlow : ∀ n, isContinuation (.ofNat (n % 0x40 + 0x80)) = true := fun n =>
    isContinuation_ofNat ⟨_, Nat.mod_lt _ (by decide)⟩
  unfold String.utf8EncodeChar
  generalize c.val.toNat = v
  simp only
  split
  · next h => exact ⟨_, [], rfl, lead_one ⟨v, by omega⟩, by simp⟩
  · split
    · refine ⟨_, _, rfl, lead_two ⟨_, Nat.mod_lt _ (by decide)⟩, ?_⟩
      simp only [List.forall_mem_cons]
      exact ⟨hlow _, by simp⟩
    · split
      · refine ⟨_, _, rfl, lead_three ⟨_, Nat.mod_lt _ (by decide)⟩, ?_⟩
        simp only [List.forall_mem_cons]
        exact ⟨hlow _, hlow _, by simp⟩
      · refine ⟨_, _, rfl, lead_four ⟨_, Nat.mod_lt _ (by decide)⟩, ?_⟩
        simp only [List.forall_mem_cons]
        exact ⟨hlow _, hlow _, hlow _, by simp⟩

theorem starts_append (left right : List UInt8) :
    starts (left ++ right) = starts left + starts right := List.countP_append

theorem starts_utf8EncodeChar (c : Char) : starts (String.utf8EncodeChar c) = 1 := by
  obtain ⟨lead, tail, hchar, hlead, htail⟩ := exists_lead c
  have hnone : tail.countP (fun b => !isContinuation b) = 0 := by
    rw [List.countP_eq_zero]
    intro b hb
    rw [htail b hb]
    exact Bool.false_ne_true
  rw [hchar, starts, List.countP_cons, hnone, hlead.notContinuation]
  rfl

/-- A text has as many starts as characters. -/
theorem starts_encode (chars : List Char) : starts (encode chars) = chars.length := by
  induction chars with
  | nil => rfl
  | cons c chars ih =>
      rw [encode_cons, starts_append, starts_utf8EncodeChar, ih, List.length_cons, Nat.add_comm]

end Utf8
