/-
  RateThrottle.Library.Decimal

  Natural numbers written in decimal, as ASCII bytes.

  `decimal` writes a number the way every formatter does, without leading
  zeros; `ofDigits` reads digits.  Reading undoes writing (`ofDigits_decimal`),
  and a written number is a maximal run of digits wherever no digit follows it
  (`takeWhile_decimal`).
-/

import Mathlib.Data.List.Basic
import Mathlib.Data.List.TakeWhile
import Mathlib.Tactic.Ring

namespace Decimal

/-- `std::isdigit`. -/
def isDigit (c : UInt8) : Bool := 48 ≤ c && c ≤ 57

/-- The number written by decimal digits. -/
def ofDigits : List UInt8 → Nat
  | [] => 0
  | c :: rest => (c.toNat - 48) * 10 ^ rest.length + ofDigits rest

/-- The digit of a number below ten. -/
def digit (n : Nat) : UInt8 := .ofNat (48 + n)

/-- A number in decimal. -/
def decimal (n : Nat) : List UInt8 := (Nat.toDigits 10 n).map fun c => .ofNat c.toNat

theorem isDigit_iff {c : UInt8} : isDigit c = true ↔ 48 ≤ c.toNat ∧ c.toNat ≤ 57 := by
  simp [isDigit, UInt8.le_iff_toNat_le]

theorem toNat_digit {n : Nat} (hn : n < 10) : (digit n).toNat = 48 + n := by
  rw [digit, UInt8.toNat_ofNat']
  omega

theorem isDigit_digit {n : Nat} (hn : n < 10) : isDigit (digit n) = true := by
  rw [isDigit_iff, toNat_digit hn]
  omega

theorem ofNat_digitChar : ∀ n < 10, UInt8.ofNat n.digitChar.toNat = digit n := by decide

theorem decimal_of_lt {n : Nat} (hn : n < 10) : decimal n = [digit n] := by
  rw [decimal, Nat.toDigits_of_lt_base hn, List.map_singleton, ofNat_digitChar n hn]

/-- The last digit of a number that has several. -/
theorem decimal_of_ge {n : Nat} (hn : 10 ≤ n) :
    decimal n = decimal (n / 10) ++ [digit (n % 10)] := by
  rw [decimal, Nat.toDigits_of_base_le (by omega) hn, List.map_append, List.map_singleton,
    ofNat_digitChar _ (Nat.mod_lt n (show 0 < 10 by omega)), decimal]

/-! ## Reading what was written -/

theorem ofDigits_concat (as : List UInt8) {n : Nat} (hn : n < 10) :
    ofDigits (as ++ [digit n]) = ofDigits as * 10 + n := by
  induction as with
  | nil =>
      simp only [List.nil_append, ofDigits, toNat_digit hn, List.length_nil]
      omega
  | cons a as ih =>
      simp only [List.cons_append, ofDigits, ih, List.length_append, List.length_singleton,
        Nat.pow_succ, Nat.add_mul]
      ring

theorem ofDigits_decimal (n : Nat) : ofDigits (decimal n) = n := by
  induction n using Nat.strong_induction_on with
  | _ n ih =>
      by_cases hn : n < 10
      · have hone := ofDigits_concat [] hn
        rw [List.nil_append] at hone
        rw [decimal_of_lt hn, hone]
        simp [ofDigits]
      · rw [decimal_of_ge (by omega), ofDigits_concat _ (by omega), ih (n / 10) (by omega)]
        omega

theorem isDigit_of_mem_decimal {n : Nat} {c : UInt8} (hc : c ∈ decimal n) : isDigit c = true := by
  induction n using Nat.strong_induction_on with
  | _ n ih =>
      by_cases hn : n < 10
      · rw [decimal_of_lt hn, List.mem_singleton] at hc
        rw [hc]
        exact isDigit_digit hn
      · rw [decimal_of_ge (by omega), List.mem_append, List.mem_singleton] at hc
        rcases hc with hc | rfl
        · exact ih (n / 10) (by omega) hc
        · exact isDigit_digit (by omega)

/-- No leading zero: a number other than zero starts with a digit other than zero. -/
theorem exists_decimal {n : Nat} (hn : n ≠ 0) :
    ∃ c rest, decimal n = c :: rest ∧ c ≠ 48 := by
  induction n using Nat.strong_induction_on with
  | _ n ih =>
      by_cases hlt : n < 10
      · refine ⟨digit n, [], decimal_of_lt hlt, fun hzero => hn ?_⟩
        have htoNat := toNat_digit hlt
        rw [hzero] at htoNat
        simpa using htoNat
      · obtain ⟨c, rest, heq, hc⟩ := ih (n / 10) (by omega) (by omega)
        refine ⟨c, rest ++ [digit (n % 10)], ?_, hc⟩
        rw [decimal_of_ge (by omega), heq, List.cons_append]

theorem decimal_ne_nil (n : Nat) : decimal n ≠ [] := by
  rw [decimal, ne_eq, List.map_eq_nil_iff]
  exact Nat.toDigits_ne_nil

/-! ## Runs of digits -/

/-- The text after a number does not go on with a digit. -/
def NoDigit (text : List UInt8) : Prop := ∀ c ∈ text.head?, isDigit c = false

theorem noDigit_cons {c : UInt8} (hc : isDigit c = false) (text : List UInt8) :
    NoDigit (c :: text) := by
  intro d hd
  rw [List.head?_cons, Option.mem_def, Option.some_inj] at hd
  rwa [← hd]

theorem takeWhile_digits {digits text : List UInt8} (hdigits : ∀ c ∈ digits, isDigit c = true)
    (htext : NoDigit text) : (digits ++ text).takeWhile isDigit = digits := by
  rw [List.takeWhile_append_of_pos hdigits]
  cases text with
  | nil => simp
  | cons c text => rw [List.takeWhile_cons_of_neg (by simp [htext c rfl]), List.append_nil]

theorem dropWhile_digits {digits text : List UInt8} (hdigits : ∀ c ∈ digits, isDigit c = true)
    (htext : NoDigit text) : (digits ++ text).dropWhile isDigit = text := by
  rw [List.dropWhile_append_of_pos hdigits]
  cases text with
  | nil => rfl
  | cons c text => rw [List.dropWhile_cons_of_neg (by simp [htext c rfl])]

end Decimal
