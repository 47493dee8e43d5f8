/-
  RateThrottle.Benchmarks.Export

  The snapshot that the benchmark tool writes (benchmarks/custom/support):
  `BenchmarkResult` of registry.h and the text of `exportJson`.

  The text is put together by hand: suite and operation go between quotes as
  they are, and `ns_per_op` is printed with two decimals.
-/

import Mathlib.Data.Rat.Floor
import Mathlib.Tactic.Linarith
import RateThrottle.Library.Decimal
import RateThrottle.Support.Bytes

namespace RateThrottle.Benchmarks

open Decimal

/-- `struct BenchmarkResult`. -/
structure BenchmarkResult where
  suite : Bytes
  operation : Bytes
  total_ns : UInt64
  iterations : UInt64
  ns_per_op : ℚ
deriving DecidableEq

/-! ## Numbers with two decimals -/

/-- The nearest integer, the even one of two. -/
def roundHalfEven (q : ℚ) : Int :=
  let below := ⌊q⌋
  let part := q - below
  if part < 1 / 2 then below
  else if 1 / 2 < part then below + 1
  else if below % 2 = 0 then below
  else below + 1

/-- A number of hundredths, at least two digits after the point. -/
def hundredths (n : Nat) : Bytes :=
  decimal (n / 100) ++ bytes "." ++ [digit (n / 10 % 10), digit (n % 10)]

/-- `std::fixed << std::setprecision(2) << q`. -/
def fixed2 (q : ℚ) : Bytes :=
  (if q < 0 then bytes "-" else []) ++ hundredths (roundHalfEven (|q| * 100)).toNat

/-- A number rounded to two decimals. -/
def toHundredths (q : ℚ) : ℚ := roundHalfEven (q * 100) / 100

theorem abs_roundHalfEven_sub_le (q : ℚ) : |(roundHalfEven q : ℚ) - q| ≤ 1 / 2 := by
  have hfloor : (⌊q⌋ : ℚ) ≤ q := Int.floor_le q
  have hlt : q < ⌊q⌋ + 1 := Int.lt_floor_add_one q
  simp only [roundHalfEven]
  split
  · rw [abs_le]
    constructor <;> linarith
  · split
    · push_cast
      rw [abs_le]
      constructor <;> linarith
    · split
      · rw [abs_le]
        constructor <;> linarith
      · push_cast
        rw [abs_le]
        constructor <;> linarith

theorem roundHalfEven_nonneg {q : ℚ} (hq : 0 ≤ q) : 0 ≤ roundHalfEven q := by
  have hfloor : 0 ≤ ⌊q⌋ := Int.floor_nonneg.mpr hq
  simp only [roundHalfEven]
  split
  · exact hfloor
  · split
    · omega
    · split <;> omega

/-- Rounding does not favour a sign. -/
theorem roundHalfEven_neg (q : ℚ) : roundHalfEven (-q) = -roundHalfEven q := by
  by_cases hint : (⌊q⌋ : ℚ) = q
  · have hneg : ⌊-q⌋ = -⌊q⌋ := by
      rw [← hint, Int.floor_intCast, ← Int.cast_neg, Int.floor_intCast]
    simp only [roundHalfEven, hneg]
    rw [if_pos (by push_cast; linarith), if_pos (by linarith)]
  · have hlt : (⌊q⌋ : ℚ) < q := lt_of_le_of_ne (Int.floor_le q) hint
    have hlt' : q < ⌊q⌋ + 1 := Int.lt_floor_add_one q
    have hneg : ⌊-q⌋ = -⌊q⌋ - 1 := by
      rw [Int.floor_eq_iff]
      push_cast
      constructor <;> linarith
    simp only [roundHalfEven, hneg]
    push_cast
    rcases lt_trichotomy (q - ⌊q⌋) (1 / 2) with hbelow | hhalf | habove
    · rw [if_neg (by linarith), if_pos (by linarith), if_pos hbelow]
      ring
    · rw [if_neg (by linarith), if_neg (by linarith), if_neg hhalf.not_lt, if_neg hhalf.not_gt]
      split <;> split <;> omega
    · rw [if_pos (by linarith), if_neg habove.not_gt, if_pos habove]
      ring

/-- `toHundredths` is within half a hundredth. -/
theorem abs_toHundredths_sub_le (q : ℚ) : |toHundredths q - q| ≤ 1 / 200 := by
  have h := abs_roundHalfEven_sub_le (q * 100)
  rw [abs_le] at h ⊢
  rw [toHundredths]
  constructor <;> linarith [h.1, h.2]

/-! ## The text -/

/-- One line of an entry, up to the end of its value. -/
def field (key : String) (value : Bytes) : Bytes :=
  bytes "    \"" ++ bytes key ++ bytes "\": " ++ value

/-- A string between quotes. -/
def quoted (s : Bytes) : Bytes := bytes "\"" ++ s ++ bytes "\""

/-- The object of one result. -/
def entryText (r : BenchmarkResult) : Bytes :=
  bytes "  \x7b\n"
    ++ field "suite" (quoted r.suite) ++ bytes ",\n"
    ++ field "operation" (quoted r.operation) ++ bytes ",\n"
    ++ field "total_ns" (decimal r.total_ns.toNat) ++ bytes ",\n"
    ++ field "iterations" (decimal r.iterations.toNat) ++ bytes ",\n"
    ++ field "ns_per_op" (fixed2 r.ns_per_op) ++ bytes "\n"
    ++ bytes "  \x7d"

/-- The loop of `exportJson`. -/
def entriesText : List BenchmarkResult → Bytes
  | [] => []
  | r :: rest =>
      entryText r ++ (if rest ≠ [] then bytes "," else []) ++ bytes "\n" ++ entriesText rest

/-- The text `exportJson` writes. -/
def exportJson (results : List BenchmarkResult) : Bytes :=
  bytes "[\n" ++ entriesText results ++ bytes "]\n"

end RateThrottle.Benchmarks
