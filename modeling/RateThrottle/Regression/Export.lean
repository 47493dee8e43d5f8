/-
  RateThrottle.Regression.Export

  The JSON reports of the regression tools (export.h of regression/custom/support
  and of regression/google/support).

  Like the benchmark tool's snapshot these texts are put together by hand, but a
  percentage can be an infinity, which `operator<<` prints as "inf" and which is
  no JSON value.  `read_report` says what a reader makes of the report in
  every case, and `report_readable_iff` for which runs there is one to read.
-/

import RateThrottle.Library.JsonText
import RateThrottle.Regression.Counterparts
import RateThrottle.Regression.Google
import RateThrottle.Regression.Snapshot

namespace RateThrottle

open Json (Member)
open Benchmarks (field quoted fixed2 hundredths toHundredths roundHalfEven)

-- ============================================================================
-- Printed values
-- ============================================================================

/-- `std::fixed << std::setprecision(2)` of a floating-point result. -/
def fixedResult : ExtendedRat → Bytes
  | .finite q => fixed2 q
  | .posInf => bytes "inf"
  | .negInf => bytes "-inf"
  | .nan => bytes "nan"

/-- The number that is read from it. -/
def fixedValue : ExtendedRat → Option Json
  | .finite q => some (.float (toHundredths q))
  | _ => none

@[simp] theorem fixedValue_finite (q : ℚ) :
    fixedValue (.finite q) = some (.float (toHundredths q)) := rfl

theorem isSome_fixedValue (x : ExtendedRat) : (fixedValue x).isSome = true ↔ x.IsFinite := by
  cases x <;> simp [fixedValue, ExtendedRat.IsFinite]

/-- A percentage is a number unless a time other than zero is compared with zero. -/
theorem isFinite_percentChange_iff {bNs cNs : ℚ} :
    (percentChange bNs cNs).IsFinite ↔ (bNs ≠ 0 → cNs ≠ 0) := by
  by_cases hb : bNs = 0
  · simp [hb]
  · refine ⟨fun hfinite _ hc => ?_, fun h => percentChange_of_ne (h hb) bNs⟩
    rw [hc, percentChange, if_neg hb, sub_zero, ExtendedRat.div, if_pos rfl] at hfinite
    split at hfinite
    · exact hfinite
    · split at hfinite <;> exact hfinite

/-- The end of a line and the indentation of the next. -/
def indent : Bytes := bytes "\n    "

theorem isSpace_indent : ∀ c ∈ indent, Json.isSpace c = true := List.all_eq_true.mp (by decide)

/-- A name between quotes. -/
def stringMember (key : String) (s : Bytes) : Member :=
  ⟨indent, bytes key, quoted s, some (.string s)⟩

/-- An integer. -/
def unsignedMember (key : String) (n : UInt64) : Member :=
  ⟨indent, bytes key, Decimal.decimal n.toNat, some (.unsigned n.toNat)⟩

/-- A number with two decimals; `lead` is what the line before it ends with. -/
def fixedMember (lead : Bytes) (key : String) (x : ExtendedRat) : Member :=
  ⟨lead ++ indent, bytes key, fixedResult x, fixedValue x⟩

/-- Names that a tool can put between quotes as they are. -/
def PlainName (s : Bytes) : Prop :=
  (∀ c ∈ s, Json.isPlain c = true) ∧ Json.validUtf8 s = true

theorem endsNumber_of_head {text : Bytes} (h : text.head? = some 44 ∨ text.head? = some 10) :
    Json.EndsNumber text := by
  intro c hc
  rcases h with h | h <;>
  · rw [h, Option.mem_def, Option.some_inj] at hc
    subst hc
    decide

theorem sound_stringMember {key : String} {s : Bytes} (hkey : PlainName (bytes key))
    (hs : PlainName s) : (stringMember key s).Sound where
  space := isSpace_indent
  plain := hkey.1
  utf8 := hkey.2
  reads fuel text _ :=
    ⟨[], List.forall_mem_nil _, Regression.readValue_quoted fuel hs.1 hs.2 text⟩

theorem sound_unsignedMember {key : String} (n : UInt64) (hkey : PlainName (bytes key)) :
    (unsignedMember key n).Sound where
  space := isSpace_indent
  plain := hkey.1
  utf8 := hkey.2
  reads fuel _ htext :=
    ⟨[], List.forall_mem_nil _, Regression.readValue_unsigned fuel n (endsNumber_of_head htext)⟩

/-- Any number printed with two decimals is read as the rounded number. -/
theorem readValue_fixed2 (fuel : Nat) (q : ℚ) {text : Bytes} (htext : Json.EndsNumber text) :
    Json.readValue (fuel + 1) (32 :: (fixed2 q ++ text))
      = some (.float (toHundredths q), text) := by
  by_cases hq : 0 ≤ q
  · exact Regression.readValue_fixed2 fuel hq htext
  · have hneg : q < 0 := not_le.mp hq
    have hnonneg := Benchmarks.roundHalfEven_nonneg (show 0 ≤ -q * 100 by linarith)
    obtain ⟨n, hn⟩ := Int.eq_ofNat_of_zero_le hnonneg
    have hfixed : fixed2 q = 45 :: (Decimal.decimal (n / 100)
        ++ 46 :: [Decimal.digit (n / 10 % 10), Decimal.digit (n % 10)]) := by
      rw [fixed2, if_pos hneg, abs_of_neg hneg, hn, Int.toNat_natCast, hundredths,
        List.append_assoc]
      rfl
    have hdigits : ∀ c ∈ [Decimal.digit (n / 10 % 10), Decimal.digit (n % 10)],
        Decimal.isDigit c = true := by
      intro c hc
      rcases List.mem_pair.mp hc with rfl | rfl <;> exact Decimal.isDigit_digit (by omega)
    have hvalue : Decimal.ofDigits (Decimal.decimal (n / 100)
        ++ [Decimal.digit (n / 10 % 10), Decimal.digit (n % 10)]) = n := by
      rw [List.append_cons, Decimal.ofDigits_concat _ (by omega),
        Decimal.ofDigits_concat _ (by omega), Decimal.ofDigits_decimal]
      omega
    have hround : roundHalfEven (q * 100) = -n := by
      rw [← neg_neg (q * 100), Benchmarks.roundHalfEven_neg, ← neg_mul, hn]
    have hminus : Json.skipSpace (32 :: (fixed2 q ++ text)) = 45 :: (Decimal.decimal (n / 100)
        ++ 46 :: ([Decimal.digit (n / 10 % 10), Decimal.digit (n % 10)] ++ text)) := by
      rw [hfixed, List.cons_append, List.append_assoc]
      rfl
    rw [Json.readValue_other hminus (by decide),
      Json.readNumber_minus_fraction _ (by simp) hdigits htext, hvalue, toHundredths, hround]
    norm_num [div_eq_mul_inv, zpow_neg]

/-- What is printed for an infinity, or for no number, is no value. -/
theorem readValue_of_not_finite (fuel : Nat) {x : ExtendedRat} (hx : ¬ x.IsFinite)
    (text : Bytes) : Json.readValue (fuel + 1) (32 :: (fixedResult x ++ text)) = none := by
  have hother : ∀ {c : UInt8} {rest : Bytes}, fixedResult x ++ text = c :: rest →
      Json.isSpace c = false → c ∉ ([34, 91, 123, 116, 102, 110] : Bytes) →
      (∀ d ∈ (Json.optional 45 (c :: rest)).2.head?, Decimal.isDigit d = false) →
      Json.readValue (fuel + 1) (32 :: (fixedResult x ++ text)) = none := by
    intro c rest heq hspace hc hdigit
    have hskip : Json.skipSpace (32 :: (fixedResult x ++ text)) = c :: rest := by
      have hblank : ∀ d ∈ ([32] : Bytes), Json.isSpace d = true :=
        List.all_eq_true.mp (by decide)
      have hskip : Json.skipSpace ([32] ++ c :: rest) = Json.skipSpace (c :: rest) :=
        Json.skipSpace_append hblank
      rw [heq]
      exact hskip.trans (Json.skipSpace_of_head fun d hd => by
        rw [List.head?_cons, Option.mem_def, Option.some_inj] at hd
        exact hd ▸ hspace)
    rw [Json.readValue_other hskip hc, Json.readNumber_eq_none hdigit]
  cases x with
  | finite q => exact absurd trivial hx
  | posInf =>
      refine hother (c := 105) rfl (by decide) (by decide) fun d hd => ?_
      obtain rfl : 105 = d := Option.some.inj hd
      decide
  | negInf =>
      refine hother (c := 45) rfl (by decide) (by decide) fun d hd => ?_
      obtain rfl : 105 = d := Option.some.inj hd
      decide
  | nan => rfl

theorem sound_fixedMember {lead : Bytes} {key : String} (x : ExtendedRat)
    (hlead : ∀ c ∈ lead ++ indent, Json.isSpace c = true) (hkey : PlainName (bytes key)) :
    (fixedMember lead key x).Sound where
  space := hlead
  plain := hkey.1
  utf8 := hkey.2
  reads fuel text htext := by
    refine ⟨[], List.forall_mem_nil _, ?_⟩
    by_cases hx : x.IsFinite
    · cases x with
      | finite q => exact readValue_fixed2 fuel q (endsNumber_of_head htext)
      | _ => exact absurd hx id
    · have hnone : fixedValue x = none := by
        rw [← Option.not_isSome_iff_eq_none, isSome_fixedValue]
        exact hx
      exact (readValue_of_not_finite fuel hx text).trans (by rw [fixedMember, hnone]; rfl)

-- ============================================================================
-- The loop of the exports
-- ============================================================================

section Rows

variable {R : Type}

/-- The loop of `exportJson`, given the object of one row. -/
def entriesText (entryText : R → Bytes) : List R → Bytes
  | [] => []
  | r :: rest =>
      entryText r ++ (if rest ≠ [] then bytes "," else []) ++ bytes "\n" ++ entriesText entryText rest

/-- The text `exportJson` writes. -/
def exportRows (entryText : R → Bytes) (rows : List R) : Bytes :=
  bytes "[\n" ++ entriesText entryText rows ++ bytes "]\n"

theorem bytes_newline : bytes "\n" = [10] := rfl

/-- It is the printed array of the rows' members. -/
theorem exportRows_eq {entryText : R → Bytes} {members : R → List Member}
    (h : ∀ r, entryText r = Json.objectText (members r)) (rows : List R) :
    exportRows entryText rows = Json.arrayText (rows.map members) := by
  have hentries : entriesText entryText rows = Json.objectsText (rows.map members) := by
    induction rows with
    | nil => rfl
    | cons r rest ih =>
        cases rest with
        | nil => simp [entriesText, h, Json.objectsText, bytes_newline]
        | cons r' rest =>
            have hobjects : Json.objectsText ((r :: r' :: rest).map members)
                = Json.objectText (members r) ++ [44, 10]
                  ++ Json.objectsText ((r' :: rest).map members) := rfl
            rw [entriesText, ih, h, if_pos (List.cons_ne_nil r' rest), hobjects]
            simp only [List.append_assoc]
            rfl
  rw [exportRows, hentries]
  rfl

end Rows

-- ============================================================================
-- The custom tool
-- ============================================================================

namespace Regression

/-- The object of one row. -/
def entryText (r : RegressionRow) : Bytes :=
  bytes "  \x7b\n"
    ++ field "suite" (quoted r.suite) ++ bytes ",\n"
    ++ field "operation" (quoted r.operation) ++ bytes ",\n"
    ++ field "iteration" (Decimal.decimal r.iteration.toNat) ++ bytes ", \n"
    ++ field "baseline_ns" (fixed2 r.baseline_ns) ++ bytes ",\n"
    ++ field "current_ns" (fixed2 r.current_ns) ++ bytes ",\n"
    ++ field "pct_change" (fixedResult r.pct_change) ++ bytes "\n"
    ++ bytes "  \x7d"

/-- The text `exportJson` writes. -/
def exportJson (rows : List RegressionRow) : Bytes := exportRows entryText rows

/-- The members of one row. -/
def rowMembers (r : RegressionRow) : List Member :=
  [stringMember "suite" r.suite, stringMember "operation" r.operation,
    unsignedMember "iteration" r.iteration,
    fixedMember (bytes " ") "baseline_ns" (.finite r.baseline_ns),
    fixedMember [] "current_ns" (.finite r.current_ns),
    fixedMember [] "pct_change" r.pct_change]

theorem entryText_eq (r : RegressionRow) : entryText r = Json.objectText (rowMembers r) := by
  simp only [entryText, field, Json.objectText, rowMembers, Json.linesText, Member.line,
    stringMember, unsignedMember, fixedMember, List.append_assoc]
  rfl

/-- The JSON object of one row, none without a percentage. -/
def rowJson (r : RegressionRow) : Option Json :=
  (fixedValue r.pct_change).map fun pct =>
    .object (Json.mapOf [(bytes "suite", .string r.suite), (bytes "operation", .string r.operation),
      (bytes "iteration", .unsigned r.iteration.toNat),
      (bytes "baseline_ns", .float (toHundredths r.baseline_ns)),
      (bytes "current_ns", .float (toHundredths r.current_ns)), (bytes "pct_change", pct)])

theorem objectOf_rowMembers (r : RegressionRow) : Json.objectOf (rowMembers r) = rowJson r := by
  simp only [Json.objectOf, rowMembers, Json.membersOf_cons, stringMember, unsignedMember,
    fixedMember, fixedValue_finite, rowJson, Option.bind_some]
  cases fixedValue r.pct_change <;> rfl

theorem sound_rowMembers {r : RegressionRow} (hsuite : PlainName r.suite)
    (hoperation : PlainName r.operation) : Json.Sound (rowMembers r) where
  nonempty := List.cons_ne_nil _ _
  sound := by
    have hkeys : ∀ key ∈ ["suite", "operation", "iteration", "baseline_ns", "current_ns",
        "pct_change"], PlainName (bytes key) := by
      intro key hkey
      simp only [List.mem_cons, List.not_mem_nil, or_false] at hkey
      rcases hkey with rfl | rfl | rfl | rfl | rfl | rfl <;>
        exact ⟨List.all_eq_true.mp (by decide), by decide⟩
    intro m hm
    simp only [rowMembers, List.mem_cons, List.not_mem_nil, or_false] at hm
    rcases hm with rfl | rfl | rfl | rfl | rfl | rfl
    · exact sound_stringMember (hkeys _ (by simp)) hsuite
    · exact sound_stringMember (hkeys _ (by simp)) hoperation
    · exact sound_unsignedMember _ (hkeys _ (by simp))
    · exact sound_fixedMember _ (List.all_eq_true.mp (by decide)) (hkeys _ (by simp))
    · exact sound_fixedMember _ (List.all_eq_true.mp (by decide)) (hkeys _ (by simp))
    · exact sound_fixedMember _ (List.all_eq_true.mp (by decide)) (hkeys _ (by simp))

/-- **Reading a report.** -/
theorem read_report {rows : List RegressionRow}
    (hnames : ∀ r ∈ rows, PlainName r.suite ∧ PlainName r.operation) :
    Json.read (exportJson rows) = (rows.mapM rowJson).map fun values => (.array values, [10]) := by
  have hsound : ∀ o ∈ rows.map rowMembers, Json.Sound o := by
    rw [List.forall_mem_map]
    exact fun r hr => sound_rowMembers (hnames r hr).1 (hnames r hr).2
  rw [exportJson, exportRows_eq entryText_eq, Json.read_arrayText hsound, List.mapM_map]
  congr 2
  funext r
  exact objectOf_rowMembers r

theorem wellFormed_report_iff {rows : List RegressionRow}
    (hnames : ∀ r ∈ rows, PlainName r.suite ∧ PlainName r.operation) :
    Json.WellFormed (exportJson rows) ↔ ∀ r ∈ rows, r.pct_change.IsFinite := by
  have hsound : ∀ o ∈ rows.map rowMembers, Json.Sound o := by
    rw [List.forall_mem_map]
    exact fun r hr => sound_rowMembers (hnames r hr).1 (hnames r hr).2
  rw [exportJson, exportRows_eq entryText_eq, Json.wellFormed_arrayText_iff hsound,
    List.forall_mem_map]
  refine forall₂_congr fun r _ => ?_
  rw [← isSome_fixedValue]
  simp [rowMembers, stringMember, unsignedMember, fixedMember, fixedValue]

end Regression

-- ============================================================================
-- The Google Benchmark tool
-- ============================================================================

namespace GoogleRegression

/-- The object of one row. -/
def entryText (r : RegressionRow) : Bytes :=
  bytes "  \x7b\n"
    ++ field "name" (quoted r.name) ++ bytes ",\n"
    ++ field "baseline_ns" (fixed2 r.baseline_ns) ++ bytes ",\n"
    ++ field "current_ns" (fixed2 r.current_ns) ++ bytes ",\n"
    ++ field "pct_change" (fixedResult r.pct_change) ++ bytes "\n"
    ++ bytes "  \x7d"

/-- The text `exportJson` writes. -/
def exportJson (rows : List RegressionRow) : Bytes := exportRows entryText rows

/-- The members of one row. -/
def rowMembers (r : RegressionRow) : List Member :=
  [stringMember "name" r.name, fixedMember [] "baseline_ns" (.finite r.baseline_ns),
    fixedMember [] "current_ns" (.finite r.current_ns), fixedMember [] "pct_change" r.pct_change]

theorem entryText_eq (r : RegressionRow) : entryText r = Json.objectText (rowMembers r) := by
  simp only [entryText, field, Json.objectText, rowMembers, Json.linesText, Member.line,
    stringMember, fixedMember, List.append_assoc]
  rfl

/-- The JSON object of one row, none without a percentage. -/
def rowJson (r : RegressionRow) : Option Json :=
  (fixedValue r.pct_change).map fun pct =>
    .object (Json.mapOf [(bytes "name", .string r.name),
      (bytes "baseline_ns", .float (toHundredths r.baseline_ns)),
      (bytes "current_ns", .float (toHundredths r.current_ns)), (bytes "pct_change", pct)])

theorem objectOf_rowMembers (r : RegressionRow) : Json.objectOf (rowMembers r) = rowJson r := by
  simp only [Json.objectOf, rowMembers, Json.membersOf_cons, stringMember, fixedMember,
    fixedValue_finite, rowJson, Option.bind_some]
  cases fixedValue r.pct_change <;> rfl

theorem sound_rowMembers {r : RegressionRow} (hname : PlainName r.name) :
    Json.Sound (rowMembers r) where
  nonempty := List.cons_ne_nil _ _
  sound := by
    have hkeys : ∀ key ∈ ["name", "baseline_ns", "current_ns", "pct_change"],
        PlainName (bytes key) := by
      intro key hkey
      simp only [List.mem_cons, List.not_mem_nil, or_false] at hkey
      rcases hkey with rfl | rfl | rfl | rfl <;>
        exact ⟨List.all_eq_true.mp (by decide), by decide⟩
    intro m hm
    simp only [rowMembers, List.mem_cons, List.not_mem_nil, or_false] at hm
    rcases hm with rfl | rfl | rfl | rfl
    · exact sound_stringMember (hkeys _ (by simp)) hname
    · exact sound_fixedMember _ (List.all_eq_true.mp (by decide)) (hkeys _ (by simp))
    · exact sound_fixedMember _ (List.all_eq_true.mp (by decide)) (hkeys _ (by simp))
    · exact sound_fixedMember _ (List.all_eq_true.mp (by decide)) (hkeys _ (by simp))

/-- With a name compared as the lookup compares it. -/
theorem getCns_ne_zero_iff {results : List BenchmarkResult} {name : Bytes} :
    getCns results name ≠ 0
      ↔ ∃ result, results.find? (·.name = name) = some result ∧ result.real_time ≠ 0 := by
  induction results with
  | nil => simp [getCns]
  | cons result rest ih =>
      rw [getCns, List.find?_cons]
      by_cases hname : result.name = name
      · simp [hname]
      · simp [hname, ih]

theorem rowOf_isFinite_iff {current : List BenchmarkResult} (entry : BenchmarkResult) :
    (rowOf current entry).pct_change.IsFinite
      ↔ (entry.real_time ≠ 0 → getCns current entry.name ≠ 0) := by
  rw [rowOf]
  exact isFinite_percentChange_iff

end GoogleRegression

end RateThrottle
