/-
  RateThrottle.Regression.Snapshot

  Snapshots between the two tools: what the regression tool's `loadResults`
  makes of the text that the benchmark tool's `exportJson` wrote.

  Names without quotes, backslashes and control characters come back as they
  were, in order (`loadResults_exportJson`).  Conversely a snapshot that comes
  back unchanged has only such names: what a document needs for its strings
  must fit between its quotes (`Json.weight_read`), and `exportJson` leaves no
  room for an escape (`content_exportJson`).
-/

import Mathlib.Algebra.Order.BigOperators.Group.List
import Mathlib.Data.Bool.AllAny
import RateThrottle.Benchmarks.Export
import RateThrottle.Library.JsonLex
import RateThrottle.Regression.Results
import RateThrottle.Support.NlohmannJson

namespace RateThrottle.Regression

/-! ## Loading -/

/-- One round of the loop of `loadResults`. -/
def loadEntry (nearest : ℚ → ℚ) (entry : Json) : Except LoadError BenchmarkResult := do
  let suite ← getMember entry "suite" >>= getString
  let operation ← getMember entry "operation" >>= getString
  let total_ns ← getMember entry "total_ns" >>= getUnsigned
  let iterations ← getMember entry "iterations" >>= getUnsigned
  let ns_per_op ← getMember entry "ns_per_op" >>= getDouble nearest
  return { suite, operation, total_ns, iterations, ns_per_op }

/-- `loadResults`, from the content of the file if it can be opened. -/
def loadResults (nearest : ℚ → ℚ) (file : Option Bytes) :
    Except LoadError (List BenchmarkResult) :=
  match file with
  | none => .error .failedToOpen
  | some text => do
      let data ← parse text
      (elements data).mapM (loadEntry nearest)

/-! ## Plain names come back -/

open Benchmarks (exportJson entriesText entryText field quoted fixed2 hundredths toHundredths)

/-- The result that `loadResults` makes of one exported result. -/
def reloaded (nearest : ℚ → ℚ) (r : Benchmarks.BenchmarkResult) : BenchmarkResult where
  suite := r.suite
  operation := r.operation
  total_ns := r.total_ns
  iterations := r.iterations
  ns_per_op := nearest (toHundredths r.ns_per_op)

/-- The members that the text of one result is read as. -/
def membersOf (r : Benchmarks.BenchmarkResult) : List (List UInt8 × Json) :=
  [(bytes "suite", .string r.suite), (bytes "operation", .string r.operation),
    (bytes "total_ns", .unsigned r.total_ns.toNat),
    (bytes "iterations", .unsigned r.iterations.toNat),
    (bytes "ns_per_op", .float (toHundredths r.ns_per_op))]

theorem loadEntry_membersOf (nearest : ℚ → ℚ) (r : Benchmarks.BenchmarkResult) :
    loadEntry nearest (.object (Json.mapOf (membersOf r))) = .ok (reloaded nearest r) := by
  have hsuite : getMember (.object (Json.mapOf (membersOf r))) "suite" >>= getString
      = .ok r.suite := rfl
  have hoperation : getMember (.object (Json.mapOf (membersOf r))) "operation" >>= getString
      = .ok r.operation := rfl
  have htotal : getMember (.object (Json.mapOf (membersOf r))) "total_ns" >>= getUnsigned
      = .ok (.ofNat r.total_ns.toNat) := rfl
  have hiterations : getMember (.object (Json.mapOf (membersOf r))) "iterations" >>= getUnsigned
      = .ok (.ofNat r.iterations.toNat) := rfl
  have hns : getMember (.object (Json.mapOf (membersOf r))) "ns_per_op" >>= getDouble nearest
      = .ok (nearest (toHundredths r.ns_per_op)) := rfl
  simp only [loadEntry, hsuite, hoperation, htotal, hiterations, hns, UInt64.ofNat_toNat]
  rfl

theorem isPlain_iff_bytes {c : UInt8} :
    Json.isPlain c = true ↔ c ≠ 34 ∧ c ≠ 92 ∧ 32 ≤ c := by
  rw [Json.isPlain_iff, UInt8.not_lt]

/-- Where a number of the text ends. -/
theorem endsNumber_cons {c : UInt8} (hc : c = 44 ∨ c = 10) (text : Bytes) :
    Json.EndsNumber (c :: text) := by
  intro d hd
  rw [List.head?_cons, Option.mem_def, Option.some_inj] at hd
  rw [← hd]
  rcases hc with rfl | rfl <;> decide

theorem readValue_unsigned (fuel : Nat) (n : UInt64) {text : Bytes}
    (htext : Json.EndsNumber text) :
    Json.readValue (fuel + 1) (32 :: (Decimal.decimal n.toNat ++ text))
      = some (.unsigned n.toNat, text) := by
  rw [Json.readValue_decimal]
  exact Json.readNumber_decimal n.toNat_lt htext

/-- A number printed with two decimals is read as the rounded number. -/
theorem readValue_fixed2 (fuel : Nat) {q : ℚ} (hq : 0 ≤ q) {text : Bytes}
    (htext : Json.EndsNumber text) :
    Json.readValue (fuel + 1) (32 :: (fixed2 q ++ text))
      = some (.float (toHundredths q), text) := by
  have hnonneg := Benchmarks.roundHalfEven_nonneg (show 0 ≤ q * 100 by positivity)
  obtain ⟨n, hn⟩ := Int.eq_ofNat_of_zero_le hnonneg
  have hfixed : fixed2 q = Decimal.decimal (n / 100)
      ++ 46 :: [Decimal.digit (n / 10 % 10), Decimal.digit (n % 10)] := by
    rw [fixed2, if_neg (not_lt.mpr hq), abs_of_nonneg hq, hn, Int.toNat_natCast, hundredths,
      List.nil_append, List.append_assoc]
    rfl
  have hdigits : ∀ c ∈ [Decimal.digit (n / 10 % 10), Decimal.digit (n % 10)],
      Decimal.isDigit c = true := by
    intro c hc
    rcases List.mem_pair.mp hc with rfl | rfl <;> exact Decimal.isDigit_digit (by omega)
  have hvalue : Decimal.ofDigits (Decimal.decimal (n / 100)
      ++ [Decimal.digit (n / 10 % 10), Decimal.digit (n % 10)]) = n := by
    rw [List.append_cons, Decimal.ofDigits_concat _ (by omega),
      Decimal.ofDigits_concat _ (by omega), Decimal.ofDigits_decimal]
    omega
  rw [hfixed, List.append_assoc, Json.readValue_decimal]
  show Json.readNumber (Decimal.decimal (n / 100)
    ++ 46 :: ([Decimal.digit (n / 10 % 10), Decimal.digit (n % 10)] ++ text)) = _
  rw [Json.readNumber_fraction _ (by simp) hdigits htext, hvalue, toHundredths, hn]
  norm_num [div_eq_mul_inv]

/-! ## Reading an exported entry -/

/-- A string value of the text. -/
theorem readValue_quoted (fuel : Nat) {s : Bytes} (hs : ∀ c ∈ s, Json.isPlain c = true)
    (hutf8 : Json.validUtf8 s = true) (text : Bytes) :
    Json.readValue (fuel + 1) (32 :: (quoted s ++ text)) = some (.string s, text) := by
  have hquoted : quoted s ++ text = 34 :: (s ++ 34 :: text) := by
    rw [quoted, List.append_assoc, List.append_assoc]
    rfl
  rw [hquoted]
  exact Json.readValue_string rfl (Json.readString_plain hs hutf8 text)

section Fields

variable {readValue : Bytes → Option (Json × Bytes)} {fuel : Nat} {key : String}
  {value tail after : Bytes} {v : Json} {members : List (List UInt8 × Json)}

/-- One line of an entry that is followed by another. -/
theorem readMembers_field (hkey : (bytes key).all Json.isPlain = true)
    (hutf8 : Json.validUtf8 (bytes key) = true)
    (hvalue : readValue (32 :: (value ++ 44 :: tail)) = some (v, 44 :: tail))
    (htail : Json.readMembers readValue fuel tail = some (members, after)) :
    Json.readMembers readValue (fuel + 1) (10 :: (field key value ++ 44 :: tail))
      = some ((bytes key, v) :: members, after) := by
  have hspace : Json.skipSpace (10 :: (field key value ++ 44 :: tail))
      = 34 :: (bytes key ++ 34 :: 58 :: 32 :: (value ++ 44 :: tail)) := by
    simp only [field, List.append_assoc]
    rfl
  exact Json.readMembers_cons hspace (Json.readString_plain (List.all_eq_true.mp hkey) hutf8 _) rfl hvalue rfl htail

/-- The last line of an entry. -/
theorem readMembers_lastField (hkey : (bytes key).all Json.isPlain = true)
    (hutf8 : Json.validUtf8 (bytes key) = true)
    (hvalue : readValue (32 :: (value ++ 10 :: 32 :: 32 :: 125 :: after))
      = some (v, 10 :: 32 :: 32 :: 125 :: after)) :
    Json.readMembers readValue (fuel + 1)
        (10 :: (field key value ++ 10 :: 32 :: 32 :: 125 :: after))
      = some ([(bytes key, v)], after) := by
  have hspace : Json.skipSpace (10 :: (field key value ++ 10 :: 32 :: 32 :: 125 :: after))
      = 34 :: (bytes key ++ 34 :: 58 :: 32 :: (value ++ 10 :: 32 :: 32 :: 125 :: after)) := by
    simp only [field, List.append_assoc]
    rfl
  exact Json.readMembers_last hspace (Json.readString_plain (List.all_eq_true.mp hkey) hutf8 _) rfl hvalue rfl

end Fields

/-- Names that `exportJson` can put between quotes as they are. -/
def PlainNames (r : Benchmarks.BenchmarkResult) : Prop :=
  ∀ c ∈ r.suite ++ r.operation, c ≠ 34 ∧ c ≠ 92 ∧ 32 ≤ c

/-- Names that are UTF-8. -/
def Utf8Names (r : Benchmarks.BenchmarkResult) : Prop :=
  Json.validUtf8 r.suite = true ∧ Json.validUtf8 r.operation = true

theorem readValue_entryText {r : Benchmarks.BenchmarkResult} (hplain : PlainNames r)
    (hutf8 : Utf8Names r) (hns : 0 ≤ r.ns_per_op) (fuel : Nat) (text : Bytes) :
    Json.readValue (fuel + 6) (10 :: (entryText r ++ text))
      = some (.object (Json.mapOf (membersOf r)), text) := by
  have hsuite : ∀ c ∈ r.suite, Json.isPlain c = true := fun c hc =>
    isPlain_iff_bytes.mpr (hplain c (List.mem_append_left _ hc))
  have hoperation : ∀ c ∈ r.operation, Json.isPlain c = true := fun c hc =>
    isPlain_iff_bytes.mpr (hplain c (List.mem_append_right _ hc))
  have hentry : 10 :: (entryText r ++ text) = [10, 32, 32] ++ 123 ::
      (10 :: (field "suite" (quoted r.suite) ++ 44 ::
        (10 :: (field "operation" (quoted r.operation) ++ 44 ::
          (10 :: (field "total_ns" (Decimal.decimal r.total_ns.toNat) ++ 44 ::
            (10 :: (field "iterations" (Decimal.decimal r.iterations.toNat) ++ 44 ::
              (10 :: (field "ns_per_op" (fixed2 r.ns_per_op)
                ++ 10 :: 32 :: 32 :: 125 :: text)))))))))) := by
    simp only [entryText, List.append_assoc]
    rfl
  have hspaces : ∀ c ∈ ([10, 32, 32] : Bytes), Json.isSpace c = true :=
    List.all_eq_true.mp (by decide)
  rw [hentry]
  refine Json.readValue_object (Json.skipSpace_append hspaces) rfl (by decide) ?_
  refine readMembers_field (by decide) (by decide) (readValue_quoted _ hsuite hutf8.1 _) ?_
  refine readMembers_field (by decide) (by decide) (readValue_quoted _ hoperation hutf8.2 _) ?_
  refine readMembers_field (by decide) (by decide)
    (readValue_unsigned _ _ (endsNumber_cons (.inl rfl) _)) ?_
  refine readMembers_field (by decide) (by decide)
    (readValue_unsigned _ _ (endsNumber_cons (.inl rfl) _)) ?_
  exact readMembers_lastField (by decide) (by decide)
    (readValue_fixed2 _ hns (endsNumber_cons (.inr rfl) _))

theorem readElements_entriesText {fuel n : Nat} {r : Benchmarks.BenchmarkResult}
    {rest : List Benchmarks.BenchmarkResult} (hplain : ∀ x ∈ r :: rest, PlainNames x)
    (hutf8 : ∀ x ∈ r :: rest, Utf8Names x) (hns : ∀ x ∈ r :: rest, 0 ≤ x.ns_per_op)
    (hn : rest.length < n) :
    Json.readElements (Json.readValue (fuel + 6)) n (10 :: (entriesText (r :: rest) ++ [93, 10]))
      = some ((r :: rest).map fun x => .object (Json.mapOf (membersOf x)), [10]) := by
  obtain ⟨n, rfl⟩ : ∃ m, n = m + 1 := ⟨n - 1, by omega⟩
  induction rest generalizing r n with
  | nil =>
      have htext : entriesText [r] ++ [93, 10] = entryText r ++ [10, 93, 10] := by
        simp only [entriesText, List.append_assoc]
        rfl
      rw [htext]
      exact Json.readElements_last (readValue_entryText (hplain r List.mem_cons_self)
        (hutf8 r List.mem_cons_self) (hns r List.mem_cons_self) fuel _) rfl
  | cons next rest ih =>
      have htext : entriesText (r :: next :: rest) ++ [93, 10]
          = entryText r ++ 44 :: 10 :: (entriesText (next :: rest) ++ [93, 10]) := by
        simp only [entriesText, List.append_assoc]
        rfl
      rw [List.length_cons] at hn
      obtain ⟨n, rfl⟩ : ∃ m, n = m + 1 := ⟨n - 1, by omega⟩
      rw [htext]
      refine Json.readElements_cons (readValue_entryText (hplain r List.mem_cons_self)
        (hutf8 r List.mem_cons_self) (hns r List.mem_cons_self) fuel _) rfl ?_
      apply ih (fun x hx => hplain x (List.mem_cons_of_mem r hx))
        (fun x hx => hutf8 x (List.mem_cons_of_mem r hx))
        (fun x hx => hns x (List.mem_cons_of_mem r hx))
      omega

theorem length_entriesText (results : List Benchmarks.BenchmarkResult) :
    6 * results.length ≤ (entriesText results).length := by
  induction results with
  | nil => exact Nat.zero_le _
  | cons r rest ih =>
      have hentry : 6 ≤ (entryText r).length := by
        simp only [entryText, List.length_append]
        have hopen : (bytes "  \x7b\n").length = 4 := by decide
        have hclose : (bytes "  \x7d").length = 3 := by decide
        omega
      simp only [entriesText, List.length_append, List.length_cons]
      omega

/-- **Plain names come back.** The exported text is one JSON value up to its last
    byte, the array of the results in order. -/
theorem read_exportJson {results : List Benchmarks.BenchmarkResult}
    (hplain : ∀ r ∈ results, PlainNames r) (hutf8 : ∀ r ∈ results, Utf8Names r)
    (hns : ∀ r ∈ results, 0 ≤ r.ns_per_op) :
    Json.read (exportJson results)
      = some (.array (results.map fun r => .object (Json.mapOf (membersOf r))), [10]) := by
  cases results with
  | nil => rfl
  | cons r rest =>
      have htext : exportJson (r :: rest) = 91 :: 10 :: (entriesText (r :: rest) ++ [93, 10]) := by
        rw [exportJson, List.append_assoc]
        rfl
      have hlength := length_entriesText (r :: rest)
      rw [List.length_cons] at hlength
      obtain ⟨fuel, hfuel⟩ : ∃ fuel, (exportJson (r :: rest)).length = fuel + 6 :=
        ⟨(exportJson (r :: rest)).length - 6, by
          rw [htext, List.length_cons, List.length_cons, List.length_append]
          omega⟩
      rw [Json.read, hfuel, htext]
      have hbrace : ∃ tail, Json.skipSpace (10 :: (entriesText (r :: rest) ++ [93, 10]))
          = 123 :: tail := by
        simp only [entriesText, entryText, List.append_assoc]
        exact ⟨_, rfl⟩
      obtain ⟨tail, htail⟩ := hbrace
      refine Json.readValue_array rfl htail (by decide)
        (readElements_entriesText hplain hutf8 hns ?_)
      rw [htext, List.length_cons, List.length_cons, List.length_append] at hfuel
      omega

theorem mapM_loadEntry (nearest : ℚ → ℚ) (results : List Benchmarks.BenchmarkResult) :
    (results.map fun r => Json.object (Json.mapOf (membersOf r))).mapM (loadEntry nearest)
      = .ok (results.map (reloaded nearest)) := by
  induction results with
  | nil => rfl
  | cons r rest ih =>
      rw [List.map_cons, List.mapM_cons, loadEntry_membersOf, ih]
      rfl

theorem loadResults_exportJson (nearest : ℚ → ℚ) {results : List Benchmarks.BenchmarkResult}
    (hplain : ∀ r ∈ results, PlainNames r) (hutf8 : ∀ r ∈ results, Utf8Names r)
    (hns : ∀ r ∈ results, 0 ≤ r.ns_per_op) :
    loadResults nearest (some (exportJson results)) = .ok (results.map (reloaded nearest)) := by
  have hparse : parse (exportJson results)
      = .ok (.array (results.map fun r => .object (Json.mapOf (membersOf r)))) := by
    rw [parse, read_exportJson hplain hutf8 hns]
  rw [loadResults, hparse]
  exact mapM_loadEntry nearest results

/-! ## A snapshot that comes back had plain names -/

open Json (content need weight weightElements weightMembers)

/-- What the strings of one result need, with the five keys. -/
def needed (suite operation : Bytes) : Nat := 41 + need suite + need operation

theorem content_field {key : String} (hkey : (bytes key).all Json.isPlain = true)
    (value text : Bytes) :
    content .outside (field key value ++ text)
      = (content .outside (value ++ text)).map (· + (bytes key).length) := by
  have hfield : field key value ++ text
      = [32, 32, 32, 32] ++ 34 :: (bytes key ++ 34 :: ([58, 32] ++ (value ++ text))) := by
    simp only [field, List.append_assoc]
    rfl
  rw [hfield, Json.content_append (Json.forall_ne_quote (by decide)), content, if_pos rfl, Json.content_name (List.all_eq_true.mp hkey),
    Json.content_append (Json.forall_ne_quote (by decide))]

theorem ne_quote_of_isDigit {c : UInt8} (hc : Decimal.isDigit c = true) : c ≠ 34 := by
  rintro rfl
  cases hc

theorem ne_quote_of_mem_fixed2 {q : ℚ} {c : UInt8} (hc : c ∈ fixed2 q) : c ≠ 34 := by
  rw [fixed2, hundredths] at hc
  simp only [List.mem_append, List.mem_pair] at hc
  rcases hc with hsign | (hint | hpoint) | hdigit
  · split at hsign
    · rw [List.mem_singleton.mp hsign]
      decide
    · cases hsign
  · exact ne_quote_of_isDigit (Decimal.isDigit_of_mem_decimal hint)
  · rw [List.mem_singleton.mp hpoint]
    decide
  · rcases hdigit with rfl | rfl <;>
      exact ne_quote_of_isDigit (Decimal.isDigit_digit (by omega))

/-- A string value: whatever the name is, the tokens of its line hold no more
    than the key and the name. -/
theorem content_quotedField {key : String} (hkey : (bytes key).all Json.isPlain = true)
    {s text : Bytes} {n : Nat}
    (h : content .outside (field key (quoted s) ++ (44 :: 10 :: text)) = some n) :
    ∃ m, content .outside text = some m ∧ n ≤ (bytes key).length + s.length + m := by
  rw [content_field hkey] at h
  obtain ⟨k, hk, rfl⟩ := Option.map_eq_some_iff.mp h
  have hquoted : quoted s ++ 44 :: 10 :: text = 34 :: (s ++ 34 :: 44 :: 10 :: text) := by
    simp only [quoted, List.append_assoc]
    rfl
  rw [hquoted, content, if_pos rfl] at hk
  obtain ⟨m, hm, hle⟩ := Json.content_line .inside s text hk
  exact ⟨m, hm, by omega⟩

/-- A number. -/
theorem content_numberField {key : String} (hkey : (bytes key).all Json.isPlain = true)
    {value text : Bytes} (hvalue : ∀ c ∈ value, c ≠ 34) {n : Nat}
    (h : content .outside (field key value ++ text) = some n) :
    ∃ m, content .outside text = some m ∧ n = (bytes key).length + m := by
  rw [content_field hkey, Json.content_append hvalue] at h
  obtain ⟨m, hm, rfl⟩ := Option.map_eq_some_iff.mp h
  exact ⟨m, hm, Nat.add_comm _ _⟩

theorem content_entryText {r : Benchmarks.BenchmarkResult} {text : Bytes} {n : Nat}
    (h : content .outside (entryText r ++ text) = some n) :
    ∃ m, content .outside text = some m ∧ n ≤ 41 + r.suite.length + r.operation.length + m := by
  have hentry : entryText r ++ text = [32, 32, 123, 10] ++
      (field "suite" (quoted r.suite) ++ 44 :: 10 ::
        (field "operation" (quoted r.operation) ++ 44 :: 10 ::
          (field "total_ns" (Decimal.decimal r.total_ns.toNat) ++ ([44, 10] ++
            (field "iterations" (Decimal.decimal r.iterations.toNat) ++ ([44, 10] ++
              (field "ns_per_op" (fixed2 r.ns_per_op) ++ ([10, 32, 32, 125] ++ text)))))))) := by
    simp only [entryText, List.append_assoc]
    rfl
  have hdecimal : ∀ k, ∀ c ∈ Decimal.decimal k, c ≠ 34 := fun k c hc =>
    ne_quote_of_isDigit (Decimal.isDigit_of_mem_decimal hc)
  rw [hentry, Json.content_append (Json.forall_ne_quote (by decide))] at h
  obtain ⟨m₁, h₁, hn₁⟩ := content_quotedField (by decide) h
  obtain ⟨m₂, h₂, hn₂⟩ := content_quotedField (by decide) h₁
  obtain ⟨m₃, h₃, hn₃⟩ := content_numberField (by decide) (hdecimal _) h₂
  rw [Json.content_append (Json.forall_ne_quote (by decide))] at h₃
  obtain ⟨m₄, h₄, hn₄⟩ := content_numberField (by decide) (hdecimal _) h₃
  rw [Json.content_append (Json.forall_ne_quote (by decide))] at h₄
  obtain ⟨m₅, h₅, hn₅⟩ := content_numberField (by decide) (fun c => ne_quote_of_mem_fixed2) h₄
  rw [Json.content_append (Json.forall_ne_quote (by decide))] at h₅
  have hsuite : (bytes "suite").length = 5 := by decide
  have hoperation : (bytes "operation").length = 9 := by decide
  have htotal : (bytes "total_ns").length = 8 := by decide
  have hiterations : (bytes "iterations").length = 10 := by decide
  have hns : (bytes "ns_per_op").length = 9 := by decide
  exact ⟨m₅, h₅, by omega⟩

/-- **The exported text leaves no room for escapes.** -/
theorem content_exportJson {results : List Benchmarks.BenchmarkResult} {n : Nat}
    (h : content .outside (exportJson results) = some n) :
    n ≤ (results.map fun r => 41 + r.suite.length + r.operation.length).sum := by
  suffices hentries : ∀ text, (∀ c ∈ text, c ≠ 34) → ∀ n,
      content .outside (entriesText results ++ text) = some n →
        n ≤ (results.map fun r => 41 + r.suite.length + r.operation.length).sum by
    have hopen : exportJson results = bytes "[\n" ++ (entriesText results ++ bytes "]\n") := by
      rw [exportJson, List.append_assoc]
    rw [hopen, Json.content_append (Json.forall_ne_quote (by decide))] at h
    exact hentries _ (Json.forall_ne_quote (by decide)) n h
  clear h
  intro text htext
  induction results with
  | nil =>
      intro n hn
      have hzero := Json.content_append htext []
      rw [List.append_nil] at hzero
      rw [entriesText, List.nil_append, hzero] at hn
      rw [← Option.some.inj hn]
      exact Nat.zero_le _
  | cons r rest ih =>
      intro n hn
      have hcomma : ∀ c ∈ (if rest ≠ [] then bytes "," else []) ++ bytes "\n", c ≠ 34 := by
        split
        · exact Json.forall_ne_quote (by decide)
        · exact Json.forall_ne_quote (by decide)
      have hshape : entriesText (r :: rest) ++ text = entryText r
          ++ (((if rest ≠ [] then bytes "," else []) ++ bytes "\n")
            ++ (entriesText rest ++ text)) := by
        simp only [entriesText, List.append_assoc]
      rw [hshape] at hn
      obtain ⟨m, hm, hle⟩ := content_entryText hn
      rw [Json.content_append hcomma] at hm
      have hrest := ih m hm
      rw [List.map_cons, List.sum_cons]
      omega

/-- What an entry that loads must hold. -/
theorem of_loadEntry {nearest : ℚ → ℚ} {entry : Json} {b : BenchmarkResult}
    (h : loadEntry nearest entry = .ok b) :
    ∃ members total iterations ns, entry = .object members ∧
      Json.lookup (bytes "suite") members = some (.string b.suite) ∧
      Json.lookup (bytes "operation") members = some (.string b.operation) ∧
      Json.lookup (bytes "total_ns") members = some total ∧
      Json.lookup (bytes "iterations") members = some iterations ∧
      Json.lookup (bytes "ns_per_op") members = some ns := by
  obtain ⟨suite, hsuite, h⟩ := bind_eq_ok h
  obtain ⟨operation, hoperation, h⟩ := bind_eq_ok h
  obtain ⟨total_ns, htotal, h⟩ := bind_eq_ok h
  obtain ⟨iterations, hiterations, h⟩ := bind_eq_ok h
  obtain ⟨ns_per_op, hns, h⟩ := bind_eq_ok h
  cases h
  obtain ⟨members, rfl⟩ := exists_object_of_get hsuite
  obtain ⟨v₁, hv₁, hget₁⟩ := get_object_eq_ok.mp hsuite
  obtain ⟨v₂, hv₂, hget₂⟩ := get_object_eq_ok.mp hoperation
  obtain ⟨v₃, hv₃, -⟩ := get_object_eq_ok.mp htotal
  obtain ⟨v₄, hv₄, -⟩ := get_object_eq_ok.mp hiterations
  obtain ⟨v₅, hv₅, -⟩ := get_object_eq_ok.mp hns
  rw [getString_eq_ok hget₁] at hv₁
  rw [getString_eq_ok hget₂] at hv₂
  exact ⟨members, v₃, v₄, v₅, rfl, hv₁, hv₂, hv₃, hv₄, hv₅⟩

/-- An entry that loads weighs what its keys and names need. -/
theorem needed_le_weight {nearest : ℚ → ℚ} {entry : Json} {b : BenchmarkResult}
    (h : loadEntry nearest entry = .ok b) : needed b.suite b.operation ≤ weight entry := by
  obtain ⟨members, total, iterations, ns, rfl, h₁, h₂, h₃, h₄, h₅⟩ := of_loadEntry h
  have hle : weightMembers [(bytes "suite", .string b.suite),
      (bytes "operation", .string b.operation), (bytes "total_ns", total),
      (bytes "iterations", iterations), (bytes "ns_per_op", ns)] ≤ weightMembers members := by
    apply Json.weightMembers_le_of_lookup
    · show [bytes "suite", bytes "operation", bytes "total_ns", bytes "iterations",
        bytes "ns_per_op"].Nodup
      decide
    · intro m hm
      simp only [List.mem_cons, List.not_mem_nil, or_false] at hm
      rcases hm with rfl | rfl | rfl | rfl | rfl <;> assumption
  have hsuite : need (bytes "suite") = 5 := by decide
  have hoperation : need (bytes "operation") = 9 := by decide
  have htotal : need (bytes "total_ns") = 8 := by decide
  have hiterations : need (bytes "iterations") = 10 := by decide
  have hns : need (bytes "ns_per_op") = 9 := by decide
  simp only [weightMembers, weight] at hle
  simp only [needed, weight]
  omega

theorem weightElements_elements (value : Json) : weightElements (elements value) ≤ weight value := by
  cases value with
  | array xs => exact le_rfl
  | object members =>
      simp only [elements, weight]
      induction members with
      | nil => exact le_rfl
      | cons m rest ih =>
          simp only [List.map_cons, weightElements, weightMembers]
          omega
  | null => exact le_rfl
  | _ => simp [elements, weightElements, weight]

theorem needed_sum_le {nearest : ℚ → ℚ} {entries : List Json} {loaded : List BenchmarkResult}
    (h : entries.mapM (loadEntry nearest) = .ok loaded) :
    (loaded.map fun b => needed b.suite b.operation).sum ≤ weightElements entries := by
  induction entries generalizing loaded with
  | nil =>
      cases h
      exact le_rfl
  | cons entry entries ih =>
      rw [List.mapM_cons] at h
      obtain ⟨b, hb, h⟩ := bind_eq_ok h
      obtain ⟨rest, hrest, h⟩ := bind_eq_ok h
      cases h
      have hfirst := needed_le_weight hb
      have hmore := ih hrest
      simp only [List.map_cons, List.sum_cons, weightElements]
      omega

/-- The exported text is a JSON document, and loading it gives the results back,
    in order and with `ns_per_op` rounded to two decimals. -/
structure RoundTrips (nearest : ℚ → ℚ) (results : List Benchmarks.BenchmarkResult) : Prop where
  wellFormed : Json.WellFormed (exportJson results)
  loads : loadResults nearest (some (exportJson results)) = .ok (results.map (reloaded nearest))

theorem plainNames_of_roundTrips {nearest : ℚ → ℚ} {results : List Benchmarks.BenchmarkResult}
    (h : RoundTrips nearest results) : ∀ r ∈ results, PlainNames r := by
  obtain ⟨value, rest, hread, hrest⟩ := h.wellFormed
  have hloads := h.loads
  have hparse : parse (exportJson results) = .ok value := by
    rw [parse, hread]
  rw [loadResults, hparse] at hloads
  -- what the names need fits into the tokens, and these hold no more than the names
  have hneeded := needed_sum_le hloads
  have hweight := weightElements_elements value
  obtain ⟨n, hn, hle⟩ := Json.weight_read hread hrest
  have hroom := content_exportJson hn
  rw [List.map_map] at hneeded
  by_contra hnot
  push Not at hnot
  obtain ⟨r, hr, hescape⟩ := hnot
  have hlt : r.suite.length + r.operation.length < need r.suite + need r.operation := by
    have hsuite := Json.length_le_need r.suite
    have hoperation := Json.length_le_need r.operation
    by_contra hge
    apply hescape
    intro c hc
    apply isPlain_iff_bytes.mp
    rcases List.mem_append.mp hc with hc | hc
    · exact Json.isPlain_of_need_le (by omega) c hc
    · exact Json.isPlain_of_need_le (by omega) c hc
  have hsum := List.sum_lt_sum (l := results)
    (fun r => 41 + r.suite.length + r.operation.length)
    (fun r => needed r.suite r.operation)
    (fun x _ => by
      have hsuite := Json.length_le_need x.suite
      have hoperation := Json.length_le_need x.operation
      simp only [needed]
      omega)
    ⟨r, hr, by
      simp only [needed]
      omega⟩
  have hneeded' : (results.map fun r => needed r.suite r.operation).sum
      ≤ weightElements (elements value) := hneeded
  omega

/-- **Which snapshots survive the round trip.** Exactly those whose suite and
    operation names have no quote, no backslash and no control character. -/
theorem roundTrips_iff (nearest : ℚ → ℚ) {results : List Benchmarks.BenchmarkResult}
    (hutf8 : ∀ r ∈ results, Utf8Names r) (hns : ∀ r ∈ results, 0 ≤ r.ns_per_op) :
    RoundTrips nearest results
      ↔ ∀ r ∈ results, ∀ c ∈ r.suite ++ r.operation, c ≠ 34 ∧ c ≠ 92 ∧ 32 ≤ c := by
  refine ⟨?_, ?_⟩
  · exact plainNames_of_roundTrips
  · intro hplain
    exact ⟨⟨_, _, read_exportJson hplain hutf8 hns, rfl⟩,
      loadResults_exportJson nearest hplain hutf8 hns⟩

/-- Two plain names, one of them not ASCII. -/
theorem roundTrips_cache :
    RoundTrips id [⟨bytes "Cache", bytes "get, x100", 500, 10000, 1 / 20⟩,
      ⟨bytes "Cache", bytes "größe", 700, 10000, 2 / 3⟩] := by
  apply (roundTrips_iff id ?_ ?_).mpr
  · intro r hr
    rcases List.mem_pair.mp hr with rfl | rfl
    · exact List.all_iff_forall_prop.mp rfl
    · exact List.all_iff_forall_prop.mp rfl
  · intro r hr
    rcases List.mem_pair.mp hr with rfl | rfl <;> exact ⟨by decide, by decide⟩
  · intro r hr
    rcases List.mem_pair.mp hr with rfl | rfl <;> norm_num

/-- A quote in a name: the snapshot cannot be read at all. -/
theorem quoted_name_unreadable :
    loadResults id (some (exportJson [⟨bytes "Cache", bytes "get \"hot\"", 500, 10000, 1 / 20⟩]))
        = .error .exception ∧
      ¬ RoundTrips id [⟨bytes "Cache", bytes "get \"hot\"", 500, 10000, 1 / 20⟩] := by
  have hfails : loadResults id
      (some (exportJson [⟨bytes "Cache", bytes "get \"hot\"", 500, 10000, 1 / 20⟩]))
        = .error .exception := by decide +kernel
  refine ⟨hfails, fun h => ?_⟩
  have hloads := h.loads
  rw [hfails] at hloads
  cases hloads

end RateThrottle.Regression
