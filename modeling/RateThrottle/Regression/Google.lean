/-
  RateThrottle.Regression.Google

  The comparison of the Google Benchmark regression tool
  (regression/google/support), from the JSON documents that
  `--benchmark_out_format=json` writes to the recorded rows.

  `loadResults` copies `real_time` and `time_unit` as they stand, and nothing
  after it reads the unit.  Re-expressing one entry in another unit is
  `reexpressEntry`, an edit of the document; `rows_reexpressed_iff` says exactly
  when the comparison does not notice.
-/

import Mathlib.Tactic.FieldSimp
import RateThrottle.Regression.Comparison
import RateThrottle.Support.NlohmannJson

namespace RateThrottle.GoogleRegression

/-- `struct BenchmarkResult`. -/
structure BenchmarkResult where
  name : Bytes
  iterations : UInt64
  real_time : ℚ
  cpu_time : ℚ
  time_unit : Bytes
deriving DecidableEq

/-- `struct RegressionRow`. -/
structure RegressionRow where
  name : Bytes
  baseline_ns : ℚ
  current_ns : ℚ
  pct_change : ExtendedRat
deriving DecidableEq

/-! ## Loading -/

/-- One round of the loop of `loadResults`. -/
def loadEntry (nearest : ℚ → ℚ) (entry : Json) : Except LoadError BenchmarkResult := do
  let name ← getMember entry "name" >>= getString
  let iterations ← getMember entry "iterations" >>= getUnsigned
  let real_time ← getMember entry "real_time" >>= getDouble nearest
  let cpu_time ← getMember entry "cpu_time" >>= getDouble nearest
  let time_unit ← getMember entry "time_unit" >>= getString
  return { name, iterations, real_time, cpu_time, time_unit }

/-- `data.at("benchmarks")`, which throws where `operator[]` is undefined. -/
def benchmarksOf (data : Json) : Except LoadError Json :=
  match getMember data "benchmarks" with
  | .ok value => .ok value
  | .error _ => .error .exception

/-- `loadResults`, from the document in the file. -/
def loadResults (nearest : ℚ → ℚ) (data : Json) : Except LoadError (List BenchmarkResult) := do
  let benchmarks ← benchmarksOf data
  (elements benchmarks).mapM (loadEntry nearest)

/-! ## The comparison -/

/-- The part of a name before its last underscore, or all of it. -/
def beforeLastUnderscore (base : Bytes) : Bytes :=
  if 95 ∈ base then (base.reverse.dropWhile (· ≠ 95)).tail.reverse else base

/-- `baseName`: without "/<args>", then without the last "_<Library>". -/
def baseName (name : Bytes) : Bytes := beforeLastUnderscore (name.takeWhile (· ≠ 47))

/-- `getCns`. -/
def getCns (results : List BenchmarkResult) (name : Bytes) : ℚ :=
  match results with
  | [] => 0
  | result :: rest => if result.name = name then result.real_time else getCns rest name

/-- `printComparisonRow`. -/
def printComparisonRow (name : Bytes) (bNs cNs : ℚ) (report : Report RegressionRow) :
    Report RegressionRow :=
  let pct := percentChange bNs cNs
  let row : RegressionRow := { name, baseline_ns := bNs, current_ns := cNs, pct_change := pct }
  { report.write (.row row (arrow pct)) with
    regression_results := report.regression_results ++ [row] }

/-- The part of the loop of `printRegression` after the group header. -/
def printEntry (current : List BenchmarkResult) (entry : BenchmarkResult) :
    Report RegressionRow → Report RegressionRow :=
  printComparisonRow entry.name entry.real_time (getCns current entry.name)

/-- `printRegression`. -/
def printRegression (baseline current : List BenchmarkResult) (report : Report RegressionRow) :
    Report RegressionRow :=
  printGrouped (fun entry => baseName entry.name) (printEntry current) baseline (bytes " ") report

/-- `printSummary`, none when it prints nothing. -/
def printSummary (report : Report RegressionRow) : Option Tally :=
  let counters := tally (report.regression_results.map RegressionRow.pct_change)
  if counters.total = 0 then none else some counters

/-- The rows of a run on two snapshot documents. -/
def compare (nearest : ℚ → ℚ) (baselineData currentData : Json) :
    Except LoadError (List RegressionRow) := do
  let baselineResults ← loadResults nearest baselineData
  let currentResults ← loadResults nearest currentData
  return (printRegression baselineResults currentResults .start).regression_results

/-- The row of one baseline entry. -/
def rowOf (current : List BenchmarkResult) (entry : BenchmarkResult) : RegressionRow :=
  let cNs := getCns current entry.name
  { name := entry.name, baseline_ns := entry.real_time, current_ns := cNs,
    pct_change := percentChange entry.real_time cNs }

theorem regression_results_printRegression (baseline current : List BenchmarkResult)
    (report : Report RegressionRow) :
    (printRegression baseline current report).regression_results
      = report.regression_results ++ baseline.map (rowOf current) := by
  apply regression_results_printGrouped
  intro entry report
  rfl

/-! ## Units -/

/-- The time units of Google Benchmark. -/
inductive TimeUnit where
  | ns
  | us
  | ms
  | s
deriving DecidableEq, Repr

namespace TimeUnit

/-- The unit as a snapshot names it. -/
def name : TimeUnit → Bytes
  | ns => bytes "ns"
  | us => bytes "us"
  | ms => bytes "ms"
  | s => bytes "s"

/-- The unit of a name. -/
def ofName (name : Bytes) : Option TimeUnit := [ns, us, ms, s].find? fun u => u.name = name

theorem ofName_name (u : TimeUnit) : ofName u.name = some u := by
  cases u <;> rfl

/-- The nanoseconds of a unit. -/
def nanos : TimeUnit → ℚ
  | ns => 1
  | us => 1000
  | ms => 1000000
  | s => 1000000000

theorem nanos_pos (u : TimeUnit) : 0 < u.nanos := by
  cases u <;> norm_num [nanos]

theorem nanos_inj {u v : TimeUnit} (h : u.nanos = v.nanos) : u = v := by
  cases u <;> cases v <;> first | rfl | norm_num [nanos] at h

end TimeUnit

/-- A time in `u`, written in `v`. -/
def convert (u v : TimeUnit) (time : ℚ) : ℚ := time * (u.nanos / v.nanos)

/-- The same duration. -/
theorem convert_nanos (u v : TimeUnit) (time : ℚ) :
    convert u v time * v.nanos = time * u.nanos := by
  have hv := (TimeUnit.nanos_pos v).ne'
  rw [convert]
  field_simp

theorem convert_eq_iff {u v : TimeUnit} {time : ℚ} :
    convert u v time = time ↔ v = u ∨ time = 0 := by
  have hv := (TimeUnit.nanos_pos v).ne'
  rw [convert, mul_right_eq_self₀, div_eq_one_iff_eq hv]
  refine ⟨?_, ?_⟩
  · rintro (heq | hzero)
    · exact Or.inl (TimeUnit.nanos_inj heq).symm
    · exact Or.inr hzero
  · rintro (rfl | hzero)
    · exact Or.inl rfl
    · exact Or.inr hzero

/-- An entry with its times written in another unit. -/
def BenchmarkResult.reexpress (u v : TimeUnit) (r : BenchmarkResult) : BenchmarkResult :=
  { r with
    real_time := convert u v r.real_time
    cpu_time := convert u v r.cpu_time
    time_unit := v.name }

/-! ## Re-expressing an entry of a document -/

/-- A number of a document in another unit. -/
def convertNumber (u v : TimeUnit) : Json → Json
  | .unsigned n => .float (convert u v n)
  | .integer i => .float (convert u v i)
  | .float q => .float (convert u v q)
  | value => value

/-- The number of a key in another unit. -/
def convertMember (u v : TimeUnit) (key : String) (members : List (List UInt8 × Json)) :
    List (List UInt8 × Json) :=
  match Json.lookup (bytes key) members with
  | some value => Json.setMember (bytes key) (convertNumber u v value) members
  | none => members

/-- The time unit that an entry of a document states. -/
def statedUnit (members : List (List UInt8 × Json)) : Option TimeUnit :=
  match Json.lookup (bytes "time_unit") members with
  | some (.string s) => TimeUnit.ofName s
  | _ => none

/-- An entry of a document with its times written in `v`. -/
def reexpressEntry (v : TimeUnit) : Json → Json
  | .object members =>
      match statedUnit members with
      | some u =>
          .object (Json.setMember (bytes "time_unit") (.string v.name)
            (convertMember u v "cpu_time" (convertMember u v "real_time" members)))
      | none => .object members
  | value => value

/-- A snapshot document: the benchmarks, beside members that are not read. -/
def snapshot (context : List (List UInt8 × Json)) (benchmarks : List Json) : Json :=
  .object (Json.setMember (bytes "benchmarks") (.array benchmarks) context)

theorem loadResults_snapshot (nearest : ℚ → ℚ) (context : List (List UInt8 × Json))
    (benchmarks : List Json) :
    loadResults nearest (snapshot context benchmarks) = benchmarks.mapM (loadEntry nearest) := by
  rw [loadResults, benchmarksOf, snapshot, getMember, Json.lookup_setMember_self]
  rfl

theorem lookup_convertMember_self (u v : TimeUnit) (key : String)
    (members : List (List UInt8 × Json)) :
    Json.lookup (bytes key) (convertMember u v key members)
      = (Json.lookup (bytes key) members).map (convertNumber u v) := by
  rw [convertMember]
  split
  · next value hvalue =>
      rw [Json.lookup_setMember_self, hvalue]
      rfl
  · next hnone =>
      rw [hnone]
      rfl

theorem lookup_convertMember_of_ne (u v : TimeUnit) {key : String} {other : Bytes}
    (hne : other ≠ bytes key) (members : List (List UInt8 × Json)) :
    Json.lookup other (convertMember u v key members) = Json.lookup other members := by
  rw [convertMember]
  split
  · exact Json.lookup_setMember_of_ne hne _ _
  · rfl

theorem getDouble_convertNumber {u v : TimeUnit} {value : Json} {q : ℚ}
    (h : getDouble id value = .ok q) :
    getDouble id (convertNumber u v value) = .ok (convert u v q) := by
  cases value with
  | unsigned n =>
      cases h
      rfl
  | integer i =>
      cases h
      rfl
  | float q =>
      cases h
      rfl
  | _ => cases h

/-- What an entry that loads must hold, and that this is enough. -/
theorem loadEntry_object_eq_ok {nearest : ℚ → ℚ} {members : List (List UInt8 × Json)}
    {r : BenchmarkResult} :
    loadEntry nearest (.object members) = .ok r
      ↔ (∃ value, Json.lookup (bytes "name") members = some value ∧
          getString value = .ok r.name) ∧
        (∃ value, Json.lookup (bytes "iterations") members = some value ∧
          getUnsigned value = .ok r.iterations) ∧
        (∃ value, Json.lookup (bytes "real_time") members = some value ∧
          getDouble nearest value = .ok r.real_time) ∧
        (∃ value, Json.lookup (bytes "cpu_time") members = some value ∧
          getDouble nearest value = .ok r.cpu_time) ∧
        ∃ value, Json.lookup (bytes "time_unit") members = some value ∧
          getString value = .ok r.time_unit := by
  refine ⟨?_, ?_⟩
  · intro h
    obtain ⟨name, hname, h⟩ := bind_eq_ok h
    obtain ⟨iterations, hiterations, h⟩ := bind_eq_ok h
    obtain ⟨real_time, hreal, h⟩ := bind_eq_ok h
    obtain ⟨cpu_time, hcpu, h⟩ := bind_eq_ok h
    obtain ⟨time_unit, hunit, h⟩ := bind_eq_ok h
    cases h
    exact ⟨get_object_eq_ok.mp hname, get_object_eq_ok.mp hiterations,
      get_object_eq_ok.mp hreal, get_object_eq_ok.mp hcpu, get_object_eq_ok.mp hunit⟩
  · rintro ⟨hname, hiterations, hreal, hcpu, hunit⟩
    rw [loadEntry, get_object_eq_ok.mpr hname, get_object_eq_ok.mpr hiterations,
      get_object_eq_ok.mpr hreal, get_object_eq_ok.mpr hcpu, get_object_eq_ok.mpr hunit]
    rfl

/-- Re-expressing an entry of the document re-expresses the loaded entry. -/
theorem loadEntry_reexpressEntry {u : TimeUnit} (v : TimeUnit) {entry : Json}
    {r : BenchmarkResult} (h : loadEntry id entry = .ok r) (hunit : r.time_unit = u.name) :
    loadEntry id (reexpressEntry v entry) = .ok (r.reexpress u v) := by
  obtain ⟨name, hname, -⟩ := bind_eq_ok h
  obtain ⟨members, rfl⟩ := exists_object_of_get hname
  obtain ⟨hname, hiterations, ⟨real, hreal, hreal'⟩, ⟨cpu, hcpu, hcpu'⟩, ⟨stated, hstated, hget⟩⟩ :=
    loadEntry_object_eq_ok.mp h
  have hfrom : statedUnit members = some u := by
    rw [statedUnit, hstated, getString_eq_ok hget, hunit]
    exact TimeUnit.ofName_name u
  have hother : ∀ key : String, bytes key ≠ bytes "time_unit" → bytes key ≠ bytes "cpu_time" →
      bytes key ≠ bytes "real_time" →
      Json.lookup (bytes key) (Json.setMember (bytes "time_unit") (.string v.name)
        (convertMember u v "cpu_time" (convertMember u v "real_time" members)))
        = Json.lookup (bytes key) members := by
    intro key hunit hcpu hreal
    rw [Json.lookup_setMember_of_ne hunit, lookup_convertMember_of_ne u v hcpu,
      lookup_convertMember_of_ne u v hreal]
  rw [reexpressEntry, hfrom]
  apply loadEntry_object_eq_ok.mpr
  refine ⟨?_, ?_, ⟨convertNumber u v real, ?_, getDouble_convertNumber hreal'⟩,
    ⟨convertNumber u v cpu, ?_, getDouble_convertNumber hcpu'⟩, ⟨.string v.name, ?_, rfl⟩⟩
  · rwa [hother "name" (by decide) (by decide) (by decide)]
  · rwa [hother "iterations" (by decide) (by decide) (by decide)]
  · rw [Json.lookup_setMember_of_ne (by decide), lookup_convertMember_of_ne u v (by decide),
      lookup_convertMember_self, hreal]
    rfl
  · rw [Json.lookup_setMember_of_ne (by decide), lookup_convertMember_self,
      lookup_convertMember_of_ne u v (by decide), hcpu]
    rfl
  · exact Json.lookup_setMember_self _ _ _

/-! ## What the comparison notices -/

section Noticed

variable {rs₁ rs₂ : List BenchmarkResult} {r r' : BenchmarkResult}

/-- The lookup stops before a result of the name. -/
theorem getCns_append (rs₁ rs : List BenchmarkResult) (name : Bytes) :
    getCns (rs₁ ++ rs) name
      = if ∃ x ∈ rs₁, x.name = name then getCns rs₁ name else getCns rs name := by
  induction rs₁ with
  | nil => simp
  | cons x rs₁ ih =>
      rw [List.cons_append, getCns, getCns, ih]
      by_cases hx : x.name = name
      · simp [hx]
      · simp [hx]

/-- Changing the time of one result changes a lookup exactly when it finds that
    result. -/
theorem getCns_middle_iff (hname : r'.name = r.name) (name : Bytes) :
    getCns (rs₁ ++ r' :: rs₂) name = getCns (rs₁ ++ r :: rs₂) name
      ↔ r'.real_time = r.real_time ∨ (∃ x ∈ rs₁, x.name = name) ∨ name ≠ r.name := by
  rw [getCns_append, getCns_append, getCns, getCns, hname]
  by_cases hearlier : ∃ x ∈ rs₁, x.name = name
  · simp [hearlier]
  · by_cases hfound : r.name = name
    · simp [hearlier, hfound]
    · simp [hearlier, hfound, Ne.symm hfound]

theorem rowOf_eq_iff {current current' : List BenchmarkResult} {entry : BenchmarkResult} :
    rowOf current' entry = rowOf current entry
      ↔ getCns current' entry.name = getCns current entry.name := by
  refine ⟨?_, ?_⟩
  · intro h
    exact congrArg RegressionRow.current_ns h
  · intro h
    simp only [rowOf, h]

/-- A changed current time is noticed by the baseline entries that find it. -/
theorem rows_current_iff (hname : r'.name = r.name) (baseline : List BenchmarkResult) :
    baseline.map (rowOf (rs₁ ++ r' :: rs₂)) = baseline.map (rowOf (rs₁ ++ r :: rs₂))
      ↔ r'.real_time = r.real_time ∨ (∃ x ∈ rs₁, x.name = r.name) ∨
          ∀ b ∈ baseline, b.name ≠ r.name := by
  rw [List.map_inj_left]
  simp only [rowOf_eq_iff, getCns_middle_iff hname]
  refine ⟨?_, ?_⟩
  · intro h
    by_cases hread : ∃ b ∈ baseline, b.name = r.name
    · -- this baseline entry reads the result, or one of its name before it
      obtain ⟨b, hb, hbname⟩ := hread
      rcases h b hb with htime | hearlier | hother
      · exact Or.inl htime
      · exact Or.inr (Or.inl (hbname ▸ hearlier))
      · exact absurd hbname hother
    · push Not at hread
      exact Or.inr (Or.inr hread)
  · rintro (htime | hearlier | hunread) b hb
    · exact Or.inl htime
    · by_cases hbname : b.name = r.name
      · exact Or.inr (Or.inl (hbname ▸ hearlier))
      · exact Or.inr (Or.inr hbname)
    · exact Or.inr (Or.inr (hunread b hb))

/-- A changed baseline time is noticed by its own row. -/
theorem rows_baseline_iff (hname : r'.name = r.name) (current : List BenchmarkResult) :
    (rs₁ ++ r' :: rs₂).map (rowOf current) = (rs₁ ++ r :: rs₂).map (rowOf current)
      ↔ r'.real_time = r.real_time := by
  rw [List.map_append, List.map_append, List.append_cancel_left_eq, List.map_cons, List.map_cons,
    List.cons.injEq, and_iff_left rfl]
  refine ⟨?_, ?_⟩
  · intro h
    exact congrArg RegressionRow.baseline_ns h
  · intro h
    simp only [rowOf, hname, h]

end Noticed

theorem mapM_loadEntry_middle {nearest : ℚ → ℚ} {before after : List Json} {entry : Json}
    {rs₁ rs₂ : List BenchmarkResult} {r : BenchmarkResult}
    (hbefore : before.mapM (loadEntry nearest) = .ok rs₁) (hentry : loadEntry nearest entry = .ok r)
    (hafter : after.mapM (loadEntry nearest) = .ok rs₂) :
    (before ++ entry :: after).mapM (loadEntry nearest) = .ok (rs₁ ++ r :: rs₂) := by
  rw [List.mapM_append, List.mapM_cons, hbefore, hentry, hafter]
  rfl

/-- The rows of two snapshots whose entries load. -/
theorem compare_snapshot {nearest : ℚ → ℚ} {entries entries' : List Json}
    {rs rs' : List BenchmarkResult} (hbaseline : entries.mapM (loadEntry nearest) = .ok rs)
    (hcurrent : entries'.mapM (loadEntry nearest) = .ok rs')
    (context context' : List (List UInt8 × Json)) :
    compare nearest (snapshot context entries) (snapshot context' entries')
      = .ok (rs.map (rowOf rs')) := by
  rw [compare, loadResults_snapshot, loadResults_snapshot, hbaseline, hcurrent]
  show Except.ok (printRegression rs rs' .start).regression_results = _
  rw [regression_results_printRegression]
  rfl

/-- **When the unit of an entry does not matter.** Writing a baseline entry in
    another unit leaves the rows as they are exactly when its time is zero;
    writing a current entry in another unit does so exactly when its time is
    zero or no row is compared with it. -/
theorem rows_reexpressed_iff {u : TimeUnit} (v : TimeUnit) {entry : Json} {r : BenchmarkResult}
    (hentry : loadEntry id entry = .ok r) (hunit : r.time_unit = u.name)
    {before after others : List Json} {rs₁ rs₂ rs : List BenchmarkResult}
    (hbefore : before.mapM (loadEntry id) = .ok rs₁)
    (hafter : after.mapM (loadEntry id) = .ok rs₂) (hothers : others.mapM (loadEntry id) = .ok rs)
    (context context' : List (List UInt8 × Json)) :
    (compare id (snapshot context (before ++ reexpressEntry v entry :: after))
          (snapshot context' others)
        = compare id (snapshot context (before ++ entry :: after)) (snapshot context' others)
      ↔ v = u ∨ r.real_time = 0) ∧
    (compare id (snapshot context' others)
          (snapshot context (before ++ reexpressEntry v entry :: after))
        = compare id (snapshot context' others) (snapshot context (before ++ entry :: after))
      ↔ v = u ∨ r.real_time = 0 ∨ (∃ x ∈ rs₁, x.name = r.name) ∨ ∀ b ∈ rs, b.name ≠ r.name) := by
  have hload := mapM_loadEntry_middle hbefore hentry hafter
  have hreload := mapM_loadEntry_middle hbefore
    (loadEntry_reexpressEntry v hentry hunit) hafter
  have hname : (r.reexpress u v).name = r.name := rfl
  have htime : (r.reexpress u v).real_time = r.real_time ↔ v = u ∨ r.real_time = 0 :=
    convert_eq_iff
  refine ⟨?_, ?_⟩
  · rw [compare_snapshot hreload hothers, compare_snapshot hload hothers, Except.ok.injEq,
      rows_baseline_iff hname, htime]
  · rw [compare_snapshot hothers hreload, compare_snapshot hothers hload, Except.ok.injEq,
      rows_current_iff hname, htime, or_assoc]

/-- One benchmark of a document, with equal real and CPU time. -/
def benchmark (name : String) (time : ℚ) (u : TimeUnit) : Json :=
  .object [(bytes "cpu_time", .float time), (bytes "iterations", .unsigned 100),
    (bytes "name", .string (bytes name)), (bytes "real_time", .float time),
    (bytes "time_unit", .string u.name)]

/-- A current benchmark that the baseline does not have may be in any unit. -/
theorem unread_benchmark_in_ms :
    compare id (snapshot [] [benchmark "Insert_Impl" 5 .ns])
        (snapshot [] [reexpressEntry .ms (benchmark "Erase_Impl" 7 .ns)])
      = compare id (snapshot [] [benchmark "Insert_Impl" 5 .ns])
        (snapshot [] [benchmark "Erase_Impl" 7 .ns]) := by
  have hothers : [benchmark "Insert_Impl" 5 .ns].mapM (loadEntry id)
    = .ok [⟨bytes "Insert_Impl", 100, 5, 5, bytes "ns"⟩] := rfl
  have hentry : loadEntry id (benchmark "Erase_Impl" 7 .ns)
    = .ok ⟨bytes "Erase_Impl", 100, 7, 7, bytes "ns"⟩ := rfl
  have hnone : ([] : List Json).mapM (loadEntry id) = .ok [] := rfl
  have hiff := (rows_reexpressed_iff .ms hentry (show _ = TimeUnit.ns.name from rfl) hnone hnone
    hothers [] []).2
  apply hiff.mpr
  exact Or.inr (Or.inr (Or.inr (by decide)))

/-- Five microseconds against 5000 nanoseconds: a thousandfold slowdown, and a
    tie once the baseline entry is written in nanoseconds. -/
theorem unit_changes_verdict :
    (compare id (snapshot [] [benchmark "Insert_Impl" 5 .us])
        (snapshot [] [benchmark "Insert_Impl" 5000 .ns])).map
          (List.map fun row => (row.baseline_ns, arrow row.pct_change)) = .ok [(5, .slower)] ∧
      (compare id (snapshot [] [reexpressEntry .ns (benchmark "Insert_Impl" 5 .us)])
        (snapshot [] [benchmark "Insert_Impl" 5000 .ns])).map
          (List.map fun row => (row.baseline_ns, arrow row.pct_change)) = .ok [(5000, .noise)] := by
  refine ⟨?_, ?_⟩
  · decide +kernel
  · decide +kernel

/-- The recorded baseline time is the number of nanoseconds only for entries in
    nanoseconds. -/
theorem baseline_ns_eq_nanos_iff {u : TimeUnit} {current : List BenchmarkResult}
    {entry : BenchmarkResult} :
    (rowOf current entry).baseline_ns = entry.real_time * u.nanos
      ↔ u = .ns ∨ entry.real_time = 0 := by
  show entry.real_time = entry.real_time * u.nanos ↔ _
  rw [eq_comm, mul_right_eq_self₀]
  refine ⟨?_, ?_⟩
  · rintro (hone | hzero)
    · exact Or.inl (TimeUnit.nanos_inj hone)
    · exact Or.inr hzero
  · rintro (rfl | hzero)
    · exact Or.inl rfl
    · exact Or.inr hzero

end RateThrottle.GoogleRegression
