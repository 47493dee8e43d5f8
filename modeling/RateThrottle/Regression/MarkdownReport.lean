/-
  RateThrottle.Regression.MarkdownReport

  The markdown report of the custom regression tool (`markdown_buffer` in
  regression/custom/support): the headings and rows that `setHeader` and
  `printComparisonRow` append beside what they print.

  A row is identified by the heading above it, the name of the operation and the
  label of the iteration count.  `convertIter` has a label of its own for
  10,000 and for 100,000 and calls everything else "1M", while the benchmark
  macros also record tiers of 1, 10, 100 and 1,000; `distinguishable_iff` says
  when two rows look alike.
-/

import Mathlib.Data.List.Pairwise
import RateThrottle.Regression.Counterparts

namespace RateThrottle.Regression

-- ============================================================================
-- The report
-- ============================================================================

/-- A row of a table of the report.  The times and the change are kept as
    numbers; the suite is that of the call, which the row does not show. -/
structure MarkdownRow where
  suite : Bytes
  test : Bytes
  iteration : Bytes
  current_ns : ℚ
  baseline_ns : ℚ
  delta : ExtendedRat
deriving DecidableEq

/-- What is appended to `markdown_buffer`. -/
inductive MarkdownPiece where
  /-- `## header` and the head of a table. -/
  | heading (header : Bytes)
  | row (row : MarkdownRow)
deriving DecidableEq

/-- The row that `printComparisonRow` writes, with `convertIter` for its label. -/
def markdownRow (row : RegressionRow) : MarkdownRow where
  suite := row.suite
  test := row.operation
  iteration := convertIter row.iteration
  current_ns := row.current_ns
  baseline_ns := row.baseline_ns
  delta := row.pct_change

/-- What is written to the report along with a piece of console output. -/
def markdownOf : Line RegressionRow → Option MarkdownPiece
  | .header title => some (.heading title)
  | .row row _ => some (.row (markdownRow row))
  | .blank | .separator | .closing => none

/-- `markdown_buffer`. -/
def markdownBuffer (report : Report RegressionRow) : List MarkdownPiece :=
  report.lines.filterMap markdownOf

/-- The rows of a report, each with the heading it stands under. -/
def headed : Option Bytes → List MarkdownPiece → List (Option Bytes × MarkdownRow)
  | _, [] => []
  | _, .heading header :: pieces => headed (some header) pieces
  | heading, .row row :: pieces => (heading, row) :: headed heading pieces

/-- The rows of a report. -/
def markdownRows (report : Report RegressionRow) : List MarkdownRow :=
  (headed none (markdownBuffer report)).map Prod.snd

-- ============================================================================
-- One row per baseline entry, under the heading of its suite
-- ============================================================================

/-- The heading under which the next piece stands. -/
def headingAfter : Option Bytes → List MarkdownPiece → Option Bytes
  | heading, [] => heading
  | _, .heading header :: pieces => headingAfter (some header) pieces
  | heading, .row _ :: pieces => headingAfter heading pieces

theorem headed_append (heading : Option Bytes) (left right : List MarkdownPiece) :
    headed heading (left ++ right)
      = headed heading left ++ headed (headingAfter heading left) right := by
  fun_induction headed heading left with
  | case1 heading => rfl
  | case2 heading header pieces ih => exact ih
  | case3 heading row pieces ih => exact congrArg ((heading, row) :: ·) ih

theorem headingAfter_append (heading : Option Bytes) (left right : List MarkdownPiece) :
    headingAfter heading (left ++ right) = headingAfter (headingAfter heading left) right := by
  fun_induction headingAfter heading left with
  | case1 heading => rfl
  | case2 heading header pieces ih => exact ih
  | case3 heading row pieces ih => exact ih

theorem markdownBuffer_write (report : Report RegressionRow) (line : Line RegressionRow) :
    markdownBuffer (report.write line) = markdownBuffer report ++ (markdownOf line).toList := by
  have hone : [line].filterMap markdownOf = (markdownOf line).toList := by
    rw [List.filterMap_cons, List.filterMap_nil]
    cases markdownOf line <;> rfl
  rw [markdownBuffer, Report.write, List.filterMap_append, hone, markdownBuffer]

theorem markdownBuffer_endTable (report : Report RegressionRow) :
    markdownBuffer report.endTable = markdownBuffer report := by
  rw [Report.endTable, markdownBuffer_write]
  exact List.append_nil _

theorem markdownBuffer_openGroup (report : Report RegressionRow) (currentGroup group : Bytes) :
    markdownBuffer (report.openGroup currentGroup group)
      = markdownBuffer report ++ [.heading group] := by
  rw [Report.openGroup, Report.setHeader, markdownBuffer_write]
  congr 1
  show markdownBuffer (Report.write _ .blank) = _
  rw [markdownBuffer_write]
  split
  · rw [markdownBuffer_endTable]
    exact List.append_nil _
  · exact List.append_nil _

theorem markdownBuffer_printEntry (current : List BenchmarkResult) (entry : BenchmarkResult)
    (report : Report RegressionRow) :
    markdownBuffer (printEntry current entry report)
      = markdownBuffer report ++ [.row (markdownRow (rowOf current entry))] := by
  rw [printEntry, printComparisonRow]
  show markdownBuffer (Report.write _ (.row (rowOf current entry) _)) = _
  rw [markdownBuffer_write]
  congr 1
  rw [drawGroupSeparatorIfNeeded]
  split
  · show markdownBuffer (Report.write _ .separator) = _
    rw [markdownBuffer_write]
    exact List.append_nil _
  · rfl

/-- A table is headed by its suite; only a suite named by a single space, with
    which the loop starts, has no heading at first. -/
def HeadedBy (heading : Option Bytes) (suite : Bytes) : Prop :=
  heading = some suite ∨ heading = none ∧ suite = bytes " "

/-- The loop adds one row per entry, under the heading of the entry's suite. -/
theorem headed_printGrouped (current : List BenchmarkResult) (entries : List BenchmarkResult)
    {currentSuite : Bytes} {report : Report RegressionRow}
    (hheading : HeadedBy (headingAfter none (markdownBuffer report)) currentSuite) :
    ∃ rows, headed none (markdownBuffer
          (printGrouped BenchmarkResult.suite (printEntry current) entries currentSuite report))
        = headed none (markdownBuffer report) ++ rows ∧
      List.Forall₂ (fun entry row => HeadedBy row.1 entry.suite ∧
        row.2 = markdownRow (rowOf current entry)) entries rows := by
  induction entries generalizing currentSuite report with
  | nil =>
      refine ⟨[], ?_, .nil⟩
      rw [printGrouped, List.append_nil]
      split
      · rw [markdownBuffer_endTable]
      · rfl
  | cons entry rest ih =>
      -- the row is written under a heading for its suite, and the loop goes on
      have hnext : ∀ next, HeadedBy (headingAfter none (markdownBuffer next)) entry.suite →
          headed none (markdownBuffer next) = headed none (markdownBuffer report) →
          ∃ rows, headed none (markdownBuffer (printGrouped BenchmarkResult.suite
                (printEntry current) rest entry.suite (printEntry current entry next)))
              = headed none (markdownBuffer report) ++ rows ∧
            List.Forall₂ (fun entry row => HeadedBy row.1 entry.suite ∧
              row.2 = markdownRow (rowOf current entry)) (entry :: rest) rows := by
        intro next hnext hsame
        have hafter : HeadedBy (headingAfter none
            (markdownBuffer (printEntry current entry next))) entry.suite := by
          rw [markdownBuffer_printEntry, headingAfter_append]
          exact hnext
        obtain ⟨rows, hrows, hall⟩ := ih hafter
        refine ⟨(headingAfter none (markdownBuffer next),
          markdownRow (rowOf current entry)) :: rows, ?_, .cons ⟨hnext, rfl⟩ hall⟩
        rw [hrows, markdownBuffer_printEntry, headed_append, hsame, List.append_assoc]
        rfl
      rw [printGrouped]
      split
      · next hchange =>
          refine hnext _ ?_ ?_
          · rw [markdownBuffer_openGroup, headingAfter_append]
            exact Or.inl rfl
          · rw [markdownBuffer_openGroup, headed_append]
            exact List.append_nil _
      · next hsame =>
          rw [ne_eq, not_not] at hsame
          subst hsame
          exact hnext report hheading rfl

/-- **The report of a run**: one row per baseline entry, in baseline order, under
    the heading of its suite. -/
theorem headed_printRegression (baseline current : List BenchmarkResult) :
    List.Forall₂ (fun entry row => HeadedBy row.1 entry.suite ∧
        row.2 = markdownRow (rowOf current entry)) baseline
      (headed none (markdownBuffer (printRegression baseline current .start))) := by
  have hstart : HeadedBy (headingAfter none (markdownBuffer .start)) (bytes " ") :=
    Or.inr ⟨rfl, rfl⟩
  obtain ⟨rows, hrows, hall⟩ := headed_printGrouped current baseline hstart
  rw [printRegression, hrows]
  exact hall

theorem markdownRows_printRegression (baseline current : List BenchmarkResult) :
    markdownRows (printRegression baseline current .start)
      = baseline.map fun entry => markdownRow (rowOf current entry) := by
  have hall := headed_printRegression baseline current
  rw [markdownRows]
  generalize headed none _ = rows at hall
  induction hall with
  | nil => rfl
  | cons hrow _ ih => rw [List.map_cons, List.map_cons, hrow.2, ih]

-- ============================================================================
-- Rows that look alike
-- ============================================================================

/-- No two rows for one suite have both the same name and the same label. -/
def Distinguishable (rows : List MarkdownRow) : Prop :=
  rows.Pairwise fun row row' =>
    ¬ (row.suite = row'.suite ∧ row.test = row'.test ∧ row.iteration = row'.iteration)

/-- The counts that have a label of their own. -/
def OwnLabel (iter : UInt64) : Prop := iter = 10000 ∨ iter = 100000

instance (iter : UInt64) : Decidable (OwnLabel iter) := inferInstanceAs (Decidable (_ ∨ _))

theorem convertIter_of_not_ownLabel {iter : UInt64} (h : ¬ OwnLabel iter) :
    convertIter iter = bytes "1M" := by
  rw [OwnLabel, not_or] at h
  rw [convertIter, if_neg h.1, if_neg h.2]

/-- Two counts share a label when they are equal or neither has one of its own. -/
theorem convertIter_eq_iff {a b : UInt64} :
    convertIter a = convertIter b ↔ a = b ∨ ¬ OwnLabel a ∧ ¬ OwnLabel b := by
  refine ⟨fun h => ?_, ?_⟩
  · have hlabels : bytes "10K" ≠ bytes "100K" ∧ bytes "10K" ≠ bytes "1M" ∧
        bytes "100K" ≠ bytes "1M" := by decide
    obtain ⟨h₁, h₂, h₃⟩ := hlabels
    unfold convertIter at h
    unfold OwnLabel
    grind
  · rintro (rfl | ⟨ha, hb⟩)
    · rfl
    · rw [convertIter_of_not_ownLabel ha, convertIter_of_not_ownLabel hb]

/-- The rows of the two entries have the same suite, name and label. -/
def LookAlike (a b : BenchmarkResult) : Prop :=
  a.suite = b.suite ∧ a.operation = b.operation ∧
    convertIter a.iterations = convertIter b.iterations

instance : Std.Symm fun a b : BenchmarkResult => ¬ LookAlike a b :=
  ⟨fun _ _ h hsame => h ⟨hsame.1.symm, hsame.2.1.symm, hsame.2.2.symm⟩⟩

theorem distinguishable_printRegression (baseline current : List BenchmarkResult) :
    Distinguishable (markdownRows (printRegression baseline current .start))
      ↔ baseline.Pairwise fun a b => ¬ LookAlike a b := by
  rw [Distinguishable, markdownRows_printRegression, List.pairwise_map]
  exact Iff.rfl

/-- Entries with different keys look alike when their counts have no labels of
    their own. -/
theorem lookAlike_iff {a b : BenchmarkResult} (hkey : a.key ≠ b.key) :
    LookAlike a b ↔ a.suite = b.suite ∧ a.operation = b.operation ∧
      ¬ OwnLabel a.iterations ∧ ¬ OwnLabel b.iterations := by
  refine and_congr_right fun hsuite => and_congr_right fun hop => ?_
  rw [convertIter_eq_iff]
  refine ⟨fun hshared => hshared.resolve_left fun hiter => hkey ?_, Or.inr⟩
  rw [BenchmarkResult.key, BenchmarkResult.key, hsuite, hop, hiter]

/-- **Report rows are distinguishable** exactly when no operation of a suite has
    been recorded with two counts other than 10,000 and 100,000. -/
theorem distinguishable_iff {baseline : List BenchmarkResult}
    (hbaseline : (baseline.map BenchmarkResult.key).Nodup) (current : List BenchmarkResult) :
    Distinguishable (markdownRows (printRegression baseline current .start))
      ↔ ∀ a ∈ baseline, ∀ b ∈ baseline, a.suite = b.suite → a.operation = b.operation →
          ¬ OwnLabel a.iterations → ¬ OwnLabel b.iterations → a.iterations = b.iterations := by
  rw [distinguishable_printRegression]
  refine ⟨?_, ?_⟩
  · intro hrows a ha b hb hsuite hop hown hown'
    by_contra hiter
    have hkey : a.key ≠ b.key := fun h => hiter (congrArg (fun key => key.2.2) h)
    -- the two entries stand in one order or the other
    have hpair : ¬ LookAlike a b := hrows.forall ha hb fun h => hiter (by rw [h])
    exact hpair ((lookAlike_iff hkey).mpr ⟨hsuite, hop, hown, hown'⟩)
  · intro h
    have hkeys : baseline.Pairwise fun a b => a.key ≠ b.key := List.pairwise_map.mp hbaseline
    refine hkeys.imp_of_mem fun {a b} ha hb hkey hsame => hkey ?_
    obtain ⟨hsuite, hop, hown, hown'⟩ := (lookAlike_iff hkey).mp hsame
    rw [BenchmarkResult.key, BenchmarkResult.key, hsuite, hop, h a ha b hb hsuite hop hown hown']

/-- The three tiers of `BENCH`. -/
theorem distinguishable_default_tiers :
    Distinguishable (markdownRows (printRegression
      [⟨bytes "Allow", bytes "deny", 29, 10000, 3⟩, ⟨bytes "Allow", bytes "deny", 299, 100000, 3⟩,
        ⟨bytes "Allow", bytes "deny", 2993, 1000000, 3⟩] [] .start)) := by
  refine (distinguishable_iff (by decide) []).mpr ?_
  decide

/-- The tiers of `BENCH_SOLO_CUSTOM`: 100 and 1,000 calls are both shown as "1M". -/
theorem custom_tiers_look_alike :
    ¬ ∀ baseline current : List BenchmarkResult, (baseline.map BenchmarkResult.key).Nodup →
        Distinguishable (markdownRows (printRegression baseline current .start)) := by
  intro h
  have hrows := h [⟨bytes "Construction", bytes "construction", 31344815, 100, 313448⟩,
    ⟨bytes "Construction", bytes "construction", 283967600, 1000, 283967⟩,
    ⟨bytes "Construction", bytes "construction", 2851035747, 10000, 285103⟩] [] (by decide)
  rw [Distinguishable, markdownRows_printRegression] at hrows
  obtain ⟨hfirst, -⟩ := List.pairwise_cons.mp hrows
  exact hfirst _ (List.mem_cons_self ..) ⟨rfl, rfl, rfl⟩

end RateThrottle.Regression
