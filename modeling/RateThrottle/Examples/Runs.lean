/-
  RateThrottle.Examples.Runs

  What holds of the runs of the `examples` executable.

  `same_suites_iff` compares it with the `tests` executable, whose loop runs the
  suites of a category as it meets them.  `list_agrees_iff` compares the number
  of categories that `list` counts with that of a run of all suites, and
  `summary_exact` the summary of any run with the suites that ran.
-/

import RateThrottle.Examples.Main
import RateThrottle.TestRunner.Selection

namespace RateThrottle
namespace Examples

open TestRunner (TestSuite)

-- ============================================================================
-- The same suites as `tests`
-- ============================================================================

/-- The entry of a suite of the `tests` executable. -/
def testEntry (suite : TestSuite) : Entry := ⟨suite.id, suite.category, suite.name⟩

/-- No suite of the category stands before the first exact match, if there is one. -/
def NothingBefore (requestedLower : Bytes) (registry : List ExampleSuite) : Prop :=
  (∃ suite ∈ registry, Exactly requestedLower suite.entry) →
    ∀ suite ∈ registry.takeWhile (fun s => ¬ Exactly requestedLower s.entry),
      toLower suite.category ≠ requestedLower

section SameSuites

variable {requested requestedLower : Bytes} {registry before after : List ExampleSuite}
  {suite : ExampleSuite} {tests : List TestSuite}

/-- The suites of a category, as entries. -/
theorem map_filter_category :
    (registry.filter fun s => toLower s.category = requestedLower).map ExampleSuite.entry
      = (registry.map ExampleSuite.entry).filter fun e => toLower e.category = requestedLower := by
  rw [List.filter_map]
  rfl

theorem map_filter_category_tests :
    (tests.filter fun s => toLower s.category = requestedLower).map testEntry
      = (tests.map testEntry).filter fun e => toLower e.category = requestedLower := by
  rw [List.filter_map]
  rfl

theorem nothingBefore_iff (h : ∀ s ∈ before, ¬ Exactly requestedLower s.entry)
    (hsuite : Exactly requestedLower suite.entry) :
    NothingBefore requestedLower (before ++ suite :: after)
      ↔ (before.map ExampleSuite.entry).filter
          (fun e => toLower e.category = requestedLower) = [] := by
  have htake : (before ++ suite :: after).takeWhile (fun s => ¬ Exactly requestedLower s.entry)
      = before := by
    rw [List.takeWhile_append_of_pos (by simpa using h),
      List.takeWhile_cons_of_neg (by simpa using hsuite), List.append_nil]
  rw [NothingBefore, htake, List.filter_eq_nil_iff, List.forall_mem_map]
  simp only [decide_eq_true_eq]
  exact ⟨fun hnone s hs => hnone ⟨suite, by simp, hsuite⟩ s hs, fun hnone _ => hnone⟩

/-- The two loops on registries with the same entries. -/
theorem ran_scanSuites_eq_iff (hsame : registry.map ExampleSuite.entry = tests.map testEntry) :
    ran (scanSuites requested requestedLower registry []).out
        = (TestRunner.selectFrom requestedLower tests).map testEntry
      ↔ NothingBefore requestedLower registry := by
  rcases exists_exactly requestedLower registry with
    hnone | ⟨before, suite, after, rfl, hbefore, hsuite⟩
  · -- without an exact match both run the category
    have hnone' : ∀ t ∈ tests, ¬ TestRunner.Exactly requestedLower t := by
      intro t ht hexactly
      have hmem : testEntry t ∈ registry.map ExampleSuite.entry := by
        rw [hsame]
        exact List.mem_map_of_mem ht
      obtain ⟨s, hs, hentry⟩ := List.mem_map.mp hmem
      refine hnone s hs ?_
      rw [hentry]
      exact hexactly
    rw [scanSuites_of_not_exactly hnone, ran_scanSuites_nil, List.nil_append, map_filter_category,
      TestRunner.selectFrom_of_not_exactly hnone', map_filter_category_tests, hsame]
    refine iff_of_true rfl ?_
    rintro ⟨suite, hmem, hexactly⟩
    exact absurd hexactly (hnone suite hmem)
  · rw [List.map_append, List.map_cons] at hsame
    obtain ⟨before', rest, rfl, hbefore', hrest⟩ := List.map_eq_append_iff.mp hsame.symm
    obtain ⟨test, after', rfl, htest, -⟩ := List.map_eq_cons_iff.mp hrest
    have hnone' : ∀ t ∈ before', ¬ TestRunner.Exactly requestedLower t := by
      intro t ht hexactly
      have hmem : testEntry t ∈ before.map ExampleSuite.entry := by
        rw [← hbefore']
        exact List.mem_map_of_mem ht
      obtain ⟨s, hs, hentry⟩ := List.mem_map.mp hmem
      refine hbefore s hs ?_
      rw [hentry]
      exact hexactly
    have htest' : TestRunner.Exactly requestedLower test := by
      rw [← htest] at hsuite
      exact hsuite
    rw [scanSuites_of_exactly hbefore hsuite, ran_printOneSuite,
      TestRunner.selectFrom_of_exactly hnone' htest', List.map_append, map_filter_category_tests,
      List.map_singleton, htest, hbefore', nothingBefore_iff hbefore hsuite]
    rw [List.self_eq_append_left]

end SameSuites

/-- A command runs no suite. -/
theorem ran_main_command (registry : List ExampleSuite) {requested : Bytes} (more : List Bytes)
    (h : TestRunner.IsCommand requested) : ran (main registry (requested :: more)).out = [] := by
  rw [main]
  split
  · rfl
  · next hhelp =>
      have hlist : requested = bytes "list" := by
        rcases h with h | h | h
        · exact absurd (Or.inl h) hhelp
        · exact absurd (Or.inr h) hhelp
        · exact h
      rw [if_pos hlist]
      exact ran_printExampleSuiteList registry

/-- Any other argument is looked up. -/
theorem main_cons (registry : List ExampleSuite) {requested : Bytes} (more : List Bytes)
    (h : ¬ TestRunner.IsCommand requested) :
    main registry (requested :: more)
      = scanSuites requested (toLower (prettify requested)) registry [] := by
  rw [TestRunner.IsCommand, ← or_assoc, not_or] at h
  rw [main, if_neg h.1, if_neg h.2]

/-- **The two command lines.** On registries with the same ids, categories and
    names, the `examples` and the `tests` executable run the same suites for every
    command line, but for one kind: a name or an id is asked for that is the name
    of a category too, and a suite of that category is registered before the
    first suite with the name or the id. -/
theorem same_suites_iff {registry : List ExampleSuite} {tests : List TestSuite}
    (hsame : registry.map ExampleSuite.entry = tests.map testEntry) (args : List Bytes) :
    ran (main registry args).out = (TestRunner.main tests args).2.ran.map testEntry
      ↔ ∀ requested more, args = requested :: more → ¬ TestRunner.IsCommand requested →
          NothingBefore (toLower (prettify requested)) registry := by
  rw [TestRunner.main_ran]
  cases args with
  | nil =>
      refine iff_of_true ?_ (by simp)
      show ran (runSuites registry _) = tests.map testEntry
      rw [ran_runSuites, hsame]
  | cons requested more =>
      rw [TestRunner.selected_cons]
      by_cases hcommand : TestRunner.IsCommand requested
      · rw [if_pos hcommand, ran_main_command registry more hcommand]
        refine iff_of_true rfl ?_
        rintro _ _ ⟨rfl, rfl⟩ hnot
        exact absurd hcommand hnot
      · rw [if_neg hcommand, main_cons registry more hcommand, ran_scanSuites_eq_iff hsame]
        refine ⟨?_, fun h => h requested more rfl hcommand⟩
        rintro h _ _ ⟨rfl, rfl⟩ _
        exact h

/-- Two suites of one category, and one that is named like the category. -/
def sampleRegistry : List ExampleSuite :=
  [⟨bytes "Q1", bytes "quickstart", bytes "Basic Usage", []⟩,
    ⟨bytes "Q2", bytes "quickstart", bytes "Denial Handling", []⟩,
    ⟨bytes "P1", bytes "patterns", bytes "Quickstart", []⟩]

/-- The same registry for the `tests` executable. -/
def sampleTests : List TestSuite :=
  [⟨bytes "Q1", bytes "quickstart", bytes "Basic Usage", []⟩,
    ⟨bytes "Q2", bytes "quickstart", bytes "Denial Handling", []⟩,
    ⟨bytes "P1", bytes "patterns", bytes "Quickstart", []⟩]

/-- `examples quickstart` runs one suite, `tests quickstart` all three. -/
example : ran (main sampleRegistry [bytes "quickstart"]).out
    = [⟨bytes "P1", bytes "patterns", bytes "Quickstart"⟩] ∧
      (TestRunner.main sampleTests [bytes "quickstart"]).2.ran = sampleTests := by
  decide

theorem same_suites_iff_quickstart :
    ran (main sampleRegistry [bytes "quickstart"]).out
        = (TestRunner.main sampleTests [bytes "quickstart"]).2.ran.map testEntry
      ↔ ∀ requested more, [bytes "quickstart"] = requested :: more →
          ¬ TestRunner.IsCommand requested →
          NothingBefore (toLower (prettify requested)) sampleRegistry :=
  same_suites_iff (by decide) [bytes "quickstart"]

-- ============================================================================
-- The categories that are counted
-- ============================================================================

theorem categories_spec (registry : List ExampleSuite) :
    (registry.foldl pushCategory []).Nodup ∧
      ∀ category, category ∈ registry.foldl pushCategory []
        ↔ category ∈ registry.map ExampleSuite.category := by
  induction registry using List.reverseRecOn with
  | nil => exact ⟨List.nodup_nil, by simp⟩
  | append_singleton registry suite ih =>
      obtain ⟨hnodup, hmem⟩ := ih
      rw [List.foldl_concat, pushCategory]
      simp only [List.contains_iff_mem]
      split
      · next hseen =>
          refine ⟨hnodup, fun category => ?_⟩
          rw [hmem] at hseen ⊢
          rw [List.map_append, List.mem_append, List.map_singleton, List.mem_singleton]
          exact ⟨Or.inl, fun h => h.elim id fun heq => heq ▸ hseen⟩
      · next hnew =>
          refine ⟨?_, fun category => ?_⟩
          · rw [← List.concat_eq_append]
            exact (List.nodup_concat _ _).mpr ⟨hnew, hnodup⟩
          · rw [List.mem_append, hmem, List.map_append, List.mem_append, List.map_singleton]

/-- **The categories of `list`.** The tree of `list` shows every suite once, in
    registration order.  The number of categories below it is at least that of a
    run of all suites, and the two are equal exactly when the suites of every
    category are registered one after the other. -/
theorem list_agrees_iff (registry : List ExampleSuite) :
    ∃ shown counted, (main registry [bytes "list"]).out.getLast? =
        some (.listTotals registry.length shown) ∧
      (main registry []).out.getLast? = some (.runSummary registry.length counted) ∧
      rows (main registry [bytes "list"]).out
        = registry.map (fun suite => (suite.id, suite.name)) ∧
      counted ≤ shown ∧ (shown = counted ↔ Adjacent.Together ExampleSuite.category registry) := by
  have hlist : main registry [bytes "list"] = ⟨0, printExampleSuiteList registry, none⟩ := rfl
  have hall : main registry [] = ⟨0, printAllExampleSuite registry, none⟩ := rfl
  obtain ⟨hnodup, hmem⟩ := categories_spec registry
  rw [hlist, hall]
  refine ⟨(registry.foldl groupSuites []).length, (registry.foldl pushCategory []).length, ?_, ?_,
    rows_printExampleSuiteList registry, ?_⟩
  · rw [printExampleSuiteList, ← List.cons_append]
    exact List.getLast?_concat
  · exact List.getLast?_concat
  · rw [foldl_groupSuites]
    exact Adjacent.length_group hnodup hmem

-- ============================================================================
-- The summary of a run
-- ============================================================================

/-- The summaries that a run prints. -/
theorem mem_runSuites_summary {suites : List ExampleSuite} {categoryCount n c : Nat}
    (h : Line.runSummary n c ∈ runSuites suites categoryCount) :
    n = suites.length ∧ c = categoryCount := by
  rw [runSuites, List.mem_append, List.mem_flatMap, List.mem_singleton] at h
  rcases h with ⟨suite, -, h⟩ | h
  · simp [runExample] at h
  · cases h
    exact ⟨rfl, rfl⟩

/-- Lists without repetitions and with the same elements have one length. -/
theorem length_eq_dedup {keys all : List Bytes} (hnodup : keys.Nodup)
    (hmem : ∀ k, k ∈ keys ↔ k ∈ all) : keys.length = all.dedup.length := by
  have hperm : keys.Perm all.dedup :=
    (List.perm_ext_iff_of_nodup hnodup all.nodup_dedup).mpr fun k => by rw [hmem, List.mem_dedup]
  exact hperm.length_eq

/-- Neither a command nor an exact match prints a summary. -/
theorem not_mem_printExampleSuiteList (registry : List ExampleSuite) (n c : Nat) :
    .runSummary n c ∉ printExampleSuiteList registry := by
  simp [printExampleSuiteList, printGroup]

theorem not_mem_printOneSuite (suite : ExampleSuite) (n c : Nat) :
    .runSummary n c ∉ printOneSuite suite := by
  simp [printOneSuite, runExample]

theorem map_category_entry (suites : List ExampleSuite) :
    (suites.map ExampleSuite.entry).map Entry.category = suites.map ExampleSuite.category := by
  rw [List.map_map]
  rfl

/-- A summary is that of a run of all suites, or of the suites of one category. -/
theorem summary_cases {registry : List ExampleSuite} {args : List Bytes} {n c : Nat}
    (h : .runSummary n c ∈ (main registry args).out) :
    (n = registry.length ∧ c = (registry.foldl pushCategory []).length ∧
        ran (main registry args).out = registry.map ExampleSuite.entry) ∨
      ∃ suites, suites ≠ [] ∧ n = suites.length ∧ c = 1 ∧
        ran (main registry args).out = suites.map ExampleSuite.entry ∧
        (∀ s ∈ suites, s ∈ registry) ∧
        ∀ s ∈ suites, ∀ t ∈ suites, toLower s.category = toLower t.category := by
  cases args with
  | nil =>
      obtain ⟨hn, hc⟩ := mem_runSuites_summary h
      exact Or.inl ⟨hn, hc, ran_runSuites registry _⟩
  | cons requested more =>
      by_cases hcommand : TestRunner.IsCommand requested
      · rw [main] at h
        split at h
        · simp at h
        · split at h
          · exact absurd h (not_mem_printExampleSuiteList registry n c)
          · next hhelp hlist =>
              rw [TestRunner.IsCommand, ← or_assoc] at hcommand
              exact absurd hcommand (not_or.mpr ⟨hhelp, hlist⟩)
      · rw [main_cons registry more hcommand] at h ⊢
        rcases exists_exactly (toLower (prettify requested)) registry with
          hnone | ⟨before, suite, after, rfl, hbefore, hsuite⟩
        · rw [scanSuites_of_not_exactly hnone, List.nil_append] at h ⊢
          by_cases hne : registry.filter
              (fun s => toLower s.category = toLower (prettify requested)) = []
          · rw [hne] at h
            cases h
          · have hout : (scanSuites requested (toLower (prettify requested)) []
                (registry.filter fun s => toLower s.category = toLower (prettify requested))).out
                  = runSuites _ 1 := congrArg Outcome.out (if_pos hne)
            rw [hout] at h
            obtain ⟨hn, hc⟩ := mem_runSuites_summary h
            refine Or.inr ⟨_, hne, hn, hc, ran_scanSuites_nil,
              fun s hs => (List.mem_filter.mp hs).1, fun s hs t ht => ?_⟩
            rw [of_decide_eq_true (List.mem_filter.mp hs).2,
              of_decide_eq_true (List.mem_filter.mp ht).2]
        · rw [scanSuites_of_exactly hbefore hsuite] at h
          exact absurd h (not_mem_printOneSuite suite n c)

/-- **The summary of a run.** Where no two categories differ in letter case only,
    every summary, of a run of all suites or of those of a category, gives the
    number of suites that ran and the number of their categories. -/
theorem summary_exact {registry : List ExampleSuite}
    (hcase : ∀ s ∈ registry, ∀ t ∈ registry, toLower s.category = toLower t.category →
      s.category = t.category) {args : List Bytes} {n c : Nat}
    (h : .runSummary n c ∈ (main registry args).out) :
    n = (ran (main registry args).out).length ∧
      c = ((ran (main registry args).out).map Entry.category).dedup.length := by
  rcases summary_cases h with ⟨rfl, rfl, hran⟩ | ⟨suites, hne, rfl, rfl, hran, hsub, hsame⟩
  · obtain ⟨hnodup, hmem⟩ := categories_spec registry
    rw [hran, List.length_map, map_category_entry]
    exact ⟨rfl, length_eq_dedup hnodup hmem⟩
  · rw [hran, List.length_map, map_category_entry]
    obtain ⟨s, suites, rfl⟩ := List.exists_cons_of_ne_nil hne
    refine ⟨rfl, length_eq_dedup (List.nodup_singleton s.category) fun k => ?_⟩
    rw [List.mem_singleton, List.mem_map]
    refine ⟨fun hk => ⟨s, List.mem_cons_self .., hk.symm⟩, ?_⟩
    rintro ⟨t, ht, rfl⟩
    exact hcase t (hsub t ht) s (hsub s (List.mem_cons_self ..))
      (hsame t ht s (List.mem_cons_self ..))

/-- The suites of a category, asked for in other letter case. -/
theorem summary_exact_quickstart :
    2 = (ran (main (sampleRegistry.take 2) [bytes "QuickStart"]).out).length ∧
      1 = ((ran (main (sampleRegistry.take 2) [bytes "QuickStart"]).out).map
        Entry.category).dedup.length :=
  summary_exact (by decide) (by decide)

end Examples
end RateThrottle
