/-
  RateThrottle.Examples.Main

  The suite drivers and the command line of the `examples` executable
  (examples/support/framework.h and examples/example_main.cpp).

  The registry and the matching of a requested name, id or category are those of
  the `tests` executable, but the loop is not: it collects the suites of a
  category and runs them after the loop, so that an exact match further on runs
  alone (`scanSuites_of_exactly`).  The headers on the console tell which suites
  ran (`ran`), and the rows of the tree which suites `list` shows (`rows`).
-/

import RateThrottle.Library.Adjacent
import RateThrottle.Support.Bytes

namespace RateThrottle
namespace Examples

-- ============================================================================
-- Suites and their drivers
-- ============================================================================

/-- `struct ExampleSuite`, with the lines that its `run` prints. -/
structure ExampleSuite where
  id : Bytes
  category : Bytes
  name : Bytes
  run : List Bytes
deriving DecidableEq, Repr

/-- What the executable prints, without colours, boxes and padding. -/
inductive Line where
  | exampleHeader (id name category : Bytes)
  | printed (line : Bytes)
  | runSummary (exampleCount categoryCount : Nat)
  | listHeader
  | category (name : Bytes) (suites : Nat)
  | listed (last : Bool) (id name : Bytes)
  | listTotals (suites categories : Nat)
  | usage
  | blank
deriving DecidableEq, Repr

/-- `printExampleHeader(suite); suite.run();`. -/
def runExample (suite : ExampleSuite) : List Line :=
  .exampleHeader suite.id suite.name suite.category :: suite.run.map .printed

/-- `runSuites`, without the time. -/
def runSuites (suites : List ExampleSuite) (categoryCount : Nat) : List Line :=
  suites.flatMap runExample ++ [.runSummary suites.length categoryCount]

/-- The body of the loop of `printAllExampleSuite`. -/
def pushCategory (categories : List Bytes) (suite : ExampleSuite) : List Bytes :=
  if categories.contains suite.category then categories else categories ++ [suite.category]

/-- `printAllExampleSuite`. -/
def printAllExampleSuite (registry : List ExampleSuite) : List Line :=
  runSuites registry (registry.foldl pushCategory []).length

/-- `printOneSuite`. -/
def printOneSuite (suite : ExampleSuite) : List Line := runExample suite ++ [.blank]

/-- The loop of `printExampleSuiteList` that groups adjacent suites by category. -/
def groupSuites (grouped : List (Bytes × List ExampleSuite)) (suite : ExampleSuite) :
    List (Bytes × List ExampleSuite) :=
  match grouped.getLast? with
  | some (category, suites) =>
      if category = suite.category then grouped.dropLast ++ [(category, suites ++ [suite])]
      else grouped ++ [(suite.category, [suite])]
  | none => [(suite.category, [suite])]

/-- The branch of the tree for a category. -/
def printGroup (group : Bytes × List ExampleSuite) : List Line :=
  .category (prettify group.1) group.2.length
    :: group.2.mapIdx fun i suite => .listed (i + 1 == group.2.length) suite.id suite.name

/-- `printExampleSuiteList`. -/
def printExampleSuiteList (registry : List ExampleSuite) : List Line :=
  let grouped := registry.foldl groupSuites []
  .listHeader :: (grouped.flatMap printGroup ++ [.listTotals registry.length grouped.length])

-- ============================================================================
-- main
-- ============================================================================

/-- The exit status, the lines on `std::cout`, and the name on `std::cerr`. -/
structure Outcome where
  status : Int
  out : List Line
  unknown : Option Bytes
deriving DecidableEq, Repr

/-- The loop of `main` over the registry and what follows it. -/
def scanSuites (requested requestedLower : Bytes) :
    List ExampleSuite → List ExampleSuite → Outcome
  | [], categoryMatches =>
      if categoryMatches ≠ [] then ⟨0, runSuites categoryMatches 1, none⟩
      else ⟨1, [], some requested⟩
  | suite :: rest, categoryMatches =>
      -- exact match by name or id: run just this one and exit
      if toLower suite.name = requestedLower ∨ toLower suite.id = requestedLower then
        ⟨0, printOneSuite suite, none⟩
      -- category match: collect it and keep scanning
      else if toLower suite.category = requestedLower then
        scanSuites requested requestedLower rest (categoryMatches ++ [suite])
      else scanSuites requested requestedLower rest categoryMatches

/-- `main`; `args` are `argv[1]`, `argv[2]`, and so on. -/
def main (registry : List ExampleSuite) (args : List Bytes) : Outcome :=
  match args with
  | [] => ⟨0, printAllExampleSuite registry, none⟩
  | requested :: _ =>
      if requested = bytes "-h" ∨ requested = bytes "--help" then ⟨0, [.usage], none⟩
      else if requested = bytes "list" then ⟨0, printExampleSuiteList registry, none⟩
      else scanSuites requested (toLower (prettify requested)) registry []

-- ============================================================================
-- The suites that ran
-- ============================================================================

/-- What the selection looks at. -/
structure Entry where
  id : Bytes
  category : Bytes
  name : Bytes
deriving DecidableEq, Repr

def ExampleSuite.entry (suite : ExampleSuite) : Entry := ⟨suite.id, suite.category, suite.name⟩

/-- The suite of a header. -/
def Line.entry? : Line → Option Entry
  | .exampleHeader id name directory => some ⟨id, directory, name⟩
  | _ => none

/-- The suites whose headers were printed, in their order. -/
def ran (out : List Line) : List Entry := out.filterMap Line.entry?

theorem ran_append (left right : List Line) : ran (left ++ right) = ran left ++ ran right :=
  List.filterMap_append

theorem ran_runExample (suite : ExampleSuite) : ran (runExample suite) = [suite.entry] := by
  have hprinted : ran (suite.run.map .printed) = [] := by
    rw [ran, List.filterMap_eq_nil_iff]
    intro line hline
    obtain ⟨text, -, rfl⟩ := List.mem_map.mp hline
    rfl
  show suite.entry :: ran (suite.run.map .printed) = [suite.entry]
  rw [hprinted]

theorem ran_printOneSuite (suite : ExampleSuite) : ran (printOneSuite suite) = [suite.entry] := by
  rw [printOneSuite, ran_append, ran_runExample]
  rfl

theorem ran_runSuites (suites : List ExampleSuite) (categoryCount : Nat) :
    ran (runSuites suites categoryCount) = suites.map ExampleSuite.entry := by
  have hsuites : ran (suites.flatMap runExample) = suites.map ExampleSuite.entry := by
    induction suites with
    | nil => rfl
    | cons suite suites ih =>
        rw [List.flatMap_cons, ran_append, ran_runExample, ih]
        rfl
  rw [runSuites, ran_append, hsuites]
  exact List.append_nil _

-- ============================================================================
-- The loop
-- ============================================================================

/-- The suite is the one that was asked for by name or id. -/
def Exactly (requestedLower : Bytes) (entry : Entry) : Prop :=
  toLower entry.name = requestedLower ∨ toLower entry.id = requestedLower

instance (requestedLower : Bytes) (entry : Entry) : Decidable (Exactly requestedLower entry) :=
  inferInstanceAs (Decidable (_ ∨ _))

section Loop

variable {requested requestedLower : Bytes} {suite : ExampleSuite}
  {before after categoryMatches suites : List ExampleSuite}

theorem scanSuites_cons_of_not_exactly (h : ¬ Exactly requestedLower suite.entry) :
    scanSuites requested requestedLower (suite :: suites) categoryMatches
      = if toLower suite.category = requestedLower then
          scanSuites requested requestedLower suites (categoryMatches ++ [suite])
        else scanSuites requested requestedLower suites categoryMatches := if_neg h

/-- An exact match runs alone, whatever was collected before it. -/
theorem scanSuites_of_exactly (h : ∀ s ∈ before, ¬ Exactly requestedLower s.entry)
    (hsuite : Exactly requestedLower suite.entry) :
    scanSuites requested requestedLower (before ++ suite :: after) categoryMatches
      = ⟨0, printOneSuite suite, none⟩ := by
  induction before generalizing categoryMatches with
  | nil =>
      rw [List.nil_append, scanSuites]
      exact if_pos hsuite
  | cons s before ih =>
      obtain ⟨hs, hbefore⟩ := List.forall_mem_cons.mp h
      rw [List.cons_append, scanSuites_cons_of_not_exactly hs]
      split
      · exact ih hbefore
      · exact ih hbefore

/-- Without an exact match the suites of the category run. -/
theorem scanSuites_of_not_exactly (h : ∀ s ∈ suites, ¬ Exactly requestedLower s.entry) :
    scanSuites requested requestedLower suites categoryMatches
      = scanSuites requested requestedLower []
          (categoryMatches ++ suites.filter fun s => toLower s.category = requestedLower) := by
  induction suites generalizing categoryMatches with
  | nil => rw [List.filter_nil, List.append_nil]
  | cons s suites ih =>
      obtain ⟨hs, hsuites⟩ := List.forall_mem_cons.mp h
      rw [scanSuites_cons_of_not_exactly hs, List.filter_cons]
      by_cases hcategory : toLower s.category = requestedLower
      · rw [if_pos hcategory, ih hsuites, if_pos (decide_eq_true hcategory), List.append_assoc]
        rfl
      · rw [if_neg hcategory, ih hsuites, if_neg (by simpa using hcategory)]

theorem ran_scanSuites_nil :
    ran (scanSuites requested requestedLower [] categoryMatches).out
      = categoryMatches.map ExampleSuite.entry := by
  rw [scanSuites]
  split
  · exact ran_runSuites categoryMatches 1
  · next h =>
      rw [not_not] at h
      rw [h]
      rfl

/-- There is a first exact match, or none. -/
theorem exists_exactly (requestedLower : Bytes) (suites : List ExampleSuite) :
    (∀ s ∈ suites, ¬ Exactly requestedLower s.entry) ∨
      ∃ before suite after, suites = before ++ suite :: after ∧
        (∀ s ∈ before, ¬ Exactly requestedLower s.entry) ∧ Exactly requestedLower suite.entry := by
  by_cases h : ∃ s ∈ suites, Exactly requestedLower s.entry
  · obtain ⟨s, hs, hexactly⟩ := h
    have hfind : (suites.find? fun s => Exactly requestedLower s.entry).isSome = true :=
      List.find?_isSome.mpr ⟨s, hs, decide_eq_true hexactly⟩
    obtain ⟨suite, hfirst⟩ := Option.isSome_iff_exists.mp hfind
    obtain ⟨hsuite, before, after, rfl, hbefore⟩ := List.find?_eq_some_iff_append.mp hfirst
    exact Or.inr ⟨before, suite, after, rfl, by simpa using hbefore, of_decide_eq_true hsuite⟩
  · exact Or.inl fun s hs hexactly => h ⟨s, hs, hexactly⟩

end Loop

-- ============================================================================
-- The list of suites
-- ============================================================================

/-- The row of the tree for a suite. -/
def Line.row? : Line → Option (Bytes × Bytes)
  | .listed _ id name => some (id, name)
  | _ => none

/-- The suites that the tree shows, in their order. -/
def rows (out : List Line) : List (Bytes × Bytes) := out.filterMap Line.row?

theorem foldl_groupSuites (registry : List ExampleSuite) :
    registry.foldl groupSuites [] = Adjacent.group ExampleSuite.category registry := by
  have hstep : groupSuites = Adjacent.push ExampleSuite.category := by
    funext grouped suite
    rw [groupSuites, Adjacent.push]
    rcases List.eq_nil_or_concat' grouped with rfl | ⟨init, last, rfl⟩
    · rfl
    · rw [List.getLast?_concat]
  rw [hstep]
  rfl

theorem rows_printGroup (group : Bytes × List ExampleSuite) :
    rows (printGroup group) = group.2.map fun suite => (suite.id, suite.name) := by
  have hrow : (Line.row? ∘ fun indexed : ExampleSuite × Nat =>
      Line.listed (indexed.2 + 1 == group.2.length) indexed.1.id indexed.1.name)
        = fun indexed => some (indexed.1.id, indexed.1.name) := rfl
  have hfst : (group.2.zipIdx.map fun indexed => (indexed.1.id, indexed.1.name))
      = (group.2.zipIdx.map Prod.fst).map fun suite => (suite.id, suite.name) := by
    rw [List.map_map]
    rfl
  show rows (group.2.mapIdx fun i suite => .listed (i + 1 == group.2.length) suite.id suite.name) = _
  rw [rows, List.mapIdx_eq_zipIdx_map, List.filterMap_map, hrow, List.filterMap_eq_map', hfst,
    List.zipIdx_map_fst]

theorem rows_append (left right : List Line) : rows (left ++ right) = rows left ++ rows right :=
  List.filterMap_append

/-- The tree shows every suite once, in registration order. -/
theorem rows_printExampleSuiteList (registry : List ExampleSuite) :
    rows (printExampleSuiteList registry) = registry.map fun suite => (suite.id, suite.name) := by
  have htree (grouped : List (Bytes × List ExampleSuite)) :
      rows (grouped.flatMap printGroup)
        = (grouped.flatMap Prod.snd).map fun suite => (suite.id, suite.name) := by
    induction grouped with
    | nil => rfl
    | cons group grouped ih =>
        rw [List.flatMap_cons, rows_append, rows_printGroup, ih, List.flatMap_cons, List.map_append]
  show rows ((registry.foldl groupSuites []).flatMap printGroup ++ [_]) = _
  rw [rows_append, htree, foldl_groupSuites, Adjacent.flatMap_group]
  exact List.append_nil _

theorem ran_printExampleSuiteList (registry : List ExampleSuite) :
    ran (printExampleSuiteList registry) = [] := by
  rw [ran, List.filterMap_eq_nil_iff]
  intro line hline
  simp only [printExampleSuiteList, printGroup, List.mem_cons, List.mem_append, List.mem_flatMap,
    List.mem_mapIdx, List.not_mem_nil, or_false] at hline
  rcases hline with rfl | ⟨group, -, rfl | ⟨i, hi, rfl⟩⟩ | rfl
  · rfl
  · rfl
  · rfl
  · rfl

end Examples
end RateThrottle
