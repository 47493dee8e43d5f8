/-
  RateThrottle.TestRunner.Registry

  How suites get into the registry (tests/custom/support/registry.h): the
  constructor of `TestRegistrar` runs once per source file, takes the category
  from the directory and numbers the suite within its category.

  What is registered for a file depends on the files before it only through the
  number of those in the same directory (`suiteAfter`, `test_registry_append`).
-/

import Mathlib.Data.List.Induction
import Mathlib.Data.List.Nodup
import Mathlib.Logic.Function.Basic
import RateThrottle.Library.Decimal
import RateThrottle.TestRunner.Main

namespace RateThrottle
namespace TestRunner

open Decimal

-- ============================================================================
-- Source files
-- ============================================================================

/-- `path.parent_path().filename().string()`: from the end, the name of the file,
    the separators before it, and the name before those. -/
def parentName (path : Bytes) : Bytes :=
  (((path.reverse.dropWhile (· ≠ 47)).dropWhile (· = 47)).takeWhile (· ≠ 47)).reverse

/-- `path.stem().string()`. -/
def stem (path : Bytes) : Bytes :=
  let name := (path.reverse.takeWhile (· ≠ 47)).reverse
  if name = bytes "." ∨ name = bytes ".." then name
  else
    match name.reverse.dropWhile (· ≠ 46) with
    | [] => name
    -- a dot at the start is part of the name
    | [_] => name
    | _ :: before => before.reverse

/-- A source file with `REGISTER_TEST_SUITE()`: its `__FILE__` and the tests of
    its `run_tests`.  It lies in a directory with a name. -/
structure SourceFile where
  path : Bytes
  run : List Test
  parentName_ne_nil : parentName path ≠ []

namespace SourceFile

def category (file : SourceFile) : Bytes := parentName file.path

/-- `std::toupper` of `category.front()`. -/
def initial (file : SourceFile) : UInt8 := toupper (file.category.head file.parentName_ne_nil)

def name (file : SourceFile) : Bytes := prettify (stem file.path)

theorem initial_congr {file file' : SourceFile} (h : file.category = file'.category) :
    file.initial = file'.initial := by
  simp only [initial, h]

end SourceFile

-- ============================================================================
-- Registration
-- ============================================================================

/-- `category_counters()`, zero for a category not seen yet, and `test_registry()`. -/
structure Registrations where
  category_counters : Bytes → Nat
  test_registry : List TestSuite

/-- The constructor of `TestRegistrar`. -/
def TestRegistrar (state : Registrations) (file : SourceFile) : Registrations :=
  let category := file.category
  let number := state.category_counters category + 1
  { category_counters := Function.update state.category_counters category number
    test_registry := state.test_registry ++
      [{ id := file.initial :: decimal number, category, name := file.name, run := file.run }] }

/-- The state after the static initialization of the given files, in this order. -/
def register (files : List SourceFile) : Registrations :=
  files.foldl TestRegistrar ⟨fun _ => 0, []⟩

/-- What `main` finds in `test_registry()`. -/
def test_registry (files : List SourceFile) : List TestSuite := (register files).test_registry

/-- The id of a file's suite when the given files have been registered before. -/
def idAfter (before : List SourceFile) (file : SourceFile) : Bytes :=
  file.initial :: decimal (before.countP (fun f => f.category = file.category) + 1)

/-- The suite of a file when the given files have been registered before. -/
def suiteAfter (before : List SourceFile) (file : SourceFile) : TestSuite where
  id := idAfter before file
  category := file.category
  name := file.name
  run := file.run

theorem register_concat (files : List SourceFile) (file : SourceFile) :
    register (files ++ [file]) = TestRegistrar (register files) file := List.foldl_concat ..

/-- A category's counter is the number of its files. -/
theorem category_counters_register (files : List SourceFile) (category : Bytes) :
    (register files).category_counters category = files.countP fun f => f.category = category := by
  induction files using List.reverseRecOn with
  | nil => rfl
  | append_singleton files file ih =>
      rw [register_concat, List.countP_append, List.countP_singleton]
      by_cases hsame : file.category = category
      · subst hsame
        simp only [TestRegistrar, Function.update_self, ih, decide_true, if_true]
      · simp only [TestRegistrar, Function.update_of_ne (Ne.symm hsame), ih, hsame, decide_false,
          Bool.false_eq_true, if_false, Nat.add_zero]

/-- One more file adds its suite at the end. -/
theorem test_registry_concat (files : List SourceFile) (file : SourceFile) :
    test_registry (files ++ [file]) = test_registry files ++ [suiteAfter files file] := by
  rw [test_registry, register_concat]
  simp only [TestRegistrar, category_counters_register]
  rfl

/-- The suites of the files before a file stand before its own. -/
theorem test_registry_append (before : List SourceFile) (file : SourceFile)
    (after : List SourceFile) :
    ∃ suites, test_registry (before ++ file :: after)
      = test_registry before ++ suiteAfter before file :: suites := by
  induction after using List.reverseRecOn with
  | nil => exact ⟨[], test_registry_concat before file⟩
  | append_singleton after last ih =>
      obtain ⟨suites, hsuites⟩ := ih
      refine ⟨suites ++ [suiteAfter (before ++ file :: after) last], ?_⟩
      have hassoc : before ++ file :: (after ++ [last]) = (before ++ file :: after) ++ [last] := by
        simp
      rw [hassoc, test_registry_concat, hsuites, List.append_assoc, List.cons_append]

/-- Every suite is that of a file, and the suites before it are those of the
    files before the file. -/
theorem test_registry_split {files : List SourceFile} {pre post : List TestSuite}
    {suite : TestSuite} (h : test_registry files = pre ++ suite :: post) :
    ∃ before file after, files = before ++ file :: after ∧ pre = test_registry before ∧
      suite = suiteAfter before file := by
  induction files using List.reverseRecOn generalizing post with
  | nil => exact absurd h (by simp [test_registry, register])
  | append_singleton files last ih =>
      rw [test_registry_concat] at h
      rcases List.eq_nil_or_concat' post with rfl | ⟨post, end_, rfl⟩
      · obtain ⟨hpre, hsuite⟩ := List.append_inj' h rfl
        exact ⟨files, last, [], rfl, hpre.symm, (List.singleton_inj.mp hsuite).symm⟩
      · have hassoc : pre ++ suite :: (post ++ [end_]) = (pre ++ suite :: post) ++ [end_] := by
          simp
        rw [hassoc] at h
        obtain ⟨hfiles, -⟩ := List.append_inj' h rfl
        obtain ⟨before, file, after, rfl, hpre, hsuite⟩ := ih hfiles
        exact ⟨before, file, after ++ [last], by simp, hpre, hsuite⟩

theorem mem_test_registry {files : List SourceFile} {suite : TestSuite} :
    suite ∈ test_registry files
      ↔ ∃ before file after, files = before ++ file :: after ∧ suite = suiteAfter before file := by
  refine ⟨?_, ?_⟩
  · intro h
    obtain ⟨pre, post, hsplit⟩ := List.append_of_mem h
    obtain ⟨before, file, after, hfiles, -, hsuite⟩ := test_registry_split hsplit
    exact ⟨before, file, after, hfiles, hsuite⟩
  · rintro ⟨before, file, after, rfl, rfl⟩
    obtain ⟨suites, hsuites⟩ := test_registry_append before file after
    rw [hsuites]
    simp

/-- The categories of the suites are those of the files. -/
theorem map_category_test_registry (files : List SourceFile) :
    (test_registry files).map TestSuite.category = files.map SourceFile.category := by
  induction files using List.reverseRecOn with
  | nil => rfl
  | append_singleton files file ih =>
      rw [test_registry_concat, List.map_append, List.map_append, ih]
      rfl

-- ============================================================================
-- Ids
-- ============================================================================

theorem decimal_injective {n m : Nat} (h : decimal n = decimal m) : n = m := by
  rw [← ofDigits_decimal n, h, ofDigits_decimal]

/-- The ids of two files agree when they have one initial and one number. -/
theorem idAfter_eq_iff {before before' : List SourceFile} {file file' : SourceFile} :
    idAfter before file = idAfter before' file'
      ↔ file.initial = file'.initial ∧
        before.countP (fun f => f.category = file.category)
          = before'.countP fun f => f.category = file'.category := by
  rw [idAfter, idAfter, List.cons.injEq]
  refine and_congr_right fun _ => ⟨fun h => ?_, fun h => by rw [h]⟩
  exact Nat.succ_injective (decimal_injective h)

/-- Every category has a first file. -/
theorem exists_first {files : List SourceFile} {file : SourceFile} (h : file ∈ files) :
    ∃ before first after, files = before ++ first :: after ∧ first.category = file.category ∧
      before.countP (fun f => f.category = file.category) = 0 := by
  induction files with
  | nil => cases h
  | cons f files ih =>
      by_cases hsame : f.category = file.category
      · exact ⟨[], f, files, rfl, hsame, rfl⟩
      · have hmem : file ∈ files := by
          rcases List.mem_cons.mp h with rfl | h
          · exact absurd rfl hsame
          · exact h
        obtain ⟨before, first, after, rfl, hfirst, hnone⟩ := ih hmem
        refine ⟨f :: before, first, after, rfl, hfirst, ?_⟩
        rw [List.countP_cons, hnone]
        simp [hsame]

/-- No two categories share an upper-cased first letter. -/
def InitialsDiffer (files : List SourceFile) : Prop :=
  ∀ file ∈ files, ∀ file' ∈ files, file.initial = file'.initial →
    file.category = file'.category

/-- **Ids are pairwise distinct** exactly when the first letter tells the
    categories apart. -/
theorem ids_nodup_iff (files : List SourceFile) :
    ((test_registry files).map TestSuite.id).Nodup ↔ InitialsDiffer files := by
  refine ⟨?_, ?_⟩
  · intro hnodup file hfile file' hfile' hinitial
    obtain ⟨before, first, after, hfiles, hfirst, hnone⟩ := exists_first hfile
    obtain ⟨before', first', after', hfiles', hfirst', hnone'⟩ := exists_first hfile'
    -- the first suites of both categories have number 1
    have hid : idAfter before first = idAfter before' first' := by
      rw [idAfter_eq_iff, SourceFile.initial_congr hfirst, SourceFile.initial_congr hfirst',
        hfirst, hfirst', hnone, hnone']
      exact ⟨hinitial, rfl⟩
    have hsuite := List.inj_on_of_nodup_map hnodup
      (mem_test_registry.mpr ⟨before, first, after, hfiles, rfl⟩)
      (mem_test_registry.mpr ⟨before', first', after', hfiles', rfl⟩) hid
    have hcategory : first.category = first'.category := congrArg TestSuite.category hsuite
    rw [← hfirst, hcategory, hfirst']
  · intro hinitials
    induction files using List.reverseRecOn with
    | nil => exact List.nodup_nil
    | append_singleton files last ih =>
        rw [test_registry_concat, List.map_append, List.map_singleton, List.nodup_append]
        refine ⟨ih fun file hfile file' hfile' => hinitials file (List.mem_append_left _ hfile)
          file' (List.mem_append_left _ hfile'), List.nodup_singleton _, fun id hid id' hid' => ?_⟩
        obtain ⟨suite, hsuite, rfl⟩ := List.mem_map.mp hid
        rw [List.mem_singleton.mp hid']
        obtain ⟨before, file, after, rfl, rfl⟩ := mem_test_registry.mp hsuite
        -- a file of the same category has been counted since
        intro hsame
        obtain ⟨hinitial, hcount⟩ := idAfter_eq_iff.mp hsame
        have hcategory : file.category = last.category :=
          hinitials file (by simp) last (by simp) hinitial
        rw [← hcategory, List.countP_append, List.countP_cons, decide_eq_true rfl] at hcount
        simp only [if_true] at hcount
        omega

end TestRunner
end RateThrottle
