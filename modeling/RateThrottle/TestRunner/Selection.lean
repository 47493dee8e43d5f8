/-
  RateThrottle.TestRunner.Selection

  Which suites a suite id and a category name select on the command line of the
  custom `tests` executable (the matching loop of tests/custom/test_main.cpp,
  over the registry of registry.h).

  An id is the first letter of the category and a number within the category, so
  two categories with one first letter share their ids (`ids_nodup_iff`).  The
  requested text is prettified before it is compared and the category is not, so
  a category with an underscore is not found under its own name.  And the loop
  runs the suites of a matching category before it comes to an exact match.
  `exactSelection_iff` says for which files none of this shows.
-/

import RateThrottle.TestRunner.Registry

namespace RateThrottle
namespace TestRunner

open Decimal

-- ============================================================================
-- The matching loop
-- ============================================================================

/-- The request is the name or the id of the suite, up to case. -/
def Exactly (requestedLower : Bytes) (suite : TestSuite) : Prop :=
  toLower suite.name = requestedLower ∨ toLower suite.id = requestedLower

instance (requestedLower : Bytes) (suite : TestSuite) : Decidable (Exactly requestedLower suite) :=
  inferInstanceAs (Decidable (_ ∨ _))

section Loop

variable {requestedLower : Bytes} {suites pre post : List TestSuite} {suite : TestSuite}

/-- Before the first exact match the loop takes the suites of the category. -/
theorem selectFrom_append (h : ∀ s ∈ pre, ¬ Exactly requestedLower s) (rest : List TestSuite) :
    selectFrom requestedLower (pre ++ rest)
      = pre.filter (fun s => toLower s.category = requestedLower)
        ++ selectFrom requestedLower rest := by
  induction pre with
  | nil => rfl
  | cons s pre ih =>
      have hs : ¬ Exactly requestedLower s := h s (List.mem_cons_self ..)
      have hrest := ih fun t ht => h t (List.mem_cons_of_mem s ht)
      rw [Exactly] at hs
      rw [List.cons_append, selectFrom, if_neg hs, List.filter_cons]
      by_cases hcategory : toLower s.category = requestedLower
      · rw [if_pos hcategory, hrest, if_pos (decide_eq_true hcategory), List.cons_append]
      · rw [if_neg hcategory, hrest, if_neg (by simpa using hcategory)]

theorem selectFrom_of_not_exactly (h : ∀ s ∈ suites, ¬ Exactly requestedLower s) :
    selectFrom requestedLower suites
      = suites.filter fun s => toLower s.category = requestedLower := by
  have happend := selectFrom_append h []
  rw [List.append_nil] at happend
  rw [happend, selectFrom, List.append_nil]

/-- The first exact match is the last suite taken. -/
theorem selectFrom_of_exactly (h : ∀ s ∈ pre, ¬ Exactly requestedLower s)
    (hsuite : Exactly requestedLower suite) :
    selectFrom requestedLower (pre ++ suite :: post)
      = pre.filter (fun s => toLower s.category = requestedLower) ++ [suite] := by
  rw [Exactly] at hsuite
  rw [selectFrom_append h, selectFrom, if_pos hsuite]

theorem filter_category_eq_nil_iff :
    pre.filter (fun s => toLower s.category = requestedLower) = []
      ↔ ∀ s ∈ pre, toLower s.category ≠ requestedLower := by
  rw [List.filter_eq_nil_iff]
  simp only [decide_eq_true_eq, ne_eq]

theorem selectFrom_of_unmatched
    (h : ∀ s ∈ pre, ¬ Exactly requestedLower s ∧ toLower s.category ≠ requestedLower)
    (hsuite : Exactly requestedLower suite) :
    selectFrom requestedLower (pre ++ suite :: post) = [suite] := by
  have hnothing := filter_category_eq_nil_iff.mpr fun s hs => (h s hs).2
  rw [selectFrom_of_exactly (fun s hs => (h s hs).1) hsuite, hnothing, List.nil_append]

/-- There is a first exact match, or none. -/
theorem exists_exactly (requestedLower : Bytes) (suites : List TestSuite) :
    (∀ s ∈ suites, ¬ Exactly requestedLower s) ∨
      ∃ pre suite post, suites = pre ++ suite :: post ∧
        (∀ s ∈ pre, ¬ Exactly requestedLower s) ∧ Exactly requestedLower suite := by
  induction suites with
  | nil => exact Or.inl (by simp)
  | cons s suites ih =>
      by_cases hs : Exactly requestedLower s
      · exact Or.inr ⟨[], s, suites, rfl, by simp, hs⟩
      · rcases ih with hnone | ⟨pre, suite, post, rfl, hpre, hsuite⟩
        · exact Or.inl (List.forall_mem_cons.mpr ⟨hs, hnone⟩)
        · exact Or.inr ⟨s :: pre, suite, post, rfl, List.forall_mem_cons.mpr ⟨hs, hpre⟩, hsuite⟩

/-- A suite that is matched exactly is the only one to run when nothing before it
    matches. -/
theorem selectFrom_eq_singleton_iff (hnodup : (pre ++ suite :: post).Nodup)
    (hsuite : Exactly requestedLower suite) :
    selectFrom requestedLower (pre ++ suite :: post) = [suite]
      ↔ ∀ s ∈ pre, ¬ Exactly requestedLower s ∧ toLower s.category ≠ requestedLower := by
  refine ⟨?_, ?_⟩
  · intro h
    rcases exists_exactly requestedLower (pre ++ suite :: post) with
      hnone | ⟨pre', first, post', hsplit, hpre', hfirst⟩
    · exact absurd hsuite (hnone suite (by simp))
    · rw [hsplit, selectFrom_of_exactly hpre' hfirst, ← List.nil_append [suite]] at h
      obtain ⟨hfilter, hsame⟩ := List.append_inj' h rfl
      obtain rfl := List.singleton_inj.mp hsame
      -- the suite occurs once, so both splits are the same
      obtain ⟨hpre, hpost, hdisjoint⟩ := List.nodup_append.mp hnodup
      have hnotpre : first ∉ pre := fun hmem => hdisjoint first hmem first (by simp) rfl
      have hnotpost : first ∉ post := (List.nodup_cons.mp hpost).1
      obtain ⟨rfl, -, -⟩ := (List.append_cons_inj_of_notMem hnotpre hnotpost).mp hsplit
      exact fun s hs => ⟨hpre' s hs, filter_category_eq_nil_iff.mp hfilter s hs⟩
  · intro h
    exact selectFrom_of_unmatched h hsuite

end Loop

-- ============================================================================
-- Requests
-- ============================================================================

/-- The arguments that `main` does not take for a suite. -/
abbrev IsCommand (requested : Bytes) : Prop :=
  requested = bytes "-h" ∨ requested = bytes "--help" ∨ requested = bytes "list"

theorem selected_cons (suites : List TestSuite) (requested : Bytes) (more : List Bytes) :
    selected suites (requested :: more)
      = if IsCommand requested then [] else selectFrom (toLower (prettify requested)) suites := rfl

/-- The commands are in lower case. -/
theorem isCommand_toLower {requested : Bytes} (h : IsCommand requested) :
    IsCommand (toLower requested) := by
  rcases h with rfl | rfl | rfl
  · exact Or.inl (by decide)
  · exact Or.inr (Or.inl (by decide))
  · exact Or.inr (Or.inr (by decide))

theorem toLower_decimal (n : Nat) : toLower (decimal n) = decimal n := by
  have hdigit : ∀ c ∈ decimal n, tolower c = c := by
    intro c hc
    have hrange := isDigit_iff.mp (isDigit_of_mem_decimal hc)
    rw [tolower, if_neg]
    rw [UInt8.le_iff_toNat_le, UInt8.le_iff_toNat_le]
    simp only [UInt8.toNat_ofNat]
    omega
  have hmap := List.map_congr_left (g := id) hdigit
  rw [List.map_id] at hmap
  exact hmap

theorem toLower_idAfter (before : List SourceFile) (file : SourceFile) :
    toLower (idAfter before file) = tolower file.initial :: (idAfter before file).tail :=
  congrArg (tolower file.initial :: ·) (toLower_decimal _)

theorem tolower_initial_inj {file file' : SourceFile}
    (h : tolower file.initial = tolower file'.initial) : file.initial = file'.initial := by
  have hupper := congrArg toupper h
  rw [SourceFile.initial, SourceFile.initial] at hupper ⊢
  rwa [toupper_tolower, toupper_tolower, toupper_toupper, toupper_toupper] at hupper

/-- Ids differ in more than case. -/
theorem toLower_idAfter_inj {before before' : List SourceFile} {file file' : SourceFile}
    (h : toLower (idAfter before file) = toLower (idAfter before' file')) :
    idAfter before file = idAfter before' file' := by
  rw [toLower_idAfter, toLower_idAfter, List.cons.injEq] at h
  have htail : (idAfter before file).tail = (idAfter before' file').tail := h.2
  rw [idAfter, idAfter] at htail ⊢
  rw [List.tail_cons, List.tail_cons] at htail
  rw [tolower_initial_inj h.1, htail]

/-- A category in lower case, prettified or not, starts as the ids of its suites. -/
theorem head?_toLower_category (file : SourceFile) :
    (toLower file.category).head? = some (tolower file.initial) := by
  obtain ⟨front, rest, hcategory⟩ := List.exists_cons_of_ne_nil file.parentName_ne_nil
  have hfile : file.category = front :: rest := hcategory
  simp only [SourceFile.initial, hfile, List.head_cons, tolower_toupper]
  rfl

theorem head?_toLower_prettify (file : SourceFile) :
    (toLower (prettify file.category)).head? = some (tolower file.initial) := by
  obtain ⟨front, rest, hcategory⟩ := List.exists_cons_of_ne_nil file.parentName_ne_nil
  have hfile : file.category = front :: rest := hcategory
  simp only [SourceFile.initial, hfile, List.head_cons]
  rfl

/-- A request for an id is compared as the id. -/
theorem requested_id (before : List SourceFile) (file : SourceFile) {requested : Bytes}
    (h : toLower requested = toLower (idAfter before file)) :
    ¬ IsCommand requested ∧ toLower (prettify requested) = toLower (idAfter before file) := by
  have hdigits : ∀ c ∈ (toLower requested).tail, isDigit c = true := by
    rw [h, toLower_idAfter]
    exact fun c hc => isDigit_of_mem_decimal hc
  refine ⟨?_, ?_⟩
  · rintro (rfl | rfl | rfl)
    · exact absurd (hdigits 104 (by decide)) (by decide)
    · exact absurd (hdigits 45 (by decide)) (by decide)
    · exact absurd (hdigits 105 (by decide)) (by decide)
  · rw [toLower_prettify_congr h]
    refine toLower_prettify_eq_iff.mpr fun hmem => ?_
    exact absurd (isDigit_of_mem_decimal hmem) (by decide)

-- ============================================================================
-- Exact selection
-- ============================================================================

/-- Ids are distinct; an id in any case runs its suite; and the name of a
    directory in any case, when it is not the name or id of a suite, runs the
    suites of the directory in the order of registration. -/
structure ExactSelection (files : List SourceFile) : Prop where
  ids : ((test_registry files).map TestSuite.id).Nodup
  byId : ∀ suite ∈ test_registry files, ∀ requested more, toLower requested = toLower suite.id →
    (main (test_registry files) (requested :: more)).2.ran = [suite]
  byCategory : ∀ file ∈ files, ∀ requested more, toLower requested = toLower file.category →
    (∀ suite ∈ test_registry files, ¬ Exactly (toLower requested) suite) →
    (main (test_registry files) (requested :: more)).2.ran
      = (test_registry files).filter fun suite => suite.category = file.category

/-- No file, and no directory of a file, has the id of a later suite for its name. -/
def IdsFree (files : List SourceFile) : Prop :=
  ∀ before file after, files = before ++ file :: after → ∀ earlier ∈ before,
    toLower earlier.name ≠ toLower (idAfter before file) ∧
      toLower earlier.category ≠ toLower (idAfter before file)

/-- The request is the name or the id of the file's suite. -/
def NamedAt (requestedLower : Bytes) (before : List SourceFile) (file : SourceFile) : Prop :=
  toLower file.name = requestedLower ∨ toLower (idAfter before file) = requestedLower

/-- The request is the name or the id of some suite. -/
def IsNamed (files : List SourceFile) (requestedLower : Bytes) : Prop :=
  ∃ before file after, files = before ++ file :: after ∧ NamedAt requestedLower before file

/-- The directory has one file, and that is the first whose name is, up to case,
    what `prettify` makes of the category. -/
def SoleFile (files : List SourceFile) (category : Bytes) : Prop :=
  ∃ before file after, files = before ++ file :: after ∧ file.category = category ∧
    (∀ other ∈ before ++ after, other.category ≠ category) ∧
    toLower file.name = toLower (prettify category) ∧
    ∀ earlier ∈ before, toLower earlier.name ≠ toLower (prettify category)

section Files

variable {files : List SourceFile}

theorem exists_exactly_iff (requestedLower : Bytes) :
    (∃ suite ∈ test_registry files, Exactly requestedLower suite)
      ↔ IsNamed files requestedLower := by
  refine ⟨?_, ?_⟩
  · rintro ⟨suite, hsuite, hexactly⟩
    obtain ⟨before, file, after, hfiles, rfl⟩ := mem_test_registry.mp hsuite
    exact ⟨before, file, after, hfiles, hexactly⟩
  · rintro ⟨before, file, after, hfiles, hnamed⟩
    exact ⟨_, mem_test_registry.mpr ⟨before, file, after, hfiles, rfl⟩, hnamed⟩

/-- An id is not the id of a suite before it, so only a name or a category
    hides it. -/
theorem unmatched_id_iff {before after : List SourceFile} {file : SourceFile}
    (hids : ((test_registry (before ++ file :: after)).map TestSuite.id).Nodup) :
    (∀ suite ∈ test_registry before, ¬ Exactly (toLower (idAfter before file)) suite ∧
        toLower suite.category ≠ toLower (idAfter before file))
      ↔ ∀ earlier ∈ before, toLower earlier.name ≠ toLower (idAfter before file) ∧
        toLower earlier.category ≠ toLower (idAfter before file) := by
  obtain ⟨suites, hregistry⟩ := test_registry_append before file after
  rw [hregistry, List.map_append, List.map_cons, List.nodup_append] at hids
  refine ⟨?_, ?_⟩
  · intro h earlier hearlier
    obtain ⟨before', after', rfl⟩ := List.append_of_mem hearlier
    obtain ⟨hexactly, hcategory⟩ := h (suiteAfter before' earlier)
      (mem_test_registry.mpr ⟨before', earlier, after', rfl, rfl⟩)
    exact ⟨fun hname => hexactly (Or.inl hname), hcategory⟩
  · intro h suite hsuite
    obtain ⟨before', earlier, after', rfl, rfl⟩ := mem_test_registry.mp hsuite
    obtain ⟨hname, hcategory⟩ := h earlier (by simp)
    refine ⟨?_, hcategory⟩
    rintro (hname' | hid)
    · exact hname hname'
    · exact hids.2.2 _ (List.mem_map_of_mem hsuite) _ (List.mem_cons_self ..)
        (toLower_idAfter_inj hid)

theorem selectFrom_id_iff {before after : List SourceFile} {file : SourceFile}
    (hids : ((test_registry (before ++ file :: after)).map TestSuite.id).Nodup) :
    selectFrom (toLower (idAfter before file)) (test_registry (before ++ file :: after))
        = [suiteAfter before file]
      ↔ ∀ earlier ∈ before, toLower earlier.name ≠ toLower (idAfter before file) ∧
        toLower earlier.category ≠ toLower (idAfter before file) := by
  rw [← unmatched_id_iff hids]
  obtain ⟨suites, hregistry⟩ := test_registry_append before file after
  have hnodup := List.Nodup.of_map _ hids
  rw [hregistry] at hnodup ⊢
  exact selectFrom_eq_singleton_iff hnodup (Or.inr rfl)

/-- Requests by id are exact when no earlier suite or category has the id. -/
theorem byId_iff (hids : ((test_registry files).map TestSuite.id).Nodup) :
    (∀ suite ∈ test_registry files, ∀ requested more, toLower requested = toLower suite.id →
        (main (test_registry files) (requested :: more)).2.ran = [suite])
      ↔ IdsFree files := by
  refine ⟨?_, ?_⟩
  · rintro h before file after rfl
    obtain ⟨hcommand, hrequested⟩ := requested_id before file rfl
    have hran := h _ (mem_test_registry.mpr ⟨before, file, after, rfl, rfl⟩)
      (idAfter before file) [] rfl
    rw [main_ran, selected_cons, if_neg hcommand, hrequested] at hran
    exact (selectFrom_id_iff hids).mp hran
  · intro h suite hsuite requested more hcase
    obtain ⟨before, file, after, rfl, rfl⟩ := mem_test_registry.mp hsuite
    obtain ⟨hcommand, hrequested⟩ := requested_id before file hcase
    rw [main_ran, selected_cons, if_neg hcommand, hrequested]
    exact (selectFrom_id_iff hids).mpr (h before file after rfl)

theorem mem_filter_category {suites : List TestSuite} {suite : TestSuite} {category : Bytes} :
    suite ∈ suites.filter (fun s => s.category = category)
      ↔ suite ∈ suites ∧ suite.category = category := by
  rw [List.mem_filter, decide_eq_true_eq]

/-- The suite of a file is in the file's category. -/
theorem exists_mem_filter_category {file : SourceFile} (h : file ∈ files) :
    ∃ suite, suite ∈ (test_registry files).filter
      fun suite => suite.category = file.category := by
  obtain ⟨before, after, hfiles⟩ := List.append_of_mem h
  exact ⟨suiteAfter before file, mem_filter_category.mpr
    ⟨mem_test_registry.mpr ⟨before, file, after, hfiles, rfl⟩, rfl⟩⟩

/-- The suites of a category are one suite when no other file is in the category. -/
theorem filter_category_eq_singleton_iff {before after : List SourceFile} {file : SourceFile} :
    (test_registry (before ++ file :: after)).filter (fun suite => suite.category = file.category)
        = [suiteAfter before file]
      ↔ ∀ other ∈ before ++ after, other.category ≠ file.category := by
  obtain ⟨suites, hregistry⟩ := test_registry_append before file after
  have hmap := map_category_test_registry (before ++ file :: after)
  rw [hregistry, List.map_append, List.map_append, map_category_test_registry, List.map_cons,
    List.map_cons] at hmap
  have hafter : suites.map TestSuite.category = after.map SourceFile.category :=
    (List.cons.inj (List.append_cancel_left hmap)).2
  have hnone : ∀ {list : List TestSuite} {others : List SourceFile},
      list.map TestSuite.category = others.map SourceFile.category →
      (list.filter (fun suite => suite.category = file.category) = []
        ↔ ∀ other ∈ others, other.category ≠ file.category) := by
    intro list others hsame
    have hmem : (∀ category ∈ list.map TestSuite.category, category ≠ file.category)
        ↔ ∀ category ∈ others.map SourceFile.category, category ≠ file.category := by rw [hsame]
    rw [List.forall_mem_map, List.forall_mem_map] at hmem
    rw [← hmem, List.filter_eq_nil_iff]
    simp only [decide_eq_true_eq, ne_eq]
  have hself : (suiteAfter before file).category = file.category := rfl
  rw [hregistry, List.filter_append, List.filter_cons, if_pos (decide_eq_true hself),
    List.forall_mem_append, ← hnone (map_category_test_registry before), ← hnone hafter]
  refine ⟨?_, ?_⟩
  · intro h
    have hlength := congrArg List.length h
    rw [List.length_append, List.length_cons, List.length_singleton] at hlength
    exact ⟨List.eq_nil_of_length_eq_zero (by omega), List.eq_nil_of_length_eq_zero (by omega)⟩
  · rintro ⟨hpre, hpost⟩
    rw [hpre, hpost, List.nil_append]

/-- Without an exact match the loop has taken the suites of the requested
    category, which must be the category itself. -/
theorem not_mem_of_selectFrom {file : SourceFile} (hfile : file ∈ files)
    (hnone : ∀ suite ∈ test_registry files, ¬ Exactly (toLower (prettify file.category)) suite)
    (h : selectFrom (toLower (prettify file.category)) (test_registry files)
      = (test_registry files).filter fun suite => suite.category = file.category) :
    95 ∉ file.category.tail := by
  rw [selectFrom_of_not_exactly hnone] at h
  obtain ⟨suite, hmine⟩ := exists_mem_filter_category hfile
  have hsame : suite.category = file.category := (mem_filter_category.mp hmine).2
  rw [← h] at hmine
  have hkeeps : toLower suite.category = toLower (prettify file.category) :=
    of_decide_eq_true (List.mem_filter.mp hmine).2
  rw [hsame] at hkeeps
  exact toLower_prettify_eq_iff.mp hkeeps.symm

/-- At an exact match the loop has stopped, and that suite must be the only one of
    the category. -/
theorem soleFile_of_selectFrom {file : SourceFile} {pre post : List TestSuite} {suite : TestSuite}
    (hmem : 95 ∈ file.category.tail) (hsplit : test_registry files = pre ++ suite :: post)
    (hpre : ∀ s ∈ pre, ¬ Exactly (toLower (prettify file.category)) s)
    (hsuite : Exactly (toLower (prettify file.category)) suite)
    (h : selectFrom (toLower (prettify file.category)) (test_registry files)
      = (test_registry files).filter fun suite => suite.category = file.category) :
    SoleFile files file.category := by
  rw [hsplit, selectFrom_of_exactly hpre hsuite, ← hsplit] at h
  -- what is taken on the way is in the category, whose name is not what is compared
  have hnothing : ∀ s ∈ pre, toLower s.category ≠ toLower (prettify file.category) := by
    intro s hs hcategory
    have hmine : s ∈ (test_registry files).filter
        fun suite => suite.category = file.category := by
      rw [← h]
      exact List.mem_append_left _ (List.mem_filter.mpr ⟨hs, decide_eq_true hcategory⟩)
    rw [(mem_filter_category.mp hmine).2] at hcategory
    exact toLower_prettify_eq_iff.mp hcategory.symm hmem
  rw [filter_category_eq_nil_iff.mpr hnothing, List.nil_append] at h
  obtain ⟨before, first, after, hfiles, rfl, rfl⟩ := test_registry_split hsplit
  have hfirst : first.category = file.category := by
    have hmine := List.mem_singleton_self (suiteAfter before first)
    rw [h] at hmine
    exact (mem_filter_category.mp hmine).2
  refine ⟨before, first, after, hfiles, hfirst, ?_, ?_, ?_⟩
  · rw [← hfirst]
    refine filter_category_eq_singleton_iff.mp ?_
    rw [hfirst, ← hfiles, h]
  · -- an id has no space in it
    refine hsuite.resolve_right fun hid => ?_
    have hspace := space_mem_toLower_prettify hmem
    rw [← hid] at hspace
    have hdigit : (32 : UInt8) ∈ (toLower (idAfter before first)).tail := hspace
    rw [toLower_idAfter] at hdigit
    exact absurd (isDigit_of_mem_decimal hdigit) (by decide)
  · intro earlier hearlier hname
    obtain ⟨before', after', rfl⟩ := List.append_of_mem hearlier
    exact hpre _ (mem_test_registry.mpr ⟨before', earlier, after', rfl, rfl⟩) (Or.inl hname)

theorem selectFrom_of_not_mem {file : SourceFile} (hinitials : InitialsDiffer files)
    (hfile : file ∈ files) (hnamed : ¬ IsNamed files (toLower file.category))
    (h : 95 ∉ file.category.tail) :
    selectFrom (toLower (prettify file.category)) (test_registry files)
      = (test_registry files).filter fun suite => suite.category = file.category := by
  have hnone : ∀ suite ∈ test_registry files, ¬ Exactly (toLower file.category) suite :=
    fun suite hsuite hexactly => hnamed ((exists_exactly_iff _).mp ⟨suite, hsuite, hexactly⟩)
  rw [toLower_prettify_eq_iff.mpr h, selectFrom_of_not_exactly hnone]
  refine List.filter_congr fun suite hsuite => ?_
  obtain ⟨before, other, after, hfiles, rfl⟩ := mem_test_registry.mp hsuite
  have hother : other ∈ files := by
    rw [hfiles]
    simp
  rw [decide_eq_decide]
  refine ⟨fun hsame => ?_, fun hsame => congrArg toLower hsame⟩
  have hhead := congrArg List.head? hsame
  have hlower : toLower (suiteAfter before other).category = toLower other.category := rfl
  rw [hlower, head?_toLower_category, head?_toLower_category, Option.some_inj] at hhead
  exact hinitials other hother file hfile (tolower_initial_inj hhead)

theorem selectFrom_of_soleFile {category : Bytes} (hinitials : InitialsDiffer files)
    (h : SoleFile files category) :
    selectFrom (toLower (prettify category)) (test_registry files)
      = (test_registry files).filter fun suite => suite.category = category := by
  obtain ⟨before, first, after, rfl, rfl, hothers, hname, hearlier⟩ := h
  -- a suite of another category starts with another letter
  have hinitial : ∀ earlier ∈ before, tolower earlier.initial ≠ tolower first.initial := by
    intro earlier hmem hsame
    exact hothers earlier (List.mem_append_left _ hmem) (hinitials earlier (by simp [hmem]) first
      (by simp) (tolower_initial_inj hsame))
  have hpre : ∀ suite ∈ test_registry before,
      ¬ Exactly (toLower (prettify first.category)) suite ∧
        toLower suite.category ≠ toLower (prettify first.category) := by
    intro suite hmem
    obtain ⟨before', earlier, after', rfl, rfl⟩ := mem_test_registry.mp hmem
    have hmember : earlier ∈ before' ++ earlier :: after' := by simp
    refine ⟨?_, fun hcategory => ?_⟩
    · rintro (hname | hid)
      · exact hearlier earlier hmember hname
      · have hhead := congrArg List.head? hid
        have hlower : toLower (suiteAfter before' earlier).id = toLower (idAfter before' earlier) :=
          rfl
        rw [hlower, toLower_idAfter, head?_toLower_prettify, List.head?_cons,
          Option.some_inj] at hhead
        exact hinitial earlier hmember hhead
    · have hhead := congrArg List.head? hcategory
      have hlower : toLower (suiteAfter before' earlier).category = toLower earlier.category := rfl
      rw [hlower, head?_toLower_category, head?_toLower_prettify, Option.some_inj] at hhead
      exact hinitial earlier hmember hhead
  have hexactly : Exactly (toLower (prettify first.category)) (suiteAfter before first) :=
    Or.inl hname
  obtain ⟨suites, hregistry⟩ := test_registry_append before first after
  rw [filter_category_eq_singleton_iff.mpr hothers, hregistry,
    selectFrom_of_unmatched hpre hexactly]

/-- What the loop makes of a category that is not the name or id of a suite. -/
theorem selectFrom_category_iff {file : SourceFile} (hinitials : InitialsDiffer files)
    (hfile : file ∈ files) (hnamed : ¬ IsNamed files (toLower file.category)) :
    selectFrom (toLower (prettify file.category)) (test_registry files)
        = (test_registry files).filter (fun suite => suite.category = file.category)
      ↔ 95 ∉ file.category.tail ∨ SoleFile files file.category := by
  refine ⟨?_, ?_⟩
  · intro h
    by_cases hmem : 95 ∈ file.category.tail
    · rcases exists_exactly (toLower (prettify file.category)) (test_registry files) with
        hnone | ⟨pre, suite, post, hsplit, hpre, hsuite⟩
      · exact Or.inl (not_mem_of_selectFrom hfile hnone h)
      · exact Or.inr (soleFile_of_selectFrom hmem hsplit hpre hsuite h)
    · exact Or.inl hmem
  · rintro (hkeeps | hsole)
    · exact selectFrom_of_not_mem hinitials hfile hnamed hkeeps
    · exact selectFrom_of_soleFile hinitials hsole

end Files

/-- The category is the name or id of a suite; or it is no command, and either has
    no underscore after its first byte or one file with its name. -/
def CategoryWorks (files : List SourceFile) (category : Bytes) : Prop :=
  IsNamed files (toLower category) ∨
    ¬ IsCommand (toLower category) ∧ (95 ∉ category.tail ∨ SoleFile files category)

/-- Requests for a category are exact when the category works. -/
theorem byCategory_iff {files : List SourceFile} {file : SourceFile}
    (hinitials : InitialsDiffer files) (hfile : file ∈ files) :
    (∀ requested more, toLower requested = toLower file.category →
        (∀ suite ∈ test_registry files, ¬ Exactly (toLower requested) suite) →
        (main (test_registry files) (requested :: more)).2.ran
          = (test_registry files).filter fun suite => suite.category = file.category)
      ↔ CategoryWorks files file.category := by
  have hnamed : (∀ suite ∈ test_registry files, ¬ Exactly (toLower file.category) suite)
      ↔ ¬ IsNamed files (toLower file.category) := by
    rw [← exists_exactly_iff]
    simp only [not_exists, not_and]
  refine ⟨?_, ?_⟩
  · intro h
    by_cases hname : IsNamed files (toLower file.category)
    · exact Or.inl hname
    have hlower : ¬ IsCommand (toLower file.category) := by
      intro hcommand
      -- in lower case the request is a command, and no suite runs
      have htwice := toLower_toLower file.category
      have hunnamed : ∀ suite ∈ test_registry files,
          ¬ Exactly (toLower (toLower file.category)) suite := by
        rw [htwice]
        exact hnamed.mpr hname
      have hran := h (toLower file.category) [] htwice hunnamed
      rw [main_ran, selected_cons, if_pos hcommand] at hran
      obtain ⟨suite, hmine⟩ := exists_mem_filter_category hfile
      rw [← hran] at hmine
      cases hmine
    have hcommand : ¬ IsCommand file.category := fun h => hlower (isCommand_toLower h)
    have hran := h file.category [] rfl (hnamed.mpr hname)
    rw [main_ran, selected_cons, if_neg hcommand] at hran
    exact Or.inr ⟨hlower, (selectFrom_category_iff hinitials hfile hname).mp hran⟩
  · rintro (hname | ⟨hlower, hworks⟩) requested more hcase hother
    · rw [hcase] at hother
      exact absurd hname (hnamed.mp hother)
    · have hcommand : ¬ IsCommand requested := by
        intro h
        exact hlower (hcase ▸ isCommand_toLower h)
      rw [hcase] at hother
      rw [main_ran, selected_cons, if_neg hcommand, toLower_prettify_congr hcase]
      exact (selectFrom_category_iff hinitials hfile (hnamed.mp hother)).mpr hworks

/-- **Selection is exact** when no two categories share a first letter, no name
    comes before an id it equals, and every category is answered. -/
theorem exactSelection_iff (files : List SourceFile) :
    ExactSelection files
      ↔ InitialsDiffer files ∧ IdsFree files ∧
        ∀ file ∈ files, CategoryWorks files file.category := by
  refine ⟨?_, ?_⟩
  · intro h
    have hinitials := (ids_nodup_iff files).mp h.ids
    exact ⟨hinitials, (byId_iff h.ids).mp h.byId,
      fun file hfile => (byCategory_iff hinitials hfile).mp (h.byCategory file hfile)⟩
  · rintro ⟨hinitials, hfree, hworks⟩
    have hids := (ids_nodup_iff files).mpr hinitials
    exact ⟨hids, (byId_iff hids).mpr hfree,
      fun file hfile => (byCategory_iff hinitials hfile).mpr (hworks file hfile)⟩

/-- Two directories share the id `U1`; and `rate_limit` is searched for as
    "rate limit". -/
theorem unit_utility_rate_limit_not_exact :
    (¬ ExactSelection
      [⟨bytes "suite/unit/clock.cpp", [], by decide⟩,
        ⟨bytes "suite/utility/random.cpp", [], by decide⟩])
      ∧ ¬ ExactSelection [⟨bytes "suite/rate_limit/burst.cpp", [], by decide⟩] := by
  refine ⟨?_, ?_⟩
  · intro h
    exact absurd h.ids (by decide)
  · intro h
    have hran := h.byCategory _ (List.mem_singleton_self _) (bytes "rate_limit") [] rfl (by decide)
    exact absurd (congrArg List.length hran) (by decide)

end TestRunner
end RateThrottle
