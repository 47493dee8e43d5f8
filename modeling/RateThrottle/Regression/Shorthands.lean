/-
  RateThrottle.Regression.Shorthands

  The ids of `methods` as arguments of a comparison, over whole runs of the
  custom regression tool.

  One command prints a tree of ids from the snapshots it finds in the directory,
  another one, given version tags or none, finds its own snapshot and looks an id
  up there.  Where the second one compares with the version that the first one
  printed the tree for, an id is a shorthand of the name beside it: the two runs
  are the same, from the tables down to the error (`ids_are_shorthands`).
-/

import RateThrottle.Regression.Main

namespace RateThrottle.Regression

open Adjacent Decimal IStream

-- ============================================================================
-- What a listing prints
-- ============================================================================

/-- The run prints the group under the version. -/
inductive Prints : Run → Bytes → UInt8 → List ListedMethod → Prop
  | mk {sections : List MethodsSection} {status : Except Failure Unit} {part : MethodsSection}
      {letter : UInt8} {listed : List ListedMethod}
      (hpart : part ∈ sections) (hgroup : (letter, listed) ∈ part.tree) :
      Prints (.methods sections status) part.version letter listed

section Listing

variable {sort : MethodSort} {nearest : ℚ → ℚ} {w : World}

/-- A section is the tree of a snapshot that was loaded. -/
theorem of_mem_printSections {baselines : List Baseline} {part : MethodsSection}
    (h : part ∈ (printSections sort nearest w baselines).1) :
    ∃ baseline ∈ baselines, ∃ results, loadFile nearest w (baselinePath baseline) = .ok results ∧
      part = ⟨baseline.name, (uniqueOperations results).length, methodTree sort results⟩ := by
  induction baselines with
  | nil => exact absurd h List.not_mem_nil
  | cons baseline baselines ih =>
      rw [printSections] at h
      cases hload : loadFile nearest w (baselinePath baseline) with
      | error e =>
          rw [hload] at h
          exact absurd h List.not_mem_nil
      | ok results =>
          rw [hload] at h
          rcases List.mem_cons.mp h with rfl | hlater
          · exact ⟨baseline, List.mem_cons_self, results, hload, rfl⟩
          · obtain ⟨other, hother, hrest⟩ := ih hlater
            exact ⟨other, List.mem_cons_of_mem _ hother, hrest⟩

/-- The same for `methods` of one version or of all. -/
theorem of_mem_printMethods {versionFilter : Bytes} {part : MethodsSection}
    (h : part ∈ (printMethods sort nearest w versionFilter).1) :
    ∃ baseline results, loadFile nearest w (baselinePath baseline) = .ok results ∧
      part = ⟨baseline.name, (uniqueOperations results).length, methodTree sort results⟩ := by
  rw [printMethods] at h
  cases hchosen : chosenBaselines w versionFilter with
  | error e =>
      rw [hchosen] at h
      exact absurd h List.not_mem_nil
  | ok baselines =>
      rw [hchosen] at h
      obtain ⟨baseline, -, hrest⟩ := of_mem_printSections h
      exact ⟨baseline, hrest⟩

/-- A command line that prints sections is that of `methods`. -/
theorem exists_printMethods {args : List Bytes} {sections : List MethodsSection}
    {status : Except Failure Unit} (h : main sort nearest w args = .methods sections status) :
    ∃ versionFilter, sections = (printMethods sort nearest w versionFilter).1 := by
  rcases args with _ | ⟨arg1, _ | ⟨arg2, _ | ⟨arg3, more⟩⟩⟩
  · cases h
  · rw [main] at h
    split at h
    · cases h
    · split at h
      · exact ⟨[], (Run.methods.inj h).1.symm⟩
      · split at h
        · cases h
        · cases h
  · rw [main] at h
    split at h
    · exact ⟨arg2, (Run.methods.inj h).1.symm⟩
    · cases h
  · cases h

/-- What is printed under a version is the group of its snapshot. -/
theorem of_prints {args : List Bytes} {version : Bytes} {letter : UInt8}
    {listed : List ListedMethod} (h : Prints (main sort nearest w args) version letter listed)
    {baseline : Baseline} (hversion : baseline.name = version) :
    ∃ results, loadFile nearest w (baselinePath baseline) = .ok results ∧
      (letter, listed) ∈ methodTree sort results := by
  generalize hrun : main sort nearest w args = run at h
  obtain ⟨hpart, hgroup⟩ := h
  obtain ⟨versionFilter, rfl⟩ := exists_printMethods hrun
  obtain ⟨found, results, hload, rfl⟩ := of_mem_printMethods hpart
  refine ⟨results, ?_, hgroup⟩
  rw [baselinePath, hversion]
  exact hload

end Listing

theorem mem_uniqueOperationsFrom {operations : List Bytes} {results : List BenchmarkResult}
    {operation : Bytes} :
    operation ∈ uniqueOperationsFrom operations results
      ↔ operation ∈ operations ∨ ∃ result ∈ results, result.operation = operation := by
  fun_induction uniqueOperationsFrom operations results with
  | case1 operations => simp
  | case2 operations result rest hmem ih =>
      rw [ih]
      simp only [List.mem_cons, exists_eq_or_imp]
      refine ⟨Or.imp_right Or.inr, ?_⟩
      rintro (hold | rfl | hrest)
      · exact Or.inl hold
      · exact Or.inl hmem
      · exact Or.inr hrest
  | case3 operations result rest hnew ih =>
      rw [ih]
      simp only [List.mem_append, List.mem_cons, List.not_mem_nil, or_false, exists_eq_or_imp,
        or_assoc, eq_comm (a := operation)]

theorem mem_uniqueOperations {results : List BenchmarkResult} {operation : Bytes} :
    operation ∈ uniqueOperations results ↔ ∃ result ∈ results, result.operation = operation := by
  rw [uniqueOperations, mem_uniqueOperationsFrom]
  simp

/-- A group has operations of the snapshot only. -/
theorem exists_result_of_group {sort : MethodSort} {results : List BenchmarkResult}
    {letter : UInt8} {members : List Bytes}
    (hgroup : (letter, members) ∈ groupMethodsByLetter sort (uniqueOperations results))
    {operation : Bytes} (hmem : operation ∈ members) :
    ∃ result ∈ results, result.operation = operation := by
  have hall : operation ∈ (groupMethodsByLetter sort (uniqueOperations results)).flatMap Prod.snd :=
    List.mem_flatMap.mpr ⟨_, hgroup, hmem⟩
  rw [groupMethodsByLetter, flatMap_group] at hall
  exact mem_uniqueOperations.mp ((sort.perm _).mem_iff.mp hall)

-- ============================================================================
-- Arguments
-- ============================================================================

/-- The arguments that `main` compares with texts. -/
def commands : List Bytes :=
  [bytes "list", bytes "methods", bytes "-h", bytes "--help", bytes "help"]

/-- The argument is one of them. -/
def isCommand (word : Bytes) : Bool := commands.contains word

/-- After the tags, the word is a method name that `main` takes as it stands. -/
structure TakenAsName (tags : List Bytes) (word : Bytes) : Prop where
  id : looksLikeMethodId word = false
  letter : looksLikeLetterGroup word = false
  version : tags.length = 2 ∨ tryParseVersionArg word = none
  command : tags = [] → isCommand word = false

/-- The texts of commands are no ids and no letters. -/
theorem isCommand_of_digits {c : UInt8} {rest : Bytes} (hrest : rest.all isDigit = true) :
    isCommand (c :: rest) = false := by
  rw [isCommand, ← Bool.not_eq_true, List.contains_iff_mem]
  intro hmem
  have hcommand : ∀ command ∈ commands, command.tail.all isDigit = false := by
    simp only [commands, List.forall_mem_cons, List.not_mem_nil, false_imp_iff, implies_true,
      and_true]
    exact ⟨rfl, rfl, rfl, rfl, rfl⟩
  have hnot := hcommand _ hmem
  rw [List.tail_cons, hrest] at hnot
  cases hnot

/-- A version has dots. -/
theorem tryParseVersionArg_of_digits {c : UInt8} {rest : Bytes}
    (hrest : rest.all isDigit = true) : tryParseVersionArg (c :: rest) = none := by
  cases hparse : tryParseVersionArg (c :: rest) with
  | none => rfl
  | some version =>
      obtain ⟨-, -, text, more, htail, hgrammar, -⟩ := tryParseVersionArg_eq_some_iff.mp hparse
      obtain ⟨hmajor, ⟨space, hspace, hdot, rfl⟩, hminor, hdot2, hpatch⟩ := hgrammar
      have hmem : 46 ∈ rest := by
        rw [show rest = (c :: rest).tail from rfl, htail]
        simp
      exact absurd (List.all_eq_true.mp hrest 46 hmem) (by decide)

section Runs

variable {sort : MethodSort} {nearest : ℚ → ℚ} {w : World} {tags : List Bytes} {word : Bytes}

theorem versionArgs_concat (htags : ∀ tag ∈ tags, (tryParseVersionArg tag).isSome = true)
    (hcount : tags.length ≤ 2) (hword : tags.length = 2 ∨ tryParseVersionArg word = none) :
    versionArgs (tags ++ [word]) = ((versionArgs tags).1, [word]) := by
  match tags, htags, hcount, hword with
  | [], _, _, Or.inr hnone => simp [versionArgs, hnone]
  | [tag], htags, _, Or.inr hnone =>
      obtain ⟨version, htag⟩ := Option.isSome_iff_exists.mp (htags tag List.mem_cons_self)
      simp [versionArgs, htag, hnone]
  | [tag₁, tag₂], htags, _, _ =>
      obtain ⟨v1, hv1⟩ := Option.isSome_iff_exists.mp (htags tag₁ List.mem_cons_self)
      obtain ⟨v2, hv2⟩ := Option.isSome_iff_exists.mp
        (htags tag₂ (List.mem_cons_of_mem _ List.mem_cons_self))
      simp [versionArgs, hv1, hv2]
  | _ :: _ :: _ :: _, _, hcount, _ => simp at hcount

/-- Tags and one more word that is no command and no version are a comparison of
    the files that the tags stand for. -/
theorem main_concat (htags : ∀ tag ∈ tags, (tryParseVersionArg tag).isSome = true)
    (hcount : tags.length ≤ 2) (hword : tags.length = 2 ∨ tryParseVersionArg word = none)
    (hcommand : tags = [] → isCommand word = false) {currentFile baselineFile : Bytes}
    (hfiles : comparedFiles w (versionArgs tags).1 = .ok (currentFile, baselineFile)) :
    main sort nearest w (tags ++ [word])
      = .comparison (compareFiles sort nearest w currentFile baselineFile word) := by
  have hcompare : compareArgs sort nearest w (tags ++ [word])
      = compareFiles sort nearest w currentFile baselineFile word := by
    rw [compareArgs, versionArgs_concat htags hcount hword, hfiles, joinWords_singleton]
    rfl
  cases tags with
  | nil =>
      have hnot := hcommand rfl
      simp only [isCommand, commands, List.contains_cons, List.contains_nil, Bool.or_false,
        Bool.or_eq_false_iff, beq_eq_false_iff_ne] at hnot
      obtain ⟨hlist, hmethods, hshort, hlong, hhelp⟩ := hnot
      rw [← hcompare, List.nil_append, main, if_neg hlist, if_neg hmethods,
        if_neg (by simp [hshort, hlong, hhelp])]
  | cons tag more =>
      rw [List.cons_append, main_of_tag sort nearest w (htags tag List.mem_cons_self),
        ← hcompare, List.cons_append]

/-- Where a filter is resolved once the snapshot is there, the tool resolves it. -/
theorem resolveSelection_eq_ok {baselineFile : Bytes} {results : List BenchmarkResult}
    (hload : loadFile nearest w baselineFile = .ok results) {selection : Selection}
    (hresolved : resolveFilter sort word results = .ok selection) :
    resolveSelection sort nearest w baselineFile word = .ok selection := by
  have hthrows : throws (resolveFilter sort word results) = .ok selection := by
    rw [hresolved]
    rfl
  rw [resolveSelection]
  split
  · next hshape =>
      cases hnumber : stoul word.tail with
      | error message =>
          rw [resolveFilter, if_pos hshape, resolveMethodId, hnumber] at hresolved
          cases hresolved
      | ok number =>
          rw [hload]
          exact hthrows
  · next hid =>
      split
      · rw [hload]
        exact hthrows
      · next hletter =>
          rw [resolveFilter, if_neg hid, if_neg hletter] at hresolved
          exact congrArg Except.ok (Except.ok.inj hresolved)

/-- A resolved filter selects entries of both snapshots. -/
theorem compareFiles_of_resolved {currentFile baselineFile : Bytes}
    {results : List BenchmarkResult} (hload : loadFile nearest w baselineFile = .ok results)
    {selection : Selection} (hresolved : resolveFilter sort word results = .ok selection) :
    compareFiles sort nearest w currentFile baselineFile word
      = (loadFile nearest w currentFile).bind fun currentResults =>
          (throws (selection.apply results currentResults (labelFor currentFile)
            (labelFor baselineFile))).map fun filtered =>
              compareResults w (labelFor currentFile) (labelFor baselineFile) filtered.1
                filtered.2 := by
  rw [compareFiles, resolveSelection_eq_ok hload hresolved, hload]
  rfl

/-- A group has all entries of its operations, and no others. -/
theorem operations_keep {members : List Bytes} (hne : members ≠ []) {results : List BenchmarkResult}
    (hmembers : ∀ operation ∈ members, ∃ result ∈ results, result.operation = operation)
    (filter : Bytes) {operation : Bytes} :
    (∃ result ∈ (⟨members, filter⟩ : Selection).keep results, result.operation = operation)
      ↔ operation ∈ members := by
  simp only [Selection.mem_keep, Selection.covers, if_pos hne, decide_eq_true_eq]
  refine ⟨?_, fun hmem => ?_⟩
  · rintro ⟨result, ⟨-, hcovered⟩, rfl⟩
    exact hcovered
  · obtain ⟨result, hresult, rfl⟩ := hmembers operation hmem
    exact ⟨result, ⟨hresult, hmem⟩, rfl⟩

/-- The rows of a finished comparison are those of the selected entries. -/
theorem rows_of_selection {selection : Selection} {currentFile baselineFile : Bytes}
    {results : List BenchmarkResult} {comparison : Comparison}
    (h : ((loadFile nearest w currentFile).bind fun currentResults =>
      (throws (selection.apply results currentResults (labelFor currentFile)
        (labelFor baselineFile))).map fun filtered =>
          compareResults w (labelFor currentFile) (labelFor baselineFile) filtered.1 filtered.2)
      = .ok comparison) :
    ∃ current, comparison.report.regression_results
      = (selection.keep results).map (rowOf current) := by
  cases hcurrent : loadFile nearest w currentFile with
  | error e =>
      rw [hcurrent] at h
      cases h
  | ok currentResults =>
      rw [hcurrent] at h
      cases happly : selection.apply results currentResults (labelFor currentFile)
          (labelFor baselineFile) with
      | error message =>
          simp only [Except.bind, happly, throws, Except.mapError, Except.map] at h
          cases h
      | ok filtered =>
          simp only [Except.bind, happly, throws, Except.mapError, Except.map] at h
          obtain rfl := Except.ok.inj h
          refine ⟨filtered.2, ?_⟩
          rw [Selection.of_apply happly]
          exact regression_results_printRegression _ _ _

end Runs

/-- **Ids are shorthands.** Where a comparison, given tags or none, compares with a
    version that a run of `methods` has printed: an id under a letter, in either
    case, makes the same run as the name beside it, unless that name is itself an
    id, a letter, a version or a command; and the letter compares the operations
    printed under it and no others. -/
theorem ids_are_shorthands (sort : MethodSort) (nearest : ℚ → ℚ) (w : World)
    (hsize : ∀ file results, loadFile nearest w file = .ok results → results.length < 2 ^ 64)
    {args : List Bytes} {version : Bytes} {letter : UInt8} {listed : List ListedMethod}
    (hprints : Prints (main sort nearest w args) version letter listed)
    (halpha : isalpha letter = true) {tags : List Bytes}
    (htags : ∀ tag ∈ tags, (tryParseVersionArg tag).isSome = true) (hcount : tags.length ≤ 2)
    {baseline : Baseline} (hversion : baseline.name = version) {currentFile : Bytes}
    (hfiles : comparedFiles w (versionArgs tags).1 = .ok (currentFile, baselinePath baseline))
    {c : UInt8} (hc : EitherCase letter c) :
    (∀ method ∈ listed, TakenAsName tags method.name →
      main sort nearest w (tags ++ [c :: method.id.tail])
        = main sort nearest w (tags ++ [method.name])) ∧
      ∀ comparison, main sort nearest w (tags ++ [[c]]) = .comparison (.ok comparison) →
        ∀ operation, (∃ row ∈ comparison.report.regression_results, row.operation = operation)
          ↔ operation ∈ listed.map ListedMethod.name := by
  obtain ⟨results, hload, hprinted⟩ := of_prints hprints hversion
  obtain ⟨⟨_, members⟩, hgroup, heq⟩ := List.mem_map.mp hprinted
  obtain ⟨rfl, rfl⟩ := Prod.mk.inj heq
  obtain ⟨front, rfl⟩ := exists_toupper_of_group halpha hgroup
  obtain ⟨hletter, hupper⟩ := of_eitherCase halpha hc
  refine ⟨fun method hmethod htaken => ?_, fun comparison hrun operation => ?_⟩
  · obtain ⟨j, hmember, hid⟩ := mem_listed_iff.mp hmethod
    rw [hid, List.tail_cons]
    have hdigits : (decimal (j + 1)).all isDigit = true :=
      List.all_eq_true.mpr fun _ hd => isDigit_of_mem_decimal hd
    have hname : resolveFilter sort method.name results = .ok ⟨[], method.name⟩ := by
      rw [resolveFilter, htaken.id, htaken.letter]
      rfl
    rw [main_concat htags hcount (Or.inr (tryParseVersionArg_of_digits hdigits))
        (fun _ => isCommand_of_digits hdigits) hfiles,
      main_concat htags hcount htaken.version htaken.command hfiles,
      compareFiles_of_resolved hload
        (resolveFilter_id (hsize _ _ hload) hgroup halpha hletter hupper hmember),
      compareFiles_of_resolved hload hname]
  · rw [main_concat htags hcount (Or.inr (tryParseVersionArg_of_digits rfl))
        (fun _ => isCommand_of_digits rfl) hfiles,
      compareFiles_of_resolved hload
        (resolveFilter_header hgroup halpha hletter hupper)] at hrun
    obtain ⟨current, hrows⟩ := rows_of_selection (Run.comparison.inj hrun)
    have hmembers : ∀ operation ∈ members, ∃ result ∈ results, result.operation = operation :=
      fun _ => exists_result_of_group hgroup
    rw [hrows, map_name_listed, ← operations_keep (of_mem_group hgroup).1 hmembers [c]]
    simp only [List.mem_map, exists_exists_and_eq_and, rowOf]

/-- What is known of one version, by a snapshot of two operations. -/
def sampleWorld : World where
  baselines := some [⟨⟨bytes "v2.0.0", by decide⟩, true⟩]
  content := fun _ => some (bytes "[
    \x7b\"suite\":\"List\",\"operation\":\"push_back\",\"total_ns\":9,\"iterations\":9,
      \"ns_per_op\":1\x7d,
    \x7b\"suite\":\"List\",\"operation\":\"Pop\",\"total_ns\":9,\"iterations\":9,
      \"ns_per_op\":1\x7d]")
  resultsDir := false

theorem loadFile_sampleWorld (file : Bytes) :
    loadFile id sampleWorld file
      = .ok [⟨bytes "List", bytes "push_back", 9, 9, 1⟩, ⟨bytes "List", bytes "Pop", 9, 9, 1⟩] := by
  have hload : loadResults id (sampleWorld.content [])
      = .ok [⟨bytes "List", bytes "push_back", 9, 9, 1⟩,
          ⟨bytes "List", bytes "Pop", 9, 9, 1⟩] := by
    decide +kernel
  rw [loadFile, show sampleWorld.content file = sampleWorld.content [] from rfl, hload]
  rfl

/-- `regression v2.0.0 p2` is `regression v2.0.0 push_back`. -/
theorem ids_are_shorthands_push_back :
    main .insertion id sampleWorld [bytes "v2.0.0", bytes "p2"]
      = main .insertion id sampleWorld [bytes "v2.0.0", bytes "push_back"] := by
  have hchosen : chosenBaselines sampleWorld [] = .ok [⟨2, 0, 0, bytes "v2.0.0"⟩] := by
    decide +kernel
  have htree : methodTree .insertion
      [⟨bytes "List", bytes "push_back", 9, 9, 1⟩, ⟨bytes "List", bytes "Pop", 9, 9, 1⟩]
        = [(80, [⟨bytes "P1", bytes "Pop"⟩, ⟨bytes "P2", bytes "push_back"⟩])] := by
    decide +kernel
  have hprints : Prints (main .insertion id sampleWorld [bytes "methods"]) (bytes "v2.0.0") 80
      [⟨bytes "P1", bytes "Pop"⟩, ⟨bytes "P2", bytes "push_back"⟩] := by
    rw [main, if_neg (by decide), if_pos rfl]
    simp only [printMethods, hchosen, printSections, loadFile_sampleWorld, htree]
    exact .mk (List.mem_singleton_self _) (List.mem_singleton_self _)
  have htags : ∀ tag ∈ [bytes "v2.0.0"], (tryParseVersionArg tag).isSome = true := by
    simp only [List.forall_mem_singleton]
    decide
  have hboth := ids_are_shorthands .insertion id sampleWorld
    (fun file results hload => by
      rw [loadFile_sampleWorld] at hload
      obtain rfl := Except.ok.inj hload
      decide)
    hprints rfl htags (by decide)
    (show (⟨2, 0, 0, bytes "v2.0.0"⟩ : Baseline).name = bytes "v2.0.0" from rfl) rfl (Or.inr rfl)
  exact hboth.1 ⟨bytes "P2", bytes "push_back"⟩
    (List.mem_cons_of_mem _ (List.mem_singleton_self _))
    ⟨rfl, rfl, Or.inr (by decide), fun hnil => absurd hnil (List.cons_ne_nil _ _)⟩

end RateThrottle.Regression
