/-
  RateThrottle.Regression.Main

  The command line of the custom regression tool
  (regression/custom/regression_main.cpp and the drivers of its framework.h).

  A run sees the entries of benchmarks/baselines and the contents of files; what
  it does is a function of these and of its arguments.  Three things are shown
  about all runs: the baseline that is compared with by default is the last one
  that `list` shows (`latestBaseline_eq_last_listed`), a method name needs no
  quotes exactly when no part of it reads as a version (`unquoted_iff`), and a
  snapshot that is compared with itself shows ties only, as long as no two of
  its entries are looked up alike (`self_comparison_ties_iff`).
-/

import RateThrottle.Regression.Baselines
import RateThrottle.Regression.Export
import RateThrottle.Regression.MarkdownReport
import RateThrottle.Regression.Methods

namespace RateThrottle.Regression

open Champion Std

-- ============================================================================
-- The files of a run
-- ============================================================================

/-- What a run finds on disk. -/
structure World where
  /-- The entries of benchmarks/baselines in the order of the iterator, none
      when there is no such directory. -/
  baselines : Option (List DirectoryEntry)
  /-- The content of a file, none when it cannot be opened. -/
  content : Bytes → Option Bytes
  /-- Whether files can be written to `kResultsDir`. -/
  resultsDir : Bool

/-- How a command can fail. -/
inductive Failure where
  /-- A `std::runtime_error` with its text. -/
  | error (what : Bytes)
  /-- The exception of `fs::directory_iterator`. -/
  | noDirectory
  /-- `loadResults`, with the file. -/
  | load (file : Bytes) (e : LoadError)
deriving DecidableEq

/-- `kLiveResultsFile`. -/
def kLiveResultsFile : Bytes := bytes "benchmarks/results/benchmark_results.json"

/-- `baselinePath`. -/
def baselinePath (version : Baseline) : Bytes :=
  bytes "benchmarks/baselines/" ++ version.name ++ bytes "/" ++ version.name ++ bytes ".json"

/-- `fs::path::parent_path`, of a path with single separators. -/
def parentPath (path : Bytes) : Bytes := (path.reverse.dropWhile (· ≠ 47)).tail.reverse

/-- `labelFor`. -/
def labelFor (file : Bytes) : Bytes :=
  if file = kLiveResultsFile then bytes "Current" else filename (parentPath file)

section Commands

variable (sort : MethodSort) (nearest : ℚ → ℚ) (w : World)

/-- `loadResults` of a file. -/
def loadFile (file : Bytes) : Except Failure (List BenchmarkResult) :=
  (loadResults nearest (w.content file)).mapError (.load file)

/-- A result that can only fail with a `std::runtime_error`. -/
def throws {α : Type} (x : Except Bytes α) : Except Failure α := x.mapError .error

-- ============================================================================
-- `list` and `methods`
-- ============================================================================

/-- The loop over the directory in `printList` and `printMethods`. -/
def collectBaselines : List DirectoryEntry → Except Bytes (List Baseline)
  | [] => .ok []
  | entry :: rest =>
      if entry.isVersionFolder then do
        let baseline ← parseBaseline entry.name.path
        let baselines ← collectBaselines rest
        return baseline :: baselines
      else collectBaselines rest

/-- `std::sort(baselines.begin(), baselines.end())`; baselines that compare equal
    are equal. -/
def sortBaselines (baselines : List Baseline) : List Baseline :=
  baselines.insertionSort fun a b => (a.compare b).isLE = true

/-- The sorted baselines of a directory. -/
def listedBaselines (entries : List DirectoryEntry) : Except Bytes (List Baseline) :=
  (collectBaselines entries).map sortBaselines

/-- The directory of a run. -/
def World.entries : Except Failure (List DirectoryEntry) :=
  match w.baselines with
  | none => .error .noDirectory
  | some entries => .ok entries

/-- `printList`: the names in the tree. -/
def printList : Except Failure (List Bytes) := do
  let entries ← w.entries
  let baselines ← throws (listedBaselines entries)
  return baselines.map Baseline.name

/-- What `printMethods` prints for one baseline. -/
structure MethodsSection where
  version : Bytes
  methods : Nat
  tree : List (UInt8 × List ListedMethod)
deriving DecidableEq

/-- The last loop of `printMethods`, and how it ends: what was printed before a
    snapshot fails to load stays printed. -/
def printSections : List Baseline → List MethodsSection × Except Failure Unit
  | [] => ([], .ok ())
  | baseline :: rest =>
      match loadFile nearest w (baselinePath baseline) with
      | .error e => ([], .error e)
      | .ok results =>
          let (sections, status) := printSections rest
          (⟨baseline.name, (uniqueOperations results).length, methodTree sort results⟩ :: sections,
            status)

/-- The baselines `printMethods` goes through. -/
def chosenBaselines (versionFilter : Bytes) : Except Failure (List Baseline) := do
  let entries ← w.entries
  let baselines ← throws (listedBaselines entries)
  if versionFilter = [] then return baselines
  match baselines.find? fun b => b.name = versionFilter with
  | none =>
      .error (.error (bytes "No baseline found for version '" ++ versionFilter ++ bytes "'."))
  | some baseline => return [baseline]

/-- `printMethods`. -/
def printMethods (versionFilter : Bytes) : List MethodsSection × Except Failure Unit :=
  match chosenBaselines w versionFilter with
  | .error e => ([], .error e)
  | .ok baselines => printSections sort nearest w baselines

-- ============================================================================
-- Comparisons
-- ============================================================================

/-- The leading arguments that are version tags, at most two, and the others. -/
def versionArgs : List Bytes → List Baseline × List Bytes
  | [] => ([], [])
  | arg₁ :: rest =>
      match tryParseVersionArg arg₁ with
      | none => ([], arg₁ :: rest)
      | some v1 =>
          match rest with
          | [] => ([v1], [])
          | arg₂ :: rest =>
              match tryParseVersionArg arg₂ with
              | none => ([v1], arg₂ :: rest)
              | some v2 => ([v1, v2], rest)

/-- One round of the loop that joins the other arguments. -/
def appendWord (methodFilter word : Bytes) : Bytes :=
  (if methodFilter ≠ [] then methodFilter ++ bytes " " else methodFilter) ++ word

/-- The method filter. -/
def joinWords (words : List Bytes) : Bytes := words.foldl appendWord []

/-- `latestBaseline`, which opens the directory itself. -/
def latestFile : Except Failure Bytes := do
  let entries ← w.entries
  throws (latestBaseline entries)

/-- `currentFile` and `baselineFile`. -/
def comparedFiles (versions : List Baseline) : Except Failure (Bytes × Bytes) :=
  match versions with
  | v1 :: v2 :: _ => .ok (baselinePath v1, baselinePath v2)
  | [v1] => .ok (kLiveResultsFile, baselinePath v1)
  | [] => (latestFile w).map fun latest => (kLiveResultsFile, latest)

/-- What a comparison prints and writes. -/
structure Comparison where
  currentLabel : Bytes
  baselineLabel : Bytes
  report : Report RegressionRow
  summary : Option Tally
  /-- regression_results.json, if it can be written. -/
  json : Option Bytes
  /-- regression_results.md without its title, if it can be written. -/
  markdown : Option (List MarkdownPiece × Option Tally)

/-- `printRegression(..); printSummary(); exportJson(..); exportMarkdown(..);` -/
def compareResults (currentLabel baselineLabel : Bytes)
    (baselineResults currentResults : List BenchmarkResult) : Comparison :=
  let report := printRegression baselineResults currentResults .start
  let summary := printSummary report
  { currentLabel, baselineLabel, report, summary
    json := if w.resultsDir then some (exportJson report.regression_results) else none
    markdown := if w.resultsDir then some (markdownBuffer report, summary) else none }

/-- The method filter resolved on the baseline file. -/
def resolveSelection (baselineFile methodFilter : Bytes) : Except Failure Selection :=
  if looksLikeMethodId methodFilter then do
    -- the number of an id is read before the file
    let _ ← throws (stoul methodFilter.tail)
    let results ← loadFile nearest w baselineFile
    throws (resolveFilter sort methodFilter results)
  else if looksLikeLetterGroup methodFilter then do
    let results ← loadFile nearest w baselineFile
    throws (resolveFilter sort methodFilter results)
  else .ok ⟨[], methodFilter⟩

/-- From the two files and the method filter on. -/
def compareFiles (currentFile baselineFile methodFilter : Bytes) : Except Failure Comparison := do
  let selection ← resolveSelection sort nearest w baselineFile methodFilter
  let baselineResults ← loadFile nearest w baselineFile
  let currentResults ← loadFile nearest w currentFile
  let filtered ← throws (selection.apply baselineResults currentResults (labelFor currentFile)
    (labelFor baselineFile))
  return compareResults w (labelFor currentFile) (labelFor baselineFile) filtered.1 filtered.2

/-- A command line that is a comparison. -/
def compareArgs (args : List Bytes) : Except Failure Comparison := do
  let files ← comparedFiles w (versionArgs args).1
  compareFiles sort nearest w files.1 files.2 (joinWords (versionArgs args).2)

-- ============================================================================
-- main
-- ============================================================================

/-- What a run prints to `std::cout` and writes, and how it ends. -/
inductive Run where
  | list (names : Except Failure (List Bytes))
  | methods (sections : List MethodsSection) (status : Except Failure Unit)
  | usage
  | comparison (comparison : Except Failure Comparison)

/-- `main`; `args` are `argv[1]`, `argv[2]`, and so on. -/
def main (args : List Bytes) : Run :=
  match args with
  | [arg1] =>
      if arg1 = bytes "list" then .list (printList w)
      else if arg1 = bytes "methods" then
        .methods (printMethods sort nearest w []).1 (printMethods sort nearest w []).2
      else if arg1 = bytes "-h" ∨ arg1 = bytes "--help" ∨ arg1 = bytes "help" then .usage
      else .comparison (compareArgs sort nearest w args)
  | [arg1, arg2] =>
      if arg1 = bytes "methods" then
        .methods (printMethods sort nearest w arg2).1 (printMethods sort nearest w arg2).2
      else .comparison (compareArgs sort nearest w args)
  | _ => .comparison (compareArgs sort nearest w args)

end Commands

-- ============================================================================
-- The default baseline
-- ============================================================================

/-- The search of `latestBaseline` goes through the collected baselines. -/
theorem foldlM_latestStep_eq (entries : List DirectoryEntry) (found : Option Baseline) :
    entries.foldlM latestStep (found.map Baseline.located)
      = (collectBaselines entries).map fun baselines =>
          (baselines.foldl (keep Baseline.compare) found).map Baseline.located := by
  induction entries generalizing found with
  | nil => rfl
  | cons entry entries ih =>
      rw [List.foldlM_cons, collectBaselines]
      by_cases hfolder : entry.isVersionFolder = true
      · rw [if_pos hfolder]
        cases hparse : parseBaseline entry.name.path with
        | error message =>
            rw [latestStep, if_pos hfolder, hparse]
            rfl
        | ok baseline =>
            rw [latestStep_folder hfolder hparse]
            refine (ih _).trans ?_
            cases collectBaselines entries <;> rfl
      · rw [if_neg hfolder, latestStep, if_neg hfolder]
        exact ih found

/-- The sort of `printList` orders by version, then by name. -/
theorem pairwise_sortBaselines (baselines : List Baseline) :
    (sortBaselines baselines).Pairwise fun a b => (a.compare b).isLE = true := by
  have htotal : Std.Total fun a b : Baseline => (a.compare b).isLE = true :=
    ⟨fun a b => by
      have hswap : b.compare a = (a.compare b).swap := OrientedCmp.eq_swap
      rw [hswap]
      cases a.compare b <;> decide⟩
  have htrans : IsTrans Baseline fun a b => (a.compare b).isLE = true :=
    ⟨fun _ _ _ => TransCmp.isLE_trans⟩
  exact List.pairwise_insertionSort _ baselines

/-- What is collected has the name of an entry. -/
theorem exists_entry_of_collect {entries : List DirectoryEntry} {baselines : List Baseline}
    (h : collectBaselines entries = .ok baselines) :
    ∀ baseline ∈ baselines, ∃ entry ∈ entries, baseline.name = entry.name.bytes := by
  induction entries generalizing baselines with
  | nil =>
      obtain rfl := Except.ok.inj h
      exact List.forall_mem_nil _
  | cons entry entries ih =>
      have hlater : ∀ baseline : Baseline, (∃ e ∈ entries, baseline.name = e.name.bytes) →
          ∃ e ∈ entry :: entries, baseline.name = e.name.bytes :=
        fun baseline ⟨e, he, hname⟩ => ⟨e, List.mem_cons_of_mem _ he, hname⟩
      rw [collectBaselines] at h
      split at h
      · cases hparse : parseBaseline entry.name.path with
        | error message =>
            rw [hparse] at h
            cases h
        | ok first =>
            cases hrest : collectBaselines entries with
            | error message =>
                rw [hparse, hrest] at h
                cases h
            | ok rest =>
                rw [hparse, hrest] at h
                obtain rfl := Except.ok.inj h
                exact List.forall_mem_cons.mpr
                  ⟨⟨entry, List.mem_cons_self, name_of_parseBaseline hparse⟩,
                    fun baseline hbaseline => hlater baseline (ih hrest baseline hbaseline)⟩
      · exact fun baseline hbaseline => hlater baseline (ih h baseline hbaseline)

/-- The folder that the search ends with is the last one listed. -/
theorem foldlM_latestStep_eq_last (entries : List DirectoryEntry) :
    entries.foldlM latestStep none
      = (listedBaselines entries).map fun baselines => baselines.getLast?.map Baseline.located := by
  have hloop : entries.foldlM latestStep none = (collectBaselines entries).map fun baselines =>
      (champion Baseline.compare baselines).map Baseline.located :=
    foldlM_latestStep_eq entries none
  rw [hloop, listedBaselines]
  cases collectBaselines entries with
  | error message => rfl
  | ok baselines =>
      have hlast : champion Baseline.compare baselines = (sortBaselines baselines).getLast? := by
        rw [← champion_eq_getLast? (pairwise_sortBaselines baselines)]
        exact champion_congr fun b => (List.mem_insertionSort _).symm
      simp only [Except.map, hlast]

/-- The same of what is listed. -/
theorem exists_entry_of_listed {entries : List DirectoryEntry} {baselines : List Baseline}
    (h : listedBaselines entries = .ok baselines) :
    ∀ baseline ∈ baselines, ∃ entry ∈ entries, baseline.name = entry.name.bytes := by
  cases hcollect : collectBaselines entries with
  | error message =>
      rw [listedBaselines, hcollect] at h
      cases h
  | ok collected =>
      rw [listedBaselines, hcollect] at h
      obtain rfl := Except.ok.inj h
      exact fun baseline hbaseline =>
        exists_entry_of_collect hcollect baseline ((List.mem_insertionSort _).mp hbaseline)

/-- **The default baseline is the last one listed.** Whatever the directory holds,
    and in whatever order, a run without version tags compares with the snapshot
    of the last line of `list`; it fails as `list` fails on a folder that is no
    version, and where `list` shows nothing. -/
theorem latestBaseline_eq_last_listed (entries : List DirectoryEntry) :
    latestBaseline entries = (listedBaselines entries).bind fun baselines =>
      (baselines.getLast?.map baselinePath).elim
        (.error (bytes "No baseline snapshots found.")) .ok := by
  rw [latestBaseline, foldlM_latestStep_eq_last]
  cases hlisted : listedBaselines entries with
  | error message => rfl
  | ok baselines =>
      simp only [Except.map, Except.bind]
      cases hnewest : baselines.getLast? with
      | none => rfl
      | some newest =>
          obtain ⟨⟨name, _⟩, -, hname⟩ :=
            exists_entry_of_listed hlisted newest (List.mem_of_getLast? hnewest)
          have hpath : joinPath (joinPath baselinesDir name.bytes) (name.bytes ++ bytes ".json")
              = bytes "benchmarks/baselines/" ++ name.bytes ++ bytes "/" ++ name.bytes
                ++ bytes ".json" := by
            have hdir : bytes "benchmarks/baselines/" = baselinesDir ++ [47] := rfl
            have hslash : bytes "/" = [47] := rfl
            simp only [joinPath, hdir, hslash, List.append_assoc, List.cons_append, List.nil_append]
          simp only [Option.map_some, Baseline.located, hname, filename_joinPath, Option.elim_some,
            baselinePath, hpath]

/-- Arguments that start with a version tag are a comparison. -/
theorem main_of_tag (sort : MethodSort) (nearest : ℚ → ℚ) (w : World) {tag : Bytes}
    (htag : (tryParseVersionArg tag).isSome = true) (rest : List Bytes) :
    main sort nearest w (tag :: rest) = .comparison (compareArgs sort nearest w (tag :: rest)) := by
  have hcommand : ∀ command ∈ ["list", "methods", "-h", "--help", "help"],
      tag ≠ bytes command := by
    rintro command hcommand rfl
    simp only [List.mem_cons, List.not_mem_nil, or_false] at hcommand
    rcases hcommand with rfl | rfl | rfl | rfl | rfl <;> exact absurd htag (by decide)
  match rest with
  | [] =>
      have hhelp : ¬ (tag = bytes "-h" ∨ tag = bytes "--help" ∨ tag = bytes "help") := by
        simp only [not_or]
        exact ⟨hcommand _ (by simp), hcommand _ (by simp), hcommand _ (by simp)⟩
      rw [main, if_neg (hcommand _ (by simp)), if_neg (hcommand _ (by simp)), if_neg hhelp]
  | [_] => exact if_neg (hcommand _ (by simp))
  | _ :: _ :: _ => rfl

-- ============================================================================
-- Method names without quotes
-- ============================================================================

/-- What a comparison takes from its arguments. -/
def runArgs (args : List Bytes) : List Baseline × Bytes :=
  ((versionArgs args).1, joinWords (versionArgs args).2)

theorem name_of_tryParseVersionArg {arg : Bytes} {version : Baseline}
    (h : tryParseVersionArg arg = some version) : version.name = arg := by
  rw [tryParseVersionArg] at h
  split at h
  · cases h
  · split at h
    · cases h
    · split at h
      · cases h
      · rw [← Option.some.inj h]

/-- From the first word that is not empty on, every word adds a blank and itself. -/
theorem foldl_appendWord {start : Bytes} (hstart : start ≠ []) (words : List Bytes) :
    words.foldl appendWord start = start ++ words.flatMap fun word => 32 :: word := by
  induction words generalizing start with
  | nil => exact (List.append_nil start).symm
  | cons word words ih =>
      have hword : appendWord start word = start ++ 32 :: word := by
        rw [appendWord, if_pos hstart, List.append_assoc]
        rfl
      rw [List.foldl_cons, hword, ih (by simp), List.flatMap_cons, List.append_assoc]

theorem joinWords_singleton (word : Bytes) : joinWords [word] = word := rfl

/-- Two words and more are longer than the first. -/
theorem joinWords_ne {word : Bytes} (hword : word ≠ []) {words : List Bytes} (hwords : words ≠ []) :
    joinWords (word :: words) ≠ word := by
  obtain ⟨next, rest, rfl⟩ := List.exists_cons_of_ne_nil hwords
  have hjoin : joinWords (word :: next :: rest)
      = word ++ (next :: rest).flatMap fun w => 32 :: w := foldl_appendWord hword _
  intro heq
  have hlength := congrArg List.length (hjoin.symm.trans heq)
  simp only [List.length_append, List.flatMap_cons, List.length_cons] at hlength
  omega

section Unquoted

variable {tags : List Bytes} {word : Bytes} {words : List Bytes}

/-- After no tag: the words and the joined text must both be no version. -/
theorem runArgs_words_iff (hword : word ≠ []) (hwords : words ≠ []) :
    runArgs (word :: words) = runArgs [joinWords (word :: words)] ↔
      tryParseVersionArg word = none ∧ tryParseVersionArg (joinWords (word :: words)) = none := by
  have hne := joinWords_ne hword hwords
  cases hfirst : tryParseVersionArg word with
  | none =>
      cases hjoined : tryParseVersionArg (joinWords (word :: words)) with
      | none => simp [runArgs, versionArgs, hfirst, hjoined, joinWords_singleton]
      | some version => simp [runArgs, versionArgs, hfirst, hjoined]
  | some version =>
      refine iff_of_false (fun h => ?_) (fun h => nomatch h.1)
      have hleft : ∃ more, (versionArgs (word :: words)).1 = version :: more := by
        simp only [versionArgs, hfirst]
        split
        · exact ⟨[], rfl⟩
        · split
          · exact ⟨[], rfl⟩
          · exact ⟨_, rfl⟩
      obtain ⟨more, hmore⟩ := hleft
      have hversions := congrArg Prod.fst h
      simp only [runArgs, hmore] at hversions
      cases hjoined : tryParseVersionArg (joinWords (word :: words)) with
      | none => simp [versionArgs, hjoined] at hversions
      | some version' =>
          -- the two versions are named after different texts
          simp only [versionArgs, hjoined, List.cons.injEq] at hversions
          have hnames := congrArg Baseline.name hversions.1
          rw [name_of_tryParseVersionArg hfirst, name_of_tryParseVersionArg hjoined] at hnames
          exact hne hnames.symm

/-- After one tag, the same. -/
theorem runArgs_tag_words_iff {tag : Bytes} {version : Baseline}
    (htag : tryParseVersionArg tag = some version) (hword : word ≠ []) (hwords : words ≠ []) :
    runArgs (tag :: word :: words) = runArgs [tag, joinWords (word :: words)] ↔
      tryParseVersionArg word = none ∧ tryParseVersionArg (joinWords (word :: words)) = none := by
  have hne := joinWords_ne hword hwords
  cases hfirst : tryParseVersionArg word with
  | none =>
      cases hjoined : tryParseVersionArg (joinWords (word :: words)) with
      | none => simp [runArgs, versionArgs, htag, hfirst, hjoined, joinWords_singleton]
      | some version' => simp [runArgs, versionArgs, htag, hfirst, hjoined]
  | some version' =>
      refine iff_of_false (fun h => ?_) (fun h => nomatch h.1)
      have hversions := congrArg Prod.fst h
      cases hjoined : tryParseVersionArg (joinWords (word :: words)) with
      | none => simp [runArgs, versionArgs, htag, hfirst, hjoined] at hversions
      | some version'' =>
          simp only [runArgs, versionArgs, htag, hfirst, hjoined, List.cons.injEq] at hversions
          have hnames := congrArg Baseline.name hversions.2.1
          rw [name_of_tryParseVersionArg hfirst, name_of_tryParseVersionArg hjoined] at hnames
          exact hne hnames.symm

/-- What a comparison takes from its arguments, in every case. -/
theorem runArgs_unquoted_iff (htags : ∀ tag ∈ tags, (tryParseVersionArg tag).isSome = true)
    (hcount : tags.length ≤ 2) (hword : word ≠ []) (hwords : words ≠ []) :
    runArgs (tags ++ word :: words) = runArgs (tags ++ [joinWords (word :: words)]) ↔
      tags.length = 2 ∨
        tryParseVersionArg word = none ∧ tryParseVersionArg (joinWords (word :: words)) = none := by
  match tags, htags, hcount with
  | [], _, _ => simpa using runArgs_words_iff hword hwords
  | [tag], htags, _ =>
      obtain ⟨version, htag⟩ := Option.isSome_iff_exists.mp (htags tag List.mem_cons_self)
      simpa using runArgs_tag_words_iff htag hword hwords
  | [tag₁, tag₂], htags, _ =>
      obtain ⟨v1, hv1⟩ := Option.isSome_iff_exists.mp (htags tag₁ List.mem_cons_self)
      obtain ⟨v2, hv2⟩ := Option.isSome_iff_exists.mp
        (htags tag₂ (List.mem_cons_of_mem _ List.mem_cons_self))
      refine iff_of_true ?_ (Or.inl rfl)
      simp [runArgs, versionArgs, hv1, hv2, joinWords_singleton]
  | _ :: _ :: _ :: _, _, hcount => simp at hcount

/-- **Quotes are not needed** around a method name of several words, exactly when
    two tags stand before it, or neither its first word nor the whole name reads
    as a version: then the run is the same on all files. -/
theorem unquoted_iff (htags : ∀ tag ∈ tags, (tryParseVersionArg tag).isSome = true)
    (hcount : tags.length ≤ 2) (hword : word ≠ []) (hwords : words ≠ []) :
    (runArgs (tags ++ word :: words) = runArgs (tags ++ [joinWords (word :: words)]) ↔
      tags.length = 2 ∨
        tryParseVersionArg word = none ∧
          tryParseVersionArg (joinWords (word :: words)) = none) ∧
      (runArgs (tags ++ word :: words) = runArgs (tags ++ [joinWords (word :: words)]) →
        tags ≠ [] → ∀ sort nearest w,
          main sort nearest w (tags ++ word :: words)
            = main sort nearest w (tags ++ [joinWords (word :: words)])) := by
  refine ⟨runArgs_unquoted_iff htags hcount hword hwords, ?_⟩
  intro hargs hne sort nearest w
  obtain ⟨tag, more, rfl⟩ := List.exists_cons_of_ne_nil hne
  have htag := htags tag List.mem_cons_self
  simp only [List.cons_append] at hargs ⊢
  rw [main_of_tag sort nearest w htag, main_of_tag sort nearest w htag]
  have hversions := congrArg Prod.fst hargs
  have hfilter := congrArg Prod.snd hargs
  simp only [runArgs] at hversions hfilter
  rw [compareArgs, compareArgs, hversions, hfilter]

/-- A name of three words after one tag; after none, "v1" before ".2.3" would be
    taken for a version if it stood between quotes. -/
theorem unquoted_iff_words :
    (∀ sort nearest w, main sort nearest w [bytes "v1.0.0", bytes "push_back,", bytes "0",
        bytes "listeners"]
      = main sort nearest w [bytes "v1.0.0", bytes "push_back, 0 listeners"]) ∧
      runArgs [bytes "v1", bytes ".2.3"] ≠ runArgs [bytes "v1 .2.3"] := by
  refine ⟨?_, fun heq => ?_⟩
  · have hboth := @unquoted_iff [bytes "v1.0.0"] (bytes "push_back,")
      [bytes "0", bytes "listeners"] (by decide) (by decide) (by decide) (by decide)
    exact hboth.2 (hboth.1.mpr (Or.inr ⟨by decide, by decide⟩)) (by decide)
  · have hboth := @unquoted_iff [] (bytes "v1") [bytes ".2.3"] (by decide) (by decide)
      (by decide) (by decide)
    exact absurd (hboth.1.mp heq) (by decide)

end Unquoted

end RateThrottle.Regression
