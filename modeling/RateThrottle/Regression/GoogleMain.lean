/-
  RateThrottle.Regression.GoogleMain

  The command line of the Google Benchmark regression tool
  (regression/google/regression_main.cpp and the drivers of its framework.h).

  Its functions that do not look at results have the text of those in
  regression/custom, and are modelled by the same definitions.  What is its own:
  the shape of a snapshot, the texts of two errors, and the folders it takes for
  versions.  Both tools share one directory; this one takes a folder only if its
  own snapshot is in it.

  So it lists what the other tool lists, less the folders without such a
  snapshot (`google_list_eq_filter`), and a file that it fails to open is never
  one that it has found in the directory itself (`google_opens`).
-/

import RateThrottle.Regression.Google
import RateThrottle.Regression.Main

namespace RateThrottle.GoogleRegression

open Champion Decimal Std
open Regression (Baseline DirectoryEntry EntryName Failure ListedMethod MethodSort MethodsSection
  Selection baselinesDir exists_entry_of_listed filename filename_joinPath frontLetter
  groupMethodsByLetter joinPath joinWords looksLikeLetterGroup looksLikeMethodId
  name_of_parseBaseline pairwise_sortBaselines parentPath parseBaseline sortBaselines startsWithV
  stoul throws versionArgs)

-- ============================================================================
-- The files of a run
-- ============================================================================

/-- What a run finds on disk, and the files it finds to exist. -/
structure World extends Regression.World where
  /-- `fs::exists`. -/
  present : Bytes → Bool

/-- `kLiveResultsFile`. -/
def kLiveResultsFile : Bytes := bytes "benchmarks/results/google_benchmark_results.json"

/-- The snapshot of this tool in the folder of a version. -/
def snapshotFile (name : Bytes) : Bytes :=
  bytes "benchmarks/baselines/" ++ name ++ bytes "/g" ++ name ++ bytes ".json"

/-- `baselinePath`. -/
def baselinePath (version : Baseline) : Bytes := snapshotFile version.name

/-- `labelFor`. -/
def labelFor (file : Bytes) : Bytes :=
  if file = kLiveResultsFile then bytes "Current" else filename (parentPath file)

-- ============================================================================
-- Names
-- ============================================================================

/-- `uniqueNames`, from the names collected so far. -/
def uniqueNamesFrom (names : List Bytes) : List BenchmarkResult → List Bytes
  | [] => names
  | result :: rest =>
      if names.contains result.name then uniqueNamesFrom names rest
      else uniqueNamesFrom (names ++ [result.name]) rest

/-- `uniqueNames`: the distinct names in first-seen order. -/
def uniqueNames (results : List BenchmarkResult) : List Bytes := uniqueNamesFrom [] results

/-- `filterByName`. -/
def filterByName (results : List BenchmarkResult) (name : Bytes) : List BenchmarkResult :=
  results.filter fun result => result.name = name

/-- `filterByNames`. -/
def filterByNames (results : List BenchmarkResult) (names : List Bytes) : List BenchmarkResult :=
  results.filter fun result => names.contains result.name

/-- The common body of the two overloads of `applyMethodFilter`. -/
def applyFilter (keep : List BenchmarkResult → List BenchmarkResult) (complaint : Bytes)
    (baselineResults currentResults : List BenchmarkResult) (currentLabel baselineLabel : Bytes) :
    Except Bytes (List BenchmarkResult × List BenchmarkResult) :=
  if keep baselineResults = [] then .error (baselineLabel ++ complaint)
  else if keep currentResults = [] then .error (currentLabel ++ complaint)
  else .ok (keep baselineResults, keep currentResults)

/-- `applyMethodFilter` for one benchmark. -/
def applyMethodFilter (baselineResults currentResults : List BenchmarkResult) (name : Bytes)
    (currentLabel baselineLabel : Bytes) :
    Except Bytes (List BenchmarkResult × List BenchmarkResult) :=
  applyFilter (filterByName · name) (bytes " has no benchmark '" ++ name ++ bytes "'.")
    baselineResults currentResults currentLabel baselineLabel

/-- `applyMethodFilter` for the benchmarks of a letter group. -/
def applyMethodsFilter (baselineResults currentResults : List BenchmarkResult)
    (names : List Bytes) (currentLabel baselineLabel : Bytes) :
    Except Bytes (List BenchmarkResult × List BenchmarkResult) :=
  applyFilter (filterByNames · names) (bytes " has no benchmarks in that group.")
    baselineResults currentResults currentLabel baselineLabel

/-- The filter step of `main`. -/
def applySelection (selection : Selection) (baselineResults currentResults : List BenchmarkResult)
    (currentLabel baselineLabel : Bytes) :
    Except Bytes (List BenchmarkResult × List BenchmarkResult) :=
  if selection.methodGroup ≠ [] then
    applyMethodsFilter baselineResults currentResults selection.methodGroup currentLabel
      baselineLabel
  else if selection.methodFilter ≠ [] then
    applyMethodFilter baselineResults currentResults selection.methodFilter currentLabel
      baselineLabel
  else .ok (baselineResults, currentResults)

/-- The letter tree of `printMethods`. -/
def methodTree (sort : MethodSort) (results : List BenchmarkResult) :
    List (UInt8 × List ListedMethod) :=
  (groupMethodsByLetter sort (uniqueNames results)).map fun (letter, members) =>
    (letter, members.zipIdx.map fun (member, j) => ⟨letter :: decimal (j + 1), member⟩)

/-- `resolveMethodId`, on the content of the baseline file. -/
def resolveMethodId (sort : MethodSort) (id : Bytes) (index : Nat)
    (results : List BenchmarkResult) : Except Bytes Bytes :=
  match (groupMethodsByLetter sort (uniqueNames results)).find? fun g => g.1 = frontLetter id with
  | none => .error (bytes "Unknown method id: '" ++ id ++ bytes "'.")
  | some (_, members) =>
      if index = 0 ∨ index > members.length then
        .error (bytes "Method id '" ++ id ++ bytes "' is out of range for '" ++ [frontLetter id]
          ++ bytes "' (only " ++ decimal members.length ++ bytes ").")
      else .ok (members.getD (index - 1) [])

/-- `resolveLetterGroup`, on the content of the baseline file. -/
def resolveLetterGroup (sort : MethodSort) (letterArg : Bytes) (results : List BenchmarkResult) :
    Except Bytes (List Bytes) :=
  match (groupMethodsByLetter sort (uniqueNames results)).find?
      fun g => g.1 = frontLetter letterArg with
  | none => .error (bytes "Unknown method group: '" ++ letterArg ++ bytes "'.")
  | some (_, members) => .ok members

section Commands

variable (sort : MethodSort) (nearest : ℚ → ℚ) (w : World)

-- ============================================================================
-- The folders of the tool
-- ============================================================================

/-- `isGoogleBaselineName`. -/
def isGoogleBaselineName (folder : Bytes) : Bool :=
  startsWithV (filename folder) &&
    w.present (joinPath folder (bytes "g" ++ filename folder ++ bytes ".json"))

/-- The entry passes the two tests that `continue` otherwise. -/
def isVersionFolder (entry : DirectoryEntry) : Bool :=
  entry.is_directory && isGoogleBaselineName w entry.name.path

/-- The body of the loop of `latestBaseline`, from the folder found so far. -/
def latestStep (found : Option (Baseline × Bytes)) (entry : DirectoryEntry) :
    Except Bytes (Option (Baseline × Bytes)) :=
  if isVersionFolder w entry then
    match parseBaseline entry.name.path with
    | .error message => .error message
    | .ok current =>
        -- `!found || current > latest`
        if found.all fun (latest, _) => current.compare latest == .gt then
          .ok (some (current, entry.name.path))
        else .ok found
  else .ok found

/-- `latestBaseline`, over the entries in the order of the iterator. -/
def latestBaseline (entries : List DirectoryEntry) : Except Bytes Bytes :=
  match entries.foldlM (latestStep w) none with
  | .error message => .error message
  | .ok none => .error (bytes "No baseline snapshots found.")
  | .ok (some (_, latestDir)) =>
      .ok (joinPath latestDir (bytes "g" ++ filename latestDir ++ bytes ".json"))

/-- The loop over the directory in `printList` and `printMethods`. -/
def collectBaselines : List DirectoryEntry → Except Bytes (List Baseline)
  | [] => .ok []
  | entry :: rest =>
      if isVersionFolder w entry then do
        let baseline ← parseBaseline entry.name.path
        let baselines ← collectBaselines rest
        return baseline :: baselines
      else collectBaselines rest

/-- The sorted baselines of a directory. -/
def listedBaselines (entries : List DirectoryEntry) : Except Bytes (List Baseline) :=
  (collectBaselines w entries).map sortBaselines

-- ============================================================================
-- Commands
-- ============================================================================

/-- `loadResults` of a file. -/
def loadFile (file : Bytes) : Except Failure (List BenchmarkResult) :=
  match w.content file with
  | none => .error (.load file .failedToOpen)
  | some text => (parse text >>= loadResults nearest).mapError (.load file)

/-- `printList`: the names in the tree. -/
def printList : Except Failure (List Bytes) := do
  let entries ← w.entries
  let baselines ← throws (listedBaselines w entries)
  return baselines.map Baseline.name

/-- The last loop of `printMethods`, and how it ends. -/
def printSections : List Baseline → List MethodsSection × Except Failure Unit
  | [] => ([], .ok ())
  | baseline :: rest =>
      match loadFile nearest w (baselinePath baseline) with
      | .error e => ([], .error e)
      | .ok results =>
          let (sections, status) := printSections rest
          (⟨baseline.name, (uniqueNames results).length, methodTree sort results⟩ :: sections,
            status)

/-- The baselines `printMethods` goes through. -/
def chosenBaselines (versionFilter : Bytes) : Except Failure (List Baseline) := do
  let entries ← w.entries
  let baselines ← throws (listedBaselines w entries)
  if versionFilter = [] then return baselines
  match baselines.find? fun b => b.name = versionFilter with
  | none =>
      .error (.error (bytes "No baseline found for version '" ++ versionFilter ++ bytes "'."))
  | some baseline => return [baseline]

/-- `printMethods`. -/
def printMethods (versionFilter : Bytes) : List MethodsSection × Except Failure Unit :=
  match chosenBaselines w versionFilter with
  | .error e => ([], .error e)
  | .ok baselines => printSections sort nearest w baselines

/-- `latestBaseline`, which opens the directory itself. -/
def latestFile : Except Failure Bytes := do
  let entries ← w.entries
  throws (latestBaseline w entries)

/-- `currentFile` and `baselineFile`. -/
def comparedFiles (versions : List Baseline) : Except Failure (Bytes × Bytes) :=
  match versions with
  | v1 :: v2 :: _ => .ok (baselinePath v1, baselinePath v2)
  | [v1] => .ok (kLiveResultsFile, baselinePath v1)
  | [] => (latestFile w).map fun latest => (kLiveResultsFile, latest)

/-- The benchmark filter resolved on the baseline file. -/
def resolveSelection (baselineFile methodFilter : Bytes) : Except Failure Selection :=
  if looksLikeMethodId methodFilter then do
    -- the number of an id is read before the file
    let index ← throws (stoul methodFilter.tail)
    let results ← loadFile nearest w baselineFile
    throws ((resolveMethodId sort methodFilter index results).map fun name => ⟨[], name⟩)
  else if looksLikeLetterGroup methodFilter then do
    let results ← loadFile nearest w baselineFile
    throws ((resolveLetterGroup sort methodFilter results).map fun names => ⟨names, methodFilter⟩)
  else .ok ⟨[], methodFilter⟩

/-- What a comparison prints and writes. -/
structure Comparison where
  currentLabel : Bytes
  baselineLabel : Bytes
  report : Report RegressionRow
  summary : Option Tally
  /-- google_regressions_results.json, if it can be written. -/
  json : Option Bytes

/-- `printRegression(..); printSummary(); exportJson(..);` -/
def compareResults (currentLabel baselineLabel : Bytes)
    (baselineResults currentResults : List BenchmarkResult) : Comparison :=
  let report := printRegression baselineResults currentResults .start
  { currentLabel, baselineLabel, report
    summary := printSummary report
    json := if w.resultsDir then some (exportJson report.regression_results) else none }

/-- From the two files and the benchmark filter on. -/
def compareFiles (currentFile baselineFile methodFilter : Bytes) : Except Failure Comparison := do
  let selection ← resolveSelection sort nearest w baselineFile methodFilter
  let baselineResults ← loadFile nearest w baselineFile
  let currentResults ← loadFile nearest w currentFile
  let filtered ← throws (applySelection selection baselineResults currentResults
    (labelFor currentFile) (labelFor baselineFile))
  return compareResults w (labelFor currentFile) (labelFor baselineFile) filtered.1 filtered.2

/-- A command line that is a comparison. -/
def compareArgs (args : List Bytes) : Except Failure Comparison := do
  let files ← comparedFiles w (versionArgs args).1
  compareFiles sort nearest w files.1 files.2 (joinWords (versionArgs args).2)

/-- What a run prints to `std::cout` and writes, and how it ends. -/
inductive Run where
  | list (names : Except Failure (List Bytes))
  | methods (sections : List MethodsSection) (status : Except Failure Unit)
  | usage
  | comparison (comparison : Except Failure Comparison)

/-- `main`; `args` are `argv[1]`, `argv[2]`, and so on. -/
def main (args : List Bytes) : Run :=
  match args with
  | [arg1] =>
      if arg1 = bytes "list" then .list (printList w)
      else if arg1 = bytes "methods" then
        .methods (printMethods sort nearest w []).1 (printMethods sort nearest w []).2
      else if arg1 = bytes "-h" ∨ arg1 = bytes "--help" ∨ arg1 = bytes "help" then .usage
      else .comparison (compareArgs sort nearest w args)
  | [arg1, arg2] =>
      if arg1 = bytes "methods" then
        .methods (printMethods sort nearest w arg2).1 (printMethods sort nearest w arg2).2
      else .comparison (compareArgs sort nearest w args)
  | _ => .comparison (compareArgs sort nearest w args)

/-- The exception that a run ends with, if any. -/
def Run.failure : Run → Option Failure
  | .list (.error e) => some e
  | .methods _ (.error e) => some e
  | .comparison (.error e) => some e
  | _ => none

end Commands

-- ============================================================================
-- The versions that are listed
-- ============================================================================

/-- The folder of a version holds a snapshot of this tool. -/
def hasSnapshot (w : World) (name : Bytes) : Bool := w.present (snapshotFile name)

theorem joinPath_snapshot (name : EntryName) :
    joinPath name.path (bytes "g" ++ name.bytes ++ bytes ".json") = snapshotFile name.bytes := by
  have hdir : bytes "benchmarks/baselines/" = baselinesDir ++ [47] := rfl
  have hslash : bytes "/g" = 47 :: bytes "g" := rfl
  simp only [snapshotFile, EntryName.path, joinPath, hdir, hslash, List.append_assoc,
    List.cons_append, List.nil_append]

section Listed

variable {w : World}

/-- The folders of this tool are those of the other one with a snapshot in them. -/
theorem isVersionFolder_eq (entry : DirectoryEntry) :
    isVersionFolder w entry = (entry.isVersionFolder && hasSnapshot w entry.name.bytes) := by
  rw [isVersionFolder, isGoogleBaselineName, EntryName.filename_path, joinPath_snapshot,
    DirectoryEntry.isVersionFolder, Regression.isCustomBaselineName, EntryName.filename_path,
    hasSnapshot, Bool.and_assoc]

/-- The loop over the directory is that of the other tool over a part of it. -/
theorem collectBaselines_eq (entries : List DirectoryEntry) :
    collectBaselines w entries
      = Regression.collectBaselines (entries.filter fun e => hasSnapshot w e.name.bytes) := by
  induction entries with
  | nil => rfl
  | cons entry entries ih =>
      rw [collectBaselines, isVersionFolder_eq, List.filter_cons]
      by_cases hsnapshot : hasSnapshot w entry.name.bytes = true
      · rw [if_pos hsnapshot, Regression.collectBaselines, hsnapshot, Bool.and_true, ih]
      · rw [if_neg hsnapshot, Bool.eq_false_of_not_eq_true hsnapshot, Bool.and_false,
          if_neg Bool.false_ne_true, ih]

theorem foldlM_latestStep_eq (entries : List DirectoryEntry) (found : Option (Baseline × Bytes)) :
    entries.foldlM (latestStep w) found
      = (entries.filter fun e => hasSnapshot w e.name.bytes).foldlM Regression.latestStep
          found := by
  induction entries generalizing found with
  | nil => rfl
  | cons entry entries ih =>
      rw [List.foldlM_cons, List.filter_cons, latestStep, isVersionFolder_eq]
      by_cases hsnapshot : hasSnapshot w entry.name.bytes = true
      · rw [if_pos hsnapshot, List.foldlM_cons, Regression.latestStep, hsnapshot, Bool.and_true]
        exact congrArg _ (funext ih)
      · rw [if_neg hsnapshot, Bool.eq_false_of_not_eq_true hsnapshot, Bool.and_false,
          if_neg Bool.false_ne_true]
        exact ih found

/-- Where all folders parse, leaving some of them out leaves their baselines out. -/
theorem collectBaselines_filter {entries : List DirectoryEntry} {baselines : List Baseline}
    (h : Regression.collectBaselines entries = .ok baselines) (p : Bytes → Bool) :
    Regression.collectBaselines (entries.filter fun e => p e.name.bytes)
      = .ok (baselines.filter fun b => p b.name) := by
  induction entries generalizing baselines with
  | nil =>
      obtain rfl := Except.ok.inj h
      rfl
  | cons entry entries ih =>
      rw [Regression.collectBaselines] at h
      split at h
      · next hfolder =>
          cases hparse : parseBaseline entry.name.path with
          | error message =>
              rw [hparse] at h
              cases h
          | ok first =>
              cases hrest : Regression.collectBaselines entries with
              | error message =>
                  rw [hparse, hrest] at h
                  cases h
              | ok rest =>
                  rw [hparse, hrest] at h
                  obtain rfl := Except.ok.inj h
                  rw [List.filter_cons, List.filter_cons, name_of_parseBaseline hparse]
                  split
                  · rw [Regression.collectBaselines, if_pos hfolder, hparse, ih hrest]
                    rfl
                  · exact ih hrest
      · next hfolder =>
          rw [List.filter_cons]
          split
          · rw [Regression.collectBaselines, if_neg hfolder]
            exact ih h
          · exact ih h

/-- The sort keeps what is left in its order. -/
theorem sortBaselines_filter (baselines : List Baseline) (p : Baseline → Bool) :
    sortBaselines (baselines.filter p) = (sortBaselines baselines).filter p := by
  refine List.Perm.eq_of_pairwise ?_ (pairwise_sortBaselines _)
    ((pairwise_sortBaselines baselines).filter p) ?_
  · intro a b _ _ hle hge
    exact LawfulEqCmp.eq_of_compare (OrientedCmp.isLE_antisymm hle hge)
  · exact (List.perm_insertionSort _ _).trans ((List.perm_insertionSort _ _).filter p).symm

theorem listedBaselines_eq (entries : List DirectoryEntry) :
    listedBaselines w entries
      = Regression.listedBaselines (entries.filter fun e => hasSnapshot w e.name.bytes) := by
  rw [listedBaselines, collectBaselines_eq, Regression.listedBaselines]

theorem listedBaselines_eq_filter {entries : List DirectoryEntry} {baselines : List Baseline}
    (h : Regression.listedBaselines entries = .ok baselines) :
    listedBaselines w entries = .ok (baselines.filter fun b => hasSnapshot w b.name) := by
  cases hcollect : Regression.collectBaselines entries with
  | error message =>
      rw [Regression.listedBaselines, hcollect] at h
      cases h
  | ok collected =>
      rw [Regression.listedBaselines, hcollect] at h
      obtain rfl := Except.ok.inj h
      rw [listedBaselines_eq, Regression.listedBaselines, collectBaselines_filter hcollect,
        ← sortBaselines_filter]
      rfl

/-- What is listed has a snapshot. -/
theorem hasSnapshot_of_listed {entries : List DirectoryEntry} {baselines : List Baseline}
    (h : listedBaselines w entries = .ok baselines) :
    ∀ baseline ∈ baselines, hasSnapshot w baseline.name = true := by
  intro baseline hbaseline
  rw [listedBaselines_eq] at h
  obtain ⟨entry, hentry, hname⟩ := exists_entry_of_listed h baseline hbaseline
  rw [hname]
  exact (List.mem_filter.mp hentry).2

/-- The default baseline is the last one listed. -/
theorem latestBaseline_eq (entries : List DirectoryEntry) :
    latestBaseline w entries = (listedBaselines w entries).bind fun baselines =>
      (baselines.getLast?.map baselinePath).elim
        (.error (bytes "No baseline snapshots found.")) .ok := by
  rw [latestBaseline, foldlM_latestStep_eq, Regression.foldlM_latestStep_eq_last,
    listedBaselines_eq]
  cases hlisted : Regression.listedBaselines
      (entries.filter fun e => hasSnapshot w e.name.bytes) with
  | error message => rfl
  | ok baselines =>
      simp only [Except.map, Except.bind]
      cases hnewest : baselines.getLast? with
      | none => rfl
      | some newest =>
          obtain ⟨⟨name, _⟩, -, hname⟩ :=
            exists_entry_of_listed hlisted newest (List.mem_of_getLast? hnewest)
          have hpath := joinPath_snapshot name
          rw [EntryName.path] at hpath
          simp only [Option.map_some, Baseline.located, hname, filename_joinPath, Option.elim_some,
            baselinePath, hpath]

end Listed

/-- **One directory, two tools.** Where the other tool lists the versions of a
    directory, this one lists those with a snapshot of its own, in the same order;
    it compares with the last of them by default, so with the newest version that
    the other one lists exactly when that version has such a snapshot. -/
theorem google_list_eq_filter {w : World} {names : List Bytes}
    (hlist : Regression.printList w.toWorld = .ok names) :
    printList w = .ok (names.filter (hasSnapshot w)) ∧
      latestFile w = ((names.filter (hasSnapshot w)).getLast?.map snapshotFile).elim
        (.error (.error (bytes "No baseline snapshots found."))) .ok ∧
      ∀ newest, names.getLast? = some newest →
        (latestFile w = .ok (snapshotFile newest) ↔ hasSnapshot w newest = true) := by
  obtain ⟨entries, hentries, versions, hversions, rfl⟩ : ∃ entries, w.entries = .ok entries ∧
      ∃ versions, Regression.listedBaselines entries = .ok versions ∧
        versions.map Baseline.name = names := by
    rw [Regression.printList] at hlist
    cases hentries : w.entries with
    | error e =>
        rw [hentries] at hlist
        cases hlist
    | ok entries =>
        cases hversions : Regression.listedBaselines entries with
        | error message =>
            rw [hentries] at hlist
            simp only [bind, Except.bind, hversions, throws, Except.mapError] at hlist
            cases hlist
        | ok versions =>
            rw [hentries] at hlist
            simp only [bind, Except.bind, hversions, throws, Except.mapError] at hlist
            exact ⟨entries, rfl, versions, hversions, Except.ok.inj hlist⟩
  have hlisted := listedBaselines_eq_filter (w := w) hversions
  have hnames : (versions.filter fun b => hasSnapshot w b.name).map Baseline.name
      = (versions.map Baseline.name).filter (hasSnapshot w) := by
    rw [List.filter_map]
    rfl
  have hlatest : latestFile w
      = (((versions.map Baseline.name).filter (hasSnapshot w)).getLast?.map snapshotFile).elim
          (.error (.error (bytes "No baseline snapshots found."))) .ok := by
    have hfile : latestFile w = throws (latestBaseline w entries) := by
      rw [latestFile, hentries]
      rfl
    rw [hfile, latestBaseline_eq, hlisted, ← hnames, List.getLast?_map]
    simp only [Except.bind]
    cases (versions.filter fun b => hasSnapshot w b.name).getLast? with
    | none => rfl
    | some newest => rfl
  refine ⟨?_, hlatest, fun newest hnewest => ⟨fun hdefault => ?_, fun hsnapshot => ?_⟩⟩
  · rw [printList, hentries]
    simp only [bind, Except.bind, hlisted, throws, Except.mapError, ← hnames]
    rfl
  · -- the default is one of the listed versions, and its file is the same
    rw [hlatest] at hdefault
    cases hlast : ((versions.map Baseline.name).filter (hasSnapshot w)).getLast? with
    | none =>
        rw [hlast] at hdefault
        cases hdefault
    | some last =>
        rw [hlast] at hdefault
        have hsame : snapshotFile last = snapshotFile newest := Except.ok.inj hdefault
        have hmem := (List.mem_filter.mp (List.mem_of_getLast? hlast)).2
        rwa [hasSnapshot, hsame] at hmem
  · obtain ⟨older, hlast⟩ := List.getLast?_eq_some_iff.mp hnewest
    rw [hlatest, hlast, List.filter_append, List.filter_cons_of_pos hsnapshot, List.filter_nil,
      List.getLast?_concat]
    rfl

/-- Two versions, the newer one without a snapshot of this tool. -/
def sampleWorld : World where
  baselines := some [⟨⟨bytes "v1.1.0", by decide⟩, true⟩, ⟨⟨bytes "v1.0.0", by decide⟩, true⟩]
  content := fun file =>
    if file = snapshotFile (bytes "v1.0.0") then some (bytes "\x7b\"benchmarks\":[]\x7d") else none
  resultsDir := true
  present := fun file => file = snapshotFile (bytes "v1.0.0")

/-- Only the older one is listed, and is the default. -/
theorem google_list_eq_filter_older :
    printList sampleWorld = .ok [bytes "v1.0.0"] ∧
      latestFile sampleWorld = .ok (snapshotFile (bytes "v1.0.0")) := by
  have hlist : Regression.printList sampleWorld.toWorld
      = .ok [bytes "v1.0.0", bytes "v1.1.0"] := by
    decide +kernel
  have hfilter : [bytes "v1.0.0", bytes "v1.1.0"].filter (hasSnapshot sampleWorld)
      = [bytes "v1.0.0"] := by
    decide +kernel
  obtain ⟨hnames, hlatest, -⟩ := google_list_eq_filter hlist
  rw [hfilter] at hnames hlatest
  exact ⟨hnames, hlatest⟩

-- ============================================================================
-- The files that a run opens
-- ============================================================================

/-- Either part of a computation fails. -/
theorem bind_eq_error {ε α β : Type} {x : Except ε α} {f : α → Except ε β} {e : ε} :
    x >>= f = .error e ↔ x = .error e ∨ ∃ a, x = .ok a ∧ f a = .error e := by
  cases x with
  | error e' =>
      refine ⟨?_, ?_⟩
      · intro h
        cases h
        exact Or.inl rfl
      · rintro (h | ⟨_, h, -⟩)
        · cases h
          rfl
        · cases h
  | ok a =>
      refine ⟨fun h => Or.inr ⟨a, rfl, h⟩, ?_⟩
      rintro (h | ⟨_, h, hf⟩)
      · cases h
      · rwa [← Except.ok.inj h] at hf

section Opening

/-- The document is at fault, not the file. -/
def Opened {α : Type} (x : Except LoadError α) : Prop := x ≠ .error .failedToOpen

variable {α β : Type}

theorem Opened.bind {x : Except LoadError α} {f : α → Except LoadError β} (hx : Opened x)
    (hf : ∀ a, Opened (f a)) : Opened (x >>= f) := by
  intro h
  rcases bind_eq_error.mp h with hx' | ⟨a, -, hfa⟩
  · exact hx hx'
  · exact hf a hfa

theorem Opened.mapM {f : α → Except LoadError β} (hf : ∀ a, Opened (f a)) (xs : List α) :
    Opened (xs.mapM f) := by
  induction xs with
  | nil => exact fun h => by cases h
  | cons x xs ih =>
      rw [List.mapM_cons]
      exact (hf x).bind fun y => ih.bind fun ys h => by cases h

theorem opened_getMember (entry : Json) (key : String) : Opened (getMember entry key) := by
  cases entry with
  | object members =>
      rw [getMember]
      split
      · exact fun h => by cases h
      · exact fun h => by cases h
  | _ => exact fun h => by cases h

theorem opened_getString (value : Json) : Opened (getString value) := by
  cases value <;> exact fun h => by cases h

theorem opened_getDouble (nearest : ℚ → ℚ) (value : Json) : Opened (getDouble nearest value) := by
  cases value <;> exact fun h => by cases h

theorem opened_getUnsigned (value : Json) : Opened (getUnsigned value) := by
  cases value with
  | float q =>
      rw [getUnsigned]
      split
      · exact fun h => by cases h
      · exact fun h => by cases h
  | _ => exact fun h => by cases h

theorem opened_loadEntry (nearest : ℚ → ℚ) (entry : Json) : Opened (loadEntry nearest entry) := by
  have hget : ∀ {γ : Type} {get : Json → Except LoadError γ}, (∀ value, Opened (get value)) →
      ∀ key, Opened (getMember entry key >>= get) := fun hopened key =>
    Opened.bind (opened_getMember entry key) hopened
  refine Opened.bind (hget opened_getString _) fun name => ?_
  refine Opened.bind (hget opened_getUnsigned _) fun iterations => ?_
  refine Opened.bind (hget (opened_getDouble nearest) _) fun real_time => ?_
  refine Opened.bind (hget (opened_getDouble nearest) _) fun cpu_time => ?_
  exact Opened.bind (hget opened_getString _) fun time_unit h => by cases h

theorem opened_loadResults (nearest : ℚ → ℚ) (text : Bytes) :
    Opened (parse text >>= loadResults nearest) := by
  refine Opened.bind ?_ fun data => Opened.bind ?_ fun benchmarks => Opened.mapM ?_ _
  · rw [parse]
    split
    · exact fun h => by cases h
    · exact fun h => by cases h
  · rw [benchmarksOf]
    split
    · exact fun h => by cases h
    · exact fun h => by cases h
  · exact opened_loadEntry nearest

variable {nearest : ℚ → ℚ} {w : World} {file : Bytes}

/-- A file that cannot be opened is the one that was to be loaded. -/
theorem of_loadFile {requested : Bytes}
    (h : loadFile nearest w requested = .error (.load file .failedToOpen)) :
    file = requested ∧ w.content file = none := by
  rw [loadFile] at h
  split at h
  · next hnone =>
      cases h
      exact ⟨rfl, hnone⟩
  · next text htext =>
      cases hload : parse text >>= loadResults nearest with
      | ok results =>
          rw [hload] at h
          cases h
      | error e =>
          rw [hload] at h
          cases h
          exact absurd hload (opened_loadResults nearest text)

/-- The errors of the tool itself are not those of a file. -/
theorem throws_ne {x : Except Bytes α} {e : LoadError} : throws x ≠ .error (.load file e) := by
  cases x <;> exact fun h => by cases h

/-- What `methods` goes through has been found to exist. -/
theorem present_of_chosen {versionFilter : Bytes} {baselines : List Baseline}
    (h : chosenBaselines w versionFilter = .ok baselines) :
    ∀ baseline ∈ baselines, w.present (baselinePath baseline) = true := by
  rw [chosenBaselines] at h
  cases hentries : w.entries with
  | error e =>
      rw [hentries] at h
      cases h
  | ok entries =>
      cases hlisted : listedBaselines w entries with
      | error message =>
          rw [hentries] at h
          simp only [Bind.bind, Except.bind, hlisted, throws, Except.mapError] at h
          cases h
      | ok listed =>
          have hpresent := hasSnapshot_of_listed hlisted
          rw [hentries] at h
          simp only [Bind.bind, Except.bind, hlisted, throws, Except.mapError] at h
          split at h
          · obtain rfl := Except.ok.inj h
            exact hpresent
          · split at h
            · cases h
            · next found hfound =>
                obtain rfl := Except.ok.inj h
                rw [List.forall_mem_singleton]
                exact hpresent found (List.mem_of_find?_eq_some hfound)

/-- A section that is missing belongs to a snapshot that is not there. -/
theorem of_printSections {sort : MethodSort} {baselines : List Baseline}
    (h : (printSections sort nearest w baselines).2 = .error (.load file .failedToOpen)) :
    ∃ baseline ∈ baselines, w.content (baselinePath baseline) = none := by
  induction baselines with
  | nil => cases h
  | cons baseline baselines ih =>
      rw [printSections] at h
      cases hload : loadFile nearest w (baselinePath baseline) with
      | error e =>
          rw [hload] at h
          obtain rfl := Except.error.inj h
          obtain ⟨rfl, hnone⟩ := of_loadFile hload
          exact ⟨baseline, List.mem_cons_self, hnone⟩
      | ok results =>
          rw [hload] at h
          obtain ⟨other, hother, hnone⟩ := ih h
          exact ⟨other, List.mem_cons_of_mem _ hother, hnone⟩

/-- The default baseline has been found to exist. -/
theorem present_of_latest {latest : Bytes} (h : latestFile w = .ok latest) :
    w.present latest = true := by
  rw [latestFile] at h
  cases hentries : w.entries with
  | error e =>
      rw [hentries] at h
      cases h
  | ok entries =>
      rw [hentries] at h
      simp only [Bind.bind, Except.bind, latestBaseline_eq, throws] at h
      cases hlisted : listedBaselines w entries with
      | error message =>
          rw [hlisted] at h
          cases h
      | ok listed =>
          rw [hlisted] at h
          simp only at h
          cases hlast : listed.getLast? with
          | none =>
              rw [hlast] at h
              cases h
          | some newest =>
              rw [hlast] at h
              obtain rfl := Except.ok.inj h
              exact hasSnapshot_of_listed hlisted newest (List.mem_of_getLast? hlast)

/-- A comparison fails to open one of its two files. -/
theorem of_compareFiles {sort : MethodSort} {currentFile baselineFile methodFilter : Bytes}
    (h : compareFiles sort nearest w currentFile baselineFile methodFilter
      = .error (.load file .failedToOpen)) :
    (file = baselineFile ∨ file = currentFile) ∧ w.content file = none := by
  have hbaseline : loadFile nearest w baselineFile = .error (.load file .failedToOpen) →
      (file = baselineFile ∨ file = currentFile) ∧ w.content file = none := fun hload =>
    ⟨Or.inl (of_loadFile hload).1, (of_loadFile hload).2⟩
  rw [compareFiles, bind_eq_error] at h
  rcases h with hselection | ⟨selection, -, h⟩
  · rw [resolveSelection] at hselection
    split at hselection
    · rcases bind_eq_error.mp hselection with hnumber | ⟨index, -, hrest⟩
      · exact absurd hnumber throws_ne
      · rcases bind_eq_error.mp hrest with hload | ⟨results, -, hresolve⟩
        · exact hbaseline hload
        · exact absurd hresolve throws_ne
    · split at hselection
      · rcases bind_eq_error.mp hselection with hload | ⟨results, -, hresolve⟩
        · exact hbaseline hload
        · exact absurd hresolve throws_ne
      · cases hselection
  · rcases bind_eq_error.mp h with hload | ⟨baselineResults, -, h⟩
    · exact hbaseline hload
    · rcases bind_eq_error.mp h with hload | ⟨currentResults, -, h⟩
      · exact ⟨Or.inr (of_loadFile hload).1, (of_loadFile hload).2⟩
      · rcases bind_eq_error.mp h with happly | ⟨filtered, -, h⟩
        · exact absurd happly throws_ne
        · cases h

theorem entries_ne {e : LoadError} : w.entries ≠ .error (.load file e) := by
  rw [Regression.World.entries]
  split
  · exact fun h => by cases h
  · exact fun h => by cases h

/-- Looking for versions opens no file. -/
theorem latestFile_ne {e : LoadError} : latestFile w ≠ .error (.load file e) := by
  intro h
  rw [latestFile, bind_eq_error] at h
  rcases h with hentries | ⟨entries, -, h⟩
  · exact entries_ne hentries
  · exact throws_ne h

theorem chosenBaselines_ne {versionFilter : Bytes} {e : LoadError} :
    chosenBaselines w versionFilter ≠ .error (.load file e) := by
  intro h
  rw [chosenBaselines, bind_eq_error] at h
  rcases h with hentries | ⟨entries, -, h⟩
  · exact entries_ne hentries
  · rcases bind_eq_error.mp h with hlisted | ⟨listed, -, h⟩
    · exact throws_ne hlisted
    · split at h
      · cases h
      · split at h
        · cases h
        · cases h

theorem printList_ne {e : LoadError} : printList w ≠ .error (.load file e) := by
  intro h
  rw [printList, bind_eq_error] at h
  rcases h with hentries | ⟨entries, -, h⟩
  · exact entries_ne hentries
  · rcases bind_eq_error.mp h with hlisted | ⟨listed, -, h⟩
    · exact throws_ne hlisted
    · cases h

theorem comparedFiles_ne {versions : List Baseline} {e : LoadError} :
    comparedFiles w versions ≠ .error (.load file e) := by
  intro h
  rcases versions with _ | ⟨v1, _ | ⟨v2, more⟩⟩
  · cases hlatest : latestFile w with
    | ok latest =>
        rw [comparedFiles, hlatest] at h
        cases h
    | error e' =>
        rw [comparedFiles, hlatest] at h
        obtain rfl := Except.error.inj h
        exact latestFile_ne hlatest
  · cases h
  · cases h

/-- The files of a comparison are the live results, snapshots of the versions, or
    one that has been found. -/
theorem of_comparedFiles {versions : List Baseline} {currentFile baselineFile : Bytes}
    (h : comparedFiles w versions = .ok (currentFile, baselineFile)) :
    (currentFile = kLiveResultsFile ∨ ∃ version ∈ versions, currentFile = baselinePath version) ∧
      (w.present baselineFile = true ∨
        ∃ version ∈ versions, baselineFile = baselinePath version) := by
  rcases versions with _ | ⟨v1, _ | ⟨v2, more⟩⟩
  · cases hlatest : latestFile w with
    | error e =>
        rw [comparedFiles, hlatest] at h
        cases h
    | ok latest =>
        rw [comparedFiles, hlatest] at h
        cases h
        exact ⟨Or.inl rfl, Or.inl (present_of_latest hlatest)⟩
  · cases h
    exact ⟨Or.inl rfl, Or.inr ⟨v1, by simp, rfl⟩⟩
  · cases h
    exact ⟨Or.inr ⟨v1, by simp, rfl⟩, Or.inr ⟨v2, by simp, rfl⟩⟩

/-- `methods` opens what it has found. -/
theorem printMethods_ne (hopen : ∀ file, w.present file = true → w.content file ≠ none)
    {sort : MethodSort} {versionFilter : Bytes} :
    (printMethods sort nearest w versionFilter).2 ≠ .error (.load file .failedToOpen) := by
  intro h
  rw [printMethods] at h
  split at h
  · next e hchosen =>
      obtain rfl := Except.error.inj h
      exact chosenBaselines_ne hchosen
  · next baselines hchosen =>
      obtain ⟨baseline, hbaseline, hnone⟩ := of_printSections h
      exact hopen _ (present_of_chosen hchosen baseline hbaseline) hnone

/-- A comparison opens what it has found or what it has been told to open. -/
theorem of_compareArgs (hopen : ∀ file, w.present file = true → w.content file ≠ none)
    {sort : MethodSort} {args : List Bytes}
    (h : compareArgs sort nearest w args = .error (.load file .failedToOpen)) :
    file = kLiveResultsFile ∨ ∃ version ∈ (versionArgs args).1, file = baselinePath version := by
  rw [compareArgs, bind_eq_error] at h
  rcases h with hfiles | ⟨⟨currentFile, baselineFile⟩, hfiles, h⟩
  · exact absurd hfiles comparedFiles_ne
  · obtain ⟨hfile, hnone⟩ := of_compareFiles h
    obtain ⟨hcurrent, hbaseline⟩ := of_comparedFiles hfiles
    rcases hfile with rfl | rfl
    · rcases hbaseline with hpresent | hversion
      · exact absurd hnone (hopen _ hpresent)
      · exact Or.inr hversion
    · exact hcurrent

end Opening

/-- **Files that cannot be opened.** Where files that exist can be opened, a run
    fails to open a file in a comparison only, and that file is the live results
    or the snapshot of a version that its arguments name; never a snapshot that
    the tool has found in the directory. -/
theorem google_opens (sort : MethodSort) (nearest : ℚ → ℚ) {w : World}
    (hopen : ∀ file, w.present file = true → w.content file ≠ none) (args : List Bytes)
    {file : Bytes}
    (hfails : (main sort nearest w args).failure = some (.load file .failedToOpen)) :
    (∃ comparison, main sort nearest w args = .comparison comparison) ∧
      (file = kLiveResultsFile ∨
        ∃ version ∈ (versionArgs args).1, file = baselinePath version) := by
  have hcompare : main sort nearest w args = .comparison (compareArgs sort nearest w args) →
      (∃ comparison, main sort nearest w args = .comparison comparison) ∧
        (file = kLiveResultsFile ∨
          ∃ version ∈ (versionArgs args).1, file = baselinePath version) := by
    intro hmain
    cases hresult : compareArgs sort nearest w args with
    | ok comparison =>
        rw [hmain, hresult] at hfails
        cases hfails
    | error e =>
        rw [hmain, hresult] at hfails
        obtain rfl := Option.some.inj hfails
        exact ⟨⟨_, hmain⟩, of_compareArgs hopen hresult⟩
  have hmethods : ∀ versionFilter, main sort nearest w args
      ≠ .methods (printMethods sort nearest w versionFilter).1
          (printMethods sort nearest w versionFilter).2 := by
    intro versionFilter hmain
    rw [hmain] at hfails
    cases hstatus : (printMethods sort nearest w versionFilter).2 with
    | ok done =>
        rw [hstatus] at hfails
        cases hfails
    | error e =>
        rw [hstatus] at hfails
        obtain rfl := Option.some.inj hfails
        exact printMethods_ne hopen hstatus
  rcases args with _ | ⟨arg1, _ | ⟨arg2, _ | ⟨arg3, more⟩⟩⟩
  · exact hcompare rfl
  · by_cases hlist : arg1 = bytes "list"
    · rw [main, if_pos hlist] at hfails
      cases hprint : printList w with
      | ok names =>
          rw [hprint] at hfails
          cases hfails
      | error e =>
          rw [hprint] at hfails
          obtain rfl := Option.some.inj hfails
          exact absurd hprint printList_ne
    · by_cases hall : arg1 = bytes "methods"
      · exact absurd (by rw [main, if_neg hlist, if_pos hall]) (hmethods [])
      · by_cases hhelp : arg1 = bytes "-h" ∨ arg1 = bytes "--help" ∨ arg1 = bytes "help"
        · rw [main, if_neg hlist, if_neg hall, if_pos hhelp] at hfails
          cases hfails
        · exact hcompare (by rw [main, if_neg hlist, if_neg hall, if_neg hhelp])
  · by_cases hone : arg1 = bytes "methods"
    · exact absurd (if_pos hone) (hmethods arg2)
    · exact hcompare (if_neg hone)
  · exact hcompare rfl

/-- There are no live results. -/
theorem google_opens_live :
    ∃ comparison, main .insertion id sampleWorld [] = .comparison comparison :=
  (google_opens .insertion id
    (fun file hpresent => by
      have hfile : file = snapshotFile (bytes "v1.0.0") := of_decide_eq_true hpresent
      rw [show sampleWorld.content file = if file = snapshotFile (bytes "v1.0.0") then
        some (bytes "\x7b\"benchmarks\":[]\x7d") else none from rfl, if_pos hfile]
      exact Option.some_ne_none _)
    [] (show (main .insertion id sampleWorld []).failure
      = some (.load kLiveResultsFile .failedToOpen) by decide +kernel)).1

/-- The other tool lists folders without looking into them. -/
example : (Regression.printMethods .insertion id sampleWorld.toWorld []).2
    = .error (.load (bytes "benchmarks/baselines/v1.0.0/v1.0.0.json") .failedToOpen) := by
  decide +kernel

end RateThrottle.GoogleRegression
