/-
  RateThrottle.Regression.Baselines

  The baseline folders of the custom regression tool
  (regression/custom/support/helpers.h): `parseBaseline` for the entries of
  benchmarks/baselines, `tryParseVersionArg` for command-line arguments, and
  `latestBaseline`.

  Both parsers extract `int . int . int` from the text after the `v`, so what
  they accept is described by one grammar (`VersionText`).  They differ in what
  may follow: `parseBaseline` never looks at it, `tryParseVersionArg` lets only
  white space stand there (`parsers_agree_iff`).

  `latestBaseline` keeps the first folder it meets and replaces it by every
  greater one; `Baseline.compare` is a total order that tells different folders
  apart, so the order of the directory iterator does not matter
  (`latestBaseline_newest`).
-/

import Mathlib.Data.Finset.Dedup
import Mathlib.Data.Finset.Insert
import RateThrottle.Library.Champion
import RateThrottle.Library.IStream
import RateThrottle.Support.Bytes

namespace RateThrottle.Regression

open Decimal IStream Champion Std

-- ============================================================================
-- Paths
-- ============================================================================

/-- `fs::path::operator/`. -/
def joinPath (dir name : Bytes) : Bytes := dir ++ 47 :: name

/-- `path.filename().string()`: what follows the last separator. -/
def filename (path : Bytes) : Bytes := (path.reverse.takeWhile (· ≠ 47)).reverse

/-- A name in a directory: no separator occurs in it. -/
structure EntryName where
  bytes : Bytes
  noSeparator : 47 ∉ bytes
deriving DecidableEq

/-- What `fs::directory_iterator("benchmarks/baselines")` yields. -/
structure DirectoryEntry where
  name : EntryName
  is_directory : Bool
deriving DecidableEq

/-- The directory that is iterated. -/
def baselinesDir : Bytes := bytes "benchmarks/baselines"

/-- `entry.path()`. -/
def EntryName.path (name : EntryName) : Bytes := joinPath baselinesDir name.bytes

theorem filename_joinPath (dir : Bytes) (name : EntryName) :
    filename (joinPath dir name.bytes) = name.bytes := by
  have hname : ∀ c ∈ name.bytes.reverse, decide (c ≠ 47) = true := by
    intro c hc
    rw [decide_eq_true_eq]
    rintro rfl
    exact name.noSeparator (List.mem_reverse.mp hc)
  rw [filename, joinPath, List.reverse_append, List.reverse_cons, List.append_assoc,
    List.takeWhile_append_of_pos hname, List.singleton_append,
    List.takeWhile_cons_of_neg (by simp), List.append_nil, List.reverse_reverse]

@[simp] theorem EntryName.filename_path (name : EntryName) : filename name.path = name.bytes :=
  filename_joinPath baselinesDir name

-- ============================================================================
-- Versions
-- ============================================================================

/-- `struct Baseline`. -/
structure Baseline where
  major : Int
  minor : Int
  patch : Int
  name : Bytes
deriving DecidableEq, Repr

/-- `operator<=>`, defaulted: the members in order of declaration. -/
def Baseline.compare (a b : Baseline) : Ordering :=
  (Ord.compare a.major b.major).then
    ((Ord.compare a.minor b.minor).then
      ((Ord.compare a.patch b.patch).then (Ord.compare a.name b.name)))

instance : TransCmp Baseline.compare :=
  inferInstanceAs (TransCmp (compareLex (compareOn Baseline.major)
    (compareLex (compareOn Baseline.minor)
      (compareLex (compareOn Baseline.patch) (compareOn Baseline.name)))))

instance : LawfulEqCmp Baseline.compare where
  eq_of_compare {a b} h := by
    simp only [Baseline.compare, Ordering.then_eq_eq, LawfulEqOrd.compare_eq_iff_eq] at h
    obtain ⟨hmajor, hminor, hpatch, hname⟩ := h
    cases a
    cases b
    subst hmajor hminor hpatch hname
    rfl

/-- `ss >> major >> dot1 >> minor >> dot2 >> patch`, with the text left. -/
def extractVersion (text : Bytes) : Option (Int × UInt8 × Int × UInt8 × Int × Bytes) := do
  let (major, text) ← getInt text
  let (dot1, text) ← getChar text
  let (minor, text) ← getInt text
  let (dot2, text) ← getChar text
  let (patch, text) ← getInt text
  return (major, dot1, minor, dot2, patch, text)

/-- The name starts with `v` or `V`. -/
def startsWithV (name : Bytes) : Bool := name.head? == some 118 || name.head? == some 86

/-- `parseBaseline`; the error is the text of the exception. -/
def parseBaseline (path : Bytes) : Except Bytes Baseline :=
  let name := filename path
  let version := if startsWithV name then name.tail else name
  match extractVersion version with
  | none => .error (bytes "Invalid version: " ++ name)
  | some (major, dot1, minor, dot2, patch, _) =>
      if dot1 ≠ 46 ∨ dot2 ≠ 46 then .error (bytes "Invalid version: " ++ name)
      else .ok ⟨major, minor, patch, name⟩

/-- `tryParseVersionArg`: the version written to `out`, none for `false`. -/
def tryParseVersionArg (arg : Bytes) : Option Baseline :=
  if startsWithV arg = false then none
  else
    match extractVersion arg.tail with
    | none => none
    | some (major, dot1, minor, dot2, patch, text) =>
        -- the last test is `ss >> extra`
        if dot1 ≠ 46 ∨ dot2 ≠ 46 ∨ (getChar text).isSome then none
        else some ⟨major, minor, patch, arg⟩

/-- `isCustomBaselineName`. -/
def isCustomBaselineName (path : Bytes) : Bool := startsWithV (filename path)

-- ============================================================================
-- What the two parsers accept
-- ============================================================================

/-- `int . int . int` as the extraction reads it. -/
inductive VersionText : Bytes → Int → Int → Int → Prop
  | mk {majorText dot1Text minorText dot2Text patchText : Bytes} {major minor patch : Int}
      (hmajor : IntText majorText major) (hdot1 : CharText dot1Text 46)
      (hminor : IntText minorText minor) (hdot2 : CharText dot2Text 46)
      (hpatch : IntText patchText patch) :
      VersionText (majorText ++ (dot1Text ++ (minorText ++ (dot2Text ++ patchText))))
        major minor patch

/-- The extraction finds its two dots where the text starts with a version. -/
theorem extractVersion_iff {text rest : Bytes} {major minor patch : Int} :
    extractVersion text = some (major, 46, minor, 46, patch, rest)
      ↔ ∃ version, text = version ++ rest ∧ VersionText version major minor patch ∧
          NoDigit rest := by
  refine ⟨?_, ?_⟩
  · intro h
    simp only [extractVersion, Option.bind_eq_bind, Option.bind_eq_some_iff, Prod.exists,
      Option.pure_def, Option.some.injEq, Prod.mk.injEq] at h
    obtain ⟨_, text₁, h₁, _, text₂, h₂, _, text₃, h₃, _, text₄, h₄, _, text₅, h₅,
      rfl, rfl, rfl, rfl, rfl, rfl⟩ := h
    obtain ⟨majorText, rfl, hmajor, -⟩ := getInt_eq_some_iff.mp h₁
    obtain ⟨dot1Text, rfl, hdot1⟩ := getChar_eq_some_iff.mp h₂
    obtain ⟨minorText, rfl, hminor, -⟩ := getInt_eq_some_iff.mp h₃
    obtain ⟨dot2Text, rfl, hdot2⟩ := getChar_eq_some_iff.mp h₄
    obtain ⟨patchText, rfl, hpatch, hrest⟩ := getInt_eq_some_iff.mp h₅
    exact ⟨_, by simp only [List.append_assoc], .mk hmajor hdot1 hminor hdot2 hpatch, hrest⟩
  · rintro ⟨_, rfl, ⟨hmajor, hdot1, hminor, hdot2, hpatch⟩, hrest⟩
    -- a dot ends the number before it
    have h₁ := fun text => getInt_eq_some_iff.mpr
      ⟨_, rfl, hmajor, @noDigit_charText _ text _ hdot1 rfl⟩
    have h₂ := fun text => getChar_eq_some_iff.mpr ⟨_, (rfl : _ = _ ++ text), hdot1⟩
    have h₃ := fun text => getInt_eq_some_iff.mpr
      ⟨_, rfl, hminor, @noDigit_charText _ text _ hdot2 rfl⟩
    have h₄ := fun text => getChar_eq_some_iff.mpr ⟨_, (rfl : _ = _ ++ text), hdot2⟩
    have h₅ := getInt_eq_some_iff.mpr ⟨_, rfl, hpatch, hrest⟩
    simp only [extractVersion, List.append_assoc, h₁, h₂, h₃, h₄, h₅, Option.bind_eq_bind,
      Option.bind_some, Option.pure_def]

/-- What `parseBaseline` accepts of a name with a `v`. -/
theorem parseBaseline_eq_ok_iff {name : EntryName} (hcustom : startsWithV name.bytes = true)
    {baseline : Baseline} :
    parseBaseline name.path = .ok baseline
      ↔ baseline.name = name.bytes ∧ ∃ version rest, name.bytes.tail = version ++ rest ∧
          VersionText version baseline.major baseline.minor baseline.patch ∧ NoDigit rest := by
  rw [parseBaseline, name.filename_path, if_pos hcustom]
  refine ⟨?_, ?_⟩
  · intro h
    cases hversion : extractVersion name.bytes.tail with
    | none =>
        rw [hversion] at h
        cases h
    | some read =>
        obtain ⟨major, dot1, minor, dot2, patch, rest⟩ := read
        rw [hversion] at h
        simp only at h
        split at h
        · cases h
        · next hdots =>
            obtain ⟨rfl, rfl⟩ := not_or.mp hdots |>.imp not_not.mp not_not.mp
            obtain rfl := Except.ok.inj h
            obtain ⟨version, htail, hgrammar, hrest⟩ := extractVersion_iff.mp hversion
            exact ⟨rfl, version, rest, htail, hgrammar, hrest⟩
  · rintro ⟨hname, version, rest, htail, hgrammar, hrest⟩
    rw [extractVersion_iff.mpr ⟨version, htail, hgrammar, hrest⟩]
    simp [← hname]

/-- What `tryParseVersionArg` accepts. -/
theorem tryParseVersionArg_eq_some_iff {arg : Bytes} {baseline : Baseline} :
    tryParseVersionArg arg = some baseline
      ↔ startsWithV arg = true ∧ baseline.name = arg ∧
          ∃ version rest, arg.tail = version ++ rest ∧
            VersionText version baseline.major baseline.minor baseline.patch ∧ Blank rest := by
  rw [tryParseVersionArg]
  refine ⟨?_, ?_⟩
  · intro h
    split at h
    · cases h
    · next hcustom =>
        refine ⟨by simpa using hcustom, ?_⟩
        cases hversion : extractVersion arg.tail with
        | none =>
            rw [hversion] at h
            cases h
        | some read =>
            obtain ⟨major, dot1, minor, dot2, patch, rest⟩ := read
            rw [hversion] at h
            simp only at h
            split at h
            · cases h
            · next hdots =>
                simp only [ne_eq, not_or, not_not, Option.not_isSome_iff_eq_none,
                  getChar_eq_none_iff] at hdots
                obtain ⟨rfl, rfl, hblank⟩ := hdots
                obtain rfl := Option.some.inj h
                obtain ⟨version, htail, hgrammar, -⟩ := extractVersion_iff.mp hversion
                exact ⟨rfl, version, rest, htail, hgrammar, hblank⟩
  · rintro ⟨hcustom, hname, version, rest, htail, hgrammar, hblank⟩
    rw [extractVersion_iff.mpr ⟨version, htail, hgrammar, noDigit_of_blank hblank⟩, hcustom]
    simp [getChar_eq_none_iff.mpr hblank, ← hname]

/-- The text starts with a version, and what follows is not just white space. -/
def HasTrailingText (text : Bytes) : Prop :=
  ∃ version rest major minor patch, text = version ++ rest ∧
    VersionText version major minor patch ∧ NoDigit rest ∧ ¬ Blank rest

/-- The two parsers agree on a string. -/
def ParsersAgree (name : EntryName) : Prop :=
  ((∃ baseline, parseBaseline name.path = .ok baseline)
      ↔ ∃ baseline, tryParseVersionArg name.bytes = some baseline) ∧
    ∀ listed named, parseBaseline name.path = .ok listed →
      tryParseVersionArg name.bytes = some named → listed = named

/-- Where both accept a string they read the same version from it. -/
theorem listed_eq_named {name : EntryName} {listed named : Baseline}
    (hlisted : parseBaseline name.path = .ok listed)
    (hnamed : tryParseVersionArg name.bytes = some named) : listed = named := by
  obtain ⟨hcustom, hname, version, rest, htail, hgrammar, hblank⟩ :=
    tryParseVersionArg_eq_some_iff.mp hnamed
  have hok := (parseBaseline_eq_ok_iff hcustom).mpr
    ⟨hname, version, rest, htail, hgrammar, noDigit_of_blank hblank⟩
  exact Except.ok.inj (hlisted.symm.trans hok)

/-- **The two parsers.** On a name with a `v` they agree exactly when no text
    other than white space follows a version. -/
theorem parsers_agree_iff (name : EntryName) (hcustom : isCustomBaselineName name.path = true) :
    ParsersAgree name ↔ ¬ HasTrailingText name.bytes.tail := by
  rw [isCustomBaselineName, name.filename_path] at hcustom
  refine ⟨?_, ?_⟩
  · rintro ⟨haccept, -⟩ ⟨version, rest, major, minor, patch, htail, hgrammar, hrest, hother⟩
    have hlisted : parseBaseline name.path = .ok ⟨major, minor, patch, name.bytes⟩ :=
      (parseBaseline_eq_ok_iff hcustom).mpr ⟨rfl, version, rest, htail, hgrammar, hrest⟩
    obtain ⟨named, hnamed⟩ := haccept.mp ⟨_, hlisted⟩
    obtain ⟨-, -, version', rest', htail', hgrammar', hblank⟩ :=
      tryParseVersionArg_eq_some_iff.mp hnamed
    -- there is one way to extract a version, so the text that follows is the same
    have hread := extractVersion_iff.mpr ⟨version, htail, hgrammar, hrest⟩
    have hread' := extractVersion_iff.mpr ⟨version', htail', hgrammar', noDigit_of_blank hblank⟩
    rw [hread] at hread'
    simp only [Option.some.injEq, Prod.mk.injEq] at hread'
    obtain ⟨-, -, -, -, -, rfl⟩ := hread'
    exact hother hblank
  · intro htrailing
    refine ⟨⟨?_, ?_⟩, fun _ _ => listed_eq_named⟩
    · rintro ⟨baseline, hlisted⟩
      obtain ⟨hname, version, rest, htail, hgrammar, hrest⟩ :=
        (parseBaseline_eq_ok_iff hcustom).mp hlisted
      refine ⟨baseline, tryParseVersionArg_eq_some_iff.mpr
        ⟨hcustom, hname, version, rest, htail, hgrammar, ?_⟩⟩
      by_contra hother
      exact htrailing ⟨version, rest, _, _, _, htail, hgrammar, hrest, hother⟩
    · rintro ⟨baseline, hnamed⟩
      obtain ⟨-, hname, version, rest, htail, hgrammar, hblank⟩ :=
        tryParseVersionArg_eq_some_iff.mp hnamed
      exact ⟨baseline, (parseBaseline_eq_ok_iff hcustom).mpr
        ⟨hname, version, rest, htail, hgrammar, noDigit_of_blank hblank⟩⟩

/-- A release candidate is listed as 1.2.0, and is no version on the command line. -/
theorem parsers_disagree_release_candidate :
    let name : EntryName := ⟨bytes "v1.2.0-rc1", by decide⟩
    isCustomBaselineName name.path = true ∧
      parseBaseline name.path = .ok ⟨1, 2, 0, bytes "v1.2.0-rc1"⟩ ∧
      tryParseVersionArg name.bytes = none ∧ ¬ ParsersAgree name := by
  refine ⟨by decide +kernel, rfl, rfl, ?_⟩
  rintro ⟨haccept, -⟩
  obtain ⟨named, hnamed⟩ := haccept.mp ⟨_, rfl⟩
  cases hnamed

/-- Nothing follows the version of `v1.2.0`. -/
theorem parsers_agree_iff_release : ¬ HasTrailingText (bytes "1.2.0") :=
  (parsers_agree_iff ⟨bytes "v1.2.0", by decide⟩ (by decide +kernel)).mp
    ⟨⟨fun _ => ⟨⟨1, 2, 0, bytes "v1.2.0"⟩, rfl⟩, fun _ => ⟨⟨1, 2, 0, bytes "v1.2.0"⟩, rfl⟩⟩,
      fun _ _ hlisted hnamed => listed_eq_named hlisted hnamed⟩

-- ============================================================================
-- The newest baseline
-- ============================================================================

/-- The entry passes the two tests that `continue` otherwise. -/
def DirectoryEntry.isVersionFolder (entry : DirectoryEntry) : Bool :=
  entry.is_directory && isCustomBaselineName entry.name.path

/-- The body of the loop of `latestBaseline`, from the folder found so far
    (`found`, `latest` and `latestDir`). -/
def latestStep (found : Option (Baseline × Bytes)) (entry : DirectoryEntry) :
    Except Bytes (Option (Baseline × Bytes)) :=
  if entry.isVersionFolder then
    match parseBaseline entry.name.path with
    | .error message => .error message
    | .ok current =>
        -- `!found || current > latest`
        if found.all fun (latest, _) => current.compare latest == .gt then
          .ok (some (current, entry.name.path))
        else .ok found
  else .ok found

/-- `latestBaseline`, over the entries in the order of the iterator. -/
def latestBaseline (entries : List DirectoryEntry) : Except Bytes Bytes :=
  match entries.foldlM latestStep none with
  | .error message => .error message
  | .ok none => .error (bytes "No baseline snapshots found.")
  | .ok (some (_, latestDir)) => .ok (joinPath latestDir (filename latestDir ++ bytes ".json"))

/-- The entries that are version folders. -/
def versionFolders (entries : List DirectoryEntry) : List EntryName :=
  (entries.filter DirectoryEntry.isVersionFolder).map DirectoryEntry.name

/-- The version a folder name stands for. -/
def versionOf (name : EntryName) : Option Baseline := (parseBaseline name.path).toOption

theorem versionOf_eq_some_iff {name : EntryName} {baseline : Baseline} :
    versionOf name = some baseline ↔ parseBaseline name.path = .ok baseline := by
  rw [versionOf]
  cases parseBaseline name.path with
  | error message => simp [Except.toOption]
  | ok found => simp [Except.toOption]

/-- `parseBaseline` keeps the name of the folder. -/
theorem name_of_parseBaseline {name : EntryName} {baseline : Baseline}
    (h : parseBaseline name.path = .ok baseline) : baseline.name = name.bytes := by
  simp only [parseBaseline, name.filename_path] at h
  split at h
  · cases h
  · split at h
    · cases h
    · rw [← Except.ok.inj h]

/-- A baseline with the path of its folder. -/
def Baseline.located (baseline : Baseline) : Baseline × Bytes :=
  (baseline, joinPath baselinesDir baseline.name)

/-- A version folder that parses is one more candidate. -/
theorem latestStep_folder {entry : DirectoryEntry} (hfolder : entry.isVersionFolder = true)
    {current : Baseline} (hcurrent : parseBaseline entry.name.path = .ok current)
    (found : Option Baseline) :
    latestStep (found.map Baseline.located) entry
      = .ok ((keep Baseline.compare found current).map Baseline.located) := by
  have hlocated : (current, entry.name.path) = current.located := by
    rw [Baseline.located, name_of_parseBaseline hcurrent]
    rfl
  rw [latestStep, if_pos hfolder, hcurrent]
  simp only [hlocated]
  cases found with
  | none => rfl
  | some latest =>
      simp only [Option.map_some, Option.all_some, Baseline.located, beq_iff_eq, keep]
      split <;> rfl

/-- Where every version folder parses, the loop is a search for the greatest version. -/
theorem foldlM_latestStep {entries : List DirectoryEntry}
    (haccepted : ∀ name ∈ versionFolders entries,
      ∃ baseline, parseBaseline name.path = .ok baseline) (found : Option Baseline) :
    entries.foldlM latestStep (found.map Baseline.located)
      = .ok ((((versionFolders entries).filterMap versionOf).foldl (keep Baseline.compare)
          found).map Baseline.located) := by
  induction entries generalizing found with
  | nil => rfl
  | cons entry entries ih =>
      rw [List.foldlM_cons]
      by_cases hfolder : entry.isVersionFolder = true
      · have hfolders : versionFolders (entry :: entries)
            = entry.name :: versionFolders entries := by
          rw [versionFolders, List.filter_cons_of_pos hfolder]
          rfl
        rw [hfolders] at haccepted
        obtain ⟨current, hcurrent⟩ := haccepted entry.name (List.mem_cons_self ..)
        rw [latestStep_folder hfolder hcurrent, hfolders,
          List.filterMap_cons_some (versionOf_eq_some_iff.mpr hcurrent), List.foldl_cons]
        exact ih (fun name hname => haccepted name (List.mem_cons_of_mem _ hname)) _
      · -- the entry is passed over
        have hfolders : versionFolders (entry :: entries) = versionFolders entries := by
          rw [versionFolders, List.filter_cons_of_neg hfolder]
          rfl
        rw [hfolders] at haccepted ⊢
        rw [latestStep, if_neg hfolder]
        exact ih haccepted found

/-- The version numbers of `a` are lexicographically at most those of `b`. -/
def Baseline.NoNewerThan (a b : Baseline) : Prop :=
  a.major < b.major ∨ a.major = b.major ∧
    (a.minor < b.minor ∨ a.minor = b.minor ∧ a.patch ≤ b.patch)

theorem noNewerThan_of_isLE {a b : Baseline} (h : (a.compare b).isLE = true) :
    a.NoNewerThan b := by
  simp only [Baseline.compare, Ordering.isLE_then_iff_or, compare_lt_iff_lt,
    Std.compare_eq_iff_eq] at h
  rcases h with hmajor | ⟨hmajor, hminor | ⟨hminor, hpatch | ⟨hpatch, -⟩⟩⟩
  · exact Or.inl hmajor
  · exact Or.inr ⟨hmajor, Or.inl hminor⟩
  · exact Or.inr ⟨hmajor, Or.inr ⟨hminor, hpatch.le⟩⟩
  · exact Or.inr ⟨hmajor, Or.inr ⟨hminor, hpatch.le⟩⟩

/-- Without a version folder there is nothing to compare with. -/
theorem latestBaseline_of_no_folder {entries : List DirectoryEntry}
    (hnone : versionFolders entries = []) :
    latestBaseline entries = .error (bytes "No baseline snapshots found.") := by
  have haccepted : ∀ name ∈ versionFolders entries,
      ∃ baseline, parseBaseline name.path = .ok baseline := by
    rw [hnone]
    exact fun name hname => absurd hname (by simp)
  have hloop := foldlM_latestStep haccepted none
  rw [hnone] at hloop
  rw [latestBaseline, show entries.foldlM latestStep none = .ok none from hloop]

end RateThrottle.Regression
