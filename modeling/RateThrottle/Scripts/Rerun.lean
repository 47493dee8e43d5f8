/-
  RateThrottle.Scripts.Rerun

  A second release bump with the same arguments.

  The update workflow may run again for the same tag.  The files that the first
  run has written are read as they are, no step fails on them, and nothing is
  changed but by the exception of CMakeLists.txt (`rerun_unchanged_iff`).
-/

import RateThrottle.Scripts.CompleteBump
import RateThrottle.Scripts.PinsRerun
import RateThrottle.Scripts.VersionRerun

namespace RateThrottle.Scripts

open Pattern CMake Script

-- ============================================================================
-- The whole script
-- ============================================================================

section Rerun

variable {env : Environment} {args : Arguments} {files files' : Files}

/-- What a finished run has read and written. -/
theorem updatePackageFiles_eq_ok_iff :
    updatePackageFiles env args files = (.ok (), files')
      ↔ ∃ pins cmakelists cmakelists' conanfile conanfile' portfile portfile' vcpkgJson vcpkgJson',
          makePins env args = .ok pins ∧
          files.cmakelists = some cmakelists ∧
          bumpCMakeLists args (universalNewlines cmakelists) = .ok cmakelists' ∧
          files.conanfile = some conanfile ∧
          bumpConanfile args (universalNewlines conanfile) = .ok conanfile' ∧
          files.portfile = some portfile ∧
          bumpPortfile args pins (universalNewlines portfile) = .ok portfile' ∧
          files.vcpkgJson = some vcpkgJson ∧
          bumpVcpkgJson env args (universalNewlines vcpkgJson) = .ok vcpkgJson' ∧
          files' = ⟨some cmakelists', some conanfile', some (conandataText args), some portfile',
            some vcpkgJson'⟩ := by
  rw [updatePackageFiles_eq, bind_eq_ok]
  refine ⟨?_, ?_⟩
  · rintro ⟨pins, files₀, hpins, h⟩
    obtain ⟨hmake, rfl⟩ := ofExcept_eq_ok.mp hpins
    rw [bind_eq_ok] at h
    obtain ⟨_, between, hrecipes, h⟩ := h
    rw [bind_eq_ok] at h
    obtain ⟨_, files₁, hport, hvcpkg⟩ := h
    rw [updatePortfile] at hport
    rw [updateVcpkgJson] at hvcpkg
    obtain ⟨cmakelists, cmakelists', conanfile, conanfile', hcmake, hcmake', hconan, hconan', rfl⟩ :=
      updateRecipes_eq_ok.mp hrecipes
    obtain ⟨portfile, portfile', hread, hbump, rfl⟩ := rewriteFile_eq_ok.mp hport
    obtain ⟨vcpkgJson, vcpkgJson', hread', hbump', rfl⟩ := rewriteFile_eq_ok.mp hvcpkg
    exact ⟨pins, cmakelists, cmakelists', conanfile, conanfile', portfile, portfile', vcpkgJson,
      vcpkgJson', hmake, hcmake, hcmake', hconan, hconan', hread, hbump, hread', hbump', rfl⟩
  · rintro ⟨pins, cmakelists, cmakelists', conanfile, conanfile', portfile, portfile', vcpkgJson,
      vcpkgJson', hmake, hcmake, hcmake', hconan, hconan', hread, hbump, hread', hbump', rfl⟩
    refine ⟨pins, files, ofExcept_eq_ok.mpr ⟨hmake, rfl⟩, ?_⟩
    rw [bind_eq_ok]
    refine ⟨(), _, updateRecipes_eq_ok.mpr ⟨cmakelists, cmakelists', conanfile, conanfile', hcmake,
      hcmake', hconan, hconan', rfl⟩, ?_⟩
    rw [bind_eq_ok]
    exact ⟨(), _, rewriteFile_eq_ok.mpr ⟨portfile, portfile', hread, hbump, rfl⟩,
      rewriteFile_eq_ok.mpr ⟨vcpkgJson, vcpkgJson', hread', hbump', rfl⟩⟩

/-- A run with another vcpkg.json. -/
theorem updatePackageFiles_vcpkgJson {env' : Environment} {content content' : Text}
    (hpins : makePins env' args = makePins env args)
    (hrun : updatePackageFiles env args files = (.ok (), files'))
    (hvcpkg : bumpVcpkgJson env' args (universalNewlines content) = .ok content') :
    updatePackageFiles env' args { files with vcpkgJson := some content }
      = (.ok (), { files' with vcpkgJson := some content' }) := by
  obtain ⟨pins, cmakelists, cmakelists', conanfile, conanfile', portfile, portfile', vcpkgJson,
    vcpkgJson', hmake, hcmake, hcmake', hconan, hconan', hport, hport', -, -, rfl⟩ :=
    updatePackageFiles_eq_ok_iff.mp hrun
  exact updatePackageFiles_eq_ok_iff.mpr ⟨pins, cmakelists, cmakelists', conanfile, conanfile',
    portfile, portfile', content, content', hpins.trans hmake, hcmake, hcmake', hconan, hconan',
    hport, hport', rfl, hvcpkg, rfl⟩

theorem exists_search_of_bumpCMakeLists {content content' : Text}
    (h : bumpCMakeLists args content = .ok content') :
    ∃ before pieces rest, search projectRe content = some (before, pieces, rest) := by
  rw [bumpCMakeLists] at h
  split at h
  · cases h
  · next before pieces rest hsearch => exact ⟨before, pieces, rest, hsearch⟩

theorem bumpVcpkgJson_eq_ok {content content' : Text} :
    bumpVcpkgJson env args content = .ok content'
      ↔ env.setVersion args.version content = some content' := by
  rw [bumpVcpkgJson]
  split
  · next hset => simp [hset]
  · next hset => simp [hset]

/-- The first project() text of CMakeLists.txt has no version. -/
def Versionless (files : Files) : Prop :=
  ∃ cmakelists before pieces rest, files.cmakelists = some cmakelists ∧
    search projectRe (universalNewlines cmakelists) = some (before, pieces, rest) ∧
    search versionRe pieces.flatten = none

/-- The version and the refs are as releases have them, portfile.cmake has only
    blocks that the script reads as it should, and vcpkg.json is written by
    `json.dumps`: in one line per member, and the same text for the same data. -/
structure SteadyBump (env : Environment) (args : Arguments) (files : Files) : Prop where
  version : Release args.version
  refs : ∀ pins, makePins env args = .ok pins →
    ∀ repo ref sha512, pins repo = some (ref, sha512) → IsWord ref ∧ ¬ text "SHA512" <:+ ref
  portfile : ∀ content, files.portfile = some content →
    SteadyPortfile (universalNewlines content)
  vcpkgJson : ∀ content content', env.setVersion args.version content = some content' →
    '\r' ∉ content' ∧ env.setVersion args.version content' = some content'

/-- **A second bump.** After a finished bump a second one with the same arguments
    finishes, and it leaves all five files as they are exactly when the version
    has only letters, digits, dots, hyphens and underscores, or CMakeLists.txt
    has no version to replace. -/
theorem rerun_unchanged_iff (hsteady : SteadyBump env args files)
    (hrun : updatePackageFiles env args files = (.ok (), files')) :
    ∃ files'', updatePackageFiles env args files' = (.ok (), files'') ∧
      (files'' = files' ↔ Versionless files ∨ ∀ c ∈ args.version, versionChar c = true) := by
  obtain ⟨pins, cmakelists, cmakelists', conanfile, conanfile', portfile, portfile', vcpkgJson,
    vcpkgJson', hmake, hcmake, hcmake', hconan, hconan', hport, hport', hvcpkg, hvcpkg', rfl⟩ :=
    updatePackageFiles_eq_ok_iff.mp hrun
  have hrelease := hsteady.version
  have hpins : PlainPins pins := by
    intro repo ref sha512 hpin
    obtain ⟨href, hend⟩ := hsteady.refs pins hmake repo ref sha512 hpin
    exact ⟨href, hend, hashesWords_of_makePins hmake repo ref sha512 hpin⟩
  -- what was written is read as it is
  have hread := universalNewlines_of_not_mem
    (not_mem_bumpCMakeLists hrelease (not_mem_universalNewlines cmakelists) hcmake')
  have hread' := universalNewlines_of_not_mem
    (not_mem_bumpConanfile hrelease (not_mem_universalNewlines conanfile) hconan')
  have hread'' := universalNewlines_of_not_mem
    (not_mem_bumpPortfile hpins (not_mem_universalNewlines portfile) hport')
  obtain ⟨before, pieces, rest, hsearch⟩ := exists_search_of_bumpCMakeLists hcmake'
  obtain ⟨cmakelists'', hagain, hsame⟩ := bumpCMakeLists_again hrelease hsearch hcmake'
  have hport'' := bumpPortfile_again hpins (hsteady.portfile portfile hport) hport'
  obtain ⟨hcr, hset⟩ := hsteady.vcpkgJson _ _ (bumpVcpkgJson_eq_ok.mp hvcpkg')
  have hvcpkg'' := bumpVcpkgJson_eq_ok.mpr hset
  refine ⟨⟨some cmakelists'', some conanfile', some (conandataText args), some portfile',
    some vcpkgJson'⟩, ?_, ?_⟩
  · refine updatePackageFiles_eq_ok_iff.mpr ⟨pins, cmakelists', cmakelists'', conanfile',
      conanfile', portfile', portfile', vcpkgJson', vcpkgJson', hmake, rfl, ?_, rfl, ?_, rfl, ?_,
      rfl, ?_, rfl⟩
    · rw [hread]
      exact hagain
    · rw [hread']
      exact bumpConanfile_again hrelease hconan'
    · rw [hread'']
      exact hport''
    · rw [universalNewlines_of_not_mem hcr]
      exact hvcpkg''
  · have hversionless : Versionless files ↔ search versionRe pieces.flatten = none := by
      refine ⟨?_, fun hnone => ⟨cmakelists, before, pieces, rest, hcmake, hsearch, hnone⟩⟩
      rintro ⟨cmakelists₁, before₁, pieces₁, rest₁, hcmake₁, hsearch₁, hnone⟩
      rw [hcmake] at hcmake₁
      cases hcmake₁
      rw [hsearch] at hsearch₁
      cases hsearch₁
      exact hnone
    rw [hversionless, ← hsame]
    simp

end Rerun

section Sample

/-- What `json.dumps` writes for an object whose only member is its version. -/
def versionJson (version : Text) : Text :=
  text "\x7b\n  \"version\": \"" ++ (version ++ text "\"\n\x7d\n")

/-- Archives with one hash, and the JSON module on objects of that kind. -/
def jsonArchives : Environment :=
  { sameArchives with
    setVersion := fun version content =>
      if content = versionJson (text "1") ∨ content = versionJson version then
        some (versionJson version)
      else none }

/-- A package at a version, with all five files. -/
def packageAt (version : Text) (conandata : Option Text) (portfile : Text) : Files :=
  { portAt version conandata portfile with vcpkgJson := some (versionJson version) }

theorem updatePackageFiles_packageAt :
    updatePackageFiles jsonArchives bumpToTwo (packageAt (text "1") none oldCall)
      = (.ok (), packageAt (text "2") (some (conandataText bumpToTwo)) newCall) := by
  have hpins : makePins jsonArchives bumpToTwo = .ok samplePins := rfl
  have hread : universalNewlines (versionJson (text "1")) = versionJson (text "1") :=
    universalNewlines_of_not_mem (by decide)
  refine updatePackageFiles_vcpkgJson (hpins.trans makePins_bumpToTwo.symm)
    updatePackageFiles_oldCall ?_
  rw [hread, bumpVcpkgJson_eq_ok]
  simp only [jsonArchives, true_or, if_true]
  rfl

theorem steadyPortfile_oldCall : SteadyPortfile oldCall := by
  intro before found hsplit hopen
  cases before with
  | nil =>
      rw [List.nil_append] at hsplit
      subst hsplit
      refine ⟨_, _, matchPrefix_oldCall, fun b hb => ?_⟩
      rw [← Block.pieces_injective hb]
      exact plain_oldBlock
  | cons c before =>
      obtain ⟨tail, rfl⟩ := hopen
      have hcall : text "vcpkg_from_github(" = fetchCall ++ text "(" := rfl
      refine absurd ⟨text "(" ++ tail, ?_⟩ (not_call_within hsplit)
      rw [hcall, List.append_assoc]

theorem steadyBump_packageAt :
    SteadyBump jsonArchives bumpToTwo (packageAt (text "1") none oldCall) where
  version := ⟨⟨'2', [], rfl, rfl⟩, by decide⟩
  refs := by
    intro pins hmake repo ref sha512 hpin
    have hpins : makePins jsonArchives bumpToTwo = .ok samplePins := rfl
    rw [hpins] at hmake
    cases hmake
    rw [samplePins_eq_some hpin]
    decide
  portfile := by
    intro content hcontent
    cases hcontent
    rw [universalNewlines_of_not_mem (by decide)]
    exact steadyPortfile_oldCall
  vcpkgJson := by
    intro content content' h
    simp only [jsonArchives] at h ⊢
    split at h
    · obtain rfl := Option.some.inj h
      exact ⟨by decide, if_pos (Or.inr rfl)⟩
    · cases h

/-- The bump from version 1 to version 2, run twice. -/
theorem rerun_unchanged_iff_two :
    ∃ files'', updatePackageFiles jsonArchives bumpToTwo
        (packageAt (text "2") (some (conandataText bumpToTwo)) newCall) = (.ok (), files'') ∧
      (files'' = packageAt (text "2") (some (conandataText bumpToTwo)) newCall
        ↔ Versionless (packageAt (text "1") none oldCall) ∨
          ∀ c ∈ bumpToTwo.version, versionChar c = true) :=
  rerun_unchanged_iff steadyBump_packageAt updatePackageFiles_packageAt

end Sample

end RateThrottle.Scripts
