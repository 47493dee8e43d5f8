/-
  RateThrottle.Scripts.FailedBump

  What an error exit of the release bump leaves behind.

  Each file is checked right before it is rewritten, and nothing is rolled
  back.  The exits up to the first check leave all five files alone; the two
  exits of the portfile step come after CMakeLists.txt, conanfile.py and
  conandata.yml have been bumped completely, and before portfile.cmake and
  vcpkg.json are touched (`failed_bump`).
-/

import RateThrottle.Scripts.UpdatePackageFiles

namespace RateThrottle.Scripts

open Script

/-- The exits that the script takes before it writes a file. -/
def Exit.precedesWrites : Exit → Bool
  | .malformedSubmodule _ | .archiveNotFound _ | .submoduleArchiveNotFound _ | .noProject _ => true
  | .noPin _ | .noBlocks _ => false

/-- The writes that come before portfile.cmake is checked. -/
def updateRecipes (args : Arguments) : Script Unit := do
  updateCMakeLists args
  updateConanfile args
  updateConandata args

section Recipes

variable {env : Environment} {args : Arguments} {files files' : Files}

theorem updateRecipes_eq_ok :
    updateRecipes args files = (.ok (), files')
      ↔ ∃ cmakelists cmakelists' conanfile conanfile',
          files.cmakelists = some cmakelists ∧
          bumpCMakeLists args (universalNewlines cmakelists) = .ok cmakelists' ∧
          files.conanfile = some conanfile ∧
          bumpConanfile args (universalNewlines conanfile) = .ok conanfile' ∧
          files' = { files with
            cmakelists := some cmakelists', conanfile := some conanfile',
            conandata := some (conandataText args) } := by
  rw [updateRecipes, bind_eq_ok]
  refine ⟨?_, ?_⟩
  · rintro ⟨_, files₁, hcmake, hrest⟩
    rw [bind_eq_ok] at hrest
    obtain ⟨_, files₂, hconan, hdata⟩ := hrest
    rw [updateCMakeLists] at hcmake
    rw [updateConanfile] at hconan
    obtain ⟨cmakelists, cmakelists', hread, hbump, rfl⟩ := rewriteFile_eq_ok.mp hcmake
    obtain ⟨conanfile, conanfile', hread', hbump', rfl⟩ := rewriteFile_eq_ok.mp hconan
    exact ⟨cmakelists, cmakelists', conanfile, conanfile', hread, hbump, hread', hbump',
      (Prod.mk.inj hdata).2.symm⟩
  · rintro ⟨cmakelists, cmakelists', conanfile, conanfile', hread, hbump, hread', hbump', rfl⟩
    refine ⟨(), _, rewriteFile_eq_ok.mpr ⟨cmakelists, cmakelists', hread, hbump, rfl⟩, ?_⟩
    rw [bind_eq_ok]
    exact ⟨(), _, rewriteFile_eq_ok.mpr ⟨conanfile, conanfile', hread', hbump', rfl⟩, rfl⟩

/-- The order of the steps is all that matters, not how they are grouped. -/
theorem Script.bind_assoc {α β γ : Type} (first : Script α) (second : α → Script β)
    (third : β → Script γ) :
    (first >>= second) >>= third = first >>= fun a => second a >>= third := by
  funext files
  cases hfirst : first files with
  | mk result between =>
      cases result with
      | error why => simp only [bind, hfirst]
      | ok a => simp only [bind, hfirst]

/-- The script makes the pins, bumps the recipes and then the port. -/
theorem updatePackageFiles_eq (env : Environment) (args : Arguments) :
    updatePackageFiles env args
      = (ofExcept (makePins env args) >>= fun repoPins => updateRecipes args >>= fun _ =>
          updatePortfile args repoPins >>= fun _ => updateVcpkgJson env args) := by
  simp only [updatePackageFiles, updateRecipes, Script.bind_assoc]

theorem updatePackageFiles_eq_ok (h : updatePackageFiles env args files = (.ok (), files')) :
    ∃ repoPins between portfile portfile', makePins env args = .ok repoPins ∧
      updateRecipes args files = (.ok (), between) ∧
      files.portfile = some portfile ∧
      bumpPortfile args repoPins (universalNewlines portfile) = .ok portfile' ∧
      files'.cmakelists = between.cmakelists ∧ files'.conanfile = between.conanfile ∧
      files'.conandata = between.conandata ∧ files'.portfile = some portfile' := by
  rw [updatePackageFiles_eq, bind_eq_ok] at h
  obtain ⟨repoPins, files₀, hpins, h⟩ := h
  obtain ⟨hmake, rfl⟩ := ofExcept_eq_ok.mp hpins
  rw [bind_eq_ok] at h
  obtain ⟨_, between, hrecipes, h⟩ := h
  rw [bind_eq_ok] at h
  obtain ⟨_, files₄, hport, hvcpkg⟩ := h
  rw [updatePortfile] at hport
  rw [updateVcpkgJson] at hvcpkg
  obtain ⟨portfile, portfile', hread, hbump, rfl⟩ := rewriteFile_eq_ok.mp hport
  obtain ⟨_, _, _, _, rfl⟩ := rewriteFile_eq_ok.mp hvcpkg
  obtain ⟨_, _, _, _, -, -, -, -, hbetween⟩ := updateRecipes_eq_ok.mp hrecipes
  have hsame : between.portfile = files₀.portfile := by rw [hbetween]
  exact ⟨repoPins, between, portfile, portfile', hmake, hrecipes, hsame ▸ hread, hbump,
    rfl, rfl, rfl, rfl⟩

end Recipes

/-- An exit of the recipe step comes from the check of CMakeLists.txt, before any write. -/
theorem of_updateRecipes_eq_exit {args : Arguments} {files files' : Files} {e : Exit}
    (h : updateRecipes args files = (.error (.exit e), files')) :
    files' = files ∧ e.precedesWrites = true := by
  rw [updateRecipes, bind_eq_error] at h
  rcases h with hcmake | ⟨_, files₁, -, hrest⟩
  · rw [updateCMakeLists] at hcmake
    obtain ⟨hfiles, hraised | ⟨content, hbump⟩⟩ := of_rewriteFile_eq_error hcmake
    · cases hraised
    · obtain ⟨path, rfl⟩ := exit_of_bumpCMakeLists hbump
      exact ⟨hfiles, rfl⟩
  · rw [bind_eq_error] at hrest
    rcases hrest with hconan | ⟨_, files₂, -, hdata⟩
    · rw [updateConanfile] at hconan
      obtain ⟨-, hraised | ⟨content, hbump⟩⟩ := of_rewriteFile_eq_error hconan
      · cases hraised
      · exact absurd hbump bumpConanfile_ne_exit
    · cases hdata

theorem precedesWrites_of_isArgumentError {e : Exit} (h : e.isArgumentError = true) :
    e.precedesWrites = true := by
  cases e with
  | malformedSubmodule value => rfl
  | archiveNotFound archive => rfl
  | submoduleArchiveNotFound archive => rfl
  | noProject path => cases h
  | noPin repo => cases h
  | noBlocks path => cases h

/-- An exit of the script is taken before the first write, or in the portfile
    step, on the files that the recipe step has left. -/
theorem of_updatePackageFiles_eq_exit {env : Environment} {args : Arguments}
    {files files' : Files} {e : Exit}
    (h : updatePackageFiles env args files = (.error (.exit e), files')) :
    (e.precedesWrites = true ∧ files' = files) ∨
      (e.precedesWrites = false ∧ updateRecipes args files = (.ok (), files')) := by
  rw [updatePackageFiles_eq, bind_eq_error] at h
  rcases h with hpins | ⟨repoPins, files₀, hpins, h⟩
  · obtain ⟨hmake, rfl⟩ := ofExcept_eq_error.mp hpins
    exact Or.inl ⟨precedesWrites_of_isArgumentError (exit_of_makePins hmake), rfl⟩
  obtain ⟨hmake, rfl⟩ := ofExcept_eq_ok.mp hpins
  rw [bind_eq_error] at h
  rcases h with hrecipes | ⟨_, between, hrecipes, h⟩
  · obtain ⟨hfiles, he⟩ := of_updateRecipes_eq_exit hrecipes
    exact Or.inl ⟨he, hfiles⟩
  rw [bind_eq_error] at h
  rcases h with hport | ⟨_, files₄, -, hvcpkg⟩
  · rw [updatePortfile] at hport
    obtain ⟨rfl, hraised | ⟨content, hbump⟩⟩ := of_rewriteFile_eq_error hport
    · cases hraised
    · rcases exit_of_bumpPortfile hbump with ⟨repo, rfl⟩ | ⟨path, rfl⟩
      · exact Or.inr ⟨rfl, hrecipes⟩
      · exact Or.inr ⟨rfl, hrecipes⟩
  · rw [updateVcpkgJson] at hvcpkg
    obtain ⟨-, hraised | ⟨content, hbump⟩⟩ := of_rewriteFile_eq_error hvcpkg
    · cases hraised
    · exact absurd hbump bumpVcpkgJson_ne_exit

/-- What the recipe step leaves depends on CMakeLists.txt and conanfile.py only. -/
theorem updateRecipes_congr {args : Arguments} {files files' other other' : Files}
    (hcmakelists : other.cmakelists = files.cmakelists)
    (hconanfile : other.conanfile = files.conanfile)
    (h : updateRecipes args files = (.ok (), files'))
    (hother : updateRecipes args other = (.ok (), other')) :
    files'.cmakelists = other'.cmakelists ∧ files'.conanfile = other'.conanfile ∧
      files'.conandata = other'.conandata := by
  obtain ⟨cmakelists, cmakelists', conanfile, conanfile', hread, hbump, hread', hbump', rfl⟩ :=
    updateRecipes_eq_ok.mp h
  obtain ⟨_, _, _, _, hreado, hbumpo, hreado', hbumpo', rfl⟩ := updateRecipes_eq_ok.mp hother
  rw [hcmakelists, hread, Option.some.injEq] at hreado
  rw [hconanfile, hread', Option.some.injEq] at hreado'
  subst hreado hreado'
  rw [hbump] at hbumpo
  rw [hbump'] at hbumpo'
  cases hbumpo
  cases hbumpo'
  exact ⟨rfl, rfl, rfl⟩

/-- An error exit never touches the port.  Before the portfile step it touches
    nothing; in that step it leaves the three recipe files as a finished run with
    the same arguments leaves them. -/
theorem failed_bump (env : Environment) (args : Arguments) {files files' : Files} {e : Exit}
    (h : updatePackageFiles env args files = (.error (.exit e), files')) :
    files'.portfile = files.portfile ∧ files'.vcpkgJson = files.vcpkgJson ∧
      (e.precedesWrites = true → files' = files) ∧
      (e.precedesWrites = false →
        updateRecipes args files = (.ok (), files') ∧
        ∀ other other' : Files, other.cmakelists = files.cmakelists →
          other.conanfile = files.conanfile →
          updatePackageFiles env args other = (.ok (), other') →
          files'.cmakelists = other'.cmakelists ∧ files'.conanfile = other'.conanfile ∧
            files'.conandata = other'.conandata) := by
  rcases of_updatePackageFiles_eq_exit h with ⟨he, rfl⟩ | ⟨he, hrecipes⟩
  · refine ⟨rfl, rfl, fun _ => rfl, fun hlate => ?_⟩
    rw [he] at hlate
    cases hlate
  obtain ⟨_, _, _, _, -, -, -, -, hfiles⟩ := updateRecipes_eq_ok.mp hrecipes
  refine ⟨by rw [hfiles], by rw [hfiles], fun hearly => ?_, fun _ => ⟨hrecipes, ?_⟩⟩
  · rw [he] at hearly
    cases hearly
  · intro other other' hcmakelists hconanfile hdone
    obtain ⟨_, between, _, _, -, hother, -, -, hc, hf, hd, -⟩ := updatePackageFiles_eq_ok hdone
    rw [hc, hf, hd]
    exact updateRecipes_congr hcmakelists hconanfile hrecipes hother

section Sample

/-- Every archive is there and has the same hash. -/
def sameArchives : Environment where
  archive _ := .file (List.replicate 128 '0')
  setVersion _ content := some content
  hexdigest := by
    intro path sha512 h
    cases h
    refine ⟨List.length_replicate, fun c hc => ?_⟩
    rw [(List.mem_replicate.mp hc).2]
    exact List.mem_cons_self ..

/-- A bump to version 2 without submodules. -/
def bumpToTwo : Arguments where
  package := text "p"
  repo := text "o/p"
  version := text "2"
  ref := text "r2"
  archive := text "p.tar.gz"
  rootDir := text "."
  conanDir := text "c"
  vcpkgDir := text "v"
  submodule := []

/-- A package at version 1 whose portfile fetches nothing. -/
def emptyPort : Files where
  cmakelists := some (text "project(p VERSION 1)")
  conanfile := some (text "version = \"1\"")
  conandata := none
  portfile := some []
  vcpkgJson := some []

/-- The run stops in the portfile step, and the recipes are at version 2. -/
theorem updatePackageFiles_emptyPort :
    updatePackageFiles sameArchives bumpToTwo emptyPort
      = (.error (.exit (.noBlocks (text "v/portfile.cmake"))),
          { emptyPort with
            cmakelists := some (text "project(p VERSION 2)")
            conanfile := some (text "version = \"2\"")
            conandata := some (conandataText bumpToTwo) }) := rfl

theorem failed_bump_changes_recipes :
    ¬ ∀ (env : Environment) (args : Arguments) (files files' : Files) (e : Exit),
        updatePackageFiles env args files = (.error (.exit e), files') → files' = files := by
  intro h
  have hsame := h _ _ _ _ _ updatePackageFiles_emptyPort
  have hcmakelists := congrArg Files.cmakelists hsame
  exact absurd hcmakelists (by decide)

theorem failed_bump_emptyPort :
    updateRecipes bumpToTwo emptyPort
      = (.ok (), { emptyPort with
          cmakelists := some (text "project(p VERSION 2)")
          conanfile := some (text "version = \"2\"")
          conandata := some (conandataText bumpToTwo) }) :=
  ((failed_bump sameArchives bumpToTwo updatePackageFiles_emptyPort).2.2.2 rfl).1

end Sample

end RateThrottle.Scripts
