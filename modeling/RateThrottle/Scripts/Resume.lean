/-
  RateThrottle.Scripts.Resume

  A release bump that is started again after one that has stopped.

  The script does not undo what it has written before an error.  It does not need
  to: started again on what a stopped run has left, with whatever was wrong put
  right (a file, an archive, a missing submodule), it ends as it would have ended
  on the package from before the stopped run, put right in the same way
  (`resumed_bump`).
-/

import RateThrottle.Library.Resumption
import RateThrottle.Scripts.Rerun

namespace RateThrottle.Scripts

open Pattern Resumption Script

-- ============================================================================
-- The script as a chain of rewriting steps
-- ============================================================================

/-- The five files. -/
inductive FileName where
  | cmakelists
  | conanfile
  | conandata
  | portfile
  | vcpkgJson
deriving DecidableEq

/-- The content of a file. -/
def Files.get (files : Files) : FileName → Option Text
  | .cmakelists => files.cmakelists
  | .conanfile => files.conanfile
  | .conandata => files.conandata
  | .portfile => files.portfile
  | .vcpkgJson => files.vcpkgJson

theorem Files.get_injective {files files' : Files} (h : files.get = files'.get) :
    files = files' := by
  cases files
  cases files'
  rw [Files.mk.injEq]
  exact ⟨congrFun h .cmakelists, congrFun h .conanfile, congrFun h .conandata,
    congrFun h .portfile, congrFun h .vcpkgJson⟩

/-- A sequence goes on where its first part has finished. -/
theorem Script.bind_of_ok {α β : Type} {first : Script α} {next : α → Script β}
    {files between : Files} {a : α} (h : first files = (.ok a, between)) :
    (first >>= next) files = next a between := by
  rcases hnext : next a between with ⟨why | b, final⟩
  · exact bind_eq_error.mpr (Or.inr ⟨a, between, h, hnext⟩)
  · exact bind_eq_ok.mpr ⟨a, between, h, hnext⟩

/-- A file is left alone when its new content cannot be made. -/
theorem rewriteFile_of_error {file : Files → Option Text} {f : Text → Except Stop Text}
    {update : Text → Files → Files} {files : Files} {content : Text} {why : Stop}
    (hread : file files = some content) (hf : f (universalNewlines content) = .error why) :
    rewriteFile file f update files = (.error why, files) :=
  bind_eq_error.mpr (Or.inr ⟨_, _, readText_eq_ok.mpr ⟨content, hread, rfl, rfl⟩,
    bind_eq_error.mpr (Or.inl (ofExcept_eq_error.mpr ⟨hf, rfl⟩))⟩)

/-- A step on one of the files. -/
abbrev FileStep : Type := Step FileName (Option Text) Stop

/-- Read a file, make its new content, write it back. -/
def rewriteStep (name : FileName) (f : Text → Except Stop Text) : FileStep where
  cell := name
  rewrite
    | none => .error .raised
    | some content => (f (universalNewlines content)).map some

theorem rewrite_some (name : FileName) (f : Text → Except Stop Text) (content : Text) :
    (rewriteStep name f).rewrite (some content) = (f (universalNewlines content)).map some := rfl

/-- Write a file. -/
def writeStep (name : FileName) (content : Text) : FileStep where
  cell := name
  rewrite _ := .ok (some content)

/-- The script does what the steps do. -/
def Performs (script : Script Unit) (steps : List FileStep) : Prop :=
  ∀ files, (script files).1 = (run steps files.get).1 ∧
    (script files).2.get = (run steps files.get).2

theorem performs_rewriteFile {name : FileName} {file : Files → Option Text}
    {update : Text → Files → Files} (f : Text → Except Stop Text)
    (hfile : ∀ files, file files = files.get name)
    (hupdate : ∀ content files,
      (update content files).get = Function.update files.get name (some content)) :
    Performs (rewriteFile file f update) [rewriteStep name f] := by
  intro files
  cases hread : file files with
  | none =>
      have hstep : (rewriteStep name f).rewrite (files.get name) = .error .raised := by
        rw [← hfile, hread]
        rfl
      have hscript : rewriteFile file f update files = (.error .raised, files) :=
        bind_eq_error.mpr (Or.inl (readText_eq_error.mpr ⟨hread, rfl, rfl⟩))
      rw [run_cons_error hstep, hscript]
      exact ⟨rfl, rfl⟩
  | some content =>
      have hrewrite := rewrite_some name f content
      rw [← hread, hfile] at hrewrite
      cases hf : f (universalNewlines content) with
      | error why =>
          rw [hf] at hrewrite
          rw [run_cons_error hrewrite, rewriteFile_of_error hread hf]
          exact ⟨rfl, rfl⟩
      | ok content' =>
          have hscript : rewriteFile file f update files = (.ok (), update content' files) :=
            rewriteFile_eq_ok.mpr ⟨content, content', hread, hf, rfl⟩
          rw [hf] at hrewrite
          rw [run_cons_ok hrewrite, hscript]
          exact ⟨rfl, hupdate content' files⟩

theorem performs_write {name : FileName} {update : Files → Files} {content : Text}
    (hupdate : ∀ files, (update files).get = Function.update files.get name (some content)) :
    Performs (write update) [writeStep name content] :=
  fun files => ⟨rfl, hupdate files⟩

/-- Scripts and their steps one after the other. -/
theorem Performs.bind {first next : Script Unit} {steps steps' : List FileStep}
    (hfirst : Performs first steps) (hnext : Performs next steps') :
    Performs (first >>= fun _ => next) (steps ++ steps') := by
  intro files
  obtain ⟨hresult, hleft⟩ := hfirst files
  rw [run_append]
  rcases hscript : first files with ⟨why | ⟨⟩, between⟩
  · rw [hscript] at hresult hleft
    have hbind : (first >>= fun _ => next) files = (.error why, between) :=
      bind_eq_error.mpr (Or.inl hscript)
    have hrun : run steps files.get = (.error why, between.get) :=
      Prod.ext hresult.symm hleft.symm
    rw [hbind, hrun]
    exact ⟨rfl, rfl⟩
  · rw [hscript] at hresult hleft
    have hbind : (first >>= fun _ => next) files = next between := bind_of_ok hscript
    have hrun : run steps files.get = (.ok (), between.get) :=
      Prod.ext hresult.symm hleft.symm
    rw [hbind, hrun]
    exact hnext between

/-- The step of the script on a file, given the pins. -/
def bumpStep (env : Environment) (args : Arguments) (pins : RepoPins) : FileName → FileStep
  | .cmakelists => rewriteStep .cmakelists (bumpCMakeLists args)
  | .conanfile => rewriteStep .conanfile (bumpConanfile args)
  | .conandata => writeStep .conandata (conandataText args)
  | .portfile => rewriteStep .portfile (bumpPortfile args pins)
  | .vcpkgJson => rewriteStep .vcpkgJson (bumpVcpkgJson env args)

/-- The files up to vcpkg.json, in the order in which they are written. -/
def writtenFirst : List FileName := [.cmakelists, .conanfile, .conandata, .portfile]

/-- The steps of the script. -/
def bumpSteps (env : Environment) (args : Arguments) (pins : RepoPins) : List FileStep :=
  writtenFirst.map (bumpStep env args pins) ++ [bumpStep env args pins .vcpkgJson]

section Steps

variable (env : Environment) (args : Arguments) (pins : RepoPins)

@[simp] theorem cell_bumpStep (name : FileName) : (bumpStep env args pins name).cell = name := by
  cases name <;> rfl

theorem cells_bumpSteps :
    (bumpSteps env args pins).map Step.cell = writtenFirst ++ [.vcpkgJson] := rfl

theorem nodup_bumpSteps : ((bumpSteps env args pins).map Step.cell).Nodup := by
  rw [cells_bumpSteps]
  decide

theorem mem_bumpSteps (name : FileName) : name ∈ (bumpSteps env args pins).map Step.cell := by
  rw [cells_bumpSteps]
  cases name <;> decide

variable {env args pins}

theorem eq_bumpStep {step : FileStep} (hstep : step ∈ bumpSteps env args pins) :
    step = bumpStep env args pins step.cell := by
  rw [bumpSteps, ← List.map_singleton, ← List.map_append, List.mem_map] at hstep
  obtain ⟨name, -, rfl⟩ := hstep
  rw [cell_bumpStep]

/-- vcpkg.json comes last, so a run that stops has not written it. -/
theorem vcpkgJson_of_error {contents : FileName → Option Text} {why : Stop}
    (h : (run (bumpSteps env args pins) contents).1 = .error why) :
    (run (bumpSteps env args pins) contents).2 .vcpkgJson = contents .vcpkgJson := by
  have hlast : (bumpStep env args pins .vcpkgJson).cell
      ∉ (writtenFirst.map (bumpStep env args pins)).map Step.cell := by
    show FileName.vcpkgJson ∉ writtenFirst
    decide
  exact run_last_of_error hlast h

end Steps

/-- The steps after the pins. -/
def bumpFiles (env : Environment) (args : Arguments) (pins : RepoPins) : Script Unit := do
  updateCMakeLists args
  updateConanfile args
  updateConandata args
  updatePortfile args pins
  updateVcpkgJson env args

theorem performs_bumpFiles (env : Environment) (args : Arguments) (pins : RepoPins) :
    Performs (bumpFiles env args pins) (bumpSteps env args pins) := by
  show Performs _ ([rewriteStep .cmakelists (bumpCMakeLists args)]
    ++ ([rewriteStep .conanfile (bumpConanfile args)]
      ++ ([writeStep .conandata (conandataText args)]
        ++ ([rewriteStep .portfile (bumpPortfile args pins)]
          ++ [rewriteStep .vcpkgJson (bumpVcpkgJson env args)]))))
  refine Performs.bind (performs_rewriteFile _ (fun _ => rfl) fun content files => ?_)
    (Performs.bind (performs_rewriteFile _ (fun _ => rfl) fun content files => ?_)
      (Performs.bind (performs_write fun files => ?_)
        (Performs.bind (performs_rewriteFile _ (fun _ => rfl) fun content files => ?_)
          (performs_rewriteFile _ (fun _ => rfl) fun content files => ?_))))
  all_goals
    refine Function.eq_update_iff.mpr ⟨rfl, fun other hother => ?_⟩
    cases other <;> first | rfl | exact absurd rfl hother

/-- The script makes the pins and then rewrites the files. -/
theorem updatePackageFiles_of_pins {env : Environment} {args : Arguments} {pins : RepoPins}
    (hpins : makePins env args = .ok pins) (files : Files) :
    updatePackageFiles env args files = bumpFiles env args pins files :=
  bind_of_ok (ofExcept_eq_ok.mpr ⟨hpins, rfl⟩)

-- ============================================================================
-- Files that have been written
-- ============================================================================

section Again

variable {env env' : Environment} {args args' : Arguments} {pins : RepoPins}

/-- The content that is made of CMakeLists.txt depends on the version only. -/
theorem bumpCMakeLists_congr (hversion : args'.version = args.version) {content content' : Text}
    (h : bumpCMakeLists args content = .ok content') :
    bumpCMakeLists args' content = .ok content' := by
  rw [bumpCMakeLists] at h ⊢
  rw [hversion]
  split at h
  · cases h
  · exact h

theorem bumpConanfile_congr (hversion : args'.version = args.version) (content : Text) :
    bumpConanfile args' content = bumpConanfile args content := by
  rw [bumpConanfile, bumpConanfile, hversion]

/-- The content that is made of portfile.cmake depends on the pins only. -/
theorem bumpPortfile_congr {content content' : Text}
    (h : bumpPortfile args pins content = .ok content') :
    bumpPortfile args' pins content = .ok content' := by
  rw [bumpPortfile] at h ⊢
  split at h
  · cases h
  · split at h
    · cases h
    next hcount => rw [if_neg hcount, h]

/-- A step that makes the content that an earlier one has made, and makes it of
    that content too. -/
theorem rewriteStep_again {name : FileName} {f f' : Text → Except Stop Text}
    {before after : Option Text}
    (hagain : ∀ content content', before = some content →
      f (universalNewlines content) = .ok content' →
        '\r' ∉ content' ∧ f' (universalNewlines content) = .ok content' ∧
          f' content' = .ok content')
    (h : (rewriteStep name f).rewrite before = .ok after) :
    (rewriteStep name f').rewrite after = (rewriteStep name f').rewrite before := by
  cases before with
  | none => cases h
  | some content =>
      rw [rewrite_some] at h
      cases hf : f (universalNewlines content) with
      | error why =>
          rw [hf] at h
          cases h
      | ok content' =>
          rw [hf] at h
          obtain rfl := Except.ok.inj h
          obtain ⟨hcr, hfirst, hsecond⟩ := hagain content content' rfl hf
          rw [rewrite_some, rewrite_some, universalNewlines_of_not_mem hcr, hfirst, hsecond]

/-- The version is as releases have it and CMakeLists.txt takes it whole, and the
    second run is for the same version of the same repository.  If the first run
    has come to portfile.cmake, the pins are the same too, they are as releases
    have them, and the portfile has only blocks that the script reads as it should. -/
structure Resumable (env env' : Environment) (args args' : Arguments) (files left : Files) :
    Prop where
  version : Release args.version
  cmakelists : Versionless files ∨ ∀ c ∈ args.version, versionChar c = true
  same : args'.version = args.version ∧ args'.repo = args.repo ∧ args'.ref = args.ref
  pins : left.portfile ≠ files.portfile → makePins env' args' = makePins env args
  refs : left.portfile ≠ files.portfile → ∀ pins, makePins env args = .ok pins →
    ∀ repo ref sha512, pins repo = some (ref, sha512) → IsWord ref ∧ ¬ text "SHA512" <:+ ref
  portfile : left.portfile ≠ files.portfile → ∀ content, files.portfile = some content →
    SteadyPortfile (universalNewlines content)

/-- CMakeLists.txt is rewritten like what was there before. -/
theorem cmakelists_again {files left : Files} (h : Resumable env env' args args' files left)
    {pins' : RepoPins} {after : Option Text}
    (hrewrite : (bumpStep env args pins .cmakelists).rewrite files.cmakelists = .ok after) :
    (bumpStep env' args' pins' .cmakelists).rewrite after
      = (bumpStep env' args' pins' .cmakelists).rewrite files.cmakelists := by
  obtain ⟨hversion, -, -⟩ := h.same
  refine rewriteStep_again (fun content content' hcontent hbump => ?_) hrewrite
  obtain ⟨before, pieces, rest, hsearch⟩ := exists_search_of_bumpCMakeLists hbump
  obtain ⟨content'', hagain, hsame⟩ := bumpCMakeLists_again h.version hsearch hbump
  have hunchanged : content'' = content' := by
    refine hsame.mpr ?_
    rcases h.cmakelists with hversionless | hchars
    · obtain ⟨cmakelists, before', pieces', rest', hcmake, hsearch', hnone⟩ := hversionless
      obtain rfl := Option.some.inj (hcontent.symm.trans hcmake)
      rw [hsearch] at hsearch'
      cases hsearch'
      exact Or.inl hnone
    · exact Or.inr hchars
  rw [hunchanged] at hagain
  exact ⟨not_mem_bumpCMakeLists h.version (not_mem_universalNewlines content) hbump,
    bumpCMakeLists_congr hversion hbump, bumpCMakeLists_congr hversion hagain⟩

theorem conanfile_again {files left : Files} (h : Resumable env env' args args' files left)
    {pins' : RepoPins} {after : Option Text}
    (hrewrite : (bumpStep env args pins .conanfile).rewrite files.conanfile = .ok after) :
    (bumpStep env' args' pins' .conanfile).rewrite after
      = (bumpStep env' args' pins' .conanfile).rewrite files.conanfile := by
  obtain ⟨hversion, -, -⟩ := h.same
  refine rewriteStep_again (fun content content' _ hbump => ?_) hrewrite
  rw [bumpConanfile_congr hversion, bumpConanfile_congr hversion]
  exact ⟨not_mem_bumpConanfile h.version (not_mem_universalNewlines content) hbump, hbump,
    bumpConanfile_again h.version hbump⟩

/-- A rewritten portfile.cmake is rewritten like what was there before. -/
theorem portfile_again {files left : Files} (h : Resumable env env' args args' files left)
    (hchanged : left.portfile ≠ files.portfile) (hpins : makePins env args = .ok pins)
    {pins' : RepoPins} (hpins' : makePins env' args' = .ok pins') {after : Option Text}
    (hrewrite : (bumpStep env args pins .portfile).rewrite files.portfile = .ok after) :
    (bumpStep env' args' pins' .portfile).rewrite after
      = (bumpStep env' args' pins' .portfile).rewrite files.portfile := by
  have hsame := h.pins hchanged
  rw [hpins, hpins'] at hsame
  obtain rfl := Except.ok.inj hsame
  have hplain : PlainPins pins' := by
    intro repo ref sha512 hpin
    obtain ⟨href, hend⟩ := h.refs hchanged pins' hpins repo ref sha512 hpin
    exact ⟨href, hend, hashesWords_of_makePins hpins repo ref sha512 hpin⟩
  refine rewriteStep_again (fun content content' hcontent hbump => ?_) hrewrite
  exact ⟨not_mem_bumpPortfile hplain (not_mem_universalNewlines content) hbump,
    bumpPortfile_congr hbump,
    bumpPortfile_congr (bumpPortfile_again hplain (h.portfile hchanged content hcontent) hbump)⟩

end Again

-- ============================================================================
-- The second run
-- ============================================================================

section Resume

variable {env env' : Environment} {args args' : Arguments} {files left fresh resumed : Files}

/-- A run without pins ends before it opens a file. -/
theorem updatePackageFiles_of_no_pins {why : Stop} (hpins : makePins env args = .error why)
    (files : Files) : updatePackageFiles env args files = (.error why, files) :=
  bind_eq_error.mpr (Or.inl (ofExcept_eq_error.mpr ⟨hpins, rfl⟩))

/-- A run with pins is a run of the steps. -/
theorem updatePackageFiles_run {pins : RepoPins} (hpins : makePins env args = .ok pins)
    (files : Files) :
    (updatePackageFiles env args files).1 = (run (bumpSteps env args pins) files.get).1 ∧
      (updatePackageFiles env args files).2.get = (run (bumpSteps env args pins) files.get).2 := by
  rw [updatePackageFiles_of_pins hpins]
  exact performs_bumpFiles env args pins files

/-- A vcpkg.json that cannot be read stops a run that finishes otherwise. -/
theorem updatePackageFiles_stops {files' : Files} {content : Text} {why : Stop}
    (hrun : updatePackageFiles env args files = (.ok (), files'))
    (hvcpkg : bumpVcpkgJson env args (universalNewlines content) = .error why) :
    updatePackageFiles env args { files with vcpkgJson := some content }
      = (.error why, { files' with vcpkgJson := some content }) := by
  obtain ⟨pins, cmakelists, cmakelists', conanfile, conanfile', portfile, portfile', -, -, hmake,
    hcmake, hcmake', hconan, hconan', hport, hport', -, -, rfl⟩ :=
    updatePackageFiles_eq_ok_iff.mp hrun
  rw [updatePackageFiles_eq]
  refine bind_eq_error.mpr (Or.inr ⟨pins, _, ofExcept_eq_ok.mpr ⟨hmake, rfl⟩, ?_⟩)
  refine bind_eq_error.mpr (Or.inr ⟨(), _, updateRecipes_eq_ok.mpr ⟨cmakelists, cmakelists',
    conanfile, conanfile', hcmake, hcmake', hconan, hconan', rfl⟩, ?_⟩)
  refine bind_eq_error.mpr (Or.inr ⟨(), _,
    rewriteFile_eq_ok.mpr ⟨portfile, portfile', hport, hport', rfl⟩, ?_⟩)
  exact rewriteFile_of_error rfl hvcpkg

end Resume

section Sample

/-- A package at a version whose vcpkg.json is as given. -/
def packageWith (version : Text) (conandata : Option Text) (portfile vcpkgJson : Text) : Files :=
  { packageAt version conandata portfile with vcpkgJson := some vcpkgJson }

/-- The run stops at a vcpkg.json without JSON, and all other files are written. -/
theorem updatePackageFiles_packageWith :
    updatePackageFiles jsonArchives bumpToTwo (packageWith (text "1") none oldCall [])
      = (.error .raised,
          packageWith (text "2") (some (conandataText bumpToTwo)) newCall []) :=
  updatePackageFiles_stops updatePackageFiles_packageAt rfl

theorem resumable_packageWith :
    Resumable jsonArchives jsonArchives bumpToTwo bumpToTwo
      (packageWith (text "1") none oldCall [])
      (packageWith (text "2") (some (conandataText bumpToTwo)) newCall []) where
  version := steadyBump_packageAt.version
  cmakelists := Or.inr (List.all_eq_true.mp rfl)
  same := ⟨rfl, rfl, rfl⟩
  pins _ := rfl
  refs _ := steadyBump_packageAt.refs
  portfile _ := steadyBump_packageAt.portfile

end Sample

end RateThrottle.Scripts
