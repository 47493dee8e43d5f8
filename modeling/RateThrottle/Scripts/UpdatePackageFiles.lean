/-
  RateThrottle.Scripts.UpdatePackageFiles

  scripts/update_package_files.py: the release bump of the five package files.

  The script reads and writes the files one after the other and stops at the
  first error; a `Script` is that kind of computation, whose effects remain when
  it stops.  Its own error exits are `Exit`; every other failure (a file that
  cannot be read, a bad replacement template, a vcpkg.json that is no JSON
  object) is an uncaught exception.

  The archives and the JSON module are outside the script (`Environment`).
-/

import Mathlib.Logic.Function.Basic
import RateThrottle.Scripts.Python

namespace RateThrottle.Scripts

open Pattern

-- ============================================================================
-- Arguments, files and outcomes
-- ============================================================================

/-- The parsed command line. -/
structure Arguments where
  package : Text
  repo : Text
  version : Text
  ref : Text
  archive : Text
  rootDir : Text
  conanDir : Text
  vcpkgDir : Text
  submodule : List Text

/-- The content of the five files; none where a file cannot be read as UTF-8. -/
structure Files where
  cmakelists : Option Text
  conanfile : Option Text
  conandata : Option Text
  portfile : Option Text
  vcpkgJson : Option Text
deriving DecidableEq

/-- What is found under the path of an archive. -/
inductive Archive where
  | missing
  | unreadable
  | file (sha512 : Text)

/-- The archives with their `hexdigest`, and `data["version"] = version` between
    `json.loads` and `json.dumps`, which may raise. -/
structure Environment where
  archive : Text → Archive
  setVersion : Text → Text → Option Text
  hexdigest : ∀ path sha512, archive path = .file sha512 →
    sha512.length = 128 ∧ ∀ c ∈ sha512, c ∈ text "0123456789abcdef"

/-- The error exits of the script. -/
inductive Exit where
  | malformedSubmodule (value : Text)
  | archiveNotFound (archive : Text)
  | submoduleArchiveNotFound (archive : Text)
  | noProject (path : Text)
  | noPin (repo : Text)
  | noBlocks (path : Text)
deriving DecidableEq

/-- What `sys.exit` prints. -/
def Exit.message : Exit → Text
  | .malformedSubmodule value =>
      text "Malformed --submodule value (expected NAME=repo:sha:archive): " ++ value
  | .archiveNotFound archive => text "Archive not found: " ++ archive
  | .submoduleArchiveNotFound archive => text "Submodule archive not found: " ++ archive
  | .noProject path => text "No project() call found in " ++ path
  | .noPin repo => text "No pin supplied for REPO " ++ repo ++ text " in portfile.cmake"
  | .noBlocks path => text "No vcpkg_from_github() blocks found in " ++ path

/-- Why a run ends before its last line. -/
inductive Stop where
  | exit (e : Exit)
  | raised
deriving DecidableEq

/-- A computation on the files; when it stops the files stay as they are by then. -/
def Script (α : Type) : Type := Files → Except Stop α × Files

namespace Script

def stop {α : Type} (why : Stop) : Script α := fun files => (.error why, files)

/-- `path.read_text(encoding="utf-8")`. -/
def readText (file : Files → Option Text) : Script Text := fun files =>
  match file files with
  | none => (.error .raised, files)
  | some content => (.ok (universalNewlines content), files)

/-- `path.write_text(content, encoding="utf-8")`. -/
def write (update : Files → Files) : Script Unit := fun files => (.ok (), update files)

/-- The result of a function that may stop. -/
def ofExcept {α : Type} (result : Except Stop α) : Script α := fun files => (result, files)

instance : Monad Script where
  pure a := fun files => (.ok a, files)
  bind first next := fun files =>
    match first files with
    | (.ok a, files') => next a files'
    | (.error why, files') => (.error why, files')

/-- Read a file, make its new content, write it back. -/
def rewriteFile (file : Files → Option Text) (f : Text → Except Stop Text)
    (update : Text → Files → Files) : Script Unit := do
  let content ← readText file
  let content' ← ofExcept (f content)
  write (update content')

variable {α β : Type} {first : Script α} {next : α → Script β} {files files' : Files}

/-- A sequence finishes when both parts do. -/
theorem bind_eq_ok {b : β} :
    (first >>= next) files = (.ok b, files')
      ↔ ∃ a between, first files = (.ok a, between) ∧ next a between = (.ok b, files') := by
  show (match first files with | (.ok a, f) => next a f | (.error why, f) => (.error why, f)) = _ ↔ _
  rcases first files with ⟨why | a, between⟩
  · simp
  · simp

/-- A sequence stops in its first part or in its second. -/
theorem bind_eq_error {why : Stop} :
    (first >>= next) files = (.error why, files')
      ↔ first files = (.error why, files') ∨
        ∃ a between, first files = (.ok a, between) ∧ next a between = (.error why, files') := by
  show (match first files with | (.ok a, f) => next a f | (.error why, f) => (.error why, f)) = _ ↔ _
  rcases first files with ⟨why | a, between⟩
  · simp
  · simp

theorem ofExcept_eq_ok {result : Except Stop α} {a : α} :
    ofExcept result files = (.ok a, files') ↔ result = .ok a ∧ files' = files := by
  rw [ofExcept, Prod.mk.injEq, eq_comm (a := files)]

theorem ofExcept_eq_error {result : Except Stop α} {why : Stop} :
    ofExcept result files = (.error why, files') ↔ result = .error why ∧ files' = files := by
  rw [ofExcept, Prod.mk.injEq, eq_comm (a := files)]

theorem readText_eq_ok {file : Files → Option Text} {t : Text} :
    readText file files = (.ok t, files')
      ↔ ∃ content, file files = some content ∧ t = universalNewlines content ∧ files' = files := by
  rw [readText]
  cases file files with
  | none => simp
  | some content => simp [eq_comm]

theorem readText_eq_error {file : Files → Option Text} {why : Stop} :
    readText file files = (.error why, files')
      ↔ file files = none ∧ why = .raised ∧ files' = files := by
  rw [readText]
  cases file files with
  | none => simp [eq_comm]
  | some content => simp

/-- A rewritten file was read, and its new content made, without failure. -/
theorem rewriteFile_eq_ok {file : Files → Option Text} {f : Text → Except Stop Text}
    {update : Text → Files → Files} :
    rewriteFile file f update files = (.ok (), files')
      ↔ ∃ content content', file files = some content ∧
          f (universalNewlines content) = .ok content' ∧ files' = update content' files := by
  rw [rewriteFile, bind_eq_ok]
  refine ⟨?_, ?_⟩
  · rintro ⟨_, _, hread, h⟩
    obtain ⟨content, hcontent, rfl, rfl⟩ := readText_eq_ok.mp hread
    obtain ⟨content', _, hresult, hwrite⟩ := bind_eq_ok.mp h
    obtain ⟨hf, rfl⟩ := ofExcept_eq_ok.mp hresult
    exact ⟨content, content', hcontent, hf, (Prod.mk.inj hwrite).2.symm⟩
  · rintro ⟨content, content', hcontent, hf, rfl⟩
    exact ⟨_, _, readText_eq_ok.mpr ⟨content, hcontent, rfl, rfl⟩,
      bind_eq_ok.mpr ⟨_, _, ofExcept_eq_ok.mpr ⟨hf, rfl⟩, rfl⟩⟩

/-- A file that is not rewritten is left alone, for a reason that lies in it. -/
theorem of_rewriteFile_eq_error {file : Files → Option Text} {f : Text → Except Stop Text}
    {update : Text → Files → Files} {why : Stop}
    (h : rewriteFile file f update files = (.error why, files')) :
    files' = files ∧ (why = .raised ∨ ∃ content, f content = .error why) := by
  rw [rewriteFile, bind_eq_error] at h
  rcases h with hread | ⟨_, _, hread, h⟩
  · obtain ⟨-, rfl, rfl⟩ := readText_eq_error.mp hread
    exact ⟨rfl, Or.inl rfl⟩
  · obtain ⟨content, -, rfl, rfl⟩ := readText_eq_ok.mp hread
    rcases bind_eq_error.mp h with hresult | ⟨_, _, -, hwrite⟩
    · obtain ⟨hf, rfl⟩ := ofExcept_eq_error.mp hresult
      exact ⟨rfl, Or.inr ⟨_, hf⟩⟩
    · cases hwrite

end Script

open Script

-- ============================================================================
-- Pins
-- ============================================================================

/-- `parse_submodule`: NAME=repo:sha:archive. -/
def parseSubmodule (value : Text) : Except Stop (Text × Text × Text × Text) :=
  match splitOnce '=' value with
  | none => .error (.exit (.malformedSubmodule value))
  | some (name, rest) =>
      match splitOnce ':' rest with
      | none => .error (.exit (.malformedSubmodule value))
      | some (subRepo, rest) =>
          match splitOnce ':' rest with
          | none => .error (.exit (.malformedSubmodule value))
          | some (subSha, subArchive) => .ok (name, subRepo, subSha, subArchive)

/-- `repo_pins`: the commit and the hash of a repository. -/
abbrev RepoPins := Text → Option (Text × Text)

/-- The body of the loop over the submodules. -/
def addSubmodule (env : Environment) (repoPins : RepoPins)
    (submodule : Text × Text × Text × Text) : Except Stop RepoPins :=
  match submodule with
  | (_, subRepo, subSha, subArchivePath) =>
      match env.archive subArchivePath with
      | .missing => .error (.exit (.submoduleArchiveNotFound (pathStr subArchivePath)))
      | .unreadable => .error .raised
      | .file subSha512 => .ok (Function.update repoPins subRepo (some (subSha, subSha512)))

/-- Everything before the first file is opened: the arguments and the pins. -/
def makePins (env : Environment) (args : Arguments) : Except Stop RepoPins :=
  match args.submodule.mapM parseSubmodule with
  | .error why => .error why
  | .ok submodules =>
      match env.archive args.archive with
      | .missing => .error (.exit (.archiveNotFound (pathStr args.archive)))
      | .unreadable => .error .raised
      | .file sha512 =>
          submodules.foldlM (addSubmodule env)
            (Function.update (fun _ => none) args.repo (some (args.ref, sha512)))

-- ============================================================================
-- Root CMakeLists.txt
-- ============================================================================

/-- `project\s*\([^)]*\)`. -/
def projectRe : List (Atom Char) :=
  [.lit (text "project"), .star isSpace, .lit (text "("), .star (· ≠ ')'), .lit (text ")")]

/-- `[0-9A-Za-z.\-_]`. -/
def versionChar (c : Char) : Bool := c.isAlphanum || c = '.' || c = '-' || c = '_'

/-- `VERSION\s+[0-9A-Za-z.\-_]+`. -/
def versionRe : List (Atom Char) := [.lit (text "VERSION"), .plus isSpace, .plus versionChar]

/-- `_bump_project_version`. -/
def bumpProjectVersion (version call : Text) : Option Text :=
  subOnce versionRe (text "VERSION " ++ version) call

/-- The new content of CMakeLists.txt. -/
def bumpCMakeLists (args : Arguments) (content : Text) : Except Stop Text :=
  match search projectRe content with
  | none => .error (.exit (.noProject (pathStr (pathJoin args.rootDir (text "CMakeLists.txt")))))
  | some (before, pieces, rest) =>
      match bumpProjectVersion args.version pieces.flatten with
      | none => .error .raised
      | some call => .ok (before ++ (call ++ rest))

def updateCMakeLists (args : Arguments) : Script Unit :=
  rewriteFile Files.cmakelists (bumpCMakeLists args) fun content files =>
    { files with cmakelists := some content }

-- ============================================================================
-- Conan
-- ============================================================================

/-- `version\s*=\s*"[^"]+"`. -/
def conanVersionRe : List (Atom Char) :=
  [.lit (text "version"), .star isSpace, .lit (text "="), .star isSpace, .lit (text "\""),
    .plus (· ≠ '"'), .lit (text "\"")]

/-- The new content of conanfile.py. -/
def bumpConanfile (args : Arguments) (content : Text) : Except Stop Text :=
  match subAll conanVersionRe (text "version = \"" ++ args.version ++ text "\"") content with
  | none => .error .raised
  | some content' => .ok content'

def updateConanfile (args : Arguments) : Script Unit :=
  rewriteFile Files.conanfile (bumpConanfile args) fun content files =>
    { files with conanfile := some content }

/-- The new conandata.yml. -/
def conandataText (args : Arguments) : Text :=
  text "sources:\n  \"" ++ args.version ++ text "\":\n    url: \"https://github.com/" ++ args.repo
    ++ text ".git\"\n    commit: \"" ++ args.ref ++ text "\"\n"

def updateConandata (args : Arguments) : Script Unit :=
  write fun files => { files with conandata := some (conandataText args) }

-- ============================================================================
-- vcpkg
-- ============================================================================

/-- `BLOCK_RE`; the first group is the piece after `REPO\s+`. -/
def blockRe : List (Atom Char) :=
  [.lit (text "vcpkg_from_github("), .star isSpace,
    .lit (text "OUT_SOURCE_PATH"), .plus isSpace, .plus nonSpace, .star isSpace,
    .lit (text "REPO"), .plus isSpace, .plus nonSpace, .star isSpace,
    .lit (text "REF"), .plus isSpace, .plus nonSpace, .star isSpace,
    .lit (text "SHA512"), .plus isSpace, .plus nonSpace, .star isSpace,
    .lit (text ")")]

/-- `REF\s+\S+`. -/
def refRe : List (Atom Char) := [.lit (text "REF"), .plus isSpace, .plus nonSpace]

/-- `SHA512\s+\S+`. -/
def sha512Re : List (Atom Char) := [.lit (text "SHA512"), .plus isSpace, .plus nonSpace]

/-- `_rewrite_block`. -/
def rewriteBlock (repoPins : RepoPins) (pieces : List Text) : Except Stop Text :=
  let blockRepo := pieces.getD 8 []
  match repoPins blockRepo with
  | none => .error (.exit (.noPin blockRepo))
  | some (blockRef, blockSha512) =>
      match subOnce refRe (text "REF " ++ blockRef) pieces.flatten with
      | none => .error .raised
      | some blockText =>
          match subOnce sha512Re (text "SHA512 " ++ blockSha512) blockText with
          | none => .error .raised
          | some blockText' => .ok blockText'

/-- The new content of portfile.cmake. -/
def bumpPortfile (args : Arguments) (repoPins : RepoPins) (content : Text) : Except Stop Text :=
  match subn blockRe (rewriteBlock repoPins) 0 content with
  | .error why => .error why
  | .ok (content', count) =>
      if count = 0 then
        .error (.exit (.noBlocks (pathStr (pathJoin args.vcpkgDir (text "portfile.cmake")))))
      else .ok content'

def updatePortfile (args : Arguments) (repoPins : RepoPins) : Script Unit :=
  rewriteFile Files.portfile (bumpPortfile args repoPins) fun content files =>
    { files with portfile := some content }

/-- The new content of vcpkg.json. -/
def bumpVcpkgJson (env : Environment) (args : Arguments) (content : Text) : Except Stop Text :=
  match env.setVersion args.version content with
  | none => .error .raised
  | some content' => .ok content'

def updateVcpkgJson (env : Environment) (args : Arguments) : Script Unit :=
  rewriteFile Files.vcpkgJson (bumpVcpkgJson env args) fun content files =>
    { files with vcpkgJson := some content }

/-- The whole script. -/
def updatePackageFiles (env : Environment) (args : Arguments) : Script Unit := do
  let repoPins ← ofExcept (makePins env args)
  updateCMakeLists args
  updateConanfile args
  updateConandata args
  updatePortfile args repoPins
  updateVcpkgJson env args

-- ============================================================================
-- Which exits a step can take
-- ============================================================================

/-- The exits of the script before it opens a file. -/
def Exit.isArgumentError : Exit → Bool
  | .malformedSubmodule _ | .archiveNotFound _ | .submoduleArchiveNotFound _ => true
  | .noProject _ | .noPin _ | .noBlocks _ => false

section Exits

variable {env : Environment} {args : Arguments} {e : Exit} {content : Text}

theorem exit_of_parseSubmodule {value : Text} (h : parseSubmodule value = .error (.exit e)) :
    e.isArgumentError = true := by
  rw [parseSubmodule] at h
  split at h
  · cases h
    rfl
  · split at h
    · cases h
      rfl
    · split at h
      · cases h
        rfl
      · cases h

theorem exit_of_addSubmodule {repoPins : RepoPins} {submodule : Text × Text × Text × Text}
    (h : addSubmodule env repoPins submodule = .error (.exit e)) : e.isArgumentError = true := by
  rw [addSubmodule] at h
  split at h
  · cases h
    rfl
  · cases h
  · cases h

/-- A failing traversal fails at one of the elements. -/
theorem exists_of_mapM_eq_error {α β ε : Type} {f : α → Except ε β} {l : List α} {why : ε}
    (h : l.mapM f = .error why) : ∃ a ∈ l, f a = .error why := by
  induction l with
  | nil => cases h
  | cons a l ih =>
      rw [List.mapM_cons] at h
      cases hfirst : f a with
      | error why' =>
          rw [hfirst] at h
          cases h
          exact ⟨a, List.mem_cons_self .., hfirst⟩
      | ok b =>
          rw [hfirst] at h
          cases hrest : l.mapM f with
          | error why' =>
              rw [hrest] at h
              cases h
              obtain ⟨a', ha', hf⟩ := ih hrest
              exact ⟨a', List.mem_cons_of_mem a ha', hf⟩
          | ok bs =>
              rw [hrest] at h
              cases h

/-- A failing fold fails in one of its steps. -/
theorem exists_of_foldlM_eq_error {α β ε : Type} {f : β → α → Except ε β} {l : List α} {b : β}
    {why : ε} (h : l.foldlM f b = .error why) : ∃ b' a, f b' a = .error why := by
  induction l generalizing b with
  | nil => cases h
  | cons a l ih =>
      rw [List.foldlM_cons] at h
      cases hfirst : f b a with
      | error why' =>
          rw [hfirst] at h
          cases h
          exact ⟨b, a, hfirst⟩
      | ok b' =>
          rw [hfirst] at h
          exact ih h

theorem exit_of_makePins (h : makePins env args = .error (.exit e)) :
    e.isArgumentError = true := by
  rw [makePins] at h
  split at h
  · next why hparse =>
      cases h
      obtain ⟨value, -, hvalue⟩ := exists_of_mapM_eq_error hparse
      exact exit_of_parseSubmodule hvalue
  · split at h
    · cases h
      rfl
    · cases h
    · obtain ⟨repoPins, submodule, hstep⟩ := exists_of_foldlM_eq_error h
      exact exit_of_addSubmodule hstep

theorem exit_of_bumpCMakeLists (h : bumpCMakeLists args content = .error (.exit e)) :
    ∃ path, e = .noProject path := by
  rw [bumpCMakeLists] at h
  split at h
  · cases h
    exact ⟨_, rfl⟩
  · split at h
    · cases h
    · cases h

theorem bumpConanfile_ne_exit : bumpConanfile args content ≠ .error (.exit e) := by
  delta bumpConanfile
  split
  · intro h
    cases h
  · intro h
    cases h

theorem exit_of_rewriteBlock {repoPins : RepoPins} {pieces : List Text}
    (h : rewriteBlock repoPins pieces = .error (.exit e)) : ∃ repo, e = .noPin repo := by
  simp only [rewriteBlock] at h
  split at h
  · cases h
    exact ⟨_, rfl⟩
  · split at h
    · cases h
    · split at h
      · cases h
      · cases h

theorem exit_of_bumpPortfile {repoPins : RepoPins}
    (h : bumpPortfile args repoPins content = .error (.exit e)) :
    (∃ repo, e = .noPin repo) ∨ ∃ path, e = .noBlocks path := by
  rw [bumpPortfile] at h
  split at h
  · next hsub =>
      cases h
      obtain ⟨pieces, hblock⟩ := exists_of_subn_eq_error hsub
      exact Or.inl (exit_of_rewriteBlock hblock)
  · split at h
    · cases h
      exact Or.inr ⟨_, rfl⟩
    · cases h

theorem bumpVcpkgJson_ne_exit : bumpVcpkgJson env args content ≠ .error (.exit e) := by
  rw [bumpVcpkgJson]
  split
  · intro h
    cases h
  · intro h
    cases h

end Exits

end RateThrottle.Scripts
