/-
  RateThrottle.Scripts.Python

  What scripts/update_package_files.py uses of Python's `str`, `re` and
  `pathlib`.

  A text is its list of characters.  The patterns of the script are sequences
  of literals and repeated classes (`Pattern.Atom`); replacement templates are
  parsed as `re` does for a pattern without groups, so that a backslash in a
  version or a commit is an escape (`parseTemplate`).
-/

import RateThrottle.Library.Pattern

namespace RateThrottle.Scripts

open Pattern

/-- `str`. -/
abbrev Text := List Char

/-- The characters of a string literal. -/
def text (literal : String) : Text := literal.toList

/-- `\s` on `str`. -/
def isSpace (c : Char) : Bool :=
  let n := c.toNat
  9 ≤ n && n ≤ 13 || 28 ≤ n && n ≤ 32 || n == 0x85 || n == 0xA0 || n == 0x1680
    || 0x2000 ≤ n && n ≤ 0x200A || n == 0x2028 || n == 0x2029 || n == 0x202F || n == 0x205F
    || n == 0x3000

/-- `\S`. -/
def nonSpace (c : Char) : Bool := !isSpace c

/-- The newline translation of `read_text`. -/
def universalNewlines : Text → Text
  | [] => []
  | '\r' :: '\n' :: rest => '\n' :: universalNewlines rest
  | '\r' :: rest => '\n' :: universalNewlines rest
  | c :: rest => c :: universalNewlines rest

/-- A text without carriage returns is read as it is. -/
theorem not_mem_universalNewlines (t : Text) : '\r' ∉ universalNewlines t := by
  fun_induction universalNewlines t with
  | case1 => simp
  | case2 rest ih => simpa using ih
  | case3 rest _ ih => simpa using ih
  | case4 c rest _ hc ih =>
      rw [List.mem_cons, not_or]
      exact ⟨fun heq => hc heq.symm, ih⟩

theorem universalNewlines_of_not_mem {t : Text} (h : '\r' ∉ t) : universalNewlines t = t := by
  fun_induction universalNewlines t with
  | case1 => rfl
  | case2 rest ih => exact absurd (List.mem_cons_self ..) h
  | case3 rest hnext ih => exact absurd (List.mem_cons_self ..) h
  | case4 c rest hnext hcr ih => rw [ih fun hmem => h (List.mem_cons_of_mem c hmem)]

/-- `value.split(sep, 1)`, where it has two parts. -/
def splitOnce (sep : Char) (value : Text) : Option (Text × Text) :=
  match value.dropWhile (· ≠ sep) with
  | [] => none
  | _ :: rest => some (value.takeWhile (· ≠ sep), rest)

/-- The parts of a path between its separators. -/
def pathParts : Text → List Text
  | [] => [[]]
  | c :: rest =>
      match pathParts rest with
      | [] => [[c]]
      | part :: parts => if c = '/' then [] :: part :: parts else (c :: part) :: parts

/-- `dir / name` before it is normalised. -/
def pathJoin (dir name : Text) : Text := if dir = [] then name else dir ++ '/' :: name

/-- `str(pathlib.PurePosixPath(path))`. -/
def pathStr (path : Text) : Text :=
  let parts := (pathParts path).filter fun part => part ≠ [] && part ≠ ['.']
  let root : Text :=
    match path with
    | '/' :: '/' :: '/' :: _ => ['/']
    | '/' :: '/' :: _ => ['/', '/']
    | '/' :: _ => ['/']
    | _ => []
  let body := List.intercalate ['/'] parts
  if root ++ body = [] then ['.'] else root ++ body

-- ============================================================================
-- Replacement templates
-- ============================================================================

/-- A piece of a parsed template: text as it is, or the whole match. -/
inductive TemplateItem where
  | text (t : Text)
  | whole

def isOctal (c : Char) : Bool := '0' ≤ c && c ≤ '7'

def octal (c : Char) : Nat := c.toNat - 48

/-- The escape after a backslash and the number of characters it takes; none for
    an error.  Without groups every group but the whole match is an error. -/
def escapeItem : Text → Option (TemplateItem × Nat)
  | [] => none
  | 'g' :: '<' :: rest =>
      let name := rest.takeWhile (· ≠ '>')
      if name ≠ [] && name.all (· = '0') && name.length < rest.length then
        some (.whole, 3 + name.length)
      else none
  | '0' :: rest =>
      let digits := (rest.take 2).takeWhile isOctal
      let code := digits.foldl (fun n c => n * 8 + octal c) 0
      some (.text [.ofNat (code % 256)], 1 + digits.length)
  | a :: b :: c :: _ =>
      if isOctal a && isOctal b && isOctal c then
        let code := octal a * 64 + octal b * 8 + octal c
        if code ≤ 255 then some (.text [.ofNat code], 3) else none
      else simpleEscape a
  | a :: _ => simpleEscape a
where
  /-- An escape of one character. -/
  simpleEscape (c : Char) : Option (TemplateItem × Nat) :=
    match c with
    | 'a' => some (.text [.ofNat 7], 1)
    | 'b' => some (.text [.ofNat 8], 1)
    | 'f' => some (.text [.ofNat 12], 1)
    | 'n' => some (.text ['\n'], 1)
    | 'r' => some (.text ['\r'], 1)
    | 't' => some (.text ['\t'], 1)
    | 'v' => some (.text [.ofNat 11], 1)
    | '\\' => some (.text ['\\'], 1)
    | c => if c.isAlpha || c.isDigit then none else some (.text ['\\', c], 1)

/-- The template from a position on; the number is that of characters which
    belong to the escape before. -/
def parseTemplateFrom : Nat → Text → Option (List TemplateItem)
  | _, [] => some []
  | skip + 1, _ :: rest => parseTemplateFrom skip rest
  | 0, c :: rest =>
      if c = '\\' then
        match escapeItem rest with
        | none => none
        | some (item, used) => (parseTemplateFrom used rest).map (item :: ·)
      else (parseTemplateFrom 0 rest).map (.text [c] :: ·)

/-- `re._parser.parse_template`. -/
def parseTemplate (template : Text) : Option (List TemplateItem) := parseTemplateFrom 0 template

/-- The replacement for one match. -/
def expand (items : List TemplateItem) (found : Text) : Text :=
  items.flatMap fun
    | .text t => t
    | .whole => found

/-- A template without a backslash is its own replacement. -/
theorem parseTemplate_of_not_mem {template : Text} (h : '\\' ∉ template) :
    parseTemplate template = some (template.map fun c => .text [c]) := by
  rw [parseTemplate]
  induction template with
  | nil => rfl
  | cons c rest ih =>
      have hc : c ≠ '\\' := fun heq => h (by rw [heq]; exact List.mem_cons_self ..)
      rw [parseTemplateFrom, if_neg hc, ih fun hmem => h (List.mem_cons_of_mem c hmem)]
      rfl

theorem expand_text (template found : Text) :
    expand (template.map fun c => .text [c]) found = template := by
  induction template with
  | nil => rfl
  | cons c rest ih =>
      rw [expand] at ih
      rw [expand, List.map_cons, List.flatMap_cons, ih]
      rfl

-- ============================================================================
-- Substitution
-- ============================================================================

/-- `re.sub(pattern, template, t, count=1)`; none is an exception. -/
def subOnce (pattern : List (Atom Char)) (template t : Text) : Option Text :=
  match parseTemplate template with
  | none => none
  | some items =>
      match search pattern t with
      | none => some t
      | some (before, pieces, rest) => some (before ++ (expand items pieces.flatten ++ rest))

/-- `re.sub(pattern, template, t)`; none is an exception. -/
def subAll (pattern : List (Atom Char)) (template t : Text) : Option Text :=
  match parseTemplate template with
  | none => none
  | some items =>
      match subn pattern (fun pieces => (.ok (expand items pieces.flatten) : Except Unit Text)) 0 t
      with
      | .error _ => none
      | .ok (t', _) => some t'

/-- The leftmost match is replaced by the template as it is written. -/
theorem subOnce_of_search {pattern : List (Atom Char)} {template t before rest : Text}
    {pieces : List Text} (hplain : '\\' ∉ template)
    (hsearch : search pattern t = some (before, pieces, rest)) :
    subOnce pattern template t = some (before ++ (template ++ rest)) := by
  rw [subOnce, parseTemplate_of_not_mem hplain]
  simp only [hsearch, expand_text]

theorem subOnce_of_search_eq_none {pattern : List (Atom Char)} {template t : Text}
    (hplain : '\\' ∉ template) (hsearch : search pattern t = none) :
    subOnce pattern template t = some t := by
  rw [subOnce, parseTemplate_of_not_mem hplain]
  simp only [hsearch]

/-- What `re.sub` writes for every match, when the template has no backslash. -/
def constantly (template : Text) (_ : List Text) : Except Unit Text := .ok template

theorem subAll_eq_some {pattern : List (Atom Char)} {template t t' : Text}
    (hslash : '\\' ∉ template) :
    subAll pattern template t = some t'
      ↔ ∃ n, subn pattern (constantly template) 0 t = .ok (t', n) := by
  have hexpand : (fun pieces : List Text =>
      (.ok (expand (template.map fun c => .text [c]) pieces.flatten) : Except Unit Text))
        = constantly template := by
    funext pieces
    rw [expand_text, constantly]
  rw [subAll, parseTemplate_of_not_mem hslash]
  simp only [hexpand]
  cases subn pattern (constantly template) 0 t with
  | error e => simp
  | ok result => simp [Prod.ext_iff]

/-- A substitution adds the characters of its template. -/
theorem not_mem_of_subOnce {c : Char} {pattern : List (Atom Char)} {template t t' : Text}
    (hslash : '\\' ∉ template) (htemplate : c ∉ template) (ht : c ∉ t)
    (h : subOnce pattern template t = some t') : c ∉ t' := by
  cases hsearch : search pattern t with
  | none =>
      rw [subOnce_of_search_eq_none hslash hsearch] at h
      rwa [← Option.some.inj h]
  | some split =>
      obtain ⟨before, pieces, rest⟩ := split
      rw [subOnce_of_search hslash hsearch] at h
      obtain ⟨found, rfl, hmatch, -⟩ := search_eq_some_iff.mp hsearch
      obtain ⟨rfl, -⟩ := matchPrefix_sound hmatch
      rw [← Option.some.inj h]
      simp only [List.mem_append, not_or] at ht ⊢
      exact ⟨ht.1, htemplate, ht.2.2⟩

/-- A substitution keeps the first character, when no match starts with it. -/
theorem head?_of_subOnce {c d : Char} {keyword template t t' : Text} {atoms : List (Atom Char)}
    (hne : c ≠ d) (hstart : t.head? = some c)
    (h : subOnce (.lit (d :: keyword) :: atoms) template t = some t') : t'.head? = some c := by
  rw [subOnce] at h
  split at h
  · cases h
  · split at h
    · rw [← Option.some.inj h]
      exact hstart
    · next before pieces rest hsearch =>
        obtain ⟨found, rfl, hmatch, -⟩ := search_eq_some_iff.mp hsearch
        rw [← Option.some.inj h]
        cases before with
        | nil =>
            obtain ⟨tail, rfl⟩ := prefix_of_matchPrefix hmatch
            exact absurd (Option.some.inj hstart).symm hne
        | cons e before => exact hstart

end RateThrottle.Scripts
