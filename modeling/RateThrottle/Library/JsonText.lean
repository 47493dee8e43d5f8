/-
  RateThrottle.Library.JsonText

  JSON arrays of objects that are printed by hand, one member a line:

      [
        {
          "key": value,
          "key": value
        },
        ...
      ]

  A `Member` is a key, the text printed for its value, and the value that a
  reader makes of that text, none when the text is no JSON value.
  `read_arrayText` gives the outcome of reading the whole array, whether it
  succeeds or not: the array can be read exactly when every value can.
-/

import RateThrottle.Library.Json

namespace Json

/-! ## Texts -/

/-- A member of a printed object. -/
structure Member where
  /-- What stands between the comma or brace before the member and its key. -/
  indent : List UInt8
  key : List UInt8
  text : List UInt8
  value : Option Json

/-- The line of a member, up to the end of its value. -/
def Member.line (m : Member) : List UInt8 :=
  m.indent ++ [34] ++ m.key ++ [34, 58, 32] ++ m.text

/-- The lines of the members. -/
def linesText : List Member → List UInt8
  | [] => []
  | [m] => m.line ++ [10]
  | m :: m' :: rest => m.line ++ [44] ++ linesText (m' :: rest)

/-- An object. -/
def objectText (members : List Member) : List UInt8 :=
  [32, 32, 123] ++ linesText members ++ [32, 32, 125]

/-- The objects of an array. -/
def objectsText : List (List Member) → List UInt8
  | [] => []
  | [o] => objectText o ++ [10]
  | o :: o' :: rest => objectText o ++ [44, 10] ++ objectsText (o' :: rest)

/-- An array of objects. -/
def arrayText (objects : List (List Member)) : List UInt8 :=
  [91, 10] ++ objectsText objects ++ [93, 10]

/-! ## What a reader makes of them -/

/-- The key can stand between quotes, and the value is read from its text,
    wherever a comma or the end of the line follows. -/
structure Member.Sound (m : Member) : Prop where
  space : ∀ c ∈ m.indent, isSpace c = true
  plain : ∀ c ∈ m.key, isPlain c = true
  utf8 : validUtf8 m.key = true
  reads : ∀ fuel text, text.head? = some 44 ∨ text.head? = some 10 →
    ∃ spaces, (∀ c ∈ spaces, isSpace c = true) ∧
      readValue (fuel + 1) (32 :: (m.text ++ text)) = m.value.map fun v => (v, spaces ++ text)

/-- The members of an object as they are read. -/
def membersOf (members : List Member) : Option (List (List UInt8 × Json)) :=
  members.mapM fun m => m.value.map fun v => (m.key, v)

/-- The object as it is read. -/
def objectOf (members : List Member) : Option Json :=
  (membersOf members).map fun ms => object (mapOf ms)

theorem membersOf_cons (m : Member) (members : List Member) :
    membersOf (m :: members)
      = m.value.bind fun v => (membersOf members).map fun ms => (m.key, v) :: ms := by
  rw [membersOf, List.mapM_cons]
  cases m.value with
  | none => rfl
  | some v =>
      simp only [Option.map_some, Option.bind_eq_bind, Option.bind_some, membersOf,
        Option.pure_def]
      cases members.mapM fun m => m.value.map fun v => (m.key, v) <;> rfl

/-- Every value is read. -/
theorem isSome_membersOf (members : List Member) :
    (membersOf members).isSome = members.all fun m => m.value.isSome := by
  induction members with
  | nil => rfl
  | cons m members ih =>
      rw [membersOf_cons, List.all_cons, ← ih]
      cases m.value <;> cases membersOf members <;> rfl

theorem skipSpace_line {m : Member} (hm : m.Sound) (text : List UInt8) :
    skipSpace (m.line ++ text) = 34 :: (m.key ++ 34 :: 58 :: 32 :: (m.text ++ text)) := by
  simp only [Member.line, List.append_assoc]
  rw [skipSpace_append hm.space]
  rfl

theorem skipSpace_colon (text : List UInt8) : skipSpace (58 :: text) = 58 :: text := rfl

/-- The last line of an object. -/
theorem readMembers_lastLine {fuel n : Nat} {m : Member} (hm : m.Sound) (after : List UInt8) :
    readMembers (readValue (fuel + 1)) (n + 1) (m.line ++ 10 :: 32 :: 32 :: 125 :: after)
      = m.value.map fun v => ([(m.key, v)], after) := by
  obtain ⟨spaces, hspaces, hreads⟩ := hm.reads fuel (10 :: 32 :: 32 :: 125 :: after) (.inr rfl)
  have hskip : skipSpace (spaces ++ 10 :: 32 :: 32 :: 125 :: after) = 125 :: after := by
    rw [skipSpace_append hspaces]
    rfl
  rw [readMembers, skipSpace_line hm]
  simp only [if_true, readString_plain hm.plain hm.utf8, Option.bind_some, skipSpace_colon, hreads]
  cases m.value with
  | none => rfl
  | some v =>
      simp only [Option.map_some, Option.bind_some, hskip]
      rfl

/-- A line that is followed by another. -/
theorem readMembers_line {fuel n : Nat} {m : Member} (hm : m.Sound) (tail : List UInt8) :
    readMembers (readValue (fuel + 1)) (n + 1) (m.line ++ 44 :: tail)
      = m.value.bind fun v =>
        (readMembers (readValue (fuel + 1)) n tail).map fun r => ((m.key, v) :: r.1, r.2) := by
  obtain ⟨spaces, hspaces, hreads⟩ := hm.reads fuel (44 :: tail) (.inl rfl)
  have hskip : skipSpace (spaces ++ 44 :: tail) = 44 :: tail := by
    rw [skipSpace_append hspaces]
    rfl
  rw [readMembers, skipSpace_line hm]
  simp only [if_true, readString_plain hm.plain hm.utf8, Option.bind_some, skipSpace_colon, hreads]
  cases m.value with
  | none => rfl
  | some v => simp only [Option.map_some, Option.bind_some, hskip, if_true]

/-- The lines of an object, up to its closing brace. -/
theorem readMembers_linesText (fuel : Nat) {members : List Member} (hne : members ≠ [])
    (hsound : ∀ m ∈ members, m.Sound) {n : Nat} (hn : members.length ≤ n) (after : List UInt8) :
    readMembers (readValue (fuel + 1)) n (linesText members ++ 32 :: 32 :: 125 :: after)
      = (membersOf members).map fun ms => (ms, after) := by
  induction members generalizing n with
  | nil => exact absurd rfl hne
  | cons m members ih =>
      rw [List.length_cons] at hn
      obtain ⟨n, rfl⟩ : ∃ k, n = k + 1 := ⟨n - 1, by omega⟩
      have hm := hsound m List.mem_cons_self
      cases members with
      | nil =>
          have htext : linesText [m] ++ 32 :: 32 :: 125 :: after
              = m.line ++ 10 :: 32 :: 32 :: 125 :: after := by
            rw [linesText, List.append_assoc]
            rfl
          rw [htext, readMembers_lastLine hm, membersOf_cons]
          cases m.value <;> rfl
      | cons m' members =>
          have htext : linesText (m :: m' :: members) ++ 32 :: 32 :: 125 :: after
              = m.line ++ 44 :: (linesText (m' :: members) ++ 32 :: 32 :: 125 :: after) := by
            simp only [linesText, List.append_assoc]
            rfl
          have hrest := ih (List.cons_ne_nil m' members)
            (fun x hx => hsound x (List.mem_cons_of_mem m hx)) (Nat.le_of_succ_le_succ hn)
          rw [htext, readMembers_line hm, membersOf_cons, hrest]
          cases m.value with
          | none => rfl
          | some v => cases membersOf (m' :: members) <;> rfl

/-- A printed object. -/
structure Sound (members : List Member) : Prop where
  nonempty : members ≠ []
  sound : ∀ m ∈ members, m.Sound

theorem readValue_objectText {fuel : Nat} {members : List Member} (h : Sound members)
    (hfuel : members.length ≤ fuel) (after : List UInt8) :
    readValue (fuel + 1) (10 :: (objectText members ++ after))
      = (objectOf members).map fun v => (v, after) := by
  have hpos : 0 < members.length := List.length_pos_iff.mpr h.nonempty
  obtain ⟨fuel, rfl⟩ : ∃ k, fuel = k + 1 := ⟨fuel - 1, by omega⟩
  have hopen : skipSpace (10 :: (objectText members ++ after))
      = 123 :: (linesText members ++ 32 :: 32 :: 125 :: after) := by
    simp only [objectText, List.append_assoc]
    rfl
  have hbrace : ∃ tail, skipSpace (linesText members ++ 32 :: 32 :: 125 :: after)
      = 34 :: tail := by
    cases members with
    | nil => exact absurd rfl h.nonempty
    | cons m rest =>
        have hm := h.sound m List.mem_cons_self
        cases rest with
        | nil =>
            rw [linesText, List.append_assoc]
            exact ⟨_, skipSpace_line hm _⟩
        | cons m' rest =>
            rw [linesText, List.append_assoc, List.append_assoc]
            exact ⟨_, skipSpace_line hm _⟩
  obtain ⟨tail, htail⟩ := hbrace
  have hmembers := readMembers_linesText fuel h.nonempty h.sound hfuel after
  rw [readValue, hopen]
  simp only [htail, hmembers, objectOf]
  cases membersOf members <;> rfl

/-- The objects of an array, up to its closing bracket. -/
theorem readElements_objectsText (fuel : Nat) {objects : List (List Member)} (hne : objects ≠ [])
    (hsound : ∀ o ∈ objects, Sound o) (hfuel : ∀ o ∈ objects, o.length ≤ fuel) {n : Nat}
    (hn : objects.length ≤ n) (after : List UInt8) :
    readElements (readValue (fuel + 1)) n (10 :: (objectsText objects ++ 93 :: after))
      = (objects.mapM objectOf).map fun values => (values, after) := by
  induction objects generalizing n with
  | nil => exact absurd rfl hne
  | cons o objects ih =>
      rw [List.length_cons] at hn
      obtain ⟨n, rfl⟩ : ∃ k, n = k + 1 := ⟨n - 1, by omega⟩
      have ho := hsound o List.mem_cons_self
      have hlen := hfuel o List.mem_cons_self
      cases objects with
      | nil =>
          have htext : objectsText [o] ++ 93 :: after = objectText o ++ 10 :: 93 :: after := by
            rw [objectsText, List.append_assoc]
            rfl
          rw [htext, readElements, readValue_objectText ho hlen, List.mapM_cons, List.mapM_nil]
          cases objectOf o <;> rfl
      | cons o' objects =>
          have htext : objectsText (o :: o' :: objects) ++ 93 :: after
              = objectText o ++ 44 :: 10 :: (objectsText (o' :: objects) ++ 93 :: after) := by
            simp only [objectsText, List.append_assoc]
            rfl
          have hrest := ih (List.cons_ne_nil o' objects)
            (fun x hx => hsound x (List.mem_cons_of_mem o hx))
            (fun x hx => hfuel x (List.mem_cons_of_mem o hx)) (Nat.le_of_succ_le_succ hn)
          have hcomma : ∀ text : List UInt8, skipSpace (44 :: text) = 44 :: text := fun _ => rfl
          rw [htext, readElements, readValue_objectText ho hlen, List.mapM_cons]
          cases objectOf o with
          | none => rfl
          | some v =>
              simp only [Option.map_some, Option.bind_some, hcomma, if_true, hrest,
                Option.bind_eq_bind, Option.pure_def]
              cases (o' :: objects).mapM objectOf <;> rfl

/-! ## A whole array -/

theorem length_linesText (members : List Member) : members.length ≤ (linesText members).length := by
  induction members with
  | nil => exact Nat.zero_le _
  | cons m members ih =>
      cases members with
      | nil => simp [linesText]
      | cons m' members =>
          simp only [linesText, List.length_append, List.length_cons] at ih ⊢
          omega

theorem length_objectsText (objects : List (List Member)) :
    objects.length ≤ (objectsText objects).length ∧
      ∀ o ∈ objects, o.length ≤ (objectsText objects).length := by
  induction objects with
  | nil => simp
  | cons o objects ih =>
      have hlines := length_linesText o
      cases objects with
      | nil =>
          simp only [objectsText, objectText, List.length_append, List.length_cons,
            List.length_nil, List.mem_singleton, forall_eq]
          omega
      | cons o' objects =>
          obtain ⟨hlength, hmem⟩ := ih
          have htext : (objectsText (o :: o' :: objects)).length
              = (linesText o).length + (objectsText (o' :: objects)).length + 8 := by
            simp only [objectsText, objectText, List.length_append, List.length_cons,
              List.length_nil]
            omega
          rw [htext]
          refine ⟨by rw [List.length_cons]; omega, ?_⟩
          intro x hx
          rcases List.mem_cons.mp hx with rfl | hx
          · omega
          · have := hmem x hx
            omega

/-- **Reading a printed array.** The array of its objects, up to the last byte of
    the text, when every value is read; otherwise nothing. -/
theorem read_arrayText {objects : List (List Member)} (hsound : ∀ o ∈ objects, Sound o) :
    read (arrayText objects) = (objects.mapM objectOf).map fun values => (array values, [10]) := by
  cases objects with
  | nil => rfl
  | cons o objects =>
      obtain ⟨hlength, hmem⟩ := length_objectsText (o :: objects)
      have htext : arrayText (o :: objects)
          = 91 :: 10 :: (objectsText (o :: objects) ++ 93 :: [10]) := by
        simp only [arrayText, List.append_assoc]
        rfl
      obtain ⟨fuel, hfuel⟩ : ∃ fuel, (arrayText (o :: objects)).length = fuel + 1 ∧
          (objectsText (o :: objects)).length ≤ fuel := by
        rw [htext]
        refine ⟨(objectsText (o :: objects)).length + 3, ?_, by omega⟩
        simp only [List.length_append, List.length_cons, List.length_nil]
      have hcount : (o :: objects).length ≤ fuel + 1 := by omega
      have helements := readElements_objectsText fuel (List.cons_ne_nil o objects) hsound
        (fun x hx => (hmem x hx).trans hfuel.2) hcount [10]
      have hbrace : ∃ tail, skipSpace (10 :: (objectsText (o :: objects) ++ 93 :: [10]))
          = 123 :: tail := by
        cases objects <;> simp only [objectsText, objectText, List.append_assoc] <;> exact ⟨_, rfl⟩
      obtain ⟨tail, htail⟩ := hbrace
      have hopen : ∀ text : List UInt8, skipSpace (91 :: text) = 91 :: text := fun _ => rfl
      rw [read, hfuel.1, htext, readValue, hopen]
      simp only [htail, helements]
      cases (o :: objects).mapM objectOf <;> rfl

/-- The array is a JSON document exactly when every value can be read. -/
theorem wellFormed_arrayText_iff {objects : List (List Member)} (hsound : ∀ o ∈ objects, Sound o) :
    WellFormed (arrayText objects) ↔ ∀ o ∈ objects, ∀ m ∈ o, m.value.isSome = true := by
  have hobjects : (objects.mapM objectOf).isSome = true
      ↔ ∀ o ∈ objects, ∀ m ∈ o, m.value.isSome = true := by
    clear hsound
    induction objects with
    | nil => simp
    | cons o objects ih =>
        rw [List.forall_mem_cons, ← ih, ← List.all_eq_true, ← isSome_membersOf, List.mapM_cons,
          objectOf]
        cases membersOf o <;> cases objects.mapM objectOf <;> simp
  rw [← hobjects, WellFormed, read_arrayText hsound]
  cases objects.mapM objectOf with
  | none => simp
  | some values =>
      refine iff_of_true ⟨_, _, rfl, ?_⟩ rfl
      decide

end Json
