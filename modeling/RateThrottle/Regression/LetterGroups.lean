/-
  RateThrottle.Regression.LetterGroups

  The letter groups of `methods` (`groupMethodsByLetter` in regression/custom
  and regression/google) as a partition of the names.

  The loop merges adjacent names only.  That every letter gets one group rests
  on the sort: its comparison upper-cases bytes the way `letterOf` does, so names
  under one letter are adjacent and the letters increase.
-/

import RateThrottle.Regression.Methods

namespace RateThrottle.Regression

open Adjacent

/-- A text as the comparison reads it: the values of its upper-cased bytes. -/
def upperCodes (text : Bytes) : List Nat := text.map fun c => (toupper c).toNat

/-- The groups hold the names in case-insensitive order, and each of the
    increasing letters has the names that start with it. -/
structure SortedPartition (names : List Bytes) (groups : List (UInt8 × List Bytes)) : Prop where
  distinct : (groups.map Prod.fst).Nodup
  increasing : (groups.map Prod.fst).Pairwise fun letter letter' => letter < letter'
  perm : (groups.flatMap Prod.snd).Perm names
  sorted : (groups.flatMap Prod.snd).Pairwise fun a b => upperCodes a ≤ upperCodes b
  members : ∀ letter members, (letter, members) ∈ groups → ∀ name,
    name ∈ members ↔ name ∈ names ∧ name.head?.map toupper = some letter

theorem methodLess_eq_false_iff {a b : Bytes} :
    methodLess b a = false ↔ upperCodes a ≤ upperCodes b := by
  rw [← not_lt, ← Bool.not_eq_true, upperCodes, upperCodes, ← methodLess_iff]

/-- Non-empty names in order have their letters in order. -/
theorem letterOf_le {a b : Bytes} (ha : a ≠ []) (hb : b ≠ [])
    (h : upperCodes a ≤ upperCodes b) : (letterOf a).toNat ≤ (letterOf b).toNat := by
  obtain ⟨x, xs, rfl⟩ := List.exists_cons_of_ne_nil ha
  obtain ⟨y, ys, rfl⟩ := List.exists_cons_of_ne_nil hb
  have hrank := sortRank_le_of_not_less (methodLess_eq_false_iff.mpr h)
  exact Nat.le_of_succ_le_succ hrank

theorem letterOf_eq_iff_head? {name : Bytes} (hname : name ≠ []) (letter : UInt8) :
    letterOf name = letter ↔ name.head?.map toupper = some letter := by
  obtain ⟨front, rest, rfl⟩ := List.exists_cons_of_ne_nil hname
  exact (Option.some_inj).symm

/-- **Letter grouping is a sorted partition**, for every sort and all non-empty
    names, repeated or not. -/
theorem groupMethodsByLetter_sortedPartition (sort : MethodSort) {names : List Bytes}
    (hnames : ∀ name ∈ names, name ≠ []) :
    SortedPartition names (groupMethodsByLetter sort names) := by
  have hperm := sort.perm names
  have hsorted : (sort.sort names).Pairwise fun a b => upperCodes a ≤ upperCodes b :=
    (sort.sorted names).imp methodLess_eq_false_iff.mp
  have hne : ∀ name ∈ sort.sort names, name ≠ [] := fun name hname =>
    hnames name (hperm.mem_iff.mp hname)
  have hletters : (sort.sort names).Pairwise fun a b =>
      (letterOf a).toNat ≤ (letterOf b).toNat :=
    hsorted.imp_of_mem fun ha hb hle => letterOf_le (hne _ ha) (hne _ hb) hle
  have hincreasing : ((groupMethodsByLetter sort names).map Prod.fst).Pairwise
      fun letter letter' => letter.toNat < letter'.toNat :=
    pairwise_keys (fun _ _ h => UInt8.toNat_inj.mp h) hletters
  have hdistinct : ((groupMethodsByLetter sort names).map Prod.fst).Nodup :=
    hincreasing.imp fun hlt heq => Nat.ne_of_lt hlt (congrArg UInt8.toNat heq)
  refine ⟨hdistinct, hincreasing.imp UInt8.lt_iff_toNat_lt.mpr, ?_, ?_, ?_⟩
  · rw [groupMethodsByLetter, flatMap_group]
    exact hperm
  · rw [groupMethodsByLetter, flatMap_group]
    exact hsorted
  · intro letter members hgroup name
    rw [mem_members_iff hdistinct hgroup, hperm.mem_iff]
    exact and_congr_right fun hname => letterOf_eq_iff_head? (hnames name hname) letter

/-- Two names under `P`, and bytes that are no letters. -/
theorem sortedPartition_push_pop :
    SortedPartition [bytes "push_back", bytes "10x insert", bytes "Pop", bytes "élan"]
      [(49, [bytes "10x insert"]), (80, [bytes "Pop", bytes "push_back"]),
        (195, [bytes "élan"])] := by
  have hgroups : groupMethodsByLetter .insertion
      [bytes "push_back", bytes "10x insert", bytes "Pop", bytes "élan"]
    = [(49, [bytes "10x insert"]), (80, [bytes "Pop", bytes "push_back"]),
        (195, [bytes "élan"])] := by
    decide +kernel
  rw [← hgroups]
  exact groupMethodsByLetter_sortedPartition .insertion (by decide)

end RateThrottle.Regression
