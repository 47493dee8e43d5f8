/-
  RateThrottle.Regression.Methods

  Method ids of the custom regression tool: the tree that `methods` prints, and
  the way `main` resolves a method argument (regression/custom/support and
  regression_main.cpp).

  Both ends call `groupMethodsByLetter` on the same snapshot, so the groups are
  the same; `resolveMethodId` takes the first group under the letter.  A letter
  of the alphabet has one group (`find?_groupMethodsByLetter`), and the shape
  tests let its ids through.  Every other first character has a group with ids
  too, but no id or header of such a group passes the shape tests
  (`printed_ids_work_iff`).
-/

import Mathlib.Data.List.Lex
import Mathlib.Data.List.Sort
import RateThrottle.Library.Adjacent
import RateThrottle.Library.Decimal
import RateThrottle.Regression.Results

namespace RateThrottle.Regression

open Decimal Adjacent

-- ============================================================================
-- Sorting the operations
-- ============================================================================

/-- `std::lexicographical_compare`. -/
def lexicographicalCompare (less : UInt8 → UInt8 → Bool) : Bytes → Bytes → Bool
  | _, [] => false
  | [], _ :: _ => true
  | x :: xs, y :: ys =>
      if less x y then true
      else if less y x then false
      else lexicographicalCompare less xs ys

/-- The comparison of `groupMethodsByLetter`. -/
def methodLess (a b : Bytes) : Bool :=
  lexicographicalCompare (fun x y => toupper x < toupper y) a b

/-- `std::sort` with this comparison: some sorted permutation, the same one for
    the same input.  Operations that differ in case only may come in any order. -/
structure MethodSort where
  sort : List Bytes → List Bytes
  perm : ∀ operations, (sort operations).Perm operations
  sorted : ∀ operations, (sort operations).Pairwise fun a b => methodLess b a = false

/-- The comparison is that of the upper-cased texts. -/
theorem methodLess_iff {a b : Bytes} :
    methodLess a b = true
      ↔ a.map (fun c => (toupper c).toNat) < b.map fun c => (toupper c).toNat := by
  rw [methodLess]
  induction a generalizing b with
  | nil =>
      cases b with
      | nil => simp [lexicographicalCompare]
      | cons y ys => simp [lexicographicalCompare]
  | cons x xs ih =>
      cases b with
      | nil => simp [lexicographicalCompare]
      | cons y ys =>
          rw [lexicographicalCompare, List.map_cons, List.map_cons, List.cons_lt_cons_iff, ← ih]
          simp only [UInt8.lt_iff_toNat_lt, decide_eq_true_eq]
          split
          · next hlt => simp [hlt]
          · next hge =>
              split
              · next hgt => simp; omega
              · next hle =>
                  have heq : (toupper x).toNat = (toupper y).toNat := by omega
                  simp [heq]

/-- Insertion sort is such a sort. -/
def MethodSort.insertion : MethodSort where
  sort := List.insertionSort fun a b => methodLess b a = false
  perm := List.perm_insertionSort _
  sorted := by
    have hle : ∀ a b : Bytes, methodLess b a = false
        ↔ a.map (fun c => (toupper c).toNat) ≤ b.map fun c => (toupper c).toNat := by
      intro a b
      rw [← not_lt, ← methodLess_iff, Bool.not_eq_true]
    have htotal : Std.Total fun a b : Bytes => methodLess b a = false :=
      ⟨fun a b => by rw [hle, hle]; exact le_total _ _⟩
    have htrans : IsTrans Bytes fun a b => methodLess b a = false :=
      ⟨fun a b c => by rw [hle, hle, hle]; exact le_trans⟩
    exact List.pairwise_insertionSort _

-- ============================================================================
-- Groups
-- ============================================================================

/-- The letter an operation is grouped under. -/
def letterOf (operation : Bytes) : UInt8 :=
  match operation with
  | [] => 63
  | front :: _ => toupper front

/-- `groupMethodsByLetter`. -/
def groupMethodsByLetter (sort : MethodSort) (operations : List Bytes) :
    List (UInt8 × List Bytes) :=
  group letterOf (sort.sort operations)

/-- One line of the tree, `[id]  name`. -/
structure ListedMethod where
  id : Bytes
  name : Bytes
deriving DecidableEq

/-- The letter tree of `printMethods`: each group's letter and its lines. -/
def methodTree (sort : MethodSort) (results : List BenchmarkResult) :
    List (UInt8 × List ListedMethod) :=
  (groupMethodsByLetter sort (uniqueOperations results)).map fun (letter, members) =>
    (letter, members.zipIdx.map fun (member, j) => ⟨letter :: decimal (j + 1), member⟩)

-- ============================================================================
-- Resolving a method argument
-- ============================================================================

/-- `looksLikeMethodId`. -/
def looksLikeMethodId (s : Bytes) : Bool :=
  match s with
  | [] => false
  | front :: rest => rest ≠ [] && isalpha front && rest.all isDigit

/-- `std::stoul` of digits, as a `std::size_t`; the error is that of `std::out_of_range`. -/
def stoul (digits : Bytes) : Except Bytes Nat :=
  if ofDigits digits < 2 ^ 64 then .ok (ofDigits digits) else .error (bytes "stoul")

/-- `toupper(s.front())`, of a text that is not empty. -/
def frontLetter (s : Bytes) : UInt8 := toupper (s.headD 0)

/-- `resolveMethodId`, on the content of the baseline file. -/
def resolveMethodId (sort : MethodSort) (id : Bytes) (results : List BenchmarkResult) :
    Except Bytes Bytes := do
  let letter := frontLetter id
  let index ← stoul id.tail
  match (groupMethodsByLetter sort (uniqueOperations results)).find? fun g => g.1 = letter with
  | none => .error (bytes "Unknown method id: '" ++ id ++ bytes "'.")
  | some (_, members) =>
      if h : index = 0 ∨ index > members.length then
        .error (bytes "Method id '" ++ id ++ bytes "' is out of range for '" ++ [letter]
          ++ bytes "' (only " ++ decimal members.length ++ bytes ").")
      else .ok (members.get ⟨index - 1, by omega⟩)

/-- `looksLikeLetterGroup`. -/
def looksLikeLetterGroup (s : Bytes) : Bool :=
  match s with
  | [front] => isalpha front
  | _ => false

/-- `resolveLetterGroup`, on the content of the baseline file. -/
def resolveLetterGroup (sort : MethodSort) (letterArg : Bytes) (results : List BenchmarkResult) :
    Except Bytes (List Bytes) :=
  match (groupMethodsByLetter sort (uniqueOperations results)).find?
      fun g => g.1 = frontLetter letterArg with
  | none => .error (bytes "Unknown method group: '" ++ letterArg ++ bytes "'.")
  | some (_, members) => .ok members

/-- What `main` makes of the method filter before it applies it. -/
def resolveFilter (sort : MethodSort) (methodFilter : Bytes) (results : List BenchmarkResult) :
    Except Bytes Selection :=
  if looksLikeMethodId methodFilter then
    (resolveMethodId sort methodFilter results).map fun method => ⟨[], method⟩
  else if looksLikeLetterGroup methodFilter then
    (resolveLetterGroup sort methodFilter results).map fun methods => ⟨methods, methodFilter⟩
  else .ok ⟨[], methodFilter⟩

/-- The operations a run is restricted to, none when it is not. -/
def Selection.operations (selection : Selection) : Option (List Bytes) :=
  if selection.methodGroup ≠ [] then some selection.methodGroup
  else if selection.methodFilter ≠ [] then some [selection.methodFilter]
  else none

-- ============================================================================
-- A letter of the alphabet has one group
-- ============================================================================

/-- Where the sort puts an operation: empty ones first, then by first letter. -/
def sortRank (operation : Bytes) : Nat :=
  match operation with
  | [] => 0
  | front :: _ => (toupper front).toNat + 1

theorem sortRank_le_of_not_less {a b : Bytes} (h : methodLess b a = false) :
    sortRank a ≤ sortRank b := by
  cases a with
  | nil => exact Nat.zero_le _
  | cons x xs =>
      cases b with
      | nil => exact absurd h (by simp [methodLess, lexicographicalCompare])
      | cons y ys =>
          rw [methodLess, lexicographicalCompare] at h
          split at h
          · cases h
          · next hge =>
              rw [decide_eq_true_eq, UInt8.lt_iff_toNat_lt] at hge
              show (toupper x).toNat + 1 ≤ (toupper y).toNat + 1
              omega

/-- An operation under a letter of the alphabet is not empty. -/
theorem ne_nil_of_letter {letter : UInt8} (halpha : isalpha letter = true) {operation : Bytes}
    (hletter : letterOf operation = letter) : operation ≠ [] := by
  rintro rfl
  rw [← hletter] at halpha
  exact absurd halpha (by decide)

/-- The operations under a letter of the alphabet are those of its rank. -/
theorem letterOf_eq_iff {letter : UInt8} (halpha : isalpha letter = true) (operation : Bytes) :
    letterOf operation = letter ↔ sortRank operation = letter.toNat + 1 := by
  cases operation with
  | nil =>
      refine ⟨?_, ?_⟩
      · intro h
        exact absurd rfl (ne_nil_of_letter halpha h)
      · intro h
        exact absurd h (Nat.succ_ne_zero _).symm
  | cons front rest =>
      show toupper front = letter ↔ (toupper front).toNat + 1 = letter.toNat + 1
      rw [Nat.add_right_cancel_iff, UInt8.toNat_inj]

theorem find?_groupMethodsByLetter (sort : MethodSort) {operations : List Bytes} {letter : UInt8}
    (halpha : isalpha letter = true) {members : List Bytes}
    (h : (letter, members) ∈ groupMethodsByLetter sort operations) :
    (groupMethodsByLetter sort operations).find? (fun g => g.1 = letter)
      = some (letter, members) :=
  find?_group (letterOf_eq_iff halpha)
    ((sort.sorted operations).imp sortRank_le_of_not_less) h

theorem length_uniqueOperationsFrom (operations : List Bytes) (results : List BenchmarkResult) :
    (uniqueOperationsFrom operations results).length ≤ operations.length + results.length := by
  fun_induction uniqueOperationsFrom operations results with
  | case1 operations => exact Nat.le_refl _
  | case2 operations result rest hmem ih =>
      rw [List.length_cons]
      omega
  | case3 operations result rest hnew ih =>
      rw [List.length_append, List.length_singleton] at ih
      rw [List.length_cons]
      omega

/-- No group is larger than the snapshot. -/
theorem length_members_le (sort : MethodSort) {results : List BenchmarkResult} {letter : UInt8}
    {members : List Bytes}
    (h : (letter, members) ∈ groupMethodsByLetter sort (uniqueOperations results)) :
    members.length ≤ results.length := by
  have hsorted := (sort.perm (uniqueOperations results)).length_eq
  have hunique := length_uniqueOperationsFrom [] results
  have hmembers := (of_mem_group h).2.2
  rw [List.length_nil, Nat.zero_add] at hunique
  rw [hsorted] at hmembers
  exact hmembers.trans hunique

-- ============================================================================
-- Printed ids
-- ============================================================================

/-- `c` is the letter in one of its cases. -/
def EitherCase (letter c : UInt8) : Prop := c = letter ∨ c = tolower letter

/-- Every id printed under the header resolves to the operation beside it, and
    the header letter to all operations under it, in either case. -/
structure IdsWork (sort : MethodSort) (results : List BenchmarkResult) (letter : UInt8)
    (listed : List ListedMethod) : Prop where
  id : ∀ method ∈ listed, ∀ c, EitherCase letter c →
    ∃ selection, resolveFilter sort (c :: method.id.tail) results = .ok selection ∧
      selection.operations = some [method.name]
  header : ∀ c, EitherCase letter c →
    ∃ selection, resolveFilter sort [c] results = .ok selection ∧
      selection.operations = some (listed.map ListedMethod.name)

/-- Both cases of an upper-case letter are letters that `toupper` maps to it. -/
theorem of_eitherCase {front c : UInt8} (halpha : isalpha (toupper front) = true)
    (hc : EitherCase (toupper front) c) : isalpha c = true ∧ toupper c = toupper front := by
  rcases hc with rfl | rfl
  · exact ⟨halpha, toupper_toupper front⟩
  · rw [isalpha_tolower, toupper_tolower, toupper_toupper]
    exact ⟨halpha, rfl⟩

/-- The letter of a group is the upper-cased first letter of its operations. -/
theorem exists_toupper_of_group {sort : MethodSort} {operations : List Bytes} {letter : UInt8}
    {members : List Bytes} (halpha : isalpha letter = true)
    (h : (letter, members) ∈ groupMethodsByLetter sort operations) :
    ∃ front, letter = toupper front := by
  obtain ⟨hne, hkey, -⟩ := of_mem_group h
  obtain ⟨operation, rest, rfl⟩ := List.exists_cons_of_ne_nil hne
  have hletter := hkey operation (List.mem_cons_self ..)
  obtain ⟨front, text, rfl⟩ := List.exists_cons_of_ne_nil (ne_nil_of_letter halpha hletter)
  exact ⟨front, hletter.symm⟩

/-- A printed line is a member of the group with its position. -/
theorem mem_listed_iff {letter : UInt8} {members : List Bytes} {method : ListedMethod} :
    method ∈ members.zipIdx.map (fun (member, j) => ⟨letter :: decimal (j + 1), member⟩)
      ↔ ∃ j, members[j]? = some method.name ∧ method.id = letter :: decimal (j + 1) := by
  rw [List.mem_map]
  refine ⟨?_, ?_⟩
  · rintro ⟨⟨member, j⟩, hmem, rfl⟩
    exact ⟨j, List.mem_zipIdx_iff_getElem?.mp hmem, rfl⟩
  · rintro ⟨j, hmember, hid⟩
    obtain ⟨id, name⟩ := method
    obtain rfl : id = letter :: decimal (j + 1) := hid
    exact ⟨(name, j), List.mem_zipIdx_iff_getElem?.mpr hmember, rfl⟩

theorem map_name_listed (letter : UInt8) (members : List Bytes) :
    (members.zipIdx.map fun (member, j) =>
      (⟨letter :: decimal (j + 1), member⟩ : ListedMethod)).map ListedMethod.name = members := by
  rw [List.map_map]
  exact List.zipIdx_map_fst ..

section Resolution

variable {sort : MethodSort} {results : List BenchmarkResult} {letter c : UInt8}
  {members : List Bytes}

/-- A printed id in either case picks its member. -/
theorem resolveFilter_id (hsize : results.length < 2 ^ 64)
    (hgroup : (letter, members) ∈ groupMethodsByLetter sort (uniqueOperations results))
    (halpha : isalpha letter = true) (hc : isalpha c = true) (hupper : toupper c = letter)
    {j : Nat} {member : Bytes} (hmember : members[j]? = some member) :
    resolveFilter sort (c :: decimal (j + 1)) results = .ok ⟨[], member⟩ := by
  obtain ⟨hj, rfl⟩ := List.getElem?_eq_some_iff.mp hmember
  have hlength := length_members_le sort hgroup
  have hshape : looksLikeMethodId (c :: decimal (j + 1)) = true := by
    simp only [looksLikeMethodId, hc, Bool.and_true, Bool.and_eq_true, decide_eq_true_eq,
      List.all_eq_true]
    exact ⟨decimal_ne_nil _, fun d hd => isDigit_of_mem_decimal hd⟩
  have hindex : stoul (decimal (j + 1)) = .ok (j + 1) := by
    rw [stoul, ofDigits_decimal, if_pos (by omega)]
  have hfront : frontLetter (c :: decimal (j + 1)) = letter := hupper
  have hresolve : resolveMethodId sort (c :: decimal (j + 1)) results = .ok members[j] := by
    rw [resolveMethodId, hfront, List.tail_cons, hindex,
      find?_groupMethodsByLetter sort halpha hgroup]
    show (if h : j + 1 = 0 ∨ j + 1 > members.length then _ else _) = _
    rw [dif_neg (by omega)]
    rfl
  rw [resolveFilter, if_pos hshape, hresolve]
  rfl

/-- A header letter in either case picks its group. -/
theorem resolveFilter_header
    (hgroup : (letter, members) ∈ groupMethodsByLetter sort (uniqueOperations results))
    (halpha : isalpha letter = true) (hc : isalpha c = true) (hupper : toupper c = letter) :
    resolveFilter sort [c] results = .ok ⟨members, [c]⟩ := by
  have hfront : frontLetter [c] = letter := hupper
  have hresolve : resolveLetterGroup sort [c] results = .ok members := by
    rw [resolveLetterGroup, hfront, find?_groupMethodsByLetter sort halpha hgroup]
  have hshape : looksLikeLetterGroup [c] = true := hc
  rw [resolveFilter, if_neg (by simp [looksLikeMethodId]), if_pos hshape, hresolve]
  rfl

/-- A text that does not start with a letter is taken for a method name. -/
theorem resolveFilter_other (hc : isalpha c = false) (rest : Bytes) :
    resolveFilter sort (c :: rest) results = .ok ⟨[], c :: rest⟩ := by
  rw [resolveFilter, if_neg (by simp [looksLikeMethodId, hc]), if_neg]
  cases rest with
  | nil => simp [looksLikeLetterGroup, hc]
  | cons d rest => simp [looksLikeLetterGroup]

end Resolution

/-- **Printed ids.** What `methods` prints under a header works as a method
    argument exactly when the header is a letter of the alphabet. -/
theorem printed_ids_work_iff (sort : MethodSort) {results : List BenchmarkResult}
    (hsize : results.length < 2 ^ 64) {letter : UInt8} {listed : List ListedMethod}
    (hprinted : (letter, listed) ∈ methodTree sort results) :
    IdsWork sort results letter listed ↔ isalpha letter = true := by
  obtain ⟨⟨_, members⟩, hgroup, heq⟩ := List.mem_map.mp hprinted
  obtain ⟨rfl, rfl⟩ := Prod.mk.inj heq
  obtain ⟨hne, hkey, -⟩ := of_mem_group hgroup
  refine ⟨?_, ?_⟩
  · intro hwork
    by_contra hother
    rw [Bool.not_eq_true] at hother
    obtain ⟨first, rest, rfl⟩ := List.exists_cons_of_ne_nil hne
    -- the header and the first id would both be names of the first operation
    obtain ⟨_, hheader, hall⟩ := hwork.header _ (Or.inl rfl)
    rw [resolveFilter_other hother] at hheader
    rw [← Except.ok.inj hheader, map_name_listed] at hall
    obtain ⟨_, hid, hone⟩ := hwork.id ⟨_, first⟩ (mem_listed_iff.mpr ⟨0, rfl, rfl⟩) _ (Or.inl rfl)
    rw [resolveFilter_other hother] at hid
    rw [← Except.ok.inj hid] at hone
    have hfirst : _ :: decimal 1 = first := List.singleton_inj.mp (Option.some.inj hone)
    have hletter : [_] = first := (List.cons.inj (Option.some.inj hall)).1
    rw [← hletter] at hfirst
    exact decimal_ne_nil 1 (List.cons.inj hfirst).2
  · intro halpha
    obtain ⟨front, rfl⟩ := exists_toupper_of_group halpha hgroup
    refine ⟨fun method hmethod c hc => ?_, fun c hc => ?_⟩
    · obtain ⟨hletter, hupper⟩ := of_eitherCase halpha hc
      obtain ⟨j, hmember, hid⟩ := mem_listed_iff.mp hmethod
      refine ⟨⟨[], method.name⟩, ?_, ?_⟩
      · rw [hid]
        exact resolveFilter_id hsize hgroup halpha hletter hupper hmember
      · have hname := ne_nil_of_letter halpha (hkey _ (List.mem_of_getElem? hmember))
        simp only [Selection.operations, ne_eq, not_true_eq_false, if_false, hname,
          not_false_eq_true, if_true]
    · obtain ⟨hletter, hupper⟩ := of_eitherCase halpha hc
      refine ⟨⟨members, [c]⟩, resolveFilter_header hgroup halpha hletter hupper, ?_⟩
      rw [map_name_listed, Selection.operations, if_pos hne]

/-- The id printed for an operation that starts with a digit is taken for a
    method name, which the baseline does not have. -/
theorem printed_id_digit :
    let results : List BenchmarkResult := [⟨bytes "List", bytes "10x insert", 9, 9, 1⟩]
    methodTree .insertion results = [(49, [⟨bytes "11", bytes "10x insert"⟩])] ∧
      resolveFilter .insertion (bytes "11") results = .ok ⟨[], bytes "11"⟩ ∧
      (⟨[], bytes "11"⟩ : Selection).apply results results (bytes "Current") (bytes "v1.0.0")
        = .error (bytes "v1.0.0 has no benchmark method '11'.") ∧
      ¬ IdsWork .insertion results 49 [⟨bytes "11", bytes "10x insert"⟩] := by
  refine ⟨by decide +kernel, rfl, by decide +kernel, fun hwork => ?_⟩
  obtain ⟨_, hresolved, hname⟩ := hwork.id _ (List.mem_singleton_self _) 49 (Or.inl rfl)
  rw [← Except.ok.inj hresolved] at hname
  exact absurd hname (by decide +kernel)

/-- The two operations under `P` are resolved by `P1`, `p2`, `p` and so on. -/
theorem printed_ids_work_iff_letter :
    let results : List BenchmarkResult :=
      [⟨bytes "List", bytes "push_back", 9, 9, 1⟩, ⟨bytes "List", bytes "Pop", 9, 9, 1⟩]
    IdsWork .insertion results 80 [⟨bytes "P1", bytes "Pop"⟩, ⟨bytes "P2", bytes "push_back"⟩] :=
  (printed_ids_work_iff .insertion (by decide) (by decide +kernel)).mpr rfl

end RateThrottle.Regression
