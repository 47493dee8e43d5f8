/-
  RateThrottle.Support.NlohmannJson

  What the regression tools use of `nlohmann::json`: reading a document, going
  through its entries, `operator[]` and `get`.

  The document is read by the standard reader of `RateThrottle.Library.Json`;
  the conversion of a decimal to the nearest `double` (`strtod`) is a parameter.
-/

import Mathlib.Data.Rat.Floor
import RateThrottle.Library.Json
import RateThrottle.Support.Bytes

namespace RateThrottle

/-- How `loadResults` can fail. -/
inductive LoadError where
  /-- "Failed to open: " and the file. -/
  | failedToOpen
  /-- An exception of `nlohmann::json`. -/
  | exception
  /-- `operator[]` of a `const` object without the key, or a number outside the
      target type. -/
  | undefined
deriving DecidableEq, Repr

/-- `in >> data`: one JSON value; what follows it is not looked at. -/
def parse (text : Bytes) : Except LoadError Json :=
  match Json.read text with
  | some (value, _) => .ok value
  | none => .error .exception

/-- The values that `for (const auto& entry : data)` visits. -/
def elements : Json → List Json
  | .array elements => elements
  | .object members => members.map Prod.snd
  | .null => []
  | value => [value]

/-- `entry[key]`. -/
def getMember (entry : Json) (key : String) : Except LoadError Json :=
  match entry with
  | .object members =>
      match Json.lookup (bytes key) members with
      | some value => .ok value
      | none => .error .undefined
  | _ => .error .exception

/-- `.get<std::string>()`. -/
def getString : Json → Except LoadError Bytes
  | .string s => .ok s
  | _ => .error .exception

/-- A conversion from `double` to an integer. -/
def truncate (q : ℚ) : Int := if q < 0 then ⌈q⌉ else ⌊q⌋

/-- `.get<std::uint64_t>()` and `.get<std::size_t>()`. -/
def getUnsigned : Json → Except LoadError UInt64
  | .unsigned n => .ok (.ofNat n)
  | .integer i => .ok (.ofInt i)
  | .float q =>
      if 0 ≤ truncate q ∧ truncate q < 2 ^ 64 then .ok (.ofInt (truncate q))
      else .error .undefined
  | _ => .error .exception

/-- `.get<double>()`. -/
def getDouble (nearest : ℚ → ℚ) : Json → Except LoadError ℚ
  | .unsigned n => .ok (nearest n)
  | .integer i => .ok (nearest i)
  | .float q => .ok (nearest q)
  | _ => .error .exception

/-! ## What a successful access has found -/

theorem bind_eq_ok {α β : Type} {x : Except LoadError α} {f : α → Except LoadError β} {b : β}
    (h : x >>= f = .ok b) : ∃ a, x = .ok a ∧ f a = .ok b := by
  cases x with
  | error e => cases h
  | ok a => exact ⟨a, rfl, h⟩

/-- `entry[key].get<T>()` of an object. -/
theorem get_object_eq_ok {α : Type} {members : List (List UInt8 × Json)} {key : String}
    {get : Json → Except LoadError α} {a : α} :
    getMember (.object members) key >>= get = .ok a
      ↔ ∃ value, Json.lookup (bytes key) members = some value ∧ get value = .ok a := by
  simp only [getMember]
  refine ⟨?_, ?_⟩
  · intro h
    split at h
    · next value hvalue => exact ⟨value, hvalue, h⟩
    · cases h
  · rintro ⟨value, hvalue, hget⟩
    rw [hvalue]
    exact hget

/-- Only objects have members. -/
theorem exists_object_of_get {α : Type} {entry : Json} {key : String}
    {get : Json → Except LoadError α} {a : α} (h : getMember entry key >>= get = .ok a) :
    ∃ members, entry = .object members := by
  cases entry with
  | object members => exact ⟨members, rfl⟩
  | _ => cases h

theorem getString_eq_ok {value : Json} {s : Bytes} (h : getString value = .ok s) :
    value = .string s := by
  cases value with
  | string t =>
      cases h
      rfl
  | _ => cases h

end RateThrottle
