import SilFormal.Library.Fallible

/-!
# Reading a manifest document

The JSON values that the manifest loader reads and the helpers it reads them
with (`manifest.cpp`): the lookups, the check for unknown keys and the
extraction of integers, numbers and strings, with the texts of their errors.
-/

namespace SilFormal.Manifest

open Fallible

/-- A parsed JSON value.  The members of an object are in the order of their
keys, and no key occurs twice.  A floating number is given by the bits of its
double, with the text that `dump` prints for it. -/
inductive Json
  | null
  | boolean (value : Bool)
  | integer (value : Int)
  | float (bits : Nat) (text : String)
  | string (value : String)
  | array (items : List Json)
  | object (members : List (String × Json))

namespace Json

/-- `type_name`. -/
def typeName : Json → String
  | .null => "null"
  | .boolean _ => "boolean"
  | .integer _ => "number"
  | .float _ _ => "number"
  | .string _ => "string"
  | .array _ => "array"
  | .object _ => "object"

/-- One character of a dumped string. -/
def escape (c : Char) : String :=
  if c = '"' then "\\\""
  else if c = '\\' then "\\\\"
  else if c = '\n' then "\\n"
  else if c = '\r' then "\\r"
  else if c = '\t' then "\\t"
  else if c.toNat = 8 then "\\b"
  else if c.toNat = 12 then "\\f"
  else if c.toNat < 32 then
    "\\u00" ++ toString (c.toNat / 16) ++ String.singleton (Nat.digitChar (c.toNat % 16))
  else String.singleton c

def quote (text : String) : String :=
  "\"" ++ String.join (text.toList.map escape) ++ "\""

mutual

/-- `dump`. -/
def dump : Json → String
  | .null => "null"
  | .boolean value => if value then "true" else "false"
  | .integer value => toString value
  | .float _ text => text
  | .string value => quote value
  | .array items => "[" ++ ",".intercalate (dumpItems items) ++ "]"
  | .object members => "\x7b" ++ ",".intercalate (dumpMembers members) ++ "\x7d"

def dumpItems : List Json → List String
  | [] => []
  | item :: rest => dump item :: dumpItems rest

def dumpMembers : List (String × Json) → List String
  | [] => []
  | (key, value) :: rest => (quote key ++ ":" ++ dump value) :: dumpMembers rest

end

end Json

/-! ## Errors and lookups -/

variable {value : Json} {ctx key : String}

/-- `fail`. -/
def fail {α : Type} (message : String) : Except String α :=
  .error ("manifest error: " ++ message)

/-- `describe_json`. -/
def describeJson (value : Json) : String :=
  value.typeName ++ " " ++ value.dump

/-- `type_error`. -/
def typeError {α : Type} (value : Json) (ctx expected : String) : Except String α :=
  fail (ctx ++ ": expected " ++ expected ++ ", got " ++ describeJson value)

/-- `require_object`: its members. -/
def requireObject (value : Json) (ctx : String) : Except String (List (String × Json)) :=
  match value with
  | .object members => .ok members
  | _ => typeError value ctx "an object"

/-- `require_array`: its items. -/
def requireArray (value : Json) (ctx : String) : Except String (List Json) :=
  match value with
  | .array items => .ok items
  | _ => typeError value ctx "an array"

/-- `find_value`. -/
def findValue (value : Json) (key ctx : String) : Except String (Option Json) :=
  (requireObject value ctx).map fun members => members.lookup key

/-- `require_value`. -/
def requireValue (value : Json) (key ctx : String) : Except String Json := do
  let found ← findValue value key ctx
  match found with
  | some member => .ok member
  | none => fail (ctx ++ ": missing required key '" ++ key ++ "'")

/-- `reject_unknown_keys`. -/
def rejectUnknownKeys (value : Json) (ctx : String) (allowed : List String) :
    Except String PUnit := do
  let members ← requireObject value ctx
  match members.find? fun member => !allowed.contains member.1 with
  | none => .ok ⟨⟩
  | some member =>
    fail (ctx ++ ": unknown key '" ++ member.1 ++ "' (value " ++ describeJson member.2 ++ ")")

/-! ## Extraction -/

/-- An integer type of the source. -/
structure IntegerType where
  isSigned : Bool
  bits : Nat

namespace IntegerType

/-- `std::numeric_limits<T>::min()`. -/
def low (t : IntegerType) : Int :=
  if t.isSigned then -(2 ^ (t.bits - 1) : Nat) else 0

/-- `std::numeric_limits<T>::max()`. -/
def high (t : IntegerType) : Int :=
  if t.isSigned then (2 ^ (t.bits - 1) : Nat) - 1 else (2 ^ t.bits : Nat) - 1

/-- `integer_range`. -/
def range (t : IntegerType) : String :=
  "[" ++ toString t.low ++ ", " ++ toString t.high ++ "]"

end IntegerType

/-- `extract_integer`. -/
def extractInteger (t : IntegerType) (value : Json) (ctx : String) : Except String Int :=
  let expected :=
    (if t.isSigned then "an integer in " else "a non-negative integer in ") ++ t.range
  match value with
  | .integer n => if t.low ≤ n ∧ n ≤ t.high then .ok n else typeError value ctx expected
  | _ => typeError value ctx expected

/-- `extract<uint64_t>` and `extract<size_t>`. -/
def extractUInt64 (value : Json) (ctx : String) : Except String Nat :=
  (extractInteger ⟨false, 64⟩ value ctx).map Int.toNat

/-- `extract<std::string>`. -/
def extractString (value : Json) (ctx : String) : Except String String :=
  match value with
  | .string text => .ok text
  | _ => typeError value ctx "a string"

/-- `required<std::string>`. -/
def requiredString (object : Json) (key ctx : String) : Except String String := do
  let value ← requireValue object key ctx
  extractString value (ctx ++ " key '" ++ key ++ "'")

/-- `required<uint64_t>`. -/
def requiredUInt64 (object : Json) (key ctx : String) : Except String Nat := do
  let value ← requireValue object key ctx
  extractUInt64 value (ctx ++ " key '" ++ key ++ "'")

/-! ## Floating numbers -/

/-- A quotient by a power of two, rounded to the nearest integer and to an even
one when two are nearest. -/
def roundShift (n shift : Nat) : Nat :=
  let rest := n % 2 ^ shift
  let half := 2 ^ shift / 2
  if shift = 0 then n
  else if half < rest ∨ (rest = half ∧ (n >>> shift) % 2 = 1) then (n >>> shift) + 1
  else n >>> shift

/-- The bits of `static_cast<double>` of an integer. -/
def doubleOfInt (value : Int) : Nat :=
  let sign := if value < 0 then 2 ^ 63 else 0
  let n := value.natAbs
  let e := Nat.log 2 n
  if n = 0 then 0
  else if e ≤ 52 then sign + (e + 1023) * 2 ^ 52 + (n <<< (52 - e) - 2 ^ 52)
  else sign + (e + 1023) * 2 ^ 52 + (roundShift n (e - 52) - 2 ^ 52)

/-- `std::isfinite` of a double. -/
def isFinite (bits : Nat) : Bool :=
  decide ((bits / 2 ^ 52) % 2 ^ 11 ≠ 2 ^ 11 - 1)

/-- The bits of the largest finite float as a double. -/
def maxFloat : Nat :=
  0x47EFFFFFE0000000

/-- The bits of `static_cast<float>` of a double in the range of float. -/
def floatOfDouble (bits : Nat) : Nat :=
  let sign := if 2 ^ 63 ≤ bits then 2 ^ 31 else 0
  let e := (bits / 2 ^ 52) % 2 ^ 11
  let significand := bits % 2 ^ 52 + if e = 0 then 0 else 2 ^ 52
  if 897 ≤ e then sign + (e - 896) * 2 ^ 23 + (roundShift significand 29 - 2 ^ 23)
  else sign + roundShift significand (29 + (897 - max e 1))

/-- `extract_number<double>`: the bits of the number. -/
def extractNumber (value : Json) (ctx : String) : Except String Nat :=
  match value with
  | .integer n => .ok (doubleOfInt n)
  | .float bits _ => if isFinite bits then .ok bits else typeError value ctx "a finite number"
  | _ => typeError value ctx "a number"

/-! ## What the helpers accept -/

theorem requireArray_eq_ok {items : List Json} :
    requireArray value ctx = .ok items ↔ value = .array items := by
  cases value <;> simp [requireArray, typeError, fail]

theorem findValue_eq_ok {found : Option Json} : findValue value key ctx = .ok found ↔
      ∃ members, value = .object members ∧ members.lookup key = found := by
  cases value <;> simp [findValue, requireObject, typeError, fail, Except.map]

theorem requireValue_eq_ok {member : Json} : requireValue value key ctx = .ok member ↔
      ∃ members, value = .object members ∧ members.lookup key = some member := by
  rw [requireValue, bind_eq_ok]
  simp only [findValue_eq_ok]
  constructor
  · rintro ⟨found, ⟨members, rfl, hlookup⟩, h⟩
    cases found with
    | none => cases h
    | some found =>
      cases h
      exact ⟨members, rfl, hlookup⟩
  · rintro ⟨members, rfl, hlookup⟩
    exact ⟨some member, ⟨members, rfl, hlookup⟩, rfl⟩

theorem extractString_eq_ok {text : String} :
    extractString value ctx = .ok text ↔ value = .string text := by
  cases value <;> simp [extractString, typeError, fail]

theorem requiredString_eq_ok {object : Json} {text : String} :
    requiredString object key ctx = .ok text ↔
      ∃ members, object = .object members ∧ members.lookup key = some (.string text) := by
  rw [requiredString, bind_eq_ok]
  simp only [requireValue_eq_ok, extractString_eq_ok]
  constructor
  · rintro ⟨_, hmembers, rfl⟩
    exact hmembers
  · intro hmembers
    exact ⟨_, hmembers, rfl⟩

/-- An integer is extracted as it is, when its type holds it. -/
theorem extractInteger_eq_ok {t : IntegerType} {n : Int} :
    extractInteger t value ctx = .ok n ↔ value = .integer n ∧ t.low ≤ n ∧ n ≤ t.high := by
  cases value with
  | integer m =>
    simp only [extractInteger, Json.integer.injEq]
    by_cases hrange : t.low ≤ m ∧ m ≤ t.high
    · rw [if_pos hrange, Except.ok.injEq]
      constructor
      · rintro rfl
        exact ⟨rfl, hrange⟩
      · rintro ⟨rfl, _⟩
        rfl
    · rw [if_neg hrange]
      constructor
      · rintro ⟨⟩
      · rintro ⟨rfl, hn⟩
        exact absurd hn hrange
  | _ => simp [extractInteger, typeError, fail]

theorem extractUInt64_eq_ok {n : Nat} :
    extractUInt64 value ctx = .ok n ↔ value = .integer n ∧ n < 2 ^ 64 := by
  have hrange : ∀ m : Int, ((⟨false, 64⟩ : IntegerType).low ≤ m ∧
      m ≤ (⟨false, 64⟩ : IntegerType).high) ↔ 0 ≤ m ∧ m < 2 ^ 64 := by
    intro m
    simp only [IntegerType.low, IntegerType.high, Bool.false_eq_true, if_false]
    omega
  cases hextract : extractInteger ⟨false, 64⟩ value ctx with
  | error message =>
    simp only [extractUInt64, hextract]
    constructor
    · rintro ⟨⟩
    · rintro ⟨rfl, hn⟩
      have hok : extractInteger ⟨false, 64⟩ (.integer n) ctx = .ok (n : Int) :=
        extractInteger_eq_ok.mpr ⟨rfl, (hrange n).mpr ⟨by omega, by omega⟩⟩
      rw [hextract] at hok
      cases hok
  | ok m =>
    obtain ⟨rfl, hm⟩ := extractInteger_eq_ok.mp hextract
    rw [hrange] at hm
    simp only [extractUInt64, hextract, Except.map, Except.ok.injEq, Json.integer.injEq]
    omega

end SilFormal.Manifest
