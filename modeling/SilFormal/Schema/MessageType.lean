import SilFormal.Library.Fallible
import SilFormal.Library.LittleEndian

/-!
# Messages in Python: `MessageType`

The runtime layout of a Schema (`schema.py`): every field becomes a plan with
an item of a little-endian `struct` format, and `unpack` gathers the values of
the fields from the flat values of the format.  A floating value is given by
its bits.
-/

namespace SilFormal.Schema

open Fallible List

variable {data : List UInt8}

/-- The format characters of `struct` that Schemas use. -/
inductive FormatCode
  | B | H | I | Q
  | b | h | i | q
  | f | d
  | s
deriving DecidableEq, Repr

/-- `FORMATS`. -/
def formats (type : String) : Option FormatCode :=
  match type with
  | "u8" => some .B
  | "u16" => some .H
  | "u32" => some .I
  | "u64" => some .Q
  | "i8" => some .b
  | "i16" => some .h
  | "i32" => some .i
  | "i64" => some .q
  | "f32" => some .f
  | "f64" => some .d
  | _ => none

/-- A Python value that `unpack` gives. -/
inductive PyValue
  | int (value : Int)
  | float32 (bits : Nat)
  | float64 (bits : Nat)
  | bytes (value : List UInt8)
  | list (items : List PyValue)

namespace FormatCode

/-- The width of one value in a format that starts with `<`. -/
def size : FormatCode → Nat
  | .B | .b | .s => 1
  | .H | .h => 2
  | .I | .i | .f => 4
  | .Q | .q | .d => 8

/-- One value of a format character. -/
def value (code : FormatCode) (data : List UInt8) : PyValue :=
  match code with
  | .B | .H | .I | .Q => .int (LittleEndian.toNat data)
  | .b | .h | .i | .q => .int (LittleEndian.toInt data)
  | .f => .float32 (LittleEndian.toNat data)
  | .d => .float64 (LittleEndian.toNat data)
  | .s => .bytes data

end FormatCode

/-! ## `struct.Struct` -/

/-- An item of a format: a character, with a repeat count in front or not. -/
structure FormatItem where
  count : Option Int
  code : FormatCode
deriving DecidableEq, Repr

/-- The largest `Py_ssize_t`. -/
def ssizeMax : Nat :=
  2 ^ 63 - 1

namespace FormatItem

/-- The repeat count of an item. -/
def repeats (item : FormatItem) : Nat :=
  match item.count with
  | none => 1
  | some count => count.toNat

def byteSize (item : FormatItem) : Nat :=
  item.repeats * item.code.size

/-- The bytes of consecutive values of one width. -/
def chunks (width : Nat) : Nat → List UInt8 → List (List UInt8)
  | 0, _ => []
  | n + 1, data => data.take width :: chunks width n (data.drop width)

/-- The values of an item.  A count before `s` is the length of one value. -/
def values (item : FormatItem) (data : List UInt8) : List PyValue :=
  if item.code = .s then [.bytes data]
  else (chunks item.code.size item.repeats data).map item.code.value

end FormatItem

/-- `struct.Struct`: the items of a format and its size. -/
structure Struct where
  items : List FormatItem
  size : Nat

namespace Struct

/-- One item of a format.  A sign is no format character, and the size has to
stay in the range of `Py_ssize_t`. -/
def addItem (size : Nat) (item : FormatItem) : Except String Nat := do
  require (∀ count, item.count = some count → 0 ≤ count) "bad char in struct format"
  require (item.repeats ≤ (ssizeMax - size) / item.code.size) "total struct size too long"
  .ok (size + item.byteSize)

/-- `struct.Struct(fmt)`. -/
def new (items : List FormatItem) : Except String Struct :=
  (items.foldlM addItem 0).map fun size => ⟨items, size⟩

/-- The values of consecutive items. -/
def valuesOf : List FormatItem → List UInt8 → List PyValue
  | [], _ => []
  | item :: rest, data =>
    item.values (data.take item.byteSize) ++ valuesOf rest (data.drop item.byteSize)

/-- `unpack` of a format. -/
def unpack (format : Struct) (data : List UInt8) : Except String (List PyValue) := do
  require (data.length = format.size)
    ("unpack requires a buffer of " ++ toString format.size ++ " bytes")
  .ok (valuesOf format.items data)

end Struct

/-! ## Field plans -/

/-- A field of the `fields` of a Schema. -/
structure FieldDict where
  name : String
  type : String
  count : Option Int
deriving DecidableEq, Repr

/-- `_Scalar`, `_ByteArray` and `_List`. -/
inductive FieldPlan
  | scalar (elem : FormatCode)
  | byteArray (count : Int)
  | list (elem : FormatCode) (count : Int)

/-- `_field_plan`. -/
def fieldPlan (field : FieldDict) : Except String FieldPlan :=
  match formats field.type with
  | none => .error ("KeyError: " ++ field.type)
  | some elem =>
    match field.count with
    | none => .ok (.scalar elem)
    | some count => if field.type = "u8" then .ok (.byteArray count) else .ok (.list elem count)

namespace FieldPlan

/-- `fmt`. -/
def fmt : FieldPlan → FormatItem
  | .scalar elem => ⟨none, elem⟩
  | .byteArray count => ⟨some count, .s⟩
  | .list elem count => ⟨some count, elem⟩

/-- `gather`: the value of the field and the index after it. -/
def gather (flat : List PyValue) (i : Nat) : FieldPlan → Except String (PyValue × Nat)
  | .scalar _ | .byteArray _ =>
    match flat[i]? with
    | none => .error "tuple index out of range"
    | some value => .ok (value, i + 1)
  | .list _ count => .ok (.list ((flat.drop i).take count.toNat), i + count.toNat)

end FieldPlan

/-! ## `MessageType` -/

/-- A `dict` with string keys, in the order of insertion. -/
abbrev Dict := List (String × PyValue)

/-- `out[name] = value`. -/
def Dict.set (out : Dict) (name : String) (value : PyValue) : Dict :=
  if name ∈ out.map Prod.fst then
    out.map fun entry => if entry.1 = name then (name, value) else entry
  else out ++ [(name, value)]

/-- `MessageType`. -/
structure MessageType where
  fieldNames : List String
  plans : List FieldPlan
  struct : Struct

namespace MessageType

/-- `MessageType.__init__`. -/
def new (fields : List FieldDict) : Except String MessageType := do
  let plans ← fields.mapM fieldPlan
  let struct ← Struct.new (plans.map FieldPlan.fmt)
  .ok ⟨fields.map FieldDict.name, plans, struct⟩

def size (mt : MessageType) : Nat :=
  mt.struct.size

/-- One iteration of the loop of `unpack`. -/
def gatherField (flat : List PyValue) (state : Dict × Nat) (entry : String × FieldPlan) :
    Except String (Dict × Nat) :=
  (entry.2.gather flat state.2).map fun gathered => (state.1.set entry.1 gathered.1, gathered.2)

/-- `MessageType.unpack`. -/
def unpack (mt : MessageType) (data : List UInt8) : Except String Dict := do
  let flat ← mt.struct.unpack data
  let out ← (mt.fieldNames.zip mt.plans).foldlM (gatherField flat) ([], 0)
  .ok out.1

end MessageType

/-! ## The layout of a Message -/

namespace FieldPlan

/-- The bytes of a field. -/
def byteSize (plan : FieldPlan) : Nat :=
  plan.fmt.byteSize

/-- The value of a field in its bytes. -/
def decode (data : List UInt8) : FieldPlan → PyValue
  | .scalar elem => elem.value data
  | .byteArray _ => .bytes data
  | .list elem count => .list ((FormatItem.chunks elem.size count.toNat data).map elem.value)

/-- The plans that `_field_plan` makes: only byte arrays have the format `s`. -/
def Proper : FieldPlan → Prop
  | .scalar elem => elem ≠ .s
  | .byteArray _ => True
  | .list elem _ => elem ≠ .s

/-- The values of consecutive fields. -/
def decodeAll : List FieldPlan → List UInt8 → List PyValue
  | [], _ => []
  | plan :: rest, data =>
    plan.decode (data.take plan.byteSize) :: decodeAll rest (data.drop plan.byteSize)

theorem decodeAll_length (plans : List FieldPlan) (data : List UInt8) :
    (decodeAll plans data).length = plans.length := by
  induction plans generalizing data with
  | nil => rfl
  | cons plan rest ih => rw [decodeAll, length_cons, length_cons, ih]

end FieldPlan

theorem FormatItem.chunks_length (width n : Nat) (data : List UInt8) :
    (FormatItem.chunks width n data).length = n := by
  induction n generalizing data with
  | zero => rfl
  | succ n ih => rw [FormatItem.chunks, length_cons, ih]

theorem FormatItem.values_of_ne {item : FormatItem} (hcode : item.code ≠ .s) (data : List UInt8) :
    item.values data = (chunks item.code.size item.repeats data).map item.code.value :=
  if_neg hcode

/-- `gather` finds the value of a field where the values of its item start. -/
theorem gather_values {plan : FieldPlan} (hproper : plan.Proper) (before after : List PyValue)
    (hdata : data.length ≤ plan.byteSize) :
    plan.gather (before ++ (plan.fmt.values data ++ after)) before.length =
      .ok (plan.decode data, before.length + (plan.fmt.values data).length) := by
  cases plan with
  | scalar elem =>
    have hwhole : data.take elem.size = data := by
      refine take_of_length_le ?_
      simpa [FieldPlan.byteSize, FieldPlan.fmt, FormatItem.byteSize, FormatItem.repeats]
        using hdata
    rw [FormatItem.values_of_ne (show (FieldPlan.scalar elem).fmt.code ≠ .s from hproper)]
    simp [FieldPlan.gather, FieldPlan.fmt, FormatItem.repeats, FormatItem.chunks,
      FieldPlan.decode, hwhole]
  | byteArray count => simp [FieldPlan.gather, FieldPlan.fmt, FormatItem.values, FieldPlan.decode]
  | list elem count =>
    rw [FormatItem.values_of_ne (show (FieldPlan.list elem count).fmt.code ≠ .s from hproper)]
    simp [FieldPlan.gather, FieldPlan.fmt, FormatItem.repeats, FieldPlan.decode,
      FormatItem.chunks_length]

theorem Dict.set_of_not_mem {out : Dict} {name : String} {value : PyValue}
    (h : name ∉ out.map Prod.fst) : out.set name value = out ++ [(name, value)] :=
  if_neg h

/-- One iteration of the loop of `unpack`. -/
theorem gatherField_eq {plan : FieldPlan} (hproper : plan.Proper) {out : Dict} {name : String}
    (hname : name ∉ out.map Prod.fst) (before after : List PyValue)
    (hdata : data.length ≤ plan.byteSize) :
    MessageType.gatherField (before ++ (plan.fmt.values data ++ after)) (out, before.length)
        (name, plan) =
      .ok (out ++ [(name, plan.decode data)], (before ++ plan.fmt.values data).length) := by
  simp only [MessageType.gatherField, gather_values hproper before after hdata, Except.map,
    Dict.set_of_not_mem hname, length_append]

/-- The loop of `unpack` over the fields that are left. -/
theorem foldlM_gatherField {plans : List FieldPlan} (hproper : ∀ plan ∈ plans, plan.Proper)
    (names : List String) (hlength : names.length = plans.length) (data : List UInt8) (out : Dict)
    (hnodup : (out.map Prod.fst ++ names).Nodup) (before : List PyValue) :
    ∃ i, (names.zip plans).foldlM
        (MessageType.gatherField (before ++ Struct.valuesOf (plans.map FieldPlan.fmt) data))
        (out, before.length) =
      .ok (out ++ names.zip (FieldPlan.decodeAll plans data), i) := by
  induction plans generalizing names data out before with
  | nil =>
    rw [length_nil, length_eq_zero_iff] at hlength
    subst hlength
    exact ⟨before.length, by simp [pure, Except.pure]⟩
  | cons plan rest ih =>
    cases names with
    | nil => cases hlength
    | cons name names =>
      have hname : name ∉ out.map Prod.fst := by
        rw [nodup_append] at hnodup
        exact fun hmem => hnodup.2.2 name hmem name (by simp) rfl
      have hdata : (data.take plan.byteSize).length ≤ plan.byteSize :=
        (length_take_le _ _)
      obtain ⟨i, hi⟩ := ih (fun p hp => hproper p (mem_cons_of_mem _ hp)) names
        (Nat.succ.inj hlength) (data.drop plan.byteSize)
        (out ++ [(name, plan.decode (data.take plan.byteSize))]) (by simpa using hnodup)
        (before ++ plan.fmt.values (data.take plan.byteSize))
      have hvalues : Struct.valuesOf ((plan :: rest).map FieldPlan.fmt) data =
          plan.fmt.values (data.take plan.byteSize) ++
            Struct.valuesOf (rest.map FieldPlan.fmt) (data.drop plan.byteSize) := rfl
      refine ⟨i, ?_⟩
      rw [zip_cons_cons, foldlM_cons, hvalues,
        gatherField_eq (hproper plan (by simp)) hname before _ hdata]
      rw [append_assoc, append_assoc] at hi
      exact hi

/-- `unpack` gives the values of the fields one after another. -/
theorem MessageType.unpack_eq {mt : MessageType} (hproper : ∀ plan ∈ mt.plans, plan.Proper)
    (hitems : mt.struct.items = mt.plans.map FieldPlan.fmt)
    (hlength : mt.fieldNames.length = mt.plans.length) (hnodup : mt.fieldNames.Nodup)
    (hdata : data.length = mt.size) :
    mt.unpack data = .ok (mt.fieldNames.zip (FieldPlan.decodeAll mt.plans data)) := by
  obtain ⟨i, hi⟩ := foldlM_gatherField hproper mt.fieldNames hlength data [] hnodup []
  rw [nil_append, nil_append, ← hitems] at hi
  rw [unpack, bind_eq_ok]
  refine ⟨Struct.valuesOf mt.struct.items data, ?_, ?_⟩
  · rw [Struct.unpack, require_bind_eq_ok]
    exact ⟨hdata, rfl⟩
  · rw [bind_eq_ok]
    exact ⟨_, hi, rfl⟩

/-! ## The size of a format -/

theorem FormatCode.size_pos (code : FormatCode) : 0 < code.size := by
  cases code <;> decide

/-- Adding items succeeds as long as the size stays in range. -/
theorem foldlM_addItem {items : List FormatItem}
    (hcounts : ∀ item ∈ items, ∀ count, item.count = some count → 0 ≤ count) {start total : Nat}
    (htotal : total = start + (items.map FormatItem.byteSize).sum) (hfits : total ≤ ssizeMax) :
    items.foldlM Struct.addItem start = .ok total := by
  induction items generalizing start with
  | nil =>
    rw [htotal]
    rfl
  | cons item rest ih =>
    rw [map_cons, sum_cons] at htotal
    rw [foldlM_cons, bind_eq_ok]
    refine ⟨start + item.byteSize, ?_, ih (fun i hi => hcounts i (mem_cons_of_mem _ hi))
      (by omega)⟩
    simp only [Struct.addItem, require_bind_eq_ok]
    refine ⟨hcounts item (by simp), ?_, trivial⟩
    rw [Nat.le_div_iff_mul_le item.code.size_pos]
    have hsize : item.repeats * item.code.size = item.byteSize := rfl
    omega

end SilFormal.Schema
