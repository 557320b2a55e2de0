import SilFormal.Kernel.PlanCompile
import SilFormal.Manifest.Json

/-!
# Schemas and Interceptors of a manifest document

`parse_schema`, `extract_override_value` and `parse_interceptors` of
`manifest.cpp`.
-/

namespace SilFormal.Manifest

open Fallible Kernel List

variable {index : Nat} {spec spec' : SchemaSpec × Nat} {js : Json}

/-- A requirement of the loader. -/
abbrev ensure (condition : Prop) [Decidable condition] (message : String) : Except String PUnit :=
  require condition ("manifest error: " ++ message)

/-- `std::numeric_limits<size_t>::max()`. -/
def sizeMax : Nat :=
  2 ^ 64 - 1

/-! ## Schemas -/

/-- The optional `count` of a field; 0 when it is absent. -/
def fieldCount (f : Json) (fieldCtx : String) : Except String Nat := do
  let found ← findValue f "count" fieldCtx
  match found with
  | none => .ok 0
  | some value => do
      let count ← extractUInt64 value (fieldCtx ++ " key 'count'")
      if count < 1 then typeError value (fieldCtx ++ " key 'count'") "an integer >= 1"
      else .ok count

/-- One iteration of `parse_schema`: a field after those parsed so far, and
the size with it. -/
def parseField (ctx : String) (index : Nat) (f : Json) (spec : SchemaSpec × Nat) :
    Except String (SchemaSpec × Nat) := do
  let fieldCtx := ctx ++ " field[" ++ toString index ++ "]"
  rejectUnknownKeys f fieldCtx ["name", "type", "count"]
  let fname ← requiredString f "name" fieldCtx
  let ftype ← requiredString f "type" fieldCtx
  match fieldLayouts ftype with
  | none => fail (ctx ++ " field '" ++ fname ++ "': unknown type '" ++ ftype ++ "'")
  | some layout => do
      let count ← fieldCount f fieldCtx
      ensure (fname ∉ spec.1.fields.map FieldSpec.name)
        (ctx ++ " field '" ++ fname ++ "': duplicate field name")
      let elements := if count = 0 then 1 else count
      ensure (elements ≤ sizeMax / layout.size)
        (ctx ++ " field '" ++ fname ++ "': byte size overflows size_t for " ++
          "count " ++ toString count)
      ensure (spec.2 ≤ sizeMax - layout.size * elements)
        (ctx ++ ": total byte size overflows size_t at field '" ++ fname ++ "'")
      .ok (⟨spec.1.fields ++ [⟨fname, ftype, count⟩]⟩, spec.2 + layout.size * elements)

/-- The loop of `parse_schema`. -/
def parseFields (ctx : String) :
    Nat → List Json → SchemaSpec × Nat → Except String (SchemaSpec × Nat)
  | _, [], spec => .ok spec
  | index, f :: rest, spec => parseField ctx index f spec >>= parseFields ctx (index + 1) rest

/-- `parse_schema`: the fields and `byte_size`. -/
def parseSchema (name : String) (js : Json) : Except String (SchemaSpec × Nat) := do
  let ctx := "schema '" ++ name ++ "'"
  rejectUnknownKeys js ctx ["fields"]
  let value ← requireValue js "fields" ctx
  let fields ← requireArray value (ctx ++ " key 'fields'")
  ensure (fields ≠ []) (ctx ++ ": fields must be a non-empty array")
  parseFields ctx 0 fields (⟨[]⟩, 0)

/-! ## Interceptors -/

/-- The integer types of override constants. -/
def overrideInteger (type : String) : Option IntegerType :=
  match type with
  | "u8" => some ⟨false, 8⟩
  | "u16" => some ⟨false, 16⟩
  | "u32" => some ⟨false, 32⟩
  | "u64" => some ⟨false, 64⟩
  | "i8" => some ⟨true, 8⟩
  | "i16" => some ⟨true, 16⟩
  | "i32" => some ⟨true, 32⟩
  | "i64" => some ⟨true, 64⟩
  | _ => none

/-- `extract_override_value`. -/
def extractOverrideValue (value : Json) (ctx type : String) : Except String OverrideValue :=
  match overrideInteger type with
  | some t =>
    (extractInteger t value ctx).map fun n =>
      if t.isSigned then .signed n else .unsigned n.toNat
  | none => do
      let bits ← extractNumber value ctx
      if type = "f32" ∧ maxFloat < bits % 2 ^ 63 then
        typeError value ctx "a number representable as f32"
      else .ok (.double bits (floatOfDouble bits))

/-- The kinds of Interceptors. -/
def interceptorKind (kind : String) : Option InterceptorKind :=
  match kind with
  | "drop" => some .drop
  | "drop_nth" => some .dropNth
  | "delay" => some .delay
  | "override" => some .override
  | _ => none

/-- `start_ns` of an Interceptor; 0 when it is absent. -/
def windowStart (js : Json) (ctx : String) : Except String Nat := do
  let found ← findValue js "start_ns" ctx
  match found with
  | none => .ok 0
  | some value => extractUInt64 value (ctx ++ " key 'start_ns'")

/-- `end_ns` of an Interceptor, which lies after its start. -/
def windowEnd (js : Json) (ctx : String) (startNs : Nat) : Except String (Option Nat) := do
  let found ← findValue js "end_ns" ctx
  match found with
  | none => .ok none
  | some value => do
      let endNs ← extractUInt64 value (ctx ++ " key 'end_ns'")
      ensure (startNs < endNs) (ctx ++ ": window end_ns must be greater than start_ns")
      .ok (some endNs)

/-- The keys of an override. -/
def parseOverride (js : Json) (ctx : String) (schema : SchemaSpec) (spec : InterceptorSpec) :
    Except String InterceptorSpec := do
  let field ← requiredString js "field" ctx
  match schema.fields.reverse.find? fun f => f.name = field with
  | none => fail (ctx ++ ": override field '" ++ field ++ "' is not in the channel's schema")
  | some fs => do
      ensure (fs.count = 0)
        (ctx ++ ": override field '" ++ field ++
          "' is a fixed-size array; only scalar fields can be overridden")
      let value ← requireValue js "value" ctx
      let constant ← extractOverrideValue value
        (ctx ++ " key 'value' for field '" ++ field ++ "'") fs.type
      .ok { spec with field := field, value := constant }

/-- One iteration of `parse_interceptors`. -/
def parseInterceptor (channel : String) (schema : SchemaSpec) (index : Nat) (js : Json) :
    Except String InterceptorSpec := do
  let ctx := "channel '" ++ channel ++ "' interceptor[" ++ toString index ++ "]"
  rejectUnknownKeys js ctx ["kind", "start_ns", "end_ns", "delay_ns", "n", "field", "value"]
  let name ← requiredString js "kind" ctx
  match interceptorKind name with
  | none => fail (ctx ++ ": unknown kind '" ++ name ++ "'")
  | some kind => do
      let startNs ← windowStart js ctx
      let endNs ← windowEnd js ctx startNs
      let spec : InterceptorSpec := ⟨kind, startNs, endNs, none, none, "", .unsigned 0⟩
      match kind with
      | .drop => .ok spec
      | .delay => do
          let delayNs ← requiredUInt64 js "delay_ns" ctx
          .ok { spec with delayNs := some delayNs }
      | .dropNth => do
          let value ← requireValue js "n" ctx
          let n ← extractUInt64 value (ctx ++ " key 'n'")
          if n < 1 then typeError value (ctx ++ " key 'n'") "an integer >= 1"
          else .ok { spec with n := some n }
      | .override => parseOverride js ctx schema spec

/-! ## What accepted documents look like -/

/-- What an accepted `count` looks like. -/
theorem fieldCount_eq_ok {members : List (String × Json)} {fieldCtx : String} {count : Nat}
    (h : fieldCount (.object members) fieldCtx = .ok count) :
    (members.lookup "count" = none ∧ count = 0) ∨
      (members.lookup "count" = some (.integer count) ∧ 1 ≤ count) := by
  rw [fieldCount, bind_eq_ok] at h
  obtain ⟨found, hfound, h⟩ := h
  obtain ⟨_, hobject, hlookup⟩ := findValue_eq_ok.mp hfound
  cases hobject
  cases found with
  | none =>
    cases h
    exact .inl ⟨hlookup, rfl⟩
  | some value =>
    simp only [bind_eq_ok] at h
    obtain ⟨n, hn, h⟩ := h
    obtain ⟨rfl, _⟩ := extractUInt64_eq_ok.mp hn
    by_cases hpos : n < 1
    · rw [if_pos hpos] at h
      cases h
    · rw [if_neg hpos] at h
      cases h
      exact .inr ⟨hlookup, by omega⟩

/-- What an accepted field adds to a Schema. -/
theorem parseField_eq_ok {ctx : String} {f : Json} (h : parseField ctx index f spec = .ok spec') :
    ∃ members field layout, f = .object members ∧
      members.lookup "name" = some (.string field.name) ∧
      members.lookup "type" = some (.string field.type) ∧
      ((members.lookup "count" = none ∧ field.count = 0) ∨
        (members.lookup "count" = some (.integer field.count) ∧ 1 ≤ field.count)) ∧
      fieldLayouts field.type = some layout ∧
      field.name ∉ spec.1.fields.map FieldSpec.name ∧
      spec' = (⟨spec.1.fields ++ [field]⟩, spec.2 + field.byteSize) := by
  rw [parseField, bind_eq_ok] at h
  obtain ⟨_, _, h⟩ := h
  rw [bind_eq_ok] at h
  obtain ⟨fname, hfname, h⟩ := h
  rw [bind_eq_ok] at h
  obtain ⟨ftype, hftype, h⟩ := h
  obtain ⟨members, rfl, hname⟩ := requiredString_eq_ok.mp hfname
  obtain ⟨_, hobject, htype⟩ := requiredString_eq_ok.mp hftype
  cases hobject
  cases hlayout : fieldLayouts ftype with
  | none =>
    rw [hlayout] at h
    cases h
  | some layout =>
    simp only [hlayout] at h
    rw [bind_eq_ok] at h
    obtain ⟨count, hcount, h⟩ := h
    simp only [require_bind_eq_ok, Except.ok.injEq] at h
    obtain ⟨hfresh, _, _, rfl⟩ := h
    refine ⟨members, ⟨fname, ftype, count⟩, layout, rfl, hname, htype,
      fieldCount_eq_ok hcount, hlayout, hfresh, ?_⟩
    simp only [FieldSpec.byteSize, hlayout, FieldSpec.elements]

/-- What holds of the fields that `parse_schema` has accepted. -/
structure Accepted (spec : SchemaSpec × Nat) : Prop where
  typed : ∀ field ∈ spec.1.fields, fieldLayouts field.type ≠ none
  names : (spec.1.fields.map FieldSpec.name).Nodup
  byteSize_eq : spec.2 = spec.1.byteSize

theorem accepted_nil : Accepted (⟨[]⟩, 0) where
  typed := by simp
  names := nodup_nil
  byteSize_eq := rfl

theorem Accepted.append {field : FieldSpec} (h : Accepted spec)
    (hfield : fieldLayouts field.type ≠ none)
    (hfresh : field.name ∉ spec.1.fields.map FieldSpec.name) :
    Accepted (⟨spec.1.fields ++ [field]⟩, spec.2 + field.byteSize) where
  typed := fun other hother => by
    rcases mem_append.mp hother with hold | hnew
    · exact h.typed other hold
    · rw [mem_singleton.mp hnew]
      exact hfield
  names := by
    rw [map_append, nodup_append]
    refine ⟨h.names, nodup_singleton _, fun a ha b hb => ?_⟩
    rw [map_singleton, mem_singleton] at hb
    rintro rfl
    exact hfresh (hb ▸ ha)
  byteSize_eq := by
    rw [h.byteSize_eq]
    simp [SchemaSpec.byteSize]

theorem parseFields_accepted {ctx : String} {fs : List Json} (hspec : Accepted spec)
    (h : parseFields ctx index fs spec = .ok spec') : Accepted spec' := by
  induction fs generalizing index spec with
  | nil =>
    cases h
    exact hspec
  | cons f rest ih =>
    rw [parseFields, bind_eq_ok] at h
    obtain ⟨spec₁, hfield, hrest⟩ := h
    obtain ⟨_, field, layout, _, _, _, _, hlayout, hfresh, rfl⟩ := parseField_eq_ok hfield
    exact ih (hspec.append (by rw [hlayout]; simp) hfresh) hrest

theorem parseSchema_eq_ok {name : String} (h : parseSchema name js = .ok spec) :
    ∃ members fs ctx, js = .object members ∧ members.lookup "fields" = some (.array fs) ∧
      parseFields ctx 0 fs (⟨[]⟩, 0) = .ok spec := by
  rw [parseSchema, bind_eq_ok] at h
  obtain ⟨_, _, h⟩ := h
  rw [bind_eq_ok] at h
  obtain ⟨value, hvalue, h⟩ := h
  rw [bind_eq_ok] at h
  obtain ⟨fs, hfs, h⟩ := h
  rw [require_bind_eq_ok] at h
  obtain ⟨members, hjs, hlookup⟩ := requireValue_eq_ok.mp hvalue
  rw [requireArray_eq_ok.mp hfs] at hlookup
  exact ⟨members, fs, _, hjs, hlookup, h.2⟩

theorem parseSchema_accepted {name : String} (h : parseSchema name js = .ok spec) :
    Accepted spec := by
  obtain ⟨_, _, _, _, _, hfields⟩ := parseSchema_eq_ok h
  exact parseFields_accepted accepted_nil hfields

/-- What an accepted override looks like. -/
theorem parseInterceptor_override {channel : String} {schema : SchemaSpec} {spec : InterceptorSpec}
    (h : parseInterceptor channel schema index js = .ok spec) (hkind : spec.kind = .override) :
    ∃ members field value ctx, js = .object members ∧
      schema.fields.reverse.find? (fun f => f.name = spec.field) = some field ∧
      field.count = 0 ∧ members.lookup "value" = some value ∧
      extractOverrideValue value ctx field.type = .ok spec.value := by
  rw [parseInterceptor, bind_eq_ok] at h
  obtain ⟨_, _, h⟩ := h
  rw [bind_eq_ok] at h
  obtain ⟨name, _, h⟩ := h
  cases hname : interceptorKind name with
  | none =>
    rw [hname] at h
    cases h
  | some kind =>
    simp only [hname] at h
    rw [bind_eq_ok] at h
    obtain ⟨startNs, _, h⟩ := h
    rw [bind_eq_ok] at h
    obtain ⟨endNs, _, h⟩ := h
    cases kind with
    | drop =>
      cases h
      cases hkind
    | delay =>
      simp only [bind_eq_ok, Except.ok.injEq] at h
      obtain ⟨_, _, rfl⟩ := h
      cases hkind
    | dropNth =>
      simp only [bind_eq_ok] at h
      obtain ⟨value, _, n, _, h⟩ := h
      by_cases hn : n < 1
      · rw [if_pos hn] at h
        cases h
      · rw [if_neg hn] at h
        cases h
        cases hkind
    | override =>
      simp only [parseOverride, bind_eq_ok] at h
      obtain ⟨field, _, h⟩ := h
      cases hfind : schema.fields.reverse.find? (fun f => f.name = field) with
      | none =>
        rw [hfind] at h
        cases h
      | some fs =>
        simp only [hfind] at h
        rw [require_bind_eq_ok] at h
        obtain ⟨hscalar, h⟩ := h
        simp only [bind_eq_ok, Except.ok.injEq] at h
        obtain ⟨value, hvalue, constant, hconstant, rfl⟩ := h
        obtain ⟨members, hjs, hlookup⟩ := requireValue_eq_ok.mp hvalue
        exact ⟨members, fs, value, _, hjs, hfind, hscalar, hlookup, hconstant⟩

end SilFormal.Manifest
