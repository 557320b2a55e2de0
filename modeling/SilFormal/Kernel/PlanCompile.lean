import SilFormal.Kernel.Interceptor

/-!
# Compiling an interceptor plan

`compile_interceptor_plan` of `manifest.cpp`: the declared Interceptors of one
Channel become the steps of its plan.  An override constant is encoded once,
as the little-endian bytes of its schema field at the field's offset.
-/

namespace SilFormal.Kernel

/-- `FieldLayout::Representation`. -/
inductive Representation
  | unsigned
  | signed
  | float
deriving DecidableEq, Repr

/-- `FieldLayout`. -/
structure FieldLayout where
  size : Nat
  representation : Representation
deriving DecidableEq, Repr

/-- `kFieldLayouts`. -/
def fieldLayouts (type : String) : Option FieldLayout :=
  match type with
  | "u8" => some ⟨1, .unsigned⟩
  | "u16" => some ⟨2, .unsigned⟩
  | "u32" => some ⟨4, .unsigned⟩
  | "u64" => some ⟨8, .unsigned⟩
  | "i8" => some ⟨1, .signed⟩
  | "i16" => some ⟨2, .signed⟩
  | "i32" => some ⟨4, .signed⟩
  | "i64" => some ⟨8, .signed⟩
  | "f32" => some ⟨4, .float⟩
  | "f64" => some ⟨8, .float⟩
  | _ => none

/-- `FieldSpec`; a `count` of 0 is a scalar field. -/
structure FieldSpec where
  name : String
  type : String
  count : Nat
deriving DecidableEq, Repr

namespace FieldSpec

/-- Number of elements of a field. -/
def elements (f : FieldSpec) : Nat :=
  if f.count = 0 then 1 else f.count

/-- Bytes of a field of a known type. -/
def byteSize (f : FieldSpec) : Nat :=
  match fieldLayouts f.type with
  | none => 0
  | some layout => layout.size * f.elements

end FieldSpec

/-- `SchemaSpec`; the size is the one `parse_schema` sums up. -/
structure SchemaSpec where
  fields : List FieldSpec
deriving DecidableEq, Repr

def SchemaSpec.byteSize (s : SchemaSpec) : Nat :=
  (s.fields.map FieldSpec.byteSize).sum

/-- `InterceptorSpec::OverrideValue`.  A floating constant is given by its
bits as a double and as the float it rounds to. -/
inductive OverrideValue
  | unsigned (value : Nat)
  | signed (value : Int)
  | double (bits64 bits32 : Nat)
deriving DecidableEq, Repr

/-- `InterceptorSpec`. -/
structure InterceptorSpec where
  kind : InterceptorKind
  startNs : Nat
  endNs : Option Nat
  delayNs : Option Nat
  n : Option Nat
  field : String
  value : OverrideValue
deriving DecidableEq, Repr

/-- The bits `encode_override` shifts out; the category of the value has to
match the representation of the field. -/
def overrideBits (layout : FieldLayout) (value : OverrideValue) : Option Nat :=
  match layout.representation, value with
  | .unsigned, .unsigned v => some v
  | .signed, .signed v => some (v % 2 ^ 64).toNat
  | .float, .double bits64 bits32 => some (if layout.size = 4 then bits32 else bits64)
  | _, _ => none

/-- `encode_override`. -/
def encodeOverride (layout : FieldLayout) (value : OverrideValue) : Option Bytes :=
  (overrideBits layout value).map fun bits =>
    (List.range layout.size).map fun i => UInt8.ofNat (bits >>> (8 * i))

/-- The search for the field of an override, with its offset. -/
def overrideField (name : String) : Nat → List FieldSpec → Option (Nat × FieldSpec × FieldLayout)
  | _, [] => none
  | offset, candidate :: rest =>
    match fieldLayouts candidate.type with
    | none => none
    | some layout =>
      if candidate.name = name then some (offset, candidate, layout)
      else
        overrideField name (offset + layout.size * candidate.elements) rest

/-- The part of a step that all kinds share. -/
def InterceptorSpec.window (spec : InterceptorSpec) : InterceptorStep where
  kind := spec.kind
  startNs := spec.startNs
  endNs := spec.endNs.getD 0
  hasEnd := spec.endNs.isSome
  parameter := 0
  windowCount := 0
  overrideOffset := 0
  overrideBytes := []

/-- One iteration of `compile_interceptor_plan`; `none` is one of its logic
errors. -/
def compileStep (schema : SchemaSpec) (spec : InterceptorSpec) : Option InterceptorStep :=
  match spec.kind with
  | .drop => some spec.window
  | .delay => spec.delayNs.map fun d => { spec.window with parameter := d }
  | .dropNth =>
    match spec.n with
    | none => none
    | some n => if n < 1 then none else some { spec.window with parameter := n }
  | .override =>
    match overrideField spec.field 0 schema.fields with
    | none => none
    | some (offset, field, layout) =>
      if field.count ≠ 0 then none
      else
        (encodeOverride layout spec.value).map fun bytes =>
          { spec.window with
            overrideOffset := offset
            overrideBytes := bytes }

/-- `compile_interceptor_plan`. -/
def compileInterceptorPlan (durationNs : Nat) (schema : SchemaSpec) (specs : List InterceptorSpec) :
    Option InterceptorPlan :=
  (specs.mapM (compileStep schema)).map fun steps => ⟨durationNs, steps⟩

/-! ## What a compiled plan satisfies -/

/-- A step as compilation leaves it, for a payload of `byteSize` bytes. -/
structure InterceptorStep.Compiled (byteSize : Nat) (step : InterceptorStep) : Prop where
  count_zero : step.windowCount = 0
  parameter_pos : step.kind = .dropNth → 0 < step.parameter
  fits : step.overrideOffset + step.overrideBytes.length ≤ byteSize

theorem overrideField_fits {name : String} {fields : List FieldSpec} {offset start : Nat}
    {field : FieldSpec} {layout : FieldLayout}
    (h : overrideField name start fields = some (offset, field, layout)) :
    offset + layout.size * field.elements ≤ start + (fields.map FieldSpec.byteSize).sum := by
  induction fields generalizing start with
  | nil => cases h
  | cons candidate rest ih =>
    unfold overrideField at h
    cases hlayout : fieldLayouts candidate.type with
    | none => simp [hlayout] at h
    | some layout' =>
      have hsize : candidate.byteSize = layout'.size * candidate.elements := by
        simp [FieldSpec.byteSize, hlayout]
      rw [List.map_cons, List.sum_cons]
      simp only [hlayout] at h
      split_ifs at h with hname
      · obtain ⟨rfl, rfl, rfl⟩ := h
        omega
      · have := ih h
        omega

theorem encodeOverride_length {layout : FieldLayout} {value : OverrideValue} {bytes : Bytes}
    (h : encodeOverride layout value = some bytes) : bytes.length = layout.size := by
  obtain ⟨bits, _, rfl⟩ := Option.map_eq_some_iff.mp h
  simp

theorem compileStep_compiled {schema : SchemaSpec} {spec : InterceptorSpec} {step : InterceptorStep}
    (h : compileStep schema spec = some step) : step.Compiled schema.byteSize := by
  have hwindow : spec.kind ≠ .dropNth → ∀ d, InterceptorStep.Compiled schema.byteSize
        { spec.window with parameter := d } := by
    intro hkind d
    exact ⟨rfl, fun hk => absurd hk hkind, by simp [InterceptorSpec.window]⟩
  unfold compileStep at h
  cases hkind : spec.kind with
  | drop =>
    simp only [hkind, Option.some.injEq] at h
    subst h
    exact hwindow (by simp [hkind]) 0
  | delay =>
    simp only [hkind] at h
    obtain ⟨d, _, rfl⟩ := Option.map_eq_some_iff.mp h
    exact hwindow (by simp [hkind]) d
  | dropNth =>
    simp only [hkind] at h
    cases hn : spec.n with
    | none => simp [hn] at h
    | some n =>
      simp only [hn] at h
      split_ifs at h with hlt
      simp only [Option.some.injEq] at h
      subst h
      have hpos : 0 < n := by omega
      exact ⟨rfl, fun _ => hpos, by simp [InterceptorSpec.window]⟩
  | override =>
    simp only [hkind] at h
    rcases hfield : overrideField spec.field 0 schema.fields with _ | ⟨offset, field, layout⟩
    · simp [hfield] at h
    · simp only [hfield] at h
      split_ifs at h with hcount
      obtain ⟨bytes, hbytes, rfl⟩ := Option.map_eq_some_iff.mp h
      refine ⟨rfl, fun hk => ?_, ?_⟩
      · exact absurd hk (by simp [InterceptorSpec.window, hkind])
      · have hfits := overrideField_fits hfield
        have hone : field.elements = 1 := by
          simp [FieldSpec.elements, not_not.mp hcount]
        rw [hone, mul_one, zero_add] at hfits
        rw [encodeOverride_length hbytes]
        exact hfits

theorem compileInterceptorPlan_compiled {durationNs : Nat} {schema : SchemaSpec}
    {specs : List InterceptorSpec} {plan : InterceptorPlan}
    (h : compileInterceptorPlan durationNs schema specs = some plan) :
    plan.durationNs = durationNs ∧ ∀ step ∈ plan.steps, step.Compiled schema.byteSize := by
  obtain ⟨steps, hsteps, rfl⟩ := Option.map_eq_some_iff.mp h
  refine ⟨rfl, ?_⟩
  clear h
  induction specs generalizing steps with
  | nil =>
    simp only [List.mapM_nil, Option.pure_def, Option.some.injEq] at hsteps
    subst hsteps
    simp
  | cons spec rest ih =>
    rw [List.mapM_cons] at hsteps
    simp only [Option.pure_def, Option.bind_eq_bind, Option.bind_eq_some_iff,
      Option.some.injEq] at hsteps
    obtain ⟨step, hstep, tail, htail, rfl⟩ := hsteps
    intro s hs
    rcases List.mem_cons.mp hs with rfl | hs
    · exact compileStep_compiled hstep
    · exact ih tail htail s hs

end SilFormal.Kernel
