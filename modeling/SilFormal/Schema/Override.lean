import SilFormal.Kernel.PlanSemantics
import SilFormal.Manifest.Schema
import SilFormal.Schema.MessageType

/-!
# An override seen from Python

The kernel compiles an override Interceptor to bytes at an offset of its own
layout of the Schema.  Python lays out the same document independently.  Here
the two layouts are compared: an override rewrites the field it names and
nothing else, in the eyes of `MessageType.unpack`.
-/

namespace SilFormal.Schema

open List

variable {ctx name type : String} {index : Nat} {spec : SchemaSpec × Nat} {js : Json}
    {layout : FieldLayout} {field : FieldSpec} {fields : List FieldSpec} {data : List UInt8}

open Fallible Kernel Manifest

/-! ## One document for both -/

variable {spec' : SchemaSpec × Nat} {override : InterceptorSpec}

/-- `field.get("count")`. -/
def readCount : Option Json → Option (Option Int)
  | none => some none
  | some .null => some none
  | some (.integer count) => some (some count)
  | some _ => none

/-- What Python reads of a field whose name and type are strings and whose
count is an integer or none. -/
def readField : Json → Option FieldDict
  | .object members =>
    match members.lookup "name", members.lookup "type", readCount (members.lookup "count") with
    | some (.string name), some (.string type), some count => some ⟨name, type, count⟩
    | _, _, _ => none
  | _ => none

/-- `spec["fields"]`. -/
def readSpec : Json → Option (List FieldDict)
  | .object members =>
    match members.lookup "fields" with
    | some (.array fs) => fs.mapM readField
    | _ => none
  | _ => none

/-- The field that Python reads where the loader reads a field. -/
def fieldDict (field : FieldSpec) : FieldDict where
  name := field.name
  type := field.type
  count := if field.count = 0 then none else some field.count

theorem readField_of_parseField {f : Json} (h : parseField ctx index f spec = .ok spec') :
    ∃ field, readField f = some (fieldDict field) ∧ spec'.1.fields = spec.1.fields ++ [field] := by
  obtain ⟨members, field, _, rfl, hname, htype, hcount, _, _, rfl⟩ := parseField_eq_ok h
  refine ⟨field, ?_, rfl⟩
  rcases hcount with ⟨hlookup, hzero⟩ | ⟨hlookup, hpos⟩
  · simp only [readField, hname, htype, hlookup, readCount, fieldDict, hzero, if_true]
  · simp only [readField, hname, htype, hlookup, readCount, fieldDict,
      if_neg (show field.count ≠ 0 by omega)]

theorem mapM_readField {fs : List Json} (h : parseFields ctx index fs spec = .ok spec') :
    ∃ fields, fs.mapM readField = some (fields.map fieldDict) ∧
      spec'.1.fields = spec.1.fields ++ fields := by
  induction fs generalizing index spec with
  | nil =>
    cases h
    exact ⟨[], rfl, by simp⟩
  | cons f rest ih =>
    rw [parseFields, bind_eq_ok] at h
    obtain ⟨spec₁, hfirst, hrest⟩ := h
    obtain ⟨field, hread, hfields⟩ := readField_of_parseField hfirst
    obtain ⟨fields, hreads, hfields'⟩ := ih hrest
    refine ⟨field :: fields, ?_, by simp [hfields', hfields]⟩
    simp [hread, hreads]

/-- Python reads the fields of an accepted Schema as the loader does. -/
theorem readSpec_of_parseSchema (h : parseSchema name js = .ok spec) :
    readSpec js = some (spec.1.fields.map fieldDict) := by
  obtain ⟨members, fs, ctx, rfl, hlookup, hfields⟩ := parseSchema_eq_ok h
  obtain ⟨fields, hreads, hspec⟩ := mapM_readField hfields
  simp only [readSpec, hlookup, hreads, hspec, nil_append]

/-! ## One layout in both -/

/-- The width and the meaning of a type are the same in both tables. -/
theorem formats_of_fieldLayouts (h : fieldLayouts type = some layout) :
    ∃ code, formats type = some code ∧ code ≠ .s ∧ code.size = layout.size ∧
      (layout.representation = .unsigned →
        ∀ data, code.value data = .int (LittleEndian.toNat data)) ∧
      (layout.representation = .signed → ∀ data, code.value data = .int (LittleEndian.toInt data)) ∧
      (type = "u8" → layout.size = 1) := by
  simp only [fieldLayouts] at h
  split at h <;> cases h <;> simp [formats, FormatCode.size, FormatCode.value]

/-- The plan of a field. -/
def planOf (field : FieldSpec) : FieldPlan :=
  match formats field.type with
  | none => .byteArray 0
  | some elem =>
    if field.count = 0 then .scalar elem
    else if field.type = "u8" then .byteArray field.count
    else .list elem field.count

theorem planOf_spec (h : fieldLayouts field.type = some layout) :
    fieldPlan (fieldDict field) = .ok (planOf field) ∧ (planOf field).Proper ∧
      (planOf field).byteSize = field.byteSize ∧
      ∀ count, (planOf field).fmt.count = some count → 0 ≤ count := by
  obtain ⟨code, hcode, hproper, hsize, _, _, hbyte⟩ := formats_of_fieldLayouts h
  have hbytes : field.byteSize = layout.size * field.elements := by
    simp only [FieldSpec.byteSize, h]
  rw [hbytes]
  simp only [fieldPlan, fieldDict, planOf, hcode, FieldSpec.elements]
  by_cases hscalar : field.count = 0
  · simp only [if_pos hscalar]
    refine ⟨trivial, hproper, ?_, fun _ h => Option.noConfusion rfl (heq_of_eq h)⟩
    simp [FieldPlan.byteSize, FieldPlan.fmt, FormatItem.byteSize, FormatItem.repeats, hsize]
  · simp only [if_neg hscalar]
    by_cases htype : field.type = "u8"
    · simp only [if_pos htype]
      refine ⟨if_pos htype, trivial, ?_, ?_⟩
      · simp [FieldPlan.byteSize, FieldPlan.fmt, FormatItem.byteSize, FormatItem.repeats,
          hbyte htype, FormatCode.size]
      · rintro _ ⟨⟩
        omega
    · simp only [if_neg htype]
      refine ⟨if_neg htype, hproper, ?_, ?_⟩
      · simp [FieldPlan.byteSize, FieldPlan.fmt, FormatItem.byteSize, FormatItem.repeats, hsize,
          Nat.mul_comm]
      · rintro _ ⟨⟩
        omega

theorem mapM_fieldPlan (htyped : ∀ field ∈ fields, fieldLayouts field.type ≠ none) :
    (fields.map fieldDict).mapM fieldPlan = .ok (fields.map planOf) := by
  induction fields with
  | nil => rfl
  | cons field rest ih =>
    obtain ⟨layout, hlayout⟩ := Option.ne_none_iff_exists'.mp (htyped field (by simp))
    have hrest := ih fun other hother => htyped other (mem_cons_of_mem _ hother)
    rw [map_cons, mapM_cons, (planOf_spec hlayout).1, hrest]
    rfl

/-- The Message type that Python makes of an accepted Schema. -/
def messageTypeOf (spec : SchemaSpec × Nat) : MessageType where
  fieldNames := spec.1.fields.map FieldSpec.name
  plans := spec.1.fields.map planOf
  struct := ⟨(spec.1.fields.map planOf).map FieldPlan.fmt, spec.2⟩

/-- Python accepts the Schemas that the loader accepts, as far as their size is
in the range of `Py_ssize_t`, and gives them the same size. -/
theorem new_of_accepted (haccepted : Manifest.Accepted spec) (hsize : spec.2 ≤ ssizeMax) :
    MessageType.new (spec.1.fields.map fieldDict) = .ok (messageTypeOf spec) := by
  have hlayout : ∀ field ∈ spec.1.fields, ∃ layout, fieldLayouts field.type = some layout :=
    fun field hfield => Option.ne_none_iff_exists'.mp (haccepted.typed field hfield)
  have hsum : spec.2 =
      0 + (((spec.1.fields.map planOf).map FieldPlan.fmt).map FormatItem.byteSize).sum := by
    rw [haccepted.byteSize_eq, Nat.zero_add, map_map, map_map]
    refine congrArg sum (map_congr_left fun field hfield => ?_)
    obtain ⟨layout, h⟩ := hlayout field hfield
    exact (planOf_spec h).2.2.1.symm
  have hitems : ((spec.1.fields.map planOf).map FieldPlan.fmt).foldlM Struct.addItem 0 =
      .ok spec.2 := by
    refine foldlM_addItem (fun item hitem => ?_) hsum hsize
    obtain ⟨plan, hplan, rfl⟩ := mem_map.mp hitem
    obtain ⟨field, hfield, rfl⟩ := mem_map.mp hplan
    obtain ⟨layout, h⟩ := hlayout field hfield
    exact (planOf_spec h).2.2.2
  simp only [MessageType.new, mapM_fieldPlan haccepted.typed, Struct.new]
  rw [bind_eq_ok]
  refine ⟨_, rfl, ?_⟩
  have hnames : (spec.1.fields.map fieldDict).map FieldDict.name =
      spec.1.fields.map FieldSpec.name := by
    rw [map_map]
    rfl
  rw [hitems, hnames]
  rfl

/-- What Python unpacks from a payload of an accepted Schema. -/
theorem unpack_of_accepted (haccepted : Manifest.Accepted spec) (hdata : data.length = spec.2) :
    (messageTypeOf spec).unpack data = .ok ((spec.1.fields.map FieldSpec.name).zip
        (FieldPlan.decodeAll (spec.1.fields.map planOf) data)) := by
  refine MessageType.unpack_eq (fun plan hplan => ?_) rfl (by simp [messageTypeOf])
    haccepted.names hdata
  obtain ⟨field, hfield, rfl⟩ := mem_map.mp hplan
  obtain ⟨layout, h⟩ := Option.ne_none_iff_exists'.mp (haccepted.typed field hfield)
  exact (planOf_spec h).2.1

/-! ## Rewriting one field -/

/-- The search for the field of an override ends at the first field of its
name. -/
theorem overrideField_split {start offset : Nat}
    (h : overrideField name start fields = some (offset, field, layout)) :
    ∃ before after, fields = before ++ field :: after ∧ field.name = name ∧
      fieldLayouts field.type = some layout ∧
      offset = start + (before.map FieldSpec.byteSize).sum := by
  induction fields generalizing start with
  | nil => cases h
  | cons candidate rest ih =>
    rw [overrideField] at h
    cases hlayout : fieldLayouts candidate.type with
    | none =>
      rw [hlayout] at h
      cases h
    | some layout' =>
      simp only [hlayout] at h
      by_cases hname : candidate.name = name
      · rw [if_pos hname] at h
        cases h
        exact ⟨[], rest, rfl, hname, hlayout, rfl⟩
      · rw [if_neg hname] at h
        obtain ⟨before, after, rfl, hfield, hlayout', hoffset⟩ := ih h
        refine ⟨candidate :: before, after, rfl, hfield, hlayout', ?_⟩
        have hsize : candidate.byteSize = layout'.size * candidate.elements := by
          simp only [FieldSpec.byteSize, hlayout]
        rw [map_cons, sum_cons]
        omega

theorem decodeAll_append (plans more : List FieldPlan) (data : List UInt8) :
    FieldPlan.decodeAll (plans ++ more) data = FieldPlan.decodeAll plans data ++
        FieldPlan.decodeAll more (data.drop (plans.map FieldPlan.byteSize).sum) := by
  induction plans generalizing data with
  | nil => rfl
  | cons plan rest ih =>
    rw [cons_append, FieldPlan.decodeAll, ih, FieldPlan.decodeAll, cons_append,
      drop_drop, map_cons, sum_cons]

/-- Fields depend on their own bytes only. -/
theorem decodeAll_congr {plans : List FieldPlan} {data' : List UInt8}
    (h : data.take (plans.map FieldPlan.byteSize).sum =
      data'.take (plans.map FieldPlan.byteSize).sum) :
    FieldPlan.decodeAll plans data = FieldPlan.decodeAll plans data' := by
  induction plans generalizing data data' with
  | nil => rfl
  | cons plan rest ih =>
    have hfirst : data.take plan.byteSize = data'.take plan.byteSize := by
      have := congrArg (take plan.byteSize) h
      simpa [take_take] using this
    have hrest : (data.drop plan.byteSize).take (rest.map FieldPlan.byteSize).sum =
        (data'.drop plan.byteSize).take (rest.map FieldPlan.byteSize).sum := by
      have := congrArg (drop plan.byteSize) h
      simpa [drop_take] using this
    rw [FieldPlan.decodeAll, FieldPlan.decodeAll, hfirst, ih hrest]

/-- Setting a key that occurs once. -/
theorem Dict.set_split {before after : Dict} {old value : PyValue}
    (hbefore : name ∉ before.map Prod.fst) (hafter : name ∉ after.map Prod.fst) :
    Dict.set (before ++ (name, old) :: after) name value = before ++ (name, value) :: after := by
  have hkeep : ∀ entries : Dict, name ∉ entries.map Prod.fst →
      entries.map (fun entry => if entry.1 = name then (name, value) else entry) = entries := by
    intro entries hentries
    refine (map_congr_left fun entry hentry => if_neg ?_).trans (map_id _)
    rintro rfl
    exact hentries (mem_map_of_mem hentry)
  rw [Dict.set, if_pos (by simp), map_append, map_cons, hkeep before hbefore, hkeep after hafter]
  simp

/-- Bytes written over one field change the value of that field only. -/
theorem zip_decodeAll_rewrite {before after : List FieldSpec}
    (htyped : ∀ f ∈ before ++ field :: after, fieldLayouts f.type ≠ none)
    (hnodup : ((before ++ field :: after).map FieldSpec.name).Nodup) {new : List UInt8}
    (hdata : data.length = ((before ++ field :: after).map FieldSpec.byteSize).sum)
    (hnew : new.length = field.byteSize) : let offset := (before.map FieldSpec.byteSize).sum
    ((before ++ field :: after).map FieldSpec.name).zip
        (FieldPlan.decodeAll ((before ++ field :: after).map planOf)
          (data.take offset ++ new ++ data.drop (offset + new.length))) =
      Dict.set (((before ++ field :: after).map FieldSpec.name).zip
        (FieldPlan.decodeAll ((before ++ field :: after).map planOf) data)) field.name
        ((planOf field).decode new) := by
  intro offset
  have hsize : ∀ f ∈ before ++ field :: after, (planOf f).byteSize = f.byteSize := by
    intro f hf
    obtain ⟨layout, h⟩ := Option.ne_none_iff_exists'.mp (htyped f hf)
    exact (planOf_spec h).2.2.1
  have hbefore : ((before.map planOf).map FieldPlan.byteSize).sum = offset := by
    rw [map_map]
    exact congrArg sum (map_congr_left fun f hf => hsize f (by simp [hf]))
  have hoffset : offset + field.byteSize ≤ data.length := by
    rw [hdata, map_append, sum_append, map_cons, sum_cons]
    omega
  have htake : (data.take offset).length = offset := by
    rw [length_take]
    omega
  -- Both payloads fall into the fields before, the field and the fields after.
  have hsplit : ∀ d : List UInt8, FieldPlan.decodeAll ((before ++ field :: after).map planOf) d =
      FieldPlan.decodeAll (before.map planOf) d ++
        (planOf field).decode ((d.drop offset).take field.byteSize) ::
          FieldPlan.decodeAll (after.map planOf) (d.drop (offset + field.byteSize)) := by
    intro d
    rw [map_append, map_cons, decodeAll_append, FieldPlan.decodeAll, hbefore,
      hsize field (by simp), drop_drop]
  have hzip : ∀ (xs zs : List PyValue) (y : PyValue), xs.length = before.length →
      ((before ++ field :: after).map FieldSpec.name).zip (xs ++ y :: zs) =
        (before.map FieldSpec.name).zip xs ++
          (field.name, y) :: (after.map FieldSpec.name).zip zs := by
    intro xs zs y hxs
    rw [map_append, map_cons, zip_append (by simp [hxs]), zip_cons_cons]
  have hlength : ∀ d : List UInt8,
      (FieldPlan.decodeAll (before.map planOf) d).length = before.length := by
    intro d
    rw [FieldPlan.decodeAll_length, length_map]
  have hfirst : FieldPlan.decodeAll (before.map planOf)
      (data.take offset ++ new ++ data.drop (offset + new.length)) =
        FieldPlan.decodeAll (before.map planOf) data := by
    refine decodeAll_congr ?_
    rw [hbefore, append_assoc, take_append_of_le_length (by omega), take_take, Nat.min_self]
  have hfield : ((data.take offset ++ new ++ data.drop (offset + new.length)).drop offset).take
      field.byteSize = new := by
    rw [append_assoc, drop_append_of_le_length (by omega), drop_of_length_le (by omega), nil_append,
      take_append_of_le_length (by omega), take_of_length_le (by omega)]
  have hlast : (data.take offset ++ new ++ data.drop (offset + new.length)).drop
      (offset + field.byteSize) = data.drop (offset + field.byteSize) := by
    rw [drop_append_of_le_length (by rw [length_append]; omega),
      drop_of_length_le (by rw [length_append]; omega), nil_append, hnew]
  have hnames : field.name ∉ before.map FieldSpec.name ∧ field.name ∉ after.map FieldSpec.name := by
    rw [map_append, map_cons, nodup_append, nodup_cons] at hnodup
    exact ⟨fun hmem => hnodup.2.2 _ hmem _ (by simp) rfl, hnodup.2.1.1⟩
  rw [hsplit, hsplit, hfirst, hfield, hlast, hzip _ _ _ (hlength _), hzip _ _ _ (hlength _)]
  refine (Dict.set_split (fun hmem => hnames.1 ?_) (fun hmem => hnames.2 ?_)).symm
  · obtain ⟨entry, hentry, hname⟩ := mem_map.mp hmem
    exact hname ▸ (of_mem_zip hentry).1
  · obtain ⟨entry, hentry, hname⟩ := mem_map.mp hmem
    exact hname ▸ (of_mem_zip hentry).1

/-! ## Integer constants -/

/-- The integer fields have the same range in the loader as in their layout. -/
theorem overrideInteger_of_fieldLayouts (h : fieldLayouts type = some layout) :
    1 ≤ layout.size ∧ layout.size ≤ 8 ∧ (layout.representation = .unsigned →
        overrideInteger type = some ⟨false, 8 * layout.size⟩) ∧
      (layout.representation = .signed → overrideInteger type = some ⟨true, 8 * layout.size⟩) := by
  simp only [fieldLayouts] at h
  split at h <;> cases h <;> simp [overrideInteger]

theorem encodeOverride_eq {value : OverrideValue} {bits : Nat}
    (h : overrideBits layout value = some bits) :
    encodeOverride layout value = some (LittleEndian.ofNat layout.size bits) := by
  rw [encodeOverride, h]
  rfl

/-- The bytes of an accepted constant stand for it in Python. -/
theorem value_encodeOverride (hlayout : fieldLayouts type = some layout)
    (hinteger : layout.representation ≠ .float) {value : Json} {constant : OverrideValue}
    (h : extractOverrideValue value ctx type = .ok constant) :
    ∃ v code bytes, value = .integer v ∧ formats type = some code ∧
      encodeOverride layout constant = some bytes ∧ code.value bytes = .int v := by
  obtain ⟨hone, height, hunsigned, hsigned⟩ := overrideInteger_of_fieldLayouts hlayout
  obtain ⟨code, hcode, _, _, hnat, hint, _⟩ := formats_of_fieldLayouts hlayout
  have hpow : (2 : Nat) ^ (8 * layout.size) = 256 ^ layout.size := by
    rw [Nat.pow_mul]
  cases hrepresentation : layout.representation with
  | unsigned =>
    simp only [extractOverrideValue, hunsigned hrepresentation] at h
    obtain ⟨v, hv, rfl⟩ := map_eq_ok.mp h
    obtain ⟨rfl, hlow, hhigh⟩ := extractInteger_eq_ok.mp hv
    simp only [IntegerType.low, IntegerType.high, Bool.false_eq_true, if_false]
      at hlow hhigh
    have hbits : overrideBits layout (.unsigned v.toNat) = some v.toNat := by
      simp only [overrideBits, hrepresentation]
    refine ⟨v, code, _, rfl, hcode, encodeOverride_eq hbits, ?_⟩
    rw [hnat hrepresentation, LittleEndian.toNat_ofNat, Nat.mod_eq_of_lt (by omega),
      Int.toNat_of_nonneg hlow]
  | signed =>
    simp only [extractOverrideValue, hsigned hrepresentation] at h
    obtain ⟨v, hv, rfl⟩ := map_eq_ok.mp h
    obtain ⟨rfl, hlow, hhigh⟩ := extractInteger_eq_ok.mp hv
    have hhalf : 2 * 2 ^ (8 * layout.size - 1) = 256 ^ layout.size := by
      rw [← hpow, ← Nat.pow_succ']
      congr 1
      omega
    simp only [IntegerType.low, IntegerType.high, if_true] at hlow hhigh
    have hbits : overrideBits layout (.signed v) = some (v % (256 ^ 8 : Nat)).toNat := by
      simp only [overrideBits, hrepresentation]
      norm_num
    refine ⟨v, code, _, rfl, hcode, encodeOverride_eq hbits, ?_⟩
    rw [hint hrepresentation, LittleEndian.toInt_ofNat height (by omega) (by omega)]
  | float => exact absurd hrepresentation hinteger

theorem representation_ne_float (h : fieldLayouts type = some layout)
    (hinteger : overrideInteger type ≠ none) : layout.representation ≠ .float := by
  simp only [fieldLayouts] at h
  split at h <;> cases h <;> simp_all [overrideInteger]

/-! ## The compiled override -/

theorem exists_overrideField (htyped : ∀ f ∈ fields, fieldLayouts f.type ≠ none)
    (hfield : field ∈ fields) (start : Nat) :
    ∃ found, overrideField field.name start fields = some found := by
  induction fields generalizing start with
  | nil => cases hfield
  | cons candidate rest ih =>
    obtain ⟨layout, hlayout⟩ := Option.ne_none_iff_exists'.mp (htyped candidate (by simp))
    rw [overrideField]
    simp only [hlayout]
    by_cases hname : candidate.name = field.name
    · rw [if_pos hname]
      exact ⟨_, rfl⟩
    · rw [if_neg hname]
      refine ih (fun f hf => htyped f (mem_cons_of_mem _ hf)) ?_ _
      exact (mem_cons.mp hfield).resolve_left fun heq => hname (heq ▸ rfl)

theorem eq_of_name_eq (hnodup : (fields.map FieldSpec.name).Nodup) {f g : FieldSpec}
    (hf : f ∈ fields) (hg : g ∈ fields) (hname : f.name = g.name) : f = g :=
  inj_on_of_nodup_map hnodup hf hg hname

/-- Whether a Message is in the window of an Interceptor. -/
def InWindow (spec : InterceptorSpec) (nowNs : Nat) : Prop :=
  spec.startNs ≤ nowNs ∧ ∀ endNs, spec.endNs = some endNs → nowNs < endNs

instance (spec : InterceptorSpec) (nowNs : Nat) : Decidable (InWindow spec nowNs) :=
  inferInstanceAs (Decidable (_ ∧ _))

/-- The step of an override. -/
def overrideStep (spec : InterceptorSpec) (offset : Nat) (bytes : Bytes) : InterceptorStep :=
  { spec.window with overrideOffset := offset, overrideBytes := bytes }

theorem inWindow_overrideStep (spec : InterceptorSpec) (offset : Nat) (bytes : Bytes)
    (nowNs : Nat) :
    (overrideStep spec offset bytes).inWindow nowNs = true ↔ InWindow spec nowNs := by
  cases hend : spec.endNs with
  | none => simp [overrideStep, InterceptorStep.inWindow, InterceptorSpec.window, InWindow, hend]
  | some endNs =>
    simp [overrideStep, InterceptorStep.inWindow, InterceptorSpec.window, InWindow, hend]

/-- A plan of one override. -/
theorem apply_override {step : InterceptorStep} (hkind : step.kind = .override)
    (durationNs nowNs : Nat) {payload : Bytes}
    (hfits : step.overrideOffset + step.overrideBytes.length ≤ payload.length) :
    (InterceptorPlan.apply ⟨durationNs, [step]⟩ nowNs payload).2 =
      .verdict ⟨decide (durationNs ≤ nowNs), nowNs⟩
        (if step.inWindow nowNs = true ∧ nowNs < durationNs then step.overwrite payload
          else payload) := by
  have hdrop : dropPass nowNs [step] = (false, [step]) := by
    simp only [dropPass, hkind, ite_self]
  have hdelay : delayPass nowNs [step] nowNs = nowNs := by
    simp [delayPass, hkind]
  have hfit : step.fits payload.length = true := by
    simp only [InterceptorStep.fits, Bool.not_eq_true', Bool.or_eq_false_iff,
      decide_eq_false_iff_not]
    omega
  simp only [InterceptorPlan.apply, hdrop, hdelay, Bool.false_eq_true, if_false]
  by_cases hlate : nowNs ≥ durationNs
  · simp [hlate]
  · have hearly : decide (durationNs ≤ nowNs) = false := decide_eq_false (by omega)
    rw [if_neg hlate, hearly]
    by_cases hwindow : step.inWindow nowNs = true
    · rw [if_pos ⟨hwindow, by omega⟩]
      simp only [overridePass, hkind, hwindow, and_self, if_true, hfit]
    · rw [if_neg fun h => hwindow h.1, overridePass, if_neg fun h => hwindow h.2]
      rfl

/-- What the loader and the compiler make of an override of an integer field. -/
theorem compileStep_override (haccepted : Manifest.Accepted spec) {channel : String}
    (hparse : parseInterceptor channel spec.1 index js = .ok override)
    (hkind : override.kind = .override) (hfield : field ∈ spec.1.fields)
    (hname : field.name = override.field) (hinteger : overrideInteger field.type ≠ none) :
    ∃ v members before after code bytes, js = .object members ∧
      members.lookup "value" = some (.integer v) ∧
      spec.1.fields = before ++ field :: after ∧ planOf field = .scalar code ∧
      code.value bytes = .int v ∧ bytes.length = field.byteSize ∧
      compileStep spec.1 override =
        some (overrideStep override (before.map FieldSpec.byteSize).sum bytes) := by
  obtain ⟨members, found, value, ctx, hjs, hfind, hscalar, hlookup, hvalue⟩ :=
    parseInterceptor_override hparse hkind
  -- The field found by the loader, the one found by the compiler and the field
  -- of that name are the same.
  have hfound : found = field := by
    have hmem := mem_of_find?_eq_some hfind
    have hfoundName := find?_some hfind
    rw [mem_reverse] at hmem
    refine eq_of_name_eq haccepted.names hmem hfield ?_
    rw [hname]
    simpa using hfoundName
  subst hfound
  obtain ⟨⟨offset, compiled, layout⟩, hcompiled⟩ :=
    exists_overrideField haccepted.typed hfield 0
  obtain ⟨before, after, hsplit, hcompiledName, hlayout, hoffset⟩ :=
    overrideField_split hcompiled
  have hsame : compiled = found := by
    refine eq_of_name_eq haccepted.names ?_ hfield hcompiledName
    rw [hsplit]
    simp
  subst hsame
  obtain ⟨v, code, bytes, rfl, hcode, hencode, hint⟩ :=
    value_encodeOverride hlayout (representation_ne_float hlayout hinteger) hvalue
  have hbytes : bytes.length = compiled.byteSize := by
    rw [encodeOverride_length hencode]
    simp [FieldSpec.byteSize, hlayout, FieldSpec.elements, hscalar]
  refine ⟨v, members, before, after, code, bytes, hjs, hlookup, hsplit, ?_, hint, hbytes, ?_⟩
  · simp only [planOf, hcode, hscalar, if_true]
  · rw [Nat.zero_add] at hoffset
    simp only [compileStep, hkind, ← hname, hcompiled, hscalar, ne_eq, not_true, if_false,
      hencode, Option.map_some, hoffset, overrideStep]

/-- The step of an override of an integer field rewrites that field. -/
theorem exists_overrideStep (haccepted : Manifest.Accepted spec) {channel : String}
    (hparse : parseInterceptor channel spec.1 index js = .ok override)
    (hkind : override.kind = .override) (hfield : field ∈ spec.1.fields)
    (hname : field.name = override.field) (hinteger : overrideInteger field.type ≠ none) :
    ∃ v members offset bytes, js = .object members ∧ members.lookup "value" = some (.integer v) ∧
      compileStep spec.1 override = some (overrideStep override offset bytes) ∧
      offset + bytes.length ≤ spec.2 ∧
      ∀ payload : Bytes, payload.length = spec.2 → ∃ before,
        (messageTypeOf spec).unpack payload = .ok before ∧ override.field ∈ before.map Prod.fst ∧
          (messageTypeOf spec).unpack ((overrideStep override offset bytes).overwrite payload) =
            .ok (before.set override.field (.int v)) := by
  obtain ⟨v, members, before, after, code, bytes, hjs, hlookup, hsplit, hplan, hint, hbytes,
    hcompile⟩ := compileStep_override haccepted hparse hkind hfield hname hinteger
  have hsum : spec.2 = ((before ++ field :: after).map FieldSpec.byteSize).sum := by
    rw [haccepted.byteSize_eq, SchemaSpec.byteSize, hsplit]
  have hlast : (before.map FieldSpec.byteSize).sum + bytes.length ≤ spec.2 := by
    rw [hsum, map_append, sum_append, map_cons, sum_cons]
    omega
  refine ⟨v, members, _, bytes, hjs, hlookup, hcompile, hlast, fun payload hpayload => ?_⟩
  refine ⟨_, unpack_of_accepted haccepted hpayload, ?_, ?_⟩
  · rw [map_fst_zip (by simp [FieldPlan.decodeAll_length]), ← hname]
    exact mem_map_of_mem hfield
  · have htyped := haccepted.typed
    have hnodup := haccepted.names
    rw [hsplit] at htyped hnodup
    have hrewrite := zip_decodeAll_rewrite htyped hnodup (hpayload.trans hsum) hbytes
    have hlength : ((overrideStep override (before.map FieldSpec.byteSize).sum bytes).overwrite
        payload).length = spec.2 :=
      (InterceptorStep.overwrite_length (hpayload ▸ hlast)).trans hpayload
    rw [unpack_of_accepted haccepted hlength, hsplit, ← hname]
    rw [hplan, FieldPlan.decode, hint] at hrewrite
    exact congrArg Except.ok hrewrite

/-- An override of an integer field never throws, keeps the length of the
payload and, within its window and the Run, changes what Python unpacks at that
field to its constant and nowhere else.  Both layouts have the same size. -/
theorem override_changes_one_field {name : String} {js : Json} {spec : SchemaSpec × Nat}
    (hschema : parseSchema name js = .ok spec) (hsize : spec.2 ≤ ssizeMax) :
    ∃ mt, (∃ fields, readSpec js = some fields ∧ MessageType.new fields = .ok mt) ∧
      mt.size = spec.2 ∧
      ∀ channel index ijs override field, parseInterceptor channel spec.1 index ijs = .ok override →
        override.kind = .override → field ∈ spec.1.fields → field.name = override.field →
        overrideInteger field.type ≠ none →
        ∃ v members, ijs = .object members ∧ members.lookup "value" = some (.integer v) ∧
          ∀ durationNs, ∃ plan, compileInterceptorPlan durationNs spec.1 [override] = some plan ∧
            ∀ nowNs payload, payload.length = spec.2 → ∃ bytes before,
              (plan.apply nowNs payload).2 = .verdict ⟨decide (durationNs ≤ nowNs), nowNs⟩ bytes ∧
              bytes.length = spec.2 ∧ mt.unpack payload = .ok before ∧
              override.field ∈ before.map Prod.fst ∧
              mt.unpack bytes = .ok (if InWindow override nowNs ∧ nowNs < durationNs then
                before.set override.field (.int v) else before) := by
  have haccepted := parseSchema_accepted hschema
  refine ⟨messageTypeOf spec, ⟨_, readSpec_of_parseSchema hschema,
    new_of_accepted haccepted hsize⟩, rfl, ?_⟩
  intro channel index ijs override field hparse hkind hfield hname hinteger
  obtain ⟨v, members, offset, constant, hijs, hlookup, hcompile, hfits, hrewrite⟩ :=
    exists_overrideStep haccepted hparse hkind hfield hname hinteger
  refine ⟨v, members, hijs, hlookup, fun durationNs =>
    ⟨⟨durationNs, [overrideStep override offset constant]⟩, ?_, fun nowNs payload hpayload => ?_⟩⟩
  · simp only [compileInterceptorPlan, mapM_cons, hcompile]
    rfl
  obtain ⟨before, hbefore, hkey, hafter⟩ := hrewrite payload hpayload
  refine ⟨_, before, apply_override hkind durationNs nowNs (hpayload ▸ hfits), ?_, hbefore,
    hkey, ?_⟩
  · split
    · exact (InterceptorStep.overwrite_length (hpayload ▸ hfits)).trans hpayload
    · exact hpayload
  · simp only [inWindow_overrideStep]
    by_cases hrewritten : InWindow override nowNs ∧ nowNs < durationNs
    · rw [if_pos hrewritten, if_pos hrewritten]
      exact hafter
    · rw [if_neg hrewritten, if_neg hrewritten]
      exact hbefore

/-- A Schema of a speed and three raw bytes. -/
def frameSchema : Json :=
  .object [("fields", .array [
    .object [("name", .string "raw"), ("type", .string "u8"), ("count", .integer 3)],
    .object [("name", .string "speed"), ("type", .string "i16")]])]

/-- An override of the speed. -/
def speedOverride : Json :=
  .object [("field", .string "speed"), ("kind", .string "override"), ("value", .integer (-2))]

/-- A speed that is overridden from the start of the Run. -/
theorem override_changes_one_field_speed :
    ∃ (mt : MessageType) (plan : InterceptorPlan) (bytes : Bytes) (before : Dict), mt.size = 5 ∧
      compileInterceptorPlan 10 ⟨[⟨"raw", "u8", 3⟩, ⟨"speed", "i16", 0⟩]⟩
        [⟨.override, 0, none, none, none, "speed", .signed (-2)⟩] = some plan ∧
      (plan.apply 0 [1, 2, 3, 7, 0]).2 = .verdict ⟨false, 0⟩ bytes ∧
      mt.unpack [1, 2, 3, 7, 0] = .ok before ∧
      mt.unpack bytes = .ok (before.set "speed" (.int (-2))) := by
  have hschema : parseSchema "Frame" frameSchema =
      .ok (⟨[⟨"raw", "u8", 3⟩, ⟨"speed", "i16", 0⟩]⟩, 5) := rfl
  have hparse : parseInterceptor "frames" ⟨[⟨"raw", "u8", 3⟩, ⟨"speed", "i16", 0⟩]⟩ 0
      speedOverride = .ok ⟨.override, 0, none, none, none, "speed", .signed (-2)⟩ := rfl
  obtain ⟨mt, _, hsize, hall⟩ := override_changes_one_field hschema (by decide)
  obtain ⟨v, members, hmembers, hlookup, hplans⟩ := hall "frames" 0 speedOverride _
    ⟨"speed", "i16", 0⟩ hparse rfl (by simp) rfl (by decide)
  obtain ⟨plan, hplan, happly⟩ := hplans 10
  obtain ⟨bytes, before, hanswer, _, hbefore, _, hafter⟩ := happly 0 [1, 2, 3, 7, 0] rfl
  have hv : v = -2 := by
    cases hmembers
    cases hlookup
    rfl
  subst hv
  refine ⟨mt, plan, bytes, before, hsize, hplan, hanswer, hbefore, ?_⟩
  rw [hafter, if_pos ⟨⟨Nat.le_refl _, nofun⟩, by decide⟩]

/-- A Schema that the loader accepts and Python does not: `struct` formats have
at most `2 ^ 63 - 1` bytes. -/
theorem size_beyond_ssize : let js := Json.object [("fields", .array [.object
      [("count", .integer (2 ^ 63)), ("name", .string "data"), ("type", .string "u8")]])]
    parseSchema "Blob" js = .ok (⟨[⟨"data", "u8", 2 ^ 63⟩]⟩, 2 ^ 63) ∧
      ∃ fields, readSpec js = some fields ∧
        MessageType.new fields = .error "total struct size too long" := by
  exact ⟨rfl, [⟨"data", "u8", some (2 ^ 63)⟩], rfl, rfl⟩

end SilFormal.Schema
