import SilFormal.Can.Effects

/-!
# Reading an operation buffer

`accept` walks over lengths and layouts that the sender chose.  Here it is
written once more with every read of a byte checked and the loop bounded, and
the two agree: no read leaves its operation and the loop ends.  The buffer is
the operations it is cut into and what cannot be cut, and the bytes that are
corrupt come back from the Format Error reports on them.
-/

namespace SilFormal.Can

open Fallible List

/-! ## Checked reads -/

/-- The byte at an index; a read outside of the bytes is `none`. -/
def byteAt? (b : Bytes) (i : Nat) : Option Nat :=
  b[i]?.map UInt8.toNat

/-- `u16`, checked. -/
def u16? (b : Bytes) (i : Nat) : Option Nat := do
  let low ← byteAt? b i
  let high ← byteAt? b (i + 1)
  some (low + high * 2 ^ 8)

/-- `u32`, checked. -/
def u32? (b : Bytes) (i : Nat) : Option Nat := do
  let first ← byteAt? b i
  let second ← byteAt? b (i + 1)
  let third ← byteAt? b (i + 2)
  let fourth ← byteAt? b (i + 3)
  some (first + second * 2 ^ 8 + third * 2 ^ 16 + fourth * 2 ^ 24)

/-- `&&`: the second condition is evaluated where the first one holds. -/
def both? (x y : Option Bool) : Option Bool :=
  x.bind fun holds => if holds then y else some false

/-- `with_data`, checked. -/
def withData? (op : Bytes) (fixed i : Nat) : Option Bool :=
  both? (some (decide (fixed ≤ op.length)))
    ((u16? op i).map fun length => op.length == fixed + length)

/-- `booleans`, checked: the range of the iterators lies in the operation. -/
def booleans? (op : Bytes) (first last : Nat) : Option Bool :=
  if last < op.length then some (booleans op first last) else none

/-- `identifier_fits`, checked. -/
def identifierFits? (op : Bytes) : Option Bool := do
  let id ← u32? op 8
  let ide ← byteAt? op 12
  some (decide (id ≤ if ide = 1 then maxExtendedIdentifier else maxClassicalIdentifier))

/-- The layout of the Transmit operations, checked: the data length is at `i`
and the booleans end at `last`. -/
def transmits? (op : Bytes) (fixed i : Nat) (allowed : Nat → Bool) (last : Nat) : Option Bool :=
  both? (both? (both? (withData? op fixed i) ((u16? op i).map allowed))
    (booleans? op 12 last)) (identifierFits? op)

/-- `well_formed`, checked. -/
def wellFormed? (op : Bytes) : Option Bool := do
  let code ← u32? op 0
  if code = transmitCode then transmits? op 16 14 (fun length => decide (length ≤ 8)) 13
  else if code = fdTransmitCode then transmits? op 17 15 fdDataLength 14
  else if code = xlTransmitCode then
    transmits? op 22 20 (fun length => decide (1 ≤ length)) 13
  else if code = formatErrorCode then withData? op 10 8
  else if code = confirmCode ∨ code = arbitrationLostCode then some (op.length == 12)
  else if code = busErrorCode then some (op.length == 15)
  else if code = statusCode then some (op.length == 9)
  else if code = wakeupCode then some (op.length == 8)
  else if code = configurationCode then
    if op.length < 9 then some false
    else do
      let kind ← byteAt? op 8
      if kind = bitrateKind ∨ kind = fdBitrateKind ∨ kind = xlBitrateKind then
        some (op.length == 13)
      else if kind = arbitrationLostBehaviorKind then
        both? (some (op.length == 10)) ((byteAt? op 9).map fun behavior =>
          behavior == bufferAndRetransmit || behavior == discardAndNotify)
      else some false
  else some false

section Reads

variable {b op : Bytes} {i : Nat}

theorem byteAt?_of_lt (h : i < b.length) : byteAt? b i = some (byteAt b i) := by
  simp [byteAt?, byteAt, h]

theorem u16?_of_lt (h : i + 1 < b.length) : u16? b i = some (u16 b i) := by
  rw [u16?, byteAt?_of_lt (show i < b.length by omega), byteAt?_of_lt h]
  rfl

theorem u32?_of_lt (h : i + 3 < b.length) : u32? b i = some (u32 b i) := by
  rw [u32?, byteAt?_of_lt (show i < b.length by omega),
    byteAt?_of_lt (show i + 1 < b.length by omega),
    byteAt?_of_lt (show i + 2 < b.length by omega), byteAt?_of_lt h]
  rfl

theorem both?_eq {x y : Option Bool} {p q : Bool} (hx : x = some p) (hy : p = true → y = some q) :
    both? x y = some (p && q) := by
  subst hx
  cases p with
  | false => rfl
  | true => exact hy rfl

/-- The length of the data is read behind a fixed part that holds it. -/
theorem withData?_eq {fixed : Nat} (hi : i + 1 < fixed) :
    withData? op fixed i = some (withData op fixed i) := by
  refine both?_eq rfl fun hfixed => ?_
  rw [u16?_of_lt (by have := of_decide_eq_true hfixed; omega)]
  rfl

theorem identifierFits?_eq (h : 12 < op.length) :
    identifierFits? op = some (identifierFits op) := by
  rw [identifierFits?, u32?_of_lt (by omega), byteAt?_of_lt h]
  rfl

theorem transmits?_eq {fixed last : Nat} {allowed : Nat → Bool} (hi : i + 1 < fixed)
    (hlast : last < fixed) (hide : 12 < fixed) :
    transmits? op fixed i allowed last =
      some (withData op fixed i && allowed (u16 op i) && booleans op 12 last &&
        identifierFits op) := by
  -- Each condition is reached only after the fixed part is known to be there.
  have hfixed : withData op fixed i = true → fixed ≤ op.length := fun h =>
    of_decide_eq_true (Bool.and_eq_true _ _ ▸ h).1
  refine both?_eq (both?_eq (both?_eq (withData?_eq hi) fun h => ?_) fun h => ?_) fun h => ?_
  · rw [u16?_of_lt (by have := hfixed h; omega)]
    rfl
  · rw [Bool.and_eq_true] at h
    rw [booleans?, if_pos (by have := hfixed h.1; omega)]
  · rw [Bool.and_eq_true, Bool.and_eq_true] at h
    exact identifierFits?_eq (by have := hfixed h.1.1; omega)

/-- A case distinction is computed where its cases are. -/
theorem ite_eq_some {α : Type} {c : Prop} [Decidable c] {x y : Option α} {v w : α}
    (hx : c → x = some v) (hy : ¬ c → y = some w) :
    (if c then x else y) = some (if c then v else w) := by
  by_cases h : c
  · rw [if_pos h, if_pos h, hx h]
  · rw [if_neg h, if_neg h, hy h]

/-- `well_formed` reads inside of an operation of at least eight bytes. -/
theorem wellFormed?_eq (h : 8 ≤ op.length) : wellFormed? op = some (wellFormed op) := by
  rw [wellFormed?, u32?_of_lt (by omega), Option.bind_eq_bind, Option.bind_some]
  refine ite_eq_some (fun _ => transmits?_eq (by omega) (by omega) (by omega)) fun _ => ?_
  refine ite_eq_some (fun _ => transmits?_eq (by omega) (by omega) (by omega)) fun _ => ?_
  refine ite_eq_some (fun _ => transmits?_eq (by omega) (by omega) (by omega)) fun _ => ?_
  refine ite_eq_some (fun _ => withData?_eq (by omega)) fun _ => ?_
  refine ite_eq_some (fun _ => rfl) fun _ => ?_
  refine ite_eq_some (fun _ => rfl) fun _ => ?_
  refine ite_eq_some (fun _ => rfl) fun _ => ?_
  refine ite_eq_some (fun _ => rfl) fun _ => ?_
  refine ite_eq_some (fun _ => ite_eq_some (fun _ => rfl) fun hkind => ?_) fun _ => rfl
  -- A Configuration of at least nine bytes has its kind at byte 8.
  rw [byteAt?_of_lt (show 8 < op.length by omega), Option.bind_some]
  refine ite_eq_some (fun _ => rfl) fun _ => ite_eq_some (fun _ => ?_) fun _ => rfl
  refine both?_eq rfl fun hlength => ?_
  rw [beq_iff_eq] at hlength
  rw [byteAt?_of_lt (by omega)]
  rfl

end Reads

namespace Bus

/-! ## The checked loop -/

/-- `apply`, checked. -/
def applyChecked (terminal : Terminal) (op : Bytes) (now : Int) (s : Bus × Requests) :
    Option (Except String (Bus × Requests)) := do
  let (b, requests) := s
  let code ← u32? op 0
  if ← both? (some (decide (code = configurationCode)))
      ((byteAt? op 8).map fun kind => decide (kind = bitrateKind)) then do
    let rate ← u32? op 9
    some do
      require (supportedBitrate rate = true)
        "unsupported bitrate: need 10000..1000000 bit/s dividing 1e9"
      require (b.bitrate = none ∨ b.bitrate = some rate) "inconsistent node bitrates"
      .ok ({ b with bitrate := some rate }.modify terminal
        fun node => { node with configured := true }, requests)
  else if ← both? (some (decide (code = configurationCode)))
      ((byteAt? op 8).map fun kind => decide (kind = arbitrationLostBehaviorKind)) then do
    let behavior ← byteAt? op 9
    some (.ok (b.modify terminal fun node =>
      { node with discardsOnLoss := behavior == discardAndNotify }, requests))
  else if ← both? (both? (some (decide (code = transmitCode)))
      ((byteAt? op 12).map fun ide => decide (ide = 0)))
      ((byteAt? op 13).map fun rtr => decide (rtr = 0)) then do
    let id ← u32? op 8
    some do
      let out ← countOccurrence terminal id b.rules 0
      .ok ({ b with rules := out.1 }, requests ++ [(terminal, ⟨op, id, now, out.2, 1⟩)])
  else if code = transmitCode then
    some (.error "only 11-bit Classical CAN data frames are supported")
  else some (.error "unsupported CAN operation")

/-- The report of `accept` on bytes that it does not apply. -/
def reject (terminal : Terminal) (now : Int) (s : Bus × Requests) (op : Bytes) :
    Except String (Bus × Requests) :=
  reportFormatError terminal op now s.1 >>= fun b => .ok (b, s.2)

/-- One operation of a sound length in `accept`. -/
def acceptOperation (terminal : Terminal) (now : Int) (s : Bus × Requests) (op : Bytes) :
    Except String (Bus × Requests) :=
  if wellFormed op = true then apply terminal op now s else reject terminal now s op

/-- The same, checked. -/
def acceptOperationChecked (terminal : Terminal) (now : Int) (s : Bus × Requests) (op : Bytes) :
    Option (Except String (Bus × Requests)) :=
  (wellFormed? op).bind fun sound =>
    if sound = true then applyChecked terminal op now s else some (reject terminal now s op)

/-- The length that the next operation declares, checked. -/
def declaredLength? (operations : Bytes) : Option Nat :=
  if 8 ≤ operations.length then u32? operations 4 else some 0

/-- `accept`, checked, with a bound on the iterations of its loop. -/
def acceptChecked (terminal : Terminal) (now : Int) :
    Nat → Bytes → Bus × Requests → Option (Except String (Bus × Requests))
  | 0, _, _ => none
  | _ + 1, [], s => some (.ok s)
  | fuel + 1, operations, s => do
      let length ← declaredLength? operations
      if length < 8 ∨ operations.length < length then
        some (reject terminal now s operations)
      else do
        let next ← acceptOperationChecked terminal now s (operations.take length)
        match next with
        | .error message => some (.error message)
        | .ok s' => acceptChecked terminal now fuel (operations.drop length) s'

end Bus

/-! ## Reads inside of the operation -/

/-- What a well-formed Configuration operation looks like. -/
theorem wellFormed_configuration {op : Bytes} (h : wellFormed op = true)
    (hcode : u32 op 0 = configurationCode) :
    9 ≤ op.length ∧ (byteAt op 8 = bitrateKind → op.length = 13) ∧
      (byteAt op 8 = arbitrationLostBehaviorKind → op.length = 10) := by
  have hlayout : (if op.length < 9 then false
      else if byteAt op 8 = bitrateKind ∨ byteAt op 8 = fdBitrateKind ∨
          byteAt op 8 = xlBitrateKind then op.length == 13
      else if byteAt op 8 = arbitrationLostBehaviorKind then
        op.length == 10 && (byteAt op 9 == bufferAndRetransmit || byteAt op 9 == discardAndNotify)
      else false) = true := by
    rw [wellFormed, hcode] at h
    exact h
  split at hlayout
  · cases hlayout
  refine ⟨by omega, fun hkind => ?_, fun hkind => ?_⟩
  · rw [if_pos (.inl hkind)] at hlayout
    exact beq_iff_eq.mp hlayout
  · rw [if_neg (by rw [hkind]; decide), if_pos hkind, Bool.and_eq_true] at hlayout
    exact beq_iff_eq.mp hlayout.1

theorem both?_decide {x y : Option Bool} {p q : Prop} [Decidable p] [Decidable q]
    (hx : x = some (decide p)) (hy : p → y = some (decide q)) :
    both? x y = some (decide (p ∧ q)) := by
  rw [both?_eq hx fun hp => hy (of_decide_eq_true hp), Bool.decide_and]

theorem bind_ite_eq_some {α : Type} {c : Prop} [Decidable c] {holds : Option Bool} {x y : Option α}
    {v w : α} (hholds : holds = some (decide c)) (hx : c → x = some v) (hy : ¬ c → y = some w) :
    (holds >>= fun p => if p = true then x else y) = some (if c then v else w) := by
  subst hholds
  rw [Option.bind_eq_bind, Option.bind_some]
  by_cases h : c
  · rw [if_pos (decide_eq_true h), if_pos h, hx h]
  · rw [if_neg (by simpa using h), if_neg h, hy h]

namespace Bus

variable {terminal : Terminal} {op operations : Bytes} {now : Int} {s : Bus × Requests}

/-- `apply` reads inside of a well-formed operation. -/
theorem applyChecked_eq (hlength : 8 ≤ op.length) (h : wellFormed op = true) :
    applyChecked terminal op now s = some (apply terminal op now s) := by
  rw [applyChecked, u32?_of_lt (by omega), Option.bind_eq_bind, Option.bind_some]
  have hkind : u32 op 0 = configurationCode → byteAt? op 8 = some (byteAt op 8) := fun hcode =>
    byteAt?_of_lt (by have := (wellFormed_configuration h hcode).1; omega)
  have htransmit : u32 op 0 = transmitCode → 16 ≤ op.length := fun hcode => by
    have := (wellFormed_transmit h hcode).1
    omega
  refine bind_ite_eq_some (both?_decide rfl fun hcode => by rw [hkind hcode]; rfl)
    (fun hbitrate => ?_) fun _ => ?_
  · have hsize := (wellFormed_configuration h hbitrate.1).2.1 hbitrate.2
    rw [u32?_of_lt (by omega)]
    rfl
  refine bind_ite_eq_some (both?_decide rfl fun hcode => by rw [hkind hcode]; rfl)
    (fun hbehavior => ?_) fun _ => ?_
  · have hsize := (wellFormed_configuration h hbehavior.1).2.2 hbehavior.2
    rw [byteAt?_of_lt (by omega)]
    rfl
  have hdata : both? (both? (some (decide (u32 op 0 = transmitCode)))
      ((byteAt? op 12).map fun ide => decide (ide = 0)))
      ((byteAt? op 13).map fun rtr => decide (rtr = 0)) =
        some (decide ((u32 op 0 = transmitCode ∧ byteAt op 12 = 0) ∧ byteAt op 13 = 0)) := by
    refine both?_decide (both?_decide rfl fun hcode => ?_) fun hcode => ?_
    · rw [byteAt?_of_lt (by omega)]
      rfl
    · rw [byteAt?_of_lt (by omega)]
      rfl
  simp only [and_assoc] at hdata
  refine bind_ite_eq_some hdata (fun hframe => ?_) fun _ => ite_eq_some (fun _ => rfl) fun _ => rfl
  rw [u32?_of_lt (by omega)]
  rfl

end Bus

/-! ## Cutting a buffer -/

/-- An operation of the length that it declares. -/
structure DeclaresLength (op : Bytes) : Prop where
  header_le : 8 ≤ op.length
  length_eq : u32 op 4 = op.length

/-- Bytes that do not begin with an operation. -/
def Unsplittable (tail : Bytes) : Prop :=
  tail ≠ [] ∧ (tail.length < 8 ∨ u32 tail 4 < 8 ∨ tail.length < u32 tail 4)

/-- A buffer is consecutive operations, and perhaps a tail that cannot be cut. -/
structure Split (buffer : Bytes) (ops : List Bytes) (tail : Option Bytes) : Prop where
  buffer_eq : buffer = ops.flatten ++ tail.getD []
  declares : ∀ op ∈ ops, DeclaresLength op
  unsplittable : ∀ bytes ∈ tail, Unsplittable bytes

/-- The first operation of a cut buffer, and what follows it. -/
theorem Split.cons {buffer op : Bytes} {ops : List Bytes} {tail : Option Bytes}
    (h : Split buffer (op :: ops) tail) :
    DeclaresLength op ∧ ∃ rest, buffer = op ++ rest ∧ Split rest ops tail := by
  refine ⟨h.declares op (by simp), ops.flatten ++ tail.getD [], ?_, rfl,
    fun x hx => h.declares x (mem_cons_of_mem _ hx), h.unsplittable⟩
  rw [h.buffer_eq, flatten_cons, append_assoc]

theorem byteAt_append {op rest : Bytes} {i : Nat} (h : i < op.length) :
    byteAt (op ++ rest) i = byteAt op i := by
  simp [byteAt, getElem?_append_left h]

theorem u32_append {op rest : Bytes} {i : Nat} (h : i + 3 < op.length) :
    u32 (op ++ rest) i = u32 op i := by
  simp only [u32]
  rw [byteAt_append (by omega), byteAt_append (by omega), byteAt_append (by omega), byteAt_append h]

/-- Either nothing can be cut off a buffer, or it begins with an operation. -/
theorem unsplittable_or_declares {operations : Bytes} (h : operations ≠ []) :
    Unsplittable operations ∨ ∃ op rest, operations = op ++ rest ∧ DeclaresLength op := by
  by_cases hcut : 8 ≤ operations.length ∧ 8 ≤ u32 operations 4 ∧
      u32 operations 4 ≤ operations.length
  · have hlength : (operations.take (u32 operations 4)).length = u32 operations 4 := by
      rw [length_take]
      omega
    refine .inr ⟨operations.take (u32 operations 4), operations.drop (u32 operations 4),
      (take_append_drop _ _).symm, ⟨by omega, ?_⟩⟩
    rw [hlength]
    calc u32 (operations.take (u32 operations 4)) 4
        = u32 (operations.take (u32 operations 4) ++
            operations.drop (u32 operations 4)) 4 := (u32_append (by omega)).symm
      _ = u32 operations 4 := by rw [take_append_drop]
  · exact .inl ⟨h, by omega⟩

theorem exists_split (buffer : Bytes) : ∃ ops tail, Split buffer ops tail := by
  -- What is left after an operation is shorter.
  induction hsize : buffer.length using Nat.strong_induction_on generalizing buffer with
  | _ size ih =>
    by_cases hempty : buffer = []
    · exact ⟨[], none, by simpa using hempty, by simp, by simp⟩
    rcases unsplittable_or_declares hempty with htail | ⟨op, rest, rfl, hop⟩
    · exact ⟨[], some buffer, by simp, by simp, by simpa using htail⟩
    · have hlt : rest.length < size := by
        have := hop.header_le
        rw [← hsize, length_append]
        omega
      obtain ⟨ops, tail, hsplit⟩ := ih rest.length hlt rest rfl
      refine ⟨op :: ops, tail, ?_, ?_, hsplit.unsplittable⟩
      · rw [flatten_cons, append_assoc, ← hsplit.buffer_eq]
      · exact forall_mem_cons.mpr ⟨hop, hsplit.declares⟩

namespace Bus

theorem splitOperations_unsplittable {tail : Bytes} (h : Unsplittable tail) (fuel : Nat) :
    splitOperations (fuel + 1) tail = [(tail, false)] := by
  obtain ⟨hne, hlength⟩ := h
  cases tail with
  | nil => exact absurd rfl hne
  | cons first rest =>
    rw [splitOperations, if_pos]
    · split <;> omega
    · exact hne

theorem splitOperations_append {op : Bytes} (h : DeclaresLength op) (rest : Bytes) (fuel : Nat) :
    splitOperations (fuel + 1) (op ++ rest) = (op, true) :: splitOperations fuel rest := by
  obtain ⟨hheader, hlength⟩ := h
  cases op with
  | nil => exact absurd hheader (by simp)
  | cons first others =>
    have hdeclared : u32 (first :: others ++ rest) 4 = (first :: others).length := by
      rw [u32_append (by omega), hlength]
    have hsize : 8 ≤ (first :: others ++ rest).length := by
      rw [length_append]
      omega
    rw [cons_append, splitOperations, ← cons_append, if_pos hsize, hdeclared,
      if_neg, take_left, drop_left]
    · rw [length_append]
      omega
    · exact cons_ne_nil _ _

/-- The loop cuts a buffer in its one way, with any fuel that is enough. -/
theorem splitOperations_of_split {buffer : Bytes} {ops : List Bytes} {tail : Option Bytes}
    (h : Split buffer ops tail) {fuel : Nat} (hfuel : buffer.length ≤ fuel) :
    splitOperations fuel buffer = ops.map (·, true) ++ tail.toList.map (·, false) := by
  induction ops generalizing buffer fuel with
  | nil =>
    have hbuffer := h.buffer_eq
    cases tail with
    | none =>
      rw [hbuffer]
      cases fuel <;> rfl
    | some bytes =>
      have hbytes := h.unsplittable bytes rfl
      rw [hbuffer] at hfuel ⊢
      have hpos := length_pos_iff.mpr hbytes.1
      obtain ⟨fuel, rfl⟩ : ∃ k, fuel = k + 1 :=
        Nat.exists_eq_succ_of_ne_zero (by simp at hfuel; omega)
      exact splitOperations_unsplittable hbytes fuel
  | cons op ops ih =>
    obtain ⟨hop, rest, rfl, hrest⟩ := h.cons
    have hheader := hop.header_le
    rw [length_append] at hfuel
    obtain ⟨fuel, rfl⟩ : ∃ k, fuel = k + 1 := Nat.exists_eq_succ_of_ne_zero (by omega)
    rw [splitOperations_append hop, ih hrest (by omega)]
    rfl

theorem handle_sound (terminal : Terminal) (now : Int) (s : Bus × Requests) (op : Bytes) :
    handle terminal now s (op, true) = acceptOperation terminal now s op := by
  rw [handle, acceptOperation, Bool.true_and]
  rfl

theorem handle_tail (terminal : Terminal) (now : Int) (s : Bus × Requests) (op : Bytes) :
    handle terminal now s (op, false) = reject terminal now s op := by
  rw [handle, Bool.false_and]
  rfl

/-- `accept` handles the operations of a buffer in order, and then its tail. -/
theorem accept_of_split {terminal : Terminal} {buffer : Bytes} {now : Int} {s : Bus × Requests}
    {ops : List Bytes} {tail : Option Bytes} (h : Split buffer ops tail) :
    accept terminal buffer now s =
      ops.foldlM (acceptOperation terminal now) s >>= fun s' =>
        tail.toList.foldlM (reject terminal now) s' := by
  rw [accept, splitOperations_of_split h le_rfl, foldlM_append]
  simp only [foldlM_map, handle_sound, handle_tail]

/-! ## The checked loop agrees -/

variable {terminal : Terminal} {now : Int} {s : Bus × Requests}

theorem declaredLength?_eq (operations : Bytes) : declaredLength? operations =
      some (if 8 ≤ operations.length then u32 operations 4 else 0) :=
  ite_eq_some (fun _ => u32?_of_lt (by omega)) fun _ => rfl

theorem acceptOperationChecked_eq {op : Bytes} (h : 8 ≤ op.length) :
    acceptOperationChecked terminal now s op = some (acceptOperation terminal now s op) := by
  rw [acceptOperationChecked, wellFormed?_eq h, Option.bind_some]
  exact ite_eq_some (applyChecked_eq h) fun _ => rfl

theorem acceptChecked_unsplittable {tail : Bytes} (h : Unsplittable tail) (fuel : Nat) :
    acceptChecked terminal now (fuel + 1) tail s = some (reject terminal now s tail) := by
  obtain ⟨hne, hlength⟩ := h
  cases tail with
  | nil => exact absurd rfl hne
  | cons first rest =>
    rw [acceptChecked, declaredLength?_eq, Option.bind_eq_bind, Option.bind_some, if_pos]
    · split <;> omega
    · exact hne

/-- One iteration of the checked loop. -/
theorem acceptChecked_append {op : Bytes} (h : DeclaresLength op) (rest : Bytes) (fuel : Nat) :
    acceptChecked terminal now (fuel + 1) (op ++ rest) s =
      match acceptOperation terminal now s op with
      | .error message => some (.error message)
      | .ok s' => acceptChecked terminal now fuel rest s' := by
  have hheader := h.header_le
  have hread : declaredLength? (op ++ rest) = some op.length := by
    rw [declaredLength?_eq, if_pos (by rw [length_append]; omega),
      u32_append (by omega), h.length_eq]
  cases op with
  | nil => exact absurd hheader (by simp)
  | cons first others =>
    rw [cons_append, acceptChecked, ← cons_append, hread, Option.bind_eq_bind,
      Option.bind_some, if_neg (by rw [length_append]; omega), take_left,
      drop_left, acceptOperationChecked_eq hheader, Option.bind_eq_bind, Option.bind_some]
    exact cons_ne_nil _ _

/-- No read of `accept` leaves its operation, and its loop ends. -/
theorem acceptChecked_eq {buffer : Bytes} {fuel : Nat} (hfuel : buffer.length < fuel) :
    acceptChecked terminal now fuel buffer s = some (accept terminal buffer now s) := by
  obtain ⟨ops, tail, hsplit⟩ := exists_split buffer
  rw [accept_of_split hsplit]
  induction ops generalizing buffer fuel s with
  | nil =>
    obtain ⟨fuel, rfl⟩ : ∃ k, fuel = k + 1 := Nat.exists_eq_succ_of_ne_zero (by omega)
    have hbuffer := hsplit.buffer_eq
    cases tail with
    | none =>
      rw [hbuffer]
      rfl
    | some bytes =>
      rw [hbuffer]
      show acceptChecked terminal now (fuel + 1) bytes s = _
      rw [acceptChecked_unsplittable (hsplit.unsplittable bytes rfl)]
      cases hreject : reject terminal now s bytes with
      | error message => simp [hreject, bind, Except.bind, pure, Except.pure]
      | ok s' => simp [hreject, bind, Except.bind, pure, Except.pure]
  | cons op ops ih =>
    obtain ⟨hop, rest, rfl, hrest⟩ := hsplit.cons
    have hheader := hop.header_le
    rw [length_append] at hfuel
    obtain ⟨fuel, rfl⟩ : ∃ k, fuel = k + 1 := Nat.exists_eq_succ_of_ne_zero (by omega)
    rw [acceptChecked_append hop, foldlM_cons]
    cases hnext : acceptOperation terminal now s op with
    | error message => rfl
    | ok s' => exact ih (by omega) hrest

end Bus

/-! ## The reports -/

/-- The Format Error operation on bytes. -/
def formatErrorReport (op : Bytes) : Bytes :=
  formatErrorHeader op ++ op

/-- The data of a Format Error operation. -/
def formatErrorData (report : Bytes) : Bytes :=
  report.drop 10

theorem formatErrorData_report (op : Bytes) : formatErrorData (formatErrorReport op) = op := rfl

/-- Two bytes hold every length that a report can have. -/
theorem byte_pair {n : Nat} (h : n < 2 ^ 16) :
    (byte n).toNat + (byte (n >>> 8)).toNat * 2 ^ 8 = n := by
  simp only [byte, UInt8.toNat_ofNat']
  omega

theorem u16_report {op : Bytes} (h : op.length < 2 ^ 16) :
    u16 (formatErrorReport op) 8 = op.length :=
  byte_pair h

theorem report_declares {op : Bytes} (h : 10 + op.length < 2 ^ 16) :
    DeclaresLength (formatErrorReport op) where
  header_le := by
    rw [formatErrorReport, length_append, formatErrorHeader_length]
    omega
  length_eq := by
    have hread : u32 (formatErrorReport op) 4 = (byte (10 + op.length)).toNat +
        (byte ((10 + op.length) >>> 8)).toNat * 2 ^ 8 + 0 * 2 ^ 16 + 0 * 2 ^ 24 := rfl
    rw [hread, byte_pair h, formatErrorReport, length_append, formatErrorHeader_length]
    omega

theorem report_wellFormed {op : Bytes} (h : 10 + op.length < 2 ^ 16) :
    u32 (formatErrorReport op) 0 = formatErrorCode ∧ wellFormed (formatErrorReport op) = true := by
  have hcode : u32 (formatErrorReport op) 0 = formatErrorCode := by
    have hread : u32 (formatErrorReport op) 0 =
        (byte formatErrorCode).toNat + 0 * 2 ^ 8 + 0 * 2 ^ 16 + 0 * 2 ^ 24 := rfl
    rw [hread]
    decide
  refine ⟨hcode, ?_⟩
  have hlayout : wellFormed (formatErrorReport op) = withData (formatErrorReport op) 10 8 := by
    rw [wellFormed, hcode]
    rfl
  rw [hlayout, withData, u16_report (by omega), formatErrorReport, length_append]
  simp

namespace Bus

/-- From one state to another bytes are reported at a terminal, and nothing
else is. -/
structure Reports (terminal : Terminal) (corrupt : List Bytes) (b b' : Bus) : Prop where
  bufferCapacity_eq : b'.bufferCapacity = b.bufferCapacity
  formatError_eq : (b'.nodes terminal).formatError =
    (b.nodes terminal).formatError ++ (corrupt.map formatErrorReport).flatten
  others : ∀ n, n ≠ terminal → (b'.nodes n).formatError = (b.nodes n).formatError
  length_le : ∀ op ∈ corrupt, 10 + op.length ≤ b.bufferCapacity

namespace Reports

variable {terminal : Terminal} {corrupt more : List Bytes} {b b₁ b₂ : Bus}

theorem refl (terminal : Terminal) (b : Bus) : Reports terminal [] b b :=
  ⟨rfl, by simp, fun _ _ => rfl, by simp⟩

theorem trans (h₁ : Reports terminal corrupt b b₁) (h₂ : Reports terminal more b₁ b₂) :
    Reports terminal (corrupt ++ more) b b₂ where
  bufferCapacity_eq := h₂.bufferCapacity_eq.trans h₁.bufferCapacity_eq
  formatError_eq := by
    rw [h₂.formatError_eq, h₁.formatError_eq, map_append, flatten_append, append_assoc]
  others := fun n hn => (h₂.others n hn).trans (h₁.others n hn)
  length_le := fun op hop => by
    rcases mem_append.mp hop with hop | hop
    · exact h₁.length_le op hop
    · rw [← h₁.bufferCapacity_eq]
      exact h₂.length_le op hop

end Reports

variable {terminal : Terminal} {now : Int} {s s' : Bus × Requests}

/-- An operation reports what it is read as. -/
theorem handled_reports {op : Operation} (h : Handled terminal now s.1 s.2 op s') :
    Reports terminal op.report.toList s.1 s'.1 := by
  cases h with
  | bitrate rate _ _ =>
    refine ⟨rfl, ?_, fun n hn => ?_, by simp [Operation.report]⟩
    · simp [modify_nodes, Operation.report]
    · rw [modify_nodes, if_neg hn]
  | behavior discards =>
    refine ⟨rfl, ?_, fun n hn => ?_, by simp [Operation.report]⟩
    · simp [modify_nodes, Operation.report]
    · rw [modify_nodes, if_neg hn]
  | transmit bytes _ =>
    exact ⟨rfl, by simp [Operation.report], fun _ _ => rfl, by simp [Operation.report]⟩
  | corrupt bytes _ _ hfits =>
    refine ⟨rfl, ?_, fun n hn => ?_, ?_⟩
    · simp [reported, modify_nodes, formatErrorReport, Operation.report]
    · simp only [reported, modify_nodes, if_neg hn]
    · rintro _ (_ | ⟨_, ⟨⟩⟩)
      omega

theorem decode_report (op : Bytes × Bool) :
    (Operation.decode op).report = if op.2 && wellFormed op.1 then none else some op.1 := by
  rw [Operation.decode]
  by_cases hsound : (op.2 && wellFormed op.1) = true
  · rw [if_pos hsound]
    split
    · rfl
    split
    · rfl
    split
    · rfl
    split
    · rfl
    · rfl
  · rw [if_neg hsound, if_neg hsound]
    rfl

theorem acceptOperation_reports {op : Bytes} (h : acceptOperation terminal now s op = .ok s') :
    Reports terminal (if wellFormed op = true then [] else [op]) s.1 s'.1 := by
  rw [← handle_sound] at h
  have hreports := handled_reports (handle_eq_ok_iff.mp h)
  rw [decode_report, Bool.true_and, apply_ite Option.toList] at hreports
  exact hreports

theorem reject_reports {op : Bytes} (h : reject terminal now s op = .ok s') :
    Reports terminal [op] s.1 s'.1 := by
  rw [← handle_tail] at h
  have hreports := handled_reports (handle_eq_ok_iff.mp h)
  rw [decode_report, Bool.false_and] at hreports
  exact hreports

/-- A loop whose iterations report reports what they do, in order. -/
theorem foldlM_reports {f : Bus × Requests → Bytes → Except String (Bus × Requests)}
    {corrupt : Bytes → List Bytes}
    (hstep : ∀ s s' op, f s op = .ok s' → Reports terminal (corrupt op) s.1 s'.1) {ops : List Bytes}
    (h : ops.foldlM f s = .ok s') : Reports terminal (ops.flatMap corrupt) s.1 s'.1 := by
  induction ops generalizing s with
  | nil =>
    cases h
    exact Reports.refl terminal _
  | cons op ops ih =>
    rw [foldlM_cons, bind_eq_ok] at h
    obtain ⟨s₁, hop, hrest⟩ := h
    exact (hstep s s₁ op hop).trans (ih hrest)

/-- The bytes of a cut buffer that are corrupt: the operations that are not
well formed, and the tail. -/
def corruptBytes (ops : List Bytes) (tail : Option Bytes) : List Bytes :=
  (ops.filter fun op => !wellFormed op) ++ tail.toList

theorem flatMap_corrupt (ops : List Bytes) :
    (ops.flatMap fun op => if wellFormed op = true then [] else [op]) =
      ops.filter fun op => !wellFormed op := by
  induction ops with
  | nil => rfl
  | cons op ops ih =>
    rw [flatMap_cons, filter_cons, ih]
    cases wellFormed op with
    | true => simp
    | false => simp

theorem accept_reports {buffer : Bytes} {ops : List Bytes} {tail : Option Bytes}
    (hsplit : Split buffer ops tail) (h : accept terminal buffer now s = .ok s') :
    Reports terminal (corruptBytes ops tail) s.1 s'.1 := by
  rw [accept_of_split hsplit, bind_eq_ok] at h
  obtain ⟨s₁, hops, htail⟩ := h
  have hfirst := foldlM_reports
    (fun _ _ _ h => acceptOperation_reports h) hops
  have hsecond := foldlM_reports
    (fun _ _ _ h => reject_reports h) htail
  rw [flatMap_corrupt] at hfirst
  rw [flatMap_singleton'] at hsecond
  exact hfirst.trans hsecond

/-- Reading a report gives the bytes that are reported. -/
theorem splitOperations_reports {corrupt : List Bytes} (h : ∀ op ∈ corrupt, 10 + op.length < 2 ^ 16)
    {fuel : Nat} (hfuel : (corrupt.map formatErrorReport).flatten.length ≤ fuel) :
    splitOperations fuel (corrupt.map formatErrorReport).flatten =
      corrupt.map fun op => (formatErrorReport op, true) := by
  have hsplit : Split (corrupt.map formatErrorReport).flatten
      (corrupt.map formatErrorReport) none := by
    refine ⟨by simp, fun report hreport => ?_, by simp⟩
    obtain ⟨op, hop, rfl⟩ := mem_map.mp hreport
    exact report_declares (h op hop)
  rw [splitOperations_of_split hsplit hfuel]
  simp

/-- `accept` is total and loses nothing.  Every read lies in its operation and
the loop ends, whatever the buffer.  The buffer is operations of the lengths
that they declare and perhaps a tail that cannot be cut; an operation is applied
if it is well formed and otherwise reported, as the tail is.  Where nothing
throws, the reports are well-formed Format Error operations, one for each of
the corrupt bytes in order, and cutting them gives these bytes back.  The
capacity of every bus is bounded as it is here, by `configure` and before it by
the initial value. -/
theorem accept_total_lossless (terminal : Terminal) (buffer : Bytes) (now : Int)
    (s : Bus × Requests) (hcapacity : s.1.bufferCapacity ≤ maxOperationBuffer) :
    (∀ fuel, buffer.length < fuel →
      acceptChecked terminal now fuel buffer s = some (accept terminal buffer now s)) ∧
    ∃ ops tail, Split buffer ops tail ∧ accept terminal buffer now s =
        (ops.foldlM (acceptOperation terminal now) s >>= fun s₁ =>
          tail.toList.foldlM (reject terminal now) s₁) ∧
      ∀ s', accept terminal buffer now s = .ok s' →
        (s'.1.nodes terminal).formatError = (s.1.nodes terminal).formatError ++
          ((corruptBytes ops tail).map formatErrorReport).flatten ∧
        (∀ n, n ≠ terminal → (s'.1.nodes n).formatError = (s.1.nodes n).formatError) ∧
        (∀ op ∈ corruptBytes ops tail, u32 (formatErrorReport op) 0 = formatErrorCode ∧
            wellFormed (formatErrorReport op) = true ∧
            formatErrorData (formatErrorReport op) = op) ∧
        ∀ fuel, ((corruptBytes ops tail).map formatErrorReport).flatten.length ≤ fuel →
          splitOperations fuel ((corruptBytes ops tail).map formatErrorReport).flatten =
            (corruptBytes ops tail).map fun op => (formatErrorReport op, true) := by
  refine ⟨fun fuel hfuel => acceptChecked_eq hfuel, ?_⟩
  obtain ⟨ops, tail, hsplit⟩ := exists_split buffer
  refine ⟨ops, tail, hsplit, accept_of_split hsplit, fun s' haccept => ?_⟩
  have hreports := accept_reports hsplit haccept
  have hlength : ∀ op ∈ corruptBytes ops tail, 10 + op.length < 2 ^ 16 := fun op hop => by
    have hle := hreports.length_le op hop
    rw [maxOperationBuffer] at hcapacity
    omega
  refine ⟨hreports.formatError_eq, hreports.others, fun op hop => ?_, fun fuel hfuel => ?_⟩
  · obtain ⟨hcode, hformed⟩ := report_wellFormed (hlength op hop)
    exact ⟨hcode, hformed, formatErrorData_report op⟩
  · exact splitOperations_reports hlength hfuel

/-- A request, an operation of an unknown code, and three bytes that are a tail. -/
def mixedBuffer : Bytes :=
  [0x10, 0, 0, 0, 16, 0, 0, 0, 1, 0, 0, 0, 0, 0, 0, 0, 0xff, 0, 0, 0, 9, 0, 0, 0, 7, 1, 2, 3]

/-- The request is applied, and the first terminal is told of the rest. -/
theorem accept_total_lossless_mixed : ({} : Bus).bufferCapacity ≤ maxOperationBuffer ∧
      acceptChecked 0 0 29 mixedBuffer ({}, []) = some (accept 0 mixedBuffer 0 ({}, [])) ∧
      ((accept 0 mixedBuffer 0 ({}, [])).map fun s =>
        (s.2.map fun request => (request.1, request.2.id), (s.1.nodes 0).formatError)) =
        .ok ([(0, 1)], [1, 0, 0, 0, 19, 0, 0, 0, 9, 0, 0xff, 0, 0, 0, 9, 0, 0, 0, 7,
          1, 0, 0, 0, 13, 0, 0, 0, 3, 0, 1, 2, 3]) :=
  ⟨le_rfl, (accept_total_lossless 0 mixedBuffer 0 ({}, []) le_rfl).1 29 (by decide),
    by decide +kernel⟩

end Bus

end SilFormal.Can
