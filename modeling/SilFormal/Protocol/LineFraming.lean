import SilFormal.Library.Lines

/-!
# Lines of a participant's output

The runner reads a participant's output in chunks of up to 4 KiB and hands it on
line by line (`ProcessParticipant::read_line`).  Every chunk is checked against
the limit of a line before it joins the buffer, in which lines wait that came
with an earlier one.  A chunk is only read while the buffer holds no newline, so
the buffer is then the beginning of the chunk's first line.
-/

namespace SilFormal.Protocol

open Lines List

variable {data line : List UInt8} {chunks : List (List UInt8)}

def newline : UInt8 :=
  10

/-- `over_limit_observed`: a sum that stays in a `size_t`. -/
def overLimitObserved (base added : Nat) : Nat :=
  if base > 2 ^ 64 - 1 - added then 2 ^ 64 - 1 else base + added

/-- The loop of `append_checked` over the lines of a chunk, with the size of what
the buffer holds of the first one.  `some` is the failure, with the observed
length. -/
def checkChunk (limit base : Nat) (data : List UInt8) : Option Nat :=
  match h : data.findIdx? (· == newline) with
  | none =>
    if base > limit ∨ data.length > limit - base then
      some (overLimitObserved base data.length)
    else
      none
  | some i =>
    if base > limit ∨ i > limit - base then
      some (overLimitObserved base i)
    else if i + 1 = data.length then
      none
    else
      checkChunk limit 0 (data.drop (i + 1))
termination_by data.length
decreasing_by
  have hlt := (List.findIdx?_eq_some_iff_getElem.mp h).1
  rw [List.length_drop]
  omega

/-- How a call of `read_line` ends, without a timeout or an interrupt. -/
inductive Reading
  | line (bytes : List UInt8)
  | lineLimit (observed : Nat)
  | unexpectedExit
  deriving DecidableEq, Repr

/-- The persistent buffer, and the chunks that `read` is going to return. -/
structure Reader where
  buffer : List UInt8
  chunks : List (List UInt8)
  deriving DecidableEq, Repr

/-- The first line of the buffer and what stays in it. -/
def takeLine (buffer : List UInt8) : Option (List UInt8 × List UInt8) :=
  (buffer.findIdx? (· == newline)).map fun nl => (buffer.take nl, buffer.drop (nl + 1))

/-- The loop of `read_line`.  An empty read is the end of the output. -/
def readLineFrom (limit : Nat) : List (List UInt8) → List UInt8 → Reading × Reader
  | chunks, buffer =>
    match takeLine buffer with
    | some (line, rest) => (.line line, ⟨rest, chunks⟩)
    | none =>
      match chunks with
      | [] => (.unexpectedExit, ⟨buffer, []⟩)
      | chunk :: more =>
        if chunk = [] then
          (.unexpectedExit, ⟨buffer, more⟩)
        else
          match checkChunk limit buffer.length chunk with
          | some observed => (.lineLimit observed, ⟨buffer, more⟩)
          | none => readLineFrom limit more (buffer ++ chunk)

def Reader.readLine (limit : Nat) (r : Reader) : Reading × Reader :=
  readLineFrom limit r.chunks r.buffer

/-- Calls of `read_line`, up to the first one that fails. -/
def Reader.readLines (limit : Nat) : Nat → Reader → List Reading × Reader
  | 0, r => ([], r)
  | n + 1, r =>
    match r.readLine limit with
    | (.line bytes, r) => ((.line bytes) :: (readLines limit n r).1, (readLines limit n r).2)
    | (failure, r) => ([failure], r)

/-! ## The check of a chunk -/

theorem findIdx?_newline_eq_none : data.findIdx? (· == newline) = none ↔ newline ∉ data := by
  rw [findIdx?_eq_none_iff]
  constructor
  · intro h hmem
    simpa using h newline hmem
  · intro h x hx
    exact beq_false_of_ne fun heq => h (heq ▸ hx)

/-- The first newline, with what is in front of it and behind it. -/
theorem findIdx?_newline_eq_some {i : Nat} (h : data.findIdx? (· == newline) = some i) :
    data = data.take i ++ newline :: data.drop (i + 1) ∧ newline ∉ data.take i ∧
      i < data.length := by
  obtain ⟨hlt, hat, hbefore⟩ := findIdx?_eq_some_iff_getElem.mp h
  refine ⟨?_, ?_, hlt⟩
  · rw [← (beq_iff_eq.mp hat), getElem_cons_drop, take_append_drop]
  · intro hmem
    obtain ⟨j, hj, heq⟩ := mem_iff_getElem.mp hmem
    rw [length_take] at hj
    rw [getElem_take] at heq
    exact hbefore j (by omega) (by rw [heq]; exact beq_self_eq_true newline)

/-- The check accepts a chunk exactly if no line and no tail grows too long. -/
theorem checkChunk_eq_none_iff {limit : Nat} {start : List UInt8} (h : newline ∉ start) :
    checkChunk limit start.length data = none ↔ Fit newline limit (start ++ data) := by
  induction hn : data.length using Nat.strongRecOn generalizing start data with
  | ind n ih =>
    rw [checkChunk]
    split
    · rename_i hnone
      have htail : newline ∉ start ++ data := fun hmem =>
        (mem_append.mp hmem).elim h (findIdx?_newline_eq_none.mp hnone)
      rw [Fit, split_of_notMem htail, length_append]
      simp only [not_mem_nil, false_imp_iff, implies_true, true_and]
      rw [ite_eq_right_iff]
      simp only [reduceCtorEq, imp_false]
      omega
    · rename_i i hsome
      obtain ⟨hdata, hline, hlt⟩ := findIdx?_newline_eq_some hsome
      have hfirst : newline ∉ start ++ data.take i := fun hmem => (mem_append.mp hmem).elim h hline
      have hlength : (start ++ data.take i).length = start.length + i := by
        rw [length_append, length_take, Nat.min_eq_left (Nat.le_of_lt hlt)]
      have hfit : Fit newline limit (start ++ data) ↔
          start.length + i ≤ limit ∧ Fit newline limit (data.drop (i + 1)) := by
        conv_lhs => rw [hdata, ← append_assoc]
        rw [Fit, split_append_sep hfirst]
        simp only [mem_cons, forall_eq_or_imp, hlength, and_assoc]
        rfl
      rw [hfit]
      by_cases hover : start.length > limit ∨ i > limit - start.length
      · rw [if_pos hover]
        simp only [reduceCtorEq, false_iff]
        omega
      · rw [if_neg hover]
        have hle : start.length + i ≤ limit := by omega
        simp only [hle, true_and]
        by_cases hlast : i + 1 = data.length
        · rw [hlast]
          simp [Fit, split]
        · rw [if_neg hlast]
          exact ih _ (by rw [length_drop]; omega) (not_mem_nil) rfl

/-! ## One call -/

theorem takeLine_eq_none {buffer : List UInt8} : takeLine buffer = none ↔ newline ∉ buffer := by
  rw [takeLine, Option.map_eq_none_iff, findIdx?_newline_eq_none]

theorem takeLine_eq_some {buffer rest : List UInt8} (h : takeLine buffer = some (line, rest)) :
    buffer = line ++ newline :: rest ∧ newline ∉ line := by
  obtain ⟨i, hi, heq⟩ := Option.map_eq_some_iff.mp h
  cases heq
  obtain ⟨hbuffer, hline, -⟩ := findIdx?_newline_eq_some hi
  exact ⟨hbuffer, hline⟩

/-- The buffer against the chunks received so far: the lines of the stream are
those returned and those that wait in the buffer, and nothing is too long. -/
structure Framed (limit : Nat) (received : List (List UInt8)) (lines : List (List UInt8))
    (buffer : List UInt8) : Prop where
  fit : Fit newline limit received.flatten
  lines_eq : (split newline received.flatten).1 = lines ++ (split newline buffer).1
  tail_eq : (split newline received.flatten).2 = (split newline buffer).2

namespace Framed

variable {limit : Nat} {received lines : List (List UInt8)} {buffer : List UInt8}

theorem initial (limit : Nat) : Framed limit [] [] [] :=
  ⟨by simp [Fit, split], rfl, rfl⟩

theorem tail_le (h : Framed limit received lines buffer) :
    (split newline buffer).2.length ≤ limit :=
  h.tail_eq ▸ h.fit.2

theorem take {line rest : List UInt8} (h : Framed limit received lines (line ++ newline :: rest))
    (hline : newline ∉ line) : Framed limit received (lines ++ [line]) rest := by
  have hsplit := split_append_sep hline rest
  refine ⟨h.fit, ?_, ?_⟩
  · rw [h.lines_eq, hsplit, append_assoc, singleton_append]
  · rw [h.tail_eq, hsplit]

/-- With no newline in the buffer every line has been returned, and the buffer is
the tail of the stream. -/
theorem of_notMem (h : Framed limit received lines buffer) (hbuffer : newline ∉ buffer) :
    (split newline received.flatten).1 = lines ∧ (split newline received.flatten).2 = buffer := by
  rw [h.lines_eq, h.tail_eq, split_of_notMem hbuffer]
  exact ⟨append_nil _, rfl⟩

/-- The check of a chunk is a check of the stream. -/
theorem checkChunk_iff (h : Framed limit received lines buffer) (hbuffer : newline ∉ buffer)
    (chunk : List UInt8) :
    checkChunk limit buffer.length chunk = none ↔
      Fit newline limit (received.flatten ++ chunk) := by
  have htail := (h.of_notMem hbuffer).2
  rw [checkChunk_eq_none_iff hbuffer, fit_append_iff (a := received.flatten), htail]
  exact (and_iff_right h.fit.1).symm

theorem append (h : Framed limit received lines buffer) (hbuffer : newline ∉ buffer)
    {chunk : List UInt8} (hcheck : checkChunk limit buffer.length chunk = none) :
    Framed limit (received ++ [chunk]) lines (buffer ++ chunk) := by
  obtain ⟨hlines, htail⟩ := h.of_notMem hbuffer
  have hflatten : (received ++ [chunk]).flatten = received.flatten ++ chunk := by simp
  refine ⟨?_, ?_, ?_⟩
  · rw [hflatten]
    exact (h.checkChunk_iff hbuffer chunk).mp hcheck
  · rw [hflatten, split_append, hlines, htail]
  · rw [hflatten, split_append, htail]

end Framed

/-- How a call ends, after the chunks `received` of the stream. -/
inductive Ended (limit : Nat) (lines : List (List UInt8)) :
    Reading → List (List UInt8) → List UInt8 → Prop
  | line {line : List UInt8} {received : List (List UInt8)} {buffer : List UInt8}
      (h : Framed limit received (lines ++ [line]) buffer) :
      Ended limit lines (.line line) received buffer
  | lineLimit {observed : Nat} {before : List (List UInt8)} {chunk buffer : List UInt8}
      (h : Framed limit before lines buffer) (hbuffer : newline ∉ buffer)
      (hover : ¬ Fit newline limit (before.flatten ++ chunk)) :
      Ended limit lines (.lineLimit observed) (before ++ [chunk]) buffer
  | unexpectedExit {received : List (List UInt8)} {buffer : List UInt8}
      (h : Framed limit received lines buffer) (hbuffer : newline ∉ buffer) :
      Ended limit lines .unexpectedExit received buffer

/-- What a call does: it reads some of the chunks, all of them if the output ends. -/
def Called (limit : Nat) (chunks received lines : List (List UInt8)) (result : Reading × Reader) :
    Prop :=
  ∃ read, chunks = read ++ result.2.chunks ∧
    Ended limit lines result.1 (received ++ read) result.2.buffer ∧
    (result.1 = .unexpectedExit → result.2.chunks = [])

/-- A line that waits in the buffer is returned without a read. -/
theorem called_of_takeLine {limit : Nat} {received lines : List (List UInt8)}
    {buffer rest : List UInt8} (h : Framed limit received lines buffer)
    (hline : takeLine buffer = some (line, rest)) :
    Called limit chunks received lines (readLineFrom limit chunks buffer) := by
  obtain ⟨rfl, hnewline⟩ := takeLine_eq_some hline
  have hcall : readLineFrom limit chunks (line ++ newline :: rest) =
      (.line line, ⟨rest, chunks⟩) := by
    cases chunks <;> simp [readLineFrom, hline]
  rw [hcall]
  refine ⟨[], rfl, ?_, by simp⟩
  rw [append_nil]
  exact .line (h.take hnewline)

theorem readLineFrom_called {limit : Nat} {received lines : List (List UInt8)} {buffer : List UInt8}
    (hchunks : ∀ chunk ∈ chunks, chunk ≠ []) (h : Framed limit received lines buffer) :
    Called limit chunks received lines (readLineFrom limit chunks buffer) := by
  induction chunks generalizing received buffer with
  | nil =>
    rcases hline : takeLine buffer with _ | ⟨line, rest⟩
    · rw [readLineFrom, hline]
      refine ⟨[], rfl, ?_, by simp⟩
      rw [append_nil]
      exact .unexpectedExit h (takeLine_eq_none.mp hline)
    · exact called_of_takeLine h hline
  | cons chunk more ih =>
    obtain ⟨hchunk, hmore⟩ := forall_mem_cons.mp hchunks
    rcases hline : takeLine buffer with _ | ⟨line, rest⟩
    · have hbuffer := takeLine_eq_none.mp hline
      rw [readLineFrom, hline]
      simp only [hchunk, if_false]
      cases hcheck : checkChunk limit buffer.length chunk with
      | some observed =>
        refine ⟨[chunk], rfl, .lineLimit h hbuffer ?_, by simp⟩
        rw [← h.checkChunk_iff hbuffer, hcheck]
        simp
      | none =>
        obtain ⟨read, hread, hended, hexit⟩ := ih hmore (h.append hbuffer hcheck)
        refine ⟨chunk :: read, by rw [cons_append, ← hread], ?_, hexit⟩
        rwa [append_assoc] at hended
    · exact called_of_takeLine h hline

/-! ## Successive calls -/

/-- How calls end: each returned the next line, or the last one failed. -/
inductive Finished (limit : Nat) (chunks lines : List (List UInt8)) (n : Nat) :
    List Reading → Reader → Prop
  | lines (more : List (List UInt8)) {received : List (List UInt8)} {r : Reader}
      (hlength : more.length = n) (hchunks : chunks = received ++ r.chunks)
      (h : Framed limit received (lines ++ more) r.buffer) :
      Finished limit chunks lines n (more.map .line) r
  | failed (more : List (List UInt8)) {received : List (List UInt8)} {failure : Reading}
      {r : Reader} (hlength : more.length < n) (hchunks : chunks = received ++ r.chunks)
      (hfailure : ∀ line, failure ≠ .line line)
      (hended : Ended limit (lines ++ more) failure received r.buffer)
      (hexit : failure = .unexpectedExit → r.chunks = []) :
      Finished limit chunks lines n (more.map .line ++ [failure]) r

theorem Finished.cons {limit : Nat} {lines : List (List UInt8)} {n : Nat} {readings : List Reading}
    {r : Reader} (h : Finished limit chunks (lines ++ [line]) n readings r) :
    Finished limit chunks lines (n + 1) (.line line :: readings) r := by
  cases h with
  | lines more hlength hchunks hlast =>
    rw [append_assoc] at hlast
    exact .lines (line :: more) (congrArg Nat.succ hlength) hchunks hlast
  | failed more hlength hchunks hfailure hlast hexit =>
    rw [append_assoc] at hlast
    exact .failed (line :: more) (Nat.succ_lt_succ hlength) hchunks hfailure hlast hexit

theorem readLines_finished {limit : Nat} (hchunks : ∀ chunk ∈ chunks, chunk ≠ []) (n : Nat)
    {received lines : List (List UInt8)} {r : Reader} (hsplit : chunks = received ++ r.chunks)
    (h : Framed limit received lines r.buffer) :
    Finished limit chunks lines n (r.readLines limit n).1 (r.readLines limit n).2 := by
  induction n generalizing received lines r with
  | zero => exact .lines [] rfl hsplit ((append_nil lines).symm ▸ h)
  | succ n ih =>
    have hrest : ∀ chunk ∈ r.chunks, chunk ≠ [] := fun chunk hchunk =>
      hchunks chunk (hsplit ▸ mem_append_right _ hchunk)
    obtain ⟨read, hread, hended, hexit⟩ := readLineFrom_called hrest h
    have hnext : chunks =
        (received ++ read) ++ (readLineFrom limit r.chunks r.buffer).2.chunks := by
      rw [append_assoc, ← hread, ← hsplit]
    rw [Reader.readLines, Reader.readLine]
    rcases hcall : readLineFrom limit r.chunks r.buffer with ⟨reading, r₁⟩
    rw [hcall] at hended hexit hnext
    cases reading with
    | line line =>
      cases hended with
      | line hframed => exact (ih hnext hframed).cons
    | lineLimit observed =>
      refine .failed [] (Nat.succ_pos n) hnext (by simp) ?_ hexit
      rwa [append_nil]
    | unexpectedExit =>
      refine .failed [] (Nat.succ_pos n) hnext (by simp) ?_ hexit
      rwa [append_nil]

/-- Calls on the output of a participant, from an empty buffer. -/
def readings (limit : Nat) (chunks : List (List UInt8)) (n : Nat) : List Reading × Reader :=
  (Reader.mk [] chunks).readLines limit n

/-- Line framing.  If the lines and the tail of a participant's output fit, calls
return its lines in order and the failure of a line that is too long is never
raised, whatever the chunks.  If it is raised, the chunks received so far do not
fit, and all of them but the last one do.  If the output does not fit, it is raised
once there are no more lines to return.  The tail of the buffer always fits. -/
theorem line_framing {limit : Nat} {chunks : List (List UInt8)}
    (hchunks : ∀ chunk ∈ chunks, chunk ≠ []) (n : Nat) :
    (Fit newline limit chunks.flatten → (readings limit chunks n).1 =
        ((split newline chunks.flatten).1.map Reading.line ++ [Reading.unexpectedExit]).take n) ∧
    (∀ observed, Reading.lineLimit observed ∈ (readings limit chunks n).1 →
      ∃ before chunk, chunks = before ++ chunk :: (readings limit chunks n).2.chunks ∧
        Fit newline limit before.flatten ∧ ¬ Fit newline limit (before.flatten ++ chunk) ∧
        (readings limit chunks n).1 =
          (split newline before.flatten).1.map Reading.line ++ [Reading.lineLimit observed]) ∧
    (¬ Fit newline limit chunks.flatten → (split newline chunks.flatten).1.length < n →
      ∃ observed, Reading.lineLimit observed ∈ (readings limit chunks n).1) ∧
    (split newline (readings limit chunks n).2.buffer).2.length ≤ limit := by
  have hfinished : Finished limit chunks [] n (readings limit chunks n).1
      (readings limit chunks n).2 :=
    readLines_finished hchunks n rfl (Framed.initial limit)
  generalize (readings limit chunks n).1 = result at hfinished ⊢
  generalize (readings limit chunks n).2 = last at hfinished ⊢
  cases hfinished with
  | lines more hlength hsplit hlast =>
    rename_i received
    -- the lines returned are the first lines of the stream
    have hlines : ∃ others, (split newline chunks.flatten).1 = more ++ others := by
      refine ⟨(split newline last.buffer).1 ++ (split newline
        ((split newline received.flatten).2 ++ last.chunks.flatten)).1, ?_⟩
      rw [hsplit, flatten_append, split_append, hlast.lines_eq, nil_append, append_assoc]
    obtain ⟨others, hothers⟩ := hlines
    refine ⟨fun _ => ?_, ?_, fun _ hn => ?_, hlast.tail_le⟩
    · rw [hothers, map_append, append_assoc, ← hlength, ← length_map Reading.line, take_left]
    · intro observed hmem
      simp at hmem
    · rw [hothers, length_append] at hn
      omega
  | failed more hlength hsplit hfailure hended hexit =>
    cases hended with
    | line hframed => exact absurd rfl (hfailure _)
    | lineLimit hframed hbuffer hover =>
      rename_i observed before chunk
      have hbefore : (split newline before.flatten).1 = more := (hframed.of_notMem hbuffer).1
      refine ⟨fun hfit => ?_, fun other hmem => ?_, fun _ _ => ⟨observed, by simp⟩, hframed.tail_le⟩
      · refine absurd (Fit.of_append (b := last.chunks.flatten) ?_) hover
        rwa [hsplit, flatten_append, flatten_concat] at hfit
      · obtain rfl : other = observed := by simpa using hmem
        refine ⟨before, chunk, ?_, hframed.fit, hover, by rw [hbefore]⟩
        rw [hsplit, append_assoc, singleton_append]
    | unexpectedExit hframed hbuffer =>
      rename_i received
      have hall : chunks = received := by
        rw [hsplit, hexit rfl, append_nil]
      subst hall
      have hlines : (split newline chunks.flatten).1 = more := (hframed.of_notMem hbuffer).1
      refine ⟨fun _ => ?_, fun observed hmem => ?_, fun hunfit _ => absurd hframed.fit hunfit,
        hframed.tail_le⟩
      · rw [hlines, take_of_length_le (by simp; omega)]
      · simp at hmem

/-- Two lines in chunks that cut through both of them. -/
def cutChunks : List (List UInt8) :=
  [[97], [98, 10, 99], [10]]

theorem line_framing_two :
    (readings 3 cutChunks 3).1 = [.line [97, 98], .line [99], .unexpectedExit] := by
  have hchunks : ∀ chunk ∈ cutChunks, chunk ≠ [] := by decide
  have hfit : Fit newline 3 cutChunks.flatten := by decide
  rw [(line_framing hchunks 3).1 hfit]
  decide

end SilFormal.Protocol
