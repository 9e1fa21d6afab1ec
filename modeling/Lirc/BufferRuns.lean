import Lirc.SafeDecoding

/-!
The receive buffer from the start of the daemon on: samples are received, and
`receive_decode` is tried for any remotes. The first access outside of the array is that of
a second half that is looked for with too few samples in front of it.
-/

namespace Lirc

open Signal Transition

/-! ### One call of `receive_decode` -/

section Decode

variable (hw : Hardware) (r : IrRemote) (last : LastRemote) (now : ℕ) {b : RBuf}

theorem decodeSignal_safely (hmode : hw.recMode ≠ modeLirccode) (sync : ℤ) (header : Bool)
    (h : b.Placed) :
    Safely hw b (decodeSignalOps hw r last header b)
      (decodeSignal hw r last now sync header b).2.2 := by
  rw [decodeSignalOps, if_neg hmode, if_neg hmode, decodeSignal, if_neg hmode, if_neg hmode]
  split
  · have hraw := decodeRaw_safely hw r last r.codes h
    generalize decodeRaw hw last r.codes r b = t at hraw ⊢
    obtain ⟨code, r₁, b₁⟩ := t
    cases code with
    | none => exact hraw
    | some code => exact hraw
  · have hbits := decodeBits_safely hw r header h
    generalize decodeBits hw r header b = t at hbits ⊢
    obtain ⟨code, r₁, b₁⟩ := t
    cases code with
    | none => exact hbits
    | some code => exact hbits

/-- A signal that arrives as a code leaves the samples alone. -/
theorem decodeSignal_lirccode (hmode : hw.recMode = modeLirccode) (sync : ℤ) (header : Bool)
    (h : b.Within) :
    Traces hw b (decodeSignalOps hw r last header b)
        (decodeSignal hw r last now sync header b).2.2 ∧
      (decodeSignal hw r last now sync header b).2.2.Within := by
  rw [decodeSignalOps, if_pos hmode, if_pos hmode, decodeSignal, if_pos hmode, if_pos hmode]
  split
  · exact ⟨.nil b, h⟩
  rw [decodeLirccode]
  split
  · exact ⟨.nil b, h⟩
  · have hperforms (sum : ℤ) : Performs b [.setSum sum] { b with sum } :=
      .quiet (fun _ => rfl) fun _ ⟨hdata, hinput, hrptr, _⟩ => ⟨hdata, hinput, hrptr, rfl⟩
    exact ⟨(hperforms _).traces (List.forall_mem_singleton.mpr trivial), h⟩

/-- From the header on. -/
theorem decodeHeaded_safely (hmode : hw.recMode ≠ modeLirccode) (sync : ℤ) (h : b.Placed)
    (hpos : 0 < b.rptr) :
    Safely hw b
      (decodeHeaderOps hw r b ++
        match decodeHeader hw r sync b with
        | (none, _) => []
        | (some header, b) => decodeSignalOps hw r last header b)
      (match decodeHeader hw r sync b with
        | (none, b) => (none, r, b)
        | (some header, b) => decodeSignal hw r last now sync header b).2.2 := by
  have hheader := decodeHeader_safely hw r sync h hpos
  generalize decodeHeader hw r sync b = t at hheader ⊢
  obtain ⟨header, b₁⟩ := t
  refine hheader.append fun hp => ?_
  cases header with
  | none => exact .nil hp
  | some header => exact decodeSignal_safely hw r last now hmode sync header hp

theorem not_lirccode (hmode : pulseSpaceMode hw = true) : hw.recMode ≠ modeLirccode := by
  intro heq
  rw [pulseSpaceMode, heq] at hmode
  exact absurd hmode (by decide)

/-- With pulses and spaces the buffer may be empty: then there is no space to start from. -/
theorem receiveDecode_pulseSpace (hmode : pulseSpaceMode hw = true) (h : b.Within) :
    Traces hw b (receiveDecodeOps hw r last b) (receiveDecode hw r last now b).2.2 ∧
      (receiveDecode hw r last now b).2.2.Within := by
  rw [receiveDecodeOps, if_pos hmode, receiveDecode, if_pos hmode]
  have hrewind : Traces hw b [.rewind] { rewindRecBuffer b with isBiphase := isBiphase r } :=
    rewind_traces hw b
  have hwithin : RBuf.Within { rewindRecBuffer b with isBiphase := isBiphase r } :=
    ⟨Nat.zero_le _, h.2⟩
  dsimp only
  generalize { rewindRecBuffer b with isBiphase := isBiphase r } = b₀ at hrewind hwithin ⊢
  have hsync := syncRecBuffer_forward hw r last hwithin
  have hfound := syncRecBuffer_found hw r last hwithin
  generalize syncRecBuffer hw r last b₀ = t at hsync hfound ⊢
  obtain ⟨sync, r₁, b₁⟩ := t
  have hstart := hrewind.append hsync.traces
  dsimp only at hsync hfound hstart ⊢
  by_cases hnone : sync = 0
  · rw [if_pos hnone, if_pos hnone]
    exact ⟨hstart.append (.nil b₁), hsync.within⟩
  rw [if_neg hnone, if_neg hnone]
  have hpos := hfound hnone
  have hplaced : b₁.Placed := ⟨hsync.within, hpos.trans_le hsync.within.1⟩
  suffices hrest : Safely hw b₁ _ _ from ⟨hstart.append hrest.1, hrest.2.1⟩
  cases hasRepeat r₁ && last == .same with
  | false => exact decodeHeaded_safely hw r₁ last now (not_lirccode hw hmode) sync hplaced hpos
  | true =>
      obtain ⟨hrepeat, hfront⟩ := decodeRepeat_safely hw r₁ last hplaced hpos
      simp only [if_true]
      generalize decodeRepeat hw r₁ last b₁ = next at hrepeat hfront ⊢
      cases next with
      | inl out => exact hrepeat.append .nil
      | inr next =>
          obtain ⟨r₂, b₂⟩ := next
          refine hrepeat.append fun hp => ?_
          exact decodeHeaded_safely hw r₂ last now (not_lirccode hw hmode) sync hp (hfront _ rfl)

/-- What `receive_decode` starts from: without pulses and spaces nothing is synchronised, and
there has to be a sample, unless the signal arrives as a code. -/
def RBuf.Startable (b : RBuf) : Prop :=
  b.Within ∧ (pulseSpaceMode hw = false → hw.recMode ≠ modeLirccode → b.Placed)

theorem receiveDecode_traces (h : RBuf.Startable hw b) :
    Traces hw b (receiveDecodeOps hw r last b) (receiveDecode hw r last now b).2.2 ∧
      RBuf.Startable hw (receiveDecode hw r last now b).2.2 := by
  obtain ⟨hwithin, hplaced⟩ := h
  cases hmode : pulseSpaceMode hw with
  | true =>
      obtain ⟨htraces, hwithin⟩ := receiveDecode_pulseSpace hw r last now hmode hwithin
      exact ⟨htraces, hwithin, fun hother => absurd (hmode.symm.trans hother) (by decide)⟩
  | false =>
      rw [receiveDecodeOps, if_neg (by rw [hmode]; decide), receiveDecode,
        if_neg (by rw [hmode]; decide)]
      by_cases hcode : hw.recMode = modeLirccode
      · obtain ⟨htraces, hwithin⟩ := decodeSignal_lirccode hw r last now hcode 0 false hwithin
        exact ⟨htraces, hwithin, fun _ hother => absurd hcode hother⟩
      · obtain ⟨htraces, hplaced⟩ :=
          decodeSignal_safely hw r last now hcode 0 false (hplaced hmode hcode)
        exact ⟨htraces, hplaced.1, fun _ _ => hplaced⟩

end Decode

/-! ### Runs -/

/-- A new signal has arrived, or `receive_decode` is called, with the remote that is tried,
`last_remote` and the time. `decode_all` calls it for one remote after the other. -/
inductive BufferEvent
  | clear (decoded : IrCode)
  | decode (r : IrRemote) (last : LastRemote) (now : ℕ)

section Runs

variable (hw : Hardware)

/-- `clear_rec_buffer`; `decoded` is what has been read in the mode LIRCCODE. -/
def clearRecBuffer (decoded : IrCode) (b : RBuf) : RBuf :=
  let b :=
    if hw.recMode = modeLirccode then { b with decoded }
    else if 0 < (b.data.length : ℤ) - b.rptr ∧ 0 < b.rptr then
      { b with data := b.data.drop b.rptr }
    else { b with data := [b.input.headD 0], input := b.input.tail }
  { rewindRecBuffer b with isBiphase := false }

def clearRecBufferOps : List BufOp := if hw.recMode = modeLirccode then [.rewind] else [.clear]

def bufferStep (b : RBuf) : BufferEvent → RBuf
  | .clear decoded => clearRecBuffer hw decoded b
  | .decode r last now => (receiveDecode hw r last now b).2.2

def stepOps (b : RBuf) : BufferEvent → List BufOp
  | .clear _ => clearRecBufferOps hw
  | .decode r last _ => receiveDecodeOps hw r last b

/-- The calls of a whole run. -/
def runOps : RBuf → List BufferEvent → List BufOp
  | _, [] => []
  | b, e :: es => stepOps hw b e ++ runOps (bufferStep hw b e) es

/-- The buffer after `init_rec_buffer`, with all that will be received. -/
def initCursor (input : List ℕ) : Cursor := { data := [], input, rptr := 0, sum := 0 }

/-- The samples that have not been read are moved to the front, or a new one is put there. -/
theorem clear_performs {b : RBuf} (h : b.Within) :
    Performs b [.clear] (rewindRecBuffer
      (if 0 < (b.data.length : ℤ) - b.rptr ∧ 0 < b.rptr then { b with data := b.data.drop b.rptr }
        else { b with data := [b.input.headD 0], input := b.input.tail })) := by
  refine .single fun c ⟨hdata, hinput, hrptr, _⟩ => ?_
  have hmoves : c.Moves ↔ 0 < (b.data.length : ℤ) - b.rptr ∧ 0 < b.rptr := by
    rw [Cursor.Moves, hdata, hrptr]
    omega
  rw [Cursor.InBounds, Cursor.touches, Cursor.perform]
  by_cases hm : 0 < (b.data.length : ℤ) - b.rptr ∧ 0 < b.rptr
  · rw [if_pos (hmoves.mpr hm), if_pos (hmoves.mpr hm), if_pos hm]
    refine ⟨fun i hi => ?_, ?_, hinput, rfl, rfl⟩
    · obtain ⟨n, hn, rfl⟩ := List.mem_map.mp hi
      have hlt := List.mem_range.mp hn
      have hsize := h.2
      rw [hdata] at hlt
      exact ⟨Int.natCast_nonneg n, Int.ofNat_lt.mpr (hlt.trans_le hsize)⟩
    · rw [hrptr, Int.toNat_natCast, hdata]
      rfl
  · rw [if_neg (hm ∘ hmoves.mp), if_neg (hm ∘ hmoves.mp), if_neg hm]
    refine ⟨fun i hi => ?_, ?_, ?_, rfl, rfl⟩
    · rw [List.mem_singleton.mp hi]
      decide
    · rw [hinput]
      rfl
    · rw [hinput]
      rfl

theorem clearRecBuffer_traces (decoded : IrCode) {b : RBuf} (h : b.Within) :
    Traces hw b (clearRecBufferOps hw) (clearRecBuffer hw decoded b) ∧
      RBuf.Startable hw (clearRecBuffer hw decoded b) := by
  rw [clearRecBufferOps, clearRecBuffer]
  by_cases hcode : hw.recMode = modeLirccode
  · rw [if_pos hcode, if_pos hcode]
    exact ⟨rewind_traces hw b, ⟨Nat.zero_le _, h.2⟩, fun _ hother => absurd hcode hother⟩
  rw [if_neg hcode, if_neg hcode]
  have hperforms := clear_performs h
  refine ⟨hperforms.traces (List.forall_mem_singleton.mpr trivial), ?_⟩
  split
  · next hm =>
      have hlength : (b.data.drop b.rptr).length = b.data.length - b.rptr := List.length_drop ..
      have hplaced : RBuf.Placed (rewindRecBuffer { b with data := b.data.drop b.rptr }) := by
        refine ⟨⟨Nat.zero_le _, ?_⟩, ?_⟩
        · exact hlength ▸ (Nat.sub_le ..).trans h.2
        · exact hlength ▸ by omega
      exact ⟨hplaced.1, fun _ _ => hplaced⟩
  · have hone : 1 ≤ rbufSize := by decide
    exact ⟨⟨Nat.zero_le _, hone⟩, fun _ _ => ⟨⟨Nat.zero_le _, hone⟩, Nat.one_pos⟩⟩

theorem bufferStep_traces {b : RBuf} (h : RBuf.Startable hw b) (e : BufferEvent) :
    Traces hw b (stepOps hw b e) (bufferStep hw b e) ∧ RBuf.Startable hw (bufferStep hw b e) := by
  cases e with
  | clear decoded => exact clearRecBuffer_traces hw decoded h.1
  | decode r last now => exact receiveDecode_traces hw r last now h

theorem runOps_traces {b : RBuf} (h : RBuf.Startable hw b) (es : List BufferEvent) :
    Traces hw b (runOps hw b es) (run (bufferStep hw) b es) := by
  induction es generalizing b with
  | nil => exact .nil b
  | cons e es ih =>
      obtain ⟨htraces, hready⟩ := bufferStep_traces hw h e
      exact htraces.append (ih hready)

/-- Without pulses and spaces, a signal has to arrive before anything is decoded. -/
def Starts (es : List BufferEvent) : Prop :=
  pulseSpaceMode hw = true ∨ hw.recMode = modeLirccode ∨ ∃ decoded, es.head? = some (.clear decoded)

theorem runOps_traces_init {es : List BufferEvent} (h : Starts hw es) (input : List ℕ) :
    Traces hw { input } (runOps hw { input } es) (run (bufferStep hw) { input } es) := by
  have hwithin : RBuf.Within { input } := ⟨le_rfl, Nat.zero_le _⟩
  rcases h with hmode | hmode | ⟨decoded, hhead⟩
  · exact runOps_traces hw ⟨hwithin, fun hother => absurd (hmode.symm.trans hother) (by decide)⟩ es
  · exact runOps_traces hw ⟨hwithin, fun _ hother => absurd hmode hother⟩ es
  · obtain ⟨rest, rfl⟩ := List.head?_eq_some_iff.mp hhead
    obtain ⟨htraces, hready⟩ := clearRecBuffer_traces hw decoded hwithin
    exact htraces.append (runOps_traces hw hready rest)

theorem initCursor_fine (input : List ℕ) : (initCursor input).Fine :=
  ⟨le_rfl, le_rfl, Nat.zero_le _, fun _ => le_rfl, fun _ => rfl⟩

/-- In every run, all accesses are within the array, and the position and `sum` are what they
should be in all states, exactly when each second half keeps its place. -/
theorem receiveBuffer_fine_iff {es : List BufferEvent} (h : Starts hw es) (input : List ℕ) :
    Along Cursor.perform Cursor.InBounds (initCursor input) (runOps hw { input } es) ∧
        Always Cursor.perform Cursor.Fine (initCursor input) (runOps hw { input } es) ↔
      Kept hw (runOps hw { input } es) := by
  have hmatches : (initCursor input).Matches { input } := ⟨rfl, rfl, rfl, rfl⟩
  obtain ⟨hiff, -⟩ := runOps_traces_init hw h input (initCursor input) hmatches
  constructor
  · exact fun hall => hiff.mp hall.1
  · intro hkept
    have hin := hiff.mpr hkept
    exact ⟨hin, hin.always (fun c op hfine hop => hfine.perform hop) (initCursor_fine input)⟩

end Runs

/-! ### A signal that is read, and one that is not -/

def necRemote : IrRemote :=
  { name := ['r'], flags := spaceEnc, bits := 1, eps := 30, aeps := 100, phead := 9000,
    shead := 4500, pone := 560, sone := 1690, pzero := 560, szero := 560, ptrail := 560,
    gap := 40000 }

def necSamples : List ℕ :=
  [50000, pulseBit + 9000, 4500, pulseBit + 560, 560, pulseBit + 560, 50000]

theorem receiveBuffer_fine_iff_apply :
    Along Cursor.perform Cursor.InBounds (initCursor necSamples)
        (runOps mode2Hardware { input := necSamples } [.clear 0, .decode necRemote .null 0]) ∧
      Always Cursor.perform Cursor.Fine (initCursor necSamples)
        (runOps mode2Hardware { input := necSamples } [.clear 0, .decode necRemote .null 0]) :=
  (receiveBuffer_fine_iff mode2Hardware (.inl rfl) necSamples).mpr (by decide +kernel)

/-- The header may be missing, and bits begin with a space. -/
def bareSpaceRemote : IrRemote :=
  { name := ['r'], flags := spaceFirst ||| noHeadRep, bits := 1, eps := 30, aeps := 100,
    phead := 9000, shead := 4500, pone := 560, sone := 1690, pzero := 560, szero := 560,
    gap := 40000 }

/-- A single space, and then nothing any more. -/
def loneSpace : List ℕ := [560]

def loneSpaceRun : List BufferEvent := [.clear 0, .decode bareSpaceRemote .null 0]

/-- The space is given back, as it is no header, and taken for the first half of a zero. The
pulse does not come, and two samples are given back: the first of them is `data[-1]`. -/
theorem loneSpace_before_data :
    Starts mode2Hardware loneSpaceRun ∧
      (runOps mode2Hardware { input := loneSpace } loneSpaceRun)[11]? = some (.unget 2) ∧
      (run Cursor.perform (initCursor loneSpace)
        ((runOps mode2Hardware { input := loneSpace } loneSpaceRun).take 11)).touches (.unget 2) =
          [-1, 0] ∧
      ¬Along Cursor.perform Cursor.InBounds (initCursor loneSpace)
        (runOps mode2Hardware { input := loneSpace } loneSpaceRun) :=
  ⟨.inl rfl, by decide +kernel, by decide +kernel, by decide +kernel⟩

end Lirc
