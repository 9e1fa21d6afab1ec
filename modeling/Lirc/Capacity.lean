import Lirc.History
import Lirc.Joining

/-!
The room for a waveform. Samples that are added stay in the array of the send buffer;
the signals of a raw code are used where they are, however many they are, and a driver
that copies what `data` points to has room for `WBUF_SIZE` samples.
-/

namespace Lirc

/-- The size of `rawSB`. -/
def rawSbSize : ℕ := 2 * wbufSize + 2

/-- What `irtoy_send` stores into `rawSB`: two bytes for each sample in units of the
device (`units` divides by `IRTOY_UNIT`), and an end mark. -/
def irtoyBytes (units : ℤ → ℤ) (b : SBuf) : List ℤ :=
  ((List.range b.wptr).flatMap fun i =>
    let val := units (b.samples.getD i 0)
    [val / 2 ^ 8 % 2 ^ 8, val % 2 ^ 8]) ++ [0xff, 0xff]

@[simp] theorem irtoyBytes_length (units : ℤ → ℤ) (b : SBuf) :
    (irtoyBytes units b).length = 2 * b.wptr + 2 := by
  simp [irtoyBytes, List.length_flatMap, Nat.mul_comm]

/-- The samples that a driver reads start and end with a pulse, are not zero, and there
are no more of them than the buffers have room for. -/
structure WithinBuffers (units : ℤ → ℤ) (b : SBuf) : Prop where
  odd : b.wptr % 2 = 1
  wptr_le : b.wptr ≤ wbufSize
  nonzero : ∀ i < b.wptr, b.samples.getD i 0 ≠ 0
  bytes_le : (irtoyBytes units b).length ≤ rawSbSize

theorem SBuf.Sound.sendSignals {b : SBuf} (h : b.Sound) (xs : List ℤ) : (sendSignals b xs).Sound := by
  induction xs generalizing b with
  | nil => exact h
  | cons x xs ih => exact ih (addSendBuffer_sound h x)

theorem syncSendBuffer_sound {b : SBuf} (h : b.Sound) : (syncSendBuffer b).Sound := by
  rw [syncSendBuffer_eq]
  exact dropSpace_sound h.closePulse

/-- Whatever `data` points to: after the copy the samples are in the array. -/
theorem unrollRaw_sound {b : SBuf} (h : b.Sound) : (unrollRaw b).Sound := by
  rw [unrollRaw]
  split
  · exact h
  · exact SBuf.Sound.sendSignals ⟨Nat.zero_le _⟩ _

theorem addGap_sound {b : SBuf} (h : b.Sound) (gmin : ℤ) : (addGap b gmin).Sound := by
  have hspace : (sendSpace b gmin).Sound := h.sendParts [⟨false, gmin⟩]
  have hflush : ∀ c : SBuf, c.Sound →
      ({ (if 0 < c.pendings then { addSendBuffer c c.pendings with pendings := 0 } else c) with
        sum := 0 } : SBuf).Sound := by
    intro c hc
    split
    · exact ⟨(addSendBuffer_sound hc _).wptr_le⟩
    · exact ⟨hc.wptr_le⟩
  exact hflush _ hspace.closePulse

/-- Samples for which there is no room leave their mark. -/
theorem sendSignals_full {b : SBuf} (hb : b.Sound) {xs : List ℤ}
    (h : wbufSize < b.wptr + xs.length) : (sendSignals b xs).tooLong = true := by
  by_contra hfit
  have hext := (sendSignals_extended hb (eq_false_of_ne_true hfit)).1
  have hle := hext.sound.wptr_le
  rw [hext.wptr] at hle
  omega

section Loop

variable {r : IrRemote} {code : IrNcode} {rep : Bool} {b b' : SBuf} {tx tx' : TxState}

/-- A raw code with room for its signals is due, or a frame that is built from parts. -/
def RoomForRaw (r : IrRemote) (code : IrNcode) (rep : Bool) : Prop :=
  isRawFrame r rep = true → ∀ sig, code.signals = some sig → sig.length ≤ wbufSize

/-- A frame after the first is a raw one only if the first is. -/
theorem RoomForRaw.next (h : RoomForRaw r code rep) : RoomForRaw r code true := by
  intro hraw
  refine h ?_
  obtain ⟨hr, hnrep⟩ := (Bool.and_eq_true _ _).mp hraw
  rw [isRawFrame, hr]
  cases rep with
  | false => rfl
  | true => exact hnrep

theorem buildFrame_sound (hb : b.Sound) (hroom : RoomForRaw r code rep)
    (h : buildFrame r code false rep b tx = some (b', tx')) : b'.Sound := by
  cases hraw : isRawFrame r rep with
  | true =>
      rw [buildFrame_raw hraw] at h
      obtain ⟨sig, hsig, heq⟩ := Option.map_eq_some_iff.mp h
      obtain ⟨rfl, -⟩ := Prod.mk.inj heq
      split
      · exact hb.sendSignals sig
      · exact ⟨hroom hraw sig hsig⟩
  | false =>
      rw [buildFrame_parts hraw] at h
      obtain ⟨rfl, -⟩ := Prod.mk.inj (Option.some.inj h)
      exact ⟨(hb.sendParts _).wptr_le⟩

theorem initSendLoop_sound {fuel : ℕ} {frames : List Frame} {out : SendOut} (hb : b.Sound)
    (hroom : RoomForRaw r code rep)
    (hrun : initSendLoop r code false fuel rep b tx frames = some out) (hok : out.ok = true) :
    out.buf.Sound := by
  induction fuel generalizing rep b tx frames with
  | zero => cases hrun
  | succ fuel ih =>
      obtain ⟨b', tx', gmin, gmax, frame, hbuild, -, -, hnext⟩ := initSendLoop_step hrun hok
      have hsync := syncSendBuffer_sound (buildFrame_sound hb hroom hbuild)
      split at hnext
      · exact ih (addGap_sound (unrollRaw_sound hsync) gmin) hroom.next hnext
      · rw [hnext.2.1]
        exact hsync

/-- The samples of a completed waveform are odd in number. -/
theorem initSendLoop_odd {fuel : ℕ} {frames : List Frame} {out : SendOut}
    (hrun : initSendLoop r code false fuel rep b tx frames = some out) (hok : out.ok = true) :
    out.buf.wptr % 2 = 1 := by
  induction fuel generalizing rep b tx frames with
  | zero => cases hrun
  | succ fuel ih =>
      obtain ⟨b', tx', gmin, gmax, frame, -, -, -, hnext⟩ := initSendLoop_step hrun hok
      split at hnext
      · exact ih hnext
      · obtain ⟨hcheck, hbuf, -⟩ := hnext
        rw [hbuf]
        rw [syncSendBuffer_eq] at hcheck ⊢
        have hpos : 0 < (closePulse b').wptr := by
          have hsome := ((checkSendBuffer_iff _).mp hcheck).1
          by_contra hzero
          rw [dropSpace, if_neg (by omega)] at hsome
          omega
        exact (dropSpace_odd hpos).1

/-- Too many signals of a raw code: if the code goes out alone, they are used in place. -/
theorem initSendLoop_long {fuel : ℕ} {frames : List Frame} {out : SendOut} {sig : List ℤ}
    (hw : b.wptr = 0) (hp : b.pendingp = 0) (hraw : isRawFrame r rep = true)
    (hsig : code.signals = some sig) (hlong : wbufSize < sig.length)
    (hrun : initSendLoop r code false fuel rep b tx frames = some out) (hok : out.ok = true) :
    wbufSize < out.buf.wptr := by
  cases fuel with
  | zero => cases hrun
  | succ fuel =>
      obtain ⟨b', tx', gmin, gmax, frame, hbuild, -, -, hnext⟩ := initSendLoop_step hrun hok
      rw [buildFrame_raw hraw, hsig, Option.map_some, if_neg (by omega)] at hbuild
      obtain ⟨rfl, -⟩ := Prod.mk.inj (Option.some.inj hbuild)
      have hsync := syncSendBuffer_raw hp sig
      have hsamples := dropSpace_rawBuffer b sig
      have hwptr : wbufSize < (dropSpace (rawBuffer b sig)).wptr := by
        show wbufSize < SBuf.wptr (if 0 < sig.length ∧ sig.length % 2 = 0 then
          { rawBuffer b sig with wptr := sig.length - 1 } else rawBuffer b sig)
        rw [wbufSize] at hlong ⊢
        split
        · show 256 < sig.length - 1
          omega
        · exact hlong
      rw [rawBuffer] at hsync hsamples hwptr
      rw [hsync] at hnext
      split at hnext
      · -- the copy of the signals does not fit, and the next pass finds this
        have hfit := initSendLoop_fits hnext hok
        have hdata : (dropSpace (rawBuffer b sig)).data ≠ .own := by
          rw [(dropSpace_frame _).2.1]
          exact nofun
        rw [rawBuffer] at hdata
        have hlen : wbufSize < (synced sig).length := by
          rw [synced]
          rw [wbufSize] at hlong ⊢
          split
          · rw [List.length_dropLast]
            omega
          · exact hlong
        rw [unrollRaw, if_neg hdata, hsamples,
          addGap_tooLong gmin (sendSignals_full ⟨Nat.zero_le _⟩ (by omega))] at hfit
        cases hfit
      · rw [hnext.2.1]
        exact hwptr

end Loop

/-- What `init_send` has put together stays within the buffers, exactly if it is no raw
frame with more than `WBUF_SIZE` signals. -/
theorem initSend_capacity_iff (units : ℤ → ℤ) {r : IrRemote} {code : IrNcode} {repeating : Bool}
    {b : SBuf} {fuel : ℕ} {out : SendOut} (hrun : initSend r code repeating b fuel = some out)
    (hok : out.ok = true) : WithinBuffers units out.buf ↔ RoomForRaw r code repeating := by
  have hloop := initSend_loop hrun hok
  constructor
  · intro hwithin hraw sig hsig
    by_contra hlong
    have hover := initSendLoop_long rfl rfl hraw hsig (by omega) hloop hok
    exact absurd hwithin.wptr_le (by omega)
  · intro hroom
    have hsound := initSendLoop_sound (b := startBuffer r b) ⟨Nat.zero_le _⟩ hroom hloop hok
    obtain ⟨hpos, hnonzero⟩ := (checkSendBuffer_iff _).mp (initSendLoop_check hloop hok)
    refine ⟨initSendLoop_odd hloop hok, hsound.wptr_le, hnonzero, ?_⟩
    rw [irtoyBytes_length, rawSbSize]
    exact Nat.add_le_add_right (Nat.mul_le_mul_left 2 hsound.wptr_le) 2

/-- A raw remote. -/
def pulseRemote : IrRemote := { name := ['r'], flags := rawCodes, gap := 40000 }

def pulseCode (n : ℕ) : IrNcode :=
  { name := ['k'], code := 1, signals := some (List.replicate n 500) }

/-- A raw code as long as the buffer has room for: the pulse at its end is dropped. -/
theorem initSend_capacity_full :
    ∃ out, initSend pulseRemote (pulseCode 256) false initSendBuffer 1 = some out ∧
      (WithinBuffers (· * 3 / 64) out.buf ↔ RoomForRaw pulseRemote (pulseCode 256) false) := by
  obtain ⟨out, hout, hok⟩ := Option.map_eq_some_iff.mp
    (show (initSend pulseRemote (pulseCode 256) false initSendBuffer 1).map SendOut.ok =
      some true by decide +kernel)
  exact ⟨out, hout, initSend_capacity_iff (· * 3 / 64) hout hok⟩

/-- A raw code with one signal more: `init_send` returns 1, and `irtoy_send` stores 516
bytes. -/
theorem initSend_capacity_fails :
    ¬ ∀ (units : ℤ → ℤ) (r : IrRemote) (code : IrNcode) (repeating : Bool) (b : SBuf) (fuel : ℕ)
        (out : SendOut), initSend r code repeating b fuel = some out → out.ok = true →
      WithinBuffers units out.buf := by
  intro h
  obtain ⟨out, hout, hsent⟩ := Option.map_eq_some_iff.mp
    (show (initSend pulseRemote (pulseCode 257) false initSendBuffer 1).map
      (fun out => (out.ok, out.buf.wptr)) = some (true, 257) by decide +kernel)
  obtain ⟨hok, hwptr⟩ := Prod.mk.inj hsent
  have hwithin := h (· * 3 / 64) _ _ _ _ _ out hout hok
  have hle := hwithin.wptr_le
  rw [hwptr] at hle
  exact absurd hle (by decide)

end Lirc
