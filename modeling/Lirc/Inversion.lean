import Lirc.BitDecode

/-!
`invert_data` of irrecord. It exchanges the timings of one and zero and complements every
data word within its own width, so that each bit is still sent as it was.
-/

namespace Lirc

/-- The code of a button and the nodes behind it. The two pointers into the nodes see the
same words. -/
def invertCode (mask : IrCode) (c : IrNcode) : IrNcode :=
  { c with
    code := c.code ^^^ mask
    next := c.next.map (· ^^^ mask)
    current := c.current.map (· ^^^ mask)
    transmitState := c.transmitState.map (· ^^^ mask) }

section Steps

variable (r : IrRemote)

def swapTimings : IrRemote :=
  { r with pone := r.pzero, sone := r.szero, pzero := r.pone, szero := r.sone }

def invertPre : IrRemote :=
  if hasPre r then { r with preData := r.preData ^^^ genMask r.preDataBits } else r

def invertPost : IrRemote :=
  if hasPost r then { r with postData := r.postData ^^^ genMask r.postDataBits } else r

/-- Nothing is done for a remote without bits of its own. -/
def invertCodes : IrRemote :=
  if r.bits = 0 then r else { r with codes := r.codes.map (invertCode (genMask r.bits)) }

/-- `invert_data` -/
def invertData : IrRemote := invertCodes (invertPost (invertPre (swapTimings r)))

end Steps

/-- What `send_code` makes of a buffer for each button, and there for each element of its
sequence. -/
def waveforms (r : IrRemote) (rep : Bool) (b : SBuf) : List (List SBuf) :=
  r.codes.map fun c => (c.code :: c.next).map fun code => sendCode r code rep b

/-- A remote whose bits depend on the data alone. -/
structure PlainSpace (r : IrRemote) : Prop where
  space : isSpaceEnc r = true ∨ isSpaceFirst r = true
  toggleBitMask : hasToggleBitMask r = false
  toggleMask : hasToggleMask r = false
  rc6Mask : r.rc6Mask = 0

/-! ### Twice -/

@[simp] theorem xor_xor_mask (x mask : IrCode) : x ^^^ mask ^^^ mask = x := by
  rw [BitVec.xor_assoc, BitVec.xor_self, BitVec.xor_zero]

theorem invertCode_zero (c : IrNcode) : invertCode 0 c = c := by
  simp [invertCode]

theorem invertCode_twice (mask : IrCode) (c : IrNcode) :
    invertCode mask (invertCode mask c) = c := by
  simp [invertCode, Function.comp_def]

section Steps

variable (r : IrRemote)

theorem invertPre_eq :
    invertPre r = { r with preData := r.preData ^^^ genMask r.preDataBits } := by
  rw [invertPre]
  split
  · rfl
  · next hzero =>
      have hbits : r.preDataBits = 0 := by simpa [hasPre] using hzero
      have hmask : r.preData ^^^ genMask r.preDataBits = r.preData := by
        rw [hbits]
        exact BitVec.xor_zero
      rw [hmask]

theorem invertPost_eq :
    invertPost r = { r with postData := r.postData ^^^ genMask r.postDataBits } := by
  rw [invertPost]
  split
  · rfl
  · next hzero =>
      have hbits : r.postDataBits = 0 := by simpa [hasPost] using hzero
      have hmask : r.postData ^^^ genMask r.postDataBits = r.postData := by
        rw [hbits]
        exact BitVec.xor_zero
      rw [hmask]

theorem invertCodes_eq :
    invertCodes r = { r with codes := r.codes.map (invertCode (genMask r.bits)) } := by
  rw [invertCodes]
  split
  · next hzero =>
      have hmap : r.codes.map (invertCode (genMask r.bits)) = r.codes := by
        have hid : invertCode (genMask r.bits) = id := by
          rw [hzero]
          exact funext invertCode_zero
        rw [hid, List.map_id]
      rw [hmap]
  · rfl

/-- The exits for a width of zero leave out what would change nothing. -/
theorem invertData_eq : invertData r =
    { r with
      pone := r.pzero, sone := r.szero, pzero := r.pone, szero := r.sone
      preData := r.preData ^^^ genMask r.preDataBits
      postData := r.postData ^^^ genMask r.postDataBits
      codes := r.codes.map (invertCode (genMask r.bits)) } := by
  rw [invertData, invertCodes_eq, invertPost_eq, invertPre_eq, swapTimings]

theorem invertData_twice : invertData (invertData r) = r := by
  simp only [invertData_eq, xor_xor_mask, List.map_map]
  have hid : invertCode (genMask r.bits) ∘ invertCode (genMask r.bits) = id :=
    funext (invertCode_twice _)
  rw [hid, List.map_id]

end Steps

/-! ### One bit after the other -/

section Bits

variable {r : IrRemote} (hplain : PlainSpace r)

include hplain

theorem PlainSpace.not_rcmm : isRcmm r = false := by
  rcases hplain.space with h | h
  · exact protocolIs_unique h (by decide)
  · exact protocolIs_unique h (by decide)

theorem PlainSpace.not_xmp : isXmp r = false := by
  rcases hplain.space with h | h
  · exact protocolIs_unique h (by decide)
  · exact protocolIs_unique h (by decide)

theorem PlainSpace.not_biphase : isBiphase r = false := by
  have hrc5 : isRc5 r = false := by
    rcases hplain.space with h | h
    · exact protocolIs_unique h (by decide)
    · exact protocolIs_unique h (by decide)
  have hrc6 : r.protocolIs rc6 = false := by
    rcases hplain.space with h | h
    · exact protocolIs_unique h (by decide)
    · exact protocolIs_unique h (by decide)
  simp [isBiphase, isRc6, hrc5, hrc6, hplain.rc6Mask]

theorem PlainSpace.inverted : PlainSpace (invertData r) := by
  rw [invertData_eq]
  exact ⟨hplain.space, hplain.toggleBitMask, hplain.toggleMask, hplain.rc6Mask⟩

/-- With its timings exchanged a bit is sent as its complement was. -/
theorem PlainSpace.bitParts_not (mask : IrCode) (bit : Bool) :
    bitParts (invertData r) mask (!bit) = bitParts r mask bit := by
  have hone : oneParts (invertData r) mask = zeroParts r mask := by
    have hspace : isSpaceFirst (invertData r) = isSpaceFirst r := by rw [invertData_eq]; rfl
    rw [oneParts, zeroParts, hplain.inverted.not_biphase, hplain.rc6Mask, hspace, invertData_eq]
    simp
  have hzero : zeroParts (invertData r) mask = oneParts r mask := by
    have hspace : isSpaceFirst (invertData r) = isSpaceFirst r := by rw [invertData_eq]; rfl
    rw [oneParts, zeroParts, hplain.not_biphase, hplain.inverted.rc6Mask, hspace, invertData_eq]
    simp
  cases bit with
  | true => exact hzero
  | false => exact hone

/-- A word without toggle bits is sent from its highest bit on. -/
theorem PlainSpace.bitLoopParts_succ {n : ℕ} (hn : n + 1 ≤ 64) (data mask : IrCode) :
    bitLoopParts r (n + 1) (reverse data (n + 1)) mask =
      bitParts r mask (data.getLsbD n) ++ bitLoopParts r n (reverse data n) (mask >>> 1) := by
  rw [bitLoopParts, toggledData_eq hplain.toggleBitMask hplain.toggleMask,
    reverse_succ_and_one hn, reverse_succ_ushiftRight hn]

theorem PlainSpace.bitLoopParts_invert {n : ℕ} (hn : n ≤ 64) {data data' : IrCode}
    (hdata : ∀ i < n, data'.getLsbD i = !data.getLsbD i) (mask : IrCode) :
    bitLoopParts (invertData r) n (reverse data' n) mask =
      bitLoopParts r n (reverse data n) mask := by
  induction n generalizing mask with
  | zero => rfl
  | succ n ih =>
      rw [hplain.bitLoopParts_succ hn, hplain.inverted.bitLoopParts_succ hn,
        hdata n (Nat.lt_succ_self n), hplain.bitParts_not,
        ih (by omega) fun i hi => hdata i (by omega)]

theorem PlainSpace.dataParts_invert {n : ℕ} (hn : n ≤ 64) (data : IrCode) (done : ℕ) :
    dataParts (invertData r) (data ^^^ genMask n) n done = dataParts r data n done := by
  have hdata : ∀ i < n, (data ^^^ genMask n).getLsbD i = !data.getLsbD i := by
    intro i hi
    rw [BitVec.getLsbD_xor, genMask_getLsbD (by omega), decide_eq_true hi, Bool.xor_true]
  have hcount : bitCount (invertData r) = bitCount r := by rw [invertData_eq]; rfl
  rw [dataParts, dataParts, hplain.not_rcmm, hplain.not_xmp, hplain.inverted.not_rcmm,
    hplain.inverted.not_xmp, hcount]
  exact hplain.bitLoopParts_invert hn hdata _

end Bits

/-! ### Whole codes -/

theorem PlainSpace.codeParts_invert {r : IrRemote} (hplain : PlainSpace r)
    (hbits : bitCount r ≤ 64) (code : IrCode) (rep : Bool) :
    codeParts (invertData r) (code ^^^ genMask r.bits) rep = codeParts r code rep := by
  rw [bitCount] at hbits
  have hpre : preParts (invertData r) = preParts r := by
    have hdata := hplain.dataParts_invert (n := r.preDataBits) (by omega) r.preData 0
    rw [invertData_eq] at hdata ⊢
    rw [preParts, hdata]
    rfl
  have hpost : postParts (invertData r) = postParts r := by
    have hdata := hplain.dataParts_invert (n := r.postDataBits) (by omega) r.postData
      (r.preDataBits + r.bits)
    rw [invertData_eq] at hdata ⊢
    rw [postParts, hdata]
    rfl
  have hdata := hplain.dataParts_invert (n := r.bits) (by omega) code r.preDataBits
  rw [codeParts, hpre, hpost]
  rw [invertData_eq] at hdata ⊢
  rw [hdata]
  rfl

theorem PlainSpace.sendCode_invert {r : IrRemote} (hplain : PlainSpace r)
    (hbits : bitCount r ≤ 64) (code : IrCode) (rep : Bool) (b : SBuf) :
    sendCode (invertData r) (code ^^^ genMask r.bits) rep b = sendCode r code rep b := by
  rw [sendCode_eq, sendCode_eq, hplain.codeParts_invert hbits, invertData_eq]
  rfl

/-- Every button and every element of its sequence is sent as before, and the data are
those from before when they are inverted once more. -/
theorem invertData_waveforms (r : IrRemote) (hplain : PlainSpace r) (hbits : bitCount r ≤ 64) :
    (∀ rep b, waveforms (invertData r) rep b = waveforms r rep b) ∧
      invertData (invertData r) = r := by
  refine ⟨fun rep b => ?_, invertData_twice r⟩
  have hcodes : (invertData r).codes = r.codes.map (invertCode (genMask r.bits)) := by
    rw [invertData_eq]
  rw [waveforms, hcodes, List.map_map, waveforms]
  apply List.map_congr_left
  intro c _
  -- The button and its nodes are the words of the former ones, each complemented.
  have hwords : (invertCode (genMask r.bits) c).code :: (invertCode (genMask r.bits) c).next =
      (c.code :: c.next).map (· ^^^ genMask r.bits) := rfl
  rw [Function.comp_apply, hwords, List.map_map]
  exact List.map_congr_left fun code _ => hplain.sendCode_invert hbits code rep b

/-- A remote whose only button sends a sequence. -/
def twoStepRemote : IrRemote where
  flags := spaceFirst
  bits := 8
  codes := [{ name := "power".toList, code := 0x12, next := [0x34, 0x12] }]
  pone := 560
  sone := 1690
  pzero := 560
  szero := 560
  preDataBits := 4
  preData := 0x5
  postDataBits := 1
  postData := 1

theorem invertData_waveforms_sequence :
    (∀ rep b, waveforms (invertData twoStepRemote) rep b = waveforms twoStepRemote rep b) ∧
      invertData (invertData twoStepRemote) = twoStepRemote :=
  invertData_waveforms twoStepRemote ⟨.inr (by decide), by decide, by decide, rfl⟩ (by decide)

end Lirc
