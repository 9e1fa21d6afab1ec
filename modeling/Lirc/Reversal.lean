import Lirc.PostProcess
import Lirc.Decoding
import Lirc.Driver

/-!
The `REVERSE` flag. What the parser does to a remote with this flag is compared
with the same remote written down in reverse. The two differ in the flag
`COMPAT_REVERSE`, which only the code in a message depends on, and in the
further codes of the sequences, which the parser forgets to reverse.
-/

namespace Lirc

/-- The configuration without the flag, with everything reversed within its
width. -/
def writtenReversed (rem : ConfRemote) : ConfRemote :=
  { rem with
    preData := if rem.hasPre then reverse rem.preData rem.preDataBits.toNat else rem.preData
    postData := if rem.hasPost then reverse rem.postData rem.postDataBits.toNat else rem.postData
    codes := rem.codes.map fun codes => codes.map fun c =>
      { c with
        code := reverse c.code rem.bits.toNat, next := c.next.map (reverse · rem.bits.toNat) }
    flags := rem.flags &&& (2 ^ 32 - 1 - reverseFlag) }

/-- The further codes of every sequence read the same in both directions. -/
def NodesSymmetric (rem : ConfRemote) : Prop :=
  ∀ codes, rem.codes = some codes → ∀ c ∈ codes, ∀ n ∈ c.next, reverse n rem.bits.toNat = n

/-! ### The parser -/

/-- A configuration with the flag `COMPAT_REVERSE`. -/
def ConfRemote.compat (rem : ConfRemote) : ConfRemote :=
  { rem with flags := rem.flags ||| compatReverse }

section Parser

variable (rem : ConfRemote)

theorem kickReverse_eq_compat (hraw : rem.isRaw = false) (hflag : rem.has reverseFlag = true)
    (hnodes : NodesSymmetric rem) : kickReverse rem = (writtenReversed rem).compat := by
  have hcodes : (rem.codes.map fun codes =>
      codes.map fun c => { c with code := reverse c.code rem.bits.toNat }) =
      rem.codes.map fun codes => codes.map fun c =>
        { c with
          code := reverse c.code rem.bits.toNat, next := c.next.map (reverse · rem.bits.toNat) } := by
    cases hc : rem.codes with
    | none => rfl
    | some codes =>
        refine congrArg some (List.map_congr_left fun c hmem => ?_)
        have hnext : c.next.map (reverse · rem.bits.toNat) = c.next := by
          conv_rhs => rw [← List.map_id c.next]
          exact List.map_congr_left fun n hn => hnodes codes hc c hmem n hn
        rw [hnext]
  rw [kickReverse, if_pos ⟨by rw [hraw]; rfl, hflag⟩, writtenReversed, ConfRemote.compat, hcodes]

theorem kickReverse_writtenReversed : kickReverse (writtenReversed rem) = writtenReversed rem := by
  refine kickReverse_of_flag _ (.inr ?_)
  show ((rem.flags &&& (2 ^ 32 - 1 - reverseFlag)) &&& reverseFlag != 0) = false
  have hzero : (rem.flags &&& (2 ^ 32 - 1 - reverseFlag)) &&& reverseFlag = 0 := by
    rw [Nat.and_assoc]
    exact Nat.and_zero _
  rw [hzero]
  rfl

theorem protocolIs_compat (p : ℕ) : rem.compat.protocolIs p = rem.protocolIs p := by
  have hmask : (rem.flags ||| compatReverse) &&& protocolMask = rem.flags &&& protocolMask := by
    rw [Nat.and_or_distrib_right]
    exact Nat.or_zero _
  show ((rem.flags ||| compatReverse) &&& protocolMask == p) = _
  rw [hmask]
  rfl

theorem has_compat {f : ℕ} (hf : compatReverse &&& f = 0) : rem.compat.has f = rem.has f := by
  show ((rem.flags ||| compatReverse) &&& f != 0) = _
  rw [Nat.and_or_distrib_right, hf, Nat.or_zero]
  rfl

theorem kickRc6_compat : kickRc6 rem.compat = (kickRc6 rem).compat := by
  rw [kickRc6, kickRc6, has_compat rem (by decide)]
  rw [apply_ite ConfRemote.compat]
  rfl

theorem kickToggleBit_compat : kickToggleBit rem.compat = (kickToggleBit rem).compat := by
  rw [kickToggleBit, kickToggleBit]
  rw [apply_ite ConfRemote.compat]
  rfl

theorem kickToggleState_compat : kickToggleState rem.compat = (kickToggleState rem).compat := by
  have hraw : rem.compat.isRaw = rem.isRaw := protocolIs_compat rem _
  have hcodes : rem.compat.codes = rem.codes := rfl
  unfold kickToggleState
  rw [hcodes, hraw]
  cases rem.codes with
  | none => rfl
  | some codes =>
      rw [apply_ite ConfRemote.compat]
      rfl

theorem kickSerial_compat : kickSerial rem.compat = (kickSerial rem).compat := by
  have hserial : rem.compat.isSerial = rem.isSerial := protocolIs_compat rem _
  unfold kickSerial
  rw [hserial]
  rw [apply_ite ConfRemote.compat]
  rfl

theorem kickMinCodeRepeat_compat :
    kickMinCodeRepeat rem.compat = (kickMinCodeRepeat rem).compat := by
  unfold kickMinCodeRepeat
  rw [apply_ite ConfRemote.compat]
  rfl

/-- The parser leaves the remote with the flag as it leaves the reversed one. -/
theorem postProcess_reverse (hraw : rem.isRaw = false) (hflag : rem.has reverseFlag = true)
    (hnodes : NodesSymmetric rem) :
    postProcess rem = (postProcess (writtenReversed rem)).compat := by
  rw [postProcess, kickReverse_eq_compat rem hraw hflag hnodes, kickRc6_compat,
    kickToggleBit_compat, kickToggleState_compat, kickSerial_compat, kickMinCodeRepeat_compat,
    postProcess, kickReverse_writtenReversed]

end Parser

/-! ### Sending -/

/-- The remote with the flag `COMPAT_REVERSE`. -/
def IrRemote.compat (r : IrRemote) : IrRemote := { r with flags := r.flags ||| compatReverse }

section Sending

variable (r : IrRemote)

theorem IrRemote.protocolIs_compat (p : ℕ) : r.compat.protocolIs p = r.protocolIs p := by
  have hmask : (r.flags ||| compatReverse) &&& protocolMask = r.flags &&& protocolMask := by
    rw [Nat.and_or_distrib_right]
    exact Nat.or_zero _
  show ((r.flags ||| compatReverse) &&& protocolMask == p) = _
  rw [hmask]
  rfl

theorem IrRemote.has_compat {f : ℕ} (hf : compatReverse &&& f = 0) : r.compat.has f = r.has f := by
  show ((r.flags ||| compatReverse) &&& f != 0) = _
  rw [Nat.and_or_distrib_right, hf, Nat.or_zero]
  rfl

theorem isRaw_compat : isRaw r.compat = isRaw r := r.protocolIs_compat _

theorem isRcmm_compat : isRcmm r.compat = isRcmm r := r.protocolIs_compat _

theorem isXmp_compat : isXmp r.compat = isXmp r := r.protocolIs_compat _

theorem isSpaceFirst_compat : isSpaceFirst r.compat = isSpaceFirst r := r.protocolIs_compat _

theorem isBiphase_compat : isBiphase r.compat = isBiphase r := by
  have h5 : isRc5 r.compat = isRc5 r := r.protocolIs_compat _
  have h6 : isRc6 r.compat = isRc6 r := congrArg (· || r.rc6Mask != 0) (r.protocolIs_compat rc6)
  rw [isBiphase, isBiphase, h5, h6]

theorem isConst_compat : isConst r.compat = isConst r := r.has_compat (by decide)

theorem cannotSend_compat : cannotSend r.compat = cannotSend r := by
  have hgrundig : isGrundig r.compat = isGrundig r := r.protocolIs_compat _
  have hgoldstar : isGoldstar r.compat = isGoldstar r := r.protocolIs_compat _
  have hserial : isSerial r.compat = isSerial r := r.protocolIs_compat _
  have hbo : isBo r.compat = isBo r := r.protocolIs_compat _
  rw [cannotSend, cannotSend, hgrundig, hgoldstar, hserial, hbo]

theorem sendRcmmLoop_compat (n : ℕ) (data : IrCode) (b : SBuf) :
    sendRcmmLoop r.compat n data b = sendRcmmLoop r n data b := by
  induction n generalizing data b with
  | zero => rfl
  | succ n ih => exact ih _ _

theorem sendXmpLoop_compat (n : ℕ) (data : IrCode) (b : SBuf) :
    sendXmpLoop r.compat n data b = sendXmpLoop r n data b := by
  induction n generalizing data b with
  | zero => rfl
  | succ n ih => exact ih _ _

theorem sendBitLoop_compat (n : ℕ) (data mask : IrCode) (b : SBuf) :
    sendBitLoop r.compat n data mask b = sendBitLoop r n data mask b := by
  have hone : ∀ mask b, sendOne r.compat mask b = sendOne r mask b := by
    intro mask b
    rw [sendOne, isBiphase_compat, isSpaceFirst_compat]
    rfl
  have hzero : ∀ mask b, sendZero r.compat mask b = sendZero r mask b := by
    intro mask b
    rw [sendZero, isSpaceFirst_compat]
    rfl
  induction n generalizing data mask b with
  | zero => rfl
  | succ n ih =>
      rw [sendBitLoop, ih, hone, hzero]
      rfl

theorem sendData_compat (data : IrCode) (bits done : ℕ) (b : SBuf) :
    sendData r.compat data bits done b = sendData r data bits done b := by
  rw [sendData, isRcmm_compat, isXmp_compat, sendRcmmLoop_compat, sendXmpLoop_compat,
    sendBitLoop_compat]
  rfl

theorem sendCode_compat (code : IrCode) (rep : Bool) (b : SBuf) :
    sendCode r.compat code rep b = sendCode r code rep b := by
  have hpre : ∀ b, sendPre r.compat b = sendPre r b := by
    intro b
    rw [sendPre, sendData_compat]
    rfl
  have hpost : ∀ b, sendPost r.compat b = sendPost r b := by
    intro b
    rw [sendPost, sendData_compat]
    rfl
  rw [sendCode, r.has_compat (by decide), r.has_compat (by decide), r.has_compat (by decide), hpre,
    hpost, sendData_compat]
  rfl

theorem buildFrame_compat (code : IrNcode) (sim rep : Bool) (b : SBuf) (tx : TxState) :
    buildFrame r.compat code sim rep b tx = buildFrame r code sim rep b tx := by
  have hcode : sendCode (r.compat.withToggle tx.toggleMaskState)
      (nextCode code sim tx.transmitState) rep b =
      sendCode (r.withToggle tx.toggleMaskState) (nextCode code sim tx.transmitState) rep b :=
    sendCode_compat (r.withToggle tx.toggleMaskState) _ rep b
  rw [buildFrame, hcode, isRaw_compat, r.has_compat (by decide)]
  rfl

theorem initSendLoop_compat (code : IrNcode) (sim : Bool) (fuel : ℕ) (rep : Bool) (b : SBuf)
    (tx : TxState) (frames : List Frame) :
    initSendLoop r.compat code sim fuel rep b tx frames =
      initSendLoop r code sim fuel rep b tx frames := by
  have hgap : ∀ rep sum, remainingGap r.compat rep sum = remainingGap r rep sum := by
    intro rep sum
    rw [remainingGap, isConst_compat]
    rfl
  have hnext : ∀ ts, nextTransmitState r.compat code ts = nextTransmitState r code ts := by
    intro ts
    unfold nextTransmitState
    rw [isXmp_compat]
  induction fuel generalizing rep b tx frames with
  | zero => rfl
  | succ fuel ih =>
      simp only [initSendLoop, buildFrame_compat, hgap, hnext, ih]
      rfl

/-- Both remotes transmit the same. -/
theorem initSend_compat (code : IrNcode) (rep : Bool) (b : SBuf) (fuel : ℕ) :
    initSend r.compat code rep b fuel = initSend r code rep b fuel := by
  rw [initSend, initSendOrSim, cannotSend_compat, isBiphase_compat, initSendLoop_compat]
  rfl

end Sending

/-! ### Receiving -/

section Receiving

variable (r : IrRemote)

theorem genIrCode_compat (pre code post : IrCode) :
    genIrCode r.compat pre code post = genIrCode r pre code post := by
  rw [genIrCode, isRaw_compat]
  rfl

theorem findBeginning_compat (all : IrCode) (code : IrNcode) (search : List IrCode) :
    findBeginning r.compat all code search = findBeginning r all code search := by
  induction search with
  | nil => rfl
  | cons n search ih =>
      simp only [findBeginning, genIrCode_compat, ih]
      rfl

theorem matchCodes_compat (all : IrCode) (i : ℕ) (codes : List IrNcode) (found : Option ℕ)
    (haveCode : Bool) :
    matchCodes r.compat all i codes found haveCode = matchCodes r all i codes found haveCode := by
  have hmatch : ∀ code, matchNcode r.compat all code = matchNcode r all code := by
    intro code
    rw [matchNcode, genIrCode_compat, findBeginning_compat]
    rfl
  induction codes generalizing i found haveCode with
  | nil => rfl
  | cons code codes ih => simp only [matchCodes, hmatch, ih]

theorem untoggleLoop_compat (n bit : ℕ) (mask : IrCode) (x : Received) :
    untoggleLoop r.compat n bit mask x = untoggleLoop r n bit mask x := by
  induction n generalizing bit mask x with
  | zero => rfl
  | succ n ih => exact ih _ _ _

theorem foundCode_compat (all : IrCode) (c : ℕ) :
    foundCode r.compat all c = ((foundCode r all c).1, (foundCode r all c).2.compat) := by
  rw [foundCode, foundCode]
  show (if !hasToggleMask r then _ else if !toggleOdd r then _ else if r.toggleCode = some c then _
    else _) = _
  split
  · rfl
  · split
    · rfl
    · split
      · rfl
      · rfl

theorem getCode_compat (x : Received) :
    getCode r.compat x = ((getCode r x).1, (getCode r x).2.compat) := by
  have huntoggle : untoggle r.compat x = untoggle r x := by
    rw [untoggle, untoggleLoop_compat]
    rfl
  have hframe : frameMatches r.compat (untoggle r x) = frameMatches r (untoggle r x) := rfl
  rw [getCode, getCode, huntoggle, hframe]
  simp only [genIrCode_compat, matchCodes_compat]
  cases frameMatches r (untoggle r x) with
  | false => rfl
  | true =>
      have hcodes : r.compat.codes = r.codes := rfl
      rw [hcodes]
      generalize matchCodes r _ 0 r.codes none false = matched
      obtain ⟨codes, _ | c⟩ := matched
      · rfl
      · exact foundCode_compat { r with codes := codes } _ c

theorem countFrame_compat (c : ℕ) (code : IrNcode) (state : IrCode) (same repeatFlag : Bool)
    (now : ℕ) :
    countFrame r.compat c code state same repeatFlag now =
      (countFrame r c code state same repeatFlag now).compat := by
  have hrepeated : ∀ r : IrRemote, countRepeated r.compat code = (countRepeated r code).compat := by
    intro r
    rw [countRepeated, countRepeated, apply_ite IrRemote.compat, apply_ite IrRemote.compat,
      apply_ite IrRemote.compat]
    rfl
  have hmask : ∀ r : IrRemote, startToggleMask r.compat c = (startToggleMask r c).compat := by
    intro r
    rw [startToggleMask, startToggleMask, apply_ite IrRemote.compat]
    rfl
  have hbits : ∀ r : IrRemote, storeToggleBits r.compat state = (storeToggleBits r state).compat := by
    intro r
    rw [storeToggleBits, storeToggleBits, apply_ite IrRemote.compat]
    rfl
  have hstart : ∀ r : IrRemote, startPress r.compat c code state =
      (startPress r c code state).compat := by
    intro r
    rw [startPress, startPress, ← hbits, ← hmask]
    rfl
  rw [countFrame, countFrame, apply_ite IrRemote.compat, ← hrepeated, ← hstart]
  rfl

theorem setCode_compat (c : ℕ) (state : IrCode) (same repeatFlag : Bool) (gmin gmax : ℤ) (now : ℕ) :
    setCode r.compat c state same repeatFlag gmin gmax now =
      (setCode r c state same repeatFlag gmin gmax now).compat := by
  unfold setCode
  have hcodes : r.compat.codes = r.codes := rfl
  rw [hcodes]
  cases r.codes[c]? with
  | none => rfl
  | some code =>
      simp only [countFrame_compat]
      rfl

theorem reportCode_compat (c : ℕ) :
    reportCode r.compat c = ((reportCode r c).1, (reportCode r c).2.compat) := by
  have hreps : ∀ code, reportedReps r.compat code = reportedReps r code := fun _ => rfl
  have hexpect : ∀ r : IrRemote, expectNext r.compat c = (expectNext r c).compat := by
    intro r
    rw [expectNext, expectNext, isXmp_compat, apply_ite IrRemote.compat]
    rfl
  have hcodes : r.compat.codes = r.codes := rfl
  unfold reportCode
  rw [hcodes]
  cases r.codes[c]? with
  | none => rfl
  | some code =>
      have hincomplete : incomplete r.compat code = incomplete r code := rfl
      have hreset : resetCurrents r.compat = (resetCurrents r).compat := rfl
      simp only [hincomplete, hreset, hexpect, hreps]
      cases incomplete r code with
      | false => rfl
      | true => rfl

/-- Both remotes find the same in a frame and go on in the same way. -/
theorem decodeFrame_compat (x : Decoded) (same : Bool) (now : ℕ) :
    decodeFrame r.compat x same now =
      ((decodeFrame r x same now).1, (decodeFrame r x same now).2.compat) := by
  unfold decodeFrame
  rw [getCode_compat]
  obtain ⟨_ | ⟨c, state⟩, r'⟩ := getCode r ⟨x.pre, x.code, x.post⟩
  · rfl
  · simp only [setCode_compat, reportCode_compat]

end Receiving

/-! ### Whole configurations -/

/-- A frame as the driver decodes it, whether the remote was the last one that was
decoded, and the time. -/
structure FrameEvent where
  frame : Decoded
  same : Bool
  now : ℕ

/-- The buttons that `get_code` identifies in a series of frames. -/
def identified (r : IrRemote) : List FrameEvent → List (Option (ℕ × IrCode))
  | [] => []
  | e :: es =>
      (getCode r ⟨e.frame.pre, e.frame.code, e.frame.post⟩).1 ::
        identified (decodeFrame r e.frame e.same e.now).2 es

theorem identified_compat (r : IrRemote) (es : List FrameEvent) :
    identified r.compat es = identified r es := by
  induction es generalizing r with
  | nil => rfl
  | cons e es ih => rw [identified, identified, getCode_compat, decodeFrame_compat, ih]

/-- The state that transmissions leave in a remote. -/
structure SendState where
  toggleBitMaskState : IrCode
  toggleMaskState : ℤ
  repeatCountdown : ℤ
  minRemainingGap : ℤ
  maxRemainingGap : ℤ

def SendState.put (s : SendState) (r : IrRemote) : IrRemote :=
  { r with
    toggleBitMaskState := s.toggleBitMaskState
    toggleMaskState := s.toggleMaskState
    repeatCountdown := s.repeatCountdown
    minRemainingGap := s.minRemainingGap
    maxRemainingGap := s.maxRemainingGap }

/-- The two codes send the same code words in the same waveforms at the place `k`
of their sequences, in every state of their remotes. -/
def SendAlike (r r' : IrRemote) (code code' : IrNcode) (k : ℕ) : Prop :=
  nextCode code false (code.next.drop k) = nextCode code' false (code'.next.drop k) ∧
    ∀ (s : SendState) (rep : Bool) (b : SBuf) (fuel : ℕ),
      (initSend (s.put r) { code with transmitState := code.next.drop k } rep b fuel).map
          (fun out => (out.ok, out.buf, out.frames)) =
        (initSend (s.put r') { code' with transmitState := code'.next.drop k } rep b fuel).map
          fun out => (out.ok, out.buf, out.frames)

/-- Two remotes send the same for every button and at every place of its sequence,
and they identify the same buttons in every series of frames. -/
def ActAlike (r r' : IrRemote) : Prop :=
  (∀ (c k : ℕ) (code code' : IrNcode), r.codes[c]? = some code → r'.codes[c]? = some code' →
    SendAlike r r' code code' k) ∧
  ∀ es : List FrameEvent, identified r es = identified r' es

theorem actAlike_compat (r : IrRemote) : ActAlike r.compat r := by
  refine ⟨?_, identified_compat r⟩
  intro c k code code' hcode hcode'
  have hcodes : r.compat.codes = r.codes := rfl
  rw [hcodes, hcode'] at hcode
  obtain rfl := Option.some.inj hcode
  exact ⟨rfl, fun s rep b fuel => congrArg _ (initSend_compat (s.put r) _ rep b fuel)⟩

/-- The code that is due behind `k` codes of a sequence is the next one of them. -/
theorem nextCode_drop {code : IrNcode} {k : ℕ} {n : IrCode} (h : code.next[k]? = some n) :
    nextCode code false (code.next.drop k) = n := by
  obtain ⟨hlt, hn⟩ := List.getElem?_eq_some_iff.mp h
  rw [nextCode, if_neg Bool.false_ne_true, List.drop_eq_getElem_cons hlt, List.headD_cons, hn]

/-- A remote with the flag `REVERSE` acts like the remote written in reverse exactly
if the further codes of its sequences read the same in both directions. -/
theorem reverse_actAlike_iff (rem : ConfRemote) (hraw : rem.isRaw = false)
    (hflag : rem.has reverseFlag = true) :
    ActAlike (postProcess rem).toRemote (postProcess (writtenReversed rem)).toRemote ↔
      NodesSymmetric rem := by
  constructor
  · rintro ⟨hsend, -⟩ codes hcodes code hcode n hn
    obtain ⟨c, hc⟩ := List.getElem?_of_mem hcode
    obtain ⟨k, hk⟩ := List.getElem?_of_mem hn
    -- the same place of the sequence in both remotes
    have hfirst : (postProcess rem).toRemote.codes[c]? =
        some { code with code := reverse code.code rem.bits.toNat } := by
      show ((postProcess rem).codes.getD [])[c]? = _
      rw [postProcess_codes_eq, kickReverse, if_pos ⟨by rw [hraw]; rfl, hflag⟩, hcodes]
      show (codes.map _)[c]? = _
      rw [List.getElem?_map, hc]
      rfl
    have hsecond : (postProcess (writtenReversed rem)).toRemote.codes[c]? =
        some { code with
          code := reverse code.code rem.bits.toNat
          next := code.next.map (reverse · rem.bits.toNat) } := by
      show ((postProcess (writtenReversed rem)).codes.getD [])[c]? = _
      rw [postProcess_codes_eq, kickReverse_writtenReversed, writtenReversed, hcodes]
      show (codes.map _)[c]? = _
      rw [List.getElem?_map, hc]
      rfl
    have hsame := (hsend c k _ _ hfirst hsecond).1
    have hreversed : (code.next.map (reverse · rem.bits.toNat))[k]? =
        some (reverse n rem.bits.toNat) := by
      rw [List.getElem?_map, hk]
      rfl
    have hplain : nextCode { code with code := reverse code.code rem.bits.toNat } false
        (code.next.drop k) = n := nextCode_drop hk
    exact (hplain.symm.trans (hsame.trans (nextCode_drop hreversed))).symm
  · intro hnodes
    rw [postProcess_reverse rem hraw hflag hnodes]
    exact actAlike_compat (postProcess (writtenReversed rem)).toRemote

/-- A reversed remote with one button, a sequence of two codes. -/
def reversedRemote (node : IrCode) : ConfRemote where
  name := some "tv".toList
  codes := some [{ name := "ok".toList, code := 1, next := [node] }]
  bits := 2
  flags := spaceEnc ||| reverseFlag
  pone := 500
  sone := 1500
  pzero := 500
  szero := 500
  ptrail := 500
  gap := 100000

/-- The second code is 3, the reverse of 3. -/
theorem reverse_actAlike_symmetric :
    ActAlike (postProcess (reversedRemote 3)).toRemote
      (postProcess (writtenReversed (reversedRemote 3))).toRemote := by
  refine (reverse_actAlike_iff (reversedRemote 3) (by decide) (by decide)).mpr ?_
  intro codes hcodes c hc n hn
  cases hcodes
  rw [List.mem_singleton] at hc
  subst hc
  rw [List.mem_singleton] at hn
  subst hn
  decide

/-- The frames 0 and 2. -/
def reversedFrames : List FrameEvent :=
  [⟨⟨0, 0, 0, false, 0, 0⟩, false, 0⟩, ⟨⟨0, 2, 0, false, 0, 0⟩, true, 0⟩]

/-- The codes 0 and 1, reversed 0 and 2: the remote with the flag does not know
the second frame. -/
theorem reverse_not_actAlike :
    ¬ ∀ rem : ConfRemote, rem.isRaw = false → rem.has reverseFlag = true →
      ActAlike (postProcess rem).toRemote (postProcess (writtenReversed rem)).toRemote := by
  intro h
  have halike := h { reversedRemote 1 with
    codes := some [{ name := "ok".toList, code := 0, next := [1] }] } (by decide) (by decide)
  have hsame := halike.2 reversedFrames
  revert hsame
  decide +kernel

end Lirc
