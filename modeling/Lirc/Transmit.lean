import Lirc.Remote

/-!
`transmit.c`: the send buffer and the construction of a waveform.

`data` tells whether the samples are read from the buffer's own array or
from the signal list of a raw code; `wptr` counts them in either case.
-/

namespace Lirc

def wbufSize : ℕ := 256

/-- `LIRCD_EXACT_GAP_THRESHOLD` -/
def exactGapThreshold : ℤ := 10000

/-- What `send_buffer.data` points to. -/
inductive DataPtr
  | null
  | own
  | signals (l : List ℤ)
  deriving DecidableEq, Repr, Inhabited

/-- `struct sbuf`; `arr` is `_data`. -/
structure SBuf where
  data : DataPtr := .null
  arr : Vector ℤ wbufSize := Vector.replicate wbufSize 0
  wptr : ℕ := 0
  tooLong : Bool := false
  isBiphase : Bool := false
  pendingp : ℤ := 0
  pendings : ℤ := 0
  sum : ℤ := 0
  deriving DecidableEq, Repr, Inhabited

/-- `init_send_buffer` -/
def initSendBuffer : SBuf := {}

/-- The samples a driver reads: `data[0..wptr)`. -/
def SBuf.samples (b : SBuf) : List ℤ :=
  match b.data with
  | .null => []
  | .own => b.arr.toList.take b.wptr
  | .signals l => l.take b.wptr

def clearSendBuffer (b : SBuf) : SBuf :=
  { b with wptr := 0, tooLong := false, isBiphase := false, pendingp := 0, pendings := 0,
           sum := 0 }

def addSendBuffer (b : SBuf) (data : ℤ) : SBuf :=
  if h : b.wptr < wbufSize then
    { b with sum := b.sum + data, arr := b.arr.set b.wptr data h, wptr := b.wptr + 1 }
  else { b with tooLong := true }

def sendPulse (b : SBuf) (data : ℤ) : SBuf :=
  if 0 < b.pendingp then { b with pendingp := b.pendingp + data }
  else
    let b := if 0 < b.pendings then { addSendBuffer b b.pendings with pendings := 0 } else b
    { b with pendingp := data }

def sendSpace (b : SBuf) (data : ℤ) : SBuf :=
  -- a signal does not start with a space
  if b.wptr = 0 ∧ b.pendingp = 0 then b
  else if 0 < b.pendings then { b with pendings := b.pendings + data }
  else
    let b := if 0 < b.pendingp then { addSendBuffer b b.pendingp with pendingp := 0 } else b
    { b with pendings := data }

def badSendBuffer (b : SBuf) : Bool :=
  b.tooLong || (b.wptr == wbufSize && 0 < b.pendingp)

def checkSendBuffer (b : SBuf) : Bool :=
  b.wptr != 0 && (List.range b.wptr).all fun i => b.samples.getD i 0 != 0

def flushSendBuffer (b : SBuf) : SBuf :=
  let b := if 0 < b.pendingp then { addSendBuffer b b.pendingp with pendingp := 0 } else b
  if 0 < b.pendings then { addSendBuffer b b.pendings with pendings := 0 } else b

def syncSendBuffer (b : SBuf) : SBuf :=
  let b := if 0 < b.pendingp then { addSendBuffer b b.pendingp with pendingp := 0 } else b
  if 0 < b.wptr ∧ b.wptr % 2 = 0 then { b with wptr := b.wptr - 1 } else b

/-! ### The parts of a signal -/

section Parts

variable (r : IrRemote)

def sendHeader (b : SBuf) : SBuf :=
  if hasHeader r then sendSpace (sendPulse b r.phead) r.shead else b

def sendFoot (b : SBuf) : SBuf :=
  if hasFoot r then sendPulse (sendSpace b r.sfoot) r.pfoot else b

def sendLead (b : SBuf) : SBuf := if r.plead ≠ 0 then sendPulse b r.plead else b

def sendTrail (b : SBuf) : SBuf := if r.ptrail ≠ 0 then sendPulse b r.ptrail else b

/-- One two-bit symbol of an RC-MM signal; 2 and 1 are swapped by `reverse`. -/
def sendRcmmSymbol (data : IrCode) (b : SBuf) : SBuf :=
  match (data &&& 3).toNat with
  | 0 => sendSpace (sendPulse b r.pzero) r.szero
  | 2 => sendSpace (sendPulse b r.pone) r.sone
  | 1 => sendSpace (sendPulse b r.ptwo) r.stwo
  | _ => sendSpace (sendPulse b r.pthree) r.sthree

def sendRcmmLoop : ℕ → IrCode → SBuf → SBuf
  | 0, _, b => b
  | n + 1, data, b => sendRcmmLoop n (data >>> 2) (sendRcmmSymbol r data b)

def sendXmpLoop : ℕ → IrCode → SBuf → SBuf
  | 0, _, b => b
  | n + 1, data, b =>
      let nibble := reverse (data &&& 0xf) 4
      sendXmpLoop n (data >>> 4)
        (sendSpace (sendPulse b r.pzero) (r.szero + nibble.toNat * r.sone))

/-- The lowest bit of `data` after the toggle masks have been applied. -/
def toggledData (mask data : IrCode) : IrCode :=
  let data :=
    if hasToggleBitMask r && mask &&& r.toggleBitMask != 0 then
      if bitsSet r.toggleBitMask == 1 then
        -- backwards compatibility
        let data := data &&& ~~~1
        if r.toggleBitMaskState &&& mask != 0 then data ||| 1 else data
      else if r.toggleBitMaskState &&& mask != 0 then data ^^^ 1 else data
    else data
  if hasToggleMask r && mask &&& r.toggleMask != 0 && r.toggleMaskState.tmod 2 != 0 then
    data ^^^ 1
  else data

def sendOne (mask : IrCode) (b : SBuf) : SBuf :=
  if isBiphase r then
    if mask &&& r.rc6Mask != 0 then sendPulse (sendSpace b (2 * r.sone)) (2 * r.pone)
    else sendPulse (sendSpace b r.sone) r.pone
  else if isSpaceFirst r then sendPulse (sendSpace b r.sone) r.pone
  else sendSpace (sendPulse b r.pone) r.sone

def sendZero (mask : IrCode) (b : SBuf) : SBuf :=
  if mask &&& r.rc6Mask != 0 then sendSpace (sendPulse b (2 * r.pzero)) (2 * r.szero)
  else if isSpaceFirst r then sendPulse (sendSpace b r.szero) r.pzero
  else sendSpace (sendPulse b r.pzero) r.szero

def sendBitLoop : ℕ → IrCode → IrCode → SBuf → SBuf
  | 0, _, _, b => b
  | n + 1, data, mask, b =>
      let data := toggledData r mask data
      let b := if data &&& 1 != 0 then sendOne r mask b else sendZero r mask b
      sendBitLoop n (data >>> 1) (mask >>> 1) b

/-- `send_data` -/
def sendData (data : IrCode) (bits done : ℕ) (b : SBuf) : SBuf :=
  let data := reverse data bits
  if isRcmm r then
    if bits % 2 ≠ 0 ∨ done % 2 ≠ 0 then b else sendRcmmLoop r (bits / 2) data b
  else if isXmp r then
    if bits % 4 ≠ 0 ∨ done % 4 ≠ 0 then b else sendXmpLoop r (bits / 4) data b
  else sendBitLoop r bits data ((1 : IrCode) <<< (bitCount r - 1 - done)) b

def sendPre (b : SBuf) : SBuf :=
  if hasPre r then
    let b := sendData r r.preData r.preDataBits 0 b
    if 0 < r.preP ∧ 0 < r.preS then sendSpace (sendPulse b r.preP) r.preS else b
  else b

def sendPost (b : SBuf) : SBuf :=
  if hasPost r then
    let b := if 0 < r.postP ∧ 0 < r.postS then sendSpace (sendPulse b r.postP) r.postS else b
    sendData r r.postData r.postDataBits (r.preDataBits + r.bits) b
  else b

/-- `send_repeat` -/
def sendRepeat (b : SBuf) : SBuf :=
  sendTrail r (sendSpace (sendPulse (sendLead r b) r.prepeat) r.srepeat)

/-- `send_code` -/
def sendCode (code : IrCode) (rep : Bool) (b : SBuf) : SBuf :=
  let b := if !rep || !r.has noHeadRep then sendHeader r b else b
  let b := sendLead r b
  let b := sendPre r b
  let b := sendData r code r.bits r.preDataBits b
  let b := sendPost r b
  let b := sendTrail r b
  let b := if !rep || !r.has noFootRep then sendFoot r b else b
  if !rep && r.has noHeadRep && r.has constLength then
    { b with sum := b.sum - (r.phead + r.shead) }
  else b

end Parts

/-- `send_signals` -/
def sendSignals (b : SBuf) (signals : List ℤ) : SBuf := signals.foldl addSendBuffer b

/-! ### `init_send_or_sim` -/

/-- The fields of the remote and of the code that a transmission changes. -/
structure TxState where
  repeatCountdown : ℤ
  toggleMaskState : ℤ
  minRemainingGap : ℤ
  maxRemainingGap : ℤ
  transmitState : List IrCode
  deriving DecidableEq, Repr, Inhabited

/-- One frame of a waveform: which code of the sequence was due (0 is
`code->code`), and whether it was sent as the remote's repeat code. -/
structure Frame where
  node : ℕ
  isRepeat : Bool
  deriving DecidableEq, Repr, Inhabited

/-- What `init_send_or_sim` leaves behind, with the frames it has put into
the buffer. -/
structure SendOut where
  ok : Bool
  buf : SBuf
  tx : TxState
  frames : List Frame
  deriving DecidableEq, Repr, Inhabited

/-- The code of the sequence that is due next. -/
def nextCode (code : IrNcode) (sim : Bool) (ts : List IrCode) : IrCode :=
  if sim then code.code else ts.headD code.code

/-- The position of that code in the sequence. -/
def nextNode (code : IrNcode) (ts : List IrCode) : ℕ :=
  match ts with
  | [] => 0
  | _ :: rest => code.next.length - rest.length

/-- The update of `transmit_state` after a frame. -/
def nextTransmitState (r : IrRemote) (code : IrNcode) (ts : List IrCode) : List IrCode :=
  if code.next = [] then ts
  else
    match ts with
    | [] => code.next
    | _ :: rest => if isXmp r && rest.isEmpty then code.next else rest

/-- The remaining gap after a frame; `none` is the "too short gap" error. -/
def remainingGap (r : IrRemote) (rep : Bool) (sum : ℤ) : Option (ℤ × ℤ) :=
  if hasRepeatGap r && rep && hasRepeat r then some (r.repeatGap, r.repeatGap)
  else if isConst r then
    if sum < minGap r then some (minGap r - sum, maxGap r - sum) else none
  else some (minGap r, maxGap r)

/-- `remote->toggle_mask_state = state` -/
def IrRemote.withToggle (r : IrRemote) (state : ℤ) : IrRemote :=
  { r with toggleMaskState := state }

/-- The first part of the loop body: one frame goes into the buffer.
`none` is a raw code without signals. -/
def buildFrame (r : IrRemote) (code : IrNcode) (sim rep : Bool) (b : SBuf) (tx : TxState) :
    Option (SBuf × TxState) :=
  if rep && hasRepeat r then
    let b := if r.has repeatHeader && hasHeader r then sendHeader r b else b
    some (sendRepeat r b, tx)
  else if !isRaw r then
    let b := sendCode (r.withToggle tx.toggleMaskState) (nextCode code sim tx.transmitState) rep b
    let tx :=
      if !sim && hasToggleMask r then
        { tx with toggleMaskState :=
            if tx.toggleMaskState + 1 = 4 then 2 else tx.toggleMaskState + 1 }
      else tx
    some ({ b with data := .own }, tx)
  else
    match code.signals with
    | none => none
    | some signals =>
        if 0 < b.wptr then some (sendSignals b signals, tx)
        else
          some ({ b with data := .signals signals, wptr := signals.length,
                         sum := b.sum + signals.sum }, tx)

/-- Raw signals are copied into the buffer before more frames follow. -/
def unrollRaw (b : SBuf) : SBuf :=
  if b.data = .own then b
  else sendSignals { b with data := .own, wptr := 0 } b.samples

/-- From `init_send_loop` on. Each unit of fuel is one pass through the
loop; `none` is a loop that has not ended yet. -/
def initSendLoop (r : IrRemote) (code : IrNcode) (sim : Bool) :
    ℕ → Bool → SBuf → TxState → List Frame → Option SendOut
  | 0, _, _, _, _ => none
  | fuel + 1, rep, b, tx, frames =>
      match buildFrame r code sim rep b tx with
      | none => some ⟨false, b, tx, frames⟩
      | some (b', tx') =>
          let b' := syncSendBuffer b'
          let frames' :=
            frames ++ [⟨nextNode code tx.transmitState, rep && hasRepeat r⟩]
          if badSendBuffer b' then some ⟨false, b', tx', frames'⟩
          else if sim then some ⟨checkSendBuffer b', b', tx', frames'⟩
          else
            match remainingGap r rep b'.sum with
            | none =>
                some ⟨false, b', { tx' with minRemainingGap := minGap r,
                                            maxRemainingGap := maxGap r }, frames'⟩
            | some (gmin, gmax) =>
                let ts := nextTransmitState r code tx'.transmitState
                let tx' := { tx' with minRemainingGap := gmin, maxRemainingGap := gmax,
                                      transmitState := ts }
                if (0 < tx'.repeatCountdown ∨ ts ≠ []) ∧ gmin < exactGapThreshold then
                  let b' := unrollRaw b'
                  let tx' :=
                    if code.next = [] ∨ ts = [] then
                      { tx' with repeatCountdown := tx'.repeatCountdown - 1 }
                    else tx'
                  let b' := { flushSendBuffer (sendSpace b' gmin) with sum := 0 }
                  initSendLoop r code sim fuel true b' tx' frames'
                else some ⟨checkSendBuffer b', b', tx', frames'⟩

/-- The protocols that cannot be sent. -/
def cannotSend (r : IrRemote) : Bool := isGrundig r || isGoldstar r || isSerial r || isBo r

/-- `init_send_or_sim`; `repeating` is `repeat_remote != NULL`. -/
def initSendOrSim (r : IrRemote) (code : IrNcode) (sim repeatPreset repeating : Bool)
    (b : SBuf) (fuel : ℕ) : Option SendOut :=
  let tx : TxState :=
    ⟨r.repeatCountdown, r.toggleMaskState, r.minRemainingGap, r.maxRemainingGap,
      code.transmitState⟩
  if cannotSend r then some ⟨false, b, tx, []⟩
  else
    let b := { clearSendBuffer b with isBiphase := isBiphase r }
    let tx := if !sim && !repeating then { tx with repeatCountdown := r.minRepeat } else tx
    let rep := if sim then repeatPreset else repeating
    initSendLoop r code sim fuel rep b tx []

/-- `init_send` -/
def initSend (r : IrRemote) (code : IrNcode) (repeating : Bool) (b : SBuf) (fuel : ℕ) :
    Option SendOut :=
  initSendOrSim r code false false repeating b fuel

/-- `init_sim` -/
def initSim (r : IrRemote) (code : IrNcode) (repeatPreset : Bool) (b : SBuf) : Option SendOut :=
  initSendOrSim r code true repeatPreset false b 1

end Lirc
