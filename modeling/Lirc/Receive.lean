import Mathlib
import Lirc.Remote

/-!
`receive.c`: the receive buffer and the decoder.

A sample is the word the driver delivers: the pulse bit and a length in
the low 24 bits. `data` holds `data[0..wptr)`, and `input` is what
`hw.readdata` will return, call by call. A zero is a read that timed out,
and after the last entry every read times out.
-/

namespace Lirc

def rbufSize : ℕ := 512
def recSync : ℕ := 8
def minReceiveTimeout : ℤ := 100000

def pulseBit : ℕ := 0x01000000
def pulseMask : ℕ := 0x00FFFFFF
def mode2Mask : ℕ := 0xFF000000
def mode2Timeout : ℕ := 0x03000000

/-- `struct rbuf` together with the samples still to come. -/
structure RBuf where
  data : List ℕ := []
  input : List ℕ := []
  decoded : IrCode := 0
  rptr : ℕ := 0
  tooLong : Bool := false
  isBiphase : Bool := false
  pendingp : ℤ := 0
  pendings : ℤ := 0
  sum : ℤ := 0
  deriving DecidableEq, Repr, Inhabited

def isPulse (w : ℕ) : Bool := w &&& pulseBit != 0
def isSpace (w : ℕ) : Bool := !isPulse w

/-- `data & PULSE_MASK` -/
def sampleValue (w : ℕ) : ℤ := (w &&& pulseMask : ℕ)

def isTimeout (w : ℕ) : Bool := w &&& mode2Mask == mode2Timeout

def receiveTimeout (usec : ℤ) : ℤ :=
  if 2 * usec < minReceiveTimeout then minReceiveTimeout else 2 * usec

/-- The calls of `hw.readdata` for one new sample; a time-out report of the
driver shortens the time that is left. -/
def readNew (maxusec : ℤ) : List ℕ → ℕ × List ℕ
  | [] => (0, [])
  | w :: rest =>
      if w = 0 then (0, rest)
      else if isTimeout w then
        if sampleValue w < maxusec then readNew (maxusec - sampleValue w) rest else (0, rest)
      else (w, rest)

/-- `get_next_rec_buffer_internal` -/
def getNextRecBufferInternal (b : RBuf) (maxusec : ℤ) : ℕ × RBuf :=
  match b.data[b.rptr]? with
  | some w => (w, { b with sum := b.sum + sampleValue w, rptr := b.rptr + 1 })
  | none =>
      if b.data.length < rbufSize then
        match readNew maxusec b.input with
        | (0, rest) => (0, { b with input := rest })
        | (w + 1, rest) =>
            (w + 1, { b with data := b.data ++ [w + 1], input := rest,
                             sum := b.sum + sampleValue (w + 1), rptr := b.rptr + 1 })
      else (0, { b with tooLong := true })

def getNextRecBuffer (b : RBuf) (maxusec : ℤ) : ℕ × RBuf :=
  getNextRecBufferInternal b (receiveTimeout maxusec)

def rewindRecBuffer (b : RBuf) : RBuf :=
  { b with rptr := 0, tooLong := false, pendingp := 0, pendings := 0, sum := 0 }

/-- `data[i] & PULSE_MASK` -/
def RBuf.valueAt (b : RBuf) (i : ℕ) : ℤ := sampleValue (b.data.getD i 0)

def ungetRecBuffer (b : RBuf) (count : ℕ) : RBuf :=
  if count = 1 then
    { b with rptr := b.rptr - 1, sum := b.sum - b.valueAt (b.rptr - 1) }
  else if count = 2 then
    { b with rptr := b.rptr - 2,
             sum := b.sum - b.valueAt (b.rptr - 2) - b.valueAt (b.rptr - 2 + 1) }
  else b

def ungetRecBufferDelta (b : RBuf) (delta : ℤ) : RBuf :=
  { b with rptr := b.rptr - 1, sum := b.sum - sampleValue delta.toNat,
           data := b.data.set (b.rptr - 1) delta.toNat }

def getNextPulse (b : RBuf) (maxusec : ℤ) : ℤ × RBuf :=
  let (w, b) := getNextRecBuffer b maxusec
  if w = 0 then (0, b) else if !isPulse w then (0, b) else (sampleValue w, b)

def getNextSpace (b : RBuf) (maxusec : ℤ) : ℤ × RBuf :=
  let (w, b) := getNextRecBuffer b maxusec
  if w = 0 then (0, b) else if !isSpace w then (0, b) else (w, b)

/-! ### Single pulses and spaces -/

section Expect

variable (hw : Hardware) (r : IrRemote)

def syncPendingPulse (b : RBuf) : Bool × RBuf :=
  if 0 < b.pendingp then
    let p := b.pendingp
    let (deltap, b) := getNextPulse b p
    if deltap = 0 then (false, b)
    else if !expect hw r deltap p then (false, b)
    else (true, { b with pendingp := 0 })
  else (true, b)

def syncPendingSpace (b : RBuf) : Bool × RBuf :=
  if 0 < b.pendings then
    let s := b.pendings
    let (deltas, b) := getNextSpace b s
    if deltas = 0 then (false, b)
    else if !expect hw r deltas s then (false, b)
    else (true, { b with pendings := 0 })
  else (true, b)

def expectPulse (b : RBuf) (exdelta : ℤ) : Bool × RBuf :=
  let (ok, b) := syncPendingSpace hw r b
  if !ok then (false, b)
  else
    let (deltap, b) := getNextPulse b (b.pendingp + exdelta)
    if deltap = 0 then (false, b)
    else if 0 < b.pendingp then
      if deltap < b.pendingp then (false, b)
      else if !expect hw r (deltap - b.pendingp) exdelta then (false, b)
      else (true, { b with pendingp := 0 })
    else (expect hw r deltap exdelta, b)

def expectSpace (b : RBuf) (exdelta : ℤ) : Bool × RBuf :=
  let (ok, b) := syncPendingPulse hw r b
  if !ok then (false, b)
  else
    let (deltas, b) := getNextSpace b (b.pendings + exdelta)
    if deltas = 0 then (false, b)
    else if 0 < b.pendings then
      if deltas < b.pendings then (false, b)
      else if !expect hw r (deltas - b.pendings) exdelta then (false, b)
      else (true, { b with pendings := 0 })
    else (expect hw r deltas exdelta, b)

/-- The mask of a bit counted from the first one sent. -/
def bitMask (bit : ℕ) : IrCode := (1 : IrCode) <<< (bitCount r - 1 - bit)

def expectOne (bit : ℕ) (b : RBuf) : Bool × RBuf :=
  if isBiphase r then
    let k : ℤ := if bitMask r bit &&& r.rc6Mask != 0 then 2 else 1
    let (ok, b) := if 0 < r.sone then expectSpace hw r b (k * r.sone) else (true, b)
    if !ok then (false, ungetRecBuffer b 1)
    else (true, { b with pendingp := k * r.pone })
  else if isSpaceFirst r then
    let (ok, b) := if 0 < r.sone then expectSpace hw r b r.sone else (true, b)
    if !ok then (false, ungetRecBuffer b 1)
    else
      let (ok, b) := if 0 < r.pone then expectPulse hw r b r.pone else (true, b)
      if !ok then (false, ungetRecBuffer b 2) else (true, b)
  else
    let (ok, b) := if 0 < r.pone then expectPulse hw r b r.pone else (true, b)
    if !ok then (false, ungetRecBuffer b 1)
    else if 0 < r.ptrail then
      let (ok, b) := if 0 < r.sone then expectSpace hw r b r.sone else (true, b)
      if !ok then (false, ungetRecBuffer b 2) else (true, b)
    else (true, { b with pendings := r.sone })

def expectZero (bit : ℕ) (b : RBuf) : Bool × RBuf :=
  if isBiphase r then
    let k : ℤ := if bitMask r bit &&& r.rc6Mask != 0 then 2 else 1
    let (ok, b) := expectPulse hw r b (k * r.pzero)
    if !ok then (false, ungetRecBuffer b 1)
    else (true, { b with pendings := k * r.szero })
  else if isSpaceFirst r then
    let (ok, b) := if 0 < r.szero then expectSpace hw r b r.szero else (true, b)
    if !ok then (false, ungetRecBuffer b 1)
    else
      let (ok, b) := if 0 < r.pzero then expectPulse hw r b r.pzero else (true, b)
      if !ok then (false, ungetRecBuffer b 2) else (true, b)
  else
    let (ok, b) := expectPulse hw r b r.pzero
    if !ok then (false, ungetRecBuffer b 1)
    else if 0 < r.ptrail then
      let (ok, b) := expectSpace hw r b r.szero
      if !ok then (false, ungetRecBuffer b 2) else (true, b)
    else (true, { b with pendings := r.szero })

end Expect

/-! ### The parts of a signal -/

/-- `last_remote`, seen from the remote that is being tried. -/
inductive LastRemote
  | null
  | same
  | other (l : IrRemote)
  deriving DecidableEq, Repr, Inhabited

def LastRemote.get (r : IrRemote) : LastRemote → Option IrRemote
  | .null => none
  | .same => some r
  | .other l => some l

/-- The loop of `sync_rec_buffer`; the first argument is `REC_SYNC - count`. -/
def syncLoop (hw : Hardware) (l : IrRemote) : ℕ → ℤ → RBuf → ℤ × RBuf
  | n, deltas, b =>
      if expectAtLeast hw l deltas l.minRemainingGap then (deltas, b)
      else
        let (deltap, b) := getNextPulse b 1000000
        if deltap = 0 then (0, b)
        else
          let (deltas, b) := getNextSpace b 1000000
          if deltas = 0 then (0, b)
          else
            match n with
            | 0 => (0, b)
            | n + 1 => syncLoop hw l n deltas b

/-- `sync_rec_buffer` -/
def syncRecBuffer (hw : Hardware) (r : IrRemote) (last : LastRemote) (b : RBuf) :
    ℤ × IrRemote × RBuf :=
  let (deltas, b) := getNextSpace b 1000000
  if deltas = 0 then (0, r, b)
  else
    match last.get r with
    | none => (deltas, r, { b with sum := 0 })
    | some l =>
        if isRcmm r then (deltas, r, { b with sum := 0 })
        else
          let (deltas, b) := syncLoop hw l recSync deltas b
          if deltas = 0 then (0, r, b)
          else
            let r :=
              if hasToggleMask r && !expectAtMost hw l deltas l.maxRemainingGap then
                { r with toggleMaskState := 0, toggleCode := none }
              else r
            (deltas, r, { b with sum := 0 })

section Parts

variable (hw : Hardware) (r : IrRemote)

def getHeaderRcmm (b : RBuf) : Bool × RBuf :=
  let (deltap, b) := getNextPulse b r.phead
  if deltap = 0 then (false, ungetRecBuffer b 1)
  else
    let (deltas, b) := getNextSpace b r.shead
    if deltas = 0 then (false, ungetRecBuffer b 2)
    else if expect hw r (deltap + deltas) (r.phead + r.shead) then (true, b)
    else (false, ungetRecBuffer b 2)

/-- A chain of `expectpulse(..) && expectspace(..) && ...`. -/
def expectPairs : List (ℤ × ℤ) → RBuf → Bool × RBuf
  | [], b => (true, b)
  | (p, s) :: rest, b =>
      let (ok, b) := expectPulse hw r b p
      if !ok then (false, b)
      else
        let (ok, b) := expectSpace hw r b s
        if !ok then (false, b) else expectPairs rest b

/-- `get_header` -/
def getHeader (b : RBuf) : Bool × RBuf :=
  if isRcmm r then getHeaderRcmm hw r b
  else if isBo r then
    expectPairs hw r [(r.pone, r.sone), (r.pone, r.sone), (r.phead, r.shead)] b
  else if r.shead = 0 then
    let (ok, b) := syncPendingSpace hw r b
    if !ok then (false, b) else (true, { b with pendingp := r.phead })
  else
    let (ok, b) := expectPulse hw r b r.phead
    if !ok then (false, ungetRecBuffer b 1)
    else if r.has noHeadRep then
      -- a decision is needed now whether this is a header
      let (deltas, b) := getNextSpace b r.shead
      if deltas ≠ 0 then
        if expect hw r r.shead deltas then (true, b) else (false, ungetRecBuffer b 2)
      else (true, { b with pendings := r.shead })
    else (true, { b with pendings := r.shead })

def getFoot (b : RBuf) : Bool × RBuf :=
  let (ok, b) := expectSpace hw r b r.sfoot
  if !ok then (false, b) else expectPulse hw r b r.pfoot

def getLead (b : RBuf) : Bool × RBuf :=
  if r.plead = 0 then (true, b)
  else
    let (ok, b) := syncPendingSpace hw r b
    if !ok then (false, b) else (true, { b with pendingp := r.plead })

def getTrail (b : RBuf) : Bool × RBuf :=
  let (ok, b) := if r.ptrail ≠ 0 then expectPulse hw r b r.ptrail else (true, b)
  if !ok then (false, b)
  else if 0 < b.pendingp then syncPendingPulse hw r b
  else (true, b)

def getGap (b : RBuf) (gap : ℤ) : Bool × RBuf :=
  let (w, b) := getNextRecBuffer b (gap - (gap * r.eps).tdiv 100)
  if w = 0 then (true, b)
  else if !isSpace w then (false, b)
  else (expectAtLeast hw r w gap, ungetRecBuffer b 1)

/-- The gap expected after the `sum` received so far. -/
def constGap (b : RBuf) : ℤ := if b.sum < minGap r then minGap r - b.sum else 0

def getRepeat (b : RBuf) : Bool × RBuf :=
  let (ok, b) := getLead hw r b
  if !ok then (false, b)
  else
    let (ok, b) :=
      if isBiphase r then
        let (ok, b) := expectSpace hw r b r.srepeat
        if !ok then (false, b) else expectPulse hw r b r.prepeat
      else
        let (ok, b) := expectPulse hw r b r.prepeat
        if !ok then (false, b) else (true, { b with pendings := r.srepeat })
    if !ok then (false, b)
    else
      let (ok, b) := getTrail hw r b
      if !ok then (false, b)
      else
        getGap hw r b
          (if isConst r then constGap r b
           else if hasRepeatGap r then r.repeatGap else minGap r)

end Parts

/-! ### Data -/

/-- `(ir_code)-1`, the mark of a failed segment. -/
def noCode : IrCode := BitVec.allOnes 64

section Data

variable (hw : Hardware) (r : IrRemote)

/-- The longest pulse and the longest space of any symbol. -/
def maxSymbolPulse : ℤ := r.pzero + r.pone + r.ptwo + r.pthree
def maxSymbolSpace : ℤ := r.szero + r.sone + r.stwo + r.sthree

/-- The symbol whose nominal length the sum matches first. -/
def matchSymbol (sum : ℤ) : Option ℕ :=
  if expect hw r sum (r.pzero + r.szero) then some 0
  else if expect hw r sum (r.pone + r.sone) then some 1
  else if expect hw r sum (r.ptwo + r.stwo) then some 2
  else if expect hw r sum (r.pthree + r.sthree) then some 3
  else none

def getRcmmLoop : ℕ → IrCode → RBuf → IrCode × RBuf
  | 0, code, b => (code, b)
  | n + 1, code, b =>
      let (deltap, b) := getNextPulse b (maxSymbolPulse r)
      let (deltas, b) := getNextSpace b (maxSymbolSpace r)
      if deltap = 0 ∨ deltas = 0 then (noCode, b)
      else
        match matchSymbol hw r (deltap + deltas) with
        | none => (noCode, b)
        | some s => getRcmmLoop n (code <<< 2 ||| BitVec.ofNat 64 s) b

/-- The two symbols of a Grundig signal that make up two bits. -/
def grundigBits (laststate : Option ℕ) (state : ℕ) : Option IrCode :=
  if state = 3 then some 0
  else if laststate = some 2 ∧ state = 0 then some 1
  else if laststate = some 1 ∧ state = 1 then some 2
  else if laststate = some 0 ∧ state = 2 then some 3
  else none

/-- The loop of the Grundig decoder. Two bits take at most two rounds, so
the number of bits bounds the rounds. -/
def getGrundigLoop (bits : ℕ) : ℕ → ℕ → Option ℕ → IrCode → RBuf → IrCode × RBuf
  | 0, _, _, code, b => (code, b)
  | n + 1, i, laststate, code, b =>
      if i < bits then
        let (deltas, b) := getNextSpace b (maxSymbolSpace r)
        let (deltap, b) := getNextPulse b (maxSymbolPulse r)
        if deltas = 0 ∨ deltap = 0 then (noCode, b)
        else
          match matchSymbol hw r (deltas + deltap) with
          | none => (noCode, b)
          | some state =>
              match grundigBits laststate state with
              | some two => getGrundigLoop bits n (i + 2) none (code <<< 2 ||| two) b
              | none =>
                  if laststate.isNone then getGrundigLoop bits n i (some state) code b
                  else (noCode, b)
      else (code, b)

/-- The variables of the serial decoder. -/
structure SerialState where
  received : ℕ
  space : Bool
  stopBit : Bool
  parity : Bool
  delta : ℤ
  origdelta : ℤ
  gapDelta : ℤ
  code : IrCode

/-- The bits of a byte with the parity bit filtered out. -/
def serialByte (code : IrCode) (parityBit : ℕ) : IrCode :=
  (code >>> (r.bitsInByte + parityBit)) <<< r.bitsInByte |||
    reverse (code >>> parityBit) r.bitsInByte

/-- One round of the serial decoder; `none` is a failure. -/
def serialRound (bits parityBit : ℕ) (base stop maxSpace maxPulse : ℤ) (s : SerialState)
    (b : RBuf) : Option SerialState × RBuf :=
  let (s, b) :=
    if s.delta = 0 then
      let (delta, b) := if s.space then getNextSpace b maxSpace else getNextPulse b maxPulse
      let delta :=
        if delta = 0 ∧ s.space ∧ bits ≤ s.received + r.bitsInByte + parityBit then maxSpace
        else delta
      ({ s with delta := delta, origdelta := delta }, b)
    else (s, b)
  if s.delta = 0 then (none, b)
  else
    let pending := if s.space then b.pendings else b.pendingp
    if !expect hw r s.delta pending && !decide (pending < s.delta) then (none, b)
    else
      let s := { s with delta := if expect hw r s.delta pending then 0 else s.delta - pending }
      if 0 < pending then
        if s.stopBit then
          (some { s with gapDelta := s.delta, delta := 0, stopBit := false, space := false },
            { b with pendingp := base, pendings := 0 })
        else
          (some { s with space := if s.delta = 0 then !s.space else s.space },
            { b with pendingp := 0, pendings := 0 })
      else
        let expecting := if s.space then r.sone else r.pzero
        if expecting < s.delta ∨ expect hw r s.delta expecting then
          let s := { s with
            delta := s.delta - (if s.delta < expecting then s.delta else expecting),
            received := s.received + 1,
            code := s.code <<< 1 ||| (if s.space then 1 else 0),
            parity := s.parity ^^ s.space }
          if s.received % (r.bitsInByte + parityBit) = 0 then
            if (r.parity = .even ∧ s.parity) ∨ (r.parity = .odd ∧ !s.parity) then (none, b)
            else
              let s := { s with parity := false, code := serialByte r s.code parityBit }
              if s.space = true ∧ s.delta = (0 : ℤ) then (none, b)
              else
                (some { s with stopBit := true,
                               space := if s.delta = 0 then !s.space else s.space },
                  { b with pendings := stop })
          else
            (some { s with space := if s.delta = 0 then !s.space else s.space }, b)
        else if s.delta = s.origdelta then (none, b)
        else (some { s with delta := 0, space := !s.space }, b)

/-- The words that are still to be read. -/
def RBuf.unread (b : RBuf) : List ℕ := b.data.drop b.rptr ++ b.input

/-- The rounds of the serial decoder that a word adds to its own length at most. -/
def serialCost (width : ℕ) (maxSpace : ℤ) : ℕ := maxSpace.natAbs + 8 * width + 16

/-- More rounds than the serial decoder makes when it ends. -/
def serialFuel (bits width : ℕ) (maxSpace : ℤ) (b : RBuf) : ℕ :=
  4 * (rbufSize + bits + 1) + (b.unread.map (· + serialCost width maxSpace)).sum +
    serialCost width maxSpace

/-- The loop of the serial decoder, for so many rounds. -/
def getSerialLoop (bits parityBit : ℕ) (base stop maxSpace maxPulse : ℤ) :
    ℕ → SerialState → RBuf → IrCode × RBuf
  | 0, _, b => (noCode, b)
  | n + 1, s, b =>
      if s.received < bits ∨ s.stopBit then
        match serialRound hw r bits parityBit base stop maxSpace maxPulse s b with
        | (none, b) => (noCode, b)
        | (some s, b) => getSerialLoop bits parityBit base stop maxSpace maxPulse n s b
      else
        let b := if s.gapDelta ≠ 0 then ungetRecBufferDelta b s.gapDelta else b
        (s.code, { b with pendingp := 0, pendings := 0 })

def getSerial (bits : ℕ) (b : RBuf) : IrCode × RBuf :=
  let base : ℤ := (1000000 / r.baud : ℕ)
  let stop : ℤ := (base * r.stopBits).tdiv 2
  let parityBit := if r.parity = .none then 0 else 1
  let maxSpace := r.sone * r.bitsInByte + stop + (if r.parity = .none then 0 else r.sone)
  let maxPulse := r.pzero * (1 + r.bitsInByte) + (if r.parity = .none then 0 else r.pzero)
  let bits := if r.parity = .none then bits else bits + bits / r.bitsInByte
  let s : SerialState :=
    { received := 0, space := base == 0, stopBit := false, parity := false, delta := 0,
      origdelta := 0, gapDelta := 0, code := 0 }
  getSerialLoop hw r bits parityBit base stop maxSpace maxPulse
    (serialFuel bits (r.bitsInByte + parityBit) maxSpace b) s { b with pendingp := base }

def getBoLoop : ℕ → Bool → IrCode → RBuf → IrCode × RBuf
  | 0, _, code, b => (code, b)
  | n + 1, lastbit, code, b =>
      let (deltap, b) := getNextPulse b (maxSymbolPulse r)
      let (deltas, b) := getNextSpace b (maxSymbolSpace r)
      if deltap = 0 ∨ deltas = 0 then (noCode, b)
      else
        let (pzero, szero, pone, sone) :=
          if lastbit then (r.pone, r.sone, r.ptwo, r.stwo)
          else (r.ptwo, r.stwo, r.pthree, r.sthree)
        if expect hw r deltap pzero && expect hw r deltas szero then
          getBoLoop n false (code <<< 1) b
        else if expect hw r deltap pone && expect hw r deltas sone then
          getBoLoop n true (code <<< 1 ||| 1) b
        else (noCode, b)

def getXmpLoop : ℕ → IrCode → RBuf → IrCode × RBuf
  | 0, code, b => (code, b)
  | n + 1, code, b =>
      let (deltap, b) := getNextPulse b r.pzero
      let (deltas, b) := getNextSpace b (r.szero + 16 * r.sone)
      if deltap = 0 ∨ deltas = 0 then (noCode, b)
      else
        let sum := deltap + deltas - (r.pzero + r.szero)
        -- assigned to an unsigned variable, so a negative quotient is large
        let q := (sum + r.sone.tdiv 2).tdiv r.sone
        if q < 0 ∨ 16 ≤ q then (noCode, b)
        else getXmpLoop n (code <<< 4 ||| BitVec.ofInt 64 q) b

/-- The timings of a Goldstar remote depend on the place of the bit. -/
def goldstarTimings (bit : ℕ) : IrRemote :=
  if isGoldstar r then
    if bit % 2 ≠ 0 then { r with pone := r.ptwo, sone := r.stwo }
    else { r with pone := r.pthree, sone := r.sthree }
  else r

/-- The bit by bit loop at the end of `get_data`. -/
def getBitLoop : ℕ → ℕ → IrCode → IrRemote → RBuf → IrCode × IrRemote × RBuf
  | 0, _, code, r, b => (code, r, b)
  | n + 1, bit, code, r, b =>
      let code := code <<< 1
      let r := goldstarTimings r bit
      match expectOne hw r bit b with
      | (true, b) => getBitLoop n (bit + 1) (code ||| 1) r b
      | (false, b) =>
          match expectZero hw r bit b with
          | (true, b) => getBitLoop n (bit + 1) code r b
          | (false, b) => (noCode, r, b)

/-- `get_data` -/
def getData (bits done : ℕ) (b : RBuf) : IrCode × IrRemote × RBuf :=
  if isRcmm r then
    if bits % 2 ≠ 0 ∨ done % 2 ≠ 0 then (noCode, r, b)
    else
      let (ok, b) := syncPendingSpace hw r b
      if !ok then (0, r, b)
      else
        let (code, b) := getRcmmLoop hw r (bits / 2) 0 b
        (code, r, b)
  else if isGrundig r then
    if bits % 2 ≠ 0 ∨ done % 2 ≠ 0 then (noCode, r, b)
    else
      let (ok, b) := syncPendingPulse hw r b
      if !ok then (noCode, r, b)
      else
        let (code, b) := getGrundigLoop hw r bits bits 0 none 0 b
        (code, r, b)
  else if isSerial r then
    let (code, b) := getSerial hw r bits b
    (code, r, b)
  else if isBo r then
    let (code, b) := getBoLoop hw r bits true 0 b
    (code, r, b)
  else if isXmp r then
    if bits % 4 ≠ 0 ∨ done % 4 ≠ 0 then (noCode, r, b)
    else
      let (ok, b) := syncPendingSpace hw r b
      if !ok then (0, r, b)
      else
        let (code, b) := getXmpLoop r (bits / 4) 0 b
        (code, r, b)
  else getBitLoop hw bits done 0 r b

/-- `get_pre` -/
def getPre (b : RBuf) : IrCode × IrRemote × RBuf :=
  let (pre, r, b) := getData hw r r.preDataBits 0 b
  if pre = noCode then (noCode, r, b)
  else if 0 < r.preP ∧ 0 < r.preS then
    let (ok, b) := expectPulse hw r b r.preP
    if !ok then (noCode, r, b) else (pre, r, { b with pendings := r.preS })
  else (pre, r, b)

/-- `get_post` -/
def getPost (b : RBuf) : IrCode × IrRemote × RBuf :=
  let (ok, b) :=
    if 0 < r.postP ∧ 0 < r.postS then
      let (ok, b) := expectPulse hw r b r.postP
      if !ok then (false, b) else (true, { b with pendings := r.postS })
    else (true, b)
  if !ok then (noCode, r, b)
  else getData hw r r.postDataBits (r.preDataBits + r.bits) b

end Data

/-! ### `receive_decode` -/

/-- The results of a successful `receive_decode`. -/
structure Decoded where
  pre : IrCode
  code : IrCode
  post : IrCode
  repeatFlag : Bool
  minRemainingGap : ℤ
  maxRemainingGap : ℤ
  deriving DecidableEq, Repr, Inhabited

section Decode

variable (hw : Hardware)

/-- `is_const` remotes end at a fixed time; the rest of `sum` is the gap. -/
def remainingAfter (sum gap : ℤ) : ℤ := if sum < gap then gap - sum else 0

/-- The attempt at a repeat code. `inl` ends `receive_decode`, `inr` goes on
with a full signal. -/
def decodeRepeat (r : IrRemote) (last : LastRemote) (b : RBuf) :
    (Option Decoded × IrRemote × RBuf) ⊕ (IrRemote × RBuf) :=
  let (ok, b) :=
    if r.has repeatHeader && hasHeader r then getHeader hw r b else (true, b)
  if !ok then .inl (none, r, b)
  else
    let (ok, b) := getRepeat hw r b
    if ok then
      match r.lastCode with
      | none => .inl (none, r, b)
      | some i =>
          let d : Decoded :=
            { pre := r.preData, code := (r.codes.getD i default).code, post := r.postData,
              repeatFlag := true,
              minRemainingGap :=
                if isConst r then remainingAfter b.sum (minGap r)
                else if hasRepeatGap r then r.repeatGap else minGap r,
              maxRemainingGap :=
                if isConst r then remainingAfter b.sum (maxGap r)
                else if hasRepeatGap r then r.repeatGap else maxGap r }
          .inl (some d, r, b)
    else
      let (_, r, b) := syncRecBuffer hw r last (rewindRecBuffer b)
      .inr (r, b)

/-- The header of a full signal: whether one was found, or `none`. -/
def decodeHeader (r : IrRemote) (sync : ℤ) (b : RBuf) : Option Bool × RBuf :=
  if hasHeader r then
    let (ok, b) := getHeader hw r b
    if ok then (some true, b)
    else if r.has noHeadRep && expectAtMost hw r sync (maxGap r) then (some false, b)
    else (none, b)
  else (some false, b)

/-- The samples of a raw code from the `i`-th on. -/
def matchSignals (r : IrRemote) : List ℤ → RBuf → Bool × RBuf
  | [], b => (true, b)
  | [p], b => expectPulse hw r b p
  | p :: s :: rest, b =>
      let (ok, b) := expectPulse hw r b p
      if !ok then (false, b)
      else
        let (ok, b) := expectSpace hw r b s
        if !ok then (false, b) else matchSignals r rest b

/-- The search through the codes of a raw remote. -/
def decodeRaw (last : LastRemote) : List IrNcode → IrRemote → RBuf → Option IrCode × IrRemote × RBuf
  | [], r, b => (none, r, b)
  | c :: codes, r, b =>
      let (ok, b) := matchSignals hw r (c.signals.getD []) b
      if !ok then
        let (_, r, b) := syncRecBuffer hw r last (rewindRecBuffer b)
        decodeRaw last codes r b
      else
        let (ok, b) := getGap hw r b (if isConst r then minGap r - b.sum else minGap r)
        if ok then (some c.code, r, b) else decodeRaw last codes r b

/-- The nominal length of a signal that arrives as a code. -/
def lirccodeSum (r : IrRemote) : ℤ :=
  r.phead + r.shead + max (r.pone + r.sone) (r.pzero + r.szero) * bitCount r + r.plead +
    r.ptrail + r.pfoot + r.sfoot + r.preP + r.preS + r.postP + r.postS

/-- A signal that arrives as a code: the code word split into its parts,
with the new `sync`. -/
def decodeLirccode (r : IrRemote) (now : ℕ) (b : RBuf) :
    Option (IrCode × IrCode × IrCode × ℤ) × RBuf :=
  if hw.codeLength ≠ bitCount r then (none, b)
  else
    let decoded := b.decoded
    let post := decoded &&& genMask r.postDataBits
    let decoded := decoded >>> r.postDataBits
    let code := decoded &&& genMask r.bits
    let pre := decoded >>> r.bits
    let sum := lirccodeSum r
    let b := { b with sum := if (r.gap : ℤ) ≤ sum then (r.gap : ℤ) - 1 else sum }
    (some (pre, code, post, ((now - r.lastSend : ℕ) : ℤ) - b.sum), b)

/-- Lead, data, trail, foot and gap of a full signal. -/
def decodeBits (r : IrRemote) (header : Bool) (b : RBuf) :
    Option (IrCode × IrCode × IrCode) × IrRemote × RBuf :=
  let (ok, b) := getLead hw r b
  if !ok then (none, r, b)
  else
    let (pre, r, b) := if hasPre r then getPre hw r b else (0, r, b)
    if hasPre r ∧ pre = noCode then (none, r, b)
    else
      let (code, r, b) := getData hw r r.bits r.preDataBits b
      if code = noCode then (none, r, b)
      else
        let (post, r, b) := if hasPost r then getPost hw r b else (0, r, b)
        if hasPost r ∧ post = noCode then (none, r, b)
        else
          let (ok, b) := getTrail hw r b
          if !ok then (none, r, b)
          else
            let (ok, b) := if hasFoot r then getFoot hw r b else (true, b)
            if !ok then (none, r, b)
            else
              let b :=
                if header && isConst r && r.has noHeadRep then
                  { b with sum := b.sum - (r.phead + r.shead) }
                else b
              let (ok, b) :=
                getGap hw r b
                  (if isRcmm r then 1000 else if isConst r then constGap r b else minGap r)
              if ok then (some (pre, code, post), r, b) else (none, r, b)

/-- The results at the end of `receive_decode`. -/
def decodedOf (r : IrRemote) (pre code post : IrCode) (sync : ℤ) (now : ℕ) (b : RBuf) : Decoded :=
  { pre, code, post,
    repeatFlag :=
      ((!hasRepeat r || r.reps % 2 ^ 32 < r.minCodeRepeat) &&
        expectAtMost hw r sync r.maxRemainingGap) ||
      (hw.recMode == modeLirccode && now - r.lastSend < 325000),
    minRemainingGap := if isConst r then remainingAfter b.sum (minGap r) else minGap r,
    maxRemainingGap := if isConst r then remainingAfter b.sum (maxGap r) else maxGap r }

/-- The part of `receive_decode` after synchronisation and header. -/
def decodeSignal (r : IrRemote) (last : LastRemote) (now : ℕ) (sync : ℤ) (header : Bool)
    (b : RBuf) : Option Decoded × IrRemote × RBuf :=
  if isRaw r then
    if hw.recMode = modeLirccode then (none, r, b)
    else
      match decodeRaw hw last r.codes r b with
      | (none, r, b) => (none, r, b)
      | (some code, r, b) => (some (decodedOf hw r 0 code 0 sync now b), r, b)
  else if hw.recMode = modeLirccode then
    match decodeLirccode hw r now b with
    | (none, b) => (none, r, b)
    | (some (pre, code, post, sync), b) =>
        (some (decodedOf hw r pre code post sync now b), r, b)
  else
    match decodeBits hw r header b with
    | (none, r, b) => (none, r, b)
    | (some (pre, code, post), r, b) =>
        (some (decodedOf hw r pre code post sync now b), r, b)

/-- The receive modes that deliver pulses and spaces. -/
def pulseSpaceMode : Bool :=
  hw.recMode == modeMode2 || hw.recMode == modePulse || hw.recMode == modeRaw

/-- `receive_decode`; `now` is what `gettimeofday` returns. -/
def receiveDecode (r : IrRemote) (last : LastRemote) (now : ℕ) (b : RBuf) :
    Option Decoded × IrRemote × RBuf :=
  if pulseSpaceMode hw then
    let b := { rewindRecBuffer b with isBiphase := isBiphase r }
    let (sync, r, b) := syncRecBuffer hw r last b
    if sync = 0 then (none, r, b)
    else
      let next : (Option Decoded × IrRemote × RBuf) ⊕ (IrRemote × RBuf) :=
        if hasRepeat r && last == .same then decodeRepeat hw r last b else .inr (r, b)
      match next with
      | .inl out => out
      | .inr (r, b) =>
          match decodeHeader hw r sync b with
          | (none, b) => (none, r, b)
          | (some header, b) => decodeSignal hw r last now sync header b
  else decodeSignal hw r last now 0 false b

end Decode

/-- A receiver of pulses and spaces with a resolution of one microsecond. -/
def mode2Hardware : Hardware := { resolution := 1, recMode := modeMode2 }

end Lirc
