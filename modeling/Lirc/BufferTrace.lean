import Lirc.BufferCalls

/-!
The calls on the receive buffer that each function of `receive.c` makes, in their order.
They are listed next to the model of the function; a buffer with a sample in it is one in
which every function but the search for the two halves of a bit stays within the array.
-/

namespace Lirc

open Signal

/-! ### Single pulses and spaces -/

def readOps (maxusec : ℤ) : List BufOp := [.read (receiveTimeout maxusec)]

def syncPendingPulseOps (b : RBuf) : List BufOp :=
  if 0 < b.pendingp then readOps b.pendingp else []

def syncPendingSpaceOps (b : RBuf) : List BufOp :=
  if 0 < b.pendings then readOps b.pendings else []

section Expect

variable (hw : Hardware) (r : IrRemote)

def expectPulseOps (b : RBuf) (exdelta : ℤ) : List BufOp :=
  syncPendingSpaceOps b ++
    let (ok, b) := syncPendingSpace hw r b
    if !ok then [] else readOps (b.pendingp + exdelta)

def expectSpaceOps (b : RBuf) (exdelta : ℤ) : List BufOp :=
  syncPendingPulseOps b ++
    let (ok, b) := syncPendingPulse hw r b
    if !ok then [] else readOps (b.pendings + exdelta)

def expectPartOps (b : RBuf) (p : Part) : List BufOp :=
  if p.high then expectPulseOps hw r b p.len else expectSpaceOps hw r b p.len

/-- A part that may be left out. -/
def tryPart (b : RBuf) : Option Part → Bool × RBuf
  | none => (true, b)
  | some p => expectPart hw r b p

def tryPartOps (b : RBuf) : Option Part → List BufOp
  | none => []
  | some p => expectPartOps hw r b p

/-- The halves of a bit. What has been read is given back when one is not found: one sample
for the first half, two samples for the second. -/
def tryHalves (first second : Option Part) (b : RBuf) : Bool × RBuf :=
  let (ok, b) := tryPart hw r b first
  if !ok then (false, ungetRecBuffer b 1)
  else
    let (ok, b) := tryPart hw r b second
    if !ok then (false, ungetRecBuffer b 2) else (true, b)

def tryHalvesOps (first second : Option Part) (b : RBuf) : List BufOp :=
  tryPartOps hw r b first ++
    let (ok, b) := tryPart hw r b first
    if !ok then [.unget 1]
    else
      (second.toList.map fun p => .half r p b) ++ tryPartOps hw r b second ++
        if !(tryPart hw r b second).1 then [.unget 2] else []

/-- A part with a length. -/
def wanted (p : Part) : Option Part := if 0 < p.len then some p else none

/-- The factor of the bits that `rc6_mask` doubles. -/
def bitFactor (bit : ℕ) : ℤ := if bitMask r bit &&& r.rc6Mask != 0 then 2 else 1

/-- The halves that `expectone` looks for. -/
def oneHalves (bit : ℕ) : Option Part × Option Part :=
  if isBiphase r then (if 0 < r.sone then some (space (bitFactor r bit * r.sone)) else none, none)
  else if isSpaceFirst r then (wanted (space r.sone), wanted (pulse r.pone))
  else (wanted (pulse r.pone), if 0 < r.ptrail then wanted (space r.sone) else none)

/-- The halves that `expectzero` looks for. -/
def zeroHalves (bit : ℕ) : Option Part × Option Part :=
  if isBiphase r then (some (pulse (bitFactor r bit * r.pzero)), none)
  else if isSpaceFirst r then (wanted (space r.szero), wanted (pulse r.pzero))
  else (some (pulse r.pzero), if 0 < r.ptrail then some (space r.szero) else none)

def expectOneOps (bit : ℕ) (b : RBuf) : List BufOp :=
  tryHalvesOps hw r (oneHalves r bit).1 (oneHalves r bit).2 b

def expectZeroOps (bit : ℕ) (b : RBuf) : List BufOp :=
  tryHalvesOps hw r (zeroHalves r bit).1 (zeroHalves r bit).2 b

end Expect

/-! ### The parts of a signal -/

/-- The loop of `sync_rec_buffer` -/
def syncLoopOps (hw : Hardware) (l : IrRemote) : ℕ → ℤ → RBuf → List BufOp
  | n, deltas, b =>
      if expectAtLeast hw l deltas l.minRemainingGap then []
      else
        let (deltap, b) := getNextPulse b 1000000
        readOps 1000000 ++
          if deltap = 0 then []
          else
            let (deltas, b) := getNextSpace b 1000000
            readOps 1000000 ++
              if deltas = 0 then []
              else
                match n with
                | 0 => []
                | n + 1 => syncLoopOps hw l n deltas b

def syncRecBufferOps (hw : Hardware) (r : IrRemote) (last : LastRemote) (b : RBuf) : List BufOp :=
  let (deltas, b) := getNextSpace b 1000000
  readOps 1000000 ++
    if deltas = 0 then []
    else
      match last.get r with
      | none => [.synced]
      | some l =>
          if isRcmm r then [.synced]
          else
            syncLoopOps hw l recSync deltas b ++
              if (syncLoop hw l recSync deltas b).1 = 0 then [] else [.synced]

section Parts

variable (hw : Hardware) (r : IrRemote)

def getHeaderRcmmOps (b : RBuf) : List BufOp :=
  let (deltap, b) := getNextPulse b r.phead
  readOps r.phead ++
    if deltap = 0 then [.unget 1]
    else
      let (deltas, _) := getNextSpace b r.shead
      readOps r.shead ++
        if deltas = 0 then [.unget 2]
        else if expect hw r (deltap + deltas) (r.phead + r.shead) then []
        else [.unget 2]

def expectPairsOps : List (ℤ × ℤ) → RBuf → List BufOp
  | [], _ => []
  | (p, s) :: rest, b =>
      let (ok, b') := expectPulse hw r b p
      expectPulseOps hw r b p ++
        if !ok then []
        else
          let (ok, b'') := expectSpace hw r b' s
          expectSpaceOps hw r b' s ++ if !ok then [] else expectPairsOps rest b''

def getHeaderOps (b : RBuf) : List BufOp :=
  if isRcmm r then getHeaderRcmmOps hw r b
  else if isBo r then
    expectPairsOps hw r [(r.pone, r.sone), (r.pone, r.sone), (r.phead, r.shead)] b
  else if r.shead = 0 then syncPendingSpaceOps b
  else
    let (ok, b') := expectPulse hw r b r.phead
    expectPulseOps hw r b r.phead ++
      if !ok then [.unget 1]
      else if r.has noHeadRep then
        let (deltas, _) := getNextSpace b' r.shead
        readOps r.shead ++
          if deltas ≠ 0 then if expect hw r r.shead deltas then [] else [.unget 2]
          else []
      else []

def getFootOps (b : RBuf) : List BufOp :=
  let (ok, b') := expectSpace hw r b r.sfoot
  expectSpaceOps hw r b r.sfoot ++ if !ok then [] else expectPulseOps hw r b' r.pfoot

def getLeadOps (b : RBuf) : List BufOp := if r.plead = 0 then [] else syncPendingSpaceOps b

def getTrailOps (b : RBuf) : List BufOp :=
  let (ok, b') := if r.ptrail ≠ 0 then expectPulse hw r b r.ptrail else (true, b)
  (if r.ptrail ≠ 0 then expectPulseOps hw r b r.ptrail else []) ++
    if !ok then [] else syncPendingPulseOps b'

def getGapOps (b : RBuf) (gap : ℤ) : List BufOp :=
  let maxusec := gap - (gap * r.eps).tdiv 100
  let (w, _) := getNextRecBuffer b maxusec
  readOps maxusec ++ if w = 0 then [] else if !isSpace w then [] else [.unget 1]

def getRepeatOps (b : RBuf) : List BufOp :=
  let (ok, b₁) := getLead hw r b
  getLeadOps r b ++
    if !ok then []
    else
      let (ok, b₂) :=
        if isBiphase r then
          let (ok, b) := expectSpace hw r b₁ r.srepeat
          if !ok then (false, b) else expectPulse hw r b r.prepeat
        else
          let (ok, b) := expectPulse hw r b₁ r.prepeat
          if !ok then (false, b) else (true, { b with pendings := r.srepeat })
      (if isBiphase r then
          let (ok, b) := expectSpace hw r b₁ r.srepeat
          expectSpaceOps hw r b₁ r.srepeat ++ if !ok then [] else expectPulseOps hw r b r.prepeat
        else expectPulseOps hw r b₁ r.prepeat) ++
        if !ok then []
        else
          let (ok, b₃) := getTrail hw r b₂
          getTrailOps hw r b₂ ++
            if !ok then []
            else
              getGapOps r b₃
                (if isConst r then constGap r b₃
                 else if hasRepeatGap r then r.repeatGap else minGap r)

end Parts

/-! ### Data -/

section Data

variable (hw : Hardware) (r : IrRemote)

def getRcmmLoopOps : ℕ → RBuf → List BufOp
  | 0, _ => []
  | n + 1, b =>
      let (deltap, b) := getNextPulse b (maxSymbolPulse r)
      let (deltas, b) := getNextSpace b (maxSymbolSpace r)
      readOps (maxSymbolPulse r) ++ readOps (maxSymbolSpace r) ++
        if deltap = 0 ∨ deltas = 0 then []
        else
          match matchSymbol hw r (deltap + deltas) with
          | none => []
          | some _ => getRcmmLoopOps n b

def getGrundigLoopOps (bits : ℕ) : ℕ → ℕ → Option ℕ → RBuf → List BufOp
  | 0, _, _, _ => []
  | n + 1, i, laststate, b =>
      if i < bits then
        let (deltas, b) := getNextSpace b (maxSymbolSpace r)
        let (deltap, b) := getNextPulse b (maxSymbolPulse r)
        readOps (maxSymbolSpace r) ++ readOps (maxSymbolPulse r) ++
          if deltas = 0 ∨ deltap = 0 then []
          else
            match matchSymbol hw r (deltas + deltap) with
            | none => []
            | some state =>
                match grundigBits laststate state with
                | some _ => getGrundigLoopOps bits n (i + 2) none b
                | none =>
                    if laststate.isNone then getGrundigLoopOps bits n i (some state) b
                    else []
      else []

def getSerialLoopOps (bits parityBit : ℕ) (base stop maxSpace maxPulse : ℤ) :
    ℕ → SerialState → RBuf → List BufOp
  | 0, _, _ => []
  | n + 1, s, b =>
      if s.received < bits ∨ s.stopBit then
        (if s.delta = 0 then readOps (if s.space then maxSpace else maxPulse) else []) ++
          match serialRound hw r bits parityBit base stop maxSpace maxPulse s b with
          | (none, _) => []
          | (some s, b) => getSerialLoopOps bits parityBit base stop maxSpace maxPulse n s b
      else if s.gapDelta ≠ 0 then [.ungetDelta s.gapDelta]
      else []

def getSerialOps (bits : ℕ) (b : RBuf) : List BufOp :=
  let base : ℤ := (1000000 / r.baud : ℕ)
  let stop : ℤ := (base * r.stopBits).tdiv 2
  let parityBit := if r.parity = .none then 0 else 1
  let maxSpace := r.sone * r.bitsInByte + stop + (if r.parity = .none then 0 else r.sone)
  let maxPulse := r.pzero * (1 + r.bitsInByte) + (if r.parity = .none then 0 else r.pzero)
  let bits := if r.parity = .none then bits else bits + bits / r.bitsInByte
  let s : SerialState :=
    { received := 0, space := base == 0, stopBit := false, parity := false, delta := 0,
      origdelta := 0, gapDelta := 0, code := 0 }
  getSerialLoopOps hw r bits parityBit base stop maxSpace maxPulse
    (serialFuel bits (r.bitsInByte + parityBit) maxSpace b) s { b with pendingp := base }

def getBoLoopOps : ℕ → Bool → RBuf → List BufOp
  | 0, _, _ => []
  | n + 1, lastbit, b =>
      let (deltap, b) := getNextPulse b (maxSymbolPulse r)
      let (deltas, b) := getNextSpace b (maxSymbolSpace r)
      readOps (maxSymbolPulse r) ++ readOps (maxSymbolSpace r) ++
        if deltap = 0 ∨ deltas = 0 then []
        else
          let (pzero, szero, pone, sone) :=
            if lastbit then (r.pone, r.sone, r.ptwo, r.stwo)
            else (r.ptwo, r.stwo, r.pthree, r.sthree)
          if expect hw r deltap pzero && expect hw r deltas szero then getBoLoopOps n false b
          else if expect hw r deltap pone && expect hw r deltas sone then getBoLoopOps n true b
          else []

def getXmpLoopOps : ℕ → RBuf → List BufOp
  | 0, _ => []
  | n + 1, b =>
      let (deltap, b) := getNextPulse b r.pzero
      let (deltas, b) := getNextSpace b (r.szero + 16 * r.sone)
      readOps r.pzero ++ readOps (r.szero + 16 * r.sone) ++
        if deltap = 0 ∨ deltas = 0 then []
        else
          let sum := deltap + deltas - (r.pzero + r.szero)
          let q := (sum + r.sone.tdiv 2).tdiv r.sone
          if q < 0 ∨ 16 ≤ q then [] else getXmpLoopOps n b

def getBitLoopOps : ℕ → ℕ → IrRemote → RBuf → List BufOp
  | 0, _, _, _ => []
  | n + 1, bit, r, b =>
      let r := goldstarTimings r bit
      expectOneOps hw r bit b ++
        match expectOne hw r bit b with
        | (true, b) => getBitLoopOps n (bit + 1) r b
        | (false, b) =>
            expectZeroOps hw r bit b ++
              match expectZero hw r bit b with
              | (true, b) => getBitLoopOps n (bit + 1) r b
              | (false, _) => []

def getDataOps (bits done : ℕ) (b : RBuf) : List BufOp :=
  if isRcmm r then
    if bits % 2 ≠ 0 ∨ done % 2 ≠ 0 then []
    else
      let (ok, b') := syncPendingSpace hw r b
      syncPendingSpaceOps b ++ if !ok then [] else getRcmmLoopOps hw r (bits / 2) b'
  else if isGrundig r then
    if bits % 2 ≠ 0 ∨ done % 2 ≠ 0 then []
    else
      let (ok, b') := syncPendingPulse hw r b
      syncPendingPulseOps b ++ if !ok then [] else getGrundigLoopOps hw r bits bits 0 none b'
  else if isSerial r then getSerialOps hw r bits b
  else if isBo r then getBoLoopOps hw r bits true b
  else if isXmp r then
    if bits % 4 ≠ 0 ∨ done % 4 ≠ 0 then []
    else
      let (ok, b') := syncPendingSpace hw r b
      syncPendingSpaceOps b ++ if !ok then [] else getXmpLoopOps r (bits / 4) b'
  else getBitLoopOps hw bits done r b

def getPreOps (b : RBuf) : List BufOp :=
  let (pre, r', b') := getData hw r r.preDataBits 0 b
  getDataOps hw r r.preDataBits 0 b ++
    if pre = noCode then []
    else if 0 < r'.preP ∧ 0 < r'.preS then expectPulseOps hw r' b' r'.preP
    else []

def getPostOps (b : RBuf) : List BufOp :=
  if 0 < r.postP ∧ 0 < r.postS then
    let (ok, b') := expectPulse hw r b r.postP
    expectPulseOps hw r b r.postP ++
      if !ok then []
      else
        getDataOps hw r r.postDataBits (r.preDataBits + r.bits) { b' with pendings := r.postS }
  else getDataOps hw r r.postDataBits (r.preDataBits + r.bits) b

end Data

/-! ### `receive_decode` -/

section Decode

variable (hw : Hardware)

def decodeRepeatOps (r : IrRemote) (last : LastRemote) (b : RBuf) : List BufOp :=
  let header := r.has repeatHeader && hasHeader r
  let (ok, b₁) := if header then getHeader hw r b else (true, b)
  (if header then getHeaderOps hw r b else []) ++
    if !ok then []
    else
      let (ok, b₂) := getRepeat hw r b₁
      getRepeatOps hw r b₁ ++
        if ok then []
        else .rewind :: syncRecBufferOps hw r last (rewindRecBuffer b₂)

def decodeHeaderOps (r : IrRemote) (b : RBuf) : List BufOp :=
  if hasHeader r then getHeaderOps hw r b else []

def matchSignalsOps (r : IrRemote) : List ℤ → RBuf → List BufOp
  | [], _ => []
  | [p], b => expectPulseOps hw r b p
  | p :: s :: rest, b =>
      let (ok, b') := expectPulse hw r b p
      expectPulseOps hw r b p ++
        if !ok then []
        else
          let (ok, b'') := expectSpace hw r b' s
          expectSpaceOps hw r b' s ++ if !ok then [] else matchSignalsOps r rest b''

def decodeRawOps (last : LastRemote) : List IrNcode → IrRemote → RBuf → List BufOp
  | [], _, _ => []
  | c :: codes, r, b =>
      let (ok, b') := matchSignals hw r (c.signals.getD []) b
      matchSignalsOps hw r (c.signals.getD []) b ++
        if !ok then
          let (_, r', b'') := syncRecBuffer hw r last (rewindRecBuffer b')
          .rewind :: syncRecBufferOps hw r last (rewindRecBuffer b') ++
            decodeRawOps last codes r' b''
        else
          let gap := if isConst r then minGap r - b'.sum else minGap r
          let (ok, b'') := getGap hw r b' gap
          getGapOps r b' gap ++ if ok then [] else decodeRawOps last codes r b''

/-- Trail, foot and gap of a full signal. -/
def closingOps (r : IrRemote) (header : Bool) (b : RBuf) : List BufOp :=
  let (ok, b₁) := getTrail hw r b
  getTrailOps hw r b ++
    if !ok then []
    else
      let (ok, b₂) := if hasFoot r then getFoot hw r b₁ else (true, b₁)
      (if hasFoot r then getFootOps hw r b₁ else []) ++
        if !ok then []
        else
          let less := header && isConst r && r.has noHeadRep
          let b₃ := if less then { b₂ with sum := b₂.sum - (r.phead + r.shead) } else b₂
          (if less then [.lessHeader (r.phead + r.shead)] else []) ++
            getGapOps r b₃
              (if isRcmm r then 1000 else if isConst r then constGap r b₃ else minGap r)

def decodeBitsOps (r : IrRemote) (header : Bool) (b : RBuf) : List BufOp :=
  let (ok, b₁) := getLead hw r b
  getLeadOps r b ++
    if !ok then []
    else
      let (pre, r₁, b₂) := if hasPre r then getPre hw r b₁ else (0, r, b₁)
      (if hasPre r then getPreOps hw r b₁ else []) ++
        if hasPre r₁ ∧ pre = noCode then []
        else
          let (code, r₂, b₃) := getData hw r₁ r₁.bits r₁.preDataBits b₂
          getDataOps hw r₁ r₁.bits r₁.preDataBits b₂ ++
            if code = noCode then []
            else
              let (post, r₃, b₄) := if hasPost r₂ then getPost hw r₂ b₃ else (0, r₂, b₃)
              (if hasPost r₂ then getPostOps hw r₂ b₃ else []) ++
                if hasPost r₃ ∧ post = noCode then [] else closingOps hw r₃ header b₄

def decodeSignalOps (r : IrRemote) (last : LastRemote) (header : Bool) (b : RBuf) : List BufOp :=
  if isRaw r then
    if hw.recMode = modeLirccode then [] else decodeRawOps hw last r.codes r b
  else if hw.recMode = modeLirccode then
    if hw.codeLength ≠ bitCount r then []
    else
      let sum := lirccodeSum r
      [.setSum (if (r.gap : ℤ) ≤ sum then (r.gap : ℤ) - 1 else sum)]
  else decodeBitsOps hw r header b

def receiveDecodeOps (r : IrRemote) (last : LastRemote) (b : RBuf) : List BufOp :=
  if pulseSpaceMode hw then
    let b := { rewindRecBuffer b with isBiphase := isBiphase r }
    let (sync, r', b₁) := syncRecBuffer hw r last b
    .rewind :: syncRecBufferOps hw r last b ++
      if sync = 0 then []
      else
        let tried := hasRepeat r' && last == .same
        let next : (Option Decoded × IrRemote × RBuf) ⊕ (IrRemote × RBuf) :=
          if tried then decodeRepeat hw r' last b₁ else .inr (r', b₁)
        (if tried then decodeRepeatOps hw r' last b₁ else []) ++
          match next with
          | .inl _ => []
          | .inr (r, b) =>
              decodeHeaderOps hw r b ++
                match decodeHeader hw r sync b with
                | (none, _) => []
                | (some header, b) => decodeSignalOps hw r last header b
  else decodeSignalOps hw r last false b

end Decode

end Lirc
