import Lirc.Receive

/-!
`ir_remote.c`: the button that a received code belongs to. The codes of a
sequence are matched one after the other; `current` points to the one that is
expected next, and is `[]` where the C pointer is `NULL`. Two such pointers into
one sequence are equal when as many codes follow them.
-/

namespace Lirc

/-- `match_ir_code` -/
def matchIrCode (r : IrRemote) (a b : IrCode) : Bool :=
  r.ignoreMask ||| a == r.ignoreMask ||| b ||
    r.ignoreMask ||| a == r.ignoreMask ||| (b ^^^ r.toggleBitMask)

namespace IrNcode

variable (code : IrNcode)

/-- `get_ir_code` -/
def getIrCode (node : List IrCode) : IrCode :=
  if code.next = [] then code.code else node.headD code.code

/-- `get_next_ir_code_node` -/
def getNextIrCodeNode (node : List IrCode) : List IrCode :=
  if node = [] then code.next else node.tail

end IrNcode

/-! ### The longest beginning of a sequence -/

/-- The inner loop: the codes from `prev` on agree with those from `next` up to
the current one. It returns where `prev` has come to. -/
def agreesUpTo (code : IrNcode) : List IrCode → List IrCode → Option (List IrCode)
  | prev, [] => if code.current = [] then some prev else none
  | prev, n :: next =>
      if (n :: next).length = code.current.length then some prev
      else if code.getIrCode prev ≠ n then none
      else agreesUpTo code (code.getNextIrCodeNode prev) next

/-- The outer loop, from `search` on: the node that is expected after the
beginning of the sequence that `all` continues. -/
def findBeginning (r : IrRemote) (all : IrCode) (code : IrNcode) : List IrCode → Option (List IrCode)
  | [] => none
  | n :: search =>
      if (n :: search).length = code.current.tail.length then none
      else
        match agreesUpTo code [] (n :: search) with
        | none => findBeginning r all code search
        | some prev =>
            if matchIrCode r (genIrCode r r.preData (code.getIrCode prev) r.postData) all then
              some (code.getNextIrCodeNode prev)
            else findBeginning r all code search

/-! ### `get_code` -/

/-- One code of the remote: its pointer afterwards, whether it matches, and
whether it does so where it was expected. -/
def matchNcode (r : IrRemote) (all : IrCode) (code : IrNcode) : List IrCode × Bool × Bool :=
  if matchIrCode r (genIrCode r r.preData (code.getIrCode code.current) r.postData) all then
    (if code.next = [] then code.current else code.getNextIrCodeNode code.current, true, true)
  else if code.next = [] ∨ code.current = [] then ([], false, false)
  else
    match findBeginning r all code code.next with
    | none => ([], false, false)
    | some node => (node, true, false)

/-- The loop over the codes from the index `i` on: the codes with their pointers,
and the index of the code that is found. Once `haveCode` is set, the code that
was found stays. -/
def matchCodes (r : IrRemote) (all : IrCode) :
    ℕ → List IrNcode → Option ℕ → Bool → List IrNcode × Option ℕ
  | _, [], found, _ => ([], found)
  | i, code :: codes, found, haveCode =>
      let out := matchNcode r all code
      let found' := if out.2.1 && !haveCode then some i else found
      let haveCode' := haveCode || out.2.2 && out.1 == []
      let rest := matchCodes r all (i + 1) codes found' haveCode'
      ({ code with current := out.1 } :: rest.1, rest.2)

/-- The three words that a driver decodes. -/
structure Received where
  pre : IrCode
  code : IrCode
  post : IrCode
  deriving DecidableEq, Repr, Inhabited

/-- The loop that applies the toggle mask to what was received; `bit` counts from
the lowest bit of the post data. -/
def untoggleLoop (r : IrRemote) : ℕ → ℕ → IrCode → Received → Received
  | 0, _, _, x => x
  | n + 1, bit, mask, x =>
      let x :=
        if r.postDataBits + r.bits ≤ bit then
          { x with pre := x.pre ^^^ ((mask &&& 1) <<< (bit - (r.postDataBits + r.bits))) }
        else if r.postDataBits ≤ bit then
          { x with code := x.code ^^^ ((mask &&& 1) <<< (bit - r.postDataBits)) }
        else { x with post := x.post ^^^ ((mask &&& 1) <<< bit) }
      untoggleLoop r n (bit + 1) (mask >>> 1) x

/-- `remote->toggle_mask_state % 2` -/
def toggleOdd (r : IrRemote) : Bool := r.toggleMaskState.tmod 2 != 0

def untoggle (r : IrRemote) (x : Received) : Received :=
  if hasToggleMask r && toggleOdd r then untoggleLoop r (bitCount r) 0 r.toggleMask x else x

/-- The bits of the pre data that do not count. -/
def preMask (r : IrRemote) : IrCode :=
  (if hasToggleBitMask r then r.toggleBitMask >>> (r.bits + r.postDataBits) else 0) |||
    (if hasIgnoreMask r then r.ignoreMask >>> (r.bits + r.postDataBits) else 0)

/-- The bits of the post data that do not count. -/
def postMask (r : IrRemote) : IrCode :=
  (if hasToggleBitMask r then r.toggleBitMask &&& genMask r.postDataBits else 0) |||
    (if hasIgnoreMask r then r.ignoreMask &&& genMask r.postDataBits else 0)

/-- The pre and post data are those of the remote. -/
def frameMatches (r : IrRemote) (x : Received) : Bool :=
  (!hasPre r || x.pre ||| preMask r == r.preData ||| preMask r) &&
    (!hasPost r || x.post ||| postMask r == r.postData ||| postMask r)

/-- The end of `get_code`: with a toggle mask a button needs two frames. -/
def foundCode (r : IrRemote) (all : IrCode) (c : ℕ) : Option (ℕ × IrCode) × IrRemote :=
  if !hasToggleMask r then (some (c, all &&& r.toggleBitMask), r)
  else if !toggleOdd r then (some (c, all &&& r.toggleBitMask), { r with toggleCode := some c })
  else if r.toggleCode = some c then
    (some (c, all &&& r.toggleBitMask), { r with toggleCode := none })
  else (none, { r with toggleCode := none })

/-- `get_code`: the index of the code with the bits at the places of the toggle
bits. -/
def getCode (r : IrRemote) (x : Received) : Option (ℕ × IrCode) × IrRemote :=
  if !frameMatches r (untoggle r x) then (none, r)
  else
    let all := genIrCode r (untoggle r x).pre (untoggle r x).code (untoggle r x).post
    let matched := matchCodes r all 0 r.codes none false
    match matched.2 with
    | none => (none, { r with codes := matched.1 })
    | some c => foundCode { r with codes := matched.1 } all c

/-! ### `set_code` -/

/-- The code that a message shows. -/
def messageCode (r : IrRemote) (code : IrNcode) : IrCode :=
  let word := if hasPre r then r.preData <<< r.bits ||| code.code else code.code
  let word := if hasPost r then word <<< r.postDataBits ||| r.postData else word
  if r.has compatReverse then reverse word (bitCount r) else word

/-- `time_elapsed(&remote->last_send, &current) < 1000000` -/
def soonAfter (r : IrRemote) (now : ℕ) : Bool := r.lastSend ≤ now && now - r.lastSend < 1000000

/-- The frame repeats the last one: `same` tells whether the remote was the last
that was decoded. -/
def continuesPress (r : IrRemote) (c : ℕ) (code : IrNcode) (state : IrCode) (same flag : Bool)
    (now : ℕ) : Bool :=
  same && (r.lastCode == some c || code.next != [] && code.current != []) && flag &&
    soonAfter r now && (!hasToggleBitMask r || state == r.toggleBitMaskState)

/-- The counters after a frame that repeats the last one. -/
def countRepeated (r : IrRemote) (code : IrNcode) : IrRemote :=
  if hasToggleMask r then
    if r.toggleMaskState + 1 = 4 then { r with reps := r.reps + 1, toggleMaskState := 2 }
    else { r with toggleMaskState := r.toggleMaskState + 1 }
  else if code.current = [] then { r with reps := r.reps + 1 }
  else r

def startToggleMask (r : IrRemote) (c : ℕ) : IrRemote :=
  if hasToggleMask r then { r with toggleMaskState := 1, toggleCode := some c } else r

def storeToggleBits (r : IrRemote) (state : IrCode) : IrRemote :=
  if hasToggleBitMask r then { r with toggleBitMaskState := state } else r

/-- The counters after the first frame of a press. -/
def startPress (r : IrRemote) (c : ℕ) (code : IrNcode) (state : IrCode) : IrRemote :=
  storeToggleBits
    (startToggleMask { r with reps := if code.next ≠ [] ∧ code.current = [] then 1 else 0 } c) state

/-- The frame is counted. A release that was detected makes a press of a
repetition. -/
def countFrame (r : IrRemote) (c : ℕ) (code : IrNcode) (state : IrCode) (same repeatFlag : Bool)
    (now : ℕ) : IrRemote :=
  if continuesPress r c code state same (repeatFlag && !r.releaseDetected) now then
    countRepeated { r with releaseDetected := false } code
  else startPress { r with releaseDetected := false } c code state

/-- `set_code` without the code it returns. -/
def setCode (r : IrRemote) (c : ℕ) (state : IrCode) (same repeatFlag : Bool) (gmin gmax : ℤ)
    (now : ℕ) : IrRemote :=
  match r.codes[c]? with
  | none => r
  | some code =>
      let counted := countFrame r c code state same repeatFlag now
      { counted with
        lastCode := if code.current = [] then some c else counted.lastCode
        lastSend := now
        minRemainingGap := gmin
        maxRemainingGap := gmax }

/-! ### The part of `decode_all` for one remote -/

/-- All sequences are expected from their beginning. -/
def resetCurrents (r : IrRemote) : IrRemote :=
  { r with codes := r.codes.map fun code => { code with current := [] } }

/-- An XMP button goes on with the second code of its sequence. -/
def expectNext (r : IrRemote) (c : ℕ) : IrRemote :=
  if isXmp r then
    { r with codes := r.codes.modify c fun code => { code with current := code.next } }
  else r

/-- The number of repeats in the message; `none` when it is suppressed. -/
def reportedReps (r : IrRemote) (code : IrNcode) : Option ℤ :=
  let reps := r.reps - if code.next = [] then 0 else 1
  if 0 < reps then if reps ≤ r.suppressRepeat then none else some (reps - r.suppressRepeat)
  else some reps

/-- The frame is not the end of a button. -/
def incomplete (r : IrRemote) (code : IrNcode) : Bool :=
  hasToggleMask r && toggleOdd r || code.current != []

/-- What becomes of a code that is found: the index of the button and the number
of its repeats, if there is a message. -/
def reportCode (r : IrRemote) (c : ℕ) : Option (ℕ × ℤ) × IrRemote :=
  match r.codes[c]? with
  | none => (none, r)
  | some code =>
      if incomplete r code then (none, r)
      else ((reportedReps r code).map (c, ·), expectNext (resetCurrents r) c)

/-- One remote in the loop of `decode_all`, with what the driver has decoded for
it; `same` tells whether it was the last remote that was decoded. -/
def decodeFrame (r : IrRemote) (x : Decoded) (same : Bool) (now : ℕ) :
    Option (ℕ × ℤ) × IrRemote :=
  match getCode r ⟨x.pre, x.code, x.post⟩ with
  | (none, r) => (none, { r with toggleMaskState := 0 })
  | (some (c, state), r) =>
      reportCode (setCode r c state same x.repeatFlag x.minRemainingGap x.maxRemainingGap now) c

end Lirc
