import Mathlib.Data.Int.Basic
import Mathlib.Data.List.Basic
import Mathlib.Data.BitVec

/-!
The data of `ir_remote_types.h` and the inline helpers of `ir_remote.h`.

Code words are 64-bit vectors. A duration (`lirc_t`) is an integer number
of microseconds and may be negative, as the C `int` it stands for. A
pointer into the list of further codes of a button is the part of the list
it points to, so the empty list is `NULL`.
-/

namespace Lirc

/-- `ir_code` -/
abbrev IrCode := BitVec 64

/-- A C string without its terminating zero. -/
abbrev Name := List Char

/-- `strcasecmp(a, b) == 0` -/
def strcaseeq (a b : Name) : Bool := a.map Char.toLower == b.map Char.toLower

/-- `struct ir_ncode`. The further codes of a sequence are `next`;
`current` and `transmitState` point into them. -/
structure IrNcode where
  name : Name
  code : IrCode
  signals : Option (List ℤ) := none
  next : List IrCode := []
  current : List IrCode := []
  transmitState : List IrCode := []
  deriving DecidableEq, Repr, Inhabited

/-! ### Flags -/

def protocolMask : ℕ := 0x07ff
def rawCodes : ℕ := 0x0001
def rc5 : ℕ := 0x0002
def rc6 : ℕ := 0x0004
def rcmm : ℕ := 0x0008
def spaceEnc : ℕ := 0x0010
def spaceFirst : ℕ := 0x0020
def goldstar : ℕ := 0x0040
def grundig : ℕ := 0x0080
def bo : ℕ := 0x0100
def serial : ℕ := 0x0200
def xmp : ℕ := 0x0400
def noHeadRep : ℕ := 0x1000
def noFootRep : ℕ := 0x2000
def constLength : ℕ := 0x4000
def repeatHeader : ℕ := 0x8000
def compatReverse : ℕ := 0x00010000

/-- `parity` of a serial remote. -/
inductive Parity
  | none | even | odd
  deriving DecidableEq, Repr, Inhabited

/-- `struct ir_remote`. `lastCode` and `toggleCode` point into `codes`;
times are microseconds since the epoch. -/
structure IrRemote where
  name : Name := []
  codes : List IrNcode := []
  bits : ℕ := 0
  flags : ℕ := 0
  eps : ℤ := 0
  aeps : ℤ := 0
  phead : ℤ := 0
  shead : ℤ := 0
  pthree : ℤ := 0
  sthree : ℤ := 0
  ptwo : ℤ := 0
  stwo : ℤ := 0
  pone : ℤ := 0
  sone : ℤ := 0
  pzero : ℤ := 0
  szero : ℤ := 0
  plead : ℤ := 0
  ptrail : ℤ := 0
  pfoot : ℤ := 0
  sfoot : ℤ := 0
  prepeat : ℤ := 0
  srepeat : ℤ := 0
  preDataBits : ℕ := 0
  preData : IrCode := 0
  postDataBits : ℕ := 0
  postData : IrCode := 0
  preP : ℤ := 0
  preS : ℤ := 0
  postP : ℤ := 0
  postS : ℤ := 0
  gap : ℕ := 0
  gap2 : ℕ := 0
  repeatGap : ℕ := 0
  toggleBitMask : IrCode := 0
  suppressRepeat : ℤ := 0
  minRepeat : ℤ := 0
  minCodeRepeat : ℕ := 0
  toggleMask : IrCode := 0
  rc6Mask : IrCode := 0
  baud : ℕ := 0
  bitsInByte : ℕ := 0
  parity : Parity := .none
  stopBits : ℕ := 0
  ignoreMask : IrCode := 0
  toggleBitMaskState : IrCode := 0
  toggleMaskState : ℤ := 0
  repeatCountdown : ℤ := 0
  lastCode : Option ℕ := none
  toggleCode : Option ℕ := none
  reps : ℤ := 0
  lastSend : ℕ := 0
  minRemainingGap : ℤ := 0
  maxRemainingGap : ℤ := 0
  minTotalSignalLength : ℤ := 0
  maxTotalSignalLength : ℤ := 0
  minGapLength : ℤ := 0
  maxGapLength : ℤ := 0
  releaseDetected : Bool := false
  deriving DecidableEq, Repr, Inhabited

/-- `remote->flags & f` -/
def IrRemote.has (r : IrRemote) (f : ℕ) : Bool := r.flags &&& f != 0

/-- `(remote->flags & IR_PROTOCOL_MASK) == p` -/
def IrRemote.protocolIs (r : IrRemote) (p : ℕ) : Bool := r.flags &&& protocolMask == p

section Predicates

variable (r : IrRemote)

def bitCount : ℕ := r.preDataBits + r.bits + r.postDataBits

def hasRepeat : Bool := 0 < r.prepeat && 0 < r.srepeat
def isRaw : Bool := r.protocolIs rawCodes
def isSpaceEnc : Bool := r.protocolIs spaceEnc
def isSpaceFirst : Bool := r.protocolIs spaceFirst
def isRc5 : Bool := r.protocolIs rc5
def isRc6 : Bool := r.protocolIs rc6 || r.rc6Mask != 0
def isBiphase : Bool := isRc5 r || isRc6 r
def isRcmm : Bool := r.protocolIs rcmm
def isGoldstar : Bool := r.protocolIs goldstar
def isGrundig : Bool := r.protocolIs grundig
def isBo : Bool := r.protocolIs bo
def isSerial : Bool := r.protocolIs serial
def isXmp : Bool := r.protocolIs xmp
def isConst : Bool := r.has constLength
def hasRepeatGap : Bool := 0 < r.repeatGap
def hasPre : Bool := 0 < r.preDataBits
def hasPost : Bool := 0 < r.postDataBits
def hasHeader : Bool := 0 < r.phead && 0 < r.shead
def hasFoot : Bool := 0 < r.pfoot && 0 < r.sfoot
def hasToggleBitMask : Bool := r.toggleBitMask != 0
def hasIgnoreMask : Bool := r.ignoreMask != 0
def hasToggleMask : Bool := r.toggleMask != 0

/-- `min_gap`: the gaps are read as `lirc_t`, so they stay below `2^31`. -/
def minGap : ℤ := if r.gap2 ≠ 0 ∧ r.gap2 < r.gap then r.gap2 else r.gap

def maxGap : ℤ := if r.gap < r.gap2 then r.gap2 else r.gap

end Predicates

theorem minGap_nonneg (r : IrRemote) : 0 ≤ minGap r := by
  unfold minGap; split <;> omega

theorem minGap_le_maxGap (r : IrRemote) : minGap r ≤ maxGap r := by
  unfold minGap maxGap; split <;> split <;> omega

/-- A remote follows at most one protocol. -/
theorem protocolIs_unique {r : IrRemote} {p q : ℕ} (hp : r.protocolIs p = true)
    (hpq : p ≠ q) : r.protocolIs q = false := by
  simp only [IrRemote.protocolIs, beq_iff_eq] at hp
  simp [IrRemote.protocolIs, hp, hpq]

/-! ### Code words -/

/-- `bits_set` -/
def bitsSet (data : IrCode) : ℕ :=
  ((List.range 64).filter fun i => data.getLsbD i).length

/-- The loop of `reverse`. -/
def reverseLoop (data : IrCode) (bits : ℕ) : ℕ → IrCode → IrCode
  | 0, c => c
  | i + 1, c =>
      reverseLoop data bits i c |||
        ((if data &&& (1#64 <<< i) ≠ 0 then 1#64 else 0#64) <<< (bits - 1 - i))

/-- `reverse` -/
def reverse (data : IrCode) (bits : ℕ) : IrCode := reverseLoop data bits bits 0

/-- `gen_mask` -/
def genMask : ℕ → IrCode
  | 0 => 0
  | n + 1 => (genMask n <<< 1) ||| 1

/-- `gen_ir_code` -/
def genIrCode (r : IrRemote) (pre code post : IrCode) : IrCode :=
  (((pre &&& genMask r.preDataBits) <<< r.bits |||
      (if isRaw r then code else code &&& genMask r.bits)) <<< r.postDataBits) |||
    (post &&& genMask r.postDataBits)

/-! ### Tolerances -/

/-- What the decoder reads of `struct hardware`. -/
structure Hardware where
  resolution : ℕ := 0
  recMode : ℕ := 0
  sendMode : ℕ := 0
  codeLength : ℕ := 0
  deriving DecidableEq, Repr, Inhabited

def modeRaw : ℕ := 0x01
def modePulse : ℕ := 0x02
def modeMode2 : ℕ := 0x04
def modeLirccode : ℕ := 0x10

section Tolerance

variable (hw : Hardware) (r : IrRemote)

/-- The absolute tolerance. `hw.resolution` is unsigned, so a negative
`aeps` is compared as a large number. -/
def aepsOf : ℤ :=
  if r.aeps % 2 ^ 32 < hw.resolution then hw.resolution else r.aeps

def expect (delta exdelta : ℤ) : Bool :=
  |exdelta - delta| ≤ (exdelta * r.eps).tdiv 100 || |exdelta - delta| ≤ aepsOf hw r

def expectAtLeast (delta exdelta : ℤ) : Bool :=
  exdelta ≤ delta + (exdelta * r.eps).tdiv 100 || exdelta ≤ delta + aepsOf hw r

def expectAtMost (delta exdelta : ℤ) : Bool :=
  delta ≤ exdelta + (exdelta * r.eps).tdiv 100 || delta ≤ exdelta + aepsOf hw r

def upperLimit (val : ℤ) : ℤ :=
  max ((val * (100 + r.eps)).tdiv 100) (val + aepsOf hw r)

/-- At least one of the two tolerances is not negative, so that a sample
passes against its own length. -/
def Tolerant : Prop := 0 ≤ r.eps ∨ 0 ≤ r.aeps

instance : Decidable (Tolerant r) := inferInstanceAs (Decidable (_ ∨ _))

end Tolerance

variable {hw : Hardware} {r : IrRemote}

theorem Tolerant.aepsOf_nonneg (h : 0 ≤ r.aeps) : 0 ≤ aepsOf hw r := by
  unfold aepsOf; split <;> omega

theorem Tolerant.slack (hw : Hardware) (h : Tolerant r) {x : ℤ} (hx : 0 ≤ x) :
    0 ≤ (x * r.eps).tdiv 100 ∨ 0 ≤ aepsOf hw r := by
  rcases h with h | h
  · exact .inl (Int.tdiv_nonneg (Int.mul_nonneg hx h) (by decide))
  · exact .inr (Tolerant.aepsOf_nonneg h)

/-- A length passes against itself. -/
theorem Tolerant.expect_self (h : Tolerant r) {x : ℤ} (hx : 0 ≤ x) :
    expect hw r x x = true := by
  simpa [expect] using h.slack hw hx

theorem Tolerant.expectAtLeast_of_le (h : Tolerant r) {d x : ℤ} (hx : 0 ≤ x)
    (hd : x ≤ d) : expectAtLeast hw r d x = true := by
  simp only [expectAtLeast, Bool.or_eq_true, decide_eq_true_eq]
  rcases h.slack hw hx with h | h
  · left; omega
  · right; omega

end Lirc
