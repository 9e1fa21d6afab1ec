import Lirc.Library.CString
import Lirc.Library.Numeral
import Lirc.Remote

/-!
What `config_file.c` reads of a remote: its fields in their C types, the
conversions of numbers and flags, and the fields of a definition.
-/

namespace Lirc

open CString Numeral

/-- A file that is not accepted: the parser reports an error, or it follows a
pointer that is `NULL`. -/
inductive ConfigError
  | parseError | nullPointer
  deriving DecidableEq, Repr, Inhabited

abbrev Config (α : Type) := Except ConfigError α

/-- `REVERSE`, which the parser replaces by `COMPAT_REVERSE`. -/
def reverseFlag : ℕ := 0x0800

/-- The part of `struct ir_remote` that a file defines, up to
`toggle_bit_mask_state`. -/
structure ConfRemote where
  name : Option Name := none
  codes : Option (List IrNcode) := none
  bits : ℤ := 0
  flags : ℕ := 0
  eps : ℤ := 0
  aeps : ℤ := 0
  phead : ℤ := 0
  shead : ℤ := 0
  pthree : ℤ := 0
  sthree : ℤ := 0
  ptwo : ℤ := 0
  stwo : ℤ := 0
  pone : ℤ := 0
  sone : ℤ := 0
  pzero : ℤ := 0
  szero : ℤ := 0
  plead : ℤ := 0
  ptrail : ℤ := 0
  pfoot : ℤ := 0
  sfoot : ℤ := 0
  prepeat : ℤ := 0
  srepeat : ℤ := 0
  preDataBits : ℤ := 0
  preData : IrCode := 0
  postDataBits : ℤ := 0
  postData : IrCode := 0
  preP : ℤ := 0
  preS : ℤ := 0
  postP : ℤ := 0
  postS : ℤ := 0
  gap : ℕ := 0
  gap2 : ℕ := 0
  repeatGap : ℕ := 0
  toggleBit : ℤ := 0
  toggleBitMask : IrCode := 0
  suppressRepeat : ℤ := 0
  minRepeat : ℤ := 0
  minCodeRepeat : ℕ := 0
  freq : ℕ := 0
  dutyCycle : ℕ := 0
  toggleMask : IrCode := 0
  rc6Mask : IrCode := 0
  baud : ℕ := 0
  bitsInByte : ℕ := 0
  parity : Parity := .none
  stopBits : ℕ := 0
  ignoreMask : IrCode := 0
  toggleBitMaskState : IrCode := 0
  deriving DecidableEq, Repr, Inhabited

namespace ConfRemote

variable (rem : ConfRemote)

/-- `rem->flags & f` -/
def has (f : ℕ) : Bool := rem.flags &&& f != 0

/-- `(rem->flags & IR_PROTOCOL_MASK) == p` -/
def protocolIs (p : ℕ) : Bool := rem.flags &&& protocolMask == p

def isRaw : Bool := rem.protocolIs rawCodes
def isSerial : Bool := rem.protocolIs serial
def isConst : Bool := rem.has constLength
def hasRepeat : Bool := 0 < rem.prepeat && 0 < rem.srepeat
def hasRepeatGap : Bool := 0 < rem.repeatGap
def hasPre : Bool := 0 < rem.preDataBits
def hasPost : Bool := 0 < rem.postDataBits
def hasHeader : Bool := 0 < rem.phead && 0 < rem.shead
def hasFoot : Bool := 0 < rem.pfoot && 0 < rem.sfoot
def hasToggleBitMask : Bool := rem.toggleBitMask != 0
def hasToggleMask : Bool := rem.toggleMask != 0
def hasIgnoreMask : Bool := rem.ignoreMask != 0

/-- `bit_count` -/
def bitCount : ℤ := rem.preDataBits + rem.bits + rem.postDataBits

/-- `set_protocol(rem, protocol)` -/
def setProtocol (protocol : ℕ) : ConfRemote :=
  { rem with flags := (rem.flags &&& (2 ^ 32 - 1 - protocolMask)) ||| protocol }

end ConfRemote

/-! ### Numbers -/

/-- `s_strtocode` -/
def sStrtocode (val : List Char) : Config IrCode :=
  let n := scan val
  match n.toUnsigned with
  | none => .error .parseError
  | some v => if n.rest = [] ∧ val ≠ [] then .ok (BitVec.ofNat 64 v) else .error .parseError

/-- `strtoul`, cut to 32 bits. -/
def strtou32 (n : Scan) : ℕ := n.toUnsigned.getD (2 ^ 64 - 1) % 2 ^ 32

/-- `s_strtou32`, and `s_strtoui` where `unsigned int` has 32 bits. -/
def sStrtou32 (val : List Char) : Config ℕ :=
  if val = [] ∨ (scan val).rest ≠ [] then .error .parseError else .ok (strtou32 (scan val))

def sStrtoui (val : List Char) : Config ℕ := sStrtou32 val

/-- The `int` with the bits of a 32-bit word. -/
def toInt32 (n : ℕ) : ℤ := if n < 2 ^ 31 then n else n - 2 ^ 32

/-- `s_strtolirc_t`. A value that is negative as a `lirc_t` is only warned
about. -/
def sStrtolircT (val : List Char) : Config ℤ := (sStrtou32 val).map toInt32

/-- `s_strtoi` -/
def sStrtoi (val : List Char) : Config ℤ :=
  let n := (scan val).toSigned
  if val = [] ∨ (scan val).rest ≠ [] ∨ n < -2 ^ 31 ∨ 2 ^ 31 ≤ n then .error .parseError else .ok n

/-! ### Flags -/

/-- `all_flags` -/
def allFlags : List (List Char × ℕ) :=
  [("RAW_CODES".toList, rawCodes), ("RC5".toList, rc5), ("SHIFT_ENC".toList, rc5),
    ("RC6".toList, rc6), ("RCMM".toList, rcmm), ("SPACE_ENC".toList, spaceEnc),
    ("SPACE_FIRST".toList, spaceFirst), ("GOLDSTAR".toList, goldstar),
    ("GRUNDIG".toList, grundig), ("BO".toList, bo), ("SERIAL".toList, serial),
    ("XMP".toList, xmp), ("REVERSE".toList, reverseFlag), ("NO_HEAD_REP".toList, noHeadRep),
    ("NO_FOOT_REP".toList, noFootRep), ("CONST_LENGTH".toList, constLength),
    ("REPEAT_HEADER".toList, repeatHeader)]

/-- The flags between the bars of a value. -/
def splitBars (val : List Char) : List (List Char) := val.splitOn '|'

/-- One flag of `parseFlags`: at most one protocol may be given. -/
def addFlag (flags : ℕ) (flag : List Char) : Config ℕ :=
  match allFlags.find? fun f => strcaseeq f.1 flag with
  | none => .error .parseError
  | some f =>
      if f.2 &&& protocolMask ≠ 0 ∧ flags &&& protocolMask ≠ 0 then .error .parseError
      else .ok (flags ||| f.2)

/-- `parseFlags` -/
def parseFlags (val : List Char) : Config ℕ := (splitBars val).foldlM addFlag 0

/-! ### Fields -/

/-- The parity letter of `serial_mode`. -/
def parityOf (c : Char) : Config Parity :=
  match c.toUpper with
  | 'N' => .ok .none
  | 'E' => .ok .even
  | 'O' => .ok .odd
  | _ => .error .parseError

/-- The stop bits of `serial_mode`, in halves. -/
def stopBitsOf (val : List Char) : Config ℕ :=
  if val = "1.5".toList then .ok 3 else (sStrtoui val).map fun n => n * 2 % 2 ^ 32

/-- `serial_mode` -/
def serialMode (val : List Char) (rem : ConfRemote) : Config ConfRemote :=
  match val with
  | bits :: parity :: stop =>
      if '5' ≤ bits ∧ bits ≤ '9' then do
        let parity ← parityOf parity
        let stopBits ← stopBitsOf stop
        pure { rem with bitsInByte := bits.toNat - '0'.toNat, parity, stopBits }
      else .error .parseError
  | _ => .error .parseError

abbrev SetField := List Char → ConfRemote → Config ConfRemote

/-- The definitions with one value, in the order of `defineRemote`. -/
def oneValue : List (List Char × SetField) :=
  [("name".toList, fun val rem => pure { rem with name := some val }),
    ("bits".toList, fun val rem => (sStrtoi val).map ({ rem with bits := · })),
    ("flags".toList, fun val rem => (parseFlags val).map ({ rem with flags := rem.flags ||| · })),
    ("eps".toList, fun val rem => (sStrtoi val).map ({ rem with eps := · })),
    ("aeps".toList, fun val rem => (sStrtoi val).map ({ rem with aeps := · })),
    ("plead".toList, fun val rem => (sStrtolircT val).map ({ rem with plead := · })),
    ("ptrail".toList, fun val rem => (sStrtolircT val).map ({ rem with ptrail := · })),
    ("pre_data_bits".toList, fun val rem => (sStrtoi val).map ({ rem with preDataBits := · })),
    ("pre_data".toList, fun val rem => (sStrtocode val).map ({ rem with preData := · })),
    ("post_data_bits".toList, fun val rem => (sStrtoi val).map ({ rem with postDataBits := · })),
    ("post_data".toList, fun val rem => (sStrtocode val).map ({ rem with postData := · })),
    ("repeat_gap".toList, fun val rem => (sStrtou32 val).map ({ rem with repeatGap := · })),
    ("toggle_bit".toList, fun val rem => (sStrtoi val).map ({ rem with toggleBit := · })),
    ("toggle_bit_mask".toList,
      fun val rem => (sStrtocode val).map ({ rem with toggleBitMask := · })),
    ("toggle_mask".toList, fun val rem => (sStrtocode val).map ({ rem with toggleMask := · })),
    ("rc6_mask".toList, fun val rem => (sStrtocode val).map ({ rem with rc6Mask := · })),
    ("ignore_mask".toList, fun val rem => (sStrtocode val).map ({ rem with ignoreMask := · })),
    ("repeat_bit".toList, fun val rem => (sStrtoi val).map ({ rem with toggleBit := · })),
    ("suppress_repeat".toList,
      fun val rem => (sStrtoi val).map ({ rem with suppressRepeat := · })),
    ("min_repeat".toList, fun val rem => (sStrtoi val).map ({ rem with minRepeat := · })),
    ("min_code_repeat".toList,
      fun val rem => (sStrtoi val).map fun n => { rem with minCodeRepeat := (n % 2 ^ 32).toNat }),
    ("frequency".toList, fun val rem => (sStrtoui val).map ({ rem with freq := · })),
    ("duty_cycle".toList, fun val rem => (sStrtoui val).map ({ rem with dutyCycle := · })),
    ("baud".toList, fun val rem => (sStrtoui val).map ({ rem with baud := · })),
    ("serial_mode".toList, serialMode)]

/-- A definition with a pulse and a space. -/
def pair (set : ConfRemote → ℤ → ℤ → ConfRemote) (val val2 : List Char) (rem : ConfRemote) :
    Config ConfRemote := do
  let p ← sStrtolircT val
  let s ← sStrtolircT val2
  pure (set rem p s)

/-- The definitions with two values. -/
def twoValues : List (List Char × (List Char → SetField)) :=
  [("header".toList, pair fun rem p s => { rem with phead := p, shead := s }),
    ("three".toList, pair fun rem p s => { rem with pthree := p, sthree := s }),
    ("two".toList, pair fun rem p s => { rem with ptwo := p, stwo := s }),
    ("one".toList, pair fun rem p s => { rem with pone := p, sone := s }),
    ("zero".toList, pair fun rem p s => { rem with pzero := p, szero := s }),
    ("foot".toList, pair fun rem p s => { rem with pfoot := p, sfoot := s }),
    ("repeat".toList, pair fun rem p s => { rem with prepeat := p, srepeat := s }),
    ("pre".toList, pair fun rem p s => { rem with preP := p, preS := s }),
    ("post".toList, pair fun rem p s => { rem with postP := p, postS := s })]

/-- `gap`, with one or two values. -/
def defineGap (val : List Char) (val2 : Option (List Char)) (rem : ConfRemote) :
    Config ConfRemote := do
  let gap2 ← val2.elim (.ok rem.gap2) sStrtou32
  let gap ← sStrtou32 val
  pure { rem with gap, gap2 }

/-- `defineRemote` -/
def defineRemote (key val : List Char) (val2 : Option (List Char)) (rem : ConfRemote) :
    Config ConfRemote :=
  if strcaseeq "gap".toList key then defineGap val val2 rem
  else
    match oneValue.find? fun f => strcaseeq f.1 key with
    | some f => f.2 val rem
    | none =>
        match val2 with
        | none => .error .parseError
        | some val2 =>
            match twoValues.find? fun f => strcaseeq f.1 key with
            | some f => f.2 val val2 rem
            | none => .error .parseError

/-! ### Codes -/

/-- `defineCode` and `defineNode`: a button with its code and the further
codes of a sequence, up to a comment. -/
def defineCode (key val : List Char) (more : List (List Char)) : Config IrNcode := do
  let code ← sStrtocode val
  let next ← (more.takeWhile fun v => v.head? ≠ some '#').mapM sStrtocode
  pure { name := key, code, next }

/-- `gen_mask` of a C `int`. -/
def maskOf (bits : ℤ) : IrCode := genMask bits.toNat

/-- The codes of a remote cut to its bits. -/
def cutCode (mask : IrCode) (c : IrNcode) : IrNcode :=
  { c with code := c.code &&& mask, next := c.next.map (· &&& mask) }

/-- `sanityChecks`. The codes are followed without a test. -/
def sanityChecks (rem : ConfRemote) : Config ConfRemote :=
  match rem.name with
  | none => .error .parseError
  | some _ =>
      if rem.isRaw then .ok rem
      else
        match rem.codes with
        | none => .error .nullPointer
        | some codes =>
            .ok { rem with
              preData := rem.preData &&& maskOf rem.preDataBits
              postData := rem.postData &&& maskOf rem.postDataBits
              codes := some (codes.map (cutCode (maskOf rem.bits))) }

end Lirc
