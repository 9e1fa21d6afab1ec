import Lirc.ReadConfig
import Lirc.Library.Decimal
import Lirc.Library.Lines

/-!
`dump_config.c`: the lines that are written for remotes.
-/

namespace Lirc

open CString Numeral

/-! ### Values -/

/-- `%5u` and the like: at least so many characters, with blanks in front. -/
def padded (width : ℕ) (s : List Char) : List Char := List.leftpad width ' ' s

/-- `%-24s` and the like. -/
def leftAligned (width : ℕ) (s : List Char) : List Char :=
  s ++ List.replicate (width - s.length) ' '

/-- `%u` of `(__u32) n` -/
def decimalU32 (n : ℤ) : List Char := decimal (n % 2 ^ 32).toNat

/-- `%d` of an `unsigned int` -/
def decimalUnsigned (n : ℕ) : List Char := decimalInt (toInt32 n)

/-- `0x%0*llX`: at least so many digits. -/
def hexUpper (width : ℕ) (code : IrCode) : List Char :=
  '0' :: 'x' :: List.leftpad width '0' ((Nat.toDigits 16 code.toNat).map Char.toUpper)

/-! ### Lines -/

/-- A line: what stands at its start, and the values behind it. -/
def dumpLine (start : String) (vals : List (List Char)) : List Char :=
  start.toList ++ [' '].intercalate vals

/-- A line that is written under a condition. -/
def dumpIf (c : Bool) (start : String) (vals : List (List Char)) : List (List Char) :=
  if c then [dumpLine start vals] else []

/-- A line with a pulse and a space. -/
def dumpPair (c : Bool) (start : String) (p s : ℤ) : List (List Char) :=
  dumpIf c start [padded 5 (decimalU32 p), padded 5 (decimalU32 s)]

/-- What is known of the program when it writes: its version, the name of the driver and the
time. -/
structure DumpStamp where
  version : List Char
  driver : List Char
  asctime : List Char

/-- `fprint_comment` -/
def fprintComment (stamp : DumpStamp) (rem : ConfRemote) : List (List Char) :=
  [dumpLine "#" [],
    dumpLine "# this config file was automatically generated" [],
    dumpLine "# using lirc-"
      [stamp.version ++ '(' :: stamp.driver ++ ") on ".toList ++ stamp.asctime],
    dumpLine "#" [],
    dumpLine "# contributed by " [],
    dumpLine "#" [],
    dumpLine "# brand:                       " [rem.name.getD []],
    dumpLine "# model no. of remote control: " [],
    dumpLine "# devices being controlled by this remote:" [],
    dumpLine "#" [],
    dumpLine "" []]

/-- The names of the flags, in the order of `all_flags`. A flag that has been written is taken out
of `flags`. -/
def flagNames : ℕ → List (List Char × ℕ) → List (List Char)
  | _, [] => []
  | flags, f :: fs =>
      if flags &&& f.2 ≠ 0 then f.1 :: flagNames (flags &&& (2 ^ 32 - 1 - f.2)) fs
      else flagNames flags fs

/-- `fprint_flags` -/
def fprintFlags (flags : ℕ) : List (List Char) :=
  dumpIf (flagNames flags allFlags ≠ []) "  flags " [['|'].intercalate (flagNames flags allFlags)]

/-- `fprint_remote_gap` -/
def fprintRemoteGap (rem : ConfRemote) : List (List Char) :=
  if rem.gap2 ≠ 0 then [dumpLine "  gap          " [decimalU32 rem.gap, decimalU32 rem.gap2]]
  else [dumpLine "  gap          " [decimalU32 rem.gap]]

/-- The value of `serial_mode`. -/
def serialModeText (rem : ConfRemote) : List Char :=
  decimal rem.bitsInByte ++ 'N' :: decimal (rem.stopBits / 2) ++
    (if rem.stopBits % 2 ≠ 0 then ".5".toList else [])

/-- `fprint_remote_head` -/
def fprintRemoteHead (rem : ConfRemote) : List (List Char) :=
  [dumpLine "begin remote" [], dumpLine "" []] ++
  [dumpLine "  name  " [rem.name.getD []]] ++
  dumpIf (!rem.isRaw) "  bits        " [padded 5 (decimalInt rem.bits)] ++
  fprintFlags rem.flags ++
  [dumpLine "  eps         " [padded 5 (decimalInt rem.eps)]] ++
  [dumpLine "  aeps        " [padded 5 (decimalInt rem.aeps)]] ++ [dumpLine "" []] ++
  dumpPair (!rem.isRaw && rem.hasHeader) "  header      " rem.phead rem.shead ++
  dumpPair (!rem.isRaw && (rem.pthree != 0 || rem.sthree != 0)) "  three       "
    rem.pthree rem.sthree ++
  dumpPair (!rem.isRaw && (rem.ptwo != 0 || rem.stwo != 0)) "  two         " rem.ptwo rem.stwo ++
  dumpPair (!rem.isRaw) "  one         " rem.pone rem.sone ++
  dumpPair (!rem.isRaw) "  zero        " rem.pzero rem.szero ++
  dumpIf (rem.ptrail != 0) "  ptrail      " [padded 5 (decimalU32 rem.ptrail)] ++
  dumpIf (!rem.isRaw && rem.plead != 0) "  plead       " [padded 5 (decimalU32 rem.plead)] ++
  dumpPair (!rem.isRaw && rem.hasFoot) "  foot        " rem.pfoot rem.sfoot ++
  dumpPair rem.hasRepeat "  repeat      " rem.prepeat rem.srepeat ++
  dumpIf (!rem.isRaw && rem.hasPre) "  pre_data_bits   " [decimalInt rem.preDataBits] ++
  dumpIf (!rem.isRaw && rem.hasPre) "  pre_data       " [hexUpper 0 rem.preData] ++
  dumpIf (!rem.isRaw && rem.hasPost) "  post_data_bits  " [decimalInt rem.postDataBits] ++
  dumpIf (!rem.isRaw && rem.hasPost) "  post_data      " [hexUpper 0 rem.postData] ++
  dumpPair (!rem.isRaw && (rem.preP != 0 && rem.preS != 0)) "  pre         " rem.preP rem.preS ++
  dumpPair (!rem.isRaw && (rem.postP != 0 && rem.postS != 0)) "  post        "
    rem.postP rem.postS ++
  fprintRemoteGap rem ++
  dumpIf rem.hasRepeatGap "  repeat_gap   " [decimalU32 rem.repeatGap] ++
  dumpIf (0 < rem.suppressRepeat) "  suppress_repeat " [decimalInt rem.suppressRepeat] ++
  dumpIf (0 < rem.minRepeat) "  min_repeat      " [decimalInt rem.minRepeat] ++
  dumpIf (0 < rem.minRepeat && rem.suppressRepeat == 0) "#  suppress_repeat "
    [decimalInt rem.minRepeat] ++
  dumpIf (0 < rem.minRepeat && rem.suppressRepeat == 0)
    "#  uncomment to suppress unwanted repeats" [] ++
  dumpIf (!rem.isRaw && 0 < rem.minCodeRepeat) "  min_code_repeat "
    [decimalUnsigned rem.minCodeRepeat] ++
  dumpIf (!rem.isRaw) "  toggle_bit_mask " [hexUpper 0 rem.toggleBitMask] ++
  dumpIf (!rem.isRaw && rem.hasToggleMask) "  toggle_mask    " [hexUpper 0 rem.toggleMask] ++
  dumpIf (!rem.isRaw && rem.rc6Mask != 0) "  rc6_mask    " [hexUpper 0 rem.rc6Mask] ++
  dumpIf (!rem.isRaw && rem.hasIgnoreMask) "  ignore_mask " [hexUpper 0 rem.ignoreMask] ++
  dumpIf (!rem.isRaw && rem.isSerial) "  baud            " [decimalUnsigned rem.baud] ++
  dumpIf (!rem.isRaw && rem.isSerial) "  serial_mode     " [serialModeText rem] ++
  dumpIf (rem.freq != 0) "  frequency    " [decimal rem.freq] ++
  dumpIf (rem.dutyCycle != 0) "  duty_cycle   " [decimal rem.dutyCycle] ++
  [dumpLine "" []]

/-- `fprint_remote_foot` -/
def fprintRemoteFoot : List (List Char) := [dumpLine "end remote" []]

/-- `fprint_remote_signal_head` -/
def fprintRemoteSignalHead (rem : ConfRemote) : List (List Char) :=
  if !rem.isRaw then [dumpLine "      begin codes" []]
  else [dumpLine "      begin raw_codes" [], dumpLine "" []]

/-- `fprint_remote_signal_foot` -/
def fprintRemoteSignalFoot (rem : ConfRemote) : List (List Char) :=
  if !rem.isRaw then [dumpLine "      end codes" [], dumpLine "" []]
  else [dumpLine "      end raw_codes" [], dumpLine "" []]

/-- The samples of a raw button, six to a line. -/
def fprintSamples : List ℤ → List (List Char)
  | [] => []
  | x :: xs =>
      dumpLine "          " (((x :: xs).take 6).map fun t => padded 7 (decimalU32 t)) ::
        fprintSamples (xs.drop 5)
termination_by signals => signals.length

/-- `fprint_remote_signal`. A line with six samples has ended when the loop ends, another one is
ended behind the loop; an empty line follows. -/
def fprintRemoteSignal (rem : ConfRemote) (codes : IrNcode) : List (List Char) :=
  if !rem.isRaw then
    let width := ((rem.bits + 3).tdiv 4).toNat
    [dumpLine "          "
      (leftAligned 24 codes.name :: hexUpper width codes.code :: codes.next.map (hexUpper width))]
  else
    dumpLine "          name " [codes.name] ::
      (fprintSamples (codes.signals.getD []) ++ [dumpLine "" []])

/-- `fprint_remote_signals` -/
def fprintRemoteSignals (rem : ConfRemote) : List (List Char) :=
  fprintRemoteSignalHead rem ++ (rem.codes.getD []).flatMap (fprintRemoteSignal rem) ++
    fprintRemoteSignalFoot rem

/-- `fprint_remote` -/
def fprintRemote (stamp : DumpStamp) (rem : ConfRemote) : List (List Char) :=
  fprintComment stamp rem ++ fprintRemoteHead rem ++ fprintRemoteSignals rem ++ fprintRemoteFoot

/-- The lines of `fprint_remotes`. -/
def fprintRemotes (stamp : DumpStamp) (all : List ConfRemote) : List (List Char) :=
  all.flatMap fun rem => fprintRemote stamp rem ++ [[], []]

/-- The file. -/
def dumpText (stamp : DumpStamp) (all : List ConfRemote) : List Char :=
  Lines.stream '\n' (fprintRemotes stamp all)

end Lirc
