import Lirc.Config
import Mathlib.Data.List.DropRight

/-!
`read_config`: the lines of a file, the sections they open and close, the
files they include, and what is done with the remotes at the end.
-/

namespace Lirc

open CString

/-- `LINE_LEN` -/
def lineLen : ℕ := 1024

/-- `MAX_INCLUDES` -/
def maxIncludes : ℕ := 10

/-- `FILENAME_MAX` -/
def filenameMax : ℕ := 4096

/-- `whitespace` -/
def whitespace : List Char := [' ', '\t']

/-! ### Lines -/

/-- `fgets` into a buffer for `n` characters and a zero. -/
def fgets : ℕ → List Char → List Char × List Char
  | 0, s => ([], s)
  | _ + 1, [] => ([], [])
  | n + 1, c :: cs =>
      if c = '\n' then ([c], cs)
      else
        let (buf, rest) := fgets n cs
        (c :: buf, rest)

theorem fgets_length (n : ℕ) (s : List Char) :
    (fgets n s).1.length + (fgets n s).2.length = s.length := by
  induction n generalizing s with
  | zero => simp [fgets]
  | succ n ih =>
      cases s with
      | nil => rfl
      | cons c cs =>
          have hcs := ih cs
          rw [fgets]
          split
          · simp only [List.length_cons, List.length_nil]
            omega
          · simp only [List.length_cons]
            omega

theorem fgets_pos {n : ℕ} {s : List Char} (hs : s ≠ []) : 0 < (fgets (n + 1) s).1.length := by
  obtain ⟨c, cs, rfl⟩ := List.exists_cons_of_ne_nil hs
  rw [fgets]
  split
  · simp
  · simp

/-- What `fgets(buf, LINE_LEN, f)` yields, one call after the other. -/
def fgetsAll (text : List Char) : List (List Char) :=
  if h : text = [] then []
  else
    (fgets (lineLen - 1) text).1 :: fgetsAll (fgets (lineLen - 1) text).2
termination_by text.length
decreasing_by
  have hlen := fgets_length (lineLen - 1) text
  have hpos : 0 < (fgets (lineLen - 1) text).1.length := fgets_pos h
  omega

/-- The removal of the line ending. The second test looks at the last
character but one, whether the last was a newline or not. -/
def chomp (buf : List Char) : List Char :=
  let len := buf.length - 1
  let buf := if buf[len]? = some '\n' then buf.take len else buf
  if 0 < len ∧ buf[len - 1]? = some '\r' then buf.take (len - 1) else buf

/-- The tokens of a string. -/
def tokens (s : List Char) : List (List Char) :=
  (s.splitOnP (whitespace.contains ·)).filter (· ≠ [])

/-! ### Sections -/

/-- `mode`, with the arrays that a section fills. -/
inductive Mode
  | none
  | remote
  | codes (list : List IrNcode)
  | rawCodes (list : List IrNcode)
  | rawName (list : List IrNcode) (name : Name) (signals : List ℤ)
  deriving DecidableEq, Repr, Inhabited

/-- The parser between two lines. `rem` is the remote it works on; `before`
is the list from `top_rem` up to it, and `after` what `rem->next` leads to. -/
structure Parser where
  mode : Mode := .none
  before : List ConfRemote := []
  rem : Option ConfRemote := none
  after : List ConfRemote := []
  deriving Repr, Inhabited

namespace Parser

variable (p : Parser)

/-- The list that starts at `top_rem`. -/
def chain : List ConfRemote := p.before ++ p.rem.toList ++ p.after

/-- A new last remote: what was behind `rem` is lost. -/
def append (rem : ConfRemote) : Parser :=
  { p with before := p.before ++ p.rem.toList, rem := some rem, after := [] }

/-- A list hung in behind `rem`, which then is the head of that list. -/
def splice : List ConfRemote → Parser
  | [] => { p with after := [] }
  | rem :: after => { p with before := p.before ++ p.rem.toList, rem := some rem, after }

/-- Work on the current remote. -/
def onRem (f : ConfRemote → Config ConfRemote) : Config Parser :=
  match p.rem with
  | none => .error .nullPointer
  | some rem => (f rem).map fun rem => { p with rem := some rem }

end Parser

/-- `checkMode` -/
def checkMode (p : Parser) (mode : Mode) : Config Unit :=
  if p.mode = mode then .ok () else .error .parseError

/-- `addSignal`: the signals are read as `unsigned int`. -/
def addSignal (signals : List ℤ) (val : List Char) : Config (List ℤ) :=
  (sStrtoui val).map fun t => signals ++ [toInt32 t]

/-- The entry of a raw button when its signal ends: a signal has an odd number
of samples. -/
def addRaw (list : List IrNcode) (name : Name) (signals : List ℤ) : Config (List IrNcode) :=
  if signals.length % 2 = 0 then .error .parseError
  else
    .ok (list ++ [{ name, code := BitVec.ofNat 64 (list.length + 1), signals := some signals }])

/-- A line of a section with codes, whatever its first word. -/
def codeLine (p : Parser) (list : List IrNcode) (key val : List Char)
    (more : List (List Char)) : Config Parser := do
  let code ← defineCode key val more
  pure { p with mode := .codes (list ++ [code]) }

/-- `begin` -/
def beginSection (p : Parser) (key val : List Char) (more : List (List Char)) :
    Config Parser :=
  if strcaseeq "codes".toList val then do
    checkMode p .remote
    let p ← p.onRem fun rem => if rem.codes.isSome then .error .parseError else .ok rem
    pure { p with mode := .codes [] }
  else if strcaseeq "raw_codes".toList val then do
    checkMode p .remote
    let p ← p.onRem fun rem =>
      if rem.codes.isSome then .error .parseError else .ok (rem.setProtocol rawCodes)
    pure { p with mode := .rawCodes [] }
  else if strcaseeq "remote".toList val then do
    checkMode p .none
    pure { p.append {} with mode := .remote }
  else
    match p.mode with
    | .codes list => codeLine p list key val more
    | _ => .error .parseError

/-- The buttons of a raw section that ends. -/
def endRawCodes : Mode → Config (List IrNcode)
  | .rawName list name signals => addRaw list name signals
  | .rawCodes list => .ok list
  | _ => .error .parseError

/-- `end` -/
def endSection (p : Parser) (key val : List Char) (more : List (List Char)) :
    Config Parser :=
  if strcaseeq "codes".toList val then
    match p.mode with
    | .codes list => do
        let p ← p.onRem fun rem => .ok { rem with codes := some list }
        pure { p with mode := .remote }
    | _ => .error .parseError
  else if strcaseeq "raw_codes".toList val then do
    let list ← endRawCodes p.mode
    let p ← p.onRem fun rem => .ok { rem with codes := some list }
    pure { p with mode := .remote }
  else if strcaseeq "remote".toList val then do
    checkMode p .remote
    let p ← p.onRem sanityChecks
    pure { p with mode := .none, after := [] }
  else
    match p.mode with
    | .codes list => codeLine p list key val more
    | _ => .error .parseError

/-- A line of a raw section: a name, or samples of the signal. -/
def rawLine (p : Parser) (key val : List Char) (more : List (List Char)) : Config Parser :=
  if strcaseeq "name".toList key then
    match p.mode with
    | .rawName list name signals => do
        let list ← addRaw list name signals
        pure { p with mode := .rawName list val [] }
    | .rawCodes list => pure { p with mode := .rawName list val [] }
    | _ => .error .parseError
  else
    match p.mode with
    | .rawName list name signals => do
        let signals ← (key :: val :: more).foldlM addSignal signals
        pure { p with mode := .rawName list name signals }
    | _ => .error .parseError

/-- A line with at least two words that opens or closes no section. -/
def bodyLine (p : Parser) (key val : List Char) (more : List (List Char)) : Config Parser :=
  match p.mode with
  | .none => pure p
  | .remote => p.onRem (defineRemote key val more.head?)
  | .codes list => codeLine p list key val more
  | .rawCodes _ | .rawName _ _ _ => rawLine p key val more

/-- A line that includes no file. -/
def plainLine (p : Parser) : List (List Char) → Config Parser
  | [] => pure p
  | [key] =>
      match p.mode with
      | .rawName list name signals => do
          let signals ← addSignal signals key
          pure { p with mode := .rawName list name signals }
      | _ => .error .parseError
  | key :: val :: more =>
      if strcaseeq "begin".toList key then beginSection p key val more
      else if strcaseeq "end".toList key then endSection p key val more
      else bodyLine p key val more

/-- The words of a line; a comment has none. -/
def words (buf : List Char) : List (List Char) :=
  let line := chomp (cstr buf)
  if line.head? = some '#' then [] else tokens line

/-! ### Included files -/

/-- `lirc_parse_include`: the name between quotes or angle brackets. -/
def lircParseInclude (s : List Char) : Option (List Char) :=
  if s.length < 2 then none
  else if (s.head? = some '"' ∧ s.getLast? = some '"') ∨
      (s.head? = some '<' ∧ s.getLast? = some '>') then some s.tail.dropLast
  else none

/-- `dirname` -/
def dirname (path : List Char) : List Char :=
  let stripped := path.rdropWhile (· = '/')
  if stripped = [] then (if path.contains '/' then ['/'] else ['.'])
  else if stripped.contains '/' then
    let dir := (stripped.rdropWhile (· ≠ '/')).rdropWhile (· = '/')
    if dir = [] then ['/'] else dir
  else ['.']

/-- `lirc_parse_relative` -/
def lircParseRelative (child current : List Char) : Option (List Char) :=
  if child.head? = some '/' then some child
  else if filenameMax + 1 ≤ current.length then none
  else
    let dir := dirname current
    if filenameMax + 1 < dir.length + 1 + child.length + 1 then none
    else some (dir ++ '/' :: child)

/-- The name behind `include`. -/
def includeOf (buf : List Char) : Option (List Char) :=
  match words buf with
  | key :: val :: _ => if strcaseeq "include".toList key then some val else none
  | _ => none

/-- Where an included file is found. -/
def includePath (name val : List Char) : Option (List Char) :=
  (lircParseInclude val).bind fun child => lircParseRelative child name

/-! ### The remotes of a file -/

/-- `1 << (all_bits - toggle_bit)`, where the shift takes its amount modulo
the width. -/
def toggleMaskOf (rem : ConfRemote) : IrCode :=
  1#64 <<< ((rem.bitCount - rem.toggleBit) % 64).toNat

/-- The `REVERSE` flag at the end of `read_config_recursive`: the first code of
every button is reversed. -/
def kickReverse (rem : ConfRemote) : ConfRemote :=
  if !rem.isRaw ∧ rem.has reverseFlag then
    { rem with
      preData := if rem.hasPre then reverse rem.preData rem.preDataBits.toNat else rem.preData
      postData :=
        if rem.hasPost then reverse rem.postData rem.postDataBits.toNat else rem.postData
      codes := rem.codes.map fun codes =>
        codes.map fun c => { c with code := reverse c.code rem.bits.toNat }
      flags := (rem.flags &&& (2 ^ 32 - 1 - reverseFlag)) ||| compatReverse }
  else rem

/-- The RC-6 mask of files that do not set it. -/
def kickRc6 (rem : ConfRemote) : ConfRemote :=
  if rem.has rc6 ∧ rem.rc6Mask = 0 ∧ 0 < rem.toggleBit then
    { rem with rc6Mask := toggleMaskOf rem }
  else rem

def kickToggleBit (rem : ConfRemote) : ConfRemote :=
  if 0 < rem.toggleBit then
    { rem with
      toggleBitMask := if rem.hasToggleBitMask then rem.toggleBitMask else toggleMaskOf rem
      toggleBit := 0 }
  else rem

/-- The state starts with the bits that the first code does not have. -/
def kickToggleState (rem : ConfRemote) : ConfRemote :=
  match rem.codes with
  | some codes =>
      if rem.hasToggleBitMask ∧ !rem.isRaw then
        let state := (codes.head?.elim 0 (·.code)) &&& rem.toggleBitMask
        { rem with
          toggleBitMaskState := if state = 0 then state else state ^^^ rem.toggleBitMask }
      else rem
  | none => rem

def kickSerial (rem : ConfRemote) : ConfRemote :=
  if rem.isSerial then
    let base := toInt32 (1000000 / rem.baud)
    let timed := 0 < rem.baud
    { rem with
      pzero := if timed ∧ rem.pzero = 0 ∧ rem.szero = 0 then base else rem.pzero
      sone := if timed ∧ rem.pone = 0 ∧ rem.sone = 0 then base else rem.sone
      bitsInByte := if rem.bitsInByte = 0 then 8 else rem.bitsInByte }
  else rem

def kickMinCodeRepeat (rem : ConfRemote) : ConfRemote :=
  if 0 < rem.minCodeRepeat ∧
      (!rem.hasRepeat ∨ (rem.minRepeat % 2 ^ 32).toNat < rem.minCodeRepeat) then
    { rem with minCodeRepeat := 0 }
  else rem

/-- The loop at the end of `read_config_recursive`, for one remote. -/
def postProcess (rem : ConfRemote) : ConfRemote :=
  kickMinCodeRepeat (kickSerial (kickToggleState (kickToggleBit (kickRc6 (kickReverse rem)))))

/-- The insertion of `sort_by_bit_count`: behind all that do not have more bits. -/
def insertByBitCount (rem : ConfRemote) : List ConfRemote → List ConfRemote
  | [] => [rem]
  | scan :: rest =>
      if scan.bitCount ≤ rem.bitCount then scan :: insertByBitCount rem rest
      else rem :: scan :: rest

/-- `sort_by_bit_count` -/
def sortByBitCount (remotes : List ConfRemote) : List ConfRemote :=
  remotes.foldl (fun top rem => insertByBitCount rem top) []

/-- What is done when the last line has been read. -/
def finish (p : Parser) : Config (List ConfRemote) := do
  checkMode p .none
  if p.chain.any (·.codes.isNone) then .error .nullPointer
  else pure (sortByBitCount (p.chain.map postProcess))

/-- The loop of `read_config_recursive`, with what an include line does. -/
def linesWith (incl : List Char → Parser → Config Parser) :
    Parser → List (List Char) → Config Parser
  | p, [] => pure p
  | p, buf :: bufs =>
      if (cstr buf).length = lineLen ∧ (cstr buf).getLast? ≠ some '\n' then .error .parseError
      else do
        let p ← (includeOf buf).elim (plainLine p (words buf)) (incl · p)
        linesWith incl p bufs

/-- The loop with files that include others up to `levels` deep; `files` gives
the text of a file that can be opened. -/
def readLines (files : List Char → Option (List Char)) :
    ℕ → List Char → Parser → List (List Char) → Config Parser
  | 0, _ => linesWith fun _ _ => .error .parseError
  | levels + 1, name => linesWith fun val p =>
      match includePath name val with
      | none => .error .parseError
      | some path =>
          match files path with
          | none => .ok p
          | some text => do
              let q ← readLines files levels path {} (fgetsAll text)
              let remotes ← finish q
              pure (p.splice remotes)

/-- `read_config` on the lines of a file. -/
def readConfigLines (files : List Char → Option (List Char)) (name : List Char)
    (bufs : List (List Char)) : Config (List ConfRemote) := do
  let p ← readLines files (maxIncludes + 1) name {} bufs
  finish p

/-- `read_config` -/
def readConfig (files : List Char → Option (List Char)) (name text : List Char) :
    Config (List ConfRemote) :=
  readConfigLines files name (fgetsAll text)

/-- The same remote with the fields that the daemon adds to it. -/
def ConfRemote.toRemote (rem : ConfRemote) : IrRemote where
  name := rem.name.getD []
  codes := rem.codes.getD []
  bits := rem.bits.toNat
  flags := rem.flags
  eps := rem.eps
  aeps := rem.aeps
  phead := rem.phead
  shead := rem.shead
  pthree := rem.pthree
  sthree := rem.sthree
  ptwo := rem.ptwo
  stwo := rem.stwo
  pone := rem.pone
  sone := rem.sone
  pzero := rem.pzero
  szero := rem.szero
  plead := rem.plead
  ptrail := rem.ptrail
  pfoot := rem.pfoot
  sfoot := rem.sfoot
  prepeat := rem.prepeat
  srepeat := rem.srepeat
  preDataBits := rem.preDataBits.toNat
  preData := rem.preData
  postDataBits := rem.postDataBits.toNat
  postData := rem.postData
  preP := rem.preP
  preS := rem.preS
  postP := rem.postP
  postS := rem.postS
  gap := rem.gap
  gap2 := rem.gap2
  repeatGap := rem.repeatGap
  toggleBitMask := rem.toggleBitMask
  suppressRepeat := rem.suppressRepeat
  minRepeat := rem.minRepeat
  minCodeRepeat := rem.minCodeRepeat
  toggleMask := rem.toggleMask
  rc6Mask := rem.rc6Mask
  baud := rem.baud
  bitsInByte := rem.bitsInByte
  parity := rem.parity
  stopBits := rem.stopBits
  ignoreMask := rem.ignoreMask
  toggleBitMaskState := rem.toggleBitMaskState

end Lirc
