import Lirc.Library.CString
import Lirc.Config

/-!
`lirc_client.c`: a lircrc file as the library holds it, and the strings it has
for an event.

A pointer into a list is the part of the list it points to; a pointer to an
entry is its index, and the number of entries is `NULL`.
-/

namespace Lirc

open CString Numeral

/-! ### The data -/

/-- `enum lirc_flags` -/
structure RcFlags where
  once : Bool := false
  quit : Bool := false
  mode : Bool := false
  ecno : Bool := false
  toggleReset : Bool := false
  startupMode : Bool := false
  deriving DecidableEq, Repr, Inhabited

/-- `struct lirc_code`; `none` is `LIRC_ALL`. -/
structure RcCode where
  remote : Option Name
  button : Option Name
  deriving DecidableEq, Repr, Inhabited

/-- `struct lirc_config_entry` -/
structure RcEntry where
  prog : Option Name := none
  code : List RcCode := []
  repDelay : ℕ := 0
  rep : ℕ := 0
  config : List (List Char) := []
  changeMode : Option Name := none
  flags : RcFlags := {}
  mode : Option Name := none
  nextConfig : List (List Char) := config
  nextCode : List RcCode := code
  deriving DecidableEq, Repr, Inhabited

/-- `struct lirc_config` without its socket; `entries` is the list `first`. -/
structure RcConfig where
  entries : List RcEntry
  currentMode : Option Name := none
  next : ℕ := 0
  deriving DecidableEq, Repr, Inhabited

namespace RcConfig

variable (c : RcConfig)

def setEntry (i : ℕ) (e : RcEntry) : RcConfig := { c with entries := c.entries.set i e }

/-- The entry is outside of a mode or in the current one. -/
def inMode (e : RcEntry) : Bool :=
  match e.mode with
  | none => true
  | some m => c.currentMode.any (strcaseeq m)

/-- `lirc_clearmode` -/
def clearMode : RcConfig :=
  match c.currentMode with
  | none => c
  | some m =>
      { c with
        entries := c.entries.map fun e =>
          if e.changeMode.any fun m' => strcaseeq m' m then
            { e with flags := { e.flags with ecno := false } }
          else e
        currentMode := none }

/-- `lirc_getmode` -/
def getMode : Option Name := c.currentMode

/-- `lirc_setmode`: the mode it returns is the new one. -/
def setMode (mode : Option Name) : RcConfig := { c with currentMode := mode }

end RcConfig

/-- The loop of `lirc_startupmode` for the flag: the mode of the first entry that
has the flag and a mode, and the entries without that mode. -/
def takeStartupMode : List RcEntry → Option Name × List RcEntry
  | [] => (none, [])
  | scan :: rest =>
      if scan.flags.startupMode && scan.changeMode.isSome then
        (scan.changeMode, { scan with changeMode := none } :: rest)
      else
        let (startupmode, rest) := takeStartupMode rest
        (startupmode, scan :: rest)

/-- `lirc_startupmode` -/
def lircStartupmode (lircProg : Name) (first : List RcEntry) : Option Name × List RcEntry :=
  let (startupmode, first) := takeStartupMode first
  let startupmode :=
    if startupmode = none ∧ first.any fun scan => scan.mode.any (strcaseeq lircProg) then
      some lircProg
    else startupmode
  match startupmode with
  | none => (none, first)
  | some startupmode =>
      (some startupmode, first.map fun scan =>
        if (scan.changeMode.any (strcaseeq startupmode)) && scan.flags.once then
          { scan with flags := { scan.flags with ecno := true } }
        else scan)

/-! ### Events -/

/-- A conversion `%x` of `scanf`. -/
def scanHex (s : List Char) : Option Scan :=
  let (negative, unsigned) := splitSign (s.dropWhile isSpace)
  let t :=
    match unsigned with
    | '0' :: 'x' :: t => '0' :: t
    | '0' :: 'X' :: t => '0' :: t
    | t => t
  let digits := t.takeWhile (isDigit 16)
  if digits = [] then none
  else some ⟨negative, valueOf 16 digits, t.drop digits.length⟩

/-- `sscanf(code, "%*x %x %*s %*s\n", &rep)`, when it is 1. -/
def scanReps (code : List Char) : Option ℕ :=
  ((scanHex code).bind fun n => scanHex n.rest).map strtou32

/-- The button and the remote of an event: the third word, and what follows up
to the end of the line. -/
def eventNames (code : List Char) : Option (Name × Name) :=
  (strtok [' '] code).bind fun x =>
    (strtok [' '] x.2).bind fun x =>
      (strtok [' '] x.2).bind fun button =>
        (strtok ['\n'] button.2).map fun remote => (button.1, remote.1)

/-- The comparison of a button of an entry with one that was pressed. -/
def RcCode.covers (c : RcCode) (remote button : Name) : Bool :=
  (c.remote.all fun r => strcaseeq r remote) && c.button.all fun b => strcaseeq b button

/-- The comparison of two buttons of an entry. The name `LIRC_ALL` is no string
that could be compared with another name. -/
def RcCode.coversCode (c c' : RcCode) : Bool :=
  (c.remote.all fun r => c'.remote.any (strcaseeq r)) &&
    c.button.all fun b => c'.button.any (strcaseeq b)

namespace RcEntry

variable (e : RcEntry)

/-- The press or the repeat of a button is one the entry asks for. -/
def due (rep : ℕ) : Bool :=
  rep == 0 || (0 < e.rep && e.repDelay < rep && (rep - e.repDelay - 1) % e.rep == 0)

/-- What is left of the sequence after a button that does not go on with it:
the longest end of what has been pressed that starts the sequence. -/
def rebase (remote button : Name) : List RcCode :=
  let k := e.code.length - e.nextCode.length
  let fits := fun j =>
    (e.code.zip ((e.code.drop (j + 1)).take (k - (j + 1)))).all (fun x => x.1.coversCode x.2) &&
      (e.code[k - (j + 1)]?).any fun c => c.covers remote button
  match (List.range k).find? fits with
  | some j => e.code.drop (k - j)
  | none => e.code

/-- `lirc_iscode`: 2 when the entry is to be executed, 1 when the button goes
on with its sequence. -/
def isCode (remote button : Name) (rep : ℕ) : ℕ × RcEntry :=
  match e.code, e.nextCode with
  | [], _ => (if e.due rep then 1 else 0, e)
  | _ :: _, [] => (0, e) -- `next_code` always points to a button
  | _ :: more, c :: rest =>
      if c.covers remote button then
        let advance := more = [] ∨ rep = 0
        let nextCode := if advance then rest else c :: rest
        let iscode := if advance ∧ more ≠ [] then 1 else 0
        if nextCode = [] then
          (if more ≠ [] ∨ e.due rep then 2 else iscode, { e with nextCode := e.code })
        else (iscode, { e with nextCode })
      else if rep ≠ 0 then (0, e)
      else
        let nextConfig := if e.flags.toggleReset then e.config else e.nextConfig
        (0, { e with nextConfig, nextCode := e.rebase remote button })

end RcEntry

/-- A string for a program. -/
structure RcFound where
  prog : Name
  string : List Char
  deriving DecidableEq, Repr

/-- The flags of an entry that is executed, and whether its string is used. -/
def onceFlags (e : RcEntry) : Bool × RcEntry :=
  if e.changeMode.isSome && e.flags.once then
    (!e.flags.ecno, { e with flags := { e.flags with ecno := true } })
  else (true, e)

/-- `lirc_execute` for the entry `i`; `lircProg` is `lirc_prog`. -/
def lircExecute (lircProg : Option Name) (i : ℕ) (c : RcConfig) : Option RcFound × RcConfig :=
  match c.entries[i]? with
  | none => (none, c)
  | some scan =>
      let c := if scan.flags.mode then c.clearMode else c
      let c := if scan.changeMode.isSome then { c with currentMode := scan.changeMode } else c
      let (doOnce, scan) := onceFlags ((c.entries[i]?).getD scan)
      match scan.nextConfig, scan.prog with
      | s :: rest, some prog =>
          if lircProg.all (strcaseeq prog) && doOnce then
            (some ⟨prog, s⟩,
              c.setEntry i { scan with nextConfig := if rest = [] then scan.config else rest })
          else (none, c.setEntry i scan)
      | _, _ => (none, c.setEntry i scan)

/-- The loop of `lirc_code2char_internal` over so many entries from `i` on. -/
def codeLoop (lircProg : Option Name) (remote button : Name) (rep : ℕ) :
    ℕ → ℕ → Bool → Option RcFound → RcConfig → Option RcFound × RcConfig
  | 0, _, _, s, c => (s, if s.isSome then c else { c with next := 0 })
  | n + 1, i, quitHappened, s, c =>
      match c.entries[i]? with
      | none => (s, if s.isSome then c else { c with next := 0 })
      | some scan =>
          let (execLevel, scan) := scan.isCode remote button rep
          let c := c.setEntry i scan
          if 0 < execLevel && c.inMode scan && !quitHappened then
            let (s, c) := if 1 < execLevel then lircExecute lircProg i c else (none, c)
            if scan.flags.quit then
              codeLoop lircProg remote button rep n (i + 1) true s
                { c with next := c.entries.length }
            else if s.isSome then (s, { c with next := i + 1 })
            else codeLoop lircProg remote button rep n (i + 1) quitHappened s c
          else codeLoop lircProg remote button rep n (i + 1) quitHappened s c

/-- `lirc_code2char_internal` -/
def code2charInternal (lircProg : Option Name) (code : List Char) (c : RcConfig) :
    Option RcFound × RcConfig :=
  match scanReps code with
  | none => (none, { c with next := 0 })
  | some rep =>
      match eventNames code with
      | none => (none, c)
      | some (button, remote) =>
          codeLoop lircProg remote button rep (c.entries.length - c.next) c.next false none c

/-- `lirc_code2charprog` -/
def code2charprog (code : List Char) (c : RcConfig) : Option RcFound × RcConfig :=
  code2charInternal none code c

/-- What repeated calls give up to the one that gives `NULL`. -/
def code2charAll (lircProg : Option Name) (code : List Char) :
    ℕ → RcConfig → List RcFound × RcConfig
  | 0, c => ([], c)
  | n + 1, c =>
      match code2charInternal lircProg code c with
      | (none, c) => ([], c)
      | (some s, c) =>
          let (strings, c) := code2charAll lircProg code n c
          (s :: strings, c)

/-- All strings for an event. A call that gives a string leaves fewer entries
to the next one. -/
def allStrings (lircProg : Option Name) (code : List Char) (c : RcConfig) :
    List RcFound × RcConfig :=
  code2charAll lircProg code (c.entries.length + 1) c

end Lirc
