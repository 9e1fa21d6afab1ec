import Lirc.Library.Loop
import Lirc.OnceFlag
import Lirc.RcText

/-!
`lirc_readconfig_only_internal`: one loop over the lines of a lircrc file and of
the files it includes. The files that are open form a stack.

A result -1 of a function is `none`; the loop then breaks and what has been read
is freed.
-/

namespace Lirc

open CString Numeral Loop

/-! ### Entries -/

/-- The names on the left of an equals sign. -/
inductive RcKey
  | prog
  | remote
  | button
  | delay
  | rep
  | config
  | mode
  | flags
  deriving DecidableEq, Repr

def rcKeys : List (Name × RcKey) :=
  [("prog".toList, .prog), ("remote".toList, .remote), ("button".toList, .button),
    ("delay".toList, .delay), ("repeat".toList, .rep), ("config".toList, .config),
    ("mode".toList, .mode), ("flags".toList, .flags)]

/-- The key that a token is; another token is only warned about. -/
def rcKey (token : Name) : Option RcKey :=
  (rcKeys.find? fun k => strcaseeq token k.1).map Prod.snd

/-- The bits of `enum lirc_flags` -/
def RcFlags.ofBits (flags : ℕ) : RcFlags where
  once := flags.testBit 0
  quit := flags.testBit 1
  mode := flags.testBit 2
  ecno := flags.testBit 3
  startupMode := flags.testBit 4
  toggleReset := flags.testBit 5

/-- A name of a remote or a button; `*` is `LIRC_ALL`. -/
def starred (token2 : Name) : Option Name :=
  if strcaseeq "*".toList token2 then none else some token2

/-- The entry after an assignment; `remote` is the remote that is in effect. -/
def RcEntry.assign (e : RcEntry) (remote : Option Name) : Option RcKey → Name → RcEntry
  | some .prog, token2 => { e with prog := some token2 }
  | some .remote, _ => e
  | some .button, token2 => { e with code := e.code ++ [⟨remote, starred token2⟩] }
  | some .delay, token2 => { e with repDelay := strtou32 (scan token2) }
  | some .rep, token2 => { e with rep := strtou32 (scan token2) }
  | some .config, token2 => { e with config := e.config ++ [lircParseString token2] }
  | some .mode, token2 => { e with changeMode := some token2 }
  | some .flags, token2 => { e with flags := RcFlags.ofBits (lircFlags token2) }
  | none, _ => e

/-- The remote that is in effect after an assignment. -/
def remoteAfter (remote : Option Name) : Option RcKey → Name → Option Name
  | some .remote, token2 => starred token2
  | _, _ => remote

/-- What `end` makes of an entry: the pointers for its use, the mode it stands
in, and a delay that goes with `repeat`. -/
def RcEntry.close (mode : Option Name) (e : RcEntry) : RcEntry :=
  { e with
    nextCode := e.code
    nextConfig := e.config
    mode := mode
    repDelay := if e.repDelay = 0 ∧ 0 < e.rep then e.rep - 1 else e.repDelay }

/-- The function `check` accepts the strings of an entry for the program. -/
def RcSetting.accepts (env : RcSetting) (e : RcEntry) : Bool :=
  match env.check with
  | none => true
  | some check => !(e.prog.any fun prog => strcaseeq prog env.lircProg) || e.config.all check

/-! ### The state of the loop -/

/-- What has been read: the list from `first` to `last`, `new_entry`, `mode` and
`remote`, where `none` is `LIRC_ALL`. -/
structure RcParse where
  entries : List RcEntry := []
  newEntry : Option RcEntry := none
  mode : Option Name := none
  remote : Option Name := none
  deriving DecidableEq, Repr

/-- `struct filestack_t`: an open file and what has not been read of it. -/
structure RcFile where
  name : Name
  rest : List Char
  deriving DecidableEq, Repr

/-- What the loop leaves for the parameters `full_name` and `sha_bang`. -/
structure RcOut where
  firstline : Bool := true
  saveFullName : Option Name := none
  shaBang : Option (List Char) := none
  deriving DecidableEq, Repr

/-- The variables of `lirc_readconfig_only_internal`; the file being read comes
first in `filestack`. -/
structure RcReader where
  filestack : List RcFile
  openFiles : ℕ := 1
  parse : RcParse := {}
  out : RcOut := {}
  deriving DecidableEq, Repr

/-- How the function comes out: with 0 and a configuration; with -1 and a null
pointer in its place; with -1 and nothing in its place, where no file can be
opened; or in the use of a null pointer. -/
inductive RcResult
  | config (c : RcConfig) (fullName : Option Name) (shaBang : Option (List Char))
  | failed
  | unopened
  | crashed
  deriving DecidableEq, Repr

/-- The configuration that is made of the entries of a file. -/
def RcConfig.ofEntries (lircProg : Name) (first : List RcEntry) : RcConfig :=
  let (startupmode, first) := lircStartupmode lircProg first
  { entries := first, currentMode := startupmode }

/-- The end of a failing run. It looks at `*sha_bang` even where the caller has
passed no such pointer. -/
def RcSetting.failed (env : RcSetting) : RcResult := if env.outParams then .failed else .crashed

/-! ### Lines -/

/-- `lirc_mode` -/
def lircMode (env : RcSetting) (token : Name) (token2 : Option Name) (p : RcParse) :
    Option RcParse :=
  if strcaseeq token "begin".toList then
    match token2 with
    | none => if p.newEntry = none then some { p with newEntry := some {} } else none
    | some token2 =>
        if p.newEntry = none ∧ p.mode = none then some { p with mode := some token2 } else none
  else if strcaseeq token "end".toList then
    match token2 with
    | none =>
        match p.newEntry with
        | none => none
        | some e =>
            if env.accepts e then
              some { p with entries := p.entries ++ [e.close p.mode], newEntry := none }
            else none
    | some token2 =>
        match p.mode with
        | none => none
        | some mode =>
            if p.newEntry = none ∧ strcaseeq mode token2 then some { p with mode := none }
            else none
  else some p

/-- A line with an equals sign. -/
def RcParse.assign (p : RcParse) (key : Option RcKey) (token2 : Name) : Option RcParse :=
  p.newEntry.map fun e =>
    { p with
      newEntry := some (e.assign p.remote key token2)
      remote := remoteAfter p.remote key token2 }

/-- `MAX_INCLUDES` of the client library -/
def rcMaxIncludes : ℕ := 10

namespace RcReader

variable (env : RcSetting) (s : RcReader)

/-- The state with another `parse`, or the end of a failing run. -/
def afterLine : Option RcParse → RcReader ⊕ RcResult
  | none => .inr env.failed
  | some p => .inl { s with parse := p }

/-- A line `include`; `lirc_trim` reads the string whatever the pointer is. -/
def includeLine (file : Option (List Char)) : RcReader ⊕ RcResult :=
  if rcMaxIncludes ≤ s.openFiles then .inr env.failed
  else
    match file with
    | none => .inr .crashed
    | some file =>
        match lircOpen env (some (clientParseInclude (lircTrim file)))
            (s.filestack.head?.map RcFile.name) with
        | none => .inr env.failed
        | some (name, rest) =>
            .inl { s with
              filestack := ⟨name, rest⟩ :: s.filestack
              openFiles := s.openFiles + 1 }

/-- What is done with a line. -/
def readLine (string : List Char) : RcReader ⊕ RcResult :=
  match rcLine string with
  | .ignored => .inl s
  | .includes file => s.includeLine env file
  | .words token token2 =>
      s.afterLine env ((lircMode env token token2 s.parse).map ({ · with remote := none }))
  | .assign token token2 => s.afterLine env (s.parse.assign (rcKey token) token2)

/-- The check for `#!` in the first line. -/
def checkShaBang (string : List Char) (out : RcOut) : RcOut :=
  if out.firstline && env.outParams then
    { out with
      firstline := false
      shaBang := if string.take 2 = "#!".toList then some (string.drop 2) else out.shaBang }
  else out

/-- The name of the last file to be closed is kept for `full_name`. -/
def closeFile (name : Name) (parents : List RcFile) : RcReader :=
  { s with
    filestack := parents
    openFiles := s.openFiles - 1
    out :=
      if s.openFiles = 1 && env.outParams then { s.out with saveFullName := some name }
      else s.out }

/-- What follows the loop. -/
def finish (p : RcParse) (out : RcOut) : RcResult :=
  match if p.newEntry = none then some p else lircMode env "end".toList none p with
  | none => env.failed
  | some p => .config (.ofEntries env.lircProg p.entries) out.saveFullName out.shaBang

/-- A round of the loop. -/
def round : RcReader ⊕ RcResult :=
  match s.filestack with
  | [] => .inr (finish env s.parse s.out)
  | file :: parents =>
      match lircReadline file.rest with
      | none => .inl (s.closeFile env file.name parents)
      | some (string, rest) =>
          readLine env
            { s with
              filestack := { file with rest } :: parents
              out := checkShaBang env string s.out }
            string

end RcReader

/-- `lirc_readconfig_only_internal`, which comes out so. -/
def ReadconfigInternal (env : RcSetting) (file : Option Name) (result : RcResult) : Prop :=
  match lircOpen env file none with
  | none => result = .unopened
  | some (name, text) => Returns (RcReader.round env) { filestack := [⟨name, text⟩] } result

/-- `lirc_readconfig_only` -/
def LircReadconfigOnly (env : RcSetting) (file : Option Name) (result : RcResult) : Prop :=
  ReadconfigInternal { env with outParams := false } file result

end Lirc
