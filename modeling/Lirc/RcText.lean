import Mathlib.Data.List.DropRight
import Lirc.FlagList

/-!
The text of a lircrc file: its lines, what a line says, the strings in it and
the names of the files it includes. A text has no zero bytes.
-/

namespace Lirc

open CString Numeral

/-! ### Strings -/

/-- `lirc_readline`: a line without its newline, and what follows it. The end of
the text ends a line as well. -/
def lircReadline (text : List Char) : Option (List Char × List Char) :=
  if text = [] then none
  else some (text.takeWhile (· ≠ '\n'), (text.dropWhile (· ≠ '\n')).tail)

/-- `lirc_trim` -/
def lircTrim (s : List Char) : List Char := (s.dropWhile isBlank).rdropWhile isBlank

/-- The loop for further octal digits of `lirc_parse_escape`, at most so many. -/
def octalEscape : ℕ → ℕ → List Char → ℕ × List Char
  | 0, i, s => (i, s)
  | _ + 1, i, [] => (i, [])
  | n + 1, i, c :: s =>
      if isDigit 8 c then octalEscape n (8 * i + (digitValue c).getD 0) s else (i, c :: s)

/-- The loop for hexadecimal digits of `lirc_parse_escape`. -/
def hexEscape : ℕ → List Char → ℕ × List Char
  | i, [] => (i, [])
  | i, c :: s =>
      if isDigit 16 c then hexEscape ((16 * i + (digitValue c).getD 0) % 2 ^ 32) s
      else (i, c :: s)

/-- The escapes that stand for one character. -/
def namedEscapes : List (Char × Char) :=
  [('a', '\x07'), ('b', '\x08'), ('e', '\x1b'), ('f', '\x0c'), ('n', '\n'), ('r', '\r'),
    ('t', '\t'), ('v', '\x0b'), ('\n', nul)]

/-- `lirc_parse_escape`: the character for what stands behind a backslash, and
what follows it. -/
def lircParseEscape : List Char → Char × List Char
  | [] => (nul, [])
  | c :: s =>
      match namedEscapes.lookup c with
      | some d => (d, s)
      | none =>
          if isDigit 8 c then
            let (i, s) := octalEscape 2 ((digitValue c).getD 0) s
            (Char.ofNat (i % 2 ^ 8), s)
          else if c = 'x' then
            let (i, s) := hexEscape 0 s
            (Char.ofNat (i % 2 ^ 8), s)
          else if '@' ≤ c ∧ c ≤ 'Z' then (Char.ofNat (c.toNat - '@'.toNat), s)
          else (c, s)

theorem octalEscape_length (n i : ℕ) (s : List Char) :
    (octalEscape n i s).2.length ≤ s.length := by
  induction n generalizing i s with
  | zero => exact le_refl _
  | succ n ih =>
      cases s with
      | nil => exact le_refl _
      | cons c s =>
          rw [octalEscape]
          split
          · exact (ih _ s).trans (Nat.le_succ _)
          · exact le_refl _

theorem hexEscape_length (i : ℕ) (s : List Char) : (hexEscape i s).2.length ≤ s.length := by
  induction s generalizing i with
  | nil => exact le_refl _
  | cons c s ih =>
      rw [hexEscape]
      split
      · exact (ih _).trans (Nat.le_succ _)
      · exact le_refl _

theorem lircParseEscape_length (s : List Char) : (lircParseEscape s).2.length ≤ s.length := by
  cases s with
  | nil => exact le_refl _
  | cons c s =>
      rw [lircParseEscape]
      split
      · exact Nat.le_succ _
      · split
        · exact (octalEscape_length _ _ s).trans (Nat.le_succ _)
        · split
          · exact (hexEscape_length _ s).trans (Nat.le_succ _)
          · split <;> exact Nat.le_succ _

/-- The loop of `lirc_parse_string`. It writes to the string it reads, but never
past the place it reads from. -/
def parseStringLoop : List Char → List Char
  | [] => []
  | c :: s =>
      if c = '\\' then
        (lircParseEscape s).1 :: parseStringLoop (lircParseEscape s).2
      else c :: parseStringLoop s
termination_by s => s.length
decreasing_by
  · have hlen := lircParseEscape_length s
    rw [List.length_cons]
    omega
  · exact Nat.lt_succ_self _

/-- The string that `lirc_parse_string` leaves. -/
def lircParseString (s : List Char) : List Char := cstr (parseStringLoop s)

/-- `lirc_parse_include` of the client library -/
def clientParseInclude (s : List Char) : List Char :=
  let last := s.getLast?
  if s.length < 2 then s
  else if s.head? = some '"' ∧ last = some '"' ∨ s.head? = some '<' ∧ last = some '>' then
    s.tail.dropLast
  else s

/-! ### What a line says -/

inductive RcLine
  /-- An empty line, a comment, or a line of more than two words. -/
  | ignored
  /-- A line `include`, and what follows that word. -/
  | includes (file : Option (List Char))
  /-- A line of one word or two. -/
  | words (token : Name) (token2 : Option Name)
  /-- A line with an equals sign. -/
  | assign (token token2 : Name)
  deriving DecidableEq, Repr

/-- How `lirc_readconfig_only_internal` takes a line apart. -/
def rcLine (string : List Char) : RcLine :=
  if '=' ∈ string then
    let token := lircTrim (string.takeWhile (· ≠ '='))
    let token2 := lircTrim (string.dropWhile (· ≠ '=')).tail
    if token.head? = some '#' then .ignored else .assign token token2
  else
    match strtok [' ', '\t'] string with
    | none => .ignored
    | some (token, rest) =>
        if token.head? = some '#' then .ignored
        else if strcaseeq token "include".toList then .includes (strtokRest rest)
        else
          match strtok [' ', '\t'] rest with
          | none => .words token none
          | some (token2, rest) =>
              if (strtok [' ', '\t'] rest).isSome then .ignored
              else .words token (some token2)

/-! ### Files -/

/-- What opening a file gives: its text, `ENOENT` or another error. -/
inductive Opened
  | text (text : List Char)
  | absent
  | refused
  deriving DecidableEq, Repr

/-- What the functions find around them: the name of the program, the variable
`HOME`, the files, and the function `check` of the caller, true where it does
not return -1. The caller passes `full_name` and `sha_bang`, or two null pointers. -/
structure RcSetting where
  lircProg : Name
  home : Option Name := none
  files : Name → Opened
  check : Option (List Char → Bool) := none
  outParams : Bool := false
  userFile : Name := ".lircrc".toList
  rootFile : Name := "/etc/lirc/lircrc".toList
  oldRootFile : Name := "/etc/lircrc".toList

namespace RcSetting

variable (env : RcSetting)

def homeDir : Name := env.home.getD "/".toList

end RcSetting

/-- `lirc_getfilename` -/
def lircGetfilename (env : RcSetting) (file currentFile : Option Name) : Name :=
  match file with
  | none =>
      let home := env.homeDir
      (if home ≠ [] ∧ home.getLast? ≠ some '/' then home ++ ['/'] else home) ++ env.userFile
  | some file =>
      if file.take 2 = "~/".toList then env.homeDir ++ file.tail
      else
        match currentFile with
        | none => file
        | some currentFile =>
            if file.head? = some '/' then file
            else currentFile.rdropWhile (· ≠ '/') ++ file

/-- `lirc_open`: the name of the file that has been opened, and its text. -/
def lircOpen (env : RcSetting) (file currentFile : Option Name) : Option (Name × List Char) :=
  let filename := lircGetfilename env file currentFile
  match env.files filename, file with
  | .text text, _ => some (filename, text)
  | .absent, none =>
      match env.files env.rootFile with
      | .text text => some (env.rootFile, text)
      | .refused => none
      | .absent =>
          match env.files env.oldRootFile with
          | .text text => some (env.oldRootFile, text)
          | _ => none
  | _, _ => none

end Lirc
