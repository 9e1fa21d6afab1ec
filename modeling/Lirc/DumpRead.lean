import Lirc.DumpConfig
import Lirc.PhysicalLines
import Lirc.PostProcess

/-!
What `read_config` makes of the lines that `fprint_remotes` writes: the remotes with the fields
that are written, after the checks and the post-processing of every file.
-/

namespace Lirc

open CString Numeral

/-! ### Words -/

/-- A character of a word: no blank, and it ends neither a line nor a string. -/
def wordChar (c : Char) : Bool := !(c = ' ' || c = '\t' || c = '\n' || c = '\r' || c = nul)

/-- A character of a line. -/
def lineChar (c : Char) : Bool := c = ' ' || wordChar c

/-- A word: it is read as it is written. -/
def IsWord (w : List Char) : Prop := w ≠ [] ∧ ∀ c ∈ w, wordChar c = true

theorem wordChar_of_isDigit {base : ℕ} {c : Char} (h : isDigit base c = true) :
    wordChar c = true := by
  cases hc : wordChar c with
  | true => rfl
  | false =>
      simp only [wordChar, Bool.not_eq_false', Bool.or_eq_true, decide_eq_true_eq] at hc
      rcases hc with (((rfl | rfl) | rfl) | rfl) | rfl
      · cases h
      · cases h
      · cases h
      · cases h
      · cases h

theorem wordChar_blank {c : Char} (h : wordChar c = true) : whitespace.contains c = false := by
  cases hc : whitespace.contains c with
  | false => rfl
  | true =>
      rw [whitespace, List.contains_iff_mem, List.mem_cons, List.mem_singleton] at hc
      rcases hc with rfl | rfl
      · cases h
      · cases h

theorem IsWord.of_digits {base : ℕ} {w : List Char} (hne : w ≠ [])
    (h : ∀ c ∈ w, isDigit base c = true) : IsWord w :=
  ⟨hne, fun c hc => wordChar_of_isDigit (h c hc)⟩

theorem IsWord.append {w v : List Char} (hw : IsWord w) (hv : ∀ c ∈ v, wordChar c = true) :
    IsWord (w ++ v) :=
  ⟨fun h => hw.1 (List.append_eq_nil_iff.mp h).1, fun c hc =>
    (List.mem_append.mp hc).elim (hw.2 c) (hv c)⟩

theorem IsWord.cons {w : List Char} {c : Char} (hc : wordChar c = true)
    (hw : ∀ c ∈ w, wordChar c = true) : IsWord (c :: w) :=
  ⟨List.cons_ne_nil _ _, List.forall_mem_cons.mpr ⟨hc, hw⟩⟩

theorem isWord_decimal (n : ℕ) : IsWord (decimal n) :=
  .of_digits Nat.toDigits_ne_nil (isDigit_decimal n)

theorem isWord_decimalInt (n : ℤ) : IsWord (decimalInt n) := by
  rw [decimalInt]
  split
  · exact .cons (by decide) (isWord_decimal _).2
  · exact isWord_decimal _

theorem isWord_hexUpper (width : ℕ) (code : IrCode) : IsWord (hexUpper width code) := by
  refine .cons (by decide) (List.forall_mem_cons.mpr ⟨by decide, fun c hc => ?_⟩)
  rw [List.leftpad] at hc
  rcases List.mem_append.mp hc with hc | hc
  · rw [List.eq_of_mem_replicate hc]
    decide
  · exact wordChar_of_isDigit (isDigit_toUpper _ c hc)

/-- A value shows a word: it is the word, with blanks in front or behind it. -/
structure Shows (v w : List Char) : Prop where
  words : tokens v = [w]
  chars : ∀ c ∈ v, lineChar c = true

theorem tokens_eq (s : List Char) : tokens s = CString.tokens whitespace s := rfl

theorem tokens_word' {w : List Char} (h : IsWord w) : tokens w = [w] :=
  CString.tokens_word (fun c hc => wordChar_blank (h.2 c hc)) h.1

theorem IsWord.chars {w : List Char} (h : IsWord w) : ∀ c ∈ w, lineChar c = true :=
  fun c hc => by rw [lineChar, h.2 c hc, Bool.or_true]

theorem IsWord.shows {w : List Char} (h : IsWord w) : Shows w w := ⟨tokens_word' h, h.chars⟩

theorem tokens_blanks (n : ℕ) (s : List Char) : tokens (List.replicate n ' ' ++ s) = tokens s := by
  induction n with
  | zero => rfl
  | succ n ih =>
      rw [List.replicate_succ, List.cons_append, tokens_eq, CString.tokens_cons (by decide)]
      exact ih

theorem lineChar_blanks (n : ℕ) : ∀ c ∈ List.replicate n ' ', lineChar c = true :=
  fun c hc => by rw [List.eq_of_mem_replicate hc]; decide

theorem IsWord.padded {w : List Char} (h : IsWord w) (width : ℕ) : Shows (padded width w) w where
  words := (tokens_blanks _ w).trans (tokens_word' h)
  chars c hc := (List.mem_append.mp hc).elim (lineChar_blanks _ c) (h.chars c)

theorem IsWord.leftAligned {w : List Char} (h : IsWord w) (width : ℕ) :
    Shows (leftAligned width w) w where
  words := by
    rw [Lirc.leftAligned]
    cases width - w.length with
    | zero => rw [List.replicate_zero, List.append_nil, tokens_word' h]
    | succ n =>
        rw [List.replicate_succ, tokens_eq, CString.tokens_append_cons _ _ (by decide)]
        have hblanks := tokens_blanks n []
        rw [List.append_nil] at hblanks
        rw [← tokens_eq, ← tokens_eq, hblanks, tokens_word' h]
        rfl
  chars c hc := (List.mem_append.mp hc).elim (h.chars c) (lineChar_blanks _ c)

/-! ### Numbers -/

/-- A value of an `int` or a `lirc_t`. -/
def IsInt32 (n : ℤ) : Prop := -2 ^ 31 ≤ n ∧ n < 2 ^ 31

theorem toInt32_u32 {n : ℤ} (h : IsInt32 n) : toInt32 (n % 2 ^ 32).toNat = n := by
  obtain ⟨hlow, hhigh⟩ := h
  rw [toInt32]
  split
  · omega
  · omega

theorem isInt32_toInt32 {n : ℕ} (h : n < 2 ^ 32) :
    IsInt32 (toInt32 n) ∧ (toInt32 n % 2 ^ 32).toNat = n := by
  rw [toInt32, IsInt32]
  split
  · omega
  · omega

theorem scan_decimal_all (n : ℕ) : scan (decimal n) = ⟨false, n, []⟩ := by
  cases n with
  | zero => rfl
  | succ n => exact scan_decimal n.succ_pos

theorem sStrtou32_decimal {n : ℕ} (h : n < 2 ^ 32) : sStrtou32 (decimal n) = .ok n := by
  have hrest : ¬(decimal n = [] ∨ (scan (decimal n)).rest ≠ []) := by
    rw [scan_decimal_all]
    simp [decimal, Nat.toDigits_ne_nil]
  have hsmall : ¬2 ^ 64 ≤ n := by omega
  rw [sStrtou32, if_neg hrest, scan_decimal_all, strtou32, Scan.toUnsigned, if_neg hsmall]
  simp only [Bool.false_eq_true, if_false, Option.getD_some]
  rw [Nat.mod_eq_of_lt h]

theorem sStrtou32_decimalU32 {n : ℕ} (h : n < 2 ^ 32) : sStrtou32 (decimalU32 n) = .ok n := by
  have hbits : ((n : ℤ) % 2 ^ 32).toNat = n := by omega
  rw [decimalU32, hbits, sStrtou32_decimal h]

theorem sStrtolircT_decimalU32 {n : ℤ} (h : IsInt32 n) : sStrtolircT (decimalU32 n) = .ok n := by
  have hlt : (n % 2 ^ 32).toNat < 2 ^ 32 := by omega
  rw [sStrtolircT, decimalU32, sStrtou32_decimal hlt]
  exact congrArg Except.ok (toInt32_u32 h)

theorem scan_decimalInt (n : ℤ) :
    scan (decimalInt n) = ⟨decide (n < 0), n.natAbs, []⟩ := by
  rw [decimalInt]
  split
  · next h =>
      rw [scan_neg_decimal (by omega), decide_eq_true h]
  · next h =>
      rw [scan_decimal_all, decide_eq_false h]

theorem sStrtoi_decimalInt {n : ℤ} (h : IsInt32 n) : sStrtoi (decimalInt n) = .ok n := by
  obtain ⟨hlow, hhigh⟩ := h
  have hsigned : (scan (decimalInt n)).toSigned = n := by
    rw [scan_decimalInt, Scan.toSigned]
    by_cases hneg : n < 0
    · simp only [hneg, decide_true, if_true]
      omega
    · simp only [hneg, decide_false, Bool.false_eq_true, if_false]
      omega
  have hok : ¬(decimalInt n = [] ∨ (scan (decimalInt n)).rest ≠ [] ∨ n < -2 ^ 31 ∨ 2 ^ 31 ≤ n) := by
    rw [scan_decimalInt]
    have hne := (isWord_decimalInt n).1
    simp only [hne, ne_eq, not_true_eq_false, false_or]
    omega
  rw [sStrtoi]
  simp only [hsigned, if_neg hok]

/-- An `unsigned int` that is written with `%d` is read with its bits. -/
theorem sStrtou32_decimalUnsigned {n : ℕ} (h : n < 2 ^ 32) :
    sStrtou32 (decimalUnsigned n) = .ok n := by
  have hrest : ¬(decimalUnsigned n = [] ∨ (scan (decimalUnsigned n)).rest ≠ []) := by
    rw [decimalUnsigned, scan_decimalInt]
    have hne := (isWord_decimalInt (toInt32 n)).1
    simp [hne]
  rw [sStrtou32, if_neg hrest, strtou32, decimalUnsigned, scan_decimalInt, Scan.toUnsigned]
  have hbits : toInt32 n = if n < 2 ^ 31 then (n : ℤ) else n - 2 ^ 32 := rfl
  generalize toInt32 n = i at hbits
  split at hbits
  · have hneg : ¬i < 0 := by omega
    have hsmall : ¬2 ^ 64 ≤ i.natAbs := by omega
    simp only [hneg, hsmall, decide_false, Bool.false_eq_true, if_false, Option.getD_some]
    refine congrArg Except.ok ?_
    omega
  · have hneg : i < 0 := by omega
    have hsmall : ¬2 ^ 64 ≤ i.natAbs := by omega
    simp only [hneg, hsmall, decide_true, if_false, if_true, Option.getD_some]
    refine congrArg Except.ok ?_
    omega

theorem sStrtocode_hexUpper (width : ℕ) (code : IrCode) :
    sStrtocode (hexUpper width code) = .ok code := by
  have hsmall : ¬2 ^ 64 ≤ code.toNat := Nat.not_le.mpr code.isLt
  have hne := (isWord_hexUpper width code).1
  rw [sStrtocode]
  simp only [hexUpper, scan_upper, Scan.toUnsigned, hsmall, if_false, Bool.false_eq_true]
  rw [if_pos ⟨trivial, hne⟩, BitVec.ofNat_toNat, BitVec.setWidth_eq]

/-! ### Lines -/

theorem tokens_intercalate {vals ws : List (List Char)} (h : List.Forall₂ Shows vals ws) :
    tokens ([' '].intercalate vals) = ws ∧ ∀ c ∈ [' '].intercalate vals, lineChar c = true := by
  induction h with
  | nil => exact ⟨rfl, by simp⟩
  | @cons v w vals ws hv hvals ih =>
      cases hvals with
      | nil => rw [List.intercalate_singleton]; exact ⟨hv.words, hv.chars⟩
      | @cons v' w' vals ws hv' hvals =>
          rw [List.intercalate_cons_cons]
          constructor
          · rw [List.append_assoc, List.singleton_append, tokens_eq,
              CString.tokens_append_cons _ _ (by decide), ← tokens_eq, ← tokens_eq, ih.1, hv.words]
            rfl
          · intro c hc
            rcases List.mem_append.mp hc with hc | hc
            · rcases List.mem_append.mp hc with hc | hc
              · exact hv.chars c hc
              · rw [List.mem_singleton.mp hc]
                decide
            · exact ih.2 c hc

/-- The start of a line that defines a field: a key between blanks. -/
def startsField (start : String) (key : List Char) : Bool :=
  tokens start.toList == [key] && start.toList.all lineChar && start.toList.getLast? == some ' ' &&
    start.toList.head? == some ' ' && !strcaseeq "include".toList key &&
    !strcaseeq "begin".toList key && !strcaseeq "end".toList key

theorem tokens_start {start : List Char} (h : start.getLast? = some ' ') (s : List Char) :
    tokens (start ++ s) = tokens start ++ tokens s := by
  obtain ⟨front, rfl⟩ := List.getLast?_eq_some_iff.mp h
  rw [List.append_assoc, List.singleton_append]
  simp only [tokens_eq]
  rw [CString.tokens_append_cons _ _ (by decide), CString.tokens_append_cons _ _ (by decide)]
  simp

/-- The words of a line as it is read. -/
theorem words_line {l : List Char} (hchars : ∀ c ∈ l, lineChar c = true) :
    words (l ++ ['\n']) = if l.head? = some '#' then [] else tokens l := by
  have hnul : nul ∉ l ++ ['\n'] := by
    intro h
    rcases List.mem_append.mp h with h | h
    · exact absurd (hchars _ h) (by decide)
    · exact absurd h (by decide)
  have hchomp : chomp (l ++ ['\n']) = l := by
    have hlast : (l ++ ['\n'])[l.length]? = some '\n' := by simp
    have hlen : (l ++ ['\n']).length - 1 = l.length := by simp
    have hcr : ¬(0 < l.length ∧ l[l.length - 1]? = some '\r') := by
      rintro ⟨-, h⟩
      exact absurd (hchars _ (List.mem_of_getElem? h)) (by decide)
    rw [chomp]
    rw [hlen, if_pos hlast, List.take_left' rfl, if_neg hcr]
  rw [words, cstr_eq_self hnul, hchomp]

/-! ### Reading -/

/-- Some lines that lead the reader from one state to another if none of them is too long. -/
structure Takes (p : Parser) (lines : List (List Char)) (q : Parser) : Prop where
  chars : ∀ l ∈ lines, ∀ c ∈ l, lineChar c = true
  reads : (∀ l ∈ lines, l.length + 1 < lineLen) → ∀ incl bufs,
    linesWith incl p (lines.map (· ++ ['\n']) ++ bufs) = linesWith incl q bufs

namespace Takes

variable {p q r : Parser} {ls ls' : List (List Char)}

theorem nil (p : Parser) : Takes p [] p where
  chars := List.forall_mem_nil _
  reads _ _ _ := rfl

theorem append (h : Takes p ls q) (h' : Takes q ls' r) : Takes p (ls ++ ls') r where
  chars l hl := (List.mem_append.mp hl).elim (h.chars l) (h'.chars l)
  reads := by
    intro hshort incl bufs
    rw [List.map_append, List.append_assoc,
      h.reads (fun l hl => hshort l (List.mem_append_left _ hl)),
      h'.reads (fun l hl => hshort l (List.mem_append_right _ hl))]

/-- One line, with the words that are read. -/
theorem line {l : List Char} (hchars : ∀ c ∈ l, lineChar c = true)
    (hincl : ∀ key ∈ (words (l ++ ['\n'])).head?, strcaseeq "include".toList key = false)
    (hplain : plainLine p (words (l ++ ['\n'])) = .ok q) : Takes p [l] q := by
  refine ⟨List.forall_mem_singleton.mpr hchars, fun hshort incl bufs => ?_⟩
  have hlen := hshort l (List.mem_singleton_self l)
  have hcstr : (cstr (l ++ ['\n'])).length ≤ (l ++ ['\n']).length :=
    (List.takeWhile_sublist _).length_le
  rw [List.length_append, List.length_singleton] at hcstr
  have hnot : ¬((cstr (l ++ ['\n'])).length = lineLen ∧
      (cstr (l ++ ['\n'])).getLast? ≠ some '\n') := fun h => by
    have hfull := h.1
    omega
  have hnone : includeOf (l ++ ['\n']) = none := by
    rw [includeOf]
    split
    · next key val more hwords =>
        rw [hwords] at hincl
        rw [if_neg (by rw [hincl key rfl]; exact Bool.false_ne_true)]
    · rfl
  rw [List.map_singleton, List.singleton_append, linesWith, if_neg hnot, hnone]
  show (plainLine p (words (l ++ ['\n'])) >>= fun p => linesWith incl p bufs) = _
  rw [hplain]
  rfl

/-- A comment, or an empty line. -/
theorem skipped {l : List Char} (hchars : ∀ c ∈ l, lineChar c = true)
    (h : l = [] ∨ l.head? = some '#') : Takes p [l] p := by
  have hwords : words (l ++ ['\n']) = [] := by
    rw [words_line hchars]
    rcases h with rfl | h
    · rfl
    · rw [if_pos h]
  refine line hchars ?_ ?_
  · rw [hwords]
    simp
  · rw [hwords]
    rfl

end Takes

/-- The reader in the section of a remote. -/
def Parser.inSection (before : List ConfRemote) (rem : ConfRemote) : Parser :=
  { mode := .remote, before, rem := some rem, after := [] }

section Fields

variable {before : List ConfRemote} {rem rem' : ConfRemote} {start : String} {key val : List Char}
  {vals more : List (List Char)}

/-- The words of a line that starts with a blank and has a blank before its values. -/
theorem dumpLine_tokens (hhead : start.toList.head? = some ' ')
    (hlast : start.toList.getLast? = some ' ') (hchars : ∀ c ∈ start.toList, lineChar c = true)
    (hvals : List.Forall₂ Shows vals more) :
    words (dumpLine start vals ++ ['\n']) = tokens start.toList ++ more ∧
      ∀ c ∈ dumpLine start vals, lineChar c = true := by
  obtain ⟨hwords, hinner⟩ := tokens_intercalate hvals
  have hline : ∀ c ∈ dumpLine start vals, lineChar c = true := fun c hc =>
    (List.mem_append.mp hc).elim (hchars c) (hinner c)
  refine ⟨?_, hline⟩
  have hfirst : (dumpLine start vals).head? = some ' ' := by
    rw [dumpLine, List.head?_append, hhead]
    rfl
  rw [words_line hline, hfirst, if_neg (by decide), dumpLine, tokens_start hlast, hwords]

theorem dumpLine_words (hstart : startsField start key = true)
    (hvals : List.Forall₂ Shows vals more) :
    words (dumpLine start vals ++ ['\n']) = key :: more ∧
      ∀ c ∈ dumpLine start vals, lineChar c = true := by
  simp only [startsField, Bool.and_eq_true, beq_iff_eq, List.all_eq_true] at hstart
  obtain ⟨⟨⟨⟨⟨⟨hkey, hchars⟩, hlast⟩, hhead⟩, -⟩, -⟩, -⟩ := hstart
  obtain ⟨hwords, hline⟩ := dumpLine_tokens hhead hlast hchars hvals
  rw [hkey] at hwords
  exact ⟨hwords, hline⟩

/-- A line that defines a field. -/
theorem takes_define (hstart : startsField start key = true)
    (hvals : List.Forall₂ Shows vals (val :: more))
    (hread : defineRemote key val more.head? rem = .ok rem') :
    Takes (.inSection before rem) [dumpLine start vals] (.inSection before rem') := by
  obtain ⟨hwords, hline⟩ := dumpLine_words hstart hvals
  simp only [startsField, Bool.and_eq_true, Bool.not_eq_true'] at hstart
  refine .line hline ?_ ?_
  · rw [hwords]
    intro k hk
    cases hk
    exact hstart.1.1.2
  · rw [hwords, plainLine, hstart.1.2, hstart.2]
    show (defineRemote key val more.head? rem).map _ = _
    rw [hread]
    rfl

end Fields

/-! ### The fields that are read -/

/-- A value that is written under a condition. -/
def orZero {α : Type} [Zero α] (c : Bool) (x : α) : α := if c then x else 0

namespace ConfRemote

variable (rem : ConfRemote)

def setName (name : Option Name) : ConfRemote := { rem with name }
def setBits (n : ℤ) : ConfRemote := { rem with bits := n }
def setFlags (flags : ℕ) : ConfRemote := { rem with flags }
def setEps (n : ℤ) : ConfRemote := { rem with eps := n }
def setAeps (n : ℤ) : ConfRemote := { rem with aeps := n }
def setHeader (p s : ℤ) : ConfRemote := { rem with phead := p, shead := s }
def setThree (p s : ℤ) : ConfRemote := { rem with pthree := p, sthree := s }
def setTwo (p s : ℤ) : ConfRemote := { rem with ptwo := p, stwo := s }
def setOne (p s : ℤ) : ConfRemote := { rem with pone := p, sone := s }
def setZero (p s : ℤ) : ConfRemote := { rem with pzero := p, szero := s }
def setPtrail (n : ℤ) : ConfRemote := { rem with ptrail := n }
def setPlead (n : ℤ) : ConfRemote := { rem with plead := n }
def setFoot (p s : ℤ) : ConfRemote := { rem with pfoot := p, sfoot := s }
def setRepeat (p s : ℤ) : ConfRemote := { rem with prepeat := p, srepeat := s }
def setPreDataBits (n : ℤ) : ConfRemote := { rem with preDataBits := n }
def setPreData (code : IrCode) : ConfRemote := { rem with preData := code }
def setPostDataBits (n : ℤ) : ConfRemote := { rem with postDataBits := n }
def setPostData (code : IrCode) : ConfRemote := { rem with postData := code }
def setPre (p s : ℤ) : ConfRemote := { rem with preP := p, preS := s }
def setPost (p s : ℤ) : ConfRemote := { rem with postP := p, postS := s }
def setGap (gap gap2 : ℕ) : ConfRemote := { rem with gap, gap2 }
def setRepeatGap (n : ℕ) : ConfRemote := { rem with repeatGap := n }
def setSuppressRepeat (n : ℤ) : ConfRemote := { rem with suppressRepeat := n }
def setMinRepeat (n : ℤ) : ConfRemote := { rem with minRepeat := n }
def setMinCodeRepeat (n : ℤ) : ConfRemote := { rem with minCodeRepeat := (n % 2 ^ 32).toNat }
def setToggleBitMask (code : IrCode) : ConfRemote := { rem with toggleBitMask := code }
def setToggleMask (code : IrCode) : ConfRemote := { rem with toggleMask := code }
def setRc6Mask (code : IrCode) : ConfRemote := { rem with rc6Mask := code }
def setIgnoreMask (code : IrCode) : ConfRemote := { rem with ignoreMask := code }
def setBaud (n : ℕ) : ConfRemote := { rem with baud := n }
def setSerialMode (bits stop : ℕ) : ConfRemote := { rem with bitsInByte := bits, stopBits := stop }
def setFreq (n : ℕ) : ConfRemote := { rem with freq := n }
def setDutyCycle (n : ℕ) : ConfRemote := { rem with dutyCycle := n }

end ConfRemote

section Values

variable {before : List ConfRemote} {rem : ConfRemote} {start : String} {key : List Char}

/-- A line with one value. -/
theorem takes_value {α : Type} [Zero α] (parse : List Char → Config α)
    (set : ConfRemote → α → ConfRemote) (c : Bool) {x : α} {v w : List Char}
    (hstart : startsField start key = true)
    (hdefine : defineRemote key w none rem = (parse w).map (set rem))
    (hshows : Shows v w) (hparse : parse w = .ok x) (hzero : set rem 0 = rem) :
    Takes (.inSection before rem) (dumpIf c start [v])
      (.inSection before (set rem (orZero c x))) := by
  cases c with
  | true =>
      refine takes_define hstart (.cons hshows .nil) ?_
      rw [List.head?_nil, hdefine, hparse]
      rfl
  | false =>
      show Takes _ [] (.inSection before (set rem 0))
      rw [hzero]
      exact .nil _

/-- A line with a pulse and a space. -/
theorem takes_pair (set : ConfRemote → ℤ → ℤ → ConfRemote) (c : Bool) {p s : ℤ}
    (hstart : startsField start key = true)
    (hdefine : ∀ v v', defineRemote key v (some v') rem = pair set v v' rem)
    (hp : IsInt32 p) (hs : IsInt32 s) (hzero : set rem 0 0 = rem) :
    Takes (.inSection before rem) (dumpPair c start p s)
      (.inSection before (set rem (orZero c p) (orZero c s))) := by
  cases c with
  | true =>
      refine takes_define hstart (.cons ((isWord_decimal _).padded 5)
        (.cons ((isWord_decimal _).padded 5) .nil)) ?_
      rw [List.head?_cons, hdefine, pair, ← decimalU32, ← decimalU32, sStrtolircT_decimalU32 hp,
        sStrtolircT_decimalU32 hs]
      rfl
  | false =>
      show Takes _ [] (.inSection before (set rem 0 0))
      rw [hzero]
      exact .nil _

end Values

/-! ### Flags -/

/-- At most one protocol is set. -/
def OneProtocol (flags : ℕ) : Prop :=
  ∀ i j, i < 11 → j < 11 → flags.testBit i = true → flags.testBit j = true → i = j

theorem allFlags_find : ∀ f ∈ allFlags, (allFlags.find? fun g => strcaseeq g.1 f.1) = some f := by
  decide

theorem allFlags_bit : ∀ f ∈ allFlags, ∃ k < 16, f.2 = 2 ^ k := by decide

theorem protocolMask_testBit (k : ℕ) : protocolMask.testBit k = decide (k < 11) :=
  Nat.testBit_two_pow_sub_one 11 k

theorem and_two_pow_ne_zero {n k : ℕ} : n &&& 2 ^ k ≠ 0 ↔ n.testBit k = true := by
  rw [Nat.and_two_pow]
  cases n.testBit k with
  | true => simp
  | false => simp

/-- All the bits of some flags. -/
def flagBits (fs : List (List Char × ℕ)) : ℕ := fs.foldr (fun f bits => f.2 ||| bits) 0

theorem flagBits_allFlags : flagBits allFlags = 2 ^ 16 - 1 := by decide

theorem flagBits_testBit {fs : List (List Char × ℕ)} (hfs : ∀ f ∈ fs, f ∈ allFlags) {j : ℕ}
    (hj : 16 ≤ j) : (flagBits fs).testBit j = false := by
  induction fs with
  | nil => exact Nat.zero_testBit j
  | cons f fs ih =>
      obtain ⟨hf, hfs⟩ := List.forall_mem_cons.mp hfs
      obtain ⟨k, hk, hbit⟩ := allFlags_bit f hf
      show (f.2 ||| flagBits fs).testBit j = false
      rw [Nat.testBit_or, ih hfs, hbit, Nat.testBit_two_pow, Bool.or_false, decide_eq_false]
      omega

theorem clear_testBit {n k : ℕ} (hk : k < 16) (j : ℕ) :
    (n &&& (2 ^ 32 - 1 - 2 ^ k)).testBit j =
      (n.testBit j && (decide (j < 32) && !decide (k = j))) := by
  have hlt : 2 ^ k < 2 ^ 32 := Nat.pow_lt_pow_right (by decide) (by omega)
  rw [Nat.testBit_and, Nat.sub_sub, Nat.add_comm 1, Nat.testBit_two_pow_sub_succ hlt,
    Nat.testBit_two_pow]

section NextFlag

variable {acc flags k : ℕ}

/-- The next name is accepted: a second protocol would be a second protocol flag. -/
theorem addFlag_next {f : List Char × ℕ} (hf : f ∈ allFlags) (hbit : f.2 = 2 ^ k)
    (hone : OneProtocol (acc ||| flags))
    (happart : ∀ j, acc.testBit j = true → flags.testBit j = false)
    (hset : flags.testBit k = true) : addFlag acc f.1 = .ok (acc ||| 2 ^ k) := by
  have hfree : ¬(2 ^ k &&& protocolMask ≠ 0 ∧ acc &&& protocolMask ≠ 0) := by
    rintro ⟨hprotocol, hacc⟩
    rw [Nat.and_comm, and_two_pow_ne_zero, protocolMask_testBit, decide_eq_true_eq] at hprotocol
    obtain ⟨j, hj⟩ := Nat.exists_testBit_of_ne_zero hacc
    rw [Nat.testBit_and, protocolMask_testBit, Bool.and_eq_true, decide_eq_true_eq] at hj
    have heq : j = k := hone j k hj.2 hprotocol
      (by rw [Nat.testBit_or, hj.1, Bool.true_or]) (by rw [Nat.testBit_or, hset, Bool.or_true])
    rw [← heq, happart j hj.1] at hset
    cases hset
  rw [addFlag, allFlags_find f hf]
  dsimp only
  rw [hbit, if_neg hfree]

/-- A flag that moves from those that are left to those that have been read adds no protocol. -/
theorem oneProtocol_next (hk : k < 16) (hone : OneProtocol (acc ||| flags))
    (hset : flags.testBit k = true) :
    OneProtocol ((acc ||| 2 ^ k) ||| (flags &&& (2 ^ 32 - 1 - 2 ^ k))) := by
  have hsub : ∀ i, ((acc ||| 2 ^ k) ||| (flags &&& (2 ^ 32 - 1 - 2 ^ k))).testBit i = true →
      (acc ||| flags).testBit i = true := by
    intro i hi
    simp only [Nat.testBit_or, clear_testBit hk, Nat.testBit_two_pow, Bool.or_eq_true,
      Bool.and_eq_true, decide_eq_true_eq] at hi ⊢
    rcases hi with (hi | rfl) | hi
    · exact .inl hi
    · exact .inr hset
    · exact .inr hi.1
  exact fun i j hi hj hseti hsetj => hone i j hi hj (hsub i hseti) (hsub j hsetj)

theorem apart_next (hk : k < 16) (happart : ∀ j, acc.testBit j = true → flags.testBit j = false) :
    ∀ j, (acc ||| 2 ^ k).testBit j = true →
      (flags &&& (2 ^ 32 - 1 - 2 ^ k)).testBit j = false := by
  intro j hj
  rw [clear_testBit hk]
  rw [Nat.testBit_or, Nat.testBit_two_pow, Bool.or_eq_true, decide_eq_true_eq] at hj
  rcases hj with hj | rfl
  · rw [happart j hj, Bool.false_and]
  · simp

/-- The bits that are read for the flag and for the names behind it. -/
theorem or_next (hk : k < 16) (hset : flags.testBit k = true) {bits : ℕ}
    (hbits : ∀ j, 16 ≤ j → bits.testBit j = false) :
    (acc ||| 2 ^ k) ||| ((flags &&& (2 ^ 32 - 1 - 2 ^ k)) &&& bits) =
      acc ||| (flags &&& (2 ^ k ||| bits)) := by
  refine Nat.eq_of_testBit_eq fun j => ?_
  simp only [Nat.testBit_or, Nat.testBit_and, clear_testBit hk, Nat.testBit_two_pow]
  by_cases hj : k = j
  · subst hj
    simp [hset]
  · rcases Nat.lt_or_ge j 32 with hlt | hge
    · simp [hj, hlt]
    · simp [hj, hbits j (by omega)]

end NextFlag

/-- The names are read back one after the other, as at most one of them is a protocol. -/
theorem addFlag_flagNames (fs : List (List Char × ℕ)) (hfs : ∀ f ∈ fs, f ∈ allFlags)
    (flags acc : ℕ) (hone : OneProtocol (acc ||| flags)) (happart : ∀ j, acc.testBit j = true →
      flags.testBit j = false) :
    (flagNames flags fs).foldlM addFlag acc = .ok (acc ||| (flags &&& flagBits fs)) := by
  -- `acc` has been read, and `flags` are left: together they are the flags at the start
  induction fs generalizing flags acc with
  | nil =>
      show Except.ok acc = _
      rw [flagBits, List.foldr_nil, Nat.and_zero, Nat.or_zero]
  | cons f fs ih =>
      obtain ⟨hf, hfs⟩ := List.forall_mem_cons.mp hfs
      obtain ⟨k, hk, hbit⟩ := allFlags_bit f hf
      have hbits : flagBits (f :: fs) = 2 ^ k ||| flagBits fs := by rw [← hbit]; rfl
      rw [flagNames, hbit, hbits]
      split
      · next hset =>
          rw [and_two_pow_ne_zero] at hset
          rw [List.foldlM_cons, addFlag_next hf hbit hone happart hset]
          show (flagNames _ fs).foldlM addFlag (acc ||| 2 ^ k) = _
          rw [ih hfs _ _ (oneProtocol_next hk hone hset) (apart_next hk happart),
            or_next hk hset fun _ => flagBits_testBit hfs]
      · next hset =>
          rw [and_two_pow_ne_zero, Bool.not_eq_true] at hset
          have hnone : flags &&& 2 ^ k = 0 := by
            rw [Nat.and_two_pow, hset]
            exact Nat.zero_mul _
          rw [ih hfs flags acc hone happart, Nat.and_or_distrib_left, hnone, Nat.zero_or]

/-- The flags that have names. -/
def namedFlags (flags : ℕ) : ℕ := flags &&& (2 ^ 16 - 1)

theorem flagNames_subset {flags : ℕ} {fs : List (List Char × ℕ)} {name : List Char}
    (h : name ∈ flagNames flags fs) : ∃ f ∈ fs, f.1 = name := by
  induction fs generalizing flags with
  | nil => cases h
  | cons f fs ih =>
      rw [flagNames] at h
      split at h
      · rcases List.mem_cons.mp h with rfl | h
        · exact ⟨f, List.mem_cons_self, rfl⟩
        · obtain ⟨g, hg, hname⟩ := ih h
          exact ⟨g, List.mem_cons_of_mem _ hg, hname⟩
      · obtain ⟨g, hg, hname⟩ := ih h
        exact ⟨g, List.mem_cons_of_mem _ hg, hname⟩

theorem readFlags {flags : ℕ} (hone : OneProtocol flags) :
    (flagNames flags allFlags).foldlM addFlag 0 = .ok (namedFlags flags) := by
  rw [addFlag_flagNames allFlags (fun _ h => h) flags 0 (by rwa [Nat.zero_or])
    (fun j hj => by rw [Nat.zero_testBit] at hj; cases hj), Nat.zero_or, flagBits_allFlags]
  rfl

theorem parseFlags_names {flags : ℕ} (hone : OneProtocol flags)
    (hne : flagNames flags allFlags ≠ []) :
    parseFlags (['|'].intercalate (flagNames flags allFlags)) = .ok (namedFlags flags) := by
  have hbar : ∀ name ∈ flagNames flags allFlags, '|' ∉ name := fun name h => by
    obtain ⟨f, hf, rfl⟩ := flagNames_subset h
    exact (show ∀ f ∈ allFlags, '|' ∉ f.1 by decide) f hf
  rw [parseFlags, splitBars, List.splitOn_intercalate '|' hbar hne, readFlags hone]

theorem chars_intercalate {P : Char → Prop} {sep : Char} (hsep : P sep) {ls : List (List Char)}
    (h : ∀ l ∈ ls, ∀ c ∈ l, P c) : ∀ c ∈ [sep].intercalate ls, P c := by
  induction ls with
  | nil => exact fun c hc => absurd hc List.not_mem_nil
  | cons l ls ih =>
      obtain ⟨hl, hls⟩ := List.forall_mem_cons.mp h
      cases ls with
      | nil => rwa [List.intercalate_singleton]
      | cons l' ls =>
          rw [List.intercalate_cons_cons]
          intro c hc
          rcases List.mem_append.mp hc with hc | hc
          · rcases List.mem_append.mp hc with hc | hc
            · exact hl c hc
            · exact List.mem_singleton.mp hc ▸ hsep
          · exact ih hls c hc

theorem isWord_flags {flags : ℕ} (hne : flagNames flags allFlags ≠ []) :
    IsWord (['|'].intercalate (flagNames flags allFlags)) := by
  have hchars : ∀ name ∈ flagNames flags allFlags, ∀ c ∈ name, wordChar c = true := by
    intro name h
    obtain ⟨f, hf, rfl⟩ := flagNames_subset h
    have hall : ∀ f ∈ allFlags, f.1.all wordChar = true := by decide
    exact List.all_eq_true.mp (hall f hf)
  refine ⟨fun h => ?_, chars_intercalate (by decide) hchars⟩
  obtain ⟨name, names, hcons⟩ := List.exists_cons_of_ne_nil hne
  have hname : name ≠ [] := by
    obtain ⟨f, hf, rfl⟩ := flagNames_subset (hcons ▸ List.mem_cons_self)
    exact (show ∀ f ∈ allFlags, f.1 ≠ [] by decide) f hf
  rw [hcons] at h
  cases names with
  | nil =>
      rw [List.intercalate_singleton] at h
      exact hname h
  | cons name' names =>
      rw [List.intercalate_cons_cons, List.append_assoc] at h
      exact hname (List.append_eq_nil_iff.mp h).1

section Special

variable {before : List ConfRemote} {rem : ConfRemote}

theorem takes_flags {flags : ℕ} (hone : OneProtocol flags) (hzero : rem.setFlags 0 = rem) :
    Takes (.inSection before rem) (fprintFlags flags)
      (.inSection before (rem.setFlags (namedFlags flags))) := by
  have hread := readFlags hone
  by_cases hne : flagNames flags allFlags = []
  · rw [hne] at hread
    have hnone : namedFlags flags = 0 := (Except.ok.inj hread).symm
    rw [hnone, hzero, fprintFlags, dumpIf, if_neg (by rw [hne]; decide)]
    exact .nil _
  · rw [fprintFlags, dumpIf, if_pos (decide_eq_true hne)]
    have hstart : startsField "  flags " "flags".toList = true := by decide
    refine takes_define hstart (.cons (isWord_flags hne).shows .nil) ?_
    show (parseFlags _).map ({ rem with flags := rem.flags ||| · }) = _
    rw [parseFlags_names hone hne, ← hzero]
    exact congrArg (fun f => Except.ok (rem.setFlags f)) (Nat.zero_or _)

theorem takes_gap {gap gap2 : ℕ} (hgap : gap < 2 ^ 32) (hgap2 : gap2 < 2 ^ 32)
    (hzero : rem.setGap 0 0 = rem) (r : ConfRemote) (hr : r.gap = gap ∧ r.gap2 = gap2) :
    Takes (.inSection before rem) (fprintRemoteGap r)
      (.inSection before (rem.setGap (orZero true gap) (orZero true gap2))) := by
  have hshows : ∀ n : ℕ, Shows (decimalU32 n) (decimalU32 n) := fun n => (isWord_decimal _).shows
  have hstart : startsField "  gap          " "gap".toList = true := by decide
  have hrem : rem.gap2 = 0 := by
    rw [← hzero]
    rfl
  rw [fprintRemoteGap, hr.1, hr.2]
  split
  · refine takes_define hstart (.cons (hshows gap) (.cons (hshows gap2) .nil)) ?_
    show defineGap (decimalU32 gap) (some (decimalU32 gap2)) rem = _
    rw [defineGap, Option.elim_some, sStrtou32_decimalU32 hgap2,
      sStrtou32_decimalU32 hgap]
    rfl
  · next hnone =>
      refine takes_define hstart (.cons (hshows gap) .nil) ?_
      show defineGap (decimalU32 gap) none rem = _
      rw [defineGap, Option.elim_none, sStrtou32_decimalU32 hgap, hrem, not_not.mp hnone]
      rfl

theorem serialMode_text {r : ConfRemote} (hbits : 5 ≤ r.bitsInByte ∧ r.bitsInByte ≤ 9)
    (hstop : r.stopBits % 2 = 0 ∨ r.stopBits = 3) (hlt : r.stopBits < 2 ^ 32)
    (hparity : rem.parity = .none) :
    serialMode (serialModeText r) rem = .ok (rem.setSerialMode r.bitsInByte r.stopBits) := by
  have hstopText : stopBitsOf (decimal (r.stopBits / 2) ++
      (if r.stopBits % 2 ≠ 0 then ".5".toList else [])) = .ok r.stopBits := by
    rcases hstop with heven | hthree
    · rw [heven, if_neg (by decide), List.append_nil, stopBitsOf, if_neg, sStrtoui,
        sStrtou32_decimal (by omega)]
      · refine congrArg Except.ok ?_
        show r.stopBits / 2 * 2 % 2 ^ 32 = r.stopBits
        omega
      · intro h
        have hdot : '.' ∈ decimal (r.stopBits / 2) := by
          rw [h]
          decide
        exact absurd (isDigit_decimal _ _ hdot) (by decide)
    · rw [hthree]
      rfl
  obtain ⟨hlow, hhigh⟩ := hbits
  rw [serialModeText]
  have hset : ∀ b, b = r.bitsInByte → { rem with
      bitsInByte := b, parity := .none, stopBits := r.stopBits } =
        rem.setSerialMode r.bitsInByte r.stopBits := by
    intro b hb
    rw [hb, ConfRemote.setSerialMode, ← hparity]
  generalize r.bitsInByte = b at *
  have hdigit : ∃ d, decimal b = [d] ∧ '5' ≤ d ∧ d ≤ '9' ∧ d.toNat - '0'.toNat = b := by
    interval_cases b
    · exact ⟨'5', rfl, by decide, by decide, rfl⟩
    · exact ⟨'6', rfl, by decide, by decide, rfl⟩
    · exact ⟨'7', rfl, by decide, by decide, rfl⟩
    · exact ⟨'8', rfl, by decide, by decide, rfl⟩
    · exact ⟨'9', rfl, by decide, by decide, rfl⟩
  obtain ⟨d, hd, hfive, hnine, hvalue⟩ := hdigit
  rw [hd, List.singleton_append, List.cons_append, List.cons_append, ← hset b rfl, ← hvalue,
    serialMode, if_pos ⟨hfive, hnine⟩, hstopText]
  rfl

theorem isWord_serialModeText (r : ConfRemote) : IsWord (serialModeText r) := by
  rw [serialModeText, List.append_assoc]
  refine (isWord_decimal _).append (List.forall_mem_cons.mpr ⟨by decide, fun c hc => ?_⟩)
  rcases List.mem_append.mp hc with hc | hc
  · exact (isWord_decimal _).2 c hc
  · split at hc
    · have hhalf : ".5".toList.all wordChar = true := by decide
      exact List.all_eq_true.mp hhalf c hc
    · cases hc

end Special

/-! ### The head of a section -/

/-- A code that can be written: its name is a word, and a raw button has an odd number of samples,
as it has in every file. -/
structure WritableCode (rem : ConfRemote) (code : IrNcode) : Prop where
  name : IsWord code.name
  notInclude : rem.isRaw = false → strcaseeq "include".toList code.name = false
  signals : rem.isRaw = true →
    ∃ signals, code.signals = some signals ∧ signals.length % 2 = 1 ∧ ∀ t ∈ signals, IsInt32 t

/-- The fields of the types `int` and `lirc_t`. -/
def ConfRemote.intFields (rem : ConfRemote) : List ℤ :=
  [rem.bits, rem.eps, rem.aeps, rem.phead, rem.shead, rem.pthree, rem.sthree, rem.ptwo, rem.stwo,
    rem.pone, rem.sone, rem.pzero, rem.szero, rem.plead, rem.ptrail, rem.pfoot, rem.sfoot,
    rem.prepeat, rem.srepeat, rem.preDataBits, rem.postDataBits, rem.preP, rem.preS, rem.postP,
    rem.postS, rem.suppressRepeat, rem.minRepeat]

/-- The fields of the types `__u32` and `unsigned int`. -/
def ConfRemote.wordFields (rem : ConfRemote) : List ℕ :=
  [rem.gap, rem.gap2, rem.repeatGap, rem.minCodeRepeat, rem.freq, rem.dutyCycle, rem.baud,
    rem.stopBits]

/-- A remote that can be written so that it is read again. The values are those of their C
types. -/
structure Writable (rem : ConfRemote) : Prop where
  name : ∃ name, rem.name = some name ∧ IsWord name
  bits : 0 ≤ rem.bits
  ints : ∀ n ∈ rem.intFields, IsInt32 n
  words : ∀ n ∈ rem.wordFields, n < 2 ^ 32
  oneProtocol : OneProtocol rem.flags
  serial : rem.isSerial = true → (5 ≤ rem.bitsInByte ∧ rem.bitsInByte ≤ 9) ∧
    (rem.stopBits % 2 = 0 ∨ rem.stopBits = 3)
  codes : ∃ codes, rem.codes = some codes ∧ ∀ code ∈ codes, WritableCode rem code

/-- The fields of a remote that are written. -/
def writtenHead (rem : ConfRemote) : ConfRemote where
  name := rem.name
  bits := orZero (!rem.isRaw) rem.bits
  flags := namedFlags rem.flags
  eps := rem.eps
  aeps := rem.aeps
  phead := orZero (!rem.isRaw && rem.hasHeader) rem.phead
  shead := orZero (!rem.isRaw && rem.hasHeader) rem.shead
  pthree := orZero (!rem.isRaw && (rem.pthree != 0 || rem.sthree != 0)) rem.pthree
  sthree := orZero (!rem.isRaw && (rem.pthree != 0 || rem.sthree != 0)) rem.sthree
  ptwo := orZero (!rem.isRaw && (rem.ptwo != 0 || rem.stwo != 0)) rem.ptwo
  stwo := orZero (!rem.isRaw && (rem.ptwo != 0 || rem.stwo != 0)) rem.stwo
  pone := orZero (!rem.isRaw) rem.pone
  sone := orZero (!rem.isRaw) rem.sone
  pzero := orZero (!rem.isRaw) rem.pzero
  szero := orZero (!rem.isRaw) rem.szero
  ptrail := orZero (rem.ptrail != 0) rem.ptrail
  plead := orZero (!rem.isRaw && rem.plead != 0) rem.plead
  pfoot := orZero (!rem.isRaw && rem.hasFoot) rem.pfoot
  sfoot := orZero (!rem.isRaw && rem.hasFoot) rem.sfoot
  prepeat := orZero rem.hasRepeat rem.prepeat
  srepeat := orZero rem.hasRepeat rem.srepeat
  preDataBits := orZero (!rem.isRaw && rem.hasPre) rem.preDataBits
  preData := orZero (!rem.isRaw && rem.hasPre) rem.preData
  postDataBits := orZero (!rem.isRaw && rem.hasPost) rem.postDataBits
  postData := orZero (!rem.isRaw && rem.hasPost) rem.postData
  preP := orZero (!rem.isRaw && (rem.preP != 0 && rem.preS != 0)) rem.preP
  preS := orZero (!rem.isRaw && (rem.preP != 0 && rem.preS != 0)) rem.preS
  postP := orZero (!rem.isRaw && (rem.postP != 0 && rem.postS != 0)) rem.postP
  postS := orZero (!rem.isRaw && (rem.postP != 0 && rem.postS != 0)) rem.postS
  gap := rem.gap
  gap2 := rem.gap2
  repeatGap := orZero rem.hasRepeatGap rem.repeatGap
  suppressRepeat := orZero (0 < rem.suppressRepeat) rem.suppressRepeat
  minRepeat := orZero (0 < rem.minRepeat) rem.minRepeat
  minCodeRepeat := orZero (!rem.isRaw && 0 < rem.minCodeRepeat) rem.minCodeRepeat
  toggleBitMask := orZero (!rem.isRaw) rem.toggleBitMask
  toggleMask := orZero (!rem.isRaw && rem.hasToggleMask) rem.toggleMask
  rc6Mask := orZero (!rem.isRaw && rem.rc6Mask != 0) rem.rc6Mask
  ignoreMask := orZero (!rem.isRaw && rem.hasIgnoreMask) rem.ignoreMask
  baud := orZero (!rem.isRaw && rem.isSerial) rem.baud
  bitsInByte := orZero (!rem.isRaw && rem.isSerial) rem.bitsInByte
  stopBits := orZero (!rem.isRaw && rem.isSerial) rem.stopBits
  freq := orZero (rem.freq != 0) rem.freq
  dutyCycle := orZero (rem.dutyCycle != 0) rem.dutyCycle

theorem takes_blank (p : Parser) : Takes p [dumpLine "" []] p :=
  .skipped (fun _ hc => absurd hc List.not_mem_nil) (.inl rfl)

/-- The start of a comment. -/
def startsComment (start : String) : Bool :=
  start.toList.head? == some '#' && start.toList.all lineChar

theorem takes_comment (p : Parser) (c : Bool) {start : String} {vals : List (List Char)}
    (hstart : startsComment start = true) (hvals : ∀ v ∈ vals, ∀ c ∈ v, lineChar c = true) :
    Takes p (dumpIf c start vals) p := by
  simp only [startsComment, Bool.and_eq_true, beq_iff_eq, List.all_eq_true] at hstart
  cases c with
  | false => exact .nil p
  | true =>
      refine .skipped (fun c hc => ?_) (.inr ?_)
      · exact (List.mem_append.mp hc).elim (hstart.2 c) (chars_intercalate (by decide) hvals c)
      · rw [dumpLine, List.head?_append, hstart.1]
        rfl

theorem takes_serialMode {r rem : ConfRemote} {before : List ConfRemote} (hr : Writable r)
    (hparity : rem.parity = .none) (hzero : rem.setSerialMode 0 0 = rem) :
    Takes (.inSection before rem)
      (dumpIf (!r.isRaw && r.isSerial) "  serial_mode     " [serialModeText r])
      (.inSection before (rem.setSerialMode (orZero (!r.isRaw && r.isSerial) r.bitsInByte)
        (orZero (!r.isRaw && r.isSerial) r.stopBits))) := by
  cases hc : (!r.isRaw && r.isSerial) with
  | false =>
      show Takes _ [] (.inSection before (rem.setSerialMode 0 0))
      rw [hzero]
      exact .nil _
  | true =>
      obtain ⟨hbits, hstop⟩ := hr.serial (Bool.and_eq_true_iff.mp hc).2
      refine takes_define
        (show startsField "  serial_mode     " "serial_mode".toList = true by decide)
        (.cons (isWord_serialModeText r).shows .nil) ?_
      have hlt := hr.words r.stopBits (by simp [ConfRemote.wordFields])
      exact serialMode_text hbits hstop hlt hparity

theorem beginSection_remote {p : Parser} (hmode : p.mode = .none) :
    plainLine p ["begin".toList, "remote".toList] =
      .ok (.inSection (p.before ++ p.rem.toList) {}) := by
  show (checkMode p .none >>= fun _ => pure { p.append {} with mode := .remote }) = _
  rw [checkMode, if_pos hmode]
  rfl

theorem takes_begin {p : Parser} (hmode : p.mode = .none) :
    Takes p [dumpLine "begin remote" [], dumpLine "" []]
      (.inSection (p.before ++ p.rem.toList) {}) := by
  have hbegin : words (dumpLine "begin remote" [] ++ ['\n']) =
    ["begin".toList, "remote".toList] := by decide
  have h : Takes p [dumpLine "begin remote" []] (.inSection (p.before ++ p.rem.toList) {}) := by
    refine .line ?_ ?_ ?_
    · exact List.all_eq_true.mp (show "begin remote".toList.all lineChar = true by decide)
    · rw [hbegin]
      decide
    · rw [hbegin, beginSection_remote hmode]
  exact h.append (takes_blank _)

/-- The fields that are written are read. -/
theorem takes_head {rem : ConfRemote} (hrem : Writable rem) {p : Parser} (hmode : p.mode = .none) :
    Takes p (fprintRemoteHead rem) (.inSection (p.before ++ p.rem.toList) (writtenHead rem)) := by
  obtain ⟨name, hname, hword⟩ := hrem.name
  -- one step for each line that is written, in the order of the lines
  have hints := hrem.ints
  have hwords := hrem.words
  rw [ConfRemote.intFields] at hints
  rw [ConfRemote.wordFields] at hwords
  have h := takes_begin hmode
  have hnamed : Takes (.inSection (p.before ++ p.rem.toList) {})
      [dumpLine "  name  " [rem.name.getD []]]
      (.inSection (p.before ++ p.rem.toList) (ConfRemote.setName {} (some name))) := by
    rw [hname, Option.getD_some]
    exact takes_define (show startsField "  name  " "name".toList = true by decide)
      (.cons hword.shows .nil) rfl
  have h := h.append hnamed
  have h := h.append (takes_value sStrtoi ConfRemote.setBits (!rem.isRaw)
    (show startsField "  bits        " "bits".toList = true by decide) rfl
    ((isWord_decimalInt _).padded 5)
    (sStrtoi_decimalInt (hints rem.bits (by simp))) rfl)
  have h := h.append (takes_flags hrem.oneProtocol rfl)
  have h := h.append (takes_value sStrtoi ConfRemote.setEps true
    (show startsField "  eps         " "eps".toList = true by decide) rfl
    ((isWord_decimalInt _).padded 5)
    (sStrtoi_decimalInt (hints rem.eps (by simp))) rfl)
  have h := h.append (takes_value sStrtoi ConfRemote.setAeps true
    (show startsField "  aeps        " "aeps".toList = true by decide) rfl
    ((isWord_decimalInt _).padded 5)
    (sStrtoi_decimalInt (hints rem.aeps (by simp))) rfl)
  have h := h.append (takes_blank _)
  -- the pulses and spaces
  have h := h.append (takes_pair ConfRemote.setHeader (!rem.isRaw && rem.hasHeader)
    (show startsField "  header      " "header".toList = true by decide)
    (fun _ _ => rfl) (hints rem.phead (by simp)) (hints rem.shead (by simp)) rfl)
  have h := h.append (takes_pair ConfRemote.setThree
    (!rem.isRaw && (rem.pthree != 0 || rem.sthree != 0))
    (show startsField "  three       " "three".toList = true by decide)
    (fun _ _ => rfl) (hints rem.pthree (by simp)) (hints rem.sthree (by simp)) rfl)
  have h := h.append (takes_pair ConfRemote.setTwo (!rem.isRaw && (rem.ptwo != 0 || rem.stwo != 0))
    (show startsField "  two         " "two".toList = true by decide)
    (fun _ _ => rfl) (hints rem.ptwo (by simp)) (hints rem.stwo (by simp)) rfl)
  have h := h.append (takes_pair ConfRemote.setOne (!rem.isRaw)
    (show startsField "  one         " "one".toList = true by decide)
    (fun _ _ => rfl) (hints rem.pone (by simp)) (hints rem.sone (by simp)) rfl)
  have h := h.append (takes_pair ConfRemote.setZero (!rem.isRaw)
    (show startsField "  zero        " "zero".toList = true by decide)
    (fun _ _ => rfl) (hints rem.pzero (by simp)) (hints rem.szero (by simp)) rfl)
  have h := h.append (takes_value sStrtolircT ConfRemote.setPtrail (rem.ptrail != 0)
    (show startsField "  ptrail      " "ptrail".toList = true by decide) rfl
    ((isWord_decimal _).padded 5)
    (sStrtolircT_decimalU32 (hints rem.ptrail (by simp))) rfl)
  have h := h.append (takes_value sStrtolircT ConfRemote.setPlead (!rem.isRaw && rem.plead != 0)
    (show startsField "  plead       " "plead".toList = true by decide) rfl
    ((isWord_decimal _).padded 5)
    (sStrtolircT_decimalU32 (hints rem.plead (by simp))) rfl)
  have h := h.append (takes_pair ConfRemote.setFoot (!rem.isRaw && rem.hasFoot)
    (show startsField "  foot        " "foot".toList = true by decide)
    (fun _ _ => rfl) (hints rem.pfoot (by simp)) (hints rem.sfoot (by simp)) rfl)
  have h := h.append (takes_pair ConfRemote.setRepeat rem.hasRepeat
    (show startsField "  repeat      " "repeat".toList = true by decide)
    (fun _ _ => rfl) (hints rem.prepeat (by simp)) (hints rem.srepeat (by simp)) rfl)
  -- the data before and behind the code
  have h := h.append (takes_value sStrtoi ConfRemote.setPreDataBits (!rem.isRaw && rem.hasPre)
    (show startsField "  pre_data_bits   " "pre_data_bits".toList = true by decide) rfl
    (isWord_decimalInt _).shows
    (sStrtoi_decimalInt (hints rem.preDataBits (by simp))) rfl)
  have h := h.append (takes_value sStrtocode ConfRemote.setPreData (!rem.isRaw && rem.hasPre)
    (show startsField "  pre_data       " "pre_data".toList = true by decide) rfl
    (isWord_hexUpper 0 rem.preData).shows
    (sStrtocode_hexUpper 0 rem.preData) rfl)
  have h := h.append (takes_value sStrtoi ConfRemote.setPostDataBits (!rem.isRaw && rem.hasPost)
    (show startsField "  post_data_bits  " "post_data_bits".toList = true by decide) rfl
    (isWord_decimalInt _).shows
    (sStrtoi_decimalInt (hints rem.postDataBits (by simp))) rfl)
  have h := h.append (takes_value sStrtocode ConfRemote.setPostData (!rem.isRaw && rem.hasPost)
    (show startsField "  post_data      " "post_data".toList = true by decide) rfl
    (isWord_hexUpper 0 rem.postData).shows
    (sStrtocode_hexUpper 0 rem.postData) rfl)
  have h := h.append (takes_pair ConfRemote.setPre (!rem.isRaw && (rem.preP != 0 && rem.preS != 0))
    (show startsField "  pre         " "pre".toList = true by decide)
    (fun _ _ => rfl) (hints rem.preP (by simp)) (hints rem.preS (by simp)) rfl)
  have h := h.append (takes_pair ConfRemote.setPost
    (!rem.isRaw && (rem.postP != 0 && rem.postS != 0))
    (show startsField "  post        " "post".toList = true by decide)
    (fun _ _ => rfl) (hints rem.postP (by simp)) (hints rem.postS (by simp)) rfl)
  -- gaps and repeats; a proposal stands in a comment
  have h := h.append (takes_gap (hwords rem.gap (by simp)) (hwords rem.gap2 (by simp)) rfl rem
    ⟨rfl, rfl⟩)
  have h := h.append (takes_value sStrtou32 ConfRemote.setRepeatGap rem.hasRepeatGap
    (show startsField "  repeat_gap   " "repeat_gap".toList = true by decide) rfl
    (isWord_decimal _).shows
    (sStrtou32_decimalU32 (hwords rem.repeatGap (by simp))) rfl)
  have h := h.append (takes_value sStrtoi ConfRemote.setSuppressRepeat (0 < rem.suppressRepeat)
    (show startsField "  suppress_repeat " "suppress_repeat".toList = true by decide) rfl
    (isWord_decimalInt _).shows
    (sStrtoi_decimalInt (hints rem.suppressRepeat (by simp))) rfl)
  have h := h.append (takes_value sStrtoi ConfRemote.setMinRepeat (0 < rem.minRepeat)
    (show startsField "  min_repeat      " "min_repeat".toList = true by decide) rfl
    (isWord_decimalInt _).shows
    (sStrtoi_decimalInt (hints rem.minRepeat (by simp))) rfl)
  have h := h.append (takes_comment _ (0 < rem.minRepeat && rem.suppressRepeat == 0)
    (show startsComment "#  suppress_repeat " = true by decide)
    (List.forall_mem_singleton.mpr (isWord_decimalInt rem.minRepeat).chars))
  have h := h.append (takes_comment _ (0 < rem.minRepeat && rem.suppressRepeat == 0)
    (show startsComment "#  uncomment to suppress unwanted repeats" = true by decide)
    (List.forall_mem_nil _))
  have h := h.append (takes_value sStrtoi ConfRemote.setMinCodeRepeat
    (!rem.isRaw && 0 < rem.minCodeRepeat)
    (show startsField "  min_code_repeat " "min_code_repeat".toList = true by decide) rfl
    (isWord_decimalInt _).shows
    (sStrtoi_decimalInt (isInt32_toInt32 (hwords rem.minCodeRepeat (by simp))).1) rfl)
  -- the masks, the serial protocol and the carrier
  have h := h.append (takes_value sStrtocode ConfRemote.setToggleBitMask (!rem.isRaw)
    (show startsField "  toggle_bit_mask " "toggle_bit_mask".toList = true by decide) rfl
    (isWord_hexUpper 0 rem.toggleBitMask).shows
    (sStrtocode_hexUpper 0 rem.toggleBitMask) rfl)
  have h := h.append (takes_value sStrtocode ConfRemote.setToggleMask
    (!rem.isRaw && rem.hasToggleMask)
    (show startsField "  toggle_mask    " "toggle_mask".toList = true by decide) rfl
    (isWord_hexUpper 0 rem.toggleMask).shows
    (sStrtocode_hexUpper 0 rem.toggleMask) rfl)
  have h := h.append (takes_value sStrtocode ConfRemote.setRc6Mask (!rem.isRaw && rem.rc6Mask != 0)
    (show startsField "  rc6_mask    " "rc6_mask".toList = true by decide) rfl
    (isWord_hexUpper 0 rem.rc6Mask).shows
    (sStrtocode_hexUpper 0 rem.rc6Mask) rfl)
  have h := h.append (takes_value sStrtocode ConfRemote.setIgnoreMask
    (!rem.isRaw && rem.hasIgnoreMask)
    (show startsField "  ignore_mask " "ignore_mask".toList = true by decide) rfl
    (isWord_hexUpper 0 rem.ignoreMask).shows
    (sStrtocode_hexUpper 0 rem.ignoreMask) rfl)
  have h := h.append (takes_value sStrtou32 ConfRemote.setBaud (!rem.isRaw && rem.isSerial)
    (show startsField "  baud            " "baud".toList = true by decide) rfl
    (isWord_decimalInt _).shows
    (sStrtou32_decimalUnsigned (hwords rem.baud (by simp))) rfl)
  have h := h.append (takes_serialMode hrem rfl rfl)
  have h := h.append (takes_value sStrtou32 ConfRemote.setFreq (rem.freq != 0)
    (show startsField "  frequency    " "frequency".toList = true by decide) rfl
    (isWord_decimal _).shows
    (sStrtou32_decimal (hwords rem.freq (by simp))) rfl)
  have h := h.append (takes_value sStrtou32 ConfRemote.setDutyCycle (rem.dutyCycle != 0)
    (show startsField "  duty_cycle   " "duty_cycle".toList = true by decide) rfl
    (isWord_decimal _).shows
    (sStrtou32_decimal (hwords rem.dutyCycle (by simp))) rfl)
  have h := h.append (takes_blank _)
  -- `min_code_repeat` is written with `%d` and read with `s_strtoi`, but it is unsigned
  have hmin : (orZero (!rem.isRaw && 0 < rem.minCodeRepeat) (toInt32 rem.minCodeRepeat) %
      2 ^ 32).toNat = orZero (!rem.isRaw && 0 < rem.minCodeRepeat) rem.minCodeRepeat := by
    cases (!rem.isRaw && decide (0 < rem.minCodeRepeat)) with
    | true => exact (isInt32_toInt32 (hwords rem.minCodeRepeat (by simp))).2
    | false => rfl
  have hhead : Takes p (fprintRemoteHead rem) (.inSection (p.before ++ p.rem.toList)
      { writtenHead rem with
        name := some name
        minCodeRepeat := (orZero (!rem.isRaw && 0 < rem.minCodeRepeat)
          (toInt32 rem.minCodeRepeat) % 2 ^ 32).toNat }) := h
  rw [hmin, ← hname] at hhead
  exact hhead

end Lirc
