import Mathlib.Tactic.FinCases
import Lirc.RcText

/-!
`lirc_parse_string` in the buffer of the string: the pointers `s` and `t` go through one
array of characters, and what is read and written is noted. What it leaves is the string in
which every escape is replaced by the character it stands for.
-/

namespace Lirc

open CString Numeral

/-! ### What a string stands for -/

/-- The escapes with a letter or a sign of their own. -/
def standardEscapes : List (Char × Char) :=
  [('a', '\x07'), ('b', '\x08'), ('e', '\x1b'), ('f', '\x0c'), ('n', '\n'), ('r', '\r'),
    ('t', '\t'), ('v', '\x0b'), ('\\', '\\'), ('"', '"'), ('\'', '\''), ('?', '?')]

/-- A number in an escape, modulo 256. -/
def escapedChar (n : ℕ) : Char := Char.ofNat (n % 2 ^ 8)

/-- The escape behind a backslash: what it stands for, and what follows it. Octal digits
are at most three, hexadecimal ones as many as there are. -/
def readEscape : List Char → Option (Char × List Char)
  | [] => none
  | c :: s =>
      match standardEscapes.lookup c with
      | some d => some (d, s)
      | none =>
          let octal := ((c :: s).take 3).takeWhile (isDigit 8)
          if octal ≠ [] then some (escapedChar (valueOf 8 octal), (c :: s).drop octal.length)
          else if c = 'x' then
            some (escapedChar (valueOf 16 (s.takeWhile (isDigit 16))), s.dropWhile (isDigit 16))
          else if '@' ≤ c ∧ c ≤ 'Z' then some (Char.ofNat (c.toNat - '@'.toNat), s)
          else none

theorem readEscape_length {s rest : List Char} {d : Char} (h : readEscape s = some (d, rest)) :
    rest.length < s.length := by
  cases s with
  | nil => cases h
  | cons c s =>
      rw [readEscape] at h
      split at h
      · obtain ⟨-, rfl⟩ := Prod.mk.inj (Option.some.inj h)
        exact Nat.lt_succ_self _
      · dsimp only at h
        split at h
        · next hne =>
            obtain ⟨-, rfl⟩ := Prod.mk.inj (Option.some.inj h)
            have hpos := List.length_pos_iff.mpr hne
            rw [List.length_drop, List.length_cons]
            omega
        · split at h
          · obtain ⟨-, rfl⟩ := Prod.mk.inj (Option.some.inj h)
            exact Nat.lt_succ_of_le (length_dropWhile_le _ s)
          · split at h
            · obtain ⟨-, rfl⟩ := Prod.mk.inj (Option.some.inj h)
              exact Nat.lt_succ_self _
            · cases h

/-- The characters that a string stands for. Where no escape follows a backslash, `bare` says
what it stands for together with the next character. -/
def unescape (bare : Option Char → List Char) : List Char → List Char
  | [] => []
  | c :: s =>
      if c = '\\' then
        match _hread : readEscape s with
        | some (d, rest) => d :: unescape bare rest
        | none =>
            match s with
            | [] => bare none
            | d :: rest => bare (some d) ++ unescape bare rest
      else c :: unescape bare s
termination_by s => s.length
decreasing_by
  · have hlen := readEscape_length _hread
    rw [List.length_cons]
    omega
  · rw [List.length_cons, List.length_cons]
    omega
  · exact Nat.lt_succ_self _

/-- The backslash is dropped; in front of a newline, and where nothing follows, it is the end
of the string. -/
def dropBackslash : Option Char → List Char
  | none => [nul]
  | some c => if c = '\n' then [nul] else [c]

/-! ### The buffer -/

/-- An access to the buffer; a write with the place that is read from. -/
inductive Access
  | read (i : ℕ)
  | write (i s : ℕ)
  deriving DecidableEq, Repr

/-- The buffer and the pointers into it. -/
structure StringBuffer where
  buffer : ℕ → Char
  s : ℕ := 0
  t : ℕ := 0
  accesses : List Access := []

namespace StringBuffer

variable (u : StringBuffer)

/-- `*s` -/
def read : Char × StringBuffer :=
  (u.buffer u.s, { u with accesses := u.accesses ++ [.read u.s] })

/-- `s++` -/
def advance : StringBuffer := { u with s := u.s + 1 }

/-- `*s++` -/
def next : Char × StringBuffer := (u.read.1, u.read.2.advance)

/-- `s--` -/
def back : StringBuffer := { u with s := u.s - 1 }

/-- `*t = c` -/
def write (c : Char) : StringBuffer :=
  { u with buffer := Function.update u.buffer u.t c, accesses := u.accesses ++ [.write u.t u.s] }

/-- `*t = c; t++` -/
def put (c : Char) : StringBuffer := { u.write c with t := u.t + 1 }

end StringBuffer

/-- The loop over further octal digits, at most so many. -/
def octalInPlace : ℕ → ℕ → StringBuffer → ℕ × StringBuffer
  | 0, i, u => (i, u)
  | n + 1, i, u =>
      let (c, u) := u.next
      if isDigit 8 c then octalInPlace n (8 * i + (digitValue c).getD 0) u else (i, u.back)

/-- The loop over hexadecimal digits, for so many rounds: the number and whether it has
overflowed. -/
def hexInPlace : ℕ → ℕ → Bool → StringBuffer → Option ((ℕ × Bool) × StringBuffer)
  | 0, _, _, _ => none
  | fuel + 1, i, overflow, u =>
      let (c, u) := u.next
      if isDigit 16 c then
        hexInPlace fuel ((16 * i + (digitValue c).getD 0) % 2 ^ 32) (overflow || 2 ^ 28 ≤ i) u
      else some ((i, overflow), u.back)

/-- `i &= (1 << CHAR_BIT) - 1` when the number is too large. -/
def clipChar (large : Bool) (i : ℕ) : Char :=
  Char.ofNat (if large || 2 ^ 8 - 1 < i then i &&& 2 ^ 8 - 1 else i)

/-- `lirc_parse_escape`; its warnings are left out. -/
def parseEscapeInPlace (fuel : ℕ) (u : StringBuffer) : Option (Char × StringBuffer) :=
  let (c, u) := u.next
  match namedEscapes.lookup c with
  | some d => some (d, u)
  | none =>
      if c = nul then some (nul, u.back)
      else if isDigit 8 c then
        let (i, u) := octalInPlace 2 ((digitValue c).getD 0) u
        some (clipChar false i, u)
      else if c = 'x' then
        (hexInPlace fuel 0 false u).map fun x => (clipChar x.1.2 x.1.1, x.2)
      else if '@' ≤ c ∧ c ≤ 'Z' then some (Char.ofNat (c.toNat - '@'.toNat), u)
      else some (c, u)

/-- `lirc_parse_string`, for so many rounds. -/
def parseStringInPlace : ℕ → StringBuffer → Option StringBuffer
  | 0, _ => none
  | fuel + 1, u =>
      let (c, u) := u.read
      if c = nul then some (u.write nul)
      else if c = '\\' then
        (parseEscapeInPlace fuel u.advance).bind fun x => parseStringInPlace fuel (x.2.put x.1)
      else
        let (c, u) := u.read
        parseStringInPlace fuel (u.put c).advance

/-! ### Strings in a buffer -/

/-- The string at a place of a buffer. -/
def StringAt (buffer : ℕ → Char) : ℕ → List Char → Prop
  | p, [] => buffer p = nul
  | p, c :: s => buffer p = c ∧ c ≠ nul ∧ StringAt buffer (p + 1) s

/-- Writing in front of a string leaves it. -/
theorem StringAt.update {buffer : ℕ → Char} {p t : ℕ} {s : List Char} (h : StringAt buffer p s)
    (ht : t < p) (c : Char) : StringAt (Function.update buffer t c) p s := by
  induction s generalizing p with
  | nil =>
      show Function.update buffer t c p = nul
      rw [Function.update_of_ne (by omega)]
      exact h
  | cons d s ih =>
      obtain ⟨hchar, hne, hrest⟩ := h
      refine ⟨?_, hne, ih hrest (by omega)⟩
      rw [Function.update_of_ne (by omega)]
      exact hchar

/-- No access leaves the string of so many characters, and nothing is written in front of
the place that is read. -/
def InString (n : ℕ) : Access → Prop
  | .read i => i ≤ n
  | .write i s => i ≤ s ∧ s ≤ n

/-- The rest of the string is to be read, and nothing was accessed outside of it. -/
structure Unread (n : ℕ) (rest : List Char) (u : StringBuffer) : Prop where
  text : StringAt u.buffer u.s rest
  place : u.s + rest.length = n
  accesses : ∀ a ∈ u.accesses, InString n a

/-- Characters were read; the buffer is as it was. -/
structure ReadsOn (n : ℕ) (rest : List Char) (u u' : StringBuffer) : Prop where
  unread : Unread n rest u'
  buffer : u'.buffer = u.buffer
  t : u'.t = u.t
  le : u.s ≤ u'.s

section Reading

variable {n : ℕ} {rest : List Char} {u : StringBuffer}

theorem Unread.head (h : Unread n rest u) : u.buffer u.s = rest.head?.getD nul := by
  cases rest with
  | nil => exact h.text
  | cons c s => exact h.text.1

theorem Unread.read (h : Unread n rest u) :
    u.read.1 = rest.head?.getD nul ∧ ReadsOn n rest u u.read.2 := by
  refine ⟨h.head, ⟨h.text, h.place, ?_⟩, rfl, rfl, le_rfl⟩
  intro a ha
  rcases List.mem_append.mp ha with ha | ha
  · exact h.accesses a ha
  · rw [List.mem_singleton.mp ha]
    exact (Nat.le_add_right _ _).trans h.place.le

theorem Unread.advance {c : Char} (h : Unread n (c :: rest) u) : ReadsOn n rest u u.advance := by
  refine ⟨⟨h.text.2.2, ?_, h.accesses⟩, rfl, rfl, Nat.le_succ _⟩
  have hplace := h.place
  rw [List.length_cons] at hplace
  show u.s + 1 + rest.length = n
  omega

theorem ReadsOn.trans {rest' : List Char} {u' u'' : StringBuffer} (h : ReadsOn n rest u u')
    (h' : ReadsOn n rest' u' u'') : ReadsOn n rest' u u'' :=
  ⟨h'.unread, h'.buffer.trans h.buffer, h'.t.trans h.t, h.le.trans h'.le⟩

theorem Unread.next {c : Char} (h : Unread n (c :: rest) u) :
    u.next.1 = c ∧ ReadsOn n rest u u.next.2 := by
  obtain ⟨hchar, hread⟩ := h.read
  exact ⟨hchar, hread.trans hread.unread.advance⟩

/-- A character that is read and put back. -/
theorem Unread.next_back (h : Unread n rest u) :
    u.next.1 = rest.head?.getD nul ∧ ReadsOn n rest u u.next.2.back := by
  obtain ⟨hchar, hread⟩ := h.read
  have hback : u.next.2.back = u.read.2 := by
    show ({ u.read.2 with s := u.read.2.s + 1 - 1 } : StringBuffer) = u.read.2
    rw [Nat.add_sub_cancel]
  exact ⟨hchar, hback ▸ hread⟩

theorem octalInPlace_reads (k i : ℕ) (h : Unread n rest u) :
    (octalInPlace k i u).1 = (octalEscape k i rest).1 ∧
      ReadsOn n (octalEscape k i rest).2 u (octalInPlace k i u).2 := by
  induction k generalizing i rest u with
  | zero => exact ⟨rfl, h, rfl, rfl, le_rfl⟩
  | succ k ih =>
      cases rest with
      | nil =>
          obtain ⟨hchar, hreads⟩ := h.next_back
          have hdigit : isDigit 8 u.next.1 = false := by
            rw [hchar]
            decide
          rw [octalInPlace, octalEscape]
          simp only [hdigit]
          exact ⟨rfl, hreads⟩
      | cons c s =>
          rw [octalInPlace, octalEscape]
          cases hdigit : isDigit 8 c with
          | true =>
              obtain ⟨hchar, hreads⟩ := h.next
              simp only [hchar, hdigit, if_true]
              obtain ⟨hvalue, hrest⟩ :=
                ih (8 * i + (digitValue c).getD 0) hreads.unread
              exact ⟨hvalue, hreads.trans hrest⟩
          | false =>
              obtain ⟨hchar, hreads⟩ := h.next_back
              have hhead : u.next.1 = c := hchar
              simp only [hhead, hdigit]
              exact ⟨rfl, hreads⟩

/-- The loop ends at the latest at the end of the string. -/
theorem hexInPlace_reads (fuel i : ℕ) (overflow : Bool) (h : Unread n rest u)
    (hfuel : rest.length < fuel) :
    ∃ overflow' u', hexInPlace fuel i overflow u = some (((hexEscape i rest).1, overflow'), u') ∧
      ReadsOn n (hexEscape i rest).2 u u' := by
  induction fuel generalizing i overflow rest u with
  | zero => exact absurd hfuel (Nat.not_lt_zero _)
  | succ fuel ih =>
      cases rest with
      | nil =>
          obtain ⟨hchar, hreads⟩ := h.next_back
          have hdigit : isDigit 16 u.next.1 = false := by
            rw [hchar]
            decide
          rw [hexInPlace, hexEscape]
          simp only [hdigit]
          exact ⟨_, _, rfl, hreads⟩
      | cons c s =>
          rw [hexInPlace, hexEscape]
          cases hdigit : isDigit 16 c with
          | true =>
              obtain ⟨hchar, hreads⟩ := h.next
              simp only [hchar, hdigit, if_true]
              obtain ⟨overflow', u', heq, hrest⟩ :=
                ih ((16 * i + (digitValue c).getD 0) % 2 ^ 32) (overflow || 2 ^ 28 ≤ i)
                  hreads.unread
                  (Nat.lt_of_succ_lt_succ hfuel)
              exact ⟨overflow', u', heq, hreads.trans hrest⟩
          | false =>
              obtain ⟨hchar, hreads⟩ := h.next_back
              have hhead : u.next.1 = c := hchar
              simp only [hhead, hdigit]
              exact ⟨_, _, rfl, hreads⟩

theorem clipChar_eq (large : Bool) (i : ℕ) : clipChar large i = escapedChar i := by
  rw [clipChar, escapedChar, Nat.and_two_pow_sub_one_eq_mod]
  split
  · rfl
  · next h =>
      rw [Bool.or_eq_true, not_or, decide_eq_true_iff] at h
      rw [Nat.mod_eq_of_lt (by omega)]

/-- The escape parser reads what the escape of the text consists of. -/
theorem parseEscapeInPlace_reads (fuel : ℕ) (h : Unread n rest u) (hfuel : rest.length ≤ fuel) :
    ∃ u', parseEscapeInPlace fuel u = some ((lircParseEscape rest).1, u') ∧
      ReadsOn n (lircParseEscape rest).2 u u' := by
  cases rest with
  | nil =>
      -- the end of the string is read, and left for the loop
      obtain ⟨hchar, hreads⟩ := h.next_back
      have hend : u.next.1 = nul := hchar
      have hnamed : namedEscapes.lookup nul = none := by decide
      rw [parseEscapeInPlace]
      simp only [hend, hnamed, if_true]
      exact ⟨_, rfl, hreads⟩
  | cons c s =>
      obtain ⟨hchar, hreads⟩ := h.next
      have hne : c ≠ nul := h.text.2.1
      rw [parseEscapeInPlace, lircParseEscape]
      simp only [hchar]
      cases namedEscapes.lookup c with
      | some d => exact ⟨_, rfl, hreads⟩
      | none =>
          dsimp only
          rw [if_neg hne]
          split
          · obtain ⟨hvalue, hoctal⟩ :=
              octalInPlace_reads 2 ((digitValue c).getD 0) hreads.unread
            refine ⟨_, ?_, hreads.trans hoctal⟩
            rw [clipChar_eq, hvalue]
            rfl
          · split
            · rw [List.length_cons] at hfuel
              obtain ⟨overflow, u', heq, hhex⟩ :=
                hexInPlace_reads fuel 0 false hreads.unread hfuel
              refine ⟨u', ?_, hreads.trans hhex⟩
              rw [heq, Option.map_some, clipChar_eq]
              rfl
            · split
              · exact ⟨_, rfl, hreads⟩
              · exact ⟨_, rfl, hreads⟩

end Reading

/-! ### The loop -/

/-- What has been written so far stands in front of what is still to be read. -/
structure Copied (n : ℕ) (done rest : List Char) (u : StringBuffer) : Prop where
  unread : Unread n rest u
  written : ∀ i < done.length, u.buffer i = done.getD i nul
  t : u.t = done.length
  le : u.t ≤ u.s

section Copying

variable {n : ℕ} {done rest rest' : List Char} {u u' : StringBuffer}

theorem Copied.reads (h : Copied n done rest u) (hreads : ReadsOn n rest' u u') :
    Copied n done rest' u' := by
  refine ⟨hreads.unread, ?_, hreads.t.trans h.t, ?_⟩
  · rw [hreads.buffer]
    exact h.written
  · rw [hreads.t]
    exact h.le.trans hreads.le

theorem written_put (hwritten : ∀ i < done.length, u.buffer i = done.getD i nul)
    (ht : u.t = done.length) (c : Char) :
    ∀ i < (done ++ [c]).length, (u.put c).buffer i = (done ++ [c]).getD i nul := by
  intro i hi
  rw [List.length_append, List.length_singleton] at hi
  show Function.update u.buffer u.t c i = _
  by_cases hlast : i = done.length
  · rw [hlast, ← ht, Function.update_self, ht]
    simp
  · rw [Function.update_of_ne (by omega), hwritten i (by omega), List.getD_eq_getElem?_getD,
      List.getD_eq_getElem?_getD, List.getElem?_append_left (by omega)]

theorem accesses_put (haccesses : ∀ a ∈ u.accesses, InString n a) (hle : u.t ≤ u.s)
    (hn : u.s ≤ n) (c : Char) : ∀ a ∈ (u.put c).accesses, InString n a := by
  intro a ha
  rcases List.mem_append.mp ha with ha | ha
  · exact haccesses a ha
  · rw [List.mem_singleton.mp ha]
    exact ⟨hle, hn⟩

/-- A character is written where the text behind a backslash has been read. -/
theorem Copied.put (h : Copied n done rest u) (hlt : u.t < u.s) (c : Char) :
    Copied n (done ++ [c]) rest (u.put c) where
  unread :=
    { text := h.unread.text.update hlt c
      place := h.unread.place
      accesses := accesses_put h.unread.accesses h.le
        ((Nat.le_add_right _ _).trans h.unread.place.le) c }
  written := written_put h.written h.t c
  t := by
    rw [List.length_append, List.length_singleton, ← h.t]
    rfl
  le := hlt

/-- A character is copied. -/
theorem Copied.copy {c : Char} (h : Copied n done (c :: rest) u) :
    Copied n (done ++ [c]) rest (u.put c).advance where
  unread := by
    have hplace := h.unread.place
    rw [List.length_cons] at hplace
    refine ⟨?_, ?_, accesses_put h.unread.accesses h.le (by omega) c⟩
    · exact h.unread.text.2.2.update (Nat.lt_succ_of_le h.le) c
    · show u.s + 1 + rest.length = n
      omega
  written := written_put h.written h.t c
  t := by
    rw [List.length_append, List.length_singleton, ← h.t]
    rfl
  le := Nat.succ_le_succ h.le

/-- The loop comes to the end of the string, and has written what the text stands for. -/
theorem parseStringInPlace_copies {fuel : ℕ} (h : Copied n done rest u)
    (hfuel : rest.length < fuel) :
    ∃ u', parseStringInPlace fuel u = some (u'.write nul) ∧
      Copied n (done ++ parseStringLoop rest) [] u' := by
  induction fuel generalizing done rest u with
  | zero => exact absurd hfuel (Nat.not_lt_zero _)
  | succ fuel ih =>
      obtain ⟨hchar, hread⟩ := h.unread.read
      have hcopied := h.reads hread
      rw [parseStringInPlace]
      cases rest with
      | nil =>
          have hend : u.read.1 = nul := hchar
          simp only [hend, if_true]
          rw [parseStringLoop, List.append_nil]
          exact ⟨_, rfl, hcopied⟩
      | cons c s =>
          have hhead : u.read.1 = c := hchar
          have hne : c ≠ nul := h.unread.text.2.1
          simp only [hhead, if_neg hne]
          rw [List.length_cons] at hfuel
          rw [parseStringLoop]
          split
          · have hadvance := hread.unread.advance
            obtain ⟨u', heq, hescape⟩ :=
              parseEscapeInPlace_reads fuel hadvance.unread (by omega)
            have hlt : u'.t < u'.s := by
              have hle := hescape.le
              have hplace : u.read.2.advance.s = u.s + 1 := rfl
              have hfront := h.le
              rw [hescape.t, hadvance.t, hread.t]
              omega
            have hput := (hcopied.reads (hadvance.trans hescape)).put hlt (lircParseEscape s).1
            have hlen := lircParseEscape_length s
            obtain ⟨v, hv, hend⟩ := ih hput (by omega)
            refine ⟨v, ?_, ?_⟩
            · rw [heq, Option.bind_some]
              exact hv
            · rwa [List.append_assoc] at hend
          · obtain ⟨hchar', hread'⟩ := hread.unread.read
            have hhead' : u.read.2.read.1 = c := hchar'
            simp only [hhead']
            obtain ⟨v, hv, hend⟩ := ih (hcopied.reads hread').copy (by omega)
            refine ⟨v, hv, ?_⟩
            rwa [List.append_assoc] at hend

/-- The string in front of the first zero, where one follows. -/
theorem stringAt_cstr {buffer : ℕ → Char} {p : ℕ} {text : List Char}
    (hwritten : ∀ i < text.length, buffer (p + i) = text.getD i nul)
    (hend : buffer (p + text.length) = nul) : StringAt buffer p (cstr text) := by
  induction text generalizing p with
  | nil => exact hend
  | cons c text ih =>
      have hhead : buffer p = c := hwritten 0 (Nat.succ_pos _)
      rw [cstr, List.takeWhile_cons]
      split
      · next hne =>
          refine ⟨hhead, bne_iff_ne.mp hne, ih ?_ ?_⟩
          · intro i hi
            have hnext := hwritten (i + 1) (by rw [List.length_cons]; omega)
            rw [Nat.add_right_comm, Nat.add_assoc]
            exact hnext
          · rw [Nat.add_right_comm, Nat.add_assoc]
            exact hend
      · next hnul =>
          rw [bne_iff_ne, ne_eq, not_not] at hnul
          exact hhead.trans hnul

end Copying

/-! ### What the parser makes of a text -/

theorem octalEscape_eq (n i : ℕ) (s : List Char) :
    octalEscape n i s =
      (((s.take n).takeWhile (isDigit 8)).foldl (fun n c => 8 * n + (digitValue c).getD 0) i,
        s.drop ((s.take n).takeWhile (isDigit 8)).length) := by
  induction n generalizing i s with
  | zero => rfl
  | succ n ih =>
      cases s with
      | nil => rfl
      | cons c s =>
          rw [octalEscape, List.take_succ_cons, List.takeWhile_cons]
          split
          · rw [ih]
            rfl
          · rfl

/-- The number is kept modulo 2^32, of which a character sees the lowest eight bits. -/
theorem hexEscape_eq (i : ℕ) (s : List Char) :
    (hexEscape i s).1 ≡ (s.takeWhile (isDigit 16)).foldl
        (fun n c => 16 * n + (digitValue c).getD 0) i [MOD 2 ^ 8] ∧
      (hexEscape i s).2 = s.dropWhile (isDigit 16) := by
  have hcongr : ∀ (digits : List Char) (i j : ℕ), i ≡ j [MOD 2 ^ 8] →
      digits.foldl (fun n c => 16 * n + (digitValue c).getD 0) i ≡
        digits.foldl (fun n c => 16 * n + (digitValue c).getD 0) j [MOD 2 ^ 8] := by
    intro digits
    induction digits with
    | nil => exact fun _ _ h => h
    | cons c digits ih => exact fun i j h => ih _ _ ((h.mul_left 16).add_right _)
  induction s generalizing i with
  | nil => exact ⟨rfl, rfl⟩
  | cons c s ih =>
      rw [hexEscape, List.takeWhile_cons, List.dropWhile_cons]
      split
      · obtain ⟨hvalue, hrest⟩ := ih ((16 * i + (digitValue c).getD 0) % 2 ^ 32)
        refine ⟨hvalue.trans (hcongr _ _ _ ?_), hrest⟩
        exact (Nat.mod_modEq _ (2 ^ 32)).of_dvd (by decide)
      · exact ⟨rfl, rfl⟩

/-- The parser reads an escape; where there is none it drops the backslash, and a newline is
the end of the string. -/
theorem lircParseEscape_eq (c : Char) (s : List Char) :
    lircParseEscape (c :: s) =
      (readEscape (c :: s)).getD (if c = '\n' then nul else c, s) := by
  by_cases hsign : c ∈ ['a', 'b', 'e', 'f', 'n', 'r', 't', 'v', '\n', '\\', '"', '\'', '?']
  · fin_cases hsign <;> rfl
  · have hnamed : namedEscapes.lookup c = none := by
      rw [List.lookup_eq_none_iff]
      intro p hp
      fin_cases hp <;> simp_all
    have hstandard : standardEscapes.lookup c = none := by
      rw [List.lookup_eq_none_iff]
      intro p hp
      fin_cases hp <;> simp_all
    have hnewline : c ≠ '\n' := by
      rintro rfl
      exact hsign (by decide)
    rw [if_neg hnewline, lircParseEscape, readEscape, hnamed, hstandard]
    dsimp only
    rw [List.take_succ_cons, List.takeWhile_cons]
    by_cases hdigit : isDigit 8 c = true
    · rw [if_pos hdigit, if_pos hdigit, if_pos (List.cons_ne_nil _ _), octalEscape_eq,
        Option.getD_some, escapedChar, valueOf, List.foldl_cons, Nat.mul_zero, Nat.zero_add]
      rfl
    · rw [if_neg hdigit, if_neg hdigit, if_neg (not_not.mpr rfl)]
      split
      · obtain ⟨hvalue, hrest⟩ := hexEscape_eq 0 s
        rw [Option.getD_some, escapedChar, valueOf, ← hrest, ← hvalue]
      · split
        · rfl
        · rfl

theorem unescape_escape (bare : Option Char → List Char) {s rest : List Char} {d : Char}
    (h : readEscape s = some (d, rest)) :
    unescape bare ('\\' :: s) = d :: unescape bare rest := by
  rw [unescape, if_pos rfl]
  split
  · next hread =>
      obtain ⟨rfl, rfl⟩ := Prod.mk.inj (Option.some.inj (hread.symm.trans h))
      rfl
  · next hread =>
      rw [hread] at h
      cases h

theorem unescape_bare (bare : Option Char → List Char) {c : Char} {s : List Char}
    (h : readEscape (c :: s) = none) :
    unescape bare ('\\' :: c :: s) = bare (some c) ++ unescape bare s := by
  rw [unescape, if_pos rfl]
  split
  · next hread =>
      rw [hread] at h
      cases h
  · rfl

theorem parseStringLoop_eq (text : List Char) :
    parseStringLoop text = unescape dropBackslash text := by
  induction text using parseStringLoop.induct with
  | case1 => rw [parseStringLoop, unescape]
  | case2 s ih =>
      rw [parseStringLoop, if_pos rfl, ih]
      cases s with
      | nil =>
          have hend : unescape dropBackslash (lircParseEscape []).2 = [] := by
            rw [lircParseEscape, unescape]
          have hlast : unescape dropBackslash ['\\'] = [nul] := by
            rw [unescape, if_pos rfl]
            rfl
          rw [hend, hlast]
          rfl
      | cons c s =>
          rw [lircParseEscape_eq]
          cases hread : readEscape (c :: s) with
          | some x => rw [unescape_escape dropBackslash hread, Option.getD_some]
          | none =>
              rw [unescape_bare dropBackslash hread, Option.getD_none, dropBackslash]
              split
              · rfl
              · rfl
  | case3 c s hne ih => rw [parseStringLoop, unescape, if_neg hne, if_neg hne, ih]

/-- On the string in a buffer the loop ends, given any number of rounds that is larger than
its length. No access leaves the string, nothing is written in front of the place that is
read, and the string that stays is the unescaped one, up to its first zero. -/
theorem parseString_unescapes (buffer : ℕ → Char) (text : List Char)
    (htext : StringAt buffer 0 text) (fuel : ℕ) (hfuel : text.length < fuel) :
    ∃ u, parseStringInPlace fuel { buffer := buffer } = some u ∧
      (∀ i, .read i ∈ u.accesses → i ≤ text.length) ∧
      (∀ i s, .write i s ∈ u.accesses → i ≤ s ∧ s ≤ text.length) ∧
      StringAt u.buffer 0 (cstr (unescape dropBackslash text)) := by
  have hstart : Copied text.length [] text { buffer := buffer } :=
    { unread := ⟨htext, Nat.zero_add _, fun _ h => absurd h List.not_mem_nil⟩
      written := fun _ h => absurd h (Nat.not_lt_zero _), t := rfl, le := le_rfl }
  obtain ⟨u, hu, hdone⟩ := parseStringInPlace_copies hstart hfuel
  rw [List.nil_append, parseStringLoop_eq] at hdone
  have haccesses : ∀ a ∈ (u.write nul).accesses, InString text.length a := by
    intro a ha
    rcases List.mem_append.mp ha with ha | ha
    · exact hdone.unread.accesses a ha
    · rw [List.mem_singleton.mp ha]
      exact ⟨hdone.le, hdone.unread.place.le⟩
  refine ⟨u.write nul, hu, fun i hi => haccesses _ hi, fun i s hi => haccesses _ hi, ?_⟩
  apply stringAt_cstr
  · intro i hi
    rw [Nat.zero_add]
    show Function.update u.buffer u.t nul i = _
    rw [Function.update_of_ne (by rw [hdone.t]; omega)]
    exact hdone.written i hi
  · rw [Nat.zero_add, ← hdone.t]
    exact Function.update_self ..

/-- A buffer that holds a text, and zeros behind it. -/
def bufferOf (text : List Char) : ℕ → Char := fun i => text.getD i nul

theorem stringAt_bufferOf {text : List Char} (h : nul ∉ text) :
    StringAt (bufferOf text) 0 text := by
  have hwritten : StringAt (bufferOf text) 0 (cstr text) :=
    stringAt_cstr (fun i _ => by rw [Nat.zero_add]; rfl) (by simp [bufferOf])
  rwa [cstr_eq_self h] at hwritten

/-- An octal and a hexadecimal escape, and a backslash at the end. -/
theorem parseString_unescapes_numbers :
    ∃ u, parseStringInPlace 14 { buffer := bufferOf "\\1012\\x141g\\".toList } = some u ∧
      (∀ i, .read i ∈ u.accesses → i ≤ "\\1012\\x141g\\".toList.length) ∧
      (∀ i s, .write i s ∈ u.accesses → i ≤ s ∧ s ≤ "\\1012\\x141g\\".toList.length) ∧
      StringAt u.buffer 0
        (cstr (unescape dropBackslash "\\1012\\x141g\\".toList)) :=
  parseString_unescapes _ _ (stringAt_bufferOf (by decide)) 14 (by decide)

/-- What is no escape is copied, with the backslash or without it. -/
def copyBare (withBackslash : Bool) : Option Char → List Char
  | none => if withBackslash then ['\\'] else []
  | some c => if withBackslash then ['\\', c] else [c]

/-- A backslash in front of a character that begins no escape is not copied, and one in
front of a newline cuts the string. -/
theorem parseString_cuts :
    (∃ u, parseStringInPlace 3 { buffer := bufferOf ['\\', 'g'] } = some u ∧
      StringAt u.buffer 0 ['g']) ∧
    ¬∀ (buffer : ℕ → Char) (text : List Char), StringAt buffer 0 text →
      ∃ withBackslash, ∀ fuel, text.length < fuel →
        ∃ u, parseStringInPlace fuel { buffer := buffer } = some u ∧
          StringAt u.buffer 0 (cstr (unescape (copyBare withBackslash) text)) := by
  refine ⟨⟨_, rfl, ?_⟩, ?_⟩
  · exact ⟨rfl, by decide, rfl⟩
  intro h
  obtain ⟨withBackslash, hall⟩ :=
    h (bufferOf ['\\', '\n', 'a']) ['\\', '\n', 'a'] (stringAt_bufferOf (by decide))
  obtain ⟨u, hu, htext⟩ := hall 4 (by decide)
  have hcut : ∀ u, parseStringInPlace 4 { buffer := bufferOf ['\\', '\n', 'a'] } = some u →
      u.buffer 0 = nul := by
    intro u hu
    cases hu
    rfl
  have hzero := hcut u hu
  have hcopied : ∃ c s, cstr (unescape (copyBare withBackslash) ['\\', '\n', 'a']) = c :: s := by
    rw [unescape_bare _ (by rfl)]
    cases withBackslash with
    | true => exact ⟨_, _, rfl⟩
    | false => exact ⟨_, _, rfl⟩
  obtain ⟨c, s, heq⟩ := hcopied
  rw [heq] at htext
  exact htext.2.1 (htext.1.symm.trans hzero)

end Lirc
