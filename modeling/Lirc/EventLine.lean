import Lirc.Lircrc
import Lirc.Pairing

/-!
The line of an event: `write_message` formats it, SIMULATE checks it character by character,
and the clients scan it. All three have the same four fields with single blanks in between.
-/

namespace Lirc

open CString Numeral

/-- The fields of an event. -/
structure EventFields where
  code : List Char
  reps : List Char
  button : Name
  remote : Name
  deriving DecidableEq, Repr

/-- The line of the event, without a newline. -/
def EventFields.line (f : EventFields) : List Char :=
  f.code ++ ' ' :: (f.reps ++ ' ' :: (f.button ++ ' ' :: f.remote))

/-- A field that no blank ends early. -/
def IsField (s : List Char) : Prop := s ≠ [] ∧ ' ' ∉ s

/-- Two hexadecimal numbers, the first of 16 digits, and two fields. -/
structure EventFields.WellFormed (f : EventFields) : Prop where
  length : f.code.length = 16
  code : ∀ c ∈ f.code, isDigit 16 c = true
  reps : ∀ c ∈ f.reps, isDigit 16 c = true
  some_reps : f.reps ≠ []
  button : IsField f.button
  remote : IsField f.remote

/-! ### Fields -/

/-- A digit is none of the characters that separate or lead a number. -/
theorem ne_of_isDigit {c d : Char} (hc : isDigit 16 c = true) (hd : isDigit 16 d = false) :
    c ≠ d := by
  rintro rfl
  rw [hc] at hd
  cases hd

theorem isField_of_digits {s : List Char} (hne : s ≠ []) (h : ∀ c ∈ s, isDigit 16 c = true) :
    IsField s :=
  ⟨hne, fun hmem => ne_of_isDigit (h _ hmem) (by decide) rfl⟩

theorem IsField.ne {s : List Char} (h : IsField s) : ∀ c ∈ s, (c != ' ') = true := by
  intro c hc
  rw [bne_iff_ne]
  rintro rfl
  exact h.2 hc

theorem simField_append {s : List Char} (h : IsField s) (rest : List Char) :
    simField (s ++ ' ' :: rest) = some (s, rest) := by
  have htake : (s ++ ' ' :: rest).takeWhile (· != ' ') = s := by
    rw [List.takeWhile_append_of_pos h.ne]
    exact List.append_nil s
  have hdrop : (s ++ ' ' :: rest).dropWhile (· != ' ') = ' ' :: rest := by
    rw [List.dropWhile_append_of_pos h.ne]
    rfl
  obtain ⟨c, cs, rfl⟩ := List.exists_cons_of_ne_nil h.1
  rw [simField, htake, hdrop]
  rfl

theorem simField_eq_some {s field rest : List Char} (h : simField s = some (field, rest)) :
    IsField field ∧ s = field ++ ' ' :: rest := by
  have happend := List.takeWhile_append_dropWhile (p := (· != ' ')) (l := s)
  have hall : ∀ c ∈ s.takeWhile (· != ' '), c ≠ ' ' := by
    intro c hc
    have hne := List.mem_takeWhile_imp (p := (· != ' ')) hc
    exact bne_iff_ne.mp hne
  rw [simField] at h
  split at h
  · next c cs rest' htake hdrop =>
      obtain ⟨rfl, rfl⟩ := Prod.mk.inj (Option.some.inj h)
      rw [htake] at hall happend
      rw [hdrop] at happend
      exact ⟨⟨List.cons_ne_nil _ _, fun hmem => hall _ hmem rfl⟩, happend.symm⟩
  · cases h

/-- SIMULATE accepts the lines with the four fields. -/
theorem validEvent_iff {event : List Char} :
    validEvent event = true ↔ ∃ f : EventFields, f.WellFormed ∧ event = f.line := by
  constructor
  · intro h
    rw [validEvent] at h
    split at h
    · cases h
    · next code rest hcode =>
        obtain ⟨hcodeField, rfl⟩ := simField_eq_some hcode
        rw [Bool.and_eq_true, Bool.and_eq_true, beq_iff_eq, List.all_eq_true] at h
        obtain ⟨⟨hlength, hdigits⟩, h⟩ := h
        split at h
        · cases h
        · next reps rest hreps =>
            obtain ⟨hrepsField, rfl⟩ := simField_eq_some hreps
            rw [Bool.and_eq_true, List.all_eq_true] at h
            obtain ⟨hrepsDigits, h⟩ := h
            split at h
            · cases h
            · next button remote hbutton =>
                obtain ⟨hbuttonField, rfl⟩ := simField_eq_some hbutton
                rw [Bool.and_eq_true, decide_eq_true_iff] at h
                refine ⟨⟨code, reps, button, remote⟩, ⟨hlength, hdigits, hrepsDigits,
                  hrepsField.1, hbuttonField, h.1, ?_⟩, rfl⟩
                simpa using h.2
  · rintro ⟨f, hf, rfl⟩
    have hcode : IsField f.code := by
      apply isField_of_digits _ hf.code
      intro hnil
      have hlength := hf.length
      rw [hnil] at hlength
      cases hlength
    rw [validEvent, EventFields.line, simField_append hcode]
    dsimp only
    rw [simField_append (isField_of_digits hf.some_reps hf.reps)]
    dsimp only
    rw [simField_append hf.button]
    simp only [hf.length, Bool.and_eq_true, List.all_eq_true]
    exact ⟨⟨rfl, hf.code⟩, hf.reps, by simpa using ⟨hf.remote.1, hf.remote.2⟩⟩

/-! ### Scanning -/

/-- A number is scanned up to the blank behind it. -/
theorem scanHex_digits {digits : List Char} (hne : digits ≠ [])
    (hdigits : ∀ c ∈ digits, isDigit 16 c = true) (rest : List Char) :
    scanHex (digits ++ ' ' :: rest) = some ⟨false, valueOf 16 digits, ' ' :: rest⟩ := by
  have htake : (digits ++ ' ' :: rest).takeWhile (isDigit 16) = digits := by
    rw [List.takeWhile_append_of_pos hdigits]
    exact List.append_nil digits
  have hother : ∀ d, isDigit 16 d = false → ∀ c ∈ digits, c ≠ d := fun d hd c hc =>
    ne_of_isDigit (hdigits c hc) hd
  have hhead : ∀ d t, isDigit 16 d = false → digits ++ ' ' :: rest ≠ d :: t := by
    intro d t hd heq
    obtain ⟨c, cs, rfl⟩ := List.exists_cons_of_ne_nil hne
    exact hother d hd c List.mem_cons_self (List.cons.inj heq).1
  have hsecond : ∀ d t, isDigit 16 d = false → d ≠ ' ' →
      digits ++ ' ' :: rest ≠ '0' :: d :: t := by
    intro d t hd hblank heq
    match digits, hne with
    | [c], _ => exact hblank (List.cons.inj (List.cons.inj heq).2).1.symm
    | c :: c' :: cs, _ =>
        exact hother d hd c' (by simp) (List.cons.inj (List.cons.inj heq).2).1
  have hskip : (digits ++ ' ' :: rest).dropWhile Numeral.isSpace = digits ++ ' ' :: rest := by
    obtain ⟨c, cs, rfl⟩ := List.exists_cons_of_ne_nil hne
    have hspace : Numeral.isSpace c = false := by
      rw [Bool.eq_false_iff]
      intro hspace
      simp only [Numeral.isSpace, Bool.or_eq_true, decide_eq_true_eq] at hspace
      rcases hspace with ((((h | h) | h) | h) | h) | h
      all_goals exact hother _ (by decide) c List.mem_cons_self h
    rw [List.cons_append, List.dropWhile_cons, hspace]
    rfl
  have hsign : splitSign (digits ++ ' ' :: rest) = (false, digits ++ ' ' :: rest) := by
    unfold splitSign
    split
    · next t heq => exact absurd heq (hhead _ _ (by decide))
    · next t heq => exact absurd heq (hhead _ _ (by decide))
    · rfl
  unfold scanHex
  rw [hskip, hsign]
  dsimp only
  split
  · next t heq => exact absurd heq (hsecond _ _ (by decide) (by decide))
  · next t heq => exact absurd heq (hsecond _ _ (by decide) (by decide))
  · rw [htake, if_neg hne, List.drop_left]

/-- What a client reads from a line: the repeats, the button and the remote, for which
it searches the entries. -/
structure ReadAs (line : List Char) (rep : ℕ) (button remote : Name) : Prop where
  reps : scanReps line = some rep
  names : eventNames line = some (button, remote)
  search : ∀ (lircProg : Option Name) (c : RcConfig), code2charInternal lircProg line c =
    codeLoop lircProg remote button rep (c.entries.length - c.next) c.next false none c

theorem readAs_of {line : List Char} {rep : ℕ} {button remote : Name}
    (hreps : scanReps line = some rep) (hnames : eventNames line = some (button, remote)) :
    ReadAs line rep button remote := by
  refine ⟨hreps, hnames, fun lircProg c => ?_⟩
  rw [code2charInternal, hreps]
  dsimp only
  rw [hnames]

section Fields

variable {f : EventFields} (hf : f.WellFormed)

include hf

/-- The repeats that a client scans from the line. -/
theorem scanReps_line (rest : List Char) (hfew : f.reps.length ≤ 8) :
    scanReps (f.line ++ rest) = some (valueOf 16 f.reps) := by
  have hvalue : valueOf 16 f.reps < 2 ^ 32 :=
    (valueOf_lt hf.reps).trans_le (Nat.pow_le_pow_right (by decide) hfew : _ ≤ 16 ^ 8)
  have hcode : f.code ≠ [] := by
    intro hnil
    have hlength := hf.length
    rw [hnil] at hlength
    cases hlength
  have hskip : ∀ s : List Char, scanHex (' ' :: s) = scanHex s := fun s => rfl
  rw [scanReps, EventFields.line, List.append_assoc, List.cons_append,
    scanHex_digits hcode hf.code, Option.bind_some, hskip, List.append_assoc, List.cons_append,
    scanHex_digits hf.some_reps hf.reps, Option.map_some, strtou32, Scan.toUnsigned,
    if_neg (Nat.not_le_of_lt (hvalue.trans (by decide)))]
  simp only [Bool.false_eq_true, if_false, Option.getD_some]
  rw [Nat.mod_eq_of_lt hvalue]

/-- The names that a client takes from the line. -/
theorem eventNames_line (hline : '\n' ∉ f.line) :
    eventNames (f.line ++ ['\n']) = some (f.button, f.remote) := by
  have hblank : ∀ {s : List Char}, IsField s → ∀ rest,
      strtok [' '] (s ++ ' ' :: rest) = some (s, rest) := by
    intro s hs rest
    refine strtok_word hs.1 (fun c hc => ?_) (fun c hc => ?_)
    · simpa using bne_iff_ne.mp (hs.ne c hc)
    · obtain rfl := Option.mem_some_iff.mp hc
      rfl
  have hcode : IsField f.code := by
    apply isField_of_digits _ hf.code
    intro hnil
    have hlength := hf.length
    rw [hnil] at hlength
    cases hlength
  have hremote : strtok ['\n'] (f.remote ++ ['\n']) = some (f.remote, []) := by
    refine strtok_word hf.remote.1 (fun c hc => ?_) (fun c hc => ?_)
    · have hne : c ≠ '\n' := by
        rintro rfl
        exact hline (by simp [EventFields.line, hc])
      simpa using hne
    · obtain rfl := Option.mem_some_iff.mp hc
      rfl
  have hassoc : f.line ++ ['\n'] =
      f.code ++ ' ' :: (f.reps ++ ' ' :: (f.button ++ ' ' :: (f.remote ++ ['\n']))) := by
    simp [EventFields.line]
  rw [hassoc, eventNames, hblank hcode, Option.bind_some,
    hblank (isField_of_digits hf.some_reps hf.reps), Option.bind_some, hblank hf.button,
    Option.bind_some, hremote]
  rfl

/-- A client reads the fields of the line. -/
theorem line_readAs (hline : '\n' ∉ f.line) (hfew : f.reps.length ≤ 8) :
    ReadAs (f.line ++ ['\n']) (valueOf 16 f.reps) f.button f.remote :=
  readAs_of (scanReps_line hf _ hfew) (eventNames_line hf hline)

end Fields

/-! ### Writing -/

/-- A text without whitespace. -/
def Unspaced (s : List Char) : Prop := ∀ c ∈ s, Numeral.isSpace c = false

instance (s : List Char) : Decidable (Unspaced s) :=
  List.decidableBAll (fun c => Numeral.isSpace c = false) s

/-- A name of a remote or a button: the configuration has no empty ones. -/
def IsName (s : Name) : Prop := s ≠ [] ∧ Unspaced s

instance (s : Name) : Decidable (IsName s) := inferInstanceAs (Decidable (s ≠ [] ∧ Unspaced s))

theorem Unspaced.notMem {s : List Char} (h : Unspaced s) {c : Char}
    (hc : Numeral.isSpace c = true) : c ∉ s := by
  intro hmem
  rw [h c hmem] at hc
  cases hc

theorem IsName.isField {s : Name} (h : IsName s) : IsField s := ⟨h.1, h.2.notMem (by decide)⟩

theorem Unspaced.append {s t : List Char} (hs : Unspaced s) (ht : Unspaced t) :
    Unspaced (s ++ t) := by
  intro c hc
  rcases List.mem_append.mp hc with hc | hc
  · exact hs c hc
  · exact ht c hc

theorem unspaced_of_digits {s : List Char} (h : ∀ c ∈ s, isDigit 16 c = true) : Unspaced s := by
  intro c hc
  rw [Bool.eq_false_iff]
  intro hspace
  simp only [Numeral.isSpace, Bool.or_eq_true, decide_eq_true_eq] at hspace
  rcases hspace with ((((heq | heq) | heq) | heq) | heq) | heq
  all_goals exact ne_of_isDigit (h c hc) (by decide) heq

theorem isDigit_hexReps (reps : ℤ) : ∀ c ∈ hexReps reps, isDigit 16 c = true := by
  intro c hc
  rw [hexReps, List.leftpad, List.mem_append, List.mem_replicate] at hc
  rcases hc with ⟨-, rfl⟩ | hc
  · decide
  · exact isDigit_toDigits _ c hc

theorem valueOf_hexReps (reps : ℤ) : valueOf 16 (hexReps reps) = (reps % 2 ^ 32).toNat := by
  rw [hexReps, List.leftpad, valueOf_zeros, valueOf_toDigits]

theorem hexReps_length_le (reps : ℤ) : (hexReps reps).length ≤ 8 := by
  have hdigits : (Nat.toDigits 16 (reps % 2 ^ 32).toNat).length ≤ 8 :=
    (Nat.length_toDigits_le_iff (by decide) (by decide)).mpr (by omega)
  rw [hexReps, List.length_leftpad]
  omega

/-- An `int` that is printed as an unsigned number and scanned again. -/
theorem toInt32_emod {reps : ℤ} (hlow : -2 ^ 31 ≤ reps) (hhigh : reps < 2 ^ 31) :
    toInt32 (reps % 2 ^ 32).toNat = reps := by
  rw [toInt32]
  split <;> omega

namespace Message

variable (suffix : Name) (m : Message)

/-- The bytes that `snprintf` of `write_message` leaves in a buffer. -/
def written (size : ℕ) : List Char := (m.text suffix).take (size - 1)

/-- The button of the line, with its suffix. -/
def label : Name := m.button ++ if m.release then suffix else []

def fields : EventFields where
  code := hexDigits 16 m.code.toNat
  reps := hexReps m.reps
  button := m.label suffix
  remote := m.remote

theorem text_eq_line : m.text suffix = (m.fields suffix).line ++ ['\n'] := by
  simp [text, fields, label, EventFields.line]

variable {suffix : Name} {m : Message}

theorem isName_label (hbutton : IsName m.button) (hsuffix : Unspaced suffix) :
    IsName (m.label suffix) := by
  refine ⟨List.append_ne_nil_of_left_ne_nil hbutton.1 _, hbutton.2.append ?_⟩
  split
  · exact hsuffix
  · intro c hc
    cases hc

theorem fields_wellFormed (hbutton : IsName m.button) (hsuffix : Unspaced suffix)
    (hremote : IsName m.remote) : (m.fields suffix).WellFormed where
  length := length_hexDigits _ _
  code := isDigit_hexDigits _ _
  reps := isDigit_hexReps _
  some_reps := by
    intro hnil
    have htwo := two_le_hexReps m.reps
    have hlength : (hexReps m.reps).length = 0 := congrArg List.length hnil
    omega
  button := (isName_label hbutton hsuffix).isField
  remote := hremote.isField

theorem newline_notMem (hbutton : IsName m.button) (hsuffix : Unspaced suffix)
    (hremote : IsName m.remote) : '\n' ∉ (m.fields suffix).line := by
  have hfields : ∀ {s : List Char}, Unspaced s → '\n' ∉ s := fun h => h.notMem (by decide)
  simp only [EventFields.line, List.mem_append, List.mem_cons, not_or]
  refine ⟨hfields (unspaced_of_digits (isDigit_hexDigits _ _)), by decide,
    hfields (unspaced_of_digits (isDigit_hexReps _)), by decide,
    hfields (isName_label hbutton hsuffix).2, by decide, hfields hremote.2⟩

end Message

/-- SIMULATE broadcasts the lines that it accepts. -/
theorem simulate_validEvent {env : Env} (hallow : env.allowSimulate = true) {d : Daemon}
    (hmalloc : env.strdupOk d.clock = true) {event : List Char} (h : validEvent event = true)
    (fd : ℕ) (message : List Char) :
    simulate env fd message (some event) d =
      sendSuccess env fd message (broadcastMessage env (event ++ ['\n'])
        (d.tick.log (.formatted (event ++ ['\n']) (event.length + 2)))) := by
  rw [simulate, hallow]
  dsimp only
  rw [h, hmalloc]
  rfl

/-- The line that `write_message` leaves in its buffer is accepted and broadcast as it is
by SIMULATE, and a client reads the repeats, the button and the remote of it; and a client
reads the four fields of every line that SIMULATE accepts. -/
theorem eventLine_agrees :
    (∀ (suffix : Name) (m : Message) (size : ℕ), IsName m.button → Unspaced suffix →
      IsName m.remote → -2 ^ 31 ≤ m.reps → m.reps < 2 ^ 31 → (m.text suffix).length < size →
      ∃ event rep, m.written suffix size = event ++ ['\n'] ∧ validEvent event = true ∧
        (∀ (env : Env) (fd : ℕ) (message : List Char) (d : Daemon), env.allowSimulate = true →
          env.strdupOk d.clock = true →
          simulate env fd message (some event) d =
            sendSuccess env fd message (broadcastMessage env (m.written suffix size)
              (d.tick.log (.formatted (m.written suffix size) (event.length + 2))))) ∧
        ReadAs (m.written suffix size) rep (m.label suffix) m.remote ∧ toInt32 rep = m.reps) ∧
    ∀ event, '\n' ∉ event → validEvent event = true →
      ∃ f : EventFields, f.WellFormed ∧ event = f.line ∧
        (f.reps.length ≤ 8 →
          ReadAs (event ++ ['\n']) (valueOf 16 f.reps) f.button f.remote) := by
  constructor
  · intro suffix m size hbutton hsuffix hremote hlow hhigh hfits
    have hwritten : m.written suffix size = (m.fields suffix).line ++ ['\n'] := by
      rw [Message.written, List.take_of_length_le (Nat.le_sub_one_of_lt hfits),
        Message.text_eq_line]
    have hfields := Message.fields_wellFormed hbutton hsuffix hremote
    have hvalid : validEvent (m.fields suffix).line = true := validEvent_iff.mpr ⟨_, hfields, rfl⟩
    refine ⟨(m.fields suffix).line, (m.reps % 2 ^ 32).toNat, hwritten, hvalid, ?_, ?_,
      toInt32_emod hlow hhigh⟩
    · intro env fd message d hallow hmalloc
      rw [hwritten]
      exact simulate_validEvent hallow hmalloc hvalid fd message
    · rw [hwritten, ← valueOf_hexReps]
      exact line_readAs hfields (Message.newline_notMem hbutton hsuffix hremote)
        (hexReps_length_le _)
  · intro event hline hvalid
    obtain ⟨f, hf, rfl⟩ := validEvent_iff.mp hvalid
    exact ⟨f, hf, rfl, line_readAs hf hline⟩

/-- A release, and a counter that has wrapped. -/
theorem eventLine_agrees_release :
    ∃ rep, ReadAs "0000000000000fff ffffffff play_UP tv\n".toList rep "play_UP".toList
      "tv".toList ∧ toInt32 rep = -1 := by
  have hwritten : Message.written "_UP".toList ⟨"tv".toList, "play".toList, 0xfff, -1, true⟩ 257 =
      "0000000000000fff ffffffff play_UP tv\n".toList := by decide
  obtain ⟨event, rep, -, -, -, hread, hreps⟩ := eventLine_agrees.1 "_UP".toList
    ⟨"tv".toList, "play".toList, 0xfff, -1, true⟩ 257 (by decide) (by decide) (by decide)
    (by decide) (by decide) (by decide)
  rw [hwritten] at hread
  exact ⟨rep, hread, hreps⟩

end Lirc
