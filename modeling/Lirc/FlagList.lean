import Lirc.Lircrc

/-!
`lirc_flags`: the value of a line `flags = ...`.

The first call of `strtok` ends a token at a blank, a tab or a bar, the later
ones at a blank or a tab only. A name with a bar beside it is then part of a
token that is no flag, unless it is the first name.
-/

namespace Lirc

open CString

/-- The names of `enum lirc_flags` that a file can use. -/
def rcFlagNames : List (Name × ℕ) :=
  [("once".toList, 0x01), ("quit".toList, 0x02), ("mode".toList, 0x04),
    ("startup_mode".toList, 0x10), ("toggle_reset".toList, 0x20)]

/-- The flag of a token; an unknown one is only warned about. -/
def tokenFlag (s : Name) : ℕ :=
  match rcFlagNames.find? fun f => strcaseeq s f.1 with
  | some f => f.2
  | none => 0

/-- The loop of `lirc_flags`. -/
def flagLoop : ℕ → ℕ → Option (List Char × List Char) → ℕ
  | 0, flags, _ => flags
  | _ + 1, flags, none => flags
  | n + 1, flags, some (s, rest) =>
      flagLoop n (flags ||| tokenFlag s) (strtok [' ', '\t'] rest)

/-- `lirc_flags`. Every token takes a character, so the bound is not reached. -/
def lircFlags (string : List Char) : ℕ :=
  flagLoop (string.length + 1) 0 (strtok [' ', '\t', '|'] string)

/-- The flags of some names together. -/
def flagsOf (names : List Name) : ℕ := names.foldr (fun s flags => tokenFlag s ||| flags) 0

@[simp] theorem flagsOf_nil : flagsOf [] = 0 := rfl

@[simp] theorem flagsOf_cons (s : Name) (names : List Name) :
    flagsOf (s :: names) = tokenFlag s ||| flagsOf names := rfl

theorem flagsOf_append (names names' : List Name) :
    flagsOf (names ++ names') = flagsOf names ||| flagsOf names' := by
  induction names with
  | nil => simp
  | cons s names ih => simp [ih, Nat.or_assoc]

/-- The loop collects the flags of all tokens that are left. -/
theorem flagLoop_eq {s : List Char} {n : ℕ} (hn : s.length < n) (flags : ℕ) :
    flagLoop n flags (strtok [' ', '\t'] s) = flags ||| flagsOf (tokens [' ', '\t'] s) := by
  induction n generalizing s flags with
  | zero => omega
  | succ n ih =>
      cases htok : strtok [' ', '\t'] s with
      | none => simp [flagLoop, strtok_none htok]
      | some x =>
          obtain ⟨tok, rest⟩ := x
          have hrest := strtok_rest_lt htok
          rw [flagLoop, ih (by omega), strtok_some htok, flagsOf_cons, Nat.or_assoc]

/-! ### Single names -/

theorem tokenFlag_nil : tokenFlag [] = 0 := by decide

/-- No flag has a bar in its name. -/
theorem tokenFlag_bar {s : Name} (h : '|' ∈ s) : tokenFlag s = 0 := by
  have hnone : (rcFlagNames.find? fun f => strcaseeq s f.1) = none := by
    rw [List.find?_eq_none]
    intro f hf heq
    have hmem : '|' ∈ f.1.map Char.toLower := by
      rw [← beq_iff_eq.mp heq]
      exact List.mem_map.mpr ⟨'|', h, by decide⟩
    revert hmem
    exact (show ∀ f ∈ rcFlagNames, '|' ∉ f.1.map Char.toLower by decide) f hf
  rw [tokenFlag, hnone]

/-! ### Texts -/

/-- A blank or a tab. -/
def isBlank (c : Char) : Bool := [' ', '\t'].contains c

/-- The name of a flag, known or unknown. -/
structure FlagName (s : Name) : Prop where
  ne_nil : s ≠ []
  plain : ∀ c ∈ s, [' ', '\t', '|'].contains c = false

/-- What may stand between two names. -/
structure FlagSeparator (s : List Char) : Prop where
  ne_nil : s ≠ []
  separates : ∀ c ∈ s, [' ', '\t', '|'].contains c = true

/-- Names with the separators between them: every name but the first comes
behind its separator. -/
structure FlagText where
  first : Name
  more : List (List Char × Name)
  first_name : FlagName first
  more_names : ∀ x ∈ more, FlagSeparator x.1 ∧ FlagName x.2

/-- The text of separators and names. -/
def moreText (more : List (List Char × Name)) : List Char := more.flatMap fun x => x.1 ++ x.2

@[simp] theorem moreText_nil : moreText [] = [] := rfl

@[simp] theorem moreText_cons (s : List Char) (n : Name) (more : List (List Char × Name)) :
    moreText ((s, n) :: more) = s ++ n ++ moreText more := rfl

def startsBlank (s : List Char) : Bool := s.head?.all isBlank

def endsBlank (s : List Char) : Bool := s.getLast?.all isBlank

/-- The names with no bar beside them. -/
def unbarred : List (List Char × Name) → List Name
  | [] => []
  | (s, n) :: more =>
      if endsBlank s && startsBlank (moreText more) then n :: unbarred more else unbarred more

namespace FlagText

variable (t : FlagText)

/-- The text as `lirc_flags` gets it. -/
def text : List Char := t.first ++ moreText t.more

/-- All names in it. -/
def names : List Name := t.first :: t.more.map Prod.snd

/-- What follows the first name, without the character that ended it. -/
def behindFirst : List (List Char × Name) :=
  match t.more with
  | [] => []
  | (s, n) :: more => (s.tail, n) :: more

/-- The first name, and those with no bar beside them. -/
def standing : List Name := t.first :: unbarred t.behindFirst

end FlagText

/-! ### The tokens of a text -/

/-- The flags of the tokens between blanks. -/
def blankFlags (s : List Char) : ℕ := flagsOf (tokens [' ', '\t'] s)

theorem blankFlags_word {w : List Char} (hw : ∀ c ∈ w, isBlank c = false) :
    blankFlags w = tokenFlag w := by
  by_cases hnil : w = []
  · rw [hnil, tokenFlag_nil]
    rfl
  · rw [blankFlags, tokens_word hw hnil, flagsOf_cons, flagsOf_nil, Nat.or_zero]

theorem blankFlags_append (w rest : List Char) {c : Char} (hc : isBlank c = true) :
    blankFlags (w ++ c :: rest) = blankFlags w ||| blankFlags rest := by
  rw [blankFlags, tokens_append_cons w rest hc, flagsOf_append]
  rfl

/-- A separator is a blank or a bar. -/
theorem eq_bar {c : Char} (hsep : [' ', '\t', '|'].contains c = true)
    (hblank : isBlank c = false) : c = '|' := by
  simp only [isBlank, List.contains_eq_mem, List.mem_cons, List.not_mem_nil, or_false,
    decide_eq_false_iff_not, decide_eq_true_eq] at hsep hblank
  tauto

/-- Between a piece of a word and a name a separator ends the word when it
starts with a blank, and starts the name when it ends with one. -/
theorem blankFlags_separator {n rest : List Char} {after : Bool} {flags : ℕ}
    (hname : ∀ w, (∀ c ∈ w, isBlank c = false) →
      blankFlags (w ++ (n ++ rest)) = (if after then tokenFlag (w ++ n) else 0) ||| flags)
    {s : List Char} (hs : FlagSeparator s) {w : List Char} (hw : ∀ c ∈ w, isBlank c = false) :
    blankFlags (w ++ (s ++ (n ++ rest))) =
      (if startsBlank s then tokenFlag w else 0) |||
        ((if endsBlank s && after then tokenFlag n else 0) ||| flags) := by
  obtain ⟨hne, hsep⟩ := hs
  induction s generalizing w with
  | nil => exact absurd rfl hne
  | cons c s ih =>
      have hends (hs : s ≠ []) : endsBlank (c :: s) = endsBlank s := by
        rw [endsBlank, List.getLast?_cons_of_ne_nil hs]
        rfl
      have hsep' : ∀ d ∈ s, [' ', '\t', '|'].contains d = true := fun d hd =>
        hsep d (List.mem_cons_of_mem _ hd)
      have hstarts : startsBlank (c :: s) = isBlank c := by simp [startsBlank]
      cases hc : isBlank c with
      | true =>
          -- the word before it is a token, and the next one starts here
          rw [List.cons_append, blankFlags_append w _ hc, blankFlags_word hw, hstarts, hc,
            if_pos rfl]
          congr 1
          by_cases hs : s = []
          · have hlast : endsBlank [c] = true := by simpa [endsBlank] using hc
            rw [hs, List.nil_append, ← List.nil_append (n ++ rest), hname [] (by simp), hlast,
              Bool.true_and]
            rfl
          · have hnext := ih (w := []) (by simp) hs hsep'
            rw [List.nil_append] at hnext
            rw [hnext, hends hs, tokenFlag_nil, ite_self, Nat.zero_or]
      | false =>
          -- a bar goes on with the word before it
          obtain rfl := eq_bar (hsep c List.mem_cons_self) hc
          have hbar : ∀ d ∈ w ++ ['|'], isBlank d = false := by
            intro d hd
            obtain hd | hd := List.mem_append.mp hd
            · exact hw d hd
            · rw [List.mem_singleton.mp hd]
              exact hc
          have hmove : w ++ ('|' :: s ++ (n ++ rest)) = (w ++ ['|']) ++ (s ++ (n ++ rest)) := by
            simp
          rw [hmove, hstarts, hc, if_neg Bool.false_ne_true, Nat.zero_or]
          by_cases hs : s = []
          · have hlast : endsBlank ['|'] = false := by decide
            have hzero : tokenFlag (w ++ ['|'] ++ n) = 0 := tokenFlag_bar (by simp)
            rw [hs, List.nil_append, hname _ hbar, hlast, Bool.false_and,
              if_neg Bool.false_ne_true, hzero, ite_self]
          · have hzero : tokenFlag (w ++ ['|']) = 0 := tokenFlag_bar (by simp)
            rw [ih hbar hs hsep', hends hs, hzero, ite_self, Nat.zero_or]

theorem word_append {w n : List Char} (hw : ∀ c ∈ w, isBlank c = false) (hn : FlagName n) :
    ∀ c ∈ w ++ n, isBlank c = false := by
  intro c hc
  obtain hc | hc := List.mem_append.mp hc
  · exact hw c hc
  · have hplain := hn.plain c hc
    simp only [isBlank, List.contains_eq_mem, List.mem_cons, decide_eq_false_iff_not] at hplain ⊢
    tauto

theorem unbarred_flags (s : List Char) (n : Name) (more : List (List Char × Name)) :
    flagsOf (unbarred ((s, n) :: more)) =
      (if endsBlank s && startsBlank (moreText more) then tokenFlag n else 0) |||
        flagsOf (unbarred more) := by
  rw [unbarred]
  split
  · rfl
  · rw [Nat.zero_or]

/-- A word, and the names behind it. -/
theorem blankFlags_moreText {more : List (List Char × Name)}
    (hmore : ∀ x ∈ more, FlagSeparator x.1 ∧ FlagName x.2) {w : List Char}
    (hw : ∀ c ∈ w, isBlank c = false) :
    blankFlags (w ++ moreText more) =
      (if startsBlank (moreText more) then tokenFlag w else 0) ||| flagsOf (unbarred more) := by
  induction more generalizing w with
  | nil =>
      rw [moreText_nil, List.append_nil, blankFlags_word hw]
      exact (Nat.or_zero _).symm
  | cons x more ih =>
      obtain ⟨s, n⟩ := x
      obtain ⟨hs, hn⟩ := hmore (s, n) List.mem_cons_self
      have hmore' : ∀ x ∈ more, FlagSeparator x.1 ∧ FlagName x.2 := fun x hx =>
        hmore x (List.mem_cons_of_mem _ hx)
      have hname := fun (w : List Char) (hw : ∀ c ∈ w, isBlank c = false) =>
        List.append_assoc w n (moreText more) ▸ ih hmore' (word_append hw hn)
      have hstarts : startsBlank (moreText ((s, n) :: more)) = startsBlank s := by
        obtain ⟨c, cs, rfl⟩ := List.exists_cons_of_ne_nil hs.ne_nil
        rfl
      rw [hstarts, moreText_cons, List.append_assoc, blankFlags_separator hname hs hw,
        unbarred_flags]

/-- Behind the first name. -/
theorem FlagText.blankFlags_behindFirst (t : FlagText) :
    blankFlags (moreText t.more).tail = flagsOf (unbarred t.behindFirst) := by
  have hmore := t.more_names
  rw [FlagText.behindFirst]
  cases hcases : t.more with
  | nil => rfl
  | cons x more =>
      obtain ⟨s, n⟩ := x
      rw [hcases] at hmore
      obtain ⟨hs, hn⟩ := hmore (s, n) List.mem_cons_self
      have hmore' : ∀ x ∈ more, FlagSeparator x.1 ∧ FlagName x.2 := fun x hx =>
        hmore x (List.mem_cons_of_mem _ hx)
      have hname := fun (w : List Char) (hw : ∀ c ∈ w, isBlank c = false) =>
        List.append_assoc w n (moreText more) ▸ blankFlags_moreText hmore' (word_append hw hn)
      obtain ⟨c, cs, rfl⟩ := List.exists_cons_of_ne_nil hs.ne_nil
      rw [unbarred_flags, moreText_cons, List.append_assoc, List.cons_append, List.tail_cons,
        List.tail_cons]
      by_cases hcs : cs = []
      · have hstart := hname [] (by simp)
        rw [List.nil_append, List.nil_append] at hstart
        rw [hcs, List.nil_append, hstart]
        rfl
      · have hrest : FlagSeparator cs := ⟨hcs, fun d hd => hs.separates d (List.mem_cons_of_mem _ hd)⟩
        have hstart := blankFlags_separator hname hrest (w := []) (by simp)
        rw [List.nil_append, tokenFlag_nil, ite_self, Nat.zero_or] at hstart
        exact hstart

/-- `lirc_flags` finds the flags of the names that stand. -/
theorem lircFlags_text (t : FlagText) : lircFlags t.text = flagsOf t.standing := by
  have hbehind : ∀ c ∈ (moreText t.more).head?, [' ', '\t', '|'].contains c = true := by
    have hmore := t.more_names
    cases hcases : t.more with
    | nil => simp
    | cons x more =>
        obtain ⟨hs, -⟩ := hmore x (hcases ▸ List.mem_cons_self)
        obtain ⟨s, n⟩ := x
        obtain ⟨c, cs, rfl⟩ := List.exists_cons_of_ne_nil hs.ne_nil
        intro d hd
        obtain rfl : c = d := Option.some.inj hd
        exact hs.separates c List.mem_cons_self
  have htok := strtok_word t.first_name.ne_nil t.first_name.plain hbehind
  have hrest := strtok_rest_lt htok
  rw [lircFlags, FlagText.text, htok, flagLoop, flagLoop_eq hrest, Nat.zero_or]
  exact congrArg (tokenFlag t.first ||| ·) t.blankFlags_behindFirst

/-! ### All names -/

/-- A flag has one bit. -/
theorem tokenFlag_bit (s : Name) : tokenFlag s = 0 ∨ ∃ k, tokenFlag s = 2 ^ k := by
  rw [tokenFlag]
  cases hfind : rcFlagNames.find? fun f => strcaseeq s f.1 with
  | none => exact .inl rfl
  | some f =>
      right
      have hmem := List.mem_of_find?_eq_some hfind
      simp only [rcFlagNames, List.mem_cons, List.not_mem_nil, or_false] at hmem
      obtain rfl | rfl | rfl | rfl | rfl := hmem
      · exact ⟨0, rfl⟩
      · exact ⟨1, rfl⟩
      · exact ⟨2, rfl⟩
      · exact ⟨4, rfl⟩
      · exact ⟨5, rfl⟩

theorem testBit_flagsOf (names : List Name) (k : ℕ) :
    (flagsOf names).testBit k = true ↔ ∃ s ∈ names, (tokenFlag s).testBit k = true := by
  induction names with
  | nil => simp
  | cons s names ih => simp [ih]

/-- Names have the same flags when each flag of the ones is a flag of the
others. -/
theorem flagsOf_eq_iff (names names' : List Name) (hsub : ∀ s ∈ names', s ∈ names) :
    flagsOf names' = flagsOf names ↔
      ∀ s ∈ names, tokenFlag s ≠ 0 → ∃ s' ∈ names', tokenFlag s' = tokenFlag s := by
  constructor
  · intro heq s hs hflag
    obtain ⟨k, hk⟩ := (tokenFlag_bit s).resolve_left hflag
    have hbit : (flagsOf names').testBit k = true := by
      rw [heq]
      exact (testBit_flagsOf names k).mpr ⟨s, hs, by rw [hk, Nat.testBit_two_pow_self]⟩
    obtain ⟨s', hs', hbit'⟩ := (testBit_flagsOf names' k).mp hbit
    refine ⟨s', hs', ?_⟩
    obtain hzero | ⟨k', hk'⟩ := tokenFlag_bit s'
    · rw [hzero, Nat.zero_testBit] at hbit'
      nomatch hbit'
    · rw [hk', Nat.testBit_two_pow] at hbit'
      rw [hk', hk, of_decide_eq_true hbit']
  · intro h
    refine Nat.eq_of_testBit_eq fun k => Bool.eq_iff_iff.mpr ?_
    rw [testBit_flagsOf, testBit_flagsOf]
    constructor
    · rintro ⟨s, hs, hbit⟩
      exact ⟨s, hsub s hs, hbit⟩
    · rintro ⟨s, hs, hbit⟩
      have hflag : tokenFlag s ≠ 0 := by
        intro hzero
        rw [hzero, Nat.zero_testBit] at hbit
        nomatch hbit
      obtain ⟨s', hs', heq⟩ := h s hs hflag
      exact ⟨s', hs', heq ▸ hbit⟩

theorem unbarred_subset (more : List (List Char × Name)) :
    ∀ s ∈ unbarred more, s ∈ more.map Prod.snd := by
  induction more with
  | nil => exact fun s hs => hs
  | cons x more ih =>
      obtain ⟨sep, n⟩ := x
      intro s hs
      rw [unbarred] at hs
      rw [List.map_cons]
      split at hs
      · obtain rfl | hs := List.mem_cons.mp hs
        · exact List.mem_cons_self
        · exact List.mem_cons_of_mem _ (ih s hs)
      · exact List.mem_cons_of_mem _ (ih s hs)

theorem FlagText.standing_subset (t : FlagText) : ∀ s ∈ t.standing, s ∈ t.names := by
  have hbehind : t.behindFirst.map Prod.snd = t.more.map Prod.snd := by
    rw [FlagText.behindFirst]
    cases t.more <;> rfl
  intro s hs
  obtain rfl | hs := List.mem_cons.mp hs
  · exact List.mem_cons_self
  · exact List.mem_cons_of_mem _ (hbehind ▸ unbarred_subset t.behindFirst s hs)

/-- The flags of all names are found exactly when every flag that is named is
also that of the first name or of a name without a bar beside it. -/
theorem lircFlags_named_iff (t : FlagText) :
    lircFlags t.text = flagsOf t.names ↔
      ∀ s ∈ t.names, tokenFlag s ≠ 0 → ∃ s' ∈ t.standing, tokenFlag s' = tokenFlag s := by
  rw [lircFlags_text]
  exact flagsOf_eq_iff t.names t.standing t.standing_subset

/-- Three flags with a blank and a bar between them. -/
def onceQuitMode : FlagText where
  first := "once".toList
  more := [([' '], "quit".toList), (['|'], "mode".toList)]
  first_name := ⟨by simp, by simp⟩
  more_names := by
    intro x hx
    simp only [List.mem_cons, List.not_mem_nil, or_false] at hx
    obtain rfl | rfl := hx
    · exact ⟨⟨by simp, by simp⟩, ⟨by simp, by simp⟩⟩
    · exact ⟨⟨by simp, by simp⟩, ⟨by simp, by simp⟩⟩

/-- Of `once quit|mode` only the first flag is found. -/
theorem lircFlags_loses_flags :
    onceQuitMode.text = "once quit|mode".toList ∧
      lircFlags onceQuitMode.text = 0x01 ∧ flagsOf onceQuitMode.names = 0x07 := by decide

end Lirc
