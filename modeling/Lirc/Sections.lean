import Lirc.PostProcess

/-!
What the lines of a file do to the parser: which of them begin and end a
remote, that the others work on the current remote alone, and how the loop
over the lines goes on.
-/

namespace Lirc

open CString

/-! ### Lines that begin and end a remote -/

/-- The words begin or end a section, in any case. -/
def sectionWords (key val : List Char) : List (List Char) → Bool
  | k :: v :: _ => strcaseeq key k && strcaseeq val v
  | _ => false

def beginsRemote (buf : List Char) : Bool :=
  sectionWords "begin".toList "remote".toList (words buf)

def endsRemote (buf : List Char) : Bool :=
  sectionWords "end".toList "remote".toList (words buf)

/-! ### What a line does -/

theorem Config.bind_ok {α β : Type} {x : Config α} {f : α → Config β} {b : β}
    (h : (x >>= f) = .ok b) : ∃ a, x = .ok a ∧ f a = .ok b := by
  cases x with
  | error e => cases h
  | ok a => exact ⟨a, rfl, h⟩

/-- A parser with other remotes around the one it works on. -/
def Parser.frame (p : Parser) (before after : List ConfRemote) : Parser :=
  { p with before, after }

section Frame

variable (p : Parser) (b a : List ConfRemote)

@[simp] theorem Parser.frame_mode : (p.frame b a).mode = p.mode := rfl

@[simp] theorem Parser.frame_rem : (p.frame b a).rem = p.rem := rfl

theorem Parser.onRem_frame (f : ConfRemote → Config ConfRemote) :
    (p.frame b a).onRem f = (p.onRem f).map (·.frame b a) := by
  rw [onRem, onRem, frame_rem]
  cases p.rem with
  | none => rfl
  | some rem =>
      cases hf : f rem with
      | error e => simp only [hf]; rfl
      | ok rem => simp only [hf]; rfl

theorem codeLine_frame (list : List IrNcode) (key val : List Char) (more : List (List Char)) :
    codeLine (p.frame b a) list key val more =
      (codeLine p list key val more).map (·.frame b a) := by
  rw [codeLine, codeLine]
  cases defineCode key val more with
  | error e => rfl
  | ok code => rfl

theorem rawLine_frame (key val : List Char) (more : List (List Char)) :
    rawLine (p.frame b a) key val more = (rawLine p key val more).map (·.frame b a) := by
  rw [rawLine, rawLine, Parser.frame_mode]
  split
  · cases p.mode with
    | rawName list name signals =>
        cases hadd : addRaw list name signals with
        | error e => simp only [hadd]; rfl
        | ok list => simp only [hadd]; rfl
    | rawCodes list => rfl
    | none => rfl
    | remote => rfl
    | codes list => rfl
  · cases p.mode with
    | rawName list name signals =>
        cases hadd : (key :: val :: more).foldlM addSignal signals with
        | error e => simp only [hadd]; rfl
        | ok list => simp only [hadd]; rfl
    | rawCodes list => rfl
    | none => rfl
    | remote => rfl
    | codes list => rfl

theorem bodyLine_frame (key val : List Char) (more : List (List Char)) :
    bodyLine (p.frame b a) key val more = (bodyLine p key val more).map (·.frame b a) := by
  rw [bodyLine, bodyLine, Parser.frame_mode]
  cases hmode : p.mode with
  | none => rfl
  | remote => exact p.onRem_frame b a _
  | codes list => exact codeLine_frame p b a list key val more
  | rawCodes list => exact rawLine_frame p b a key val more
  | rawName list name signals => exact rawLine_frame p b a key val more

/-- A change of the current remote, then a new mode. -/
theorem onRem_mode_frame (f : ConfRemote → Config ConfRemote) (mode : Mode) :
    ((p.frame b a).onRem f >>= fun p => pure { p with mode }) =
      (p.onRem f >>= fun p => (pure { p with mode } : Config Parser)).map (·.frame b a) := by
  rw [Parser.onRem_frame]
  cases p.onRem f with
  | error e => rfl
  | ok p => rfl

theorem beginSection_frame {val : List Char} (hval : strcaseeq "remote".toList val = false)
    (key : List Char) (more : List (List Char)) :
    beginSection (p.frame b a) key val more =
      (beginSection p key val more).map (·.frame b a) := by
  rw [beginSection, beginSection, hval]
  split
  · rw [checkMode, checkMode, Parser.frame_mode]
    split
    · exact onRem_mode_frame p b a _ _
    · rfl
  split
  · rw [checkMode, checkMode, Parser.frame_mode]
    split
    · exact onRem_mode_frame p b a _ _
    · rfl
  rw [Parser.frame_mode, if_neg Bool.false_ne_true, if_neg Bool.false_ne_true]
  cases p.mode with
  | codes list => exact codeLine_frame p b a list key val more
  | none => rfl
  | remote => rfl
  | rawCodes list => rfl
  | rawName list name signals => rfl

theorem endSection_frame {val : List Char} (hval : strcaseeq "remote".toList val = false)
    (key : List Char) (more : List (List Char)) :
    endSection (p.frame b a) key val more = (endSection p key val more).map (·.frame b a) := by
  rw [endSection, endSection, hval, Parser.frame_mode]
  split
  · cases p.mode with
    | codes list => exact onRem_mode_frame p b a _ _
    | none => rfl
    | remote => rfl
    | rawCodes list => rfl
    | rawName list name signals => rfl
  split
  · cases endRawCodes p.mode with
    | error e => rfl
    | ok list => exact onRem_mode_frame p b a _ _
  rw [if_neg Bool.false_ne_true, if_neg Bool.false_ne_true]
  cases p.mode with
  | codes list => exact codeLine_frame p b a list key val more
  | none => rfl
  | remote => rfl
  | rawCodes list => rfl
  | rawName list name signals => rfl

/-- A line that neither begins nor ends a remote works on the current remote
alone. -/
theorem plainLine_frame {ws : List (List Char)}
    (hbegin : sectionWords "begin".toList "remote".toList ws = false)
    (hend : sectionWords "end".toList "remote".toList ws = false) :
    plainLine (p.frame b a) ws = (plainLine p ws).map (·.frame b a) := by
  match ws with
  | [] => rfl
  | [key] =>
      rw [plainLine, plainLine, Parser.frame_mode]
      cases p.mode with
      | rawName list name signals =>
          cases hadd : addSignal signals key with
          | error e => simp only [hadd]; rfl
          | ok list => simp only [hadd]; rfl
      | codes list => rfl
      | none => rfl
      | remote => rfl
      | rawCodes list => rfl
  | key :: val :: more =>
      rw [sectionWords, Bool.and_eq_false_iff] at hbegin hend
      rw [plainLine, plainLine]
      split
      · next hkey =>
          have hval := hbegin.resolve_left (by rw [hkey]; decide)
          exact beginSection_frame p b a hval key more
      split
      · next hkey =>
          have hval := hend.resolve_left (by rw [hkey]; decide)
          exact endSection_frame p b a hval key more
      exact bodyLine_frame p b a key val more

end Frame

theorem strcaseeq_of_eq {a v : Name} (h : strcaseeq a v = true) (b : Name) :
    strcaseeq b v = strcaseeq b a := by
  simp only [strcaseeq, beq_iff_eq] at h
  simp only [strcaseeq, h]

/-- `begin remote` -/
theorem plainLine_begin {ws : List (List Char)}
    (hws : sectionWords "begin".toList "remote".toList ws = true) (p : Parser) :
    plainLine p ws = (checkMode p .none >>= fun _ => pure { p.append {} with mode := .remote }) := by
  match ws with
  | [] => exact absurd hws Bool.false_ne_true
  | [key] => exact absurd hws Bool.false_ne_true
  | key :: val :: more =>
      obtain ⟨hkey, hval⟩ := (Bool.and_eq_true ..).mp hws
      rw [plainLine, if_pos hkey, beginSection, strcaseeq_of_eq hval, if_neg (by decide),
        strcaseeq_of_eq hval, if_neg (by decide), if_pos hval]

/-- `end remote` -/
theorem plainLine_end {ws : List (List Char)}
    (hws : sectionWords "end".toList "remote".toList ws = true) (p : Parser) :
    plainLine p ws = (checkMode p .remote >>= fun _ => p.onRem sanityChecks >>= fun p =>
      pure { p with mode := .none, after := [] }) := by
  match ws with
  | [] => exact absurd hws Bool.false_ne_true
  | [key] => exact absurd hws Bool.false_ne_true
  | key :: val :: more =>
      obtain ⟨hkey, hval⟩ := (Bool.and_eq_true ..).mp hws
      rw [plainLine, strcaseeq_of_eq hkey, if_neg (by decide), if_pos hkey, endSection,
        strcaseeq_of_eq hval, if_neg (by decide), strcaseeq_of_eq hval, if_neg (by decide),
        if_pos hval]

/-- Between remotes no other line has an effect. -/
theorem plainLine_outside {ws : List (List Char)} {p : Parser} (hmode : p.mode = .none)
    (hbegin : sectionWords "begin".toList "remote".toList ws = false) :
    plainLine p ws = (plainLine {} ws).map fun _ => p := by
  match ws with
  | [] => rfl
  | [key] =>
      rw [plainLine, plainLine, hmode]
      rfl
  | key :: val :: more =>
      rw [sectionWords, Bool.and_eq_false_iff] at hbegin
      rw [plainLine, plainLine]
      split
      · next hkey =>
          have hval := hbegin.resolve_left (by rw [hkey]; decide)
          rw [beginSection, beginSection, hval, checkMode, checkMode, hmode]
          split
          · rfl
          split
          · rfl
          · rfl
      split
      · rw [endSection, endSection, checkMode, checkMode, hmode]
        split
        · rfl
        split
        · rfl
        split
        · rfl
        · rfl
      rw [bodyLine, bodyLine, hmode]
      rfl

theorem onRem_ok {p q : Parser} {f : ConfRemote → Config ConfRemote} (h : p.onRem f = .ok q) :
    ∃ rem rem', p.rem = some rem ∧ f rem = .ok rem' ∧ q = { p with rem := some rem' } := by
  rw [Parser.onRem] at h
  cases hrem : p.rem with
  | none =>
      rw [hrem] at h
      cases h
  | some rem =>
      rw [hrem] at h
      cases hf : f rem with
      | error e =>
          simp only [hf] at h
          cases h
      | ok rem' =>
          simp only [hf] at h
          cases h
          exact ⟨rem, rem', rfl, hf, rfl⟩

theorem codeLine_ok {p q : Parser} {list : List IrNcode} {key val : List Char}
    {more : List (List Char)} (h : codeLine p list key val more = .ok q) :
    ∃ list', q = { p with mode := .codes list' } := by
  obtain ⟨code, -, hq⟩ := Config.bind_ok h
  cases hq
  exact ⟨_, rfl⟩

theorem rawLine_ok {p q : Parser} {key val : List Char} {more : List (List Char)}
    (h : rawLine p key val more = .ok q) :
    ∃ list name signals, q = { p with mode := .rawName list name signals } := by
  rw [rawLine] at h
  split at h
  · split at h
    · obtain ⟨list, -, hq⟩ := Config.bind_ok h
      cases hq
      exact ⟨_, _, _, rfl⟩
    · cases h
      exact ⟨_, _, _, rfl⟩
    · cases h
  · split at h
    · obtain ⟨list, -, hq⟩ := Config.bind_ok h
      cases hq
      exact ⟨_, _, _, rfl⟩
    · cases h

/-- A remote is being read. -/
def Parser.Inside (p : Parser) : Prop := p.mode ≠ .none ∧ p.rem.isSome

/-- The current remote is changed, and the mode is one inside a remote. -/
theorem onRem_mode_inside {p q : Parser} {f : ConfRemote → Config ConfRemote} {mode : Mode}
    (h : (p.onRem f >>= fun p => (pure { p with mode } : Config Parser)) = .ok q)
    (hmode : mode ≠ .none) : q.Inside := by
  obtain ⟨p', hp, hq⟩ := Config.bind_ok h
  obtain ⟨rem, rem', -, -, rfl⟩ := onRem_ok hp
  cases hq
  exact ⟨hmode, rfl⟩

theorem beginSection_inside {p q : Parser} {key val : List Char} {more : List (List Char)}
    (hp : p.Inside) (hval : strcaseeq "remote".toList val = false)
    (h : beginSection p key val more = .ok q) : q.Inside := by
  rw [beginSection, hval] at h
  split at h
  · obtain ⟨-, -, h⟩ := Config.bind_ok h
    exact onRem_mode_inside h nofun
  split at h
  · obtain ⟨-, -, h⟩ := Config.bind_ok h
    exact onRem_mode_inside h nofun
  rw [if_neg Bool.false_ne_true] at h
  split at h
  · obtain ⟨list', rfl⟩ := codeLine_ok h
    exact ⟨nofun, hp.2⟩
  · cases h

theorem endSection_inside {p q : Parser} {key val : List Char} {more : List (List Char)}
    (hp : p.Inside) (hval : strcaseeq "remote".toList val = false)
    (h : endSection p key val more = .ok q) : q.Inside := by
  rw [endSection, hval] at h
  split at h
  · split at h
    · exact onRem_mode_inside h nofun
    · cases h
  split at h
  · obtain ⟨list, -, h⟩ := Config.bind_ok h
    exact onRem_mode_inside h nofun
  rw [if_neg Bool.false_ne_true] at h
  split at h
  · obtain ⟨list', rfl⟩ := codeLine_ok h
    exact ⟨nofun, hp.2⟩
  · cases h

theorem bodyLine_inside {p q : Parser} {key val : List Char} {more : List (List Char)}
    (hp : p.Inside) (h : bodyLine p key val more = .ok q) : q.Inside := by
  rw [bodyLine] at h
  split at h
  · next hmode => exact absurd hmode hp.1
  · obtain ⟨rem, rem', -, -, rfl⟩ := onRem_ok h
    exact ⟨hp.1, rfl⟩
  · obtain ⟨list', rfl⟩ := codeLine_ok h
    exact ⟨nofun, hp.2⟩
  · obtain ⟨list, name, signals, rfl⟩ := rawLine_ok h
    exact ⟨nofun, hp.2⟩
  · obtain ⟨list, name, signals, rfl⟩ := rawLine_ok h
    exact ⟨nofun, hp.2⟩

/-- Inside a remote the other lines stay inside it. -/
theorem plainLine_inside {ws : List (List Char)} {p q : Parser} (hp : p.Inside)
    (hbegin : sectionWords "begin".toList "remote".toList ws = false)
    (hend : sectionWords "end".toList "remote".toList ws = false)
    (h : plainLine p ws = .ok q) : q.Inside := by
  match ws with
  | [] =>
      cases h
      exact hp
  | [key] =>
      rw [plainLine] at h
      split at h
      · obtain ⟨signals, -, hq⟩ := Config.bind_ok h
        cases hq
        exact ⟨nofun, hp.2⟩
      · cases h
  | key :: val :: more =>
      rw [sectionWords, Bool.and_eq_false_iff] at hbegin hend
      rw [plainLine] at h
      split at h
      · next hkey =>
          exact beginSection_inside hp (hbegin.resolve_left (by rw [hkey]; decide)) h
      split at h
      · next hkey =>
          exact endSection_inside hp (hend.resolve_left (by rw [hkey]; decide)) h
      exact bodyLine_inside hp h

theorem checkMode_ok {p : Parser} {mode : Mode} {u : Unit} (h : checkMode p mode = .ok u) :
    p.mode = mode := by
  rw [checkMode] at h
  split at h
  · assumption
  · cases h

/-! ### The loop -/

variable {p q : Parser}

theorem finish_ok {p : Parser} {remotes : List ConfRemote} (h : finish p = .ok remotes) :
    p.mode = .none ∧ (∀ r ∈ p.chain, r.codes.isSome) ∧
      remotes = sortByBitCount (p.chain.map postProcess) := by
  obtain ⟨_, hmode, hrest⟩ := Config.bind_ok h
  split at hrest
  · cases hrest
  · next hcodes =>
      refine ⟨checkMode_ok hmode, ?_, (Except.ok.inj hrest).symm⟩
      intro r hr
      have hnone : r.codes.isNone = false := by
        rw [Bool.not_eq_true, List.any_eq_false] at hcodes
        exact eq_false_of_ne_true (hcodes r hr)
      rwa [Option.isNone_eq_false_iff] at hnone

theorem finish_of_closed {p : Parser} (hmode : p.mode = .none)
    (hcodes : ∀ r ∈ p.chain, r.codes.isSome) :
    finish p = .ok (sortByBitCount (p.chain.map postProcess)) := by
  have hany : p.chain.any (·.codes.isNone) = false := by
    rw [List.any_eq_false]
    intro r hr
    rw [Bool.not_eq_true, Option.isNone_eq_false_iff]
    exact hcodes r hr
  rw [finish, checkMode, if_pos hmode, hany]
  rfl

section Lines

variable {files : List Char → Option (List Char)} {levels : ℕ} {name buf val path : List Char}
  {bufs : List (List Char)}

theorem linesWith_cons {incl : List Char → Parser → Config Parser}
    (h : linesWith incl p (buf :: bufs) = .ok q) :
    ¬((cstr buf).length = lineLen ∧ (cstr buf).getLast? ≠ some '\n') ∧
      ∃ p', (includeOf buf).elim (plainLine p (words buf)) (incl · p) = .ok p' ∧
        linesWith incl p' bufs = .ok q := by
  rw [linesWith] at h
  split at h
  · cases h
  · next hlong =>
      obtain ⟨p', hp', hrest⟩ := Config.bind_ok h
      exact ⟨hlong, p', hp', hrest⟩

theorem linesWith_append (incl : List Char → Parser → Config Parser)
    (as bs : List (List Char)) :
    linesWith incl p (as ++ bs) =
      (linesWith incl p as >>= fun p => linesWith incl p bs) := by
  induction as generalizing p with
  | nil => rfl
  | cons buf as ih =>
      rw [List.cons_append, linesWith, linesWith]
      split
      · rfl
      · cases (includeOf buf).elim (plainLine p (words buf)) (incl · p) with
        | error e => rfl
        | ok p => exact ih

theorem readLines_eq_linesWith (files : List Char → Option (List Char)) (levels : ℕ)
    (name : List Char) : ∃ incl, readLines files levels name = linesWith incl := by
  cases levels with
  | zero => exact ⟨_, rfl⟩
  | succ levels => exact ⟨_, rfl⟩

theorem readLines_nil : readLines files levels name p [] = .ok p := by
  obtain ⟨incl, heq⟩ := readLines_eq_linesWith files levels name
  rw [heq]
  rfl

theorem readLines_append (as bs : List (List Char)) :
    readLines files levels name p (as ++ bs) =
      (readLines files levels name p as >>= fun p => readLines files levels name p bs) := by
  obtain ⟨incl, heq⟩ := readLines_eq_linesWith files levels name
  rw [heq]
  exact linesWith_append incl as bs

theorem readLines_line (hline : includeOf buf = none)
    (h : readLines files levels name p (buf :: bufs) = .ok q) :
    ¬((cstr buf).length = lineLen ∧ (cstr buf).getLast? ≠ some '\n') ∧
      ∃ p', plainLine p (words buf) = .ok p' ∧ readLines files levels name p' bufs = .ok q := by
  obtain ⟨incl, heq⟩ := readLines_eq_linesWith files levels name
  rw [heq] at h ⊢
  have hcons := linesWith_cons h
  rwa [hline] at hcons

theorem readLines_of_line (hline : includeOf buf = none)
    (hlong : ¬((cstr buf).length = lineLen ∧ (cstr buf).getLast? ≠ some '\n'))
    (hp : plainLine p (words buf) = .ok q) :
    readLines files levels name p (buf :: bufs) = readLines files levels name q bufs := by
  obtain ⟨incl, heq⟩ := readLines_eq_linesWith files levels name
  rw [heq, linesWith, if_neg hlong, hline, Option.elim_none, hp]
  rfl

theorem readLines_file {content : List Char} (hline : includeOf buf = some val)
    (hpath : includePath name val = some path) (hcontent : files path = some content)
    (h : readLines files (levels + 1) name p (buf :: bufs) = .ok q) :
    ∃ p' remotes, readLines files levels path {} (fgetsAll content) = .ok p' ∧
      finish p' = .ok remotes ∧
      readLines files (levels + 1) name (p.splice remotes) bufs = .ok q := by
  obtain ⟨-, p₁, hp₁, hrest⟩ := linesWith_cons h
  rw [hline, Option.elim_some] at hp₁
  simp only [hpath, hcontent] at hp₁
  obtain ⟨p', hp', hremotes⟩ := Config.bind_ok hp₁
  obtain ⟨remotes, hfinish, hsplice⟩ := Config.bind_ok hremotes
  cases hsplice
  exact ⟨p', remotes, hp', hfinish, hrest⟩

end Lines

end Lirc
