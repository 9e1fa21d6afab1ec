import Lirc.CodeTables

/-!
The physical lines of a file, and what the loop of `read_config_recursive`
makes of them: it fetches a line with a buffer for `LINE_LEN` bytes, of which
the last is the zero. A longer line comes in pieces that are shorter than
`LINE_LEN`, so that the test for a line that is too long never holds.
-/

namespace Lirc

open CString

/-! ### Lines and pieces -/

/-- The lines of a text, each with its newline. -/
def wholeLines : List Char → List (List Char)
  | [] => []
  | c :: cs =>
      if c = '\n' then [c] :: wholeLines cs
      else
        match wholeLines cs with
        | [] => [[c]]
        | line :: lines => (c :: line) :: lines

theorem wholeLines_eq_nil {text : List Char} (h : wholeLines text = []) : text = [] := by
  cases text with
  | nil => rfl
  | cons c cs =>
      rw [wholeLines] at h
      split at h
      · cases h
      · split at h
        · cases h
        · cases h

theorem fgets_nil (n : ℕ) : fgets n [] = ([], []) := by
  cases n with
  | zero => rfl
  | succ n => rfl

/-- A line that fits is fetched whole. -/
theorem wholeLines_cons {text line : List Char} {lines : List (List Char)}
    (h : wholeLines text = line :: lines) :
    text ≠ [] ∧ ∃ rest, wholeLines rest = lines ∧
      ∀ n, line.length ≤ n → fgets n text = (line, rest) := by
  induction text generalizing line with
  | nil => cases h
  | cons c cs ih =>
      refine ⟨List.cons_ne_nil c cs, ?_⟩
      rw [wholeLines] at h
      split at h
      · next hc =>
          obtain ⟨rfl, rfl⟩ := List.cons.inj h
          refine ⟨cs, rfl, fun n hn => ?_⟩
          obtain ⟨m, rfl⟩ := Nat.exists_eq_add_of_le' hn
          simp [fgets, hc]
      · next hc =>
          split at h
          · next hnil =>
              obtain ⟨rfl, rfl⟩ := List.cons.inj h
              refine ⟨[], rfl, fun n hn => ?_⟩
              obtain ⟨m, rfl⟩ := Nat.exists_eq_add_of_le' hn
              simp [wholeLines_eq_nil hnil, fgets, hc, fgets_nil]
          · next line' lines' hcons =>
              obtain ⟨rfl, rfl⟩ := List.cons.inj h
              obtain ⟨-, rest, hrest, hfgets⟩ := ih hcons
              refine ⟨rest, hrest, fun n hn => ?_⟩
              obtain ⟨m, rfl⟩ := Nat.exists_eq_add_of_le' (Nat.one_le_of_lt hn)
              have hm : line'.length ≤ m := by simpa using hn
              simp [fgets, hc, hfgets m hm]

/-- The loop fetches a line that fits as it is. -/
theorem fgetsAll_cons {text line : List Char} {lines : List (List Char)}
    (h : wholeLines text = line :: lines) (hlen : line.length < lineLen) :
    ∃ rest, wholeLines rest = lines ∧ fgetsAll text = line :: fgetsAll rest := by
  obtain ⟨hne, rest, hrest, hfgets⟩ := wholeLines_cons h
  refine ⟨rest, hrest, ?_⟩
  rw [fgetsAll, dif_neg hne, hfgets _ (Nat.le_sub_one_of_lt hlen)]

theorem fgets_length_le (n : ℕ) (s : List Char) : (fgets n s).1.length ≤ n := by
  induction n generalizing s with
  | zero => simp [fgets]
  | succ n ih =>
      cases s with
      | nil => simp [fgets]
      | cons c cs =>
          rw [fgets]
          split
          · simp
          · simpa using ih cs

/-- No piece fills the buffer. -/
theorem length_lt_of_mem_fgetsAll {text buf : List Char} (h : buf ∈ fgetsAll text) :
    buf.length < lineLen := by
  induction text using fgetsAll.induct with
  | case1 => simp [fgetsAll] at h
  | case2 text hne ih =>
      rw [fgetsAll, dif_neg hne] at h
      rcases List.mem_cons.mp h with rfl | h
      · exact Nat.lt_of_le_of_lt (fgets_length_le _ _) (by decide)
      · exact ih h

theorem not_tooLong_of_length_lt {buf : List Char} (h : buf.length < lineLen) :
    ¬TooLong buf := by
  intro hlong
  have hcstr : (cstr buf).length ≤ buf.length := (List.takeWhile_sublist _).length_le
  have hlen := hlong.1
  omega

/-! ### Readers -/

/-- How a reader takes a file apart, and the lines that it refuses. -/
structure LineSource where
  cut : List Char → List (List Char)
  refuses : List Char → Bool

/-- The lines as they are fetched into the buffer. -/
def buffered : LineSource := ⟨fgetsAll, fun buf => decide (TooLong buf)⟩

/-- The lines as they are written, whatever their length. -/
def physical : LineSource := ⟨wholeLines, fun _ => false⟩

theorem buffered_refuses (buf : List Char) : buffered.refuses buf = decide (TooLong buf) := rfl

@[simp] theorem physical_refuses (line : List Char) : physical.refuses line = false := rfl

namespace LineSource

variable (s : LineSource) (files : List Char → Option (List Char))

/-- The loop over the lines, with what an include line does. -/
def lines (incl : List Char → Parser → Config Parser) :
    Parser → List (List Char) → Config Parser
  | p, [] => pure p
  | p, buf :: bufs =>
      if s.refuses buf then .error .parseError
      else do
        let p ← (includeOf buf).elim (plainLine p (words buf)) (incl · p)
        lines incl p bufs

/-- The file that an include line opens. -/
def opened (name val : List Char) : Option (List Char × List Char) :=
  (includePath name val).bind fun path => (files path).map (path, ·)

/-- The loop with files that include others up to `levels` deep. -/
def read : ℕ → List Char → Parser → List (List Char) → Config Parser
  | 0, _ => s.lines fun _ _ => .error .parseError
  | levels + 1, name => s.lines fun val p =>
      match includePath name val with
      | none => .error .parseError
      | some path =>
          match files path with
          | none => .ok p
          | some text => do
              let q ← read levels path {} (s.cut text)
              let remotes ← finish q
              pure (p.splice remotes)

/-- `read_config` with this reader. -/
def readConfig (name text : List Char) : Config (List ConfRemote) := do
  let p ← s.read files (maxIncludes + 1) name {} (s.cut text)
  finish p

/-- What a loop fetches until a line stops it, with what an include line
fetches; `step` reads one line. -/
def fetchedWith (step : Parser → List Char → Config Parser)
    (incl : List Char → List (List Char)) : Parser → List (List Char) → List (List Char)
  | _, [] => []
  | p, buf :: bufs =>
      buf :: ((if s.refuses buf then [] else (includeOf buf).elim [] incl) ++
        match step p buf with
        | .ok q => fetchedWith step incl q bufs
        | .error _ => [])

/-- Everything that is fetched from a file and from the files it includes. -/
def fetched : ℕ → List Char → Parser → List (List Char) → List (List Char)
  | 0, name => s.fetchedWith (fun p buf => s.read files 0 name p [buf]) fun _ => []
  | levels + 1, name =>
      s.fetchedWith (fun p buf => s.read files (levels + 1) name p [buf]) fun val =>
        match opened files name val with
        | none => []
        | some (path, text) => fetched levels path {} (s.cut text)

/-- What is fetched for a configuration. -/
def fetches (name text : List Char) : List (List Char) :=
  s.fetched files (maxIncludes + 1) name {} (s.cut text)

/-- What an include line does in a file with `levels` levels left. -/
def includes (levels : ℕ) (name val : List Char) (p : Parser) : Config Parser :=
  match levels with
  | 0 => .error .parseError
  | levels + 1 =>
      match includePath name val with
      | none => .error .parseError
      | some path =>
          match files path with
          | none => .ok p
          | some text => do
              let q ← s.read files levels path {} (s.cut text)
              let remotes ← finish q
              pure (p.splice remotes)

/-- What an include line fetches in a file with `levels` levels left. -/
def included (levels : ℕ) (name val : List Char) : List (List Char) :=
  match levels with
  | 0 => []
  | levels + 1 =>
      match opened files name val with
      | none => []
      | some (path, text) => s.fetched files levels path {} (s.cut text)

variable {s files} {levels : ℕ} {name buf : List Char} {p : Parser} {bufs : List (List Char)}

theorem read_eq_lines : s.read files levels name = s.lines (s.includes files levels name) := by
  cases levels with
  | zero => rfl
  | succ levels => rfl

theorem read_nil : s.read files levels name p [] = .ok p := by
  rw [read_eq_lines]
  rfl

theorem read_cons : s.read files levels name p (buf :: bufs) =
    (s.read files levels name p [buf] >>= fun q => s.read files levels name q bufs) := by
  simp only [read_eq_lines, lines]
  split
  · rfl
  · cases (includeOf buf).elim (plainLine p (words buf)) (s.includes files levels name · p) with
    | error e => rfl
    | ok q => rfl

theorem fetched_nil : s.fetched files levels name p [] = [] := by
  cases levels with
  | zero => rfl
  | succ levels => rfl

theorem fetched_cons : s.fetched files levels name p (buf :: bufs) =
    buf ::
      ((if s.refuses buf then [] else (includeOf buf).elim [] (s.included files levels name)) ++
      match s.read files levels name p [buf] with
      | .ok q => s.fetched files levels name q bufs
      | .error _ => []) := by
  cases levels with
  | zero => rfl
  | succ levels => rfl

end LineSource

/-- The loop with the buffer is the loop of `read_config_recursive`. -/
theorem lines_buffered (incl : List Char → Parser → Config Parser) :
    buffered.lines incl = linesWith incl := by
  funext p bufs
  induction bufs generalizing p with
  | nil => rfl
  | cons buf bufs ih =>
      rw [LineSource.lines, linesWith]
      simp only [buffered_refuses, decide_eq_true_eq, ih]
      rfl

theorem read_buffered (files : List Char → Option (List Char)) (levels : ℕ) :
    buffered.read files levels = readLines files levels := by
  induction levels with
  | zero =>
      funext name
      exact lines_buffered _
  | succ levels ih =>
      funext name
      rw [LineSource.read, readLines, lines_buffered, ih]
      rfl

theorem readConfig_buffered (files : List Char → Option (List Char)) (name text : List Char) :
    buffered.readConfig files name text = readConfig files name text := by
  rw [LineSource.readConfig, read_buffered]
  rfl

/-! ### Where the pieces are the lines -/

/-- Every line is shorter than the buffer. -/
def Short (lines : List (List Char)) : Prop := ∀ line ∈ lines, line.length < lineLen

section Agreement

variable {files : List Char → Option (List Char)} {levels : ℕ} {name : List Char}

/-- Both readers fetch the same from a file, and come to the same. -/
def Agree (files : List Char → Option (List Char)) (levels : ℕ) (name : List Char) (p : Parser)
    (text : List Char) : Prop :=
  buffered.fetched files levels name p (fgetsAll text) =
      physical.fetched files levels name p (wholeLines text) ∧
    buffered.read files levels name p (fgetsAll text) =
      physical.read files levels name p (wholeLines text)

/-- A file that is included is fetched like a file of its own. -/
theorem included_agree
    (hfiles : ∀ l < levels, ∀ name p text,
      Short (physical.fetched files l name p (wholeLines text)) → Agree files l name p text)
    {val : List Char} (hshort : Short (physical.included files levels name val)) (p : Parser) :
    buffered.included files levels name val = physical.included files levels name val ∧
      buffered.includes files levels name val p = physical.includes files levels name val p := by
  cases levels with
  | zero => exact ⟨rfl, rfl⟩
  | succ levels =>
      simp only [LineSource.included, LineSource.includes, LineSource.opened] at hshort ⊢
      cases hpath : includePath name val with
      | none => exact ⟨rfl, rfl⟩
      | some path =>
          cases htext : files path with
          | none => exact ⟨by simp [htext], by simp [htext]⟩
          | some text =>
              simp only [hpath, htext, Option.bind_some, Option.map_some] at hshort ⊢
              obtain ⟨hfetched, hread⟩ := hfiles levels (Nat.lt_succ_self _) path {} text hshort
              refine ⟨hfetched, ?_⟩
              show (buffered.read files levels path {} (fgetsAll text) >>= _) = _
              rw [hread]
              rfl

/-- One line that fits. -/
theorem line_agree
    (hfiles : ∀ l < levels, ∀ name p text,
      Short (physical.fetched files l name p (wholeLines text)) → Agree files l name p text)
    {line : List Char} (hlen : line.length < lineLen)
    (hshort : Short ((includeOf line).elim [] (physical.included files levels name)))
    (p : Parser) :
    (if buffered.refuses line then []
      else (includeOf line).elim [] (buffered.included files levels name)) =
        (includeOf line).elim [] (physical.included files levels name) ∧
      buffered.read files levels name p [line] = physical.read files levels name p [line] := by
  have hrefuses : buffered.refuses line = false :=
    decide_eq_false (not_tooLong_of_length_lt hlen)
  simp only [LineSource.read_eq_lines, LineSource.lines, hrefuses, physical_refuses]
  cases hincl : includeOf line with
  | none => exact ⟨rfl, rfl⟩
  | some val =>
      rw [hincl] at hshort
      obtain ⟨hfetched, hread⟩ := included_agree hfiles hshort p
      refine ⟨hfetched, ?_⟩
      simp only [Option.elim_some, hread]
      rfl

/-- Where all lines that the loop comes to fit, the pieces are the lines. -/
theorem agree_of_short (levels : ℕ) : ∀ name p text,
    Short (physical.fetched files levels name p (wholeLines text)) →
      Agree files levels name p text := by
  induction levels using Nat.strong_induction_on with
  | h levels hfiles =>
      intro name p text hshort
      -- the lines behind the first are the lines of the rest of the text
      generalize hlines : wholeLines text = lines at hshort
      induction lines generalizing text p with
      | nil =>
          rw [Agree, hlines, wholeLines_eq_nil hlines, fgetsAll, dif_pos rfl]
          simp [LineSource.fetched_nil, LineSource.read_nil]
      | cons line lines ih =>
          rw [LineSource.fetched_cons] at hshort
          have hlen : line.length < lineLen := hshort line List.mem_cons_self
          obtain ⟨rest, hrest, hfgets⟩ := fgetsAll_cons hlines hlen
          obtain ⟨hincl, hread⟩ := @line_agree _ _ name hfiles _ hlen
            (fun l hl => hshort l (by simp [hl])) p
          have hsplit (s : LineSource) (bufs : List (List Char)) :
              s.read files levels name p (line :: bufs) =
                (s.read files levels name p [line] >>= (s.read files levels name · bufs)) :=
            LineSource.read_cons
          rw [Agree, hlines, hfgets, LineSource.fetched_cons, LineSource.fetched_cons, hincl,
            hsplit buffered (fgetsAll rest),
            hsplit physical lines, hread]
          cases hstep : physical.read files levels name p [line] with
          | error e => exact ⟨by simp, rfl⟩
          | ok q =>
              have htail : Short (physical.fetched files levels name q lines) := fun l hl =>
                hshort l (by simp [hstep, hl])
              obtain ⟨hfetched, hrun⟩ := ih q rest hrest htail
              rw [hrest] at hfetched hrun
              exact ⟨by simp [hfetched], hrun⟩

end Agreement

/-- Every piece that the loop fetches is shorter than the buffer. -/
theorem short_fetched (files : List Char → Option (List Char)) (levels : ℕ) (name : List Char)
    (p : Parser) (bufs : List (List Char)) (hbufs : Short bufs) :
    Short (buffered.fetched files levels name p bufs) := by
  induction levels using Nat.strong_induction_on generalizing name p bufs with
  | h levels hfiles =>
      induction bufs generalizing p with
      | nil => simp [LineSource.fetched_nil, Short]
      | cons buf bufs ih =>
          obtain ⟨hbuf, hrest⟩ := List.forall_mem_cons.mp hbufs
          rw [LineSource.fetched_cons]
          intro l hl
          rcases List.mem_cons.mp hl with rfl | hl
          · exact hbuf
          rcases List.mem_append.mp hl with hl | hl
          · -- the pieces of an included file
            split at hl
            · cases hl
            · cases hincl : includeOf buf with
              | none => simp [hincl] at hl
              | some val =>
                  rw [hincl, Option.elim_some] at hl
                  cases levels with
                  | zero => simp [LineSource.included] at hl
                  | succ levels =>
                      simp only [LineSource.included] at hl
                      split at hl
                      · cases hl
                      · next path text hopened =>
                          exact hfiles levels (Nat.lt_succ_self _) path {} (fgetsAll text)
                            (fun _ => length_lt_of_mem_fgetsAll) l hl
          · split at hl
            · next q hstep => exact ih q hrest l hl
            · cases hl

/-- `read_config` takes the lines as they are written, or it refuses the file
for one that is too long. -/
def KeepsLines (files : List Char → Option (List Char)) (name text : List Char) : Prop :=
  (buffered.fetches files name text = physical.fetches files name text ∧
      readConfig files name text = physical.readConfig files name text) ∨
    ((∃ buf ∈ buffered.fetches files name text, TooLong buf) ∧
      readConfig files name text = .error .parseError)

/-- The lines are kept exactly where each of them, newline included, is
shorter than the buffer. -/
theorem readConfig_keepsLines_iff (files : List Char → Option (List Char))
    (name text : List Char) :
    KeepsLines files name text ↔
      ∀ line ∈ physical.fetches files name text, line.length < lineLen := by
  have hpieces : Short (buffered.fetches files name text) :=
    short_fetched files _ name {} _ fun _ => length_lt_of_mem_fgetsAll
  constructor
  · rintro (⟨hfetches, -⟩ | ⟨⟨buf, hbuf, hlong⟩, -⟩)
    · rw [← hfetches]
      exact hpieces
    · exact absurd hlong (not_tooLong_of_length_lt (hpieces buf hbuf))
  · intro hshort
    obtain ⟨hfetches, hread⟩ := agree_of_short (maxIncludes + 1) name {} text hshort
    refine .inl ⟨hfetches, ?_⟩
    rw [← readConfig_buffered]
    show (buffered.read files (maxIncludes + 1) name {} (fgetsAll text) >>= finish) = _
    rw [hread]
    rfl

/-- A signal of three pulses and spaces on one line of 2052 characters. -/
def longSignal : List Char :=
  "begin remote\n name a\n flags RAW_CODES\n begin raw_codes\n name b\n".toList ++
    ("100".toList ++ List.replicate 1019 ' ' ++ "200".toList ++ List.replicate 1020 ' ' ++
      "300\n".toList) ++
    " end raw_codes\nend remote\n".toList

/-- The signals of the first button. -/
def firstSignal (remotes : List ConfRemote) : Option (List ℤ) :=
  (remotes.head?.bind (·.codes)).bind fun codes => codes.head?.bind (·.signals)

theorem longSignal_read :
    (readConfig (fun _ => none) "lircd.conf".toList longSignal).toOption.bind firstSignal =
      some [100, 2, 0, 3, 0] := by decide +kernel

theorem longSignal_written :
    (physical.readConfig (fun _ => none) "lircd.conf".toList longSignal).toOption.bind
      firstSignal = some [100, 200, 300] := by decide +kernel

/-- The second and the third sample are cut in two, and the signal that comes
out has the odd length of one that is accepted. -/
theorem readConfig_splits_line : ¬∀ files name text, KeepsLines files name text := by
  intro h
  have hread := longSignal_read
  rcases h (fun _ => none) "lircd.conf".toList longSignal with ⟨-, hkept⟩ | ⟨-, hrefused⟩
  · rw [hkept, longSignal_written] at hread
    exact absurd hread (by decide)
  · rw [hrefused] at hread
    cases hread

end Lirc
