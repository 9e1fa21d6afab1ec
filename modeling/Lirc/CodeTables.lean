import Lirc.Sections

/-!
Which files make `read_config` follow a pointer that is `NULL`, or return a
remote without a name. The loop is given with the clean-up behind it, and the
pointers it follows are accounted for line by line: `rem` is always there when
it is used, and a code table is missing exactly for a remote that is closed,
or left by an included file, before its codes have ended.
-/

namespace Lirc

open CString

/-! ### The loop with its clean-up -/

/-- The error that remains after the clean-up: the buttons of an open section
are hung into `rem` before everything is freed, and `free_config` tests every
pointer it follows. -/
def cleanUp (p : Parser) : ConfigError :=
  match p.mode with
  | .none | .remote => .parseError
  | .codes _ | .rawCodes _ | .rawName _ _ _ =>
      if p.rem.isNone then .nullPointer else .parseError

/-- `rem->next`, which is set where `top_rem` is not `NULL`. -/
def setNext (p : Parser) : Config Unit :=
  if p.rem.isNone ∧ p.chain ≠ [] then .error .nullPointer else .ok ()

/-- A line is as long as the buffer. -/
def TooLong (buf : List Char) : Prop :=
  (cstr buf).length = lineLen ∧ (cstr buf).getLast? ≠ some '\n'

instance (buf : List Char) : Decidable (TooLong buf) := inferInstanceAs (Decidable (_ ∧ _))

/-- One round of the loop, with what an include line does. -/
def lineWith (incl : List Char → Parser → Config Parser) (p : Parser) (buf : List Char) :
    Config Parser :=
  if TooLong buf then .error .parseError
  else
    match includeOf buf with
    | some val => incl val p
    | none => do
        if beginsRemote buf ∧ p.mode = .none then setNext p
        plainLine p (words buf)

/-- The loop, and the clean-up after a line with an error and at the end of a
file that ends within a section. -/
def linesToEnd (incl : List Char → Parser → Config Parser) :
    Parser → List (List Char) → Config Parser
  | p, [] => if p.mode = .none then .ok p else .error (cleanUp p)
  | p, buf :: bufs =>
      match lineWith incl p buf with
      | .ok q => linesToEnd incl q bufs
      | .error .parseError => .error (cleanUp p)
      | .error .nullPointer => .error .nullPointer

/-- `read_config_recursive` -/
def readConfigRecursive (files : List Char → Option (List Char)) :
    ℕ → List Char → List Char → Config (List ConfRemote)
  | 0, _, text => linesToEnd (fun _ _ => .error .parseError) {} (fgetsAll text) >>= finish
  | levels + 1, name, text =>
      linesToEnd (fun val p =>
        match includePath name val with
        | none => .error .parseError
        | some path =>
            match files path with
            | none => .ok p
            | some content => do
                setNext p
                let remotes ← readConfigRecursive files levels path content
                pure (p.splice remotes)) {} (fgetsAll text) >>= finish

/-! ### Runs of the loop -/

/-- What an include line does in a file with `levels` levels left. -/
def includeLine (files : List Char → Option (List Char)) (levels : ℕ) (name val : List Char)
    (p : Parser) : Config Parser :=
  match levels with
  | 0 => .error .parseError
  | levels + 1 =>
      match includePath name val with
      | none => .error .parseError
      | some path =>
          match files path with
          | none => .ok p
          | some text => do
              let q ← readLines files levels path {} (fgetsAll text)
              let remotes ← finish q
              pure (p.splice remotes)

/-- A line of a file, without the clean-up. -/
def readLine (files : List Char → Option (List Char)) (levels : ℕ) (name : List Char)
    (p : Parser) (buf : List Char) : Config Parser :=
  if TooLong buf then .error .parseError
  else (includeOf buf).elim (plainLine p (words buf)) (includeLine files levels name · p)

section Lines

variable {files : List Char → Option (List Char)} {levels : ℕ} {name buf val path : List Char}
  {p q : Parser} {bufs : List (List Char)}

theorem readLines_eq_includeLine :
    readLines files levels name = linesWith (includeLine files levels name) := by
  cases levels with
  | zero => rfl
  | succ levels => rfl

theorem readLines_cons : readLines files levels name p (buf :: bufs) =
    (readLine files levels name p buf >>= fun p => readLines files levels name p bufs) := by
  rw [readLines_eq_includeLine, linesWith, readLine]
  split
  · next hlong =>
      rw [if_pos (show TooLong buf from hlong)]
      rfl
  · next hlong => rw [if_neg (show ¬TooLong buf from hlong)]

theorem readLines_single :
    readLines files levels name p [buf] = readLine files levels name p buf := by
  rw [readLines_cons]
  cases readLine files levels name p buf with
  | error e => rfl
  | ok q => exact readLines_nil

/-- The loop fails as the first line does that is not read. -/
theorem readLines_error_iff {e : ConfigError} : readLines files levels name p bufs = .error e ↔
    ∃ pre post q, ∃ buf, bufs = pre ++ buf :: post ∧ readLines files levels name p pre = .ok q ∧
      readLine files levels name q buf = .error e := by
  constructor
  · intro h
    induction bufs generalizing p with
    | nil => simp [readLines_nil] at h
    | cons buf bufs ih =>
        rw [readLines_cons] at h
        cases hline : readLine files levels name p buf with
        | error e' =>
            rw [hline] at h
            cases h
            exact ⟨[], bufs, p, buf, rfl, readLines_nil, hline⟩
        | ok q =>
            rw [hline] at h
            obtain ⟨pre, post, q', buf', rfl, hpre, hbuf⟩ := ih h
            refine ⟨buf :: pre, post, q', buf', rfl, ?_, hbuf⟩
            rw [readLines_cons, hline]
            exact hpre
  · rintro ⟨pre, post, q, buf, rfl, hpre, hbuf⟩
    rw [readLines_append, hpre]
    show readLines files levels name q (buf :: post) = _
    rw [readLines_cons, hbuf]
    rfl

end Lines

/-! ### What one line does -/

/-- The outcome of a line that is read, by the kind of the line. -/
inductive LineRead (files : List Char → Option (List Char)) (p : Parser) (buf : List Char) :
    ℕ → List Char → Parser → Prop
  | begins {levels : ℕ} {name : List Char} (hline : includeOf buf = none)
      (hbuf : beginsRemote buf = true) (hmode : p.mode = .none) :
      LineRead files p buf levels name { p.append {} with mode := .remote }
  | ends {levels : ℕ} {name : List Char} {rem rem' : ConfRemote} (hline : includeOf buf = none)
      (hbuf : endsRemote buf = true) (hmode : p.mode = .remote) (hrem : p.rem = some rem)
      (hcheck : sanityChecks rem = .ok rem') :
      LineRead files p buf levels name { p with rem := some rem', mode := .none, after := [] }
  | inside {levels : ℕ} {name : List Char} {q : Parser} (hline : includeOf buf = none)
      (hbuf : endsRemote buf = false) (hmode : p.mode ≠ .none) (hq : q.Inside)
      (hbefore : q.before = p.before) (hafter : q.after = p.after) :
      LineRead files p buf levels name q
  | outside {levels : ℕ} {name : List Char} (hline : includeOf buf = none)
      (hbuf : beginsRemote buf = false) (hmode : p.mode = .none) :
      LineRead files p buf levels name p
  | missing {levels : ℕ} {name val path : List Char} (hline : includeOf buf = some val)
      (hpath : includePath name val = some path) (hmissing : files path = none) :
      LineRead files p buf (levels + 1) name p
  | file {levels : ℕ} {name val path content : List Char} {remotes : List ConfRemote}
      (hline : includeOf buf = some val) (hpath : includePath name val = some path)
      (hcontent : files path = some content)
      (hread : (readLines files levels path {} (fgetsAll content) >>= finish) = .ok remotes) :
      LineRead files p buf (levels + 1) name (p.splice remotes)

section Lines

variable {files : List Char → Option (List Char)} {levels : ℕ} {name buf val path : List Char}
  {p q : Parser} {bufs : List (List Char)}

/-- A line of a section changes the current remote alone. -/
theorem plainLine_around {ws : List (List Char)}
    (hbegin : sectionWords "begin".toList "remote".toList ws = false)
    (hend : sectionWords "end".toList "remote".toList ws = false)
    (h : plainLine p ws = .ok q) : q.before = p.before ∧ q.after = p.after := by
  have hself := plainLine_frame p p.before p.after hbegin hend
  have hp : p.frame p.before p.after = p := rfl
  rw [hp, h] at hself
  have hq : q = q.frame p.before p.after := Except.ok.inj hself
  exact ⟨by rw [hq]; rfl, by rw [hq]; rfl⟩

theorem plainLine_lineRead (hline : includeOf buf = none) (hrem : p.mode ≠ .none → p.rem.isSome)
    (h : plainLine p (words buf) = .ok q) : LineRead files p buf levels name q := by
  cases hbegin : beginsRemote buf with
  | true =>
      rw [plainLine_begin hbegin] at h
      obtain ⟨_, hmode, hq⟩ := Config.bind_ok h
      cases hq
      exact .begins hline hbegin (checkMode_ok hmode)
  | false =>
      by_cases hmode : p.mode = .none
      · rw [plainLine_outside hmode hbegin] at h
        cases hempty : plainLine {} (words buf) with
        | error e =>
            rw [hempty] at h
            cases h
        | ok u =>
            rw [hempty] at h
            cases h
            exact .outside hline hbegin hmode
      · cases hend : endsRemote buf with
        | true =>
            rw [plainLine_end hend] at h
            obtain ⟨_, hmode, hrest⟩ := Config.bind_ok h
            obtain ⟨p', hp', hq⟩ := Config.bind_ok hrest
            obtain ⟨rem, rem', hsome, hcheck, rfl⟩ := onRem_ok hp'
            cases hq
            exact .ends hline hend (checkMode_ok hmode) hsome hcheck
        | false =>
            obtain ⟨hbefore, hafter⟩ := plainLine_around hbegin hend h
            have hinside := plainLine_inside ⟨hmode, hrem hmode⟩ hbegin hend h
            exact .inside hline hend hmode hinside hbefore hafter

theorem readLine_lineRead (hrem : p.mode ≠ .none → p.rem.isSome)
    (h : readLine files levels name p buf = .ok q) : LineRead files p buf levels name q := by
  rw [readLine] at h
  split at h
  · cases h
  cases hline : includeOf buf with
  | none =>
      rw [hline] at h
      exact plainLine_lineRead hline hrem h
  | some val =>
      rw [hline, Option.elim_some] at h
      cases levels with
      | zero => cases h
      | succ levels =>
          rw [includeLine] at h
          split at h
          · cases h
          · next path hpath =>
              split at h
              · next hmissing =>
                  cases h
                  exact .missing hline hpath hmissing
              · next content hcontent =>
                  obtain ⟨u, hu, hremotes⟩ := Config.bind_ok h
                  obtain ⟨remotes, hfinish, hq⟩ := Config.bind_ok hremotes
                  cases hq
                  refine .file hline hpath hcontent ?_
                  rw [hu]
                  exact hfinish

end Lines

/-! ### The pointers of the parser -/

/-- `rem` points to a remote when the parser is inside one, and when there is
a list; what `rem->next` leads to has been read to its end. -/
structure Parser.Placed (p : Parser) : Prop where
  rem : p.mode ≠ .none → p.rem.isSome
  chain : p.rem = none → p.chain = []
  after : ∀ r ∈ p.after, r.codes.isSome

theorem Parser.Placed.start : Parser.Placed {} where
  rem h := absurd rfl h
  chain _ := rfl
  after _ h := absurd h List.not_mem_nil

/-- The remotes of a list that was read have their codes. -/
theorem finish_codes {p : Parser} {remotes : List ConfRemote} (h : finish p = .ok remotes) :
    ∀ r ∈ remotes, r.codes.isSome := by
  obtain ⟨-, hcodes, rfl⟩ := finish_ok h
  intro r hr
  obtain ⟨r', hr', rfl⟩ := List.mem_map.mp ((sortByBitCount_perm _).mem_iff.mp hr)
  rw [postProcess_codes]
  exact hcodes r' hr'

section Placed

variable {files : List Char → Option (List Char)} {levels : ℕ} {name buf : List Char}
  {p q : Parser} {bufs : List (List Char)}

theorem LineRead.placed (h : LineRead files p buf levels name q) (hp : p.Placed) : q.Placed := by
  cases h with
  | begins =>
      exact ⟨fun _ => rfl, fun h => absurd h (Option.some_ne_none _),
        fun r hr => absurd hr List.not_mem_nil⟩
  | ends =>
      exact ⟨fun h => absurd rfl h, fun h => absurd h (Option.some_ne_none _),
        fun r hr => absurd hr List.not_mem_nil⟩
  | inside hline hbuf hmode hq hbefore hafter =>
      refine ⟨fun _ => hq.2, fun h => ?_, hafter ▸ hp.after⟩
      have hsome := hq.2
      rw [h] at hsome
      exact absurd hsome Bool.false_ne_true
  | outside => exact hp
  | missing => exact hp
  | @file levels name val path content remotes hline hpath hcontent hread =>
      obtain ⟨u, -, hfinish⟩ := Config.bind_ok hread
      have hcodes := finish_codes hfinish
      cases remotes with
      | nil =>
          refine ⟨hp.rem, fun h => ?_, fun r hr => absurd hr List.not_mem_nil⟩
          have hchain := hp.chain h
          rw [Parser.chain] at hchain ⊢
          exact List.append_eq_nil_iff.mpr ⟨(List.append_eq_nil_iff.mp hchain).1, rfl⟩
      | cons rem after =>
          exact ⟨fun _ => rfl, fun h => absurd h (Option.some_ne_none _),
            fun r hr => hcodes r (List.mem_cons_of_mem _ hr)⟩

/-- Every line is read with the pointers in place. -/
theorem readLines_placed (hp : p.Placed) (h : readLines files levels name p bufs = .ok q) :
    q.Placed := by
  induction bufs generalizing p with
  | nil =>
      rw [readLines_nil] at h
      cases h
      exact hp
  | cons buf bufs ih =>
      rw [readLines_cons] at h
      obtain ⟨p', hline, hrest⟩ := Config.bind_ok h
      exact ih ((readLine_lineRead hp.rem hline).placed hp) hrest

end Placed

/-! ### Values that are tested -/

/-- No `NULL` pointer is followed on the way to the value. -/
def Tested {α : Type} (x : Config α) : Prop := x ≠ .error .nullPointer

namespace Tested

variable {α β : Type} {x : Config α}

theorem ok (a : α) : Tested (.ok a : Config α) := nofun

theorem parseError : Tested (.error .parseError : Config α) := nofun

theorem bind {f : α → Config β} (hx : Tested x) (hf : ∀ a, x = .ok a → Tested (f a)) :
    Tested (x >>= f) := by
  cases x with
  | error e =>
      intro h
      exact hx (congrArg Except.error (Except.error.inj h))
  | ok a => exact hf a rfl

theorem map (hx : Tested x) (f : α → β) : Tested (x.map f) := by
  cases x with
  | error e =>
      intro h
      exact hx (congrArg Except.error (Except.error.inj h))
  | ok a => exact ok _

theorem ite {c : Prop} [Decidable c] {y : Config α} (hx : Tested x) (hy : Tested y) :
    Tested (if c then x else y) := by
  split
  · exact hx
  · exact hy

theorem foldlM {γ : Type} {f : β → γ → Config β} (hf : ∀ b c, Tested (f b c)) (b : β)
    (cs : List γ) : Tested (cs.foldlM f b) := by
  induction cs generalizing b with
  | nil => exact ok b
  | cons c cs ih =>
      rw [List.foldlM_cons]
      exact (hf b c).bind fun b' _ => ih b'

theorem mapM {γ : Type} {f : γ → Config β} (hf : ∀ c, Tested (f c)) (cs : List γ) :
    Tested (cs.mapM f) := by
  induction cs with
  | nil => exact ok []
  | cons c cs ih =>
      rw [List.mapM_cons]
      exact (hf c).bind fun b _ => ih.bind fun bs _ => ok (b :: bs)

end Tested

theorem sStrtocode_tested (val : List Char) : Tested (sStrtocode val) := by
  simp only [sStrtocode]
  split
  · exact .parseError
  · exact .ite (.ok _) .parseError

theorem sStrtou32_tested (val : List Char) : Tested (sStrtou32 val) :=
  .ite .parseError (.ok _)

theorem sStrtoi_tested (val : List Char) : Tested (sStrtoi val) :=
  .ite .parseError (.ok _)

theorem sStrtolircT_tested (val : List Char) : Tested (sStrtolircT val) :=
  (sStrtou32_tested val).map _

theorem parseFlags_tested (val : List Char) : Tested (parseFlags val) := by
  refine .foldlM (fun flags flag => ?_) 0 _
  rw [addFlag]
  split
  · exact .parseError
  · exact .ite .parseError (.ok _)

theorem serialMode_tested (val : List Char) (rem : ConfRemote) : Tested (serialMode val rem) := by
  rw [serialMode.eq_def]
  split
  · next bits parity stop =>
      refine .ite (.bind ?_ fun parity _ => .bind ?_ fun stop _ => .ok _) .parseError
      · rw [parityOf]
        split
        · exact .ok _
        · exact .ok _
        · exact .ok _
        · exact .parseError
      · exact .ite (.ok _) ((sStrtou32_tested _).map _)
  · exact .parseError

theorem oneValue_tested : ∀ f ∈ oneValue, ∀ val rem, Tested (f.2 val rem) := by
  simp only [oneValue, List.forall_mem_cons]
  repeat' apply And.intro
  all_goals first
    | exact fun val rem => .ok _
    | exact fun val rem => (sStrtoi_tested val).map _
    | exact fun val rem => (sStrtou32_tested val).map _
    | exact fun val rem => (sStrtolircT_tested val).map _
    | exact fun val rem => (sStrtocode_tested val).map _
    | exact fun val rem => (parseFlags_tested val).map _
    | exact serialMode_tested
    | exact fun f hf => absurd hf List.not_mem_nil

theorem twoValues_tested : ∀ f ∈ twoValues, ∀ val val2 rem, Tested (f.2 val val2 rem) := by
  have hpair : ∀ set val val2 rem, Tested (pair set val val2 rem) := fun set val val2 rem =>
    (sStrtolircT_tested val).bind fun p _ => (sStrtolircT_tested val2).bind fun s _ => .ok _
  simp only [twoValues, List.forall_mem_cons]
  repeat' apply And.intro
  all_goals first
    | exact hpair _
    | exact fun f hf => absurd hf List.not_mem_nil

theorem defineRemote_tested (key val : List Char) (val2 : Option (List Char)) (rem : ConfRemote) :
    Tested (defineRemote key val val2 rem) := by
  rw [defineRemote.eq_def]
  refine .ite ?_ ?_
  · refine .bind ?_ fun gap2 _ => (sStrtou32_tested val).bind fun gap _ => .ok _
    cases val2 with
    | none => exact .ok _
    | some val2 => exact sStrtou32_tested val2
  · split
    · next f hf => exact oneValue_tested f (List.mem_of_find?_eq_some hf) val rem
    · split
      · exact .parseError
      · split
        · next f hf => exact twoValues_tested f (List.mem_of_find?_eq_some hf) val _ rem
        · exact .parseError

theorem addSignal_tested (signals : List ℤ) (val : List Char) : Tested (addSignal signals val) :=
  (sStrtou32_tested val).map _

theorem addRaw_tested (list : List IrNcode) (name : Name) (signals : List ℤ) :
    Tested (addRaw list name signals) :=
  .ite .parseError (.ok _)

theorem codeLine_tested (p : Parser) (list : List IrNcode) (key val : List Char)
    (more : List (List Char)) : Tested (codeLine p list key val more) :=
  .bind ((sStrtocode_tested val).bind fun _ _ =>
    (Tested.mapM sStrtocode_tested _).bind fun _ _ => .ok _) fun _ _ => .ok _

theorem rawLine_tested (p : Parser) (key val : List Char) (more : List (List Char)) :
    Tested (rawLine p key val more) := by
  rw [rawLine]
  refine .ite ?_ ?_
  · split
    · exact (addRaw_tested _ _ _).bind fun list _ => .ok _
    · exact .ok _
    · exact .parseError
  · split
    · exact (Tested.foldlM addSignal_tested _ _).bind fun signals _ => .ok _
    · exact .parseError

theorem checkMode_tested (p : Parser) (mode : Mode) : Tested (checkMode p mode) :=
  .ite (.ok _) .parseError

theorem Parser.onRem_tested {p : Parser} {f : ConfRemote → Config ConfRemote}
    (hrem : p.rem.isSome) (hf : ∀ rem, Tested (f rem)) : Tested (p.onRem f) := by
  obtain ⟨rem, hrem⟩ := Option.isSome_iff_exists.mp hrem
  rw [Parser.onRem, hrem]
  exact (hf rem).map _

theorem isSome_of_mode {p : Parser} (hrem : p.mode ≠ .none → p.rem.isSome) {mode : Mode}
    (hmode : p.mode = mode) (hne : mode ≠ .none) : p.rem.isSome :=
  hrem (hmode ▸ hne)

section Sections

variable {p : Parser} (hrem : p.mode ≠ .none → p.rem.isSome)
include hrem

theorem beginSection_tested (key val : List Char) (more : List (List Char)) :
    Tested (beginSection p key val more) := by
  have hcodes (f : ConfRemote → ConfRemote) (mode : Mode) :
      Tested (checkMode p .remote >>= fun _ =>
        p.onRem (fun rem => if rem.codes.isSome then .error .parseError else .ok (f rem)) >>=
          fun p => pure { p with mode }) := by
    refine (checkMode_tested _ _).bind fun _ hmode => ?_
    have hsome := isSome_of_mode hrem (checkMode_ok hmode) (by simp)
    exact (Parser.onRem_tested hsome fun rem => .ite .parseError (.ok _)).bind fun p _ => .ok _
  rw [beginSection]
  refine .ite (hcodes id _) (.ite (hcodes (·.setProtocol rawCodes) _) (.ite ?_ ?_))
  · exact (checkMode_tested _ _).bind fun _ _ => .ok _
  · split
    · exact codeLine_tested _ _ _ _ _
    · exact .parseError

theorem endSection_tested (key : List Char) {val : List Char}
    (hval : strcaseeq "remote".toList val = false) (more : List (List Char)) :
    Tested (endSection p key val more) := by
  rw [endSection, hval, if_neg Bool.false_ne_true]
  refine .ite ?_ (.ite ?_ ?_)
  · split
    · next list hmode =>
        have hsome := isSome_of_mode hrem hmode (by simp)
        exact (Parser.onRem_tested hsome fun rem => .ok _).bind fun p _ => .ok _
    · exact .parseError
  · -- the mode is that of a section with raw codes
    have hlist : Tested (endRawCodes p.mode) := by
      rw [endRawCodes.eq_def]
      split
      · exact addRaw_tested _ _ _
      · exact .ok _
      · exact .parseError
    refine hlist.bind fun list hok => ?_
    have hmode : p.mode ≠ .none := by
      intro hmode
      rw [hmode] at hok
      cases hok
    exact (Parser.onRem_tested (hrem hmode) fun rem => .ok _).bind fun p _ => .ok _
  · split
    · exact codeLine_tested _ _ _ _ _
    · exact .parseError

theorem bodyLine_tested (key val : List Char) (more : List (List Char)) :
    Tested (bodyLine p key val more) := by
  rw [bodyLine]
  split
  · exact .ok _
  · next hmode =>
      exact Parser.onRem_tested (isSome_of_mode hrem hmode (by simp)) fun rem =>
        defineRemote_tested _ _ _ rem
  · exact codeLine_tested _ _ _ _ _
  · exact rawLine_tested _ _ _ _
  · exact rawLine_tested _ _ _ _

theorem plainLine_tested {ws : List (List Char)}
    (hend : sectionWords "end".toList "remote".toList ws = false) :
    Tested (plainLine p ws) := by
  match ws with
  | [] => exact .ok _
  | [key] =>
      rw [plainLine]
      split
      · exact (addSignal_tested _ _).bind fun _ _ => .ok _
      · exact .parseError
  | key :: val :: more =>
      rw [sectionWords, Bool.and_eq_false_iff] at hend
      rw [plainLine]
      split
      · exact beginSection_tested hrem key val more
      split
      · next hkey =>
          exact endSection_tested hrem key (hend.resolve_left (by rw [hkey]; decide)) more
      · exact bodyLine_tested hrem key val more

end Sections

/-! ### The line that follows `NULL` -/

/-- The line ends a remote that has a name and no code table. -/
structure EndsBare (p : Parser) (buf : List Char) (rem : ConfRemote) : Prop where
  line : includeOf buf = none
  ends : endsRemote buf = true
  mode : p.mode = .remote
  current : p.rem = some rem
  name : rem.name.isSome
  codes : rem.codes = none

theorem sanityChecks_null_iff {rem : ConfRemote} : sanityChecks rem = .error .nullPointer ↔
    rem.name.isSome ∧ rem.codes = none ∧ rem.isRaw = false := by
  rw [sanityChecks]
  cases rem.name with
  | none => simp
  | some name =>
      cases rem.isRaw with
      | true => simp
      | false =>
          cases rem.codes with
          | none => simp
          | some codes => simp

theorem plainLine_null_iff {p : Parser} {buf : List Char} (hline : includeOf buf = none)
    (hrem : p.mode ≠ .none → p.rem.isSome) :
    plainLine p (words buf) = .error .nullPointer ↔
      ∃ rem, EndsBare p buf rem ∧ rem.isRaw = false := by
  cases hend : endsRemote buf with
  | false =>
      refine ⟨fun h => absurd h (plainLine_tested hrem hend), ?_⟩
      rintro ⟨rem, h, -⟩
      exact absurd (hend.symm.trans h.ends) Bool.false_ne_true
  | true =>
      rw [plainLine_end hend, checkMode]
      by_cases hmode : p.mode = .remote
      · obtain ⟨rem, hsome⟩ := Option.isSome_iff_exists.mp (isSome_of_mode hrem hmode (by simp))
        have hcheck : (p.onRem sanityChecks >>= fun p =>
            (pure { p with mode := .none, after := [] } : Config Parser)) = .error .nullPointer ↔
              sanityChecks rem = .error .nullPointer := by
          rw [Parser.onRem, hsome]
          cases hrem' : sanityChecks rem with
          | error e => simp [hrem', Except.map, bind, Except.bind]
          | ok rem' => simp [hrem', Except.map, bind, Except.bind, pure, Except.pure]
        rw [if_pos hmode]
        refine hcheck.trans (sanityChecks_null_iff.trans ⟨?_, ?_⟩)
        · rintro ⟨hname, hcodes, hraw⟩
          exact ⟨rem, ⟨hline, hend, hmode, hsome, hname, hcodes⟩, hraw⟩
        · rintro ⟨rem', h, hraw⟩
          obtain rfl : rem = rem' := Option.some.inj (hsome.symm.trans h.current)
          exact ⟨h.name, h.codes, hraw⟩
      · rw [if_neg hmode]
        refine ⟨by rintro ⟨⟩, ?_⟩
        rintro ⟨rem, h, -⟩
        exact absurd h.mode hmode

theorem finish_null_iff {p : Parser} : finish p = .error .nullPointer ↔
    p.mode = .none ∧ ∃ rem ∈ p.chain, rem.codes = none := by
  rw [finish, checkMode]
  by_cases hmode : p.mode = .none
  · rw [if_pos hmode]
    show (if _ then _ else _) = _ ↔ _
    by_cases hany : p.chain.any (·.codes.isNone) = true
    · rw [if_pos hany]
      simpa [hmode, List.any_eq_true] using hany
    · rw [if_neg hany]
      refine ⟨by rintro ⟨⟩, ?_⟩
      rintro ⟨-, rem, hrem, hcodes⟩
      exact absurd (List.any_eq_true.mpr ⟨rem, hrem, by rw [hcodes]; rfl⟩) hany
  · rw [if_neg hmode]
    exact ⟨by rintro ⟨⟩, fun h => absurd h.1 hmode⟩

/-! ### Remotes without codes -/

/-- The remotes that the parser is done with. -/
def Parser.done (p : Parser) : List ConfRemote :=
  if p.mode = .none then p.chain else p.before ++ p.after

/-- The file begins a remote, itself or in a file it includes. -/
inductive Yields (files : List Char → Option (List Char)) :
    ℕ → List Char → List (List Char) → Prop
  | begins {levels : ℕ} {name buf : List Char} {bufs : List (List Char)} (hmem : buf ∈ bufs)
      (hline : includeOf buf = none) (hbuf : beginsRemote buf = true) : Yields files levels name bufs
  | file {levels : ℕ} {name buf val path content : List Char} {bufs : List (List Char)}
      (hmem : buf ∈ bufs) (hline : includeOf buf = some val)
      (hpath : includePath name val = some path) (hcontent : files path = some content)
      (hchild : Yields files levels path (fgetsAll content)) : Yields files (levels + 1) name bufs

/-- Within a remote the line includes a file with remotes: the parser goes on
with the first of these, and the remote is left. -/
inductive Leaves (files : List Char → Option (List Char)) :
    ℕ → List Char → Parser → List Char → ConfRemote → Prop
  | file {levels : ℕ} {name buf val path content : List Char} {p : Parser} {rem : ConfRemote}
      (hmode : p.mode ≠ .none) (hrem : p.rem = some rem) (hline : includeOf buf = some val)
      (hpath : includePath name val = some path) (hcontent : files path = some content)
      (hyields : Yields files levels path (fgetsAll content)) :
      Leaves files (levels + 1) name p buf rem

section Done

variable {files : List Char → Option (List Char)} {levels : ℕ} {name buf : List Char}
  {p q : Parser} {bufs : List (List Char)}

theorem Yields.cons_iff : Yields files levels name (buf :: bufs) ↔
    Yields files levels name [buf] ∨ Yields files levels name bufs := by
  constructor
  · intro h
    cases h with
    | begins hmem hline hbuf =>
        obtain rfl | hmem := List.mem_cons.mp hmem
        · exact .inl (.begins List.mem_cons_self hline hbuf)
        · exact .inr (.begins hmem hline hbuf)
    | file hmem hline hpath hcontent hchild =>
        obtain rfl | hmem := List.mem_cons.mp hmem
        · exact .inl (.file List.mem_cons_self hline hpath hcontent hchild)
        · exact .inr (.file hmem hline hpath hcontent hchild)
  · rintro (h | h)
    · cases h with
      | begins hmem hline hbuf =>
          exact .begins (List.mem_singleton.mp hmem ▸ List.mem_cons_self) hline hbuf
      | file hmem hline hpath hcontent hchild =>
          exact .file (List.mem_singleton.mp hmem ▸ List.mem_cons_self) hline hpath hcontent hchild
    · cases h with
      | begins hmem hline hbuf => exact .begins (List.mem_cons_of_mem _ hmem) hline hbuf
      | file hmem hline hpath hcontent hchild =>
          exact .file (List.mem_cons_of_mem _ hmem) hline hpath hcontent hchild

theorem Parser.Placed.chain_eq_nil_iff (h : p.Placed) : p.chain = [] ↔ p.rem = none := by
  refine ⟨fun hchain => ?_, h.chain⟩
  rw [Parser.chain, List.append_eq_nil_iff, List.append_eq_nil_iff] at hchain
  exact Option.toList_eq_nil_iff.mp hchain.1.2

/-- A file yields remotes as its lines say. -/
def YieldsRight (files : List Char → Option (List Char)) (levels : ℕ) : Prop :=
  ∀ name content remotes,
    (readLines files levels name {} (fgetsAll content) >>= finish) = .ok remotes →
      (remotes ≠ [] ↔ Yields files levels name (fgetsAll content))

theorem yields_file {levels : ℕ} {val path content : List Char} (hline : includeOf buf = some val)
    (hpath : includePath name val = some path) (hcontent : files path = some content) :
    Yields files (levels + 1) name [buf] ↔ Yields files levels path (fgetsAll content) := by
  constructor
  · intro h
    cases h with
    | begins hmem hnone hbuf =>
        rw [List.mem_singleton.mp hmem, hline] at hnone
        cases hnone
    | file hmem hline' hpath' hcontent' hchild =>
        rw [List.mem_singleton.mp hmem, hline] at hline'
        cases hline'
        rw [hpath] at hpath'
        cases hpath'
        rw [hcontent] at hcontent'
        cases hcontent'
        exact hchild
  · exact fun h => .file List.mem_cons_self hline hpath hcontent h

theorem LineRead.rem_iff (hright : ∀ l < levels, YieldsRight files l)
    (h : LineRead files p buf levels name q) (hp : p.Placed) :
    q.rem.isSome ↔ p.rem.isSome ∨ Yields files levels name [buf] := by
  cases h with
  | begins hline hbuf hmode =>
      exact ⟨fun _ => .inr (.begins List.mem_cons_self hline hbuf), fun _ => rfl⟩
  | ends hline hbuf hmode hrem hcheck =>
      exact ⟨fun _ => .inl (by rw [hrem]; rfl), fun _ => rfl⟩
  | inside hline hbuf hmode hq => exact ⟨fun _ => .inl (hp.rem hmode), fun _ => hq.2⟩
  | outside hline hbuf hmode =>
      refine ⟨.inl, fun h => h.resolve_right fun hy => ?_⟩
      cases hy with
      | begins hmem hnone hbegins =>
          rw [List.mem_singleton.mp hmem, hbuf] at hbegins
          exact absurd hbegins Bool.false_ne_true
      | file hmem hsome =>
          rw [List.mem_singleton.mp hmem, hline] at hsome
          cases hsome
  | missing hline hpath hmissing =>
      refine ⟨.inl, fun h => h.resolve_right fun hy => ?_⟩
      cases hy with
      | begins hmem hnone =>
          rw [List.mem_singleton.mp hmem, hline] at hnone
          cases hnone
      | file hmem hsome hpath' hcontent =>
          rw [List.mem_singleton.mp hmem, hline] at hsome
          cases hsome
          rw [hpath] at hpath'
          cases hpath'
          rw [hmissing] at hcontent
          cases hcontent
  | @file levels name val path content remotes hline hpath hcontent hread =>
      have hyields := hright levels levels.lt_succ_self path content remotes hread
      rw [yields_file hline hpath hcontent, ← hyields]
      cases remotes with
      | nil => exact ⟨.inl, fun h => h.resolve_right fun hne => hne rfl⟩
      | cons rem after => exact ⟨fun _ => .inr (List.cons_ne_nil _ _), fun _ => rfl⟩

theorem readLines_rem_iff (hright : ∀ l < levels, YieldsRight files l) (hp : p.Placed)
    (h : readLines files levels name p bufs = .ok q) :
    q.rem.isSome ↔ p.rem.isSome ∨ Yields files levels name bufs := by
  induction bufs generalizing p with
  | nil =>
      rw [readLines_nil] at h
      cases h
      refine ⟨.inl, fun h => h.resolve_right fun hy => ?_⟩
      cases hy with
      | begins hmem => exact absurd hmem List.not_mem_nil
      | file hmem => exact absurd hmem List.not_mem_nil
  | cons buf bufs ih =>
      rw [readLines_cons] at h
      obtain ⟨p', hline, hrest⟩ := Config.bind_ok h
      have hread := readLine_lineRead hp.rem hline
      rw [ih (hread.placed hp) hrest, hread.rem_iff hright hp, or_assoc, ← Yields.cons_iff]

theorem yieldsRight (files : List Char → Option (List Char)) (levels : ℕ) :
    YieldsRight files levels := by
  induction levels using Nat.strong_induction_on with
  | _ levels ih =>
      intro name content remotes hread
      obtain ⟨q, hq, hfinish⟩ := Config.bind_ok hread
      have hrem := readLines_rem_iff ih .start hq
      have hplaced := readLines_placed .start hq
      obtain ⟨-, -, rfl⟩ := finish_ok hfinish
      have hnil : sortByBitCount (q.chain.map postProcess) = [] ↔ q.rem = none := by
        rw [← hplaced.chain_eq_nil_iff, ← List.length_eq_zero_iff, ← List.length_eq_zero_iff,
          (sortByBitCount_perm _).length_eq, List.length_map]
      rw [Ne, hnil, ← Option.not_isSome_iff_eq_none, not_not, hrem]
      exact ⟨fun h => h.resolve_left Bool.false_ne_true, .inr⟩

/-- The line takes the parser away from a remote without a code table. -/
inductive LeavesBare (files : List Char → Option (List Char)) (levels : ℕ) (name : List Char)
    (p : Parser) (buf : List Char) : Prop
  | ends {rem : ConfRemote} (h : EndsBare p buf rem)
  | file {rem : ConfRemote} (h : Leaves files levels name p buf rem) (hcodes : rem.codes = none)

/-- Some remote of a list has no code table. -/
def Bare (remotes : List ConfRemote) : Prop := ∃ rem ∈ remotes, rem.codes = none

theorem bare_append (as bs : List ConfRemote) : Bare (as ++ bs) ↔ Bare as ∨ Bare bs := by
  simp only [Bare, List.mem_append, or_and_right, exists_or]

theorem not_bare {as : List ConfRemote} (h : ∀ r ∈ as, r.codes.isSome) : ¬Bare as := by
  rintro ⟨r, hr, hcodes⟩
  have hsome := h r hr
  rw [hcodes] at hsome
  exact absurd hsome Bool.false_ne_true

theorem bare_singleton {rem : ConfRemote} : Bare [rem] ↔ rem.codes = none := by
  simp [Bare]

theorem sanityChecks_ok {rem rem' : ConfRemote} (h : sanityChecks rem = .ok rem') :
    rem.name.isSome ∧ (rem'.codes = none ↔ rem.codes = none) := by
  rw [sanityChecks] at h
  cases hname : rem.name with
  | none =>
      rw [hname] at h
      cases h
  | some name =>
      refine ⟨rfl, ?_⟩
      simp only [hname] at h
      split at h
      · cases h
        rfl
      · cases hcodes : rem.codes with
        | none =>
            rw [hcodes] at h
            cases h
        | some codes =>
            rw [hcodes] at h
            cases h
            simp

/-! Between two remotes a list comes behind the others; within a remote its
first takes the place of the current one. -/

theorem splice_done_closed (hmode : p.mode = .none) (remotes : List ConfRemote) :
    (p.splice remotes).done = p.before ++ p.rem.toList ++ remotes := by
  cases remotes with
  | nil => exact if_pos hmode
  | cons first after =>
      show (if p.mode = .none then p.before ++ p.rem.toList ++ [first] ++ after else _) = _
      rw [if_pos hmode, List.append_assoc (p.before ++ p.rem.toList)]
      rfl

theorem splice_done_nil (hmode : p.mode ≠ .none) : (p.splice []).done = p.before := by
  show (if p.mode = .none then _ else p.before ++ []) = _
  rw [if_neg hmode, List.append_nil]

theorem splice_done_cons (hmode : p.mode ≠ .none) (first : ConfRemote) (after : List ConfRemote) :
    (p.splice (first :: after)).done = p.before ++ p.rem.toList ++ after :=
  if_neg hmode

theorem Parser.Placed.splice_bare (hp : p.Placed) {remotes : List ConfRemote}
    (hcodes : ¬Bare remotes) : Bare (p.splice remotes).done ↔
      Bare p.done ∨ p.mode ≠ .none ∧ remotes ≠ [] ∧ ∃ rem, p.rem = some rem ∧ rem.codes = none := by
  have hafter := not_bare hp.after
  by_cases hmode : p.mode = .none
  · have hdone : p.done = p.before ++ p.rem.toList ++ p.after := if_pos hmode
    rw [splice_done_closed hmode, hdone, bare_append, bare_append (p.before ++ p.rem.toList) p.after]
    tauto
  · obtain ⟨rem, hrem⟩ := Option.isSome_iff_exists.mp (hp.rem hmode)
    have hdone : p.done = p.before ++ p.after := if_neg hmode
    have hcurrent : (∃ r, p.rem = some r ∧ r.codes = none) ↔ rem.codes = none := by
      simp [hrem]
    rw [hdone, hcurrent, bare_append]
    cases remotes with
    | nil =>
        rw [splice_done_nil hmode]
        tauto
    | cons first after =>
        have hrest : ¬Bare after := fun ⟨r, hr, hnone⟩ =>
          hcodes ⟨r, List.mem_cons_of_mem _ hr, hnone⟩
        have hne : first :: after ≠ [] := List.cons_ne_nil _ _
        rw [splice_done_cons hmode, hrem, bare_append, bare_append, Option.toList_some,
          bare_singleton]
        tauto

theorem LineRead.bare_iff (h : LineRead files p buf levels name q) (hp : p.Placed) :
    Bare q.done ↔ Bare p.done ∨ LeavesBare files levels name p buf := by
  have hafter := not_bare hp.after
  cases h with
  | begins hline hbuf hmode =>
      have hnot : ¬LeavesBare files levels name p buf := by
        rintro (⟨h⟩ | ⟨h, -⟩)
        · exact Mode.noConfusion (hmode.symm.trans h.mode)
        · cases h with
          | file hne => exact hne hmode
      have hdone : p.done = p.before ++ p.rem.toList ++ p.after := if_pos hmode
      have hq : Parser.done { p.append {} with mode := .remote } =
          p.before ++ p.rem.toList ++ [] := if_neg Mode.noConfusion
      rw [hq, hdone, List.append_nil, bare_append (p.before ++ p.rem.toList) p.after]
      tauto
  | @ends _ _ rem rem' hline hbuf hmode hrem hcheck =>
      obtain ⟨hname, hcodes⟩ := sanityChecks_ok hcheck
      have hleaves : LeavesBare files levels name p buf ↔ rem.codes = none := by
        constructor
        · rintro (⟨h⟩ | ⟨h, -⟩)
          · rw [Option.some.inj (hrem.symm.trans h.current)]
            exact h.codes
          · cases h with
            | file _ _ hsome =>
                rw [hline] at hsome
                cases hsome
        · exact fun h => .ends ⟨hline, hbuf, hmode, hrem, hname, h⟩
      have hdone : p.done = p.before ++ p.after := if_neg (hmode ▸ Mode.noConfusion)
      have hq : Parser.done { p with rem := some rem', mode := .none, after := [] } =
          p.before ++ [rem'] ++ [] := if_pos rfl
      rw [hq, hdone, hleaves, List.append_nil, bare_append, bare_append, bare_singleton, hcodes]
      tauto
  | inside hline hbuf hmode hq hbefore hafter' =>
      have hnot : ¬LeavesBare files levels name p buf := by
        rintro (⟨h⟩ | ⟨h, -⟩)
        · exact Bool.false_ne_true (hbuf.symm.trans h.ends)
        · cases h with
          | file _ _ hsome =>
              rw [hline] at hsome
              cases hsome
      have hdone : p.done = p.before ++ p.after := if_neg hmode
      have hqdone : q.done = p.before ++ p.after := by
        rw [Parser.done, if_neg hq.1, hbefore, hafter']
      rw [hqdone, hdone]
      tauto
  | outside hline hbuf hmode =>
      have hnot : ¬LeavesBare files levels name p buf := by
        rintro (⟨h⟩ | ⟨h, -⟩)
        · exact Mode.noConfusion (hmode.symm.trans h.mode)
        · cases h with
          | file hne => exact hne hmode
      tauto
  | @missing levels name val path hline hpath hmissing =>
      have hnot : ¬LeavesBare files (levels + 1) name p buf := by
        rintro (⟨h⟩ | ⟨h, -⟩)
        · rw [h.line] at hline
          cases hline
        · cases h with
          | file _ _ hline' hpath' hcontent =>
              rw [hline] at hline'
              cases hline'
              rw [hpath] at hpath'
              cases hpath'
              rw [hmissing] at hcontent
              cases hcontent
      tauto
  | @file levels name val path content remotes hline hpath hcontent hread =>
      have hyields := yieldsRight files levels path content remotes hread
      have hcodes : ¬Bare remotes := by
        obtain ⟨u, -, hfinish⟩ := Config.bind_ok hread
        exact not_bare (finish_codes hfinish)
      rw [hp.splice_bare hcodes, hyields]
      refine or_congr_right ⟨?_, ?_⟩
      · rintro ⟨hmode, hy, rem, hrem, hnone⟩
        exact .file (.file hmode hrem hline hpath hcontent hy) hnone
      · rintro (⟨h⟩ | ⟨h, hnone⟩)
        · rw [h.line] at hline
          cases hline
        · cases h with
          | file hmode hrem hline' hpath' hcontent' hy =>
              rw [hline] at hline'
              cases hline'
              rw [hpath] at hpath'
              cases hpath'
              rw [hcontent] at hcontent'
              cases hcontent'
              exact ⟨hmode, hy, _, hrem, hnone⟩

/-- The remotes without codes in the list of a file that is read. -/
theorem readLines_bare_iff (hp : p.Placed) (h : readLines files levels name p bufs = .ok q) :
    Bare q.done ↔ Bare p.done ∨ ∃ pre post u, ∃ buf, bufs = pre ++ buf :: post ∧
      readLines files levels name p pre = .ok u ∧ LeavesBare files levels name u buf := by
  induction bufs generalizing p with
  | nil =>
      rw [readLines_nil] at h
      cases h
      simp
  | cons buf bufs ih =>
      rw [readLines_cons] at h
      obtain ⟨p', hline, hrest⟩ := Config.bind_ok h
      have hread := readLine_lineRead hp.rem hline
      rw [ih (hread.placed hp) hrest, hread.bare_iff hp, or_assoc]
      refine or_congr_right ⟨?_, ?_⟩
      · rintro (hleaves | ⟨pre, post, u, buf', rfl, hpre, hleaves⟩)
        · exact ⟨[], bufs, p, buf, rfl, readLines_nil, hleaves⟩
        · refine ⟨buf :: pre, post, u, buf', rfl, ?_, hleaves⟩
          rw [readLines_cons, hline]
          exact hpre
      · rintro ⟨pre, post, u, buf', heq, hpre, hleaves⟩
        cases pre with
        | nil =>
            rw [readLines_nil] at hpre
            cases hpre
            cases heq
            exact .inl hleaves
        | cons b pre =>
            cases heq
            rw [readLines_cons, hline] at hpre
            exact .inr ⟨pre, post, u, buf', rfl, hpre, hleaves⟩

end Done

/-! ### The code tables of a file -/

/-- In the file, or in one that it includes, a code table is missing that is
followed: that of a remote, not raw, at its end, or, if the file is read
without an error, that of any remote that it has ended or left. -/
inductive LacksCodes (files : List Char → Option (List Char)) :
    ℕ → List Char → List (List Char) → Prop
  | ends {levels : ℕ} {name buf : List Char} {pre post : List (List Char)} {p : Parser}
      {rem : ConfRemote} (hpre : readLines files levels name {} pre = .ok p)
      (hshort : ¬TooLong buf) (hends : EndsBare p buf rem) (hraw : rem.isRaw = false) :
      LacksCodes files levels name (pre ++ buf :: post)
  | left {levels : ℕ} {name buf : List Char} {pre post : List (List Char)} {p q : Parser}
      (hpre : readLines files levels name {} pre = .ok p)
      (hleaves : LeavesBare files levels name p buf)
      (hall : readLines files levels name {} (pre ++ buf :: post) = .ok q)
      (hclosed : q.mode = .none) : LacksCodes files levels name (pre ++ buf :: post)
  | file {levels : ℕ} {name buf val path content : List Char} {pre post : List (List Char)}
      {p : Parser} (hpre : readLines files (levels + 1) name {} pre = .ok p)
      (hshort : ¬TooLong buf) (hline : includeOf buf = some val)
      (hpath : includePath name val = some path) (hcontent : files path = some content)
      (hchild : LacksCodes files levels path (fgetsAll content)) :
      LacksCodes files (levels + 1) name (pre ++ buf :: post)

section Lacks

variable {files : List Char → Option (List Char)} {levels : ℕ} {name buf : List Char}
  {p q : Parser} {bufs : List (List Char)}

theorem Config.bind_null_iff {α β : Type} {x : Config α} {f : α → Config β} :
    (x >>= f) = .error .nullPointer ↔
      x = .error .nullPointer ∨ ∃ a, x = .ok a ∧ f a = .error .nullPointer := by
  cases x with
  | error e =>
      refine ⟨fun h => .inl (congrArg Except.error (Except.error.inj h)), ?_⟩
      rintro (h | ⟨a, h, -⟩)
      · exact congrArg Except.error (Except.error.inj h)
      · cases h
  | ok a =>
      refine ⟨fun h => .inr ⟨a, rfl, h⟩, ?_⟩
      rintro (h | ⟨b, h, hf⟩)
      · cases h
      · cases h
        exact hf

theorem includeLine_null_iff {levels : ℕ} {val : List Char} :
    includeLine files (levels + 1) name val p = .error .nullPointer ↔
      ∃ path content, includePath name val = some path ∧ files path = some content ∧
        (readLines files levels path {} (fgetsAll content) >>= finish) =
          .error .nullPointer := by
  rw [includeLine]
  cases hpath : includePath name val with
  | none => simp
  | some path =>
      cases hcontent : files path with
      | none => simp [hcontent]
      | some content =>
          simp only [hcontent, Option.some.injEq, exists_and_left, exists_eq_left']
          simp only [Config.bind_null_iff]
          refine or_congr_right (exists_congr fun u => and_congr_right fun _ => ?_)
          refine ⟨fun h => h.resolve_right ?_, fun h => Or.inl h⟩
          rintro ⟨remotes, -, hremotes⟩
          cases hremotes

theorem readLine_null_iff (hrem : p.mode ≠ .none → p.rem.isSome) :
    readLine files levels name p buf = .error .nullPointer ↔
      ¬TooLong buf ∧ ((∃ rem, EndsBare p buf rem ∧ rem.isRaw = false) ∨
        ∃ val, includeOf buf = some val ∧
          includeLine files levels name val p = .error .nullPointer) := by
  rw [readLine]
  by_cases hlong : TooLong buf
  · rw [if_pos hlong]
    exact ⟨nofun, fun h => absurd hlong h.1⟩
  · rw [if_neg hlong]
    cases hline : includeOf buf with
    | none =>
        rw [Option.elim_none, plainLine_null_iff hline hrem]
        simp [hlong]
    | some val =>
        have hends : ¬∃ rem, EndsBare p buf rem ∧ rem.isRaw = false := by
          rintro ⟨rem, h, -⟩
          rw [h.line] at hline
          cases hline
        simp [hlong, hends]

theorem LacksCodes.null (h : LacksCodes files levels name bufs) :
    (readLines files levels name {} bufs >>= finish) = .error .nullPointer := by
  induction h with
  | @ends levels name buf pre post p rem hpre hshort hends hraw =>
      have hrem := (readLines_placed .start hpre).rem
      have hnull : readLine files levels name p buf = .error .nullPointer :=
        (readLine_null_iff hrem).mpr ⟨hshort, .inl ⟨_, hends, hraw⟩⟩
      exact Config.bind_null_iff.mpr
        (.inl (readLines_error_iff.mpr ⟨_, _, _, _, rfl, hpre, hnull⟩))
  | left hpre hleaves hall hclosed =>
      have hbare := (readLines_bare_iff .start hall).mpr
        (.inr ⟨_, _, _, _, rfl, hpre, hleaves⟩)
      rw [Parser.done, if_pos hclosed] at hbare
      rw [hall]
      exact finish_null_iff.mpr ⟨hclosed, hbare⟩
  | @file levels name buf val path content pre post p hpre hshort hline hpath hcontent hchild ih =>
      have hrem := (readLines_placed .start hpre).rem
      have hincl : includeLine files (levels + 1) name val p = .error .nullPointer :=
        includeLine_null_iff.mpr ⟨_, _, hpath, hcontent, ih⟩
      have hnull : readLine files (levels + 1) name p buf = .error .nullPointer :=
        (readLine_null_iff hrem).mpr ⟨hshort, .inr ⟨_, hline, hincl⟩⟩
      exact Config.bind_null_iff.mpr
        (.inl (readLines_error_iff.mpr ⟨_, _, _, _, rfl, hpre, hnull⟩))

/-- Nothing else makes the parser follow `NULL`. -/
theorem readLines_null_iff : (readLines files levels name {} bufs >>= finish) =
    .error .nullPointer ↔ LacksCodes files levels name bufs := by
  refine ⟨?_, LacksCodes.null⟩
  induction levels using Nat.strong_induction_on generalizing name bufs with
  | _ levels ih =>
      intro h
      obtain hrun | ⟨q, hall, hfinish⟩ := Config.bind_null_iff.mp h
      · obtain ⟨pre, post, p, buf, rfl, hpre, hbuf⟩ := readLines_error_iff.mp hrun
        obtain ⟨hshort, hends | ⟨val, hline, hincl⟩⟩ :=
          (readLine_null_iff (readLines_placed .start hpre).rem).mp hbuf
        · obtain ⟨rem, hends, hraw⟩ := hends
          exact .ends hpre hshort hends hraw
        · cases levels with
          | zero => cases hincl
          | succ levels =>
              obtain ⟨path, content, hpath, hcontent, hchild⟩ := includeLine_null_iff.mp hincl
              exact .file hpre hshort hline hpath hcontent (ih levels levels.lt_succ_self hchild)
      · obtain ⟨hclosed, hbare⟩ := finish_null_iff.mp hfinish
        have hdone : Bare q.done := by rwa [Parser.done, if_pos hclosed]
        obtain hstart | ⟨pre, post, p, buf, rfl, hpre, hleaves⟩ :=
          (readLines_bare_iff .start hall).mp hdone
        · exact absurd hstart (by simp [Bare, Parser.done, Parser.chain])
        · exact .left hpre hleaves hall hclosed

/-! ### The clean-up -/

theorem cleanUp_eq (hp : p.Placed) : cleanUp p = .parseError := by
  have hsome := hp.rem
  rw [cleanUp]
  cases hmode : p.mode with
  | none => rfl
  | remote => rfl
  | codes list => simp [hmode, Option.isSome_iff_ne_none] at hsome ⊢; exact hsome
  | rawCodes list => simp [hmode, Option.isSome_iff_ne_none] at hsome ⊢; exact hsome
  | rawName list name signals =>
      simp [hmode, Option.isSome_iff_ne_none] at hsome ⊢; exact hsome

theorem setNext_eq (hp : p.Placed) : setNext p = .ok () := by
  refine if_neg ?_
  rintro ⟨hnone, hchain⟩
  exact hchain (hp.chain (Option.isNone_iff_eq_none.mp hnone))

/-- What an include line does in `readConfigRecursive`. -/
def includeRecursive (files : List Char → Option (List Char)) (levels : ℕ)
    (name val : List Char) (p : Parser) : Config Parser :=
  match levels with
  | 0 => .error .parseError
  | levels + 1 =>
      match includePath name val with
      | none => .error .parseError
      | some path =>
          match files path with
          | none => .ok p
          | some content => do
              setNext p
              let remotes ← readConfigRecursive files levels path content
              pure (p.splice remotes)

theorem readConfigRecursive_eq_includeRecursive (text : List Char) :
    readConfigRecursive files levels name text =
      (linesToEnd (includeRecursive files levels name) {} (fgetsAll text) >>= finish) := by
  cases levels with
  | zero => rfl
  | succ levels => rfl

theorem linesToEnd_eq {incl : List Char → Parser → Config Parser}
    (hincl : ∀ val p, Parser.Placed p → incl val p = includeLine files levels name val p)
    (hp : p.Placed) : (linesToEnd incl p bufs >>= finish) =
      (readLines files levels name p bufs >>= finish) := by
  induction bufs generalizing p with
  | nil =>
      rw [readLines_nil, linesToEnd]
      by_cases hmode : p.mode = .none
      · rw [if_pos hmode]
      · rw [if_neg hmode, cleanUp_eq hp]
        show _ = finish p
        rw [finish, checkMode, if_neg hmode]
        rfl
  | cons buf bufs ih =>
      have hline : lineWith incl p buf = readLine files levels name p buf := by
        rw [lineWith, readLine]
        split
        · rfl
        · cases includeOf buf with
          | none =>
              simp only [Option.elim_none]
              split
              · rw [setNext_eq hp]
                rfl
              · rfl
          | some val => exact hincl val p hp
      rw [linesToEnd, hline, readLines_cons]
      cases hread : readLine files levels name p buf with
      | error e =>
          cases e with
          | parseError =>
              simp only [cleanUp_eq hp]
              rfl
          | nullPointer => rfl
      | ok q => exact ih ((readLine_lineRead hp.rem hread).placed hp)

/-- `rem` is never `NULL` where it is followed, in the clean-up neither. -/
theorem readConfigRecursive_eq (text : List Char) : readConfigRecursive files levels name text =
    (readLines files levels name {} (fgetsAll text) >>= finish) := by
  induction levels generalizing name text with
  | zero => exact linesToEnd_eq (fun _ _ _ => rfl) .start
  | succ levels ih =>
      rw [readConfigRecursive_eq_includeRecursive]
      refine linesToEnd_eq (fun val p hp => ?_) .start
      rw [includeRecursive, includeLine]
      cases includePath name val with
      | none => rfl
      | some path =>
          cases hcontent : files path with
          | none => simp only [hcontent]
          | some content =>
              simp only [hcontent, setNext_eq hp, ih, bind_assoc]
              rfl

end Lacks

theorem readConfigRecursive_eq_readConfig (files : List Char → Option (List Char))
    (name text : List Char) :
    readConfigRecursive files (maxIncludes + 1) name text = readConfig files name text :=
  readConfigRecursive_eq text

/-! ### Remotes without a name -/

/-- Behind this line nothing of the list that an include line has hung in is kept but its first
remote: the line begins a remote, or it includes a file that is there. -/
inductive CutsList (files : List Char → Option (List Char)) (name buf : List Char) : Prop
  | begins (hline : includeOf buf = none) (hbuf : beginsRemote buf = true)
  | file {val path content : List Char} (hline : includeOf buf = some val)
      (hpath : includePath name val = some path) (hcontent : files path = some content)

/-- The file, read to its end, leaves this remote in its list without a name: a line of its
section, before its name has been given, includes a file that begins a remote; or a file that
leaves it is included between two remotes, and it is the first of the list of that file, or no
line follows that cuts this list off. -/
inductive LeavesUnnamed (files : List Char → Option (List Char)) :
    ℕ → List Char → List (List Char) → ConfRemote → Prop
  | left {levels : ℕ} {name buf : List Char} {pre post : List (List Char)} {p q : Parser}
      {rem : ConfRemote} (hpre : readLines files levels name {} pre = .ok p)
      (hleaves : Leaves files levels name p buf rem) (hname : rem.name = none)
      (hall : readLines files levels name {} (pre ++ buf :: post) = .ok q)
      (hclosed : q.mode = .none) :
      LeavesUnnamed files levels name (pre ++ buf :: post) (postProcess rem)
  | file {levels : ℕ} {name buf val path content : List Char} {pre post : List (List Char)}
      {p q : Parser} {remotes : List ConfRemote} {rem : ConfRemote}
      (hpre : readLines files (levels + 1) name {} pre = .ok p) (hmode : p.mode = .none)
      (hline : includeOf buf = some val) (hpath : includePath name val = some path)
      (hcontent : files path = some content)
      (hread : (readLines files levels path {} (fgetsAll content) >>= finish) = .ok remotes)
      (hchild : LeavesUnnamed files levels path (fgetsAll content) rem)
      (hkept : rem ∈ remotes.head? ∨ ∀ line ∈ post, ¬CutsList files name line)
      (hall : readLines files (levels + 1) name {} (pre ++ buf :: post) = .ok q)
      (hclosed : q.mode = .none) :
      LeavesUnnamed files (levels + 1) name (pre ++ buf :: post) (postProcess rem)

section Unnamed

variable {files : List Char → Option (List Char)} {levels : ℕ} {name buf : List Char}
  {p q : Parser} {bufs pre post : List (List Char)} {rem : ConfRemote}

/-- The remotes that no later line can drop or change. -/
def Parser.settled (p : Parser) : List ConfRemote :=
  p.before ++ if p.mode = .none then p.rem.toList else []

theorem settled_closed (hmode : p.mode = .none) : p.settled = p.before ++ p.rem.toList := by
  rw [Parser.settled, if_pos hmode]

theorem settled_open (hmode : p.mode ≠ .none) : p.settled = p.before := by
  rw [Parser.settled, if_neg hmode, List.append_nil]

theorem settled_subset_chain : p.settled ⊆ p.chain := by
  intro r hr
  by_cases hmode : p.mode = .none
  · rw [settled_closed hmode] at hr
    exact List.mem_append_left _ hr
  · rw [settled_open hmode] at hr
    exact List.mem_append_left _ (List.mem_append_left _ hr)

theorem settled_append (hmode : p.mode = .none) :
    Parser.settled { p.append {} with mode := .remote } = p.settled := by
  rw [settled_closed hmode]
  exact settled_open Mode.noConfusion

theorem settled_splice_cons (hmode : p.mode = .none) (first : ConfRemote)
    (after : List ConfRemote) : (p.splice (first :: after)).settled = p.settled ++ [first] := by
  rw [settled_closed hmode]
  exact settled_closed hmode

theorem settled_splice_open (hmode : p.mode ≠ .none) (first : ConfRemote)
    (after : List ConfRemote) :
    (p.splice (first :: after)).settled = p.settled ++ p.rem.toList := by
  rw [settled_open hmode]
  exact settled_open hmode

theorem LineRead.settled (h : LineRead files p buf levels name q) : p.settled ⊆ q.settled := by
  cases h with
  | begins _ _ hmode => rw [settled_append hmode]; exact List.Subset.refl _
  | ends _ _ hmode hrem hcheck =>
      rw [settled_open (hmode ▸ Mode.noConfusion)]
      exact List.subset_append_left _ _
  | inside _ _ hmode hq hbefore =>
      rw [settled_open hmode, settled_open hq.1, hbefore]
      exact List.Subset.refl _
  | outside => exact List.Subset.refl _
  | missing => exact List.Subset.refl _
  | @file _ _ _ _ _ remotes =>
      cases remotes with
      | nil => exact List.Subset.refl _
      | cons first after =>
          by_cases hmode : p.mode = .none
          · rw [settled_splice_cons hmode]
            exact List.subset_append_left _ _
          · rw [settled_splice_open hmode]
            exact List.subset_append_left _ _

theorem readLines_settled (hp : p.Placed) (h : readLines files levels name p bufs = .ok q) :
    p.settled ⊆ q.settled := by
  induction bufs generalizing p with
  | nil =>
      rw [readLines_nil] at h
      cases h
      exact List.Subset.refl _
  | cons buf bufs ih =>
      rw [readLines_cons] at h
      obtain ⟨p', hline, hrest⟩ := Config.bind_ok h
      have hread := readLine_lineRead hp.rem hline
      exact List.Subset.trans hread.settled (ih (hread.placed hp) hrest)

/-- Between two remotes a line changes nothing if it does not cut the list off. -/
theorem LineRead.eq_of_not_cuts (h : LineRead files p buf levels name q) (hmode : p.mode = .none)
    (hcuts : ¬CutsList files name buf) : q = p := by
  cases h with
  | begins hline hbuf => exact absurd (.begins hline hbuf) hcuts
  | ends _ _ hremote => exact Mode.noConfusion (hmode.symm.trans hremote)
  | inside _ _ hne => exact absurd hmode hne
  | outside => rfl
  | missing => rfl
  | file hline hpath hcontent => exact absurd (.file hline hpath hcontent) hcuts

theorem readLines_eq_of_not_cuts (hp : p.Placed) (hmode : p.mode = .none)
    (hcuts : ∀ line ∈ bufs, ¬CutsList files name line)
    (h : readLines files levels name p bufs = .ok q) : q = p := by
  induction bufs with
  | nil =>
      rw [readLines_nil] at h
      exact (Except.ok.inj h).symm
  | cons buf bufs ih =>
      obtain ⟨hbuf, hbufs⟩ := List.forall_mem_cons.mp hcuts
      rw [readLines_cons] at h
      obtain ⟨p', hline, hrest⟩ := Config.bind_ok h
      obtain rfl := (readLine_lineRead hp.rem hline).eq_of_not_cuts hmode hbuf
      exact ih hbufs hrest

theorem sanityChecks_name {rem rem' : ConfRemote} (h : sanityChecks rem = .ok rem') :
    rem'.name.isSome := by
  rw [sanityChecks] at h
  cases hname : rem.name with
  | none =>
      rw [hname] at h
      cases h
  | some name =>
      simp only [hname] at h
      split at h
      · cases h
        rw [hname]
        rfl
      · split at h
        · cases h
        · cases h
          rfl

theorem mem_finish {remotes : List ConfRemote} (h : finish p = .ok remotes)
    (hrem : rem ∈ p.chain) : postProcess rem ∈ remotes := by
  obtain ⟨-, -, rfl⟩ := finish_ok h
  exact (sortByBitCount_perm _).mem_iff.mpr (List.mem_map_of_mem hrem)

/-- The rest of the lines behind one that has been read. -/
theorem readLines_rest (hpre : readLines files levels name {} pre = .ok p)
    (hall : readLines files levels name {} (pre ++ buf :: post) = .ok q) :
    ∃ u, readLine files levels name p buf = .ok u ∧ LineRead files p buf levels name u ∧
      u.Placed ∧ readLines files levels name u post = .ok q := by
  have hp := readLines_placed .start hpre
  rw [readLines_append, hpre] at hall
  have hrest : readLines files levels name p (buf :: post) = .ok q := hall
  rw [readLines_cons] at hrest
  obtain ⟨u, hline, hrest⟩ := Config.bind_ok hrest
  have hread := readLine_lineRead hp.rem hline
  exact ⟨u, hline, hread, hread.placed hp, hrest⟩

/-- What an include line does, when it is read. -/
theorem LineRead.of_file {val path content : List Char} {remotes : List ConfRemote}
    (h : LineRead files p buf (levels + 1) name q) (hline : includeOf buf = some val)
    (hpath : includePath name val = some path) (hcontent : files path = some content)
    (hread : (readLines files levels path {} (fgetsAll content) >>= finish) = .ok remotes) :
    q = p.splice remotes := by
  cases h with
  | begins hnone => rw [hnone] at hline; cases hline
  | ends hnone => rw [hnone] at hline; cases hline
  | inside hnone => rw [hnone] at hline; cases hline
  | outside hnone => rw [hnone] at hline; cases hline
  | missing hline' hpath' hmissing =>
      rw [hline] at hline'
      cases hline'
      rw [hpath] at hpath'
      cases hpath'
      rw [hcontent] at hmissing
      cases hmissing
  | file hline' hpath' hcontent' hread' =>
      rw [hline] at hline'
      cases hline'
      rw [hpath] at hpath'
      cases hpath'
      rw [hcontent] at hcontent'
      cases hcontent'
      rw [hread] at hread'
      cases hread'
      rfl

/-- A remote that is left comes into the list, and stays there. -/
theorem Leaves.settled (h : Leaves files levels name p buf rem)
    (hread : LineRead files p buf levels name q) : rem ∈ q.settled := by
  cases h with
  | @file levels _ _ val path content _ _ hmode hrem hline hpath hcontent hyields =>
      cases hread with
      | begins hnone => rw [hnone] at hline; cases hline
      | ends hnone => rw [hnone] at hline; cases hline
      | inside hnone => rw [hnone] at hline; cases hline
      | outside hnone => rw [hnone] at hline; cases hline
      | missing hline' hpath' hmissing =>
          rw [hline] at hline'
          cases hline'
          rw [hpath] at hpath'
          cases hpath'
          rw [hcontent] at hmissing
          cases hmissing
      | @file _ _ _ _ _ remotes hline' hpath' hcontent' hread' =>
          rw [hline] at hline'
          cases hline'
          rw [hpath] at hpath'
          cases hpath'
          rw [hcontent] at hcontent'
          cases hcontent'
          have hne := (yieldsRight files levels path content remotes hread').mpr hyields
          obtain ⟨first, after, rfl⟩ := List.exists_cons_of_ne_nil hne
          rw [settled_splice_open hmode, hrem]
          exact List.mem_append_right _ List.mem_cons_self

/-- A file does leave such a remote in its list. -/
theorem LeavesUnnamed.mem (h : LeavesUnnamed files levels name bufs rem) :
    rem.name = none ∧ ∀ remotes,
      (readLines files levels name {} bufs >>= finish) = .ok remotes → rem ∈ remotes := by
  induction h with
  | left hpre hleaves hname hall hclosed =>
      refine ⟨by rw [postProcess_name]; exact hname, fun remotes hremotes => ?_⟩
      rw [hall] at hremotes
      obtain ⟨u, -, hread, hplaced, hrest⟩ := readLines_rest hpre hall
      have hmem := readLines_settled hplaced hrest (hleaves.settled hread)
      exact mem_finish hremotes (settled_subset_chain hmem)
  | @file levels name buf val path content pre post p q childRemotes rem hpre hmode hline hpath
      hcontent hread hchild hkept hall hclosed ih =>
      refine ⟨by rw [postProcess_name]; exact ih.1, fun remotes hremotes => ?_⟩
      rw [hall] at hremotes
      obtain ⟨u, -, hlineRead, hplaced, hrest⟩ := readLines_rest hpre hall
      obtain rfl := hlineRead.of_file hline hpath hcontent hread
      refine mem_finish hremotes ?_
      obtain ⟨first, after, rfl⟩ := List.exists_cons_of_ne_nil (List.ne_nil_of_mem (ih.2 _ hread))
      rcases hkept with hfirst | hcuts
      · obtain rfl : first = rem := Option.some.inj hfirst
        refine settled_subset_chain (readLines_settled hplaced hrest ?_)
        rw [settled_splice_cons hmode]
        exact List.mem_append_right _ List.mem_cons_self
      · rw [readLines_eq_of_not_cuts hplaced hmode hcuts hrest]
        show rem ∈ p.before ++ p.rem.toList ++ [first] ++ after
        rw [List.append_assoc, List.singleton_append]
        exact List.mem_append_right _ (ih.2 _ hread)

/-- When the lines `pre` have been read: a remote without a name that is settled will be left in
the list of the file, and so will one behind it, if no line cuts it off. -/
structure Traced (files : List Char → Option (List Char)) (levels : ℕ) (name : List Char)
    (pre : List (List Char)) (p : Parser) : Prop where
  stays : ∀ r ∈ p.settled, r.name = none → ∀ post q,
    readLines files levels name {} (pre ++ post) = .ok q → q.mode = .none →
      LeavesUnnamed files levels name (pre ++ post) (postProcess r)
  behind : p.mode = .none → ∀ r ∈ p.after, r.name = none → ∀ post q,
    (∀ line ∈ post, ¬CutsList files name line) →
    readLines files levels name {} (pre ++ post) = .ok q → q.mode = .none →
      LeavesUnnamed files levels name (pre ++ post) (postProcess r)

theorem Traced.start : Traced files levels name [] {} where
  stays _ hr := absurd hr List.not_mem_nil
  behind _ _ hr := absurd hr List.not_mem_nil

/-- One more line. The remotes of an included file that have no name are left there. -/
theorem Traced.line (ht : Traced files levels name pre p)
    (hpre : readLines files levels name {} pre = .ok p) (h : LineRead files p buf levels name q)
    (hchild : ∀ l val path content remotes, levels = l + 1 → includeOf buf = some val →
      includePath name val = some path → files path = some content →
      (readLines files l path {} (fgetsAll content) >>= finish) = .ok remotes →
      ∀ r ∈ remotes, r.name = none → LeavesUnnamed files l path (fgetsAll content) r) :
    Traced files levels name (pre ++ [buf]) q := by
  have hcons : ∀ post, pre ++ [buf] ++ post = pre ++ buf :: post := fun post => by simp
  have hstays : ∀ r ∈ p.settled, r.name = none → ∀ post q,
      readLines files levels name {} (pre ++ [buf] ++ post) = .ok q → q.mode = .none →
        LeavesUnnamed files levels name (pre ++ [buf] ++ post) (postProcess r) := by
    intro r hr hname post q hall hclosed
    rw [hcons] at hall ⊢
    exact ht.stays r hr hname _ q hall hclosed
  have hsame (hnot : ¬CutsList files name buf) : Traced files levels name (pre ++ [buf]) p := by
    refine ⟨hstays, fun hmode r hr hname post q hcuts hall hclosed => ?_⟩
    rw [hcons] at hall ⊢
    exact ht.behind hmode r hr hname _ q (List.forall_mem_cons.mpr ⟨hnot, hcuts⟩) hall hclosed
  cases h with
  | begins hline hbuf hmode =>
      refine ⟨fun r hr => hstays r ?_, fun h => Mode.noConfusion h⟩
      rwa [settled_append hmode] at hr
  | ends hline hbuf hmode hrem hcheck =>
      refine ⟨fun r hr hname => ?_, fun _ r hr => absurd hr List.not_mem_nil⟩
      rcases List.mem_append.mp hr with hbefore | hend
      · exact hstays r (by rwa [settled_open (hmode ▸ Mode.noConfusion)]) hname
      · obtain rfl := List.mem_singleton.mp hend
        have hsome := sanityChecks_name hcheck
        rw [hname] at hsome
        exact absurd hsome Bool.false_ne_true
  | inside hline hbuf hmode hq hbefore =>
      refine ⟨fun r hr => hstays r ?_, fun h => absurd h hq.1⟩
      rwa [settled_open hq.1, hbefore, ← settled_open hmode] at hr
  | outside hline hbuf =>
      refine hsame fun h => ?_
      cases h with
      | begins _ hbegins => rw [hbuf] at hbegins; cases hbegins
      | file hsome => rw [hline] at hsome; cases hsome
  | missing hline hpath hmissing =>
      refine hsame fun h => ?_
      cases h with
      | begins hnone => rw [hline] at hnone; cases hnone
      | file hline' hpath' hcontent =>
          rw [hline] at hline'
          cases hline'
          rw [hpath] at hpath'
          cases hpath'
          rw [hmissing] at hcontent
          cases hcontent
  | @file levels _ val path content remotes hline hpath hcontent hread =>
      have hleft := hchild levels val path content remotes rfl hline hpath hcontent hread
      by_cases hmode : p.mode = .none
      · cases remotes with
        | nil => exact ⟨hstays, fun _ r hr => absurd hr List.not_mem_nil⟩
        | cons first after =>
            refine ⟨fun r hr hname post q hall hclosed => ?_,
              fun _ r hr hname post q hcuts hall hclosed => ?_⟩
            · rw [settled_splice_cons hmode] at hr
              rcases List.mem_append.mp hr with hsettled | hfirst
              · exact hstays r hsettled hname post q hall hclosed
              · obtain rfl := List.mem_singleton.mp hfirst
                rw [hcons] at hall ⊢
                exact .file hpre hmode hline hpath hcontent hread
                  (hleft r List.mem_cons_self hname) (.inl rfl) hall hclosed
            · rw [hcons] at hall ⊢
              exact .file hpre hmode hline hpath hcontent hread
                (hleft r (List.mem_cons_of_mem _ hr) hname) (.inr hcuts) hall hclosed
      · cases remotes with
        | nil => exact ⟨hstays, fun h => absurd h hmode⟩
        | cons first after =>
            refine ⟨fun r hr hname post q hall hclosed => ?_, fun h => absurd h hmode⟩
            rw [settled_splice_open hmode] at hr
            rcases List.mem_append.mp hr with hsettled | hcurrent
            · exact hstays r hsettled hname post q hall hclosed
            · rw [hcons] at hall ⊢
              have hyields := (yieldsRight files levels path content _ hread).mp
                (List.cons_ne_nil _ _)
              exact .left hpre (.file hmode (Option.mem_toList.mp hcurrent) hline hpath hcontent
                hyields) hname hall hclosed

/-- Where a remote of the list has no name, a file leaves it there. -/
theorem leavesUnnamed_of_mem (hall : readLines files levels name {} bufs = .ok q)
    (hclosed : q.mode = .none) (hrem : rem ∈ q.chain) (hname : rem.name = none) :
    LeavesUnnamed files levels name bufs (postProcess rem) := by
  induction levels using Nat.strong_induction_on generalizing name bufs q rem with
  | _ levels ih =>
      -- the induction on the lines, for the part of the file that has been read
      have hrun : ∀ post pre p, bufs = pre ++ post → readLines files levels name {} pre = .ok p →
          Traced files levels name pre p → readLines files levels name p post = .ok q →
            Traced files levels name bufs q := by
        intro post
        induction post with
        | nil =>
            intro pre p heq _ ht hrest
            rw [readLines_nil] at hrest
            cases hrest
            rwa [heq, List.append_nil]
        | cons buf post ihpost =>
            intro pre p heq hpre ht hrest
            rw [readLines_cons] at hrest
            obtain ⟨p', hline, hrest⟩ := Config.bind_ok hrest
            have hread := readLine_lineRead (readLines_placed .start hpre).rem hline
            refine ihpost (pre ++ [buf]) p' (by simpa using heq) ?_
              (ht.line hpre hread ?_) hrest
            · rw [readLines_append, hpre]
              exact readLines_single.trans hline
            · rintro l val path content remotes rfl hincl hpath hcontent hchild r hr hnone
              obtain ⟨u, hu, hfinish⟩ := Config.bind_ok hchild
              obtain ⟨hmode, -, rfl⟩ := finish_ok hfinish
              obtain ⟨r', hr', rfl⟩ := List.mem_map.mp ((sortByBitCount_perm _).mem_iff.mp hr)
              rw [postProcess_name] at hnone
              exact ih l l.lt_succ_self hu hmode hr' hnone
      have ht := hrun bufs [] {} rfl readLines_nil .start hall
      have hstays := ht.stays rem
      have hbehind := ht.behind hclosed rem
      rw [settled_closed hclosed] at hstays
      rw [← List.append_nil bufs] at hall ⊢
      rcases List.mem_append.mp hrem with hsettled | hafter
      · exact hstays hsettled hname [] q hall hclosed
      · exact hbehind hafter hname [] q (List.forall_mem_nil _) hall hclosed

theorem LeavesUnnamed.read (h : LeavesUnnamed files levels name bufs rem) :
    ∃ q, readLines files levels name {} bufs = .ok q ∧ q.mode = .none := by
  cases h with
  | left _ _ _ hall hclosed => exact ⟨_, hall, hclosed⟩
  | file _ _ _ _ _ _ _ _ hall hclosed => exact ⟨_, hall, hclosed⟩

end Unnamed

/-! ### Safety -/

/-- The outcome that the parser owes its caller: an error, or remotes that
have a name and a table of codes. -/
def Delivered (outcome : Config (List ConfRemote)) : Prop :=
  Tested outcome ∧
    ∀ remotes, outcome = .ok remotes → ∀ rem ∈ remotes, rem.name.isSome ∧ rem.codes.isSome

/-- The parser keeps to it exactly on the files that do not lack the codes of a remote where
these are needed, and do not leave a remote in their list before its name has been given. -/
theorem readConfigRecursive_delivered_iff (files : List Char → Option (List Char))
    (name text : List Char) :
    Delivered (readConfigRecursive files (maxIncludes + 1) name text) ↔
      ¬LacksCodes files (maxIncludes + 1) name (fgetsAll text) ∧
        ¬∃ rem, LeavesUnnamed files (maxIncludes + 1) name (fgetsAll text) rem := by
  rw [readConfigRecursive_eq, Delivered, Tested, Ne, readLines_null_iff]
  refine and_congr_right fun hlacks => ⟨?_, ?_⟩
  · rintro hall ⟨rem, hleaves⟩
    obtain ⟨q, hq, hclosed⟩ := hleaves.read
    have hcodes : ∀ r ∈ q.chain, r.codes.isSome := by
      intro r hr
      by_contra hnot
      rw [Bool.not_eq_true, Option.isSome_eq_false_iff, Option.isNone_iff_eq_none] at hnot
      apply hlacks
      rw [← readLines_null_iff, hq]
      exact finish_null_iff.mpr ⟨hclosed, r, hr, hnot⟩
    have hfinish : (readLines files (maxIncludes + 1) name {} (fgetsAll text) >>= finish) =
        .ok (sortByBitCount (q.chain.map postProcess)) := by
      rw [hq]
      exact finish_of_closed hclosed hcodes
    obtain ⟨hnone, hmem⟩ := hleaves.mem
    have hsome := (hall _ hfinish rem (hmem _ hfinish)).1
    rw [hnone] at hsome
    exact absurd hsome Bool.false_ne_true
  · intro hname remotes hremotes rem hrem
    obtain ⟨q, hq, hfinish⟩ := Config.bind_ok hremotes
    refine ⟨?_, finish_codes hfinish rem hrem⟩
    obtain ⟨hclosed, -, rfl⟩ := finish_ok hfinish
    obtain ⟨r, hr, rfl⟩ := List.mem_map.mp ((sortByBitCount_perm _).mem_iff.mp hrem)
    by_contra hnot
    rw [postProcess_name, Bool.not_eq_true, Option.isSome_eq_false_iff,
      Option.isNone_iff_eq_none] at hnot
    exact hname ⟨_, leavesUnnamed_of_mem hq hclosed hr hnot⟩

/-- A remote without codes. -/
def codeless : List Char := "begin remote\n name a\nend remote\n".toList

theorem readConfigRecursive_codeless : ¬∀ files name text,
    Delivered (readConfigRecursive files (maxIncludes + 1) name text) := by
  intro h
  exact (h (fun _ => none) "lircd.conf".toList codeless).1 (by decide +kernel)

end Lirc
