import Lirc.RcDocument

/-!
`lirc_readconfig_only` against the documents that texts are. A text that is no
document, or that the caller's `check` rejects, ends in the use of a null
pointer; a document is read with all its entries, but a remote that a line of
unknown words stands behind is lost for the buttons that follow.
-/

namespace Lirc

open Loop

/-! ### The remote of a button -/

section

variable {f g : Option Name → BodyLine → Option Name}

/-- The buttons have the same remotes when the same remotes are in effect before
each of them. -/
theorem codesWith_eq_iff {r r' : Option Name} {body : List BodyLine} :
    codesWith f r body = codesWith g r' body ↔
      ∀ before line after, body = before ++ line :: after → line.button ≠ none →
        before.foldl f r = before.foldl g r' := by
  induction body generalizing r r' with
  | nil =>
      refine iff_of_true rfl ?_
      intro before line after heq _
      exact absurd (congrArg List.length heq) (by simp)
  | cons line body ih =>
      have hsplit : codesWith f r (line :: body) = codesWith g r' (line :: body) ↔
          (line.button ≠ none → r = r') ∧
            codesWith f (f r line) body = codesWith g (g r' line) body := by
        rw [codesWith, codesWith]
        cases line.button with
        | none => simp
        | some button => simp
      rw [hsplit, ih]
      constructor
      · rintro ⟨hline, hbody⟩ before line' after heq hbutton
        cases before with
        | nil =>
            obtain ⟨rfl, -⟩ := List.cons.inj heq
            exact hline hbutton
        | cons first before =>
            obtain ⟨rfl, rfl⟩ := List.cons.inj heq
            exact hbody before line' after rfl hbutton
      · intro hall
        refine ⟨hall [] line body rfl, ?_⟩
        rintro before line' after rfl hbutton
        exact hall (line :: before) line' after rfl hbutton

end

theorem concat_eq_append_cons {α : Type*} {x y : α} {before b between : List α} :
    before ++ [x] = b ++ y :: between ↔
      (between = [] ∧ before = b ∧ x = y) ∨
        ∃ c, between = c ++ [x] ∧ before = b ++ y :: c := by
  constructor
  · intro heq
    obtain rfl | ⟨c, z, rfl⟩ := List.eq_nil_or_concat between
    · obtain ⟨hbefore, hlast⟩ := List.append_inj' heq rfl
      exact .inl ⟨rfl, hbefore, List.singleton_inj.mp hlast⟩
    · rw [List.concat_eq_append, ← List.cons_append, ← List.append_assoc] at heq
      obtain ⟨hbefore, hlast⟩ := List.append_inj' heq rfl
      exact .inr ⟨c, by rw [List.concat_eq_append, List.singleton_inj.mp hlast], hbefore⟩
  · rintro (⟨rfl, rfl, rfl⟩ | ⟨c, rfl, rfl⟩)
    · rfl
    · simp

/-- The last remote line names a remote, and the lines behind it are such. -/
def GivenBy (lines : List BodyLine) (P : List BodyLine → Prop) : Prop :=
  ∃ before remote between,
    lines = before ++ .assign (some .remote) remote :: between ∧ starred remote ≠ none ∧
      P between ∧ ∀ remote', .assign (some .remote) remote' ∉ between

variable {lines : List BodyLine} {P Q : List BodyLine → Prop}

/-- One line more, whether or not it is a remote line. -/
theorem givenBy_concat (line : BodyLine) (hP : ∀ c, P (c ++ [line]) ↔ Q c) :
    GivenBy (lines ++ [line]) P ↔
      (∃ remote, line = .assign (some .remote) remote ∧ starred remote ≠ none ∧ P []) ∨
        ((∀ remote, line ≠ .assign (some .remote) remote) ∧ GivenBy lines Q) := by
  constructor
  · rintro ⟨before, remote, between, heq, hname, hp, hnone⟩
    obtain ⟨rfl, rfl, rfl⟩ | ⟨c, rfl, rfl⟩ := concat_eq_append_cons.mp heq
    · exact .inl ⟨remote, rfl, hname, hp⟩
    · refine .inr ⟨?_, before, remote, c, rfl, hname, (hP c).mp hp, ?_⟩
      · rintro remote' rfl
        exact hnone remote' (List.mem_append_right _ (List.mem_singleton_self _))
      · intro remote' hmem
        exact hnone remote' (List.mem_append_left _ hmem)
  · rintro (⟨remote, rfl, hname, hp⟩ | ⟨hline, before, remote, c, rfl, hname, hq, hnone⟩)
    · exact ⟨lines, remote, [], rfl, hname, hp, fun _ => List.not_mem_nil⟩
    · refine ⟨before, remote, c ++ [line], by simp, hname, (hP c).mpr hq, ?_⟩
      intro remote' hmem
      obtain hmem | hmem := List.mem_append.mp hmem
      · exact hnone remote' hmem
      · exact hline remote' (List.mem_singleton.mp hmem).symm

theorem not_givenBy_nil : ¬GivenBy [] P := by
  rintro ⟨before, remote, between, heq, -⟩
  exact absurd (congrArg List.length heq) (by simp)

theorem given_of_ne {line : BodyLine} (h : ∀ remote, line ≠ .assign (some .remote) remote)
    (r : Option Name) : given r line = r := by
  cases line with
  | ignored => rfl
  | unknown => rfl
  | assign key token2 =>
      cases key with
      | none => rfl
      | some key => cases key <;> first | rfl | exact absurd rfl (h token2)

theorem kept_eq_given {line : BodyLine} (h : line ≠ .unknown) (r : Option Name) :
    kept r line = given r line := by
  cases line with
  | unknown => exact absurd rfl h
  | ignored => rfl
  | assign key token2 => rfl

/-- A remote is in effect when the last remote line names one. -/
theorem foldl_given_ne_none : lines.foldl given none ≠ none ↔ GivenBy lines fun _ => True := by
  induction lines using List.reverseRecOn with
  | nil => exact iff_of_false (fun h => h rfl) not_givenBy_nil
  | append_singleton lines line ih =>
      rw [List.foldl_concat, givenBy_concat line fun _ => Iff.rfl]
      by_cases hremote : ∃ remote, line = .assign (some .remote) remote
      · obtain ⟨remote, rfl⟩ := hremote
        simp [given, remoteAfter]
      · have hne : ∀ remote, line ≠ .assign (some .remote) remote :=
          fun remote heq => hremote ⟨remote, heq⟩
        rw [given_of_ne hne, ih]
        simp [hne]

/-- The reader has lost the remote when a line of unknown words stands behind the
line that names it. -/
theorem foldl_kept_ne_given :
    lines.foldl kept none ≠ lines.foldl given none ↔ GivenBy lines (.unknown ∈ ·) := by
  induction lines using List.reverseRecOn with
  | nil => exact iff_of_false (fun h => h rfl) not_givenBy_nil
  | append_singleton lines line ih =>
      rw [List.foldl_concat, List.foldl_concat]
      by_cases hunknown : line = .unknown
      · subst hunknown
        rw [givenBy_concat (Q := fun _ => True) _ fun c => by simp, ← foldl_given_ne_none]
        simp [kept, given, eq_comm]
      · rw [kept_eq_given hunknown,
          givenBy_concat (Q := (.unknown ∈ ·)) _ fun c => by simp [Ne.symm hunknown], ← ih]
        by_cases hremote : ∃ remote, line = .assign (some .remote) remote
        · obtain ⟨remote, rfl⟩ := hremote
          simp [given, remoteAfter]
        · have hne : ∀ remote, line ≠ .assign (some .remote) remote :=
            fun remote heq => hremote ⟨remote, heq⟩
          rw [given_of_ne hne, given_of_ne hne]
          simp [hne]

theorem button_ne_none {line : BodyLine} (h : line.button ≠ none) :
    ∃ token2, line = .assign (some .button) token2 := by
  cases line with
  | ignored => exact absurd rfl h
  | unknown => exact absurd rfl h
  | assign key token2 =>
      cases key with
      | none => exact absurd rfl h
      | some key => cases key <;> first | exact ⟨token2, rfl⟩ | exact absurd rfl h

/-- The reader gives every button its remote unless one is lost. -/
theorem codesWith_kept_iff (body : List BodyLine) :
    codesWith kept none body = codesWith given none body ↔ ¬RemoteLost body := by
  rw [codesWith_eq_iff, ← not_iff_not, not_not]
  push Not
  constructor
  · rintro ⟨before, line, after, rfl, hbutton, hne⟩
    obtain ⟨b, remote, between, rfl, hname, hmem, hnone⟩ := foldl_kept_ne_given.mp hne
    obtain ⟨button, rfl⟩ := button_ne_none hbutton
    exact ⟨b, remote, between, button, after, by simp, hname, hmem, hnone⟩
  · rintro ⟨before, remote, between, button, after, rfl, hname, hmem, hnone⟩
    refine ⟨before ++ .assign (some .remote) remote :: between, .assign (some .button) button,
      after, by simp, nofun, ?_⟩
    exact foldl_kept_ne_given.mpr ⟨before, remote, between, rfl, hname, hmem, hnone⟩

/-! ### The configuration -/

/-- The mode, the buttons and the strings of an entry. -/
def RcEntry.contents (e : RcEntry) : Option Name × List RcCode × List (List Char) :=
  (e.mode, e.code, e.config)

theorem takeStartupMode_contents (entries : List RcEntry) :
    (takeStartupMode entries).2.map RcEntry.contents = entries.map RcEntry.contents := by
  induction entries with
  | nil => rfl
  | cons scan entries ih =>
      rw [takeStartupMode]
      split
      · rfl
      · exact congrArg (scan.contents :: ·) ih

/-- A startup mode takes nothing away from the entries and adds nothing. -/
theorem ofEntries_contents (lircProg : Name) (entries : List RcEntry) :
    (RcConfig.ofEntries lircProg entries).entries.map RcEntry.contents =
      entries.map RcEntry.contents := by
  rw [RcConfig.ofEntries, lircStartupmode]
  dsimp only
  split
  · exact takeStartupMode_contents entries
  · rw [← takeStartupMode_contents entries, List.map_map]
    refine List.map_congr_left fun scan _ => ?_
    rw [Function.comp_apply]
    split <;> rfl

/-- No name of a flag stands for `ecno`. -/
theorem tokenFlag_ecno (s : Name) : (tokenFlag s).testBit 3 = false := by
  rw [tokenFlag]
  split
  · next f hfind =>
      have hall : ∀ f ∈ rcFlagNames, f.2.testBit 3 = false := by decide
      exact hall f (List.mem_of_find?_eq_some hfind)
  · rfl

theorem flagLoop_ecno (n flags : ℕ) (x : Option (List Char × List Char))
    (h : flags.testBit 3 = false) : (flagLoop n flags x).testBit 3 = false := by
  induction n generalizing flags x with
  | zero => exact h
  | succ n ih =>
      cases x with
      | none => exact h
      | some x =>
          rw [flagLoop]
          apply ih
          rw [Nat.testBit_or, h, tokenFlag_ecno]
          rfl

/-- The entries of a file are as `end` leaves them: the results about
`RcConfig.read` are about files. -/
theorem read_entries (lircProg : Name) (bodies : List RcBody) :
    RcConfig.read lircProg (bodies.map readEntry) =
      RcConfig.ofEntries lircProg (bodies.map readEntry) := by
  have hended (b : RcBody) : (readEntry b).ended = readEntry b := by
    have hflags : (readEntry b).flags.ecno = false := by
      change (lastAssigned .flags (fun s => RcFlags.ofBits (lircFlags s)) {} b.2).ecno = false
      rw [lastAssigned]
      cases (assigned .flags b.2).getLast? with
      | none => rfl
      | some s => exact flagLoop_ecno _ _ _ rfl
    rw [RcEntry.ended, ← hflags]
    rfl
  rw [RcConfig.read, List.map_map,
    show RcEntry.ended ∘ readEntry = readEntry from funext hended]
  rfl

theorem readEntry_eq_iff {b : RcBody} : readEntry b = entryOf b ↔ ¬RemoteLost b.2 := by
  rw [← codesWith_kept_iff]
  constructor
  · exact fun h => congrArg RcEntry.code h
  · intro h
    rw [readEntry, entryOf, entryWith, entryWith, h]

/-- The configuration is that of the document unless a remote is lost. -/
theorem ofEntries_readEntry_iff (lircProg : Name) (bodies : List RcBody) :
    RcConfig.ofEntries lircProg (bodies.map readEntry) =
        RcConfig.ofEntries lircProg (bodies.map entryOf) ↔
      ∀ b ∈ bodies, ¬RemoteLost b.2 := by
  constructor
  · intro h b hb
    have hcontents := congrArg (fun c => c.entries.map RcEntry.contents) h
    simp only [ofEntries_contents, List.map_map, List.map_inj_left] at hcontents
    exact (codesWith_kept_iff b.2).mp (congrArg (fun x => x.2.1) (hcontents b hb))
  · intro h
    rw [List.map_congr_left fun b hb => readEntry_eq_iff.mpr (h b hb)]

/-! ### `lirc_readconfig_only` -/

section

variable {env : RcSetting} {file : Option Name} {name : Name} {text : List Char}

theorem roleStep_error {p : RcParse} {role : RcRole} {r : RcResult}
    (h : roleStep env p role = .error r) : r = env.failed ∨ r = .crashed := by
  cases role with
  | ignored | unknown =>
      rw [roleStep] at h
      cases h
  | broken unnamed =>
      obtain rfl := Except.error.inj h
      cases unnamed with
      | true => exact .inr rfl
      | false => exact .inl rfl
  | assign key token2 =>
      rw [roleStep] at h
      split at h
      · exact .inl (Except.error.inj h).symm
      · cases h
  | endEntry =>
      rw [roleStep] at h
      split at h
      · exact .inl (Except.error.inj h).symm
      · split at h
        · cases h
        · exact .inl (Except.error.inj h).symm
  | beginEntry | beginMode | endMode =>
      rw [roleStep] at h
      split at h
      · cases h
      · exact .inl (Except.error.inj h).symm

/-- A run over lines that fails comes to the end of a failing run, or to an
include line without a name. -/
theorem fold_error {roles : List RcRole} {p : RcParse} {r : RcResult}
    (h : roles.foldlM (roleStep env) p = .error r) : r = env.failed ∨ r = .crashed := by
  induction roles generalizing p with
  | nil => exact absurd h nofun
  | cons role roles ih =>
      rw [List.foldlM_cons] at h
      cases hstep : roleStep env p role with
      | error r' =>
          rw [hstep] at h
          obtain rfl : r' = r := Except.error.inj h
          exact roleStep_error hstep
      | ok q =>
          rw [hstep] at h
          exact ih h

/-- The text of a file does not depend on the parameters of the caller. -/
theorem fileRoles_outParams (outParams : Bool) (levels : ℕ) (name : Name) (text : List Char) :
    fileRoles { env with outParams } levels name text = fileRoles env levels name text := by
  induction levels generalizing name text with
  | zero => rfl
  | succ levels ih =>
      rw [fileRoles, fileRoles]
      simp only [ih]
      rfl

/-- The lines of the file that is read and of the files it includes. -/
def textRoles (env : RcSetting) (name : Name) (text : List Char) : List RcRole :=
  fileRoles env (rcMaxIncludes - 1) name text

/-- How `lirc_readconfig_only` comes out for a text. -/
def onlyResult (env : RcSetting) (roles : List RcRole) : RcResult :=
  foldedResult { env with outParams := false } {}
    (roles.foldlM (roleStep { env with outParams := false }) {})

/-- The function comes to an end for every text, and always so. -/
theorem readconfigOnly_iff (hopen : lircOpen env file none = some (name, text))
    {result : RcResult} :
    LircReadconfigOnly env file result ↔ result = onlyResult env (textRoles env name text) := by
  have hopen' : lircOpen { env with outParams := false } file none = some (name, text) := hopen
  obtain ⟨out, hout, hreturns⟩ :=
    @returns_folded { env with outParams := false } name text
  obtain rfl := hout rfl
  rw [fileRoles_outParams] at hreturns
  rw [LircReadconfigOnly, ReadconfigInternal, hopen']
  constructor
  · exact fun h => h.unique hreturns
  · rintro rfl
    exact hreturns

/-- What a document comes out with. -/
theorem onlyResult_roles (doc : RcDocument) :
    onlyResult env doc.roles =
      if AllAccepted env doc.bodies then
        .config (.ofEntries env.lircProg (doc.bodies.map readEntry)) none none
      else .crashed :=
  @RcDocument.foldedResult_roles { env with outParams := false } doc {}

/-- What is no document ends in a crash. -/
theorem onlyResult_of_not {roles : List RcRole} (h : ¬∃ doc : RcDocument, doc.roles = roles) :
    onlyResult env roles = .crashed := by
  rw [onlyResult]
  cases hfold : roles.foldlM (roleStep { env with outParams := false }) {} with
  | ok p => exact absurd (exists_of_fold hfold) h
  | error r => exact (fold_error hfold).elim id id

/-- The function comes out with a configuration exactly for the documents whose
strings are accepted; there is no other end than a crash. -/
theorem onlyResult_cases (roles : List RcRole) :
    (∃ doc : RcDocument, doc.roles = roles ∧ AllAccepted env doc.bodies ∧
        onlyResult env roles =
          .config (.ofEntries env.lircProg (doc.bodies.map readEntry)) none none) ∨
      (¬∃ doc : RcDocument, doc.roles = roles ∧ AllAccepted env doc.bodies) ∧
        onlyResult env roles = .crashed := by
  by_cases hdoc : ∃ doc : RcDocument, doc.roles = roles
  · obtain ⟨doc, rfl⟩ := hdoc
    have hresult := @onlyResult_roles env doc
    by_cases hall : AllAccepted env doc.bodies
    · rw [if_pos hall] at hresult
      exact .inl ⟨doc, rfl, hall, hresult⟩
    · rw [if_neg hall] at hresult
      refine .inr ⟨?_, hresult⟩
      rintro ⟨doc', hroles, hall'⟩
      have hresult' := @onlyResult_roles env doc'
      rw [if_pos hall', hroles, hresult] at hresult'
      exact absurd hresult' nofun
  · refine .inr ⟨?_, onlyResult_of_not hdoc⟩
    rintro ⟨doc, hroles, -⟩
    exact hdoc ⟨doc, hroles⟩

/-- The function does with a text what it is for: it returns 0 with the entries of a
document that the text is, or -1 with a null pointer. -/
def ReadsDocument (env : RcSetting) (file : Option Name) (roles : List RcRole) : Prop :=
  ∃ result, LircReadconfigOnly env file result ∧
    (result = .failed ∨
      ∃ doc : RcDocument, doc.roles = roles ∧
        result = .config (.ofEntries env.lircProg doc.entries) none none)

/-- It does so for the documents whose strings are accepted and in which no remote
is lost, and for no other text. -/
theorem readconfigOnly_document_iff (hopen : lircOpen env file none = some (name, text)) :
    ReadsDocument env file (textRoles env name text) ↔
      ∃ doc : RcDocument, doc.roles = textRoles env name text ∧ AllAccepted env doc.bodies ∧
        ∀ b ∈ doc.bodies, ¬RemoteLost b.2 := by
  constructor
  · rintro ⟨result, hresult, hdoc⟩
    rw [readconfigOnly_iff hopen] at hresult
    obtain rfl | ⟨doc, hroles, rfl⟩ := hdoc
    · obtain ⟨doc, -, -, hconfig⟩ | ⟨-, hcrash⟩ :=
        @onlyResult_cases env (textRoles env name text)
      · exact absurd (hresult.trans hconfig) nofun
      · exact absurd (hresult.trans hcrash) nofun
    · rw [← hroles, onlyResult_roles] at hresult
      split at hresult
      · next hall =>
          obtain ⟨hentries, -, -⟩ := RcResult.config.inj hresult
          exact ⟨doc, hroles, hall,
            (ofEntries_readEntry_iff env.lircProg doc.bodies).mp hentries.symm⟩
      · exact absurd hresult nofun
  · rintro ⟨doc, hroles, hall, hlost⟩
    refine ⟨_, (readconfigOnly_iff hopen).mpr rfl, .inr ⟨doc, hroles, ?_⟩⟩
    rw [← hroles, onlyResult_roles, if_pos hall,
      (ofEntries_readEntry_iff env.lircProg doc.bodies).mpr hlost, RcDocument.entries]

end

/-- A setting with one file. -/
def oneFile (text : String) : RcSetting where
  lircProg := "irexec".toList
  files name := if name = "/rc".toList then .text text.toList else .absent

/-- An entry in a mode, with a comment and an unknown line, and no line `end`. -/
def modeText : String :=
  "# comment\nbegin tv\nbegin\nfoo\nremote = rc\nbutton=Up\nprog = irexec\n"

/-- A file that ends inside of an entry and a mode is read as it stands. -/
theorem readconfigOnly_document_iff_mode :
    ReadsDocument (oneFile modeText) (some "/rc".toList)
      (textRoles (oneFile modeText) "/rc".toList modeText.toList) := by
  refine (readconfigOnly_document_iff (by decide)).mpr
    ⟨{ blocks := [.part .ignored]
       openMode := some ("tv".toList, [])
       openEntry := some [.unknown, .assign (some .remote) "rc".toList,
         .assign (some .button) "Up".toList, .assign (some .prog) "irexec".toList] },
      by decide +kernel, by decide, ?_⟩
  intro b hb
  obtain rfl := List.mem_singleton.mp hb
  exact (codesWith_kept_iff _).mp rfl

/-- A line `end` that ends nothing, and an include line without a name. -/
theorem readconfigOnly_crashes :
    ¬ReadsDocument (oneFile "end\n") (some "/rc".toList)
        (textRoles (oneFile "end\n") "/rc".toList "end\n".toList) ∧
      ¬ReadsDocument (oneFile "include\n") (some "/rc".toList)
        (textRoles (oneFile "include\n") "/rc".toList "include\n".toList) := by
  have hcrash {env : RcSetting} {roles : List RcRole} {name : Name} {text : List Char}
      (hopen : lircOpen env (some name) none = some (name, text))
      (hroles : textRoles env name text = roles) (hresult : onlyResult env roles = .crashed) :
      ¬ReadsDocument env (some name) roles := by
    rintro ⟨result, hreads, hdoc⟩
    rw [readconfigOnly_iff hopen, hroles, hresult] at hreads
    obtain rfl | ⟨doc, -, rfl⟩ := hdoc <;> exact absurd hreads nofun
  exact ⟨@hcrash (oneFile "end\n") _ _ "end\n".toList (by decide) rfl (by decide +kernel),
    @hcrash (oneFile "include\n") _ _ "include\n".toList (by decide) rfl
      (by decide +kernel)⟩

end Lirc
