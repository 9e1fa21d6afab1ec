import Lirc.RcReader

/-!
Included files of a lircrc file. The stack of open files does what a text does
in which every include line has been replaced by the lines of its file: the loop
folds the meaning of these lines.
-/

namespace Lirc

open Loop

/-! ### The lines of a text -/

/-- The lines of a text, without newlines. -/
def textLines : List Char → List (List Char)
  | [] => []
  | c :: cs =>
      if c = '\n' then [] :: textLines cs
      else
        match textLines cs with
        | [] => [[c]]
        | line :: lines => (c :: line) :: lines

theorem textLines_eq_nil {text : List Char} (h : textLines text = []) : text = [] := by
  cases text with
  | nil => rfl
  | cons c cs =>
      rw [textLines] at h
      split at h
      · exact absurd h nofun
      · split at h <;> exact absurd h nofun

/-- A text that has lines left gives the first one. -/
theorem lircReadline_of_lines {text line : List Char} {lines : List (List Char)}
    (h : textLines text = line :: lines) :
    ∃ rest, lircReadline text = some (line, rest) ∧ textLines rest = lines := by
  induction text generalizing line with
  | nil => exact absurd h nofun
  | cons c cs ih =>
      rw [textLines] at h
      split at h
      · next hc =>
          obtain ⟨rfl, rfl⟩ := List.cons.inj h
          exact ⟨cs, by simp [lircReadline, hc], rfl⟩
      · next hc =>
          split at h
          · next hnil =>
              obtain rfl := textLines_eq_nil hnil
              obtain ⟨rfl, rfl⟩ := List.cons.inj h
              exact ⟨[], by simp [lircReadline, hc], rfl⟩
          · next line' lines' hlines =>
              obtain ⟨rfl, rfl⟩ := List.cons.inj h
              obtain ⟨rest, hread, hrest⟩ := ih hlines
              refine ⟨rest, ?_, hrest⟩
              rw [lircReadline] at hread
              split at hread
              · exact absurd hread nofun
              · obtain ⟨rfl, rfl⟩ := Prod.mk.inj (Option.some.inj hread)
                simp [lircReadline, hc]

/-! ### What lines mean -/

/-- What a line means once the included files stand in the text; `broken` is an
include line with nothing to put in its place. -/
inductive RcRole
  | ignored
  | unknown
  | beginEntry
  | endEntry
  | beginMode (mode : Name)
  | endMode (mode : Name)
  | assign (key : Option RcKey) (token2 : Name)
  | broken (unnamed : Bool)
  deriving DecidableEq, Repr

/-- A line of one word or two. -/
def wordsRole (token : Name) (token2 : Option Name) : RcRole :=
  if strcaseeq token "begin".toList then token2.elim .beginEntry .beginMode
  else if strcaseeq token "end".toList then token2.elim .endEntry .endMode
  else .unknown

/-- The lines that a line stands for; `file` says what an include line does. -/
def lineRoles (file : Option (List Char) → List RcRole) (line : List Char) : List RcRole :=
  match rcLine line with
  | .ignored => [.ignored]
  | .includes f => file f
  | .words token token2 => [wordsRole token token2]
  | .assign token token2 => [.assign (rcKey token) token2]

/-- The text of a file with the files it includes, so many levels of them. -/
def fileRoles (env : RcSetting) : ℕ → Name → List Char → List RcRole
  | 0, _, text => (textLines text).flatMap (lineRoles fun _ => [.broken false])
  | levels + 1, name, text =>
      (textLines text).flatMap <| lineRoles fun file =>
        match file with
        | none => [.broken true]
        | some file =>
            match lircOpen env (some (clientParseInclude (lircTrim file))) (some name) with
            | none => [.broken false]
            | some (name, text) => fileRoles env levels name text

/-- What a line does to what has been read. -/
def roleStep (env : RcSetting) (p : RcParse) : RcRole → Except RcResult RcParse
  | .ignored => .ok p
  | .unknown => .ok { p with remote := none }
  | .beginEntry =>
      if p.newEntry = none then .ok { p with newEntry := some {}, remote := none }
      else .error env.failed
  | .endEntry =>
      match p.newEntry with
      | none => .error env.failed
      | some e =>
          if env.accepts e then
            .ok { p with
              entries := p.entries ++ [e.close p.mode]
              newEntry := none
              remote := none }
          else .error env.failed
  | .beginMode mode =>
      if p.newEntry = none ∧ p.mode = none then .ok { p with mode := some mode, remote := none }
      else .error env.failed
  | .endMode mode =>
      if p.newEntry = none ∧ p.mode.any (strcaseeq · mode) then
        .ok { p with mode := none, remote := none }
      else .error env.failed
  | .assign key token2 =>
      match p.newEntry with
      | none => .error env.failed
      | some e =>
          .ok { p with
            newEntry := some (e.assign p.remote key token2)
            remote := remoteAfter p.remote key token2 }
  | .broken unnamed => .error (if unnamed then .crashed else env.failed)

variable {env : RcSetting} {s s' : RcReader} {p : RcParse}

/-- The state with what a line leaves, or the end of the run. -/
def RcReader.afterRole (s : RcReader) : Except RcResult RcParse → RcReader ⊕ RcResult
  | .ok p => .inl { s with parse := p }
  | .error r => .inr r

/-- `lirc_mode` and the reset of `remote` behind it. -/
theorem afterLine_words (token : Name) (token2 : Option Name) :
    s.afterLine env ((lircMode env token token2 s.parse).map ({ · with remote := none })) =
      s.afterRole (roleStep env s.parse (wordsRole token token2)) := by
  rw [lircMode.eq_def, wordsRole]
  split
  · cases token2 with
    | none =>
        simp only [Option.elim_none, roleStep]
        split <;> rfl
    | some token2 =>
        simp only [Option.elim_some, roleStep]
        split <;> rfl
  · split
    · cases token2 with
      | none =>
          simp only [Option.elim_none, roleStep]
          cases s.parse.newEntry with
          | none => rfl
          | some e =>
              dsimp only
              split <;> rfl
      | some token2 =>
          simp only [Option.elim_some, roleStep]
          cases s.parse.mode with
          | none => simp [RcReader.afterRole, RcReader.afterLine]
          | some mode =>
              dsimp only [Option.any_some]
              split <;> rfl
    · rfl

theorem afterLine_assign (key : Option RcKey) (token2 : Name) :
    s.afterLine env (s.parse.assign key token2) =
      s.afterRole (roleStep env s.parse (.assign key token2)) := by
  rw [RcParse.assign, roleStep]
  cases s.parse.newEntry <;> rfl

/-! ### The loop on a file -/

/-- From a state the loop comes to others, with these files open, or it ends; what
it does is given by what has been read then, or by the result. -/
def ComesTo (env : RcSetting) (s : RcReader) (filestack : List RcFile) (openFiles : ℕ) :
    Except RcResult RcParse → Prop
  | .ok p =>
      ∃ out, (env.outParams = false → out = s.out) ∧
        Reaches (RcReader.round env) s { filestack, openFiles, parse := p, out }
  | .error r => Returns (RcReader.round env) s r

variable {filestack filestack' : List RcFile} {openFiles openFiles' : ℕ}
  {outcome : Except RcResult RcParse}

theorem ComesTo.of_round (hround : RcReader.round env s = .inl s')
    (hout : env.outParams = false → s'.out = s.out)
    (h : ComesTo env s' filestack openFiles outcome) :
    ComesTo env s filestack openFiles outcome := by
  cases outcome with
  | ok p =>
      obtain ⟨out, hkept, hreach⟩ := h
      exact ⟨out, fun henv => (hkept henv).trans (hout henv), .round hround hreach⟩
  | error r => exact (returns_of_inl hround).mpr h

theorem ComesTo.bind {next : RcParse → Except RcResult RcParse}
    (h : ComesTo env s filestack openFiles outcome)
    (hnext : ∀ p out, outcome = .ok p →
      ComesTo env { filestack, openFiles, parse := p, out } filestack' openFiles' (next p)) :
    ComesTo env s filestack' openFiles' (outcome >>= next) := by
  cases outcome with
  | error r => exact h
  | ok p =>
      obtain ⟨out, hkept, hreach⟩ := h
      have hlast := hnext p out rfl
      change ComesTo env s filestack' openFiles' (next p)
      revert hlast
      cases next p with
      | ok p' =>
          rintro ⟨out', hkept', hreach'⟩
          exact ⟨out', fun henv => (hkept' henv).trans (hkept henv), hreach.trans hreach'⟩
      | error r => exact hreach.returns_iff.mpr

theorem checkShaBang_out (henv : env.outParams = false) (string : List Char) (out : RcOut) :
    RcReader.checkShaBang env string out = out := by
  rw [RcReader.checkShaBang, henv, Bool.and_false]
  rfl

theorem ComesTo.refl (p : RcParse) (h : s.parse = p) :
    ComesTo env s s.filestack s.openFiles (.ok p) := by
  subst h
  exact ⟨s.out, fun _ => rfl, .refl s⟩

/-- What is done with a line, `next`, does what `outcome` says and comes back to
the files that were open. -/
def Continues (env : RcSetting) (s : RcReader) (outcome : Except RcResult RcParse) :
    RcReader ⊕ RcResult → Prop
  | .inl s' => s'.out = s.out ∧ ComesTo env s' s.filestack s.openFiles outcome
  | .inr r => outcome = .error r

theorem continues_afterRole (outcome : Except RcResult RcParse) :
    Continues env s outcome (s.afterRole outcome) := by
  cases outcome with
  | ok p => exact ⟨rfl, ComesTo.refl p rfl⟩
  | error r => rfl

theorem continues_readLine {file : Option (List Char) → List RcRole} (line : List Char)
    (hfile : ∀ f, Continues env s ((file f).foldlM (roleStep env) s.parse)
      (s.includeLine env f)) :
    Continues env s ((lineRoles file line).foldlM (roleStep env) s.parse)
      (s.readLine env line) := by
  rw [RcReader.readLine, lineRoles]
  cases rcLine line with
  | ignored => exact ⟨rfl, ComesTo.refl _ rfl⟩
  | includes f => exact hfile f
  | words token token2 =>
      dsimp only
      simp only [afterLine_words, List.foldlM_cons, List.foldlM_nil, bind_pure]
      exact continues_afterRole _
  | assign token token2 =>
      dsimp only
      simp only [afterLine_assign, List.foldlM_cons, List.foldlM_nil, bind_pure]
      exact continues_afterRole _

/-- The lines of a file are folded one by one, whatever include lines do. -/
theorem comesTo_lines {file : Option (List Char) → List RcRole} {name : Name}
    {lines : List (List Char)} {text : List Char}
    (hfile : ∀ (s : RcReader) (rest : List Char) (f : Option (List Char)),
      s.filestack = ⟨name, rest⟩ :: filestack → s.openFiles = openFiles →
        Continues env s ((file f).foldlM (roleStep env) s.parse) (s.includeLine env f))
    (hstack : s.filestack = ⟨name, text⟩ :: filestack) (hopen : s.openFiles = openFiles)
    (hlines : textLines text = lines) :
    ComesTo env s filestack (openFiles - 1)
      ((lines.flatMap (lineRoles file)).foldlM (roleStep env) s.parse) := by
  induction lines generalizing s text with
  | nil =>
      obtain rfl := textLines_eq_nil hlines
      have hround : RcReader.round env s = .inl (s.closeFile env name filestack) := by
        rw [RcReader.round, hstack]
        rfl
      refine ComesTo.of_round hround ?_ ?_
      · intro henv
        rw [RcReader.closeFile, henv, Bool.and_false]
        rfl
      · subst hopen
        exact ComesTo.refl (s := s.closeFile env name filestack) _ rfl
  | cons line lines ih =>
      obtain ⟨rest, hread, hrest⟩ := lircReadline_of_lines hlines
      rw [List.flatMap_cons, List.foldlM_append]
      have hround : RcReader.round env s =
          RcReader.readLine env
            { s with
              filestack := ⟨name, rest⟩ :: filestack
              out := RcReader.checkShaBang env line s.out }
            line := by
        rw [RcReader.round, hstack]
        dsimp only
        rw [hread]
      have hcont := continues_readLine line fun f =>
        hfile { s with
          filestack := ⟨name, rest⟩ :: filestack
          out := RcReader.checkShaBang env line s.out } rest f rfl hopen
      rw [← hround] at hcont
      have hline : ComesTo env s (⟨name, rest⟩ :: filestack) openFiles
          ((lineRoles file line).foldlM (roleStep env) s.parse) := by
        revert hcont
        cases hbody : RcReader.round env s with
        | inl s' =>
            rintro ⟨hout, hcomes⟩
            subst hopen
            exact hcomes.of_round hbody fun henv => hout.trans (checkShaBang_out henv line s.out)
        | inr r =>
            intro hcont
            change (lineRoles file line).foldlM (roleStep env) s.parse = .error r at hcont
            rw [hcont]
            exact (returns_of_inr hbody).mpr rfl
      exact hline.bind fun p out _ => ih rfl rfl hrest

/-- A file is read to its end and closed, or the loop ends in it: the lines of the
file and of those it includes are folded. The induction is on the levels of files
that may still be opened. -/
theorem comesTo_file (levels : ℕ) {name : Name} {text : List Char}
    (hstack : s.filestack = ⟨name, text⟩ :: filestack)
    (hlevels : s.openFiles + levels = rcMaxIncludes) :
    ComesTo env s filestack (s.openFiles - 1)
      ((fileRoles env levels name text).foldlM (roleStep env) s.parse) := by
  induction levels generalizing s name text filestack with
  | zero =>
      refine comesTo_lines ?_ hstack rfl rfl
      intro t rest f _ hopen
      rw [RcReader.includeLine.eq_def, if_pos (by omega)]
      rfl
  | succ levels ih =>
      refine comesTo_lines ?_ hstack rfl rfl
      intro t rest f ht hopen
      rw [RcReader.includeLine.eq_def, if_neg (by omega), ht]
      cases f with
      | none => rfl
      | some f =>
          dsimp only [List.head?_cons, Option.map_some]
          cases lircOpen env (some (clientParseInclude (lircTrim f))) (some name) with
          | none => rfl
          | some opened =>
              refine ⟨rfl, ?_⟩
              rw [ht]
              exact ih (s := { t with
                filestack := ⟨opened.1, opened.2⟩ :: ⟨name, rest⟩ :: filestack
                openFiles := t.openFiles + 1 }) rfl (by dsimp only; omega)

/-- What the function comes out with, given by the lines of all files. -/
def foldedResult (env : RcSetting) (out : RcOut) : Except RcResult RcParse → RcResult
  | .ok p => RcReader.finish env p out
  | .error r => r

/-- The loop comes to its end on every text. -/
theorem returns_folded (name : Name) (text : List Char) :
    ∃ out : RcOut, (env.outParams = false → out = {}) ∧
      Returns (RcReader.round env) { filestack := [⟨name, text⟩] }
        (foldedResult env out
          ((fileRoles env (rcMaxIncludes - 1) name text).foldlM (roleStep env) {})) := by
  have hcomes : ComesTo env { filestack := [⟨name, text⟩] } [] 0
      ((fileRoles env (rcMaxIncludes - 1) name text).foldlM (roleStep env) {}) :=
    comesTo_file (rcMaxIncludes - 1) rfl rfl
  revert hcomes
  cases (fileRoles env (rcMaxIncludes - 1) name text).foldlM (roleStep env) {} with
  | error r => exact fun hreturns => ⟨{}, fun _ => rfl, hreturns⟩
  | ok p =>
      rintro ⟨out, hkept, hreach⟩
      have hend : RcReader.round env { filestack := [], openFiles := 0, parse := p, out } =
          .inr (RcReader.finish env p out) := rfl
      exact ⟨out, hkept, hreach.returns_iff.mpr ((returns_of_inr hend).mpr rfl)⟩

end Lirc
