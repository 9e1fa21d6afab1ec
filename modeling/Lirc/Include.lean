import Lirc.Sections
import Mathlib.Data.List.Perm.Subperm

/-!
Included files against the text they stand for. A file that is included is
read on its own and its list is hung into the list of the including file; only
the head of that list is remembered as its end.
-/

namespace Lirc

/-! ### The text of a file -/

/-- A remote is open after the line. -/
def openAfter (inside : Bool) (buf : List Char) : Bool :=
  if beginsRemote buf then true else if endsRemote buf then false else inside

/-- `bufs` are lines of a file from a place where a remote is open or not, and
`text` is what they stand for: every include line is between remotes and names
a file that can be opened, not too deep. -/
inductive Expands (files : List Char → Option (List Char)) :
    ℕ → List Char → Bool → List (List Char) → List (List Char) → Prop
  | nil {levels : ℕ} {name : List Char} {inside : Bool} :
      Expands files levels name inside [] []
  | line {levels : ℕ} {name buf : List Char} {inside : Bool} {bufs text : List (List Char)}
      (hline : includeOf buf = none)
      (hbufs : Expands files levels name (openAfter inside buf) bufs text) :
      Expands files levels name inside (buf :: bufs) (buf :: text)
  | file {levels : ℕ} {name buf val path content : List Char}
      {bufs child text : List (List Char)} (hline : includeOf buf = some val)
      (hpath : includePath name val = some path) (hcontent : files path = some content)
      (hchild : Expands files levels path false (fgetsAll content) child)
      (hbufs : Expands files (levels + 1) name false bufs text) :
      Expands files (levels + 1) name false (buf :: bufs) (child ++ text)

/-- The remotes that lines begin. -/
def remoteCount (text : List (List Char)) : ℕ := text.countP beginsRemote

/-- The lines begin a remote or include a file. -/
def hasItem (bufs : List (List Char)) : Bool :=
  bufs.any fun buf => beginsRemote buf || (includeOf buf).isSome

/-- Nothing follows an included file of several remotes in the file that
includes it: no remote and no further file. -/
inductive Spliceable (files : List Char → Option (List Char)) :
    ℕ → List Char → List (List Char) → Prop
  | nil {levels : ℕ} {name : List Char} : Spliceable files levels name []
  | line {levels : ℕ} {name buf : List Char} {bufs : List (List Char)}
      (hline : includeOf buf = none) (hbufs : Spliceable files levels name bufs) :
      Spliceable files levels name (buf :: bufs)
  | file {levels : ℕ} {name buf val path content : List Char} {bufs child : List (List Char)}
      (hline : includeOf buf = some val) (hpath : includePath name val = some path)
      (hcontent : files path = some content)
      (hchild : Expands files levels path false (fgetsAll content) child)
      (hlast : remoteCount child ≤ 1 ∨ hasItem bufs = false)
      (hsplice : Spliceable files levels path (fgetsAll content))
      (hbufs : Spliceable files (levels + 1) name bufs) :
      Spliceable files (levels + 1) name (buf :: bufs)

/-! ### The run on the files and the run on their text -/

/-- The remotes that have ended. -/
def Parser.ended (p : Parser) (inRemote : Bool) : List ConfRemote :=
  if inRemote then p.before else p.chain

/-- A run on files, in `p`, beside a run on their text, in `t`: the latter has
come upon `own` after the remotes `base`. They agree on the remote that is
being read, and every other remote of `p` is one of `own`. -/
structure Beside (base own : List ConfRemote) (inRemote : Bool) (p t : Parser) : Prop where
  mode : p.mode = t.mode
  closed : inRemote = false → p.mode = .none
  opened : inRemote = true → p.Inside ∧ p.rem = t.rem ∧ p.after = []
  text : t.ended inRemote = base ++ own
  after : t.after = []
  ended : ((p.ended inRemote).map postProcess).Subperm (own.map postProcess)
  codes : (∀ r ∈ p.ended inRemote, r.codes.isSome) → ∀ r ∈ own, r.codes.isSome
  afterCodes : ∀ r ∈ p.after, r.codes.isSome

/-- No remote is missing in `p`. -/
def Complete (own : List ConfRemote) (inRemote : Bool) (p : Parser) : Prop :=
  (p.ended inRemote).length = own.length

variable {base own : List ConfRemote} {inRemote : Bool} {p q t : Parser}

/-- The start of a file. -/
theorem Beside.start (hmode : t.mode = .none) (hafter : t.after = []) :
    Beside t.chain [] false {} t where
  mode := hmode.symm
  closed _ := rfl
  opened h := absurd h Bool.false_ne_true
  text := (List.append_nil _).symm
  after := hafter
  ended := .refl _
  codes _ _ hr := absurd hr List.not_mem_nil
  afterCodes _ hr := absurd hr List.not_mem_nil

theorem Beside.length_le (h : Beside base own inRemote p t) :
    (p.ended inRemote).length ≤ own.length := by
  simpa using h.ended.length_le

theorem Beside.closed_of_mode (h : Beside base own inRemote p t) (hmode : p.mode = .none) :
    inRemote = false := by
  cases inRemote with
  | false => rfl
  | true => exact absurd hmode (h.opened rfl).1.1

theorem Beside.opened_of_mode (h : Beside base own inRemote p t) (hmode : p.mode ≠ .none) :
    inRemote = true := by
  cases inRemote with
  | true => rfl
  | false => exact absurd (h.closed rfl) hmode

/-- A new remote: what is behind the current one is lost. -/
theorem Beside.begin (h : Beside base own false p t) :
    Beside base own true { p.append {} with mode := .remote }
        { t.append {} with mode := .remote } ∧
      (Complete own true { p.append {} with mode := .remote } ↔
        Complete own false p ∧ p.after = []) := by
  have hchain : p.chain = (p.before ++ p.rem.toList) ++ p.after := rfl
  have htext : t.before ++ t.rem.toList = base ++ own := by
    have htext := h.text
    rw [Parser.ended, if_neg Bool.false_ne_true, Parser.chain, h.after, List.append_nil] at htext
    exact htext
  refine ⟨⟨rfl, fun hmode => absurd hmode.symm Bool.false_ne_true,
    fun _ => ⟨⟨Mode.noConfusion, rfl⟩, rfl, rfl⟩, htext, rfl, ?_, ?_,
    fun _ hr => absurd hr List.not_mem_nil⟩, ?_⟩
  · refine List.Subperm.trans ?_ h.ended
    have hsub : (p.before ++ p.rem.toList).Sublist p.chain := List.sublist_append_left ..
    exact (hsub.map postProcess).subperm
  · intro hcodes
    refine h.codes fun r hr => ?_
    rcases List.mem_append.mp hr with hr | hr
    · exact hcodes r hr
    · exact h.afterCodes r hr
  · have hle := h.length_le
    have hlen : p.chain.length = (p.before ++ p.rem.toList).length + p.after.length := by
      rw [hchain, List.length_append]
    rw [← List.length_eq_zero_iff]
    change p.chain.length ≤ own.length at hle
    change (p.before ++ p.rem.toList).length = own.length ↔
      p.chain.length = own.length ∧ p.after.length = 0
    omega

/-- The end of a remote. -/
theorem Beside.finishRemote (h : Beside base own true p t) (rem : ConfRemote) :
    Beside base (own ++ [rem]) false { p with mode := .none, rem := some rem, after := [] }
        { t with mode := .none, rem := some rem, after := [] } ∧
      (Complete (own ++ [rem]) false { p with mode := .none, rem := some rem, after := [] } ↔
        Complete own true p) := by
  have hchain : ∀ r : Parser, Parser.chain { r with mode := .none, rem := some rem, after := [] } =
      r.before ++ [rem] := fun r => List.append_nil _
  have htext : t.before = base ++ own := h.text
  refine ⟨⟨rfl, fun _ => rfl, fun hmode => absurd hmode Bool.false_ne_true, ?_, rfl, ?_, ?_,
    fun _ hr => absurd hr List.not_mem_nil⟩, ?_⟩
  · exact (hchain t).trans (by rw [htext, List.append_assoc])
  · have hsub := h.ended
    change ((Parser.chain _).map postProcess).Subperm _
    rw [hchain, List.map_append, List.map_append]
    exact (List.subperm_append_right _).mpr hsub
  · change (∀ r ∈ Parser.chain _, r.codes.isSome) → _
    rw [hchain]
    intro hcodes r hr
    rcases List.mem_append.mp hr with hr | hr
    · exact h.codes (fun r hr => hcodes r (List.mem_append_left _ hr)) r hr
    · exact hcodes r (List.mem_append_right _ hr)
  · change (Parser.chain _).length = _ ↔ p.before.length = own.length
    rw [hchain, List.length_append, List.length_append]
    exact Nat.add_right_cancel_iff

/-- A line that neither begins nor ends a remote. -/
theorem Beside.otherLine (h : Beside base own inRemote p t) {ws : List (List Char)}
    (hbegin : sectionWords "begin".toList "remote".toList ws = false)
    (hend : sectionWords "end".toList "remote".toList ws = false)
    (hline : plainLine p ws = .ok q) :
    q.after = p.after ∧ (Complete own inRemote q ↔ Complete own inRemote p) ∧
      ∃ u, plainLine t ws = .ok u ∧ Beside base own inRemote q u := by
  cases inRemote with
  | false =>
      rw [plainLine_outside (h.closed rfl) hbegin] at hline
      rw [plainLine_outside (h.mode ▸ h.closed rfl) hbegin]
      cases hempty : plainLine {} ws with
      | error e =>
          rw [hempty] at hline
          cases hline
      | ok u =>
          rw [hempty] at hline
          cases hline
          exact ⟨rfl, .rfl, t, rfl, h⟩
  | true =>
      obtain ⟨hinside, hrem, hafter⟩ := h.opened rfl
      have hself := plainLine_frame p p.before p.after hbegin hend
      have hother := plainLine_frame p t.before t.after hbegin hend
      have hp : p.frame p.before p.after = p := rfl
      have ht : p.frame t.before t.after = t := by
        rw [Parser.frame, h.mode, hrem]
      rw [hp, hline] at hself
      rw [ht, hline] at hother
      have hq : q = q.frame p.before p.after := Except.ok.inj hself
      have hbefore : q.before = p.before := by rw [hq]; rfl
      have hqafter : q.after = p.after := by rw [hq]; rfl
      have hended : q.ended true = p.ended true := hbefore
      refine ⟨hqafter, ?_, q.frame t.before t.after, hother, ?_⟩
      · rw [Complete, Complete, hended]
      · refine ⟨rfl, fun hmode => absurd hmode.symm Bool.false_ne_true,
          fun _ => ⟨plainLine_inside hinside hbegin hend hline, rfl, hqafter.trans hafter⟩,
          h.text, h.after, hended ▸ h.ended, hended ▸ h.codes, hqafter ▸ h.afterCodes⟩

/-- Begun remotes of a place in a text. -/
def begun (own : List ConfRemote) (inRemote : Bool) : ℕ := own.length + inRemote.toNat

/-- One line of a file that includes nothing. -/
theorem Beside.line (h : Beside base own inRemote p t) {buf : List Char}
    (hline : plainLine p (words buf) = .ok q) :
    ∃ u own', plainLine t (words buf) = .ok u ∧
      Beside base own' (openAfter inRemote buf) q u ∧
      begun own' (openAfter inRemote buf) = begun own inRemote + (beginsRemote buf).toNat ∧
      (Complete own' (openAfter inRemote buf) q ↔
        Complete own inRemote p ∧ (beginsRemote buf = true → p.after = [])) ∧
      (q.after = [] ↔ beginsRemote buf = true ∨ p.after = []) := by
  by_cases hbegin : beginsRemote buf = true
  · rw [openAfter, if_pos hbegin]
    rw [plainLine_begin hbegin] at hline ⊢
    obtain ⟨_, hmode, hq⟩ := Config.bind_ok hline
    have hmode := checkMode_ok hmode
    cases h.closed_of_mode hmode
    cases hq
    obtain ⟨hbeside, hcomplete⟩ := h.begin
    refine ⟨_, own, ?_, hbeside, ?_, ?_, ?_⟩
    · rw [checkMode, if_pos (h.mode ▸ hmode)]
      rfl
    · rw [begun, begun, hbegin]
      rfl
    · rw [hcomplete]
      exact and_congr_right fun _ => ⟨fun hafter _ => hafter, fun hafter => hafter hbegin⟩
    · exact ⟨fun _ => .inl hbegin, fun _ => rfl⟩
  · have hbegin := eq_false_of_ne_true hbegin
    by_cases hend : endsRemote buf = true
    · rw [openAfter, if_neg (by rw [hbegin]; exact Bool.false_ne_true), if_pos hend]
      rw [plainLine_end hend] at hline ⊢
      obtain ⟨_, hmode, hrest⟩ := Config.bind_ok hline
      have hmode := checkMode_ok hmode
      cases h.opened_of_mode (by rw [hmode]; exact Mode.noConfusion)
      obtain ⟨p', hp', hq⟩ := Config.bind_ok hrest
      obtain ⟨rem, rem', hrem, hcheck, rfl⟩ := onRem_ok hp'
      cases hq
      obtain ⟨-, hsame, hafter⟩ := h.opened rfl
      obtain ⟨hbeside, hcomplete⟩ := h.finishRemote rem'
      refine ⟨_, own ++ [rem'], ?_, hbeside, ?_, ?_, ?_⟩
      · rw [checkMode, if_pos (h.mode ▸ hmode), Parser.onRem, ← hsame, hrem]
        simp only [hcheck]
        rfl
      · rw [begun, begun, hbegin, List.length_append]
        rfl
      · rw [hcomplete]
        exact ⟨fun hc => ⟨hc, fun _ => hafter⟩, fun hc => hc.1⟩
      · exact ⟨fun _ => .inr hafter, fun _ => rfl⟩
    · have hend := eq_false_of_ne_true hend
      have hopen : openAfter inRemote buf = inRemote := by
        rw [openAfter, hbegin, hend, if_neg Bool.false_ne_true, if_neg Bool.false_ne_true]
      obtain ⟨hafter, hcomplete, u, hu, hbeside⟩ := h.otherLine hbegin hend hline
      rw [hopen]
      refine ⟨u, own, hu, hbeside, ?_, ?_, ?_⟩
      · rw [hbegin]
        rfl
      · rw [hcomplete, hbegin]
        exact ⟨fun hc => ⟨hc, fun hb => absurd hb Bool.false_ne_true⟩, fun hc => hc.1⟩
      · rw [hafter, hbegin]
        exact ⟨.inr, fun hor => hor.resolve_left Bool.false_ne_true⟩

/-! ### Included files -/

/-- The text of a file is determined by the files. -/
theorem Expands.unique {files : List Char → Option (List Char)} {levels : ℕ}
    {name : List Char} {inRemote : Bool} {bufs text text' : List (List Char)}
    (h : Expands files levels name inRemote bufs text)
    (h' : Expands files levels name inRemote bufs text') : text = text' := by
  induction h generalizing text' with
  | nil =>
      cases h'
      rfl
  | line hline _ ih =>
      cases h' with
      | line _ hbufs => rw [ih hbufs]
      | file hfile => rw [hline] at hfile; cases hfile
  | file hline hpath hcontent _ _ ihchild ih =>
      cases h' with
      | line hnone => rw [hline] at hnone; cases hnone
      | file hline' hpath' hcontent' hchild' hbufs' =>
          cases hline.symm.trans hline'
          cases hpath.symm.trans hpath'
          cases hcontent.symm.trans hcontent'
          rw [ihchild hchild', ih hbufs']

/-- A list of remotes is hung in. -/
theorem Beside.file (h : Beside base own false p t) {child : List ConfRemote} {p' u : Parser}
    (hchild : Beside t.chain child false p' u) {remotes : List ConfRemote}
    (hfinish : finish p' = .ok remotes) :
    Beside base (own ++ child) false (p.splice remotes) u ∧
      (Complete (own ++ child) false (p.splice remotes) ↔
        (Complete own false p ∧ p.after = []) ∧ Complete child false p') ∧
      (Complete child false p' → ((p.splice remotes).after = [] ↔ child.length ≤ 1)) := by
  obtain ⟨-, hcodes, hremotes⟩ := finish_ok hfinish
  have hperm : remotes.Perm (p'.chain.map postProcess) := hremotes ▸ sortByBitCount_perm _
  have hchain : (p.splice remotes).chain = p.before ++ p.rem.toList ++ remotes := by
    cases remotes with
    | nil => rfl
    | cons r rs =>
        change p.before ++ p.rem.toList ++ [r] ++ rs = _
        rw [List.append_assoc _ [r] rs]
        rfl
  have hafter : (p.splice remotes).after = remotes.tail := by
    cases remotes with
    | nil => rfl
    | cons r rs => rfl
  have hremoteCodes : ∀ r ∈ remotes, r.codes.isSome := by
    intro r hr
    obtain ⟨r', hr', rfl⟩ := List.mem_map.mp (hperm.subset hr)
    rw [postProcess_codes]
    exact hcodes r' hr'
  have hchildSub : (remotes.map postProcess).Subperm (child.map postProcess) := by
    have hagain : (p'.chain.map postProcess).map postProcess = p'.chain.map postProcess := by
      rw [List.map_map]
      exact List.map_congr_left fun r _ => postProcess_idem r
    have hmap := hperm.map postProcess
    rw [hagain] at hmap
    exact hmap.subperm.trans hchild.ended
  have hlen : remotes.length = p'.chain.length := by
    rw [hperm.length_eq, List.length_map]
  have hmode : (p.splice remotes).mode = .none := by
    have hp := h.closed rfl
    cases remotes with
    | nil => exact hp
    | cons r rs => exact hp
  have hpchain : p.chain = p.before ++ p.rem.toList ++ p.after := rfl
  generalize p.before ++ p.rem.toList = front at hchain hpchain
  have hsub : front.Sublist p.chain := hpchain ▸ List.sublist_append_left ..
  refine ⟨⟨?_, fun _ => hmode, fun hopen => absurd hopen Bool.false_ne_true, ?_, hchild.after,
    ?_, ?_, ?_⟩, ?_, ?_⟩
  · rw [hmode, ← hchild.mode, hchild.closed rfl]
  · have htext : t.chain = base ++ own := h.text
    rw [← List.append_assoc, ← htext]
    exact hchild.text
  · change ((p.splice remotes).chain.map postProcess).Subperm _
    rw [hchain, List.map_append, List.map_append]
    exact ((hsub.map postProcess).subperm.trans h.ended).append hchildSub
  · change (∀ r ∈ (p.splice remotes).chain, r.codes.isSome) → _
    rw [hchain]
    intro hall r hr
    rcases List.mem_append.mp hr with hr | hr
    · refine h.codes (fun r hr => ?_) r hr
      change r ∈ p.chain at hr
      rw [hpchain] at hr
      rcases List.mem_append.mp hr with hr | hr
      · exact hall r (List.mem_append_left _ hr)
      · exact h.afterCodes r hr
    · exact hchild.codes hcodes r hr
  · rw [hafter]
    exact fun r hr => hremoteCodes r (List.mem_of_mem_tail hr)
  · have hle : p.chain.length ≤ own.length := h.length_le
    have hlechild : p'.chain.length ≤ child.length := hchild.length_le
    have hsum : p.chain.length = front.length + p.after.length :=
      hpchain ▸ List.length_append
    rw [← List.length_eq_zero_iff]
    change (p.splice remotes).chain.length = _ ↔
      (p.chain.length = own.length ∧ p.after.length = 0) ∧ p'.chain.length = child.length
    rw [hchain, List.length_append, List.length_append, hlen]
    omega
  · intro hcomplete
    have hcount : p'.chain.length = child.length := hcomplete
    rw [hafter, ← List.length_eq_zero_iff, List.length_tail, hlen, hcount]
    omega

/-- The files against their text: what the run on the text comes upon is the
run on the files, and nothing is missing exactly when nothing follows an
included file of several remotes. -/
theorem Expands.run {files : List Char → Option (List Char)} {levels : ℕ} {name : List Char}
    {inRemote : Bool} {bufs text : List (List Char)}
    (hexp : Expands files levels name inRemote bufs text)
    (files' : List Char → Option (List Char)) (levels' : ℕ) (name' : List Char)
    (h : Beside base own inRemote p t) (hrun : readLines files levels name p bufs = .ok q) :
    ∃ u own' inRemote', readLines files' levels' name' t text = .ok u ∧
      Beside base own' inRemote' q u ∧
      begun own' inRemote' = begun own inRemote + remoteCount text ∧
      (Complete own' inRemote' q ↔ Complete own inRemote p ∧
        (p.after = [] ∨ hasItem bufs = false) ∧ Spliceable files levels name bufs) := by
  induction hexp generalizing base own p t q with
  | nil =>
      rw [readLines_nil] at hrun
      cases hrun
      refine ⟨t, own, _, readLines_nil, h, rfl, ?_⟩
      exact ⟨fun hc => ⟨hc, .inr rfl, .nil⟩, fun hc => hc.1⟩
  | @line levels name buf inRemote bufs text hline hbufs ih =>
      obtain ⟨hlong, p', hp', hrest⟩ := readLines_line hline hrun
      obtain ⟨t', own', ht', hbeside, hbegun, hcomplete, hafter⟩ := h.line hp'
      obtain ⟨u, own'', inRemote'', hu, hbeside', hbegun', hcomplete'⟩ := ih hbeside hrest
      have hitem : hasItem (buf :: bufs) = (beginsRemote buf || hasItem bufs) := by
        rw [hasItem, List.any_cons, hline, Option.isSome_none, Bool.or_false]
        rfl
      have hsplice : Spliceable files levels name (buf :: bufs) ↔
          Spliceable files levels name bufs := by
        refine ⟨fun hs => ?_, .line hline⟩
        cases hs with
        | line _ hs => exact hs
        | file hfile => rw [hline] at hfile; cases hfile
      refine ⟨u, own'', inRemote'', ?_, hbeside', ?_, ?_⟩
      · rw [readLines_of_line hline hlong ht', hu]
      · rw [hbegun', hbegun, remoteCount, remoteCount, List.countP_cons]
        cases beginsRemote buf with
        | false => rfl
        | true => exact Nat.add_right_comm ..
      · rw [hcomplete', hcomplete, hafter, hitem, hsplice]
        cases beginsRemote buf with
        | false => simp
        | true => simp [and_assoc]
  | @file levels name buf val path content bufs child text hline hpath hcontent hchild hbufs
      ihchild ih =>
      obtain ⟨p', remotes, hp', hfinish, hrest⟩ := readLines_file hline hpath hcontent hrun
      have hstart := Beside.start (h.mode ▸ h.closed rfl) h.after
      obtain ⟨u, ownChild, inRemote', hu, hbeside, hbegun, hcomplete⟩ := ihchild hstart hp'
      cases hbeside.closed_of_mode (finish_ok hfinish).1
      obtain ⟨hfile, hfileComplete, hfileAfter⟩ := h.file hbeside hfinish
      obtain ⟨u', own', inRemote'', hu', hbeside', hbegun', hcomplete'⟩ := ih hfile hrest
      have hcount : ownChild.length = remoteCount child := by
        simpa [begun] using hbegun
      have hchildComplete : Complete ownChild false p' ↔
          Spliceable files levels path (fgetsAll content) := by
        rw [hcomplete]
        exact ⟨fun hc => hc.2.2, fun hs => ⟨rfl, .inl rfl, hs⟩⟩
      have hitem : hasItem (buf :: bufs) = true := by
        rw [hasItem, List.any_cons, hline, Option.isSome_some, Bool.or_true, Bool.true_or]
      have hsplice : Spliceable files (levels + 1) name (buf :: bufs) ↔
          Spliceable files levels path (fgetsAll content) ∧
            (remoteCount child ≤ 1 ∨ hasItem bufs = false) ∧
            Spliceable files (levels + 1) name bufs := by
        constructor
        · intro hs
          cases hs with
          | line hnone => rw [hline] at hnone; cases hnone
          | file hline' hpath' hcontent' hchild' hlast hs hbufs =>
              cases hline.symm.trans hline'
              cases hpath.symm.trans hpath'
              cases hcontent.symm.trans hcontent'
              cases hchild.unique hchild'
              exact ⟨hs, hlast, hbufs⟩
        · exact fun ⟨hs, hlast, hbufs⟩ => .file hline hpath hcontent hchild hlast hs hbufs
      refine ⟨u', own', inRemote'', ?_, hbeside', ?_, ?_⟩
      · rw [readLines_append, hu]
        exact hu'
      · rw [hbegun', begun, begun, remoteCount, remoteCount, List.countP_append,
          List.length_append, hcount, remoteCount]
        omega
      · rw [hcomplete', hfileComplete, hsplice, hitem]
        constructor
        · rintro ⟨⟨⟨hc, hafter⟩, hcchild⟩, hlast, hs⟩
          have hone : remoteCount child ≤ 1 ∨ hasItem bufs = false := by
            rw [hfileAfter hcchild, hcount] at hlast
            exact hlast
          exact ⟨hc, .inl hafter, hchildComplete.mp hcchild, hone, hs⟩
        · rintro ⟨hc, hafter, hchildS, hlast, hs⟩
          have hcchild := hchildComplete.mpr hchildS
          rw [hfileAfter hcchild, hcount]
          exact ⟨⟨⟨hc, hafter.resolve_right nofun⟩, hcchild⟩, hlast, hs⟩

/-- Reading a file with the files it includes gives remotes of its text, in
the order of their bit counts. All of them are there exactly when nothing
follows an included file of several remotes. -/
theorem readConfig_perm_expanded {files : List Char → Option (List Char)}
    {name content : List Char} {text : List (List Char)} {remotes : List ConfRemote}
    (htext : Expands files (maxIncludes + 1) name false (fgetsAll content) text)
    (h : readConfig files name content = .ok remotes) :
    ∃ whole, readConfigLines (fun _ => none) name text = .ok whole ∧
      whole.length = remoteCount text ∧ ByBitCount remotes ∧ remotes.Subperm whole ∧
      (remotes.Perm whole ↔ Spliceable files (maxIncludes + 1) name (fgetsAll content)) := by
  obtain ⟨p, hp, hfinish⟩ := Config.bind_ok h
  have hstart : Beside (Parser.chain {}) [] false {} {} := Beside.start rfl rfl
  obtain ⟨u, own, inRemote, hu, hbeside, hbegun, hcomplete⟩ :=
    htext.run (fun _ => none) (maxIncludes + 1) name hstart hp
  obtain ⟨hmode, hcodes, rfl⟩ := finish_ok hfinish
  cases hbeside.closed_of_mode hmode
  have hchain : u.chain = own := hbeside.text
  have hown : ∀ r ∈ u.chain, r.codes.isSome := hchain ▸ hbeside.codes hcodes
  have hwhole := finish_of_closed (hbeside.mode ▸ hmode) hown
  have hactual := sortByBitCount_perm (p.chain.map postProcess)
  have hideal := sortByBitCount_perm (u.chain.map postProcess)
  have hsub : (sortByBitCount (p.chain.map postProcess)).Subperm
      (sortByBitCount (u.chain.map postProcess)) := by
    refine hactual.subperm.trans (List.Subperm.trans ?_ hideal.symm.subperm)
    rw [hchain]
    exact hbeside.ended
  have hperm : (sortByBitCount (p.chain.map postProcess)).Perm
      (sortByBitCount (u.chain.map postProcess)) ↔ Complete own false p := by
    have hlength : p.chain.length = own.length ↔
        (sortByBitCount (p.chain.map postProcess)).length =
          (sortByBitCount (u.chain.map postProcess)).length := by
      rw [hactual.length_eq, hideal.length_eq, List.length_map, List.length_map, hchain]
    refine Iff.trans ?_ hlength.symm
    exact ⟨List.Perm.length_eq, fun hlen => hsub.perm_of_length_le hlen.ge⟩
  refine ⟨sortByBitCount (u.chain.map postProcess), ?_, ?_, sortByBitCount_sorted _, hsub, ?_⟩
  · rw [readConfigLines, hu]
    exact hwhole
  · rw [hideal.length_eq, List.length_map, hchain]
    simpa [begun] using hbegun
  · rw [hperm, hcomplete]
    exact ⟨fun hc => hc.2.2, fun hs => ⟨rfl, .inl rfl, hs⟩⟩

/-- Lines that include nothing stand for themselves. -/
theorem Expands.lines {files : List Char → Option (List Char)} {levels : ℕ} {name : List Char}
    {inRemote : Bool} {as bufs text : List (List Char)} (h : ∀ buf ∈ as, includeOf buf = none)
    (hbufs : Expands files levels name (as.foldl openAfter inRemote) bufs text) :
    Expands files levels name inRemote (as ++ bufs) (as ++ text) := by
  induction as generalizing inRemote with
  | nil => exact hbufs
  | cons buf as ih =>
      exact .line (h buf List.mem_cons_self) (ih (fun b hb => h b (List.mem_cons_of_mem _ hb)) hbufs)

theorem Spliceable.lines {files : List Char → Option (List Char)} {levels : ℕ}
    {name : List Char} {as bufs : List (List Char)} (h : ∀ buf ∈ as, includeOf buf = none)
    (hbufs : Spliceable files levels name bufs) : Spliceable files levels name (as ++ bufs) := by
  induction as with
  | nil => exact hbufs
  | cons buf as ih =>
      exact .line (h buf List.mem_cons_self) (ih fun b hb => h b (List.mem_cons_of_mem _ hb))

/-- A raw remote without buttons. -/
def bareRemote (name : String) : List Char :=
  "begin remote\n name ".toList ++ name.toList ++
    "\n begin raw_codes\n end raw_codes\nend remote\n".toList

/-- A file of two remotes can be included. -/
def twoRemotes (path : List Char) : Option (List Char) :=
  if path = "./two".toList then some (bareRemote "first" ++ bareRemote "second") else none

/-- The names of the remotes. -/
def remoteNames (remotes : Config (List ConfRemote)) : Config (List (Option Name)) :=
  remotes.map (·.map (·.name))

/-- The include line. -/
def includeTwo : List Char := "include <two>\n".toList

theorem readConfig_perm_expanded_last : ∃ remotes whole,
    readConfig twoRemotes "main".toList (bareRemote "third" ++ includeTwo) = .ok remotes ∧
      remotes.Perm whole ∧ whole.length = 3 := by
  have hlines : fgetsAll (bareRemote "third" ++ includeTwo) =
      fgetsAll (bareRemote "third") ++ [includeTwo] := by decide +kernel
  have hinclude : includeOf includeTwo = some "<two>".toList := by decide +kernel
  have hpath : includePath "main".toList "<two>".toList = some "./two".toList := by
    decide +kernel
  have hcontent : twoRemotes "./two".toList =
      some (bareRemote "first" ++ bareRemote "second") := by decide +kernel
  have hthird : ∀ buf ∈ fgetsAll (bareRemote "third"), includeOf buf = none := by decide +kernel
  have hboth : ∀ buf ∈ fgetsAll (bareRemote "first" ++ bareRemote "second"),
      includeOf buf = none := by decide +kernel
  have hclosed : (fgetsAll (bareRemote "third")).foldl openAfter false = false := by
    decide +kernel
  have hchild : Expands twoRemotes maxIncludes "./two".toList false
      (fgetsAll (bareRemote "first" ++ bareRemote "second"))
      (fgetsAll (bareRemote "first" ++ bareRemote "second") ++ []) := by
    simpa only [List.append_nil] using Expands.lines hboth .nil
  have hsplice : Spliceable twoRemotes maxIncludes "./two".toList
      (fgetsAll (bareRemote "first" ++ bareRemote "second")) := by
    simpa only [List.append_nil] using Spliceable.lines hboth .nil
  cases h : readConfig twoRemotes "main".toList (bareRemote "third" ++ includeTwo) with
  | error e =>
      have hok : (readConfig twoRemotes "main".toList
        (bareRemote "third" ++ includeTwo)).toBool = true := by decide +kernel
      rw [h] at hok
      cases hok
  | ok remotes =>
      have hexp := Expands.lines hthird
        (hclosed.symm ▸ Expands.file hinclude hpath hcontent hchild .nil)
      have hall := Spliceable.lines hthird
        (Spliceable.file hinclude hpath hcontent hchild (.inr rfl) hsplice .nil)
      rw [← hlines] at hexp hall
      obtain ⟨whole, -, hlength, -, -, hperm⟩ := readConfig_perm_expanded hexp h
      refine ⟨remotes, whole, rfl, hperm.mpr hall, ?_⟩
      rw [hlength]
      decide +kernel

/-- The second remote of the included file is lost. -/
theorem readConfig_loses_remote :
    remoteNames (readConfig twoRemotes "main".toList (includeTwo ++ bareRemote "third")) =
        .ok [some "first".toList, some "third".toList] ∧
      remoteNames (readConfigLines (fun _ => none) "main".toList
        (fgetsAll (bareRemote "first" ++ bareRemote "second" ++ bareRemote "third"))) =
        .ok [some "first".toList, some "second".toList, some "third".toList] := by
  decide +kernel

end Lirc
