import Lirc.RcFiles

/-!
What a lircrc file says: entries, some of them in blocks of a mode. An entry and
a block that are open at the end of the file end there.

`given` and `kept` differ in one place. By the documentation a remote is valid
for all following buttons of an entry until another one is specified; the reader
also forgets it at a line of unknown words, which it reports as ignored.
-/

namespace Lirc

open Numeral

/-! ### Documents -/

/-- A line of an entry. -/
inductive BodyLine
  | ignored
  | unknown
  | assign (key : Option RcKey) (token2 : Name)
  deriving DecidableEq, Repr

/-- An entry, or a line beside the entries. -/
inductive RcPart
  | ignored
  | unknown
  | entry (body : List BodyLine)
  deriving Repr

/-- A part outside of all modes, or a block with the parts of a mode. -/
inductive RcBlock
  | part (part : RcPart)
  | mode (m : Name) (parts : List RcPart) (m' : Name) (h : strcaseeq m m' = true)

/-- A file: its blocks, and the block and the entry that are open at its end. -/
structure RcDocument where
  blocks : List RcBlock := []
  openMode : Option (Name × List RcPart) := none
  openEntry : Option (List BodyLine) := none

def BodyLine.role : BodyLine → RcRole
  | .ignored => .ignored
  | .unknown => .unknown
  | .assign key token2 => .assign key token2

def RcPart.roles : RcPart → List RcRole
  | .ignored => [.ignored]
  | .unknown => [.unknown]
  | .entry body => .beginEntry :: (body.map BodyLine.role ++ [.endEntry])

def RcBlock.roles : RcBlock → List RcRole
  | .part p => p.roles
  | .mode m parts m' _ => .beginMode m :: (parts.flatMap RcPart.roles ++ [.endMode m'])

namespace RcDocument

variable (doc : RcDocument)

/-- The lines of the block that is open. -/
def modeRoles : List RcRole :=
  match doc.openMode with
  | none => []
  | some (mode, parts) => .beginMode mode :: parts.flatMap RcPart.roles

/-- The lines of the entry that is open. -/
def entryRoles : List RcRole :=
  match doc.openEntry with
  | none => []
  | some body => .beginEntry :: body.map BodyLine.role

/-- The lines of the document. -/
def roles : List RcRole := doc.blocks.flatMap RcBlock.roles ++ (doc.modeRoles ++ doc.entryRoles)

end RcDocument

/-! ### Entries -/

/-- The lines of an entry with the mode it stands in. -/
abbrev RcBody := Option Name × List BodyLine

def RcPart.bodies (mode : Option Name) : RcPart → List RcBody
  | .ignored => []
  | .unknown => []
  | .entry body => [(mode, body)]

def RcBlock.bodies : RcBlock → List RcBody
  | .part p => p.bodies none
  | .mode m parts _ _ => parts.flatMap (RcPart.bodies (some m))

namespace RcDocument

variable (doc : RcDocument)

/-- The mode that is open at the end. -/
def mode : Option Name := doc.openMode.map Prod.fst

def modeBodies : List RcBody :=
  match doc.openMode with
  | none => []
  | some (mode, parts) => parts.flatMap (RcPart.bodies (some mode))

/-- The entries that have ended. -/
def closedBodies : List RcBody := doc.blocks.flatMap RcBlock.bodies ++ doc.modeBodies

/-- All entries in order. -/
def bodies : List RcBody := doc.closedBodies ++ doc.openEntry.toList.map (doc.mode, ·)

end RcDocument

/-- The values that lines assign to a key. -/
def assigned (key : RcKey) (body : List BodyLine) : List Name :=
  body.filterMap fun
    | .assign (some key') token2 => if key' = key then some token2 else none
    | _ => none

@[simp] theorem assigned_nil (key : RcKey) : assigned key [] = [] := rfl

@[simp] theorem assigned_ignored (key : RcKey) (body : List BodyLine) :
    assigned key (.ignored :: body) = assigned key body := rfl

@[simp] theorem assigned_unknown (key : RcKey) (body : List BodyLine) :
    assigned key (.unknown :: body) = assigned key body := rfl

@[simp] theorem assigned_assign (key : RcKey) (key' : Option RcKey) (token2 : Name)
    (body : List BodyLine) :
    assigned key (.assign key' token2 :: body) =
      if key' = some key then token2 :: assigned key body else assigned key body := by
  cases key' with
  | none => rfl
  | some key' =>
      rw [assigned, List.filterMap_cons]
      dsimp only
      split <;> simp_all [assigned]

/-- The value of the last assignment to a key. -/
def lastAssigned {α : Type*} (key : RcKey) (f : Name → α) (x : α) (body : List BodyLine) :
    α :=
  ((assigned key body).getLast?.map f).getD x

section

variable {α : Type*} (key : RcKey) (f : Name → α) (x : α) (body : List BodyLine)

@[simp] theorem lastAssigned_nil : lastAssigned key f x [] = x := rfl

@[simp] theorem lastAssigned_ignored :
    lastAssigned key f x (.ignored :: body) = lastAssigned key f x body := rfl

@[simp] theorem lastAssigned_unknown :
    lastAssigned key f x (.unknown :: body) = lastAssigned key f x body := rfl

@[simp] theorem lastAssigned_assign (key' : Option RcKey) (token2 : Name) :
    lastAssigned key f x (.assign key' token2 :: body) =
      lastAssigned key f (if key' = some key then f token2 else x) body := by
  rw [lastAssigned, lastAssigned, assigned_assign]
  split
  · rw [List.getLast?_cons]
    cases (assigned key body).getLast? <;> rfl
  · rfl

end

def BodyLine.button : BodyLine → Option (Option Name)
  | .assign (some .button) token2 => some (starred token2)
  | _ => none

/-- The remote that is in effect after a line, by the documentation. -/
def given (remote : Option Name) : BodyLine → Option Name
  | .assign key token2 => remoteAfter remote key token2
  | _ => remote

/-- The remote that the reader keeps after a line. -/
def kept (remote : Option Name) : BodyLine → Option Name
  | .assign key token2 => remoteAfter remote key token2
  | .unknown => none
  | .ignored => remote

/-- The buttons of an entry, each with the remote that is in effect. -/
def codesWith (next : Option Name → BodyLine → Option Name) (remote : Option Name) :
    List BodyLine → List RcCode
  | [] => []
  | line :: body =>
      (line.button.map (RcCode.mk remote)).toList ++ codesWith next (next remote line) body

/-- The entry of some lines. -/
def entryWith (next : Option Name → BodyLine → Option Name) (b : RcBody) : RcEntry :=
  RcEntry.close b.1
    { prog := lastAssigned .prog some none b.2
      code := codesWith next none b.2
      repDelay := lastAssigned .delay (fun s => strtou32 (scan s)) 0 b.2
      rep := lastAssigned .rep (fun s => strtou32 (scan s)) 0 b.2
      config := (assigned .config b.2).map lircParseString
      changeMode := lastAssigned .mode some none b.2
      flags := lastAssigned .flags (fun s => RcFlags.ofBits (lircFlags s)) {} b.2
      nextConfig := []
      nextCode := [] }

/-- The entry that the lines of a file say. -/
def entryOf : RcBody → RcEntry := entryWith given

/-- The entries that a document says. -/
def RcDocument.entries (doc : RcDocument) : List RcEntry := doc.bodies.map entryOf

/-- A button comes behind a line of unknown words, and the named remote that is
given for it before that line. -/
def RemoteLost (body : List BodyLine) : Prop :=
  ∃ before remote between button after,
    body = before ++ .assign (some .remote) remote ::
      (between ++ .assign (some .button) button :: after) ∧
    starred remote ≠ none ∧ .unknown ∈ between ∧
    ∀ remote', .assign (some .remote) remote' ∉ between

/-! ### The reader on a document -/

section

variable {env : RcSetting} {p : RcParse}

def bodyStep (x : RcEntry × Option Name) : BodyLine → RcEntry × Option Name
  | .ignored => x
  | .unknown => (x.1, none)
  | .assign key token2 => (x.1.assign x.2 key token2, remoteAfter x.2 key token2)

theorem fold_body {e : RcEntry} (body : List BodyLine) (h : p.newEntry = some e) :
    (body.map BodyLine.role).foldlM (roleStep env) p =
      .ok { p with
        newEntry := some (body.foldl bodyStep (e, p.remote)).1
        remote := (body.foldl bodyStep (e, p.remote)).2 } := by
  induction body generalizing p e with
  | nil =>
      obtain ⟨entries, newEntry, mode, remote⟩ := p
      obtain rfl : newEntry = some e := h
      rfl
  | cons line body ih =>
      have hstep : roleStep env p line.role = .ok { p with
          newEntry := some (bodyStep (e, p.remote) line).1
          remote := (bodyStep (e, p.remote) line).2 } := by
        obtain ⟨entries, newEntry, mode, remote⟩ := p
        obtain rfl : newEntry = some e := h
        cases line <;> rfl
      rw [List.map_cons, List.foldlM_cons, hstep, List.foldl_cons]
      exact ih rfl

/-- What the lines of an entry make of it, key by key. -/
theorem foldl_bodyStep (e : RcEntry) (remote : Option Name) (body : List BodyLine) :
    body.foldl bodyStep (e, remote) =
      ({ e with
          prog := lastAssigned .prog some e.prog body
          code := e.code ++ codesWith kept remote body
          repDelay := lastAssigned .delay (fun s => strtou32 (scan s)) e.repDelay body
          rep := lastAssigned .rep (fun s => strtou32 (scan s)) e.rep body
          config := e.config ++ (assigned .config body).map lircParseString
          changeMode := lastAssigned .mode some e.changeMode body
          flags := lastAssigned .flags (fun s => RcFlags.ofBits (lircFlags s)) e.flags body },
        body.foldl kept remote) := by
  induction body generalizing e remote with
  | nil => simp [codesWith]
  | cons line body ih =>
      rw [List.foldl_cons]
      cases line with
      | ignored => simp [bodyStep, ih, codesWith, kept, BodyLine.button]
      | unknown => simp [bodyStep, ih, codesWith, kept, BodyLine.button]
      | assign key token2 =>
          cases key with
          | none =>
              simp [bodyStep, ih, codesWith, kept, BodyLine.button, RcEntry.assign,
                remoteAfter]
          | some key =>
              cases key <;>
                simp [bodyStep, ih, codesWith, kept, BodyLine.button, RcEntry.assign,
                  remoteAfter]

/-- What the reader makes of the lines of an entry. -/
def readEntry : RcBody → RcEntry := entryWith kept

theorem close_foldl_bodyStep (b : RcBody) :
    (b.2.foldl bodyStep ({}, none)).1.close b.1 = readEntry b := by
  rw [foldl_bodyStep]
  rfl

/-- Only the names of the remotes depend on what is given and what is kept. -/
theorem accepts_readEntry (b : RcBody) : env.accepts (readEntry b) = env.accepts (entryOf b) := rfl

/-- The function `check` accepts all entries. -/
def AllAccepted (env : RcSetting) (bodies : List RcBody) : Prop :=
  ∀ b ∈ bodies, env.accepts (entryOf b) = true

instance (env : RcSetting) (bodies : List RcBody) : Decidable (AllAccepted env bodies) :=
  inferInstanceAs (Decidable (∀ b ∈ bodies, env.accepts (entryOf b) = true))

/-- What has been read after some entries, or the failure of one of them. -/
def collect (env : RcSetting) (p : RcParse) (bodies : List RcBody) : Except RcResult RcParse :=
  if AllAccepted env bodies then .ok { p with entries := p.entries ++ bodies.map readEntry }
  else .error env.failed

@[simp] theorem collect_nil : collect env p [] = .ok p := by
  simp [collect, AllAccepted]

theorem collect_append (bodies bodies' : List RcBody) :
    collect env p (bodies ++ bodies') =
      collect env p bodies >>= fun p => collect env p bodies' := by
  have hall : AllAccepted env (bodies ++ bodies') ↔
      AllAccepted env bodies ∧ AllAccepted env bodies' := List.forall_mem_append
  by_cases hfirst : AllAccepted env bodies
  · rw [collect, collect, if_pos hfirst]
    change _ = collect env _ bodies'
    rw [collect]
    by_cases hsecond : AllAccepted env bodies'
    · rw [if_pos (hall.mpr ⟨hfirst, hsecond⟩), if_pos hsecond, List.map_append,
        List.append_assoc]
    · rw [if_neg fun h => hsecond (hall.mp h).2, if_neg hsecond]
  · rw [collect, collect, if_neg hfirst, if_neg fun h => hfirst (hall.mp h).1]
    rfl

theorem collect_single (b : RcBody) :
    collect env p [b] =
      if env.accepts (entryOf b) then .ok { p with entries := p.entries ++ [readEntry b] }
      else .error env.failed := by
  simp only [collect, AllAccepted, List.forall_mem_singleton, List.map_singleton]

theorem collect_ok {q : RcParse} {bodies : List RcBody} (h : collect env p bodies = .ok q) :
    AllAccepted env bodies ∧ q = { p with entries := p.entries ++ bodies.map readEntry } := by
  rw [collect] at h
  split at h
  · next hall => exact ⟨hall, (Except.ok.inj h).symm⟩
  · exact absurd h nofun

/-! ### The run over a document -/

theorem fold_append {q : RcParse} {roles roles' : List RcRole}
    (h : roles.foldlM (roleStep env) p = .ok q) :
    (roles ++ roles').foldlM (roleStep env) p = roles'.foldlM (roleStep env) q := by
  rw [List.foldlM_append, h]
  rfl

theorem fold_cons {q : RcParse} {role : RcRole} {roles : List RcRole}
    (h : roleStep env p role = .ok q) :
    (role :: roles).foldlM (roleStep env) p = roles.foldlM (roleStep env) q := by
  rw [List.foldlM_cons, h]
  rfl

theorem fold_single (role : RcRole) :
    [role].foldlM (roleStep env) p = roleStep env p role := by
  simp only [List.foldlM_cons, List.foldlM_nil, bind_pure]

/-- The run over parts of a run over something that has been collected first. -/
theorem fold_collected {roles : List RcRole} {bodies bodies' : List RcBody}
    (h : ∀ entries, roles.foldlM (roleStep env) { p with entries } =
      collect env { p with entries } bodies') :
    (collect env p bodies >>= fun q => roles.foldlM (roleStep env) q) =
      collect env p (bodies ++ bodies') := by
  rw [collect_append]
  cases hcollect : collect env p bodies with
  | error r => rfl
  | ok q =>
      obtain ⟨-, rfl⟩ := collect_ok hcollect
      exact h _

/-- Between the entries no entry is open and no remote is in effect. -/
def RcParse.Between (p : RcParse) : Prop := p.newEntry = none ∧ p.remote = none

theorem fold_part (part : RcPart) (h : p.Between) :
    part.roles.foldlM (roleStep env) p = collect env p (part.bodies p.mode) := by
  obtain ⟨entries, newEntry, mode, remote⟩ := p
  obtain ⟨rfl, rfl⟩ : newEntry = none ∧ remote = none := h
  cases part with
  | ignored =>
      rw [RcPart.bodies, collect_nil]
      rfl
  | unknown =>
      rw [RcPart.bodies, collect_nil]
      rfl
  | entry body =>
      have hbegin : roleStep env { entries, newEntry := none, mode, remote := none } .beginEntry =
          .ok { entries, newEntry := some {}, mode, remote := none } := rfl
      have hend : env.accepts (body.foldl bodyStep ({}, none)).1 =
          env.accepts (entryOf (mode, body)) := by
        rw [← accepts_readEntry, ← close_foldl_bodyStep]
        rfl
      rw [RcPart.roles, fold_cons hbegin, fold_append (fold_body body rfl), fold_single,
        RcPart.bodies, collect_single, ← close_foldl_bodyStep, ← hend]
      rfl

/-- The parts of a mode, or outside of all modes, leave only entries behind. -/
theorem fold_parts (parts : List RcPart) (h : p.Between) :
    (parts.flatMap RcPart.roles).foldlM (roleStep env) p =
      collect env p (parts.flatMap (RcPart.bodies p.mode)) := by
  induction parts generalizing p with
  | nil => exact collect_nil.symm
  | cons part parts ih =>
      rw [List.flatMap_cons, List.foldlM_append, fold_part part h, List.flatMap_cons]
      exact fold_collected fun entries => ih h

theorem fold_block (block : RcBlock) (h : p.Between) (hmode : p.mode = none) :
    block.roles.foldlM (roleStep env) p = collect env p block.bodies := by
  obtain ⟨entries, newEntry, mode, remote⟩ := p
  obtain ⟨rfl, rfl⟩ : newEntry = none ∧ remote = none := h
  obtain rfl : mode = none := hmode
  cases block with
  | part part => exact fold_part part ⟨rfl, rfl⟩
  | mode m parts m' hm =>
      have hbegin : roleStep env { entries } (.beginMode m) = .ok { entries, mode := some m } :=
        rfl
      have hend (entries : List RcEntry) :
          roleStep env { entries, mode := some m } (.endMode m') = .ok { entries } := by
        rw [roleStep, if_pos ⟨rfl, hm⟩]
      rw [RcBlock.roles, fold_cons hbegin, List.foldlM_append, fold_parts parts ⟨rfl, rfl⟩,
        RcBlock.bodies]
      rw [collect, collect]
      split
      · exact (fold_single _).trans (hend _)
      · rfl

theorem fold_blocks (blocks : List RcBlock) (h : p.Between) (hmode : p.mode = none) :
    (blocks.flatMap RcBlock.roles).foldlM (roleStep env) p =
      collect env p (blocks.flatMap RcBlock.bodies) := by
  induction blocks generalizing p with
  | nil => exact collect_nil.symm
  | cons block blocks ih =>
      rw [List.flatMap_cons, List.foldlM_append, fold_block block h hmode, List.flatMap_cons]
      exact fold_collected fun entries => ih h hmode

namespace RcDocument

/-- What has been read at the end of a document. -/
def state (doc : RcDocument) : RcParse where
  entries := doc.closedBodies.map readEntry
  newEntry := doc.openEntry.map fun body => (body.foldl bodyStep ({}, none)).1
  mode := doc.mode
  remote := doc.openEntry.elim none fun body => (body.foldl bodyStep ({}, none)).2

variable (doc : RcDocument)

theorem fold_closed :
    (doc.blocks.flatMap RcBlock.roles ++ doc.modeRoles).foldlM (roleStep env) {} =
      collect env { mode := doc.mode } doc.closedBodies := by
  obtain ⟨blocks, openMode, openEntry⟩ := doc
  rw [List.foldlM_append, fold_blocks blocks ⟨rfl, rfl⟩ rfl, closedBodies, collect_append]
  cases openMode with
  | none =>
      change collect env {} _ >>= (fun q => .ok q) =
        collect env {} _ >>= fun q => collect env q []
      simp only [collect_nil]
  | some x =>
      have hbegin (entries : List RcEntry) :
          roleStep env { entries } (.beginMode x.1) = .ok { entries, mode := some x.1 } := rfl
      rw [collect, collect]
      split
      · exact (fold_cons (hbegin _)).trans (fold_parts x.2 ⟨rfl, rfl⟩)
      · rfl

theorem fold_entryRoles (h : p.Between) :
    doc.entryRoles.foldlM (roleStep env) p =
      .ok { p with
        newEntry := doc.openEntry.map fun body => (body.foldl bodyStep ({}, none)).1
        remote := doc.openEntry.elim none fun body => (body.foldl bodyStep ({}, none)).2 } := by
  obtain ⟨entries, newEntry, mode, remote⟩ := p
  obtain ⟨rfl, rfl⟩ : newEntry = none ∧ remote = none := h
  rw [entryRoles]
  cases doc.openEntry with
  | none => rfl
  | some body =>
      have hbegin : roleStep env { entries, mode } .beginEntry =
          .ok { entries, newEntry := some {}, mode } := rfl
      exact (fold_cons hbegin).trans (fold_body body rfl)

/-- A document is read through when the entries that have ended are accepted. -/
theorem fold_roles :
    doc.roles.foldlM (roleStep env) {} =
      if AllAccepted env doc.closedBodies then .ok doc.state else .error env.failed := by
  rw [roles, ← List.append_assoc, List.foldlM_append, fold_closed, collect]
  split
  · exact doc.fold_entryRoles ⟨rfl, rfl⟩
  · rfl

theorem finish_closed (h : p.newEntry = none) (out : RcOut) :
    RcReader.finish env p out =
      .config (.ofEntries env.lircProg p.entries) out.saveFullName out.shaBang := by
  rw [RcReader.finish, if_pos h]

/-- An entry that is open at the end of the file ends there. -/
theorem finish_open {e : RcEntry} (h : p.newEntry = some e) (out : RcOut) :
    RcReader.finish env p out =
      if env.accepts e then
        .config (.ofEntries env.lircProg (p.entries ++ [e.close p.mode])) out.saveFullName
          out.shaBang
      else env.failed := by
  rw [RcReader.finish, if_neg (by rw [h]; exact nofun), lircMode.eq_def, if_neg (by decide),
    if_pos (by decide)]
  dsimp only
  rw [h]
  dsimp only
  cases env.accepts e <;> rfl

/-- The result for a document: its entries as they are read, where all of them are
accepted. -/
theorem foldedResult_roles (out : RcOut) :
    foldedResult env out (doc.roles.foldlM (roleStep env) {}) =
      if AllAccepted env doc.bodies then
        .config (.ofEntries env.lircProg (doc.bodies.map readEntry)) out.saveFullName out.shaBang
      else env.failed := by
  have hmap : (doc.closedBodies.map readEntry) = doc.state.entries := rfl
  rw [fold_roles]
  cases hopen : doc.openEntry with
  | none =>
      have hbodies : doc.bodies = doc.closedBodies := by
        rw [bodies, hopen]
        exact List.append_nil _
      have hnew : doc.state.newEntry = none := by rw [state, hopen]; rfl
      rw [hbodies, hmap]
      split
      · exact finish_closed hnew out
      · rfl
  | some body =>
      have hbodies : doc.bodies = doc.closedBodies ++ [(doc.mode, body)] := by
        rw [bodies, hopen]
        rfl
      have hnew : doc.state.newEntry = some (body.foldl bodyStep ({}, none)).1 := by
        rw [state, hopen]
        rfl
      have haccepts : env.accepts (body.foldl bodyStep ({}, none)).1 =
          env.accepts (entryOf (doc.mode, body)) := by
        rw [← accepts_readEntry, ← close_foldl_bodyStep]
        rfl
      have hall : AllAccepted env (doc.closedBodies ++ [(doc.mode, body)]) ↔
          AllAccepted env doc.closedBodies ∧ env.accepts (entryOf (doc.mode, body)) = true := by
        rw [AllAccepted, List.forall_mem_append, List.forall_mem_singleton]
        rfl
      rw [hbodies, List.map_append, List.map_singleton, hmap,
        ← close_foldl_bodyStep (doc.mode, body)]
      by_cases hclosed : AllAccepted env doc.closedBodies
      · simp only [hall, hclosed, true_and]
        exact (finish_open hnew out).trans (by rw [haccepts]; rfl)
      · rw [if_neg hclosed, if_neg fun h => hclosed (hall.mp h).1]
        rfl

/-! ### Texts that are documents -/

/-- The document without the entry that is open. -/
def withoutOpen : RcDocument := { doc with openEntry := none }

/-- A further part; no entry is open. -/
def addPart (part : RcPart) : RcDocument :=
  match doc.openMode with
  | none => { doc with blocks := doc.blocks ++ [.part part] }
  | some (mode, parts) => { doc with openMode := some (mode, parts ++ [part]) }

theorem roles_addPart (hopen : doc.openEntry = none) (part : RcPart) :
    (doc.addPart part).roles = doc.roles ++ part.roles := by
  obtain ⟨blocks, openMode, openEntry⟩ := doc
  obtain rfl : openEntry = none := hopen
  cases openMode with
  | none => simp [addPart, roles, modeRoles, entryRoles, RcBlock.roles]
  | some x => simp [addPart, roles, modeRoles, entryRoles]

theorem roles_open {body : List BodyLine} (hopen : doc.openEntry = some body) :
    doc.roles = doc.withoutOpen.roles ++ .beginEntry :: body.map BodyLine.role := by
  simp [roles, withoutOpen, modeRoles, entryRoles, hopen]

/-- A line that has been read goes on with the document before it. -/
theorem exists_of_step {role : RcRole} {q : RcParse}
    (h : roleStep env doc.state role = .ok q) :
    ∃ doc' : RcDocument, doc'.roles = doc.roles ++ [role] := by
  have hline : ∀ (line : BodyLine) (body : List BodyLine), doc.openEntry = some body →
      ∃ doc' : RcDocument, doc'.roles = doc.roles ++ [line.role] := by
    intro line body hopen
    refine ⟨{ doc with openEntry := some (body ++ [line]) }, ?_⟩
    simp [roles, modeRoles, entryRoles, hopen]
  have hnew : doc.state.newEntry = none → doc.openEntry = none := by
    intro hnone
    cases hopen : doc.openEntry with
    | none => rfl
    | some body =>
        rw [state, hopen] at hnone
        cases hnone
  cases role with
  | ignored =>
      cases hopen : doc.openEntry with
      | none => exact ⟨doc.addPart .ignored, doc.roles_addPart hopen _⟩
      | some body => exact hline .ignored body hopen
  | unknown =>
      cases hopen : doc.openEntry with
      | none => exact ⟨doc.addPart .unknown, doc.roles_addPart hopen _⟩
      | some body => exact hline .unknown body hopen
  | assign key token2 =>
      cases hopen : doc.openEntry with
      | none =>
          rw [roleStep, state, hopen] at h
          cases h
      | some body => exact hline (.assign key token2) body hopen
  | beginEntry =>
      rw [roleStep] at h
      split at h
      · next hnone =>
          refine ⟨{ doc with openEntry := some [] }, ?_⟩
          simp [roles, modeRoles, entryRoles, hnew hnone]
      · cases h
  | endEntry =>
      cases hopen : doc.openEntry with
      | none =>
          rw [roleStep, state, hopen] at h
          cases h
      | some body =>
          refine ⟨doc.withoutOpen.addPart (.entry body), ?_⟩
          rw [roles_addPart _ rfl, doc.roles_open hopen, RcPart.roles, List.append_assoc]
          rfl
  | beginMode mode =>
      rw [roleStep] at h
      split at h
      · next hnone =>
          have hmode : doc.openMode = none := Option.map_eq_none_iff.mp hnone.2
          refine ⟨{ doc with openMode := some (mode, []) }, ?_⟩
          simp [roles, modeRoles, entryRoles, hnew hnone.1, hmode]
      · cases h
  | endMode mode =>
      rw [roleStep] at h
      split at h
      · next hmode =>
          cases hopen : doc.openMode with
          | none =>
              rw [state, RcDocument.mode, hopen] at hmode
              exact absurd hmode.2 Bool.false_ne_true
          | some x =>
              have heq : strcaseeq x.1 mode = true := by
                have hany := hmode.2
                rwa [state, RcDocument.mode, hopen] at hany
              refine ⟨{ blocks := doc.blocks ++ [.mode x.1 x.2 mode heq] }, ?_⟩
              simp [roles, modeRoles, entryRoles, RcBlock.roles, hnew hmode.1, hopen]
      · cases h
  | broken unnamed =>
      rw [roleStep] at h
      cases h

end RcDocument

/-- Whatever lines are read through are those of a document. -/
theorem exists_of_fold {roles : List RcRole} {q : RcParse}
    (h : roles.foldlM (roleStep env) {} = .ok q) : ∃ doc : RcDocument, doc.roles = roles := by
  induction roles using List.reverseRecOn generalizing q with
  | nil => exact ⟨{}, rfl⟩
  | append_singleton roles role ih =>
      rw [List.foldlM_append] at h
      cases hfold : roles.foldlM (roleStep env) {} with
      | error r =>
          rw [hfold] at h
          exact absurd h nofun
      | ok q' =>
          obtain ⟨doc, hdoc⟩ := ih hfold
          have hstate : doc.state = q' := by
            rw [← hdoc, doc.fold_roles] at hfold
            split at hfold
            · exact Except.ok.inj hfold
            · exact absurd hfold nofun
          rw [hfold] at h
          change [role].foldlM (roleStep env) q' = .ok q at h
          rw [fold_single, ← hstate] at h
          obtain ⟨doc', hdoc'⟩ := doc.exists_of_step h
          exact ⟨doc', by rw [hdoc', hdoc]⟩

end

end Lirc
