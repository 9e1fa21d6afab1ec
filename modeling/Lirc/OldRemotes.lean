import Lirc.Packets
import Lirc.Release

/-!
A configuration that is read again on SIGHUP. The old remotes stay in memory as `free_remotes`
until nothing points to them any more; `free_old_remotes` maps what points to them to the new
remotes with the same names. It does not know of the list that `hw.rec_func` has been given, which
waits for data before it calls `decode_all`. A remote is named by its address.
-/

namespace Lirc

open CString Transition

/-- The daemon, and the variables of lircd that point to remotes. -/
structure Reloading where
  daemon : Daemon
  /-- `free_remotes` -/
  freeRemotes : List ℕ := []
  /-- The argument of `hw.rec_func` while it runs. -/
  handed : List ℕ := []
  /-- `decoding`: the list that is being decoded. -/
  decoding : List ℕ := []
  lastRemote : Option ℕ := none
  /-- `release_remote`, `release_ncode` and `release_code`, and the second ones. -/
  release : Option Pressed := none
  release2 : Option Pressed := none
  /-- `message` of `release.c` -/
  message : List Char := []
  /-- `NULL` has been dereferenced. -/
  crashed : Bool := false

/-- What `decode_all` finds: nothing, or a remote. `heap` are the remotes after it; `press` is what
is passed to `register_button_press`, with the index of `last_code`. -/
inductive DecodeOutcome
  | failed (heap : ℕ → IrRemote)
  | found (a : ℕ) (heap : ℕ → IrRemote) (press : Option (ℕ × IrCode × ℤ))

/-- What happens between two calls of `select`, of which the driver makes some, too, when it waits
for data in `hw.rec_func`. -/
inductive ReloadEvent
  | loop (e : LoopEvent)
  /-- SIGHUP, with the remotes that are read, if they can be. -/
  | sighup (new : Option (List (ℕ × IrRemote)))
  /-- `waitfordata` finds `free_remotes`. -/
  | freeOld
  /-- `hw.rec_func` is called with the present remotes. -/
  | receive
  /-- The driver calls `decode_all` with its argument. -/
  | decode
  | decoded (outcome : DecodeOutcome)
  /-- `hw.rec_func` returns. -/
  | returned
  /-- The time of `release_time` has come. -/
  | releaseDue

/-- The codes have their names, and the remote has its own. -/
def NamesKept (r r' : IrRemote) : Prop :=
  r'.name = r.name ∧ r'.codes.map IrNcode.name = r.codes.map IrNcode.name

namespace Reloading

section Functions

variable (env : Env) (suffix : Name) (userelease : Bool)

/-- The message about a button that is released. -/
def released (s : Reloading) (p : Pressed) : Message where
  remote := (s.daemon.heap p.remote).name
  button := (s.daemon.heap p.remote).codeName p.button
  code := p.code
  reps := 0
  release := true

/-- The message of `decode_all` about a button that is pressed. -/
def pressed (s : Reloading) (p : Pressed) (reps : ℤ) : Message where
  remote := (s.daemon.heap p.remote).name
  button := (s.daemon.heap p.remote).codeName p.button
  code := p.code
  reps := reps
  release := false

def broadcast (text : List Char) (s : Reloading) : Reloading :=
  { s with daemon := broadcastMessage env text s.daemon }

/-- `check_release_event`, and `input_message` with what it finds. -/
def checkRelease (s : Reloading) : Reloading :=
  match s.release2 with
  | none => s
  | some p =>
      let m := s.released p
      let s := { s with release2 := none, message := (m.text suffix).take packetSize }
      if m.fits suffix && userelease then s.broadcast env s.message else s

/-- `input_message`, with the text, or with the text that stands in `message`. -/
def input (text : Option (List Char)) (release : Bool) (s : Reloading) : Reloading :=
  let s := s.checkRelease env suffix userelease
  if !release || userelease then s.broadcast env (text.getD s.message) else s

/-- `trigger_release_event`, and `input_message` with what it finds. -/
def triggerRelease (s : Reloading) : Reloading :=
  match s.release with
  | none => s
  | some p =>
      let m := s.released p
      let r := s.daemon.heap p.remote
      let s := { s with
        daemon := s.daemon.setRemote p.remote { r with releaseDetected := true }
        release := none
        message := (m.text suffix).take packetSize }
      if m.fits suffix then s.input env suffix userelease none true else s

/-- `release_map_remotes`, and `input_message` with what it finds. -/
def mapRelease (s : Reloading) : Reloading :=
  let s := { s with release2 := none }
  match s.release with
  | none => s
  | some p =>
      if p.remote ∈ s.freeRemotes then
        match s.daemon.getIrRemote (s.daemon.heap p.remote).name with
        | none => s.triggerRelease env suffix userelease
        | some b =>
            match getCodeByName (s.daemon.heap b) ((s.daemon.heap p.remote).codeName p.button) with
            | none => s.triggerRelease env suffix userelease
            | some c => { s with release := some ⟨b, c, p.code⟩ }
      else s

/-- The part of `free_old_remotes` about `last_remote`. -/
def mapLast (s : Reloading) : Reloading :=
  match s.lastRemote with
  | none => s
  | some a =>
      if a ∈ s.freeRemotes then
        let r := s.daemon.heap a
        match s.daemon.getIrRemote r.name with
        | none => s
        | some b =>
            match r.lastCode with
            | none => { s with crashed := true } -- `last_remote->last_code->name`
            | some c =>
                match getCodeByName (s.daemon.heap b) (r.codeName c) with
                | none => s
                | some c' =>
                    { s with
                      lastRemote := some b
                      daemon := s.daemon.setRemote b { s.daemon.heap b with
                        reps := r.reps
                        toggleBitMaskState := r.toggleBitMaskState
                        minRemainingGap := r.minRemainingGap
                        maxRemainingGap := r.maxRemainingGap
                        lastSend := r.lastSend
                        lastCode := some c' } }
      else { s with lastRemote := none }

/-- The part of `free_old_remotes` about `repeat_remote`: whether `found` is not `NULL` at its
end, so that the old remotes are kept. -/
def mapRepeat (s : Reloading) : Bool × Reloading :=
  match s.daemon.repeatRemote with
  | none => (false, s)
  | some a =>
      if a ∈ s.freeRemotes then
        let r := s.daemon.heap a
        match s.daemon.getIrRemote r.name with
        | none => (true, s)
        | some b =>
            match s.daemon.repeatCode with
            | none => (true, { s with crashed := true }) -- `repeat_code->name`
            | some c =>
                match getCodeByName (s.daemon.heap b) (r.codeName c) with
                | none => (true, s)
                | some c' =>
                    (false,
                      { s with
                        daemon := { s.daemon.setRemote b { s.daemon.heap b with
                            lastCode := some c'
                            lastSend := r.lastSend
                            toggleBitMaskState := r.toggleBitMaskState
                            minRemainingGap := r.minRemainingGap
                            maxRemainingGap := r.maxRemainingGap } with
                          repeatRemote := some b, repeatCode := some c' } })
      else (false, s)

/-- `decoding == free_remotes`, two pointers to the first remotes of lists. -/
def decodesOld (s : Reloading) : Bool := s.decoding.head? = s.freeRemotes.head?

/-- `free_old_remotes` after what it does about `release_remote`. -/
def freeMapped (s : Reloading) : Reloading :=
  let s := s.mapLast
  if s.crashed then s
  else
    let (found, s) := s.mapRepeat
    if s.crashed || found || s.decodesOld then s else { s with freeRemotes := [] }

/-- `free_old_remotes` -/
def freeOldRemotes (s : Reloading) : Reloading :=
  if s.decodesOld then s else (s.mapRelease env suffix userelease).freeMapped

/-- `config`: the remotes that are read are at addresses that were free. -/
def config (new : Option (List (ℕ × IrRemote))) (s : Reloading) : Reloading :=
  if s.freeRemotes ≠ [] then s
  else
    match new with
    | none => s
    | some new =>
        { s with
          freeRemotes := s.daemon.remotes
          daemon := { s.daemon with
            remotes := new.map Prod.fst
            heap := fun a => ((new.find? fun x => x.1 == a).map Prod.snd).getD (s.daemon.heap a) } }

/-- `dosighup` after `config` -/
def tellClients (s : Reloading) : Reloading :=
  { s with daemon := sighupLoop env s.daemon.clin 0 s.daemon }

/-- `register_button_press` -/
def registerPress (p : Pressed) (reps : ℤ) (s : Reloading) : Reloading :=
  { s with
    release2 := if reps = 0 ∧ s.release.isSome then s.release else s.release2
    release := some p }

/-- The message of `decode_all` goes to `input_message` if it fits. -/
def announce (p : Pressed) (reps : ℤ) (s : Reloading) : Reloading :=
  let m := s.pressed p reps
  if m.fits [] then s.input env suffix userelease (some (m.text [])) false else s

/-- The end of `decode_all`. -/
def decoded (outcome : DecodeOutcome) (s : Reloading) : Reloading :=
  match outcome with
  | .failed heap =>
      { s with daemon := { s.daemon with heap := heap }, decoding := [], lastRemote := none }
  | .found a heap press =>
      let s := { s with
        daemon := { s.daemon with heap := heap }
        decoding := []
        lastRemote := some a }
      match press with
      | none => s
      | some (c, code, reps) =>
          (s.registerPress ⟨a, c, code⟩ reps).announce env suffix userelease ⟨a, c, code⟩ reps

end Functions

/-- The remote is in memory. -/
def Live (s : Reloading) (a : ℕ) : Prop := a ∈ s.daemon.remotes ∨ a ∈ s.freeRemotes

/-- What can happen. Memory that is used is not handed out a second time, and `decode_all` finds a
remote of the list that it decodes and changes no names. -/
def Possible (s : Reloading) : ReloadEvent → Prop
  | .loop (.received _ _) => False
  | .sighup (some new) => ∀ x ∈ new, ¬s.Live x.1
  | .receive => s.handed = [] ∧ s.decoding = []
  | .decoded (.failed heap) => ∀ b, NamesKept (s.daemon.heap b) (heap b)
  | .decoded (.found a heap press) =>
      a ∈ s.decoding ∧ (∀ b, NamesKept (s.daemon.heap b) (heap b)) ∧
        ∀ x ∈ press, (heap a).lastCode = some x.1 ∧ x.1 < (heap a).codes.length
  | _ => True

/-- `free_old_remotes` finds that what is repeated needs the old remotes: one of them is repeated,
and there is no new one with its name that has a code with the name of the one that is repeated. -/
def KeepsOld (s : Reloading) : Prop :=
  ∃ a ∈ s.daemon.repeatRemote, a ∈ s.freeRemotes ∧
    ∀ b ∈ s.daemon.getIrRemote (s.daemon.heap a).name, ∀ c ∈ s.daemon.repeatCode,
      getCodeByName (s.daemon.heap b) ((s.daemon.heap a).codeName c) = none

/-- `free_old_remotes` follows a `last_code` that is `NULL`. -/
def FollowsNull (s : Reloading) : Prop :=
  ∃ a ∈ s.lastRemote, a ∈ s.freeRemotes ∧
    (s.daemon.getIrRemote (s.daemon.heap a).name).isSome = true ∧
    (s.daemon.heap a).lastCode = none

/-- `free_old_remotes` is not called while `hw.rec_func` has the old remotes but does not decode
them, or it does not come to freeing them. -/
def KeepsHanded (s : Reloading) : ReloadEvent → Prop
  | .freeOld => s.crashed = false → s.freeRemotes ≠ [] → s.decodesOld = false →
      s.handed = s.freeRemotes → s.KeepsOld ∨ s.FollowsNull
  | _ => True

/-- If `last_remote` is an old remote, it has a code that was received last or there is no new
remote with its name; and a new remote has both names, or the old remotes are kept. -/
def LastMapped (s : Reloading) : Prop :=
  ∀ a ∈ s.lastRemote, a ∈ s.freeRemotes →
    s.daemon.getIrRemote (s.daemon.heap a).name = none ∧ s.KeepsOld ∨
    ∃ b c, s.daemon.getIrRemote (s.daemon.heap a).name = some b ∧
      (s.daemon.heap a).lastCode = some c ∧
      ((getCodeByName (s.daemon.heap b) ((s.daemon.heap a).codeName c)).isSome ∨ s.KeepsOld)

/-- `last_remote` is mapped when `free_old_remotes` frees the old remotes. -/
def MapsLast (s : Reloading) : ReloadEvent → Prop
  | .freeOld => s.freeRemotes ≠ [] → s.decodesOld = false → s.LastMapped
  | _ => True

/-- `last_remote` is `NULL` or points to a remote that is in memory. -/
def LastLive (s : Reloading) : Prop := s.crashed = false ∧ ∀ a ∈ s.lastRemote, s.Live a

/-- The remote is in memory, and it has the code. -/
def Points (s : Reloading) (a c : ℕ) : Prop := s.Live a ∧ c < (s.daemon.heap a).codes.length

/-- Nothing that lircd repeats, decodes, has given to the driver or is going to release has been
freed. -/
structure Sound (s : Reloading) : Prop where
  apart : ∀ a ∈ s.freeRemotes, a ∉ s.daemon.remotes
  handed : s.handed = [] ∨ s.handed = s.daemon.remotes ∨ s.handed = s.freeRemotes
  decoding : s.decoding = [] ∨ s.decoding = s.daemon.remotes ∨ s.decoding = s.freeRemotes
  repeating : ∀ a, s.daemon.repeatRemote = some a →
    ∃ c, s.daemon.repeatCode = some c ∧ s.Points a c
  pressed : ∀ p, s.release = some p ∨ s.release2 = some p → s.Points p.remote p.button

/-- lircd has read its first configuration. -/
structure Fresh (s : Reloading) : Prop where
  daemon : AtStart s.daemon
  freeRemotes : s.freeRemotes = []
  handed : s.handed = []
  decoding : s.decoding = []
  lastRemote : s.lastRemote = none
  release : s.release = none
  release2 : s.release2 = none
  crashed : s.crashed = false

end Reloading

open Reloading

/-- One event. After a crash nothing happens any more. -/
def reloadStep (env : Env) (suffix : Name) (userelease : Bool) (s : Reloading) (e : ReloadEvent) :
    Reloading :=
  if s.crashed then s
  else
    match e with
    | .loop e => { s with daemon := loopStep env s.daemon e }
    | .sighup new => (s.config new).tellClients env
    | .freeOld => if s.freeRemotes ≠ [] then s.freeOldRemotes env suffix userelease else s
    | .receive => { s with handed := s.daemon.remotes }
    | .decode => { s with decoding := s.handed }
    | .decoded outcome => s.decoded env suffix userelease outcome
    | .returned => { s with handed := [] }
    | .releaseDue => s.triggerRelease env suffix userelease

/-! ### Names -/

theorem NamesKept.refl (r : IrRemote) : NamesKept r r := ⟨rfl, rfl⟩

theorem NamesKept.trans {r r' r'' : IrRemote} (h : NamesKept r r') (h' : NamesKept r' r'') :
    NamesKept r r'' := ⟨h'.1.trans h.1, h'.2.trans h.2⟩

theorem NamesKept.length {r r' : IrRemote} (h : NamesKept r r') :
    r'.codes.length = r.codes.length := by
  have hlen := congrArg List.length h.2
  rwa [List.length_map, List.length_map] at hlen

theorem codeName_eq (r : IrRemote) (c : ℕ) :
    r.codeName c = ((r.codes.map IrNcode.name)[c]?).getD [] := by
  rw [IrRemote.codeName, List.getElem?_map]

theorem getCodeByName_eq (r : IrRemote) (name : List Char) :
    getCodeByName r name = (r.codes.map IrNcode.name).findIdx? fun n => strcaseeq n name := by
  rw [getCodeByName, List.findIdx?_map]
  rfl

theorem getCodeByName_lt {r : IrRemote} {name : List Char} {c : ℕ}
    (h : getCodeByName r name = some c) : c < r.codes.length :=
  (List.findIdx?_eq_some_iff_findIdx_eq.mp h).1

namespace NamesKept

variable {r r' : IrRemote}

theorem codeName (h : NamesKept r r') (c : ℕ) : r'.codeName c = r.codeName c := by
  rw [codeName_eq, codeName_eq, h.2]

theorem getCodeByName (h : NamesKept r r') (name : List Char) :
    Lirc.getCodeByName r' name = Lirc.getCodeByName r name := by
  rw [getCodeByName_eq, getCodeByName_eq, h.2]

theorem transmits (h : Transmits r r') : NamesKept r r' := by
  obtain ⟨countdown, toggle, gmin, gmax, codes, rfl, hcodes⟩ := h
  refine ⟨rfl, ?_⟩
  have hnames := congrArg (List.map IrNcode.name) hcodes
  rwa [List.map_map, List.map_map] at hnames

theorem setTransmitState (r : IrRemote) (c : ℕ) (ts : List IrCode) :
    NamesKept r (r.setTransmitState c ts) := by
  refine ⟨rfl, ?_⟩
  apply List.ext_getElem?
  intro i
  rw [IrRemote.setTransmitState, List.getElem?_map, List.getElem?_map, List.getElem?_modify]
  cases r.codes[i]? with
  | none => rfl
  | some code =>
      by_cases hi : c = i
      · simp [hi]
      · simp [hi]

end NamesKept

theorem getIrRemote_mem {d : Daemon} {name : List Char} {a : ℕ}
    (h : d.getIrRemote name = some a) : a ∈ d.remotes := List.mem_of_find?_eq_some h

/-! ### The daemon -/

/-- Neither the remotes nor what is repeated has changed. -/
structure RemotesSame (d d' : Daemon) : Prop where
  heap : d'.heap = d.heap
  remotes : d'.remotes = d.remotes
  repeatRemote : d'.repeatRemote = d.repeatRemote
  repeatCode : d'.repeatCode = d.repeatCode

namespace RemotesSame

variable {d d' d'' : Daemon}

theorem refl (d : Daemon) : RemotesSame d d := ⟨rfl, rfl, rfl, rfl⟩

theorem trans (h : RemotesSame d d') (h' : RemotesSame d' d'') : RemotesSame d d'' :=
  ⟨h'.heap.trans h.heap, h'.remotes.trans h.remotes, h'.repeatRemote.trans h.repeatRemote,
    h'.repeatCode.trans h.repeatCode⟩

theorem of_replies {fd : ℕ} (h : Replies fd d d') : RemotesSame d d' := by
  obtain ⟨clock, es, rfl, -⟩ := h
  exact ⟨rfl, rfl, rfl, rfl⟩

theorem logged (e : Event) (d : Daemon) : RemotesSame d (d.tick.log e) := ⟨rfl, rfl, rfl, rfl⟩

end RemotesSame

section Clients

variable (env : Env)

theorem removeClient_same (fd : ℕ) (d : Daemon) : RemotesSame d (removeClient env fd d) := by
  unfold removeClient
  split
  · exact RemotesSame.refl d
  · dsimp only
    rw [deinitUnused]
    split
    · exact ⟨rfl, rfl, rfl, rfl⟩
    · exact ⟨rfl, rfl, rfl, rfl⟩

theorem broadcastLoop_same (message : List Char) (n i : ℕ) (d : Daemon) :
    RemotesSame d (broadcastLoop env message n i d) := by
  induction n generalizing i d with
  | zero => exact RemotesSame.refl d
  | succ n ih =>
      rw [broadcastLoop]
      split
      · have hwrote := RemotesSame.of_replies (writeSocket_replies env (d.clis i) message d)
        dsimp only
        split
        · exact hwrote.trans (ih _ _)
        · exact (hwrote.trans (removeClient_same env _ _)).trans (ih _ _)
      · exact RemotesSame.refl d

theorem sighupLoop_same (n i : ℕ) (d : Daemon) : RemotesSame d (sighupLoop env n i d) := by
  induction n generalizing i d with
  | zero => exact RemotesSame.refl d
  | succ n ih =>
      rw [sighupLoop]
      split
      · have hwrote := RemotesSame.of_replies (writeAll_replies env (d.clis i)
          [beginString, sighupString, endString] d)
        dsimp only
        split
        · exact hwrote.trans (ih _ _)
        · exact (hwrote.trans (removeClient_same env _ _)).trans (ih _ _)
      · exact RemotesSame.refl d

end Clients

/-- The remotes keep their names, and what is repeated is what was, nothing, or a code of one of
them. -/
structure Evolves (d d' : Daemon) : Prop where
  names : ∀ a, NamesKept (d.heap a) (d'.heap a)
  remotes : d'.remotes = d.remotes
  repeating : (d'.repeatRemote = d.repeatRemote ∧ d'.repeatCode = d.repeatCode) ∨
    d'.repeatRemote = none ∨
    ∃ a ∈ d.remotes, ∃ c < (d.heap a).codes.length,
      d'.repeatRemote = some a ∧ d'.repeatCode = some c

theorem RemotesSame.evolves {d d' : Daemon} (h : RemotesSame d d') : Evolves d d' :=
  ⟨fun _ => h.heap ▸ NamesKept.refl _, h.remotes, .inl ⟨h.repeatRemote, h.repeatCode⟩⟩

namespace Evolves

variable {d d' d'' : Daemon}

theorem of_eq (hheap : d'.heap = d.heap) (hremotes : d'.remotes = d.remotes)
    (hremote : d'.repeatRemote = d.repeatRemote) (hcode : d'.repeatCode = d.repeatCode) :
    Evolves d d' := RemotesSame.evolves ⟨hheap, hremotes, hremote, hcode⟩

theorem refl (d : Daemon) : Evolves d d := (RemotesSame.refl d).evolves

theorem trans (h : Evolves d d') (h' : Evolves d' d'') : Evolves d d'' := by
  refine ⟨fun a => (h.names a).trans (h'.names a), h'.remotes.trans h.remotes, ?_⟩
  rcases h'.repeating with ⟨hremote, hcode⟩ | hnone | ⟨a, ha, c, hc, hrepeat⟩
  · rw [hremote, hcode]
    exact h.repeating
  · exact .inr (.inl hnone)
  · rw [h.remotes] at ha
    rw [(h.names a).length] at hc
    exact .inr (.inr ⟨a, ha, c, hc, hrepeat⟩)

theorem of_replies {fd : ℕ} (h : Replies fd d d') : Evolves d d' :=
  (RemotesSame.of_replies h).evolves

theorem setRemote {a : ℕ} {r : IrRemote} (h : NamesKept (d.heap a) r) :
    Evolves d (d.setRemote a r) := by
  refine ⟨fun b => ?_, rfl, .inl ⟨rfl, rfl⟩⟩
  by_cases hb : b = a
  · rw [hb, setRemote_heap_self]
    exact h
  · rw [setRemote_heap_ne d r hb]
    exact NamesKept.refl _

/-- What is repeated ends. -/
theorem stop (h : Evolves d d') (hnone : d''.repeatRemote = none) (hheap : d''.heap = d'.heap)
    (hremotes : d''.remotes = d'.remotes) : Evolves d d'' :=
  ⟨fun a => hheap ▸ h.names a, hremotes.trans h.remotes, .inr (.inl hnone)⟩

/-- A code of one of the remotes is repeated. -/
theorem start (h : Evolves d d') {a c : ℕ} (ha : a ∈ d.remotes) (hc : c < (d.heap a).codes.length)
    (hremote : d''.repeatRemote = some a) (hcode : d''.repeatCode = some c)
    (hheap : d''.heap = d'.heap) (hremotes : d''.remotes = d'.remotes) : Evolves d d'' :=
  ⟨fun a => hheap ▸ h.names a, hremotes.trans h.remotes, .inr (.inr ⟨a, ha, c, hc, hremote, hcode⟩)⟩

end Evolves

section Daemon

variable (env : Env)

theorem sendIrNcode_evolves (a c : ℕ) (d : Daemon) : Evolves d (sendIrNcode env a c d).2 := by
  have hkept := NamesKept.transmits
    (env.sendFunc_transmits d.clock d.repeatRemote.isSome (d.heap a) c d.sendBuffer)
  have hstart : Evolves d (({ d with sendBuffer := (env.sendFunc d.clock d.repeatRemote.isSome
      (d.heap a) c d.sendBuffer).2.2 }.tick).log (.sent (d.heap a) c d.repeatRemote.isSome
        (env.sendFunc d.clock d.repeatRemote.isSome (d.heap a) c d.sendBuffer).1)) :=
    Evolves.of_eq rfl rfl rfl rfl
  refine hstart.trans (Evolves.setRemote ?_)
  split
  · exact hkept
  · exact hkept

theorem startSending_evolves (a c : ℕ) (d : Daemon) : Evolves d (startSending a c d) := by
  unfold startSending
  dsimp only
  refine Evolves.setRemote (NamesKept.trans ?_ (NamesKept.setTransmitState _ c []))
  split
  · split
    · exact NamesKept.refl _
    · exact NamesKept.refl _
  · split
    · exact NamesKept.refl _
    · exact NamesKept.refl _

theorem noteSent_evolves (once : Bool) (a c : ℕ) (reps : ℤ) (d : Daemon) :
    Evolves d (noteSent env once a c reps d) := Evolves.setRemote (NamesKept.refl _)

theorem setTimer_evolves (usec : ℤ) (d : Daemon) : Evolves d (d.setTimer usec) := by
  rw [setTimer_eq]
  exact Evolves.of_eq rfl rfl rfl rfl

theorem argCheck_ok {n : ℕ} {rc rc' : RcArgs} (h : argCheck n rc = .ok rc') : rc' = rc := by
  unfold argCheck at h
  split at h
  · cases h
  · split at h
    · cases h
    · exact (Except.ok.inj h).symm

theorem parseEnd_ok {withReps : Bool} {n : ℕ} {rc rc' : RcArgs} {rest : List Char}
    (h : parseEnd env withReps n rc rest = .ok rc') :
    rc'.remote = rc.remote ∧ rc'.code = rc.code := by
  unfold parseEnd at h
  split at h
  · rw [argCheck_ok h]
    exact ⟨rfl, rfl⟩
  · rw [argCheck_ok h]
    exact ⟨rfl, rfl⟩
  · cases h
  · split at h
    · cases h
    · split_ifs at h
      rw [argCheck_ok h]
      exact ⟨rfl, rfl⟩

/-- The arguments name a code of a remote. -/
theorem parseRc_code {d : Daemon} {arguments : Option (List Char)} {withReps : Bool} {n a c : ℕ}
    {reps : ℤ} (h : parseRc env d arguments withReps n = .ok ⟨some a, some c, reps⟩) :
    a ∈ d.remotes ∧ c < (d.heap a).codes.length := by
  unfold parseRc at h
  split at h
  · cases argCheck_ok h
  · split at h
    · cases h
    · next a' hget =>
        split at h
        · cases argCheck_ok h
        · split at h
          · cases h
          · next c' hcode =>
              obtain ⟨hremote, hc⟩ := parseEnd_ok env h
              cases hremote
              cases hc
              exact ⟨getIrRemote_mem hget, getCodeByName_lt hcode⟩

theorem sendFirst_evolves (fd : ℕ) (message : List Char) (once : Bool) {a c : ℕ} (reps : ℤ)
    {d : Daemon} (ha : a ∈ d.remotes) (hc : c < (d.heap a).codes.length) :
    Evolves d (sendFirst env fd message once a c reps d).2 := by
  have hfirst : Evolves d (firstFrame env a c d).2 :=
    (startSending_evolves a c d).trans (sendIrNcode_evolves env a c _)
  have hnote := hfirst.trans (noteSent_evolves env once a c reps _)
  have hcases := sendFirst_cases env fd once message a c reps d
  generalize sendFirst env fd message once a c reps d = x at hcases
  cases hcases with
  | failed hsent h => exact hfirst.trans (.of_replies h)
  | single hsent hmore h => exact hnote.trans (.of_replies h)
  | waiting hsent hnoted hmore honce =>
      subst hnoted
      rw [setTimer_eq]
      exact hnote.start ha hc rfl rfl rfl rfl
  | outOfMemory hsent hnoted hmore honce h =>
      subst hnoted
      refine Evolves.trans ?_ (.of_replies h)
      exact hnote.stop rfl rfl rfl
  | repeating hsent hnoted hmore honce h =>
      subst hnoted
      refine Evolves.trans ?_ ((Evolves.of_replies h).trans (setTimer_evolves _ _))
      exact hnote.start ha hc rfl rfl rfl rfl
  | unanswered hsent hnoted hmore honce h =>
      subst hnoted
      have hreplied := Evolves.of_replies h
      refine Evolves.stop (Evolves.trans ?_ hreplied) rfl rfl rfl
      exact hnote.start ha hc rfl rfl rfl rfl

theorem execLine_evolves (fd : ℕ) (line : List Char) (d : Daemon) :
    Evolves d (execLine (lircd env fd) line d).2 := by
  have hhandled := execLine_handled env fd line d
  generalize execLine (lircd env fd) line d = x at hhandled
  cases hhandled with
  | replied h => exact .of_replies h
  | sent hmode hparse hidle =>
      obtain ⟨ha, hc⟩ := parseRc_code env hparse
      exact sendFirst_evolves env fd _ _ _ ha hc
  | postponed hparse hremote hcode hmatch hdone =>
      refine Evolves.trans ?_ (.of_replies (sendSuccess_replies env fd _ _))
      exact Evolves.setRemote (NamesKept.refl _)
  | stopped hparse hremote hcode hmatch hdone =>
      refine Evolves.trans ?_ (.of_replies (sendSuccess_replies env fd _ _))
      rw [stopRepeating, setTimer_eq]
      refine Evolves.trans (Evolves.of_eq rfl rfl rfl rfl) ?_
      refine Evolves.stop (Evolves.setRemote ?_) rfl rfl rfl
      exact NamesKept.refl _
  | simulated hallow hevent =>
      refine Evolves.trans ?_ (.of_replies (sendSuccess_replies env fd _ _))
      exact ((RemotesSame.logged _ d).trans (broadcastLoop_same env _ _ _ _)).evolves

theorem answerRepeat_same {reply : ℕ → List Char → Daemon → Bool × Daemon}
    (hreply : ∀ fd message d, Replies fd d (reply fd message d).2) (d : Daemon) :
    RemotesSame d (answerRepeat reply d) := by
  rw [answerRepeat]
  split
  · next fd message _ _ =>
      have hsame := RemotesSame.of_replies (hreply fd message d)
      exact ⟨hsame.heap, hsame.remotes, hsame.repeatRemote, hsame.repeatCode⟩
  · exact RemotesSame.refl d

theorem deinitUnused_same (d : Daemon) : RemotesSame d (deinitUnused env d) := by
  rw [deinitUnused]
  split
  · exact ⟨rfl, rfl, rfl, rfl⟩
  · exact ⟨rfl, rfl, rfl, rfl⟩

theorem dosigalrm_evolves (d : Daemon) : Evolves d (dosigalrm env d) := by
  unfold dosigalrm
  split
  · next a c _ _ =>
      split
      · have hcount : Evolves d (countRepeat a c d) := by
          rw [countRepeat]
          split
          · exact Evolves.refl d
          · split
            · exact Evolves.setRemote (NamesKept.refl _)
            · exact Evolves.refl d
        have hsent := hcount.trans (sendIrNcode_evolves env a c _)
        dsimp only
        split
        · exact hsent.trans (setTimer_evolves _ _)
        · have hanswered := answerRepeat_same (sendSuccess_replies env)
            { (sendIrNcode env a c (countRepeat a c d)).2 with
              repeatRemote := none, repeatCode := none }
          refine Evolves.trans ?_ (hanswered.evolves.trans (deinitUnused_same env _).evolves)
          exact hsent.stop rfl rfl rfl
      · have hanswered := answerRepeat_same
          (fun fd message => sendError_replies env fd message "repeating interrupted\n".toList) d
        rw [interruptRepeating]
        refine Evolves.trans ?_ (deinitUnused_same env _).evolves
        exact hanswered.evolves.stop rfl rfl rfl
  · exact Evolves.refl d

theorem loopStep_evolves (d : Daemon) {e : LoopEvent}
    (he : ∀ heap messages, e ≠ .received heap messages) : Evolves d (loopStep env d e) := by
  cases e with
  | connect fd type =>
      show Evolves d (addClient env fd type d)
      rw [addClient]
      split
      · exact Evolves.of_eq rfl rfl rfl rfl
      · dsimp only
        split
        · exact Evolves.of_eq rfl rfl rfl rfl
        · exact Evolves.of_eq rfl rfl rfl rfl
  | input i reads =>
      show Evolves d (serveClient env i reads d)
      unfold serveClient
      split
      · split
        · exact Evolves.refl d
        · next ok d' reads' hcall =>
            have hserved : Evolves d d' :=
              getCommand_invariant (fun line s _ hs => hs.trans (execLine_evolves env _ line s))
                (Evolves.refl d) hcall
            split
            · exact hserved
            · exact hserved.trans (removeClient_same env _ _).evolves
      · exact Evolves.refl d
  | expire =>
      show Evolves d (expire d)
      rw [expire_eq]
      exact Evolves.of_eq rfl rfl rfl rfl
  | alarm late =>
      show Evolves d (handleAlarm env late d)
      unfold handleAlarm
      split
      · have hdone := dosigalrm_evolves env d
        cases late with
        | true =>
            simp only [if_pos, expire_eq]
            exact hdone.trans (Evolves.of_eq rfl rfl rfl rfl)
        | false => exact hdone.trans (Evolves.of_eq rfl rfl rfl rfl)
      · exact Evolves.refl d
  | reconnect =>
      show Evolves d (reconnect env d)
      rw [reconnect]
      split
      · exact Evolves.of_eq rfl rfl rfl rfl
      · exact Evolves.refl d
  | received heap messages => exact absurd rfl (he heap messages)

end Daemon

/-! ### What points to a remote -/

theorem getIrRemote_names {d d' : Daemon} (hremotes : d'.remotes = d.remotes)
    (hnames : ∀ a, NamesKept (d.heap a) (d'.heap a)) (name : List Char) :
    d'.getIrRemote name = d.getIrRemote name := by
  rw [Daemon.getIrRemote, Daemon.getIrRemote, hremotes]
  congr 1
  funext a
  rw [(hnames a).1]

namespace Reloading

/-- The lists are the same, and the remotes keep their names. -/
structure SameLists (s s' : Reloading) : Prop where
  names : ∀ a, NamesKept (s.daemon.heap a) (s'.daemon.heap a)
  remotes : s'.daemon.remotes = s.daemon.remotes
  freeRemotes : s'.freeRemotes = s.freeRemotes
  handed : s'.handed = s.handed
  decoding : s'.decoding = s.decoding

namespace SameLists

variable {s s' s'' : Reloading}

theorem refl (s : Reloading) : SameLists s s := ⟨fun _ => NamesKept.refl _, rfl, rfl, rfl, rfl⟩

theorem trans (h : SameLists s s') (h' : SameLists s' s'') : SameLists s s'' :=
  ⟨fun a => (h.names a).trans (h'.names a), h'.remotes.trans h.remotes,
    h'.freeRemotes.trans h.freeRemotes, h'.handed.trans h.handed, h'.decoding.trans h.decoding⟩

theorem live (h : SameLists s s') (a : ℕ) : s'.Live a ↔ s.Live a := by
  rw [Live, Live, h.remotes, h.freeRemotes]

theorem points (h : SameLists s s') (a c : ℕ) : s'.Points a c ↔ s.Points a c := by
  rw [Points, Points, h.live, (h.names a).length]

theorem getIrRemote (h : SameLists s s') (name : List Char) :
    s'.daemon.getIrRemote name = s.daemon.getIrRemote name :=
  getIrRemote_names h.remotes h.names name

theorem decodesOld (h : SameLists s s') : s'.decodesOld = s.decodesOld := by
  rw [Reloading.decodesOld, Reloading.decodesOld, h.decoding, h.freeRemotes]

theorem keepsOld (h : SameLists s s') (hremote : s'.daemon.repeatRemote = s.daemon.repeatRemote)
    (hcode : s'.daemon.repeatCode = s.daemon.repeatCode) : s'.KeepsOld ↔ s.KeepsOld := by
  rw [KeepsOld, KeepsOld, hremote, hcode, h.freeRemotes]
  simp only [h.getIrRemote, (h.names _).1, (h.names _).codeName, (h.names _).getCodeByName]

theorem sound (h : SameLists s s') (hs : s.Sound)
    (hrepeating : ∀ a, s'.daemon.repeatRemote = some a →
      ∃ c, s'.daemon.repeatCode = some c ∧ s.Points a c)
    (hpressed : ∀ p, s'.release = some p ∨ s'.release2 = some p → s.Points p.remote p.button) :
    s'.Sound where
  apart a ha := by
    rw [h.freeRemotes] at ha
    rw [h.remotes]
    exact hs.apart a ha
  handed := by
    rw [h.handed, h.remotes, h.freeRemotes]
    exact hs.handed
  decoding := by
    rw [h.decoding, h.remotes, h.freeRemotes]
    exact hs.decoding
  repeating a ha := by
    obtain ⟨c, hc, hpoints⟩ := hrepeating a ha
    exact ⟨c, hc, (h.points a c).mpr hpoints⟩
  pressed p hp := (h.points _ _).mpr (hpressed p hp)

end SameLists

/-- Messages have been sent. -/
structure Announced (s s' : Reloading) : Prop extends SameLists s s' where
  lastCode : ∀ a, (s'.daemon.heap a).lastCode = (s.daemon.heap a).lastCode
  repeatRemote : s'.daemon.repeatRemote = s.daemon.repeatRemote
  repeatCode : s'.daemon.repeatCode = s.daemon.repeatCode
  lastRemote : s'.lastRemote = s.lastRemote
  crashed : s'.crashed = s.crashed

namespace Announced

variable {s s' s'' : Reloading}

theorem of_daemon (hdaemon : s'.daemon = s.daemon) (hfree : s'.freeRemotes = s.freeRemotes)
    (hhanded : s'.handed = s.handed) (hdecoding : s'.decoding = s.decoding)
    (hlast : s'.lastRemote = s.lastRemote)
    (hcrashed : s'.crashed = s.crashed) : Announced s s' where
  names _ := hdaemon ▸ NamesKept.refl _
  remotes := hdaemon ▸ rfl
  freeRemotes := hfree
  handed := hhanded
  decoding := hdecoding
  lastCode _ := hdaemon ▸ rfl
  repeatRemote := hdaemon ▸ rfl
  repeatCode := hdaemon ▸ rfl
  lastRemote := hlast
  crashed := hcrashed

theorem refl (s : Reloading) : Announced s s := of_daemon rfl rfl rfl rfl rfl rfl

theorem trans (h : Announced s s') (h' : Announced s' s'') : Announced s s'' :=
  ⟨h.toSameLists.trans h'.toSameLists, fun a => (h'.lastCode a).trans (h.lastCode a),
    h'.repeatRemote.trans h.repeatRemote, h'.repeatCode.trans h.repeatCode,
    h'.lastRemote.trans h.lastRemote, h'.crashed.trans h.crashed⟩

theorem sound (h : Announced s s') (hs : s.Sound)
    (hpressed : ∀ p, s'.release = some p ∨ s'.release2 = some p → s.Points p.remote p.button) :
    s'.Sound := by
  refine h.toSameLists.sound hs (fun a ha => ?_) hpressed
  rw [h.repeatRemote] at ha
  rw [h.repeatCode]
  exact hs.repeating a ha

theorem lastMapped (h : Announced s s') : s'.LastMapped ↔ s.LastMapped := by
  rw [LastMapped, LastMapped, h.lastRemote, h.freeRemotes,
    h.toSameLists.keepsOld h.repeatRemote h.repeatCode]
  simp only [h.getIrRemote, (h.names _).1, (h.names _).codeName, (h.names _).getCodeByName,
    h.lastCode]

theorem followsNull (h : Announced s s') : s'.FollowsNull ↔ s.FollowsNull := by
  rw [FollowsNull, FollowsNull, h.lastRemote, h.freeRemotes]
  simp only [h.getIrRemote, (h.names _).1, h.lastCode]

theorem lastLive (h : Announced s s') : s'.LastLive ↔ s.LastLive := by
  rw [LastLive, LastLive, h.crashed, h.lastRemote]
  simp only [h.live]

end Announced

section Functions

variable (env : Env) (suffix : Name) (userelease : Bool)

theorem broadcast_announced (text : List Char) (s : Reloading) :
    Announced s (s.broadcast env text) := by
  have hsame := broadcastLoop_same env text s.daemon.clin 0 s.daemon
  exact ⟨⟨hsame.evolves.names, hsame.remotes, rfl, rfl, rfl⟩,
    fun a => by rw [broadcast, broadcastMessage, hsame.heap], hsame.repeatRemote,
    hsame.repeatCode, rfl, rfl⟩

theorem tellClients_announced (s : Reloading) : Announced s (s.tellClients env) := by
  have hsame := sighupLoop_same env s.daemon.clin 0 s.daemon
  exact ⟨⟨hsame.evolves.names, hsame.remotes, rfl, rfl, rfl⟩,
    fun a => by rw [tellClients, hsame.heap], hsame.repeatRemote, hsame.repeatCode, rfl, rfl⟩

theorem checkRelease_announced (s : Reloading) :
    Announced s (s.checkRelease env suffix userelease) := by
  unfold checkRelease
  split
  · exact Announced.refl s
  · dsimp only
    have hnoted (message : List Char) :
        Announced s { s with release2 := none, message := message } :=
      Announced.of_daemon rfl rfl rfl rfl rfl rfl
    split
    · exact (hnoted _).trans (broadcast_announced env _ _)
    · exact hnoted _

theorem checkRelease_release (s : Reloading) :
    (s.checkRelease env suffix userelease).release = s.release := by
  unfold checkRelease
  split
  · rfl
  · dsimp only
    split
    · rfl
    · rfl

theorem checkRelease_release2 (s : Reloading) :
    (s.checkRelease env suffix userelease).release2 = none := by
  unfold checkRelease
  split
  · assumption
  · dsimp only
    split
    · rfl
    · rfl

theorem input_announced (text : Option (List Char)) (release : Bool) (s : Reloading) :
    Announced s (s.input env suffix userelease text release) := by
  have hchecked := checkRelease_announced env suffix userelease s
  unfold input
  dsimp only
  split
  · exact hchecked.trans (broadcast_announced env _ _)
  · exact hchecked

theorem input_release (text : Option (List Char)) (release : Bool) (s : Reloading) :
    (s.input env suffix userelease text release).release = s.release := by
  unfold input
  dsimp only
  split
  · exact checkRelease_release env suffix userelease s
  · exact checkRelease_release env suffix userelease s

theorem input_release2 (text : Option (List Char)) (release : Bool) (s : Reloading) :
    (s.input env suffix userelease text release).release2 = none := by
  unfold input
  dsimp only
  split
  · exact checkRelease_release2 env suffix userelease s
  · exact checkRelease_release2 env suffix userelease s

theorem triggerRelease_announced (s : Reloading) :
    Announced s (s.triggerRelease env suffix userelease) := by
  unfold triggerRelease
  split
  · exact Announced.refl s
  · next p _ =>
      dsimp only
      have hdetected (message : List Char) : Announced s { s with
          daemon := s.daemon.setRemote p.remote
            { s.daemon.heap p.remote with releaseDetected := true }
          release := none
          message := message } := by
        refine ⟨⟨?_, rfl, rfl, rfl, rfl⟩, fun a => ?_, rfl, rfl, rfl, rfl⟩
        · refine (Evolves.setRemote ?_).names
          exact NamesKept.refl (s.daemon.heap p.remote)
        · by_cases ha : a = p.remote
          · rw [ha, setRemote_heap_self]
          · rw [setRemote_heap_ne _ _ ha]
      split
      · exact (hdetected _).trans (input_announced env suffix userelease _ _ _)
      · exact hdetected _

theorem triggerRelease_release (s : Reloading) :
    (s.triggerRelease env suffix userelease).release = none := by
  unfold triggerRelease
  split
  · assumption
  · dsimp only
    split
    · exact input_release env suffix userelease _ _ _
    · rfl

theorem triggerRelease_release2 (s : Reloading) :
    (s.triggerRelease env suffix userelease).release2 = none ∨
      (s.triggerRelease env suffix userelease).release2 = s.release2 := by
  unfold triggerRelease
  split
  · exact .inr rfl
  · dsimp only
    split
    · exact .inl (input_release2 env suffix userelease _ _ _)
    · exact .inr rfl

theorem mapRelease_announced (s : Reloading) :
    Announced s (s.mapRelease env suffix userelease) := by
  have hcleared : Announced s { s with release2 := none } :=
    Announced.of_daemon rfl rfl rfl rfl rfl rfl
  have htriggered := hcleared.trans (triggerRelease_announced env suffix userelease _)
  unfold mapRelease
  dsimp only
  split
  · exact hcleared
  · split
    · split
      · exact htriggered
      · split
        · exact htriggered
        · exact Announced.of_daemon rfl rfl rfl rfl rfl rfl
    · exact hcleared

/-- No old remote is going to be released. -/
theorem mapRelease_pressed {s : Reloading} (hs : s.Sound) :
    (s.mapRelease env suffix userelease).release2 = none ∧
      ∀ p, (s.mapRelease env suffix userelease).release = some p →
        p.remote ∈ s.daemon.remotes ∧ p.button < (s.daemon.heap p.remote).codes.length := by
  have htriggered :
      (triggerRelease env suffix userelease { s with release2 := none }).release2 = none ∧
      ∀ p, (triggerRelease env suffix userelease { s with release2 := none }).release = some p →
        p.remote ∈ s.daemon.remotes ∧ p.button < (s.daemon.heap p.remote).codes.length := by
    refine ⟨?_, fun p hp => ?_⟩
    · rcases triggerRelease_release2 env suffix userelease { s with release2 := none } with h | h
      · exact h
      · exact h
    · rw [triggerRelease_release] at hp
      cases hp
  unfold mapRelease
  dsimp only
  split
  · next hnone =>
      refine ⟨rfl, fun p hp => ?_⟩
      rw [hnone] at hp
      cases hp
  · next p hrelease =>
      split
      · split
        · exact htriggered
        · next b hget =>
            split
            · exact htriggered
            · next c hcode =>
                refine ⟨rfl, fun p hp => ?_⟩
                cases hp
                exact ⟨getIrRemote_mem hget, getCodeByName_lt hcode⟩
      · next hold =>
          refine ⟨rfl, fun p' hp' => ?_⟩
          have hpoints := hs.pressed p' (.inl hp')
          rw [hrelease] at hp'
          cases hp'
          exact ⟨hpoints.1.resolve_right hold, hpoints.2⟩

end Functions

/-- Only `last_remote`, its state and that of the remote it is mapped to change. -/
theorem mapLast_same (s : Reloading) :
    SameLists s s.mapLast ∧ s.mapLast.daemon.repeatRemote = s.daemon.repeatRemote ∧
      s.mapLast.daemon.repeatCode = s.daemon.repeatCode ∧ s.mapLast.release = s.release ∧
      s.mapLast.release2 = s.release2 := by
  have hrefl := SameLists.refl s
  unfold mapLast
  split
  · exact ⟨hrefl, rfl, rfl, rfl, rfl⟩
  · split
    · dsimp only
      split
      · exact ⟨hrefl, rfl, rfl, rfl, rfl⟩
      · split
        · exact ⟨⟨hrefl.names, rfl, rfl, rfl, rfl⟩, rfl, rfl, rfl, rfl⟩
        · split
          · exact ⟨hrefl, rfl, rfl, rfl, rfl⟩
          · refine ⟨⟨(Evolves.setRemote ?_).names, rfl, rfl, rfl, rfl⟩, rfl, rfl, rfl, rfl⟩
            exact NamesKept.refl _
    · exact ⟨⟨hrefl.names, rfl, rfl, rfl, rfl⟩, rfl, rfl, rfl, rfl⟩

/-- `last_remote` points to no old remote any more, or it is left, or `NULL` is dereferenced. -/
theorem mapLast_cases {s : Reloading} (hs : s.crashed = false) :
    (s.mapLast.crashed = false ∧ (∀ a ∈ s.mapLast.lastRemote, a ∈ s.daemon.remotes) ∧
      ∀ a ∈ s.lastRemote, a ∈ s.freeRemotes →
        ∃ b c, s.daemon.getIrRemote (s.daemon.heap a).name = some b ∧
          (s.daemon.heap a).lastCode = some c ∧
          (getCodeByName (s.daemon.heap b) ((s.daemon.heap a).codeName c)).isSome) ∨
    (s.mapLast = s ∧ ∃ a, s.lastRemote = some a ∧ a ∈ s.freeRemotes ∧
      (s.daemon.getIrRemote (s.daemon.heap a).name = none ∨
        ∃ b c, s.daemon.getIrRemote (s.daemon.heap a).name = some b ∧
          (s.daemon.heap a).lastCode = some c ∧
          getCodeByName (s.daemon.heap b) ((s.daemon.heap a).codeName c) = none)) ∨
    (s.mapLast.crashed = true ∧ ∃ a, s.lastRemote = some a ∧ a ∈ s.freeRemotes ∧
      (∃ b, s.daemon.getIrRemote (s.daemon.heap a).name = some b) ∧
        (s.daemon.heap a).lastCode = none) := by
  unfold mapLast
  split
  · next hlast =>
      refine .inl ⟨hs, fun a ha => ?_, fun a ha => ?_⟩
      · rw [hlast] at ha
        cases ha
      · rw [hlast] at ha
        cases ha
  · next a hlast =>
      split
      · next hold =>
          dsimp only
          split
          · next hget => exact .inr (.inl ⟨rfl, a, hlast, hold, .inl hget⟩)
          · next b hget =>
              split
              · next hcode => exact .inr (.inr ⟨rfl, a, hlast, hold, ⟨b, hget⟩, hcode⟩)
              · next c hcode =>
                  split
                  · next hname =>
                      exact .inr (.inl ⟨rfl, a, hlast, hold, .inr ⟨b, c, hget, hcode, hname⟩⟩)
                  · next c' hname =>
                      refine .inl ⟨hs, fun a' ha' => ?_, fun a' ha' _ => ?_⟩
                      · cases ha'
                        exact getIrRemote_mem hget
                      · rw [hlast] at ha'
                        cases ha'
                        exact ⟨b, c, hget, hcode, by rw [hname, Option.isSome_some]⟩
      · next hold =>
          refine .inl ⟨hs, fun a' ha' => ?_, fun a' ha' hold' => ?_⟩
          · cases ha'
          · rw [hlast] at ha'
            cases ha'
            exact absurd hold' hold

theorem mapLast_crashed {s : Reloading} (hs : s.crashed = false) :
    s.mapLast.crashed = true ↔ s.FollowsNull := by
  rcases mapLast_cases hs with ⟨hmap, -, hnames⟩ | ⟨hsame, a, ha, hold, hnot⟩ |
    ⟨hmap, a, ha, hold, ⟨b, hget⟩, hnone⟩
  · refine iff_of_false (by rw [hmap]; exact Bool.false_ne_true) ?_
    rintro ⟨a, ha, hold, -, hnone⟩
    obtain ⟨b, c, -, hc, -⟩ := hnames a ha hold
    rw [hnone] at hc
    cases hc
  · refine iff_of_false (by rw [hsame, hs]; exact Bool.false_ne_true) ?_
    rintro ⟨a', ha', -, hsome, hnone⟩
    rw [ha] at ha'
    cases ha'
    rcases hnot with hget | ⟨b, c, -, hc, -⟩
    · rw [hget] at hsome
      cases hsome
    · rw [hnone] at hc
      cases hc
  · exact iff_of_true hmap ⟨a, ha, hold, by rw [hget]; rfl, hnone⟩

/-- What `mapRepeat` does when `repeat_code` is there. -/
theorem mapRepeat_spec {s : Reloading} (hs : s.Sound) :
    SameLists s s.mapRepeat.2 ∧ s.mapRepeat.2.lastRemote = s.lastRemote ∧
      s.mapRepeat.2.crashed = s.crashed ∧ s.mapRepeat.2.release = s.release ∧
      s.mapRepeat.2.release2 = s.release2 ∧
      (s.mapRepeat.1 = true ∧ s.KeepsOld ∧
          s.mapRepeat.2.daemon.repeatRemote = s.daemon.repeatRemote ∧
          s.mapRepeat.2.daemon.repeatCode = s.daemon.repeatCode ∨
        s.mapRepeat.1 = false ∧ ¬s.KeepsOld ∧
          ∀ a, s.mapRepeat.2.daemon.repeatRemote = some a →
            ∃ c, s.mapRepeat.2.daemon.repeatCode = some c ∧ a ∈ s.daemon.remotes ∧
              c < (s.daemon.heap a).codes.length) := by
  have hrefl := SameLists.refl s
  unfold mapRepeat
  split
  · next hnone =>
      refine ⟨hrefl, rfl, rfl, rfl, rfl, .inr ⟨rfl, ?_, fun a ha => ?_⟩⟩
      · rintro ⟨a, ha, -⟩
        rw [hnone] at ha
        cases ha
      · rw [hnone] at ha
        cases ha
  · next a hremote =>
      obtain ⟨c, hcode, hpoints⟩ := hs.repeating a hremote
      have hkeeps : s.KeepsOld ↔ a ∈ s.freeRemotes ∧
          ∀ b ∈ s.daemon.getIrRemote (s.daemon.heap a).name,
            getCodeByName (s.daemon.heap b) ((s.daemon.heap a).codeName c) = none := by
        rw [KeepsOld, hremote, hcode]
        simp
      split
      · next hold =>
          dsimp only
          split
          · next hget =>
              refine ⟨hrefl, rfl, rfl, rfl, rfl, .inl ⟨rfl, hkeeps.mpr ⟨hold, ?_⟩, rfl, rfl⟩⟩
              intro b hb
              rw [hget] at hb
              cases hb
          · next b hget =>
              rw [hcode]
              dsimp only
              split
              · next hname =>
                  refine ⟨hrefl, rfl, rfl, rfl, rfl, .inl ⟨rfl, hkeeps.mpr ⟨hold, ?_⟩, rfl, hcode⟩⟩
                  intro b' hb'
                  rw [hget] at hb'
                  cases hb'
                  exact hname
              · next c' hname =>
                  refine ⟨⟨(Evolves.setRemote ?_).names, rfl, rfl, rfl, rfl⟩, rfl, rfl, rfl, rfl,
                    .inr ⟨rfl, fun h => ?_, fun a' ha' => ?_⟩⟩
                  · exact NamesKept.refl _
                  · rw [(hkeeps.mp h).2 b hget] at hname
                    cases hname
                  · cases ha'
                    exact ⟨c', rfl, getIrRemote_mem hget, getCodeByName_lt hname⟩
      · next hold =>
          refine ⟨hrefl, rfl, rfl, rfl, rfl, .inr ⟨rfl, fun h => hold (hkeeps.mp h).1, ?_⟩⟩
          intro a' ha'
          rw [hremote] at ha'
          cases ha'
          exact ⟨c, hcode, hpoints.1.resolve_right hold, hpoints.2⟩

/-- The old remotes are freed when nothing points to them. -/
theorem Sound.free {s : Reloading} (hs : s.Sound) (hdecodes : s.decodesOld = false)
    (hhanded : s.handed ≠ s.freeRemotes)
    (hrepeating : ∀ a, s.daemon.repeatRemote = some a → a ∈ s.daemon.remotes)
    (hpressed : ∀ p, s.release = some p ∨ s.release2 = some p → p.remote ∈ s.daemon.remotes) :
    Sound { s with freeRemotes := [] } where
  apart a ha := by cases ha
  handed := by
    rcases hs.handed with h | h | h
    · exact .inl h
    · exact .inr (.inl h)
    · exact absurd h hhanded
  decoding := by
    rcases hs.decoding with h | h | h
    · exact .inl h
    · exact .inr (.inl h)
    · rw [decodesOld, h] at hdecodes
      simp at hdecodes
  repeating a ha := by
    obtain ⟨c, hc, hpoints⟩ := hs.repeating a ha
    exact ⟨c, hc, .inl (hrepeating a ha), hpoints.2⟩
  pressed p hp := ⟨.inl (hpressed p hp), (hs.pressed p hp).2⟩

/-- No old remote is going to be released. -/
def ReleasesNew (s : Reloading) : Prop :=
  ∀ p, s.release = some p ∨ s.release2 = some p → p.remote ∈ s.daemon.remotes

/-- `last_remote` after `free_old_remotes` has kept the old remotes, or freed them. -/
theorem lastLive_iff_lastMapped {s s' : Reloading} (hs : s.Sound) (hlive : s.LastLive)
    (hmap : s.mapLast.crashed = false) (hcrashed : s'.crashed = false)
    (hlast : s'.lastRemote = s.mapLast.lastRemote)
    (hmem : ∀ a, s'.Live a ↔ a ∈ s.daemon.remotes ∨ s.KeepsOld ∧ a ∈ s.freeRemotes) :
    s'.LastLive ↔ s.LastMapped := by
  rw [LastLive, hlast]
  simp only [hcrashed, hmem, true_and]
  rcases mapLast_cases hlive.1 with ⟨-, hnew, hnames⟩ | ⟨hsame, a, ha, hold, hnot⟩ | ⟨h, -⟩
  · refine ⟨fun _ a ha hold => ?_, fun _ a ha => .inl (hnew a ha)⟩
    obtain ⟨b, c, hget, hc, hname⟩ := hnames a ha hold
    exact .inr ⟨b, c, hget, hc, .inl hname⟩
  · rw [hsame]
    constructor
    · intro h a' ha' hold'
      have hkept := ((h a' ha').resolve_left (hs.apart a' hold')).1
      rw [ha] at ha'
      cases ha'
      rcases hnot with hget | ⟨b, c, hget, hc, -⟩
      · exact .inl ⟨hget, hkept⟩
      · exact .inr ⟨b, c, hget, hc, .inr hkept⟩
    · intro h a' ha'
      rw [ha] at ha'
      cases ha'
      rcases h a ha hold with ⟨-, hkept⟩ | ⟨b, c, hget, hc, hname | hkept⟩
      · exact .inr ⟨hkept, hold⟩
      · rcases hnot with hnone | ⟨b', c', hget', hc', hnone⟩
        · rw [hnone] at hget
          cases hget
        · rw [hget'] at hget
          cases hget
          rw [hc'] at hc
          cases hc
          rw [hnone] at hname
          cases hname
      · exact .inr ⟨hkept, hold⟩
  · rw [hmap] at h
    cases h

/-- After `NULL` has been dereferenced. -/
theorem not_lastMapped {s : Reloading} (hlive : s.LastLive) (hmap : s.mapLast.crashed = true) :
    ¬s.LastMapped := by
  intro h
  rcases mapLast_cases hlive.1 with h' | h' | ⟨-, a, ha, hold, ⟨b, hget⟩, hnone⟩
  · rw [h'.1] at hmap
    cases hmap
  · rw [h'.1, hlive.1] at hmap
    cases hmap
  · rcases h a ha hold with ⟨h, -⟩ | ⟨b', c, -, h, -⟩
    · rw [hget] at h
      cases h
    · rw [hnone] at h
      cases h

theorem freeMapped_spec {s : Reloading} (hs : s.Sound) (hrunning : s.crashed = false)
    (hfree : s.freeRemotes ≠ []) (hdecodes : s.decodesOld = false) (hpressed : s.ReleasesNew) :
    (s.freeMapped.Sound ↔ (s.handed = s.freeRemotes → s.KeepsOld ∨ s.FollowsNull)) ∧
      (s.LastLive → (s.freeMapped.LastLive ↔ s.LastMapped)) := by
  obtain ⟨hlast, hremote, hcode, hrelease, hrelease2⟩ := mapLast_same s
  have hsound : s.mapLast.Sound := by
    refine hlast.sound hs (fun a ha => ?_) (fun p hp => ?_)
    · rw [hremote] at ha
      rw [hcode]
      exact hs.repeating a ha
    · rw [hrelease, hrelease2] at hp
      exact hs.pressed p hp
  obtain ⟨hrepeat, hrlast, hrcrashed, hrrelease, hrrelease2, hfound⟩ := mapRepeat_spec hsound
  have hsame := hlast.trans hrepeat
  rw [hlast.keepsOld hremote hcode] at hfound
  have hrsound : s.mapLast.mapRepeat.2.Sound := by
    refine hrepeat.sound hsound (fun a ha => ?_) (fun p hp => ?_)
    · rcases hfound with ⟨-, -, h, h'⟩ | ⟨-, -, h⟩
      · rw [h] at ha
        rw [h']
        exact hsound.repeating a ha
      · obtain ⟨c, hc, hmem, hlt⟩ := h a ha
        exact ⟨c, hc, .inl hmem, hlt⟩
    · rw [hrrelease, hrrelease2] at hp
      exact hsound.pressed p hp
  unfold freeMapped
  dsimp only
  split
  · next hcrashed =>
      refine ⟨iff_of_true hsound fun _ => .inr ((mapLast_crashed hrunning).mp hcrashed),
        fun hlive => ⟨fun h => ?_, fun h => absurd h (not_lastMapped hlive hcrashed)⟩⟩
      rw [h.1] at hcrashed
      cases hcrashed
  · next hcrashed =>
      have hmap := eq_false_of_ne_true hcrashed
      have hcond : (s.mapLast.mapRepeat.2.crashed || s.mapLast.mapRepeat.1 ||
          s.mapLast.mapRepeat.2.decodesOld) = s.mapLast.mapRepeat.1 := by
        rw [hrcrashed, hsame.decodesOld, hdecodes, hmap, Bool.false_or, Bool.or_false]
      rw [hcond]
      rcases hfound with ⟨hfound, hkept, -, -⟩ | ⟨hfound, hkept, hnew⟩
      · rw [hfound, if_pos rfl]
        refine ⟨iff_of_true hrsound fun _ => .inl hkept, fun hlive => ?_⟩
        refine lastLive_iff_lastMapped hs hlive hmap (hrcrashed.trans hmap) hrlast fun a => ?_
        rw [hsame.live, Live, and_iff_right hkept]
      · rw [hfound, if_neg Bool.false_ne_true]
        refine ⟨⟨fun h hhanded => ?_, fun h => ?_⟩, ?_⟩
        · -- the list that the driver has is not in memory any more
          rcases h.handed with hnil | hpresent | hnil
          · exact absurd (hhanded.symm.trans (hsame.handed.symm.trans hnil)) hfree
          · obtain ⟨a, ha⟩ := List.exists_mem_of_ne_nil _ hfree
            have hmem : s.freeRemotes = s.daemon.remotes :=
              hhanded.symm.trans (hsame.handed.symm.trans (hpresent.trans hsame.remotes))
            exact absurd (hmem ▸ ha) (hs.apart a ha)
          · exact absurd (hhanded.symm.trans (hsame.handed.symm.trans hnil)) hfree
        · refine hrsound.free (hsame.decodesOld.trans hdecodes) (fun hhanded => ?_)
            (fun a ha => ?_) (fun p hp => ?_)
          · rw [hsame.handed, hsame.freeRemotes] at hhanded
            rcases h hhanded with hkeeps | hnull
            · exact hkept hkeeps
            · exact hcrashed ((mapLast_crashed hrunning).mpr hnull)
          · obtain ⟨c, -, hmem, -⟩ := hnew a ha
            rwa [hrepeat.remotes]
          · rw [hrrelease, hrrelease2, hrelease, hrelease2] at hp
            rw [hsame.remotes]
            exact hpressed p hp
        · intro hlive
          refine lastLive_iff_lastMapped hs hlive hmap (hrcrashed.trans hmap) hrlast fun a => ?_
          simp [Live, hsame.remotes, hkept]

section Steps

variable (env : Env) (suffix : Name) (userelease : Bool)

theorem freeOldRemotes_spec {s : Reloading} (hs : s.Sound) (hrunning : s.crashed = false)
    (hfree : s.freeRemotes ≠ []) (hdecodes : s.decodesOld = false) :
    ((s.freeOldRemotes env suffix userelease).Sound ↔
      (s.handed = s.freeRemotes → s.KeepsOld ∨ s.FollowsNull)) ∧
      (s.LastLive → ((s.freeOldRemotes env suffix userelease).LastLive ↔ s.LastMapped)) := by
  have hann := mapRelease_announced env suffix userelease s
  obtain ⟨hnone, hnew⟩ := mapRelease_pressed env suffix userelease hs
  have hpending : ∀ p, (s.mapRelease env suffix userelease).release = some p ∨
      (s.mapRelease env suffix userelease).release2 = some p →
        p.remote ∈ s.daemon.remotes ∧ p.button < (s.daemon.heap p.remote).codes.length := by
    intro p hp
    rw [hnone] at hp
    exact hnew p (hp.resolve_right (by simp))
  have hsound := hann.sound hs fun p hp => ⟨.inl (hpending p hp).1, (hpending p hp).2⟩
  have hdecodes' := hann.decodesOld.trans hdecodes
  obtain ⟨hfrees, hiff⟩ := freeMapped_spec hsound (hann.crashed.trans hrunning)
    (hann.freeRemotes ▸ hfree) hdecodes' fun p hp => by
      rw [hann.remotes]
      exact (hpending p hp).1
  rw [hann.handed, hann.freeRemotes, hann.toSameLists.keepsOld hann.repeatRemote hann.repeatCode,
    hann.followsNull] at hfrees
  rw [freeOldRemotes, hdecodes, if_neg Bool.false_ne_true]
  exact ⟨hfrees, fun hlive => (hiff (hann.lastLive.mpr hlive)).trans hann.lastMapped⟩

theorem config_spec {s : Reloading} (new : Option (List (ℕ × IrRemote))) (hs : s.Sound)
    (hnew : s.Possible (.sighup new)) :
    (s.config new).Sound ∧ (∀ a, s.Live a → (s.config new).Live a) ∧
      (s.config new).lastRemote = s.lastRemote ∧ (s.config new).crashed = s.crashed := by
  unfold config
  split
  · exact ⟨hs, fun _ h => h, rfl, rfl⟩
  · next hfree =>
      rw [not_not] at hfree
      split
      · exact ⟨hs, fun _ h => h, rfl, rfl⟩
      · next new =>
          have hheap : ∀ a, s.Live a →
              ((new.find? fun x => x.1 == a).map Prod.snd).getD (s.daemon.heap a) =
                s.daemon.heap a := by
            intro a ha
            have hnone : new.find? (fun x => x.1 == a) = none := by
              rw [List.find?_eq_none]
              intro x hx hxa
              exact hnew x hx (beq_iff_eq.mp hxa ▸ ha)
            rw [hnone]
            rfl
          have hlive : ∀ a, s.Live a → a ∈ s.daemon.remotes := by
            intro a ha
            rw [Live, hfree] at ha
            exact ha.resolve_right List.not_mem_nil
          have hlist : ∀ {l : List ℕ}, l = [] ∨ l = s.daemon.remotes ∨ l = s.freeRemotes →
              l = [] ∨ l = new.map Prod.fst ∨ l = s.daemon.remotes := by
            rintro l (h | h | h)
            · exact .inl h
            · exact .inr (.inr h)
            · exact .inl (h.trans hfree)
          refine ⟨⟨fun a ha => ?_, hlist hs.handed, hlist hs.decoding, fun a ha => ?_,
            fun p hp => ?_⟩, fun a ha => .inr (hlive a ha), rfl, rfl⟩
          · intro hmem
            obtain ⟨x, hx, rfl⟩ := List.mem_map.mp hmem
            exact hnew x hx (.inl ha)
          · obtain ⟨c, hc, hmem, hlt⟩ := hs.repeating a ha
            refine ⟨c, hc, .inr (hlive a hmem), ?_⟩
            dsimp only
            rwa [hheap a hmem]
          · obtain ⟨hmem, hlt⟩ := hs.pressed p hp
            refine ⟨.inr (hlive _ hmem), ?_⟩
            dsimp only
            rwa [hheap _ hmem]

theorem registerPress_sound {s : Reloading} (p : Pressed) (reps : ℤ) (hs : s.Sound)
    (hp : s.Points p.remote p.button) : (s.registerPress p reps).Sound := by
  have hann : Announced s (s.registerPress p reps) := .of_daemon rfl rfl rfl rfl rfl rfl
  refine hann.sound hs fun q hq => ?_
  rw [registerPress] at hq
  rcases hq with hq | hq
  · cases hq
    exact hp
  · dsimp only at hq
    split at hq
    · exact hs.pressed q (.inl hq)
    · exact hs.pressed q (.inr hq)

theorem announce_spec {s : Reloading} (p : Pressed) (reps : ℤ) (hs : s.Sound) :
    Announced s (s.announce env suffix userelease p reps) ∧
      (s.announce env suffix userelease p reps).Sound := by
  unfold announce
  dsimp only
  split
  · have hinput := input_announced env suffix userelease (some ((s.pressed p reps).text [])) false s
    refine ⟨hinput, hinput.sound hs fun q hq => ?_⟩
    rw [input_release, input_release2] at hq
    exact hs.pressed q (.inl (hq.resolve_right (by simp)))
  · exact ⟨Announced.refl s, hs⟩

theorem decoded_spec {s : Reloading} {outcome : DecodeOutcome} (hs : s.Sound)
    (hcrashed : s.crashed = false) (hposs : s.Possible (.decoded outcome)) :
    (s.decoded env suffix userelease outcome).Sound ∧
      (s.decoded env suffix userelease outcome).LastLive := by
  have hheap : ∀ (heap : ℕ → IrRemote) (last : Option ℕ),
      (∀ b, NamesKept (s.daemon.heap b) (heap b)) →
      ({ s with
        daemon := { s.daemon with heap := heap }, decoding := [], lastRemote := last } :
          Reloading).Sound := by
    intro heap last hnames
    refine ⟨hs.apart, hs.handed, .inl rfl, fun a ha => ?_, fun p hp => ?_⟩
    · obtain ⟨c, hc, hlive, hlt⟩ := hs.repeating a ha
      exact ⟨c, hc, hlive, (hnames a).length ▸ hlt⟩
    · obtain ⟨hlive, hlt⟩ := hs.pressed p hp
      exact ⟨hlive, (hnames p.remote).length ▸ hlt⟩
  cases outcome with
  | failed heap => exact ⟨hheap heap none hposs, hcrashed, fun a ha => by cases ha⟩
  | found a heap press =>
      obtain ⟨ha, hnames, hpress⟩ := hposs
      have hlive : s.Live a := by
        rcases hs.decoding with h | h | h
        · rw [h] at ha
          cases ha
        · exact .inl (h ▸ ha)
        · exact .inr (h ▸ ha)
      have hsound := hheap heap (some a) hnames
      have hlast : ({ s with
          daemon := { s.daemon with heap := heap }, decoding := [], lastRemote := some a } :
          Reloading).LastLive := by
        refine ⟨hcrashed, fun b hb => ?_⟩
        cases hb
        exact hlive
      cases press with
      | none => exact ⟨hsound, hlast⟩
      | some x =>
          obtain ⟨c, code, reps⟩ := x
          have hpressed := registerPress_sound ⟨a, c, code⟩ reps hsound ⟨hlive, (hpress _ rfl).2⟩
          obtain ⟨hann, hsound'⟩ :=
            announce_spec env suffix userelease ⟨a, c, code⟩ reps hpressed
          exact ⟨hsound', hann.lastLive.mpr hlast⟩

/-- The lists are the same, and so is `last_remote`. -/
theorem loopStep_spec {s : Reloading} {e : LoopEvent} (hs : s.Sound)
    (hposs : s.Possible (.loop e)) :
    ({ s with daemon := loopStep env s.daemon e } : Reloading).Sound ∧
      ({ s with daemon := loopStep env s.daemon e } : Reloading).LastLive = s.LastLive := by
  have hevolves : Evolves s.daemon (loopStep env s.daemon e) := by
    refine loopStep_evolves env s.daemon fun heap messages h => ?_
    rw [h] at hposs
    exact hposs
  have hsame : SameLists s { s with daemon := loopStep env s.daemon e } :=
    ⟨hevolves.names, hevolves.remotes, rfl, rfl, rfl⟩
  refine ⟨hsame.sound hs (fun a ha => ?_) hs.pressed, ?_⟩
  · rcases hevolves.repeating with ⟨h, h'⟩ | h | ⟨b, hb, c, hc, h, h'⟩
    · dsimp only at ha
      rw [h] at ha
      dsimp only
      rw [h']
      exact hs.repeating a ha
    · dsimp only at ha
      rw [h] at ha
      cases ha
    · dsimp only at ha
      rw [h] at ha
      cases ha
      exact ⟨c, h', .inl hb, hc⟩
  · rw [LastLive, LastLive]
    simp only [hsame.live]

end Steps

end Reloading

section Runs

variable (env : Env) (suffix : Name) (userelease : Bool)

/-- One event keeps what lircd points to in memory if it frees no list that the driver has, and
`last_remote` if it is mapped. -/
theorem reloadStep_spec {s : Reloading} {e : ReloadEvent} (hs : s.Sound) (hposs : s.Possible e) :
    ((reloadStep env suffix userelease s e).Sound ↔ s.KeepsHanded e) ∧
      (s.LastLive → ((reloadStep env suffix userelease s e).LastLive ↔ s.MapsLast e)) := by
  unfold reloadStep
  split
  · next hcrashed =>
      constructor
      · refine iff_of_true hs ?_
        cases e with
        | freeOld => exact fun h => by rw [h] at hcrashed; cases hcrashed
        | _ => trivial
      · intro hlive
        rw [hlive.1] at hcrashed
        cases hcrashed
  next hcrashed =>
  have hrunning := eq_false_of_ne_true hcrashed
  cases e with
  | loop e =>
      obtain ⟨hsound, hsame⟩ := loopStep_spec env hs hposs
      refine ⟨iff_of_true hsound trivial, fun hlive => iff_of_true ?_ trivial⟩
      rwa [hsame]
  | sighup new =>
      obtain ⟨hsound, hkept, hlast, hcrashed⟩ := config_spec new hs hposs
      have hann := tellClients_announced env (s.config new)
      refine ⟨iff_of_true (hann.sound hsound hsound.pressed) trivial,
        fun hlive => iff_of_true (hann.lastLive.mpr ?_) trivial⟩
      refine ⟨hcrashed.trans hlive.1, fun a ha => hkept a (hlive.2 a ?_)⟩
      rwa [← hlast]
  | freeOld =>
      dsimp only
      split
      · next hfree =>
          cases hdecodes : s.decodesOld with
          | true =>
              have hkeeps : s.KeepsHanded .freeOld := fun _ _ h => by
                rw [hdecodes] at h
                cases h
              rw [freeOldRemotes, hdecodes, if_pos rfl]
              refine ⟨iff_of_true hs hkeeps, fun hlive => iff_of_true hlive fun _ h => ?_⟩
              rw [hdecodes] at h
              cases h
          | false =>
              obtain ⟨hsound, hiff⟩ :=
                freeOldRemotes_spec env suffix userelease hs hrunning hfree hdecodes
              refine ⟨hsound.trans ⟨fun h _ _ _ => h, fun h => h hrunning hfree hdecodes⟩, ?_⟩
              exact fun hlive => (hiff hlive).trans ⟨fun h _ _ => h, fun h => h hfree hdecodes⟩
      · next hfree =>
          exact ⟨iff_of_true hs fun _ h => absurd h hfree,
            fun hlive => iff_of_true hlive fun h => absurd h hfree⟩
  | receive =>
      exact ⟨iff_of_true ⟨hs.apart, .inr (.inl rfl), hs.decoding, hs.repeating, hs.pressed⟩ trivial,
        fun hlive => iff_of_true hlive trivial⟩
  | decode =>
      exact ⟨iff_of_true ⟨hs.apart, hs.handed, hs.handed, hs.repeating, hs.pressed⟩ trivial,
        fun hlive => iff_of_true hlive trivial⟩
  | decoded outcome =>
      obtain ⟨hsound, hlast⟩ := decoded_spec env suffix userelease hs hrunning hposs
      exact ⟨iff_of_true hsound trivial, fun _ => iff_of_true hlast trivial⟩
  | returned =>
      exact ⟨iff_of_true ⟨hs.apart, .inl rfl, hs.decoding, hs.repeating, hs.pressed⟩ trivial,
        fun hlive => iff_of_true hlive trivial⟩
  | releaseDue =>
      have hann := triggerRelease_announced env suffix userelease s
      refine ⟨iff_of_true (hann.sound hs fun p hp => ?_) trivial,
        fun hlive => iff_of_true (hann.lastLive.mpr hlive) trivial⟩
      rw [triggerRelease_release] at hp
      rcases triggerRelease_release2 env suffix userelease s with h | h
      · rw [h] at hp
        simp at hp
      · rw [h] at hp
        exact hs.pressed p (.inr (hp.resolve_left (by simp)))

theorem Reloading.Fresh.sound {s : Reloading} (h : s.Fresh) : s.Sound where
  apart a ha := by
    rw [h.freeRemotes] at ha
    cases ha
  handed := .inl h.handed
  decoding := .inl h.decoding
  repeating a ha := by
    rw [h.daemon.repeatRemote] at ha
    cases ha
  pressed p hp := by
    rw [h.release, h.release2] at hp
    simp at hp

theorem Reloading.Fresh.lastLive {s : Reloading} (h : s.Fresh) : s.LastLive := by
  refine ⟨h.crashed, fun a ha => ?_⟩
  rw [h.lastRemote] at ha
  cases ha

/-- However often the configuration is read again, and whatever happens meanwhile: what lircd
repeats, decodes, has given to the driver or is going to release is in memory throughout if and
only if `free_old_remotes` never frees the list that `hw.rec_func` waits with. -/
theorem reload_sound_iff {s : Reloading} {es : List ReloadEvent} (hstart : s.Fresh)
    (hposs : Along (reloadStep env suffix userelease) Possible s es) :
    Always (reloadStep env suffix userelease) Sound s es ↔
      Along (reloadStep env suffix userelease) KeepsHanded s es :=
  hposs.always_iff_along (J := fun _ => True) (fun _ _ _ _ => trivial)
    (fun _ _ _ hposs hs => (reloadStep_spec env suffix userelease hs hposs).1) trivial hstart.sound

/-- A remote with one button. -/
def remoteTv (button : String) : IrRemote where
  name := "tv".toList
  codes := [{ name := button.toList, code := 1 }]

/-- A daemon with one remote. -/
def reloadingTv : Reloading where
  daemon := { emptyDaemon with heap := fun _ => remoteTv "POWER", remotes := [0] }

/-- A configuration with one button of the remote. -/
def newTv (a : ℕ) (button : String) : ReloadEvent := .sighup (some [(a, remoteTv button)])

/-- The button is found in the list that is decoded. -/
def foundTv (a : ℕ) : ReloadEvent :=
  .decoded (.found a (fun _ => { remoteTv "POWER" with lastCode := some 0 }) (some (0, 1, 0)))

/-- The configuration is read again while a button is decoded, and once more before it is
released. -/
def reloadingEvents : List ReloadEvent :=
  [.receive, .decode, newTv 1 "POWER", .freeOld, foundTv 0, .returned, .freeOld, newTv 2 "POWER",
    .freeOld, .releaseDue]

/-- It is read again while the driver waits before it decodes. -/
def waitingEvents : List ReloadEvent := [.receive, newTv 1 "POWER", .freeOld, .decode]

theorem reloadingTv_fresh : reloadingTv.Fresh where
  daemon := ⟨rfl, rfl, rfl, rfl, rfl, rfl, rfl, rfl⟩
  freeRemotes := rfl
  handed := rfl
  decoding := rfl
  lastRemote := rfl
  release := rfl
  release2 := rfl
  crashed := rfl

instance (s : Reloading) (a : ℕ) : Decidable (s.Live a) :=
  inferInstanceAs (Decidable (a ∈ s.daemon.remotes ∨ a ∈ s.freeRemotes))

theorem newTv_possible {s : Reloading} {a : ℕ} {button : String} (h : ¬s.Live a) :
    s.Possible (newTv a button) := fun x hx => by
  cases List.mem_singleton.mp hx
  exact h

theorem namesKept_new {r r' r'' : IrRemote} (h : NamesKept r r'') (h' : NamesKept r' r'')
    (a b : ℕ) :
    NamesKept (((([(a, r)] : List (ℕ × IrRemote)).find? fun x => x.1 == b).map Prod.snd).getD r')
      r'' := by
  rw [List.find?_cons]
  split
  · exact h
  · exact h'

theorem reloadingEvents_possible :
    Along (reloadStep quietEnv [] true) Possible reloadingTv reloadingEvents := by
  refine ⟨⟨rfl, rfl⟩, trivial, newTv_possible (by decide +kernel), trivial,
    ⟨List.mem_cons_self, fun b => ?_, fun x hx => ?_⟩, trivial, trivial,
    newTv_possible (by decide +kernel), trivial, trivial, trivial⟩
  · exact @namesKept_new (remoteTv "POWER") (remoteTv "POWER")
      { remoteTv "POWER" with lastCode := some 0 } ⟨rfl, rfl⟩ ⟨rfl, rfl⟩ 1 b
  · cases hx
    exact ⟨rfl, Nat.zero_lt_one⟩

theorem waitingEvents_possible :
    Along (reloadStep quietEnv [] true) Possible reloadingTv waitingEvents :=
  ⟨⟨rfl, rfl⟩, newTv_possible (by decide +kernel), trivial, trivial, trivial⟩

theorem reloadingEvents_keeps :
    Along (reloadStep quietEnv [] true) KeepsHanded reloadingTv reloadingEvents :=
  ⟨trivial, trivial, trivial, fun _ _ h => absurd h (by decide +kernel), trivial, trivial,
    fun _ _ _ h => absurd h (by decide +kernel), trivial,
    fun _ _ _ h => absurd h (by decide +kernel), trivial, trivial⟩

/-- The old remotes are freed while the driver waits with them. -/
theorem waitingEvents_frees :
    ¬Along (reloadStep quietEnv [] true) KeepsHanded reloadingTv waitingEvents := by
  rintro ⟨-, -, h, -⟩
  rcases h (by decide +kernel) (by decide +kernel) (by decide +kernel) (by decide +kernel) with
    ⟨a, ha, -⟩ | ⟨a, ha, -⟩
  · cases ha
  · cases ha

theorem reload_sound_iff_tv :
    Always (reloadStep quietEnv [] true) Sound reloadingTv reloadingEvents ∧
      ¬Always (reloadStep quietEnv [] true) Sound reloadingTv waitingEvents :=
  ⟨(reload_sound_iff quietEnv [] true reloadingTv_fresh reloadingEvents_possible).mpr
    reloadingEvents_keeps, fun h => waitingEvents_frees
      ((reload_sound_iff quietEnv [] true reloadingTv_fresh waitingEvents_possible).mp h)⟩

/-- As long as no list is freed that the driver has: `last_remote` never points to memory that has
been freed if and only if it is mapped each time that the old remotes are freed. -/
theorem lastLive_iff_mapsLast {s : Reloading} {es : List ReloadEvent} (hstart : s.Fresh)
    (hposs : Along (reloadStep env suffix userelease) Possible s es)
    (hkeeps : Along (reloadStep env suffix userelease) KeepsHanded s es) :
    Always (reloadStep env suffix userelease) LastLive s es ↔
      Along (reloadStep env suffix userelease) MapsLast s es :=
  (hposs.and hkeeps).always_iff_along (I := LastLive) (J := Sound)
    (fun _ _ hs h => (reloadStep_spec env suffix userelease hs h.1).1.mpr h.2)
    (fun _ _ hs h => (reloadStep_spec env suffix userelease hs h.1).2)
    hstart.sound hstart.lastLive

/-- A `last_remote` that has been mapped to a remote with one code. -/
theorem lastMapped_of {s : Reloading} {a b c : ℕ} (hlast : s.lastRemote = some a)
    (hget : s.daemon.getIrRemote (s.daemon.heap a).name = some b)
    (hcode : (s.daemon.heap a).lastCode = some c)
    (hname : (getCodeByName (s.daemon.heap b) ((s.daemon.heap a).codeName c)).isSome = true) :
    s.LastMapped := by
  intro a' ha' _
  rw [hlast] at ha'
  cases ha'
  exact .inr ⟨b, c, hget, hcode, .inl hname⟩

/-- `last_remote` is mapped twice, to the remotes of the second and of the third configuration. -/
theorem lastLive_iff_mapsLast_tv :
    Always (reloadStep quietEnv [] true) LastLive reloadingTv reloadingEvents := by
  refine (lastLive_iff_mapsLast quietEnv [] true reloadingTv_fresh reloadingEvents_possible
    reloadingEvents_keeps).mpr ⟨trivial, trivial, trivial, fun _ h => absurd h (by decide +kernel),
      trivial, trivial, fun _ _ => ?_, trivial, fun _ _ => ?_, trivial, trivial⟩
  · exact @lastMapped_of _ 0 1 0 (by decide +kernel) (by decide +kernel) (by decide +kernel)
      (by decide +kernel)
  · exact @lastMapped_of _ 1 2 0 (by decide +kernel) (by decide +kernel) (by decide +kernel)
      (by decide +kernel)

end Runs

end Lirc
