import Lirc.Release
import Lirc.RepeatCount

/-!
Presses and releases in the messages that are broadcast. `set_code` decides what is
a press by its counters, `release.c` remembers which release is due; the two agree
as long as a frame does not count as a repeat of a button that is not pressed, and
as long as the messages fit their buffers and keep their names.
-/

namespace Lirc

open Numeral Transition

/-! ### The stream of messages -/

/-- A button that is pressed: its remote, its name and its code. -/
abbrev HeldButton := Name × Name × IrCode

/-- The button of a message. -/
def Message.held (m : Message) : HeldButton := (m.remote, m.button, m.code)

/-- The button that is held after a message. -/
def heldAfter (held : Option HeldButton) (m : Message) : Option HeldButton :=
  if m.release then none else if m.reps = 0 then some m.held else held

/-- A release is that of the button that is held, a press comes when none is, and a
repeat belongs to the button that is held. -/
def MayBroadcast (held : Option HeldButton) (m : Message) : Prop :=
  if m.release then held = some m.held
  else if m.reps = 0 then held = none
  else ∃ code, held = some (m.remote, m.button, code)

/-- Presses and releases alternate, and repeats come between them. -/
def PressesPaired : Option HeldButton → List Message → Prop
  | _, [] => True
  | held, m :: ms => MayBroadcast held m ∧ PressesPaired (heldAfter held m) ms

theorem pressesPaired_append (held : Option HeldButton) (ms ms' : List Message) :
    PressesPaired held (ms ++ ms') ↔ PressesPaired held ms ∧ PressesPaired (ms.foldl heldAfter held) ms' := by
  induction ms generalizing held with
  | nil => exact (iff_of_eq (true_and _)).symm
  | cons m ms ih =>
      show MayBroadcast held m ∧ PressesPaired (heldAfter held m) (ms ++ ms') ↔ _
      rw [ih]
      exact and_assoc.symm

/-! ### Lengths -/

theorem text_length (suffix : Name) (m : Message) :
    (m.text suffix).length = 20 + (hexReps m.reps).length + m.button.length +
      (if m.release then suffix else []).length + m.remote.length := by
  simp only [Message.text, List.length_append, List.length_cons, length_hexDigits, List.length_nil]
  omega

theorem two_le_hexReps (reps : ℤ) : 2 ≤ (hexReps reps).length := by
  rw [hexReps, List.length_leftpad]
  exact le_max_left _ _

section Fits

variable {suffix : Name} {d : Receiver} {p : Pressed}

/-- The message about a release is no shorter than that about the press. -/
theorem press_fits_of_release (h : (d.releaseMessage p).fits suffix = true) :
    (d.pressMessage p 0).fits suffix = true := by
  have hlong := of_decide_eq_true h
  have hzero : hexReps 0 = ['0', '0'] := by decide
  rw [text_length] at hlong
  refine decide_eq_true ?_
  rw [text_length]
  simp only [Receiver.releaseMessage, Receiver.pressMessage, hzero, Bool.false_eq_true, if_false,
    List.length_nil] at hlong ⊢
  omega

/-- No message about a repeat is shorter than that about the press. -/
theorem press_fits_of_repeat {reps : ℤ} (h : (d.pressMessage p reps).fits suffix = true) :
    (d.pressMessage p 0).fits suffix = true := by
  have hlong := of_decide_eq_true h
  have htwo := two_le_hexReps reps
  have hzero : hexReps 0 = ['0', '0'] := by decide
  rw [text_length] at hlong
  refine decide_eq_true ?_
  rw [text_length]
  simp only [Receiver.pressMessage, hzero, Bool.false_eq_true, if_false, List.length_cons,
    List.length_nil] at hlong ⊢
  omega

end Fits

/-! ### The state of a run -/

/-- What happens to the receiver. -/
inductive ReceiverEvent
  | frame (decoded : ℕ → Option Decoded) (now : ℕ)
  /-- `release_time` has come. -/
  | timeout
  /-- The configuration is read again; no sequence of it is begun. -/
  | reload (new : List IrRemote) (hnew : ∀ r ∈ new, NoStrayPointers r)

/-- The button of a remote with the code that a message shows. -/
def pressedOf (r : IrRemote) (a c : ℕ) : Pressed := ⟨a, c, (r.codes[c]?.map (messageCode r)).getD 0⟩

/-- The receiver, and whether a part of a sequence has made it forget what was
pressed: the button that is last has a single code, its counter is 0, and its
release is not pending. -/
structure Receiving where
  receiver : Receiver
  forgotten : Bool := false

/-- The code that is found for a frame: the remote and the code, after `get_code`. -/
def foundFor (decoded : ℕ → Option Decoded) (d : Receiver) : Option (Found × IrRemote × IrNcode) := do
  let tried := tryRemotes decoded 0 d.remotes
  let f ← tried.2
  let r ← tried.1[f.remote]?
  let code ← r.codes[f.code]?
  some (f, r, code)

/-- The frame repeats the last one of the remote. -/
def Found.continues (f : Found) (d : Receiver) (r : IrRemote) (code : IrNcode) (now : ℕ) : Bool :=
  Lirc.continues r f.code code f.state (d.lastDecoded == some f.remote) f.decoded now

def forgottenAfter (decoded : ℕ → Option Decoded) (now : ℕ) (s : Receiving) : Bool :=
  match foundFor decoded s.receiver with
  | none => s.forgotten
  | some (f, r, code) =>
      if incomplete (f.count (s.receiver.lastDecoded == some f.remote) now r) code then
        if f.continues s.receiver r code now then s.forgotten
        else r.lastCode.any fun c =>
          isSingle r c && s.receiver.release != some (pressedOf r f.remote c)
      else false

/-- The function that handles the event. -/
def receiverStep (suffix : Name) (s : Receiving) : ReceiverEvent → Receiving
  | .frame decoded now =>
      { receiver := receiveFrame suffix decoded now s.receiver
        forgotten := forgottenAfter decoded now s }
  | .timeout => { s with receiver := triggerReleaseEvent suffix s.receiver }
  | .reload new _ => { s with receiver := mapRemotes suffix new s.receiver }

/-- The release of the button fits its buffer; or not even the press does, and no
release that fits is pending. -/
def MayPress (suffix : Name) (d : Receiver) (p : Pressed) : Prop :=
  (d.releaseMessage p).fits suffix = true ∨
    (d.pressMessage p 0).fits suffix = false ∧
      ∀ q ∈ d.release, (d.releaseMessage q).fits suffix = false

/-- The event does not show that presses and releases have come apart. A frame of a
remote with a toggle mask belongs to a button with a single code; another frame does
not continue a button that was forgotten; when it ends a button its messages fit, or
the press does not while nothing is pending. A button that is pressed while the
configuration is read keeps its names, or is not found. -/
def KeepsPairs (suffix : Name) (s : Receiving) : ReceiverEvent → Prop
  | .frame decoded now =>
      ∀ found ∈ foundFor decoded s.receiver,
        let f := found.1
        let r := found.2.1
        let code := found.2.2
        (hasToggleMask r = true → code.next = []) ∧
          (incomplete (f.count (s.receiver.lastDecoded == some f.remote) now r) code = false →
            MayPress suffix s.receiver (pressedOf r f.remote f.code) ∧
              (hasToggleMask r = false → f.continues s.receiver r code now = true →
                s.forgotten = false))
  | .timeout => True
  | .reload new _ =>
      ∀ p ∈ s.receiver.release, (s.receiver.releaseMessage p).fits suffix = true →
        ∀ button ∈ findButton new (s.receiver.remoteName p.remote)
            (s.receiver.buttonName p.remote p.button),
          ({ remotes := new } : Receiver).remoteName button.1 = s.receiver.remoteName p.remote ∧
            ({ remotes := new } : Receiver).buttonName button.1 button.2 =
              s.receiver.buttonName p.remote p.button

/-! ### What holds between two events -/

/-- If the next frame repeats the last one and ends the button, it is a press or
the button is pressed. -/
def Repeatable (d : Receiver) (forgotten : Bool) (a : ℕ) (r : IrRemote) (c : ℕ) : Prop :=
  d.release = some (pressedOf r a c) ∨
    if hasToggleMask r then r.reps = 0 ∧ (r.toggleMaskState = 0 ∨ r.toggleMaskState = 1)
    else isSingle r c = false ∧ r.reps = 0 ∨ forgotten = true

/-- The counters of the remote that was decoded last. -/
def LastRepeatable (d : Receiver) (forgotten : Bool) : Prop :=
  ∀ a r, d.lastDecoded = some a → d.remotes[a]? = some r → r.releaseDetected = false →
    ∀ c, r.lastCode = some c → Repeatable d forgotten a r c

/-- The button of a slot, if the message about its release fits. -/
def slotButton (suffix : Name) (d : Receiver) (slot : Option Pressed) : Option HeldButton :=
  slot.bind fun p =>
    if (d.releaseMessage p).fits suffix then some (d.releaseMessage p).held else none

/-- The button whose release is pending. -/
def pendingButton (suffix : Name) (d : Receiver) : Option HeldButton := slotButton suffix d d.release

/-- The second slot holds no release that could be broadcast. -/
def NoSecondRelease (suffix : Name) (d : Receiver) : Prop :=
  ∀ q ∈ d.release2, (d.releaseMessage q).fits suffix = false

/-- The invariant: the messages so far are paired, and the button that is held is
the one whose release is pending. -/
structure PairsInv (suffix : Name) (s : Receiving) : Prop where
  pointers : ∀ r ∈ s.receiver.remotes, NoStrayPointers r
  second : NoSecondRelease suffix s.receiver
  counters : LastRepeatable s.receiver s.forgotten
  paired : PressesPaired none s.receiver.broadcast
  held : s.receiver.broadcast.foldl heldAfter none = pendingButton suffix s.receiver

/-! ### Names -/

/-- The remotes and their buttons have the same names. -/
def SameNames (d d' : Receiver) : Prop :=
  ∀ a c, d'.remoteName a = d.remoteName a ∧ d'.buttonName a c = d.buttonName a c

theorem SameNames.releaseMessage {d d' : Receiver} (h : SameNames d d') (p : Pressed) :
    d'.releaseMessage p = d.releaseMessage p := by
  obtain ⟨hremote, hbutton⟩ := h p.remote p.button
  rw [Receiver.releaseMessage, Receiver.releaseMessage, hremote, hbutton]

theorem SameNames.pressMessage {d d' : Receiver} (h : SameNames d d') (p : Pressed) (reps : ℤ) :
    d'.pressMessage p reps = d.pressMessage p reps := by
  obtain ⟨hremote, hbutton⟩ := h p.remote p.button
  rw [Receiver.pressMessage, Receiver.pressMessage, hremote, hbutton]

theorem SameNames.trans {d d' d'' : Receiver} (h : SameNames d d') (h' : SameNames d' d'') :
    SameNames d d'' := fun a c => ⟨(h' a c).1.trans (h a c).1, (h' a c).2.trans (h a c).2⟩

/-- The remotes are changed only as a reception changes them. -/
def SameRemotes (rs rs' : List IrRemote) : Prop :=
  rs'.length = rs.length ∧ ∀ (a : ℕ) r r', rs[a]? = some r → rs'[a]? = some r' → SameSetup r r'

theorem SameSetup.codeName {r r' : IrRemote} (h : SameSetup r r') (c : ℕ) :
    r'.codeName c = r.codeName c := by
  rw [IrRemote.codeName, IrRemote.codeName, h.getElem? IrNcode.name (fun _ => rfl)]

theorem SameSetup.pressedOf {r r' : IrRemote} (h : SameSetup r r') (a c : ℕ) :
    pressedOf r' a c = pressedOf r a c := by
  have hword : ∀ code : IrNcode, messageCode r' code = messageCode r code := fun code =>
    h.field (fun r => messageCode r code) fun _ _ _ _ _ _ _ _ _ _ _ _ => rfl
  have hget := h.getElem? (messageCode r) (fun _ => rfl) c
  rw [Lirc.pressedOf, Lirc.pressedOf, ← hget]
  exact congrArg (fun f => Pressed.mk a c (((r'.codes[c]?).map f).getD 0)) (funext hword)

theorem SameSetup.isSingle {r r' : IrRemote} (h : SameSetup r r') (c : ℕ) :
    isSingle r' c = isSingle r c := by
  have hget := h.getElem? (fun code => code.next == []) (fun _ => rfl) c
  have hany : ∀ o : Option IrNcode,
      o.any (fun code => code.next == []) = (o.map fun code => code.next == []).getD false := by
    intro o
    cases o with
    | none => rfl
    | some code => rfl
  rw [Lirc.isSingle, Lirc.isSingle, hany, hany, hget]

theorem SameRemotes.sameNames {d d' : Receiver} (h : SameRemotes d.remotes d'.remotes) :
    SameNames d d' := by
  obtain ⟨hlength, hsame⟩ := h
  intro a c
  rw [Receiver.remoteName, Receiver.remoteName, Receiver.buttonName, Receiver.buttonName]
  by_cases ha : a < d.remotes.length
  · have ha' : a < d'.remotes.length := by omega
    have hsetup := hsame a _ _ (List.getElem?_eq_getElem ha) (List.getElem?_eq_getElem ha')
    rw [List.getElem?_eq_getElem ha, List.getElem?_eq_getElem ha']
    have hname := hsetup.field IrRemote.name fun _ _ _ _ _ _ _ _ _ _ _ _ => rfl
    exact ⟨hname, hsetup.codeName c⟩
  · rw [List.getElem?_eq_none (Nat.le_of_not_lt ha), List.getElem?_eq_none (by omega)]
    exact ⟨rfl, rfl⟩

/-! ### The loop over the remotes -/

/-- What the loop does to a remote. -/
structure Tried (r r' : IrRemote) : Prop where
  setup : SameSetup r r'
  reps : r'.reps = r.reps
  lastCode : r'.lastCode = r.lastCode
  releaseDetected : r'.releaseDetected = r.releaseDetected
  toggle : r'.toggleMaskState = r.toggleMaskState ∨ r'.toggleMaskState = 0
  pointers : NoStrayPointers r → NoStrayPointers r'

theorem getCode_releaseDetected (r : IrRemote) (x : Received) :
    (getCode r x).2.releaseDetected = r.releaseDetected := by
  rw [getCode]
  split
  · rfl
  · simp only []
    split
    · rfl
    · rw [foundCode]
      split
      · rfl
      · split
        · rfl
        · split
          · rfl
          · rfl

theorem getCode_tried (r : IrRemote) (x : Received) : Tried r (getCode r x).2 := by
  obtain ⟨hsame, hpointers⟩ := getCode_sameCounters r x
  exact ⟨(getCode_spec r x).1, hsame.reps, hsame.lastCode, getCode_releaseDetected r x,
    .inl hsame.toggleMaskState, hpointers⟩

/-- A remote for which no code is found. -/
theorem Tried.reset {r r' : IrRemote} (h : Tried r r') : Tried r { r' with toggleMaskState := 0 } :=
  ⟨h.setup.trans ⟨_, _, _, _, _, _, _, _, _, _, _, rfl, rfl⟩, h.reps, h.lastCode,
    h.releaseDetected, .inr rfl, h.pointers⟩

theorem Tried.refl (r : IrRemote) : Tried r r :=
  ⟨SameSetup.refl r, rfl, rfl, rfl, .inl rfl, id⟩

theorem tryRemotes_spec (decoded : ℕ → Option Decoded) (i : ℕ) (rs : List IrRemote) :
    (tryRemotes decoded i rs).1.length = rs.length ∧
      ∀ (j : ℕ) r r', rs[j]? = some r → (tryRemotes decoded i rs).1[j]? = some r' → Tried r r' := by
  induction rs generalizing i with
  | nil => exact ⟨rfl, fun j r r' hr => by cases hr⟩
  | cons first rs ih =>
      obtain ⟨hlength, htried⟩ := ih (i + 1)
      have hskip : ∀ first', Tried first first' →
          (first' :: (tryRemotes decoded (i + 1) rs).1).length = (first :: rs).length ∧
            ∀ (j : ℕ) r r', (first :: rs)[j]? = some r →
              (first' :: (tryRemotes decoded (i + 1) rs).1)[j]? = some r' → Tried r r' := by
        intro first' hfirst
        refine ⟨by rw [List.length_cons, hlength, List.length_cons], fun j r r' hr hr' => ?_⟩
        cases j with
        | zero =>
            cases hr
            cases hr'
            exact hfirst
        | succ j => exact htried j r r' hr hr'
      rw [tryRemotes]
      split
      · exact hskip _ (Tried.refl first).reset
      · next x _ =>
          have hfirst := getCode_tried first ⟨x.pre, x.code, x.post⟩
          generalize getCode first ⟨x.pre, x.code, x.post⟩ = got at hfirst
          obtain ⟨_ | ⟨c, state⟩, first'⟩ := got
          · exact hskip _ hfirst.reset
          · refine ⟨rfl, fun j r r' hr hr' => ?_⟩
            cases j with
            | zero =>
                cases hr
                cases hr'
                exact hfirst
            | succ j =>
                have heq : r = r' := Option.some.inj (hr.symm.trans hr')
                rw [heq]
                exact Tried.refl r'

/-- The remotes after the loop. -/
def triedRemotes (decoded : ℕ → Option Decoded) (d : Receiver) : List IrRemote :=
  (tryRemotes decoded 0 d.remotes).1

theorem triedRemotes_same (decoded : ℕ → Option Decoded) (d : Receiver) :
    SameRemotes d.remotes (triedRemotes decoded d) := by
  obtain ⟨hlength, htried⟩ := tryRemotes_spec decoded 0 d.remotes
  exact ⟨hlength, fun a r r' hr hr' => (htried a r r' hr hr').setup⟩

/-- `decode_all`, by the code that is found. -/
theorem decodeAll_eq (decoded : ℕ → Option Decoded) (now : ℕ) (d : Receiver) :
    decodeAll decoded now d =
      match foundFor decoded d with
      | none => (none, { d with remotes := triedRemotes decoded d })
      | some (f, r, code) =>
          let counted := f.count (d.lastDecoded == some f.remote) now r
          let remotes := triedRemotes decoded d
          let remotes := if incomplete counted code then remotes else remotes.map resetCurrents
          let out := reportCode counted f.code
          (out.1.map fun message => (pressedOf r f.remote f.code, message.2),
            { d with remotes := remotes.set f.remote out.2, lastDecoded := some f.remote }) := by
  rw [decodeAll, foundFor, triedRemotes]
  generalize tryRemotes decoded 0 d.remotes = tried
  obtain ⟨remotes, _ | f⟩ := tried
  · rfl
  · cases hr : remotes[f.remote]? with
    | none => simp only [hr, Option.bind_eq_bind, Option.bind_some, Option.bind_none]
    | some r =>
        cases hcode : r.codes[f.code]? with
        | none =>
            have hcounted : (f.count (d.lastDecoded == some f.remote) now r).codes[f.code]? = none := by
              rw [Found.count, setCode, hcode]
              exact hcode
            simp only [hr, hcode, hcounted, Option.bind_eq_bind, Option.bind_some, Option.bind_none]
        | some code =>
            obtain ⟨hcounted, -⟩ := setCode_counted hcode f.state (d.lastDecoded == some f.remote)
              f.decoded now
            have hsetup := (setCode_spec (List.getElem?_eq_some_iff.mp hcode).1 f.state
              (d.lastDecoded == some f.remote) f.decoded.repeatFlag f.decoded.minRemainingGap
              f.decoded.maxRemainingGap now).1
            have hcode' : (f.count (d.lastDecoded == some f.remote) now r).codes[f.code]? =
                some code := by
              rw [Found.count, hcounted.codes]
              exact hcode
            have hword : messageCode (f.count (d.lastDecoded == some f.remote) now r) code =
                messageCode r code :=
              hsetup.field (fun r => messageCode r code) fun _ _ _ _ _ _ _ _ _ _ _ _ => rfl
            have hpressed : pressedOf r f.remote f.code = ⟨f.remote, f.code, messageCode r code⟩ := by
              rw [pressedOf, hcode]
              rfl
            simp only [hr, hcode, hcode', hword, hpressed, Option.bind_eq_bind, Option.bind_some]

/-! ### The code that is found -/

theorem Repeatable.of_tried {d : Receiver} {remotes : List IrRemote} {forgotten : Bool} {a c : ℕ}
    {r r' : IrRemote} (h : Repeatable d forgotten a r c) (htried : Tried r r') :
    Repeatable { d with remotes := remotes } forgotten a r' c := by
  have hmask := htried.setup.field hasToggleMask fun _ _ _ _ _ _ _ _ _ _ _ _ => rfl
  rw [Repeatable, htried.setup.pressedOf, hmask, htried.reps, htried.setup.isSingle]
  refine h.imp id fun hcounters => ?_
  split
  · next hyes =>
      rw [if_pos hyes] at hcounters
      refine ⟨hcounters.1, ?_⟩
      obtain hsame | hreset := htried.toggle
      · rw [hsame]
        exact hcounters.2
      · exact .inl hreset
  · next hno =>
      rw [if_neg hno] at hcounters
      exact hcounters

/-- The loop over the remotes leaves the counters. -/
theorem LastRepeatable.tried {d : Receiver} {forgotten : Bool} (h : LastRepeatable d forgotten)
    (decoded : ℕ → Option Decoded) :
    LastRepeatable { d with remotes := triedRemotes decoded d } forgotten := by
  obtain ⟨hlength, htried⟩ := tryRemotes_spec decoded 0 d.remotes
  intro a r' hlast hr' hreleased c hc
  have ha : a < d.remotes.length := by
    rw [← hlength]
    exact (List.getElem?_eq_some_iff.mp hr').1
  have hr := List.getElem?_eq_getElem ha
  have htry := htried a _ r' hr hr'
  have hbefore := h a _ hlast hr (htry.releaseDetected.symm.trans hreleased) c
    (htry.lastCode.symm.trans hc)
  exact hbefore.of_tried htry

section Frame

variable {decoded : ℕ → Option Decoded} {now : ℕ} {d : Receiver} {forgotten : Bool} {f : Found}
variable {r : IrRemote} {code : IrNcode}

/-- A frame that continues comes from the remote that was decoded last, whose
release has not been detected. -/
theorem of_continues (h : f.continues d r code now = true) :
    d.lastDecoded = some f.remote ∧ r.releaseDetected = false := by
  rw [Found.continues, Lirc.continues, continuesPress] at h
  simp only [Bool.and_eq_true, beq_iff_eq] at h
  obtain ⟨⟨⟨⟨hsame, -⟩, hflag⟩, -⟩, -⟩ := h
  refine ⟨hsame, ?_⟩
  simpa using hflag.2

variable (now d) in
/-- What `set_code` does to the counters of the remote that was found. -/
theorem Found.count_counted (hcode : r.codes[f.code]? = some code) :
    Counted r (f.count (d.lastDecoded == some f.remote) now r)
        (if code.current = [] then some f.code else r.lastCode)
        (if f.continues d r code now then
          if hasToggleMask r then if r.toggleMaskState + 1 = 4 then r.reps + 1 else r.reps
          else if code.current = [] then r.reps + 1 else r.reps
        else if code.next ≠ [] ∧ code.current = [] then 1 else 0) ∧
      (hasToggleMask r = true →
        (f.count (d.lastDecoded == some f.remote) now r).toggleMaskState =
          if f.continues d r code now then
            if r.toggleMaskState + 1 = 4 then 2 else r.toggleMaskState + 1
          else 1) :=
  setCode_counted hcode f.state (d.lastDecoded == some f.remote) f.decoded now

theorem Found.count_setup (hcode : r.codes[f.code]? = some code) :
    SameSetup r (f.count (d.lastDecoded == some f.remote) now r) :=
  (setCode_spec (List.getElem?_eq_some_iff.mp hcode).1 f.state (d.lastDecoded == some f.remote)
    f.decoded.repeatFlag f.decoded.minRemainingGap f.decoded.maxRemainingGap now).1

/-- A frame that ends a button is a press, or the button is pressed. -/
theorem complete_frame (hr : (triedRemotes decoded d)[f.remote]? = some r)
    (hlast : LastRepeatable { d with remotes := triedRemotes decoded d } forgotten)
    (hcode : r.codes[f.code]? = some code) (hmask : hasToggleMask r = true → code.next = [])
    (hkeeps : hasToggleMask r = false → f.continues d r code now = true → forgotten = false)
    (hdone : incomplete (f.count (d.lastDecoded == some f.remote) now r) code = false) :
    let counted := f.count (d.lastDecoded == some f.remote) now r
    counted.lastCode = some f.code ∧
      (reportedReps counted code = some 0 ∨ d.release = some (pressedOf r f.remote f.code)) := by
  intro counted
  obtain ⟨hcounted, htoggle⟩ := Found.count_counted now d hcode
  have hcurrent : code.current = [] := by
    rw [incomplete, Bool.or_eq_false_iff] at hdone
    simpa using hdone.2
  have hcountedLast : counted.lastCode = some f.code := by
    rw [show counted.lastCode = _ from hcounted.lastCode, if_pos hcurrent]
  refine ⟨hcountedLast, ?_⟩
  have hreps : counted.reps = _ := hcounted.reps
  have hsingle : isSingle r f.code = (code.next == []) := isSingle_of_getElem? hcode
  -- what is known of a frame that continues
  have hbefore : f.continues d r code now = true →
      Repeatable { d with remotes := triedRemotes decoded d } forgotten f.remote r f.code := by
    intro hcont
    obtain ⟨hsame, hreleased⟩ := of_continues hcont
    exact hlast f.remote r hsame hr hreleased f.code (lastCode_of_continues hcurrent hcont)
  cases hyes : hasToggleMask r with
  | false =>
      rw [hyes] at hreps
      cases hcont : f.continues d r code now with
      | false =>
          left
          apply reportedReps_zero
          rw [hreps, hcont]
          by_cases hnext : code.next = []
          · simp [hnext]
          · simp [hnext, hcurrent]
      | true =>
          obtain hpressed | hcounters := hbefore hcont
          · exact .inr hpressed
          · rw [hyes, if_neg Bool.false_ne_true] at hcounters
            obtain ⟨hmulti, hzero⟩ | hlost := hcounters
            · left
              apply reportedReps_zero
              have hnext : code.next ≠ [] := by
                rw [hsingle] at hmulti
                exact beq_eq_false_iff_ne.mp hmulti
              rw [hreps, hcont, if_pos rfl, if_neg Bool.false_ne_true, if_pos hcurrent, hzero, if_neg hnext]
              rfl
            · rw [hkeeps hyes hcont] at hlost
              cases hlost
  | true =>
      have hnext := hmask hyes
      have hstate : counted.toggleMaskState = _ := htoggle hyes
      have heven : toggleOdd counted = false := by
        rw [incomplete, show hasToggleMask (f.count (d.lastDecoded == some f.remote) now r) = true from
          hcounted.toggleMask.trans hyes, hcurrent] at hdone
        simpa using hdone
      rw [hyes] at hreps
      cases hcont : f.continues d r code now with
      | false =>
          rw [hcont, if_neg Bool.false_ne_true] at hstate
          rw [toggleOdd, hstate] at heven
          cases heven
      | true =>
          obtain hpressed | hcounters := hbefore hcont
          · exact .inr hpressed
          · rw [hyes, if_pos rfl] at hcounters
            obtain ⟨hzero, h0 | h1⟩ := hcounters
            · rw [hcont, if_pos rfl, h0] at hstate
              rw [toggleOdd, hstate] at heven
              cases heven
            · left
              apply reportedReps_zero
              rw [hreps, hcont, h1, hzero, if_pos hnext]
              rfl

/-- A part of a sequence leaves the next frame a press, or the button pressed. -/
theorem incomplete_part (hr : (triedRemotes decoded d)[f.remote]? = some r)
    (hlast : LastRepeatable { d with remotes := triedRemotes decoded d } forgotten)
    (hno : hasToggleMask r = false) (hcode : r.codes[f.code]? = some code)
    (hcurrent : code.current ≠ []) :
    ∀ c, (f.count (d.lastDecoded == some f.remote) now r).lastCode = some c →
      d.release = some (pressedOf r f.remote c) ∨
        isSingle r c = false ∧ (f.count (d.lastDecoded == some f.remote) now r).reps = 0 ∨
        (if f.continues d r code now then forgotten
        else r.lastCode.any fun c =>
          isSingle r c && d.release != some (pressedOf r f.remote c)) = true := by
  intro c hc
  obtain ⟨hcounted, -⟩ := Found.count_counted now d hcode
  have hlastCode : r.lastCode = some c := by
    rw [← hc, hcounted.lastCode, if_neg hcurrent]
  have hreps := hcounted.reps
  rw [hno, if_neg Bool.false_ne_true, if_neg hcurrent, if_neg fun h : _ ∧ _ => hcurrent h.2] at hreps
  cases hcont : f.continues d r code now with
  | true =>
      obtain ⟨hsame, hreleased⟩ := of_continues hcont
      have hbefore := hlast f.remote r hsame hr hreleased c hlastCode
      rw [Repeatable, hno] at hbefore
      rw [hcont, if_pos rfl] at hreps
      rw [hreps]
      exact hbefore
  | false =>
      rw [hcont, if_neg Bool.false_ne_true] at hreps
      rw [hreps, hlastCode]
      cases hsingle : isSingle r c with
      | false => exact .inr (.inl ⟨rfl, rfl⟩)
      | true =>
          by_cases hpressed : d.release = some (pressedOf r f.remote c)
          · exact .inl hpressed
          · have hne : (d.release != some (pressedOf r f.remote c)) = true := bne_iff_ne.mpr hpressed
            refine .inr (.inr ?_)
            show (isSingle r c && (d.release != some (pressedOf r f.remote c))) = true
            rw [hsingle, hne]
            rfl

/-- The first frame of a remote with a toggle mask leaves the next one a press, or
the button pressed. -/
theorem incomplete_toggle (hr : (triedRemotes decoded d)[f.remote]? = some r)
    (hlast : LastRepeatable { d with remotes := triedRemotes decoded d } forgotten)
    (hyes : hasToggleMask r = true) (hcode : r.codes[f.code]? = some code)
    (hcurrent : code.current = []) (hnext : code.next = [])
    (hodd : toggleOdd (f.count (d.lastDecoded == some f.remote) now r) = true) :
    d.release = some (pressedOf r f.remote f.code) ∨
      (f.count (d.lastDecoded == some f.remote) now r).reps = 0 ∧
        (f.count (d.lastDecoded == some f.remote) now r).toggleMaskState = 1 := by
  obtain ⟨hcounted, htoggle⟩ := Found.count_counted now d hcode
  have hreps := hcounted.reps
  have hstate := htoggle hyes
  rw [hyes, if_pos rfl, if_neg fun h : code.next ≠ [] ∧ _ => h.1 hnext] at hreps
  rw [toggleOdd, hstate] at hodd
  rw [hreps, hstate]
  cases hcont : f.continues d r code now with
  | false => exact .inr ⟨rfl, rfl⟩
  | true =>
      rw [hcont] at hodd
      obtain ⟨hsame, hreleased⟩ := of_continues hcont
      obtain hpressed | hcounters := hlast f.remote r hsame hr hreleased f.code
        (lastCode_of_continues hcurrent hcont)
      · exact .inl hpressed
      · rw [hyes, if_pos rfl] at hcounters
        obtain ⟨hzero, h0 | h1⟩ := hcounters
        · rw [h0, hzero]
          exact .inr ⟨rfl, rfl⟩
        · rw [h1] at hodd
          cases hodd

/-- A frame that ends no button leaves the next one a press, or the button pressed. -/
theorem incomplete_frame (hr : (triedRemotes decoded d)[f.remote]? = some r)
    (hlast : LastRepeatable { d with remotes := triedRemotes decoded d } forgotten)
    (hpointers : NoStrayPointers r) (hcode : r.codes[f.code]? = some code)
    (hmask : hasToggleMask r = true → code.next = [])
    (hpart : incomplete (f.count (d.lastDecoded == some f.remote) now r) code = true) :
    let counted := f.count (d.lastDecoded == some f.remote) now r
    ∀ c, counted.lastCode = some c →
      Repeatable d
        (if f.continues d r code now then forgotten
        else r.lastCode.any fun c => isSingle r c && d.release != some (pressedOf r f.remote c))
        f.remote counted c := by
  intro counted c hc
  obtain ⟨hcounted, -⟩ := Found.count_counted now d hcode
  have hsetup : SameSetup r counted := Found.count_setup hcode
  have hmaskEq : hasToggleMask counted = hasToggleMask r := hcounted.toggleMask
  have hcountedLast : counted.lastCode = _ := hcounted.lastCode
  rw [incomplete, show hasToggleMask (f.count (d.lastDecoded == some f.remote) now r) = _ from
    hmaskEq] at hpart
  rw [Repeatable, hsetup.pressedOf, hmaskEq, hsetup.isSingle]
  cases hyes : hasToggleMask r with
  | false =>
      rw [hyes] at hpart
      rw [if_neg Bool.false_ne_true]
      exact incomplete_part hr hlast hyes hcode (bne_iff_ne.mp hpart) c hc
  | true =>
      have hnext := hmask hyes
      have hcurrent := hpointers code (List.mem_of_getElem? hcode) hnext
      rw [if_pos hcurrent] at hcountedLast
      have heq : f.code = c := Option.some.inj (hcountedLast.symm.trans hc)
      rw [hyes, hcurrent, Bool.true_and, bne_self_eq_false, Bool.or_false] at hpart
      rw [if_pos rfl, ← heq]
      exact (incomplete_toggle hr hlast hyes hcode hcurrent hnext hpart).imp id
        fun h => ⟨h.1, .inr h.2⟩

end Frame

/-! ### `decode_all` -/

theorem SameRemotes.set {rs rs' : List IrRemote} {a : ℕ} {r r' : IrRemote} (h : SameRemotes rs rs')
    (hr : rs[a]? = some r) (hsame : SameSetup r r') : SameRemotes rs (rs'.set a r') := by
  refine ⟨by rw [List.length_set, h.1], fun b first second hfirst hsecond => ?_⟩
  by_cases hb : a = b
  · subst hb
    have hlength : a < rs'.length := by
      rw [← List.length_set]
      exact (List.getElem?_eq_some_iff.mp hsecond).1
    rw [List.getElem?_set_self hlength] at hsecond
    have heq : first = r := Option.some.inj (hfirst.symm.trans hr)
    rw [heq, ← Option.some.inj hsecond]
    exact hsame
  · rw [List.getElem?_set_ne hb] at hsecond
    exact h.2 b first second hfirst hsecond

theorem resetCurrents_spec (r : IrRemote) :
    SameSetup r (resetCurrents r) ∧ NoStrayPointers (resetCurrents r) := by
  constructor
  · refine ⟨_, _, _, _, _, _, _, _, _, _, _, rfl, ?_⟩
    rw [List.map_map]
    rfl
  · intro code hcode _
    obtain ⟨code', -, rfl⟩ := List.mem_map.mp hcode
    rfl

theorem SameRemotes.resetCurrents {rs rs' : List IrRemote} (h : SameRemotes rs rs') :
    SameRemotes rs (rs'.map resetCurrents) := by
  refine ⟨by rw [List.length_map, h.1], fun a r r'' hr hr'' => ?_⟩
  rw [List.getElem?_map] at hr''
  obtain ⟨r', hr', rfl⟩ := Option.map_eq_some_iff.mp hr''
  exact (h.2 a r r' hr hr').trans (resetCurrents_spec r').1

theorem triedRemotes_noStrayPointers {d : Receiver} (decoded : ℕ → Option Decoded)
    (hpointers : ∀ r ∈ d.remotes, NoStrayPointers r) :
    ∀ r ∈ triedRemotes decoded d, NoStrayPointers r := by
  obtain ⟨hlength, htried⟩ := tryRemotes_spec decoded 0 d.remotes
  intro r' hmem
  obtain ⟨a, hr'⟩ := List.mem_iff_getElem?.mp hmem
  have ha : a < d.remotes.length := by
    rw [← hlength]
    exact (List.getElem?_eq_some_iff.mp hr').1
  exact (htried a _ r' (List.getElem?_eq_getElem ha) hr').pointers
    (hpointers _ (List.getElem_mem ha))

section DecodeAll

variable {decoded : ℕ → Option Decoded} {now : ℕ} {d : Receiver} {f : Found} {r : IrRemote}
variable {code : IrNcode}

theorem of_foundFor (h : foundFor decoded d = some (f, r, code)) :
    (triedRemotes decoded d)[f.remote]? = some r ∧ r.codes[f.code]? = some code := by
  simp only [foundFor, Option.bind_eq_bind, Option.bind_eq_some_iff, Option.some.injEq,
    Prod.mk.injEq] at h
  obtain ⟨f', -, r', hr, code', hcode, rfl, rfl, rfl⟩ := h
  exact ⟨hr, hcode⟩

variable (now d) in
/-- The remote after the frame. -/
theorem reported_same (hcode : r.codes[f.code]? = some code) (hpointers : NoStrayPointers r) :
    let counted := f.count (d.lastDecoded == some f.remote) now r
    SameSetup r (reportCode counted f.code).2 ∧ NoStrayPointers (reportCode counted f.code).2 := by
  intro counted
  refine ⟨(Found.count_setup hcode).trans (reportCode_spec counted f.code).1,
    (reportCode_sameCounters counted f.code).2 ?_⟩
  intro code' hmem
  rw [(Found.count_counted now d hcode).1.codes] at hmem
  exact hpointers code' hmem

/-- A frame changes what the receiver knows of the remotes only. -/
theorem decodeAll_rest (decoded : ℕ → Option Decoded) (now : ℕ) (d : Receiver) :
    (decodeAll decoded now d).2.release = d.release ∧
      (decodeAll decoded now d).2.release2 = d.release2 ∧
      (decodeAll decoded now d).2.broadcast = d.broadcast := by
  rw [decodeAll_eq]
  split
  · exact ⟨rfl, rfl, rfl⟩
  · exact ⟨rfl, rfl, rfl⟩

theorem decodeAll_remotes (decoded : ℕ → Option Decoded) (now : ℕ)
    (hpointers : ∀ r ∈ d.remotes, NoStrayPointers r) :
    SameRemotes d.remotes (decodeAll decoded now d).2.remotes ∧
      ∀ r ∈ (decodeAll decoded now d).2.remotes, NoStrayPointers r := by
  have hsame := triedRemotes_same decoded d
  have htried := triedRemotes_noStrayPointers decoded hpointers
  rw [decodeAll_eq]
  split
  · exact ⟨hsame, htried⟩
  · next f r code hfound =>
      obtain ⟨hr, hcode⟩ := of_foundFor hfound
      obtain ⟨hreported, hstray⟩ := reported_same now d hcode
        (htried r (List.mem_of_getElem? hr))
      have ha : f.remote < d.remotes.length := by
        rw [← hsame.1]
        exact (List.getElem?_eq_some_iff.mp hr).1
      have hfirst := List.getElem?_eq_getElem ha
      have hsetup := (hsame.2 f.remote _ r hfirst hr).trans hreported
      constructor
      · show SameRemotes d.remotes (List.set _ f.remote _)
        split
        · exact hsame.set hfirst hsetup
        · exact hsame.resetCurrents.set hfirst hsetup
      · intro r' hmem
        obtain hother | rfl := List.mem_or_eq_of_mem_set hmem
        · split at hother
          · exact htried r' hother
          · obtain ⟨r₀, -, rfl⟩ := List.mem_map.mp hother
            exact (resetCurrents_spec r₀).2
        · exact hstray

/-- The counters of the remote that was found, after the frame. -/
theorem decodeAll_lastRepeatable {d' : Receiver} {forgotten : Bool} {remotes : List IrRemote}
    {counted : IrRemote} (hremotes : d'.remotes = remotes.set f.remote counted)
    (hlast : d'.lastDecoded = some f.remote)
    (h : ∀ c, counted.lastCode = some c → Repeatable d' forgotten f.remote counted c) :
    LastRepeatable d' forgotten := by
  intro a r' ha hr' _ c hc
  have heq : f.remote = a := Option.some.inj (hlast.symm.trans ha)
  rw [hremotes, ← heq] at hr'
  have hlength : f.remote < remotes.length := by
    rw [← List.length_set]
    exact (List.getElem?_eq_some_iff.mp hr').1
  rw [List.getElem?_set_self hlength] at hr'
  rw [← Option.some.inj hr'] at hc ⊢
  rw [← heq]
  exact h c hc

/-- A frame that ends no button has no message. -/
theorem reportCode_incomplete {counted : IrRemote} {c : ℕ} (hcode : counted.codes[c]? = some code)
    (h : incomplete counted code = true) : reportCode counted c = (none, counted) := by
  rw [reportCode, hcode]
  exact if_pos h

/-- The message about a frame that ends a button. -/
theorem reportCode_complete {counted : IrRemote} {c : ℕ} (hcode : counted.codes[c]? = some code)
    (h : incomplete counted code = false) :
    (reportCode counted c).1 = (reportedReps counted code).map (c, ·) := by
  rw [reportCode, hcode]
  exact congrArg Prod.fst (if_neg (Bool.eq_false_iff.mp h))

section Keeps

variable {suffix : Name} {s : Receiving}

/-- The next frame repeats a button that is pressed. -/
theorem repeatable_of_pressed {d' : Receiver} {forgotten : Bool} {remotes : List IrRemote}
    (hcode : r.codes[f.code]? = some code) (hpointers : NoStrayPointers r)
    (hlast : (f.count (d.lastDecoded == some f.remote) now r).lastCode = some f.code)
    (hremotes : d'.remotes =
      remotes.set f.remote (reportCode (f.count (d.lastDecoded == some f.remote) now r) f.code).2)
    (hdecoded : d'.lastDecoded = some f.remote)
    (hpressed : d'.release = some (pressedOf r f.remote f.code)) : LastRepeatable d' forgotten := by
  obtain ⟨hreported, -⟩ := reported_same now d hcode hpointers
  apply decodeAll_lastRepeatable hremotes hdecoded
  intro c hc
  have hkept := (reportCode_sameCounters (f.count (d.lastDecoded == some f.remote) now r) f.code).1.lastCode
  have heq : f.code = c := Option.some.inj (hlast.symm.trans (hkept.symm.trans hc))
  rw [← heq, Repeatable, hreported.pressedOf]
  exact .inl hpressed

/-- After a frame without a message the next one is a press, or the button is
pressed. -/
theorem decodeAll_silent (hinv : PairsInv suffix s) (hkeeps : KeepsPairs suffix s (.frame decoded now))
    (hnone : (decodeAll decoded now s.receiver).1 = none) :
    LastRepeatable (decodeAll decoded now s.receiver).2 (forgottenAfter decoded now s) := by
  have hbefore := hinv.counters.tried decoded
  rw [decodeAll_eq] at hnone ⊢
  rw [forgottenAfter]
  cases hfound : foundFor decoded s.receiver with
  | none => exact hbefore
  | some found =>
      obtain ⟨f, r, code⟩ := found
      rw [hfound] at hnone
      obtain ⟨hr, hcode⟩ := of_foundFor hfound
      obtain ⟨hmask, hends⟩ := hkeeps _ hfound
      have hpointers := triedRemotes_noStrayPointers decoded hinv.pointers r (List.mem_of_getElem? hr)
      have hcounted := (Found.count_counted now s.receiver hcode).1.codes
      rw [← hcounted] at hcode
      cases hdone : incomplete (f.count (s.receiver.lastDecoded == some f.remote) now r) code with
      | true =>
          have hpart := incomplete_frame hr hbefore hpointers (hcounted ▸ hcode) hmask hdone
          have hreport := congrArg Prod.snd (reportCode_incomplete hcode hdone)
          refine decodeAll_lastRepeatable rfl rfl ?_
          simp only [hreport, hdone, if_true]
          exact hpart
      | false =>
          obtain ⟨hlast, hzero | hpressed⟩ := complete_frame hr hbefore (hcounted ▸ hcode) hmask
            (hends hdone).2 hdone
          · simp only [reportCode_complete hcode hdone, hzero, Option.map_some] at hnone
            cases hnone
          · exact repeatable_of_pressed (hcounted ▸ hcode) hpointers hlast rfl rfl hpressed

/-- A message is about a press, or about a button that is pressed. -/
theorem decodeAll_message (hinv : PairsInv suffix s)
    (hkeeps : KeepsPairs suffix s (.frame decoded now)) {p : Pressed} {reps : ℤ}
    (hsome : (decodeAll decoded now s.receiver).1 = some (p, reps)) :
    (reps = 0 ∨ s.receiver.release = some p) ∧ MayPress suffix s.receiver p ∧
      ∀ d' : Receiver, d'.remotes = (decodeAll decoded now s.receiver).2.remotes →
        d'.lastDecoded = (decodeAll decoded now s.receiver).2.lastDecoded → d'.release = some p →
          LastRepeatable d' (forgottenAfter decoded now s) := by
  have hbefore := hinv.counters.tried decoded
  rw [decodeAll_eq] at hsome ⊢
  cases hfound : foundFor decoded s.receiver with
  | none =>
      rw [hfound] at hsome
      cases hsome
  | some found =>
      obtain ⟨f, r, code⟩ := found
      rw [hfound] at hsome
      obtain ⟨hr, hcode⟩ := of_foundFor hfound
      obtain ⟨hmask, hends⟩ := hkeeps _ hfound
      have hpointers := triedRemotes_noStrayPointers decoded hinv.pointers r (List.mem_of_getElem? hr)
      have hcounted := (Found.count_counted now s.receiver hcode).1.codes
      rw [← hcounted] at hcode
      cases hdone : incomplete (f.count (s.receiver.lastDecoded == some f.remote) now r) code with
      | true =>
          simp only [reportCode_incomplete hcode hdone, Option.map_none] at hsome
          cases hsome
      | false =>
          simp only [reportCode_complete hcode hdone, Option.map_map, Option.map_eq_some_iff,
            Function.comp_apply, Prod.mk.injEq] at hsome
          obtain ⟨reps', hreps, rfl, rfl⟩ := hsome
          obtain ⟨hlast, hpress⟩ := complete_frame hr hbefore (hcounted ▸ hcode) hmask
            (hends hdone).2 hdone
          refine ⟨hpress.imp (fun hzero => ?_) id, (hends hdone).1, fun d' hremotes hdecoded h => ?_⟩
          · exact Option.some.inj (hreps.symm.trans hzero)
          · exact repeatable_of_pressed (hcounted ▸ hcode) hpointers hlast hremotes hdecoded h

end Keeps

end DecodeAll

/-! ### The messages of one event -/

section Messages

variable {suffix : Name} {d : Receiver}

theorem slotButton_fits {p : Pressed} (h : (d.releaseMessage p).fits suffix = true) :
    slotButton suffix d (some p) = some (d.releaseMessage p).held := by
  rw [slotButton, Option.bind_some, if_pos h]

theorem slotButton_unfit {slot : Option Pressed}
    (h : ∀ q ∈ slot, (d.releaseMessage q).fits suffix = false) : slotButton suffix d slot = none := by
  cases slot with
  | none => rfl
  | some q =>
      have hunfit := h q (Option.mem_some_self q)
      rw [slotButton, Option.bind_some, hunfit, if_neg Bool.false_ne_true]

theorem pendingButton_none (h : d.release = none) : pendingButton suffix d = none := by
  rw [pendingButton, h, slotButton, Option.bind_none]

theorem pendingButton_some {p : Pressed} (h : d.release = some p) :
    pendingButton suffix d =
      if (d.releaseMessage p).fits suffix then some (d.releaseMessage p).held else none := by
  rw [pendingButton, h, slotButton, Option.bind_some]

theorem SameNames.slotButton {d d' : Receiver} (h : SameNames d d') (slot : Option Pressed) :
    slotButton suffix d' slot = Lirc.slotButton suffix d slot := by
  have hmessages : d'.releaseMessage = d.releaseMessage := funext h.releaseMessage
  rw [Lirc.slotButton, Lirc.slotButton, hmessages]

/-- The messages that have been broadcast are paired, and this button is held. -/
def HoldsButton (d : Receiver) (held : Option HeldButton) : Prop :=
  PressesPaired none d.broadcast ∧ d.broadcast.foldl heldAfter none = held

theorem HoldsButton.send {held : Option HeldButton} (h : HoldsButton d held) {m : Message}
    (hm : MayBroadcast held m) : HoldsButton (d.send m) (heldAfter held m) := by
  obtain ⟨hpaired, hheld⟩ := h
  constructor
  · show PressesPaired none (d.broadcast ++ [m])
    rw [pressesPaired_append, hheld]
    exact ⟨hpaired, hm, trivial⟩
  · show (d.broadcast ++ [m]).foldl heldAfter none = _
    rw [List.foldl_append, hheld]
    rfl

/-- A release of the button that is held leaves none held. -/
theorem HoldsButton.send_release {p : Pressed} (h : HoldsButton d (some (d.releaseMessage p).held)) :
    HoldsButton (d.send (d.releaseMessage p)) none :=
  h.send rfl

theorem checkReleaseEvent_none (h : d.release2 = none) : checkReleaseEvent suffix d = d := by
  rw [checkReleaseEvent, h]

theorem checkReleaseEvent_some {p : Pressed} (h : d.release2 = some p) :
    checkReleaseEvent suffix d =
      if (d.releaseMessage p).fits suffix then
        Receiver.send { d with release2 := none } (d.releaseMessage p)
      else { d with release2 := none } := by
  rw [checkReleaseEvent, h]
  rfl

/-- The second slot is emptied, and its release broadcast. -/
theorem checkReleaseEvent_holds (h : HoldsButton d (slotButton suffix d d.release2)) :
    HoldsButton (checkReleaseEvent suffix d) none := by
  cases hslot : d.release2 with
  | none =>
      rw [checkReleaseEvent_none hslot]
      rw [hslot] at h
      exact h
  | some p =>
      rw [checkReleaseEvent_some hslot]
      rw [hslot] at h
      split
      · next hfits =>
          rw [slotButton_fits hfits] at h
          exact HoldsButton.send_release (d := { d with release2 := none }) h
      · next hunfit =>
          rw [slotButton, Option.bind_some, if_neg hunfit] at h
          exact h

theorem checkReleaseEvent_rest (suffix : Name) (d : Receiver) :
    (checkReleaseEvent suffix d).remotes = d.remotes ∧
      (checkReleaseEvent suffix d).lastDecoded = d.lastDecoded ∧
      (checkReleaseEvent suffix d).release = d.release ∧
      (checkReleaseEvent suffix d).release2 = none := by
  cases hslot : d.release2 with
  | none =>
      rw [checkReleaseEvent_none hslot]
      exact ⟨rfl, rfl, rfl, hslot⟩
  | some p =>
      rw [checkReleaseEvent_some hslot]
      split
      · exact ⟨rfl, rfl, rfl, rfl⟩
      · exact ⟨rfl, rfl, rfl, rfl⟩

/-- A second slot without a release that fits is emptied. -/
theorem checkReleaseEvent_quiet (h : NoSecondRelease suffix d) :
    (checkReleaseEvent suffix d).broadcast = d.broadcast := by
  cases hslot : d.release2 with
  | none => rw [checkReleaseEvent_none hslot]
  | some p => rw [checkReleaseEvent_some hslot, if_neg (Bool.eq_false_iff.mp (h p hslot))]

theorem sameNames_of_remotes {d d' : Receiver} (h : d'.remotes = d.remotes) : SameNames d d' := by
  intro a c
  rw [Receiver.remoteName, Receiver.remoteName, Receiver.buttonName, Receiver.buttonName, h]
  exact ⟨rfl, rfl⟩

theorem noSecondRelease_of_none (h : d.release2 = none) : NoSecondRelease suffix d := by
  intro q hq
  rw [h] at hq
  cases hq

/-- A message of `decode_all` is registered, and goes to `input_message` if it fits. -/
def sendPress (suffix : Name) (p : Pressed) (reps : ℤ) (d : Receiver) : Receiver :=
  if ((registerButtonPress p reps d).pressMessage p reps).fits suffix then
    inputMessage suffix ((registerButtonPress p reps d).pressMessage p reps)
      (registerButtonPress p reps d)
  else registerButtonPress p reps d

/-- The first frame of a button: the release that was pending goes before the press. -/
theorem press_holds {p : Pressed} (hsecond : NoSecondRelease suffix d)
    (h : HoldsButton d (pendingButton suffix d)) (hmay : MayPress suffix d p) :
    HoldsButton (sendPress suffix p 0 d) (pendingButton suffix (sendPress suffix p 0 d)) ∧
      NoSecondRelease suffix (sendPress suffix p 0 d) := by
  generalize hsend : sendPress suffix p 0 d = d''
  rw [sendPress] at hsend
  generalize hd' : registerButtonPress p 0 d = d' at hsend
  have hregistered : d'.remotes = d.remotes ∧ d'.release = some p ∧ d'.broadcast = d.broadcast := by
    rw [← hd']
    exact ⟨rfl, rfl, rfl⟩
  obtain ⟨hremotes', hrelease', hbroadcast'⟩ := hregistered
  have hnames : SameNames d d' := sameNames_of_remotes hremotes'
  have hslot : slotButton suffix d' d'.release2 = pendingButton suffix d := by
    cases hrelease : d.release with
    | none =>
        have hempty : d'.release2 = d.release2 := by
          simp [← hd', registerButtonPress, hrelease]
        rw [hempty, pendingButton, hrelease, hnames.slotButton]
        exact slotButton_unfit hsecond
    | some q =>
        have hmoved : d'.release2 = some q := by
          simp [← hd', registerButtonPress, hrelease]
        rw [hmoved, pendingButton, hrelease]
        exact hnames.slotButton (some q)
  obtain hfits | ⟨hunfit, hpending⟩ := hmay
  · -- the release that was pending is broadcast, and the press
    have hpress : (d'.pressMessage p 0).fits suffix = true := by
      apply press_fits_of_release
      rw [hnames.releaseMessage]
      exact hfits
    have hsent : d'' = (checkReleaseEvent suffix d').send (d'.pressMessage p 0) := by
      rw [← hsend, if_pos hpress, inputMessage]
    obtain ⟨hremotes, -, hrelease, hrelease2⟩ := checkReleaseEvent_rest suffix d'
    have hbefore : HoldsButton d' (slotButton suffix d' d'.release2) := by
      rw [hslot, HoldsButton, hbroadcast']
      exact h
    have hafter := (checkReleaseEvent_holds hbefore).send (m := d'.pressMessage p 0) rfl
    have hnames' : SameNames d d'' := by
      rw [hsent]
      exact hnames.trans (sameNames_of_remotes hremotes)
    constructor
    · have hslot' : pendingButton suffix d'' = some (d'.pressMessage p 0).held := by
        have hpressed : d''.release = some p := by
          rw [hsent]
          exact hrelease.trans hrelease'
        have hheld : (d'.pressMessage p 0).held = (d.releaseMessage p).held := by
          rw [hnames.pressMessage]
          rfl
        rw [pendingButton, hnames'.slotButton, hpressed, slotButton_fits hfits, hheld]
      rw [hslot', hsent]
      exact hafter
    · apply noSecondRelease_of_none
      rw [hsent]
      exact hrelease2
  · -- neither message fits, and nothing was pending
    have hpress : ¬(d'.pressMessage p 0).fits suffix = true := by
      rw [hnames.pressMessage, hunfit]
      exact Bool.false_ne_true
    have hsilent : d'' = d' := by rw [← hsend, if_neg hpress]
    have hnone : pendingButton suffix d = none := slotButton_unfit hpending
    rw [hnone] at h hslot
    rw [hsilent]
    constructor
    · have hrelease : pendingButton suffix d' = none := by
        apply slotButton_unfit
        intro q hq
        have heq : p = q := Option.some.inj (hrelease'.symm.trans hq)
        rw [← heq]
        exact Bool.eq_false_iff.mpr fun hfits => hpress (press_fits_of_release hfits)
      rw [hrelease, HoldsButton, hbroadcast']
      exact h
    · intro q hq
      rw [hq] at hslot
      refine Bool.eq_false_iff.mpr fun hfits => ?_
      rw [slotButton_fits hfits] at hslot
      cases hslot

/-- A repeat: the button is pressed. -/
theorem repeat_holds {p : Pressed} {reps : ℤ} (hreps : reps ≠ 0)
    (hsecond : NoSecondRelease suffix d) (h : HoldsButton d (pendingButton suffix d))
    (hmay : MayPress suffix d p) (hpressed : d.release = some p) :
    HoldsButton (sendPress suffix p reps d) (pendingButton suffix (sendPress suffix p reps d)) ∧
      NoSecondRelease suffix (sendPress suffix p reps d) := by
  have hsame : registerButtonPress p reps d = d := by
    rw [registerButtonPress, if_neg fun h => hreps h.1, ← hpressed]
  rw [sendPress, hsame]
  split
  · next hfits =>
      have hrelease : (d.releaseMessage p).fits suffix = true := by
        obtain hfits' | ⟨hunfit, -⟩ := hmay
        · exact hfits'
        · rw [press_fits_of_repeat hfits] at hunfit
          cases hunfit
      have hheld : pendingButton suffix d = some (d.releaseMessage p).held := by
        rw [pendingButton, hpressed, slotButton_fits hrelease]
      rw [hheld] at h
      obtain ⟨hremotes, -, hrelease', hrelease2⟩ := checkReleaseEvent_rest suffix d
      have hquiet : HoldsButton (checkReleaseEvent suffix d) (some (d.releaseMessage p).held) := by
        rw [HoldsButton, checkReleaseEvent_quiet hsecond]
        exact h
      have hmay' : MayBroadcast (some (d.releaseMessage p).held) (d.pressMessage p reps) := by
        rw [MayBroadcast, if_neg (show ¬(d.pressMessage p reps).release = true from
          Bool.false_ne_true), if_neg (show ¬(d.pressMessage p reps).reps = 0 from hreps)]
        exact ⟨p.code, rfl⟩
      have hkept : heldAfter (some (d.releaseMessage p).held) (d.pressMessage p reps) =
          some (d.releaseMessage p).held := by
        rw [heldAfter, if_neg (show ¬(d.pressMessage p reps).release = true from
          Bool.false_ne_true), if_neg (show ¬(d.pressMessage p reps).reps = 0 from hreps)]
      have hafter := hquiet.send hmay'
      rw [hkept] at hafter
      constructor
      · have hslot : pendingButton suffix (inputMessage suffix (d.pressMessage p reps) d) =
            some (d.releaseMessage p).held := by
          have hnames : SameNames d (inputMessage suffix (d.pressMessage p reps) d) :=
            sameNames_of_remotes hremotes
          rw [← hheld, pendingButton, hnames.slotButton, pendingButton]
          exact congrArg (slotButton suffix d) hrelease'
        rw [hslot]
        exact hafter
      · exact noSecondRelease_of_none hrelease2
  · exact ⟨h, hsecond⟩

/-- A press or a repeat. -/
theorem message_holds {p : Pressed} {reps : ℤ} (hsecond : NoSecondRelease suffix d)
    (h : HoldsButton d (pendingButton suffix d)) (hmay : MayPress suffix d p)
    (hpress : reps = 0 ∨ d.release = some p) :
    HoldsButton (sendPress suffix p reps d) (pendingButton suffix (sendPress suffix p reps d)) ∧
      NoSecondRelease suffix (sendPress suffix p reps d) := by
  by_cases hreps : reps = 0
  · subst hreps
    exact press_holds hsecond h hmay
  · exact repeat_holds hreps hsecond h hmay (hpress.resolve_left hreps)

/-- The release is detected; the names stay. -/
theorem detectRelease_spec (a : ℕ) (remotes : List IrRemote) :
    SameRemotes remotes (detectRelease a remotes) ∧
      (∀ (b : ℕ) r', (detectRelease a remotes)[b]? = some r' →
        if b = a then r'.releaseDetected = true else remotes[b]? = some r') ∧
      ((∀ r ∈ remotes, NoStrayPointers r) → ∀ r ∈ detectRelease a remotes, NoStrayPointers r) := by
  have hget : ∀ (b : ℕ) r', (detectRelease a remotes)[b]? = some r' → ∃ r, remotes[b]? = some r ∧
      (if a = b then { r with releaseDetected := true } else r) = r' := by
    intro b r' hr'
    rw [detectRelease, List.getElem?_modify] at hr'
    exact Option.map_eq_some_iff.mp hr'
  refine ⟨⟨List.length_modify .., fun b r r' hr hr' => ?_⟩, fun b r' hr' => ?_,
    fun hpointers r' hmem => ?_⟩
  · obtain ⟨r₀, hr₀, rfl⟩ := hget b r' hr'
    rw [Option.some.inj (hr.symm.trans hr₀)]
    split
    · exact ⟨_, _, _, _, _, _, _, _, _, _, _, rfl, rfl⟩
    · exact SameSetup.refl r₀
  · obtain ⟨r, hr, rfl⟩ := hget b r' hr'
    split
    · next heq => rw [if_pos heq.symm]
    · next hne =>
        rw [if_neg (Ne.symm hne)]
        exact hr
  · obtain ⟨b, hr'⟩ := List.mem_iff_getElem?.mp hmem
    obtain ⟨r, hr, rfl⟩ := hget b r' hr'
    have hbefore := hpointers r (List.mem_of_getElem? hr)
    split
    · exact hbefore
    · exact hbefore

theorem triggerReleaseEvent_none (h : d.release = none) : triggerReleaseEvent suffix d = d := by
  rw [triggerReleaseEvent, h]

theorem triggerReleaseEvent_some {p : Pressed} (h : d.release = some p) :
    triggerReleaseEvent suffix d =
      if (d.releaseMessage p).fits suffix then
        inputMessage suffix (d.releaseMessage p)
          { d with remotes := detectRelease p.remote d.remotes, release := none }
      else { d with remotes := detectRelease p.remote d.remotes, release := none } := by
  rw [triggerReleaseEvent, h]

/-- What is left when the release has been triggered. -/
theorem triggerReleaseEvent_rest (suffix : Name) (d : Receiver) :
    (triggerReleaseEvent suffix d).remotes =
        d.release.elim d.remotes (fun p => detectRelease p.remote d.remotes) ∧
      (triggerReleaseEvent suffix d).lastDecoded = d.lastDecoded ∧
      (triggerReleaseEvent suffix d).release = none ∧
      ((triggerReleaseEvent suffix d).release2 = d.release2 ∨
        (triggerReleaseEvent suffix d).release2 = none) := by
  cases hrelease : d.release with
  | none =>
      rw [triggerReleaseEvent_none hrelease]
      exact ⟨rfl, rfl, hrelease, .inl rfl⟩
  | some p =>
      rw [triggerReleaseEvent_some hrelease]
      split
      · obtain ⟨hremotes, hlast, hnone, hrelease2⟩ := checkReleaseEvent_rest suffix
          { d with remotes := detectRelease p.remote d.remotes, release := none }
        exact ⟨hremotes, hlast, hnone, .inr hrelease2⟩
      · exact ⟨rfl, rfl, rfl, .inl rfl⟩

/-- `release_time` has come, or the button is gone: its release is broadcast. -/
theorem triggerReleaseEvent_holds (hsecond : NoSecondRelease suffix d)
    (h : HoldsButton d (pendingButton suffix d)) : HoldsButton (triggerReleaseEvent suffix d) none := by
  cases hrelease : d.release with
  | none =>
      rw [triggerReleaseEvent_none hrelease]
      rw [pendingButton, hrelease] at h
      exact h
  | some p =>
      have hnames : SameNames d
          { d with remotes := detectRelease p.remote d.remotes, release := none } :=
        (detectRelease_spec p.remote d.remotes).1.sameNames
      rw [triggerReleaseEvent_some hrelease]
      rw [pendingButton, hrelease] at h
      split
      · next hfits =>
          rw [slotButton_fits hfits] at h
          have hquiet : HoldsButton (checkReleaseEvent suffix
              { d with remotes := detectRelease p.remote d.remotes, release := none })
              (some (d.releaseMessage p).held) := by
            rw [HoldsButton, checkReleaseEvent_quiet]
            · exact h
            · intro q hq
              rw [hnames.releaseMessage]
              exact hsecond q hq
          exact hquiet.send rfl
      · next hunfit =>
          rw [slotButton, Option.bind_some, if_neg hunfit] at h
          exact h

end Messages

/-! ### The steps -/

section Steps

variable {suffix : Name} {s : Receiving}

theorem PairsInv.holds (hinv : PairsInv suffix s) :
    HoldsButton s.receiver (pendingButton suffix s.receiver) := ⟨hinv.paired, hinv.held⟩

/-- What the receiver knows of the buttons is not changed by a press. -/
theorem sendPress_rest (suffix : Name) (p : Pressed) (reps : ℤ) (d : Receiver) :
    (sendPress suffix p reps d).remotes = d.remotes ∧
      (sendPress suffix p reps d).lastDecoded = d.lastDecoded ∧
      (sendPress suffix p reps d).release = some p := by
  obtain ⟨hremotes, hlast, hrelease, -⟩ :=
    checkReleaseEvent_rest suffix (registerButtonPress p reps d)
  rw [sendPress]
  split
  · exact ⟨hremotes, hlast, hrelease⟩
  · exact ⟨rfl, rfl, rfl⟩

theorem frame_pairs {decoded : ℕ → Option Decoded} {now : ℕ} (hinv : PairsInv suffix s)
    (h : KeepsPairs suffix s (.frame decoded now)) :
    PairsInv suffix (receiverStep suffix s (.frame decoded now)) := by
  obtain ⟨hrelease, hrelease2, hbroadcast⟩ := decodeAll_rest decoded now s.receiver
  obtain ⟨hremotes, hpointers⟩ := decodeAll_remotes decoded now hinv.pointers
  have hnames : SameNames s.receiver (decodeAll decoded now s.receiver).2 := hremotes.sameNames
  have hpending : pendingButton suffix (decodeAll decoded now s.receiver).2 =
      pendingButton suffix s.receiver := by
    rw [pendingButton, hnames.slotButton, hrelease, pendingButton]
  have hsecond : NoSecondRelease suffix (decodeAll decoded now s.receiver).2 := by
    intro q hq
    rw [hrelease2] at hq
    rw [hnames.releaseMessage]
    exact hinv.second q hq
  have hholds : HoldsButton (decodeAll decoded now s.receiver).2
      (pendingButton suffix (decodeAll decoded now s.receiver).2) := by
    rw [hpending, HoldsButton, hbroadcast]
    exact hinv.holds
  cases hout : (decodeAll decoded now s.receiver).1 with
  | none =>
      have hstep : receiveFrame suffix decoded now s.receiver = (decodeAll decoded now s.receiver).2 := by
        rw [receiveFrame, ← Prod.eta (decodeAll decoded now s.receiver), hout]
      rw [receiverStep, hstep]
      exact ⟨hpointers, hsecond, decodeAll_silent hinv h hout, hholds.1, hholds.2⟩
  | some message =>
      obtain ⟨p, reps⟩ := message
      obtain ⟨hpress, hmay, hlater⟩ := decodeAll_message hinv h hout
      have hstep : receiveFrame suffix decoded now s.receiver =
          sendPress suffix p reps (decodeAll decoded now s.receiver).2 := by
        rw [receiveFrame, ← Prod.eta (decodeAll decoded now s.receiver), hout, sendPress]
      have hmay' : MayPress suffix (decodeAll decoded now s.receiver).2 p := by
        rw [MayPress, hnames.releaseMessage, hnames.pressMessage, hrelease]
        refine hmay.imp id fun hright => ⟨hright.1, fun q hq => ?_⟩
        rw [hnames.releaseMessage]
        exact hright.2 q hq
      rw [← hrelease] at hpress
      obtain ⟨hafter, hsecond'⟩ := message_holds hsecond hholds hmay' hpress
      obtain ⟨hkept, hlast, hpressed⟩ := sendPress_rest suffix p reps (decodeAll decoded now s.receiver).2
      rw [receiverStep, hstep]
      generalize sendPress suffix p reps (decodeAll decoded now s.receiver).2 = d at *
      refine ⟨fun r hr => ?_, hsecond', hlater d hkept hlast hpressed, hafter.1, hafter.2⟩
      apply hpointers
      rw [← hkept]
      exact hr

theorem timeout_pairs (hinv : PairsInv suffix s) :
    PairsInv suffix (receiverStep suffix s .timeout) := by
  obtain ⟨hremotes, hlast, hrelease, hrelease2⟩ := triggerReleaseEvent_rest suffix s.receiver
  have hholds := triggerReleaseEvent_holds hinv.second hinv.holds
  have hpending : pendingButton suffix (triggerReleaseEvent suffix s.receiver) = none := by
    rw [pendingButton, hrelease]
    rfl
  have hdetect : SameRemotes s.receiver.remotes (triggerReleaseEvent suffix s.receiver).remotes ∧
      ∀ (a : ℕ) r', (triggerReleaseEvent suffix s.receiver).remotes[a]? = some r' →
        r'.releaseDetected = false → s.receiver.remotes[a]? = some r' ∧
          ∀ p, s.receiver.release = some p → p.remote ≠ a := by
    rw [hremotes]
    cases hpressed : s.receiver.release with
    | none =>
        refine ⟨⟨rfl, fun a r r' hr hr' => ?_⟩, fun a r' hr' _ => ⟨hr', fun p hp => by cases hp⟩⟩
        rw [Option.some.inj (hr.symm.trans hr')]
        exact SameSetup.refl r'
    | some p =>
        obtain ⟨hsame, hkept, -⟩ := detectRelease_spec p.remote s.receiver.remotes
        refine ⟨hsame, fun a r' hr' hreleased => ?_⟩
        have hother := hkept a r' hr'
        split at hother
        · rw [hother] at hreleased
          cases hreleased
        · next hne =>
            refine ⟨hother, fun q hq => ?_⟩
            rw [← Option.some.inj hq]
            exact Ne.symm hne
  obtain ⟨hsame, hkept⟩ := hdetect
  have hnames : SameNames s.receiver (triggerReleaseEvent suffix s.receiver) := hsame.sameNames
  refine ⟨?_, ?_, ?_, hholds.1, hholds.2.trans hpending.symm⟩
  · show ∀ r ∈ (triggerReleaseEvent suffix s.receiver).remotes, NoStrayPointers r
    rw [hremotes]
    cases s.receiver.release with
    | none => exact hinv.pointers
    | some p => exact (detectRelease_spec p.remote s.receiver.remotes).2.2 hinv.pointers
  · intro q hq
    show ((triggerReleaseEvent suffix s.receiver).releaseMessage q).fits suffix = false
    rw [hnames.releaseMessage]
    obtain hkept | hnone := hrelease2
    · exact hinv.second q (hkept.symm.trans hq)
    · cases hnone.symm.trans hq
  · intro a r' ha hr' hreleased c hc
    obtain ⟨hr, hother⟩ := hkept a r' hr' hreleased
    refine .inr ((hinv.counters a r' (hlast.symm.trans ha) hr hreleased c hc).resolve_left ?_)
    intro hpressed
    exact hother _ hpressed rfl

theorem length_of_strcaseeq {a b : Name} (h : strcaseeq a b = true) : a.length = b.length := by
  have hmap := congrArg List.length (beq_iff_eq.mp h)
  rw [List.length_map, List.length_map] at hmap
  exact hmap

/-- The button of the new configuration has names of the same lengths. -/
theorem of_findButton {new : List IrRemote} {remote button : Name} {a c : ℕ}
    (h : findButton new remote button = some (a, c)) (d : Receiver) (hnew : d.remotes = new) :
    (d.remoteName a).length = remote.length ∧ (d.buttonName a c).length = button.length := by
  simp only [findButton, getCodeByName, Option.bind_eq_bind, Option.bind_eq_some_iff,
    Option.some.injEq, Prod.mk.injEq] at h
  obtain ⟨a', hremote, r, hr, c', hbutton, rfl, rfl⟩ := h
  obtain ⟨hlength, hname, -⟩ := List.findIdx?_eq_some_iff_getElem.mp hremote
  obtain ⟨hlength', hname', -⟩ := List.findIdx?_eq_some_iff_getElem.mp hbutton
  have heq : new[a'] = r := Option.some.inj ((List.getElem?_eq_getElem hlength).symm.trans hr)
  rw [heq] at hname
  rw [Receiver.remoteName, Receiver.buttonName, hnew, hr, Option.map_some, Option.map_some,
    Option.getD_some, Option.getD_some, IrRemote.codeName, List.getElem?_eq_getElem hlength',
    Option.map_some, Option.getD_some]
  exact ⟨length_of_strcaseeq hname, length_of_strcaseeq hname'⟩

/-- The text about a release depends on the lengths of the names only. -/
theorem releaseMessage_fits_of_length {d d' : Receiver} {p p' : Pressed}
    (hremote : (d'.remoteName p'.remote).length = (d.remoteName p.remote).length)
    (hbutton : (d'.buttonName p'.remote p'.button).length =
      (d.buttonName p.remote p.button).length) :
    (d'.releaseMessage p').fits suffix = (d.releaseMessage p).fits suffix := by
  rw [Message.fits, Message.fits, text_length, text_length]
  simp only [Receiver.releaseMessage, hremote, hbutton]

section Reload

variable {d : Receiver} {new : List IrRemote}

theorem mapRemotes_idle (suffix : Name) (new : List IrRemote) (h : d.release = none) : mapRemotes suffix new d =
    { d with remotes := new, lastDecoded := none, release2 := none } := by
  rw [mapRemotes, h]

theorem mapRemotes_found (suffix : Name) {p : Pressed} {a c : ℕ} (h : d.release = some p)
    (hfound : findButton new (d.remoteName p.remote) (d.buttonName p.remote p.button) =
      some (a, c)) :
    mapRemotes suffix new d = { d with
      remotes := new, lastDecoded := none, release := some ⟨a, c, p.code⟩, release2 := none } := by
  rw [mapRemotes, h]
  dsimp only
  split
  · next a' c' heq =>
      obtain ⟨rfl, rfl⟩ := Prod.mk.inj (Option.some.inj (heq.symm.trans hfound))
      rfl
  · next heq => exact absurd (heq.symm.trans hfound) (by simp)

theorem mapRemotes_lost (suffix : Name) {p : Pressed} (h : d.release = some p)
    (hlost : findButton new (d.remoteName p.remote) (d.buttonName p.remote p.button) = none) :
    mapRemotes suffix new d = { triggerReleaseEvent suffix { d with release2 := none } with
      remotes := new, lastDecoded := none } := by
  rw [mapRemotes, h]
  dsimp only
  split
  · next heq => exact absurd (heq.symm.trans hlost) (by simp)
  · rw [← h]

theorem mapRemotes_rest (suffix : Name) (new : List IrRemote) (d : Receiver) :
    (mapRemotes suffix new d).remotes = new ∧ (mapRemotes suffix new d).lastDecoded = none ∧
      (mapRemotes suffix new d).release2 = none := by
  cases hpressed : d.release with
  | none =>
      rw [mapRemotes_idle suffix new hpressed]
      exact ⟨rfl, rfl, rfl⟩
  | some p =>
      cases hfound : findButton new (d.remoteName p.remote) (d.buttonName p.remote p.button) with
      | none =>
          rw [mapRemotes_lost suffix hpressed hfound]
          have hrest := triggerReleaseEvent_rest suffix { d with release2 := none }
          exact ⟨rfl, rfl, hrest.2.2.2.elim id id⟩
      | some button =>
          rw [mapRemotes_found suffix hpressed (a := button.1) (c := button.2) hfound]
          exact ⟨rfl, rfl, rfl⟩

/-- The messages of a new configuration: the release of a button that it does not
have. -/
theorem mapRemotes_holds (h : HoldsButton d (pendingButton suffix d))
    (hnames : ∀ p ∈ d.release, (d.releaseMessage p).fits suffix = true →
      ∀ button ∈ findButton new (d.remoteName p.remote) (d.buttonName p.remote p.button),
        ({ remotes := new } : Receiver).remoteName button.1 = d.remoteName p.remote ∧
          ({ remotes := new } : Receiver).buttonName button.1 button.2 =
            d.buttonName p.remote p.button) :
    HoldsButton (mapRemotes suffix new d) (pendingButton suffix (mapRemotes suffix new d)) := by
  obtain ⟨hremotes, -, -⟩ := mapRemotes_rest suffix new d
  cases hpressed : d.release with
  | none =>
      have hidle := mapRemotes_idle suffix new hpressed
      have hrelease : (mapRemotes suffix new d).release = none := by
        rw [hidle]
        exact hpressed
      have hbroadcast : (mapRemotes suffix new d).broadcast = d.broadcast := by rw [hidle]
      rw [pendingButton_none hpressed] at h
      rw [pendingButton_none hrelease, HoldsButton, hbroadcast]
      exact h
  | some p =>
      cases hfound : findButton new (d.remoteName p.remote) (d.buttonName p.remote p.button) with
      | none =>
          have hlost := mapRemotes_lost suffix hpressed hfound
          have hrest := triggerReleaseEvent_rest suffix { d with release2 := none }
          have hrelease : (mapRemotes suffix new d).release = none := by
            rw [hlost]
            exact hrest.2.2.1
          have hbroadcast : (mapRemotes suffix new d).broadcast =
              (triggerReleaseEvent suffix { d with release2 := none }).broadcast := by rw [hlost]
          have hbefore : HoldsButton { d with release2 := none }
              (pendingButton suffix { d with release2 := none }) := h
          have hafter := triggerReleaseEvent_holds (noSecondRelease_of_none rfl) hbefore
          rw [pendingButton_none hrelease, HoldsButton, hbroadcast]
          exact hafter
      | some button =>
          obtain ⟨a, c⟩ := button
          have hmapped := mapRemotes_found suffix hpressed hfound
          have hrelease : (mapRemotes suffix new d).release = some ⟨a, c, p.code⟩ := by rw [hmapped]
          have hbroadcast : (mapRemotes suffix new d).broadcast = d.broadcast := by rw [hmapped]
          obtain ⟨hremote, hbutton⟩ := of_findButton hfound (mapRemotes suffix new d) hremotes
          have hfits : ((mapRemotes suffix new d).releaseMessage ⟨a, c, p.code⟩).fits suffix =
              (d.releaseMessage p).fits suffix := releaseMessage_fits_of_length hremote hbutton
          rw [pendingButton_some hrelease, hfits, HoldsButton, hbroadcast]
          rw [pendingButton_some hpressed] at h
          split
          · next hyes =>
              rw [if_pos hyes] at h
              have hsame := sameNames_of_remotes (d := { remotes := new }) hremotes
              obtain ⟨hname, hname'⟩ := hnames p hpressed hyes (a, c) hfound
              have hheld : ((mapRemotes suffix new d).releaseMessage ⟨a, c, p.code⟩).held =
                  (d.releaseMessage p).held := by
                rw [hsame.releaseMessage]
                exact Prod.ext hname (Prod.ext hname' rfl)
              rw [hheld]
              exact h
          · next hno =>
              rw [if_neg hno] at h
              exact h

end Reload

theorem reload_pairs {new : List IrRemote} {hnew : ∀ r ∈ new, NoStrayPointers r}
    (hinv : PairsInv suffix s) (h : KeepsPairs suffix s (.reload new hnew)) :
    PairsInv suffix (receiverStep suffix s (.reload new hnew)) := by
  obtain ⟨hremotes, hlast, hsecond⟩ := mapRemotes_rest suffix new s.receiver
  have hholds := mapRemotes_holds hinv.holds h
  rw [receiverStep]
  generalize mapRemotes suffix new s.receiver = d at *
  refine ⟨?_, noSecondRelease_of_none hsecond, ?_, hholds.1, hholds.2⟩
  · show ∀ r ∈ d.remotes, NoStrayPointers r
    rw [hremotes]
    exact hnew
  · intro a r ha
    cases hlast.symm.trans ha

/-- What one event preserves. -/
theorem receiverStep_pairs (s : Receiving) (e : ReceiverEvent) (hinv : PairsInv suffix s)
    (h : KeepsPairs suffix s e) : PairsInv suffix (receiverStep suffix s e) := by
  cases e with
  | frame decoded now => exact frame_pairs hinv h
  | timeout => exact timeout_pairs hinv
  | reload new hnew => exact reload_pairs hinv h

end Steps

/-! ### Runs -/

/-- The daemon has started with a configuration. -/
def Receiving.start (remotes : List IrRemote) : Receiving := { receiver := { remotes := remotes } }

theorem start_pairs (suffix : Name) {remotes : List IrRemote}
    (h : ∀ r ∈ remotes, NoStrayPointers r) : PairsInv suffix (Receiving.start remotes) :=
  ⟨h, noSecondRelease_of_none rfl, fun a _ ha => (Option.some_ne_none a ha.symm).elim, trivial, rfl⟩

/-- In the messages of every run whose events do not bring them apart, presses and
releases alternate, a release is that of the button that was pressed before it, and
repeats come between the two. -/
theorem broadcasts_paired (suffix : Name) (remotes : List IrRemote)
    (hremotes : ∀ r ∈ remotes, NoStrayPointers r) (events : List ReceiverEvent)
    (h : Along (receiverStep suffix) (KeepsPairs suffix) (Receiving.start remotes) events) :
    PressesPaired none (run (receiverStep suffix) (Receiving.start remotes) events).receiver.broadcast :=
  (h.invariant receiverStep_pairs (start_pairs suffix hremotes)).paired

section Decidable

variable (suffix : Name) (s : Receiving)

instance (d : Receiver) (p : Pressed) : Decidable (MayPress suffix d p) :=
  inferInstanceAs (Decidable (_ ∨ _ ∧ ∀ q ∈ d.release, _))

instance : DecidablePred (KeepsPairs suffix s)
  | .frame decoded _ => inferInstanceAs (Decidable (∀ found ∈ foundFor decoded s.receiver, (_ → _) ∧ _))
  | .timeout => .isTrue trivial
  | .reload new _ => inferInstanceAs (Decidable (∀ p ∈ s.receiver.release, _ → ∀ button ∈ findButton new
      (s.receiver.remoteName p.remote) (s.receiver.buttonName p.remote p.button), _ ∧ _))

/-- The repeat belongs to the button that is held. -/
instance (held : Option HeldButton) (remote button : Name) :
    Decidable (∃ code, held = some (remote, button, code)) :=
  match held with
  | none => .isFalse fun ⟨_, h⟩ => Option.some_ne_none _ h.symm
  | some (remote', button', code) =>
      decidable_of_iff (remote' = remote ∧ button' = button)
        ⟨fun h => ⟨code, congrArg some (Prod.ext h.1 (Prod.ext h.2 rfl))⟩, fun ⟨_, h⟩ =>
          ⟨congrArg Prod.fst (Option.some.inj h), congrArg (·.2.1) (Option.some.inj h)⟩⟩

instance (held : Option HeldButton) (m : Message) : Decidable (MayBroadcast held m) :=
  inferInstanceAs (Decidable (if m.release then held = some m.held
    else if m.reps = 0 then held = none else ∃ code, held = some (m.remote, m.button, code)))

instance decidablePressesPaired : (held : Option HeldButton) → (ms : List Message) → Decidable (PressesPaired held ms)
  | _, [] => .isTrue trivial
  | held, m :: ms =>
      have : Decidable (PressesPaired (heldAfter held m) ms) := decidablePressesPaired (heldAfter held m) ms
      inferInstanceAs (Decidable (MayBroadcast held m ∧ PressesPaired (heldAfter held m) ms))

end Decidable

/-- A frame with this code, at this time, of the first remote. -/
def pressAt (code : IrCode) (repeatFlag : Bool) (now : ℕ) : ReceiverEvent :=
  .frame (fun a => if a = 0 then
    some { pre := 0, code := code, post := 0, repeatFlag := repeatFlag, minRemainingGap := 100000,
           maxRemainingGap := 100000 }
    else none) now

/-- A button is repeated, a sequence is pressed before its release, and the
configuration is read again while the sequence is pressed. -/
theorem broadcasts_paired_run :
    PressesPaired none (run (receiverStep "_UP".toList) (Receiving.start [sequenceRemote 0])
      [pressAt 1 false 0, pressAt 1 true 100000, pressAt 2 false 200000, pressAt 3 true 300000,
        .reload [sequenceRemote 1] (by decide), .timeout, pressAt 1 false 400000]).receiver.broadcast :=
  broadcasts_paired "_UP".toList [sequenceRemote 0] (by decide) _ (by decide +kernel)

/-- A remote whose name is so long that only the message about a press fits. -/
def longRemote : IrRemote := { sequenceRemote 0 with name := List.replicate 230 'x' }

/-- Two buttons are pressed, and the release of the first does not fit its buffer. -/
theorem broadcasts_paired_fails :
    ¬ ∀ (suffix : Name) (remotes : List IrRemote), (∀ r ∈ remotes, NoStrayPointers r) →
      ∀ events : List ReceiverEvent,
        PressesPaired none (run (receiverStep suffix) (Receiving.start remotes) events).receiver.broadcast := by
  intro h
  have hlong : ∀ r ∈ [longRemote], NoStrayPointers r := by decide +kernel
  have hpaired : ∀ events, decide (PressesPaired none (run (receiverStep "_UP".toList)
      (Receiving.start [longRemote]) events).receiver.broadcast) = true :=
    fun events => decide_eq_true (h _ _ hlong events)
  have hunpaired : decide (PressesPaired none (run (receiverStep "_UP".toList)
      (Receiving.start [longRemote])
      [pressAt 1 false 0, .timeout, pressAt 1 false 100000]).receiver.broadcast) = false := by
    decide +kernel
  exact Bool.false_ne_true (hunpaired.symm.trans (hpaired _))

end Lirc
