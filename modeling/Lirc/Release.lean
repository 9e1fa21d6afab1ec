import Lirc.Daemon
import Lirc.Decoding

/-!
`release.c` and its callers: the messages about buttons that are pressed and
released. A pointer to a remote is its index in the list of remotes, one to a code
its index in the remote. Of the time nothing is left but the event that the release
of a button is due.
-/

namespace Lirc

open Numeral

/-- A message of `write_message`; the button of a release has the suffix. -/
structure Message where
  remote : Name
  button : Name
  code : IrCode
  reps : ℤ
  release : Bool
  deriving DecidableEq, Repr

/-- `%02x` of an `int` -/
def hexReps (reps : ℤ) : List Char :=
  List.leftpad 2 '0' (Nat.toDigits 16 (reps % 2 ^ 32).toNat)

/-- The text of `write_message`. -/
def Message.text (suffix : Name) (m : Message) : List Char :=
  hexDigits 16 m.code.toNat ++ ' ' :: hexReps m.reps ++ ' ' :: m.button ++
    (if m.release then suffix else []) ++ ' ' :: m.remote ++ ['\n']

/-- The text fits the buffer. -/
def Message.fits (suffix : Name) (m : Message) : Bool := (m.text suffix).length < packetSize + 1

/-- `release_remote`, `release_ncode` and `release_code`. -/
structure Pressed where
  remote : ℕ
  button : ℕ
  code : IrCode
  deriving DecidableEq, Repr

/-- The remotes that are decoded, `last_decoded`, the buttons whose release is
pending, and the messages that have been broadcast. -/
structure Receiver where
  remotes : List IrRemote
  lastDecoded : Option ℕ := none
  release : Option Pressed := none
  release2 : Option Pressed := none
  broadcast : List Message := []

namespace Receiver

variable (d : Receiver)

def remoteName (a : ℕ) : Name := (d.remotes[a]?.map IrRemote.name).getD []

def buttonName (a c : ℕ) : Name := (d.remotes[a]?.map (IrRemote.codeName · c)).getD []

/-- `broadcast_message` -/
def send (m : Message) : Receiver := { d with broadcast := d.broadcast ++ [m] }

/-- The message about a button of which a frame has come. -/
def pressMessage (p : Pressed) (reps : ℤ) : Message where
  remote := d.remoteName p.remote
  button := d.buttonName p.remote p.button
  code := p.code
  reps := reps
  release := false

/-- The message about a button that is released. -/
def releaseMessage (p : Pressed) : Message where
  remote := d.remoteName p.remote
  button := d.buttonName p.remote p.button
  code := p.code
  reps := 0
  release := true

end Receiver

section Functions

variable (suffix : Name)

/-- `register_button_press` -/
def registerButtonPress (p : Pressed) (reps : ℤ) (d : Receiver) : Receiver :=
  { d with
    release2 := if reps = 0 ∧ d.release.isSome then d.release else d.release2
    release := some p }

/-- `check_release_event`, and the release that it finds is broadcast. While it is,
`input_message` finds no other one. -/
def checkReleaseEvent (d : Receiver) : Receiver :=
  match d.release2 with
  | none => d
  | some p =>
      let d := { d with release2 := none }
      if (d.releaseMessage p).fits suffix then d.send (d.releaseMessage p) else d

/-- `input_message` -/
def inputMessage (m : Message) (d : Receiver) : Receiver := (checkReleaseEvent suffix d).send m

/-- `remote->release_detected = 1` -/
def detectRelease (a : ℕ) (remotes : List IrRemote) : List IrRemote :=
  remotes.modify a fun r => { r with releaseDetected := true }

/-- `trigger_release_event`, and its message goes to `input_message`. -/
def triggerReleaseEvent (d : Receiver) : Receiver :=
  match d.release with
  | none => d
  | some p =>
      let m := d.releaseMessage p
      let d := { d with remotes := detectRelease p.remote d.remotes, release := none }
      if m.fits suffix then inputMessage suffix m d else d

/-- The remote and the code with these names in the new configuration. -/
def findButton (remotes : List IrRemote) (remote button : Name) : Option (ℕ × ℕ) := do
  let a ← remotes.findIdx? fun r => strcaseeq r.name remote
  let r ← remotes[a]?
  let c ← getCodeByName r button
  some (a, c)

/-- `release_map_remotes`, and its message goes to `input_message`. No remote of the
new configuration is the one that was decoded last. -/
def mapRemotes (new : List IrRemote) (d : Receiver) : Receiver :=
  let d := { d with release2 := none }
  match d.release with
  | none => { d with remotes := new, lastDecoded := none }
  | some p =>
      match findButton new (d.remoteName p.remote) (d.buttonName p.remote p.button) with
      | some (a, c) =>
          { d with remotes := new, lastDecoded := none, release := some ⟨a, c, p.code⟩ }
      | none => { triggerReleaseEvent suffix d with remotes := new, lastDecoded := none }

/-! ### `decode_all` -/

/-- A code that was found: the remote, what the driver has decoded for it, the code
and the toggle bits. -/
structure Found where
  remote : ℕ
  decoded : Decoded
  code : ℕ
  state : IrCode

/-- The loop over the remotes, up to the first for which a code is found. -/
def tryRemotes (decoded : ℕ → Option Decoded) : ℕ → List IrRemote → List IrRemote × Option Found
  | _, [] => ([], none)
  | i, r :: rs =>
      match decoded i with
      | none =>
          let rest := tryRemotes decoded (i + 1) rs
          ({ r with toggleMaskState := 0 } :: rest.1, rest.2)
      | some x =>
          match getCode r ⟨x.pre, x.code, x.post⟩ with
          | (none, r) =>
              let rest := tryRemotes decoded (i + 1) rs
              ({ r with toggleMaskState := 0 } :: rest.1, rest.2)
          | (some (c, state), r) => (r :: rs, some ⟨i, x, c, state⟩)

/-- `set_code` for the remote that was found. -/
def Found.count (f : Found) (same : Bool) (now : ℕ) (r : IrRemote) : IrRemote :=
  setCode r f.code f.state same f.decoded.repeatFlag f.decoded.minRemainingGap
    f.decoded.maxRemainingGap now

/-- `decode_all`: the button with the number of repeats that the message shows, and
the remotes. When a button is complete, all sequences are expected from their
beginning. -/
def decodeAll (decoded : ℕ → Option Decoded) (now : ℕ) (d : Receiver) :
    Option (Pressed × ℤ) × Receiver :=
  let tried := tryRemotes decoded 0 d.remotes
  match tried.2 with
  | none => (none, { d with remotes := tried.1 })
  | some f =>
      match tried.1[f.remote]? with
      | none => (none, { d with remotes := tried.1 })
      | some r =>
          let r := f.count (d.lastDecoded == some f.remote) now r
          match r.codes[f.code]? with
          | none => (none, { d with remotes := tried.1 })
          | some code =>
              let remotes := if incomplete r code then tried.1 else tried.1.map resetCurrents
              let out := reportCode r f.code
              (out.1.map fun message => (⟨f.remote, f.code, messageCode r code⟩, message.2),
                { d with remotes := remotes.set f.remote out.2, lastDecoded := some f.remote })

/-- A frame is received: `decode_all` and, if it has a message that fits its
buffer, `input_message`. -/
def receiveFrame (decoded : ℕ → Option Decoded) (now : ℕ) (d : Receiver) : Receiver :=
  match decodeAll decoded now d with
  | (none, d) => d
  | (some (p, reps), d) =>
      let d := registerButtonPress p reps d
      if (d.pressMessage p reps).fits suffix then inputMessage suffix (d.pressMessage p reps) d else d

end Functions

end Lirc
