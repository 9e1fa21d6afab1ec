import Lirc.FrameBounds
import Lirc.SentWord

/-!
The toggle bits of the presses that a sequence of commands transmits. `send_core`
flips `toggle_bit_mask_state` before it calls the driver and does not look back
when the driver fails, so that the failures between two presses count.
-/

namespace Lirc

open Transition

/-- What happens while no frame of a remote is received. -/
inductive SendEvent
  | command (once : Bool) (fd : ℕ) (message : List Char) (arguments : Option (List Char))
  | stop (fd : ℕ) (message : List Char) (arguments : Option (List Char))
  | alarm
  /-- Frames of other remotes have changed these. -/
  | received (heap : ℕ → IrRemote)

/-- The function that handles the event; `a` is the remote that is looked at. -/
def sendStep (env : Env) (a : ℕ) (d : Daemon) : SendEvent → Daemon
  | .command once fd message arguments => (sendCore env once fd message arguments d).2
  | .stop fd message arguments => (sendStop env fd message arguments d).2
  | .alarm => dosigalrm env d
  | .received heap => { d with heap := Function.update heap a (d.heap a) }

/-- The remote and the code that a SEND_ONCE or SEND_START hands to the driver. -/
def commandTarget (env : Env) (once : Bool) (arguments : Option (List Char)) (d : Daemon) :
    Option (ℕ × ℕ) :=
  if env.sendMode = 0 ∨ d.repeatRemote.isSome then none
  else
    match parseRc env d arguments once 2 with
    | .ok ⟨some a, some c, _⟩ => some (a, c)
    | _ => none

/-- `code->code` of a button -/
def buttonCode (r : IrRemote) (c : ℕ) : IrCode := (r.codes[c]?.map IrNcode.code).getD 0

/-- A transmission that a command has asked for, and the word of its first
frame. -/
structure Attempt where
  code : ℕ
  word : Option IrCode
  succeeded : Bool
  deriving DecidableEq

/-- The transmission of a code by the driver. -/
def attemptOf (env : Env) (a c : ℕ) (d : Daemon) : Attempt where
  code := c
  word := sentWord ((startSending a c d).heap a) (buttonCode (d.heap a) c)
  succeeded := (firstFrame env a c d).1

/-- The transmission of a code of the remote that an event asks for. -/
def attempt (env : Env) (a : ℕ) (d : Daemon) : SendEvent → Option Attempt
  | .command once _ _ arguments =>
      match commandTarget env once arguments d with
      | some (b, c) => if b = a then some (attemptOf env a c d) else none
      | none => none
  | _ => none

/-- The transmissions of codes of the remote in a run. -/
def attempts (env : Env) (a : ℕ) : Daemon → List SendEvent → List Attempt
  | _, [] => []
  | d, e :: es => (attempt env a d e).toList ++ attempts env a (sendStep env a d e) es

/-- The bits of a transmission that are to tell a new press from a held button. -/
def Attempt.toggleBits (r : IrRemote) (x : Attempt) : Option IrCode :=
  x.word.map fun word => word &&& r.toggleBitMask

/-! ### What a step leaves of a remote -/

/-- A property that transmissions do not touch. -/
theorem SameRemote.field {α : Type*} {r r' : IrRemote} (h : SameRemote r r') (f : IrRemote → α)
    (hf : ∀ (r : IrRemote) countdown toggle gmin gmax codes send last bits,
      f { r with
        repeatCountdown := countdown, toggleMaskState := toggle, minRemainingGap := gmin,
        maxRemainingGap := gmax, codes := codes, lastSend := send, lastCode := last,
        toggleBitMaskState := bits } = f r) : f r' = f r := by
  obtain ⟨countdown, toggle, gmin, gmax, codes, heq, -⟩ := h
  have hleft := hf r' r'.repeatCountdown r'.toggleMaskState r'.minRemainingGap r'.maxRemainingGap
    r'.codes r.lastSend r.lastCode r.toggleBitMaskState
  have hright := hf r countdown toggle gmin gmax codes r.lastSend r.lastCode r.toggleBitMaskState
  exact hleft.symm.trans ((congrArg f heq).trans hright)

theorem SameRemote.refl (r : IrRemote) : SameRemote r r := Transmits.refl r

theorem SameRemote.trans {r r' r'' : IrRemote} (h : SameRemote r r') (h' : SameRemote r' r'') :
    SameRemote r r'' := by
  obtain ⟨countdown, toggle, gmin, gmax, codes, heq, hcodes⟩ := h'
  refine Transmits.trans h ⟨countdown, toggle, gmin, gmax, codes, ?_, hcodes⟩
  exact congrArg (fun x : IrRemote => { x with
    lastSend := r.lastSend, lastCode := r.lastCode, toggleBitMaskState := r.toggleBitMaskState }) heq

/-- A button keeps its code. -/
theorem SameRemote.buttonCode {r r' : IrRemote} (h : SameRemote r r') (c : ℕ) :
    buttonCode r' c = buttonCode r c := by
  obtain ⟨_, _, _, _, codes, heq, hcodes⟩ := h
  have hr' : r'.codes = codes := congrArg IrRemote.codes heq
  have hget := congrArg (fun l => ((l[c]?).map IrNcode.code).getD 0) hcodes
  simp only [List.getElem?_map, Option.map_map] at hget
  rw [Lirc.buttonCode, Lirc.buttonCode, hr']
  exact hget

/-- The remote is the same, and its toggle bits are. -/
def SameToggles (r r' : IrRemote) : Prop :=
  SameRemote r r' ∧ r'.toggleBitMaskState = r.toggleBitMaskState

theorem SameToggles.refl (r : IrRemote) : SameToggles r r := ⟨SameRemote.refl r, rfl⟩

theorem SameToggles.trans {r r' r'' : IrRemote} (h : SameToggles r r') (h' : SameToggles r' r'') :
    SameToggles r r'' := ⟨h.1.trans h'.1, h'.2.trans h.2⟩

section Steps

variable (env : Env)

theorem Replies.heap {fd : ℕ} {d d' : Daemon} (h : Replies fd d d') : d'.heap = d.heap := by
  obtain ⟨_, _, rfl, -⟩ := h
  rfl

/-- An update of one remote that leaves its toggle bits. -/
theorem setRemote_sameToggles {d : Daemon} {a : ℕ} {r : IrRemote} (h : SameToggles (d.heap a) r)
    (b : ℕ) : SameToggles (d.heap b) ((d.setRemote a r).heap b) := by
  by_cases hb : b = a
  · rw [hb, setRemote_heap_self]
    exact h
  · rw [setRemote_heap_ne d r hb]
    exact SameToggles.refl _

theorem sendIrNcode_sameToggles (a c : ℕ) (d : Daemon) (b : ℕ) :
    SameToggles (d.heap b) ((sendIrNcode env a c d).2.heap b) := by
  have hsent := env.sendFunc_transmits d.clock d.repeatRemote.isSome (d.heap a) c d.sendBuffer
  have hbits : (env.sendFunc d.clock d.repeatRemote.isSome (d.heap a) c
      d.sendBuffer).2.1.toggleBitMaskState = (d.heap a).toggleBitMaskState := by
    obtain ⟨_, _, _, _, _, heq, -⟩ := hsent
    have hstate := congrArg IrRemote.toggleBitMaskState heq
    exact hstate
  have hsame := (SameRemote.refl (d.heap a)).of_transmits hsent
  have hleft : SameToggles (d.heap a) (if (env.sendFunc d.clock d.repeatRemote.isSome (d.heap a) c
      d.sendBuffer).1 then
        { (env.sendFunc d.clock d.repeatRemote.isSome (d.heap a) c d.sendBuffer).2.1 with
          lastSend := env.now (d.clock + 1), lastCode := some c }
      else (env.sendFunc d.clock d.repeatRemote.isSome (d.heap a) c d.sendBuffer).2.1) := by
    split
    · exact ⟨hsame, hbits⟩
    · exact ⟨hsame, hbits⟩
  exact setRemote_sameToggles (d := ({ d with sendBuffer := _ }.tick).log _) hleft b

theorem noteSent_sameToggles (once : Bool) (a c : ℕ) (reps : ℤ) (d : Daemon) (b : ℕ) :
    SameToggles (d.heap b) ((noteSent env once a c reps d).heap b) := by
  apply setRemote_sameToggles
  exact ⟨⟨_, _, _, _, _, rfl, rfl⟩, rfl⟩

theorem countRepeat_sameToggles (a c : ℕ) (d : Daemon) (b : ℕ) :
    SameToggles (d.heap b) ((countRepeat a c d).heap b) := by
  rw [countRepeat]
  split
  · exact SameToggles.refl _
  · split
    · apply setRemote_sameToggles
      exact ⟨⟨_, _, _, _, _, rfl, rfl⟩, rfl⟩
    · exact SameToggles.refl _

theorem setTimer_heap (d : Daemon) (usec : ℤ) : (d.setTimer usec).heap = d.heap := by
  rw [setTimer_eq]

theorem deinitUnused_heap (d : Daemon) : (deinitUnused env d).heap = d.heap := by
  rw [deinitUnused]
  split
  · rfl
  · rfl

/-- The answer that was put off changes no remote. -/
theorem answerRepeat_heap {reply : ℕ → List Char → Daemon → Bool × Daemon}
    (hreply : ∀ fd message d, (reply fd message d).2.heap = d.heap) (d : Daemon) :
    (answerRepeat reply d).heap = d.heap := by
  rw [answerRepeat]
  split
  · exact hreply _ _ _
  · rfl

theorem dosigalrm_sameToggles (d : Daemon) (b : ℕ) :
    SameToggles (d.heap b) ((dosigalrm env d).heap b) := by
  rw [dosigalrm]
  split
  · next a c _ _ =>
      split
      · have hsent := (countRepeat_sameToggles a c d b).trans
          (sendIrNcode_sameToggles env a c (countRepeat a c d) b)
        simp only []
        split
        · rw [setTimer_heap]
          exact hsent
        · rw [finishRepeating, deinitUnused_heap, answerRepeat_heap]
          · exact hsent
          · intro fd message d
            exact (sendSuccess_replies env fd message d).heap
      · rw [interruptRepeating, deinitUnused_heap]
        show SameToggles _ ((answerRepeat _ d).heap b)
        rw [answerRepeat_heap]
        · exact SameToggles.refl _
        · intro fd message d
          exact (sendError_replies env fd message _ d).heap
  · exact SameToggles.refl _

theorem sendStop_sameToggles (fd : ℕ) (message : List Char) (arguments : Option (List Char))
    (d : Daemon) (b : ℕ) :
    SameToggles (d.heap b) ((sendStop env fd message arguments d).2.heap b) := by
  have herror : ∀ text, SameToggles (d.heap b) ((sendError env fd message text d).2.heap b) := by
    intro text
    rw [(sendError_replies env fd message text d).heap]
    exact SameToggles.refl _
  rw [sendStop]
  split
  · apply herror
  · split
    · next a c _ _ =>
        simp only []
        split
        · apply herror
        · split
          · apply herror
          · split
            · rw [(sendSuccess_replies env fd message _).heap]
              apply setRemote_sameToggles
              exact ⟨⟨_, _, _, _, _, rfl, rfl⟩, rfl⟩
            · rw [(sendSuccess_replies env fd message _).heap]
              have htimer := setTimer_heap d 0
              have hstopped : SameToggles ((d.setTimer 0).heap a)
                  { d.heap a with toggleMaskState := 0 } := by
                rw [htimer]
                exact ⟨⟨_, _, _, _, _, rfl, rfl⟩, rfl⟩
              have hset := setRemote_sameToggles hstopped b
              rw [htimer] at hset
              exact hset
    · apply herror

/-- After the first frame the toggle bits stay as the driver has been given
them. -/
theorem sendFirst_sameToggles (fd : ℕ) (message : List Char) (once : Bool) (a c : ℕ) (reps : ℤ)
    (d : Daemon) (b : ℕ) :
    SameToggles ((startSending a c d).heap b)
      ((sendFirst env fd message once a c reps d).2.heap b) := by
  have hfirst := sendIrNcode_sameToggles env a c (startSending a c d) b
  have hnoted := hfirst.trans (noteSent_sameToggles env once a c reps (firstFrame env a c d).2 b)
  have hcases := sendFirst_cases env fd once message a c reps d
  generalize sendFirst env fd message once a c reps d = x at hcases
  cases hcases with
  | failed hsent h =>
      rw [h.heap]
      exact hfirst
  | single hsent hmore h =>
      rw [h.heap]
      exact hnoted
  | waiting hsent heq hmore honce =>
      rw [setTimer_heap, heq]
      exact hnoted
  | outOfMemory hsent heq hmore honce h =>
      rw [h.heap, heq]
      exact hnoted
  | repeating hsent heq hmore honce h =>
      rw [setTimer_heap, h.heap, heq]
      exact hnoted
  | unanswered hsent heq hmore honce h =>
      show SameToggles _ (Daemon.heap _ b)
      rw [h.heap, heq]
      exact hnoted

/-- A command that names no code to be sent, or comes while another is being
repeated, is only answered. -/
theorem sendCore_replies (once : Bool) (fd : ℕ) (message : List Char)
    (arguments : Option (List Char)) (d : Daemon)
    (hnone : commandTarget env once arguments d = none) :
    Replies fd d (sendCore env once fd message arguments d).2 := by
  have herror : ∀ text, Replies fd d (sendError env fd message text d).2 :=
    fun text => sendError_replies env fd message text d
  rw [commandTarget] at hnone
  rw [sendCore]
  split at hnone
  · next hbusy =>
      split
      · apply herror
      · next hmode =>
          have hrepeat := hbusy.resolve_left hmode
          split
          · apply herror
          · rw [if_pos hrepeat]
            apply herror
          · exact Replies.refl fd d
  · next hready =>
      rw [not_or] at hready
      rw [if_neg hready.1]
      cases hparse : parseRc env d arguments once 2 with
      | error text => exact herror text
      | ok rc =>
          rw [hparse] at hnone
          obtain ⟨_ | a, _ | c, reps⟩ := rc
          · exact Replies.refl fd d
          · exact Replies.refl fd d
          · exact Replies.refl fd d
          · cases hnone

theorem sendCore_target (once : Bool) (fd : ℕ) (message : List Char)
    (arguments : Option (List Char)) (d : Daemon) {a c : ℕ}
    (htarget : commandTarget env once arguments d = some (a, c)) :
    ∃ reps, sendCore env once fd message arguments d = sendFirst env fd message once a c reps d := by
  rw [commandTarget] at htarget
  split at htarget
  · cases htarget
  · next hready =>
      rw [not_or] at hready
      rw [sendCore, if_neg hready.1]
      cases hparse : parseRc env d arguments once 2 with
      | error text =>
          rw [hparse] at htarget
          cases htarget
      | ok rc =>
          rw [hparse] at htarget
          obtain ⟨_ | b, _ | k, reps⟩ := rc
          · cases htarget
          · cases htarget
          · cases htarget
          · cases htarget
            exact ⟨reps, if_neg hready.2⟩

end Steps

/-! ### Runs -/

/-- `n` flips of the toggle bits. -/
def flips (mask : IrCode) (n : ℕ) : IrCode := if n % 2 = 0 then 0 else mask

theorem flips_succ (mask state : IrCode) (n : ℕ) :
    (state ^^^ mask) ^^^ flips mask n = state ^^^ flips mask (n + 1) := by
  have hpar := Nat.mod_two_eq_zero_or_one n
  rw [flips, flips]
  obtain heven | hodd := hpar
  · rw [if_pos heven, if_neg (by omega)]
    exact BitVec.xor_zero
  · rw [if_neg (by omega), if_pos (by omega), BitVec.xor_assoc, BitVec.xor_self]
    rfl

theorem flips_add (mask : IrCode) (m n : ℕ) :
    flips mask (m + n) = flips mask m ^^^ flips mask n := by
  induction n with
  | zero => exact BitVec.xor_zero.symm
  | succ n ih =>
      have hnext : ∀ k, flips mask (k + 1) = flips mask k ^^^ mask := by
        intro k
        have hstep := flips_succ mask 0 k
        rw [show (0 : IrCode) ^^^ mask = mask from BitVec.zero_xor,
          show (0 : IrCode) ^^^ flips mask (k + 1) = flips mask (k + 1) from BitVec.zero_xor] at hstep
        rw [← hstep, BitVec.xor_comm]
      rw [← Nat.add_assoc, hnext, hnext, ih, BitVec.xor_assoc]

/-- The remote `r₀` with these toggle bits is at the address. -/
def HasToggles (r₀ : IrRemote) (a : ℕ) (state : IrCode) (d : Daemon) : Prop :=
  SameRemote r₀ (d.heap a) ∧ (d.heap a).toggleBitMaskState = state

/-- The word is sent for the code with these toggle bits. -/
def Emits (r₀ : IrRemote) (state : IrCode) (x : Attempt) : Prop :=
  ∃ r, SameRemote r₀ r ∧ r.toggleBitMaskState = state ∧ ToggleMaskQuiet r ∧
    x.word = sentWord r (buttonCode r₀ x.code)

section Runs

variable {env : Env} {r₀ : IrRemote} {a : ℕ} {state : IrCode} {d : Daemon}

theorem HasToggles.of_same {d' : Daemon} (h : HasToggles r₀ a state d)
    (hsame : SameToggles (d.heap a) (d'.heap a)) : HasToggles r₀ a state d' :=
  ⟨h.1.trans hsame.1, hsame.2.trans h.2⟩

/-- `send_core` flips the toggle bits and turns the toggle mask off. -/
theorem startSending_toggles (hmask : hasToggleBitMask r₀ = true) (h : HasToggles r₀ a state d)
    (c : ℕ) : HasToggles r₀ a (state ^^^ r₀.toggleBitMask) (startSending a c d) ∧
      ToggleMaskQuiet ((startSending a c d).heap a) := by
  have hmask' : hasToggleBitMask (d.heap a) = true := by
    rw [h.1.field hasToggleBitMask fun _ _ _ _ _ _ _ _ _ => rfl]
    exact hmask
  have hbits : (d.heap a).toggleBitMask = r₀.toggleBitMask :=
    h.1.field IrRemote.toggleBitMask fun _ _ _ _ _ _ _ _ _ => rfl
  refine ⟨⟨h.1.trans (SameRemote.startSending d a c), ?_⟩, ?_⟩
  · rw [startSending, setRemote_heap_self, ← h.2, ← hbits]
    split
    · next hstart =>
        have hstart' : hasToggleBitMask { d.heap a with toggleMaskState := 0 } = true := hmask'
        rw [if_pos hstart']
        rfl
    · rfl
  · rw [startSending, setRemote_heap_self]
    by_cases hquiet : hasToggleMask (d.heap a) = true
    · rw [if_pos hquiet]
      split
      · exact .inr rfl
      · exact .inr rfl
    · rw [if_neg hquiet]
      split
      · exact .inl (Bool.eq_false_of_not_eq_true hquiet)
      · exact .inl (Bool.eq_false_of_not_eq_true hquiet)

variable (env) in
/-- A step that asks for a transmission of the remote flips the toggle bits, and
no other step does. -/
theorem sendStep_toggles (hmask : hasToggleBitMask r₀ = true) (h : HasToggles r₀ a state d)
    (e : SendEvent) :
    HasToggles r₀ a (if (attempt env a d e).isSome then state ^^^ r₀.toggleBitMask else state)
        (sendStep env a d e) ∧
      ∀ x ∈ attempt env a d e, Emits r₀ (state ^^^ r₀.toggleBitMask) x := by
  have hquiet : ∀ d', attempt env a d e = none → SameToggles (d.heap a) (d'.heap a) →
      HasToggles r₀ a (if (attempt env a d e).isSome then state ^^^ r₀.toggleBitMask else state) d' ∧
        ∀ x ∈ attempt env a d e, Emits r₀ (state ^^^ r₀.toggleBitMask) x := by
    intro d' hnone hsame
    rw [hnone]
    exact ⟨h.of_same hsame, fun x hx => by cases hx⟩
  cases e with
  | stop fd message arguments =>
      exact hquiet _ rfl (sendStop_sameToggles env fd message arguments d a)
  | alarm => exact hquiet _ rfl (dosigalrm_sameToggles env d a)
  | received heap =>
      refine hquiet _ rfl ?_
      show SameToggles _ (Function.update heap a (d.heap a) a)
      rw [Function.update_self]
      exact SameToggles.refl _
  | command once fd message arguments =>
      cases htarget : commandTarget env once arguments d with
      | none =>
          refine hquiet _ (by simp only [attempt, htarget]) ?_
          rw [sendStep, (sendCore_replies env once fd message arguments d htarget).heap]
          exact SameToggles.refl _
      | some target =>
          obtain ⟨b, c⟩ := target
          obtain ⟨reps, hcore⟩ := sendCore_target env once fd message arguments d htarget
          have hsent := sendFirst_sameToggles env fd message once b c reps d a
          rw [sendStep, hcore]
          by_cases hb : b = a
          · subst hb
            have hattempt : attempt env b d (.command once fd message arguments) =
                some (attemptOf env b c d) := by simp only [attempt, htarget, if_true]
            obtain ⟨hstart, hoff⟩ := startSending_toggles hmask h c
            rw [hattempt]
            refine ⟨hstart.of_same hsent, fun x hx => ?_⟩
            cases hx
            refine ⟨_, hstart.1, hstart.2, hoff, ?_⟩
            show sentWord _ (buttonCode (d.heap b) c) = sentWord _ (buttonCode r₀ c)
            rw [h.1.buttonCode]
          · refine hquiet _ (by simp only [attempt, htarget, if_neg hb]) ?_
            rwa [startSending, setRemote_heap_ne _ _ (Ne.symm hb)] at hsent

/-- The `i`-th transmission of a run is sent with toggle bits that have been
flipped `i + 1` times. -/
theorem attempts_emit (hmask : hasToggleBitMask r₀ = true) (h : HasToggles r₀ a state d)
    (events : List SendEvent) {i : ℕ} {x : Attempt} (hx : (attempts env a d events)[i]? = some x) :
    Emits r₀ (state ^^^ flips r₀.toggleBitMask (i + 1)) x := by
  induction events generalizing d state i with
  | nil => cases hx
  | cons e es ih =>
      obtain ⟨hnext, hemits⟩ := sendStep_toggles env hmask h e
      rw [attempts] at hx
      cases hattempt : attempt env a d e with
      | none =>
          rw [hattempt] at hx hnext
          exact ih hnext hx
      | some y =>
          rw [hattempt] at hx hnext hemits
          cases i with
          | zero =>
              cases hx
              exact hemits x rfl
          | succ i =>
              rw [← flips_succ]
              exact ih hnext hx

/-- The bits in which the toggle bits of two transmissions of these codes differ
if `n` failures lie between them. -/
def toggleDifference (r : IrRemote) (code code' n : ℕ) : IrCode :=
  let words := genIrCode r r.preData (buttonCode r code) r.postData ^^^
    genIrCode r r.preData (buttonCode r code') r.postData
  let flipped := flips r.toggleBitMask (n + 1)
  let sent :=
    if isRcmm r || isXmp r then words
    else if bitsSet r.toggleBitMask == 1 then flipped
    else words ^^^ flipped
  sent &&& r.toggleBitMask &&& genMask (bitCount r)

/-- The toggle bits of a word. -/
theorem Emits.getLsbD {x : Attempt} {w : IrCode} {p : ℕ} (hle : bitCount r₀ ≤ 64)
    (hx : Emits r₀ state x) (hw : x.word = some w) (hp : p < 64)
    (hmask : r₀.toggleBitMask.getLsbD p = true) :
    w.getLsbD p = (decide (p < bitCount r₀) &&
      let bit := (genIrCode r₀ r₀.preData (buttonCode r₀ x.code) r₀.postData).getLsbD p
      if isRcmm r₀ || isXmp r₀ then bit
      else if bitsSet r₀.toggleBitMask == 1 then state.getLsbD p
      else bit ^^ state.getLsbD p) := by
  obtain ⟨r, hsame, hstate, hquiet, hword⟩ := hx
  have hcount := hsame.field bitCount fun _ _ _ _ _ _ _ _ _ => rfl
  have hrcmm := hsame.field isRcmm fun _ _ _ _ _ _ _ _ _ => rfl
  have hxmp := hsame.field isXmp fun _ _ _ _ _ _ _ _ _ => rfl
  have htoggle := hsame.field IrRemote.toggleBitMask fun _ _ _ _ _ _ _ _ _ => rfl
  have hcode := hsame.field (fun r => genIrCode r r.preData (buttonCode r₀ x.code) r.postData)
    fun _ _ _ _ _ _ _ _ _ => rfl
  have hsent := sentWord_getLsbD hquiet (by rw [hcount]; exact hle) (hword.symm.trans hw) hp
  rw [hsent, hcount, hcode, sentBit, toggledBit, hrcmm, hxmp, htoggle, hmask, hstate, if_pos rfl]

/-- The toggle bits of two words differ where the difference says so. -/
theorem Emits.difference {x y : Attempt} {n : ℕ} {w v : IrCode} (hle : bitCount r₀ ≤ 64)
    (hx : Emits r₀ state x) (hy : Emits r₀ (state ^^^ flips r₀.toggleBitMask (n + 1)) y)
    (hw : x.word = some w) (hv : y.word = some v) :
    (w &&& r₀.toggleBitMask) ^^^ (v &&& r₀.toggleBitMask) =
      toggleDifference r₀ x.code y.code n := by
  apply BitVec.eq_of_getLsbD_eq
  intro p hp
  rw [BitVec.getLsbD_xor, BitVec.getLsbD_and, BitVec.getLsbD_and, toggleDifference,
    BitVec.getLsbD_and, BitVec.getLsbD_and, genMask_getLsbD hp]
  cases hmask : r₀.toggleBitMask.getLsbD p with
  | false => simp only [Bool.and_false, Bool.false_and, Bool.xor_false]
  | true =>
      rw [hx.getLsbD hle hw hp hmask, hy.getLsbD hle hv hp hmask]
      cases decide (p < bitCount r₀) with
      | false => simp only [Bool.and_false, Bool.false_and, Bool.xor_false]
      | true =>
          simp only [Bool.true_and, Bool.and_true]
          split
          · rw [BitVec.getLsbD_xor]
          · split
            · rw [BitVec.getLsbD_xor, ← Bool.xor_assoc, Bool.xor_self, Bool.false_xor]
            · simp only [BitVec.getLsbD_xor]
              grind

/-- Two transmissions with so many others between them differ in their toggle
bits if and only if the remote has bits to send and the difference is not zero. -/
theorem toggleBits_ne_iff {x y : Attempt} {n : ℕ} (hle : bitCount r₀ ≤ 64)
    (hx : Emits r₀ state x) (hy : Emits r₀ (state ^^^ flips r₀.toggleBitMask (n + 1)) y) :
    x.toggleBits r₀ ≠ y.toggleBits r₀ ↔
      sendsBits r₀ = true ∧ toggleDifference r₀ x.code y.code n ≠ 0 := by
  have hsome : ∀ {s z}, Emits r₀ s z → z.word.isSome = sendsBits r₀ := by
    rintro s z ⟨r, hsame, -, -, hword⟩
    rw [hword, sentWord_isSome]
    exact hsame.field sendsBits fun _ _ _ _ _ _ _ _ _ => rfl
  have hxsome := hsome hx
  have hysome := hsome hy
  rw [Attempt.toggleBits, Attempt.toggleBits]
  cases hw : x.word with
  | none =>
      rw [hw, Option.isSome_none] at hxsome
      rw [← hxsome, Option.isSome_eq_false_iff, Option.isNone_iff_eq_none] at hysome
      rw [hysome, ← hxsome]
      simp
  | some w =>
      rw [hw, Option.isSome_some] at hxsome
      rw [← hxsome, Option.isSome_iff_exists] at hysome
      obtain ⟨v, hv⟩ := hysome
      have hdiff := hx.difference hle hy hw hv
      rw [hv, ← hxsome, ← hdiff, Option.map_some, Option.map_some, Ne, Option.some_inj]
      refine ⟨fun hne => ⟨rfl, fun hzero => hne (BitVec.xor_eq_zero_iff.mp hzero)⟩, ?_⟩
      rintro ⟨-, hne⟩ heq
      exact hne (BitVec.xor_eq_zero_iff.mpr heq)

end Runs

/-- Two transmissions of a run succeed, and nothing but `n` failures lies between
them. -/
def SuccessivePresses (env : Env) (a : ℕ) (d : Daemon) (events : List SendEvent) (x y : Attempt)
    (n : ℕ) : Prop :=
  ∃ before failed after, attempts env a d events = before ++ x :: (failed ++ y :: after) ∧
    x.succeeded = true ∧ y.succeeded = true ∧ (∀ z ∈ failed, z.succeeded = false) ∧
    failed.length = n

/-- Two successive presses that are transmitted have different toggle bits exactly
when the remote sends bits and these differ after the flips: those of a mask of
one bit after an even number of failures, those of a mask of several bits after
an even number of failures or where the codes of the buttons differ, but not
where both is so, and those of RC-MM and XMP where the codes differ. -/
theorem presses_toggle_iff (env : Env) (a : ℕ) (d : Daemon) (events : List SendEvent)
    (x y : Attempt) (n : ℕ) (hmask : hasToggleBitMask (d.heap a) = true)
    (hle : bitCount (d.heap a) ≤ 64) (hpresses : SuccessivePresses env a d events x y n) :
    x.toggleBits (d.heap a) ≠ y.toggleBits (d.heap a) ↔
      sendsBits (d.heap a) = true ∧ toggleDifference (d.heap a) x.code y.code n ≠ 0 := by
  obtain ⟨before, failed, after, hsplit, -, -, -, rfl⟩ := hpresses
  have hstart : HasToggles (d.heap a) a (d.heap a).toggleBitMaskState d := ⟨SameRemote.refl _, rfl⟩
  have hxget : (attempts env a d events)[before.length]? = some x := by
    rw [hsplit, List.getElem?_append_right le_rfl, Nat.sub_self, List.getElem?_cons_zero]
  have hyget : (attempts env a d events)[before.length + 1 + failed.length]? = some y := by
    rw [hsplit, List.getElem?_append_right (by omega),
      show before.length + 1 + failed.length - before.length = failed.length + 1 by omega,
      List.getElem?_cons_succ, List.getElem?_append_right le_rfl, Nat.sub_self,
      List.getElem?_cons_zero]
  have hxemits := attempts_emit hmask hstart events hxget
  have hyemits := attempts_emit hmask hstart events hyget
  rw [show before.length + 1 + failed.length + 1 = before.length + 1 + (failed.length + 1) by omega,
    flips_add, ← BitVec.xor_assoc] at hyemits
  exact toggleBits_ne_iff hle hxemits hyemits

/-- A remote with one button whose highest bit toggles. -/
def togglingRemote : IrRemote where
  name := "tv".toList
  codes := [{ name := "ok".toList, code := 1 }]
  bits := 8
  flags := spaceEnc
  pone := 500
  sone := 1500
  pzero := 500
  szero := 500
  ptrail := 500
  gap := 100000
  toggleBitMask := 0x80

/-- A daemon with this remote and one client. -/
def togglingDaemon : Daemon :=
  { emptyDaemon with heap := fun _ => togglingRemote, remotes := [0], clis := fun _ => 7, clin := 1 }

/-- A driver that fails once, after so many answers of the system. -/
def failingEnv (k : ℕ) : Env :=
  { quietEnv with
    sendFunc := fun n rep r c buf =>
      if n = k then (false, r, buf) else initSendDriver 3 rep r c buf
    sendFunc_transmits := by
      intro n rep r c buf
      split
      · exact Transmits.refl r
      · exact initSendDriver_transmits 3 rep r c buf }

/-- A SEND_ONCE for the button. -/
def onceOk : SendEvent := .command true 7 (okLine "SEND_ONCE") (some "tv ok".toList)

/-- Nothing fails: the highest bit changes. -/
theorem presses_toggle_in_order :
    Attempt.toggleBits togglingRemote ⟨0, some 0x81, true⟩ ≠
        Attempt.toggleBits togglingRemote ⟨0, some 0x01, true⟩ ↔
      sendsBits togglingRemote = true ∧ toggleDifference togglingRemote 0 0 0 ≠ 0 :=
  presses_toggle_iff (failingEnv 100) 0 togglingDaemon [onceOk, onceOk] ⟨0, some 0x81, true⟩
    ⟨0, some 0x01, true⟩ 0 (by decide) (by decide)
    ⟨[], [], [], by decide +kernel, rfl, rfl, List.forall_mem_nil _, rfl⟩

/-- One transmission fails between two that succeed: these are the same. -/
theorem presses_toggle_fails :
    ¬ ∀ (env : Env) (a : ℕ) (d : Daemon) (events : List SendEvent) (x y : Attempt) (n : ℕ),
      hasToggleBitMask (d.heap a) = true → bitCount (d.heap a) ≤ 64 →
      SuccessivePresses env a d events x y n →
      x.toggleBits (d.heap a) ≠ y.toggleBits (d.heap a) := by
  intro h
  have hfailed : ∀ z ∈ [(⟨0, some 0x01, false⟩ : Attempt)], z.succeeded = false := by
    intro z hz
    rw [List.mem_singleton.mp hz]
  have hpresses : SuccessivePresses (failingEnv 5) 0 togglingDaemon [onceOk, onceOk, onceOk]
      ⟨0, some 0x81, true⟩ ⟨0, some 0x81, true⟩ 1 :=
    ⟨[], [⟨0, some 0x01, false⟩], [], by decide +kernel, rfl, rfl, hfailed, rfl⟩
  exact h (failingEnv 5) 0 togglingDaemon _ _ _ 1 (by decide) (by decide) hpresses rfl

end Lirc
