import Lirc.Daemon
import Lirc.Frames

/-!
A driver whose `send_func` calls `init_send` and then hands the samples over.
What it leaves in the remote is what `init_send` leaves there.
-/

namespace Lirc

/-- The remote after `init_send` for the code `c`. -/
def SendOut.leave (out : SendOut) (r : IrRemote) (c : ℕ) : IrRemote :=
  { r with
    repeatCountdown := out.tx.repeatCountdown
    toggleMaskState := out.tx.toggleMaskState
    minRemainingGap := out.tx.minRemainingGap
    maxRemainingGap := out.tx.maxRemainingGap
    codes := r.codes.modify c fun code => { code with transmitState := out.tx.transmitState } }

/-- `hw.send_func` of a driver that can always pass on what `init_send` has
built. -/
def initSendDriver (fuel : ℕ) (rep : Bool) (r : IrRemote) (c : ℕ) (buf : SBuf) :
    Bool × IrRemote × SBuf :=
  match r.codes[c]?.bind fun code => initSend r code rep buf fuel with
  | none => (false, r, buf)
  | some out => (out.ok, out.leave r c, out.buf)

theorem Transmits.refl (r : IrRemote) : Transmits r r := ⟨_, _, _, _, _, rfl, rfl⟩

theorem Transmits.trans {r r' r'' : IrRemote} (h : Transmits r r') (h' : Transmits r' r'') :
    Transmits r r'' := by
  obtain ⟨_, _, _, _, codes, rfl, hcodes⟩ := h
  obtain ⟨_, _, _, _, codes', rfl, hcodes'⟩ := h'
  exact ⟨_, _, _, _, codes', rfl, hcodes'.trans hcodes⟩

/-- The codes keep their names, their sequences and their signals. -/
theorem map_modify_transmitState (codes : List IrNcode) (c : ℕ) (ts : List IrCode) :
    (codes.modify c fun code => { code with transmitState := ts }).map
        (fun code => { code with transmitState := [] }) =
      codes.map fun code => { code with transmitState := [] } := by
  induction codes generalizing c with
  | nil => rw [List.modify_nil]
  | cons code codes ih =>
      cases c with
      | zero => rfl
      | succ c =>
          rw [List.modify_succ_cons, List.map_cons, List.map_cons, ih]

theorem initSendDriver_transmits (fuel : ℕ) (rep : Bool) (r : IrRemote) (c : ℕ) (buf : SBuf) :
    Transmits r (initSendDriver fuel rep r c buf).2.1 := by
  rw [initSendDriver]
  split
  · exact Transmits.refl r
  · exact ⟨_, _, _, _, _, rfl, map_modify_transmitState _ _ _⟩

/-- The gap that remains after the first frame of a waveform is long enough for
the alarm, so that no further frame is put into the buffer. -/
def SpacedFrame (r : IrRemote) (code : IrNcode) (rep : Bool) (b : SBuf) : Prop :=
  ∀ b' tx' gap, buildFrame r code false rep (startBuffer r b) (startTx r code rep) = some (b', tx') →
    remainingGap r rep (syncSendBuffer b').sum = some gap → exactGapThreshold ≤ gap.1

/-- Such a waveform is a single frame, and `init_send` does not count it. -/
theorem initSend_single {r : IrRemote} {code : IrNcode} {rep : Bool} {b : SBuf} {fuel : ℕ}
    {out : SendOut} (hspaced : SpacedFrame r code rep b)
    (h : initSend r code rep b fuel = some out) (hok : out.ok = true) :
    out.frames.length = 1 ∧
      out.tx.repeatCountdown = if rep then r.repeatCountdown else r.minRepeat := by
  have hsend : cannotSend r = false := by
    cases hcannot : cannotSend r with
    | false => rfl
    | true =>
        rw [initSend, initSendOrSim, if_pos hcannot] at h
        cases h
        cases hok
  rw [initSend_eq _ _ _ _ _ hsend] at h
  cases fuel with
  | zero => cases h
  | succ fuel =>
      have hcount : ∀ b' tx', buildFrame r code false rep (startBuffer r b) (startTx r code rep) =
          some (b', tx') →
          tx'.repeatCountdown = (startTx r code rep).repeatCountdown := by
        intro b' tx' hbuild
        unfold buildFrame at hbuild
        split at hbuild
        · cases hbuild
          rfl
        · split at hbuild
          · cases hbuild
            split
            · rfl
            · rfl
          · split at hbuild
            · cases hbuild
            · split at hbuild
              · cases hbuild
                rfl
              · cases hbuild
                rfl
      rw [initSendLoop] at h
      cases hbuild : buildFrame r code false rep (startBuffer r b) (startTx r code rep) with
      | none =>
          rw [hbuild] at h
          cases h
          cases hok
      | some built =>
          rw [hbuild] at h
          simp only [Bool.false_eq_true, if_false] at h
          split at h
          · cases h
            cases hok
          · cases hgap : remainingGap r rep (syncSendBuffer built.1).sum with
            | none =>
                rw [hgap] at h
                cases h
                cases hok
            | some gap =>
                rw [hgap] at h
                have hlong := hspaced built.1 built.2 gap hbuild hgap
                simp only [] at h
                rw [if_neg (fun hmore => absurd hmore.2 (by omega))] at h
                cases h
                exact ⟨rfl, hcount built.1 built.2 hbuild⟩

end Lirc
