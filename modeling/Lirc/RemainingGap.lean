import Lirc.SendLoop
import Lirc.Symbols
import Lirc.TogglePairs

/-!
The gap that remains after a signal. `init_send` sets it after each frame,
`receive_decode` computes it at two places, and `map_gap` for the drivers that
measure the signal themselves. For a remote with `CONST_LENGTH` the signal and the
gap behind it take the time that the configuration gives.
-/

namespace Lirc

open Signal

/-! ### `map_gap` -/

/-- `time_elapsed` as a `lirc_t` -/
def timeElapsed (last current : ℕ) : ℤ := Int.bmod (current - last) (2 ^ 32)

/-- `map_gap`: the flag for a repeat and the remaining gaps. Times are in
microseconds. -/
def mapGap (hw : Hardware) (r : IrRemote) (start last : ℕ) (signalLength : ℤ) : Bool × ℤ × ℤ :=
  let repeatFlag :=
    if 2 ≤ (start / 1000000 : ℤ) - last / 1000000 then false
    else expectAtMost hw r (timeElapsed last start) r.maxRemainingGap
  if isConst r then
    if signalLength < minGap r then
      (repeatFlag, minGap r - signalLength, maxGap r - signalLength)
    else
      (repeatFlag, 0, if signalLength < maxGap r then maxGap r - signalLength else 0)
  else (repeatFlag, minGap r, maxGap r)

/-! ### The frames of `init_send` -/

/-- The gaps that `init_send` sets after a frame of this length; a gap that is too short
is set before the call fails. -/
def gapAfter (r : IrRemote) (rep : Bool) (length : ℤ) : ℤ × ℤ :=
  (remainingGap r rep length).getD (minGap r, maxGap r)

/-- The last frame after which the loop of `init_send` sets the gaps: whether it is a
repetition, and its length. -/
def lastGap (r : IrRemote) (code : IrNcode) : ℕ → Bool → SBuf → TxState → Option (Bool × ℤ)
  | 0, _, _, _ => none
  | fuel + 1, rep, b, tx =>
      match buildFrame r code false rep b tx with
      | none => none
      | some (b', tx') =>
          let b' := syncSendBuffer b'
          if badSendBuffer b' then none
          else
            match remainingGap r rep b'.sum with
            | none => some (rep, b'.sum)
            | some (gmin, gmax) =>
                let ts := nextTransmitState r code tx'.transmitState
                let tx' := { tx' with minRemainingGap := gmin, maxRemainingGap := gmax,
                                      transmitState := ts }
                if (0 < tx'.repeatCountdown ∨ ts ≠ []) ∧ gmin < exactGapThreshold then
                  let tx' :=
                    if code.next = [] ∨ ts = [] then
                      { tx' with repeatCountdown := tx'.repeatCountdown - 1 }
                    else tx'
                  let next := { flushSendBuffer (sendSpace (unrollRaw b') gmin) with sum := 0 }
                  (lastGap r code fuel true next tx').or (some (rep, b'.sum))
                else some (rep, b'.sum)

/-- The last frame after which `init_send` sets the gaps, if there is one. -/
def lastGapOf (r : IrRemote) (code : IrNcode) (repeating : Bool) (b : SBuf) (fuel : ℕ) :
    Option (Bool × ℤ) :=
  if cannotSend r then none
  else lastGap r code fuel repeating (startBuffer r b) (startTx r code repeating)

section Sending

variable {r : IrRemote} {code : IrNcode} {fuel : ℕ} {rep : Bool} {b : SBuf} {tx : TxState}
  {frames : List Frame} {out : SendOut}

/-- The gaps before a call. -/
def TxState.gaps (tx : TxState) : ℤ × ℤ := (tx.minRemainingGap, tx.maxRemainingGap)

theorem buildFrame_gaps {sim : Bool} {b' : SBuf} {tx' : TxState}
    (h : buildFrame r code sim rep b tx = some (b', tx')) : tx'.gaps = tx.gaps := by
  unfold buildFrame at h
  split at h
  · obtain ⟨-, rfl⟩ := Prod.mk.inj (Option.some.inj h)
    rfl
  · split at h
    · obtain ⟨-, rfl⟩ := Prod.mk.inj (Option.some.inj h)
      split <;> rfl
    · split at h
      · cases h
      · split at h
        · obtain ⟨-, rfl⟩ := Prod.mk.inj (Option.some.inj h)
          rfl
        · obtain ⟨-, rfl⟩ := Prod.mk.inj (Option.some.inj h)
          rfl

/-- What the loop leaves are the gaps after the last frame that sets them. -/
theorem initSendLoop_gaps (hrun : initSendLoop r code false fuel rep b tx frames = some out) :
    out.tx.gaps =
      ((lastGap r code fuel rep b tx).map fun x => gapAfter r x.1 x.2).getD tx.gaps := by
  induction fuel generalizing rep b tx frames with
  | zero => cases hrun
  | succ fuel ih =>
      rw [initSendLoop] at hrun
      rw [lastGap]
      rcases hbuild : buildFrame r code false rep b tx with _ | ⟨b', tx'⟩
      · rw [hbuild] at hrun
        obtain rfl := Option.some.inj hrun
        rfl
      · rw [hbuild] at hrun
        dsimp only at hrun ⊢
        split at hrun
        · next hbad =>
            rw [if_pos hbad]
            obtain rfl := Option.some.inj hrun
            exact buildFrame_gaps hbuild
        · next hgood =>
            rw [if_neg hgood]
            rw [if_neg Bool.false_ne_true] at hrun
            rcases hgap : remainingGap r rep (syncSendBuffer b').sum with _ | ⟨gmin, gmax⟩
            · rw [hgap] at hrun
              obtain rfl := Option.some.inj hrun
              simp only [Option.map_some, Option.getD_some, gapAfter, hgap]
              rfl
            · rw [hgap] at hrun
              dsimp only at hrun ⊢
              split at hrun
              · next hnext =>
                  rw [if_pos hnext, ih hrun]
                  generalize lastGap r code fuel true _ _ = last
                  cases last with
                  | some x => rfl
                  | none =>
                      simp only [Option.none_or, Option.map_some, Option.map_none,
                        Option.getD_some, Option.getD_none, gapAfter, hgap]
                      split <;> rfl
              · next hend =>
                  rw [if_neg hend]
                  obtain rfl := Option.some.inj hrun
                  simp only [Option.map_some, Option.getD_some, gapAfter, hgap]
                  rfl

end Sending

/-! ### The length of a repeat frame -/

/-- How long a repeat frame is up to its last pulse: the space behind it is part of the
gap. -/
def repeatLength (r : IrRemote) : ℤ :=
  (if r.has repeatHeader && hasHeader r then r.phead + r.shead else 0) +
    (max r.plead 0 + r.prepeat) + if r.ptrail ≠ 0 then r.srepeat + max r.ptrail 0 else 0

/-- What has been added to the buffer, unless it is full, and what is pending. -/
structure SBuf.Holds (b : SBuf) (sum p s : ℤ) : Prop where
  sum : b.tooLong = false → b.sum = sum
  pendingp : max b.pendingp 0 = p
  pendings : max b.pendings 0 = s

/-- Nothing is in the frame. -/
structure SBuf.Rested (b : SBuf) : Prop where
  pendingp : b.pendingp ≤ 0
  pendings : b.pendings ≤ 0
  sum : b.sum = 0

namespace SBuf

variable {b : SBuf} {sum p s x : ℤ}

theorem Rested.holds (h : b.Rested) : b.Holds 0 0 0 :=
  ⟨fun _ => h.sum, max_eq_right h.pendingp, max_eq_right h.pendings⟩

theorem Holds.add (h : b.tooLong = false → b.sum = sum)
    (hfit : (addSendBuffer b x).tooLong = false) : (addSendBuffer b x).sum = sum + x := by
  unfold addSendBuffer at hfit ⊢
  split at hfit
  · next hroom =>
      rw [dif_pos hroom]
      exact congrArg (· + x) (h hfit)
  · cases hfit

/-- A pulse behind a space, which is added. -/
theorem Holds.pulse (h : b.Holds sum 0 s) : (sendPulse b x).Holds (sum + s) (max x 0) 0 := by
  have hp : ¬0 < b.pendingp := by
    have hmax := h.pendingp
    omega
  have hs := h.pendings
  rw [sendPulse, if_neg hp]
  split
  · next hpos =>
      rw [max_eq_left hpos.le] at hs
      exact ⟨fun hfit => hs ▸ Holds.add h.sum hfit, rfl, rfl⟩
  · next hle =>
      have hzero : s = 0 := by omega
      rw [hzero, Int.add_zero]
      exact ⟨h.sum, rfl, hs.trans hzero⟩

/-- A pulse that goes on. -/
theorem Holds.longer (h : b.Holds sum p 0) (hx : 0 < x) : (sendPulse b x).Holds sum (p + x) 0 := by
  by_cases hp : 0 < b.pendingp
  · have hmax := h.pendingp
    rw [sendPulse, if_pos hp]
    refine ⟨h.sum, ?_, h.pendings⟩
    dsimp only
    omega
  · have hzero : p = 0 := by
      have hmax := h.pendingp
      omega
    subst hzero
    have hpulse := h.pulse (x := x)
    rw [Int.add_zero, max_eq_left hx.le] at hpulse
    rwa [Int.zero_add]

/-- A space behind a pulse, which is added. -/
theorem Holds.space (h : b.Holds sum p 0) (hp : 0 < p) (hx : 0 < x) :
    (sendSpace b x).Holds (sum + p) 0 x := by
  have hpending := h.pendingp
  have hspace := h.pendings
  have hpos : 0 < b.pendingp := by omega
  have heq : b.pendingp = p := by omega
  rw [sendSpace, if_neg (by omega), if_neg (by omega), if_pos hpos]
  refine ⟨fun hfit => ?_, rfl, max_eq_left hx.le⟩
  rw [← heq]
  exact Holds.add h.sum hfit

/-- The last pulse is added. -/
theorem Holds.close (h : b.Holds sum p s) (hfit : (closePulse b).tooLong = false) :
    (closePulse b).sum = sum + p := by
  have hmax := h.pendingp
  unfold closePulse at hfit ⊢
  split at hfit
  · next hpos =>
      rw [if_pos hpos, ← hmax, max_eq_left hpos.le]
      exact Holds.add h.sum hfit
  · next hle =>
      rw [if_neg hle, h.sum hfit]
      omega

end SBuf

section RepeatFrame

variable {r : IrRemote} {b : SBuf}

theorem sendParts_headerParts (hheader : hasHeader r = true) (h : b.Holds 0 0 0) :
    (sendParts b (headerParts r)).Holds r.phead 0 r.shead := by
  obtain ⟨hp, hs⟩ := (Bool.and_eq_true _ _).mp hheader
  have hp := of_decide_eq_true hp
  have hpulse := h.pulse (x := r.phead)
  rw [headerParts, if_pos hheader]
  have hspace := hpulse.space (by omega) (of_decide_eq_true hs)
  rwa [Int.zero_add, Int.zero_add, max_eq_left hp.le] at hspace

/-- A repeat frame that fits is as long as the configuration says. -/
theorem sendParts_repeatParts_sum (hr : hasRepeat r = true) (h : b.Rested)
    (hfit : (closePulse (sendParts b (repeatParts r))).tooLong = false) :
    (closePulse (sendParts b (repeatParts r))).sum = repeatLength r := by
  obtain ⟨hp, hs⟩ := (Bool.and_eq_true _ _).mp hr
  have hp := of_decide_eq_true hp
  have hs := of_decide_eq_true hs
  have hheader : ∃ sum s, (sendParts b
      (if r.has repeatHeader && hasHeader r then headerParts r else [])).Holds sum 0 s ∧
        sum + s = if r.has repeatHeader && hasHeader r then r.phead + r.shead else 0 := by
    split
    · next hboth =>
        exact ⟨_, _, sendParts_headerParts ((Bool.and_eq_true _ _).mp hboth).2 h.holds, rfl⟩
    · exact ⟨_, _, h.holds, rfl⟩
  obtain ⟨sum, s, hheader, hsum⟩ := hheader
  rw [repeatLength, ← hsum]
  rw [repeatParts, sendParts_append, sendParts_append, sendParts_append] at hfit ⊢
  generalize sendParts b (if r.has repeatHeader && hasHeader r then headerParts r else []) = b₁ at *
  have hpulse : (sendPulse (sendParts b₁ (leadParts r)) r.prepeat).Holds (sum + s)
      (max r.plead 0 + r.prepeat) 0 := by
    rw [leadParts]
    split
    · exact hheader.pulse.longer hp
    · next hnone =>
        have hzero : r.plead = 0 := not_not.mp hnone
        have hpulse := hheader.pulse (x := r.prepeat)
        rw [max_eq_left hp.le] at hpulse
        rwa [hzero, max_self, Int.zero_add]
  have hspace := hpulse.space (by omega) hs
  change (closePulse (sendParts (sendSpace (sendPulse (sendParts b₁ (leadParts r)) r.prepeat)
    r.srepeat) (trailParts r))).tooLong = false at hfit
  change (closePulse (sendParts (sendSpace (sendPulse (sendParts b₁ (leadParts r)) r.prepeat)
    r.srepeat) (trailParts r))).sum = _
  generalize sendSpace (sendPulse (sendParts b₁ (leadParts r)) r.prepeat) r.srepeat = b₂ at *
  rw [trailParts] at hfit ⊢
  split at hfit
  · next htrail =>
      rw [if_pos htrail, if_pos htrail]
      have hsum := hspace.pulse.close hfit
      calc (closePulse (sendPulse b₂ r.ptrail)).sum
          = sum + s + (max r.plead 0 + r.prepeat) + r.srepeat + max r.ptrail 0 := hsum
        _ = sum + s + (max r.plead 0 + r.prepeat) + (r.srepeat + max r.ptrail 0) :=
          Int.add_assoc _ _ _
  · next hnone =>
      rw [if_neg hnone, if_neg hnone]
      exact hspace.close hfit

end RepeatFrame

section Repeating

variable {r : IrRemote} {code : IrNcode} {fuel : ℕ} {rep : Bool} {b b' : SBuf} {tx tx' : TxState}
  {x : Bool × ℤ}

theorem startBuffer_rested (r : IrRemote) (b : SBuf) : (startBuffer r b).Rested :=
  ⟨le_rfl, le_rfl, rfl⟩

theorem addGap_rested (b : SBuf) (gmin : ℤ) : (addGap b gmin).Rested := by
  refine ⟨?_, closeSpace_pendings_le _, rfl⟩
  have hclosed : ∀ c : SBuf, (closeSpace c).pendingp = c.pendingp := by
    intro c
    rw [closeSpace]
    split
    · exact addSendBuffer_pendingp c _
    · rfl
  rw [addGap_eq_close]
  exact (hclosed _).trans_le (closePulse_pendingp_le _)

theorem buildFrame_repeatLength (h : b.Rested) (hrep : (rep && hasRepeat r) = true)
    (hbuild : buildFrame r code false rep b tx = some (b', tx'))
    (hgood : ¬badSendBuffer (syncSendBuffer b') = true) :
    (syncSendBuffer b').sum = repeatLength r := by
  rw [buildFrame_repeat code false hrep] at hbuild
  obtain ⟨rfl, -⟩ := Prod.mk.inj (Option.some.inj hbuild)
  rw [badSendBuffer_sync] at hgood
  rw [syncSendBuffer_eq, (dropSpace_frame _).2.2.2.2]
  exact sendParts_repeatParts_sum ((Bool.and_eq_true _ _).mp hrep).2 h (eq_false_of_ne_true hgood)

/-- The last frame is the one that is due, or one of the repetitions that follow. -/
theorem lastGap_cases (h : lastGap r code (fuel + 1) rep b tx = some x) :
    ∃ b' tx', buildFrame r code false rep b tx = some (b', tx') ∧
      ¬badSendBuffer (syncSendBuffer b') = true ∧
      (x = (rep, (syncSendBuffer b').sum) ∨
        ∃ gmin tx'', lastGap r code fuel true (addGap (unrollRaw (syncSendBuffer b')) gmin) tx'' =
          some x) := by
  rw [lastGap] at h
  split at h
  · cases h
  · next b' tx' hbuild =>
      dsimp only at h
      split at h
      · cases h
      · next hgood =>
          refine ⟨b', tx', hbuild, hgood, ?_⟩
          split at h
          · exact .inl (Option.some.inj h).symm
          · next gmin gmax hgap =>
              split at h
              · rcases Option.or_eq_some_iff.mp h with hlater | ⟨-, hnow⟩
                · exact .inr ⟨gmin, _, hlater⟩
                · exact .inl (Option.some.inj hnow).symm
              · exact .inl (Option.some.inj h).symm

theorem lastGap_isSome (fuel : ℕ) (hbuild : buildFrame r code false rep b tx = some (b', tx'))
    (hgood : ¬badSendBuffer (syncSendBuffer b') = true) :
    ∃ x, lastGap r code (fuel + 1) rep b tx = some x := by
  rw [lastGap, hbuild]
  dsimp only
  rw [if_neg hgood]
  split
  · exact ⟨_, rfl⟩
  · split
    · exact Option.isSome_iff_exists.mp (by rw [Option.isSome_or, Option.isSome_some, Bool.or_true])
    · exact ⟨_, rfl⟩

theorem lastGap_repeatLength (h : b.Rested) (hlast : lastGap r code fuel rep b tx = some x)
    (hrep : (x.1 && hasRepeat r) = true) : x.2 = repeatLength r := by
  induction fuel generalizing rep b tx with
  | zero => cases hlast
  | succ fuel ih =>
      obtain ⟨b', tx', hbuild, hgood, rfl | ⟨gmin, tx'', hlater⟩⟩ := lastGap_cases hlast
      · exact buildFrame_repeatLength h hrep hbuild hgood
      · exact ih (addGap_rested _ _) hlater

/-- All frames of a repetition are repetitions. -/
theorem lastGap_repeating (h : lastGap r code fuel true b tx = some x) : x.1 = true := by
  induction fuel generalizing b tx with
  | zero => cases h
  | succ fuel ih =>
      obtain ⟨b', tx', -, -, rfl | ⟨gmin, tx'', hlater⟩⟩ := lastGap_cases h
      · rfl
      · exact ih hlater

theorem repeatParts_length_le (r : IrRemote) : (repeatParts r).length ≤ 6 := by
  have hheader : (if r.has repeatHeader && hasHeader r then headerParts r else []).length ≤ 2 := by
    rw [headerParts]
    split
    · split <;> simp
    · exact Nat.zero_le _
  have hlead : (leadParts r).length ≤ 1 := by
    rw [leadParts]
    split <;> simp
  have htrail : (trailParts r).length ≤ 1 := by
    rw [trailParts]
    split <;> simp
  rw [repeatParts, List.length_append, List.length_append, List.length_append, List.length_cons,
    List.length_singleton]
  omega

/-- There is room for a repeat frame. -/
theorem startBuffer_repeat_fits (r : IrRemote) (b : SBuf) :
    (closePulse (sendParts (startBuffer r b) (repeatParts r))).tooLong = false := by
  have hlength := repeatParts_length_le r
  refine sendParts_fits rfl ?_
  show 0 + (repeatParts r).length < 256
  omega

/-- A repetition of a remote with a repeat code ends with the gap of a repeat frame. -/
theorem initSend_repeats (hsend : cannotSend r = false) (hr : hasRepeat r = true)
    (hnext : code.next = []) (hstate : code.transmitState = []) :
    ∃ fuel out, initSend r code true b fuel = some out ∧
      lastGapOf r code true b fuel = some (true, repeatLength r) := by
  have hts : InSequence code code.transmitState := by
    rw [hstate]
    exact List.nil_suffix
  have hstart : InSequence code (startTx r code true).transmitState := hts
  obtain ⟨out, hrun⟩ :=
    initSendLoop_ends (Or.inr hnext) hstart le_rfl true (startBuffer r b) []
  refine ⟨_, out, (initSend_eq _ _ _ _ _ hsend).trans hrun, ?_⟩
  have hfit := startBuffer_repeat_fits r b
  have hrep : (true && hasRepeat r) = true := hr
  obtain ⟨x, hx⟩ := lastGap_isSome (roundsLeft code (startTx r code true))
    (buildFrame_repeat (r := r) code false hrep (startBuffer r b) (startTx r code true))
    (by rw [badSendBuffer_sync, hfit]; exact Bool.false_ne_true)
  have hflag := lastGap_repeating hx
  have hlength := lastGap_repeatLength (startBuffer_rested r b) hx (by rw [hflag]; exact hr)
  rw [lastGapOf, if_neg (by rw [hsend]; exact Bool.false_ne_true), hx, ← hflag, ← hlength]

end Repeating

/-! ### The gaps of `receive_decode` -/

section Receiving

variable {hw : Hardware} {r r' : IrRemote} {last : LastRemote} {now : ℕ} {sync : ℤ} {header : Bool}
  {b b' : RBuf} {d : Decoded}

/-- The remaining gaps after a signal that was received. -/
def Decoded.GapsFrom (d : Decoded) (r : IrRemote) (length : ℤ) : Prop :=
  if isConst r then
    d.minRemainingGap = remainingAfter length (minGap r) ∧
      d.maxRemainingGap = remainingAfter length (maxGap r)
  else
    d.minRemainingGap = minGap r ∧ d.maxRemainingGap = maxGap r ∨
      d.minRemainingGap = r.repeatGap ∧ d.maxRemainingGap = r.repeatGap

theorem decodedOf_gaps (r : IrRemote) (pre code post : IrCode) (sync : ℤ) (now : ℕ) (b : RBuf) :
    (decodedOf hw r pre code post sync now b).GapsFrom r b.sum := by
  rw [Decoded.GapsFrom, decodedOf]
  dsimp only
  split
  · exact ⟨rfl, rfl⟩
  · exact .inl ⟨rfl, rfl⟩

theorem decodeRepeat_gaps (h : decodeRepeat hw r last b = .inl (some d, r', b')) :
    d.GapsFrom r' b'.sum := by
  unfold decodeRepeat at h
  generalize (if r.has repeatHeader && hasHeader r then getHeader hw r b else (true, b)) = x at h
  rcases x with ⟨_ | _, b₁⟩
  · cases h
  dsimp only [Bool.not_true] at h
  generalize getRepeat hw r b₁ = y at h
  rcases y with ⟨_ | _, b₂⟩
  · cases h
  · cases hlast : r.lastCode with
    | none =>
        rw [hlast] at h
        cases h
    | some i =>
        rw [hlast] at h
        obtain ⟨hd, hrest⟩ := Prod.mk.inj (Sum.inl.inj h)
        obtain ⟨rfl, rfl⟩ := Prod.mk.inj hrest
        rw [← Option.some.inj hd, Decoded.GapsFrom]
        dsimp only
        split
        · exact ⟨rfl, rfl⟩
        · split
          · exact .inr ⟨rfl, rfl⟩
          · exact .inl ⟨rfl, rfl⟩

theorem decodeSignal_gaps (h : decodeSignal hw r last now sync header b = (some d, r', b')) :
    d.GapsFrom r' b'.sum := by
  have hof : ∀ {r₁ : IrRemote} {pre code post : IrCode} {sync : ℤ} {b₁ : RBuf},
      (some (decodedOf hw r₁ pre code post sync now b₁), r₁, b₁) = (some d, r', b') →
        d.GapsFrom r' b'.sum := by
    intro r₁ pre code post sync b₁ heq
    obtain ⟨hd, hrest⟩ := Prod.mk.inj heq
    obtain ⟨rfl, rfl⟩ := Prod.mk.inj hrest
    rw [← Option.some.inj hd]
    exact decodedOf_gaps r₁ pre code post sync now b₁
  unfold decodeSignal at h
  split at h
  · split at h
    · cases h
    · split at h
      · cases h
      · exact hof h
  · split at h
    · split at h
      · cases h
      · exact hof h
    · split at h
      · cases h
      · exact hof h

theorem receiveDecode_gaps (h : receiveDecode hw r last now b = (some d, r', b')) :
    d.GapsFrom r b'.sum := by
  have hgaps : d.GapsFrom r' b'.sum := by
    unfold receiveDecode at h
    split at h
    · dsimp only at h
      split at h
      · cases h
      · split at h
        · next out heq =>
            split at heq
            · rw [h] at heq
              exact decodeRepeat_gaps heq
            · cases heq
        · split at h
          · cases h
          · exact decodeSignal_gaps h
    · exact decodeSignal_gaps h
  have hleft := receiveDecode_leaves hw r last now b
  rw [h] at hleft
  obtain ⟨_, _, _, _, hr', -⟩ := hleft
  dsimp only at hr'
  rw [hr'] at hgaps
  exact hgaps

end Receiving

/-! ### Sender and receiver -/

/-- A call that has set the remaining gaps: the length of the signal, as it is summed up,
and the gaps. -/
inductive LeavesGaps (r : IrRemote) : ℤ → ℤ → ℤ → Prop
  | sent {code : IrNcode} {repeating : Bool} {b : SBuf} {fuel : ℕ} {out : SendOut} {rep : Bool}
      {length : ℤ} (hrun : initSend r code repeating b fuel = some out)
      (hlast : lastGapOf r code repeating b fuel = some (rep, length)) :
      LeavesGaps r length out.tx.minRemainingGap out.tx.maxRemainingGap
  | received {hw : Hardware} {last : LastRemote} {now : ℕ} {b b' : RBuf} {d : Decoded}
      {r' : IrRemote} (hrun : receiveDecode hw r last now b = (some d, r', b')) :
      LeavesGaps r b'.sum d.minRemainingGap d.maxRemainingGap
  | mapped (hw : Hardware) (start last : ℕ) (length : ℤ) :
      LeavesGaps r length (mapGap hw r start last length).2.1 (mapGap hw r start last length).2.2

/-- The gaps are in order, and together with a signal that is shorter than the gap they
take the time that is configured for a remote with `CONST_LENGTH`. -/
structure GapsAgree (r : IrRemote) (length lo hi : ℤ) : Prop where
  nonneg : 0 ≤ lo
  le : lo ≤ hi
  total : isConst r = true → length < minGap r → lo + length = minGap r ∧ hi + length = maxGap r

/-- `repeat_gap` has no effect on the sum of signal and gap: the remote is not one with
`CONST_LENGTH` that sends repeat frames with a gap of their own, or the repeat frame and
`repeat_gap` are together as long as the gap is. -/
def RepeatGapAgrees (r : IrRemote) : Prop :=
  isConst r = true → hasRepeat r = true → hasRepeatGap r = true → cannotSend r = false →
    repeatLength r < minGap r →
      r.repeatGap + repeatLength r = minGap r ∧ r.repeatGap + repeatLength r = maxGap r

section Agreement

variable {r : IrRemote}

theorem gapAfter_agrees {rep : Bool} {length : ℤ}
    (hrepeat : (hasRepeatGap r && rep && hasRepeat r) = true → isConst r = true →
      length < minGap r → r.repeatGap + length = minGap r ∧ r.repeatGap + length = maxGap r) :
    GapsAgree r length (gapAfter r rep length).1 (gapAfter r rep length).2 := by
  have hnonneg := minGap_nonneg r
  have hle := minGap_le_maxGap r
  rw [gapAfter, remainingGap]
  split
  · next hrep => exact ⟨Int.natCast_nonneg _, le_rfl, hrepeat hrep⟩
  · split
    · split
      · next hlt =>
          refine ⟨?_, ?_, fun _ _ => ⟨Int.sub_add_cancel _ _, Int.sub_add_cancel _ _⟩⟩
          · simp only [Option.getD_some]
            omega
          · simp only [Option.getD_some]
            omega
      · next hge => exact ⟨hnonneg, hle, fun _ hlt => absurd hlt hge⟩
    · next hnot => exact ⟨hnonneg, hle, fun hconst => absurd hconst hnot⟩

theorem Decoded.GapsFrom.agree {d : Decoded} {length : ℤ} (h : d.GapsFrom r length) :
    GapsAgree r length d.minRemainingGap d.maxRemainingGap := by
  have hnonneg := minGap_nonneg r
  have hle := minGap_le_maxGap r
  rw [Decoded.GapsFrom] at h
  split at h
  · obtain ⟨hmin, hmax⟩ := h
    rw [hmin, hmax, remainingAfter, remainingAfter]
    refine ⟨?_, ?_, fun _ hlt => ?_⟩
    · split <;> omega
    · split <;> split <;> omega
    · rw [if_pos hlt, if_pos (hlt.trans_le hle)]
      exact ⟨Int.sub_add_cancel _ _, Int.sub_add_cancel _ _⟩
  · next hnot =>
      rcases h with ⟨hmin, hmax⟩ | ⟨hmin, hmax⟩
      · rw [hmin, hmax]
        exact ⟨hnonneg, hle, fun hconst => absurd hconst hnot⟩
      · rw [hmin, hmax]
        exact ⟨Int.natCast_nonneg _, le_rfl, fun hconst => absurd hconst hnot⟩

theorem mapGap_agrees (hw : Hardware) (r : IrRemote) (start last : ℕ) (length : ℤ) :
    GapsAgree r length (mapGap hw r start last length).2.1 (mapGap hw r start last length).2.2 := by
  have hnonneg := minGap_nonneg r
  have hle := minGap_le_maxGap r
  rw [mapGap]
  by_cases hconst : isConst r = true
  · rw [if_pos hconst]
    by_cases hlt : length < minGap r
    · rw [if_pos hlt]
      dsimp only
      exact ⟨by omega, by omega, fun _ _ => ⟨Int.sub_add_cancel _ _, Int.sub_add_cancel _ _⟩⟩
    · rw [if_neg hlt]
      dsimp only
      exact ⟨le_rfl, by split <;> omega, fun _ hlt' => absurd hlt' hlt⟩
  · rw [if_neg hconst]
    exact ⟨hnonneg, hle, fun hconst' => absurd hconst' hconst⟩

theorem initSend_gaps {code : IrNcode} {repeating : Bool} {b : SBuf} {fuel : ℕ} {out : SendOut}
    {x : Bool × ℤ} (hrun : initSend r code repeating b fuel = some out)
    (hlast : lastGapOf r code repeating b fuel = some x) :
    cannotSend r = false ∧ out.tx.gaps = gapAfter r x.1 x.2 ∧
      ((x.1 && hasRepeat r) = true → x.2 = repeatLength r) := by
  rw [lastGapOf] at hlast
  split at hlast
  · cases hlast
  · next hsend =>
      have hsend := eq_false_of_ne_true hsend
      rw [initSend_eq _ _ _ _ _ hsend] at hrun
      have hgaps := initSendLoop_gaps hrun
      rw [hlast] at hgaps
      exact ⟨hsend, hgaps, lastGap_repeatLength (startBuffer_rested r b) hlast⟩

/-- The sender alone shows whether `repeat_gap` agrees. -/
theorem repeatGapAgrees_of_leaves
    (h : ∀ length lo hi, LeavesGaps r length lo hi → GapsAgree r length lo hi) :
    RepeatGapAgrees r := by
  intro hconst hr hgap hsend hlt
  obtain ⟨fuel, out, hrun, hlast⟩ := initSend_repeats (b := initSendBuffer) hsend hr
    (rfl : (⟨[], 0, none, [], [], []⟩ : IrNcode).next = []) rfl
  obtain ⟨-, hgaps, -⟩ := initSend_gaps hrun hlast
  have hrepeat : (hasRepeatGap r && true && hasRepeat r) = true := by
    rw [hgap, hr]
    rfl
  rw [gapAfter, remainingGap, if_pos hrepeat] at hgaps
  obtain ⟨hlo, hhi⟩ := Prod.mk.inj hgaps
  have htotal := (h _ _ _ (.sent hrun hlast)).total hconst hlt
  rwa [hlo, hhi] at htotal

/-- The gaps that are left agree exactly for the remotes whose `repeat_gap` agrees. -/
theorem leavesGaps_agree_iff (r : IrRemote) :
    (∀ length lo hi, LeavesGaps r length lo hi → GapsAgree r length lo hi) ↔
      RepeatGapAgrees r := by
  constructor
  · exact repeatGapAgrees_of_leaves
  · intro h length lo hi hleaves
    cases hleaves with
    | sent hrun hlast =>
        obtain ⟨hsend, hgaps, hlength⟩ := initSend_gaps hrun hlast
        dsimp only at hgaps hlength
        have hagree := gapAfter_agrees fun hrepeat hconst (hlt : length < minGap r) => by
          simp only [Bool.and_eq_true] at hrepeat
          obtain ⟨⟨hgap, hrep⟩, hr⟩ := hrepeat
          have hlength := hlength ((Bool.and_eq_true _ _).mpr ⟨hrep, hr⟩)
          rw [hlength] at hlt ⊢
          exact h hconst hr hgap hsend hlt
        rwa [← hgaps] at hagree
    | received hrun => exact (receiveDecode_gaps hrun).agree
    | mapped hw start last length => exact mapGap_agrees hw r start last length

/-- A remote with `CONST_LENGTH` and a `repeat_gap`. -/
def constRepeatRemote : IrRemote where
  flags := spaceEnc ||| constLength
  prepeat := 9000
  srepeat := 2250
  ptrail := 560
  gap := 108000
  repeatGap := 96000

/-- Its repeat frame and `repeat_gap` are shorter than the gap. -/
theorem leavesGaps_disagree :
    ¬∀ (r : IrRemote) (length lo hi : ℤ), LeavesGaps r length lo hi → GapsAgree r length lo hi := by
  intro h
  have hagrees := repeatGapAgrees_of_leaves (h constRepeatRemote)
  exact absurd (hagrees (by decide) (by decide) (by decide) (by decide) (by decide)) (by decide)

end Agreement

end Lirc
