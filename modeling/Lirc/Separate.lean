import Lirc.Frames

/-!
The frames of a transmission built one by one, each in a buffer of its own,
and what a frame adds to a buffer that holds earlier ones.

A buffer that holds samples takes every part of a signal. An empty one takes
no space before the first pulse. From that pulse on the two go in step.
-/

namespace Lirc

open Signal

/-! ### Frames of their own -/

/-- An empty buffer. -/
def loneBuffer (r : IrRemote) : SBuf :=
  { initSendBuffer with data := .own, isBiphase := isBiphase r }

/-- The samples that the spaces before the first pulse of a signal leave in a
buffer that is not empty, given the space that is pending. -/
def leadFrom : ℤ → List Part → List ℤ
  | _, [] => []
  | s, p :: ps =>
      if p.high then
        (if 0 < s then [s] else []) ++ (if 0 < p.len then [] else leadFrom 0 ps)
      else leadFrom (s + p.len) ps

/-- The frame is copied from the signals of a raw code. -/
def isRawFrame (r : IrRemote) (rep : Bool) : Bool := isRaw r && !(rep && hasRepeat r)

/-- The leading samples of the frame that is due. -/
def frameLead (r : IrRemote) (code : IrNcode) (rep : Bool) (tx : TxState) : List ℤ :=
  if isRawFrame r rep then []
  else leadFrom 0
    (frameParts (r.withToggle tx.toggleMaskState) (nextCode code false tx.transmitState) rep)

/-- The remote's gap and the code of the sequence that is due after a frame. -/
def afterFrame (r : IrRemote) (code : IrNcode) (tx : TxState) (gmin gmax : ℤ) : TxState :=
  { tx with
    minRemainingGap := gmin
    maxRemainingGap := gmax
    transmitState := nextTransmitState r code tx.transmitState }

/-- One more frame is due, and the gap before it is low. -/
def LowGap (tx : TxState) : Prop :=
  (0 < tx.repeatCountdown ∨ tx.transmitState ≠ []) ∧ tx.minRemainingGap < exactGapThreshold

instance (tx : TxState) : Decidable (LowGap tx) := inferInstanceAs (Decidable (_ ∧ _))

def countDown (code : IrNcode) (tx : TxState) : TxState :=
  if code.next = [] ∨ tx.transmitState = [] then
    { tx with repeatCountdown := tx.repeatCountdown - 1 }
  else tx

/-- A frame that was built alone. The samples are those of `body` less a
space at the end; `lead` is what the empty buffer did not take. -/
structure LoneFrame where
  rep : Bool
  lead : List ℤ
  body : List ℤ
  samples : List ℤ
  pending : ℤ
  sum : ℤ
  gap : ℤ
  deriving DecidableEq, Repr, Inhabited

/-- One frame built alone, as a single step of `init_send` builds it. -/
def separateFrame (r : IrRemote) (code : IrNcode) (rep first : Bool) (tx : TxState) :
    Option (LoneFrame × TxState) :=
  match buildFrame r code false rep (loneBuffer r) tx with
  | none => none
  | some (b, tx') =>
      let b' := syncSendBuffer b
      if badSendBuffer b' || !checkSendBuffer b' then none
      else
        match remainingGap r rep b'.sum with
        | none => none
        | some (gmin, gmax) =>
            some
              (⟨rep, if first then [] else frameLead r code rep tx, (closePulse b).samples,
                b'.samples, b'.pendings, b'.sum, gmin⟩, afterFrame r code tx' gmin gmax)

/-- So many frames of a transmission, each of them built alone. -/
def separateFrames (r : IrRemote) (code : IrNcode) :
    ℕ → Bool → Bool → TxState → Option (List LoneFrame)
  | 0, _, _, _ => some []
  | n + 1, rep, first, tx =>
      match separateFrame r code rep first tx with
      | none => none
      | some (f, tx) => (separateFrames r code n true false (countDown code tx)).map (f :: ·)

/-- The signal of frames with a space as long as the gap after each but the
last. -/
def separated : List LoneFrame → List Part
  | [] => []
  | [f] => alternate true f.samples
  | f :: g :: fs => alternate true f.samples ++ space f.gap :: separated (g :: fs)

/-- One pass through the loop of `init_send_or_sim`. -/
theorem initSendLoop_step {r : IrRemote} {code : IrNcode} {fuel : ℕ} {rep : Bool} {b : SBuf}
    {tx : TxState} {frames : List Frame} {out : SendOut}
    (hrun : initSendLoop r code false (fuel + 1) rep b tx frames = some out)
    (hok : out.ok = true) :
    ∃ b' tx' gmin gmax frame, buildFrame r code false rep b tx = some (b', tx') ∧
      badSendBuffer (syncSendBuffer b') = false ∧
      remainingGap r rep (syncSendBuffer b').sum = some (gmin, gmax) ∧
      if LowGap (afterFrame r code tx' gmin gmax) then
        initSendLoop r code false fuel true (addGap (unrollRaw (syncSendBuffer b')) gmin)
          (countDown code (afterFrame r code tx' gmin gmax)) (frames ++ [frame]) = some out
      else
        checkSendBuffer (syncSendBuffer b') = true ∧ out.buf = syncSendBuffer b' ∧
          out.frames = frames ++ [frame] := by
  rw [initSendLoop] at hrun
  cases hbuild : buildFrame r code false rep b tx with
  | none =>
      rw [hbuild] at hrun
      cases hrun
      cases hok
  | some x =>
      obtain ⟨b', tx'⟩ := x
      simp only [hbuild] at hrun
      cases hbad : badSendBuffer (syncSendBuffer b') with
      | true =>
          rw [hbad, if_pos rfl] at hrun
          cases hrun
          cases hok
      | false =>
          rw [hbad, if_neg Bool.false_ne_true, if_neg Bool.false_ne_true] at hrun
          cases hgap : remainingGap r rep (syncSendBuffer b').sum with
          | none =>
              rw [hgap] at hrun
              cases hrun
              cases hok
          | some gaps =>
              obtain ⟨gmin, gmax⟩ := gaps
              rw [hgap] at hrun
              refine ⟨b', tx', gmin, gmax, ⟨nextNode code tx.transmitState, rep && hasRepeat r⟩,
                rfl, hbad, hgap, ?_⟩
              by_cases hlow : LowGap (afterFrame r code tx' gmin gmax)
              · rw [if_pos hlow]
                exact (if_pos hlow).symm.trans hrun
              · rw [if_neg hlow]
                have hout := (if_neg hlow).symm.trans hrun
                cases hout
                exact ⟨hok, rfl, rfl⟩

/-! ### In step -/

theorem addSendBuffer_room {b : SBuf} {x : ℤ} (hfit : (addSendBuffer b x).tooLong = false) :
    b.wptr < wbufSize := by
  by_contra hfull
  rw [addSendBuffer, dif_neg hfull] at hfit
  cases hfit

/-- The buffer `b` holds the samples `xs` and after them what `l` holds, and
`d` is what the former count for in its sum. -/
structure InStep (b l : SBuf) (xs : List ℤ) (d : ℤ) : Prop where
  sound : b.Sound
  soundLone : l.Sound
  fits : l.tooLong = false
  content : b.content = xs ++ l.content
  wptr : b.wptr = xs.length + l.wptr
  sum : b.sum = l.sum + d
  pendingp : b.pendingp = l.pendingp
  pendings : b.pendings = l.pendings
  nonnegp : 0 ≤ l.pendingp
  nonnegs : 0 ≤ l.pendings
  started : xs = [] ∨ 0 < l.wptr ∨ 0 < l.pendingp

namespace InStep

variable {b l : SBuf} {xs : List ℤ} {d : ℤ}

/-- A new pending pulse for both. -/
theorem setPulse (h : InStep b l xs d) {p : ℤ} (hp : 0 ≤ p)
    (hstart : xs = [] ∨ 0 < l.wptr ∨ 0 < p) :
    InStep { b with pendingp := p } { l with pendingp := p } xs d :=
  { h with
    sound := ⟨h.sound.wptr_le⟩
    soundLone := ⟨h.soundLone.wptr_le⟩
    pendingp := rfl
    nonnegp := hp
    started := hstart }

/-- A new pending space for both. -/
theorem setSpace (h : InStep b l xs d) {s : ℤ} (hs : 0 ≤ s) :
    InStep { b with pendings := s } { l with pendings := s } xs d :=
  { h with
    sound := ⟨h.sound.wptr_le⟩
    soundLone := ⟨h.soundLone.wptr_le⟩
    pendings := rfl
    nonnegs := hs }

theorem add (h : InStep b l xs d) {x : ℤ} (hfit : (addSendBuffer b x).tooLong = false) :
    InStep (addSendBuffer b x) (addSendBuffer l x) xs d ∧ 0 < (addSendBuffer l x).wptr := by
  have hroom : l.wptr < wbufSize := by
    have := addSendBuffer_room hfit
    have := h.wptr
    omega
  have hext := addSendBuffer_extended h.sound hfit
  have hextLone := addSendBuffer_extended h.soundLone (addSendBuffer_fits (x := x) h.fits hroom).1
  have hpos := addSendBuffer_wptr_pos x (addSendBuffer_fits (x := x) h.fits hroom).1
  refine ⟨?_, hpos⟩
  exact
    { sound := hext.sound
      soundLone := hextLone.sound
      fits := (addSendBuffer_fits h.fits hroom).1
      content := by rw [hext.content, hextLone.content, h.content, List.append_assoc]
      wptr := by rw [hext.wptr, hextLone.wptr, h.wptr, Nat.add_assoc]
      sum := by rw [hext.sum, hextLone.sum, h.sum, Int.add_right_comm]
      pendingp := by rw [addSendBuffer_pendingp, addSendBuffer_pendingp, h.pendingp]
      pendings := by rw [addSendBuffer_pendings, addSendBuffer_pendings, h.pendings]
      nonnegp := by rw [addSendBuffer_pendingp]; exact h.nonnegp
      nonnegs := by rw [addSendBuffer_pendings]; exact h.nonnegs
      started := .inr (.inl hpos) }

theorem sendPulse (h : InStep b l xs d) {x : ℤ} (hx : 0 ≤ x)
    (hfit : (sendPulse b x).tooLong = false) :
    InStep (Lirc.sendPulse b x) (Lirc.sendPulse l x) xs d := by
  have hpend := h.nonnegp
  rw [Lirc.sendPulse] at hfit
  rw [Lirc.sendPulse, Lirc.sendPulse]
  rw [h.pendingp] at hfit ⊢
  by_cases hopen : 0 < l.pendingp
  · rw [if_pos hopen, if_pos hopen]
    exact h.setPulse (p := l.pendingp + x) (by omega) (h.started.imp_right fun _ => .inr (by omega))
  · have hstart : xs = [] ∨ 0 < l.wptr :=
      h.started.imp_right fun hw => hw.resolve_right hopen
    rw [if_neg hopen, h.pendings] at hfit
    rw [if_neg hopen, if_neg hopen, h.pendings]
    by_cases hspace : 0 < l.pendings
    · rw [if_pos hspace] at hfit
      rw [if_pos hspace, if_pos hspace]
      obtain ⟨hadd, hpos⟩ := h.add (x := l.pendings) hfit
      exact (hadd.setSpace (le_refl 0)).setPulse hx (.inr (.inl hpos))
    · rw [if_neg hspace, if_neg hspace]
      exact h.setPulse hx (hstart.imp_right .inl)

theorem sendSpace (h : InStep b l xs d) {x : ℤ} (hx : 0 ≤ x)
    (hfit : (sendSpace b x).tooLong = false) :
    InStep (Lirc.sendSpace b x) (Lirc.sendSpace l x) xs d := by
  have hpend := h.nonnegs
  have hwptr := h.wptr
  rw [Lirc.sendSpace] at hfit
  rw [Lirc.sendSpace, Lirc.sendSpace]
  by_cases hstart : l.wptr = 0 ∧ l.pendingp = 0
  · -- both are empty: neither takes the space
    have hnil : xs = [] := h.started.resolve_right (by omega)
    have hstartB : b.wptr = 0 ∧ b.pendingp = 0 := by
      rw [hwptr, h.pendingp, hnil, List.length_nil]
      exact ⟨by omega, hstart.2⟩
    rw [if_pos hstart, if_pos hstartB]
    exact h
  · have hstartB : ¬(b.wptr = 0 ∧ b.pendingp = 0) := by
      rw [h.pendingp]
      omega
    rw [if_neg hstartB, h.pendings] at hfit
    rw [if_neg hstart, if_neg hstartB, h.pendings]
    by_cases hspace : 0 < l.pendings
    · rw [if_pos hspace, if_pos hspace]
      exact h.setSpace (s := l.pendings + x) (by omega)
    · rw [if_neg hspace, h.pendingp] at hfit
      rw [if_neg hspace, if_neg hspace, h.pendingp]
      by_cases hopen : 0 < l.pendingp
      · rw [if_pos hopen] at hfit
        rw [if_pos hopen, if_pos hopen]
        obtain ⟨hadd, hpos⟩ := h.add (x := l.pendingp) hfit
        exact (hadd.setPulse (le_refl 0) (.inr (.inl hpos))).setSpace hx
      · rw [if_neg hopen, if_neg hopen]
        exact h.setSpace hx

theorem sendPart (h : InStep b l xs d) {p : Part} (hp : 0 ≤ p.len)
    (hfit : (sendPart b p).tooLong = false) :
    InStep (Lirc.sendPart b p) (Lirc.sendPart l p) xs d := by
  obtain ⟨level, x⟩ := p
  cases level with
  | true => exact h.sendPulse hp hfit
  | false => exact h.sendSpace hp hfit

theorem sendParts (h : InStep b l xs d) {ps : List Part} (hps : ∀ p ∈ ps, 0 ≤ p.len)
    (hfit : (sendParts b ps).tooLong = false) :
    InStep (Lirc.sendParts b ps) (Lirc.sendParts l ps) xs d := by
  induction ps generalizing b l with
  | nil => exact h
  | cons p ps ih =>
      have hfit' : (Lirc.sendPart b p).tooLong = false := by
        by_contra hlong
        have hend := sendParts_tooLong ps (eq_true_of_ne_false hlong)
        rw [sendParts_cons, hend] at hfit
        cases hfit
      exact ih (h.sendPart (hps p List.mem_cons_self) hfit')
        (fun q hq => hps q (List.mem_cons_of_mem p hq)) hfit

theorem closePulse (h : InStep b l xs d) (hfit : (closePulse b).tooLong = false) :
    InStep (Lirc.closePulse b) (Lirc.closePulse l) xs d ∧ (Lirc.closePulse l).pendingp = 0 := by
  have hpend := h.nonnegp
  rw [Lirc.closePulse] at hfit
  rw [Lirc.closePulse, Lirc.closePulse]
  rw [h.pendingp] at hfit ⊢
  by_cases hopen : 0 < l.pendingp
  · rw [if_pos hopen] at hfit
    rw [if_pos hopen, if_pos hopen]
    obtain ⟨hadd, hpos⟩ := h.add (x := l.pendingp) hfit
    exact ⟨hadd.setPulse (le_refl 0) (.inr (.inl hpos)), rfl⟩
  · rw [if_neg hopen, if_neg hopen]
    exact ⟨h, by omega⟩

end InStep

/-- The buffer `l` is empty, and `b` holds the samples `xs` and a pending
space. -/
structure Leads (b l : SBuf) (xs : List ℤ) (s d : ℤ) : Prop where
  sound : b.Sound
  fits : l.tooLong = false
  content : b.content = xs
  ne_nil : xs ≠ []
  empty : l.wptr = 0
  sum : b.sum = l.sum + d
  pendingp : b.pendingp = 0
  pendings : b.pendings = s
  nonneg : 0 ≤ s
  nopulse : l.pendingp = 0
  nospace : l.pendings = 0

namespace Leads

variable {b l : SBuf} {xs : List ℤ} {s d : ℤ}

theorem wptr_ne (h : Leads b l xs s d) : b.wptr ≠ 0 := by
  rw [← h.sound.content_length, h.content]
  exact (List.length_pos_of_ne_nil h.ne_nil).ne'

/-- What a pending space leaves in a buffer before a pulse. -/
theorem flush (h : Leads b l xs s d)
    (hfit : (if 0 < s then { addSendBuffer b s with pendings := 0 } else b).tooLong = false) :
    Leads (if 0 < s then { addSendBuffer b s with pendings := 0 } else b) l
      (xs ++ if 0 < s then [s] else []) 0 (d + (if 0 < s then [s] else []).sum) := by
  by_cases hs : 0 < s
  · rw [if_pos hs] at hfit
    rw [if_pos hs, if_pos hs, List.sum_singleton]
    have hext := addSendBuffer_extended h.sound (x := s) hfit
    exact
      { sound := ⟨hext.sound.wptr_le⟩
        fits := h.fits
        content := hext.content.trans (congrArg (· ++ [s]) h.content)
        ne_nil := List.append_ne_nil_of_right_ne_nil xs (List.cons_ne_nil s [])
        empty := h.empty
        sum := by
          have hsum : (addSendBuffer b s).sum = l.sum + (d + s) := by
            rw [hext.sum, h.sum, List.sum_singleton, Int.add_assoc]
          exact hsum
        pendingp := (addSendBuffer_pendingp b s).trans h.pendingp
        pendings := rfl
        nonneg := le_refl 0
        nopulse := h.nopulse
        nospace := h.nospace }
  · have hzero : s = 0 := le_antisymm (not_lt.mp hs) h.nonneg
    rw [if_neg hs, if_neg hs, List.append_nil, List.sum_nil, Int.add_zero, ← hzero]
    exact h

/-- A pulse after no space: from here on the buffers go in step. -/
theorem setPulse (h : Leads b l xs 0 d) {x : ℤ} (hx : 0 < x) :
    InStep { b with pendingp := x } { l with pendingp := x } xs d where
  sound := ⟨h.sound.wptr_le⟩
  soundLone := ⟨by rw [h.empty]; exact Nat.zero_le _⟩
  fits := h.fits
  content := by
    have hempty : l.content = [] := by rw [SBuf.content, h.empty, List.take_zero]
    have hcontent : b.content = xs ++ l.content := by rw [hempty, h.content, List.append_nil]
    exact hcontent
  wptr := by
    have hwptr : b.wptr = xs.length + l.wptr := by
      rw [h.empty, ← h.content, h.sound.content_length, Nat.add_zero]
    exact hwptr
  sum := h.sum
  pendingp := rfl
  pendings := h.pendings.trans h.nospace.symm
  nonnegp := hx.le
  nonnegs := h.nospace.ge
  started := .inr (.inr hx)

/-- The first pulse: both buffers take it, after the space in the case of `b`. -/
theorem sendPulse (h : Leads b l xs s d) {x : ℤ} (hx : 0 ≤ x)
    (hfit : (sendPulse b x).tooLong = false) :
    if 0 < x then
      InStep (Lirc.sendPulse b x) (Lirc.sendPulse l x) (xs ++ if 0 < s then [s] else [])
        (d + (if 0 < s then [s] else []).sum)
    else
      Leads (Lirc.sendPulse b x) (Lirc.sendPulse l x) (xs ++ if 0 < s then [s] else []) 0
        (d + (if 0 < s then [s] else []).sum) := by
  have hopenB : ¬0 < b.pendingp := by
    rw [h.pendingp]
    exact lt_irrefl 0
  have hopen : ¬0 < l.pendingp := by
    rw [h.nopulse]
    exact lt_irrefl 0
  have hspace : ¬0 < l.pendings := by
    rw [h.nospace]
    exact lt_irrefl 0
  have hlone : Lirc.sendPulse l x = { l with pendingp := x } := by
    rw [Lirc.sendPulse, if_neg hopen, if_neg hspace]
  rw [Lirc.sendPulse, if_neg hopenB, h.pendings] at hfit
  rw [hlone, Lirc.sendPulse, if_neg hopenB, h.pendings]
  have hflush := h.flush hfit
  by_cases hpos : 0 < x
  · rw [if_pos hpos]
    exact hflush.setPulse hpos
  · have hzero : x = 0 := le_antisymm (not_lt.mp hpos) hx
    subst hzero
    rw [if_neg hpos]
    exact
      { hflush with
        sound := ⟨hflush.sound.wptr_le⟩
        pendingp := rfl
        nopulse := rfl }

theorem sendSpace (h : Leads b l xs s d) {x : ℤ} (hx : 0 ≤ x) :
    Leads (Lirc.sendSpace b x) (Lirc.sendSpace l x) xs (s + x) d := by
  have hlone : Lirc.sendSpace l x = l := by
    rw [Lirc.sendSpace, if_pos ⟨h.empty, h.nopulse⟩]
  have hstart : ¬(b.wptr = 0 ∧ b.pendingp = 0) := fun h0 => h.wptr_ne h0.1
  have hopen : ¬0 < b.pendingp := by
    rw [h.pendingp]
    exact lt_irrefl 0
  have hsend : Lirc.sendSpace b x = { b with pendings := s + x } := by
    rw [Lirc.sendSpace, if_neg hstart]
    by_cases hs : 0 < b.pendings
    · rw [if_pos hs, h.pendings]
    · have hzero : s = 0 := le_antisymm (not_lt.mp (h.pendings ▸ hs)) h.nonneg
      rw [if_neg hs, if_neg hopen, hzero, Int.zero_add]
  have hnonneg := h.nonneg
  rw [hlone, hsend]
  exact
    { h with
      sound := ⟨h.sound.wptr_le⟩
      pendings := rfl
      nonneg := by omega }

/-- A signal goes into a buffer that holds samples and into an empty one:
from its first pulse on the two go in step. -/
theorem sendParts (h : Leads b l xs s d) {ps : List Part} (hps : ∀ p ∈ ps, 0 ≤ p.len)
    (hfit : (sendParts b ps).tooLong = false) :
    InStep (Lirc.sendParts b ps) (Lirc.sendParts l ps) (xs ++ leadFrom s ps)
        (d + (leadFrom s ps).sum) ∨
      (Lirc.sendParts l ps).wptr = 0 ∧ (Lirc.sendParts l ps).pendingp = 0 := by
  induction ps generalizing b l xs s d with
  | nil => exact .inr ⟨h.empty, h.nopulse⟩
  | cons p ps ih =>
      have hrest : ∀ q ∈ ps, 0 ≤ q.len := fun q hq => hps q (List.mem_cons_of_mem p hq)
      have hfit' : (Lirc.sendPart b p).tooLong = false := by
        by_contra hlong
        have hend := sendParts_tooLong ps (eq_true_of_ne_false hlong)
        rw [sendParts_cons, hend] at hfit
        cases hfit
      have hp := hps p List.mem_cons_self
      obtain ⟨level, x⟩ := p
      rw [sendParts_cons] at hfit
      rw [leadFrom, sendParts_cons, sendParts_cons]
      cases level with
      | true =>
          have hpulse := h.sendPulse hp hfit'
          rw [if_pos rfl]
          by_cases hx : 0 < x
          · rw [if_pos hx] at hpulse
            rw [if_pos hx, List.append_nil]
            exact .inl (hpulse.sendParts hrest hfit)
          · rw [if_neg hx] at hpulse
            rw [if_neg hx, List.sum_append, ← List.append_assoc, ← Int.add_assoc]
            exact ih hpulse hrest hfit
      | false => exact ih (h.sendSpace hp) hrest hfit

end Leads

/-! ### Durations -/

/-- No duration is negative. Those of the header, the foot, the repeat code
and the pauses are sent only when they are positive. -/
structure Timed (r : IrRemote) : Prop where
  pthree : 0 ≤ r.pthree
  sthree : 0 ≤ r.sthree
  ptwo : 0 ≤ r.ptwo
  stwo : 0 ≤ r.stwo
  pone : 0 ≤ r.pone
  sone : 0 ≤ r.sone
  pzero : 0 ≤ r.pzero
  szero : 0 ≤ r.szero
  plead : 0 ≤ r.plead
  ptrail : 0 ≤ r.ptrail

theorem Timed.withToggle {r : IrRemote} (h : Timed r) (st : ℤ) : Timed (r.withToggle st) :=
  { h with }

/-- No part is of negative length. -/
def NonNeg (ps : List Part) : Prop := ∀ p ∈ ps, 0 ≤ p.len

theorem nonNeg_nil : NonNeg [] := fun _ hp => absurd hp List.not_mem_nil

theorem NonNeg.append {ps qs : List Part} (h : NonNeg ps) (h' : NonNeg qs) :
    NonNeg (ps ++ qs) := fun p hp => (List.mem_append.mp hp).elim (h p) (h' p)

theorem nonNeg_single {p : Part} (h : 0 ≤ p.len) : NonNeg [p] := fun q hq => by
  rw [List.mem_singleton.mp hq]
  exact h

theorem nonNeg_pair {p q : Part} (hp : 0 ≤ p.len) (hq : 0 ≤ q.len) : NonNeg [p, q] :=
  (nonNeg_single hp).append (nonNeg_single hq)

theorem nonNeg_ite {c : Prop} [Decidable c] {ps qs : List Part} (h : c → NonNeg ps)
    (h' : ¬c → NonNeg qs) : NonNeg (if c then ps else qs) := by
  split
  · exact h ‹_›
  · exact h' ‹_›

section Timed

variable {r : IrRemote} (h : Timed r)
include h

theorem Timed.rcmmLoopParts (n : ℕ) (data : IrCode) : NonNeg (rcmmLoopParts r n data) := by
  induction n generalizing data with
  | zero => exact nonNeg_nil
  | succ n ih =>
      refine NonNeg.append ?_ (ih _)
      rw [rcmmParts]
      split
      · exact nonNeg_pair h.pzero h.szero
      · exact nonNeg_pair h.pone h.sone
      · exact nonNeg_pair h.ptwo h.stwo
      · exact nonNeg_pair h.pthree h.sthree

theorem Timed.xmpLoopParts (n : ℕ) (data : IrCode) : NonNeg (xmpLoopParts r n data) := by
  induction n generalizing data with
  | zero => exact nonNeg_nil
  | succ n ih =>
      refine NonNeg.append (nonNeg_pair h.pzero ?_) (ih _)
      exact Int.add_nonneg h.szero (Int.mul_nonneg (Int.natCast_nonneg _) h.sone)

theorem Timed.bitLoopParts (n : ℕ) (data mask : IrCode) :
    NonNeg (bitLoopParts r n data mask) := by
  have hone := h.pone
  have hone' := h.sone
  have hzero := h.pzero
  have hzero' := h.szero
  induction n generalizing data mask with
  | zero => exact nonNeg_nil
  | succ n ih =>
      refine NonNeg.append (nonNeg_ite (fun _ => ?_) fun _ => ?_) (ih _ _)
      · refine nonNeg_ite (fun _ => nonNeg_ite (fun _ => ?_) fun _ => ?_) fun _ =>
          nonNeg_ite (fun _ => ?_) fun _ => ?_
        · exact nonNeg_pair (show 0 ≤ 2 * r.sone by omega) (show 0 ≤ 2 * r.pone by omega)
        · exact nonNeg_pair hone' hone
        · exact nonNeg_pair hone' hone
        · exact nonNeg_pair hone hone'
      · refine nonNeg_ite (fun _ => ?_) fun _ => nonNeg_ite (fun _ => ?_) fun _ => ?_
        · exact nonNeg_pair (show 0 ≤ 2 * r.pzero by omega) (show 0 ≤ 2 * r.szero by omega)
        · exact nonNeg_pair hzero' hzero
        · exact nonNeg_pair hzero hzero'

theorem Timed.dataParts (data : IrCode) (bits done : ℕ) : NonNeg (dataParts r data bits done) :=
  nonNeg_ite (fun _ => nonNeg_ite (fun _ => nonNeg_nil) fun _ => h.rcmmLoopParts _ _) fun _ =>
    nonNeg_ite (fun _ => nonNeg_ite (fun _ => nonNeg_nil) fun _ => h.xmpLoopParts _ _) fun _ =>
      h.bitLoopParts _ _ _

theorem Timed.codeParts (code : IrCode) (rep : Bool) : NonNeg (codeParts r code rep) := by
  have pause : ∀ p s : ℤ, NonNeg (if 0 < p ∧ 0 < s then [pulse p, space s] else []) :=
    fun p s => nonNeg_ite (fun hpos => nonNeg_pair hpos.1.le hpos.2.le) fun _ => nonNeg_nil
  have header : NonNeg (headerParts r) := nonNeg_ite (fun hh => by
    obtain ⟨hp, hs⟩ : 0 < r.phead ∧ 0 < r.shead := by simpa [hasHeader] using hh
    exact nonNeg_pair hp.le hs.le) fun _ => nonNeg_nil
  have foot : NonNeg (footParts r) := nonNeg_ite (fun hh => by
    obtain ⟨hp, hs⟩ : 0 < r.pfoot ∧ 0 < r.sfoot := by simpa [hasFoot] using hh
    exact nonNeg_pair hs.le hp.le) fun _ => nonNeg_nil
  have lead : NonNeg (leadParts r) :=
    nonNeg_ite (fun _ => nonNeg_single h.plead) fun _ => nonNeg_nil
  have trail : NonNeg (trailParts r) :=
    nonNeg_ite (fun _ => nonNeg_single h.ptrail) fun _ => nonNeg_nil
  have pre : NonNeg (preParts r) :=
    nonNeg_ite (fun _ => (h.dataParts _ _ _).append (pause _ _)) fun _ => nonNeg_nil
  have post : NonNeg (postParts r) :=
    nonNeg_ite (fun _ => (pause _ _).append (h.dataParts _ _ _)) fun _ => nonNeg_nil
  have begins : NonNeg (if !rep || !r.has noHeadRep then headerParts r else []) :=
    nonNeg_ite (fun _ => header) fun _ => nonNeg_nil
  have ends : NonNeg (if !rep || !r.has noFootRep then footParts r else []) :=
    nonNeg_ite (fun _ => foot) fun _ => nonNeg_nil
  exact (((((begins.append lead).append pre).append (h.dataParts _ _ _)).append post).append
    trail).append ends

theorem Timed.frameParts (code : IrCode) (rep : Bool) : NonNeg (frameParts r code rep) := by
  refine nonNeg_ite (fun hrep => ?_) fun _ => h.codeParts code rep
  have hr : hasRepeat r = true := (Bool.and_eq_true _ _).mp hrep |>.2
  exact fun p hp => (positive_repeatParts hr h.plead h.ptrail p hp).le

end Timed

end Lirc
