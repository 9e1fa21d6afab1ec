import Lirc.Waveform

/-!
The waveform `init_send` builds: the samples of the first frame come first,
and what follows them, if the gap is low enough for more frames, starts
with a gap at least as long as the remaining one.
-/

namespace Lirc

open Signal

/-! ### One frame -/

/-- The signal of `send_repeat` with its optional header. -/
def repeatParts (r : IrRemote) : List Part :=
  (if r.has repeatHeader && hasHeader r then headerParts r else []) ++
    (leadParts r ++ [pulse r.prepeat, space r.srepeat] ++ trailParts r)

/-- The signal of one frame. -/
def frameParts (r : IrRemote) (c : IrCode) (rep : Bool) : List Part :=
  if rep && hasRepeat r then repeatParts r else codeParts r c rep

/-- What `send_code` takes off the sum of the samples. -/
def sumCorrection (r : IrRemote) (rep : Bool) : ℤ :=
  if !rep && r.has noHeadRep && r.has constLength then r.phead + r.shead else 0

def SBuf.adjusted (b : SBuf) (k : ℤ) (d : DataPtr) : SBuf := { b with sum := b.sum - k, data := d }

@[simp] theorem SBuf.adjusted_tooLong (b : SBuf) (k : ℤ) (d : DataPtr) :
    (b.adjusted k d).tooLong = b.tooLong := rfl

@[simp] theorem SBuf.adjusted_content (b : SBuf) (k : ℤ) (d : DataPtr) :
    (b.adjusted k d).content = b.content := rfl

@[simp] theorem SBuf.adjusted_wptr (b : SBuf) (k : ℤ) (d : DataPtr) :
    (b.adjusted k d).wptr = b.wptr := rfl

@[simp] theorem SBuf.adjusted_pendingp (b : SBuf) (k : ℤ) (d : DataPtr) :
    (b.adjusted k d).pendingp = b.pendingp := rfl

@[simp] theorem SBuf.adjusted_pendings (b : SBuf) (k : ℤ) (d : DataPtr) :
    (b.adjusted k d).pendings = b.pendings := rfl

@[simp] theorem SBuf.adjusted_data (b : SBuf) (k : ℤ) (d : DataPtr) :
    (b.adjusted k d).data = d := rfl

@[simp] theorem SBuf.adjusted_sum (b : SBuf) (k : ℤ) (d : DataPtr) :
    (b.adjusted k d).sum = b.sum - k := rfl

theorem closePulse_adjusted (b : SBuf) (k : ℤ) (d : DataPtr) :
    closePulse (b.adjusted k d) = (closePulse b).adjusted k d := by
  unfold closePulse addSendBuffer
  by_cases hp : 0 < b.pendingp
  · by_cases hw : b.wptr < wbufSize
    · simp [SBuf.adjusted, hp, hw]; omega
    · simp [SBuf.adjusted, hp, hw]
  · simp [SBuf.adjusted, hp]

/-- The change of the transmission state by the frame itself. -/
def frameTx (r : IrRemote) (sim rep : Bool) (tx : TxState) : TxState :=
  if rep && hasRepeat r then tx
  else if !sim && hasToggleMask r then
    { tx with toggleMaskState :=
        if tx.toggleMaskState + 1 = 4 then 2 else tx.toggleMaskState + 1 }
  else tx

theorem sendRepeat_eq (r : IrRemote) (b : SBuf) :
    (let b := if r.has repeatHeader && hasHeader r then sendHeader r b else b
     sendRepeat r b) = sendParts b (repeatParts r) := by
  have head : (if r.has repeatHeader && hasHeader r then sendHeader r b else b) =
      sendParts b (if r.has repeatHeader && hasHeader r then headerParts r else []) := by
    split
    · exact sendHeader_eq r b
    · rfl
  simp only [sendRepeat, repeatParts, head, sendLead_eq, sendTrail_eq, sendParts_append,
    sendParts_cons, sendPart_pulse, sendPart_space, sendParts_nil]

/-- A code of a remote that is not raw is sent as the signal `codeParts`. -/
theorem buildFrame_code {r : IrRemote} (hraw : isRaw r = false) (code : IrNcode)
    (sim : Bool) {rep : Bool} (hrep : (rep && hasRepeat r) = false) (b : SBuf) (tx : TxState) :
    buildFrame r code sim rep b tx =
      some ((sendParts b (codeParts (r.withToggle tx.toggleMaskState)
          (nextCode code sim tx.transmitState) rep)).adjusted (sumCorrection r rep) .own,
        frameTx r sim rep tx) := by
  have hcond : (!rep && (r.withToggle tx.toggleMaskState).has noHeadRep &&
      (r.withToggle tx.toggleMaskState).has constLength) =
      (!rep && r.has noHeadRep && r.has constLength) := rfl
  unfold buildFrame frameTx sumCorrection
  simp only [hrep, hraw, sendCode_eq, hcond, Bool.false_eq_true, if_false, Bool.not_false,
    if_true]
  by_cases hc : (!rep && r.has noHeadRep && r.has constLength) = true
  · simp only [hc, if_true]; rfl
  · simp only [hc, if_false, SBuf.adjusted, Int.sub_zero, Bool.false_eq_true]

/-- A repeat frame of a remote with a repeat code is the signal `repeatParts`. -/
theorem buildFrame_repeat {r : IrRemote} (code : IrNcode) (sim : Bool) {rep : Bool}
    (hrep : (rep && hasRepeat r) = true) (b : SBuf) (tx : TxState) :
    buildFrame r code sim rep b tx = some (sendParts b (repeatParts r), tx) := by
  unfold buildFrame
  simp only [hrep, if_true]
  exact congrArg (fun b => some (b, tx)) (sendRepeat_eq r b)

/-! ### Frames after the first -/

/-- A remote whose signals have positive parts only, and whose codes are not
sent as an empty signal when they are repeated. -/
structure Regular (r : IrRemote) : Prop where
  positive : ∀ st c rep, Positive (codeParts (r.withToggle st) c rep)
  pulse : ∀ st c, ∃ p ∈ codeParts (r.withToggle st) c true, p.high = true
  lead : 0 ≤ r.plead
  trail : 0 ≤ r.ptrail

theorem positive_repeatParts {r : IrRemote} (hr : hasRepeat r = true) (hl : 0 ≤ r.plead)
    (ht : 0 ≤ r.ptrail) : Positive (repeatParts r) := by
  have hpr : 0 < r.prepeat ∧ 0 < r.srepeat := by simpa [hasRepeat] using hr
  have hhead : Positive (headerParts r) := by
    unfold headerParts
    split
    · next hh => simpa [hasHeader] using hh
    · simp
  have hlead : Positive (leadParts r) := by
    unfold leadParts
    split
    · simp only [positive_cons, positive_nil, and_true]; omega
    · simp
  have htrail : Positive (trailParts r) := by
    unfold trailParts
    split
    · simp only [positive_cons, positive_nil, and_true]; omega
    · simp
  unfold repeatParts
  split
  · simp [hhead, hlead, htrail, hpr]
  · simp [hlead, htrail, hpr]

/-- Every frame after the first is a signal with positive parts that holds a
pulse. -/
def Framing (r : IrRemote) (code : IrNcode) : Prop :=
  ∀ b tx, b.data = .own → ∃ ps k tx',
    buildFrame r code false true b tx = some ((sendParts b ps).adjusted k .own, tx') ∧
      Positive ps ∧ ∃ p ∈ ps, p.high = true

theorem framing_repeat {r : IrRemote} (hr : hasRepeat r = true) (hl : 0 ≤ r.plead)
    (ht : 0 ≤ r.ptrail) (code : IrNcode) : Framing r code := by
  intro b tx hown
  refine ⟨repeatParts r, 0, tx, ?_, positive_repeatParts hr hl ht,
    ⟨Signal.pulse r.prepeat, ?_, rfl⟩⟩
  · rw [buildFrame_repeat code false (by simp [hr])]
    have hdata : (sendParts b (repeatParts r)).data = .own := by
      rw [sendParts_data, hown]
    rw [← hdata]
    simp [SBuf.adjusted]
  · simp [repeatParts]

theorem Regular.framing {r : IrRemote} (h : Regular r) (hraw : isRaw r = false)
    (code : IrNcode) : Framing r code := by
  cases hr : hasRepeat r
  · exact fun b tx _ => ⟨_, _, _, buildFrame_code hraw code false (by simp [hr]) b tx,
      h.positive _ _ _, h.pulse _ _⟩
  · exact framing_repeat hr h.lead h.trail code

/-- Nothing is pending, and the buffer is not empty. -/
structure SBuf.Idle (b : SBuf) : Prop where
  sound : b.Sound
  pendingp : b.pendingp = 0
  pendings : b.pendings = 0
  wptr_pos : 0 < b.wptr

/-- A signal sent into an idle buffer. -/
theorem SBuf.Idle.sendParts {b : SBuf} (h : b.Idle) {ps : List Part} (hps : Positive ps)
    (hfit : (closePulse (sendParts b ps)).tooLong = false) :
    b.Extended (closePulse (Lirc.sendParts b ps)) ((wave ps).map Part.len) ∧
      (closePulse (Lirc.sendParts b ps)).pendingp = 0 ∧
      0 ≤ (closePulse (Lirc.sendParts b ps)).pendings := by
  cases ps with
  | nil =>
      have hclose : closePulse b = b := by simp [closePulse, h.pendingp]
      simp [hclose, h.sound.extended_nil, h.pendingp, h.pendings]
  | cons p ps =>
      obtain ⟨hp, hps'⟩ := (positive_cons p ps).mp hps
      obtain ⟨level, a⟩ := p
      cases level
      · have hsend : sendPart b (space a) = { b with pendings := a } := by
          have hw : b.wptr ≠ 0 := Nat.ne_of_gt h.wptr_pos
          simp [sendPart, sendSpace, hw, h.pendingp, h.pendings]
        have hopen : ({ b with pendings := a } : SBuf).Opened (space a) :=
          ⟨hp, by simpa using h.pendingp, by simp, fun _ => h.wptr_pos⟩
        rw [sendParts_cons, hsend] at hfit ⊢
        have hb' : ({ b with pendings := a } : SBuf).Sound := ⟨h.sound.wptr_le⟩
        obtain ⟨hext, hpend⟩ := sendParts_extended hopen hb' hps' hfit
        exact ⟨⟨hext.sound, hext.content, hext.wptr, hext.sum, hext.data⟩, hpend⟩
      · exact sendParts_start h.sound hp hps' h.pendingp h.pendings hfit

/-- The space after a frame is dropped only where samples were added. -/
theorem dropSpace_prefix {b : SBuf} {xs ws : List ℤ} (hb : b.Sound)
    (h : b.content = xs ++ ws) (hws : ws ≠ []) : xs <+: (dropSpace b).content := by
  have hlen : b.wptr = xs.length + ws.length := by
    rw [← hb.content_length, h, List.length_append]
  have hpos : 0 < ws.length := List.length_pos_of_ne_nil hws
  unfold dropSpace
  split
  · have htake : ({ b with wptr := b.wptr - 1 } : SBuf).content =
        b.content.take (b.wptr - 1) := by
      simp [SBuf.content, List.take_take]
    rw [htake, h]
    exact (List.prefix_take_iff.mpr ⟨List.prefix_append _ _, by omega⟩)
  · rw [h]; exact List.prefix_append _ _

theorem dropSpace_sound {b : SBuf} (h : b.Sound) : (dropSpace b).Sound := by
  have := h.wptr_le
  unfold dropSpace
  split
  · exact ⟨by simp; omega⟩
  · exact h

/-- The fields `dropSpace` leaves alone. -/
theorem dropSpace_frame (b : SBuf) :
    (dropSpace b).tooLong = b.tooLong ∧ (dropSpace b).data = b.data ∧
      (dropSpace b).pendingp = b.pendingp ∧ (dropSpace b).pendings = b.pendings ∧
      (dropSpace b).sum = b.sum := by
  unfold dropSpace; split <;> simp

/-- The buffer after a frame has been added and synchronised. -/
structure SBuf.Framed (b : SBuf) (xs : List ℤ) : Prop where
  sound : b.Sound
  data : b.data = .own
  pendingp : b.pendingp = 0
  pendings : 0 ≤ b.pendings
  content : xs <+: b.content

/-- A frame goes in after what an idle buffer holds. -/
theorem SBuf.Idle.framed {b : SBuf} (h : b.Idle) {ps : List Part} (hps : Positive ps)
    (hpulse : ∃ p ∈ ps, p.high = true) (k : ℤ)
    (hfit : (syncSendBuffer ((Lirc.sendParts b ps).adjusted k .own)).tooLong = false) :
    (syncSendBuffer ((Lirc.sendParts b ps).adjusted k .own)).Framed b.content := by
  rw [syncSendBuffer_eq, closePulse_adjusted] at hfit ⊢
  obtain ⟨hlong, hdata, hpp, hpd, -⟩ :=
    dropSpace_frame ((closePulse (Lirc.sendParts b ps)).adjusted k .own)
  rw [hlong] at hfit
  obtain ⟨hext, hp, hs⟩ := h.sendParts hps hfit
  have hws : (wave ps).map Part.len ≠ [] := by simpa using wave_ne_nil hpulse
  have hsound : ((closePulse (Lirc.sendParts b ps)).adjusted k .own).Sound :=
    ⟨hext.sound.wptr_le⟩
  exact
    { sound := dropSpace_sound hsound
      data := hdata
      pendingp := hpp.trans hp
      pendings := hpd ▸ hs
      content := dropSpace_prefix hsound hext.content hws }

/-- The gap between two frames of one waveform. -/
def addGap (b : SBuf) (gmin : ℤ) : SBuf := { flushSendBuffer (sendSpace b gmin) with sum := 0 }

/-- The gap is added to the space that is still pending. -/
theorem addGap_eq {b : SBuf} (hw : 0 < b.wptr) (hp : b.pendingp = 0) (hs : 0 ≤ b.pendings)
    {g : ℤ} (hg : 0 ≤ g) :
    addGap b g =
      if 0 < b.pendings + g then
        { addSendBuffer b (b.pendings + g) with pendings := 0, sum := 0 }
      else { b with pendings := 0, sum := 0 } := by
  have hw' : b.wptr ≠ 0 := Nat.ne_of_gt hw
  have hsend : sendSpace b g = { b with pendings := b.pendings + g } := by
    by_cases h0 : 0 < b.pendings
    · simp [sendSpace, hw', h0]
    · have h0' : b.pendings = 0 := by omega
      simp [sendSpace, hw', h0', hp]
  have hp' : ¬0 < b.pendingp := by omega
  rw [addGap, hsend, flushSendBuffer]
  simp only [hp', if_false]
  split
  · unfold addSendBuffer; split <;> rfl
  · next h =>
      have h0 : b.pendings + g = 0 := by omega
      simp [h0]

/-- After the gap the buffer is idle again. -/
theorem SBuf.Framed.addGap {b : SBuf} {xs : List ℤ} (h : b.Framed xs) (hw : 0 < b.wptr)
    {g : ℤ} (hg : 0 ≤ g) (hfit : (addGap b g).tooLong = false) :
    (Lirc.addGap b g).Idle ∧ (Lirc.addGap b g).data = .own ∧
      ∃ ws, (Lirc.addGap b g).content = b.content ++ ws ∧ (∀ x ∈ ws.head?, g ≤ x) ∧
        (ws = [] → g = 0) := by
  have hs := h.pendings
  rw [addGap_eq hw h.pendingp h.pendings hg] at hfit ⊢
  by_cases hpos : 0 < b.pendings + g
  · simp only [hpos, if_true] at hfit ⊢
    have hext := addSendBuffer_extended h.sound hfit
    refine ⟨⟨⟨hext.sound.wptr_le⟩, by simpa using h.pendingp, rfl, ?_⟩, ?_,
      [b.pendings + g], hext.content, ?_, by simp⟩
    · exact addSendBuffer_wptr_pos _ hfit
    · simpa using h.data
    · simp only [List.head?_cons, Option.mem_def, Option.some.injEq]
      omega
  · simp only [hpos, if_false] at hfit ⊢
    exact ⟨⟨⟨h.sound.wptr_le⟩, h.pendingp, rfl, hw⟩, h.data, [], by simp [SBuf.content], by simp,
      fun _ => by omega⟩

/-! ### The loop -/

theorem remainingGap_nonneg {r : IrRemote} {rep : Bool} {sum gmin gmax : ℤ}
    (h : remainingGap r rep sum = some (gmin, gmax)) : 0 ≤ gmin := by
  have hmin := minGap_nonneg r
  unfold remainingGap at h
  split at h
  · simp only [Option.some.injEq, Prod.mk.injEq] at h
    omega
  · split at h
    · split at h
      · simp only [Option.some.injEq, Prod.mk.injEq] at h
        omega
      · simp at h
    · simp only [Option.some.injEq, Prod.mk.injEq] at h
      omega

theorem badSendBuffer_of_tooLong {b : SBuf} (h : b.tooLong = true) : badSendBuffer b = true := by
  simp [badSendBuffer, h]

theorem tooLong_of_not_bad {b : SBuf} (h : ¬badSendBuffer b = true) : b.tooLong = false := by
  by_contra hlong
  exact h (badSendBuffer_of_tooLong (by simpa using hlong))

/-- A waveform is not completed in a buffer that was too small. -/
theorem initSendLoop_tooLong {r : IrRemote} {code : IrNcode} (h : Framing r code) {fuel : ℕ} {b : SBuf} {tx : TxState} {frames : List Frame} {out : SendOut}
    (hown : b.data = .own) (hlong : b.tooLong = true)
    (hrun : initSendLoop r code false fuel true b tx frames = some out) : out.ok = false := by
  cases fuel with
  | zero => simp [initSendLoop] at hrun
  | succ fuel =>
      obtain ⟨ps, k, tx', hbuild, -, -⟩ := h b tx hown
      have hbad : badSendBuffer (syncSendBuffer ((sendParts b ps).adjusted k .own)) = true := by
        apply badSendBuffer_of_tooLong
        rw [syncSendBuffer_eq, (dropSpace_frame _).1]
        exact closePulse_tooLong (sendParts_tooLong ps hlong)
      simp only [initSendLoop, hbuild, hbad, if_true, Option.some.injEq] at hrun
      rw [← hrun]

/-- The frames after the first only add to the buffer. -/
theorem initSendLoop_prefix {r : IrRemote} {code : IrNcode} (h : Framing r code) {fuel : ℕ} {b : SBuf} {tx : TxState} {frames : List Frame} {out : SendOut}
    (hb : b.Idle) (hown : b.data = .own)
    (hrun : initSendLoop r code false fuel true b tx frames = some out) (hok : out.ok = true) :
    b.content <+: out.buf.content ∧ out.buf.data = .own := by
  induction fuel generalizing b tx frames with
  | zero => simp [initSendLoop] at hrun
  | succ fuel ih =>
      obtain ⟨ps, k, tx', hbuild, hps, hpulse⟩ := h b tx hown
      simp only [initSendLoop, hbuild] at hrun
      split at hrun
      · simp only [Option.some.injEq] at hrun
        rw [← hrun] at hok
        exact absurd hok (by simp)
      next hbad =>
      have hframed := hb.framed hps hpulse k (tooLong_of_not_bad hbad)
      rw [if_neg (by simp)] at hrun
      split at hrun
      · simp only [Option.some.injEq] at hrun
        rw [← hrun] at hok
        exact absurd hok (by simp)
      next gmin gmax hgap =>
      split at hrun
      · -- a low gap: one more frame
        have hunroll : unrollRaw (syncSendBuffer ((sendParts b ps).adjusted k .own)) =
            syncSendBuffer ((sendParts b ps).adjusted k .own) := by
          simp [unrollRaw, hframed.data]
        rw [hunroll] at hrun
        have hw : 0 < (syncSendBuffer ((sendParts b ps).adjusted k .own)).wptr := by
          have hlen := hframed.content.length_le
          rw [hb.sound.content_length, hframed.sound.content_length] at hlen
          exact Nat.lt_of_lt_of_le hb.wptr_pos hlen
        have hdata : (addGap (syncSendBuffer ((sendParts b ps).adjusted k .own)) gmin).data =
            .own := by
          rw [addGap_eq hw hframed.pendingp hframed.pendings (remainingGap_nonneg hgap)]
          split
          · simpa using hframed.data
          · simpa using hframed.data
        have hfit : (addGap (syncSendBuffer ((sendParts b ps).adjusted k .own)) gmin).tooLong =
            false := by
          by_contra hlong
          have := initSendLoop_tooLong h hdata (by simpa using hlong) hrun
          simp [hok] at this
        obtain ⟨hidle, -, ws, hcontent, -, -⟩ :=
          hframed.addGap hw (remainingGap_nonneg hgap) hfit
        obtain ⟨hpre, hout⟩ := ih hidle hdata hrun
        refine ⟨hframed.content.trans (List.IsPrefix.trans ?_ hpre), hout⟩
        rw [hcontent]
        exact List.prefix_append _ _
      · simp only [Option.some.injEq] at hrun
        rw [← hrun]
        exact ⟨hframed.content, hframed.data⟩

/-- What `clear_send_buffer` leaves. -/
structure SBuf.Cleared (b : SBuf) : Prop where
  wptr : b.wptr = 0
  pendingp : b.pendingp = 0
  pendings : b.pendings = 0
  sum : b.sum = 0

theorem cleared_clearSendBuffer (b : SBuf) (biphase : Bool) :
    ({ clearSendBuffer b with isBiphase := biphase } : SBuf).Cleared :=
  ⟨rfl, rfl, rfl, rfl⟩

/-- The first frame of a waveform: its samples come first, and a gap at
least as long as the remaining one comes next. -/
theorem initSendLoop_first {r : IrRemote} {code : IrNcode} (h : Framing r code) {rep : Bool}
    {b₀ : SBuf} {tx tx' : TxState} {frames : List Frame} {fuel : ℕ} {out : SendOut} {a k : ℤ}
    {ps : List Part} (hb₀ : b₀.Cleared)
    (hbuild : buildFrame r code false rep b₀ tx =
      some ((sendParts b₀ (pulse a :: ps)).adjusted k .own, tx'))
    (hpos : Positive (pulse a :: ps))
    (hrun : initSendLoop r code false fuel rep b₀ tx frames = some out) (hok : out.ok = true) :
    ∃ rest gmin gmax,
      out.buf.samples = (wave (pulse a :: ps)).map Part.len ++ rest ∧
      remainingGap r rep (((wave (pulse a :: ps)).map Part.len).sum - k) = some (gmin, gmax) ∧
      (∀ x ∈ rest.head?, gmin ≤ x ∨ gmin = 0) ∧ (exactGapThreshold ≤ gmin → rest = []) ∧
      out.buf.data = .own := by
  obtain ⟨hw₀, hp₀, hs₀, hsum₀⟩ := hb₀
  have hempty : b₀.content = [] := by simp [SBuf.content, hw₀]
  have hsound : b₀.Sound := ⟨by simp [hw₀]⟩
  cases fuel with
  | zero => simp [initSendLoop] at hrun
  | succ fuel =>
      simp only [initSendLoop, hbuild] at hrun
      split at hrun
      · simp only [Option.some.injEq] at hrun
        rw [← hrun] at hok
        exact absurd hok (by simp)
      next hbad =>
      have hfit := tooLong_of_not_bad hbad
      rw [syncSendBuffer_eq, closePulse_adjusted, (dropSpace_frame _).1] at hfit
      obtain ⟨hext, hp, hs⟩ :=
        sendParts_start hsound (by simpa using hpos.head) hpos.tail hp₀ hs₀ hfit
      -- a signal that starts with a pulse has an odd number of samples
      have hodd : (closePulse (sendParts b₀ (pulse a :: ps))).wptr % 2 = 1 := by
        rw [hext.wptr, hw₀, List.length_map, wave_cons, Nat.zero_add]
        exact length_waveFrom_mod _ _
      have hsync : syncSendBuffer
          ((sendParts b₀ (pulse a :: ps)).adjusted k .own) =
          (closePulse (sendParts b₀ (pulse a :: ps))).adjusted k .own := by
        rw [syncSendBuffer_eq, closePulse_adjusted, dropSpace, if_neg]
        simp only [SBuf.adjusted_wptr]
        omega
      rw [hsync] at hrun
      generalize hws : (wave (pulse a :: ps)).map Part.len = ws at *
      have hcontent := hext.content
      rw [hempty, List.nil_append] at hcontent
      have hsum := hext.sum
      rw [hsum₀, Int.zero_add] at hsum
      have hframed : ((closePulse (sendParts b₀ (pulse a :: ps))).adjusted
          k .own).Framed ws :=
        ⟨⟨hext.sound.wptr_le⟩, rfl, hp, hs, by rw [SBuf.adjusted_content, hcontent]⟩
      have hw : 0 < ((closePulse (sendParts b₀ (pulse a :: ps))).adjusted
          k .own).wptr := by
        simp only [SBuf.adjusted_wptr]
        omega
      generalize hb : (closePulse (sendParts b₀ (pulse a :: ps))).adjusted
        k .own = b₁ at hrun hframed hw
      have hb_content : b₁.content = ws := by rw [← hb]; exact hcontent
      have hb_sum : b₁.sum = ws.sum - k := by rw [← hb, ← hsum]; rfl
      rw [hb_sum, if_neg (by simp)] at hrun
      split at hrun
      · simp only [Option.some.injEq] at hrun
        rw [← hrun] at hok
        exact absurd hok (by simp)
      next gmin gmax hgap =>
      have hunroll : unrollRaw b₁ = b₁ := by simp [unrollRaw, hframed.data]
      rw [hunroll] at hrun
      split at hrun
      · -- a low gap: the gap is added and more frames follow
        have hdata : (addGap b₁ gmin).data = .own := by
          rw [addGap_eq hw hframed.pendingp hframed.pendings (remainingGap_nonneg hgap)]
          split
          · simpa using hframed.data
          · simpa using hframed.data
        have hfit : (addGap b₁ gmin).tooLong = false := by
          by_contra hlong
          have := initSendLoop_tooLong h hdata (by simpa using hlong) hrun
          simp [hok] at this
        obtain ⟨hidle, -, gs, hgs, hhead, hnil⟩ := hframed.addGap hw (remainingGap_nonneg hgap) hfit
        obtain ⟨hpre, hout⟩ := initSendLoop_prefix h hidle hdata hrun hok
        obtain ⟨rest, hrest⟩ := hpre
        rw [hgs, hb_content] at hrest
        refine ⟨gs ++ rest, gmin, gmax, ?_, hgap, ?_, ?_, hout⟩
        · rw [SBuf.samples, hout, ← List.append_assoc]
          exact hrest.symm
        · cases gs with
          | nil => exact fun _ _ => .inr (hnil rfl)
          | cons g gs => exact fun x hx => .inl (hhead x hx)
        · intro hhigh
          omega
      · simp only [Option.some.injEq] at hrun
        rw [← hrun]
        refine ⟨[], gmin, gmax, ?_, hgap, by simp, fun _ => rfl, hframed.data⟩
        rw [SBuf.samples, hframed.data, List.append_nil]
        exact hb_content

/-- The buffer at `init_send_loop`. -/
def startBuffer (r : IrRemote) (b : SBuf) : SBuf :=
  { clearSendBuffer b with isBiphase := isBiphase r }

/-- The transmission state at `init_send_loop`. -/
def startTx (r : IrRemote) (code : IrNcode) (repeating : Bool) : TxState :=
  ⟨if repeating then r.repeatCountdown else r.minRepeat, r.toggleMaskState, r.minRemainingGap,
    r.maxRemainingGap, code.transmitState⟩

theorem initSend_eq (r : IrRemote) (code : IrNcode) (repeating : Bool) (b : SBuf) (fuel : ℕ)
    (hsend : cannotSend r = false) :
    initSend r code repeating b fuel =
      initSendLoop r code false fuel repeating (startBuffer r b) (startTx r code repeating) [] := by
  unfold initSend initSendOrSim startBuffer startTx
  cases repeating <;> simp [hsend]

/-- The first frame of a code that is not repeated. -/
theorem initSend_first {r : IrRemote} (h : Regular r) (hraw : isRaw r = false)
    {code : IrNcode} {b : SBuf} {fuel : ℕ} {out : SendOut}
    (hrun : initSend r code false b fuel = some out) (hok : out.ok = true)
    (hstart : (codeParts r (nextCode code false code.transmitState) false).head?.map Part.high =
      some true) :
    ∃ rest gmin gmax,
      out.buf.samples =
        (wave (codeParts r (nextCode code false code.transmitState) false)).map Part.len ++ rest ∧
      remainingGap r false
        (((wave (codeParts r (nextCode code false code.transmitState) false)).map Part.len).sum -
          sumCorrection r false) = some (gmin, gmax) ∧
      (∀ x ∈ rest.head?, gmin ≤ x ∨ gmin = 0) ∧ out.buf.data = .own := by
  have hpos : Positive (codeParts r (nextCode code false code.transmitState) false) :=
    h.positive r.toggleMaskState _ _
  unfold initSend initSendOrSim at hrun
  split at hrun
  · simp only [Option.some.injEq] at hrun
    rw [← hrun] at hok
    simp at hok
  have hbuild := buildFrame_code hraw code false (Bool.false_and _ : (false && hasRepeat r) = false)
    { clearSendBuffer b with isBiphase := isBiphase r }
    ⟨r.minRepeat, r.toggleMaskState, r.minRemainingGap, r.maxRemainingGap, code.transmitState⟩
  have hr : r.withToggle r.toggleMaskState = r := rfl
  rw [hr] at hbuild
  generalize codeParts r (nextCode code false code.transmitState) false = ps at *
  cases ps with
  | nil => simp at hstart
  | cons p ps =>
      obtain ⟨level, a⟩ := p
      obtain rfl : level = true := by simpa using hstart
      obtain ⟨rest, gmin, gmax, hsamples, hgap, hhead, -, hown⟩ :=
        initSendLoop_first (h.framing hraw code) (cleared_clearSendBuffer b _) hbuild hpos hrun hok
      exact ⟨rest, gmin, gmax, hsamples, hgap, hhead, hown⟩

end Lirc
