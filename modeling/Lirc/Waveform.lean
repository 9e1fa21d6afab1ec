import Lirc.Transmit
import Lirc.Library.Signal

/-!
What the functions of `transmit.c` put into the send buffer, as signals:
each of them sends a list of parts, and a list of parts ends up in the
buffer as its run-length form.
-/

namespace Lirc

open Signal

/-- A pulse or a space goes into the buffer. -/
def sendPart (b : SBuf) (p : Part) : SBuf :=
  if p.high then sendPulse b p.len else sendSpace b p.len

def sendParts (b : SBuf) (ps : List Part) : SBuf := ps.foldl sendPart b

@[simp] theorem sendParts_nil (b : SBuf) : sendParts b [] = b := rfl

@[simp] theorem sendParts_cons (b : SBuf) (p : Part) (ps : List Part) :
    sendParts b (p :: ps) = sendParts (sendPart b p) ps := rfl

theorem sendParts_append (b : SBuf) (ps qs : List Part) :
    sendParts b (ps ++ qs) = sendParts (sendParts b ps) qs := by
  simp [sendParts, List.foldl_append]

@[simp] theorem sendPart_pulse (b : SBuf) (x : ℤ) : sendPart b (pulse x) = sendPulse b x := rfl

@[simp] theorem sendPart_space (b : SBuf) (x : ℤ) : sendPart b (space x) = sendSpace b x := rfl

/-! ### The signal of each part -/

section Parts

variable (r : IrRemote)

def headerParts : List Part :=
  if hasHeader r then [pulse r.phead, space r.shead] else []

def footParts : List Part :=
  if hasFoot r then [space r.sfoot, pulse r.pfoot] else []

def leadParts : List Part := if r.plead ≠ 0 then [pulse r.plead] else []

def trailParts : List Part := if r.ptrail ≠ 0 then [pulse r.ptrail] else []

def rcmmParts (data : IrCode) : List Part :=
  match (data &&& 3).toNat with
  | 0 => [pulse r.pzero, space r.szero]
  | 2 => [pulse r.pone, space r.sone]
  | 1 => [pulse r.ptwo, space r.stwo]
  | _ => [pulse r.pthree, space r.sthree]

def rcmmLoopParts : ℕ → IrCode → List Part
  | 0, _ => []
  | n + 1, data => rcmmParts r data ++ rcmmLoopParts n (data >>> 2)

def xmpLoopParts : ℕ → IrCode → List Part
  | 0, _ => []
  | n + 1, data =>
      [pulse r.pzero, space (r.szero + (reverse (data &&& 0xf) 4).toNat * r.sone)] ++
        xmpLoopParts n (data >>> 4)

def oneParts (mask : IrCode) : List Part :=
  if isBiphase r then
    if mask &&& r.rc6Mask != 0 then [space (2 * r.sone), pulse (2 * r.pone)]
    else [space r.sone, pulse r.pone]
  else if isSpaceFirst r then [space r.sone, pulse r.pone]
  else [pulse r.pone, space r.sone]

def zeroParts (mask : IrCode) : List Part :=
  if mask &&& r.rc6Mask != 0 then [pulse (2 * r.pzero), space (2 * r.szero)]
  else if isSpaceFirst r then [space r.szero, pulse r.pzero]
  else [pulse r.pzero, space r.szero]

def bitParts (mask : IrCode) (bit : Bool) : List Part :=
  if bit then oneParts r mask else zeroParts r mask

def bitLoopParts : ℕ → IrCode → IrCode → List Part
  | 0, _, _ => []
  | n + 1, data, mask =>
      bitParts r mask (toggledData r mask data &&& 1 != 0) ++
        bitLoopParts n (toggledData r mask data >>> 1) (mask >>> 1)

def dataParts (data : IrCode) (bits done : ℕ) : List Part :=
  if isRcmm r then
    if bits % 2 ≠ 0 ∨ done % 2 ≠ 0 then [] else rcmmLoopParts r (bits / 2) (reverse data bits)
  else if isXmp r then
    if bits % 4 ≠ 0 ∨ done % 4 ≠ 0 then [] else xmpLoopParts r (bits / 4) (reverse data bits)
  else bitLoopParts r bits (reverse data bits) ((1 : IrCode) <<< (bitCount r - 1 - done))

def prePauseParts : List Part :=
  if 0 < r.preP ∧ 0 < r.preS then [pulse r.preP, space r.preS] else []

def postPauseParts : List Part :=
  if 0 < r.postP ∧ 0 < r.postS then [pulse r.postP, space r.postS] else []

def preParts : List Part :=
  if hasPre r then dataParts r r.preData r.preDataBits 0 ++ prePauseParts r else []

def postParts : List Part :=
  if hasPost r then
    postPauseParts r ++ dataParts r r.postData r.postDataBits (r.preDataBits + r.bits)
  else []

/-- The signal of `send_code`. -/
def codeParts (code : IrCode) (rep : Bool) : List Part :=
  (if !rep || !r.has noHeadRep then headerParts r else []) ++ leadParts r ++ preParts r ++
    dataParts r code r.bits r.preDataBits ++ postParts r ++ trailParts r ++
    (if !rep || !r.has noFootRep then footParts r else [])

end Parts

section Send

variable (r : IrRemote) (b : SBuf)

theorem sendHeader_eq : sendHeader r b = sendParts b (headerParts r) := by
  unfold sendHeader headerParts; split <;> simp

theorem sendFoot_eq : sendFoot r b = sendParts b (footParts r) := by
  unfold sendFoot footParts; split <;> simp

theorem sendLead_eq : sendLead r b = sendParts b (leadParts r) := by
  unfold sendLead leadParts; split <;> simp

theorem sendTrail_eq : sendTrail r b = sendParts b (trailParts r) := by
  unfold sendTrail trailParts; split <;> simp

theorem sendRcmmSymbol_eq (data : IrCode) :
    sendRcmmSymbol r data b = sendParts b (rcmmParts r data) := by
  unfold sendRcmmSymbol rcmmParts
  generalize (data &&& 3).toNat = k
  rcases k with _ | _ | _ | _ <;> rfl

theorem sendRcmmLoop_eq (n : ℕ) (data : IrCode) :
    sendRcmmLoop r n data b = sendParts b (rcmmLoopParts r n data) := by
  induction n generalizing data b with
  | zero => rfl
  | succ n ih =>
      rw [sendRcmmLoop, rcmmLoopParts, sendParts_append, ih, sendRcmmSymbol_eq]

theorem sendXmpLoop_eq (n : ℕ) (data : IrCode) :
    sendXmpLoop r n data b = sendParts b (xmpLoopParts r n data) := by
  induction n generalizing data b with
  | zero => rfl
  | succ n ih => rw [sendXmpLoop, xmpLoopParts, sendParts_append, ih]; rfl

theorem sendOne_eq (mask : IrCode) : sendOne r mask b = sendParts b (oneParts r mask) := by
  unfold sendOne oneParts
  split
  · split <;> simp
  · split <;> simp

theorem sendZero_eq (mask : IrCode) : sendZero r mask b = sendParts b (zeroParts r mask) := by
  unfold sendZero zeroParts
  split
  · simp
  · split <;> simp

theorem sendBitLoop_eq (n : ℕ) (data mask : IrCode) :
    sendBitLoop r n data mask b = sendParts b (bitLoopParts r n data mask) := by
  induction n generalizing data mask b with
  | zero => rfl
  | succ n ih =>
      rw [sendBitLoop, bitLoopParts, sendParts_append]
      simp only [ih, bitParts]
      split
      · rw [sendOne_eq]
      · rw [sendZero_eq]

theorem sendData_eq (data : IrCode) (bits done : ℕ) :
    sendData r data bits done b = sendParts b (dataParts r data bits done) := by
  unfold sendData dataParts
  split
  · split
    · rfl
    · exact sendRcmmLoop_eq r b _ _
  · split
    · split
      · rfl
      · exact sendXmpLoop_eq r b _ _
    · exact sendBitLoop_eq r b _ _ _

theorem sendPre_eq : sendPre r b = sendParts b (preParts r) := by
  unfold sendPre preParts prePauseParts
  split
  · rw [sendParts_append, sendData_eq]
    split <;> simp
  · rfl

theorem sendPost_eq : sendPost r b = sendParts b (postParts r) := by
  unfold sendPost postParts postPauseParts
  split
  · rw [sendParts_append, sendData_eq]
    split <;> simp
  · rfl

/-- `send_code` sends the signal `codeParts` and may correct the sum. -/
theorem sendCode_eq (code : IrCode) (rep : Bool) :
    sendCode r code rep b =
      let b := sendParts b (codeParts r code rep)
      if !rep && r.has noHeadRep && r.has constLength then
        { b with sum := b.sum - (r.phead + r.shead) }
      else b := by
  have head : ∀ b : SBuf, (if !rep || !r.has noHeadRep then sendHeader r b else b) =
      sendParts b (if !rep || !r.has noHeadRep then headerParts r else []) := by
    intro b; split
    · exact sendHeader_eq r b
    · rfl
  have foot : ∀ b : SBuf, (if !rep || !r.has noFootRep then sendFoot r b else b) =
      sendParts b (if !rep || !r.has noFootRep then footParts r else []) := by
    intro b; split
    · exact sendFoot_eq r b
    · rfl
  simp only [sendCode, codeParts, head, foot, sendLead_eq, sendPre_eq, sendData_eq,
    sendPost_eq, sendTrail_eq, ← sendParts_append]

end Send

/-! ### What the buffer holds -/

/-- The samples added to the buffer's own array. -/
def SBuf.content (b : SBuf) : List ℤ := b.arr.toList.take b.wptr

/-- The counter stays inside the array. -/
structure SBuf.Sound (b : SBuf) : Prop where
  wptr_le : b.wptr ≤ wbufSize

/-- The pending sample of the buffer. A space is pending only after a pulse
has been added. -/
structure SBuf.Opened (b : SBuf) (cur : Part) : Prop where
  pos : 0 < cur.len
  pendingp : b.pendingp = if cur.high then cur.len else 0
  pendings : b.pendings = if cur.high then 0 else cur.len
  wptr_pos : cur.high = false → 0 < b.wptr

/-- `b'` holds the samples `ws` after those of `b`. -/
structure SBuf.Extended (b b' : SBuf) (ws : List ℤ) : Prop where
  sound : b'.Sound
  content : b'.content = b.content ++ ws
  wptr : b'.wptr = b.wptr + ws.length
  sum : b'.sum = b.sum + ws.sum
  data : b'.data = b.data

theorem SBuf.Sound.content_length {b : SBuf} (h : b.Sound) : b.content.length = b.wptr := by
  simp [SBuf.content, h.wptr_le]

theorem SBuf.Sound.extended_nil {b : SBuf} (h : b.Sound) : b.Extended b [] :=
  ⟨h, by simp, by simp, by simp, rfl⟩

theorem SBuf.Extended.trans {b b' b'' : SBuf} {ws vs : List ℤ} (h : b.Extended b' ws)
    (h' : b'.Extended b'' vs) : b.Extended b'' (ws ++ vs) where
  sound := h'.sound
  content := by rw [h'.content, h.content, List.append_assoc]
  wptr := by rw [h'.wptr, h.wptr, List.length_append, Nat.add_assoc]
  sum := by rw [h'.sum, h.sum, List.sum_append, Int.add_assoc]
  data := h'.data.trans h.data

@[simp] theorem addSendBuffer_pendingp (b : SBuf) (x : ℤ) :
    (addSendBuffer b x).pendingp = b.pendingp := by
  unfold addSendBuffer; split <;> rfl

@[simp] theorem addSendBuffer_pendings (b : SBuf) (x : ℤ) :
    (addSendBuffer b x).pendings = b.pendings := by
  unfold addSendBuffer; split <;> rfl

@[simp] theorem addSendBuffer_data (b : SBuf) (x : ℤ) :
    (addSendBuffer b x).data = b.data := by
  unfold addSendBuffer; split <;> rfl

theorem addSendBuffer_sound {b : SBuf} (h : b.Sound) (x : ℤ) : (addSendBuffer b x).Sound := by
  unfold addSendBuffer
  split
  · exact ⟨by simp; omega⟩
  · exact ⟨h.wptr_le⟩

/-- A buffer that was too small stays marked. -/
theorem addSendBuffer_tooLong {b : SBuf} (x : ℤ) (h : b.tooLong = true) :
    (addSendBuffer b x).tooLong = true := by
  unfold addSendBuffer; split <;> simp [h]

/-- There is room for a sample. -/
theorem addSendBuffer_fits {b : SBuf} {x : ℤ} (h : b.tooLong = false) (hlt : b.wptr < wbufSize) :
    (addSendBuffer b x).tooLong = false ∧ (addSendBuffer b x).wptr = b.wptr + 1 := by
  unfold addSendBuffer
  rw [dif_pos hlt]
  exact ⟨h, rfl⟩

/-- A sample that fits is added at the end. -/
theorem addSendBuffer_extended {b : SBuf} (hb : b.Sound) {x : ℤ}
    (h : (addSendBuffer b x).tooLong = false) : b.Extended (addSendBuffer b x) [x] := by
  have hlt : b.wptr < wbufSize := by
    by_contra hge
    simp [addSendBuffer, hge] at h
  have hlen : b.wptr < b.arr.toList.length := by simpa using hlt
  refine ⟨addSendBuffer_sound hb x, ?_, ?_, ?_, addSendBuffer_data b x⟩
  · simp only [SBuf.content, addSendBuffer, hlt, dif_pos, Vector.toList_set]
    rw [List.take_add_one, List.getElem?_set_self hlen, List.take_set_of_le (Nat.le_refl _)]
    rfl
  · simp [addSendBuffer, hlt]
  · simp [addSendBuffer, hlt]

/-- The first step of `sync_send_buffer` and of `flush_send_buffer`. -/
def closePulse (b : SBuf) : SBuf :=
  if 0 < b.pendingp then { addSendBuffer b b.pendingp with pendingp := 0 } else b

/-- The last step of `sync_send_buffer`. -/
def dropSpace (b : SBuf) : SBuf :=
  if 0 < b.wptr ∧ b.wptr % 2 = 0 then { b with wptr := b.wptr - 1 } else b

theorem syncSendBuffer_eq (b : SBuf) : syncSendBuffer b = dropSpace (closePulse b) := rfl

theorem closePulse_tooLong {b : SBuf} (h : b.tooLong = true) :
    (closePulse b).tooLong = true := by
  unfold closePulse
  split
  · exact addSendBuffer_tooLong _ h
  · exact h

theorem sendPart_tooLong {b : SBuf} (p : Part) (h : b.tooLong = true) :
    (sendPart b p).tooLong = true := by
  unfold sendPart
  split
  · unfold sendPulse
    split
    · exact h
    · dsimp only
      split
      · exact addSendBuffer_tooLong _ h
      · exact h
  · unfold sendSpace
    split
    · exact h
    · split
      · exact h
      · dsimp only
        split
        · exact addSendBuffer_tooLong _ h
        · exact h

theorem sendParts_tooLong {b : SBuf} (ps : List Part) (h : b.tooLong = true) :
    (sendParts b ps).tooLong = true := by
  induction ps generalizing b with
  | nil => exact h
  | cons p ps ih => exact ih (sendPart_tooLong p h)

theorem sendPart_data (b : SBuf) (p : Part) : (sendPart b p).data = b.data := by
  unfold sendPart
  split
  · unfold sendPulse
    split
    · rfl
    · dsimp only; split <;> simp
  · unfold sendSpace
    split
    · rfl
    · split
      · rfl
      · dsimp only; split <;> simp

theorem sendParts_data (b : SBuf) (ps : List Part) : (sendParts b ps).data = b.data := by
  induction ps generalizing b with
  | nil => rfl
  | cons p ps ih => rw [sendParts_cons, ih, sendPart_data]

theorem addSendBuffer_wptr_pos {b : SBuf} (x : ℤ)
    (h : (addSendBuffer b x).tooLong = false) : 0 < (addSendBuffer b x).wptr := by
  unfold addSendBuffer at h ⊢
  split <;> simp_all

/-- A part of the open level lengthens the open sample. -/
theorem sendPart_same {b : SBuf} {level : Bool} {a x : ℤ} (h : b.Opened ⟨level, a⟩)
    (hx : 0 < x) :
    (sendPart b ⟨level, x⟩).Opened ⟨level, a + x⟩ ∧
      (b.Sound → b.Extended (sendPart b ⟨level, x⟩) []) := by
  obtain ⟨hpos, hp, hs, hw⟩ := h
  cases level
  · simp only [Bool.false_eq_true, if_false, forall_const] at hp hs hpos hw
    have hsend : sendPart b ⟨false, x⟩ = { b with pendings := a + x } := by
      have h0 : ¬(b.wptr = 0 ∧ b.pendingp = 0) := by omega
      simp [sendPart, sendSpace, h0, hs, hpos]
    rw [hsend]
    refine ⟨⟨by simp; omega, by simp [hp], by simp, fun _ => hw⟩, fun hb => ?_⟩
    exact ⟨⟨hb.wptr_le⟩, by simp [SBuf.content], by simp, by simp, rfl⟩
  · simp only [if_true] at hp hs hpos
    have hsend : sendPart b ⟨true, x⟩ = { b with pendingp := a + x } := by
      simp [sendPart, sendPulse, hp, hpos]
    rw [hsend]
    refine ⟨⟨by simp; omega, by simp, by simp [hs], by simp⟩, fun hb => ?_⟩
    exact ⟨⟨hb.wptr_le⟩, by simp [SBuf.content], by simp, by simp, rfl⟩

/-- A part of the other level closes the open sample. -/
theorem sendPart_other {b : SBuf} {level : Bool} {a x : ℤ} (h : b.Opened ⟨level, a⟩)
    (hx : 0 < x) (hb : b.Sound) (hfit : (sendPart b ⟨!level, x⟩).tooLong = false) :
    (sendPart b ⟨!level, x⟩).Opened ⟨!level, x⟩ ∧
      b.Extended (sendPart b ⟨!level, x⟩) [a] := by
  obtain ⟨hpos, hp, hs, hw⟩ := h
  cases level
  · simp only [Bool.false_eq_true, if_false, forall_const] at hp hs hpos hw
    have hsend : sendPart b ⟨true, x⟩ =
        { addSendBuffer b a with pendings := 0, pendingp := x } := by
      simp [sendPart, sendPulse, hp, hs, hpos]
    rw [Bool.not_false, hsend] at hfit ⊢
    obtain ⟨hsound, hcontent, hwptr, hsum, hdata⟩ := addSendBuffer_extended hb hfit
    exact ⟨⟨hx, by simp, by simp, by simp⟩,
      ⟨⟨hsound.wptr_le⟩, hcontent, hwptr, hsum, hdata⟩⟩
  · simp only [if_true] at hp hs hpos
    have hsend : sendPart b ⟨false, x⟩ =
        { addSendBuffer b a with pendingp := 0, pendings := x } := by
      have h0 : ¬(b.wptr = 0 ∧ a = 0) := by omega
      simp [sendPart, sendSpace, h0, hs, hp, hpos]
    rw [Bool.not_true, hsend] at hfit ⊢
    obtain ⟨hsound, hcontent, hwptr, hsum, hdata⟩ := addSendBuffer_extended hb hfit
    exact ⟨⟨hx, by simp, by simp, fun _ => addSendBuffer_wptr_pos a hfit⟩,
      ⟨⟨hsound.wptr_le⟩, hcontent, hwptr, hsum, hdata⟩⟩

/-- Closing the open sample at the end of a signal. -/
theorem closePulse_extended {b : SBuf} {cur : Part} (h : b.Opened cur) (hb : b.Sound)
    (hfit : (closePulse b).tooLong = false) :
    b.Extended (closePulse b) ((waveFrom cur []).map Part.len) ∧
      (closePulse b).pendingp = 0 ∧ 0 ≤ (closePulse b).pendings := by
  obtain ⟨hpos, hp, hs, -⟩ := h
  cases hc : cur.high
  · have hclose : closePulse b = b := by simp [closePulse, hp, hc]
    simp only [hc, Bool.false_eq_true, if_false] at hp hs
    rw [hclose]
    exact ⟨by simpa [waveFrom, hc] using hb.extended_nil, hp, by omega⟩
  · have hclose : closePulse b = { addSendBuffer b cur.len with pendingp := 0 } := by
      simp [closePulse, hp, hc, hpos]
    rw [hclose] at hfit ⊢
    obtain ⟨hsound, hcontent, hwptr, hsum, hdata⟩ := addSendBuffer_extended hb hfit
    refine ⟨⟨⟨hsound.wptr_le⟩, ?_, ?_, ?_, hdata⟩, rfl, by simp [hs, hc]⟩
    · simpa [waveFrom, hc, SBuf.content] using hcontent
    · simpa [waveFrom, hc] using hwptr
    · simpa [waveFrom, hc] using hsum

/-- A signal that fits adds its run-length form to the buffer. -/
theorem sendParts_extended {b : SBuf} {cur : Part} {ps : List Part} (h : b.Opened cur)
    (hb : b.Sound) (hps : Positive ps)
    (hfit : (closePulse (sendParts b ps)).tooLong = false) :
    b.Extended (closePulse (sendParts b ps)) ((waveFrom cur ps).map Part.len) ∧
      (closePulse (sendParts b ps)).pendingp = 0 ∧
      0 ≤ (closePulse (sendParts b ps)).pendings := by
  induction ps generalizing b cur with
  | nil => exact closePulse_extended h hb hfit
  | cons p ps ih =>
      obtain ⟨hp, hps'⟩ := (positive_cons p ps).mp hps
      obtain ⟨level, x⟩ := p
      have hfit' : (sendPart b ⟨level, x⟩).tooLong = false := by
        by_contra hlong
        have := closePulse_tooLong (sendParts_tooLong ps (by simpa using hlong))
        simp_all
      obtain ⟨clevel, a⟩ := cur
      by_cases hl : level = clevel
      · subst hl
        obtain ⟨hopen, hext⟩ := sendPart_same h hp
        obtain ⟨hrest, hpend⟩ := ih hopen (hext hb).sound hps' hfit
        refine ⟨?_, hpend⟩
        simpa using (hext hb).trans hrest
      · have hl' : level = !clevel := by cases level <;> cases clevel <;> simp_all
        subst hl'
        obtain ⟨hopen, hext⟩ := sendPart_other h hp hb hfit'
        obtain ⟨hrest, hpend⟩ := ih hopen hext.sound hps' hfit
        refine ⟨?_, hpend⟩
        have hne : ¬((!clevel) = clevel) := by cases clevel <;> simp
        simpa [waveFrom, hne] using hext.trans hrest

/-- A signal that starts with a pulse, sent while nothing is pending. -/
theorem sendParts_start {b : SBuf} {a : ℤ} {ps : List Part} (hb : b.Sound) (ha : 0 < a)
    (hps : Positive ps) (hpp : b.pendingp = 0) (hpd : b.pendings = 0)
    (hfit : (closePulse (sendParts b (pulse a :: ps))).tooLong = false) :
    b.Extended (closePulse (sendParts b (pulse a :: ps)))
      ((wave (pulse a :: ps)).map Part.len) ∧
      (closePulse (sendParts b (pulse a :: ps))).pendingp = 0 ∧
      0 ≤ (closePulse (sendParts b (pulse a :: ps))).pendings := by
  have hsend : sendPart b (pulse a) = { b with pendingp := a } := by
    simp [sendPart, sendPulse, hpp, hpd]
  have hopen : ({ b with pendingp := a } : SBuf).Opened (pulse a) :=
    ⟨ha, by simp, by simpa using hpd, by simp⟩
  rw [sendParts_cons, hsend] at hfit ⊢
  have hb' : ({ b with pendingp := a } : SBuf).Sound := ⟨hb.wptr_le⟩
  obtain ⟨hext, hpend⟩ := sendParts_extended hopen hb' hps hfit
  exact ⟨⟨hext.sound, hext.content, hext.wptr, hext.sum, hext.data⟩, hpend⟩

end Lirc
