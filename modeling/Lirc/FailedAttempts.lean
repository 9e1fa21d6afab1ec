import Lirc.Library.Run
import Lirc.PutBack
import Lirc.Soundness

/-!
What a failed attempt of `receive_decode` leaves to the next remote. An
attempt is a row of calls of `get_data`; between them it only appends to the
buffer. Two places of `get_data` write: the serial decoder puts what is left
behind its last stop bit back into the buffer, and the timings of a Goldstar
remote are set anew for every bit.
-/

namespace Lirc

open Loop

/-! ### The timings of a Goldstar remote -/

section Goldstar

variable {hw : Hardware} {bits done : ℕ}

theorem goldstarTimings_of_not {r : IrRemote} (h : isGoldstar r = false) (bit : ℕ) :
    goldstarTimings r bit = r := by
  rw [goldstarTimings, if_neg (ne_true_of_eq_false h)]

theorem isGoldstar_timings (r : IrRemote) (bit : ℕ) :
    isGoldstar (goldstarTimings r bit) = isGoldstar r := by
  rw [goldstarTimings]
  split
  · split <;> rfl
  · rfl

/-- Every bit sets the timings anew. -/
theorem goldstarTimings_again (r : IrRemote) (i j : ℕ) :
    goldstarTimings (goldstarTimings r i) j = goldstarTimings r j := by
  cases h : isGoldstar r with
  | false => rw [goldstarTimings_of_not h i]
  | true =>
      rw [goldstarTimings, isGoldstar_timings, if_pos h, goldstarTimings, goldstarTimings,
        if_pos h, if_pos h]
      split <;> split <;> rfl

/-- The loop over the single bits comes to this bit and to no other behind it. -/
def LastBit (hw : Hardware) (c : SegmentCall) (i : ℕ) : Prop :=
  ∃ y, Reaches (bitBody hw c.bits c.done) (0, 0, c.remote, c.buf) y ∧ y.1 = i ∧ i < c.bits ∧
    ∀ z, bitBody hw c.bits c.done y = .inl z → c.bits ≤ z.1

/-- A bit sets the timings of its place. -/
theorem bitBody_remote {x : ℕ × IrCode × IrRemote × RBuf} (hlt : x.1 < bits) :
    (∀ y, bitBody hw bits done x = .inl y → y.2.2.1 = goldstarTimings x.2.2.1 (done + x.1)) ∧
      ∀ out, bitBody hw bits done x = .inr out →
        out.2.1 = goldstarTimings x.2.2.1 (done + x.1) := by
  obtain ⟨i, code, r, b⟩ := x
  dsimp only at hlt ⊢
  rw [bitBody]
  dsimp only
  rw [if_pos hlt]
  rcases expectOne hw (goldstarTimings r (done + i)) (done + i) b with ⟨_ | _, b₁⟩
  · dsimp only
    rcases expectZero hw (goldstarTimings r (done + i)) (done + i) b₁ with ⟨_ | _, b₂⟩
    · refine ⟨fun y h => (by cases h), fun out h => ?_⟩
      obtain rfl := Sum.inr.inj h
      rfl
    · refine ⟨fun y h => ?_, fun out h => (by cases h)⟩
      obtain rfl := Sum.inl.inj h
      rfl
  · refine ⟨fun y h => ?_, fun out h => (by cases h)⟩
    obtain rfl := Sum.inl.inj h
    rfl

theorem bitBody_over {x : ℕ × IrCode × IrRemote × RBuf} (hle : bits ≤ x.1) :
    bitBody hw bits done x = .inr (x.2.1, x.2.2.1, x.2.2.2) := if_neg (not_lt.mpr hle)

/-- The bits change nothing of a remote but the timings of a one. -/
theorem reaches_bitBody_remote {r : IrRemote} {b : RBuf} {y : ℕ × IrCode × IrRemote × RBuf}
    (h : Reaches (bitBody hw bits done) (0, 0, r, b) y) (i : ℕ) :
    goldstarTimings y.2.2.1 i = goldstarTimings r i := by
  refine h.invariant (I := fun z => goldstarTimings z.2.2.1 i = goldstarTimings r i)
    (fun z z' hz hbody => ?_) rfl
  have hlt : z.1 < bits := by
    by_contra hnot
    rw [bitBody_over (not_lt.mp hnot)] at hbody
    cases hbody
  rw [(bitBody_remote hlt).1 z' hbody, ← hz]
  exact goldstarTimings_again _ _ _

theorem exists_lastBit {x : ℕ × IrCode × IrRemote × RBuf} {out : IrCode × IrRemote × RBuf}
    (h : Returns (bitBody hw bits done) x out) (hlt : x.1 < bits) :
    ∃ y, Reaches (bitBody hw bits done) x y ∧ y.1 < bits ∧
      ∀ z, bitBody hw bits done y = .inl z → bits ≤ z.1 := by
  obtain ⟨k, hk⟩ := h
  induction k generalizing x with
  | zero => cases hk
  | succ k ih =>
      by_cases hnext : ∃ z, bitBody hw bits done x = .inl z ∧ z.1 < bits
      · obtain ⟨z, hz, hzlt⟩ := hnext
        rw [runFor_of_inl hz] at hk
        obtain ⟨y, hreach, hrest⟩ := ih hzlt hk
        exact ⟨y, .round hz hreach, hrest⟩
      · exact ⟨x, .refl x, hlt, fun z hz => not_lt.mp fun hzlt => hnext ⟨z, hz, hzlt⟩⟩

/-- The remote is left with the timings of the last bit. -/
theorem lastBit_remote {x y : ℕ × IrCode × IrRemote × RBuf} {out : IrCode × IrRemote × RBuf}
    (h : Returns (bitBody hw bits done) x out) (hreach : Reaches (bitBody hw bits done) x y)
    (hlt : y.1 < bits) (hlast : ∀ z, bitBody hw bits done y = .inl z → bits ≤ z.1) :
    out.2.1 = goldstarTimings y.2.2.1 (done + y.1) := by
  have hret := hreach.returns_iff.mp h
  cases hbody : bitBody hw bits done y with
  | inr out' =>
      rw [← (returns_of_inr hbody).mp hret]
      exact (bitBody_remote hlt).2 out' hbody
  | inl z =>
      have hend : bitBody hw bits done z = .inr (z.2.1, z.2.2.1, z.2.2.2) :=
        bitBody_over (hlast z hbody)
      have hz := (returns_of_inl hbody).mp hret
      rw [← (returns_of_inr hend).mp hz]
      exact (bitBody_remote hlt).1 z hbody

variable {r : IrRemote} {b : RBuf}

theorem getData_of_goldstar (h : isGoldstar r = true) :
    Returns (bitBody hw bits done) (0, 0, r, b) (getData hw r bits done b) := by
  have hrcmm : ¬isRcmm r = true := ne_true_of_eq_false (protocolIs_unique h (by decide))
  have hgrundig : ¬isGrundig r = true := ne_true_of_eq_false (protocolIs_unique h (by decide))
  have hserial : ¬isSerial r = true := ne_true_of_eq_false (protocolIs_unique h (by decide))
  have hbo : ¬isBo r = true := ne_true_of_eq_false (protocolIs_unique h (by decide))
  have hxmp : ¬isXmp r = true := ne_true_of_eq_false (protocolIs_unique h (by decide))
  rw [getData, if_neg hrcmm, if_neg hgrundig, if_neg hserial, if_neg hbo, if_neg hxmp]
  exact ⟨_, runFor_bitBody (Nat.zero_add bits).symm 0 r b⟩

theorem getData_lastBit {i : ℕ} (h : isGoldstar r = true)
    (hlast : LastBit hw ⟨r, bits, done, b⟩ i) :
    (getData hw r bits done b).2.1 = goldstarTimings r (done + i) := by
  obtain ⟨y, hreach, rfl, hlt, hlast⟩ := hlast
  rw [lastBit_remote (getData_of_goldstar h) hreach hlt hlast]
  exact reaches_bitBody_remote hreach _

end Goldstar

/-! ### A call of `get_data` -/

section Call

variable {hw : Hardware} {r : IrRemote} {bits done : ℕ} {b : RBuf} {D : List ℕ}

/-- The other decoders only read. -/
theorem getData_grows (h : isSerial r = false) : b.Grows (getData hw r bits done b).2.2 := by
  rw [getData_eq_matchData]
  show b.Grows (matchData hw r bits done b).2.2
  unfold matchData
  split
  · split
    · exact .refl b
    have hsync := syncPendingSpace_grows hw r b
    generalize syncPendingSpace hw r b = x at hsync ⊢
    rcases x with ⟨_ | _, b₁⟩
    · exact hsync
    · exact hsync.trans ((reads_rcmmSymbol hw r).readSymbols _ _ _ _ _)
  split
  · split
    · exact .refl b
    have hsync := syncPendingPulse_grows hw r b
    generalize syncPendingPulse hw r b = x at hsync ⊢
    rcases x with ⟨_ | _, b₁⟩
    · exact hsync
    · exact hsync.trans ((reads_grundigPair hw r).readSymbols _ _ _ _ _)
  split
  · next hserial => exact absurd hserial (ne_true_of_eq_false h)
  split
  · exact (reads_boSymbol hw r).readSymbols _ _ _ _ _
  split
  · split
    · exact .refl b
    have hsync := syncPendingSpace_grows hw r b
    generalize syncPendingSpace hw r b = x at hsync ⊢
    rcases x with ⟨_ | _, b₁⟩
    · exact hsync
    · exact hsync.trans ((reads_xmpSymbol r).readSymbols _ _ _ _ _)
  · exact (reads_bitSymbol hw).readSymbols _ _ _ _ _

theorem getData_of_serial (h : isSerial r = true) :
    getData hw r bits done b = ((getSerial hw r bits b).1, r, (getSerial hw r bits b).2) := by
  have hrcmm : ¬isRcmm r = true := ne_true_of_eq_false (protocolIs_unique h (by decide))
  have hgrundig : ¬isGrundig r = true := ne_true_of_eq_false (protocolIs_unique h (by decide))
  rw [getData, if_neg hrcmm, if_neg hgrundig, if_pos h]

theorem getData_readSerial (h : isSerial r = true) :
    (getData hw r bits done b).2.2 = (readSerial hw r bits b).2 := by
  have hrcmm : ¬isRcmm r = true := ne_true_of_eq_false (protocolIs_unique h (by decide))
  have hgrundig : ¬isGrundig r = true := ne_true_of_eq_false (protocolIs_unique h (by decide))
  rw [getData_eq_matchData, matchData, if_neg hrcmm, if_neg hgrundig, if_pos h]

/-- Only a Goldstar remote changes. -/
theorem getData_keepsRemote (h : isGoldstar r = false ∨ bits = 0) :
    (getData hw r bits done b).2.1 = r := by
  have hloop : (getBitLoop hw bits done 0 r b).2.1 = r := by
    obtain h | rfl := h
    · exact getBitLoop_remote h bits done 0 b
    · rfl
  unfold getData
  split
  · split
    · rfl
    rcases syncPendingSpace hw r b with ⟨_ | _, b₁⟩ <;> rfl
  split
  · split
    · rfl
    rcases syncPendingPulse hw r b with ⟨_ | _, b₁⟩ <;> rfl
  split
  · rfl
  split
  · rfl
  split
  · split
    · rfl
    rcases syncPendingSpace hw r b with ⟨_ | _, b₁⟩ <;> rfl
  · exact hloop

/-- The loop of the serial decoder comes to a stop bit that leaves a rest of one of the first
`n` samples. -/
def SegmentCall.PutsBack (hw : Hardware) (n : ℕ) (c : SegmentCall) : Prop :=
  ∃ y, Reaches (serialDataBody hw c.remote c.bits) (serialStartState c.remote c.buf) y ∧
    LeavesRest hw c.remote c.bits n y

theorem getData_holds (hb : Holds D b)
    (h : isSerial r = true → ¬SegmentCall.PutsBack hw D.length ⟨r, bits, done, b⟩) :
    Holds D (getData hw r bits done b).2.2 := by
  cases hserial : isSerial r with
  | false => exact (getData_grows hserial).holds hb
  | true =>
      rw [getData_readSerial hserial]
      exact readSerial_holds hb fun y hreach hrest => h hserial ⟨y, hreach, hrest⟩

theorem getNextPulse_of_space {w : ℕ} (hword : b.data[b.rptr]? = some w)
    (hspace : isPulse w = false) (m : ℤ) : (getNextPulse b m).1 = 0 := by
  have hread : (getNextRecBuffer b m).1 = w := by
    rw [getNextRecBuffer, getNextRecBufferInternal, hword]
  unfold getNextPulse
  generalize getNextRecBuffer b m = x at hread ⊢
  obtain ⟨v, b'⟩ := x
  obtain rfl : v = w := hread
  dsimp only
  split
  · rfl
  · rw [if_pos (by simp [hspace])]

theorem getSerial_of_inr {out : IrCode × RBuf}
    (h : serialDataBody hw r bits (serialStartState r b) = .inr out) :
    getSerial hw r bits b = out := by
  have hfuel : 1 ≤ serialFuel (serialTotal r bits) (r.bitsInByte + parityBits r)
      (serialMaxSpace r) b := by
    rw [serialFuel]
    omega
  exact getSerialLoop_of_runFor (runFor_mono (runFor_of_inr h) hfuel)

/-- The serial decoder fails at a space that stands where its start bit is due. -/
theorem getData_of_spoiled (hserial : isSerial r = true) (hbase : 0 < bitTime r)
    (hb : Spoiled D b) :
    Spoiled D (getData hw r bits done b).2.2 ∨
      (getData hw r bits done b).1 = noCode ∧ b.Grows (getData hw r bits done b).2.2 := by
  rw [getData_of_serial hserial]
  by_cases hgo : (serialStartState r b).1.received < serialTotal r bits ∨
      (serialStartState r b).1.stopBit = true
  · refine .inr ?_
    obtain ⟨w, hword, hspace⟩ := hb.space
    have hlevel : ¬(serialStartState r b).1.space = true := by
      show ¬(bitTime r == 0) = true
      rw [beq_iff_eq]
      exact ne_of_gt hbase
    have hread := @getNextPulse_of_space (serialStartState r b).2 w hword hspace (serialMaxPulse r)
    have hnone : (sampleAtHand r bits (serialStartState r b)).1.delta = 0 := by
      have hzero : (serialStartState r b).1.delta = 0 := rfl
      rw [sampleAtHand, serialLoad, if_pos hzero, if_neg hlevel]
      dsimp only
      rw [hread, if_neg fun h => hlevel h.2.1]
    have hround : serialRound hw r (serialTotal r bits) (parityBits r) (bitTime r) (stopTime r)
        (serialMaxSpace r) (serialMaxPulse r) (serialStartState r b).1 (serialStartState r b).2 =
          (none, (sampleAtHand r bits (serialStartState r b)).2) := serialRound_of_zero rfl hnone
    have hgrows := serialRound_grows hw r (serialTotal r bits) (parityBits r) (bitTime r)
      (stopTime r) (serialMaxSpace r) (serialMaxPulse r) (serialStartState r b).1
      (serialStartState r b).2
    rw [hround] at hgrows
    rw [@getSerial_of_inr hw r bits b (noCode, (sampleAtHand r bits (serialStartState r b)).2)
      (by rw [serialDataBody, serialBody, if_pos hgo, hround])]
    exact ⟨rfl, hgrows⟩
  · refine .inl ?_
    rw [@getSerial_of_inr hw r bits b (0, { b with pendingp := 0, pendings := 0 })
      (by rw [serialDataBody, serialBody, if_neg hgo]; rfl)]
    exact ⟨hb.changed, hb.within, hb.space, rfl, rfl⟩

end Call

/-! ### The calls of an attempt -/

section Calls

variable (hw : Hardware)

/-- What `get_pre` and `get_post` do between two calls of `get_data`. -/
def Joined (r : IrRemote) (b b' : RBuf) : Prop :=
  b' = b ∨ ∃ x p, (expectPulse hw r b x).1 = true ∧
    b' = { (expectPulse hw r b x).2 with pendings := p }

/-- The calls of `get_data` lead from one remote and buffer to the others. A call that fails is
the last one; behind it samples are read only. -/
inductive Calls : IrRemote → RBuf → List SegmentCall → IrRemote → RBuf → Prop
  | done {r : IrRemote} {b b' : RBuf} (hgrows : b.Grows b') : Calls r b [] r b'
  | call {r r' : IrRemote} {b b₁ b' : RBuf} {bits done : ℕ} {cs : List SegmentCall}
      (hjoined : Joined hw r b b₁) (hstop : (getData hw r bits done b₁).1 = noCode → cs = [])
      (hrest : Calls (getData hw r bits done b₁).2.1 (getData hw r bits done b₁).2.2 cs r' b') :
      Calls r b (⟨r, bits, done, b₁⟩ :: cs) r' b'

variable {hw} {r r' : IrRemote} {b b₁ b' : RBuf} {cs : List SegmentCall}

theorem Joined.grows (h : Joined hw r b b') : b.Grows b' := by
  obtain rfl | ⟨x, p, -, rfl⟩ := h
  · exact .refl _
  · exact expectPulse_grows hw r b x

theorem joined_of_pulse {x : ℤ} (h : expectPulse hw r b x = (true, b')) (p : ℤ) :
    Joined hw r b { b' with pendings := p } :=
  .inr ⟨x, p, by rw [h], by rw [h]⟩

theorem decodePost_calls (header : Bool) (pre code : IrCode) (r : IrRemote) (b : RBuf) :
    Calls hw r b (postCalls hw r b) (decodePost hw header pre code r b).2.1
      (decodePost hw header pre code r b).2.2 := by
  have hclose : ∀ (r' : IrRemote) (b' : RBuf) (post : IrCode), Calls hw r' b' []
      (if hasPost r' ∧ post = noCode then (none, r', b')
        else if (closeSignal hw r' header b').1 then
          (some (pre, code, post), r', (closeSignal hw r' header b').2)
        else (none, r', (closeSignal hw r' header b').2)).2.1
      (if hasPost r' ∧ post = noCode then
          ((none : Option (IrCode × IrCode × IrCode)), r', b')
        else if (closeSignal hw r' header b').1 then
          (some (pre, code, post), r', (closeSignal hw r' header b').2)
        else (none, r', (closeSignal hw r' header b').2)).2.2 := by
    intro r' b' post
    split
    · exact .done (.refl b')
    · split
      · exact .done (closeSignal_grows hw r' header b')
      · exact .done (closeSignal_grows hw r' header b')
  unfold decodePost
  by_cases hpost : hasPost r = true
  swap
  · have hcalls : postCalls hw r b = [] := by simp [postCalls, hpost]
    rw [hcalls, if_neg hpost]
    exact hclose r b 0
  rw [if_pos hpost, getPost_eq]
  by_cases hok : (postSeparator hw r b).1 = true
  · have hcalls : postCalls hw r b =
        [⟨r, r.postDataBits, r.preDataBits + r.bits, (postSeparator hw r b).2⟩] := by
      simp [postCalls, hpost, hok]
    rw [hcalls, if_neg (by simp [hok])]
    refine .call ?_ (fun _ => rfl) ?_
    · unfold postSeparator at hok ⊢
      split at hok
      · next hpulse =>
          rw [if_pos hpulse]
          cases hx : expectPulse hw r b r.postP with
          | mk ok b₁ =>
              rw [hx] at hok
              cases ok with
              | false => cases hok
              | true => exact joined_of_pulse hx r.postS
      · next hpulse =>
          rw [if_neg hpulse]
          exact .inl rfl
    · exact hclose _ _ _
  · have hcalls : postCalls hw r b = [] := by simp [postCalls, hok]
    rw [hcalls, if_pos (by simp [hok])]
    dsimp only
    rw [if_pos ⟨hpost, rfl⟩]
    exact .done (postSeparator_grows hw r b)

theorem decodeCode_calls (header : Bool) (pre : IrCode) (hjoined : Joined hw r b₁ b) :
    Calls hw r b₁ (codeCalls hw r b) (decodeCode hw header pre r b).2.1
      (decodeCode hw header pre r b).2.2 := by
  refine .call hjoined (fun h => if_pos h) ?_
  unfold decodeCode
  generalize getData hw r r.bits r.preDataBits b = x
  obtain ⟨code, r', b'⟩ := x
  dsimp only
  by_cases hcode : code = noCode
  · rw [if_pos hcode, if_pos hcode]
    exact .done (.refl b')
  · rw [if_neg hcode, if_neg hcode]
    exact decodePost_calls header pre code r' b'

/-- The pre data, and the pulse and the space behind it. -/
theorem getPre_cases (hw : Hardware) (r : IrRemote) (b : RBuf) :
    (getPre hw r b).2.1 = (getData hw r r.preDataBits 0 b).2.1 ∧
      ((getPre hw r b).1 = noCode ∧
          (getData hw r r.preDataBits 0 b).2.2.Grows (getPre hw r b).2.2 ∨
        (getPre hw r b).1 ≠ noCode ∧
          Joined hw (getPre hw r b).2.1 (getData hw r r.preDataBits 0 b).2.2
            (getPre hw r b).2.2) := by
  unfold getPre
  generalize getData hw r r.preDataBits 0 b = x
  obtain ⟨pre, r', b₂⟩ := x
  dsimp only
  by_cases hcode : pre = noCode
  · rw [if_pos hcode]
    exact ⟨rfl, .inl ⟨rfl, .refl b₂⟩⟩
  rw [if_neg hcode]
  by_cases hpause : 0 < r'.preP ∧ 0 < r'.preS
  · rw [if_pos hpause]
    have hgrows := expectPulse_grows hw r' b₂ r'.preP
    cases hx : expectPulse hw r' b₂ r'.preP with
    | mk ok b₃ =>
        rw [hx] at hgrows
        cases ok with
        | false => exact ⟨rfl, .inl ⟨rfl, hgrows⟩⟩
        | true => exact ⟨rfl, .inr ⟨hcode, joined_of_pulse hx r'.preS⟩⟩
  · rw [if_neg hpause]
    exact ⟨rfl, .inr ⟨hcode, .inl rfl⟩⟩

theorem getPre_of_failed (h : (getData hw r r.preDataBits 0 b).1 = noCode) :
    (getPre hw r b).1 = noCode := by
  unfold getPre
  generalize getData hw r r.preDataBits 0 b = x at h ⊢
  obtain ⟨pre, r', b₂⟩ := x
  exact congrArg Prod.fst (if_pos h)

/-- Lead, data, trail, foot and gap. -/
theorem decodeBits_calls (header : Bool) (r : IrRemote) (b : RBuf) :
    ∃ b₁, b.Grows b₁ ∧ Calls hw r b₁ (segmentCalls hw r b) (decodeBits hw r header b).2.1
      (decodeBits hw r header b).2.2 := by
  have hlead := getLead_grows hw r b
  rw [decodeBits_eq]
  unfold segmentCalls
  generalize getLead hw r b = lead at hlead ⊢
  rcases lead with ⟨_ | _, b₁⟩
  · exact ⟨b₁, hlead, .done (.refl b₁)⟩
  refine ⟨b₁, hlead, ?_⟩
  simp only [Bool.not_true, Bool.false_eq_true, if_false, if_true]
  unfold preCalls
  by_cases hp : hasPre r = true
  swap
  · rw [if_neg hp, if_neg hp]
    simp only [hp, Bool.false_eq_true, if_false, false_and]
    exact decodeCode_calls header 0 (.inl rfl)
  rw [if_pos hp, if_pos hp]
  obtain ⟨hremote, hcases⟩ := getPre_cases hw r b₁
  refine .call (.inl rfl) (fun h => if_pos (getPre_of_failed h)) ?_
  have hpre := hasPre_getPre hw r b₁
  rw [← hremote]
  generalize getPre hw r b₁ = x at hpre hcases ⊢
  obtain ⟨pre, r', b₂⟩ := x
  dsimp only at hpre hcases ⊢
  obtain ⟨hcode, hgrows⟩ | ⟨hcode, hjoined⟩ := hcases
  · rw [if_pos hcode, if_pos ⟨hpre.trans hp, hcode⟩]
    exact .done hgrows
  · rw [if_neg hcode, if_neg fun h => hcode h.2]
    exact decodeCode_calls header pre hjoined

/-- The calls of `get_data` for a signal that is not a repeat code. -/
def signalCalls (hw : Hardware) (r : IrRemote) (b : RBuf) : List SegmentCall :=
  if isRaw r ∨ hw.recMode = modeLirccode then [] else segmentCalls hw r b

/-- The calls of `get_data` in `receive_decode`. -/
def receiveCalls (hw : Hardware) (r : IrRemote) (last : LastRemote) (b : RBuf) :
    List SegmentCall :=
  if pulseSpaceMode hw then
    let b := { rewindRecBuffer b with isBiphase := isBiphase r }
    let (sync, r, b) := syncRecBuffer hw r last b
    if sync = 0 then []
    else
      let next : (Option Decoded × IrRemote × RBuf) ⊕ (IrRemote × RBuf) :=
        if hasRepeat r && last == .same then decodeRepeat hw r last b else .inr (r, b)
      match next with
      | .inl _ => []
      | .inr (r, b) =>
          match decodeHeader hw r sync b with
          | (none, _) => []
          | (some _, b) => signalCalls hw r b
  else signalCalls hw r b

/-- An attempt: samples are read, then the calls follow. -/
def DecodeAttempt (hw : Hardware) (r : IrRemote) (b : RBuf) (cs : List SegmentCall) (r' : IrRemote)
    (b' : RBuf) : Prop :=
  ∃ r₁ b₁, SameConfig r r₁ ∧ b.Grows b₁ ∧ Calls hw r₁ b₁ cs r' b'

theorem DecodeAttempt.read (hconfig : SameConfig r r') (hgrows : b.Grows b') :
    DecodeAttempt hw r b [] r' b' := ⟨r', b', hconfig, hgrows, .done (.refl b')⟩

theorem DecodeAttempt.behind {r₀ : IrRemote} {b₀ : RBuf} (h : DecodeAttempt hw r b cs r' b')
    (hconfig : SameConfig r₀ r) (hgrows : b₀.Grows b) : DecodeAttempt hw r₀ b₀ cs r' b' := by
  obtain ⟨r₁, b₁, hconfig', hgrows', hcalls⟩ := h
  exact ⟨r₁, b₁, hconfig.trans hconfig', hgrows.trans hgrows', hcalls⟩

theorem decodeSignal_attempt (r : IrRemote) (last : LastRemote) (now : ℕ) (sync : ℤ)
    (header : Bool) (b : RBuf) :
    DecodeAttempt hw r b (signalCalls hw r b) (decodeSignal hw r last now sync header b).2.1
      (decodeSignal hw r last now sync header b).2.2 := by
  unfold signalCalls decodeSignal
  by_cases hraw : isRaw r = true
  · rw [if_pos (Or.inl hraw), if_pos hraw]
    split
    · exact .read (.refl r) (.refl b)
    obtain ⟨hconfig, hgrows⟩ := decodeRaw_grows hw last r.codes r b
    generalize decodeRaw hw last r.codes r b = x at hconfig hgrows ⊢
    rcases x with ⟨_ | code, r', b'⟩
    · exact .read hconfig hgrows
    · exact .read hconfig hgrows
  rw [if_neg hraw]
  by_cases hcode : hw.recMode = modeLirccode
  · rw [if_pos (Or.inr hcode), if_pos hcode]
    have hgrows := decodeLirccode_grows hw r now b
    generalize decodeLirccode hw r now b = x at hgrows ⊢
    rcases x with ⟨_ | ⟨pre, code, post, sync'⟩, b'⟩
    · exact .read (.refl r) hgrows
    · exact .read (.refl r) hgrows
  · rw [if_neg hcode, if_neg (not_or.mpr ⟨hraw, hcode⟩)]
    obtain ⟨b₁, hgrows, hcalls⟩ := @decodeBits_calls hw header r b
    refine ⟨r, b₁, .refl r, hgrows, ?_⟩
    generalize decodeBits hw r header b = x at hcalls ⊢
    rcases x with ⟨_ | ⟨pre, code, post⟩, r', b'⟩
    · exact hcalls
    · exact hcalls

/-- An attempt is made up of its calls of `get_data`. -/
theorem receiveDecode_attempt (r : IrRemote) (last : LastRemote) (now : ℕ) (b : RBuf) :
    DecodeAttempt hw r b (receiveCalls hw r last b) (receiveDecode hw r last now b).2.1
      (receiveDecode hw r last now b).2.2 := by
  unfold receiveCalls receiveDecode
  by_cases hmode : pulseSpaceMode hw = true
  swap
  · rw [if_neg hmode, if_neg hmode]
    exact decodeSignal_attempt r last now 0 false b
  rw [if_pos hmode, if_pos hmode]
  have hrewind : b.Grows { rewindRecBuffer b with isBiphase := isBiphase r } := .refl b
  generalize ({ rewindRecBuffer b with isBiphase := isBiphase r } : RBuf) = b₀ at hrewind ⊢
  have hconfig := syncRecBuffer_sameConfig hw r last b₀
  have hsync := hrewind.trans (syncRecBuffer_grows hw r last b₀)
  dsimp only
  generalize syncRecBuffer hw r last b₀ = x at hconfig hsync ⊢
  rcases x with ⟨sync, r₁, b₁⟩
  dsimp only at hconfig hsync ⊢
  by_cases hzero : sync = 0
  · rw [if_pos hzero, if_pos hzero]
    exact .read hconfig hsync
  rw [if_neg hzero, if_neg hzero]
  have hnext : SameConfig r (afterRepeat
        (if hasRepeat r₁ && last == .same then decodeRepeat hw r₁ last b₁ else .inr (r₁, b₁))).1 ∧
      b.Grows (afterRepeat
        (if hasRepeat r₁ && last == .same then decodeRepeat hw r₁ last b₁
        else .inr (r₁, b₁))).2 := by
    split
    · obtain ⟨hrep, hgrows⟩ := decodeRepeat_grows hw r₁ last b₁
      exact ⟨hconfig.trans hrep, hsync.trans hgrows⟩
    · exact ⟨hconfig, hsync⟩
  generalize (if hasRepeat r₁ && last == .same then decodeRepeat hw r₁ last b₁
    else .inr (r₁, b₁)) = next at hnext ⊢
  rcases next with ⟨d, r₂, b₂⟩ | ⟨r₂, b₂⟩
  · exact .read hnext.1 hnext.2
  obtain ⟨hconfig₂, hb₂⟩ := hnext
  have hheader := hb₂.trans (decodeHeader_grows hw r₂ sync b₂)
  dsimp only at hconfig₂ ⊢
  generalize decodeHeader hw r₂ sync b₂ = y at hheader ⊢
  rcases y with ⟨_ | header, b₃⟩
  · exact .read hconfig₂ hheader
  · exact (decodeSignal_attempt r₂ last now sync header b₃).behind hconfig₂ hheader

end Calls

/-! ### What an attempt writes -/

section Writes

variable {hw : Hardware} {r r' : IrRemote} {b b' : RBuf} {cs : List SegmentCall} {D : List ℕ}

theorem isSerial_getData (bits done : ℕ) (r : IrRemote) (b : RBuf) :
    isSerial (getData hw r bits done b).2.1 = isSerial r := by
  obtain ⟨p, s, hr⟩ := getData_timings hw r bits done b
  rw [hr]
  rfl

theorem isGoldstar_getData (bits done : ℕ) (r : IrRemote) (b : RBuf) :
    isGoldstar (getData hw r bits done b).2.1 = isGoldstar r := by
  obtain ⟨p, s, hr⟩ := getData_timings hw r bits done b
  rw [hr]
  rfl

/-- The samples stay when no rest of one of them is put back. -/
theorem Calls.holds (h : Calls hw r b cs r' b') (hb : Holds D b)
    (hfree : isSerial r = true → ∀ c ∈ cs, ¬c.PutsBack hw D.length) : Holds D b' := by
  induction h with
  | done hgrows => exact hgrows.holds hb
  | @call r r' b b₁ b' bits done cs hjoined hstop hrest ih =>
      have hdata : Holds D (getData hw r bits done b₁).2.2 :=
        getData_holds (hjoined.grows.holds hb) fun hserial => hfree hserial _ List.mem_cons_self
      refine ih hdata fun hserial c hc => ?_
      rw [isSerial_getData] at hserial
      exact hfree hserial c (List.mem_cons_of_mem _ hc)

theorem Spoiled.grows (h : Spoiled D b) (hgrows : b.Grows b') : ¬Holds D b' := by
  have hpre : b.data <+: b'.data := hgrows.holds (List.prefix_refl b.data)
  exact fun hheld => h.changed (List.prefix_of_prefix_length_le hheld hpre h.within)

/-- No pulse separates a call from one that has put something back. -/
theorem Spoiled.joined (h : Spoiled D b) (hjoined : Joined hw r b b') : b' = b := by
  obtain rfl | ⟨x, p, hok, -⟩ := hjoined
  · rfl
  exfalso
  obtain ⟨w, hword, hspace⟩ := h.space
  have hread := getNextPulse_of_space hword hspace (b.pendingp + x)
  rw [expectPulse, syncPendingSpace, h.pendings, if_neg (lt_irrefl 0)] at hok
  simp [hread] at hok

/-- What has been put back stays in the place of the sample. -/
theorem Calls.spoiled (h : Calls hw r b cs r' b') (hserial : isSerial r = true)
    (hbase : 0 < bitTime r) (hb : Spoiled D b) : ¬Holds D b' := by
  induction h with
  | done hgrows => exact hb.grows hgrows
  | @call r r' b b₁ b' bits done cs hjoined hstop hrest ih =>
      obtain rfl := hb.joined hjoined
      have hremote : (getData hw r bits done b₁).2.1 = r := by rw [getData_of_serial hserial]
      obtain hspoiled | ⟨hcode, hgrows⟩ := getData_of_spoiled hserial hbase hb
      · exact ih (hremote.symm ▸ hserial) (hremote.symm ▸ hbase) hspoiled
      · obtain rfl := hstop hcode
        cases hrest with
        | done hgrows' => exact hb.grows (hgrows.trans hgrows')

/-- A call for whole bytes, on a buffer as the driver fills it. -/
structure SegmentCall.Ready (c : SegmentCall) : Prop where
  whole : c.bits % c.remote.bitsInByte = 0
  inside : c.buf.rptr ≤ c.buf.data.length
  words : ShortWords c.buf
  pendings : 0 ≤ c.buf.pendings

/-- A rest that is put back changes a sample. -/
theorem Calls.changed (h : Calls hw r b cs r' b') (hserial : isSerial r = true)
    (hpos : PositiveTimings r) (hmax : serialMaxSpace r ≤ pulseBit) (hready : ∀ c ∈ cs, c.Ready)
    (hb : Holds D b) (hputs : ∃ c ∈ cs, c.PutsBack hw D.length) : ¬Holds D b' := by
  induction h with
  | done hgrows =>
      obtain ⟨c, hc, -⟩ := hputs
      exact absurd hc List.not_mem_nil
  | @call r r' b b₁ b' bits done cs hjoined hstop hrest ih =>
      have hremote : (getData hw r bits done b₁).2.1 = r := by rw [getData_of_serial hserial]
      have hb₁ : Holds D b₁ := hjoined.grows.holds hb
      obtain ⟨hfirst, hothers⟩ := List.forall_mem_cons.mp hready
      by_cases hfree : SegmentCall.PutsBack hw D.length ⟨r, bits, done, b₁⟩
      · obtain ⟨y, hreach, hrest'⟩ := hfree
        have hspoiled := getSerial_spoiled hpos hmax hfirst.whole hfirst.inside hfirst.words
          hfirst.pendings hb₁ hreach hrest'
        refine hrest.spoiled (hremote.symm ▸ hserial) (hremote.symm ▸ hpos.base) ?_
        rw [getData_of_serial hserial]
        exact hspoiled
      · refine ih (hremote.symm ▸ hserial) (hremote.symm ▸ hpos) (hremote.symm ▸ hmax) hothers
          (getData_holds hb₁ fun _ => hfree) ?_
        obtain ⟨c, hc, hputs⟩ := hputs
        obtain rfl | hc := List.mem_cons.mp hc
        · exact absurd hputs hfree
        · exact ⟨c, hc, hputs⟩

/-- The last call that has a bit to read. -/
def lastCall (cs : List SegmentCall) : Option SegmentCall :=
  (cs.filter fun c => 0 < c.bits).getLast?

theorem Calls.sameRemote (h : Calls hw r b cs r' b') (hgold : isGoldstar r = false) : r' = r := by
  induction h with
  | done => rfl
  | @call r r' b b₁ b' bits done cs hjoined hstop hrest ih =>
      have hremote : (getData hw r bits done b₁).2.1 = r := getData_keepsRemote (.inl hgold)
      rw [ih (hremote.symm ▸ hgold), hremote]

/-- A Goldstar remote is left with the timings of the bit that was read last. -/
theorem Calls.timings (h : Calls hw r b cs r' b') (hgold : isGoldstar r = true) :
    (lastCall cs = none ∧ r' = r) ∨
      ∃ c, lastCall cs = some c ∧ (∃ i, LastBit hw c i) ∧
        ∀ i, LastBit hw c i → r' = goldstarTimings r (c.done + i) := by
  induction h with
  | done => exact .inl ⟨rfl, rfl⟩
  | @call r r' b b₁ b' bits done cs hjoined hstop hrest ih =>
      have ih := ih ((isGoldstar_getData bits done r b₁).trans hgold)
      by_cases hbits : 0 < bits
      · have hfilter : lastCall (⟨r, bits, done, b₁⟩ :: cs) =
            some ((lastCall cs).getD ⟨r, bits, done, b₁⟩) := by
          rw [lastCall, List.filter_cons_of_pos (by simpa using hbits), List.getLast?_cons]
          rfl
        refine .inr ⟨_, hfilter, ?_⟩
        obtain ⟨y, hreach, hlt, hlast⟩ := exists_lastBit (x := (0, 0, r, b₁))
          (@getData_of_goldstar hw bits done r b₁ hgold) hbits
        have hfirst : LastBit hw ⟨r, bits, done, b₁⟩ y.1 := ⟨y, hreach, rfl, hlt, hlast⟩
        obtain ⟨hnone, hsame⟩ | ⟨c, hsome, hexists, htimings⟩ := ih
        · rw [hnone]
          exact ⟨⟨y.1, hfirst⟩, fun i hi => hsame.trans (getData_lastBit hgold hi)⟩
        · rw [hsome]
          refine ⟨hexists, fun i hi => ?_⟩
          have hagain := htimings i hi
          rwa [getData_lastBit hgold hfirst, goldstarTimings_again] at hagain
      · obtain rfl : bits = 0 := Nat.eq_zero_of_not_pos hbits
        have hfilter : lastCall (⟨r, 0, done, b₁⟩ :: cs) = lastCall cs := by
          rw [lastCall, List.filter_cons_of_neg (by simp)]
          rfl
        rw [hfilter]
        rwa [@getData_keepsRemote hw r 0 done b₁ (.inr rfl)] at ih

theorem goldstarTimings_eq (r : IrRemote) (i : ℕ) : goldstarTimings r i =
    { r with pone := (goldstarTimings r i).pone, sone := (goldstarTimings r i).sone } := by
  rw [goldstarTimings]
  split
  · split <;> rfl
  · rfl

theorem SameConfig.positiveTimings (h : SameConfig r r') (hpos : PositiveTimings r) :
    PositiveTimings r' := by
  obtain ⟨state, code, rfl⟩ := h
  exact ⟨hpos.base, hpos.pzero, hpos.sone, hpos.stop, hpos.byte⟩

theorem SameConfig.timings_iff {r₁ : IrRemote} (h : SameConfig r r₁) (i : ℕ) :
    SameConfig r (goldstarTimings r₁ i) ↔ goldstarTimings r i = r := by
  obtain ⟨state, code, rfl⟩ := h
  have hcomm : goldstarTimings { r with toggleMaskState := state, toggleCode := code } i =
      { goldstarTimings r i with toggleMaskState := state, toggleCode := code } := by
    unfold goldstarTimings
    by_cases hgold : isGoldstar r = true
    · have hgold' : isGoldstar { r with toggleMaskState := state, toggleCode := code } = true :=
        hgold
      rw [if_pos hgold, if_pos hgold']
      split <;> rfl
    · have hgold' : ¬isGoldstar { r with toggleMaskState := state, toggleCode := code } = true :=
        hgold
      rw [if_neg hgold, if_neg hgold']
  rw [hcomm]
  constructor
  · intro hsame
    have hpone : (goldstarTimings r i).pone = r.pone := hsame.pone
    have hsone : (goldstarTimings r i).sone = r.sone := hsame.sone
    rw [goldstarTimings_eq, hpone, hsone]
  · intro heq
    rw [heq]
    exact ⟨state, code, rfl⟩

end Writes

/-! ### The loop of `decode_all` -/

section Loop

variable (hw : Hardware)

/-- A remote that `decode_all` tries, and what it finds when it gets there. -/
structure Trial where
  remote : IrRemote
  last : LastRemote
  now : ℕ

/-- One round of the loop of `decode_all`: the next remote is tried on the
buffer the one before it left. -/
def tryRemote (b : RBuf) (t : Trial) : RBuf :=
  (receiveDecode hw t.remote t.last t.now b).2.2

/-- The attempt fails. -/
def Fails (b : RBuf) (t : Trial) : Prop :=
  (receiveDecode hw t.remote t.last t.now b).1 = none

/-- The samples that were present are unchanged, and so is the remote's
configuration. -/
def Undisturbed (b : RBuf) (t : Trial) : Prop :=
  b.data <+: (tryRemote hw b t).data ∧
    SameConfig t.remote (receiveDecode hw t.remote t.last t.now b).2.1

/-- The last stop bit of a serial segment leaves no rest of a sample that was present, and the
bit of a Goldstar remote that is read last has the timings of the configuration. -/
structure WritesNothing (b : RBuf) (t : Trial) : Prop where
  serial : isSerial t.remote = true → ∀ c ∈ receiveCalls hw t.remote t.last b,
    ¬c.PutsBack hw b.data.length
  goldstar : isGoldstar t.remote = true → ∀ c ∈ lastCall (receiveCalls hw t.remote t.last b),
    ∀ i, LastBit hw c i → goldstarTimings t.remote (c.done + i) = t.remote

/-- The times of a serial remote are positive and fit the words of the driver, and it reads
whole bytes. -/
structure Trial.Regular (b : RBuf) (t : Trial) : Prop where
  timings : isSerial t.remote = true → PositiveTimings t.remote
  space : isSerial t.remote = true → serialMaxSpace t.remote ≤ pulseBit
  calls : isSerial t.remote = true → ∀ c ∈ receiveCalls hw t.remote t.last b, c.Ready

variable {hw}

/-- The samples stay if no stop bit leaves a rest of one of them, and only then where the
remote is regular. -/
theorem samples_iff {b : RBuf} {t : Trial} (hregular : t.Regular hw b) :
    b.data <+: (tryRemote hw b t).data ↔ (isSerial t.remote = true →
      ∀ c ∈ receiveCalls hw t.remote t.last b, ¬c.PutsBack hw b.data.length) := by
  obtain ⟨r₁, b₁, hconfig, hgrows, hcalls⟩ :=
    @receiveDecode_attempt hw t.remote t.last t.now b
  have hpos := hconfig.positiveTimings
  obtain ⟨state, code, rfl⟩ := hconfig
  have hb₁ : Holds b.data b₁ := hgrows.holds (List.prefix_refl b.data)
  constructor
  · intro hkept hserial c hc hputs
    exact hcalls.changed hserial (hpos (hregular.timings hserial)) (hregular.space hserial)
      (hregular.calls hserial) hb₁ ⟨c, hc, hputs⟩ hkept
  · intro hfree
    exact hcalls.holds hb₁ hfree

/-- The configuration stays if the bit that is read last has its timings, and only then. -/
theorem timings_iff (b : RBuf) (t : Trial) :
    SameConfig t.remote (receiveDecode hw t.remote t.last t.now b).2.1 ↔
      (isGoldstar t.remote = true → ∀ c ∈ lastCall (receiveCalls hw t.remote t.last b),
        ∀ i, LastBit hw c i → goldstarTimings t.remote (c.done + i) = t.remote) := by
  obtain ⟨r₁, b₁, hconfig, -, hcalls⟩ := @receiveDecode_attempt hw t.remote t.last t.now b
  have hprotocol : isGoldstar r₁ = isGoldstar t.remote := by
    obtain ⟨state, code, rfl⟩ := hconfig
    rfl
  cases hgold : isGoldstar t.remote with
  | false =>
      rw [hcalls.sameRemote (hprotocol.trans hgold)]
      exact ⟨fun _ h => absurd h Bool.false_ne_true, fun _ => hconfig⟩
  | true =>
      obtain ⟨hnone, hsame⟩ | ⟨c, hsome, ⟨j, hj⟩, htimings⟩ :=
        hcalls.timings (hprotocol.trans hgold)
      · rw [hsame, hnone]
        exact ⟨fun _ _ c hc => absurd hc (Option.not_mem_none c), fun _ => hconfig⟩
      · rw [hsome]
        constructor
        · intro hkept _ c' hc i hi
          obtain rfl := Option.mem_some.mp hc
          rw [htimings i hi] at hkept
          exact (hconfig.timings_iff _).mp hkept
        · intro hkept
          rw [htimings j hj]
          exact (hconfig.timings_iff _).mpr (hkept rfl c rfl j hj)

theorem undisturbed_of_writesNothing {b : RBuf} {t : Trial} (h : WritesNothing hw b t) :
    Undisturbed hw b t := by
  obtain ⟨r₁, b₁, hconfig, hgrows, hcalls⟩ := @receiveDecode_attempt hw t.remote t.last t.now b
  refine ⟨?_, (timings_iff b t).mpr h.goldstar⟩
  obtain ⟨state, code, rfl⟩ := hconfig
  exact hcalls.holds (hgrows.holds (List.prefix_refl b.data)) h.serial

theorem undisturbed_iff {b : RBuf} {t : Trial} (hregular : t.Regular hw b) :
    Undisturbed hw b t ↔ WritesNothing hw b t := by
  refine ⟨fun h => ⟨(samples_iff hregular).mp h.1, (timings_iff b t).mp h.2⟩, ?_⟩
  exact undisturbed_of_writesNothing

/-- No failing attempt disturbs the next one when none of them writes; where the remotes are
regular it is so in no other run. While the attempts fail, each remote finds the samples that the
loop began with. -/
theorem decodeAll_undisturbed (hw : Hardware) (b : RBuf) (ts : List Trial) :
    (Transition.Along (tryRemote hw) (fun b t => Fails hw b t → WritesNothing hw b t) b ts →
      Transition.Along (tryRemote hw) (fun b t => Fails hw b t → Undisturbed hw b t) b ts ∧
        (Transition.Along (tryRemote hw) (Fails hw) b ts →
          Transition.Always (tryRemote hw) (fun b' => b.data <+: b'.data) b ts)) ∧
    (Transition.Along (tryRemote hw) (fun b t => t.Regular hw b) b ts →
      (Transition.Along (tryRemote hw) (fun b t => Fails hw b t → Undisturbed hw b t) b ts ↔
        Transition.Along (tryRemote hw) (fun b t => Fails hw b t → WritesNothing hw b t) b
          ts)) := by
  refine ⟨fun h => ⟨?_, fun hfails => ?_⟩, fun hregular => ?_⟩
  · exact h.mono fun b' t ht hfails => undisturbed_of_writesNothing (ht hfails)
  · refine (h.and hfails).always (fun b' t hb ht => ?_) (List.prefix_refl b.data)
    exact hb.trans (undisturbed_of_writesNothing (ht.1 ht.2)).1
  · exact Transition.along_iff_along (I := fun _ => True)
      (fun _ _ _ hregular => imp_congr_right fun _ => undisturbed_iff hregular)
      (fun _ _ _ _ _ => trivial) trivial hregular

end Loop

section Loop

instance (r r' : IrRemote) : Decidable (SameConfig r r') :=
  decidable_of_iff
    (r' = { r with toggleMaskState := r'.toggleMaskState, toggleCode := r'.toggleCode })
    ⟨fun h => ⟨_, _, h⟩, fun ⟨_, _, h⟩ => by rw [h]⟩

instance (hw : Hardware) (b : RBuf) : DecidablePred (Fails hw b) := fun _ =>
  inferInstanceAs (Decidable (_ = none))

instance (hw : Hardware) (b : RBuf) : DecidablePred (Undisturbed hw b) := fun _ =>
  inferInstanceAs (Decidable (_ ∧ _))

instance (c : SegmentCall) : Decidable c.Ready :=
  decidable_of_iff
    (c.bits % c.remote.bitsInByte = 0 ∧ c.buf.rptr ≤ c.buf.data.length ∧
      (∀ w ∈ c.buf.received, w < 2 * pulseBit) ∧ 0 ≤ c.buf.pendings)
    ⟨fun ⟨hwhole, hinside, hwords, hpendings⟩ => ⟨hwhole, hinside, hwords, hpendings⟩,
      fun h => ⟨h.whole, h.inside, h.words, h.pendings⟩⟩

instance (hw : Hardware) (b : RBuf) (t : Trial) : Decidable (t.Regular hw b) :=
  decidable_of_iff
    ((isSerial t.remote = true → 0 < bitTime t.remote ∧ 0 < t.remote.pzero ∧ 0 < t.remote.sone ∧
        0 < stopTime t.remote ∧ 0 < t.remote.bitsInByte) ∧
      (isSerial t.remote = true → serialMaxSpace t.remote ≤ pulseBit) ∧
      (isSerial t.remote = true → ∀ c ∈ receiveCalls hw t.remote t.last b, c.Ready))
    ⟨fun ⟨htimings, hspace, hcalls⟩ =>
        ⟨fun hserial => by
          obtain ⟨hbase, hpzero, hsone, hstop, hbyte⟩ := htimings hserial
          exact ⟨hbase, hpzero, hsone, hstop, hbyte⟩, hspace, hcalls⟩,
      fun h => ⟨fun hserial => by
        obtain ⟨hbase, hpzero, hsone, hstop, hbyte⟩ := h.timings hserial
        exact ⟨hbase, hpzero, hsone, hstop, hbyte⟩, h.space, h.calls⟩⟩

/-- A space-encoded remote with a header. -/
def headedRemote : IrRemote :=
  { name := ['a'], flags := spaceEnc, bits := 8, phead := 1000, shead := 20000, pone := 500,
    sone := 1500, pzero := 500, szero := 500, gap := 100000, eps := 20, aeps := 50 }

/-- A serial remote that needs a longer gap than it receives. -/
def serialRemote : IrRemote :=
  { name := ['s'], flags := serial, bits := 8, pzero := 1000, sone := 1000, baud := 1000,
    bitsInByte := 8, stopBits := 2, gap := 100000, eps := 20, aeps := 50 }

/-- A Goldstar remote. -/
def goldstarRemote : IrRemote :=
  { name := ['g'], flags := goldstar, bits := 8, pone := 500, sone := 1500, ptwo := 300,
    stwo := 900, pthree := 400, sthree := 1200, pzero := 500, szero := 500, gap := 100000,
    eps := 20, aeps := 50 }

/-- A Goldstar remote that has its own timings on the even places. -/
def evenRemote : IrRemote :=
  { name := ['e'], flags := goldstar, bits := 8, pone := 1000, sone := 1000, ptwo := 700,
    stwo := 2000, pthree := 1000, sthree := 1000, pzero := 1000, szero := 1000, gap := 100000,
    eps := 20, aeps := 50 }

/-- A byte whose stop bit is followed by a pause; one sample is there when the loop begins. -/
def byteInput : RBuf :=
  { data := [60000],
    input := [pulseBit + 1000, 1000, pulseBit + 1000, 1000, pulseBit + 2000, 1000,
      pulseBit + 1000, 9000] }

/-- The serial remote puts a rest of the pause back over a sample that it has read itself, and
the Goldstar remote fails at its third bit. -/
def byteTrials : List Trial :=
  [⟨headedRemote, .null, 0⟩, ⟨serialRemote, .null, 0⟩, ⟨evenRemote, .null, 0⟩]

theorem decodeAll_undisturbed_byte :
    Transition.Along (tryRemote mode2Hardware)
        (fun b t => Fails mode2Hardware b t → Undisturbed mode2Hardware b t) byteInput byteTrials ∧
      Transition.Always (tryRemote mode2Hardware) (fun b' => byteInput.data <+: b'.data) byteInput
        byteTrials ∧
      (Transition.Along (tryRemote mode2Hardware)
          (fun b t => Fails mode2Hardware b t → Undisturbed mode2Hardware b t) byteInput
          byteTrials ↔
        Transition.Along (tryRemote mode2Hardware)
          (fun b t => Fails mode2Hardware b t → WritesNothing mode2Hardware b t) byteInput
          byteTrials) := by
  have hwrites : Transition.Along (tryRemote mode2Hardware)
      (fun b t => Fails mode2Hardware b t → WritesNothing mode2Hardware b t) byteInput byteTrials :=
    ⟨fun _ => (undisturbed_iff (by decide +kernel)).mp (by decide +kernel),
      fun _ => (undisturbed_iff (by decide +kernel)).mp (by decide +kernel),
      fun _ => (undisturbed_iff (by decide +kernel)).mp (by decide +kernel), trivial⟩
  obtain ⟨henough, hexact⟩ := decodeAll_undisturbed mode2Hardware byteInput byteTrials
  obtain ⟨hundisturbed, halways⟩ := henough hwrites
  exact ⟨hundisturbed, halways (by decide +kernel), hexact (by decide +kernel)⟩

/-- A pulse between two long spaces. -/
def disturbedInput : RBuf := { input := [60000, pulseBit + 1000, 20000] }

/-- The buffer after the space-encoded remote has read the whole signal. -/
def disturbedBuffer : RBuf := tryRemote mode2Hardware disturbedInput ⟨headedRemote, .null, 0⟩

/-- The serial remote fails at the gap, with the space it shortened left in
the buffer, and the Goldstar remote fails with other timings for a one. -/
theorem decodeAll_disturbed :
    (Fails mode2Hardware disturbedBuffer ⟨serialRemote, .null, 0⟩ ∧
        ¬Undisturbed mode2Hardware disturbedBuffer ⟨serialRemote, .null, 0⟩) ∧
      Fails mode2Hardware disturbedInput ⟨goldstarRemote, .null, 0⟩ ∧
        ¬Undisturbed mode2Hardware disturbedInput ⟨goldstarRemote, .null, 0⟩ := by
  refine ⟨⟨by decide +kernel, fun h => ?_⟩, by decide +kernel, fun h => ?_⟩
  · exact absurd h.1 (by decide +kernel)
  · exact absurd h.2.pone (by decide +kernel)

end Loop

end Lirc
