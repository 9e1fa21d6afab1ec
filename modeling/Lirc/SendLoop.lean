import Lirc.Capacity
import Lirc.Library.Laps
import Lirc.Library.Loop

/-!
Whether `init_send_loop` ends. The repetitions of a button are counted down at
the end of its sequence, but an XMP remote starts the sequence again and again;
its loop ends only when the gap is long, or when the buffer is full. Frames that
add no samples never fill it.
-/

namespace Lirc

open Laps

/-- The frame of an XMP remote goes into the buffer. -/
def xmpFrame (r : IrRemote) (rep : Bool) (b : SBuf) (c : IrCode) : SBuf :=
  if rep && hasRepeat r then
    sendRepeat r (if r.has repeatHeader && hasHeader r then sendHeader r b else b)
  else { sendCode r c rep b with data := .own }

/-- A frame and the gap after it, where the loop goes on: the buffer holds the
frame, and its gap is low. -/
def frameRound (r : IrRemote) (rep : Bool) (b : SBuf) (c : IrCode) : Option SBuf :=
  let b := syncSendBuffer (xmpFrame r rep b c)
  if badSendBuffer b then none
  else
    match remainingGap r rep b.sum with
    | none => none
    | some (gmin, _) =>
        if gmin < exactGapThreshold then some (addGap (unrollRaw b) gmin) else none

/-- Repeated frames, one for each code. -/
def repeatedFrames (r : IrRemote) (codes : List IrCode) (b : SBuf) : Option SBuf :=
  codes.foldlM (frameRound r true) b

/-- A pass through the sequence of a button. -/
def pass (r : IrRemote) (code : IrNcode) : SBuf → Option SBuf := repeatedFrames r code.next

/-- The frames up to the end of the sequence. -/
def firstFrames (r : IrRemote) (code : IrNcode) (repeating : Bool) (b : SBuf) : Option SBuf :=
  (frameRound r repeating (startBuffer r b) (nextCode code false code.transmitState)).bind
    (repeatedFrames r code.transmitState.tail)

/-- After three passes through the sequence, one more neither ends the loop nor
changes how many samples there are. -/
def Stalls (r : IrRemote) (code : IrNcode) (repeating : Bool) (b : SBuf) : Prop :=
  ∃ b₃ b₄, (firstFrames r code repeating b).bind (laps (pass r code) 3) = some b₃ ∧
    pass r code b₃ = some b₄ ∧ b₄.wptr = b₃.wptr

/-! ### A remote that is not XMP -/

section Countdown

variable {r : IrRemote} {code : IrNcode}

/-- How many frames are left up to the end of the sequence. -/
def framesLeft (code : IrNcode) (ts : List IrCode) : ℕ :=
  if ts = [] then code.next.length + 1 else ts.length

/-- How many rounds are left at most. -/
def roundsLeft (code : IrNcode) (tx : TxState) : ℕ :=
  tx.repeatCountdown.toNat * (code.next.length + 1) + framesLeft code tx.transmitState

/-- The state of a transmission points into the sequence. -/
def InSequence (code : IrNcode) (ts : List IrCode) : Prop := ts <:+ code.next

theorem buildFrame_tx {sim rep : Bool} {b b' : SBuf} {tx tx' : TxState}
    (h : buildFrame r code sim rep b tx = some (b', tx')) :
    tx'.repeatCountdown = tx.repeatCountdown ∧ tx'.transmitState = tx.transmitState := by
  unfold buildFrame at h
  split at h
  · cases h
    exact ⟨rfl, rfl⟩
  · split at h
    · cases h
      split <;> exact ⟨rfl, rfl⟩
    · split at h
      · cases h
      · split at h
        · cases h
          exact ⟨rfl, rfl⟩
        · cases h
          exact ⟨rfl, rfl⟩

theorem nextTransmitState_inSequence {ts : List IrCode} (h : InSequence code ts) :
    InSequence code (nextTransmitState r code ts) := by
  unfold nextTransmitState
  split
  · exact h
  · split
    · exact List.suffix_refl _
    · next x rest =>
        split
        · exact List.suffix_refl _
        · exact (List.suffix_cons x rest).trans h

/-- The sequence goes on by one frame, or it is at its end. -/
theorem framesLeft_next (h : isXmp r = false ∨ code.next = []) {ts : List IrCode}
    (hts : InSequence code ts) : framesLeft code ts =
      if nextTransmitState r code ts = [] then 1
      else framesLeft code (nextTransmitState r code ts) + 1 := by
  by_cases hnext : code.next = []
  · have hnil : ts = [] := List.suffix_nil.mp (hnext ▸ hts)
    simp [nextTransmitState, framesLeft, hnext, hnil]
  · have hx : isXmp r = false := h.resolve_right hnext
    cases ts with
    | nil => simp [nextTransmitState, framesLeft, hnext]
    | cons x rest =>
        cases rest with
        | nil => simp [nextTransmitState, framesLeft, hnext, hx]
        | cons y rest => simp [nextTransmitState, framesLeft, hnext, hx]

/-- A round ends the loop, or the next one starts with fewer rounds left. -/
theorem initSendLoop_round (h : isXmp r = false ∨ code.next = []) {tx : TxState}
    (hts : InSequence code tx.transmitState) (fuel : ℕ) (rep : Bool) (b : SBuf)
    (frames : List Frame) :
    (∃ out, initSendLoop r code false (fuel + 1) rep b tx frames = some out) ∨
      ∃ b' tx' frames', initSendLoop r code false (fuel + 1) rep b tx frames =
        initSendLoop r code false fuel true b' tx' frames' ∧
          InSequence code tx'.transmitState ∧ roundsLeft code tx' < roundsLeft code tx := by
  rw [initSendLoop]
  cases hbuild : buildFrame r code false rep b tx with
  | none => exact Or.inl ⟨_, rfl⟩
  | some built =>
      obtain ⟨b', tx'⟩ := built
      obtain ⟨hcountdown, hstate⟩ := buildFrame_tx hbuild
      dsimp only
      split
      · exact Or.inl ⟨_, rfl⟩
      · split
        · exact Or.inl ⟨_, rfl⟩
        · split
          · exact Or.inl ⟨_, rfl⟩
          · next gmin gmax _ =>
              split
              · next hgo =>
                  have hnode := nextTransmitState_inSequence (r := r) hts
                  have hleft := framesLeft_next h hts
                  rw [hstate] at hgo ⊢
                  refine Or.inr ⟨_, _, _, rfl, ?_, ?_⟩
                  · split <;> exact hnode
                  · have htx : roundsLeft code tx = tx.repeatCountdown.toNat *
                        (code.next.length + 1) + framesLeft code tx.transmitState := rfl
                    rw [htx, hleft]
                    split
                    · next hend =>
                        have hnil : nextTransmitState r code tx.transmitState = [] := by
                          rcases hend with hend | hend
                          · exact List.suffix_nil.mp (hend ▸ hnode)
                          · exact hend
                        have hpos : 0 < tx.repeatCountdown :=
                          hcountdown ▸ hgo.1.resolve_right (fun hne => hne hnil)
                        rw [if_pos hnil, roundsLeft, hnil, framesLeft, if_pos rfl, hcountdown]
                        have hstep : tx.repeatCountdown.toNat =
                            (tx.repeatCountdown - 1).toNat + 1 := by omega
                        rw [hstep, Nat.succ_mul]
                        dsimp only
                        omega
                    · next hend =>
                        have hne : nextTransmitState r code tx.transmitState ≠ [] :=
                          fun hnil => hend (Or.inr hnil)
                        rw [if_neg hne, roundsLeft, hcountdown]
                        dsimp only
                        omega
              · exact Or.inl ⟨_, rfl⟩

/-- The loop ends within the rounds that are left. -/
theorem initSendLoop_ends (h : isXmp r = false ∨ code.next = []) {n : ℕ} {tx : TxState}
    (hts : InSequence code tx.transmitState) (hleft : roundsLeft code tx ≤ n) (rep : Bool)
    (b : SBuf) (frames : List Frame) :
    ∃ out, initSendLoop r code false (n + 1) rep b tx frames = some out := by
  induction n generalizing rep b tx frames with
  | zero =>
      rcases initSendLoop_round h hts 0 rep b frames with hout | ⟨_, _, _, -, -, hlt⟩
      · exact hout
      · omega
  | succ n ih =>
      rcases initSendLoop_round h hts (n + 1) rep b frames with
        hout | ⟨b', tx', frames', hrun, hts', hlt⟩
      · exact hout
      · rw [hrun]
        exact ih hts' (by omega) true b' frames'

end Countdown

/-! ### The rounds of an XMP remote -/

section Rounds

variable {r : IrRemote} {code : IrNcode} {b : SBuf} {ts : List IrCode}

theorem xmpLoopParts_withToggle (st : ℤ) (n : ℕ) (data : IrCode) :
    xmpLoopParts (r.withToggle st) n data = xmpLoopParts r n data := by
  induction n generalizing data with
  | zero => rfl
  | succ n ih =>
      simp only [xmpLoopParts, ih]
      rfl

/-- The frames of an XMP remote do not depend on the toggle state. -/
theorem codeParts_withToggle_xmp (hx : isXmp r = true) (st : ℤ) (c : IrCode) (rep : Bool) :
    codeParts (r.withToggle st) c rep = codeParts r c rep := by
  have hrcmm : isRcmm r = false := protocolIs_unique hx (by decide)
  have hrcmm' : isRcmm (r.withToggle st) = false := hrcmm
  have hx' : isXmp (r.withToggle st) = true := hx
  have hdata (data : IrCode) (bits done : ℕ) :
      dataParts (r.withToggle st) data bits done = dataParts r data bits done := by
    simp only [dataParts, hrcmm, hrcmm', hx, hx', xmpLoopParts_withToggle, Bool.false_eq_true,
      if_false, if_true]
  have hpre : preParts (r.withToggle st) = preParts r := by
    rw [preParts, hdata]
    rfl
  have hpost : postParts (r.withToggle st) = postParts r := by
    rw [postParts, hdata]
    rfl
  simp only [codeParts, hpre, hpost, hdata]
  rfl

theorem xmpFrame_eq (rep : Bool) (b : SBuf) (c : IrCode) : xmpFrame r rep b c =
    if rep && hasRepeat r then sendParts b (repeatParts r)
    else (sendParts b (codeParts r c rep)).adjusted (sumCorrection r rep) .own := by
  rw [xmpFrame]
  split
  · exact sendRepeat_eq r b
  · rw [sendCode_eq, sumCorrection]
    dsimp only
    split
    · rfl
    · rw [SBuf.adjusted, Int.sub_zero]

theorem buildFrame_xmp (hx : isXmp r = true) (rep : Bool) (b : SBuf) (tx : TxState) :
    buildFrame r code false rep b tx =
      some (xmpFrame r rep b (nextCode code false tx.transmitState), frameTx r false rep tx) := by
  have hraw : isRaw r = false := protocolIs_unique hx (by decide)
  rw [xmpFrame_eq]
  by_cases hrep : (rep && hasRepeat r) = true
  · rw [buildFrame_repeat code false hrep, if_pos hrep, frameTx, if_pos hrep]
  · rw [buildFrame_code hraw code false (by simpa using hrep), if_neg hrep,
      codeParts_withToggle_xmp hx]

theorem frameTx_transmitState (rep : Bool) (tx : TxState) :
    (frameTx r false rep tx).transmitState = tx.transmitState := by
  rw [frameTx]
  split
  · rfl
  · split <;> rfl

/-- An XMP remote is never at the end of a sequence. -/
theorem nextTransmitState_ne_nil (hx : isXmp r = true) (hnext : code.next ≠ []) :
    nextTransmitState r code ts ≠ [] := by
  unfold nextTransmitState
  rw [if_neg hnext]
  cases ts with
  | nil => exact hnext
  | cons x rest =>
      cases rest with
      | nil => simpa [hx] using hnext
      | cons y rest => simp [hx]

/-- The loop of `init_send` with repeated frames, for an XMP remote. -/
def xmpRound (r : IrRemote) (code : IrNcode) (s : SBuf × List IrCode) :
    (SBuf × List IrCode) ⊕ Unit :=
  match frameRound r true s.1 (nextCode code false s.2) with
  | none => .inr ()
  | some b => .inl (b, nextTransmitState r code s.2)

/-- A round of the loop is a round of the buffer. -/
theorem initSendLoop_xmp (hx : isXmp r = true) (hnext : code.next ≠ []) (fuel : ℕ) (rep : Bool)
    (b : SBuf) (tx : TxState) (frames : List Frame) :
    match frameRound r rep b (nextCode code false tx.transmitState) with
    | none => ∃ out, initSendLoop r code false (fuel + 1) rep b tx frames = some out
    | some b' => ∃ tx' frames', tx'.transmitState = nextTransmitState r code tx.transmitState ∧
        initSendLoop r code false (fuel + 1) rep b tx frames =
          initSendLoop r code false fuel true b' tx' frames' := by
  have hne : nextTransmitState r code tx.transmitState ≠ [] := nextTransmitState_ne_nil hx hnext
  rw [frameRound, initSendLoop, buildFrame_xmp hx]
  dsimp only
  by_cases hbad : badSendBuffer (syncSendBuffer
      (xmpFrame r rep b (nextCode code false tx.transmitState))) = true
  · rw [if_pos hbad, if_pos hbad]
    exact ⟨_, rfl⟩
  · rw [if_neg hbad, if_neg hbad, if_neg Bool.false_ne_true]
    cases hgap : remainingGap r rep (syncSendBuffer
        (xmpFrame r rep b (nextCode code false tx.transmitState))).sum with
    | none => exact ⟨_, rfl⟩
    | some gap =>
        obtain ⟨gmin, gmax⟩ := gap
        dsimp only
        by_cases hlow : gmin < exactGapThreshold
        · rw [if_pos hlow, frameTx_transmitState, if_pos ⟨Or.inr hne, hlow⟩]
          refine ⟨_, _, ?_, rfl⟩
          rw [if_neg (fun hend => hend.elim hnext hne)]
        · rw [if_neg hlow, if_neg fun hgo => hlow hgo.2]
          exact ⟨_, rfl⟩

/-- The loop with repeated frames ends exactly when its rounds do. -/
theorem initSendLoop_runFor (hx : isXmp r = true) (hnext : code.next ≠ []) (n : ℕ) (b : SBuf)
    (tx : TxState) (frames : List Frame) :
    (∃ out, initSendLoop r code false n true b tx frames = some out) ↔
      ∃ out, Loop.runFor (xmpRound r code) n (b, tx.transmitState) = some out := by
  induction n generalizing b tx frames with
  | zero => exact ⟨fun ⟨_, h⟩ => (nomatch h), fun ⟨_, h⟩ => (nomatch h)⟩
  | succ n ih =>
      have hround := initSendLoop_xmp hx hnext n true b tx frames
      rw [Loop.runFor, xmpRound]
      dsimp only
      cases hframe : frameRound r true b (nextCode code false tx.transmitState) with
      | none =>
          rw [hframe] at hround
          exact ⟨fun _ => ⟨(), rfl⟩, fun _ => hround⟩
      | some b' =>
          rw [hframe] at hround
          obtain ⟨tx', frames', hstate, hrun⟩ := hround
          rw [hrun, ih b' tx' frames', hstate]

/-- Up to the end of the sequence the rounds send one code after the other; then
the sequence starts again. -/
theorem repeatedFrames_ends (hx : isXmp r = true) (hnext : code.next ≠ []) (hts : ts ≠ []) :
    (repeatedFrames r ts b = none → Loop.Ends (xmpRound r code) (b, ts)) ∧
      ∀ b', repeatedFrames r ts b = some b' →
        Loop.Reaches (xmpRound r code) (b, ts) (b', code.next) := by
  induction ts generalizing b with
  | nil => exact absurd rfl hts
  | cons c rest ih =>
      rw [repeatedFrames, List.foldlM_cons]
      have hround : xmpRound r code (b, c :: rest) = match frameRound r true b c with
          | none => .inr ()
          | some b' => .inl (b', if rest = [] then code.next else rest) := by
        rw [xmpRound, nextTransmitState, if_neg hnext]
        dsimp only [nextCode]
        cases rest <;> simp [hx]
      cases hframe : frameRound r true b c with
      | none =>
          rw [hframe] at hround
          exact ⟨fun _ => Loop.ends_of_inr hround, fun b' h => nomatch h⟩
      | some b' =>
          rw [hframe] at hround
          cases rest with
          | nil =>
              refine ⟨fun h => (nomatch h), fun b'' h => ?_⟩
              rw [← Option.some.inj h]
              exact .round hround (.refl _)
          | cons d rest =>
              obtain ⟨hends, hreaches⟩ := ih (b := b') nofun
              refine ⟨fun h => ?_, fun b'' h => .round hround (hreaches b'' h)⟩
              exact (Loop.ends_of_inl hround).mpr (hends h)

/-- The frames up to the end of the sequence go on, and so do all passes after them. -/
def GoesOn (r : IrRemote) (code : IrNcode) (s : SBuf × List IrCode) : Prop :=
  s.2 ≠ [] ∧ ∃ b, repeatedFrames r s.2 s.1 = some b ∧ Endless (pass r code) b

theorem goesOn_round (hx : isXmp r = true) (hnext : code.next ≠ []) {s : SBuf × List IrCode}
    (h : GoesOn r code s) : ∃ s', xmpRound r code s = .inl s' ∧ GoesOn r code s' := by
  obtain ⟨b, ts⟩ := s
  obtain ⟨hts, b', hframes, hb'⟩ := h
  obtain ⟨c, rest, rfl⟩ := List.exists_cons_of_ne_nil hts
  rw [repeatedFrames, List.foldlM_cons] at hframes
  obtain ⟨b₁, hb₁, hrest⟩ := Option.bind_eq_some_iff.mp hframes
  have hne : nextTransmitState r code (c :: rest) ≠ [] := nextTransmitState_ne_nil hx hnext
  refine ⟨(b₁, nextTransmitState r code (c :: rest)), ?_, hne, ?_⟩
  · have hnow : frameRound r true b (nextCode code false (c :: rest)) = some b₁ := hb₁
    rw [xmpRound, hnow]
  · cases rest with
    | nil =>
        have hstart : nextTransmitState r code [c] = code.next := by
          simp [nextTransmitState, hx, hnext]
        rw [hstart, Option.some.inj hrest]
        exact hb'.next
    | cons d rest =>
        have hstay : nextTransmitState r code (c :: d :: rest) = d :: rest := by
          simp [nextTransmitState, hx, hnext]
        rw [hstay]
        exact ⟨b', hrest, hb'⟩

/-- The rounds of a sequence end exactly when its passes do not go on for ever. -/
theorem ends_iff_not_endless (hx : isXmp r = true) (hnext : code.next ≠ []) (b : SBuf) :
    Loop.Ends (xmpRound r code) (b, code.next) ↔ ¬Endless (pass r code) b := by
  have hpass (b : SBuf) := repeatedFrames_ends (b := b) hx hnext hnext
  constructor
  · intro hends hendless
    have hstart : GoesOn r code (b, code.next) := ⟨hnext, hendless.next⟩
    exact Loop.not_ends_of_trap (fun s => goesOn_round hx hnext) hstart hends
  · intro hnot
    obtain ⟨n, hn⟩ := not_forall.mp hnot
    induction n generalizing b with
    | zero => exact absurd rfl hn
    | succ n ih =>
        rw [laps_succ] at hn
        cases hb : pass r code b with
        | none => exact (hpass b).1 hb
        | some b' =>
            rw [hb, Option.bind_some] at hn
            exact ((hpass b).2 b' hb).ends_iff.mpr (ih b' (fun h => hn (h n)) hn)

end Rounds

/-! ### Buffers that differ in the number of samples -/

/-- Pending lengths that are treated alike: they are the same, or neither is added. -/
def PendAlike (p q : ℤ) : Prop := p = q ∨ p ≤ 0 ∧ q ≤ 0

/-- The second buffer has `d` samples more than the first, and frames do the
same to both. -/
structure Shifted (d : ℤ) (b b' : SBuf) : Prop where
  wptr : (b'.wptr : ℤ) = b.wptr + d
  empty : b.wptr = 0 ↔ b'.wptr = 0
  pendingp : PendAlike b.pendingp b'.pendingp
  silent : b.wptr = 0 → (b.pendingp = 0 ↔ b'.pendingp = 0)
  pendings : PendAlike b.pendings b'.pendings
  sum : b.sum = b'.sum
  data : b.data = .own
  data' : b'.data = .own

/-- The buffers are alike while they are not too small; with as many samples
both are too small at the same time. -/
structure Near (d : ℤ) (b b' : SBuf) : Prop where
  tooLong : d = 0 → b.tooLong = b'.tooLong
  shifted : b.tooLong = false → b'.tooLong = false → Shifted d b b'

section Near

variable {d : ℤ} {b b' : SBuf}

theorem PendAlike.pos_iff {p q : ℤ} (h : PendAlike p q) : 0 < p ↔ 0 < q := by
  rcases h with rfl | ⟨hp, hq⟩
  · rfl
  · omega

theorem PendAlike.eq_of_pos {p q : ℤ} (h : PendAlike p q) (hp : 0 < p) : p = q := by
  rcases h with rfl | ⟨hp', -⟩
  · rfl
  · omega

theorem PendAlike.refl (p : ℤ) : PendAlike p p := Or.inl rfl

theorem Shifted.near (h : Shifted d b b') (hb : b.tooLong = false) (hb' : b'.tooLong = false) :
    Near d b b' := ⟨fun _ => hb.trans hb'.symm, fun _ _ => h⟩

/-- What is done to buffers that are not too small decides. -/
theorem Near.map {f : SBuf → SBuf} (h : Near d b b')
    (hlong : ∀ b, b.tooLong = true → (f b).tooLong = true)
    (hf : Shifted d b b' → b.tooLong = false → b'.tooLong = false → Near d (f b) (f b')) :
    Near d (f b) (f b') := by
  cases hb : b.tooLong with
  | true =>
      refine ⟨fun hd => ?_, fun hfalse => ?_⟩
      · rw [hlong b hb, hlong b' ((h.tooLong hd).symm.trans hb)]
      · rw [hlong b hb] at hfalse
        cases hfalse
  | false =>
      cases hb' : b'.tooLong with
      | true =>
          refine ⟨fun hd => ?_, fun _ hfalse => ?_⟩
          · rw [h.tooLong hd, hb'] at hb
            cases hb
          · rw [hlong b' hb'] at hfalse
            cases hfalse
      | false => exact hf (h.shifted hb hb') hb hb'

theorem Shifted.addSendBuffer (h : Shifted d b b') (hb : b.tooLong = false)
    (hb' : b'.tooLong = false) (x : ℤ) :
    Near d (addSendBuffer b x) (addSendBuffer b' x) := by
  have hwptr := h.wptr
  by_cases hroom : b.wptr < wbufSize
  · by_cases hroom' : b'.wptr < wbufSize
    · rw [Lirc.addSendBuffer, dif_pos hroom, Lirc.addSendBuffer, dif_pos hroom']
      refine Shifted.near ⟨?_, ?_, h.pendingp, ?_, h.pendings, ?_, h.data, h.data'⟩ hb hb'
      · push_cast
        omega
      · exact iff_of_false (Nat.succ_ne_zero _) (Nat.succ_ne_zero _)
      · exact fun hzero => absurd hzero (Nat.succ_ne_zero _)
      · rw [h.sum]
    · rw [Lirc.addSendBuffer.eq_def b', dif_neg hroom']
      exact ⟨fun hd => by omega, fun _ hfalse => absurd hfalse (by simp)⟩
  · rw [Lirc.addSendBuffer, dif_neg hroom]
    refine ⟨fun hd => ?_, fun hfalse => absurd hfalse (by simp)⟩
    rw [Lirc.addSendBuffer, dif_neg (by omega)]

/-- A pending space is added. -/
def closeSpace (b : SBuf) : SBuf :=
  if 0 < b.pendings then { addSendBuffer b b.pendings with pendings := 0 } else b

theorem closeSpace_tooLong (h : b.tooLong = true) : (closeSpace b).tooLong = true := by
  rw [closeSpace]
  split
  · exact addSendBuffer_tooLong _ h
  · exact h

theorem Near.withPendings (h : Near d b b') {p q : ℤ} (hp : PendAlike p q) :
    Near d { b with pendings := p } { b' with pendings := q } := by
  refine ⟨h.tooLong, fun hb hb' => ?_⟩
  have hshift := h.shifted hb hb'
  exact { hshift with pendings := hp }

theorem Near.withPendingp (h : Near d b b') (p : ℤ) :
    Near d { b with pendingp := p } { b' with pendingp := p } := by
  refine ⟨h.tooLong, fun hb hb' => ?_⟩
  have hshift := h.shifted hb hb'
  exact { hshift with pendingp := .refl p, silent := fun _ => Iff.rfl }

theorem Near.closeSpace (h : Near d b b') : Near d (closeSpace b) (closeSpace b') := by
  refine h.map (fun _ => closeSpace_tooLong) fun hshift hb hb' => ?_
  rw [Lirc.closeSpace, Lirc.closeSpace]
  by_cases hpos : 0 < b.pendings
  · rw [if_pos hpos, if_pos (hshift.pendings.pos_iff.mp hpos), ← hshift.pendings.eq_of_pos hpos]
    exact (hshift.addSendBuffer hb hb' _).withPendings (.refl 0)
  · rw [if_neg hpos, if_neg (mt hshift.pendings.pos_iff.mpr hpos)]
    exact h

theorem Near.closePulse (h : Near d b b') : Near d (closePulse b) (closePulse b') := by
  refine h.map (fun _ => closePulse_tooLong) fun hshift hb hb' => ?_
  rw [Lirc.closePulse, Lirc.closePulse]
  by_cases hpos : 0 < b.pendingp
  · rw [if_pos hpos, if_pos (hshift.pendingp.pos_iff.mp hpos), ← hshift.pendingp.eq_of_pos hpos]
    exact (hshift.addSendBuffer hb hb' _).withPendingp 0
  · rw [if_neg hpos, if_neg (mt hshift.pendingp.pos_iff.mpr hpos)]
    exact h

theorem Near.sendPart (h : Near d b b') (p : Signal.Part) :
    Near d (sendPart b p) (sendPart b' p) := by
  refine h.map (fun _ => sendPart_tooLong p) fun hshift hb hb' => ?_
  rw [Lirc.sendPart, Lirc.sendPart]
  split
  · rw [sendPulse, sendPulse]
    by_cases hpos : 0 < b.pendingp
    · rw [if_pos hpos, if_pos (hshift.pendingp.pos_iff.mp hpos),
        ← hshift.pendingp.eq_of_pos hpos]
      exact h.withPendingp _
    · rw [if_neg hpos, if_neg (mt hshift.pendingp.pos_iff.mpr hpos)]
      exact h.closeSpace.withPendingp _
  · rw [sendSpace, sendSpace]
    by_cases hsilent : b.wptr = 0 ∧ b.pendingp = 0
    · rw [if_pos hsilent, if_pos ⟨hshift.empty.mp hsilent.1,
        (hshift.silent hsilent.1).mp hsilent.2⟩]
      exact h
    · have hsilent' : ¬(b'.wptr = 0 ∧ b'.pendingp = 0) := by
        rintro ⟨hw, hp⟩
        have hw' := hshift.empty.mpr hw
        exact hsilent ⟨hw', (hshift.silent hw').mpr hp⟩
      rw [if_neg hsilent, if_neg hsilent']
      by_cases hpos : 0 < b.pendings
      · rw [if_pos hpos, if_pos (hshift.pendings.pos_iff.mp hpos),
          ← hshift.pendings.eq_of_pos hpos]
        exact h.withPendings (.refl _)
      · rw [if_neg hpos, if_neg (mt hshift.pendings.pos_iff.mpr hpos)]
        exact h.closePulse.withPendings (.refl _)

theorem Near.sendParts (h : Near d b b') (ps : List Signal.Part) :
    Near d (sendParts b ps) (sendParts b' ps) := by
  induction ps generalizing b b' with
  | nil => exact h
  | cons p ps ih => exact ih (h.sendPart p)

end Near

/-! ### One round -/

section Round

variable {r : IrRemote} {rep : Bool} {c : IrCode} {d : ℤ} {b b' e e' : SBuf}

/-- The frame in the buffer, with its last pulse. -/
def framed (r : IrRemote) (rep : Bool) (b : SBuf) (c : IrCode) : SBuf :=
  closePulse (xmpFrame r rep b c)

theorem closePulse_pendingp_le (b : SBuf) : (closePulse b).pendingp ≤ 0 := by
  rw [closePulse]
  split
  · exact le_rfl
  · next hpos => exact Int.not_lt.mp hpos

theorem closeSpace_pendings_le (b : SBuf) : (closeSpace b).pendings ≤ 0 := by
  rw [closeSpace]
  split
  · exact le_rfl
  · next hpos => exact Int.not_lt.mp hpos

/-- A buffer is bad exactly when a sample did not fit. -/
theorem badSendBuffer_sync (b : SBuf) : badSendBuffer (syncSendBuffer b) = (closePulse b).tooLong := by
  have hle := closePulse_pendingp_le b
  obtain ⟨hlong, -, hp, -⟩ := dropSpace_frame (closePulse b)
  rw [syncSendBuffer_eq, badSendBuffer, hlong, hp, decide_eq_false (by omega), Bool.and_false,
    Bool.or_false]

theorem badSendBuffer_framed : badSendBuffer (dropSpace (framed r rep b c)) =
    (framed r rep b c).tooLong :=
  badSendBuffer_sync _

theorem frameRound_eq_some_iff : frameRound r rep b c = some e ↔
    (framed r rep b c).tooLong = false ∧
      ∃ gmin gmax, remainingGap r rep (framed r rep b c).sum = some (gmin, gmax) ∧
        gmin < exactGapThreshold ∧
          addGap (unrollRaw (dropSpace (framed r rep b c))) gmin = e := by
  have hframed : closePulse (xmpFrame r rep b c) = framed r rep b c := rfl
  rw [frameRound]
  simp only [syncSendBuffer_eq, hframed, badSendBuffer_framed, (dropSpace_frame _).2.2.2.2]
  cases hlong : (framed r rep b c).tooLong with
  | true => simp
  | false =>
      rw [if_neg Bool.false_ne_true]
      cases hgap : remainingGap r rep (framed r rep b c).sum with
      | none => simp
      | some gap =>
          obtain ⟨gmin, gmax⟩ := gap
          dsimp only
          by_cases hlow : gmin < exactGapThreshold
          · simp [hlow]
          · simp [hlow]

/-- A repeated frame does the same to both buffers. -/
theorem Near.framed (h : Near d b b') (c : IrCode) :
    Near d (framed r true b c) (framed r true b' c) := by
  rw [Lirc.framed, Lirc.framed, xmpFrame_eq, xmpFrame_eq]
  refine Near.closePulse ?_
  split
  · exact h.sendParts _
  · have hparts := h.sendParts (codeParts r c true)
    refine ⟨hparts.tooLong, fun hb hb' => ?_⟩
    have hshift := hparts.shifted hb hb'
    refine { hshift with sum := ?_, data := rfl, data' := rfl }
    rw [SBuf.adjusted_sum, SBuf.adjusted_sum, hshift.sum]

/-- Once the last space is dropped, the numbers of samples differ by an even number. -/
theorem Shifted.dropSpace (h : Shifted d b b') :
    ∃ k, Even k ∧ (Even d → k = d) ∧ Shifted k (dropSpace b) (dropSpace b') := by
  have hwptr := h.wptr
  have hempty := h.empty
  have hodd (x : SBuf) : ((Lirc.dropSpace x).wptr : ℤ) =
      if x.wptr = 0 then 0 else (x.wptr : ℤ) - (1 - x.wptr % 2) := by
    rw [Lirc.dropSpace]
    split
    · dsimp only
      omega
    · omega
  have hb := hodd b
  have hb' := hodd b'
  obtain ⟨-, hdata, hp, hs, hsum⟩ := dropSpace_frame b
  obtain ⟨-, hdata', hp', hs', hsum'⟩ := dropSpace_frame b'
  refine ⟨((Lirc.dropSpace b').wptr : ℤ) - (Lirc.dropSpace b).wptr, ?_, ?_, ?_, ?_, ?_, ?_, ?_,
    ?_, ?_, ?_⟩
  · rw [Int.even_iff]
    split at hb <;> split at hb' <;> omega
  · rw [Int.even_iff]
    intro heven
    split at hb <;> split at hb' <;> omega
  · omega
  · split at hb <;> split at hb' <;> omega
  · rw [hp, hp']
    exact h.pendingp
  · intro hzero
    rw [hp, hp']
    refine h.silent ?_
    split at hb <;> omega
  · rw [hs, hs']
    exact h.pendings
  · rw [hsum, hsum', h.sum]
  · rw [hdata, h.data]
  · rw [hdata', h.data']

theorem addGap_eq_close (b : SBuf) (gmin : ℤ) : addGap b gmin =
    { closeSpace (closePulse (sendPart b (Signal.space gmin))) with sum := 0 } := rfl

theorem Near.addGap (h : Near d b b') (gmin : ℤ) : Near d (addGap b gmin) (addGap b' gmin) := by
  have hgap := (h.sendPart (Signal.space gmin)).closePulse.closeSpace
  rw [addGap_eq_close, addGap_eq_close]
  refine ⟨hgap.tooLong, fun hb hb' => ?_⟩
  have hshift := hgap.shifted hb hb'
  exact { hshift with sum := rfl }

/-- Two rounds with the same frame, where both go on. -/
theorem frameRound_near (h : Near d b b') (he : frameRound r true b c = some e)
    (he' : frameRound r true b' c = some e') :
    ∃ k, Even k ∧ (Even d → k = d) ∧ Near k e e' := by
  obtain ⟨hb, gmin, gmax, hgap, -, rfl⟩ := frameRound_eq_some_iff.mp he
  obtain ⟨hb', gmin', gmax', hgap', -, rfl⟩ := frameRound_eq_some_iff.mp he'
  have hshift := (h.framed (r := r) c).shifted hb hb'
  rw [hshift.sum, hgap'] at hgap
  obtain ⟨rfl, rfl⟩ := Prod.mk.inj (Option.some.inj hgap)
  obtain ⟨k, heven, hkeep, hdrop⟩ := hshift.dropSpace
  refine ⟨k, heven, hkeep, ?_⟩
  rw [unrollRaw_own hdrop.data, unrollRaw_own hdrop.data']
  refine (hdrop.near ?_ ?_).addGap _
  · exact (dropSpace_frame _).1.trans hb
  · exact (dropSpace_frame _).1.trans hb'

/-- With as many samples, the rounds go on together. -/
theorem frameRound_same (h : Near 0 b b') (he : frameRound r true b c = some e) :
    ∃ e', frameRound r true b' c = some e' ∧ Near 0 e e' := by
  obtain ⟨hb, gmin, gmax, hgap, hlow, hround⟩ := frameRound_eq_some_iff.mp he
  have hframed := h.framed (r := r) c
  have hb' : (framed r true b' c).tooLong = false := (hframed.tooLong rfl).symm.trans hb
  have hshift := hframed.shifted hb hb'
  have he' : frameRound r true b' c =
      some (addGap (unrollRaw (dropSpace (framed r true b' c))) gmin) :=
    frameRound_eq_some_iff.mpr ⟨hb', gmin, gmax, by rw [← hshift.sum, hgap], hlow, rfl⟩
  obtain ⟨k, -, hkeep, hnear⟩ := frameRound_near h he he'
  rw [hkeep ⟨0, rfl⟩] at hnear
  exact ⟨_, he', hnear⟩

end Round

/-! ### Between two rounds -/

/-- A buffer between two rounds. -/
structure BetweenRounds (b : SBuf) : Prop where
  wptr_le : b.wptr ≤ wbufSize
  tooLong : b.tooLong = false
  data : b.data = .own
  pendingp : b.pendingp ≤ 0
  pendings : b.pendings ≤ 0
  sum : b.sum = 0

section Between

variable {r : IrRemote} {rep : Bool} {c : IrCode} {b b' b'' e : SBuf}

theorem le_closeSpace_wptr (b : SBuf) : b.wptr ≤ (closeSpace b).wptr := by
  rw [closeSpace]
  split
  · exact le_addSendBuffer_wptr b _
  · exact le_rfl

theorem le_framed_wptr (b : SBuf) (c : IrCode) : b.wptr ≤ (framed r rep b c).wptr := by
  rw [framed, xmpFrame_eq]
  refine Nat.le_trans ?_ (le_closePulse_wptr _)
  split
  · exact le_sendParts_wptr b _
  · exact le_sendParts_wptr b _

theorem framed_sound (h : b.Sound) (c : IrCode) : (framed r rep b c).Sound := by
  rw [framed, xmpFrame_eq]
  refine SBuf.Sound.closePulse ?_
  split
  · exact h.sendParts _
  · exact ⟨(h.sendParts _).wptr_le⟩

/-- Signals that fit are copied. -/
theorem sendSignals_fits {l : List ℤ} (hlong : b.tooLong = false)
    (hfit : b.wptr + l.length ≤ wbufSize) :
    (sendSignals b l).tooLong = false ∧ (sendSignals b l).wptr = b.wptr + l.length := by
  induction l generalizing b with
  | nil => exact ⟨hlong, rfl⟩
  | cons x l ih =>
      rw [List.length_cons] at hfit
      obtain ⟨hlong', hwptr⟩ := @addSendBuffer_fits b x hlong (by omega)
      obtain ⟨hall, hw⟩ := ih hlong' (by omega)
      rw [sendSignals, List.foldl_cons, ← sendSignals]
      refine ⟨hall, ?_⟩
      rw [hw, hwptr, List.length_cons]
      omega

theorem unrollRaw_fits (hlong : b.tooLong = false) (hlt : b.wptr < wbufSize) :
    (unrollRaw b).tooLong = false ∧ (unrollRaw b).wptr < wbufSize ∧ (unrollRaw b).data = .own ∧
      (unrollRaw b).pendingp = b.pendingp := by
  rw [unrollRaw]
  split
  · next hown => exact ⟨hlong, hlt, hown, rfl⟩
  · have hlen : b.samples.length ≤ b.wptr := by
      rw [SBuf.samples]
      split
      · exact Nat.zero_le _
      · exact List.length_take_le _ _
      · exact List.length_take_le _ _
    obtain ⟨hall, hw⟩ := sendSignals_fits (b := { b with data := .own, wptr := 0 })
      (l := b.samples) hlong (by dsimp only; omega)
    obtain ⟨-, hp, -⟩ := @sendSignals_extended { b with data := .own, wptr := 0 } ⟨Nat.zero_le _⟩
      b.samples hall
    refine ⟨hall, ?_, sendSignals_data _ _, hp⟩
    rw [hw]
    dsimp only
    omega

theorem closeSpace_fits (hlong : b.tooLong = false) (hlt : b.wptr < wbufSize) :
    (closeSpace b).tooLong = false ∧ (closeSpace b).wptr ≤ wbufSize ∧
      (closeSpace b).data = b.data ∧ (closeSpace b).pendingp = b.pendingp := by
  rw [closeSpace]
  split
  · obtain ⟨hfit, -⟩ := @addSendBuffer_fits b b.pendings hlong hlt
    exact ⟨hfit, (addSendBuffer_sound ⟨hlt.le⟩ _).wptr_le, addSendBuffer_data b _,
      addSendBuffer_pendingp b _⟩
  · exact ⟨hlong, hlt.le, rfl, rfl⟩

/-- The gap takes one sample at most. -/
theorem betweenRounds_addGap (hlong : b.tooLong = false) (hlt : b.wptr < wbufSize)
    (hown : b.data = .own) (hp : b.pendingp ≤ 0) (gmin : ℤ) : BetweenRounds (addGap b gmin) := by
  have hpulse (s : ℤ) : closePulse { b with pendings := s } = { b with pendings := s } := by
    rw [closePulse]
    exact if_neg (Int.not_lt.mpr hp)
  have hspace : ∃ s, sendPart b (Signal.space gmin) = { b with pendings := s } := by
    rw [sendPart_space, sendSpace]
    split
    · exact ⟨b.pendings, rfl⟩
    · split
      · exact ⟨_, rfl⟩
      · refine ⟨gmin, ?_⟩
        rw [if_neg (Int.not_lt.mpr hp)]
  obtain ⟨s, hs⟩ := hspace
  obtain ⟨hlong', hle, hdata, hpulse'⟩ := @closeSpace_fits { b with pendings := s } hlong hlt
  rw [addGap_eq_close, hs, hpulse]
  exact ⟨hle, hlong', hdata.trans hown, hpulse'.trans_le hp, closeSpace_pendings_le _, rfl⟩

/-- Where the loop goes on, the buffer is ready for the next round. -/
theorem frameRound_betweenRounds (hle : b.wptr ≤ wbufSize) (h : frameRound r rep b c = some e) :
    BetweenRounds e := by
  obtain ⟨hlong, gmin, gmax, -, -, rfl⟩ := frameRound_eq_some_iff.mp h
  obtain ⟨hdrop, -, hp, -, -⟩ := dropSpace_frame (framed r rep b c)
  have hfit := (@framed_sound r rep b ⟨hle⟩ c).wptr_le
  have hlt : (dropSpace (framed r rep b c)).wptr < wbufSize := by
    have hsize : wbufSize = 256 := rfl
    rw [dropSpace]
    split
    · dsimp only
      omega
    · omega
  obtain ⟨hlong', hlt', hown, hp'⟩ := unrollRaw_fits (hdrop.trans hlong) hlt
  refine betweenRounds_addGap hlong' hlt' hown ?_ gmin
  rw [hp', hp]
  exact closePulse_pendingp_le _

/-- A buffer that is empty after a round was empty before it. -/
theorem frameRound_empty (hready : BetweenRounds b) (h : frameRound r true b c = some e)
    (he : e.wptr = 0) : b.wptr = 0 := by
  obtain ⟨hlong, gmin, gmax, -, -, rfl⟩ := frameRound_eq_some_iff.mp h
  have hdata : (framed r true b c).data = .own := by
    have hshift : Shifted 0 b b := ⟨(add_zero _).symm, Iff.rfl, .refl _, fun _ => Iff.rfl, .refl _,
      rfl, hready.data, hready.data⟩
    have hnear := hshift.near hready.tooLong hready.tooLong
    exact ((hnear.framed c).shifted hlong hlong).data
  rw [unrollRaw_own ((dropSpace_frame _).2.1.trans hdata), addGap_eq_close] at he
  have hgap := ((le_sendPart_wptr (dropSpace (framed r true b c)) (Signal.space gmin)).trans
    (le_closePulse_wptr _)).trans (le_closeSpace_wptr _)
  have hzero : (dropSpace (framed r true b c)).wptr = 0 := Nat.le_zero.mp (he ▸ hgap)
  have hframed : b.wptr ≤ (framed r true b c).wptr := le_framed_wptr b c
  rw [dropSpace] at hzero
  split at hzero
  · dsimp only at hzero
    omega
  · omega

end Between

/-! ### Passes -/

/-- Buffers between two rounds, the numbers of whose samples differ by an even number. -/
structure EvenShift (d : ℤ) (b b' : SBuf) : Prop where
  even : Even d
  before : BetweenRounds b
  after : BetweenRounds b'
  shifted : Shifted d b b'

section Passes

variable {r : IrRemote} {code : IrNcode} {codes : List IrCode} {d : ℤ} {b b' e e' : SBuf}

theorem BetweenRounds.shifted (h : BetweenRounds b) (h' : BetweenRounds b')
    (hempty : b.wptr = 0 ↔ b'.wptr = 0)
    (hsilent : b.wptr = 0 → (b.pendingp = 0 ↔ b'.pendingp = 0)) :
    Shifted (b'.wptr - b.wptr) b b' where
  wptr := by omega
  empty := hempty
  pendingp := Or.inr ⟨h.pendingp, h'.pendingp⟩
  silent := hsilent
  pendings := Or.inr ⟨h.pendings, h'.pendings⟩
  sum := h.sum.trans h'.sum.symm
  data := h.data
  data' := h'.data

/-- What holds between any two rounds holds after some frames. -/
theorem repeatedFrames_betweenRounds (hb : BetweenRounds b)
    (h : repeatedFrames r codes b = some e) : BetweenRounds e := by
  induction codes generalizing b with
  | nil => rwa [← Option.some.inj h]
  | cons c codes ih =>
      obtain ⟨b₁, hb₁, hrest⟩ := Option.bind_eq_some_iff.mp h
      exact ih (frameRound_betweenRounds hb.wptr_le hb₁) hrest

theorem repeatedFrames_empty (hb : BetweenRounds b) (h : repeatedFrames r codes b = some e)
    (he : e.wptr = 0) : b.wptr = 0 := by
  induction codes generalizing b with
  | nil => rwa [Option.some.inj h]
  | cons c codes ih =>
      obtain ⟨b₁, hb₁, hrest⟩ := Option.bind_eq_some_iff.mp h
      exact frameRound_empty hb hb₁ (ih (frameRound_betweenRounds hb.wptr_le hb₁) hrest)

/-- A frame makes the difference even. -/
theorem frameRound_evenShift {c : IrCode} (hb : BetweenRounds b) (hb' : BetweenRounds b')
    (h : Shifted d b b') (he : frameRound r true b c = some e)
    (he' : frameRound r true b' c = some e') :
    ∃ k, (Even d → k = d) ∧ EvenShift k e e' := by
  obtain ⟨k, heven, hkeep, hnear⟩ := frameRound_near (h.near hb.tooLong hb'.tooLong) he he'
  have hready := frameRound_betweenRounds hb.wptr_le he
  have hready' := frameRound_betweenRounds hb'.wptr_le he'
  exact ⟨k, hkeep, heven, hready, hready', hnear.shifted hready.tooLong hready'.tooLong⟩

/-- The difference stays as it is. -/
theorem repeatedFrames_evenShift (h : EvenShift d b b') (he : repeatedFrames r codes b = some e)
    (he' : repeatedFrames r codes b' = some e') : EvenShift d e e' := by
  induction codes generalizing b b' with
  | nil => rwa [← Option.some.inj he, ← Option.some.inj he']
  | cons c codes ih =>
      obtain ⟨b₁, hb₁, hrest⟩ := Option.bind_eq_some_iff.mp he
      obtain ⟨b₁', hb₁', hrest'⟩ := Option.bind_eq_some_iff.mp he'
      obtain ⟨k, hkeep, hshift⟩ := frameRound_evenShift h.before h.after h.shifted hb₁ hb₁'
      rw [hkeep h.even] at hshift
      exact ih hshift hrest hrest'

theorem pass_evenShift (hnext : code.next ≠ []) (hb : BetweenRounds b) (hb' : BetweenRounds b')
    (h : Shifted d b b') (he : pass r code b = some e) (he' : pass r code b' = some e') :
    ∃ k, EvenShift k e e' := by
  obtain ⟨c, codes, hcodes⟩ := List.exists_cons_of_ne_nil hnext
  rw [pass, hcodes] at he he'
  obtain ⟨b₁, hb₁, hrest⟩ := Option.bind_eq_some_iff.mp he
  obtain ⟨b₁', hb₁', hrest'⟩ := Option.bind_eq_some_iff.mp he'
  obtain ⟨k, -, hshift⟩ := frameRound_evenShift hb hb' h hb₁ hb₁'
  exact ⟨k, repeatedFrames_evenShift hshift hrest hrest'⟩

/-- With as many samples, the frames go on together. -/
theorem repeatedFrames_same (h : EvenShift 0 b b') (he : repeatedFrames r codes b = some e) :
    ∃ e', repeatedFrames r codes b' = some e' ∧ EvenShift 0 e e' := by
  have hgo : ∃ e', repeatedFrames r codes b' = some e' := by
    induction codes generalizing b b' with
    | nil => exact ⟨b', rfl⟩
    | cons c codes ih =>
        obtain ⟨b₁, hb₁, hrest⟩ := Option.bind_eq_some_iff.mp he
        obtain ⟨b₁', hb₁', -⟩ :=
          frameRound_same (h.shifted.near h.before.tooLong h.after.tooLong) hb₁
        obtain ⟨k, hkeep, hshift⟩ := frameRound_evenShift h.before h.after h.shifted hb₁ hb₁'
        rw [hkeep ⟨0, rfl⟩] at hshift
        obtain ⟨e', he'⟩ := ih hshift hrest
        exact ⟨e', Option.bind_eq_some_iff.mpr ⟨b₁', hb₁', he'⟩⟩
  obtain ⟨e', he'⟩ := hgo
  exact ⟨e', he', repeatedFrames_evenShift h he he'⟩

theorem pass_same (b b' e : SBuf) (h : EvenShift 0 b b') (he : pass r code b = some e) :
    ∃ e', pass r code b' = some e' ∧ EvenShift 0 e e' := repeatedFrames_same h he

/-- Two buffers of equal size that are both silent, or both not. -/
theorem evenShift_zero (hb : BetweenRounds b) (hb' : BetweenRounds b') (hw : b.wptr = b'.wptr)
    (hsilent : b.wptr = 0 → (b.pendingp = 0 ↔ b'.pendingp = 0)) : EvenShift 0 b b' := by
  have hshift := hb.shifted hb' (by rw [hw]) hsilent
  rw [hw, sub_self] at hshift
  exact ⟨⟨0, rfl⟩, hb, hb', hshift⟩

/-- Of three empty buffers two are alike: passes that leave the buffer empty go
on, and it stays empty. -/
theorem endless_of_empty {b₀ b₁ b₂ : SBuf} (hb₀ : BetweenRounds b₀)
    (h₁ : pass r code b₀ = some b₁) (h₂ : pass r code b₁ = some b₂) (hempty : b₂.wptr = 0) :
    Endless (pass r code) b₀ ∧ ∃ b₃ b₄, pass r code b₂ = some b₃ ∧ pass r code b₃ = some b₄ ∧
      b₃.wptr = 0 ∧ b₄.wptr = 0 := by
  have hb₁ : BetweenRounds b₁ := repeatedFrames_betweenRounds hb₀ h₁
  have hb₂ : BetweenRounds b₂ := repeatedFrames_betweenRounds hb₁ h₂
  have hw₁ : b₁.wptr = 0 := repeatedFrames_empty hb₁ h₂ hempty
  have hw₀ : b₀.wptr = 0 := repeatedFrames_empty hb₀ h₁ hw₁
  have hzero {x y : SBuf} (hx : EvenShift 0 x y) (hxw : x.wptr = 0) : y.wptr = 0 :=
    hx.shifted.empty.mp hxw
  have hcase : EvenShift 0 b₁ b₂ ∨ EvenShift 0 b₀ b₂ := by
    by_cases h : b₁.pendingp = 0 ↔ b₂.pendingp = 0
    · exact Or.inl (evenShift_zero hb₁ hb₂ (hw₁.trans hempty.symm) fun _ => h)
    · by_cases h' : b₀.pendingp = 0 ↔ b₂.pendingp = 0
      · exact Or.inr (evenShift_zero hb₀ hb₂ (hw₀.trans hempty.symm) fun _ => h')
      · -- then the first two are alike, and so are the two after them
        obtain ⟨e, he, hshift⟩ := pass_same b₀ b₁ b₁
          (evenShift_zero hb₀ hb₁ (hw₀.trans hw₁.symm) fun _ => by tauto) h₁
        rw [h₂] at he
        rw [← Option.some.inj he] at hshift
        exact Or.inl hshift
  rcases hcase with h12 | h02
  · obtain ⟨b₃, h₃, h23⟩ := pass_same b₁ b₂ b₂ h12 h₂
    obtain ⟨b₄, h₄, h34⟩ := pass_same b₂ b₃ b₃ h23 h₃
    refine ⟨?_, b₃, b₄, h₃, h₄, hzero h23 hempty, hzero h34 (hzero h23 hempty)⟩
    exact (endless_iff_of_lap h₁).mpr (endless_of_near_zero pass_same h₂ h12)
  · obtain ⟨b₃, h₃, h13⟩ := pass_same b₀ b₂ b₁ h02 h₁
    obtain ⟨b₄, h₄, h24⟩ := pass_same b₁ b₃ b₂ h13 h₂
    refine ⟨?_, b₃, b₄, h₃, h₄, hzero h13 hw₁, hzero h24 hempty⟩
    have hlaps : laps (pass r code) 2 b₀ = some b₂ := by
      rw [laps_succ, h₁, Option.bind_some, laps_succ, h₂, Option.bind_some, laps_zero]
    exact endless_of_recurrence pass_same (by decide) hlaps h02

/-- The passes go on for ever exactly when the fourth changes nothing. -/
theorem endless_iff_fourth (hnext : code.next ≠ []) (hb : BetweenRounds b) :
    Endless (pass r code) b ↔ ∃ b₃ b₄, laps (pass r code) 3 b = some b₃ ∧
      pass r code b₃ = some b₄ ∧ b₄.wptr = b₃.wptr := by
  constructor
  · intro hendless
    obtain ⟨b₁, h₁, hendless₁⟩ := hendless.next
    obtain ⟨b₂, h₂, hendless₂⟩ := hendless₁.next
    obtain ⟨b₃, h₃, hendless₃⟩ := hendless₂.next
    obtain ⟨b₄, h₄, -⟩ := hendless₃.next
    have hb₁ : BetweenRounds b₁ := repeatedFrames_betweenRounds hb h₁
    have hb₂ : BetweenRounds b₂ := repeatedFrames_betweenRounds hb₁ h₂
    have hb₃ : BetweenRounds b₃ := repeatedFrames_betweenRounds hb₂ h₃
    refine ⟨b₃, b₄, ?_, h₄, ?_⟩
    · rw [laps_succ, h₁, Option.bind_some, laps_succ, h₂, Option.bind_some, laps_succ, h₃,
        Option.bind_some, laps_zero]
    · by_cases hempty : b₂.wptr = 0
      · obtain ⟨-, x, y, hx, hy, hxw, hyw⟩ := endless_of_empty hb h₁ h₂ hempty
        rw [h₃] at hx
        rw [← Option.some.inj hx, h₄] at hy
        rw [Option.some.inj hy, Option.some.inj hx, hxw, hyw]
      · have hempty₃ : b₃.wptr ≠ 0 := fun h => hempty (repeatedFrames_empty hb₂ h₃ h)
        have hshift := hb₂.shifted hb₃ (iff_of_false hempty hempty₃) fun h => absurd h hempty
        obtain ⟨d, hd⟩ := pass_evenShift hnext hb₂ hb₃ hshift h₃ h₄
        by_contra hne
        refine @not_endless_of_near SBuf (pass r code) SBuf.wptr EvenShift wbufSize b₃ b₄ d
          (fun _ _ _ h => h.shifted.wptr) (fun _ _ _ h => h.after.wptr_le)
          (fun _ _ _ _ h hs ht => repeatedFrames_evenShift h hs ht) ?_ h₄ hd hendless₃
        rintro rfl
        have hw := hd.shifted.wptr
        omega
  · rintro ⟨b₃, b₄, h₃, h₄, hw⟩
    rw [laps_succ] at h₃
    obtain ⟨b₁, h₁, h₃⟩ := Option.bind_eq_some_iff.mp h₃
    rw [laps_succ] at h₃
    obtain ⟨b₂, h₂, h₃⟩ := Option.bind_eq_some_iff.mp h₃
    rw [laps_succ, funext laps_zero, Option.bind_fun_some] at h₃
    have hb₁ : BetweenRounds b₁ := repeatedFrames_betweenRounds hb h₁
    have hb₂ : BetweenRounds b₂ := repeatedFrames_betweenRounds hb₁ h₂
    have hb₃ : BetweenRounds b₃ := repeatedFrames_betweenRounds hb₂ h₃
    have hb₄ : BetweenRounds b₄ := repeatedFrames_betweenRounds hb₃ h₄
    by_cases hempty : b₂.wptr = 0
    · exact (endless_of_empty hb h₁ h₂ hempty).1
    · have hempty₃ : b₃.wptr ≠ 0 := fun h => hempty (repeatedFrames_empty hb₂ h₃ h)
      have hzero := evenShift_zero hb₃ hb₄ hw.symm fun h => absurd h hempty₃
      rw [endless_iff_of_lap h₁, endless_iff_of_lap h₂, endless_iff_of_lap h₃]
      exact endless_of_near_zero pass_same h₄ hzero

end Passes

/-! ### The result -/

section Result

variable {r : IrRemote} {code : IrNcode} {repeating : Bool} {b : SBuf}

/-- What follows the first frame goes on for ever exactly when its passes do. -/
theorem initSend_xmp (hx : isXmp r = true) (hnext : code.next ≠ []) :
    (∃ fuel out, initSend r code repeating b fuel = some out) ↔
      ¬∃ b₀, firstFrames r code repeating b = some b₀ ∧ Endless (pass r code) b₀ := by
  have hsend : cannotSend r = false := by
    have hgrundig : isGrundig r = false := protocolIs_unique hx (by decide)
    have hgoldstar : isGoldstar r = false := protocolIs_unique hx (by decide)
    have hserial : isSerial r = false := protocolIs_unique hx (by decide)
    have hbo : isBo r = false := protocolIs_unique hx (by decide)
    rw [cannotSend, hgrundig, hgoldstar, hserial, hbo]
    rfl
  simp only [initSend_eq r code repeating b _ hsend]
  have hfirst (fuel : ℕ) := initSendLoop_xmp hx hnext fuel repeating (startBuffer r b)
    (startTx r code repeating) []
  have hstart : (startTx r code repeating).transmitState = code.transmitState := rfl
  simp only [hstart] at hfirst
  rw [firstFrames]
  cases hround : frameRound r repeating (startBuffer r b)
      (nextCode code false code.transmitState) with
  | none =>
      simp only [hround] at hfirst
      refine iff_of_true ?_ ?_
      · obtain ⟨out, hout⟩ := hfirst 0
        exact ⟨1, out, hout⟩
      · rintro ⟨b₀, hb₀, -⟩
        cases hb₀
  | some b₁ =>
      simp only [hround] at hfirst
      have hloop : (∃ fuel out, initSendLoop r code false fuel repeating (startBuffer r b)
          (startTx r code repeating) [] = some out) ↔
            Loop.Ends (xmpRound r code) (b₁, nextTransmitState r code code.transmitState) := by
        have hfuel (n : ℕ) : (∃ out, initSendLoop r code false (n + 1) repeating
            (startBuffer r b) (startTx r code repeating) [] = some out) ↔
              ∃ out, Loop.runFor (xmpRound r code) n
                (b₁, nextTransmitState r code code.transmitState) = some out := by
          obtain ⟨tx', frames', hstate, hrun⟩ := hfirst n
          rw [hrun, initSendLoop_runFor hx hnext, hstate]
        constructor
        · rintro ⟨fuel, out, hout⟩
          cases fuel with
          | zero => cases hout
          | succ n =>
              obtain ⟨out', hout'⟩ := (hfuel n).mp ⟨out, hout⟩
              exact ⟨out', n, hout'⟩
        · rintro ⟨out, n, hout⟩
          exact ⟨n + 1, (hfuel n).mpr ⟨out, hout⟩⟩
      rw [hloop, Option.bind_some]
      have hpasses (b₀ : SBuf) := @ends_iff_not_endless r code hx hnext b₀
      by_cases htail : code.transmitState.tail = []
      · -- the sequence starts after the first frame
        have hnow : nextTransmitState r code code.transmitState = code.next := by
          cases hts : code.transmitState with
          | nil => simp [nextTransmitState, hnext]
          | cons c rest =>
              rw [hts, List.tail_cons] at htail
              simp [nextTransmitState, hnext, htail, hx]
        rw [hnow, hpasses, htail]
        refine not_congr ⟨fun h => ⟨b₁, rfl, h⟩, ?_⟩
        rintro ⟨b₀, hb₀, h⟩
        rwa [Option.some.inj hb₀]
      · have hnow : nextTransmitState r code code.transmitState = code.transmitState.tail := by
          cases hts : code.transmitState with
          | nil => exact absurd (by rw [hts]; rfl) htail
          | cons c rest =>
              rw [hts, List.tail_cons] at htail
              simp [nextTransmitState, hnext, htail]
        rw [hnow]
        obtain ⟨hends, hreaches⟩ := @repeatedFrames_ends r code b₁ _ hx hnext htail
        cases hrest : repeatedFrames r code.transmitState.tail b₁ with
        | none =>
            refine iff_of_true (hends hrest) ?_
            rintro ⟨b₀, hb₀, -⟩
            cases hb₀
        | some b₀ =>
            rw [(hreaches b₀ hrest).ends_iff, hpasses]
            refine not_congr ⟨fun h => ⟨b₀, rfl, h⟩, ?_⟩
            rintro ⟨b', hb', h⟩
            rwa [Option.some.inj hb']

/-- The loop of an XMP remote ends exactly when its passes do not stall. -/
theorem initSend_stalls_iff (hx : isXmp r = true) (hnext : code.next ≠ []) :
    (∃ fuel out, initSend r code repeating b fuel = some out) ↔ ¬Stalls r code repeating b := by
  rw [initSend_xmp hx hnext]
  refine not_congr ?_
  have hready {b₀ : SBuf} (h : firstFrames r code repeating b = some b₀) : BetweenRounds b₀ := by
    obtain ⟨b₁, hb₁, hrest⟩ := Option.bind_eq_some_iff.mp h
    have hone := frameRound_betweenRounds (Nat.zero_le _) hb₁
    exact repeatedFrames_betweenRounds hone hrest
  constructor
  · rintro ⟨b₀, hb₀, hendless⟩
    obtain ⟨b₃, b₄, h₃, h₄, hw⟩ := (endless_iff_fourth hnext (hready hb₀)).mp hendless
    exact ⟨b₃, b₄, by rw [hb₀, Option.bind_some, h₃], h₄, hw⟩
  · rintro ⟨b₃, b₄, h₃, h₄, hw⟩
    obtain ⟨b₀, hb₀, h₃⟩ := Option.bind_eq_some_iff.mp h₃
    exact ⟨b₀, hb₀, (endless_iff_fourth hnext (hready hb₀)).mpr ⟨b₃, b₄, h₃, h₄, hw⟩⟩

/-- `init_send` ends exactly when the remote is not XMP, or the button has no
sequence, or its passes through the sequence do not stall. -/
theorem initSend_ends_iff (hts : InSequence code code.transmitState) :
    (∃ fuel out, initSend r code repeating b fuel = some out) ↔
      ¬(isXmp r = true ∧ code.next ≠ [] ∧ Stalls r code repeating b) := by
  by_cases hloops : isXmp r = true ∧ code.next ≠ []
  · obtain ⟨hx, hnext⟩ := hloops
    rw [initSend_stalls_iff hx hnext]
    exact not_congr ⟨fun h => ⟨hx, hnext, h⟩, fun h => h.2.2⟩
  · have hplain : isXmp r = false ∨ code.next = [] := by
      by_cases hx : isXmp r = true
      · exact Or.inr (by_contra fun hnext => hloops ⟨hx, hnext⟩)
      · exact Or.inl (eq_false_of_ne_true hx)
    refine iff_of_true ?_ fun h => hloops ⟨h.1, h.2.1⟩
    cases hsend : cannotSend r with
    | true => exact ⟨1, _, by rw [initSend, initSendOrSim, if_pos hsend]⟩
    | false =>
        obtain ⟨out, hout⟩ := initSendLoop_ends hplain
          (show InSequence code (startTx r code repeating).transmitState from hts) le_rfl repeating
          (startBuffer r b) []
        exact ⟨_, out, by rw [initSend_eq r code repeating b _ hsend]; exact hout⟩

/-- An XMP remote with codes of so many bits and a low gap. -/
def lowGapXmp (bits : ℕ) : IrRemote where
  flags := xmp
  bits := bits
  pzero := 200
  szero := 750
  sone := 130
  gap := 5000

/-- A button with two codes. -/
def twoCodes : IrNcode where
  name := ['A']
  code := 0x1
  next := [0x2]

/-- With eight bits every frame adds samples, and the buffer gets full. -/
theorem initSend_ends_eight :
    ∃ fuel out, initSend (lowGapXmp 8) twoCodes false initSendBuffer fuel = some out := by
  have hts : InSequence twoCodes twoCodes.transmitState := List.nil_suffix
  refine (initSend_ends_iff hts).mpr ?_
  rintro ⟨-, -, b₃, b₄, h₃, h₄, hw⟩
  have hgrows : ((firstFrames (lowGapXmp 8) twoCodes false initSendBuffer).bind
      (laps (pass (lowGapXmp 8) twoCodes) 3)).bind (fun b₃ =>
        (pass (lowGapXmp 8) twoCodes b₃).map fun b₄ => (b₃.wptr, b₄.wptr)) = some (16, 20) := by
    decide +kernel
  rw [h₃, Option.bind_some, h₄, Option.map_some] at hgrows
  obtain ⟨h3, h4⟩ := Prod.mk.inj (Option.some.inj hgrows)
  omega

/-- With six bits no frame adds a sample. -/
theorem initSend_never_ends : ¬∀ (r : IrRemote) (code : IrNcode) (repeating : Bool) (b : SBuf),
    InSequence code code.transmitState →
      ∃ fuel out, initSend r code repeating b fuel = some out := by
  intro h
  refine (initSend_stalls_iff (by decide) (by decide)).mp
    (h (lowGapXmp 6) twoCodes false initSendBuffer List.nil_suffix) ?_
  have hstays : ((firstFrames (lowGapXmp 6) twoCodes false initSendBuffer).bind
      (laps (pass (lowGapXmp 6) twoCodes) 3)).bind (fun b₃ =>
        (pass (lowGapXmp 6) twoCodes b₃).map fun b₄ => (b₃.wptr, b₄.wptr)) = some (0, 0) := by
    decide +kernel
  obtain ⟨b₃, h₃, hrest⟩ := Option.bind_eq_some_iff.mp hstays
  obtain ⟨b₄, h₄, hw⟩ := Option.map_eq_some_iff.mp hrest
  obtain ⟨hw₃, hw₄⟩ := Prod.mk.inj hw
  exact ⟨b₃, b₄, h₃, h₄, hw₄.trans hw₃.symm⟩

end Result

end Lirc
