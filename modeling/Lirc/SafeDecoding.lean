import Lirc.BufferSafety

/-!
The decoder, started in a buffer with a sample: no function leaves the array, if no bit is
given back that has not been read. The synchronisation makes sure that there is a sample,
and that it lies in front of the position.
-/

namespace Lirc

open Signal Transition

/-! ### Functions that may end early -/

section Rules

variable {hw : Hardware} {b : RBuf} {ops ops' : List BufOp} {β : Type*} {x y : β} {c : Prop}
  [Decidable c]

theorem Forward.unless (buf : β → RBuf) (h : Forward b ops (buf x))
    (h' : ¬c → Forward (buf x) ops' (buf y)) :
    Forward b (ops ++ if c then [] else ops') (buf (if c then x else y)) := by
  split
  · exact h.append (.nil h.within)
  · next hc => exact h.append (h' hc)

theorem Safely.unless (buf : β → RBuf) (h : Safely hw b ops (buf x))
    (h' : ¬c → (buf x).Placed → Safely hw (buf x) ops' (buf y)) :
    Safely hw b (ops ++ if c then [] else ops') (buf (if c then x else y)) := by
  split
  · exact h.append .nil
  · next hc => exact h.append (h' hc)

end Rules

/-! ### Pulses and spaces -/

section Reads

variable {b : RBuf} {m : ℤ}

theorem getNextPulse_forward (h : b.Within) (m : ℤ) :
    Forward b (readOps m) (getNextPulse b m).2 := getNextPulse_snd b m ▸ read_forward h m

theorem getNextSpace_forward (h : b.Within) (m : ℤ) :
    Forward b (readOps m) (getNextSpace b m).2 := getNextSpace_snd b m ▸ read_forward h m

theorem getNextPulse_moves (h : b.Within) (hne : (getNextPulse b m).1 ≠ 0) :
    (getNextPulse b m).2.rptr = b.rptr + 1 :=
  getNextPulse_snd b m ▸ (getNextRecBuffer_readsTo h m).word (getNextPulse_word hne)

theorem getNextSpace_moves (h : b.Within) (hne : (getNextSpace b m).1 ≠ 0) :
    (getNextSpace b m).2.rptr = b.rptr + 1 :=
  getNextSpace_snd b m ▸ (getNextRecBuffer_readsTo h m).word (getNextSpace_word hne)

end Reads

/-! ### Synchronisation -/

section Sync

variable (hw : Hardware) {b : RBuf}

theorem syncLoop_forward (l : IrRemote) (n : ℕ) (deltas : ℤ) (h : b.Within) :
    Forward b (syncLoopOps hw l n deltas b) (syncLoop hw l n deltas b).2 := by
  induction n using Nat.strong_induction_on generalizing deltas b with
  | _ n ih =>
      rw [syncLoopOps.eq_def, syncLoop.eq_def]
      dsimp only
      by_cases hdone : expectAtLeast hw l deltas l.minRemainingGap = true
      · rw [if_pos hdone, if_pos hdone]
        exact .nil h
      rw [if_neg hdone, if_neg hdone]
      have hpulse := getNextPulse_forward h 1000000
      generalize getNextPulse b 1000000 = t at hpulse ⊢
      obtain ⟨deltap, b₁⟩ := t
      refine Forward.unless (x := (0, b₁)) Prod.snd hpulse fun _ => ?_
      have hspace := getNextSpace_forward hpulse.within 1000000
      dsimp only at hspace ⊢
      generalize getNextSpace b₁ 1000000 = t at hspace ⊢
      obtain ⟨deltas, b₂⟩ := t
      refine Forward.unless (x := (0, b₂)) Prod.snd hspace fun _ => ?_
      cases n with
      | zero => exact .nil hspace.within
      | succ n => exact ih n (Nat.lt_succ_self n) deltas hspace.within

/-- `sum` starts again behind the space. -/
theorem synced_forward (h : b.Within) : Forward b [.synced] { b with sum := 0 } :=
  ⟨.quiet (fun _ => rfl) fun _ ⟨hdata, hinput, hrptr, _⟩ => ⟨hdata, hinput, hrptr, rfl⟩,
    h, le_rfl, le_rfl, fun _ => List.forall_mem_singleton.mpr trivial⟩

/-- All that follows the first space only reads. -/
theorem syncRecBuffer_rest (r : IrRemote) (last : LastRemote) (h : b.Within) :
    ∃ ops, syncRecBufferOps hw r last b = readOps 1000000 ++ ops ∧
      Forward (getNextSpace b 1000000).2 ops (syncRecBuffer hw r last b).2.2 := by
  have hwithin := (getNextSpace_forward h 1000000).within
  rw [syncRecBufferOps, syncRecBuffer]
  generalize getNextSpace b 1000000 = t at hwithin ⊢
  obtain ⟨deltas, b₁⟩ := t
  refine ⟨_, rfl, ?_⟩
  dsimp only at hwithin ⊢
  by_cases hnone : deltas = 0
  · rw [if_pos hnone, if_pos hnone]
    exact .nil hwithin
  rw [if_neg hnone, if_neg hnone]
  cases last.get r with
  | none => exact synced_forward hwithin
  | some l =>
      dsimp only
      by_cases hrcmm : isRcmm r = true
      · rw [if_pos hrcmm, if_pos hrcmm]
        exact synced_forward hwithin
      rw [if_neg hrcmm, if_neg hrcmm]
      have hloop := syncLoop_forward hw l recSync deltas hwithin
      generalize syncLoop hw l recSync deltas b₁ = t at hloop ⊢
      obtain ⟨deltas, b₂⟩ := t
      exact Forward.unless (x := (0, r, b₂)) (fun t => t.2.2) hloop
        fun _ => synced_forward hloop.within

theorem syncRecBuffer_forward (r : IrRemote) (last : LastRemote) (h : b.Within) :
    Forward b (syncRecBufferOps hw r last b) (syncRecBuffer hw r last b).2.2 := by
  obtain ⟨ops, heq, hrest⟩ := syncRecBuffer_rest hw r last h
  rw [heq]
  exact (getNextSpace_forward h 1000000).append hrest

/-- A space that has been found is in front of the position. -/
theorem syncRecBuffer_found (r : IrRemote) (last : LastRemote) (h : b.Within)
    (hsync : (syncRecBuffer hw r last b).1 ≠ 0) : 0 < (syncRecBuffer hw r last b).2.2.rptr := by
  obtain ⟨ops, -, hrest⟩ := syncRecBuffer_rest hw r last h
  have hfound : (getNextSpace b 1000000).1 ≠ 0 := by
    intro hzero
    rw [syncRecBuffer] at hsync
    generalize getNextSpace b 1000000 = t at hzero hsync
    obtain ⟨deltas, b₁⟩ := t
    dsimp only at hzero hsync
    rw [if_pos hzero] at hsync
    exact hsync rfl
  have hmoves := getNextSpace_moves h hfound
  have hle := hrest.le
  omega

theorem syncRecBuffer_pos (r : IrRemote) (last : LastRemote) (h : b.Placed) :
    0 < (syncRecBuffer hw r last b).2.2.rptr := by
  obtain ⟨ops, -, hrest⟩ := syncRecBuffer_rest hw r last h.1
  have hpos := read_pos h 1000000
  rw [← getNextSpace_snd] at hpos
  exact hpos.trans_le hrest.le

end Sync

/-! ### The parts of a signal -/

section Parts

variable (hw : Hardware) (r : IrRemote) {b : RBuf}

/-- Between the two reads the position is behind a sample, and a second one in front of it
is given back only when it has been read. -/
theorem getHeaderRcmm_safely (h : b.Placed) (hpos : 0 < b.rptr) :
    Safely hw b (getHeaderRcmmOps hw r b) (getHeaderRcmm hw r b).2 := by
  have hpulse := getNextPulse_forward h.1 r.phead
  have hmoves := fun hne => getNextPulse_moves (m := r.phead) h.1 hne
  have hbehind := getNextPulse_snd b r.phead ▸ read_pos h r.phead
  rw [getHeaderRcmmOps, getHeaderRcmm]
  generalize getNextPulse b r.phead = t at hpulse hmoves hbehind ⊢
  obtain ⟨deltap, b₁⟩ := t
  dsimp only at hpulse hmoves hbehind ⊢
  refine (hpulse.safely h).append fun hp => ?_
  by_cases hnone : deltap = 0
  · rw [if_pos hnone, if_pos hnone]
    exact unget_safely hp (.inl rfl) hbehind
  rw [if_neg hnone, if_neg hnone]
  have hspace := getNextSpace_forward hp.1 r.shead
  have htwo : 2 ≤ (getNextSpace b₁ r.shead).2.rptr := by
    have hle := hspace.le
    have hone := hmoves hnone
    omega
  generalize getNextSpace b₁ r.shead = t at hspace htwo ⊢
  obtain ⟨deltas, b₂⟩ := t
  dsimp only at hspace htwo ⊢
  refine (hspace.safely hp).append fun hp => ?_
  split
  · exact unget_safely hp (.inr rfl) htwo
  split
  · exact .nil hp
  · exact unget_safely hp (.inr rfl) htwo

theorem expectPairs_forward (pairs : List (ℤ × ℤ)) (h : b.Within) :
    Forward b (expectPairsOps hw r pairs b) (expectPairs hw r pairs b).2 := by
  induction pairs generalizing b with
  | nil => exact .nil h
  | cons pair pairs ih =>
      obtain ⟨p, s⟩ := pair
      rw [expectPairsOps, expectPairs]
      have hpulse := expectPulse_forward hw r h p
      generalize expectPulse hw r b p = t at hpulse ⊢
      obtain ⟨ok, b₁⟩ := t
      refine Forward.unless Prod.snd hpulse fun _ => ?_
      have hspace := expectSpace_forward hw r hpulse.within s
      dsimp only at hspace ⊢
      generalize expectSpace hw r b₁ s = t at hspace ⊢
      obtain ⟨ok, b₂⟩ := t
      exact Forward.unless Prod.snd hspace fun _ => ih hspace.within

theorem getHeader_safely (h : b.Placed) (hpos : 0 < b.rptr) :
    Safely hw b (getHeaderOps hw r b) (getHeader hw r b).2 := by
  rw [getHeaderOps, getHeader]
  split
  · exact getHeaderRcmm_safely hw r h hpos
  split
  · exact (expectPairs_forward hw r _ h.1).safely h
  split
  · have hsync := syncPendingSpace_forward hw r h.1
    generalize syncPendingSpace hw r b = t at hsync ⊢
    obtain ⟨ok, b₁⟩ := t
    cases ok with
    | false => exact hsync.safely h
    | true => exact (hsync.of_tape rfl).safely h
  have hpulse := expectPulse_forward hw r h.1 r.phead
  have hbehind := expectPulse_pos hw r h r.phead
  generalize expectPulse hw r b r.phead = t at hpulse hbehind ⊢
  obtain ⟨ok, b₁⟩ := t
  dsimp only at hpulse hbehind ⊢
  refine (hpulse.safely h).append fun hp => ?_
  cases ok with
  | false => exact unget_safely hp (.inl rfl) hbehind
  | true =>
      simp only [Bool.not_true, Bool.false_eq_true, if_false]
      split
      · have hspace := getNextSpace_forward hp.1 r.shead
        have hmoves := fun hne => getNextSpace_moves (m := r.shead) hp.1 hne
        generalize getNextSpace b₁ r.shead = t at hspace hmoves ⊢
        obtain ⟨deltas, b₂⟩ := t
        dsimp only at hspace hmoves ⊢
        refine (hspace.safely hp).append fun hp => ?_
        by_cases hfound : deltas ≠ 0
        · rw [if_pos hfound, if_pos hfound]
          split
          · exact .nil hp
          · have hone := hmoves hfound
            exact unget_safely hp (.inr rfl) (by omega)
        · rw [if_neg hfound, if_neg hfound]
          exact (Safely.nil hp).of_tape rfl
      · exact (Safely.nil hp).of_tape rfl

theorem getFoot_forward (h : b.Within) : Forward b (getFootOps hw r b) (getFoot hw r b).2 := by
  rw [getFootOps, getFoot]
  have hspace := expectSpace_forward hw r h r.sfoot
  generalize expectSpace hw r b r.sfoot = t at hspace ⊢
  obtain ⟨ok, b₁⟩ := t
  exact Forward.unless Prod.snd hspace fun _ => expectPulse_forward hw r hspace.within r.pfoot

theorem getLead_forward (h : b.Within) : Forward b (getLeadOps r b) (getLead hw r b).2 := by
  rw [getLeadOps, getLead]
  split
  · exact .nil h
  have hsync := syncPendingSpace_forward hw r h
  generalize syncPendingSpace hw r b = t at hsync ⊢
  obtain ⟨ok, b₁⟩ := t
  cases ok with
  | false => exact hsync
  | true => exact hsync.of_tape rfl

theorem getTrail_forward (h : b.Within) : Forward b (getTrailOps hw r b) (getTrail hw r b).2 := by
  have htrail : Forward b (if r.ptrail ≠ 0 then expectPulseOps hw r b r.ptrail else [])
      (if r.ptrail ≠ 0 then expectPulse hw r b r.ptrail else (true, b)).2 := by
    split
    · exact expectPulse_forward hw r h r.ptrail
    · exact .nil h
  rw [getTrailOps, getTrail]
  generalize (if r.ptrail ≠ 0 then _ else (true, b) : Bool × RBuf) = t at htrail ⊢
  obtain ⟨ok, b₁⟩ := t
  refine Forward.unless Prod.snd htrail fun _ => ?_
  have hsync := syncPendingPulse_forward hw r htrail.within
  dsimp only at hsync ⊢
  by_cases hpending : 0 < b₁.pendingp
  · rw [if_pos hpending]
    exact hsync
  · rw [syncPendingPulse, if_neg hpending] at hsync
    rw [if_neg hpending]
    exact hsync

/-- The sample that is given back is the one that has been read. -/
theorem getGap_safely (gap : ℤ) (h : b.Placed) :
    Safely hw b (getGapOps r b gap) (getGap hw r b gap).2 := by
  rw [getGapOps, getGap]
  dsimp only
  have hread := read_forward h.1 (gap - (gap * r.eps).tdiv 100)
  have hbehind := read_pos h (gap - (gap * r.eps).tdiv 100)
  generalize getNextRecBuffer b (gap - (gap * r.eps).tdiv 100) = t at hread hbehind ⊢
  obtain ⟨w, b₁⟩ := t
  refine Safely.unless (x := (true, b₁)) Prod.snd (hread.safely h) fun _ hp => ?_
  split
  · exact .nil hp
  · exact unget_safely hp (.inl rfl) hbehind

/-- The pulse and the space of a repeat code. -/
theorem repeatPart_forward (h : b.Within) :
    Forward b
      (if isBiphase r then
        let (ok, b') := expectSpace hw r b r.srepeat
        expectSpaceOps hw r b r.srepeat ++ if !ok then [] else expectPulseOps hw r b' r.prepeat
      else expectPulseOps hw r b r.prepeat)
      (if isBiphase r then
        let (ok, b) := expectSpace hw r b r.srepeat
        if !ok then (false, b) else expectPulse hw r b r.prepeat
      else
        let (ok, b) := expectPulse hw r b r.prepeat
        if !ok then (false, b) else (true, { b with pendings := r.srepeat })).2 := by
  split
  · have hspace := expectSpace_forward hw r h r.srepeat
    generalize expectSpace hw r b r.srepeat = t at hspace ⊢
    obtain ⟨ok, b₁⟩ := t
    exact Forward.unless Prod.snd hspace
      fun _ => expectPulse_forward hw r hspace.within r.prepeat
  · have hpulse := expectPulse_forward hw r h r.prepeat
    generalize expectPulse hw r b r.prepeat = t at hpulse ⊢
    obtain ⟨ok, b₁⟩ := t
    cases ok with
    | false => exact hpulse
    | true => exact hpulse.of_tape rfl

theorem getRepeat_safely (h : b.Placed) :
    Safely hw b (getRepeatOps hw r b) (getRepeat hw r b).2 := by
  rw [getRepeatOps, getRepeat]
  have hlead := getLead_forward hw r h.1
  generalize getLead hw r b = t at hlead ⊢
  obtain ⟨ok, b₁⟩ := t
  refine Safely.unless Prod.snd (hlead.safely h) fun _ hp => ?_
  have hpart := repeatPart_forward hw r hp.1
  dsimp only at hp hpart ⊢
  generalize (if isBiphase r = true then _ else _ : Bool × RBuf) = t at hpart ⊢
  obtain ⟨ok, b₂⟩ := t
  refine Safely.unless Prod.snd (hpart.safely hp) fun _ hp => ?_
  have htrail := getTrail_forward hw r hp.1
  dsimp only at htrail ⊢
  generalize getTrail hw r b₂ = t at htrail ⊢
  obtain ⟨ok, b₃⟩ := t
  exact Safely.unless Prod.snd (htrail.safely hp) fun _ hp => getGap_safely hw r _ hp

end Parts

/-! ### Data -/

section Data

variable (hw : Hardware) (r : IrRemote) {b : RBuf}

theorem pulseSpace_forward (h : b.Within) (p s : ℤ) :
    Forward b (readOps p ++ readOps s) (getNextSpace (getNextPulse b p).2 s).2 :=
  have hpulse := getNextPulse_forward h p
  hpulse.append (getNextSpace_forward hpulse.within s)

theorem getRcmmLoop_forward (n : ℕ) (code : IrCode) (h : b.Within) :
    Forward b (getRcmmLoopOps hw r n b) (getRcmmLoop hw r n code b).2 := by
  induction n generalizing code b with
  | zero => exact .nil h
  | succ n ih =>
      rw [getRcmmLoopOps, getRcmmLoop]
      have hread := pulseSpace_forward h (maxSymbolPulse r) (maxSymbolSpace r)
      generalize getNextPulse b (maxSymbolPulse r) = t at hread ⊢
      obtain ⟨deltap, b₁⟩ := t
      dsimp only at hread ⊢
      generalize getNextSpace b₁ (maxSymbolSpace r) = t at hread ⊢
      obtain ⟨deltas, b₂⟩ := t
      refine Forward.unless (x := (noCode, b₂)) Prod.snd hread fun _ => ?_
      dsimp only
      cases matchSymbol hw r (deltap + deltas) with
      | none => exact .nil hread.within
      | some s => exact ih _ hread.within

theorem getGrundigLoop_forward (bits n i : ℕ) (laststate : Option ℕ) (code : IrCode)
    (h : b.Within) :
    Forward b (getGrundigLoopOps hw r bits n i laststate b)
      (getGrundigLoop hw r bits n i laststate code b).2 := by
  induction n generalizing i laststate code b with
  | zero => exact .nil h
  | succ n ih =>
      rw [getGrundigLoopOps, getGrundigLoop]
      by_cases hi : i < bits
      · rw [if_pos hi, if_pos hi]
        have hspace := getNextSpace_forward h (maxSymbolSpace r)
        generalize getNextSpace b (maxSymbolSpace r) = t at hspace ⊢
        obtain ⟨deltas, b₁⟩ := t
        have hpulse := getNextPulse_forward hspace.within (maxSymbolPulse r)
        dsimp only at hspace hpulse ⊢
        generalize getNextPulse b₁ (maxSymbolPulse r) = t at hpulse ⊢
        obtain ⟨deltap, b₂⟩ := t
        refine Forward.unless (x := (noCode, b₂)) Prod.snd (hspace.append hpulse) fun _ => ?_
        dsimp only
        cases matchSymbol hw r (deltas + deltap) with
        | none => exact .nil hpulse.within
        | some state =>
            dsimp only
            cases grundigBits laststate state with
            | some two => exact ih _ _ _ hpulse.within
            | none =>
                dsimp only
                split
                · exact ih _ _ _ hpulse.within
                · exact .nil hpulse.within
      · rw [if_neg hi, if_neg hi]
        exact .nil h

theorem getBoLoop_forward (n : ℕ) (lastbit : Bool) (code : IrCode) (h : b.Within) :
    Forward b (getBoLoopOps hw r n lastbit b) (getBoLoop hw r n lastbit code b).2 := by
  induction n generalizing lastbit code b with
  | zero => exact .nil h
  | succ n ih =>
      rw [getBoLoopOps, getBoLoop]
      have hread := pulseSpace_forward h (maxSymbolPulse r) (maxSymbolSpace r)
      generalize getNextPulse b (maxSymbolPulse r) = t at hread ⊢
      obtain ⟨deltap, b₁⟩ := t
      dsimp only at hread ⊢
      generalize getNextSpace b₁ (maxSymbolSpace r) = t at hread ⊢
      obtain ⟨deltas, b₂⟩ := t
      refine Forward.unless (x := (noCode, b₂)) Prod.snd hread fun _ => ?_
      generalize (if lastbit = true then _ else _ : ℤ × ℤ × ℤ × ℤ) = t
      obtain ⟨pzero, szero, pone, sone⟩ := t
      dsimp only
      split
      · exact ih _ _ hread.within
      split
      · exact ih _ _ hread.within
      · exact .nil hread.within

theorem getXmpLoop_forward (n : ℕ) (code : IrCode) (h : b.Within) :
    Forward b (getXmpLoopOps r n b) (getXmpLoop r n code b).2 := by
  induction n generalizing code b with
  | zero => exact .nil h
  | succ n ih =>
      rw [getXmpLoopOps, getXmpLoop]
      have hread := pulseSpace_forward h r.pzero (r.szero + 16 * r.sone)
      generalize getNextPulse b r.pzero = t at hread ⊢
      obtain ⟨deltap, b₁⟩ := t
      dsimp only at hread ⊢
      generalize getNextSpace b₁ (r.szero + 16 * r.sone) = t at hread ⊢
      obtain ⟨deltas, b₂⟩ := t
      refine Forward.unless (x := (noCode, b₂)) Prod.snd hread fun _ => ?_
      dsimp only
      split
      · exact .nil hread.within
      · exact ih _ hread.within

theorem getBitLoop_safely (n bit : ℕ) (code : IrCode) (h : b.Placed) :
    Safely hw b (getBitLoopOps hw n bit r b) (getBitLoop hw n bit code r b).2.2 := by
  induction n generalizing bit code r b with
  | zero => exact .nil h
  | succ n ih =>
      rw [getBitLoopOps]
      rw [getBitLoop]
      have hone := expectOne_safely hw (goldstarTimings r bit) bit h
      generalize expectOne hw (goldstarTimings r bit) bit b = t at hone ⊢
      obtain ⟨found, b₁⟩ := t
      refine hone.append fun hp => ?_
      cases found with
      | true => exact ih _ _ _ hp
      | false =>
          have hzero := expectZero_safely hw (goldstarTimings r bit) bit hp
          dsimp only at hzero ⊢
          generalize expectZero hw (goldstarTimings r bit) bit b₁ = t at hzero ⊢
          obtain ⟨found, b₂⟩ := t
          refine hzero.append fun hp => ?_
          cases found with
          | true => exact ih _ _ _ hp
          | false => exact .nil hp

/-- What is left of a pulse or a space, and what may be written back. -/
def SerialState.Behind (s : SerialState) (b : RBuf) : Prop :=
  s.delta ≠ 0 ∨ s.gapDelta ≠ 0 → 0 < b.rptr

theorem tape_either {α : Type*} {c : Prop} [Decidable c] {x y : α × RBuf}
    {t : List ℕ × List ℕ × ℕ × ℤ} (hx : x.2.tape = t) (hy : y.2.tape = t) :
    (if c then x else y).2.tape = t := by
  split
  · exact hx
  · exact hy

theorem serialSample_snd (bits parityBit : ℕ) (maxSpace maxPulse : ℤ) (s : SerialState)
    (b : RBuf) :
    (if s.delta = 0 then
        let (delta, b) := if s.space then getNextSpace b maxSpace else getNextPulse b maxPulse
        let delta :=
          if delta = 0 ∧ s.space ∧ bits ≤ s.received + r.bitsInByte + parityBit then maxSpace
          else delta
        ({ s with delta := delta, origdelta := delta }, b)
      else (s, b)).2 =
      if s.delta = 0 then (if s.space then getNextSpace b maxSpace else getNextPulse b maxPulse).2
      else b := by
  split <;> rfl

theorem serialRound_tape (bits parityBit : ℕ) (base stop maxSpace maxPulse : ℤ)
    (s : SerialState) (b : RBuf) :
    (serialRound hw r bits parityBit base stop maxSpace maxPulse s b).2.tape =
      (if s.delta = 0 then (getNextRecBuffer b (if s.space then maxSpace else maxPulse)).2
        else b).tape := by
  have hread : (if s.space then getNextSpace b maxSpace else getNextPulse b maxPulse).2 =
      (getNextRecBuffer b (if s.space then maxSpace else maxPulse)).2 := by
    split
    · exact getNextSpace_snd b maxSpace
    · exact getNextPulse_snd b maxPulse
  rw [← hread, ← serialSample_snd r bits parityBit, serialRound]
  generalize (if s.delta = 0 then _ else (s, b) : SerialState × RBuf) = t
  obtain ⟨s, b⟩ := t
  -- what is pending may change, the position does not
  refine tape_either rfl (tape_either rfl (tape_either (tape_either rfl rfl)
    (tape_either (tape_either ?_ rfl) (tape_either rfl rfl))))
  exact tape_either rfl (tape_either rfl rfl)

/-- A round reads a sample if none is left, so there is one behind the position after it. -/
theorem serialRound_forward (bits parityBit : ℕ) (base stop maxSpace maxPulse : ℤ)
    (s : SerialState) (h : b.Within) :
    Forward b (if s.delta = 0 then readOps (if s.space then maxSpace else maxPulse) else [])
      (serialRound hw r bits parityBit base stop maxSpace maxPulse s b).2 := by
  have htape := serialRound_tape hw r bits parityBit base stop maxSpace maxPulse s b
  split at htape
  · next hdelta =>
      rw [if_pos hdelta]
      exact (read_forward h _).of_tape htape
  · next hdelta =>
      rw [if_neg hdelta]
      exact (Forward.nil h).of_tape htape

theorem serialRound_pos (bits parityBit : ℕ) (base stop maxSpace maxPulse : ℤ)
    {s : SerialState} (h : b.Placed) (hs : s.Behind b) :
    0 < (serialRound hw r bits parityBit base stop maxSpace maxPulse s b).2.rptr := by
  have hrptr := congrArg (fun t => t.2.2.1)
    (serialRound_tape hw r bits parityBit base stop maxSpace maxPulse s b)
  split at hrptr
  · exact (read_pos h _).trans_eq hrptr.symm
  · next hdelta => exact (hs (.inl hdelta)).trans_eq hrptr.symm

theorem ungetDelta_safely (h : b.Placed) (hpos : 0 < b.rptr) (delta : ℤ) :
    Safely hw b [.ungetDelta delta] (ungetRecBufferDelta b delta) := by
  have hlength : (ungetRecBufferDelta b delta).data.length = b.data.length := List.length_set ..
  have hperforms := ungetRecBufferDelta_performs h.1 hpos delta
  refine ⟨hperforms.traces (List.forall_mem_singleton.mpr trivial), ⟨?_, hlength ▸ h.1.2⟩,
    hlength ▸ h.2⟩
  exact hlength ▸ (Nat.sub_le b.rptr 1).trans h.1.1

theorem getSerialLoop_safely (bits parityBit : ℕ) (base stop maxSpace maxPulse : ℤ) (n : ℕ)
    {s : SerialState} (h : b.Placed) (hs : s.Behind b) :
    Safely hw b (getSerialLoopOps hw r bits parityBit base stop maxSpace maxPulse n s b)
      (getSerialLoop hw r bits parityBit base stop maxSpace maxPulse n s b).2 := by
  induction n generalizing s b with
  | zero => exact .nil h
  | succ n ih =>
      rw [getSerialLoopOps, getSerialLoop]
      by_cases hmore : s.received < bits ∨ s.stopBit = true
      · rw [if_pos hmore, if_pos hmore]
        have hround :=
          serialRound_forward hw r bits parityBit base stop maxSpace maxPulse s h.1
        have hpos := serialRound_pos hw r bits parityBit base stop maxSpace maxPulse h hs
        generalize serialRound hw r bits parityBit base stop maxSpace maxPulse s b = t
          at hround hpos ⊢
        obtain ⟨next, b₁⟩ := t
        refine (hround.safely h).append fun hp => ?_
        cases next with
        | none => exact .nil hp
        | some s => exact ih hp fun _ => hpos
      · rw [if_neg hmore, if_neg hmore]
        split
        · next hgap =>
            have hdelta := ungetDelta_safely hw h (hs (.inr hgap)) s.gapDelta
            exact hdelta.of_tape rfl
        · exact (Safely.nil h).of_tape rfl

theorem getSerial_safely (bits : ℕ) (h : b.Placed) :
    Safely hw b (getSerialOps hw r bits b) (getSerial hw r bits b).2 := by
  rw [getSerialOps, getSerial]
  have hb : RBuf.Placed { b with pendingp := ((1000000 / r.baud : ℕ) : ℤ) } := h
  have hloop := fun bits parityBit stop maxSpace maxPulse n space =>
    getSerialLoop_safely hw r bits parityBit (1000000 / r.baud : ℕ) stop maxSpace maxPulse n
      (s := ⟨0, space, false, false, 0, 0, 0, 0⟩) hb fun hleft => by simp at hleft
  exact hloop _ _ _ _ _ _ _

/-- Data of any protocol. -/
theorem getData_safely (bits done : ℕ) (h : b.Placed) :
    Safely hw b (getDataOps hw r bits done b) (getData hw r bits done b).2.2 := by
  rw [getDataOps]
  rw [getData]
  split
  · split
    · exact .nil h
    have hsync := syncPendingSpace_forward hw r h.1
    generalize syncPendingSpace hw r b = t at hsync ⊢
    obtain ⟨ok, b₁⟩ := t
    exact Safely.unless (x := (0, r, b₁)) (fun t => t.2.2) (hsync.safely h)
      fun _ hp => (getRcmmLoop_forward hw r (bits / 2) 0 hp.1).safely hp
  split
  · split
    · exact .nil h
    have hsync := syncPendingPulse_forward hw r h.1
    generalize syncPendingPulse hw r b = t at hsync ⊢
    obtain ⟨ok, b₁⟩ := t
    exact Safely.unless (x := (noCode, r, b₁)) (fun t => t.2.2) (hsync.safely h)
      fun _ hp => (getGrundigLoop_forward hw r bits bits 0 none 0 hp.1).safely hp
  split
  · exact getSerial_safely hw r bits h
  split
  · exact (getBoLoop_forward hw r bits true 0 h.1).safely h
  split
  · split
    · exact .nil h
    have hsync := syncPendingSpace_forward hw r h.1
    generalize syncPendingSpace hw r b = t at hsync ⊢
    obtain ⟨ok, b₁⟩ := t
    exact Safely.unless (x := (0, r, b₁)) (fun t => t.2.2) (hsync.safely h)
      fun _ hp => (getXmpLoop_forward r (bits / 4) 0 hp.1).safely hp
  · next hrcmm hgrundig hserial hbo hxmp =>
      exact getBitLoop_safely hw r bits done 0 h

theorem getPre_safely (h : b.Placed) :
    Safely hw b (getPreOps hw r b) (getPre hw r b).2.2 := by
  rw [getPreOps]
  rw [getPre]
  have hdata := getData_safely hw r r.preDataBits 0 h
  generalize getData hw r r.preDataBits 0 b = t at hdata ⊢
  obtain ⟨pre, r₁, b₁⟩ := t
  refine Safely.unless (x := (noCode, r₁, b₁)) (fun t => t.2.2) hdata fun _ hp => ?_
  dsimp only at hp ⊢
  split
  · have hpulse := expectPulse_forward hw r₁ hp.1 r₁.preP
    generalize expectPulse hw r₁ b₁ r₁.preP = t at hpulse ⊢
    obtain ⟨ok, b₂⟩ := t
    cases ok with
    | false => exact hpulse.safely hp
    | true => exact (hpulse.of_tape rfl).safely hp
  · exact .nil hp

theorem getPost_safely (h : b.Placed) :
    Safely hw b (getPostOps hw r b) (getPost hw r b).2.2 := by
  rw [getPostOps]
  rw [getPost]
  by_cases hmark : 0 < r.postP ∧ 0 < r.postS
  · rw [if_pos hmark]
    rw [if_pos hmark]
    have hpulse := expectPulse_forward hw r h.1 r.postP
    generalize expectPulse hw r b r.postP = t at hpulse ⊢
    obtain ⟨ok, b₁⟩ := t
    cases ok with
    | false => exact (hpulse.append (.nil hpulse.within)).safely h
    | true =>
        refine (hpulse.safely h).append fun hp => ?_
        have hp : RBuf.Placed { b₁ with pendings := r.postS } := hp
        exact getData_safely hw r r.postDataBits _ hp
  · rw [if_neg hmark]
    rw [if_neg hmark]
    exact getData_safely hw r r.postDataBits _ h

end Data

/-! ### `receive_decode` -/

section Decode

variable (hw : Hardware) (r : IrRemote) (last : LastRemote) {b : RBuf}

theorem rewind_traces (b : RBuf) : Traces hw b [.rewind] (rewindRecBuffer b) :=
  have hperforms : Performs b [.rewind] (rewindRecBuffer b) :=
    .quiet (fun _ => rfl) fun _ ⟨hdata, hinput, _, _⟩ => ⟨hdata, hinput, rfl, rfl⟩
  hperforms.traces (List.forall_mem_singleton.mpr trivial)

theorem rewind_within (h : b.Within) : (rewindRecBuffer b).Within := ⟨Nat.zero_le _, h.2⟩

theorem rewind_safely (h : b.Placed) : Safely hw b [.rewind] (rewindRecBuffer b) :=
  ⟨rewind_traces hw b, rewind_within h.1, h.2⟩

/-- What follows the attempt at a repeat code starts behind a sample again. -/
theorem decodeRepeat_safely (h : b.Placed) (hpos : 0 < b.rptr) :
    Safely hw b (decodeRepeatOps hw r last b)
        ((decodeRepeat hw r last b).elim (fun t => t.2.2) (fun t => t.2)) ∧
      ∀ next, decodeRepeat hw r last b = .inr next → 0 < next.2.rptr := by
  have hheader :
      Safely hw b (if r.has repeatHeader && hasHeader r then getHeaderOps hw r b else [])
        (if r.has repeatHeader && hasHeader r then getHeader hw r b else (true, b)).2 := by
    split
    · exact getHeader_safely hw r h hpos
    · exact .nil h
  rw [decodeRepeatOps, decodeRepeat]
  dsimp only
  generalize (if (r.has repeatHeader && hasHeader r) = true then getHeader hw r b else (true, b)) =
    t at hheader ⊢
  obtain ⟨ok, b₁⟩ := t
  cases ok with
  | false =>
      refine ⟨hheader.append .nil, fun next hnext => ?_⟩
      rw [if_pos Bool.not_false] at hnext
      cases hnext
  | true =>
      have hrepeat := getRepeat_safely hw r hheader.2
      simp only [Bool.not_true, Bool.false_eq_true, if_false] at hrepeat ⊢
      generalize getRepeat hw r b₁ = t at hrepeat ⊢
      obtain ⟨ok, b₂⟩ := t
      cases ok with
      | true =>
          refine ⟨hheader.append fun _ => hrepeat.append fun hp => ?_, ?_⟩
          · cases r.lastCode with
            | none => exact .nil hp
            | some i => exact .nil hp
          · intro next hnext
            rw [if_pos rfl] at hnext
            cases hcode : r.lastCode with
            | none =>
                rw [hcode] at hnext
                cases hnext
            | some i =>
                rw [hcode] at hnext
                cases hnext
      | false =>
          have hrewind := rewind_safely hw hrepeat.2
          have hsync := syncRecBuffer_forward hw r last hrewind.2.1
          have hfront := syncRecBuffer_pos hw r last hrewind.2
          refine ⟨hheader.append fun _ => hrepeat.append fun _ => ?_, ?_⟩
          · exact hrewind.append fun hp => hsync.safely hp
          · rintro _ ⟨⟩
            exact hfront

theorem decodeHeader_safely (sync : ℤ) (h : b.Placed) (hpos : 0 < b.rptr) :
    Safely hw b (decodeHeaderOps hw r b) (decodeHeader hw r sync b).2 := by
  rw [decodeHeaderOps, decodeHeader]
  split
  · have hheader := getHeader_safely hw r h hpos
    generalize getHeader hw r b = t at hheader ⊢
    obtain ⟨ok, b₁⟩ := t
    dsimp only
    split
    · exact hheader
    split
    · exact hheader
    · exact hheader
  · exact .nil h

theorem matchSignals_forward (signals : List ℤ) {b : RBuf} (h : b.Within) :
    Forward b (matchSignalsOps hw r signals b) (matchSignals hw r signals b).2 := by
  match signals with
  | [] => exact .nil h
  | [p] => exact expectPulse_forward hw r h p
  | p :: s :: rest =>
      rw [matchSignalsOps, matchSignals]
      have hpulse := expectPulse_forward hw r h p
      generalize expectPulse hw r b p = t at hpulse ⊢
      obtain ⟨ok, b₁⟩ := t
      refine Forward.unless Prod.snd hpulse fun _ => ?_
      have hspace := expectSpace_forward hw r hpulse.within s
      dsimp only at hspace ⊢
      generalize expectSpace hw r b₁ s = t at hspace ⊢
      obtain ⟨ok, b₂⟩ := t
      exact Forward.unless Prod.snd hspace fun _ => matchSignals_forward rest hspace.within

theorem decodeRaw_safely (codes : List IrNcode) (h : b.Placed) :
    Safely hw b (decodeRawOps hw last codes r b) (decodeRaw hw last codes r b).2.2 := by
  induction codes generalizing r b with
  | nil => exact .nil h
  | cons c codes ih =>
      rw [decodeRawOps, decodeRaw]
      have hsignals : Safely hw b _ _ :=
        (matchSignals_forward hw r (c.signals.getD []) h.1).safely h
      generalize matchSignals hw r (c.signals.getD []) b = t at hsignals ⊢
      obtain ⟨ok, b₁⟩ := t
      refine hsignals.append fun hp => ?_
      cases ok with
      | false =>
          have hrewind := rewind_safely hw hp
          have hsync := syncRecBuffer_forward hw r last hrewind.2.1
          have hagain := hrewind.append fun hp => hsync.safely hp
          simp only [Bool.not_false, if_true]
          generalize syncRecBuffer hw r last (rewindRecBuffer b₁) = t at hagain ⊢
          obtain ⟨sync, r₁, b₂⟩ := t
          exact hagain.append fun hp => ih r₁ hp
      | true =>
          have hgap := getGap_safely hw r (if isConst r then minGap r - b₁.sum else minGap r) hp
          simp only [Bool.not_true, Bool.false_eq_true, if_false] at hgap ⊢
          generalize getGap hw r b₁ (if isConst r then minGap r - b₁.sum else minGap r) = t
            at hgap ⊢
          obtain ⟨ok, b₂⟩ := t
          exact Safely.unless (x := (some c.code, r, b₂)) (fun t => t.2.2) hgap
            fun _ hp => ih r hp

/-- Less the header, only `sum` is another one. -/
theorem lessHeader_forward (less : Bool) (length : ℤ) (h : b.Within) :
    Forward b (if less then [.lessHeader length] else [])
      (if less then { b with sum := b.sum - length } else b) := by
  split
  · exact ⟨.quiet (fun _ => rfl) fun _ ⟨hdata, hinput, hrptr, hsum⟩ =>
      ⟨hdata, hinput, hrptr, hsum ▸ rfl⟩, h, le_rfl, le_rfl,
      fun _ => List.forall_mem_singleton.mpr trivial⟩
  · exact .nil h

theorem closing_safely (header : Bool) (pre code post : IrCode) (h : b.Placed) :
    Safely hw b (closingOps hw r header b)
      (let (ok, b) := getTrail hw r b
        if !ok then (none, r, b)
        else
          let (ok, b) := if hasFoot r then getFoot hw r b else (true, b)
          if !ok then (none, r, b)
          else
            let b :=
              if header && isConst r && r.has noHeadRep then
                { b with sum := b.sum - (r.phead + r.shead) }
              else b
            let (ok, b) :=
              getGap hw r b
                (if isRcmm r then 1000 else if isConst r then constGap r b else minGap r)
            if ok then (some (pre, code, post), r, b) else (none, r, b) :
          Option (IrCode × IrCode × IrCode) × IrRemote × RBuf).2.2 := by
  rw [closingOps]
  have htrail := getTrail_forward hw r h.1
  generalize getTrail hw r b = t at htrail ⊢
  obtain ⟨ok, b₁⟩ := t
  refine Safely.unless (x := (none, r, b₁)) (fun t => t.2.2) (htrail.safely h) fun _ hp => ?_
  have hfoot : Forward b₁ (if hasFoot r then getFootOps hw r b₁ else [])
      (if hasFoot r then getFoot hw r b₁ else (true, b₁)).2 := by
    split
    · exact getFoot_forward hw r hp.1
    · exact .nil hp.1
  dsimp only at hp hfoot ⊢
  generalize (if hasFoot r = true then getFoot hw r b₁ else (true, b₁)) = t at hfoot ⊢
  obtain ⟨ok, b₂⟩ := t
  refine Safely.unless (x := (none, r, b₂)) (fun t => t.2.2) (hfoot.safely hp) fun _ hp => ?_
  have hless := lessHeader_forward (header && isConst r && r.has noHeadRep) (r.phead + r.shead) hp.1
  dsimp only at hp hless ⊢
  generalize (if (header && isConst r && r.has noHeadRep) = true then
    { b₂ with sum := b₂.sum - (r.phead + r.shead) } else b₂) = b₃ at hless ⊢
  refine (hless.safely hp).append fun hp => ?_
  have hgap := getGap_safely hw r
    (if isRcmm r then 1000 else if isConst r then constGap r b₃ else minGap r) hp
  generalize getGap hw r b₃ _ = t at hgap ⊢
  obtain ⟨ok, b₄⟩ := t
  cases ok with
  | false => exact hgap
  | true => exact hgap

theorem decodeBits_safely (header : Bool) (h : b.Placed) :
    Safely hw b (decodeBitsOps hw r header b) (decodeBits hw r header b).2.2 := by
  rw [decodeBitsOps]
  rw [decodeBits]
  have hlead := getLead_forward hw r h.1
  generalize getLead hw r b = t at hlead ⊢
  obtain ⟨ok, b₁⟩ := t
  refine Safely.unless (x := (none, r, b₁)) (fun t => t.2.2) (hlead.safely h) fun hok hp => ?_
  have hpre : Safely hw b₁ (if hasPre r then getPreOps hw r b₁ else [])
      (if hasPre r then getPre hw r b₁ else (0, r, b₁)).2.2 := by
    split
    · next hhas =>
        exact getPre_safely hw r hp
    · exact .nil hp
  dsimp only at hp ⊢
  generalize (if hasPre r = true then getPre hw r b₁ else (0, r, b₁)) = t at hpre ⊢
  obtain ⟨pre, r₁, b₂⟩ := t
  refine Safely.unless (x := (none, r₁, b₂)) (fun t => t.2.2) hpre fun hok hp => ?_
  have hdata := getData_safely hw r₁ r₁.bits r₁.preDataBits hp
  dsimp only at hdata ⊢
  generalize getData hw r₁ r₁.bits r₁.preDataBits b₂ = t at hdata ⊢
  obtain ⟨code, r₂, b₃⟩ := t
  refine Safely.unless (x := (none, r₂, b₃)) (fun t => t.2.2) hdata fun hok hp => ?_
  have hpost : Safely hw b₃ (if hasPost r₂ then getPostOps hw r₂ b₃ else [])
      (if hasPost r₂ then getPost hw r₂ b₃ else (0, r₂, b₃)).2.2 := by
    split
    · next hhas =>
        exact getPost_safely hw r₂ hp
    · exact .nil hp
  dsimp only at hpost ⊢
  generalize (if hasPost r₂ = true then getPost hw r₂ b₃ else (0, r₂, b₃)) = t at hpost ⊢
  obtain ⟨post, r₃, b₄⟩ := t
  refine Safely.unless (x := (none, r₃, b₄)) (fun t => t.2.2) hpost fun _ hp => ?_
  exact closing_safely hw r₃ header pre code post hp

end Decode

end Lirc
