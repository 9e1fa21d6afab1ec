import Lirc.Frames

/-!
What a transmission inherits from earlier ones. `clear_send_buffer` resets
the counters but neither the array nor the `data` pointer of the buffer.
The array does no harm, since only samples that have been written again are
read; two runs are compared here to show it. The pointer does: a repeat
frame leaves it as it is, so after a raw code the driver reads the signals
of that code in place of the repeat frame.

`q` and `n` describe the second of the two runs: it may have other samples
`q i` in the first `n` places, which is what copying stale signals into the
array leaves behind.
-/

namespace Lirc

/-- The states of the send buffer between two calls. -/
inductive History : SBuf → Prop
  | start : History initSendBuffer
  | send {r : IrRemote} {code : IrNcode} {repeating : Bool} {b : SBuf} {fuel : ℕ} {out : SendOut}
      (h : History b) (hrun : initSend r code repeating b fuel = some out) : History out.buf
  | sim {r : IrRemote} {code : IrNcode} {preset : Bool} {b : SBuf} {out : SendOut}
      (h : History b) (hrun : initSim r code preset b = some out) : History out.buf

/-! ### Two runs over different arrays -/

/-- `b'` is `b` over another array, which holds `q i` instead in the first
`n` places. -/
structure SBuf.Alike (n : ℕ) (q : ℕ → ℤ) (b b' : SBuf) : Prop where
  wptr : b'.wptr = b.wptr
  tooLong : b'.tooLong = b.tooLong
  isBiphase : b'.isBiphase = b.isBiphase
  pendingp : b'.pendingp = b.pendingp
  pendings : b'.pendings = b.pendings
  sum : b'.sum = b.sum
  arr : ∀ i (h : i < wbufSize), i < b.wptr → b'.arr[i] = if i < n then q i else b.arr[i]

namespace SBuf.Alike

variable {n : ℕ} {q : ℕ → ℤ} {b b' : SBuf}

theorem setPendingp (h : b.Alike n q b') (x : ℤ) :
    ({ b with pendingp := x } : SBuf).Alike n q { b' with pendingp := x } :=
  ⟨h.wptr, h.tooLong, h.isBiphase, rfl, h.pendings, h.sum, h.arr⟩

theorem setPendings (h : b.Alike n q b') (x : ℤ) :
    ({ b with pendings := x } : SBuf).Alike n q { b' with pendings := x } :=
  ⟨h.wptr, h.tooLong, h.isBiphase, h.pendingp, rfl, h.sum, h.arr⟩

theorem adjusted (h : b.Alike n q b') (k : ℤ) (d d' : DataPtr) :
    (b.adjusted k d).Alike n q (b'.adjusted k d') :=
  ⟨h.wptr, h.tooLong, h.isBiphase, h.pendingp, h.pendings, by simp [h.sum], h.arr⟩

/-- Only the array and the pointer differ. -/
theorem aligned (h : b.Alike n q b') : ∃ a d, b' = { b with arr := a, data := d } := by
  refine ⟨b'.arr, b'.data, ?_⟩
  obtain ⟨hw, hl, hb, hp, hs, hsum, -⟩ := h
  cases b'
  simp_all

/-- New samples are the same in both runs, as they come after the first `n`. -/
theorem addSendBuffer (h : b.Alike n q b') (hn : n ≤ b.wptr) (x : ℤ) :
    (addSendBuffer b x).Alike n q (addSendBuffer b' x) := by
  have hw := h.wptr
  unfold Lirc.addSendBuffer
  by_cases hlt : b.wptr < wbufSize
  · have hlt' : b'.wptr < wbufSize := by omega
    rw [dif_pos hlt, dif_pos hlt']
    refine ⟨by simp [hw], h.tooLong, h.isBiphase, h.pendingp, h.pendings, by simp [h.sum], ?_⟩
    intro i hi hiw
    have hiw' : i < b.wptr + 1 := hiw
    simp only [Vector.getElem_set, hw]
    by_cases hib : b.wptr = i
    · have hni : ¬i < n := by omega
      simp [hib, hni]
    · simp only [hib, if_false]
      exact h.arr i hi (by omega)
  · have hlt' : ¬b'.wptr < wbufSize := by omega
    rw [dif_neg hlt, dif_neg hlt']
    exact ⟨hw, rfl, h.isBiphase, h.pendingp, h.pendings, h.sum, h.arr⟩

/-- Both runs add the open sample, or neither does. -/
theorem closePulse (h : b.Alike n q b') (hn : n ≤ b.wptr) :
    (closePulse b).Alike n q (closePulse b') := by
  obtain ⟨a, d, rfl⟩ := h.aligned
  unfold Lirc.closePulse
  dsimp only
  split
  · exact (h.addSendBuffer hn _).setPendingp 0
  · exact h

end SBuf.Alike

theorem le_addSendBuffer_wptr (b : SBuf) (x : ℤ) : b.wptr ≤ (addSendBuffer b x).wptr := by
  unfold addSendBuffer
  split
  · exact Nat.le_succ _
  · exact Nat.le_refl _

theorem le_sendSignals_wptr (b : SBuf) (xs : List ℤ) : b.wptr ≤ (sendSignals b xs).wptr := by
  induction xs generalizing b with
  | nil => exact Nat.le_refl _
  | cons x xs ih => exact (le_addSendBuffer_wptr b x).trans (ih (addSendBuffer b x))

theorem sendSignals_data (b : SBuf) (xs : List ℤ) : (sendSignals b xs).data = b.data := by
  induction xs generalizing b with
  | nil => rfl
  | cons x xs ih => exact (ih (addSendBuffer b x)).trans (addSendBuffer_data b x)

theorem le_closePulse_wptr (b : SBuf) : b.wptr ≤ (closePulse b).wptr := by
  unfold closePulse
  split
  · exact le_addSendBuffer_wptr b _
  · exact Nat.le_refl _

/-- Opening a part writes at most the sample it closes. -/
theorem le_sendPart_wptr (b : SBuf) (p : Signal.Part) : b.wptr ≤ (sendPart b p).wptr := by
  unfold sendPart
  split
  · unfold sendPulse
    split
    · exact Nat.le_refl _
    · dsimp only
      split
      · exact le_addSendBuffer_wptr b _
      · exact Nat.le_refl _
  · unfold sendSpace
    split
    · exact Nat.le_refl _
    · split
      · exact Nat.le_refl _
      · dsimp only
        split
        · exact le_addSendBuffer_wptr b _
        · exact Nat.le_refl _

theorem le_sendParts_wptr (b : SBuf) (ps : List Signal.Part) : b.wptr ≤ (sendParts b ps).wptr := by
  induction ps generalizing b with
  | nil => exact Nat.le_refl _
  | cons p ps ih => exact (le_sendPart_wptr b p).trans (ih (sendPart b p))

namespace SBuf.Alike

variable {n : ℕ} {q : ℕ → ℤ} {b b' : SBuf}

theorem sendPart (h : b.Alike n q b') (hn : n ≤ b.wptr) (p : Signal.Part) :
    (sendPart b p).Alike n q (sendPart b' p) := by
  obtain ⟨a, d, rfl⟩ := h.aligned
  unfold Lirc.sendPart
  split
  · unfold sendPulse
    dsimp only
    split
    · exact h.setPendingp _
    · split
      · exact ((h.addSendBuffer hn _).setPendings 0).setPendingp _
      · exact h.setPendingp _
  · unfold sendSpace
    dsimp only
    split
    · exact h
    · split
      · exact h.setPendings _
      · split
        · exact ((h.addSendBuffer hn _).setPendingp 0).setPendings _
        · exact h.setPendings _

theorem sendParts (h : b.Alike n q b') (hn : n ≤ b.wptr) (ps : List Signal.Part) :
    (sendParts b ps).Alike n q (sendParts b' ps) := by
  induction ps generalizing b b' with
  | nil => exact h
  | cons p ps ih => exact ih (h.sendPart hn p) (hn.trans (le_sendPart_wptr b p))

theorem sendSignals (h : b.Alike n q b') (hn : n ≤ b.wptr) (xs : List ℤ) :
    (sendSignals b xs).Alike n q (sendSignals b' xs) := by
  induction xs generalizing b b' with
  | nil => exact h
  | cons x xs ih => exact ih (h.addSendBuffer hn x) (hn.trans (le_addSendBuffer_wptr b x))

/-- A trailing space is dropped in both runs; with an odd `n` it does not
belong to the first `n` samples. -/
theorem dropSpace (h : b.Alike n q b') (hn : n ≤ b.wptr) (hodd : n = 0 ∨ n % 2 = 1) :
    (dropSpace b).Alike n q (dropSpace b') ∧ n ≤ (Lirc.dropSpace b).wptr := by
  obtain ⟨a, d, rfl⟩ := h.aligned
  unfold Lirc.dropSpace
  dsimp only
  split
  · next hw =>
      refine ⟨⟨rfl, rfl, rfl, rfl, rfl, rfl, fun i hi hiw => ?_⟩, ?_⟩
      · have hiw' : i < b.wptr - 1 := hiw
        exact h.arr i hi (by omega)
      · show n ≤ b.wptr - 1
        omega
  · exact ⟨h, hn⟩

theorem syncSendBuffer (h : b.Alike n q b') (hn : n ≤ b.wptr) (hodd : n = 0 ∨ n % 2 = 1) :
    (syncSendBuffer b).Alike n q (syncSendBuffer b') ∧ n ≤ (Lirc.syncSendBuffer b).wptr :=
  (h.closePulse hn).dropSpace (hn.trans (le_closePulse_wptr b)) hodd

/-- The gap after a frame; the sums before it no longer matter. -/
theorem addGap (h : b.Alike n q b') (hn : n ≤ b.wptr) (g : ℤ) :
    (addGap b g).Alike n q (addGap b' g) ∧ n ≤ (Lirc.addGap b g).wptr := by
  have hspace := (h.sendPart hn (Signal.space g)).closePulse (hn.trans (le_sendPart_wptr b _))
  have hle : n ≤ (Lirc.closePulse (sendSpace b g)).wptr :=
    (hn.trans (le_sendPart_wptr b (Signal.space g))).trans (le_closePulse_wptr _)
  have hflush : ∀ c : SBuf, flushSendBuffer c =
      if 0 < (Lirc.closePulse c).pendings then
        { Lirc.addSendBuffer (Lirc.closePulse c) (Lirc.closePulse c).pendings with pendings := 0 }
      else Lirc.closePulse c := fun c => rfl
  simp only [sendPart_space] at hspace
  unfold Lirc.addGap
  rw [hflush, hflush]
  generalize Lirc.closePulse (sendSpace b g) = c at hspace hle ⊢
  generalize Lirc.closePulse (sendSpace b' g) = c' at hspace ⊢
  rw [hspace.pendings]
  split
  · have hadd := (hspace.addSendBuffer hle c.pendings).setPendings 0
    exact ⟨⟨hadd.wptr, hadd.tooLong, hadd.isBiphase, hadd.pendingp, hadd.pendings, rfl, hadd.arr⟩,
      hle.trans (le_addSendBuffer_wptr _ _)⟩
  · exact ⟨⟨hspace.wptr, hspace.tooLong, hspace.isBiphase, hspace.pendingp, hspace.pendings, rfl,
      hspace.arr⟩, hle⟩

end SBuf.Alike

/-- Two buffers at the same point of a run: over their own arrays, or, at
the start of a raw code, over the same signals. -/
def Paired (n : ℕ) (q : ℕ → ℤ) (b b' : SBuf) : Prop :=
  b.Alike n q b' ∧ n ≤ b.wptr ∧ b.data = .own ∧ b'.data = .own ∨
    n = 0 ∧ ∃ l a, b.data = .signals l ∧ b' = { b with arr := a }

/-- The next frame is the same in both runs: either both buffers are over
their own array, or the frame is the first one and sets the pointer. -/
theorem buildFrame_paired {n : ℕ} {q : ℕ → ℤ} {b b' : SBuf} (h : b.Alike n q b')
    (hn : n ≤ b.wptr) {r : IrRemote} (code : IrNcode) {rep : Bool} (tx : TxState)
    (hdata : b.data = .own ∧ b'.data = .own ∨ b.wptr = 0 ∧ (rep && hasRepeat r) = false) :
    (buildFrame r code false rep b tx = none ∧ buildFrame r code false rep b' tx = none) ∨
      ∃ c c' tx', buildFrame r code false rep b tx = some (c, tx') ∧
        buildFrame r code false rep b' tx = some (c', tx') ∧ Paired n q c c' := by
  have hsent : ∀ ps, n ≤ (sendParts b ps).wptr := fun ps => hn.trans (le_sendParts_wptr b ps)
  cases hrep : rep && hasRepeat r
  · cases hraw : isRaw r
    · refine .inr ⟨_, _, _, buildFrame_code hraw code false hrep b tx,
        buildFrame_code hraw code false hrep b' tx, .inl ⟨?_, hsent _, rfl, rfl⟩⟩
      exact (h.sendParts hn _).adjusted _ _ _
    · simp only [buildFrame, hrep, hraw, Bool.false_eq_true, if_false, Bool.not_true]
      cases code.signals with
      | none => exact .inl ⟨rfl, rfl⟩
      | some signals =>
          right
          dsimp only
          rw [h.wptr]
          by_cases hw : 0 < b.wptr
          · obtain ⟨hown, hown'⟩ : b.data = .own ∧ b'.data = .own := by
              rcases hdata with hd | ⟨h0, -⟩
              · exact hd
              · omega
            rw [if_pos hw, if_pos hw]
            refine ⟨_, _, _, rfl, rfl, .inl ⟨h.sendSignals hn signals, ?_, ?_, ?_⟩⟩
            · exact hn.trans (le_sendSignals_wptr b signals)
            · rw [sendSignals_data, hown]
            · rw [sendSignals_data, hown']
          · rw [if_neg hw, if_neg hw]
            obtain ⟨a, d, rfl⟩ := h.aligned
            exact ⟨_, _, _, rfl, rfl, .inr ⟨by omega, signals, a, rfl, rfl⟩⟩
  · obtain ⟨hown, hown'⟩ : b.data = .own ∧ b'.data = .own := by
      rcases hdata with hd | ⟨-, h0⟩
      · exact hd
      · simp [hrep] at h0
    refine .inr ⟨_, _, _, buildFrame_repeat code false hrep b tx,
      buildFrame_repeat code false hrep b' tx, .inl ⟨h.sendParts hn _, hsent _, ?_, ?_⟩⟩
    · rw [sendParts_data, hown]
    · rw [sendParts_data, hown']

theorem addGap_data (b : SBuf) (g : ℤ) : (addGap b g).data = b.data := by
  have hflush : ∀ c : SBuf, (flushSendBuffer c).data = c.data := by
    intro c
    unfold flushSendBuffer
    dsimp only
    split <;> split <;> simp
  show (flushSendBuffer (sendSpace b g)).data = b.data
  rw [hflush]
  exact sendPart_data b (Signal.space g)

/-- Over signals the array does not matter. -/
theorem syncSendBuffer_arr (b : SBuf) (a : Vector ℤ wbufSize) :
    ∃ a', syncSendBuffer { b with arr := a } = { syncSendBuffer b with arr := a' } := by
  have hclose : ∃ a', closePulse { b with arr := a } = { closePulse b with arr := a' } := by
    unfold closePulse addSendBuffer
    dsimp only
    split
    · split
      · exact ⟨_, rfl⟩
      · exact ⟨_, rfl⟩
    · exact ⟨_, rfl⟩
  obtain ⟨a', ha'⟩ := hclose
  refine ⟨a', ?_⟩
  rw [syncSendBuffer_eq, syncSendBuffer_eq, ha']
  unfold dropSpace
  dsimp only
  split <;> rfl

theorem syncSendBuffer_data (b : SBuf) : (syncSendBuffer b).data = b.data := by
  have hclose : (closePulse b).data = b.data := by
    unfold closePulse
    split <;> simp
  rw [syncSendBuffer_eq, (dropSpace_frame _).2.1, hclose]

namespace Paired

variable {n : ℕ} {q : ℕ → ℤ} {b b' : SBuf}

theorem sync (h : Paired n q b b') (hodd : n = 0 ∨ n % 2 = 1) :
    Paired n q (syncSendBuffer b) (syncSendBuffer b') := by
  rcases h with ⟨h, hn, hown, hown'⟩ | ⟨h0, l, a, hl, rfl⟩
  · obtain ⟨hsync, hle⟩ := h.syncSendBuffer hn hodd
    exact .inl ⟨hsync, hle, by rw [syncSendBuffer_data, hown], by rw [syncSendBuffer_data, hown']⟩
  · obtain ⟨a', ha'⟩ := syncSendBuffer_arr b a
    exact .inr ⟨h0, l, a', by rw [syncSendBuffer_data, hl], ha'⟩

theorem scalars (h : Paired n q b b') :
    b'.sum = b.sum ∧ badSendBuffer b' = badSendBuffer b := by
  rcases h with ⟨h, -⟩ | ⟨-, -, -, -, rfl⟩
  · exact ⟨h.sum, by simp only [badSendBuffer, h.tooLong, h.wptr, h.pendingp]⟩
  · exact ⟨rfl, rfl⟩

/-- Copying raw signals into the array makes the two runs alike. -/
theorem unrollRaw (h : Paired n q b b') :
    (unrollRaw b).Alike n q (unrollRaw b') ∧ n ≤ (Lirc.unrollRaw b).wptr ∧
      (Lirc.unrollRaw b).data = .own ∧ (Lirc.unrollRaw b').data = .own := by
  rcases h with ⟨h, hn, hown, hown'⟩ | ⟨rfl, l, a, hl, rfl⟩
  · simp only [Lirc.unrollRaw, hown, hown', if_true]
    exact ⟨h, hn, trivial, trivial⟩
  · have hstart : ({ b with data := .own, wptr := 0 } : SBuf).Alike 0 q
        { b with data := .own, wptr := 0, arr := a } :=
      ⟨rfl, rfl, rfl, rfl, rfl, rfl, fun i _ hi => absurd hi (Nat.not_lt_zero i)⟩
    simp only [Lirc.unrollRaw, hl, reduceCtorEq, if_false, SBuf.samples, sendSignals_data]
    exact ⟨hstart.sendSignals (Nat.zero_le _) _, Nat.zero_le _, trivial, trivial⟩

end Paired

/-- What the driver reads in the second run: `q i` in the first `n` places. -/
def ReadsAlike (n : ℕ) (q : ℕ → ℤ) (b b' : SBuf) : Prop :=
  b'.wptr = b.wptr ∧ b'.samples.length = b.samples.length ∧ n ≤ b.wptr ∧
    ∀ i, i < b.wptr → b'.samples.getD i 0 = if i < n then q i else b.samples.getD i 0

theorem samples_getD_own {b : SBuf} (h : b.data = .own) {i : ℕ} (hi : i < b.wptr) :
    b.samples.getD i 0 = if h : i < wbufSize then b.arr[i] else 0 := by
  rw [SBuf.samples, h]
  by_cases hb : i < wbufSize
  · simp [List.getD_eq_getElem?_getD, hi, hb]
  · simp [List.getD_eq_getElem?_getD, hi, hb]

theorem Paired.reads {n : ℕ} {q : ℕ → ℤ} {b b' : SBuf} (h : Paired n q b b')
    (hfit : n ≤ wbufSize) : ReadsAlike n q b b' := by
  rcases h with ⟨h, hn, hown, hown'⟩ | ⟨rfl, l, a, hl, rfl⟩
  · refine ⟨h.wptr, by simp [SBuf.samples, hown, hown', h.wptr], hn, fun i hi => ?_⟩
    have hi' : i < b'.wptr := h.wptr ▸ hi
    rw [samples_getD_own hown hi, samples_getD_own hown' hi']
    by_cases hb : i < wbufSize
    · simp only [hb, dif_pos]
      exact h.arr i hb hi
    · have hni : ¬i < n := by omega
      simp only [hb, dif_neg, hni, if_false, not_false_eq_true]
  · refine ⟨rfl, by simp [SBuf.samples, hl], Nat.zero_le _, fun i hi => ?_⟩
    simp only [SBuf.samples, hl, Nat.not_lt_zero, if_false]

theorem checkSendBuffer_iff (b : SBuf) :
    checkSendBuffer b = true ↔ b.wptr ≠ 0 ∧ ∀ i, i < b.wptr → b.samples.getD i 0 ≠ 0 := by
  simp [checkSendBuffer]

theorem ReadsAlike.check {n : ℕ} {q : ℕ → ℤ} {b b' : SBuf} (h : ReadsAlike n q b b')
    (hq : ∀ i, i < n → q i ≠ 0) (hok : checkSendBuffer b = true) :
    checkSendBuffer b' = true := by
  obtain ⟨hw, -, -, hread⟩ := h
  rw [checkSendBuffer_iff] at hok ⊢
  refine ⟨hw ▸ hok.1, fun i hi => ?_⟩
  rw [hw] at hi
  rw [hread i hi]
  split
  · next hin => exact hq i hin
  · exact hok.2 i hi

/-- Two runs of the loop from buffers that differ in the first `n` samples
only go the same way, and end with buffers that differ in them only. -/
theorem initSendLoop_paired {n : ℕ} {q : ℕ → ℤ} (hodd : n = 0 ∨ n % 2 = 1)
    (hfit : n ≤ wbufSize) (hq : ∀ i, i < n → q i ≠ 0) {r : IrRemote} {code : IrNcode}
    {fuel : ℕ} {rep : Bool} {b b' : SBuf} {tx : TxState} {frames : List Frame} {out : SendOut}
    (h : b.Alike n q b') (hn : n ≤ b.wptr)
    (hdata : b.data = .own ∧ b'.data = .own ∨ b.wptr = 0 ∧ (rep && hasRepeat r) = false)
    (hrun : initSendLoop r code false fuel rep b tx frames = some out) (hok : out.ok = true) :
    ∃ out', initSendLoop r code false fuel rep b' tx frames = some out' ∧ out'.ok = true ∧
      ReadsAlike n q out.buf out'.buf := by
  induction fuel generalizing rep b b' tx frames with
  | zero => simp [initSendLoop] at hrun
  | succ fuel ih =>
      rcases buildFrame_paired h hn code tx hdata with
        ⟨hb, -⟩ | ⟨c, c', tx', hb, hb', hpair⟩
      · simp only [initSendLoop, hb, Option.some.injEq] at hrun
        rw [← hrun] at hok
        simp at hok
      have hsync := hpair.sync hodd
      obtain ⟨hsum, hbad⟩ := hsync.scalars
      simp only [initSendLoop, hb] at hrun
      simp only [initSendLoop, hb']
      rw [hsum, hbad]
      generalize syncSendBuffer c = d at hrun hsync hsum hbad ⊢
      generalize syncSendBuffer c' = d' at hsync hsum hbad ⊢
      split at hrun
      · simp only [Option.some.injEq] at hrun
        rw [← hrun] at hok
        simp at hok
      next hgood =>
      rw [if_neg hgood]
      simp only [Bool.false_eq_true, if_false] at hrun ⊢
      split at hrun
      · simp only [Option.some.injEq] at hrun
        rw [← hrun] at hok
        simp at hok
      next gmin gmax hgap =>
      split at hrun
      · next hlow =>
          rw [if_pos hlow]
          obtain ⟨hun, hle, hown, hown'⟩ := hsync.unrollRaw
          obtain ⟨hadd, hle'⟩ := hun.addGap hle gmin
          refine ih hadd hle' (.inl ⟨?_, ?_⟩) hrun
          · exact (addGap_data (unrollRaw d) gmin).trans hown
          · exact (addGap_data (unrollRaw d') gmin).trans hown'
      · next hhigh =>
          rw [if_neg hhigh]
          simp only [Option.some.injEq] at hrun
          subst hrun
          have hread := hsync.reads hfit
          exact ⟨_, rfl, hread.check hq hok, hread⟩

/-! ### The samples of a transmission -/

/-- More fuel does not change the result. -/
theorem initSendLoop_mono {r : IrRemote} {code : IrNcode} {sim : Bool} {fuel fuel' : ℕ}
    {rep : Bool} {b : SBuf} {tx : TxState} {frames : List Frame} {out : SendOut}
    (hrun : initSendLoop r code sim fuel rep b tx frames = some out) (hle : fuel ≤ fuel') :
    initSendLoop r code sim fuel' rep b tx frames = some out := by
  induction fuel generalizing fuel' rep b tx frames with
  | zero => simp [initSendLoop] at hrun
  | succ fuel ih =>
      obtain ⟨fuel', rfl⟩ : ∃ k, fuel' = k + 1 := ⟨fuel' - 1, by omega⟩
      simp only [initSendLoop] at hrun ⊢
      split at hrun
      · exact hrun
      next c tx' hbuild =>
      split at hrun
      · next hbad => rw [if_pos hbad]; exact hrun
      next hgood =>
      rw [if_neg hgood]
      split at hrun
      · next hsim => rw [if_pos hsim]; exact hrun
      next hsim =>
      rw [if_neg hsim]
      split at hrun
      · exact hrun
      split at hrun
      · next hlow => rw [if_pos hlow]; exact ih hrun (by omega)
      · next hhigh => rw [if_neg hhigh]; exact hrun

theorem startBuffer_alike (r : IrRemote) (q : ℕ → ℤ) (b b' : SBuf) :
    (startBuffer r b).Alike 0 q (startBuffer r b') :=
  ⟨rfl, rfl, rfl, rfl, rfl, rfl, fun i _ hi => absurd hi (Nat.not_lt_zero i)⟩

/-- `init_send` returns 1 and leaves these samples to the driver. -/
def Sends (r : IrRemote) (code : IrNcode) (repeating : Bool) (b : SBuf) (xs : List ℤ) : Prop :=
  ∃ fuel out, initSend r code repeating b fuel = some out ∧ out.ok = true ∧ out.buf.samples = xs

/-- The frame is the repeat code of its remote. -/
def isRepeatFrame (r : IrRemote) (repeating : Bool) : Bool := repeating && hasRepeat r

theorem Sends.cannotSend {r : IrRemote} {code : IrNcode} {repeating : Bool} {b : SBuf}
    {xs : List ℤ} (h : Sends r code repeating b xs) : cannotSend r = false := by
  obtain ⟨fuel, out, hrun, hok, -⟩ := h
  by_contra hc
  have hc' : Lirc.cannotSend r = true := by simpa using hc
  simp only [initSend, initSendOrSim, hc', if_true, Option.some.injEq] at hrun
  rw [← hrun] at hok
  simp at hok

theorem length_samples_le (b : SBuf) : b.samples.length ≤ b.wptr := by
  unfold SBuf.samples
  split <;> simp

theorem ReadsAlike.samples_eq {q : ℕ → ℤ} {b b' : SBuf} (h : ReadsAlike 0 q b b') :
    b'.samples = b.samples := by
  obtain ⟨-, hlen, -, hread⟩ := h
  refine List.ext_getElem hlen fun i hi hi' => ?_
  have hiw : i < b.wptr := Nat.lt_of_lt_of_le hi' (length_samples_le b)
  have := hread i hiw
  simpa [List.getD_eq_getElem?_getD, List.getElem?_eq_getElem, hi, hi'] using this

/-- After two histories the same samples are sent, unless the frame is a
repeat code and the pointer was left on raw signals. -/
theorem Sends.unique {r : IrRemote} {code : IrNcode} {repeating : Bool} {b b' : SBuf}
    {xs ys : List ℤ} (h : Sends r code repeating b xs) (h' : Sends r code repeating b' ys)
    (hdata : b.data = .own ∧ b'.data = .own ∨ isRepeatFrame r repeating = false) : xs = ys := by
  have hsend := h.cannotSend
  obtain ⟨fuel, out, hrun, hok, rfl⟩ := h
  obtain ⟨fuel', out', hrun', hok', rfl⟩ := h'
  rw [initSend_eq _ _ _ _ _ hsend] at hrun hrun'
  have hstart : (startBuffer r b).data = .own ∧ (startBuffer r b').data = .own ∨
      (startBuffer r b).wptr = 0 ∧ (repeating && hasRepeat r) = false :=
    hdata.imp id fun hrep => ⟨rfl, hrep⟩
  obtain ⟨out₂, hrun₂, -, hread⟩ :=
    initSendLoop_paired (.inl rfl) (Nat.zero_le _) (fun i hi => absurd hi (Nat.not_lt_zero i))
      (startBuffer_alike r (fun _ => 0) b b') (Nat.zero_le _) hstart hrun hok
  have h₁ := initSendLoop_mono hrun₂ (Nat.le_max_left fuel fuel')
  have h₂ := initSendLoop_mono hrun' (Nat.le_max_right fuel fuel')
  obtain rfl : out₂ = out' := Option.some.inj (h₁.symm.trans h₂)
  exact hread.samples_eq.symm

/-! ### Stale signals -/

/-- A raw code of 257 pulses and spaces of length `v`. -/
def rawCode (v : ℤ) : IrNcode := { name := [], code := 0, signals := some (List.replicate 257 v) }

/-- A raw code can leave the pointer on any signals. -/
theorem exists_stale (v : ℤ) :
    ∃ b, History b ∧ b.data = .signals (List.replicate 257 v) := by
  have hsend : cannotSend { flags := rawCodes } = false := by decide
  have hraw : isRaw { flags := rawCodes } = true := by decide
  have hrep : hasRepeat { flags := rawCodes } = false := by decide
  have hsync : ∀ b : SBuf, b.pendingp = 0 → b.wptr = 257 → syncSendBuffer b = b := by
    intro b hp hw
    simp [syncSendBuffer, hp, hw]
  have hbad : ∀ b : SBuf, b.tooLong = false → b.pendingp = 0 → badSendBuffer b = false := by
    intro b hl hp
    simp [badSendBuffer, hl, hp]
  have hrun : ∃ out, initSim { flags := rawCodes } (rawCode v) false initSendBuffer = some out ∧
      out.buf.data = .signals (List.replicate 257 v) := by
    simp only [initSim, initSendOrSim, hsend, initSendLoop, buildFrame, hraw, hrep, rawCode,
      clearSendBuffer, Bool.false_eq_true, if_false, Bool.false_and, Bool.not_true, if_true,
      Nat.lt_irrefl, List.length_replicate]
    rw [hsync _ rfl rfl, if_neg (by rw [hbad _ rfl rfl]; simp)]
    exact ⟨_, rfl, rfl⟩
  obtain ⟨out, hrun, hdata⟩ := hrun
  exact ⟨out.buf, .sim .start hrun, hdata⟩

/-- Copying `m` samples `v` into the array. -/
theorem sendSignals_replicate (v : ℤ) (m : ℕ) (b : SBuf) (hfit : b.wptr + m ≤ wbufSize) :
    ∃ a s, sendSignals b (List.replicate m v) = { b with wptr := b.wptr + m, sum := s, arr := a } ∧
      ∀ i (h : i < wbufSize), a[i] = if b.wptr ≤ i ∧ i < b.wptr + m then v else b.arr[i] := by
  induction m generalizing b with
  | zero =>
      refine ⟨b.arr, b.sum, rfl, fun i h => ?_⟩
      rw [if_neg (by omega)]
  | succ m ih =>
      have hlt : b.wptr < wbufSize := by omega
      have hadd : addSendBuffer b v =
          { b with sum := b.sum + v, arr := b.arr.set b.wptr v hlt, wptr := b.wptr + 1 } := by
        simp [addSendBuffer, hlt]
      obtain ⟨a, s, hrun, hread⟩ := ih (addSendBuffer b v) (by rw [hadd]; dsimp only; omega)
      refine ⟨a, s, ?_, fun i h => ?_⟩
      · show sendSignals (addSendBuffer b v) (List.replicate m v) = _
        rw [hrun, hadd]
        simp only [SBuf.mk.injEq, true_and, and_true]
        omega
      · rw [hread i h, hadd]
        dsimp only
        by_cases hi : b.wptr = i
        · rw [if_neg (by omega), if_pos (by omega), Vector.getElem_set, if_pos hi]
        · rw [Vector.getElem_set, if_neg hi]
          by_cases hin : b.wptr ≤ i ∧ i < b.wptr + (m + 1)
          · rw [if_pos hin, if_pos (by omega)]
          · rw [if_neg hin, if_neg (by omega)]

/-- A pulse and a space are never pending together. -/
def Exclusive (b : SBuf) : Prop := b.pendingp ≤ 0 ∨ b.pendings ≤ 0

theorem Exclusive.sendPart {b : SBuf} (h : Exclusive b) (p : Signal.Part) :
    Exclusive (sendPart b p) := by
  unfold Exclusive Lirc.sendPart sendPulse sendSpace at *
  split
  · split
    · right; dsimp only; omega
    · right
      dsimp only
      split
      · exact Int.le_refl 0
      · omega
  · split
    · exact h
    · split
      · left; dsimp only; omega
      · left
        dsimp only
        split
        · exact Int.le_refl 0
        · omega

theorem Exclusive.sendParts {b : SBuf} (h : Exclusive b) (ps : List Signal.Part) :
    Exclusive (sendParts b ps) := by
  induction ps generalizing b with
  | nil => exact h
  | cons p ps ih => exact ih (h.sendPart p)

theorem addSendBuffer_pos (b : SBuf) (x : ℤ) : 0 < (addSendBuffer b x).wptr := by
  unfold addSendBuffer
  split
  · exact Nat.succ_pos _
  · next h => exact Nat.lt_of_lt_of_le (by decide) (Nat.le_of_not_lt h)

/-- A pulse followed by a space leaves at least one sample. -/
theorem sendSpace_sendPulse_pos {b : SBuf} (h : Exclusive b) {x y : ℤ} (hx : 0 < x) :
    0 < (sendSpace (sendPulse b x) y).wptr := by
  have hp : 0 < (sendPulse b x).pendingp ∧ (sendPulse b x).pendings ≤ 0 := by
    unfold Exclusive at h
    unfold sendPulse
    split
    · dsimp only; omega
    · dsimp only
      split
      · exact ⟨hx, Int.le_refl 0⟩
      · exact ⟨hx, by omega⟩
  unfold sendSpace
  rw [if_neg (by omega), if_neg (by omega), if_pos hp.1]
  exact addSendBuffer_pos _ _

/-- A repeat frame is not empty. -/
theorem sendParts_repeatParts_pos {r : IrRemote} (hr : hasRepeat r = true) {b : SBuf}
    (h : Exclusive b) : 0 < (sendParts b (repeatParts r)).wptr := by
  have hpr : 0 < r.prepeat := by
    simp only [hasRepeat, Bool.and_eq_true, decide_eq_true_eq] at hr
    exact hr.1
  unfold repeatParts
  rw [sendParts_append, sendParts_append, sendParts_append]
  exact Nat.lt_of_lt_of_le (sendSpace_sendPulse_pos ((h.sendParts _).sendParts _) hpr)
    (le_sendParts_wptr _ _)

theorem SBuf.Sound.sendParts {b : SBuf} (h : b.Sound) (ps : List Signal.Part) :
    (sendParts b ps).Sound := by
  have hpart : ∀ (c : SBuf) (p : Signal.Part), c.Sound → (sendPart c p).Sound := by
    intro c p hc
    unfold sendPart sendPulse sendSpace
    split
    · split
      · exact ⟨hc.wptr_le⟩
      · dsimp only
        split
        · exact ⟨(addSendBuffer_sound hc _).wptr_le⟩
        · exact ⟨hc.wptr_le⟩
    · split
      · exact hc
      · split
        · exact ⟨hc.wptr_le⟩
        · dsimp only
          split
          · exact ⟨(addSendBuffer_sound hc _).wptr_le⟩
          · exact ⟨hc.wptr_le⟩
  induction ps generalizing b with
  | nil => exact h
  | cons p ps ih => exact ih (hpart b p h)

theorem SBuf.Sound.closePulse {b : SBuf} (h : b.Sound) : (closePulse b).Sound := by
  unfold Lirc.closePulse
  split
  · exact ⟨(addSendBuffer_sound h _).wptr_le⟩
  · exact h

/-- The samples counted after a frame that is not empty are odd in number. -/
theorem dropSpace_odd {b : SBuf} (h : 0 < b.wptr) :
    (dropSpace b).wptr % 2 = 1 ∧ 0 < (dropSpace b).wptr := by
  unfold dropSpace
  split
  · dsimp only; omega
  · omega

theorem addSendBuffer_sum (b : SBuf) (s x : ℤ) :
    ∃ s', addSendBuffer { b with sum := s } x = { addSendBuffer b x with sum := s' } := by
  unfold addSendBuffer
  dsimp only
  split
  · exact ⟨_, rfl⟩
  · exact ⟨_, rfl⟩

theorem closePulse_sum (b : SBuf) (s : ℤ) :
    ∃ s', closePulse { b with sum := s } = { closePulse b with sum := s' } := by
  unfold closePulse
  dsimp only
  split
  · obtain ⟨s', hs'⟩ := addSendBuffer_sum b s b.pendingp
    exact ⟨s', by rw [hs']⟩
  · exact ⟨s, rfl⟩

theorem sendSpace_sum (b : SBuf) (s x : ℤ) :
    ∃ s', sendSpace { b with sum := s } x = { sendSpace b x with sum := s' } := by
  unfold sendSpace
  dsimp only
  split
  · exact ⟨s, rfl⟩
  · split
    · exact ⟨s, rfl⟩
    · split
      · obtain ⟨s', hs'⟩ := addSendBuffer_sum b s b.pendingp
        exact ⟨s', by rw [hs']⟩
      · exact ⟨s, rfl⟩

/-- The sums of two buffers no longer matter once the gap has been added. -/
theorem addGap_sum (b : SBuf) (s g : ℤ) : addGap { b with sum := s } g = addGap b g := by
  have hflush : ∀ c : SBuf, flushSendBuffer c =
      if 0 < (closePulse c).pendings then
        { addSendBuffer (closePulse c) (closePulse c).pendings with pendings := 0 }
      else closePulse c := fun c => rfl
  unfold addGap
  obtain ⟨s₁, hs₁⟩ := sendSpace_sum b s g
  obtain ⟨s₂, hs₂⟩ := closePulse_sum (sendSpace b g) s₁
  obtain ⟨s₃, hs₃⟩ := addSendBuffer_sum (closePulse (sendSpace b g)) s₂
    (closePulse (sendSpace b g)).pendings
  rw [hs₁, hflush, hflush, hs₂]
  dsimp only
  rw [hs₃]
  split <;> rfl

/-- After raw signals a repeat frame is not sent: the driver is given the
old signals in its place. -/
theorem stale_sends {r : IrRemote} {code : IrNcode} {b b' : SBuf} {xs : List ℤ} {v : ℤ}
    (hv : 0 < v) (hr : hasRepeat r = true) (h : Sends r code true b xs) (hown : b.data = .own)
    (hstale : b'.data = .signals (List.replicate 257 v)) :
    ∃ ys, Sends r code true b' ys ∧ ys.head? = some v := by
  have hsend := h.cannotSend
  obtain ⟨fuel, out, hrun, hok, -⟩ := h
  rw [initSend_eq _ _ _ _ _ hsend] at hrun
  cases fuel with
  | zero => simp [initSendLoop] at hrun
  | succ fuel =>
      have hrep : (true && hasRepeat r) = true := by simpa using hr
      have hframe := ((startBuffer_alike r (fun _ => 0) b b').sendParts (Nat.zero_le _)
        (repeatParts r)).syncSendBuffer (Nat.zero_le _) (.inl rfl)
      have hpos := sendParts_repeatParts_pos hr (b := startBuffer r b) (.inl (Int.le_refl 0))
      have hsound : (syncSendBuffer (sendParts (startBuffer r b) (repeatParts r))).Sound :=
        dropSpace_sound (SBuf.Sound.sendParts ⟨Nat.zero_le _⟩ _).closePulse
      obtain ⟨hodd, hwpos⟩ :=
        dropSpace_odd (Nat.lt_of_lt_of_le hpos (le_closePulse_wptr _))
      have hdata : (syncSendBuffer (sendParts (startBuffer r b) (repeatParts r))).data = .own := by
        rw [syncSendBuffer_data, sendParts_data]
        exact hown
      have hdata' : (syncSendBuffer (sendParts (startBuffer r b') (repeatParts r))).data =
          .signals (List.replicate 257 v) := by
        rw [syncSendBuffer_data, sendParts_data]
        exact hstale
      simp only [initSendLoop, buildFrame_repeat code false hrep] at hrun
      simp only [← syncSendBuffer_eq] at hodd hwpos
      generalize syncSendBuffer (sendParts (startBuffer r b) (repeatParts r)) = d at *
      generalize hd' : syncSendBuffer (sendParts (startBuffer r b') (repeatParts r)) = d' at *
      obtain ⟨halike, -⟩ := hframe
      have hw : d'.wptr = d.wptr := halike.wptr
      have hfit : d.wptr ≤ wbufSize := hsound.wptr_le
      have hle : d.wptr ≤ 257 := hfit.trans (by decide)
      have htake : d'.samples = List.replicate d.wptr v := by
        simp only [SBuf.samples, hdata', hw, List.take_replicate, Nat.min_eq_left hle]
      have hbad : badSendBuffer d' = badSendBuffer d := by
        simp only [badSendBuffer, halike.tooLong, hw, halike.pendingp]
      split at hrun
      · simp only [Option.some.injEq] at hrun
        rw [← hrun] at hok
        simp at hok
      next hgood =>
      rw [if_neg (by simp)] at hrun
      split at hrun
      · simp only [Option.some.injEq] at hrun
        rw [← hrun] at hok
        simp at hok
      next gmin gmax hgap =>
      have hstart : ∀ f, initSend r code true b' (f + 1) =
          initSendLoop r code false (f + 1) true (startBuffer r b') (startTx r code true) [] :=
        fun f => initSend_eq r code true b' (f + 1) hsend
      simp only [initSendLoop, buildFrame_repeat code false hrep, hd', hbad, if_neg hgood,
        halike.sum, hgap, Bool.false_eq_true, if_false] at hstart
      split at hrun
      · next hlow =>
          -- the old signals are copied into the array
          obtain ⟨a, s, hcopy, hread⟩ := sendSignals_replicate v d.wptr
            { d' with data := .own, wptr := 0 } (by dsimp only; omega)
          have hunroll : unrollRaw d' =
              { d' with data := .own, wptr := d.wptr, sum := s, arr := a } := by
            rw [unrollRaw, if_neg (by rw [hdata']; rintro ⟨⟩), htake, hcopy]
            simp
          have hunroll₀ : unrollRaw d = d := by simp [unrollRaw, hdata]
          have hcopied : d.Alike d.wptr (fun _ => v)
              { d' with data := .own, wptr := d.wptr, sum := d.sum, arr := a } := by
            refine ⟨rfl, halike.tooLong, halike.isBiphase, halike.pendingp, halike.pendings, rfl,
              fun i hi hiw => ?_⟩
            have hread' := hread i hi
            rw [if_pos (by dsimp only; omega)] at hread'
            rw [if_pos hiw]
            exact hread'
          obtain ⟨hadd, hle'⟩ := hcopied.addGap (Nat.le_refl _) gmin
          have hsame : addGap (unrollRaw d') gmin =
              addGap { d' with data := .own, wptr := d.wptr, sum := d.sum, arr := a } gmin := by
            rw [hunroll]
            exact (addGap_sum { d' with data := .own, wptr := d.wptr, sum := s, arr := a }
              d.sum gmin).symm
          rw [hunroll₀] at hrun
          obtain ⟨out', hrun', hok', hreads⟩ :=
            initSendLoop_paired (.inr hodd) hfit (fun _ _ => Int.ne_of_gt hv) hadd hle'
              (.inl ⟨(addGap_data d gmin).trans hdata, addGap_data _ gmin⟩) hrun hok
          rw [← hsame] at hrun'
          refine ⟨out'.buf.samples, ⟨fuel + 1, out', ?_, hok', rfl⟩, ?_⟩
          · rw [hstart fuel, if_pos hlow]
            exact hrun'
          · obtain ⟨-, -, hlen, hread'⟩ := hreads
            have hfirst := hread' 0 (by omega)
            rw [if_pos hwpos] at hfirst
            cases hxs : out'.buf.samples with
            | nil =>
                rw [hxs] at hfirst
                simp only [List.getD_nil] at hfirst
                omega
            | cons x xs =>
                rw [hxs] at hfirst
                simpa using hfirst
      · next hhigh =>
          simp only [Option.some.injEq] at hrun
          subst hrun
          refine ⟨List.replicate d.wptr v, ⟨1, _, (hstart 0).trans (if_neg hhigh), ?_, htake⟩, ?_⟩
          · rw [checkSendBuffer_iff]
            refine ⟨by omega, fun i hi => ?_⟩
            rw [htake, List.getD_eq_getElem?_getD, List.getElem?_replicate, if_pos (by omega)]
            exact Int.ne_of_gt hv
          · rw [List.head?_replicate, if_neg (by omega)]

/-! ### Independence of the history -/

/-- After all histories in `D` this transmission has the same samples. -/
def HistoryFree (D : SBuf → Prop) (r : IrRemote) (code : IrNcode) (repeating : Bool) : Prop :=
  ∀ b b', History b → History b' → D b → D b' → ∀ xs ys,
    Sends r code repeating b xs → Sends r code repeating b' ys → xs = ys

/-- A repeat frame starts with a pulse. -/
theorem repeatParts_eq_cons (r : IrRemote) : ∃ a ps, repeatParts r = Signal.pulse a :: ps := by
  unfold repeatParts headerParts leadParts
  split
  · split
    · exact ⟨_, _, rfl⟩
    · split
      · exact ⟨_, _, rfl⟩
      · exact ⟨_, _, rfl⟩
  · split
    · exact ⟨_, _, rfl⟩
    · exact ⟨_, _, rfl⟩

/-- What a repeat frame looks like when the pointer is right: header, lead,
repeat code and trail of the remote, and then, after a low gap, more frames. -/
theorem Sends.repeat_frame {r : IrRemote} {code : IrNcode} {b : SBuf} {xs : List ℤ}
    (hr : hasRepeat r = true) (hl : 0 ≤ r.plead) (ht : 0 ≤ r.ptrail) (hown : b.data = .own)
    (h : Sends r code true b xs) :
    ∃ rest gmin gmax, xs = (Signal.wave (repeatParts r)).map Signal.Part.len ++ rest ∧
      remainingGap r true ((Signal.wave (repeatParts r)).map Signal.Part.len).sum =
        some (gmin, gmax) ∧
      (exactGapThreshold ≤ gmin → rest = []) := by
  have hsend := h.cannotSend
  obtain ⟨fuel, out, hrun, hok, rfl⟩ := h
  rw [initSend_eq _ _ _ _ _ hsend] at hrun
  have hbuild := buildFrame_repeat code false (by simpa using hr : (true && hasRepeat r) = true)
    (startBuffer r b) (startTx r code true)
  have hpos := positive_repeatParts hr hl ht
  obtain ⟨a, ps, hps⟩ := repeatParts_eq_cons r
  rw [hps] at hbuild hpos ⊢
  have hdata : (sendParts (startBuffer r b) (Signal.pulse a :: ps)).data = .own := by
    rw [sendParts_data]
    exact hown
  have hadj : sendParts (startBuffer r b) (Signal.pulse a :: ps) =
      (sendParts (startBuffer r b) (Signal.pulse a :: ps)).adjusted 0 .own := by
    rw [← hdata]
    simp [SBuf.adjusted]
  rw [hadj] at hbuild
  obtain ⟨rest, gmin, gmax, hsamples, hgap, -, hrest, -⟩ :=
    initSendLoop_first (framing_repeat hr hl ht code) (cleared_clearSendBuffer b _) hbuild hpos
      hrun hok
  rw [Int.sub_zero] at hgap
  exact ⟨rest, gmin, gmax, hsamples, hgap, hrest⟩

/-- A repeat frame is sent differently after some history. -/
theorem not_historyFree_repeat {r : IrRemote} {code : IrNcode} (hr : hasRepeat r = true)
    {b : SBuf} {xs : List ℤ} (hb : History b) (hown : b.data = .own)
    (h : Sends r code true b xs) : ¬HistoryFree (fun _ => True) r code true := by
  intro hfree
  obtain ⟨v, hv, hne⟩ : ∃ v : ℤ, 0 < v ∧ xs.head? ≠ some v := by
    by_cases h1 : xs.head? = some 1
    · exact ⟨2, by decide, by rw [h1]; decide⟩
    · exact ⟨1, by decide, h1⟩
  obtain ⟨b', hb', hstale⟩ := exists_stale v
  obtain ⟨ys, hys, hhead⟩ := stale_sends hv hr h hown hstale
  rw [hfree b b' hb hb' trivial trivial xs ys h hys] at hne
  exact hne hhead

/-- The samples of a transmission depend on the earlier ones exactly for
repeat frames, and there only through the `data` pointer. -/
theorem initSend_historyFree (r : IrRemote) (code : IrNcode) (repeating : Bool) :
    HistoryFree (fun b => b.data = .own ∨ isRepeatFrame r repeating = false) r code repeating ∧
    ((∃ b xs, History b ∧ b.data = .own ∧ Sends r code repeating b xs) →
      (HistoryFree (fun _ => True) r code repeating ↔ isRepeatFrame r repeating = false)) ∧
    (isRepeatFrame r repeating = true → 0 ≤ r.plead → 0 ≤ r.ptrail → ∀ b xs, History b →
      b.data = .own → Sends r code repeating b xs →
      ∃ rest gmin gmax, xs = (Signal.wave (repeatParts r)).map Signal.Part.len ++ rest ∧
        remainingGap r true ((Signal.wave (repeatParts r)).map Signal.Part.len).sum =
          some (gmin, gmax) ∧
        (exactGapThreshold ≤ gmin → rest = [])) := by
  refine ⟨?_, ?_, ?_⟩
  · intro b b' _ _ hD hD' xs ys h h'
    refine h.unique h' ?_
    rcases hD with hown | hrep
    · exact hD'.imp (fun hown' => ⟨hown, hown'⟩) id
    · exact .inr hrep
  · rintro ⟨b, xs, hb, hown, h⟩
    constructor
    · intro hfree
      by_contra hrep
      obtain ⟨rfl, hr⟩ : repeating = true ∧ hasRepeat r = true := by
        simpa [isRepeatFrame] using hrep
      exact not_historyFree_repeat hr hb hown h hfree
    · intro hrep b b' _ _ _ _ xs ys h h'
      exact h.unique h' (.inr hrep)
  · intro hrep hl ht b xs _ hown h
    obtain ⟨rfl, hr⟩ : repeating = true ∧ hasRepeat r = true := by
      simpa [isRepeatFrame] using hrep
    exact h.repeat_frame hr hl ht hown

/-- A raw remote with a repeat code. -/
def rawRepeatRemote : IrRemote :=
  { name := ['r'], flags := rawCodes, prepeat := 9000, srepeat := 2200, ptrail := 560,
    gap := 40000, minRepeat := 1 }

def rawRepeatCode : IrNcode := { name := ['k'], code := 1, signals := some [900, 400, 900] }

/-- A space encoded remote. -/
def plainRemote : IrRemote :=
  { name := ['p'], flags := spaceEnc, bits := 1, pone := 500, sone := 1500, pzero := 500,
    szero := 500, ptrail := 500, gap := 40000 }

/-- The buffer after one transmission. -/
def bufferAfter (r : IrRemote) (code : IrNcode) : SBuf :=
  ((initSend r code false initSendBuffer 1).map SendOut.buf).getD initSendBuffer

theorem history_bufferAfter (r : IrRemote) (code : IrNcode) : History (bufferAfter r code) := by
  unfold bufferAfter
  cases hrun : initSend r code false initSendBuffer 1 with
  | none => exact .start
  | some out => exact .send .start hrun

theorem sends_of_run {r : IrRemote} {code : IrNcode} {repeating : Bool} {b : SBuf} {xs : List ℤ}
    (h : (initSend r code repeating b 1).map (fun out => (out.ok, out.buf.samples)) =
      some (true, xs)) : Sends r code repeating b xs := by
  obtain ⟨out, hrun, hout⟩ := Option.map_eq_some_iff.mp h
  simp only [Prod.mk.injEq] at hout
  exact ⟨1, out, hrun, hout.1, hout.2⟩

/-- The repeat frame that follows the raw code reads 900, 400, 900 instead
of 9000, 2200, 560. -/
theorem initSend_not_historyFree :
    ¬HistoryFree (fun _ => True) rawRepeatRemote rawRepeatCode true := by
  intro hfree
  have hstale : Sends rawRepeatRemote rawRepeatCode true
      (bufferAfter rawRepeatRemote rawRepeatCode) [900, 400, 900] :=
    sends_of_run (by decide +kernel)
  have hright : Sends rawRepeatRemote rawRepeatCode true
      (bufferAfter plainRemote { name := ['k'], code := 1 }) [9000, 2200, 560] :=
    sends_of_run (by decide +kernel)
  have heq := hfree _ _ (history_bufferAfter _ _) (history_bufferAfter _ _) trivial trivial
    _ _ hstale hright
  exact absurd heq (by decide)

end Lirc
