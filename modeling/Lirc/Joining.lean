import Lirc.Separate

/-!
The waveform of several frames with low gaps is the frames as each of them
stands behind the others, with a space after each but the last; and when this
is the signal of the frames built one by one.
-/

namespace Lirc

open Signal

/-! ### Behind other frames -/

/-- Samples less a space at the end. -/
def synced (xs : List ℤ) : List ℤ := if xs.length % 2 = 0 then xs.dropLast else xs

theorem synced_length_odd {xs : List ℤ} (h : xs ≠ []) : (synced xs).length % 2 = 1 := by
  have hpos := List.length_pos_of_ne_nil h
  rw [synced]
  split
  · rw [List.length_dropLast]
    omega
  · omega

theorem synced_append {xs ys : List ℤ} (hxs : xs.length % 2 = 0) (hys : ys ≠ []) :
    synced (xs ++ ys) = xs ++ synced ys := by
  have hlen : (xs ++ ys).length % 2 = ys.length % 2 := by
    rw [List.length_append]
    omega
  rw [synced, synced, hlen]
  split
  · exact List.dropLast_append_of_ne_nil hys
  · rfl

theorem mem_of_mem_synced {xs : List ℤ} {x : ℤ} (h : x ∈ synced xs) : x ∈ xs := by
  rw [synced] at h
  split at h
  · exact List.mem_of_mem_dropLast h
  · exact h

/-- The samples of a frame that stands behind others: the spaces it begins with
are samples as well. -/
def LoneFrame.behind (f : LoneFrame) : List ℤ := synced (f.lead ++ f.body)

/-- The remaining gap when the leading samples count as well. -/
def LoneFrame.gapBehind (r : IrRemote) (f : LoneFrame) : ℤ :=
  ((remainingGap r f.rep (f.sum + f.lead.sum)).getD (0, 0)).1

/-- The frames of one waveform. -/
def joined (r : IrRemote) : List LoneFrame → List ℤ
  | [] => []
  | [f] => f.behind
  | f :: g :: fs => f.behind ++ (f.pending + f.gapBehind r) :: joined r (g :: fs)

/-- Each frame has the same samples behind others as alone, and is followed by
its own gap. -/
def Joins (r : IrRemote) (fs : List LoneFrame) : Prop :=
  (∀ f ∈ fs, f.behind = f.samples) ∧
    ∀ f ∈ fs.dropLast, 0 < f.gap ∧ f.pending + f.gapBehind r = f.gap

instance (r : IrRemote) (fs : List LoneFrame) : Decidable (Joins r fs) :=
  inferInstanceAs (Decidable (_ ∧ _))

/-- The samples of `separated`. -/
def separatedSamples : List LoneFrame → List ℤ
  | [] => []
  | [f] => f.samples
  | f :: g :: fs => f.samples ++ f.gap :: separatedSamples (g :: fs)

/-- What a frame built alone is like. -/
structure LoneFrame.Proper (f : LoneFrame) : Prop where
  samples : f.samples = synced f.body
  ne_nil : f.body ≠ []
  pos : ∀ x ∈ f.samples, 0 < x
  nonneg : ∀ x ∈ f.lead ++ f.body, 0 ≤ x
  pending : 0 ≤ f.pending

theorem LoneFrame.Proper.odd {f : LoneFrame} (h : f.Proper) : f.samples.length % 2 = 1 := by
  rw [h.samples]
  exact synced_length_odd h.ne_nil

theorem LoneFrame.Proper.behind_odd {f : LoneFrame} (h : f.Proper) :
    f.behind.length % 2 = 1 :=
  synced_length_odd (List.append_ne_nil_of_right_ne_nil f.lead h.ne_nil)

/-- A frame is not shorter behind others than alone. -/
theorem LoneFrame.Proper.length_le {f : LoneFrame} (h : f.Proper) :
    f.samples.length ≤ f.behind.length := by
  rw [h.samples, behind, synced, synced]
  split <;> split <;>
    simp only [List.length_dropLast, List.length_append] at * <;> omega

theorem separatedSamples_odd {fs : List LoneFrame} (hfs : ∀ f ∈ fs, f.Proper) (hne : fs ≠ []) :
    (separatedSamples fs).length % 2 = 1 := by
  induction fs with
  | nil => exact absurd rfl hne
  | cons f fs ih =>
      have hodd := (hfs f List.mem_cons_self).odd
      cases fs with
      | nil => exact hodd
      | cons g fs =>
          have := ih (fun x hx => hfs x (List.mem_cons_of_mem f hx)) (List.cons_ne_nil g fs)
          rw [separatedSamples, List.length_append, List.length_cons]
          omega

theorem joined_odd {r : IrRemote} {fs : List LoneFrame} (hfs : ∀ f ∈ fs, f.Proper)
    (hne : fs ≠ []) : (joined r fs).length % 2 = 1 := by
  induction fs with
  | nil => exact absurd rfl hne
  | cons f fs ih =>
      have hodd := (hfs f List.mem_cons_self).behind_odd
      cases fs with
      | nil => exact hodd
      | cons g fs =>
          have := ih (fun x hx => hfs x (List.mem_cons_of_mem f hx)) (List.cons_ne_nil g fs)
          rw [joined, List.length_append, List.length_cons]
          omega

theorem separated_eq {fs : List LoneFrame} (hfs : ∀ f ∈ fs, f.Proper) :
    separated fs = alternate true (separatedSamples fs) := by
  induction fs with
  | nil => rfl
  | cons f fs ih =>
      cases fs with
      | nil => rfl
      | cons g fs =>
          have hodd := (hfs f List.mem_cons_self).odd
          have hpar : ¬f.samples.length % 2 = 0 := by omega
          rw [separated, separatedSamples, alternate_append, if_neg hpar,
            ih fun x hx => hfs x (List.mem_cons_of_mem f hx)]
          rfl

theorem separatedSamples_pos {fs : List LoneFrame} (hfs : ∀ f ∈ fs, f.Proper)
    (hgap : ∀ f ∈ fs.dropLast, 0 < f.gap) : ∀ x ∈ separatedSamples fs, 0 < x := by
  induction fs with
  | nil => exact fun x hx => absurd hx List.not_mem_nil
  | cons f fs ih =>
      have hpos := (hfs f List.mem_cons_self).pos
      cases fs with
      | nil => exact hpos
      | cons g fs =>
          rw [List.dropLast_cons_cons] at hgap
          refine List.forall_mem_append.mpr ⟨hpos, List.forall_mem_cons.mpr ⟨?_, ?_⟩⟩
          · exact hgap f List.mem_cons_self
          · exact ih (fun x hx => hfs x (List.mem_cons_of_mem f hx))
              fun x hx => hgap x (List.mem_cons_of_mem f hx)

theorem length_joined_ge {r : IrRemote} {fs : List LoneFrame} (hfs : ∀ f ∈ fs, f.Proper) :
    (separatedSamples fs).length ≤ (joined r fs).length := by
  induction fs with
  | nil => exact le_refl 0
  | cons f fs ih =>
      have hle := (hfs f List.mem_cons_self).length_le
      cases fs with
      | nil => exact hle
      | cons g fs =>
          have := ih fun x hx => hfs x (List.mem_cons_of_mem f hx)
          rw [joined, separatedSamples, List.length_append, List.length_append,
            List.length_cons, List.length_cons]
          omega

/-- The waveform is made of the frames built alone exactly when each of them
is the same behind others. -/
theorem joined_eq_iff {r : IrRemote} {fs : List LoneFrame} (hfs : ∀ f ∈ fs, f.Proper)
    (hgap : ∀ f ∈ fs.dropLast, 0 < f.gap) :
    joined r fs = separatedSamples fs ↔ Joins r fs := by
  induction fs with
  | nil => exact iff_of_true rfl ⟨by simp, by simp⟩
  | cons f fs ih =>
      have hle := (hfs f List.mem_cons_self).length_le
      have hrest : ∀ x ∈ fs, x.Proper := fun x hx => hfs x (List.mem_cons_of_mem f hx)
      cases fs with
      | nil => simp [joined, separatedSamples, Joins]
      | cons g fs =>
          rw [List.dropLast_cons_cons] at hgap
          have hge := length_joined_ge (r := r) hrest
          have ih := ih hrest fun x hx => hgap x (List.mem_cons_of_mem f hx)
          rw [joined, separatedSamples, Joins, List.dropLast_cons_cons]
          constructor
          · intro heq
            have hlen := congrArg List.length heq
            rw [List.length_append, List.length_append, List.length_cons,
              List.length_cons] at hlen
            obtain ⟨hsame, htail⟩ := List.append_inj heq (by omega)
            obtain ⟨hspace, htail⟩ := List.cons.inj htail
            obtain ⟨hframes, hgaps⟩ := ih.mp htail
            exact ⟨List.forall_mem_cons.mpr ⟨hsame, hframes⟩,
              List.forall_mem_cons.mpr ⟨⟨hgap f List.mem_cons_self, hspace⟩, hgaps⟩⟩
          · rintro ⟨hframes, hgaps⟩
            obtain ⟨hsame, hframes⟩ := List.forall_mem_cons.mp hframes
            obtain ⟨⟨-, hspace⟩, hgaps⟩ := List.forall_mem_cons.mp hgaps
            rw [hsame, hspace, ih.mpr ⟨hframes, hgaps⟩]

/-! ### The samples in a buffer -/

theorem SBuf.samples_own {b : SBuf} (h : b.data = .own) : b.samples = b.content := by
  rw [SBuf.samples, h]
  rfl

theorem SBuf.samples_length_le (b : SBuf) : b.samples.length ≤ b.wptr := by
  rw [SBuf.samples]
  split
  · exact Nat.zero_le _
  · exact List.length_take_le _ _
  · exact List.length_take_le _ _

theorem checkSendBuffer_samples {b : SBuf} (h : checkSendBuffer b = true) :
    b.samples ≠ [] ∧ ∀ x ∈ b.samples, x ≠ 0 := by
  obtain ⟨hw, hall⟩ := (Bool.and_eq_true _ _).mp h
  have hw' : b.wptr ≠ 0 := bne_iff_ne.mp hw
  have hget : ∀ i < b.wptr, b.samples.getD i 0 ≠ 0 := fun i hi =>
    bne_iff_ne.mp (List.all_eq_true.mp hall i (List.mem_range.mpr hi))
  constructor
  · intro hnil
    have := hget 0 (Nat.pos_of_ne_zero hw')
    rw [hnil] at this
    exact this rfl
  · intro x hx
    obtain ⟨i, hi, rfl⟩ := List.getElem_of_mem hx
    have := hget i (hi.trans_le b.samples_length_le)
    rwa [← List.getElem_eq_getD] at this

theorem dropSpace_content {b : SBuf} (h : b.Sound) : (dropSpace b).content = synced b.content := by
  have hlen := h.content_length
  rw [dropSpace, synced, hlen]
  by_cases heven : b.wptr % 2 = 0
  · rw [if_pos heven]
    by_cases hpos : 0 < b.wptr
    · have htake : ({ b with wptr := b.wptr - 1 } : SBuf).content =
          b.content.take (b.wptr - 1) := by
        rw [SBuf.content, SBuf.content, List.take_take]
        congr 1
        exact (Nat.min_eq_left (Nat.sub_le _ _)).symm
      rw [if_pos ⟨hpos, heven⟩, htake, List.dropLast_eq_take, hlen]
    · have hnil : b.content = [] := List.eq_nil_of_length_eq_zero (by omega)
      rw [if_neg fun h0 => hpos h0.1, hnil]
      rfl
  · rw [if_neg heven, if_neg fun h0 => heven h0.2]

/-- The samples that `send_pulse` and `send_space` add are positive. -/
def SBuf.PosContent (b : SBuf) : Prop := ∀ x ∈ b.content, 0 < x

theorem SBuf.PosContent.add {b : SBuf} (h : b.PosContent) {x : ℤ} (hx : 0 < x) :
    (addSendBuffer b x).PosContent := by
  by_cases hw : b.wptr < wbufSize
  · have hsound : ({ b with tooLong := false } : SBuf).Sound := ⟨hw.le⟩
    have hext := addSendBuffer_extended hsound
      (addSendBuffer_fits (b := { b with tooLong := false }) (x := x) rfl hw).1
    have hsame : (addSendBuffer b x).content =
        (addSendBuffer { b with tooLong := false } x).content := by
      rw [addSendBuffer, addSendBuffer, dif_pos hw, dif_pos hw]
      rfl
    intro y hy
    rw [hsame, hext.content] at hy
    rcases List.mem_append.mp hy with hy | hy
    · exact h y hy
    · rw [List.mem_singleton.mp hy]
      exact hx
  · rw [addSendBuffer, dif_neg hw]
    exact h

theorem SBuf.PosContent.sendPart {b : SBuf} (h : b.PosContent) (p : Part) :
    (sendPart b p).PosContent := by
  rw [Lirc.sendPart]
  split
  · rw [sendPulse]
    split
    · exact h
    · dsimp only
      split
      · next hpos => exact h.add hpos
      · exact h
  · rw [sendSpace]
    split
    · exact h
    split
    · exact h
    · dsimp only
      split
      · next hpos => exact h.add hpos
      · exact h

theorem SBuf.PosContent.sendParts {b : SBuf} (h : b.PosContent) (ps : List Part) :
    (sendParts b ps).PosContent := by
  induction ps generalizing b with
  | nil => exact h
  | cons p ps ih => exact ih (h.sendPart p)

theorem SBuf.PosContent.closePulse {b : SBuf} (h : b.PosContent) :
    (closePulse b).PosContent := by
  rw [Lirc.closePulse]
  split
  · next hpos => exact h.add hpos
  · exact h

theorem leadFrom_pos (s : ℤ) (ps : List Part) : ∀ x ∈ leadFrom s ps, 0 < x := by
  induction ps generalizing s with
  | nil => exact fun x hx => absurd hx List.not_mem_nil
  | cons p ps ih =>
      intro x hx
      rw [leadFrom] at hx
      split at hx
      · rcases List.mem_append.mp hx with hx | hx
        · split at hx
          · next hs =>
              rw [List.mem_singleton.mp hx]
              exact hs
          · exact absurd hx List.not_mem_nil
        · split at hx
          · exact absurd hx List.not_mem_nil
          · exact ih _ x hx
      · exact ih _ x hx

/-! ### One frame -/

/-- The signals of a raw code are not negative. -/
def RawNonNeg (code : IrNcode) : Prop := ∀ sig ∈ code.signals, ∀ x ∈ sig, 0 ≤ x

/-- The fields on which the next frame depends. -/
def TxState.SameCodes (tx tx' : TxState) : Prop :=
  tx.toggleMaskState = tx'.toggleMaskState ∧ tx.transmitState = tx'.transmitState

theorem TxState.SameCodes.frameTx {tx tx' : TxState} (h : tx.SameCodes tx') (r : IrRemote)
    (sim rep : Bool) : (frameTx r sim rep tx).SameCodes (frameTx r sim rep tx') := by
  rw [Lirc.frameTx, Lirc.frameTx]
  split
  · exact h
  split
  · refine ⟨?_, h.2⟩
    change (if tx.toggleMaskState + 1 = 4 then 2 else tx.toggleMaskState + 1) =
      if tx'.toggleMaskState + 1 = 4 then 2 else tx'.toggleMaskState + 1
    rw [h.1]
  · exact h

theorem TxState.SameCodes.afterFrame {tx tx' : TxState} (h : tx.SameCodes tx') (r : IrRemote)
    (code : IrNcode) (g₁ g₂ g₃ g₄ : ℤ) :
    (afterFrame r code tx g₁ g₂).SameCodes (afterFrame r code tx' g₃ g₄) :=
  ⟨h.1, congrArg (nextTransmitState r code) h.2⟩

theorem TxState.SameCodes.countDown {tx tx' : TxState} (h : tx.SameCodes tx')
    (code : IrNcode) : (countDown code tx).SameCodes (countDown code tx') := by
  have same : ∀ tx : TxState, (Lirc.countDown code tx).SameCodes tx := fun tx => by
    rw [Lirc.countDown]
    split
    · exact ⟨rfl, rfl⟩
    · exact ⟨rfl, rfl⟩
  exact ⟨(same tx).1.trans (h.1.trans (same tx').1.symm),
    (same tx).2.trans (h.2.trans (same tx').2.symm)⟩

/-- The parts of the frame that is due. -/
def dueParts (r : IrRemote) (code : IrNcode) (rep : Bool) (tx : TxState) : List Part :=
  frameParts (r.withToggle tx.toggleMaskState) (nextCode code false tx.transmitState) rep

theorem TxState.SameCodes.dueParts {tx tx' : TxState} (h : tx.SameCodes tx') (r : IrRemote)
    (code : IrNcode) (rep : Bool) : dueParts r code rep tx = dueParts r code rep tx' := by
  rw [Lirc.dueParts, Lirc.dueParts, h.1, h.2]

/-- A frame that is not copied from raw signals is a list of parts. -/
theorem buildFrame_parts {r : IrRemote} {rep : Bool} (hraw : isRawFrame r rep = false)
    (code : IrNcode) (b : SBuf) (tx : TxState) :
    buildFrame r code false rep b tx =
      some ((sendParts b (dueParts r code rep tx)).adjusted (sumCorrection r rep)
        (if rep && hasRepeat r then b.data else .own), frameTx r false rep tx) := by
  cases hrep : rep && hasRepeat r with
  | true =>
      have hrep' : rep = true := ((Bool.and_eq_true _ _).mp hrep).1
      have hdata := sendParts_data b (repeatParts r)
      have hk : sumCorrection r rep = 0 := by
        rw [hrep']
        rfl
      have hdue : dueParts r code rep tx = repeatParts r := if_pos hrep
      have htx : frameTx r false rep tx = tx := if_pos hrep
      rw [buildFrame_repeat code false hrep, hk, hdue, htx, if_pos rfl, ← hdata, SBuf.adjusted,
        Int.sub_zero]
  | false =>
      have hnraw : isRaw r = false := by
        rw [isRawFrame, hrep] at hraw
        simpa using hraw
      have hdue : dueParts r code rep tx =
          codeParts (r.withToggle tx.toggleMaskState) (nextCode code false tx.transmitState) rep :=
        if_neg (ne_true_of_eq_false hrep)
      rw [buildFrame_code hnraw code false hrep, hdue, if_neg Bool.false_ne_true]

theorem buildFrame_raw {r : IrRemote} {rep : Bool} (hraw : isRawFrame r rep = true)
    (code : IrNcode) (b : SBuf) (tx : TxState) :
    buildFrame r code false rep b tx =
      code.signals.map fun sig =>
        (if 0 < b.wptr then sendSignals b sig
         else { b with data := .signals sig, wptr := sig.length, sum := b.sum + sig.sum }, tx) := by
  obtain ⟨hr, hnrep⟩ := (Bool.and_eq_true _ _).mp hraw
  have hrep : (rep && hasRepeat r) = false := by
    rwa [Bool.not_eq_true'] at hnrep
  rw [buildFrame, if_neg (ne_true_of_eq_false hrep), hr, if_neg (by decide)]
  cases code.signals with
  | none => rfl
  | some sig =>
      dsimp only [Option.map_some]
      split <;> rfl

/-- A frame as a single step builds it, in its parts. -/
theorem separateFrame_eq {r : IrRemote} {code : IrNcode} {rep first : Bool} {tx tx' : TxState}
    {f : LoneFrame} (h : separateFrame r code rep first tx = some (f, tx')) :
    ∃ b tx₁ gmin gmax, buildFrame r code false rep (loneBuffer r) tx = some (b, tx₁) ∧
      badSendBuffer (syncSendBuffer b) = false ∧ checkSendBuffer (syncSendBuffer b) = true ∧
      remainingGap r rep (syncSendBuffer b).sum = some (gmin, gmax) ∧
      f = ⟨rep, if first then [] else frameLead r code rep tx, (closePulse b).samples,
        (syncSendBuffer b).samples, (syncSendBuffer b).pendings, (syncSendBuffer b).sum, gmin⟩ ∧
      tx' = afterFrame r code tx₁ gmin gmax := by
  rw [separateFrame] at h
  cases hbuild : buildFrame r code false rep (loneBuffer r) tx with
  | none =>
      rw [hbuild] at h
      cases h
  | some x =>
      obtain ⟨b, tx₁⟩ := x
      simp only [hbuild] at h
      by_cases hbad : (badSendBuffer (syncSendBuffer b) || !checkSendBuffer (syncSendBuffer b)) =
          true
      · rw [if_pos hbad] at h
        cases h
      · rw [if_neg hbad] at h
        obtain ⟨hgood, hcheck⟩ := Bool.or_eq_false_iff.mp (eq_false_of_ne_true hbad)
        cases hgap : remainingGap r rep (syncSendBuffer b).sum with
        | none =>
            rw [hgap] at h
            cases h
        | some gaps =>
            obtain ⟨gmin, gmax⟩ := gaps
            simp only [hgap, Option.some.injEq, Prod.mk.injEq] at h
            exact ⟨b, tx₁, gmin, gmax, rfl, hgood, by simpa using hcheck, hgap, h.1.symm,
              h.2.symm⟩

theorem loneBuffer_inStep {r : IrRemote} {b : SBuf} (hb : b.Cleared) :
    InStep b (loneBuffer r) [] 0 where
  sound := ⟨by rw [hb.wptr]; exact Nat.zero_le _⟩
  soundLone := ⟨Nat.zero_le _⟩
  fits := rfl
  content := by rw [SBuf.content, hb.wptr]; rfl
  wptr := hb.wptr
  sum := hb.sum
  pendingp := hb.pendingp
  pendings := hb.pendings
  nonnegp := le_refl 0
  nonnegs := le_refl 0
  started := .inl rfl

theorem loneBuffer_posContent (r : IrRemote) : (loneBuffer r).PosContent :=
  fun _ hx => absurd hx List.not_mem_nil

/-- The buffer of a frame that was sent as parts, less its open pulse. -/
def partsBuffer (r : IrRemote) (code : IrNcode) (rep : Bool) (tx : TxState) (b : SBuf) : SBuf :=
  closePulse (sendParts b (dueParts r code rep tx))

/-- An empty buffer with the samples of a raw code. -/
def rawBuffer (b : SBuf) (sig : List ℤ) : SBuf :=
  { b with data := .signals sig, wptr := sig.length, sum := b.sum + sig.sum }

theorem closePulse_of_zero {b : SBuf} (h : b.pendingp = 0) : closePulse b = b := by
  rw [closePulse, if_neg (by omega)]

theorem rawBuffer_samples (b : SBuf) (sig : List ℤ) : (rawBuffer b sig).samples = sig :=
  List.take_of_length_le (le_refl _)

theorem syncSendBuffer_raw {b : SBuf} (h : b.pendingp = 0) (sig : List ℤ) :
    syncSendBuffer (rawBuffer b sig) = dropSpace (rawBuffer b sig) := by
  have hzero : (rawBuffer b sig).pendingp = 0 := h
  rw [syncSendBuffer_eq, closePulse_of_zero hzero]

theorem dropSpace_rawBuffer (b : SBuf) (sig : List ℤ) :
    (dropSpace (rawBuffer b sig)).samples = synced sig := by
  rw [dropSpace, synced]
  change SBuf.samples (if 0 < sig.length ∧ sig.length % 2 = 0 then
    { rawBuffer b sig with wptr := sig.length - 1 } else rawBuffer b sig) = _
  by_cases heven : sig.length % 2 = 0
  · rw [if_pos heven]
    by_cases hpos : 0 < sig.length
    · rw [if_pos ⟨hpos, heven⟩, List.dropLast_eq_take]
      rfl
    · have hnil : sig = [] := List.eq_nil_of_length_eq_zero (by omega)
      subst hnil
      rfl
  · rw [if_neg heven, if_neg fun h0 => heven h0.2]
    exact rawBuffer_samples b sig

theorem sendParts_notLong {b : SBuf} {ps : List Part}
    (hfit : (closePulse (sendParts b ps)).tooLong = false) : (sendParts b ps).tooLong = false := by
  by_contra hlong
  rw [closePulse_tooLong (eq_true_of_ne_false hlong)] at hfit
  cases hfit

/-- A frame that goes into an empty buffer. -/
theorem partsBuffer_inStep {r : IrRemote} (hr : Timed r) {code : IrNcode} {rep : Bool}
    {tx : TxState} {b : SBuf} (hb : b.Cleared)
    (hfit : (partsBuffer r code rep tx b).tooLong = false) :
    InStep (partsBuffer r code rep tx b) (partsBuffer r code rep tx (loneBuffer r)) [] 0 ∧
      (partsBuffer r code rep tx (loneBuffer r)).pendingp = 0 :=
  ((loneBuffer_inStep hb).sendParts ((hr.withToggle _).frameParts _ _)
    (sendParts_notLong hfit)).closePulse hfit

/-- A frame that was built alone from parts. -/
structure LoneParts (r : IrRemote) (code : IrNcode) (rep first : Bool) (tx tx' : TxState)
    (f : LoneFrame) : Prop where
  isRep : f.rep = rep
  lead : f.lead = if first then [] else leadFrom 0 (dueParts r code rep tx)
  body : f.body = (partsBuffer r code rep tx (loneBuffer r)).content
  samples : f.samples = synced f.body
  ne_nil : f.samples ≠ []
  nonzero : ∀ x ∈ f.samples, x ≠ 0
  pending : f.pending = (partsBuffer r code rep tx (loneBuffer r)).pendings
  sum : f.sum = (partsBuffer r code rep tx (loneBuffer r)).sum - sumCorrection r rep
  fits : (partsBuffer r code rep tx (loneBuffer r)).tooLong = false
  gap : ∃ gmax, remainingGap r rep f.sum = some (f.gap, gmax) ∧
    tx' = afterFrame r code (frameTx r false rep tx) f.gap gmax

/-- A frame that was built alone from raw signals. -/
structure LoneRaw (r : IrRemote) (code : IrNcode) (rep : Bool) (tx tx' : TxState)
    (f : LoneFrame) : Prop where
  isRep : f.rep = rep
  lead : f.lead = []
  body : code.signals = some f.body
  samples : f.samples = synced f.body
  ne_nil : f.samples ≠ []
  nonzero : ∀ x ∈ f.samples, x ≠ 0
  pending : f.pending = 0
  sum : f.sum = f.body.sum
  gap : ∃ gmax, remainingGap r rep f.sum = some (f.gap, gmax) ∧
    tx' = afterFrame r code tx f.gap gmax

section One

variable {r : IrRemote} {code : IrNcode} {rep first : Bool} {tx tx' : TxState} {f : LoneFrame}

theorem separateFrame_parts (hr : Timed r) (hraw : isRawFrame r rep = false)
    (h : separateFrame r code rep first tx = some (f, tx')) :
    LoneParts r code rep first tx tx' f := by
  obtain ⟨b, tx₁, gmin, gmax, hbuild, hbad, hcheck, hgap, rfl, rfl⟩ := separateFrame_eq h
  obtain ⟨hne, hnz⟩ := checkSendBuffer_samples hcheck
  rw [buildFrame_parts hraw] at hbuild
  have hdata : (if rep && hasRepeat r then (loneBuffer r).data else .own) = DataPtr.own := by
    split <;> rfl
  rw [hdata] at hbuild
  obtain ⟨hb, htx⟩ := Prod.mk.inj (Option.some.inj hbuild)
  have hclose : closePulse b =
      (partsBuffer r code rep tx (loneBuffer r)).adjusted (sumCorrection r rep) .own := by
    rw [← hb, closePulse_adjusted]
    rfl
  obtain ⟨hlong, hown, -, hpend, hsum⟩ := dropSpace_frame (closePulse b)
  have hown' : (closePulse b).data = .own := by rw [hclose]; rfl
  have hfit : (partsBuffer r code rep tx (loneBuffer r)).tooLong = false := by
    have hnlong := tooLong_of_not_bad (ne_true_of_eq_false hbad)
    rw [syncSendBuffer_eq, hlong, hclose] at hnlong
    exact hnlong
  have hsound : (closePulse b).Sound := by
    rw [hclose]
    exact ⟨(partsBuffer_inStep hr ⟨rfl, rfl, rfl, rfl⟩ hfit).1.sound.wptr_le⟩
  exact
    { isRep := rfl
      lead := by
        change (if first then [] else frameLead r code rep tx) = _
        rw [frameLead, if_neg (ne_true_of_eq_false hraw)]
        rfl
      body := by
        change (closePulse b).samples = _
        rw [SBuf.samples_own hown', hclose]
        rfl
      samples := by
        change (syncSendBuffer b).samples = synced (closePulse b).samples
        rw [syncSendBuffer_eq, SBuf.samples_own (hown.trans hown'), SBuf.samples_own hown',
          dropSpace_content hsound]
      ne_nil := hne
      nonzero := hnz
      pending := by
        change (syncSendBuffer b).pendings = _
        rw [syncSendBuffer_eq, hpend, hclose]
        rfl
      sum := by
        change (syncSendBuffer b).sum = _
        rw [syncSendBuffer_eq, hsum, hclose]
        rfl
      fits := hfit
      gap := ⟨gmax, hgap, by rw [← htx]⟩ }

theorem separateFrame_raw (hraw : isRawFrame r rep = true)
    (h : separateFrame r code rep first tx = some (f, tx')) : LoneRaw r code rep tx tx' f := by
  obtain ⟨b, tx₁, gmin, gmax, hbuild, hbad, hcheck, hgap, rfl, rfl⟩ := separateFrame_eq h
  obtain ⟨hne, hnz⟩ := checkSendBuffer_samples hcheck
  rw [buildFrame_raw hraw] at hbuild
  cases hsig : code.signals with
  | none =>
      rw [hsig] at hbuild
      cases hbuild
  | some sig =>
      have hempty : ¬0 < (loneBuffer r).wptr := lt_irrefl 0
      rw [hsig, Option.map_some, if_neg hempty] at hbuild
      obtain ⟨hb, htx⟩ := Prod.mk.inj (Option.some.inj hbuild)
      have hb : b = rawBuffer (loneBuffer r) sig := hb.symm
      have hsync := syncSendBuffer_raw (b := loneBuffer r) rfl sig
      obtain ⟨-, -, -, hpend, hsum⟩ := dropSpace_frame (rawBuffer (loneBuffer r) sig)
      have hbody : (closePulse b).samples = sig := by
        rw [hb, closePulse_of_zero (b := rawBuffer (loneBuffer r) sig) rfl]
        exact rawBuffer_samples _ sig
      exact
        { isRep := rfl
          lead := by
            change (if first then [] else frameLead r code rep tx) = _
            rw [frameLead, if_pos hraw, ite_self]
          body := by rw [hsig]; exact congrArg some hbody.symm
          samples := by
            change (syncSendBuffer b).samples = synced (closePulse b).samples
            rw [hbody, hb, hsync, dropSpace_rawBuffer]
          ne_nil := hne
          nonzero := hnz
          pending := by
            change (syncSendBuffer b).pendings = _
            rw [hb, hsync, hpend]
            rfl
          sum := by
            change (syncSendBuffer b).sum = (closePulse b).samples.sum
            rw [hbody, hb, hsync, hsum]
            exact Int.zero_add _
          gap := ⟨gmax, hgap, by rw [← htx]⟩ }

theorem separateFrame_proper (hr : Timed r) (hcode : RawNonNeg code)
    (h : separateFrame r code rep first tx = some (f, tx')) : f.Proper := by
  have hkey : f.samples = synced f.body ∧ f.samples ≠ [] ∧ (∀ x ∈ f.samples, x ≠ 0) ∧
      (∀ x ∈ f.lead ++ f.body, 0 ≤ x) ∧ 0 ≤ f.pending := by
    cases hraw : isRawFrame r rep with
    | true =>
        obtain ⟨-, hlead, hbody, hsamples, hne, hnz, hpend, -, -⟩ := separateFrame_raw hraw h
        rw [hlead, hpend]
        exact ⟨hsamples, hne, hnz, hcode f.body hbody, le_refl 0⟩
    | false =>
        obtain ⟨-, hlead, hbody, hsamples, hne, hnz, hpend, -, hfit, -⟩ :=
          separateFrame_parts hr hraw h
        have hpos := ((loneBuffer_posContent r).sendParts (dueParts r code rep tx)).closePulse
        refine ⟨hsamples, hne, hnz, List.forall_mem_append.mpr ⟨?_, ?_⟩, ?_⟩
        · intro x hx
          rw [hlead] at hx
          split at hx
          · exact absurd hx List.not_mem_nil
          · exact (leadFrom_pos _ _ x hx).le
        · rw [hbody]
          exact fun x hx => (hpos x hx).le
        · rw [hpend]
          exact (partsBuffer_inStep hr ⟨rfl, rfl, rfl, rfl⟩ hfit).1.nonnegs
  obtain ⟨hsamples, hne, hnz, hnonneg, hpend⟩ := hkey
  refine ⟨hsamples, ?_, ?_, hnonneg, hpend⟩
  · intro hnil
    rw [hsamples, hnil] at hne
    exact hne rfl
  · intro x hx
    have hge := hnonneg x (List.mem_append_right _ (mem_of_mem_synced (hsamples ▸ hx)))
    exact lt_of_le_of_ne hge (hnz x hx).symm

end One

/-! ### Frames after the first -/

/-- A buffer between two frames. -/
structure SBuf.Ready (b : SBuf) : Prop where
  own : b.data = .own
  sound : b.Sound
  pendingp : b.pendingp = 0
  pendings : b.pendings = 0
  sum : b.sum = 0
  wptr_pos : 0 < b.wptr

/-- The buffer `b` holds `xs`, and the pending space is that of the frame `f`. -/
structure SBuf.Ends (b : SBuf) (xs : List ℤ) (f : LoneFrame) : Prop where
  own : b.data = .own
  sound : b.Sound
  content : b.content = xs
  pendingp : b.pendingp = 0
  pendings : b.pendings = f.pending

theorem sendSignals_tooLong {b : SBuf} (sig : List ℤ) (h : b.tooLong = true) :
    (sendSignals b sig).tooLong = true := by
  induction sig generalizing b with
  | nil => exact h
  | cons x sig ih => exact ih (addSendBuffer_tooLong x h)

/-- Raw signals that fit are added at the end. -/
theorem sendSignals_extended {b : SBuf} (hb : b.Sound) {sig : List ℤ}
    (hfit : (sendSignals b sig).tooLong = false) :
    b.Extended (sendSignals b sig) sig ∧ (sendSignals b sig).pendingp = b.pendingp ∧
      (sendSignals b sig).pendings = b.pendings := by
  induction sig generalizing b with
  | nil => exact ⟨hb.extended_nil, rfl, rfl⟩
  | cons x sig ih =>
      have hfit' : (addSendBuffer b x).tooLong = false := by
        by_contra hlong
        have : (sendSignals b (x :: sig)).tooLong = true :=
          sendSignals_tooLong sig (eq_true_of_ne_false hlong)
        rw [this] at hfit
        cases hfit
      have hext := addSendBuffer_extended hb hfit'
      obtain ⟨hrest, hpp, hps⟩ := ih hext.sound hfit
      exact ⟨hext.trans hrest, hpp.trans (addSendBuffer_pendingp b x),
        hps.trans (addSendBuffer_pendings b x)⟩

section Behind

variable {r : IrRemote} {code : IrNcode} {b b' : SBuf} {tx tx₁ txL txL' : TxState}
  {f : LoneFrame}

theorem SBuf.Ready.leads (h : b.Ready) (r : IrRemote) :
    Leads b (loneBuffer r) b.content 0 0 where
  sound := h.sound
  fits := rfl
  content := rfl
  ne_nil := by
    intro hnil
    have hlen := h.sound.content_length
    have hpos := h.wptr_pos
    rw [hnil, List.length_nil] at hlen
    omega
  empty := rfl
  sum := h.sum
  pendingp := h.pendingp
  pendings := h.pendings
  nonneg := le_refl 0
  nopulse := rfl
  nospace := rfl

/-- A frame that goes in behind others: the spaces it begins with are samples
as well. -/
theorem frame_behind (hr : Timed r) (hb : b.Ready) (hsame : tx.SameCodes txL)
    (hbuild : buildFrame r code false true b tx = some (b', tx₁))
    (hfit : (closePulse b').tooLong = false)
    (h : separateFrame r code true false txL = some (f, txL')) :
    (closePulse b').Ends (b.content ++ (f.lead ++ f.body)) f ∧
      (closePulse b').sum = f.sum + f.lead.sum ∧
      ∀ g g', (afterFrame r code tx₁ g g').SameCodes txL' := by
  cases hraw : isRawFrame r true with
  | true =>
      obtain ⟨-, hlead, hbody, -, -, -, hpend, hsum, gmax, -, htx⟩ := separateFrame_raw hraw h
      rw [buildFrame_raw hraw, hbody, Option.map_some, if_pos hb.wptr_pos] at hbuild
      obtain ⟨rfl, rfl⟩ := Prod.mk.inj (Option.some.inj hbuild)
      have hlong : (sendSignals b f.body).tooLong = false := by
        by_contra hlong
        rw [closePulse_tooLong (eq_true_of_ne_false hlong)] at hfit
        cases hfit
      obtain ⟨hext, hpp, hps⟩ := sendSignals_extended hb.sound hlong
      rw [closePulse_of_zero (hpp.trans hb.pendingp)]
      refine ⟨⟨hext.data.trans hb.own, hext.sound, ?_, hpp.trans hb.pendingp, ?_⟩, ?_, ?_⟩
      · rw [hext.content, hlead, List.nil_append]
      · rw [hps, hb.pendings, hpend]
      · rw [hext.sum, hb.sum, hsum, hlead, List.sum_nil, Int.add_comm]
      · intro g g'
        rw [htx]
        exact hsame.afterFrame r code _ _ _ _
  | false =>
      obtain ⟨-, hlead, hbody, hsamples, hne, -, hpend, hsum, -, gmax, -, htx⟩ :=
        separateFrame_parts hr hraw h
      rw [buildFrame_parts hraw, hb.own, ite_self] at hbuild
      obtain ⟨rfl, rfl⟩ := Prod.mk.inj (Option.some.inj hbuild)
      have hclose : closePulse ((sendParts b (dueParts r code true tx)).adjusted
          (sumCorrection r true) .own) =
          (partsBuffer r code true tx b).adjusted (sumCorrection r true) .own :=
        closePulse_adjusted _ _ _
      rw [hclose] at hfit ⊢
      have hparts : dueParts r code true txL = dueParts r code true tx :=
        (hsame.dueParts r code true).symm
      have htrack : InStep (partsBuffer r code true tx b)
          (partsBuffer r code true tx (loneBuffer r))
          (b.content ++ leadFrom 0 (dueParts r code true tx))
          (leadFrom 0 (dueParts r code true tx)).sum ∧
          (partsBuffer r code true tx (loneBuffer r)).pendingp = 0 := by
        have hnonneg : NonNeg (dueParts r code true tx) := (hr.withToggle _).frameParts _ _
        have hrun := (hb.leads r).sendParts hnonneg (sendParts_notLong hfit)
        rw [Int.zero_add] at hrun
        rcases hrun with hrun | ⟨hempty, hpulse⟩
        · exact hrun.closePulse hfit
        · -- a frame without a pulse cannot be sent alone
          exfalso
          have hbody' : f.body = [] := by
            rw [hbody, partsBuffer, hparts, closePulse_of_zero hpulse, SBuf.content, hempty,
              List.take_zero]
          rw [hsamples, hbody'] at hne
          exact hne rfl
      obtain ⟨htrack, hpp⟩ := htrack
      have hlone : partsBuffer r code true txL (loneBuffer r) =
          partsBuffer r code true tx (loneBuffer r) := by
        rw [partsBuffer, partsBuffer, hparts]
      rw [if_neg Bool.false_ne_true, hparts] at hlead
      rw [hlone] at hbody hpend hsum
      refine ⟨⟨rfl, ⟨htrack.sound.wptr_le⟩, ?_, htrack.pendingp.trans hpp, ?_⟩, ?_, ?_⟩
      · rw [SBuf.adjusted_content, htrack.content, hlead, hbody, List.append_assoc]
      · rw [SBuf.adjusted_pendings, htrack.pendings, hpend]
      · rw [SBuf.adjusted_sum, htrack.sum, hsum, hlead]
        omega
      · intro g g'
        rw [htx]
        exact (hsame.frameTx r false true).afterFrame r code _ _ _ _

theorem SBuf.Ends.synced {xs : List ℤ} (h : (closePulse b).Ends xs f) :
    (syncSendBuffer b).Ends (synced xs) f ∧ (syncSendBuffer b).sum = (closePulse b).sum := by
  obtain ⟨-, hdata, hpp, hps, hsum⟩ := dropSpace_frame (closePulse b)
  rw [syncSendBuffer_eq]
  exact ⟨⟨hdata.trans h.own, dropSpace_sound h.sound,
    (dropSpace_content h.sound).trans (congrArg Lirc.synced h.content), hpp.trans h.pendingp,
    hps.trans h.pendings⟩, hsum⟩

/-- The gap after a frame. -/
theorem SBuf.Ends.addGap {xs : List ℤ} (h : b.Ends xs f) (hne : xs ≠ []) (hf : 0 ≤ f.pending)
    {g : ℤ} (hg : 0 ≤ g) (hfit : (addGap b g).tooLong = false) :
    (addGap b g).Ready ∧
      (addGap b g).content = xs ++ if 0 < f.pending + g then [f.pending + g] else [] := by
  have hw : 0 < b.wptr := by
    rw [← h.sound.content_length, h.content]
    exact List.length_pos_of_ne_nil hne
  have hs : 0 ≤ b.pendings := by
    rw [h.pendings]
    exact hf
  rw [addGap_eq hw h.pendingp hs hg, h.pendings] at hfit ⊢
  by_cases hpos : 0 < f.pending + g
  · rw [if_pos hpos] at hfit
    rw [if_pos hpos, if_pos hpos]
    have hext := addSendBuffer_extended h.sound (x := f.pending + g) hfit
    refine ⟨⟨?_, ⟨hext.sound.wptr_le⟩, ?_, rfl, rfl, ?_⟩, ?_⟩
    · exact (addSendBuffer_data _ _).trans h.own
    · exact (addSendBuffer_pendingp _ _).trans h.pendingp
    · exact addSendBuffer_wptr_pos _ hfit
    · exact hext.content.trans (congrArg (· ++ [f.pending + g]) h.content)
  · rw [if_neg hpos, if_neg hpos, List.append_nil]
    exact ⟨⟨h.own, ⟨h.sound.wptr_le⟩, h.pendingp, rfl, rfl, hw⟩, h.content⟩

end Behind

theorem buildFrame_tooLong {r : IrRemote} {code : IrNcode} {rep : Bool} {b b' : SBuf}
    {tx tx' : TxState} (hlong : b.tooLong = true)
    (h : buildFrame r code false rep b tx = some (b', tx')) : b'.tooLong = true := by
  cases hraw : isRawFrame r rep with
  | true =>
      rw [buildFrame_raw hraw] at h
      cases hsig : code.signals with
      | none =>
          rw [hsig] at h
          cases h
      | some sig =>
          rw [hsig] at h
          obtain ⟨rfl, -⟩ := Prod.mk.inj (Option.some.inj h)
          split
          · exact sendSignals_tooLong sig hlong
          · exact hlong
  | false =>
      rw [buildFrame_parts hraw] at h
      obtain ⟨rfl, -⟩ := Prod.mk.inj (Option.some.inj h)
      exact sendParts_tooLong _ hlong

/-- A waveform is completed only in a buffer that is large enough. -/
theorem initSendLoop_fits {r : IrRemote} {code : IrNcode} {fuel : ℕ} {rep : Bool} {b : SBuf}
    {tx : TxState} {frames : List Frame} {out : SendOut}
    (hrun : initSendLoop r code false fuel rep b tx frames = some out) (hok : out.ok = true) :
    b.tooLong = false := by
  cases fuel with
  | zero => cases hrun
  | succ fuel =>
      obtain ⟨b', tx', gmin, gmax, frame, hbuild, hbad, -, -⟩ := initSendLoop_step hrun hok
      by_contra hlong
      have hlong' := buildFrame_tooLong (eq_true_of_ne_false hlong) hbuild
      have hnlong := tooLong_of_not_bad (ne_true_of_eq_false hbad)
      rw [syncSendBuffer_eq, (dropSpace_frame _).1, closePulse_tooLong hlong'] at hnlong
      cases hnlong

theorem initSendLoop_frames {r : IrRemote} {code : IrNcode} {fuel : ℕ} {rep : Bool} {b : SBuf}
    {tx : TxState} {frames : List Frame} {out : SendOut}
    (hrun : initSendLoop r code false fuel rep b tx frames = some out) (hok : out.ok = true) :
    frames.length < out.frames.length := by
  induction fuel generalizing rep b tx frames with
  | zero => cases hrun
  | succ fuel ih =>
      obtain ⟨b', tx', gmin, gmax, frame, -, -, -, hnext⟩ := initSendLoop_step hrun hok
      split at hnext
      · have := ih hnext
        rw [List.length_append, List.length_singleton] at this
        omega
      · rw [hnext.2.2, List.length_append, List.length_singleton]
        omega

/-- The samples of a completed waveform have been checked. -/
theorem initSendLoop_check {r : IrRemote} {code : IrNcode} {fuel : ℕ} {rep : Bool} {b : SBuf}
    {tx : TxState} {frames : List Frame} {out : SendOut}
    (hrun : initSendLoop r code false fuel rep b tx frames = some out) (hok : out.ok = true) :
    checkSendBuffer out.buf = true := by
  induction fuel generalizing rep b tx frames with
  | zero => cases hrun
  | succ fuel ih =>
      obtain ⟨b', tx', gmin, gmax, frame, -, -, -, hnext⟩ := initSendLoop_step hrun hok
      split at hnext
      · exact ih hnext
      · rw [hnext.2.1]
        exact hnext.1

theorem addGap_tooLong {b : SBuf} (g : ℤ) (h : b.tooLong = true) :
    (addGap b g).tooLong = true := by
  have hspace : (sendSpace b g).tooLong = true := sendPart_tooLong (space g) h
  have hflush : ∀ c : SBuf, c.tooLong = true →
      (if 0 < c.pendings then { addSendBuffer c c.pendings with pendings := 0 } else c).tooLong =
        true := by
    intro c hc
    split
    · exact addSendBuffer_tooLong _ hc
    · exact hc
  exact hflush _ (closePulse_tooLong hspace)

/-- What is dropped at the end is not a sample of an earlier frame. -/
theorem synced_prefix (xs : List ℤ) {ys : List ℤ} (hys : ys ≠ []) :
    ∃ zs, synced (xs ++ ys) = xs ++ zs ∧ ∀ z ∈ zs, z ∈ ys := by
  rw [synced]
  split
  · exact ⟨ys.dropLast, List.dropLast_append_of_ne_nil hys, fun z => List.mem_of_mem_dropLast⟩
  · exact ⟨ys, rfl, fun z hz => hz⟩

/-- Gaps after repeated frames are positive. -/
def PosGap (r : IrRemote) : Prop :=
  ∀ sum g g', remainingGap r true sum = some (g, g') → 0 < g

/-- If the first gap is positive, so are the others. -/
theorem posGap_of_first {r : IrRemote} {rep : Bool} {sum g g' : ℤ}
    (h : remainingGap r rep sum = some (g, g')) (hg : 0 < g) : PosGap r := by
  intro sum₂ g₂ g₂' h₂
  rw [remainingGap] at h h₂
  split at h₂
  · next hrep =>
      obtain ⟨⟨hgap, -⟩, -⟩ : (hasRepeatGap r = true ∧ true = true) ∧ hasRepeat r = true := by
        simpa only [Bool.and_eq_true] using hrep
      have hpos : 0 < r.repeatGap := of_decide_eq_true hgap
      cases h₂
      exact Int.natCast_pos.mpr hpos
  · next hrep =>
      split at h₂
      · next hconst =>
          split at h₂
          · cases h₂
            omega
          · cases h₂
      · next hconst =>
          have hrep' : ¬(hasRepeatGap r && rep && hasRepeat r) = true := by
            intro hall
            simp only [Bool.and_eq_true] at hall hrep
            exact hrep ⟨⟨hall.1.1, trivial⟩, hall.2⟩
          rw [if_neg hrep', if_neg hconst] at h
          cases h
          cases h₂
          exact hg

/-! ### The loop -/

section Loop

variable {r : IrRemote} {code : IrNcode}

theorem separateFrames_cons {n : ℕ} {rep first : Bool} {tx : TxState} {fs : List LoneFrame}
    (h : separateFrames r code (n + 1) rep first tx = some fs) :
    ∃ f tx' rest, separateFrame r code rep first tx = some (f, tx') ∧
      separateFrames r code n true false (countDown code tx') = some rest ∧ fs = f :: rest := by
  rw [separateFrames] at h
  cases hone : separateFrame r code rep first tx with
  | none =>
      rw [hone] at h
      cases h
  | some x =>
      obtain ⟨f, tx'⟩ := x
      simp only [hone] at h
      obtain ⟨rest, hrest, rfl⟩ := Option.map_eq_some_iff.mp h
      exact ⟨f, tx', rest, rfl, hrest, rfl⟩

theorem separateFrame_gap {rep first : Bool} {tx tx' : TxState} {f : LoneFrame}
    (h : separateFrame r code rep first tx = some (f, tx')) :
    f.rep = rep ∧ ∃ gmax, remainingGap r rep f.sum = some (f.gap, gmax) := by
  obtain ⟨b, tx₁, gmin, gmax, -, -, -, hgap, rfl, -⟩ := separateFrame_eq h
  exact ⟨rfl, gmax, hgap⟩

theorem separateFrames_proper (hr : Timed r) (hcode : RawNonNeg code) {n : ℕ}
    {rep first : Bool} {tx : TxState} {fs : List LoneFrame}
    (h : separateFrames r code n rep first tx = some fs) : ∀ f ∈ fs, f.Proper := by
  induction n generalizing rep first tx fs with
  | zero =>
      cases h
      exact fun f hf => absurd hf List.not_mem_nil
  | succ n ih =>
      obtain ⟨f, tx', rest, hone, hrest, rfl⟩ := separateFrames_cons h
      exact List.forall_mem_cons.mpr ⟨separateFrame_proper hr hcode hone, ih hrest⟩

theorem separateFrames_gap (hgap : PosGap r) {n : ℕ} {first : Bool} {tx : TxState}
    {fs : List LoneFrame} (h : separateFrames r code n true first tx = some fs) :
    ∀ f ∈ fs, 0 < f.gap := by
  induction n generalizing first tx fs with
  | zero =>
      cases h
      exact fun f hf => absurd hf List.not_mem_nil
  | succ n ih =>
      obtain ⟨f, tx', rest, hone, hrest, rfl⟩ := separateFrames_cons h
      obtain ⟨-, gmax, hone⟩ := separateFrame_gap hone
      exact List.forall_mem_cons.mpr ⟨hgap _ _ _ hone, ih hrest⟩

theorem unrollRaw_own {b : SBuf} (h : b.data = .own) : unrollRaw b = b := by
  rw [unrollRaw, if_pos h]

/-- The frames after the first go in behind what the buffer holds. -/
theorem initSendLoop_joined (hr : Timed r) (hcode : RawNonNeg code) {fuel n : ℕ} {b : SBuf}
    {tx txL : TxState} {frames : List Frame} {out : SendOut} {fs : List LoneFrame}
    (hb : b.Ready) (hsame : tx.SameCodes txL)
    (hrun : initSendLoop r code false fuel true b tx frames = some out) (hok : out.ok = true)
    (hn : out.frames.length = frames.length + n)
    (hsep : separateFrames r code n true false txL = some fs) :
    out.buf.data = .own ∧ ∃ ys, out.buf.content = b.content ++ ys ∧ (∀ y ∈ ys, 0 ≤ y) ∧
      (PosGap r → b.wptr % 2 = 0 → ys = joined r fs) := by
  induction fuel generalizing n b tx txL frames fs with
  | zero => cases hrun
  | succ fuel ih =>
      obtain ⟨b', tx', gmin, gmax, frame, hbuild, hbad, hgap, hnext⟩ :=
        initSendLoop_step hrun hok
      cases n with
      | zero =>
          have := initSendLoop_frames hrun hok
          omega
      | succ n =>
      obtain ⟨f, txL', rest, hone, hrest, rfl⟩ := separateFrames_cons hsep
      have hproper := separateFrame_proper hr hcode hone
      have hlong := tooLong_of_not_bad (ne_true_of_eq_false hbad)
      rw [syncSendBuffer_eq, (dropSpace_frame _).1] at hlong
      obtain ⟨hends, hsum, htx⟩ := frame_behind hr hb hsame hbuild hlong hone
      obtain ⟨hsync, hsum'⟩ := hends.synced
      have hne : f.lead ++ f.body ≠ [] :=
        List.append_ne_nil_of_right_ne_nil f.lead hproper.ne_nil
      obtain ⟨zs, hzs, hmem⟩ := synced_prefix b.content hne
      have hnonneg : ∀ z ∈ zs, 0 ≤ z := fun z hz => hproper.nonneg z (hmem z hz)
      have hbehind : b.wptr % 2 = 0 → zs = f.behind := by
        intro heven
        have hparity : b.content.length % 2 = 0 := by
          rw [hb.sound.content_length]
          exact heven
        rw [synced_append hparity hne] at hzs
        exact (List.append_cancel_left hzs).symm
      rw [hzs] at hsync
      split at hnext
      · -- one more frame follows
        rw [unrollRaw_own hsync.own] at hnext
        have hgmin := remainingGap_nonneg hgap
        have hne' : b.content ++ zs ≠ [] := by
          have hpos := hb.wptr_pos
          rw [← hb.sound.content_length] at hpos
          exact List.append_ne_nil_of_left_ne_nil (List.ne_nil_of_length_pos hpos) zs
        obtain ⟨hready, hcontent⟩ :=
          hsync.addGap hne' hproper.pending hgmin (initSendLoop_fits hnext hok)
        have hn' : out.frames.length = (frames ++ [frame]).length + n := by
          rw [List.length_append, List.length_singleton]
          omega
        obtain ⟨hown, ys, hys, hysn, hjoin⟩ :=
          ih hready ((htx gmin gmax).countDown code) hnext hn' hrest
        rw [hcontent] at hys
        refine ⟨hown, zs ++ ((if 0 < f.pending + gmin then [f.pending + gmin] else []) ++ ys),
          ?_, ?_, ?_⟩
        · rw [hys, List.append_assoc, List.append_assoc]
        · refine List.forall_mem_append.mpr ⟨hnonneg, List.forall_mem_append.mpr ⟨?_, hysn⟩⟩
          intro y hy
          split at hy
          · next hpos =>
              rw [List.mem_singleton.mp hy]
              exact hpos.le
          · exact absurd hy List.not_mem_nil
        · intro hpos heven
          have hg : 0 < gmin := hpos _ _ _ hgap
          have hp : 0 < f.pending + gmin := by
            have := hproper.pending
            omega
          have hzs' := hbehind heven
          rw [if_pos hp] at hcontent ⊢
          -- a gap after an odd number of samples leaves an even number
          have heven' : (addGap (syncSendBuffer b') gmin).wptr % 2 = 0 := by
            have hodd := hproper.behind_odd
            rw [← hready.sound.content_length, hcontent, hzs', List.length_append,
              List.length_append, hb.sound.content_length, List.length_singleton]
            omega
          cases n with
          | zero =>
              have := initSendLoop_frames hnext hok
              omega
          | succ n =>
              obtain ⟨g, -, rest', -, -, rfl⟩ := separateFrames_cons hrest
              have hgapB : f.gapBehind r = gmin := by
                rw [LoneFrame.gapBehind, (separateFrame_gap hone).1, ← hsum, ← hsum', hgap]
                rfl
              rw [hjoin hpos heven', hzs', joined, hgapB]
              rfl
      · obtain ⟨-, hbuf, hframes⟩ := hnext
        rw [hframes, List.length_append, List.length_singleton] at hn
        obtain rfl : n = 0 := by omega
        cases hrest
        rw [hbuf]
        exact ⟨hsync.own, zs, hsync.content, hnonneg, fun _ heven => hbehind heven⟩

end Loop

/-! ### The first frame -/

section First

variable {r : IrRemote} {code : IrNcode} {rep : Bool} {b b' : SBuf} {tx tx₁ txL' : TxState}
  {f : LoneFrame}

/-- The first frame is the frame built alone; a raw one is copied before
another follows. -/
theorem frame_first (hr : Timed r) (hb : b.Cleared)
    (hown : (rep && hasRepeat r) = true → b.data = .own)
    (hbuild : buildFrame r code false rep b tx = some (b', tx₁))
    (hfit : (closePulse b').tooLong = false)
    (h : separateFrame r code rep true tx = some (f, txL')) :
    (syncSendBuffer b').samples = f.samples ∧ (syncSendBuffer b').sum = f.sum ∧ f.lead = [] ∧
      ((unrollRaw (syncSendBuffer b')).tooLong = false →
        (unrollRaw (syncSendBuffer b')).Ends f.samples f) ∧
      ∀ g g', (afterFrame r code tx₁ g g').SameCodes txL' := by
  cases hraw : isRawFrame r rep with
  | true =>
      obtain ⟨-, hlead, hbody, hsamples, -, -, hpend, hsum, gmax, -, htx⟩ :=
        separateFrame_raw hraw h
      have hempty : ¬0 < b.wptr := by
        rw [hb.wptr]
        exact lt_irrefl 0
      rw [buildFrame_raw hraw, hbody, Option.map_some, if_neg hempty] at hbuild
      obtain ⟨hb', rfl⟩ := Prod.mk.inj (Option.some.inj hbuild)
      have hb' : b' = rawBuffer b f.body := hb'.symm
      have hsync := syncSendBuffer_raw hb.pendingp f.body
      obtain ⟨-, hdata, hpp, hps, hdsum⟩ := dropSpace_frame (rawBuffer b f.body)
      rw [hb', hsync, dropSpace_rawBuffer, hdsum, hsamples]
      refine ⟨rfl, ?_, hlead, fun hroom => ?_, fun g g' => ?_⟩
      · change b.sum + f.body.sum = f.sum
        rw [hb.sum, hsum, Int.zero_add]
      · have hnown : ¬(dropSpace (rawBuffer b f.body)).data = .own := by
          rw [hdata]
          exact DataPtr.noConfusion
        rw [unrollRaw, if_neg hnown, dropSpace_rawBuffer] at hroom ⊢
        have hstart : ({ dropSpace (rawBuffer b f.body) with
            data := .own, wptr := 0 } : SBuf).Sound := ⟨Nat.zero_le _⟩
        obtain ⟨hext, hpp', hps'⟩ := sendSignals_extended hstart hroom
        exact ⟨hext.data, hext.sound, hext.content, hpp'.trans (hpp.trans hb.pendingp),
          hps'.trans ((hps.trans hb.pendings).trans hpend.symm)⟩
      · rw [htx]
        exact TxState.SameCodes.afterFrame ⟨rfl, rfl⟩ r code _ _ _ _
  | false =>
      obtain ⟨-, hlead, hbody, hsamples, -, -, hpend, hsum, -, gmax, -, htx⟩ :=
        separateFrame_parts hr hraw h
      have hdata : (if rep && hasRepeat r then b.data else .own) = DataPtr.own := by
        split
        · next hrep => exact hown hrep
        · rfl
      rw [buildFrame_parts hraw, hdata] at hbuild
      obtain ⟨rfl, rfl⟩ := Prod.mk.inj (Option.some.inj hbuild)
      have hclose : closePulse ((sendParts b (dueParts r code rep tx)).adjusted
          (sumCorrection r rep) .own) =
          (partsBuffer r code rep tx b).adjusted (sumCorrection r rep) .own :=
        closePulse_adjusted _ _ _
      rw [hclose] at hfit
      obtain ⟨htrack, hpp⟩ := partsBuffer_inStep hr hb hfit
      have hends : (closePulse ((sendParts b (dueParts r code rep tx)).adjusted
          (sumCorrection r rep) .own)).Ends f.body f := by
        rw [hclose]
        exact ⟨rfl, ⟨htrack.sound.wptr_le⟩, htrack.content.trans hbody.symm,
          htrack.pendingp.trans hpp, htrack.pendings.trans hpend.symm⟩
      obtain ⟨hsync, hsum'⟩ := hends.synced
      rw [unrollRaw_own hsync.own, SBuf.samples_own hsync.own, hsync.content, hsum', hclose,
        hsamples]
      refine ⟨rfl, ?_, hlead, fun _ => hsync, fun g g' => ?_⟩
      · rw [SBuf.adjusted_sum, htrack.sum, hsum, Int.add_zero]
      · rw [htx]
        exact TxState.SameCodes.afterFrame ⟨rfl, rfl⟩ r code _ _ _ _

end First

theorem initSend_loop {r : IrRemote} {code : IrNcode} {repeating : Bool} {b : SBuf}
    {fuel : ℕ} {out : SendOut} (hrun : initSend r code repeating b fuel = some out)
    (hok : out.ok = true) :
    initSendLoop r code false fuel repeating (startBuffer r b) (startTx r code repeating) [] =
      some out := by
  cases hsend : cannotSend r with
  | true =>
      rw [initSend, initSendOrSim, if_pos hsend] at hrun
      cases hrun
      cases hok
  | false => rwa [initSend_eq r code repeating b fuel hsend] at hrun

theorem separateFrame_first {r : IrRemote} (hr : Timed r) {code : IrNcode} {rep : Bool}
    (hcode : RawNonNeg code) {tx tx' : TxState} {f : LoneFrame}
    (h : separateFrame r code rep true tx = some (f, tx')) (hlead : f.lead = []) :
    f.behind = f.samples ∧ f.gapBehind r = f.gap := by
  obtain ⟨hrep, gmax, hgap⟩ := separateFrame_gap h
  constructor
  · rw [LoneFrame.behind, hlead, List.nil_append, (separateFrame_proper hr hcode h).samples]
  · rw [LoneFrame.gapBehind, hlead, List.sum_nil, Int.add_zero, hrep, hgap]
    rfl

/-- What `init_send` puts into the buffer are the frames as they stand behind
one another, unless there is no gap after the first. -/
theorem initSend_samples {r : IrRemote} (hr : Timed r) {code : IrNcode}
    (hcode : RawNonNeg code) {repeating : Bool} {b : SBuf} {fuel : ℕ} {out : SendOut}
    {fs : List LoneFrame} (hown : (repeating && hasRepeat r) = true → b.data = .own)
    (hrun : initSend r code repeating b fuel = some out) (hok : out.ok = true)
    (hsep : separateFrames r code out.frames.length repeating true
      (startTx r code repeating) = some fs) :
    ∃ f rest, fs = f :: rest ∧ 0 ≤ f.gap ∧ (0 < f.gap → PosGap r) ∧
      (rest = [] ∨ 0 < f.gap → out.buf.samples = joined r fs) ∧
      (∃ ys, out.buf.samples = f.samples ++ ys) ∧ ∀ y ∈ out.buf.samples, 0 < y := by
  have hloop := initSend_loop hrun hok
  cases fuel with
  | zero => cases hloop
  | succ fuel =>
  obtain ⟨b', tx', gmin, gmax, frame, hbuild, hbad, hgap, hnext⟩ := initSendLoop_step hloop hok
  have hlen := initSendLoop_frames hloop hok
  obtain ⟨n, hn⟩ : ∃ n, out.frames.length = n + 1 := ⟨_, (Nat.sub_add_cancel hlen).symm⟩
  rw [hn] at hsep
  obtain ⟨f, txL', rest, hone, hrest, rfl⟩ := separateFrames_cons hsep
  have hproper := separateFrame_proper hr hcode hone
  have hlong := tooLong_of_not_bad (ne_true_of_eq_false hbad)
  rw [syncSendBuffer_eq, (dropSpace_frame _).1] at hlong
  obtain ⟨hsamples, hsum, hlead, hends, htx⟩ :=
    frame_first hr (cleared_clearSendBuffer b _) hown hbuild hlong hone
  obtain ⟨hbehind, hgapB⟩ := separateFrame_first hr hcode hone hlead
  have hfgap : f.gap = gmin := by
    obtain ⟨-, gmax', hgap'⟩ := separateFrame_gap hone
    rw [hsum, hgap'] at hgap
    cases hgap
    rfl
  have hgmin := remainingGap_nonneg hgap
  have hnz := (checkSendBuffer_samples (initSendLoop_check hloop hok)).2
  refine ⟨f, rest, rfl, hfgap ▸ hgmin, fun hpos => posGap_of_first hgap (hfgap ▸ hpos), ?_⟩
  by_cases hlow : LowGap (afterFrame r code tx' gmin gmax)
  · -- more frames follow
    rw [if_pos hlow] at hnext
    have hfit := initSendLoop_fits hnext hok
    have hunroll : (unrollRaw (syncSendBuffer b')).tooLong = false := by
      by_contra hroom
      rw [addGap_tooLong gmin (eq_true_of_ne_false hroom)] at hfit
      cases hfit
    have hne : f.samples ≠ [] := by
      have hodd := hproper.odd
      rintro hnil
      rw [hnil] at hodd
      cases hodd
    obtain ⟨hready, hcontent⟩ := (hends hunroll).addGap hne hproper.pending hgmin hfit
    have hn' : out.frames.length = ([] ++ [frame]).length + n := by
      rw [hn, List.nil_append, List.length_singleton, Nat.add_comm]
    obtain ⟨hdata, ys, hys, hnonneg, hjoin⟩ :=
      initSendLoop_joined hr hcode hready ((htx gmin gmax).countDown code) hnext hok hn' hrest
    rw [hcontent, List.append_assoc] at hys
    rw [SBuf.samples_own hdata] at hnz ⊢
    refine ⟨fun hcase => ?_, ⟨_, hys⟩, fun y hy => ?_⟩
    · cases n with
      | zero =>
          have := initSendLoop_frames hnext hok
          omega
      | succ n =>
      obtain ⟨g, -, rest', -, -, rfl⟩ := separateFrames_cons hrest
      have hpos : 0 < f.gap := hcase.resolve_left (List.cons_ne_nil g rest')
      have hpg : 0 < f.pending + gmin := by
        have := hproper.pending
        omega
      rw [if_pos hpg] at hcontent hys
      have heven : (addGap (unrollRaw (syncSendBuffer b')) gmin).wptr % 2 = 0 := by
        have hodd := hproper.odd
        rw [← hready.sound.content_length, hcontent, List.length_append, List.length_singleton]
        omega
      rw [hys, hjoin (posGap_of_first hgap (hfgap ▸ hpos)) heven, joined, hbehind, hgapB, hfgap]
      rfl
    · refine lt_of_le_of_ne ?_ (hnz y hy).symm
      rw [hys] at hy
      rcases List.mem_append.mp hy with hy | hy
      · exact (hproper.pos y hy).le
      · rcases List.mem_append.mp hy with hy | hy
        · split at hy
          · next hpos =>
              rw [List.mem_singleton.mp hy]
              exact hpos.le
          · exact absurd hy List.not_mem_nil
        · exact hnonneg y hy
  · rw [if_neg hlow] at hnext
    obtain ⟨-, hbuf, hframes⟩ := hnext
    rw [hframes] at hn
    obtain rfl : n = 0 := by simpa using hn.symm
    cases hrest
    have hout : out.buf.samples = f.samples := by rw [hbuf, hsamples]
    rw [hout, joined, hbehind]
    exact ⟨fun _ => rfl, ⟨[], (List.append_nil _).symm⟩, hproper.pos⟩

/-! ### The waveform over time -/

/-- A waveform of several frames is the signal of the frames built one by one,
with the remaining gap after each, exactly when each frame has the same samples
behind others as alone and is followed by its own gap. -/
theorem initSend_joins {r : IrRemote} (hr : Timed r) {code : IrNcode} (hcode : RawNonNeg code)
    {repeating : Bool} {b : SBuf} {fuel : ℕ} {out : SendOut} {fs : List LoneFrame}
    (hown : (repeating && hasRepeat r) = true → b.data = .own)
    (hrun : initSend r code repeating b fuel = some out) (hok : out.ok = true)
    (hsep : separateFrames r code out.frames.length repeating true
      (startTx r code repeating) = some fs) :
    (∀ t, 0 ≤ t → carrier out.buf.samples t = level (separated fs) t) ↔ Joins r fs := by
  obtain ⟨f, rest, rfl, hgap, hposgap, hjoined, ⟨ys, hys⟩, hpos⟩ :=
    initSend_samples hr hcode hown hrun hok hsep
  have hproper := separateFrames_proper hr hcode hsep
  have hf := hproper f List.mem_cons_self
  rw [separated_eq hproper]
  by_cases hcase : rest = [] ∨ 0 < f.gap
  · have hgaps : ∀ x ∈ (f :: rest).dropLast, 0 < x.gap := by
      rcases hcase with rfl | hfirst
      · exact fun x hx => absurd hx List.not_mem_nil
      · have hrest : ∀ x ∈ rest, 0 < x.gap := by
          cases hn : out.frames.length with
          | zero =>
              rw [hn] at hsep
              cases hsep
          | succ n =>
              rw [hn] at hsep
              obtain ⟨f', tx', rest', -, hrest, heq⟩ := separateFrames_cons hsep
              obtain ⟨rfl, rfl⟩ := List.cons.inj heq
              exact separateFrames_gap (hposgap hfirst) hrest
        have hall : ∀ x ∈ f :: rest, 0 < x.gap := List.forall_mem_cons.mpr ⟨hfirst, hrest⟩
        exact fun x hx => hall x (List.mem_of_mem_dropLast hx)
    rw [hjoined hcase] at hpos ⊢
    rw [← joined_eq_iff hproper hgaps]
    constructor
    · exact eq_of_level_eq hpos (separatedSamples_pos hproper hgaps)
        (joined_odd hproper (List.cons_ne_nil f rest))
        (separatedSamples_odd hproper (List.cons_ne_nil f rest))
    · intro heq t _
      rw [heq]
      rfl
  · -- no gap after the first frame: the second one goes on at the wrong level
    obtain ⟨hmore, hzero⟩ := not_or.mp hcase
    obtain ⟨g, rest, rfl⟩ := List.exists_cons_of_ne_nil hmore
    have hg0 : f.gap = 0 := by omega
    refine iff_of_false (fun heq => ?_) fun hj => ?_
    · have hg := hproper g (List.mem_cons_of_mem f List.mem_cons_self)
      obtain ⟨z, zs, hz⟩ : ∃ z zs, g.samples = z :: zs := by
        refine List.exists_cons_of_ne_nil ?_
        rintro hnil
        have hodd := hg.odd
        rw [hnil] at hodd
        cases hodd
      obtain ⟨zs', hzs⟩ : ∃ zs', separatedSamples (g :: rest) = z :: zs' := by
        cases rest with
        | nil => exact ⟨zs, hz⟩
        | cons h rest =>
            exact ⟨zs ++ g.gap :: separatedSamples (h :: rest), by rw [separatedSamples, hz]; rfl⟩
      have hzpos : 0 < z := hg.pos z (by rw [hz]; exact List.mem_cons_self)
      have hhead : ∀ y ∈ ys.head?, 0 < y := by
        intro y hy
        refine hpos y ?_
        rw [hys]
        exact List.mem_append_right _ (List.mem_of_mem_head? hy)
      have hsum : 0 ≤ f.samples.sum := List.sum_nonneg fun x hx => (hf.pos x hx).le
      have hne := carrier_ne hf.pos hf.odd (le_refl 0) hzpos ys zs' hhead
      rw [← hys, Int.add_zero] at hne
      refine hne ((heq _ hsum).trans ?_)
      rw [separatedSamples, hg0, hzs]
      rfl
    · have := hj.2 f (by rw [List.dropLast_cons_cons]; exact List.mem_cons_self)
      omega

/-- A space encoded remote with a low gap. -/
def lowGapRemote (trail : ℤ) : IrRemote :=
  { name := ['l'], flags := spaceEnc, bits := 2, pone := 500, sone := 1500, pzero := 500,
    szero := 500, ptrail := trail, gap := 5000, minRepeat := 1 }

def lowGapCode : IrNcode := { name := ['u'], code := 1 }

/-- What is sent for the code, which is repeated once. -/
def lowGapOut (trail : ℤ) : SendOut :=
  (initSend (lowGapRemote trail) lowGapCode false initSendBuffer 2).getD default

theorem lowGapOut_eq {trail : ℤ} (h : (initSend (lowGapRemote trail) lowGapCode false
    initSendBuffer 2).isSome = true) :
    initSend (lowGapRemote trail) lowGapCode false initSendBuffer 2 = some (lowGapOut trail) := by
  obtain ⟨out, hout⟩ := Option.isSome_iff_exists.mp h
  rw [lowGapOut, hout, Option.getD_some]

/-- With a trailing pulse the two frames are 5000 apart. -/
theorem initSend_joins_lowGap :
    (lowGapOut 500).buf.samples = [500, 500, 500, 1500, 500, 5000, 500, 500, 500, 1500, 500] ∧
      ∀ t, 0 ≤ t → carrier (lowGapOut 500).buf.samples t =
        level (alternate true [500, 500, 500, 1500, 500] ++
          space 5000 :: alternate true [500, 500, 500, 1500, 500]) t := by
  have hlone : separateFrames (lowGapRemote 500) lowGapCode (lowGapOut 500).frames.length false
      true (startTx (lowGapRemote 500) lowGapCode false) =
      some [⟨false, [], [500, 500, 500, 1500, 500], [500, 500, 500, 1500, 500], 0, 3500, 5000⟩,
        ⟨true, [], [500, 500, 500, 1500, 500], [500, 500, 500, 1500, 500], 0, 3500, 5000⟩] := by
    decide +kernel
  have hrun : initSend (lowGapRemote 500) lowGapCode false initSendBuffer 2 =
      some (lowGapOut 500) := lowGapOut_eq (by decide +kernel)
  have htimed : Timed (lowGapRemote 500) := by constructor <;> decide
  exact ⟨by decide +kernel, (initSend_joins htimed (fun _ h => by cases h) (by decide) hrun
    (by decide +kernel) hlone).mpr (by decide)⟩

/-- Without a trailing pulse the space of the last bit lengthens the gap. -/
theorem initSend_lengthens_gap :
    ∃ fs, initSend (lowGapRemote 0) lowGapCode false initSendBuffer 2 = some (lowGapOut 0) ∧
      (lowGapOut 0).ok = true ∧ (lowGapOut 0).frames.length = 2 ∧
      (lowGapOut 0).tx.minRemainingGap < exactGapThreshold ∧
      separateFrames (lowGapRemote 0) lowGapCode (lowGapOut 0).frames.length false true
        (startTx (lowGapRemote 0) lowGapCode false) = some fs ∧
      carrier (lowGapOut 0).buf.samples 6500 ≠ level (separated fs) 6500 :=
  ⟨[⟨false, [], [500, 500, 500], [500, 500, 500], 1500, 1500, 5000⟩,
    ⟨true, [], [500, 500, 500], [500, 500, 500], 1500, 1500, 5000⟩],
    lowGapOut_eq (by decide +kernel), by decide +kernel, by decide +kernel, by decide +kernel,
    by decide +kernel, by decide +kernel⟩

end Lirc
