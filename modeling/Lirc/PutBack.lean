import Lirc.FrameSamples
import Lirc.Undisturbed

/-!
What the serial decoder puts back into the buffer. When the last stop bit of
a segment ends within a sample, the rest of it is written over the sample
that was read last.
-/

namespace Lirc

open Loop

/-! ### The word that was read last -/

/-- The lengths of the samples have 24 bits. -/
def ShortWords (b : RBuf) : Prop := ∀ w ∈ b.received, w < 2 * pulseBit

/-- The word in front of the reading position. -/
def LastWord (b : RBuf) (w : ℕ) : Prop := 0 < b.rptr ∧ b.data[b.rptr - 1]? = some w

theorem isPulse_eq_testBit (w : ℕ) : isPulse w = w.testBit 24 := by
  have hand : w &&& pulseBit = (w.testBit 24).toNat * 2 ^ 24 := Nat.and_two_pow w 24
  rw [isPulse, hand]
  cases w.testBit 24 <;> rfl

theorem le_of_isPulse {w : ℕ} (h : isPulse w = true) : pulseBit ≤ w := by
  rw [isPulse_eq_testBit] at h
  exact Nat.ge_two_pow_of_testBit h

theorem isPulse_of_lt {w : ℕ} (h : w < pulseBit) : isPulse w = false := by
  rw [isPulse_eq_testBit]
  exact Nat.testBit_lt_two_pow h

theorem lt_of_not_isPulse {w : ℕ} (h : isPulse w = false) (hshort : w < 2 * pulseBit) :
    w < pulseBit := by
  rw [isPulse_eq_testBit, Nat.testBit_eq_decide_div_mod_eq] at h
  have hmod : ¬w / 2 ^ 24 % 2 = 1 := of_decide_eq_false h
  have hbit : pulseBit = 2 ^ 24 := rfl
  omega

section

variable {b b' : RBuf} {w : ℕ}

theorem LastWord.mem (h : LastWord b w) : w ∈ b.received :=
  List.mem_append_left _ (List.mem_of_getElem? h.2)

theorem getNextRecBuffer_last {m : ℤ} (hle : b.rptr ≤ b.data.length)
    (h : getNextRecBuffer b m = (w, b')) (hne : w ≠ 0) : LastWord b' w := by
  rw [getNextRecBuffer, getNextRecBufferInternal] at h
  by_cases hlt : b.rptr < b.data.length
  · rw [List.getElem?_eq_getElem hlt] at h
    obtain ⟨rfl, rfl⟩ := Prod.mk.inj h
    exact ⟨Nat.succ_pos _, List.getElem?_eq_getElem hlt⟩
  · rw [List.getElem?_eq_none (not_lt.mp hlt)] at h
    dsimp only at h
    split at h
    · rcases hread : readNew (receiveTimeout m) b.input with ⟨v, rest⟩
      rw [hread] at h
      cases v with
      | zero => exact absurd (Prod.mk.inj h).1.symm hne
      | succ v =>
          obtain ⟨rfl, rfl⟩ := Prod.mk.inj h
          have heq : b.rptr = b.data.length := le_antisymm hle (not_lt.mp hlt)
          refine ⟨Nat.succ_pos _, ?_⟩
          show (b.data ++ [v + 1])[b.rptr]? = some (v + 1)
          rw [heq, List.getElem?_concat_length]
    · exact absurd (Prod.mk.inj h).1.symm hne

/-- A read that times out leaves the last word, or it comes upon a zero. -/
theorem getNextRecBuffer_timeout {m : ℤ} (h : getNextRecBuffer b m = (0, b')) {v : ℕ}
    (hlast : LastWord b v) : LastWord b' v ∨ LastWord b' 0 := by
  rw [getNextRecBuffer, getNextRecBufferInternal] at h
  cases hdata : b.data[b.rptr]? with
  | some w =>
      rw [hdata] at h
      obtain ⟨rfl, rfl⟩ := Prod.mk.inj h
      exact .inr ⟨Nat.succ_pos _, hdata⟩
  | none =>
      rw [hdata] at h
      dsimp only at h
      refine .inl ?_
      split at h
      · rcases hread : readNew (receiveTimeout m) b.input with ⟨w, rest⟩
        rw [hread] at h
        cases w with
        | zero =>
            obtain ⟨-, rfl⟩ := Prod.mk.inj h
            exact hlast
        | succ w => exact absurd (Prod.mk.inj h).1 (Nat.succ_ne_zero w)
      · obtain ⟨-, rfl⟩ := Prod.mk.inj h
        exact hlast

theorem getNextRecBuffer_inside {m : ℤ} (hle : b.rptr ≤ b.data.length)
    (h : getNextRecBuffer b m = (w, b')) : b'.rptr ≤ b'.data.length := by
  rw [getNextRecBuffer, getNextRecBufferInternal] at h
  by_cases hlt : b.rptr < b.data.length
  · rw [List.getElem?_eq_getElem hlt] at h
    obtain ⟨-, rfl⟩ := Prod.mk.inj h
    exact hlt
  · rw [List.getElem?_eq_none (not_lt.mp hlt)] at h
    dsimp only at h
    split at h
    · rcases hread : readNew (receiveTimeout m) b.input with ⟨v, rest⟩
      rw [hread] at h
      cases v with
      | zero =>
          obtain ⟨-, rfl⟩ := Prod.mk.inj h
          exact hle
      | succ v =>
          obtain ⟨-, rfl⟩ := Prod.mk.inj h
          show b.rptr + 1 ≤ (b.data ++ [v + 1]).length
          rw [List.length_append]
          exact Nat.succ_le_succ hle
    · obtain ⟨-, rfl⟩ := Prod.mk.inj h
      exact hle

end

/-! ### The stop bit of a serial signal -/

section Serial

variable (hw : Hardware) (r : IrRemote) (bits : ℕ)

/-- The sample that a round works on, with the buffer that it has been read from. -/
def sampleAtHand (x : SerialState × RBuf) : SerialState × RBuf :=
  serialLoad r (serialTotal r bits) (parityBits r) (serialMaxSpace r) (serialMaxPulse r) x.1 x.2

/-- The stop bit is awaited in a sample that is too long for it. -/
structure LongStop (x : SerialState × RBuf) : Prop where
  awaited : x.1.stopBit = true
  pending : 0 < levelPending x.1 x.2
  misfit : expect hw r (sampleAtHand r bits x).1.delta (levelPending x.1 x.2) = false
  longer : levelPending x.1 x.2 < (sampleAtHand r bits x).1.delta

/-- It is the last stop bit of the segment, and the sample is one of the first `n`. Where the
bits are not those of whole bytes any stop bit may be the last. -/
structure LeavesRest (n : ℕ) (x : SerialState × RBuf) : Prop extends LongStop hw r bits x where
  last : bits % r.bitsInByte = 0 → serialTotal r bits ≤ x.1.received
  held : bits % r.bitsInByte = 0 → (sampleAtHand r bits x).2.rptr - 1 < n

/-- The loop is over. -/
def SerialOver (x : SerialState × RBuf) : Prop :=
  ¬(x.1.received < serialTotal r bits ∨ x.1.stopBit = true)

end Serial

section Serial

variable {hw : Hardware} {r : IrRemote} {bits n : ℕ} {s s' s₁ : SerialState} {b b' b₁ : RBuf}
  {x y : SerialState × RBuf}

theorem sampleAtHand_same (h : sampleAtHand r bits (s, b) = (s₁, b₁)) (hne : s₁.delta ≠ 0) :
    s₁.space = s.space ∧ s₁.received = s.received ∧ s₁.stopBit = s.stopBit ∧
      s₁.gapDelta = s.gapDelta ∧ b₁.pendingp = b.pendingp ∧ b₁.pendings = b.pendings := by
  by_cases hzero : s.delta = 0
  · obtain ⟨hs, hp, hs', -⟩ := serialLoad_spec 0 hzero h hne
    rw [hs]
    exact ⟨rfl, rfl, rfl, rfl, hp, hs'⟩
  · rw [sampleAtHand, serialLoad, if_neg hzero] at h
    obtain ⟨rfl, rfl⟩ := Prod.mk.inj h
    exact ⟨rfl, rfl, rfl, rfl, rfl, rfl⟩

theorem levelPending_sampleAtHand (h : sampleAtHand r bits (s, b) = (s₁, b₁))
    (hne : s₁.delta ≠ 0) : levelPending s₁ b₁ = levelPending s b := by
  obtain ⟨hspace, -, -, -, hp, hs⟩ := sampleAtHand_same h hne
  rw [levelPending, levelPending, hspace, hp, hs]

theorem serialDataBody_inl (h : serialDataBody hw r bits x = .inl y) :
    (x.1.received < serialTotal r bits ∨ x.1.stopBit = true) ∧
      ∃ s₁ b₁, sampleAtHand r bits x = (s₁, b₁) ∧ s₁.delta ≠ 0 ∧
        TakeStep hw r (parityBits r) (bitTime r) (stopTime r) s₁ b₁ y.1 y.2 := serialBody_inl h

theorem serialDataBody_of_take (hgo : x.1.received < serialTotal r bits ∨ x.1.stopBit = true)
    (hload : sampleAtHand r bits x = (s₁, b₁)) (hne : s₁.delta ≠ 0)
    (h : TakeStep hw r (parityBits r) (bitTime r) (stopTime r) s₁ b₁ s' b') :
    serialDataBody hw r bits x = .inl (s', b') := by
  rw [serialDataBody, serialBody, if_pos hgo, serialRound_eq hw r hload hne, takeStep_iff.mpr h]

theorem serialTotal_mod (hwhole : bits % r.bitsInByte = 0) :
    serialTotal r bits % byteBits r (parityBits r) = 0 := by
  rw [serialTotal_eq, hwhole, Nat.add_zero, Nat.mul_mod_left]

/-- What was left behind a stop bit was left by one that is too short for its sample. It is the
last one when the loop is over. -/
def RestFrom (hw : Hardware) (r : IrRemote) (bits : ℕ) (b : RBuf) (x : SerialState × RBuf) : Prop :=
  x.1.gapDelta ≠ 0 → ∃ y, Reaches (serialDataBody hw r bits) (serialStartState r b) y ∧
    LongStop hw r bits y ∧
      (bits % r.bitsInByte = 0 → SerialOver r bits x →
        serialTotal r bits ≤ y.1.received ∧ (sampleAtHand r bits y).2.rptr = x.2.rptr)

/-- A round in which no stop bit is read. -/
theorem RestFrom.keep (h : RestFrom hw r bits b x) (hgap : y.1.gapDelta = x.1.gapDelta)
    (hgo : bits % r.bitsInByte = 0 → ¬SerialOver r bits y) : RestFrom hw r bits b y := by
  intro hne
  rw [hgap] at hne
  obtain ⟨z, hreach, hlong, -⟩ := h hne
  exact ⟨z, hreach, hlong, fun hwhole hover => absurd hover (hgo hwhole)⟩

theorem RestFrom.round (hreach : Reaches (serialDataBody hw r bits) (serialStartState r b) x)
    (h : RestFrom hw r bits b x) (hbody : serialDataBody hw r bits x = .inl y) :
    RestFrom hw r bits b y := by
  obtain ⟨hgo, s₁, b₁, hload, hsome, htake⟩ := serialDataBody_inl hbody
  obtain ⟨s, b₀⟩ := x
  obtain ⟨s', b'⟩ := y
  obtain ⟨hspace, hreceived, hstopBit, hgap, -, -⟩ := sampleAtHand_same hload hsome
  have hpendings := levelPending_sampleAtHand hload hsome
  dsimp only at hgo htake hreceived hstopBit
  rw [← hreceived, ← hstopBit] at hgo
  cases htake with
  | stop hpending hfits hstop =>
      intro hne
      obtain ⟨-, hlonger⟩ := behindPending_lt hfits hne
      have hmisfit : expect hw r s₁.delta (levelPending s₁ b₁) = false := by
        by_contra htrue
        exact hne (behindPending_of_expect (Bool.eq_true_of_not_eq_false htrue))
      refine ⟨(s, b₀), hreach, ⟨?_, ?_, ?_, ?_⟩, fun hwhole hover => ?_⟩
      · exact hstopBit.symm.trans hstop
      · exact hpendings ▸ hpending
      · rw [hload]
        exact hpendings ▸ hmisfit
      · rw [hload]
        exact hpendings ▸ hlonger
      · rw [hload]
        refine ⟨?_, rfl⟩
        have hover' := (not_or.mp hover).1
        exact hreceived ▸ not_lt.mp hover'
  | pending hpending hfits hstop =>
      refine h.keep hgap fun _ hover => ?_
      exact hover hgo
  | bit hpending hfits hbit hbyte =>
      refine h.keep hgap fun hwhole hover => ?_
      obtain ⟨hle, hstop⟩ := not_or.mp hover
      have hlt := hgo.resolve_right hstop
      have heq : serialTotal r bits = s₁.received + 1 := le_antisymm (not_lt.mp hle) hlt
      exact hbyte (heq ▸ serialTotal_mod hwhole)
  | byte hpending hfits hbit hbyte hparity hleft =>
      exact h.keep hgap fun _ hover => hover (.inr rfl)
  | rest hpending hfits hbit hsome' =>
      refine h.keep hgap fun _ hover => ?_
      exact hover hgo

/-- When no stop bit leaves a rest, nothing is put back over the samples that were held. -/
theorem rest_behind (hfree : ∀ y, Reaches (serialDataBody hw r bits) (serialStartState r b) y →
      ¬LeavesRest hw r bits n y)
    (hreach : Reaches (serialDataBody hw r bits) (serialStartState r b) x)
    (hover : SerialOver r bits x) (hgap : x.1.gapDelta ≠ 0) : n ≤ x.2.rptr - 1 := by
  have hrest : RestFrom hw r bits b x := by
    refine (hreach.invariant (I := fun z =>
      Reaches (serialDataBody hw r bits) (serialStartState r b) z ∧ RestFrom hw r bits b z)
      (fun z z' hz hbody => ?_) ⟨.refl _, fun hne => absurd rfl hne⟩).2
    exact ⟨hz.1.tail hbody, hz.2.round hz.1 hbody⟩
  obtain ⟨y, hy, hlong, hlast⟩ := hrest hgap
  by_contra hlt
  refine hfree y hy ⟨hlong, fun hwhole => (hlast hwhole hover).1, fun hwhole => ?_⟩
  rw [(hlast hwhole hover).2]
  exact not_le.mp hlt

end Serial

section Serial

variable {hw : Hardware} {r : IrRemote} {bits n : ℕ} {s s' s₁ : SerialState} {b b' b₁ : RBuf}
  {x y : SerialState × RBuf} {D : List ℕ}

theorem holds_set {i w : ℕ} (h : Holds D b) (hi : D.length ≤ i) :
    Holds D { b with data := b.data.set i w } := by
  obtain ⟨rest, hrest⟩ := h
  refine ⟨rest.set (i - D.length) w, ?_⟩
  show D ++ rest.set (i - D.length) w = b.data.set i w
  rw [← hrest, List.set_append_right _ _ hi]

/-- The rounds lead to the state that the loop ends in. -/
theorem serialRun_reaches (h : serialRun hw r bits b = (some s', b')) :
    Reaches (serialDataBody hw r bits) (serialStartState r b) (s', b') ∧
      SerialOver r bits (s', b') := by
  have hrounds : ∀ k s b, serialRounds hw r (serialTotal r bits) (parityBits r) (bitTime r)
      (stopTime r) (serialMaxSpace r) (serialMaxPulse r) k s b = (some s', b') →
      Reaches (serialDataBody hw r bits) (s, b) (s', b') ∧ SerialOver r bits (s', b') := by
    intro k
    induction k with
    | zero =>
        intro s b hk
        cases hk
    | succ k ih =>
        intro s b hk
        rw [serialRounds] at hk
        by_cases hgo : s.received < serialTotal r bits ∨ s.stopBit = true
        · rw [if_pos hgo] at hk
          cases hround : serialRound hw r (serialTotal r bits) (parityBits r) (bitTime r)
              (stopTime r) (serialMaxSpace r) (serialMaxPulse r) s b with
          | mk next b₁ =>
              rw [hround] at hk
              cases next with
              | none => cases hk
              | some s₁ =>
                  obtain ⟨hreach, hover⟩ := ih s₁ b₁ hk
                  refine ⟨.round ?_ hreach, hover⟩
                  rw [serialDataBody, serialBody, if_pos hgo, hround]
        · rw [if_neg hgo] at hk
          obtain ⟨hs, rfl⟩ := Prod.mk.inj hk
          obtain rfl := Option.some.inj hs
          exact ⟨.refl _, hgo⟩
  exact hrounds _ _ _ h

/-- The rounds of the serial decoder, and what it does behind them. -/
theorem readSerial_cases (hw : Hardware) (r : IrRemote) (bits : ℕ) (b : RBuf) :
    b.Grows (readSerial hw r bits b).2 ∨
      ∃ s b', b.Grows b' ∧ Reaches (serialDataBody hw r bits) (serialStartState r b) (s, b') ∧
        SerialOver r bits (s, b') ∧ s.gapDelta ≠ 0 ∧
        (readSerial hw r bits b).2 =
          { ungetRecBufferDelta b' s.gapDelta with pendingp := 0, pendings := 0 } := by
  have hgrows : b.Grows (serialRun hw r bits b).2 := serialRounds_grows hw r _ _ _ _ _ _ _ _ _
  unfold readSerial
  cases hrun : serialRun hw r bits b with
  | mk next b' =>
      rw [hrun] at hgrows
      cases next with
      | none => exact .inl hgrows
      | some s =>
          obtain ⟨hreach, hover⟩ := serialRun_reaches hrun
          dsimp only
          rw [serialFinish]
          by_cases hgap : s.gapDelta ≠ 0
          · rw [if_pos hgap]
            exact .inr ⟨s, b', hgrows, hreach, hover, hgap, rfl⟩
          · rw [if_neg hgap]
            exact .inl hgrows

theorem readSerial_holds (hb : Holds D b)
    (hfree : ∀ y, Reaches (serialDataBody hw r bits) (serialStartState r b) y →
      ¬LeavesRest hw r bits D.length y) : Holds D (readSerial hw r bits b).2 := by
  obtain hgrows | ⟨s, b', hgrows, hreach, hover, hgap, heq⟩ := readSerial_cases hw r bits b
  · exact hgrows.holds hb
  · rw [heq]
    exact holds_set (hgrows.holds hb) (rest_behind hfree hreach hover hgap)

/-! What the loop has read last, when a stop bit leaves a rest. -/

/-- So much of a space is left: of the word that was read last, or of the open end behind it. -/
def HeldSpace (r : IrRemote) (d : ℤ) (b : RBuf) : Prop :=
  0 < d ∧ ∃ w, LastWord b w ∧
    ((isPulse w = true ∨ w = 0) ∧ d ≤ serialMaxSpace r ∨ isPulse w = false ∧ d ≤ w)

def LastPulse (b : RBuf) : Prop := ∃ w, LastWord b w ∧ isPulse w = true

/-- A space is read behind a pulse. -/
def SampleRead (r : IrRemote) (space : Bool) (delta : ℤ) (b : RBuf) : Prop :=
  if delta = 0 then space = true → LastPulse b
  else if space then HeldSpace r delta b
  else LastPulse b

/-- What the rounds of the serial decoder keep. -/
structure SerialReads (r : IrRemote) (x : SerialState × RBuf) : Prop where
  inside : x.2.rptr ≤ x.2.data.length
  words : ShortWords x.2
  nonneg : PendingNonneg x.2
  started : 0 < x.2.pendingp → x.1.space = false ∧ x.1.stopBit = false
  read : SampleRead r x.1.space x.1.delta x.2

theorem ShortWords.grows (h : ShortWords b) (hgrows : b.Grows b') : ShortWords b' := by
  intro w hw
  rw [hgrows.1] at hw
  exact h w hw

theorem getNextPulse_read {m d : ℤ} (hle : b.rptr ≤ b.data.length)
    (h : getNextPulse b m = (d, b')) : b'.rptr ≤ b'.data.length ∧ (d ≠ 0 → LastPulse b') := by
  rw [getNextPulse] at h
  cases hfetch : getNextRecBuffer b m with
  | mk w b₂ =>
      have hinside := getNextRecBuffer_inside hle hfetch
      rw [hfetch] at h
      dsimp only at h
      by_cases hw : w = 0
      · rw [if_pos hw] at h
        obtain ⟨rfl, rfl⟩ := Prod.mk.inj h
        exact ⟨hinside, fun hne => absurd rfl hne⟩
      rw [if_neg hw] at h
      by_cases hpulse : isPulse w = true
      · rw [if_neg (by simp [hpulse])] at h
        obtain ⟨-, rfl⟩ := Prod.mk.inj h
        exact ⟨hinside, fun _ => ⟨w, getNextRecBuffer_last hle hfetch hw, hpulse⟩⟩
      · rw [if_pos (by simp [hpulse])] at h
        obtain ⟨rfl, rfl⟩ := Prod.mk.inj h
        exact ⟨hinside, fun hne => absurd rfl hne⟩

/-- Behind a pulse: the space, or what stands in its place. -/
theorem getNextSpace_read {m d : ℤ} (hle : b.rptr ≤ b.data.length) (hlast : LastPulse b)
    (h : getNextSpace b m = (d, b')) :
    b'.rptr ≤ b'.data.length ∧
      ∃ w, LastWord b' w ∧
        (d = 0 ∧ (isPulse w = true ∨ w = 0) ∨ 0 < d ∧ isPulse w = false ∧ d = w) := by
  obtain ⟨v, hv, hpulse⟩ := hlast
  rw [getNextSpace] at h
  cases hfetch : getNextRecBuffer b m with
  | mk w b₂ =>
      have hinside := getNextRecBuffer_inside hle hfetch
      rw [hfetch] at h
      dsimp only at h
      by_cases hw : w = 0
      · rw [if_pos hw] at h
        obtain ⟨rfl, rfl⟩ := Prod.mk.inj h
        subst hw
        refine ⟨hinside, ?_⟩
        obtain hlast | hlast := getNextRecBuffer_timeout hfetch hv
        · exact ⟨v, hlast, .inl ⟨rfl, .inl hpulse⟩⟩
        · exact ⟨0, hlast, .inl ⟨rfl, .inr rfl⟩⟩
      have hlast := getNextRecBuffer_last hle hfetch hw
      rw [if_neg hw] at h
      by_cases hspace : isPulse w = true
      · rw [if_pos (by simp [isSpace, hspace])] at h
        obtain ⟨rfl, rfl⟩ := Prod.mk.inj h
        exact ⟨hinside, w, hlast, .inl ⟨rfl, .inl hspace⟩⟩
      · rw [if_neg (by simp [isSpace, hspace])] at h
        obtain ⟨rfl, rfl⟩ := Prod.mk.inj h
        refine ⟨hinside, w, hlast, .inr ⟨?_, Bool.eq_false_iff.mpr hspace, rfl⟩⟩
        exact_mod_cast Nat.pos_of_ne_zero hw

/-- What a read leaves. -/
theorem sampleRead_load (hpos : PositiveTimings r) (hle : b.rptr ≤ b.data.length)
    (hread : SampleRead r s.space s.delta b) (hload : sampleAtHand r bits (s, b) = (s₁, b₁))
    (hsome : s₁.delta ≠ 0) :
    SampleRead r s₁.space s₁.delta b₁ ∧ b₁.rptr ≤ b₁.data.length ∧ b.Grows b₁ := by
  rw [sampleAtHand] at hload
  by_cases hzero : s.delta = 0
  swap
  · rw [serialLoad, if_neg hzero] at hload
    obtain ⟨rfl, rfl⟩ := Prod.mk.inj hload
    exact ⟨hread, hle, .refl b⟩
  obtain ⟨hspace, -⟩ := @sampleAtHand_same r bits s s₁ b b₁ hload hsome
  rw [SampleRead, if_pos hzero] at hread
  rw [serialLoad, if_pos hzero] at hload
  rw [SampleRead, if_neg hsome, hspace]
  by_cases hlevel : s.space = true
  · have hgrows := (getNextSpace_fetches b (serialMaxSpace r)).grows
    rw [if_pos hlevel] at hload ⊢
    cases hfetch : getNextSpace b (serialMaxSpace r) with
    | mk d b₂ =>
        obtain ⟨hinside, w, hlast, hword⟩ := getNextSpace_read hle (hread hlevel) hfetch
        rw [hfetch] at hload hgrows
        obtain ⟨rfl, rfl⟩ := Prod.mk.inj hload
        refine ⟨?_, hinside, hgrows⟩
        obtain ⟨rfl, hend⟩ | ⟨hd, hw, rfl⟩ := hword
        · dsimp only at hsome ⊢
          split at hsome
          · next hopen =>
              rw [if_pos hopen]
              exact ⟨serialMaxSpace_pos hpos, w, hlast, .inl ⟨hend, le_rfl⟩⟩
          · exact absurd rfl hsome
        · dsimp only
          rw [if_neg fun h => ne_of_gt hd h.1]
          exact ⟨hd, w, hlast, .inr ⟨hw, le_rfl⟩⟩
  · have hgrows := (getNextPulse_fetches b (serialMaxPulse r)).grows
    rw [if_neg hlevel] at hload ⊢
    cases hfetch : getNextPulse b (serialMaxPulse r) with
    | mk d b₂ =>
        obtain ⟨hinside, hlast⟩ := getNextPulse_read hle hfetch
        rw [hfetch] at hload hgrows
        obtain ⟨rfl, rfl⟩ := Prod.mk.inj hload
        dsimp only at hsome
        rw [if_neg fun h => hlevel h.2.1] at hsome
        exact ⟨hlast hsome, hinside, hgrows⟩

/-- What is left of the sample behind a part that is taken off it. -/
theorem SampleRead.take (h : SampleRead r s.space s.delta b) (hne : s.delta ≠ 0) {d : ℤ}
    (hd : d ≠ 0 → 0 < d ∧ d ≤ s.delta) (hdata : b'.data = b.data) (hrptr : b'.rptr = b.rptr) :
    SampleRead r (nextLevel s d) d b' := by
  have hlast : ∀ w, LastWord b w → LastWord b' w := fun w hw => by
    rw [LastWord, hdata, hrptr]
    exact hw
  rw [SampleRead, if_neg hne] at h
  rw [SampleRead]
  by_cases hzero : d = 0
  · rw [if_pos hzero]
    intro hnext
    rw [nextLevel, if_pos hzero] at hnext
    rw [if_neg (by simpa using hnext)] at h
    obtain ⟨w, hw, hpulse⟩ := h
    exact ⟨w, hlast w hw, hpulse⟩
  · obtain ⟨hpos, hle⟩ := hd hzero
    rw [if_neg hzero, nextLevel, if_neg hzero]
    split at h
    · next hspace =>
        rw [if_pos hspace]
        obtain ⟨-, w, hw, hword⟩ := h
        refine ⟨hpos, w, hlast w hw, ?_⟩
        exact hword.imp (And.imp_right hle.trans) (And.imp_right hle.trans)
    · next hspace =>
        rw [if_neg hspace]
        obtain ⟨w, hw, hpulse⟩ := h
        exact ⟨w, hlast w hw, hpulse⟩

theorem SerialReads.load (hpos : PositiveTimings r) (h : SerialReads r (s, b))
    (hload : sampleAtHand r bits (s, b) = (s₁, b₁)) (hsome : s₁.delta ≠ 0) :
    SerialReads r (s₁, b₁) := by
  obtain ⟨hspace, -, hstop, -, hp, hs⟩ := sampleAtHand_same hload hsome
  obtain ⟨hread, hinside, hgrows⟩ := sampleRead_load hpos h.inside h.read hload hsome
  refine ⟨hinside, h.words.grows hgrows, ?_, fun hpending => ?_, hread⟩
  · exact ⟨hp ▸ h.nonneg.1, hs ▸ h.nonneg.2⟩
  · dsimp only at hpending ⊢
    rw [hspace, hstop]
    exact h.started (hp ▸ hpending)

theorem SerialReads.take (hpos : PositiveTimings r) (h : SerialReads r (s, b)) (hne : s.delta ≠ 0)
    (htake : TakeStep hw r (parityBits r) (bitTime r) (stopTime r) s b s' b') :
    SerialReads r (s', b') := by
  have hnonneg := htake.pendingNonneg (bitTime_nonneg r) (stopTime_nonneg r) h.nonneg
  have hbehind : (expect hw r s.delta (levelPending s b) = true ∨ levelPending s b < s.delta) →
      behindPending hw r s b ≠ 0 →
      0 < behindPending hw r s b ∧ behindPending hw r s b ≤ s.delta := fun hfits hsome => by
    have hlevel : 0 ≤ levelPending s b := h.nonneg.level
    obtain ⟨heq, hlt⟩ := behindPending_lt hfits hsome
    omega
  have hbit : 0 < levelBit r s := by
    rw [levelBit]
    split
    · exact hpos.sone
    · exact hpos.pzero
  -- what is pending for a pulse is not pending where a bit is taken
  have hstarted : levelPending s b ≤ 0 → ¬0 < b.pendingp := fun hle hpending => by
    have hspace : s.space = false := (h.started hpending).1
    rw [levelPending, hspace, if_neg Bool.false_ne_true] at hle
    exact not_lt.mpr hle hpending
  cases htake with
  | stop => exact ⟨h.inside, h.words, hnonneg, fun _ => ⟨rfl, rfl⟩, fun hspace => by cases hspace⟩
  | pending hpending hfits hstop =>
      refine ⟨h.inside, h.words, hnonneg, fun hlt => absurd hlt (lt_irrefl 0), ?_⟩
      exact h.read.take hne (hbehind hfits) rfl rfl
  | bit hpending hfits hfitsBit hbyte =>
      refine ⟨h.inside, h.words, hnonneg, fun hlt => absurd hlt (hstarted hpending), ?_⟩
      refine h.read.take hne (fun hsome => ?_) rfl rfl
      obtain ⟨hlt, hle⟩ := behindBit_lt_delta h.nonneg hbit hfits hsome
      exact ⟨hlt, hle.le⟩
  | byte hpending hfits hfitsBit hbyte hparity hleft =>
      refine ⟨h.inside, h.words, hnonneg, fun hlt => absurd hlt (hstarted hpending), ?_⟩
      refine h.read.take hne (fun hsome => ?_) rfl rfl
      obtain ⟨hlt, hle⟩ := behindBit_lt_delta h.nonneg hbit hfits hsome
      exact ⟨hlt, hle.le⟩
  | rest hpending hfits hfitsBit hsome =>
      refine ⟨h.inside, h.words, hnonneg, fun hlt => absurd hlt (hstarted hpending), ?_⟩
      exact h.read.take hne (fun hzero => absurd rfl hzero) rfl rfl

theorem serialReads_of_reaches (hpos : PositiveTimings r) (hle : b.rptr ≤ b.data.length)
    (hwords : ShortWords b) (hpendings : 0 ≤ b.pendings)
    (h : Reaches (serialDataBody hw r bits) (serialStartState r b) x) : SerialReads r x := by
  refine h.invariant (I := SerialReads r) (fun x y hx hbody => ?_) ⟨hle, hwords, ?_, ?_, ?_⟩
  · obtain ⟨-, s₁, b₁, hload, hsome, htake⟩ := serialDataBody_inl hbody
    exact (hx.load hpos hload hsome).take hpos hsome htake
  · exact ⟨bitTime_nonneg r, hpendings⟩
  · intro _
    exact ⟨beq_eq_false_iff_ne.mpr (ne_of_gt hpos.base), rfl⟩
  · intro hspace
    exact absurd (eq_of_beq hspace) (ne_of_gt hpos.base)

end Serial

section Serial

variable {hw : Hardware} {r : IrRemote} {bits : ℕ} {s₁ : SerialState} {b b₁ : RBuf}
  {y : SerialState × RBuf} {D : List ℕ}

/-- What is put back differs from what stands there, and no pulse begins with it. -/
theorem HeldSpace.rest {d pending : ℤ} (h : HeldSpace r d b) (hwords : ShortWords b)
    (hmax : serialMaxSpace r ≤ pulseBit) (hpending : 0 < pending) (hlt : pending < d) :
    (d - pending).toNat < pulseBit ∧ d - pending ≠ 0 ∧
      ∃ w, LastWord b w ∧ w ≠ (d - pending).toNat := by
  obtain ⟨-, w, hlast, ⟨hend, hle⟩ | ⟨hspace, hle⟩⟩ := h
  · refine ⟨by omega, by omega, w, hlast, ?_⟩
    obtain hpulse | rfl := hend
    · have hbit := le_of_isPulse hpulse
      omega
    · omega
  · have hshort := lt_of_not_isPulse hspace (hwords w hlast.mem)
    exact ⟨by omega, by omega, w, hlast, by omega⟩

/-- One of the samples that were held has been replaced, by a space that is read next. -/
structure Spoiled (D : List ℕ) (b : RBuf) : Prop where
  changed : ¬Holds D b
  within : D.length ≤ b.data.length
  space : ∃ w, b.data[b.rptr]? = some w ∧ isPulse w = false
  pendingp : b.pendingp = 0
  pendings : b.pendings = 0

theorem spoiled_of_set {i w v : ℕ} (hb : Holds D b) (hi : i < D.length) (hv : b.data[i]? = some v)
    (hne : v ≠ w) (hspace : isPulse w = false) (sum : ℤ) :
    Spoiled D { b with rptr := i, sum := sum, data := b.data.set i w, pendingp := 0,
                       pendings := 0 } := by
  have hlen := hb.length_le
  have hset : (b.data.set i w)[i]? = some w := List.getElem?_set_self (by omega)
  refine ⟨fun h => ?_, ?_, ⟨w, hset, hspace⟩, rfl, rfl⟩
  · have hold : b.data[i]? = some D[i] := by
      obtain ⟨rest, hrest⟩ := hb
      rw [← hrest, List.getElem?_append_left hi, List.getElem?_eq_getElem hi]
    have hnew : (b.data.set i w)[i]? = some D[i] := by
      obtain ⟨rest, hrest⟩ := h
      dsimp only at hrest
      rw [← hrest, List.getElem?_append_left hi, List.getElem?_eq_getElem hi]
    rw [hset] at hnew
    rw [hold] at hv
    exact hne ((Option.some.inj hv).symm.trans (Option.some.inj hnew).symm)
  · show D.length ≤ (b.data.set i w).length
    rw [List.length_set]
    exact hlen

theorem serialDataBody_grows {x : SerialState × RBuf} (h : serialDataBody hw r bits x = .inl y) :
    x.2.Grows y.2 := by
  have hgo := (serialDataBody_inl h).1
  rw [serialDataBody, serialBody, if_pos hgo] at h
  have hgrows := serialRound_grows hw r (serialTotal r bits) (parityBits r) (bitTime r)
    (stopTime r) (serialMaxSpace r) (serialMaxPulse r) x.1 x.2
  cases hround : serialRound hw r (serialTotal r bits) (parityBits r) (bitTime r) (stopTime r)
      (serialMaxSpace r) (serialMaxPulse r) x.1 x.2 with
  | mk next b' =>
      rw [hround] at h hgrows
      cases next with
      | none => cases h
      | some s' =>
          obtain rfl := Sum.inl.inj h
          exact hgrows

/-- A space is at hand where a stop bit is pending. -/
theorem SerialReads.heldSpace {s : SerialState} (h : SerialReads r (s, b)) (hne : s.delta ≠ 0)
    (hstop : s.stopBit = true) (hpending : 0 < levelPending s b) : HeldSpace r s.delta b := by
  have hread := h.read
  dsimp only at hread
  rw [SampleRead, if_neg hne] at hread
  by_cases hspace : s.space = true
  · rwa [if_pos hspace] at hread
  · rw [levelPending, if_neg hspace] at hpending
    have hnone : s.stopBit = false := (h.started hpending).2
    rw [hstop] at hnone
    cases hnone

/-- The last stop bit leaves a rest of a sample that was held. -/
theorem getSerial_spoiled (hpos : PositiveTimings r) (hmax : serialMaxSpace r ≤ pulseBit)
    (hwhole : bits % r.bitsInByte = 0) (hle : b.rptr ≤ b.data.length) (hwords : ShortWords b)
    (hpendings : 0 ≤ b.pendings) (hb : Holds D b)
    (hreach : Reaches (serialDataBody hw r bits) (serialStartState r b) y)
    (hrest : LeavesRest hw r bits D.length y) : Spoiled D (getSerial hw r bits b).2 := by
  have hreads := serialReads_of_reaches hpos hle hwords hpendings hreach
  have hgrows : b.Grows y.2 :=
    hreach.invariant (I := fun x => b.Grows x.2)
      (fun x x' hx hbody => hx.trans (serialDataBody_grows hbody)) (.refl b)
  obtain ⟨s, b₀⟩ := y
  obtain ⟨⟨hawaited, hpending, hmisfit, hlonger⟩, hlast, hheld⟩ := hrest
  cases hload : sampleAtHand r bits (s, b₀) with
  | mk s₁ b₁ =>
      have hheld' : b₁.rptr - 1 < D.length := by
        have h := hheld hwhole
        rwa [hload] at h
      rw [hload] at hmisfit hlonger
      dsimp only at hpending hmisfit hlonger hawaited
      have hsome : s₁.delta ≠ 0 := ne_of_gt (hpending.trans hlonger)
      obtain ⟨-, hreceived, hstopBit, -⟩ := sampleAtHand_same hload hsome
      rw [← levelPending_sampleAtHand hload hsome] at hpending hmisfit hlonger
      have hreads₁ := hreads.load hpos hload hsome
      obtain ⟨-, -, hgrows₁⟩ := sampleRead_load hpos hreads.inside hreads.read hload hsome
      obtain ⟨hshort, hgap, w, hword, hne⟩ := (hreads₁.heldSpace hsome (hstopBit.trans hawaited)
        hpending).rest hreads₁.words hmax hpending hlonger
      -- the round of the stop bit is the last one
      have hround := @serialDataBody_of_take hw r bits _ s₁ _ b₁ (s, b₀) (.inr hawaited) hload hsome
        (.stop hpending (.inr hlonger) (hstopBit.trans hawaited))
      rw [behindPending_of_not hmisfit] at hround
      have hend : Returns (serialDataBody hw r bits) (serialStartState r b)
          (s₁.code, { ungetRecBufferDelta { b₁ with pendingp := bitTime r, pendings := 0 }
            (s₁.delta - levelPending s₁ b₁) with pendingp := 0, pendings := 0 }) := by
        refine (hreach.tail hround).returns_iff.mpr ⟨1, runFor_of_inr ?_⟩
        rw [serialDataBody, serialBody, if_neg, if_pos hgap]
        rintro (hlt | hstop)
        · exact not_lt.mpr (hlast hwhole) (hreceived ▸ hlt)
        · cases hstop
      have hreturns := getSerial_returns hpos.byte hpendings
        ((serialDataBody_ends_iff hpos.byte hpendings).mp ⟨_, hend⟩)
      rw [← hend.unique hreturns]
      exact spoiled_of_set ((hgrows.trans hgrows₁).holds hb) hheld' hword.2 hne
        (isPulse_of_lt hshort) _

end Serial

end Lirc
