import Lirc.Accounting
import Lirc.Resync

/-!
Attempts at a bit. A bit is tried as a one and, when that fails, the
samples are given back and it is tried as a zero. The samples given back are
a fixed number, whatever has been read and whatever was pending, so a read
that times out can lose what the attempt has used up.
-/

namespace Lirc

open Signal

/-- Remotes of the pulse and space protocols, without toggle masks, whose
bits have no empty half. A `SPACE_FIRST` remote has no `rc6_mask`: its zeros
would be sent in one order and expected in the other. -/
structure PulseSpaceCoded (r : IrRemote) : Prop where
  protocol : isRc5 r = true ∨ r.protocolIs rc6 = true ∨ isSpaceEnc r = true ∨
    isSpaceFirst r = true
  oneWay : isSpaceFirst r = true → isBiphase r = false
  noToggleBitMask : hasToggleBitMask r = false
  noToggleMask : hasToggleMask r = false
  pone_pos : 0 < r.pone
  sone_pos : 0 < r.sone
  pzero_pos : 0 < r.pzero
  szero_pos : 0 < r.szero
  plead_nonneg : 0 ≤ r.plead
  ptrail_nonneg : 0 ≤ r.ptrail
  bits_pos : 0 < bitCount r
  bits_le : bitCount r ≤ 64

/-! ### One attempt at a bit -/

/-- The halves of a bit in the order they are sent. -/
def bitHalves (r : IrRemote) (mask : IrCode) (v : Bool) : Part × Part :=
  let k := halves r mask
  if isBiphase r then
    if v then (space (k * r.sone), pulse (k * r.pone))
    else (pulse (k * r.pzero), space (k * r.szero))
  else if isSpaceFirst r then
    if v then (space r.sone, pulse r.pone) else (space r.szero, pulse r.pzero)
  else if v then (pulse r.pone, space r.sone)
  else (pulse r.pzero, space r.szero)

/-- The second half of a bit is left pending. -/
def leavesPending (r : IrRemote) : Bool :=
  isBiphase r || (!isSpaceFirst r && !decide (0 < r.ptrail))

/-- An attempt at a bit with the given halves. -/
def tryBit (hw : Hardware) (r : IrRemote) (hs : Part × Part) (b : RBuf) : Bool × RBuf :=
  match expectPart hw r b hs.1 with
  | (false, b) => (false, ungetRecBuffer b 1)
  | (true, b) =>
      if leavesPending r then
        (true, if hs.2.high then { b with pendingp := hs.2.len }
          else { b with pendings := hs.2.len })
      else
        match expectPart hw r b hs.2 with
        | (false, b) => (false, ungetRecBuffer b 2)
        | (true, b) => (true, b)

namespace PulseSpaceCoded

variable {r : IrRemote}

theorem rc6Mask_zero (hb : isBiphase r = false) : r.rc6Mask = 0 := by
  simp only [isBiphase, isRc6, Bool.or_eq_false_iff] at hb
  simpa using hb.2.2

theorem bitParts_eq (h : PulseSpaceCoded r) (mask : IrCode) (v : Bool) :
    bitParts r mask v = [(bitHalves r mask v).1, (bitHalves r mask v).2] := by
  cases hb : isBiphase r with
  | true =>
      have hs : isSpaceFirst r = false := by
        cases hs : isSpaceFirst r with
        | false => rfl
        | true => simpa [hb] using h.oneWay hs
      simp only [bitParts, oneParts, zeroParts, bitHalves, halves, hb, hs]
      cases mask &&& r.rc6Mask != 0 <;> cases v <;> simp
  | false =>
      have hm : r.rc6Mask = 0 := rc6Mask_zero hb
      cases v <;> cases hs : isSpaceFirst r <;>
        simp [bitParts, oneParts, zeroParts, bitHalves, hb, hs, hm]

theorem halves_pos (mask : IrCode) : 0 < halves r mask := by
  rw [halves]
  split <;> decide

theorem bitHalves_pos (h : PulseSpaceCoded r) (mask : IrCode) (v : Bool) :
    0 < (bitHalves r mask v).1.len ∧ 0 < (bitHalves r mask v).2.len := by
  have hk := halves_pos (r := r) mask
  have h1 := Int.mul_pos hk h.pone_pos
  have h2 := Int.mul_pos hk h.sone_pos
  have h3 := Int.mul_pos hk h.pzero_pos
  have h4 := Int.mul_pos hk h.szero_pos
  have h5 := h.pone_pos
  have h6 := h.sone_pos
  have h7 := h.pzero_pos
  have h8 := h.szero_pos
  rw [bitHalves]
  cases v <;> split
  · simp [*]
  · split <;> simp [*]
  · simp [*]
  · split <;> simp [*]

/-- Without pending halves, one and zero start with the same level. -/
theorem bitHalves_same (mask : IrCode) (hleaves : leavesPending r = false) :
    (bitHalves r mask false).1.high = (bitHalves r mask true).1.high := by
  simp only [leavesPending, Bool.or_eq_false_iff] at hleaves
  cases hs : isSpaceFirst r <;> simp [bitHalves, hleaves.1, hs]

/-- Only the zeros of a `SPACE_FIRST` remote start with a space. -/
theorem spaceFirst_of_low (mask : IrCode) (hlow : (bitHalves r mask false).1.high = false) :
    isSpaceFirst r = true ∧ isBiphase r = false := by
  cases hb : isBiphase r <;> cases hs : isSpaceFirst r <;> simp [bitHalves, hb, hs] at hlow ⊢

theorem bitHalves_high (mask : IrCode) (v : Bool) :
    (bitHalves r mask v).2.high = !(bitHalves r mask v).1.high := by
  cases v <;> cases hb : isBiphase r <;> cases hs : isSpaceFirst r <;>
    simp [bitHalves, hb, hs]

theorem expectOne_eq (h : PulseSpaceCoded r) (hw : Hardware) (bit : ℕ) (b : RBuf) :
    expectOne hw r bit b = tryBit hw r (bitHalves r (bitMask r bit) true) b := by
  have h1 := h.pone_pos
  have h2 := h.sone_pos
  cases hb : isBiphase r with
  | true =>
      simp only [expectOne, tryBit, bitHalves, halves, leavesPending, expectPart, hb, h2,
        if_true, Bool.true_or, Bool.false_eq_true, if_false]
      rcases expectSpace hw r b
        ((if bitMask r bit &&& r.rc6Mask != 0 then 2 else 1) * r.sone) with ⟨ok, b₁⟩
      cases ok <;> rfl
  | false =>
      cases hs : isSpaceFirst r with
      | true =>
          simp only [expectOne, tryBit, bitHalves, leavesPending, expectPart, hb, hs, h1, h2,
            if_true, Bool.false_or, Bool.not_true, Bool.false_and, Bool.false_eq_true, if_false]
          rcases expectSpace hw r b r.sone with ⟨ok, b₁⟩
          cases ok
          · rfl
          · simp only [Bool.not_true, Bool.false_eq_true, if_false]
            rcases expectPulse hw r b₁ r.pone with ⟨ok, b₂⟩
            cases ok <;> rfl
      | false =>
          by_cases ht : 0 < r.ptrail
          · simp only [expectOne, tryBit, bitHalves, leavesPending, expectPart, hb, hs, h1, h2, ht,
              if_true, Bool.false_or, Bool.not_false, Bool.true_and, decide_true, Bool.not_true,
              Bool.false_eq_true, if_false]
            rcases expectPulse hw r b r.pone with ⟨ok, b₁⟩
            cases ok
            · rfl
            · simp only [Bool.not_true, Bool.false_eq_true, if_false]
              rcases expectSpace hw r b₁ r.sone with ⟨ok, b₂⟩
              cases ok <;> rfl
          · simp only [expectOne, tryBit, bitHalves, leavesPending, expectPart, hb, hs, h1, ht,
              if_true, Bool.false_or, Bool.not_false, Bool.true_and, decide_false,
              Bool.false_eq_true, if_false]
            rcases expectPulse hw r b r.pone with ⟨ok, b₁⟩
            cases ok <;> rfl

theorem expectZero_eq (h : PulseSpaceCoded r) (hw : Hardware) (bit : ℕ) (b : RBuf) :
    expectZero hw r bit b = tryBit hw r (bitHalves r (bitMask r bit) false) b := by
  have h1 := h.pzero_pos
  have h2 := h.szero_pos
  cases hb : isBiphase r with
  | true =>
      simp only [expectZero, tryBit, bitHalves, halves, leavesPending, expectPart, hb,
        if_true, Bool.true_or, Bool.false_eq_true, if_false]
      rcases expectPulse hw r b
        ((if bitMask r bit &&& r.rc6Mask != 0 then 2 else 1) * r.pzero) with ⟨ok, b₁⟩
      cases ok <;> rfl
  | false =>
      cases hs : isSpaceFirst r with
      | true =>
          simp only [expectZero, tryBit, bitHalves, leavesPending, expectPart, hb, hs, h1, h2,
            if_true, Bool.false_or, Bool.not_true, Bool.false_and, Bool.false_eq_true, if_false]
          rcases expectSpace hw r b r.szero with ⟨ok, b₁⟩
          cases ok
          · rfl
          · simp only [Bool.not_true, Bool.false_eq_true, if_false]
            rcases expectPulse hw r b₁ r.pzero with ⟨ok, b₂⟩
            cases ok <;> rfl
      | false =>
          by_cases ht : 0 < r.ptrail
          · simp only [expectZero, tryBit, bitHalves, leavesPending, expectPart, hb, hs, ht,
              if_true, Bool.false_or, Bool.not_false, Bool.true_and, decide_true, Bool.not_true,
              Bool.false_eq_true, if_false]
            rcases expectPulse hw r b r.pzero with ⟨ok, b₁⟩
            cases ok
            · rfl
            · simp only [Bool.not_true, Bool.false_eq_true, if_false]
              rcases expectSpace hw r b₁ r.szero with ⟨ok, b₂⟩
              cases ok <;> rfl
          · simp only [expectZero, tryBit, bitHalves, leavesPending, expectPart, hb, hs, ht,
              if_true, Bool.false_or, Bool.not_false, Bool.true_and, decide_false,
              Bool.false_eq_true, if_false]
            rcases expectPulse hw r b r.pzero with ⟨ok, b₁⟩
            cases ok <;> rfl

end PulseSpaceCoded

/-- What is pending. -/
def RBuf.pending (b : RBuf) : Option Part :=
  if 0 < b.pendingp then some (pulse b.pendingp)
  else if 0 < b.pendings then some (space b.pendings)
  else none

/-- The word at a place of the tape is within the tolerance of a run of parts. -/
def RBuf.FitsAt (hw : Hardware) (r : IrRemote) (b : RBuf) (i : ℕ) (run : List Part) : Prop :=
  ∀ w ∈ b.received[i]?, Fits hw r run (sampleOf w)

instance (hw : Hardware) (r : IrRemote) (b : RBuf) (i : ℕ) (run : List Part) :
    Decidable (b.FitsAt hw r i run) :=
  inferInstanceAs (Decidable (∀ w ∈ b.received[i]?, _))

/-- What a failed attempt at a one keeps from the zero that is accepted after
it does no harm. When the pending part has been read and is not pending any
more, the sample it was read from fits it and the first half of the zero
together. When the attempt goes back behind the place where it began, the
sample there fits `held`, the part that was read from it, in the same way. -/
def GivesBack (hw : Hardware) (r : IrRemote) (held : Option Part) (bit : ℕ) (b : RBuf) : Prop :=
  let b' := (expectOne hw r bit b).2
  let half := (bitHalves r (bitMask r bit) false).1
  (expectOne hw r bit b).1 = false → (expectZero hw r bit b').1 = true →
    (∀ p ∈ b.pending, p.high = half.high → b'.pending = none →
      b.FitsAt hw r b.rptr [p, half]) ∧
    (b.pending = none → b'.rptr < b.rptr →
      ∃ p ∈ held, b.FitsAt hw r (b.rptr - 1) [p, half])

instance (hw : Hardware) (r : IrRemote) (held : Option Part) (bit : ℕ) (b : RBuf) :
    Decidable (GivesBack hw r held bit b) := by
  unfold GivesBack
  infer_instance

section Attempt

variable {hw : Hardware} {r : IrRemote} {R : List ℕ} {k i : ℕ} {ps : List Part} {b b' : RBuf}
  {q : Option Part} {last : Bool} {hs : Part × Part} {fit : Prop}

theorem RBuf.Sees.pending (h : b.Sees R i q) : b.pending = q := by
  have hpositive := h.positive
  rw [RBuf.pending, h.pendingp, h.pendings]
  rcases q with _ | ⟨_ | _, p⟩
  · rfl
  · have : 0 < p := hpositive _ rfl
    simp [this]
  · have : 0 < p := hpositive _ rfl
    simp [this]

/-- With nothing pending, a part is read from one word. -/
theorem RBuf.Sees.expectPart_none {p : Part} (h : b.Sees R i none)
    (heq : Lirc.expectPart hw r b p = (true, b')) :
    b'.Sees R (i + 1) none ∧ ∃ w, R[i]? = some w ∧ isPulse w = p.high := by
  obtain ⟨level, len⟩ := p
  cases level with
  | true =>
      rcases h.expectPulse_cases rfl heq with ⟨-, h', w, hw', hp, -⟩ | ⟨hfalse, -⟩
      · exact ⟨h', w, hw', hp⟩
      · simp at hfalse
  | false =>
      rcases h.expectSpace_cases rfl heq with ⟨-, h', w, hw', hp, -⟩ | ⟨hfalse, -⟩
      · exact ⟨h', w, hw', hp⟩
      · simp at hfalse

/-- The second half of a bit is announced or read. -/
def SecondHalf (hw : Hardware) (r : IrRemote) (hs : Part × Part) (b b' : RBuf) : Prop :=
  (leavesPending r = true ∧
    b' = if hs.2.high then { b with pendingp := hs.2.len } else { b with pendings := hs.2.len }) ∨
  (leavesPending r = false ∧ expectPart hw r b hs.2 = (true, b'))

theorem tryBit_true (heq : tryBit hw r hs b = (true, b')) :
    ∃ b₁, expectPart hw r b hs.1 = (true, b₁) ∧ SecondHalf hw r hs b₁ b' := by
  rw [tryBit] at heq
  rcases hfirst : expectPart hw r b hs.1 with ⟨ok, b₁⟩
  cases ok with
  | false => simp [hfirst] at heq
  | true =>
      simp only [hfirst] at heq
      refine ⟨b₁, rfl, ?_⟩
      cases hp : leavesPending r with
      | true =>
          simp only [hp, if_true, Prod.mk.injEq, true_and] at heq
          exact .inl ⟨hp, heq.symm⟩
      | false =>
          simp only [hp, Bool.false_eq_true, if_false] at heq
          rcases hsecond : expectPart hw r b₁ hs.2 with ⟨ok, b₂⟩
          cases ok with
          | false => simp [hsecond] at heq
          | true =>
              simp only [hsecond, Prod.mk.injEq, true_and] at heq
              exact .inr ⟨hp, by rw [hsecond, heq]⟩

theorem tryBit_false (heq : tryBit hw r hs b = (false, b')) :
    (∃ b₁, expectPart hw r b hs.1 = (false, b₁) ∧ b' = ungetRecBuffer b₁ 1) ∨
    (leavesPending r = false ∧ ∃ b₁ b₂, expectPart hw r b hs.1 = (true, b₁) ∧
      expectPart hw r b₁ hs.2 = (false, b₂) ∧ b' = ungetRecBuffer b₂ 2) := by
  rw [tryBit] at heq
  rcases hfirst : expectPart hw r b hs.1 with ⟨ok, b₁⟩
  cases ok with
  | false =>
      simp only [hfirst, Prod.mk.injEq, true_and] at heq
      exact .inl ⟨b₁, rfl, heq.symm⟩
  | true =>
      simp only [hfirst] at heq
      cases hp : leavesPending r with
      | true => simp [hp] at heq
      | false =>
          simp only [hp, Bool.false_eq_true, if_false] at heq
          rcases hsecond : expectPart hw r b₁ hs.2 with ⟨ok, b₂⟩
          cases ok with
          | true => simp [hsecond] at heq
          | false =>
              simp only [hsecond, Prod.mk.injEq, true_and] at heq
              exact .inr ⟨rfl, b₁, b₂, rfl, hsecond, heq.symm⟩

namespace RBuf.Reached

/-- Whatever has been found is accounted for, with what was pending. -/
theorem expectPart_found {p : Part} (h : b.Reached hw r R k i ps q last fit)
    (heq : Lirc.expectPart hw r b p = (true, b')) :
    ∃ j, b'.Reached hw r R k j (ps ++ q.toList ++ [p]) none p.high fit ∧
      (q = none → j = i + 1) := by
  rcases h.expectPart heq with ⟨-, h'⟩ | ⟨x, b₁, rfl, -, -, h'⟩
  · exact ⟨i + 1, h', fun _ => rfl⟩
  · exact ⟨i + 1 + 1, h', by simp⟩

/-- The part that was pending and another one are read from one word. -/
theorem reread {x p : Part} {b₁ : RBuf} (h : b.Reached hw r R k i ps (some x) last fit)
    (hsees : b₁.Sees R i none) (heq : Lirc.expectPart hw r b₁ p = (true, b'))
    (hlevel : x.high = p.high) {w : ℕ} (hw' : R[i]? = some w) :
    b'.Reached hw r R k (i + 1) (ps ++ [x] ++ [p]) none p.high
      (fit ∧ Fits hw r [x, p] (sampleOf w)) := by
  obtain ⟨h', v, hv, hp⟩ := hsees.expectPart_none heq
  obtain rfl : v = w := by simpa [hv] using hw'
  have hhigh : (sampleOf v).high = p.high := by
    rw [sampleOf]
    cases hpulse : isPulse v <;> simp [← hp, hpulse]
  have htracks := h.tracks.extend_iff hw' [x, p] ⟨by simp, by simp [hhigh, hlevel]⟩
  rw [List.append_assoc]
  exact ⟨h', htracks, h.start, ⟨v, hw', hp⟩, by simp⟩

/-- A zero that is accepted after a one has failed. What the failed attempt
has not given back is in the condition for the fit; when nothing was pending,
it may also have gone back behind the place where it began. -/
theorem zero_first {one zero : Part × Part} {b₁ b₂ : RBuf}
    (h : b.Reached hw r R k i ps q last fit) (hone : tryBit hw r one b = (false, b₁))
    (hzero : Lirc.expectPart hw r b₁ zero.1 = (true, b₂))
    (hsame : leavesPending r = false → zero.1.high = one.1.high) :
    (∃ j, b₂.Reached hw r R k j (ps ++ q.toList ++ [zero.1]) none zero.1.high
        (fit ∧ ∀ x ∈ q, x.high = zero.1.high → b₁.pending = none →
          ∀ w ∈ R[i]?, Fits hw r [x, zero.1] (sampleOf w)) ∧
      (q = none → j = i + 1 ∧ b₁.rptr = i)) ∨
    (q = none ∧ last = zero.1.high ∧ b₁.Sees R (i - 1) none ∧ i ≤ b₁.data.length) := by
  have hstart := h.start
  have hle := h.tracks.le
  rcases tryBit_false hone with ⟨b₃, hfirst, rfl⟩ | ⟨hleaves, b₃, b₄, hfirst, hsecond, rfl⟩
  · rcases h.expectPart_failed hfirst with (h₃ | h₃) | ⟨x, b₄, rfl, hx, h₄, h₃ | h₃⟩
    · -- nothing has been read
      have h₁ := h₃.unget (n := 1) (.inl rfl)
      have hdata := h₃.rptr_le
      rw [h₃.rptr] at hdata
      obtain ⟨w, hw', hlevel⟩ := h₁.expectPart_first hzero
      rw [h.last_eq hw'] at hlevel
      rcases q with _ | x
      · exact .inr ⟨rfl, hlevel, h₁, hdata⟩
      · exact absurd hlevel.symm (h.opposite x rfl)
    · -- a word has been read and given back
      have h₁ := h₃.unget (n := 1) (.inl rfl)
      obtain ⟨j, h₂, hj⟩ := (h.congr h₁).expectPart_found hzero
      refine .inl ⟨j, h₂.congr_fit ?_, fun hq => ⟨hj hq, h₁.rptr⟩⟩
      refine (and_iff_left fun x hx _ hnone => ?_).symm
      rw [h₁.pending] at hnone
      simp [hnone] at hx
    · -- the pending part has been read and its word given back
      have h₁ := h₃.unget (n := 1) (.inl rfl)
      obtain ⟨w, hw', hlevel⟩ := h₁.expectPart_first hzero
      have hsame : x.high = zero.1.high := (h₄.last_eq hw').symm.trans hlevel
      refine .inl ⟨i + 1, (h.reread h₁ hzero hsame hw').congr_fit ?_, by simp⟩
      have hw'' : R[i]? = some w := hw'
      simp [h₁.pending, hsame, hw'']
    · -- the pending part has been read, and another word given back
      have h₁ := h₃.unget (n := 1) (.inl rfl)
      obtain ⟨j, h₂, hj⟩ := (h₄.congr h₁).expectPart_found hzero
      obtain rfl := hj rfl
      refine .inl ⟨i + 1 + 1, ?_, by simp⟩
      rw [Option.toList_none, List.append_nil] at h₂
      by_cases hlevel : x.high = zero.1.high
      · -- two samples of one level in a row
        obtain ⟨v, hv, hpv⟩ := h₄.lastWord
        obtain ⟨w, hw', hpw⟩ := h₂.lastWord
        exact h₂.spoil hle (Nat.lt_succ_self _) hv hw' (by rw [hpv, hpw, hlevel]) _
      · refine h₂.congr_fit (and_iff_left ?_).symm
        simp [hlevel]
  · have hsame := hsame hleaves
    rcases h.expectPart hfirst with ⟨hall, h₃⟩ | ⟨x, b₅, rfl, hx, h₅, h₃⟩
    · rcases h₃.expectPart_failed hsecond with (h₄ | h₄) | ⟨_, _, hq, -⟩
      · -- the word before the first half
        have h₁ := h₄.unget (n := 2) (.inr rfl)
        obtain ⟨w, hw', hlevel⟩ := h₁.expectPart_first hzero
        have hidx : i + 1 - 2 = i - 1 := by omega
        rw [hidx] at hw' h₁
        rw [h.last_eq hw'] at hlevel
        have hdata := h₄.rptr_le
        rw [h₄.rptr] at hdata
        rcases q with _ | x
        · exact .inr ⟨rfl, hlevel, h₁, Nat.le_of_succ_le hdata⟩
        · refine absurd ?_ (h.opposite x rfl)
          rw [hlevel, Option.elim_none, hsame]
          exact hall x rfl
      · have h₁ := h₄.unget (n := 2) (.inr rfl)
        rcases q with _ | x
        · obtain ⟨j, h₂, hj⟩ := (h.congr h₁).expectPart_found hzero
          refine .inl ⟨j, h₂.congr_fit (and_iff_left (by simp)).symm, fun _ => ⟨hj rfl, h₁.rptr⟩⟩
        · -- the pending part has been read together with the first half
          have hlevel : x.high = zero.1.high := (hall x rfl).trans hsame.symm
          obtain ⟨w, hw', -⟩ := h₁.expectPart_first hzero
          refine .inl ⟨i + 1, (h.reread h₁ hzero hlevel hw').congr_fit ?_, by simp⟩
          have hw'' : R[i]? = some w := hw'
          simp [h₁.pending, hlevel, hw'']
      · simp at hq
    · rcases h₃.expectPart_failed hsecond with (h₄ | h₄) | ⟨_, _, hq, -⟩
      · -- the word of the pending part, which is of the other level
        have h₁ := h₄.unget (n := 2) (.inr rfl)
        obtain ⟨w, hw', hlevel⟩ := h₁.expectPart_first hzero
        have hlast : isPulse w = x.high := h₅.last_eq hw'
        rw [hlast, hx, Option.elim_none, hsame] at hlevel
        cases one.1.high <;> simp at hlevel
      · have h₁ := h₄.unget (n := 2) (.inr rfl)
        obtain ⟨j, h₂, -⟩ := (h₅.congr h₁).expectPart_found hzero
        refine .inl ⟨j, ?_, by simp⟩
        rw [Option.toList_none, List.append_nil] at h₂
        refine h₂.congr_fit (and_iff_left ?_).symm
        simp [hx, hsame]
      · simp at hq

/-- The second half of a bit whose first half has been found. -/
theorem secondHalf (h : b.Reached hw r R k i ps none hs.1.high fit)
    (hother : hs.2.high = !hs.1.high) (hpos : 0 < hs.2.len) (hsecond : SecondHalf hw r hs b b') :
    (leavesPending r = true ∧ b'.Reached hw r R k i ps (some hs.2) hs.1.high fit) ∨
    (leavesPending r = false ∧ b'.Reached hw r R k (i + 1) (ps ++ [hs.2]) none hs.2.high fit) := by
  rcases hsecond with ⟨hp, rfl⟩ | ⟨hp, heq⟩
  · refine .inl ⟨hp, ?_⟩
    have hne : hs.2.high ≠ hs.1.high := by simp [hother]
    obtain ⟨first, level, len⟩ := hs
    cases level with
    | true => exact h.announce hpos hne rfl h.sees.pendings
    | false => exact h.announce hpos hne h.sees.pendingp rfl
  · obtain ⟨j, h', hj⟩ := h.expectPart_found heq
    obtain rfl := hj rfl
    exact .inr ⟨hp, by simpa using h'⟩

end RBuf.Reached

end Attempt

/-! ### Bits -/

/-- The first thing behind header and lead is a bit. -/
def startsWithBit (r : IrRemote) : Bool :=
  hasPre r || decide (0 < r.bits) || !(decide (0 < r.postP) && decide (0 < r.postS))

/-- Where what has been tracked lies in the signal. The space that the signal
starts with may have been read from the space of the synchronisation; then
the condition for the fit is false. -/
inductive Lies (fit fit' : Prop) : List Part → List Part → Prop
  | whole {ps : List Part} (iff : fit' ↔ fit) : Lies fit fit' ps ps
  | behind {ps : List Part} (s : ℤ) (unfit : ¬fit) (high : StartsHigh ps) :
      Lies fit fit' ps (space s :: ps)

/-- What is known at a place of a signal. With nothing pending, the sample
before was a space; only a `SPACE_FIRST` bit ends with a pulse, and only at
its very start a signal goes on with the space of such a bit. With `ended`, a
signal without trailing pulse could end here. -/
structure Place (r : IrRemote) (k i : ℕ) (held : Option Part) (ps : List Part) (q : Option Part)
    (last ended : Bool) : Prop where
  ready : q = none → last = true → isSpaceFirst r = true ∧ isBiphase r = false
  closed : ended = true → r.ptrail = 0 → q = none → last = true
  fresh : q = none → last = false → isSpaceFirst r = true →
    ended = true ∨ startsWithBit r = true → i = k ∧ ps = [] ∧ held = none

/-- The decoder has gone through the parts `ps`, the last of which may still
be pending. -/
def RBuf.Behind (hw : Hardware) (r : IrRemote) (R : List ℕ) (k : ℕ) (held : Option Part) (b : RBuf)
    (ps : List Part) (ended : Bool) (fit : Prop) : Prop :=
  ∃ i qs q last fit', b.Reached hw r R k i qs q last fit' ∧ Lies fit fit' (qs ++ q.toList) ps ∧
    Place r k i held ps q last ended

/-- The decoder has read the space of a header, and a bit comes next that
starts with a space. -/
def RBuf.OnSpace (hw : Hardware) (r : IrRemote) (R : List ℕ) (k : ℕ) (held : Option Part) (b : RBuf)
    (ps : List Part) (fit : Prop) : Prop :=
  ∃ i qs s fit', b.Reached hw r R k (i + 1) ps none false fit' ∧ Tracks hw r R k i qs fit ∧
    held = some (space s) ∧ ps = qs ++ [space s] ∧ isSpaceFirst r = true ∧
    Lirc.isBiphase r = false ∧ startsWithBit r = true

/-- The decoder is before the signal, at the space of the synchronisation. -/
structure RBuf.Before (R : List ℕ) (k : ℕ) (b : RBuf) (q : Option Part) : Prop where
  sees : b.Sees R (k - 1) q
  held : k ≤ b.data.length
  start : 0 < k
  space : ∃ w, R[k - 1]? = some w ∧ isPulse w = false
  high : ∀ p ∈ q, p.high = true

/-- The decoder has gone through the parts `ps`. -/
def RBuf.Through (hw : Hardware) (r : IrRemote) (R : List ℕ) (k : ℕ) (held : Option Part)
    (b : RBuf) (ps : List Part) (ended : Bool) (fit : Prop) : Prop :=
  b.Behind hw r R k held ps ended fit ∨
  (ended = false ∧ (b.OnSpace hw r R k held ps fit ∨ (¬fit ∧ ∃ q, b.Before R k q ∧ ps = q.toList)))

section Lies

variable {fit fit' : Prop} {ps qs : List Part}

theorem Lies.append (h : Lies fit fit' qs ps) (others : List Part) :
    Lies fit fit' (qs ++ others) (ps ++ others) := by
  cases h with
  | whole hiff => exact .whole hiff
  | behind s unfit high => exact .behind s unfit (high.append others)

theorem Lies.and (h : Lies fit fit' qs ps) (c : Prop) : Lies (fit ∧ c) (fit' ∧ c) qs ps := by
  cases h with
  | whole hiff => exact .whole (and_congr_left' hiff)
  | behind s unfit high => exact .behind s (fun h => unfit h.1) high

end Lies

section Bits

variable {hw : Hardware} {r : IrRemote} {R : List ℕ} {k : ℕ} {held : Option Part} {ps : List Part}
  {b b' : RBuf} {ended : Bool} {bit : ℕ} {fit : Prop}

/-- A bit is behind its second half. -/
theorem RBuf.Reached.secondHalf_behind {i : ℕ} {qs : List Part} {fit' : Prop}
    (hc : PulseSpaceCoded r) (held : Option Part) (ps : List Part) (v : Bool)
    (h : b.Reached hw r R k i qs none (bitHalves r (bitMask r bit) v).1.high fit')
    (hlies : Lies fit fit' (qs ++ [(bitHalves r (bitMask r bit) v).2])
      (ps ++ [(bitHalves r (bitMask r bit) v).2]))
    (hsecond : SecondHalf hw r (bitHalves r (bitMask r bit) v) b b') :
    b'.Behind hw r R k held (ps ++ [(bitHalves r (bitMask r bit) v).2]) true fit := by
  have hpos := (hc.bitHalves_pos (bitMask r bit) v).2
  have hother := PulseSpaceCoded.bitHalves_high (r := r) (bitMask r bit) v
  rcases h.secondHalf hother hpos hsecond with ⟨-, h'⟩ | ⟨hleaves, h'⟩
  · exact ⟨i, qs, _, _, fit', h', hlies, by simp, by simp, by simp⟩
  · simp only [leavesPending, Bool.or_eq_false_iff] at hleaves
    refine ⟨i + 1, _, none, _, fit', h', by simpa using hlies, fun _ hlast => ⟨?_, hleaves.1⟩,
      fun _ htrail _ => ?_, fun _ hlast hs _ => ?_⟩
    · cases hs : isSpaceFirst r with
      | true => rfl
      | false => cases v <;> simp [bitHalves, hleaves.1, hs] at hlast
    · simp only [htrail] at hleaves
      have hs : isSpaceFirst r = true := by simpa using hleaves.2
      cases v <;> simp [bitHalves, hleaves.1, hs]
    · cases v <;> simp [bitHalves, hleaves.1, hs] at hlast

/-- What `GivesBack` says about a one that has failed and the zero after it. -/
theorem givesBack_iff (held : Option Part) {i : ℕ} {q : Option Part} {b₁ b₂ : RBuf}
    (hsees : b.Sees R i q) (hone : expectOne hw r bit b = (false, b₁))
    (hzero : expectZero hw r bit b₁ = (true, b₂)) :
    GivesBack hw r held bit b ↔
      (∀ x ∈ q, x.high = (bitHalves r (bitMask r bit) false).1.high → b₁.pending = none →
        ∀ w ∈ R[i]?, Fits hw r [x, (bitHalves r (bitMask r bit) false).1] (sampleOf w)) ∧
      (q = none → b₁.rptr < i → ∃ x ∈ held, ∀ w ∈ R[i - 1]?,
        Fits hw r [x, (bitHalves r (bitMask r bit) false).1] (sampleOf w)) := by
  simp only [GivesBack, hone, hzero, forall_const, hsees.pending, RBuf.FitsAt, hsees.received,
    hsees.rptr]

theorem givesBack_of_one {b₁ : RBuf} (hone : expectOne hw r bit b = (true, b₁)) :
    GivesBack hw r held bit b := by
  simp [GivesBack, hone]

/-! ### At the space of the synchronisation -/

/-- A space that is held is read when a part is expected, and only a space is
found there. -/
theorem RBuf.Sees.expectPart_space {i : ℕ} {q : Option Part} {p : Part} {ok : Bool}
    (h : b.Sees R i q) (hlt : i < b.data.length) {w : ℕ} (hw' : R[i]? = some w)
    (hp : isPulse w = false) (hq : ∀ x ∈ q, x.high = true)
    (heq : Lirc.expectPart hw r b p = (ok, b')) :
    b'.Sees R (i + 1) q ∧ (ok = true → q = none ∧ p.high = false) := by
  -- the word is read whatever is asked for, and it is no pulse
  have hpulse : ∀ m, ∃ c, getNextPulse b m = (0, c) ∧ c.Sees R (i + 1) q := by
    intro m
    obtain ⟨c, hread, hc, -⟩ := h.reread hlt m hw'
    exact ⟨c, by simp [getNextPulse, hread, h.ne_zero hw', hp], hc⟩
  have hlow : b.pendings = 0 := by
    rw [h.pendings]
    rcases q with _ | ⟨_ | _, x⟩
    · rfl
    · simpa using hq _ rfl
    · rfl
  obtain ⟨level, len⟩ := p
  cases level with
  | true =>
      obtain ⟨c, hread, hc⟩ := hpulse (b.pendingp + len)
      have heq' : (false, c) = (ok, b') := by
        rw [← heq]
        simp [Lirc.expectPart, expectPulse, syncPendingSpace, hlow, hread]
      obtain ⟨rfl, rfl⟩ := Prod.mk.inj heq'
      exact ⟨hc, by simp⟩
  | false =>
      by_cases hpend : 0 < b.pendingp
      · obtain ⟨c, hread, hc⟩ := hpulse b.pendingp
        have heq' : (false, c) = (ok, b') := by
          rw [← heq]
          simp [Lirc.expectPart, expectSpace, syncPendingPulse, hpend, hread]
        obtain ⟨rfl, rfl⟩ := Prod.mk.inj heq'
        exact ⟨hc, by simp⟩
      · obtain rfl : q = none := by
          rcases q with _ | ⟨_ | _, x⟩
          · rfl
          · simpa using hq _ rfl
          · rw [h.pendingp] at hpend
            exact absurd (h.positive _ rfl) hpend
        refine ⟨?_, fun _ => ⟨rfl, rfl⟩⟩
        obtain ⟨c, hread, hc, -⟩ := h.renextSpace hlt (b.pendings + len) hw' hp
        have hne : w ≠ 0 := h.ne_zero hw'
        have heq' : (expect hw r (w : ℤ) len, c) = (ok, b') := by
          rw [← heq]
          simp [Lirc.expectPart, expectSpace, syncPendingPulse, hpend, hread, hne,
            hc.pendings]
        obtain ⟨-, rfl⟩ := Prod.mk.inj heq'
        exact hc

namespace RBuf.Before

variable {q : Option Part} {hs : Part × Part}

/-- Only a space is found before the signal, and then the signal is reached. -/
theorem expectPart_found {p : Part} (h : b.Before R k q)
    (heq : Lirc.expectPart hw r b p = (true, b')) :
    q = none ∧ p.high = false ∧ b'.Reached hw r R k k [] none false True := by
  obtain ⟨w, hw', hp⟩ := h.space
  have hstart := h.start
  have hheld := h.held
  obtain ⟨h', hfound⟩ := h.sees.expectPart_space (by omega) hw' hp h.high heq
  obtain ⟨rfl, hlow⟩ := hfound rfl
  have hidx : k - 1 + 1 = k := by omega
  rw [hidx] at h'
  exact ⟨rfl, hlow, h', .nil hw r R k, hstart, ⟨w, hw', hp⟩, by simp⟩

/-- A bit that is found before the signal starts with a space and lies across
its start. -/
theorem tryBit_found (h : b.Before R k q) (hc : PulseSpaceCoded r) (held : Option Part) (v : Bool)
    (heq : tryBit hw r (bitHalves r (bitMask r bit) v) b = (true, b')) (hfit : ¬fit) :
    q = none ∧ b'.Behind hw r R k held (bitParts r (bitMask r bit) v) true fit := by
  obtain ⟨b₁, hfirst, hsecond⟩ := tryBit_true heq
  obtain ⟨rfl, hlow, h₁⟩ := h.expectPart_found hfirst
  have hother := PulseSpaceCoded.bitHalves_high (r := r) (bitMask r bit) v
  rw [← hlow] at h₁
  have hlies : Lies fit True ([] ++ [(bitHalves r (bitMask r bit) v).2])
      ([(bitHalves r (bitMask r bit) v).1] ++ [(bitHalves r (bitMask r bit) v).2]) := by
    generalize bitHalves r (bitMask r bit) v = hs at hlow hother
    obtain ⟨⟨level, s⟩, ⟨level', p⟩⟩ := hs
    simp only at hlow hother
    subst hlow
    obtain rfl : level' = true := hother
    exact .behind s hfit ⟨p, [], rfl⟩
  refine ⟨rfl, ?_⟩
  have h₂ := h₁.secondHalf_behind hc held [(bitHalves r (bitMask r bit) v).1] v hlies hsecond
  rwa [List.singleton_append, ← hc.bitParts_eq] at h₂

/-- An attempt that fails before the signal stays there, when the next one
finds a bit. -/
theorem tryBit_failed {one zero : Part × Part} {b₁ b₂ : RBuf} (h : b.Before R k q)
    (hone : tryBit hw r one b = (false, b₁)) (hzero : tryBit hw r zero b₁ = (true, b₂))
    (hother : zero.2.high = !zero.1.high)
    (hsame : leavesPending r = false → zero.1.high = one.1.high) :
    b₁.Before R k q := by
  obtain ⟨w, hw', hp⟩ := h.space
  have hstart := h.start
  have hheld := h.held
  have hidx : k - 1 + 1 = k := by omega
  rcases tryBit_false hone with ⟨b₃, hfirst, rfl⟩ | ⟨hleaves, b₃, b₄, hfirst, hsecond, rfl⟩
  · obtain ⟨h₃, -⟩ := h.sees.expectPart_space (by omega) hw' hp h.high hfirst
    rw [hidx] at h₃
    have hle := h₃.rptr_le
    rw [h₃.rptr] at hle
    exact ⟨h₃.unget (.inl rfl), hle, hstart, ⟨w, hw', hp⟩, h.high⟩
  · obtain ⟨rfl, hlow, h₃⟩ := h.expectPart_found hfirst
    obtain ⟨b₅, hfirst', hsecond'⟩ := tryBit_true hzero
    rcases h₃.expectPart_failed hsecond with (h₄ | h₄) | ⟨_, _, hq, -⟩
    · -- the word before that space would be the first half, and the space the second
      have hle := h₄.rptr_le
      rw [h₄.rptr] at hle
      have h₁ := h₄.unget (n := 2) (.inr rfl)
      by_cases hk : k = 1
      · subst hk
        exact ⟨h₁, hle, hstart, ⟨w, hw', hp⟩, by simp⟩
      · obtain ⟨h₅, -⟩ := h₁.expectPart_none hfirst'
        have hidx' : k - 2 + 1 = k - 1 := by omega
        rw [hidx'] at h₅
        rcases hsecond' with ⟨hleaves', -⟩ | ⟨-, hsecond'⟩
        · simp [hleaves] at hleaves'
        · obtain ⟨-, v, hv, hpv⟩ := h₅.expectPart_none hsecond'
          obtain rfl : w = v := by simpa [hw'] using hv
          rw [hp, hother, hsame hleaves, hlow] at hpv
          simp at hpv
    · have hle := h₄.rptr_le
      rw [h₄.rptr] at hle
      have hidx' : k + 1 - 2 = k - 1 := by omega
      have h₁ := h₄.unget (n := 2) (.inr rfl)
      rw [hidx'] at h₁
      exact ⟨h₁, by simp [ungetRecBuffer]; omega, hstart, ⟨w, hw', hp⟩, by simp⟩
    · simp at hq

end RBuf.Before

/-! ### One round of the loop -/

namespace RBuf.Behind

/-- A bit that is found as a one. -/
theorem one (h : b.Behind hw r R k held ps ended fit) (hc : PulseSpaceCoded r)
    (hone : expectOne hw r bit b = (true, b')) :
    b'.Behind hw r R k held (ps ++ bitParts r (bitMask r bit) true) true fit := by
  obtain ⟨i, qs, q, last, fit', hreached, hlies, -⟩ := h
  rw [hc.expectOne_eq] at hone
  obtain ⟨b₁, hfirst, hsecond⟩ := tryBit_true hone
  obtain ⟨j, h₁, -⟩ := hreached.expectPart_found hfirst
  have hall := hlies.append [(bitHalves r (bitMask r bit) true).1,
    (bitHalves r (bitMask r bit) true).2]
  have h₂ := h₁.secondHalf_behind hc held
    (ps ++ [(bitHalves r (bitMask r bit) true).1]) true (by simpa using hall) hsecond
  simpa [hc.bitParts_eq] using h₂

/-- A bit that is found as a zero. -/
theorem zero (h : b.Behind hw r R k held ps ended fit) (hc : PulseSpaceCoded r)
    (hfirst : ended = true ∨ startsWithBit r = true) {b₁ : RBuf}
    (hone : expectOne hw r bit b = (false, b₁)) (hzero : expectZero hw r bit b₁ = (true, b')) :
    b'.Behind hw r R k held (ps ++ bitParts r (bitMask r bit) false) true
      (fit ∧ GivesBack hw r held bit b) := by
  obtain ⟨i, qs, q, last, fit', hreached, hlies, hplace⟩ := h
  have hgives := givesBack_iff held hreached.sees hone hzero
  rw [hc.expectOne_eq] at hone
  rw [hc.expectZero_eq] at hzero
  obtain ⟨b₂, hhalf, hsecond⟩ := tryBit_true hzero
  rcases hreached.zero_first hone hhalf (PulseSpaceCoded.bitHalves_same _) with
    ⟨j, h₂, hj⟩ | ⟨rfl, hlast, h₁, hdata⟩
  · have hiff : (fit' ∧ GivesBack hw r held bit b) ↔ _ := and_congr_right' (hgives.trans
      (and_iff_left fun hq hlt => absurd (hj hq).2 (Nat.ne_of_lt hlt)))
    have h₃ := h₂.congr_fit hiff.symm
    have hall := (hlies.and (GivesBack hw r held bit b)).append
      [(bitHalves r (bitMask r bit) false).1, (bitHalves r (bitMask r bit) false).2]
    have h₄ := h₃.secondHalf_behind hc held
      (ps ++ [(bitHalves r (bitMask r bit) false).1]) false (by simpa using hall) hsecond
    simpa [hc.bitParts_eq] using h₄
  · -- the attempt at a one has gone back before the signal
    have hlow : last = false := by
      cases last with
      | false => rfl
      | true =>
          obtain ⟨hs, hb⟩ := hplace.ready rfl rfl
          simp [bitHalves, hb, hs] at hlast
    subst hlow
    obtain ⟨hs, -⟩ := PulseSpaceCoded.spaceFirst_of_low _ hlast.symm
    obtain ⟨rfl, rfl, rfl⟩ := hplace.fresh rfl rfl hs hfirst
    have hunfit : ¬(fit ∧ GivesBack hw r none bit b) := by
      rintro ⟨-, hback⟩
      have hrptr := h₁.rptr
      have hstart := hreached.start
      obtain ⟨x, hx, -⟩ := (hgives.mp hback).2 rfl (by omega)
      simp at hx
    have hbefore : b₁.Before R i none :=
      ⟨h₁, hdata, hreached.start, hreached.lastWord, by simp⟩
    exact (hbefore.tryBit_found hc none false hzero hunfit).2

end RBuf.Behind

namespace RBuf.OnSpace

/-- A one behind the space of a header is a second space in a row. -/
theorem one (h : b.OnSpace hw r R k held ps fit) (hc : PulseSpaceCoded r)
    (hone : expectOne hw r bit b = (true, b')) :
    b'.Behind hw r R k held (ps ++ bitParts r (bitMask r bit) true) true fit := by
  obtain ⟨i, qs, s, fit', hreached, htracks, -, -, hs, hb, -⟩ := h
  rw [hc.expectOne_eq] at hone
  obtain ⟨b₁, hfirst, hsecond⟩ := tryBit_true hone
  obtain ⟨j, h₁, hj⟩ := hreached.expectPart_found hfirst
  obtain rfl := hj rfl
  obtain ⟨v, hv, hpv⟩ := hreached.lastWord
  obtain ⟨w, hw', hpw⟩ := h₁.lastWord
  have hlow : (bitHalves r (bitMask r bit) true).1.high = false := by simp [bitHalves, hb, hs]
  have h₂ := h₁.spoil htracks.le (Nat.lt_succ_self _) hv hw' (by rw [hpv, hpw, hlow]) fit
  have h₃ := h₂.secondHalf_behind hc held
    (ps ++ [(bitHalves r (bitMask r bit) true).1]) true (by simpa using .whole Iff.rfl) hsecond
  simpa [hc.bitParts_eq] using h₃

/-- A zero behind the space of a header is a second space in a row, or its
space is the one of the header, read once more. -/
theorem zero (h : b.OnSpace hw r R k held ps fit) (hc : PulseSpaceCoded r) {b₁ : RBuf}
    (hone : expectOne hw r bit b = (false, b₁)) (hzero : expectZero hw r bit b₁ = (true, b')) :
    b'.Behind hw r R k held (ps ++ bitParts r (bitMask r bit) false) true
      (fit ∧ GivesBack hw r held bit b) := by
  obtain ⟨i, qs, s, fit', hreached, htracks, rfl, rfl, hs, hb, -⟩ := h
  have hgives := givesBack_iff (some (space s)) hreached.sees hone hzero
  rw [hc.expectOne_eq] at hone
  rw [hc.expectZero_eq] at hzero
  obtain ⟨b₂, hhalf, hsecond⟩ := tryBit_true hzero
  have hlow : (bitHalves r (bitMask r bit) false).1.high = false := by simp [bitHalves, hb, hs]
  obtain ⟨j, h₂⟩ : ∃ j, b₂.Reached hw r R k j
      (qs ++ [space s] ++ [(bitHalves r (bitMask r bit) false).1]) none
      (bitHalves r (bitMask r bit) false).1.high
      (fit ∧ GivesBack hw r (some (space s)) bit b) := by
    rcases hreached.zero_first hone hhalf (PulseSpaceCoded.bitHalves_same _) with
      ⟨j, h₂, hj⟩ | ⟨-, -, h₁, -⟩
    · -- the space behind the one of the header
      obtain ⟨rfl, -⟩ := hj rfl
      obtain ⟨v, hv, hpv⟩ := hreached.lastWord
      obtain ⟨w, hw', hpw⟩ := h₂.lastWord
      have h₃ := h₂.spoil htracks.le (Nat.lt_succ_self _) hv hw' (by rw [hpv, hpw, hlow])
        (fit ∧ GivesBack hw r (some (space s)) bit b)
      exact ⟨_, by simpa using h₃⟩
    · -- the space of the header once more
      rw [Nat.add_sub_cancel] at h₁
      obtain ⟨h₂, w, hw', hp⟩ := h₁.expectPart_none hhalf
      have hhigh : (sampleOf w).high = false := by
        rw [hlow] at hp
        simp [sampleOf, hp]
      have hrun := htracks.extend_iff hw'
        [space s, (bitHalves r (bitMask r bit) false).1]
        ⟨by simp, by simp [hhigh, hlow]⟩
      have hiff : GivesBack hw r (some (space s)) bit b ↔
          Fits hw r [space s, (bitHalves r (bitMask r bit) false).1] (sampleOf w) := by
        rw [hgives]
        simp [h₁.rptr, hw']
      rw [hiff, List.append_assoc]
      exact ⟨i + 1, h₂, hrun, hreached.start, ⟨w, hw', hp⟩, by simp⟩
  have h₃ := h₂.secondHalf_behind hc (some (space s))
    (qs ++ [space s] ++ [(bitHalves r (bitMask r bit) false).1]) false
    (by simpa using .whole Iff.rfl) hsecond
  simpa [hc.bitParts_eq] using h₃

end RBuf.OnSpace

/-- One round of the loop: the bit that is read is accounted for, if what the
attempt at a one has kept does no harm. -/
theorem RBuf.Through.readBit (h : b.Through hw r R k held ps ended fit) (hc : PulseSpaceCoded r)
    (hfirst : ended = true ∨ startsWithBit r = true) {v : Bool}
    (heq : Lirc.readBit hw r bit b = (some v, b')) :
    b'.Behind hw r R k held (ps ++ bitParts r (bitMask r bit) v) true
      (fit ∧ GivesBack hw r held bit b) := by
  rw [Lirc.readBit] at heq
  rcases hone : expectOne hw r bit b with ⟨ok, b₁⟩
  cases ok with
  | true =>
      simp only [hone, Prod.mk.injEq, Option.some.injEq] at heq
      obtain ⟨rfl, rfl⟩ := heq
      rw [and_iff_left (givesBack_of_one hone)]
      rcases h with h | ⟨-, h | ⟨hunfit, q, h, rfl⟩⟩
      · exact h.one hc hone
      · exact h.one hc hone
      · rw [hc.expectOne_eq] at hone
        obtain ⟨rfl, h'⟩ := h.tryBit_found hc held true hone hunfit
        exact h'
  | false =>
      rcases hzero : expectZero hw r bit b₁ with ⟨ok, b₂⟩
      cases ok with
      | false => simp [hone, hzero] at heq
      | true =>
          simp only [hone, hzero, Prod.mk.injEq, Option.some.injEq] at heq
          obtain ⟨rfl, rfl⟩ := heq
          rcases h with h | ⟨-, h | ⟨hunfit, q, h, rfl⟩⟩
          · exact h.zero hc hfirst hone hzero
          · exact h.zero hc hone hzero
          · rw [hc.expectOne_eq] at hone
            rw [hc.expectZero_eq] at hzero
            have hother := PulseSpaceCoded.bitHalves_high (r := r) (bitMask r bit) false
            have h₁ := h.tryBit_failed hone hzero hother (PulseSpaceCoded.bitHalves_same _)
            have hunfit' : ¬(fit ∧ GivesBack hw r held bit b) := fun h => hunfit h.1
            obtain ⟨rfl, h'⟩ := h₁.tryBit_found hc held false hzero hunfit'
            exact h'

theorem PulseSpaceCoded.bitwise (h : PulseSpaceCoded r) : Bitwise r := by
  have hother : ∀ p, p ≠ rc5 → p ≠ rc6 → p ≠ spaceEnc → p ≠ spaceFirst →
      r.protocolIs p = false := by
    intro p h5 h6 he hf
    rcases h.protocol with h | h | h | h
    · exact protocolIs_unique h h5.symm
    · exact protocolIs_unique h h6.symm
    · exact protocolIs_unique h he.symm
    · exact protocolIs_unique h hf.symm
  exact ⟨hother _ (by decide) (by decide) (by decide) (by decide),
    hother _ (by decide) (by decide) (by decide) (by decide),
    hother _ (by decide) (by decide) (by decide) (by decide),
    hother _ (by decide) (by decide) (by decide) (by decide),
    hother _ (by decide) (by decide) (by decide) (by decide),
    hother _ (by decide) (by decide) (by decide) (by decide),
    hother _ (by decide) (by decide) (by decide) (by decide),
    h.noToggleBitMask, h.noToggleMask⟩

/-- No failed attempt at a one does harm in the `n` bits read from `bit` on. -/
def CleanBits (hw : Hardware) (r : IrRemote) (held : Option Part) : ℕ → ℕ → RBuf → Prop
  | 0, _, _ => True
  | n + 1, bit, b =>
      GivesBack hw r held bit b ∧
      match Lirc.readBit hw r bit b with
      | (some _, b) => CleanBits hw r held n (bit + 1) b
      | (none, _) => True

instance CleanBits.decidable (hw : Hardware) (r : IrRemote) (held : Option Part) :
    (n bit : ℕ) → (b : RBuf) → Decidable (CleanBits hw r held n bit b)
  | 0, _, _ => .isTrue trivial
  | n + 1, bit, b =>
      have : Decidable (match Lirc.readBit hw r bit b with
          | (some _, b) => CleanBits hw r held n (bit + 1) b
          | (none, _) => True) :=
        match Lirc.readBit hw r bit b with
        | (some _, b) => CleanBits.decidable hw r held n (bit + 1) b
        | (none, _) => .isTrue trivial
      inferInstanceAs (Decidable (_ ∧ _))

/-- The loop goes through the bits of the word it returns. -/
theorem RBuf.Through.getBitLoop {n : ℕ} (h : b.Through hw r R k held ps ended fit)
    (hc : PulseSpaceCoded r) (hfirst : 0 < n → ended = true ∨ startsWithBit r = true)
    (hn : bit + n ≤ bitCount r) {code code' : IrCode} {r' : IrRemote}
    (heq : Lirc.getBitLoop hw n bit code r b = (code', r', b')) (hne : code' ≠ noCode) :
    r' = r ∧
    b'.Through hw r R k held (ps ++ bitLoopParts r n (reverse code' n) (bitMask r bit))
      (ended || decide (0 < n)) (fit ∧ CleanBits hw r held n bit b) ∧
    ∀ j, n + j < 64 → code'.getLsbD (n + j) = code.getLsbD j := by
  induction n generalizing bit code b ps ended fit with
  | zero =>
      simp only [Lirc.getBitLoop, Prod.mk.injEq] at heq
      obtain ⟨rfl, rfl, rfl⟩ := heq
      exact ⟨rfl, by simpa [bitLoopParts, CleanBits] using h, by simp⟩
  | succ n ih =>
      have hbits := hc.bits_le
      rw [getBitLoop_succ hc.bitwise.notGoldstar] at heq
      rw [CleanBits]
      rcases hread : Lirc.readBit hw r bit b with ⟨v, b₁⟩
      cases v with
      | none =>
          simp only [hread, Prod.mk.injEq] at heq
          exact absurd heq.1.symm hne
      | some v =>
          simp only [hread] at heq ⊢
          -- behind its first bit the decoder is inside of the signal
          have h₁ := h.readBit hc (hfirst (Nat.succ_pos n)) hread
          obtain ⟨rfl, h₂, hhigh⟩ := ih (.inl h₁) (fun _ => .inl rfl) (by omega) heq
          have hv : code'.getLsbD n = v := by
            have h0 := hhigh 0 (by omega)
            rw [Nat.add_zero] at h0
            rw [h0]
            cases v <;> simp
          refine ⟨rfl, ?_, ?_⟩
          · rw [bitLoopParts, toggledData_eq hc.noToggleBitMask hc.noToggleMask,
              reverse_succ_and_one (by omega), reverse_succ_ushiftRight (by omega),
              bitLoopParts_next (by omega) (by omega), hv, ← and_assoc]
            simpa using h₂
          · intro j hj
            have hj' := hhigh (j + 1) (by omega)
            have hidx : n + 1 + j = n + (j + 1) := by omega
            rw [hidx, hj', BitVec.getLsbD_or, BitVec.getLsbD_shiftLeft]
            have hv' : (if v then (1 : IrCode) else 0).getLsbD (j + 1) = false := by
              cases v <;> simp [BitVec.getLsbD_one]
            rw [hv']
            simp
            omega

end Bits

end Lirc
