import Lirc.RoundTrip

/-!
Space encoded remotes: each bit is a pulse and a space. With a trailing
pulse both are checked, without one only the pulse is, and the space stays
pending until the next pulse has been found.
-/

namespace Lirc

open Signal

/-- A space encoded remote without toggle masks, RC-6 mask and leading pulse,
small enough for a code word and with bits the decoder tells apart. The
masks of the constant data are applied when the configuration is read. -/
structure SpaceEncoded (hw : Hardware) (r : IrRemote) : Prop where
  protocol : isSpaceEnc r = true
  noToggleBitMask : hasToggleBitMask r = false
  noToggleMask : hasToggleMask r = false
  noRc6Mask : r.rc6Mask = 0
  noLead : r.plead = 0
  trail : 0 ≤ r.ptrail
  phead : 0 ≤ r.phead
  shead : 0 ≤ r.shead
  bits_le : bitCount r ≤ 63
  pone : 0 < r.pone
  sone : 0 < r.sone
  pzero : 0 < r.pzero
  szero : 0 < r.szero
  apart : if 0 < r.ptrail then
      ¬(expect hw r r.pzero r.pone = true ∧ expect hw r r.szero r.sone = true)
    else expect hw r r.pzero r.pone = false
  preData : r.preData &&& genMask r.preDataBits = r.preData
  postData : r.postData &&& genMask r.postDataBits = r.postData

/-- Bits that are a pulse and a space, which the decoder tells apart. -/
structure SpaceBits (hw : Hardware) (r : IrRemote) : Prop where
  notBiphase : isBiphase r = false
  notSpaceFirst : isSpaceFirst r = false
  noRc6Mask : r.rc6Mask = 0
  pone : 0 < r.pone
  sone : 0 < r.sone
  pzero : 0 < r.pzero
  szero : 0 < r.szero
  apart : if 0 < r.ptrail then
      ¬(expect hw r r.pzero r.pone = true ∧ expect hw r r.szero r.sone = true)
    else expect hw r r.pzero r.pone = false

/-- Something of the signal besides its foot reaches the decoder: data, the
trailing pulse, or a header whose space may stay pending. -/
def HasBody (r : IrRemote) : Prop :=
  0 < bitCount r ∨ 0 < r.ptrail ∨ (hasHeader r = true ∧ r.has noHeadRep = false)

instance (r : IrRemote) : Decidable (HasBody r) := inferInstanceAs (Decidable (_ ∨ _))

namespace SpaceEncoded

variable {hw : Hardware} {r : IrRemote}

theorem bits (h : SpaceEncoded hw r) : SpaceBits hw r where
  notBiphase := by
    have h5 := protocolIs_unique (p := spaceEnc) (q := rc5) h.protocol (by decide)
    have h6 := protocolIs_unique (p := spaceEnc) (q := rc6) h.protocol (by decide)
    simp [isBiphase, isRc5, isRc6, h5, h6, h.noRc6Mask]
  notSpaceFirst := protocolIs_unique (p := spaceEnc) h.protocol (by decide)
  noRc6Mask := h.noRc6Mask
  pone := h.pone
  sone := h.sone
  pzero := h.pzero
  szero := h.szero
  apart := h.apart

theorem bitCoded (h : SpaceEncoded hw r) (ht : Tolerant r) : BitCoded r where
  notRaw := protocolIs_unique (p := spaceEnc) h.protocol (by decide)
  notRcmm := protocolIs_unique (p := spaceEnc) h.protocol (by decide)
  notGrundig := protocolIs_unique (p := spaceEnc) h.protocol (by decide)
  notSerial := protocolIs_unique (p := spaceEnc) h.protocol (by decide)
  notBo := protocolIs_unique (p := spaceEnc) h.protocol (by decide)
  notXmp := protocolIs_unique (p := spaceEnc) h.protocol (by decide)
  notGoldstar := protocolIs_unique (p := spaceEnc) h.protocol (by decide)
  noToggleBitMask := h.noToggleBitMask
  noToggleMask := h.noToggleMask
  bits_le := h.bits_le
  tolerant := ht

/-- What may be pending before a bit. -/
def Pending (q : Option Part) : Prop := q = none ∨ ∃ x, q = some (space x)

/-- What may follow a bit: with a trailing pulse there is always a pulse. -/
def Follows (r : IrRemote) (ps : List Part) : Prop :=
  0 < r.ptrail → ∃ a rest, ps = pulse a :: rest

end SpaceEncoded

namespace SpaceBits

open SpaceEncoded

variable {hw : Hardware} {r : IrRemote}

/-- A bit is a pulse and a space. -/
theorem bitParts_eq (h : SpaceBits hw r) (mask : IrCode) (v : Bool) :
    bitParts r mask v =
      if v then [pulse r.pone, space r.sone] else [pulse r.pzero, space r.szero] := by
  cases v <;> simp [bitParts, oneParts, zeroParts, h.notBiphase, h.notSpaceFirst, h.noRc6Mask]

section Bits

variable {q : Option Part} {b : RBuf} {rest : List Part} {total : ℤ} {tail : List ℕ}

/-- A pulse and a space that come are accepted. -/
theorem expectBit_ok (hw : Hardware) (ht : Tolerant r) (hrest : Follows r rest) {p s : ℤ}
    (hb : b.At q (pulse p :: space s :: rest) total tail) :
    ∃ b₁, expectPulse hw r b p = (true, b₁) ∧
      (0 < r.ptrail → ∃ b₂, expectSpace hw r b₁ s = (true, b₂) ∧ b₂.At none rest total tail) ∧
      ({ b₁ with pendings := s } : RBuf).At (some (space s)) rest total tail := by
  obtain ⟨b₁, hpulse, h₁⟩ := hb.expectPulse_ok hw ht (by simp)
  refine ⟨b₁, hpulse, fun htrail => ?_, h₁.announce (by simpa using h₁.pendingp) rfl⟩
  obtain ⟨a, rest', rfl⟩ := hrest htrail
  exact h₁.expectSpace_ok hw ht

theorem expectOne_ok (h : SpaceBits hw r) (ht : Tolerant r) (hrest : Follows r rest) (i : ℕ)
    (hb : b.At q (pulse r.pone :: space r.sone :: rest) total tail) :
    ∃ b' q', expectOne hw r i b = (true, b') ∧ Pending q' ∧ b'.At q' rest total tail := by
  obtain ⟨b₁, hpulse, hspace, hpend⟩ := expectBit_ok hw ht hrest hb
  by_cases htrail : 0 < r.ptrail
  · obtain ⟨b₂, hspace, h₂⟩ := hspace htrail
    refine ⟨b₂, none, ?_, .inl rfl, h₂⟩
    simp [expectOne, h.notBiphase, h.notSpaceFirst, h.pone, hpulse, htrail, h.sone, hspace]
  · refine ⟨{ b₁ with pendings := r.sone }, _, ?_, .inr ⟨_, rfl⟩, hpend⟩
    simp [expectOne, h.notBiphase, h.notSpaceFirst, h.pone, hpulse, htrail]

theorem expectZero_ok (h : SpaceBits hw r) (ht : Tolerant r) (hrest : Follows r rest) (i : ℕ)
    (hb : b.At q (pulse r.pzero :: space r.szero :: rest) total tail) :
    ∃ b' q', expectZero hw r i b = (true, b') ∧ Pending q' ∧ b'.At q' rest total tail := by
  obtain ⟨b₁, hpulse, hspace, hpend⟩ := expectBit_ok hw ht hrest hb
  by_cases htrail : 0 < r.ptrail
  · obtain ⟨b₂, hspace, h₂⟩ := hspace htrail
    refine ⟨b₂, none, ?_, .inl rfl, h₂⟩
    simp [expectZero, h.notBiphase, h.notSpaceFirst, hpulse, htrail, hspace]
  · refine ⟨{ b₁ with pendings := r.szero }, _, ?_, .inr ⟨_, rfl⟩, hpend⟩
    simp [expectZero, h.notBiphase, h.notSpaceFirst, hpulse, htrail]

/-- A zero is not taken for a one, and its samples are given back. -/
theorem expectOne_zero (h : SpaceBits hw r) (ht : Tolerant r) (hrest : Follows r rest)
    (hq : Pending q) (i : ℕ)
    (hb : b.At q (pulse r.pzero :: space r.szero :: rest) total tail) :
    ∃ b', expectOne hw r i b = (false, b') ∧
      b'.At none (pulse r.pzero :: space r.szero :: rest) total tail := by
  obtain ⟨b₁, h₁, hsame⟩ := hb.synced hw ht hq
  have hpulse := h₁.expectPulse_eq hw r (by simp) r.pone
  have hwave : wave ((none : Option Part).toList ++ pulse r.pzero :: space r.szero :: rest) =
      pulse r.pzero :: wave (space r.szero :: rest) := waveFrom_pulse (by simp)
  have hapart := h.apart
  by_cases hp : expect hw r r.pzero r.pone = true
  · -- the pulses are alike, so the spaces differ
    have htrail : 0 < r.ptrail := by
      by_contra hno
      rw [if_neg hno] at hapart
      simp [hp] at hapart
    rw [if_pos htrail] at hapart
    have hs : expect hw r r.szero r.sone = false := by
      simpa using fun hs => hapart ⟨hp, hs⟩
    obtain ⟨a, rest', rfl⟩ := hrest htrail
    have h₂ : (b₁.advance (word (pulse r.pzero))).At none
        (space r.szero :: pulse a :: rest') total tail :=
      h₁.step_keep hwave h₁.positive.tail h₁.pendingp h₁.pendings
    have hspace := h₂.expectSpace_eq hw r r.sone
    have hwave₂ : wave (space r.szero :: pulse a :: rest') =
        space r.szero :: wave (pulse a :: rest') := waveFrom_space rfl
    rw [hwave₂] at hwave
    refine ⟨_, ?_, h₁.unget_two hwave⟩
    simp [expectOne, h.notBiphase, h.notSpaceFirst, h.pone, hsame, hpulse, hp, htrail, h.sone,
      hspace, hs]
  · refine ⟨_, ?_, h₁.unget_one hwave⟩
    simp [expectOne, h.notBiphase, h.notSpaceFirst, h.pone, hsame, hpulse, hp]

end Bits

end SpaceBits

namespace SpaceEncoded

variable {hw : Hardware} {r : IrRemote}

/-- The decoder reads the bits of a space encoded remote. -/
theorem readsBits (h : SpaceEncoded hw r) (ht : Tolerant r) :
    ReadsBits hw r Pending (Follows r) where
  bit := by
    intro i q v rest b total tail _ hq hrest hb
    rw [h.bits.bitParts_eq] at hb
    cases v with
    | true =>
        obtain ⟨b', q', hone, hq', h'⟩ := h.bits.expectOne_ok ht hrest i hb
        exact ⟨b', q', by simp [readBit, hone], hq', h'⟩
    | false =>
        obtain ⟨b₁, hone, h₁⟩ := h.bits.expectOne_zero ht hrest hq i hb
        obtain ⟨b', q', hzero, hq', h'⟩ := h.bits.expectZero_ok ht hrest i h₁
        exact ⟨b', q', by simp [readBit, hone, hzero], hq', h'⟩
  before := by
    intro mask v rest _ _
    rw [h.bits.bitParts_eq]
    cases v <;> exact ⟨_, _, rfl⟩
  before_pulse := fun a rest _ => ⟨a, rest, rfl⟩
  space := fun x => .inr ⟨x, rfl⟩

/-! ### The whole signal -/

theorem dataParts_startsHigh (h : SpaceEncoded hw r) (ht : Tolerant r) (data : IrCode)
    {bits : ℕ} (hbits : 0 < bits) (done : ℕ) : StartsHigh (dataParts r data bits done) := by
  obtain ⟨n, rfl⟩ : ∃ n, bits = n + 1 := ⟨bits - 1, by omega⟩
  rw [dataParts_eq (h.bitCoded ht).toBitwise, bitLoopParts, h.bits.bitParts_eq]
  split
  · exact ⟨_, _, rfl⟩
  · exact ⟨_, _, rfl⟩

/-- Data or a trailing pulse make the signal after the header start with a pulse. -/
theorem bodyParts_startsHigh (h : SpaceEncoded hw r) (ht : Tolerant r) (c : IrCode)
    (hbody : 0 < bitCount r ∨ 0 < r.ptrail) : StartsHigh (bodyParts r c) := by
  have hpre : preParts r = [] ∨ StartsHigh (preParts r) := by
    unfold preParts
    split
    · next hp => exact .inr ((h.dataParts_startsHigh ht _ (by simpa [hasPre] using hp) _).append _)
    · exact .inl rfl
  have hdata : dataParts r c r.bits r.preDataBits = [] ∨
      StartsHigh (dataParts r c r.bits r.preDataBits) := by
    by_cases hb : 0 < r.bits
    · exact .inr (h.dataParts_startsHigh ht c hb _)
    · left
      rw [dataParts_eq (h.bitCoded ht).toBitwise, show r.bits = 0 by omega]
      rfl
  have hpost : postParts r = [] ∨ StartsHigh (postParts r) := by
    unfold postParts postPauseParts
    split
    · next hp =>
      right
      split
      · exact ⟨_, _, rfl⟩
      · exact h.dataParts_startsHigh ht _ (by simpa [hasPost] using hp) _
    · exact .inl rfl
  rw [bodyParts, leadParts, if_neg (by simpa using h.noLead), List.nil_append]
  rcases hbody with hbits | htrail
  · unfold bitCount at hbits
    by_cases hp : 0 < r.preDataBits
    · have : StartsHigh (preParts r) := by
        rw [preParts, if_pos (by simpa [hasPre] using hp)]
        exact (h.dataParts_startsHigh ht _ hp _).append _
      exact this.append _
    · refine startsHigh_append hpre ?_
      by_cases hb : 0 < r.bits
      · exact (h.dataParts_startsHigh ht c hb _).append _
      · refine startsHigh_append hdata ?_
        have hpos : 0 < r.postDataBits := by omega
        rcases hpost with hnil | hpost
        · rw [postParts, if_pos (by simpa [hasPost] using hpos)] at hnil
          obtain ⟨a, rest, heq⟩ :=
            h.dataParts_startsHigh ht r.postData hpos (r.preDataBits + r.bits)
          simp [heq] at hnil
        · exact hpost.append _
  · refine startsHigh_append hpre (startsHigh_append hdata (startsHigh_append hpost ?_))
    rw [trailParts, if_pos (by omega)]
    exact ⟨_, _, rfl⟩

theorem bitParts_positive (h : SpaceEncoded hw r) (mask : IrCode) (v : Bool) :
    Positive (bitParts r mask v) := by
  rw [h.bits.bitParts_eq]
  cases v
  · simp [h.pzero, h.szero]
  · simp [h.pone, h.sone]

/-- Waveforms of a space encoded remote have positive samples. -/
theorem regular (h : SpaceEncoded hw r) (ht : Tolerant r) (hbody : HasBody r) : Regular r := by
  have hc := h.bitCoded ht
  have hlead : 0 ≤ r.plead := Int.le_of_eq h.noLead.symm
  refine ⟨fun st c rep => ?_, fun st c => ?_, hlead, h.trail⟩
  · rw [codeParts_withToggle hc]
    exact codeParts_positive hc h.bitParts_positive hlead h.trail c rep
  · rw [codeParts_withToggle hc]
    rcases hbody with hbits | htrail | ⟨hhead, hn⟩
    · refine exists_bit_mem hc hbits (fun mask v => ?_) c true
      rw [h.bits.bitParts_eq]
      cases v <;> simp
    · have hne : r.ptrail ≠ 0 := by omega
      exact ⟨pulse r.ptrail, by simp [codeParts, trailParts, hne], rfl⟩
    · exact ⟨pulse r.phead, by simp [codeParts, headerParts, hhead, hn], rfl⟩

theorem roundTrips (h : SpaceEncoded hw r) (ht : Tolerant r) (hbody : HasBody r) {c : IrCode}
    (hcode : c &&& genMask r.bits = c) : RoundTrips hw r Pending (Follows r) c where
  coded := h.bitCoded ht
  reads := h.readsBits ht
  regular := h.regular ht hbody
  starts := by
    have hhigh : StartsHigh (codeParts r c false) := by
      rw [codeParts_first]
      by_cases hhead : hasHeader r = true
      · rw [headerParts, if_pos hhead]
        exact ⟨_, _, rfl⟩
      · rw [headerParts, if_neg hhead, List.nil_append]
        refine h.bodyParts_startsHigh ht c ?_
        rcases hbody with hbits | htrail | ⟨hhead', -⟩
        · exact .inl hbits
        · exact .inr htrail
        · exact absurd hhead' hhead
    obtain ⟨a, rest, heq⟩ := hhigh
    rw [heq]
    rfl
  header := by
    intro _ hn
    refine h.bodyParts_startsHigh ht c ?_
    rcases hbody with hbits | htrail | ⟨-, hn'⟩
    · exact .inl hbits
    · exact .inr htrail
    · simp [hn] at hn'
  pending := by
    rw [if_pos h.noLead]
    split
    · exact .inr ⟨_, rfl⟩
    · exact .inl rfl
  last := by
    intro htrail
    rw [trailParts, if_pos (by omega)]
    exact ⟨_, _, rfl⟩
  headerLength := by
    have := h.phead
    have := h.shead
    omega
  code := hcode
  preData := h.preData
  postData := h.postData

end SpaceEncoded

/-- What a space encoded remote sends is what it receives. -/
theorem spaceEncoded_roundTrip {hw : Hardware} {r : IrRemote} (h : SpaceEncoded hw r)
    (ht : Tolerant r) (hbody : HasBody r) {c : IrCode} {last : LastRemote} {b : RBuf}
    (hx : Transfer hw r c last b) (now : ℕ) :
    (receiveDecode hw r last now b).1.map (fun d => (d.pre, d.code, d.post)) =
      some (r.preData, c, r.postData) :=
  (h.roundTrips ht hbody hx.within).decodes hx now

/-! ### Single remotes -/

/-- A remote with header, constant data around the code, trailing pulse and foot. -/
def tvRemote : IrRemote :=
  { flags := spaceEnc ||| constLength, eps := 20, aeps := 50, bits := 3, preDataBits := 2,
    preData := 2, postDataBits := 1, postData := 1, phead := 9000, shead := 4500, pone := 560,
    sone := 1690, pzero := 560, szero := 560, preP := 560, preS := 2000, ptrail := 560,
    pfoot := 560, sfoot := 3000, gap := 108000 }

/-- The waveform of code 5: header, `10`, pause, `101`, `1`, trailing pulse and foot. -/
def tvSamples : List ℤ :=
  [9000, 4500, 560, 1690, 560, 560, 560, 2000, 560, 1690, 560, 560, 560, 1690, 560, 1690, 560,
    3000, 560]

theorem spaceEncoded_roundTrip_tv :
    (receiveDecode mode2Hardware tvRemote .null 0
        { input := feed 200000 tvSamples 150000 }).1.map (fun d => (d.pre, d.code, d.post)) =
      some (2, 5, 1) :=
  spaceEncoded_roundTrip (by constructor <;> decide) (by decide) (by decide)
    (Transfer.of_samples { name := ['5'], code := 5 } 1 (by decide)
      (by decide) (by decide) (by decide +kernel) (by exact trivial) (by decide) (by decide) (by decide)
      (by decide)) 0

/-- A remote whose signal is a foot only: its space is not sent. -/
def footOnlyRemote : IrRemote :=
  { flags := spaceEnc, eps := 20, aeps := 50, pone := 560, sone := 560, pzero := 1690,
    szero := 560, pfoot := 560, sfoot := 3000, gap := 50000 }

/-- A remote with negative tolerances: nothing passes against itself. -/
def intolerantRemote : IrRemote :=
  { flags := spaceEnc, eps := -1, aeps := -1, bits := 1, pone := 560, sone := 1690,
    pzero := 560, szero := 560, ptrail := 560, gap := 50000 }

/-- A signal without a body and a negative tolerance each break the round trip. -/
theorem spaceEncoded_roundTrip_fails :
    (SpaceEncoded mode2Hardware footOnlyRemote ∧ Tolerant footOnlyRemote ∧
      Transfer mode2Hardware footOnlyRemote 0 .null { input := feed 200000 [560] 150000 } ∧
      (receiveDecode mode2Hardware footOnlyRemote .null 0
        { input := feed 200000 [560] 150000 }).1 = none) ∧
    (SpaceEncoded mode2Hardware intolerantRemote ∧ HasBody intolerantRemote ∧
      Transfer mode2Hardware intolerantRemote 1 .null
        { input := feed 200000 [560, 1690, 560] 150000 } ∧
      (receiveDecode mode2Hardware intolerantRemote .null 0
        { input := feed 200000 [560, 1690, 560] 150000 }).1 = none) := by
  refine ⟨⟨by constructor <;> decide, by decide, ?_, by decide +kernel⟩,
    ⟨by constructor <;> decide, by decide, ?_, by decide +kernel⟩⟩
  · exact Transfer.of_samples { name := ['0'], code := 0 } 1 (by decide)
      (by decide) (by decide) (by decide +kernel) (by exact trivial) (by decide) (by decide) (by decide)
      (by decide)
  · exact Transfer.of_samples { name := ['1'], code := 1 } 1 (by decide)
      (by decide) (by decide) (by decide +kernel) (by exact trivial) (by decide) (by decide) (by decide)
      (by decide)

end Lirc
