import Lirc.SpaceEncoded

/-!
Biphase remotes: a one is a space and a pulse, a zero a pulse and a space,
all of one length or, where the RC-6 mask is set, of twice that length.
Halves of neighbouring bits merge into one sample; the second half of a bit
stays pending until the next bit has been found.
-/

namespace Lirc

open Signal

/-- A biphase remote without toggle masks and trailing pulse, with one half-bit
length, whose signal starts with a pulse. The tolerance separates up to four
half-bits, and the leading pulse from itself with one or two half-bits added. -/
structure Biphase (hw : Hardware) (r : IrRemote) : Prop where
  biphase : isBiphase r = true
  noToggleBitMask : hasToggleBitMask r = false
  noToggleMask : hasToggleMask r = false
  noTrail : r.ptrail = 0
  lead : 0 ≤ r.plead
  phead : 0 ≤ r.phead
  shead : 0 ≤ r.shead
  bits_le : bitCount r ≤ 63
  half : 0 < r.pone
  sone : r.sone = r.pone
  pzero : r.pzero = r.pone
  szero : r.szero = r.pone
  starts : 0 < r.plead ∨ hasHeader r = true
  apart : ∀ i ∈ [1, 2, 3, 4], ∀ j ∈ [1, 2, 3, 4], i ≠ j →
    expect hw r (i * r.pone) (j * r.pone) = false
  leadApart : 0 < r.plead → ∀ i ∈ [1, 2], expect hw r (r.plead + i * r.pone) r.plead = false
  preData : r.preData &&& genMask r.preDataBits = r.preData
  postData : r.postData &&& genMask r.postDataBits = r.postData

/-- The data of the remote is sent and received bit by bit as biphase bits. A
non-zero RC-6 mask makes any remote count as biphase, but these protocols
have their own form of data. -/
def BitwiseBiphase (r : IrRemote) : Prop :=
  isRaw r = false ∧ isRcmm r = false ∧ isXmp r = false ∧ isSpaceFirst r = false

instance (r : IrRemote) : Decidable (BitwiseBiphase r) := inferInstanceAs (Decidable (_ ∧ _))

/-- Where the space of a header is read at once, a pulse follows it. -/
def HeaderCloses (r : IrRemote) (c : IrCode) : Prop :=
  hasHeader r = true → r.has noHeadRep = true → StartsHigh (bodyParts r c)

/-- Without data, a frame of a remote with a header whose signal goes on with a
pulse where it has to has a pulse also when it is repeated. -/
theorem HeaderCloses.exists_pulse {r : IrRemote} {c : IrCode} (hclose : HeaderCloses r c)
    (hc : BitCoded r) (hhead : hasHeader r = true) (hbits : bitCount r = 0) (c' : IrCode) :
    ∃ p ∈ codeParts r c' true, p.high = true := by
  by_cases hl : r.plead = 0
  · by_cases ht : r.ptrail = 0
    · -- the header is all there is, and it is sent with every frame
      have hn : r.has noHeadRep = false := by
        by_contra hno
        obtain ⟨a, rest, hbody⟩ := hclose hhead (by simpa using hno)
        simp only [bitCount, Nat.add_eq_zero_iff] at hbits
        obtain ⟨⟨h1, h2⟩, h3⟩ := hbits
        have hdata : ∀ done, dataParts r c r.bits done = [] := by
          intro done
          rw [dataParts_eq hc.toBitwise, h2]
          rfl
        have hfoot := footParts_startsOff r
        simp only [bodyParts, leadParts, preParts, postParts, trailParts, hasPre, hasPost, hl, h1,
          h3, ht, hdata, ne_eq, not_true_eq_false, if_false, Nat.lt_irrefl, decide_false,
          Bool.false_eq_true, List.nil_append] at hbody
        simp [hbody] at hfoot
      exact ⟨pulse r.phead, by simp [codeParts, headerParts, hhead, hn], rfl⟩
    · exact ⟨pulse r.ptrail, by simp [codeParts, trailParts, ht], rfl⟩
  · exact ⟨pulse r.plead, by simp [codeParts, leadParts, hl], rfl⟩

/-- The pending pulse is told apart from itself with a half of a bit added. -/
def LeadsApart (hw : Hardware) (r : IrRemote) (q : Option Part) : Prop :=
  ∀ x, q = some (pulse x) → ∀ i ∈ [1, 2], expect hw r (x + i * r.pone) x = false

theorem expect_zero (hw : Hardware) (r : IrRemote) (x : ℤ) :
    expect hw r 0 x = expect hw r (2 * x) x := by
  have h : |x - 0| = |x - 2 * x| := by
    have hneg : x - 2 * x = -(x - 0) := by omega
    rw [hneg, abs_neg]
  simp only [expect, h]

namespace Biphase

variable {hw : Hardware} {r : IrRemote}

theorem bitParts_eq (h : Biphase hw r) (hp : BitwiseBiphase r) (mask : IrCode) (v : Bool) :
    bitParts r mask v =
      if v then [space (halves r mask * r.pone), pulse (halves r mask * r.pone)]
      else [pulse (halves r mask * r.pone), space (halves r mask * r.pone)] := by
  obtain ⟨-, -, -, hfirst⟩ := hp
  cases v with
  | false =>
      simp only [bitParts, zeroParts, halves, Bool.false_eq_true, if_false]
      split <;> simp [hfirst, h.pzero, h.szero]
  | true =>
      simp only [bitParts, oneParts, halves, h.biphase, if_true]
      split <;> simp [h.sone]

theorem half_pos (h : Biphase hw r) (mask : IrCode) : 0 < halves r mask * r.pone := by
  have := h.half
  rw [halves]
  split <;> omega

theorem bitParts_positive (h : Biphase hw r) (hp : BitwiseBiphase r) (mask : IrCode) (v : Bool) :
    Positive (bitParts r mask v) := by
  have hpos := h.half_pos mask
  rw [h.bitParts_eq hp]
  cases v <;> simp [hpos]

/-- No sample is as long as half a bit when nothing of it is left. -/
theorem apart_zero (h : Biphase hw r) (mask : IrCode) :
    expect hw r 0 (halves r mask * r.pone) = false := by
  rw [expect_zero, halves]
  split
  · simpa [← mul_assoc] using h.apart 4 (by simp) 2 (by simp) (by decide)
  · simpa using h.apart 2 (by simp) 1 (by simp) (by decide)

/-- The second half of a one is told apart from itself with a half added. -/
theorem leadsApart_one (h : Biphase hw r) (mask : IrCode) :
    LeadsApart hw r (some (pulse (halves r mask * r.pone))) := by
  rintro x hx i hi
  obtain rfl : halves r mask * r.pone = x := by simpa using hx
  have hk := halves_mem r mask
  simp only [List.mem_cons, List.not_mem_nil, or_false] at hi hk
  rw [← Int.add_mul]
  refine h.apart _ ?_ _ ?_ (by omega)
  · simp only [List.mem_cons, List.not_mem_nil, or_false]
    omega
  · simp only [List.mem_cons, List.not_mem_nil, or_false]
    omega

section Bits

variable {q : Option Part} {b : RBuf} {rest : List Part} {total : ℤ} {tail : List ℕ}

/-- A one is read as a one, and its pulse stays pending. -/
theorem expectOne_ok (h : Biphase hw r) (ht : Tolerant r) (i : ℕ)
    (hb : b.At q (space (halves r (bitMask r i) * r.pone) ::
      pulse (halves r (bitMask r i) * r.pone) :: rest) total tail) :
    ∃ b', expectOne hw r i b = (true, b') ∧
      b'.At (some (pulse (halves r (bitMask r i) * r.pone))) rest total tail := by
  obtain ⟨b₁, hspace, h₁⟩ := hb.expectSpace_ok hw ht
  refine ⟨{ b₁ with pendingp := halves r (bitMask r i) * r.pone }, ?_,
    h₁.announce rfl (by simpa using h₁.pendings)⟩
  simp only [halves] at hspace
  simp only [expectOne, h.biphase, if_true, h.sone, h.half, hspace, Bool.not_true,
    Bool.false_eq_true, if_false, halves]

/-- A zero is read as a zero, and its space stays pending. -/
theorem expectZero_ok (h : Biphase hw r) (ht : Tolerant r) (i : ℕ)
    (hb : b.At q (pulse (halves r (bitMask r i) * r.pone) ::
      space (halves r (bitMask r i) * r.pone) :: rest) total tail) :
    ∃ b', expectZero hw r i b = (true, b') ∧
      b'.At (some (space (halves r (bitMask r i) * r.pone))) rest total tail := by
  obtain ⟨b₁, hpulse, h₁⟩ := hb.expectPulse_ok hw ht (by simp)
  refine ⟨{ b₁ with pendings := halves r (bitMask r i) * r.pone }, ?_,
    h₁.announce (by simpa using h₁.pendingp) rfl⟩
  simp only [halves] at hpulse
  simp only [expectZero, h.biphase, if_true, h.pzero, h.szero, hpulse, Bool.not_true,
    Bool.false_eq_true, if_false, halves]

/-- No space of half a bit comes before a zero: the sample read for it is the
pending one, the pending pulse lengthened by the zero, or the zero's pulse. -/
theorem expectSpace_zero (h : Biphase hw r) (hq : LeadsApart hw r q) (mask : IrCode)
    (hb : b.At q (pulse (halves r mask * r.pone) ::
      space (halves r mask * r.pone) :: rest) total tail) :
    ∃ b', expectSpace hw r b (halves r mask * r.pone) = (false, b') ∧
      (ungetRecBuffer b' 1).At q (pulse (halves r mask * r.pone) ::
        space (halves r mask * r.pone) :: rest) total tail := by
  have hpos := h.half_pos mask
  have hapart : ∀ x, q = some (pulse x) →
      expect hw r (x + halves r mask * r.pone) x = false :=
    fun x hx => hq x hx _ (halves_mem r mask)
  have hzero := h.apart_zero mask
  generalize halves r mask * r.pone = a at hb hpos hzero hapart ⊢
  have hpp := hb.pendingp
  have hps := hb.pendings
  match q with
  | none =>
      have hwave : wave ((none : Option Part).toList ++ pulse a :: space a :: rest) =
          pulse a :: wave (space a :: rest) := waveFrom_pulse (by simp)
      rw [pendPulse_none] at hpp
      refine ⟨b.advance (word (pulse a)), ?_, hb.unget_one hwave⟩
      simp [expectSpace, syncPendingPulse, hpp, hb.nextSpace hwave]
  | some ⟨false, x⟩ =>
      have hx : 0 < x := hb.positive.head
      have hwave : wave ((some (space x)).toList ++ pulse a :: space a :: rest) =
          space x :: wave (pulse a :: space a :: rest) := waveFrom_space rfl
      rw [pendPulse_space] at hpp
      rw [pendSpace_space] at hps
      refine ⟨b.advance (word (space x)), ?_, hb.unget_one hwave⟩
      simp [expectSpace, syncPendingPulse, hpp, hb.nextSpace hwave, hps, hx, hx.ne', hzero]
  | some ⟨true, x⟩ =>
      have hx : 0 < x := hb.positive.head
      have hwave : wave ((some (pulse x)).toList ++ pulse a :: space a :: rest) =
          pulse (x + a) :: wave (space a :: rest) := by
        simp only [Option.toList_some, List.singleton_append, wave_cons, waveFrom_same]
        exact waveFrom_pulse (by simp)
      rw [pendPulse_pulse] at hpp
      have hne : x + a ≠ 0 := by omega
      refine ⟨b.advance (word (pulse (x + a))), ?_, hb.unget_one hwave⟩
      simp [expectSpace, syncPendingPulse, hpp, hx, hb.nextPulse hwave, hne, hapart x rfl]

/-- A zero is not taken for a one, and nothing changes. -/
theorem expectOne_zero (h : Biphase hw r) (hq : LeadsApart hw r q) (i : ℕ)
    (hb : b.At q (pulse (halves r (bitMask r i) * r.pone) ::
      space (halves r (bitMask r i) * r.pone) :: rest) total tail) :
    ∃ b', expectOne hw r i b = (false, b') ∧
      b'.At q (pulse (halves r (bitMask r i) * r.pone) ::
        space (halves r (bitMask r i) * r.pone) :: rest) total tail := by
  obtain ⟨b₁, hspace, h₁⟩ := h.expectSpace_zero hq (bitMask r i) hb
  refine ⟨ungetRecBuffer b₁ 1, ?_, h₁⟩
  simp only [halves] at hspace
  simp only [expectOne, h.biphase, if_true, h.sone, h.half, hspace, Bool.not_false]

end Bits

/-- The decoder reads the bits of a biphase remote. -/
theorem readsBits (h : Biphase hw r) (hp : BitwiseBiphase r) (ht : Tolerant r) :
    ReadsBits hw r (LeadsApart hw r) (fun _ => True) where
  bit := by
    intro i q v rest b total tail _ hq _ hb
    rw [h.bitParts_eq hp] at hb
    cases v with
    | true =>
        obtain ⟨b', hone, h'⟩ := h.expectOne_ok ht i hb
        exact ⟨b', _, by simp [readBit, hone], h.leadsApart_one _, h'⟩
    | false =>
        obtain ⟨b₁, hone, h₁⟩ := h.expectOne_zero hq i hb
        obtain ⟨b', hzero, h'⟩ := h.expectZero_ok ht i h₁
        exact ⟨b', _, by simp [readBit, hone, hzero], by simp [LeadsApart], h'⟩
  before := fun _ _ _ _ => trivial
  before_pulse := fun _ _ => trivial
  space := by simp [LeadsApart]

/-! ### The whole signal -/

theorem bitCoded (h : Biphase hw r) (hp : BitwiseBiphase r) (hsend : cannotSend r = false)
    (ht : Tolerant r) : BitCoded r := by
  obtain ⟨hraw, hrcmm, hxmp, -⟩ := hp
  simp only [cannotSend, Bool.or_eq_false_iff] at hsend
  obtain ⟨⟨⟨hgrundig, hgoldstar⟩, hserial⟩, hbo⟩ := hsend
  exact ⟨⟨hraw, hrcmm, hgrundig, hserial, hbo, hxmp, hgoldstar, h.noToggleBitMask,
    h.noToggleMask⟩, h.bits_le, ht⟩

/-- Waveforms of a biphase remote have positive samples. -/
theorem regular (h : Biphase hw r) (hp : BitwiseBiphase r) (hc : BitCoded r) {c : IrCode}
    (hclose : HeaderCloses r c) : Regular r := by
  have hlead := h.lead
  refine ⟨fun st c rep => ?_, fun st c' => ?_, hlead, by simp [h.noTrail]⟩
  · rw [codeParts_withToggle hc]
    exact codeParts_positive hc (h.bitParts_positive hp) hlead (by simp [h.noTrail]) c rep
  · rw [codeParts_withToggle hc]
    by_cases hbits : 0 < bitCount r
    · refine exists_bit_mem hc hbits (fun mask v => ?_) c' true
      rw [h.bitParts_eq hp]
      cases v <;> simp
    · rcases h.starts with hl | hhead
      · have hne : r.plead ≠ 0 := by omega
        exact ⟨pulse r.plead, by simp [codeParts, leadParts, hne], rfl⟩
      · exact hclose.exists_pulse hc hhead (by omega) c'

theorem roundTrips (h : Biphase hw r) (hp : BitwiseBiphase r) (hc : BitCoded r) {c : IrCode}
    (hclose : HeaderCloses r c) (hcode : c &&& genMask r.bits = c) :
    RoundTrips hw r (LeadsApart hw r) (fun _ => True) c where
  coded := hc
  reads := h.readsBits hp hc.tolerant
  regular := h.regular hp hc hclose
  starts := by
    rw [codeParts_first]
    by_cases hhead : hasHeader r = true
    · simp [headerParts, hhead]
    · have hlead : 0 < r.plead := h.starts.resolve_right hhead
      have hne : r.plead ≠ 0 := by omega
      simp [headerParts, hhead, bodyParts, leadParts, hne]
  header := hclose
  pending := by
    by_cases hl : r.plead = 0
    · rw [if_pos hl]
      intro x hx
      split at hx <;> simp at hx
    · have hlead := h.lead
      rw [if_neg hl]
      rintro x hx
      obtain rfl : r.plead = x := by simpa using hx
      exact h.leadApart (by omega)
  last := trivial
  headerLength := by
    have := h.phead
    have := h.shead
    omega
  code := hcode
  preData := h.preData
  postData := h.postData

end Biphase

/-- Only remotes that can be sent have a waveform. -/
theorem Transfer.canSend {hw : Hardware} {r : IrRemote} {c : IrCode} {last : LastRemote}
    {b : RBuf} (h : Transfer hw r c last b) : cannotSend r = false := by
  obtain ⟨code, b₀, fuel, out, sync, long, -, hrun, hok, -⟩ := h.fed
  by_contra hno
  rw [initSend, initSendOrSim, if_pos (by simpa using hno)] at hrun
  obtain rfl := Option.some.inj hrun
  simp at hok

/-- What a biphase remote sends is what it receives. -/
theorem biphase_roundTrip {hw : Hardware} {r : IrRemote} (h : Biphase hw r)
    (hp : BitwiseBiphase r) (ht : Tolerant r) {c : IrCode} (hclose : HeaderCloses r c)
    {last : LastRemote} {b : RBuf} (hx : Transfer hw r c last b) (now : ℕ) :
    (receiveDecode hw r last now b).1.map (fun d => (d.pre, d.code, d.post)) =
      some (r.preData, c, r.postData) :=
  (h.roundTrips hp (h.bitCoded hp hx.canSend ht) hclose hx.within).decodes hx now

/-! ### Single remotes -/

/-- An RC-6 remote with header, leading pulse, a bit of double length, constant
data with a pause, and a foot. -/
def rc6Remote : IrRemote :=
  { flags := rc6, eps := 20, aeps := 50, bits := 4, preDataBits := 2, preData := 2,
    postDataBits := 1, postData := 1, rc6Mask := 8, phead := 2667, shead := 889, plead := 444,
    pone := 444, sone := 444, pzero := 444, szero := 444, preP := 444, preS := 888, pfoot := 444,
    sfoot := 3000, gap := 105000 }

def rc6Samples : List ℤ :=
  [2667, 889, 444, 444, 888, 444, 444, 1332, 1332, 888, 444, 888, 444, 444, 444, 3000, 444]

theorem biphase_roundTrip_rc6 :
    (receiveDecode mode2Hardware rc6Remote .null 0
        { input := feed 200000 rc6Samples 150000 }).1.map (fun d => (d.pre, d.code, d.post)) =
      some (2, 9, 1) :=
  biphase_roundTrip (by constructor <;> decide) (by decide) (by decide)
    (fun _ hn => absurd hn (by decide))
    (Transfer.of_samples { name := ['9'], code := 9 } 1 (by decide) (by decide) (by decide)
      (by decide +kernel) (by exact trivial) (by decide) (by decide) (by decide) (by decide)) 0

/-- Two biphase bits after a leading pulse. -/
def twoBitRemote : IrRemote :=
  { flags := rc5, eps := 20, aeps := 50, bits := 2, plead := 444, pone := 444, sone := 444,
    pzero := 444, szero := 444, gap := 105000 }

/-- The remote and the transfer are as they should be, but something else is decoded. -/
def Misread (r : IrRemote) (c : IrCode) (ws : List ℤ) : Prop :=
  Biphase mode2Hardware r ∧
    Transfer mode2Hardware r c .null { input := feed 200000 ws 150000 } ∧
    (receiveDecode mode2Hardware r .null 0 { input := feed 200000 ws 150000 }).1.map
      (fun d => (d.pre, d.code, d.post)) ≠ some (r.preData, c, r.postData)

theorem Misread.of_samples {r : IrRemote} {c : IrCode} {ws : List ℤ} (code : IrNcode)
    (h : Biphase mode2Hardware r) (hwithin : c &&& genMask r.bits = c)
    (hdue : nextCode code false code.transmitState = c)
    (hsent : ((initSend r code false initSendBuffer 1).map
      fun out => (out.ok, out.buf.samples)) = some (true, ws))
    (hmax : maxGap r ≤ 150000) (hws : ∀ x ∈ ws, Representable (pulse x))
    (hread : (receiveDecode mode2Hardware r .null 0 { input := feed 200000 ws 150000 }).1.map
      (fun d => (d.pre, d.code, d.post)) ≠ some (r.preData, c, r.postData)) :
    Misread r c ws :=
  ⟨h, Transfer.of_samples code 1 (by decide) hwithin hdue hsent (by exact trivial) hmax
    (by decide) hws (by decide), hread⟩

/-- The round trip fails for a header that is not repeated before a first bit
one, for negative tolerances, and for a mask given to a remote with another
form of data (here space first, RC-MM, XMP and raw). -/
theorem biphase_roundTrip_fails :
    (BitwiseBiphase { twoBitRemote with flags := rc6 ||| noHeadRep, plead := 0, phead := 2667,
                                        shead := 889 } ∧
      Tolerant twoBitRemote ∧
      Misread { twoBitRemote with flags := rc6 ||| noHeadRep, plead := 0, phead := 2667,
                                  shead := 889 } 2 [2667, 1333, 888]) ∧
    (BitwiseBiphase { twoBitRemote with eps := -1, aeps := -1 } ∧
      Misread { twoBitRemote with eps := -1, aeps := -1 } 2 [444, 444, 888]) ∧
    Misread { twoBitRemote with flags := spaceFirst, rc6Mask := 1 } 0 [444, 444, 1332] ∧
    Misread { twoBitRemote with flags := rcmm, rc6Mask := 1 } 0 [888] ∧
    Misread { twoBitRemote with flags := xmp, rc6Mask := 1, bits := 4 } 0 [888] ∧
    Misread { twoBitRemote with flags := rawCodes, rc6Mask := 1, preDataBits := 1, preData := 1,
                                codes := [{ name := ['0'], code := 0, signals := some [500] }] }
      0 [500] := by
  refine ⟨⟨by decide, by decide, ?_⟩, ⟨by decide, ?_⟩, ?_, ?_, ?_, ?_⟩
  · exact .of_samples { name := ['2'], code := 2 } (by constructor <;> decide) (by decide)
      (by decide) (by decide +kernel) (by decide) (by decide) (by decide +kernel)
  · exact .of_samples { name := ['2'], code := 2 } (by constructor <;> decide) (by decide)
      (by decide) (by decide +kernel) (by decide) (by decide) (by decide +kernel)
  · exact .of_samples { name := ['0'], code := 0 } (by constructor <;> decide) (by decide)
      (by decide) (by decide +kernel) (by decide) (by decide) (by decide +kernel)
  · exact .of_samples { name := ['0'], code := 0 } (by constructor <;> decide) (by decide)
      (by decide) (by decide +kernel) (by decide) (by decide) (by decide +kernel)
  · exact .of_samples { name := ['0'], code := 0 } (by constructor <;> decide) (by decide)
      (by decide) (by decide +kernel) (by decide) (by decide) (by decide +kernel)
  · exact .of_samples { name := ['0'], code := 0, signals := some [500] }
      (by constructor <;> decide) (by decide) (by decide) (by decide +kernel) (by decide)
      (by decide) (by decide +kernel)

end Lirc
