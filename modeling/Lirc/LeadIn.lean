import Lirc.Biphase

/-!
Lead-ins. The lead pulse of a space encoded remote merges with the pulse of the
first bit, and the header space of a space first remote with its space. The
lead-in is pending while the bit is tried as a one. The attempt at a zero finds
it still pending if the first half has told the two apart, and lost otherwise.
-/

namespace Lirc

open Signal

/-! ### Space first bits -/

/-- Bits that are a space and a pulse, which the decoder tells apart. -/
structure SpaceFirstBits (hw : Hardware) (r : IrRemote) : Prop where
  notBiphase : isBiphase r = false
  spaceFirst : isSpaceFirst r = true
  noRc6Mask : r.rc6Mask = 0
  pone : 0 < r.pone
  sone : 0 < r.sone
  pzero : 0 < r.pzero
  szero : 0 < r.szero
  apart : ¬(expect hw r r.pzero r.pone = true ∧ expect hw r r.szero r.sone = true)

namespace SpaceFirstBits

variable {hw : Hardware} {r : IrRemote} {q : Option Part} {b : RBuf} {rest : List Part}
  {total : ℤ} {tail : List ℕ}

theorem bitParts_eq (h : SpaceFirstBits hw r) (mask : IrCode) (v : Bool) :
    bitParts r mask v =
      if v then [space r.sone, pulse r.pone] else [space r.szero, pulse r.pzero] := by
  cases v <;> simp [bitParts, oneParts, zeroParts, h.notBiphase, h.spaceFirst, h.noRc6Mask]

theorem expectOne_ok (h : SpaceFirstBits hw r) (ht : Tolerant r) (hrest : StartsOff true rest)
    (i : ℕ) (hb : b.At q (space r.sone :: pulse r.pone :: rest) total tail) :
    ∃ b', expectOne hw r i b = (true, b') ∧ b'.At none rest total tail := by
  obtain ⟨b₁, hspace, h₁⟩ := hb.expectSpace_ok hw ht
  obtain ⟨b₂, hpulse, h₂⟩ := h₁.expectPulse_ok hw ht hrest
  refine ⟨b₂, ?_, h₂⟩
  simp [expectOne, h.notBiphase, h.spaceFirst, h.sone, h.pone, hspace, hpulse]

theorem expectZero_ok (h : SpaceFirstBits hw r) (ht : Tolerant r) (hrest : StartsOff true rest)
    (i : ℕ) (hb : b.At q (space r.szero :: pulse r.pzero :: rest) total tail) :
    ∃ b', expectZero hw r i b = (true, b') ∧ b'.At none rest total tail := by
  obtain ⟨b₁, hspace, h₁⟩ := hb.expectSpace_ok hw ht
  obtain ⟨b₂, hpulse, h₂⟩ := h₁.expectPulse_ok hw ht hrest
  refine ⟨b₂, ?_, h₂⟩
  simp [expectZero, h.notBiphase, h.spaceFirst, h.szero, h.pzero, hspace, hpulse]

/-- A zero is not taken for a one, and its samples are given back. -/
theorem expectOne_zero (h : SpaceFirstBits hw r) (ht : Tolerant r) (hrest : StartsOff true rest)
    (hq : q = none ∨ ∃ x, q = some (pulse x)) (i : ℕ)
    (hb : b.At q (space r.szero :: pulse r.pzero :: rest) total tail) :
    ∃ b', expectOne hw r i b = (false, b') ∧
      b'.At none (space r.szero :: pulse r.pzero :: rest) total tail := by
  obtain ⟨b₁, h₁, hsame⟩ := hb.syncedPulse hw ht hq
  have hspace := h₁.expectSpace_eq hw r r.sone
  have hwave : wave ((none : Option Part).toList ++ space r.szero :: pulse r.pzero :: rest) =
      space r.szero :: wave (pulse r.pzero :: rest) := waveFrom_space rfl
  by_cases hs : expect hw r r.szero r.sone = true
  · -- the spaces are alike, so the pulses differ
    have hp : expect hw r r.pzero r.pone = false := by
      simpa using fun hp => h.apart ⟨hp, hs⟩
    have h₂ : (b₁.advance (word (space r.szero))).At none (pulse r.pzero :: rest) total tail :=
      h₁.step_keep hwave h₁.positive.tail h₁.pendingp h₁.pendings
    have hpulse := h₂.expectPulse_eq hw r hrest r.pone
    have hwave₂ : wave (pulse r.pzero :: rest) = pulse r.pzero :: wave rest :=
      waveFrom_pulse hrest
    rw [hwave₂] at hwave
    refine ⟨_, ?_, h₁.unget_two hwave⟩
    simp [expectOne, h.notBiphase, h.spaceFirst, h.sone, h.pone, hsame, hspace, hs, hpulse, hp]
  · refine ⟨_, ?_, h₁.unget_one hwave⟩
    simp [expectOne, h.notBiphase, h.spaceFirst, h.sone, hsame, hspace, hs]

/-- A zero merged with the pending space: where the spaces differ, both are
given back. -/
theorem expectOne_merged (h : SpaceFirstBits hw r) (hs : expect hw r r.szero r.sone = false)
    {x : ℤ} (i : ℕ)
    (hb : b.At (some (space x)) (space r.szero :: pulse r.pzero :: rest) total tail) :
    ∃ b', expectOne hw r i b = (false, b') ∧
      b'.At (some (space x)) (space r.szero :: pulse r.pzero :: rest) total tail := by
  obtain ⟨b₁, hspace, h₁⟩ := hb.expectSpace_merged hw r hs
  refine ⟨_, ?_, h₁⟩
  simp [expectOne, h.notBiphase, h.spaceFirst, h.sone, hspace]

end SpaceFirstBits

/-- A zero of a space encoded remote merged with the pending pulse: where the
pulses differ, both are given back. -/
theorem SpaceBits.expectOne_merged {hw : Hardware} {r : IrRemote} {b : RBuf} {rest : List Part}
    {total : ℤ} {tail : List ℕ} (h : SpaceBits hw r)
    (hp : expect hw r r.pzero r.pone = false) {x : ℤ} (i : ℕ)
    (hb : b.At (some (pulse x)) (pulse r.pzero :: space r.szero :: rest) total tail) :
    ∃ b', expectOne hw r i b = (false, b') ∧
      b'.At (some (pulse x)) (pulse r.pzero :: space r.szero :: rest) total tail := by
  obtain ⟨b₁, hpulse, h₁⟩ := hb.expectPulse_merged hw r (by simp) hp
  refine ⟨_, ?_, h₁⟩
  simp [expectOne, h.notBiphase, h.notSpaceFirst, h.pone, hpulse]

/-! ### Remotes with a lead-in -/

/-- A space first remote with a header or a space encoded remote with a lead
pulse, without toggle masks and RC-6 mask, small enough for a code word and with
bits that differ in one half. -/
structure LedIn (hw : Hardware) (r : IrRemote) : Prop where
  protocol : isSpaceEnc r = true ∧ 0 < r.plead ∨ isSpaceFirst r = true ∧ hasHeader r = true
  noToggleBitMask : hasToggleBitMask r = false
  noToggleMask : hasToggleMask r = false
  noRc6Mask : r.rc6Mask = 0
  lead : 0 ≤ r.plead
  trail : 0 ≤ r.ptrail
  phead : 0 ≤ r.phead
  shead : 0 ≤ r.shead
  bits_le : bitCount r ≤ 63
  pone : 0 < r.pone
  sone : 0 < r.sone
  pzero : 0 < r.pzero
  szero : 0 < r.szero
  apart : ¬(expect hw r r.pzero r.pone = true ∧ expect hw r r.szero r.sone = true)
  preData : r.preData &&& genMask r.preDataBits = r.preData
  postData : r.postData &&& genMask r.postDataBits = r.postData

/-- Without a trailing pulse only the pulses of space encoded bits are compared.
A space first bit ends with a pulse, and a trailing pulse or a pause would merge
with it. -/
structure EndsBits (hw : Hardware) (r : IrRemote) : Prop where
  pulses : isSpaceEnc r = true → r.ptrail = 0 → expect hw r r.pzero r.pone = false
  trail : isSpaceFirst r = true → 0 < bitCount r → r.ptrail = 0
  prePause : isSpaceFirst r = true → 0 < r.preDataBits → ¬(0 < r.preP ∧ 0 < r.preS)
  postPause : isSpaceFirst r = true → 0 < r.postDataBits → 0 < r.preDataBits + r.bits →
    ¬(0 < r.postP ∧ 0 < r.postS)

/-- A zero and a one differ in the half that is sent first. -/
def FirstHalvesApart (hw : Hardware) (r : IrRemote) : Prop :=
  if isSpaceFirst r then expect hw r r.szero r.sone = false
  else expect hw r r.pzero r.pone = false

instance (hw : Hardware) (r : IrRemote) : Decidable (FirstHalvesApart hw r) := by
  unfold FirstHalvesApart
  infer_instance

/-- The first bit at this stage merges with what comes before it. -/
def Stage.merges (r : IrRemote) : Stage → Bool
  | .lead => if isSpaceFirst r then r.plead == 0 else r.plead != 0
  | .pause _ => isSpaceFirst r
  | .data => false

/-- If the first bit of a segment merges with what comes before it, it is a one
or its first half tells that it is not. -/
def LeadKept (hw : Hardware) (r : IrRemote) (st : Stage) (data : IrCode) (bits : ℕ) : Prop :=
  0 < bits → st.merges r = true → data.getLsbD (bits - 1) = true ∨ FirstHalvesApart hw r

instance (hw : Hardware) (r : IrRemote) (st : Stage) (data : IrCode) (bits : ℕ) :
    Decidable (LeadKept hw r st data bits) := by
  unfold LeadKept
  infer_instance

/-- In none of the segments of a signal is what is pending before it lost. -/
def LeadsKept (hw : Hardware) (r : IrRemote) (c : IrCode) : Prop :=
  LeadKept hw r .lead r.preData r.preDataBits ∧ LeadKept hw r (codeStage r) c r.bits ∧
    LeadKept hw r (postStage r) r.postData r.postDataBits

instance (hw : Hardware) (r : IrRemote) (c : IrCode) : Decidable (LeadsKept hw r c) :=
  inferInstanceAs (Decidable (_ ∧ _))

/-- What is pending does not merge with the first half of a bit. -/
def Unmerged (r : IrRemote) (q : Option Part) : Prop := ∀ p, q = some p → p.high = isSpaceFirst r

/-- What may follow a bit. -/
def FollowsBit (r : IrRemote) (ps : List Part) : Prop :=
  if isSpaceFirst r then StartsOff true ps else SpaceEncoded.Follows r ps

namespace LedIn

variable {hw : Hardware} {r : IrRemote}

theorem notSpaceFirst (_ : LedIn hw r) (henc : isSpaceEnc r = true) : isSpaceFirst r = false :=
  protocolIs_unique (p := spaceEnc) henc (by decide)

theorem bitCoded (h : LedIn hw r) (ht : Tolerant r) : BitCoded r := by
  obtain ⟨p, hp, h1, h2, h3, h4, h5, h6, h7⟩ : ∃ p, r.protocolIs p = true ∧ p ≠ rawCodes ∧
      p ≠ rcmm ∧ p ≠ grundig ∧ p ≠ serial ∧ p ≠ bo ∧ p ≠ xmp ∧ p ≠ goldstar := by
    rcases h.protocol with ⟨henc, -⟩ | ⟨hfirst, -⟩
    · exact ⟨spaceEnc, henc, by decide⟩
    · exact ⟨spaceFirst, hfirst, by decide⟩
  exact
    { notRaw := protocolIs_unique hp h1
      notRcmm := protocolIs_unique hp h2
      notGrundig := protocolIs_unique hp h3
      notSerial := protocolIs_unique hp h4
      notBo := protocolIs_unique hp h5
      notXmp := protocolIs_unique hp h6
      notGoldstar := protocolIs_unique hp h7
      noToggleBitMask := h.noToggleBitMask
      noToggleMask := h.noToggleMask
      bits_le := h.bits_le
      tolerant := ht }

theorem notBiphase (h : LedIn hw r) : isBiphase r = false := by
  obtain ⟨p, hp, h5, h6⟩ : ∃ p, r.protocolIs p = true ∧ p ≠ rc5 ∧ p ≠ rc6 := by
    rcases h.protocol with ⟨henc, -⟩ | ⟨hfirst, -⟩
    · exact ⟨spaceEnc, henc, by decide⟩
    · exact ⟨spaceFirst, hfirst, by decide⟩
  have h5 := protocolIs_unique (q := rc5) hp h5
  have h6 := protocolIs_unique (q := rc6) hp h6
  simp [isBiphase, isRc5, isRc6, h5, h6, h.noRc6Mask]

theorem spaceBits (h : LedIn hw r) (he : EndsBits hw r) (henc : isSpaceEnc r = true) :
    SpaceBits hw r where
  notBiphase := h.notBiphase
  notSpaceFirst := h.notSpaceFirst henc
  noRc6Mask := h.noRc6Mask
  pone := h.pone
  sone := h.sone
  pzero := h.pzero
  szero := h.szero
  apart := by
    split
    · exact h.apart
    · have := h.trail
      exact he.pulses henc (by omega)

theorem spaceFirstBits (h : LedIn hw r) (hfirst : isSpaceFirst r = true) : SpaceFirstBits hw r where
  notBiphase := h.notBiphase
  spaceFirst := hfirst
  noRc6Mask := h.noRc6Mask
  pone := h.pone
  sone := h.sone
  pzero := h.pzero
  szero := h.szero
  apart := h.apart

/-- A bit is read if nothing merges with it, if it is a one, or if the first
half tells that it is not. -/
theorem readsBit (h : LedIn hw r) (he : EndsBits hw r) (ht : Tolerant r) {q : Option Part}
    {i : ℕ} {v : Bool} (hq : Unmerged r q ∨ v = true ∨ FirstHalvesApart hw r) :
    ReadsBit hw r (Unmerged r) (FollowsBit r) q i v := by
  intro rest b total tail hrest hb
  rcases h.protocol with ⟨henc, -⟩ | ⟨hfirst, -⟩
  · have hs := h.spaceBits he henc
    have hlow := hs.notSpaceFirst
    have hpending : ∀ q', SpaceEncoded.Pending q' → Unmerged r q' := by
      rintro q' (rfl | ⟨x, rfl⟩) p hp
      · cases hp
      · obtain rfl := Option.some.inj hp
        exact hlow.symm
    rw [FollowsBit, hlow, if_neg Bool.false_ne_true] at hrest
    rw [hs.bitParts_eq] at hb
    cases v with
    | true =>
        obtain ⟨b', q', hone, hq', h'⟩ := hs.expectOne_ok ht hrest i hb
        exact ⟨b', q', by simp [readBit, hone], hpending q' hq', h'⟩
    | false =>
        obtain ⟨b₁, q₁, hone, h₁⟩ : ∃ b₁ q₁, expectOne hw r i b = (false, b₁) ∧
            b₁.At q₁ (pulse r.pzero :: space r.szero :: rest) total tail := by
          rcases q with _ | ⟨_ | _, x⟩
          · obtain ⟨b₁, hone, h₁⟩ := hs.expectOne_zero ht hrest (.inl rfl) i hb
            exact ⟨b₁, none, hone, h₁⟩
          · obtain ⟨b₁, hone, h₁⟩ := hs.expectOne_zero ht hrest (.inr ⟨x, rfl⟩) i hb
            exact ⟨b₁, none, hone, h₁⟩
          · have hp : expect hw r r.pzero r.pone = false := by
              rcases hq with hq | hq | hq
              · have := hq _ rfl
                simp [hlow] at this
              · cases hq
              · rwa [FirstHalvesApart, hlow, if_neg Bool.false_ne_true] at hq
            obtain ⟨b₁, hone, h₁⟩ := hs.expectOne_merged hp i hb
            exact ⟨b₁, _, hone, h₁⟩
        obtain ⟨b', q', hzero, hq', h'⟩ := hs.expectZero_ok ht hrest i h₁
        exact ⟨b', q', by simp [readBit, hone, hzero], hpending q' hq', h'⟩
  · have hs := h.spaceFirstBits hfirst
    have hnone : Unmerged r none := fun p hp => by cases hp
    rw [FollowsBit, if_pos hfirst] at hrest
    rw [hs.bitParts_eq] at hb
    cases v with
    | true =>
        obtain ⟨b', hone, h'⟩ := hs.expectOne_ok ht hrest i hb
        exact ⟨b', none, by simp [readBit, hone], hnone, h'⟩
    | false =>
        obtain ⟨b₁, q₁, hone, h₁⟩ : ∃ b₁ q₁, expectOne hw r i b = (false, b₁) ∧
            b₁.At q₁ (space r.szero :: pulse r.pzero :: rest) total tail := by
          rcases q with _ | ⟨_ | _, x⟩
          · obtain ⟨b₁, hone, h₁⟩ := hs.expectOne_zero ht hrest (.inl rfl) i hb
            exact ⟨b₁, none, hone, h₁⟩
          · have hp : expect hw r r.szero r.sone = false := by
              rcases hq with hq | hq | hq
              · have := hq _ rfl
                simp [hfirst] at this
              · cases hq
              · rwa [FirstHalvesApart, if_pos hfirst] at hq
            obtain ⟨b₁, hone, h₁⟩ := hs.expectOne_merged hp i hb
            exact ⟨b₁, _, hone, h₁⟩
          · obtain ⟨b₁, hone, h₁⟩ := hs.expectOne_zero ht hrest (.inr ⟨x, rfl⟩) i hb
            exact ⟨b₁, none, hone, h₁⟩
        obtain ⟨b', hzero, h'⟩ := hs.expectZero_ok ht hrest i h₁
        exact ⟨b', none, by simp [readBit, hone, hzero], hnone, h'⟩

/-- Before a bit comes what may follow one. -/
theorem bitParts_follows (h : LedIn hw r) (mask : IrCode) (v : Bool) (rest : List Part) :
    FollowsBit r (bitParts r mask v ++ rest) := by
  unfold FollowsBit
  rcases h.protocol with ⟨henc, -⟩ | ⟨hfirst, -⟩
  · have hlow := h.notSpaceFirst henc
    rw [hlow, if_neg Bool.false_ne_true]
    intro _
    cases v <;> simp [bitParts, oneParts, zeroParts, h.notBiphase, hlow, h.noRc6Mask]
  · rw [if_pos hfirst]
    cases v <;> simp [bitParts, oneParts, zeroParts, h.notBiphase, hfirst, h.noRc6Mask]

theorem bitParts_positive (h : LedIn hw r) (mask : IrCode) (v : Bool) :
    Positive (bitParts r mask v) := by
  have h1 := h.pone
  have h2 := h.sone
  have h3 := h.pzero
  have h4 := h.szero
  cases v <;> cases hs : isSpaceFirst r <;>
    simp [bitParts, oneParts, zeroParts, h.notBiphase, hs, h.noRc6Mask, h1, h2, h3, h4]

theorem exists_pulse (h : LedIn hw r) (mask : IrCode) (v : Bool) :
    ∃ p ∈ bitParts r mask v, p.high = true := by
  cases v <;> cases hs : isSpaceFirst r <;>
    simp [bitParts, oneParts, zeroParts, h.notBiphase, hs, h.noRc6Mask]

/-- The segments of a signal in which no lead-in is lost. -/
def Data (hw : Hardware) (r : IrRemote) (st : Stage) (data : IrCode) (bits done : ℕ)
    (ps : List Part) : Prop :=
  SentData r data bits done ps ∧ LeadKept hw r st data bits

theorem readsSegments (h : LedIn hw r) (he : EndsBits hw r) (ht : Tolerant r) :
    ReadsSegments hw r (Data hw r) (fun st q => st.merges r = false → Unmerged r q)
      (fun bits rest => 0 < bits → FollowsBit r rest) where
  segment := by
    rintro st data bits done ps q rest b total tail ⟨⟨rfl, hn⟩, hkept⟩ hq hrest hb
    have hc := h.bitCoded ht
    have hbits := hc.bits_le
    rw [dataParts_eq hc.toBitwise] at hb
    obtain ⟨b', q', hloop, hq', h'⟩ :=
      getBitLoop_first hc (fun _ hq => h.readsBit he ht (.inl hq))
        (fun mask v rest _ => h.bitParts_follows mask v rest) 0 hn
        (fun hpos => by
          obtain ⟨n, rfl⟩ : ∃ n, bits = n + 1 := ⟨bits - 1, by omega⟩
          refine h.readsBit he ht ?_
          rw [reverse_succ_and_one (by omega)]
          cases hm : st.merges r with
          | true => exact .inr (hkept hpos hm)
          | false => exact .inl (hq hm)) hrest hb
    refine ⟨b', q', ?_, ?_, h'⟩
    · rw [getData_eq hc.toBitwise, hloop, collectBits_reverse (by omega)]
    · unfold Stage.after
      by_cases hzero : bits = 0
      · rw [if_pos hzero] at hq' ⊢
        rwa [hq']
      · rw [if_neg hzero] at hq' ⊢
        exact fun _ => hq'
  pause := by
    intro x hm p hp
    obtain rfl := Option.some.inj hp
    exact hm.symm

/-! ### The whole signal -/

/-- The parts of the signal after the header where the constant data comes. -/
theorem bodyParts_eq (r : IrRemote) (c : IrCode) :
    bodyParts r c = leadParts r ++
      ((if hasPre r then dataParts r r.preData r.preDataBits 0 ++ prePauseParts r else []) ++
        (dataParts r c r.bits r.preDataBits ++
          ((if hasPost r then
              postPauseParts r ++
                dataParts r r.postData r.postDataBits (r.preDataBits + r.bits)
            else []) ++ (trailParts r ++ footParts r)))) := rfl

theorem dataParts_follows (h : LedIn hw r) (ht : Tolerant r) {rest : List Part}
    (hrest : FollowsBit r rest) (data : IrCode) (bits done : ℕ) :
    FollowsBit r (dataParts r data bits done ++ rest) := by
  rw [dataParts_eq (h.bitCoded ht).toBitwise]
  exact bitLoopParts_before (fun mask v rest _ => h.bitParts_follows mask v rest) hrest

/-- A pulse may follow a bit unless that ends with one. -/
theorem pulse_follows {a : ℤ} (rest : List Part) (hlow : isSpaceFirst r = false) :
    FollowsBit r (pulse a :: rest) := by
  rw [FollowsBit, hlow, if_neg Bool.false_ne_true]
  exact fun _ => ⟨a, rest, rfl⟩

theorem prePause_follows (he : EndsBits hw r) (hpre : 0 < r.preDataBits) {rest : List Part}
    (hrest : FollowsBit r rest) : FollowsBit r (prePauseParts r ++ rest) := by
  unfold prePauseParts
  split
  · next hp =>
      refine pulse_follows _ ?_
      by_contra hfirst
      exact he.prePause (by simpa using hfirst) hpre hp
  · exact hrest

theorem postParts_follows (h : LedIn hw r) (he : EndsBits hw r) (ht : Tolerant r)
    (hbits : 0 < r.preDataBits + r.bits) {rest : List Part} (hrest : FollowsBit r rest) :
    FollowsBit r ((if hasPost r then
      postPauseParts r ++ dataParts r r.postData r.postDataBits (r.preDataBits + r.bits)
        else []) ++ rest) := by
  unfold postPauseParts
  split
  · next hpost =>
      split
      · next hp =>
          refine pulse_follows _ ?_
          by_contra hfirst
          exact he.postPause (by simpa using hfirst) (by simpa [hasPost] using hpost) hbits hp
      · exact h.dataParts_follows ht hrest _ _ _
  · exact hrest

theorem trailParts_follows (he : EndsBits hw r) (hbits : 0 < bitCount r) :
    FollowsBit r (trailParts r ++ footParts r) := by
  unfold FollowsBit
  split
  · next hfirst =>
      have htrail := he.trail hfirst hbits
      rw [trailParts, if_neg (by simpa using htrail)]
      exact footParts_startsOff r
  · intro htrail
    have hne : r.ptrail ≠ 0 := by omega
    rw [trailParts, if_pos hne]
    exact ⟨_, _, rfl⟩

theorem regular (h : LedIn hw r) (ht : Tolerant r) {c : IrCode} (hclose : HeaderCloses r c) :
    Regular r := by
  have hc := h.bitCoded ht
  refine ⟨fun st c rep => ?_, fun st c' => ?_, h.lead, h.trail⟩
  · rw [codeParts_withToggle hc]
    exact codeParts_positive hc h.bitParts_positive h.lead h.trail c rep
  · rw [codeParts_withToggle hc]
    by_cases hbits : 0 < bitCount r
    · exact exists_bit_mem hc hbits h.exists_pulse c' true
    · rcases h.protocol with ⟨-, hl⟩ | ⟨-, hhead⟩
      · have hne : r.plead ≠ 0 := by omega
        exact ⟨pulse r.plead, by simp [codeParts, leadParts, hne], rfl⟩
      · exact hclose.exists_pulse hc hhead (by omega) c'

/-- With a lead-in that is kept, the signal is read back as it was sent. -/
theorem returned (h : LedIn hw r) (he : EndsBits hw r) (ht : Tolerant r) {c : IrCode}
    (hclose : HeaderCloses r c) (hkept : LeadsKept hw r c) (hcode : c &&& genMask r.bits = c) :
    Returned hw r c where
  coded := h.bitCoded ht
  regular := h.regular ht hclose
  starts := by
    rw [codeParts_first]
    by_cases hhead : hasHeader r = true
    · simp [headerParts, hhead]
    · rcases h.protocol with ⟨-, hl⟩ | ⟨-, hhead'⟩
      · have hne : r.plead ≠ 0 := by omega
        simp [headerParts, hhead, bodyParts, leadParts, hne]
      · exact absurd hhead' hhead
  header := hclose
  headerLength := by
    have := h.phead
    have := h.shead
    omega
  body := by
    intro b total long tail hlong hgap hb
    have hc := h.bitCoded ht
    obtain ⟨hpre, hdata, hpost⟩ := hkept
    have hcount : bitCount r = r.preDataBits + r.bits + r.postDataBits := rfl
    obtain ⟨x, hq⟩ := headerPending r
    have hpending : Stage.lead.merges r = false → Unmerged r (if r.plead = 0 then
        (if hasHeader r && !r.has noHeadRep then some (space r.shead) else none)
        else some (pulse r.plead)) := by
      intro hm
      unfold Stage.merges at hm
      rcases h.protocol with ⟨henc, hl⟩ | ⟨hfirst, -⟩
      · have hne : r.plead ≠ 0 := by omega
        simp [h.notSpaceFirst henc, hne] at hm
      · rw [if_pos hfirst, beq_eq_false_iff_ne] at hm
        rw [if_neg hm]
        intro p hp
        obtain rfl := Option.some.inj hp
        exact hfirst.symm
    have htrail : 0 < bitCount r → FollowsBit r (trailParts r ++ footParts r) :=
      trailParts_follows he
    have hafter : 0 < r.preDataBits + r.bits → FollowsBit r ((if hasPost r then
        postPauseParts r ++ dataParts r r.postData r.postDataBits (r.preDataBits + r.bits)
          else []) ++ (trailParts r ++ footParts r)) := fun hpos =>
      h.postParts_follows he ht hpos (htrail (by omega))
    rw [bodyParts_eq] at hb
    obtain ⟨b', hbits, -⟩ :=
      decodeSegments_ok ht h.bits_le (h.readsSegments he ht)
        (fun _ => ⟨⟨rfl, by omega⟩, hpre⟩) ⟨⟨rfl, by omega⟩, hdata⟩
        (fun _ => ⟨⟨rfl, by omega⟩, hpost⟩) (hasHeader r) hq hpending
        (fun _ hpos => prePause_follows he hpos
          (h.dataParts_follows ht (hafter (by omega)) c r.bits r.preDataBits))
        (fun hpos => hafter (by omega)) (fun _ hpos => htrail (by omega)) hlong
        (by simpa [endGap, hc.notRcmm] using hgap) hb
    rw [h.preData, hcode, h.postData] at hbits
    exact ⟨b', hbits⟩

end LedIn

/-- What a remote with a lead-in sends is what it receives, if the lead-in is
kept. -/
theorem ledIn_roundTrip {hw : Hardware} {r : IrRemote} (h : LedIn hw r) (he : EndsBits hw r)
    (ht : Tolerant r) {c : IrCode} (hclose : HeaderCloses r c) (hkept : LeadsKept hw r c)
    {last : LastRemote} {b : RBuf} (hx : Transfer hw r c last b) (now : ℕ) :
    (receiveDecode hw r last now b).1.map (fun d => (d.pre, d.code, d.post)) =
      some (r.preData, c, r.postData) :=
  (h.returned he ht hclose hkept hx.within).decodes hx now

/-! ### Single remotes -/

/-- A space first remote whose bits differ in their spaces. -/
def spaceFirstRemote : IrRemote :=
  { flags := spaceFirst, eps := 20, aeps := 50, bits := 2, phead := 9000, shead := 4500,
    pone := 560, sone := 1690, pzero := 560, szero := 560, gap := 108000 }

/-- A space encoded remote with a lead pulse whose bits differ in their pulses. -/
def leadPulseRemote : IrRemote :=
  { flags := spaceEnc, eps := 20, aeps := 50, bits := 2, plead := 444, pone := 1690,
    sone := 560, pzero := 560, szero := 560, gap := 108000 }

theorem ledIn_roundTrip_runs :
    (receiveDecode mode2Hardware spaceFirstRemote .null 0
        { input := feed 200000 [9000, 5060, 560, 1690, 560] 150000 }).1.map
          (fun d => (d.pre, d.code, d.post)) = some (0, 1, 0) ∧
    (receiveDecode mode2Hardware leadPulseRemote .null 0
        { input := feed 200000 [1004, 560, 1690] 150000 }).1.map
          (fun d => (d.pre, d.code, d.post)) = some (0, 1, 0) := by
  constructor
  · exact ledIn_roundTrip (by constructor <;> decide) (by constructor <;> decide) (by decide)
      (fun _ hn => absurd hn (by decide)) (by decide)
      (Transfer.of_samples { name := ['1'], code := 1 } 1 (by decide) (by decide) (by decide)
        (by decide +kernel) (by exact trivial) (by decide) (by decide) (by decide) (by decide)) 0
  · exact ledIn_roundTrip (by constructor <;> decide) (by constructor <;> decide) (by decide)
      (fun _ hn => absurd hn (by decide)) (by decide)
      (Transfer.of_samples { name := ['1'], code := 1 } 1 (by decide) (by decide) (by decide)
        (by decide +kernel) (by exact trivial) (by decide) (by decide) (by decide) (by decide)) 0

/-- The remote and the transfer are as they should be, but the code that was sent
is not decoded. -/
def LeadMisread (r : IrRemote) (c : IrCode) (ws : List ℤ) : Prop :=
  LedIn mode2Hardware r ∧
    Transfer mode2Hardware r c .null { input := feed 200000 ws 150000 } ∧
    (receiveDecode mode2Hardware r .null 0 { input := feed 200000 ws 150000 }).1.map
      (fun d => (d.pre, d.code, d.post)) ≠ some (r.preData, c, r.postData)

theorem LeadMisread.of_samples {r : IrRemote} {c : IrCode} {ws : List ℤ} (code : IrNcode)
    (h : LedIn mode2Hardware r) (hwithin : c &&& genMask r.bits = c)
    (hdue : nextCode code false code.transmitState = c)
    (hsent : ((initSend r code false initSendBuffer 1).map
      fun out => (out.ok, out.buf.samples)) = some (true, ws))
    (hmax : maxGap r ≤ 150000) (hws : ∀ x ∈ ws, Representable (pulse x))
    (hread : (receiveDecode mode2Hardware r .null 0 { input := feed 200000 ws 150000 }).1.map
      (fun d => (d.pre, d.code, d.post)) ≠ some (r.preData, c, r.postData)) :
    LeadMisread r c ws :=
  ⟨h, Transfer.of_samples code 1 (by decide) hwithin hdue hsent (by exact trivial) hmax
    (by decide) hws (by decide), hread⟩

/-- A lead-in is lost where only the second half of a first bit zero differs,
for either kind of remote. Besides, the round trip fails without a trailing pulse
for bits that differ in their spaces, for a trailing pulse, a pause after the pre
data, a pause before the post data or a header with `NO_HEAD_REP` next to space
first bits, and for negative tolerances. -/
theorem ledIn_roundTrip_fails :
    LeadMisread { leadPulseRemote with pone := 560, sone := 1690, ptrail := 560 } 1
      [1004, 560, 560, 1690, 560] ∧
    LeadMisread { spaceFirstRemote with pone := 1690, sone := 560 } 1
      [9000, 5060, 560, 560, 1690] ∧
    LeadMisread { leadPulseRemote with pone := 560, sone := 1690 } 2 [1004, 1690, 560] ∧
    LeadMisread { spaceFirstRemote with ptrail := 560 } 1 [9000, 5060, 560, 1690, 1120] ∧
    LeadMisread { spaceFirstRemote with preDataBits := 1, preData := 1, preP := 560, preS := 2000 }
      1 [9000, 6190, 1120, 2560, 560, 1690, 560] ∧
    LeadMisread { spaceFirstRemote with postDataBits := 1, postData := 1, postP := 560,
                                        postS := 2000 } 1
      [9000, 5060, 560, 1690, 1120, 3690, 560] ∧
    LeadMisread { spaceFirstRemote with flags := spaceFirst ||| noHeadRep } 1
      [9000, 5060, 560, 1690, 560] ∧
    LeadMisread { spaceFirstRemote with eps := -1, aeps := -1 } 1
      [9000, 5060, 560, 1690, 560] := by
  refine ⟨?_, ?_, ?_, ?_, ?_, ?_, ?_, ?_⟩
  · exact .of_samples { name := ['1'], code := 1 } (by constructor <;> decide) (by decide)
      (by decide) (by decide +kernel) (by decide) (by decide) (by decide +kernel)
  · exact .of_samples { name := ['1'], code := 1 } (by constructor <;> decide) (by decide)
      (by decide) (by decide +kernel) (by decide) (by decide) (by decide +kernel)
  · exact .of_samples { name := ['2'], code := 2 } (by constructor <;> decide) (by decide)
      (by decide) (by decide +kernel) (by decide) (by decide) (by decide +kernel)
  · exact .of_samples { name := ['1'], code := 1 } (by constructor <;> decide) (by decide)
      (by decide) (by decide +kernel) (by decide) (by decide) (by decide +kernel)
  · exact .of_samples { name := ['1'], code := 1 } (by constructor <;> decide) (by decide)
      (by decide) (by decide +kernel) (by decide) (by decide) (by decide +kernel)
  · exact .of_samples { name := ['1'], code := 1 } (by constructor <;> decide) (by decide)
      (by decide) (by decide +kernel) (by decide) (by decide) (by decide +kernel)
  · exact .of_samples { name := ['1'], code := 1 } (by constructor <;> decide) (by decide)
      (by decide) (by decide +kernel) (by decide) (by decide) (by decide +kernel)
  · exact .of_samples { name := ['1'], code := 1 } (by constructor <;> decide) (by decide)
      (by decide) (by decide +kernel) (by decide) (by decide) (by decide +kernel)

end Lirc
