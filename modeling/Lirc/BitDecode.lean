import Lirc.Matching
import Lirc.CodeWord
import Lirc.Waveform

/-!
Remotes whose signals are decoded bit by bit. Lead, data, pauses, trail and
foot are read back as `send_code` has sent them, given that single bits
are.
-/

namespace Lirc

open Signal

/-- A remote decoded by the loop at the end of `get_data`, without toggle
masks. -/
structure Bitwise (r : IrRemote) : Prop where
  notRaw : isRaw r = false
  notRcmm : isRcmm r = false
  notGrundig : isGrundig r = false
  notSerial : isSerial r = false
  notBo : isBo r = false
  notXmp : isXmp r = false
  notGoldstar : isGoldstar r = false
  noToggleBitMask : hasToggleBitMask r = false
  noToggleMask : hasToggleMask r = false

/-- Its codes are small enough never to be the mark of a failure. -/
structure BitCoded (r : IrRemote) : Prop extends Bitwise r where
  bits_le : bitCount r ≤ 63
  tolerant : Tolerant r

/-- One round of the bit by bit loop: the bit that was read. -/
def readBit (hw : Hardware) (r : IrRemote) (bit : ℕ) (b : RBuf) : Option Bool × RBuf :=
  match expectOne hw r bit b with
  | (true, b) => (some true, b)
  | (false, b) =>
      match expectZero hw r bit b with
      | (true, b) => (some false, b)
      | (false, b) => (none, b)

/-- The number of half-bit lengths in each half of a bit. -/
def halves (r : IrRemote) (mask : IrCode) : ℤ := if mask &&& r.rc6Mask != 0 then 2 else 1

theorem halves_mem (r : IrRemote) (mask : IrCode) : halves r mask ∈ [1, 2] := by
  rw [halves]
  split <;> simp

section Loop

variable {hw : Hardware} {r : IrRemote}

theorem getBitLoop_succ (hg : isGoldstar r = false) (n bit : ℕ) (code : IrCode) (b : RBuf) :
    getBitLoop hw (n + 1) bit code r b =
      match readBit hw r bit b with
      | (some v, b) =>
          getBitLoop hw n (bit + 1) (code <<< 1 ||| (if v then 1 else 0)) r b
      | (none, b) => (noCode, r, b) := by
  rw [getBitLoop, goldstarTimings, hg]
  simp only [Bool.false_eq_true, if_false, readBit]
  cases h1 : expectOne hw r bit b with
  | mk ok b₁ =>
      cases ok with
      | true => rfl
      | false =>
          simp only
          cases h2 : expectZero hw r bit b₁ with
          | mk ok b₂ => cases ok <;> simp

theorem toggledData_eq (hb : hasToggleBitMask r = false) (ht : hasToggleMask r = false)
    (mask data : IrCode) : toggledData r mask data = data := by
  simp [toggledData, hb, ht]

/-- The running mask of the encoder is the mask of the next bit. -/
theorem bitLoopParts_next {n bit : ℕ} (hn : bit + 1 + n ≤ bitCount r) (hle : bitCount r ≤ 64)
    (data : IrCode) :
    bitLoopParts r n data (bitMask r bit >>> 1) = bitLoopParts r n data (bitMask r (bit + 1)) := by
  cases n with
  | zero => rfl
  | succ n =>
      have hmask : bitMask r bit >>> 1 = bitMask r (bit + 1) := by
        rw [bitMask, bitMask,
          oneShl_ushiftRight (k := bitCount r - 1 - bit) (by omega) (by omega)]
        congr 1
      rw [hmask]

/-- What a signal of single bits needs of the decoder: with something in `Q`
pending, and with a signal in `S` after it, a bit is read as it was sent. -/
structure ReadsBits (hw : Hardware) (r : IrRemote) (Q : Option Part → Prop)
    (S : List Part → Prop) : Prop where
  bit : ∀ {i q v rest b total tail}, i < bitCount r → Q q → S rest →
    RBuf.At b q (bitParts r (bitMask r i) v ++ rest) total tail →
    ∃ b' q', readBit hw r i b = (some v, b') ∧ Q q' ∧ b'.At q' rest total tail
  before : ∀ mask v rest, S rest → S (bitParts r mask v ++ rest)
  before_pulse : ∀ a rest, S (pulse a :: rest)
  space : ∀ x, Q (some (space x))

theorem bitLoopParts_before {S : List Part → Prop}
    (hS : ∀ mask v rest, S rest → S (bitParts r mask v ++ rest)) {n : ℕ} {data mask : IrCode}
    {rest : List Part} (h : S rest) : S (bitLoopParts r n data mask ++ rest) := by
  induction n generalizing data mask with
  | zero => exact h
  | succ n ih =>
      rw [bitLoopParts, List.append_assoc]
      exact hS _ _ _ ih

/-- The decoder reads the bit number `i` as `v` from what comes, and something in
`Q` is pending then. -/
def ReadsBit (hw : Hardware) (r : IrRemote) (Q : Option Part → Prop) (S : List Part → Prop)
    (q : Option Part) (i : ℕ) (v : Bool) : Prop :=
  ∀ {rest b total tail}, S rest →
    RBuf.At b q (bitParts r (bitMask r i) v ++ rest) total tail →
    ∃ b' q', readBit hw r i b = (some v, b') ∧ Q q' ∧ b'.At q' rest total tail

/-- The loop reads the bits that were sent, given that it reads the first one. -/
theorem getBitLoop_first (hc : BitCoded r) {Q : Option Part → Prop} {S : List Part → Prop}
    (hbit : ∀ {i q v}, i < bitCount r → Q q → ReadsBit hw r Q S q i v)
    (hS : ∀ mask v rest, S rest → S (bitParts r mask v ++ rest)) {n bit : ℕ} {data : IrCode}
    (code : IrCode) {q : Option Part} {rest : List Part} {b : RBuf} {total : ℤ}
    {tail : List ℕ} (hn : bit + n ≤ bitCount r)
    (hfirst : 0 < n → ReadsBit hw r Q S q bit (data &&& 1 != 0)) (hrest : 0 < n → S rest)
    (h : b.At q (bitLoopParts r n data (bitMask r bit) ++ rest) total tail) :
    ∃ b' q', getBitLoop hw n bit code r b = (collectBits n data code, r, b') ∧
      (if n = 0 then q' = q else Q q') ∧ b'.At q' rest total tail := by
  induction n generalizing bit data code q b with
  | zero => exact ⟨b, q, rfl, rfl, h⟩
  | succ n ih =>
      have hbits := hc.bits_le
      have hrest := hrest n.succ_pos
      rw [bitLoopParts, toggledData_eq hc.noToggleBitMask hc.noToggleMask,
        List.append_assoc] at h
      obtain ⟨b₁, q₁, hread, hq₁, h₁⟩ :=
        hfirst n.succ_pos (bitLoopParts_before hS hrest) h
      have h₁' : b₁.At q₁ (bitLoopParts r n (data >>> 1) (bitMask r (bit + 1)) ++ rest)
          total tail := by
        rwa [bitLoopParts_next (by omega) (by omega)] at h₁
      obtain ⟨b₂, q₂, hloop, hq₂, h₂⟩ :=
        ih (code <<< 1 ||| (if data &&& 1 != 0 then 1 else 0)) (by omega)
          (fun _ => hbit (by omega) hq₁) (fun _ => hrest) h₁'
      have hq₂' : Q q₂ := by
        split at hq₂
        · rwa [hq₂]
        · exact hq₂
      refine ⟨b₂, q₂, ?_, hq₂', h₂⟩
      rw [getBitLoop_succ hc.notGoldstar, hread]
      simp only
      rw [hloop, collectBits]
      congr 3
      rcases and_one_cases data with hbit | hbit
      · rw [hbit]; rfl
      · rw [hbit]; rfl

/-- The loop reads the bits that were sent. -/
theorem getBitLoop_ok (hc : BitCoded r) {Q : Option Part → Prop} {S : List Part → Prop}
    (hR : ReadsBits hw r Q S) {n bit : ℕ} {data : IrCode} (code : IrCode) {q : Option Part}
    {rest : List Part} {b : RBuf} {total : ℤ} {tail : List ℕ} (hn : bit + n ≤ bitCount r)
    (hq : Q q) (hrest : S rest)
    (h : b.At q (bitLoopParts r n data (bitMask r bit) ++ rest) total tail) :
    ∃ b' q', getBitLoop hw n bit code r b = (collectBits n data code, r, b') ∧ Q q' ∧
      b'.At q' rest total tail := by
  obtain ⟨b', q', hloop, hq', h'⟩ :=
    getBitLoop_first hc (fun hi hq _ _ _ _ hrest h => hR.bit hi hq hrest h) hR.before code hn
      (fun hpos _ _ _ _ hrest h => hR.bit (by omega) hq hrest h) (fun _ => hrest) h
  refine ⟨b', q', hloop, ?_, h'⟩
  split at hq'
  · rwa [hq']
  · exact hq'

end Loop

/-! ### The signal without toggle masks -/

section Parts

variable {r : IrRemote}

theorem bitLoopParts_withToggle (hb : hasToggleBitMask r = false) (ht : hasToggleMask r = false)
    (st : ℤ) (n : ℕ) (data mask : IrCode) :
    bitLoopParts (r.withToggle st) n data mask = bitLoopParts r n data mask := by
  induction n generalizing data mask with
  | zero => rfl
  | succ n ih =>
      have hb' : hasToggleBitMask (r.withToggle st) = false := hb
      have ht' : hasToggleMask (r.withToggle st) = false := ht
      simp only [bitLoopParts, toggledData_eq hb ht, toggledData_eq hb' ht', ih]
      rfl

theorem dataParts_withToggle (hc : BitCoded r) (st : ℤ) (data : IrCode) (bits done : ℕ) :
    dataParts (r.withToggle st) data bits done = dataParts r data bits done := by
  have hr : isRcmm (r.withToggle st) = false := hc.notRcmm
  have hx : isXmp (r.withToggle st) = false := hc.notXmp
  simp only [dataParts, hr, hx, hc.notRcmm, hc.notXmp, Bool.false_eq_true, if_false]
  exact bitLoopParts_withToggle hc.noToggleBitMask hc.noToggleMask st _ _ _

/-- Without toggle masks the signal does not depend on their state. -/
theorem codeParts_withToggle (hc : BitCoded r) (st : ℤ) (c : IrCode) (rep : Bool) :
    codeParts (r.withToggle st) c rep = codeParts r c rep := by
  have hdata := dataParts_withToggle hc st
  have hpre : preParts (r.withToggle st) = preParts r := by
    unfold preParts; rw [hdata]; rfl
  have hpost : postParts (r.withToggle st) = postParts r := by
    unfold postParts; rw [hdata]; rfl
  simp only [codeParts, hpre, hpost, hdata]
  rfl

theorem bitLoopParts_positive (hbit : ∀ mask v, Positive (bitParts r mask v)) (n : ℕ)
    (data mask : IrCode) : Positive (bitLoopParts r n data mask) := by
  induction n generalizing data mask with
  | zero => simp [bitLoopParts]
  | succ n ih => simp [bitLoopParts, hbit, ih]

/-- A remote with positive bits sends positive parts. -/
theorem codeParts_positive (hc : BitCoded r) (hbit : ∀ mask v, Positive (bitParts r mask v))
    (hlead : 0 ≤ r.plead) (htrail : 0 ≤ r.ptrail) (c : IrCode) (rep : Bool) :
    Positive (codeParts r c rep) := by
  have hdata : ∀ data bits done, Positive (dataParts r data bits done) := by
    intro data bits done
    simp only [dataParts, hc.notRcmm, hc.notXmp, Bool.false_eq_true, if_false]
    exact bitLoopParts_positive hbit _ _ _
  have hhead : Positive (headerParts r) := by
    unfold headerParts
    split
    · next hh => simpa [hasHeader] using hh
    · simp
  have hfoot : Positive (footParts r) := by
    unfold footParts
    split
    · next hh => simpa [hasFoot, and_comm] using hh
    · simp
  have hl : Positive (leadParts r) := by
    unfold leadParts
    split
    · simp only [positive_cons, positive_nil, and_true]; omega
    · simp
  have ht : Positive (trailParts r) := by
    unfold trailParts
    split
    · simp only [positive_cons, positive_nil, and_true]; omega
    · simp
  have hpre : Positive (preParts r) := by
    unfold preParts prePauseParts
    split
    · split
      · next hp => simpa [hdata] using hp
      · simp [hdata]
    · simp
  have hpost : Positive (postParts r) := by
    unfold postParts postPauseParts
    split
    · split
      · next hp => simpa [hdata] using hp
      · simp [hdata]
    · simp
  simp only [codeParts, positive_append]
  refine ⟨⟨⟨⟨⟨⟨?_, hl⟩, hpre⟩, hdata _ _ _⟩, hpost⟩, ht⟩, ?_⟩
  · split
    · exact hhead
    · simp
  · split
    · exact hfoot
    · simp

/-- With at least one bit, some segment of the signal has data. -/
theorem exists_bit_mem (hc : BitCoded r) (hbits : 0 < bitCount r)
    (hbit : ∀ mask v, ∃ p ∈ bitParts r mask v, p.high = true) (c : IrCode) (rep : Bool) :
    ∃ p ∈ codeParts r c rep, p.high = true := by
  have hdata : ∀ data bits done, 0 < bits →
      ∃ p ∈ dataParts r data bits done, p.high = true := by
    intro data bits done hpos
    obtain ⟨n, rfl⟩ : ∃ n, bits = n + 1 := ⟨bits - 1, by omega⟩
    simp only [dataParts, hc.notRcmm, hc.notXmp, Bool.false_eq_true, if_false, bitLoopParts]
    obtain ⟨p, hp, hhigh⟩ := hbit ((1 : IrCode) <<< (bitCount r - 1 - done))
      (toggledData r ((1 : IrCode) <<< (bitCount r - 1 - done)) (reverse data (n + 1)) &&& 1 != 0)
    exact ⟨p, List.mem_append_left _ hp, hhigh⟩
  unfold bitCount at hbits
  by_cases hpre : 0 < r.preDataBits
  · obtain ⟨p, hp, hhigh⟩ := hdata r.preData r.preDataBits 0 hpre
    exact ⟨p, by simp [codeParts, preParts, hasPre, hpre, hp], hhigh⟩
  · by_cases hcode : 0 < r.bits
    · obtain ⟨p, hp, hhigh⟩ := hdata c r.bits r.preDataBits hcode
      exact ⟨p, by simp [codeParts, hp], hhigh⟩
    · have hpost : 0 < r.postDataBits := by omega
      obtain ⟨p, hp, hhigh⟩ := hdata r.postData r.postDataBits (r.preDataBits + r.bits) hpost
      exact ⟨p, by simp [codeParts, postParts, hasPost, hpost, hp], hhigh⟩

end Parts

/-! ### Segments -/

section Segments

variable {hw : Hardware} {r : IrRemote} {Q : Option Part → Prop} {S : List Part → Prop}
  {b : RBuf} {q : Option Part} {rest : List Part} {total : ℤ} {tail : List ℕ}

theorem dataParts_eq (hc : Bitwise r) (data : IrCode) (bits done : ℕ) :
    dataParts r data bits done =
      bitLoopParts r bits (reverse data bits) (bitMask r done) := by
  simp [dataParts, hc.notRcmm, hc.notXmp, bitMask]

theorem getData_eq (hc : Bitwise r) (bits done : ℕ) (b : RBuf) :
    getData hw r bits done b = getBitLoop hw bits done 0 r b := by
  simp [getData, hc.notRcmm, hc.notGrundig, hc.notSerial, hc.notBo, hc.notXmp]

/-- A segment of data is read back. -/
theorem getData_ok (hc : BitCoded r) (hR : ReadsBits hw r Q S) {data : IrCode} {bits done : ℕ}
    (hn : done + bits ≤ bitCount r) (hq : Q q) (hrest : S rest)
    (h : b.At q (dataParts r data bits done ++ rest) total tail) :
    ∃ b' q', getData hw r bits done b = (data &&& genMask bits, r, b') ∧ Q q' ∧
      b'.At q' rest total tail := by
  have hbits := hc.bits_le
  rw [dataParts_eq hc.toBitwise] at h
  obtain ⟨b', q', hloop, hq', h'⟩ := getBitLoop_ok hc hR 0 hn hq hrest h
  refine ⟨b', q', ?_, hq', h'⟩
  rw [getData_eq hc.toBitwise, hloop, collectBits_reverse (by omega)]

theorem dataParts_before (hc : BitCoded r) (hR : ReadsBits hw r Q S) (data : IrCode)
    (bits done : ℕ) (h : S rest) : S (dataParts r data bits done ++ rest) := by
  rw [dataParts_eq hc.toBitwise]
  exact bitLoopParts_before hR.before h

/-- What a signal needs of the decoder: with something in `Q` pending, and
with a signal in `S` after it, whatever `D` allows for a segment is read as
its data. -/
structure ReadsData (hw : Hardware) (r : IrRemote) (D : IrCode → ℕ → ℕ → List Part → Prop)
    (Q : Option Part → Prop) (S : List Part → Prop) : Prop where
  segment : ∀ {data bits done ps q rest b total tail}, D data bits done ps → Q q → S rest →
    RBuf.At b q (ps ++ rest) total tail →
    ∃ b' q', getData hw r bits done b = (data &&& genMask bits, r, b') ∧ Q q' ∧
      b'.At q' rest total tail
  before : ∀ {data bits done ps rest}, D data bits done ps → S rest → S (ps ++ rest)
  before_pulse : ∀ a rest, S (pulse a :: rest)
  space : ∀ x, Q (some (space x))

/-- The segments of a bit-coded signal. -/
def SentData (r : IrRemote) (data : IrCode) (bits done : ℕ) (ps : List Part) : Prop :=
  ps = dataParts r data bits done ∧ done + bits ≤ bitCount r

theorem ReadsBits.readsData (hc : BitCoded r) (hR : ReadsBits hw r Q S) :
    ReadsData hw r (SentData r) Q S where
  segment := by
    rintro data bits done ps q rest b total tail ⟨rfl, hn⟩ hq hrest h
    exact getData_ok hc hR hn hq hrest h
  before := by
    rintro data bits done ps rest ⟨rfl, -⟩ hrest
    exact dataParts_before hc hR data bits done hrest
  before_pulse := hR.before_pulse
  space := hR.space

/-- What comes before a segment: nothing but header and lead, a pause with the
space `x`, or data. -/
inductive Stage
  | lead
  | pause (x : ℤ)
  | data
  deriving DecidableEq, Repr

/-- The stage after a segment. -/
def Stage.after (st : Stage) (bits : ℕ) : Stage := if bits = 0 then st else .data

/-- The stage after an optional pause. -/
def Stage.paused (st : Stage) (p s : ℤ) : Stage := if 0 < p ∧ 0 < s then .pause s else st

/-- The stage at which the code comes. -/
def codeStage (r : IrRemote) : Stage :=
  if hasPre r then (Stage.lead.after r.preDataBits).paused r.preP r.preS else .lead

/-- The stage at which the post data comes. -/
def postStage (r : IrRemote) : Stage := ((codeStage r).after r.bits).paused r.postP r.postS

/-- What a signal needs of the decoder where it matters what comes before a
segment: at each stage, with something in `Q` pending, and with a signal in `S`
after the given number of bits, whatever `D` allows for a segment is read as its
data. -/
structure ReadsSegments (hw : Hardware) (r : IrRemote)
    (D : Stage → IrCode → ℕ → ℕ → List Part → Prop) (Q : Stage → Option Part → Prop)
    (S : ℕ → List Part → Prop) : Prop where
  segment : ∀ {st data bits done ps q rest b total tail}, D st data bits done ps → Q st q →
    S bits rest → RBuf.At b q (ps ++ rest) total tail →
    ∃ b' q', getData hw r bits done b = (data &&& genMask bits, r, b') ∧ Q (st.after bits) q' ∧
      b'.At q' rest total tail
  pause : ∀ x, Q (.pause x) (some (space x))

/-- Where it does not matter what comes before a segment. -/
theorem ReadsData.segments {D : IrCode → ℕ → ℕ → List Part → Prop} (hR : ReadsData hw r D Q S) :
    ReadsSegments hw r (fun _ => D) (fun _ => Q) (fun _ => S) where
  segment := hR.segment
  pause := hR.space

theorem prePauseParts_before {D : IrCode → ℕ → ℕ → List Part → Prop}
    (hR : ReadsData hw r D Q S) (h : S rest) : S (prePauseParts r ++ rest) := by
  unfold prePauseParts
  split
  · exact hR.before_pulse _ _
  · exact h

theorem postParts_before {D : IrCode → ℕ → ℕ → List Part → Prop} {post : List Part}
    (hR : ReadsData hw r D Q S)
    (hpost : D r.postData r.postDataBits (r.preDataBits + r.bits) post) (h : S rest) :
    S ((if hasPost r then postPauseParts r ++ post else []) ++ rest) := by
  unfold postPauseParts
  split
  · split
    · exact hR.before_pulse _ _
    · rw [List.nil_append]
      exact hR.before hpost h
  · exact h

/-- A pulse is read and the space after it announced. -/
theorem pause_ok (hw : Hardware) (ht : Tolerant r) {p s : ℤ}
    (h : b.At q (pulse p :: space s :: rest) total tail) :
    ∃ b', expectPulse hw r b p = (true, b') ∧
      ({ b' with pendings := s } : RBuf).At (some (space s)) rest total tail := by
  obtain ⟨b', hpulse, h'⟩ := h.expectPulse_ok hw ht (by simp)
  refine ⟨b', hpulse, ?_⟩
  exact h'.announce (by simpa using h'.pendingp) rfl

section Generic

variable {D : Stage → IrCode → ℕ → ℕ → List Part → Prop} {Q : Stage → Option Part → Prop}
  {S : ℕ → List Part → Prop} {pre data post : List Part}

/-- `get_pre` reads what `send_pre` has sent. -/
theorem getPre_ok (ht : Tolerant r) (hbits : bitCount r ≤ 63) (hR : ReadsSegments hw r D Q S)
    (hp : hasPre r = true) (hpre : D .lead r.preData r.preDataBits 0 pre) (hq : Q .lead q)
    (hrest : S r.preDataBits (prePauseParts r ++ rest))
    (h : b.At q (pre ++ prePauseParts r ++ rest) total tail) :
    ∃ b' q', getPre hw r b = (r.preData &&& genMask r.preDataBits, r, b') ∧
      Q (codeStage r) q' ∧ b'.At q' rest total tail := by
  have hcount : r.preDataBits ≤ bitCount r := by unfold bitCount; omega
  rw [List.append_assoc] at h
  obtain ⟨b₁, q₁, hdata, hq₁, h₁⟩ := hR.segment hpre hq hrest h
  have hne := and_genMask_ne_allOnes (n := r.preDataBits) (by omega) r.preData
  rw [codeStage, if_pos hp, Stage.paused]
  by_cases hp : 0 < r.preP ∧ 0 < r.preS
  · rw [prePauseParts, if_pos hp] at h₁
    obtain ⟨b₂, hpulse, h₂⟩ := pause_ok hw ht h₁
    rw [if_pos hp]
    refine ⟨_, _, ?_, hR.pause _, h₂⟩
    simp only [getPre, hdata, noCode, hne, if_false, hp, and_self, if_true, hpulse,
      Bool.not_true, Bool.false_eq_true]
  · rw [prePauseParts, if_neg hp] at h₁
    rw [if_neg hp]
    refine ⟨b₁, q₁, ?_, hq₁, h₁⟩
    simp only [getPre, hdata, noCode, hne, if_false, hp]

/-- `get_post` reads what `send_post` has sent. -/
theorem getPost_ok (ht : Tolerant r) (hR : ReadsSegments hw r D Q S)
    (hpost : D (postStage r) r.postData r.postDataBits (r.preDataBits + r.bits) post)
    (hq : Q ((codeStage r).after r.bits) q) (hrest : S r.postDataBits rest)
    (h : b.At q (postPauseParts r ++ post ++ rest) total tail) :
    ∃ b' q', getPost hw r b = (r.postData &&& genMask r.postDataBits, r, b') ∧
      b'.At q' rest total tail := by
  rw [List.append_assoc] at h
  rw [postStage, Stage.paused] at hpost
  by_cases hp : 0 < r.postP ∧ 0 < r.postS
  · rw [postPauseParts, if_pos hp] at h
    rw [if_pos hp] at hpost
    obtain ⟨b₁, hpulse, h₁⟩ := pause_ok hw ht h
    obtain ⟨b₂, q₂, hdata, -, h₂⟩ := hR.segment hpost (hR.pause _) hrest h₁
    refine ⟨b₂, q₂, ?_, h₂⟩
    simp only [getPost, hp, and_self, if_true, hpulse, Bool.not_true, Bool.false_eq_true,
      if_false, hdata]
  · rw [postPauseParts, if_neg hp] at h
    rw [if_neg hp] at hpost
    obtain ⟨b₂, q₂, hdata, -, h₂⟩ := hR.segment hpost hq hrest h
    refine ⟨b₂, q₂, ?_, h₂⟩
    simp only [getPost, hp, if_false, Bool.not_true, Bool.false_eq_true, hdata]

end Generic

/-- `get_trail` reads what `send_trail` has sent; no pulse is pending after it. -/
theorem getTrail_ok (hw : Hardware) (ht : Tolerant r) (hoff : StartsOff true rest)
    (h : b.At q (trailParts r ++ rest) total tail) :
    ∃ b' q', getTrail hw r b = (true, b') ∧ q'.all (fun p => !p.high) = true ∧
      b'.At q' rest total tail := by
  by_cases hp : r.ptrail = 0
  · rw [trailParts, if_neg (by simpa using hp), List.nil_append] at h
    match q with
    | none =>
        refine ⟨b, none, ?_, rfl, h⟩
        simp [getTrail, hp, h.pendingp]
    | some ⟨false, x⟩ =>
        refine ⟨b, some (space x), ?_, rfl, h⟩
        have hpend := h.pendingp
        rw [pendPulse_space] at hpend
        simp [getTrail, hp, hpend]
    | some ⟨true, x⟩ =>
        obtain ⟨b', hsync, h'⟩ := h.syncPulse hw ht hoff
        have hpend := h.pendingp
        rw [pendPulse_pulse] at hpend
        have hx : 0 < x := h.positive.head
        refine ⟨b', none, ?_, rfl, h'⟩
        simp [getTrail, hp, hpend, hx, hsync]
  · rw [trailParts, if_pos hp] at h
    obtain ⟨b', hpulse, h'⟩ := h.expectPulse_ok hw ht hoff
    refine ⟨b', none, ?_, rfl, h'⟩
    simp [getTrail, hp, hpulse, h'.pendingp]

/-- `get_foot` reads what `send_foot` has sent. -/
theorem getFoot_ok (hw : Hardware) (ht : Tolerant r) (hf : hasFoot r = true)
    (h : b.At q (footParts r) total tail) :
    ∃ b', getFoot hw r b = (true, b') ∧ b'.At none [] total tail := by
  rw [footParts, if_pos hf] at h
  obtain ⟨b₁, hspace, h₁⟩ := h.expectSpace_ok hw ht
  obtain ⟨b₂, hpulse, h₂⟩ := h₁.expectPulse_ok hw ht (by simp)
  exact ⟨b₂, by simp [getFoot, hspace, hpulse], h₂⟩

theorem footParts_startsOff (r : IrRemote) : StartsOff true (footParts r) := by
  unfold footParts; split <;> simp

/-- `get_lead` announces the leading pulse. -/
theorem getLead_ok (hw : Hardware) (ht : Tolerant r) {x : ℤ}
    (hq : q = none ∨ q = some (space x)) (hlead : r.plead ≠ 0)
    (h : b.At q (leadParts r ++ rest) total tail) :
    ∃ b', getLead hw r b = (true, b') ∧ b'.At (some (pulse r.plead)) rest total tail := by
  rw [leadParts, if_pos hlead] at h
  have hann : ∀ b' : RBuf, b'.At none (pulse r.plead :: rest) total tail →
      ({ b' with pendingp := r.plead } : RBuf).At (some (pulse r.plead)) rest total tail :=
    fun b' h' => h'.announce rfl (by simpa using h'.pendings)
  rcases hq with rfl | rfl
  · refine ⟨{ b with pendingp := r.plead }, ?_, hann b h⟩
    simp [getLead, hlead, syncPendingSpace, h.pendings]
  · obtain ⟨b', hsync, h'⟩ := h.syncSpace hw ht
    refine ⟨{ b' with pendingp := r.plead }, ?_, hann b' h'⟩
    simp [getLead, hlead, hsync]

/-- The header is read back. With `NO_HEAD_REP` its space is read at once, so
a pulse has to follow it. -/
theorem getHeader_ok (hw : Hardware) (ht : Tolerant r) (hrcmm : isRcmm r = false)
    (hbo : isBo r = false) (hhead : hasHeader r = true)
    (hnext : r.has noHeadRep = true → ∃ a rest', rest = pulse a :: rest')
    (h : b.At none (headerParts r ++ rest) total tail) :
    ∃ b', getHeader hw r b = (true, b') ∧
      b'.At (if r.has noHeadRep then none else some (space r.shead)) rest total tail := by
  have hpos : 0 < r.phead ∧ 0 < r.shead := by simpa [hasHeader] using hhead
  have hne : r.shead ≠ 0 := by omega
  rw [headerParts, if_pos hhead] at h
  obtain ⟨b₁, hpulse, h₁⟩ := h.expectPulse_ok hw ht (by simp)
  by_cases hn : r.has noHeadRep = true
  · obtain ⟨a, rest', rfl⟩ := hnext hn
    have hwave : wave ((none : Option Part).toList ++ space r.shead :: pulse a :: rest') =
        space r.shead :: wave ((none : Option Part).toList ++ pulse a :: rest') :=
      waveFrom_space rfl
    refine ⟨b₁.advance (word (space r.shead)), ?_, ?_⟩
    · simp only [getHeader, hrcmm, hbo, Bool.false_eq_true, if_false, hne, hpulse,
        Bool.not_true, hn, if_true, h₁.nextSpace hwave, ne_eq, not_false_eq_true,
        RBuf.At.tolerant_self ht hpos.2]
    · rw [if_pos hn]
      exact h₁.step_keep hwave h₁.positive.tail h₁.pendingp h₁.pendings
  · refine ⟨{ b₁ with pendings := r.shead }, ?_, ?_⟩
    · simp [getHeader, hrcmm, hbo, hne, hpulse, hn]
    · rw [if_neg hn]
      exact h₁.announce (by simpa using h₁.pendingp) rfl

theorem decodeHeader_ok (hw : Hardware) (ht : Tolerant r) (hrcmm : isRcmm r = false)
    (hbo : isBo r = false) (sync : ℤ)
    (hnext : hasHeader r = true → r.has noHeadRep = true → ∃ a rest', rest = pulse a :: rest')
    (h : b.At none (headerParts r ++ rest) total tail) :
    ∃ b', decodeHeader hw r sync b = (some (hasHeader r), b') ∧
      b'.At (if hasHeader r && !r.has noHeadRep then some (space r.shead) else none) rest
        total tail := by
  by_cases hhead : hasHeader r = true
  · obtain ⟨b', hget, h'⟩ := getHeader_ok hw ht hrcmm hbo hhead (hnext hhead) h
    refine ⟨b', by simp [decodeHeader, hhead, hget], ?_⟩
    by_cases hn : r.has noHeadRep = true
    · simpa [hn, hhead] using h'
    · simpa [hn, hhead] using h'
  · rw [headerParts, if_neg hhead, List.nil_append] at h
    exact ⟨b, by simp [decodeHeader, hhead], by simpa [hhead] using h⟩

/-- The gap that ends a full signal of the given length. -/
def signalGap (r : IrRemote) (sum : ℤ) : ℤ :=
  if isConst r then (if sum < minGap r then minGap r - sum else 0) else minGap r

theorem signalGap_nonneg (r : IrRemote) (sum : ℤ) : 0 ≤ signalGap r sum := by
  have := minGap_nonneg r
  unfold signalGap
  split
  · split <;> omega
  · assumption

/-- What is taken off the length of a signal with a header that is not
repeated. -/
def headerCorrection (r : IrRemote) (header : Bool) : ℤ :=
  if header && isConst r && r.has noHeadRep then r.phead + r.shead else 0

/-- The gap `receive_decode` asks for after a signal of the given length. -/
def endGap (r : IrRemote) (sum : ℤ) : ℤ := if isRcmm r then 1000 else signalGap r sum

theorem endGap_nonneg (r : IrRemote) (sum : ℤ) : 0 ≤ endGap r sum := by
  unfold endGap
  split
  · decide
  · exact signalGap_nonneg r sum

/-- Everything after the header is read back as it was sent. -/
theorem decodeSegments_ok {D : Stage → IrCode → ℕ → ℕ → List Part → Prop}
    {Q : Stage → Option Part → Prop} {S : ℕ → List Part → Prop} {pre data post : List Part}
    (ht : Tolerant r) (hbits : bitCount r ≤ 63) (hR : ReadsSegments hw r D Q S) {code : IrCode}
    (hpre : hasPre r = true → D .lead r.preData r.preDataBits 0 pre)
    (hdata : D (codeStage r) code r.bits r.preDataBits data)
    (hpost : hasPost r = true →
      D (postStage r) r.postData r.postDataBits (r.preDataBits + r.bits) post)
    (header : Bool) {x long : ℤ} (hq : q = none ∨ q = some (space x))
    (hQ : Q .lead (if r.plead = 0 then q else some (pulse r.plead)))
    (hSpre : hasPre r = true → S r.preDataBits (prePauseParts r ++ (data ++
      ((if hasPost r then postPauseParts r ++ post else []) ++ (trailParts r ++ footParts r)))))
    (hSdata : S r.bits ((if hasPost r then postPauseParts r ++ post else []) ++
      (trailParts r ++ footParts r)))
    (hSpost : hasPost r = true → S r.postDataBits (trailParts r ++ footParts r))
    (hlong : Representable (space long))
    (hgap : endGap r (total - headerCorrection r header) ≤ long)
    (h : b.At q (leadParts r ++ ((if hasPre r then pre ++ prePauseParts r else []) ++ (data ++
      ((if hasPost r then postPauseParts r ++ post else []) ++
        (trailParts r ++ footParts r))))) total (word (space long) :: tail)) :
    ∃ b', decodeBits hw r header b =
        (some (r.preData &&& genMask r.preDataBits, code &&& genMask r.bits,
          r.postData &&& genMask r.postDataBits), r, b') ∧
      b'.sum = total - headerCorrection r header := by
  have hcount : r.preDataBits + r.bits + r.postDataBits = bitCount r := rfl
  -- lead
  obtain ⟨b₁, q₁, hlead, hq₁, h₁⟩ : ∃ b₁ q₁, getLead hw r b = (true, b₁) ∧ Q .lead q₁ ∧
      b₁.At q₁ ((if hasPre r then pre ++ prePauseParts r else []) ++ (data ++
        ((if hasPost r then postPauseParts r ++ post else []) ++
          (trailParts r ++ footParts r)))) total (word (space long) :: tail) := by
    by_cases hl : r.plead = 0
    · rw [leadParts, if_neg (by simpa using hl), List.nil_append] at h
      exact ⟨b, q, by simp [getLead, hl], by simpa [hl] using hQ, h⟩
    · obtain ⟨b₁, hget, h₁⟩ := getLead_ok hw ht hq hl h
      exact ⟨b₁, _, hget, by simpa [hl] using hQ, h₁⟩
  -- pre data
  obtain ⟨b₂, q₂, hpre, hq₂, h₂⟩ : ∃ b₂ q₂,
      (if hasPre r then getPre hw r b₁ else (0, r, b₁)) =
        (r.preData &&& genMask r.preDataBits, r, b₂) ∧ Q (codeStage r) q₂ ∧
      b₂.At q₂ (data ++ ((if hasPost r then postPauseParts r ++ post else []) ++
        (trailParts r ++ footParts r))) total (word (space long) :: tail) := by
    by_cases hp : hasPre r = true
    · rw [if_pos hp] at h₁
      obtain ⟨b₂, q₂, hget, hq₂, h₂⟩ := getPre_ok ht hbits hR hp (hpre hp) hq₁ (hSpre hp) h₁
      exact ⟨b₂, q₂, by rw [if_pos hp, hget], hq₂, h₂⟩
    · rw [if_neg hp, List.nil_append] at h₁
      have h0 : r.preDataBits = 0 := by simpa [hasPre] using hp
      exact ⟨b₁, q₁, by simp [hp, h0, genMask], by rwa [codeStage, if_neg hp], h₁⟩
  -- code
  obtain ⟨b₃, q₃, hcode, hq₃, h₃⟩ := hR.segment hdata hq₂ hSdata h₂
  -- post data
  obtain ⟨b₄, q₄, hpost, h₄⟩ : ∃ b₄ q₄,
      (if hasPost r then getPost hw r b₃ else (0, r, b₃)) =
        (r.postData &&& genMask r.postDataBits, r, b₄) ∧
      b₄.At q₄ (trailParts r ++ footParts r) total (word (space long) :: tail) := by
    by_cases hp : hasPost r = true
    · rw [if_pos hp] at h₃
      obtain ⟨b₄, q₄, hget, h₄⟩ := getPost_ok ht hR (hpost hp) hq₃ (hSpost hp) h₃
      exact ⟨b₄, q₄, by rw [if_pos hp, hget], h₄⟩
    · rw [if_neg hp, List.nil_append] at h₃
      have h0 : r.postDataBits = 0 := by simpa [hasPost] using hp
      exact ⟨b₃, q₃, by simp [hp, h0, genMask], h₃⟩
  -- trail and foot
  obtain ⟨b₅, q₅, htrail, hq₅, h₅⟩ := getTrail_ok hw ht (footParts_startsOff r) h₄
  obtain ⟨b₆, q₆, hfoot, hq₆, h₆⟩ : ∃ b₆ q₆,
      (if hasFoot r then getFoot hw r b₅ else (true, b₅)) = (true, b₆) ∧
      q₆.all (fun p => !p.high) = true ∧ b₆.At q₆ [] total (word (space long) :: tail) := by
    by_cases hf : hasFoot r = true
    · obtain ⟨b₆, hget, h₆⟩ := getFoot_ok hw ht hf h₅
      exact ⟨b₆, none, by rw [if_pos hf, hget], rfl, h₆⟩
    · rw [footParts, if_neg hf] at h₅
      exact ⟨b₅, q₅, by rw [if_neg hf], hq₅, h₅⟩
  -- gap
  have hne : ∀ n ≤ bitCount r, ∀ d : IrCode, d &&& genMask n ≠ noCode :=
    fun n hn d => and_genMask_ne_allOnes (by omega) d
  obtain ⟨b₇, hb₇, h₇⟩ : ∃ b₇,
      (if header && isConst r && r.has noHeadRep then
        { b₆ with sum := b₆.sum - (r.phead + r.shead) } else b₆) = b₇ ∧
      b₇.At q₆ [] (total - headerCorrection r header) (word (space long) :: tail) := by
    unfold headerCorrection
    split
    · exact ⟨_, rfl, h₆.correctSum _⟩
    · exact ⟨_, rfl, by simpa using h₆⟩
  have hneed : (if isRcmm r then 1000 else if isConst r then constGap r b₇ else minGap r) =
      endGap r (total - headerCorrection r header) := by
    simp only [endGap, signalGap, constGap, h₇.sum_end hq₆]
  obtain ⟨b₈, hget, hsum₈⟩ :=
    h₇.getGap_ok hw ht hq₆ hlong (endGap_nonneg r _) hgap
  refine ⟨b₈, ?_, hsum₈⟩
  unfold decodeBits
  simp only [hlead, hpre, hcode, hpost, htrail, hfoot, hne _ (by omega : r.preDataBits ≤ bitCount r),
    hne _ (by omega : r.bits ≤ bitCount r), hne _ (by omega : r.postDataBits ≤ bitCount r),
    and_false, if_false, Bool.not_true, Bool.false_eq_true, hb₇, hneed, hget, if_true]

/-- The same where it does not matter what comes before a segment. -/
theorem decodeBits_ok {D : IrCode → ℕ → ℕ → List Part → Prop} {pre data post : List Part}
    (ht : Tolerant r) (hbits : bitCount r ≤ 63) (hR : ReadsData hw r D Q S) {code : IrCode}
    (hpre : D r.preData r.preDataBits 0 pre) (hdata : D code r.bits r.preDataBits data)
    (hpost : D r.postData r.postDataBits (r.preDataBits + r.bits) post)
    (header : Bool) {x long : ℤ} (hq : q = none ∨ q = some (space x))
    (hQ : Q (if r.plead = 0 then q else some (pulse r.plead)))
    (hS : S (trailParts r ++ footParts r))
    (hlong : Representable (space long))
    (hgap : endGap r (total - headerCorrection r header) ≤ long)
    (h : b.At q (leadParts r ++ ((if hasPre r then pre ++ prePauseParts r else []) ++ (data ++
      ((if hasPost r then postPauseParts r ++ post else []) ++
        (trailParts r ++ footParts r))))) total (word (space long) :: tail)) :
    ∃ b', decodeBits hw r header b =
        (some (r.preData &&& genMask r.preDataBits, code &&& genMask r.bits,
          r.postData &&& genMask r.postDataBits), r, b') ∧
      b'.sum = total - headerCorrection r header := by
  have hSdata := postParts_before hR hpost hS
  have hSpre := prePauseParts_before hR (hR.before hdata hSdata)
  exact decodeSegments_ok ht hbits hR.segments (fun _ => hpre) hdata (fun _ => hpost) header hq
    hQ (fun _ => hSpre) hSdata (fun _ => hS) hlong hgap h

end Segments

end Lirc
