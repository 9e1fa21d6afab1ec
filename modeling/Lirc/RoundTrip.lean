import Lirc.Frames
import Lirc.BitDecode

/-!
From `init_send` to `receive_decode`: a waveform fed to the decoder after a
synchronisation space and before a long space is decoded to what was sent.
-/

namespace Lirc

open Signal

/-! ### The stream -/

/-- The words of a waveform between two spaces. -/
def feed (sync : ℤ) (ws : List ℤ) (long : ℤ) : List ℕ :=
  word (space sync) :: ((alternate true ws).map word ++ [word (space long)])

/-- The words of the waveform come next, and all of them are words of the
driver. -/
structure RBuf.Fed (b : RBuf) (sync : ℤ) (ws : List ℤ) (long : ℤ) : Prop where
  words : feed sync ws long <+: b.data ++ b.input
  sync : Representable (space sync)
  samples : ∀ x ∈ ws, Representable (pulse x)
  long : Representable (space long)

theorem length_alternate (h : Bool) (ws : List ℤ) : (alternate h ws).length = ws.length := by
  induction ws generalizing h with
  | nil => rfl
  | cons x xs ih => simp [ih]

theorem representable_alternate {h : Bool} {ws : List ℤ}
    (hws : ∀ x ∈ ws, Representable (pulse x)) : ∀ p ∈ alternate h ws, Representable p := by
  induction ws generalizing h with
  | nil => simp
  | cons x xs ih =>
      intro p hp
      rcases List.mem_cons.mp hp with rfl | hp
      · exact hws x List.mem_cons_self
      · exact ih (fun y hy => hws y (List.mem_cons_of_mem _ hy)) p hp

/-- The decoder sees the words it is fed. -/
theorem RBuf.Fed.view {b : RBuf} {sync long : ℤ} {ws : List ℤ} (h : b.Fed sync ws long)
    (hlen : ws.length ≤ wbufSize) : (rewindRecBuffer b).View [] (feed sync ws long) where
  behind := rfl
  rptr_eq := rfl
  following := h.words
  room := by
    simp only [wbufSize] at hlen
    simp only [feed, List.length_nil, List.length_cons, List.length_append, List.length_map,
      length_alternate, rbufSize]
    omega
  good := by
    intro w hw
    simp only [feed, List.nil_append, List.mem_cons, List.mem_append, List.mem_map,
      List.not_mem_nil, or_false] at hw
    rcases hw with rfl | ⟨p, hp, rfl⟩ | rfl
    · exact h.sync.good
    · exact (representable_alternate h.samples p hp).good
    · exact h.long.good

/-- No repeat is tried, and `sync` is as long as the pending gap of the
remote that was received last. -/
def SyncCovers (last : LastRemote) (sync : ℤ) : Prop :=
  match last with
  | .null => True
  | .same => False
  | .other l => Tolerant l ∧ 0 ≤ l.minRemainingGap ∧ l.minRemainingGap ≤ sync

/-- The signal of a first frame after its header. -/
def bodyParts (r : IrRemote) (c : IrCode) : List Part :=
  leadParts r ++ (preParts r ++ (dataParts r c r.bits r.preDataBits ++
    (postParts r ++ (trailParts r ++ footParts r))))

theorem codeParts_first (r : IrRemote) (c : IrCode) :
    codeParts r c false = headerParts r ++ bodyParts r c := by
  simp [codeParts, bodyParts]

section

variable {hw : Hardware} {r : IrRemote}

theorem sum_nonneg {ps : List Part} (h : Positive ps) : 0 ≤ (ps.map Part.len).sum := by
  induction ps with
  | nil => simp
  | cons p ps ih =>
      have hp := h.head
      have hps := ih h.tail
      simp only [List.map_cons, List.sum_cons]
      omega

/-- No repeat is tried, and `sync` is as long as the pending gap of the
remote that was received last, unless it is not looked at. -/
def SyncPasses (r : IrRemote) (last : LastRemote) (sync : ℤ) : Prop :=
  (hasRepeat r && last == .same) = false ∧
    ∀ l, last.get r = some l → isRcmm r = true ∨
      (Tolerant l ∧ 0 ≤ l.minRemainingGap ∧ l.minRemainingGap ≤ sync)

theorem SyncCovers.passes {last : LastRemote} {sync : ℤ} (h : SyncCovers last sync)
    (r : IrRemote) : SyncPasses r last sync := by
  have hlast : (last == LastRemote.same) = false := by
    match last with
    | .null => rfl
    | .same => exact h.elim
    | .other l => rfl
  refine ⟨by rw [hlast, Bool.and_false], fun l hl => .inr ?_⟩
  match last with
  | .null => simp [LastRemote.get] at hl
  | .same => exact h.elim
  | .other l' =>
      obtain rfl : l' = l := Option.some.inj hl
      exact h

/-- After synchronisation the decoder stands before the signal. -/
theorem syncRecBuffer_passes (hw : Hardware) (htoggle : hasToggleMask r = false)
    {last : LastRemote} {sync : ℤ} (hsync : Representable (space sync))
    (hpass : SyncPasses r last sync) {b : RBuf} {ws : List ℕ}
    (h : b.View [] (word (space sync) :: ws)) :
    syncRecBuffer hw r last b =
      (sync, r, { b.advance (word (space sync)) with sum := 0 }) := by
  have hpos : 0 < sync := hsync.1
  have hnext : getNextSpace b 1000000 = (sync, b.advance (word (space sync))) := by
    rw [h.getNextSpace, isPulse_word hsync, word_space hpos]
    rfl
  cases hlast : last.get r with
  | none => simp [syncRecBuffer, hnext, hpos.ne', hlast]
  | some l =>
      rcases hpass.2 l hlast with hrcmm | ⟨ht, h0, hle⟩
      · simp [syncRecBuffer, hnext, hpos.ne', hlast, hrcmm]
      · have hloop : ∀ b' : RBuf, syncLoop hw l recSync sync b' = (sync, b') := by
          intro b'
          rw [recSync, syncLoop, if_pos (ht.expectAtLeast_of_le h0 hle)]
        simp [syncRecBuffer, hnext, hpos.ne', hlast, hloop, htoggle]

/-- `receive_decode` once synchronisation, header and data are known. -/
theorem receiveDecode_signal {last : LastRemote} {sync : ℤ} (now : ℕ) {b b₁ b₂ b₃ : RBuf}
    {header : Bool} {x : IrCode × IrCode × IrCode} (hmode : pulseSpaceMode hw = true)
    (hraw : isRaw r = false) (hne : sync ≠ 0) (hrep : (hasRepeat r && last == .same) = false)
    (hsync : syncRecBuffer hw r last { rewindRecBuffer b with isBiphase := isBiphase r } =
      (sync, r, b₁))
    (hheader : decodeHeader hw r sync b₁ = (some header, b₂))
    (hbits : decodeBits hw r header b₂ = (some x, r, b₃)) :
    (Lirc.receiveDecode hw r last now b).1.map (fun d => (d.pre, d.code, d.post)) = some x := by
  have hrec : hw.recMode ≠ modeLirccode := by
    intro he
    simp [pulseSpaceMode, he, modeLirccode, modeMode2, modePulse, modeRaw] at hmode
  unfold Lirc.receiveDecode
  simp only [hmode, if_true, hsync, hne, if_false, hrep, Bool.false_eq_true, hheader,
    decodeSignal, hraw, hrec, hbits, Option.map_some, decodedOf]

/-- What the decoder needs to read the signal of a code: the signal starts
with a pulse, and so does what follows a header that is not repeated. -/
structure RoundTrips (hw : Hardware) (r : IrRemote) (Q : Option Part → Prop)
    (S : List Part → Prop) (c : IrCode) : Prop where
  coded : BitCoded r
  reads : ReadsBits hw r Q S
  regular : Regular r
  starts : (codeParts r c false).head?.map Part.high = some true
  header : hasHeader r = true → r.has noHeadRep = true →
    ∃ a rest, bodyParts r c = pulse a :: rest
  pending : Q (if r.plead = 0 then
      (if hasHeader r && !r.has noHeadRep then some (space r.shead) else none)
    else some (pulse r.plead))
  last : S (trailParts r ++ footParts r)
  headerLength : 0 ≤ r.phead + r.shead
  code : c &&& genMask r.bits = c
  preData : r.preData &&& genMask r.preDataBits = r.preData
  postData : r.postData &&& genMask r.postDataBits = r.postData

/-- What a signal has to give for the decoder to return it: it starts with a
pulse, so does what follows a header that is not repeated, and what comes after
the header is read as the code it was built from. -/
structure Returned (hw : Hardware) (r : IrRemote) (c : IrCode) : Prop where
  coded : BitCoded r
  regular : Regular r
  starts : (codeParts r c false).head?.map Part.high = some true
  header : hasHeader r = true → r.has noHeadRep = true →
    ∃ a rest, bodyParts r c = pulse a :: rest
  headerLength : 0 ≤ r.phead + r.shead
  body : ∀ {b : RBuf} {total long : ℤ} {tail : List ℕ}, Representable (space long) →
    signalGap r (total - headerCorrection r (hasHeader r)) ≤ long →
    b.At (if hasHeader r && !r.has noHeadRep then some (space r.shead) else none)
      (bodyParts r c) total (word (space long) :: tail) →
    ∃ b', decodeBits hw r (hasHeader r) b = (some (r.preData, c, r.postData), r, b')

/-- At most the space of the header is pending after it. -/
theorem headerPending (r : IrRemote) : ∃ x,
    (if hasHeader r && !r.has noHeadRep then some (space r.shead) else none) = none ∨
      (if hasHeader r && !r.has noHeadRep then some (space r.shead) else none) =
        some (space x) := by
  refine ⟨r.shead, ?_⟩
  split
  · exact .inr rfl
  · exact .inl rfl

theorem RoundTrips.returned {Q : Option Part → Prop} {S : List Part → Prop} {c : IrCode}
    (h : RoundTrips hw r Q S c) : Returned hw r c where
  coded := h.coded
  regular := h.regular
  starts := h.starts
  header := h.header
  headerLength := h.headerLength
  body := by
    intro b total long tail hlong hgap hb
    have hc := h.coded
    obtain ⟨x, hq⟩ := headerPending r
    obtain ⟨b', hbits, -⟩ :=
      decodeBits_ok hc.tolerant hc.bits_le (h.reads.readsData hc) ⟨rfl, by unfold bitCount; omega⟩
        ⟨rfl, by unfold bitCount; omega⟩ ⟨rfl, by unfold bitCount; omega⟩ (hasHeader r) hq
        h.pending h.last hlong (by simpa [endGap, hc.notRcmm] using hgap) hb
    rw [h.preData, h.code, h.postData] at hbits
    exact ⟨b', hbits⟩

namespace Returned

variable {c : IrCode}

theorem positive (h : Returned hw r c) : Positive (codeParts r c false) :=
  h.regular.positive r.toggleMaskState c false

/-- The header is part of the length of the signal. -/
theorem headerCorrection_le (h : Returned hw r c) :
    headerCorrection r (hasHeader r) ≤ ((wave (codeParts r c false)).map Part.len).sum := by
  have hpos := h.positive
  by_cases hcond : (hasHeader r && isConst r && r.has noHeadRep) = true
  · simp only [Bool.and_eq_true] at hcond
    obtain ⟨⟨hhead, hconst⟩, hn⟩ := hcond
    obtain ⟨a, rest, hbody⟩ := h.header hhead hn
    rw [codeParts_first, headerParts, if_pos hhead, hbody] at hpos ⊢
    have hwave : wave ([pulse r.phead, space r.shead] ++ pulse a :: rest) =
        pulse r.phead :: space r.shead :: waveFrom (pulse a) rest := by
      simp [wave, waveFrom]
    have hrest := sum_nonneg (Positive.waveFrom hpos.tail.tail.head hpos.tail.tail.tail)
    rw [hwave, headerCorrection, if_pos (by simp [hhead, hconst, hn])]
    simp only [List.map_cons, List.sum_cons]
    omega
  · rw [headerCorrection, if_neg hcond]
    have hps : Positive (wave (codeParts r c false)) := by
      cases hparts : codeParts r c false with
      | nil => simp
      | cons p ps =>
          rw [hparts] at hpos
          exact Positive.waveFrom hpos.head hpos.tail
    exact sum_nonneg hps

/-- The signal of a code is decoded to the code. -/
theorem receiveDecode (h : Returned hw r c) (hmode : pulseSpaceMode hw = true)
    {last : LastRemote} {sync long : ℤ} (now : ℕ) {b : RBuf} {tail : List ℕ}
    (hsync : Representable (space sync)) (hcover : SyncCovers last sync)
    (hsamples : ∀ p ∈ wave (codeParts r c false), Representable p)
    (hlong : Representable (space long))
    (hgap : signalGap r (((wave (codeParts r c false)).map Part.len).sum -
      headerCorrection r (hasHeader r)) ≤ long)
    (hview : (rewindRecBuffer b).View [] (word (space sync) ::
      ((wave (codeParts r c false)).map word ++ word (space long) :: tail))) :
    (Lirc.receiveDecode hw r last now b).1.map (fun d => (d.pre, d.code, d.post)) =
      some (r.preData, c, r.postData) := by
  have hc := h.coded
  set b₀ : RBuf := { rewindRecBuffer b with isBiphase := isBiphase r } with hb₀
  have hview₀ : b₀.View [] (word (space sync) ::
      ((wave (codeParts r c false)).map word ++ word (space long) :: tail)) :=
    ⟨hview.behind, hview.rptr_eq, hview.following, hview.room, hview.good⟩
  have hpass := hcover.passes r
  have hsynced := syncRecBuffer_passes hw hc.noToggleMask hsync hpass hview₀
  set b₁ : RBuf := { b₀.advance (word (space sync)) with sum := 0 } with hb₁
  have hadv := hview₀.advance
  have hat : b₁.At none (headerParts r ++ bodyParts r c)
      ((wave (codeParts r c false)).map Part.len).sum (word (space long) :: tail) := by
    rw [← codeParts_first]
    refine ⟨⟨_, hadv.behind, hadv.rptr_eq, hadv.following, hadv.room, hadv.good⟩, ?_, ?_,
      h.positive, hsamples, ?_⟩
    · simp [hb₁, hb₀, rewindRecBuffer]
    · simp [hb₁, hb₀, rewindRecBuffer]
    · simp [hb₁]
  obtain ⟨b₂, hheader, h₂⟩ := decodeHeader_ok hw hc.tolerant hc.notRcmm hc.notBo sync h.header hat
  obtain ⟨b₃, hbits⟩ := h.body hlong hgap h₂
  have hne : sync ≠ 0 := by have := hsync.1; simp only at this; omega
  exact receiveDecode_signal now hmode hc.notRaw hne hpass.1 hsynced hheader hbits

/-- The gap the decoder asks for is not longer than the one the sender keeps. -/
theorem signalGap_le (h : Returned hw r c) {sum gmin gmax : ℤ}
    (hgap : remainingGap r false (sum - sumCorrection r false) = some (gmin, gmax)) :
    signalGap r (sum - headerCorrection r (hasHeader r)) ≤ gmin := by
  have hlen := h.headerLength
  unfold remainingGap at hgap
  rw [if_neg (by simp)] at hgap
  by_cases hconst : isConst r = true
  · have hcorr : headerCorrection r (hasHeader r) ≤ sumCorrection r false := by
      have hconst' : r.has constLength = true := hconst
      unfold headerCorrection sumCorrection
      by_cases hn : r.has noHeadRep = true
      · by_cases hh : hasHeader r = true
        · simp [hn, hconst, hconst', hh]
        · simp [hn, hconst', hh, hlen]
      · simp [hn]
    rw [if_pos hconst] at hgap
    split at hgap
    · next hlt =>
      simp only [Option.some.injEq, Prod.mk.injEq] at hgap
      rw [signalGap, if_pos hconst]
      split <;> omega
    · simp at hgap
  · rw [if_neg hconst] at hgap
    simp only [Option.some.injEq, Prod.mk.injEq] at hgap
    rw [signalGap, if_neg hconst]
    omega

theorem signalGap_le_maxGap (h : Returned hw r c) :
    signalGap r (((wave (codeParts r c false)).map Part.len).sum -
      headerCorrection r (hasHeader r)) ≤ maxGap r := by
  have hsum := h.headerCorrection_le
  have hmin := minGap_nonneg r
  have hmax := minGap_le_maxGap r
  unfold signalGap
  split
  · split <;> omega
  · exact hmax

/-- A code sent by `init_send` is decoded by `receive_decode`. -/
theorem roundTrip (h : Returned hw r c) (hmode : pulseSpaceMode hw = true)
    {code : IrNcode} (hcode : nextCode code false code.transmitState = c) {b₀ : SBuf} {fuel : ℕ}
    {out : SendOut} (hrun : initSend r code false b₀ fuel = some out) (hok : out.ok = true)
    {last : LastRemote} {sync long : ℤ} (now : ℕ) {b : RBuf} (hcover : SyncCovers last sync)
    (hmax : maxGap r ≤ long) (hfed : b.Fed sync out.buf.samples long) :
    (Lirc.receiveDecode hw r last now b).1.map (fun d => (d.pre, d.code, d.post)) =
      some (r.preData, c, r.postData) := by
  have hstart := h.starts
  rw [← hcode] at hstart
  obtain ⟨rest, gmin, gmax, hsamples, hgap, hhead, hdata⟩ :=
    initSend_first h.regular h.coded.notRaw hrun hok hstart
  rw [hcode] at hsamples hgap hstart
  obtain ⟨a, ps, hparts⟩ : ∃ a ps, codeParts r c false = pulse a :: ps := by
    cases hps : codeParts r c false with
    | nil => simp [hps] at hstart
    | cons p ps =>
        obtain ⟨level, a⟩ := p
        obtain rfl : level = true := by simpa [hps] using hstart
        exact ⟨a, ps, rfl⟩
  generalize hws : (wave (codeParts r c false)).map Part.len = ws at hsamples hgap
  have hodd : ws.length % 2 = 1 := by
    rw [← hws, List.length_map, hparts, wave_cons]
    exact length_waveFrom_mod _ _
  have halt : alternate true ws = wave (codeParts r c false) := by
    rw [← hws, hparts, wave_cons]
    exact alternate_waveFrom (pulse a) ps
  have hwave : ∀ p ∈ wave (codeParts r c false), Representable p := by
    intro p hp
    refine hfed.samples p.len ?_
    rw [hsamples]
    exact List.mem_append_left _ (by rw [← hws]; exact List.mem_map_of_mem hp)
  -- the word after the signal is the gap of the next frame or the long space
  obtain ⟨g, tail, hfeed, hg, hgap'⟩ : ∃ g tail,
      feed sync out.buf.samples long = word (space sync) ::
        ((wave (codeParts r c false)).map word ++ word (space g) :: tail) ∧
      Representable (space g) ∧
      signalGap r (((wave (codeParts r c false)).map Part.len).sum -
        headerCorrection r (hasHeader r)) ≤ g := by
    have hne : ¬ws.length % 2 = 0 := by omega
    rw [hsamples, feed, alternate_append, halt, if_neg hne, Bool.not_true, List.map_append,
      List.append_assoc]
    cases hrest : rest with
    | nil =>
        exact ⟨long, [], by simp, hfed.long, h.signalGap_le_maxGap.trans hmax⟩
    | cons g gs =>
        have hg : Representable (pulse g) := hfed.samples g (by rw [hsamples, hrest]; simp)
        refine ⟨g, (alternate true gs).map word ++ [word (space long)], by simp, hg, ?_⟩
        have hle := h.signalGap_le hgap
        rw [hws]
        have hpos : 0 < g := hg.1
        rcases hhead g (by rw [hrest]; rfl) with hmin | hmin
        · omega
        · omega
  have hlen : out.buf.samples.length ≤ wbufSize := by
    rw [SBuf.samples, hdata]
    simp only [List.length_take, Vector.length_toList]
    omega
  have hview := hfed.view hlen
  rw [hfeed] at hview
  exact h.receiveDecode hmode now hfed.sync hcover hwave hg hgap' hview

end Returned

end

/-- The code `c` has been sent as a first frame, and what `init_send` has
built for it comes to the decoder between a synchronisation space and a
space of at least `max_gap`. -/
structure Transfer (hw : Hardware) (r : IrRemote) (c : IrCode) (last : LastRemote)
    (b : RBuf) : Prop where
  mode : pulseSpaceMode hw = true
  within : c &&& genMask r.bits = c
  fed : ∃ code b₀ fuel out sync long,
    nextCode code false code.transmitState = c ∧
    initSend r code false b₀ fuel = some out ∧ out.ok = true ∧
    SyncCovers last sync ∧ maxGap r ≤ long ∧ b.Fed sync out.buf.samples long

theorem Returned.decodes {hw : Hardware} {r : IrRemote} {c : IrCode} (h : Returned hw r c)
    {last : LastRemote} {b : RBuf} (hx : Transfer hw r c last b) (now : ℕ) :
    (Lirc.receiveDecode hw r last now b).1.map (fun d => (d.pre, d.code, d.post)) =
      some (r.preData, c, r.postData) := by
  obtain ⟨code, b₀, fuel, out, sync, long, hcode, hrun, hok, hcover, hmax, hfed⟩ := hx.fed
  exact h.roundTrip hx.mode hcode hrun hok now hcover hmax hfed

theorem RoundTrips.decodes {hw : Hardware} {r : IrRemote} {Q : Option Part → Prop}
    {S : List Part → Prop} {c : IrCode} (h : RoundTrips hw r Q S c) {last : LastRemote}
    {b : RBuf} (hx : Transfer hw r c last b) (now : ℕ) :
    (Lirc.receiveDecode hw r last now b).1.map (fun d => (d.pre, d.code, d.post)) =
      some (r.preData, c, r.postData) :=
  h.returned.decodes hx now

/-- A waveform that is known sample by sample. -/
theorem Transfer.of_samples {hw : Hardware} {r : IrRemote} {c : IrCode} {last : LastRemote}
    (code : IrNcode) (fuel : ℕ) {sync long : ℤ} {ws : List ℤ}
    (hmode : pulseSpaceMode hw = true) (hwithin : c &&& genMask r.bits = c)
    (hdue : nextCode code false code.transmitState = c)
    (hsent : ((initSend r code false initSendBuffer fuel).map
      fun out => (out.ok, out.buf.samples)) = some (true, ws))
    (hcover : SyncCovers last sync) (hmax : maxGap r ≤ long)
    (hsync : Representable (space sync)) (hws : ∀ x ∈ ws, Representable (pulse x))
    (hlong : Representable (space long)) :
    Transfer hw r c last { input := feed sync ws long } := by
  cases hout : initSend r code false initSendBuffer fuel with
  | none => simp [hout] at hsent
  | some out =>
      simp only [hout, Option.map_some, Option.some.injEq, Prod.mk.injEq] at hsent
      obtain ⟨hok, rfl⟩ := hsent
      exact ⟨hmode, hwithin, code, initSendBuffer, fuel, out, sync, long, hdue, hout, hok,
        hcover, hmax, List.prefix_refl _, hsync, hws, hlong⟩

end Lirc
