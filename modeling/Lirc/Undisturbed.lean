import Lirc.Resync
import Lirc.Segment

/-!
What reading leaves as it was: the parts of `receive_decode` only append to
the buffer, and of the remote they change no more than the toggle state.
-/

namespace Lirc

/-- The samples `D` that were held before the attempt are still there. -/
def Holds (D : List ℕ) (b : RBuf) : Prop := D <+: b.data

theorem RBuf.Grows.holds {D : List ℕ} {b b' : RBuf} (h : b.Grows b') (hb : Holds D b) :
    Holds D b' := by
  have hpre : b.data <+: b'.received := by
    rw [h.1]
    exact List.prefix_append _ _
  exact hb.trans (List.prefix_of_prefix_length_le hpre (List.prefix_append _ _) h.2)

section Reading

variable (hw : Hardware) (r : IrRemote)

/-- A symbol is read without writing. -/
def Reads {σ : Type*} (step : σ → RBuf → Option IrCode × σ × RBuf) : Prop :=
  ∀ s (b : RBuf), b.Grows (step s b).2.2

theorem Reads.readSymbols {σ : Type*} {step : σ → RBuf → Option IrCode × σ × RBuf}
    (h : Reads step) (w n : ℕ) (s : σ) (code : IrCode) (b : RBuf) :
    b.Grows (readSymbols w step n s code b).2.2 := by
  induction n generalizing s code b with
  | zero => exact .refl b
  | succ n ih =>
      have hstep := h s b
      rw [Lirc.readSymbols]
      generalize step s b = x at hstep ⊢
      rcases x with ⟨_ | v, s', b'⟩
      · exact hstep
      · exact hstep.trans (ih s' _ b')

theorem reads_rcmmSymbol : Reads (rcmmSymbol hw r) := by
  intro s b
  have h := (getNextPulse_grows b (maxSymbolPulse r)).trans
    (getNextSpace_grows _ (maxSymbolSpace r))
  unfold rcmmSymbol
  dsimp only
  split <;> exact h

theorem grundigSymbol_grows (b : RBuf) : b.Grows (grundigSymbol hw r b).2 := by
  have h := (getNextSpace_grows b (maxSymbolSpace r)).trans
    (getNextPulse_grows _ (maxSymbolPulse r))
  unfold grundigSymbol
  dsimp only
  split <;> exact h

theorem reads_grundigPair : Reads (grundigPair hw r) := by
  intro s b
  have h := grundigSymbol_grows hw r b
  unfold grundigPair
  generalize grundigSymbol hw r b = x at h ⊢
  rcases x with ⟨_ | state, b₁⟩
  · exact h
  · dsimp only
    cases grundigBits none state with
    | some two => exact h
    | none =>
        have h₁ := h.trans (grundigSymbol_grows hw r b₁)
        dsimp only
        generalize grundigSymbol hw r b₁ = y at h₁ ⊢
        rcases y with ⟨_ | state', b₂⟩
        · exact h₁
        · exact h₁

theorem reads_boSymbol : Reads (boSymbol hw r) := by
  intro lastbit b
  have h := (getNextPulse_grows b (maxSymbolPulse r)).trans
    (getNextSpace_grows _ (maxSymbolSpace r))
  cases lastbit
  all_goals
    simp only [boSymbol, if_true, if_false, Bool.false_eq_true]
    split
    · exact h
    · split
      · exact h
      · split <;> exact h

theorem reads_xmpSymbol : Reads (xmpSymbol r) := by
  intro s b
  have h := (getNextPulse_grows b r.pzero).trans (getNextSpace_grows _ (r.szero + 16 * r.sone))
  unfold xmpSymbol
  dsimp only
  split
  · exact h
  · split <;> exact h

/-- A step that is taken only for some remotes. -/
theorem RBuf.Grows.optional {b : RBuf} {x : Bool × RBuf} (c : Prop) [Decidable c]
    (h : b.Grows x.2) : b.Grows (if c then x else (true, b)).2 := by
  split
  · exact h
  · exact .refl b

theorem expectOne_grows (bit : ℕ) (b : RBuf) : b.Grows (expectOne hw r bit b).2 := by
  unfold expectOne
  dsimp only
  split
  · generalize (if (bitMask r bit &&& r.rc6Mask != 0) = true then (2 : ℤ) else 1) = k
    have h := RBuf.Grows.optional (0 < r.sone) (expectSpace_grows hw r b (k * r.sone))
    generalize (if 0 < r.sone then expectSpace hw r b (k * r.sone) else (true, b)) = x at h ⊢
    rcases x with ⟨_ | _, b₁⟩
    · exact h.trans (ungetRecBuffer_grows b₁ 1)
    · exact h
  split
  · have h := RBuf.Grows.optional (0 < r.sone) (expectSpace_grows hw r b r.sone)
    generalize (if 0 < r.sone then expectSpace hw r b r.sone else (true, b)) = x at h ⊢
    rcases x with ⟨_ | _, b₁⟩
    · exact h.trans (ungetRecBuffer_grows b₁ 1)
    · have h₁ := h.trans (RBuf.Grows.optional (0 < r.pone) (expectPulse_grows hw r b₁ r.pone))
      dsimp only at h₁ ⊢
      generalize (if 0 < r.pone then expectPulse hw r b₁ r.pone else (true, b₁)) = y at h₁ ⊢
      rcases y with ⟨_ | _, b₂⟩
      · exact h₁.trans (ungetRecBuffer_grows b₂ 2)
      · exact h₁
  · have h := RBuf.Grows.optional (0 < r.pone) (expectPulse_grows hw r b r.pone)
    generalize (if 0 < r.pone then expectPulse hw r b r.pone else (true, b)) = x at h ⊢
    rcases x with ⟨_ | _, b₁⟩
    · exact h.trans (ungetRecBuffer_grows b₁ 1)
    · have h₁ := h.trans (RBuf.Grows.optional (0 < r.sone) (expectSpace_grows hw r b₁ r.sone))
      dsimp only [Bool.not_true] at h₁ ⊢
      split
      · exact h
      split
      · generalize (if 0 < r.sone then expectSpace hw r b₁ r.sone else (true, b₁)) = y at h₁ ⊢
        rcases y with ⟨_ | _, b₂⟩
        · exact h₁.trans (ungetRecBuffer_grows b₂ 2)
        · exact h₁
      · exact h

theorem expectZero_grows (bit : ℕ) (b : RBuf) : b.Grows (expectZero hw r bit b).2 := by
  unfold expectZero
  dsimp only
  split
  · generalize (if (bitMask r bit &&& r.rc6Mask != 0) = true then (2 : ℤ) else 1) = k
    have h := expectPulse_grows hw r b (k * r.pzero)
    generalize expectPulse hw r b (k * r.pzero) = x at h ⊢
    rcases x with ⟨_ | _, b₁⟩
    · exact h.trans (ungetRecBuffer_grows b₁ 1)
    · exact h
  split
  · have h := RBuf.Grows.optional (0 < r.szero) (expectSpace_grows hw r b r.szero)
    generalize (if 0 < r.szero then expectSpace hw r b r.szero else (true, b)) = x at h ⊢
    rcases x with ⟨_ | _, b₁⟩
    · exact h.trans (ungetRecBuffer_grows b₁ 1)
    · have h₁ := h.trans (RBuf.Grows.optional (0 < r.pzero) (expectPulse_grows hw r b₁ r.pzero))
      dsimp only at h₁ ⊢
      generalize (if 0 < r.pzero then expectPulse hw r b₁ r.pzero else (true, b₁)) = y at h₁ ⊢
      rcases y with ⟨_ | _, b₂⟩
      · exact h₁.trans (ungetRecBuffer_grows b₂ 2)
      · exact h₁
  · have h := expectPulse_grows hw r b r.pzero
    generalize expectPulse hw r b r.pzero = x at h ⊢
    rcases x with ⟨_ | _, b₁⟩
    · exact h.trans (ungetRecBuffer_grows b₁ 1)
    · have h₁ := h.trans (expectSpace_grows hw r b₁ r.szero)
      dsimp only [Bool.not_true] at h₁ ⊢
      split
      · exact h
      split
      · generalize expectSpace hw r b₁ r.szero = y at h₁ ⊢
        rcases y with ⟨_ | _, b₂⟩
        · exact h₁.trans (ungetRecBuffer_grows b₂ 2)
        · exact h₁
      · exact h

theorem reads_bitSymbol : Reads (bitSymbol hw) := by
  intro s b
  have h := expectOne_grows hw (goldstarTimings s.1 s.2) s.2 b
  unfold bitSymbol
  dsimp only
  generalize expectOne hw (goldstarTimings s.1 s.2) s.2 b = x at h ⊢
  rcases x with ⟨_ | _, b₁⟩
  · have h₁ := h.trans (expectZero_grows hw (goldstarTimings s.1 s.2) s.2 b₁)
    dsimp only at h₁ ⊢
    generalize expectZero hw (goldstarTimings s.1 s.2) s.2 b₁ = y at h₁ ⊢
    rcases y with ⟨_ | _, b₂⟩
    · exact h₁
    · exact h₁
  · exact h

theorem RBuf.Grows.either {α : Type*} {b : RBuf} {c : Prop} [Decidable c] {x y : α × RBuf}
    (hx : b.Grows x.2) (hy : b.Grows y.2) : b.Grows (if c then x else y).2 := by
  split
  · exact hx
  · exact hy

theorem serialSample_grows (bits parityBit : ℕ) (maxSpace maxPulse : ℤ) (s : SerialState)
    (b : RBuf) :
    b.Grows (if s.delta = 0 then
        let (delta, b) := if s.space then getNextSpace b maxSpace else getNextPulse b maxPulse
        let delta :=
          if delta = 0 ∧ s.space ∧ bits ≤ s.received + r.bitsInByte + parityBit then maxSpace
          else delta
        ({ s with delta := delta, origdelta := delta }, b)
      else (s, b)).2 := by
  have hread : b.Grows (if s.space then getNextSpace b maxSpace else getNextPulse b maxPulse).2 := by
    split
    · exact getNextSpace_grows b maxSpace
    · exact getNextPulse_grows b maxPulse
  split
  · exact hread
  · exact .refl b

/-- A round of the serial decoder only reads; what it changes otherwise is
the pulse or space that is due. -/
theorem serialRound_grows (bits parityBit : ℕ) (base stop maxSpace maxPulse : ℤ)
    (s : SerialState) (b : RBuf) :
    b.Grows (serialRound hw r bits parityBit base stop maxSpace maxPulse s b).2 := by
  have hdelta := serialSample_grows r bits parityBit maxSpace maxPulse s b
  unfold serialRound
  generalize (if s.delta = 0 then _ else (s, b) : SerialState × RBuf) = x at hdelta ⊢
  rcases x with ⟨s', b'⟩
  refine .either hdelta (.either hdelta (.either (.either hdelta hdelta) (.either (.either ?_ hdelta)
    (.either hdelta hdelta))))
  exact .either hdelta (.either hdelta hdelta)

theorem serialRounds_grows (bits parityBit : ℕ) (base stop maxSpace maxPulse : ℤ) (n : ℕ)
    (s : SerialState) (b : RBuf) :
    b.Grows (serialRounds hw r bits parityBit base stop maxSpace maxPulse n s b).2 := by
  induction n generalizing s b with
  | zero => exact .refl b
  | succ n ih =>
      have h := serialRound_grows hw r bits parityBit base stop maxSpace maxPulse s b
      rw [serialRounds]
      split
      · generalize serialRound hw r bits parityBit base stop maxSpace maxPulse s b = x at h ⊢
        rcases x with ⟨_ | s', b'⟩
        · exact h
        · exact h.trans (ih s' b')
      · exact .refl b

theorem getFoot_grows (b : RBuf) : b.Grows (getFoot hw r b).2 := by
  have h := expectSpace_grows hw r b r.sfoot
  unfold getFoot
  generalize expectSpace hw r b r.sfoot = x at h ⊢
  rcases x with ⟨_ | _, b₁⟩
  · exact h
  · exact h.trans (expectPulse_grows hw r b₁ r.pfoot)

theorem closeSignal_grows (header : Bool) (b : RBuf) :
    b.Grows (closeSignal hw r header b).2 := by
  have h := getTrail_grows hw r b
  unfold closeSignal
  generalize getTrail hw r b = x at h ⊢
  rcases x with ⟨_ | _, b₁⟩
  · exact h
  have h₁ := h.trans (RBuf.Grows.optional (hasFoot r = true) (getFoot_grows hw r b₁))
  dsimp only at h₁ ⊢
  generalize (if hasFoot r = true then getFoot hw r b₁ else (true, b₁)) = y at h₁ ⊢
  rcases y with ⟨_ | _, b₂⟩
  · exact h₁
  have h₂ : b.Grows (if (header && isConst r && r.has noHeadRep) = true then
      { b₂ with sum := b₂.sum - (r.phead + r.shead) } else b₂) := by
    split <;> exact h₁
  exact h₂.trans (getGap_grows hw r _ _)

theorem rewindRecBuffer_grows (b : RBuf) : b.Grows (rewindRecBuffer b) := .refl b

theorem syncLoop_grows (n : ℕ) (deltas : ℤ) (b : RBuf) :
    b.Grows (syncLoop hw r n deltas b).2 := by
  induction n generalizing deltas b with
  | zero =>
      have h := getNextPulse_grows b 1000000
      have h₁ := h.trans (getNextSpace_grows (getNextPulse b 1000000).2 1000000)
      rw [syncLoop]
      exact .either (.refl b) (.either h (.either h₁ h₁))
  | succ n ih =>
      have h := getNextPulse_grows b 1000000
      have h₁ := h.trans (getNextSpace_grows (getNextPulse b 1000000).2 1000000)
      rw [syncLoop]
      exact .either (.refl b) (.either h (.either h₁ (h₁.trans (ih _ _))))

/-- The synchronisation only reads, and of the remote it resets no more than
the toggle state. -/
theorem syncRecBuffer_grows (last : LastRemote) (b : RBuf) :
    b.Grows (syncRecBuffer hw r last b).2.2 := by
  have h := getNextSpace_grows b 1000000
  unfold syncRecBuffer
  generalize getNextSpace b 1000000 = x at h ⊢
  rcases x with ⟨deltas, b₁⟩
  dsimp only at h ⊢
  split
  · exact h
  cases last.get r with
  | none => exact h
  | some l =>
      dsimp only
      split
      · exact h
      · have h₁ := h.trans (syncLoop_grows hw l recSync deltas b₁)
        generalize syncLoop hw l recSync deltas b₁ = y at h₁ ⊢
        rcases y with ⟨deltas', b₂⟩
        dsimp only at h₁ ⊢
        split
        · exact h₁
        · exact h₁

end Reading

/-- The remotes are configured alike: they differ at most in the state of
the toggle mask. -/
def SameConfig (r r' : IrRemote) : Prop :=
  ∃ state code, r' = { r with toggleMaskState := state, toggleCode := code }

theorem SameConfig.refl (r : IrRemote) : SameConfig r r := ⟨_, _, rfl⟩

theorem SameConfig.trans {r r' r'' : IrRemote} (h : SameConfig r r') (h' : SameConfig r' r'') :
    SameConfig r r'' := by
  obtain ⟨_, _, rfl⟩ := h
  obtain ⟨_, _, rfl⟩ := h'
  exact ⟨_, _, rfl⟩

theorem SameConfig.pone {r r' : IrRemote} (h : SameConfig r r') : r'.pone = r.pone := by
  obtain ⟨_, _, rfl⟩ := h
  rfl

theorem SameConfig.sone {r r' : IrRemote} (h : SameConfig r r') : r'.sone = r.sone := by
  obtain ⟨_, _, rfl⟩ := h
  rfl

theorem syncRecBuffer_sameConfig (hw : Hardware) (r : IrRemote) (last : LastRemote) (b : RBuf) :
    SameConfig r (syncRecBuffer hw r last b).2.1 := by
  unfold syncRecBuffer
  generalize getNextSpace b 1000000 = x
  rcases x with ⟨deltas, b₁⟩
  dsimp only
  split
  · exact .refl r
  cases last.get r with
  | none => exact .refl r
  | some l =>
      dsimp only
      split
      · exact .refl r
      · generalize syncLoop hw l recSync deltas b₁ = y
        rcases y with ⟨deltas', b₂⟩
        dsimp only
        split
        · exact .refl r
        · split
          · exact ⟨_, _, rfl⟩
          · exact .refl r

/-! ### A whole attempt -/

section Attempt

variable (hw : Hardware)

theorem matchSignals_fetches (r : IrRemote) (ss : List ℤ) (b : RBuf) :
    b.Fetches (matchSignals hw r ss b).2 := by
  match ss with
  | [] => exact .refl b
  | [p] => exact expectPulse_fetches hw r b p
  | p :: s :: rest =>
      have h := expectPulse_fetches hw r b p
      rw [matchSignals]
      generalize expectPulse hw r b p = x at h ⊢
      rcases x with ⟨_ | _, b₁⟩
      · exact h
      · have h₁ := h.trans (expectSpace_fetches hw r b₁ s)
        dsimp only at h₁ ⊢
        generalize expectSpace hw r b₁ s = y at h₁ ⊢
        rcases y with ⟨_ | _, b₂⟩
        · exact h₁
        · exact h₁.trans (matchSignals_fetches r rest b₂)

/-- The search through raw codes starts every code from a rewound buffer. -/
theorem decodeRaw_grows (last : LastRemote) (codes : List IrNcode) (r : IrRemote) (b : RBuf) :
    SameConfig r (decodeRaw hw last codes r b).2.1 ∧
      b.Grows (decodeRaw hw last codes r b).2.2 := by
  induction codes generalizing r b with
  | nil => exact ⟨.refl r, .refl b⟩
  | cons c codes ih =>
      have h := (matchSignals_fetches hw r (c.signals.getD []) b).grows
      rw [decodeRaw]
      generalize matchSignals hw r (c.signals.getD []) b = x at h ⊢
      rcases x with ⟨_ | _, b₁⟩
      · have hconfig := syncRecBuffer_sameConfig hw r last (rewindRecBuffer b₁)
        have hsync := (h.trans (rewindRecBuffer_grows b₁)).trans
          (syncRecBuffer_grows hw r last (rewindRecBuffer b₁))
        dsimp only [Bool.not_false]
        generalize syncRecBuffer hw r last (rewindRecBuffer b₁) = y at hconfig hsync ⊢
        rcases y with ⟨s, r', b₂⟩
        obtain ⟨hconfig', hgrows⟩ := ih r' b₂
        exact ⟨hconfig.trans hconfig', hsync.trans hgrows⟩
      · dsimp only [Bool.not_true]
        have hgap := h.trans
          (getGap_grows hw r b₁ (if isConst r then minGap r - b₁.sum else minGap r))
        generalize getGap hw r b₁ (if isConst r then minGap r - b₁.sum else minGap r) = y at hgap ⊢
        rcases y with ⟨_ | _, b₂⟩
        · obtain ⟨hconfig, hgrows⟩ := ih r b₂
          exact ⟨hconfig, hgap.trans hgrows⟩
        · exact ⟨.refl r, hgap⟩

/-- The remote and the buffer an attempt at a repeat code leaves. -/
def afterRepeat : (Option Decoded × IrRemote × RBuf) ⊕ (IrRemote × RBuf) → IrRemote × RBuf
  | .inl (_, r, b) => (r, b)
  | .inr (r, b) => (r, b)

theorem decodeRepeat_grows (r : IrRemote) (last : LastRemote) (b : RBuf) :
    SameConfig r (afterRepeat (decodeRepeat hw r last b)).1 ∧
      b.Grows (afterRepeat (decodeRepeat hw r last b)).2 := by
  have h : b.Grows
      (if r.has repeatHeader && hasHeader r then getHeader hw r b else (true, b)).2 := by
    split
    · exact getHeader_grows hw r b
    · exact .refl b
  unfold decodeRepeat
  generalize (if r.has repeatHeader && hasHeader r then getHeader hw r b else (true, b)) = x at h ⊢
  rcases x with ⟨_ | _, b₁⟩
  · exact ⟨.refl r, h⟩
  have h₁ := h.trans (getRepeat_grows hw r b₁)
  dsimp only [Bool.not_true] at h₁ ⊢
  generalize getRepeat hw r b₁ = y at h₁ ⊢
  rcases y with ⟨_ | _, b₂⟩
  · have hconfig := syncRecBuffer_sameConfig hw r last (rewindRecBuffer b₂)
    have hsync := (h₁.trans (rewindRecBuffer_grows b₂)).trans
      (syncRecBuffer_grows hw r last (rewindRecBuffer b₂))
    exact ⟨hconfig, hsync⟩
  · cases r.lastCode with
    | none => exact ⟨.refl r, h₁⟩
    | some i => exact ⟨.refl r, h₁⟩

theorem decodeHeader_grows (r : IrRemote) (sync : ℤ) (b : RBuf) :
    b.Grows (decodeHeader hw r sync b).2 := by
  have h := getHeader_grows hw r b
  unfold decodeHeader
  split
  · generalize getHeader hw r b = x at h ⊢
    rcases x with ⟨_ | _, b₁⟩
    · dsimp only
      exact .either h (.either h h)
    · exact h
  · exact .refl b

theorem postSeparator_grows (r : IrRemote) (b : RBuf) : b.Grows (postSeparator hw r b).2 := by
  have h := expectPulse_grows hw r b r.postP
  unfold postSeparator
  split
  · generalize expectPulse hw r b r.postP = x at h ⊢
    rcases x with ⟨_ | _, b₁⟩
    · exact h
    · exact h
  · exact .refl b

theorem decodeLirccode_grows (r : IrRemote) (now : ℕ) (b : RBuf) :
    b.Grows (decodeLirccode hw r now b).2 := by
  unfold decodeLirccode
  split
  · exact .refl b
  · exact .refl b

end Attempt

end Lirc
