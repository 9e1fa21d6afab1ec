import Lirc.Receive
import Lirc.CodeWord

/-!
What a segment of the data says. `get_data` reports a failure in-band, as
the word of 64 ones. Here the same samples are read with the failure kept
apart from the value: `matchData` gives `none` where some symbol of the
segment is not matched by the samples. Most protocols read one symbol after
the other and shift its bits in from the right, which is `readSymbols`.
-/

namespace Lirc

variable {σ : Type*}

/-- `n` symbols of `w` bits each. `step` reads one, from a state of its own. -/
def readSymbols (w : ℕ) (step : σ → RBuf → Option IrCode × σ × RBuf) :
    ℕ → σ → IrCode → RBuf → Option IrCode × σ × RBuf
  | 0, s, code, b => (some code, s, b)
  | n + 1, s, code, b =>
      match step s b with
      | (none, s, b) => (none, s, b)
      | (some v, s, b) => readSymbols w step n s (code <<< w ||| v) b

/-- A symbol does not need more bits than it is given. -/
def Narrow (w : ℕ) (step : σ → RBuf → Option IrCode × σ × RBuf) : Prop :=
  ∀ s b v, (step s b).1 = some v → v.toNat < 2 ^ w

theorem shiftIn_toNat_lt {code v : IrCode} {k w : ℕ} (hc : code.toNat < 2 ^ k)
    (hv : v.toNat < 2 ^ w) : (code <<< w ||| v).toNat < 2 ^ (k + w) := by
  have hshift : (code <<< w).toNat < 2 ^ (k + w) := by
    rw [BitVec.toNat_shiftLeft, Nat.shiftLeft_eq]
    calc code.toNat * 2 ^ w % 2 ^ 64 ≤ code.toNat * 2 ^ w := Nat.mod_le _ _
      _ < 2 ^ k * 2 ^ w := Nat.mul_lt_mul_of_pos_right hc (Nat.two_pow_pos w)
      _ = 2 ^ (k + w) := (Nat.pow_add 2 k w).symm
  rw [BitVec.toNat_or]
  exact Nat.or_lt_two_pow hshift
    (Nat.lt_of_lt_of_le hv (Nat.pow_le_pow_right (by decide) (Nat.le_add_left w k)))

/-- `n` symbols of `w` bits make a value of `n * w` bits. -/
theorem readSymbols_lt {w : ℕ} {step : σ → RBuf → Option IrCode × σ × RBuf}
    (hstep : Narrow w step) {n k : ℕ} {s : σ} {code v : IrCode} {b : RBuf}
    (hc : code.toNat < 2 ^ k) (h : (readSymbols w step n s code b).1 = some v) :
    v.toNat < 2 ^ (k + n * w) := by
  induction n generalizing s code b k with
  | zero =>
      obtain rfl : code = v := by simpa [readSymbols] using h
      simpa using hc
  | succ n ih =>
      rw [readSymbols] at h
      split at h
      · simp at h
      · next u s' b' hread =>
          have hu : u.toNat < 2 ^ w := hstep s b u (by rw [hread])
          have hv := ih (shiftIn_toNat_lt hc hu) h
          have hexp : k + w + n * w = k + (n + 1) * w := by rw [Nat.add_mul]; omega
          rwa [hexp] at hv

section Symbols

variable (hw : Hardware) (r : IrRemote)

/-- Two bits of an RC-MM signal. -/
def rcmmSymbol (s : Unit) (b : RBuf) : Option IrCode × Unit × RBuf :=
  let (deltap, b) := getNextPulse b (maxSymbolPulse r)
  let (deltas, b) := getNextSpace b (maxSymbolSpace r)
  if deltap = 0 ∨ deltas = 0 then (none, s, b)
  else ((matchSymbol hw r (deltap + deltas)).map (BitVec.ofNat 64), s, b)

/-- One symbol of a Grundig signal: a space and a pulse. -/
def grundigSymbol (b : RBuf) : Option ℕ × RBuf :=
  let (deltas, b) := getNextSpace b (maxSymbolSpace r)
  let (deltap, b) := getNextPulse b (maxSymbolPulse r)
  if deltas = 0 ∨ deltap = 0 then (none, b)
  else (matchSymbol hw r (deltas + deltap), b)

/-- Two bits of a Grundig signal: the longest symbol, or two shorter ones. -/
def grundigPair (s : Unit) (b : RBuf) : Option IrCode × Unit × RBuf :=
  match grundigSymbol hw r b with
  | (none, b) => (none, s, b)
  | (some state, b) =>
      match grundigBits none state with
      | some two => (some two, s, b)
      | none =>
          match grundigSymbol hw r b with
          | (none, b) => (none, s, b)
          | (some state', b) => (grundigBits (some state) state', s, b)

/-- One bit of a B&O signal; the state is the previous bit. -/
def boSymbol (lastbit : Bool) (b : RBuf) : Option IrCode × Bool × RBuf :=
  let (deltap, b) := getNextPulse b (maxSymbolPulse r)
  let (deltas, b) := getNextSpace b (maxSymbolSpace r)
  if deltap = 0 ∨ deltas = 0 then (none, lastbit, b)
  else
    let (pzero, szero, pone, sone) :=
      if lastbit then (r.pone, r.sone, r.ptwo, r.stwo)
      else (r.ptwo, r.stwo, r.pthree, r.sthree)
    if expect hw r deltap pzero && expect hw r deltas szero then (some 0, false, b)
    else if expect hw r deltap pone && expect hw r deltas sone then (some 1, true, b)
    else (none, lastbit, b)

/-- Four bits of an XMP signal. -/
def xmpSymbol (s : Unit) (b : RBuf) : Option IrCode × Unit × RBuf :=
  let (deltap, b) := getNextPulse b r.pzero
  let (deltas, b) := getNextSpace b (r.szero + 16 * r.sone)
  if deltap = 0 ∨ deltas = 0 then (none, s, b)
  else
    let q := (deltap + deltas - (r.pzero + r.szero) + r.sone.tdiv 2).tdiv r.sone
    if q < 0 ∨ 16 ≤ q then (none, s, b) else (some (BitVec.ofInt 64 q), s, b)

/-- One bit of the other protocols; the state is the remote, whose timings a
Goldstar signal changes, and the place of the bit. -/
def bitSymbol (s : IrRemote × ℕ) (b : RBuf) : Option IrCode × (IrRemote × ℕ) × RBuf :=
  let r := goldstarTimings s.1 s.2
  match expectOne hw r s.2 b with
  | (true, b) => (some 1, (r, s.2 + 1), b)
  | (false, b) =>
      match expectZero hw r s.2 b with
      | (true, b) => (some 0, (r, s.2 + 1), b)
      | (false, b) => (none, (r, s.2 + 1), b)

/-- The rounds of the serial decoder, up to the state they end in. -/
def serialRounds (bits parityBit : ℕ) (base stop maxSpace maxPulse : ℤ) :
    ℕ → SerialState → RBuf → Option SerialState × RBuf
  | 0, _, b => (none, b)
  | n + 1, s, b =>
      if s.received < bits ∨ s.stopBit then
        match serialRound hw r bits parityBit base stop maxSpace maxPulse s b with
        | (none, b) => (none, b)
        | (some s, b) => serialRounds bits parityBit base stop maxSpace maxPulse n s b
      else (some s, b)

/-- What the serial decoder does after its loop: the rest of the space of the
last stop bit goes back into the buffer. -/
def serialFinish (s : SerialState) (b : RBuf) : RBuf :=
  let b := if s.gapDelta ≠ 0 then ungetRecBufferDelta b s.gapDelta else b
  { b with pendingp := 0, pendings := 0 }

/-- The rounds for a segment of so many bits. -/
def serialRun (bits : ℕ) (b : RBuf) : Option SerialState × RBuf :=
  let base : ℤ := (1000000 / r.baud : ℕ)
  let stop : ℤ := (base * r.stopBits).tdiv 2
  let parityBit := if r.parity = .none then 0 else 1
  let maxSpace := r.sone * r.bitsInByte + stop + (if r.parity = .none then 0 else r.sone)
  let maxPulse := r.pzero * (1 + r.bitsInByte) + (if r.parity = .none then 0 else r.pzero)
  let bits := if r.parity = .none then bits else bits + bits / r.bitsInByte
  let s : SerialState :=
    { received := 0, space := base == 0, stopBit := false, parity := false, delta := 0,
      origdelta := 0, gapDelta := 0, code := 0 }
  serialRounds hw r bits parityBit base stop maxSpace maxPulse
    (serialFuel bits (r.bitsInByte + parityBit) maxSpace b) s { b with pendingp := base }

/-- The bytes of a serial signal. -/
def readSerial (bits : ℕ) (b : RBuf) : Option IrCode × RBuf :=
  match serialRun hw r bits b with
  | (none, b) => (none, b)
  | (some s, b) => (some s.code, serialFinish s b)

/-- The value of a segment, or `none` where the samples do not match it. -/
def matchData (bits done : ℕ) (b : RBuf) : Option IrCode × IrRemote × RBuf :=
  if isRcmm r then
    if bits % 2 ≠ 0 ∨ done % 2 ≠ 0 then (none, r, b)
    else
      let (ok, b) := syncPendingSpace hw r b
      if !ok then (none, r, b)
      else
        let (v, _, b) := readSymbols 2 (rcmmSymbol hw r) (bits / 2) () 0 b
        (v, r, b)
  else if isGrundig r then
    if bits % 2 ≠ 0 ∨ done % 2 ≠ 0 then (none, r, b)
    else
      let (ok, b) := syncPendingPulse hw r b
      if !ok then (none, r, b)
      else
        let (v, _, b) := readSymbols 2 (grundigPair hw r) (bits / 2) () 0 b
        (v, r, b)
  else if isSerial r then
    let (v, b) := readSerial hw r bits b
    (v, r, b)
  else if isBo r then
    let (v, _, b) := readSymbols 1 (boSymbol hw r) bits true 0 b
    (v, r, b)
  else if isXmp r then
    if bits % 4 ≠ 0 ∨ done % 4 ≠ 0 then (none, r, b)
    else
      let (ok, b) := syncPendingSpace hw r b
      if !ok then (none, r, b)
      else
        let (v, _, b) := readSymbols 4 (xmpSymbol r) (bits / 4) () 0 b
        (v, r, b)
  else
    let (v, (r, _), b) := readSymbols 1 (bitSymbol hw) bits (r, done) 0 b
    (v, r, b)

end Symbols

/-! ### The loops of `get_data` -/

theorem or_zero_code (code : IrCode) : code ||| 0 = code := by simp

section Loops

variable (hw : Hardware) (r : IrRemote)

theorem getRcmmLoop_eq (n : ℕ) (code : IrCode) (b : RBuf) :
    getRcmmLoop hw r n code b =
      ((readSymbols 2 (rcmmSymbol hw r) n () code b).1.getD noCode,
        (readSymbols 2 (rcmmSymbol hw r) n () code b).2.2) := by
  induction n generalizing code b with
  | zero => rfl
  | succ n ih =>
      simp only [getRcmmLoop, readSymbols, rcmmSymbol]
      split
      · rfl
      · cases hm : matchSymbol hw r
            ((getNextPulse b (maxSymbolPulse r)).1 +
              (getNextSpace (getNextPulse b (maxSymbolPulse r)).2 (maxSymbolSpace r)).1) with
        | none => rfl
        | some s => exact ih _ _

theorem getBoLoop_eq (n : ℕ) (lastbit : Bool) (code : IrCode) (b : RBuf) :
    getBoLoop hw r n lastbit code b =
      ((readSymbols 1 (boSymbol hw r) n lastbit code b).1.getD noCode,
        (readSymbols 1 (boSymbol hw r) n lastbit code b).2.2) := by
  induction n generalizing lastbit code b with
  | zero => rfl
  | succ n ih =>
      cases lastbit
      all_goals
        simp only [getBoLoop, readSymbols, boSymbol, if_true, if_false, Bool.false_eq_true]
        split
        · rfl
        · split
          · simp only [or_zero_code, ih]
          · split
            · exact ih _ _ _
            · rfl

theorem getXmpLoop_eq (n : ℕ) (code : IrCode) (b : RBuf) :
    getXmpLoop r n code b =
      ((readSymbols 4 (xmpSymbol r) n () code b).1.getD noCode,
        (readSymbols 4 (xmpSymbol r) n () code b).2.2) := by
  induction n generalizing code b with
  | zero => rfl
  | succ n ih =>
      simp only [getXmpLoop, readSymbols, xmpSymbol]
      split
      · rfl
      · split
        · rfl
        · exact ih _ _

theorem getBitLoop_eq (n bit : ℕ) (code : IrCode) (r : IrRemote) (b : RBuf) :
    getBitLoop hw n bit code r b =
      ((readSymbols 1 (bitSymbol hw) n (r, bit) code b).1.getD noCode,
        (readSymbols 1 (bitSymbol hw) n (r, bit) code b).2.1.1,
        (readSymbols 1 (bitSymbol hw) n (r, bit) code b).2.2) := by
  induction n generalizing bit code r b with
  | zero => rfl
  | succ n ih =>
      simp only [getBitLoop, readSymbols, bitSymbol]
      rcases expectOne hw (goldstarTimings r bit) bit b with ⟨_ | _, b₁⟩
      · dsimp only
        rcases expectZero hw (goldstarTimings r bit) bit b₁ with ⟨_ | _, b₂⟩
        · rfl
        · simp only [or_zero_code, ih]
      · exact ih _ _ _ _

/-- A pair of symbols takes one round of the loop or two. -/
theorem getGrundigLoop_eq (bits m : ℕ) {n i : ℕ} (hbits : bits = i + 2 * m) (hn : 2 * m ≤ n)
    (code : IrCode) (b : RBuf) :
    getGrundigLoop hw r bits n i none code b =
      ((readSymbols 2 (grundigPair hw r) m () code b).1.getD noCode,
        (readSymbols 2 (grundigPair hw r) m () code b).2.2) := by
  induction m generalizing n i code b with
  | zero =>
      cases n with
      | zero => rfl
      | succ n => rw [getGrundigLoop, if_neg (by omega)]; rfl
  | succ m ih =>
      obtain ⟨n, rfl⟩ : ∃ k, n = k + 2 := ⟨n - 2, by omega⟩
      have hi : i < bits := by omega
      have hsym : ∀ b, grundigSymbol hw r b =
          if (getNextSpace b (maxSymbolSpace r)).1 = 0 ∨
              (getNextPulse (getNextSpace b (maxSymbolSpace r)).2 (maxSymbolPulse r)).1 = 0 then
            (none, (getNextPulse (getNextSpace b (maxSymbolSpace r)).2 (maxSymbolPulse r)).2)
          else
            (matchSymbol hw r ((getNextSpace b (maxSymbolSpace r)).1 +
                (getNextPulse (getNextSpace b (maxSymbolSpace r)).2 (maxSymbolPulse r)).1),
              (getNextPulse (getNextSpace b (maxSymbolSpace r)).2 (maxSymbolPulse r)).2) :=
        fun b => rfl
      have hround : ∀ (k : ℕ) (last : Option ℕ) (b : RBuf),
          getGrundigLoop hw r bits (k + 1) i last code b =
            match grundigSymbol hw r b with
            | (none, b) => (noCode, b)
            | (some state, b) =>
                match grundigBits last state with
                | some two => getGrundigLoop hw r bits k (i + 2) none (code <<< 2 ||| two) b
                | none =>
                    if last.isNone then getGrundigLoop hw r bits k i (some state) code b
                    else (noCode, b) := by
        intro k last b
        rw [getGrundigLoop, if_pos hi, hsym]
        dsimp only
        split
        · rfl
        · rcases matchSymbol hw r _ with _ | state <;> rfl
      rw [hround, readSymbols, grundigPair]
      rcases grundigSymbol hw r b with ⟨_ | state, b₁⟩
      · rfl
      · dsimp only
        rcases grundigBits none state with _ | two
        · dsimp only [Option.isNone_none]
          rw [if_pos rfl, hround]
          rcases grundigSymbol hw r b₁ with ⟨_ | state', b₂⟩
          · rfl
          · dsimp only
            rcases grundigBits (some state) state' with _ | two
            · rfl
            · exact ih (by omega) (by omega) _ _
        · exact ih (by omega) (by omega) _ _

theorem getSerialLoop_eq (bits parityBit : ℕ) (base stop maxSpace maxPulse : ℤ) (n : ℕ)
    (s : SerialState) (b : RBuf) :
    getSerialLoop hw r bits parityBit base stop maxSpace maxPulse n s b =
      match serialRounds hw r bits parityBit base stop maxSpace maxPulse n s b with
      | (none, b) => (noCode, b)
      | (some s, b) => (s.code, serialFinish s b) := by
  induction n generalizing s b with
  | zero => rfl
  | succ n ih =>
      simp only [getSerialLoop, serialRounds]
      split
      · rcases serialRound hw r bits parityBit base stop maxSpace maxPulse s b with ⟨_ | s', b'⟩
        · rfl
        · exact ih s' b'
      · rfl

theorem getSerial_eq (bits : ℕ) (b : RBuf) :
    getSerial hw r bits b =
      ((readSerial hw r bits b).1.getD noCode, (readSerial hw r bits b).2) := by
  have hrun : getSerial hw r bits b =
      match serialRun hw r bits b with
      | (none, b) => (noCode, b)
      | (some s, b) => (s.code, serialFinish s b) := getSerialLoop_eq hw r _ _ _ _ _ _ _ _ _
  rw [hrun, readSerial]
  rcases serialRun hw r bits b with ⟨_ | s, b'⟩
  · rfl
  · rfl

end Loops

/-! ### The failure of a segment -/

section Failure

variable (hw : Hardware) (r : IrRemote)

/-- The space that was still due before the first symbol of an RC-MM or XMP
segment does not come; `get_data` returns 0 there. -/
def pendingMissed (bits done : ℕ) (b : RBuf) : Bool :=
  (isRcmm r && bits % 2 == 0 && done % 2 == 0 || isXmp r && bits % 4 == 0 && done % 4 == 0) &&
    !(syncPendingSpace hw r b).1

/-- `get_data` in terms of what the samples say. -/
theorem getData_eq_matchData (bits done : ℕ) (b : RBuf) :
    getData hw r bits done b =
      (if pendingMissed hw r bits done b then 0 else (matchData hw r bits done b).1.getD noCode,
        (matchData hw r bits done b).2) := by
  have other : ∀ {p q : ℕ}, p ≠ q → r.protocolIs p = true → r.protocolIs q = false :=
    fun hpq hp => protocolIs_unique hp hpq
  unfold getData matchData pendingMissed
  by_cases hrcmm : isRcmm r = true
  · have hxmp : isXmp r = false := other (p := rcmm) (by decide) hrcmm
    simp only [hrcmm, hxmp, if_true, Bool.true_and, Bool.false_and, Bool.or_false]
    by_cases hpar : bits % 2 ≠ 0 ∨ done % 2 ≠ 0
    · have hoff : (bits % 2 == 0 && done % 2 == 0) = false := by
        simp only [Bool.and_eq_false_iff, beq_eq_false_iff_ne]
        exact hpar
      simp only [if_pos hpar, hoff, Bool.false_and, Bool.false_eq_true, if_false]
      rfl
    · have hon : (bits % 2 == 0 && done % 2 == 0) = true := by
        simp only [Bool.and_eq_true, beq_iff_eq]
        omega
      simp only [if_neg hpar, hon, Bool.true_and]
      rcases syncPendingSpace hw r b with ⟨_ | _, b'⟩
      · rfl
      · simp [getRcmmLoop_eq]
  · rw [Bool.not_eq_true] at hrcmm
    simp only [hrcmm, Bool.false_eq_true, if_false, Bool.false_and, Bool.false_or]
    by_cases hgrundig : isGrundig r = true
    · have hxmp : isXmp r = false := other (p := grundig) (by decide) hgrundig
      simp only [hgrundig, hxmp, if_true, Bool.false_and, Bool.false_eq_true, if_false]
      by_cases hpar : bits % 2 ≠ 0 ∨ done % 2 ≠ 0
      · simp only [if_pos hpar]
        rfl
      · simp only [if_neg hpar]
        rcases syncPendingPulse hw r b with ⟨_ | _, b'⟩
        · rfl
        · have hloop := getGrundigLoop_eq hw r bits (bits / 2) (n := bits) (i := 0) (by omega)
            (by omega) 0 b'
          simp only [Bool.not_true, Bool.false_eq_true, if_false, hloop]
    · rw [Bool.not_eq_true] at hgrundig
      simp only [hgrundig, Bool.false_eq_true, if_false]
      by_cases hserial : isSerial r = true
      · have hxmp : isXmp r = false := other (p := serial) (by decide) hserial
        simp [hserial, hxmp, getSerial_eq]
      · rw [Bool.not_eq_true] at hserial
        simp only [hserial, Bool.false_eq_true, if_false]
        by_cases hbo : isBo r = true
        · have hxmp : isXmp r = false := other (p := bo) (by decide) hbo
          simp [hbo, hxmp, getBoLoop_eq]
        · rw [Bool.not_eq_true] at hbo
          simp only [hbo, Bool.false_eq_true, if_false]
          by_cases hxmp : isXmp r = true
          · simp only [hxmp, if_true, Bool.true_and]
            by_cases hpar : bits % 4 ≠ 0 ∨ done % 4 ≠ 0
            · have hoff : (bits % 4 == 0 && done % 4 == 0) = false := by
                simp only [Bool.and_eq_false_iff, beq_eq_false_iff_ne]
                exact hpar
              simp only [if_pos hpar, hoff, Bool.false_and, Bool.false_eq_true, if_false]
              rfl
            · have hon : (bits % 4 == 0 && done % 4 == 0) = true := by
                simp only [Bool.and_eq_true, beq_iff_eq]
                omega
              simp only [if_neg hpar, hon, Bool.true_and]
              rcases syncPendingSpace hw r b with ⟨_ | _, b'⟩
              · rfl
              · simp [getXmpLoop_eq]
          · rw [Bool.not_eq_true] at hxmp
            simp [hxmp, getBitLoop_eq]

/-- The caller of `get_data` learns whether the segment was matched, and its
value. -/
def SegmentTold (bits done : ℕ) (b : RBuf) : Prop :=
  ((getData hw r bits done b).1 = noCode ↔ (matchData hw r bits done b).1 = none) ∧
    ∀ v, (matchData hw r bits done b).1 = some v → (getData hw r bits done b).1 = v

/-- No space due before the segment is missed, and the samples do not read
as 64 ones. -/
def SegmentClear (bits done : ℕ) (b : RBuf) : Prop :=
  pendingMissed hw r bits done b = false ∧ (matchData hw r bits done b).1 ≠ some noCode

/-- A missed space means that the segment is not matched. -/
theorem matchData_of_pendingMissed {bits done : ℕ} {b : RBuf}
    (h : pendingMissed hw r bits done b = true) : (matchData hw r bits done b).1 = none := by
  unfold pendingMissed at h
  simp only [Bool.and_eq_true, Bool.or_eq_true, beq_iff_eq, Bool.not_eq_true'] at h
  obtain ⟨hproto, hmiss⟩ := h
  have hsync : syncPendingSpace hw r b = (false, (syncPendingSpace hw r b).2) := by
    rw [← hmiss]
  unfold matchData
  rcases hproto with ⟨⟨hrcmm, hbits⟩, hdone⟩ | ⟨⟨hxmp, hbits⟩, hdone⟩
  · rw [if_pos hrcmm, if_neg (by omega), hsync]
    rfl
  · have other : ∀ {q : ℕ}, xmp ≠ q → r.protocolIs q = false :=
      fun hq => protocolIs_unique hxmp hq
    have h₁ : isRcmm r = false := other (q := rcmm) (by decide)
    have h₂ : isGrundig r = false := other (q := grundig) (by decide)
    have h₃ : isSerial r = false := other (q := serial) (by decide)
    have h₄ : isBo r = false := other (q := bo) (by decide)
    simp only [h₁, h₂, h₃, h₄, hxmp, Bool.false_eq_true, if_false, if_true]
    rw [if_neg (by omega), hsync]
    rfl

/-- A segment is reported unambiguously exactly when it is clear. -/
theorem segmentTold_iff (bits done : ℕ) (b : RBuf) :
    SegmentTold hw r bits done b ↔ SegmentClear hw r bits done b := by
  unfold SegmentTold SegmentClear
  rw [getData_eq_matchData]
  by_cases hmiss : pendingMissed hw r bits done b = true
  · have hnone := matchData_of_pendingMissed hw r hmiss
    simp only [hmiss, hnone, if_true]
    constructor
    · rintro ⟨htold, -⟩
      exact absurd (htold.mpr trivial) (by decide)
    · rintro ⟨hclear, -⟩
      exact absurd hclear (by decide)
  · rw [Bool.not_eq_true] at hmiss
    simp only [hmiss, Bool.false_eq_true, if_false, true_and]
    cases hv : (matchData hw r bits done b).1 with
    | none => simp
    | some v => simp

end Failure

/-! ### The width of a value -/

section Width

variable (hw : Hardware) (r : IrRemote)

theorem matchSymbol_lt {sum : ℤ} {s : ℕ} (h : matchSymbol hw r sum = some s) : s < 4 := by
  unfold matchSymbol at h
  split at h
  · simp_all; omega
  · split at h
    · simp_all; omega
    · split at h
      · simp_all; omega
      · split at h
        · simp_all; omega
        · simp at h

theorem narrow_rcmmSymbol : Narrow 2 (rcmmSymbol hw r) := by
  intro s b v h
  unfold rcmmSymbol at h
  dsimp only at h
  split at h
  · simp at h
  · obtain ⟨m, hm, rfl⟩ := Option.map_eq_some_iff.mp h
    have hlt := matchSymbol_lt hw r hm
    rw [BitVec.toNat_ofNat]
    exact Nat.lt_of_le_of_lt (Nat.mod_le _ _) hlt

theorem grundigBits_lt {last : Option ℕ} {state : ℕ} {two : IrCode}
    (h : grundigBits last state = some two) : two.toNat < 2 ^ 2 := by
  unfold grundigBits at h
  split_ifs at h <;> simp only [Option.some.injEq] at h <;> subst h <;> decide

theorem narrow_grundigPair : Narrow 2 (grundigPair hw r) := by
  intro s b v h
  unfold grundigPair at h
  generalize grundigSymbol hw r b = x at h
  rcases x with ⟨_ | state, b₁⟩
  · simp at h
  · dsimp only at h
    cases hone : grundigBits none state with
    | some two =>
        simp only [hone, Option.some.injEq] at h
        exact h ▸ grundigBits_lt hone
    | none =>
        simp only [hone] at h
        generalize grundigSymbol hw r b₁ = y at h
        rcases y with ⟨_ | state', b₂⟩
        · simp at h
        · exact grundigBits_lt h

theorem narrow_boSymbol : Narrow 1 (boSymbol hw r) := by
  intro s b v h
  unfold boSymbol at h
  dsimp only at h
  split at h
  · simp at h
  · cases s
    all_goals
      simp only [if_true, if_false, Bool.false_eq_true] at h
      split at h
      · simp only [Option.some.injEq] at h
        subst h; decide
      · split at h
        · simp only [Option.some.injEq] at h
          subst h; decide
        · simp at h

theorem narrow_xmpSymbol : Narrow 4 (xmpSymbol r) := by
  intro s b v h
  unfold xmpSymbol at h
  dsimp only at h
  split at h
  · simp at h
  · split at h
    · simp at h
    · next hq =>
        simp only [Option.some.injEq] at h
        subst h
        rw [BitVec.toNat_ofInt]
        omega

theorem narrow_bitSymbol : Narrow 1 (bitSymbol hw) := by
  intro s b v h
  unfold bitSymbol at h
  dsimp only at h
  generalize expectOne hw (goldstarTimings s.1 s.2) s.2 b = x at h
  rcases x with ⟨_ | _, b₁⟩
  · dsimp only at h
    generalize expectZero hw (goldstarTimings s.1 s.2) s.2 b₁ = y at h
    rcases y with ⟨_ | _, b₂⟩
    · simp at h
    · simp only [Option.some.injEq] at h
      subst h; decide
  · simp only [Option.some.injEq] at h
    subst h; decide

/-- A segment of fewer than 64 bits has no value of 64 ones; serial remotes
are left out because a pulse that is too long can add bits to a byte. -/
theorem matchData_lt {bits done : ℕ} {b : RBuf} {v : IrCode} (hserial : isSerial r = false)
    (h : (matchData hw r bits done b).1 = some v) : v.toNat < 2 ^ bits := by
  have zero : ((0 : IrCode)).toNat < 2 ^ 0 := by decide
  unfold matchData at h
  split at h
  · split at h
    · simp at h
    next hpar =>
    generalize syncPendingSpace hw r b = x at h
    rcases x with ⟨_ | _, b'⟩
    · simp at h
    · have hlt := readSymbols_lt (narrow_rcmmSymbol hw r) zero h
      have hexp : 0 + bits / 2 * 2 = bits := by omega
      rwa [hexp] at hlt
  split at h
  · split at h
    · simp at h
    next hpar =>
    generalize syncPendingPulse hw r b = x at h
    rcases x with ⟨_ | _, b'⟩
    · simp at h
    · have hlt := readSymbols_lt (narrow_grundigPair hw r) zero h
      have hexp : 0 + bits / 2 * 2 = bits := by omega
      rwa [hexp] at hlt
  rw [if_neg (by simp [hserial])] at h
  split at h
  · have hlt := readSymbols_lt (narrow_boSymbol hw r) zero h
    rwa [Nat.zero_add, Nat.mul_one] at hlt
  split at h
  · split at h
    · simp at h
    next hpar =>
    generalize syncPendingSpace hw r b = x at h
    rcases x with ⟨_ | _, b'⟩
    · simp at h
    · have hlt := readSymbols_lt (narrow_xmpSymbol r) zero h
      have hexp : 0 + bits / 4 * 4 = bits := by omega
      rwa [hexp] at hlt
  · have hlt := readSymbols_lt (narrow_bitSymbol hw) zero h
    rwa [Nat.zero_add, Nat.mul_one] at hlt

end Width

/-! ### The segments of a signal -/

section Signal

variable (hw : Hardware)

/-- A call of `get_data`. -/
structure SegmentCall where
  remote : IrRemote
  bits : ℕ
  done : ℕ
  buf : RBuf

def SegmentCall.Told (c : SegmentCall) : Prop := SegmentTold hw c.remote c.bits c.done c.buf
def SegmentCall.Clear (c : SegmentCall) : Prop := SegmentClear hw c.remote c.bits c.done c.buf

/-- The pulse and the space before the post data. -/
def postSeparator (r : IrRemote) (b : RBuf) : Bool × RBuf :=
  if 0 < r.postP ∧ 0 < r.postS then
    let (ok, b) := expectPulse hw r b r.postP
    if !ok then (false, b) else (true, { b with pendings := r.postS })
  else (true, b)

/-- The calls of `get_data` for the post data. -/
def postCalls (r : IrRemote) (b : RBuf) : List SegmentCall :=
  if hasPost r && (postSeparator hw r b).1 then
    [⟨r, r.postDataBits, r.preDataBits + r.bits, (postSeparator hw r b).2⟩]
  else []

/-- The calls of `get_data` for the code and the post data. -/
def codeCalls (r : IrRemote) (b : RBuf) : List SegmentCall :=
  ⟨r, r.bits, r.preDataBits, b⟩ ::
    (let (code, r, b) := getData hw r r.bits r.preDataBits b
     if code = noCode then [] else postCalls hw r b)

/-- The calls of `get_data` from the pre data on. -/
def preCalls (r : IrRemote) (b : RBuf) : List SegmentCall :=
  if hasPre r then
    ⟨r, r.preDataBits, 0, b⟩ ::
      (let (pre, r, b) := getPre hw r b
       if pre = noCode then [] else codeCalls hw r b)
  else codeCalls hw r b

/-- The calls of `get_data` while `receive_decode` reads a full signal. -/
def segmentCalls (r : IrRemote) (b : RBuf) : List SegmentCall :=
  let (ok, b) := getLead hw r b
  if ok then preCalls hw r b else []

/-- `get_pre` with the failure kept apart. -/
def matchPre (r : IrRemote) (b : RBuf) : Option IrCode × IrRemote × RBuf :=
  match matchData hw r r.preDataBits 0 b with
  | (none, r, b) => (none, r, b)
  | (some pre, r, b) =>
      if 0 < r.preP ∧ 0 < r.preS then
        let (ok, b) := expectPulse hw r b r.preP
        if !ok then (none, r, b) else (some pre, r, { b with pendings := r.preS })
      else (some pre, r, b)

/-- `get_post` with the failure kept apart. -/
def matchPost (r : IrRemote) (b : RBuf) : Option IrCode × IrRemote × RBuf :=
  let (ok, b) := postSeparator hw r b
  if !ok then (none, r, b) else matchData hw r r.postDataBits (r.preDataBits + r.bits) b

/-- Trail, foot and gap after the data. -/
def closeSignal (r : IrRemote) (header : Bool) (b : RBuf) : Bool × RBuf :=
  let (ok, b) := getTrail hw r b
  if !ok then (false, b)
  else
    let (ok, b) := if hasFoot r then getFoot hw r b else (true, b)
    if !ok then (false, b)
    else
      let b :=
        if header && isConst r && r.has noHeadRep then
          { b with sum := b.sum - (r.phead + r.shead) }
        else b
      getGap hw r b (if isRcmm r then 1000 else if isConst r then constGap r b else minGap r)

/-- A signal from the post data on, with the failures kept apart. -/
def matchFromPost (header : Bool) (pre code : IrCode) (r : IrRemote) (b : RBuf) :
    Option (IrCode × IrCode × IrCode) × IrRemote × RBuf :=
  match if hasPost r then matchPost hw r b else (some 0, r, b) with
  | (none, r, b) => (none, r, b)
  | (some post, r, b) =>
      let (ok, b) := closeSignal hw r header b
      if ok then (some (pre, code, post), r, b) else (none, r, b)

/-- A signal from the code on, with the failures kept apart. -/
def matchFromCode (header : Bool) (pre : IrCode) (r : IrRemote) (b : RBuf) :
    Option (IrCode × IrCode × IrCode) × IrRemote × RBuf :=
  match matchData hw r r.bits r.preDataBits b with
  | (none, r, b) => (none, r, b)
  | (some code, r, b) => matchFromPost hw header pre code r b

/-- A full signal read with the failures kept apart from the values. -/
def matchBits (r : IrRemote) (header : Bool) (b : RBuf) :
    Option (IrCode × IrCode × IrCode) × IrRemote × RBuf :=
  let (ok, b) := getLead hw r b
  if !ok then (none, r, b)
  else
    match if hasPre r then matchPre hw r b else (some 0, r, b) with
    | (none, r, b) => (none, r, b)
    | (some pre, r, b) => matchFromCode hw header pre r b

variable {hw}

theorem getData_of_told {r : IrRemote} {bits done : ℕ} {b : RBuf}
    (h : SegmentTold hw r bits done b) :
    getData hw r bits done b =
        ((matchData hw r bits done b).1.getD noCode, (matchData hw r bits done b).2) ∧
      (matchData hw r bits done b).1 ≠ some noCode := by
  obtain ⟨hmiss, hones⟩ := (segmentTold_iff hw r bits done b).mp h
  rw [getData_eq_matchData, hmiss]
  exact ⟨rfl, hones⟩

/-- `get_pre` on a segment that is reported unambiguously. -/
theorem getPre_of_told {r : IrRemote} {b : RBuf} (h : SegmentTold hw r r.preDataBits 0 b) :
    getPre hw r b = ((matchPre hw r b).1.getD noCode, (matchPre hw r b).2) ∧
      (matchPre hw r b).1 ≠ some noCode := by
  obtain ⟨heq, hones⟩ := getData_of_told h
  unfold getPre matchPre
  rw [heq]
  generalize matchData hw r r.preDataBits 0 b = x at hones ⊢
  rcases x with ⟨_ | pre, r', b'⟩
  · exact ⟨rfl, nofun⟩
  · have hne : pre ≠ noCode := fun hp => hones (congrArg some hp)
    simp only [Option.getD_some, if_neg hne]
    split
    · rcases expectPulse hw r' b' r'.preP with ⟨_ | _, b₁⟩
      · exact ⟨rfl, nofun⟩
      · exact ⟨rfl, hones⟩
    · exact ⟨rfl, hones⟩

theorem getPost_eq (r : IrRemote) (b : RBuf) :
    getPost hw r b =
      if !(postSeparator hw r b).1 then (noCode, r, (postSeparator hw r b).2)
      else getData hw r r.postDataBits (r.preDataBits + r.bits) (postSeparator hw r b).2 := rfl

theorem getPost_of_told {r : IrRemote} {b : RBuf}
    (h : (postSeparator hw r b).1 = true →
      SegmentTold hw r r.postDataBits (r.preDataBits + r.bits) (postSeparator hw r b).2) :
    getPost hw r b = ((matchPost hw r b).1.getD noCode, (matchPost hw r b).2) ∧
      (matchPost hw r b).1 ≠ some noCode := by
  rw [getPost_eq]
  unfold matchPost
  rcases hp : postSeparator hw r b with ⟨_ | _, b'⟩
  · exact ⟨rfl, nofun⟩
  · rw [hp] at h
    exact getData_of_told (h rfl)

/-- `get_data` changes no more of the remote than the timings of a one. -/
theorem matchData_timings (hw : Hardware) (r : IrRemote) (bits done : ℕ) (b : RBuf) :
    ∃ p s, (matchData hw r bits done b).2.1 = { r with pone := p, sone := s } := by
  have hbits : ∀ (n : ℕ) (code : IrCode) (r' : IrRemote) (bit : ℕ) (b : RBuf),
      (∃ p s, r' = { r with pone := p, sone := s }) →
      ∃ p s, (readSymbols 1 (bitSymbol hw) n (r', bit) code b).2.1.1 =
        { r with pone := p, sone := s } := by
    intro n
    induction n with
    | zero => exact fun code r' bit b hr => hr
    | succ n ih =>
        rintro code r' bit b ⟨p, s, rfl⟩
        have hgold : ∃ p' s', goldstarTimings { r with pone := p, sone := s } bit =
            { r with pone := p', sone := s' } := by
          unfold goldstarTimings
          split
          · split
            · exact ⟨_, _, rfl⟩
            · exact ⟨_, _, rfl⟩
          · exact ⟨_, _, rfl⟩
        rw [readSymbols, bitSymbol]
        dsimp only
        generalize goldstarTimings { r with pone := p, sone := s } bit = r₁ at hgold
        rcases expectOne hw r₁ bit b with ⟨_ | _, b₁⟩
        · dsimp only
          rcases expectZero hw r₁ bit b₁ with ⟨_ | _, b₂⟩
          · exact hgold
          · exact ih _ _ _ _ hgold
        · exact ih _ _ _ _ hgold
  unfold matchData
  split
  · split
    · exact ⟨_, _, rfl⟩
    · rcases syncPendingSpace hw r b with ⟨_ | _, b'⟩
      · exact ⟨_, _, rfl⟩
      · exact ⟨_, _, rfl⟩
  split
  · split
    · exact ⟨_, _, rfl⟩
    · rcases syncPendingPulse hw r b with ⟨_ | _, b'⟩
      · exact ⟨_, _, rfl⟩
      · exact ⟨_, _, rfl⟩
  split
  · exact ⟨_, _, rfl⟩
  split
  · exact ⟨_, _, rfl⟩
  split
  · split
    · exact ⟨_, _, rfl⟩
    · rcases syncPendingSpace hw r b with ⟨_ | _, b'⟩
      · exact ⟨_, _, rfl⟩
      · exact ⟨_, _, rfl⟩
  · exact hbits bits 0 r done b ⟨r.pone, r.sone, rfl⟩

theorem getData_timings (hw : Hardware) (r : IrRemote) (bits done : ℕ) (b : RBuf) :
    ∃ p s, (getData hw r bits done b).2.1 = { r with pone := p, sone := s } := by
  rw [getData_eq_matchData]
  exact matchData_timings hw r bits done b

theorem getPre_timings (hw : Hardware) (r : IrRemote) (b : RBuf) :
    ∃ p s, (getPre hw r b).2.1 = { r with pone := p, sone := s } := by
  have hdata := getData_timings hw r r.preDataBits 0 b
  unfold getPre
  generalize getData hw r r.preDataBits 0 b = x at hdata ⊢
  rcases x with ⟨pre, r', b'⟩
  dsimp only at hdata ⊢
  split
  · exact hdata
  · split
    · rcases expectPulse hw r' b' r'.preP with ⟨_ | _, b₁⟩
      · exact hdata
      · exact hdata
    · exact hdata

theorem getPost_timings (hw : Hardware) (r : IrRemote) (b : RBuf) :
    ∃ p s, (getPost hw r b).2.1 = { r with pone := p, sone := s } := by
  rw [getPost_eq]
  split
  · exact ⟨_, _, rfl⟩
  · exact getData_timings hw r _ _ _

theorem hasPre_getPre (hw : Hardware) (r : IrRemote) (b : RBuf) :
    hasPre (getPre hw r b).2.1 = hasPre r := by
  obtain ⟨p, s, hr⟩ := getPre_timings hw r b
  rw [hr]
  rfl

theorem hasPost_getPost (hw : Hardware) (r : IrRemote) (b : RBuf) :
    hasPost (getPost hw r b).2.1 = hasPost r := by
  obtain ⟨p, s, hr⟩ := getPost_timings hw r b
  rw [hr]
  rfl

/-- `receive_decode` from the post data on. -/
def decodePost (hw : Hardware) (header : Bool) (pre code : IrCode) (r : IrRemote) (b : RBuf) :
    Option (IrCode × IrCode × IrCode) × IrRemote × RBuf :=
  let (post, r, b) := if hasPost r then getPost hw r b else (0, r, b)
  if hasPost r ∧ post = noCode then (none, r, b)
  else
    let (ok, b) := closeSignal hw r header b
    if ok then (some (pre, code, post), r, b) else (none, r, b)

/-- `receive_decode` from the code on. -/
def decodeCode (hw : Hardware) (header : Bool) (pre : IrCode) (r : IrRemote) (b : RBuf) :
    Option (IrCode × IrCode × IrCode) × IrRemote × RBuf :=
  let (code, r, b) := getData hw r r.bits r.preDataBits b
  if code = noCode then (none, r, b) else decodePost hw header pre code r b

theorem decodeBits_eq (r : IrRemote) (header : Bool) (b : RBuf) :
    decodeBits hw r header b =
      if !(getLead hw r b).1 then (none, r, (getLead hw r b).2)
      else
        let (pre, r, b) :=
          if hasPre r then getPre hw r (getLead hw r b).2 else (0, r, (getLead hw r b).2)
        if hasPre r ∧ pre = noCode then (none, r, b) else decodeCode hw header pre r b := by
  unfold decodeBits decodeCode decodePost closeSignal
  rcases getLead hw r b with ⟨_ | _, b₁⟩
  · rfl
  simp -zeta only [Bool.not_true, Bool.false_eq_true, if_false]
  generalize (if hasPre r = true then getPre hw r b₁ else (0, r, b₁)) = x
  rcases x with ⟨pre, r₁, b₂⟩
  dsimp -zeta only
  by_cases hpre : hasPre r₁ = true ∧ pre = noCode
  · simp -zeta only [if_pos hpre]
  simp -zeta only [if_neg hpre]
  rcases getData hw r₁ r₁.bits r₁.preDataBits b₂ with ⟨code, r₂, b₃⟩
  dsimp -zeta only
  by_cases hcode : code = noCode
  · simp -zeta only [if_pos hcode]
  simp -zeta only [if_neg hcode]
  generalize (if hasPost r₂ = true then getPost hw r₂ b₃ else (0, r₂, b₃)) = y
  rcases y with ⟨post, r₃, b₄⟩
  dsimp -zeta only
  by_cases hpost : hasPost r₃ = true ∧ post = noCode
  · simp -zeta only [if_pos hpost]
  simp -zeta only [if_neg hpost]
  rcases getTrail hw r₃ b₄ with ⟨_ | _, b₅⟩
  · rfl
  simp -zeta only [Bool.not_true, Bool.false_eq_true, if_false]
  rcases (if hasFoot r₃ = true then getFoot hw r₃ b₅ else (true, b₅)) with ⟨_ | _, b₆⟩
  · rfl
  · rfl

theorem decodePost_eq {header : Bool} {pre code : IrCode} {r : IrRemote} {b : RBuf}
    (h : ∀ c ∈ postCalls hw r b, c.Told hw) :
    decodePost hw header pre code r b = matchFromPost hw header pre code r b := by
  unfold decodePost matchFromPost
  by_cases hp : hasPost r = true
  · obtain ⟨heq, hones⟩ := getPost_of_told (r := r) (b := b) fun hpause =>
      h ⟨r, r.postDataBits, r.preDataBits + r.bits, (postSeparator hw r b).2⟩ (by
        simp [postCalls, hp, hpause])
    have hp' := (hasPost_getPost hw r b).trans hp
    rw [if_pos hp, if_pos hp, heq]
    rw [heq] at hp'
    generalize matchPost hw r b = x at hones hp' ⊢
    rcases x with ⟨_ | post, r', b'⟩
    · simp only [hp', Option.getD_none, and_self, if_true]
    · have hne : post ≠ noCode := fun hpost => hones (congrArg some hpost)
      have hskip : ¬(hasPost r' = true ∧ post = noCode) := fun hpost => hne hpost.2
      simp only [Option.getD_some, if_neg hskip]
  · simp only [hp, Bool.false_eq_true, if_false, false_and]

theorem decodeCode_eq {header : Bool} {pre : IrCode} {r : IrRemote} {b : RBuf}
    (h : ∀ c ∈ codeCalls hw r b, c.Told hw) :
    decodeCode hw header pre r b = matchFromCode hw header pre r b := by
  unfold decodeCode matchFromCode
  unfold codeCalls at h
  obtain ⟨hcode, hrest⟩ := List.forall_mem_cons.mp h
  obtain ⟨heq, hones⟩ := getData_of_told hcode
  dsimp only at heq hones
  rw [heq] at hrest ⊢
  generalize matchData hw r r.bits r.preDataBits b = x at hones hrest ⊢
  rcases x with ⟨_ | code, r', b'⟩
  · simp only [Option.getD_none, if_true]
  · have hne : code ≠ noCode := fun hc => hones (congrArg some hc)
    simp only [Option.getD_some, if_neg hne] at hrest ⊢
    exact decodePost_eq hrest

theorem decodePre_eq {header : Bool} {r : IrRemote} {b : RBuf} (hp : hasPre r = true)
    (h : SegmentTold hw r r.preDataBits 0 b)
    (hrest : (getPre hw r b).1 ≠ noCode →
      ∀ c ∈ codeCalls hw (getPre hw r b).2.1 (getPre hw r b).2.2, c.Told hw) :
    (if hasPre (getPre hw r b).2.1 = true ∧ (getPre hw r b).1 = noCode then
        (none, (getPre hw r b).2.1, (getPre hw r b).2.2)
      else decodeCode hw header (getPre hw r b).1 (getPre hw r b).2.1 (getPre hw r b).2.2) =
      match matchPre hw r b with
      | (none, r, b) => (none, r, b)
      | (some pre, r, b) => matchFromCode hw header pre r b := by
  have hp' := (hasPre_getPre hw r b).trans hp
  obtain ⟨heq, hones⟩ := getPre_of_told h
  rw [heq] at hrest hp' ⊢
  generalize matchPre hw r b = x at hones hrest hp' ⊢
  rcases x with ⟨_ | pre, r', b'⟩
  · simp only [hp', Option.getD_none, and_self, if_true]
  · have hne : pre ≠ noCode := fun hc => hones (congrArg some hc)
    rw [if_neg fun hc => hne hc.2]
    exact decodeCode_eq (hrest hne)

/-- When every segment is reported unambiguously, `receive_decode` treats a
segment as failed exactly when the samples do not match it. -/
theorem decodeBits_eq_matchBits {r : IrRemote} {header : Bool} {b : RBuf}
    (h : ∀ c ∈ segmentCalls hw r b, c.Told hw) :
    decodeBits hw r header b = matchBits hw r header b := by
  rw [decodeBits_eq]
  unfold matchBits
  unfold segmentCalls at h
  generalize getLead hw r b = lead at h ⊢
  rcases lead with ⟨_ | _, b₁⟩
  · rfl
  simp only [Bool.not_true, Bool.false_eq_true, if_false, if_true] at h ⊢
  unfold preCalls at h
  by_cases hp : hasPre r = true
  · rw [if_pos hp] at h ⊢
    rw [if_pos hp]
    refine decodePre_eq hp (h ⟨r, r.preDataBits, 0, b₁⟩ List.mem_cons_self) fun hne c hc => ?_
    refine h c (List.mem_cons_of_mem _ ?_)
    dsimp only
    rw [if_neg hne]
    exact hc
  · rw [if_neg hp] at h ⊢
    rw [if_neg hp]
    simp only [hp, Bool.false_eq_true, if_false, false_and]
    exact decodeCode_eq h

/-- The segments of a signal are reported unambiguously exactly when they
are clear, and then `receive_decode` reads what the samples say. -/
theorem receiveDecode_segments (hw : Hardware) (r : IrRemote) (header : Bool) (b : RBuf) :
    ((∀ c ∈ segmentCalls hw r b, c.Told hw) ↔ ∀ c ∈ segmentCalls hw r b, c.Clear hw) ∧
      ((∀ c ∈ segmentCalls hw r b, c.Clear hw) →
        decodeBits hw r header b = matchBits hw r header b) ∧
      ∀ c ∈ segmentCalls hw r b, isSerial c.remote = false → ∀ v,
        (matchData hw c.remote c.bits c.done c.buf).1 = some v → v.toNat < 2 ^ c.bits := by
  have hiff : (∀ c ∈ segmentCalls hw r b, c.Told hw) ↔
      ∀ c ∈ segmentCalls hw r b, c.Clear hw :=
    forall₂_congr fun c _ => segmentTold_iff hw c.remote c.bits c.done c.buf
  exact ⟨hiff, fun h => decodeBits_eq_matchBits (hiff.mpr h),
    fun c _ hserial v hv => matchData_lt hw c.remote hserial hv⟩

/-- An XMP remote with a header. -/
def xmpRemote : IrRemote :=
  { name := ['x'], flags := xmp, bits := 4, phead := 500, shead := 500, pzero := 200,
    szero := 700, sone := 100, gap := 20000, eps := 20, aeps := 50 }

/-- A header pulse alone, between two long spaces. -/
def xmpInput : RBuf := { input := [60000, pulseBit + 500, 60000] }

/-- The buffer when the data of that signal is read. -/
def xmpBuffer : RBuf :=
  { data := [60000, pulseBit + 500], input := [60000], rptr := 2, pendings := 500, sum := 500 }

/-- The header space does not match, and the segment is taken for the code 0. -/
theorem receiveDecode_not_segments :
    (receiveDecode mode2Hardware xmpRemote .null 0 xmpInput).1.map Decoded.code = some 0 ∧
      (decodeHeader mode2Hardware xmpRemote 60000
        (syncRecBuffer mode2Hardware xmpRemote .null xmpInput).2.2).2 = xmpBuffer ∧
      ¬∀ c ∈ segmentCalls mode2Hardware xmpRemote xmpBuffer, c.Told mode2Hardware := by
  refine ⟨by decide +kernel, by decide +kernel, fun h => ?_⟩
  have hcall := h ⟨xmpRemote, 4, 0, xmpBuffer⟩ (by
    have hlead : getLead mode2Hardware xmpRemote xmpBuffer = (true, xmpBuffer) := by decide +kernel
    have hpre : hasPre xmpRemote = false := by decide
    simp only [segmentCalls, hlead, preCalls, hpre, codeCalls, if_true, Bool.false_eq_true,
      if_false]
    exact List.mem_cons_self)
  have hclear := ((segmentTold_iff _ _ _ _ _).mp hcall).1
  exact absurd hclear (by decide +kernel)

end Signal

end Lirc
