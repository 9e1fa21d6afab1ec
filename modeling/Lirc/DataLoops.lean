import Lirc.Grundig
import Lirc.SerialLoop

/-!
The loops of `get_data` as they stand, without a bound on their rounds. All
but that of the serial decoder count the bits; they end with what the bounded
loops of the model give. A division by zero ends the program instead.
-/

namespace Lirc

open Loop

section

variable (hw : Hardware) (r : IrRemote) (bits : ℕ)

/-- `for (i = 0; i < bits; i += 2)` -/
def rcmmBody (x : ℕ × IrCode × RBuf) : ℕ × IrCode × RBuf ⊕ IrCode × RBuf :=
  let (i, code, b) := x
  if i < bits then
    let (deltap, b) := getNextPulse b (maxSymbolPulse r)
    let (deltas, b) := getNextSpace b (maxSymbolSpace r)
    if deltap = 0 ∨ deltas = 0 then .inr (noCode, b)
    else
      match matchSymbol hw r (deltap + deltas) with
      | none => .inr (noCode, b)
      | some s => .inl (i + 2, code <<< 2 ||| BitVec.ofNat 64 s, b)
  else .inr (code, b)

/-- `for (laststate = state = -1, i = 0; i < bits;)` -/
def grundigBody (x : ℕ × Option ℕ × IrCode × RBuf) :
    ℕ × Option ℕ × IrCode × RBuf ⊕ IrCode × RBuf :=
  let (i, laststate, code, b) := x
  if i < bits then
    let (deltas, b) := getNextSpace b (maxSymbolSpace r)
    let (deltap, b) := getNextPulse b (maxSymbolPulse r)
    if deltas = 0 ∨ deltap = 0 then .inr (noCode, b)
    else
      match matchSymbol hw r (deltas + deltap) with
      | none => .inr (noCode, b)
      | some state =>
          match grundigBits laststate state with
          | some two => .inl (i + 2, none, code <<< 2 ||| two, b)
          | none =>
              if laststate.isNone then .inl (i, some state, code, b) else .inr (noCode, b)
  else .inr (code, b)

/-- `for (i = 0; i < bits; i++)` of a B&O remote -/
def boBody (x : ℕ × Bool × IrCode × RBuf) : ℕ × Bool × IrCode × RBuf ⊕ IrCode × RBuf :=
  let (i, lastbit, code, b) := x
  if i < bits then
    let (deltap, b) := getNextPulse b (maxSymbolPulse r)
    let (deltas, b) := getNextSpace b (maxSymbolSpace r)
    if deltap = 0 ∨ deltas = 0 then .inr (noCode, b)
    else
      let (pzero, szero, pone, sone) :=
        if lastbit then (r.pone, r.sone, r.ptwo, r.stwo)
        else (r.ptwo, r.stwo, r.pthree, r.sthree)
      if expect hw r deltap pzero && expect hw r deltas szero then
        .inl (i + 1, false, code <<< 1, b)
      else if expect hw r deltap pone && expect hw r deltas sone then
        .inl (i + 1, true, code <<< 1 ||| 1, b)
      else .inr (noCode, b)
  else .inr (code, b)

/-- `for (i = 0; i < bits; i += 4)`; there is no result of a division by zero. -/
def xmpBody (x : ℕ × IrCode × RBuf) : ℕ × IrCode × RBuf ⊕ Option (IrCode × RBuf) :=
  let (i, code, b) := x
  if i < bits then
    let (deltap, b) := getNextPulse b r.pzero
    let (deltas, b) := getNextSpace b (r.szero + 16 * r.sone)
    if deltap = 0 ∨ deltas = 0 then .inr (some (noCode, b))
    else if r.sone = 0 then .inr none
    else
      let sum := deltap + deltas - (r.pzero + r.szero)
      let q := (sum + r.sone.tdiv 2).tdiv r.sone
      if q < 0 ∨ 16 ≤ q then .inr (some (noCode, b))
      else .inl (i + 4, code <<< 4 ||| BitVec.ofInt 64 q, b)
  else .inr (some (code, b))

/-- The loop over the single bits. -/
def bitBody (done : ℕ) (x : ℕ × IrCode × IrRemote × RBuf) :
    ℕ × IrCode × IrRemote × RBuf ⊕ IrCode × IrRemote × RBuf :=
  let (i, code, r, b) := x
  if i < bits then
    let code := code <<< 1
    let r := goldstarTimings r (done + i)
    match expectOne hw r (done + i) b with
    | (true, b) => .inl (i + 1, code ||| 1, r, b)
    | (false, b) =>
        match expectZero hw r (done + i) b with
        | (true, b) => .inl (i + 1, code, r, b)
        | (false, b) => .inr (noCode, r, b)
  else .inr (code, r, b)

end

section

variable {hw : Hardware} {r : IrRemote} {bits : ℕ} {b : RBuf}

theorem runFor_rcmmBody {i n : ℕ} (hbits : bits = i + 2 * n) (code : IrCode) (b : RBuf) :
    runFor (rcmmBody hw r bits) (n + 1) (i, code, b) = some (getRcmmLoop hw r n code b) := by
  induction n generalizing i code b with
  | zero =>
      rw [runFor, rcmmBody]
      dsimp only
      rw [if_neg (by omega)]
      rfl
  | succ n ih =>
      rw [runFor, rcmmBody, getRcmmLoop]
      dsimp only
      rw [if_pos (by omega)]
      obtain ⟨deltap, b⟩ := getNextPulse b (maxSymbolPulse r)
      obtain ⟨deltas, b⟩ := getNextSpace b (maxSymbolSpace r)
      dsimp only
      by_cases hnone : deltap = 0 ∨ deltas = 0
      · rw [if_pos hnone, if_pos hnone]
      · rw [if_neg hnone, if_neg hnone]
        cases matchSymbol hw r (deltap + deltas) with
        | none => rfl
        | some s => exact ih (by omega) _ _

theorem runFor_boBody {i n : ℕ} (hbits : bits = i + n) (lastbit : Bool) (code : IrCode)
    (b : RBuf) :
    runFor (boBody hw r bits) (n + 1) (i, lastbit, code, b) =
      some (getBoLoop hw r n lastbit code b) := by
  induction n generalizing i lastbit code b with
  | zero =>
      rw [runFor, boBody]
      dsimp only
      rw [if_neg (by omega)]
      rfl
  | succ n ih =>
      rw [runFor, boBody, getBoLoop]
      dsimp only
      rw [if_pos (by omega)]
      obtain ⟨deltap, b⟩ := getNextPulse b (maxSymbolPulse r)
      obtain ⟨deltas, b⟩ := getNextSpace b (maxSymbolSpace r)
      obtain ⟨pzero, szero, pone, sone⟩ :=
        if lastbit then (r.pone, r.sone, r.ptwo, r.stwo)
        else (r.ptwo, r.stwo, r.pthree, r.sthree)
      dsimp only
      by_cases hnone : deltap = 0 ∨ deltas = 0
      · rw [if_pos hnone, if_pos hnone]
      · rw [if_neg hnone, if_neg hnone]
        cases expect hw r deltap pzero && expect hw r deltas szero with
        | true => exact ih (by omega) _ _ _
        | false =>
            cases expect hw r deltap pone && expect hw r deltas sone with
            | true => exact ih (by omega) _ _ _
            | false => rfl

theorem runFor_bitBody {i n done : ℕ} (hbits : bits = i + n) (code : IrCode) (r : IrRemote)
    (b : RBuf) :
    runFor (bitBody hw bits done) (n + 1) (i, code, r, b) =
      some (getBitLoop hw n (done + i) code r b) := by
  induction n generalizing i code r b with
  | zero =>
      rw [runFor, bitBody]
      dsimp only
      rw [if_neg (by omega)]
      rfl
  | succ n ih =>
      rw [runFor, bitBody, getBitLoop]
      dsimp only
      rw [if_pos (by omega)]
      obtain ⟨one, b₁⟩ := expectOne hw (goldstarTimings r (done + i)) (done + i) b
      cases one with
      | true => exact ih (by omega) _ _ _
      | false =>
          dsimp only
          obtain ⟨zero, b₂⟩ := expectZero hw (goldstarTimings r (done + i)) (done + i) b₁
          cases zero with
          | true => exact ih (by omega) _ _ _
          | false => rfl

/-- Two bits take at most two rounds. -/
theorem runFor_grundigBody {i n m : ℕ} {laststate : Option ℕ} (hbits : bits = i + 2 * m)
    (hn : 2 * m ≤ n + laststate.toList.length) (hlast : laststate.isSome → 0 < m)
    (code : IrCode) (b : RBuf) :
    runFor (grundigBody hw r bits) (n + 1) (i, laststate, code, b) =
      some (getGrundigLoop hw r bits n i laststate code b) := by
  induction n generalizing i m laststate code b with
  | zero =>
      have hlen : laststate.toList.length ≤ 1 := by cases laststate <;> simp
      rw [runFor, grundigBody]
      dsimp only
      rw [if_neg (by omega)]
      rfl
  | succ n ih =>
      rw [runFor, grundigBody, getGrundigLoop]
      dsimp only
      by_cases hgo : i < bits
      · rw [if_pos hgo, if_pos hgo]
        obtain ⟨deltas, b⟩ := getNextSpace b (maxSymbolSpace r)
        obtain ⟨deltap, b⟩ := getNextPulse b (maxSymbolPulse r)
        dsimp only
        by_cases hnone : deltas = 0 ∨ deltap = 0
        · rw [if_pos hnone, if_pos hnone]
        · rw [if_neg hnone, if_neg hnone]
          cases matchSymbol hw r (deltas + deltap) with
          | none => rfl
          | some state =>
              dsimp only
              cases grundigBits laststate state with
              | some two =>
                  have hlen : laststate.toList.length ≤ 1 := by cases laststate <;> simp
                  exact @ih (i + 2) (m - 1) none (by omega)
                    (by rw [Option.toList_none, List.length_nil]; omega) (by rintro ⟨⟩) _ _
              | none =>
                  cases laststate with
                  | none => exact @ih i m (some state) hbits (by simpa using hn) (fun _ => by omega) _ _
                  | some s => rfl
      · rw [if_neg hgo, if_neg hgo]

/-- The first nibble of an XMP signal is read, and divided. -/
def XmpDivides (r : IrRemote) (bits : ℕ) (b : RBuf) : Prop :=
  0 < bits ∧ (getNextPulse b r.pzero).1 ≠ 0 ∧
    (getNextSpace (getNextPulse b r.pzero).2 (r.szero + 16 * r.sone)).1 ≠ 0

instance : Decidable (XmpDivides r bits b) := inferInstanceAs (Decidable (_ ∧ _))

theorem runFor_xmpBody (hsone : r.sone ≠ 0) {i n : ℕ} (hbits : bits = i + 4 * n) (code : IrCode)
    (b : RBuf) :
    runFor (xmpBody r bits) (n + 1) (i, code, b) = some (some (getXmpLoop r n code b)) := by
  induction n generalizing i code b with
  | zero =>
      rw [runFor, xmpBody]
      dsimp only
      rw [if_neg (by omega)]
      rfl
  | succ n ih =>
      rw [runFor, xmpBody, getXmpLoop]
      dsimp only
      rw [if_pos (by omega)]
      obtain ⟨deltap, b⟩ := getNextPulse b r.pzero
      obtain ⟨deltas, b⟩ := getNextSpace b (r.szero + 16 * r.sone)
      dsimp only
      by_cases hnone : deltap = 0 ∨ deltas = 0
      · rw [if_pos hnone, if_pos hnone]
      · rw [if_neg hnone, if_neg hnone, if_neg hsone]
        by_cases hq : ((deltap + deltas - (r.pzero + r.szero) + r.sone.tdiv 2).tdiv r.sone) < 0 ∨
            16 ≤ (deltap + deltas - (r.pzero + r.szero) + r.sone.tdiv 2).tdiv r.sone
        · rw [if_pos hq, if_pos hq]
        · rw [if_neg hq, if_neg hq]
          exact ih (by omega) _ _

/-- Without a unit for the spaces nothing comes of the loop once it has read a nibble. -/
theorem xmpBody_returns (hbits : bits % 4 = 0) (b : RBuf) (out : Option (IrCode × RBuf)) :
    Returns (xmpBody r bits) (0, 0, b) out ↔
      if r.sone = 0 ∧ XmpDivides r bits b then out = none
      else out = some (getXmpLoop r (bits / 4) 0 b) := by
  have hreturns : Returns (xmpBody r bits) (0, 0, b)
      (if r.sone = 0 ∧ XmpDivides r bits b then none
        else some (getXmpLoop r (bits / 4) 0 b)) := by
    by_cases hsone : r.sone = 0
    · refine ⟨1, ?_⟩
      rw [runFor, xmpBody]
      dsimp only
      by_cases hpos : 0 < bits
      · have hnext : bits / 4 = (bits / 4 - 1) + 1 := by omega
        rw [if_pos hpos, hnext, getXmpLoop]
        by_cases hnone : (getNextPulse b r.pzero).1 = 0 ∨
            (getNextSpace (getNextPulse b r.pzero).2 (r.szero + 16 * r.sone)).1 = 0
        · rw [if_pos hnone, if_neg fun h => hnone.elim h.2.2.1 h.2.2.2]
          dsimp only
          rw [if_pos hnone]
        · rw [if_neg hnone, if_pos hsone, if_pos ⟨hsone, hpos, not_or.mp hnone⟩]
      · have hzero : bits / 4 = 0 := by omega
        rw [if_neg hpos, hzero, getXmpLoop, if_neg fun h => hpos h.2.1]
    · refine ⟨bits / 4 + 1, ?_⟩
      rw [if_neg fun h => hsone h.1]
      exact runFor_xmpBody hsone (by omega) 0 b
  constructor
  · intro h
    rw [h.unique hreturns]
    split <;> rfl
  · intro h
    split at h
    · next hdivides => rw [h]; rwa [if_pos hdivides] at hreturns
    · next hnot => rw [h]; rwa [if_neg hnot] at hreturns

end

/-! ### The serial decoder -/

section

variable (hw : Hardware) (r : IrRemote)

def serialMaxSpace : ℤ :=
  r.sone * r.bitsInByte + stopTime r + (if r.parity = .none then 0 else r.sone)

def serialMaxPulse : ℤ :=
  r.pzero * (1 + r.bitsInByte) + (if r.parity = .none then 0 else r.pzero)

/-- The bits of a segment with their parity bits. -/
def serialTotal (bits : ℕ) : ℕ :=
  if r.parity = .none then bits else bits + bits / r.bitsInByte

def serialStart : SerialState :=
  { received := 0, space := bitTime r == 0, stopBit := false, parity := false, delta := 0,
    origdelta := 0, gapDelta := 0, code := 0 }

/-- The loop of the serial decoder for a segment of so many bits. -/
def serialDataBody (bits : ℕ) : SerialState × RBuf → SerialState × RBuf ⊕ IrCode × RBuf :=
  serialBody hw r (serialTotal r bits) (parityBits r) (bitTime r) (stopTime r) (serialMaxSpace r)
    (serialMaxPulse r)

/-- The state that the loop starts in. -/
def serialStartState (b : RBuf) : SerialState × RBuf :=
  (serialStart r, { b with pendingp := bitTime r })

/-- The loop never awaits the stop bit on a level whose bits take no time. -/
def NeverStalled (bits : ℕ) (b : RBuf) : Prop :=
  ∀ x, Reaches (serialDataBody hw r bits) (serialStartState r b) x →
    ¬Stalled hw r (parityBits r) (stopTime r) x

end

section

variable {hw : Hardware} {r : IrRemote} {bits : ℕ} {b : RBuf}

theorem bitTime_nonneg (r : IrRemote) : 0 ≤ bitTime r := Int.natCast_nonneg _

theorem stopTime_nonneg (r : IrRemote) : 0 ≤ stopTime r :=
  Int.tdiv_nonneg (Int.mul_nonneg (bitTime_nonneg r) (Int.natCast_nonneg _)) (by decide)

theorem serialDataBody_pendingNonneg (x x' : SerialState × RBuf) (hx : PendingNonneg x.2)
    (h : serialDataBody hw r bits x = .inl x') : PendingNonneg x'.2 := by
  obtain ⟨-, s₁, b₁, hload, hsome, htake⟩ := serialBody_inl h
  refine htake.pendingNonneg (bitTime_nonneg r) (stopTime_nonneg r) ?_
  by_cases hzero : x.1.delta = 0
  · obtain ⟨-, hp, hs, -⟩ := serialLoad_spec 0 hzero hload hsome
    exact ⟨by rw [hp]; exact hx.1, by rw [hs]; exact hx.2⟩
  · rw [serialLoad, if_neg hzero] at hload
    obtain ⟨-, rfl⟩ := Prod.mk.inj hload
    exact hx

/-- Unless it gets stuck, the bounded loop gives what the loop gives. -/
theorem getSerial_returns (hbyte : 0 < r.bitsInByte) (hb : 0 ≤ b.pendings)
    (hfree : NeverStalled hw r bits b) :
    Returns (serialDataBody hw r bits) (serialStartState r b) (getSerial hw r bits b) := by
  have hpos : 0 < byteBits r (parityBits r) := Nat.add_pos_left hbyte _
  have hstart : PendingNonneg (serialStartState r b).2 := ⟨bitTime_nonneg r, hb⟩
  obtain ⟨out, hout⟩ := @runFor_of_no_trap _ _ (serialDataBody hw r bits) (serialStartState r b)
    (Stalled hw r (parityBits r) (stopTime r)) (fun x => PendingNonneg x.2)
    (serialRank r (parityBits r) (serialMaxSpace r)) serialDataBody_pendingNonneg
    (fun x x' hx hnot h => serialRank_lt hpos (stopTime_nonneg r) hx hnot h) hstart hfree
  have hle : serialRank r (parityBits r) (serialMaxSpace r) (serialStartState r b) + 1 ≤
      serialFuel (serialTotal r bits) (r.bitsInByte + parityBits r) (serialMaxSpace r) b := by
    have hcost : serialCost (byteBits r (parityBits r)) (serialMaxSpace r) =
        (serialMaxSpace r).natAbs + 8 * byteBits r (parityBits r) + 16 := rfl
    have hspaceRank : spaceRank r (parityBits r) (serialMaxSpace r) =
        (serialMaxSpace r).natAbs + 4 * byteBits r (parityBits r) + 6 := rfl
    have hweight : (serialStartState r b).2.weight
        (serialCost (byteBits r (parityBits r)) (serialMaxSpace r)) =
        (b.unread.map (· + serialCost (r.bitsInByte + parityBits r) (serialMaxSpace r))).sum := rfl
    have hwidth : serialCost (r.bitsInByte + parityBits r) (serialMaxSpace r) =
      serialCost (byteBits r (parityBits r)) (serialMaxSpace r) := rfl
    have hdelta : (serialStartState r b).1.delta = 0 := rfl
    rw [serialRank, serialFuel, hweight, if_pos hdelta]
    split <;> omega
  have hfuel := runFor_mono hout hle
  have hget : getSerial hw r bits b = out := getSerialLoop_of_runFor hfuel
  rw [hget]
  exact ⟨_, hfuel⟩

/-- The loop of the serial decoder ends unless it gets stuck. -/
theorem serialDataBody_ends_iff (hbyte : 0 < r.bitsInByte) (hb : 0 ≤ b.pendings) :
    Ends (serialDataBody hw r bits) (serialStartState r b) ↔ NeverStalled hw r bits b := by
  have hpos : 0 < byteBits r (parityBits r) := Nat.add_pos_left hbyte _
  have hstart : PendingNonneg (serialStartState r b).2 := ⟨bitTime_nonneg r, hb⟩
  exact @ends_iff_no_trap _ _ (serialDataBody hw r bits) (serialStartState r b)
    (Stalled hw r (parityBits r) (stopTime r)) (fun x => PendingNonneg x.2)
    (serialRank r (parityBits r) (serialMaxSpace r)) serialDataBody_pendingNonneg
    (fun x hx => hx.round hpos)
    (fun x x' hx hnot h => serialRank_lt hpos (stopTime_nonneg r) hx hnot h) hstart

end

/-! ### `get_data` -/

section

variable (hw : Hardware) (r : IrRemote) (bits done : ℕ) (b : RBuf)

/-- `get_data` with its loops: it ends with this code, which may be a failure. -/
def GetDataReturns (out : IrCode × IrRemote × RBuf) : Prop :=
  if isRcmm r then
    if bits % 2 ≠ 0 ∨ done % 2 ≠ 0 then out = (noCode, r, b)
    else
      let (ok, b) := syncPendingSpace hw r b
      if !ok then out = (0, r, b)
      else ∃ code b', Returns (rcmmBody hw r bits) (0, 0, b) (code, b') ∧ out = (code, r, b')
  else if isGrundig r then
    if bits % 2 ≠ 0 ∨ done % 2 ≠ 0 then out = (noCode, r, b)
    else
      let (ok, b) := syncPendingPulse hw r b
      if !ok then out = (noCode, r, b)
      else
        ∃ code b', Returns (grundigBody hw r bits) (0, none, 0, b) (code, b') ∧
          out = (code, r, b')
  else if isSerial r then
    r.baud ≠ 0 ∧
      ∃ code b', Returns (serialDataBody hw r bits) (serialStartState r b) (code, b') ∧
        out = (code, r, b')
  else if isBo r then
    ∃ code b', Returns (boBody hw r bits) (0, true, 0, b) (code, b') ∧ out = (code, r, b')
  else if isXmp r then
    if bits % 4 ≠ 0 ∨ done % 4 ≠ 0 then out = (noCode, r, b)
    else
      let (ok, b) := syncPendingSpace hw r b
      if !ok then out = (0, r, b)
      else
        ∃ code b', Returns (xmpBody r bits) (0, 0, b) (some (code, b')) ∧ out = (code, r, b')
  else Returns (bitBody hw bits done) (0, 0, r, b) out

/-- The serial decoder has a baud rate and does not get stuck, and no space of an XMP
signal is divided by a unit of zero. -/
def DataLoopsEnd : Prop :=
  (isSerial r = true → r.baud ≠ 0 ∧ NeverStalled hw r bits b) ∧
    (isXmp r = true → r.sone = 0 → bits % 4 = 0 → done % 4 = 0 →
      (syncPendingSpace hw r b).1 = true → ¬XmpDivides r bits (syncPendingSpace hw r b).2)

end

section

variable {hw : Hardware} {r : IrRemote} {bits done : ℕ} {b : RBuf} {out : IrCode × IrRemote × RBuf}

theorem returns_pair_iff {σ : Type*} {body : σ → σ ⊕ IrCode × RBuf} {s : σ}
    {result : IrCode × RBuf} (h : Returns body s result) :
    (∃ code b', Returns body s (code, b') ∧ out = (code, r, b')) ↔
      out = (result.1, r, result.2) := by
  constructor
  · rintro ⟨code, b', h', rfl⟩
    rw [h.unique h']
  · intro hout
    exact ⟨_, _, h, hout⟩

theorem dataLoopsEnd_of_other (hserial : isSerial r = false) (hxmp : isXmp r = false) :
    DataLoopsEnd hw r bits done b :=
  ⟨fun h => absurd h (ne_true_of_eq_false hserial), fun h => absurd h (ne_true_of_eq_false hxmp)⟩

theorem getDataReturns_rcmm (hrcmm : isRcmm r = true) :
    GetDataReturns hw r bits done b out ↔ out = getData hw r bits done b := by
  rw [GetDataReturns, getData, if_pos hrcmm, if_pos hrcmm]
  by_cases hbits : bits % 2 ≠ 0 ∨ done % 2 ≠ 0
  · rw [if_pos hbits, if_pos hbits]
  · rw [if_neg hbits, if_neg hbits]
    obtain ⟨ok, b⟩ := syncPendingSpace hw r b
    cases ok with
    | false => rfl
    | true => exact returns_pair_iff ⟨_, runFor_rcmmBody (by omega) 0 b⟩

theorem getDataReturns_grundig (hgrundig : isGrundig r = true) :
    GetDataReturns hw r bits done b out ↔ out = getData hw r bits done b := by
  have hrcmm : ¬isRcmm r = true := ne_true_of_eq_false (protocolIs_unique hgrundig (by decide))
  rw [GetDataReturns, getData, if_neg hrcmm, if_neg hrcmm, if_pos hgrundig, if_pos hgrundig]
  by_cases hbits : bits % 2 ≠ 0 ∨ done % 2 ≠ 0
  · rw [if_pos hbits, if_pos hbits]
  · rw [if_neg hbits, if_neg hbits]
    obtain ⟨ok, b⟩ := syncPendingPulse hw r b
    cases ok with
    | false => rfl
    | true =>
        have hreturns : Returns (grundigBody hw r bits) (0, none, 0, b)
            (getGrundigLoop hw r bits bits 0 none 0 b) :=
          ⟨_, @runFor_grundigBody hw r bits 0 bits (bits / 2) none (by omega)
            (by rw [Option.toList_none, List.length_nil]; omega) (by rintro ⟨⟩) 0 b⟩
        exact returns_pair_iff hreturns

theorem getDataReturns_serial (hserial : isSerial r = true) (hbyte : 0 < r.bitsInByte)
    (hb : 0 ≤ b.pendings) :
    GetDataReturns hw r bits done b out ↔
      out = getData hw r bits done b ∧ r.baud ≠ 0 ∧ NeverStalled hw r bits b := by
  have hrcmm : ¬isRcmm r = true := ne_true_of_eq_false (protocolIs_unique hserial (by decide))
  have hgrundig : ¬isGrundig r = true := ne_true_of_eq_false (protocolIs_unique hserial (by decide))
  rw [GetDataReturns, getData, if_neg hrcmm, if_neg hrcmm, if_neg hgrundig, if_neg hgrundig,
    if_pos hserial, if_pos hserial]
  by_cases hfree : NeverStalled hw r bits b
  · rw [returns_pair_iff (getSerial_returns hbyte hb hfree)]
    exact ⟨fun h => ⟨h.2, h.1, hfree⟩, fun h => ⟨h.2.1, h.1⟩⟩
  · constructor
    · rintro ⟨-, code, b', hreturns, -⟩
      exact absurd ((serialDataBody_ends_iff hbyte hb).mp ⟨_, hreturns⟩) hfree
    · rintro ⟨-, -, h⟩
      exact absurd h hfree

theorem getDataReturns_bo (hbo : isBo r = true) :
    GetDataReturns hw r bits done b out ↔ out = getData hw r bits done b := by
  have hrcmm : ¬isRcmm r = true := ne_true_of_eq_false (protocolIs_unique hbo (by decide))
  have hgrundig : ¬isGrundig r = true := ne_true_of_eq_false (protocolIs_unique hbo (by decide))
  have hserial : ¬isSerial r = true := ne_true_of_eq_false (protocolIs_unique hbo (by decide))
  rw [GetDataReturns, getData, if_neg hrcmm, if_neg hrcmm, if_neg hgrundig, if_neg hgrundig,
    if_neg hserial, if_neg hserial, if_pos hbo, if_pos hbo]
  exact returns_pair_iff ⟨_, runFor_boBody (by omega) true 0 b⟩

theorem getDataReturns_xmp (hxmp : isXmp r = true) :
    GetDataReturns hw r bits done b out ↔
      out = getData hw r bits done b ∧
        (r.sone = 0 → bits % 4 = 0 → done % 4 = 0 → (syncPendingSpace hw r b).1 = true →
          ¬XmpDivides r bits (syncPendingSpace hw r b).2) := by
  have hrcmm : ¬isRcmm r = true := ne_true_of_eq_false (protocolIs_unique hxmp (by decide))
  have hgrundig : ¬isGrundig r = true := ne_true_of_eq_false (protocolIs_unique hxmp (by decide))
  have hserial : ¬isSerial r = true := ne_true_of_eq_false (protocolIs_unique hxmp (by decide))
  have hbo : ¬isBo r = true := ne_true_of_eq_false (protocolIs_unique hxmp (by decide))
  rw [GetDataReturns, getData, if_neg hrcmm, if_neg hrcmm, if_neg hgrundig, if_neg hgrundig,
    if_neg hserial, if_neg hserial, if_neg hbo, if_neg hbo, if_pos hxmp, if_pos hxmp]
  by_cases hbits : bits % 4 ≠ 0 ∨ done % 4 ≠ 0
  · rw [if_pos hbits, if_pos hbits, and_iff_left fun _ h₁ h₂ => by omega]
  · rw [if_neg hbits, if_neg hbits]
    obtain ⟨ok, b⟩ := syncPendingSpace hw r b
    cases ok with
    | false => exact (and_iff_left fun _ _ _ h => absurd h Bool.false_ne_true).symm
    | true =>
        have hfour : bits % 4 = 0 := by omega
        have hdone : done % 4 = 0 := by omega
        show (∃ code b', Returns (xmpBody r bits) (0, 0, b) (some (code, b')) ∧
            out = (code, r, b')) ↔
          out = ((getXmpLoop r (bits / 4) 0 b).1, r, (getXmpLoop r (bits / 4) 0 b).2) ∧
            (r.sone = 0 → bits % 4 = 0 → done % 4 = 0 → true = true → ¬XmpDivides r bits b)
        simp only [xmpBody_returns hfour]
        by_cases hdivides : r.sone = 0 ∧ XmpDivides r bits b
        · constructor
          · rintro ⟨code, b', h, -⟩
            rw [if_pos hdivides] at h
            cases h
          · rintro ⟨-, h⟩
            exact absurd hdivides.2 (h hdivides.1 hfour hdone trivial)
        · rw [and_iff_left fun h₀ _ _ _ hdiv => hdivides ⟨h₀, hdiv⟩]
          constructor
          · rintro ⟨code, b', h, rfl⟩
            rw [if_neg hdivides] at h
            rw [← Option.some.inj h]
          · intro hout
            exact ⟨_, _, if_neg hdivides ▸ rfl, hout⟩

theorem getDataReturns_bits (hrcmm : ¬isRcmm r = true) (hgrundig : ¬isGrundig r = true)
    (hserial : ¬isSerial r = true) (hbo : ¬isBo r = true) (hxmp : ¬isXmp r = true) :
    GetDataReturns hw r bits done b out ↔ out = getData hw r bits done b := by
  rw [GetDataReturns, getData, if_neg hrcmm, if_neg hrcmm, if_neg hgrundig, if_neg hgrundig,
    if_neg hserial, if_neg hserial, if_neg hbo, if_neg hbo, if_neg hxmp, if_neg hxmp]
  have hreturns : Returns (bitBody hw bits done) (0, 0, r, b) (getBitLoop hw bits done 0 r b) :=
    ⟨_, runFor_bitBody (by omega) 0 r b⟩
  constructor
  · intro h
    exact h.unique hreturns
  · rintro rfl
    exact hreturns

/-- The loops end with what the model gives, when they end. -/
theorem getDataReturns_iff (hbyte : isSerial r = true → 0 < r.bitsInByte)
    (hb : 0 ≤ b.pendings) :
    GetDataReturns hw r bits done b out ↔
      out = getData hw r bits done b ∧ DataLoopsEnd hw r bits done b := by
  have hother : isSerial r = false → isXmp r = false →
      (out = getData hw r bits done b ∧ DataLoopsEnd hw r bits done b ↔
        out = getData hw r bits done b) := fun hserial hxmp =>
    and_iff_left (dataLoopsEnd_of_other hserial hxmp)
  by_cases hrcmm : isRcmm r = true
  · rw [hother (protocolIs_unique hrcmm (by decide)) (protocolIs_unique hrcmm (by decide)),
      getDataReturns_rcmm hrcmm]
  · by_cases hgrundig : isGrundig r = true
    · rw [hother (protocolIs_unique hgrundig (by decide)) (protocolIs_unique hgrundig (by decide)),
        getDataReturns_grundig hgrundig]
    · by_cases hserial : isSerial r = true
      · have hxmp : isXmp r = false := protocolIs_unique hserial (by decide)
        rw [getDataReturns_serial hserial (hbyte hserial) hb, DataLoopsEnd]
        simp only [hserial, hxmp, true_implies, Bool.false_eq_true, false_implies, and_true]
      · by_cases hbo : isBo r = true
        · rw [hother (Bool.eq_false_iff.mpr hserial) (protocolIs_unique hbo (by decide)),
            getDataReturns_bo hbo]
        · by_cases hxmp : isXmp r = true
          · rw [getDataReturns_xmp hxmp, DataLoopsEnd]
            simp only [hserial, hxmp, true_implies, Bool.false_eq_true, false_implies, true_and]
          · rw [hother (Bool.eq_false_iff.mpr hserial) (Bool.eq_false_iff.mpr hxmp),
              getDataReturns_bits hrcmm hgrundig hserial hbo hxmp]

/-- Bits that take some time keep the decoder out of the trap. -/
theorem neverStalled_of_pos (hone : 0 < r.sone) (hzero : 0 < r.pzero) :
    NeverStalled hw r bits b := by
  rintro ⟨s, b'⟩ - hstalled
  have hbit : 0 < levelBit r s := by
    rw [levelBit]
    split
    · exact hone
    · exact hzero
  obtain ⟨hneg, -⟩ | ⟨heq, -⟩ := hstalled.noTime
  · exact absurd hneg (not_lt.mpr hbit.le)
  · exact absurd heq hbit.ne'

/-- The loops of `get_data` end exactly when the serial decoder has a baud rate and
does not get stuck, and nothing is divided by a unit of zero. -/
theorem getData_ends_iff (hbyte : isSerial r = true → 0 < r.bitsInByte) (hb : 0 ≤ b.pendings)
    (bits done : ℕ) :
    (∃ out, GetDataReturns hw r bits done b out) ↔ DataLoopsEnd hw r bits done b := by
  constructor
  · rintro ⟨out, hout⟩
    exact ((getDataReturns_iff hbyte hb).mp hout).2
  · intro hend
    exact ⟨_, (getDataReturns_iff hbyte hb).mpr ⟨rfl, hend⟩⟩

end

/-- A pulse of 5 ms does not keep the decoder of this remote busy. -/
theorem getData_ends_iff_uart :
    ∃ out, GetDataReturns mode2Hardware uartRemote 16 0 { input := [0x01001388] } out :=
  (getData_ends_iff (b := { input := [0x01001388] }) (fun _ => by decide) (le_refl (0 : ℤ))
    16 0).mpr
      ⟨fun _ => ⟨by decide, neverStalled_of_pos (by decide) (by decide)⟩,
        fun h => absurd h (by decide)⟩

/-- A serial remote whose zeros take no time, as `zero 0 500` makes them. -/
def stuckRemote : IrRemote :=
  { flags := serial, aeps := 50, bits := 5, szero := 500, sone := 104, baud := 9600,
    bitsInByte := 5, stopBits := 2 }

/-- A pulse of 5 ms keeps its decoder busy forever. -/
theorem getData_stuck :
    isSerial stuckRemote = true ∧ 0 < stuckRemote.bitsInByte ∧
      ¬∃ out, GetDataReturns mode2Hardware stuckRemote 5 0 { input := [0x01001388] } out := by
  refine ⟨by decide, by decide, ?_⟩
  rintro ⟨out, hout⟩
  have hend := ((getDataReturns_iff (fun _ => Nat.succ_pos 4) (le_refl (0 : ℤ))).mp hout).2
  have hfree : NeverStalled mode2Hardware stuckRemote 5 { input := [0x01001388] } :=
    (hend.1 (by decide)).2
  -- behind the start bit the bits take no time
  have hreach : Reaches (serialDataBody mode2Hardware stuckRemote 5)
      (serialStartState stuckRemote { input := [0x01001388] })
      ({ received := 5, space := false, stopBit := true, parity := false, delta := 4896,
         origdelta := 5000, gapDelta := 0, code := 0 },
        { data := [0x01001388], rptr := 1, pendings := 104, sum := 5000 }) :=
    .round rfl (.round rfl (.round rfl (.round rfl (.round rfl (.round rfl (.refl _))))))
  exact hfree _ hreach
    ⟨rfl, by decide, rfl, .inr ⟨rfl, by decide, rfl⟩, nofun, trivial, trivial⟩

end Lirc
