import Lirc.RawSearch
import Lirc.RoundTrip

/-!
Serial remotes. The words of a UART are sent as frames: a start bit, the bits of
the word from the lowest on, a parity bit and the stop bits; a zero is a pulse and
a one a space. Neighbouring bits of one level are one sample, and the decoder
takes bit after bit off it.
-/

namespace Lirc

open Signal

/-! ### Frames -/

/-- The time of one bit. -/
def bitTime (r : IrRemote) : ℤ := (1000000 / r.baud : ℕ)

/-- The time of the stop bits, which are counted in halves. -/
def stopTime (r : IrRemote) : ℤ := (bitTime r * r.stopBits).tdiv 2

/-- The number of parity bits in a frame. -/
def parityBits (r : IrRemote) : ℕ := if r.parity = .none then 0 else 1

/-- The bits of a word, the lowest first. -/
def wordBits (n : ℕ) (w : IrCode) : List Bool := (List.range n).map w.getLsbD

/-- The number of ones is odd. -/
def oddOnes (bs : List Bool) : Bool := bs.foldl xor false

/-- The bit that makes the number of ones even or odd. -/
def paritySlot : Parity → List Bool → List Bool
  | .none, _ => []
  | .even, bs => [oddOnes bs]
  | .odd, bs => [!oddOnes bs]

/-- The bits between the start bit and the stop bits. -/
def frameBits (r : IrRemote) (w : IrCode) : List Bool :=
  wordBits r.bitsInByte w ++ paritySlot r.parity (wordBits r.bitsInByte w)

/-- A one is a space. -/
def bitPart (t : ℤ) (v : Bool) : Part := ⟨!v, t⟩

/-- A word with the idle time after it. -/
def serialFrame (r : IrRemote) (w : IrCode) (idle : ℤ) : List Part :=
  pulse (bitTime r) :: ((frameBits r w).map (bitPart (bitTime r)) ++ [space (stopTime r + idle)])

/-- The words of a signal, each with the idle time after it. -/
def serialParts (r : IrRemote) : List (IrCode × ℤ) → List Part
  | [] => []
  | f :: fs => serialFrame r f.1 f.2 ++ serialParts r fs

/-- The words behind each other, the first one in the highest bits. -/
def joinWords (n : ℕ) : List IrCode → IrCode → IrCode
  | [], c => c
  | w :: ws, c => joinWords n ws (c <<< n ||| w)

/-! ### Bits shifted into a code -/

/-- Bits shifted in from the right. -/
def pushBits : List Bool → IrCode → IrCode
  | [], c => c
  | v :: vs, c => pushBits vs (c <<< 1 ||| (if v then 1 else 0))

theorem pushBit_getLsbD (c : IrCode) (v : Bool) {j : ℕ} (hj : j < 64) :
    (c <<< 1 ||| (if v then 1 else 0)).getLsbD j = if j = 0 then v else c.getLsbD (j - 1) := by
  rw [BitVec.getLsbD_or, BitVec.getLsbD_shiftLeft]
  cases j with
  | zero => cases v <;> simp
  | succ j => cases v <;> simp [hj]

/-- The last bit shifted in is the lowest. -/
theorem pushBits_getLsbD (bs : List Bool) (c : IrCode) {j : ℕ} (hj : j < 64) :
    (pushBits bs c).getLsbD j =
      if h : j < bs.length then bs[bs.length - 1 - j] else c.getLsbD (j - bs.length) := by
  induction bs generalizing c with
  | nil => simp [pushBits]
  | cons v vs ih =>
      rw [pushBits, ih]
      by_cases hlt : j < vs.length
      · have hlt' : j < (v :: vs).length := by simp only [List.length_cons]; omega
        have hidx : (v :: vs).length - 1 - j = vs.length - 1 - j + 1 := by
          simp only [List.length_cons]
          omega
        simp only [hlt, hlt', dif_pos, hidx, List.getElem_cons_succ]
      · rw [dif_neg hlt, pushBit_getLsbD c v (by omega)]
        by_cases heq : j = vs.length
        · have hlt' : j < (v :: vs).length := by simp only [List.length_cons]; omega
          have hidx : (v :: vs).length - 1 - j = 0 := by
            simp only [List.length_cons]
            omega
          have hzero : j - vs.length = 0 := by omega
          simp only [hlt', dif_pos, hidx, List.getElem_cons_zero, if_pos hzero]
        · have hlt' : ¬j < (v :: vs).length := by simp only [List.length_cons]; omega
          have hne : ¬j - vs.length = 0 := by omega
          rw [dif_neg hlt', if_neg hne, List.length_cons, Nat.sub_sub]

@[simp] theorem length_wordBits (n : ℕ) (w : IrCode) : (wordBits n w).length = n := by
  simp [wordBits]

theorem length_paritySlot (r : IrRemote) (bs : List Bool) :
    (paritySlot r.parity bs).length = parityBits r := by
  unfold parityBits
  cases r.parity with
  | none => rfl
  | even => rfl
  | odd => rfl

@[simp] theorem length_frameBits (r : IrRemote) (w : IrCode) :
    (frameBits r w).length = r.bitsInByte + parityBits r := by
  rw [frameBits, List.length_append, length_wordBits, length_paritySlot]

/-- The bits of a frame give the word behind those before it. -/
theorem serialByte_pushBits {r : IrRemote} {c w : IrCode} {k : ℕ}
    (hc : c.toNat < 2 ^ k) (hk : k + (r.bitsInByte + parityBits r) ≤ 64)
    (hw : w &&& genMask r.bitsInByte = w) :
    serialByte r (pushBits (frameBits r w) c) (parityBits r) = c <<< r.bitsInByte ||| w := by
  have hlen := length_frameBits r w
  apply BitVec.eq_of_getLsbD_eq
  intro j hj
  have hhigh : ∀ i, k ≤ i → c.getLsbD i = false := by
    intro i hi
    exact Nat.testBit_lt_two_pow (lt_of_lt_of_le hc (Nat.pow_le_pow_right (by decide) hi))
  rw [serialByte, BitVec.getLsbD_or, BitVec.getLsbD_or, BitVec.getLsbD_shiftLeft,
    BitVec.getLsbD_shiftLeft, reverse_getLsbD (by omega) hj, BitVec.getLsbD_ushiftRight,
    BitVec.getLsbD_ushiftRight]
  by_cases hlt : j < r.bitsInByte
  · have hbit := pushBits_getLsbD (frameBits r w) c
      (j := parityBits r + (r.bitsInByte - 1 - j)) (by omega)
    have hin : parityBits r + (r.bitsInByte - 1 - j) < (frameBits r w).length := by omega
    have hidx : (frameBits r w).length - 1 - (parityBits r + (r.bitsInByte - 1 - j)) = j := by
      omega
    have hj' : j < (frameBits r w).length := by omega
    have hword : (frameBits r w)[j] = w.getLsbD j := by simp [frameBits, wordBits, hlt]
    simp only [hin, dif_pos, hidx, hword] at hbit
    simp [hlt, hbit]
  · have hw0 : w.getLsbD j = false := by
      rw [← hw, BitVec.getLsbD_and, genMask_getLsbD (by omega)]
      simp [hlt]
    rw [hw0]
    simp only [hj, hlt, decide_true, decide_false, Bool.not_false, Bool.true_and, Bool.false_and,
      Bool.or_false]
    by_cases hover : r.bitsInByte + parityBits r + (j - r.bitsInByte) < 64
    · rw [pushBits_getLsbD _ _ hover, dif_neg (by omega)]
      congr 1
      omega
    · rw [BitVec.getLsbD_of_ge _ _ (by omega), hhigh _ (by omega)]

/-! ### The rounds of the decoder -/

section Rounds

variable (hw : Hardware) (r : IrRemote)

/-- The sample that a round of the decoder looks at. -/
def serialLoad (bits parityBit : ℕ) (maxSpace maxPulse : ℤ) (s : SerialState) (b : RBuf) :
    SerialState × RBuf :=
  if s.delta = 0 then
    let (delta, b) := if s.space then getNextSpace b maxSpace else getNextPulse b maxPulse
    let delta :=
      if delta = 0 ∧ s.space ∧ bits ≤ s.received + r.bitsInByte + parityBit then maxSpace
      else delta
    ({ s with delta := delta, origdelta := delta }, b)
  else (s, b)

/-- What a round takes off the sample while nothing is pending. -/
def serialBit (parityBit : ℕ) (stop : ℤ) (s : SerialState) (b : RBuf) :
    Option SerialState × RBuf :=
  let expecting := if s.space then r.sone else r.pzero
  if expecting < s.delta ∨ expect hw r s.delta expecting then
    let s := { s with
      delta := s.delta - (if s.delta < expecting then s.delta else expecting),
      received := s.received + 1,
      code := s.code <<< 1 ||| (if s.space then 1 else 0),
      parity := s.parity ^^ s.space }
    if s.received % (r.bitsInByte + parityBit) = 0 then
      if (r.parity = .even ∧ s.parity) ∨ (r.parity = .odd ∧ !s.parity) then (none, b)
      else
        let s := { s with parity := false, code := serialByte r s.code parityBit }
        if s.space = true ∧ s.delta = (0 : ℤ) then (none, b)
        else
          (some { s with stopBit := true,
                         space := if s.delta = 0 then !s.space else s.space },
            { b with pendings := stop })
    else (some { s with space := if s.delta = 0 then !s.space else s.space }, b)
  else if s.delta = s.origdelta then (none, b)
  else (some { s with delta := 0, space := !s.space }, b)

/-- What a round takes off the sample. -/
def serialTake (parityBit : ℕ) (base stop : ℤ) (s : SerialState) (b : RBuf) :
    Option SerialState × RBuf :=
  let pending := if s.space then b.pendings else b.pendingp
  if !expect hw r s.delta pending && !decide (pending < s.delta) then (none, b)
  else
    let s := { s with delta := if expect hw r s.delta pending then 0 else s.delta - pending }
    if 0 < pending then
      if s.stopBit then
        (some { s with gapDelta := s.delta, delta := 0, stopBit := false, space := false },
          { b with pendingp := base, pendings := 0 })
      else
        (some { s with space := if s.delta = 0 then !s.space else s.space },
          { b with pendingp := 0, pendings := 0 })
    else serialBit hw r parityBit stop s b

/-- A round loads a sample and takes something off it. -/
theorem serialRound_eq {bits parityBit : ℕ} {base stop maxSpace maxPulse : ℤ} {s s₁ : SerialState}
    {b b₁ : RBuf} (hload : serialLoad r bits parityBit maxSpace maxPulse s b = (s₁, b₁))
    (hne : s₁.delta ≠ 0) :
    serialRound hw r bits parityBit base stop maxSpace maxPulse s b =
      serialTake hw r parityBit base stop s₁ b₁ := by
  have hround : serialRound hw r bits parityBit base stop maxSpace maxPulse s b =
      if (serialLoad r bits parityBit maxSpace maxPulse s b).1.delta = 0 then
        (none, (serialLoad r bits parityBit maxSpace maxPulse s b).2)
      else serialTake hw r parityBit base stop (serialLoad r bits parityBit maxSpace maxPulse s b).1
        (serialLoad r bits parityBit maxSpace maxPulse s b).2 := rfl
  rw [hround, hload, if_neg hne]

end Rounds

/-! ### What is left of the samples -/

/-- What is left of the samples `xs` behind the index `i`, with so much of the
sample before it, is the signal `ps`; `low` is the level that is taken now or
next. -/
def Remains (xs : List Part) (low : Bool) (delta : ℤ) (i : ℕ) (ps : List Part) : Prop :=
  (delta = 0 ∧ runs ps = xs.drop i ∧ StartsOff low ps) ∨
    (0 < delta ∧ runs ps = ⟨!low, delta⟩ :: xs.drop i)

section Left

variable {xs ps : List Part} {low : Bool} {delta x d : ℤ} {i : ℕ} {p : Part}

/-- The next part is of the level that is taken. -/
theorem Remains.level (h : Remains xs low delta i (p :: ps)) : p.high = !low := by
  rcases h with ⟨-, -, hoff⟩ | ⟨-, hruns⟩
  · rw [startsOff_cons] at hoff
    cases low <;> simpa using hoff
  · obtain ⟨y, rest, hhead⟩ := runs_head p ps
    rw [hhead] at hruns
    exact congrArg Part.high (List.cons.inj hruns).1

/-- The sample that the next part is the beginning of. -/
theorem Remains.sample (h : Remains xs low delta i (p :: ps)) (hpos : Positive (p :: ps)) :
    ∃ d j, runs (p :: ps) = ⟨!low, d⟩ :: xs.drop j ∧ 0 < d ∧
      (delta = 0 ∧ j = i + 1 ∧ xs[i]? = some ⟨!low, d⟩ ∨ delta ≠ 0 ∧ d = delta ∧ j = i) := by
  have hlevel := h.level
  rcases h with ⟨rfl, hruns, -⟩ | ⟨hdelta, hruns⟩
  · obtain ⟨y, rest, hhead⟩ := runs_head p ps
    have hy : 0 < y := by
      have := hpos.runs
      rw [hhead] at this
      exact this.head
    rw [hhead, hlevel] at hruns
    have hget : xs[i]? = some ⟨!low, y⟩ := by
      rw [← Nat.add_zero i, ← List.getElem?_drop, ← hruns]
      rfl
    have hdrop : xs.drop (i + 1) = rest := by
      rw [← List.drop_drop, ← hruns]
      rfl
    exact ⟨y, i + 1, by rw [hhead, hlevel, hdrop], hy, .inl ⟨rfl, rfl, hget⟩⟩
  · exact ⟨delta, i, hruns, hdelta, .inr ⟨by omega, rfl, rfl⟩⟩

/-- A part is taken off its sample. -/
theorem Remains.take (hruns : runs (⟨!low, x⟩ :: ps) = ⟨!low, d⟩ :: xs.drop i)
    (hpos : Positive ps) :
    x ≤ d ∧ Remains xs (if d - x = 0 then !low else low) (d - x) i ps := by
  rcases runs_take hpos hruns with ⟨rfl, hrest, hoff⟩ | ⟨hlt, hrest⟩
  · refine ⟨le_refl _, ?_⟩
    rw [Int.sub_self, if_pos rfl]
    exact .inl ⟨rfl, hrest, hoff⟩
  · refine ⟨hlt.le, ?_⟩
    rw [if_neg (by omega)]
    exact .inr ⟨by omega, hrest⟩

/-- A sample is at least as long as its first part. -/
theorem Remains.le (h : Remains xs low delta i ps) (hpos : Positive ps) (hne : delta ≠ 0) :
    ∃ p ∈ ps, p.len ≤ delta := by
  rcases h with ⟨hzero, -⟩ | ⟨-, hruns⟩
  · exact absurd hzero hne
  · cases ps with
    | nil => simp [runs] at hruns
    | cons p ps =>
        obtain ⟨y, rest, hhead⟩ := runs_head p ps
        have hlevel : p.high = !low := by
          rw [hhead] at hruns
          exact congrArg Part.high (List.cons.inj hruns).1
        have hruns' : runs (⟨!low, p.len⟩ :: ps) = ⟨!low, delta⟩ :: xs.drop i := by
          rw [← hruns, ← hlevel]
        exact ⟨p, List.mem_cons_self, (Remains.take hruns' hpos.tail).1⟩

/-- Where only one run is left, all parts are of one level. -/
theorem level_of_runs (hruns : runs (p :: ps) = [⟨p.high, d⟩]) (hpos : Positive ps) :
    ∀ q ∈ ps, q.high = p.high := by
  induction ps generalizing p d with
  | nil => simp
  | cons q ps ih =>
      obtain ⟨level, y⟩ := p
      rcases runs_take hpos hruns with ⟨-, hrest, -⟩ | ⟨-, hrest⟩
      · obtain ⟨z, rest, hhead⟩ := runs_head q ps
        rw [hhead] at hrest
        cases hrest
      · obtain ⟨z, rest, hhead⟩ := runs_head q ps
        have hq : q.high = level := by
          rw [hhead] at hrest
          exact congrArg Part.high (List.cons.inj hrest).1
        rw [← hq] at hrest
        intro q' hq'
        rcases List.mem_cons.mp hq' with rfl | hmem
        · exact hq
        · exact (ih hrest hpos.tail q' hmem).trans hq

end Left

/-! ### The samples in the buffer -/

/-- The next word is that with the number `i`, with so much pending. -/
def RBuf.Holds (b : RBuf) (ws : List ℕ) (i : ℕ) (s p q : ℤ) : Prop :=
  ∃ b₀ : RBuf, b₀.AtWord ws i s ∧ b = { b₀ with pendingp := p, pendings := q }

section Holds

variable {b : RBuf} {ws : List ℕ} {i : ℕ} {s p q : ℤ}

theorem getNextRecBuffer_pending (b : RBuf) (p q m : ℤ) :
    getNextRecBuffer { b with pendingp := p, pendings := q } m =
      ((getNextRecBuffer b m).1,
        { (getNextRecBuffer b m).2 with pendingp := p, pendings := q }) := by
  unfold getNextRecBuffer getNextRecBufferInternal
  simp only
  split
  · rfl
  · split
    · split
      · rfl
      · rfl
    · rfl

theorem RBuf.Holds.nextPulse (h : b.Holds ws i s p q) (m : ℤ) {w : ℕ} (hget : ws[i]? = some w)
    (hp : isPulse w = true) :
    ∃ b', getNextPulse b m = (sampleValue w, b') ∧ b'.Holds ws (i + 1) (s + sampleValue w) p q := by
  obtain ⟨b₀, h₀, rfl⟩ := h
  obtain ⟨b', hread, h'⟩ := h₀.read m hget
  have hne := deliverable_ne_zero (h₀.ready w (List.mem_of_getElem? hget))
  refine ⟨_, ?_, b', h', rfl⟩
  simp [getNextPulse, getNextRecBuffer_pending, hread, hne, hp]

theorem RBuf.Holds.nextSpace (h : b.Holds ws i s p q) (m : ℤ) {w : ℕ} (hget : ws[i]? = some w)
    (hp : isPulse w = false) :
    ∃ b', getNextSpace b m = ((w : ℤ), b') ∧ b'.Holds ws (i + 1) (s + sampleValue w) p q := by
  obtain ⟨b₀, h₀, rfl⟩ := h
  obtain ⟨b', hread, h'⟩ := h₀.read m hget
  have hne := deliverable_ne_zero (h₀.ready w (List.mem_of_getElem? hget))
  refine ⟨_, ?_, b', h', rfl⟩
  simp [getNextSpace, getNextRecBuffer_pending, hread, hne, isSpace, hp]

theorem RBuf.Holds.nextSpace_end (h : b.Holds ws i s p q) (m : ℤ) (hget : ws[i]? = none) :
    ∃ b', getNextSpace b m = (0, b') ∧ b'.Holds ws i s p q := by
  obtain ⟨b₀, h₀, rfl⟩ := h
  obtain ⟨b', hread, h'⟩ := h₀.read_end m hget
  refine ⟨_, ?_, b', h', rfl⟩
  simp [getNextSpace, getNextRecBuffer_pending, hread]

end Holds

/-- The samples `ds` are delivered behind a synchronisation space. Those of the
signal are `xs`: the same ones, or one last space more, of which the decoder
takes so much. -/
structure SerialFeed (ws : List ℕ) (xs ds : List Part) (maxSpace : ℤ) : Prop where
  words : ∃ sync, ws = sync :: ds.map word
  samples : xs = ds ∨ xs = ds ++ [space maxSpace]
  representable : ∀ p ∈ ds, Representable p

/-- The decoder has read `i` of the samples, as far as they are delivered. -/
def RBuf.Past (b : RBuf) (ws : List ℕ) (ds : List Part) (i : ℕ) (p q : ℤ) : Prop :=
  b.Holds ws (min i ds.length + 1) ((ds.take i).map Part.len).sum p q

section Load

variable {r : IrRemote} {ws : List ℕ} {xs ds ps : List Part} {maxSpace maxPulse : ℤ}
  {bits i : ℕ} {s : SerialState} {b : RBuf} {p : Part} {x y : ℤ}

theorem List.sum_take_succ_len {ds : List Part} {i : ℕ} {p : Part} (hget : ds[i]? = some p) :
    ((ds.take (i + 1)).map Part.len).sum = ((ds.take i).map Part.len).sum + p.len := by
  rw [List.take_add_one, hget]
  simp

/-- A sample that is delivered is read. -/
theorem RBuf.Past.read (hf : SerialFeed ws xs ds maxSpace) (h : b.Past ws ds i x y)
    (hget : ds[i]? = some p) (m : ℤ) :
    ∃ b', (if p.high then getNextPulse b m else getNextSpace b m) = (p.len, b') ∧
      b'.Past ws ds (i + 1) x y := by
  have hlt : i < ds.length := (List.getElem?_eq_some_iff.mp hget).1
  have hrep := hf.representable p (List.mem_of_getElem? hget)
  have hvalue := sampleValue_word hrep
  obtain ⟨sync, hws⟩ := hf.words
  have hword : ws[min i ds.length + 1]? = some (word p) := by
    rw [hws, List.getElem?_cons_succ, List.getElem?_map, Nat.min_eq_left hlt.le, hget]
    rfl
  have hsum := List.sum_take_succ_len hget
  have hmin : min (i + 1) ds.length = min i ds.length + 1 := by omega
  unfold RBuf.Past at h ⊢
  rw [hmin, hsum, ← hvalue]
  cases hp : p.high with
  | true =>
      have hpulse : isPulse (word p) = true := (isPulse_word hrep).trans hp
      obtain ⟨b', hread, h'⟩ := h.nextPulse m hword hpulse
      exact ⟨b', by rw [if_pos rfl, hread], h'⟩
  | false =>
      have hpulse : isPulse (word p) = false := (isPulse_word hrep).trans hp
      obtain ⟨b', hread, h'⟩ := h.nextSpace m hword hpulse
      have hlen : ((word p : ℕ) : ℤ) = sampleValue (word p) := by
        obtain ⟨level, z⟩ := p
        obtain rfl : level = false := hp
        rw [hvalue, word_space hrep.1]
      exact ⟨b', by rw [if_neg Bool.false_ne_true, hread, hlen], h'⟩

/-- Behind the last sample that is delivered the decoder times out. -/
theorem RBuf.Past.read_end (hf : SerialFeed ws xs ds maxSpace) (h : b.Past ws ds ds.length x y)
    (m : ℤ) : ∃ b', getNextSpace b m = (0, b') ∧ b'.Past ws ds (ds.length + 1) x y := by
  obtain ⟨sync, hws⟩ := hf.words
  have hend : ws[min ds.length ds.length + 1]? = none := by
    rw [hws]
    simp
  obtain ⟨b', hread, h'⟩ := RBuf.Holds.nextSpace_end h m hend
  refine ⟨b', hread, ?_⟩
  have hmin : min (ds.length + 1) ds.length = min ds.length ds.length := by omega
  have htake : ds.take (ds.length + 1) = ds.take ds.length := by
    rw [List.take_length, List.take_of_length_le (Nat.le_succ _)]
  rw [RBuf.Past, hmin, htake]
  exact h'

/-- The sample that the next part is the beginning of is loaded. Where the signal
goes on with a space to its end, the last word has to be the one at hand. -/
theorem serialLoad_ok (hf : SerialFeed ws xs ds maxSpace) (hpos : Positive (p :: ps))
    (hs : Remains xs s.space s.delta i (p :: ps)) (hb : b.Past ws ds i x y)
    (hopen : (∀ q ∈ ps, q.high = p.high) → bits ≤ s.received + r.bitsInByte + parityBits r) :
    ∃ d o j b', serialLoad r bits (parityBits r) maxSpace maxPulse s b =
        ({ s with delta := d, origdelta := o }, b') ∧
      0 < d ∧ runs (p :: ps) = ⟨!s.space, d⟩ :: xs.drop j ∧ b'.Past ws ds j x y := by
  have hlevel := hs.level
  obtain ⟨d, j, hruns, hd, ⟨hzero, rfl, hget⟩ | ⟨hne, rfl, rfl⟩⟩ := hs.sample hpos
  · unfold serialLoad
    rw [if_pos hzero]
    by_cases hlt : i < ds.length
    · -- the sample is delivered
      have hget' : ds[i]? = some ⟨!s.space, d⟩ := by
        rcases hf.samples with rfl | rfl
        · exact hget
        · rwa [List.getElem?_append_left hlt] at hget
      cases hsp : s.space with
      | true =>
          rw [hsp] at hget'
          obtain ⟨b', hread, h'⟩ := hb.read hf hget' maxSpace
          have hread' : getNextSpace b maxSpace = (d, b') := hread
          refine ⟨d, d, i + 1, b', ?_, hd, by rw [hruns, hsp], h'⟩
          have hne : ¬d = 0 := by omega
          simp [hread', hne]
      | false =>
          rw [hsp] at hget'
          obtain ⟨b', hread, h'⟩ := hb.read hf hget' maxPulse
          have hread' : getNextPulse b maxPulse = (d, b') := hread
          refine ⟨d, d, i + 1, b', ?_, hd, by rw [hruns, hsp], h'⟩
          simp [hread']
    · -- it is the space that never ends
      obtain ⟨rfl, rfl, hsp⟩ : i = ds.length ∧ maxSpace = d ∧ s.space = true := by
        have hi := (List.getElem?_eq_some_iff.mp hget).1
        rcases hf.samples with rfl | rfl
        · omega
        · simp only [List.length_append, List.length_singleton] at hi
          have heq : i = ds.length := by omega
          rw [heq] at hget
          simp at hget
          exact ⟨heq, hget.2, hget.1⟩
      obtain ⟨b', hread, h'⟩ := hb.read_end hf maxSpace
      have hdrop : xs.drop (ds.length + 1) = [] := by
        rw [List.drop_eq_nil_iff]
        rcases hf.samples with rfl | rfl
        · omega
        · simp
      have hone : bits ≤ s.received + r.bitsInByte + parityBits r := by
        refine hopen (level_of_runs (d := maxSpace) ?_ hpos.tail)
        rw [hruns, hdrop, hlevel]
      refine ⟨maxSpace, maxSpace, ds.length + 1, b', ?_, hd, hruns, h'⟩
      simp [hsp, hread, hone]
  · refine ⟨s.delta, s.origdelta, j, b, ?_, hd, hruns, hb⟩
    rw [serialLoad, if_neg hne]

end Load

/-! ### One frame -/

/-- The difference to a length that still passes for it. -/
def tolerance (hw : Hardware) (r : IrRemote) (x : ℤ) : ℤ :=
  max ((x * r.eps).tdiv 100) (aepsOf hw r)

theorem expect_eq (hw : Hardware) (r : IrRemote) (d x : ℤ) :
    expect hw r d x = decide (|x - d| ≤ tolerance hw r x) := by
  rw [expect, tolerance, Bool.eq_iff_iff, Bool.or_eq_true, decide_eq_true_eq, decide_eq_true_eq,
    decide_eq_true_eq, le_max_iff]

/-- The length of the longest run, a word of ones with its stop bits. -/
def longestRun (r : IrRemote) : ℤ :=
  bitTime r * ((r.bitsInByte + parityBits r : ℕ) : ℤ) + stopTime r

/-- A serial remote without header, lead, trail, foot and constant data, whose
pulses and spaces last one bit, and a tolerance of less than half a bit. -/
structure Uart (hw : Hardware) (r : IrRemote) : Prop where
  protocol : isSerial r = true
  bitTime_pos : 0 < bitTime r
  bitsInByte : 5 ≤ r.bitsInByte ∧ r.bitsInByte ≤ 9
  stopBits : 2 ≤ r.stopBits ∧ r.stopBits ≤ 4
  pzero : r.pzero = bitTime r
  sone : r.sone = bitTime r
  tolerant : Tolerant r
  narrow : ∀ x, 0 ≤ x → x ≤ longestRun r → 2 * tolerance hw r x < bitTime r
  noHeader : hasHeader r = false
  noLead : r.plead = 0
  noTrail : r.ptrail = 0
  noFoot : hasFoot r = false
  noPre : r.preDataBits = 0
  noPost : r.postDataBits = 0
  words : r.bits % r.bitsInByte = 0
  bits_le : r.bits ≤ 63

namespace Uart

variable {hw : Hardware} {r : IrRemote}

theorem bitsInByte_pos (h : Uart hw r) : 0 < r.bitsInByte := by
  have := h.bitsInByte
  omega

theorem stopTime_ge (h : Uart hw r) : bitTime r ≤ stopTime r := by
  have hpos := h.bitTime_pos
  have hstop : (2 : ℤ) ≤ r.stopBits := by exact_mod_cast h.stopBits.1
  have hle : bitTime r * 2 ≤ bitTime r * r.stopBits := Int.mul_le_mul_of_nonneg_left hstop hpos.le
  rw [stopTime, Int.tdiv_eq_ediv_of_nonneg (by omega)]
  omega

theorem stopTime_le (h : Uart hw r) : stopTime r ≤ longestRun r := by
  have hprod : 0 ≤ bitTime r * ((r.bitsInByte + parityBits r : ℕ) : ℤ) :=
    Int.mul_nonneg h.bitTime_pos.le (Int.natCast_nonneg _)
  rw [longestRun]
  omega

theorem expect_self (h : Uart hw r) {x : ℤ} (hx : 0 ≤ x) : expect hw r x x = true :=
  h.tolerant.expect_self hx

/-- A length that is a bit longer does not pass. -/
theorem expect_longer (h : Uart hw r) {x d : ℤ} (hx : 0 ≤ x) (hle : x ≤ longestRun r)
    (hd : x + bitTime r ≤ d) : expect hw r d x = false := by
  have hnarrow := h.narrow x hx hle
  have hpos := h.bitTime_pos
  have habs : d - x ≤ |x - d| := by
    have := neg_abs_le (x - d)
    omega
  rw [expect_eq, decide_eq_false_iff_not]
  omega

theorem bitTime_le (h : Uart hw r) : bitTime r ≤ longestRun r := h.stopTime_ge.trans h.stopTime_le

end Uart

/-- What the decoder leaves of the space behind a frame for the test of the gap. -/
def idleLeft (hw : Hardware) (r : IrRemote) (idle : ℤ) : ℤ :=
  if expect hw r (stopTime r + idle) (stopTime r) then 0 else idle

/-- The number of ones that the decoder has seen in a frame is as it should be. -/
def ParityFits : Parity → Bool → Prop
  | .none, _ => True
  | .even, odd => odd = false
  | .odd, odd => odd = true

/-- After so many rounds the decoder has come from one state to the other. -/
def SerialSteps (hw : Hardware) (r : IrRemote) (bits : ℕ) (maxSpace maxPulse : ℤ) (m : ℕ)
    (s : SerialState) (b : RBuf) (s' : SerialState) (b' : RBuf) : Prop :=
  ∀ fuel, serialRounds hw r bits (parityBits r) (bitTime r) (stopTime r) maxSpace maxPulse
      (fuel + m) s b =
    serialRounds hw r bits (parityBits r) (bitTime r) (stopTime r) maxSpace maxPulse fuel s' b'

section Steps

variable {hw : Hardware} {r : IrRemote} {ws : List ℕ} {xs ds ps rest : List Part}
  {maxSpace maxPulse : ℤ} {bits i m n : ℕ} {s s' s'' : SerialState} {b b' b'' : RBuf}

theorem SerialSteps.trans (h : SerialSteps hw r bits maxSpace maxPulse m s b s' b')
    (h' : SerialSteps hw r bits maxSpace maxPulse n s' b' s'' b'') :
    SerialSteps hw r bits maxSpace maxPulse (n + m) s b s'' b'' := by
  intro fuel
  rw [← Nat.add_assoc, h (fuel + n), h' fuel]

/-- A round of the loop. -/
theorem SerialSteps.round (hgo : s.received < bits ∨ s.stopBit = true)
    (h : serialRound hw r bits (parityBits r) (bitTime r) (stopTime r) maxSpace maxPulse s b =
      (some s', b')) : SerialSteps hw r bits maxSpace maxPulse 1 s b s' b' := by
  intro fuel
  rw [serialRounds, if_pos hgo, h]

variable (maxPulse bits)

/-- The start bit is taken off the first sample of a frame. -/
theorem serial_start (hu : Uart hw r) (hf : SerialFeed ws xs ds maxSpace)
    (hpos : Positive ps) (hlong : ∀ p ∈ ps, bitTime r ≤ p.len)
    (hsp : s.space = false) (hstop : s.stopBit = false) (hgo : s.received < bits)
    (hs : Remains xs false s.delta i (pulse (bitTime r) :: ps))
    (hb : b.Past ws ds i (bitTime r) 0)
    (hmixed : ∃ q ∈ ps, q.high = false) :
    ∃ d o j low b', SerialSteps hw r bits maxSpace maxPulse 1 s b
        { s with delta := d, origdelta := o, space := low } b' ∧
      Remains xs low d j ps ∧ b'.Past ws ds j 0 0 := by
  have hbit := hu.bitTime_pos
  have hpos' : Positive (pulse (bitTime r) :: ps) := (positive_cons _ _).mpr ⟨hbit, hpos⟩
  have hs' : Remains xs s.space s.delta i (pulse (bitTime r) :: ps) := by rwa [hsp]
  have hopen : (∀ q ∈ ps, q.high = true) → bits ≤ s.received + r.bitsInByte + parityBits r := by
    intro hall
    obtain ⟨q, hq, hlow⟩ := hmixed
    rw [hall q hq] at hlow
    cases hlow
  obtain ⟨d, o, j, b₁, hload, hd, hruns, hb₁⟩ := serialLoad_ok hf hpos' hs' hb hopen
  rw [hsp] at hruns
  have hruns' : runs (⟨!false, bitTime r⟩ :: ps) = ⟨!false, d⟩ :: xs.drop j := hruns
  obtain ⟨hle, hleft⟩ := Remains.take hruns' hpos
  obtain ⟨b₀, h₀, rfl⟩ := hb₁
  have hrest : d - bitTime r = 0 ∨ bitTime r ≤ d - bitTime r := by
    by_cases hzero : d - bitTime r = 0
    · exact .inl hzero
    · obtain ⟨p, hp, hlen⟩ := hleft.le hpos hzero
      exact .inr ((hlong p hp).trans hlen)
  refine ⟨d - bitTime r, o, j, if d - bitTime r = 0 then true else false, _,
    SerialSteps.round (.inl hgo) ?_, hleft, ⟨b₀, h₀, rfl⟩⟩
  rw [serialRound_eq hw r hload (by simp only; omega)]
  unfold serialTake
  simp only [hsp, Bool.false_eq_true, if_false, hbit, if_true, hstop]
  rcases hrest with hzero | hmore
  · have hd' : d = bitTime r := by omega
    have hself := hu.expect_self hbit.le
    simp [hd', hself]
  · have hexp := hu.expect_longer hbit.le hu.bitTime_le (show bitTime r + bitTime r ≤ d by omega)
    have hlt : bitTime r < d := by omega
    have hne : ¬d - bitTime r = 0 := by omega
    simp [hexp, hlt, hne]

/-- A bit is taken off its sample, with what the round makes of it. -/
theorem serial_bit (hu : Uart hw r) (hf : SerialFeed ws xs ds maxSpace) {v : Bool}
    (hpos : Positive ps)
    (hs : Remains xs s.space s.delta i (bitPart (bitTime r) v :: ps))
    (hb : b.Past ws ds i 0 0)
    (hopen : (∀ q ∈ ps, q.high = !v) → bits ≤ s.received + r.bitsInByte + parityBits r) :
    ∃ d o j b', serialRound hw r bits (parityBits r) (bitTime r) (stopTime r) maxSpace maxPulse s b =
        (if (s.received + 1) % (r.bitsInByte + parityBits r) = 0 then
          if (r.parity = .even ∧ (s.parity ^^ v)) ∨ (r.parity = .odd ∧ !(s.parity ^^ v)) then
            (none, b')
          else if v = true ∧ d = (0 : ℤ) then (none, b')
          else
            (some { s with delta := d, origdelta := o, received := s.received + 1,
                           code := serialByte r (pushBits [v] s.code) (parityBits r),
                           parity := false, stopBit := true,
                           space := if d = 0 then !v else v },
              { b' with pendings := stopTime r })
        else
          (some { s with delta := d, origdelta := o, received := s.received + 1,
                         code := pushBits [v] s.code, parity := s.parity ^^ v,
                         space := if d = 0 then !v else v }, b')) ∧
      Remains xs (if d = 0 then !v else v) d j ps ∧ b'.Past ws ds j 0 0 := by
  have hbit := hu.bitTime_pos
  have hlevel : (!v) = !s.space := hs.level
  obtain rfl : v = s.space := by
    cases v <;> cases hsp : s.space <;> simp [hsp] at hlevel <;> rfl
  have hpos' : Positive (bitPart (bitTime r) s.space :: ps) :=
    (positive_cons _ _).mpr ⟨hbit, hpos⟩
  obtain ⟨d, o, j, b₁, hload, hd, hruns, hb₁⟩ := serialLoad_ok hf hpos' hs hb hopen
  have hruns' : runs (⟨!s.space, bitTime r⟩ :: ps) = ⟨!s.space, d⟩ :: xs.drop j := hruns
  obtain ⟨hle, hleft⟩ := Remains.take hruns' hpos
  obtain ⟨b₀, h₀, rfl⟩ := hb₁
  refine ⟨d - bitTime r, o, j, _, ?_, hleft, ⟨b₀, h₀, rfl⟩⟩
  rw [serialRound_eq hw r hload (by simp only; omega)]
  have hlongest : 0 ≤ longestRun r := hbit.le.trans hu.bitTime_le
  have hzero : expect hw r d 0 = false := hu.expect_longer (le_refl 0) hlongest (by omega)
  have hexp : bitTime r < d ∨ expect hw r d (bitTime r) = true := by
    rcases hle.lt_or_eq with hlt | heq
    · exact .inl hlt
    · rw [← heq]
      exact .inr (hu.expect_self hbit.le)
  have hlen : (if s.space = true then r.sone else r.pzero) = bitTime r := by
    rw [hu.sone, hu.pzero, ite_self]
  have hge : ¬d < bitTime r := by omega
  have hpending : ¬(0 : ℤ) < 0 := lt_irrefl 0
  unfold serialTake serialBit
  simp only [ite_self, hzero, hd, hpending, Bool.not_false, Bool.true_and, decide_true,
    Bool.not_true, Bool.false_eq_true, if_false, Int.sub_zero, hlen, hexp, if_true, hge, pushBits]

/-- The stop bits are taken off the last space of a frame. -/
theorem serial_stop (hu : Uart hw r) (hf : SerialFeed ws xs ds maxSpace) {idle : ℤ}
    (hidle : 0 ≤ idle) (hpos : Positive ps) (hoff : StartsOff false ps)
    (hsp : s.space = true) (hstop : s.stopBit = true)
    (hs : Remains xs true s.delta i (space (stopTime r + idle) :: ps))
    (hb : b.Past ws ds i 0 (stopTime r))
    (hopen : ps = [] → bits ≤ s.received + r.bitsInByte + parityBits r) :
    ∃ o j b', SerialSteps hw r bits maxSpace maxPulse 1 s b
        { s with delta := 0, origdelta := o, space := false, stopBit := false,
                 gapDelta := idleLeft hw r idle } b' ∧
      Remains xs false 0 j ps ∧ b'.Past ws ds j (bitTime r) 0 := by
  have hbit := hu.bitTime_pos
  have hge := hu.stopTime_ge
  have hpos' : Positive (space (stopTime r + idle) :: ps) :=
    (positive_cons _ _).mpr ⟨by simp only; omega, hpos⟩
  have hs' : Remains xs s.space s.delta i (space (stopTime r + idle) :: ps) := by rwa [hsp]
  have hopen' : (∀ q ∈ ps, q.high = false) → bits ≤ s.received + r.bitsInByte + parityBits r := by
    intro hall
    cases ps with
    | nil => exact hopen rfl
    | cons q ps => exact absurd (hall q List.mem_cons_self) (by simpa using hoff)
  obtain ⟨d, o, j, b₁, hload, hd, hruns, hb₁⟩ := serialLoad_ok hf hpos' hs' hb hopen'
  rw [hsp] at hruns
  -- a pulse follows, so the sample is the space
  obtain ⟨rfl, hrest⟩ : d = stopTime r + idle ∧ runs ps = xs.drop j := by
    rcases runs_take hpos hruns with ⟨heq, hrest, -⟩ | ⟨-, hrest⟩
    · exact ⟨heq, hrest⟩
    · rw [← startsOff_runs, hrest] at hoff
      simp at hoff
  obtain ⟨b₀, h₀, rfl⟩ := hb₁
  refine ⟨o, j, _, SerialSteps.round (.inr hstop) ?_, .inl ⟨rfl, hrest, hoff⟩, ⟨b₀, h₀, rfl⟩⟩
  rw [serialRound_eq hw r hload (by simp only; omega)]
  have hstoppos : 0 < stopTime r := by omega
  have hfits : (!expect hw r (stopTime r + idle) (stopTime r) &&
      !decide (stopTime r < stopTime r + idle)) = false := by
    by_cases hzero : idle = 0
    · rw [hzero, Int.add_zero, hu.expect_self hstoppos.le]
      rfl
    · have hlt : stopTime r < stopTime r + idle := by omega
      simp [hlt]
  have hidle' : stopTime r + idle - stopTime r = idle := by omega
  unfold serialTake idleLeft
  simp only [hsp, if_true, hfits, Bool.false_eq_true, if_false, hstoppos, hstop, hidle']

/-- The bits of a frame are taken off their samples. -/
theorem serial_bits (hu : Uart hw r) (hf : SerialFeed ws xs ds maxSpace) {bs : List Bool}
    (hne : bs ≠ []) {idle : ℤ} (hidle : 0 ≤ idle) (hpos : Positive rest)
    (hlen : bs.length ≤ r.bitsInByte + parityBits r)
    (hcount : (s.received + bs.length) % (r.bitsInByte + parityBits r) = 0)
    (hgo : s.received + bs.length ≤ bits) (hstop : s.stopBit = false)
    (hparity : ParityFits r.parity (bs.foldl xor s.parity))
    (hs : Remains xs s.space s.delta i
      (bs.map (bitPart (bitTime r)) ++ space (stopTime r + idle) :: rest))
    (hb : b.Past ws ds i 0 0)
    (hopen : rest = [] → bits ≤ s.received + r.bitsInByte + parityBits r)
    (hoff : StartsOff false rest) :
    ∃ d o j b', SerialSteps hw r bits maxSpace maxPulse bs.length s b
        { s with delta := d, origdelta := o, received := s.received + bs.length,
                 code := serialByte r (pushBits bs s.code) (parityBits r), parity := false,
                 stopBit := true, space := true } b' ∧
      Remains xs true d j (space (stopTime r + idle) :: rest) ∧ b'.Past ws ds j 0 (stopTime r) := by
  have hbit := hu.bitTime_pos
  have hge := hu.stopTime_ge
  have hposSpace : Positive (space (stopTime r + idle) :: rest) :=
    (positive_cons _ _).mpr ⟨by simp only; omega, hpos⟩
  have hone : ∀ q : Bool, (∀ p ∈ space (stopTime r + idle) :: rest, p.high = q) →
      bits ≤ s.received + r.bitsInByte + parityBits r := by
    intro q hall
    cases rest with
    | nil => exact hopen rfl
    | cons p rest =>
        have h₁ := hall _ List.mem_cons_self
        have h₂ := hall p (List.mem_cons_of_mem _ List.mem_cons_self)
        rw [← h₁] at h₂
        exact absurd h₂ (by simpa using hoff)
  induction bs generalizing s b i with
  | nil => exact absurd rfl hne
  | cons v vs ih =>
      have hposRest :
          Positive (vs.map (bitPart (bitTime r)) ++ space (stopTime r + idle) :: rest) := by
        rw [positive_append]
        refine ⟨fun p hp => ?_, hposSpace⟩
        obtain ⟨u, -, rfl⟩ := List.mem_map.mp hp
        exact hbit
      obtain ⟨d, o, j, b₁, hround, hleft, hb₁⟩ :=
        serial_bit maxPulse bits hu hf hposRest hs hb
          (fun hall => hone (!v) fun p hp => hall p (List.mem_append_right _ hp))
      have hgo' : s.received < bits ∨ s.stopBit = true := by
        simp only [List.length_cons] at hgo
        exact .inl (by omega)
      cases vs with
      | nil =>
          -- the last bit: the parity is checked, and the stop bits are awaited
          have hlow : (if d = 0 then !v else v) = true := by
            have hlevel := hleft.level
            cases hl : (if d = 0 then !v else v) with
            | true => rfl
            | false => simp [hl] at hlevel
          have hspace : ¬(v = true ∧ d = 0) := by
            rintro ⟨rfl, rfl⟩
            simp at hlow
          have hfits : ¬((r.parity = .even ∧ (s.parity ^^ v)) ∨
              (r.parity = .odd ∧ !(s.parity ^^ v))) := by
            rw [List.foldl_cons, List.foldl_nil] at hparity
            rintro (⟨heven, hodd⟩ | ⟨hodd, heven⟩)
            · rw [heven] at hparity
              rw [show (s.parity ^^ v) = false from hparity] at hodd
              cases hodd
            · rw [hodd] at hparity
              rw [show (s.parity ^^ v) = true from hparity] at heven
              cases heven
          simp only [List.length_singleton] at hcount
          rw [if_pos hcount, if_neg hfits, if_neg hspace, hlow] at hround
          rw [hlow] at hleft
          obtain ⟨b₀, h₀, rfl⟩ := hb₁
          exact ⟨d, o, j, _, SerialSteps.round hgo' hround, hleft, ⟨b₀, h₀, rfl⟩⟩
      | cons v' vs =>
          have hmore : ¬(s.received + 1) % (r.bitsInByte + parityBits r) = 0 := by
            intro hzero
            simp only [List.length_cons] at hcount hlen
            have hdvd := Nat.dvd_of_mod_eq_zero hcount
            rw [show s.received + (vs.length + 1 + 1) = s.received + 1 + (vs.length + 1) by omega]
              at hdvd
            have := Nat.le_of_dvd (by omega)
              ((Nat.dvd_add_right (Nat.dvd_of_mod_eq_zero hzero)).mp hdvd)
            omega
          rw [if_neg hmore] at hround
          simp only [List.length_cons] at hcount hlen hgo
          obtain ⟨d', o', j', b', hsteps, hleft', hb'⟩ :=
            ih (s := { s with delta := d, origdelta := o, received := s.received + 1,
                              code := pushBits [v] s.code, parity := s.parity ^^ v,
                              space := if d = 0 then !v else v })
              (by simp) (by simp only [List.length_cons]; omega)
              (by
                simp only [List.length_cons]
                rw [← hcount]
                congr 1
                omega)
              (by simp only [List.length_cons]; omega) hstop hparity hleft hb₁
              (fun hrest => (hopen hrest).trans (by simp only; omega))
              (fun q hall => (hone q hall).trans (by simp only; omega))
          refine ⟨d', o', j', b', ?_, hleft', hb'⟩
          have htrans := (SerialSteps.round hgo' hround).trans hsteps
          have hreceived : s.received + 1 + (v' :: vs).length = s.received + (v :: v' :: vs).length := by
            simp only [List.length_cons]
            omega
          rw [hreceived] at htrans
          exact htrans

theorem frameBits_parity (r : IrRemote) (w : IrCode) :
    ParityFits r.parity ((frameBits r w).foldl xor false) := by
  rw [frameBits, List.foldl_append, ← oddOnes]
  generalize wordBits r.bitsInByte w = bs
  cases hp : r.parity with
  | none => exact trivial
  | even =>
      show (oddOnes bs ^^ oddOnes bs) = false
      exact Bool.xor_self _
  | odd =>
      show (oddOnes bs ^^ !oddOnes bs) = true
      cases oddOnes bs <;> rfl

/-- The rounds a frame takes. -/
def frameRounds (r : IrRemote) : ℕ := r.bitsInByte + parityBits r + 2

/-- A frame is read and its word put behind those before it. -/
theorem serial_frame (hu : Uart hw r) (hf : SerialFeed ws xs ds maxSpace) {w : IrCode} {idle : ℤ}
    {k : ℕ} (hidle : 0 ≤ idle) (hword : w &&& genMask r.bitsInByte = w)
    (hcode : s.code.toNat < 2 ^ k) (hk : k + (r.bitsInByte + parityBits r) ≤ 64)
    (hlong : ∀ p ∈ rest, bitTime r ≤ p.len) (hoff : StartsOff false rest)
    (hcount : s.received % (r.bitsInByte + parityBits r) = 0)
    (hgo : s.received + (r.bitsInByte + parityBits r) ≤ bits)
    (hdelta : s.delta = 0) (hsp : s.space = false) (hstop : s.stopBit = false)
    (hparity : s.parity = false)
    (hs : Remains xs false 0 i (serialFrame r w idle ++ rest))
    (hb : b.Past ws ds i (bitTime r) 0)
    (hopen : rest = [] → bits ≤ s.received + r.bitsInByte + parityBits r) :
    ∃ o j b', SerialSteps hw r bits maxSpace maxPulse (frameRounds r) s b
        { s with origdelta := o, received := s.received + (r.bitsInByte + parityBits r),
                 code := s.code <<< r.bitsInByte ||| w, gapDelta := idleLeft hw r idle } b' ∧
      Remains xs false 0 j rest ∧ b'.Past ws ds j (bitTime r) 0 := by
  have hbit := hu.bitTime_pos
  have hbyte := hu.bitsInByte_pos
  have hge := hu.stopTime_ge
  have hlen := length_frameBits r w
  have hpos : Positive rest := fun p hp => hbit.trans_le (hlong p hp)
  have hne : frameBits r w ≠ [] := by
    rw [← List.length_pos_iff, hlen]
    omega
  set ps := (frameBits r w).map (bitPart (bitTime r)) ++ space (stopTime r + idle) :: rest with hps
  have hlongBits : ∀ p ∈ ps, bitTime r ≤ p.len := by
    intro p hp
    rw [hps, List.mem_append, List.mem_cons] at hp
    rcases hp with hp | rfl | hp
    · obtain ⟨u, -, rfl⟩ := List.mem_map.mp hp
      exact le_refl _
    · simp only
      omega
    · exact hlong p hp
  have hframe : serialFrame r w idle ++ rest = pulse (bitTime r) :: ps := by
    rw [serialFrame, hps, List.cons_append, List.append_assoc]
    rfl
  rw [hframe] at hs
  obtain ⟨d₁, o₁, j₁, low, b₁, hstart, hs₁, hb₁⟩ :=
    serial_start maxPulse bits hu hf
      (fun p hp => hbit.trans_le (hlongBits p hp)) hlongBits hsp hstop (by omega)
      (by rwa [hdelta]) hb
      ⟨space (stopTime r + idle), List.mem_append_right _ List.mem_cons_self, rfl⟩
  obtain ⟨d₂, o₂, j₂, b₂, hbits, hs₂, hb₂⟩ :=
    serial_bits maxPulse bits
      (s := { s with delta := d₁, origdelta := o₁, space := low }) hu hf hne hidle hpos hlen.le
      (by rw [hlen, Nat.add_mod_right, hcount]) (by rw [hlen]; exact hgo) hstop
      (by rw [hparity]; exact frameBits_parity r w) hs₁ hb₁ hopen hoff
  obtain ⟨o₃, j₃, b₃, hend, hs₃, hb₃⟩ :=
    serial_stop maxPulse bits
      (s := { s with delta := d₂, origdelta := o₂,
                     received := s.received + (frameBits r w).length,
                     code := serialByte r (pushBits (frameBits r w) s.code) (parityBits r),
                     parity := false, stopBit := true, space := true })
      hu hf hidle hpos hoff rfl rfl hs₂ hb₂ (fun hrest => (hopen hrest).trans (by simp only; omega))
  refine ⟨o₃, j₃, b₃, ?_, hs₃, hb₃⟩
  have hsteps := (hstart.trans hbits).trans hend
  have hrounds : 1 + (r.bitsInByte + parityBits r + 1) = frameRounds r := by
    rw [frameRounds]
    omega
  simp only [hlen, hrounds, serialByte_pushBits hcode hk hword] at hsteps
  obtain ⟨received, sp, stopBit, parity, delta, origdelta, gapDelta, code⟩ := s
  obtain rfl : delta = 0 := hdelta
  obtain rfl : sp = false := hsp
  obtain rfl : stopBit = false := hstop
  obtain rfl : parity = false := hparity
  exact hsteps

theorem serialParts_long (hu : Uart hw r) {fs : List (IrCode × ℤ)} (hidle : ∀ f ∈ fs, 0 ≤ f.2) :
    ∀ p ∈ serialParts r fs, bitTime r ≤ p.len := by
  have hge := hu.stopTime_ge
  induction fs with
  | nil => simp [serialParts]
  | cons f fs ih =>
      intro p hp
      have hf := hidle f List.mem_cons_self
      rw [serialParts, List.mem_append, serialFrame, List.mem_cons, List.mem_append,
        List.mem_singleton] at hp
      rcases hp with (rfl | hp | rfl) | hp
      · exact le_refl _
      · obtain ⟨u, -, rfl⟩ := List.mem_map.mp hp
        exact le_refl _
      · simp only
        omega
      · exact ih (fun f' hf' => hidle f' (List.mem_cons_of_mem _ hf')) p hp

theorem serialParts_startsOff (r : IrRemote) (fs : List (IrCode × ℤ)) :
    StartsOff false (serialParts r fs) := by
  cases fs with
  | nil => exact startsOff_nil _
  | cons f fs => simp [serialParts, serialFrame]

/-- The idle time after the last word. -/
def lastIdle (g : ℤ) : List (IrCode × ℤ) → ℤ
  | [] => g
  | [f] => f.2
  | _ :: fs => lastIdle g fs

theorem shiftLeft_or_lt {c w : IrCode} {k n : ℕ} (hc : c.toNat < 2 ^ k)
    (hw : w &&& genMask n = w) : (c <<< n ||| w).toNat < 2 ^ (k + n) := by
  refine Nat.lt_pow_two_of_testBit _ fun j hj => ?_
  by_cases hlt : j < 64
  · have hshift : c.getLsbD (j - n) = false :=
      Nat.testBit_lt_two_pow (lt_of_lt_of_le hc (Nat.pow_le_pow_right (by decide) (by omega)))
    have hword : w.getLsbD j = false := by
      rw [← hw, BitVec.getLsbD_and, genMask_getLsbD hlt, decide_eq_false (by omega),
        Bool.and_false]
    rw [← BitVec.getLsbD, BitVec.getLsbD_or, BitVec.getLsbD_shiftLeft, hshift, hword,
      Bool.and_false, Bool.or_false]
  · rw [← BitVec.getLsbD, BitVec.getLsbD_of_ge _ _ (by omega)]

/-- All frames are read. -/
theorem serial_frames (hu : Uart hw r) (hf : SerialFeed ws xs ds maxSpace)
    {fs : List (IrCode × ℤ)} {k : ℕ} (hidle : ∀ f ∈ fs, 0 ≤ f.2)
    (hword : ∀ f ∈ fs, f.1 &&& genMask r.bitsInByte = f.1) (hcode : s.code.toNat < 2 ^ k)
    (hk : k + fs.length * r.bitsInByte + parityBits r ≤ 64)
    (hcount : s.received % (r.bitsInByte + parityBits r) = 0)
    (hbits : bits = s.received + fs.length * (r.bitsInByte + parityBits r))
    (hdelta : s.delta = 0) (hsp : s.space = false) (hstop : s.stopBit = false)
    (hparity : s.parity = false) (hs : Remains xs false 0 i (serialParts r fs))
    (hb : b.Past ws ds i (bitTime r) 0) :
    ∃ o j b', SerialSteps hw r bits maxSpace maxPulse (fs.length * frameRounds r) s b
        { s with origdelta := o, received := bits,
                 code := joinWords r.bitsInByte (fs.map Prod.fst) s.code,
                 gapDelta := if fs = [] then s.gapDelta else idleLeft hw r (lastIdle 0 fs) } b' ∧
      Remains xs false 0 j [] ∧ b'.Past ws ds j (bitTime r) 0 := by
  induction fs generalizing s b i k with
  | nil =>
      obtain ⟨received, sp, stopBit, parity, delta, origdelta, gapDelta, code⟩ := s
      simp only [List.length_nil, Nat.zero_mul, Nat.add_zero] at hbits
      subst hbits
      refine ⟨origdelta, i, b, ?_, hs, hb⟩
      simp only [List.length_nil, Nat.zero_mul, if_true, List.map_nil, joinWords]
      exact fun fuel => rfl
  | cons f fs ih =>
      have hlater : ∀ f' ∈ fs, f' ∈ f :: fs := fun f' hf' => List.mem_cons_of_mem _ hf'
      have hmul : (fs.length + 1) * r.bitsInByte = fs.length * r.bitsInByte + r.bitsInByte :=
        Nat.succ_mul _ _
      have hmul' : (fs.length + 1) * (r.bitsInByte + parityBits r) =
          fs.length * (r.bitsInByte + parityBits r) + (r.bitsInByte + parityBits r) :=
        Nat.succ_mul _ _
      have hmul'' : (fs.length + 1) * frameRounds r = fs.length * frameRounds r + frameRounds r :=
        Nat.succ_mul _ _
      simp only [List.length_cons, hmul, hmul'] at hk hbits
      have hopen : serialParts r fs = [] → bits ≤ s.received + r.bitsInByte + parityBits r := by
        intro hnil
        cases fs with
        | nil => simp only [List.length_nil, Nat.zero_mul] at hbits; omega
        | cons f' fs => simp [serialParts, serialFrame] at hnil
      obtain ⟨o₁, j₁, b₁, hframe, hs₁, hb₁⟩ :=
        serial_frame maxPulse bits hu hf (hidle f List.mem_cons_self)
          (hword f List.mem_cons_self) hcode (by omega)
          (serialParts_long hu fun f' hf' => hidle f' (hlater f' hf')) (serialParts_startsOff r fs)
          hcount (by omega) hdelta hsp hstop hparity hs hb hopen
      obtain ⟨o₂, j₂, b₂, hrest, hs₂, hb₂⟩ :=
        ih (s := { s with origdelta := o₁, received := s.received + (r.bitsInByte + parityBits r),
                          code := s.code <<< r.bitsInByte ||| f.1,
                          gapDelta := idleLeft hw r f.2 })
          (k := k + r.bitsInByte) (fun f' hf' => hidle f' (hlater f' hf'))
          (fun f' hf' => hword f' (hlater f' hf'))
          (shiftLeft_or_lt hcode (hword f List.mem_cons_self)) (by omega)
          (by simp only; rw [Nat.add_mod_right, hcount]) (by simp only; omega) hdelta hsp hstop
          hparity hs₁ hb₁
      refine ⟨o₂, j₂, b₂, ?_, hs₂, hb₂⟩
      have hsteps := hframe.trans hrest
      have hgap : (if fs = [] then idleLeft hw r f.2 else idleLeft hw r (lastIdle 0 fs)) =
          idleLeft hw r (lastIdle 0 (f :: fs)) := by
        cases fs with
        | nil => rfl
        | cons f' fs => rfl
      simp only [hgap] at hsteps
      rw [List.length_cons, hmul'', if_neg (List.cons_ne_nil f fs)]
      exact hsteps

end Steps

/-! ### The segment -/

section Segment

variable {hw : Hardware} {r : IrRemote} {ws : List ℕ} {xs ds : List Part} {maxSpace : ℤ}
  {fs : List (IrCode × ℤ)} {b : RBuf}

theorem RBuf.AtWord.ungetDelta {i : ℕ} {s : ℤ} (h : b.AtWord ws (i + 1) s) {g : ℤ}
    (hg : Representable (space g)) :
    (ungetRecBufferDelta b g).AtWord (ws.set i g.toNat) i (s - g) := by
  have hrptr := h.rptr
  have hle := h.rptr_le
  have hidx : b.rptr - 1 = i := by omega
  have hlt : i < b.data.length := by omega
  have hvalue : sampleValue g.toNat = g := sampleValue_word hg
  have hgood : deliverable g.toNat = true := by
    have hgood := hg.good
    rw [deliverable, Bool.and_eq_true, bne_iff_ne, Bool.not_eq_true']
    exact hgood
  refine ⟨⟨?_, ?_, ?_⟩, hidx, ?_, h.pendingp, h.pendings, ?_⟩
  · rw [← h.words, List.set_append_left _ _ hlt, ungetRecBufferDelta, hidx]
  · intro w hw
    rcases List.mem_or_eq_of_mem_set hw with hw | rfl
    · exact h.ready w hw
    · exact hgood
  · rw [List.length_set]
    exact h.room
  · simp only [ungetRecBufferDelta, List.length_set]
    omega
  · simp only [ungetRecBufferDelta, hvalue, h.sum]

theorem joinWords_lt {n k : ℕ} {vs : List IrCode} {c : IrCode}
    (hv : ∀ w ∈ vs, w &&& genMask n = w) (hc : c.toNat < 2 ^ k) :
    (joinWords n vs c).toNat < 2 ^ (k + vs.length * n) := by
  induction vs generalizing c k with
  | nil => simpa [joinWords] using hc
  | cons w vs ih =>
      have hlt := ih (fun w' hw' => hv w' (List.mem_cons_of_mem _ hw'))
        (shiftLeft_or_lt hc (hv w List.mem_cons_self))
      have hexp : k + n + vs.length * n = k + (vs.length + 1) * n := by
        rw [Nat.succ_mul]
        omega
      rw [List.length_cons, ← hexp]
      exact hlt

/-- The rest of the last space that is given back after the last word. -/
def spaceLeft (hw : Hardware) (r : IrRemote) (fs : List (IrCode × ℤ)) : ℤ :=
  if fs = [] then 0 else idleLeft hw r (lastIdle 0 fs)

/-- The bits of the segment, those of the parity counted in. -/
theorem serialBits_eq (hu : Uart hw r) (hbits : r.bits = fs.length * r.bitsInByte) :
    (if r.parity = .none then r.bits else r.bits + r.bits / r.bitsInByte) =
      fs.length * (r.bitsInByte + parityBits r) := by
  have hdiv : r.bits / r.bitsInByte = fs.length := by
    rw [hbits, Nat.mul_div_cancel _ hu.bitsInByte_pos]
  rw [hdiv, Nat.mul_add, ← hbits, parityBits]
  split
  · rw [Nat.mul_zero, Nat.add_zero]
  · rw [Nat.mul_one]

/-- The longest space the decoder waits for is the longest run. -/
theorem maxSpace_eq (hu : Uart hw r) :
    r.sone * r.bitsInByte + stopTime r + (if r.parity = .none then 0 else r.sone) =
      longestRun r := by
  rw [longestRun, hu.sone, parityBits]
  split
  · simp
  · push_cast
    rw [Int.mul_add, Int.mul_one]
    omega

/-- The decoder starts with a start bit pending. -/
theorem serialRun_eq (hu : Uart hw r) (hbits : r.bits = fs.length * r.bitsInByte) :
    ∃ maxPulse, serialRun hw r r.bits b =
      serialRounds hw r (fs.length * (r.bitsInByte + parityBits r)) (parityBits r) (bitTime r)
        (stopTime r) (longestRun r) maxPulse
        (serialFuel (fs.length * (r.bitsInByte + parityBits r)) (r.bitsInByte + parityBits r)
          (longestRun r) b)
        { received := 0, space := false, stopBit := false, parity := false, delta := 0,
          origdelta := 0, gapDelta := 0, code := 0 } { b with pendingp := bitTime r } := by
  have hspace : (bitTime r == 0) = false := beq_false_of_ne hu.bitTime_pos.ne'
  refine ⟨r.pzero * (1 + r.bitsInByte) + (if r.parity = .none then 0 else r.pzero), ?_⟩
  have heq : serialRun hw r r.bits b = serialRounds hw r
      (if r.parity = .none then r.bits else r.bits + r.bits / r.bitsInByte) (parityBits r)
      (bitTime r) (stopTime r)
      (r.sone * r.bitsInByte + stopTime r + (if r.parity = .none then 0 else r.sone))
      (r.pzero * (1 + r.bitsInByte) + (if r.parity = .none then 0 else r.pzero))
      (serialFuel (if r.parity = .none then r.bits else r.bits + r.bits / r.bitsInByte)
        (r.bitsInByte + parityBits r)
        (r.sone * r.bitsInByte + stopTime r + (if r.parity = .none then 0 else r.sone)) b)
      { received := 0, space := bitTime r == 0, stopBit := false, parity := false, delta := 0,
        origdelta := 0, gapDelta := 0, code := 0 } { b with pendingp := bitTime r } := rfl
  rw [heq, hspace, maxSpace_eq hu, serialBits_eq hu hbits]

/-- The segment is read, and the rest of the last space goes back over the last
word that was delivered. -/
theorem getSerial_ok (hu : Uart hw r) (hbits : r.bits = fs.length * r.bitsInByte)
    (hidle : ∀ f ∈ fs, 0 ≤ f.2) (hword : ∀ f ∈ fs, f.1 &&& genMask r.bitsInByte = f.1)
    (hf : SerialFeed ws (runs (serialParts r fs)) ds (longestRun r))
    (hleft : spaceLeft hw r fs ≠ 0 → Representable (space (spaceLeft hw r fs)))
    (hb : b.AtWord ws 1 0) :
    ∃ b', getSerial hw r r.bits b = (joinWords r.bitsInByte (fs.map Prod.fst) 0, b') ∧
      if spaceLeft hw r fs = 0 then b'.AtWord ws (ds.length + 1) (ds.map Part.len).sum
      else b'.AtWord (ws.set ds.length (spaceLeft hw r fs).toNat) ds.length
        ((ds.map Part.len).sum - spaceLeft hw r fs) := by
  have hbyte := hu.bitsInByte_pos
  have hle := hu.bits_le
  have hpar : parityBits r ≤ 1 := by
    unfold parityBits
    split
    · exact Nat.zero_le 1
    · exact le_refl 1
  obtain ⟨maxPulse, hrun⟩ := serialRun_eq (b := b) hu hbits
  have hstart : ({ b with pendingp := bitTime r } : RBuf).Past ws ds 0 (bitTime r) 0 := by
    refine ⟨b, by simpa using hb, ?_⟩
    rw [← hb.pendings]
  obtain ⟨o, j, b₁, hsteps, hs₁, hb₁⟩ :=
    serial_frames maxPulse (fs.length * (r.bitsInByte + parityBits r))
      (s := { received := 0, space := false, stopBit := false, parity := false, delta := 0,
              origdelta := 0, gapDelta := 0, code := 0 })
      (k := 0) hu hf hidle hword (by decide) (by omega) (Nat.zero_mod _) (by simp) rfl rfl rfl rfl
      (.inl ⟨rfl, rfl, serialParts_startsOff r fs⟩) hstart
  -- the rounds are enough
  have hrounds : ∃ fuel, serialFuel (fs.length * (r.bitsInByte + parityBits r))
      (r.bitsInByte + parityBits r) (longestRun r) b = fuel + 1 + fs.length * frameRounds r := by
    have hwords : fs.length ≤ fs.length * (r.bitsInByte + parityBits r) :=
      Nat.le_mul_of_pos_right _ (by omega)
    have hframe : fs.length * frameRounds r =
        fs.length * (r.bitsInByte + parityBits r) + fs.length * 2 := by
      rw [frameRounds, Nat.mul_add]
    refine ⟨serialFuel (fs.length * (r.bitsInByte + parityBits r)) (r.bitsInByte + parityBits r)
      (longestRun r) b - (1 + fs.length * frameRounds r), ?_⟩
    simp only [serialFuel, rbufSize]
    omega
  obtain ⟨fuel, hfuel⟩ := hrounds
  rw [hfuel, hsteps (fuel + 1), serialRounds, if_neg (by simp)] at hrun
  -- all that is delivered has been read
  have hend : ds.length ≤ j := by
    have hall : (runs (serialParts r fs)).drop j = [] := by
      rcases hs₁ with ⟨-, hnil, -⟩ | ⟨hpos, -⟩
      · exact hnil.symm
      · exact absurd hpos (lt_irrefl 0)
    have hlen := List.drop_eq_nil_iff.mp hall
    rcases hf.samples with heq | heq
    · rwa [heq] at hlen
    · rw [heq, List.length_append] at hlen
      omega
  obtain ⟨b₀, h₀, rfl⟩ := hb₁
  rw [Nat.min_eq_right hend, List.take_of_length_le hend] at h₀
  rw [getSerial_eq, readSerial, hrun]
  refine ⟨_, rfl, ?_⟩
  simp only [serialFinish]
  split
  · next hzero =>
      have hgap : (if fs = [] then (0 : ℤ) else idleLeft hw r (lastIdle 0 fs)) = 0 := hzero
      simp only [hgap, ne_eq, not_true_eq_false, if_false]
      exact ⟨⟨h₀.words, h₀.ready, h₀.room⟩, h₀.rptr, h₀.rptr_le, rfl, rfl, h₀.sum⟩
  · next hne =>
      have hgap : (if fs = [] then (0 : ℤ) else idleLeft hw r (lastIdle 0 fs)) =
        spaceLeft hw r fs := rfl
      simp only [hgap, ne_eq, hne, not_false_eq_true, if_true]
      have h₁ := h₀.ungetDelta (hleft hne)
      exact ⟨⟨h₁.words, h₁.ready, h₁.room⟩, h₁.rptr, h₁.rptr_le, rfl, rfl, h₁.sum⟩

end Segment

/-! ### The signal -/

section Signal

variable {hw : Hardware} {r : IrRemote} {ws : List ℕ} {xs ds : List Part}
  {fs : List (IrCode × ℤ)} {b : RBuf}

/-- The rest of the last space passes the test of the gap, or there is none. -/
def LeftPasses (hw : Hardware) (r : IrRemote) (fs : List (IrCode × ℤ)) (ds : List Part) : Prop :=
  spaceLeft hw r fs = 0 ∨ expectAtLeast hw r (spaceLeft hw r fs)
    (signalGap r ((ds.map Part.len).sum - spaceLeft hw r fs)) = true

/-- The word over which the rest of the last space goes is read as the gap. -/
theorem getGap_serial
    (hf : SerialFeed ws xs ds (longestRun r))
    (hleft : spaceLeft hw r fs ≠ 0 → Representable (space (spaceLeft hw r fs)))
    (hb : if spaceLeft hw r fs = 0 then b.AtWord ws (ds.length + 1) (ds.map Part.len).sum
      else b.AtWord (ws.set ds.length (spaceLeft hw r fs).toNat) ds.length
        ((ds.map Part.len).sum - spaceLeft hw r fs)) :
    b.pendingp = 0 ∧ ((getGap hw r b (signalGap r b.sum)).1 = true ↔ LeftPasses hw r fs ds) := by
  obtain ⟨sync, hws⟩ := hf.words
  have hlen : ws.length = ds.length + 1 := by rw [hws, List.length_cons, List.length_map]
  unfold LeftPasses
  by_cases hzero : spaceLeft hw r fs = 0
  · rw [if_pos hzero] at hb
    have hgap := (hb.getGap hw r (signalGap r b.sum)).1
    rw [List.drop_eq_nil_of_le (by omega)] at hgap
    refine ⟨hb.pendingp, ?_⟩
    rw [hgap]
    simp [gapFollows, hzero]
  · rw [if_neg hzero] at hb
    have hrep := hleft hzero
    have hgap := (hb.getGap hw r (signalGap r b.sum)).1
    have hdrop : (ws.set ds.length (spaceLeft hw r fs).toNat).drop ds.length =
        [(spaceLeft hw r fs).toNat] := by
      rw [List.drop_eq_getElem_cons (by rw [List.length_set]; omega), List.getElem_set_self,
        List.drop_eq_nil_of_le (by rw [List.length_set]; omega)]
    have hspace : isSpace (spaceLeft hw r fs).toNat = true := by
      have hpulse : isPulse (spaceLeft hw r fs).toNat = false := isPulse_word hrep
      rw [isSpace, hpulse]
      rfl
    have hcast : ((spaceLeft hw r fs).toNat : ℤ) = spaceLeft hw r fs :=
      Int.toNat_of_nonneg hrep.1.le
    rw [hdrop, gapFollows, hspace, Bool.true_and, hcast, hb.sum] at hgap
    refine ⟨hb.pendingp, ?_⟩
    rw [hb.sum, hgap]
    exact ⟨.inr, fun h => h.resolve_left hzero⟩

/-- The gap after the signal is tested against the rest of the last space. -/
theorem decodeBits_serial (hu : Uart hw r) (hbits : r.bits = fs.length * r.bitsInByte)
    (hidle : ∀ f ∈ fs, 0 ≤ f.2) (hword : ∀ f ∈ fs, f.1 &&& genMask r.bitsInByte = f.1)
    (hf : SerialFeed ws (runs (serialParts r fs)) ds (longestRun r))
    (hleft : spaceLeft hw r fs ≠ 0 → Representable (space (spaceLeft hw r fs)))
    (hb : b.AtWord ws 1 0) :
    (decodeBits hw r false b).1 = some (0, joinWords r.bitsInByte (fs.map Prod.fst) 0, 0) ↔
      LeftPasses hw r fs ds := by
  obtain ⟨b', hdata, hb'⟩ := getSerial_ok hu hbits hidle hword hf hleft hb
  have hprotocol : isSerial r = true := hu.protocol
  have hrcmm : isRcmm r = false := protocolIs_unique (p := serial) hprotocol (by decide)
  have hgrundig : isGrundig r = false := protocolIs_unique (p := serial) hprotocol (by decide)
  have hget : getData hw r r.bits r.preDataBits b =
      (joinWords r.bitsInByte (fs.map Prod.fst) 0, r, b') := by
    rw [getData, hrcmm, hgrundig, hprotocol, if_neg Bool.false_ne_true, if_neg Bool.false_ne_true,
      if_pos rfl, hdata]
  have hcode : joinWords r.bitsInByte (fs.map Prod.fst) 0 ≠ noCode := by
    have hlt : (joinWords r.bitsInByte (fs.map Prod.fst) 0).toNat <
        2 ^ (0 + (fs.map Prod.fst).length * r.bitsInByte) := joinWords_lt
      (by
        intro w hw
        obtain ⟨f, hf, rfl⟩ := List.mem_map.mp hw
        exact hword f hf) (by decide)
    rw [List.length_map, ← hbits, Nat.zero_add] at hlt
    intro heq
    have hle := Nat.pow_le_pow_right (n := 2) (by decide) hu.bits_le
    rw [heq] at hlt
    have hval : (noCode : IrCode).toNat = 2 ^ 64 - 1 := by decide
    rw [hval] at hlt
    omega
  have hpre : hasPre r = false := by simp [hasPre, hu.noPre]
  have hpost : hasPost r = false := by simp [hasPost, hu.noPost]
  have hlead : getLead hw r b = (true, b) := by simp [getLead, hu.noLead]
  obtain ⟨hpend, hgap⟩ := getGap_serial hf hleft hb'
  have htrail : getTrail hw r b' = (true, b') := by simp [getTrail, hu.noTrail, hpend]
  have hneed : (if isConst r = true then constGap r b' else minGap r) = signalGap r b'.sum := rfl
  unfold decodeBits
  simp only [hlead, hpre, hget, hcode, hpost, htrail, hu.noFoot, hrcmm, hneed, Bool.not_true,
    Bool.false_eq_true, if_false, false_and, Bool.false_and]
  rw [← hgap]
  cases hok : getGap hw r b' (signalGap r b'.sum) with
  | mk ok b₂ => cases ok <;> simp

/-- The number of ones at the end. -/
def onesAtEnd : List Bool → ℕ
  | [] => 0
  | v :: vs => if (v :: vs).all id then vs.length + 1 else onesAtEnd vs

theorem onesAtEnd_le (vs : List Bool) : onesAtEnd vs ≤ vs.length := by
  induction vs with
  | nil => exact le_refl 0
  | cons v vs ih =>
      rw [onesAtEnd, List.length_cons]
      split
      · exact le_refl _
      · omega

/-- Bits end low for as long as they end with ones. -/
theorem lowEnd_bits (t : ℤ) (vs : List Bool) (ps : List Part) (x : ℤ) :
    lowEnd (ps ++ pulse x :: vs.map (bitPart t)) = t * onesAtEnd vs := by
  have hbits : lowEnd (vs.map (bitPart t)) = t * onesAtEnd vs := by
    induction vs with
    | nil => simp [lowEnd, onesAtEnd]
    | cons v vs ih =>
        have hall : ((v :: vs).map (bitPart t)).all (fun q => !q.high) = (v :: vs).all id := by
          rw [List.all_map]
          congr 1
          funext u
          simp [bitPart]
        rw [List.map_cons] at hall ⊢
        rw [lowEnd, onesAtEnd, hall, ih]
        split
        · next hones =>
            have hvs : onesAtEnd vs = vs.length := by
              cases vs with
              | nil => rfl
              | cons u us =>
                  rw [List.all_cons, Bool.and_eq_true] at hones
                  rw [onesAtEnd, if_pos hones.2, List.length_cons]
            rw [hvs]
            push_cast
            rw [Int.mul_add, Int.mul_one, Int.add_comm]
            rfl
        · rfl
  induction ps with
  | nil => rw [List.nil_append, lowEnd, if_neg (by simp), hbits]
  | cons p ps ih => rw [List.cons_append, lowEnd, if_neg (by simp), ih]

theorem serialParts_append (r : IrRemote) (fs gs : List (IrCode × ℤ)) :
    serialParts r (fs ++ gs) = serialParts r fs ++ serialParts r gs := by
  induction fs with
  | nil => rfl
  | cons f fs ih => rw [List.cons_append, serialParts, serialParts, ih, List.append_assoc]

/-- The samples of a signal, but for the idle time after its last word. -/
theorem serialParts_concat (r : IrRemote) (fs : List (IrCode × ℤ)) (w : IrCode) :
    ∃ front, ∀ idle, runs (serialParts r (fs ++ [(w, idle)])) =
      front ++ [space (bitTime r * onesAtEnd (frameBits r w) + (stopTime r + idle))] := by
  obtain ⟨front, hruns⟩ := runs_concat (serialParts r fs ++
    pulse (bitTime r) :: (frameBits r w).map (bitPart (bitTime r)))
  refine ⟨front, fun idle => ?_⟩
  have hparts : serialParts r (fs ++ [(w, idle)]) = (serialParts r fs ++
      pulse (bitTime r) :: (frameBits r w).map (bitPart (bitTime r))) ++
        [space (stopTime r + idle)] := by
    simp [serialParts_append, serialParts, serialFrame]
  rw [hparts, hruns, lowEnd_bits]

theorem lastIdle_concat (fs : List (IrCode × ℤ)) (f : IrCode × ℤ) :
    lastIdle 0 (fs ++ [f]) = f.2 := by
  induction fs with
  | nil => rfl
  | cons g fs ih =>
      cases fs with
      | nil => rfl
      | cons g' fs => exact ih

theorem spaceLeft_concat (hw : Hardware) (r : IrRemote) (fs : List (IrCode × ℤ))
    (f : IrCode × ℤ) : spaceLeft hw r (fs ++ [f]) = idleLeft hw r f.2 := by
  rw [spaceLeft, if_neg (List.append_ne_nil_of_right_ne_nil fs (List.cons_ne_nil f [])),
    lastIdle_concat]

/-- The rest that the decoder makes up when the last space never ends: it takes it
for the longest run. -/
def madeUp (r : IrRemote) (w : IrCode) : ℤ :=
  bitTime r * (r.bitsInByte + parityBits r - onesAtEnd (frameBits r w) : ℕ)

/-- The synchronisation space is read. -/
theorem syncRecBuffer_atWord (hw : Hardware) {last : LastRemote} {sync : ℤ} {s : ℤ}
    (hsync : Representable (space sync)) (hpass : SyncPasses r last sync)
    (hb : b.AtWord (word (space sync) :: ds.map word) 0 s) :
    ∃ r' b', syncRecBuffer hw r last b = (sync, r', b') ∧ SameConfig r r' ∧
      b'.AtWord (word (space sync) :: ds.map word) 1 0 := by
  have hpos : 0 < sync := hsync.1
  have hpulse : isPulse (word (space sync)) = false := isPulse_word hsync
  obtain ⟨b₁, hread, h₁⟩ := hb.nextSpace 1000000 rfl hpulse
  rw [word_space hpos] at hread
  have hconfig := syncRecBuffer_sameConfig hw r last b
  have hreset : ({ b₁ with sum := 0 } : RBuf).AtWord (word (space sync) :: ds.map word) 1 0 :=
    ⟨⟨h₁.words, h₁.ready, h₁.room⟩, h₁.rptr, h₁.rptr_le, h₁.pendingp, h₁.pendings, rfl⟩
  refine ⟨(syncRecBuffer hw r last b).2.1, { b₁ with sum := 0 }, ?_, hconfig, hreset⟩
  cases hlast : last.get r with
  | none => simp [syncRecBuffer, hread, hpos.ne', hlast]
  | some l =>
      rcases hpass.2 l hlast with hrcmm | ⟨ht, h0, hle⟩
      · simp [syncRecBuffer, hread, hpos.ne', hlast, hrcmm]
      · have hloop : syncLoop hw l recSync sync b₁ = (sync, b₁) := by
          rw [recSync, syncLoop, if_pos (ht.expectAtLeast_of_le h0 hle)]
        by_cases hrcmm : isRcmm r = true
        · simp [syncRecBuffer, hread, hpos.ne', hlast, hrcmm]
        · simp [syncRecBuffer, hread, hpos.ne', hlast, hrcmm, hloop]

theorem serialParts_sameConfig {r' : IrRemote} (hr : SameConfig r r') (fs : List (IrCode × ℤ)) :
    serialParts r' fs = serialParts r fs := by
  obtain ⟨state, code, rfl⟩ := hr
  induction fs with
  | nil => rfl
  | cons f fs ih =>
      rw [serialParts, serialParts, ih]
      rfl

/-- A remote that differs in the state of its toggle mask only. -/
theorem Uart.sameConfig {r' : IrRemote} (h : Uart hw r) (hr : SameConfig r r') : Uart hw r' := by
  obtain ⟨state, code, rfl⟩ := hr
  exact ⟨h.protocol, h.bitTime_pos, h.bitsInByte, h.stopBits, h.pzero, h.sone, h.tolerant, h.narrow,
    h.noHeader, h.noLead, h.noTrail, h.noFoot, h.noPre, h.noPost, h.words, h.bits_le⟩

/-- What the decoder makes of the samples of a serial signal. -/
theorem receiveDecode_serial (last : LastRemote) (hu : Uart hw r)
    (hmode : pulseSpaceMode hw = true) {sync : ℤ} (now : ℕ) (hbits : r.bits = fs.length * r.bitsInByte)
    (hidle : ∀ f ∈ fs, 0 ≤ f.2) (hword : ∀ f ∈ fs, f.1 &&& genMask r.bitsInByte = f.1)
    (hf : SerialFeed (word (space sync) :: ds.map word) (runs (serialParts r fs)) ds (longestRun r))
    (hleft : spaceLeft hw r fs ≠ 0 → Representable (space (spaceLeft hw r fs)))
    (hsync : Representable (space sync)) (hpass : SyncPasses r last sync)
    (hb : b.Available (word (space sync) :: ds.map word)) :
    (receiveDecode hw r last now b).1.map (fun d => (d.pre, d.code, d.post)) =
        some (0, joinWords r.bitsInByte (fs.map Prod.fst) 0, 0) ↔
      LeftPasses hw r fs ds := by
  have hrewind : ({ rewindRecBuffer b with isBiphase := isBiphase r } : RBuf).AtWord
      (word (space sync) :: ds.map word) 0 0 :=
    ⟨⟨hb.words, hb.ready, hb.room⟩, rfl, Nat.zero_le _, rfl, rfl, rfl⟩
  obtain ⟨r', b₁, hsynced, hconfig, hb₁⟩ := syncRecBuffer_atWord hw hsync hpass hrewind
  have hu' := hu.sameConfig hconfig
  have hparts := serialParts_sameConfig hconfig fs
  have hne : sync ≠ 0 := by
    have := hsync.1
    simp only at this
    omega
  obtain ⟨state, code, hr'⟩ := hconfig
  have hrep : (hasRepeat r' && last == .same) = false := by
    rw [hr']
    exact hpass.1
  have hraw : isRaw r' = false := protocolIs_unique (p := serial) hu'.protocol (by decide)
  have hrec : hw.recMode ≠ modeLirccode := by
    intro he
    simp [pulseSpaceMode, he, modeLirccode, modeMode2, modePulse, modeRaw] at hmode
  have hheader : decodeHeader hw r' sync b₁ = (some false, b₁) := by
    simp [decodeHeader, hu'.noHeader]
  have hdecode : (receiveDecode hw r last now b).1.map (fun d => (d.pre, d.code, d.post)) =
      (decodeBits hw r' false b₁).1 := by
    unfold receiveDecode
    simp only [hmode, if_true, hsynced, hne, if_false, hrep, Bool.false_eq_true, hheader,
      decodeSignal, hraw, hrec]
    rcases decodeBits hw r' false b₁ with ⟨_ | x, r'', b₂⟩
    · rfl
    · rfl
  have hf' : SerialFeed (word (space sync) :: ds.map word) (runs (serialParts r' fs)) ds
      (longestRun r') := by
    rw [hparts, hr']
    exact hf
  have hmain := decodeBits_serial hu' (by rw [hr']; exact hbits) hidle (by rw [hr']; exact hword)
    hf' (by rw [hr']; exact hleft) hb₁
  rw [hdecode]
  rw [hr'] at hmain ⊢
  exact hmain

end Signal

/-! ### Signals that end with a long space or with a time-out -/

/-- The samples that reach the decoder: with a time-out the last space does not. -/
def serialSamples (r : IrRemote) (fs : List (IrCode × ℤ)) (timedOut : Bool) : List Part :=
  if timedOut then (runs (serialParts r fs)).dropLast else runs (serialParts r fs)

/-- The words of a UART come to the decoder, after a synchronisation space and
before a space of at least `max_gap` behind the last stop bits, or before nothing
more. -/
structure SerialTransfer (hw : Hardware) (r : IrRemote) (fs : List (IrCode × ℤ))
    (timedOut : Bool) (last : LastRemote) (b : RBuf) : Prop where
  mode : pulseSpaceMode hw = true
  bits : r.bits = fs.length * r.bitsInByte
  idle : ∀ f ∈ fs, 0 ≤ f.2
  within : ∀ f ∈ fs, f.1 &&& genMask r.bitsInByte = f.1
  long : timedOut = false → ∀ f ∈ fs.getLast?, maxGap r ≤ f.2
  samples : ∀ p ∈ serialSamples r fs timedOut, Representable p
  fed : ∃ sync, Representable (space sync) ∧ SyncPasses r last sync ∧
    b.Available (word (space sync) :: (serialSamples r fs timedOut).map word)

/-- What the decoder makes up after a time-out is nothing, or it passes the test of
the gap. -/
def OpenEndPasses (hw : Hardware) (r : IrRemote) (fs : List (IrCode × ℤ)) : Prop :=
  ∀ f ∈ fs.getLast?, madeUp r f.1 = 0 ∨ expectAtLeast hw r (madeUp r f.1)
    (signalGap r (((serialSamples r fs true).map Part.len).sum - madeUp r f.1)) = true

section Ends

variable {hw : Hardware} {r : IrRemote}

theorem Uart.madeUp_nonneg (h : Uart hw r) (w : IrCode) : 0 ≤ madeUp r w :=
  Int.mul_nonneg h.bitTime_pos.le (Int.natCast_nonneg _)

/-- With it the last space is the longest run. -/
theorem madeUp_eq (r : IrRemote) (w : IrCode) :
    bitTime r * onesAtEnd (frameBits r w) + (stopTime r + madeUp r w) = longestRun r := by
  have hle := onesAtEnd_le (frameBits r w)
  rw [length_frameBits] at hle
  have hsplit : (bitTime r * onesAtEnd (frameBits r w)) + madeUp r w =
      bitTime r * ((r.bitsInByte + parityBits r : ℕ) : ℤ) := by
    rw [madeUp, ← Int.mul_add]
    congr 1
    omega
  rw [longestRun]
  omega

/-- The decoder gives all of it back. -/
theorem Uart.idleLeft_madeUp (h : Uart hw r) (w : IrCode) :
    idleLeft hw r (madeUp r w) = madeUp r w := by
  have hbit := h.bitTime_pos
  unfold idleLeft
  split
  · next hpass =>
      by_contra hne
      have hcount : 1 ≤ r.bitsInByte + parityBits r - onesAtEnd (frameBits r w) := by
        by_contra hzero
        refine hne ?_
        rw [madeUp, show r.bitsInByte + parityBits r - onesAtEnd (frameBits r w) = 0 by omega]
        simp
      have hge : bitTime r ≤ madeUp r w := by
        have hmul := Int.mul_le_mul_of_nonneg_left (Int.ofNat_le.mpr hcount) hbit.le
        rw [madeUp]
        simpa using hmul
      rw [h.expect_longer (hbit.le.trans h.stopTime_ge) h.stopTime_le (by omega)] at hpass
      cases hpass
  · rfl

theorem Uart.madeUp_representable (h : Uart hw r) {w : IrCode} (hne : madeUp r w ≠ 0) :
    Representable (space (madeUp r w)) := by
  have hnonneg := h.madeUp_nonneg w
  have hbit : bitTime r ≤ 1000000 := by
    rw [bitTime]
    exact_mod_cast Nat.div_le_self _ _
  have hpar : parityBits r ≤ 1 := by
    unfold parityBits
    split
    · exact Nat.zero_le 1
    · exact le_refl 1
  have hbyte := h.bitsInByte.2
  have hcount : ((r.bitsInByte + parityBits r - onesAtEnd (frameBits r w) : ℕ) : ℤ) ≤ 10 := by
    exact_mod_cast (show _ ≤ 10 by omega)
  have hmul := Int.mul_le_mul hbit hcount (Int.natCast_nonneg _) (by decide)
  refine ⟨by simp only; omega, ?_⟩
  show madeUp r w < 2 ^ 24
  rw [madeUp]
  omega

theorem signalGap_le_of_nonneg {sum : ℤ} (hsum : 0 ≤ sum) : signalGap r sum ≤ maxGap r := by
  have hmin := minGap_nonneg r
  have hmax := minGap_le_maxGap r
  unfold signalGap
  split
  · split <;> omega
  · exact hmax

/-- A long space behind the last word passes. -/
theorem Uart.leftPasses_long (h : Uart hw r) {gs : List (IrCode × ℤ)} {w : IrCode} {idle : ℤ}
    (hidle : 0 ≤ idle) (hlong : maxGap r ≤ idle)
    (hrep : ∀ p ∈ runs (serialParts r (gs ++ [(w, idle)])), Representable p) :
    (spaceLeft hw r (gs ++ [(w, idle)]) ≠ 0 →
      Representable (space (spaceLeft hw r (gs ++ [(w, idle)])))) ∧
    LeftPasses hw r (gs ++ [(w, idle)]) (runs (serialParts r (gs ++ [(w, idle)]))) := by
  have hstop := h.stopTime_ge
  have hbit := h.bitTime_pos
  have hones : 0 ≤ bitTime r * (onesAtEnd (frameBits r w) : ℤ) :=
    Int.mul_nonneg hbit.le (Int.natCast_nonneg _)
  obtain ⟨front, hruns⟩ := serialParts_concat r gs w
  rw [hruns idle] at hrep ⊢
  have hlast : Representable (space (bitTime r * onesAtEnd (frameBits r w) + (stopTime r + idle))) :=
    hrep _ (List.mem_append_right _ (List.mem_singleton_self _))
  have hpos : Positive front := fun p hp => (hrep p (List.mem_append_left _ hp)).1
  have hsum := sum_nonneg hpos
  unfold LeftPasses
  rw [spaceLeft_concat, idleLeft]
  split
  · exact ⟨fun hne => absurd rfl hne, .inl rfl⟩
  · obtain ⟨-, hlt⟩ := hlast
    refine ⟨fun hne => ⟨by simp only; omega, by simp only at hlt ⊢; omega⟩, .inr ?_⟩
    refine h.tolerant.expectAtLeast_of_le (signalGap_nonneg r _) (le_trans ?_ hlong)
    refine signalGap_le_of_nonneg ?_
    rw [List.map_append, List.sum_append, List.map_singleton, List.sum_singleton]
    show 0 ≤ (front.map Part.len).sum +
      (bitTime r * onesAtEnd (frameBits r w) + (stopTime r + idle)) - idle
    omega

/-- The words of a UART are decoded if and only if what is made up after a time-out
passes. -/
theorem serial_decoded_iff (h : Uart hw r) {fs : List (IrCode × ℤ)} {timedOut : Bool}
    {last : LastRemote} {b : RBuf} (ht : SerialTransfer hw r fs timedOut last b) (now : ℕ) :
    (receiveDecode hw r last now b).1.map (fun d => (d.pre, d.code, d.post)) =
        some (0, joinWords r.bitsInByte (fs.map Prod.fst) 0, 0) ↔
      (timedOut = true → OpenEndPasses hw r fs) := by
  obtain ⟨sync, hsync, hpass, hb⟩ := ht.fed
  have hsamples := ht.samples
  rcases List.eq_nil_or_concat' fs with rfl | ⟨gs, ⟨w, idle⟩, rfl⟩
  · -- no words at all
    have hnil : serialSamples r [] timedOut = [] := by cases timedOut <;> rfl
    rw [hnil] at hb
    have hf : SerialFeed (word (space sync) :: ([] : List Part).map word)
        (runs (serialParts r [])) [] (longestRun r) := ⟨⟨_, rfl⟩, .inl rfl, by simp⟩
    have hmain := receiveDecode_serial last h ht.mode now ht.bits ht.idle ht.within hf
      (fun hne => absurd rfl hne) hsync hpass hb
    refine hmain.trans ⟨fun _ _ f hf => by simp at hf, fun _ => .inl rfl⟩
  · have hlast : (gs ++ [(w, idle)]).getLast? = some (w, idle) := by simp
    have hidle : 0 ≤ idle := ht.idle (w, idle) (by simp)
    cases timedOut with
    | false =>
        have hf : SerialFeed (word (space sync) :: (runs (serialParts r (gs ++ [(w, idle)]))).map word)
            (runs (serialParts r (gs ++ [(w, idle)]))) (runs (serialParts r (gs ++ [(w, idle)])))
            (longestRun r) := ⟨⟨_, rfl⟩, .inl rfl, hsamples⟩
        obtain ⟨hleft, hpasses⟩ :=
          h.leftPasses_long hidle (ht.long rfl (w, idle) hlast) hsamples
        have hmain := receiveDecode_serial last h ht.mode now ht.bits ht.idle ht.within
          hf hleft hsync hpass hb
        exact hmain.trans ⟨fun _ hfalse => absurd hfalse Bool.false_ne_true, fun _ => hpasses⟩
    | true =>
        -- the decoder sees a last space that is the longest run
        obtain ⟨front, hruns⟩ := serialParts_concat r gs w
        have hdelivered : serialSamples r (gs ++ [(w, idle)]) true = front := by
          rw [serialSamples, if_pos rfl, hruns idle, List.dropLast_concat]
        rw [hdelivered] at hb hsamples
        have hf : SerialFeed (word (space sync) :: front.map word)
            (runs (serialParts r (gs ++ [(w, madeUp r w)]))) front (longestRun r) := by
          refine ⟨⟨_, rfl⟩, .inr ?_, hsamples⟩
          rw [hruns, madeUp_eq]
        have hidle' : ∀ f ∈ gs ++ [(w, madeUp r w)], 0 ≤ f.2 := by
          intro f hf
          rcases List.mem_append.mp hf with hf | hf
          · exact ht.idle f (List.mem_append_left _ hf)
          · rw [List.mem_singleton.mp hf]
            exact h.madeUp_nonneg w
        have hwithin' : ∀ f ∈ gs ++ [(w, madeUp r w)], f.1 &&& genMask r.bitsInByte = f.1 := by
          intro f hf
          rcases List.mem_append.mp hf with hf | hf
          · exact ht.within f (List.mem_append_left _ hf)
          · rw [List.mem_singleton.mp hf]
            exact ht.within (w, idle) (by simp)
        have hleft : spaceLeft hw r (gs ++ [(w, madeUp r w)]) = madeUp r w := by
          rw [spaceLeft_concat, h.idleLeft_madeUp]
        have hmain := receiveDecode_serial last h ht.mode now
          (by simpa using ht.bits) hidle' hwithin' hf
          (fun hne => by
            rw [hleft] at hne ⊢
            exact h.madeUp_representable hne) hsync hpass hb
        have hwords : (gs ++ [(w, madeUp r w)]).map Prod.fst =
            (gs ++ [(w, idle)]).map Prod.fst := by simp
        rw [hwords] at hmain
        refine hmain.trans ?_
        unfold LeftPasses OpenEndPasses
        rw [hleft, hlast, hdelivered]
        exact ⟨fun hpasses _ f hf => by
          obtain rfl := Option.some.inj hf
          exact hpasses, fun hpasses => hpasses rfl (w, idle) rfl⟩

end Ends

/-! ### A single remote -/

/-- A remote of 1200 baud with two words of eight bits and even parity. -/
def uartRemote : IrRemote :=
  { flags := serial, eps := 5, aeps := 50, bits := 16, baud := 1200, bitsInByte := 8,
    parity := .even, stopBits := 2, pzero := 833, sone := 833, gap := 50000 }

theorem uartRemote_uart : Uart mode2Hardware uartRemote where
  protocol := by decide
  bitTime_pos := by decide
  bitsInByte := by decide
  stopBits := by decide
  pzero := by decide
  sone := by decide
  tolerant := by decide
  narrow := by
    intro x hx hle
    have hlongest : longestRun uartRemote = 8330 := by decide
    have haeps : aepsOf mode2Hardware uartRemote = 50 := by decide
    have hbit : bitTime uartRemote = 833 := by decide
    rw [tolerance, haeps, hbit]
    show 2 * max ((x * 5).tdiv 100) 50 < 833
    rw [Int.tdiv_eq_ediv_of_nonneg (by omega)]
    omega
  noHeader := by decide
  noLead := by decide
  noTrail := by decide
  noFoot := by decide
  noPre := by decide
  noPost := by decide
  words := by decide
  bits_le := by decide

/-- The words `S` and `A`, with a space or with nothing behind them. -/
theorem uartRemote_transfer (timedOut : Bool) :
    SerialTransfer mode2Hardware uartRemote [(0x53, 0), (0x41, 60000)] timedOut .null
      { input := word (space 100000) ::
          (serialSamples uartRemote [(0x53, 0), (0x41, 60000)] timedOut).map word } where
  mode := by decide
  bits := by decide
  idle := by decide
  within := by decide
  long := fun _ f hf => by
    obtain rfl := Option.some.inj hf
    decide
  samples := by cases timedOut <;> decide
  fed := by
    refine ⟨100000, by decide, ⟨by decide, fun l hl => by cases hl⟩, rfl, ?_, ?_⟩
    · cases timedOut <;> decide
    · cases timedOut <;> decide

theorem serial_decoded_run :
    (receiveDecode mode2Hardware uartRemote .null 0
      { input := word (space 100000) ::
          (serialSamples uartRemote [(0x53, 0), (0x41, 60000)] false).map word }).1.map
        (fun d => (d.pre, d.code, d.post)) = some (0, 0x5341, 0) :=
  (serial_decoded_iff uartRemote_uart (uartRemote_transfer false) 0).mpr
    (fun hfalse => absurd hfalse Bool.false_ne_true)

/-- After a time-out the space that the decoder made up replaces the last pulse
and is too short for the gap. -/
theorem serial_decoded_fails :
    Uart mode2Hardware uartRemote ∧
    SerialTransfer mode2Hardware uartRemote [(0x53, 0), (0x41, 60000)] true .null
      { input := word (space 100000) ::
          (serialSamples uartRemote [(0x53, 0), (0x41, 60000)] true).map word } ∧
    (receiveDecode mode2Hardware uartRemote .null 0
      { input := word (space 100000) ::
          (serialSamples uartRemote [(0x53, 0), (0x41, 60000)] true).map word }).1 = none :=
  ⟨uartRemote_uart, uartRemote_transfer true, by decide +kernel⟩

end Lirc
