import Lirc.RoundTrip
import Lirc.Segment

/-!
RC-MM and XMP remotes: a symbol of two or four bits is a pulse and a space,
and only their sum tells which symbol it is. The encoder takes the symbols
from the low end of the reversed word, the decoder shifts them in from the
right, so each symbol has to be reversed once more.
-/

namespace Lirc

open Signal

/-! ### Symbols of a code word -/

/-- The lowest symbol of a reversed word, `w` bits wide. -/
def symbolOf (w : ℕ) (data : IrCode) : IrCode := reverse (data &&& genMask w) w

/-- The word that reading `n` symbols of a reversed word gives. -/
def collectSymbols (w : ℕ) : ℕ → IrCode → IrCode → IrCode
  | 0, _, c => c
  | n + 1, data, c => collectSymbols w n (data >>> w) (c <<< w ||| symbolOf w data)

theorem collectBits_add (m n : ℕ) (data c : IrCode) :
    collectBits (m + n) data c = collectBits n (data >>> m) (collectBits m data c) := by
  induction m generalizing data c with
  | zero => simp [collectBits]
  | succ m ih =>
      have hadd : m + 1 + n = (m + n) + 1 := by omega
      have hshift : data >>> 1 >>> m = data >>> (m + 1) := by
        rw [← BitVec.shiftRight_add, Nat.add_comm]
      rw [hadd, collectBits, ih, hshift]
      rfl

/-- The bits of one symbol. -/
theorem collectBits_symbol {w : ℕ} (hw : w ≤ 64) (data c : IrCode) :
    collectBits w data c = c <<< w ||| symbolOf w data := by
  apply BitVec.eq_of_getLsbD_eq
  intro j hj
  rw [collectBits_getLsbD hj, BitVec.getLsbD_or, BitVec.getLsbD_shiftLeft, symbolOf,
    reverse_getLsbD hw hj, BitVec.getLsbD_and]
  by_cases hlt : j < w
  · have hmask : (genMask w).getLsbD (w - 1 - j) = true := by
      rw [genMask_getLsbD (by omega)]
      simp
      omega
    simp [hlt, hmask]
  · simp [hlt, hj]

/-- Reading symbols is reading their bits. -/
theorem collectSymbols_eq {w : ℕ} (hw : w ≤ 64) (n : ℕ) (data c : IrCode) :
    collectSymbols w n data c = collectBits (n * w) data c := by
  induction n generalizing data c with
  | zero => simp [collectSymbols, collectBits]
  | succ n ih =>
      have hadd : (n + 1) * w = w + n * w := by rw [Nat.add_mul]; omega
      rw [collectSymbols, ih, hadd, collectBits_add, collectBits_symbol hw]

/-! ### Symbols as samples -/

/-- `ps` are the samples of `n` symbols of a reversed word; `sym` tells which
pulse and space a symbol may have. -/
def SentSymbols (w : ℕ) (sym : IrCode → ℤ → ℤ → Prop) : ℕ → IrCode → List Part → Prop
  | 0, _, ps => ps = []
  | n + 1, data, ps => ∃ p s rest, ps = pulse p :: space s :: rest ∧
      sym (symbolOf w data) p s ∧ SentSymbols w sym n (data >>> w) rest

/-- The samples allowed for a segment. -/
def SymbolData (w : ℕ) (sym : IrCode → ℤ → ℤ → Prop) (data : IrCode) (bits done : ℕ)
    (ps : List Part) : Prop :=
  bits % w = 0 ∧ done % w = 0 ∧ bits ≤ 63 ∧
    SentSymbols w sym (bits / w) (reverse data bits) ps

theorem SentSymbols.mono {w n : ℕ} {sym sym' : IrCode → ℤ → ℤ → Prop} {data : IrCode}
    {ps : List Part} (h : SentSymbols w sym n data ps)
    (hsym : ∀ v p s, sym v p s → sym' v p s) : SentSymbols w sym' n data ps := by
  induction n generalizing data ps with
  | zero => exact h
  | succ n ih =>
      obtain ⟨p, s, rest, hps, hv, hrest⟩ := h
      exact ⟨p, s, rest, hps, hsym _ _ _ hv, ih hrest⟩

theorem SentSymbols.startsHigh {w n : ℕ} {sym : IrCode → ℤ → ℤ → Prop} {data : IrCode}
    {ps rest : List Part} (h : SentSymbols w sym n data ps) (hrest : StartsHigh rest) :
    StartsHigh (ps ++ rest) := by
  cases n with
  | zero =>
      obtain rfl : ps = [] := h
      exact hrest
  | succ n =>
      obtain ⟨p, s, ps', rfl, -, -⟩ := h
      exact ⟨p, _, rfl⟩

section Read

variable {hw : Hardware} {r : IrRemote} {b : RBuf} {rest : List Part} {total : ℤ}
  {tail : List ℕ}

/-- A pulse and a space are read when a pulse follows. -/
theorem RBuf.At.readPair {p s : ℤ} (h : b.At none (pulse p :: space s :: rest) total tail)
    (hrest : StartsHigh rest) :
    ∃ b₁ b₂, (∀ m, getNextPulse b m = (p, b₁)) ∧ (∀ m, getNextSpace b₁ m = (s, b₂)) ∧
      b₂.At none rest total tail := by
  obtain ⟨a, rest, rfl⟩ := hrest
  have hwave : wave ((none : Option Part).toList ++ pulse p :: space s :: pulse a :: rest) =
      pulse p :: wave ((none : Option Part).toList ++ space s :: pulse a :: rest) :=
    waveFrom_pulse (by simp)
  have h₁ : (b.advance (word (pulse p))).At none (space s :: pulse a :: rest) total tail :=
    h.step_keep hwave h.positive.tail h.pendingp h.pendings
  have hwave₁ : wave ((none : Option Part).toList ++ space s :: pulse a :: rest) =
      space s :: wave ((none : Option Part).toList ++ pulse a :: rest) := waveFrom_space rfl
  exact ⟨_, _, fun m => h.nextPulse hwave m, fun m => h₁.nextSpace hwave₁ m,
    h₁.step_keep hwave₁ h₁.positive.tail h₁.pendingp h₁.pendings⟩

/-- The decoder reads a symbol that may have been sent. -/
def ReadsSymbol (w : ℕ) (step : Unit → RBuf → Option IrCode × Unit × RBuf)
    (sym : IrCode → ℤ → ℤ → Prop) : Prop :=
  ∀ {v p s rest b total tail}, v.toNat < 2 ^ w → sym v p s → StartsHigh rest →
    RBuf.At b none (pulse p :: space s :: rest) total tail →
    ∃ b', step () b = (some v, (), b') ∧ b'.At none rest total tail

theorem symbolOf_lt {w : ℕ} (hw : w ≤ 64) (data : IrCode) :
    (symbolOf w data).toNat < 2 ^ w := by
  refine Nat.lt_pow_two_of_testBit _ fun i hi => ?_
  by_cases h64 : i < 64
  · have hbit := reverse_getLsbD (d := data &&& genMask w) hw h64
    have hlt : ¬i < w := by omega
    rw [← BitVec.getLsbD, symbolOf, hbit, decide_eq_false hlt, Bool.false_and]
  · rw [← BitVec.getLsbD, BitVec.getLsbD_of_ge _ _ (by omega)]

/-- The loop reads the symbols that were sent. -/
theorem readSymbols_ok {w : ℕ} (hle : w ≤ 64)
    {step : Unit → RBuf → Option IrCode × Unit × RBuf} {sym : IrCode → ℤ → ℤ → Prop}
    (hread : ReadsSymbol w step sym) {n : ℕ} {data : IrCode} (code : IrCode) {ps : List Part}
    (hps : SentSymbols w sym n data ps) (hrest : StartsHigh rest)
    (h : b.At none (ps ++ rest) total tail) :
    ∃ b', readSymbols w step n () code b = (some (collectSymbols w n data code), (), b') ∧
      b'.At none rest total tail := by
  induction n generalizing data code ps b with
  | zero =>
      obtain rfl : ps = [] := hps
      exact ⟨b, rfl, h⟩
  | succ n ih =>
      obtain ⟨p, s, ps', rfl, hv, hps'⟩ := hps
      obtain ⟨b₁, hstep, h₁⟩ :=
        hread (symbolOf_lt hle data) hv (hps'.startsHigh hrest) h
      obtain ⟨b₂, hloop, h₂⟩ := ih (code <<< w ||| symbolOf w data) hps' h₁
      refine ⟨b₂, ?_, h₂⟩
      rw [readSymbols, hstep]
      exact hloop

end Read

/-! ### RC-MM -/

/-- The pulse and the space of an RC-MM symbol. -/
def rcmmTimes (r : IrRemote) (v : ℕ) : ℤ × ℤ :=
  match v with
  | 0 => (r.pzero, r.szero)
  | 1 => (r.pone, r.sone)
  | 2 => (r.ptwo, r.stwo)
  | _ => (r.pthree, r.sthree)

def rcmmSum (r : IrRemote) (v : ℕ) : ℤ := (rcmmTimes r v).1 + (rcmmTimes r v).2

/-- An RC-MM symbol as it is sent. -/
def RcmmSent (r : IrRemote) (v : IrCode) (p s : ℤ) : Prop := rcmmTimes r v.toNat = (p, s)

/-- The two swaps of `reverse` cancel. -/
theorem rcmmParts_eq (r : IrRemote) (data : IrCode) :
    rcmmParts r data = [pulse (rcmmTimes r (symbolOf 2 data).toNat).1,
      space (rcmmTimes r (symbolOf 2 data).toNat).2] := by
  have hmask : genMask 2 = 3 := by decide
  unfold rcmmParts symbolOf
  rw [hmask]
  have hlt : (data &&& 3).toNat < 4 := by
    rw [BitVec.toNat_and]
    exact Nat.lt_of_le_of_lt Nat.and_le_right (by decide)
  obtain ⟨k, hk⟩ : ∃ k : Fin 4, (data &&& 3) = BitVec.ofNat 64 k := by
    refine ⟨⟨(data &&& 3).toNat, hlt⟩, ?_⟩
    simp
  rw [hk]
  match k with
  | 0 => rfl
  | 1 => rfl
  | 2 => rfl
  | 3 => rfl

theorem rcmmLoopParts_sent (r : IrRemote) (n : ℕ) (data : IrCode) :
    SentSymbols 2 (RcmmSent r) n data (rcmmLoopParts r n data) := by
  induction n generalizing data with
  | zero => rfl
  | succ n ih =>
      refine ⟨_, _, rcmmLoopParts r n (data >>> 2), ?_, rfl, ih (data >>> 2)⟩
      rw [rcmmLoopParts, rcmmParts_eq]
      rfl

/-- An RC-MM remote without toggle masks and leading pulse, with positive
pulses and spaces whose sums the decoder tells apart. -/
structure RcmmCoded (hw : Hardware) (r : IrRemote) : Prop where
  protocol : isRcmm r = true
  even : r.preDataBits % 2 = 0 ∧ r.bits % 2 = 0 ∧ r.postDataBits % 2 = 0
  positive : ∀ v < 4, 0 < (rcmmTimes r v).1 ∧ 0 < (rcmmTimes r v).2
  apart : ∀ u < 4, ∀ v < 4, expect hw r (rcmmSum r u) (rcmmSum r v) = true ↔ u = v

theorem RcmmCoded.matchSymbol {hw : Hardware} {r : IrRemote} (h : RcmmCoded hw r) {v : ℕ}
    (hv : v < 4) : matchSymbol hw r (rcmmSum r v) = some v := by
  have happ := h.apart v hv
  have h0 : expect hw r (rcmmSum r v) (r.pzero + r.szero) = decide (v = 0) := by
    rw [Bool.eq_iff_iff, decide_eq_true_eq]
    exact happ 0 (by decide)
  have h1 : expect hw r (rcmmSum r v) (r.pone + r.sone) = decide (v = 1) := by
    rw [Bool.eq_iff_iff, decide_eq_true_eq]
    exact happ 1 (by decide)
  have h2 : expect hw r (rcmmSum r v) (r.ptwo + r.stwo) = decide (v = 2) := by
    rw [Bool.eq_iff_iff, decide_eq_true_eq]
    exact happ 2 (by decide)
  have h3 : expect hw r (rcmmSum r v) (r.pthree + r.sthree) = decide (v = 3) := by
    rw [Bool.eq_iff_iff, decide_eq_true_eq]
    exact happ 3 (by decide)
  unfold Lirc.matchSymbol
  simp only [h0, h1, h2, h3, decide_eq_true_eq]
  split
  · simp_all
  split
  · simp_all
  split
  · simp_all
  · rw [if_pos (by omega)]
    congr 1
    omega

theorem RcmmCoded.readsSymbol {hw : Hardware} {r : IrRemote} (h : RcmmCoded hw r) :
    ReadsSymbol 2 (rcmmSymbol hw r) (RcmmSent r) := by
  intro v p s rest b total tail hv hsym hrest hb
  obtain ⟨b₁, b₂, hpulse, hspace, h₂⟩ := hb.readPair hrest
  have hpos := h.positive v.toNat hv
  have hmatch := h.matchSymbol hv
  rw [rcmmSum, hsym] at hmatch
  rw [hsym] at hpos
  refine ⟨b₂, ?_, h₂⟩
  have hne : ¬(p = 0 ∨ s = 0) := by omega
  simp only [rcmmSymbol, hpulse, hspace, if_neg hne, hmatch, Option.map_some,
    BitVec.ofNat_toNat, BitVec.setWidth_eq]

/-! ### XMP -/

/-- The pulse and the space of an XMP symbol. -/
def xmpSum (r : IrRemote) (v : IrCode) : ℤ := r.pzero + (r.szero + v.toNat * r.sone)

/-- An XMP symbol as it is sent. -/
def XmpSent (r : IrRemote) (v : IrCode) (p s : ℤ) : Prop :=
  p = r.pzero ∧ s = r.szero + v.toNat * r.sone

/-- An XMP symbol as it may arrive. -/
def XmpNear (r : IrRemote) (v : IrCode) (p s : ℤ) : Prop :=
  0 < p ∧ 0 < s ∧ 2 * |p + s - xmpSum r v| < r.sone

theorem xmpLoopParts_sent (r : IrRemote) (n : ℕ) (data : IrCode) :
    SentSymbols 4 (XmpSent r) n data (xmpLoopParts r n data) := by
  induction n generalizing data with
  | zero => rfl
  | succ n ih => exact ⟨_, _, xmpLoopParts r n (data >>> 4), rfl, ⟨rfl, rfl⟩, ih (data >>> 4)⟩

/-- An XMP remote without toggle masks and leading pulse. -/
structure XmpCoded (r : IrRemote) : Prop where
  protocol : isXmp r = true
  nibbles : r.preDataBits % 4 = 0 ∧ r.bits % 4 = 0 ∧ r.postDataBits % 4 = 0
  pzero : 0 < r.pzero
  szero : 0 < r.szero
  sone : 0 < r.sone

theorem XmpCoded.near {r : IrRemote} (h : XmpCoded r) {v : IrCode} {p s : ℤ}
    (hsym : XmpSent r v p s) : XmpNear r v p s := by
  obtain ⟨rfl, rfl⟩ := hsym
  have hone := h.sone
  have hprod : 0 ≤ (v.toNat : ℤ) * r.sone := Int.mul_nonneg (Int.natCast_nonneg _) hone.le
  refine ⟨h.pzero, by have := h.szero; omega, ?_⟩
  rw [xmpSum, sub_self, abs_zero]
  omega

/-- Rounding the difference gives the symbol back. -/
theorem xmp_round {sone d : ℤ} {n : ℕ} (hs : 0 < sone) (hd : 2 * |d| < sone) :
    ((n : ℤ) * sone + d + sone.tdiv 2).tdiv sone = n := by
  have hlow := neg_abs_le d
  have hhigh := le_abs_self d
  have hhalf : sone.tdiv 2 = sone / 2 := Int.tdiv_eq_ediv_of_nonneg hs.le
  have hprod : 0 ≤ (n : ℤ) * sone := Int.mul_nonneg (Int.natCast_nonneg _) hs.le
  have hrest : 0 ≤ d + sone / 2 ∧ d + sone / 2 < sone := by omega
  rw [hhalf, Int.tdiv_eq_ediv_of_nonneg (by omega), Int.add_assoc, Int.add_comm,
    Int.add_mul_ediv_right _ _ hs.ne', Int.ediv_eq_zero_of_lt hrest.1 hrest.2, Int.zero_add]

theorem XmpCoded.readsSymbol {r : IrRemote} (h : XmpCoded r) :
    ReadsSymbol 4 (xmpSymbol r) (XmpNear r) := by
  rintro v p s rest b total tail hv ⟨hp, hs, hd⟩ hrest hb
  obtain ⟨b₁, b₂, hpulse, hspace, h₂⟩ := hb.readPair hrest
  refine ⟨b₂, ?_, h₂⟩
  have hne : ¬(p = 0 ∨ s = 0) := by omega
  have hround : (p + s - (r.pzero + r.szero) + r.sone.tdiv 2).tdiv r.sone = v.toNat := by
    have hsum : p + s - (r.pzero + r.szero) + r.sone.tdiv 2 =
        v.toNat * r.sone + (p + s - xmpSum r v) + r.sone.tdiv 2 := by
      unfold xmpSum
      generalize (v.toNat : ℤ) * r.sone = k
      omega
    rw [hsum]
    exact xmp_round h.sone hd
  have hlt : v.toNat < 16 := hv
  have hrange : ¬((v.toNat : ℤ) < 0 ∨ 16 ≤ (v.toNat : ℤ)) := by omega
  simp only [xmpSymbol, hpulse, hspace, if_neg hne, hround, if_neg hrange, BitVec.ofInt_natCast,
    BitVec.ofNat_toNat, BitVec.setWidth_eq]

/-! ### Segments -/

/-- At most a space is pending. -/
def SpacePending (q : Option Part) : Prop := q = none ∨ ∃ x, q = some (space x)

section Segments

variable {hw : Hardware} {r : IrRemote} {w : ℕ} {sym : IrCode → ℤ → ℤ → Prop}

theorem RBuf.At.syncPending {b : RBuf} {q : Option Part} {ps : List Part} {total : ℤ}
    {tail : List ℕ} (h : b.At q ps total tail) (ht : Tolerant r) (hq : SpacePending q)
    (hps : StartsHigh ps) :
    ∃ b', syncPendingSpace hw r b = (true, b') ∧ b'.At none ps total tail := by
  obtain ⟨a, rest, rfl⟩ := hps
  rcases hq with rfl | ⟨x, rfl⟩
  · refine ⟨b, ?_, h⟩
    have hpend := h.pendings
    rw [pendSpace_none] at hpend
    simp [syncPendingSpace, hpend]
  · exact h.syncSpace hw ht

/-- A protocol that reads segments symbol by symbol reads back what was sent. -/
theorem readsData_symbols {step : Unit → RBuf → Option IrCode × Unit × RBuf} (hle : w ≤ 64)
    (ht : Tolerant r) (hread : ReadsSymbol w step sym)
    (hdata : ∀ {bits done b b₁ v b'}, bits % w = 0 → done % w = 0 →
      syncPendingSpace hw r b = (true, b₁) →
      readSymbols w step (bits / w) () 0 b₁ = (some v, (), b') →
      getData hw r bits done b = (v, r, b')) :
    ReadsData hw r (SymbolData w sym) SpacePending StartsHigh where
  segment := by
    rintro data bits done ps q rest b total tail ⟨hbits, hdone, hsmall, hps⟩ hq hrest h
    obtain ⟨b₁, hsync, h₁⟩ := h.syncPending ht hq (hps.startsHigh hrest)
    obtain ⟨b₂, hloop, h₂⟩ := readSymbols_ok hle hread 0 hps hrest h₁
    refine ⟨b₂, none, ?_, .inl rfl, h₂⟩
    rw [hdata hbits hdone hsync hloop, collectSymbols_eq hle,
      Nat.div_mul_cancel (Nat.dvd_of_mod_eq_zero hbits), collectBits_reverse (by omega)]
  before := fun h hrest => h.2.2.2.startsHigh hrest
  before_pulse := fun a rest => ⟨a, rest, rfl⟩
  space := fun x => .inr ⟨x, rfl⟩

theorem RcmmCoded.readsData (h : RcmmCoded hw r) (ht : Tolerant r) :
    ReadsData hw r (SymbolData 2 (RcmmSent r)) SpacePending StartsHigh := by
  refine readsData_symbols (by decide) ht h.readsSymbol ?_
  intro bits done b b₁ v b' hbits hdone hsync hloop
  have hpar : ¬(bits % 2 ≠ 0 ∨ done % 2 ≠ 0) := by omega
  unfold getData
  rw [if_pos h.protocol, if_neg hpar, hsync]
  simp only [Bool.not_true, Bool.false_eq_true, if_false, getRcmmLoop_eq, hloop,
    Option.getD_some]

theorem XmpCoded.readsData (h : XmpCoded r) (hw : Hardware) (ht : Tolerant r) :
    ReadsData hw r (SymbolData 4 (XmpNear r)) SpacePending StartsHigh := by
  refine readsData_symbols (by decide) ht h.readsSymbol ?_
  intro bits done b b₁ v b' hbits hdone hsync hloop
  have hpar : ¬(bits % 4 ≠ 0 ∨ done % 4 ≠ 0) := by omega
  have other : ∀ {q : ℕ}, xmp ≠ q → r.protocolIs q = false :=
    fun hq => protocolIs_unique h.protocol hq
  have h₁ : isRcmm r = false := other (q := rcmm) (by decide)
  have h₂ : isGrundig r = false := other (q := grundig) (by decide)
  have h₃ : isSerial r = false := other (q := serial) (by decide)
  have h₄ : isBo r = false := other (q := bo) (by decide)
  unfold getData
  simp only [h₁, h₂, h₃, h₄, h.protocol, Bool.false_eq_true, if_false, if_true]
  rw [if_neg hpar, hsync]
  simp only [Bool.not_true, Bool.false_eq_true, if_false, getXmpLoop_eq, hloop,
    Option.getD_some]

end Segments

/-! ### Pulses and spaces in turn -/

/-- Pulses and spaces in turn. -/
def pairs (l : List (ℤ × ℤ)) : List Part := l.flatMap fun x => [pulse x.1, space x.2]

@[simp] theorem pairs_nil : pairs [] = [] := rfl

@[simp] theorem pairs_cons (x : ℤ × ℤ) (l : List (ℤ × ℤ)) :
    pairs (x :: l) = pulse x.1 :: space x.2 :: pairs l := rfl

theorem pairs_append (l m : List (ℤ × ℤ)) : pairs (l ++ m) = pairs l ++ pairs m := by
  simp [pairs]

theorem length_pairs (l : List (ℤ × ℤ)) : (pairs l).length = 2 * l.length := by
  induction l with
  | nil => rfl
  | cons x l ih =>
      rw [pairs_cons, List.length_cons, List.length_cons, ih, List.length_cons]
      omega

theorem pairs_startsHigh (l : List (ℤ × ℤ)) (z : ℤ) : StartsHigh (pairs l ++ [pulse z]) := by
  cases l with
  | nil => exact ⟨z, [], rfl⟩
  | cons x l => exact ⟨x.1, _, rfl⟩

/-- Samples that alternate already are their own run-length form. -/
theorem wave_pairs (l : List (ℤ × ℤ)) (z : ℤ) :
    wave (pairs l ++ [pulse z]) = pairs l ++ [pulse z] := by
  induction l with
  | nil => rfl
  | cons x l ih =>
      obtain ⟨a, rest, hrest⟩ := pairs_startsHigh l z
      show waveFrom (pulse x.1) (space x.2 :: (pairs l ++ [pulse z])) = _
      rw [waveFrom_pulse (by simp), wave_cons, hrest, waveFrom_space rfl, ← hrest, ih]
      rfl

theorem alternate_pairs (l : List (ℤ × ℤ)) (z : ℤ) :
    alternate true ((pairs l ++ [pulse z]).map Part.len) = pairs l ++ [pulse z] := by
  induction l with
  | nil => rfl
  | cons x l ih =>
      show pulse x.1 :: space x.2 :: alternate true ((pairs l ++ [pulse z]).map Part.len) = _
      rw [ih]
      rfl

theorem SentSymbols.pairs {w n : ℕ} {sym : IrCode → ℤ → ℤ → Prop} {data : IrCode}
    {ps : List Part} (h : SentSymbols w sym n data ps) :
    ∃ l : List (ℤ × ℤ), ps = Lirc.pairs l ∧ l.length = n := by
  induction n generalizing data ps with
  | zero => exact ⟨[], h, rfl⟩
  | succ n ih =>
      obtain ⟨p, s, rest, rfl, -, hrest⟩ := h
      obtain ⟨l, rfl, hl⟩ := ih hrest
      exact ⟨(p, s) :: l, rfl, by simp [hl]⟩

/-- The signal of `send_code` without a lead, with other samples for its
segments. -/
def signalParts (r : IrRemote) (pre data post : List Part) : List Part :=
  headerParts r ++ ((if hasPre r then pre ++ prePauseParts r else []) ++ (data ++
    ((if hasPost r then postPauseParts r ++ post else []) ++ (trailParts r ++ footParts r))))

theorem codeParts_eq_signalParts {r : IrRemote} (hlead : r.plead = 0) (c : IrCode) :
    codeParts r c false = signalParts r (dataParts r r.preData r.preDataBits 0)
      (dataParts r c r.bits r.preDataBits)
      (dataParts r r.postData r.postDataBits (r.preDataBits + r.bits)) := by
  simp [codeParts, signalParts, leadParts, hlead, preParts, postParts]

theorem optional_pairs {c : Prop} [Decidable c] (l : List (ℤ × ℤ)) (n : ℕ) (h : l.length ≤ n) :
    ∃ m : List (ℤ × ℤ), (if c then pairs l else []) = pairs m ∧ m.length ≤ n := by
  split
  · exact ⟨l, rfl, h⟩
  · exact ⟨[], rfl, Nat.zero_le n⟩

/-- With a trailing pulse the samples of a signal alternate. -/
theorem signalParts_pairs {r : IrRemote} (htrail : 0 < r.ptrail) (lpre l lpost : List (ℤ × ℤ)) :
    ∃ m z, signalParts r (pairs lpre) (pairs l) (pairs lpost) = pairs m ++ [pulse z] ∧
      m.length ≤ lpre.length + l.length + lpost.length + 4 := by
  obtain ⟨mh, hh, hhlen⟩ : ∃ m, headerParts r = pairs m ∧ m.length ≤ 1 :=
    optional_pairs (c := hasHeader r = true) [(r.phead, r.shead)] 1 (Nat.le_refl 1)
  obtain ⟨mp, hp, hplen⟩ : ∃ m, prePauseParts r = pairs m ∧ m.length ≤ 1 :=
    optional_pairs (c := 0 < r.preP ∧ 0 < r.preS) [(r.preP, r.preS)] 1 (Nat.le_refl 1)
  obtain ⟨mq, hq, hqlen⟩ : ∃ m, postPauseParts r = pairs m ∧ m.length ≤ 1 :=
    optional_pairs (c := 0 < r.postP ∧ 0 < r.postS) [(r.postP, r.postS)] 1 (Nat.le_refl 1)
  obtain ⟨ma, ha, halen⟩ := optional_pairs (c := hasPre r = true) (lpre ++ mp)
    (lpre.length + 1) (by simp; omega)
  obtain ⟨mb, hb, hblen⟩ := optional_pairs (c := hasPost r = true) (mq ++ lpost)
    (lpost.length + 1) (by simp; omega)
  have htrailParts : trailParts r = [pulse r.ptrail] := by
    rw [trailParts, if_pos (by omega)]
  rw [pairs_append] at ha hb
  unfold signalParts
  rw [hh, hp, hq, ha, hb, htrailParts]
  by_cases hfoot : hasFoot r = true
  · refine ⟨mh ++ ma ++ l ++ mb ++ [(r.ptrail, r.sfoot)], r.pfoot, ?_, ?_⟩
    · simp [pairs_append, footParts, hfoot]
    · simp only [List.length_append, List.length_singleton]
      omega
  · refine ⟨mh ++ ma ++ l ++ mb, r.ptrail, ?_, ?_⟩
    · simp [pairs_append, footParts, hfoot]
    · simp only [List.length_append]
      omega

/-! ### What `send_code` builds -/

/-- The samples one call of `send_code` puts into a cleared buffer. -/
def sentCode (r : IrRemote) (c : IrCode) (b : SBuf) : List ℤ :=
  (syncSendBuffer (sendCode r c false (clearSendBuffer b))).content

theorem sendPart_fits {b : SBuf} (p : Part) (h : b.tooLong = false) (hlt : b.wptr < wbufSize) :
    (sendPart b p).tooLong = false ∧ (sendPart b p).wptr ≤ b.wptr + 1 := by
  unfold sendPart sendPulse sendSpace
  have hadd := fun x => addSendBuffer_fits (x := x) h hlt
  split
  · split
    · exact ⟨h, Nat.le_succ _⟩
    · dsimp only
      split
      · exact ⟨(hadd _).1, (hadd _).2.le⟩
      · exact ⟨h, Nat.le_succ _⟩
  · split
    · exact ⟨h, Nat.le_succ _⟩
    · split
      · exact ⟨h, Nat.le_succ _⟩
      · dsimp only
        split
        · exact ⟨(hadd _).1, (hadd _).2.le⟩
        · exact ⟨h, Nat.le_succ _⟩

/-- A signal with fewer parts than the buffer has samples fits. -/
theorem sendParts_fits {b : SBuf} {ps : List Part} (h : b.tooLong = false)
    (hlen : b.wptr + ps.length < wbufSize) : (closePulse (sendParts b ps)).tooLong = false := by
  induction ps generalizing b with
  | nil =>
      unfold closePulse
      split
      · exact (addSendBuffer_fits h (by simpa using hlen)).1
      · exact h
  | cons p ps ih =>
      simp only [List.length_cons] at hlen
      obtain ⟨hfit, hwptr⟩ := sendPart_fits p h (by omega)
      exact ih hfit (by omega)

/-- A signal whose samples alternate is built as it is. -/
theorem sentCode_eq {r : IrRemote} {c : IrCode} {m : List (ℤ × ℤ)} {z : ℤ}
    (hparts : codeParts r c false = pairs m ++ [pulse z])
    (hpos : Positive (codeParts r c false)) (hlen : m.length ≤ 127) (b : SBuf) :
    sentCode r c b = (codeParts r c false).map Part.len := by
  have hsend : sendCode r c false (clearSendBuffer b) =
      (sendParts (clearSendBuffer b) (codeParts r c false)).adjusted (sumCorrection r false)
        b.data := by
    have hdata : (sendParts (clearSendBuffer b) (codeParts r c false)).data = b.data :=
      sendParts_data _ _
    rw [sendCode_eq, sumCorrection]
    dsimp only
    split
    · rw [← hdata]
      rfl
    · rw [← hdata, SBuf.adjusted, Int.sub_zero]
  obtain ⟨a, rest, hhigh⟩ := pairs_startsHigh m z
  have hfit : (closePulse (sendParts (clearSendBuffer b) (codeParts r c false))).tooLong = false := by
    refine sendParts_fits rfl ?_
    rw [hparts, List.length_append, length_pairs, List.length_singleton]
    show 0 + (2 * m.length + 1) < 256
    omega
  rw [← hparts] at hhigh
  have hext : (clearSendBuffer b).Extended
      (closePulse (sendParts (clearSendBuffer b) (codeParts r c false)))
      ((wave (codeParts r c false)).map Part.len) := by
    rw [hhigh] at hpos hfit ⊢
    exact (sendParts_start ⟨Nat.zero_le _⟩ hpos.head hpos.tail rfl rfl hfit).1
  have hwave : wave (codeParts r c false) = codeParts r c false := by
    rw [hparts, wave_pairs]
  have hcontent := hext.content
  have hwptr := hext.wptr
  rw [hwave] at hcontent hwptr
  have hempty : (clearSendBuffer b).content = [] := by
    simp [SBuf.content, clearSendBuffer]
  have hodd : ¬(closePulse (sendParts (clearSendBuffer b) (codeParts r c false))).wptr % 2 = 0 := by
    rw [hwptr, hparts, List.length_map, List.length_append, length_pairs]
    show ¬(0 + (2 * m.length + 1)) % 2 = 0
    omega
  rw [sentCode, hsend, syncSendBuffer_eq, closePulse_adjusted, dropSpace, if_neg fun h => hodd h.2,
    SBuf.adjusted_content, hcontent, hempty, List.nil_append]

/-! ### The round trip -/

/-- What RC-MM and XMP remotes need besides their symbols: a trailing pulse
but no leading one, no toggle mask, and no more than 63 bits. -/
structure SymbolRemote (r : IrRemote) : Prop where
  noToggleMask : hasToggleMask r = false
  noLead : r.plead = 0
  trail : 0 < r.ptrail
  bits_le : bitCount r ≤ 63
  preData : r.preData &&& genMask r.preDataBits = r.preData
  postData : r.postData &&& genMask r.postDataBits = r.postData

/-- The pulses and spaces of symbols arrive changed, the sum of each pulse
and its space by less than half of `d`. -/
inductive Deviates (d : ℤ) : List Part → List Part → Prop
  | nil : Deviates d [] []
  | symbol {p s p' s' : ℤ} {ps ps' : List Part} (hp : 0 < p') (hs : 0 < s')
      (h : 2 * |p' + s' - (p + s)| < d) (hps : Deviates d ps ps') :
      Deviates d (pulse p :: space s :: ps) (pulse p' :: space s' :: ps')

/-- The signal of `send_code` with symbols that deviate by less than half of
`sone`. -/
def XmpReceived (r : IrRemote) (c : IrCode) (ps : List Part) : Prop :=
  ∃ pre data post, Deviates r.sone (dataParts r r.preData r.preDataBits 0) pre ∧
    Deviates r.sone (dataParts r c r.bits r.preDataBits) data ∧
    Deviates r.sone (dataParts r r.postData r.postDataBits (r.preDataBits + r.bits)) post ∧
    ps = signalParts r pre data post

theorem SentSymbols.deviates {r : IrRemote} {n : ℕ} {data : IrCode} {ps ps' : List Part}
    (h : SentSymbols 4 (XmpSent r) n data ps) (hd : Deviates r.sone ps ps') :
    SentSymbols 4 (XmpNear r) n data ps' := by
  induction n generalizing data ps ps' with
  | zero =>
      obtain rfl : ps = [] := h
      cases hd
      rfl
  | succ n ih =>
      obtain ⟨p, s, rest, rfl, ⟨rfl, rfl⟩, hrest⟩ := h
      cases hd with
      | symbol hp hs hdev hps => exact ⟨_, _, _, rfl, ⟨hp, hs, hdev⟩, ih hrest hps⟩

section RoundTrip

variable {hw : Hardware} {r : IrRemote} {w : ℕ} {sym : IrCode → ℤ → ℤ → Prop} {c : IrCode}
  {pre data post : List Part}

/-- The samples of a signal in symbols alternate, and there are not many. -/
theorem signalParts_sent (hc : SymbolRemote r) (hw2 : 2 ≤ w)
    (hpre : SymbolData w sym r.preData r.preDataBits 0 pre)
    (hdata : SymbolData w sym c r.bits r.preDataBits data)
    (hpost : SymbolData w sym r.postData r.postDataBits (r.preDataBits + r.bits) post) :
    ∃ m z, signalParts r pre data post = pairs m ++ [pulse z] ∧ m.length ≤ 127 := by
  obtain ⟨lpre, rfl, hlen₁⟩ := hpre.2.2.2.pairs
  obtain ⟨ldata, rfl, hlen₂⟩ := hdata.2.2.2.pairs
  obtain ⟨lpost, rfl, hlen₃⟩ := hpost.2.2.2.pairs
  obtain ⟨m, z, hparts, hm⟩ := signalParts_pairs hc.trail lpre ldata lpost
  have hbits := hc.bits_le
  have hcount : bitCount r = r.preDataBits + r.bits + r.postDataBits := rfl
  have hle : ∀ n : ℕ, n / w ≤ n / 2 := fun n => Nat.div_le_div_left hw2 (by decide)
  have h₁ := hle r.preDataBits
  have h₂ := hle r.bits
  have h₃ := hle r.postDataBits
  exact ⟨m, z, hparts, by omega⟩

theorem decodeHeader_symbols (hw : Hardware) (ht : Tolerant r) (hbo : isBo r = false) (sync : ℤ) {b : RBuf}
    {body : List Part} {total : ℤ} {tail : List ℕ} (hbody : StartsHigh body)
    (h : b.At none (headerParts r ++ body) total tail) :
    ∃ b' q, decodeHeader hw r sync b = (some (hasHeader r), b') ∧ SpacePending q ∧
      b'.At q body total tail := by
  by_cases hrcmm : isRcmm r = true
  · by_cases hhead : hasHeader r = true
    · have hpos : 0 < r.phead ∧ 0 < r.shead := by simpa [hasHeader] using hhead
      rw [headerParts, if_pos hhead] at h
      obtain ⟨b₁, b₂, hpulse, hspace, h₂⟩ := h.readPair hbody
      have hself : expect hw r (r.phead + r.shead) (r.phead + r.shead) = true :=
        ht.expect_self (by omega)
      have hp : r.phead ≠ 0 := by omega
      have hs : r.shead ≠ 0 := by omega
      refine ⟨b₂, none, ?_, .inl rfl, h₂⟩
      simp [decodeHeader, hhead, getHeader, hrcmm, getHeaderRcmm, hpulse, hspace, hp, hs, hself]
    · rw [headerParts, if_neg hhead, List.nil_append] at h
      exact ⟨b, none, by simp [decodeHeader, hhead], .inl rfl, h⟩
  · rw [Bool.not_eq_true] at hrcmm
    obtain ⟨b', hheader, h'⟩ := decodeHeader_ok hw ht hrcmm hbo sync (fun _ _ => hbody) h
    refine ⟨b', _, hheader, ?_, h'⟩
    split
    · exact .inr ⟨_, rfl⟩
    · exact .inl rfl

/-- After synchronisation the decoder stands before a signal whose samples
alternate. -/
theorem syncRecBuffer_pairs (hw : Hardware) (htoggle : hasToggleMask r = false) {last : LastRemote}
    {sync long : ℤ} {b : RBuf} {m : List (ℤ × ℤ)} {z : ℤ} (hpass : SyncPasses r last sync)
    (hm : m.length ≤ 127) (hfed : b.Fed sync ((pairs m ++ [pulse z]).map Part.len) long) :
    Positive (pairs m ++ [pulse z]) ∧
      ∃ b₁, syncRecBuffer hw r last { rewindRecBuffer b with isBiphase := isBiphase r } =
        (sync, r, b₁) ∧
      b₁.At none (pairs m ++ [pulse z]) ((pairs m ++ [pulse z]).map Part.len).sum
        [word (space long)] := by
  have hsize : ((pairs m ++ [pulse z]).map Part.len).length ≤ wbufSize := by
    rw [List.length_map, List.length_append, length_pairs, List.length_singleton]
    show 2 * m.length + 1 ≤ 256
    omega
  have hrep : ∀ p ∈ pairs m ++ [pulse z], Representable p := by
    rw [← alternate_pairs]
    exact representable_alternate hfed.samples
  have hview := hfed.view hsize
  rw [feed, alternate_pairs] at hview
  have hview₀ : ({ rewindRecBuffer b with isBiphase := isBiphase r } : RBuf).View []
      (word (space sync) :: ((pairs m ++ [pulse z]).map word ++ [word (space long)])) :=
    ⟨hview.behind, hview.rptr_eq, hview.following, hview.room, hview.good⟩
  have hpos : Positive (pairs m ++ [pulse z]) := fun p hp => (hrep p hp).1
  refine ⟨hpos, _, syncRecBuffer_passes hw htoggle hfed.sync hpass hview₀, ?_⟩
  have hadv := hview₀.advance
  rw [← wave_pairs m z] at hadv
  have hwave : wave ((none : Option Part).toList ++ (pairs m ++ [pulse z])) =
      pairs m ++ [pulse z] := wave_pairs m z
  refine ⟨⟨_, hadv.behind, hadv.rptr_eq, hadv.following, hadv.room, hadv.good⟩, ?_, ?_, hpos,
    ?_, ?_⟩
  · simp [rewindRecBuffer]
  · simp [rewindRecBuffer]
  · rw [hwave]
    exact hrep
  · rw [hwave]
    simp

/-- The gap the decoder asks for after a signal. -/
theorem endGap_le (hpos : Positive (signalParts r pre data post)) {long : ℤ}
    (hlong : (if isRcmm r then 1000 else maxGap r) ≤ long) :
    endGap r (((signalParts r pre data post).map Part.len).sum -
      headerCorrection r (hasHeader r)) ≤ long := by
  refine le_trans ?_ hlong
  unfold endGap
  split
  · exact le_refl _
  have hcorr : headerCorrection r (hasHeader r) ≤
      ((signalParts r pre data post).map Part.len).sum := by
    unfold headerCorrection
    split
    · next hcond =>
        have hhead : hasHeader r = true := by
          simp only [Bool.and_eq_true] at hcond
          exact hcond.1.1
        unfold signalParts at hpos ⊢
        rw [headerParts, if_pos hhead] at hpos ⊢
        simp only [List.cons_append, List.nil_append] at hpos ⊢
        have hrest := sum_nonneg hpos.tail.tail
        simp only [List.map_cons, List.sum_cons]
        omega
    · exact sum_nonneg hpos
  have hmin := minGap_nonneg r
  have hmax := minGap_le_maxGap r
  unfold signalGap
  split
  · split <;> omega
  · exact hmax

/-- A signal whose segments are in symbols is decoded to what was sent. -/
theorem receiveDecode_symbols (hc : SymbolRemote r) (ht : Tolerant r) (hraw : isRaw r = false)
    (hbo : isBo r = false) (hR : ReadsData hw r (SymbolData w sym) SpacePending StartsHigh)
    (hw2 : 2 ≤ w)
    (hpre : SymbolData w sym r.preData r.preDataBits 0 pre)
    (hdata : SymbolData w sym c r.bits r.preDataBits data)
    (hpost : SymbolData w sym r.postData r.postDataBits (r.preDataBits + r.bits) post)
    (hcode : c &&& genMask r.bits = c) (hmode : pulseSpaceMode hw = true) {last : LastRemote}
    {sync long : ℤ} (now : ℕ) {b : RBuf} (hpass : SyncPasses r last sync)
    (hlong : (if isRcmm r then 1000 else maxGap r) ≤ long)
    (hfed : b.Fed sync ((signalParts r pre data post).map Part.len) long) :
    (receiveDecode hw r last now b).1.map (fun d => (d.pre, d.code, d.post)) =
      some (r.preData, c, r.postData) := by
  obtain ⟨m, z, hparts, hm⟩ := signalParts_sent hc hw2 hpre hdata hpost
  rw [hparts] at hfed
  obtain ⟨hpos, b₁, hsynced, hat⟩ := syncRecBuffer_pairs hw hc.noToggleMask hpass hm hfed
  rw [← hparts] at hpos hat
  have htrailHigh : StartsHigh (trailParts r ++ footParts r) := by
    rw [trailParts, if_pos (by have := hc.trail; omega)]
    exact ⟨_, _, rfl⟩
  have hbody : StartsHigh ((if hasPre r then pre ++ prePauseParts r else []) ++ (data ++
      ((if hasPost r then postPauseParts r ++ post else []) ++
        (trailParts r ++ footParts r)))) := by
    have hrest := hR.before hdata (postParts_before hR hpost htrailHigh)
    split
    · rw [List.append_assoc]
      exact hR.before hpre (prePauseParts_before hR hrest)
    · exact hrest
  obtain ⟨b₂, q, hheader, hq, hat₂⟩ := decodeHeader_symbols hw ht hbo sync hbody hat
  have hlead : leadParts r = [] := by rw [leadParts, if_neg (by simpa using hc.noLead)]
  obtain ⟨x, hx⟩ : ∃ x, q = none ∨ q = some (space x) := by
    rcases hq with hq | ⟨x, hq⟩
    · exact ⟨0, .inl hq⟩
    · exact ⟨x, .inr hq⟩
  obtain ⟨b₃, hdecode, -⟩ := decodeBits_ok ht hc.bits_le hR hpre hdata hpost (hasHeader r) hx
    (by rw [if_pos hc.noLead]; exact hq) htrailHigh hfed.long (endGap_le hpos hlong)
    (by rw [hlead, List.nil_append]; exact hat₂)
  rw [hc.preData, hcode, hc.postData] at hdecode
  have hne : sync ≠ 0 := by have := hfed.sync.1; simp only at this; omega
  exact receiveDecode_signal now hmode hraw hne hpass.1 hsynced hheader hdecode

theorem SentSymbols.positive {n : ℕ} {d : IrCode} {ps : List Part}
    (h : SentSymbols w sym n d ps)
    (hsym : ∀ v : IrCode, v.toNat < 2 ^ w → ∀ p s, sym v p s → 0 < p ∧ 0 < s) (hle : w ≤ 64) :
    Positive ps := by
  induction n generalizing d ps with
  | zero =>
      obtain rfl : ps = [] := h
      simp
  | succ n ih =>
      obtain ⟨p, s, rest, rfl, hv, hrest⟩ := h
      obtain ⟨hp, hs⟩ := hsym _ (symbolOf_lt hle d) p s hv
      simp only [positive_cons]
      exact ⟨hp, hs, ih hrest⟩

theorem signalParts_positive (htrail : 0 < r.ptrail) (hpre : Positive pre)
    (hdata : Positive data) (hpost : Positive post) : Positive (signalParts r pre data post) := by
  have hhead : Positive (headerParts r) := by
    unfold headerParts
    split
    · next hh => simpa [hasHeader] using hh
    · simp
  have hfoot : Positive (footParts r) := by
    unfold footParts
    split
    · next hh => simpa [hasFoot, and_comm] using hh
    · simp
  have hprePause : Positive (prePauseParts r) := by
    unfold prePauseParts
    split
    · next hp => simpa using hp
    · simp
  have hpostPause : Positive (postPauseParts r) := by
    unfold postPauseParts
    split
    · next hp => simpa using hp
    · simp
  have htail : Positive (trailParts r) := by
    rw [trailParts, if_pos (by omega)]
    simpa using htrail
  unfold signalParts
  simp only [positive_append]
  refine ⟨hhead, ?_, hdata, ?_, htail, hfoot⟩
  · split
    · exact (positive_append _ _).mpr ⟨hpre, hprePause⟩
    · simp
  · split
    · exact (positive_append _ _).mpr ⟨hpostPause, hpost⟩
    · simp

theorem RcmmCoded.symbolData (h : RcmmCoded hw r) (d : IrCode) {bits done : ℕ}
    (hbits : bits % 2 = 0) (hdone : done % 2 = 0) (hle : bits ≤ 63) :
    SymbolData 2 (RcmmSent r) d bits done (dataParts r d bits done) := by
  refine ⟨hbits, hdone, hle, ?_⟩
  rw [dataParts, if_pos h.protocol, if_neg (by omega)]
  exact rcmmLoopParts_sent r _ _

theorem XmpCoded.sent (h : XmpCoded r) (d : IrCode) {bits done : ℕ} (hbits : bits % 4 = 0)
    (hdone : done % 4 = 0) :
    SentSymbols 4 (XmpSent r) (bits / 4) (reverse d bits) (dataParts r d bits done) := by
  have hrcmm : isRcmm r = false := protocolIs_unique (q := rcmm) h.protocol (by decide)
  rw [dataParts, if_neg (by simp [hrcmm]), if_pos h.protocol, if_neg (by omega)]
  exact xmpLoopParts_sent r _ _

/-- What `send_code` builds for symbols is the signal part by part. -/
theorem sentCode_symbols (hc : SymbolRemote r) (hw2 : 2 ≤ w) (hle : w ≤ 64)
    (hsym : ∀ v : IrCode, v.toNat < 2 ^ w → ∀ p s, sym v p s → 0 < p ∧ 0 < s)
    (hpre : SymbolData w sym r.preData r.preDataBits 0 (dataParts r r.preData r.preDataBits 0))
    (hdata : SymbolData w sym c r.bits r.preDataBits (dataParts r c r.bits r.preDataBits))
    (hpost : SymbolData w sym r.postData r.postDataBits (r.preDataBits + r.bits)
      (dataParts r r.postData r.postDataBits (r.preDataBits + r.bits))) (b₀ : SBuf) :
    sentCode r c b₀ = (signalParts r (dataParts r r.preData r.preDataBits 0)
      (dataParts r c r.bits r.preDataBits)
      (dataParts r r.postData r.postDataBits (r.preDataBits + r.bits))).map Part.len := by
  have hparts := codeParts_eq_signalParts hc.noLead c
  obtain ⟨m, z, hpairs, hm⟩ := signalParts_sent hc hw2 hpre hdata hpost
  have hpos := signalParts_positive hc.trail (hpre.2.2.2.positive hsym hle)
    (hdata.2.2.2.positive hsym hle) (hpost.2.2.2.positive hsym hle)
  rw [sentCode_eq (hparts.trans hpairs) (hparts ▸ hpos) hm b₀, hparts]

/-- An RC-MM remote receives what it sends. -/
theorem RcmmCoded.roundTrip (h : RcmmCoded hw r) (hc : SymbolRemote r) (ht : Tolerant r)
    (hcode : c &&& genMask r.bits = c) (hmode : pulseSpaceMode hw = true) {last : LastRemote}
    {sync long : ℤ} (now : ℕ) {b : RBuf} (hpass : SyncPasses r last sync)
    (hlong : (if isRcmm r then 1000 else maxGap r) ≤ long) {b₀ : SBuf}
    (hfed : b.Fed sync (sentCode r c b₀) long) :
    (receiveDecode hw r last now b).1.map (fun d => (d.pre, d.code, d.post)) =
      some (r.preData, c, r.postData) := by
  have hbits := hc.bits_le
  have hcount : bitCount r = r.preDataBits + r.bits + r.postDataBits := rfl
  obtain ⟨e₁, e₂, e₃⟩ := h.even
  have hraw : isRaw r = false := protocolIs_unique (q := rawCodes) h.protocol (by decide)
  have hbo : isBo r = false := protocolIs_unique (q := bo) h.protocol (by decide)
  have hpre := h.symbolData r.preData e₁ (Nat.zero_mod 2) (by omega)
  have hdata := h.symbolData c e₂ e₁ (by omega)
  have hdone : (r.preDataBits + r.bits) % 2 = 0 := by omega
  have hpost := h.symbolData r.postData e₃ hdone (by omega)
  have hsym : ∀ v : IrCode, v.toNat < 2 ^ 2 → ∀ p s, RcmmSent r v p s → 0 < p ∧ 0 < s := by
    intro v hv p s hs
    have hpos := h.positive v.toNat hv
    rw [show rcmmTimes r v.toNat = (p, s) from hs] at hpos
    exact hpos
  rw [sentCode_symbols hc (by decide) (by decide) hsym hpre hdata hpost] at hfed
  exact receiveDecode_symbols hc ht hraw hbo (h.readsData ht) (by decide) hpre hdata hpost hcode
    hmode now hpass hlong hfed

/-- An XMP remote receives what it sends, with deviations below half of `sone`. -/
theorem XmpCoded.roundTrip (h : XmpCoded r) (hc : SymbolRemote r) (ht : Tolerant r)
    (hcode : c &&& genMask r.bits = c) (hmode : pulseSpaceMode hw = true) {last : LastRemote}
    {sync long : ℤ} (now : ℕ) {b : RBuf} (hpass : SyncPasses r last sync)
    (hlong : (if isRcmm r then 1000 else maxGap r) ≤ long) {ps : List Part}
    (hps : XmpReceived r c ps) (hfed : b.Fed sync (ps.map Part.len) long) :
    (receiveDecode hw r last now b).1.map (fun d => (d.pre, d.code, d.post)) =
      some (r.preData, c, r.postData) := by
  obtain ⟨pre, data, post, hpre, hdata, hpost, rfl⟩ := hps
  have hbits := hc.bits_le
  have hcount : bitCount r = r.preDataBits + r.bits + r.postDataBits := rfl
  obtain ⟨e₁, e₂, e₃⟩ := h.nibbles
  have hraw : isRaw r = false := protocolIs_unique (q := rawCodes) h.protocol (by decide)
  have hbo : isBo r = false := protocolIs_unique (q := bo) h.protocol (by decide)
  exact receiveDecode_symbols hc ht hraw hbo (h.readsData hw ht) (by decide)
    ⟨e₁, rfl, by omega, (h.sent r.preData e₁ rfl).deviates hpre⟩
    ⟨e₂, e₁, by omega, (h.sent c e₂ e₁).deviates hdata⟩
    ⟨e₃, by omega, by omega, (h.sent r.postData e₃ (by omega)).deviates hpost⟩ hcode hmode now
    hpass hlong hfed

/-- Symbols that arrive as they were sent do not deviate. -/
theorem XmpCoded.deviates_sent (h : XmpCoded r) {n : ℕ} {d : IrCode} {ps : List Part}
    (hps : SentSymbols 4 (XmpSent r) n d ps) : Deviates r.sone ps ps := by
  induction n generalizing d ps with
  | zero =>
      obtain rfl : ps = [] := hps
      exact .nil
  | succ n ih =>
      obtain ⟨p, s, rest, rfl, hv, hrest⟩ := hps
      obtain ⟨hp, hs, -⟩ := h.near hv
      have hone := h.sone
      refine .symbol hp hs ?_ (ih hrest)
      rw [sub_self, abs_zero]
      omega

theorem XmpCoded.symbolData (h : XmpCoded r) (d : IrCode) {bits done : ℕ}
    (hbits : bits % 4 = 0) (hdone : done % 4 = 0) (hle : bits ≤ 63) :
    SymbolData 4 (XmpNear r) d bits done (dataParts r d bits done) :=
  ⟨hbits, hdone, hle, (h.sent d hbits hdone).mono fun _ _ _ => h.near⟩

/-- What `send_code` builds may be received. -/
theorem XmpCoded.received_sentCode (h : XmpCoded r) (hc : SymbolRemote r) (c : IrCode)
    (b₀ : SBuf) : ∃ ps, XmpReceived r c ps ∧ sentCode r c b₀ = ps.map Part.len := by
  have hbits := hc.bits_le
  have hcount : bitCount r = r.preDataBits + r.bits + r.postDataBits := rfl
  obtain ⟨e₁, e₂, e₃⟩ := h.nibbles
  refine ⟨_, ⟨_, _, _, h.deviates_sent (h.sent r.preData e₁ rfl),
    h.deviates_sent (h.sent c e₂ e₁), h.deviates_sent (h.sent r.postData e₃ (by omega)), rfl⟩, ?_⟩
  exact sentCode_symbols hc (by decide) (by decide) (fun v _ p s hs => ⟨hs.1, hs.2.1⟩)
    (h.symbolData r.preData e₁ rfl (by omega)) (h.symbolData c e₂ e₁ (by omega))
    (h.symbolData r.postData e₃ (by omega) (by omega)) b₀

end RoundTrip

/-- What RC-MM and XMP remotes send is what they receive, and XMP symbols may
deviate by less than half of `sone`. -/
theorem symbolCoded_roundTrip {hw : Hardware} {r : IrRemote} (hc : SymbolRemote r)
    (h : RcmmCoded hw r ∨ XmpCoded r) (ht : Tolerant r) {c : IrCode}
    (hcode : c &&& genMask r.bits = c) (hmode : pulseSpaceMode hw = true) {last : LastRemote}
    {sync long : ℤ} (now : ℕ) {b : RBuf} (hpass : SyncPasses r last sync)
    (hlong : (if isRcmm r then 1000 else maxGap r) ≤ long) :
    (∀ b₀ : SBuf, b.Fed sync (sentCode r c b₀) long →
        (receiveDecode hw r last now b).1.map (fun d => (d.pre, d.code, d.post)) =
          some (r.preData, c, r.postData)) ∧
      (isXmp r = true → ∀ ps, XmpReceived r c ps → b.Fed sync (ps.map Part.len) long →
        (receiveDecode hw r last now b).1.map (fun d => (d.pre, d.code, d.post)) =
          some (r.preData, c, r.postData)) := by
  rcases h with h | h
  · have hxmp : isXmp r = false := protocolIs_unique (q := xmp) h.protocol (by decide)
    refine ⟨fun b₀ hfed => h.roundTrip hc ht hcode hmode now hpass hlong hfed, fun hx => ?_⟩
    simp [hxmp] at hx
  · refine ⟨fun b₀ hfed => ?_, fun _ ps hps hfed =>
      h.roundTrip hc ht hcode hmode now hpass hlong hps hfed⟩
    obtain ⟨ps, hps, heq⟩ := h.received_sentCode hc c b₀
    rw [heq] at hfed
    exact h.roundTrip hc ht hcode hmode now hpass hlong hps hfed

/-- An XMP remote with header, constant data around the code and foot. -/
def xmpTvRemote : IrRemote :=
  { flags := xmp ||| constLength, eps := 20, aeps := 50, bits := 8, preDataBits := 4,
    preData := 1, postDataBits := 4, postData := 0xd, phead := 3000, shead := 1500,
    pzero := 210, szero := 760, sone := 137, preP := 500, preS := 1300, ptrail := 210,
    pfoot := 250, sfoot := 2500, gap := 80000 }

/-- The nibbles 1, 2 and 14, and 13, some with a sum that is off by up to 68. -/
def xmpTvParts : List Part :=
  signalParts xmpTvRemote [pulse 180, space 859] [pulse 230, space 1080, pulse 210, space 2678]
    [pulse 200, space 2500]

theorem symbolCoded_roundTrip_xmp :
    (receiveDecode mode2Hardware xmpTvRemote .null 0
        { input := feed 200000 (xmpTvParts.map Part.len) 100000 }).1.map
      (fun d => (d.pre, d.code, d.post)) = some (1, 0x2e, 0xd) := by
  have hpass : SyncPasses xmpTvRemote .null 200000 :=
    ⟨by decide, fun l hl => by simp [LastRemote.get] at hl⟩
  have hlong : (if isRcmm xmpTvRemote then 1000 else maxGap xmpTvRemote) ≤ 100000 := by decide
  refine (symbolCoded_roundTrip (by constructor <;> decide) (.inr (by constructor <;> decide))
    (by decide) (c := 0x2e) (by decide) (by decide) 0 hpass hlong).2 (by decide) xmpTvParts ?_ ?_
  · exact ⟨_, _, _, .symbol (by decide) (by decide) (by decide) .nil,
      .symbol (by decide) (by decide) (by decide)
        (.symbol (by decide) (by decide) (by decide) .nil),
      .symbol (by decide) (by decide) (by decide) .nil, rfl⟩
  · exact ⟨List.prefix_refl _, by decide, by decide, by decide⟩

/-- An RC-MM remote with header and constant data around the code. -/
def rcmmTvRemote : IrRemote :=
  { flags := rcmm, eps := 5, aeps := 20, bits := 4, preDataBits := 2, preData := 1,
    postDataBits := 2, postData := 2, phead := 416, shead := 278, pzero := 167, szero := 278,
    pone := 167, sone := 444, ptwo := 167, stwo := 611, pthree := 167, sthree := 778,
    ptrail := 167, gap := 27778 }

/-- The same with a leading pulse, which the decoder takes for a part of the
first symbol. -/
def rcmmLeadRemote : IrRemote := { rcmmTvRemote with plead := 150 }

/-- Negative tolerances that let the short symbols pass, but not the trail. -/
def rcmmStrictRemote : IrRemote :=
  { rcmmTvRemote with eps := -1, aeps := -1, phead := 0, shead := 0, pzero := 10, szero := 10,
                      pone := 10, sone := 20, ptwo := 10, stwo := 30, pthree := 10, sthree := 40 }

/-- A repeat code that looks like the symbol 0. -/
def rcmmRepeatRemote : IrRemote :=
  { rcmmTvRemote with phead := 0, shead := 0, bits := 2, preDataBits := 0, preData := 0,
                      postDataBits := 0, postData := 0, prepeat := 167, srepeat := 278,
                      codes := [{ name := ['1'], code := 1 }], lastCode := some 0 }

/-- An XMP remote whose symbol 0 has no space. -/
def xmpNoSpaceRemote : IrRemote :=
  { flags := xmp, eps := 20, aeps := 50, bits := 8, pzero := 210, szero := 0, sone := 137,
    ptrail := 210, gap := 80000 }

/-- A leading pulse, negative tolerances, a repeat code and a symbol without
a space each break the round trip. -/
theorem symbolCoded_roundTrip_fails :
    (RcmmCoded mode2Hardware rcmmLeadRemote ∧ Tolerant rcmmLeadRemote ∧
        (receiveDecode mode2Hardware rcmmLeadRemote .null 0
          { input := feed 200000 (sentCode rcmmLeadRemote 9 initSendBuffer) 100000 }).1 = none) ∧
      (RcmmCoded mode2Hardware rcmmStrictRemote ∧ SymbolRemote rcmmStrictRemote ∧
        (receiveDecode mode2Hardware rcmmStrictRemote .null 0
          { input := feed 200000 (sentCode rcmmStrictRemote 9 initSendBuffer) 100000 }).1 =
            none) ∧
      (RcmmCoded mode2Hardware rcmmRepeatRemote ∧ SymbolRemote rcmmRepeatRemote ∧
        (receiveDecode mode2Hardware rcmmRepeatRemote .same 0
          { input := feed 200000 (sentCode rcmmRepeatRemote 0 initSendBuffer) 100000 }).1.map
            (fun d => (d.pre, d.code, d.post)) = some (0, 1, 0)) ∧
      (isXmp xmpNoSpaceRemote = true ∧ SymbolRemote xmpNoSpaceRemote ∧
        (receiveDecode mode2Hardware xmpNoSpaceRemote .null 0
          { input := feed 200000 (sentCode xmpNoSpaceRemote 1 initSendBuffer) 100000 }).1 =
            none) := by
  refine ⟨⟨by constructor <;> decide, by decide, by decide +kernel⟩,
    ⟨by constructor <;> decide, by constructor <;> decide, by decide +kernel⟩,
    ⟨by constructor <;> decide, by constructor <;> decide, by decide +kernel⟩,
    by decide, by constructor <;> decide, by decide +kernel⟩

end Lirc
