import Lirc.SerialFrames

/-!
Which samples the serial decoder cuts into frames. A sample holds so many
bits, whatever the decoder has read before; the frames are right when every
pulse ends with its frame, every sample ends with something that fits, and no
pulse stands where a space is read.
-/

namespace Lirc

section

variable (hw : Hardware) (r : IrRemote)

/-! ### The bits of a sample -/

/-- A rest that may be taken for nothing is nothing. -/
def someLeft (x : ℤ) : ℤ := if expect hw r x 0 then 0 else x

/-- What is left of a length in front of each bit that there is room for, so many at most. -/
def bitLefts (t : ℤ) : ℕ → ℤ → List ℤ
  | 0, _ => []
  | n + 1, x =>
      let left := someLeft hw r x
      if 0 < x ∧ (t < left ∨ expect hw r left t) then left :: bitLefts t n (left - min left t)
      else []

/-- The bits of a length `t` that a sample of length `x` holds. -/
def sampleBits (t x : ℤ) : List ℤ := bitLefts hw r t x.toNat x

/-- The sample ends with a bit: what is left in front of the last one fits it. -/
def EndsWithBit (t x : ℤ) : Prop := ∃ left ∈ (sampleBits hw r t x).getLast?, expect hw r left t

/-- What the start bit leaves of a pulse. -/
def behindStart (x : ℤ) : ℤ := if expect hw r x (bitTime r) then 0 else x - bitTime r

/-! ### The words that are read -/

/-- The next words, read in turn for a pulse and for a space. A zero is a read that
times out. -/
def serialWords (r : IrRemote) : Bool → ℕ → RBuf → List ℕ
  | _, 0, _ => []
  | space, n + 1, b =>
      let (w, b') := getNextRecBuffer b (if space then serialMaxSpace r else serialMaxPulse r)
      w :: serialWords r (!space) n b'

/-- The words make up so many frames, the first of which has had so many units: its start bit,
its bits and its parity bit. A pulse begins with the start bit when there has been none; it
ends with a unit that fits, and goes on no further than the bits of the frame. A space goes
on to the stop bit, or it ends with a bit that fits; the last one may be open. -/
def FramesFit : Bool → ℕ → ℕ → List ℕ → Prop
  | _, 0, _, _ => True
  | _, _ + 1, _, [] => False
  | false, n + 1, units, w :: words =>
      let left := if units = 0 then behindStart hw r (sampleValue w) else sampleValue w
      let units' := max 1 units + (sampleBits hw r r.pzero left).length
      (left = 0 ∨ EndsWithBit hw r r.pzero left) ∧
        units' ≤ byteBits r (parityBits r) + 1 ∧ FramesFit true (n + 1) units' words
  | true, n + 1, units, w :: words =>
      let left : ℤ := if w = 0 then serialMaxSpace r else w
      let units' := units + (sampleBits hw r r.sone left).length
      isPulse w = false ∧
        if byteBits r (parityBits r) < units' then FramesFit false n 0 words
        else EndsWithBit hw r r.sone left ∧ FramesFit false (n + 1) units' words

/-- The bits are those of whole bytes, and the samples make up their frames. -/
structure StaysInFrames (bits : ℕ) (b : RBuf) : Prop where
  bytes : bits % r.bitsInByte = 0
  samples : ∃ n, FramesFit hw r false (bits / r.bitsInByte) 0 (serialWords r false n b)

instance (t x : ℤ) : Decidable (EndsWithBit hw r t x) :=
  inferInstanceAs (Decidable (∃ left ∈ (sampleBits hw r t x).getLast?, expect hw r left t = true))

instance decFramesFit : (space : Bool) → (n units : ℕ) → (words : List ℕ) →
    Decidable (FramesFit hw r space n units words)
  | _, 0, _, _ => .isTrue (by rw [FramesFit]; trivial)
  | _, _ + 1, _, [] => .isFalse (by rw [FramesFit]; exact id)
  | false, n + 1, units, w :: words =>
      have := decFramesFit true (n + 1)
        (max 1 units + (sampleBits hw r r.pzero
          (if units = 0 then behindStart hw r (sampleValue w) else sampleValue w)).length) words
      decidable_of_iff _ (by rw [FramesFit])
  | true, n + 1, units, w :: words =>
      have := decFramesFit false n 0 words
      have := decFramesFit false (n + 1)
        (units + (sampleBits hw r r.sone (if w = 0 then serialMaxSpace r else w)).length) words
      decidable_of_iff _ (by rw [FramesFit])

end

section

variable {hw : Hardware} {r : IrRemote} {t x left : ℤ} {n : ℕ}

/-! ### One bit less -/

theorem someLeft_nonneg (hx : 0 ≤ x) : 0 ≤ someLeft hw r x := by
  rw [someLeft]
  split
  · exact le_rfl
  · exact hx

theorem someLeft_le (hx : 0 ≤ x) : someLeft hw r x ≤ x := by
  rw [someLeft]
  split
  · exact hx
  · exact le_rfl

theorem bitLefts_of_nonpos (hx : x ≤ 0) : bitLefts hw r t n x = [] := by
  cases n with
  | zero => rfl
  | succ n =>
      rw [bitLefts]
      exact if_neg fun h => absurd h.1 (not_lt.mpr hx)

/-- There are no more bits in a sample than its length. -/
theorem bitLefts_eq (ht : 0 < t) (hn : x.toNat ≤ n) :
    bitLefts hw r t n x = sampleBits hw r t x := by
  have hfuel : ∀ m n : ℕ, ∀ x : ℤ, x.toNat ≤ m → x.toNat ≤ n →
      bitLefts hw r t m x = bitLefts hw r t n x := by
    intro m
    induction m with
    | zero =>
        intro n x hm _
        have hx : x ≤ 0 := by omega
        rw [bitLefts_of_nonpos hx, bitLefts_of_nonpos hx]
    | succ m ih =>
        intro n x hm hn
        by_cases hx : 0 < x
        · obtain ⟨n, rfl⟩ : ∃ k, n = k + 1 := ⟨n - 1, by omega⟩
          have hle := @someLeft_le hw r x hx.le
          have hnonneg := @someLeft_nonneg hw r x hx.le
          rw [bitLefts, bitLefts, ih n _ (by omega) (by omega)]
        · rw [bitLefts_of_nonpos (not_lt.mp hx), bitLefts_of_nonpos (not_lt.mp hx)]
  exact hfuel n x.toNat x hn le_rfl

theorem sampleBits_of_nonpos (hx : x ≤ 0) : sampleBits hw r t x = [] := bitLefts_of_nonpos hx

/-- There is room for a bit. -/
theorem sampleBits_cons (ht : 0 < t) (hx : 0 < x)
    (hbit : t < someLeft hw r x ∨ expect hw r (someLeft hw r x) t = true) :
    sampleBits hw r t x =
      someLeft hw r x :: sampleBits hw r t (someLeft hw r x - min (someLeft hw r x) t) := by
  obtain ⟨n, hn⟩ : ∃ n, x.toNat = n + 1 := ⟨x.toNat - 1, by omega⟩
  have hle := @someLeft_le hw r x hx.le
  have hnonneg := @someLeft_nonneg hw r x hx.le
  rw [sampleBits, hn, bitLefts, if_pos ⟨hx, hbit⟩, bitLefts_eq ht (by omega)]

/-- There is room for none. -/
theorem sampleBits_nil
    (hbit : ¬(t < someLeft hw r x ∨ expect hw r (someLeft hw r x) t = true)) :
    sampleBits hw r t x = [] := by
  rw [sampleBits]
  cases x.toNat with
  | zero => rfl
  | succ n =>
      rw [bitLefts]
      exact if_neg fun h => hbit h.2

/-- Something has been taken off the sample in front of this part, and all that was left
fitted it if there is no bit in the part. -/
def EndsBehind (hw : Hardware) (r : IrRemote) (fitted : Prop) (t x : ℤ) : Prop :=
  sampleBits hw r t x = [] ∧ fitted ∨ EndsWithBit hw r t x

theorem endsBehind_nil {fitted : Prop} (h : sampleBits hw r t x = []) :
    EndsBehind hw r fitted t x ↔ fitted := by
  rw [EndsBehind, EndsWithBit, h]
  simp

theorem endsBehind_false : EndsBehind hw r False t x ↔ EndsWithBit hw r t x := by
  rw [EndsBehind, and_false, false_or]

theorem endsBehind_cons {fitted : Prop} {y : ℤ}
    (h : sampleBits hw r t x = left :: sampleBits hw r t y) :
    EndsBehind hw r fitted t x ↔ EndsBehind hw r (expect hw r left t = true) t y := by
  rw [EndsBehind, EndsBehind, EndsWithBit, EndsWithBit, h, List.getLast?_cons]
  cases hy : sampleBits hw r t y with
  | nil => simp
  | cons head tail => simp [List.getLast?_cons]

end

section

variable {hw : Hardware} {r : IrRemote} {space : Bool} {n units : ℕ} {b : RBuf}

/-! ### What is still to be read -/

/-- The words do not depend on what is pending. -/
theorem serialWords_pending (p q : ℤ) :
    serialWords r space n { b with pendingp := p, pendings := q } = serialWords r space n b := by
  induction n generalizing space b with
  | zero => rfl
  | succ n ih =>
      have hread : ∀ m, getNextRecBuffer { b with pendingp := p, pendings := q } m =
          ((getNextRecBuffer b m).1,
            { (getNextRecBuffer b m).2 with pendingp := p, pendings := q }) := by
        intro m
        simp only [getNextRecBuffer, getNextRecBufferInternal]
        split
        · rfl
        · split
          · split <;> rfl
          · rfl
      rw [serialWords, serialWords, hread]
      dsimp only
      rw [ih]

/-- The words to come make up so many frames. -/
def WordsFit (hw : Hardware) (r : IrRemote) (space : Bool) (n units : ℕ) (b : RBuf) : Prop :=
  ∃ m, FramesFit hw r space n units (serialWords r space m b)

theorem wordsFit_zero : WordsFit hw r space 0 units b := ⟨0, by rw [FramesFit]; trivial⟩

theorem wordsFit_pending (p q : ℤ) :
    WordsFit hw r space n units { b with pendingp := p, pendings := q } ↔
      WordsFit hw r space n units b := by
  simp only [WordsFit, serialWords_pending]

/-- There are words for a frame that is not complete. -/
theorem wordsFit_succ :
    WordsFit hw r space (n + 1) units b ↔
      ∃ m, FramesFit hw r space (n + 1) units
        ((getNextRecBuffer b (if space then serialMaxSpace r else serialMaxPulse r)).1 ::
          serialWords r (!space) m
            (getNextRecBuffer b (if space then serialMaxSpace r else serialMaxPulse r)).2) := by
  constructor
  · rintro ⟨m, hm⟩
    cases m with
    | zero =>
        rw [serialWords, FramesFit] at hm
        exact hm.elim
    | succ m => exact ⟨m, hm⟩
  · rintro ⟨m, hm⟩
    exact ⟨m + 1, hm⟩

/-- What is left of a sample goes on with the frames, when so many are to come behind the
one that has begun, and `fitted` tells whether all that was left in front fitted what was
taken. -/
def PartFits (hw : Hardware) (r : IrRemote) (fitted : Prop) (space : Bool) (n units : ℕ) (x : ℤ)
    (b : RBuf) : Prop :=
  match space with
  | false =>
      let units' := units + (sampleBits hw r r.pzero x).length
      EndsBehind hw r fitted r.pzero x ∧ units' ≤ byteBits r (parityBits r) + 1 ∧
        WordsFit hw r true (n + 1) units' b
  | true =>
      let units' := units + (sampleBits hw r r.sone x).length
      if byteBits r (parityBits r) < units' then WordsFit hw r false n 0 b
      else EndsBehind hw r fitted r.sone x ∧ WordsFit hw r false (n + 1) units' b

theorem partFits_pending (fitted : Prop) (x p q : ℤ) :
    PartFits hw r fitted space n units x { b with pendingp := p, pendings := q } ↔
      PartFits hw r fitted space n units x b := by
  cases space <;> simp only [PartFits, wordsFit_pending]

/-- A pulse begins a frame. -/
theorem wordsFit_start {w : ℕ} {b' : RBuf} (h : getNextRecBuffer b (serialMaxPulse r) = (w, b')) :
    WordsFit hw r false (n + 1) 0 b ↔
      if behindStart hw r (sampleValue w) = 0 then
        1 ≤ byteBits r (parityBits r) + 1 ∧ WordsFit hw r true (n + 1) 1 b'
      else PartFits hw r False false n 1 (behindStart hw r (sampleValue w)) b' := by
  rw [wordsFit_succ, if_neg Bool.false_ne_true, h]
  simp only [FramesFit, if_true, exists_and_left, Nat.max_zero, Bool.not_false]
  split
  · next hzero =>
      rw [hzero, sampleBits_of_nonpos le_rfl]
      simp [WordsFit]
  · next hne =>
      rw [PartFits, endsBehind_false, or_iff_right hne]
      rfl

/-- A pulse goes on with a frame. -/
theorem wordsFit_pulse {w : ℕ} {b' : RBuf} (h : getNextRecBuffer b (serialMaxPulse r) = (w, b'))
    (hsome : sampleValue w ≠ 0) (hunits : units ≠ 0) :
    WordsFit hw r false (n + 1) units b ↔
      PartFits hw r False false n units (sampleValue w) b' := by
  rw [wordsFit_succ, if_neg Bool.false_ne_true, h]
  simp only [FramesFit, if_neg hunits, exists_and_left, Bool.not_false,
    Nat.max_eq_right (Nat.one_le_iff_ne_zero.mpr hunits), or_iff_right hsome]
  rw [PartFits, endsBehind_false]
  rfl

/-- A space goes on with a frame. -/
theorem wordsFit_space {w : ℕ} {b' : RBuf} (h : getNextRecBuffer b (serialMaxSpace r) = (w, b')) :
    WordsFit hw r true (n + 1) units b ↔
      isPulse w = false ∧
        PartFits hw r False true n units (if w = 0 then serialMaxSpace r else w) b' := by
  rw [wordsFit_succ, if_pos rfl, h]
  simp only [FramesFit, exists_and_left, Bool.not_true]
  refine and_congr_right fun _ => ?_
  rw [PartFits]
  by_cases hfull : byteBits r (parityBits r) < units +
      (sampleBits hw r r.sone (if w = 0 then serialMaxSpace r else w)).length
  · simp only [if_pos hfull, WordsFit]
  · simp only [if_neg hfull, WordsFit, endsBehind_false, exists_and_left]

end

section

variable {hw : Hardware} {r : IrRemote} {space : Bool} {n units : ℕ} {s s' : SerialState}
  {b b' : RBuf} {fitted : Prop} {x : ℤ}

/-! ### One round -/

/-- So many frames are complete, and the next has had so many units. -/
inductive FrameAt (r : IrRemote) (n : ℕ) : ℕ → SerialState → RBuf → Prop
  | idle {s : SerialState} {b : RBuf} (hpending : b.pendingp = bitTime r)
      (hlevel : s.space = false) (hdelta : s.delta = 0) (hstop : s.stopBit = false)
      (hreceived : s.received = n * byteBits r (parityBits r)) : FrameAt r n 0 s b
  | inside {s : SerialState} {b : RBuf} {bits : ℕ} (hlt : bits < byteBits r (parityBits r))
      (hp : b.pendingp = 0) (hs : b.pendings = 0) (hstop : s.stopBit = false)
      (hreceived : s.received = n * byteBits r (parityBits r) + bits) :
      FrameAt r n (bits + 1) s b
  | awaiting {s : SerialState} {b : RBuf} (hp : b.pendingp = 0) (hs : b.pendings = stopTime r)
      (hstop : s.stopBit = true) (hreceived : s.received = (n + 1) * byteBits r (parityBits r)) :
      FrameAt r n (byteBits r (parityBits r) + 1) s b

/-- What is still to come makes up so many frames, the first of which has had so many units:
what is left of the sample, or the words. -/
def Ahead (hw : Hardware) (r : IrRemote) (fitted : Prop) (n units : ℕ) (s : SerialState)
    (b : RBuf) : Prop :=
  if s.delta = 0 then WordsFit hw r s.space n units b
  else PartFits hw r fitted s.space (n - 1) units s.delta b

/-- The bit is the last of its frame. -/
theorem endsFrame_iff {bits : ℕ} (hlt : bits < byteBits r (parityBits r))
    (hreceived : s.received = n * byteBits r (parityBits r) + bits) :
    (s.received + 1) % byteBits r (parityBits r) = 0 ↔ bits + 1 = byteBits r (parityBits r) := by
  rw [hreceived, Nat.add_assoc, Nat.mul_comm, Nat.mul_add_mod]
  constructor
  · intro h
    have hle := Nat.le_of_dvd (Nat.succ_pos _) (Nat.dvd_of_mod_eq_zero h)
    omega
  · intro h
    rw [h, Nat.mod_self]

theorem behindBit_eq (s : SerialState) (x : ℤ) : behindBit r s x = x - min x (levelBit r s) := by
  rw [behindBit]
  split
  · next h => rw [min_eq_left h.le]
  · next h => rw [min_eq_right (not_lt.mp h)]

theorem behindBit_nonneg : 0 ≤ behindBit r s x := by
  rw [behindBit_eq]
  exact sub_nonneg.mpr (min_le_left _ _)

/-- A bit that is left no rest fits. -/
theorem fits_of_behindBit (hbit : FitsBit hw r s x) (hzero : behindBit r s x = 0) :
    expect hw r x (levelBit r s) = true := by
  refine hbit.resolve_left fun hlt => ?_
  rw [behindBit_eq, min_eq_right hlt.le] at hzero
  omega

theorem behindPending_zero (h : levelPending s b = 0) :
    behindPending hw r s b = someLeft hw r s.delta := by
  rw [behindPending, h, sub_zero]
  rfl

theorem levelBit_pos (hpos : PositiveTimings r) : 0 < levelBit r s := by
  rw [levelBit]
  split
  · exact hpos.sone
  · exact hpos.pzero

/-- The bits of a sample of the level that is read. -/
theorem partFits_cons (hpos : PositiveTimings r) (hx : 0 < s.delta)
    (hbit : FitsBit hw r s (someLeft hw r s.delta)) :
    PartFits hw r fitted s.space n units s.delta b ↔
      PartFits hw r (expect hw r (someLeft hw r s.delta) (levelBit r s) = true) s.space n
        (units + 1) (behindBit r s (someLeft hw r s.delta)) b := by
  have hcons := sampleBits_cons (levelBit_pos hpos) hx hbit
  rw [← behindBit_eq] at hcons
  cases hlevel : s.space with
  | false =>
      have hbitTime : levelBit r s = r.pzero := by rw [levelBit, hlevel, if_neg Bool.false_ne_true]
      rw [hbitTime] at hcons ⊢
      simp only [PartFits]
      rw [endsBehind_cons hcons, hcons, List.length_cons, Nat.add_right_comm, Nat.add_assoc units]
  | true =>
      have hbitTime : levelBit r s = r.sone := by rw [levelBit, hlevel, if_pos rfl]
      rw [hbitTime] at hcons ⊢
      simp only [PartFits]
      rw [endsBehind_cons hcons, hcons, List.length_cons, Nat.add_right_comm, Nat.add_assoc units]

/-- There is room for no bit. -/
theorem partFits_nil (hbit : ¬FitsBit hw r s (someLeft hw r s.delta))
    (hunits : units ≤ byteBits r (parityBits r) + 1)
    (hspace : s.space = true → units ≤ byteBits r (parityBits r)) :
    PartFits hw r fitted s.space n units s.delta b ↔
      fitted ∧ WordsFit hw r (!s.space) (n + 1) units b := by
  have hnil := sampleBits_nil hbit
  cases hlevel : s.space with
  | false =>
      rw [levelBit, hlevel, if_neg Bool.false_ne_true] at hnil
      simp only [PartFits]
      rw [endsBehind_nil hnil, hnil, List.length_nil, Nat.add_zero, and_iff_right hunits]
      rfl
  | true =>
      rw [levelBit, hlevel, if_pos rfl] at hnil
      simp only [PartFits]
      rw [endsBehind_nil hnil, hnil, List.length_nil, Nat.add_zero,
        if_neg (not_lt.mpr (hspace hlevel))]
      rfl

/-- A part that is used up leaves what the words make up. -/
theorem partFits_zero (hfitted : fitted) (hunits : units ≤ byteBits r (parityBits r) + 1)
    (hspace : space = true → units ≤ byteBits r (parityBits r)) :
    PartFits hw r fitted space n units 0 b ↔ WordsFit hw r (!space) (n + 1) units b := by
  cases space with
  | false =>
      simp only [PartFits]
      rw [endsBehind_nil (sampleBits_of_nonpos le_rfl), sampleBits_of_nonpos le_rfl,
        List.length_nil, Nat.add_zero, and_iff_right hfitted, and_iff_right hunits]
      rfl
  | true =>
      simp only [PartFits]
      rw [endsBehind_nil (sampleBits_of_nonpos le_rfl), sampleBits_of_nonpos le_rfl,
        List.length_nil, Nat.add_zero, if_neg (not_lt.mpr (hspace rfl)), and_iff_right hfitted]
      rfl

/-- A bit is taken. -/
theorem partFits_bit (hpos : PositiveTimings r) (hx : 0 < s.delta)
    (hbit : FitsBit hw r s (someLeft hw r s.delta)) (hunits : units ≤ byteBits r (parityBits r))
    (hend : s.space = true → behindBit r s (someLeft hw r s.delta) = 0 →
      units < byteBits r (parityBits r)) :
    PartFits hw r fitted s.space n units s.delta b ↔
      if behindBit r s (someLeft hw r s.delta) = 0 then
        WordsFit hw r (!s.space) (n + 1) (units + 1) b
      else
        PartFits hw r (expect hw r (someLeft hw r s.delta) (levelBit r s) = true) s.space n
          (units + 1) (behindBit r s (someLeft hw r s.delta)) b := by
  rw [partFits_cons hpos hx hbit]
  split
  · next hzero =>
      rw [hzero, partFits_zero (fits_of_behindBit hbit hzero) (Nat.succ_le_succ hunits)
        fun hspace => hend hspace hzero]
  · rfl

/-- A bit that is taken behind the bits of its frame leaves the frames. -/
theorem not_partFits_overrun (hpos : PositiveTimings r) (hx : 0 < s.delta)
    (hlevel : s.space = false) (hbit : FitsBit hw r s (someLeft hw r s.delta)) :
    ¬PartFits hw r fitted s.space n (byteBits r (parityBits r) + 1) s.delta b := by
  rw [partFits_cons hpos hx hbit, hlevel]
  rintro ⟨-, hle, -⟩
  omega

/-- The stop bit is taken. -/
theorem partFits_stop (hlevel : s.space = true) :
    PartFits hw r fitted s.space n (byteBits r (parityBits r) + 1) s.delta b ↔
      WordsFit hw r false n 0 b := by
  rw [hlevel]
  simp only [PartFits]
  rw [if_pos (by omega)]

variable {fresh lost : Bool}

theorem takeEvent_fits_of_bit (h : levelPending s b ≤ 0)
    (hbit : FitsBit hw r s (behindPending hw r s b)) :
    (takeEvent hw r fresh lost s b).Fits hw r ↔
      expect hw r (behindPending hw r s b) (levelBit r s) = true := by
  have hkind := @takeEvent_kind_of_bit hw r s b fresh lost h hbit
  have hleft : (takeEvent hw r fresh lost s b).left = behindPending hw r s b :=
    if_neg (not_lt.mpr h)
  have hlength : (takeEvent hw r fresh lost s b).length r = levelBit r s := by
    rw [SerialEvent.length, hkind]
    rfl
  rw [SerialEvent.Fits, hlength, hleft]

/-- A round goes on with the frames, of which so many are to come: what it takes is right and
what is still to come fits. Or it takes a bit behind the bits of its frame. -/
def RoundFits (hw : Hardware) (r : IrRemote) (before fitted : Prop) (e : SerialEvent) (n m : ℕ)
    (s' : SerialState) (b' : RBuf) : Prop :=
  e.kind = .bit ∧ e.awaited = true ∧ ¬before ∨
    (e.kind = .bit → e.awaited = false) ∧
      ∃ n' m' units', FrameAt r n' units' s' b' ∧ n' + m' = n + m ∧ (m' = 0 → units' = 0) ∧
        0 ≤ s'.delta ∧
        (before ↔ (e.kind = .rest → fitted) ∧ Ahead hw r (e.Fits hw r) m' units' s' b')

theorem FrameAt.round_inside {bits : ℕ} (hpos : PositiveTimings r) (hx : 0 < s.delta)
    (hlt : bits < byteBits r (parityBits r)) (hp : b.pendingp = 0) (hs : b.pendings = 0)
    (hstop : s.stopBit = false) (hreceived : s.received = n * byteBits r (parityBits r) + bits)
    {m : ℕ} (htake : TakeStep hw r (parityBits r) (bitTime r) (stopTime r) s b s' b') :
    RoundFits hw r (PartFits hw r fitted s.space m (bits + 1) s.delta b) fitted
      (takeEvent hw r fresh lost s b) n (m + 1) s' b' := by
  have hzero : levelPending s b = 0 := by
    rw [levelPending, hp, hs]
    split <;> rfl
  have hleft : behindPending hw r s b = someLeft hw r s.delta := behindPending_zero hzero
  have hawaited : (takeEvent hw r fresh lost s b).kind = .bit →
      (takeEvent hw r fresh lost s b).awaited = false := fun _ => hstop
  have hends := endsFrame_iff hlt hreceived
  have hunits : bits + 1 ≤ byteBits r (parityBits r) := hlt
  have hmore : ∀ {j : ℕ}, m + 1 = 0 → j + 1 = 0 := fun h => absurd h (Nat.succ_ne_zero m)
  refine .inr ⟨hawaited, ?_⟩
  cases htake with
  | stop hpending => exact absurd hpending (by rw [hzero]; exact lt_irrefl 0)
  | pending hpending => exact absurd hpending (by rw [hzero]; exact lt_irrefl 0)
  | bit hle _ hbit hend =>
      have hkind := @takeEvent_kind_of_bit hw r s b fresh lost hle hbit
      have hfits := @takeEvent_fits_of_bit hw r s b fresh lost hle hbit
      have hne := hends.not.mp hend
      refine ⟨n, m + 1, bits + 2, .inside (by omega) hp hs hstop ?_, rfl, hmore,
        behindBit_nonneg, ?_⟩
      · show s.received + 1 = _
        omega
      · rw [hleft] at hbit hfits ⊢
        rw [partFits_bit hpos hx hbit hunits fun _ _ => by omega, hkind, Ahead, hfits]
        simp only [reduceCtorEq, false_implies, true_and, nextLevel, Nat.add_sub_cancel]
        split <;> rfl
  | byte hle _ hbit hend _ hsome =>
      have hkind := @takeEvent_kind_of_bit hw r s b fresh lost hle hbit
      have hfits := @takeEvent_fits_of_bit hw r s b fresh lost hle hbit
      have hlast := hends.mp hend
      refine ⟨n, m + 1, byteBits r (parityBits r) + 1, .awaiting hp rfl rfl ?_, rfl, hmore,
        behindBit_nonneg, ?_⟩
      · show s.received + 1 = _
        rw [Nat.add_mul, Nat.one_mul]
        omega
      · rw [hleft] at hbit hfits hsome ⊢
        rw [partFits_bit hpos hx hbit hunits fun hspace hzero => absurd hzero (hsome hspace),
          hkind, Ahead, hfits, ← hlast, ← wordsFit_pending b.pendingp (stopTime r),
          ← partFits_pending _ _ b.pendingp (stopTime r)]
        simp only [reduceCtorEq, false_implies, true_and, nextLevel, Nat.add_sub_cancel]
        split <;> rfl
  | rest hle _ hbit =>
      have hkind := @takeEvent_kind_of_rest hw r s b fresh lost hle hbit
      refine ⟨n, m + 1, bits + 1, .inside hlt hp hs hstop hreceived, rfl, hmore, le_rfl, ?_⟩
      rw [hleft] at hbit
      rw [partFits_nil hbit (by omega) fun _ => hlt, hkind, Ahead, if_pos rfl]
      simp only [true_implies]

theorem FrameAt.round_awaiting (hpos : PositiveTimings r) (hx : 0 < s.delta)
    (hp : b.pendingp = 0) (hs : b.pendings = stopTime r) (hstop : s.stopBit = true)
    (hreceived : s.received = (n + 1) * byteBits r (parityBits r)) {m : ℕ}
    (htake : TakeStep hw r (parityBits r) (bitTime r) (stopTime r) s b s' b') :
    RoundFits hw r (PartFits hw r fitted s.space m (byteBits r (parityBits r) + 1) s.delta b) fitted
      (takeEvent hw r fresh lost s b) n (m + 1) s' b' := by
  cases hlevel : s.space with
  | true =>
      have hpending : levelPending s b = stopTime r := by rw [levelPending, hlevel, if_pos rfl, hs]
      have hsome : 0 < levelPending s b := by rw [hpending]; exact hpos.stop
      cases htake with
      | stop =>
          have hkind : (takeEvent hw r fresh lost s b).kind = .stop := by
            rw [takeEvent_kind_of_pending hsome, hstop, if_pos rfl]
          refine .inr ⟨fun h => ?_, n + 1, m, 0, .idle rfl rfl rfl rfl hreceived, by omega,
            fun _ => rfl, le_rfl, ?_⟩
          · rw [hkind] at h
            cases h
          · rw [← hlevel, partFits_stop hlevel, hkind, Ahead, if_pos rfl,
              ← wordsFit_pending (bitTime r) 0]
            simp only [reduceCtorEq, false_implies, true_and]
      | pending _ _ hnot =>
          rw [hstop] at hnot
          cases hnot
      | bit hle => exact absurd hsome (not_lt.mpr hle)
      | byte hle => exact absurd hsome (not_lt.mpr hle)
      | rest hle => exact absurd hsome (not_lt.mpr hle)
  | false =>
      have hzero : levelPending s b = 0 := by
        rw [levelPending, hlevel, if_neg Bool.false_ne_true, hp]
      have hleft : behindPending hw r s b = someLeft hw r s.delta := behindPending_zero hzero
      rw [← hlevel]
      cases htake with
      | stop hpending => exact absurd hpending (by rw [hzero]; exact lt_irrefl 0)
      | pending hpending => exact absurd hpending (by rw [hzero]; exact lt_irrefl 0)
      | bit hle _ hbit =>
          exact .inl ⟨takeEvent_kind_of_bit hle hbit, hstop,
            not_partFits_overrun hpos hx hlevel (hleft ▸ hbit)⟩
      | byte hle _ hbit =>
          exact .inl ⟨takeEvent_kind_of_bit hle hbit, hstop,
            not_partFits_overrun hpos hx hlevel (hleft ▸ hbit)⟩
      | rest hle _ hbit =>
          have hkind := @takeEvent_kind_of_rest hw r s b fresh lost hle hbit
          refine .inr ⟨fun h => ?_, n, m + 1, byteBits r (parityBits r) + 1,
            .awaiting hp hs hstop hreceived, rfl, fun h => absurd h (Nat.succ_ne_zero m), le_rfl,
            ?_⟩
          · rw [hkind] at h
            cases h
          · have hspace : s.space = true → byteBits r (parityBits r) + 1 ≤
                byteBits r (parityBits r) := fun h => by rw [hlevel] at h; cases h
            rw [hleft] at hbit
            rw [partFits_nil hbit le_rfl hspace, hkind, Ahead, if_pos rfl]
            simp only [true_implies]

/-- A round that takes something off what is left of a sample. -/
theorem FrameAt.round (hpos : PositiveTimings r) (hat : FrameAt r n units s b) (hx : 0 < s.delta)
    {m : ℕ} (htake : TakeStep hw r (parityBits r) (bitTime r) (stopTime r) s b s' b') :
    RoundFits hw r (PartFits hw r fitted s.space m units s.delta b) fitted
      (takeEvent hw r fresh lost s b) n (m + 1) s' b' := by
  cases hat with
  | idle _ _ hdelta => exact absurd hdelta hx.ne'
  | inside hlt hp hs hstop hreceived => exact round_inside hpos hx hlt hp hs hstop hreceived htake
  | awaiting hp hs hstop hreceived => exact round_awaiting hpos hx hp hs hstop hreceived htake

/-- The start bit of a frame. -/
theorem round_start (hpos : PositiveTimings r) {w m : ℕ} {b₁ : RBuf} {s₁ : SerialState}
    (hread : getNextRecBuffer b (serialMaxPulse r) = (w, b₁)) (hlevel : s₁.space = false)
    (hdelta : s₁.delta = sampleValue w) (hpending : b₁.pendingp = bitTime r)
    (hstop : s₁.stopBit = false) (hreceived : s₁.received = n * byteBits r (parityBits r))
    (htake : TakeStep hw r (parityBits r) (bitTime r) (stopTime r) s₁ b₁ s' b') :
    RoundFits hw r (WordsFit hw r false (m + 1) 0 b) fitted
      (takeEvent hw r fresh lost s₁ b₁) n (m + 1) s' b' := by
  have hbyte : 0 < byteBits r (parityBits r) := Nat.add_pos_left hpos.byte _
  have hlevelPending : levelPending s₁ b₁ = bitTime r := by
    rw [levelPending, hlevel, if_neg Bool.false_ne_true, hpending]
  have hsome : 0 < levelPending s₁ b₁ := by rw [hlevelPending]; exact hpos.base
  have hleft : behindPending hw r s₁ b₁ = behindStart hw r (sampleValue w) := by
    rw [behindPending, hlevelPending, hdelta, behindStart]
  cases htake with
  | stop _ _ hnot =>
      rw [hstop] at hnot
      cases hnot
  | bit hle => exact absurd hsome (not_lt.mpr hle)
  | byte hle => exact absurd hsome (not_lt.mpr hle)
  | rest hle => exact absurd hsome (not_lt.mpr hle)
  | pending _ hfits =>
      have hkind : (takeEvent hw r fresh lost s₁ b₁).kind = .start := by
        rw [takeEvent_kind_of_pending hsome, hstop, if_neg Bool.false_ne_true]
      have hevent : (takeEvent hw r fresh lost s₁ b₁).Fits hw r ↔
          expect hw r (sampleValue w) (bitTime r) = true := by
        have heventLeft : (takeEvent hw r fresh lost s₁ b₁).left = s₁.delta := if_pos hsome
        rw [SerialEvent.Fits, SerialEvent.length, hkind, heventLeft, hdelta]
      rw [hlevelPending, hdelta] at hfits
      refine .inr ⟨fun h => ?_, n, m + 1, 1, .inside hbyte rfl rfl hstop hreceived, rfl,
        fun h => absurd h (Nat.succ_ne_zero m), ?_, ?_⟩
      · rw [hkind] at h
        cases h
      · show 0 ≤ behindPending hw r s₁ b₁
        rw [hleft, behindStart]
        split
        · exact le_rfl
        · next hnot => exact sub_nonneg.mpr (hfits.resolve_left hnot).le
      · rw [wordsFit_start hread, hkind, Ahead, hleft]
        simp only [reduceCtorEq, false_implies, true_and, nextLevel, hlevel, Bool.not_false,
          Nat.add_sub_cancel, wordsFit_pending, partFits_pending]
        by_cases hzero : behindStart hw r (sampleValue w) = 0
        · rw [if_pos hzero, if_pos hzero, if_pos hzero, and_iff_right (Nat.le_add_left 1 _)]
        · rw [if_neg hzero, if_neg hzero, if_neg hzero]
          -- a start bit that fits is all of the pulse
          have hnot : ¬(takeEvent hw r fresh lost s₁ b₁).Fits hw r := fun h =>
            hzero (by rw [behindStart, if_pos (hevent.mp h)])
          rw [eq_false hnot]

end

section

variable {hw : Hardware} {r : IrRemote} {n m units bits : ℕ} {s s' s₁ : SerialState}
  {b b' b₁ : RBuf} {fitted : Prop}

/-! ### The loop -/

theorem serialMaxSpace_pos (hpos : PositiveTimings r) : 0 < serialMaxSpace r := by
  have hsone : 0 ≤ r.sone * r.bitsInByte := mul_nonneg hpos.sone.le (Int.natCast_nonneg _)
  have hstop := hpos.stop
  have hparity : (0 : ℤ) ≤ if r.parity = .none then 0 else r.sone := by
    split
    · exact le_rfl
    · exact hpos.sone.le
  rw [serialMaxSpace]
  omega

/-- The pulse that is loaded. -/
theorem serialLoad_pulse {total parityBit : ℕ} {maxSpace maxPulse : ℤ} (hzero : s.delta = 0)
    (hlevel : s.space = false)
    (hload : serialLoad r total parityBit maxSpace maxPulse s b = (s₁, b₁)) (hne : s₁.delta ≠ 0) :
    ∃ w, getNextRecBuffer b maxPulse = (w, b₁) ∧ s₁.delta = sampleValue w := by
  rw [serialLoad, if_pos hzero, hlevel, if_neg Bool.false_ne_true, getNextPulse] at hload
  cases hread : getNextRecBuffer b maxPulse with
  | mk w b₂ =>
      rw [hread] at hload
      by_cases hw : w = 0
      · simp only [if_pos hw] at hload
        obtain ⟨rfl, -⟩ := Prod.mk.inj hload
        exact absurd (by simp) hne
      · simp only [if_neg hw] at hload
        split at hload
        · obtain ⟨rfl, -⟩ := Prod.mk.inj hload
          exact absurd (by simp) hne
        · obtain ⟨rfl, rfl⟩ := Prod.mk.inj hload
          exact ⟨w, rfl, by simp⟩

/-- The space that is loaded, when no pulse is read. -/
theorem serialLoad_space {total parityBit : ℕ} {maxSpace maxPulse : ℤ} (hzero : s.delta = 0)
    (hlevel : s.space = true)
    (hload : serialLoad r total parityBit maxSpace maxPulse s b = (s₁, b₁)) (hne : s₁.delta ≠ 0) :
    ∃ w, getNextRecBuffer b maxSpace = (w, b₁) ∧
      (isPulse w = false → s₁.delta = if w = 0 then maxSpace else w) := by
  rw [serialLoad, if_pos hzero, hlevel, if_pos rfl, getNextSpace] at hload
  cases hread : getNextRecBuffer b maxSpace with
  | mk w b₂ =>
      rw [hread] at hload
      by_cases hw : w = 0
      · simp only [if_pos hw] at hload
        obtain ⟨rfl, rfl⟩ := Prod.mk.inj hload
        refine ⟨w, rfl, fun _ => ?_⟩
        dsimp only at hne ⊢
        rw [if_pos hw]
        split
        · rfl
        · next hnot =>
            rw [if_neg hnot] at hne
            exact absurd rfl hne
      · simp only [if_neg hw] at hload
        cases hpulse : isPulse w with
        | true =>
            rw [isSpace, hpulse] at hload
            obtain ⟨-, rfl⟩ := Prod.mk.inj hload
            exact ⟨w, rfl, fun h => by rw [hpulse] at h; cases h⟩
        | false =>
            rw [isSpace, hpulse] at hload
            obtain ⟨rfl, rfl⟩ := Prod.mk.inj hload
            refine ⟨w, rfl, fun _ => ?_⟩
            have hsome : (w : ℤ) ≠ 0 := Nat.cast_ne_zero.mpr hw
            simp [hw]

theorem FrameAt.load (hat : FrameAt r n units s b) (hunits : units ≠ 0)
    (hs : s₁ = { s with delta := s₁.delta, origdelta := s₁.delta })
    (hp : b₁.pendingp = b.pendingp) (hq : b₁.pendings = b.pendings) : FrameAt r n units s₁ b₁ := by
  rw [hs]
  cases hat with
  | idle => exact absurd rfl hunits
  | inside hlt hp' hs' hstop hreceived =>
      exact .inside hlt (hp.trans hp') (hq.trans hs') hstop hreceived
  | awaiting hp' hs' hstop hreceived => exact .awaiting (hp.trans hp') (hq.trans hs') hstop hreceived

/-- A round goes on with the frames, or a pulse is read where a space should be. -/
theorem FrameAt.next (fitted : Prop) (m : ℕ) (hpos : PositiveTimings r) {total : ℕ}
    (hat : FrameAt r n units s b) (hx : 0 ≤ s.delta)
    (hload : serialLoad r total (parityBits r) (serialMaxSpace r) (serialMaxPulse r) s b = (s₁, b₁))
    (hne : s₁.delta ≠ 0)
    (htake : TakeStep hw r (parityBits r) (bitTime r) (stopTime r) s₁ b₁ s' b') :
    losesPulse (serialMaxSpace r) s b = true ∧ ¬Ahead hw r fitted (m + 1) units s b ∨
      losesPulse (serialMaxSpace r) s b = false ∧
        RoundFits hw r (Ahead hw r fitted (m + 1) units s b) ((s.delta == 0) = false ∧ fitted)
          (takeEvent hw r (s.delta == 0) (losesPulse (serialMaxSpace r) s b) s₁ b₁) n (m + 1) s' b' :=
    by
  by_cases hzero : s.delta = 0
  · obtain ⟨hs₁, hp, hq, hsize⟩ := serialLoad_spec 0 hzero hload hne
    have hsome : 0 < s₁.delta := by
      obtain ⟨h, -⟩ | ⟨-, h, -⟩ := hsize
      · exact h
      · rw [h]
        exact serialMaxSpace_pos hpos
    have hfresh : ((s.delta == 0) = false ∧ fitted) = False := by simp [hzero]
    have hspace : s₁.space = s.space := by rw [hs₁]
    rw [hfresh, Ahead, if_pos hzero]
    cases hlevel : s.space with
    | false =>
        obtain ⟨w, hread, hdelta⟩ := serialLoad_pulse hzero hlevel hload hne
        have hkept : losesPulse (serialMaxSpace r) s b = false := by simp [losesPulse, hlevel]
        refine .inr ⟨hkept, ?_⟩
        by_cases hunits : units = 0
        · obtain rfl := hunits
          cases hat with
          | idle hpending _ _ hstop hreceived =>
              exact round_start hpos hread (hspace.trans hlevel) hdelta (hp.trans hpending)
                (by rw [hs₁]; exact hstop) (by rw [hs₁]; exact hreceived) htake
        · rw [wordsFit_pulse hread (hdelta ▸ hne) hunits, ← hdelta, ← hlevel, ← hspace]
          exact (hat.load hunits hs₁ hp hq).round hpos hsome htake
    | true =>
        obtain ⟨w, hread, hdelta⟩ := serialLoad_space hzero hlevel hload hne
        have hunits : units ≠ 0 := by
          rintro rfl
          cases hat with
          | idle _ hnot =>
              rw [hlevel] at hnot
              cases hnot
        have hlost : losesPulse (serialMaxSpace r) s b = isPulse w := by
          simp [losesPulse, hzero, hlevel, hread]
        rw [hlost, wordsFit_space hread]
        cases hpulse : isPulse w with
        | true => exact .inl ⟨rfl, fun h => Bool.false_ne_true h.1.symm⟩
        | false =>
            rw [and_iff_right rfl, ← hdelta hpulse, ← hlevel, ← hspace]
            exact .inr ⟨rfl, (hat.load hunits hs₁ hp hq).round hpos hsome htake⟩
  · rw [serialLoad, if_neg hzero] at hload
    obtain ⟨rfl, rfl⟩ := Prod.mk.inj hload
    have hkept : losesPulse (serialMaxSpace r) s b = false := by simp [losesPulse, hzero]
    have hfresh : ((s.delta == 0) = false ∧ fitted) = fitted := by simp [hzero]
    rw [hfresh, Ahead, if_neg hzero]
    exact .inr ⟨hkept, hat.round hpos (lt_of_le_of_ne hx (Ne.symm hzero)) htake⟩

/-- The events are those of frames: no bit is taken while the stop bit is awaited, no pulse is
lost, and a rest is only dropped behind something that all that was left fitted. -/
def EventsFit (hw : Hardware) (r : IrRemote) : Prop → List SerialEvent → Prop
  | _, [] => True
  | fitted, e :: events =>
      (e.kind = .bit → e.awaited = false) ∧ e.lost = false ∧
        (e.kind = .rest → e.fresh = false ∧ fitted) ∧ EventsFit hw r (e.Fits hw r) events

/-- The rest of the rounds stays within the frames when the samples make them up. -/
theorem FrameAt.eventsFit_iff (hpos : PositiveTimings r) (hbytes : bits % r.bitsInByte = 0) (k : ℕ)
    (hat : FrameAt r n units s b) (hm : n + m = bits / r.bitsInByte) (hunits : m = 0 → units = 0)
    (hx : 0 ≤ s.delta)
    (hcode : (getSerialLoop hw r (serialTotal r bits) (parityBits r) (bitTime r) (stopTime r)
      (serialMaxSpace r) (serialMaxPulse r) k s b).1 ≠ noCode) :
    EventsFit hw r fitted (serialEvents hw r bits k (s, b)) ↔ Ahead hw r fitted m units s b := by
  have hbyte : 0 < byteBits r (parityBits r) := Nat.add_pos_left hpos.byte _
  have htotal : serialTotal r bits = (n + m) * byteBits r (parityBits r) := by
    rw [serialTotal_eq, hbytes, Nat.add_zero, hm]
  induction k generalizing fitted n m units s b with
  | zero => exact absurd rfl hcode
  | succ k ih =>
      rw [serialLoop_succ] at hcode
      rw [serialEvents]
      cases hbody : serialDataBody hw r bits (s, b) with
      | inr out =>
          rw [hbody] at hcode
          have hend := serialDataBody_inr hbody hcode
          rw [not_or, not_lt, htotal] at hend
          have hm0 : m = 0 := by
            by_contra hne
            have hwidth : (n + 1) * byteBits r (parityBits r) ≤
                (n + m) * byteBits r (parityBits r) := Nat.mul_le_mul_right _ (by omega)
            rw [Nat.add_mul, Nat.one_mul] at hwidth
            cases hat with
            | idle _ _ _ _ hreceived => omega
            | inside hlt _ _ _ hreceived => omega
            | awaiting _ _ hstop => exact hend.2 hstop
          obtain rfl := hunits hm0
          cases hat with
          | idle _ _ hdelta =>
              rw [Ahead, if_pos hdelta, hm0]
              exact iff_of_true trivial wordsFit_zero
      | inl y =>
          obtain ⟨s', b'⟩ := y
          rw [hbody] at hcode
          obtain ⟨hgo, s₁, b₁, hload, hne, htake⟩ := serialBody_inl hbody
          have hevent : roundEvent hw r bits (s, b) = takeEvent hw r (s.delta == 0)
              (losesPulse (serialMaxSpace r) s b) s₁ b₁ := by
            rw [roundEvent, hload]
          obtain ⟨m, rfl⟩ : ∃ k, m = k + 1 := by
            refine Nat.exists_eq_succ_of_ne_zero fun hm0 => ?_
            obtain rfl := hunits hm0
            cases hat with
            | idle _ _ _ hstop hreceived =>
                rw [htotal, hm0, Nat.add_zero, ← hreceived] at hgo
                exact hgo.elim (lt_irrefl _) fun h => by rw [hstop] at h; cases h
          dsimp only
          rw [EventsFit, hevent]
          obtain ⟨hlost, hnot⟩ | ⟨hkept, hround⟩ :=
            FrameAt.next fitted m hpos hat hx hload hne htake
          · refine iff_of_false (fun h => ?_) hnot
            have hnotLost : losesPulse (serialMaxSpace r) s b = false := h.2.1
            rw [hlost] at hnotLost
            cases hnotLost
          · obtain ⟨hbit, hawaited, hnot⟩ |
              ⟨hinside, n', m', units', hat', hm', hunits', hx', hiff⟩ := hround
            · refine iff_of_false (fun h => ?_) hnot
              have hfalse := h.1 hbit
              rw [hawaited] at hfalse
              cases hfalse
            · have hnext : ∀ fits, EventsFit hw r fits (serialEvents hw r bits k (s', b')) ↔
                  Ahead hw r fits m' units' s' b' := fun fits =>
                ih hat' (hm'.trans hm) hunits' hx' hcode (by rw [hm', htotal])
              rw [hiff, hnext, and_iff_right hinside]
              exact and_iff_right hkept

/-- What the events say, one after the other. -/
theorem eventsFit_cons_iff {e : SerialEvent} {events : List SerialEvent} :
    EventsFit hw r fitted (e :: events) ↔
      (e.kind = .rest → e.fresh = false ∧ fitted) ∧
        (∀ e' ∈ e :: events, e'.kind = .bit → e'.awaited = false) ∧
        UsesUp hw r (e :: events) := by
  induction events generalizing fitted e with
  | nil =>
      simp only [EventsFit, List.mem_singleton, forall_eq, and_true]
      constructor
      · rintro ⟨hinside, hkept, hrest⟩
        exact ⟨hrest, hinside, List.isChain_singleton _, by simpa using hkept⟩
      · rintro ⟨hrest, hinside, -, hpulses⟩
        exact ⟨hinside, hpulses e List.mem_cons_self, hrest⟩
  | cons e' events ih =>
      rw [EventsFit, ih]
      constructor
      · rintro ⟨hinside, hkept, hrest, hrest', hinsides, hrests, hpulses⟩
        exact ⟨hrest, List.forall_mem_cons.mpr ⟨hinside, hinsides⟩, List.isChain_cons_cons.mpr ⟨hrest', hrests⟩,
          List.forall_mem_cons.mpr ⟨hkept, hpulses⟩⟩
      · rintro ⟨hrest, hinside, hrests, hpulses⟩
        obtain ⟨hinside, hinsides⟩ := List.forall_mem_cons.mp hinside
        obtain ⟨hrest', hrests⟩ := List.isChain_cons_cons.mp hrests
        obtain ⟨hkept, hpulses⟩ := List.forall_mem_cons.mp hpulses
        exact ⟨hinside, hkept, hrest, hrest', hinsides, hrests, hpulses⟩

/-- The first round takes a start bit. -/
theorem serialEvents_start (hpos : PositiveTimings r) (k : ℕ) (hat : FrameAt r n 0 s b) :
    EventsFit hw r False (serialEvents hw r bits k (s, b)) ↔
      (∀ e ∈ serialEvents hw r bits k (s, b), e.kind = .bit → e.awaited = false) ∧
        UsesUp hw r (serialEvents hw r bits k (s, b)) := by
  cases k with
  | zero => exact iff_of_true trivial ⟨List.forall_mem_nil _, List.isChain_nil, List.forall_mem_nil _⟩
  | succ k =>
      rw [serialEvents]
      cases hbody : serialDataBody hw r bits (s, b) with
      | inr out => exact iff_of_true trivial ⟨List.forall_mem_nil _, List.isChain_nil, List.forall_mem_nil _⟩
      | inl y =>
          obtain ⟨s', b'⟩ := y
          dsimp only
          rw [eventsFit_cons_iff]
          refine and_iff_right fun hkind => ?_
          obtain ⟨-, s₁, b₁, hload, hne, htake⟩ := serialBody_inl hbody
          cases hat with
          | idle hpending hlevel hdelta hstop =>
              obtain ⟨hs₁, hp, -, -⟩ := serialLoad_spec 0 hdelta hload hne
              have hspace : s₁.space = false := by rw [hs₁]; exact hlevel
              have hsome : 0 < levelPending s₁ b₁ := by
                rw [levelPending, hspace, if_neg Bool.false_ne_true, hp, hpending]
                exact hpos.base
              have hstart : (roundEvent hw r bits (s, b)).kind = .start := by
                rw [roundEvent, hload, takeEvent_kind_of_pending hsome, hs₁]
                exact if_neg (by rw [hstop]; exact Bool.false_ne_true)
              rw [hkind] at hstart
              cases hstart

end

/-- A segment that is not a failure is made up of frames exactly when its bits are those of
whole bytes and the samples read are the units of so many frames. -/
theorem serial_framed_iff {hw : Hardware} {r : IrRemote} {bits : ℕ} (hpos : PositiveTimings r)
    (hserial : isSerial r = true) (done : ℕ) (b : RBuf)
    (hcode : (getData hw r bits done b).1 ≠ noCode) :
    Framed hw r (bits / r.bitsInByte) (getDataEvents hw r bits b) ↔ StaysInFrames hw r bits b := by
  rw [framed_iff_inside hpos hserial done b hcode]
  rw [getData_serialLoop hserial] at hcode
  have hlevel : (serialStart r).space = false := beq_false_of_ne hpos.base.ne'
  have hat : FrameAt r 0 0 (serialStart r) { b with pendingp := bitTime r } :=
    .idle rfl hlevel rfl rfl (Nat.zero_mul _).symm
  have hsamples : bits % r.bitsInByte = 0 →
      ((∀ e ∈ getDataEvents hw r bits b, e.kind = .bit → e.awaited = false) ∧
          UsesUp hw r (getDataEvents hw r bits b) ↔
        WordsFit hw r false (bits / r.bitsInByte) 0 b) := by
    intro hbytes
    have hdelta : (serialStart r).delta = 0 := rfl
    rw [getDataEvents, serialStartState, ← serialEvents_start hpos _ hat,
      hat.eventsFit_iff hpos hbytes _ (Nat.zero_add _) (fun _ => rfl) le_rfl hcode, Ahead,
      if_pos hdelta, hlevel]
    exact wordsFit_pending (bitTime r) b.pendings
  constructor
  · rintro ⟨hbytes, hevents⟩
    exact ⟨hbytes, (hsamples hbytes).mp hevents⟩
  · rintro ⟨hbytes, hwords⟩
    exact ⟨hbytes, (hsamples hbytes).mpr hwords⟩

/-- A remote of 9600 baud with two bytes and even parity. -/
def twoByteRemote : IrRemote :=
  { flags := serial, aeps := 20, bits := 16, pzero := 104, sone := 104, baud := 9600,
    parity := .even, bitsInByte := 8, stopBits := 2 }

/-- The bytes 00110101 and 00000111 with their parity bits, some pulses a little too long. -/
def twoBytes : RBuf :=
  { data := [0x01000068, 104, 0x0100006C, 104], input := [0x01000068, 208, 0x0100013A, 1000,
      0x01000068, 312, 0x0100020C, 5000] }

theorem serial_framed_iff_parity :
    Framed mode2Hardware twoByteRemote 2 (getDataEvents mode2Hardware twoByteRemote 16 twoBytes) :=
  (@serial_framed_iff mode2Hardware twoByteRemote 16 (by constructor <;> decide) (by decide) 0
    twoBytes (by decide +kernel)).mpr ⟨by decide, 12, by decide +kernel⟩

/-- A remote of 9600 baud with a word of five bits. -/
def fiveBitRemote : IrRemote :=
  { flags := serial, aeps := 20, bits := 5, pzero := 104, sone := 104, baud := 9600,
    bitsInByte := 5, stopBits := 2 }

/-- A pulse of eight bits is taken for a start bit and seven bits of one frame. -/
theorem serial_overruns :
    (getData mode2Hardware fiveBitRemote 5 0 { input := [0x01000340, 5000] }).1 = 0 ∧
      ¬Framed mode2Hardware fiveBitRemote 1
        (getDataEvents mode2Hardware fiveBitRemote 5 { input := [0x01000340, 5000] }) := by
  refine ⟨by decide +kernel, ?_⟩
  rintro ⟨⟨fs, hlen, hfs⟩, -⟩
  have htaken := congrArg List.length hfs
  rw [length_frames, hlen] at htaken
  exact absurd htaken (by decide +kernel)

end Lirc
