import Lirc.BitDecode
import Lirc.CodeWord
import Lirc.Transmit

/-!
The word that `send_pre`, `send_data` and `send_post` emit for a code. With toggle
masks it is not the word of the configuration; here is which one it is.
-/

namespace Lirc

open Signal

section Words

variable (r : IrRemote)

/-- The bits that the loop of `send_data` sends, in the order in which it sends
them. -/
def sentBitLoop : ℕ → IrCode → IrCode → IrCode → IrCode
  | 0, _, _, c => c
  | n + 1, data, mask, c =>
      let data := toggledData r mask data
      sentBitLoop n (data >>> 1) (mask >>> 1) (c <<< 1 ||| (data &&& 1))

/-- The bits that `send_data` sends; `none` where it refuses to send any. -/
def sentData (data : IrCode) (bits done : ℕ) : Option IrCode :=
  if isRcmm r then
    if bits % 2 ≠ 0 ∨ done % 2 ≠ 0 then none else some (collectBits bits (reverse data bits) 0)
  else if isXmp r then
    if bits % 4 ≠ 0 ∨ done % 4 ≠ 0 then none else some (collectBits bits (reverse data bits) 0)
  else some (sentBitLoop r bits (reverse data bits) ((1 : IrCode) <<< (bitCount r - 1 - done)) 0)

/-- The bits that `send_pre` sends. -/
def sentPre : Option IrCode := if hasPre r then sentData r r.preData r.preDataBits 0 else some 0

/-- The bits that `send_post` sends. -/
def sentPost : Option IrCode :=
  if hasPost r then sentData r r.postData r.postDataBits (r.preDataBits + r.bits) else some 0

/-- The word that is sent for a code; signals of raw codes have no bits. -/
def sentWord (code : IrCode) : Option IrCode :=
  if isRaw r then none
  else do
    let pre ← sentPre r
    let data ← sentData r code r.bits r.preDataBits
    let post ← sentPost r
    some ((pre <<< r.bits ||| data) <<< r.postDataBits ||| post)

/-- The parts of a signal with these bits, from the highest on. -/
def wordParts : ℕ → IrCode → IrCode → List Part
  | 0, _, _ => []
  | n + 1, word, mask => bitParts r mask (word.getLsbD n) ++ wordParts n word (mask >>> 1)

/-- A sent bit stays in the word. -/
theorem sentBitLoop_high (n j : ℕ) (data mask c : IrCode) (hj : n + j < 64) :
    (sentBitLoop r n data mask c).getLsbD (n + j) = c.getLsbD j := by
  induction n generalizing data mask c j with
  | zero => rw [Nat.zero_add, sentBitLoop]
  | succ n ih =>
      have hone : (1 : IrCode).getLsbD (j + 1) = false := by
        rw [BitVec.ofNat_eq_ofNat, BitVec.getLsbD_one]
        simp
      rw [sentBitLoop, show n + 1 + j = n + (j + 1) by omega, ih _ _ _ _ (by omega),
        BitVec.getLsbD_or, BitVec.getLsbD_shiftLeft, BitVec.getLsbD_and, hone]
      have h64 : j + 1 < 64 := by omega
      simp [h64]

/-- The signal of `send_data` is the signal of the bits that it sends. -/
theorem bitLoopParts_sent (n : ℕ) (data mask c : IrCode) (hn : n ≤ 64) :
    bitLoopParts r n data mask = wordParts r n (sentBitLoop r n data mask c) mask := by
  induction n generalizing data mask c with
  | zero => rfl
  | succ n ih =>
      have hbit : (sentBitLoop r (n + 1) data mask c).getLsbD n =
          (toggledData r mask data &&& 1 != 0) := by
        have hhigh := sentBitLoop_high r n 0 (toggledData r mask data >>> 1) (mask >>> 1)
          (c <<< 1 ||| (toggledData r mask data &&& 1)) (by omega)
        rw [sentBitLoop]
        refine hhigh.trans ?_
        obtain h | h := and_one_cases (toggledData r mask data)
        · rw [h]
          simp
        · rw [h]
          simp
      rw [bitLoopParts, wordParts, hbit, ih _ _ (c <<< 1 ||| (toggledData r mask data &&& 1))
        (by omega), sentBitLoop]

/-- The signal of a segment of a remote whose bits are sent one by one. -/
theorem dataParts_sent (hrcmm : isRcmm r = false) (hxmp : isXmp r = false) {data word : IrCode}
    {bits done : ℕ} (hbits : bits ≤ 64) (hsent : sentData r data bits done = some word) :
    dataParts r data bits done =
      wordParts r bits word ((1 : IrCode) <<< (bitCount r - 1 - done)) := by
  rw [sentData, hrcmm, hxmp] at hsent
  obtain rfl := Option.some.inj hsent
  rw [dataParts, hrcmm, hxmp]
  exact bitLoopParts_sent r bits _ _ 0 hbits

/-! ### Toggled bits -/

/-- The toggle mask does not change the frame. -/
def ToggleMaskQuiet : Prop :=
  hasToggleMask r = false ∨ r.toggleMaskState = 0

/-- The bit that is sent at the place `p`, counted from the end. -/
def toggledBit (p : ℕ) (bit : Bool) : Bool :=
  if r.toggleBitMask.getLsbD p then
    if bitsSet r.toggleBitMask == 1 then r.toggleBitMaskState.getLsbD p
    else bit ^^ r.toggleBitMaskState.getLsbD p
  else bit

theorem and_oneShl_ne (d : IrCode) {p : ℕ} (hp : p < 64) :
    ((1 : IrCode) <<< p &&& d != 0) = d.getLsbD p := by
  have hiff := and_oneShl (d := d) hp
  rw [BitVec.and_comm]
  cases h : d.getLsbD p with
  | true =>
      rw [h] at hiff
      exact bne_iff_ne.mpr (hiff.mpr rfl)
  | false =>
      rw [h] at hiff
      have hzero : d &&& 1#64 <<< p = 0 := by
        by_contra hne
        exact Bool.false_ne_true (hiff.mp hne)
      rw [show d &&& (1 : IrCode) <<< p = 0 from hzero]
      rfl

/-- The lowest bit of a word is set to `v`. -/
theorem setBit_getLsbD (data : IrCode) (k : ℕ) (v : Bool) :
    (if v then data &&& ~~~1 ||| 1 else data &&& ~~~1 : IrCode).getLsbD k =
      if k = 0 then v else data.getLsbD k := by
  have hone : ∀ j, (1 : IrCode).getLsbD j = decide (j = 0) := by
    intro j
    rw [BitVec.ofNat_eq_ofNat, BitVec.getLsbD_one]
    simp
  by_cases hk : k < 64
  · have hclear : (data &&& ~~~1 : IrCode).getLsbD k = (data.getLsbD k && !decide (k = 0)) := by
      rw [BitVec.getLsbD_and, BitVec.getLsbD_not, hone]
      simp [hk]
    cases v with
    | true =>
        rw [if_pos rfl, BitVec.getLsbD_or, hclear, hone]
        by_cases h0 : k = 0
        · simp [h0]
        · simp [h0]
    | false =>
        rw [if_neg Bool.false_ne_true, hclear]
        by_cases h0 : k = 0
        · simp [h0]
        · simp [h0]
  · have h0 : k ≠ 0 := by omega
    rw [if_neg h0, BitVec.getLsbD_of_ge _ _ (Nat.le_of_not_lt hk),
      BitVec.getLsbD_of_ge _ _ (Nat.le_of_not_lt hk)]

/-- The lowest bit of a word is changed if `v`. -/
theorem flipBit_getLsbD (data : IrCode) (k : ℕ) (v : Bool) :
    (if v then data ^^^ 1 else data : IrCode).getLsbD k =
      if k = 0 then data.getLsbD 0 ^^ v else data.getLsbD k := by
  have hone : ∀ j, (1 : IrCode).getLsbD j = decide (j = 0) := by
    intro j
    rw [BitVec.ofNat_eq_ofNat, BitVec.getLsbD_one]
    simp
  cases v with
  | true =>
      rw [if_pos rfl, BitVec.getLsbD_xor, hone]
      by_cases h0 : k = 0
      · simp [h0]
      · simp [h0]
  | false =>
      rw [if_neg Bool.false_ne_true]
      by_cases h0 : k = 0
      · simp [h0]
      · simp [h0]

variable {r}

/-- `send_data` changes no more than the bit that it is about to send. -/
theorem toggledData_getLsbD (hquiet : ToggleMaskQuiet r) {p : ℕ} (hp : p < 64) (data : IrCode)
    (k : ℕ) :
    (toggledData r ((1 : IrCode) <<< p) data).getLsbD k =
      if k = 0 then toggledBit r p (data.getLsbD 0) else data.getLsbD k := by
  have hmask : (hasToggleMask r && (1 : IrCode) <<< p &&& r.toggleMask != 0 &&
      r.toggleMaskState.tmod 2 != 0) = false := by
    obtain h | h := hquiet
    · rw [h, Bool.false_and, Bool.false_and]
    · rw [h]
      exact Bool.and_false _
  have hhas : (hasToggleBitMask r && (1 : IrCode) <<< p &&& r.toggleBitMask != 0) =
      r.toggleBitMask.getLsbD p := by
    rw [and_oneShl_ne _ hp, hasToggleBitMask]
    by_cases hzero : r.toggleBitMask = 0
    · rw [hzero]
      simp
    · have hne : (r.toggleBitMask != 0) = true := bne_iff_ne.mpr hzero
      rw [hne, Bool.true_and]
  have hstate : (r.toggleBitMaskState &&& (1 : IrCode) <<< p != 0) =
      r.toggleBitMaskState.getLsbD p := by
    rw [BitVec.and_comm]
    exact and_oneShl_ne _ hp
  simp only [toggledData, hmask, hhas, hstate, Bool.false_eq_true, if_false, toggledBit]
  cases r.toggleBitMask.getLsbD p with
  | false =>
      cases k with
      | zero => rfl
      | succ k => rfl
  | true =>
      cases bitsSet r.toggleBitMask == 1 with
      | true => exact setBit_getLsbD data k _
      | false => exact flipBit_getLsbD data k _

/-- The bits that the loop sends are the toggled bits of the data. -/
theorem sentBitLoop_getLsbD (hquiet : ToggleMaskQuiet r) {n p j : ℕ} (hp : p < 64) (hn : n ≤ p + 1)
    (data c : IrCode) (hj : j < n) :
    (sentBitLoop r n data ((1 : IrCode) <<< p) c).getLsbD j =
      toggledBit r (p - (n - 1 - j)) (data.getLsbD (n - 1 - j)) := by
  induction n generalizing p data c with
  | zero => omega
  | succ n ih =>
      by_cases htop : j = n
      · -- the bit that is sent first
        have hhigh := sentBitLoop_high r n 0 (toggledData r ((1 : IrCode) <<< p) data >>> 1)
          ((1 : IrCode) <<< p >>> 1)
          (c <<< 1 ||| (toggledData r ((1 : IrCode) <<< p) data &&& 1)) (by omega)
        have hbit := toggledData_getLsbD hquiet hp data 0
        rw [if_pos rfl] at hbit
        subst htop
        rw [sentBitLoop]
        refine hhigh.trans ?_
        rw [BitVec.getLsbD_or, BitVec.getLsbD_shiftLeft, BitVec.getLsbD_and, hbit]
        simp
      · have hp0 : 0 < p := by omega
        rw [sentBitLoop, oneShl_ushiftRight hp0 hp, ih (by omega) (by omega) _ _ (by omega),
          BitVec.getLsbD_ushiftRight, toggledData_getLsbD hquiet hp, if_neg (by omega)]
        have hplace : p - 1 - (n - 1 - j) = p - (n + 1 - 1 - j) := by omega
        have hbit : 1 + (n - 1 - j) = n + 1 - 1 - j := by omega
        rw [hplace, hbit]

/-- The bit of the word of the configuration that is sent at the place `p`. -/
def sentBit (r : IrRemote) (p : ℕ) (bit : Bool) : Bool :=
  if isRcmm r || isXmp r then bit else toggledBit r p bit

/-- A segment of the word that is sent. -/
theorem sentData_getLsbD (hquiet : ToggleMaskQuiet r) (hle : bitCount r ≤ 64)
    {data word : IrCode} {bits done j : ℕ} (hwidth : done + bits ≤ bitCount r)
    (hsent : sentData r data bits done = some word) :
    word.getLsbD j =
      (decide (j < bits) && sentBit r (bitCount r - done - bits + j) (data.getLsbD j)) := by
  have hcollect : (collectBits bits (reverse data bits) 0).getLsbD j =
      (decide (j < bits) && data.getLsbD j) := by
    rw [collectBits_reverse (by omega)]
    by_cases hj : j < 64
    · rw [BitVec.getLsbD_and, genMask_getLsbD hj, Bool.and_comm]
    · have hj' : ¬ j < bits := by omega
      rw [BitVec.getLsbD_of_ge _ _ (Nat.le_of_not_lt hj), decide_eq_false hj', Bool.false_and]
  rw [sentData] at hsent
  split at hsent
  · next hrcmm =>
      split at hsent
      · cases hsent
      · obtain rfl := Option.some.inj hsent
        rw [hcollect, sentBit, hrcmm, Bool.true_or, if_pos rfl]
  · next hrcmm =>
      split at hsent
      · next hxmp =>
          split at hsent
          · cases hsent
          · obtain rfl := Option.some.inj hsent
            rw [hcollect, sentBit, hxmp, Bool.or_true, if_pos rfl]
      · next hxmp =>
          obtain rfl := Option.some.inj hsent
          rw [sentBit, Bool.eq_false_of_not_eq_true hrcmm, Bool.eq_false_of_not_eq_true hxmp,
            Bool.or_self, if_neg Bool.false_ne_true]
          by_cases hj : j < bits
          · rw [sentBitLoop_getLsbD hquiet (by omega) (by omega) _ _ hj,
              reverse_getLsbD (by omega) (by omega)]
            have hplace : bitCount r - 1 - done - (bits - 1 - j) =
                bitCount r - done - bits + j := by omega
            have hback : bits - 1 - (bits - 1 - j) = j := by omega
            have hlt : bits - 1 - j < bits := by omega
            rw [hplace, hback, decide_eq_true hlt, Bool.true_and, decide_eq_true hj, Bool.true_and]
          · rw [decide_eq_false hj, Bool.false_and]
            by_cases hj' : j < 64
            · -- nothing but zeroes has been shifted up so far
              have hhigh := sentBitLoop_high r bits (j - bits) (reverse data bits)
                ((1 : IrCode) <<< (bitCount r - 1 - done)) 0 (by omega)
              rw [show bits + (j - bits) = j by omega] at hhigh
              exact hhigh.trans BitVec.getLsbD_zero
            · exact BitVec.getLsbD_of_ge _ _ (Nat.le_of_not_lt hj')

/-- The remote has bits that `send_data` does not refuse to send. -/
def sendsBits (r : IrRemote) : Bool :=
  !isRaw r &&
    if isRcmm r then r.preDataBits % 2 == 0 && r.bits % 2 == 0 && r.postDataBits % 2 == 0
    else if isXmp r then r.preDataBits % 4 == 0 && r.bits % 4 == 0 && r.postDataBits % 4 == 0
    else true

/-- Two segments of a word and what comes before them. -/
theorem append_getLsbD (pre data post : IrCode) {bits postBits p : ℕ}
    (hdata : ∀ j, data.getLsbD j = true → j < bits)
    (hpost : ∀ j, post.getLsbD j = true → j < postBits) (hp : p < 64) :
    ((pre <<< bits ||| data) <<< postBits ||| post).getLsbD p =
      if p < postBits then post.getLsbD p
      else if p < postBits + bits then data.getLsbD (p - postBits)
      else pre.getLsbD (p - postBits - bits) := by
  have hp' : p - postBits < 64 := by omega
  rw [BitVec.getLsbD_or, BitVec.getLsbD_shiftLeft, BitVec.getLsbD_or, BitVec.getLsbD_shiftLeft,
    decide_eq_true hp, decide_eq_true hp', Bool.true_and, Bool.true_and]
  split
  · next hlow => rw [decide_eq_true hlow, Bool.not_true, Bool.false_and, Bool.false_or]
  · next hlow =>
      have hpost' : post.getLsbD p = false := by
        by_contra h
        exact hlow (hpost p (Bool.eq_true_of_not_eq_false h))
      rw [hpost', Bool.or_false, decide_eq_false hlow, Bool.not_false, Bool.true_and]
      split
      · next hmid =>
          have hmid' : p - postBits < bits := by omega
          rw [decide_eq_true hmid', Bool.not_true, Bool.false_and, Bool.false_or]
      · next hmid =>
          have hmid' : ¬ p - postBits < bits := by omega
          have hdata' : data.getLsbD (p - postBits) = false := by
            by_contra h
            exact hmid' (hdata _ (Bool.eq_true_of_not_eq_false h))
          rw [hdata', Bool.or_false, decide_eq_false hmid', Bool.not_false, Bool.true_and]

/-- The word of the configuration, by its segments. -/
theorem genIrCode_getLsbD (hraw : isRaw r = false) (pre code post : IrCode) {p : ℕ} (hp : p < 64) :
    (genIrCode r pre code post).getLsbD p =
      if p < r.postDataBits then post.getLsbD p
      else if p < r.postDataBits + r.bits then code.getLsbD (p - r.postDataBits)
      else decide (p < bitCount r) && pre.getLsbD (p - r.postDataBits - r.bits) := by
  have hmasked : ∀ (d : IrCode) n j, (d &&& genMask n).getLsbD j = true → j < n := by
    intro d n j h
    rw [BitVec.getLsbD_and, Bool.and_eq_true] at h
    have hj : j < 64 := BitVec.lt_of_getLsbD h.2
    rw [genMask_getLsbD hj] at h
    exact of_decide_eq_true h.2
  rw [genIrCode, hraw, if_neg Bool.false_ne_true, append_getLsbD _ _ _ (hmasked _ _) (hmasked _ _) hp]
  split
  · next hlow => rw [BitVec.getLsbD_and, genMask_getLsbD hp, decide_eq_true hlow, Bool.and_true]
  · next hlow =>
      split
      · next hmid =>
          have hmid' : p - r.postDataBits < r.bits := by omega
          rw [BitVec.getLsbD_and, genMask_getLsbD (by omega), decide_eq_true hmid', Bool.and_true]
      · next hmid =>
          have hiff : decide (p - r.postDataBits - r.bits < r.preDataBits) =
              decide (p < bitCount r) := decide_eq_decide.mpr (by rw [bitCount]; omega)
          rw [BitVec.getLsbD_and, genMask_getLsbD (by omega), hiff, Bool.and_comm]

/-- The word that is sent is the one of the configuration with toggled bits. -/
theorem sentWord_getLsbD (hquiet : ToggleMaskQuiet r) (hle : bitCount r ≤ 64) {code word : IrCode}
    (hsent : sentWord r code = some word) {p : ℕ} (hp : p < 64) :
    word.getLsbD p = (decide (p < bitCount r) &&
      sentBit r p ((genIrCode r r.preData code r.postData).getLsbD p)) := by
  have hraw : isRaw r = false := by
    by_contra h
    rw [sentWord, if_pos (Bool.eq_true_of_not_eq_false h)] at hsent
    cases hsent
  rw [sentWord, hraw, if_neg Bool.false_ne_true] at hsent
  obtain ⟨pre, hpre, hsent⟩ := Option.bind_eq_some_iff.mp hsent
  obtain ⟨data, hdata, hsent⟩ := Option.bind_eq_some_iff.mp hsent
  obtain ⟨post, hpost, hsent⟩ := Option.bind_eq_some_iff.mp hsent
  obtain rfl := Option.some.inj hsent
  have hcount : bitCount r = r.preDataBits + r.bits + r.postDataBits := rfl
  have hpreBit : ∀ j, pre.getLsbD j = (decide (j < r.preDataBits) &&
      sentBit r (r.bits + r.postDataBits + j) (r.preData.getLsbD j)) := by
    intro j
    rw [sentPre] at hpre
    split at hpre
    · rw [sentData_getLsbD hquiet hle (by omega) hpre]
      congr 2
      omega
    · next hnone =>
        obtain rfl := Option.some.inj hpre
        have hzero : ¬ j < r.preDataBits := by
          have hbits : ¬ 0 < r.preDataBits := by simpa [hasPre] using hnone
          omega
        rw [decide_eq_false hzero, Bool.false_and]
        exact BitVec.getLsbD_zero
  have hdataBit : ∀ j, data.getLsbD j = (decide (j < r.bits) &&
      sentBit r (r.postDataBits + j) (code.getLsbD j)) := by
    intro j
    rw [sentData_getLsbD hquiet hle (by omega) hdata]
    congr 2
    omega
  have hpostBit : ∀ j, post.getLsbD j = (decide (j < r.postDataBits) &&
      sentBit r j (r.postData.getLsbD j)) := by
    intro j
    rw [sentPost] at hpost
    split at hpost
    · rw [sentData_getLsbD hquiet hle (by omega) hpost]
      congr 2
      omega
    · next hnone =>
        obtain rfl := Option.some.inj hpost
        have hzero : ¬ j < r.postDataBits := by
          have hbits : ¬ 0 < r.postDataBits := by simpa [hasPost] using hnone
          omega
        rw [decide_eq_false hzero, Bool.false_and]
        exact BitVec.getLsbD_zero
  have hdataLt : ∀ j, data.getLsbD j = true → j < r.bits := by
    intro j h
    rw [hdataBit, Bool.and_eq_true] at h
    exact of_decide_eq_true h.1
  have hpostLt : ∀ j, post.getLsbD j = true → j < r.postDataBits := by
    intro j h
    rw [hpostBit, Bool.and_eq_true] at h
    exact of_decide_eq_true h.1
  rw [append_getLsbD _ _ _ hdataLt hpostLt hp, genIrCode_getLsbD hraw _ _ _ hp]
  split
  · next hlow =>
      have hin : p < bitCount r := by omega
      rw [hpostBit, decide_eq_true hlow, decide_eq_true hin]
  · next hlow =>
      split
      · next hmid =>
          have hin : p < bitCount r := by omega
          have hmid' : p - r.postDataBits < r.bits := by omega
          rw [hdataBit, decide_eq_true hmid', decide_eq_true hin,
            show r.postDataBits + (p - r.postDataBits) = p by omega]
      · next hmid =>
          rw [hpreBit, show r.bits + r.postDataBits + (p - r.postDataBits - r.bits) = p by omega]
          by_cases hin : p < bitCount r
          · have hhigh : p - r.postDataBits - r.bits < r.preDataBits := by omega
            rw [decide_eq_true hhigh, decide_eq_true hin, Bool.true_and, Bool.true_and, Bool.true_and]
          · have hhigh : ¬ p - r.postDataBits - r.bits < r.preDataBits := by omega
            rw [decide_eq_false hhigh, decide_eq_false hin, Bool.false_and, Bool.false_and]

/-- `send_data` refuses widths that the symbols of the protocol do not fill. -/
theorem sentData_isSome (r : IrRemote) (data : IrCode) (bits done : ℕ) :
    (sentData r data bits done).isSome =
      if isRcmm r then bits % 2 == 0 && done % 2 == 0
      else if isXmp r then bits % 4 == 0 && done % 4 == 0
      else true := by
  have hrefused : ∀ (k : ℕ) (w : IrCode),
      (if bits % k ≠ 0 ∨ done % k ≠ 0 then none else some w : Option IrCode).isSome =
        (bits % k == 0 && done % k == 0) := by
    intro k w
    split
    · next h =>
        symm
        rw [Option.isSome_none, Bool.and_eq_false_iff]
        exact h.imp beq_eq_false_iff_ne.mpr beq_eq_false_iff_ne.mpr
    · next h =>
        rw [not_or, not_not, not_not] at h
        rw [h.1, h.2]
        rfl
  rw [sentData]
  split
  · exact hrefused 2 _
  · split
    · exact hrefused 4 _
    · rfl

/-- A word is sent if and only if no part of it is refused. -/
theorem sentWord_isSome (r : IrRemote) (code : IrCode) :
    (sentWord r code).isSome = sendsBits r := by
  have hparts : (sentWord r code).isSome = (!isRaw r && ((sentPre r).isSome &&
      (sentData r code r.bits r.preDataBits).isSome && (sentPost r).isSome)) := by
    rw [sentWord]
    cases isRaw r with
    | true => rfl
    | false =>
        cases sentPre r with
        | none => rfl
        | some pre =>
            cases sentData r code r.bits r.preDataBits with
            | none => rfl
            | some data =>
                cases sentPost r with
                | none => rfl
                | some post => rfl
  have hpre : (sentPre r).isSome = (sentData r r.preData r.preDataBits 0).isSome := by
    rw [sentPre]
    split
    · rfl
    · next hnone =>
        have hzero : r.preDataBits = 0 := by simpa [hasPre] using hnone
        rw [sentData_isSome, hzero]
        simp
  rw [hparts, hpre, sendsBits]
  congr 1
  rw [sentPost]
  split
  · simp only [sentData_isSome]
    split
    · grind
    · split
      · grind
      · rfl
  · next hnone =>
      have hzero : r.postDataBits = 0 := by simpa [hasPost] using hnone
      simp only [sentData_isSome, hzero]
      split
      · grind
      · split
        · grind
        · rfl

end Words

end Lirc
