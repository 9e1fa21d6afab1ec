import Lirc.Remote

/-!
Bits of code words: `reverse` turns a code word round, `gen_mask` keeps its
lower bits, and the bits read one after the other give the word again.
-/

namespace Lirc

/-- A single bit of a code word. -/
theorem oneShl_getLsbD {n j : ℕ} (hj : j < 64) :
    ((1 : IrCode) <<< n).getLsbD j = decide (j = n) := by
  rw [BitVec.getLsbD_shiftLeft]
  by_cases h : j = n
  · subst h; simp [hj]
  · by_cases hlt : j < n
    · simp [hlt, h]
    · have hne : j - n ≠ 0 := by omega
      simp [hj, hlt, h, BitVec.getLsbD_one, hne]

theorem and_oneShl {d : IrCode} {i : ℕ} (hi : i < 64) :
    d &&& (1#64 <<< i) ≠ 0 ↔ d.getLsbD i = true := by
  constructor
  · intro h
    by_contra hbit
    apply h
    apply BitVec.eq_of_getLsbD_eq
    intro j hj
    have hone := oneShl_getLsbD (n := i) hj
    simp only [BitVec.getLsbD_and, BitVec.ofNat_eq_ofNat] at hone ⊢
    rw [hone]
    by_cases hji : j = i
    · subst hji; simp [hbit]
    · simp [hji]
  · intro hbit h
    have hj := congrArg (fun c : IrCode => c.getLsbD i) h
    have hone := oneShl_getLsbD (n := i) hi
    simp only [BitVec.getLsbD_and, BitVec.ofNat_eq_ofNat] at hj hone
    rw [hone] at hj
    simp [hbit] at hj

theorem and_one_cases (d : IrCode) : d &&& 1 = 0 ∨ d &&& 1 = 1 := by
  have h := BitVec.and_one_eq_setWidth_ofBool_getLsbD (x := d)
  simp only [BitVec.ofNat_eq_ofNat] at h ⊢
  rw [h]
  cases d.getLsbD 0
  · left; rfl
  · right; rfl

/-- `gen_mask` has the lower bits set. -/
theorem genMask_getLsbD {n j : ℕ} (hj : j < 64) : (genMask n).getLsbD j = decide (j < n) := by
  induction n generalizing j with
  | zero => simp [genMask]
  | succ n ih =>
      have hone : ((1 : IrCode)).getLsbD j = decide (j = 0) := by
        simp [BitVec.getLsbD_one]
      simp only [genMask, BitVec.getLsbD_or, BitVec.getLsbD_shiftLeft, hone]
      cases j with
      | zero => simp
      | succ j =>
          have := ih (j := j) (by omega)
          simp [hj, this]

theorem reverseLoop_getLsbD {d : IrCode} {n i j : ℕ} (hn : n ≤ 64) (hi : i ≤ n) (hj : j < 64) :
    (reverseLoop d n i 0).getLsbD j =
      (decide (n - i ≤ j ∧ j < n) && d.getLsbD (n - 1 - j)) := by
  induction i with
  | zero =>
      simp [reverseLoop]
  | succ i ih =>
      have hbit : ((if d &&& (1#64 <<< i) ≠ 0 then 1#64 else 0#64) <<<
          (n - 1 - i)).getLsbD j = (decide (j = n - 1 - i) && d.getLsbD i) := by
        have hone := oneShl_getLsbD (n := n - 1 - i) hj
        by_cases hd : d.getLsbD i = true
        · rw [if_pos ((and_oneShl (by omega)).mpr hd), hd, Bool.and_true]
          exact hone
        · rw [if_neg (fun h => hd ((and_oneShl (by omega)).mp h))]
          simp [hd]
      rw [reverseLoop, BitVec.getLsbD_or, ih (by omega), hbit]
      by_cases hji : j = n - 1 - i
      · have h1 : n - 1 - j = i := by omega
        have h2 : n - (i + 1) ≤ j ∧ j < n := by omega
        have h3 : ¬(n - i ≤ j ∧ j < n) := by omega
        rw [h1, decide_eq_true h2, decide_eq_false h3, decide_eq_true hji]
        simp
      · by_cases hin : n - i ≤ j ∧ j < n
        · have h2 : n - (i + 1) ≤ j ∧ j < n := by omega
          simp [hin, h2, hji]
        · have h2 : ¬(n - (i + 1) ≤ j ∧ j < n) := by omega
          simp only [hin, h2, hji, decide_false, Bool.false_and, Bool.or_self]

/-- `reverse` mirrors the lower bits. -/
theorem reverse_getLsbD {d : IrCode} {n j : ℕ} (hn : n ≤ 64) (hj : j < 64) :
    (reverse d n).getLsbD j = (decide (j < n) && d.getLsbD (n - 1 - j)) := by
  rw [reverse, reverseLoop_getLsbD hn (Nat.le_refl n) hj]
  simp

/-- The lowest bit of a reversed word is the highest of the word. -/
theorem reverse_succ_and_one {n : ℕ} (hn : n + 1 ≤ 64) (d : IrCode) :
    (reverse d (n + 1) &&& 1 != 0) = d.getLsbD n := by
  have hbit : (reverse d (n + 1)).getLsbD 0 = d.getLsbD n := by
    rw [reverse_getLsbD hn (by omega)]
    simp
  have hone := and_oneShl (d := reverse d (n + 1)) (i := 0) (by decide)
  rw [hbit] at hone
  cases h : d.getLsbD n with
  | true =>
      rw [h] at hone
      simpa using hone
  | false =>
      rw [h] at hone
      simpa using hone

/-- The rest of a reversed word is the rest of the word, reversed. -/
theorem reverse_succ_ushiftRight {n : ℕ} (hn : n + 1 ≤ 64) (d : IrCode) :
    reverse d (n + 1) >>> 1 = reverse d n := by
  apply BitVec.eq_of_getLsbD_eq
  intro j hj
  rw [BitVec.getLsbD_ushiftRight, reverse_getLsbD (by omega) hj]
  by_cases hlt : j < n
  · have h1 : 1 + j < n + 1 := by omega
    have h2 : n + 1 - 1 - (1 + j) = n - 1 - j := by omega
    rw [reverse_getLsbD hn (by omega), h2]
    simp [h1, hlt]
  · have h1 : ¬1 + j < n + 1 := by omega
    by_cases h64 : 1 + j < 64
    · rw [reverse_getLsbD hn h64]
      simp [h1, hlt]
    · rw [BitVec.getLsbD_of_ge _ _ (by omega)]
      simp [hlt]

/-- The word that reading the lower bits of `data` one by one gives. -/
def collectBits : ℕ → IrCode → IrCode → IrCode
  | 0, _, c => c
  | n + 1, data, c => collectBits n (data >>> 1) (c <<< 1 ||| (data &&& 1))

theorem collectBits_getLsbD {n j : ℕ} {data c : IrCode} (hj : j < 64) :
    (collectBits n data c).getLsbD j =
      if j < n then data.getLsbD (n - 1 - j) else c.getLsbD (j - n) := by
  induction n generalizing data c with
  | zero => simp [collectBits]
  | succ n ih =>
      have hone : ∀ k < 64, ((1 : IrCode)).getLsbD k = decide (k = 0) := by
        intro k _
        simp [BitVec.getLsbD_one]
      rw [collectBits, ih]
      by_cases hlt : j < n
      · have h1 : 1 + (n - 1 - j) = n + 1 - 1 - j := by omega
        have h2 : j < n + 1 := by omega
        rw [if_pos hlt, if_pos h2, BitVec.getLsbD_ushiftRight, h1]
      · rw [if_neg hlt, BitVec.getLsbD_or, BitVec.getLsbD_shiftLeft, BitVec.getLsbD_and,
          hone _ (by omega)]
        by_cases heq : j = n
        · subst heq; simp
        · have h1 : ¬j < n + 1 := by omega
          have h2 : ¬j - n < 1 := by omega
          have h3 : j - n ≠ 0 := by omega
          have h4 : j - n < 64 := by omega
          have h5 : j - n - 1 = j - (n + 1) := by omega
          simp [h1, h2, h3, h4, h5]

/-- Sending a word in reverse and collecting its bits keeps the lower bits. -/
theorem collectBits_reverse {n : ℕ} (hn : n ≤ 64) (d : IrCode) :
    collectBits n (reverse d n) 0 = d &&& genMask n := by
  apply BitVec.eq_of_getLsbD_eq
  intro j hj
  rw [collectBits_getLsbD hj, BitVec.getLsbD_and, genMask_getLsbD hj]
  by_cases hlt : j < n
  · have h1 : n - 1 - j < n := by omega
    have h2 : n - 1 - (n - 1 - j) = j := by omega
    rw [if_pos hlt, reverse_getLsbD hn (by omega)]
    simp [h1, h2, hlt]
  · simp [hlt]

/-- The mark of a failed segment has more than 63 bits. -/
theorem and_genMask_ne_allOnes {n : ℕ} (hn : n ≤ 63) (d : IrCode) :
    d &&& genMask n ≠ BitVec.allOnes 64 := by
  intro h
  have hbit := congrArg (fun c : IrCode => c.getLsbD 63) h
  have hmask := genMask_getLsbD (n := n) (j := 63) (by decide)
  simp only [BitVec.getLsbD_and, hmask] at hbit
  have : ¬63 < n := by omega
  simp [this] at hbit

/-- The running mask of the encoder is the mask of the bit. -/
theorem oneShl_ushiftRight {k : ℕ} (hk : 0 < k) (hk' : k < 64) :
    ((1 : IrCode) <<< k) >>> 1 = (1 : IrCode) <<< (k - 1) := by
  apply BitVec.eq_of_getLsbD_eq
  intro j hj
  rw [BitVec.getLsbD_ushiftRight, oneShl_getLsbD hj]
  by_cases h : 1 + j < 64
  · rw [oneShl_getLsbD h]
    congr 1
    simp only [eq_iff_iff]
    omega
  · have hne : j ≠ k - 1 := by omega
    simp [hne]
    omega

end Lirc
