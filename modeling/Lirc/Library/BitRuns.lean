import Mathlib.Data.List.Basic
import Mathlib.Data.Nat.Basic
import Mathlib.Tactic.Common

/-!
Runs of ones at the ends of a word, and the mask of the bits in which the words
of a list agree.
-/

namespace BitRuns

/-! ### Runs -/

/-- How many of the first `n` values come before the first that is not true. -/
def runLength (p : ℕ → Bool) : ℕ → ℕ
  | 0 => 0
  | n + 1 => if p 0 then runLength (fun i => p (i + 1)) n + 1 else 0

section Runs

variable {p q : ℕ → Bool} {n k : ℕ}

theorem runLength_le (p : ℕ → Bool) (n : ℕ) : runLength p n ≤ n := by
  induction n generalizing p with
  | zero => exact le_rfl
  | succ n ih =>
      rw [runLength]
      split
      · exact Nat.succ_le_succ (ih _)
      · exact Nat.zero_le _

theorem runLength_true {i : ℕ} (h : i < runLength p n) : p i = true := by
  induction n generalizing p i with
  | zero => exact absurd h (Nat.not_lt_zero i)
  | succ n ih =>
      rw [runLength] at h
      split at h
      · next hp =>
          cases i with
          | zero => exact hp
          | succ i => exact ih (p := fun i => p (i + 1)) (Nat.lt_of_succ_lt_succ h)
      · exact absurd h (Nat.not_lt_zero i)

theorem runLength_false (h : runLength p n < n) : p (runLength p n) = false := by
  induction n generalizing p with
  | zero => exact absurd h (Nat.not_lt_zero _)
  | succ n ih =>
      rw [runLength] at h ⊢
      split at h
      · next hp =>
          rw [if_pos hp]
          exact ih (p := fun i => p (i + 1)) (Nat.lt_of_succ_lt_succ h)
      · next hp =>
          rw [if_neg hp]
          exact Bool.eq_false_iff.mpr hp

/-- What stands before the first value that is not true. -/
theorem runLength_eq (hk : k < n) (htrue : ∀ i < k, p i = true) (hfalse : p k = false) :
    runLength p n = k := by
  rcases Nat.lt_trichotomy (runLength p n) k with hlt | heq | hgt
  · have hat := runLength_false (Nat.lt_trans hlt hk)
    rw [htrue _ hlt] at hat
    cases hat
  · exact heq
  · rw [runLength_true hgt] at hfalse
    cases hfalse

theorem runLength_all (h : ∀ i < n, p i = true) : runLength p n = n := by
  rcases Nat.lt_or_eq_of_le (runLength_le p n) with hlt | heq
  · have hat := runLength_false hlt
    rw [h _ hlt] at hat
    cases hat
  · exact heq

end Runs

/-! ### Runs of ones -/

section Words

variable {w : ℕ} {n i : ℕ}

/-- The ones at the upper end of a word, of at most `n` bits. -/
def leadingOnes : ℕ → BitVec w → ℕ
  | 0, _ => 0
  | n + 1, m => if m.getMsbD 0 then leadingOnes n (m <<< 1) + 1 else 0

/-- The ones at the lower end of a word, of at most `n` bits. -/
def trailingOnes : ℕ → BitVec w → ℕ
  | 0, _ => 0
  | n + 1, m => if m.getLsbD 0 then trailingOnes n (m >>> 1) + 1 else 0

theorem leadingOnes_eq (n : ℕ) (m : BitVec w) : leadingOnes n m = runLength m.getMsbD n := by
  induction n generalizing m with
  | zero => rfl
  | succ n ih =>
      have hshift : (m <<< 1).getMsbD = fun i => m.getMsbD (i + 1) := by
        ext i
        rw [BitVec.getMsbD_shiftLeft]
      rw [leadingOnes, runLength, ih, hshift]

theorem trailingOnes_eq (n : ℕ) (m : BitVec w) : trailingOnes n m = runLength m.getLsbD n := by
  induction n generalizing m with
  | zero => rfl
  | succ n ih =>
      have hshift : (m >>> 1).getLsbD = fun i => m.getLsbD (i + 1) := by
        ext i
        rw [BitVec.getLsbD_ushiftRight, Nat.add_comm]
      rw [trailingOnes, runLength, ih, hshift]

/-! ### Words that agree -/

/-- All words have the same bit. -/
def Shared (words : List (BitVec w)) (i : ℕ) : Prop :=
  ∀ c ∈ words, ∀ d ∈ words, c.getLsbD i = d.getLsbD i

-- The words of the list are looked at, not all words of the width.
instance (words : List (BitVec w)) (i : ℕ) : Decidable (Shared words i) :=
  @List.decidableBAll (BitVec w) (fun c => ∀ d ∈ words, c.getLsbD i = d.getLsbD i)
    (fun c => @List.decidableBAll (BitVec w) (fun d => c.getLsbD i = d.getLsbD i)
      (fun _ => inferInstance) words) words

/-- The bits in which a word differs from the one before it leave the mask. -/
def compareStep (s : BitVec w × BitVec w) (word : BitVec w) : BitVec w × BitVec w :=
  (s.1 &&& ~~~(s.2 ^^^ word), word)

theorem foldl_compareStep_fst (mask last : BitVec w) (words : List (BitVec w)) (hi : i < w) :
    (words.foldl compareStep (mask, last)).1.getLsbD i = true ↔
      mask.getLsbD i = true ∧ ∀ c ∈ words, c.getLsbD i = last.getLsbD i := by
  induction words generalizing mask last with
  | nil => simp
  | cons word words ih =>
      have hbit : (mask &&& ~~~(last ^^^ word)).getLsbD i = true ↔
          mask.getLsbD i = true ∧ word.getLsbD i = last.getLsbD i := by
        rw [BitVec.getLsbD_and, BitVec.getLsbD_not, BitVec.getLsbD_xor]
        cases word.getLsbD i <;> cases last.getLsbD i <;> simp [hi]
      rw [List.foldl_cons, compareStep, ih, hbit, List.forall_mem_cons, and_assoc]
      refine and_congr_right fun _ => and_congr_right fun hword => ?_
      rw [hword]

theorem foldl_compareStep_snd_mem (mask last : BitVec w) (words : List (BitVec w)) :
    (words.foldl compareStep (mask, last)).2 ∈ last :: words := by
  induction words generalizing mask last with
  | nil => exact List.mem_singleton_self last
  | cons word words ih => exact List.mem_cons_of_mem _ (ih _ word)

/-- The mask of a list has the bits in which its words agree. -/
theorem mask_getLsbD (first : BitVec w) (words : List (BitVec w)) (hi : i < w) :
    (words.foldl compareStep (BitVec.allOnes w, first)).1.getLsbD i =
      decide (Shared (first :: words) i) := by
  rw [Bool.eq_iff_iff, foldl_compareStep_fst _ _ _ hi, BitVec.getLsbD_allOnes, decide_eq_true_eq,
    decide_eq_true_eq]
  constructor
  · rintro ⟨-, h⟩ c hc d hd
    have hfirst : ∀ x ∈ first :: words, x.getLsbD i = first.getLsbD i :=
      List.forall_mem_cons.mpr ⟨rfl, h⟩
    rw [hfirst c hc, hfirst d hd]
  · intro h
    exact ⟨hi, fun c hc => h c (List.mem_cons_of_mem _ hc) first List.mem_cons_self⟩

end Words

end BitRuns
