import Lirc.Receive
import Lirc.Library.Signal
import Mathlib.Data.Nat.Bitwise

/-!
Reading a clean stream: what lies behind the read position of the receive
buffer and what lies ahead of it. A driver word that is neither zero nor a
time-out report is delivered by the next read wherever it is stored.
-/

namespace Lirc

open Signal

/-! ### Words of pulses and spaces -/

/-- The word a driver delivers for a sample. -/
def word (p : Part) : ℕ := if p.high then pulseBit + p.len.toNat else p.len.toNat

/-- The length fits into the word. -/
def Representable (p : Part) : Prop := 0 < p.len ∧ p.len < 2 ^ 24

instance (p : Part) : Decidable (Representable p) := inferInstanceAs (Decidable (_ ∧ _))

/-- A word that a read delivers as it is. -/
def Good (w : ℕ) : Prop := w ≠ 0 ∧ isTimeout w = false

theorem isTimeout_of_lt {w : ℕ} (h : w < 2 ^ 25) : isTimeout w = false := by
  rw [isTimeout, beq_eq_false_iff_ne]
  intro he
  have hbit : (w &&& mode2Mask).testBit 25 = mode2Timeout.testBit 25 := by rw [he]
  rw [Nat.testBit_and, Nat.testBit_lt_two_pow h] at hbit
  exact absurd hbit (by decide)

section Words

variable {p : Part}

theorem word_lt (h : Representable p) : word p < 2 ^ 25 := by
  obtain ⟨h0, h1⟩ := h
  unfold word pulseBit
  split <;> omega

theorem Representable.good (h : Representable p) : Good (word p) := by
  refine ⟨?_, isTimeout_of_lt (word_lt h)⟩
  obtain ⟨h0, -⟩ := h
  unfold word pulseBit
  split <;> omega

theorem isPulse_word (h : Representable p) : isPulse (word p) = p.high := by
  obtain ⟨level, x⟩ := p
  obtain ⟨h0, h1⟩ := h
  have hx : x.toNat < 2 ^ 24 := by simp only at h1; omega
  have hp : pulseBit = 2 ^ 24 := rfl
  rw [isPulse, hp, Nat.and_two_pow]
  cases level
  · simp [word, Nat.testBit_lt_two_pow hx]
  · have hbit : (2 ^ 24 + x.toNat).testBit 24 = true := by
      rw [Nat.testBit_two_pow_add_eq, Nat.testBit_lt_two_pow hx]; rfl
    simp only [word, hp, if_true, hbit]
    rfl

theorem sampleValue_word (h : Representable p) : sampleValue (word p) = p.len := by
  obtain ⟨level, x⟩ := p
  obtain ⟨h0, h1⟩ := h
  simp only at h0 h1
  have hm : pulseMask = 2 ^ 24 - 1 := rfl
  rw [sampleValue, hm, Nat.and_two_pow_sub_one_eq_mod]
  cases level
  · simp only [word, Bool.false_eq_true, if_false]
    omega
  · simp only [word, if_true, pulseBit]
    omega

theorem word_space {x : ℤ} (h : 0 < x) : ((word (space x) : ℕ) : ℤ) = x := by
  simp only [word, Bool.false_eq_true, if_false]
  omega

end Words

/-! ### The view of the buffer -/

/-- What lies behind the read position, and good words ahead of it. -/
structure RBuf.View (b : RBuf) (past ahead : List ℕ) : Prop where
  behind : b.data.take b.rptr = past
  rptr_eq : past.length = b.rptr
  following : ahead <+: b.data.drop b.rptr ++ b.input
  room : past.length + ahead.length ≤ rbufSize
  good : ∀ w ∈ past ++ ahead, Good w

/-- The buffer after a read has delivered `w`. -/
def RBuf.advance (b : RBuf) (w : ℕ) : RBuf :=
  if b.rptr < b.data.length then { b with sum := b.sum + sampleValue w, rptr := b.rptr + 1 }
  else { b with data := b.data ++ [w], input := b.input.tail, sum := b.sum + sampleValue w,
                rptr := b.rptr + 1 }

@[simp] theorem RBuf.advance_sum (b : RBuf) (w : ℕ) :
    (b.advance w).sum = b.sum + sampleValue w := by
  unfold RBuf.advance; split <;> rfl

@[simp] theorem RBuf.advance_pendingp (b : RBuf) (w : ℕ) :
    (b.advance w).pendingp = b.pendingp := by
  unfold RBuf.advance; split <;> rfl

@[simp] theorem RBuf.advance_pendings (b : RBuf) (w : ℕ) :
    (b.advance w).pendings = b.pendings := by
  unfold RBuf.advance; split <;> rfl

namespace RBuf.View

variable {b : RBuf} {past ws : List ℕ} {w : ℕ}

theorem rptr_le (h : b.View past ws) : b.rptr ≤ b.data.length := by
  have hlen := congrArg List.length h.behind
  rw [List.length_take, h.rptr_eq] at hlen
  omega

/-- The view does not depend on what is pending. -/
theorem pend (h : b.View past ws) (pp ps : ℤ) :
    ({ b with pendingp := pp, pendings := ps } : RBuf).View past ws :=
  ⟨h.behind, h.rptr_eq, h.following, h.room, h.good⟩

theorem head_good (h : b.View past (w :: ws)) : Good w := h.good w (by simp)

/-- A read moves one word from what is ahead to what is behind. -/
theorem advance (h : b.View past (w :: ws)) : (b.advance w).View (past ++ [w]) ws := by
  have hle := h.rptr_le
  have hroom := h.room
  have hrptr := h.rptr_eq
  obtain ⟨rest, hrest⟩ := h.following
  rw [List.length_cons] at hroom
  have hgood : ∀ x ∈ past ++ [w] ++ ws, Good x := by simpa using h.good
  by_cases hlt : b.rptr < b.data.length
  · have hdrop := List.drop_eq_getElem_cons hlt
    rw [hdrop] at hrest
    simp only [List.cons_append, List.cons.injEq] at hrest
    rw [RBuf.advance, if_pos hlt]
    refine ⟨?_, ?_, ⟨rest, hrest.2⟩, ?_, hgood⟩
    · rw [List.take_add_one, h.behind, List.getElem?_eq_getElem hlt, ← hrest.1]
      rfl
    · simp [hrptr]
    · simp; omega
  · have hlen : b.data.length = b.rptr := by omega
    have hnil : b.data.drop b.rptr = [] := by simp [hlen]
    rw [hnil, List.nil_append] at hrest
    rw [RBuf.advance, if_neg hlt]
    have hpast : b.data = past := by rw [← h.behind, ← hlen, List.take_length]
    refine ⟨?_, ?_, ⟨rest, ?_⟩, ?_, hgood⟩
    · rw [List.take_of_length_le (by simp [hlen]), hpast]
    · simp [hrptr]
    · simp [hlen, ← hrest]
    · simp; omega

/-- The next read delivers the next word. -/
theorem getNext (h : b.View past (w :: ws)) (maxusec : ℤ) :
    getNextRecBuffer b maxusec = (w, b.advance w) := by
  have hle := h.rptr_le
  have hroom := h.room
  have hrptr := h.rptr_eq
  obtain ⟨hw, htime⟩ := h.head_good
  obtain ⟨rest, hrest⟩ := h.following
  rw [List.length_cons] at hroom
  unfold getNextRecBuffer getNextRecBufferInternal RBuf.advance
  by_cases hlt : b.rptr < b.data.length
  · have hdrop := List.drop_eq_getElem_cons hlt
    rw [hdrop] at hrest
    simp only [List.cons_append, List.cons.injEq] at hrest
    rw [List.getElem?_eq_getElem hlt, ← hrest.1, if_pos hlt]
  · have hnil : b.data.drop b.rptr = [] := by simp; omega
    rw [hnil, List.nil_append] at hrest
    have hlt' : b.data.length < rbufSize := by omega
    rw [List.getElem?_eq_none (by omega), if_neg hlt]
    simp only [hlt', if_true, ← hrest, List.cons_append, readNew, hw, if_false, htime,
      Bool.false_eq_true, List.tail_cons]
    cases w with
    | zero => exact absurd rfl hw
    | succ w => rfl

/-- A read that asks for a pulse. -/
theorem getNextPulse (h : b.View past (w :: ws)) (maxusec : ℤ) :
    Lirc.getNextPulse b maxusec = (if isPulse w then sampleValue w else 0, b.advance w) := by
  have hw := h.head_good.1
  unfold Lirc.getNextPulse
  rw [h.getNext]
  cases hp : isPulse w <;> simp [hw, hp]

/-- A read that asks for a space. -/
theorem getNextSpace (h : b.View past (w :: ws)) (maxusec : ℤ) :
    Lirc.getNextSpace b maxusec = (if isPulse w then 0 else (w : ℤ), b.advance w) := by
  have hw := h.head_good.1
  unfold Lirc.getNextSpace
  rw [h.getNext]
  cases hp : isPulse w <;> simp [hw, hp, isSpace]

/-- One word is given back. -/
theorem unget_one (h : b.View (past ++ [w]) ws) :
    (ungetRecBuffer b 1).View past (w :: ws) ∧
      (ungetRecBuffer b 1).sum = b.sum - sampleValue w ∧
      (ungetRecBuffer b 1).pendingp = b.pendingp ∧
      (ungetRecBuffer b 1).pendings = b.pendings := by
  have hle := h.rptr_le
  have hroom := h.room
  have hrptr := h.rptr_eq
  have hpast := h.behind
  obtain ⟨rest, hrest⟩ := h.following
  simp only [List.length_append, List.length_singleton] at hroom hrptr
  have hlt : past.length < b.data.length := by omega
  have hget : b.data[past.length] = w := by
    have h1 : (b.data.take b.rptr)[past.length]? = some w := by rw [hpast]; simp
    rw [List.getElem?_take_of_lt (by omega), List.getElem?_eq_getElem hlt] at h1
    simpa using h1
  have hr : b.rptr - 1 = past.length := by omega
  refine ⟨⟨?_, ?_, ⟨rest, ?_⟩, ?_, by simpa using h.good⟩, ?_, rfl, rfl⟩
  · have htake : b.data.take past.length = (b.data.take b.rptr).take past.length := by
      rw [List.take_take]; congr 1; omega
    simp [ungetRecBuffer, hr, htake, hpast]
  · simp [ungetRecBuffer, hr]
  · simp only [ungetRecBuffer, if_true, hr]
    rw [List.drop_eq_getElem_cons hlt, hget, List.cons_append, List.cons_append, hrest, hrptr]
  · simp; omega
  · simp [ungetRecBuffer, RBuf.valueAt, hr, List.getD_eq_getElem?_getD,
      List.getElem?_eq_getElem hlt, hget]

/-- Two words are given back. -/
theorem unget_two {v : ℕ} (h : b.View (past ++ [v, w]) ws) :
    (ungetRecBuffer b 2).View past (v :: w :: ws) ∧
      (ungetRecBuffer b 2).sum = b.sum - sampleValue v - sampleValue w ∧
      (ungetRecBuffer b 2).pendingp = b.pendingp ∧
      (ungetRecBuffer b 2).pendings = b.pendings := by
  have hrptr := h.rptr_eq
  simp only [List.length_append, List.length_cons, List.length_nil] at hrptr
  have hr : b.rptr - 2 + 1 = b.rptr - 1 := by omega
  have hr' : b.rptr - 1 - 1 = b.rptr - 2 := by omega
  have htwo : ungetRecBuffer b 2 = ungetRecBuffer (ungetRecBuffer b 1) 1 := by
    simp only [ungetRecBuffer, RBuf.valueAt, hr, hr', if_true]
    simp
    omega
  have h₁ : b.View ((past ++ [v]) ++ [w]) ws := by simpa using h
  obtain ⟨hview₁, hsum₁, hp₁, hs₁⟩ := h₁.unget_one
  obtain ⟨hview, hsum, hp, hs⟩ := hview₁.unget_one
  rw [htwo]
  exact ⟨hview, by rw [hsum, hsum₁]; omega, hp.trans hp₁, hs.trans hs₁⟩

end RBuf.View

end Lirc
