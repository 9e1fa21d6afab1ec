import Mathlib.Logic.Relation
import Lirc.Tape
import Lirc.BitDecode

/-!
Synchronisation on any stream. What has been read stays in the buffer, so
after a rewind the synchronisation finds the same space again.
-/

namespace Lirc

open Signal

/-- The tape is the same, and no word that was held has been dropped. -/
def RBuf.Grows (b b' : RBuf) : Prop :=
  b'.received = b.received ∧ b.data.length ≤ b'.data.length

theorem RBuf.Grows.refl (b : RBuf) : b.Grows b := ⟨rfl, Nat.le_refl _⟩

theorem RBuf.Grows.trans {b b' b'' : RBuf} (h : b.Grows b') (h' : b'.Grows b'') : b.Grows b'' :=
  ⟨h'.1.trans h.1, Nat.le_trans h.2 h'.2⟩

/-- One call of the driver: a word it delivers goes behind the words that are held. -/
inductive Fetch : List ℕ × List ℕ → List ℕ × List ℕ → Prop
  | timeout {m : ℤ} {data input rest : List ℕ} (h : readNew m input = (0, rest)) :
      Fetch (data, input) (data, rest)
  | word {m : ℤ} {data input rest : List ℕ} {w : ℕ} (h : readNew m input = (w, rest)) (hw : w ≠ 0)
      (hroom : data.length < rbufSize) : Fetch (data, input) (data ++ [w], rest)

/-- Nothing but calls of the driver changes the words. -/
def RBuf.Fetches (b b' : RBuf) : Prop :=
  Relation.ReflTransGen Fetch (b.data, b.input) (b'.data, b'.input)

theorem RBuf.Fetches.refl (b : RBuf) : b.Fetches b := Relation.ReflTransGen.refl

theorem RBuf.Fetches.single {b b' : RBuf} (h : Fetch (b.data, b.input) (b'.data, b'.input)) :
    b.Fetches b' := Relation.ReflTransGen.single h

theorem RBuf.Fetches.trans {b b' b'' : RBuf} (h : b.Fetches b') (h' : b'.Fetches b'') :
    b.Fetches b'' := Relation.ReflTransGen.trans h h'

/-- What is left when nothing is delivered, and when a word is. -/
theorem readNew_zero {m : ℤ} {input rest : List ℕ} (h : readNew m input = (0, rest)) :
    rest.filter deliverable = input.filter deliverable := by
  rcases readNew_cases m input with ⟨rest', hread, hfilter⟩ | ⟨w, rest', hread, hw, -⟩
  · rw [h] at hread
    rw [(Prod.mk.inj hread).2]
    exact hfilter
  · rw [h] at hread
    exact absurd (Prod.mk.inj hread).1.symm hw

theorem readNew_word {m : ℤ} {input rest : List ℕ} {w : ℕ} (h : readNew m input = (w, rest))
    (hw : w ≠ 0) : input.filter deliverable = w :: rest.filter deliverable := by
  rcases readNew_cases m input with ⟨rest', hread, -⟩ | ⟨w', rest', hread, -, hfilter⟩
  · rw [h] at hread
    exact absurd (Prod.mk.inj hread).1 hw
  · rw [h] at hread
    obtain ⟨rfl, rfl⟩ := Prod.mk.inj hread
    exact hfilter

section Fetches

variable (hw : Hardware) (r : IrRemote) (b : RBuf)

theorem getNextRecBuffer_fetches (m : ℤ) : b.Fetches (getNextRecBuffer b m).2 := by
  rw [getNextRecBuffer, getNextRecBufferInternal]
  split
  · exact .refl b
  · split
    · next hroom =>
        rcases hread : readNew (receiveTimeout m) b.input with ⟨w, rest⟩
        cases w with
        | zero => exact .single (.timeout hread)
        | succ w => exact .single (.word hread (Nat.succ_ne_zero w) hroom)
    · exact .refl b

theorem ungetRecBuffer_fetches (n : ℕ) : b.Fetches (ungetRecBuffer b n) := by
  rw [ungetRecBuffer]
  split
  · exact .refl b
  · split <;> exact .refl b

theorem getNextPulse_fetches (m : ℤ) : b.Fetches (getNextPulse b m).2 := by
  have h := getNextRecBuffer_fetches b m
  rw [getNextPulse]
  dsimp only
  split
  · exact h
  · split <;> exact h

theorem getNextSpace_fetches (m : ℤ) : b.Fetches (getNextSpace b m).2 := by
  have h := getNextRecBuffer_fetches b m
  rw [getNextSpace]
  dsimp only
  split
  · exact h
  · split <;> exact h

theorem syncPendingPulse_fetches : b.Fetches (syncPendingPulse hw r b).2 := by
  have h := getNextPulse_fetches b b.pendingp
  rw [syncPendingPulse]
  dsimp only
  split
  · split
    · exact h
    · split <;> exact h
  · exact .refl b

theorem syncPendingSpace_fetches : b.Fetches (syncPendingSpace hw r b).2 := by
  have h := getNextSpace_fetches b b.pendings
  rw [syncPendingSpace]
  dsimp only
  split
  · split
    · exact h
    · split <;> exact h
  · exact .refl b

theorem expectPulse_fetches (x : ℤ) : b.Fetches (expectPulse hw r b x).2 := by
  have h := syncPendingSpace_fetches hw r b
  rw [expectPulse]
  rcases hsync : syncPendingSpace hw r b with ⟨ok, b₁⟩
  rw [hsync] at h
  have h₁ := h.trans (getNextPulse_fetches b₁ (b₁.pendingp + x))
  dsimp only
  split
  · exact h
  · split
    · exact h₁
    · split
      · split
        · exact h₁
        · split <;> exact h₁
      · exact h₁

theorem expectSpace_fetches (x : ℤ) : b.Fetches (expectSpace hw r b x).2 := by
  have h := syncPendingPulse_fetches hw r b
  rw [expectSpace]
  rcases hsync : syncPendingPulse hw r b with ⟨ok, b₁⟩
  rw [hsync] at h
  have h₁ := h.trans (getNextSpace_fetches b₁ (b₁.pendings + x))
  dsimp only
  split
  · exact h
  · split
    · exact h₁
    · split
      · split
        · exact h₁
        · split <;> exact h₁
      · exact h₁

theorem getLead_fetches : b.Fetches (getLead hw r b).2 := by
  have h := syncPendingSpace_fetches hw r b
  rw [getLead]
  dsimp only
  split
  · exact .refl b
  · split <;> exact h

theorem getTrail_fetches : b.Fetches (getTrail hw r b).2 := by
  obtain ⟨ok, b₁, hpulse, h⟩ : ∃ ok b₁,
      (if r.ptrail ≠ 0 then expectPulse hw r b r.ptrail else (true, b)) = (ok, b₁) ∧
      b.Fetches b₁ := by
    split
    · exact ⟨_, _, rfl, expectPulse_fetches hw r b r.ptrail⟩
    · exact ⟨_, _, rfl, .refl b⟩
  rw [getTrail, hpulse]
  dsimp only
  split
  · exact h
  · split
    · exact h.trans (syncPendingPulse_fetches hw r b₁)
    · exact h

theorem getGap_fetches (gap : ℤ) : b.Fetches (getGap hw r b gap).2 := by
  have h := getNextRecBuffer_fetches b (gap - (gap * r.eps).tdiv 100)
  rw [getGap]
  dsimp only
  split
  · exact h
  · split
    · exact h
    · exact h.trans (ungetRecBuffer_fetches _ 1)

theorem getHeaderRcmm_fetches : b.Fetches (getHeaderRcmm hw r b).2 := by
  have h := getNextPulse_fetches b r.phead
  rw [getHeaderRcmm]
  rcases hpulse : getNextPulse b r.phead with ⟨deltap, b₁⟩
  rw [hpulse] at h
  have h₁ := h.trans (getNextSpace_fetches b₁ r.shead)
  dsimp only
  split
  · exact h.trans (ungetRecBuffer_fetches _ 1)
  · split
    · exact h₁.trans (ungetRecBuffer_fetches _ 2)
    · split
      · exact h₁
      · exact h₁.trans (ungetRecBuffer_fetches _ 2)

theorem expectPairs_fetches (ps : List (ℤ × ℤ)) : b.Fetches (expectPairs hw r ps b).2 := by
  induction ps generalizing b with
  | nil => exact .refl b
  | cons p ps ih =>
      have h := expectPulse_fetches hw r b p.1
      rw [expectPairs]
      rcases hpulse : expectPulse hw r b p.1 with ⟨ok, b₁⟩
      rw [hpulse] at h
      have h₁ := h.trans (expectSpace_fetches hw r b₁ p.2)
      dsimp only
      split
      · exact h
      · rcases hspace : expectSpace hw r b₁ p.2 with ⟨ok', b₂⟩
        rw [hspace] at h₁
        dsimp only
        split
        · exact h₁
        · exact h₁.trans (ih b₂)

theorem getHeader_fetches : b.Fetches (getHeader hw r b).2 := by
  rw [getHeader]
  split
  · exact getHeaderRcmm_fetches hw r b
  split
  · exact expectPairs_fetches hw r b _
  split
  · have h := syncPendingSpace_fetches hw r b
    rcases hsync : syncPendingSpace hw r b with ⟨ok, b₁⟩
    rw [hsync] at h
    dsimp only
    split <;> exact h
  · have h := expectPulse_fetches hw r b r.phead
    rcases hpulse : expectPulse hw r b r.phead with ⟨ok, b₁⟩
    rw [hpulse] at h
    have h₁ := h.trans (getNextSpace_fetches b₁ r.shead)
    dsimp only
    split
    · exact h.trans (ungetRecBuffer_fetches _ 1)
    · split
      · split
        · split
          · exact h₁
          · exact h₁.trans (ungetRecBuffer_fetches _ 2)
        · exact h₁
      · exact h

/-- The two signals that are only in a repeat. -/
theorem repeatSignals_fetches : b.Fetches
    (if isBiphase r then
      let (ok, b) := expectSpace hw r b r.srepeat
      if !ok then (false, b) else expectPulse hw r b r.prepeat
    else
      let (ok, b) := expectPulse hw r b r.prepeat
      if !ok then (false, b) else (true, { b with pendings := r.srepeat })).2 := by
  cases isBiphase r with
  | true =>
      have h₁ := expectSpace_fetches hw r b r.srepeat
      rcases hspace : expectSpace hw r b r.srepeat with ⟨ok, b₁⟩
      rw [hspace] at h₁
      cases ok with
      | false => exact h₁
      | true => exact h₁.trans (expectPulse_fetches hw r b₁ r.prepeat)
  | false =>
      have h₁ := expectPulse_fetches hw r b r.prepeat
      rcases hpulse : expectPulse hw r b r.prepeat with ⟨ok, b₁⟩
      rw [hpulse] at h₁
      cases ok with
      | false => exact h₁
      | true => exact h₁

theorem getRepeat_fetches : b.Fetches (getRepeat hw r b).2 := by
  have h := getLead_fetches hw r b
  rw [getRepeat]
  rcases hlead : getLead hw r b with ⟨ok, b₁⟩
  rw [hlead] at h
  dsimp only
  split
  · exact h
  have h₂ := h.trans (repeatSignals_fetches hw r b₁)
  generalize (if isBiphase r = true then _ else _ : Bool × RBuf) = x at h₂ ⊢
  obtain ⟨ok, b₂⟩ := x
  have h₃ := h₂.trans (getTrail_fetches hw r b₂)
  dsimp only
  split
  · exact h₂
  · split
    · exact h₃
    · exact h₃.trans (getGap_fetches hw r _ _)

end Fetches

section Grows

variable (hw : Hardware) (r : IrRemote) (b : RBuf)

theorem RBuf.Fetches.grows {b b' : RBuf} (h : b.Fetches b') : b.Grows b' := by
  have hstep : ∀ p q : List ℕ × List ℕ, Fetch p q →
      q.1 ++ q.2.filter deliverable = p.1 ++ p.2.filter deliverable ∧ p.1.length ≤ q.1.length := by
    intro p q hpq
    cases hpq with
    | timeout hread => exact ⟨by rw [readNew_zero hread], Nat.le_refl _⟩
    | word hread hw =>
        refine ⟨?_, by simp⟩
        rw [readNew_word hread hw, List.append_assoc, List.singleton_append]
  have hall : ∀ q, Relation.ReflTransGen Fetch (b.data, b.input) q →
      q.1 ++ q.2.filter deliverable = b.received ∧ b.data.length ≤ q.1.length := by
    intro q hq
    induction hq with
    | refl => exact ⟨rfl, Nat.le_refl _⟩
    | tail _ hpq ih =>
        obtain ⟨hsame, hle⟩ := hstep _ _ hpq
        exact ⟨hsame.trans ih.1, ih.2.trans hle⟩
  exact hall _ h

theorem ungetRecBuffer_grows (n : ℕ) : b.Grows (ungetRecBuffer b n) :=
  (ungetRecBuffer_fetches b n).grows

theorem getNextPulse_grows (m : ℤ) : b.Grows (getNextPulse b m).2 :=
  (getNextPulse_fetches b m).grows

theorem getNextSpace_grows (m : ℤ) : b.Grows (getNextSpace b m).2 :=
  (getNextSpace_fetches b m).grows

theorem syncPendingPulse_grows : b.Grows (syncPendingPulse hw r b).2 :=
  (syncPendingPulse_fetches hw r b).grows

theorem syncPendingSpace_grows : b.Grows (syncPendingSpace hw r b).2 :=
  (syncPendingSpace_fetches hw r b).grows

theorem expectPulse_grows (x : ℤ) : b.Grows (expectPulse hw r b x).2 :=
  (expectPulse_fetches hw r b x).grows

theorem expectSpace_grows (x : ℤ) : b.Grows (expectSpace hw r b x).2 :=
  (expectSpace_fetches hw r b x).grows

theorem getLead_grows : b.Grows (getLead hw r b).2 :=
  (getLead_fetches hw r b).grows

theorem getTrail_grows : b.Grows (getTrail hw r b).2 :=
  (getTrail_fetches hw r b).grows

theorem getGap_grows (gap : ℤ) : b.Grows (getGap hw r b gap).2 :=
  (getGap_fetches hw r b gap).grows

theorem getHeader_grows : b.Grows (getHeader hw r b).2 :=
  (getHeader_fetches hw r b).grows

theorem getRepeat_grows : b.Grows (getRepeat hw r b).2 :=
  (getRepeat_fetches hw r b).grows

end Grows

/-! ### Reading again what has been read -/

section

variable {hw : Hardware} {r l : IrRemote} {R : List ℕ} {i : ℕ} {q : Option Part}

/-- A word that is held is read without asking the driver. -/
theorem RBuf.Sees.reread {c : RBuf} (h : c.Sees R i q) (hlt : i < c.data.length) (m : ℤ) {w : ℕ}
    (hw' : R[i]? = some w) :
    ∃ c', getNextRecBuffer c m = (w, c') ∧ c'.Sees R (i + 1) q ∧ c'.data = c.data := by
  have hget : c.data[c.rptr]? = some w := by
    rw [h.rptr, ← hw', ← h.received, RBuf.received, List.getElem?_append_left hlt]
  refine ⟨{ c with sum := c.sum + sampleValue w, rptr := c.rptr + 1 }, ?_, ?_, rfl⟩
  · simp only [getNextRecBuffer, getNextRecBufferInternal, hget]
  · exact ⟨h.received, h.nonzero, by simp [h.rptr], by have := h.rptr; simp only; omega,
      h.pendingp, h.pendings, h.positive⟩

theorem RBuf.Sees.renextPulse {c : RBuf} (h : c.Sees R i q) (hlt : i < c.data.length) (m : ℤ)
    {w : ℕ} (hw' : R[i]? = some w) (hp : isPulse w = true) :
    ∃ c', getNextPulse c m = (sampleValue w, c') ∧ c'.Sees R (i + 1) q ∧ c'.data = c.data := by
  obtain ⟨c', hread, h', hdata⟩ := h.reread hlt m hw'
  exact ⟨c', by simp [getNextPulse, hread, h.ne_zero hw', hp], h', hdata⟩

theorem RBuf.Sees.renextSpace {c : RBuf} (h : c.Sees R i q) (hlt : i < c.data.length) (m : ℤ)
    {w : ℕ} (hw' : R[i]? = some w) (hp : isPulse w = false) :
    ∃ c', getNextSpace c m = ((w : ℤ), c') ∧ c'.Sees R (i + 1) q ∧ c'.data = c.data := by
  obtain ⟨c', hread, h', hdata⟩ := h.reread hlt m hw'
  exact ⟨c', by simp [getNextSpace, hread, h.ne_zero hw', isSpace, hp], h', hdata⟩

/-- The loop of the synchronisation stops behind a space. -/
theorem syncLoop_sees {n : ℕ} {d s : ℤ} {b b' : RBuf} (h : b.Sees R i none)
    (hspace : ∃ w, R[i - 1]? = some w ∧ isPulse w = false)
    (heq : syncLoop hw l n d b = (s, b')) (hs : s ≠ 0) :
    ∃ j, i ≤ j ∧ b'.Sees R j none ∧ ∃ w, R[j - 1]? = some w ∧ isPulse w = false := by
  induction n generalizing i d b with
  | zero =>
      rw [syncLoop] at heq
      split at heq
      · simp only [Prod.mk.injEq] at heq
        obtain ⟨rfl, rfl⟩ := heq
        exact ⟨i, Nat.le_refl i, h, hspace⟩
      · rcases hpulse : getNextPulse b 1000000 with ⟨v, b₁⟩
        rcases hsp : getNextSpace b₁ 1000000 with ⟨v', b₂⟩
        simp only [hpulse, hsp] at heq
        split at heq
        · simp only [Prod.mk.injEq] at heq; exact absurd heq.1.symm hs
        · split at heq
          · simp only [Prod.mk.injEq] at heq; exact absurd heq.1.symm hs
          · simp only [Prod.mk.injEq] at heq; exact absurd heq.1.symm hs
  | succ n ih =>
      rw [syncLoop] at heq
      split at heq
      · simp only [Prod.mk.injEq] at heq
        obtain ⟨rfl, rfl⟩ := heq
        exact ⟨i, Nat.le_refl i, h, hspace⟩
      · rcases hpulse : getNextPulse b 1000000 with ⟨v, b₁⟩
        rcases hsp : getNextSpace b₁ 1000000 with ⟨v', b₂⟩
        simp only [hpulse, hsp] at heq
        rcases h.nextPulse hpulse with ⟨rfl, -⟩ | ⟨hv, h₁, -⟩
        · simp only [if_true, Prod.mk.injEq] at heq
          exact absurd heq.1.symm hs
        · simp only [hv, if_false] at heq
          rcases h₁.nextSpace hsp with ⟨rfl, -⟩ | ⟨hv', h₂, w, hw', hp, -⟩
          · simp only [if_true, Prod.mk.injEq] at heq
            exact absurd heq.1.symm hs
          · simp only [hv', if_false] at heq
            obtain ⟨j, hle, h', hw''⟩ := ih h₂ ⟨w, by simpa using hw', hp⟩ heq
            exact ⟨j, by omega, h', hw''⟩

/-- With the words still held, the loop does the same again. -/
theorem syncLoop_again {n : ℕ} {d s : ℤ} {b b' c : RBuf} (h : b.Sees R i none)
    (hc : c.Sees R i none) (hspace : ∃ w, R[i - 1]? = some w ∧ isPulse w = false)
    (heq : syncLoop hw l n d b = (s, b')) (hs : s ≠ 0) (hle : b'.rptr ≤ c.data.length) :
    ∃ c', syncLoop hw l n d c = (s, c') ∧ c'.Sees R b'.rptr none := by
  induction n generalizing i d b c with
  | zero =>
      rw [syncLoop] at heq ⊢
      split at heq
      · next hleast =>
        simp only [Prod.mk.injEq] at heq
        obtain ⟨rfl, rfl⟩ := heq
        exact ⟨c, by rw [if_pos hleast], by rw [h.rptr]; exact hc⟩
      · rcases hpulse : getNextPulse b 1000000 with ⟨v, b₁⟩
        rcases hsp : getNextSpace b₁ 1000000 with ⟨v', b₂⟩
        simp only [hpulse, hsp] at heq
        split at heq
        · simp only [Prod.mk.injEq] at heq; exact absurd heq.1.symm hs
        · split at heq
          · simp only [Prod.mk.injEq] at heq; exact absurd heq.1.symm hs
          · simp only [Prod.mk.injEq] at heq; exact absurd heq.1.symm hs
  | succ n ih =>
      rw [syncLoop] at heq ⊢
      split at heq
      · next hleast =>
        simp only [Prod.mk.injEq] at heq
        obtain ⟨rfl, rfl⟩ := heq
        exact ⟨c, by rw [if_pos hleast], by rw [h.rptr]; exact hc⟩
      · next hleast =>
        rcases hpulse : getNextPulse b 1000000 with ⟨v, b₁⟩
        rcases hsp : getNextSpace b₁ 1000000 with ⟨v', b₂⟩
        simp only [hpulse, hsp] at heq
        rcases h.nextPulse hpulse with ⟨rfl, -⟩ | ⟨hv, h₁, w, hw₁, hp₁, rfl⟩
        · simp only [if_true, Prod.mk.injEq] at heq
          exact absurd heq.1.symm hs
        · simp only [hv, if_false] at heq
          rcases h₁.nextSpace hsp with ⟨rfl, -⟩ | ⟨hv', h₂, w', hw₂, hp₂, rfl⟩
          · simp only [if_true, Prod.mk.injEq] at heq
            exact absurd heq.1.symm hs
          · simp only [hv', if_false] at heq
            have hspace₂ : ∃ w, R[i + 1 + 1 - 1]? = some w ∧ isPulse w = false :=
              ⟨w', by simpa using hw₂, hp₂⟩
            obtain ⟨j, hij, h', -⟩ := syncLoop_sees h₂ hspace₂ heq hs
            have hj := h'.rptr
            obtain ⟨c₁, hread₁, hc₁, hdata₁⟩ := hc.renextPulse (by omega) 1000000 hw₁ hp₁
            obtain ⟨c₂, hread₂, hc₂, hdata₂⟩ :=
              hc₁.renextSpace (by rw [hdata₁]; omega) 1000000 hw₂ hp₂
            obtain ⟨c', hloop, hc'⟩ :=
              ih h₂ hc₂ hspace₂ heq (by rw [hdata₂, hdata₁]; exact hle)
            refine ⟨c', ?_, hc'⟩
            rw [if_neg hleast, hread₁]
            simp only [hv, if_false, hread₂, hv']
            exact hloop

theorem RBuf.Sees.correctSum {b : RBuf} (h : b.Sees R i q) (x : ℤ) :
    ({ b with sum := x } : RBuf).Sees R i q :=
  ⟨h.received, h.nonzero, h.rptr, h.rptr_le, h.pendingp, h.pendings, h.positive⟩

/-- A buffer that has been rewound is at the start of its tape. -/
theorem rewindRecBuffer_sees {b : RBuf} (hR : b.received = R) (hne : ∀ w ∈ R, w ≠ 0) :
    (rewindRecBuffer b).Sees R 0 none :=
  ⟨hR, hne, rfl, Nat.zero_le _, rfl, rfl, by simp⟩

/-- Synchronisation leaves the decoder behind a space. -/
theorem syncRecBuffer_sees (hc : Bitwise r) {last : LastRemote} {b b' : RBuf} {s : ℤ}
    {r' : IrRemote} (h : b.Sees R 0 none) (heq : syncRecBuffer hw r last b = (s, r', b'))
    (hs : s ≠ 0) :
    r' = r ∧ ∃ j, 0 < j ∧ b'.Sees R j none ∧ ∃ w, R[j - 1]? = some w ∧ isPulse w = false := by
  rw [syncRecBuffer] at heq
  rcases hsp : getNextSpace b 1000000 with ⟨v, b₁⟩
  simp only [hsp] at heq
  rcases h.nextSpace hsp with ⟨rfl, -⟩ | ⟨hv, h₁, w, hw', hp, -⟩
  · simp only [if_true, Prod.mk.injEq] at heq
    exact absurd heq.1.symm hs
  simp only [hv, if_false] at heq
  cases hl : last.get r with
  | none =>
      simp only [hl, Prod.mk.injEq] at heq
      obtain ⟨rfl, rfl, rfl⟩ := heq
      exact ⟨rfl, 1, by decide, h₁.correctSum 0, w, hw', hp⟩
  | some l =>
      rcases hloop : syncLoop hw l recSync v b₁ with ⟨s₁, b₂⟩
      simp only [hl, hc.notRcmm, Bool.false_eq_true, if_false, hloop, hc.noToggleMask,
        Bool.false_and] at heq
      by_cases hs₁ : s₁ = 0
      · simp only [hs₁, if_true, Prod.mk.injEq] at heq
        exact absurd heq.1.symm hs
      · simp only [hs₁, if_false, Prod.mk.injEq] at heq
        obtain ⟨rfl, rfl, rfl⟩ := heq
        obtain ⟨j, hle, h₂, hw''⟩ := syncLoop_sees h₁ ⟨w, hw', hp⟩ hloop hs
        exact ⟨rfl, j, by omega, h₂.correctSum 0, hw''⟩

/-- With the words still held, synchronisation finds the same space. -/
theorem syncRecBuffer_again (hc : Bitwise r) {last : LastRemote} {b b' c : RBuf} {s : ℤ}
    {r' : IrRemote} (h : b.Sees R 0 none) (hcs : c.Sees R 0 none)
    (heq : syncRecBuffer hw r last b = (s, r', b')) (hs : s ≠ 0)
    (hle : b'.rptr ≤ c.data.length) :
    ∃ c', syncRecBuffer hw r last c = (s, r, c') ∧ c'.Sees R b'.rptr none := by
  obtain ⟨-, j, hj, h', -⟩ := syncRecBuffer_sees hc h heq hs
  have hrptr := h'.rptr
  rw [syncRecBuffer] at heq ⊢
  rcases hsp : getNextSpace b 1000000 with ⟨v, b₁⟩
  simp only [hsp] at heq
  rcases h.nextSpace hsp with ⟨rfl, -⟩ | ⟨hv, h₁, w, hw', hp, rfl⟩
  · simp only [if_true, Prod.mk.injEq] at heq
    exact absurd heq.1.symm hs
  obtain ⟨c₁, hread, hc₁, hdata⟩ := hcs.renextSpace (by omega) 1000000 hw' hp
  simp only [hv, if_false] at heq
  simp only [hread, hv, if_false]
  cases hl : last.get r with
  | none =>
      simp only [hl, Prod.mk.injEq] at heq
      obtain ⟨rfl, rfl, rfl⟩ := heq
      have hb₁ : b₁.rptr = 0 + 1 := h₁.rptr
      exact ⟨_, rfl, by rw [hb₁]; exact hc₁.correctSum 0⟩
  | some l =>
      rcases hloop : syncLoop hw l recSync (w : ℤ) b₁ with ⟨s₁, b₂⟩
      simp only [hl, hc.notRcmm, Bool.false_eq_true, if_false, hloop, hc.noToggleMask,
        Bool.false_and] at heq ⊢
      by_cases hs₁ : s₁ = 0
      · simp only [hs₁, if_true, Prod.mk.injEq] at heq
        exact absurd heq.1.symm hs
      · simp only [hs₁, if_false, Prod.mk.injEq] at heq
        obtain ⟨rfl, rfl, rfl⟩ := heq
        obtain ⟨c₂, hagain, hc₂⟩ :=
          syncLoop_again h₁ hc₁ ⟨w, hw', hp⟩ hloop hs (by rw [hdata]; exact hle)
        simp only [hagain, hs₁, if_false]
        exact ⟨_, rfl, hc₂.correctSum 0⟩

/-- The attempt at a repeat code leaves a full signal where it was. -/
theorem decodeRepeat_inr (hc : Bitwise r) {last : LastRemote} {b₀ b b' : RBuf} {s : ℤ}
    {r' : IrRemote} (h₀ : b₀.Sees R 0 none) (hsync : syncRecBuffer hw r last b₀ = (s, r, b))
    (hs : s ≠ 0) (heq : decodeRepeat hw r last b = .inr (r', b')) :
    r' = r ∧ b'.Sees R b.rptr none := by
  obtain ⟨-, j, hj, h, -⟩ := syncRecBuffer_sees hc h₀ hsync hs
  rw [decodeRepeat] at heq
  obtain ⟨ok, b₁, hhead, h₁⟩ : ∃ ok b₁,
      (if r.has repeatHeader && hasHeader r then getHeader hw r b else (true, b)) = (ok, b₁) ∧
      b.Grows b₁ := by
    split
    · exact ⟨_, _, rfl, getHeader_grows hw r b⟩
    · exact ⟨_, _, rfl, .refl b⟩
  rw [hhead] at heq
  cases ok with
  | false => simp at heq
  | true =>
      rcases hrep : getRepeat hw r b₁ with ⟨ok, b₂⟩
      have h₂ := getRepeat_grows hw r b₁
      rw [hrep] at h₂
      have hgrows := h₁.trans h₂
      simp only [Bool.not_true, Bool.false_eq_true, if_false, hrep] at heq
      cases ok with
      | true =>
          simp only [if_true] at heq
          split at heq <;> simp at heq
      | false =>
          simp only [Bool.false_eq_true, if_false, Sum.inr.injEq] at heq
          have hc₀ : (rewindRecBuffer b₂).Sees R 0 none :=
            rewindRecBuffer_sees (hgrows.1.trans h.received) h.nonzero
          have hle : b.rptr ≤ (rewindRecBuffer b₂).data.length :=
            Nat.le_trans h.rptr_le hgrows.2
          obtain ⟨c', hagain, hc'⟩ := syncRecBuffer_again hc h₀ hc₀ hsync hs hle
          simp only [hagain, Prod.mk.injEq] at heq
          obtain ⟨rfl, rfl⟩ := heq
          exact ⟨rfl, hc'⟩

end

end Lirc
