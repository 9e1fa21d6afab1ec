import Lirc.Matching

/-!
Reading any stream. The words a buffer holds or will ever hold are a tape
that no read changes: a read moves over the next word or times out, and
giving words back moves the other way.
-/

namespace Lirc

open Signal

/-- The sample a word stands for, as the decoder measures it. -/
def sampleOf (w : ℕ) : Part := if isPulse w then pulse (sampleValue w) else space w

/-- A word that is delivered, neither zero nor a time-out report. -/
def deliverable (w : ℕ) : Bool := w != 0 && !isTimeout w

/-- The words held by the buffer and those still to be delivered to it. -/
def RBuf.received (b : RBuf) : List ℕ := b.data ++ b.input.filter deliverable

/-- No two words in a row are of one level. -/
def Alternating (R : List ℕ) : Prop := R.IsChain fun v w => isPulse v ≠ isPulse w

instance (R : List ℕ) : Decidable (Alternating R) := inferInstanceAs (Decidable (R.IsChain _))

theorem Alternating.next {R : List ℕ} (h : Alternating R) {i v w : ℕ} (hv : R[i]? = some v)
    (hw : R[i + 1]? = some w) : isPulse v ≠ isPulse w := by
  obtain ⟨hi, rfl⟩ := List.getElem?_eq_some_iff.mp hv
  obtain ⟨hi', rfl⟩ := List.getElem?_eq_some_iff.mp hw
  exact List.isChain_iff_getElem.mp h i hi'

/-- The position of a buffer on its tape, with what is pending. -/
structure RBuf.Sees (b : RBuf) (R : List ℕ) (i : ℕ) (q : Option Part) : Prop where
  received : b.received = R
  nonzero : ∀ w ∈ R, w ≠ 0
  rptr : b.rptr = i
  rptr_le : b.rptr ≤ b.data.length
  pendingp : b.pendingp = pendPulse q
  pendings : b.pendings = pendSpace q
  positive : ∀ p ∈ q, 0 < p.len

/-- A call of the driver drops time-outs and delivers the next word or nothing. -/
theorem readNew_cases (m : ℤ) (input : List ℕ) :
    (∃ rest, readNew m input = (0, rest) ∧
      rest.filter deliverable = input.filter deliverable) ∨
    (∃ w rest, readNew m input = (w, rest) ∧ w ≠ 0 ∧
      input.filter deliverable = w :: rest.filter deliverable) := by
  induction input generalizing m with
  | nil => exact .inl ⟨[], rfl, rfl⟩
  | cons w rest ih =>
      by_cases hw : w = 0
      · subst hw
        exact .inl ⟨rest, by simp [readNew], by simp [deliverable]⟩
      · by_cases ht : isTimeout w = true
        · have hskip : (w :: rest).filter deliverable = rest.filter deliverable := by
            simp [deliverable, ht]
          by_cases hlt : sampleValue w < m
          · have hread : readNew m (w :: rest) = readNew (m - sampleValue w) rest := by
              simp [readNew, hw, ht, hlt]
            rw [hread, hskip]
            exact ih _
          · exact .inl ⟨rest, by simp [readNew, hw, ht, hlt], hskip.symm⟩
        · exact .inr ⟨w, rest, by simp [readNew, hw, ht], hw, by simp [deliverable, hw, ht]⟩

namespace RBuf.Sees

variable {b : RBuf} {R : List ℕ} {i : ℕ} {q : Option Part}

/-- A read times out, or it delivers the word at its position. -/
theorem read (h : b.Sees R i q) (m : ℤ) :
    (∃ b', getNextRecBuffer b m = (0, b') ∧ b'.Sees R i q) ∨
    (∃ w b', getNextRecBuffer b m = (w, b') ∧ R[i]? = some w ∧ b'.Sees R (i + 1) q) := by
  have hrec := h.received
  have hrptr := h.rptr
  have hle := h.rptr_le
  simp only [RBuf.received] at hrec
  by_cases hlt : b.rptr < b.data.length
  · right
    refine ⟨b.data[b.rptr],
      { b with sum := b.sum + sampleValue b.data[b.rptr], rptr := b.rptr + 1 }, ?_, ?_, ?_⟩
    · simp only [getNextRecBuffer, getNextRecBufferInternal, List.getElem?_eq_getElem hlt]
    · rw [← hrec, ← hrptr, List.getElem?_append_left hlt, List.getElem?_eq_getElem hlt]
    · exact ⟨hrec, h.nonzero, by simp [hrptr], hlt, h.pendingp, h.pendings, h.positive⟩
  · have hlen : b.data.length = b.rptr := by omega
    have hnone : b.data[b.rptr]? = none := List.getElem?_eq_none (by omega)
    simp only [getNextRecBuffer, getNextRecBufferInternal, hnone]
    split
    · rcases readNew_cases (receiveTimeout m) b.input with ⟨rest, hread, hfilter⟩ |
        ⟨w, rest, hread, hw, hfilter⟩
      · left
        refine ⟨{ b with input := rest }, by rw [hread], ?_, h.nonzero, hrptr, hle, h.pendingp,
          h.pendings, h.positive⟩
        simp only [RBuf.received, hfilter]
        exact hrec
      · right
        refine ⟨w, { b with data := b.data ++ [w], input := rest,
                            sum := b.sum + sampleValue w, rptr := b.rptr + 1 }, ?_, ?_, ?_,
          h.nonzero, by simp [hrptr], by simp [hlen], h.pendingp, h.pendings, h.positive⟩
        · rw [hread]
          cases w with
          | zero => exact absurd rfl hw
          | succ w => rfl
        · rw [← hrec, hfilter, ← hrptr, ← hlen]
          simp
        · simp only [RBuf.received, List.append_assoc, List.singleton_append]
          rw [← hfilter]
          exact hrec
    · left
      exact ⟨{ b with tooLong := true }, rfl, hrec, h.nonzero, hrptr, hle, h.pendingp,
        h.pendings, h.positive⟩

/-- A word on the tape is not zero. -/
theorem ne_zero (h : b.Sees R i q) {j w : ℕ} (hw : R[j]? = some w) : w ≠ 0 :=
  h.nonzero w (List.mem_of_getElem? hw)

/-- Asking for a pulse: nothing is read, something else is, or the pulse. -/
theorem nextPulse (h : b.Sees R i q) {m v : ℤ} {b' : RBuf} (heq : getNextPulse b m = (v, b')) :
    (v = 0 ∧ (b'.Sees R i q ∨ b'.Sees R (i + 1) q)) ∨
    (v ≠ 0 ∧ b'.Sees R (i + 1) q ∧ ∃ w, R[i]? = some w ∧ isPulse w = true ∧
      v = sampleValue w) := by
  rcases h.read m with ⟨b₁, hread, h₁⟩ | ⟨w, b₁, hread, hw, h₁⟩
  · simp only [getNextPulse, hread, if_true, Prod.mk.injEq] at heq
    obtain ⟨rfl, rfl⟩ := heq
    exact .inl ⟨rfl, .inl h₁⟩
  · have hne := h.ne_zero hw
    simp only [getNextPulse, hread, hne, if_false] at heq
    cases hp : isPulse w with
    | false =>
        simp only [hp, Bool.not_false, if_true, Prod.mk.injEq] at heq
        obtain ⟨rfl, rfl⟩ := heq
        exact .inl ⟨rfl, .inr h₁⟩
    | true =>
        simp only [hp, Bool.not_true, Bool.false_eq_true, if_false, Prod.mk.injEq] at heq
        obtain ⟨rfl, rfl⟩ := heq
        by_cases hv : sampleValue w = 0
        · exact .inl ⟨hv, .inr h₁⟩
        · exact .inr ⟨hv, h₁, w, hw, hp, rfl⟩

/-- Asking for a space: nothing is read, something else is, or the space. -/
theorem nextSpace (h : b.Sees R i q) {m v : ℤ} {b' : RBuf} (heq : getNextSpace b m = (v, b')) :
    (v = 0 ∧ (b'.Sees R i q ∨ b'.Sees R (i + 1) q ∧ ∃ w, R[i]? = some w ∧ isPulse w = true)) ∨
    (v ≠ 0 ∧ b'.Sees R (i + 1) q ∧ ∃ w, R[i]? = some w ∧ isPulse w = false ∧ v = w) := by
  rcases h.read m with ⟨b₁, hread, h₁⟩ | ⟨w, b₁, hread, hw, h₁⟩
  · simp only [getNextSpace, hread, if_true, Prod.mk.injEq] at heq
    obtain ⟨rfl, rfl⟩ := heq
    exact .inl ⟨rfl, .inl h₁⟩
  · have hne := h.ne_zero hw
    simp only [getNextSpace, hread, hne, if_false, isSpace] at heq
    cases hp : isPulse w with
    | true =>
        simp only [hp, Bool.not_true, Bool.not_false, if_true, Prod.mk.injEq] at heq
        obtain ⟨rfl, rfl⟩ := heq
        exact .inl ⟨rfl, .inr ⟨h₁, w, hw, hp⟩⟩
    | false =>
        simp only [hp, Bool.not_false, Bool.not_true, Bool.false_eq_true, if_false,
          Prod.mk.injEq] at heq
        obtain ⟨rfl, rfl⟩ := heq
        exact .inr ⟨by exact_mod_cast hne, h₁, w, hw, hp, rfl⟩

/-- Giving words back moves the position only. -/
theorem unget (h : b.Sees R i q) {n : ℕ} (hn : n = 1 ∨ n = 2) :
    (ungetRecBuffer b n).Sees R (i - n) q := by
  have hrptr := h.rptr
  have hle := h.rptr_le
  rcases hn with rfl | rfl
  · exact ⟨h.received, h.nonzero, by simp [ungetRecBuffer, hrptr],
      by simp [ungetRecBuffer]; omega, h.pendingp, h.pendings, h.positive⟩
  · exact ⟨h.received, h.nonzero, by simp [ungetRecBuffer, hrptr],
      by simp [ungetRecBuffer]; omega, h.pendingp, h.pendings, h.positive⟩

/-- Announcing another pending part. -/
theorem announce (h : b.Sees R i q) {q' : Option Part} {pp ss : ℤ} (hpp : pp = pendPulse q')
    (hss : ss = pendSpace q') (hpos : ∀ p ∈ q', 0 < p.len) :
    ({ b with pendingp := pp, pendings := ss } : RBuf).Sees R i q' :=
  ⟨h.received, h.nonzero, h.rptr, h.rptr_le, hpp, hss, hpos⟩

/-! ### Single pulses and spaces -/

section Expect

variable {hw : Hardware} {r : IrRemote} {b' : RBuf} {ok : Bool} {ex : ℤ}

/-- Reading a pending space. -/
theorem syncSpace {s : ℤ} (h : b.Sees R i (some (space s)))
    (heq : syncPendingSpace hw r b = (ok, b')) :
    (ok = true ∧ b'.Sees R (i + 1) none ∧
      ∃ w, R[i]? = some w ∧ isPulse w = false ∧ expect hw r (w : ℤ) s = true) ∨
    (ok = false ∧ (b'.Sees R i (some (space s)) ∨ b'.Sees R (i + 1) (some (space s)))) := by
  have hpend : b.pendings = s := h.pendings
  have hs : 0 < s := h.positive _ rfl
  simp only [syncPendingSpace, hpend, hs, if_true] at heq
  cases hnext : getNextSpace b s with
  | mk v b₁ =>
      simp only [hnext] at heq
      rcases h.nextSpace hnext with ⟨rfl, h₁⟩ | ⟨hv, h₁, w, hw', hp, rfl⟩
      · simp only [if_true, Prod.mk.injEq] at heq
        obtain ⟨rfl, rfl⟩ := heq
        exact .inr ⟨rfl, h₁.imp_right And.left⟩
      · simp only [hv, if_false] at heq
        cases he : expect hw r (w : ℤ) s with
        | false =>
            simp only [he, Bool.not_false, if_true, Prod.mk.injEq] at heq
            obtain ⟨rfl, rfl⟩ := heq
            exact .inr ⟨rfl, .inr h₁⟩
        | true =>
            simp only [he, Bool.not_true, Bool.false_eq_true, if_false, Prod.mk.injEq] at heq
            obtain ⟨rfl, rfl⟩ := heq
            exact .inl ⟨rfl, h₁.announce h₁.pendingp rfl (by simp), w, hw', hp, he⟩

/-- Reading a pending pulse. -/
theorem syncPulse {p : ℤ} (h : b.Sees R i (some (pulse p)))
    (heq : syncPendingPulse hw r b = (ok, b')) :
    (ok = true ∧ b'.Sees R (i + 1) none ∧
      ∃ w, R[i]? = some w ∧ isPulse w = true ∧ expect hw r (sampleValue w) p = true) ∨
    (ok = false ∧ (b'.Sees R i (some (pulse p)) ∨ b'.Sees R (i + 1) (some (pulse p)))) := by
  have hpend : b.pendingp = p := h.pendingp
  have hs : 0 < p := h.positive _ rfl
  simp only [syncPendingPulse, hpend, hs, if_true] at heq
  cases hnext : getNextPulse b p with
  | mk v b₁ =>
      simp only [hnext] at heq
      rcases h.nextPulse hnext with ⟨rfl, h₁⟩ | ⟨hv, h₁, w, hw', hp, rfl⟩
      · simp only [if_true, Prod.mk.injEq] at heq
        obtain ⟨rfl, rfl⟩ := heq
        exact .inr ⟨rfl, h₁⟩
      · simp only [hv, if_false] at heq
        cases he : expect hw r (sampleValue w) p with
        | false =>
            simp only [he, Bool.not_false, if_true, Prod.mk.injEq] at heq
            obtain ⟨rfl, rfl⟩ := heq
            exact .inr ⟨rfl, .inr h₁⟩
        | true =>
            simp only [he, Bool.not_true, Bool.false_eq_true, if_false, Prod.mk.injEq] at heq
            obtain ⟨rfl, rfl⟩ := heq
            exact .inl ⟨rfl, h₁.announce rfl h₁.pendings (by simp), w, hw', hp, he⟩

/-- Expecting a pulse while no space is pending. -/
theorem expectPulse_cases (h : b.Sees R i q) (hq : pendSpace q = 0)
    (heq : expectPulse hw r b ex = (ok, b')) :
    (ok = true ∧ b'.Sees R (i + 1) none ∧
      ∃ w, R[i]? = some w ∧ isPulse w = true ∧
        (if 0 < pendPulse q then pendPulse q ≤ sampleValue w ∧
          expect hw r (sampleValue w - pendPulse q) ex = true
        else expect hw r (sampleValue w) ex = true)) ∨
    (ok = false ∧ (b'.Sees R i q ∨ b'.Sees R (i + 1) q)) := by
  have hpend : b.pendings = 0 := h.pendings.trans hq
  have hsync : syncPendingSpace hw r b = (true, b) := by simp [syncPendingSpace, hpend]
  simp only [expectPulse, hsync, Bool.not_true, Bool.false_eq_true, if_false] at heq
  cases hnext : getNextPulse b (b.pendingp + ex) with
  | mk v b₁ =>
      simp only [hnext] at heq
      rcases h.nextPulse hnext with ⟨rfl, h₁⟩ | ⟨hv, h₁, w, hw', hp, rfl⟩
      · simp only [if_true, Prod.mk.injEq] at heq
        obtain ⟨rfl, rfl⟩ := heq
        exact .inr ⟨rfl, h₁⟩
      · have hpp : b₁.pendingp = pendPulse q := h₁.pendingp
        have hps : b₁.pendings = 0 := h₁.pendings.trans hq
        simp only [hv, if_false, hpp] at heq
        split at heq
        · next hpos =>
          split at heq
          · simp only [Prod.mk.injEq] at heq
            obtain ⟨rfl, rfl⟩ := heq
            exact .inr ⟨rfl, .inr h₁⟩
          · next hlt =>
            cases he : expect hw r (sampleValue w - pendPulse q) ex with
            | false =>
                simp only [he, Bool.not_false, if_true, Prod.mk.injEq] at heq
                obtain ⟨rfl, rfl⟩ := heq
                exact .inr ⟨rfl, .inr h₁⟩
            | true =>
                simp only [he, Bool.not_true, Bool.false_eq_true, if_false,
                  Prod.mk.injEq] at heq
                obtain ⟨rfl, rfl⟩ := heq
                refine .inl ⟨rfl, h₁.announce rfl hps (by simp), w, hw', hp, ?_⟩
                rw [if_pos hpos]
                exact ⟨by omega, he⟩
        · next hpos =>
          simp only [Prod.mk.injEq] at heq
          obtain ⟨hok, rfl⟩ := heq
          cases ok with
          | false => exact .inr ⟨rfl, .inr h₁⟩
          | true =>
              have hq' : q = none := by
                rcases q with _ | ⟨_ | _, x⟩
                · rfl
                · -- a space
                  have : (0 : ℤ) < x := h.positive _ rfl
                  simp at hq
                  omega
                · exact absurd (h.positive _ rfl) hpos
              refine .inl ⟨rfl, by rwa [hq'] at h₁, w, hw', hp, ?_⟩
              rw [if_neg hpos]
              exact hok

/-- Expecting a space while no pulse is pending. -/
theorem expectSpace_cases (h : b.Sees R i q) (hq : pendPulse q = 0)
    (heq : expectSpace hw r b ex = (ok, b')) :
    (ok = true ∧ b'.Sees R (i + 1) none ∧
      ∃ w : ℕ, R[i]? = some w ∧ isPulse w = false ∧
        (if 0 < pendSpace q then pendSpace q ≤ w ∧
          expect hw r (w - pendSpace q) ex = true
        else expect hw r w ex = true)) ∨
    (ok = false ∧ (b'.Sees R i q ∨ b'.Sees R (i + 1) q)) := by
  have hpend : b.pendingp = 0 := h.pendingp.trans hq
  have hsync : syncPendingPulse hw r b = (true, b) := by simp [syncPendingPulse, hpend]
  simp only [expectSpace, hsync, Bool.not_true, Bool.false_eq_true, if_false] at heq
  cases hnext : getNextSpace b (b.pendings + ex) with
  | mk v b₁ =>
      simp only [hnext] at heq
      rcases h.nextSpace hnext with ⟨rfl, h₁⟩ | ⟨hv, h₁, w, hw', hp, rfl⟩
      · simp only [if_true, Prod.mk.injEq] at heq
        obtain ⟨rfl, rfl⟩ := heq
        exact .inr ⟨rfl, h₁.imp_right And.left⟩
      · have hps : b₁.pendings = pendSpace q := h₁.pendings
        have hpp : b₁.pendingp = 0 := h₁.pendingp.trans hq
        simp only [hv, if_false, hps] at heq
        split at heq
        · next hpos =>
          split at heq
          · simp only [Prod.mk.injEq] at heq
            obtain ⟨rfl, rfl⟩ := heq
            exact .inr ⟨rfl, .inr h₁⟩
          · next hlt =>
            cases he : expect hw r (w - pendSpace q) ex with
            | false =>
                simp only [he, Bool.not_false, if_true, Prod.mk.injEq] at heq
                obtain ⟨rfl, rfl⟩ := heq
                exact .inr ⟨rfl, .inr h₁⟩
            | true =>
                simp only [he, Bool.not_true, Bool.false_eq_true, if_false,
                  Prod.mk.injEq] at heq
                obtain ⟨rfl, rfl⟩ := heq
                refine .inl ⟨rfl, h₁.announce hpp rfl (by simp), w, hw', hp, ?_⟩
                rw [if_pos hpos]
                exact ⟨by omega, he⟩
        · next hpos =>
          simp only [Prod.mk.injEq] at heq
          obtain ⟨hok, rfl⟩ := heq
          cases ok with
          | false => exact .inr ⟨rfl, .inr h₁⟩
          | true =>
              have hq' : q = none := by
                rcases q with _ | ⟨_ | _, x⟩
                · rfl
                · exact absurd (h.positive _ rfl) hpos
                · -- a pulse
                  have : (0 : ℤ) < x := h.positive _ rfl
                  simp at hq
                  omega
              refine .inl ⟨rfl, by rwa [hq'] at h₁, w, hw', hp, ?_⟩
              rw [if_neg hpos]
              exact hok

/-- With a space pending, a pulse is expected after it has been read. -/
theorem expectPulse_sync {s : ℤ} (h : b.Sees R i (some (space s))) :
    expectPulse hw r b ex =
      match syncPendingSpace hw r b with
      | (true, b₁) => expectPulse hw r b₁ ex
      | (false, b₁) => (false, b₁) := by
  cases hsync : syncPendingSpace hw r b with
  | mk ok b₁ =>
      rcases h.syncSpace hsync with ⟨rfl, h₁, -⟩ | ⟨rfl, -⟩
      · have hsync₁ : syncPendingSpace hw r b₁ = (true, b₁) := by
          simp [syncPendingSpace, h₁.pendings]
        simp only [expectPulse, hsync, hsync₁]
      · simp [expectPulse, hsync]

/-- With a pulse pending, a space is expected after it has been read. -/
theorem expectSpace_sync {p : ℤ} (h : b.Sees R i (some (pulse p))) :
    expectSpace hw r b ex =
      match syncPendingPulse hw r b with
      | (true, b₁) => expectSpace hw r b₁ ex
      | (false, b₁) => (false, b₁) := by
  cases hsync : syncPendingPulse hw r b with
  | mk ok b₁ =>
      rcases h.syncPulse hsync with ⟨rfl, h₁, -⟩ | ⟨rfl, -⟩
      · have hsync₁ : syncPendingPulse hw r b₁ = (true, b₁) := by
          simp [syncPendingPulse, h₁.pendingp]
        simp only [expectSpace, hsync, hsync₁]
      · simp [expectSpace, hsync]

/-- The level of the word a pulse starts with, given what is pending. -/
theorem expectPulse_first (h : b.Sees R i q) (heq : expectPulse hw r b ex = (true, b')) :
    ∃ w, R[i]? = some w ∧ isPulse w = q.elim true Part.high := by
  match q with
  | none =>
      rcases h.expectPulse_cases rfl heq with ⟨-, -, w, hw', hp, -⟩ | ⟨hfalse, -⟩
      · exact ⟨w, hw', hp⟩
      · simp at hfalse
  | some ⟨true, x⟩ =>
      rcases h.expectPulse_cases rfl heq with ⟨-, -, w, hw', hp, -⟩ | ⟨hfalse, -⟩
      · exact ⟨w, hw', hp⟩
      · simp at hfalse
  | some ⟨false, x⟩ =>
      rw [h.expectPulse_sync] at heq
      cases hsync : syncPendingSpace hw r b with
      | mk ok b₁ =>
          rcases h.syncSpace hsync with ⟨-, -, w, hw', hp, -⟩ | ⟨rfl, -⟩
          · exact ⟨w, hw', hp⟩
          · simp [hsync] at heq

/-- The level of the word a space starts with, given what is pending. -/
theorem expectSpace_first (h : b.Sees R i q) (heq : expectSpace hw r b ex = (true, b')) :
    ∃ w, R[i]? = some w ∧ isPulse w = q.elim false Part.high := by
  match q with
  | none =>
      rcases h.expectSpace_cases rfl heq with ⟨-, -, w, hw', hp, -⟩ | ⟨hfalse, -⟩
      · exact ⟨w, hw', hp⟩
      · simp at hfalse
  | some ⟨false, x⟩ =>
      rcases h.expectSpace_cases rfl heq with ⟨-, -, w, hw', hp, -⟩ | ⟨hfalse, -⟩
      · exact ⟨w, hw', hp⟩
      · simp at hfalse
  | some ⟨true, x⟩ =>
      rw [h.expectSpace_sync] at heq
      cases hsync : syncPendingPulse hw r b with
      | mk ok b₁ =>
          rcases h.syncPulse hsync with ⟨-, -, w, hw', hp, -⟩ | ⟨rfl, -⟩
          · exact ⟨w, hw', hp⟩
          · simp [hsync] at heq

end Expect

end RBuf.Sees

end Lirc
