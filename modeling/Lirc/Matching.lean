import Lirc.Reading

/-!
The decoder in front of a signal it expects. What is pending is a part
already announced but not yet read, so the samples ahead are the run-length
form of the pending part followed by the rest of the signal.
-/

namespace Lirc

open Signal

/-- The value of `pendingp` for a pending part. -/
def pendPulse : Option Part → ℤ
  | some ⟨true, x⟩ => x
  | _ => 0

/-- The value of `pendings` for a pending part. -/
def pendSpace : Option Part → ℤ
  | some ⟨false, x⟩ => x
  | _ => 0

@[simp] theorem pendPulse_none : pendPulse none = 0 := rfl
@[simp] theorem pendSpace_none : pendSpace none = 0 := rfl
@[simp] theorem pendPulse_pulse (x : ℤ) : pendPulse (some (pulse x)) = x := rfl
@[simp] theorem pendSpace_pulse (x : ℤ) : pendSpace (some (pulse x)) = 0 := rfl
@[simp] theorem pendPulse_space (x : ℤ) : pendPulse (some (space x)) = 0 := rfl
@[simp] theorem pendSpace_space (x : ℤ) : pendSpace (some (space x)) = x := rfl

/-- The decoder has `q` pending and `ps` still to come, `tail` follows the
signal, and the samples add up to `total` at its end. -/
structure RBuf.At (b : RBuf) (q : Option Part) (ps : List Part) (total : ℤ)
    (tail : List ℕ) : Prop where
  view : ∃ past, b.View past ((wave (q.toList ++ ps)).map word ++ tail)
  pendingp : b.pendingp = pendPulse q
  pendings : b.pendings = pendSpace q
  positive : Positive (q.toList ++ ps)
  representable : ∀ p ∈ wave (q.toList ++ ps), Representable p
  sum : b.sum + ((wave (q.toList ++ ps)).map Part.len).sum = total

namespace RBuf.At

variable {r : IrRemote} {b : RBuf} {q : Option Part} {ps rest : List Part} {total : ℤ} {tail : List ℕ}

section Step

variable {q' : Option Part} {ps' vs : List Part} {p : Part}

theorem next (h : b.At q ps total tail) (hwave : wave (q.toList ++ ps) = p :: vs) :
    ∃ past, b.View past (word p :: (vs.map word ++ tail)) := by
  obtain ⟨past, hview⟩ := h.view
  exact ⟨past, by simpa [hwave] using hview⟩

theorem next_representable (h : b.At q ps total tail)
    (hwave : wave (q.toList ++ ps) = p :: vs) : Representable p :=
  h.representable p (by rw [hwave]; exact List.mem_cons_self)

/-- Asking for a pulse delivers the next sample if it is one. -/
theorem nextPulse (h : b.At q ps total tail) (hwave : wave (q.toList ++ ps) = p :: vs)
    (maxusec : ℤ) :
    getNextPulse b maxusec = (if p.high then p.len else 0, b.advance (word p)) := by
  obtain ⟨past, hview⟩ := h.next hwave
  have hp := h.next_representable hwave
  rw [hview.getNextPulse, isPulse_word hp, sampleValue_word hp]

/-- Asking for a space delivers the next sample if it is one. -/
theorem nextSpace (h : b.At q ps total tail) (hwave : wave (q.toList ++ ps) = p :: vs)
    (maxusec : ℤ) :
    getNextSpace b maxusec = (if p.high then 0 else p.len, b.advance (word p)) := by
  obtain ⟨past, hview⟩ := h.next hwave
  have hp := h.next_representable hwave
  rw [hview.getNextSpace, isPulse_word hp]
  obtain ⟨level, x⟩ := p
  cases level
  · simpa using word_space hp.1
  · rfl

/-- Reading a sample leaves the rest of the signal. -/
theorem step (h : b.At q ps total tail)
    (hwave : wave (q.toList ++ ps) = p :: wave (q'.toList ++ ps'))
    (hpos : Positive (q'.toList ++ ps')) {pp ss : ℤ} (hpp : pp = pendPulse q')
    (hss : ss = pendSpace q') :
    ({ b.advance (word p) with pendingp := pp, pendings := ss } : RBuf).At q' ps' total tail := by
  obtain ⟨past, hview⟩ := h.next hwave
  have hsum := h.sum
  rw [hwave, List.map_cons, List.sum_cons] at hsum
  refine ⟨⟨_, hview.advance.pend _ _⟩, hpp, hss, hpos, ?_, ?_⟩
  · intro v hv
    exact h.representable v (by rw [hwave]; exact List.mem_cons_of_mem _ hv)
  · simp only [RBuf.advance_sum, sampleValue_word (h.next_representable hwave)]
    omega

/-- Reading a sample while nothing that is pending changes. -/
theorem step_keep (h : b.At q ps total tail)
    (hwave : wave (q.toList ++ ps) = p :: wave (q'.toList ++ ps'))
    (hpos : Positive (q'.toList ++ ps')) (hpp : b.pendingp = pendPulse q')
    (hss : b.pendings = pendSpace q') : (b.advance (word p)).At q' ps' total tail := by
  have hstep := h.step hwave hpos ((b.advance_pendingp (word p)).trans hpp)
    ((b.advance_pendings (word p)).trans hss)
  exact hstep

end Step

theorem tolerant_self {hw : Hardware} (ht : Tolerant r) {x : ℤ} (hx : 0 < x) : expect hw r x x = true :=
  ht.expect_self (by omega)

/-! ### Giving samples back -/

/-- A sample read in vain is given back. -/
theorem unget_one {p : Part} {vs : List Part} (h : b.At q ps total tail)
    (hwave : wave (q.toList ++ ps) = p :: vs) :
    (ungetRecBuffer (b.advance (word p)) 1).At q ps total tail := by
  obtain ⟨past, hview⟩ := h.next hwave
  obtain ⟨hview', hsum, hpp, hps⟩ := hview.advance.unget_one
  refine ⟨⟨past, ?_⟩, hpp.trans (by simpa using h.pendingp), hps.trans (by simpa using h.pendings),
    h.positive, h.representable, ?_⟩
  · simpa [hwave] using hview'
  · rw [hsum, RBuf.advance_sum]
    have := h.sum
    omega

/-- Two samples read in vain are given back. -/
theorem unget_two {p p' : Part} {vs : List Part} (h : b.At q ps total tail)
    (hwave : wave (q.toList ++ ps) = p :: p' :: vs) :
    (ungetRecBuffer ((b.advance (word p)).advance (word p')) 2).At q ps total tail := by
  obtain ⟨past, hview⟩ := h.next hwave
  have hadv := hview.advance.advance
  rw [List.append_assoc] at hadv
  obtain ⟨hview', hsum, hpp, hps⟩ := hadv.unget_two
  refine ⟨⟨past, ?_⟩, hpp.trans (by simpa using h.pendingp), hps.trans (by simpa using h.pendings),
    h.positive, h.representable, ?_⟩
  · simpa [hwave] using hview'
  · rw [hsum, RBuf.advance_sum, RBuf.advance_sum]
    have := h.sum
    omega

/-! ### Announcing a part -/

/-- A part that comes next can be made pending. -/
theorem announce {p : Part} (h : b.At none (p :: ps) total tail) {pp ss : ℤ}
    (hpp : pp = pendPulse (some p)) (hss : ss = pendSpace (some p)) :
    ({ b with pendingp := pp, pendings := ss } : RBuf).At (some p) ps total tail := by
  obtain ⟨past, hview⟩ := h.view
  exact ⟨⟨past, hview.pend _ _⟩, hpp, hss, h.positive, h.representable, h.sum⟩

/-! ### Reading what is pending -/

/-- A pending space is read when a pulse follows. -/
theorem syncSpace (hw : Hardware) (ht : Tolerant r) {x a : ℤ}
    (h : b.At (some (space x)) (pulse a :: rest) total tail) :
    ∃ b', syncPendingSpace hw r b = (true, b') ∧ b'.At none (pulse a :: rest) total tail := by
  have hx : 0 < x := h.positive.head
  have hwave : wave ((some (space x)).toList ++ pulse a :: rest) =
      space x :: wave ((none : Option Part).toList ++ pulse a :: rest) :=
    waveFrom_space rfl
  have hpend := h.pendings
  rw [pendSpace_space] at hpend
  refine ⟨{ b.advance (word (space x)) with pendings := 0 }, ?_, ?_⟩
  · simp only [syncPendingSpace, hpend, hx, if_true, h.nextSpace hwave, Bool.false_eq_true,
      if_false]
    simp [tolerant_self ht hx, hx.ne']
  · exact h.step hwave h.positive.tail (by simpa using h.pendingp) rfl

/-- A pending pulse is read when no pulse follows. -/
theorem syncPulse (hw : Hardware) (ht : Tolerant r) {x : ℤ}
    (h : b.At (some (pulse x)) ps total tail) (hoff : StartsOff true ps) :
    ∃ b', syncPendingPulse hw r b = (true, b') ∧ b'.At none ps total tail := by
  have hx : 0 < x := h.positive.head
  have hwave : wave ((some (pulse x)).toList ++ ps) =
      pulse x :: wave ((none : Option Part).toList ++ ps) := waveFrom_pulse hoff
  have hpend := h.pendingp
  rw [pendPulse_pulse] at hpend
  refine ⟨{ b.advance (word (pulse x)) with pendingp := 0 }, ?_, ?_⟩
  · simp only [syncPendingPulse, hpend, hx, if_true, h.nextPulse hwave]
    simp [tolerant_self ht hx, hx.ne']
  · exact h.step hwave h.positive.tail rfl (by simpa using h.pendings)

/-! ### Expecting the part that comes -/

theorem expectPulse_none (hw : Hardware) (ht : Tolerant r) {a : ℤ}
    (h : b.At none (pulse a :: rest) total tail) (hoff : StartsOff true rest) :
    ∃ b', expectPulse hw r b a = (true, b') ∧ b'.At none rest total tail := by
  have ha : 0 < a := h.positive.head
  have hwave : wave ((none : Option Part).toList ++ pulse a :: rest) =
      pulse a :: wave ((none : Option Part).toList ++ rest) := waveFrom_pulse hoff
  have hpp := h.pendingp
  have hps := h.pendings
  rw [pendPulse_none] at hpp
  rw [pendSpace_none] at hps
  refine ⟨b.advance (word (pulse a)), ?_, ?_⟩
  · simp [expectPulse, syncPendingSpace, hps, h.nextPulse hwave, hpp, ha.ne',
      tolerant_self ht ha]
  · exact h.step_keep hwave h.positive.tail hpp hps

/-- The decoder expects the pulse that comes. -/
theorem expectPulse_ok (hw : Hardware) (ht : Tolerant r) {a : ℤ}
    (h : b.At q (pulse a :: rest) total tail) (hoff : StartsOff true rest) :
    ∃ b', expectPulse hw r b a = (true, b') ∧ b'.At none rest total tail := by
  match q with
  | none => exact expectPulse_none hw ht h hoff
  | some ⟨false, x⟩ =>
      obtain ⟨b₁, hsync, h₁⟩ := h.syncSpace hw ht
      obtain ⟨b₂, hpulse, h₂⟩ := expectPulse_none hw ht h₁ hoff
      have hp₁ : syncPendingSpace hw r b₁ = (true, b₁) := by
        simp [syncPendingSpace, h₁.pendings]
      refine ⟨b₂, ?_, h₂⟩
      rw [← hpulse]
      simp only [expectPulse, hsync, hp₁]
  | some ⟨true, x⟩ =>
      -- the pending pulse and the expected one are one sample
      have hx : 0 < x := h.positive.head
      have ha : 0 < a := h.positive.tail.head
      have hwave : wave ((some (pulse x)).toList ++ pulse a :: rest) =
          pulse (x + a) :: wave ((none : Option Part).toList ++ rest) := by
        simp only [Option.toList_some, List.singleton_append, wave_cons, waveFrom_same]
        exact waveFrom_pulse hoff
      have hpp := h.pendingp
      have hps := h.pendings
      rw [pendPulse_pulse] at hpp
      rw [pendSpace_pulse] at hps
      refine ⟨{ b.advance (word (pulse (x + a))) with pendingp := 0 }, ?_, ?_⟩
      · have hne : x + a ≠ 0 := by omega
        have hlt : ¬x + a < x := by omega
        simp [expectPulse, syncPendingSpace, hps, h.nextPulse hwave, hpp, hx, hne, hlt,
          tolerant_self ht ha]
      · exact h.step hwave h.positive.tail.tail rfl (by simp [hps])

theorem expectSpace_none (hw : Hardware) (ht : Tolerant r) {a c : ℤ}
    (h : b.At none (space a :: pulse c :: rest) total tail) :
    ∃ b', expectSpace hw r b a = (true, b') ∧ b'.At none (pulse c :: rest) total tail := by
  have ha : 0 < a := h.positive.head
  have hwave : wave ((none : Option Part).toList ++ space a :: pulse c :: rest) =
      space a :: wave ((none : Option Part).toList ++ pulse c :: rest) := waveFrom_space rfl
  have hpp := h.pendingp
  have hps := h.pendings
  rw [pendPulse_none] at hpp
  rw [pendSpace_none] at hps
  refine ⟨b.advance (word (space a)), ?_, ?_⟩
  · simp [expectSpace, syncPendingPulse, hpp, h.nextSpace hwave, hps, ha.ne',
      tolerant_self ht ha]
  · exact h.step_keep hwave h.positive.tail hpp hps

/-- The decoder expects the space that comes. -/
theorem expectSpace_ok (hw : Hardware) (ht : Tolerant r) {a c : ℤ}
    (h : b.At q (space a :: pulse c :: rest) total tail) :
    ∃ b', expectSpace hw r b a = (true, b') ∧ b'.At none (pulse c :: rest) total tail := by
  match q with
  | none => exact expectSpace_none hw ht h
  | some ⟨true, x⟩ =>
      obtain ⟨b₁, hsync, h₁⟩ := h.syncPulse hw ht (by simp)
      obtain ⟨b₂, hspace, h₂⟩ := expectSpace_none hw ht h₁
      have hp₁ : syncPendingPulse hw r b₁ = (true, b₁) := by
        simp [syncPendingPulse, h₁.pendingp]
      refine ⟨b₂, ?_, h₂⟩
      rw [← hspace]
      simp only [expectSpace, hsync, hp₁]
  | some ⟨false, x⟩ =>
      -- the pending space and the expected one are one sample
      have hx : 0 < x := h.positive.head
      have ha : 0 < a := h.positive.tail.head
      have hwave : wave ((some (space x)).toList ++ space a :: pulse c :: rest) =
          space (x + a) :: wave ((none : Option Part).toList ++ pulse c :: rest) := by
        simp only [Option.toList_some, List.singleton_append, wave_cons, waveFrom_same]
        exact waveFrom_space rfl
      have hpp := h.pendingp
      have hps := h.pendings
      rw [pendPulse_space] at hpp
      rw [pendSpace_space] at hps
      refine ⟨{ b.advance (word (space (x + a))) with pendings := 0 }, ?_, ?_⟩
      · have hne : x + a ≠ 0 := by omega
        have hlt : ¬x + a < x := by omega
        simp [expectSpace, syncPendingPulse, hpp, h.nextSpace hwave, hps, hx, hne, hlt,
          tolerant_self ht ha]
      · exact h.step hwave h.positive.tail.tail (by simp [hpp]) rfl

/-- A pending space is read before a pulse is expected, whatever its length. -/
theorem synced (hw : Hardware) (ht : Tolerant r) {a : ℤ}
    (hq : q = none ∨ ∃ x, q = some (space x))
    (h : b.At q (pulse a :: rest) total tail) :
    ∃ b₁, b₁.At none (pulse a :: rest) total tail ∧
      ∀ ex, expectPulse hw r b ex = expectPulse hw r b₁ ex := by
  rcases hq with rfl | ⟨x, rfl⟩
  · exact ⟨b, h, fun _ => rfl⟩
  · obtain ⟨b₁, hsync, h₁⟩ := h.syncSpace hw ht
    have hp₁ : syncPendingSpace hw r b₁ = (true, b₁) := by
      simp [syncPendingSpace, h₁.pendings]
    exact ⟨b₁, h₁, fun ex => by simp only [expectPulse, hsync, hp₁]⟩

/-- A pending pulse is read before a space is expected, whatever its length. -/
theorem syncedPulse (hw : Hardware) (ht : Tolerant r) {a : ℤ}
    (hq : q = none ∨ ∃ x, q = some (pulse x))
    (h : b.At q (space a :: rest) total tail) :
    ∃ b₁, b₁.At none (space a :: rest) total tail ∧
      ∀ ex, expectSpace hw r b ex = expectSpace hw r b₁ ex := by
  rcases hq with rfl | ⟨x, rfl⟩
  · exact ⟨b, h, fun _ => rfl⟩
  · obtain ⟨b₁, hsync, h₁⟩ := h.syncPulse hw ht (by simp)
    have hp₁ : syncPendingPulse hw r b₁ = (true, b₁) := by
      simp [syncPendingPulse, h₁.pendingp]
    exact ⟨b₁, h₁, fun ex => by simp only [expectSpace, hsync, hp₁]⟩

/-- A pulse that is not the expected one, merged with the pending pulse: both
stay to be read. -/
theorem expectPulse_merged (hw : Hardware) (r : IrRemote) {x a ex : ℤ}
    (h : b.At (some (pulse x)) (pulse a :: rest) total tail) (hoff : StartsOff true rest)
    (hne : expect hw r a ex = false) :
    ∃ b₁, expectPulse hw r b ex = (false, b₁) ∧
      (ungetRecBuffer b₁ 1).At (some (pulse x)) (pulse a :: rest) total tail := by
  have hx : 0 < x := h.positive.head
  have ha : 0 < a := h.positive.tail.head
  have hwave : wave ((some (pulse x)).toList ++ pulse a :: rest) = pulse (x + a) :: wave rest := by
    simp only [Option.toList_some, List.singleton_append, wave_cons, waveFrom_same]
    exact waveFrom_pulse hoff
  have hpp := h.pendingp
  have hps := h.pendings
  rw [pendPulse_pulse] at hpp
  rw [pendSpace_pulse] at hps
  refine ⟨b.advance (word (pulse (x + a))), ?_, h.unget_one hwave⟩
  have hne' : x + a ≠ 0 := by omega
  have hlt : ¬x + a < x := by omega
  simp [expectPulse, syncPendingSpace, hps, h.nextPulse hwave, hpp, hx, hne', hlt, hne]

/-- A space that is not the expected one, merged with the pending space: both
stay to be read. -/
theorem expectSpace_merged (hw : Hardware) (r : IrRemote) {x a c ex : ℤ}
    (h : b.At (some (space x)) (space a :: pulse c :: rest) total tail)
    (hne : expect hw r a ex = false) :
    ∃ b₁, expectSpace hw r b ex = (false, b₁) ∧
      (ungetRecBuffer b₁ 1).At (some (space x)) (space a :: pulse c :: rest) total tail := by
  have hx : 0 < x := h.positive.head
  have ha : 0 < a := h.positive.tail.head
  have hwave : wave ((some (space x)).toList ++ space a :: pulse c :: rest) =
      space (x + a) :: wave (pulse c :: rest) := by
    simp only [Option.toList_some, List.singleton_append, wave_cons, waveFrom_same]
    exact waveFrom_space rfl
  have hpp := h.pendingp
  have hps := h.pendings
  rw [pendPulse_space] at hpp
  rw [pendSpace_space] at hps
  refine ⟨b.advance (word (space (x + a))), ?_, h.unget_one hwave⟩
  have hne' : x + a ≠ 0 := by omega
  have hlt : ¬x + a < x := by omega
  simp [expectSpace, syncPendingPulse, hpp, h.nextSpace hwave, hps, hx, hne', hlt, hne]

/-- Any pulse expected while nothing is pending. -/
theorem expectPulse_eq (hw : Hardware) (r : IrRemote) {a : ℤ}
    (h : b.At none (pulse a :: rest) total tail) (hoff : StartsOff true rest) (ex : ℤ) :
    expectPulse hw r b ex = (expect hw r a ex, b.advance (word (pulse a))) := by
  have ha : 0 < a := h.positive.head
  have hwave : wave ((none : Option Part).toList ++ pulse a :: rest) =
      pulse a :: wave rest := waveFrom_pulse hoff
  have hpp := h.pendingp
  have hps := h.pendings
  rw [pendPulse_none] at hpp
  rw [pendSpace_none] at hps
  simp [expectPulse, syncPendingSpace, hps, h.nextPulse hwave, hpp, ha.ne']

/-- Any space expected while nothing is pending. -/
theorem expectSpace_eq (hw : Hardware) (r : IrRemote) {a c : ℤ}
    (h : b.At none (space a :: pulse c :: rest) total tail)
    (ex : ℤ) :
    expectSpace hw r b ex = (expect hw r a ex, b.advance (word (space a))) := by
  have ha : 0 < a := h.positive.head
  have hwave : wave ((none : Option Part).toList ++ space a :: pulse c :: rest) =
      space a :: wave (pulse c :: rest) := waveFrom_space rfl
  have hpp := h.pendingp
  have hps := h.pendings
  rw [pendPulse_none] at hpp
  rw [pendSpace_none] at hps
  simp [expectSpace, syncPendingPulse, hpp, h.nextSpace hwave, hps, ha.ne']

/-! ### The end of a signal -/

/-- A length taken off the sum is taken off the total. -/
theorem correctSum (h : b.At q ps total tail) (k : ℤ) :
    ({ b with sum := b.sum - k } : RBuf).At q ps (total - k) tail := by
  obtain ⟨past, hview⟩ := h.view
  have hsum := h.sum
  refine ⟨⟨past, hview.behind, hview.rptr_eq, hview.following, hview.room, hview.good⟩,
    h.pendingp, h.pendings, h.positive, h.representable, ?_⟩
  show b.sum - k + _ = total - k
  omega

theorem wave_nil_of_low (hq : q.all (fun p => !p.high) = true) : wave (q.toList ++ []) = [] := by
  match q with
  | none => rfl
  | some ⟨false, x⟩ => rfl
  | some ⟨true, x⟩ => simp at hq

/-- At the end of the signal all of it has been read. -/
theorem sum_end (h : b.At q [] total tail) (hq : q.all (fun p => !p.high) = true) :
    b.sum = total := by
  have hsum := h.sum
  rw [wave_nil_of_low hq] at hsum
  simpa using hsum

/-- The gap that follows the signal is long enough. -/
theorem getGap_ok (hw : Hardware) (ht : Tolerant r) {long gap : ℤ} {tail : List ℕ}
    (h : b.At q [] total (word (space long) :: tail)) (hq : q.all (fun p => !p.high) = true)
    (hlong : Representable (space long)) (hgap : 0 ≤ gap) (hle : gap ≤ long) :
    ∃ b', getGap hw r b gap = (true, b') ∧ b'.sum = total := by
  obtain ⟨past, hview⟩ := h.view
  rw [wave_nil_of_low hq, List.map_nil, List.nil_append] at hview
  have hsum := h.sum_end hq
  obtain ⟨-, hsum', -, -⟩ := hview.advance.unget_one
  have hne : word (space long) ≠ 0 := hlong.good.1
  have hpulse : isPulse (word (space long)) = false := isPulse_word hlong
  refine ⟨ungetRecBuffer (b.advance (word (space long))) 1, ?_, ?_⟩
  · simp only [getGap, hview.getNext, hne, if_false, isSpace, hpulse, Bool.not_true,
      Bool.false_eq_true, word_space hlong.1, Bool.not_false]
    rw [ht.expectAtLeast_of_le hgap hle]
  · rw [hsum', RBuf.advance_sum]
    omega

end RBuf.At

end Lirc
