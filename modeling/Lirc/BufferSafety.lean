import Lirc.BufferTrace

/-!
Where the receive buffer is used within its bounds. A read that is tried in a buffer with a
sample leaves the position behind one sample at least: it moves over one, or all have been
read. So one sample can be given back after it, and all that remains is the second half of
a bit, after which two are given back.
-/

namespace Lirc

open Signal Transition

/-! ### The second half of a bit -/

/-- The next read gives a sample. -/
def Delivers (b : RBuf) (maxusec : ℤ) : Prop :=
  b.rptr < b.data.length ∨
    b.data.length < rbufSize ∧ (readNew (receiveTimeout maxusec) b.input).1 ≠ 0

instance (b : RBuf) (maxusec : ℤ) : Decidable (Delivers b maxusec) :=
  inferInstanceAs (Decidable (_ ∨ _))

/-- What is pending of the other level is looked for first. -/
def pendingOther (b : RBuf) (p : Part) : ℤ := if p.high then b.pendings else b.pendingp

def pendingSame (b : RBuf) (p : Part) : ℤ := if p.high then b.pendingp else b.pendings

section Second

variable (hw : Hardware) (r : IrRemote)

def syncPart (b : RBuf) (p : Part) : Bool × RBuf :=
  if p.high then syncPendingSpace hw r b else syncPendingPulse hw r b

/-- Behind the first sample, one more is there for the second half of a bit; in front of it,
the half is found, or what was pending is, and one more sample is there. -/
structure KeepsPlace (p : Part) (b : RBuf) : Prop where
  behind : b.rptr = 1 →
    Delivers b (if 0 < pendingOther b p then pendingOther b p else pendingSame b p + p.len)
  front : b.rptr = 0 → (expectPart hw r b p).1 = true ∨
    0 < pendingOther b p ∧ (syncPart hw r b p).1 = true ∧
      Delivers (syncPart hw r b p).2 (pendingSame (syncPart hw r b p).2 p + p.len)

instance (p : Part) (b : RBuf) : Decidable (KeepsPlace hw r p b) :=
  decidable_of_iff
    ((b.rptr = 1 → Delivers b
        (if 0 < pendingOther b p then pendingOther b p else pendingSame b p + p.len)) ∧
      (b.rptr = 0 → (expectPart hw r b p).1 = true ∨
        0 < pendingOther b p ∧ (syncPart hw r b p).1 = true ∧
          Delivers (syncPart hw r b p).2 (pendingSame (syncPart hw r b p).2 p + p.len)))
    ⟨fun h => ⟨h.1, h.2⟩, fun h => ⟨h.behind, h.front⟩⟩

end Second

def BufOp.Keeps (hw : Hardware) : BufOp → Prop
  | .half r p b => KeepsPlace hw r p b
  | _ => True

instance (hw : Hardware) : DecidablePred (BufOp.Keeps hw)
  | .half r p b => inferInstanceAs (Decidable (KeepsPlace hw r p b))
  | .read _ | .unget _ | .ungetDelta _ | .rewind | .synced | .lessHeader _ | .setSum _ | .clear =>
      .isTrue trivial

/-- It is so for each second half that is looked for. -/
def Kept (hw : Hardware) (ops : List BufOp) : Prop := ∀ op ∈ ops, op.Keeps hw

instance (hw : Hardware) (ops : List BufOp) : Decidable (Kept hw ops) :=
  List.decidableBAll (BufOp.Keeps hw) ops

/-- The calls lead from one buffer to the other, and stay within the array exactly where each
second half keeps its place. -/
def Traces (hw : Hardware) (b : RBuf) (ops : List BufOp) (b' : RBuf) : Prop :=
  ∀ c : Cursor, c.Matches b →
    (Along Cursor.perform Cursor.InBounds c ops ↔ Kept hw ops) ∧
      (Kept hw ops → (run Cursor.perform c ops).Matches b')

/-- The calls of a function that starts in a buffer with a sample. -/
def Safely (hw : Hardware) (b : RBuf) (ops : List BufOp) (b' : RBuf) : Prop :=
  Traces hw b ops b' ∧ b'.Placed

section Rules

variable {hw : Hardware} {b b' b'' : RBuf} {ops ops' : List BufOp}

theorem kept_append : Kept hw (ops ++ ops') ↔ Kept hw ops ∧ Kept hw ops' := List.forall_mem_append

theorem Performs.traces (h : Performs b ops b') (hkept : Kept hw ops) : Traces hw b ops b' :=
  fun c hc => ⟨iff_of_true (h c hc).1 hkept, fun _ => (h c hc).2⟩

theorem Traces.append (h : Traces hw b ops b') (h' : Traces hw b' ops' b'') :
    Traces hw b (ops ++ ops') b'' := by
  intro c hc
  obtain ⟨hiff, hmatches⟩ := h c hc
  rw [along_append, hiff, run_append, kept_append]
  by_cases hkept : Kept hw ops
  · obtain ⟨hiff', hmatches'⟩ := h' _ (hmatches hkept)
    exact ⟨and_congr_right fun _ => hiff', fun hboth => hmatches' hboth.2⟩
  · exact ⟨iff_of_false (fun hin => hkept hin.1) (fun hboth => hkept hboth.1),
      fun hboth => absurd hboth.1 hkept⟩

theorem Safely.append (h : Safely hw b ops b') (h' : b'.Placed → Safely hw b' ops' b'') :
    Safely hw b (ops ++ ops') b'' := ⟨h.1.append (h' h.2).1, (h' h.2).2⟩

theorem kept_nil : Kept hw [] := fun _ hop => absurd hop List.not_mem_nil

theorem Traces.nil (b : RBuf) : Traces hw b [] b := (Performs.nil b).traces kept_nil

theorem Safely.nil (h : b.Placed) : Safely hw b [] b := ⟨.nil b, h⟩

end Rules

/-! ### Reads -/

/-- What the calls depend on. -/
def RBuf.tape (b : RBuf) : List ℕ × List ℕ × ℕ × ℤ := (b.data, b.input, b.rptr, b.sum)

/-- A function that only reads. -/
structure Forward (b : RBuf) (ops : List BufOp) (b' : RBuf) : Prop where
  performs : Performs b ops b'
  within : b'.Within
  le : b.rptr ≤ b'.rptr
  kept : b.data.length ≤ b'.data.length
  keeps : ∀ hw, Kept hw ops

section Reads

variable {hw : Hardware} {b b' b'' : RBuf} {ops ops' : List BufOp} {m : ℤ}

theorem Performs.of_tape (h : Performs b ops b') (heq : b''.tape = b'.tape) :
    Performs b ops b'' := by
  obtain ⟨hdata, hrest⟩ := Prod.mk.inj heq
  obtain ⟨hinput, hrest⟩ := Prod.mk.inj hrest
  obtain ⟨hrptr, hsum⟩ := Prod.mk.inj hrest
  rw [Performs] at h ⊢
  simp only [Cursor.Matches, hdata, hinput, hrptr, hsum]
  exact h

theorem RBuf.Within.of_tape (h : b'.Within) (heq : b''.tape = b'.tape) : b''.Within := by
  have hdata : b''.data = b'.data := congrArg (fun t => t.1) heq
  have hrptr : b''.rptr = b'.rptr := congrArg (fun t => t.2.2.1) heq
  rw [RBuf.Within, hdata, hrptr]
  exact h

theorem Traces.of_tape (h : Traces hw b ops b') (heq : b''.tape = b'.tape) :
    Traces hw b ops b'' := by
  obtain ⟨hdata, hrest⟩ := Prod.mk.inj heq
  obtain ⟨hinput, hrest⟩ := Prod.mk.inj hrest
  obtain ⟨hrptr, hsum⟩ := Prod.mk.inj hrest
  rw [Traces] at h ⊢
  simp only [Cursor.Matches, hdata, hinput, hrptr, hsum]
  exact h

theorem Safely.of_tape (h : Safely hw b ops b') (heq : b''.tape = b'.tape) :
    Safely hw b ops b'' := by
  have hdata : b''.data = b'.data := congrArg (fun t => t.1) heq
  exact ⟨h.1.of_tape heq, h.2.1.of_tape heq, hdata ▸ h.2.2⟩

theorem Forward.of_tape (h : Forward b ops b') (heq : b''.tape = b'.tape) : Forward b ops b'' := by
  have hdata : b''.data = b'.data := congrArg (fun t => t.1) heq
  have hrptr : b''.rptr = b'.rptr := congrArg (fun t => t.2.2.1) heq
  exact ⟨h.performs.of_tape heq, h.within.of_tape heq, hrptr ▸ h.le, hdata ▸ h.kept, h.keeps⟩

theorem Forward.placed (h : Forward b ops b') (hb : b.Placed) : b'.Placed :=
  ⟨h.within, hb.2.trans_le h.kept⟩

theorem Forward.traces (h : Forward b ops b') : Traces hw b ops b' :=
  h.performs.traces (h.keeps hw)

theorem Forward.safely (h : Forward b ops b') (hb : b.Placed) : Safely hw b ops b' :=
  ⟨h.traces, h.placed hb⟩

theorem Forward.nil (h : b.Within) : Forward b [] b := ⟨.nil b, h, le_rfl, le_rfl, fun _ => kept_nil⟩

theorem Forward.append (h : Forward b ops b') (h' : Forward b' ops' b'') :
    Forward b (ops ++ ops') b'' :=
  ⟨h.performs.append h'.performs, h'.within, h.le.trans h'.le, h.kept.trans h'.kept,
    fun hw => kept_append.mpr ⟨h.keeps hw, h'.keeps hw⟩⟩

theorem read_forward (h : b.Within) (m : ℤ) :
    Forward b (readOps m) (getNextRecBuffer b m).2 :=
  have hreads := getNextRecBuffer_readsTo h m
  ⟨getNextRecBuffer_performs h m, hreads.within, hreads.le, hreads.kept,
    fun _ => List.forall_mem_singleton.mpr trivial⟩

/-- A read moves over one sample, or all have been read. -/
theorem read_pos (h : b.Placed) (m : ℤ) : 0 < (getNextRecBuffer b m).2.rptr := by
  obtain ⟨hwithin, hpos⟩ := h
  have hreads := getNextRecBuffer_readsTo hwithin m
  by_cases hlt : b.rptr < b.data.length
  · rw [hreads.held hlt]
    exact Nat.succ_pos _
  · exact (hpos.trans_le (not_lt.mp hlt)).trans_le hreads.le

theorem read_of_delivers (h : b.Within) (hd : Delivers b m) :
    (getNextRecBuffer b m).2.rptr = b.rptr + 1 := by
  have hreads := getNextRecBuffer_readsTo h m
  by_cases hlt : b.rptr < b.data.length
  · exact hreads.held hlt
  · obtain ⟨hroom, hword⟩ := hd.resolve_left hlt
    refine hreads.word fun hzero => hword ?_
    rw [getNextRecBuffer, getNextRecBufferInternal, List.getElem?_eq_none (not_lt.mp hlt)] at hzero
    dsimp only at hzero
    rw [if_pos hroom] at hzero
    rcases hread : readNew (receiveTimeout m) b.input with ⟨w, rest⟩
    rw [hread] at hzero
    cases w with
    | zero => rfl
    | succ w => exact absurd hzero (Nat.succ_ne_zero w)

theorem read_of_not_delivers (hd : ¬Delivers b m) :
    (getNextRecBuffer b m).1 = 0 ∧ (getNextRecBuffer b m).2.rptr = b.rptr := by
  rw [Delivers, not_or, not_and, not_not] at hd
  obtain ⟨hge, hword⟩ := hd
  rw [getNextRecBuffer, getNextRecBufferInternal, List.getElem?_eq_none (not_lt.mp hge)]
  dsimp only
  split
  · next hroom =>
      have hzero := hword hroom
      rcases hread : readNew (receiveTimeout m) b.input with ⟨w, rest⟩
      rw [hread] at hzero
      cases w with
      | zero => exact ⟨rfl, rfl⟩
      | succ w => exact absurd hzero (Nat.succ_ne_zero w)
  · exact ⟨rfl, rfl⟩

theorem getNextPulse_snd (b : RBuf) (m : ℤ) : (getNextPulse b m).2 = (getNextRecBuffer b m).2 := by
  rw [getNextPulse]
  dsimp only
  split
  · rfl
  · split <;> rfl

theorem getNextSpace_snd (b : RBuf) (m : ℤ) : (getNextSpace b m).2 = (getNextRecBuffer b m).2 := by
  rw [getNextSpace]
  dsimp only
  split
  · rfl
  · split <;> rfl

theorem getNextPulse_word (h : (getNextPulse b m).1 ≠ 0) : (getNextRecBuffer b m).1 ≠ 0 := by
  intro hzero
  rw [getNextPulse] at h
  dsimp only at h
  rw [if_pos hzero] at h
  exact h rfl

theorem getNextSpace_word (h : (getNextSpace b m).1 ≠ 0) : (getNextRecBuffer b m).1 ≠ 0 := by
  intro hzero
  rw [getNextSpace] at h
  dsimp only at h
  rw [if_pos hzero] at h
  exact h rfl

end Reads

/-! ### Pulses and spaces -/

section Expect

variable (hw : Hardware) (r : IrRemote) {b : RBuf}

theorem syncPendingPulse_tape (b : RBuf) : (syncPendingPulse hw r b).2.tape =
    (if 0 < b.pendingp then (getNextRecBuffer b b.pendingp).2 else b).tape := by
  rw [syncPendingPulse]
  split
  · dsimp only
    rw [← getNextPulse_snd]
    split
    · rfl
    · split <;> rfl
  · rfl

theorem syncPendingSpace_tape (b : RBuf) : (syncPendingSpace hw r b).2.tape =
    (if 0 < b.pendings then (getNextRecBuffer b b.pendings).2 else b).tape := by
  rw [syncPendingSpace]
  split
  · dsimp only
    rw [← getNextSpace_snd]
    split
    · rfl
    · split <;> rfl
  · rfl

theorem expectPulse_tape (b : RBuf) (ex : ℤ) : (expectPulse hw r b ex).2.tape =
    (if (syncPendingSpace hw r b).1 then
        (getNextRecBuffer (syncPendingSpace hw r b).2 ((syncPendingSpace hw r b).2.pendingp + ex)).2
      else (syncPendingSpace hw r b).2).tape := by
  rw [expectPulse]
  rcases syncPendingSpace hw r b with ⟨ok, b⟩
  cases ok with
  | false => rfl
  | true =>
      simp only [Bool.not_true, Bool.false_eq_true, if_false, if_true]
      rw [← getNextPulse_snd]
      split
      · rfl
      split
      · split
        · rfl
        · split <;> rfl
      · rfl

theorem expectSpace_tape (b : RBuf) (ex : ℤ) : (expectSpace hw r b ex).2.tape =
    (if (syncPendingPulse hw r b).1 then
        (getNextRecBuffer (syncPendingPulse hw r b).2 ((syncPendingPulse hw r b).2.pendings + ex)).2
      else (syncPendingPulse hw r b).2).tape := by
  rw [expectSpace]
  rcases syncPendingPulse hw r b with ⟨ok, b⟩
  cases ok with
  | false => rfl
  | true =>
      simp only [Bool.not_true, Bool.false_eq_true, if_false, if_true]
      rw [← getNextSpace_snd]
      split
      · rfl
      split
      · split
        · rfl
        · split <;> rfl
      · rfl

theorem syncPendingPulse_forward (h : b.Within) :
    Forward b (syncPendingPulseOps b) (syncPendingPulse hw r b).2 := by
  have htape := syncPendingPulse_tape hw r b
  rw [syncPendingPulseOps]
  split at htape
  · next hpending =>
      rw [if_pos hpending]
      exact (read_forward h b.pendingp).of_tape htape
  · next hpending =>
      rw [if_neg hpending]
      exact (Forward.nil h).of_tape htape

theorem syncPendingSpace_forward (h : b.Within) :
    Forward b (syncPendingSpaceOps b) (syncPendingSpace hw r b).2 := by
  have htape := syncPendingSpace_tape hw r b
  rw [syncPendingSpaceOps]
  split at htape
  · next hpending =>
      rw [if_pos hpending]
      exact (read_forward h b.pendings).of_tape htape
  · next hpending =>
      rw [if_neg hpending]
      exact (Forward.nil h).of_tape htape

theorem syncPendingPulse_pos (h : b.Placed) (hfail : (syncPendingPulse hw r b).1 = false) :
    0 < (syncPendingPulse hw r b).2.rptr := by
  have hrptr := congrArg (fun t => t.2.2.1) (syncPendingPulse_tape hw r b)
  split at hrptr
  · exact (read_pos h b.pendingp).trans_eq hrptr.symm
  · next hpending =>
      rw [syncPendingPulse, if_neg hpending] at hfail
      cases hfail

theorem syncPendingSpace_pos (h : b.Placed) (hfail : (syncPendingSpace hw r b).1 = false) :
    0 < (syncPendingSpace hw r b).2.rptr := by
  have hrptr := congrArg (fun t => t.2.2.1) (syncPendingSpace_tape hw r b)
  split at hrptr
  · exact (read_pos h b.pendings).trans_eq hrptr.symm
  · next hpending =>
      rw [syncPendingSpace, if_neg hpending] at hfail
      cases hfail

theorem expectPulse_forward (h : b.Within) (ex : ℤ) :
    Forward b (expectPulseOps hw r b ex) (expectPulse hw r b ex).2 := by
  have htape := expectPulse_tape hw r b ex
  have hsync := syncPendingSpace_forward hw r h
  rw [expectPulseOps]
  generalize syncPendingSpace hw r b = sync at htape hsync ⊢
  obtain ⟨ok, b₁⟩ := sync
  cases ok with
  | false => exact (hsync.append (.nil hsync.within)).of_tape htape
  | true =>
      have hread := read_forward hsync.within (b₁.pendingp + ex)
      exact (hsync.append hread).of_tape htape

theorem expectSpace_forward (h : b.Within) (ex : ℤ) :
    Forward b (expectSpaceOps hw r b ex) (expectSpace hw r b ex).2 := by
  have htape := expectSpace_tape hw r b ex
  have hsync := syncPendingPulse_forward hw r h
  rw [expectSpaceOps]
  generalize syncPendingPulse hw r b = sync at htape hsync ⊢
  obtain ⟨ok, b₁⟩ := sync
  cases ok with
  | false => exact (hsync.append (.nil hsync.within)).of_tape htape
  | true =>
      have hread := read_forward hsync.within (b₁.pendings + ex)
      exact (hsync.append hread).of_tape htape

theorem expectPulse_pos (h : b.Placed) (ex : ℤ) : 0 < (expectPulse hw r b ex).2.rptr := by
  have hrptr := congrArg (fun t => t.2.2.1) (expectPulse_tape hw r b ex)
  have hplaced := (syncPendingSpace_forward hw r h.1).placed h
  cases hok : (syncPendingSpace hw r b).1 with
  | false =>
      rw [hok, if_neg Bool.false_ne_true] at hrptr
      exact (syncPendingSpace_pos hw r h hok).trans_eq hrptr.symm
  | true =>
      rw [hok, if_pos rfl] at hrptr
      exact (read_pos hplaced _).trans_eq hrptr.symm

theorem expectSpace_pos (h : b.Placed) (ex : ℤ) : 0 < (expectSpace hw r b ex).2.rptr := by
  have hrptr := congrArg (fun t => t.2.2.1) (expectSpace_tape hw r b ex)
  have hplaced := (syncPendingPulse_forward hw r h.1).placed h
  cases hok : (syncPendingPulse hw r b).1 with
  | false =>
      rw [hok, if_neg Bool.false_ne_true] at hrptr
      exact (syncPendingPulse_pos hw r h hok).trans_eq hrptr.symm
  | true =>
      rw [hok, if_pos rfl] at hrptr
      exact (read_pos hplaced _).trans_eq hrptr.symm

theorem expectPart_forward (h : b.Within) (p : Part) :
    Forward b (expectPartOps hw r b p) (expectPart hw r b p).2 := by
  rw [expectPartOps, expectPart]
  split
  · exact expectPulse_forward hw r h p.len
  · exact expectSpace_forward hw r h p.len

theorem expectPart_pos (h : b.Placed) (p : Part) : 0 < (expectPart hw r b p).2.rptr := by
  rw [expectPart]
  split
  · exact expectPulse_pos hw r h p.len
  · exact expectSpace_pos hw r h p.len

theorem tryPart_forward (h : b.Within) (p : Option Part) :
    Forward b (tryPartOps hw r b p) (tryPart hw r b p).2 := by
  cases p with
  | none => exact .nil h
  | some p => exact expectPart_forward hw r h p

theorem tryPart_pos (h : b.Placed) {p : Option Part} (hfail : (tryPart hw r b p).1 = false) :
    0 < (tryPart hw r b p).2.rptr := by
  cases p with
  | none => cases hfail
  | some p => exact expectPart_pos hw r h p

/-- The position after a pulse or a space has been looked for. -/
theorem expectPart_rptr (b : RBuf) (p : Part) : (expectPart hw r b p).2.rptr =
    if (syncPart hw r b p).1 then
      (getNextRecBuffer (syncPart hw r b p).2
        (pendingSame (syncPart hw r b p).2 p + p.len)).2.rptr
    else (syncPart hw r b p).2.rptr := by
  obtain ⟨level, len⟩ := p
  cases level with
  | true =>
      refine (congrArg (fun t => t.2.2.1) (expectPulse_tape hw r b len)).trans ?_
      exact apply_ite (fun b : RBuf => b.rptr) _ _ _
  | false =>
      refine (congrArg (fun t => t.2.2.1) (expectSpace_tape hw r b len)).trans ?_
      exact apply_ite (fun b : RBuf => b.rptr) _ _ _

theorem syncPart_rptr (b : RBuf) (p : Part) : (syncPart hw r b p).2.rptr =
    if 0 < pendingOther b p then (getNextRecBuffer b (pendingOther b p)).2.rptr else b.rptr := by
  obtain ⟨level, len⟩ := p
  cases level with
  | true =>
      refine (congrArg (fun t => t.2.2.1) (syncPendingSpace_tape hw r b)).trans ?_
      exact apply_ite (fun b : RBuf => b.rptr) _ _ _
  | false =>
      refine (congrArg (fun t => t.2.2.1) (syncPendingPulse_tape hw r b)).trans ?_
      exact apply_ite (fun b : RBuf => b.rptr) _ _ _

theorem syncPart_within (h : b.Within) (p : Part) : (syncPart hw r b p).2.Within := by
  rw [syncPart]
  split
  · exact (syncPendingSpace_forward hw r h).within
  · exact (syncPendingPulse_forward hw r h).within

variable {hw r} {p : Part}

theorem syncPart_of_nothing (h : ¬0 < pendingOther b p) : syncPart hw r b p = (true, b) := by
  obtain ⟨level, len⟩ := p
  cases level with
  | true => exact if_neg h
  | false => exact if_neg h

theorem getNextPulse_missed {m : ℤ} (h : (getNextRecBuffer b m).1 = 0) :
    (getNextPulse b m).1 = 0 := by
  rw [getNextPulse]
  dsimp only
  rw [if_pos h]

theorem getNextSpace_missed {m : ℤ} (h : (getNextRecBuffer b m).1 = 0) :
    (getNextSpace b m).1 = 0 := by
  rw [getNextSpace]
  dsimp only
  rw [if_pos h]

theorem syncPart_missed (hpending : 0 < pendingOther b p)
    (h : (getNextRecBuffer b (pendingOther b p)).1 = 0) : (syncPart hw r b p).1 = false := by
  obtain ⟨level, len⟩ := p
  cases level with
  | true =>
      have h : (getNextRecBuffer b b.pendings).1 = 0 := h
      show (syncPendingSpace hw r b).1 = false
      rw [syncPendingSpace, if_pos (show 0 < b.pendings from hpending)]
      dsimp only
      rw [if_pos (getNextSpace_missed h)]
  | false =>
      have h : (getNextRecBuffer b b.pendingp).1 = 0 := h
      show (syncPendingPulse hw r b).1 = false
      rw [syncPendingPulse, if_pos (show 0 < b.pendingp from hpending)]
      dsimp only
      rw [if_pos (getNextPulse_missed h)]

theorem expectPart_missed (h : (syncPart hw r b p).1 = true →
    (getNextRecBuffer (syncPart hw r b p).2 (pendingSame (syncPart hw r b p).2 p + p.len)).1 = 0) :
    (expectPart hw r b p).1 = false := by
  obtain ⟨level, len⟩ := p
  cases level with
  | true =>
      have h : (syncPendingSpace hw r b).1 = true → (getNextRecBuffer (syncPendingSpace hw r b).2
        ((syncPendingSpace hw r b).2.pendingp + len)).1 = 0 := h
      show (expectPulse hw r b len).1 = false
      rw [expectPulse]
      generalize syncPendingSpace hw r b = sync at h ⊢
      obtain ⟨ok, b₁⟩ := sync
      cases ok with
      | false => rfl
      | true =>
          simp only [Bool.not_true, Bool.false_eq_true, if_false]
          rw [if_pos (getNextPulse_missed (h rfl))]
  | false =>
      have h : (syncPendingPulse hw r b).1 = true → (getNextRecBuffer (syncPendingPulse hw r b).2
        ((syncPendingPulse hw r b).2.pendings + len)).1 = 0 := h
      show (expectSpace hw r b len).1 = false
      rw [expectSpace]
      generalize syncPendingPulse hw r b = sync at h ⊢
      obtain ⟨ok, b₁⟩ := sync
      cases ok with
      | false => rfl
      | true =>
          simp only [Bool.not_true, Bool.false_eq_true, if_false]
          rw [if_pos (getNextSpace_missed (h rfl))]

/-- Behind the first sample: the first read of the half decides. -/
theorem keepsPlace_behind (h : b.Placed) (hone : b.rptr = 1) :
    Delivers b (if 0 < pendingOther b p then pendingOther b p else pendingSame b p + p.len) ↔
      ((expectPart hw r b p).1 = false → 2 ≤ (expectPart hw r b p).2.rptr) := by
  by_cases hpending : 0 < pendingOther b p
  · rw [if_pos hpending]
    have hsync := syncPart_rptr hw r b p
    rw [if_pos hpending] at hsync
    constructor
    · intro hd _
      have hwithin := syncPart_within hw r h.1 p
      rw [read_of_delivers h.1 hd, hone] at hsync
      rw [expectPart_rptr]
      split
      · exact hsync.symm.le.trans (read_forward hwithin _).le
      · exact hsync.symm.le
    · intro htwo
      by_contra hd
      obtain ⟨hmissed, hstays⟩ := read_of_not_delivers hd
      have hfail : (syncPart hw r b p).1 = false := syncPart_missed hpending hmissed
      have hle := htwo (expectPart_missed fun hok => by rw [hfail] at hok; cases hok)
      rw [expectPart_rptr, hfail, if_neg Bool.false_ne_true, hsync, hstays, hone] at hle
      omega
  · rw [if_neg hpending]
    have hsync : syncPart hw r b p = (true, b) := syncPart_of_nothing hpending
    constructor
    · intro hd _
      rw [expectPart_rptr, hsync, if_pos rfl, read_of_delivers h.1 hd, hone]
    · intro htwo
      by_contra hd
      obtain ⟨hmissed, hstays⟩ := read_of_not_delivers hd
      have hle := htwo (expectPart_missed fun _ => by rw [hsync]; exact hmissed)
      rw [expectPart_rptr, hsync, if_pos rfl, hstays, hone] at hle
      omega

/-- In front of the first sample: this one is read, and one more has to be. -/
theorem keepsPlace_front (h : b.Placed) (hzero : b.rptr = 0) :
    ((expectPart hw r b p).1 = true ∨ 0 < pendingOther b p ∧ (syncPart hw r b p).1 = true ∧
      Delivers (syncPart hw r b p).2 (pendingSame (syncPart hw r b p).2 p + p.len)) ↔
      ((expectPart hw r b p).1 = false → 2 ≤ (expectPart hw r b p).2.rptr) := by
  have hheld : b.rptr < b.data.length := hzero ▸ h.2
  cases hfound : (expectPart hw r b p).1 with
  | true => exact iff_of_true (.inl rfl) nofun
  | false =>
      simp only [Bool.false_eq_true, false_or, forall_const]
      by_cases hpending : 0 < pendingOther b p
      · have hsync := syncPart_rptr hw r b p
        rw [if_pos hpending, read_of_delivers h.1 (.inl hheld), hzero] at hsync
        rw [expectPart_rptr]
        cases hok : (syncPart hw r b p).1 with
        | false =>
            rw [if_neg Bool.false_ne_true, hsync]
            exact iff_of_false (fun h => Bool.false_ne_true h.2.1) (by omega)
        | true =>
            have hwithin := syncPart_within hw r h.1 p
            rw [if_pos rfl]
            by_cases hd : Delivers (syncPart hw r b p).2 (pendingSame (syncPart hw r b p).2 p + p.len)
            · rw [read_of_delivers hwithin hd, hsync]
              exact iff_of_true ⟨hpending, rfl, hd⟩ le_rfl
            · rw [(read_of_not_delivers hd).2, hsync]
              exact iff_of_false (fun h => hd h.2.2) (by omega)
      · rw [expectPart_rptr, syncPart_of_nothing hpending, if_pos rfl,
          read_of_delivers h.1 (.inl hheld), hzero]
        exact iff_of_false (fun h => hpending h.1) (by omega)

/-- When the second half of a bit is not found, two samples can be given back exactly where
this is required. -/
theorem keepsPlace_iff (h : b.Placed) : KeepsPlace hw r p b ↔
    ((expectPart hw r b p).1 = false → 2 ≤ (expectPart hw r b p).2.rptr) := by
  constructor
  · rintro ⟨hbehind, hfront⟩
    by_cases hzero : b.rptr = 0
    · exact (keepsPlace_front h hzero).mp (hfront hzero)
    by_cases hone : b.rptr = 1
    · exact (keepsPlace_behind h hone).mp (hbehind hone)
    · have hle := (expectPart_forward hw r h.1 p).le
      exact fun _ => by omega
  · intro htwo
    exact ⟨fun hone => (keepsPlace_behind h hone).mpr htwo,
      fun hzero => (keepsPlace_front h hzero).mpr htwo⟩

end Expect

/-! ### Bits -/

section Bits

variable {hw : Hardware} {r : IrRemote} {b : RBuf}

theorem unget_safely {count : ℕ} (h : b.Placed) (hcount : count = 1 ∨ count = 2)
    (hread : count ≤ b.rptr) : Safely hw b [.unget count] (ungetRecBuffer b count) := by
  have hdata : (ungetRecBuffer b count).data = b.data := by
    rcases hcount with rfl | rfl
    · rfl
    · rfl
  have hperforms := ungetRecBuffer_performs h.1 hcount hread
  exact ⟨hperforms.traces (List.forall_mem_singleton.mpr trivial), ungetRecBuffer_within h.1,
    hdata ▸ h.2⟩

theorem unget_two_inBounds {c : Cursor} (hc : c.Matches b) (h : b.Within) :
    c.InBounds (.unget 2) ↔ 2 ≤ b.rptr := by
  obtain ⟨hle, hsize⟩ := h
  rw [Cursor.InBounds, Cursor.touches, if_neg (by decide), if_pos rfl, hc.2.2.1]
  constructor
  · intro hin
    have hfirst := (hin (b.rptr - 2) List.mem_cons_self).1
    omega
  · intro htwo i hi
    simp only [List.mem_cons, List.not_mem_nil, or_false] at hi
    omega

/-- Two samples are given back that have not been read, exactly where the half does not keep
its place. -/
theorem secondHalf_traces (p : Part) (h : b.Placed) :
    Traces hw b ([.half r p b] ++ expectPartOps hw r b p ++
        if !(expectPart hw r b p).1 then [.unget 2] else [])
      (if !(expectPart hw r b p).1 then (false, ungetRecBuffer (expectPart hw r b p).2 2)
        else (true, (expectPart hw r b p).2)).2 := by
  have hforward := expectPart_forward hw r h.1 p
  have hkeeps : KeepsPlace hw r p b ↔ _ := keepsPlace_iff h
  have hhalf : Kept hw [.half r p b] ↔ KeepsPlace hw r p b := List.forall_mem_singleton
  intro c hc
  obtain ⟨hin, hmatches⟩ := ((Performs.half r p b).append hforward.performs) c hc
  rw [along_append, run_append _ _ ([BufOp.half r p b] ++ expectPartOps hw r b p), kept_append,
    kept_append, hhalf, hkeeps]
  generalize expectPart hw r b p = t at hforward hmatches ⊢
  obtain ⟨ok, b₁⟩ := t
  cases ok with
  | true =>
      have hall : Along Cursor.perform Cursor.InBounds _ _ ∧ True := ⟨hin, trivial⟩
      exact ⟨iff_of_true hall ⟨⟨nofun, hforward.keeps hw⟩, kept_nil⟩, fun _ => hmatches⟩
  | false =>
      have hunget : Kept hw [.unget 2] := List.forall_mem_singleton.mpr trivial
      constructor
      · constructor
        · rintro ⟨-, htwo, -⟩
          exact ⟨⟨fun _ => (unget_two_inBounds hmatches hforward.within).mp htwo,
            hforward.keeps hw⟩, hunget⟩
        · rintro ⟨⟨htwo, -⟩, -⟩
          exact ⟨hin, (unget_two_inBounds hmatches hforward.within).mpr (htwo rfl), trivial⟩
      · rintro ⟨⟨htwo, -⟩, -⟩
        exact (ungetRecBuffer_performs hforward.within (.inr rfl) (htwo rfl) _ hmatches).2

theorem secondHalf_safely (p : Part) (h : b.Placed) :
    Safely hw b ([.half r p b] ++ expectPartOps hw r b p ++
        if !(expectPart hw r b p).1 then [.unget 2] else [])
      (if !(expectPart hw r b p).1 then (false, ungetRecBuffer (expectPart hw r b p).2 2)
        else (true, (expectPart hw r b p).2)).2 := by
  refine ⟨secondHalf_traces p h, ?_⟩
  have hplaced := (expectPart_forward hw r h.1 p).placed h
  split
  · exact ⟨ungetRecBuffer_within hplaced.1, hplaced.2⟩
  · exact hplaced

theorem tryHalves_safely {first second : Option Part} (h : b.Placed) :
    Safely hw b (tryHalvesOps hw r first second b) (tryHalves hw r first second b).2 := by
  have hfirst : Safely hw b _ _ := (tryPart_forward hw r h.1 first).safely h
  have hpos := tryPart_pos (p := first) hw r h
  rw [tryHalvesOps, tryHalves]
  generalize tryPart hw r b first = t at hfirst hpos ⊢
  obtain ⟨ok, b₁⟩ := t
  cases ok with
  | false => exact hfirst.append fun hp => unget_safely hp (.inl rfl) (hpos rfl)
  | true =>
      refine hfirst.append fun hp => ?_
      cases second with
      | none => exact .nil hp
      | some p => exact secondHalf_safely p hp

variable (hw r) (bit : ℕ) (b)

theorem tryPart_pulse (p : ℤ) : tryPart hw r b (some (pulse p)) = expectPulse hw r b p := rfl

theorem tryPart_ite (c : Prop) [Decidable c] (p : Part) :
    tryPart hw r b (if c then some p else none) = if c then expectPart hw r b p else (true, b) := by
  split <;> rfl

theorem tryPart_wanted_pulse (p : ℤ) : tryPart hw r b (wanted (pulse p)) =
    if 0 < p then expectPulse hw r b p else (true, b) := tryPart_ite hw r b (0 < p) (pulse p)

theorem tryPart_wanted_space (s : ℤ) : tryPart hw r b (wanted (space s)) =
    if 0 < s then expectSpace hw r b s else (true, b) := tryPart_ite hw r b (0 < s) (space s)

/-- The same but for what is then pending. -/
theorem expectOne_tape : (expectOne hw r bit b).2.tape =
    (tryHalves hw r (oneHalves r bit).1 (oneHalves r bit).2 b).2.tape := by
  rw [expectOne, oneHalves, tryHalves]
  split
  · simp only [tryPart_ite, bitFactor]
    generalize (if bitMask r bit &&& r.rc6Mask != 0 then (2 : ℤ) else 1) = k
    have hspace : expectPart hw r b (space (k * r.sone)) = expectSpace hw r b (k * r.sone) := rfl
    rw [hspace]
    generalize (if 0 < r.sone then _ else (true, b) : Bool × RBuf) = t
    obtain ⟨ok, b₁⟩ := t
    cases ok <;> rfl
  split
  · simp only [tryPart_wanted_space, tryPart_wanted_pulse]
  by_cases htrail : 0 < r.ptrail
  · simp only [if_pos htrail, tryPart_wanted_space, tryPart_wanted_pulse]
  · simp only [if_neg htrail, tryPart_wanted_pulse]
    generalize (if 0 < r.pone then _ else (true, b) : Bool × RBuf) = t
    obtain ⟨ok, b₁⟩ := t
    cases ok <;> rfl

theorem expectZero_tape : (expectZero hw r bit b).2.tape =
    (tryHalves hw r (zeroHalves r bit).1 (zeroHalves r bit).2 b).2.tape := by
  rw [expectZero, zeroHalves, tryHalves]
  split
  · rw [bitFactor]
    dsimp only
    rw [tryPart_pulse]
    generalize expectPulse hw r b _ = t
    obtain ⟨ok, b₁⟩ := t
    cases ok <;> rfl
  split
  · simp only [tryPart_wanted_space, tryPart_wanted_pulse]
  dsimp only
  rw [tryPart_pulse]
  generalize expectPulse hw r b r.pzero = t
  obtain ⟨ok, b₁⟩ := t
  cases ok with
  | false => rfl
  | true =>
      by_cases htrail : 0 < r.ptrail
      · simp only [if_pos htrail]
        rfl
      · simp only [if_neg htrail]
        rfl

variable {b}

theorem expectOne_safely (h : b.Placed) :
    Safely hw b (expectOneOps hw r bit b) (expectOne hw r bit b).2 :=
  (tryHalves_safely h).of_tape (expectOne_tape hw r b bit)

theorem expectZero_safely (h : b.Placed) :
    Safely hw b (expectZeroOps hw r bit b) (expectZero hw r bit b).2 :=
  (tryHalves_safely h).of_tape (expectZero_tape hw r b bit)

end Bits

end Lirc
