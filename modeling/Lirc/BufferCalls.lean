import Lirc.Accounting
import Lirc.Library.Run

/-!
The receive buffer one call at a time, with the read position as the `int` that it is. A
call touches places of `data`; as long as these are in range, the position stays within the
samples that are held and `sum` counts those behind the sync space.
-/

namespace Lirc

open Signal Transition

/-! ### The calls -/

/-- `struct rbuf` as the calls leave it. Of the past there is the place behind the sync space,
and whether `sum` has been changed in another way since the last rewind. -/
structure Cursor where
  data : List ℕ
  input : List ℕ
  rptr : ℤ
  sum : ℤ
  syncAt : ℕ := 0
  plain : Bool := true
  deriving DecidableEq, Repr

/-- What is done to the buffer: `get_next_rec_buffer_internal`, `unget_rec_buffer`,
`unget_rec_buffer_delta`, `rewind_rec_buffer`, the assignments to `sum`, and
`clear_rec_buffer` where samples are received. `half` marks that the second half of a bit is
looked for, in this state. -/
inductive BufOp
  | read (maxusec : ℤ)
  | unget (count : ℕ)
  | ungetDelta (delta : ℤ)
  | rewind
  | synced
  | lessHeader (length : ℤ)
  | setSum (sum : ℤ)
  | clear
  | half (r : IrRemote) (p : Part) (b : RBuf)
  deriving DecidableEq

namespace Cursor

/-- `data[i]` -/
def word (c : Cursor) (i : ℤ) : ℕ := c.data.getD i.toNat 0

/-- There are samples that have not been read, and some that have. -/
def Moves (c : Cursor) : Prop := 0 < c.data.length - c.rptr ∧ 0 < c.rptr

instance (c : Cursor) : Decidable c.Moves := inferInstanceAs (Decidable (_ ∧ _))

/-- The buffer after a call. -/
def perform (c : Cursor) : BufOp → Cursor
  | .read maxusec =>
      if c.rptr < c.data.length then
        { c with sum := c.sum + sampleValue (c.word c.rptr), rptr := c.rptr + 1 }
      else if c.data.length < rbufSize then
        match readNew maxusec c.input with
        | (0, rest) => { c with input := rest }
        | (w + 1, rest) =>
            { c with data := c.data ++ [w + 1], input := rest,
                     sum := c.sum + sampleValue (w + 1), rptr := c.rptr + 1 }
      else c
  | .unget count =>
      if count = 1 then
        { c with rptr := c.rptr - 1, sum := c.sum - sampleValue (c.word (c.rptr - 1)) }
      else if count = 2 then
        { c with rptr := c.rptr - 2,
                 sum := c.sum - sampleValue (c.word (c.rptr - 2)) -
                   sampleValue (c.word (c.rptr - 2 + 1)) }
      else c
  | .ungetDelta delta =>
      { c with rptr := c.rptr - 1, sum := c.sum - sampleValue delta.toNat,
               data := c.data.set (c.rptr - 1).toNat delta.toNat, plain := false }
  | .rewind => { c with rptr := 0, sum := 0, syncAt := 0, plain := true }
  | .synced => { c with sum := 0, syncAt := c.rptr.toNat, plain := true }
  | .lessHeader length => { c with sum := c.sum - length, plain := false }
  | .setSum sum => { c with sum, plain := false }
  | .clear =>
      { (if c.Moves then { c with data := c.data.drop c.rptr.toNat }
          else { c with data := [c.input.headD 0], input := c.input.tail }) with
        rptr := 0, sum := 0, syncAt := 0, plain := true }
  | .half _ _ _ => c

/-- The indices with which a call uses `data`. -/
def touches (c : Cursor) : BufOp → List ℤ
  | .read _ =>
      if c.rptr < c.data.length then [c.rptr]
      else if c.data.length < rbufSize then [(c.data.length : ℤ), c.rptr]
      else []
  | .unget count =>
      if count = 1 then [c.rptr - 1]
      else if count = 2 then [c.rptr - 2, c.rptr - 2 + 1]
      else []
  | .ungetDelta _ => [c.rptr - 1]
  | .clear => if c.Moves then (List.range c.data.length).map Int.ofNat else [0]
  | .rewind | .synced | .lessHeader _ | .setSum _ | .half _ _ _ => []

/-- All of them are indices of the array. -/
def InBounds (c : Cursor) (op : BufOp) : Prop := ∀ i ∈ c.touches op, 0 ≤ i ∧ i < rbufSize

instance (c : Cursor) : DecidablePred (InBounds c) :=
  fun op => inferInstanceAs (Decidable (∀ i ∈ c.touches op, _))

end Cursor

/-! ### What every state has -/

/-- The total length of the first samples. -/
def totalLength (data : List ℕ) (n : ℕ) : ℤ := ((data.take n).map sampleValue).sum

/-- The position is within the samples that are held, and unless `sum` has been changed
otherwise, it is the length of those between the sync space and the position. -/
structure Cursor.Fine (c : Cursor) : Prop where
  nonneg : 0 ≤ c.rptr
  le : c.rptr ≤ c.data.length
  size : c.data.length ≤ rbufSize
  sync : c.plain = true → c.syncAt ≤ c.data.length
  sum : c.plain = true → c.sum = totalLength c.data c.rptr.toNat - totalLength c.data c.syncAt

section Lengths

variable {data : List ℕ} {n : ℕ} {w : ℕ}

theorem totalLength_succ (h : n < data.length) :
    totalLength data (n + 1) = totalLength data n + sampleValue (data.getD n 0) := by
  rw [totalLength, totalLength, List.take_add_one, List.getD_eq_getElem _ _ h,
    List.getElem?_eq_getElem h, List.map_append, List.sum_append]
  simp

theorem totalLength_append (h : n ≤ data.length) (words : List ℕ) :
    totalLength (data ++ words) n = totalLength data n := by
  rw [totalLength, totalLength, List.take_append_of_le_length h]

end Lengths

section Step

variable {c : Cursor} {op : BufOp}

theorem Cursor.Fine.read (h : c.Fine) (maxusec : ℤ) : (c.perform (.read maxusec)).Fine := by
  obtain ⟨hnonneg, hle, hsize, hsync, hsum⟩ := h
  obtain ⟨n, hn⟩ := Int.eq_ofNat_of_zero_le hnonneg
  rw [Cursor.perform]
  split
  · next hlt =>
      refine ⟨by dsimp only; omega, by dsimp only; omega, hsize, hsync, fun hplain => ?_⟩
      have hsucc : (c.rptr + 1).toNat = c.rptr.toNat + 1 := by omega
      dsimp only
      rw [hsucc, totalLength_succ (by omega), hsum hplain, Cursor.word]
      omega
  · next hge =>
      split
      · next hroom =>
          rcases readNew maxusec c.input with ⟨w, rest⟩
          cases w with
          | zero => exact ⟨hnonneg, hle, hsize, hsync, hsum⟩
          | succ w =>
              have hend : c.rptr = c.data.length := le_antisymm hle (not_lt.mp hge)
              refine ⟨by dsimp only; omega, ?_, ?_, fun hplain => ?_, fun hplain => ?_⟩
              · simp only [List.length_append, List.length_singleton]
                omega
              · simp only [List.length_append, List.length_singleton]
                omega
              · simp only [List.length_append, List.length_singleton]
                exact (hsync hplain).trans (Nat.le_succ _)
              · have hsucc : (c.rptr + 1).toNat = c.data.length + 1 := by omega
                have hlast : (c.data ++ [w + 1]).getD c.data.length 0 = w + 1 := by simp
                have htoNat : c.rptr.toNat = c.data.length := by omega
                dsimp only
                rw [hsucc, totalLength_succ (by simp), totalLength_append le_rfl,
                  totalLength_append (hsync hplain), hlast, hsum hplain, htoNat]
                omega
      · exact ⟨hnonneg, hle, hsize, hsync, hsum⟩

theorem Cursor.Fine.unget (h : c.Fine) {count : ℕ} (hin : c.InBounds (.unget count)) :
    (c.perform (.unget count)).Fine := by
  obtain ⟨hnonneg, hle, hsize, hsync, hsum⟩ := h
  rw [Cursor.perform]
  split
  · next hone =>
      have hpos : 0 ≤ c.rptr - 1 := (hin (c.rptr - 1) (by rw [Cursor.touches, if_pos hone]; simp)).1
      refine ⟨hpos, by dsimp only; omega, hsize, hsync, fun hplain => ?_⟩
      have hsucc : c.rptr.toNat = (c.rptr - 1).toNat + 1 := by omega
      dsimp only
      rw [hsum hplain, hsucc, totalLength_succ (by omega), Cursor.word]
      omega
  · next hone =>
      split
      · next htwo =>
          have hpos : 0 ≤ c.rptr - 2 :=
            (hin (c.rptr - 2) (by rw [Cursor.touches, if_neg hone, if_pos htwo]; simp)).1
          refine ⟨hpos, by dsimp only; omega, hsize, hsync, fun hplain => ?_⟩
          have hsucc : c.rptr.toNat = (c.rptr - 2).toNat + 1 + 1 := by omega
          have hnext : (c.rptr - 2 + 1).toNat = (c.rptr - 2).toNat + 1 := by omega
          dsimp only
          rw [hsum hplain, hsucc, totalLength_succ (by omega), totalLength_succ (by omega),
            Cursor.word, Cursor.word, hnext]
          omega
      · exact ⟨hnonneg, hle, hsize, hsync, hsum⟩

/-- What a call preserves that uses no place outside of the array. -/
theorem Cursor.Fine.perform (h : c.Fine) (hin : c.InBounds op) : (c.perform op).Fine := by
  cases op with
  | read maxusec => exact h.read maxusec
  | unget count => exact h.unget hin
  | ungetDelta delta =>
      have hpos : 0 ≤ c.rptr - 1 := (hin (c.rptr - 1) (List.mem_singleton_self _)).1
      have hlength : (c.data.set (c.rptr - 1).toNat delta.toNat).length = c.data.length :=
        List.length_set ..
      have hle := h.le
      refine ⟨hpos, ?_, ?_, nofun, nofun⟩
      · rw [Cursor.perform]
        dsimp only
        omega
      · rw [Cursor.perform]
        dsimp only
        exact hlength.trans_le h.size
  | rewind =>
      exact ⟨le_rfl, Int.natCast_nonneg _, h.size, fun _ => Nat.zero_le _, fun _ => (sub_self _).symm⟩
  | synced =>
      have hnonneg := h.nonneg
      have hle := h.le
      have hsync : c.rptr.toNat ≤ c.data.length := by omega
      exact ⟨hnonneg, hle, h.size, fun _ => hsync, fun _ => (sub_self _).symm⟩
  | lessHeader length => exact ⟨h.nonneg, h.le, h.size, nofun, nofun⟩
  | setSum sum => exact ⟨h.nonneg, h.le, h.size, nofun, nofun⟩
  | clear =>
      have hsize := h.size
      refine ⟨le_rfl, Int.natCast_nonneg _, ?_, fun _ => Nat.zero_le _, fun _ => (sub_self _).symm⟩
      rw [Cursor.perform]
      dsimp only
      split
      · rw [List.length_drop]
        exact (Nat.sub_le ..).trans hsize
      · exact Nat.succ_le_of_lt (by decide)
  | half r p b => exact h

end Step

/-! ### The calls of a function -/

/-- The cursor is where the buffer is. -/
def Cursor.Matches (c : Cursor) (b : RBuf) : Prop :=
  c.data = b.data ∧ c.input = b.input ∧ c.rptr = b.rptr ∧ c.sum = b.sum

/-- The calls lead from one buffer to the other, and stay within the array. -/
def Performs (b : RBuf) (ops : List BufOp) (b' : RBuf) : Prop :=
  ∀ c : Cursor, c.Matches b →
    Along Cursor.perform Cursor.InBounds c ops ∧ (run Cursor.perform c ops).Matches b'

/-- The position is within the samples that are held. -/
def RBuf.Within (b : RBuf) : Prop := b.rptr ≤ b.data.length ∧ b.data.length ≤ rbufSize

/-- There is a sample, too. -/
def RBuf.Placed (b : RBuf) : Prop := b.Within ∧ 0 < b.data.length

section Rules

variable {b b' b'' : RBuf} {ops ops' : List BufOp}

theorem Performs.nil (b : RBuf) : Performs b [] b := fun _ h => ⟨trivial, h⟩

theorem Performs.append (h : Performs b ops b') (h' : Performs b' ops' b'') :
    Performs b (ops ++ ops') b'' := by
  intro c hc
  obtain ⟨hin, hmatches⟩ := h c hc
  obtain ⟨hin', hmatches'⟩ := h' _ hmatches
  exact ⟨along_append.mpr ⟨hin, hin'⟩, by rwa [run_append]⟩

theorem Performs.single {op : BufOp}
    (h : ∀ c : Cursor, c.Matches b → c.InBounds op ∧ (c.perform op).Matches b') :
    Performs b [op] b' := fun c hc => ⟨⟨(h c hc).1, trivial⟩, (h c hc).2⟩

/-- A call that touches no place. -/
theorem Performs.quiet {op : BufOp} (hquiet : ∀ c : Cursor, c.touches op = [])
    (h : ∀ c : Cursor, c.Matches b → (c.perform op).Matches b') : Performs b [op] b' :=
  .single fun c hc => ⟨fun _ hi => absurd (hquiet c ▸ hi) List.not_mem_nil, h c hc⟩

/-- The mark changes nothing. -/
theorem Performs.half (r : IrRemote) (p : Part) (b : RBuf) : Performs b [.half r p b] b :=
  .quiet (fun _ => rfl) fun _ hc => hc

/-! ### Reading and giving back -/

/-- What a read does to the position. -/
structure RBuf.ReadsTo (b : RBuf) (w : ℕ) (b' : RBuf) : Prop where
  within : b'.Within
  le : b.rptr ≤ b'.rptr
  step : b'.rptr ≤ b.rptr + 1
  kept : b.data.length ≤ b'.data.length
  word : w ≠ 0 → b'.rptr = b.rptr + 1
  held : b.rptr < b.data.length → b'.rptr = b.rptr + 1

theorem getNextRecBuffer_readsTo (h : b.Within) (m : ℤ) :
    b.ReadsTo (getNextRecBuffer b m).1 (getNextRecBuffer b m).2 := by
  obtain ⟨hle, hsize⟩ := h
  rw [getNextRecBuffer, getNextRecBufferInternal]
  by_cases hlt : b.rptr < b.data.length
  · rw [List.getElem?_eq_getElem hlt]
    exact ⟨⟨hlt, hsize⟩, Nat.le_succ _, le_rfl, le_rfl, fun _ => rfl, fun _ => rfl⟩
  · rw [List.getElem?_eq_none (not_lt.mp hlt)]
    dsimp only
    split
    · next hroom =>
        rcases readNew (receiveTimeout m) b.input with ⟨w, rest⟩
        cases w with
        | zero =>
            exact ⟨⟨hle, hsize⟩, le_rfl, Nat.le_succ _, le_rfl, fun h => absurd rfl h,
              fun h => absurd h hlt⟩
        | succ w =>
            have hlength : (b.data ++ [w + 1]).length = b.data.length + 1 := by simp
            refine ⟨⟨?_, ?_⟩, Nat.le_succ _, le_rfl, ?_, fun _ => rfl, fun _ => rfl⟩
            · exact hlength ▸ Nat.succ_le_succ hle
            · exact hlength ▸ hroom
            · exact hlength ▸ Nat.le_succ _
    · exact ⟨⟨hle, hsize⟩, le_rfl, Nat.le_succ _, le_rfl, fun h => absurd rfl h,
        fun h => absurd h hlt⟩

theorem getNextRecBuffer_performs (h : b.Within) (m : ℤ) :
    Performs b [.read (receiveTimeout m)] (getNextRecBuffer b m).2 := by
  obtain ⟨hle, hsize⟩ := h
  refine .single fun c ⟨hdata, hinput, hrptr, hsum⟩ => ?_
  rw [Cursor.InBounds, Cursor.touches, Cursor.perform, getNextRecBuffer, getNextRecBufferInternal,
    hdata, hinput, hrptr]
  by_cases hlt : b.rptr < b.data.length
  · have hcast : (b.rptr : ℤ) < b.data.length := by exact_mod_cast hlt
    have hword : c.word b.rptr = b.data[b.rptr] := by
      rw [Cursor.word, hdata, Int.toNat_natCast, List.getD_eq_getElem _ _ hlt]
    rw [if_pos hcast, if_pos hcast, List.getElem?_eq_getElem hlt, hword, hsum]
    refine ⟨fun i hi => ?_, rfl, rfl, ?_, rfl⟩
    · rw [List.mem_singleton.mp hi]
      exact ⟨Int.natCast_nonneg _, by omega⟩
    · exact (Int.natCast_succ _).symm
  · have hcast : ¬(b.rptr : ℤ) < b.data.length := by exact_mod_cast hlt
    rw [if_neg hcast, if_neg hcast, List.getElem?_eq_none (not_lt.mp hlt)]
    by_cases hroom : b.data.length < rbufSize
    · rw [if_pos hroom, if_pos hroom]
      dsimp only
      rw [if_pos hroom]
      refine ⟨fun i hi => ?_, ?_⟩
      · simp only [List.mem_cons, List.not_mem_nil, or_false] at hi
        omega
      · rcases readNew (receiveTimeout m) b.input with ⟨w, rest⟩
        cases w with
        | zero => exact ⟨rfl, rfl, rfl, hsum⟩
        | succ w => exact ⟨rfl, rfl, (Int.natCast_succ _).symm, by rw [hsum]⟩
    · rw [if_neg hroom, if_neg hroom]
      dsimp only
      rw [if_neg hroom]
      exact ⟨fun i hi => absurd hi List.not_mem_nil, hdata, hinput, hrptr, hsum⟩

/-- Samples that have been read can be given back. -/
theorem ungetRecBuffer_performs {count : ℕ} (h : b.Within) (hcount : count = 1 ∨ count = 2)
    (hread : count ≤ b.rptr) : Performs b [.unget count] (ungetRecBuffer b count) := by
  obtain ⟨hle, hsize⟩ := h
  refine .single fun c ⟨hdata, hinput, hrptr, hsum⟩ => ?_
  have hword : ∀ i : ℕ, sampleValue (c.word i) = b.valueAt i := fun i => by
    rw [Cursor.word, hdata, Int.toNat_natCast, RBuf.valueAt]
  rw [Cursor.InBounds, Cursor.touches, Cursor.perform, ungetRecBuffer, hrptr]
  rcases hcount with rfl | rfl
  · have hsub : (b.rptr : ℤ) - 1 = (b.rptr - 1 : ℕ) := by omega
    rw [if_pos rfl, if_pos rfl, if_pos rfl, hsub]
    refine ⟨fun i hi => ?_, hdata, hinput, rfl, ?_⟩
    · rw [List.mem_singleton.mp hi]
      omega
    · rw [hword, hsum]
  · have hsub : (b.rptr : ℤ) - 2 = (b.rptr - 2 : ℕ) := by omega
    have hnext : ((b.rptr - 2 : ℕ) : ℤ) + 1 = (b.rptr - 2 + 1 : ℕ) := rfl
    rw [if_neg (by decide), if_pos rfl, if_neg (by decide), if_pos rfl, if_neg (by decide),
      if_pos rfl, hsub, hnext]
    refine ⟨fun i hi => ?_, hdata, hinput, rfl, ?_⟩
    · simp only [List.mem_cons, List.not_mem_nil, or_false] at hi
      omega
    · dsimp only
      rw [hword, hword, hsum]

theorem ungetRecBufferDelta_performs (h : b.Within) (hread : 0 < b.rptr) (delta : ℤ) :
    Performs b [.ungetDelta delta] (ungetRecBufferDelta b delta) := by
  obtain ⟨hle, hsize⟩ := h
  refine .single fun c ⟨hdata, hinput, hrptr, hsum⟩ => ?_
  have hsub : (b.rptr : ℤ) - 1 = (b.rptr - 1 : ℕ) := by omega
  rw [Cursor.InBounds, Cursor.touches, Cursor.perform, hrptr, hsub, Int.toNat_natCast]
  refine ⟨fun i hi => ?_, ?_, hinput, rfl, ?_⟩
  · rw [List.mem_singleton.mp hi]
    omega
  · rw [hdata]
    rfl
  · rw [hsum]
    rfl

theorem ungetRecBuffer_within {count : ℕ} (h : b.Within) : (ungetRecBuffer b count).Within := by
  obtain ⟨hle, hsize⟩ := h
  rw [ungetRecBuffer]
  split
  · exact ⟨(Nat.sub_le ..).trans hle, hsize⟩
  split
  · exact ⟨(Nat.sub_le ..).trans hle, hsize⟩
  · exact ⟨hle, hsize⟩

end Rules

end Lirc
