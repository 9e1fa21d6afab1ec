import Lirc.Remote
import Lirc.Library.Extent

/-!
`hw_uirt2_raw.c`: a signal as the bytes of a raw transmission. A sample that is too
long for a byte is split, and the bound of the loop over the samples moves with each
part, so that the loop may leave the samples behind.
-/

namespace Lirc

namespace Uirt2

open Extent

/-- `UIRT2_UNIT` -/
def unit : ℤ := 50

/-- `UCHAR_MAX` -/
def ucharMax : ℤ := 255

/-- `uirt2_calc_freq` -/
def calcFreq (freq : ℕ) : UInt8 :=
  if 39000 < freq then 0x00 else if 37000 < freq then 0x40 else 0xC0

/-- The bytes that have been written to `tmp`, and the bound of the loop. -/
structure RawTx where
  tmp : List UInt8
  length : ℕ
  deriving DecidableEq, Repr

/-- The loop over the parts of a sample; `false` is a transmission that is too long. -/
def splitSample (val : ℤ) (s : RawTx) : Bool × RawTx :=
  if 0 < val then
    if ucharMax < val then
      -- 0 would not work
      let s := { tmp := s.tmp ++ [254, 1], length := s.length + 2 }
      if 48 + 2 < s.tmp.length then (false, s) else splitSample (val - ucharMax) s
    else
      let s := { s with tmp := s.tmp ++ [val.toNat.toUInt8] }
      if 48 + 2 < s.tmp.length then (false, s) else (true, s)
  else (true, s)
termination_by val.toNat
decreasing_by
  rename_i hlong _
  simp only [ucharMax] at hlong ⊢
  omega

/-- A sample that is not too long moves the bound by less than it writes. -/
theorem splitSample_progress {val : ℤ} {s : RawTx} (hpos : 0 < val)
    (h : (splitSample val s).1 = true) :
    (splitSample val s).2.tmp.length ≤ 50 ∧ s.tmp.length < (splitSample val s).2.tmp.length ∧
      (splitSample val s).2.length + s.tmp.length <
        s.length + (splitSample val s).2.tmp.length := by
  induction val, s using splitSample.induct with
  | case1 val s hpos hlong s' hfull =>
      rw [splitSample, if_pos hpos, if_pos hlong, if_pos hfull] at h
      cases h
  | case2 val s hpos hlong s' hfits ih =>
      rw [splitSample, if_pos hpos, if_pos hlong, if_neg hfits] at h ⊢
      have hlength : s'.length = s.length + 2 := rfl
      have htmp : s'.tmp.length = s.tmp.length + 2 := by
        simp only [s', List.length_append, List.length_cons, List.length_nil]
      obtain ⟨hle, hmore, hlt⟩ := ih (by omega) h
      show (splitSample (val - ucharMax) s').2.tmp.length ≤ 50 ∧ _ <
        (splitSample (val - ucharMax) s').2.tmp.length ∧
          (splitSample (val - ucharMax) s').2.length + _ <
            _ + (splitSample (val - ucharMax) s').2.tmp.length
      omega
  | case3 val s hpos hshort s' hfull =>
      rw [splitSample, if_pos hpos, if_neg hshort, if_pos hfull] at h
      cases h
  | case4 val s hpos hshort s' hfits =>
      rw [splitSample, if_pos hpos, if_neg hshort, if_neg hfits]
      have htmp : s'.tmp.length = s.tmp.length + 1 := by
        simp only [s', List.length_append, List.length_cons, List.length_nil]
      have hlength : s'.length = s.length := rfl
      show s'.tmp.length ≤ 50 ∧ _ < s'.tmp.length ∧ s'.length + _ < _ + s'.tmp.length
      omega
  | case5 val s hneg => exact absurd hpos hneg

/-- The loop over the samples: `mem` is what lies at `buf` and behind it. The last part
of the result are the indices at which it is read. -/
def rawLoop (mem : ℕ → ℤ) (i : ℕ) (s : RawTx) : Bool × RawTx × List ℕ :=
  if i < s.length then
    if h : (splitSample ((mem i).tdiv unit) s).1 = true then
      let out := rawLoop mem (i + 1) (splitSample ((mem i).tdiv unit) s).2
      (out.1, out.2.1, i :: out.2.2)
    else (false, (splitSample ((mem i).tdiv unit) s).2, [i])
  else (true, s, [])
termination_by (s.length - i) + (50 - s.tmp.length)
decreasing_by
  by_cases hpos : 0 < (mem i).tdiv unit
  · obtain ⟨hle, hmore, hlt⟩ := splitSample_progress hpos h
    omega
  · rw [splitSample, if_neg hpos]
    show s.length - (i + 1) + (50 - s.tmp.length) < _
    omega

/-- The parts of a sample as bytes: pairs that stand for 255 units, and the rest. -/
def encodeSample (v : ℕ) : List UInt8 :=
  (List.replicate ((v - 1) / 255) [254, 1]).flatten ++ [(v - 255 * ((v - 1) / 255)).toUInt8]

theorem encodeSample_short {v : ℕ} (hpos : 0 < v) (h : v ≤ 255) : encodeSample v = [v.toUInt8] := by
  have hzero : (v - 1) / 255 = 0 := Nat.div_eq_of_lt (by omega)
  rw [encodeSample, hzero]
  rfl

theorem encodeSample_long {v : ℕ} (h : 255 < v) :
    encodeSample v = [254, 1] ++ encodeSample (v - 255) := by
  have hpairs : (v - 1) / 255 = (v - 255 - 1) / 255 + 1 := by omega
  have hrest : v - 255 * ((v - 255 - 1) / 255 + 1) = v - 255 - 255 * ((v - 255 - 1) / 255) := by
    omega
  rw [encodeSample, encodeSample, hpairs, hrest, List.replicate_succ, List.flatten_cons,
    List.append_assoc]

theorem length_encodeSample (v : ℕ) : (encodeSample v).length = 2 * ((v - 1) / 255) + 1 := by
  have hpairs : ∀ n : ℕ, (List.replicate n ([254, 1] : List UInt8)).flatten.length = 2 * n := by
    intro n
    induction n with
    | zero => rfl
    | succ n ih =>
        rw [List.replicate_succ, List.flatten_cons, List.length_append, ih]
        simp only [List.length_cons, List.length_nil]
        omega
  rw [encodeSample, List.length_append, hpairs, List.length_singleton]

/-- What becomes of one sample. -/
theorem splitSample_spec {v : ℕ} (hv : 0 < v) (s : RawTx) (hs : s.tmp.length ≤ 50) :
    (s.tmp.length + (encodeSample v).length ≤ 50 → splitSample v s =
      (true, ⟨s.tmp ++ encodeSample v, s.length + 2 * ((v - 1) / 255)⟩)) ∧
    (50 < s.tmp.length + (encodeSample v).length →
      (splitSample v s).1 = false ∧ (splitSample v s).2.tmp.length ≤ 52) := by
  induction v using Nat.strong_induction_on generalizing s with
  | _ v ih =>
      have hpos : (0 : ℤ) < v := by omega
      rw [splitSample, if_pos hpos, ucharMax]
      by_cases hlong : 255 < v
      · have hlong' : (255 : ℤ) < v := by omega
        rw [if_pos hlong', encodeSample_long hlong]
        simp only [List.length_append, List.length_cons, List.length_nil]
        have hless : ((v : ℤ) - 255) = ((v - 255 : ℕ) : ℤ) := by omega
        have hpairs : (v - 1) / 255 = (v - 255 - 1) / 255 + 1 := by omega
        have hbyte := length_encodeSample (v - 255)
        by_cases hfull : 48 + 2 < s.tmp.length + (0 + 1 + 1)
        · rw [if_pos hfull]
          refine ⟨fun hfits => by omega, fun _ => ⟨rfl, ?_⟩⟩
          simp only [List.length_append, List.length_cons, List.length_nil]
          omega
        · rw [if_neg hfull, hless]
          have hs' : (s.tmp ++ [254, 1]).length ≤ 50 := by
            simp only [List.length_append, List.length_cons, List.length_nil]
            omega
          obtain ⟨hfits, hover⟩ := ih (v - 255) (by omega) (by omega)
            ⟨s.tmp ++ [254, 1], s.length + 2⟩ hs'
          simp only [List.length_append, List.length_cons, List.length_nil] at hfits hover
          refine ⟨fun h => ?_, fun h => hover (by omega)⟩
          rw [hfits (by omega), hpairs, List.append_assoc, Nat.mul_add, Nat.add_assoc]
          congr 3
          omega
      · have hshort : ¬ (255 : ℤ) < v := by omega
        rw [if_neg hshort, encodeSample_short hv (by omega)]
        have hzero : (v - 1) / 255 = 0 := Nat.div_eq_of_lt (by omega)
        simp only [List.length_append, List.length_cons, List.length_nil, hzero, Int.toNat_natCast]
        constructor
        · intro hfits
          rw [if_neg (by omega)]
          rfl
        · intro hfull
          rw [if_pos (by omega)]
          exact ⟨rfl, by simp only [List.length_append, List.length_cons, List.length_nil]; omega⟩

/-- What `uirt2_send_mode2_raw` hands to `uirt2_send_raw`, unless the signal is too
long; how many bytes of `tmp` it writes, and where it reads `buf`. -/
structure RawSend where
  sent : Option (List UInt8)
  written : ℕ
  reads : List ℕ

/-- `uirt2_send_mode2_raw` -/
def sendMode2Raw (freq : ℕ) (mem : ℕ → ℤ) (length : ℕ) : RawSend :=
  let out := rawLoop mem 0 { tmp := [0, 0], length := length }
  let tmp := out.2.1.tmp ++ if out.1 then [calcFreq freq + 1] else []
  { sent := if out.1 then some tmp else none
    written := tmp.length
    reads := out.2.2 }

/-- The samples as bytes. -/
def encodeSamples (buf : List ℤ) : List UInt8 :=
  buf.flatMap fun x => encodeSample (x / unit).toNat

/-- The bytes of a signal are those of its samples, and a signal is rejected when they
are too many. Nothing is read behind the samples nor written behind `tmp`. -/
structure EncodesRaw (freq : ℕ) (buf : List ℤ) (out : RawSend) : Prop where
  sent : out.sent = if (encodeSamples buf).length ≤ 48 then
      some ([0, 0] ++ encodeSamples buf ++ [calcFreq freq + 1]) else none
  reads : ∀ i ∈ out.reads, i < buf.length
  written : out.written ≤ 64

/-! ### The loop over the samples -/

section Loop

variable {buf : List ℤ} {beyond : ℕ → ℤ}

/-- The units of a sample that is long enough. -/
theorem units_of_le {x : ℤ} (h : unit ≤ x) :
    x.tdiv unit = ((x / unit).toNat : ℤ) ∧ 0 < (x / unit).toNat := by
  have hunit : (unit : ℤ) = 50 := rfl
  rw [hunit] at h ⊢
  rw [Int.tdiv_eq_ediv_of_nonneg (by omega)]
  omega

/-- How far the bound of the loop is moved. -/
def extraBound (buf : List ℤ) : ℕ := (buf.map fun x => 2 * (((x / unit).toNat - 1) / 255)).sum

/-- The loop goes on after the samples `rest` if they fit. -/
theorem rawLoop_fits (pre rest : List ℤ) (beyond : ℕ → ℤ) (s : RawTx)
    (hrest : ∀ x ∈ rest, unit ≤ x) (hlength : pre.length + rest.length ≤ s.length)
    (hfits : s.tmp.length + (encodeSamples rest).length ≤ 50) :
    let after := rawLoop (memory (pre ++ rest) beyond) (pre.length + rest.length)
      { tmp := s.tmp ++ encodeSamples rest, length := s.length + extraBound rest }
    rawLoop (memory (pre ++ rest) beyond) pre.length s =
      (after.1, after.2.1, List.range' pre.length rest.length ++ after.2.2) := by
  induction rest generalizing pre s with
  | nil => simp [encodeSamples, extraBound]
  | cons x rest ih =>
      obtain ⟨hx, hrest⟩ := List.forall_mem_cons.mp hrest
      obtain ⟨hunits, hpos⟩ := units_of_le hx
      have hencode : encodeSamples (x :: rest) =
          encodeSample (x / unit).toNat ++ encodeSamples rest := rfl
      have hbound : extraBound (x :: rest) =
          2 * (((x / unit).toNat - 1) / 255) + extraBound rest := by
        rw [extraBound, List.map_cons, List.sum_cons, extraBound]
      have hsnoc : pre ++ x :: rest = (pre ++ [x]) ++ rest := by
        rw [List.append_assoc, List.singleton_append]
      have hindex : pre.length + (x :: rest).length = (pre ++ [x]).length + rest.length := by
        simp only [List.length_append, List.length_cons, List.length_nil]
        omega
      rw [hencode, List.length_append] at hfits
      have hsplit := (splitSample_spec hpos s (by omega)).1 (by omega)
      have hnext := ih (pre ++ [x]) ⟨s.tmp ++ encodeSample (x / unit).toNat,
        s.length + 2 * (((x / unit).toNat - 1) / 255)⟩ hrest (by show _ ≤ s.length + _; omega) (by
          rw [List.length_append]
          omega)
      rw [List.length_cons] at hlength
      have hsucc : pre.length + 1 = (pre ++ [x]).length := by
        rw [List.length_append, List.length_singleton]
      rw [← hsnoc, ← hindex, List.append_assoc, Nat.add_assoc, ← hencode, ← hbound] at hnext
      intro after
      rw [rawLoop, if_pos (by omega), memory_append, hunits, hsplit, dif_pos rfl, hsucc]
      dsimp only
      rw [hnext, List.length_cons, List.range'_succ, hsucc]
      rfl

/-- The loop rejects the signal before it is through with the samples `rest`. -/
theorem rawLoop_full (pre rest : List ℤ) (beyond : ℕ → ℤ) (s : RawTx)
    (hrest : ∀ x ∈ rest, unit ≤ x) (htmp : s.tmp.length ≤ 50)
    (hlength : pre.length + rest.length ≤ s.length)
    (hfull : 50 < s.tmp.length + (encodeSamples rest).length) :
    let out := rawLoop (memory (pre ++ rest) beyond) pre.length s
    out.1 = false ∧ out.2.1.tmp.length ≤ 52 ∧ ∀ i ∈ out.2.2, i < pre.length + rest.length := by
  induction rest generalizing pre s with
  | nil =>
      have hnil : (encodeSamples []).length = 0 := rfl
      omega
  | cons x rest ih =>
      obtain ⟨hx, hrest⟩ := List.forall_mem_cons.mp hrest
      obtain ⟨hunits, hpos⟩ := units_of_le hx
      have hencode : encodeSamples (x :: rest) =
          encodeSample (x / unit).toNat ++ encodeSamples rest := rfl
      have hsnoc : pre ++ x :: rest = (pre ++ [x]) ++ rest := by
        rw [List.append_assoc, List.singleton_append]
      have hsucc : pre.length + 1 = (pre ++ [x]).length := by
        rw [List.length_append, List.length_singleton]
      rw [hencode, List.length_append] at hfull
      rw [List.length_cons] at hlength ⊢
      obtain ⟨hfits, hover⟩ := splitSample_spec hpos s htmp
      rw [rawLoop, if_pos (by omega), memory_append, hunits]
      -- does already this sample not fit?
      rcases Nat.lt_or_ge 50 (s.tmp.length + (encodeSample (x / unit).toNat).length) with h | h
      · obtain ⟨hfalse, hle⟩ := hover h
        rw [dif_neg (by rw [hfalse]; exact Bool.false_ne_true)]
        refine ⟨rfl, hle, fun i hi => ?_⟩
        rw [List.mem_singleton.mp hi]
        omega
      · have hnext := ih (pre ++ [x]) ⟨s.tmp ++ encodeSample (x / unit).toNat,
          s.length + 2 * (((x / unit).toNat - 1) / 255)⟩ hrest
          (by rw [List.length_append]; exact h)
          (by rw [← hsucc]; show _ ≤ s.length + _; omega)
          (by rw [List.length_append]; omega)
        rw [← hsnoc, ← hsucc] at hnext
        rw [hfits h, dif_pos rfl]
        obtain ⟨hfalse, hle, hreads⟩ := hnext
        refine ⟨hfalse, hle, fun i hi => ?_⟩
        rcases List.mem_cons.mp hi with rfl | hi
        · omega
        · have hi' := hreads i hi
          omega

theorem extraBound_eq_zero {buf : List ℤ} (hbuf : ∀ x ∈ buf, unit ≤ x) :
    extraBound buf = 0 ↔ ∀ x ∈ buf, x / unit ≤ ucharMax := by
  have hmax : ucharMax = 255 := rfl
  rw [extraBound, List.sum_eq_zero_iff_forall_eq_nat]
  simp only [List.mem_map, forall_exists_index, and_imp, forall_apply_eq_imp_iff₂]
  refine forall₂_congr fun x hx => ?_
  obtain ⟨-, hpos⟩ := units_of_le (hbuf x hx)
  rw [hmax]
  omega

/-- While the bound is ahead of the index, the loop reads there. -/
theorem mem_rawLoop_reads {mem : ℕ → ℤ} {i : ℕ} {s : RawTx} (h : i < s.length) :
    i ∈ (rawLoop mem i s).2.2 := by
  rw [rawLoop, if_pos h]
  split
  · exact List.mem_cons_self
  · exact List.mem_singleton_self i

/-- The loop over all samples of a buffer that fits. -/
theorem rawLoop_whole (beyond : ℕ → ℤ) (hbuf : ∀ x ∈ buf, unit ≤ x)
    (hfits : (encodeSamples buf).length ≤ 48) :
    let after := rawLoop (memory buf beyond) buf.length
      { tmp := [0, 0] ++ encodeSamples buf, length := buf.length + extraBound buf }
    rawLoop (memory buf beyond) 0 { tmp := [0, 0], length := buf.length } =
      (after.1, after.2.1, List.range' 0 buf.length ++ after.2.2) := by
  have h := rawLoop_fits [] buf beyond { tmp := [0, 0], length := buf.length } hbuf
    (by rw [List.length_nil, Nat.zero_add])
    (by simp only [List.length_cons, List.length_nil]; omega)
  rw [List.nil_append, List.length_nil, Nat.zero_add] at h
  exact h

/-- Once the index has reached the bound, the loop ends. -/
theorem rawLoop_stop {mem : ℕ → ℤ} {i : ℕ} {s : RawTx} (h : s.length ≤ i) :
    rawLoop mem i s = (true, s, []) := by
  rw [rawLoop, if_neg (by omega)]

/-- A signal of which no sample is split is sent as it should. -/
theorem encodesRaw_of_unsplit (freq : ℕ) (beyond : ℕ → ℤ) (hbuf : ∀ x ∈ buf, unit ≤ x)
    (hfits : (encodeSamples buf).length ≤ 48) (hextra : extraBound buf = 0) :
    EncodesRaw freq buf (sendMode2Raw freq (memory buf beyond) buf.length) := by
  have hloop := rawLoop_whole beyond hbuf hfits
  have hstop : rawLoop (memory buf beyond) buf.length
      { tmp := [0, 0] ++ encodeSamples buf, length := buf.length } =
        (true, { tmp := [0, 0] ++ encodeSamples buf, length := buf.length }, []) :=
    rawLoop_stop (Nat.le_refl _)
  rw [hextra, Nat.add_zero, hstop] at hloop
  dsimp only at hloop
  rw [List.append_nil] at hloop
  rw [sendMode2Raw, hloop]
  refine ⟨(if_pos hfits).symm, fun i hi => ?_, ?_⟩
  · have hi' := List.mem_range'_1.mp hi
    omega
  · simp only [if_true, List.length_append, List.length_cons, List.length_nil]
    omega

/-- A signal that is too long is rejected. -/
theorem encodesRaw_of_full (freq : ℕ) (beyond : ℕ → ℤ) (hbuf : ∀ x ∈ buf, unit ≤ x)
    (hfull : 48 < (encodeSamples buf).length) :
    EncodesRaw freq buf (sendMode2Raw freq (memory buf beyond) buf.length) := by
  obtain ⟨hfalse, hle, hreads⟩ := rawLoop_full [] buf beyond
    { tmp := [0, 0], length := buf.length } hbuf (show 2 ≤ 50 by decide)
    (by rw [List.length_nil, Nat.zero_add])
    (by simp only [List.length_cons, List.length_nil]; omega)
  rw [List.nil_append, List.length_nil] at hfalse hle hreads
  rw [Nat.zero_add] at hreads
  refine ⟨?_, hreads, ?_⟩
  · rw [sendMode2Raw, hfalse]
    exact (if_neg (by omega)).symm
  · rw [sendMode2Raw, hfalse]
    simp only [Bool.false_eq_true, if_false, List.append_nil]
    omega

/-- A split sample makes the loop read behind the samples. -/
theorem reads_beyond_of_split (freq : ℕ) (beyond : ℕ → ℤ) (hbuf : ∀ x ∈ buf, unit ≤ x)
    (hfits : (encodeSamples buf).length ≤ 48) (hextra : 0 < extraBound buf) :
    buf.length ∈ (sendMode2Raw freq (memory buf beyond) buf.length).reads := by
  have hread : buf.length ∈ (rawLoop (memory buf beyond) 0
      { tmp := [0, 0], length := buf.length }).2.2 := by
    rw [rawLoop_whole beyond hbuf hfits]
    apply List.mem_append_right
    apply mem_rawLoop_reads
    show buf.length < buf.length + extraBound buf
    omega
  exact hread

end Loop

/-- `uirt2_send_mode2_raw` encodes the samples of the buffer exactly if none of them is
split, or the signal is rejected while the loop is still among them. -/
theorem sendMode2Raw_encodes_iff (freq : ℕ) (buf : List ℤ) (beyond : ℕ → ℤ)
    (hbuf : ∀ x ∈ buf, unit ≤ x) :
    EncodesRaw freq buf (sendMode2Raw freq (memory buf beyond) buf.length) ↔
      (∀ x ∈ buf, x / unit ≤ ucharMax) ∨ 48 < (encodeSamples buf).length := by
  rw [← extraBound_eq_zero hbuf]
  rcases Nat.lt_or_ge 48 (encodeSamples buf).length with hfull | hfits
  · exact ⟨fun _ => .inr hfull, fun _ => encodesRaw_of_full freq beyond hbuf hfull⟩
  · constructor
    · intro h
      by_contra hnot
      obtain ⟨hsplit, -⟩ := not_or.mp hnot
      have hread := h.reads _ (reads_beyond_of_split freq beyond hbuf hfits (by omega))
      omega
    · rintro (hextra | hfull)
      · exact encodesRaw_of_unsplit freq beyond hbuf hfits hextra
      · omega

/-- A pulse, a space and a pulse of a few milliseconds. -/
theorem sendMode2Raw_encodes_short :
    EncodesRaw 38000 [9000, 4500, 560]
      (sendMode2Raw 38000 (memory [9000, 4500, 560] fun _ => 0) 3) :=
  (sendMode2Raw_encodes_iff 38000 [9000, 4500, 560] (fun _ => 0) (by decide)).mpr
    (.inl (by decide))

/-- A space of 13 ms between two pulses is split, and two samples behind the buffer are
sent too. -/
theorem sendMode2Raw_not_encodes :
    ¬ EncodesRaw 38000 [560, 13000, 560]
      (sendMode2Raw 38000 (memory [560, 13000, 560] fun _ => 560) 3) := by
  intro h
  have hread := h.reads 3
    (reads_beyond_of_split 38000 (fun _ => 560) (by decide) (by decide) (by decide))
  exact absurd hread (by decide)

end Uirt2

end Lirc
