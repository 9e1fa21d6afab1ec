import Lirc.Uirt2
import Lirc.Library.Palette

/-!
`hw_uirt2_raw.c`: a signal as a structure for the transmitter. Every sample behind the
header becomes a bit, which selects one of two lengths. The two tables of lengths, for
marks and for spaces, are filled on the way; a space that fits neither of its lengths may
be the gap before a repetition, and ends the structure.
-/

namespace Lirc

namespace Uirt2

open Palette

/-- `byte_t` -/
abbrev Byte := BitVec 8

/-- `UIRT2_MAX_BITS` -/
def maxBits : ℕ := 16 * 8

/-- `DEFAULT_FREQ` -/
def defaultFreq : ℕ := 38000

/-- `remstruct1_data_t`. The last element of `bDatBits` is `bCheck`, which lies behind it. -/
structure RemStruct1 where
  bISDlyHi : Byte
  bISDlyLo : Byte
  bBits : Byte
  bHdr1 : Byte
  bHdr0 : Byte
  bOff0 : Byte
  bOff1 : Byte
  bOn0 : Byte
  bOn1 : Byte
  bDatBits : List Byte
  deriving DecidableEq, Repr

/-- The unit of a transmission, in microseconds. -/
def tUnit (version freq : ℕ) : ℤ :=
  if 0x0905 ≤ version then
    let bFrequency :=
      if 0x80 ≤ (5000000 / freq + 1) / 2 then 0x80 else (5000000 / freq + 1) / 2
    ((bFrequency * 100 / 125 : ℕ) : ℤ)
  else unit

def setDataBit (dest : List Byte) (offset bit : ℕ) : List Byte :=
  let i := offset / 8
  let mask := (1 : Byte) <<< (offset % 8)
  let src := dest.getD i 0
  dest.set i (if bit ≠ 0 then src ||| mask else src &&& ~~~mask)

section Calc

variable (hw : Hardware) (r : IrRemote) (t : ℤ)

/-- The bit of a sample, and the table after that; `none` is -1. -/
def calcDataBit : List ℤ → ℤ → Option (ℕ × List ℤ)
  | [], _ => none
  | v :: table, signal =>
      if v = 0 then some (0, signal.tdiv t :: table)
      else if expect hw r signal (v * t) then some (0, v :: table)
      else (calcDataBit table signal).map fun out => (out.1 + 1, v :: out.2)

/-- The variables of the loop. `stored` are the offsets that `set_data_bit` has been given. -/
structure StructTx where
  bHdr1 : Byte := 0
  bHdr0 : Byte := 0
  bDatBits : List Byte := List.replicate (maxBits / 8 + 1) 0
  marks : List ℤ := [0, 0]
  spaces : List ℤ := [0, 0]
  bits : ℕ := 0
  stored : List ℕ := []
  deriving DecidableEq, Repr

/-- `table[i % 2]` -/
def StructTx.table (s : StructTx) (i : ℕ) : List ℤ := if i % 2 = 0 then s.marks else s.spaces

def StructTx.setTable (s : StructTx) (i : ℕ) (table : List ℤ) : StructTx :=
  if i % 2 = 0 then { s with marks := table } else { s with spaces := table }

/-- What `memcmp` compares of a repetition. -/
def sameBlock (buf : List ℤ) (partLength repeats j : ℕ) : Bool :=
  let count := if j + 1 = repeats then partLength - 1 else partLength
  buf.take count == (buf.drop (j * partLength)).take count

/-- How often the first `partLength` samples are repeated. -/
def repetitions (buf : List ℤ) (partLength : ℕ) : Option ℕ :=
  if (buf.length + 1) % partLength ≠ 0 then none
  else
    let repeats := (buf.length + 1) / partLength
    if (List.range' 1 (repeats - 1)).all (sameBlock buf partLength repeats) then some repeats
    else none

/-- The loop over the samples, with `repeats`. -/
def structLoop (buf : List ℤ) : List ℤ → ℕ → StructTx → Option (StructTx × ℕ)
  | [], _, s => some (s, 1)
  | x :: rest, i, s =>
      let len := x.tdiv t
      if ucharMax < len then none
      else if i = 0 then structLoop buf rest (i + 1) { s with bHdr1 := BitVec.ofInt 8 len }
      else if i = 1 then structLoop buf rest (i + 1) { s with bHdr0 := BitVec.ofInt 8 len }
      else
        match calcDataBit hw r t (s.table i) x with
        | none =>
            -- is this a repeated signal sequence?
            if ¬(i % 2 = 1 ∧ x = r.minRemainingGap) then none
            else (repetitions buf (i + 1)).map fun repeats => (s, repeats)
        | some (bit, table) =>
            if maxBits < i - 2 then none
            else
              let s := s.setTable i table
              structLoop buf rest (i + 1)
                { s with
                  bDatBits := setDataBit s.bDatBits (i - 2) bit
                  bits := s.bits + 1
                  stored := s.stored ++ [i - 2] }

/-- The call of `uirt2_send_struct1`, and the offsets at which bits have been stored. -/
structure StructSend where
  freq : ℕ
  repeats : ℕ
  rem : RemStruct1
  stored : List ℕ
  deriving DecidableEq, Repr

/-- The structure that is sent. -/
def structOf (s : StructTx) : RemStruct1 where
  bISDlyHi := BitVec.ofInt 8 ((r.minRemainingGap.tdiv t).tdiv 256)
  bISDlyLo := BitVec.ofInt 8 (r.minRemainingGap.tdiv t)
  bBits := BitVec.ofNat 8 s.bits
  bHdr1 := s.bHdr1
  bHdr0 := s.bHdr0
  bOff0 := BitVec.ofInt 8 (s.spaces.getD 0 0)
  bOff1 := BitVec.ofInt 8 (s.spaces.getD 1 0)
  bOn0 := BitVec.ofInt 8 (s.marks.getD 0 0)
  bOn1 := BitVec.ofInt 8 (s.marks.getD 1 0)
  bDatBits := s.bDatBits

/-- `freq` of a remote. -/
def freqOf (freq : ℕ) : ℕ := if freq = 0 then defaultFreq else freq

end Calc

/-- `uirt2_send_mode2_struct1`; `none` is a transmission that is given up. There is none
either with a unit of 0, by which it divides, nor without a version. -/
def sendMode2Struct1 (hw : Hardware) (r : IrRemote) (version : Option ℕ) (freq : ℕ)
    (buf : List ℤ) : Option StructSend := do
  let version ← version
  let freq := freqOf freq
  let t := tUnit version freq
  if t = 0 then none
  else
    let (s, repeats) ← structLoop hw r t buf buf 0 {}
    some { freq, repeats, rem := structOf r t s, stored := s.stored }

/-! ### What a structure stands for -/

/-- A bit of the structure. -/
def dataBit (dest : List Byte) (k : ℕ) : Bool := (dest.getD (k / 8) 0).getLsbD (k % 8)

/-- The length that a bit selects, as `calc_bits_length` takes it. -/
def bitTime (rem : RemStruct1) (k : ℕ) : ℤ :=
  let time :=
    if k % 2 = 1 then if dataBit rem.bDatBits k then rem.bOff1 else rem.bOff0
    else if dataBit rem.bDatBits k then rem.bOn1 else rem.bOn0
  time.toNat

/-- The header and the bits, in units. -/
def structBlock (rem : RemStruct1) : List ℤ :=
  (rem.bHdr1.toNat : ℤ) :: (rem.bHdr0.toNat : ℤ) ::
    (List.range rem.bBits.toNat).map (bitTime rem)

def structDelay (rem : RemStruct1) : ℤ := 256 * rem.bISDlyHi.toNat + rem.bISDlyLo.toNat

/-- The whole transmission, with the delay between its repetitions. -/
def expansion (out : StructSend) : List ℤ :=
  (List.replicate out.repeats (structBlock out.rem ++ [structDelay out.rem])).flatten.dropLast

/-- A number of units gives back a sample: it is its length in units, or is taken for it. -/
def GivesBack (hw : Hardware) (r : IrRemote) (t v x : ℤ) : Prop :=
  x.tdiv t = v ∨ expect hw r x (v * t) = true

/-- What has been sent gives back the samples, and nothing but empty ones behind them; it
counts the bits that have been stored, all of them inside `bDatBits`. -/
structure EncodesStruct (hw : Hardware) (r : IrRemote) (t : ℤ) (buf : List ℤ)
    (out : StructSend) : Prop where
  samples : List.Forall₂ (GivesBack hw r t) ((expansion out).take buf.length) buf
  ends : ∀ v ∈ (expansion out).drop buf.length, v = 0
  bits : out.rem.bBits.toNat = out.stored.length
  capacity : ∀ offset ∈ out.stored, offset < maxBits

/-- In each beginning of the samples whose spaces have at most two lengths: there are not
too many of them, and those that are shorter than a unit come out right, each before the
first longer one that takes its slot. -/
def ShortSamplesFit (hw : Hardware) (r : IrRemote) (t : ℤ) (samples : List ℤ) : Prop :=
  let round (x : ℤ) := x.tdiv t
  let near (x v : ℤ) := expect hw r x (v * t)
  ∀ part, part <+: samples → others 0 round near (others 0 round near (odds part)) = [] →
    part.length ≤ maxBits ∧
      Fits 0 round near (evens part) ∧ Fits 0 round near (others 0 round near (evens part)) ∧
      Fits 0 round near (odds part) ∧ Fits 0 round near (others 0 round near (odds part))

/-! ### The bits -/

section Bits

variable {dest : List Byte} {k m bit : ℕ}

@[simp] theorem length_setDataBit : (setDataBit dest k bit).length = dest.length := by
  rw [setDataBit, List.length_set]

theorem oneShl_byte {n j : ℕ} (hj : j < 8) : ((1 : Byte) <<< n).getLsbD j = decide (j = n) := by
  have hone : ∀ i, ((1 : Byte)).getLsbD i = decide (i = 0) := fun i => by
    simp [BitVec.getLsbD_one]
  rw [BitVec.getLsbD_shiftLeft, hone, decide_eq_true hj, Bool.true_and]
  by_cases h : j < n
  · rw [decide_eq_true h, decide_eq_false (Nat.ne_of_lt h), Bool.not_true, Bool.false_and]
  · rw [decide_eq_false h, Bool.not_false, Bool.true_and]
    exact decide_eq_decide.mpr ⟨fun _ => by omega, fun _ => by omega⟩

theorem dataBit_setDataBit (hk : k / 8 < dest.length) :
    dataBit (setDataBit dest k bit) m = if m = k then decide (bit ≠ 0) else dataBit dest m := by
  by_cases hi : m / 8 = k / 8
  · have hget : (setDataBit dest k bit).getD (m / 8) 0 =
        if bit ≠ 0 then dest.getD (k / 8) 0 ||| (1 : Byte) <<< (k % 8)
        else dest.getD (k / 8) 0 &&& ~~~((1 : Byte) <<< (k % 8)) := by
      rw [setDataBit, hi, List.getD_eq_getElem?_getD, List.getElem?_set_self hk, Option.getD_some]
    have hlt : m % 8 < 8 := Nat.mod_lt m (by decide)
    rw [dataBit, hget, dataBit, hi]
    by_cases hm : m = k
    · subst hm
      rw [if_pos rfl]
      split
      · next hbit => simp only [BitVec.getLsbD_or, oneShl_byte hlt, hbit, ne_eq, not_false_eq_true,
          decide_true, Bool.or_true]
      · next hbit => simp only [BitVec.getLsbD_and, BitVec.getLsbD_not, oneShl_byte hlt, hbit,
          decide_true, Bool.not_true, Bool.and_false, decide_false]
    · have hne : m % 8 ≠ k % 8 := by omega
      rw [if_neg hm]
      split
      · simp only [BitVec.getLsbD_or, oneShl_byte hlt, hne, decide_false, Bool.or_false]
      · simp only [BitVec.getLsbD_and, BitVec.getLsbD_not, oneShl_byte hlt, hne, hlt, decide_true,
          decide_false, Bool.not_false, Bool.and_true]
  · have hm : m ≠ k := fun h => hi (by rw [h])
    rw [if_neg hm, dataBit, dataBit, setDataBit, List.getD_eq_getElem?_getD,
      List.getElem?_set_ne (Ne.symm hi), ← List.getD_eq_getElem?_getD]

/-- Bits are stored one behind the other. -/
def writeBits (dest : List Byte) (offset : ℕ) : List ℕ → List Byte
  | [] => dest
  | bit :: bits => writeBits (setDataBit dest offset bit) (offset + 1) bits

theorem dataBit_writeBits_of_lt {offset : ℕ} {bits : List ℕ}
    (hfits : offset + bits.length ≤ 8 * dest.length) (hm : m < offset) :
    dataBit (writeBits dest offset bits) m = dataBit dest m := by
  induction bits generalizing dest offset with
  | nil => rfl
  | cons bit bits ih =>
      rw [List.length_cons] at hfits
      rw [writeBits, ih (by rw [length_setDataBit]; omega) (by omega),
        dataBit_setDataBit (by omega), if_neg (by omega)]

theorem dataBit_writeBits {offset : ℕ} {bits : List ℕ}
    (hfits : offset + bits.length ≤ 8 * dest.length) (hk : k < bits.length) :
    dataBit (writeBits dest offset bits) (offset + k) = decide (bits.getD k 0 ≠ 0) := by
  induction bits generalizing dest offset k with
  | nil => exact absurd hk (Nat.not_lt_zero k)
  | cons bit bits ih =>
      rw [List.length_cons] at hfits hk
      rw [writeBits]
      cases k with
      | zero =>
          rw [dataBit_writeBits_of_lt (by rw [length_setDataBit]; omega) (by omega),
            dataBit_setDataBit (by omega), if_pos (Nat.add_zero offset)]
          rfl
      | succ k =>
          rw [show offset + (k + 1) = offset + 1 + k by omega,
            ih (by rw [length_setDataBit]; omega) (by omega)]
          rfl

end Bits

/-! ### The loop -/

section Loop

variable {hw : Hardware} {r : IrRemote} {t : ℤ}

/-- A length in units. -/
abbrev inUnits (t x : ℤ) : ℤ := x.tdiv t

/-- A sample is taken for a number of units. -/
abbrev takenFor (hw : Hardware) (r : IrRemote) (t x v : ℤ) : Bool := expect hw r x (v * t)

theorem calcDataBit_eq (table : List ℤ) (x : ℤ) :
    calcDataBit hw r t table x = enter 0 (inUnits t) (takenFor hw r t) table x := by
  induction table with
  | nil => rfl
  | cons v table ih => rw [calcDataBit, enter, ih]

theorem table_add_two (s : StructTx) (i : ℕ) : s.table (i + 2) = s.table i := by
  rw [StructTx.table, StructTx.table, Nat.add_mod_right]

/-- The table of the samples from `i` on, and the other one. -/
theorem setTable_table (s : StructTx) (i : ℕ) (table : List ℤ) :
    (s.setTable i table).table (i + 1) = s.table (i + 1) ∧
      (s.setTable i table).table (i + 2) = table := by
  rcases Nat.mod_two_eq_zero_or_one i with hi | hi
  · have h1 : (i + 1) % 2 ≠ 0 := by omega
    have h2 : (i + 2) % 2 = 0 := by omega
    rw [StructTx.setTable, if_pos hi, StructTx.table, if_neg h1, StructTx.table, if_neg h1,
      StructTx.table, if_pos h2]
    exact ⟨rfl, rfl⟩
  · have h0 : i % 2 ≠ 0 := by omega
    have h1 : (i + 1) % 2 = 0 := by omega
    have h2 : (i + 2) % 2 ≠ 0 := by omega
    rw [StructTx.setTable, if_neg h0, StructTx.table, if_pos h1, StructTx.table, if_pos h1,
      StructTx.table, if_neg h2]
    exact ⟨rfl, rfl⟩

@[simp] theorem setTable_bDatBits (s : StructTx) (i : ℕ) (table : List ℤ) :
    (s.setTable i table).bDatBits = s.bDatBits := by
  rw [StructTx.setTable]
  split <;> rfl

@[simp] theorem setTable_bits (s : StructTx) (i : ℕ) (table : List ℤ) :
    (s.setTable i table).bits = s.bits := by
  rw [StructTx.setTable]
  split <;> rfl

@[simp] theorem setTable_stored (s : StructTx) (i : ℕ) (table : List ℤ) :
    (s.setTable i table).stored = s.stored := by
  rw [StructTx.setTable]
  split <;> rfl

@[simp] theorem setTable_header (s : StructTx) (i : ℕ) (table : List ℤ) :
    (s.setTable i table).bHdr1 = s.bHdr1 ∧ (s.setTable i table).bHdr0 = s.bHdr0 := by
  rw [StructTx.setTable]
  split <;> exact ⟨rfl, rfl⟩

/-- Where the loop ends: behind the last sample, or at a gap of which the samples before it
are repeated. -/
inductive Ended (hw : Hardware) (r : IrRemote) (t : ℤ) (buf : List ℤ) (s : StructTx) (i : ℕ) :
    List ℤ → ℕ → Prop
  | whole : Ended hw r t buf s i [] 1
  | repeated {rest : List ℤ} {repeats : ℕ} (hlen : r.minRemainingGap.tdiv t ≤ ucharMax)
      (hodd : i % 2 = 1)
      (henter : enter 0 (inUnits t) (takenFor hw r t) (s.table i) r.minRemainingGap = none)
      (hrepeats : repetitions buf (i + 1) = some repeats) :
      Ended hw r t buf s i (r.minRemainingGap :: rest) repeats

/-- What the loop makes of the samples behind the header: `part` are those of which it has
stored the bits. -/
structure Stored (hw : Hardware) (r : IrRemote) (t : ℤ) (s : StructTx) (i : ℕ) (part : List ℤ)
    (s' : StructTx) (is : List ℕ) : Prop where
  tables : encodeTurns 0 (inUnits t) (takenFor hw r t) (s.table i) (s.table (i + 1)) part =
    some (is, s'.table i, s'.table (i + 1))
  short : ∀ x ∈ part, x.tdiv t ≤ ucharMax
  bDatBits : s'.bDatBits = writeBits s.bDatBits (i - 2) is
  bits : s'.bits = s.bits + part.length
  stored : s'.stored = s.stored ++ List.range' (i - 2) part.length
  bound : part ≠ [] → i - 2 + part.length ≤ maxBits + 1
  header : s'.bHdr1 = s.bHdr1 ∧ s'.bHdr0 = s.bHdr0

theorem structLoop_spec {buf rest : List ℤ} {i : ℕ} {s s' : StructTx} {repeats : ℕ} (hi : 2 ≤ i)
    (h : structLoop hw r t buf rest i s = some (s', repeats)) :
    ∃ part more is, rest = part ++ more ∧ Stored hw r t s i part s' is ∧
      Ended hw r t buf s' (i + part.length) more repeats := by
  induction rest generalizing i s with
  | nil =>
      obtain ⟨rfl, rfl⟩ := Prod.mk.inj (Option.some.inj h)
      refine ⟨[], [], [], rfl, ⟨rfl, ?_, rfl, rfl, ?_, ?_, rfl, rfl⟩, .whole⟩
      · exact fun x hx => absurd hx List.not_mem_nil
      · rw [List.length_nil, List.range'_zero, List.append_nil]
      · exact fun hne => absurd rfl hne
  | cons x rest ih =>
      have h0 : i ≠ 0 := by omega
      have h1 : i ≠ 1 := by omega
      rw [structLoop] at h
      simp only [h0, h1, if_false, calcDataBit_eq] at h
      split at h
      · cases h
      next hlen =>
      split at h
      · -- The table is full: the space is the gap before a repetition.
        next henter =>
        split at h
        · cases h
        next hgap =>
        obtain ⟨hodd, rfl⟩ := not_not.mp hgap
        obtain ⟨n, hn, heq⟩ := Option.map_eq_some_iff.mp h
        obtain ⟨rfl, rfl⟩ := Prod.mk.inj heq
        refine ⟨[], _, [], rfl, ⟨rfl, ?_, rfl, rfl, ?_, ?_, rfl, rfl⟩,
          .repeated (not_lt.mp hlen) hodd henter hn⟩
        · exact fun x hx => absurd hx List.not_mem_nil
        · rw [List.length_nil, List.range'_zero, List.append_nil]
        · exact fun hne => absurd rfl hne
      · next bit table henter =>
        split at h
        · cases h
        next hbound =>
        obtain ⟨part, more, is, rfl, hstored, hended⟩ := ih (by omega) h
        obtain ⟨hother, hown⟩ := setTable_table s i table
        refine ⟨x :: part, more, bit :: is, rfl, ⟨?_, ?_, ?_, ?_, ?_, ?_, ?_⟩, ?_⟩
        · have htables := hstored.tables
          change encodeTurns 0 _ _ ((s.setTable i table).table (i + 1))
            ((s.setTable i table).table (i + 2)) part =
              some (is, s'.table (i + 1), s'.table (i + 2)) at htables
          rw [hother, hown, table_add_two] at htables
          exact encodeTurns_cons.mpr ⟨bit, table, is, henter, htables, rfl⟩
        · exact List.forall_mem_cons.mpr ⟨not_lt.mp hlen, hstored.short⟩
        · rw [hstored.bDatBits, writeBits, setTable_bDatBits, show i + 1 - 2 = i - 2 + 1 by omega]
        · rw [hstored.bits, List.length_cons]
          change (s.setTable i table).bits + 1 + part.length = _
          rw [setTable_bits]
          omega
        · rw [hstored.stored, setTable_stored, List.length_cons, List.append_assoc,
            List.range'_succ, show i + 1 - 2 = i - 2 + 1 by omega, List.singleton_append]
        · intro _
          rw [List.length_cons]
          by_cases hpart : part = []
          · rw [hpart, List.length_nil]
            omega
          · have hrest := hstored.bound hpart
            omega
        · rw [hstored.header.1, hstored.header.2]
          exact setTable_header s i table
        · rw [List.length_cons, show i + (part.length + 1) = i + 1 + part.length by omega]
          exact hended

end Loop

/-! ### Repetitions -/

theorem flatten_of_blocks {l b : List ℤ} {m n : ℕ} (hlen : l.length = n * m)
    (hblocks : ∀ j < n, (l.drop (j * m)).take m = b) : l = (List.replicate n b).flatten := by
  induction n generalizing l with
  | zero =>
      rw [Nat.zero_mul] at hlen
      exact List.length_eq_zero_iff.mp hlen
  | succ n ih =>
      have hfirst := hblocks 0 (Nat.succ_pos n)
      rw [Nat.zero_mul, List.drop_zero] at hfirst
      have hrest : l.drop m = (List.replicate n b).flatten := by
        apply ih
        · rw [List.length_drop, hlen, Nat.succ_mul, Nat.add_sub_cancel]
        · intro j hj
          rw [List.drop_drop, ← hblocks (j + 1) (Nat.succ_lt_succ hj), Nat.succ_mul, Nat.add_comm]
      rw [List.replicate_succ, List.flatten_cons, ← hrest, ← hfirst, List.take_append_drop]

/-- With one more gap behind it, a repeated signal is nothing but its repetitions. -/
theorem repetitions_spec {buf : List ℤ} {i n : ℕ} {gap : ℤ} (hgap : buf[i]? = some gap)
    (h : repetitions buf (i + 1) = some n) :
    0 < n ∧ buf ++ [gap] = (List.replicate n (buf.take (i + 1))).flatten := by
  have hi : i < buf.length := (List.getElem?_eq_some_iff.mp hgap).1
  rw [repetitions] at h
  split at h
  · cases h
  next hmod =>
  dsimp only at h
  split at h
  case isFalse => cases h
  next hsame =>
  have hlen : (buf.length + 1) / (i + 1) * (i + 1) = buf.length + 1 :=
    Nat.div_mul_cancel (Nat.dvd_of_mod_eq_zero (not_not.mp hmod))
  have hpos : 0 < (buf.length + 1) / (i + 1) := Nat.div_pos (by omega) (Nat.succ_pos i)
  rw [Option.some.inj h] at hlen hpos hsame
  refine ⟨hpos, flatten_of_blocks (m := i + 1) ?_ fun j hj => ?_⟩
  · rw [List.length_append, List.length_singleton, hlen]
  have hinside : (j + 1) * (i + 1) ≤ n * (i + 1) := Nat.mul_le_mul_right _ hj
  rw [Nat.succ_mul] at hinside
  rw [List.drop_append_of_le_length (by omega)]
  by_cases hzero : j = 0
  · rw [hzero, Nat.zero_mul, List.drop_zero, List.take_append_of_le_length (by omega)]
  have hj' := List.all_eq_true.mp hsame j (List.mem_range'_1.mpr (by omega))
  rw [sameBlock, beq_iff_eq] at hj'
  by_cases hlast : j + 1 = n
  · -- The last repetition lacks its gap.
    rw [if_pos hlast, Nat.add_sub_cancel] at hj'
    have hdrop : (buf.drop (j * (i + 1))).length = i := by
      rw [List.length_drop]
      rw [← hlast, Nat.succ_mul] at hlen
      omega
    rw [List.take_of_length_le (Nat.le_of_eq hdrop)] at hj'
    rw [← hj', List.take_of_length_le (by simp), List.take_add_one, hgap, Option.toList_some]
  · rw [if_neg hlast] at hj'
    have hnext : (j + 1 + 1) * (i + 1) ≤ n * (i + 1) := Nat.mul_le_mul_right _ (by omega)
    rw [Nat.succ_mul, Nat.succ_mul] at hnext
    rw [List.take_append_of_le_length (by rw [List.length_drop]; omega), hj']

/-! ### The times of the bits -/

/-- The lengths of a bit. -/
def lengths (rem : RemStruct1) (k : ℕ) : List ℤ :=
  if k % 2 = 1 then [(rem.bOff0.toNat : ℤ), (rem.bOff1.toNat : ℤ)]
  else [(rem.bOn0.toNat : ℤ), (rem.bOn1.toNat : ℤ)]

theorem lengths_add_two (rem : RemStruct1) (k : ℕ) : lengths rem (k + 2) = lengths rem k := by
  rw [lengths, lengths, Nat.add_mod_right]

theorem bitTime_eq (rem : RemStruct1) (k : ℕ) :
    bitTime rem k = value 0 (lengths rem k) (if dataBit rem.bDatBits k then 1 else 0) := by
  rw [bitTime, lengths]
  split <;> split <;> rfl

theorem map_bitTime {rem : RemStruct1} {is : List ℕ} {offset : ℕ} (htwo : ∀ i ∈ is, i < 2)
    (hbits : ∀ k < is.length, dataBit rem.bDatBits (offset + k) = decide (is.getD k 0 ≠ 0)) :
    (List.range' offset is.length).map (bitTime rem) =
      turnValues 0 (lengths rem offset) (lengths rem (offset + 1)) is := by
  induction is generalizing offset with
  | nil => rfl
  | cons i is ih =>
      have hfirst := hbits 0 (Nat.succ_pos _)
      have hi := htwo i List.mem_cons_self
      have hrest : (List.range' (offset + 1) is.length).map (bitTime rem) =
          turnValues 0 (lengths rem (offset + 1)) (lengths rem (offset + 1 + 1)) is := by
        refine ih (fun j hj => htwo j (List.mem_cons_of_mem i hj)) fun k hk => ?_
        rw [Nat.add_assoc, Nat.add_comm 1 k]
        exact hbits (k + 1) (Nat.succ_lt_succ hk)
      rw [List.length_cons, List.range'_succ, List.map_cons, turnValues, hrest, bitTime_eq,
        lengths_add_two]
      congr 2
      rw [Nat.add_zero] at hfirst
      rw [hfirst]
      obtain rfl | rfl : i = 0 ∨ i = 1 := by omega
      · rfl
      · rfl

/-! ### The whole structure -/

theorem tUnit_nonneg (version freq : ℕ) : 0 ≤ tUnit version freq := by
  rw [tUnit]
  split
  · exact Int.natCast_nonneg _
  · decide

theorem byte_of_units {v : ℤ} (h : 0 ≤ v) (hle : v ≤ ucharMax) :
    ((BitVec.ofInt 8 v).toNat : ℤ) = v := by
  rw [ucharMax] at hle
  rw [BitVec.toNat_ofInt]
  omega

/-- The two bytes of a table. -/
theorem bytes_of_table {table : List ℤ} (hlen : table.length = 2)
    (hvalues : ∀ v ∈ table, 0 ≤ v ∧ v ≤ ucharMax) :
    [((BitVec.ofInt 8 (table.getD 0 0)).toNat : ℤ), ((BitVec.ofInt 8 (table.getD 1 0)).toNat : ℤ)] =
      table := by
  match table, hlen with
  | [a, b], _ =>
      have ha := hvalues a (by simp)
      have hb := hvalues b (by simp)
      change [((BitVec.ofInt 8 a).toNat : ℤ), ((BitVec.ofInt 8 b).toNat : ℤ)] = [a, b]
      rw [byte_of_units ha.1 ha.2, byte_of_units hb.1 hb.2]

section Blocks

variable {R : ℤ → ℤ → Prop} {as bs cs ds : List ℤ}

theorem forall₂_append (hlen : as.length = bs.length) :
    List.Forall₂ R (as ++ cs) (bs ++ ds) ↔ List.Forall₂ R as bs ∧ List.Forall₂ R cs ds := by
  induction as generalizing bs with
  | nil =>
      obtain rfl := List.length_eq_zero_iff.mp hlen.symm
      exact ⟨fun h => ⟨.nil, h⟩, fun h => h.2⟩
  | cons a as ih =>
      cases bs with
      | nil => exact absurd hlen (Nat.succ_ne_zero _)
      | cons b bs =>
          rw [List.cons_append, List.cons_append, List.forall₂_cons, List.forall₂_cons,
            ih (Nat.succ_injective hlen), and_assoc]

theorem flatten_replicate_concat (n : ℕ) (as : List ℤ) :
    (List.replicate (n + 1) as).flatten = (List.replicate n as).flatten ++ as := by
  rw [List.replicate_succ', List.flatten_append, List.flatten_singleton]

/-- Blocks that are repeated as often correspond if one does. -/
theorem repeated_iff {n : ℕ} {delay gap : ℤ} {block part buf : List ℤ} (hn : 0 < n)
    (hlen : block.length = part.length) (hgap : 1 < n → R delay gap)
    (hbuf : buf ++ [gap] = (List.replicate n (part ++ [gap])).flatten) :
    (List.replicate n (block ++ [delay])).flatten.dropLast.length = buf.length ∧
      (List.Forall₂ R (List.replicate n (block ++ [delay])).flatten.dropLast buf ↔
        List.Forall₂ R block part) := by
  obtain ⟨n, rfl⟩ := Nat.exists_eq_succ_of_ne_zero (Nat.pos_iff_ne_zero.mp hn)
  have hblock : (List.replicate (n + 1) (block ++ [delay])).flatten.dropLast =
      (List.replicate n (block ++ [delay])).flatten ++ block := by
    rw [flatten_replicate_concat, ← List.append_assoc, List.dropLast_concat]
  have hpart : buf = (List.replicate n (part ++ [gap])).flatten ++ part := by
    rw [flatten_replicate_concat, ← List.append_assoc] at hbuf
    exact List.append_cancel_right hbuf
  have hsame : (List.replicate n (block ++ [delay])).flatten.length =
      (List.replicate n (part ++ [gap])).flatten.length := by
    simp [hlen]
  rw [hblock, hpart]
  refine ⟨by rw [List.length_append, List.length_append, hsame, hlen], ?_⟩
  rw [forall₂_append hsame]
  refine ⟨fun h => h.2, fun h => ⟨?_, h⟩⟩
  -- With a repetition before the last block the delay counts as well.
  rcases Nat.eq_zero_or_pos n with rfl | hpos
  · exact .nil
  · have hone : List.Forall₂ R (block ++ [delay]) (part ++ [gap]) :=
      (forall₂_append hlen).mpr ⟨h, .cons (hgap (Nat.succ_lt_succ hpos)) .nil⟩
    clear hblock hpart hsame hpos hgap hn hbuf
    induction n with
    | zero => exact .nil
    | succ n ih =>
        rw [List.replicate_succ, List.replicate_succ, List.flatten_cons, List.flatten_cons]
        exact (forall₂_append (by simp [hlen])).mpr ⟨hone, ih⟩

end Blocks

section Whole

variable {hw : Hardware} {r : IrRemote} {t : ℤ}

/-- The loop behind the header. -/
def afterHeader (t x y : ℤ) : StructTx where
  bHdr1 := BitVec.ofInt 8 (x.tdiv t)
  bHdr0 := BitVec.ofInt 8 (y.tdiv t)

theorem structLoop_header {buf rest : List ℤ} {x y : ℤ} {s : StructTx} {repeats : ℕ}
    (h : structLoop hw r t buf (x :: y :: rest) 0 {} = some (s, repeats)) :
    x.tdiv t ≤ ucharMax ∧ y.tdiv t ≤ ucharMax ∧
      structLoop hw r t buf rest 2 (afterHeader t x y) = some (s, repeats) := by
  rw [structLoop] at h
  split at h
  · cases h
  next hx =>
  rw [if_pos rfl, structLoop] at h
  split at h
  · cases h
  next hy =>
  rw [if_neg (Nat.add_one_ne_zero 0), if_pos rfl] at h
  exact ⟨not_lt.mp hx, not_lt.mp hy, h⟩

section Part

variable {x y : ℤ} {part : List ℤ} {s : StructTx} {bits : List ℕ}
  (hstored : Stored hw r t (afterHeader t x y) 2 part s bits)

include hstored

theorem Stored.encode_marks :
    encode 0 (inUnits t) (takenFor hw r t) [0, 0] (evens part) = some (evens bits, s.marks) :=
  (encodeTurns_split hstored.tables).1

theorem Stored.encode_spaces :
    encode 0 (inUnits t) (takenFor hw r t) [0, 0] (odds part) = some (odds bits, s.spaces) :=
  (encodeTurns_split hstored.tables).2

/-- A table holds lengths of samples. -/
theorem Stored.values (ht : 0 < t) (hpart : ∀ z ∈ part, 0 ≤ z) {zs table : List ℤ} {js : List ℕ}
    (hzs : ∀ z ∈ zs, z ∈ part)
    (h : encode 0 (inUnits t) (takenFor hw r t) [0, 0] zs = some (js, table)) :
    table.length = 2 ∧ ∀ v ∈ table, 0 ≤ v ∧ v ≤ ucharMax := by
  refine ⟨length_encode h, fun v hv => ?_⟩
  rcases mem_encode h hv with hzero | ⟨z, hz, rfl⟩
  · have hv0 : v = 0 := by simpa using hzero
    rw [hv0, ucharMax]
    decide
  · exact ⟨Int.tdiv_nonneg (hpart z (hzs z hz)) (Int.le_of_lt ht), hstored.short z (hzs z hz)⟩

theorem Stored.lengths_eq (ht : 0 < t) (hpart : ∀ z ∈ part, 0 ≤ z) :
    lengths (structOf r t s) 0 = s.marks ∧ lengths (structOf r t s) 1 = s.spaces := by
  obtain ⟨hlen, hvalues⟩ := hstored.values ht hpart (fun z hz => mem_of_mem_turns.1 hz)
    hstored.encode_marks
  obtain ⟨hlen', hvalues'⟩ := hstored.values ht hpart (fun z hz => mem_of_mem_turns.2 hz)
    hstored.encode_spaces
  exact ⟨bytes_of_table hlen hvalues, bytes_of_table hlen' hvalues'⟩

theorem Stored.length_bits : bits.length = part.length := length_encodeTurns hstored.tables

theorem Stored.bits_eq : s.bits = part.length := by
  rw [hstored.bits]
  exact Nat.zero_add _

/-- There are never more bits than one too many. -/
theorem Stored.length_le : part.length ≤ maxBits + 1 := by
  by_cases hpart : part = []
  · rw [hpart, List.length_nil]
    exact Nat.zero_le _
  · have hbound := hstored.bound hpart
    omega

theorem Stored.bBits_eq : (structOf r t s).bBits.toNat = part.length := by
  have hle := hstored.length_le
  rw [maxBits] at hle
  change (BitVec.ofNat 8 s.bits).toNat = part.length
  rw [hstored.bits_eq, BitVec.toNat_ofNat, Nat.mod_eq_of_lt (by omega)]

/-- As long as the bits stay inside, the structure is the header and what is read from the
tables. -/
theorem Stored.block_eq (ht : 0 < t) (hx : 0 ≤ x ∧ x.tdiv t ≤ ucharMax)
    (hy : 0 ≤ y ∧ y.tdiv t ≤ ucharMax) (hpart : ∀ z ∈ part, 0 ≤ z)
    (hlen : part.length ≤ maxBits) :
    structBlock (structOf r t s) =
      x.tdiv t :: y.tdiv t :: turnValues 0 s.marks s.spaces bits := by
  have hhdr1 : ((structOf r t s).bHdr1.toNat : ℤ) = x.tdiv t := by
    change (s.bHdr1.toNat : ℤ) = x.tdiv t
    rw [hstored.header.1]
    exact byte_of_units (Int.tdiv_nonneg hx.1 (Int.le_of_lt ht)) hx.2
  have hhdr0 : ((structOf r t s).bHdr0.toNat : ℤ) = y.tdiv t := by
    change (s.bHdr0.toNat : ℤ) = y.tdiv t
    rw [hstored.header.2]
    exact byte_of_units (Int.tdiv_nonneg hy.1 (Int.le_of_lt ht)) hy.2
  obtain ⟨hmarks, hspaces⟩ := hstored.lengths_eq ht hpart
  have htimes : (List.range' 0 bits.length).map (bitTime (structOf r t s)) =
      turnValues 0 s.marks s.spaces bits := by
    rw [← hmarks, ← hspaces]
    refine map_bitTime (lt_of_encodeTurns hstored.tables rfl rfl) fun k hk => ?_
    change dataBit s.bDatBits (0 + k) = _
    rw [hstored.bDatBits]
    refine dataBit_writeBits ?_ hk
    rw [hstored.length_bits]
    change 0 + part.length ≤ 8 * (List.replicate (maxBits / 8 + 1) (0 : Byte)).length
    rw [List.length_replicate]
    rw [maxBits] at hlen ⊢
    omega
  rw [structBlock, hhdr1, hhdr0, hstored.bBits_eq, List.range_eq_range', ← hstored.length_bits,
    htimes]

theorem Stored.givesBack_iff :
    List.Forall₂ (GivesBack hw r t) (x.tdiv t :: y.tdiv t :: turnValues 0 s.marks s.spaces bits)
        (x :: y :: part) ↔
      (Fits 0 (inUnits t) (takenFor hw r t) (evens part) ∧
        Fits 0 (inUnits t) (takenFor hw r t)
          (others 0 (inUnits t) (takenFor hw r t) (evens part))) ∧
      Fits 0 (inUnits t) (takenFor hw r t) (odds part) ∧
        Fits 0 (inUnits t) (takenFor hw r t)
          (others 0 (inUnits t) (takenFor hw r t) (odds part)) := by
  rw [List.forall₂_cons, List.forall₂_cons, ← returns_two hstored.encode_marks,
    ← returns_two hstored.encode_spaces, ← turnValues_iff]
  exact ⟨fun h => h.2.2, fun h => ⟨.inl rfl, .inl rfl, h⟩⟩

/-- The spaces up to the gap before a repetition have more than two lengths. -/
theorem Stored.more_spaces {more : List ℤ} {i repeats : ℕ} {buf : List ℤ} (hi : i = 2 + part.length)
    {gap : ℤ} (hended : Ended hw r t buf s i (gap :: more) repeats) :
    others 0 (inUnits t) (takenFor hw r t)
      (others 0 (inUnits t) (takenFor hw r t) (odds (part ++ [gap]))) ≠ [] := by
  cases hended with
  | repeated hlen hodd henter hrepeats =>
      have hodds : odds (part ++ [r.minRemainingGap]) = odds part ++ [r.minRemainingGap] :=
        turns_append_singleton.2 (by omega)
      have htable : s.table i = s.spaces := if_neg (by omega)
      rw [htable] at henter
      rw [hodds, Ne, ← encode_isSome_two, encode_append_none hstored.encode_spaces henter]
      exact Bool.false_ne_true

/-- The samples of the structure are the longest beginning whose spaces have at most two
lengths. -/
theorem Stored.prefix_part {more p : List ℤ} {repeats : ℕ} {buf : List ℤ}
    (hended : Ended hw r t buf s (2 + part.length) more repeats) (hp : p <+: part ++ more)
    (htwo : others 0 (inUnits t) (takenFor hw r t)
      (others 0 (inUnits t) (takenFor hw r t) (odds p)) = []) : p <+: part := by
  cases more with
  | nil => rwa [List.append_nil] at hp
  | cons gap more =>
      have hnext : part ++ [gap] <+: part ++ gap :: more :=
        ⟨more, by rw [List.append_assoc, List.singleton_append]⟩
      rcases List.prefix_or_prefix_of_prefix hp hnext with hbefore | hbehind
      · rcases List.prefix_concat_iff.mp hbefore with rfl | hpart
        · exact absurd htwo (hstored.more_spaces rfl hended)
        · exact hpart
      · have hodds := (turns_beginning hbehind).2
        have hothers : others 0 (inUnits t) (takenFor hw r t)
              (others 0 (inUnits t) (takenFor hw r t) (odds (part ++ [gap]))) <+:
            others 0 (inUnits t) (takenFor hw r t)
              (others 0 (inUnits t) (takenFor hw r t) (odds p)) :=
          others_beginning (others_beginning hodds)
        rw [htwo, List.prefix_nil] at hothers
        exact absurd hothers (hstored.more_spaces rfl hended)

theorem Stored.fit_iff {more : List ℤ} {repeats : ℕ} {buf : List ℤ}
    (hended : Ended hw r t buf s (2 + part.length) more repeats) :
    ShortSamplesFit hw r t (part ++ more) ↔ part.length ≤ maxBits ∧
      (Fits 0 (inUnits t) (takenFor hw r t) (evens part) ∧
        Fits 0 (inUnits t) (takenFor hw r t)
          (others 0 (inUnits t) (takenFor hw r t) (evens part))) ∧
      Fits 0 (inUnits t) (takenFor hw r t) (odds part) ∧
        Fits 0 (inUnits t) (takenFor hw r t)
          (others 0 (inUnits t) (takenFor hw r t) (odds part)) := by
  have htwo : others 0 (inUnits t) (takenFor hw r t)
      (others 0 (inUnits t) (takenFor hw r t) (odds part)) = [] :=
    encode_isSome_two.mp (Option.isSome_iff_exists.mpr ⟨_, hstored.encode_spaces⟩)
  constructor
  · intro h
    obtain ⟨hlen, hmarks, hmarks', hspaces, hspaces'⟩ := h part (List.prefix_append part more) htwo
    exact ⟨hlen, ⟨hmarks, hmarks'⟩, hspaces, hspaces'⟩
  · rintro ⟨hlen, ⟨hmarks, hmarks'⟩, hspaces, hspaces'⟩ p hp hp2
    have hpart := hstored.prefix_part hended hp hp2
    obtain ⟨hevens, hodds⟩ := turns_beginning hpart
    exact ⟨Nat.le_trans hpart.length_le hlen, hmarks.of_beginning hevens,
      hmarks'.of_beginning (others_beginning hevens), hspaces.of_beginning hodds,
      hspaces'.of_beginning (others_beginning hodds)⟩

end Part

/-- The delay of a gap that fits a byte. -/
theorem structDelay_eq {s : StructTx} (ht : 0 ≤ t) (hgap : 0 ≤ r.minRemainingGap)
    (hle : r.minRemainingGap.tdiv t ≤ ucharMax) :
    structDelay (structOf r t s) = r.minRemainingGap.tdiv t := by
  have hunits : 0 ≤ r.minRemainingGap.tdiv t := Int.tdiv_nonneg hgap ht
  have hhigh : (r.minRemainingGap.tdiv t).tdiv 256 = 0 := by
    rw [ucharMax] at hle
    exact Int.tdiv_eq_zero_of_lt hunits (by omega)
  have hlow := byte_of_units hunits hle
  rw [structDelay]
  simp only [structOf, hhigh]
  rw [hlow]
  simp

/-- The structure, as often as it is sent, stands for the samples if it stands for the first
part of them. -/
theorem Ended.samples_iff {x y : ℤ} {part more buf : List ℤ} {s : StructTx} {f repeats : ℕ}
    (hended : Ended hw r t buf s (2 + part.length) more repeats)
    (hbuf : buf = x :: y :: (part ++ more)) (ht : 0 ≤ t) (hpos : ∀ z ∈ buf, 0 ≤ z)
    (hlen : (structBlock (structOf r t s)).length = (x :: y :: part).length) :
    (expansion ⟨f, repeats, structOf r t s, s.stored⟩).length = buf.length ∧
      (List.Forall₂ (GivesBack hw r t) (expansion ⟨f, repeats, structOf r t s, s.stored⟩) buf ↔
        List.Forall₂ (GivesBack hw r t) (structBlock (structOf r t s)) (x :: y :: part)) := by
  cases hended with
  | whole =>
      have hwhole : buf ++ [0] = (List.replicate 1 (x :: y :: part ++ [0])).flatten := by
        rw [hbuf, List.append_nil, List.replicate_one, List.flatten_singleton]
      exact repeated_iff Nat.one_pos hlen (fun h => absurd h (Nat.lt_irrefl 1)) hwhole
  | @repeated rest _ hle hodd henter hrepeats =>
      have hget : buf[2 + part.length]? = some r.minRemainingGap := by
        rw [hbuf, Nat.add_comm]
        simp
      have htake : buf.take (2 + part.length + 1) = x :: y :: part ++ [r.minRemainingGap] := by
        have hsplit : buf = (x :: y :: part ++ [r.minRemainingGap]) ++ rest := by
          rw [hbuf, List.append_assoc, List.singleton_append, List.cons_append, List.cons_append]
        rw [hsplit]
        apply List.take_left'
        rw [List.length_append, List.length_singleton, List.length_cons, List.length_cons]
        omega
      obtain ⟨hrep, hwhole⟩ := repetitions_spec hget hrepeats
      rw [htake] at hwhole
      refine repeated_iff hrep hlen (fun _ => .inl ?_) hwhole
      exact (structDelay_eq ht (hpos _ (List.mem_of_getElem? hget)) hle).symm

end Whole

/-! ### What is sent -/

section Sent

variable {hw : Hardware} {r : IrRemote} {version freq : ℕ} {buf : List ℤ} {out : StructSend}

theorem sendMode2Struct1_cases (h : sendMode2Struct1 hw r (some version) freq buf = some out) :
    tUnit version (freqOf freq) ≠ 0 ∧
      ∃ s repeats,
        structLoop hw r (tUnit version (freqOf freq)) buf buf 0 {} = some (s, repeats) ∧
          out = ⟨freqOf freq, repeats, structOf r (tUnit version (freqOf freq)) s, s.stored⟩ := by
  simp only [sendMode2Struct1, Option.bind_eq_bind, Option.bind_some] at h
  split at h
  · cases h
  next hunit =>
  obtain ⟨⟨s, repeats⟩, hloop, hout⟩ := Option.bind_eq_some_iff.mp h
  exact ⟨hunit, s, repeats, hloop, (Option.some.inj hout).symm⟩

theorem shortSamplesFit_nil {t : ℤ} : ShortSamplesFit hw r t [] := by
  intro part hpart _
  rw [List.prefix_nil.mp hpart]
  have hnil : Fits 0 (inUnits t) (takenFor hw r t) [] := fun x hx => absurd hx List.not_mem_nil
  exact ⟨Nat.zero_le _, hnil, hnil, hnil, hnil⟩

/-- A signal that ends within the header. -/
theorem encodesStruct_header {t : ℤ} {f repeats : ℕ} {s : StructTx} (ht : 0 < t)
    (hbuf : ∀ x ∈ buf, 0 ≤ x) (hlen : buf.length < 2)
    (h : structLoop hw r t buf buf 0 {} = some (s, repeats)) :
    EncodesStruct hw r t buf ⟨f, repeats, structOf r t s, s.stored⟩ := by
  match buf, hlen with
  | [], _ =>
      obtain ⟨rfl, rfl⟩ := Prod.mk.inj (Option.some.inj h)
      refine ⟨.nil, ?_, rfl, fun _ ho => absurd ho List.not_mem_nil⟩
      change ∀ v ∈ [(0 : ℤ), 0], v = 0
      decide
  | [x], _ =>
      rw [structLoop] at h
      split at h
      · cases h
      next hx =>
      rw [if_pos rfl, structLoop] at h
      obtain ⟨rfl, rfl⟩ := Prod.mk.inj (Option.some.inj h)
      refine ⟨.cons (.inl ?_) .nil, ?_, rfl, fun _ ho => absurd ho List.not_mem_nil⟩
      · have hunits := Int.tdiv_nonneg (hbuf x List.mem_cons_self) (Int.le_of_lt ht)
        exact (byte_of_units hunits (not_lt.mp hx)).symm
      · change ∀ v ∈ [(0 : ℤ)], v = 0
        decide

end Sent

/-- A structure that is sent stands for the signal if and only if the bits stay inside
`bDatBits` and the samples that are shorter than a unit come out right. -/
theorem sendMode2Struct1_encodes_iff (hw : Hardware) (r : IrRemote) (version freq : ℕ)
    (buf : List ℤ) (hbuf : ∀ x ∈ buf, 0 ≤ x) (out : StructSend)
    (h : sendMode2Struct1 hw r (some version) freq buf = some out) :
    EncodesStruct hw r (tUnit version (freqOf freq)) buf out ↔
      ShortSamplesFit hw r (tUnit version (freqOf freq)) (buf.drop 2) := by
  obtain ⟨hunit, s, repeats, hloop, rfl⟩ := sendMode2Struct1_cases h
  have ht := tUnit_nonneg version (freqOf freq)
  generalize tUnit version (freqOf freq) = t at *
  have hpos : 0 < t := lt_of_le_of_ne ht (Ne.symm hunit)
  match buf, hbuf, hloop with
  | [], hbuf, hloop =>
      exact iff_of_true (encodesStruct_header hpos hbuf (by decide) hloop) shortSamplesFit_nil
  | [x], hbuf, hloop =>
      exact iff_of_true (encodesStruct_header hpos hbuf (Nat.lt_succ_self 1) hloop)
        shortSamplesFit_nil
  | x :: y :: samples, hbuf, hloop =>
      obtain ⟨hx, hy, hloop⟩ := structLoop_header hloop
      obtain ⟨part, more, bits, rfl, hstored, hended⟩ := structLoop_spec (Nat.le_refl 2) hloop
      obtain ⟨hx0, hy0, hsamples⟩ :
          0 ≤ x ∧ 0 ≤ y ∧ ∀ z ∈ part ++ more, 0 ≤ z := by
        rwa [List.forall_mem_cons, List.forall_mem_cons] at hbuf
      have hpart : ∀ z ∈ part, 0 ≤ z := fun z hz => hsamples z (List.mem_append_left more hz)
      have hoffsets : s.stored = List.range' 0 part.length := hstored.stored
      rw [List.drop_succ_cons, List.drop_succ_cons, List.drop_zero, hstored.fit_iff hended]
      by_cases hlen : part.length ≤ maxBits
      · have hblock := hstored.block_eq hpos ⟨hx0, hx⟩ ⟨hy0, hy⟩ hpart hlen
        have hwidth : (structBlock (structOf r t s)).length = (x :: y :: part).length := by
          simp [structBlock, hstored.bBits_eq]
        obtain ⟨hwhole, hiff⟩ := hended.samples_iff (f := freqOf freq) rfl ht hbuf hwidth
        rw [hblock, hstored.givesBack_iff] at hiff
        constructor
        · intro hencodes
          have hgives := hencodes.samples
          rw [← hwhole, List.take_length] at hgives
          exact ⟨hlen, hiff.mp hgives⟩
        · rintro ⟨-, hfits⟩
          refine ⟨?_, ?_, ?_, ?_⟩
          · rw [← hwhole, List.take_length]
            exact hiff.mpr hfits
          · rw [← hwhole, List.drop_length]
            exact fun v hv => absurd hv List.not_mem_nil
          · rw [hstored.bBits_eq, hoffsets, List.length_range']
          · intro offset ho
            rw [hoffsets] at ho
            have hlt := (List.mem_range'_1.mp ho).2
            omega
      · refine iff_of_false (fun hencodes => ?_) fun hfits => hlen hfits.1
        -- The last bit is the one behind the capacity.
        have hlast : maxBits ∈ s.stored := by
          rw [hoffsets]
          exact List.mem_range'_1.mpr ⟨Nat.zero_le _, by omega⟩
        exact absurd (hencodes.capacity maxBits hlast) (Nat.lt_irrefl maxBits)

/-- Without samples shorter than a unit only their number counts. -/
theorem shortSamplesFit_of_le {hw : Hardware} {r : IrRemote} {t : ℤ} {samples : List ℤ}
    (ht : 0 < t) (hsamples : ∀ x ∈ samples, t ≤ x) (hlen : samples.length ≤ maxBits) :
    ShortSamplesFit hw r t samples := by
  intro part hpart _
  have hunits : ∀ x ∈ part, inUnits t x ≠ 0 := by
    intro x hx hzero
    have hle := hsamples x (hpart.subset hx)
    rw [inUnits, Int.tdiv_eq_ediv_of_nonneg (by omega)] at hzero
    have hpos : 1 ≤ x / t := (Int.le_ediv_iff_mul_le ht).mpr (by omega)
    omega
  have hfits : ∀ {xs : List ℤ}, (∀ x ∈ xs, x ∈ part) →
      Fits 0 (inUnits t) (takenFor hw r t) xs ∧
        Fits 0 (inUnits t) (takenFor hw r t) (others 0 (inUnits t) (takenFor hw r t) xs) :=
    fun hxs => ⟨fits_of_round_ne fun x hx => hunits x (hxs x hx),
      fits_of_round_ne fun x hx => hunits x (hxs x (mem_of_mem_others hx))⟩
  obtain ⟨hmarks, hmarks'⟩ := hfits fun x hx => mem_of_mem_turns.1 hx
  obtain ⟨hspaces, hspaces'⟩ := hfits fun x hx => mem_of_mem_turns.2 hx
  exact ⟨Nat.le_trans hpart.length_le hlen, hmarks, hmarks', hspaces, hspaces'⟩

/-- A remote with the usual tolerances. -/
def structRemote : IrRemote where
  eps := 30
  aeps := 100
  minRemainingGap := 10000

/-- Samples that are sent again after a gap. -/
def repeatedSamples : List ℤ :=
  [9000, 4500, 600, 500, 1600, 1500, 600, 10000, 9000, 4500, 600, 500, 1600, 1500, 600]

def shortMark : List ℤ := [9000, 4500, 40, 500, 600]

def manyBits : List ℤ := [9000, 4500] ++ List.replicate 129 600

theorem sendMode2Struct1_encodes_repeated :
    ∃ out, sendMode2Struct1 {} structRemote (some 0x0905) 0 repeatedSamples = some out ∧
      EncodesStruct {} structRemote (tUnit 0x0905 (freqOf 0)) repeatedSamples out := by
  have hsome : (sendMode2Struct1 {} structRemote (some 0x0905) 0 repeatedSamples).isSome := by
    decide +kernel
  obtain ⟨out, hout⟩ := Option.isSome_iff_exists.mp hsome
  refine ⟨out, hout, (sendMode2Struct1_encodes_iff {} structRemote 0x0905 0 repeatedSamples
    (by decide) out hout).mpr (shortSamplesFit_of_le (by decide) (by decide) (by decide))⟩

/-- A mark of less than a unit comes out as long as the next one, and the last of 129 bits
lies behind the capacity. -/
theorem sendMode2Struct1_not_encodes :
    (∃ out, sendMode2Struct1 {} structRemote (some 0x0104) 0 shortMark = some out ∧
      ¬ EncodesStruct {} structRemote (tUnit 0x0104 (freqOf 0)) shortMark out) ∧
    ∃ out, sendMode2Struct1 {} structRemote (some 0x0104) 0 manyBits = some out ∧
      ¬ EncodesStruct {} structRemote (tUnit 0x0104 (freqOf 0)) manyBits out := by
  constructor
  · have hshort : (sendMode2Struct1 {} structRemote (some 0x0104) 0 shortMark).any
        (fun out => (12, 40) ∈ ((expansion out).take shortMark.length).zip shortMark) = true := by
      decide +kernel
    obtain ⟨out, hout, hmem⟩ := (Option.any_eq_true _ _).mp hshort
    refine ⟨out, hout, fun hencodes => ?_⟩
    have hgives := (List.forall₂_iff_zip.mp hencodes.samples).2 (of_decide_eq_true hmem)
    rw [GivesBack] at hgives
    exact absurd hgives (by decide)
  · have hlast : (sendMode2Struct1 {} structRemote (some 0x0104) 0 manyBits).any
        (fun out => maxBits ∈ out.stored) = true := by
      decide +kernel
    obtain ⟨out, hout, hmem⟩ := (Option.any_eq_true _ _).mp hlast
    refine ⟨out, hout, fun hencodes => ?_⟩
    exact absurd (hencodes.capacity maxBits (of_decide_eq_true hmem)) (Nat.lt_irrefl maxBits)

end Uirt2

end Lirc
