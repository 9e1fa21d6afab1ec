import Lirc.Capacity
import Lirc.Library.Slots

/-!
`hw_tira.c`: a waveform as a table of twelve burst lengths and the indices of its samples
in it. 0 is a free slot of the table and the length of a sample below 8 µs, and a length
is written with 16 bits.
-/

namespace Lirc

namespace Tira

/-- `DEFAULT_FREQ` -/
def defaultFreq : ℕ := 38000

/-- The clock word for a carrier frequency. -/
def clockWord (freq : ℕ) : ℕ :=
  let freq := if freq = 0 then defaultFreq else freq
  let freq := 2000000 / freq
  if 255 < freq then 255 else freq

/-- The value of an `int` where it is compared with an `unsigned int`. -/
def unsigned (x : ℤ) : ℤ := x % 2 ^ 32

def findLength (bsa : List ℤ) (tmp : ℤ) : Option ℕ := bsa.findIdx? fun b => b = tmp

def findClose (freq : ℕ) (bsa : List ℤ) (tmp : ℤ) : Option ℕ :=
  bsa.findIdx? fun b => unsigned tmp < unsigned (b + (freq / 16 : ℕ)) &&
    unsigned (b - (freq / 16 : ℕ)) < unsigned tmp

def findFree (bsa : List ℤ) : Option ℕ := bsa.findIdx? fun b => b = 0

/-- The index of a length in the table, where it is entered if there is none like it. -/
def burstIndex (freq : ℕ) (bsa : List ℤ) (tmp : ℤ) : Option (ℕ × List ℤ) :=
  match findLength bsa tmp with
  | some s => some (s, bsa)
  | none =>
      match findClose freq bsa tmp with
      | some s => some (s, bsa)
      | none => (findFree bsa).map fun s => (s, bsa.set s tmp)

/-- The first loop of `tira_send`: `sendtable` and `bsa`. -/
def burstLoop (freq : ℕ) : List ℤ → List ℤ → Option (List ℕ × List ℤ)
  | [], bsa => some ([], bsa)
  | x :: xs, bsa =>
      (burstIndex freq bsa (x.tdiv 8)).bind fun out =>
        (burstLoop freq xs out.2).map fun rest => (out.1 :: rest.1, rest.2)

/-- The second loop packs the indices in place; the result is `tmp` and `sendtable`. -/
def packLoop (length i tmp : ℕ) (sendtable : List UInt8) : ℕ × List UInt8 :=
  if i < length then
    let s := (sendtable.getD i 0).toNat * 16
    let s := if i < length - 1 then s + (sendtable.getD (i + 1) 0).toNat else s + 15
    packLoop length (i + 2) (tmp + 1) (sendtable.set tmp s.toUInt8)
  else (tmp, sendtable)
termination_by length - i

/-- A burst length in the block. -/
def burstBytes (b : ℤ) : List UInt8 :=
  [(b % 2 ^ 16 / 2 ^ 8).toNat.toUInt8, (b % 2 ^ 8).toNat.toUInt8]

/-- The block that is written for the samples of the send buffer. -/
def sendBlock (freq : ℕ) (signals : List ℤ) : Option (List UInt8) :=
  (burstLoop freq signals (List.replicate 12 0)).map fun out =>
    let packed := packLoop signals.length 0 0 (out.1.map Nat.toUInt8)
    [0x49, 0x58, freq.toUInt8, 0] ++ out.2.flatMap burstBytes ++ packed.2.take packed.1

/-- `tira_send` up to the write: the block, if it gets as far. -/
def tiraSend (deviceflags : ℕ) (lirccode : Bool) (freq : ℕ) (r : IrRemote) (code : IrNcode)
    (repeating : Bool) (b : SBuf) (fuel : ℕ) : Option (Option (List UInt8) × SBuf) :=
  if deviceflags % 2 = 0 then some (none, b)
  else if !lirccode then some (none, b)
  else
    (initSend r code repeating b fuel).map fun out =>
      (if out.ok then sendBlock (clockWord freq) out.buf.samples else none, out.buf)

/-! ### What the device reads -/

/-- The burst lengths of a block, and the indices in its pairs. -/
structure Reading where
  lengths : List ℕ
  indices : List ℕ
  deriving DecidableEq, Repr

/-- The nibbles of a byte. -/
def nibbles (b : UInt8) : List ℕ := [b.toNat / 16, b.toNat % 16]

def readBlock (block : List UInt8) : Reading where
  lengths := (List.range 12).map fun i =>
    256 * (block.getD (4 + 2 * i) 0).toNat + (block.getD (4 + 2 * i + 1) 0).toNat
  indices := (block.drop 28).flatMap nibbles

/-- The index `i` stands for the sample `x`: it is that of a burst length that was entered
for a sample, and this is the length of `x` but for the tolerance. -/
def StandsFor (freq : ℕ) (signals : List ℤ) (lengths : List ℕ) (x : ℤ) (i : ℕ) : Prop :=
  ∃ len, lengths[i]? = some len ∧ (∃ y ∈ signals, y.tdiv 8 ≠ 0 ∧ (len : ℤ) = y.tdiv 8) ∧
    |(len : ℤ) - x.tdiv 8| < max 1 ((freq / 16 : ℕ) : ℤ)

/-- A block gives back the samples, and the index 15 ends it. -/
def ReadsBack (freq : ℕ) (signals : List ℤ) (block : List UInt8) : Prop :=
  ∃ indices, (readBlock block).indices = indices ++ [15] ∧ 15 ∉ indices ∧
    List.Forall₂ (StandsFor freq signals (readBlock block).lengths) signals indices

/-! ### The pairs of indices -/

/-- Two indices in a byte. -/
def packPair (a b : ℕ) : UInt8 := (a * 16 + b).toUInt8

/-- The pairs of indices; the last index stands alone if their number is odd. -/
def pack : List UInt8 → List UInt8
  | [] => []
  | [a] => [packPair a.toNat 15]
  | a :: b :: rest => packPair a.toNat b.toNat :: pack rest

theorem packLoop_of_lt {length i : ℕ} (h : i < length) (tmp : ℕ) (t : List UInt8) :
    packLoop length i tmp t = packLoop length (i + 2) (tmp + 1) (t.set tmp
      (packPair (t.getD i 0).toNat (if i < length - 1 then (t.getD (i + 1) 0).toNat else 15))) := by
  rw [packLoop, if_pos h]
  dsimp only
  split <;> rfl

theorem take_set_succ {t : List UInt8} {i : ℕ} (h : i < t.length) (v : UInt8) :
    (t.set i v).take (i + 1) = t.take i ++ [v] := by
  rw [List.take_add_one, List.take_set_of_le (Nat.le_refl i), List.getElem?_set_self h]
  rfl

theorem getD_of_drop {t rest : List UInt8} {i : ℕ} {a : UInt8} (h : t.drop i = a :: rest) :
    i < t.length ∧ t.getD i 0 = a ∧ t.drop (i + 1) = rest := by
  refine ⟨?_, ?_, ?_⟩
  · by_contra hlen
    rw [List.drop_eq_nil_iff.mpr (by omega)] at h
    cases h
  · rw [List.getD_eq_getElem?_getD, ← List.head?_drop, h]
    rfl
  · rw [← List.drop_drop, h]
    rfl

/-- What the loop writes never gets ahead of what it reads. -/
theorem packLoop_take {rest t : List UInt8} {i tmp : ℕ} (htmp : tmp ≤ i) (hdrop : t.drop i = rest) :
    (packLoop t.length i tmp t).2.take (packLoop t.length i tmp t).1 = t.take tmp ++ pack rest := by
  induction rest using pack.induct generalizing t i tmp with
  | case1 =>
      have hlen : t.length ≤ i := List.drop_eq_nil_iff.mp hdrop
      rw [packLoop, if_neg (by omega), pack, List.append_nil]
  | case2 a =>
      obtain ⟨hi, ha, hnil⟩ := getD_of_drop hdrop
      have hlen : t.length ≤ i + 1 := List.drop_eq_nil_iff.mp hnil
      rw [packLoop_of_lt hi, if_neg (by omega), ha, packLoop, if_neg (by omega), pack]
      exact take_set_succ (by omega) _
  | case3 a b rest ih =>
      obtain ⟨hi, ha, hrest⟩ := getD_of_drop hdrop
      obtain ⟨hi', hb, hrest⟩ := getD_of_drop hrest
      have hdrop' : (t.set tmp (packPair a.toNat b.toNat)).drop (i + 2) = rest := by
        rw [List.drop_set_of_lt (by omega), hrest]
      have hpack := ih (show tmp + 1 ≤ i + 2 by omega) hdrop'
      rw [List.length_set, take_set_succ (show tmp < t.length by omega)] at hpack
      rw [packLoop_of_lt hi, if_pos (by omega), ha, hb, hpack, pack, List.append_assoc,
        List.singleton_append]

theorem packLoop_whole (t : List UInt8) :
    (packLoop t.length 0 0 t).2.take (packLoop t.length 0 0 t).1 = pack t := by
  rw [packLoop_take (Nat.le_refl 0) List.drop_zero, List.take_zero, List.nil_append]

theorem nibbles_packPair {a b : ℕ} (ha : a < 16) (hb : b < 16) :
    nibbles (packPair a b) = [a, b] := by
  have hbyte : (packPair a b).toNat = a * 16 + b := by
    rw [packPair, UInt8.toNat_ofNat']
    omega
  rw [nibbles, hbyte]
  congr 1
  · omega
  · congr 1
    omega

/-- The pairs of an odd number of indices are read as the indices and the end mark. -/
theorem nibbles_pack {indices : List ℕ} (h : ∀ i ∈ indices, i < 12)
    (hodd : indices.length % 2 = 1) :
    (pack (indices.map Nat.toUInt8)).flatMap nibbles = indices ++ [15] := by
  have hbyte : ∀ i < 12, i.toUInt8.toNat = i := by
    intro i hi
    rw [UInt8.toNat_ofNat']
    omega
  induction indices using List.twoStepInduction with
  | nil => cases hodd
  | singleton a =>
      have ha := h a List.mem_cons_self
      rw [List.map_singleton, pack, List.flatMap_singleton, hbyte a ha,
        nibbles_packPair (by omega) (by omega)]
      rfl
  | cons_cons a b rest ih =>
      have ha := h a List.mem_cons_self
      have hb := h b (List.mem_cons_of_mem _ List.mem_cons_self)
      have hrest := ih (fun i hi => h i (List.mem_cons_of_mem _ (List.mem_cons_of_mem _ hi)))
        (by rw [List.length_cons, List.length_cons] at hodd; omega)
      rw [List.map_cons, List.map_cons, pack, List.flatMap_cons, hbyte a ha, hbyte b hb, hrest,
        nibbles_packPair (by omega) (by omega)]
      rfl

/-! ### The burst lengths -/

/-- Sixteen bits of a burst length. -/
def cut (b : ℤ) : ℕ := (b % 2 ^ 16).toNat

theorem getD_burstBytes {bsa : List ℤ} (rest : List UInt8) {i : ℕ} (h : i < bsa.length) :
    256 * ((bsa.flatMap burstBytes ++ rest).getD (2 * i) 0).toNat +
      ((bsa.flatMap burstBytes ++ rest).getD (2 * i + 1) 0).toNat = cut bsa[i] := by
  induction bsa generalizing i with
  | nil => cases h
  | cons b bsa ih =>
      cases i with
      | zero =>
          show 256 * (b % 2 ^ 16 / 2 ^ 8).toNat.toUInt8.toNat + (b % 2 ^ 8).toNat.toUInt8.toNat =
            cut b
          rw [UInt8.toNat_ofNat', UInt8.toNat_ofNat', cut]
          omega
      | succ i => exact ih (Nat.lt_of_succ_lt_succ h)

/-- What the device reads from a block. -/
theorem readBlock_sendBlock {freq : ℕ} {bsa : List ℤ} {indices : List ℕ} (hbsa : bsa.length = 12)
    (hindices : ∀ i ∈ indices, i < 12) (hodd : indices.length % 2 = 1) :
    readBlock ([0x49, 0x58, freq.toUInt8, 0] ++ bsa.flatMap burstBytes ++
      pack (indices.map Nat.toUInt8)) = ⟨bsa.map cut, indices ++ [15]⟩ := by
  have hbytes : ∀ l : List ℤ, (l.flatMap burstBytes).length = 2 * l.length := by
    intro l
    induction l with
    | nil => rfl
    | cons b l ih =>
        rw [List.flatMap_cons, List.length_append, ih, List.length_cons]
        show 2 + _ = _
        omega
  rw [readBlock, Reading.mk.injEq]
  constructor
  · apply List.ext_getElem
    · rw [List.length_map, List.length_range, List.length_map, hbsa]
    · intro i hi _
      rw [List.length_map, List.length_range] at hi
      rw [List.getElem_map, List.getElem_map, List.getElem_range, Nat.add_comm 4 (2 * i),
        ← getD_burstBytes (pack (indices.map Nat.toUInt8)) (by omega)]
      rfl
  · have hdrop : ([0x49, 0x58, freq.toUInt8, 0] ++ bsa.flatMap burstBytes).length = 28 := by
      rw [List.length_append, hbytes, hbsa]
      rfl
    rw [← hdrop, List.drop_left, nibbles_pack hindices hodd]

/-! ### The table -/

/-- A length that is found in the table: it is there, or one that is near is. A length
below the tolerance is not compared, since the difference is unsigned. -/
def Known (near : ℤ) (known : List ℤ) (v : ℤ) : Prop :=
  v ∈ known ∨ ∃ e ∈ known, near ≤ e ∧ |v - e| < near

instance (near : ℤ) (known : List ℤ) (v : ℤ) : Decidable (Known near known v) :=
  inferInstanceAs (Decidable (_ ∨ _))

/-- The new ones of some lengths when the lengths `known` have come before them. -/
def newLengths (near : ℤ) : List ℤ → List ℤ → List ℤ
  | _, [] => []
  | known, v :: vs =>
      if v = 0 ∨ Known near known v then newLengths near known vs
      else v :: newLengths near (known ++ [v]) vs

/-- The lengths that can be written: a new one fits into 16 bits, and where a sample has
no length, the next new one is below the tolerance. -/
def Writable (near : ℤ) : List ℤ → List ℤ → Prop
  | _, [] => True
  | known, v :: vs =>
      if v = 0 then (∃ w ∈ (newLengths near known vs).head?, w < near) ∧ Writable near known vs
      else if Known near known v then Writable near known vs
      else 0 < v ∧ v < 2 ^ 16 ∧ Writable near (known ++ [v]) vs

/-- `Writable` is decided along the lengths. -/
def decideWritable (near : ℤ) : ∀ known vs, Decidable (Writable near known vs)
  | _, [] => isTrue trivial
  | known, v :: vs =>
      have := decideWritable near known vs
      have := decideWritable near (known ++ [v]) vs
      inferInstanceAs (Decidable (
        if v = 0 then (∃ w ∈ (newLengths near known vs).head?, w < near) ∧ Writable near known vs
        else if Known near known v then Writable near known vs
        else 0 < v ∧ v < 2 ^ 16 ∧ Writable near (known ++ [v]) vs))

instance (near : ℤ) (known vs : List ℤ) : Decidable (Writable near known vs) :=
  decideWritable near known vs

/-- The length of a sample. -/
def lengthOf (x : ℤ) : ℤ := x.tdiv 8

section Table

variable {freq : ℕ} {known : List ℤ} {v : ℤ}

/-- Comparing as unsigned numbers. -/
theorem close_iff (hfreq : freq ≤ 255) {e : ℤ} (he : 0 < e ∧ e < 2 ^ 16)
    (hv : -(2 ^ 28) ≤ v ∧ v ≤ 2 ^ 28) :
    (unsigned v < unsigned (e + (freq / 16 : ℕ)) ∧ unsigned (e - (freq / 16 : ℕ)) < unsigned v) ↔
      ((freq / 16 : ℕ) : ℤ) ≤ e ∧ |v - e| < (freq / 16 : ℕ) := by
  simp only [unsigned, abs_lt]
  omega

/-- A free slot is close to nothing. -/
theorem not_close_free (hfreq : freq ≤ 255) (v : ℤ) :
    ¬ (unsigned v < unsigned (0 + (freq / 16 : ℕ)) ∧
      unsigned (0 - (freq / 16 : ℕ)) < unsigned v) := by
  simp only [unsigned]
  omega

/-- What becomes of one length. -/
theorem burstIndex_cases {i : ℕ} {bsa : List ℤ} (hfreq : freq ≤ 255)
    (hknown : ∀ e ∈ known, 0 < e ∧ e < 2 ^ 16) (hv : -(2 ^ 28) ≤ v ∧ v ≤ 2 ^ 28)
    (h : burstIndex freq (Slots.table 12 0 known) v = some (i, bsa)) :
    (v = 0 ∧ known.length < 12 ∧ i = known.length ∧ bsa = Slots.table 12 0 known) ∨
    (v ≠ 0 ∧ Known (freq / 16 : ℕ) known v ∧ bsa = Slots.table 12 0 known ∧
      ∃ e, known[i]? = some e ∧ |e - v| < max 1 ((freq / 16 : ℕ) : ℤ)) ∨
    (v ≠ 0 ∧ ¬ Known (freq / 16 : ℕ) known v ∧ known.length < 12 ∧ i = known.length ∧
      bsa = Slots.table 12 0 (known ++ [v])) := by
  rw [burstIndex, findLength, findClose, findFree, Slots.findIdx?_table, Slots.findIdx?_table,
    Slots.findIdx?_table] at h
  cases hsame : known.findIdx? fun b => decide (b = v) with
  | some s =>
      rw [hsame, Option.some_or] at h
      obtain ⟨rfl, rfl⟩ := Prod.mk.inj (Option.some.inj h)
      obtain ⟨hs, heq, -⟩ := List.findIdx?_eq_some_iff_getElem.mp hsame
      have hmem := List.getElem_mem hs
      rw [of_decide_eq_true heq] at hmem
      have hpos := (hknown v hmem).1
      refine .inr (.inl ⟨by omega, .inl hmem, rfl, v, ?_, ?_⟩)
      · rw [List.getElem?_eq_getElem hs, of_decide_eq_true heq]
      · rw [sub_self, abs_zero]
        omega
  | none =>
      have hnew : v ∉ known := by
        intro hmem
        exact absurd rfl (of_decide_eq_false (List.findIdx?_eq_none_iff.mp hsame v hmem))
      rw [hsame, Option.none_or] at h
      by_cases hzero : v = 0 ∧ known.length < 12
      · rw [if_pos ⟨hzero.2, decide_eq_true hzero.1.symm⟩] at h
        obtain ⟨rfl, rfl⟩ := Prod.mk.inj (Option.some.inj h)
        exact .inl ⟨hzero.1, hzero.2, rfl, rfl⟩
      · have hfree : ¬ (known.length < 12 ∧
            (decide (unsigned v < unsigned (0 + (freq / 16 : ℕ))) &&
              decide (unsigned (0 - (freq / 16 : ℕ)) < unsigned v)) = true) := by
          rw [Bool.and_eq_true, decide_eq_true_iff, decide_eq_true_iff]
          exact fun hp => not_close_free hfreq v hp.2
        rw [if_neg fun hp => hzero ⟨(of_decide_eq_true hp.2).symm, hp.1⟩, if_neg hfree,
          Option.or_none] at h
        cases hclose : known.findIdx? fun b => unsigned v < unsigned (b + (freq / 16 : ℕ)) &&
            unsigned (b - (freq / 16 : ℕ)) < unsigned v with
        | some s =>
            rw [hclose] at h
            obtain ⟨rfl, rfl⟩ := Prod.mk.inj (Option.some.inj h)
            obtain ⟨hs, hnear, -⟩ := List.findIdx?_eq_some_iff_getElem.mp hclose
            have hmem := List.getElem_mem hs
            rw [Bool.and_eq_true, decide_eq_true_iff, decide_eq_true_iff,
              close_iff hfreq (hknown _ hmem) hv] at hnear
            have hpos := (hknown _ hmem).1
            have hlt := abs_lt.mp hnear.2
            refine .inr (.inl ⟨by omega, .inr ⟨_, hmem, hnear⟩, rfl, _,
              List.getElem?_eq_getElem hs, ?_⟩)
            rw [abs_sub_comm]
            omega
        | none =>
            have hfar : ¬ ∃ e ∈ known, ((freq / 16 : ℕ) : ℤ) ≤ e ∧ |v - e| < (freq / 16 : ℕ) := by
              rintro ⟨e, hmem, hnear⟩
              have hnot := List.findIdx?_eq_none_iff.mp hclose e hmem
              have hyes := (close_iff hfreq (hknown e hmem) hv).mpr hnear
              rw [decide_eq_true hyes.1, decide_eq_true hyes.2] at hnot
              cases hnot
            have hlast : known.findIdx? (fun b => decide (b = 0)) = none := by
              apply List.findIdx?_eq_none_iff.mpr
              intro e hmem
              exact decide_eq_false (by have hpos := (hknown e hmem).1; omega)
            rw [hclose, hlast, Option.none_or] at h
            by_cases hroom : known.length < 12
            · rw [if_pos ⟨hroom, rfl⟩, Option.map_some, Slots.table_set hroom] at h
              obtain ⟨rfl, rfl⟩ := Prod.mk.inj (Option.some.inj h)
              refine .inr (.inr ⟨fun hv => hzero ⟨hv, hroom⟩, ?_, hroom, rfl, rfl⟩)
              rintro (hmem | hnear)
              · exact hnew hmem
              · exact hfar hnear
            · rw [if_neg fun hp => hroom hp.1] at h
              cases h

/-- An index keeps the length that it has. -/
theorem burstIndex_keeps {bsa bsa' : List ℤ} {i s : ℕ} {e : ℤ}
    (h : burstIndex freq bsa v = some (i, bsa')) (he : bsa[s]? = some e) (hne : e ≠ 0) :
    bsa'[s]? = some e := by
  rw [burstIndex] at h
  split at h
  · rw [← (Prod.mk.inj (Option.some.inj h)).2]
    exact he
  · split at h
    · rw [← (Prod.mk.inj (Option.some.inj h)).2]
      exact he
    · obtain ⟨k, hfree, heq⟩ := Option.map_eq_some_iff.mp h
      obtain ⟨hk, hzero, -⟩ := List.findIdx?_eq_some_iff_getElem.mp hfree
      have hks : k ≠ s := by
        rintro rfl
        rw [List.getElem?_eq_getElem hk, Option.some.injEq] at he
        exact hne (he ▸ of_decide_eq_true hzero)
      rw [← (Prod.mk.inj heq).2, List.getElem?_set_ne hks]
      exact he

theorem burstLoop_cons {x : ℤ} {xs bsa bsa' : List ℤ} {indices : List ℕ}
    (h : burstLoop freq (x :: xs) bsa = some (indices, bsa')) :
    ∃ i bsa₁ rest, indices = i :: rest ∧ burstIndex freq bsa (lengthOf x) = some (i, bsa₁) ∧
      burstLoop freq xs bsa₁ = some (rest, bsa') := by
  obtain ⟨⟨i, bsa₁⟩, hindex, hmap⟩ := Option.bind_eq_some_iff.mp h
  obtain ⟨⟨rest, bsa₂⟩, hloop, heq⟩ := Option.map_eq_some_iff.mp hmap
  obtain ⟨rfl, rfl⟩ := Prod.mk.inj heq
  exact ⟨i, bsa₁, rest, rfl, hindex, hloop⟩

theorem burstLoop_keeps {xs bsa bsa' : List ℤ} {indices : List ℕ} {s : ℕ} {e : ℤ}
    (h : burstLoop freq xs bsa = some (indices, bsa')) (he : bsa[s]? = some e) (hne : e ≠ 0) :
    bsa'[s]? = some e := by
  induction xs generalizing bsa indices with
  | nil =>
      rw [← (Prod.mk.inj (Option.some.inj h)).2]
      exact he
  | cons x xs ih =>
      obtain ⟨i, bsa₁, rest, -, hindex, hloop⟩ := burstLoop_cons h
      exact ih hloop (burstIndex_keeps hindex he hne)

/-- The samples are values of an `int`. -/
def IsInt (x : ℤ) : Prop := -(2 ^ 31) ≤ x ∧ x < 2 ^ 31

theorem IsInt.lengthOf {x : ℤ} (h : IsInt x) : -(2 ^ 28) ≤ lengthOf x ∧ lengthOf x ≤ 2 ^ 28 := by
  obtain ⟨hlow, hhigh⟩ := h
  rw [Tira.lengthOf]
  rcases Int.le_total 0 x with hx | hx
  · rw [Int.tdiv_eq_ediv_of_nonneg hx]
    omega
  · have hneg : (-x).tdiv 8 = -(x.tdiv 8) := Int.neg_tdiv x 8
    rw [Int.tdiv_eq_ediv_of_nonneg (by omega)] at hneg
    omega

theorem newLengths_subset (near : ℤ) (known vs : List ℤ) : newLengths near known vs ⊆ vs := by
  induction vs generalizing known with
  | nil => exact List.Subset.refl _
  | cons v vs ih =>
      rw [newLengths]
      split
      · exact List.subset_cons_of_subset v (ih known)
      · exact List.cons_subset_cons v (ih _)

theorem Writable.newLengths {near : ℤ} {vs : List ℤ} (h : Writable near known vs) :
    ∀ w ∈ newLengths near known vs, 0 < w ∧ w < 2 ^ 16 := by
  induction vs generalizing known with
  | nil => exact nofun
  | cons v vs ih =>
      rw [Writable] at h
      rw [Tira.newLengths]
      by_cases hzero : v = 0
      · rw [if_pos hzero] at h
        rw [if_pos (.inl hzero)]
        exact ih h.2
      · rw [if_neg hzero] at h
        by_cases hknown : Known near known v
        · rw [if_pos hknown] at h
          rw [if_pos (.inr hknown)]
          exact ih h
        · rw [if_neg hknown] at h
          rw [if_neg fun hor => hor.elim hzero hknown]
          obtain ⟨hpos, hlt, h⟩ := h
          intro w hw
          rcases List.mem_cons.mp hw with rfl | hw
          · exact ⟨hpos, hlt⟩
          · exact ih h w hw

/-- The table after the loop, when all new lengths can be written. -/
theorem burstLoop_table {xs bsa : List ℤ} {indices : List ℕ} (hfreq : freq ≤ 255)
    (hknown : ∀ e ∈ known, 0 < e ∧ e < 2 ^ 16) (hxs : ∀ x ∈ xs, IsInt x)
    (hwrite : Writable (freq / 16 : ℕ) known (xs.map lengthOf))
    (h : burstLoop freq xs (Slots.table 12 0 known) = some (indices, bsa)) :
    bsa = Slots.table 12 0 (known ++ newLengths (freq / 16 : ℕ) known (xs.map lengthOf)) := by
  induction xs generalizing known indices with
  | nil =>
      rw [List.map_nil, newLengths, List.append_nil]
      exact (Prod.mk.inj (Option.some.inj h)).2.symm
  | cons x xs ih =>
      obtain ⟨hx, hxs⟩ := List.forall_mem_cons.mp hxs
      obtain ⟨i, bsa₁, rest, -, hindex, hloop⟩ := burstLoop_cons h
      rw [List.map_cons, Writable] at hwrite
      rw [List.map_cons, newLengths]
      obtain ⟨hzero, -, -, rfl⟩ | ⟨hzero, hold, rfl, -⟩ | ⟨hzero, hnew, -, -, rfl⟩ :=
        burstIndex_cases hfreq hknown hx.lengthOf hindex
      · rw [if_pos hzero] at hwrite
        rw [if_pos (.inl hzero)]
        exact ih hknown hxs hwrite.2 hloop
      · rw [if_neg hzero, if_pos hold] at hwrite
        rw [if_pos (.inr hold)]
        exact ih hknown hxs hwrite hloop
      · rw [if_neg hzero, if_neg hnew] at hwrite
        rw [if_neg fun hor => hor.elim hzero hnew]
        obtain ⟨hpos, hlt, hwrite⟩ := hwrite
        have hall : ∀ e ∈ known ++ [lengthOf x], 0 < e ∧ e < 2 ^ 16 := by
          intro e he
          rcases List.mem_append.mp he with he | he
          · exact hknown e he
          · rw [List.mem_singleton.mp he]
            exact ⟨hpos, hlt⟩
        rw [ih hall hxs hwrite hloop, List.append_assoc, List.singleton_append]

theorem cut_of_lt {e : ℤ} (h : 0 < e ∧ e < 2 ^ 16) : (cut e : ℤ) = e := by
  rw [cut]
  omega

/-- A length with more bits than are written is not read back. -/
theorem not_near_cut (hfreq : freq ≤ 255) (hzero : v ≠ 0)
    (hnear : |(cut v : ℤ) - v| < max 1 ((freq / 16 : ℕ) : ℤ)) : 0 < v ∧ v < 2 ^ 16 := by
  have habs := abs_lt.mp hnear
  rw [cut] at habs
  omega

theorem standsFor_iff {signals bsa : List ℤ} {x e : ℤ} {i : ℕ} (h : bsa[i]? = some e) :
    StandsFor freq signals (bsa.map cut) x i ↔
      (∃ y ∈ signals, lengthOf y ≠ 0 ∧ (cut e : ℤ) = lengthOf y) ∧
        |(cut e : ℤ) - lengthOf x| < max 1 ((freq / 16 : ℕ) : ℤ) := by
  have hlen : (bsa.map cut)[i]? = some (cut e) := by
    rw [List.getElem?_map, h]
    rfl
  constructor
  · rintro ⟨len, hsome, hstands⟩
    rw [hlen] at hsome
    rw [Option.some.inj hsome]
    exact hstands
  · exact fun hstands => ⟨cut e, hlen, hstands⟩

/-- The indices stand for the samples exactly if the lengths can be written. -/
theorem burstLoop_standsFor_iff {signals xs bsa : List ℤ} {indices : List ℕ} (hfreq : freq ≤ 255)
    (hknown : ∀ e ∈ known, (0 < e ∧ e < 2 ^ 16) ∧ ∃ y ∈ signals, lengthOf y = e)
    (hxs : ∀ x ∈ xs, IsInt x ∧ x ∈ signals)
    (h : burstLoop freq xs (Slots.table 12 0 known) = some (indices, bsa)) :
    List.Forall₂ (StandsFor freq signals (bsa.map cut)) xs indices ↔
      Writable (freq / 16 : ℕ) known (xs.map lengthOf) := by
  induction xs generalizing known indices with
  | nil =>
      rw [← (Prod.mk.inj (Option.some.inj h)).1]
      exact ⟨fun _ => trivial, fun _ => .nil⟩
  | cons x xs ih =>
      obtain ⟨⟨hx, hmem⟩, hxs⟩ := List.forall_mem_cons.mp hxs
      obtain ⟨i, bsa₁, rest, rfl, hindex, hloop⟩ := burstLoop_cons h
      have hgood : ∀ e ∈ known, 0 < e ∧ e < 2 ^ 16 := fun e he => (hknown e he).1
      rw [List.forall₂_cons, List.map_cons, Writable]
      obtain ⟨hzero, hroom, rfl, rfl⟩ | ⟨hzero, hold, rfl, e, he, hnear⟩ |
          ⟨hzero, hnew, hroom, rfl, rfl⟩ := burstIndex_cases hfreq hgood hx.lengthOf hindex
      · rw [if_pos hzero, ih hknown hxs hloop]
        refine and_congr_left fun hwrite => ?_
        have htable := burstLoop_table hfreq hgood (fun x hx => (hxs x hx).1) hwrite hloop
        have hsub := newLengths_subset (freq / 16 : ℕ) known (xs.map lengthOf)
        have hrange := hwrite.newLengths
        cases hnews : newLengths (freq / 16 : ℕ) known (xs.map lengthOf) with
        | nil =>
            -- the slot remains free
            rw [hnews, List.append_nil] at htable
            have hslot : bsa[known.length]? = some 0 := by
              rw [htable]
              exact Slots.getElem?_table_length hroom
            rw [standsFor_iff hslot]
            constructor
            · rintro ⟨⟨y, -, hne, heq⟩, -⟩
              exact absurd heq.symm hne
            · rintro ⟨w, hw, -⟩
              cases hw
        | cons w ws =>
            -- the next new length takes the slot
            rw [hnews] at htable hsub hrange
            have hslot : bsa[known.length]? = some w := by
              rw [htable, Slots.getElem?_table_of_lt (by
                  rw [List.length_append, List.length_cons]
                  omega),
                List.getElem?_append_right (Nat.le_refl _), Nat.sub_self]
              rfl
            have hw := hrange w List.mem_cons_self
            obtain ⟨y, hy, hyw⟩ := List.mem_map.mp (hsub List.mem_cons_self)
            rw [standsFor_iff hslot, cut_of_lt hw, hzero, sub_zero, abs_of_pos hw.1]
            constructor
            · rintro ⟨-, hlt⟩
              exact ⟨w, rfl, by omega⟩
            · rintro ⟨w', hw', hlt⟩
              rw [List.head?_cons, Option.mem_some_iff] at hw'
              exact ⟨⟨y, (hxs y hy).2, by omega, hyw.symm⟩, by omega⟩
      · rw [if_neg hzero, if_pos hold, ih hknown hxs hloop]
        refine and_iff_right ?_
        obtain ⟨hrange, y, hy, heq⟩ := hknown e (List.mem_of_getElem? he)
        have hslot : bsa[i]? = some e := by
          apply burstLoop_keeps hloop _ (by omega)
          rw [Slots.getElem?_table_of_lt (List.getElem?_eq_some_iff.mp he).1]
          exact he
        rw [standsFor_iff hslot, cut_of_lt hrange]
        exact ⟨⟨y, hy, by omega, heq.symm⟩, hnear⟩
      · rw [if_neg hzero, if_neg hnew]
        have hslot : bsa[known.length]? = some (lengthOf x) := by
          apply burstLoop_keeps hloop _ hzero
          rw [Slots.getElem?_table_of_lt (by
              rw [List.length_append, List.length_singleton]
              omega),
            List.getElem?_append_right (Nat.le_refl _), Nat.sub_self]
          rfl
        rw [standsFor_iff hslot]
        have hnext : 0 < lengthOf x ∧ lengthOf x < 2 ^ 16 →
            (List.Forall₂ (StandsFor freq signals (bsa.map cut)) xs rest ↔
              Writable (freq / 16 : ℕ) (known ++ [lengthOf x]) (xs.map lengthOf)) := by
          intro hrange
          refine ih (fun e he => ?_) hxs hloop
          rcases List.mem_append.mp he with he | he
          · exact hknown e he
          · rw [List.mem_singleton.mp he]
            exact ⟨hrange, x, hmem, rfl⟩
        constructor
        · rintro ⟨⟨-, hnear⟩, hrest⟩
          have hrange := not_near_cut hfreq hzero hnear
          exact ⟨hrange.1, hrange.2, (hnext hrange).mp hrest⟩
        · rintro ⟨hpos, hlt, hwrite⟩
          refine ⟨?_, (hnext ⟨hpos, hlt⟩).mpr hwrite⟩
          rw [cut_of_lt ⟨hpos, hlt⟩, sub_self, abs_zero]
          exact ⟨⟨x, hmem, hzero, rfl⟩, by omega⟩

end Table

/-! ### The transmission -/

theorem clockWord_le (freq : ℕ) : clockWord freq ≤ 255 := by
  have hcut : ∀ n : ℕ, (if 255 < n then 255 else n) ≤ 255 := by
    intro n
    split <;> omega
  exact hcut _

/-- The indices are those of slots. -/
theorem burstIndex_lt {freq i : ℕ} {bsa bsa' : List ℤ} {v : ℤ}
    (h : burstIndex freq bsa v = some (i, bsa')) : i < bsa.length ∧ bsa'.length = bsa.length := by
  have hlt : ∀ {p : ℤ → Bool} {s : ℕ}, bsa.findIdx? p = some s → s < bsa.length := by
    intro p s hs
    exact (List.findIdx?_eq_some_iff_getElem.mp hs).1
  rw [burstIndex] at h
  split at h
  · rename_i s hs
    obtain ⟨rfl, rfl⟩ := Prod.mk.inj (Option.some.inj h)
    exact ⟨hlt hs, rfl⟩
  · split at h
    · rename_i s hs
      obtain ⟨rfl, rfl⟩ := Prod.mk.inj (Option.some.inj h)
      exact ⟨hlt hs, rfl⟩
    · obtain ⟨s, hs, heq⟩ := Option.map_eq_some_iff.mp h
      obtain ⟨rfl, rfl⟩ := Prod.mk.inj heq
      exact ⟨hlt hs, List.length_set⟩

theorem burstLoop_length {freq : ℕ} {xs bsa bsa' : List ℤ} {indices : List ℕ}
    (h : burstLoop freq xs bsa = some (indices, bsa')) :
    indices.length = xs.length ∧ bsa'.length = bsa.length ∧ ∀ i ∈ indices, i < bsa.length := by
  induction xs generalizing bsa indices with
  | nil =>
      obtain ⟨rfl, rfl⟩ := Prod.mk.inj (Option.some.inj h)
      exact ⟨rfl, rfl, nofun⟩
  | cons x xs ih =>
      obtain ⟨i, bsa₁, rest, rfl, hindex, hloop⟩ := burstLoop_cons h
      obtain ⟨hi, hlen₁⟩ := burstIndex_lt hindex
      obtain ⟨hrest, hlen, hall⟩ := ih hloop
      rw [hlen₁] at hlen hall
      refine ⟨by rw [List.length_cons, List.length_cons, hrest], hlen, fun k hk => ?_⟩
      rcases List.mem_cons.mp hk with rfl | hk
      · exact hi
      · exact hall k hk

/-- The block for an odd number of samples. -/
theorem sendBlock_reads_iff {freq : ℕ} {signals : List ℤ} {block : List UInt8} (hfreq : freq ≤ 255)
    (hodd : signals.length % 2 = 1) (hint : ∀ x ∈ signals, IsInt x)
    (h : sendBlock freq signals = some block) :
    ReadsBack freq signals block ↔ Writable (freq / 16 : ℕ) [] (signals.map lengthOf) := by
  obtain ⟨⟨indices, bsa⟩, hloop, rfl⟩ := Option.map_eq_some_iff.mp h
  obtain ⟨hlen, hbsa, hlt⟩ := burstLoop_length hloop
  rw [List.length_replicate] at hbsa hlt
  have hpack := packLoop_whole (indices.map Nat.toUInt8)
  rw [List.length_map, hlen] at hpack
  dsimp only
  rw [hpack, ReadsBack, readBlock_sendBlock hbsa hlt (by rw [hlen]; exact hodd)]
  have hiff := @burstLoop_standsFor_iff freq [] signals signals bsa indices hfreq
    (fun e he => nomatch he) (fun x hx => ⟨hint x hx, hx⟩) hloop
  rw [← hiff]
  constructor
  · rintro ⟨indices', heq, -, hall⟩
    rw [(List.append_inj_left' heq rfl : indices = indices')]
    exact hall
  · intro hall
    exact ⟨indices, rfl, fun hmem => absurd (hlt 15 hmem) (by decide), hall⟩

/-- The samples that a driver finds in the send buffer. -/
theorem samples_odd {r : IrRemote} {code : IrNcode} {repeating : Bool} {b : SBuf} {fuel : ℕ}
    {out : SendOut} (hrun : initSend r code repeating b fuel = some out) (hok : out.ok = true) :
    out.buf.samples.length % 2 = 1 := by
  have hloop := initSend_loop hrun hok
  have hodd := initSendLoop_odd hloop hok
  obtain ⟨-, hnonzero⟩ := (checkSendBuffer_iff _).mp (initSendLoop_check hloop hok)
  have hle : out.buf.samples.length ≤ out.buf.wptr := by
    rw [SBuf.samples]
    split
    · exact Nat.zero_le _
    · exact List.length_take_le _ _
    · exact List.length_take_le _ _
  have hge : ¬ out.buf.samples.length < out.buf.wptr := by
    intro hlt
    apply hnonzero _ hlt
    rw [List.getD_eq_getElem?_getD, List.getElem?_eq_none (Nat.le_refl _)]
    rfl
  omega

/-- A block that is written can be read back exactly if each new length fits into 16 bits
and each sample below 8 µs is followed by a new length that is below the tolerance. -/
theorem tiraSend_reads_iff {deviceflags freq fuel : ℕ} {lirccode repeating : Bool} {r : IrRemote}
    {code : IrNcode} {b buf : SBuf} {block : List UInt8}
    (hrun : tiraSend deviceflags lirccode freq r code repeating b fuel = some (some block, buf))
    (hint : ∀ x ∈ buf.samples, IsInt x) :
    ReadsBack (clockWord freq) buf.samples block ↔
      Writable (clockWord freq / 16 : ℕ) [] (buf.samples.map lengthOf) := by
  rw [tiraSend] at hrun
  split at hrun
  · cases hrun
  split at hrun
  · cases hrun
  obtain ⟨out, hsend, heq⟩ := Option.map_eq_some_iff.mp hrun
  obtain ⟨hblock, rfl⟩ := Prod.mk.inj heq
  split at hblock
  · rename_i hok
    exact sendBlock_reads_iff (clockWord_le freq) (samples_odd hsend hok) hint hblock
  · cases hblock

/-- A raw code with these signals. -/
def signalsCode (signals : List ℤ) : IrNcode :=
  { name := ['k'], code := 1, signals := some signals }

/-- A pulse and a space of about the same length, and a longer pulse. -/
theorem tiraSend_reads_three :
    ∃ block buf, tiraSend 1 true 38000 pulseRemote (signalsCode [560, 570, 1680]) false
      initSendBuffer 1 = some (some block, buf) ∧ ReadsBack 52 buf.samples block := by
  obtain ⟨⟨block, buf⟩, hrun, hout⟩ := Option.map_eq_some_iff.mp
    (show (tiraSend 1 true 38000 pulseRemote (signalsCode [560, 570, 1680]) false
      initSendBuffer 1).map (fun out => (out.1.isSome, out.2.samples)) =
        some (true, [560, 570, 1680]) by decide +kernel)
  obtain ⟨hsome, hsamples⟩ := Prod.mk.inj hout
  obtain ⟨block, rfl⟩ := Option.isSome_iff_exists.mp hsome
  dsimp only at hsamples
  refine ⟨block, buf, hrun, (tiraSend_reads_iff hrun ?_).mpr ?_⟩
  · rw [hsamples]
    simp only [List.forall_mem_cons, IsInt]
    exact ⟨by decide, by decide, by decide, nofun⟩
  · rw [hsamples]
    decide

/-- A pulse of 5 µs is written with the index of a slot that the space after it takes. -/
theorem tiraSend_not_reads :
    ¬ ∀ (deviceflags freq fuel : ℕ) (lirccode repeating : Bool) (r : IrRemote) (code : IrNcode)
        (b buf : SBuf) (block : List UInt8),
      tiraSend deviceflags lirccode freq r code repeating b fuel = some (some block, buf) →
      (∀ x ∈ buf.samples, IsInt x) → ReadsBack (clockWord freq) buf.samples block := by
  intro h
  obtain ⟨⟨block, buf⟩, hrun, hout⟩ := Option.map_eq_some_iff.mp
    (show (tiraSend 1 true 38000 pulseRemote (signalsCode [5, 600, 1680]) false
      initSendBuffer 1).map (fun out => (out.1.map readBlock, out.2.samples)) =
        some (some ⟨[75, 210, 0, 0, 0, 0, 0, 0, 0, 0, 0, 0], [0, 0, 1, 15]⟩, [5, 600, 1680]) by
      decide +kernel)
  obtain ⟨hread, hsamples⟩ := Prod.mk.inj hout
  obtain ⟨block, rfl, hblock⟩ := Option.map_eq_some_iff.mp hread
  dsimp only at hsamples
  obtain ⟨indices, heq, -, hall⟩ := h _ _ _ _ _ _ _ _ _ _ hrun (by
    rw [hsamples]
    simp only [List.forall_mem_cons, IsInt]
    exact ⟨by decide, by decide, by decide, nofun⟩)
  rw [hsamples, hblock] at hall
  rw [hblock] at heq
  cases hall with
  | cons hfirst _ =>
      rw [List.cons_append] at heq
      obtain ⟨len, hlen, -, hnear⟩ := hfirst
      rw [← (List.cons.inj heq).1] at hlen
      rw [← Option.some.inj hlen] at hnear
      exact absurd hnear (by decide)

end Tira

end Lirc
