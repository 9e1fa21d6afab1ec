import Lirc.Library.Extent
import Mathlib.Data.BitVec
import Mathlib.Data.Int.Basic
import Mathlib.Data.List.Nodup

/-!
The transmitter mask of `hw_commandir.c`: its bits as a list of numbers, and the numbers
as the emitters of the devices. The list of bits has room for as many as the mask has
bytes, and the loop over it reads an entry before it looks whether there is one.
-/

namespace Lirc

namespace Commandir

open Extent

/-- The loop over the bits of the mask. -/
def bitsLoop : ℕ → BitVec 32 → ℤ → List ℤ
  | 0, _, _ => []
  | n + 1, tmpMask, bitnum =>
      (if tmpMask &&& 1 ≠ 0 then [bitnum] else []) ++ bitsLoop n (tmpMask >>> 1) (bitnum + 1)

/-- `list_of_bits` -/
def listOfBits (bitmask : BitVec 32) : List ℤ := bitsLoop 32 bitmask 1

/-- What the mask changes of `struct commandir_device`. The first entries of
`next_enabled_emitters_list` are those that count, and `allocated` is its size. -/
structure Emitters where
  numTransmitters : ℕ
  allocated : ℕ
  nextEnabledEmittersList : List ℤ
  deriving DecidableEq, Repr

/-- The list of a device, `current_enable_these` after it and the indices at which
`ar_current_tx_mask_list` has been read. -/
structure Enabling where
  list : List ℤ
  current : ℕ
  reads : List ℕ
  deriving DecidableEq, Repr

/-- The inner loop of `set_all_next_tx_mask` -/
def enableLoop (mem : ℕ → ℤ) (newTxLen : ℕ) (startEmitterNum : ℤ) (numTransmitters : ℕ)
    (current : ℕ) : Enabling :=
  if mem current < startEmitterNum + numTransmitters ∧ current < newTxLen then
    let out := enableLoop mem newTxLen startEmitterNum numTransmitters (current + 1)
    { out with
      list := (mem current - startEmitterNum + 1) :: out.list
      reads := current :: out.reads }
  else { list := [], current := current, reads := [current] }
termination_by newTxLen - current

/-- The loop over the devices. -/
def deviceLoop (mem : ℕ → ℤ) (newTxLen : ℕ) : ℤ → ℕ → List Emitters → List Emitters × List ℕ
  | _, _, [] => ([], [])
  | startEmitterNum, current, pcd :: rest =>
      let out := enableLoop mem newTxLen startEmitterNum pcd.numTransmitters current
      let after := deviceLoop mem newTxLen (startEmitterNum + pcd.numTransmitters) out.current rest
      ({ pcd with nextEnabledEmittersList := out.list } :: after.1, out.reads ++ after.2)

/-- `set_all_next_tx_mask`: the devices, and the reads of `ar_current_tx_mask_list`. -/
def setAllNextTxMask (arNewTxMaskList : List ℤ) (beyond : ℕ → ℤ) (devices : List Emitters) :
    List Emitters × List ℕ :=
  deviceLoop (memory arNewTxMaskList beyond) arNewTxMaskList.length 1 0 devices

/-- The devices after the mask has been set, the entries of `list_of_bits` that are
written, and those of `ar_current_tx_mask_list` that are read. -/
structure MaskSet where
  devices : List Emitters
  written : List ℕ
  reads : List ℕ

/-- `set_convert_int_bitmask_to_list_of_enabled_bits` -/
def setMask (bitmask : BitVec 32) (beyond : ℕ → ℤ) (devices : List Emitters) : MaskSet :=
  let bits := listOfBits bitmask
  let out := setAllNextTxMask bits beyond devices
  { devices := out.1, written := List.range bits.length, reads := out.2 }

/-- The number of emitters of these devices. -/
def emitterCount (devices : List Emitters) : ℕ := (devices.map Emitters.numTransmitters).sum

/-- The device `d` lists its emitters in the mask when there are `before` emitters ahead
of it, each once, and has room for them. -/
structure Lists (bitmask : BitVec 32) (before : ℕ) (d : Emitters) : Prop where
  nodup : d.nextEnabledEmittersList.Nodup
  mem_iff : ∀ k : ℤ, k ∈ d.nextEnabledEmittersList ↔
    0 < k ∧ k ≤ d.numTransmitters ∧ bitmask.getLsbD (before + k - 1).toNat = true
  length_le : d.nextEnabledEmittersList.length ≤ d.allocated

/-- Each bit of the mask is listed once, by the device with the emitter, and no list is
accessed outside of the size it was allocated with. -/
structure Distributes (bitmask : BitVec 32) (bitmaskLen : ℕ) (devices : List Emitters)
    (out : MaskSet) : Prop where
  length_eq : out.devices.length = devices.length
  lists : ∀ earlier pcd later, devices = earlier ++ pcd :: later →
    ∃ list, out.devices[earlier.length]? = some { pcd with nextEnabledEmittersList := list } ∧
      Lists bitmask (emitterCount earlier) { pcd with nextEnabledEmittersList := list }
  written : ∀ i ∈ out.written, i < bitmaskLen
  reads : ∀ i ∈ out.reads, i < (listOfBits bitmask).length

/-! ### The bits of the mask -/

theorem and_one_ne_zero_iff (mask : BitVec 32) : mask &&& 1 ≠ 0 ↔ mask.getLsbD 0 = true := by
  have h := BitVec.and_one_eq_setWidth_ofBool_getLsbD (x := mask)
  change mask &&& 1 = _ at h
  rw [h]
  cases mask.getLsbD 0 <;> decide

theorem mem_bitsLoop {n : ℕ} {mask : BitVec 32} {first b : ℤ} :
    b ∈ bitsLoop n mask first ↔
      first ≤ b ∧ b < first + n ∧ mask.getLsbD (b - first).toNat = true := by
  induction n generalizing mask first with
  | zero =>
      refine ⟨nofun, fun h => ?_⟩
      omega
  | succ n ih =>
      rw [bitsLoop, List.mem_append, ih, BitVec.getLsbD_ushiftRight]
      have hfirst : b ∈ (if mask &&& 1 ≠ 0 then [first] else []) ↔
          b = first ∧ mask.getLsbD 0 = true := by
        rw [← and_one_ne_zero_iff]
        split
        · rw [List.mem_singleton]
          exact (and_iff_left ‹_›).symm
        · exact ⟨nofun, fun h => absurd h.2 ‹_›⟩
      rw [hfirst]
      constructor
      · rintro (⟨rfl, hbit⟩ | ⟨hle, hlt, hbit⟩)
        · rw [sub_self]
          exact ⟨Int.le_refl b, by omega, hbit⟩
        · have hindex : 1 + (b - (first + 1)).toNat = (b - first).toNat := by omega
          rw [hindex] at hbit
          exact ⟨by omega, by omega, hbit⟩
      · rintro ⟨hle, hlt, hbit⟩
        by_cases heq : b = first
        · rw [heq, sub_self] at hbit
          exact .inl ⟨heq, hbit⟩
        · have hindex : 1 + (b - (first + 1)).toNat = (b - first).toNat := by omega
          rw [hindex]
          exact .inr ⟨by omega, by omega, hbit⟩

theorem bitsLoop_ascending (n : ℕ) (mask : BitVec 32) (first : ℤ) :
    (bitsLoop n mask first).Pairwise (· < ·) := by
  induction n generalizing mask first with
  | zero => exact .nil
  | succ n ih =>
      rw [bitsLoop, List.pairwise_append]
      refine ⟨?_, ih _ _, fun a ha b hb => ?_⟩
      · split
        · exact List.pairwise_singleton _ _
        · exact .nil
      · have hb := (mem_bitsLoop.mp hb).1
        split at ha
        · rw [List.mem_singleton.mp ha]
          omega
        · cases ha

/-! ### The loops over the devices -/

/-- The numbers below a bound. -/
def below (bits : List ℤ) (bound : ℤ) : List ℤ := bits.filter (· < bound)

/-- The numbers of the emitters of one device. -/
def between (bits : List ℤ) (start bound : ℤ) : List ℤ := bits.filter fun b => start ≤ b ∧ b < bound

section Ascending

variable {bits : List ℤ}

theorem below_append (h : bits.Pairwise (· < ·)) (bound : ℤ) :
    bits = below bits bound ++ bits.filter (bound ≤ ·) := by
  induction bits with
  | nil => rfl
  | cons b bits ih =>
      obtain ⟨hhead, htail⟩ := List.pairwise_cons.mp h
      by_cases hb : b < bound
      · have hbelow : below (b :: bits) bound = b :: below bits bound :=
          List.filter_cons_of_pos (decide_eq_true hb)
        have hrest : (b :: bits).filter (bound ≤ ·) = bits.filter (bound ≤ ·) :=
          List.filter_cons_of_neg (by
            rw [decide_eq_true_iff]
            omega)
        rw [hbelow, hrest, List.cons_append, ← ih htail]
      · -- all that follow are above the bound too
        have hall : ∀ c ∈ b :: bits, bound ≤ c := by
          intro c hc
          rcases List.mem_cons.mp hc with rfl | hc
          · omega
          · have hlt := hhead c hc
            omega
        have hnone : below (b :: bits) bound = [] := by
          apply List.filter_eq_nil_iff.mpr
          intro c hc hlt
          have hle := hall c hc
          have hlt := of_decide_eq_true hlt
          omega
        rw [hnone, List.nil_append, List.filter_eq_self.mpr fun c hc => decide_eq_true (hall c hc)]

theorem below_between (h : bits.Pairwise (· < ·)) {start bound : ℤ} (hle : start ≤ bound) :
    below bits bound = below bits start ++ between bits start bound := by
  have hsplit := @below_append (below bits bound) (h.filter _) start
  rw [below, below, List.filter_filter, List.filter_filter] at hsplit
  rw [below, hsplit, below, between]
  congr 1
  · apply List.filter_congr
    intro b _
    rw [← Bool.decide_and]
    exact decide_eq_decide.mpr (by omega)
  · apply List.filter_congr
    intro b _
    rw [← Bool.decide_and]

theorem length_below_lt_iff (h : bits.Pairwise (· < ·)) (bound : ℤ) :
    (below bits bound).length < bits.length ↔ ∃ b ∈ bits, bound ≤ b := by
  have hlen := congrArg List.length (below_append h bound)
  rw [List.length_append] at hlen
  constructor
  · intro hlt
    obtain ⟨b, hb⟩ := List.exists_mem_of_length_pos
      (show 0 < (bits.filter (bound ≤ ·)).length by omega)
    exact ⟨b, (List.mem_filter.mp hb).1, of_decide_eq_true (List.mem_filter.mp hb).2⟩
  · rintro ⟨b, hb, hle⟩
    have hpos : 0 < (bits.filter (bound ≤ ·)).length :=
      List.length_pos_of_mem (List.mem_filter.mpr ⟨hb, decide_eq_true hle⟩)
    omega

/-- The inner loop takes the numbers up to the first that is not below the bound. -/
theorem enableLoop_append (pre taken rest : List ℤ) (beyond : ℕ → ℤ) (start : ℤ) (num : ℕ)
    (htaken : ∀ b ∈ taken, b < start + num) (hrest : ∀ b ∈ rest, start + num ≤ b) :
    enableLoop (memory (pre ++ (taken ++ rest)) beyond) (pre ++ (taken ++ rest)).length start num
        pre.length =
      { list := taken.map (· - start + 1)
        current := pre.length + taken.length
        reads := List.range' pre.length (taken.length + 1) } := by
  induction taken generalizing pre with
  | nil =>
      rw [enableLoop, List.nil_append, if_neg]
      · rfl
      · rintro ⟨hlt, hin⟩
        cases rest with
        | nil =>
            rw [List.append_nil] at hin
            omega
        | cons b rest =>
            have hle := hrest b List.mem_cons_self
            rw [memory_append] at hlt
            omega
  | cons b taken ih =>
      obtain ⟨hb, htaken⟩ := List.forall_mem_cons.mp htaken
      have hsnoc : pre ++ (b :: taken ++ rest) = (pre ++ [b]) ++ (taken ++ rest) := by
        rw [List.append_assoc, List.singleton_append, List.cons_append]
      have hlen : (pre ++ [b]).length = pre.length + 1 := by
        rw [List.length_append, List.length_singleton]
      have hnext := ih (pre ++ [b]) htaken
      rw [← hsnoc, hlen] at hnext
      rw [enableLoop, if_pos, hnext]
      · rw [List.cons_append, memory_append, List.map_cons, List.length_cons, List.range'_succ]
        dsimp only
        congr 1
        omega
      · rw [List.cons_append, memory_append]
        refine ⟨hb, ?_⟩
        rw [List.length_append, List.length_cons]
        omega

/-- The list of one device, when the numbers up to its own have been taken. -/
theorem enableLoop_eq (h : bits.Pairwise (· < ·)) (beyond : ℕ → ℤ) (start : ℤ) (num : ℕ) :
    enableLoop (memory bits beyond) bits.length start num (below bits start).length =
      { list := (between bits start (start + num)).map (· - start + 1)
        current := (below bits (start + num)).length
        reads := List.range' (below bits start).length
          ((between bits start (start + num)).length + 1) } := by
  have hbelow := below_between h (show start ≤ start + num by omega)
  have hall : bits = below bits start ++ (between bits start (start + num) ++
      bits.filter (start + num ≤ ·)) := by
    rw [← List.append_assoc, ← hbelow]
    exact below_append h (start + num)
  have hloop := enableLoop_append (below bits start) (between bits start (start + num))
    (bits.filter (start + num ≤ ·)) beyond start num
    (fun b hb => (of_decide_eq_true (List.mem_filter.mp hb).2).2)
    (fun b hb => of_decide_eq_true (List.mem_filter.mp hb).2)
  rw [← hall] at hloop
  rw [hloop, hbelow, List.length_append]

end Ascending

/-- The devices with their shares of the numbers. -/
def share (bits : List ℤ) : ℤ → List Emitters → List Emitters
  | _, [] => []
  | start, pcd :: rest =>
      { pcd with
        nextEnabledEmittersList :=
          (between bits start (start + pcd.numTransmitters)).map (· - start + 1) } ::
        share bits (start + pcd.numTransmitters) rest

section Devices

variable {bits : List ℤ}

theorem deviceLoop_devices (h : bits.Pairwise (· < ·)) (beyond : ℕ → ℤ) (start : ℤ)
    (devices : List Emitters) :
    (deviceLoop (memory bits beyond) bits.length start (below bits start).length devices).1 =
      share bits start devices := by
  induction devices generalizing start with
  | nil => rfl
  | cons pcd rest ih =>
      rw [deviceLoop, enableLoop_eq h, share]
      exact congrArg _ (ih _)

theorem emitterCount_cons (pcd : Emitters) (rest : List Emitters) :
    emitterCount (pcd :: rest) = pcd.numTransmitters + emitterCount rest := by
  rw [emitterCount, List.map_cons, List.sum_cons, emitterCount]

/-- The reads for one device. -/
theorem forall_range'_lt_iff {first n len : ℕ} :
    (∀ i ∈ List.range' first (n + 1), i < len) ↔ first + n < len := by
  constructor
  · intro h
    exact h (first + n) (List.mem_range'_1.mpr (by omega))
  · intro h i hi
    have hi := List.mem_range'_1.mp hi
    omega

/-- The reads stay within the list exactly if a number is left over at the end. -/
theorem deviceLoop_reads (h : bits.Pairwise (· < ·)) (beyond : ℕ → ℤ) (start : ℤ)
    {devices : List Emitters} (hne : devices ≠ []) :
    (∀ i ∈ (deviceLoop (memory bits beyond) bits.length start (below bits start).length devices).2,
      i < bits.length) ↔ ∃ b ∈ bits, start + emitterCount devices ≤ b := by
  induction devices generalizing start with
  | nil => exact absurd rfl hne
  | cons pcd rest ih =>
      have hbelow := below_between h (show start ≤ start + pcd.numTransmitters by omega)
      have hlen := congrArg List.length hbelow
      rw [List.length_append] at hlen
      rw [deviceLoop, enableLoop_eq h, emitterCount_cons]
      simp only [List.mem_append, or_imp, forall_and]
      rw [forall_range'_lt_iff, ← hlen, length_below_lt_iff h]
      by_cases hrest : rest = []
      · rw [hrest]
        exact and_iff_left nofun
      · rw [ih _ hrest]
        constructor
        · rintro ⟨-, b, hb, hle⟩
          exact ⟨b, hb, by omega⟩
        · rintro ⟨b, hb, hle⟩
          exact ⟨⟨b, hb, by omega⟩, b, hb, by omega⟩

/-- The share of a device, after those of the devices ahead of it. -/
theorem share_append (bits : List ℤ) (start : ℤ) (earlier later : List Emitters) (pcd : Emitters) :
    (share bits start (earlier ++ pcd :: later))[earlier.length]? = some { pcd with
      nextEnabledEmittersList := (between bits (start + emitterCount earlier)
        (start + emitterCount earlier + pcd.numTransmitters)).map
          (· - (start + emitterCount earlier) + 1) } := by
  induction earlier generalizing start with
  | nil =>
      have hzero : start + (emitterCount [] : ℕ) = start := by
        rw [emitterCount, List.map_nil, List.sum_nil]
        omega
      rw [hzero]
      rfl
  | cons e earlier ih =>
      have hnext : start + (emitterCount (e :: earlier) : ℕ) =
          start + e.numTransmitters + emitterCount earlier := by
        rw [emitterCount_cons]
        omega
      rw [hnext]
      exact ih (start + e.numTransmitters)

theorem length_share (bits : List ℤ) (start : ℤ) (devices : List Emitters) :
    (share bits start devices).length = devices.length := by
  induction devices generalizing start with
  | nil => rfl
  | cons pcd rest ih => exact congrArg (· + 1) (ih _)

end Devices

/-! ### Counting bits -/

/-- How many of `count` bits are set, from the bit `first` on. -/
def bitsSetIn (bitmask : BitVec 32) (first count : ℕ) : ℕ :=
  ((List.range count).filter fun k => bitmask.getLsbD (first + k)).length

section Count

variable {bitmask : BitVec 32}

theorem length_eq_bitsSetIn {first count : ℕ} {list : List ℤ} (hnodup : list.Nodup)
    (hmem : ∀ b, b ∈ list ↔
      (first : ℤ) < b ∧ b ≤ first + count ∧ bitmask.getLsbD (b - 1).toNat = true) :
    list.length = bitsSetIn bitmask first count := by
  have hinj : Function.Injective fun k : ℕ => (first + k + 1 : ℤ) := by
    intro a b heq
    dsimp only at heq
    omega
  have hperm : list.Perm (((List.range count).filter fun k => bitmask.getLsbD (first + k)).map
      fun k : ℕ => (first + k + 1 : ℤ)) := by
    rw [List.perm_ext_iff_of_nodup hnodup ((List.nodup_range.filter _).map hinj)]
    intro b
    rw [hmem, List.mem_map]
    simp only [List.mem_filter, List.mem_range]
    constructor
    · rintro ⟨hlt, hle, hbit⟩
      have hindex : first + (b - 1 - first).toNat = (b - 1).toNat := by omega
      exact ⟨(b - 1 - first).toNat, ⟨by omega, by rw [hindex]; exact hbit⟩, by omega⟩
    · rintro ⟨k, ⟨hk, hbit⟩, rfl⟩
      have hindex : ((first + k + 1 : ℤ) - 1).toNat = first + k := by omega
      exact ⟨by omega, by omega, by rw [hindex]; exact hbit⟩
  rw [hperm.length_eq, List.length_map, bitsSetIn]

theorem mem_listOfBits {b : ℤ} :
    b ∈ listOfBits bitmask ↔ 0 < b ∧ bitmask.getLsbD (b - 1).toNat = true := by
  rw [listOfBits, mem_bitsLoop]
  constructor
  · rintro ⟨hle, -, hbit⟩
    exact ⟨by omega, hbit⟩
  · rintro ⟨hpos, hbit⟩
    have hlt := BitVec.lt_of_getLsbD hbit
    exact ⟨by omega, by omega, hbit⟩

theorem listOfBits_ascending (bitmask : BitVec 32) : (listOfBits bitmask).Pairwise (· < ·) :=
  bitsLoop_ascending 32 bitmask 1

theorem length_listOfBits (bitmask : BitVec 32) :
    (listOfBits bitmask).length = bitsSetIn bitmask 0 32 := by
  apply length_eq_bitsSetIn (listOfBits_ascending bitmask).nodup
  intro b
  rw [mem_listOfBits]
  constructor
  · rintro ⟨hpos, hbit⟩
    have hlt := BitVec.lt_of_getLsbD hbit
    exact ⟨by omega, by omega, hbit⟩
  · rintro ⟨hpos, -, hbit⟩
    exact ⟨by omega, hbit⟩

theorem mem_between {before num : ℕ} {b : ℤ} :
    b ∈ between (listOfBits bitmask) (1 + before) (1 + before + num) ↔
      (before : ℤ) < b ∧ b ≤ before + num ∧ bitmask.getLsbD (b - 1).toNat = true := by
  rw [between, List.mem_filter, mem_listOfBits, decide_eq_true_iff]
  constructor
  · rintro ⟨⟨-, hbit⟩, hle, hlt⟩
    exact ⟨by omega, by omega, hbit⟩
  · rintro ⟨hlt, hle, hbit⟩
    exact ⟨⟨by omega, hbit⟩, by omega, by omega⟩

/-- The share of a device has its emitters in the mask, each once. -/
theorem lists_share_iff (before : ℕ) (pcd : Emitters) :
    Lists bitmask before { pcd with
      nextEnabledEmittersList := (between (listOfBits bitmask) (1 + before)
        (1 + before + pcd.numTransmitters)).map (· - (1 + before) + 1) } ↔
      bitsSetIn bitmask before pcd.numTransmitters ≤ pcd.allocated := by
  have hnodup :
      (between (listOfBits bitmask) (1 + before) (1 + before + pcd.numTransmitters)).Nodup :=
    ((listOfBits_ascending bitmask).filter _).nodup
  have hlen := length_eq_bitsSetIn hnodup fun b => mem_between
  rw [← hlen]
  constructor
  · intro h
    have hle := h.length_le
    rw [List.length_map] at hle
    exact hle
  · intro hle
    refine ⟨hnodup.map fun a b heq => ?_, fun k => ?_, by rw [List.length_map]; exact hle⟩
    · omega
    · rw [List.mem_map]
      constructor
      · rintro ⟨b, hb, rfl⟩
        obtain ⟨hlt, hle, hbit⟩ := mem_between.mp hb
        have hindex : ((before : ℤ) + (b - (1 + before) + 1) - 1).toNat = (b - 1).toNat := by omega
        exact ⟨by omega, by show _ ≤ (pcd.numTransmitters : ℤ); omega, by rw [hindex]; exact hbit⟩
      · rintro ⟨hpos, hle, hbit⟩
        change k ≤ (pcd.numTransmitters : ℤ) at hle
        exact ⟨before + k, mem_between.mpr ⟨by omega, by omega, hbit⟩, by omega⟩

end Count

/-- The mask is distributed, and no list is accessed outside of its size, exactly if it
has not more bits than the size of the list of bits, there is a bit beyond the emitters
(or no device), and each device has room for its emitters. -/
theorem setMask_distributes_iff (bitmask : BitVec 32) (bitmaskLen : ℕ) (beyond : ℕ → ℤ)
    (devices : List Emitters) :
    Distributes bitmask bitmaskLen devices (setMask bitmask beyond devices) ↔
      bitsSetIn bitmask 0 32 ≤ bitmaskLen ∧
      (devices = [] ∨ ∃ i, bitmask.getLsbD i = true ∧ emitterCount devices ≤ i) ∧
      ∀ earlier pcd later, devices = earlier ++ pcd :: later →
        bitsSetIn bitmask (emitterCount earlier) pcd.numTransmitters ≤ pcd.allocated := by
  have hascending := listOfBits_ascending bitmask
  have hbelow : below (listOfBits bitmask) 1 = [] := by
    apply List.filter_eq_nil_iff.mpr
    intro b hb hlt
    have hpos := (mem_listOfBits.mp hb).1
    have hlt := of_decide_eq_true hlt
    omega
  have hdevices := deviceLoop_devices hascending beyond 1 devices
  rw [hbelow, List.length_nil] at hdevices
  have hreads : (∀ i ∈ (setMask bitmask beyond devices).reads, i < (listOfBits bitmask).length) ↔
      devices = [] ∨ ∃ i, bitmask.getLsbD i = true ∧ emitterCount devices ≤ i := by
    by_cases hne : devices = []
    · rw [hne]
      exact ⟨fun _ => .inl rfl, fun _ => nofun⟩
    · have hloop := deviceLoop_reads hascending beyond 1 hne
      rw [hbelow, List.length_nil] at hloop
      refine hloop.trans ?_
      rw [or_iff_right hne]
      constructor
      · rintro ⟨b, hb, hle⟩
        exact ⟨(b - 1).toNat, (mem_listOfBits.mp hb).2, by omega⟩
      · rintro ⟨i, hbit, hle⟩
        have hindex : ((i : ℤ) + 1 - 1).toNat = i := by omega
        exact ⟨i + 1, mem_listOfBits.mpr ⟨by omega, by rw [hindex]; exact hbit⟩, by omega⟩
  have hwritten : (∀ i ∈ (setMask bitmask beyond devices).written, i < bitmaskLen) ↔
      bitsSetIn bitmask 0 32 ≤ bitmaskLen := by
    rw [← length_listOfBits]
    constructor
    · intro h
      by_contra hlt
      exact absurd (h bitmaskLen (List.mem_range.mpr (by omega))) (Nat.lt_irrefl _)
    · intro hle i hi
      have hi := List.mem_range.mp hi
      omega
  have hshare : ∀ earlier pcd later, devices = earlier ++ pcd :: later →
      ((∃ list, (setMask bitmask beyond devices).devices[earlier.length]? =
          some { pcd with nextEnabledEmittersList := list } ∧
        Lists bitmask (emitterCount earlier) { pcd with nextEnabledEmittersList := list }) ↔
      bitsSetIn bitmask (emitterCount earlier) pcd.numTransmitters ≤ pcd.allocated) := by
    intro earlier pcd later heq
    have hget := share_append (listOfBits bitmask) 1 earlier later pcd
    rw [← heq, ← hdevices] at hget
    change (setMask bitmask beyond devices).devices[earlier.length]? = _ at hget
    rw [hget, ← lists_share_iff]
    constructor
    · rintro ⟨list, hsome, hlists⟩
      rw [Option.some.inj hsome]
      exact hlists
    · exact fun hlists => ⟨_, rfl, hlists⟩
  constructor
  · intro h
    exact ⟨hwritten.mp h.written, hreads.mp h.reads, fun earlier pcd later heq =>
      (hshare earlier pcd later heq).mp (h.lists earlier pcd later heq)⟩
  · rintro ⟨hlen, hbit, hroom⟩
    refine ⟨?_, fun earlier pcd later heq => (hshare earlier pcd later heq).mpr
      (hroom earlier pcd later heq), hwritten.mpr hlen, hreads.mpr hbit⟩
    show (deviceLoop _ _ 1 0 devices).1.length = _
    rw [hdevices, length_share]

/-- One emitter of a device with four is enabled: behind the one number of the list
another is read. -/
theorem setMask_not_distributes :
    ¬ ∀ (bitmask : BitVec 32) (beyond : ℕ → ℤ) (devices : List Emitters),
      (∀ pcd ∈ devices, pcd.allocated = pcd.numTransmitters) →
        Distributes bitmask 4 devices (setMask bitmask beyond devices) := by
  intro h
  have hreads := (h 1 (fun _ => 0) [⟨4, 4, []⟩] (by decide)).reads
  have hread : 1 ∈ (setMask 1 (fun _ => 0) [⟨4, 4, []⟩]).reads := by decide +kernel
  have hlt := hreads 1 hread
  rw [length_listOfBits] at hlt
  exact absurd hlt (by decide)

end Commandir

end Lirc
