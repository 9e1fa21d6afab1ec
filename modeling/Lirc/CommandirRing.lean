import Lirc.Library.Ring
import Mathlib.Data.Int.Basic
import Mathlib.Data.List.Induction
import Mathlib.Tactic.Linarith

/-!
`commandir3_convert_RX` of `hw_commandir.c`: the bytes of the packets from a CommandIR III
go through a ring, and the records that are complete become values for the lirc pipe. When
the two indices are equal after a packet, the ring is taken to be full.
-/

namespace Lirc

namespace Commandir

open Ring

/-- `MAX_INCOMING_BUFFER` -/
def maxIncomingBuffer : ℕ := 1024

/-- A value for the lirc pipe; a pulse has the `PULSE_BIT` set. -/
structure PipeValue where
  pulse : Bool
  value : ℤ
  deriving DecidableEq, Repr

/-- The records of the device. -/
inductive RecordKind
  | pulseDef
  | pulse
  | space
  | pulseDemod
  | spaceDemod
  deriving DecidableEq, Repr

namespace RecordKind

/-- `USB_RX_PULSE_DEF` and so on -/
def code : RecordKind → UInt8
  | pulseDef => 31
  | pulse => 32
  | space => 33
  | pulseDemod => 34
  | spaceDemod => 35

/-- The bytes behind the code. -/
def size : RecordKind → ℕ
  | pulse => 2
  | _ => 4

def ofCode (c : UInt8) : Option RecordKind :=
  [pulseDef, pulse, space, pulseDemod, spaceDemod].find? fun kind => kind.code = c

@[simp] theorem ofCode_code (kind : RecordKind) : ofCode kind.code = some kind := by
  cases kind <;> rfl

end RecordKind

/-- `USB_NO_DATA_BYTE` -/
def noDataByte : UInt8 := 36

/-- The `unsigned short` at an offset of a structure. -/
def ushort (payload : List UInt8) (i : ℕ) : ℕ :=
  (payload.getD i 0).toNat + 256 * (payload.getD (i + 1) 0).toNat

/-- A length from `pca_overflow_count` and `pca_offset`, in the arithmetic of `int`. -/
def pcaLength (payload : List UInt8) : ℤ :=
  (((ushort payload 2 : ℤ) + ushort payload 0 * 0xffff).bmod (2 ^ 32)).tdiv 48

section

-- the length of a pulse from `t0_count` and the frequency, in the arithmetic of `float`
variable (pulseLength : ℕ → ℕ → ℤ)

/-- What is written to the pipe for a record. -/
def recordValue (frequency : ℕ) (kind : RecordKind) (payload : List UInt8) : Option PipeValue :=
  match kind with
  | .pulseDef => none
  | .pulse => some ⟨true, pulseLength (ushort payload 0) frequency⟩
  | .space => some ⟨false, pcaLength payload⟩
  | .pulseDemod => some ⟨true, pcaLength payload⟩
  | .spaceDemod => some ⟨false, pcaLength payload⟩

/-- `currentPCA_Frequency` after a record. -/
def recordFrequency (frequency : ℕ) (kind : RecordKind) (payload : List UInt8) : ℕ :=
  match kind with
  | .pulseDef => ushort payload 0
  | _ => frequency

/-- The static variables, what has been written to the lirc pipe, and the bytes of the
ring that have been parsed. -/
structure RxState where
  ring : ℕ → UInt8 := fun _ => 0
  write : ℕ := 0
  read : ℕ := 0
  frequency : ℕ := 48000000 / 38000
  emitted : List PipeValue := []
  parsed : List UInt8 := []

/-- The bytes of a packet go into the ring. -/
def storeBytes (s : RxState) : List UInt8 → RxState
  | [] => s
  | b :: bytes =>
      storeBytes { s with
        ring := Function.update s.ring s.write b
        write := if maxIncomingBuffer ≤ s.write + 1 then 0 else s.write + 1 } bytes

/-- The front of the ring is repeated behind its end. -/
def copyFront (ring : ℕ → UInt8) (count : ℕ) (i : ℕ) : UInt8 :=
  if maxIncomingBuffer ≤ i ∧ i < maxIncomingBuffer + count then ring (i - maxIncomingBuffer)
  else ring i

/-- `mySize` -/
def mySize (c : UInt8) : ℕ := ((RecordKind.ofCode c).map RecordKind.size).getD 0

/-- The record at the read index, of which all bytes have been received. -/
def parseRecord (s : RxState) : RxState :=
  let c := s.ring s.read
  let size := mySize c
  let ring := if maxIncomingBuffer ≤ s.read + size then copyFront s.ring (size + 1) else s.ring
  let read := wrap maxIncomingBuffer (s.read + 1)
  let payload := (List.range size).map fun i => ring (read + i)
  { s with
    ring := ring
    read := wrap maxIncomingBuffer (read + size)
    frequency := ((RecordKind.ofCode c).map fun kind =>
      recordFrequency s.frequency kind payload).getD s.frequency
    emitted := s.emitted ++ ((RecordKind.ofCode c).bind fun kind =>
      recordValue pulseLength s.frequency kind payload).toList
    parsed := s.parsed ++ c :: payload }

/-- `USB_NO_DATA_BYTE` writes `lirc_zero_buffer` before its size is looked at. -/
def writeZeros (insertFastZeros : ℕ) (c : UInt8) (s : RxState) : RxState :=
  if c = noDataByte then
    { s with emitted := s.emitted ++ List.replicate insertFastZeros ⟨false, 0⟩ }
  else s

/-- The loop over the records. -/
def parseLoop (insertFastZeros : ℕ) (s : RxState) (currentSize : ℕ) : RxState :=
  if 0 < currentSize then
    let c := s.ring s.read
    let s := writeZeros insertFastZeros c s
    if mySize c + 1 ≤ currentSize then
      parseLoop insertFastZeros (parseRecord pulseLength s) (currentSize - 1 - mySize c)
    else s
  else s
termination_by currentSize

/-- The bytes of a packet: `expectingBytes` of them, behind the five at its head. -/
def packetPayload (rxBuffer : List UInt8) : List UInt8 :=
  let expectingBytes := (rxBuffer.getD 1 0).toNat + (rxBuffer.getD 2 0).toNat * 256
  (List.range expectingBytes).map fun i => rxBuffer.getD (5 + i) 0

/-- `currentSize` -/
def unparsedSize (s : RxState) : ℕ :=
  if s.read < s.write then s.write - s.read else (maxIncomingBuffer - s.read) + s.write

/-- `commandir3_convert_RX` -/
def convertRx (insertFastZeros : ℕ) (s : RxState) (rxBuffer : List UInt8) (numNewValues : ℤ) :
    RxState :=
  if 0 < numNewValues then
    let s := storeBytes s (packetPayload rxBuffer)
    parseLoop pulseLength insertFastZeros s (unparsedSize s)
  else s

/-! ### The stream of records -/

/-- A record as the device sends it. -/
structure Record where
  kind : RecordKind
  payload : List UInt8
  size_eq : payload.length = kind.size

def Record.bytes (r : Record) : List UInt8 := r.kind.code :: r.payload

/-- The bytes of some records. -/
def streamBytes (records : List Record) : List UInt8 := records.flatMap Record.bytes

/-- The values for some records, one for each pulse and space. -/
def recordValues : ℕ → List Record → List PipeValue
  | _, [] => []
  | frequency, r :: records =>
      (recordValue pulseLength frequency r.kind r.payload).toList ++
        recordValues (recordFrequency frequency r.kind r.payload) records

/-- A transfer of `numNewValues` bytes from the device. -/
structure UsbPacket where
  rxBuffer : List UInt8
  numNewValues : ℤ
  pos : 0 < numNewValues

/-- What has been received with some packets. -/
def received (packets : List UsbPacket) : List UInt8 :=
  packets.flatMap fun p => packetPayload p.rxBuffer

/-- The packets are handed to `commandir3_convert_RX` one after the other. -/
def receiveAll (insertFastZeros : ℕ) (packets : List UsbPacket) : RxState :=
  packets.foldl (fun s p => convertRx pulseLength insertFastZeros s p.rxBuffer p.numNewValues) {}

/-- The bytes are `count` records and `part`, which is less than the next record. -/
structure Splits (records : List Record) (bytes : List UInt8) (count : ℕ) (part : List UInt8) :
    Prop where
  eq : bytes = streamBytes (records.take count) ++ part
  incomplete : part = [] ∨ ∃ r ∈ (records.drop count).head?, part.length < r.bytes.length

/-- The complete records that have been received are parsed, and their values emitted. -/
def Follows (records : List Record) (packets : List UsbPacket) (s : RxState) : Prop :=
  ∃ count part, Splits records (received packets) count part ∧
    s.emitted = recordValues pulseLength (48000000 / 38000) (records.take count) ∧
    s.parsed = streamBytes (records.take count)

end

/-! ### The ring -/

/-- The bytes wait in the ring to be parsed. -/
structure Awaits (s : RxState) (bytes : List UInt8) : Prop where
  holds : Holds maxIncomingBuffer s.ring s.read bytes
  length_lt : bytes.length < maxIncomingBuffer
  write_eq : s.write = (s.read + bytes.length) % maxIncomingBuffer

/-- What the bytes that wait have no part in. -/
structure SameOutput (s s' : RxState) : Prop where
  frequency : s'.frequency = s.frequency
  emitted : s'.emitted = s.emitted
  parsed : s'.parsed = s.parsed

theorem storeBytes_awaits {s : RxState} {bytes payload : List UInt8} (h : Awaits s bytes)
    (hroom : bytes.length + payload.length < maxIncomingBuffer) :
    Awaits (storeBytes s payload) (bytes ++ payload) ∧ SameOutput s (storeBytes s payload) := by
  induction payload generalizing s bytes with
  | nil =>
      rw [List.append_nil]
      exact ⟨h, rfl, rfl, rfl⟩
  | cons b payload ih =>
      have hmax : maxIncomingBuffer = 1024 := rfl
      rw [List.length_cons] at hroom
      have hread := h.holds.first_lt
      have hstore := h.holds.store h.length_lt b
      rw [← h.write_eq] at hstore
      have hwrite : (if maxIncomingBuffer ≤ s.write + 1 then 0 else s.write + 1) =
          (s.read + (bytes ++ [b]).length) % maxIncomingBuffer := by
        rw [List.length_append, List.length_singleton, h.write_eq, hmax]
        rw [hmax] at hread
        split <;> omega
      obtain ⟨hawaits, hsame⟩ := @ih { s with
          ring := Function.update s.ring s.write b
          write := if maxIncomingBuffer ≤ s.write + 1 then 0 else s.write + 1 } (bytes ++ [b])
        ⟨hstore, by rw [List.length_append, List.length_singleton]; omega, hwrite⟩
        (by rw [List.length_append, List.length_singleton]; omega)
      rw [List.append_assoc, List.singleton_append] at hawaits
      exact ⟨hawaits, hsame.frequency, hsame.emitted, hsame.parsed⟩

/-- The two indices tell how many bytes wait, if any do. -/
theorem unparsedSize_eq {s : RxState} {bytes : List UInt8} (h : Awaits s bytes) :
    unparsedSize s = if bytes = [] then maxIncomingBuffer else bytes.length := by
  have hmax : maxIncomingBuffer = 1024 := rfl
  have hread := h.holds.first_lt
  have hlen := h.length_lt
  have hwrite := h.write_eq
  rw [hmax] at hread hlen hwrite
  rw [unparsedSize, hmax, hwrite]
  cases bytes with
  | nil =>
      rw [if_pos rfl, List.length_nil, if_neg] <;> omega
  | cons b bytes =>
      rw [List.length_cons] at hlen ⊢
      rw [if_neg (List.cons_ne_nil b bytes)]
      split <;> omega

/-! ### The records -/

section Records

variable {pulseLength : ℕ → ℕ → ℤ} {s : RxState}

theorem mySize_code (kind : RecordKind) : mySize kind.code = kind.size := by
  rw [mySize, RecordKind.ofCode_code]
  rfl

theorem RecordKind.size_le (kind : RecordKind) : kind.size ≤ 4 := by
  cases kind <;> decide

theorem mySize_le (c : UInt8) : mySize c ≤ 4 := by
  rw [mySize]
  cases RecordKind.ofCode c with
  | none => exact Nat.zero_le 4
  | some kind => exact kind.size_le

theorem code_ne_noData (kind : RecordKind) : kind.code ≠ noDataByte := by
  cases kind <;> decide

theorem Record.length_bytes (r : Record) : r.bytes.length = r.kind.size + 1 := by
  rw [Record.bytes, List.length_cons, r.size_eq]

theorem copyFront_of_lt (ring : ℕ → UInt8) (count : ℕ) {i : ℕ} (h : i < maxIncomingBuffer) :
    copyFront ring count i = ring i :=
  if_neg (by omega)

/-- The ring with the copy that is made for a record around its end. -/
theorem copied_ring {ring : ℕ → UInt8} {read size : ℕ} (hread : read < maxIncomingBuffer)
    (hsize : size ≤ 4) :
    let ring' := if maxIncomingBuffer ≤ read + size then copyFront ring (size + 1) else ring
    (∀ i < maxIncomingBuffer, ring' i = ring i) ∧
      ∀ i, maxIncomingBuffer ≤ i → i < (read + 1) % maxIncomingBuffer + size →
        ring' i = ring' (i - maxIncomingBuffer) := by
  have hmax : maxIncomingBuffer = 1024 := rfl
  intro ring'
  by_cases hwrap : maxIncomingBuffer ≤ read + size
  · have hring : ring' = copyFront ring (size + 1) := if_pos hwrap
    rw [hring]
    refine ⟨fun i hi => copyFront_of_lt ring _ hi, fun i hge hlt => ?_⟩
    rw [hmax] at hge hlt hwrap hread
    have hfront : i - maxIncomingBuffer < maxIncomingBuffer := by
      rw [hmax]
      omega
    rw [copyFront_of_lt ring _ hfront, copyFront, if_pos (by rw [hmax]; omega)]
  · have hring : ring' = ring := if_neg hwrap
    rw [hring]
    refine ⟨fun _ _ => rfl, fun i hge hlt => ?_⟩
    rw [hmax] at hge hlt hwrap hread
    omega

/-- A record is parsed from its own bytes, wherever in the ring they are. -/
theorem parseRecord_spec {r : Record} {rest : List UInt8} (h : Awaits s (r.bytes ++ rest)) :
    Awaits (parseRecord pulseLength s) rest ∧
      (parseRecord pulseLength s).frequency = recordFrequency s.frequency r.kind r.payload ∧
      (parseRecord pulseLength s).emitted =
        s.emitted ++ (recordValue pulseLength s.frequency r.kind r.payload).toList ∧
      (parseRecord pulseLength s).parsed = s.parsed ++ r.bytes := by
  have hhead : s.ring s.read = r.kind.code := Holds.head h.holds
  have hsize : mySize (s.ring s.read) = r.payload.length := by
    rw [hhead, mySize_code, r.size_eq]
  have hmax : maxIncomingBuffer = 1024 := rfl
  have hread := h.holds.first_lt
  have hle : r.payload.length ≤ 4 := by
    rw [r.size_eq]
    exact r.kind.size_le
  obtain ⟨hsame, hcopy⟩ := @copied_ring s.ring _ _ hread hle
  -- behind the code of the record
  have hbehind : Holds maxIncomingBuffer (if maxIncomingBuffer ≤ s.read + r.payload.length then
      copyFront s.ring (r.payload.length + 1) else s.ring) ((s.read + 1) % maxIncomingBuffer)
        (r.payload ++ rest) :=
    (@Holds.drop _ _ _ _ [r.kind.code] _ h.holds).congr hsame
  have hread₁ : wrap maxIncomingBuffer (s.read + 1) = (s.read + 1) % maxIncomingBuffer :=
    wrap_eq (by omega)
  have hread₂ : wrap maxIncomingBuffer ((s.read + 1) % maxIncomingBuffer + r.payload.length) =
      ((s.read + 1) % maxIncomingBuffer + r.payload.length) % maxIncomingBuffer := by
    apply wrap_eq
    rw [hmax]
    omega
  have hpayload := hbehind.read hcopy
  have hlen := h.length_lt
  have hwrite := h.write_eq
  rw [List.length_append, r.length_bytes, ← r.size_eq] at hlen hwrite
  rw [parseRecord]
  dsimp only
  rw [hsize, hread₁, hread₂, hpayload, hhead, RecordKind.ofCode_code]
  refine ⟨⟨hbehind.drop, by omega, ?_⟩, rfl, rfl, rfl⟩
  show s.write = (((s.read + 1) % maxIncomingBuffer + r.payload.length) % maxIncomingBuffer +
    rest.length) % maxIncomingBuffer
  rw [hwrite, hmax]
  omega

/-- `currentPCA_Frequency` after some records. -/
def finalFrequency (frequency : ℕ) (records : List Record) : ℕ :=
  records.foldl (fun frequency r => recordFrequency frequency r.kind r.payload) frequency

theorem recordValues_append (frequency : ℕ) (rs rs' : List Record) :
    recordValues pulseLength frequency (rs ++ rs') = recordValues pulseLength frequency rs ++
      recordValues pulseLength (finalFrequency frequency rs) rs' := by
  induction rs generalizing frequency with
  | nil => rfl
  | cons r rs ih =>
      rw [List.cons_append, recordValues, ih, recordValues, List.append_assoc]
      rfl

theorem streamBytes_append (rs rs' : List Record) :
    streamBytes (rs ++ rs') = streamBytes rs ++ streamBytes rs' :=
  List.flatMap_append

theorem parseLoop_zero (zeros : ℕ) (s : RxState) : parseLoop pulseLength zeros s 0 = s := by
  rw [parseLoop, if_neg (Nat.lt_irrefl 0)]

/-- One pass of the loop. -/
theorem parseLoop_code {zeros size : ℕ} {kind : RecordKind} (hcode : s.ring s.read = kind.code)
    (hsize : 0 < size) :
    parseLoop pulseLength zeros s size =
      if kind.size + 1 ≤ size then
        parseLoop pulseLength zeros (parseRecord pulseLength s) (size - 1 - kind.size)
      else s := by
  rw [parseLoop, if_pos hsize]
  dsimp only
  rw [hcode, writeZeros, if_neg (code_ne_noData kind), mySize_code]

/-- What has come about when the records `done` have been parsed. -/
structure Parsed (s s' : RxState) (done : List Record) : Prop where
  emitted : s'.emitted = s.emitted ++ recordValues pulseLength s.frequency done
  parsed : s'.parsed = s.parsed ++ streamBytes done
  frequency : s'.frequency = finalFrequency s.frequency done

theorem parsed_nil (s : RxState) : @Parsed pulseLength s s [] :=
  ⟨(List.append_nil _).symm, (List.append_nil _).symm, rfl⟩

/-- The loop parses the records of which all bytes wait, and leaves the others. -/
theorem parseLoop_spec {zeros : ℕ} {records : List Record} {avail : List UInt8}
    (h : Awaits s avail) (hbegins : avail <+: streamBytes records) :
    ∃ count part, Splits records avail count part ∧
      Awaits (parseLoop pulseLength zeros s avail.length) part ∧
      @Parsed pulseLength s (parseLoop pulseLength zeros s avail.length) (records.take count) := by
  induction records generalizing s avail with
  | nil =>
      obtain rfl : avail = [] := List.prefix_nil.mp hbegins
      rw [List.length_nil, parseLoop_zero]
      exact ⟨0, [], ⟨rfl, .inl rfl⟩, h, parsed_nil s⟩
  | cons r records ih =>
      cases avail with
      | nil =>
          rw [List.length_nil, parseLoop_zero]
          exact ⟨0, [], ⟨rfl, .inl rfl⟩, h, parsed_nil s⟩
      | cons c avail =>
          have hcode : s.ring s.read = r.kind.code := by
            rw [Holds.head h.holds]
            exact (List.cons_prefix_cons.mp hbegins).1
          rw [parseLoop_code hcode (show 0 < (c :: avail).length from Nat.succ_pos _)]
          have hstream : streamBytes (r :: records) = r.bytes ++ streamBytes records := rfl
          rw [hstream] at hbegins
          by_cases hall : r.kind.size + 1 ≤ (c :: avail).length
          · -- the record is complete
            rw [← r.length_bytes] at hall
            obtain ⟨rest, hrest⟩ :=
              List.prefix_of_prefix_length_le (List.prefix_append r.bytes _) hbegins hall
            rw [← hrest] at h hbegins hall ⊢
            obtain ⟨hawaits, hfrequency, hemitted, hparsed⟩ :=
              @parseRecord_spec pulseLength s r rest h
            have hlen : (r.bytes ++ rest).length - 1 - r.kind.size = rest.length := by
              rw [List.length_append, r.length_bytes]
              omega
            rw [if_pos (by rw [← r.length_bytes]; exact hall), hlen]
            obtain ⟨count, part, hsplits, hpart, hdone⟩ :=
              ih hawaits ((List.prefix_append_right_inj r.bytes).mp hbegins)
            refine ⟨count + 1, part, ⟨?_, hsplits.incomplete⟩, hpart, ?_, ?_, ?_⟩
            · rw [List.take_succ_cons, hsplits.eq, ← List.append_assoc]
              rfl
            · rw [hdone.emitted, hemitted, hfrequency, List.append_assoc]
              rfl
            · rw [hdone.parsed, hparsed, List.append_assoc]
              rfl
            · rw [hdone.frequency, hfrequency]
              rfl
          · -- more of it must come first
            rw [if_neg hall]
            refine ⟨0, c :: avail, ⟨rfl, .inr ⟨r, rfl, ?_⟩⟩, h, parsed_nil s⟩
            rw [r.length_bytes]
            omega

theorem writeZeros_parsed (zeros : ℕ) (c : UInt8) (s : RxState) :
    (writeZeros zeros c s).parsed = s.parsed := by
  rw [writeZeros]
  split <;> rfl

theorem parseRecord_parsed (s : RxState) :
    s.parsed.length < (parseRecord pulseLength s).parsed.length := by
  rw [parseRecord]
  dsimp only
  rw [List.length_append, List.length_cons]
  omega

/-- Bytes are only ever added to those that have been parsed. -/
theorem parsed_length_le (zeros : ℕ) (s : RxState) (size : ℕ) :
    s.parsed.length ≤ (parseLoop pulseLength zeros s size).parsed.length := by
  induction size using Nat.strong_induction_on generalizing s with
  | _ size ih =>
      have hzeros := congrArg List.length (writeZeros_parsed zeros (s.ring s.read) s)
      rw [parseLoop]
      split
      · dsimp only
        split
        · have hrecord := @parseRecord_parsed pulseLength (writeZeros zeros (s.ring s.read) s)
          exact Nat.le_trans (by omega) (ih _ (by omega) _)
        · exact Nat.le_of_eq hzeros.symm
      · exact Nat.le_refl _

/-- When the ring is taken to be full, something is parsed. -/
theorem parsed_length_lt (zeros : ℕ) (s : RxState) {size : ℕ} (hsize : 5 ≤ size) :
    s.parsed.length < (parseLoop pulseLength zeros s size).parsed.length := by
  have hle := mySize_le (s.ring s.read)
  have hzeros := congrArg List.length (writeZeros_parsed zeros (s.ring s.read) s)
  have hrecord := @parseRecord_parsed pulseLength (writeZeros zeros (s.ring s.read) s)
  rw [parseLoop, if_pos (by omega)]
  dsimp only
  rw [if_pos (by omega)]
  exact Nat.lt_of_lt_of_le (by omega) (parsed_length_le zeros _ _)

end Records

/-! ### The packets -/

/-- The packets bring the stream of the records, and never more than the ring has room
for with the bytes that wait. -/
structure Brings (records : List Record) (packets : List UsbPacket) : Prop where
  stream : received packets <+: streamBytes records
  room : ∀ before p after, packets = before ++ p :: after →
    ∀ count part, Splits records (received before) count part →
      part.length + (packetPayload p.rxBuffer).length < maxIncomingBuffer

/-- A packet without payload comes only while part of a record waits. -/
def NoEmptyRing (records : List Record) (packets : List UsbPacket) : Prop :=
  ∀ before p after, packets = before ++ p :: after → packetPayload p.rxBuffer = [] →
    ∀ count, received before ≠ streamBytes (records.take count)

section Packets

variable {pulseLength : ℕ → ℕ → ℤ} {zeros : ℕ} {records : List Record}
  {packets : List UsbPacket} {p : UsbPacket} {s : RxState}

theorem streamBytes_take (records : List Record) {n m : ℕ} (h : n ≤ m) :
    streamBytes (records.take m) =
      streamBytes (records.take n) ++ streamBytes ((records.drop n).take (m - n)) := by
  rw [← streamBytes_append, ← List.take_add]
  congr 2
  omega

/-- Where complete records have been received, nothing is left over. -/
theorem Splits.part_eq_nil {bytes part : List UInt8} {count k : ℕ}
    (h : Splits records bytes count part) (hk : bytes = streamBytes (records.take k)) :
    part = [] := by
  have heq := h.eq.symm.trans hk
  rcases Nat.le_total k count with hle | hle
  · rw [streamBytes_take records hle, List.append_assoc] at heq
    have hnil := List.append_right_eq_self.mp heq
    exact (List.append_eq_nil_iff.mp hnil).2
  · rw [streamBytes_take records hle] at heq
    have hpart := List.append_cancel_left heq
    rcases h.incomplete with hnil | ⟨r, hr, hlt⟩
    · exact hnil
    · obtain ⟨rest, hrest⟩ := List.head?_eq_some_iff.mp hr
      rw [hrest] at hpart
      cases hn : k - count with
      | zero =>
          rw [hn] at hpart
          exact hpart
      | succ n =>
          rw [hn, List.take_succ_cons] at hpart
          have hlen := congrArg List.length hpart
          rw [streamBytes, List.flatMap_cons, List.length_append] at hlen
          omega

/-- The records have been parsed up to the last that is complete, and the rest waits. -/
def KeepsUp (pulseLength : ℕ → ℕ → ℤ) (records : List Record) (packets : List UsbPacket)
    (s : RxState) : Prop :=
  ∃ count part, Splits records (received packets) count part ∧ Awaits s part ∧
    @Parsed pulseLength {} s (records.take count)

theorem KeepsUp.follows (h : KeepsUp pulseLength records packets s) :
    Follows pulseLength records packets s := by
  obtain ⟨count, part, hsplits, -, hparsed⟩ := h
  exact ⟨count, part, hsplits, hparsed.emitted, hparsed.parsed⟩

theorem received_append (packets : List UsbPacket) (p : UsbPacket) :
    received (packets ++ [p]) = received packets ++ packetPayload p.rxBuffer := by
  rw [received, List.flatMap_append, List.flatMap_singleton, received]

/-- The bytes of a packet go behind those that wait. -/
theorem KeepsUp.store (hbrings : Brings records (packets ++ [p])) {count : ℕ} {part : List UInt8}
    (hsplits : Splits records (received packets) count part) (h : Awaits s part) :
    Awaits (storeBytes s (packetPayload p.rxBuffer)) (part ++ packetPayload p.rxBuffer) ∧
      SameOutput s (storeBytes s (packetPayload p.rxBuffer)) ∧
      part ++ packetPayload p.rxBuffer <+: streamBytes (records.drop count) := by
  obtain ⟨hawaits, hsame⟩ := storeBytes_awaits h
    (hbrings.room packets p [] rfl count part hsplits)
  refine ⟨hawaits, hsame, ?_⟩
  have hstream := hbrings.stream
  have hall : streamBytes records =
      streamBytes (records.take count) ++ streamBytes (records.drop count) := by
    rw [← streamBytes_append, List.take_append_drop]
  rw [received_append, hsplits.eq, hall, List.append_assoc] at hstream
  exact (List.prefix_append_right_inj _).mp hstream

theorem convertRx_packet (pulseLength : ℕ → ℕ → ℤ) (zeros : ℕ) (s : RxState) (p : UsbPacket) :
    convertRx pulseLength zeros s p.rxBuffer p.numNewValues =
      parseLoop pulseLength zeros (storeBytes s (packetPayload p.rxBuffer))
        (unparsedSize (storeBytes s (packetPayload p.rxBuffer))) :=
  if_pos p.pos

/-- A packet with payload, or one that comes while part of a record waits. -/
theorem KeepsUp.step (h : KeepsUp pulseLength records packets s)
    (hbrings : Brings records (packets ++ [p]))
    (hempty : packetPayload p.rxBuffer = [] →
      ∀ count, received packets ≠ streamBytes (records.take count)) :
    KeepsUp pulseLength records (packets ++ [p])
      (convertRx pulseLength zeros s p.rxBuffer p.numNewValues) := by
  obtain ⟨count, part, hsplits, hpart, hparsed⟩ := h
  obtain ⟨hawaits, hsame, hbegins⟩ := KeepsUp.store hbrings hsplits hpart
  have hsome : part ++ packetPayload p.rxBuffer ≠ [] := by
    intro hnil
    obtain ⟨rfl, hpayload⟩ := List.append_eq_nil_iff.mp hnil
    apply hempty hpayload count
    rw [hsplits.eq, List.append_nil]
  obtain ⟨count', part', hsplits', hpart', hparsed'⟩ :=
    @parseLoop_spec pulseLength _ zeros _ _ hawaits hbegins
  have htake : records.take (count + count') =
      records.take count ++ (records.drop count).take count' := List.take_add
  rw [convertRx_packet, unparsedSize_eq hawaits, if_neg hsome]
  refine ⟨count + count', part', ⟨?_, ?_⟩, hpart', ?_, ?_, ?_⟩
  · rw [received_append, hsplits.eq, List.append_assoc, hsplits'.eq, htake, streamBytes_append,
      List.append_assoc]
  · rw [← List.drop_drop]
    exact hsplits'.incomplete
  · rw [hparsed'.emitted, hsame.emitted, hparsed.emitted, hsame.frequency, hparsed.frequency, htake,
      recordValues_append, List.append_assoc]
  · rw [hparsed'.parsed, hsame.parsed, hparsed.parsed, htake, streamBytes_append, List.append_assoc]
  · rw [hparsed'.frequency, hsame.frequency, hparsed.frequency, htake, finalFrequency,
      finalFrequency, finalFrequency, List.foldl_append]

/-- A packet without payload at an empty ring: bytes are parsed that have not been received. -/
theorem KeepsUp.not_follows (h : KeepsUp pulseLength records packets s)
    (hbrings : Brings records (packets ++ [p])) (hpayload : packetPayload p.rxBuffer = []) {k : ℕ}
    (hk : received packets = streamBytes (records.take k)) :
    ¬ Follows pulseLength records (packets ++ [p])
      (convertRx pulseLength zeros s p.rxBuffer p.numNewValues) := by
  obtain ⟨count, part, hsplits, hpart, hparsed⟩ := h
  obtain rfl := hsplits.part_eq_nil hk
  obtain ⟨hawaits, hsame, -⟩ := KeepsUp.store hbrings hsplits hpart
  rintro ⟨count', part', hsplits', -, hall⟩
  rw [convertRx_packet, unparsedSize_eq hawaits, if_pos (by rw [hpayload]; rfl)] at hall
  have hlt := @parsed_length_lt pulseLength zeros (storeBytes s (packetPayload p.rxBuffer))
    maxIncomingBuffer (by decide)
  have hbefore := congrArg List.length hsplits.eq
  have hafter := congrArg List.length hsplits'.eq
  rw [received_append, hpayload, List.append_nil, List.length_append] at hafter
  rw [List.append_nil] at hbefore
  rw [hall, hsame.parsed, hparsed.parsed] at hlt
  change ([] ++ streamBytes (records.take count)).length < _ at hlt
  rw [List.nil_append] at hlt
  omega

theorem Brings.init (h : Brings records (packets ++ [p])) : Brings records packets := by
  refine ⟨?_, fun before q after heq => ?_⟩
  · have hstream := h.stream
    rw [received_append] at hstream
    exact (List.prefix_append _ _).trans hstream
  · exact h.room before q (after ++ [p]) (by rw [heq, List.append_assoc, List.cons_append])

theorem NoEmptyRing.init (h : NoEmptyRing records (packets ++ [p])) :
    NoEmptyRing records packets := by
  intro before q after heq
  exact h before q (after ++ [p]) (by rw [heq, List.append_assoc, List.cons_append])

theorem receiveAll_append (pulseLength : ℕ → ℕ → ℤ) (zeros : ℕ) (packets : List UsbPacket)
    (p : UsbPacket) : receiveAll pulseLength zeros (packets ++ [p]) =
      convertRx pulseLength zeros (receiveAll pulseLength zeros packets) p.rxBuffer
        p.numNewValues := by
  rw [receiveAll, List.foldl_append]
  rfl

/-- Without such a packet the ring keeps up. -/
theorem NoEmptyRing.keepsUp (h : NoEmptyRing records packets) (hbrings : Brings records packets) :
    KeepsUp pulseLength records packets (receiveAll pulseLength zeros packets) := by
  induction packets using List.reverseRecOn with
  | nil =>
      refine ⟨0, [], ⟨rfl, .inl rfl⟩, ⟨holds_nil _ (show 0 < maxIncomingBuffer by decide),
        by decide, rfl⟩, parsed_nil _⟩
  | append_singleton packets p ih =>
      rw [receiveAll_append]
      exact (ih h.init hbrings.init).step hbrings (h packets p [] rfl)

/-- Where every packet so far has been followed, none of them was such a packet. -/
theorem noEmptyRing_of_follows (hbrings : Brings records packets)
    (h : ∀ before after, packets = before ++ after →
      Follows pulseLength records before (receiveAll pulseLength zeros before)) :
    NoEmptyRing records packets := by
  induction packets using List.reverseRecOn with
  | nil =>
      intro before p after heq
      exact absurd heq.symm (List.append_ne_nil_of_right_ne_nil _ (List.cons_ne_nil _ _))
  | append_singleton packets p ih =>
      have hinit : NoEmptyRing records packets := by
        refine ih hbrings.init fun before after heq => h before (after ++ [p]) ?_
        rw [heq, List.append_assoc]
      have hlast := h (packets ++ [p]) [] (List.append_nil _).symm
      rw [receiveAll_append] at hlast
      intro before q after heq hpayload count hcount
      rcases List.eq_nil_or_concat after with rfl | ⟨after, x, rfl⟩
      · obtain ⟨rfl, hq⟩ := List.append_inj' heq rfl
        obtain rfl := (List.cons.inj hq).1
        exact (hinit.keepsUp hbrings.init).not_follows hbrings hpayload hcount hlast
      · rw [List.concat_eq_append, ← List.cons_append, ← List.append_assoc] at heq
        exact hinit before q after (List.append_inj' heq rfl).1 hpayload count hcount

/-- When the whole stream has been received, there is a value for each pulse and space, and
all bytes have been parsed. -/
theorem Follows.all (h : Follows pulseLength records packets s)
    (hall : received packets = streamBytes records) :
    s.emitted = recordValues pulseLength (48000000 / 38000) records ∧
      s.parsed = received packets := by
  obtain ⟨count, part, hsplits, hemitted, hparsed⟩ := h
  obtain rfl := @Splits.part_eq_nil _ _ _ _ records.length hsplits (by rw [List.take_length, hall])
  have hcut : streamBytes records =
      streamBytes (records.take count) ++ streamBytes (records.drop count) := by
    rw [← streamBytes_append, List.take_append_drop]
  have heq := hsplits.eq
  rw [List.append_nil] at heq
  have hnone : streamBytes (records.drop count) = [] := by
    rw [← hall, heq] at hcut
    exact List.append_right_eq_self.mp hcut.symm
  have htake : records.take count = records := by
    apply List.take_of_length_le
    by_contra hlt
    obtain ⟨r, rest, hdrop⟩ := List.exists_cons_of_ne_nil
      (show records.drop count ≠ [] from fun hnil => hlt (List.drop_eq_nil_iff.mp hnil))
    rw [hdrop] at hnone
    cases hnone
  rw [htake] at hemitted
  exact ⟨hemitted, by rw [hparsed, heq]⟩

/-- What waits is less than a record, so that packets of moderate length always have room. -/
theorem brings_of_packets (hstream : received packets <+: streamBytes records)
    (hlen : ∀ p ∈ packets, (packetPayload p.rxBuffer).length + 5 ≤ maxIncomingBuffer) :
    Brings records packets := by
  refine ⟨hstream, fun before p after heq count part hsplits => ?_⟩
  have hp := hlen p (by rw [heq]; exact List.mem_append_right _ List.mem_cons_self)
  rcases hsplits.incomplete with rfl | ⟨r, -, hpart⟩
  · rw [List.length_nil]
    omega
  · have hsize := r.kind.size_le
    rw [r.length_bytes] at hpart
    omega

end Packets

/-- After every packet the complete records have been parsed, each once and from its own
bytes, exactly if no packet without payload comes while no part of a record waits. -/
theorem convertRx_follows_iff (pulseLength : ℕ → ℕ → ℤ) (zeros : ℕ) {records : List Record}
    {packets : List UsbPacket} (hbrings : Brings records packets) :
    (∀ before after, packets = before ++ after →
      Follows pulseLength records before (receiveAll pulseLength zeros before)) ↔
        NoEmptyRing records packets := by
  constructor
  · exact noEmptyRing_of_follows hbrings
  · rintro h before after rfl
    have hbrings' : Brings records before := by
      refine ⟨(List.IsPrefix.trans ?_ hbrings.stream), fun pre q post heq => ?_⟩
      · rw [received, received, List.flatMap_append]
        exact List.prefix_append _ _
      · exact hbrings.room pre q (post ++ after) (by rw [heq, List.append_assoc, List.cons_append])
    have h' : NoEmptyRing records before := by
      intro pre q post heq
      exact h pre q (post ++ after) (by rw [heq, List.append_assoc, List.cons_append])
    exact (h'.keepsUp hbrings').follows

/-- A pulse of 100 periods. -/
def pulseRecord : Record := ⟨.pulse, [100, 0], rfl⟩

/-- A packet with this payload, in a transfer with one byte more. -/
def packetOfPayload (payload : List UInt8) : UsbPacket where
  rxBuffer := [0, payload.length.toUInt8, 0, 0, 0] ++ payload ++ [0]
  numNewValues := payload.length + 6
  pos := by omega

/-- A frequency, and a pulse and a space of either form. -/
def recordGroup : List Record :=
  [⟨.pulseDef, [53, 5, 0, 0], rfl⟩, pulseRecord, ⟨.space, [0, 0, 96, 9], rfl⟩,
    ⟨.pulseDemod, [1, 0, 0, 0], rfl⟩, ⟨.spaceDemod, [0, 0, 48, 0], rfl⟩]

/-- More bytes than the ring has room for; its end comes within a space. -/
def longStream : List Record := (List.replicate 60 recordGroup).flatten

/-- The stream in full packets of 64 bytes, which begin and end within records. -/
def longPackets : List UsbPacket :=
  (List.range 24).map fun i => packetOfPayload (((streamBytes longStream).drop (59 * i)).take 59)

theorem longPackets_payload : ∀ p ∈ longPackets, packetPayload p.rxBuffer ≠ [] := by
  decide +kernel

theorem longPackets_received : received longPackets = streamBytes longStream := by
  decide +kernel

/-- The records are split between packets, and one of them lies around the end of the ring. -/
theorem convertRx_follows_long :
    Follows (fun count frequency => count * frequency / 48) longStream longPackets
      (receiveAll (fun count frequency => count * frequency / 48) 0 longPackets) ∧
    (streamBytes longStream)[1020]? = some RecordKind.space.code ∧
    maxIncomingBuffer < (streamBytes longStream).length := by
  have hbrings : Brings longStream longPackets :=
    brings_of_packets (longPackets_received ▸ List.prefix_rfl) (by decide +kernel)
  refine ⟨(convertRx_follows_iff _ 0 hbrings).mpr ?_ _ [] (List.append_nil _).symm,
    by decide +kernel, by decide +kernel⟩
  intro before p after heq hpayload
  exact absurd hpayload (longPackets_payload p
    (heq ▸ List.mem_append_right _ List.mem_cons_self))

/-- After the record a packet without payload: the ring is taken to be full. -/
theorem convertRx_not_follows :
    ¬ ∀ (pulseLength : ℕ → ℕ → ℤ) (zeros : ℕ) (records : List Record) (packets : List UsbPacket),
      Brings records packets → ∀ before after, packets = before ++ after →
        Follows pulseLength records before (receiveAll pulseLength zeros before) := by
  intro h
  have hbrings : Brings [pulseRecord] [packetOfPayload [32, 100, 0], packetOfPayload []] :=
    brings_of_packets (by decide) (by decide)
  exact noEmptyRing_of_follows hbrings
    (h (fun count frequency => count * frequency / 48) 0 _ _ hbrings)
    [packetOfPayload [32, 100, 0]] (packetOfPayload []) [] rfl rfl 1 rfl

end Commandir

end Lirc
