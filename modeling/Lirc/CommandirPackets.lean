import Mathlib.Data.Int.Basic
import Mathlib.Data.List.Basic
import Mathlib.Tactic.Linarith

/-!
`commandir_2_transmit_next` of `hw_commandir.c` for a CommandIR II: the signal at the
head of the queue as packets of at most 64 bytes. There are ten attempts, and the last
packet has room for one sample more than the others are given.
-/

namespace Lirc

namespace Commandir

/-- `TX_COMMANDIR_II` -/
def txCommandirII : UInt8 := 14

/-- `DEFAULT_FREQ` -/
def defaultFreq : ℕ := 38000

/-- `struct tx_signal` -/
structure TxSignal where
  rawSignal : List ℤ
  rawSignalTxBitmask : ℕ
  rawSignalFrequency : ℕ
  deriving DecidableEq, Repr

/-- What a transmission uses of `struct commandir_device`; the signals are those from
`next_tx_signal` to `last_tx_signal`. -/
structure CommandirDevice where
  txSignals : List TxSignal
  signalid : ℕ := 0
  lastSendSignalId : UInt8 := 0
  deriving DecidableEq, Repr

inductive Action
  | usbBulkWrite (packet : List UInt8)
  | hardwareScan
  | free
  | advance
  deriving DecidableEq, Repr

/-- The low byte of an `int`. -/
def lowByte (x : ℤ) : UInt8 := (x % 2 ^ 8).toNat.toUInt8

/-- A sample in a packet. -/
def sampleBytes (sending : ℤ) : List UInt8 :=
  [lowByte (sending / 2 ^ 8), lowByte sending, lowByte (sending / 2 ^ 16)]

/-- A packet: its length, `head` (`packet[1]` to `packet[5]`), the mark of the last packet
and the samples. -/
def packetOf (head : List UInt8) (samples : List ℤ) (last : Bool) : List UInt8 :=
  (samples.length * 3 + 7).toUInt8 :: head ++ [if last then 0xcb else 0x00] ++
    samples.flatMap sampleBytes

/-- Force CommandIR II packet sizes to 64 byte max -/
def sendingThisTime (packletsToSend : ℤ) : ℤ :=
  if 64 < packletsToSend * 3 + 7 then 64 / 3 - 3 else packletsToSend

/-- The loop over the attempts, with the number of those that are left. `false` is a
return from within it. -/
def packetLoop (usb : ℕ → List UInt8 → ℤ) (head : List UInt8) (signals : List ℤ) :
    ℕ → ℕ → ℤ → List Action × Bool
  | 0, _, _ => ([], true)
  | left + 1, whichSignal, packletsToSend =>
      let sending := sendingThisTime packletsToSend
      let samples := (List.range sending.toNat).map fun i => signals.getD (whichSignal + i) 0
      let packet := packetOf head samples (sending = packletsToSend)
      let sendStatus := usb (10 - (left + 1)) packet
      if sendStatus < 0 then ([.usbBulkWrite packet, .hardwareScan], false)
      else
        let packletsToSend := packletsToSend - (sendStatus - 7).tdiv 3
        if packletsToSend = 0 then ([.usbBulkWrite packet], true)
        else
          let rest := packetLoop usb head signals left (whichSignal + sending.toNat) packletsToSend
          (.usbBulkWrite packet :: rest.1, rest.2)

/-- `packet[1]` to `packet[5]`. -/
def packetHead (sig : TxSignal) (id : UInt8) : List UInt8 :=
  let pcafom : ℕ :=
    6000000 / (if 0 < sig.rawSignalFrequency then sig.rawSignalFrequency else defaultFreq)
  [txCommandirII, sig.rawSignalTxBitmask.toUInt8, (pcafom / 2 ^ 8).toUInt8, pcafom.toUInt8, id]

/-- `commandir_2_transmit_next`, the case `HW_COMMANDIR_2` -/
def transmitNext (pid : ℕ) (usb : ℕ → List UInt8 → ℤ) (pcd : CommandirDevice) :
    List Action × CommandirDevice :=
  match pcd.txSignals with
  | [] => ([], pcd)
  | sig :: rest =>
      if 255 < sig.rawSignal.length then ([.free, .advance], { pcd with txSignals := rest })
      else
        let id := (pid + pcd.signalid + 1).toUInt8
        let pcd := { pcd with signalid := pcd.signalid + 1, lastSendSignalId := id }
        let out := packetLoop usb (packetHead sig id) sig.rawSignal 10 0 sig.rawSignal.length
        if out.2 then (out.1 ++ [.free, .advance], { pcd with txSignals := rest })
        else (out.1, pcd)

/-! ### What the device receives -/

/-- The samples behind the seven bytes at the head of a packet. -/
def readSamples : List UInt8 → List ℤ
  | high1 :: low :: high2 :: rest =>
      (high2.toNat * 2 ^ 16 + high1.toNat * 2 ^ 8 + low.toNat : ℕ) :: readSamples rest
  | _ => []

/-- The packets hold the samples, each once and in order, and the last one is marked. -/
structure Delivers (signals : List ℤ) (packets : List (List UInt8)) : Prop where
  samples : packets.flatMap (fun p => readSamples (p.drop 7)) = signals
  length_le : ∀ p ∈ packets, p.length ≤ 64
  marked : ∃ before last, packets = before ++ [last] ∧ last[6]? = some 0xcb ∧
    ∀ p ∈ before, p[6]? ≠ some 0xcb

/-- All samples are sent before the signal is freed and the queue advances. -/
def SendsAll (signals : List ℤ) (actions : List Action) : Prop :=
  ∃ packets, actions = packets.map .usbBulkWrite ++ [.free, .advance] ∧ Delivers signals packets

/-! ### The packets of a signal -/

/-- The samples of the packets, and which of these is the last. -/
def packlets : ℕ → List ℤ → List (List ℤ × Bool)
  | 0, _ => []
  | left + 1, xs =>
      if xs.length ≤ 19 then [(xs, true)] else (xs.take 18, false) :: packlets left (xs.drop 18)

theorem readSamples_flatMap (xs : List ℤ) :
    readSamples (xs.flatMap sampleBytes) = xs.map (· % 2 ^ 24) := by
  induction xs with
  | nil => rfl
  | cons x xs ih =>
      show _ :: readSamples (xs.flatMap sampleBytes) = _
      rw [ih, List.map_cons]
      congr 1
      simp only [lowByte, UInt8.toNat_ofNat']
      omega

theorem map_getD_range {xs : List ℤ} {start count : ℕ} (h : start + count ≤ xs.length) :
    ((List.range count).map fun i => xs.getD (start + i) 0) = (xs.drop start).take count := by
  apply List.ext_getElem
  · rw [List.length_map, List.length_range, List.length_take, List.length_drop]
    omega
  · intro i hi _
    rw [List.length_map, List.length_range] at hi
    rw [List.getElem_map, List.getElem_range, List.getElem_take, List.getElem_drop,
      List.getD_eq_getElem?_getD, List.getElem?_eq_getElem (by omega), Option.getD_some]

section Packets

variable {usb : ℕ → List UInt8 → ℤ} {head : List UInt8}

theorem length_packetOf (hhead : head.length = 5) (samples : List ℤ) (last : Bool) :
    (packetOf head samples last).length = samples.length * 3 + 7 := by
  have hbytes : (samples.flatMap sampleBytes).length = samples.length * 3 := by
    induction samples with
    | nil => rfl
    | cons x xs ih =>
        rw [List.flatMap_cons, List.length_append, ih, List.length_cons]
        show 3 + _ = _
        omega
  rw [packetOf, List.length_append, List.length_append, List.length_cons, hbytes, hhead,
    List.length_singleton]
  omega

/-- One attempt, with a device that takes the packet completely. -/
theorem packetLoop_succ (husb : ∀ k p, usb k p = p.length) (hhead : head.length = 5)
    {signals : List ℤ} {left which total count : ℕ} (hcount : sendingThisTime total = count)
    (hle : which + count ≤ signals.length) (htotal : count ≤ total) :
    packetLoop usb head signals (left + 1) which total =
      if count = total then
        ([.usbBulkWrite (packetOf head ((signals.drop which).take count) true)], true)
      else
        (.usbBulkWrite (packetOf head ((signals.drop which).take count) false) ::
          (packetLoop usb head signals left (which + count) (total - count : ℕ)).1,
          (packetLoop usb head signals left (which + count) (total - count : ℕ)).2) := by
  have hlen : ((signals.drop which).take count).length = count := by
    rw [List.length_take, List.length_drop]
    omega
  have hrest : (total : ℤ) - (((count * 3 + 7 : ℕ) : ℤ) - 7).tdiv 3 = (total - count : ℕ) := by
    rw [Int.tdiv_eq_ediv_of_nonneg (by omega)]
    omega
  rw [packetLoop]
  dsimp only
  rw [hcount, Int.toNat_natCast, map_getD_range hle, husb, length_packetOf hhead, hlen,
    if_neg (by omega), hrest]
  by_cases hall : count = total
  · rw [if_pos (by omega), if_pos hall, hall, decide_eq_true rfl]
  · rw [if_neg (by omega), if_neg hall, decide_eq_false (by omega)]

/-- A device that takes each packet completely is sent the packets of the signal. -/
theorem packetLoop_eq (husb : ∀ k p, usb k p = p.length) (hhead : head.length = 5)
    {signals : List ℤ} (left which : ℕ) (hwhich : which < signals.length) :
    packetLoop usb head signals left which (signals.length - which : ℕ) =
      (((packlets left (signals.drop which)).map fun p => .usbBulkWrite (packetOf head p.1 p.2)),
        true) := by
  induction left generalizing which with
  | zero => rfl
  | succ left ih =>
      have hlen : (signals.drop which).length = signals.length - which := List.length_drop
      rw [packlets, hlen]
      by_cases hall : signals.length - which ≤ 19
      · have hcount :
            sendingThisTime (signals.length - which : ℕ) = (signals.length - which : ℕ) := by
          rw [sendingThisTime, if_neg (by omega)]
        rw [packetLoop_succ husb hhead hcount (by omega) (Nat.le_refl _), if_pos rfl, if_pos hall,
          ← hlen, List.take_length]
        rfl
      · have hcount : sendingThisTime (signals.length - which : ℕ) = (18 : ℕ) := by
          rw [sendingThisTime, if_pos (by omega)]
          rfl
        rw [packetLoop_succ husb hhead hcount (by omega) (by omega), if_neg (by omega), if_neg hall,
          Nat.sub_sub, ih (which + 18) (by omega), List.map_cons, List.drop_drop]

/-! ### What is in the packets -/

/-- The samples in the packets, in order: all of them, or as many as the attempts take. -/
theorem packlets_samples (left : ℕ) (xs : List ℤ) :
    (packlets (left + 1) xs).flatMap Prod.fst =
      if xs.length ≤ 18 * left + 19 then xs else xs.take (18 * (left + 1)) := by
  induction left generalizing xs with
  | zero =>
      rw [packlets]
      by_cases hall : xs.length ≤ 19
      · rw [if_pos hall, if_pos (by omega), List.flatMap_singleton]
      · rw [if_neg hall, if_neg (by omega), packlets, List.flatMap_singleton]
  | succ left ih =>
      rw [packlets]
      by_cases hall : xs.length ≤ 19
      · rw [if_pos hall, if_pos (by omega), List.flatMap_singleton]
      · rw [if_neg hall, List.flatMap_cons, ih, List.length_drop]
        by_cases hfits : xs.length ≤ 18 * (left + 1) + 19
        · rw [if_pos hfits, if_pos (by omega), List.take_append_drop]
        · rw [if_neg hfits, if_neg (by omega), ← List.take_add]
          congr 1
          omega

theorem packlets_length_le (left : ℕ) (xs : List ℤ) : ∀ p ∈ packlets left xs, p.1.length ≤ 19 := by
  induction left generalizing xs with
  | zero => exact nofun
  | succ left ih =>
      rw [packlets]
      intro p hp
      split at hp
      · rw [List.mem_singleton.mp hp]
        assumption
      · rcases List.mem_cons.mp hp with rfl | hp
        · show (xs.take 18).length ≤ 19
          rw [List.length_take]
          omega
        · exact ih _ p hp

/-- If all samples are in the packets, the last packet is marked. -/
theorem packlets_marked (left : ℕ) {xs : List ℤ} (hfits : xs.length ≤ 18 * left + 19) :
    ∃ before last,
      packlets (left + 1) xs = before ++ [(last, true)] ∧ ∀ p ∈ before, p.2 = false := by
  induction left generalizing xs with
  | zero =>
      rw [packlets, if_pos (by omega)]
      exact ⟨[], xs, rfl, nofun⟩
  | succ left ih =>
      rw [packlets]
      by_cases hall : xs.length ≤ 19
      · rw [if_pos hall]
        exact ⟨[], xs, rfl, nofun⟩
      · obtain ⟨before, last, heq, hbefore⟩ := @ih (xs.drop 18) (by
          rw [List.length_drop]
          omega)
        rw [if_neg hall, heq]
        refine ⟨(xs.take 18, false) :: before, last, rfl, fun p hp => ?_⟩
        rcases List.mem_cons.mp hp with rfl | hp
        · rfl
        · exact hbefore p hp

theorem drop_packetOf (hhead : head.length = 5) (samples : List ℤ) (last : Bool) :
    (packetOf head samples last).drop 7 = samples.flatMap sampleBytes := by
  have hlen :
      ((samples.length * 3 + 7).toUInt8 :: head ++ [if last then 0xcb else 0x00]).length = 7 := by
    rw [List.length_append, List.length_cons, hhead, List.length_singleton]
  exact List.drop_left' hlen

theorem mark_packetOf (hhead : head.length = 5) (samples : List ℤ) (last : Bool) :
    (packetOf head samples last)[6]? = some (if last then 0xcb else 0x00) := by
  have hlen : ((samples.length * 3 + 7).toUInt8 :: head).length = 6 := by
    rw [List.length_cons, hhead]
  rw [packetOf, List.append_assoc, List.getElem?_append_right (by rw [hlen]), hlen]
  rfl

theorem map_packets_inj {packets packets' : List (List UInt8)} {rest : List Action}
    (h : packets.map Action.usbBulkWrite ++ rest = packets'.map Action.usbBulkWrite ++ rest) :
    packets = packets' :=
  List.map_injective_iff.mpr (fun _ _ heq => Action.usbBulkWrite.inj heq)
    (List.append_cancel_right h)

/-- The packets of ten attempts deliver the signal exactly if there are not too many
samples, and none of more than 24 bits. -/
theorem delivers_iff (hhead : head.length = 5) {xs : List ℤ} :
    Delivers xs ((packlets 10 xs).map fun p => packetOf head p.1 p.2) ↔
      xs.length ≤ 181 ∧ ∀ x ∈ xs, 0 ≤ x ∧ x < 2 ^ 24 := by
  have hsamples : ((packlets 10 xs).map fun p => packetOf head p.1 p.2).flatMap
      (fun p => readSamples (p.drop 7)) =
        (if xs.length ≤ 181 then xs else xs.take 180).map (· % 2 ^ 24) := by
    rw [← packlets_samples 9 xs, List.flatMap_map, List.map_flatMap]
    congr 1
    funext p
    rw [drop_packetOf hhead, readSamples_flatMap]
  have hbits : xs.map (· % 2 ^ 24) = xs ↔ ∀ x ∈ xs, 0 ≤ x ∧ x < 2 ^ 24 := by
    have hmap : xs.map (· % 2 ^ 24) = xs.map id ↔ ∀ x ∈ xs, x % 2 ^ 24 = id x := List.map_inj_left
    rw [List.map_id] at hmap
    rw [hmap]
    exact forall₂_congr fun x _ => by rw [id]; omega
  constructor
  · intro h
    have heq := hsamples.symm.trans h.samples
    by_cases hfits : xs.length ≤ 181
    · rw [if_pos hfits] at heq
      exact ⟨hfits, hbits.mp heq⟩
    · rw [if_neg hfits] at heq
      have hlen := congrArg List.length heq
      rw [List.length_map, List.length_take] at hlen
      omega
  · rintro ⟨hfits, hall⟩
    refine ⟨?_, ?_, ?_⟩
    · rw [hsamples, if_pos hfits]
      exact hbits.mpr hall
    · intro p hp
      obtain ⟨q, hq, rfl⟩ := List.mem_map.mp hp
      have hle := packlets_length_le 10 xs q hq
      rw [length_packetOf hhead]
      omega
    · obtain ⟨before, last, heq, hbefore⟩ := packlets_marked 9
        (show xs.length ≤ 18 * 9 + 19 by omega)
      rw [heq, List.map_append]
      refine ⟨_, _, rfl, mark_packetOf hhead _ _, fun p hp => ?_⟩
      obtain ⟨q, hq, rfl⟩ := List.mem_map.mp hp
      rw [mark_packetOf hhead, hbefore q hq]
      decide

end Packets

section Transmit

variable {pid : ℕ} {usb : ℕ → List UInt8 → ℤ} {pcd : CommandirDevice} {sig : TxSignal}
  {rest : List TxSignal}

/-- A device that takes each packet completely is sent the packets of the signal, and the
queue advances. -/
theorem transmitNext_packets (pid : ℕ) (husb : ∀ k p, usb k p = p.length)
    (hqueue : pcd.txSignals = sig :: rest) (hpos : 0 < sig.rawSignal.length)
    (hmax : sig.rawSignal.length ≤ 255) :
    ∃ head : List UInt8, head.length = 5 ∧
      (transmitNext pid usb pcd).1 =
        ((packlets 10 sig.rawSignal).map fun p => packetOf head p.1 p.2).map Action.usbBulkWrite ++
          [.free, .advance] ∧
      (transmitNext pid usb pcd).2.txSignals = rest := by
  refine ⟨packetHead sig (pid + pcd.signalid + 1).toUInt8, rfl, ?_⟩
  have hloop := @packetLoop_eq usb (packetHead sig (pid + pcd.signalid + 1).toUInt8) husb rfl
    sig.rawSignal 10 0 hpos
  rw [Nat.sub_zero, List.drop_zero] at hloop
  rw [transmitNext, hqueue]
  dsimp only
  rw [if_neg (by omega), hloop, List.map_map]
  exact ⟨rfl, rfl⟩

theorem sendsAll_iff (hpackets : pcd.txSignals = sig :: rest) (husb : ∀ k p, usb k p = p.length)
    (hpos : 0 < sig.rawSignal.length) (hmax : sig.rawSignal.length ≤ 255) (pid : ℕ) :
    SendsAll sig.rawSignal (transmitNext pid usb pcd).1 ↔
      sig.rawSignal.length ≤ 181 ∧ ∀ x ∈ sig.rawSignal, 0 ≤ x ∧ x < 2 ^ 24 := by
  obtain ⟨head, hhead, hactions, -⟩ := transmitNext_packets pid husb hpackets hpos hmax
  rw [hactions, ← delivers_iff hhead]
  constructor
  · rintro ⟨packets, heq, hdelivers⟩
    rw [map_packets_inj heq]
    exact hdelivers
  · exact fun hdelivers => ⟨_, rfl, hdelivers⟩

/-- All samples are sent, the last packet is marked and the queue advances, exactly if the
signal has at most 181 samples of 24 bits. -/
theorem transmitNext_sendsAll_iff (husb : ∀ k p, usb k p = p.length)
    (hqueue : pcd.txSignals = sig :: rest) (hpos : 0 < sig.rawSignal.length)
    (hmax : sig.rawSignal.length ≤ 255) :
    (SendsAll sig.rawSignal (transmitNext pid usb pcd).1 ∧
      (transmitNext pid usb pcd).2.txSignals = rest) ↔
        sig.rawSignal.length ≤ 181 ∧ ∀ x ∈ sig.rawSignal, 0 ≤ x ∧ x < 2 ^ 24 := by
  obtain ⟨-, -, -, hrest⟩ := transmitNext_packets pid husb hqueue hpos hmax
  rw [and_iff_left hrest]
  exact sendsAll_iff hqueue husb hpos hmax pid

end Transmit

/-- A signal of `n` samples. -/
def longSignal (n : ℕ) : TxSignal :=
  { rawSignal := List.replicate n 500, rawSignalTxBitmask := 1, rawSignalFrequency := 38000 }

/-- Two packets. -/
theorem transmitNext_sendsAll_two :
    SendsAll (List.replicate 20 500)
        (transmitNext 1 (fun _ p => p.length) ⟨[longSignal 20], 0, 0⟩).1 ∧
      (transmitNext 1 (fun _ p => p.length) ⟨[longSignal 20], 0, 0⟩).2.txSignals = [] :=
  (@transmitNext_sendsAll_iff 1 (fun _ p => p.length) ⟨[longSignal 20], 0, 0⟩ (longSignal 20) []
    (fun _ _ => rfl) rfl (by decide) (by decide)).mpr ⟨by decide, by decide⟩

/-- With 182 samples, two are left after the tenth packet, and no packet is marked. -/
theorem transmitNext_not_sendsAll :
    ¬ ∀ (pid : ℕ) (usb : ℕ → List UInt8 → ℤ) (pcd : CommandirDevice) (sig : TxSignal)
        (rest : List TxSignal), (∀ k p, usb k p = p.length) → pcd.txSignals = sig :: rest →
      0 < sig.rawSignal.length → sig.rawSignal.length ≤ 255 →
      SendsAll sig.rawSignal (transmitNext pid usb pcd).1 ∧
        (transmitNext pid usb pcd).2.txSignals = rest := by
  intro h
  have hlen : (longSignal 182).rawSignal.length = 182 := List.length_replicate
  obtain ⟨hall, -⟩ := h 1 (fun _ p => p.length) ⟨[longSignal 182], 0, 0⟩ (longSignal 182) []
    (fun _ _ => rfl) rfl (by rw [hlen]; decide) (by rw [hlen]; decide)
  obtain ⟨hfits, -⟩ := (@sendsAll_iff (fun _ p => p.length) ⟨[longSignal 182], 0, 0⟩
    (longSignal 182) [] rfl (fun _ _ => rfl) (by rw [hlen]; decide) (by rw [hlen]; decide)
    1).mp hall
  rw [hlen] at hfits
  exact absurd hfits (by decide)

end Commandir

end Lirc
