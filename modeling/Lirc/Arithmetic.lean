import Lirc.CodeTables
import Lirc.Decoding
import Lirc.Receive
import Lirc.Transmit

/-!
The shifts and divisions whose operands come from the configuration. Each
function of the encoder, the decoder and the post-processing has the list of
those that it evaluates, next to the function itself; shifts and divisions by
a constant are left out.
-/

namespace Lirc

/-- A shift by so many places of a type with so many bits, or a division. -/
inductive Operation
  | shift (amount : ℤ) (width : ℕ)
  | division (divisor : ℤ)
  deriving DecidableEq, Repr

/-- The result is defined. -/
def Operation.Defined : Operation → Prop
  | .shift amount width => 0 ≤ amount ∧ amount < width
  | .division divisor => divisor ≠ 0

/-- All operations of a list are defined. -/
def AllDefined (ops : List Operation) : Prop := ∀ op ∈ ops, op.Defined

section Lists

variable {ops ops' : List Operation} {op : Operation} {a : ℤ} {w : ℕ}

@[simp] theorem allDefined_nil : AllDefined [] := nofun

@[simp] theorem allDefined_cons : AllDefined (op :: ops) ↔ op.Defined ∧ AllDefined ops :=
  List.forall_mem_cons

@[simp] theorem allDefined_append :
    AllDefined (ops ++ ops') ↔ AllDefined ops ∧ AllDefined ops' :=
  List.forall_mem_append

@[simp] theorem defined_shift : (Operation.shift a w).Defined ↔ 0 ≤ a ∧ a < w := .rfl

@[simp] theorem defined_division : (Operation.division a).Defined ↔ a ≠ 0 := .rfl

theorem allDefined_ite {c : Prop} [Decidable c] :
    AllDefined (if c then ops else ops') ↔ (c → AllDefined ops) ∧ (¬c → AllDefined ops') := by
  split
  · next h => simp [h]
  · next h => simp [h]

end Lists

/-! ### Post-processing -/

section Functions

variable (rem : ConfRemote)

/-- `((ir_code)1) << (all_bits - rem->toggle_bit)` -/
def toggleMaskOperations : List Operation := [.shift (rem.bitCount - rem.toggleBit) 64]

def kickRc6Operations : List Operation :=
  if rem.has rc6 ∧ rem.rc6Mask = 0 ∧ 0 < rem.toggleBit then toggleMaskOperations rem else []

def kickToggleBitOperations : List Operation :=
  if 0 < rem.toggleBit ∧ ¬rem.hasToggleBitMask then toggleMaskOperations rem else []

def kickSerialOperations : List Operation :=
  if rem.isSerial ∧ 0 < rem.baud then [.division rem.baud] else []

/-- The loop at the end of `read_config_recursive`, for one remote. -/
def postProcessOperations : List Operation :=
  let reversed := kickReverse rem
  let masked := kickRc6 reversed
  kickRc6Operations reversed ++ kickToggleBitOperations masked ++
    kickSerialOperations (kickToggleState (kickToggleBit masked))

/-! ### The encoder -/

/-- `send_data`; the mask of RCMM is computed as an `int`. -/
def sendDataOperations (done : ℤ) : List Operation :=
  if isRcmm rem.toRemote then [.shift (rem.bitCount - 1 - done) 32]
  else if isXmp rem.toRemote then []
  else [.shift (rem.bitCount - 1 - done) 64]

/-- `send_pre`, `send_data` and `send_post` in `send_code`. -/
def sendCodeOperations : List Operation :=
  (if rem.hasPre then sendDataOperations rem 0 else []) ++
    sendDataOperations rem rem.preDataBits ++
    if rem.hasPost then sendDataOperations rem (rem.preDataBits + rem.bits) else []

/-- `init_send_or_sim`, for a frame that is a repeat or not. -/
def initSendOperations (rep : Bool) : List Operation :=
  if cannotSend rem.toRemote then []
  else if rep && rem.hasRepeat then []
  else if rem.isRaw then []
  else sendCodeOperations rem

/-! ### The decoder -/

/-- `expectone` and `expectzero` -/
def expectOperations (bit : ℤ) : List Operation :=
  if isBiphase rem.toRemote then [.shift (rem.bitCount - 1 - bit) 64] else []

/-- The loop over the bits at the end of `get_data`. -/
def bitLoopOperations (hw : Hardware) : ℕ → ℤ → IrRemote → RBuf → List Operation
  | 0, _, _, _ => []
  | n + 1, bit, r, b =>
      let r := goldstarTimings r bit.toNat
      expectOperations rem bit ++
        match expectOne hw r bit.toNat b with
        | (true, b) => bitLoopOperations hw n (bit + 1) r b
        | (false, b) =>
            expectOperations rem bit ++
              match expectZero hw r bit.toNat b with
              | (true, b) => bitLoopOperations hw n (bit + 1) r b
              | (false, _) => []

/-- The loop over the nibbles of XMP. -/
def xmpLoopOperations (r : IrRemote) : ℕ → RBuf → List Operation
  | 0, _ => []
  | n + 1, b =>
      let (deltap, b) := getNextPulse b r.pzero
      let (deltas, b) := getNextSpace b (r.szero + 16 * r.sone)
      if deltap = 0 ∨ deltas = 0 then []
      else
        let sum := deltap + deltas - (r.pzero + r.szero)
        let q := (sum + r.sone.tdiv 2).tdiv r.sone
        .division r.sone :: if q < 0 ∨ 16 ≤ q then [] else xmpLoopOperations r n b

/-- `base`, the parity bits among the bits, and the test for the end of a byte. -/
def serialOperations : List Operation :=
  .division rem.baud ::
    if rem.parity = .none then [.division rem.bitsInByte]
    else [.division rem.bitsInByte, .division (rem.bitsInByte + 1)]

/-- `get_data` -/
def getDataOperations (hw : Hardware) (bits done : ℤ) (b : RBuf) : List Operation :=
  let r := rem.toRemote
  if isRcmm r || isGrundig r then []
  else if isSerial r then serialOperations rem
  else if isBo r then []
  else if isXmp r then
    if bits % 4 ≠ 0 ∨ done % 4 ≠ 0 then []
    else
      let (ok, b) := syncPendingSpace hw r b
      if !ok then [] else xmpLoopOperations r (bits / 4).toNat b
  else bitLoopOperations rem hw bits.toNat done r b

/-- The calls of `get_data` that `receive_decode` makes. -/
inductive DataCall : ℤ → ℤ → Prop
  | pre (h : 0 < rem.preDataBits) : DataCall rem.preDataBits 0
  | code : DataCall rem.bits rem.preDataBits
  | post (h : 0 < rem.postDataBits) : DataCall rem.postDataBits (rem.preDataBits + rem.bits)

/-- The widths of the three words that a driver has received. -/
structure Widths where
  pre : ℕ
  code : ℕ
  post : ℕ
  deriving DecidableEq, Repr

/-- `map_code` -/
def mapCodeOperations (w : Widths) : List Operation :=
  if w.pre + w.code + w.post ≠ rem.bitCount then []
  else
    [.shift w.code 64, .shift w.post 64, .shift rem.postDataBits 64, .shift rem.bits 64]

/-- `gen_ir_code` -/
def genIrCodeOperations : List Operation := [.shift rem.bits 64, .shift rem.postDataBits 64]

/-- The loop of `get_code` over the bits of the toggle mask. -/
def untoggleOperations : ℕ → ℤ → ℤ → List Operation
  | 0, _, _ => []
  | n + 1, bit, current =>
      let current := if bit = rem.postDataBits then 0 else current
      let current := if bit = rem.postDataBits + rem.bits then 0 else current
      .shift current 64 :: untoggleOperations n (bit + 1) (current + 1)

/-- `get_code`, with the state of the toggle mask. -/
def getCodeOperations (state : ℤ) (x : Received) : List Operation :=
  let r := rem.toRemote.withToggle state
  let masks := [.shift (rem.bits + rem.postDataBits) 64]
  (if rem.hasToggleBitMask then masks else []) ++ (if rem.hasIgnoreMask then masks else []) ++
    (if rem.hasToggleMask && toggleOdd r then untoggleOperations rem rem.bitCount.toNat 0 0
      else []) ++
    if frameMatches r (untoggle r x) then genIrCodeOperations rem else []

end Functions

/-- What is evaluated for a remote that a file defines: when it is read, and
whatever is sent, or received by a driver that calls `map_code` with some
widths, after that. -/
inductive Evaluated (driver : Option Widths) (rem : ConfRemote) : Operation → Prop
  | postProcess {op : Operation} (h : op ∈ postProcessOperations rem) : Evaluated driver rem op
  | send {op : Operation} {codes : List IrNcode} {rep : Bool}
      (hcodes : (postProcess rem).codes = some codes) (hne : codes ≠ [])
      (h : op ∈ initSendOperations (postProcess rem) rep) : Evaluated driver rem op
  | receive {op : Operation} {hw : Hardware} {bits done : ℤ} {b : RBuf}
      (hraw : (postProcess rem).isRaw = false) (hreads : DataCall (postProcess rem) bits done)
      (h : op ∈ getDataOperations (postProcess rem) hw bits done b) : Evaluated driver rem op
  | mapCode {op : Operation} {w : Widths} (hdriver : driver = some w)
      (h : op ∈ mapCodeOperations (postProcess rem) w) : Evaluated driver rem op
  | getCode {op : Operation} {state : ℤ} {x : Received}
      (h : op ∈ getCodeOperations (postProcess rem) state x) : Evaluated driver rem op

/-! ### What has to fit -/

/-- The shift of the toggle bit is evaluated and its amount is in range. -/
def ToggleBitFits (rem : ConfRemote) : Prop :=
  0 < rem.toggleBit → (rem.has rc6 = true ∧ rem.rc6Mask = 0) ∨ rem.hasToggleBitMask = false →
    0 ≤ rem.bitCount - rem.toggleBit ∧ rem.bitCount - rem.toggleBit < 64

/-- The frames of the remote are made by `send_data`, with a mask. -/
def sendsMasks (r : IrRemote) : Bool := !cannotSend r && !isRaw r && !isXmp r

/-- The bits of the remote are read one by one, with a mask. -/
def readsMasks (r : IrRemote) : Bool :=
  !isRaw r && !isRcmm r && !isGrundig r && !isSerial r && !isBo r && !isXmp r && isBiphase r

/-- The fields of a remote, after the post-processing, that are operands. -/
structure InRange (driver : Option Widths) (r : ConfRemote) : Prop where
  bits : 0 ≤ r.bits ∧ r.bits < 64
  post : 0 ≤ r.postDataBits ∧ r.postDataBits < 64
  widths : ∀ w, driver = some w → (w.pre + w.code + w.post : ℤ) = r.bitCount →
    w.code < 64 ∧ w.post < 64
  send : sendsMasks r.toRemote → (∃ codes, r.codes = some codes ∧ codes ≠ []) →
    0 < r.bits + r.postDataBits ∧
      r.bits + r.postDataBits ≤ (if isRcmm r.toRemote then 32 else 64) ∧
      (0 < r.preDataBits → r.bitCount ≤ if isRcmm r.toRemote then 32 else 64)
  read : readsMasks r.toRemote → (0 < r.bits → r.bits + r.postDataBits ≤ 64) ∧
    (0 < r.preDataBits → r.bitCount ≤ 64)
  masks : r.hasToggleBitMask = true ∨ r.hasIgnoreMask = true → r.bits + r.postDataBits < 64
  toggles : r.hasToggleMask = true → r.preDataBits ≤ 64
  serial : r.isSerial = true → r.baud ≠ 0
  xmp : isXmp r.toRemote → r.sone = 0 → ∀ bits done, DataCall r bits done →
    ¬(0 < bits ∧ bits % 4 = 0 ∧ done % 4 = 0)

/-! ### Each function -/

section PostProcess

variable (rem : ConfRemote)

theorem has_rc6_kickReverse : (kickReverse rem).has rc6 = rem.has rc6 := by
  rw [kickReverse]
  split
  · have hmask : rc6 = protocolMask &&& rc6 := rfl
    rw [ConfRemote.has, ConfRemote.has, hmask, ← Nat.and_assoc, ← Nat.and_assoc,
      protocol_kickReverse]
  · rfl

/-- What the shift of the toggle bit depends on is not touched before it. -/
theorem kickReverse_operands :
    (kickReverse rem).bitCount = rem.bitCount ∧ (kickReverse rem).toggleBit = rem.toggleBit ∧
      (kickReverse rem).rc6Mask = rem.rc6Mask ∧
      (kickReverse rem).toggleBitMask = rem.toggleBitMask := by
  rw [kickReverse]
  split
  · exact ⟨rfl, rfl, rfl, rfl⟩
  · exact ⟨rfl, rfl, rfl, rfl⟩

theorem postProcess_defined_iff :
    AllDefined (postProcessOperations rem) ↔ ToggleBitFits rem := by
  obtain ⟨hcount, hbit, hrc6, htoggle⟩ := kickReverse_operands rem
  obtain ⟨m, hmasked⟩ := kickRc6_eq (kickReverse rem)
  have hserial (r : ConfRemote) : AllDefined (kickSerialOperations r) := by
    rw [kickSerialOperations, allDefined_ite]
    refine ⟨fun h => ?_, fun _ => allDefined_nil⟩
    simp only [allDefined_cons, defined_division, allDefined_nil, and_true]
    exact_mod_cast h.2.ne'
  have hfirst : kickRc6Operations (kickReverse rem) =
      if rem.has rc6 ∧ rem.rc6Mask = 0 ∧ 0 < rem.toggleBit then toggleMaskOperations rem
      else [] := by
    rw [kickRc6Operations, has_rc6_kickReverse, hrc6, hbit, toggleMaskOperations, hcount, hbit]
    rfl
  have hsecond : kickToggleBitOperations (kickRc6 (kickReverse rem)) =
      if 0 < rem.toggleBit ∧ ¬rem.hasToggleBitMask then toggleMaskOperations rem else [] := by
    rw [hmasked]
    show (if 0 < (kickReverse rem).toggleBit ∧
        ¬((kickReverse rem).toggleBitMask != 0) = true then
      [Operation.shift ((kickReverse rem).bitCount - (kickReverse rem).toggleBit) 64]
      else []) = _
    rw [hbit, hcount, htoggle]
    rfl
  simp only [postProcessOperations, allDefined_append, hserial, and_true, hfirst, hsecond,
    allDefined_ite, allDefined_nil, implies_true, toggleMaskOperations, allDefined_cons,
    defined_shift]
  rw [ToggleBitFits]
  refine ⟨?_, ?_⟩
  · rintro ⟨h₁, h₂⟩ hpos (⟨hflag, hmask⟩ | hnone)
    · exact h₁ ⟨hflag, hmask, hpos⟩
    · exact h₂ ⟨hpos, by rw [hnone]; exact Bool.false_ne_true⟩
  · intro h
    exact ⟨fun ⟨hflag, hmask, hpos⟩ => h hpos (.inl ⟨hflag, hmask⟩),
      fun ⟨hpos, hnone⟩ => h hpos (.inr (Bool.not_eq_true _ ▸ hnone))⟩

theorem kickSerial_bitsInByte (h : (kickSerial rem).isSerial = true) :
    (kickSerial rem).bitsInByte ≠ 0 := by
  rw [kickSerial] at h ⊢
  split
  · show (if _ then _ else _) ≠ 0
    split
    · exact Nat.succ_ne_zero _
    · assumption
  · next hnot =>
      rw [if_neg hnot] at h
      exact absurd h hnot

theorem postProcess_bitsInByte (h : (postProcess rem).isSerial = true) :
    (postProcess rem).bitsInByte ≠ 0 := by
  obtain ⟨n, hn⟩ := kickMinCodeRepeat_eq
    (kickSerial (kickToggleState (kickToggleBit (kickRc6 (kickReverse rem)))))
  rw [postProcess, hn] at h ⊢
  exact kickSerial_bitsInByte _ h

end PostProcess

section Encoder

variable {r : ConfRemote}

/-- The width of the mask of `send_data`. -/
def maskWidth (r : IrRemote) : ℕ := if isRcmm r then 32 else 64

theorem sendData_defined_iff {done : ℤ} : AllDefined (sendDataOperations r done) ↔
    (isXmp r.toRemote = false →
      0 ≤ r.bitCount - 1 - done ∧ r.bitCount - 1 - done < maskWidth r.toRemote) := by
  rw [sendDataOperations, maskWidth]
  by_cases hrcmm : isRcmm r.toRemote = true
  · have hxmp : isXmp r.toRemote = false := protocolIs_unique hrcmm (by decide)
    simp [hrcmm, hxmp]
  · cases hxmp : isXmp r.toRemote with
    | true => simp [hrcmm]
    | false => simp [hrcmm]

theorem sendCode_defined_iff (hbits : 0 ≤ r.bits)
    (hpost : 0 ≤ r.postDataBits ∧ r.postDataBits < 64) (hxmp : isXmp r.toRemote = false) :
    AllDefined (sendCodeOperations r) ↔
      0 < r.bits + r.postDataBits ∧ r.bits + r.postDataBits ≤ maskWidth r.toRemote ∧
        (0 < r.preDataBits → r.bitCount ≤ maskWidth r.toRemote) := by
  have hcount : r.bitCount = r.preDataBits + r.bits + r.postDataBits := rfl
  simp only [sendCodeOperations, allDefined_append, allDefined_ite, sendData_defined_iff, hxmp,
    forall_const, allDefined_nil, implies_true, and_true, ConfRemote.hasPre, ConfRemote.hasPost,
    decide_eq_true_eq]
  constructor
  · rintro ⟨⟨hpre, hcode⟩, -⟩
    refine ⟨by omega, by omega, fun h => ?_⟩
    have := hpre h
    omega
  · rintro ⟨hpos, hle, hpre⟩
    refine ⟨⟨fun h => ?_, by omega⟩, fun h => by omega⟩
    have := hpre h
    omega

/-- The masks of the encoder. -/
theorem initSend_defined_iff (hbits : 0 ≤ r.bits)
    (hpost : 0 ≤ r.postDataBits ∧ r.postDataBits < 64) :
    (∀ rep, AllDefined (initSendOperations r rep)) ↔
      (sendsMasks r.toRemote = true →
        0 < r.bits + r.postDataBits ∧ r.bits + r.postDataBits ≤ maskWidth r.toRemote ∧
          (0 < r.preDataBits → r.bitCount ≤ maskWidth r.toRemote)) := by
  have hraw : r.isRaw = isRaw r.toRemote := rfl
  simp only [initSendOperations, sendsMasks, hraw]
  cases hcannot : cannotSend r.toRemote with
  | true => simp
  | false =>
      cases hr : isRaw r.toRemote with
      | true => simp
      | false =>
          cases hxmp : isXmp r.toRemote with
          | true =>
              have hdata (done : ℤ) : AllDefined (sendDataOperations r done) :=
                sendData_defined_iff.mpr fun h => absurd (hxmp.symm.trans h) Bool.noConfusion
              have hcode : AllDefined (sendCodeOperations r) := by
                simp [sendCodeOperations, allDefined_ite, hdata]
              simp [allDefined_ite, hcode]
          | false =>
              have hiff := sendCode_defined_iff hbits hpost hxmp
              constructor
              · intro h _
                -- the first frame is no repeat
                exact hiff.mp (by simpa using h false)
              · intro h rep
                have hcode := hiff.mpr (h rfl)
                simp [allDefined_ite, hcode]

end Encoder

section Decoder

variable {r : ConfRemote} {hw : Hardware}

theorem expect_defined {bit : ℤ} (h : 0 ≤ r.bitCount - 1 - bit ∧ r.bitCount - 1 - bit < 64) :
    AllDefined (expectOperations r bit) := by
  rw [expectOperations, allDefined_ite]
  exact ⟨fun _ => by simpa using h, fun _ => allDefined_nil⟩

/-- The amounts only become smaller from bit to bit. -/
theorem bitLoop_defined {n : ℕ} {bit : ℤ} {x : IrRemote} {b : RBuf}
    (hfirst : r.bitCount - 1 - bit < 64) (hlast : 0 ≤ r.bitCount - bit - n) :
    AllDefined (bitLoopOperations r hw n bit x b) := by
  induction n generalizing bit x b with
  | zero => exact allDefined_nil
  | succ n ih =>
      push_cast at hlast
      have hexpect : AllDefined (expectOperations r bit) := expect_defined (by omega)
      have hrest (x : IrRemote) (b : RBuf) :
          AllDefined (bitLoopOperations r hw n (bit + 1) x b) := ih (by omega) (by omega)
      rw [bitLoopOperations, allDefined_append]
      refine ⟨hexpect, ?_⟩
      split
      · exact hrest _ _
      · rw [allDefined_append]
        refine ⟨hexpect, ?_⟩
        split
        · exact hrest _ _
        · exact allDefined_nil

theorem xmpLoop_defined {x : IrRemote} (h : x.sone ≠ 0) {n : ℕ} {b : RBuf} :
    AllDefined (xmpLoopOperations x n b) := by
  induction n generalizing b with
  | zero => exact allDefined_nil
  | succ n ih =>
      simp only [xmpLoopOperations]
      split
      · exact allDefined_nil
      · rw [allDefined_cons, allDefined_ite]
        exact ⟨h, fun _ => allDefined_nil, fun _ => ih⟩

/-- A buffer with a pulse and a space. -/
def pulseSpaceBuffer : RBuf := { data := [pulseBit + 1, 1] }

/-- The first nibble is divided. -/
theorem xmpLoop_divides {x : IrRemote} {n : ℕ} :
    Operation.division x.sone ∈ xmpLoopOperations x (n + 1) pulseSpaceBuffer := by
  have hword : isPulse (pulseBit + 1) = true := by decide
  have hvalue : sampleValue (pulseBit + 1) = 1 := by decide
  have hlow : isSpace 1 = true := by decide
  have hpulse (m : ℤ) : getNextPulse pulseSpaceBuffer m =
      (1, { pulseSpaceBuffer with sum := 1, rptr := 1 }) := by
    simp [getNextPulse, getNextRecBuffer, getNextRecBufferInternal, pulseSpaceBuffer, hword, hvalue]
  have hspace (m : ℤ) : (getNextSpace { pulseSpaceBuffer with sum := 1, rptr := 1 } m).1 = 1 := by
    simp [getNextSpace, getNextRecBuffer, getNextRecBufferInternal, pulseSpaceBuffer, hlow]
  simp only [xmpLoopOperations, hpulse, hspace]
  rw [if_neg (by decide)]
  exact List.mem_cons_self

/-- The place of a bit within its word. -/
def placeOf (r : ConfRemote) (bit : ℤ) : ℤ :=
  if r.postDataBits + r.bits ≤ bit then bit - (r.postDataBits + r.bits)
  else if r.postDataBits ≤ bit then bit - r.postDataBits
  else bit

/-- `current_bit` starts again with each word. -/
theorem untoggle_eq (hbits : 0 ≤ r.bits) (hpost : 0 ≤ r.postDataBits) {n : ℕ} {bit current : ℤ}
    (hcurrent : bit ≠ r.postDataBits → bit ≠ r.postDataBits + r.bits → current = placeOf r bit) :
    untoggleOperations r n bit current =
      (List.range n).map fun k => .shift (placeOf r (bit + k)) 64 := by
  induction n generalizing bit current with
  | zero => rfl
  | succ n ih =>
      have hplace : (if bit = r.postDataBits + r.bits then 0
          else if bit = r.postDataBits then 0 else current) = placeOf r bit := by
        split
        · rw [placeOf, if_pos (by omega)]
          omega
        · split
          · rw [placeOf, if_neg (by omega), if_pos (by omega)]
            omega
          · next h h' => exact hcurrent h' h
      have hnext : bit + 1 ≠ r.postDataBits → bit + 1 ≠ r.postDataBits + r.bits →
          placeOf r bit + 1 = placeOf r (bit + 1) := by
        intro h h'
        simp only [placeOf]
        split_ifs <;> omega
      rw [untoggleOperations]
      simp only [hplace]
      rw [ih hnext, List.range_succ_eq_map, List.map_cons, List.map_map, Int.natCast_zero, add_zero]
      refine congrArg _ (List.map_congr_left fun k _ => ?_)
      simp only [Function.comp_apply, Nat.succ_eq_add_one, Nat.cast_add, Nat.cast_one]
      rw [add_assoc, add_comm (1 : ℤ)]

theorem untoggle_defined_iff (hbits : 0 ≤ r.bits ∧ r.bits < 64)
    (hpost : 0 ≤ r.postDataBits ∧ r.postDataBits < 64) :
    AllDefined (untoggleOperations r r.bitCount.toNat 0 0) ↔ r.preDataBits ≤ 64 := by
  have hcount : r.bitCount = r.preDataBits + r.bits + r.postDataBits := rfl
  have hstart : (0 : ℤ) ≠ r.postDataBits → (0 : ℤ) ≠ r.postDataBits + r.bits →
      0 = placeOf r 0 := by
    intro h h'
    rw [placeOf, if_neg (by omega), if_neg (by omega)]
  rw [untoggle_eq hbits.1 hpost.1 hstart]
  simp only [AllDefined, List.forall_mem_map, List.mem_range, defined_shift, zero_add, placeOf]
  constructor
  · intro h
    by_contra hpre
    -- the bit with the number 64 of the first word
    have hbit := h (r.postDataBits + r.bits + 64).toNat (by omega)
    rw [Int.toNat_of_nonneg (by omega), if_pos (by omega)] at hbit
    omega
  · intro hpre k hk
    split_ifs <;> omega

theorem serial_defined_iff (hbyte : r.bitsInByte ≠ 0) :
    AllDefined (serialOperations r) ↔ r.baud ≠ 0 := by
  rw [serialOperations, allDefined_cons]
  have hbits : AllDefined (if r.parity = .none then [Operation.division r.bitsInByte]
      else [.division r.bitsInByte, .division (r.bitsInByte + 1)]) := by
    rw [allDefined_ite]
    simp only [allDefined_cons, defined_division, allDefined_nil, and_true]
    omega
  simp [hbits]

/-- The last bit of a word still has its place. -/
theorem DataCall.last {bits done : ℤ} (h : DataCall r bits done) (hbits : 0 ≤ r.bits)
    (hpost : 0 ≤ r.postDataBits) : 0 ≤ r.bitCount - done - bits := by
  have hcount : r.bitCount = r.preDataBits + r.bits + r.postDataBits := rfl
  cases h with
  | pre => omega
  | code => omega
  | post => omega

theorem getData_bits {bits done : ℤ} {b : RBuf} (h : readsMasks r.toRemote = true) :
    getDataOperations r hw bits done b = bitLoopOperations r hw bits.toNat done r.toRemote b := by
  simp only [readsMasks, Bool.and_eq_true, Bool.not_eq_true'] at h
  obtain ⟨⟨⟨⟨⟨⟨-, hrcmm⟩, hgrundig⟩, hserial⟩, hbo⟩, hxmp⟩, -⟩ := h
  simp [getDataOperations, hrcmm, hgrundig, hserial, hbo, hxmp]

theorem getData_serial {bits done : ℤ} {b : RBuf} (h : r.isSerial = true) :
    getDataOperations r hw bits done b = serialOperations r := by
  have hserial : isSerial r.toRemote = true := h
  have hrcmm : isRcmm r.toRemote = false := protocolIs_unique hserial (by decide)
  have hgrundig : isGrundig r.toRemote = false := protocolIs_unique hserial (by decide)
  simp [getDataOperations, hserial, hrcmm, hgrundig]

theorem getData_xmp {bits done : ℤ} {b : RBuf} (h : isXmp r.toRemote = true) :
    getDataOperations r hw bits done b =
      if bits % 4 ≠ 0 ∨ done % 4 ≠ 0 then []
      else if (!(syncPendingSpace hw r.toRemote b).1) = true then []
      else xmpLoopOperations r.toRemote (bits / 4).toNat
        (syncPendingSpace hw r.toRemote b).2 := by
  have hrcmm : isRcmm r.toRemote = false := protocolIs_unique h (by decide)
  have hgrundig : isGrundig r.toRemote = false := protocolIs_unique h (by decide)
  have hserial : isSerial r.toRemote = false := protocolIs_unique h (by decide)
  have hbo : isBo r.toRemote = false := protocolIs_unique h (by decide)
  simp only [getDataOperations, hrcmm, hgrundig, hserial, hbo, h, Bool.or_false,
    if_neg Bool.false_ne_true, if_true]

/-- The masks and divisors of the decoder. -/
theorem getData_defined_iff (hbits : 0 ≤ r.bits) (hpost : 0 ≤ r.postDataBits ∧ r.postDataBits < 64)
    (hbyte : r.isSerial = true → r.bitsInByte ≠ 0) (hraw : r.isRaw = false) :
    (∀ hw bits done b, DataCall r bits done → AllDefined (getDataOperations r hw bits done b)) ↔
      (readsMasks r.toRemote → (0 < r.bits → r.bits + r.postDataBits ≤ 64) ∧
        (0 < r.preDataBits → r.bitCount ≤ 64)) ∧
      (r.isSerial = true → r.baud ≠ 0) ∧
      (isXmp r.toRemote → r.sone = 0 → ∀ bits done, DataCall r bits done →
        ¬(0 < bits ∧ bits % 4 = 0 ∧ done % 4 = 0)) := by
  have hcount : r.bitCount = r.preDataBits + r.bits + r.postDataBits := rfl
  constructor
  · intro h
    refine ⟨fun hreads => ?_, fun hserial => ?_, fun hxmp hsone bits done hcall hnibble => ?_⟩
    · -- the first bit of a word has the largest amount
      have hfirst (bits done : ℤ) (hcall : DataCall r bits done) (hpos : 0 < bits) :
          r.bitCount - 1 - done < 64 := by
        have hall := h {} bits done {} hcall
        rw [getData_bits hreads] at hall
        obtain ⟨n, hn⟩ : ∃ n, bits.toNat = n + 1 := ⟨bits.toNat - 1, by omega⟩
        rw [hn, bitLoopOperations, allDefined_append] at hall
        have hexpect := hall.1
        have hbiphase : isBiphase r.toRemote = true := by
          simp only [readsMasks, Bool.and_eq_true] at hreads
          exact hreads.2
        rw [expectOperations, if_pos hbiphase] at hexpect
        exact ((allDefined_cons.mp hexpect).1).2
      refine ⟨fun hpos => ?_, fun hpos => ?_⟩
      · have := hfirst _ _ .code hpos
        omega
      · have := hfirst _ _ (.pre hpos) hpos
        omega
    · have hall := h {} _ _ {} .code
      rw [getData_serial hserial] at hall
      exact (serial_defined_iff (hbyte hserial)).mp hall
    · have hall := h {} _ _ pulseSpaceBuffer hcall
      obtain ⟨hpos, hfour, hdone⟩ := hnibble
      have hsync : syncPendingSpace {} r.toRemote pulseSpaceBuffer = (true, pulseSpaceBuffer) :=
        if_neg (by decide)
      obtain ⟨n, hn⟩ : ∃ n, (bits / 4).toNat = n + 1 := ⟨(bits / 4).toNat - 1, by omega⟩
      rw [getData_xmp hxmp, if_neg (by omega), hsync, if_neg (by decide), hn] at hall
      exact hall _ xmpLoop_divides hsone
  · rintro ⟨hreads, hserial, hxmp⟩ hw bits done b hcall
    by_cases hx : isXmp r.toRemote = true
    · rw [getData_xmp hx, allDefined_ite]
      refine ⟨fun _ => allDefined_nil, fun hfour => ?_⟩
      rw [allDefined_ite]
      refine ⟨fun _ => allDefined_nil, fun _ => ?_⟩
      by_cases hsone : r.sone = 0
      · have hnone := hxmp hx hsone bits done hcall
        have hzero : (bits / 4).toNat = 0 := by omega
        rw [hzero]
        exact allDefined_nil
      · exact xmpLoop_defined hsone
    · by_cases hs : r.isSerial = true
      · rw [getData_serial hs, serial_defined_iff (hbyte hs)]
        exact hserial hs
      · have hx := eq_false_of_ne_true hx
        have hs : isSerial r.toRemote = false := eq_false_of_ne_true hs
        simp only [getDataOperations, hx, hs, if_neg Bool.false_ne_true]
        split
        · exact allDefined_nil
        split
        · exact allDefined_nil
        next hbase hbo =>
          simp only [Bool.or_eq_true, not_or, Bool.not_eq_true] at hbase hbo
          by_cases hbi : isBiphase r.toRemote = true
          · have hmasks : readsMasks r.toRemote = true := by
              have hr : isRaw r.toRemote = false := hraw
              simp [readsMasks, hr, hbase, hs, hbo, hx, hbi]
            obtain ⟨hcode, hpre⟩ := hreads hmasks
            have hlast := hcall.last hbits hpost.1
            by_cases hpos : 0 < bits
            · refine bitLoop_defined ?_ (by omega)
              cases hcall with
              | pre hp => have := hpre hp; omega
              | code => have := hcode hpos; omega
              | post => omega
            · rw [Int.toNat_of_nonpos (by omega)]
              exact allDefined_nil
          · have hexpect (bit : ℤ) : expectOperations r bit = [] := if_neg hbi
            have hloop (n : ℕ) (bit : ℤ) (x : IrRemote) (b : RBuf) :
                bitLoopOperations r hw n bit x b = [] := by
              induction n generalizing bit x b with
              | zero => rfl
              | succ n ih =>
                  simp only [bitLoopOperations, hexpect, ih, List.nil_append]
                  split
                  · rfl
                  · split
                    · rfl
                    · rfl
            rw [hloop]
            exact allDefined_nil

theorem mapCode_defined_iff {w : Widths} (hbits : 0 ≤ r.bits ∧ r.bits < 64)
    (hpost : 0 ≤ r.postDataBits ∧ r.postDataBits < 64) :
    AllDefined (mapCodeOperations r w) ↔
      ((w.pre + w.code + w.post : ℤ) = r.bitCount → w.code < 64 ∧ w.post < 64) := by
  rw [mapCodeOperations, allDefined_ite]
  simp only [allDefined_cons, allDefined_nil, defined_shift, and_true]
  constructor
  · intro h hsum
    have hall := h.2 (not_not.mpr hsum)
    omega
  · intro h
    refine ⟨fun _ => trivial, fun hsum => ?_⟩
    have hfit := h (not_not.mp hsum)
    omega

theorem genIrCode_defined_iff : AllDefined (genIrCodeOperations r) ↔
    (0 ≤ r.bits ∧ r.bits < 64) ∧ 0 ≤ r.postDataBits ∧ r.postDataBits < 64 := by
  simp [genIrCodeOperations]

/-- Words that `get_code` does not refuse. -/
def ownWords (r : ConfRemote) : Received := ⟨r.preData, 0, r.postData⟩

theorem frameMatches_ownWords :
    frameMatches (r.toRemote.withToggle 0) (untoggle (r.toRemote.withToggle 0) (ownWords r)) =
      true := by
  have hodd : toggleOdd (r.toRemote.withToggle 0) = false := by rfl
  rw [untoggle, hodd, Bool.and_false, if_neg Bool.false_ne_true, frameMatches]
  simp [ownWords, IrRemote.withToggle, ConfRemote.toRemote]

theorem getCode_defined_iff : (∀ state x, AllDefined (getCodeOperations r state x)) ↔
    (0 ≤ r.bits ∧ r.bits < 64) ∧ (0 ≤ r.postDataBits ∧ r.postDataBits < 64) ∧
      (r.hasToggleBitMask = true ∨ r.hasIgnoreMask = true → r.bits + r.postDataBits < 64) ∧
      (r.hasToggleMask = true → r.preDataBits ≤ 64) := by
  simp only [getCodeOperations, allDefined_append, allDefined_ite, allDefined_cons, allDefined_nil,
    defined_shift, implies_true, and_true]
  constructor
  · intro h
    obtain ⟨⟨⟨htoggle, hignore⟩, -⟩, hgen⟩ := h 0 (ownWords r)
    obtain ⟨hbits, hpost⟩ := genIrCode_defined_iff.mp (hgen frameMatches_ownWords)
    refine ⟨hbits, hpost, fun hmask => ?_, fun htm => ?_⟩
    · obtain hmask | hmask := hmask
      · exact (htoggle hmask).2
      · exact (hignore hmask).2
    · have hodd : toggleOdd (r.toRemote.withToggle 1) = true := by rfl
      obtain ⟨⟨-, hloop⟩, -⟩ := h 1 (ownWords r)
      exact (untoggle_defined_iff hbits hpost).mp (hloop (by rw [htm, hodd]; rfl))
  · rintro ⟨hbits, hpost, hmasks, htoggles⟩ state x
    refine ⟨⟨⟨fun h => ⟨by omega, hmasks (.inl h)⟩, fun h => ⟨by omega, hmasks (.inr h)⟩⟩,
      fun h => ?_⟩, fun _ => genIrCode_defined_iff.mpr ⟨hbits, hpost⟩⟩
    rw [Bool.and_eq_true] at h
    exact (untoggle_defined_iff hbits hpost).mpr (htoggles h.1)

end Decoder

/-! ### Remotes and files -/

/-- For a remote exactly the operands in range make everything defined. -/
theorem evaluated_defined_iff (driver : Option Widths) (rem : ConfRemote) :
    (∀ op, Evaluated driver rem op → op.Defined) ↔
      ToggleBitFits rem ∧ InRange driver (postProcess rem) := by
  constructor
  · intro h
    have hcode := getCode_defined_iff.mp fun state x op hop =>
      h op (@Evaluated.getCode _ _ op state x hop)
    obtain ⟨hbits, hpost, hmasks, htoggles⟩ := hcode
    refine ⟨(postProcess_defined_iff rem).mp fun op hop => h op (.postProcess hop), ?_⟩
    have hread (hraw : (postProcess rem).isRaw = false) :=
      (getData_defined_iff hbits.1 hpost (postProcess_bitsInByte rem) hraw).mp
        fun hw bits done b hcall op hop => h op (.receive hraw hcall hop)
    refine ⟨hbits, hpost, ?_, ?_, ?_, hmasks, htoggles, ?_, ?_⟩
    · intro w hw
      exact (mapCode_defined_iff hbits hpost).mp fun op hop => h op (.mapCode hw hop)
    · rintro hsends ⟨codes, hcodes, hne⟩
      have hsend := (initSend_defined_iff hbits.1 hpost).mp
        (fun rep op hop => h op (.send hcodes hne hop)) hsends
      rw [maskWidth] at hsend
      split at hsend
      · next hrcmm => simpa [hrcmm] using hsend
      · next hrcmm => simpa [hrcmm] using hsend
    · intro hmask
      have hraw : (postProcess rem).isRaw = false := by
        simp only [readsMasks, Bool.and_eq_true, Bool.not_eq_true'] at hmask
        exact hmask.1.1.1.1.1.1
      exact (hread hraw).1 hmask
    · intro hserial
      exact (hread (protocolIs_unique (r := (postProcess rem).toRemote) hserial (by decide))).2.1
        hserial
    · intro hxmp
      exact (hread (protocolIs_unique hxmp (by decide))).2.2 hxmp
  · rintro ⟨htoggle, hrange⟩ op hop
    cases hop with
    | postProcess hop => exact (postProcess_defined_iff rem).mpr htoggle op hop
    | send hcodes hne hop =>
        refine (initSend_defined_iff hrange.bits.1 hrange.post).mpr (fun hsends => ?_) _ op hop
        have hsend := hrange.send hsends ⟨_, hcodes, hne⟩
        rw [maskWidth]
        split
        · next hrcmm => simpa [hrcmm] using hsend
        · next hrcmm => simpa [hrcmm] using hsend
    | receive hraw hreads hop =>
        exact (getData_defined_iff hrange.bits.1 hrange.post (postProcess_bitsInByte rem) hraw).mpr
          ⟨hrange.read, hrange.serial, hrange.xmp⟩ _ _ _ _ hreads op hop
    | mapCode hdriver hop =>
        exact (mapCode_defined_iff hrange.bits hrange.post).mpr (hrange.widths _ hdriver) op hop
    | getCode hop =>
        exact getCode_defined_iff.mpr
          ⟨hrange.bits, hrange.post, hrange.masks, hrange.toggles⟩ _ _ op hop

/-- A remote that an accepted file, or one that it includes, hands to the
post-processing. -/
inductive Defines (files : List Char → Option (List Char)) :
    ℕ → List Char → List (List Char) → ConfRemote → Prop
  | own {levels : ℕ} {name : List Char} {bufs : List (List Char)} {p : Parser}
      {remotes : List ConfRemote} {rem : ConfRemote}
      (hread : readLines files levels name {} bufs = .ok p) (hfinish : finish p = .ok remotes)
      (hrem : rem ∈ p.chain) : Defines files levels name bufs rem
  | included {levels : ℕ} {name buf val path content : List Char} {pre post : List (List Char)}
      {p q : Parser} {remotes : List ConfRemote} {rem : ConfRemote}
      (hpre : readLines files (levels + 1) name {} pre = .ok p)
      (hline : includeOf buf = some val) (hpath : includePath name val = some path)
      (hcontent : files path = some content)
      (hread : readLines files (levels + 1) name {} (pre ++ buf :: post) = .ok q)
      (hfinish : finish q = .ok remotes)
      (hchild : Defines files levels path (fgetsAll content) rem) :
      Defines files (levels + 1) name (pre ++ buf :: post) rem

/-- On an accepted file the arithmetic is defined exactly when the fields of
each of its remotes are in range. -/
theorem arithmetic_defined_iff (driver : Option Widths)
    (files : List Char → Option (List Char)) (name text : List Char) :
    (∀ rem, Defines files (maxIncludes + 1) name (fgetsAll text) rem →
        ∀ op, Evaluated driver rem op → op.Defined) ↔
      ∀ rem, Defines files (maxIncludes + 1) name (fgetsAll text) rem →
        ToggleBitFits rem ∧ InRange driver (postProcess rem) :=
  forall₂_congr fun rem _ => evaluated_defined_iff driver rem

/-- A remote with codes of 64 bits. -/
def wideRemote : List Char :=
  "begin remote\n name a\n bits 64\n begin codes\n b 0x1\n end codes\nend remote\n".toList

theorem arithmetic_undefined : ¬∀ driver files name text,
    ∀ rem, Defines files (maxIncludes + 1) name (fgetsAll text) rem →
      ∀ op, Evaluated driver rem op → op.Defined := by
  intro h
  have hrun : ((readLines (fun _ => none) (maxIncludes + 1) "lircd.conf".toList {}
      (fgetsAll wideRemote)).toOption.any fun p => (finish p).toOption.isSome &&
        p.chain.any fun rem => (postProcess rem).bits == 64) = true := by decide +kernel
  cases hread : readLines (fun _ => none) (maxIncludes + 1) "lircd.conf".toList {}
      (fgetsAll wideRemote) with
  | error e =>
      rw [hread] at hrun
      exact absurd hrun Bool.false_ne_true
  | ok p =>
      simp only [hread, Except.toOption, Option.any_some, Bool.and_eq_true, List.any_eq_true,
        beq_iff_eq] at hrun
      obtain ⟨hfinish, rem, hrem, hbits⟩ := hrun
      cases hf : finish p with
      | error e =>
          rw [hf] at hfinish
          exact absurd hfinish Bool.false_ne_true
      | ok remotes =>
          have hop : Operation.shift (postProcess rem).bits 64 ∈
              getCodeOperations (postProcess rem) 0 (ownWords (postProcess rem)) := by
            rw [getCodeOperations, frameMatches_ownWords, if_pos rfl]
            exact List.mem_append_right _ List.mem_cons_self
          have hdefined := h none (fun _ => none) "lircd.conf".toList wideRemote rem
            (.own hread hf hrem) _ (.getCode hop)
          rw [hbits] at hdefined
          exact absurd hdefined.2 (by decide)

end Lirc
