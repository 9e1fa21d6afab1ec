import Lirc.DumpRoundTrip

/-!
A file that has been written and read is written and read again without a change.
-/

namespace Lirc

/-! ### Fields that are written again -/

section Fields

variable (rem : ConfRemote)

theorem isSerial_writtenHead : (writtenHead rem).isSerial = rem.isSerial := by
  rw [ConfRemote.isSerial, ConfRemote.protocolIs]
  show (namedFlags rem.flags &&& protocolMask == serial) = _
  rw [protocol_namedFlags]
  rfl

theorem namedFlags_again (flags : ℕ) : namedFlags (namedFlags flags) = namedFlags flags := by
  rw [namedFlags, namedFlags, Nat.and_assoc, Nat.and_self]

variable {α β : Type} [Zero α] [Zero β]

/-- The condition is tested again on the value that has been read. -/
theorem orZero_again (c : α → Bool) (x : α) (y : β) :
    orZero (c (orZero (c x) x)) (orZero (c x) y) = orZero (c x) y := by
  cases h : c x with
  | false => exact ite_self _
  | true => exact if_pos h

/-- The same for a condition on two values. -/
theorem orZero_again₂ (c : α → α → Bool) (p s : α) (y : β) :
    orZero (c (orZero (c p s) p) (orZero (c p s) s)) (orZero (c p s) y) = orZero (c p s) y := by
  cases h : c p s with
  | false => exact ite_self _
  | true => exact if_pos h

theorem orZero_self (c : Bool) (y : β) : orZero c (orZero c y) = orZero c y :=
  orZero_again (fun _ : ℕ => c) 0 y

theorem writtenHead_again : writtenHead (writtenHead rem) = writtenHead rem := by
  -- each condition is tested again on the values that it has let through
  conv_lhs => rw [writtenHead]
  rw [isRaw_writtenHead, isSerial_writtenHead]
  conv_rhs => rw [writtenHead]
  congr 1
  case e_flags => exact namedFlags_again rem.flags
  case e_phead | e_shead =>
    exact orZero_again₂ (fun p s : ℤ => !rem.isRaw && (0 < p && 0 < s)) rem.phead rem.shead _
  case e_pfoot | e_sfoot =>
    exact orZero_again₂ (fun p s : ℤ => !rem.isRaw && (0 < p && 0 < s)) rem.pfoot rem.sfoot _
  case e_prepeat | e_srepeat =>
    exact orZero_again₂ (fun p s : ℤ => 0 < p && 0 < s) rem.prepeat rem.srepeat _
  case e_pthree | e_sthree | e_ptwo | e_stwo =>
    exact orZero_again₂ (fun p s : ℤ => !rem.isRaw && (p != 0 || s != 0)) _ _ _
  case e_preP | e_preS | e_postP | e_postS =>
    exact orZero_again₂ (fun p s : ℤ => !rem.isRaw && (p != 0 && s != 0)) _ _ _
  case e_ptrail => exact orZero_again (fun x : ℤ => x != 0) _ _
  case e_freq | e_dutyCycle => exact orZero_again (fun x : ℕ => x != 0) _ _
  case e_plead => exact orZero_again (fun x : ℤ => !rem.isRaw && x != 0) _ _
  case e_preDataBits | e_preData =>
    exact orZero_again (fun x : ℤ => !rem.isRaw && 0 < x) rem.preDataBits _
  case e_postDataBits | e_postData =>
    exact orZero_again (fun x : ℤ => !rem.isRaw && 0 < x) rem.postDataBits _
  case e_repeatGap => exact orZero_again (fun x : ℕ => 0 < x) rem.repeatGap _
  case e_suppressRepeat | e_minRepeat => exact orZero_again (fun x : ℤ => 0 < x) _ _
  case e_minCodeRepeat => exact orZero_again (fun x : ℕ => !rem.isRaw && 0 < x) _ _
  case e_toggleMask | e_rc6Mask | e_ignoreMask =>
    exact orZero_again (fun x : IrCode => !rem.isRaw && x != 0) _ _
  all_goals exact orZero_self _ _

end Fields

/-! ### Remotes that are written again -/

section Remotes

variable (rem : ConfRemote)

theorem isRaw_written : (written rem).isRaw = rem.isRaw := by
  rw [written]
  split
  · exact isRaw_writtenHead rem
  · exact isRaw_writtenHead rem

theorem rawButtons_again (codes : List IrNcode) :
    rawButtons (rawButtons codes) = rawButtons codes := by
  rw [rawButtons, rawButtons, List.mapIdx_mapIdx]
  rfl

theorem cutCode_again (mask : IrCode) (code : IrNcode) :
    cutCode mask (writtenCode (cutCode mask (writtenCode code))) =
      cutCode mask (writtenCode code) := by
  simp [cutCode, writtenCode, BitVec.and_assoc]

/-- A value that is written is cut to its mask once. -/
theorem orZero_mask {c : Bool} {x : IrCode} (h : orZero c x = x) (mask : IrCode) :
    orZero c (x &&& mask) &&& mask = x &&& mask := by
  cases c with
  | true =>
      show x &&& mask &&& mask = x &&& mask
      rw [BitVec.and_assoc, BitVec.and_self]
  | false =>
      rw [← h]
      show 0#64 &&& mask = 0#64 &&& mask
      rfl

theorem masked_again {w : ConfRemote} (hagain : writtenHead w = w) (codes : List IrNcode) :
    (writtenHead (w.masked (codes.map writtenCode))).masked
      (((w.masked (codes.map writtenCode)).codes.getD []).map writtenCode) =
        w.masked (codes.map writtenCode) := by
  have hpre := orZero_mask (congrArg ConfRemote.preData hagain) (maskOf w.preDataBits)
  have hpost := orZero_mask (congrArg ConfRemote.postData hagain) (maskOf w.postDataBits)
  have hcodes : (((codes.map writtenCode).map (cutCode (maskOf w.bits))).map writtenCode).map
      (cutCode (maskOf w.bits)) = (codes.map writtenCode).map (cutCode (maskOf w.bits)) := by
    simp only [List.map_map]
    exact List.map_congr_left fun code _ => cutCode_again _ code
  have hhead : writtenHead (w.masked (codes.map writtenCode)) = { writtenHead w with
      preData := orZero (!w.isRaw && w.hasPre) (w.preData &&& maskOf w.preDataBits)
      postData := orZero (!w.isRaw && w.hasPost) (w.postData &&& maskOf w.postDataBits) } := rfl
  rw [hhead, hagain]
  simp only [ConfRemote.masked, Option.getD_some, hpre, hpost, hcodes]

theorem written_again : written (written rem) = written rem := by
  have hagain := writtenHead_again rem
  cases hraw : rem.isRaw with
  | true =>
      have hraw' := (isRaw_written rem).trans hraw
      rw [written, if_pos hraw', written, if_pos hraw]
      show (writtenHead (writtenHead rem)).setCodes (rawButtons (rawButtons _)) = _
      rw [hagain, rawButtons_again]
  | false =>
      have hraw' : ¬(written rem).isRaw = true := by
        rw [isRaw_written, hraw]
        decide
      rw [written, if_neg hraw', written, if_neg (by rw [hraw]; decide)]
      exact masked_again hagain _

/-- What the post-processing changes when it finds neither `REVERSE` nor a toggle bit. -/
theorem postProcess_kicks {w : ConfRemote} (hflag : w.has reverseFlag = false)
    (hbit : w.toggleBit = 0) :
    postProcess w = kickMinCodeRepeat (kickSerial (kickToggleState w)) := by
  rw [postProcess, kickReverse_of_flag w (.inr hflag), kickRc6_of_nonpos w hbit.le,
    kickToggleBit_of_nonpos w hbit.le]

theorem toggleBit_written : (written rem).toggleBit = 0 := by
  rw [written]
  split
  · rfl
  · rfl

theorem has_written (h : rem.has reverseFlag = false) :
    (written rem).has reverseFlag = false := by
  have hflags : (written rem).flags = namedFlags rem.flags := by
    rw [written]
    split
    · rfl
    · rfl
  have hnamed : namedFlags rem.flags &&& reverseFlag = rem.flags &&& reverseFlag := by
    rw [namedFlags, Nat.and_assoc]
    rfl
  rw [ConfRemote.has, hflags, hnamed]
  exact h

/-- A remote all of whose fields are written, except for the state of the toggle bits. -/
def Settled (rem : ConfRemote) : Prop := written rem = { rem with toggleBitMaskState := 0 }

theorem toggleBitMaskState_written : (written rem).toggleBitMaskState = 0 := by
  rw [written]
  split
  · rfl
  · rfl

theorem settled_written : Settled (written rem) := by
  rw [Settled, written_again]
  have hstate := toggleBitMaskState_written rem
  generalize written rem = w at *
  rw [← hstate]

variable {rem}

theorem written_raw (hraw : rem.isRaw = true) :
    written rem = (writtenHead rem).setCodes (rawButtons (rem.codes.getD [])) := if_pos hraw

theorem written_codes (hraw : rem.isRaw = false) :
    written rem = (writtenHead rem).masked ((rem.codes.getD []).map writtenCode) :=
  if_neg fun h => Bool.false_ne_true (hraw.symm.trans h)

theorem not_raw_of_serial (h : rem.isSerial = true) : rem.isRaw = false := by
  have hprotocol : rem.flags &&& protocolMask = serial := beq_iff_eq.mp h
  rw [ConfRemote.isRaw, ConfRemote.protocolIs, hprotocol]
  rfl

theorem settled_toggleState (h : Settled rem) (m : IrCode) :
    Settled { rem with toggleBitMaskState := m } := h

theorem settled_serial (h : Settled rem) : Settled (kickSerial rem) := by
  by_cases hserial : rem.isSerial
  · have hraw := not_raw_of_serial hserial
    have hwritten : ∀ p s b, written { rem with pzero := p, sone := s, bitsInByte := b } =
        { written rem with
          pzero := orZero (!rem.isRaw) p
          sone := orZero (!rem.isRaw) s
          bitsInByte := orZero (!rem.isRaw && rem.isSerial) b } := by
      intro p s b
      rw [written_codes hraw]
      exact written_codes hraw
    obtain ⟨p, s, b, heq⟩ := kickSerial_eq rem
    rw [heq, Settled, hwritten, h, hraw, hserial]
    rfl
  · rwa [kickSerial, if_neg hserial]

theorem settled_minCodeRepeat (h : Settled rem) : Settled (kickMinCodeRepeat rem) := by
  rw [kickMinCodeRepeat]
  split
  · have hwritten : written { rem with minCodeRepeat := 0 } =
        { written rem with minCodeRepeat := orZero (!rem.isRaw && decide (0 < 0)) 0 } := by
      rcases Bool.eq_false_or_eq_true rem.isRaw with hraw | hraw
      · rw [written_raw hraw]
        exact written_raw hraw
      · rw [written_codes hraw]
        exact written_codes hraw
    have hzero : orZero (!rem.isRaw && decide (0 < 0)) 0 = 0 := ite_self _
    rw [Settled, hwritten, h, hzero]
  · exact h

theorem toggleBitMaskState_kick {codes : List IrNcode} (hcodes : rem.codes = some codes) :
    (kickToggleState rem).toggleBitMaskState =
      let state := codes.head?.elim 0 (·.code) &&& rem.toggleBitMask
      if rem.hasToggleBitMask ∧ !rem.isRaw then
        if state = 0 then state else state ^^^ rem.toggleBitMask
      else rem.toggleBitMaskState := by
  simp only [kickToggleState, hcodes]
  split
  · rfl
  · rfl

theorem kickToggleState_kicks (p s : ℤ) (b n : ℕ) :
    kickToggleState { rem with pzero := p, sone := s, bitsInByte := b, minCodeRepeat := n } =
      { kickToggleState rem with pzero := p, sone := s, bitsInByte := b, minCodeRepeat := n } := by
  have hstate : (kickToggleState { rem with
      pzero := p, sone := s, bitsInByte := b, minCodeRepeat := n }).toggleBitMaskState =
        (kickToggleState rem).toggleBitMaskState := by
    rcases Option.eq_none_or_eq_some rem.codes with hcodes | ⟨codes, hcodes⟩
    · simp only [kickToggleState, hcodes]
    · rw [toggleBitMaskState_kick hcodes]
      exact toggleBitMaskState_kick hcodes
  obtain ⟨m, hm⟩ := kickToggleState_eq rem
  obtain ⟨m', hm'⟩ := kickToggleState_eq
    { rem with pzero := p, sone := s, bitsInByte := b, minCodeRepeat := n }
  rw [hm, hm'] at hstate
  rw [hm, hm']
  exact congrArg (fun m => { rem with
    pzero := p, sone := s, bitsInByte := b, minCodeRepeat := n, toggleBitMaskState := m }) hstate

theorem kickLast_idem (r : ConfRemote) :
    kickMinCodeRepeat (kickSerial (kickMinCodeRepeat (kickSerial r))) =
      kickMinCodeRepeat (kickSerial r) := by
  obtain ⟨n, hrepeat⟩ := kickMinCodeRepeat_eq (kickSerial r)
  have hserial : kickSerial (kickMinCodeRepeat (kickSerial r)) =
      kickMinCodeRepeat (kickSerial r) := by
    rw [hrepeat, kickSerial_minCodeRepeat, kickSerial_idem]
  rw [hserial, kickMinCodeRepeat_idem]

/-- A remote that has been written and read is read as it is when it is written again. -/
theorem postProcess_again (hflag : rem.has reverseFlag = false) :
    postProcess (written (postProcess (written rem))) = postProcess (written rem) := by
  have hw := has_written rem hflag
  have hbit := toggleBit_written rem
  have hstate := toggleBitMaskState_written rem
  have hsettled := settled_written rem
  rw [postProcess_kicks hw hbit]
  generalize written rem = w at *
  -- the state of the toggle bits is the only field that is not written: it is found again
  obtain ⟨m, hm⟩ := kickToggleState_eq w
  obtain ⟨p, s, b, n, hlast⟩ := kickLast_eq (kickToggleState w)
  have hr : Settled (kickMinCodeRepeat (kickSerial (kickToggleState w))) := by
    rw [hm]
    exact settled_minCodeRepeat (settled_serial (settled_toggleState hsettled m))
  have hback : written (kickMinCodeRepeat (kickSerial (kickToggleState w))) =
      { w with pzero := p, sone := s, bitsInByte := b, minCodeRepeat := n } := by
    rw [hr, hlast, hm, ← hstate]
  have hkicks : postProcess { w with
      pzero := p, sone := s, bitsInByte := b, minCodeRepeat := n } =
        kickMinCodeRepeat (kickSerial (kickToggleState { w with
          pzero := p, sone := s, bitsInByte := b, minCodeRepeat := n })) :=
    postProcess_kicks (show ConfRemote.has { w with
      pzero := p, sone := s, bitsInByte := b, minCodeRepeat := n } reverseFlag = false from hw) hbit
  rw [hback, hkicks, kickToggleState_kicks, ← hlast, kickLast_idem]

end Remotes

/-! ### What is read can be written -/

section Writable

variable {rem r : ConfRemote}

theorem isInt32_orZero {c : Bool} {n : ℤ} (h : IsInt32 n) : IsInt32 (orZero c n) := by
  cases c with
  | true => exact h
  | false => exact (show IsInt32 0 from ⟨by decide, by decide⟩)

theorem isInt32_ite {c : Prop} [Decidable c] {m n : ℤ} (hm : IsInt32 m) (hn : IsInt32 n) :
    IsInt32 (if c then m else n) := by
  split
  · exact hm
  · exact hn

theorem orZero_lt {c : Bool} {n bound : ℕ} (h : n < bound) : orZero c n < bound := by
  cases c with
  | true => exact h
  | false => exact Nat.zero_lt_of_lt h

theorem oneProtocol_namedFlags {flags : ℕ} (h : OneProtocol flags) :
    OneProtocol (namedFlags flags) := by
  have hbit : ∀ i, (namedFlags flags).testBit i = true → flags.testBit i = true := by
    intro i hi
    rw [namedFlags, Nat.testBit_and, Bool.and_eq_true] at hi
    exact hi.1
  exact fun i j hi hj hseti hsetj => h i j hi hj (hbit i hseti) (hbit j hsetj)

theorem writableCode_congr (hraw : r.isRaw = rem.isRaw) {code : IrNcode}
    (h : WritableCode rem code) : WritableCode r code where
  name := h.name
  notInclude hr := h.notInclude (hraw ▸ hr)
  signals hr := h.signals (hraw ▸ hr)

theorem writableCode_cut (mask : IrCode) {code : IrNcode} (hraw : rem.isRaw = false)
    (h : WritableCode rem code) : WritableCode rem (cutCode mask (writtenCode code)) where
  name := h.name
  notInclude := h.notInclude
  signals hr := absurd (hraw.symm.trans hr) Bool.false_ne_true

theorem writableCode_rawButtons {codes : List IrNcode} (hraw : rem.isRaw = true)
    (h : ∀ code ∈ codes, WritableCode rem code) :
    ∀ code ∈ rawButtons codes, WritableCode rem code := by
  intro code hcode
  obtain ⟨i, hi, rfl⟩ := List.mem_mapIdx.mp hcode
  have hbutton := h _ (List.getElem_mem hi)
  exact ⟨hbutton.name, fun hr => absurd (hraw.symm.trans hr) (by decide), hbutton.signals⟩

theorem writableCodes_congr (h : Writable rem) (hraw : r.isRaw = rem.isRaw)
    (hcodes : r.codes = rem.codes) :
    ∃ codes, r.codes = some codes ∧ ∀ code ∈ codes, WritableCode r code := by
  obtain ⟨codes, hsome, hall⟩ := h.codes
  exact ⟨codes, hcodes.trans hsome, fun code hcode => writableCode_congr hraw (hall code hcode)⟩

theorem writableCodes_written (h : Writable rem) : ∃ codes,
    (written rem).codes = some codes ∧ ∀ code ∈ codes, WritableCode (written rem) code := by
  obtain ⟨codes, hcodes, hall⟩ := h.codes
  have hraw := isRaw_written rem
  rcases Bool.eq_false_or_eq_true rem.isRaw with hr | hr
  · refine ⟨rawButtons codes, ?_, fun code hcode =>
      writableCode_congr hraw (writableCode_rawButtons hr hall code hcode)⟩
    rw [written_raw hr, hcodes]
    rfl
  · refine ⟨_, by rw [written_codes hr]; rfl, fun code hcode => ?_⟩
    obtain ⟨code', hcode', rfl⟩ := List.mem_map.mp hcode
    obtain ⟨code, hmem, rfl⟩ := List.mem_map.mp hcode'
    rw [hcodes] at hmem
    exact writableCode_congr hraw (writableCode_cut _ hr (hall code hmem))

theorem intFields_writtenHead (h : ∀ n ∈ rem.intFields, IsInt32 n) :
    ∀ n ∈ (writtenHead rem).intFields, IsInt32 n := by
  simp only [ConfRemote.intFields, List.forall_mem_cons] at h ⊢
  simp [writtenHead, isInt32_orZero, h]

theorem wordFields_writtenHead (h : ∀ n ∈ rem.wordFields, n < 2 ^ 32) :
    ∀ n ∈ (writtenHead rem).wordFields, n < 2 ^ 32 := by
  simp only [ConfRemote.wordFields, List.forall_mem_cons] at h ⊢
  obtain ⟨hgap, hgap2, hrepeat, hmin, hfreq, hduty, hbaud, hstop, hnil⟩ := h
  exact ⟨hgap, hgap2, orZero_lt hrepeat, orZero_lt hmin, orZero_lt hfreq, orZero_lt hduty,
    orZero_lt hbaud, orZero_lt hstop, hnil⟩

/-- The fields of the head, which neither the buttons nor the masks change. -/
theorem written_fields (rem : ConfRemote) : (written rem).name = rem.name ∧
    (written rem).bits = orZero (!rem.isRaw) rem.bits ∧
    (written rem).flags = namedFlags rem.flags ∧
    (written rem).intFields = (writtenHead rem).intFields ∧
    (written rem).wordFields = (writtenHead rem).wordFields ∧
    (written rem).bitsInByte = orZero (!rem.isRaw && rem.isSerial) rem.bitsInByte ∧
    (written rem).stopBits = orZero (!rem.isRaw && rem.isSerial) rem.stopBits ∧
    (written rem).isSerial = rem.isSerial := by
  have hserial := isSerial_writtenHead rem
  rw [written]
  split
  · exact ⟨rfl, rfl, rfl, rfl, rfl, rfl, rfl, hserial⟩
  · exact ⟨rfl, rfl, rfl, rfl, rfl, rfl, rfl, hserial⟩

theorem writable_written (h : Writable rem) : Writable (written rem) := by
  obtain ⟨hname, hbits, hflags, hints, hwords, hinByte, hstop, hserial⟩ := written_fields rem
  refine ⟨hname ▸ h.name, ?_, ?_, ?_, hflags ▸ oneProtocol_namedFlags h.oneProtocol, ?_,
    writableCodes_written h⟩
  · rw [hbits]
    cases rem.isRaw with
    | true => exact le_rfl
    | false => exact h.bits
  · rw [hints]
    exact intFields_writtenHead h.ints
  · rw [hwords]
    exact wordFields_writtenHead h.words
  · intro hs
    have hr := hserial.symm.trans hs
    rw [hinByte, hstop, not_raw_of_serial hr, hr]
    exact h.serial hr

theorem writable_toggleState (h : Writable rem) (m : IrCode) :
    Writable { rem with toggleBitMaskState := m } where
  name := h.name
  bits := h.bits
  ints := h.ints
  words := h.words
  oneProtocol := h.oneProtocol
  serial := h.serial
  codes := writableCodes_congr h rfl rfl

theorem isInt32_baudTime (baud : ℕ) : IsInt32 (toInt32 (1000000 / baud)) := by
  have hle : 1000000 / baud ≤ 1000000 := Nat.div_le_self _ _
  exact (isInt32_toInt32 (by omega)).1

theorem writable_serial (h : Writable rem) : Writable (kickSerial rem) := by
  rw [kickSerial]
  split
  · next hserial =>
    obtain ⟨hbits, hstop⟩ := h.serial hserial
    have hbase := isInt32_baudTime rem.baud
    have hints := h.ints
    have hwords := h.words
    refine ⟨h.name, h.bits, ?_, hwords, h.oneProtocol, fun _ => ⟨?_, hstop⟩,
      writableCodes_congr h rfl rfl⟩
    · simp only [ConfRemote.intFields, List.forall_mem_cons] at hints ⊢
      simp [hints, isInt32_ite, hbase]
    · rw [if_neg (by omega)]
      exact hbits
  · exact h

theorem writable_minCodeRepeat (h : Writable rem) : Writable (kickMinCodeRepeat rem) := by
  rw [kickMinCodeRepeat]
  split
  · have hwords := h.words
    refine ⟨h.name, h.bits, h.ints, ?_, h.oneProtocol, h.serial, writableCodes_congr h rfl rfl⟩
    simp only [ConfRemote.wordFields, List.forall_mem_cons] at hwords ⊢
    obtain ⟨hgap, hgap2, hrepeat, -, hrest⟩ := hwords
    exact ⟨hgap, hgap2, hrepeat, by decide, hrest⟩
  · exact h

/-- What has been read can be written again. -/
theorem writable_again (h : Writable rem) (hflag : rem.has reverseFlag = false) :
    Writable (postProcess (written rem)) := by
  rw [postProcess_kicks (has_written rem hflag) (toggleBit_written rem)]
  obtain ⟨m, hm⟩ := kickToggleState_eq (written rem)
  rw [hm]
  exact writable_minCodeRepeat (writable_serial (writable_toggleState (writable_written h) m))

end Writable

/-! ### Files that are written again -/

section Files

variable {rems : List ConfRemote}

theorem readBack_writable (hrems : ∀ rem ∈ rems, Writable rem)
    (hflag : ∀ rem ∈ rems, rem.has reverseFlag = false) : ∀ r ∈ readBack rems, Writable r := by
  intro r hr
  obtain ⟨rem, hrem, rfl⟩ := List.mem_map.mp ((sortByBitCount_perm _).mem_iff.mp hr)
  exact writable_again (hrems rem hrem) (hflag rem hrem)

theorem readBack_again (hflag : ∀ rem ∈ rems, rem.has reverseFlag = false) :
    readBack (readBack rems) = readBack rems := by
  have hsame : (readBack rems).map (fun rem => postProcess (written rem)) = readBack rems := by
    refine (List.map_congr_left fun r hr => ?_).trans (List.map_id _)
    obtain ⟨rem, hrem, rfl⟩ := List.mem_map.mp ((sortByBitCount_perm _).mem_iff.mp hr)
    exact postProcess_again (hflag rem hrem)
  have hsorted : sortByBitCount (readBack rems) = readBack rems := by
    rw [sortByBitCount_eq]
    exact StableSort.sort_of_sorted (sortByBitCount_sorted _)
  rw [readBack, hsame, hsorted]

/-- A file that has been written and read is a fixed point: what is written for its remotes is
read as the same remotes. -/
theorem readConfig_dumped {stamp stamp' : DumpStamp} (hstamp : stamp.IsLine)
    (hstamp' : stamp'.IsLine) (hrems : ∀ rem ∈ rems, Writable rem)
    (hflag : ∀ rem ∈ rems, rem.has reverseFlag = false)
    (hshort : ∀ l ∈ fprintRemotes stamp rems, l.length + 1 < lineLen)
    {files files' : List Char → Option (List Char)} {name name' : List Char}
    {remotes : List ConfRemote}
    (hread : readConfig files name (dumpText stamp rems) = .ok remotes)
    (hshort' : ∀ l ∈ fprintRemotes stamp' remotes, l.length + 1 < lineLen) :
    readConfig files' name' (dumpText stamp' remotes) = .ok remotes := by
  rw [readConfig_dumpText files name hstamp hrems hshort] at hread
  obtain rfl : readBack rems = remotes := Except.ok.inj hread
  rw [readConfig_dumpText files' name' hstamp' (readBack_writable hrems hflag) hshort',
    readBack_again hflag]

theorem readConfig_dumped_two : readConfig (fun _ => none) []
    (dumpText dumpStamp (readBack dumpedTwo)) = .ok (readBack dumpedTwo) := by
  have hread := readConfig_dumpText (fun _ => none) [] isLine_dumpStamp writable_dumpedTwo
    (by decide +kernel)
  exact readConfig_dumped isLine_dumpStamp isLine_dumpStamp writable_dumpedTwo
    (by decide) (by decide +kernel) hread (by decide +kernel)

end Files

end Lirc
