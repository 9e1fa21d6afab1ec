import Lirc.Decoding
import Lirc.PostProcess
import Lirc.Toggling

/-!
Whether the words that are sent are accepted by `match_ir_code`. With several
toggle bits a word is accepted when all of them are changed or none. What
`toggle_bit_mask_state` changes is taken from the bits of code words, both when
the configuration is read and when a frame is received.
-/

namespace Lirc

open Transition

/-- The word that is sent for the button is accepted as its word. -/
def Recognised (c : ℕ) (r : IrRemote) : Prop :=
  ∃ word, sentWord r (buttonCode r c) = some word ∧
    matchIrCode r (genIrCode r r.preData (buttonCode r c) r.postData) word = true

/-- Of the toggle bits that are not ignored all are set or none. -/
def UniformBits (r : IrRemote) (state : IrCode) : Prop :=
  state &&& r.toggleBitMask &&& ~~~r.ignoreMask = 0 ∨
    ((state &&& r.toggleBitMask) ^^^ r.toggleBitMask) &&& ~~~r.ignoreMask = 0

instance (r : IrRemote) : DecidablePred (UniformBits r) :=
  fun _ => inferInstanceAs (Decidable (_ ∨ _))

/-- One bit toggles, or `send_data` toggles none. -/
def togglesSimply (r : IrRemote) : Bool :=
  isRcmm r || isXmp r || bitsSet r.toggleBitMask == 1

/-- The mask lies in the word. -/
def MaskInWord (r : IrRemote) : Prop := r.toggleBitMask &&& ~~~genMask (bitCount r) = 0

instance : DecidablePred MaskInWord := fun _ => inferInstanceAs (Decidable (_ = _))

/-! ### One word -/

theorem or_eq_or_iff (m a b : IrCode) : m ||| a = m ||| b ↔ (a ^^^ b) &&& ~~~m = 0 := by
  constructor
  · intro h
    apply BitVec.eq_of_getLsbD_eq
    intro p hp
    have hbit := congrArg (fun w : IrCode => w.getLsbD p) h
    simp only [BitVec.getLsbD_or] at hbit
    rw [BitVec.getLsbD_and, BitVec.getLsbD_xor, BitVec.getLsbD_not, decide_eq_true hp,
      show (0 : IrCode).getLsbD p = false from BitVec.getLsbD_zero]
    grind
  · intro h
    apply BitVec.eq_of_getLsbD_eq
    intro p hp
    have hbit := congrArg (fun w : IrCode => w.getLsbD p) h
    simp only [BitVec.getLsbD_and, BitVec.getLsbD_xor, BitVec.getLsbD_not, decide_eq_true hp] at hbit
    rw [show (0 : IrCode).getLsbD p = false from BitVec.getLsbD_zero] at hbit
    rw [BitVec.getLsbD_or, BitVec.getLsbD_or]
    grind

/-- What `match_ir_code` asks of the difference of two words. -/
theorem matchIrCode_iff (r : IrRemote) (a b : IrCode) :
    matchIrCode r a b = true ↔ (a ^^^ b) &&& ~~~r.ignoreMask = 0 ∨
      ((a ^^^ b) ^^^ r.toggleBitMask) &&& ~~~r.ignoreMask = 0 := by
  rw [matchIrCode, Bool.or_eq_true, beq_iff_eq, beq_iff_eq, or_eq_or_iff, or_eq_or_iff,
    BitVec.xor_assoc]

/-- A mask of one bit. -/
theorem exists_of_bitsSet {mask : IrCode} (h : bitsSet mask = 1) :
    ∃ k, ∀ p, p < 64 → (mask.getLsbD p = true ↔ p = k) := by
  rw [bitsSet, List.length_eq_one_iff] at h
  obtain ⟨k, hk⟩ := h
  refine ⟨k, fun p hp => ?_⟩
  have hmem : p ∈ (List.range 64).filter (fun i => mask.getLsbD i) ↔ p ∈ [k] := by rw [hk]
  rw [List.mem_filter, List.mem_range, List.mem_singleton] at hmem
  rw [← hmem]
  exact ⟨fun hbit => ⟨hp, hbit⟩, fun hboth => hboth.2⟩

/-- A part of a mask of one bit is nothing or the mask. -/
theorem eq_zero_or_eq_mask {mask part : IrCode} (h : bitsSet mask = 1)
    (hpart : ∀ p, p < 64 → part.getLsbD p = true → mask.getLsbD p = true) :
    part = 0 ∨ part ^^^ mask = 0 := by
  obtain ⟨k, hk⟩ := exists_of_bitsSet h
  by_cases hbit : part.getLsbD k = true
  · right
    have heq : part = mask := by
      apply BitVec.eq_of_getLsbD_eq
      intro p hp
      rw [Bool.eq_iff_iff, hk p hp]
      refine ⟨fun hset => (hk p hp).mp (hpart p hp hset), ?_⟩
      rintro rfl
      exact hbit
    rw [heq]
    exact BitVec.xor_self
  · left
    apply BitVec.eq_of_getLsbD_eq
    intro p hp
    rw [show (0 : IrCode).getLsbD p = false from BitVec.getLsbD_zero]
    refine Bool.eq_false_of_not_eq_true fun hset => ?_
    have heq := (hk p hp).mp (hpart p hp hset)
    rw [heq] at hset
    exact hbit hset

section Words

variable {r : IrRemote} {code word : IrCode}

theorem MaskInWord.lt (h : MaskInWord r) {p : ℕ} (hp : p < 64)
    (hbit : r.toggleBitMask.getLsbD p = true) : p < bitCount r := by
  have hzero := congrArg (fun w : IrCode => w.getLsbD p) h
  simp only [BitVec.getLsbD_and, BitVec.getLsbD_not, genMask_getLsbD hp, hbit,
    decide_eq_true hp, Bool.true_and] at hzero
  rw [show (0 : IrCode).getLsbD p = false from BitVec.getLsbD_zero] at hzero
  simpa using hzero

/-- The bits that are changed before the word is sent. -/
theorem changedBits_getLsbD (hraw : isRaw r = false) (hquiet : ToggleMaskQuiet r)
    (hle : bitCount r ≤ 64) (hin : MaskInWord r) (hsent : sentWord r code = some word) {p : ℕ}
    (hp : p < 64) :
    (genIrCode r r.preData code r.postData ^^^ word).getLsbD p =
      (r.toggleBitMask.getLsbD p && !(isRcmm r || isXmp r) &&
        if bitsSet r.toggleBitMask == 1 then
          (genIrCode r r.preData code r.postData).getLsbD p ^^ r.toggleBitMaskState.getLsbD p
        else r.toggleBitMaskState.getLsbD p) := by
  rw [BitVec.getLsbD_xor, sentWord_getLsbD hquiet hle hsent hp, sentBit, toggledBit]
  by_cases hlt : p < bitCount r
  · rw [decide_eq_true hlt, Bool.true_and]
    generalize (genIrCode r r.preData code r.postData).getLsbD p = bit
    cases isRcmm r || isXmp r with
    | true => simp
    | false =>
        cases r.toggleBitMask.getLsbD p with
        | false => simp
        | true =>
            cases bitsSet r.toggleBitMask == 1 with
            | true => simp
            | false => simp
  · have hout : r.toggleBitMask.getLsbD p = false :=
      Bool.eq_false_of_not_eq_true fun hbit => hlt (hin.lt hp hbit)
    have hword : (genIrCode r r.preData code r.postData).getLsbD p = false := by
      rw [genIrCode_getLsbD hraw _ _ _ hp, decide_eq_false hlt, Bool.false_and,
        if_neg (by rw [bitCount] at hlt; omega), if_neg (by rw [bitCount] at hlt; omega)]
    rw [hword, hout, decide_eq_false hlt, Bool.false_and, Bool.false_and, Bool.false_and,
      Bool.xor_false]

/-- The word of a button is accepted if and only if it is sent, and one bit
toggles, or all bits do or none. -/
theorem recognised_iff (hquiet : ToggleMaskQuiet r) (hle : bitCount r ≤ 64) (hin : MaskInWord r)
    (c : ℕ) :
    Recognised c r ↔ sendsBits r = true ∧
      (togglesSimply r = true ∨ UniformBits r r.toggleBitMaskState) := by
  have hsome := sentWord_isSome r (buttonCode r c)
  cases hsent : sentWord r (buttonCode r c) with
  | none =>
      rw [hsent, Option.isSome_none] at hsome
      rw [← hsome]
      refine iff_of_false ?_ (fun h => Bool.false_ne_true h.1)
      rintro ⟨word, hword, -⟩
      rw [hsent] at hword
      cases hword
  | some word =>
      rw [hsent, Option.isSome_some] at hsome
      have hraw : isRaw r = false := by
        by_contra h
        rw [sendsBits, Bool.eq_true_of_not_eq_false h] at hsome
        cases hsome
      have hbits : ∀ p, p < 64 → _ := fun p hp =>
        changedBits_getLsbD hraw hquiet hle hin hsent hp
      have hmatch : Recognised c r ↔
          matchIrCode r (genIrCode r r.preData (buttonCode r c) r.postData) word = true := by
        refine ⟨?_, fun h => ⟨word, hsent, h⟩⟩
        rintro ⟨word', hword, h⟩
        rw [hsent] at hword
        cases hword
        exact h
      rw [hmatch, matchIrCode_iff, ← hsome, togglesSimply]
      generalize genIrCode r r.preData (buttonCode r c) r.postData = own at hbits ⊢
      cases hcoded : isRcmm r || isXmp r with
      | true =>
          have hzero : own ^^^ word = 0 := by
            apply BitVec.eq_of_getLsbD_eq
            intro p hp
            rw [hbits p hp, hcoded, Bool.not_true, Bool.and_false, Bool.false_and]
            exact BitVec.getLsbD_zero.symm
          rw [hzero]
          exact iff_of_true (.inl BitVec.zero_and) ⟨rfl, .inl rfl⟩
      | false =>
          rw [Bool.false_or, beq_iff_eq]
          by_cases hone : bitsSet r.toggleBitMask = 1
          · have hcases : own ^^^ word = 0 ∨ (own ^^^ word) ^^^ r.toggleBitMask = 0 := by
              apply eq_zero_or_eq_mask hone
              intro p hp hbit
              rw [hbits p hp, Bool.and_eq_true, Bool.and_eq_true] at hbit
              exact hbit.1.1
            refine iff_of_true (hcases.imp ?_ ?_) ⟨rfl, .inl hone⟩
            · intro h
              rw [h]
              exact BitVec.zero_and
            · intro h
              rw [h]
              exact BitVec.zero_and
          · have hchanged : own ^^^ word = r.toggleBitMaskState &&& r.toggleBitMask := by
              apply BitVec.eq_of_getLsbD_eq
              intro p hp
              rw [hbits p hp, hcoded, if_neg (by simpa using hone), BitVec.getLsbD_and,
                Bool.not_false, Bool.and_true, Bool.and_comm]
            rw [hchanged, UniformBits]
            exact ⟨fun h => ⟨rfl, .inr h⟩, fun h => h.2.resolve_left hone⟩

/-- To flip all bits keeps them all set or none. -/
theorem uniformBits_xor_mask (r : IrRemote) (state : IrCode) :
    UniformBits r (state ^^^ r.toggleBitMask) ↔ UniformBits r state := by
  have hflip : (state ^^^ r.toggleBitMask) &&& r.toggleBitMask =
      (state &&& r.toggleBitMask) ^^^ r.toggleBitMask := by
    apply BitVec.eq_of_getLsbD_eq
    intro p hp
    simp only [BitVec.getLsbD_and, BitVec.getLsbD_xor]
    grind
  rw [UniformBits, UniformBits, hflip, BitVec.xor_assoc, BitVec.xor_self,
    show (state &&& r.toggleBitMask) ^^^ (0#64) = state &&& r.toggleBitMask from BitVec.xor_zero]
  exact or_comm

end Words

/-! ### What reception changes -/

/-- A code without the pointers into its sequence. -/
def IrNcode.atRest (code : IrNcode) : IrNcode := { code with current := [], transmitState := [] }

/-- The remote up to what transmissions and receptions change in it. -/
def SameSetup (r r' : IrRemote) : Prop :=
  ∃ codes bits toggle countdown last toggled reps send gmin gmax released,
    r' = { r with
      codes := codes, toggleBitMaskState := bits, toggleMaskState := toggle,
      repeatCountdown := countdown, lastCode := last, toggleCode := toggled, reps := reps,
      lastSend := send, minRemainingGap := gmin, maxRemainingGap := gmax,
      releaseDetected := released } ∧
    codes.map IrNcode.atRest = r.codes.map IrNcode.atRest

namespace SameSetup

variable {r r' r'' : IrRemote}

theorem refl (r : IrRemote) : SameSetup r r := ⟨_, _, _, _, _, _, _, _, _, _, _, rfl, rfl⟩

theorem trans (h : SameSetup r r') (h' : SameSetup r' r'') : SameSetup r r'' := by
  obtain ⟨_, _, _, _, _, _, _, _, _, _, _, rfl, hcodes⟩ := h
  obtain ⟨_, _, _, _, _, _, _, _, _, _, _, rfl, hcodes'⟩ := h'
  exact ⟨_, _, _, _, _, _, _, _, _, _, _, rfl, hcodes'.trans hcodes⟩

/-- A property that neither transmissions nor receptions touch. -/
theorem field {α : Type*} (h : SameSetup r r') (f : IrRemote → α)
    (hf : ∀ (r : IrRemote) codes bits toggle countdown last toggled reps send gmin gmax released,
      f { r with
        codes := codes, toggleBitMaskState := bits, toggleMaskState := toggle,
        repeatCountdown := countdown, lastCode := last, toggleCode := toggled, reps := reps,
        lastSend := send, minRemainingGap := gmin, maxRemainingGap := gmax,
        releaseDetected := released } = f r) : f r' = f r := by
  obtain ⟨_, _, _, _, _, _, _, _, _, _, _, rfl, -⟩ := h
  exact hf ..

theorem of_sameRemote (h : SameRemote r r') : SameSetup r r' := by
  obtain ⟨countdown, toggle, gmin, gmax, codes, heq, hcodes⟩ := h
  have hrestored := congrArg (fun x : IrRemote => { x with
    lastSend := r'.lastSend, lastCode := r'.lastCode,
    toggleBitMaskState := r'.toggleBitMaskState }) heq
  have hmap := congrArg (List.map IrNcode.atRest) hcodes
  rw [List.map_map, List.map_map] at hmap
  exact ⟨_, _, _, _, _, _, _, _, _, _, _, hrestored, hmap⟩

/-- What the pointers do not change of a code. -/
theorem getElem? {α : Type*} (h : SameSetup r r') (f : IrNcode → α)
    (hf : ∀ code : IrNcode, f code.atRest = f code) (c : ℕ) :
    (r'.codes[c]?).map f = (r.codes[c]?).map f := by
  obtain ⟨_, _, _, _, _, _, _, _, _, _, _, rfl, hcodes⟩ := h
  have hget := congrArg (fun l => (l[c]?).map f) hcodes
  simp only [List.getElem?_map, Option.map_map] at hget
  have hcomp : f ∘ IrNcode.atRest = f := funext hf
  rwa [hcomp] at hget

end SameSetup

/-- Matching moves the pointers of the codes. -/
theorem matchCodes_map {α : Type*} (f : IrNcode → α)
    (hf : ∀ (code : IrNcode) current, f { code with current := current } = f code) (r : IrRemote)
    (all : IrCode) (i : ℕ) (codes : List IrNcode) (found : Option ℕ) (haveCode : Bool) :
    (matchCodes r all i codes found haveCode).1.map f = codes.map f := by
  induction codes generalizing i found haveCode with
  | nil => rfl
  | cons code codes ih => simp only [matchCodes, List.map_cons, ih, hf]

/-- The code that is found is one of those that are looked at. -/
theorem matchCodes_found (r : IrRemote) (all : IrCode) (i : ℕ) (codes : List IrNcode)
    (found : Option ℕ) (haveCode : Bool) :
    ∀ c ∈ (matchCodes r all i codes found haveCode).2, c ∈ found ∨ c < i + codes.length := by
  induction codes generalizing i found haveCode with
  | nil => exact fun c hc => .inl hc
  | cons code codes ih =>
      intro c hc
      rw [List.length_cons]
      obtain hfound | hlt := ih _ _ _ c hc
      · split at hfound
        · cases hfound
          right
          omega
        · exact .inl hfound
      · right
        omega

/-- `get_code` finds a code of the remote and changes nothing but pointers. -/
theorem getCode_spec (r : IrRemote) (x : Received) :
    SameSetup r (getCode r x).2 ∧ (getCode r x).2.toggleBitMaskState = r.toggleBitMaskState ∧
      (getCode r x).2.codes.length = r.codes.length ∧
      ∀ found ∈ (getCode r x).1, found.1 < r.codes.length := by
  have hcodes := matchCodes_map IrNcode.atRest (fun _ _ => rfl) r
    (genIrCode r (untoggle r x).pre (untoggle r x).code (untoggle r x).post) 0 r.codes none false
  have hlength := congrArg List.length hcodes
  rw [List.length_map, List.length_map] at hlength
  have hfound := matchCodes_found r
    (genIrCode r (untoggle r x).pre (untoggle r x).code (untoggle r x).post) 0 r.codes none false
  rw [getCode]
  split
  · exact ⟨SameSetup.refl r, rfl, rfl, fun found h => by cases h⟩
  · simp only []
    split
    · exact ⟨⟨_, _, _, _, _, _, _, _, _, _, _, rfl, hcodes⟩, rfl, hlength,
        fun found h => by cases h⟩
    · next c hc =>
        have hlt : c < r.codes.length := by
          have h := hfound c hc
          simpa using h
        rw [foundCode]
        split
        · refine ⟨⟨_, _, _, _, _, _, _, _, _, _, _, rfl, hcodes⟩, rfl, hlength, ?_⟩
          intro found h
          cases h
          exact hlt
        · split
          · refine ⟨⟨_, _, _, _, _, _, _, _, _, _, _, rfl, hcodes⟩, rfl, hlength, ?_⟩
            intro found h
            cases h
            exact hlt
          · split
            · refine ⟨⟨_, _, _, _, _, _, _, _, _, _, _, rfl, hcodes⟩, rfl, hlength, ?_⟩
              intro found h
              cases h
              exact hlt
            · exact ⟨⟨_, _, _, _, _, _, _, _, _, _, _, rfl, hcodes⟩, rfl, hlength,
                fun found h => by cases h⟩

/-- `set_code` stores the bits that were received at the places of the toggle
bits, unless they are stored already. -/
theorem setCode_spec {r : IrRemote} {c : ℕ} (hc : c < r.codes.length) (state : IrCode)
    (same repeatFlag : Bool) (gmin gmax : ℤ) (now : ℕ) :
    SameSetup r (setCode r c state same repeatFlag gmin gmax now) ∧
      (hasToggleBitMask r = true →
        (setCode r c state same repeatFlag gmin gmax now).toggleBitMaskState = state) := by
  have hcounted : ∀ code, SameSetup r (countFrame r c code state same repeatFlag now) ∧
      (hasToggleBitMask r = true →
        (countFrame r c code state same repeatFlag now).toggleBitMaskState = state) := by
    intro code
    rw [countFrame]
    split
    · next hcontinues =>
        have hstate : hasToggleBitMask r = true → r.toggleBitMaskState = state := by
          intro hmask
          rw [continuesPress, hmask] at hcontinues
          simp only [Bool.and_eq_true, Bool.not_true, Bool.false_or, beq_iff_eq] at hcontinues
          exact hcontinues.2.symm
        rw [countRepeated]
        split
        · split
          · exact ⟨⟨_, _, _, _, _, _, _, _, _, _, _, rfl, rfl⟩, hstate⟩
          · exact ⟨⟨_, _, _, _, _, _, _, _, _, _, _, rfl, rfl⟩, hstate⟩
        · split
          · exact ⟨⟨_, _, _, _, _, _, _, _, _, _, _, rfl, rfl⟩, hstate⟩
          · exact ⟨⟨_, _, _, _, _, _, _, _, _, _, _, rfl, rfl⟩, hstate⟩
    · have hstarted : ∀ r' : IrRemote, SameSetup r' (startToggleMask r' c) ∧
          hasToggleBitMask (startToggleMask r' c) = hasToggleBitMask r' := by
        intro r'
        rw [startToggleMask]
        split
        · exact ⟨⟨_, _, _, _, _, _, _, _, _, _, _, rfl, rfl⟩, rfl⟩
        · exact ⟨SameSetup.refl r', rfl⟩
      have hstored : ∀ r' : IrRemote, SameSetup r' (storeToggleBits r' state) ∧
          (hasToggleBitMask r' = true → (storeToggleBits r' state).toggleBitMaskState = state) := by
        intro r'
        rw [storeToggleBits]
        split
        · exact ⟨⟨_, _, _, _, _, _, _, _, _, _, _, rfl, rfl⟩, fun _ => rfl⟩
        · next hno => exact ⟨SameSetup.refl r', fun hmask => absurd hmask hno⟩
      obtain ⟨hstart, hmask⟩ := hstarted { r with
        releaseDetected := false,
        reps := if code.next ≠ [] ∧ code.current = [] then 1 else 0 }
      obtain ⟨hstore, hstate⟩ := hstored (startToggleMask { r with
        releaseDetected := false,
        reps := if code.next ≠ [] ∧ code.current = [] then 1 else 0 } c)
      refine ⟨SameSetup.trans ⟨_, _, _, _, _, _, _, _, _, _, _, rfl, rfl⟩ (hstart.trans hstore), ?_⟩
      intro hyes
      exact hstate (hmask.trans hyes)
  obtain ⟨hsame, hstate⟩ := hcounted r.codes[c]
  rw [setCode, List.getElem?_eq_getElem hc]
  exact ⟨hsame.trans ⟨_, _, _, _, _, _, _, _, _, _, _, rfl, rfl⟩, hstate⟩

/-- What is reported leaves the stored bits. -/
theorem reportCode_spec (r : IrRemote) (c : ℕ) :
    SameSetup r (reportCode r c).2 ∧
      (reportCode r c).2.toggleBitMaskState = r.toggleBitMaskState := by
  have hreset : (resetCurrents r).codes.map IrNcode.atRest = r.codes.map IrNcode.atRest := by
    rw [resetCurrents, List.map_map]
    rfl
  have hnext : ∀ codes : List IrNcode,
      (codes.modify c fun code => { code with current := code.next }).map IrNcode.atRest =
        codes.map IrNcode.atRest := by
    intro codes
    induction codes generalizing c with
    | nil => rw [List.modify_nil]
    | cons code codes ih =>
        cases c with
        | zero => rfl
        | succ c => rw [List.modify_succ_cons, List.map_cons, List.map_cons, ih]
  rw [reportCode]
  split
  · exact ⟨SameSetup.refl r, rfl⟩
  · split
    · exact ⟨SameSetup.refl r, rfl⟩
    · rw [expectNext]
      split
      · exact ⟨⟨_, _, _, _, _, _, _, _, _, _, _, rfl, (hnext _).trans hreset⟩, rfl⟩
      · exact ⟨⟨_, _, _, _, _, _, _, _, _, _, _, rfl, hreset⟩, rfl⟩

/-- The bits of a frame that `set_code` is given, if a code of the remote is
found for it. -/
def storedBits (r : IrRemote) (x : Decoded) : Option IrCode :=
  (getCode r ⟨x.pre, x.code, x.post⟩).1.map Prod.snd

/-- A frame that is identified replaces the stored bits. -/
theorem decodeFrame_spec {r : IrRemote} (hmask : hasToggleBitMask r = true) (x : Decoded)
    (same : Bool) (now : ℕ) :
    SameSetup r (decodeFrame r x same now).2 ∧
      (decodeFrame r x same now).2.toggleBitMaskState =
        (storedBits r x).getD r.toggleBitMaskState := by
  obtain ⟨hsame, hstate, hlength, hfound⟩ := getCode_spec r ⟨x.pre, x.code, x.post⟩
  rw [decodeFrame, storedBits]
  generalize getCode r ⟨x.pre, x.code, x.post⟩ = got at hsame hstate hlength hfound
  obtain ⟨_ | ⟨c, state⟩, r'⟩ := got
  · exact ⟨hsame.trans ⟨_, _, _, _, _, _, _, _, _, _, _, rfl, rfl⟩, hstate⟩
  · have hc : c < r'.codes.length := by
      rw [hlength]
      exact hfound (c, state) rfl
    have hmask' : hasToggleBitMask r' = true := by
      rw [hsame.field hasToggleBitMask fun _ _ _ _ _ _ _ _ _ _ _ _ => rfl]
      exact hmask
    have hset := setCode_spec hc state same x.repeatFlag x.minRemainingGap x.maxRemainingGap now
    have hreport := reportCode_spec (setCode r' c state same x.repeatFlag x.minRemainingGap
      x.maxRemainingGap now) c
    exact ⟨(hsame.trans hset.1).trans hreport.1, hreport.2.trans (hset.2 hmask')⟩

/-! ### Runs -/

/-- What happens to a remote that is sent and received. -/
inductive ToggleEvent
  | sent (e : SendEvent)
  | decoded (x : Decoded) (same : Bool) (now : ℕ)

/-- The function that handles the event. -/
def toggleStep (env : Env) (a : ℕ) (d : Daemon) : ToggleEvent → Daemon
  | .sent e => sendStep env a d e
  | .decoded x same now => d.setRemote a (decodeFrame (d.heap a) x same now).2

/-- A frame of the remote that is identified has all toggle bits set or none. -/
def ReceivesUniform (a : ℕ) (d : Daemon) : ToggleEvent → Prop
  | .sent _ => True
  | .decoded x _ _ => ∀ bits ∈ storedBits (d.heap a) x, UniformBits (d.heap a) bits

/-- What every event keeps of a remote whose words can be accepted. -/
structure Toggles (r₀ : IrRemote) (a : ℕ) (d : Daemon) : Prop where
  same : SameSetup r₀ (d.heap a)
  bitMask : hasToggleBitMask (d.heap a) = true
  noMask : hasToggleMask (d.heap a) = false
  width : bitCount (d.heap a) ≤ 64
  inWord : MaskInWord (d.heap a)

section Runs

variable {env : Env} {r₀ : IrRemote} {a : ℕ} {d : Daemon}

theorem Toggles.of_same {d' : Daemon} (h : Toggles r₀ a d)
    (hsame : SameSetup (d.heap a) (d'.heap a)) : Toggles r₀ a d' where
  same := h.same.trans hsame
  bitMask := by
    rw [hsame.field hasToggleBitMask fun _ _ _ _ _ _ _ _ _ _ _ _ => rfl]
    exact h.bitMask
  noMask := by
    rw [hsame.field hasToggleMask fun _ _ _ _ _ _ _ _ _ _ _ _ => rfl]
    exact h.noMask
  width := by
    rw [hsame.field bitCount fun _ _ _ _ _ _ _ _ _ _ _ _ => rfl]
    exact h.width
  inWord := by
    rw [hsame.field MaskInWord fun _ _ _ _ _ _ _ _ _ _ _ _ => rfl]
    exact h.inWord

variable (env) in
/-- An event sends with the bits that are stored or with all of them flipped, or
it stores those of the frame that is identified. -/
theorem toggleStep_spec (h : Toggles r₀ a d) (e : ToggleEvent) :
    Toggles r₀ a (toggleStep env a d e) ∧
      (UniformBits r₀ ((toggleStep env a d e).heap a).toggleBitMaskState ↔
        match e with
        | .sent _ => UniformBits r₀ (d.heap a).toggleBitMaskState
        | .decoded x _ _ =>
            UniformBits r₀ ((storedBits (d.heap a) x).getD (d.heap a).toggleBitMaskState)) := by
  cases e with
  | sent e =>
      obtain ⟨⟨hsame, hstate⟩, -⟩ :=
        sendStep_toggles env h.bitMask ⟨SameRemote.refl (d.heap a), rfl⟩ e
      refine ⟨h.of_same (SameSetup.of_sameRemote hsame), ?_⟩
      rw [toggleStep, hstate]
      split
      · have hmask : (d.heap a).toggleBitMask = r₀.toggleBitMask :=
          h.same.field IrRemote.toggleBitMask fun _ _ _ _ _ _ _ _ _ _ _ _ => rfl
        rw [hmask]
        exact uniformBits_xor_mask r₀ _
      · exact Iff.rfl
  | decoded x same now =>
      obtain ⟨hsame, hstate⟩ := decodeFrame_spec h.bitMask x same now
      refine ⟨h.of_same ?_, ?_⟩
      · rw [toggleStep, setRemote_heap_self]
        exact hsame
      · rw [toggleStep, setRemote_heap_self, hstate]

theorem Toggles.uniformBits (h : Toggles r₀ a d) (state : IrCode) :
    UniformBits (d.heap a) state ↔ UniformBits r₀ state := by
  rw [h.same.field (fun r => UniformBits r state) fun _ _ _ _ _ _ _ _ _ _ _ _ => rfl]

theorem Toggles.recognised_iff (h : Toggles r₀ a d) (c : ℕ) :
    Recognised c (d.heap a) ↔ sendsBits r₀ = true ∧
      (togglesSimply r₀ = true ∨ UniformBits r₀ (d.heap a).toggleBitMaskState) := by
  rw [Lirc.recognised_iff (.inl h.noMask) h.width h.inWord, h.uniformBits,
    h.same.field sendsBits fun _ _ _ _ _ _ _ _ _ _ _ _ => rfl,
    h.same.field togglesSimply fun _ _ _ _ _ _ _ _ _ _ _ _ => rfl]

/-- From any stored bits on. -/
theorem Toggles.always_recognised_iff (h : Toggles r₀ a d) (events : List ToggleEvent) (c : ℕ) :
    Always (toggleStep env a) (fun d => Recognised c (d.heap a)) d events ↔
      sendsBits r₀ = true ∧ (togglesSimply r₀ = true ∨
        UniformBits r₀ (d.heap a).toggleBitMaskState ∧
          Along (toggleStep env a) (ReceivesUniform a) d events) := by
  have hkeeps : ∀ d' e, Toggles r₀ a d' → Toggles r₀ a (toggleStep env a d' e) :=
    fun d' e h' => (toggleStep_spec env h' e).1
  by_cases hsends : sendsBits r₀ = true
  · by_cases hsimple : togglesSimply r₀ = true
    · refine iff_of_true (fun fs _ => ?_) ⟨hsends, .inl hsimple⟩
      have hrun := run_invariant hkeeps fs h
      exact (hrun.recognised_iff c).mpr ⟨hsends, .inl hsimple⟩
    · have hstate : ∀ d', Toggles r₀ a d' →
          (Recognised c (d'.heap a) ↔ UniformBits r₀ (d'.heap a).toggleBitMaskState) := by
        intro d' h'
        rw [h'.recognised_iff c]
        exact ⟨fun hr => hr.2.resolve_left hsimple, fun hu => ⟨hsends, .inr hu⟩⟩
      -- a step keeps the bits uniform exactly if the frame has uniform bits
      have hstep : ∀ d' e, Toggles r₀ a d' → Recognised c (d'.heap a) →
          (Recognised c ((toggleStep env a d' e).heap a) ↔ ReceivesUniform a d' e) := by
        intro d' e h' hr
        have hu := (hstate d' h').mp hr
        obtain ⟨hnext, hiff⟩ := toggleStep_spec env h' e
        rw [hstate _ hnext, hiff]
        cases e with
        | sent e => exact iff_of_true hu trivial
        | decoded x same now =>
            show UniformBits r₀ ((storedBits (d'.heap a) x).getD _) ↔
              ∀ bits ∈ storedBits (d'.heap a) x, UniformBits (d'.heap a) bits
            cases storedBits (d'.heap a) x with
            | none => exact iff_of_true hu fun bits hbits => by cases hbits
            | some bits =>
                rw [Option.getD_some]
                constructor
                · intro hbits bits' hbits'
                  cases hbits'
                  exact (h'.uniformBits _).mpr hbits
                · intro hall
                  exact (h'.uniformBits _).mp (hall bits rfl)
      constructor
      · intro hall
        exact ⟨hsends, .inr ⟨(hstate d h).mp hall.head,
          (always_iff_along hkeeps hstep h hall.head).mp hall⟩⟩
      · rintro ⟨-, hs | ⟨hu, halong⟩⟩
        · exact absurd hs hsimple
        · exact (always_iff_along hkeeps hstep h ((hstate d h).mpr hu)).mpr halong
  · refine iff_of_false (fun hall => ?_) (fun hr => hsends hr.1)
    exact hsends ((h.recognised_iff c).mp hall.head).1

end Runs

/-- `read_config` takes the bits from the first code as it stands, wherever the
post data puts it in the word. -/
theorem postProcess_uniformBits {rem : ConfRemote}
    (hraw : isRaw (postProcess rem).toRemote = false)
    (hmask : hasToggleBitMask (postProcess rem).toRemote = true)
    (hcodes : 0 < (postProcess rem).toRemote.codes.length) :
    UniformBits (postProcess rem).toRemote (postProcess rem).toRemote.toggleBitMaskState ↔
      UniformBits (postProcess rem).toRemote (buttonCode (postProcess rem).toRemote 0) := by
  have hfixed : kickToggleState (postProcess rem) = postProcess rem := by
    obtain ⟨r, hr, hstate, -⟩ := postProcess_steps rem
    obtain ⟨p, s, b, n, hlast⟩ := kickLast_eq r
    rw [hr, hlast]
    exact kickToggleState_later r hstate p s b n
  generalize postProcess rem = r at *
  cases hlist : r.codes with
  | none =>
      have hempty : r.toRemote.codes = [] := by
        show r.codes.getD [] = []
        rw [hlist]
        rfl
      rw [hempty] at hcodes
      exact absurd hcodes (lt_irrefl 0)
  | some codes =>
      have hfirst : buttonCode r.toRemote 0 = codes.head?.elim 0 (·.code) := by
        have hcodes' : r.toRemote.codes = codes := by
          show r.codes.getD [] = codes
          rw [hlist]
          rfl
        rw [buttonCode, hcodes']
        cases codes with
        | nil => rfl
        | cons code codes => rfl
      have hset : r.hasToggleBitMask ∧ !r.isRaw := ⟨hmask, by rw [show r.isRaw = false from hraw]; rfl⟩
      rw [kickToggleState, hlist] at hfixed
      simp only [] at hfixed
      rw [if_pos hset, ← hfirst] at hfixed
      have hbits := congrArg ConfRemote.toggleBitMaskState hfixed
      have hmasked : ∀ bits, UniformBits r.toRemote (bits &&& r.toRemote.toggleBitMask) ↔
          UniformBits r.toRemote bits := by
        intro bits
        have htwice : bits &&& r.toRemote.toggleBitMask &&& r.toRemote.toggleBitMask =
            bits &&& r.toRemote.toggleBitMask := by
          rw [BitVec.and_assoc bits, BitVec.and_self]
        rw [UniformBits, UniformBits, htwice]
      rw [show r.toRemote.toggleBitMaskState = _ from hbits.symm]
      split
      · exact hmasked _
      · exact (uniformBits_xor_mask r.toRemote _).trans (hmasked _)

/-- The words that are sent for a button are accepted as its words throughout a
run, exactly when the remote sends words at all, and either `send_data` toggles
at most one bit, or neither the first code, taken without the post data behind
it, nor a frame that is received and identified has some toggle bits set and
others not. -/
theorem toggled_recognised_iff (rem : ConfRemote) (env : Env) (a c : ℕ) (d : Daemon)
    (events : List ToggleEvent) (hstart : d.heap a = (postProcess rem).toRemote)
    (hbutton : c < (d.heap a).codes.length) (hmask : hasToggleBitMask (d.heap a) = true)
    (hno : hasToggleMask (d.heap a) = false) (hle : bitCount (d.heap a) ≤ 64)
    (hin : MaskInWord (d.heap a)) :
    Always (toggleStep env a) (fun d => Recognised c (d.heap a)) d events ↔
      sendsBits (d.heap a) = true ∧ (togglesSimply (d.heap a) = true ∨
        UniformBits (d.heap a) (buttonCode (d.heap a) 0) ∧
          Along (toggleStep env a) (ReceivesUniform a) d events) := by
  have htoggles : Toggles (d.heap a) a d := ⟨SameSetup.refl _, hmask, hno, hle, hin⟩
  rw [htoggles.always_recognised_iff events c]
  refine and_congr_right fun hsends => or_congr_right (and_congr_left fun _ => ?_)
  have hraw : isRaw (d.heap a) = false := by
    by_contra h
    rw [sendsBits, Bool.eq_true_of_not_eq_false h] at hsends
    cases hsends
  have hcodes : 0 < (d.heap a).codes.length := by omega
  rw [hstart] at hraw hmask hcodes ⊢
  exact postProcess_uniformBits hraw hmask hcodes

/-- A remote with 8 bits of which two toggle. -/
def twoTogglesRemote (code : IrCode) : ConfRemote where
  name := some "tv".toList
  codes := some [{ name := "ok".toList, code := code }]
  bits := 8
  flags := spaceEnc
  pone := 500
  sone := 1500
  pzero := 500
  szero := 500
  ptrail := 500
  gap := 100000
  toggleBitMask := 0xC0

/-- A daemon that has read this remote. -/
def twoTogglesDaemon (code : IrCode) : Daemon :=
  { emptyDaemon with
    heap := fun _ => (postProcess (twoTogglesRemote code)).toRemote, remotes := [0],
    clis := fun _ => 7, clin := 1 }

/-- A frame with these bits. -/
def receivedFrame (code : IrCode) : ToggleEvent :=
  .decoded { pre := 0, code := code, post := 0, repeatFlag := false, minRemainingGap := 100000,
             maxRemainingGap := 100000 } false 0

/-- The button is sent, received with both bits set, and sent again. -/
theorem toggled_recognised_uniform :
    Always (toggleStep quietEnv 0) (fun d => Recognised 0 (d.heap 0)) (twoTogglesDaemon 0x01)
      [.sent onceOk, receivedFrame 0xC1, .sent onceOk] := by
  have hreceived : ReceivesUniform 0 (toggleStep quietEnv 0 (twoTogglesDaemon 0x01) (.sent onceOk))
      (receivedFrame 0xC1) := by
    have hstored : storedBits ((toggleStep quietEnv 0 (twoTogglesDaemon 0x01)
        (.sent onceOk)).heap 0) ⟨0, 0xC1, 0, false, 100000, 100000⟩ = some 0xC0 := by
      decide +kernel
    intro bits hbits
    rw [hstored] at hbits
    cases hbits
    decide +kernel
  exact (toggled_recognised_iff (twoTogglesRemote 0x01) quietEnv 0 0 (twoTogglesDaemon 0x01) _ rfl
    (by decide) (by decide) (by decide) (by decide) (by decide)).mpr
    ⟨by decide, .inr ⟨by decide, trivial, hreceived, trivial, trivial⟩⟩

/-- The first code has one of the two toggle bits: no word that is sent for it
is accepted. -/
theorem toggled_recognised_fails :
    ¬ ∀ (rem : ConfRemote) (env : Env) (a c : ℕ) (d : Daemon) (events : List ToggleEvent),
      d.heap a = (postProcess rem).toRemote → c < (d.heap a).codes.length →
      hasToggleBitMask (d.heap a) = true → hasToggleMask (d.heap a) = false →
      bitCount (d.heap a) ≤ 64 → MaskInWord (d.heap a) →
      Always (toggleStep env a) (fun d => Recognised c (d.heap a)) d events := by
  intro h
  have hall := h (twoTogglesRemote 0x41) quietEnv 0 0 (twoTogglesDaemon 0x41) [.sent onceOk] rfl
    (by decide) (by decide) (by decide) (by decide) (by decide)
  obtain ⟨word, hword, hmatch⟩ := hall.tail.head
  have hsent : sentWord ((toggleStep quietEnv 0 (twoTogglesDaemon 0x41) (.sent onceOk)).heap 0)
      (buttonCode ((toggleStep quietEnv 0 (twoTogglesDaemon 0x41) (.sent onceOk)).heap 0) 0) =
        some 0x01 := by decide +kernel
  rw [hsent] at hword
  cases hword
  revert hmatch
  decide +kernel

end Lirc
