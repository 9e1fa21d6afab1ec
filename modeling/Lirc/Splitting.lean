import Lirc.Arithmetic
import Lirc.CodeSequence

/-!
Code words are split into pre data, code and post data, and put together again:
by `map_code`, by `receive_decode` for a driver that decodes itself, by
`gen_ir_code`, and by `set_code` for a message. A segment may be as wide as the
word, so that a shift reaches its size; what such a shift does to a word that is
not zero is left open.
-/

namespace Lirc

/-! ### Segments -/

/-- The widths of the segments of a remote. -/
def widthsOf (r : IrRemote) : Widths := ⟨r.preDataBits, r.bits, r.postDataBits⟩

namespace Widths

variable (w : Widths)

def total : ℕ := w.pre + w.code + w.post

/-- Three segments in one word. -/
def join (x : Received) : IrCode :=
  ((x.pre &&& genMask w.pre) <<< w.code ||| (x.code &&& genMask w.code)) <<< w.post |||
    (x.post &&& genMask w.post)

/-- The segments of a word. -/
def cut (word : IrCode) : Received where
  pre := (word >>> w.post >>> w.code) &&& genMask w.pre
  code := (word >>> w.post) &&& genMask w.code
  post := word &&& genMask w.post

/-- The segments without the bits beyond their widths. -/
def masked (x : Received) : Received where
  pre := x.pre &&& genMask w.pre
  code := x.code &&& genMask w.code
  post := x.post &&& genMask w.post

end Widths

@[simp] theorem total_widthsOf (r : IrRemote) : (widthsOf r).total = bitCount r := rfl

theorem and_genMask_self (d : IrCode) (n : ℕ) :
    d &&& genMask n &&& genMask n = d &&& genMask n := by
  rw [BitVec.and_assoc, BitVec.and_self]

section Segments

variable {w : Widths} {p : ℕ}

theorem and_genMask_getLsbD (d : IrCode) {n : ℕ} (hp : p < 64) :
    (d &&& genMask n).getLsbD p = (d.getLsbD p && decide (p < n)) := by
  rw [BitVec.getLsbD_and, genMask_getLsbD hp]

theorem lt_of_and_genMask {d : IrCode} {n j : ℕ} (h : (d &&& genMask n).getLsbD j = true) :
    j < n := by
  rw [BitVec.getLsbD_and, Bool.and_eq_true] at h
  rw [genMask_getLsbD (BitVec.lt_of_getLsbD h.2)] at h
  exact of_decide_eq_true h.2

theorem join_getLsbD (x : Received) (hp : p < 64) : (w.join x).getLsbD p =
    if p < w.post then x.post.getLsbD p
    else if p < w.post + w.code then x.code.getLsbD (p - w.post)
    else decide (p < w.total) && x.pre.getLsbD (p - w.post - w.code) := by
  rw [Widths.join, append_getLsbD _ _ _ (fun _ => lt_of_and_genMask)
    (fun _ => lt_of_and_genMask) hp]
  split
  · next hlow => rw [and_genMask_getLsbD _ hp, decide_eq_true hlow, Bool.and_true]
  · split
    · next hmid =>
        have hmid' : p - w.post < w.code := by omega
        rw [and_genMask_getLsbD _ (by omega), decide_eq_true hmid', Bool.and_true]
    · next hlow hmid =>
        have hhigh : p - w.post - w.code < w.pre ↔ p < w.total := by
          simp only [Widths.total]
          omega
        rw [and_genMask_getLsbD _ (by omega), Bool.and_comm, decide_eq_decide.mpr hhigh]

/-- Joining the segments of a word gives the word. -/
theorem join_cut (word : IrCode) : w.join (w.cut word) = word &&& genMask w.total := by
  apply BitVec.eq_of_getLsbD_eq
  intro p hp
  rw [join_getLsbD _ hp, and_genMask_getLsbD _ hp]
  simp only [Widths.cut, Widths.total]
  split
  · next hlow => grind [and_genMask_getLsbD]
  · next hlow =>
      split
      · next hmid => grind [and_genMask_getLsbD]
      · next hmid => grind [and_genMask_getLsbD]

/-- The segments of a joined word are the segments. -/
theorem cut_join (h : w.total ≤ 64) (x : Received) : w.cut (w.join x) = w.masked x := by
  simp only [Widths.total] at h
  simp only [Widths.cut, Widths.masked, Received.mk.injEq]
  refine ⟨?_, ?_, ?_⟩
  · apply BitVec.eq_of_getLsbD_eq
    intro p hp
    rw [and_genMask_getLsbD _ hp, and_genMask_getLsbD _ hp, BitVec.getLsbD_ushiftRight,
      BitVec.getLsbD_ushiftRight]
    by_cases hlt : p < w.pre
    · rw [join_getLsbD _ (by omega), if_neg (by omega), if_neg (by omega),
        show w.post + (w.code + p) - w.post - w.code = p by omega,
        decide_eq_true (show w.post + (w.code + p) < w.total by simp only [Widths.total]; omega),
        Bool.true_and]
    · rw [decide_eq_false hlt, Bool.and_false, Bool.and_false]
  · apply BitVec.eq_of_getLsbD_eq
    intro p hp
    rw [and_genMask_getLsbD _ hp, and_genMask_getLsbD _ hp, BitVec.getLsbD_ushiftRight]
    by_cases hlt : p < w.code
    · rw [join_getLsbD _ (by omega), if_neg (by omega), if_pos (by omega),
        Nat.add_sub_cancel_left]
    · rw [decide_eq_false hlt, Bool.and_false, Bool.and_false]
  · apply BitVec.eq_of_getLsbD_eq
    intro p hp
    rw [and_genMask_getLsbD _ hp, and_genMask_getLsbD _ hp]
    by_cases hlt : p < w.post
    · rw [join_getLsbD _ hp, if_pos hlt]
    · rw [decide_eq_false hlt, Bool.and_false, Bool.and_false]

theorem join_masked (x : Received) : w.join (w.masked x) = w.join x := by
  simp only [Widths.join, Widths.masked, and_genMask_self]

/-- A word has no bits beyond its segments. -/
theorem join_and_genMask (x : Received) : w.join x &&& genMask w.total = w.join x := by
  apply BitVec.eq_of_getLsbD_eq
  intro p hp
  rw [and_genMask_getLsbD _ hp, join_getLsbD _ hp]
  by_cases hlt : p < w.total
  · rw [decide_eq_true hlt, Bool.and_true]
  · have hlow : ¬p < w.post := by simp only [Widths.total] at hlt; omega
    have hmid : ¬p < w.post + w.code := by simp only [Widths.total] at hlt; omega
    rw [if_neg hlow, if_neg hmid, decide_eq_false hlt, Bool.false_and, Bool.false_and]

end Segments

/-! ### The code -/

/-- The shifts of a machine. By less than the size of the word they are those
of the language; beyond it only a word of zeros is sure to stay what it is. -/
structure Shifter where
  left : IrCode → ℕ → IrCode
  right : IrCode → ℕ → IrCode
  left_eq : ∀ d n, n < 64 → left d n = d <<< n
  right_eq : ∀ d n, n < 64 → right d n = d >>> n
  left_zero : ∀ n, left 0#64 n = 0#64

/-- A machine that takes the amount modulo the size of the word. -/
def wrappingShifter : Shifter where
  left d n := d <<< (n % 64)
  right d n := d >>> (n % 64)
  left_eq d n h := by rw [Nat.mod_eq_of_lt h]
  right_eq d n h := by rw [Nat.mod_eq_of_lt h]
  left_zero n := BitVec.zero_shiftLeft _

namespace Shifter

variable (m : Shifter) (r : IrRemote)

/-- `gen_ir_code` -/
def genIrCode (x : Received) : IrCode :=
  let all := x.pre &&& genMask r.preDataBits
  let all := m.left all r.bits
  let all := all ||| (if isRaw r then x.code else x.code &&& genMask r.bits)
  let all := m.left all r.postDataBits
  all ||| (x.post &&& genMask r.postDataBits)

/-- The split of `receive_decode` where the driver has decoded the frame. -/
def splitDecoded (decoded : IrCode) : Received :=
  let post := decoded &&& genMask r.postDataBits
  let decoded := m.right decoded r.postDataBits
  let code := decoded &&& genMask r.bits
  { pre := m.right decoded r.bits, code, post }

/-- `map_code` -/
def mapCode (w : Widths) (x : Received) : Option Received :=
  if w.pre + w.code + w.post ≠ r.preDataBits + r.bits + r.postDataBits then none
  else
    let all := x.pre &&& genMask w.pre
    let all := m.left all w.code
    let all := all ||| (x.code &&& genMask w.code)
    let all := m.left all w.post
    let all := all ||| (x.post &&& genMask w.post)
    let post := all &&& genMask r.postDataBits
    let all := m.right all r.postDataBits
    let code := all &&& genMask r.bits
    let all := m.right all r.bits
    some { pre := all &&& genMask r.preDataBits, code, post }

/-- The word that `set_code` returns. -/
def messageCode (code : IrNcode) : IrCode :=
  let word := 0
  let word := if hasPre r then m.left (word ||| r.preData) r.bits else word
  let word := word ||| code.code
  let word := if hasPost r then m.left word r.postDataBits ||| r.postData else word
  if r.has compatReverse then reverse word (bitCount r) else word

end Shifter

/-! ### Shifts that reach the size of the word -/

section Shifts

variable {m : Shifter} {r : IrRemote} {w : Widths}

@[simp] theorem and_genMask_zero (d : IrCode) : d &&& genMask 0 = 0#64 := BitVec.and_zero

@[simp] theorem left_zero (n : ℕ) : m.left 0#64 n = 0#64 := m.left_zero n

/-- Only a word of zeros is shifted by 64. -/
theorem left_masked (d : IrCode) {k n : ℕ} (h : k + n ≤ 64) :
    m.left (d &&& genMask k) n = (d &&& genMask k) <<< n := by
  rcases Nat.lt_or_ge n 64 with hn | hn
  · exact m.left_eq _ n hn
  · obtain rfl : k = 0 := by omega
    simp

/-- What a shift by 64 leaves is masked away. -/
theorem right_masked (d : IrCode) {k n : ℕ} (h : n + k ≤ 64) :
    m.right d n &&& genMask k = d >>> n &&& genMask k := by
  rcases Nat.lt_or_ge n 64 with hn | hn
  · rw [m.right_eq d n hn]
  · obtain rfl : k = 0 := by omega
    rw [and_genMask_zero, and_genMask_zero]

theorem right_right_masked (d : IrCode) {k n l : ℕ} (h : n + l + k ≤ 64) :
    m.right (m.right d n) l &&& genMask k = d >>> n >>> l &&& genMask k := by
  rw [right_masked _ (by omega)]
  rcases Nat.lt_or_ge n 64 with hn | hn
  · rw [m.right_eq d n hn]
  · obtain rfl : k = 0 := by omega
    rw [and_genMask_zero, and_genMask_zero]

theorem left_join (h : w.total ≤ 64) (x : Received) :
    m.left (m.left (x.pre &&& genMask w.pre) w.code ||| (x.code &&& genMask w.code)) w.post |||
      (x.post &&& genMask w.post) = w.join x := by
  simp only [Widths.total] at h
  rw [Widths.join, left_masked x.pre (show w.pre + w.code ≤ 64 by omega)]
  rcases Nat.lt_or_ge w.post 64 with hpost | hpost
  · rw [m.left_eq _ _ hpost]
  · -- the other segments are empty
    have hpre : w.pre = 0 := by omega
    have hcode : w.code = 0 := by omega
    simp [hpre, hcode]

/-- `gen_ir_code` joins the segments. -/
theorem genIrCode_eq_join (h : bitCount r ≤ 64) {x : Received}
    (hx : isRaw r = true → x.code &&& genMask r.bits = x.code) :
    m.genIrCode r x = (widthsOf r).join x := by
  have hcode : (if isRaw r then x.code else x.code &&& genMask r.bits) =
      x.code &&& genMask r.bits := by
    split
    · next hraw => exact (hx hraw).symm
    · rfl
  rw [Shifter.genIrCode, hcode]
  exact left_join (w := widthsOf r) h x

/-- The split of `receive_decode` leaves bits above the pre data. -/
theorem masked_splitDecoded (h : bitCount r ≤ 64) (decoded : IrCode) :
    (widthsOf r).masked (m.splitDecoded r decoded) = (widthsOf r).cut decoded := by
  simp only [bitCount] at h
  simp only [Widths.masked, Widths.cut, Shifter.splitDecoded, widthsOf, and_genMask_self]
  rw [right_right_masked decoded (by omega), right_masked decoded (by omega)]

/-- `map_code` joins the segments of one split and cuts the word by the other. -/
theorem mapCode_eq (h : bitCount r ≤ 64) (hw : w.total = bitCount r) (x : Received) :
    m.mapCode r w x = some ((widthsOf r).cut (w.join x)) := by
  have hsame : ¬w.pre + w.code + w.post ≠ r.preDataBits + r.bits + r.postDataBits :=
    not_not_intro hw
  rw [Shifter.mapCode, if_neg hsame]
  simp only [left_join (m := m) (hw ▸ h : w.total ≤ 64) x]
  simp only [bitCount] at h
  rw [right_right_masked _ (by omega), right_masked _ (by omega)]
  rfl

end Shifts

/-! ### The codes of a remote -/

/-- The pre data, the codes and the post data have no bits beyond their widths. -/
structure InWidths (r : IrRemote) : Prop where
  pre : r.preData &&& genMask r.preDataBits = r.preData
  post : r.postData &&& genMask r.postDataBits = r.postData
  codes : ∀ code ∈ r.codes, ∀ a ∈ code.elements, a &&& genMask r.bits = a

/-- `sanity_checks` cuts what is beyond the widths. -/
theorem sanityChecks_inWidths {rem rem' : ConfRemote} (hraw : rem.isRaw = false)
    (h : sanityChecks rem = .ok rem') : InWidths rem'.toRemote := by
  rw [sanityChecks] at h
  split at h
  · cases h
  · rw [hraw, if_neg Bool.false_ne_true] at h
    split at h
    · cases h
    · next codes _ =>
        obtain rfl := Except.ok.inj h
        refine ⟨and_genMask_self _ _, and_genMask_self _ _, ?_⟩
        intro code hcode a ha
        simp only [ConfRemote.toRemote, Option.getD_some, List.mem_map] at hcode
        obtain ⟨code, -, rfl⟩ := hcode
        simp only [IrNcode.elements, cutCode, List.mem_cons, List.mem_map] at ha
        rcases ha with rfl | ⟨a, -, rfl⟩
        · exact and_genMask_self _ _
        · exact and_genMask_self _ _

/-- The fields that the words of a remote come from. -/
def wordFields (rem : ConfRemote) :
    IrCode × ℤ × IrCode × ℤ × Option (List IrNcode) × ℤ :=
  (rem.preData, rem.preDataBits, rem.postData, rem.postDataBits, rem.codes, rem.bits)

/-- Only the reversal changes the words of a remote. -/
theorem wordFields_postProcess {rem : ConfRemote} (h : rem.has reverseFlag = false) :
    wordFields (postProcess rem) = wordFields rem := by
  have hreverse : kickReverse rem = rem := by
    rw [kickReverse, if_neg (by simp [h])]
  have hrc6 (rem : ConfRemote) : wordFields (kickRc6 rem) = wordFields rem := by
    rw [kickRc6]
    split <;> rfl
  have htoggle (rem : ConfRemote) : wordFields (kickToggleBit rem) = wordFields rem := by
    rw [kickToggleBit]
    split <;> rfl
  have hstate (rem : ConfRemote) : wordFields (kickToggleState rem) = wordFields rem := by
    rw [kickToggleState]
    split
    · split <;> rfl
    · rfl
  have hserial (rem : ConfRemote) : wordFields (kickSerial rem) = wordFields rem := by
    rw [kickSerial]
    split <;> rfl
  have hmin (rem : ConfRemote) : wordFields (kickMinCodeRepeat rem) = wordFields rem := by
    rw [kickMinCodeRepeat]
    split <;> rfl
  rw [postProcess, hmin, hserial, hstate, htoggle, hrc6, hreverse]

/-- A remote that `sanity_checks` has passed and that is not reversed keeps its
codes within their widths. -/
theorem postProcess_inWidths {rem rem' : ConfRemote} (hraw : rem.isRaw = false)
    (h : sanityChecks rem = .ok rem') (hreverse : rem'.has reverseFlag = false) :
    InWidths (postProcess rem').toRemote := by
  obtain ⟨hpre, hpost, hcodes⟩ := sanityChecks_inWidths hraw h
  have hfields := wordFields_postProcess hreverse
  simp only [wordFields, Prod.mk.injEq] at hfields
  obtain ⟨h₁, h₂, h₃, h₄, h₅, h₆⟩ := hfields
  simp only [ConfRemote.toRemote] at hpre hpost hcodes
  constructor
  · simp only [ConfRemote.toRemote, h₁, h₂, hpre]
  · simp only [ConfRemote.toRemote, h₃, h₄, hpost]
  · simpa only [ConfRemote.toRemote, h₅, h₆] using hcodes

/-- No bit of a code is ignored or toggled. -/
def NoMasks (r : IrRemote) : Prop := r.ignoreMask = 0 ∧ r.toggleBitMask = 0 ∧ r.toggleMask = 0

section Messages

variable {m : Shifter} {r : IrRemote}

/-- Without bits beyond the widths `set_code` joins the segments of a button. -/
theorem messageCode_eq_join (h : bitCount r ≤ 64) (hwidths : InWidths r)
    (hcompat : r.has compatReverse = false) {code : IrNcode} (hcode : code ∈ r.codes) :
    m.messageCode r code = (widthsOf r).join ⟨r.preData, code.code, r.postData⟩ := by
  have hown : code.code &&& genMask r.bits = code.code :=
    hwidths.codes code hcode _ List.mem_cons_self
  have hpre : (if hasPre r then m.left (0 ||| r.preData) r.bits else 0) =
      m.left (r.preData &&& genMask r.preDataBits) r.bits := by
    rw [show 0 ||| r.preData = r.preData from BitVec.zero_or, hwidths.pre]
    split
    · rfl
    · next hnone =>
        have hzero : r.preDataBits = 0 := by simpa [hasPre] using hnone
        have hdata := hwidths.pre
        rw [hzero, and_genMask_zero] at hdata
        rw [← hdata, left_zero]
        rfl
  have hpost (word : IrCode) :
      (if hasPost r then m.left word r.postDataBits ||| r.postData else word) =
        m.left word r.postDataBits ||| (r.postData &&& genMask r.postDataBits) := by
    rw [hwidths.post]
    split
    · rfl
    · next hnone =>
        have hzero : r.postDataBits = 0 := by simpa [hasPost] using hnone
        have hdata := hwidths.post
        rw [hzero, and_genMask_zero] at hdata
        rw [hzero, ← hdata, m.left_eq word 0 (by decide)]
        simp
  rw [Shifter.messageCode]
  simp only [hpre, hpost, hcompat, Bool.false_eq_true, if_false]
  nth_rewrite 1 [← hown]
  have hjoin := left_join (m := m) (w := widthsOf r) h ⟨r.preData, code.code, r.postData⟩
  simpa only [widthsOf] using hjoin

/-- A code that is found matches the received word. -/
theorem matchCodes_matched (r : IrRemote) (all : IrCode) (i : ℕ) (codes : List IrNcode)
    (found : Option ℕ) (haveCode : Bool) :
    ∀ c ∈ (matchCodes r all i codes found haveCode).2, c ∈ found ∨
      ∃ k code, c = i + k ∧ codes[k]? = some code ∧ (matchNcode r all code).2.1 = true := by
  induction codes generalizing i found haveCode with
  | nil => exact fun c hc => .inl hc
  | cons code codes ih =>
      intro c hc
      rw [matchCodes] at hc
      rcases ih (i + 1) _ _ c hc with hfound | ⟨k, code', rfl, hk, hmatch⟩
      · split at hfound
        · next hmatch =>
            obtain rfl := Option.some.inj hfound
            rw [Bool.and_eq_true] at hmatch
            exact .inr ⟨0, code, rfl, rfl, hmatch.1⟩
        · exact .inl hfound
      · exact .inr ⟨k + 1, code', by omega, hk, hmatch⟩

/-- Without masks `get_code` finds a button by a word that it knows. -/
theorem getCode_matched (hmask : r.toggleMask = 0) {x : Received} {c : ℕ} {state : IrCode}
    (h : (getCode r x).1 = some (c, state)) :
    ∃ code, r.codes[c]? = some code ∧ (matchNcode r (receivedWord r x) code).2.1 = true := by
  have htoggle : ∀ codes, hasToggleMask { r with codes } = false := by
    intro codes
    simp [hasToggleMask, hmask]
  have huntoggle : untoggle r x = x := by
    rw [untoggle, show hasToggleMask r = false from htoggle r.codes]
    rfl
  rw [getCode, huntoggle] at h
  split at h
  · cases h
  · dsimp only at h
    split at h
    · cases h
    · next c' hfound =>
        rw [foundCode, htoggle] at h
        obtain ⟨rfl, -⟩ := Prod.mk.inj (Option.some.inj h)
        rcases matchCodes_matched r _ 0 r.codes none false c' hfound with
          hnone | ⟨k, code, hk, hmatch⟩
        · cases hnone
        · obtain rfl : c' = k := by omega
          exact ⟨code, hmatch⟩

/-- A button without a sequence is found by its own word. -/
theorem receivedWord_of_match (hmasks : NoMasks r) {code : IrNcode} (hnext : code.next = [])
    {x : Received} (h : (matchNcode r (receivedWord r x) code).2.1 = true) :
    receivedWord r x = codeWord r code.code := by
  obtain ⟨hignore, htoggle, -⟩ := hmasks
  rw [matchNcode] at h
  split at h
  · next hmatch =>
      rw [IrNcode.getIrCode, if_pos hnext] at hmatch
      simp only [matchIrCode, hignore, htoggle, BitVec.ofNat_eq_ofNat, BitVec.zero_or,
        BitVec.xor_zero, Bool.or_self, beq_iff_eq] at hmatch
      exact hmatch.symm
  · rw [if_pos (.inl hnext)] at h
    cases h

/-! ### Agreement -/

/-- The word of a button, as `gen_ir_code` puts it together. -/
def buttonWord (m : Shifter) (r : IrRemote) (code : IrNcode) : IrCode :=
  m.genIrCode r ⟨r.preData, code.code, r.postData⟩

/-- The splits and the joins of words agree: what `receive_decode` splits comes
back, `map_code` keeps the word, and mapping to another split and back keeps the
segments. -/
structure SplitsAgree (m : Shifter) (r : IrRemote) : Prop where
  split : ∀ decoded, decoded &&& genMask (bitCount r) = decoded →
    m.genIrCode r (m.splitDecoded r decoded) = decoded
  map : ∀ w x, w.total = bitCount r →
    ∃ y, m.mapCode r w x = some y ∧ m.genIrCode r y = w.join x
  back : ∀ r₂ x, bitCount r₂ = bitCount r →
    ∃ y, m.mapCode r₂ (widthsOf r) x = some y ∧
      m.mapCode r (widthsOf r₂) y = some ((widthsOf r).masked x)

/-- The word that `get_code` matches a button against, where no masks are set,
is the word of the message. -/
def MessageIsMatched (m : Shifter) (r : IrRemote) (c : ℕ) (code : IrNcode) : Prop :=
  NoMasks r → ∀ x state, (getCode r x).1 = some (c, state) →
    receivedWord r x = m.messageCode r code

/-- Splits, joins and messages agree for every button. -/
def WordsAgree (m : Shifter) (r : IrRemote) : Prop :=
  SplitsAgree m r ∧ (isRaw r = false → r.has compatReverse = false →
    ∀ c code, r.codes[c]? = some code →
      m.messageCode r code = buttonWord m r code ∧ MessageIsMatched m r c code)

theorem splitsAgree (h : bitCount r ≤ 64) : SplitsAgree m r where
  split decoded hdecoded := by
    rw [genIrCode_eq_join h fun _ => and_genMask_self _ _, ← join_masked, masked_splitDecoded h,
      join_cut, total_widthsOf, hdecoded]
  map w x hw := by
    refine ⟨_, mapCode_eq h hw x, ?_⟩
    rw [genIrCode_eq_join h fun _ => and_genMask_self _ _, join_cut, total_widthsOf, ← hw,
      join_and_genMask]
  back r₂ x h₂ := by
    have hthere : (widthsOf r).total = bitCount r₂ := h₂.symm
    have hback : (widthsOf r₂).total = bitCount r := h₂
    have htotal : (widthsOf r).total ≤ 64 := h
    refine ⟨_, mapCode_eq (h₂ ▸ h) hthere x, ?_⟩
    rw [mapCode_eq h hback, join_cut, total_widthsOf, ← hthere, join_and_genMask, cut_join htotal]

/-- The splits agree for every remote, and the messages for buttons whose codes
have no bits beyond their widths; the code of a sequence that is matched is that
of the place in the sequence, and the message shows the first. -/
theorem words_agree (m : Shifter) (r : IrRemote) (h : bitCount r ≤ 64) :
    SplitsAgree m r ∧ (isRaw r = false → r.has compatReverse = false → InWidths r →
      ∀ c code, r.codes[c]? = some code → m.messageCode r code = buttonWord m r code ∧
        (code.next = [] → MessageIsMatched m r c code)) := by
  refine ⟨splitsAgree h, fun hraw hcompat hwidths c code hcode => ?_⟩
  have hmessage := messageCode_eq_join (m := m) h hwidths hcompat (List.mem_of_getElem? hcode)
  constructor
  · rw [hmessage, buttonWord, genIrCode_eq_join h fun hraw' => by rw [hraw] at hraw'; cases hraw']
  · intro hnext hmasks x state hfound
    obtain ⟨code', hcode', hmatch⟩ := getCode_matched hmasks.2.2 hfound
    obtain rfl := Option.some.inj (hcode.symm.trans hcode')
    rw [hmessage, receivedWord_of_match hmasks hnext hmatch, codeWord, Lirc.genIrCode, hraw]
    rfl

/-- A button with a sequence of two codes, the first of which has come. -/
def halfwayRemote : IrRemote :=
  { bits := 8, codes := [{ name := "seq".toList, code := 1, next := [2], current := [2] }] }

/-- A button with a bit beyond the width of its code. -/
def strayRemote : IrRemote := { bits := 8, codes := [{ name := "wide".toList, code := 0x1ff }] }

theorem words_agree_halfway : SplitsAgree wrappingShifter halfwayRemote ∧
    (isRaw halfwayRemote = false → halfwayRemote.has compatReverse = false →
      InWidths halfwayRemote → ∀ c code, halfwayRemote.codes[c]? = some code →
        wrappingShifter.messageCode halfwayRemote code =
            buttonWord wrappingShifter halfwayRemote code ∧
          (code.next = [] → MessageIsMatched wrappingShifter halfwayRemote c code)) :=
  words_agree wrappingShifter halfwayRemote (by decide)

theorem words_disagree :
    ¬WordsAgree wrappingShifter halfwayRemote ∧ ¬WordsAgree wrappingShifter strayRemote := by
  constructor
  · rintro ⟨-, h⟩
    obtain ⟨-, hmatched⟩ := h (by decide) (by decide) 0 _ rfl
    have hword := hmatched ⟨rfl, rfl, rfl⟩ ⟨0, 2, 0⟩ 0 (by decide)
    exact absurd hword (by decide)
  · rintro ⟨-, h⟩
    obtain ⟨hmessage, -⟩ := h (by decide) (by decide) 0 _ rfl
    exact absurd hmessage (by decide)

end Messages

end Lirc
