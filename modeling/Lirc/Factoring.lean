import Mathlib.Tactic.IntervalCases
import Lirc.Library.BitRuns
import Lirc.Splitting

/-!
`get_pre_data` and `get_post_data` of irrecord: the bits that all codes have in
common at one end are cut out and become the pre or the post data.
`remove_pre_data` and `remove_post_data` put them back. The first button is
compared by its first code only.
-/

namespace Lirc

open BitRuns

/-- Every code of a button is changed. -/
def mapCodes (f : IrCode → IrCode) (c : IrNcode) : IrNcode :=
  { c with code := f c.code, next := c.next.map f }

/-- The comparisons with one button. -/
def compareButton (s : IrCode × IrCode) (c : IrNcode) : IrCode × IrCode :=
  c.next.foldl compareStep (compareStep s c.code)

/-- The mask of the bits that neighbours share, and the last code. The nodes of
the first button are not visited. -/
def commonMask (first : IrNcode) (others : List IrNcode) : IrCode × IrCode :=
  others.foldl compareButton (BitVec.allOnes 64, first.code)

/-- Only "even" numbers go to pre and post data. -/
def evenCount (count bits : ℤ) : ℤ :=
  if count.tmod 8 ≠ 0 ∧ (bits - count).tmod 8 ≠ 0 then count - count.tmod 8 else count

/-- The language defines a shift by `n` of a code word. -/
def ShiftDefined (n : ℤ) : Prop := 0 ≤ n ∧ n < 64

instance (n : ℤ) : Decidable (ShiftDefined n) := inferInstanceAs (Decidable (0 ≤ n ∧ n < 64))

/-- `count` bits of pre data are cut out of the codes. -/
def cutPreData (r : ConfRemote) (count : ℤ) (last : IrCode) (codes : List IrNcode) : ConfRemote :=
  let bits := r.bits - count
  let mask := genMask count.toNat <<< bits.toNat
  { r with
    bits
    preDataBits := count
    preData := (last &&& mask) >>> bits.toNat
    codes := some (codes.map (mapCodes (· &&& ~~~mask))) }

/-- `get_pre_data`, where its shifts are defined. -/
def getPreData (r : ConfRemote) : Option ConfRemote :=
  if r.bits = 0 then some r
  else
    match r.codes with
    | none => none
    | some (first :: second :: others) =>
        let compared := commonMask first (second :: others)
        let count : ℤ := leadingOnes 64 compared.1
        let count := evenCount (count - (64 - r.bits)) r.bits
        if 0 < count then
          if ShiftDefined (r.bits - count) then
            some (cutPreData r count compared.2 (first :: second :: others))
          else none
        else some r
    | some _ => some r

/-- `count` bits of post data are cut out of the codes. -/
def cutPostData (r : ConfRemote) (count : ℤ) (last : IrCode) (codes : List IrNcode) : ConfRemote :=
  { r with
    bits := r.bits - count
    postDataBits := count
    postData := last &&& genMask count.toNat
    codes := some (codes.map (mapCodes (· >>> count.toNat))) }

/-- `get_post_data`, where its shifts are defined. -/
def getPostData (r : ConfRemote) : Option ConfRemote :=
  if r.bits = 0 then some r
  else
    match r.codes with
    | none => none
    | some (first :: second :: others) =>
        let compared := commonMask first (second :: others)
        let count := evenCount (trailingOnes 64 compared.1) r.bits
        if 0 < count then
          if ShiftDefined count then
            some (cutPostData r count compared.2 (first :: second :: others))
          else none
        else some r
    | some _ => some r

/-- `remove_pre_data`, where its shifts are defined. -/
def removePreData (r : ConfRemote) : Option ConfRemote :=
  if r.preDataBits = 0 ∨ r.preP ≠ 0 ∨ r.preS ≠ 0 then some r
  else
    match r.codes with
    | none => none
    | some codes =>
        if codes = [] ∨ ShiftDefined r.bits then
          some { r with
            codes := some (codes.map (mapCodes (· ||| r.preData <<< r.bits.toNat)))
            bits := r.bits + r.preDataBits
            preData := 0
            preDataBits := 0 }
        else none

/-- `remove_post_data`, where its shifts are defined. -/
def removePostData (r : ConfRemote) : Option ConfRemote :=
  if r.postDataBits = 0 then some r
  else
    match r.codes with
    | none => none
    | some codes =>
        if codes = [] ∨ ShiftDefined r.postDataBits then
          some { r with
            codes := some (codes.map (mapCodes (· <<< r.postDataBits.toNat ||| r.postData)))
            bits := r.bits + r.postDataBits
            postData := 0
            postDataBits := 0 }
        else none

/-! ### What is asked of them -/

/-- Pre data, a code and post data in their widths. -/
def wholeCode (r : ConfRemote) (code : IrCode) : IrCode :=
  (Widths.mk r.preDataBits.toNat r.bits.toNat r.postDataBits.toNat).join
    ⟨r.preData, code, r.postData⟩

/-- Factoring keeps every code, and each of its halves can be undone. -/
structure Factored (r : ConfRemote) : Prop where
  kept : ∃ r', (getPreData r).bind getPostData = some r' ∧ r'.bitCount = r.bitCount ∧
    r'.codes.map (List.map (mapCodes (wholeCode r'))) = r.codes
  preRestored : (getPreData r).bind removePreData = some r
  postRestored : (getPostData r).bind removePostData = some r

/-- A remote with at least two buttons, whose codes fit its bits. -/
structure HasCodes (r : ConfRemote) (first second : IrNcode) (others : List IrNcode) : Prop where
  codes : r.codes = some (first :: second :: others)
  bits_pos : 1 ≤ r.bits
  bits_le : r.bits ≤ 64
  within : ∀ c ∈ first :: second :: others, ∀ x ∈ c.elements, x &&& genMask r.bits.toNat = x

/-- The codes that are compared. -/
def comparedCodes (first : IrNcode) (rest : List IrNcode) : List IrCode :=
  first.code :: rest.flatMap IrNcode.elements

/-- How many upper bits the words share, down from bit `bits`. -/
def sharedTop (words : List IrCode) (bits : ℕ) : ℕ :=
  runLength (fun i => decide (Shared words (bits - 1 - i))) bits

/-- How many lower bits the words share. -/
def sharedLow (words : List IrCode) (bits : ℕ) : ℕ :=
  runLength (fun i => decide (Shared words i)) bits

/-- Nothing that is not compared is lost: the codes that are compared differ, the
further codes of the first button share the bits that are cut out, and the
remote has no lengths or values for the data that will be put in. -/
structure CutsCommonBits (r : ConfRemote) (first : IrNcode) (rest : List IrNcode)
    (top low : ℤ) : Prop where
  differ : ∃ x ∈ comparedCodes first rest, x ≠ first.code
  noPre : 0 < top → r.preP = 0 ∧ r.preS = 0 ∧ r.preData = 0
  noPost : 0 < low → r.postData = 0
  firstNodes : ∀ x ∈ first.next, ∀ i : ℕ, i < r.bits → (r.bits - top ≤ i ∨ i < low) →
    x.getLsbD i = first.code.getLsbD i

/-! ### Comparing -/

section Comparing

variable {r : ConfRemote} {first second : IrNcode} {others rest : List IrNcode} {i b : ℕ}
variable {words : List IrCode}

theorem commonMask_eq (first : IrNcode) (rest : List IrNcode) : commonMask first rest =
    (rest.flatMap IrNcode.elements).foldl compareStep (BitVec.allOnes 64, first.code) := by
  rw [commonMask, List.foldl_flatMap]
  rfl

theorem commonMask_getLsbD (hi : i < 64) : (commonMask first rest).1.getLsbD i =
    decide (Shared (comparedCodes first rest) i) := by
  rw [commonMask_eq]
  exact mask_getLsbD _ _ hi

theorem last_mem : (commonMask first rest).2 ∈ comparedCodes first rest := by
  rw [commonMask_eq]
  exact foldl_compareStep_snd_mem _ _ _

theorem forall_elements_iff {P : IrCode → Prop} :
    (∀ c ∈ first :: rest, ∀ x ∈ c.elements, P x) ↔
      (∀ x ∈ comparedCodes first rest, P x) ∧ ∀ x ∈ first.next, P x := by
  rw [List.forall_mem_cons, IrNcode.elements, List.forall_mem_cons, comparedCodes,
    List.forall_mem_cons]
  simp only [List.mem_flatMap]
  constructor
  · rintro ⟨⟨hcode, hnext⟩, hrest⟩
    refine ⟨⟨hcode, ?_⟩, hnext⟩
    rintro x ⟨c, hc, hx⟩
    exact hrest c hc x hx
  · rintro ⟨⟨hcode, hrest⟩, hnext⟩
    exact ⟨⟨hcode, hnext⟩, fun c hc x hx => hrest x ⟨c, hc, hx⟩⟩

/-- The words fit `b` bits. -/
def Within (b : ℕ) (words : List IrCode) : Prop := ∀ x ∈ words, x &&& genMask b = x

theorem Within.getLsbD_false (h : Within b words) {x : IrCode} (hx : x ∈ words) (hi : b ≤ i) :
    x.getLsbD i = false := by
  by_cases hi64 : i < 64
  · rw [← h x hx, and_genMask_getLsbD x hi64, decide_eq_false (Nat.not_lt.mpr hi), Bool.and_false]
  · exact BitVec.getLsbD_of_ge x i (Nat.not_lt.mp hi64)

theorem Within.shared (h : Within b words) (hi : b ≤ i) : Shared words i := by
  intro c hc d hd
  rw [h.getLsbD_false hc hi, h.getLsbD_false hd hi]

/-- Words that differ do so in one of their bits. -/
theorem Within.exists_not_shared (h : Within b words) {x y : IrCode} (hx : x ∈ words)
    (hy : y ∈ words) (hne : x ≠ y) : ∃ i < b, ¬Shared words i := by
  by_contra hnone
  push Not at hnone
  refine hne (BitVec.eq_of_getLsbD_eq fun i _ => ?_)
  by_cases hi : i < b
  · exact hnone i hi x hx y hy
  · exact h.shared (Nat.not_lt.mp hi) x hx y hy

theorem shared_of_lt_sharedLow (h : i < sharedLow words b) : Shared words i :=
  of_decide_eq_true (runLength_true h)

theorem not_shared_sharedLow (h : sharedLow words b < b) : ¬Shared words (sharedLow words b) :=
  of_decide_eq_false (runLength_false h)

theorem shared_of_lt_sharedTop (hi : i < b) (h : b - 1 - i < sharedTop words b) :
    Shared words i := by
  have hshared := of_decide_eq_true (runLength_true h)
  rwa [show b - 1 - (b - 1 - i) = i by omega] at hshared

theorem not_shared_sharedTop (h : sharedTop words b < b) :
    ¬Shared words (b - 1 - sharedTop words b) := of_decide_eq_false (runLength_false h)

/-- A bit that is not shared lies below the shared top and above the shared low bits. -/
theorem shared_bounds (hi : i < b) (hnot : ¬Shared words i) :
    sharedLow words b ≤ i ∧ i + sharedTop words b < b := by
  have hlow : sharedLow words b ≤ i := Nat.not_lt.mp fun h => hnot (shared_of_lt_sharedLow h)
  have htop : sharedTop words b ≤ b - 1 - i :=
    Nat.not_lt.mp fun h => hnot (shared_of_lt_sharedTop hi h)
  omega

theorem trailingOnes_shared (hb : b ≤ 64) (hlt : sharedLow (comparedCodes first rest) b < b) :
    trailingOnes 64 (commonMask first rest).1 = sharedLow (comparedCodes first rest) b := by
  rw [trailingOnes_eq]
  refine runLength_eq (by omega) (fun i hi => ?_) ?_
  · rw [commonMask_getLsbD (by omega)]
    exact decide_eq_true (shared_of_lt_sharedLow hi)
  · rw [commonMask_getLsbD (by omega)]
    exact decide_eq_false (not_shared_sharedLow hlt)

theorem trailingOnes_equal (h : ∀ i < 64, Shared (comparedCodes first rest) i) :
    trailingOnes 64 (commonMask first rest).1 = 64 := by
  rw [trailingOnes_eq]
  refine runLength_all fun i hi => ?_
  rw [commonMask_getLsbD hi]
  exact decide_eq_true (h i hi)

theorem leadingOnes_shared (hb : b ≤ 64) (hwithin : Within b (comparedCodes first rest))
    (hlt : sharedTop (comparedCodes first rest) b < b) :
    leadingOnes 64 (commonMask first rest).1 =
      64 - b + sharedTop (comparedCodes first rest) b := by
  rw [leadingOnes_eq]
  have hbit (j : ℕ) (hj : j < 64) : (commonMask first rest).1.getMsbD j =
      decide (Shared (comparedCodes first rest) (63 - j)) := by
    rw [BitVec.getMsbD, decide_eq_true hj, Bool.true_and]
    exact commonMask_getLsbD (by omega)
  refine runLength_eq (by omega) (fun j hj => ?_) ?_
  · rw [hbit j (by omega)]
    by_cases hhigh : j < 64 - b
    · exact decide_eq_true (hwithin.shared (by omega))
    · exact decide_eq_true (shared_of_lt_sharedTop (b := b) (by omega) (by omega))
  · rw [hbit _ (by omega), show 63 - (64 - b + sharedTop (comparedCodes first rest) b) =
      b - 1 - sharedTop (comparedCodes first rest) b by omega]
    exact decide_eq_false (not_shared_sharedTop hlt)

end Comparing

/-! ### Counting -/

section Counting

variable {count bits top : ℤ}

theorem evenCount_eq (h : 0 ≤ count) (hle : count ≤ bits) : evenCount count bits =
    if count % 8 ≠ 0 ∧ (bits - count) % 8 ≠ 0 then count - count % 8 else count := by
  rw [evenCount, Int.tmod_eq_emod_of_nonneg h, Int.tmod_eq_emod_of_nonneg (by omega)]

theorem evenCount_bounds (h : 0 ≤ count) (hle : count ≤ bits) :
    0 ≤ evenCount count bits ∧ evenCount count bits ≤ count := by
  rw [evenCount_eq h hle]
  split <;> omega

/-- After pre data has been cut out, no more post data is cut out than before. -/
theorem evenCount_after_top (htop : 0 ≤ top) (h : 0 ≤ count) (hle : top + count ≤ bits) :
    evenCount count (bits - evenCount top bits) ≤ evenCount count bits := by
  have hbounds := evenCount_bounds htop (show top ≤ bits by omega)
  rw [evenCount_eq h (by omega), evenCount_eq h (by omega), evenCount_eq htop (by omega)] at *
  split <;> split <;> split <;> omega

end Counting

/-! ### Changing the codes -/

section Changing

variable {f g : IrCode → IrCode} {codes : List IrNcode}

theorem mapCodes_mapCodes (f g : IrCode → IrCode) (codes : List IrNcode) :
    (codes.map (mapCodes g)).map (mapCodes f) = codes.map (mapCodes (f ∘ g)) := by
  rw [List.map_map]
  refine List.map_congr_left fun c _ => ?_
  simp only [Function.comp_apply, mapCodes, List.map_map]

theorem map_eq_self_iff {l : List IrCode} : l.map f = l ↔ ∀ x ∈ l, f x = x := by
  conv_lhs => rhs; rw [← List.map_id l]
  exact List.map_inj_left

/-- All buttons are as before exactly when all their codes are. -/
theorem map_mapCodes_eq_self_iff :
    codes.map (mapCodes f) = codes ↔ ∀ c ∈ codes, ∀ x ∈ c.elements, f x = x := by
  have hone (c : IrNcode) : mapCodes f c = c ↔ ∀ x ∈ c.elements, f x = x := by
    rw [IrNcode.elements, List.forall_mem_cons, ← map_eq_self_iff]
    constructor
    · intro h
      exact ⟨congrArg IrNcode.code h, congrArg IrNcode.next h⟩
    · rintro ⟨hcode, hnext⟩
      rw [mapCodes, hcode, hnext]
  conv_lhs => rhs; rw [← List.map_id codes]
  rw [List.map_inj_left]
  exact forall₂_congr fun c _ => hone c

theorem elements_mapCodes (f : IrCode → IrCode) (c : IrNcode) :
    (mapCodes f c).elements = c.elements.map f := rfl

end Changing

/-! ### The bits that are cut out -/

section Bits

variable {n b i : ℕ} {x last : IrCode}

/-- The mask of pre data. -/
theorem preMask_getLsbD (hi : i < 64) :
    (genMask n <<< b).getLsbD i = decide (b ≤ i ∧ i < b + n) := by
  rw [BitVec.getLsbD_shiftLeft, decide_eq_true hi, Bool.true_and]
  by_cases hb : b ≤ i
  · have hsub : i - b < n ↔ i < b + n := by omega
    rw [genMask_getLsbD (by omega)]
    simp [hb, hsub]
  · simp [hb]

theorem cutPre_getLsbD (hi : i < 64) : (x &&& ~~~(genMask n <<< b)).getLsbD i =
    (x.getLsbD i && !decide (b ≤ i ∧ i < b + n)) := by
  rw [BitVec.getLsbD_and, BitVec.getLsbD_not, preMask_getLsbD hi, decide_eq_true hi, Bool.true_and]

/-- Pre data that is put back. -/
theorem restorePre_getLsbD (hi : i < 64) :
    ((last &&& genMask n <<< b) >>> b <<< b).getLsbD i =
      (last.getLsbD i && decide (b ≤ i ∧ i < b + n)) := by
  rw [BitVec.getLsbD_shiftLeft, BitVec.getLsbD_ushiftRight, decide_eq_true hi, Bool.true_and]
  by_cases hb : b ≤ i
  · rw [Nat.add_sub_cancel' hb, BitVec.getLsbD_and, preMask_getLsbD hi]
    simp [hb]
  · simp [hb]

/-- A code is restored exactly when it shares the bits that were cut out. -/
theorem restorePre_iff :
    x &&& ~~~(genMask n <<< b) ||| (last &&& genMask n <<< b) >>> b <<< b = x ↔
      ∀ i < 64, b ≤ i → i < b + n → x.getLsbD i = last.getLsbD i := by
  constructor
  · intro h i hi hlow hhigh
    have hbit := congrArg (fun c : IrCode => c.getLsbD i) h
    simp only [BitVec.getLsbD_or, cutPre_getLsbD hi, restorePre_getLsbD hi,
      decide_eq_true (And.intro hlow hhigh), Bool.not_true, Bool.and_false, Bool.and_true,
      Bool.false_or] at hbit
    exact hbit.symm
  · intro h
    apply BitVec.eq_of_getLsbD_eq
    intro i hi
    rw [BitVec.getLsbD_or, cutPre_getLsbD hi, restorePre_getLsbD hi]
    by_cases hcut : b ≤ i ∧ i < b + n
    · simp [hcut, h i hi hcut.1 hcut.2]
    · simp [hcut]

theorem restorePost_iff :
    x >>> n <<< n ||| (last &&& genMask n) = x ↔
      ∀ i < 64, i < n → x.getLsbD i = last.getLsbD i := by
  have hrestore (i : ℕ) (hi : i < 64) : (x >>> n <<< n ||| (last &&& genMask n)).getLsbD i =
      if i < n then last.getLsbD i else x.getLsbD i := by
    rw [BitVec.getLsbD_or, BitVec.getLsbD_shiftLeft, BitVec.getLsbD_ushiftRight,
      and_genMask_getLsbD _ hi]
    split
    · next hlow => simp [hlow]
    · next hlow => simp [hlow, hi, Nat.add_sub_cancel' (Nat.not_lt.mp hlow)]
  constructor
  · intro h i hi hlow
    have hbit := hrestore i hi
    rw [h, if_pos hlow] at hbit
    exact hbit
  · intro h
    apply BitVec.eq_of_getLsbD_eq
    intro i hi
    rw [hrestore i hi]
    split
    · next hlow => exact (h i hi hlow).symm
    · rfl

end Bits

/-! ### Cutting and restoring -/

section Restoring

variable {r : ConfRemote} {first second : IrNcode} {others : List IrNcode}

/-- The number of bits of pre data. -/
def topBits (first : IrNcode) (rest : List IrNcode) (bits : ℤ) : ℤ :=
  evenCount (sharedTop (comparedCodes first rest) bits.toNat) bits

/-- The number of bits of post data. -/
def lowBits (first : IrNcode) (rest : List IrNcode) (bits : ℤ) : ℤ :=
  evenCount (sharedLow (comparedCodes first rest) bits.toNat) bits

theorem HasCodes.within_compared (h : HasCodes r first second others) :
    Within r.bits.toNat (comparedCodes first (second :: others)) :=
  (forall_elements_iff.mp h.within).1

/-- The compared codes differ in a bit. -/
def Differ (r : ConfRemote) (first : IrNcode) (rest : List IrNcode) : Prop :=
  ∃ i < r.bits.toNat, ¬Shared (comparedCodes first rest) i

theorem Differ.bounds {rest : List IrNcode} (hdiffer : Differ r first rest) :
    sharedTop (comparedCodes first rest) r.bits.toNat +
      sharedLow (comparedCodes first rest) r.bits.toNat < r.bits.toNat := by
  obtain ⟨i, hi, hnot⟩ := hdiffer
  have hbounds := shared_bounds hi hnot
  omega

theorem Differ.topBits_bounds {rest : List IrNcode} (hdiffer : Differ r first rest) :
    0 ≤ topBits first rest r.bits ∧
      topBits first rest r.bits ≤ sharedTop (comparedCodes first rest) r.bits.toNat := by
  have hbounds := hdiffer.bounds
  exact evenCount_bounds (by omega) (by omega)

theorem Differ.lowBits_bounds {rest : List IrNcode} (hdiffer : Differ r first rest) :
    0 ≤ lowBits first rest r.bits ∧
      lowBits first rest r.bits ≤ sharedLow (comparedCodes first rest) r.bits.toNat := by
  have hbounds := hdiffer.bounds
  exact evenCount_bounds (by omega) (by omega)

theorem getPreData_eq (h : HasCodes r first second others)
    (hdiffer : Differ r first (second :: others)) : getPreData r =
      some (if 0 < topBits first (second :: others) r.bits then
        cutPreData r (topBits first (second :: others) r.bits)
          (commonMask first (second :: others)).2 (first :: second :: others)
      else r) := by
  have hpos := h.bits_pos
  have hle := h.bits_le
  have hbounds := hdiffer.bounds
  have htop := hdiffer.topBits_bounds
  have hones := leadingOnes_shared (by omega) h.within_compared
    (show sharedTop (comparedCodes first (second :: others)) r.bits.toNat < r.bits.toNat by omega)
  have hcount : ((leadingOnes 64 (commonMask first (second :: others)).1 : ℕ) : ℤ) -
      (64 - r.bits) = sharedTop (comparedCodes first (second :: others)) r.bits.toNat := by
    omega
  rw [getPreData, if_neg (by omega), h.codes]
  simp only [hcount]
  rw [← topBits]
  split
  · next hcut => rw [if_pos ⟨by omega, by omega⟩]
  · rfl

theorem getPostData_eq (h : HasCodes r first second others)
    (hdiffer : Differ r first (second :: others)) : getPostData r =
      some (if 0 < lowBits first (second :: others) r.bits then
        cutPostData r (lowBits first (second :: others) r.bits)
          (commonMask first (second :: others)).2 (first :: second :: others)
      else r) := by
  have hpos := h.bits_pos
  have hle := h.bits_le
  have hbounds := hdiffer.bounds
  have hlow := hdiffer.lowBits_bounds
  have hones := trailingOnes_shared (by omega)
    (show sharedLow (comparedCodes first (second :: others)) r.bits.toNat < r.bits.toNat by omega)
  rw [getPostData, if_neg (by omega), h.codes]
  simp only [hones]
  rw [← lowBits]
  split
  · next hcut => rw [if_pos ⟨by omega, by omega⟩]
  · rfl

/-- Where the compared codes are all the same, a code is shifted by its whole size. -/
theorem getPostData_equal (h : HasCodes r first second others)
    (hsame : ∀ i < 64, Shared (comparedCodes first (second :: others)) i) :
    getPostData r = none := by
  have hpos := h.bits_pos
  have hcount : evenCount ((64 : ℕ) : ℤ) r.bits = 64 := by
    rw [evenCount, if_neg fun hodd => hodd.1 (by decide)]
    rfl
  rw [getPostData, if_neg (by omega), h.codes]
  simp only [trailingOnes_equal hsame, hcount]
  rw [if_pos (by decide), if_neg (by decide)]

theorem shared_last {i : ℕ} {rest : List IrNcode} (hshared : Shared (comparedCodes first rest) i) :
    ∀ x ∈ comparedCodes first rest, x.getLsbD i = (commonMask first rest).2.getLsbD i :=
  fun x hx => hshared x hx _ last_mem

theorem shared_of_topBits (hdiffer : Differ r first (second :: others)) {i : ℕ}
    (hlow : r.bits - topBits first (second :: others) r.bits ≤ i) (hi : i < r.bits) :
    Shared (comparedCodes first (second :: others)) i := by
  have htop := hdiffer.topBits_bounds
  exact shared_of_lt_sharedTop (b := r.bits.toNat) (by omega) (by omega)

theorem shared_of_lowBits (hdiffer : Differ r first (second :: others)) {i : ℕ}
    (hi : i < lowBits first (second :: others) r.bits) :
    Shared (comparedCodes first (second :: others)) i := by
  have hlow := hdiffer.lowBits_bounds
  exact shared_of_lt_sharedLow (b := r.bits.toNat) (by omega)

theorem removePreData_cutPreData {n : ℤ} {last : IrCode} {codes : List IrNcode} (hn : 0 < n)
    (hshift : ShiftDefined (r.bits - n)) (hp : r.preP = 0) (hs : r.preS = 0) :
    removePreData (cutPreData r n last codes) = some { r with
      codes := some (codes.map (mapCodes fun x =>
        x &&& ~~~(genMask n.toNat <<< (r.bits - n).toNat) |||
          (last &&& genMask n.toNat <<< (r.bits - n).toNat) >>> (r.bits - n).toNat <<<
            (r.bits - n).toNat))
      preData := 0
      preDataBits := 0 } := by
  have hskip : ¬((cutPreData r n last codes).preDataBits = 0 ∨
      (cutPreData r n last codes).preP ≠ 0 ∨ (cutPreData r n last codes).preS ≠ 0) := by
    simp only [cutPreData, hp, hs]
    omega
  rw [removePreData, if_neg hskip]
  refine (if_pos (Or.inr hshift)).trans ?_
  simp only [cutPreData]
  rw [mapCodes_mapCodes, sub_add_cancel]
  rfl

/-- `remove_pre_data` restores what `get_pre_data` has cut out exactly when the
remote had no lengths and no value of pre data, and the nodes that are not
compared share the bits. -/
theorem preRestored_iff (h : HasCodes r first second others) (hpre : r.preDataBits = 0)
    (hdiffer : Differ r first (second :: others)) :
    (getPreData r).bind removePreData = some r ↔
      (0 < topBits first (second :: others) r.bits →
        (r.preP = 0 ∧ r.preS = 0 ∧ r.preData = 0) ∧ ∀ x ∈ first.next, ∀ i : ℕ, i < r.bits →
          r.bits - topBits first (second :: others) r.bits ≤ i →
            x.getLsbD i = first.code.getLsbD i) := by
  have htop := hdiffer.topBits_bounds
  have hbounds := hdiffer.bounds
  have hle := h.bits_le
  rw [getPreData_eq h hdiffer, Option.bind_some]
  generalize hn : topBits first (second :: others) r.bits = n at *
  by_cases hcut : 0 < n
  · rw [if_pos hcut]
    have hbits : r.bits.toNat = r.bits := Int.toNat_of_nonneg (by omega)
    have hfirst (i : ℕ) (hi : i < r.bits) (hlow : r.bits - n ≤ i) :
        first.code.getLsbD i = (commonMask first (second :: others)).2.getLsbD i :=
      shared_last (shared_of_topBits hdiffer (by rwa [hn]) hi) _ List.mem_cons_self
    constructor
    · intro hrestored _
      have hlengths : r.preP = 0 ∧ r.preS = 0 := by
        by_contra hne
        rw [removePreData, if_pos (by simp only [cutPreData]; omega)] at hrestored
        have heq := congrArg ConfRemote.bits (Option.some.inj hrestored)
        simp only [cutPreData] at heq
        omega
      rw [removePreData_cutPreData hcut ⟨by omega, by omega⟩ hlengths.1 hlengths.2] at hrestored
      have heq := Option.some.inj hrestored
      have hdata := congrArg ConfRemote.preData heq
      have hcodes := congrArg ConfRemote.codes heq
      rw [h.codes] at hcodes
      have hall := (forall_elements_iff.mp (map_mapCodes_eq_self_iff.mp (Option.some.inj hcodes))).2
      refine ⟨⟨hlengths.1, hlengths.2, hdata.symm⟩, fun x hx i hi hlow => ?_⟩
      rw [hfirst i hi hlow]
      exact restorePre_iff.mp (hall x hx) i (by omega) (by omega) (by omega)
    · intro hcond
      obtain ⟨⟨hp, hs, hdata⟩, hnodes⟩ := hcond hcut
      rw [removePreData_cutPreData hcut ⟨by omega, by omega⟩ hp hs]
      have hall : ∀ c ∈ first :: second :: others, ∀ x ∈ c.elements, ∀ i < 64,
          (r.bits - n).toNat ≤ i → i < (r.bits - n).toNat + n.toNat →
            x.getLsbD i = (commonMask first (second :: others)).2.getLsbD i := by
        rw [forall_elements_iff]
        constructor
        · intro x hx i _ hlow hhigh
          exact shared_last (shared_of_topBits hdiffer (by rw [hn]; omega) (by omega)) x hx
        · intro x hx i _ hlow hhigh
          rw [← hfirst i (by omega) (by omega)]
          exact hnodes x hx i (by omega) (by omega)
      rw [map_mapCodes_eq_self_iff.mpr fun c hc x hx => restorePre_iff.mpr (hall c hc x hx),
        ← h.codes, ← hdata, ← hpre]
  · rw [if_neg hcut, removePreData, if_pos (Or.inl hpre)]
    exact ⟨fun _ hpos => absurd hpos hcut, fun _ => rfl⟩

theorem removePostData_cutPostData {n : ℤ} {last : IrCode} {codes : List IrNcode} (hn : 0 < n)
    (hshift : ShiftDefined n) : removePostData (cutPostData r n last codes) = some { r with
      codes := some (codes.map (mapCodes fun x =>
        x >>> n.toNat <<< n.toNat ||| (last &&& genMask n.toNat)))
      postData := 0
      postDataBits := 0 } := by
  rw [removePostData, if_neg (show (cutPostData r n last codes).postDataBits ≠ 0 from hn.ne')]
  refine (if_pos (Or.inr hshift)).trans ?_
  simp only [cutPostData]
  rw [mapCodes_mapCodes, sub_add_cancel]
  rfl

/-- `remove_post_data` restores what `get_post_data` has cut out exactly when the
remote had no value of post data, and the nodes that are not compared share the
bits. -/
theorem postRestored_iff (h : HasCodes r first second others) (hpost : r.postDataBits = 0)
    (hdiffer : Differ r first (second :: others)) :
    (getPostData r).bind removePostData = some r ↔
      (0 < lowBits first (second :: others) r.bits →
        r.postData = 0 ∧ ∀ x ∈ first.next, ∀ i : ℕ,
          i < lowBits first (second :: others) r.bits → x.getLsbD i = first.code.getLsbD i) := by
  have hlow := hdiffer.lowBits_bounds
  have hbounds := hdiffer.bounds
  have hle := h.bits_le
  rw [getPostData_eq h hdiffer, Option.bind_some]
  generalize hn : lowBits first (second :: others) r.bits = n at *
  by_cases hcut : 0 < n
  · rw [if_pos hcut, removePostData_cutPostData hcut ⟨by omega, by omega⟩]
    have hfirst (i : ℕ) (hi : i < n) :
        first.code.getLsbD i = (commonMask first (second :: others)).2.getLsbD i :=
      shared_last (shared_of_lowBits hdiffer (by rwa [hn])) _ List.mem_cons_self
    constructor
    · intro hrestored _
      have heq := Option.some.inj hrestored
      have hdata := congrArg ConfRemote.postData heq
      have hcodes := congrArg ConfRemote.codes heq
      rw [h.codes] at hcodes
      have hall := (forall_elements_iff.mp (map_mapCodes_eq_self_iff.mp (Option.some.inj hcodes))).2
      refine ⟨hdata.symm, fun x hx i hi => ?_⟩
      rw [hfirst i hi]
      exact restorePost_iff.mp (hall x hx) i (by omega) (by omega)
    · intro hcond
      obtain ⟨hdata, hnodes⟩ := hcond hcut
      have hall : ∀ c ∈ first :: second :: others, ∀ x ∈ c.elements, ∀ i < 64, i < n.toNat →
          x.getLsbD i = (commonMask first (second :: others)).2.getLsbD i := by
        rw [forall_elements_iff]
        constructor
        · intro x hx i _ hi
          exact shared_last (shared_of_lowBits hdiffer (by rw [hn]; omega)) x hx
        · intro x hx i _ hi
          rw [← hfirst i (by omega)]
          exact hnodes x hx i (by omega)
      rw [map_mapCodes_eq_self_iff.mpr fun c hc x hx => restorePost_iff.mpr (hall c hc x hx),
        ← h.codes, ← hdata, ← hpost]
  · rw [if_neg hcut, removePostData, if_pos hpost]
    exact ⟨fun _ hpos => absurd hpos hcut, fun _ => rfl⟩

end Restoring

/-! ### Factoring keeps the codes -/

section Keeping

variable {r r₁ : ConfRemote} {first second : IrNcode} {others : List IrNcode}

/-- What `get_pre_data` leaves of a remote. -/
structure PreCut (r r₁ : ConfRemote) (n : ℤ) (last : IrCode) (codes : List IrNcode) : Prop where
  bits : r₁.bits = r.bits - n
  preDataBits : r₁.preDataBits = n
  postDataBits : r₁.postDataBits = r.postDataBits
  codes : ∃ f : IrCode → IrCode, r₁.codes = some (codes.map (mapCodes f)) ∧
    ∀ c ∈ codes, ∀ x ∈ c.elements, ∀ i < 64,
      (f x).getLsbD i = (x.getLsbD i && decide (i < r.bits - n))
  preData : ∀ i : ℕ, i < n → r₁.preData.getLsbD i = last.getLsbD ((r.bits - n).toNat + i)

theorem getPreData_cut (h : HasCodes r first second others) (hpre : r.preDataBits = 0)
    (hdiffer : Differ r first (second :: others)) :
    ∃ r₁, getPreData r = some r₁ ∧ PreCut r r₁ (topBits first (second :: others) r.bits)
      (commonMask first (second :: others)).2 (first :: second :: others) := by
  have htop := hdiffer.topBits_bounds
  have hbounds := hdiffer.bounds
  have hle := h.bits_le
  refine ⟨_, getPreData_eq h hdiffer, ?_⟩
  generalize topBits first (second :: others) r.bits = n at *
  have hwithin (c : IrNcode) (hc : c ∈ first :: second :: others) (x : IrCode)
      (hx : x ∈ c.elements) : Within r.bits.toNat [x] :=
    List.forall_mem_singleton.mpr (h.within c hc x hx)
  split
  · next hcut =>
      refine ⟨rfl, rfl, rfl, ⟨_, rfl, fun c hc x hx i hi => ?_⟩, fun i hi => ?_⟩
      · rw [cutPre_getLsbD hi]
        by_cases hhigh : i < r.bits
        · have hiff : ((r.bits - n).toNat ≤ i ∧ i < (r.bits - n).toNat + n.toNat) ↔
              ¬(i : ℤ) < r.bits - n := by omega
          rw [decide_eq_decide.mpr hiff, decide_not, Bool.not_not]
        · rw [(hwithin c hc x hx).getLsbD_false (List.mem_singleton_self x) (by omega),
            Bool.false_and, Bool.false_and]
      · simp only [cutPreData]
        rw [BitVec.getLsbD_ushiftRight, BitVec.getLsbD_and, preMask_getLsbD (by omega),
          decide_eq_true (by omega), Bool.and_true]
  · next hcut =>
      have hn : n = 0 := by omega
      subst hn
      refine ⟨(sub_zero _).symm, hpre, rfl, ⟨id, ?_, fun c hc x hx i hi => ?_⟩, fun i hi => ?_⟩
      · rw [h.codes]
        exact congrArg some (map_mapCodes_eq_self_iff.mpr fun _ _ _ _ => rfl).symm
      · by_cases hhigh : i < r.bits
        · rw [decide_eq_true (by omega), Bool.and_true]
          rfl
        · rw [id, (hwithin c hc x hx).getLsbD_false (List.mem_singleton_self x) (by omega),
            Bool.false_and]
      · omega

/-- What `get_post_data` leaves of a remote. -/
structure PostCut (r r₁ : ConfRemote) (n : ℤ) (last : IrCode) (codes : List IrNcode) : Prop where
  bits : r₁.bits = r.bits - n
  preDataBits : r₁.preDataBits = r.preDataBits
  preData : r₁.preData = r.preData
  postDataBits : r₁.postDataBits = n
  codes : ∃ f : IrCode → IrCode, r₁.codes = some (codes.map (mapCodes f)) ∧
    ∀ x i, (f x).getLsbD i = x.getLsbD (n.toNat + i)
  postData : ∀ i : ℕ, i < n → r₁.postData.getLsbD i = last.getLsbD i

theorem getPostData_cut (h : HasCodes r first second others) (hpost : r.postDataBits = 0)
    (hdiffer : Differ r first (second :: others)) :
    ∃ r₁, getPostData r = some r₁ ∧ PostCut r r₁ (lowBits first (second :: others) r.bits)
      (commonMask first (second :: others)).2 (first :: second :: others) := by
  have hlow := hdiffer.lowBits_bounds
  have hbounds := hdiffer.bounds
  have hle := h.bits_le
  refine ⟨_, getPostData_eq h hdiffer, ?_⟩
  generalize lowBits first (second :: others) r.bits = n at *
  split
  · next hcut =>
      refine ⟨rfl, rfl, rfl, rfl, ⟨_, rfl, fun x i => ?_⟩, fun i hi => ?_⟩
      · rw [BitVec.getLsbD_ushiftRight]
      · simp only [cutPostData]
        rw [and_genMask_getLsbD _ (by omega), decide_eq_true (by omega), Bool.and_true]
  · next hcut =>
      have hn : n = 0 := by omega
      subst hn
      refine ⟨(sub_zero _).symm, rfl, rfl, hpost, ⟨id, ?_, fun x i => ?_⟩, fun i hi => ?_⟩
      · rw [h.codes]
        exact congrArg some (map_mapCodes_eq_self_iff.mpr fun _ _ _ _ => rfl).symm
      · rw [id, Int.toNat_zero, Nat.zero_add]
      · omega

theorem comparedCodes_mapCodes (f : IrCode → IrCode) (first : IrNcode) (rest : List IrNcode) :
    comparedCodes (mapCodes f first) (rest.map (mapCodes f)) =
      (comparedCodes first rest).map f := by
  simp only [comparedCodes, List.map_cons, List.map_flatMap, List.flatMap_map, elements_mapCodes]
  rfl

/-- Between the two cuts the lower bits are as they were. -/
theorem shared_map_iff {f : IrCode → IrCode} {words : List IrCode} {i : ℕ}
    (hf : ∀ x ∈ words, (f x).getLsbD i = x.getLsbD i) :
    Shared (words.map f) i ↔ Shared words i := by
  simp only [Shared, List.forall_mem_map]
  refine forall₂_congr fun x hx => forall₂_congr fun y hy => ?_
  rw [hf x hx, hf y hy]

theorem sharedLow_eq {words words' : List IrCode} {b b' : ℕ} (hb : b' ≤ b)
    (hlt : sharedLow words b < b') (hshared : ∀ i < b', Shared words' i ↔ Shared words i) :
    sharedLow words' b' = sharedLow words b := by
  rw [sharedLow]
  refine runLength_eq hlt (fun i hi => ?_) ?_
  · exact decide_eq_true ((hshared i (by omega)).mpr (shared_of_lt_sharedLow hi))
  · exact decide_eq_false (mt (hshared _ hlt).mp (not_shared_sharedLow (by omega)))

theorem PreCut.hasCodes {n : ℤ} {last : IrCode} {f : IrCode → IrCode}
    (h : HasCodes r first second others)
    (hcut : PreCut r r₁ n last (first :: second :: others)) (hn : 0 ≤ n) (hlt : n < r.bits)
    (hcodes : r₁.codes = some ((first :: second :: others).map (mapCodes f)))
    (hf : ∀ c ∈ first :: second :: others, ∀ x ∈ c.elements, ∀ i < 64,
      (f x).getLsbD i = (x.getLsbD i && decide (i < r.bits - n))) :
    HasCodes r₁ (mapCodes f first) (mapCodes f second) (others.map (mapCodes f)) := by
  have hbits := hcut.bits
  have hle := h.bits_le
  refine ⟨hcodes, by omega, by omega, ?_⟩
  intro c hc x hx
  obtain ⟨d, hd, rfl⟩ := List.mem_map.mp
    (show c ∈ (first :: second :: others).map (mapCodes f) from hc)
  rw [elements_mapCodes] at hx
  obtain ⟨y, hy, rfl⟩ := List.mem_map.mp hx
  apply BitVec.eq_of_getLsbD_eq
  intro i hi
  rw [and_genMask_getLsbD _ hi, hf d hd y hy i hi, Bool.and_assoc]
  by_cases hlow : (i : ℤ) < r.bits - n
  · rw [decide_eq_true hlow, decide_eq_true (by omega), Bool.and_self]
  · rw [decide_eq_false hlow, Bool.false_and]

/-- A code whose cut bits are those of the pre and the post data is whole again. -/
theorem wholeCode_eq {r' : ConfRemote} {n m : ℤ} {last last₁ x y : IrCode}
    {codes codes₁ : List IrNcode} (hpre : PreCut r r₁ n last codes)
    (hpost : PostCut r₁ r' m last₁ codes₁) (hn : 0 ≤ n) (hm : 0 ≤ m) (hle : n + m ≤ r.bits)
    (hbits : r.bits ≤ 64) (hx : x &&& genMask r.bits.toNat = x)
    (hy : ∀ i : ℕ, m ≤ i → i < r.bits - n → y.getLsbD (i - m.toNat) = x.getLsbD i)
    (htop : ∀ i : ℕ, r.bits - n ≤ i → i < r.bits → x.getLsbD i = last.getLsbD i)
    (hlow : ∀ i : ℕ, i < m → x.getLsbD i = last₁.getLsbD i) : wholeCode r' y = x := by
  have hpreBits : r'.preDataBits.toNat = n.toNat := by rw [hpost.preDataBits, hpre.preDataBits]
  have hcodeBits : r'.bits.toNat = (r.bits - n - m).toNat := by rw [hpost.bits, hpre.bits]
  have hpostBits : r'.postDataBits.toNat = m.toNat := by rw [hpost.postDataBits]
  apply BitVec.eq_of_getLsbD_eq
  intro i hi
  rw [wholeCode, join_getLsbD _ hi]
  simp only [Widths.total, hpreBits, hcodeBits, hpostBits]
  split
  · next hpostBit => rw [hpost.postData i (by omega), hlow i (by omega)]
  · split
    · next hcodeBit => exact hy i (by omega) (by omega)
    · next hpreBit =>
        by_cases hin : i < r.bits
        · rw [decide_eq_true (by omega), Bool.true_and, hpost.preData,
            hpre.preData _ (by omega), htop i (by omega) (by omega)]
          congr 1
          omega
        · rw [decide_eq_false (by omega), Bool.false_and, ← hx, and_genMask_getLsbD _ hi,
            decide_eq_false (by omega), Bool.and_false]

/-- Every code is kept where the nodes that are not compared share the bits that
are cut out. -/
theorem kept_of_nodes (h : HasCodes r first second others) (hpre : r.preDataBits = 0)
    (hpost : r.postDataBits = 0) (hdiffer : Differ r first (second :: others))
    (hnodes : ∀ x ∈ first.next, ∀ i : ℕ, i < r.bits →
      (r.bits - topBits first (second :: others) r.bits ≤ i ∨
        i < lowBits first (second :: others) r.bits) → x.getLsbD i = first.code.getLsbD i) :
    ∃ r', (getPreData r).bind getPostData = some r' ∧ r'.bitCount = r.bitCount ∧
      r'.codes.map (List.map (mapCodes (wholeCode r'))) = r.codes := by
  have htop := hdiffer.topBits_bounds
  have hbounds := hdiffer.bounds
  have hle := h.bits_le
  obtain ⟨r₁, hget₁, hcut₁⟩ := getPreData_cut h hpre hdiffer
  obtain ⟨f, hcodes₁, hf⟩ := hcut₁.codes
  have h₁ := hcut₁.hasCodes h htop.1 (by omega) hcodes₁ hf
  have hbits₁ := hcut₁.bits
  have hfcompared := (forall_elements_iff.mp hf).1
  have hshared : ∀ i < r₁.bits.toNat,
      Shared (comparedCodes (mapCodes f first) (mapCodes f second :: others.map (mapCodes f))) i ↔
        Shared (comparedCodes first (second :: others)) i := by
    intro i hi
    rw [← List.map_cons, comparedCodes_mapCodes]
    refine shared_map_iff fun x hx => ?_
    rw [hfcompared x hx i (by omega), decide_eq_true (by omega), Bool.and_true]
  have hsame := sharedLow_eq (show r₁.bits.toNat ≤ r.bits.toNat by omega) (by omega) hshared
  have hdiffer₁ : Differ r₁ (mapCodes f first) (mapCodes f second :: others.map (mapCodes f)) :=
    ⟨_, by omega, mt (hshared _ (by omega)).mp
      (not_shared_sharedLow (b := r.bits.toNat) (by omega))⟩
  obtain ⟨r', hget', hcut'⟩ := getPostData_cut h₁ (hcut₁.postDataBits.trans hpost) hdiffer₁
  obtain ⟨g, hcodes', hg⟩ := hcut'.codes
  have hless : lowBits (mapCodes f first) (mapCodes f second :: others.map (mapCodes f)) r₁.bits ≤
      lowBits first (second :: others) r.bits := by
    rw [lowBits, hsame, hbits₁]
    exact evenCount_after_top (by omega) (by omega) (by omega)
  have hlow := hdiffer₁.lowBits_bounds
  rw [hsame] at hlow
  have hlast (i : ℕ) (hi : i < lowBits (mapCodes f first) (mapCodes f second :: others.map (mapCodes f))
      r₁.bits) : first.code.getLsbD i =
        (commonMask (mapCodes f first) (mapCodes f second :: others.map (mapCodes f))).2.getLsbD i := by
    have hfirst := hfcompared first.code List.mem_cons_self i (by omega)
    rw [decide_eq_true (by omega), Bool.and_true] at hfirst
    rw [← hfirst]
    refine shared_last ((hshared i (by omega)).mpr (shared_of_lowBits hdiffer (by omega))) _ ?_
    exact List.mem_cons_self
  generalize lowBits (mapCodes f first) (mapCodes f second :: others.map (mapCodes f)) r₁.bits =
    m at *
  have hbits' := hcut'.bits
  refine ⟨r', by rw [hget₁, Option.bind_some, hget'], ?_, ?_⟩
  · rw [ConfRemote.bitCount, ConfRemote.bitCount, hcut'.preDataBits, hcut₁.preDataBits,
      hcut'.postDataBits, hpre, hpost]
    omega
  · have hagree : ∀ c ∈ first :: second :: others, ∀ x ∈ c.elements, ∀ i : ℕ, i < r.bits →
        (r.bits - topBits first (second :: others) r.bits ≤ i ∨ i < m) →
          x.getLsbD i = first.code.getLsbD i := by
      rw [forall_elements_iff]
      constructor
      · rintro x hx i hi (hhigh | hlow')
        · exact shared_of_topBits hdiffer hhigh hi x hx _ List.mem_cons_self
        · exact shared_of_lowBits hdiffer (by omega) x hx _ List.mem_cons_self
      · intro x hx i hi hcut
        exact hnodes x hx i hi (by omega)
    have hwhole : ∀ c ∈ first :: second :: others, ∀ x ∈ c.elements,
        wholeCode r' (g (f x)) = x := by
      intro c hc x hx
      refine wholeCode_eq hcut₁ hcut' htop.1 hlow.1 (by omega) hle (h.within c hc x hx)
        (fun i hi hlt => ?_) (fun i hi hlt => ?_) (fun i hi => ?_)
      · rw [hg, show m.toNat + (i - m.toNat) = i by omega, hf c hc x hx i (by omega),
          decide_eq_true hlt, Bool.and_true]
      · rw [hagree c hc x hx i hlt (Or.inl hi)]
        exact shared_last (shared_of_topBits hdiffer hi hlt) _ List.mem_cons_self
      · rw [hagree c hc x hx i (by omega) (Or.inr hi), hlast i hi]
    rw [hcodes', h.codes, Option.map_some, mapCodes_mapCodes]
    refine congrArg some ?_
    rw [← List.map_cons, ← List.map_cons, mapCodes_mapCodes]
    exact map_mapCodes_eq_self_iff.mpr hwhole

end Keeping

/-- Factoring keeps the codes of a remote and can be undone exactly when nothing
is lost that was not compared. -/
theorem factored_iff {r : ConfRemote} {first second : IrNcode} {others : List IrNcode}
    (h : HasCodes r first second others) (hpre : r.preDataBits = 0) (hpost : r.postDataBits = 0) :
    Factored r ↔ CutsCommonBits r first (second :: others)
      (topBits first (second :: others) r.bits) (lowBits first (second :: others) r.bits) := by
  have hpos := h.bits_pos
  constructor
  · intro hfactored
    have hne : ∃ x ∈ comparedCodes first (second :: others), x ≠ first.code := by
      by_contra hnone
      push Not at hnone
      have hsame : ∀ i < 64, Shared (comparedCodes first (second :: others)) i := by
        intro i _ x hx y hy
        rw [hnone x hx, hnone y hy]
      have hrestored := hfactored.postRestored
      rw [getPostData_equal h hsame, Option.bind_none] at hrestored
      cases hrestored
    obtain ⟨x, hx, hxne⟩ := hne
    have hdiffer : Differ r first (second :: others) :=
      h.within_compared.exists_not_shared hx List.mem_cons_self hxne
    have htop := (preRestored_iff h hpre hdiffer).mp hfactored.preRestored
    have hlow := (postRestored_iff h hpost hdiffer).mp hfactored.postRestored
    refine ⟨⟨x, hx, hxne⟩, fun hcut => (htop hcut).1, fun hcut => (hlow hcut).1, ?_⟩
    rintro y hy i hi (hhigh | hlow')
    · exact (htop (by omega)).2 y hy i hi hhigh
    · exact (hlow (by omega)).2 y hy i hlow'
  · intro hcuts
    obtain ⟨x, hx, hxne⟩ := hcuts.differ
    have hdiffer : Differ r first (second :: others) :=
      h.within_compared.exists_not_shared hx List.mem_cons_self hxne
    have hbounds := hdiffer.bounds
    have hlow := hdiffer.lowBits_bounds
    refine ⟨kept_of_nodes h hpre hpost hdiffer hcuts.firstNodes, ?_, ?_⟩
    · rw [preRestored_iff h hpre hdiffer]
      exact fun hcut => ⟨hcuts.noPre hcut,
        fun y hy i hi hhigh => hcuts.firstNodes y hy i hi (Or.inl hhigh)⟩
    · rw [postRestored_iff h hpost hdiffer]
      exact fun hcut => ⟨hcuts.noPost hcut,
        fun y hy i hi => hcuts.firstNodes y hy i (by omega) (Or.inr hi)⟩

/-- The codes of a button `A` with two codes and of a button `B` with one. -/
def twoButtons (code next code' : IrCode) : ConfRemote :=
  { bits := 16
    codes := some [{ name := ['A'], code, next := [next] }, { name := ['B'], code := code' }] }

theorem hasCodes_twoButtons {code next code' : IrCode}
    (hcode : code &&& genMask 16 = code) (hnext : next &&& genMask 16 = next)
    (hcode' : code' &&& genMask 16 = code') :
    HasCodes (twoButtons code next code') { name := ['A'], code, next := [next] }
      { name := ['B'], code := code' } [] where
  codes := rfl
  bits_pos := show (1 : ℤ) ≤ 16 by decide
  bits_le := show (16 : ℤ) ≤ 64 by decide
  within := by
    simp only [List.forall_mem_cons, IrNcode.elements]
    exact ⟨⟨hcode, hnext, by simp⟩, ⟨hcode', by simp⟩, by simp⟩

/-- Three codes that share their upper eight bits. -/
theorem factored_twoButtons : Factored (twoButtons 0x1214 0x1224 0x1234) := by
  refine (factored_iff (@hasCodes_twoButtons 0x1214 0x1224 0x1234 rfl rfl rfl) rfl rfl).mpr
    ⟨⟨0x1234, by decide, by decide⟩, fun _ => ⟨rfl, rfl, rfl⟩, fun _ => rfl, ?_⟩
  have htop : topBits { name := ['A'], code := 0x1214, next := [0x1224] }
      [{ name := ['B'], code := 0x1234 }] 16 = 8 := by decide +kernel
  have hlow : lowBits { name := ['A'], code := 0x1214, next := [0x1224] }
      [{ name := ['B'], code := 0x1234 }] 16 = 0 := by decide +kernel
  intro x hx i hi hcut
  simp only [twoButtons, htop, hlow] at hi hcut
  rw [List.mem_singleton.mp hx]
  have hbits : 8 ≤ i ∧ i < 16 := by omega
  obtain ⟨hlow, hhigh⟩ := hbits
  interval_cases i <;> rfl

/-- The second code of the first button has other upper bits, which are lost. -/
theorem factored_corrupts : ¬∀ (r : ConfRemote) (first second : IrNcode) (others : List IrNcode),
    HasCodes r first second others → r.preDataBits = 0 → r.postDataBits = 0 → Factored r := by
  intro h
  have hcodes := @hasCodes_twoButtons 0x1214 0x3424 0x1234 rfl rfl rfl
  obtain ⟨r', hget, -, hkept⟩ := (h _ _ _ _ hcodes rfl rfl).kept
  have hwhole : (((getPreData (twoButtons 0x1214 0x3424 0x1234)).bind getPostData).bind fun r' =>
      r'.codes.map (List.map (mapCodes (wholeCode r')))) =
        (twoButtons 0x1214 0x3424 0x1234).codes := by
    rw [hget]
    exact hkept
  exact absurd hwhole (by decide +kernel)

end Lirc
