import Lirc.Filters
import Lirc.Receive

/-!
The tolerances of `ir_remote.h` in the arithmetic of `int`. Elsewhere they are computed with
integers; here every intermediate result has to fit, and a helper is `none` when one of them
does not.
-/

namespace Lirc

/-- The result of an operation on `int`; `none` when it overflows. -/
def checkInt (x : ℤ) : Option ℤ := if -2 ^ 31 ≤ x ∧ x < 2 ^ 31 then some x else none

theorem checkInt_eq {x : ℤ} (h : -2 ^ 31 ≤ x ∧ x < 2 ^ 31) : checkInt x = some x := if_pos h

theorem checkInt_eq_none {x : ℤ} (h : 2 ^ 31 ≤ x) : checkInt x = none := by
  apply if_neg
  omega

section Checked

variable (hw : Hardware) (r : IrRemote)

/-- `expect` -/
def expectInt (delta exdelta : ℤ) : Option Bool := do
  let difference ← checkInt (exdelta - delta)
  let distance ← checkInt |difference|
  let product ← checkInt (exdelta * r.eps)
  let relative ← checkInt (product.tdiv 100)
  some (distance ≤ relative || distance ≤ aepsOf hw r)

/-- `expect_at_least`; the second sum is needed only when the first one is too short. -/
def expectAtLeastInt (delta exdelta : ℤ) : Option Bool := do
  let product ← checkInt (exdelta * r.eps)
  let relative ← checkInt (product.tdiv 100)
  let sum ← checkInt (delta + relative)
  if exdelta ≤ sum then some true
  else
    let sum ← checkInt (delta + aepsOf hw r)
    some (exdelta ≤ sum)

/-- `expect_at_most` -/
def expectAtMostInt (delta exdelta : ℤ) : Option Bool := do
  let product ← checkInt (exdelta * r.eps)
  let relative ← checkInt (product.tdiv 100)
  let sum ← checkInt (exdelta + relative)
  if delta ≤ sum then some true
  else
    let sum ← checkInt (exdelta + aepsOf hw r)
    some (delta ≤ sum)

/-- `upper_limit` -/
def upperLimitInt (val : ℤ) : Option ℤ := do
  let percent ← checkInt (100 + r.eps)
  let product ← checkInt (val * percent)
  let epsVal ← checkInt (product.tdiv 100)
  let aepsVal ← checkInt (val + aepsOf hw r)
  some (if aepsVal < epsVal then epsVal else aepsVal)

/-- `lower_limit` -/
def lowerLimitInt (val : ℤ) : Option ℤ := do
  let percent ← checkInt (100 - r.eps)
  let product ← checkInt (val * percent)
  let epsVal ← checkInt (product.tdiv 100)
  let aepsVal ← checkInt (val - aepsOf hw r)
  let epsVal := if epsVal ≤ 0 then 1 else epsVal
  let aepsVal := if aepsVal ≤ 0 then 1 else aepsVal
  some (if epsVal < aepsVal then epsVal else aepsVal)

/-- A length that a sample can have. -/
def IsLength (x : ℤ) : Prop := 0 ≤ x ∧ x ≤ pulseMask

/-- The tolerances are a percentage and lengths. -/
structure LegalTolerance : Prop where
  eps : 0 ≤ r.eps ∧ r.eps ≤ 100
  aeps : IsLength r.aeps
  resolution : IsLength hw.resolution

end Checked

section Limits

variable {hw : Hardware} {r : IrRemote}

theorem IsLength.lt {x : ℤ} (h : IsLength x) : 0 ≤ x ∧ x < 2 ^ 24 :=
  ⟨h.1, h.2.trans_lt (by decide)⟩

/-- The resolution of the driver is compared as an unsigned number. -/
theorem LegalTolerance.aepsOf_eq (h : LegalTolerance hw r) :
    aepsOf hw r = max r.aeps hw.resolution := by
  have haeps := h.aeps.lt
  rw [aepsOf, Int.emod_eq_of_lt haeps.1 (by omega)]
  split <;> omega

theorem LegalTolerance.aepsOf_lt (h : LegalTolerance hw r) :
    0 ≤ aepsOf hw r ∧ aepsOf hw r < 2 ^ 24 := by
  have haeps := h.aeps.lt
  have hresolution := h.resolution.lt
  rw [h.aepsOf_eq]
  omega

/-- A percentage of a length. -/
theorem IsLength.mul {x eps : ℤ} (hx : IsLength x) (heps : 0 ≤ eps ∧ eps ≤ 100) :
    0 ≤ x * eps ∧ x * eps < 2 ^ 31 ∧ (x * eps).tdiv 100 = x * eps / 100 ∧
      0 ≤ x * eps / 100 ∧ x * eps / 100 ≤ x := by
  have hnonneg : 0 ≤ x * eps := Int.mul_nonneg hx.1 heps.1
  have hle : x * eps ≤ x * 100 := Int.mul_le_mul_of_nonneg_left heps.2 hx.1
  have hlt := hx.lt
  have hmask : x ≤ 16777215 := hx.2
  refine ⟨hnonneg, by omega, Int.tdiv_eq_ediv_of_nonneg hnonneg, by omega, by omega⟩

variable (h : LegalTolerance hw r) {delta exdelta val : ℤ} (hdelta : IsLength delta)
  (hexdelta : IsLength exdelta) (hval : IsLength val)

include h hdelta hexdelta

/-- In this range `expect` is that of the integers. -/
theorem expectInt_eq : expectInt hw r delta exdelta = some (expect hw r delta exdelta) := by
  obtain ⟨hnonneg, hproduct, hdiv, hquot, hle⟩ := hexdelta.mul h.eps
  have hd := hdelta.lt
  have he := hexdelta.lt
  have habs : |exdelta - delta| < 2 ^ 24 := by
    rw [abs_lt]
    omega
  have habs' : 0 ≤ |exdelta - delta| := abs_nonneg _
  rw [expectInt, checkInt_eq (by omega), Option.bind_eq_bind, Option.bind_some,
    checkInt_eq (by omega), Option.bind_some, checkInt_eq (by omega), Option.bind_some,
    checkInt_eq (by omega)]
  rfl

theorem expectAtLeastInt_eq :
    expectAtLeastInt hw r delta exdelta = some (expectAtLeast hw r delta exdelta) := by
  obtain ⟨hnonneg, hproduct, hdiv, hquot, hle⟩ := hexdelta.mul h.eps
  have hd := hdelta.lt
  have he := hexdelta.lt
  have haeps := h.aepsOf_lt
  rw [expectAtLeastInt, checkInt_eq (by omega), Option.bind_eq_bind, Option.bind_some,
    checkInt_eq (by omega), Option.bind_some, checkInt_eq (by omega), Option.bind_some,
    expectAtLeast]
  split
  · next hlong => simp [hlong]
  · next hshort =>
      rw [checkInt_eq (by omega)]
      simp [hshort]

theorem expectAtMostInt_eq :
    expectAtMostInt hw r delta exdelta = some (expectAtMost hw r delta exdelta) := by
  obtain ⟨hnonneg, hproduct, hdiv, hquot, hle⟩ := hexdelta.mul h.eps
  have hd := hdelta.lt
  have he := hexdelta.lt
  have haeps := h.aepsOf_lt
  rw [expectAtMostInt, checkInt_eq (by omega), Option.bind_eq_bind, Option.bind_some,
    checkInt_eq (by omega), Option.bind_some, checkInt_eq (by omega), Option.bind_some,
    expectAtMost]
  split
  · next hshort => simp [hshort]
  · next hlong =>
      rw [checkInt_eq (by omega)]
      simp [hlong]

omit hdelta in
/-- The larger one of the tolerances decides. -/
theorem expect_iff : expect hw r delta exdelta = true ↔
    |delta - exdelta| ≤ max (exdelta * r.eps / 100) (max r.aeps hw.resolution) := by
  obtain ⟨-, -, hdiv, -, -⟩ := hexdelta.mul h.eps
  rw [expect, hdiv, h.aepsOf_eq, abs_sub_comm, Bool.or_eq_true, decide_eq_true_iff,
    decide_eq_true_iff]
  exact le_max_iff.symm

omit hdelta hexdelta

include hval in
theorem lowerLimitInt_eq : lowerLimitInt hw r val = some (lowerLimit hw r val) := by
  have heps : 0 ≤ 100 - r.eps ∧ 100 - r.eps ≤ 100 := by
    have hlegal := h.eps
    omega
  obtain ⟨hnonneg, hproduct, hdiv, hquot, hle⟩ := hval.mul heps
  have hv := hval.lt
  have haeps := h.aepsOf_lt
  rw [lowerLimitInt, checkInt_eq (by omega), Option.bind_eq_bind, Option.bind_some,
    checkInt_eq (by omega), Option.bind_some, checkInt_eq (by omega), Option.bind_some,
    checkInt_eq (by omega), lowerLimit]
  apply congrArg some
  rw [min_def]
  split <;> split <;> omega

theorem lowerLimit_le (hpos : 1 ≤ val) : lowerLimit hw r val ≤ val := by
  have haeps := h.aepsOf_lt
  rw [lowerLimit, min_le_iff]
  right
  split <;> omega

include hval in
/-- The product is the only result that can be too large. -/
theorem upperLimitInt_eq : upperLimitInt hw r val =
    if val * (100 + r.eps) < 2 ^ 31 then some (upperLimit hw r val) else none := by
  have heps := h.eps
  have hv := hval.lt
  have haeps := h.aepsOf_lt
  have hnonneg : 0 ≤ val * (100 + r.eps) := Int.mul_nonneg hv.1 (by omega)
  have hdiv : (val * (100 + r.eps)).tdiv 100 = val * (100 + r.eps) / 100 :=
    Int.tdiv_eq_ediv_of_nonneg hnonneg
  rw [upperLimitInt, checkInt_eq (by omega), Option.bind_eq_bind, Option.bind_some]
  split
  · next hfits =>
      rw [checkInt_eq (by omega), Option.bind_some, checkInt_eq (by omega), Option.bind_some,
        checkInt_eq (by omega), upperLimit]
      apply congrArg some
      rw [max_def]
      split <;> split <;> omega
  · next hlarge =>
      rw [checkInt_eq_none (by omega)]
      rfl

theorem le_upperLimit : val ≤ upperLimit hw r val := by
  have haeps := h.aepsOf_lt
  rw [upperLimit, le_max_iff]
  right
  omega

end Limits

/-- All intermediate results fit, `expect` compares with the larger tolerance, and the limits
lie around the length. -/
def ToleranceSound (hw : Hardware) (r : IrRemote) (delta exdelta val : ℤ) : Prop :=
  expectInt hw r delta exdelta = some (decide
      (|delta - exdelta| ≤ max (exdelta * r.eps / 100) (max r.aeps hw.resolution))) ∧
    (expectAtLeastInt hw r delta exdelta).isSome ∧ (expectAtMostInt hw r delta exdelta).isSome ∧
    ∃ low high, lowerLimitInt hw r val = some low ∧ upperLimitInt hw r val = some high ∧
      (1 ≤ val → low ≤ val ∧ val ≤ high)

/-- The arithmetic of the tolerances is sound exactly where `upper_limit` does not overflow. -/
theorem tolerance_sound_iff {hw : Hardware} {r : IrRemote} (h : LegalTolerance hw r)
    {delta exdelta val : ℤ} (hdelta : IsLength delta) (hexdelta : IsLength exdelta)
    (hval : IsLength val) :
    ToleranceSound hw r delta exdelta val ↔ val * (100 + r.eps) < 2 ^ 31 := by
  have hupper := upperLimitInt_eq h hval
  constructor
  · rintro ⟨-, -, -, low, high, -, hhigh, -⟩
    by_contra hlarge
    rw [hupper, if_neg hlarge] at hhigh
    cases hhigh
  · intro hfits
    rw [if_pos hfits] at hupper
    refine ⟨?_, ?_, ?_, _, _, lowerLimitInt_eq h hval, hupper, fun hpos =>
      ⟨lowerLimit_le h hpos, le_upperLimit h⟩⟩
    · rw [expectInt_eq h hdelta hexdelta]
      apply congrArg some
      rw [Bool.eq_iff_iff, expect_iff h hexdelta, decide_eq_true_iff]
    · rw [expectAtLeastInt_eq h hdelta hexdelta]
      rfl
    · rw [expectAtMostInt_eq h hdelta hexdelta]
      rfl

/-- A gap of ten seconds with a tolerance of a third. -/
theorem tolerance_sound_gap :
    ToleranceSound { resolution := 50 } { eps := 33, aeps := 100 } 560 9000 10000000 := by
  refine (tolerance_sound_iff ⟨?_, ?_, ?_⟩ ?_ ?_ ?_).mpr ?_
  · decide
  · exact ⟨by decide, by decide⟩
  · exact ⟨by decide, by decide⟩
  · exact ⟨by decide, by decide⟩
  · exact ⟨by decide, by decide⟩
  · exact ⟨by decide, by decide⟩
  · decide

/-- The longest length with a tolerance of thirty percent. -/
theorem tolerance_unsound : ¬∀ (hw : Hardware) (r : IrRemote), LegalTolerance hw r →
    ∀ delta exdelta val, IsLength delta → IsLength exdelta → IsLength val →
      ToleranceSound hw r delta exdelta val := by
  intro hall
  have hlegal : LegalTolerance {} { eps := 30, aeps := 100 } :=
    ⟨by decide, ⟨by decide, by decide⟩, ⟨by decide, by decide⟩⟩
  obtain ⟨-, -, -, low, high, -, hhigh, -⟩ := hall {} { eps := 30, aeps := 100 } hlegal 0 0
    pulseMask ⟨le_rfl, by decide⟩ ⟨le_rfl, by decide⟩ ⟨by decide, le_rfl⟩
  have hnone : upperLimitInt {} { eps := 30, aeps := 100 } pulseMask = none := by decide
  rw [hnone] at hhigh
  cases hhigh

end Lirc
