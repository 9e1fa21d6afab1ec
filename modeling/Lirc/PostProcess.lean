import Lirc.Library.StableSort
import Lirc.ReadConfig

/-!
What happens to the remotes of a file at its end: the post-processing can be
applied again without effect, and the list is sorted.
-/

namespace Lirc

/-! ### Sorting -/

/-- In the order of the bit counts. -/
def ByBitCount (remotes : List ConfRemote) : Prop :=
  remotes.Pairwise fun a b => a.bitCount ≤ b.bitCount

theorem insertByBitCount_eq (rem : ConfRemote) (remotes : List ConfRemote) :
    insertByBitCount rem remotes = StableSort.insert ConfRemote.bitCount rem remotes := by
  induction remotes with
  | nil => rfl
  | cons scan rest ih => rw [insertByBitCount, ih, StableSort.insert]

theorem sortByBitCount_eq : sortByBitCount = StableSort.sort ConfRemote.bitCount := by
  have hinsert : insertByBitCount = StableSort.insert ConfRemote.bitCount :=
    funext fun rem => funext (insertByBitCount_eq rem)
  funext remotes
  rw [sortByBitCount, hinsert]
  rfl

theorem sortByBitCount_perm (remotes : List ConfRemote) :
    (sortByBitCount remotes).Perm remotes :=
  sortByBitCount_eq ▸ StableSort.sort_perm remotes

theorem sortByBitCount_sorted (remotes : List ConfRemote) :
    ByBitCount (sortByBitCount remotes) :=
  sortByBitCount_eq ▸ StableSort.sort_sorted remotes

/-! ### Post-processing -/

section Kicks

variable (rem : ConfRemote)

theorem protocol_kickReverse (f : ℕ) :
    ((f &&& (2 ^ 32 - 1 - reverseFlag)) ||| compatReverse) &&& protocolMask =
      f &&& protocolMask := by
  rw [Nat.and_or_distrib_right, Nat.and_assoc]
  exact Nat.or_zero _

theorem reverse_kickReverse (f : ℕ) :
    ((f &&& (2 ^ 32 - 1 - reverseFlag)) ||| compatReverse) &&& reverseFlag = 0 := by
  rw [Nat.and_or_distrib_right, Nat.and_assoc]
  exact (congrArg₂ (· ||| ·) (Nat.and_zero f) rfl)

/-- After the first pass a remote that is not raw has no `REVERSE` flag. -/
theorem kickReverse_flag :
    (kickReverse rem).isRaw = true ∨ (kickReverse rem).has reverseFlag = false := by
  rw [kickReverse]
  split
  · right
    rw [ConfRemote.has, reverse_kickReverse]
    rfl
  · next h =>
      rw [Bool.not_eq_true', not_and_or, Bool.not_eq_false, Bool.not_eq_true] at h
      exact h

theorem kickReverse_of_flag
    (h : rem.isRaw = true ∨ rem.has reverseFlag = false) : kickReverse rem = rem := by
  rw [kickReverse, if_neg]
  rintro ⟨hraw, hflag⟩
  rcases h with h | h
  · rw [h] at hraw
    exact Bool.false_ne_true hraw
  · rw [h] at hflag
    exact Bool.false_ne_true hflag

theorem kickRc6_eq : ∃ m, kickRc6 rem = { rem with rc6Mask := m } := by
  rw [kickRc6]
  split
  · exact ⟨_, rfl⟩
  · exact ⟨rem.rc6Mask, rfl⟩

theorem kickToggleBit_eq :
    ∃ m b, b ≤ 0 ∧ kickToggleBit rem = { rem with toggleBitMask := m, toggleBit := b } := by
  rw [kickToggleBit]
  split
  · exact ⟨_, 0, le_rfl, rfl⟩
  · next h => exact ⟨rem.toggleBitMask, rem.toggleBit, not_lt.mp h, rfl⟩

theorem kickToggleState_eq : ∃ m, kickToggleState rem = { rem with toggleBitMaskState := m } := by
  rw [kickToggleState]
  split
  · split
    · exact ⟨_, rfl⟩
    · exact ⟨rem.toggleBitMaskState, rfl⟩
  · exact ⟨rem.toggleBitMaskState, rfl⟩

theorem kickSerial_eq : ∃ p s b,
    kickSerial rem = { rem with pzero := p, sone := s, bitsInByte := b } := by
  rw [kickSerial]
  split
  · exact ⟨_, _, _, rfl⟩
  · exact ⟨rem.pzero, rem.sone, rem.bitsInByte, rfl⟩

theorem kickMinCodeRepeat_eq : ∃ n, kickMinCodeRepeat rem = { rem with minCodeRepeat := n } := by
  rw [kickMinCodeRepeat]
  split
  · exact ⟨_, rfl⟩
  · exact ⟨rem.minCodeRepeat, rfl⟩

/-! Each pass done again. -/

theorem kickToggleState_idem : kickToggleState (kickToggleState rem) = kickToggleState rem := by
  cases hcodes : rem.codes with
  | none =>
      have heq : kickToggleState rem = rem := by rw [kickToggleState, hcodes]
      rw [heq, heq]
  | some codes =>
      by_cases h : rem.hasToggleBitMask ∧ !rem.isRaw
      · obtain ⟨m, heq⟩ := kickToggleState_eq rem
        have hstate : kickToggleState { rem with toggleBitMaskState := m } =
            kickToggleState rem := by
          simp only [kickToggleState, hcodes]
          exact (if_pos h).trans (if_pos h).symm
        exact (congrArg kickToggleState heq).trans hstate
      · have heq : kickToggleState rem = rem := by
          simp only [kickToggleState, hcodes]
          exact if_neg h
        rw [heq, heq]

/-- A default that is used again. -/
theorem default_idem {α : Type} (P : α → Prop) [DecidablePred P] (base v : α) :
    (if P (if P v then base else v) then base else if P v then base else v) =
      if P v then base else v := by
  by_cases h : P v
  · rw [if_pos h]
    exact ite_self ..
  · rw [if_neg h, if_neg h]

theorem kickSerial_idem : kickSerial (kickSerial rem) = kickSerial rem := by
  by_cases h : rem.isSerial
  · have heq : kickSerial rem = kickSerial rem := rfl
    conv_rhs at heq => rw [kickSerial, if_pos h]
    refine (congrArg kickSerial heq).trans (Eq.trans ?_ heq.symm)
    refine (if_pos h).trans ?_
    have hpzero := default_idem (fun v => 0 < rem.baud ∧ v = 0 ∧ rem.szero = 0)
      (toInt32 (1000000 / rem.baud)) rem.pzero
    have hsone := default_idem (fun v => 0 < rem.baud ∧ rem.pone = 0 ∧ v = 0)
      (toInt32 (1000000 / rem.baud)) rem.sone
    have hbits := default_idem (· = 0) 8 rem.bitsInByte
    simp only [hpzero, hsone, hbits]
  · have heq : kickSerial rem = rem := if_neg h
    rw [heq, heq]

theorem kickMinCodeRepeat_idem :
    kickMinCodeRepeat (kickMinCodeRepeat rem) = kickMinCodeRepeat rem := by
  by_cases h : 0 < rem.minCodeRepeat ∧
      (!rem.hasRepeat ∨ (rem.minRepeat % 2 ^ 32).toNat < rem.minCodeRepeat)
  · have heq : kickMinCodeRepeat rem = { rem with minCodeRepeat := 0 } := if_pos h
    rw [heq]
    exact if_neg fun h' => absurd h'.1 (lt_irrefl 0)
  · have heq : kickMinCodeRepeat rem = rem := if_neg h
    rw [heq, heq]

/-! The later passes do not disturb the earlier ones. -/

theorem kickSerial_minCodeRepeat (n : ℕ) :
    kickSerial { rem with minCodeRepeat := n } = { kickSerial rem with minCodeRepeat := n } := by
  by_cases h : rem.isSerial
  · rw [kickSerial, kickSerial, if_pos h]
    exact if_pos h
  · rw [kickSerial, kickSerial, if_neg h]
    exact if_neg h

theorem kickToggleState_later (h : kickToggleState rem = rem) (p s : ℤ) (b n : ℕ) :
    kickToggleState { rem with pzero := p, sone := s, bitsInByte := b, minCodeRepeat := n } =
      { rem with pzero := p, sone := s, bitsInByte := b, minCodeRepeat := n } := by
  cases hcodes : rem.codes with
  | none => simp only [kickToggleState]
  | some codes =>
      simp only [kickToggleState, hcodes] at h ⊢
      by_cases hmask : rem.hasToggleBitMask ∧ !rem.isRaw
      · rw [if_pos hmask] at h
        have hstate := congrArg ConfRemote.toggleBitMaskState h
        refine (if_pos hmask).trans ?_
        simp only at hstate
        simp only [hstate]
      · exact if_neg hmask

theorem kickToggleBit_of_nonpos (h : rem.toggleBit ≤ 0) : kickToggleBit rem = rem :=
  if_neg (not_lt.mpr h)

theorem kickRc6_of_nonpos (h : rem.toggleBit ≤ 0) : kickRc6 rem = rem :=
  if_neg fun hrc6 => absurd hrc6.2.2 (not_lt.mpr h)

/-- What holds of a remote before its last two passes. -/
theorem postProcess_steps : ∃ r, postProcess rem = kickMinCodeRepeat (kickSerial r) ∧
    kickToggleState r = r ∧ (r.isRaw = true ∨ r.has reverseFlag = false) ∧ r.toggleBit ≤ 0 ∧
    r.bitCount = rem.bitCount ∧ r.codes.isSome = rem.codes.isSome := by
  obtain ⟨m₁, h₂⟩ := kickRc6_eq (kickReverse rem)
  obtain ⟨m₂, t, ht, h₃⟩ := kickToggleBit_eq (kickRc6 (kickReverse rem))
  obtain ⟨m₃, h₄⟩ := kickToggleState_eq (kickToggleBit (kickRc6 (kickReverse rem)))
  refine ⟨_, rfl, kickToggleState_idem _, ?_, ?_, ?_, ?_⟩
  · rw [h₄, h₃, h₂]
    exact kickReverse_flag rem
  · rw [h₄, h₃]
    exact ht
  · rw [h₄, h₃, h₂, kickReverse]
    split
    · rfl
    · rfl
  · rw [h₄, h₃, h₂, kickReverse]
    split
    · exact Option.isSome_map ..
    · rfl

theorem kickLast_eq : ∃ p s b n, kickMinCodeRepeat (kickSerial rem) =
    { rem with pzero := p, sone := s, bitsInByte := b, minCodeRepeat := n } := by
  obtain ⟨p, s, b, hserial⟩ := kickSerial_eq rem
  obtain ⟨n, hrepeat⟩ := kickMinCodeRepeat_eq (kickSerial rem)
  exact ⟨p, s, b, n, by rw [hrepeat, hserial]⟩

/-- The post-processing of a remote that has been through it changes nothing. -/
theorem postProcess_idem : postProcess (postProcess rem) = postProcess rem := by
  obtain ⟨r, hr, hstate, hflag, hbit, -, -⟩ := postProcess_steps rem
  obtain ⟨p, s, b, n, hlast⟩ := kickLast_eq r
  have hserial : kickSerial (kickMinCodeRepeat (kickSerial r)) =
      kickMinCodeRepeat (kickSerial r) := by
    obtain ⟨n', hrepeat⟩ := kickMinCodeRepeat_eq (kickSerial r)
    rw [hrepeat, kickSerial_minCodeRepeat, kickSerial_idem]
  rw [hr, postProcess, kickReverse_of_flag, kickRc6_of_nonpos, kickToggleBit_of_nonpos]
  · have hlater := kickToggleState_later r hstate p s b n
    rw [← hlast] at hlater
    rw [hlater, hserial, kickMinCodeRepeat_idem]
  · rw [hlast]
    exact hbit
  · rw [hlast]
    exact hbit
  · rw [hlast]
    exact hflag

theorem postProcess_bitCount : (postProcess rem).bitCount = rem.bitCount := by
  obtain ⟨r, hr, -, -, -, hcount, -⟩ := postProcess_steps rem
  obtain ⟨p, s, b, n, hlast⟩ := kickLast_eq r
  rw [hr, hlast]
  exact hcount

theorem postProcess_codes : (postProcess rem).codes.isSome = rem.codes.isSome := by
  obtain ⟨r, hr, -, -, -, -, hcodes⟩ := postProcess_steps rem
  obtain ⟨p, s, b, n, hlast⟩ := kickLast_eq r
  rw [hr, hlast]
  exact hcodes

/-- After the first pass the codes are as they stay. -/
theorem postProcess_codes_eq : (postProcess rem).codes = (kickReverse rem).codes := by
  obtain ⟨m₁, h₂⟩ := kickRc6_eq (kickReverse rem)
  obtain ⟨m₂, t, -, h₃⟩ := kickToggleBit_eq (kickRc6 (kickReverse rem))
  obtain ⟨m₃, h₄⟩ := kickToggleState_eq (kickToggleBit (kickRc6 (kickReverse rem)))
  obtain ⟨p, s, b, n, hlast⟩ :=
    kickLast_eq (kickToggleState (kickToggleBit (kickRc6 (kickReverse rem))))
  rw [postProcess, hlast, h₄, h₃, h₂]

theorem postProcess_name : (postProcess rem).name = rem.name := by
  have hreverse : (kickReverse rem).name = rem.name := by
    rw [kickReverse]
    split
    · rfl
    · rfl
  have hrc6 (r : ConfRemote) : (kickRc6 r).name = r.name := by
    obtain ⟨m, h⟩ := kickRc6_eq r
    rw [h]
  have hbit (r : ConfRemote) : (kickToggleBit r).name = r.name := by
    obtain ⟨m, b, -, h⟩ := kickToggleBit_eq r
    rw [h]
  have hstate (r : ConfRemote) : (kickToggleState r).name = r.name := by
    obtain ⟨m, h⟩ := kickToggleState_eq r
    rw [h]
  have hlast (r : ConfRemote) : (kickMinCodeRepeat (kickSerial r)).name = r.name := by
    obtain ⟨p, s, b, n, h⟩ := kickLast_eq r
    rw [h]
  rw [postProcess, hlast, hstate, hbit, hrc6, hreverse]

end Kicks

end Lirc
