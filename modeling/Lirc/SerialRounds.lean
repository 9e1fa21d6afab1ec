import Lirc.Serial

/-!
What a round of the serial decoder does to the sample that it has read, one
case for each way through its branches.
-/

namespace Lirc

section

variable (hw : Hardware) (r : IrRemote)

/-- What is pending on the level that is read. -/
def levelPending (s : SerialState) (b : RBuf) : ℤ := if s.space then b.pendings else b.pendingp

/-- The length of a bit of the level that is read. -/
def levelBit (s : SerialState) : ℤ := if s.space then r.sone else r.pzero

/-- What the pending part leaves of the sample. -/
def behindPending (s : SerialState) (b : RBuf) : ℤ :=
  if expect hw r s.delta (levelPending s b) then 0 else s.delta - levelPending s b

/-- The level changes at the end of a sample. -/
def nextLevel (s : SerialState) (delta : ℤ) : Bool := if delta = 0 then !s.space else s.space

/-- What a bit leaves of so much of a sample. -/
def behindBit (s : SerialState) (delta : ℤ) : ℤ :=
  delta - (if delta < levelBit r s then delta else levelBit r s)

/-- A bit can be taken off so much of a sample. -/
def FitsBit (s : SerialState) (delta : ℤ) : Prop :=
  levelBit r s < delta ∨ expect hw r delta (levelBit r s) = true

instance (s : SerialState) (delta : ℤ) : Decidable (FitsBit hw r s delta) :=
  inferInstanceAs (Decidable (_ ∨ _))

/-- The bits of a byte and its parity bit. -/
def byteBits (parityBit : ℕ) : ℕ := r.bitsInByte + parityBit

/-- A round that takes something off the sample. -/
inductive TakeStep (parityBit : ℕ) (base stop : ℤ) :
    SerialState → RBuf → SerialState → RBuf → Prop
  | stop {s : SerialState} {b : RBuf} (hpending : 0 < levelPending s b)
      (hfits : expect hw r s.delta (levelPending s b) = true ∨ levelPending s b < s.delta)
      (hstop : s.stopBit = true) :
      TakeStep parityBit base stop s b
        { s with gapDelta := behindPending hw r s b, delta := 0, stopBit := false, space := false }
        { b with pendingp := base, pendings := 0 }
  | pending {s : SerialState} {b : RBuf} (hpending : 0 < levelPending s b)
      (hfits : expect hw r s.delta (levelPending s b) = true ∨ levelPending s b < s.delta)
      (hstop : s.stopBit = false) :
      TakeStep parityBit base stop s b
        { s with delta := behindPending hw r s b,
                 space := nextLevel s (behindPending hw r s b) }
        { b with pendingp := 0, pendings := 0 }
  | bit {s : SerialState} {b : RBuf} (hpending : levelPending s b ≤ 0)
      (hfits : expect hw r s.delta (levelPending s b) = true ∨ levelPending s b < s.delta)
      (hbit : FitsBit hw r s (behindPending hw r s b))
      (hbyte : (s.received + 1) % byteBits r parityBit ≠ 0) :
      TakeStep parityBit base stop s b
        { s with delta := behindBit r s (behindPending hw r s b),
                 received := s.received + 1,
                 code := s.code <<< 1 ||| (if s.space then 1 else 0),
                 parity := s.parity ^^ s.space,
                 space := nextLevel s (behindBit r s (behindPending hw r s b)) }
        b
  | byte {s : SerialState} {b : RBuf} (hpending : levelPending s b ≤ 0)
      (hfits : expect hw r s.delta (levelPending s b) = true ∨ levelPending s b < s.delta)
      (hbit : FitsBit hw r s (behindPending hw r s b))
      (hbyte : (s.received + 1) % byteBits r parityBit = 0)
      (hparity : ParityFits r.parity (s.parity ^^ s.space))
      (hleft : s.space = true → behindBit r s (behindPending hw r s b) ≠ 0) :
      TakeStep parityBit base stop s b
        { s with delta := behindBit r s (behindPending hw r s b),
                 received := s.received + 1,
                 code := serialByte r (s.code <<< 1 ||| (if s.space then 1 else 0)) parityBit,
                 parity := false,
                 stopBit := true,
                 space := nextLevel s (behindBit r s (behindPending hw r s b)) }
        { b with pendings := stop }
  | rest {s : SerialState} {b : RBuf} (hpending : levelPending s b ≤ 0)
      (hfits : expect hw r s.delta (levelPending s b) = true ∨ levelPending s b < s.delta)
      (hbit : ¬FitsBit hw r s (behindPending hw r s b))
      (hsome : behindPending hw r s b ≠ s.origdelta) :
      TakeStep parityBit base stop s b { s with delta := 0, space := !s.space } b

end

section

variable {hw : Hardware} {r : IrRemote} {parityBit : ℕ} {base stop : ℤ} {s s' : SerialState}
  {b b' : RBuf}

theorem parityFails_iff {odd : Bool} :
    (r.parity = .even ∧ odd = true) ∨ (r.parity = .odd ∧ (!odd) = true) ↔
      ¬ParityFits r.parity odd := by
  cases r.parity <;> cases odd <;> simp [ParityFits]

theorem not_fits_iff {d x : ℤ} : (!expect hw r d x && !decide (x < d)) = true ↔
    ¬(expect hw r d x = true ∨ x < d) := by
  rw [Bool.and_eq_true, Bool.not_eq_true', Bool.not_eq_true', decide_eq_false_iff_not,
    Bool.eq_false_iff, not_or]

theorem serialBit_eq {left : ℤ} : serialBit hw r parityBit stop { s with delta := left } b =
    if FitsBit hw r s left then
      if (s.received + 1) % byteBits r parityBit = 0 then
        if (r.parity = .even ∧ (s.parity ^^ s.space) = true) ∨
            (r.parity = .odd ∧ (!(s.parity ^^ s.space)) = true) then (none, b)
        else if s.space = true ∧ behindBit r s left = 0 then (none, b)
        else
          (some { s with delta := behindBit r s left,
                         received := s.received + 1,
                         code := serialByte r (s.code <<< 1 ||| (if s.space then 1 else 0)) parityBit,
                         parity := false,
                         stopBit := true,
                         space := nextLevel s (behindBit r s left) },
            { b with pendings := stop })
      else
        (some { s with delta := behindBit r s left,
                       received := s.received + 1,
                       code := s.code <<< 1 ||| (if s.space then 1 else 0),
                       parity := s.parity ^^ s.space,
                       space := nextLevel s (behindBit r s left) }, b)
    else if left = s.origdelta then (none, b)
    else (some { s with delta := 0, space := !s.space }, b) := rfl

theorem serialBit_iff (hpending : levelPending s b ≤ 0)
    (hfits : expect hw r s.delta (levelPending s b) = true ∨ levelPending s b < s.delta) :
    serialBit hw r parityBit stop { s with delta := behindPending hw r s b } b = (some s', b') ↔
      TakeStep hw r parityBit base stop s b s' b' := by
  rw [serialBit_eq]
  constructor
  · intro h
    by_cases hbit : FitsBit hw r s (behindPending hw r s b)
    · rw [if_pos hbit] at h
      by_cases hbyte : (s.received + 1) % byteBits r parityBit = 0
      · rw [if_pos hbyte, ite_eq_iff] at h
        obtain ⟨-, hnone⟩ | ⟨hparity, h⟩ := h
        · exact absurd (congrArg Prod.fst hnone) nofun
        · rw [ite_eq_iff] at h
          obtain ⟨-, hnone⟩ | ⟨hleft, h⟩ := h
          · exact absurd (congrArg Prod.fst hnone) nofun
          · obtain ⟨hs, rfl⟩ := Prod.mk.inj h
            obtain rfl := Option.some.inj hs
            rw [parityFails_iff, not_not] at hparity
            exact .byte hpending hfits hbit hbyte hparity
              fun hspace hzero => hleft ⟨hspace, hzero⟩
      · rw [if_neg hbyte] at h
        obtain ⟨hs, rfl⟩ := Prod.mk.inj h
        obtain rfl := Option.some.inj hs
        exact .bit hpending hfits hbit hbyte
    · rw [if_neg hbit, ite_eq_iff] at h
      obtain ⟨-, hnone⟩ | ⟨hsome, h⟩ := h
      · exact absurd (congrArg Prod.fst hnone) nofun
      · obtain ⟨hs, rfl⟩ := Prod.mk.inj h
        obtain rfl := Option.some.inj hs
        exact .rest hpending hfits hbit hsome
  · intro h
    cases h with
    | stop hpending' => exact absurd hpending' (not_lt.mpr hpending)
    | pending hpending' => exact absurd hpending' (not_lt.mpr hpending)
    | bit _ _ hbit hbyte => rw [if_pos hbit, if_neg hbyte]
    | byte _ _ hbit hbyte hparity hleft =>
        rw [if_pos hbit, if_pos hbyte, if_neg (parityFails_iff.not.mpr (not_not.mpr hparity)),
          if_neg fun h => hleft h.1 h.2]
    | rest _ _ hbit hsome => rw [if_neg hbit, if_neg hsome]

/-- The rounds that do not fail are those steps. -/
theorem takeStep_iff :
    serialTake hw r parityBit base stop s b = (some s', b') ↔
      TakeStep hw r parityBit base stop s b s' b' := by
  have htake : serialTake hw r parityBit base stop s b =
      if !expect hw r s.delta (levelPending s b) && !decide (levelPending s b < s.delta) then
        (none, b)
      else if 0 < levelPending s b then
        if s.stopBit then
          (some { s with gapDelta := behindPending hw r s b, delta := 0, stopBit := false,
                         space := false },
            { b with pendingp := base, pendings := 0 })
        else
          (some { s with delta := behindPending hw r s b,
                         space := nextLevel s (behindPending hw r s b) },
            { b with pendingp := 0, pendings := 0 })
      else serialBit hw r parityBit stop { s with delta := behindPending hw r s b } b := rfl
  rw [htake]
  by_cases hfits : expect hw r s.delta (levelPending s b) = true ∨ levelPending s b < s.delta
  · rw [if_neg (not_fits_iff.not.mpr (not_not.mpr hfits))]
    by_cases hpending : 0 < levelPending s b
    · rw [if_pos hpending]
      constructor
      · intro h
        rw [ite_eq_iff] at h
        obtain ⟨hstop, h⟩ | ⟨hstop, h⟩ := h
        · obtain ⟨hs, rfl⟩ := Prod.mk.inj h
          obtain rfl := Option.some.inj hs
          exact .stop hpending hfits hstop
        · obtain ⟨hs, rfl⟩ := Prod.mk.inj h
          obtain rfl := Option.some.inj hs
          exact .pending hpending hfits (Bool.eq_false_iff.mpr hstop)
      · intro h
        cases h with
        | stop _ _ hstop => rw [if_pos hstop]
        | pending _ _ hstop => rw [if_neg (Bool.eq_false_iff.mp hstop)]
        | bit hpending' => exact absurd hpending (not_lt.mpr hpending')
        | byte hpending' => exact absurd hpending (not_lt.mpr hpending')
        | rest hpending' => exact absurd hpending (not_lt.mpr hpending')
    · rw [if_neg hpending]
      exact serialBit_iff (not_lt.mp hpending) hfits
  · rw [if_pos (not_fits_iff.mpr hfits)]
    constructor
    · intro h
      exact absurd (congrArg Prod.fst h) nofun
    · intro h
      exact absurd (by cases h <;> assumption) hfits

end

end Lirc
