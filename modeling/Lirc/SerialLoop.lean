import Lirc.Library.Loop
import Lirc.SerialRounds

/-!
The loop of the serial decoder without a bound on its rounds. It goes on
forever when the stop bit is awaited on a level whose bits take no time, and
only then.
-/

namespace Lirc

open Loop

/-! ### Words that are still to be read -/

/-- The words that are still to be read, with so much added to each of them. -/
def RBuf.weight (b : RBuf) (cost : ℕ) : ℕ := (b.unread.map (· + cost)).sum

section

variable {b b' : RBuf} {cost : ℕ}

theorem readNew_weight (cost : ℕ) (maxusec : ℤ) (input : List ℕ) :
    ((readNew maxusec input).2.map (· + cost)).sum ≤ (input.map (· + cost)).sum ∧
      ((readNew maxusec input).1 ≠ 0 →
        ((readNew maxusec input).2.map (· + cost)).sum + ((readNew maxusec input).1 + cost) ≤
          (input.map (· + cost)).sum) := by
  induction input generalizing maxusec with
  | nil => exact ⟨Nat.le_refl _, fun h => absurd rfl h⟩
  | cons w input ih =>
      rw [readNew, List.map_cons, List.sum_cons]
      split
      · exact ⟨Nat.le_add_left _ _, fun h => absurd rfl h⟩
      · split
        · split
          · obtain ⟨hle, hlt⟩ := ih (maxusec - sampleValue w)
            exact ⟨by omega, fun h => by have := hlt h; omega⟩
          · exact ⟨Nat.le_add_left _ _, fun h => absurd rfl h⟩
        · exact ⟨Nat.le_add_left _ _, fun _ => by dsimp only; omega⟩

/-- What a read leaves of the words; it changes nothing that is pending. -/
theorem getNextRecBuffer_weight (cost : ℕ) (b : RBuf) (maxusec : ℤ) :
    (getNextRecBuffer b maxusec).2.weight cost ≤ b.weight cost ∧
      ((getNextRecBuffer b maxusec).1 ≠ 0 →
        (getNextRecBuffer b maxusec).2.weight cost + ((getNextRecBuffer b maxusec).1 + cost) ≤
          b.weight cost) ∧
      (getNextRecBuffer b maxusec).2.pendingp = b.pendingp ∧
      (getNextRecBuffer b maxusec).2.pendings = b.pendings := by
  rw [getNextRecBuffer, getNextRecBufferInternal]
  split
  · next w hget =>
      obtain ⟨hlt, rfl⟩ := List.getElem?_eq_some_iff.mp hget
      have hdrop := List.drop_eq_getElem_cons hlt
      have hweight : b.weight cost = b.data[b.rptr] + cost +
          ({ b with sum := b.sum + sampleValue b.data[b.rptr],
                    rptr := b.rptr + 1 } : RBuf).weight cost := by
        rw [RBuf.weight, RBuf.unread, hdrop]
        rfl
      dsimp only
      exact ⟨by omega, fun _ => by omega, rfl, rfl⟩
  · next hget =>
      have hnone : b.data.drop b.rptr = [] :=
        List.drop_eq_nil_iff.mpr (List.getElem?_eq_none_iff.mp hget)
      have hweight : b.weight cost = (b.input.map (· + cost)).sum := by
        rw [RBuf.weight, RBuf.unread, hnone, List.nil_append]
      split
      · obtain ⟨hle, hlt⟩ := readNew_weight cost (receiveTimeout maxusec) b.input
        split
        · next rest hread =>
            rw [hread] at hle
            have hrest : ({ b with input := rest } : RBuf).weight cost =
                (rest.map (· + cost)).sum := by
              rw [RBuf.weight, RBuf.unread, hnone, List.nil_append]
            exact ⟨by rw [hrest, hweight]; exact hle, fun h => absurd rfl h, rfl, rfl⟩
        · next w rest hread =>
            rw [hread] at hlt
            have hlt := hlt (Nat.succ_ne_zero w)
            have hempty : (b.data ++ [w + 1]).drop (b.rptr + 1) = [] := by
              rw [List.drop_eq_nil_iff, List.length_append, List.length_singleton]
              exact Nat.succ_le_succ (List.getElem?_eq_none_iff.mp hget)
            have hrest : ({ b with data := b.data ++ [w + 1], input := rest,
                                   sum := b.sum + sampleValue (w + 1),
                                   rptr := b.rptr + 1 } : RBuf).weight cost =
                (rest.map (· + cost)).sum := by
              rw [RBuf.weight, RBuf.unread]
              dsimp only
              rw [hempty, List.nil_append]
            dsimp only at hlt ⊢
            exact ⟨by omega, fun _ => by omega, rfl, rfl⟩
      · exact ⟨Nat.le_refl _, fun h => absurd rfl h, rfl, rfl⟩

/-- A pulse and a space are taken alike: the next sample is fetched, and turned down unless
it is of the right kind. -/
theorem nextSample_weight (cost : ℕ) (b : RBuf) (maxusec : ℤ) (refuses : ℕ → Bool)
    {len : ℕ → ℕ} (hlen : ∀ w, len w ≤ w) :
    let fetched := getNextRecBuffer b maxusec
    let out : ℤ × RBuf :=
      if fetched.1 = 0 then (0, fetched.2) else if refuses fetched.1 then (0, fetched.2)
      else (len fetched.1, fetched.2)
    out.2.weight cost ≤ b.weight cost ∧
      (out.1 ≠ 0 → 0 < out.1 ∧ out.2.weight cost + (out.1.toNat + cost) ≤ b.weight cost) ∧
      out.2.pendingp = b.pendingp ∧ out.2.pendings = b.pendings := by
  intro fetched out
  obtain ⟨hle, hlt, hpending⟩ := getNextRecBuffer_weight cost b maxusec
  dsimp only [out]
  split
  · exact ⟨hle, fun h => absurd rfl h, hpending⟩
  · next hne =>
      split
      · exact ⟨hle, fun h => absurd rfl h, hpending⟩
      · refine ⟨hle, fun h => ?_, hpending⟩
        have hw := hlen fetched.1
        have hrest := hlt hne
        dsimp only [fetched] at h hw hrest ⊢
        omega

theorem getNextPulse_weight (cost : ℕ) (b : RBuf) (maxusec : ℤ) :
    (getNextPulse b maxusec).2.weight cost ≤ b.weight cost ∧
      ((getNextPulse b maxusec).1 ≠ 0 →
        0 < (getNextPulse b maxusec).1 ∧
          (getNextPulse b maxusec).2.weight cost + ((getNextPulse b maxusec).1.toNat + cost) ≤
            b.weight cost) ∧
      (getNextPulse b maxusec).2.pendingp = b.pendingp ∧
      (getNextPulse b maxusec).2.pendings = b.pendings :=
  nextSample_weight cost b maxusec (fun w => !isPulse w) fun _ => Nat.and_le_left

theorem getNextSpace_weight (cost : ℕ) (b : RBuf) (maxusec : ℤ) :
    (getNextSpace b maxusec).2.weight cost ≤ b.weight cost ∧
      ((getNextSpace b maxusec).1 ≠ 0 →
        0 < (getNextSpace b maxusec).1 ∧
          (getNextSpace b maxusec).2.weight cost + ((getNextSpace b maxusec).1.toNat + cost) ≤
            b.weight cost) ∧
      (getNextSpace b maxusec).2.pendingp = b.pendingp ∧
      (getNextSpace b maxusec).2.pendings = b.pendings :=
  nextSample_weight cost b maxusec (fun w => !isSpace w) fun _ => Nat.le_refl _

end

/-! ### The rounds -/

section

variable (hw : Hardware) (r : IrRemote) (bits parityBit : ℕ) (base stop maxSpace maxPulse : ℤ)

/-- A round of the loop; the result is that of the function behind it. -/
def serialBody (x : SerialState × RBuf) : SerialState × RBuf ⊕ IrCode × RBuf :=
  if x.1.received < bits ∨ x.1.stopBit then
    match serialRound hw r bits parityBit base stop maxSpace maxPulse x.1 x.2 with
    | (none, b) => .inr (noCode, b)
    | (some s, b) => .inl (s, b)
  else
    let b := if x.1.gapDelta ≠ 0 then ungetRecBufferDelta x.2 x.1.gapDelta else x.2
    .inr (x.1.code, { b with pendingp := 0, pendings := 0 })

/-- The bits up to the end of the byte. -/
def bitsLeft (s : SerialState) : ℕ := byteBits r parityBit - s.received % byteBits r parityBit

/-- Whether the ones are odd after so many more bits of a level. -/
def oddAfter (odd level : Bool) (n : ℕ) : Bool := odd ^^ (level && n % 2 == 1)

/-- The stop bit is awaited on a level whose bits take no time: there is time left
in the sample, nothing is pending there, and the parity of such bits fits. -/
structure Stalled (x : SerialState × RBuf) : Prop where
  awaited : x.1.stopBit = true
  left : x.1.delta ≠ 0
  pending : levelPending x.1 x.2 = 0
  noTime : levelBit r x.1 < 0 ∧ (0 < x.1.delta ∨ expect hw r x.1.delta 0 = true) ∨
    levelBit r x.1 = 0 ∧ 0 < x.1.delta ∧ expect hw r x.1.delta 0 = false
  stop : x.1.space = true → stop = 0
  parity : ParityFits r.parity (oddAfter x.1.parity x.1.space (bitsLeft r parityBit x.1))
  parities : ParityFits r.parity (oddAfter false x.1.space (byteBits r parityBit))

end

section

variable {hw : Hardware} {r : IrRemote} {bits parityBit : ℕ} {base stop maxSpace maxPulse : ℤ}
  {s s' s₁ : SerialState} {b b' b₁ : RBuf}

theorem getSerialLoop_succ (n : ℕ) :
    getSerialLoop hw r bits parityBit base stop maxSpace maxPulse (n + 1) s b =
      match serialBody hw r bits parityBit base stop maxSpace maxPulse (s, b) with
      | .inl y => getSerialLoop hw r bits parityBit base stop maxSpace maxPulse n y.1 y.2
      | .inr out => out := by
  rw [getSerialLoop, serialBody]
  dsimp only
  split
  · generalize serialRound hw r bits parityBit base stop maxSpace maxPulse s b = next
    obtain ⟨_ | s', b'⟩ := next <;> rfl
  · rfl

/-- The loop makes the rounds of `getSerialLoop`. -/
theorem getSerialLoop_of_runFor {n : ℕ} {out : IrCode × RBuf}
    (h : runFor (serialBody hw r bits parityBit base stop maxSpace maxPulse) n (s, b) =
      some out) :
    getSerialLoop hw r bits parityBit base stop maxSpace maxPulse n s b = out := by
  induction n generalizing s b with
  | zero => exact absurd h nofun
  | succ n ih =>
      rw [runFor] at h
      rw [getSerialLoop_succ]
      cases hbody : serialBody hw r bits parityBit base stop maxSpace maxPulse (s, b) with
      | inl y =>
          rw [hbody] at h
          exact ih h
      | inr out' =>
          rw [hbody] at h
          exact Option.some.inj h

/-- A sample that is read changes nothing else. -/
theorem serialLoad_same
    (hload : serialLoad r bits parityBit maxSpace maxPulse s b = (s₁, b₁)) :
    s₁.received = s.received ∧ s₁.stopBit = s.stopBit := by
  rw [serialLoad] at hload
  split at hload
  · obtain ⟨rfl, -⟩ := Prod.mk.inj hload
    exact ⟨rfl, rfl⟩
  · obtain ⟨rfl, -⟩ := Prod.mk.inj hload
    exact ⟨rfl, rfl⟩

/-- What is loaded is a sample, or the open end of the signal on a space. -/
theorem serialLoad_spec (cost : ℕ) (hzero : s.delta = 0)
    (hload : serialLoad r bits parityBit maxSpace maxPulse s b = (s₁, b₁)) (hne : s₁.delta ≠ 0) :
    s₁ = { s with delta := s₁.delta, origdelta := s₁.delta } ∧
      b₁.pendingp = b.pendingp ∧ b₁.pendings = b.pendings ∧
      (0 < s₁.delta ∧ b₁.weight cost + (s₁.delta.toNat + cost) ≤ b.weight cost ∨
        s.space = true ∧ s₁.delta = maxSpace ∧ b₁.weight cost ≤ b.weight cost) := by
  rw [serialLoad, if_pos hzero] at hload
  have hpulse := getNextPulse_weight cost b maxPulse
  have hspace := getNextSpace_weight cost b maxSpace
  cases hlevel : s.space with
  | false =>
      rw [hlevel, if_neg Bool.false_ne_true] at hload
      revert hpulse hload
      obtain ⟨d, b₂⟩ := getNextPulse b maxPulse
      rintro hload ⟨hle, hlt, hp, hs⟩
      obtain ⟨rfl, rfl⟩ := Prod.mk.inj hload
      dsimp only at hle hlt hp hs hne ⊢
      rw [if_neg (by simp)] at hne ⊢
      exact ⟨rfl, hp, hs, .inl (hlt hne)⟩
  | true =>
      rw [hlevel, if_pos rfl] at hload
      revert hspace hload
      obtain ⟨d, b₂⟩ := getNextSpace b maxSpace
      rintro hload ⟨hle, hlt, hp, hs⟩
      obtain ⟨rfl, rfl⟩ := Prod.mk.inj hload
      dsimp only at hle hlt hp hs hne ⊢
      refine ⟨rfl, hp, hs, ?_⟩
      split
      · exact .inr ⟨rfl, rfl, hle⟩
      · next hopen =>
          rw [if_neg hopen] at hne
          exact .inl (hlt hne)

/-- A round fails that finds no sample. -/
theorem serialRound_of_zero (hload : serialLoad r bits parityBit maxSpace maxPulse s b = (s₁, b₁))
    (hzero : s₁.delta = 0) :
    serialRound hw r bits parityBit base stop maxSpace maxPulse s b = (none, b₁) := by
  have hround : serialRound hw r bits parityBit base stop maxSpace maxPulse s b =
      if (serialLoad r bits parityBit maxSpace maxPulse s b).1.delta = 0 then
        (none, (serialLoad r bits parityBit maxSpace maxPulse s b).2)
      else serialTake hw r parityBit base stop
        (serialLoad r bits parityBit maxSpace maxPulse s b).1
        (serialLoad r bits parityBit maxSpace maxPulse s b).2 := rfl
  rw [hround, hload, if_pos hzero]

theorem serialBody_inl
    (h : serialBody hw r bits parityBit base stop maxSpace maxPulse (s, b) = .inl (s', b')) :
    (s.received < bits ∨ s.stopBit = true) ∧
      ∃ s₁ b₁, serialLoad r bits parityBit maxSpace maxPulse s b = (s₁, b₁) ∧ s₁.delta ≠ 0 ∧
        TakeStep hw r parityBit base stop s₁ b₁ s' b' := by
  rw [serialBody] at h
  dsimp only at h
  split at h
  · next hgo =>
      refine ⟨hgo, ?_⟩
      cases hload : serialLoad r bits parityBit maxSpace maxPulse s b with
      | mk s₁ b₁ =>
          by_cases hne : s₁.delta = 0
          · rw [serialRound_of_zero hload hne] at h
            nomatch h
          · refine ⟨s₁, b₁, rfl, hne, ?_⟩
            rw [serialRound_eq hw r hload hne] at h
            split at h
            · nomatch h
            · next s₂ b₂ htake =>
                obtain ⟨rfl, rfl⟩ := Prod.mk.inj (Sum.inl.inj h)
                exact takeStep_iff.mp htake
  · nomatch h

theorem serialBody_of_take (hgo : s.received < bits ∨ s.stopBit = true) (hne : s.delta ≠ 0)
    (h : TakeStep hw r parityBit base stop s b s' b') :
    serialBody hw r bits parityBit base stop maxSpace maxPulse (s, b) = .inl (s', b') := by
  have hload : serialLoad r bits parityBit maxSpace maxPulse s b = (s, b) := by
    rw [serialLoad, if_neg hne]
  rw [serialBody, if_pos hgo]
  dsimp only
  rw [serialRound_eq hw r hload hne, takeStep_iff.mpr h]

/-! ### The trap -/

theorem bitsLeft_of_bit (hw : 0 < byteBits r parityBit)
    (hbyte : (s.received + 1) % byteBits r parityBit ≠ 0)
    (hnext : s'.received = s.received + 1) :
    bitsLeft r parityBit s = bitsLeft r parityBit s' + 1 := by
  have hlt := Nat.mod_lt s.received hw
  have hsucc : (s.received + 1) % byteBits r parityBit =
      s.received % byteBits r parityBit + 1 := by
    rw [← Nat.mod_add_mod]
    refine Nat.mod_eq_of_lt ?_
    rw [← Nat.mod_add_mod] at hbyte
    have hne : s.received % byteBits r parityBit + 1 ≠ byteBits r parityBit := by
      intro heq
      rw [heq, Nat.mod_self] at hbyte
      exact hbyte rfl
    omega
  rw [bitsLeft, bitsLeft, hnext, hsucc]
  rw [hsucc] at hbyte
  have hlt' := Nat.mod_lt (s.received + 1) hw
  omega

theorem bitsLeft_of_byte (hw : 0 < byteBits r parityBit)
    (hbyte : (s.received + 1) % byteBits r parityBit = 0) : bitsLeft r parityBit s = 1 := by
  have hlt := Nat.mod_lt s.received hw
  have heq : s.received % byteBits r parityBit + 1 = byteBits r parityBit := by
    rw [← Nat.mod_add_mod] at hbyte
    have hle := Nat.le_of_dvd (Nat.succ_pos _) (Nat.dvd_of_mod_eq_zero hbyte)
    omega
  rw [bitsLeft]
  omega

theorem bitsLeft_of_start (hbyte : s.received % byteBits r parityBit = 0) :
    bitsLeft r parityBit s = byteBits r parityBit := by
  rw [bitsLeft, hbyte, Nat.sub_zero]

theorem oddAfter_succ (odd level : Bool) (n : ℕ) :
    oddAfter odd level (n + 1) = oddAfter (odd ^^ level) level n := by
  have hparity : ((n + 1) % 2 == 1) = !(n % 2 == 1) := by
    obtain h | h := Nat.mod_two_eq_zero_or_one n
    · rw [Nat.add_mod, h]
      rfl
    · rw [Nat.add_mod, h]
      rfl
  rw [oddAfter, oddAfter, hparity]
  cases odd <;> cases level <;> cases n % 2 == 1 <;> rfl

theorem oddAfter_one (odd level : Bool) : oddAfter odd level 1 = (odd ^^ level) := by
  cases odd <;> cases level <;> rfl

theorem nextLevel_of_ne {delta : ℤ} (h : delta ≠ 0) : nextLevel s delta = s.space := if_neg h

theorem nextLevel_of_zero : nextLevel s 0 = !s.space := if_pos rfl

theorem behindPending_of_expect (h : expect hw r s.delta (levelPending s b) = true) :
    behindPending hw r s b = 0 := if_pos h

theorem behindPending_of_not (h : expect hw r s.delta (levelPending s b) = false) :
    behindPending hw r s b = s.delta - levelPending s b := if_neg (ne_true_of_eq_false h)

/-- What is left of the sample in the trap, in front of the bit and behind it. -/
theorem Stalled.left_pos (h : Stalled hw r parityBit stop (s, b)) :
    levelBit r s < behindPending hw r s b ∧
      0 < behindPending hw r s b - levelBit r s ∧
      (levelBit r s = 0 → behindPending hw r s b = s.delta) := by
  have hpending : levelPending s b = 0 := h.pending
  obtain ⟨hneg, htime⟩ | ⟨hzero, hpos, hnot⟩ := h.noTime
  · dsimp only at hneg htime
    cases hexpect : expect hw r s.delta 0 with
    | true =>
        have hbehind : behindPending hw r s b = 0 :=
          behindPending_of_expect (by rw [hpending]; exact hexpect)
        rw [hbehind]
        exact ⟨hneg, by omega, fun h => by omega⟩
    | false =>
        have hbehind : behindPending hw r s b = s.delta - levelPending s b :=
          behindPending_of_not (by rw [hpending]; exact hexpect)
        have hdelta : 0 < s.delta := htime.resolve_right (by rw [hexpect]; exact nofun)
        rw [hbehind, hpending]
        exact ⟨by omega, by omega, fun h => by omega⟩
  · dsimp only at hzero hpos hnot
    have hbehind : behindPending hw r s b = s.delta - levelPending s b :=
      behindPending_of_not (by rw [hpending]; exact hnot)
    rw [hbehind, hpending, hzero]
    exact ⟨by omega, by omega, fun _ => by omega⟩

/-- A bit that takes no time leaves the decoder in the trap. -/
theorem Stalled.next (h : Stalled hw r parityBit stop (s, b)) {s' : SerialState} {b' : RBuf}
    (hdelta : s'.delta = behindPending hw r s b - levelBit r s) (hspace : s'.space = s.space)
    (hstop : s'.stopBit = true) (hpending : levelPending s' b' = 0)
    (hparity : ParityFits r.parity (oddAfter s'.parity s.space (bitsLeft r parityBit s'))) :
    Stalled hw r parityBit stop (s', b') := by
  obtain ⟨-, hpos, hsame⟩ := h.left_pos
  have hbit : levelBit r s' = levelBit r s := by rw [levelBit, levelBit, hspace]
  refine ⟨hstop, ?_, hpending, ?_, ?_, ?_, ?_⟩
  · show s'.delta ≠ 0
    omega
  · dsimp only
    rw [hbit, hdelta]
    obtain ⟨hneg, -⟩ | ⟨hzero, hdelta', hnot⟩ := h.noTime
    · exact .inl ⟨hneg, .inl hpos⟩
    · have hrest : behindPending hw r s b - levelBit r s = s.delta := by
        rw [hsame hzero, hzero, sub_zero]
      rw [hrest]
      exact .inr ⟨hzero, hdelta', hnot⟩
  · show s'.space = true → stop = 0
    rw [hspace]
    exact h.stop
  · show ParityFits r.parity (oddAfter s'.parity s'.space (bitsLeft r parityBit s'))
    rwa [hspace]
  · show ParityFits r.parity (oddAfter false s'.space (byteBits r parityBit))
    rw [hspace]
    exact h.parities

/-- In the trap a bit is taken in every round. -/
theorem Stalled.round (hbyte : 0 < byteBits r parityBit) {x : SerialState × RBuf}
    (h : Stalled hw r parityBit stop x) :
    ∃ x', serialBody hw r bits parityBit base stop maxSpace maxPulse x = .inl x' ∧
      Stalled hw r parityBit stop x' := by
  obtain ⟨s, b⟩ := x
  have hpending : levelPending s b = 0 := h.pending
  have hgo : s.received < bits ∨ s.stopBit = true := .inr h.awaited
  obtain ⟨hlt, hpos, -⟩ := h.left_pos
  have hfits : expect hw r s.delta (levelPending s b) = true ∨ levelPending s b < s.delta := by
    rw [hpending]
    obtain ⟨-, hpos | hexpect⟩ | ⟨-, hpos, -⟩ := h.noTime
    · exact .inr hpos
    · exact .inl hexpect
    · exact .inr hpos
  have hbit : FitsBit hw r s (behindPending hw r s b) := .inl hlt
  have hbehind : behindBit r s (behindPending hw r s b) =
      behindPending hw r s b - levelBit r s := by
    rw [behindBit, if_neg (not_lt.mpr hlt.le)]
  have hne : behindBit r s (behindPending hw r s b) ≠ 0 := by omega
  have hlevel := @nextLevel_of_ne s _ hne
  by_cases hend : (s.received + 1) % byteBits r parityBit = 0
  · have hparity : ParityFits r.parity (s.parity ^^ s.space) := by
      have hparity := h.parity
      dsimp only at hparity
      rwa [bitsLeft_of_byte hbyte hend, oddAfter_one] at hparity
    refine ⟨_, serialBody_of_take hgo h.left
      (.byte hpending.le hfits hbit hend hparity fun _ => hne), ?_⟩
    refine h.next hbehind hlevel rfl ?_ ?_
    · show (if nextLevel s (behindBit r s (behindPending hw r s b)) then stop else b.pendingp) = 0
      rw [hlevel]
      rw [levelPending] at hpending
      split
      · next hspace => exact h.stop hspace
      · next hspace => rwa [if_neg hspace] at hpending
    · rw [bitsLeft_of_start hend]
      exact h.parities
  · refine ⟨_, serialBody_of_take hgo h.left (.bit hpending.le hfits hbit hend), ?_⟩
    refine h.next hbehind hlevel h.awaited ?_ ?_
    · show (if nextLevel s (behindBit r s (behindPending hw r s b)) then b.pendings
        else b.pendingp) = 0
      rw [hlevel]
      exact hpending
    · rw [← oddAfter_succ, ← bitsLeft_of_bit hbyte hend rfl]
      exact h.parity

end

/-! ### The rank -/

instance decidableParityFits : (parity : Parity) → (odd : Bool) → Decidable (ParityFits parity odd)
  | .none, _ => .isTrue trivial
  | .even, odd => inferInstanceAs (Decidable (odd = false))
  | .odd, odd => inferInstanceAs (Decidable (odd = true))

section

variable (r : IrRemote) (parityBit : ℕ) (maxSpace : ℤ)

/-- A bound on the rounds that are made of a sample. -/
def sampleRank (s : SerialState) (b : RBuf) : ℕ :=
  if 0 < levelPending s b then
    if s.stopBit then 0 else s.delta.toNat + 4 * byteBits r parityBit + 3
  else if 0 < levelBit r s then s.delta.toNat + 1
  else
    (if s.stopBit then 0 else 2 * byteBits r parityBit) +
      (if ParityFits r.parity (oddAfter s.parity s.space (bitsLeft r parityBit s)) then
        byteBits r parityBit else 0) + bitsLeft r parityBit s + 1

/-- A bound on the rounds from a space on that is not read yet. -/
def spaceRank : ℕ := maxSpace.natAbs + 4 * byteBits r parityBit + 6

/-- A bound on the rounds that the loop still makes. -/
def serialRank (x : SerialState × RBuf) : ℕ :=
  x.2.weight (serialCost (byteBits r parityBit) maxSpace) +
    if x.1.delta = 0 then if x.1.space then spaceRank r parityBit maxSpace else 0
    else if x.1.space then sampleRank r parityBit x.1 x.2 + 1
    else spaceRank r parityBit maxSpace + sampleRank r parityBit x.1 x.2 + 1

/-- Nothing that is pending is negative. -/
def PendingNonneg (b : RBuf) : Prop := 0 ≤ b.pendingp ∧ 0 ≤ b.pendings

end

section

variable {hw : Hardware} {r : IrRemote} {bits parityBit : ℕ} {base stop maxSpace maxPulse : ℤ}
  {s s' s₁ : SerialState} {b b' b₁ : RBuf}

theorem PendingNonneg.level (h : PendingNonneg b) : 0 ≤ levelPending s b := by
  rw [levelPending]
  split
  · exact h.2
  · exact h.1

theorem TakeStep.pendingNonneg (h : TakeStep hw r parityBit base stop s b s' b')
    (hbase : 0 ≤ base) (hstop : 0 ≤ stop) (hb : PendingNonneg b) : PendingNonneg b' := by
  cases h with
  | stop => exact ⟨hbase, le_refl 0⟩
  | pending => exact ⟨le_refl 0, le_refl 0⟩
  | bit => exact hb
  | byte => exact ⟨hb.1, hstop⟩
  | rest => exact hb

theorem TakeStep.weight (h : TakeStep hw r parityBit base stop s b s' b') (cost : ℕ) :
    b'.weight cost = b.weight cost := by
  cases h <;> rfl

theorem bitsLeft_le (s : SerialState) : bitsLeft r parityBit s ≤ byteBits r parityBit :=
  Nat.sub_le _ _

/-- Behind a sample that is used up the level changes. -/
theorem TakeStep.space_of_zero (h : TakeStep hw r parityBit base stop s b s' b')
    (hzero : s'.delta = 0) (hspace : s.space = true) : s'.space = false := by
  cases h with
  | stop => rfl
  | pending | bit | byte =>
      dsimp only at hzero ⊢
      rw [hzero, nextLevel_of_zero, hspace]
      rfl
  | rest =>
      dsimp only
      rw [hspace]
      rfl

theorem TakeStep.space_of_ne (h : TakeStep hw r parityBit base stop s b s' b')
    (hne : s'.delta ≠ 0) : s'.space = s.space := by
  cases h with
  | stop => exact absurd rfl hne
  | pending | bit | byte => exact nextLevel_of_ne hne
  | rest => exact absurd rfl hne

/-- A pending part that leaves something of the sample takes its own length. -/
theorem behindPending_lt
    (hfits : expect hw r s.delta (levelPending s b) = true ∨ levelPending s b < s.delta)
    (hne : behindPending hw r s b ≠ 0) :
    behindPending hw r s b = s.delta - levelPending s b ∧ levelPending s b < s.delta := by
  cases hexpect : expect hw r s.delta (levelPending s b) with
  | true => exact absurd (behindPending_of_expect hexpect) hne
  | false =>
      exact ⟨behindPending_of_not hexpect, hfits.resolve_left (by rw [hexpect]; exact nofun)⟩

/-- A bit that leaves something of the sample takes its own length. -/
theorem behindBit_lt {left : ℤ} (hbit : 0 < levelBit r s) (hne : behindBit r s left ≠ 0) :
    0 < behindBit r s left ∧ behindBit r s left < left := by
  rw [behindBit] at hne ⊢
  split
  · next hlt =>
      rw [if_pos hlt, sub_self] at hne
      exact absurd rfl hne
  · next hlt =>
      rw [if_neg hlt] at hne
      omega

theorem sampleRank_le (hbit : s'.delta ≤ s.delta ∨ ¬0 < levelBit r s')
    (hpending : 0 < levelPending s' b' → s'.stopBit = true) :
    sampleRank r parityBit s' b' ≤ s.delta.toNat + 4 * byteBits r parityBit + 2 := by
  have hleft := @bitsLeft_le r parityBit s'
  rw [sampleRank]
  split
  · next hpos =>
      rw [if_pos (hpending hpos)]
      exact Nat.zero_le _
  · split
    · next hlevel =>
        have hle := hbit.resolve_right (not_not.mpr hlevel)
        omega
    · split <;> split <;> omega

theorem levelPending_of_space (hspace : s'.space = s.space) :
    levelPending s' b = levelPending s b := by
  rw [levelPending, levelPending, hspace]

theorem levelBit_of_space (hspace : s'.space = s.space) : levelBit r s' = levelBit r s := by
  rw [levelBit, levelBit, hspace]

/-- What bits of some length leave is less than the sample. -/
theorem behindBit_lt_delta (hb : PendingNonneg b) (hbit : 0 < levelBit r s)
    (hfits : expect hw r s.delta (levelPending s b) = true ∨ levelPending s b < s.delta)
    (hne : behindBit r s (behindPending hw r s b) ≠ 0) :
    0 < behindBit r s (behindPending hw r s b) ∧
      behindBit r s (behindPending hw r s b) < s.delta := by
  obtain ⟨hpos, hlt⟩ := behindBit_lt hbit hne
  obtain ⟨heq, -⟩ := behindPending_lt hfits (ne_of_gt (hpos.trans hlt))
  have hpending := hb.level (s := s)
  exact ⟨hpos, by omega⟩

/-- A bit has no length, or it is taken off the sample. -/
def BitTaken (hw : Hardware) (r : IrRemote) (s s' : SerialState) : Prop :=
  (0 < levelBit r s → 0 < s'.delta ∧ s'.delta < s.delta) ∧
    (levelBit r s < 0 → 0 < s.delta ∨ expect hw r s.delta 0 = true) ∧
    (levelBit r s = 0 → 0 < s.delta ∧ expect hw r s.delta 0 = false)

/-- The rounds that leave something of a sample. -/
inductive SampleLeft (hw : Hardware) (r : IrRemote) (parityBit : ℕ) (stop : ℤ) (s : SerialState)
    (b : RBuf) (s' : SerialState) (b' : RBuf) : Prop
  | pending (hpending : 0 < levelPending s b) (hstop : s.stopBit = false)
      (hlt : s'.delta < s.delta) (hnext : levelPending s' b' = 0)
  | bit (hpending : levelPending s b = 0) (htaken : BitTaken hw r s s')
      (hbyte : (s.received + 1) % byteBits r parityBit ≠ 0)
      (hreceived : s'.received = s.received + 1) (hparity : s'.parity = (s.parity ^^ s.space))
      (hstop : s'.stopBit = s.stopBit) (hnext : levelPending s' b' = 0)
  | byte (hpending : levelPending s b = 0) (htaken : BitTaken hw r s s')
      (hbyte : (s.received + 1) % byteBits r parityBit = 0)
      (hreceived : s'.received = s.received + 1)
      (hfits : ParityFits r.parity (s.parity ^^ s.space)) (hparity : s'.parity = false)
      (hstop : s'.stopBit = true)
      (hnext : levelPending s' b' = if s.space then stop else 0)

theorem bitTaken (hb : PendingNonneg b) (hle : levelPending s b ≤ 0)
    (hfits : expect hw r s.delta (levelPending s b) = true ∨ levelPending s b < s.delta)
    (hne : behindBit r s (behindPending hw r s b) ≠ 0)
    (hdelta : s'.delta = behindBit r s (behindPending hw r s b)) : BitTaken hw r s s' := by
  have hzero : levelPending s b = 0 := le_antisymm hle hb.level
  refine ⟨fun hbit => ?_, fun hbit => ?_, fun hbit => ?_⟩
  · rw [hdelta]
    exact behindBit_lt_delta hb hbit hfits hne
  · rw [hzero] at hfits
    exact hfits.symm
  · -- nothing would be left of a sample that is as good as none
    rw [hzero] at hfits
    cases hexpect : expect hw r s.delta 0 with
    | true =>
        have hbehind : behindPending hw r s b = 0 :=
          behindPending_of_expect (by rw [hzero]; exact hexpect)
        rw [hbehind, behindBit, hbit, if_neg (lt_irrefl 0), sub_self] at hne
        exact absurd rfl hne
    | false => exact ⟨hfits.resolve_left (by rw [hexpect]; exact nofun), rfl⟩

theorem TakeStep.sampleLeft (h : TakeStep hw r parityBit base stop s b s' b') (hb : PendingNonneg b)
    (hne : s'.delta ≠ 0) : SampleLeft hw r parityBit stop s b s' b' := by
  cases h with
  | stop => exact absurd rfl hne
  | pending hpos hfits hstop =>
      obtain ⟨heq, hlt⟩ := behindPending_lt hfits hne
      refine .pending hpos hstop ?_ ?_
      · show behindPending hw r s b < s.delta
        omega
      · rw [levelPending]
        split <;> rfl
  | bit hle hfits hbit hbyte =>
      have hzero : levelPending s b = 0 := le_antisymm hle hb.level
      refine .bit hzero (bitTaken hb hle hfits hne rfl) hbyte rfl rfl rfl ?_
      rw [levelPending_of_space (nextLevel_of_ne hne)]
      exact hzero
  | byte hle hfits hbit hbyte hparity =>
      have hzero : levelPending s b = 0 := le_antisymm hle hb.level
      refine .byte hzero (bitTaken hb hle hfits hne rfl) hbyte rfl hparity rfl rfl ?_
      rw [levelPending_of_space (nextLevel_of_ne hne), levelPending]
      rw [levelPending] at hzero
      split
      · rfl
      · next hspace => rwa [if_neg hspace] at hzero
  | rest => exact absurd rfl hne

/-- What a round leaves of a sample that has just been read. -/
theorem TakeStep.sampleRank_le (h : TakeStep hw r parityBit base stop s b s' b')
    (hb : PendingNonneg b) (hne : s'.delta ≠ 0) :
    sampleRank r parityBit s' b' ≤ s.delta.toNat + 4 * byteBits r parityBit + 2 := by
  have hbit := @levelBit_of_space r s s' (h.space_of_ne hne)
  have htaken : BitTaken hw r s s' → s'.delta ≤ s.delta ∨ ¬0 < levelBit r s' := by
    intro htaken
    rw [hbit, or_iff_not_imp_right, not_not]
    exact fun hpos => (htaken.1 hpos).2.le
  cases h.sampleLeft hb hne with
  | pending hpending hstop hlt hnext =>
      exact Lirc.sampleRank_le (.inl hlt.le) fun hpos => absurd hnext hpos.ne'
  | bit hpending htaken' hbyte hreceived hparity hstop hnext =>
      exact Lirc.sampleRank_le (htaken htaken') fun hpos => absurd hnext hpos.ne'
  | byte hpending htaken' hbyte hreceived hfits hparity hstop hnext =>
      exact Lirc.sampleRank_le (htaken htaken') fun _ => hstop

/-- A round lowers the rank of a sample outside of the trap. -/
theorem TakeStep.sampleRank_lt (h : TakeStep hw r parityBit base stop s b s' b')
    (hbyte : 0 < byteBits r parityBit) (hb : PendingNonneg b) (hstop : 0 ≤ stop)
    (hfree : ¬Stalled hw r parityBit stop (s, b)) (hsome : s.delta ≠ 0) (hne : s'.delta ≠ 0) :
    sampleRank r parityBit s' b' < sampleRank r parityBit s b := by
  have hspace := h.space_of_ne hne
  have hbit := @levelBit_of_space r s s' hspace
  cases h.sampleLeft hb hne with
  | pending hpending hstop' hlt hnext =>
      have hle := @Lirc.sampleRank_le r parityBit s s' b' (.inl hlt.le)
        fun hpos => absurd hnext hpos.ne'
      rw [sampleRank.eq_def r parityBit s b, if_pos hpending, hstop', if_neg Bool.false_ne_true]
      omega
  | bit hpending htaken hend hreceived hparity hstop' hnext =>
      rw [sampleRank, sampleRank, hpending, hnext, if_neg (lt_irrefl 0), if_neg (lt_irrefl 0), hbit]
      split
      · next hpos =>
          have hlt := htaken.1 hpos
          omega
      · rw [hstop', hspace, hparity, ← oddAfter_succ, ← bitsLeft_of_bit hbyte hend hreceived]
        have hleft := bitsLeft_of_bit hbyte hend hreceived
        omega
  | byte hpending htaken hend hreceived hfits hparity hstop' hnext =>
      have hrank : sampleRank r parityBit s b =
          if 0 < levelBit r s then s.delta.toNat + 1
          else (if s.stopBit then 0 else 2 * byteBits r parityBit) + byteBits r parityBit + 2 := by
        rw [sampleRank, hpending, if_neg (lt_irrefl 0), bitsLeft_of_byte hbyte hend, oddAfter_one,
          if_pos hfits]
      have hrank' : sampleRank r parityBit s' b' =
          if 0 < if s.space then stop else 0 then 0
          else if 0 < levelBit r s then s'.delta.toNat + 1
          else (if ParityFits r.parity (oddAfter false s.space (byteBits r parityBit)) then
            byteBits r parityBit else 0) + byteBits r parityBit + 1 := by
        rw [sampleRank, hnext, hstop', hbit, hparity, hspace,
          bitsLeft_of_start (by rw [hreceived]; exact hend)]
        simp only [if_true, Nat.zero_add]
      rw [hrank, hrank']
      by_cases hpositive : 0 < if s.space then stop else 0
      · rw [if_pos hpositive]
        split <;> omega
      · rw [if_neg hpositive]
        by_cases hpos : 0 < levelBit r s
        · have hlt := htaken.1 hpos
          rw [if_pos hpos, if_pos hpos]
          omega
        · rw [if_neg hpos, if_neg hpos]
          cases hawaited : s.stopBit with
          | false =>
              rw [if_neg Bool.false_ne_true]
              split <;> omega
          | true =>
              -- bits that take no time are taken only for lack of the parity
              have hodd : ¬ParityFits r.parity (oddAfter false s.space (byteBits r parityBit)) := by
                intro hparities
                refine hfree ⟨hawaited, hsome, hpending, ?_, fun hlevel => ?_, ?_, hparities⟩
                · obtain hneg | hzero := lt_or_eq_of_le (not_lt.mp hpos)
                  · exact .inl ⟨hneg, htaken.2.1 hneg⟩
                  · exact .inr ⟨hzero, htaken.2.2 hzero⟩
                · have hlevel : s.space = true := hlevel
                  rw [if_pos hlevel] at hpositive
                  exact le_antisymm (not_lt.mp hpositive) hstop
                · show ParityFits r.parity (oddAfter s.parity s.space (bitsLeft r parityBit s))
                  rwa [bitsLeft_of_byte hbyte hend, oddAfter_one]
              rw [if_pos rfl, if_neg hodd]
              omega

/-- A round lowers the rank outside of the trap. -/
theorem serialRank_lt (hbyte : 0 < byteBits r parityBit) (hstop : 0 ≤ stop)
    (hb : PendingNonneg b) (hfree : ¬Stalled hw r parityBit stop (s, b))
    (h : serialBody hw r bits parityBit base stop maxSpace maxPulse (s, b) = .inl (s', b')) :
    serialRank r parityBit maxSpace (s', b') < serialRank r parityBit maxSpace (s, b) := by
  obtain ⟨-, s₁, b₁, hload, hsome, htake⟩ := serialBody_inl h
  by_cases hzero : s.delta = 0
  · obtain ⟨hs₁, hp, hs, hread⟩ :=
      serialLoad_spec (serialCost (byteBits r parityBit) maxSpace) hzero hload hsome
    have hlevel : s₁.space = s.space := by rw [hs₁]
    have hb₁ : PendingNonneg b₁ := ⟨by rw [hp]; exact hb.1, by rw [hs]; exact hb.2⟩
    have hweight := htake.weight (serialCost (byteBits r parityBit) maxSpace)
    have hcost : serialCost (byteBits r parityBit) maxSpace =
        maxSpace.natAbs + 8 * byteBits r parityBit + 16 := rfl
    have hspaceRank : spaceRank r parityBit maxSpace =
        maxSpace.natAbs + 4 * byteBits r parityBit + 6 := rfl
    rw [serialRank, serialRank, if_pos hzero]
    dsimp only
    by_cases hend : s'.delta = 0
    · rw [if_pos hend]
      cases hspace : s.space with
      | true =>
          have hnext : s'.space = false := htake.space_of_zero hend (hlevel.trans hspace)
          rw [hnext, if_neg Bool.false_ne_true, if_pos rfl]
          obtain ⟨-, hread⟩ | ⟨-, -, hread⟩ := hread <;> omega
      | false =>
          rw [if_neg Bool.false_ne_true]
          obtain ⟨-, hread⟩ | ⟨hspace', -, -⟩ := hread
          · split <;> omega
          · rw [hspace] at hspace'
            nomatch hspace'
    · have hrank := htake.sampleRank_le hb₁ hend
      have hnext : s'.space = s.space := (htake.space_of_ne hend).trans hlevel
      rw [if_neg hend, hnext]
      cases hspace : s.space with
      | true =>
          rw [if_pos rfl, if_pos rfl]
          obtain ⟨-, hread⟩ | ⟨-, hopen, hread⟩ := hread <;> omega
      | false =>
          rw [if_neg Bool.false_ne_true, if_neg Bool.false_ne_true]
          obtain ⟨-, hread⟩ | ⟨hspace', -, -⟩ := hread
          · omega
          · rw [hspace] at hspace'
            nomatch hspace'
  · have hsame : s₁ = s ∧ b₁ = b := by
      rw [serialLoad, if_neg hzero] at hload
      obtain ⟨rfl, rfl⟩ := Prod.mk.inj hload
      exact ⟨rfl, rfl⟩
    obtain ⟨rfl, rfl⟩ := hsame
    have hweight := htake.weight (serialCost (byteBits r parityBit) maxSpace)
    rw [serialRank, serialRank, if_neg hzero]
    dsimp only
    by_cases hend : s'.delta = 0
    · rw [if_pos hend]
      cases hspace : s₁.space with
      | true =>
          rw [htake.space_of_zero hend hspace, if_neg Bool.false_ne_true, if_pos rfl]
          omega
      | false =>
          rw [if_neg Bool.false_ne_true]
          split <;> omega
    · have hrank := htake.sampleRank_lt hbyte hb hstop hfree hsome hend
      rw [if_neg hend, htake.space_of_ne hend]
      split <;> omega

end

end Lirc
