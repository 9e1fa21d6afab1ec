import Lirc.Transmit
import Mathlib.Algebra.Order.Floor.Ring
import Mathlib.Data.Rat.Floor
import Mathlib.Tactic.Linarith
import Mathlib.Tactic.Ring
import Mathlib.Tactic.NormNum

/-!
`hw_usbirtoy.c`: the samples of a frame as the 16-bit words of the USB IR Toy.
A word counts units of `IRTOY_UNIT` microseconds; 0xffff ends the frame. The
unit is taken as a rational number, and what holds is shown for every unit.
-/

namespace Lirc

/-- `IRTOY_UNIT` -/
def irtoyUnit : ℚ := 213333 / 10000

/-- The conversion of a number with a fraction to `lirc_t`. -/
def truncate (x : ℚ) : ℤ := if 0 ≤ x then ⌊x⌋ else ⌈x⌉

/-- The value that `irtoy_send` computes for a sample. -/
def toyValue (unit : ℚ) (sample : ℤ) : ℤ := truncate (sample / unit)

/-- The two bytes of the value: `val >> 8`, cut to a byte, and `val & 0xFF`. -/
def toyBytes (unit : ℚ) (sample : ℤ) : List UInt8 :=
  [UInt8.ofNat (toyValue unit sample / 256 % 256).toNat,
    UInt8.ofNat (toyValue unit sample % 256).toNat]

/-- What `irtoy_send` puts into `rawSB`. The array has room for `WBUF_SIZE`
samples and the mark of the end; more samples run over it. -/
def encodeSamples (unit : ℚ) (signals : List ℤ) : Option (List UInt8) :=
  if wbufSize < signals.length then none
  else some (signals.flatMap (toyBytes unit) ++ [0xff, 0xff])

/-- The duration that `irtoy_read` makes of two bytes. -/
def toyDuration (unit : ℚ) (hi lo : UInt8) : ℤ :=
  truncate (unit * ((256 * hi.toNat + lo.toNat : ℕ) : ℚ))

/-! ### Words -/

/-- A word with the high byte first. -/
def wordBytes (w : ℕ) : List UInt8 := [UInt8.ofNat (w / 256), UInt8.ofNat (w % 256)]

/-- The duration of a word. -/
def wordDuration (unit : ℚ) (w : ℕ) : ℤ :=
  toyDuration unit (UInt8.ofNat (w / 256)) (UInt8.ofNat (w % 256))

/-- A word stands for a sample: it is neither nothing nor the end of the frame,
and what is read back differs by less than one unit. -/
def StandsFor (unit : ℚ) (sample : ℤ) (w : ℕ) : Prop :=
  1 ≤ w ∧ w ≤ 0xfffe ∧ |(wordDuration unit w - sample : ℚ)| < unit

/-- The bytes of a frame are one word for each sample and the mark of the end. -/
def FrameSurvives (unit : ℚ) (signals : List ℤ) : Prop :=
  ∃ words : List ℕ, encodeSamples unit signals = some (words.flatMap wordBytes ++ [0xff, 0xff]) ∧
    List.Forall₂ (StandsFor unit) signals words

/-- A sample is at least one unit and less than 65535 of them, and what the
division and the multiplication cut off is together less than one unit. -/
def SampleFits (unit : ℚ) (sample : ℤ) : Prop :=
  unit ≤ sample ∧ sample < 65535 * unit ∧
    unit * Int.fract (sample / unit) + Int.fract (unit * ⌊sample / unit⌋) < unit

section Words

variable {unit : ℚ}

theorem toNat_ofNat_of_lt {n : ℕ} (h : n < 256) : (UInt8.ofNat n).toNat = n := by
  rw [UInt8.toNat_ofNat']
  exact Nat.mod_eq_of_lt h

theorem wordBytes_injective {w w' : ℕ} (hw : w < 65536) (hw' : w' < 65536)
    (h : wordBytes w = wordBytes w') : w = w' := by
  obtain ⟨hhi, hrest⟩ := List.cons.inj h
  obtain ⟨hlo, -⟩ := List.cons.inj hrest
  have hhi' := congrArg UInt8.toNat hhi
  have hlo' := congrArg UInt8.toNat hlo
  rw [toNat_ofNat_of_lt (by omega), toNat_ofNat_of_lt (by omega)] at hhi' hlo'
  omega

/-- The bytes of a sample are a word of 16 bits. -/
theorem toyBytes_eq (sample : ℤ) :
    toyBytes unit sample = wordBytes (toyValue unit sample % 65536).toNat := by
  have hhi : (toyValue unit sample / 256 % 256).toNat =
      (toyValue unit sample % 65536).toNat / 256 := by omega
  have hlo : (toyValue unit sample % 256).toNat =
      (toyValue unit sample % 65536).toNat % 256 := by omega
  rw [toyBytes, wordBytes, hhi, hlo]

theorem wordDuration_eq (hunit : 0 < unit) {w : ℕ} (hw : w < 65536) :
    wordDuration unit w = ⌊unit * w⌋ := by
  have hnonneg : 0 ≤ unit * (w : ℚ) := mul_nonneg hunit.le (Nat.cast_nonneg w)
  rw [wordDuration, toyDuration, toNat_ofNat_of_lt (by omega), toNat_ofNat_of_lt (by omega),
    Nat.div_add_mod, truncate, if_pos hnonneg]

theorem toyValue_of_nonneg (hunit : 0 < unit) {sample : ℤ} (h : 0 ≤ sample) :
    toyValue unit sample = ⌊sample / unit⌋ := by
  have hdiv : (0 : ℚ) ≤ sample / unit := div_nonneg (by exact_mod_cast h) hunit.le
  rw [toyValue, truncate, if_pos hdiv]

theorem toyValue_of_neg (hunit : 0 < unit) {sample : ℤ} (h : sample < 0) :
    toyValue unit sample = ⌈sample / unit⌉ := by
  have hdiv : ¬(0 : ℚ) ≤ sample / unit :=
    not_le.mpr (div_neg_of_neg_of_pos (by exact_mod_cast h) hunit)
  rw [toyValue, truncate, if_neg hdiv]

/-- A sample that is kept by its word is a number of whole units up to 65534. -/
theorem StandsFor.range (hunit : 0 < unit) {sample : ℤ}
    (h : StandsFor unit sample (toyValue unit sample % 65536).toNat) :
    unit ≤ sample ∧ (sample : ℚ) < 65535 * unit := by
  obtain ⟨hpos, hmax, hdiff⟩ := h
  have hword : (toyValue unit sample % 65536).toNat < 65536 := by omega
  rw [wordDuration_eq hunit hword, abs_lt] at hdiff
  rcases lt_or_ge sample 0 with hneg | hnonneg
  · -- the duration that is read back is not negative
    exfalso
    have hvalue := toyValue_of_neg hunit hneg
    have hle : toyValue unit sample ≤ -1 := by
      have hzero : toyValue unit sample ≤ 0 := by
        rw [hvalue, Int.ceil_le, Int.cast_zero]
        exact (div_neg_of_neg_of_pos (by exact_mod_cast hneg) hunit).le
      have hne : toyValue unit sample ≠ 0 := by
        intro hzero
        rw [hzero] at hpos
        exact absurd hpos (by decide)
      omega
    have hsample : (sample : ℚ) ≤ -unit := by
      rw [hvalue, Int.ceil_le, div_le_iff₀ hunit] at hle
      push_cast at hle
      linarith
    have hread : (0 : ℚ) ≤ ⌊unit * ((toyValue unit sample % 65536).toNat : ℚ)⌋ := by
      exact_mod_cast Int.floor_nonneg.mpr (mul_nonneg hunit.le (Nat.cast_nonneg _))
    linarith [hdiff.2]
  · have hvalue := toyValue_of_nonneg hunit hnonneg
    have hvpos : 0 ≤ toyValue unit sample := by
      rw [hvalue]
      exact Int.floor_nonneg.mpr (div_nonneg (by exact_mod_cast hnonneg) hunit.le)
    have hfloor : unit * (toyValue unit sample : ℚ) ≤ sample := by
      have hle := Int.floor_le ((sample : ℚ) / unit)
      rw [← hvalue, le_div_iff₀ hunit] at hle
      linarith
    have hone : 1 ≤ toyValue unit sample := by omega
    constructor
    · have hcast : (1 : ℚ) ≤ toyValue unit sample := by exact_mod_cast hone
      calc unit = unit * 1 := (mul_one unit).symm
        _ ≤ unit * toyValue unit sample := mul_le_mul_of_nonneg_left hcast hunit.le
        _ ≤ sample := hfloor
    · by_contra hlarge
      have hge : 65535 ≤ toyValue unit sample := by
        rw [hvalue, Int.le_floor, le_div_iff₀ hunit]
        push_cast
        linarith
      -- the value wraps around, and far too little is read back
      have hwrap : ((toyValue unit sample % 65536).toNat : ℤ) ≤ toyValue unit sample - 65536 := by
        omega
      have hcast : ((toyValue unit sample % 65536).toNat : ℚ) ≤ toyValue unit sample - 65536 := by
        exact_mod_cast hwrap
      have hmul := mul_le_mul_of_nonneg_left hcast hunit.le
      have hread := Int.floor_le (unit * ((toyValue unit sample % 65536).toNat : ℚ))
      linarith [hdiff.1]

/-- Between the bounds the word is the number of whole units. -/
theorem standsFor_iff (hunit : 0 < unit) {sample : ℤ} (hmin : unit ≤ sample)
    (hmax : (sample : ℚ) < 65535 * unit) :
    StandsFor unit sample (toyValue unit sample % 65536).toNat ↔
      unit * Int.fract (sample / unit) + Int.fract (unit * ⌊sample / unit⌋) < unit := by
  have hnonneg : 0 ≤ sample := by
    have hle := hunit.le.trans hmin
    exact_mod_cast hle
  have hvalue := toyValue_of_nonneg hunit hnonneg
  have hlow : 1 ≤ toyValue unit sample := by
    rw [hvalue, Int.le_floor, le_div_iff₀ hunit]
    push_cast
    linarith
  have hhigh : toyValue unit sample < 65535 := by
    rw [hvalue, Int.floor_lt, div_lt_iff₀ hunit]
    push_cast
    exact hmax
  have hword : ((toyValue unit sample % 65536).toNat : ℤ) = toyValue unit sample := by omega
  have hcast : ((toyValue unit sample % 65536).toNat : ℚ) = toyValue unit sample := by
    exact_mod_cast hword
  have hdiff : (wordDuration unit (toyValue unit sample % 65536).toNat - sample : ℚ) =
      -(unit * Int.fract (sample / unit) + Int.fract (unit * ⌊sample / unit⌋)) := by
    rw [wordDuration_eq hunit (by omega), hcast, hvalue, Int.fract, Int.fract, mul_sub,
      mul_div_cancel₀ _ hunit.ne']
    ring
  have hcut : 0 ≤ unit * Int.fract (sample / unit) + Int.fract (unit * ⌊sample / unit⌋) :=
    add_nonneg (mul_nonneg hunit.le (Int.fract_nonneg _)) (Int.fract_nonneg _)
  rw [StandsFor, hdiff, abs_neg, abs_of_nonneg hcut]
  constructor
  · exact fun h => h.2.2
  · exact fun h => ⟨by omega, by omega, h⟩

theorem sampleFits_iff (hunit : 0 < unit) (sample : ℤ) :
    StandsFor unit sample (toyValue unit sample % 65536).toNat ↔ SampleFits unit sample := by
  constructor
  · intro h
    obtain ⟨hmin, hmax⟩ := h.range hunit
    exact ⟨hmin, hmax, (standsFor_iff hunit hmin hmax).mp h⟩
  · rintro ⟨hmin, hmax, hcut⟩
    exact (standsFor_iff hunit hmin hmax).mpr hcut

theorem lt_of_standsFor {signals : List ℤ} {words : List ℕ}
    (h : List.Forall₂ (StandsFor unit) signals words) : ∀ w ∈ words, w < 65536 := by
  induction h with
  | nil => simp
  | cons hw _ ih => exact List.forall_mem_cons.mpr ⟨Nat.lt_of_le_of_lt hw.2.1 (by decide), ih⟩

/-- The words of a frame are determined by its bytes. -/
theorem words_of_bytes {signals : List ℤ} {words : List ℕ}
    (h : words.flatMap wordBytes = signals.flatMap (toyBytes unit))
    (hwords : ∀ w ∈ words, w < 65536) :
    words = signals.map fun s => (toyValue unit s % 65536).toNat := by
  induction signals generalizing words with
  | nil =>
      cases words with
      | nil => rfl
      | cons w words => simp [wordBytes] at h
  | cons s signals ih =>
      cases words with
      | nil => simp [toyBytes] at h
      | cons w words =>
          obtain ⟨hw, hrest⟩ := List.forall_mem_cons.mp hwords
          rw [List.flatMap_cons, List.flatMap_cons, toyBytes_eq] at h
          have hsplit := List.append_inj h rfl
          rw [List.map_cons, ih hsplit.2 hrest,
            wordBytes_injective hw (by omega) hsplit.1]

theorem forall₂_words_iff (hunit : 0 < unit) (signals : List ℤ) :
    List.Forall₂ (StandsFor unit) signals
        (signals.map fun s => (toyValue unit s % 65536).toNat) ↔
      ∀ s ∈ signals, SampleFits unit s := by
  rw [List.forall₂_map_right_iff, List.forall₂_same]
  exact forall₂_congr fun s _ => sampleFits_iff hunit s

/-- The frame fits into the array, and its samples into words. -/
theorem FrameSurvives.fits (hunit : 0 < unit) {signals : List ℤ}
    (h : FrameSurvives unit signals) :
    signals.length ≤ wbufSize ∧ ∀ s ∈ signals, SampleFits unit s := by
  obtain ⟨words, hbytes, hwords⟩ := h
  rw [encodeSamples] at hbytes
  split at hbytes
  · cases hbytes
  · next hlen =>
      have hflat := List.append_cancel_right (Option.some.inj hbytes)
      obtain rfl := words_of_bytes hflat.symm (lt_of_standsFor hwords)
      exact ⟨not_lt.mp hlen, (forall₂_words_iff hunit signals).mp hwords⟩

end Words

/-- A frame survives exactly when it fits into the array and each of its samples
fits into a word. -/
theorem frameSurvives_iff (unit : ℚ) (hunit : 0 < unit) (signals : List ℤ) :
    FrameSurvives unit signals ↔
      signals.length ≤ wbufSize ∧ ∀ s ∈ signals, SampleFits unit s := by
  constructor
  · exact fun h => h.fits hunit
  · rintro ⟨hlen, hsamples⟩
    refine ⟨signals.map fun s => (toyValue unit s % 65536).toNat, ?_,
      (forall₂_words_iff hunit signals).mpr hsamples⟩
    have hbytes : toyBytes unit = fun s => wordBytes (toyValue unit s % 65536).toNat :=
      funext toyBytes_eq
    rw [encodeSamples, if_neg (not_lt.mpr hlen), List.flatMap_map, hbytes]

theorem frameSurvives_ordinary : FrameSurvives irtoyUnit [9000, 4500, 560] ↔
    [9000, 4500, 560].length ≤ wbufSize ∧
      ∀ s ∈ ([9000, 4500, 560] : List ℤ), SampleFits irtoyUnit s :=
  frameSurvives_iff irtoyUnit (by norm_num [irtoyUnit]) [9000, 4500, 560]

/-- A button with a last pulse of 20 microseconds. -/
def shortPulse : IrNcode := { name := "b".toList, code := 1, signals := some [9000, 4500, 20] }

/-- A pulse that is shorter than one unit becomes the word 0. -/
theorem frameSurvives_fails : ¬∀ r code rep b fuel out, initSend r code rep b fuel = some out →
    out.ok = true → FrameSurvives irtoyUnit out.buf.samples := by
  intro h
  have hframe : (initSend { flags := rawCodes, gap := 40000 } shortPulse false {} 1).any
      (fun out => out.ok && out.buf.samples == [9000, 4500, 20]) = true := by decide +kernel
  obtain ⟨out, hout, hframe⟩ := (Option.any_eq_true _ _).mp hframe
  rw [Bool.and_eq_true, beq_iff_eq] at hframe
  obtain ⟨hok, hsamples⟩ := hframe
  have hsurvives := h _ _ _ _ _ out hout hok
  rw [hsamples] at hsurvives
  obtain ⟨hmin, -⟩ := (hsurvives.fits (by norm_num [irtoyUnit])).2 20 (by simp)
  norm_num [irtoyUnit] at hmin

end Lirc
