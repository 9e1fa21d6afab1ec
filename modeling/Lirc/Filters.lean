import Lirc.Library.Extremes
import Lirc.Remote

/-!
What the receiver is set up with: `get_frequency_range` and
`get_filter_parameters`, which go through the remotes once and keep the least
and the greatest of their lengths and frequencies.
-/

namespace Lirc

open Extremes

/-- The fields of `struct ir_remote` that only the set-up of the receiver reads. -/
structure FilteredRemote extends IrRemote where
  freq : ℕ := 0
  minPulseLength : ℤ := 0
  maxPulseLength : ℤ := 0
  minSpaceLength : ℤ := 0
  maxSpaceLength : ℤ := 0
  deriving DecidableEq, Repr, Inhabited

/-- `lower_limit` -/
def lowerLimit (hw : Hardware) (r : IrRemote) (val : ℤ) : ℤ :=
  let epsVal := (val * (100 - r.eps)).tdiv 100
  let aepsVal := val - aepsOf hw r
  min (if epsVal ≤ 0 then 1 else epsVal) (if aepsVal ≤ 0 then 1 else aepsVal)

theorem lowerLimit_pos (hw : Hardware) (r : IrRemote) (val : ℤ) : 0 < lowerLimit hw r val := by
  rw [lowerLimit, lt_min_iff]
  constructor
  · split <;> omega
  · split <;> omega

/-- What `get_filter_parameters` writes through its pointers. -/
structure FilterParameters where
  maxGapLength : ℤ := 0
  minPulseLength : ℤ := 0
  minSpaceLength : ℤ := 0
  maxPulseLength : ℤ := 0
  maxSpaceLength : ℤ := 0
  deriving DecidableEq, Repr, Inhabited

/-- One round of the loop of `get_filter_parameters`. -/
def FilterParameters.scan (hw : Hardware) (f : FilterParameters) (r : FilteredRemote) :
    FilterParameters :=
  let gap := upperLimit hw r.toIrRemote r.maxGapLength
  let minPulse := lowerLimit hw r.toIrRemote r.minPulseLength
  let minSpace := lowerLimit hw r.toIrRemote r.minSpaceLength
  let maxPulse := upperLimit hw r.toIrRemote r.maxPulseLength
  let maxSpace := upperLimit hw r.toIrRemote r.maxSpaceLength
  { maxGapLength := if f.maxGapLength < gap then gap else f.maxGapLength
    minPulseLength :=
      if f.minPulseLength = 0 ∨ minPulse < f.minPulseLength then minPulse else f.minPulseLength
    -- the comparison goes the other way than for the pulses
    minSpaceLength :=
      if f.minSpaceLength = 0 ∨ f.minSpaceLength < minSpace then minSpace else f.minSpaceLength
    maxPulseLength := if f.maxPulseLength < maxPulse then maxPulse else f.maxPulseLength
    maxSpaceLength := if f.maxSpaceLength < maxSpace then maxSpace else f.maxSpaceLength }

/-- `get_filter_parameters` -/
def getFilterParameters (hw : Hardware) (remotes : List FilteredRemote) : FilterParameters :=
  remotes.foldl (FilterParameters.scan hw) {}

/-- One round of the loop of `get_frequency_range`. -/
def scanFrequency (range : ℕ × ℕ) (r : FilteredRemote) : ℕ × ℕ :=
  if r.freq ≠ 0 then
    if range.2 < r.freq then (range.1, r.freq)
    else if r.freq < range.1 then (r.freq, range.2)
    else range
  else range

/-- `get_frequency_range` -/
def getFrequencyRange : List FilteredRemote → ℕ × ℕ
  | [] => (0, 0)
  | r :: rs => rs.foldl scanFrequency (r.freq, r.freq)

/-! ### The lengths -/

section Lengths

variable (hw : Hardware)

/-- The five passes of the loop are independent of each other. -/
theorem getFilterParameters_eq (remotes : List FilteredRemote) :
    getFilterParameters hw remotes =
      { maxGapLength := keepMax (fun r => upperLimit hw r.toIrRemote r.maxGapLength) 0 remotes
        minPulseLength :=
          seekMin (fun r => lowerLimit hw r.toIrRemote r.minPulseLength) 0 0 remotes
        minSpaceLength :=
          seekMax (fun r => lowerLimit hw r.toIrRemote r.minSpaceLength) 0 0 remotes
        maxPulseLength := keepMax (fun r => upperLimit hw r.toIrRemote r.maxPulseLength) 0 remotes
        maxSpaceLength :=
          keepMax (fun r => upperLimit hw r.toIrRemote r.maxSpaceLength) 0 remotes } := by
  have hfold : ∀ f : FilterParameters, remotes.foldl (FilterParameters.scan hw) f =
      { maxGapLength := keepMax (fun r : FilteredRemote =>
          upperLimit hw r.toIrRemote r.maxGapLength) f.maxGapLength remotes
        minPulseLength := seekMin (fun r : FilteredRemote =>
          lowerLimit hw r.toIrRemote r.minPulseLength) 0 f.minPulseLength remotes
        minSpaceLength := seekMax (fun r : FilteredRemote =>
          lowerLimit hw r.toIrRemote r.minSpaceLength) 0 f.minSpaceLength remotes
        maxPulseLength := keepMax (fun r : FilteredRemote =>
          upperLimit hw r.toIrRemote r.maxPulseLength) f.maxPulseLength remotes
        maxSpaceLength := keepMax (fun r : FilteredRemote =>
          upperLimit hw r.toIrRemote r.maxSpaceLength) f.maxSpaceLength remotes } := by
    induction remotes with
    | nil => exact fun f => rfl
    | cons r rs ih =>
        intro f
        rw [List.foldl_cons, ih]
        rfl
  exact hfold {}

/-- The parameters cover the tolerances of every remote. -/
structure Covers (remotes : List FilteredRemote) (f : FilterParameters) : Prop where
  minPulse : ∀ r ∈ remotes, f.minPulseLength ≤ lowerLimit hw r.toIrRemote r.minPulseLength
  minSpace : ∀ r ∈ remotes, f.minSpaceLength ≤ lowerLimit hw r.toIrRemote r.minSpaceLength
  maxGap : ∀ r ∈ remotes, upperLimit hw r.toIrRemote r.maxGapLength ≤ f.maxGapLength
  maxPulse : ∀ r ∈ remotes, upperLimit hw r.toIrRemote r.maxPulseLength ≤ f.maxPulseLength
  maxSpace : ∀ r ∈ remotes, upperLimit hw r.toIrRemote r.maxSpaceLength ≤ f.maxSpaceLength

variable {hw} {remotes remotes' : List FilteredRemote}

theorem lowerLimit_ne_zero (r : IrRemote) (val : ℤ) : lowerLimit hw r val ≠ 0 :=
  (lowerLimit_pos hw r val).ne'

theorem getFilterParameters_perm (h : remotes.Perm remotes') :
    getFilterParameters hw remotes = getFilterParameters hw remotes' := by
  rw [getFilterParameters_eq, getFilterParameters_eq, keepMax_perm h, keepMax_perm h,
    keepMax_perm h,
    seekMin_perm h fun r _ => lowerLimit_ne_zero r.toIrRemote r.minPulseLength,
    seekMax_perm h fun r _ => lowerLimit_ne_zero r.toIrRemote r.minSpaceLength]

theorem minPulse_covers (hne : remotes ≠ []) : ∀ r ∈ remotes,
    (getFilterParameters hw remotes).minPulseLength ≤
      lowerLimit hw r.toIrRemote r.minPulseLength := by
  rw [getFilterParameters_eq]
  exact (le_seekMin_iff hne fun r _ => lowerLimit_ne_zero _ _).mp le_rfl

/-- The value for the spaces is the greatest of the lower limits. -/
theorem minSpace_upper (hne : remotes ≠ []) : ∀ r ∈ remotes,
    lowerLimit hw r.toIrRemote r.minSpaceLength ≤
      (getFilterParameters hw remotes).minSpaceLength := by
  rw [getFilterParameters_eq]
  exact (seekMax_le_iff hne fun r _ => lowerLimit_ne_zero _ _).mp le_rfl

/-- The lower limits of all spaces are the same. -/
def SpacesAlike (hw : Hardware) (remotes : List FilteredRemote) : Prop :=
  ∀ r ∈ remotes, ∀ s ∈ remotes, lowerLimit hw r.toIrRemote r.minSpaceLength =
    lowerLimit hw s.toIrRemote s.minSpaceLength

instance : Decidable (SpacesAlike hw remotes) :=
  inferInstanceAs (Decidable (∀ r ∈ remotes, ∀ s ∈ remotes,
    lowerLimit hw r.toIrRemote r.minSpaceLength = lowerLimit hw s.toIrRemote s.minSpaceLength))

theorem minSpace_covers_iff (hne : remotes ≠ []) :
    (∀ r ∈ remotes, (getFilterParameters hw remotes).minSpaceLength ≤
      lowerLimit hw r.toIrRemote r.minSpaceLength) ↔ SpacesAlike hw remotes := by
  constructor
  · intro h r hr s hs
    apply le_antisymm
    · exact (minSpace_upper hne r hr).trans (h s hs)
    · exact (minSpace_upper hne s hs).trans (h r hr)
  · intro h r hr
    rw [getFilterParameters_eq]
    exact (seekMax_le_iff hne fun r _ => lowerLimit_ne_zero _ _).mpr fun s hs => (h s hs r hr).le

theorem covers_iff (hne : remotes ≠ []) :
    Covers hw remotes (getFilterParameters hw remotes) ↔ SpacesAlike hw remotes := by
  refine ⟨fun h => (minSpace_covers_iff hne).mp h.minSpace, fun h => ?_⟩
  have hmax (length : FilteredRemote → ℤ) :
      ∀ r ∈ remotes, length r ≤ keepMax length 0 remotes := fun r hr => le_keepMax hr
  refine ⟨minPulse_covers hne, (minSpace_covers_iff hne).mpr h, ?_, ?_, ?_⟩
  · rw [getFilterParameters_eq]
    exact hmax fun r => upperLimit hw r.toIrRemote r.maxGapLength
  · rw [getFilterParameters_eq]
    exact hmax fun r => upperLimit hw r.toIrRemote r.maxPulseLength
  · rw [getFilterParameters_eq]
    exact hmax fun r => upperLimit hw r.toIrRemote r.maxSpaceLength

/-- A filter with these parameters drops no pulse and no space that is within
the tolerances of the remote. -/
def FilterParameters.Passes (hw : Hardware) (f : FilterParameters) (r : FilteredRemote) : Prop :=
  (∀ x, lowerLimit hw r.toIrRemote r.minPulseLength ≤ x →
      x ≤ upperLimit hw r.toIrRemote r.maxPulseLength →
        f.minPulseLength ≤ x ∧ x ≤ f.maxPulseLength) ∧
    ∀ x, lowerLimit hw r.toIrRemote r.minSpaceLength ≤ x →
      x ≤ upperLimit hw r.toIrRemote r.maxSpaceLength →
        f.minSpaceLength ≤ x ∧ x ≤ f.maxSpaceLength

theorem Covers.passes {f : FilterParameters} (h : Covers hw remotes f) :
    ∀ r ∈ remotes, f.Passes hw r := by
  intro r hr
  constructor
  · intro x hlower hupper
    exact ⟨(h.minPulse r hr).trans hlower, hupper.trans (h.maxPulse r hr)⟩
  · intro x hlower hupper
    exact ⟨(h.minSpace r hr).trans hlower, hupper.trans (h.maxSpace r hr)⟩

end Lengths

/-! ### The frequencies -/

/-- The frequencies that are set. -/
def frequencies (remotes : List FilteredRemote) : Set ℕ :=
  {f | f ≠ 0 ∧ ∃ r ∈ remotes, r.freq = f}

/-- The least and the greatest frequency, or 0 where no remote has one. -/
def IsFrequencyRange (remotes : List FilteredRemote) (range : ℕ × ℕ) : Prop :=
  (IsLeast (frequencies remotes) range.1 ∧ IsGreatest (frequencies remotes) range.2) ∨
    (frequencies remotes = ∅ ∧ range = (0, 0))

/-- Either all remotes have a frequency or none has. -/
def FrequenciesAlike (remotes : List FilteredRemote) : Prop :=
  (∀ r ∈ remotes, r.freq = 0) ∨ ∀ r ∈ remotes, r.freq ≠ 0

theorem frequencies_perm {remotes remotes' : List FilteredRemote} (h : remotes.Perm remotes') :
    frequencies remotes = frequencies remotes' := by
  ext f
  simp only [frequencies, Set.mem_ofPred_eq, h.mem_iff]

theorem IsFrequencyRange.unique {remotes : List FilteredRemote} {range range' : ℕ × ℕ}
    (h : IsFrequencyRange remotes range) (h' : IsFrequencyRange remotes range') :
    range = range' := by
  rcases h with ⟨hleast, hgreatest⟩ | ⟨hnone, rfl⟩
  · rcases h' with ⟨hleast', hgreatest'⟩ | ⟨hnone', -⟩
    · ext
      · exact hleast.unique hleast'
      · exact hgreatest.unique hgreatest'
    · exact absurd hleast.1 (by simp [hnone'])
  · rcases h' with ⟨hleast', -⟩ | ⟨-, rfl⟩
    · exact absurd hleast'.1 (by simp [hnone])
    · rfl

/-- A pass over remotes without a frequency changes nothing. -/
theorem scanFrequency_of_zero {remotes : List FilteredRemote} (h : ∀ r ∈ remotes, r.freq = 0)
    (range : ℕ × ℕ) : remotes.foldl scanFrequency range = range := by
  induction remotes with
  | nil => rfl
  | cons r rs ih =>
      obtain ⟨hr, hrs⟩ := List.forall_mem_cons.mp h
      rw [List.foldl_cons, scanFrequency, if_neg (not_not_intro hr), ih hrs]

/-- Where all remotes have a frequency the two values are kept apart: what is
above the greatest is not below the least. -/
theorem scanFrequency_eq {remotes : List FilteredRemote} (h : ∀ r ∈ remotes, r.freq ≠ 0)
    {range : ℕ × ℕ} (hrange : range.1 ≤ range.2) :
    remotes.foldl scanFrequency range =
      (keepMin FilteredRemote.freq range.1 remotes,
        keepMax FilteredRemote.freq range.2 remotes) := by
  induction remotes generalizing range with
  | nil => rfl
  | cons r rs ih =>
      obtain ⟨hr, hrs⟩ := List.forall_mem_cons.mp h
      have hstep : scanFrequency range r = (min r.freq range.1, max range.2 r.freq) := by
        rw [scanFrequency, if_pos hr]
        split
        · next hmax => rw [min_eq_right (by omega), max_eq_right hmax.le]
        · next hmax =>
            rw [max_eq_left (by omega)]
            split
            · next hmin => rw [min_eq_left hmin.le]
            · next hmin => rw [min_eq_right (by omega)]
      have hle : min r.freq range.1 ≤ max range.2 r.freq :=
        (min_le_left _ _).trans (le_max_right _ _)
      rw [List.foldl_cons, hstep, keepMin_cons, keepMax_cons]
      exact ih hrs hle

/-- The least value stays where it is once it is 0. -/
theorem scanFrequency_least_zero (remotes : List FilteredRemote) (greatest : ℕ) :
    (remotes.foldl scanFrequency (0, greatest)).1 = 0 := by
  induction remotes generalizing greatest with
  | nil => rfl
  | cons r rs ih =>
      rw [List.foldl_cons, scanFrequency]
      split
      · split
        · exact ih r.freq
        · rw [if_neg (Nat.not_lt_zero _)]
          exact ih greatest
      · exact ih greatest

theorem getFrequencyRange_of_alike {remotes : List FilteredRemote}
    (h : FrequenciesAlike remotes) : IsFrequencyRange remotes (getFrequencyRange remotes) := by
  rcases h with hzero | hset
  · refine .inr ⟨?_, ?_⟩
    · ext f
      simp only [frequencies, Set.mem_ofPred_eq, Set.mem_empty_iff_false, iff_false]
      rintro ⟨hf, r, hr, rfl⟩
      exact hf (hzero r hr)
    · cases remotes with
      | nil => rfl
      | cons r rs =>
          obtain ⟨hr, hrs⟩ := List.forall_mem_cons.mp hzero
          rw [getFrequencyRange, scanFrequency_of_zero hrs, hr]
  · cases remotes with
    | nil => exact .inr ⟨by simp [frequencies], rfl⟩
    | cons r rs =>
        obtain ⟨hr, hrs⟩ := List.forall_mem_cons.mp hset
        rw [getFrequencyRange, scanFrequency_eq hrs le_rfl]
        have hown : r.freq ∈ frequencies (r :: rs) := ⟨hr, r, List.mem_cons_self, rfl⟩
        have hothers : ∀ s ∈ rs, s.freq ∈ frequencies (r :: rs) := fun s hs =>
          ⟨hrs s hs, s, List.mem_cons_of_mem _ hs, rfl⟩
        refine .inl ⟨⟨?_, ?_⟩, ?_, ?_⟩
        · rcases keepMin_mem (g := FilteredRemote.freq) r.freq rs with hb | ⟨s, hs, hb⟩
          · rw [hb]; exact hown
          · rw [← hb]; exact hothers s hs
        · rintro f ⟨-, s, hs, rfl⟩
          rcases List.mem_cons.mp hs with rfl | hs
          · exact (le_keepMin_iff.mp le_rfl).1
          · exact keepMin_le hs
        · rcases keepMax_mem (g := FilteredRemote.freq) r.freq rs with hb | ⟨s, hs, hb⟩
          · rw [hb]; exact hown
          · rw [← hb]; exact hothers s hs
        · rintro f ⟨-, s, hs, rfl⟩
          rcases List.mem_cons.mp hs with rfl | hs
          · exact (keepMax_le_iff.mp le_rfl).1
          · exact le_keepMax hs

/-- A remote without a frequency at the head of the list makes the least value 0. -/
theorem getFrequencyRange_of_head {r : FilteredRemote} {rs : List FilteredRemote}
    (hr : r.freq = 0) (hrange : IsFrequencyRange (r :: rs) (getFrequencyRange (r :: rs))) :
    ∀ s ∈ rs, s.freq = 0 := by
  have hzero : (getFrequencyRange (r :: rs)).1 = 0 := by
    rw [getFrequencyRange, hr]
    exact scanFrequency_least_zero rs 0
  intro s hs
  rcases hrange with ⟨hleast, -⟩ | ⟨hnone, -⟩
  · exact absurd hzero hleast.1.1
  · by_contra hne
    have hmem : s.freq ∈ frequencies (r :: rs) := ⟨hne, s, List.mem_cons_of_mem _ hs, rfl⟩
    rw [hnone] at hmem
    exact hmem

/-! ### Every order of the remotes -/

/-- The receiver is set up in the same way for every order of the remotes:
with lengths that cover the tolerances of each of them, so that no sample of
them is dropped, and with their frequency range. -/
def SetUpForAll (hw : Hardware) (remotes : List FilteredRemote) : Prop :=
  ∀ remotes', remotes.Perm remotes' →
    getFilterParameters hw remotes' = getFilterParameters hw remotes ∧
      Covers hw remotes (getFilterParameters hw remotes') ∧
      (∀ r ∈ remotes, (getFilterParameters hw remotes').Passes hw r) ∧
      getFrequencyRange remotes' = getFrequencyRange remotes ∧
      IsFrequencyRange remotes (getFrequencyRange remotes')

/-- Every order is served exactly where the spaces of the remotes have one
lower limit, and all or none of them have a frequency. -/
theorem setUpForAll_iff (hw : Hardware) (remotes : List FilteredRemote) (hne : remotes ≠ []) :
    SetUpForAll hw remotes ↔ SpacesAlike hw remotes ∧ FrequenciesAlike remotes := by
  constructor
  · intro h
    refine ⟨(covers_iff hne).mp (h remotes (.refl _)).2.1, ?_⟩
    by_cases hall : ∀ r ∈ remotes, r.freq ≠ 0
    · exact .inr hall
    -- a remote without a frequency is put at the head of the list
    push Not at hall
    obtain ⟨r, hr, hzero⟩ := hall
    obtain ⟨pre, post, rfl⟩ := List.append_of_mem hr
    have hperm : (pre ++ r :: post).Perm (r :: (pre ++ post)) := List.perm_middle
    have hrange := (h _ hperm).2.2.2.2
    rw [IsFrequencyRange, frequencies_perm hperm] at hrange
    have hothers := getFrequencyRange_of_head hzero hrange
    refine .inl fun s hs => ?_
    rcases List.mem_cons.mp (hperm.mem_iff.mp hs) with rfl | hs
    · exact hzero
    · exact hothers s hs
  · rintro ⟨hspaces, hfreqs⟩ remotes' hperm
    have hparams := @getFilterParameters_perm hw _ _ hperm
    have hfreqs' : FrequenciesAlike remotes' := by
      simpa only [FrequenciesAlike, hperm.mem_iff] using hfreqs
    have hrange := getFrequencyRange_of_alike hfreqs
    have hrange' := getFrequencyRange_of_alike hfreqs'
    have hrange'' : IsFrequencyRange remotes (getFrequencyRange remotes') := by
      rwa [IsFrequencyRange, ← frequencies_perm hperm] at hrange'
    have hcovers : Covers hw remotes (getFilterParameters hw remotes') := by
      rw [← hparams]
      exact (covers_iff hne).mpr hspaces
    exact ⟨hparams.symm, hcovers, hcovers.passes, hrange''.unique hrange, hrange''⟩

/-- Three remotes whose pulses, gaps and frequencies differ. Their spaces and
tolerances differ too, but 350 is the lower limit of each. -/
def threeFiltered : List FilteredRemote :=
  [{ freq := 38000, eps := 30, aeps := 100, minPulseLength := 600, maxPulseLength := 9000
     minSpaceLength := 500, maxSpaceLength := 4500, maxGapLength := 108000 },
   { freq := 36000, eps := 50, aeps := 100, minPulseLength := 800, maxPulseLength := 2400
     minSpaceLength := 700, maxSpaceLength := 7000, maxGapLength := 45000 },
   { freq := 40000, eps := 0, aeps := 100, minPulseLength := 400, maxPulseLength := 3400
     minSpaceLength := 450, maxSpaceLength := 1700, maxGapLength := 200000 }]

/-- Least and greatest values come from different remotes, and the least
frequency from the middle of the list. -/
theorem setUpForAll_three : SetUpForAll {} threeFiltered ∧
    getFrequencyRange threeFiltered = (36000, 40000) ∧
    getFilterParameters {} threeFiltered =
      { maxGapLength := 200100, minPulseLength := 300, minSpaceLength := 350
        maxPulseLength := 11700, maxSpaceLength := 10500 } :=
  ⟨(setUpForAll_iff {} threeFiltered (by decide)).mpr
    ⟨by decide +kernel, .inr (by decide)⟩, by decide, by decide +kernel⟩

/-- A first remote without a frequency hides the least of the others. -/
theorem setUp_misses_frequency : ¬∀ hw remotes, remotes ≠ [] → SetUpForAll hw remotes := by
  intro h
  have hrange := (h {} [{}, { freq := 38000 }] (by simp) _ (.refl _)).2.2.2.2
  have hzero := getFrequencyRange_of_head rfl hrange { freq := 38000 } (by simp)
  exact absurd hzero (by decide)

end Lirc
