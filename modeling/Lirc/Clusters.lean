import Mathlib.Algebra.BigOperators.Group.List.Basic
import Mathlib.Algebra.Order.BigOperators.Group.List
import Mathlib.Data.Int.Basic
import Mathlib.Data.List.Induction
import Mathlib.Data.List.Perm.Basic
import Mathlib.Tactic.Linarith

/-!
`add_length` and `merge_lengths` of irrecord: the lengths that are measured are
counted in clusters, and clusters that lie close together are merged. The
counts, the sums and the means are computed in 32 bits.
-/

namespace Lirc

/-- The bits of an `int` as an unsigned number. -/
def u32 (x : ℤ) : ℕ := (x % 2 ^ 32).toNat

/-- An `int` with these bits. -/
def i32 (x : ℤ) : ℤ := Int.bmod x (2 ^ 32)

/-- `eps` and `aeps` -/
structure Tolerance where
  eps : ℕ := 30
  aeps : ℕ := 100
  eps_lt : eps < 2 ^ 32 := by decide
  aeps_lt : aeps < 2 ^ 31 := by decide

/-- `struct lengths`. The lengths that have been counted in it are noted as
`members`; nothing reads them. -/
structure Lengths where
  count : ℕ
  sum : ℤ
  upperBound : ℤ
  lowerBound : ℤ
  min : ℤ
  max : ℤ
  members : List ℕ
  deriving DecidableEq, Repr

/-- `new_length` -/
def newLength (length : ℕ) : Lengths where
  count := 1
  sum := i32 length
  lowerBound := i32 (length / 100 * 100)
  upperBound := i32 (length / 100 * 100 + 99)
  min := length
  max := length
  members := [length]

/-- One more length in a cluster. -/
def Lengths.insert (l : Lengths) (length : ℕ) : Lengths :=
  { l with
    count := (l.count + 1) % 2 ^ 32
    sum := i32 (l.sum + length)
    min := Min.min l.min length
    max := Max.max l.max length
    members := l.members ++ [length] }

/-- `add_length` -/
def addLength (length : ℕ) : List Lengths → List Lengths
  | [] => [newLength length]
  | l :: ls =>
      if l.lowerBound ≤ length ∧ length ≤ l.upperBound then l.insert length :: ls
      else l :: addLength length ls

section Merging

variable (tol : Tolerance)

/-- `new_sum / new_count` -/
def newMean (l inner : Lengths) : ℕ := u32 (l.sum + inner.sum) / ((l.count + inner.count) % 2 ^ 32)

/-- The range of a cluster is compared with the mean and `aeps`. -/
def nearMean (mean : ℕ) (c : Lengths) : Bool :=
  u32 c.max ≤ u32 (mean + tol.aeps) && mean ≤ u32 (c.min + tol.aeps)

/-- The range of a cluster is compared with the mean and `eps`. The percentages
are not divided by 100. -/
def scaledMean (mean : ℕ) (c : Lengths) : Bool :=
  u32 c.max ≤ u32 (mean * (100 + tol.eps)) && u32 (mean * (100 - tol.eps)) ≤ u32 c.min

/-- The clusters are merged. -/
def mergesWith (l inner : Lengths) : Bool :=
  nearMean tol (newMean l inner) l && nearMean tol (newMean l inner) inner ||
    scaledMean tol (newMean l inner) l && scaledMean tol (newMean l inner) inner

/-- The cluster `l` after `inner` has been merged into it. -/
def Lengths.join (l inner : Lengths) : Lengths where
  count := (l.count + inner.count) % 2 ^ 32
  sum := i32 (u32 (l.sum + inner.sum))
  upperBound := Max.max l.upperBound inner.upperBound
  lowerBound := Min.min l.lowerBound inner.lowerBound
  min := Min.min l.min inner.min
  max := Max.max l.max inner.max
  members := l.members ++ inner.members

/-- The inner loop of `merge_lengths`: the cluster and those that it has not
taken in. -/
def absorb (l : Lengths) : List Lengths → Lengths × List Lengths
  | [] => (l, [])
  | inner :: rest =>
      if mergesWith tol l inner then absorb (l.join inner) rest
      else ((absorb l rest).1, inner :: (absorb l rest).2)

theorem absorb_length_le (l : Lengths) (rest : List Lengths) :
    (absorb tol l rest).2.length ≤ rest.length := by
  induction rest generalizing l with
  | nil => exact le_rfl
  | cons inner rest ih =>
      rw [absorb]
      split
      · exact (ih _).trans (Nat.le_succ _)
      · exact Nat.succ_le_succ (ih l)

/-- `merge_lengths` -/
def mergeLengths : List Lengths → List Lengths
  | [] => []
  | l :: rest => (absorb tol l rest).1 :: mergeLengths (absorb tol l rest).2
termination_by clusters => clusters.length
decreasing_by exact Nat.lt_succ_of_le (absorb_length_le tol l rest)

/-- The comparisons of the inner loop. -/
def absorbComparisons (l : Lengths) : List Lengths → List (Lengths × Lengths)
  | [] => []
  | inner :: rest =>
      (l, inner) :: absorbComparisons (if mergesWith tol l inner then l.join inner else l) rest

/-- The comparisons of `merge_lengths`. -/
def mergeComparisons : List Lengths → List (Lengths × Lengths)
  | [] => []
  | l :: rest => absorbComparisons tol l rest ++ mergeComparisons (absorb tol l rest).2
termination_by clusters => clusters.length
decreasing_by exact Nat.lt_succ_of_le (absorb_length_le tol l rest)

/-! ### Series of lengths -/

/-- A call of `add_length` or of `merge_lengths`. -/
inductive LengthStep
  | add (length : ℕ)
  | merge
  deriving DecidableEq, Repr

/-- The clusters after a call. -/
def lengthStep (clusters : List Lengths) : LengthStep → List Lengths
  | .add length => addLength length clusters
  | .merge => mergeLengths tol clusters

/-- The comparisons of a call. -/
def stepComparisons (clusters : List Lengths) : LengthStep → List (Lengths × Lengths)
  | .add _ => []
  | .merge => mergeComparisons tol clusters

/-- The clusters after a series of calls. -/
def clustersAfter (steps : List LengthStep) : List Lengths := steps.foldl (lengthStep tol) []

/-- The comparisons of a series of calls that starts with some clusters. -/
def comparisons : List Lengths → List LengthStep → List (Lengths × Lengths)
  | _, [] => []
  | clusters, step :: steps =>
      stepComparisons tol clusters step ++ comparisons (lengthStep tol clusters step) steps

/-- The lengths that are entered. -/
def entered (steps : List LengthStep) : List ℕ :=
  steps.filterMap fun step => match step with
    | .add length => some length
    | .merge => none

theorem entered_append (steps steps' : List LengthStep) :
    entered (steps ++ steps') = entered steps ++ entered steps' := List.filterMap_append

end Merging

/-! ### What is counted where -/

/-- All lengths of some clusters. -/
def allMembers (clusters : List Lengths) : List ℕ := clusters.flatMap Lengths.members

@[simp] theorem allMembers_nil : allMembers [] = [] := rfl

@[simp] theorem allMembers_cons (l : Lengths) (ls : List Lengths) :
    allMembers (l :: ls) = l.members ++ allMembers ls := rfl

/-- The fields of a cluster belong to its members. -/
structure Counts (c : Lengths) : Prop where
  count : c.count = c.members.length % 2 ^ 32
  sum : c.sum = i32 (c.members.sum : ℕ)
  min_mem : ∃ x ∈ c.members, c.min = (x : ℕ)
  max_mem : ∃ x ∈ c.members, c.max = (x : ℕ)
  range : ∀ x ∈ c.members, c.min ≤ (x : ℕ) ∧ ((x : ℕ) : ℤ) ≤ c.max

theorem i32_add_i32 (x y : ℤ) : i32 (i32 x + y) = i32 (x + y) := Int.bmod_add_bmod

theorem i32_u32 (x : ℤ) : i32 (u32 x) = i32 x := by
  have hpos : 0 ≤ x % 2 ^ 32 := Int.emod_nonneg x (by decide)
  rw [u32, Int.toNat_of_nonneg hpos]
  exact_mod_cast Int.emod_bmod x (2 ^ 32)

theorem i32_of_lt {n : ℕ} (h : n < 2 ^ 31) : i32 n = n := by
  rw [i32, Int.bmod_eq_of_le (by omega) (by omega)]

theorem counts_newLength (length : ℕ) : Counts (newLength length) where
  count := rfl
  sum := by simp [newLength]
  min_mem := ⟨length, List.mem_singleton_self _, rfl⟩
  max_mem := ⟨length, List.mem_singleton_self _, rfl⟩
  range x hx := by
    rw [List.mem_singleton.mp hx]
    exact ⟨le_rfl, le_rfl⟩

theorem min_mem_append {a b : List ℕ} {m n : ℤ} (hm : ∃ x ∈ a, m = (x : ℕ))
    (hn : ∃ x ∈ b, n = (x : ℕ)) : ∃ x ∈ a ++ b, Min.min m n = (x : ℕ) := by
  obtain ⟨x, hx, rfl⟩ := hm
  obtain ⟨y, hy, rfl⟩ := hn
  rcases min_choice (x : ℤ) y with h | h
  · exact ⟨x, List.mem_append_left _ hx, h⟩
  · exact ⟨y, List.mem_append_right _ hy, h⟩

theorem max_mem_append {a b : List ℕ} {m n : ℤ} (hm : ∃ x ∈ a, m = (x : ℕ))
    (hn : ∃ x ∈ b, n = (x : ℕ)) : ∃ x ∈ a ++ b, Max.max m n = (x : ℕ) := by
  obtain ⟨x, hx, rfl⟩ := hm
  obtain ⟨y, hy, rfl⟩ := hn
  rcases max_choice (x : ℤ) y with h | h
  · exact ⟨x, List.mem_append_left _ hx, h⟩
  · exact ⟨y, List.mem_append_right _ hy, h⟩

/-- The members of two clusters lie in the range of both. -/
theorem range_append {a b : List ℕ} {m n m' n' : ℤ}
    (ha : ∀ x ∈ a, m ≤ (x : ℕ) ∧ ((x : ℕ) : ℤ) ≤ n)
    (hb : ∀ x ∈ b, m' ≤ (x : ℕ) ∧ ((x : ℕ) : ℤ) ≤ n') :
    ∀ x ∈ a ++ b, Min.min m m' ≤ (x : ℕ) ∧ ((x : ℕ) : ℤ) ≤ Max.max n n' := by
  intro x hx
  rcases List.mem_append.mp hx with hx | hx
  · exact ⟨(min_le_left _ _).trans (ha x hx).1, (ha x hx).2.trans (le_max_left _ _)⟩
  · exact ⟨(min_le_right _ _).trans (hb x hx).1, (hb x hx).2.trans (le_max_right _ _)⟩

theorem Counts.join {l inner : Lengths} (hl : Counts l) (hinner : Counts inner) :
    Counts (l.join inner) where
  count := by
    rw [Lengths.join, hl.count, hinner.count, List.length_append, ← Nat.add_mod]
  sum := by
    have hsum : i32 (l.sum + inner.sum) = i32 ((l.members ++ inner.members).sum : ℕ) := by
      rw [hl.sum, i32_add_i32, add_comm, hinner.sum, i32_add_i32, add_comm, List.sum_append,
        Nat.cast_add]
    rw [Lengths.join, i32_u32]
    exact hsum
  min_mem := min_mem_append hl.min_mem hinner.min_mem
  max_mem := max_mem_append hl.max_mem hinner.max_mem
  range := range_append hl.range hinner.range

theorem Counts.insert {l : Lengths} (hl : Counts l) (length : ℕ) : Counts (l.insert length) where
  count := by
    rw [Lengths.insert, hl.count, List.length_append, List.length_singleton, Nat.mod_add_mod]
  sum := by
    rw [Lengths.insert, hl.sum, i32_add_i32, List.sum_append, List.sum_singleton, Nat.cast_add]
  min_mem := min_mem_append hl.min_mem ⟨length, List.mem_singleton_self _, rfl⟩
  max_mem := max_mem_append hl.max_mem ⟨length, List.mem_singleton_self _, rfl⟩
  range := range_append hl.range fun x hx => by
    rw [List.mem_singleton.mp hx]
    exact ⟨le_rfl, le_rfl⟩

/-! ### No length is lost -/

/-- All clusters count their members. -/
def AllCount (clusters : List Lengths) : Prop := ∀ c ∈ clusters, Counts c

section Steps

variable {tol : Tolerance} {l : Lengths} {rest clusters : List Lengths}

theorem addLength_perm (length : ℕ) (clusters : List Lengths) :
    (allMembers (addLength length clusters)).Perm (allMembers clusters ++ [length]) := by
  induction clusters with
  | nil => exact .refl _
  | cons l ls ih =>
      rw [addLength]
      split
      · simp only [allMembers_cons, Lengths.insert, List.append_assoc]
        exact List.perm_append_comm.append_left _
      · simp only [allMembers_cons, List.append_assoc]
        exact ih.append_left _

theorem addLength_counts (length : ℕ) (h : AllCount clusters) :
    AllCount (addLength length clusters) := by
  induction clusters with
  | nil => exact List.forall_mem_singleton.mpr (counts_newLength length)
  | cons l ls ih =>
      obtain ⟨hl, hls⟩ := List.forall_mem_cons.mp h
      rw [addLength]
      split
      · exact List.forall_mem_cons.mpr ⟨hl.insert length, hls⟩
      · exact List.forall_mem_cons.mpr ⟨hl, ih hls⟩

theorem absorb_perm (l : Lengths) (rest : List Lengths) :
    ((absorb tol l rest).1.members ++ allMembers (absorb tol l rest).2).Perm
      (l.members ++ allMembers rest) := by
  induction rest generalizing l with
  | nil => exact .refl _
  | cons inner rest ih =>
      rw [absorb]
      split
      · refine (ih _).trans ?_
        simp [Lengths.join]
      · have hswap := (ih l).append_left inner.members
        simp only [allMembers_cons]
        refine (List.perm_append_comm_assoc _ _ _).trans (hswap.trans ?_)
        exact List.perm_append_comm_assoc _ _ _

theorem absorb_counts (hl : Counts l) (hrest : AllCount rest) :
    Counts (absorb tol l rest).1 ∧ AllCount (absorb tol l rest).2 := by
  induction rest generalizing l with
  | nil => exact ⟨hl, hrest⟩
  | cons inner rest ih =>
      obtain ⟨hinner, hrest⟩ := List.forall_mem_cons.mp hrest
      rw [absorb]
      split
      · exact ih (hl.join hinner) hrest
      · obtain ⟨hone, htwo⟩ := ih hl hrest
        exact ⟨hone, List.forall_mem_cons.mpr ⟨hinner, htwo⟩⟩

theorem mergeLengths_perm (clusters : List Lengths) :
    (allMembers (mergeLengths tol clusters)).Perm (allMembers clusters) := by
  induction clusters using mergeLengths.induct tol with
  | case1 => rw [mergeLengths]
  | case2 l rest ih =>
      rw [mergeLengths, allMembers_cons, allMembers_cons]
      exact (ih.append_left _).trans (absorb_perm l rest)

theorem mergeLengths_counts (h : AllCount clusters) : AllCount (mergeLengths tol clusters) := by
  induction clusters using mergeLengths.induct tol with
  | case1 => rwa [mergeLengths]
  | case2 l rest ih =>
      obtain ⟨hl, hrest⟩ := List.forall_mem_cons.mp h
      obtain ⟨hone, htwo⟩ := @absorb_counts tol l rest hl hrest
      rw [mergeLengths]
      exact List.forall_mem_cons.mpr ⟨hone, ih htwo⟩

theorem lengthStep_counts (h : AllCount clusters) (step : LengthStep) :
    AllCount (lengthStep tol clusters step) := by
  cases step with
  | add length => exact addLength_counts length h
  | merge => exact mergeLengths_counts h

theorem lengthStep_perm (clusters : List Lengths) (step : LengthStep) :
    (allMembers (lengthStep tol clusters step)).Perm (allMembers clusters ++ entered [step]) := by
  cases step with
  | add length => exact addLength_perm length clusters
  | merge =>
      rw [show entered [.merge] = [] from rfl, List.append_nil]
      exact mergeLengths_perm clusters

/-! ### What is compared -/

/-- Two clusters that count their members, all of which are among some lengths. -/
def ComparedIn (lengths : List ℕ) (p : Lengths × Lengths) : Prop :=
  Counts p.1 ∧ Counts p.2 ∧ ∃ others, (p.1.members ++ p.2.members ++ others).Perm lengths

theorem ComparedIn.perm {lengths lengths' : List ℕ} {p : Lengths × Lengths}
    (h : ComparedIn lengths p) (hperm : lengths.Perm lengths') : ComparedIn lengths' p := by
  obtain ⟨hl, hinner, others, hothers⟩ := h
  exact ⟨hl, hinner, others, hothers.trans hperm⟩

theorem ComparedIn.more {lengths : List ℕ} {p : Lengths × Lengths} (h : ComparedIn lengths p)
    (more : List ℕ) : ComparedIn (lengths ++ more) p := by
  obtain ⟨hl, hinner, others, hothers⟩ := h
  refine ⟨hl, hinner, others ++ more, ?_⟩
  rw [← List.append_assoc]
  exact hothers.append_right more

theorem absorbComparisons_comparedIn (hl : Counts l) (hrest : AllCount rest) :
    ∀ p ∈ absorbComparisons tol l rest, ComparedIn (l.members ++ allMembers rest) p := by
  induction rest generalizing l with
  | nil => simp [absorbComparisons]
  | cons inner rest ih =>
      obtain ⟨hinner, hrest⟩ := List.forall_mem_cons.mp hrest
      intro p hp
      rcases List.mem_cons.mp hp with rfl | hp
      · exact ⟨hl, hinner, allMembers rest, by simp⟩
      · split at hp
        · have hjoin := ih (hl.join hinner) hrest p hp
          exact hjoin.perm (by simp [Lengths.join])
        · have hkept := (ih hl hrest p hp).more inner.members
          refine hkept.perm ?_
          simp only [allMembers_cons, List.append_assoc]
          exact List.perm_append_comm.append_left _

theorem mergeComparisons_comparedIn (h : AllCount clusters) :
    ∀ p ∈ mergeComparisons tol clusters, ComparedIn (allMembers clusters) p := by
  induction clusters using mergeComparisons.induct tol with
  | case1 => simp [mergeComparisons]
  | case2 l rest ih =>
      obtain ⟨hl, hrest⟩ := List.forall_mem_cons.mp h
      obtain ⟨-, htwo⟩ := @absorb_counts tol l rest hl hrest
      intro p hp
      rw [mergeComparisons] at hp
      rcases List.mem_append.mp hp with hp | hp
      · exact absorbComparisons_comparedIn hl hrest p hp
      · have hlater := (ih htwo p hp).more (absorb tol l rest).1.members
        exact hlater.perm (List.perm_append_comm.trans (absorb_perm l rest))

theorem comparisons_comparedIn (steps : List LengthStep) (h : AllCount clusters) :
    ∀ p ∈ comparisons tol clusters steps, ComparedIn (allMembers clusters ++ entered steps) p := by
  induction steps generalizing clusters with
  | nil => simp [comparisons]
  | cons step steps ih =>
      intro p hp
      have hentered : entered (step :: steps) = entered [step] ++ entered steps :=
        entered_append [step] steps
      have hstep : (allMembers (lengthStep tol clusters step) ++ entered steps).Perm
          (allMembers clusters ++ entered (step :: steps)) := by
        rw [hentered, ← List.append_assoc]
        exact (lengthStep_perm clusters step).append_right _
      rcases List.mem_append.mp hp with hp | hp
      · cases step with
        | add length => cases hp
        | merge => exact (mergeComparisons_comparedIn h p hp).more _
      · exact (ih (lengthStep_counts h step) p hp).perm hstep

theorem clustersAfter_counts (tol : Tolerance) (steps : List LengthStep) :
    AllCount (clustersAfter tol steps) := by
  induction steps using List.reverseRecOn with
  | nil => simp [clustersAfter, AllCount]
  | append_singleton steps step ih =>
      rw [clustersAfter, List.foldl_concat]
      exact lengthStep_counts ih step

/-- Every length that is entered is counted in one cluster. -/
theorem clustersAfter_perm (tol : Tolerance) (steps : List LengthStep) :
    (allMembers (clustersAfter tol steps)).Perm (entered steps) := by
  induction steps using List.reverseRecOn with
  | nil => exact .refl _
  | append_singleton steps step ih =>
      rw [clustersAfter, List.foldl_concat, entered_append]
      exact (lengthStep_perm _ step).trans (ih.append_right _)

end Steps

/-! ### When clusters are close -/

/-- The mean of the members of both clusters. -/
def jointMean (p : Lengths × Lengths) : ℕ :=
  (p.1.members.sum + p.2.members.sum) / (p.1.members.length + p.2.members.length)

/-- The range of a cluster lies within `aeps` of a mean. -/
def WithinAeps (tol : Tolerance) (mean : ℕ) (c : Lengths) : Prop :=
  c.max ≤ mean + tol.aeps ∧ mean - tol.aeps ≤ c.min

/-- The range of a cluster lies within `eps` percent of a mean. -/
def WithinEps (tol : Tolerance) (mean : ℕ) (c : Lengths) : Prop :=
  100 * c.max ≤ mean * (100 + tol.eps) ∧ mean * (100 - tol.eps) ≤ 100 * c.min

/-- Both ranges lie within `aeps` of the joint mean, or both within `eps` percent. -/
def Close (tol : Tolerance) (p : Lengths × Lengths) : Prop :=
  (WithinAeps tol (jointMean p) p.1 ∧ WithinAeps tol (jointMean p) p.2) ∨
    (WithinEps tol (jointMean p) p.1 ∧ WithinEps tol (jointMean p) p.2)

/-- The range of a cluster is compared with `eps` percents that are not divided
by 100, in 32 bits. -/
def Unscaled (tol : Tolerance) (mean : ℕ) (c : Lengths) : Prop :=
  c.max ≤ mean * (100 + tol.eps) % 2 ^ 32 ∧ mean * (100 - tol.eps) % 2 ^ 32 ≤ c.min

/-- Both ranges lie within `aeps` of the joint mean, or the missing division
does not matter: while nothing overflows and `eps` is below 99, the ranges do not
lie within `eps` percent. -/
def Harmless (tol : Tolerance) (p : Lengths × Lengths) : Prop :=
  (WithinAeps tol (jointMean p) p.1 ∧ WithinAeps tol (jointMean p) p.2) ∨
    if tol.eps < 99 ∧ jointMean p * 200 < 2 ^ 32 then
      ¬(WithinEps tol (jointMean p) p.1 ∧ WithinEps tol (jointMean p) p.2)
    else
      ((Unscaled tol (jointMean p) p.1 ∧ Unscaled tol (jointMean p) p.2) ↔
        (WithinEps tol (jointMean p) p.1 ∧ WithinEps tol (jointMean p) p.2))

section Close

variable {tol : Tolerance} {c : Lengths} {p : Lengths × Lengths} {lengths : List ℕ}

theorem u32_of_lt {n : ℕ} (h : n < 2 ^ 32) : u32 n = n := by
  rw [u32]
  omega

theorem sum_le_of_perm {a b others lengths : List ℕ} (h : (a ++ b ++ others).Perm lengths) :
    a.sum + b.sum ≤ lengths.sum ∧ a.length + b.length ≤ lengths.length := by
  have hsum := h.sum_eq
  have hlength := h.length_eq
  simp only [List.sum_append, List.length_append] at hsum hlength
  omega

/-- The mean is computed as it should be while nothing overflows. -/
theorem newMean_eq (h : ComparedIn lengths p) (hsum : lengths.sum < 2 ^ 31)
    (hlength : lengths.length < 2 ^ 32) : newMean p.1 p.2 = jointMean p := by
  obtain ⟨hl, hinner, others, hothers⟩ := h
  obtain ⟨hsums, hlengths⟩ := sum_le_of_perm hothers
  rw [newMean, jointMean, hl.sum, hinner.sum, hl.count, hinner.count, i32_of_lt (by omega),
    i32_of_lt (by omega), ← Nat.add_mod, Nat.mod_eq_of_lt (by omega), ← Nat.cast_add,
    u32_of_lt (by omega)]

/-- A range that lies below `2^31` is compared with `aeps` as it should be. -/
theorem nearMean_iff {mean : ℕ} (hmean : mean < 2 ^ 31) (hmin : 0 ≤ c.min) (hmin' : c.min < 2 ^ 31)
    (hmax : 0 ≤ c.max) (hmax' : c.max < 2 ^ 31) :
    nearMean tol mean c = true ↔ WithinAeps tol mean c := by
  have haeps := tol.aeps_lt
  simp only [nearMean, WithinAeps, Bool.and_eq_true, decide_eq_true_eq]
  rw [u32, u32, u32]
  omega

theorem scaledMean_iff {mean : ℕ} (hmin : 0 ≤ c.min) (hmin' : c.min < 2 ^ 31)
    (hmax : 0 ≤ c.max) (hmax' : c.max < 2 ^ 31) :
    scaledMean tol mean c = true ↔ Unscaled tol mean c := by
  simp only [scaledMean, Unscaled, Bool.and_eq_true, decide_eq_true_eq]
  rw [u32, u32, u32, u32]
  omega

theorem jointMean_le (p : Lengths × Lengths) :
    jointMean p ≤ p.1.members.sum + p.2.members.sum := Nat.div_le_self _ _

/-- The sum of lengths that are at least `m`. -/
theorem length_mul_le_sum {m : ℕ} {lengths : List ℕ} (h : ∀ x ∈ lengths, m ≤ x) :
    lengths.length * m ≤ lengths.sum := by
  simpa using List.card_nsmul_le_sum lengths m h

theorem Counts.length_pos (hc : Counts c) : 0 < c.members.length := by
  obtain ⟨x, hx, -⟩ := hc.min_mem
  exact List.length_pos_of_mem hx

/-- The range of a cluster is that of its members. -/
theorem Counts.bounds (hc : Counts c) :
    0 ≤ c.min ∧ c.min ≤ c.members.sum ∧ 0 ≤ c.max ∧ c.max ≤ c.members.sum := by
  obtain ⟨x, hx, hxmin⟩ := hc.min_mem
  obtain ⟨y, hy, hymax⟩ := hc.max_mem
  have hxle : x ≤ c.members.sum := List.le_sum_of_mem hx
  have hyle : y ≤ c.members.sum := List.le_sum_of_mem hy
  omega

/-- Some length is at most the mean, so that not all are twice as long. -/
theorem jointMean_eq_zero (hl : Counts p.1) (hinner : Counts p.2)
    (h : (2 * jointMean p : ℕ) ≤ p.1.min) (h' : (2 * jointMean p : ℕ) ≤ p.2.min) :
    jointMean p = 0 := by
  have hone : p.1.members.length * (2 * jointMean p) ≤ p.1.members.sum :=
    length_mul_le_sum fun x hx => by
      have hrange := (hl.range x hx).1
      omega
  have htwo : p.2.members.length * (2 * jointMean p) ≤ p.2.members.sum :=
    length_mul_le_sum fun x hx => by
      have hrange := (hinner.range x hx).1
      omega
  have hpos := hl.length_pos
  have hlt : p.1.members.sum + p.2.members.sum <
      (p.1.members.length + p.2.members.length) * (jointMean p + 1) :=
    Nat.lt_mul_div_succ _ (by omega)
  have hmul : (p.1.members.length + p.2.members.length) * (2 * jointMean p) <
      (p.1.members.length + p.2.members.length) * (jointMean p + 1) := by
    refine lt_of_le_of_lt ?_ hlt
    rw [Nat.add_mul]
    omega
  have htwice := lt_of_mul_lt_mul_left hmul (Nat.zero_le _)
  omega

/-- While nothing overflows, clusters that the comparison with `eps` would merge
are within `aeps` as well. -/
theorem withinAeps_of_unscaled {mean : ℕ} (heps : tol.eps < 99) (hmean : mean * 200 < 2 ^ 32)
    (h : Unscaled tol mean c) : ((2 * mean : ℕ) : ℤ) ≤ c.min ∧ (mean = 0 → c.max ≤ 0) := by
  obtain ⟨hmax, hmin⟩ := h
  have hpercents : (mean : ℤ) * (100 - tol.eps) = (mean * (100 - tol.eps) : ℕ) := by
    rw [Nat.cast_mul, Nat.cast_sub (by omega)]
    rfl
  have hlow : mean * 2 ≤ mean * (100 - tol.eps) := Nat.mul_le_mul_left _ (by omega)
  have hhigh : mean * (100 - tol.eps) ≤ mean * 200 := Nat.mul_le_mul_left _ (by omega)
  rw [hpercents] at hmin
  refine ⟨by omega, ?_⟩
  rintro rfl
  simpa using hmax

/-- Clusters are merged exactly when they are close, where the comparison is harmless. -/
theorem mergesWith_iff_close (h : ComparedIn lengths p) (hsum : lengths.sum < 2 ^ 31)
    (hlength : lengths.length < 2 ^ 32) :
    (mergesWith tol p.1 p.2 = true ↔ Close tol p) ↔ Harmless tol p := by
  have hmean := newMean_eq h hsum hlength
  obtain ⟨hl, hinner, others, hothers⟩ := h
  obtain ⟨hsums, -⟩ := sum_le_of_perm hothers
  have hmeanle := jointMean_le p
  have hnear (c : Lengths) (hc : Counts c) (hle : c.members.sum < 2 ^ 31) :
      nearMean tol (jointMean p) c = true ↔ WithinAeps tol (jointMean p) c := by
    obtain ⟨hmin, hmin', hmax, hmax'⟩ := hc.bounds
    exact nearMean_iff (by omega) hmin (by omega) hmax (by omega)
  have hscaled (c : Lengths) (hc : Counts c) (hle : c.members.sum < 2 ^ 31) :
      scaledMean tol (jointMean p) c = true ↔ Unscaled tol (jointMean p) c := by
    obtain ⟨hmin, hmin', hmax, hmax'⟩ := hc.bounds
    exact scaledMean_iff hmin (by omega) hmax (by omega)
  rw [mergesWith, hmean, Bool.or_eq_true, Bool.and_eq_true, Bool.and_eq_true,
    hnear p.1 hl (by omega), hnear p.2 hinner (by omega), hscaled p.1 hl (by omega),
    hscaled p.2 hinner (by omega), Close, Harmless]
  split
  · rename_i hplain
    obtain ⟨heps, hsmall⟩ := hplain
    have hnever (h : Unscaled tol (jointMean p) p.1 ∧ Unscaled tol (jointMean p) p.2) :
        WithinAeps tol (jointMean p) p.1 ∧ WithinAeps tol (jointMean p) p.2 := by
      obtain ⟨hone, hzero⟩ := withinAeps_of_unscaled heps hsmall h.1
      obtain ⟨htwo, hzero'⟩ := withinAeps_of_unscaled heps hsmall h.2
      have hmean0 := jointMean_eq_zero hl hinner hone htwo
      rw [WithinAeps, WithinAeps]
      have h1 := hzero hmean0
      have h2 := hzero' hmean0
      omega
    by_cases haeps : WithinAeps tol (jointMean p) p.1 ∧ WithinAeps tol (jointMean p) p.2
    · simp only [haeps, and_self, true_or]
    · have hnot := mt hnever haeps
      simp only [haeps, hnot, false_or, false_iff]
  · by_cases haeps : WithinAeps tol (jointMean p) p.1 ∧ WithinAeps tol (jointMean p) p.2
    · simp only [haeps, and_self, true_or]
    · simp only [haeps, false_or]

end Close

/-! ### The result -/

/-- What a series of calls leaves: the counts and the sums make up the lengths
that were entered, each of them lies in the range of the cluster it was counted
in, none is lost, and the clusters that were merged are those that were close. -/
structure Clustered (tol : Tolerance) (steps : List LengthStep) : Prop where
  counts : ((clustersAfter tol steps).map Lengths.count).sum % 2 ^ 32 = (entered steps).length
  sums : i32 ((clustersAfter tol steps).map Lengths.sum).sum = (entered steps).sum
  kept : (allMembers (clustersAfter tol steps)).Perm (entered steps)
  ranges : ∀ c ∈ clustersAfter tol steps, ∀ x ∈ c.members, c.min ≤ (x : ℕ) ∧ ((x : ℕ) : ℤ) ≤ c.max
  merged : ∀ p ∈ comparisons tol [] steps, mergesWith tol p.1 p.2 = true ↔ Close tol p

theorem count_sum_mod {clusters : List Lengths} (h : AllCount clusters) :
    (clusters.map Lengths.count).sum % 2 ^ 32 = (allMembers clusters).length % 2 ^ 32 := by
  induction clusters with
  | nil => rfl
  | cons c cs ih =>
      obtain ⟨hc, hcs⟩ := List.forall_mem_cons.mp h
      rw [List.map_cons, List.sum_cons, allMembers_cons, List.length_append, Nat.add_mod, ih hcs,
        hc.count, Nat.mod_mod, ← Nat.add_mod]

theorem i32_sum {clusters : List Lengths} (h : AllCount clusters) :
    i32 (clusters.map Lengths.sum).sum = i32 ((allMembers clusters).sum : ℕ) := by
  induction clusters with
  | nil => rfl
  | cons c cs ih =>
      obtain ⟨hc, hcs⟩ := List.forall_mem_cons.mp h
      rw [List.map_cons, List.sum_cons, allMembers_cons, List.sum_append, Nat.cast_add, hc.sum,
        i32_add_i32, add_comm, ← i32_add_i32, ih hcs, i32_add_i32, add_comm]

/-- The sum of the lengths fits an `int`, and their number its counter. -/
theorem fits_iff (tol : Tolerance) (steps : List LengthStep) :
    (((clustersAfter tol steps).map Lengths.count).sum % 2 ^ 32 = (entered steps).length ∧
      i32 ((clustersAfter tol steps).map Lengths.sum).sum = (entered steps).sum) ↔
      (entered steps).length < 2 ^ 32 ∧ (entered steps).sum < 2 ^ 31 := by
  have hcounts := clustersAfter_counts tol steps
  have hperm := clustersAfter_perm tol steps
  rw [count_sum_mod hcounts, i32_sum hcounts, hperm.length_eq, hperm.sum_eq]
  refine and_congr ⟨fun h => ?_, Nat.mod_eq_of_lt⟩ ⟨fun h => ?_, i32_of_lt⟩
  · rw [← h]
    exact Nat.mod_lt _ (by decide)
  · have hlt := @Int.bmod_lt ((entered steps).sum : ℤ) (2 ^ 32) (by decide)
    rw [i32] at h
    omega

/-- The clusters are right exactly when the number and the sum of the lengths fit
and every comparison is harmless. -/
theorem clustered_iff (tol : Tolerance) (steps : List LengthStep) : Clustered tol steps ↔
    ((entered steps).length < 2 ^ 32 ∧ (entered steps).sum < 2 ^ 31) ∧
      ∀ p ∈ comparisons tol [] steps, Harmless tol p := by
  have hcompared := @comparisons_comparedIn tol [] steps (by simp [AllCount])
  constructor
  · intro h
    obtain ⟨hlength, hsum⟩ := (fits_iff tol steps).mp ⟨h.counts, h.sums⟩
    exact ⟨⟨hlength, hsum⟩, fun p hp =>
      (mergesWith_iff_close (hcompared p hp) hsum hlength).mp (h.merged p hp)⟩
  · rintro ⟨hfits, hharmless⟩
    obtain ⟨hcounts, hsums⟩ := (fits_iff tol steps).mpr hfits
    refine ⟨hcounts, hsums, clustersAfter_perm tol steps, ?_, fun p hp =>
      (mergesWith_iff_close (hcompared p hp) hfits.2 hfits.1).mpr (hharmless p hp)⟩
    exact fun c hc => (clustersAfter_counts tol steps c hc).range

/-- 1000 µs and 1300 µs are within 30 percent of 1150 µs and stay apart. -/
theorem lengths_stay_apart : ¬∀ tol steps, Clustered tol steps := by
  intro h
  have hmerged := (h {} [.add 1000, .add 1300, .merge]).merged (newLength 1000, newLength 1300)
    (by simp [comparisons, stepComparisons, lengthStep, addLength, newLength, i32,
      mergeComparisons, absorbComparisons])
  have hclose : Close {} (newLength 1000, newLength 1300) := by
    refine Or.inr ?_
    norm_num [WithinEps, jointMean, newLength]
  exact absurd (hmerged.mpr hclose) (by decide)

end Lirc
