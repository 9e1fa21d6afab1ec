import Mathlib.Algebra.Group.Nat.Even
import Mathlib.Data.Int.Basic
import Mathlib.Tactic.Linarith
import Mathlib.Tactic.Ring

/-!
Laps of a loop that may stop: a lap gives the state the next one starts in, or
nothing where the loop stops. Where laps from states that differ in a count
alone add the same to it, and the count is bounded, the laps go on for ever
exactly when one of them adds nothing.
-/

namespace Laps

variable {σ : Type*}

/-- The state after `n` laps. -/
def laps (lap : σ → Option σ) : ℕ → σ → Option σ
  | 0, s => some s
  | n + 1, s => (lap s).bind (laps lap n)

section

variable {lap : σ → Option σ} {s t : σ} {n m : ℕ}

@[simp] theorem laps_zero (s : σ) : laps lap 0 s = some s := rfl

theorem laps_succ (n : ℕ) (s : σ) : laps lap (n + 1) s = (lap s).bind (laps lap n) := rfl

theorem laps_add (n m : ℕ) (s : σ) :
    laps lap (n + m) s = (laps lap n s).bind (laps lap m) := by
  induction n generalizing s with
  | zero => rw [Nat.zero_add, laps_zero, Option.bind_some]
  | succ n ih =>
      rw [Nat.succ_add, laps_succ, laps_succ, Option.bind_assoc]
      exact congrArg _ (funext ih)

theorem laps_succ_right (n : ℕ) (s : σ) : laps lap (n + 1) s = (laps lap n s).bind lap := by
  rw [laps_add]
  exact congrArg _ (funext fun t => by rw [laps_succ, funext laps_zero, Option.bind_fun_some])

/-- The laps never stop. -/
def Endless (lap : σ → Option σ) (s : σ) : Prop := ∀ n, (laps lap n s).isSome

theorem endless_iff_of_lap (h : lap s = some t) : Endless lap s ↔ Endless lap t := by
  constructor
  · intro hs n
    have hn := hs (n + 1)
    rwa [laps_succ, h, Option.bind_some] at hn
  · intro ht n
    cases n with
    | zero => rfl
    | succ n =>
        rw [laps_succ, h, Option.bind_some]
        exact ht n

theorem Endless.next (h : Endless lap s) : ∃ t, lap s = some t ∧ Endless lap t := by
  have hone := h 1
  rw [laps_succ, funext laps_zero, Option.bind_fun_some] at hone
  obtain ⟨t, ht⟩ := Option.isSome_iff_exists.mp hone
  exact ⟨t, ht, (endless_iff_of_lap ht).mp h⟩

theorem endless_iff_of_laps (h : laps lap n s = some t) : Endless lap s ↔ Endless lap t := by
  induction n generalizing s with
  | zero => rw [Option.some.inj h]
  | succ n ih =>
      rw [laps_succ] at h
      obtain ⟨u, hu, ht⟩ := Option.bind_eq_some_iff.mp h
      rw [endless_iff_of_lap hu, ih ht]

end

/-! ### Laps that add the same -/

section Shift

variable {lap : σ → Option σ} {count : σ → ℕ} {near : ℤ → σ → σ → Prop} {bound : ℕ}
variable {s t : σ} {d : ℤ}

/-- A lap that adds nothing is followed by laps that add nothing. -/
theorem endless_of_near_zero
    (hsame : ∀ s s' t, near 0 s s' → lap s = some t → ∃ t', lap s' = some t' ∧ near 0 t t')
    (hlap : lap s = some t) (hnear : near 0 s t) : Endless lap s := by
  intro n
  induction n generalizing s t with
  | zero => rfl
  | succ n ih =>
      obtain ⟨u, hu, hnext⟩ := hsame s t t hnear hlap
      rw [laps_succ, hlap, Option.bind_some]
      exact ih hu hnext

/-- States that do not differ in what matters lead to laps without end, however
many laps there are between them. -/
theorem endless_of_recurrence
    (hsame : ∀ s s' t, near 0 s s' → lap s = some t → ∃ t', lap s' = some t' ∧ near 0 t t')
    {n : ℕ} (hn : 0 < n) (hlap : laps lap n s = some t) (hnear : near 0 s t) :
    Endless lap s := by
  have hlaps : ∀ m s s' t, near 0 s s' → laps lap m s = some t →
      ∃ t', laps lap m s' = some t' ∧ near 0 t t' := by
    intro m
    induction m with
    | zero =>
        intro s s' t hst ht
        exact ⟨s', rfl, (Option.some.inj ht) ▸ hst⟩
    | succ m ih =>
        intro s s' t hst ht
        rw [laps_succ] at ht
        obtain ⟨u, hu, ht⟩ := Option.bind_eq_some_iff.mp ht
        obtain ⟨u', hu', huu⟩ := hsame s s' u hst hu
        obtain ⟨t', ht', htt⟩ := ih u u' t huu ht
        exact ⟨t', by rw [laps_succ, hu', Option.bind_some, ht'], htt⟩
  have hmany : ∀ k, (laps lap (k * n) s).isSome := by
    have hblock := @endless_of_near_zero _ (laps lap n) near _ _ (hlaps n) hlap hnear
    have hmul : ∀ k s, laps (laps lap n) k s = laps lap (k * n) s := by
      intro k
      induction k with
      | zero => intro s; rw [Nat.zero_mul]; rfl
      | succ k ih =>
          intro s
          rw [laps_succ, Nat.succ_mul, Nat.add_comm, laps_add]
          exact congrArg _ (funext ih)
    intro k
    rw [← hmul]
    exact hblock k
  intro m
  have hsome := hmany m
  obtain ⟨j, hj⟩ : ∃ j, m * n = m + j := ⟨m * n - m, by
    have hle : m * 1 ≤ m * n := Nat.mul_le_mul_left m hn
    omega⟩
  rw [hj, laps_add] at hsome
  cases hm : laps lap m s with
  | none => rw [hm, Option.bind_none] at hsome; exact hsome
  | some u => rfl

/-- Laps that keep adding, or taking away, stop at a bound. -/
theorem not_endless_of_near
    (hcount : ∀ d s t, near d s t → (count t : ℤ) = count s + d)
    (hbound : ∀ d s t, near d s t → count t ≤ bound)
    (hshift : ∀ s s' t t', near d s s' → lap s = some t → lap s' = some t' → near d t t')
    (hd : d ≠ 0) (hlap : lap s = some t) (hnear : near d s t) : ¬Endless lap s := by
  intro hendless
  have hrun : ∀ n : ℕ, ∃ u v, laps lap n s = some u ∧ lap u = some v ∧ near d u v ∧
      (count v : ℤ) = count s + (n + 1) * d := by
    intro n
    induction n with
    | zero =>
        refine ⟨s, t, rfl, hlap, hnear, ?_⟩
        rw [hcount d s t hnear]
        push_cast
        ring
    | succ n ih =>
        obtain ⟨u, v, hu, huv, hnear', hv⟩ := ih
        have hv' : laps lap (n + 1) s = some v := by
          rw [laps_succ_right, hu, Option.bind_some, huv]
        obtain ⟨x, hx, -⟩ := ((endless_iff_of_laps hv').mp hendless).next
        have hvx := hshift u v v x hnear' huv hx
        refine ⟨v, x, hv', hx, hvx, ?_⟩
        rw [hcount d v x hvx, hv]
        push_cast
        ring
  obtain ⟨u, v, -, -, huv, hv⟩ := hrun (bound + count s)
  have hle := hbound d u v huv
  have hpos : (0 : ℤ) ≤ count v := Int.natCast_nonneg _
  push_cast at hv
  rcases lt_or_gt_of_ne hd with hneg | hpos'
  · have hmul : ((bound : ℤ) + count s + 1) * d ≤ ((bound : ℤ) + count s + 1) * -1 :=
      mul_le_mul_of_nonneg_left (by omega) (by omega)
    linarith
  · have hmul : ((bound : ℤ) + count s + 1) * 1 ≤ ((bound : ℤ) + count s + 1) * d :=
      mul_le_mul_of_nonneg_left (by omega) (by omega)
    have hcast : (count v : ℤ) ≤ bound := by exact_mod_cast hle
    have hcount0 : (0 : ℤ) ≤ count s := Int.natCast_nonneg _
    linarith

end Shift

end Laps
