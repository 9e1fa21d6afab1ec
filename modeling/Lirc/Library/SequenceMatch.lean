import Mathlib.Data.List.Forall2
import Mathlib.Tactic.Common

/-!
Matching a sequence of patterns against inputs that come one at a time. The
place in the sequence is the length of its longest proper beginning that the
last inputs match. An input that matches the pattern at the place goes on with
it; after any other input the new place is found among the beginnings that the
last inputs matched before.
-/

namespace SequenceMatch

variable {π τ : Type*} (m : π → τ → Prop)

/-- The last inputs match the first `k` patterns. -/
def Ends (pats : List π) (k : ℕ) (inputs : List τ) : Prop :=
  ∃ before last, inputs = before ++ last ∧ List.Forall₂ m (pats.take k) last

/-- The place in the sequence. -/
structure AtPlace (pats : List π) (inputs : List τ) (k : ℕ) : Prop where
  lt : k < pats.length
  ends : Ends m pats k inputs
  longest : ∀ j, j < pats.length → Ends m pats j inputs → j ≤ k

variable {m} {pats : List π} {inputs : List τ} {k j : ℕ} {x : τ}

theorem ends_zero (pats : List π) (inputs : List τ) : Ends m pats 0 inputs :=
  ⟨inputs, [], (List.append_nil _).symm, .nil⟩

theorem forall₂_concat {ps : List π} {xs : List τ} {p : π} :
    List.Forall₂ m (ps ++ [p]) (xs ++ [x]) ↔ List.Forall₂ m ps xs ∧ m p x := by
  rw [← List.forall₂_reverse_iff, List.reverse_append, List.reverse_append]
  simp only [List.reverse_singleton, List.singleton_append, List.forall₂_cons,
    List.forall₂_reverse_iff]
  exact and_comm

/-- One more input matches one more pattern. -/
theorem ends_concat {p : π} (hp : pats[k]? = some p) :
    Ends m pats (k + 1) (inputs ++ [x]) ↔ Ends m pats k inputs ∧ m p x := by
  have htake : pats.take (k + 1) = pats.take k ++ [p] := by
    rw [List.take_add_one, hp]
    rfl
  constructor
  · rintro ⟨before, last, heq, hall⟩
    rw [htake] at hall
    obtain ⟨xs, y, rfl⟩ : ∃ xs y, last = xs ++ [y] := by
      obtain rfl | h := last.eq_nil_or_concat'
      · have hlen := hall.length_eq
        simp at hlen
      · exact h
    rw [← List.append_assoc] at heq
    obtain ⟨rfl, hxy⟩ := List.append_inj' heq rfl
    obtain rfl : x = y := List.singleton_inj.mp hxy
    obtain ⟨hxs, hpx⟩ := forall₂_concat.mp hall
    exact ⟨⟨before, xs, rfl, hxs⟩, hpx⟩
  · rintro ⟨⟨before, last, rfl, hall⟩, hpx⟩
    refine ⟨before, last ++ [x], List.append_assoc .., ?_⟩
    rw [htake]
    exact forall₂_concat.mpr ⟨hall, hpx⟩

theorem atPlace_nil (hpats : pats ≠ []) : AtPlace m pats [] 0 := by
  refine ⟨List.length_pos_iff.mpr hpats, ends_zero _ _, ?_⟩
  rintro j hj ⟨before, last, heq, hall⟩
  obtain ⟨-, rfl⟩ := List.append_eq_nil_iff.mp heq.symm
  have hlen := hall.length_eq
  rw [List.length_take, List.length_nil] at hlen
  omega

/-! ### One input -/

/-- Every beginning that an input completes started with one that is no longer
than the place. -/
theorem AtPlace.of_ends_concat (h : AtPlace m pats inputs k) {p : π} (hp : pats[j]? = some p)
    (hends : Ends m pats (j + 1) (inputs ++ [x])) : j ≤ k ∧ Ends m pats j inputs ∧ m p x := by
  obtain ⟨hj, hpx⟩ := (ends_concat hp).mp hends
  exact ⟨h.longest j (List.getElem?_eq_some_iff.mp hp).1 hj, hj, hpx⟩

/-- The whole sequence is matched when the input matches the last pattern at its
place. -/
theorem AtPlace.completes_iff (h : AtPlace m pats inputs k) {p : π} (hp : pats[k]? = some p) :
    Ends m pats pats.length (inputs ++ [x]) ↔ k + 1 = pats.length ∧ m p x := by
  have hlt := h.lt
  constructor
  · intro hends
    obtain ⟨n, hn⟩ : ∃ n, pats.length = n + 1 := ⟨pats.length - 1, by omega⟩
    have hq := List.getElem?_eq_getElem (l := pats) (i := n) (by omega)
    rw [hn] at hends
    obtain ⟨hle, -, hpx⟩ := h.of_ends_concat hq hends
    obtain rfl : n = k := by omega
    rw [hp] at hq
    obtain rfl := Option.some.inj hq
    exact ⟨hn.symm, hpx⟩
  · rintro ⟨hn, hpx⟩
    rw [← hn]
    exact (ends_concat hp).mpr ⟨h.ends, hpx⟩

/-- The input matches the pattern at the place, and the sequence goes on. -/
theorem AtPlace.advance (h : AtPlace m pats inputs k) {p : π} (hp : pats[k]? = some p)
    (hpx : m p x) (hlt : k + 1 < pats.length) : AtPlace m pats (inputs ++ [x]) (k + 1) := by
  refine ⟨hlt, (ends_concat hp).mpr ⟨h.ends, hpx⟩, ?_⟩
  intro j hj hends
  cases j with
  | zero => omega
  | succ j =>
      have hq := List.getElem?_eq_getElem (l := pats) (i := j) (by omega)
      have hle := (h.of_ends_concat hq hends).1
      omega

/-- The place is the longest beginning that the input goes on with. -/
theorem AtPlace.fallBack (h : AtPlace m pats inputs k) {p : π} (hp : pats[j]? = some p)
    (hj : j < k) (hends : Ends m pats j inputs) (hpx : m p x)
    (hlonger : ∀ i q, j < i → i ≤ k → pats[i]? = some q → Ends m pats i inputs → ¬m q x) :
    AtPlace m pats (inputs ++ [x]) (j + 1) := by
  have hlt := h.lt
  refine ⟨by omega, (ends_concat hp).mpr ⟨hends, hpx⟩, ?_⟩
  intro i hi hends'
  cases i with
  | zero => omega
  | succ i =>
      have hq := List.getElem?_eq_getElem (l := pats) (i := i) (by omega)
      obtain ⟨hle, hi', hqx⟩ := h.of_ends_concat hq hends'
      by_contra hlong
      exact hlonger i _ (by omega) hle hq hi' hqx

/-- No beginning goes on with the input. -/
theorem AtPlace.startOver (h : AtPlace m pats inputs k)
    (hnone : ∀ i q, i ≤ k → pats[i]? = some q → Ends m pats i inputs → ¬m q x) :
    AtPlace m pats (inputs ++ [x]) 0 := by
  have hlt := h.lt
  refine ⟨by omega, ends_zero _ _, ?_⟩
  intro i hi hends
  cases i with
  | zero => exact Nat.le_refl 0
  | succ i =>
      have hq := List.getElem?_eq_getElem (l := pats) (i := i) (by omega)
      obtain ⟨hle, hi', hqx⟩ := h.of_ends_concat hq hends
      exact absurd hqx (hnone i _ hle hq hi')

/-! ### Beginnings of the sequence inside it -/

variable {agree : π → π → Prop}

theorem forall₂_agree {ps qs : List π} {xs : List τ}
    (hagree : ∀ p ∈ ps, ∀ q ∈ qs, ∀ y, m q y → (agree p q ↔ m p y))
    (h : List.Forall₂ m qs xs) : List.Forall₂ agree ps qs ↔ List.Forall₂ m ps xs := by
  induction h generalizing ps with
  | nil => rw [List.forall₂_nil_right_iff, List.forall₂_nil_right_iff]
  | @cons q y qs ys hqy _ ih =>
      cases ps with
      | nil => simp
      | cons p ps =>
          have hrest : List.Forall₂ agree ps qs ↔ List.Forall₂ m ps ys := ih fun p' hp' q' hq' =>
            hagree p' (List.mem_cons_of_mem _ hp') q' (List.mem_cons_of_mem _ hq')
          rw [List.forall₂_cons, List.forall₂_cons, hrest,
            hagree p List.mem_cons_self q List.mem_cons_self y hqy]

/-- Which beginnings the last inputs match can be told from the sequence alone:
those that agree with the end of the beginning that is matched. -/
theorem ends_iff_agree (hagree : ∀ p ∈ pats, ∀ q ∈ pats, ∀ y, m q y → (agree p q ↔ m p y))
    (hends : Ends m pats k inputs) (hk : k ≤ pats.length) (hj : j ≤ k) :
    Ends m pats j inputs ↔ List.Forall₂ agree (pats.take j) ((pats.drop (k - j)).take j) := by
  obtain ⟨before, last, rfl, hall⟩ := hends
  have hlen : last.length = k := by
    rw [← hall.length_eq, List.length_take, Nat.min_eq_left hk]
  have hend : List.Forall₂ m ((pats.drop (k - j)).take j) (last.drop (k - j)) := by
    have hdrop := List.forall₂_drop (k - j) hall
    rwa [List.drop_take, Nat.sub_sub_self hj] at hdrop
  rw [forall₂_agree (fun p hp q hq => hagree p (List.mem_of_mem_take hp) q
    (List.mem_of_mem_drop (List.mem_of_mem_take hq))) hend]
  constructor
  · rintro ⟨before', last', heq, hall'⟩
    have hlen' : last'.length = j := by
      rw [← hall'.length_eq, List.length_take, Nat.min_eq_left (Nat.le_trans hj hk)]
    have hsame : last' = last.drop (k - j) := by
      have hdrop := congrArg (List.drop before'.length) heq
      have htotal := congrArg List.length heq
      simp only [List.length_append] at htotal
      rw [List.drop_left, List.drop_append, List.drop_eq_nil_of_le (by omega),
        List.nil_append] at hdrop
      rw [← hdrop]
      congr 1
      omega
    rwa [← hsame]
  · intro hmatch
    exact ⟨before ++ last.take (k - j), last.drop (k - j), by
      rw [List.append_assoc, List.take_append_drop], hmatch⟩

end SequenceMatch
