import Mathlib.Data.List.Basic
import Mathlib.Logic.Function.Basic

/-!
Ring buffers. `Holds n ring first xs` says that the cells from `first` on, around the end
of a ring of `n` cells, hold `xs`. A ring that is full and one that is empty have the
same two indices, so the contents are not read from these.
-/

namespace Ring

variable {α : Type*}

/-- The index behind the last cell is the first. -/
def wrap (n i : ℕ) : ℕ := if n ≤ i then i - n else i

theorem wrap_eq {n i : ℕ} (h : i < 2 * n) : wrap n i = i % n := by
  rw [wrap]
  split
  · rw [Nat.mod_eq_sub_mod ‹_›, Nat.mod_eq_of_lt (by omega)]
  · rw [Nat.mod_eq_of_lt (by omega)]

/-- The cells from `first` on hold `xs`. -/
structure Holds (n : ℕ) (ring : ℕ → α) (first : ℕ) (xs : List α) : Prop where
  first_lt : first < n
  length_le : xs.length ≤ n
  get : ∀ i x, xs[i]? = some x → ring ((first + i) % n) = x

section

variable {n first : ℕ} {ring : ℕ → α} {xs ys : List α} {x : α}

theorem holds_nil (ring : ℕ → α) (h : first < n) : Holds n ring first ([] : List α) :=
  ⟨h, Nat.zero_le n, nofun⟩

/-- Only the cells of the ring count. -/
theorem Holds.congr (h : Holds n ring first xs) {ring' : ℕ → α}
    (heq : ∀ i < n, ring' i = ring i) : Holds n ring' first xs := by
  refine ⟨h.first_lt, h.length_le, fun i x hx => ?_⟩
  have hpos := h.first_lt
  rw [heq _ (Nat.mod_lt _ (by omega))]
  exact h.get i x hx

theorem Holds.head (h : Holds n ring first (x :: xs)) : ring first = x := by
  have hget := h.get 0 x rfl
  rw [Nat.add_zero, Nat.mod_eq_of_lt h.first_lt] at hget
  exact hget

/-- A cell behind those that are held is free while there are fewer of them than cells. -/
theorem Holds.store (h : Holds n ring first xs) (hroom : xs.length < n) (x : α) :
    Holds n (Function.update ring ((first + xs.length) % n) x) first (xs ++ [x]) := by
  have hfirst := h.first_lt
  refine ⟨hfirst, by rw [List.length_append, List.length_singleton]; omega, fun i y hy => ?_⟩
  by_cases hi : i < xs.length
  · rw [List.getElem?_append_left hi] at hy
    have hne : (first + i) % n ≠ (first + xs.length) % n := by
      intro heq
      rw [← wrap_eq (by omega), ← wrap_eq (by omega), wrap, wrap] at heq
      split at heq <;> split at heq <;> omega
    rw [Function.update_of_ne hne]
    exact h.get i y hy
  · have hlen : i = xs.length := by
      have hlt := (List.getElem?_eq_some_iff.mp hy).1
      rw [List.length_append, List.length_singleton] at hlt
      omega
    rw [hlen, List.getElem?_append_right (Nat.le_refl _), Nat.sub_self] at hy
    rw [hlen, Function.update_self]
    exact Option.some.inj hy

/-- What has been read no longer counts. -/
theorem Holds.drop (h : Holds n ring first (xs ++ ys)) :
    Holds n ring ((first + xs.length) % n) ys := by
  have hfirst := h.first_lt
  have hlen := h.length_le
  rw [List.length_append] at hlen
  refine ⟨Nat.mod_lt _ (by omega), by omega, fun i y hy => ?_⟩
  have hget := h.get (xs.length + i) y (by
    rw [List.getElem?_append_right (Nat.le_add_right _ _), Nat.add_sub_cancel_left]
    exact hy)
  rw [Nat.mod_add_mod, Nat.add_assoc]
  exact hget

/-- The cells up to the end of the ring, and those behind it that repeat the first ones. -/
theorem Holds.read (h : Holds n ring first (xs ++ ys))
    (hcopy : ∀ i, n ≤ i → i < first + xs.length → ring i = ring (i - n)) :
    ((List.range xs.length).map fun i => ring (first + i)) = xs := by
  have hlen := h.length_le
  rw [List.length_append] at hlen
  have hfirst := h.first_lt
  apply List.ext_getElem
  · rw [List.length_map, List.length_range]
  · intro i hi hxs
    rw [List.getElem_map, List.getElem_range]
    have hget := h.get i xs[i] (by rw [List.getElem?_append_left hxs, List.getElem?_eq_getElem hxs])
    by_cases hwrap : n ≤ first + i
    · rw [hcopy _ hwrap (by omega), ← hget, Nat.mod_eq_sub_mod hwrap, Nat.mod_eq_of_lt (by omega)]
    · rw [← hget, Nat.mod_eq_of_lt (by omega)]

end

end Ring
