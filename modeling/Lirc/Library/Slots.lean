import Mathlib.Data.List.Basic

/-!
Tables with a fixed number of slots that are filled from the front. One value stands for
a slot that is free, so a search for it, or for something that it resembles, ends at the
first free slot.
-/

namespace Slots

variable {α : Type*}

/-- The table of `n` slots that holds `known`. -/
def table (n : ℕ) (free : α) (known : List α) : List α :=
  known ++ List.replicate (n - known.length) free

section

variable {n : ℕ} {free : α} {known : List α}

@[simp] theorem table_nil (n : ℕ) (free : α) : table n free [] = List.replicate n free := rfl

/-- A value is entered into the first free slot. -/
theorem table_set (h : known.length < n) (v : α) :
    (table n free known).set known.length v = table n free (known ++ [v]) := by
  have hfree : n - known.length = (n - (known ++ [v]).length) + 1 := by
    rw [List.length_append, List.length_singleton]
    omega
  rw [table, table, List.set_append_right _ _ (Nat.le_refl _), Nat.sub_self, hfree,
    List.replicate_succ, List.set_cons_zero, List.append_assoc, List.singleton_append]

/-- A search goes through what the table holds, and then comes to the free slots. -/
theorem findIdx?_table (p : α → Bool) :
    (table n free known).findIdx? p = (known.findIdx? p).or
      (if known.length < n ∧ p free = true then some known.length else none) := by
  rw [table, List.findIdx?_append, List.findIdx?_replicate]
  congr 1
  by_cases h : known.length < n ∧ p free = true
  · rw [if_pos h, if_pos ⟨Nat.sub_pos_of_lt h.1, h.2⟩, Option.map_some, Nat.zero_add]
  · rw [if_neg h, if_neg fun hp => h ⟨Nat.lt_of_sub_pos hp.1, hp.2⟩]
    rfl

theorem getElem?_table_of_lt {i : ℕ} (h : i < known.length) :
    (table n free known)[i]? = known[i]? := by
  rw [table, List.getElem?_append_left h]

theorem getElem?_table_length (h : known.length < n) :
    (table n free known)[known.length]? = some free := by
  rw [table, List.getElem?_append_right (Nat.le_refl _), Nat.sub_self,
    List.getElem?_replicate_of_lt (Nat.sub_pos_of_lt h)]

end

end Slots
