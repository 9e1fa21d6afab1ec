import Mathlib.Data.List.Basic

/-!
An array and what lies in memory behind it. A loop whose bound goes wrong reads what is
there; the rules tell the reads within the array from the others.
-/

namespace Extent

variable {α : Type*}

/-- The memory at an array. -/
def memory (xs : List α) (beyond : ℕ → α) (i : ℕ) : α := xs.getD i (beyond i)

@[simp] theorem memory_append (pre rest : List α) (x : α) (beyond : ℕ → α) :
    memory (pre ++ x :: rest) beyond pre.length = x := by
  rw [memory, List.getD_eq_getElem?_getD, List.getElem?_append_right (Nat.le_refl _), Nat.sub_self]
  rfl

end Extent
