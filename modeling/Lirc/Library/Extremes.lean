import Mathlib.Data.List.Perm.Basic
import Mathlib.Order.Bounds.Basic
import Mathlib.Order.MinMax

/-!
A pass over a list that keeps the greatest or the least value it has seen, and
a pass that starts with a mark for "no value yet".
-/

namespace Extremes

variable {α β : Type*} [LinearOrder β] (g : α → β)

/-- The greatest value, from `b` on. -/
def keepMax (b : β) (l : List α) : β := l.foldl (fun m a => if m < g a then g a else m) b

/-- The least value, from `b` on. -/
def keepMin (b : β) (l : List α) : β := l.foldl (fun m a => if g a < m then g a else m) b

@[simp] theorem keepMax_nil (b : β) : keepMax g b [] = b := rfl

@[simp] theorem keepMin_nil (b : β) : keepMin g b [] = b := rfl

theorem keepMax_cons (b : β) (a : α) (l : List α) :
    keepMax g b (a :: l) = keepMax g (max b (g a)) l := by
  rw [keepMax, List.foldl_cons, ← max_def_lt, keepMax]

theorem keepMin_cons (b : β) (a : α) (l : List α) :
    keepMin g b (a :: l) = keepMin g (min (g a) b) l := by
  rw [keepMin, List.foldl_cons, ← min_def_lt, keepMin]

variable {g}

theorem keepMax_le_iff {b c : β} {l : List α} :
    keepMax g b l ≤ c ↔ b ≤ c ∧ ∀ a ∈ l, g a ≤ c := by
  induction l generalizing b with
  | nil => simp
  | cons a l ih => rw [keepMax_cons, ih, max_le_iff, List.forall_mem_cons, and_assoc]

theorem le_keepMin_iff {b c : β} {l : List α} :
    c ≤ keepMin g b l ↔ c ≤ b ∧ ∀ a ∈ l, c ≤ g a := by
  induction l generalizing b with
  | nil => simp
  | cons a l ih =>
      rw [keepMin_cons, ih, le_min_iff, List.forall_mem_cons, and_comm (a := c ≤ g a), and_assoc]

theorem le_keepMax {b : β} {l : List α} {a : α} (h : a ∈ l) : g a ≤ keepMax g b l :=
  (keepMax_le_iff.mp le_rfl).2 a h

theorem keepMin_le {b : β} {l : List α} {a : α} (h : a ∈ l) : keepMin g b l ≤ g a :=
  (le_keepMin_iff.mp le_rfl).2 a h

theorem keepMax_mem (b : β) (l : List α) : keepMax g b l = b ∨ ∃ a ∈ l, g a = keepMax g b l := by
  induction l generalizing b with
  | nil => exact .inl rfl
  | cons a l ih =>
      rw [keepMax_cons]
      rcases ih (max b (g a)) with h | ⟨a', ha', h⟩
      · rw [h]
        rcases max_choice b (g a) with hmax | hmax
        · exact .inl hmax
        · exact .inr ⟨a, List.mem_cons_self, hmax.symm⟩
      · exact .inr ⟨a', List.mem_cons_of_mem _ ha', h⟩

theorem keepMin_mem (b : β) (l : List α) : keepMin g b l = b ∨ ∃ a ∈ l, g a = keepMin g b l := by
  induction l generalizing b with
  | nil => exact .inl rfl
  | cons a l ih =>
      rw [keepMin_cons]
      rcases ih (min (g a) b) with h | ⟨a', ha', h⟩
      · rw [h]
        rcases min_choice (g a) b with hmin | hmin
        · exact .inr ⟨a, List.mem_cons_self, hmin.symm⟩
        · exact .inl hmin
      · exact .inr ⟨a', List.mem_cons_of_mem _ ha', h⟩

theorem keepMax_perm {b : β} {l l' : List α} (h : l.Perm l') :
    keepMax g b l = keepMax g b l' :=
  eq_of_forall_ge_iff fun c => by simp only [keepMax_le_iff, h.mem_iff]

/-! ### A mark for "no value yet" -/

variable (g) (unset : β)

/-- The least value, where `unset` gives way to every value. -/
def seekMin (b : β) (l : List α) : β :=
  l.foldl (fun m a => if m = unset ∨ g a < m then g a else m) b

/-- The greatest value, where `unset` gives way to every value. -/
def seekMax (b : β) (l : List α) : β :=
  l.foldl (fun m a => if m = unset ∨ m < g a then g a else m) b

variable {g unset}

theorem seekMin_of_ne {b : β} (hb : b ≠ unset) {l : List α} (hl : ∀ a ∈ l, g a ≠ unset) :
    seekMin g unset b l = keepMin g b l := by
  induction l generalizing b with
  | nil => rfl
  | cons a l ih =>
      obtain ⟨ha, hrest⟩ := List.forall_mem_cons.mp hl
      have hmin : min (g a) b ≠ unset := by
        rcases min_choice (g a) b with h | h
        · rw [h]; exact ha
        · rw [h]; exact hb
      rw [keepMin_cons, ← ih hmin hrest, seekMin, List.foldl_cons, seekMin, min_def_lt]
      simp only [hb, false_or]

theorem seekMax_of_ne {b : β} (hb : b ≠ unset) {l : List α} (hl : ∀ a ∈ l, g a ≠ unset) :
    seekMax g unset b l = keepMax g b l := by
  induction l generalizing b with
  | nil => rfl
  | cons a l ih =>
      obtain ⟨ha, hrest⟩ := List.forall_mem_cons.mp hl
      have hmax : max b (g a) ≠ unset := by
        rcases max_choice b (g a) with h | h
        · rw [h]; exact hb
        · rw [h]; exact ha
      rw [keepMax_cons, ← ih hmax hrest, seekMax, List.foldl_cons, seekMax, max_def_lt]
      simp only [hb, false_or]

/-- Where no value is the mark, the first value sets out. -/
theorem seekMin_cons {a : α} {l : List α} (h : ∀ x ∈ a :: l, g x ≠ unset) :
    seekMin g unset unset (a :: l) = keepMin g (g a) l := by
  obtain ⟨ha, hl⟩ := List.forall_mem_cons.mp h
  rw [← seekMin_of_ne ha hl, seekMin, List.foldl_cons, if_pos (.inl rfl), seekMin]

theorem seekMax_cons {a : α} {l : List α} (h : ∀ x ∈ a :: l, g x ≠ unset) :
    seekMax g unset unset (a :: l) = keepMax g (g a) l := by
  obtain ⟨ha, hl⟩ := List.forall_mem_cons.mp h
  rw [← seekMax_of_ne ha hl, seekMax, List.foldl_cons, if_pos (.inl rfl), seekMax]

theorem le_seekMin_iff {c : β} {l : List α} (hne : l ≠ []) (h : ∀ x ∈ l, g x ≠ unset) :
    c ≤ seekMin g unset unset l ↔ ∀ a ∈ l, c ≤ g a := by
  obtain ⟨a, l, rfl⟩ := List.exists_cons_of_ne_nil hne
  rw [seekMin_cons h, le_keepMin_iff, List.forall_mem_cons]

theorem seekMax_le_iff {c : β} {l : List α} (hne : l ≠ []) (h : ∀ x ∈ l, g x ≠ unset) :
    seekMax g unset unset l ≤ c ↔ ∀ a ∈ l, g a ≤ c := by
  obtain ⟨a, l, rfl⟩ := List.exists_cons_of_ne_nil hne
  rw [seekMax_cons h, keepMax_le_iff, List.forall_mem_cons]

theorem seekMin_perm {l l' : List α} (h : l.Perm l') (hl : ∀ x ∈ l, g x ≠ unset) :
    seekMin g unset unset l = seekMin g unset unset l' := by
  have hl' : ∀ x ∈ l', g x ≠ unset := fun x hx => hl x (h.mem_iff.mpr hx)
  cases l with
  | nil => rw [h.nil_eq]
  | cons a l =>
      have hne' : l' ≠ [] := fun hnil => List.cons_ne_nil a l (hnil ▸ h).eq_nil
      refine eq_of_forall_le_iff fun c => ?_
      rw [le_seekMin_iff (List.cons_ne_nil a l) hl, le_seekMin_iff hne' hl']
      simp only [h.mem_iff]

theorem seekMax_perm {l l' : List α} (h : l.Perm l') (hl : ∀ x ∈ l, g x ≠ unset) :
    seekMax g unset unset l = seekMax g unset unset l' := by
  have hl' : ∀ x ∈ l', g x ≠ unset := fun x hx => hl x (h.mem_iff.mpr hx)
  cases l with
  | nil => rw [h.nil_eq]
  | cons a l =>
      have hne' : l' ≠ [] := fun hnil => List.cons_ne_nil a l (hnil ▸ h).eq_nil
      refine eq_of_forall_ge_iff fun c => ?_
      rw [seekMax_le_iff (List.cons_ne_nil a l) hl, seekMax_le_iff hne' hl']
      simp only [h.mem_iff]

end Extremes
