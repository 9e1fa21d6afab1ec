import Lirc.Library.CString

/-!
Arrays of bytes that hold a string. An access outside the array is `none`, and so is
the length of a string that has no end in it. `Stores` says that the array begins
with a string; the rules below are about what the string becomes.
-/

namespace Memory

open CString

/-- `mem[i] = c` -/
def store (mem : List Char) (i : ℕ) (c : Char) : Option (List Char) :=
  if i < mem.length then some (mem.set i c) else none

/-- The bytes are copied to `mem + i`. -/
def copyTo (mem : List Char) (i : ℕ) (bytes : List Char) : Option (List Char) :=
  if i + bytes.length ≤ mem.length then
    some (mem.take i ++ bytes ++ mem.drop (i + bytes.length))
  else none

/-- The string in the array. -/
def string (mem : List Char) : Option (List Char) := if nul ∈ mem then some (cstr mem) else none

/-- The array begins with the string. -/
def Stores (mem s : List Char) : Prop := nul ∉ s ∧ ∃ junk, mem = s ++ nul :: junk

section Rules

variable {mem s : List Char}

theorem Stores.length_lt (h : Stores mem s) : s.length < mem.length := by
  obtain ⟨-, junk, rfl⟩ := h
  rw [List.length_append, List.length_cons]
  omega

theorem Stores.string (h : Stores mem s) : string mem = some s := by
  obtain ⟨hs, junk, rfl⟩ := h
  have hmem : nul ∈ s ++ nul :: junk := List.mem_append_right _ List.mem_cons_self
  have hhead : cstr (nul :: junk) = [] := by
    rw [cstr, List.takeWhile_cons, if_neg]
    exact fun h => absurd rfl (bne_iff_ne.mp h)
  have hcut : cstr (s ++ nul :: junk) = s ++ cstr (nul :: junk) := by
    apply List.takeWhile_append_of_pos
    intro c hc
    exact bne_iff_ne.mpr fun heq => hs (heq ▸ hc)
  rw [Memory.string, if_pos hmem, hcut, hhead, List.append_nil]

/-- An array with a zero byte begins with a string. -/
theorem stores_cstr (h : nul ∈ mem) : Stores mem (cstr mem) := by
  have hsplit : cstr mem ++ mem.dropWhile (· != nul) = mem := List.takeWhile_append_dropWhile
  have hcstr : nul ∉ cstr mem := by
    intro hmem
    have hkept : (nul != nul) = true := List.mem_takeWhile_imp (p := (· != nul)) hmem
    exact absurd hkept (by decide)
  refine ⟨hcstr, ?_⟩
  cases hrest : mem.dropWhile (· != nul) with
  | nil =>
      rw [hrest, List.append_nil] at hsplit
      rw [hsplit] at hcstr
      exact absurd h hcstr
  | cons c junk =>
      have hc : c = nul := by
        have hhead := List.head_dropWhile_not (p := (· != nul)) (l := mem) (by rw [hrest]; simp)
        simp only [hrest, List.head_cons, bne_eq_false_iff_eq] at hhead
        exact hhead
      rw [hrest, hc] at hsplit
      exact ⟨junk, hsplit.symm⟩

theorem Stores.nul_mem (h : Stores mem s) : nul ∈ mem := by
  obtain ⟨-, junk, rfl⟩ := h
  exact List.mem_append_right _ List.mem_cons_self

/-- The rest of the string. -/
theorem Stores.drop {front rest : List Char} (h : Stores mem (front ++ rest)) :
    Stores (mem.drop front.length) rest := by
  obtain ⟨hs, junk, rfl⟩ := h
  refine ⟨fun hmem => hs (List.mem_append_right _ hmem), junk, ?_⟩
  rw [List.append_assoc, List.drop_left]

/-- The string is cut at an index in it. -/
theorem Stores.cut {front rest : List Char} (h : Stores mem (front ++ rest)) :
    ∃ mem', store mem front.length nul = some mem' ∧ Stores mem' front := by
  have hlength := h.length_lt
  obtain ⟨hs, junk, rfl⟩ := h
  rw [List.length_append] at hlength
  refine ⟨_, if_pos (by omega), fun hmem => hs (List.mem_append_left _ hmem),
    (rest ++ nul :: junk).tail, ?_⟩
  rw [List.append_assoc, List.set_append_right _ _ (le_refl _), Nat.sub_self]
  cases rest with
  | nil => rfl
  | cons c rest => rfl

/-- A zero byte behind the string. -/
theorem Stores.store_behind (h : Stores mem s) {i : ℕ} (hi : s.length ≤ i) (hlt : i < mem.length) :
    ∃ mem', store mem i nul = some mem' ∧ mem'.length = mem.length ∧ Stores mem' s := by
  obtain ⟨hs, junk, rfl⟩ := h
  refine ⟨_, if_pos hlt, List.length_set .., hs, (List.set (nul :: junk) (i - s.length) nul).tail, ?_⟩
  rw [List.set_append_right _ _ hi]
  cases i - s.length with
  | zero => rfl
  | succ k => rfl

/-- A string is copied to the beginning. -/
theorem copyTo_string (hs : nul ∉ s) (hlength : s.length < mem.length) :
    ∃ mem', copyTo mem 0 (s ++ [nul]) = some mem' ∧ mem'.length = mem.length ∧ Stores mem' s := by
  have hfits : 0 + (s ++ [nul]).length ≤ mem.length := by
    rw [List.length_append, List.length_singleton]
    omega
  refine ⟨_, if_pos hfits, ?_, hs, mem.drop (0 + (s ++ [nul]).length), ?_⟩
  · rw [List.length_append, List.length_append, List.length_drop, List.take_zero, List.length_nil]
    omega
  · rw [List.take_zero, List.nil_append, List.append_assoc]
    rfl

/-- Bytes that fit are copied, and a zero byte behind them. -/
theorem copyTo_store (i : ℕ) (bytes : List Char) (hfits : i + bytes.length < mem.length) :
    ∃ mem', ((copyTo mem i bytes).bind fun mem => store mem (i + bytes.length) nul) = some mem' ∧
      mem'.length = mem.length ∧ nul ∈ mem' := by
  have hcopied : (mem.take i ++ bytes ++ mem.drop (i + bytes.length)).length = mem.length := by
    rw [List.length_append, List.length_append, List.length_take, List.length_drop]
    omega
  rw [copyTo, if_pos hfits.le, Option.bind_some, store, hcopied, if_pos hfits]
  refine ⟨_, rfl, by rw [List.length_set, hcopied], ?_⟩
  exact List.mem_set (by rw [hcopied]; exact hfits) nul

/-- Bytes that fit are appended to the string. -/
theorem Stores.append (h : Stores mem s) {bytes : List Char} (hbytes : nul ∉ bytes)
    (hfits : s.length + bytes.length < mem.length) :
    ∃ mem', ((copyTo mem s.length bytes).bind fun mem =>
        store mem (s.length + bytes.length) nul) = some mem' ∧
      mem'.length = mem.length ∧ Stores mem' (s ++ bytes) := by
  obtain ⟨mem', hcopy, hlength, -⟩ := copyTo_store s.length bytes hfits
  refine ⟨mem', hcopy, hlength, ?_⟩
  obtain ⟨hs, junk, rfl⟩ := h
  rw [copyTo, if_pos hfits.le, Option.bind_some, List.take_left, store] at hcopy
  split at hcopy
  · obtain rfl := Option.some.inj hcopy
    refine ⟨fun hmem => (List.mem_append.mp hmem).elim hs hbytes,
      (List.drop (s.length + bytes.length) (s ++ nul :: junk)).tail, ?_⟩
    have hlast : s.length + bytes.length = (s ++ bytes).length := List.length_append.symm
    rw [hlast, List.set_append_right _ _ (le_refl _), Nat.sub_self]
    cases hrest : List.drop (s ++ bytes).length (s ++ nul :: junk) with
    | nil =>
        rw [← hlast] at hrest
        have hnone := List.drop_eq_nil_iff.mp hrest
        omega
    | cons c rest => rfl
  · cases hcopy

end Rules

end Memory
