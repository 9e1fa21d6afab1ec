import Mathlib

/-!
Insertion sort by a key. An element is inserted behind all that do not have a larger
key, so those with the same key keep their order. `Linked` says which elements a list of
nodes has that are chained by `next` pointers; a node is inserted by changing two of them.
-/

namespace StableSort

variable {α β κ : Type*} [LinearOrder κ] (key : α → κ)

/-- Behind all elements that do not have a larger key. -/
def insert (x : α) : List α → List α
  | [] => [x]
  | y :: ys => if key y ≤ key x then y :: insert x ys else x :: y :: ys

def sort (xs : List α) : List α := xs.foldl (fun top x => insert key x top) []

/-- In ascending order of the keys. -/
def Sorted (xs : List α) : Prop := xs.Pairwise fun a b => key a ≤ key b

theorem insert_perm (x : α) (xs : List α) : (insert key x xs).Perm (x :: xs) := by
  induction xs with
  | nil => exact .refl _
  | cons y ys ih =>
      rw [insert]
      split
      · exact (ih.cons y).trans (.swap x y ys)
      · exact .refl _

theorem insert_eq_append (x : α) (xs : List α) :
    insert key x xs =
      xs.takeWhile (fun y => key y ≤ key x) ++ x :: xs.dropWhile (fun y => key y ≤ key x) := by
  induction xs with
  | nil => rfl
  | cons y ys ih =>
      rw [insert]
      split
      · next hle =>
          rw [List.takeWhile_cons, List.dropWhile_cons, if_pos (decide_eq_true hle),
            if_pos (decide_eq_true hle), ih]
          rfl
      · next hlt =>
          have hfalse : ¬decide (key y ≤ key x) = true := fun h => hlt (of_decide_eq_true h)
          rw [List.takeWhile_cons, List.dropWhile_cons, if_neg hfalse, if_neg hfalse]
          rfl

variable {key}

theorem insert_sorted {xs : List α} (h : Sorted key xs) (x : α) : Sorted key (insert key x xs) := by
  induction xs with
  | nil => exact List.pairwise_singleton ..
  | cons y ys ih =>
      obtain ⟨hy, hys⟩ := List.pairwise_cons.mp h
      rw [insert]
      split
      · next hle =>
          refine List.pairwise_cons.mpr ⟨fun a ha => ?_, ih hys⟩
          rcases List.mem_cons.mp ((insert_perm key x ys).subset ha) with rfl | ha
          · exact hle
          · exact hy a ha
      · next hlt =>
          have hxy : key x ≤ key y := le_of_not_ge hlt
          refine List.pairwise_cons.mpr ⟨fun a ha => ?_, h⟩
          rcases List.mem_cons.mp ha with rfl | ha
          · exact hxy
          · exact hxy.trans (hy a ha)

/-- Among the elements with one key the new one is the last. -/
theorem insert_filter {xs : List α} (h : Sorted key xs) (x : α) (k : κ) :
    (insert key x xs).filter (fun y => key y = k) = (xs ++ [x]).filter fun y => key y = k := by
  induction xs with
  | nil => rfl
  | cons y ys ih =>
      obtain ⟨hy, hys⟩ := List.pairwise_cons.mp h
      rw [insert]
      split
      · rw [List.filter_cons, ih hys, List.cons_append, List.filter_cons]
      · next hlt =>
          rw [List.filter_append]
          by_cases hx : key x = k
          · -- none of the others has this key
            have hnone : (y :: ys).filter (fun y => key y = k) = [] := by
              refine List.filter_eq_nil_iff.mpr fun a ha heq => ?_
              have hka := of_decide_eq_true heq
              rcases List.mem_cons.mp ha with rfl | ha
              · exact hlt (hka.trans hx.symm).le
              · exact hlt ((hy a ha).trans (hka.trans hx.symm).le)
            rw [List.filter_cons, hnone, if_pos (decide_eq_true hx), List.nil_append,
              List.filter_singleton, decide_eq_true hx]
            rfl
          · have hskip : ∀ zs : List α, (x :: zs).filter (fun y => key y = k) =
                zs.filter fun y => key y = k :=
              fun zs => List.filter_cons_of_neg fun h => hx (of_decide_eq_true h)
            rw [hskip, hskip, List.filter_nil, List.append_nil]

theorem insert_of_le {xs : List α} {x : α} (h : ∀ y ∈ xs, key y ≤ key x) :
    insert key x xs = xs ++ [x] := by
  induction xs with
  | nil => rfl
  | cons y ys ih =>
      rw [insert, if_pos (h y List.mem_cons_self), ih fun a ha => h a (List.mem_cons_of_mem y ha)]
      rfl

theorem insert_map (f : β → α) (x : β) (xs : List β) :
    insert key (f x) (xs.map f) = (insert (key ∘ f) x xs).map f := by
  induction xs with
  | nil => rfl
  | cons y ys ih =>
      have hkey : ∀ z, (key ∘ f) z = key (f z) := fun _ => rfl
      rw [List.map_cons, insert, insert, hkey, hkey, ih]
      split <;> rfl

/-- What the fold over the elements makes of those that have been sorted. -/
theorem foldl_insert {xs : List α} (top : List α) (h : Sorted key top) :
    (xs.foldl (fun top x => insert key x top) top).Perm (top ++ xs) ∧
      Sorted key (xs.foldl (fun top x => insert key x top) top) ∧
        ∀ k, (xs.foldl (fun top x => insert key x top) top).filter (fun y => key y = k) =
          (top ++ xs).filter fun y => key y = k := by
  induction xs generalizing top with
  | nil =>
      rw [List.append_nil]
      exact ⟨.refl _, h, fun _ => rfl⟩
  | cons x xs ih =>
      obtain ⟨hperm, hsorted, hfilter⟩ := ih (insert key x top) (insert_sorted h x)
      refine ⟨?_, hsorted, fun k => ?_⟩
      · refine hperm.trans (((insert_perm key x top).append_right xs).trans ?_)
        exact List.perm_middle.symm
      · rw [List.foldl_cons, hfilter, List.filter_append, insert_filter h, ← List.filter_append,
          List.append_assoc]
        rfl

theorem sort_perm (xs : List α) : (sort key xs).Perm xs :=
  (foldl_insert [] List.Pairwise.nil).1

theorem sort_sorted (xs : List α) : Sorted key (sort key xs) :=
  (foldl_insert [] List.Pairwise.nil).2.1

/-- Elements with the same key keep their order. -/
theorem sort_stable (xs : List α) (k : κ) :
    (sort key xs).filter (fun y => key y = k) = xs.filter fun y => key y = k :=
  (foldl_insert [] List.Pairwise.nil).2.2 k

theorem sort_of_sorted {xs : List α} (h : Sorted key xs) : sort key xs = xs := by
  have hfold : ∀ top, Sorted key (top ++ xs) →
      xs.foldl (fun top x => insert key x top) top = top ++ xs := by
    clear h
    induction xs with
    | nil => exact fun top _ => (List.append_nil top).symm
    | cons x xs ih =>
        intro top h
        have hle : ∀ y ∈ top, key y ≤ key x := fun y hy =>
          (List.pairwise_append.mp h).2.2 y hy x List.mem_cons_self
        rw [List.foldl_cons, insert_of_le hle, ih, List.append_assoc]
        · rfl
        · rw [List.append_assoc]
          exact h
  exact hfold [] h

theorem sort_map (f : β → α) (xs : List β) : sort key (xs.map f) = (sort (key ∘ f) xs).map f := by
  have hfold : ∀ top : List β, (xs.map f).foldl (fun top x => insert key x top) (top.map f) =
      (xs.foldl (fun top x => insert (key ∘ f) x top) top).map f := by
    induction xs with
    | nil => exact fun _ => rfl
    | cons x xs ih =>
        intro top
        rw [List.map_cons, List.foldl_cons, insert_map, ih]
        rfl
  exact hfold []

end StableSort

/-! ### Linked lists -/

namespace Linked

variable {α : Type*} {next next' : α → Option α} {a : Option α} {x : α} {xs ys : List α}

/-- The nodes of the list that begins at a pointer. -/
def Chain (next : α → Option α) : Option α → List α → Prop
  | a, [] => a = none
  | a, x :: xs => a = some x ∧ Chain next (next x) xs

theorem Chain.head (h : Chain next a xs) : a = xs.head? := by
  cases xs with
  | nil => exact h
  | cons x xs => exact h.1

/-- Pointers of other nodes do not matter. -/
theorem Chain.congr (h : Chain next a xs) (heq : ∀ x ∈ xs, next' x = next x) :
    Chain next' a xs := by
  induction xs generalizing a with
  | nil => exact h
  | cons x xs ih =>
      refine ⟨h.1, ?_⟩
      rw [heq x List.mem_cons_self]
      exact ih h.2 fun y hy => heq y (List.mem_cons_of_mem x hy)

variable [DecidableEq α]

/-- The pointers after a node has been put behind another one, or in front. -/
def putBehind (next : α → Option α) (x : α) (prev after : Option α) : α → Option α :=
  Function.update (prev.elim next fun p => Function.update next p (some x)) x after

theorem putBehind_of_ne {prev after : Option α} {y : α} (hx : y ≠ x) (hprev : prev ≠ some y) :
    putBehind next x prev after y = next y := by
  rw [putBehind, Function.update_of_ne hx]
  cases prev with
  | none => rfl
  | some p => exact Function.update_of_ne (fun heq => hprev (congrArg some heq.symm)) _ _

theorem Chain.insert (h : Chain next a (xs ++ ys)) (hnew : x ∉ xs ++ ys) (hnodup : (xs ++ ys).Nodup) :
    Chain (putBehind next x xs.getLast? ys.head?) (if xs = [] then some x else a)
      (xs ++ x :: ys) := by
  induction xs generalizing a with
  | nil =>
      have hrest : Chain next ys.head? ys := Chain.head h ▸ h
      refine ⟨if_pos rfl, ?_⟩
      rw [putBehind, Function.update_self]
      refine hrest.congr fun y hy => Function.update_of_ne ?_ _ _
      rintro rfl
      exact hnew hy
  | cons z xs ih =>
      obtain ⟨ha, h⟩ := h
      obtain ⟨hz, hnodup⟩ := List.nodup_cons.mp hnodup
      have hzx : z ≠ x := fun heq => hnew (heq ▸ List.mem_cons_self)
      refine ⟨(if_neg (List.cons_ne_nil z xs)).trans ha, ?_⟩
      cases xs with
      | nil =>
          refine ⟨?_, ?_⟩
          · rw [putBehind, Function.update_of_ne hzx]
            exact Function.update_self ..
          · have hrest : Chain next ys.head? ys := Chain.head h ▸ h
            rw [putBehind, Function.update_self]
            refine hrest.congr fun y hy => ?_
            have hyx : y ≠ x := fun heq => hnew (heq ▸ List.mem_cons_of_mem z hy)
            have hyz : y ≠ z := fun heq => hz (heq ▸ hy)
            rw [Function.update_of_ne hyx]
            exact Function.update_of_ne hyz _ _
      | cons w xs =>
          have hkept := ih h (fun hmem => hnew (List.mem_cons_of_mem z hmem)) hnodup
          rw [if_neg (List.cons_ne_nil w xs)] at hkept
          have hlast : (z :: w :: xs).getLast? = (w :: xs).getLast? := rfl
          have hnext : putBehind next x (w :: xs).getLast? ys.head? z = next z :=
            putBehind_of_ne hzx fun hp => hz (List.mem_append_left ys (List.mem_of_getLast? hp))
          rw [hlast, hnext]
          exact hkept

end Linked
