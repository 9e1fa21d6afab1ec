import Lirc.PostProcess

/-!
`sort_by_bit_count` as the list is in the memory: the remotes are nodes, and the loop
changes their `next` pointers while it walks along them. A node is its address; a pointer
is an address, or `none` where it is `NULL`.
-/

namespace Lirc

open StableSort Linked

section Loops

variable (remotes : ℕ → ConfRemote)

/-- The inner loop: the nodes between which `rem` comes. -/
def findPlace (next : ℕ → Option ℕ) (rem : ℕ) :
    ℕ → Option ℕ → Option ℕ → Option (Option ℕ × Option ℕ)
  | 0, _, _ => none
  | _ + 1, prev, none => some (prev, none)
  | fuel + 1, prev, some scan =>
      if (remotes scan).bitCount ≤ (remotes rem).bitCount then
        findPlace next rem fuel (some scan) (next scan)
      else some (prev, some scan)

/-- The outer loop, with the pointers and `top`. -/
def relinkLoop (size : ℕ) : ℕ → (ℕ → Option ℕ) → Option ℕ → Option ℕ →
    Option ((ℕ → Option ℕ) × Option ℕ)
  | 0, _, _, _ => none
  | _ + 1, next, top, none => some (next, top)
  | fuel + 1, next, top, some rem =>
      let following := next rem
      match findPlace remotes next rem (size + 1) none top with
      | none => none
      | some (prev, scan) =>
          let (next, top) :=
            match prev with
            | some prev => (Function.update next prev (some rem), top)
            | none => (next, some rem)
          relinkLoop size fuel (Function.update next rem scan) top following

/-- `sort_by_bit_count` of at most `size` nodes. -/
def relinkByBitCount (size : ℕ) (next : ℕ → Option ℕ) (head : Option ℕ) :
    Option ((ℕ → Option ℕ) × Option ℕ) :=
  relinkLoop remotes size (size + 1) next none head

end Loops

section Refinement

variable {remotes : ℕ → ConfRemote} {next : ℕ → Option ℕ} {rem : ℕ}

/-- The key of a node. -/
def nodeBits (remotes : ℕ → ConfRemote) (a : ℕ) : ℤ := (remotes a).bitCount

theorem findPlace_chain {fuel : ℕ} {prev scan : Option ℕ} {nodes : List ℕ}
    (h : Chain next scan nodes) (hfuel : nodes.length < fuel) :
    findPlace remotes next rem fuel prev scan =
      some (((nodes.takeWhile fun a => nodeBits remotes a ≤ nodeBits remotes rem).getLast?).or prev,
        (nodes.dropWhile fun a => nodeBits remotes a ≤ nodeBits remotes rem).head?) := by
  induction fuel generalizing prev scan nodes with
  | zero => exact absurd hfuel (Nat.not_lt_zero _)
  | succ fuel ih =>
      cases nodes with
      | nil =>
          obtain rfl : scan = none := h
          rfl
      | cons a nodes =>
          obtain ⟨rfl, h⟩ := h
          rw [findPlace]
          split
          · next hle =>
              have hkey : decide (nodeBits remotes a ≤ nodeBits remotes rem) = true :=
                decide_eq_true hle
              rw [ih h (Nat.lt_of_succ_lt_succ hfuel), List.takeWhile_cons, List.dropWhile_cons,
                if_pos hkey, if_pos hkey, List.getLast?_cons]
              cases (nodes.takeWhile _).getLast? with
              | none => rfl
              | some b => rfl
          · next hlt =>
              have hkey : ¬decide (nodeBits remotes a ≤ nodeBits remotes rem) = true :=
                fun hle => hlt (of_decide_eq_true hle)
              rw [List.takeWhile_cons, List.dropWhile_cons, if_neg hkey, if_neg hkey]
              rfl

/-- The nodes that are left are put one after the other where they belong. -/
theorem relinkLoop_chain {size fuel : ℕ} {top head : Option ℕ} {sorted nodes : List ℕ}
    (htop : Chain next top sorted) (hhead : Chain next head nodes)
    (hnodup : (sorted ++ nodes).Nodup) (hsize : (sorted ++ nodes).length ≤ size)
    (hfuel : nodes.length < fuel) :
    ∃ next' top', relinkLoop remotes size fuel next top head = some (next', top') ∧
      Chain next' top' (nodes.foldl (fun top a => insert (nodeBits remotes) a top) sorted) ∧
      ∀ a, a ∉ sorted ++ nodes → next' a = next a := by
  induction fuel generalizing next top head sorted nodes with
  | zero => exact absurd hfuel (Nat.not_lt_zero _)
  | succ fuel ih =>
      cases nodes with
      | nil =>
          obtain rfl : head = none := hhead
          exact ⟨next, top, rfl, htop, fun _ _ => rfl⟩
      | cons rem nodes =>
          obtain ⟨rfl, hrest⟩ := hhead
          have hlength : sorted.length < size + 1 := by
            rw [List.length_append] at hsize
            omega
          have hperm : (insert (nodeBits remotes) rem sorted ++ nodes).Perm
              (sorted ++ rem :: nodes) :=
            ((insert_perm _ rem sorted).append_right nodes).trans List.perm_middle.symm
          obtain ⟨hrem, hnodup'⟩ := List.nodup_cons.mp (List.nodup_middle.mp hnodup)
          have hplace := @findPlace_chain remotes next rem (size + 1) none top sorted htop hlength
          have hinsert := insert_eq_append (nodeBits remotes) rem sorted
          have hsplit := List.takeWhile_append_dropWhile
            (p := fun a => decide (nodeBits remotes a ≤ nodeBits remotes rem)) (l := sorted)
          generalize sorted.takeWhile (fun a => nodeBits remotes a ≤ nodeBits remotes rem) = before
            at hplace hinsert hsplit
          generalize sorted.dropWhile (fun a => nodeBits remotes a ≤ nodeBits remotes rem) = after
            at hplace hinsert hsplit
          have hkept : ∀ a, a ≠ rem → a ∉ before →
              putBehind next rem before.getLast? after.head? a = next a := fun a hne hmem =>
            putBehind_of_ne hne fun hlast => hmem (List.mem_of_getLast? hlast)
          have hbefore : ∀ a ∈ before, a ∈ sorted := fun a ha =>
            hsplit ▸ List.mem_append_left after ha
          have htop' : Chain next top (before ++ after) := hsplit.symm ▸ htop
          have hlinked := htop'.insert (x := rem)
            (fun hmem => hrem (List.mem_append_left nodes (hsplit ▸ hmem)))
            (hsplit.symm ▸ (List.nodup_append.mp hnodup').1)
          rw [← hinsert] at hlinked
          have hothers : Chain (putBehind next rem before.getLast? after.head?) (next rem) nodes := by
            refine hrest.congr fun a ha => hkept a ?_ ?_
            · rintro rfl
              exact hrem (List.mem_append_right sorted ha)
            · intro hmem
              exact (List.nodup_append.mp hnodup').2.2 a (hbefore a hmem) a ha rfl
          obtain ⟨next', top', hloop, hchain, hframe⟩ := ih hlinked hothers
            (hperm.nodup_iff.mpr hnodup) (hperm.length_eq ▸ hsize) (Nat.lt_of_succ_lt_succ hfuel)
          refine ⟨next', top', ?_, hchain, fun a ha => ?_⟩
          · rw [relinkLoop, hplace, Option.or_none]
            rw [putBehind] at hloop
            cases hlast : before.getLast? with
            | none =>
                rw [List.getLast?_eq_none_iff.mp hlast] at hloop
                exact hloop
            | some p =>
                have hne : before ≠ [] := by
                  rintro rfl
                  cases hlast
                rw [hlast, if_neg hne] at hloop
                exact hloop
          · rw [hframe a fun hmem => ha (hperm.subset hmem)]
            refine hkept a ?_ fun hmem => ha (List.mem_append_left _ (hbefore a hmem))
            rintro rfl
            exact ha (List.mem_append_right sorted List.mem_cons_self)

/-- The list that `sort_by_bit_count` returns has the nodes of the list that it is given, in
the order of `sortByBitCount`; no other pointer is changed. -/
theorem relinkByBitCount_chain {size : ℕ} {head : Option ℕ} {nodes : List ℕ}
    (h : Chain next head nodes) (hnodup : nodes.Nodup) (hsize : nodes.length ≤ size) :
    ∃ next' top', relinkByBitCount remotes size next head = some (next', top') ∧
      Chain next' top' (sort (nodeBits remotes) nodes) ∧
      (sort (nodeBits remotes) nodes).map remotes = sortByBitCount (nodes.map remotes) ∧
      ∀ a, a ∉ nodes → next' a = next a := by
  have hnone : Chain next none [] := rfl
  obtain ⟨next', top', hloop, hchain, hframe⟩ :=
    relinkLoop_chain hnone h hnodup hsize (Nat.lt_succ_of_le hsize)
  refine ⟨next', top', hloop, hchain, ?_, hframe⟩
  rw [sortByBitCount_eq, sort_map]
  rfl

end Refinement

end Lirc
