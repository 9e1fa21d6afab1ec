import Mathlib.Data.List.Basic
import Mathlib.Data.List.Forall2
import Mathlib.Data.List.TakeWhile

/-!
Tables that are filled while they are used. A table has a fixed number of slots, one value
stands for a slot that is free. Something is looked up slot by slot: the first slot that is
free takes it, the first whose value is near it stands for it. What takes a slot is
rounded, and may be rounded to the value of a free slot; the slot is then still free for
what comes next.

A table of slots is a chain of single slots, of which each sees what the ones before it
have passed on.
-/

namespace Palette

variable {α β : Type*} [DecidableEq β] (free : β) (round : α → β) (near : α → β → Bool)

/-- The slot that stands for `x`, and the table after that. -/
def enter : List β → α → Option (ℕ × List β)
  | [], _ => none
  | v :: vs, x =>
      if v = free then some (0, round x :: vs)
      else if near x v then some (0, v :: vs)
      else (enter vs x).map fun r => (r.1 + 1, v :: r.2)

/-- One after the other. -/
def encode : List β → List α → Option (List ℕ × List β)
  | vs, [] => some ([], vs)
  | vs, x :: xs => do
      let (i, vs) ← enter free round near vs x
      let (is, vs) ← encode vs xs
      some (i :: is, vs)

/-! ### One slot -/

/-- The value that a free slot gets. -/
def chosen : List α → β
  | [] => free
  | x :: xs => if round x = free then chosen xs else round x

/-- What a free slot does not stand for. -/
def others : List α → List α
  | [] => []
  | x :: xs => if round x = free then others xs else xs.filter fun y => !near y (round x)

/-- What is rounded to the value of a free slot comes out right: the slot stays free, or is
taken by a value that is near. -/
def Fits (xs : List α) : Prop :=
  ∀ x ∈ xs.takeWhile fun x => round x = free,
    chosen free round xs = free ∨ near x (chosen free round xs) = true

/-- The value of a slot at the end. -/
def settle (v : β) (xs : List α) : β := if v = free then chosen free round xs else v

/-- What a slot passes on. -/
def passed (v : β) (xs : List α) : List α :=
  if v = free then others free round near xs else xs.filter fun y => !near y v

/-- `v` is what `x` is rounded to, or near it. -/
def Stands (v : β) (x : α) : Prop := round x = v ∨ near x v = true

section Slot

variable {free round near} {v : β} {x : α} {xs : List α}

@[simp] theorem settle_nil : settle free round v [] = v := by
  rw [settle]
  split
  · next h => rw [h, chosen]
  · rfl

@[simp] theorem passed_nil : passed free round near v [] = [] := by
  rw [passed]
  split <;> rfl

theorem settle_cons_free : settle free round free (x :: xs) = settle free round (round x) xs := by
  rw [settle, if_pos rfl, settle, chosen]

theorem settle_of_ne (h : v ≠ free) : settle free round v xs = v := if_neg h

theorem passed_cons_free :
    passed free round near free (x :: xs) = passed free round near (round x) xs := by
  rw [passed, if_pos rfl, passed, others]

theorem passed_cons_near (h : v ≠ free) (hnear : near x v = true) :
    passed free round near v (x :: xs) = passed free round near v xs := by
  rw [passed, if_neg h, passed, if_neg h, List.filter_cons, hnear]
  rfl

theorem passed_cons_far (h : v ≠ free) (hfar : near x v = false) :
    passed free round near v (x :: xs) = x :: passed free round near v xs := by
  rw [passed, if_neg h, passed, if_neg h, List.filter_cons, hfar]
  rfl

end Slot

/-! ### The chain -/

/-- The value of a slot of a table. -/
def value (vs : List β) (i : ℕ) : β := vs.getD i free

/-- What each element comes out as. -/
def Returns (vs : List β) (is : List ℕ) (xs : List α) : Prop :=
  List.Forall₂ (fun i x => Stands round near (value free vs i) x) is xs

/-- What a slot takes while it is free comes out right, if it holds `w` in the end. -/
def Kept (v w : β) (xs : List α) : Prop :=
  v = free → ∀ x ∈ xs.takeWhile fun x => round x = free, Stands round near w x

section Chain

variable {free round near} {v w : β} {vs ws : List β} {x : α} {xs : List α} {is : List ℕ}

theorem kept_cons_free : Kept free round near free w (x :: xs) ↔
    (round x = free → Stands round near w x) ∧ Kept free round near (round x) w xs := by
  simp only [Kept, forall_const, List.takeWhile_cons, decide_eq_true_eq]
  by_cases hx : round x = free
  · rw [if_pos hx, List.forall_mem_cons]
    exact and_congr ⟨fun h _ => h, fun h => h hx⟩ ⟨fun h _ => h, fun h => h hx⟩
  · rw [if_neg hx]
    exact ⟨fun _ => ⟨fun h => absurd h hx, fun h => absurd h hx⟩, fun _ _ h => absurd h
      List.not_mem_nil⟩

theorem kept_iff_fits :
    Kept free round near free (settle free round free xs) xs ↔ Fits free round near xs := by
  rw [Kept, Fits, settle, if_pos rfl]
  refine ⟨fun h x hx => ?_, fun h _ x hx => ?_⟩
  · have hround : round x = free := by simpa using List.mem_takeWhile_imp hx
    rcases h rfl x hx with heq | hnear
    · exact .inl (heq.symm.trans hround)
    · exact .inr hnear
  · have hround : round x = free := by simpa using List.mem_takeWhile_imp hx
    rcases h x hx with heq | hnear
    · exact .inl (hround.trans heq.symm)
    · exact .inr hnear

omit [DecidableEq β] in
theorem returns_cons {i : ℕ} : Returns free round near ws (i :: is) (x :: xs) ↔
    Stands round near (value free ws i) x ∧ Returns free round near ws is xs :=
  List.forall₂_cons

theorem encode_nil : encode free round near vs [] = some ([], vs) := rfl

theorem encode_cons_eq_some {ws : List β} {js : List ℕ} :
    encode free round near vs (x :: xs) = some (js, ws) ↔
      ∃ i vs' is, enter free round near vs x = some (i, vs') ∧
        encode free round near vs' xs = some (is, ws) ∧ js = i :: is := by
  simp only [encode, Option.bind_eq_bind, Option.bind_eq_some_iff, Prod.exists,
    Option.some.injEq, Prod.mk.injEq]
  constructor
  · rintro ⟨i, vs', henter, is, ws', hencode, rfl, rfl⟩
    exact ⟨i, vs', is, henter, hencode, rfl⟩
  · rintro ⟨i, vs', is, henter, hencode, rfl⟩
    exact ⟨i, vs', henter, is, ws, hencode, rfl, rfl⟩

/-- What goes through a table goes through its first slot, and what that passes on goes
through the others. -/
theorem encode_slot (h : encode free round near (v :: vs) xs = some (is, ws)) :
    ∃ js ws', encode free round near vs (passed free round near v xs) = some (js, ws') ∧
      ws = settle free round v xs :: ws' ∧
      (Returns free round near ws is xs ↔
        Kept free round near v (settle free round v xs) xs ∧
          Returns free round near ws' js (passed free round near v xs)) := by
  induction xs generalizing v vs is with
  | nil =>
      rw [encode_nil, Option.some.injEq, Prod.mk.injEq] at h
      obtain ⟨rfl, rfl⟩ := h
      refine ⟨[], vs, ?_, ?_, ?_⟩
      · rw [passed_nil, encode_nil]
      · rw [settle_nil]
      · rw [passed_nil]
        exact ⟨fun _ => ⟨fun _ x hx => absurd hx List.not_mem_nil, .nil⟩, fun _ => .nil⟩
  | cons x xs ih =>
      obtain ⟨i, vs', is, henter, hencode, rfl⟩ := encode_cons_eq_some.mp h
      rw [enter] at henter
      split at henter
      · -- The slot is free and takes the element.
        next hfree =>
          subst hfree
          obtain ⟨rfl, rfl⟩ := Prod.mk.inj (Option.some.inj henter)
          obtain ⟨js, ws', hjs, rfl, hiff⟩ := ih hencode
          refine ⟨js, ws', ?_, ?_, ?_⟩
          · rw [passed_cons_free, hjs]
          · rw [settle_cons_free]
          · rw [returns_cons, hiff, kept_cons_free, passed_cons_free,
              settle_cons_free, and_assoc]
            refine and_congr_left fun _ => ?_
            change Stands round near (settle v round (round x) xs) x ↔ _
            refine ⟨fun hstands _ => hstands, fun hstands => ?_⟩
            by_cases hx : round x = v
            · exact hstands hx
            · exact .inl (settle_of_ne hx).symm
      · next hused =>
          split at henter
          · -- The slot stands for the element.
            next hnear =>
              obtain ⟨rfl, rfl⟩ := Prod.mk.inj (Option.some.inj henter)
              obtain ⟨js, ws', hjs, rfl, hiff⟩ := ih hencode
              refine ⟨js, ws', ?_, ?_, ?_⟩
              · rw [passed_cons_near hused hnear, hjs]
              · rw [settle_of_ne hused, settle_of_ne hused]
              · rw [returns_cons, hiff, passed_cons_near hused hnear,
                  settle_of_ne hused, settle_of_ne hused]
                have hstands : Stands round near v x := .inr hnear
                refine ⟨fun hall => ⟨fun hfree => absurd hfree hused, hall.2.2⟩,
                  fun hall => ⟨hstands, fun hfree => absurd hfree hused, hall.2⟩⟩
          · -- The element is passed on.
            next hfar =>
              obtain ⟨⟨i', us⟩, hother, heq⟩ := Option.map_eq_some_iff.mp henter
              obtain ⟨rfl, rfl⟩ := Prod.mk.inj heq
              obtain ⟨js, ws', hjs, rfl, hiff⟩ := ih hencode
              have hpassed : passed free round near v (x :: xs) =
                  x :: passed free round near v xs :=
                passed_cons_far hused (eq_false_of_ne_true hfar)
              refine ⟨i' :: js, ws', ?_, ?_, ?_⟩
              · rw [hpassed]
                exact encode_cons_eq_some.mpr ⟨i', us, js, hother, hjs, rfl⟩
              · rw [settle_of_ne hused, settle_of_ne hused]
              · have hkept : ∀ ys, Kept free round near v (settle free round v xs) ys :=
                  fun ys hfree => absurd hfree hused
                rw [returns_cons, hiff, hpassed, settle_of_ne hused,
                  settle_of_ne hused]
                rw [settle_of_ne hused] at hkept
                rw [returns_cons]
                exact ⟨fun hall => ⟨hkept _, hall.1, hall.2.2⟩,
                  fun hall => ⟨hall.2.1, hkept _, hall.2.2⟩⟩

theorem enter_free : enter free round near (free :: vs) x = some (0, round x :: vs) :=
  if_pos rfl

theorem enter_near (h : v ≠ free) (hnear : near x v = true) :
    enter free round near (v :: vs) x = some (0, v :: vs) := by
  rw [enter, if_neg h, if_pos hnear]

theorem enter_far (h : v ≠ free) (hfar : near x v = false) :
    enter free round near (v :: vs) x =
      (enter free round near vs x).map fun r => (r.1 + 1, v :: r.2) := by
  rw [enter, if_neg h, if_neg (ne_true_of_eq_false hfar)]

theorem encode_cons_none (h : enter free round near vs x = none) :
    encode free round near vs (x :: xs) = none := by
  rw [encode, h]
  rfl

theorem encode_cons_isSome {i : ℕ} (h : enter free round near vs x = some (i, ws)) :
    (encode free round near vs (x :: xs)).isSome = (encode free round near ws xs).isSome := by
  rw [encode, h]
  change ((encode free round near ws xs).bind fun r => some (i :: r.1, r.2)).isSome = _
  cases encode free round near ws xs <;> rfl

/-- A table takes everything if the slots behind the first one take what that passes on. -/
theorem encode_isSome_slot :
    (encode free round near (v :: vs) xs).isSome =
      (encode free round near vs (passed free round near v xs)).isSome := by
  induction xs generalizing v vs with
  | nil => rw [passed_nil, encode_nil, encode_nil, Option.isSome_some, Option.isSome_some]
  | cons x xs ih =>
      by_cases hfree : v = free
      · subst hfree
        rw [passed_cons_free, ← ih, encode_cons_isSome enter_free]
      · cases hnear : near x v with
        | true =>
            rw [passed_cons_near hfree hnear, ← ih, encode_cons_isSome (enter_near hfree hnear)]
        | false =>
            have hslot : enter free round near (v :: vs) x =
                (enter free round near vs x).map fun r => (r.1 + 1, v :: r.2) :=
              enter_far hfree hnear
            rw [passed_cons_far hfree hnear]
            cases henter : enter free round near vs x with
            | none =>
                rw [henter] at hslot
                rw [encode_cons_none hslot, encode_cons_none henter]
            | some r =>
                rw [henter] at hslot
                rw [encode_cons_isSome hslot, encode_cons_isSome henter, ih]

theorem encode_isSome_none : (encode free round near [] xs).isSome = true ↔ xs = [] := by
  cases xs with
  | nil => exact ⟨fun _ => rfl, fun _ => rfl⟩
  | cons x xs => exact ⟨fun h => absurd h Bool.false_ne_true, nofun⟩

/-- Two free slots take what has at most two values. -/
theorem encode_isSome_two : (encode free round near [free, free] xs).isSome = true ↔
    others free round near (others free round near xs) = [] := by
  rw [encode_isSome_slot, encode_isSome_slot, encode_isSome_none, passed, if_pos rfl, passed,
    if_pos rfl]

/-- What goes through two free slots comes out right if both of them fit. -/
theorem returns_two (h : encode free round near [free, free] xs = some (is, ws)) :
    Returns free round near ws is xs ↔
      Fits free round near xs ∧ Fits free round near (others free round near xs) := by
  obtain ⟨js, ws', hjs, rfl, hiff⟩ := encode_slot h
  obtain ⟨ks, ws'', hks, rfl, hiff'⟩ := encode_slot hjs
  have hpassed : passed free round near free xs = others free round near xs := if_pos rfl
  have hnone : passed free round near free (others free round near xs) = [] := by
    rw [← hpassed]
    exact encode_isSome_none.mp (Option.isSome_iff_exists.mpr ⟨_, hks⟩)
  rw [hpassed, hnone] at hks
  obtain ⟨rfl, rfl⟩ := Prod.mk.inj (Option.some.inj hks)
  rw [hiff, hiff', kept_iff_fits, kept_iff_fits, hpassed, hnone]
  exact and_congr_right fun _ => and_iff_left List.Forall₂.nil

theorem length_enter {i : ℕ} (h : enter free round near vs x = some (i, ws)) :
    ws.length = vs.length := by
  induction vs generalizing i ws with
  | nil => cases h
  | cons v vs ih =>
      rw [enter] at h
      split_ifs at h
      · obtain ⟨-, rfl⟩ := Prod.mk.inj (Option.some.inj h)
        rfl
      · obtain ⟨-, rfl⟩ := Prod.mk.inj (Option.some.inj h)
        rfl
      · obtain ⟨⟨i', us⟩, hother, heq⟩ := Option.map_eq_some_iff.mp h
        obtain ⟨-, rfl⟩ := Prod.mk.inj heq
        rw [List.length_cons, List.length_cons, ih hother]

theorem lt_of_enter {i : ℕ} (h : enter free round near vs x = some (i, ws)) :
    i < vs.length := by
  induction vs generalizing i ws with
  | nil => cases h
  | cons v vs ih =>
      rw [enter] at h
      split_ifs at h
      · obtain ⟨rfl, -⟩ := Prod.mk.inj (Option.some.inj h)
        exact Nat.succ_pos _
      · obtain ⟨rfl, -⟩ := Prod.mk.inj (Option.some.inj h)
        exact Nat.succ_pos _
      · obtain ⟨⟨i', us⟩, hother, heq⟩ := Option.map_eq_some_iff.mp h
        obtain ⟨rfl, -⟩ := Prod.mk.inj heq
        exact Nat.succ_lt_succ (ih hother)

/-- The values of a table are those it had and those of what has been entered. -/
theorem mem_enter {i : ℕ} (h : enter free round near vs x = some (i, ws)) (hw : w ∈ ws) :
    w ∈ vs ∨ w = round x := by
  induction vs generalizing i ws with
  | nil => cases h
  | cons v vs ih =>
      rw [enter] at h
      split_ifs at h
      · obtain ⟨-, rfl⟩ := Prod.mk.inj (Option.some.inj h)
        rcases List.mem_cons.mp hw with rfl | hw
        · exact .inr rfl
        · exact .inl (List.mem_cons_of_mem _ hw)
      · obtain ⟨-, rfl⟩ := Prod.mk.inj (Option.some.inj h)
        exact .inl hw
      · obtain ⟨⟨i', us⟩, hother, heq⟩ := Option.map_eq_some_iff.mp h
        obtain ⟨-, rfl⟩ := Prod.mk.inj heq
        rcases List.mem_cons.mp hw with rfl | hw
        · exact .inl List.mem_cons_self
        · exact (ih hother hw).imp_left (List.mem_cons_of_mem _)

/-- The values of a table in the end are those it had and those of what has gone through. -/
theorem mem_encode (h : encode free round near vs xs = some (is, ws)) (hw : w ∈ ws) :
    w ∈ vs ∨ ∃ x ∈ xs, w = round x := by
  induction xs generalizing vs is with
  | nil =>
      obtain ⟨-, rfl⟩ := Prod.mk.inj (Option.some.inj h)
      exact .inl hw
  | cons x xs ih =>
      obtain ⟨i, vs', is, henter, hencode, rfl⟩ := encode_cons_eq_some.mp h
      rcases ih hencode with hmem | ⟨y, hy, rfl⟩
      · exact (mem_enter henter hmem).imp_right fun heq => ⟨x, List.mem_cons_self, heq⟩
      · exact .inr ⟨y, List.mem_cons_of_mem x hy, rfl⟩

theorem length_encode (h : encode free round near vs xs = some (is, ws)) :
    ws.length = vs.length := by
  induction xs generalizing vs is with
  | nil =>
      obtain ⟨-, rfl⟩ := Prod.mk.inj (Option.some.inj h)
      rfl
  | cons x xs ih =>
      obtain ⟨i, vs', is, henter, hencode, rfl⟩ := encode_cons_eq_some.mp h
      rw [ih hencode, length_enter henter]

/-- What the last table does not take does not go through. -/
theorem encode_append_none (h : encode free round near vs xs = some (is, ws))
    (hx : enter free round near ws x = none) : encode free round near vs (xs ++ [x]) = none := by
  induction xs generalizing vs is with
  | nil =>
      obtain ⟨-, rfl⟩ := Prod.mk.inj (Option.some.inj h)
      exact encode_cons_none hx
  | cons y xs ih =>
      obtain ⟨i, vs', is, henter, hencode, rfl⟩ := encode_cons_eq_some.mp h
      rw [List.cons_append, encode, henter]
      change (encode free round near vs' (xs ++ [x])).bind _ = none
      rw [ih hencode]
      rfl

end Chain

/-! ### Two tables in turns -/

/-- Every second element, from the first one on. -/
def evens {γ : Type*} : List γ → List γ
  | [] => []
  | [x] => [x]
  | x :: _ :: xs => x :: evens xs

/-- Every second element, from the second one on. -/
def odds {γ : Type*} (xs : List γ) : List γ := evens xs.tail

section Turns

variable {γ : Type*} {c : γ} {cs ds : List γ}

@[simp] theorem odds_cons : odds (c :: cs) = evens cs := rfl

@[simp] theorem evens_cons : evens (c :: cs) = c :: odds cs := by
  cases cs <;> rfl

theorem mem_of_mem_turns : (c ∈ evens cs → c ∈ cs) ∧ (c ∈ odds cs → c ∈ cs) := by
  induction cs with
  | nil => exact ⟨id, id⟩
  | cons d cs ih =>
      rw [evens_cons, odds_cons, List.mem_cons, List.mem_cons]
      exact ⟨Or.imp_right ih.2, fun h => .inr (ih.1 h)⟩

theorem turns_beginning (h : cs <+: ds) : evens cs <+: evens ds ∧ odds cs <+: odds ds := by
  induction cs generalizing ds with
  | nil => exact ⟨List.nil_prefix, List.nil_prefix⟩
  | cons c cs ih =>
      obtain ⟨es, rfl⟩ := h
      obtain ⟨hevens, hodds⟩ := ih (List.prefix_append cs es)
      rw [List.cons_append, evens_cons, evens_cons, odds_cons, odds_cons, List.prefix_cons_inj]
      exact ⟨hodds, hevens⟩

theorem turns_append_singleton :
    (cs.length % 2 = 0 → evens (cs ++ [c]) = evens cs ++ [c]) ∧
      (cs.length % 2 = 1 → odds (cs ++ [c]) = odds cs ++ [c]) := by
  induction cs with
  | nil => exact ⟨fun _ => rfl, fun h => absurd h Nat.zero_ne_one⟩
  | cons d cs ih =>
      rw [List.cons_append, evens_cons, evens_cons, odds_cons, odds_cons, List.length_cons]
      refine ⟨fun h => ?_, fun h => ?_⟩
      · rw [ih.2 (by omega), List.cons_append]
      · rw [ih.1 (by omega)]

/-- The tables take turns, beginning with the first. -/
def encodeTurns : List β → List β → List α → Option (List ℕ × List β × List β)
  | vs, us, [] => some ([], vs, us)
  | vs, us, x :: xs => do
      let (i, vs) ← enter free round near vs x
      let (is, us, vs) ← encodeTurns us vs xs
      some (i :: is, vs, us)

/-- What is read from the tables in turns. -/
def turnValues : List β → List β → List ℕ → List β
  | _, _, [] => []
  | vs, us, i :: is => value free vs i :: turnValues us vs is

variable {free round near} {vs us vs' us' : List β} {xs : List α} {is : List ℕ}

theorem encodeTurns_cons {x : α} {js : List ℕ} :
    encodeTurns free round near vs us (x :: xs) = some (js, vs', us') ↔
      ∃ i ws is, enter free round near vs x = some (i, ws) ∧
        encodeTurns free round near us ws xs = some (is, us', vs') ∧ js = i :: is := by
  simp only [encodeTurns, Option.bind_eq_bind, Option.bind_eq_some_iff, Prod.exists,
    Option.some.injEq, Prod.mk.injEq]
  constructor
  · rintro ⟨i, ws, henter, is, us', vs', hencode, rfl, rfl, rfl⟩
    exact ⟨i, ws, is, henter, hencode, rfl⟩
  · rintro ⟨i, ws, is, henter, hencode, rfl⟩
    exact ⟨i, ws, henter, is, us', vs', hencode, rfl, rfl, rfl⟩

/-- Each of the tables takes its own elements. -/
theorem encodeTurns_split (h : encodeTurns free round near vs us xs = some (is, vs', us')) :
    encode free round near vs (evens xs) = some (evens is, vs') ∧
      encode free round near us (odds xs) = some (odds is, us') := by
  induction xs generalizing vs us is vs' us' with
  | nil =>
      obtain ⟨rfl, heq⟩ := Prod.mk.inj (Option.some.inj h)
      obtain ⟨rfl, rfl⟩ := Prod.mk.inj heq
      exact ⟨rfl, rfl⟩
  | cons x xs ih =>
      obtain ⟨i, ws, is, henter, hencode, rfl⟩ := encodeTurns_cons.mp h
      obtain ⟨hevens, hodds⟩ := ih hencode
      rw [evens_cons, evens_cons, odds_cons, odds_cons]
      exact ⟨encode_cons_eq_some.mpr ⟨i, ws, odds is, henter, hodds, rfl⟩, hevens⟩

theorem length_encodeTurns (h : encodeTurns free round near vs us xs = some (is, vs', us')) :
    is.length = xs.length := by
  induction xs generalizing vs us is vs' us' with
  | nil =>
      obtain ⟨rfl, -⟩ := Prod.mk.inj (Option.some.inj h)
      rfl
  | cons x xs ih =>
      obtain ⟨i, ws, is, henter, hencode, rfl⟩ := encodeTurns_cons.mp h
      rw [List.length_cons, List.length_cons, ih hencode]

theorem lt_of_encodeTurns {n : ℕ}
    (h : encodeTurns free round near vs us xs = some (is, vs', us')) (hvs : vs.length = n)
    (hus : us.length = n) : ∀ i ∈ is, i < n := by
  induction xs generalizing vs us is vs' us' with
  | nil =>
      obtain ⟨rfl, -⟩ := Prod.mk.inj (Option.some.inj h)
      exact fun i hi => absurd hi List.not_mem_nil
  | cons x xs ih =>
      obtain ⟨i, ws, is, henter, hencode, rfl⟩ := encodeTurns_cons.mp h
      exact List.forall_mem_cons.mpr ⟨hvs ▸ lt_of_enter henter,
        ih hencode hus ((length_enter henter).trans hvs)⟩

omit [DecidableEq β] in
theorem turnValues_iff : List.Forall₂ (Stands round near) (turnValues free vs us is) xs ↔
    Returns free round near vs (evens is) (evens xs) ∧
      Returns free round near us (odds is) (odds xs) := by
  induction is generalizing vs us xs with
  | nil =>
      cases xs with
      | nil => exact ⟨fun _ => ⟨.nil, .nil⟩, fun _ => .nil⟩
      | cons x xs =>
          rw [evens_cons]
          exact ⟨nofun, fun h => nomatch h.1⟩
  | cons i is ih =>
      cases xs with
      | nil =>
          rw [evens_cons]
          exact ⟨nofun, fun h => nomatch h.1⟩
      | cons x xs =>
          rw [turnValues, List.forall₂_cons, ih, evens_cons, evens_cons, odds_cons, odds_cons,
            returns_cons]
          exact ⟨fun h => ⟨⟨h.1, h.2.2⟩, h.2.1⟩, fun h => ⟨h.1.1, h.2, h.1.2⟩⟩

end Turns

/-! ### Beginnings -/

section Prefix

variable {free round near} {x : α} {xs ys : List α}

/-- Once a slot has been taken, it keeps its value. -/
theorem chosen_beginning (h : xs <+: ys) :
    chosen free round xs = free ∨ chosen free round ys = chosen free round xs := by
  induction xs generalizing ys with
  | nil => exact .inl rfl
  | cons x xs ih =>
      obtain ⟨zs, rfl⟩ := h
      rw [List.cons_append, chosen, chosen]
      split
      · exact ih (List.prefix_append xs zs)
      · exact .inr rfl

theorem others_beginning (h : xs <+: ys) :
    others free round near xs <+: others free round near ys := by
  induction xs generalizing ys with
  | nil => exact List.nil_prefix
  | cons x xs ih =>
      obtain ⟨zs, rfl⟩ := h
      rw [List.cons_append, others, others]
      split
      · exact ih (List.prefix_append xs zs)
      · rw [List.filter_append]
        exact List.prefix_append _ _

/-- Nothing is rounded to the value of a free slot. -/
theorem fits_of_round_ne (h : ∀ x ∈ xs, round x ≠ free) : Fits free round near xs := by
  cases xs with
  | nil => exact fun x hx => absurd hx List.not_mem_nil
  | cons x xs =>
      intro y hy
      rw [List.takeWhile_cons, if_neg (by simpa using h x List.mem_cons_self)] at hy
      exact absurd hy List.not_mem_nil

theorem mem_of_mem_others (h : x ∈ others free round near xs) : x ∈ xs := by
  induction xs with
  | nil => exact h
  | cons y xs ih =>
      rw [others] at h
      split at h
      · exact List.mem_cons_of_mem y (ih h)
      · exact List.mem_cons_of_mem y (List.mem_of_mem_filter h)

theorem fits_cons : Fits free round near (x :: xs) ↔ (round x = free →
    (chosen free round xs = free ∨ near x (chosen free round xs) = true) ∧
      Fits free round near xs) := by
  rw [Fits, Fits, List.takeWhile_cons, chosen]
  by_cases hx : round x = free
  · rw [if_pos hx, if_pos (decide_eq_true hx), List.forall_mem_cons]
    exact ⟨fun h _ => h, fun h => h hx⟩
  · rw [if_neg (by simpa using hx)]
    exact ⟨fun _ h => absurd h hx, fun _ x hx => absurd hx List.not_mem_nil⟩

theorem Fits.of_beginning (hfits : Fits free round near ys) (h : xs <+: ys) :
    Fits free round near xs := by
  induction xs generalizing ys with
  | nil => exact fun x hx => absurd hx List.not_mem_nil
  | cons x xs ih =>
      obtain ⟨zs, rfl⟩ := h
      rw [List.cons_append, fits_cons] at hfits
      rw [fits_cons]
      intro hx
      obtain ⟨hchosen, hrest⟩ := hfits hx
      refine ⟨?_, ih hrest (List.prefix_append xs zs)⟩
      have hvalue : chosen free round xs = free ∨
          chosen free round (xs ++ zs) = chosen free round xs :=
        chosen_beginning (List.prefix_append xs zs)
      rcases hvalue with hnone | hsame
      · exact .inl hnone
      · rwa [hsame] at hchosen

end Prefix

end Palette
