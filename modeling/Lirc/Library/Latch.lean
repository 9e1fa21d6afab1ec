import Lirc.Library.Run

/-!
A latch that some events set and some clear, and events that fire when they
set it while it is off. Between two events that clear it a run fires at most
once, and the first event behind a clearing one that sets it fires.
-/

namespace Transition

variable {ε : Type*}

/-- What an event does to a latch, and whether it fires. -/
structure Latch (ε : Type*) where
  sets : ε → Bool
  clears : ε → Bool
  fires : ε → Bool

namespace Latch

variable (l : Latch ε)

/-- The latch after an event. -/
def next (on : Bool) (a : ε) : Bool := if l.clears a then false else on || l.sets a

/-- Firing is setting the latch while it is off, when there is something to
fire at all. -/
def Guarded (loaded on : Bool) (a : ε) : Prop := l.fires a = (l.sets a && !on && loaded)

variable {l} {loaded on : Bool} {as : List ε}

theorem next_of_sets {a : ε} (hclears : l.clears a = false) (hsets : l.sets a = true) :
    l.next on a = true := by
  simp [next, hclears, hsets]

/-- A latch that is on stays on and nothing fires. -/
theorem countP_fires_on (h : Along l.next (l.Guarded loaded) true as)
    (hclears : ∀ a ∈ as, l.clears a = false) : as.countP l.fires = 0 := by
  induction as with
  | nil => rfl
  | cons a as ih =>
      obtain ⟨hguard, hrest⟩ := h
      have hnext : l.next true a = true := by
        simp [next, hclears a List.mem_cons_self]
      have hfires : l.fires a = false := by
        rw [hguard]
        simp
      rw [hnext] at hrest
      rw [List.countP_cons, ih hrest fun b hb => hclears b (List.mem_cons_of_mem _ hb), hfires]
      rfl

/-- While nothing clears the latch, there is one event that fires at most. -/
theorem countP_fires_le_one (h : Along l.next (l.Guarded loaded) on as)
    (hclears : ∀ a ∈ as, l.clears a = false) : as.countP l.fires ≤ 1 := by
  induction as generalizing on with
  | nil => exact Nat.zero_le _
  | cons a as ih =>
      obtain ⟨hguard, hrest⟩ := h
      have hclears' : ∀ b ∈ as, l.clears b = false := fun b hb =>
        hclears b (List.mem_cons_of_mem _ hb)
      rw [List.countP_cons]
      cases hsets : l.sets a with
      | true =>
          rw [next_of_sets (hclears a List.mem_cons_self) hsets] at hrest
          rw [countP_fires_on hrest hclears']
          split <;> omega
      | false =>
          have hfires : l.fires a = false := by
            rw [hguard, hsets]
            rfl
          rw [hfires]
          exact ih hrest hclears'

/-- Nothing sets the latch, so it stays off. -/
theorem run_off (hsets : ∀ a ∈ as, l.sets a = false) : run l.next false as = false := by
  induction as with
  | nil => rfl
  | cons a as ih =>
      have hnext : l.next false a = false := by
        simp [next, hsets a List.mem_cons_self]
      rw [run_cons, hnext]
      exact ih fun b hb => hsets b (List.mem_cons_of_mem _ hb)

/-- The first event that sets a latch that is off fires. -/
theorem fires_of_off {b : ε} {bs : List ε}
    (h : Along l.next (l.Guarded loaded) false (as ++ b :: bs))
    (hwait : ∀ a ∈ as, l.sets a = false) (hsets : l.sets b = true) : l.fires b = loaded := by
  obtain ⟨hguard, -⟩ := (along_append.mp h).2
  rw [run_off hwait] at hguard
  rw [hguard, hsets]
  rfl

/-- The first event that sets the latch after it was cleared fires. -/
theorem fires_of_cleared {a b : ε} {pre bs : List ε}
    (h : Along l.next (l.Guarded loaded) on (pre ++ a :: (as ++ b :: bs)))
    (hclears : l.clears a = true) (hwait : ∀ a ∈ as, l.sets a = false)
    (hsets : l.sets b = true) : l.fires b = loaded := by
  obtain ⟨-, hrest⟩ := (along_append.mp h).2
  have hnext (s : Bool) : l.next s a = false := by
    rw [next, if_pos hclears]
  rw [hnext] at hrest
  exact fires_of_off hrest hwait hsets

end Latch

end Transition
