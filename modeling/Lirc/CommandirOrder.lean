import Mathlib.Data.List.Induction
import Mathlib.Data.List.Perm.Basic
import Mathlib.Order.Basic

/-!
`hardware_setorder` of `hw_commandir.c`: the attached devices, in the order in which they
were found, are put into a list by their place on the bus. A device that comes after the
head of the list becomes the only one after it.
-/

namespace Lirc

namespace Commandir

/-- Where a device is attached. -/
structure Attached where
  busnum : ℕ
  devnum : ℕ
  deriving DecidableEq, Repr

/-- `this_pcd_value` -/
def Attached.value (d : Attached) : ℕ := d.busnum * 128 + d.devnum

/-- One pass of the loop: the list that starts at `ordered_commandir_devices` gets the
entry `new_ptx` for the device `pcd`. -/
def insertOrdered (ordered : List Attached) (pcd : Attached) : List Attached :=
  match ordered with
  | [] => [pcd]
  | ptx :: rest =>
      if ptx.value < pcd.value then
        -- `ptx->next = new_ptx`, and `new_ptx->next` is NULL
        [ptx, pcd]
      else if pcd.value < ptx.value then pcd :: ptx :: rest
      else
        -- the loop up the chain runs while the value is less, so `last_ptx` is NULL here
        pcd :: ptx :: rest

/-- `hardware_setorder`, with the devices from `first_commandir_device` on. -/
def hardwareSetorder (devices : List Attached) : List Attached := devices.foldl insertOrdered []

/-- The list has each device once, and the values ascend. -/
structure Ordered (devices ordered : List Attached) : Prop where
  perm : ordered.Perm devices
  ascending : ordered.Pairwise fun d e => d.value < e.value

/-- Each device from the third on comes before all that were found earlier. -/
def FoundDownwards (devices : List Attached) : Prop :=
  ∀ earlier d later, devices = earlier ++ d :: later → 2 ≤ earlier.length →
    ∀ e ∈ earlier, d.value < e.value

theorem Attached.value_inj {d e : Attached} (hd : d.devnum < 128) (he : e.devnum < 128)
    (h : d.value = e.value) : d = e := by
  rw [value, value] at h
  cases d
  cases e
  rw [Attached.mk.injEq]
  dsimp only at h hd he
  omega

theorem hardwareSetorder_append (devices : List Attached) (d : Attached) :
    hardwareSetorder (devices ++ [d]) = insertOrdered (hardwareSetorder devices) d := by
  rw [hardwareSetorder, List.foldl_append]
  rfl

theorem insertOrdered_cons (ptx : Attached) (rest : List Attached) (d : Attached) :
    insertOrdered (ptx :: rest) d = if ptx.value < d.value then [ptx, d] else d :: ptx :: rest := by
  show (if _ then _ else if _ then _ else _) = _
  rw [ite_self]

theorem length_insertOrdered (ordered : List Attached) (d : Attached) :
    (insertOrdered ordered d).length ≤ ordered.length + 1 := by
  cases ordered with
  | nil => exact Nat.le_refl 1
  | cons ptx rest =>
      rw [insertOrdered_cons]
      split
      · simp only [List.length_cons, List.length_nil]
        omega
      · exact Nat.le_refl _

theorem length_hardwareSetorder (devices : List Attached) :
    (hardwareSetorder devices).length ≤ devices.length := by
  induction devices using List.reverseRecOn with
  | nil => exact Nat.le_refl 0
  | append_singleton devices d ih =>
      rw [hardwareSetorder_append, List.length_append, List.length_singleton]
      exact Nat.le_trans (length_insertOrdered _ d) (Nat.succ_le_succ ih)

/-- With one or two devices the order does not matter. -/
theorem foundDownwards_of_length {devices : List Attached} (h : devices.length ≤ 2) :
    FoundDownwards devices := by
  intro earlier d later heq htwo
  rw [heq, List.length_append, List.length_cons] at h
  omega

theorem foundDownwards_append {devices : List Attached} {d : Attached} :
    FoundDownwards (devices ++ [d]) ↔
      FoundDownwards devices ∧ (2 ≤ devices.length → ∀ e ∈ devices, d.value < e.value) := by
  constructor
  · intro h
    refine ⟨fun earlier x later heq => ?_, h devices d [] rfl⟩
    refine h earlier x (later ++ [d]) ?_
    rw [heq, List.append_assoc, List.cons_append]
  · rintro ⟨hdown, hlast⟩ earlier x later heq
    rcases List.eq_nil_or_concat later with rfl | ⟨later, y, rfl⟩
    · obtain ⟨rfl, hx⟩ := List.append_inj' heq rfl
      rw [← (List.cons.inj hx).1]
      exact hlast
    · rw [List.concat_eq_append, ← List.cons_append, ← List.append_assoc] at heq
      exact hdown earlier x later (List.append_inj' heq rfl).1

/-! ### One device more -/

section Insert

variable {devices ordered : List Attached} {d : Attached}

theorem perm_append_singleton_iff :
    (d :: ordered).Perm (devices ++ [d]) ↔ ordered.Perm devices := by
  rw [(List.perm_append_singleton d devices).congr_right, List.perm_cons]

/-- The new device comes before all that are in the list. -/
theorem Ordered.insert_head {ptx : Attached} {rest : List Attached}
    (h : Ordered devices (ptx :: rest)) (hlt : d.value < ptx.value) :
    Ordered (devices ++ [d]) (d :: ptx :: rest) ∧ ∀ e ∈ devices, d.value < e.value := by
  obtain ⟨hhead, -⟩ := List.pairwise_cons.mp h.ascending
  have hall : ∀ e ∈ ptx :: rest, d.value < e.value := by
    intro e he
    rcases List.mem_cons.mp he with rfl | he
    · exact hlt
    · exact Nat.lt_trans hlt (hhead e he)
  refine ⟨⟨perm_append_singleton_iff.mpr h.perm, List.pairwise_cons.mpr ⟨hall, h.ascending⟩⟩, ?_⟩
  exact fun e he => hall e (h.perm.mem_iff.mpr he)

/-- The new device goes into a list that has all devices. -/
theorem Ordered.insert_iff (h : Ordered devices ordered) (hnew : ∀ e ∈ devices, e.value ≠ d.value) :
    Ordered (devices ++ [d]) (insertOrdered ordered d) ↔
      (2 ≤ devices.length → ∀ e ∈ devices, d.value < e.value) := by
  have hlen := h.perm.length_eq
  cases ordered with
  | nil =>
      rw [← List.Perm.nil_eq h.perm] at hlen ⊢
      exact ⟨fun _ _ => nofun, fun _ => ⟨.refl _, List.pairwise_singleton _ _⟩⟩
  | cons ptx rest =>
      have hptx : ptx ∈ devices := h.perm.mem_iff.mp List.mem_cons_self
      rw [List.length_cons] at hlen
      rw [insertOrdered_cons]
      by_cases hlt : ptx.value < d.value
      · rw [if_pos hlt]
        constructor
        · -- the others are lost
          intro hordered htwo
          have hperm := hordered.perm.length_eq
          rw [List.length_append] at hperm
          simp only [List.length_cons, List.length_nil] at hperm
          omega
        · intro hall
          by_cases htwo : 2 ≤ devices.length
          · exact absurd (hall htwo ptx hptx) (Nat.lt_asymm hlt)
          · obtain rfl : rest = [] := List.eq_nil_of_length_eq_zero (by omega)
            refine ⟨h.perm.append_right [d], ?_⟩
            rw [List.pairwise_pair]
            exact hlt
      · have hgt : d.value < ptx.value := by
          have hne := hnew ptx hptx
          omega
        obtain ⟨hordered, hall⟩ := h.insert_head hgt
        rw [if_neg hlt]
        exact ⟨fun _ _ => hall, fun _ => hordered⟩

/-- A device that has been lost does not come back. -/
theorem Ordered.of_insert (hlen : ordered.length ≤ devices.length)
    (h : Ordered (devices ++ [d]) (insertOrdered ordered d)) : Ordered devices ordered := by
  cases ordered with
  | nil =>
      have hperm := h.perm.length_eq
      rw [List.length_append] at hperm
      obtain rfl : devices = [] := List.eq_nil_of_length_eq_zero (by
        change 1 = _ + 1 at hperm
        omega)
      exact ⟨.refl _, .nil⟩
  | cons ptx rest =>
      rw [insertOrdered_cons] at h
      split at h
      · have hperm := h.perm.length_eq
        rw [List.length_append] at hperm
        simp only [List.length_cons, List.length_nil] at hperm hlen
        obtain rfl : rest = [] := List.eq_nil_of_length_eq_zero (by omega)
        exact ⟨(List.perm_append_right_iff [d]).mp h.perm, List.pairwise_singleton _ _⟩
      · exact ⟨perm_append_singleton_iff.mp h.perm, (List.pairwise_cons.mp h.ascending).2⟩

end Insert

/-- All devices are in the list, and in order, exactly if each one from the third on comes
before those that were found earlier. -/
theorem hardwareSetorder_ordered_iff {devices : List Attached}
    (hdevnum : ∀ d ∈ devices, d.devnum < 128) (hdistinct : devices.Nodup) :
    Ordered devices (hardwareSetorder devices) ↔ FoundDownwards devices := by
  induction devices using List.reverseRecOn with
  | nil =>
      exact ⟨fun _ => foundDownwards_of_length (Nat.zero_le 2), fun _ => ⟨.refl _, .nil⟩⟩
  | append_singleton devices d ih =>
      obtain ⟨hold, -, hdisjoint⟩ := List.nodup_append.mp hdistinct
      have hdevnum' : ∀ e ∈ devices, e.devnum < 128 := fun e he =>
        hdevnum e (List.mem_append_left _ he)
      have hd : d.devnum < 128 := hdevnum d (List.mem_append_right _ (List.mem_singleton_self d))
      have hnew : ∀ e ∈ devices, e.value ≠ d.value := by
        intro e he heq
        exact hdisjoint e he d (List.mem_singleton_self d)
          (Attached.value_inj (hdevnum' e he) hd heq)
      have ih := ih hdevnum' hold
      rw [hardwareSetorder_append, foundDownwards_append]
      constructor
      · intro h
        have hordered := Ordered.of_insert (length_hardwareSetorder devices) h
        exact ⟨ih.mp hordered, (hordered.insert_iff hnew).mp h⟩
      · rintro ⟨hdown, hlast⟩
        exact ((ih.mpr hdown).insert_iff hnew).mpr hlast

/-- Three devices, each found before the ones that come after it on the bus. -/
theorem hardwareSetorder_ordered_three :
    Ordered [⟨1, 7⟩, ⟨1, 9⟩, ⟨1, 4⟩] (hardwareSetorder [⟨1, 7⟩, ⟨1, 9⟩, ⟨1, 4⟩]) := by
  refine (hardwareSetorder_ordered_iff (by decide) (by decide)).mpr ?_
  show FoundDownwards ([⟨1, 7⟩, ⟨1, 9⟩] ++ [⟨1, 4⟩])
  exact foundDownwards_append.mpr ⟨foundDownwards_of_length (by decide), fun _ => by decide⟩

/-- Three devices found in the order in which they are on the bus: the second is lost. -/
theorem hardwareSetorder_not_ordered :
    ¬ ∀ devices : List Attached, (∀ d ∈ devices, d.devnum < 128) → devices.Nodup →
      Ordered devices (hardwareSetorder devices) := by
  intro h
  have hperm := (h [⟨1, 4⟩, ⟨1, 7⟩, ⟨1, 9⟩] (by decide) (by decide)).perm.length_eq
  exact absurd hperm (by decide)

end Commandir

end Lirc
