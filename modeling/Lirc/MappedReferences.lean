import Lirc.OldRemotes

/-!
What a call of `free_old_remotes` leaves behind. `last_remote` is left when the new remotes have no
such remote or button, and it is `NULL` after the call when it points to a new remote; a
`last_code` that is `NULL` is followed; and nobody asks which list the driver waits with.
-/

namespace Lirc

open Transition

namespace Reloading

/-- After the event nothing that lircd holds points to a remote that has been freed, and no `NULL`
has been followed. A `last_remote` that points to a new remote outlives a call of
`free_old_remotes`. -/
structure Safely (env : Env) (suffix : Name) (userelease : Bool) (s : Reloading)
    (e : ReloadEvent) : Prop where
  sound : (reloadStep env suffix userelease s e).Sound
  lastLive : (reloadStep env suffix userelease s e).LastLive
  kept : e = .freeOld → ∀ a ∈ s.lastRemote, a ∈ s.daemon.remotes →
    (reloadStep env suffix userelease s e).lastRemote = some a

/-- `last_remote` does not point to a new remote when `free_old_remotes` maps it. -/
def NotNew (s : Reloading) : ReloadEvent → Prop
  | .freeOld => s.freeRemotes ≠ [] → s.decodesOld = false → ∀ a ∈ s.lastRemote,
      a ∉ s.daemon.remotes
  | _ => True

/-- What `free_old_remotes` needs. -/
structure MapsAll (s : Reloading) (e : ReloadEvent) : Prop where
  keepsHanded : s.KeepsHanded e
  mapsLast : s.MapsLast e
  notNew : s.NotNew e

/-! ### `last_remote` -/

theorem mapRepeat_lastRemote (s : Reloading) : s.mapRepeat.2.lastRemote = s.lastRemote := by
  unfold mapRepeat
  split
  · rfl
  · split
    · dsimp only
      split
      · rfl
      · split
        · rfl
        · split
          · rfl
          · rfl
    · rfl

theorem freeMapped_lastRemote (s : Reloading) : s.freeMapped.lastRemote = s.mapLast.lastRemote := by
  have hrepeat := mapRepeat_lastRemote s.mapLast
  unfold freeMapped
  dsimp only
  split
  · rfl
  · split
    · exact hrepeat
    · exact hrepeat

theorem mapLast_new {s : Reloading} {a : ℕ} (hlast : s.lastRemote = some a)
    (ha : a ∉ s.freeRemotes) : s.mapLast.lastRemote = none := by
  rw [mapLast, hlast]
  dsimp only
  rw [if_neg ha]

section Steps

variable (env : Env) (suffix : Name) (userelease : Bool) {s : Reloading}

/-- A new `last_remote` is forgotten. -/
theorem freeOldRemotes_new (hs : s.Sound) (hdecodes : s.decodesOld = false) {a : ℕ}
    (hlast : s.lastRemote = some a) (ha : a ∈ s.daemon.remotes) :
    (s.freeOldRemotes env suffix userelease).lastRemote = none := by
  have hann := mapRelease_announced env suffix userelease s
  have hold : a ∉ s.freeRemotes := fun hmem => hs.apart a hmem ha
  rw [freeOldRemotes, hdecodes, if_neg Bool.false_ne_true, freeMapped_lastRemote]
  apply mapLast_new (hann.lastRemote.trans hlast)
  rw [hann.freeRemotes]
  exact hold

/-- A new `last_remote` is kept exactly if `free_old_remotes` does not come to map it. -/
theorem kept_iff_notNew (hs : s.Sound) (hrunning : s.crashed = false) (e : ReloadEvent) :
    (e = .freeOld → ∀ a ∈ s.lastRemote, a ∈ s.daemon.remotes →
      (reloadStep env suffix userelease s e).lastRemote = some a) ↔ s.NotNew e := by
  cases e with
  | freeOld =>
      rw [reloadStep, hrunning, if_neg Bool.false_ne_true]
      split
      · next hfree =>
          constructor
          · intro hkept _ hdecodes a hlast ha
            have hforgotten := freeOldRemotes_new env suffix userelease hs hdecodes hlast ha
            rw [hkept rfl a hlast ha] at hforgotten
            cases hforgotten
          · intro hnew _ a hlast ha
            cases hdecodes : s.decodesOld with
            | true =>
                rw [freeOldRemotes, hdecodes, if_pos rfl]
                exact hlast
            | false => exact absurd ha (hnew hfree hdecodes a hlast)
      · next hfree => exact iff_of_true (fun _ a hlast _ => hlast) fun h => absurd h hfree
  | _ => exact iff_of_true (fun h => by cases h) trivial

/-- One event. -/
theorem safely_iff_mapsAll (hs : s.Sound) (hlive : s.LastLive) {e : ReloadEvent}
    (hposs : s.Possible e) : s.Safely env suffix userelease e ↔ s.MapsAll e := by
  obtain ⟨hsound, hlast⟩ := reloadStep_spec env suffix userelease hs hposs
  have hkept := kept_iff_notNew env suffix userelease hs hlive.1 e
  exact ⟨fun h => ⟨hsound.mp h.sound, (hlast hlive).mp h.lastLive, hkept.mp h.kept⟩,
    fun h => ⟨hsound.mpr h.keepsHanded, (hlast hlive).mpr h.mapsLast, hkept.mpr h.notNew⟩⟩

end Steps

end Reloading

open Reloading

section Runs

variable (env : Env) (suffix : Name) (userelease : Bool)

/-- In a run nothing that lircd holds ever points to a remote that has been freed, no `NULL` is
followed and `last_remote` is kept when it points to a new remote, if and only if each call of
`free_old_remotes` that maps finds a `last_remote` that can be mapped and is not a new one, and
frees no list that the driver waits with. -/
theorem references_safe_iff {s : Reloading} {es : List ReloadEvent} (hstart : s.Fresh)
    (hposs : Along (reloadStep env suffix userelease) Possible s es) :
    Along (reloadStep env suffix userelease) (Safely env suffix userelease) s es ↔
      Along (reloadStep env suffix userelease) MapsAll s es := by
  refine along_iff_along (I := fun s => s.Sound ∧ s.LastLive)
    (fun s e hs hposs => safely_iff_mapsAll env suffix userelease hs.1 hs.2 hposs)
    (fun s e hs hposs hmaps => ?_) ⟨hstart.sound, hstart.lastLive⟩ hposs
  have hsafe := (safely_iff_mapsAll env suffix userelease hs.1 hs.2 hposs).mpr hmaps
  exact ⟨hsafe.sound, hsafe.lastLive⟩

/-- The button that was received last is not in the new configuration. -/
def removedEvents : List ReloadEvent :=
  [.receive, .decode, foundTv 0, .returned, newTv 1 "MUTE", .freeOld]

/-- A part of a sequence is received, and the configuration is read again. -/
def partEvents : List ReloadEvent :=
  [.receive, .decode, .decoded (.found 0 (fun _ => remoteTv "POWER") none), .returned,
    newTv 1 "POWER", .freeOld]

theorem reloadingEvents_mapsAll :
    Along (reloadStep quietEnv [] true) MapsAll reloadingTv reloadingEvents := by
  refine ⟨⟨trivial, trivial, trivial⟩, ⟨trivial, trivial, trivial⟩, ⟨trivial, trivial, trivial⟩,
    ⟨fun _ _ h => absurd h (by decide +kernel), fun _ h => absurd h (by decide +kernel),
      fun _ h => absurd h (by decide +kernel)⟩,
    ⟨trivial, trivial, trivial⟩, ⟨trivial, trivial, trivial⟩,
    ⟨fun _ _ _ h => absurd h (by decide +kernel), fun _ _ => ?_, fun _ _ a ha => ?_⟩,
    ⟨trivial, trivial, trivial⟩,
    ⟨fun _ _ _ h => absurd h (by decide +kernel), fun _ _ => ?_, fun _ _ a ha => ?_⟩,
    ⟨trivial, trivial, trivial⟩, trivial⟩
  · exact @lastMapped_of _ 0 1 0 (by decide +kernel) (by decide +kernel) (by decide +kernel)
      (by decide +kernel)
  · cases ha
    decide +kernel
  · exact @lastMapped_of _ 1 2 0 (by decide +kernel) (by decide +kernel) (by decide +kernel)
      (by decide +kernel)
  · cases ha
    decide +kernel

theorem removedEvents_possible :
    Along (reloadStep quietEnv [] true) Possible reloadingTv removedEvents := by
  refine ⟨⟨rfl, rfl⟩, trivial, ⟨List.mem_cons_self, fun b => ⟨rfl, rfl⟩, fun x hx => ?_⟩, trivial,
    newTv_possible (by decide +kernel), trivial, trivial⟩
  cases hx
  exact ⟨rfl, Nat.zero_lt_one⟩

theorem partEvents_possible :
    Along (reloadStep quietEnv [] true) Possible reloadingTv partEvents := by
  refine ⟨⟨rfl, rfl⟩, trivial, ⟨List.mem_cons_self, fun b => ⟨rfl, rfl⟩, fun x hx => ?_⟩, trivial,
    newTv_possible (by decide +kernel), trivial, trivial⟩
  cases hx

/-- `NULL` is followed for the name of a code. -/
theorem partEvents_notMaps :
    ¬Along (reloadStep quietEnv [] true) MapsAll reloadingTv partEvents := by
  rintro ⟨-, -, -, -, -, hmaps, -⟩
  have hmapped := hmaps.mapsLast (by decide +kernel) (by decide +kernel)
  rcases hmapped 0 (by decide +kernel) (by decide +kernel) with ⟨hnone, -⟩ | ⟨b, c, -, hcode, -⟩
  · revert hnone
    decide +kernel
  · cases hcode

theorem references_safe_iff_tv :
    Along (reloadStep quietEnv [] true) (Safely quietEnv [] true) reloadingTv reloadingEvents ∧
      ¬Along (reloadStep quietEnv [] true) (Safely quietEnv [] true) reloadingTv partEvents :=
  ⟨(references_safe_iff quietEnv [] true reloadingTv_fresh reloadingEvents_possible).mpr
    reloadingEvents_mapsAll, fun h => partEvents_notMaps
      ((references_safe_iff quietEnv [] true reloadingTv_fresh partEvents_possible).mp h)⟩

/-- The remote that was received last is freed, and `last_remote` still points to it. -/
theorem references_safe_fails :
    ¬ ∀ (env : Env) (suffix : Name) (userelease : Bool) (s : Reloading) (es : List ReloadEvent),
      s.Fresh → Along (reloadStep env suffix userelease) Possible s es →
      Along (reloadStep env suffix userelease) (Safely env suffix userelease) s es := by
  intro h
  obtain ⟨-, -, -, -, -, hsafe, -⟩ :=
    h quietEnv [] true reloadingTv removedEvents reloadingTv_fresh removedEvents_possible
  have hlive := hsafe.lastLive.2 0 (by decide +kernel)
  revert hlive
  decide +kernel

end Runs

end Lirc
