import Lirc.Clients
import Lirc.Requests

/-!
The loop of `waitfordata` over the clients. When `get_command` has returned 0 for `clis[i]`, the
loop evaluates `clis[i]` once more to remove that client. An event that the client has simulated
goes to all clients, and those that cannot be written to are removed in the meantime, so that
another client may stand at the index.
-/

namespace Lirc

open Transition

/-- The loop between two passes: the index, the descriptors that can be read, and the clients for
which `get_command` has returned 0. -/
structure ClientLoop where
  daemon : Daemon
  index : ℕ := 0
  ready : List ℕ
  refused : List ℕ := []

/-- All clients are written to. -/
def Request.simulates : Request → Bool
  | .simulate _ => true
  | _ => false

section Functions

variable (env : Env)

/-- One pass, with what is read from the client. -/
def clientPass (s : ClientLoop) (reads : List (Option (List Char))) : ClientLoop :=
  if s.index < s.daemon.clin then
    let fd := s.daemon.clis s.index
    if fd ∈ s.ready then
      let ready := s.ready.filter (· ≠ fd)
      match getCommand (lircd env fd) reads s.daemon with
      | none => { s with ready } -- a read does not return more than there is room for
      | some (true, d, _) => { s with daemon := d, index := s.index + 1, ready }
      | some (false, d, _) =>
          { s with
            daemon := removeClient env (d.clis s.index) d, ready, refused := s.refused ++ [fd] }
    else { s with index := s.index + 1 }
  else s

/-- If the line simulates an event, no write of it to the clients up to the one that sends the line
fails. They are written to one after the other. -/
def ReachesSender (fd : ℕ) (line : List Char) (d : Daemon) : Prop :=
  (request env d line).simulates = true → ∀ i < d.clin, d.clis i = fd → ∀ j ≤ i,
    env.writeOk (d.clock + 1 + j) (d.clis j) = true

instance decidableReachesSender (fd : ℕ) (line : List Char) (d : Daemon) :
    Decidable (ReachesSender env fd line d) :=
  inferInstanceAs (Decidable ((request env d line).simulates = true → ∀ i < d.clin,
    d.clis i = fd → ∀ j ≤ i, env.writeOk (d.clock + 1 + j) (d.clis j) = true))

/-- The lines of a call of `get_command` that returns 0, with the states in front of them. -/
def refusedLines (s : ClientLoop) (reads : List (Option (List Char))) :
    List (List Char × Daemon) :=
  match getCommandWith (noted (execLine (lircd env (s.daemon.clis s.index)))) reads
      (s.daemon, []) with
  | some (false, (_, lines), _) => lines
  | _ => []

/-- In a call of `get_command` that returns 0 the simulated events reach all clients up to the one
that is served. -/
def KeepsIndex (s : ClientLoop) (reads : List (Option (List Char))) : Prop :=
  s.index < s.daemon.clin → s.daemon.clis s.index ∈ s.ready →
    ∀ x ∈ refusedLines env s reads, ReachesSender env (s.daemon.clis s.index) x.1 x.2

instance decidableKeepsIndex (s : ClientLoop) : DecidablePred (KeepsIndex env s) := fun reads =>
  inferInstanceAs (Decidable (s.index < s.daemon.clin → s.daemon.clis s.index ∈ s.ready →
    ∀ x ∈ refusedLines env s reads, ReachesSender env (s.daemon.clis s.index) x.1 x.2))

end Functions

/-- Since the loop began no client has been closed but those for which `get_command` has returned 0
and those that could not be written to. The others are still there, each once. -/
structure OnlyOffending (start s : ClientLoop) : Prop where
  distinct : Distinct s.daemon
  since : ∃ es, s.daemon.trace = start.daemon.trace ++ es ∧
    (∀ fd, .closed fd ∈ es → fd ∈ s.refused ∨ .broken fd ∈ es) ∧
    ∀ fd, Connected start.daemon fd → .closed fd ∉ es → Connected s.daemon fd

/-! ### What a line does to the clients -/

/-- Clients are closed only when they could not be written to; the others stay. -/
structure Drops (d d' : Daemon) : Prop where
  distinct : Distinct d'
  since : ∃ es, d'.trace = d.trace ++ es ∧ (∀ fd, .closed fd ∈ es → .broken fd ∈ es) ∧
    ∀ fd, Connected d fd → .closed fd ∉ es → Connected d' fd

/-- The table is as it was, and no client has been closed. -/
structure Quiet (d d' : Daemon) : Prop where
  table : SameTable d d'
  since : ∃ es, d'.trace = d.trace ++ es ∧ ∀ fd, .closed fd ∉ es

namespace Quiet

variable {d d' d'' : Daemon}

theorem of_trace (hclin : d'.clin = d.clin) (hclis : d'.clis = d.clis)
    (htrace : d'.trace = d.trace) : Quiet d d' :=
  ⟨⟨hclin, hclis⟩, [], by rw [htrace, List.append_nil], fun _ => List.not_mem_nil⟩

theorem trans (h : Quiet d d') (h' : Quiet d' d'') : Quiet d d'' := by
  obtain ⟨es, hes, hnone⟩ := h.since
  obtain ⟨es', hes', hnone'⟩ := h'.since
  refine ⟨h.table.trans h'.table, es ++ es', by rw [hes', hes, List.append_assoc], fun fd hfd => ?_⟩
  exact (List.mem_append.mp hfd).elim (hnone fd) (hnone' fd)

/-- What the table does not depend on may change before. -/
theorem of_start (h : Quiet d' d'') (hclin : d'.clin = d.clin) (hclis : d'.clis = d.clis)
    (htrace : d'.trace = d.trace) : Quiet d d'' := (of_trace hclin hclis htrace).trans h

theorem drops (h : Quiet d d') (hd : Distinct d) : Drops d d' := by
  obtain ⟨es, hes, hnone⟩ := h.since
  exact ⟨h.table.distinct hd, es, hes, fun fd hfd => absurd hfd (hnone fd),
    fun fd hfd _ => (h.table.connected fd).mpr hfd⟩

end Quiet

theorem Replies.quiet {fd : ℕ} {d d' : Daemon} (h : Replies fd d d') : Quiet d d' := by
  obtain ⟨clock, es, rfl, hes⟩ := h
  exact ⟨⟨rfl, rfl⟩, es, rfl, fun fd' hfd => hes _ hfd⟩

namespace Drops

variable {d d' d'' : Daemon}

theorem trans (h : Drops d d') (h' : Drops d' d'') : Drops d d'' := by
  obtain ⟨es, hes, hbroken, hkept⟩ := h.since
  obtain ⟨es', hes', hbroken', hkept'⟩ := h'.since
  refine ⟨h'.distinct, es ++ es', by rw [hes', hes, List.append_assoc], fun fd hfd => ?_,
    fun fd hfd hnot => ?_⟩
  · obtain hfd | hfd := List.mem_append.mp hfd
    · exact List.mem_append_left _ (hbroken fd hfd)
    · exact List.mem_append_right _ (hbroken' fd hfd)
  · exact hkept' fd (hkept fd hfd fun h => hnot (List.mem_append_left _ h))
      fun h => hnot (List.mem_append_right _ h)

end Drops

/-- The clients up to this index are where they were. -/
structure KeepsFront (i : ℕ) (d d' : Daemon) : Prop where
  clin : i < d'.clin
  clis : ∀ j ≤ i, d'.clis j = d.clis j

namespace KeepsFront

variable {i : ℕ} {d d' d'' : Daemon}

theorem refl (hi : i < d.clin) : KeepsFront i d d := ⟨hi, fun _ _ => rfl⟩

theorem trans (h : KeepsFront i d d') (h' : KeepsFront i d' d'') : KeepsFront i d d'' :=
  ⟨h'.clin, fun j hj => (h'.clis j hj).trans (h.clis j hj)⟩

theorem of_table (h : SameTable d d') (hi : i < d.clin) : KeepsFront i d d' :=
  ⟨by rw [h.clin]; exact hi, fun j _ => by rw [h.clis]⟩

end KeepsFront

section Line

variable (env : Env)

/-- A client that could not be written to is removed. -/
theorem removeClient_since {d : Daemon} (hd : Distinct d) {i : ℕ} (hi : i < d.clin) :
    ∃ es, (removeClient env (d.clis i) d).trace = d.trace ++ es ∧
      (∀ fd, .closed fd ∈ es ↔ fd = d.clis i) ∧
      ∀ fd, Connected d fd → fd ≠ d.clis i → Connected (removeClient env (d.clis i) d) fd := by
  have hremoved := removeClient_at env hd hi
  have hconnected := fun fd (hfd : Connected d fd) hne => hremoved.connected hi hfd hne
  unfold removeClient at hconnected ⊢
  split
  · next hnone =>
      have hnot := List.find?_eq_none.mp hnone i (List.mem_range.mpr hi)
      exact absurd (beq_self_eq_true _) hnot
  · next j hj =>
      rw [hj] at hconnected
      dsimp only at hconnected ⊢
      rw [deinitUnused] at hconnected ⊢
      split
      · next huse =>
          rw [if_pos huse] at hconnected
          exact ⟨[.closed (d.clis i)], rfl, by simp, hconnected⟩
      · next hunused =>
          rw [if_neg hunused] at hconnected
          exact ⟨[.closed (d.clis i), .deinit], by simp [Daemon.log], by simp, hconnected⟩

theorem broadcastLoop_drops (message : List Char) (n i : ℕ) {d : Daemon} (hd : Distinct d) :
    Drops d (broadcastLoop env message n i d) := by
  induction n generalizing i d with
  | zero => exact (Quiet.of_trace rfl rfl rfl).drops hd
  | succ n ih =>
      rw [broadcastLoop]
      split
      · next hi =>
          have hwrote := (writeSocket_replies env (d.clis i) message d).quiet.drops hd
          obtain ⟨hclin, hclis, -, -⟩ := writeSocket_table env message (d.clis i) d
          dsimp only
          split
          · exact hwrote.trans (ih _ hwrote.distinct)
          · next hfailed =>
              have hi' : i < (writeSocket env (d.clis i) message d).2.clin := by rwa [hclin]
              obtain ⟨es, hes, hclosed, hkept⟩ := removeClient_since env hwrote.distinct hi'
              have hremoved := removeClient_at env hwrote.distinct hi'
              rw [hclis] at hes hclosed hkept hremoved
              rw [hclis]
              -- the write that has failed stands in front of the removal
              have htrace : (writeSocket env (d.clis i) message d).2.trace =
                  d.trace ++ [.broken (d.clis i)] := by
                rw [writeSocket] at hfailed ⊢
                split
                · next hok => exact absurd (by rw [if_pos hok]) hfailed
                · rfl
              have hdrops : Drops d (removeClient env (d.clis i)
                  (writeSocket env (d.clis i) message d).2) := by
                refine ⟨hremoved.distinct hwrote.distinct, .broken (d.clis i) :: es, ?_,
                  fun fd hfd => ?_, fun fd hfd hnot => ?_⟩
                · rw [hes, htrace, List.append_assoc]
                  rfl
                · rw [List.mem_cons] at hfd
                  rw [(hclosed fd).mp (hfd.resolve_left fun h => by cases h)]
                  exact List.mem_cons_self
                · refine hkept fd ?_ fun heq => hnot (List.mem_cons_of_mem _ ((hclosed fd).mpr heq))
                  rw [Connected, hclin, hclis]
                  exact hfd
              exact hdrops.trans (ih _ hdrops.distinct)
      · exact (Quiet.of_trace rfl rfl rfl).drops hd

/-- The clients up to one that is written to stay where they are. -/
theorem broadcastLoop_front (message : List Char) (n : ℕ) {i k : ℕ} {d : Daemon} (hd : Distinct d)
    (hi : i < d.clin)
    (hwrites : ∀ j, k ≤ j → j ≤ i → env.writeOk (d.clock + (j - k)) (d.clis j) = true) :
    KeepsFront i d (broadcastLoop env message n k d) := by
  induction n generalizing k d with
  | zero => exact .refl hi
  | succ n ih =>
      rw [broadcastLoop]
      split
      · next hk =>
          have hreplies := writeSocket_replies env (d.clis k) message d
          have hwrote := hreplies.quiet
          have hfront := KeepsFront.of_table hwrote.table hi
          have hclock : (writeSocket env (d.clis k) message d).2.clock = d.clock + 1 := by
            rw [writeSocket]
            split
            · rfl
            · rfl
          dsimp only
          split
          · refine hfront.trans (ih (hwrote.table.distinct hd) hfront.clin fun j hkj hji => ?_)
            have hok := hwrites j (by omega) hji
            rw [hclock, hwrote.table.clis]
            rwa [show d.clock + 1 + (j - (k + 1)) = d.clock + (j - k) by omega]
          · next hfailed =>
              have hlt : i < k := by
                by_contra hle
                have hok := hwrites k le_rfl (by omega)
                rw [Nat.sub_self, Nat.add_zero] at hok
                rw [writeSocket, if_pos hok] at hfailed
                exact hfailed rfl
              have hremoved := removeClient_at env (i := k) (hwrote.table.distinct hd)
                (by rw [hwrote.table.clin]; exact hk)
              have hgone : KeepsFront i (writeSocket env (d.clis k) message d).2
                  (removeClient env ((writeSocket env (d.clis k) message d).2.clis k)
                    (writeSocket env (d.clis k) message d).2) := by
                refine ⟨?_, fun j hj => ?_⟩
                · rw [hremoved.clin, hwrote.table.clin]
                  omega
                · rw [hremoved.clis, if_neg (by omega)]
              refine (hfront.trans hgone).trans (ih (hremoved.distinct (hwrote.table.distinct hd))
                hgone.clin fun j hkj hji => ?_)
              omega
      · exact .refl hi

theorem sendFirst_quiet (fd : ℕ) (message : List Char) (once : Bool) (a c : ℕ) (reps : ℤ)
    (d : Daemon) : Quiet d (sendFirst env fd message once a c reps d).2 := by
  have hcases := sendFirst_cases env fd once message a c reps d
  generalize sendFirst env fd message once a c reps d = x at hcases
  have hfirst : Quiet d (firstFrame env a c d).2 := by
    refine ⟨⟨rfl, rfl⟩, [_], rfl, fun fd hfd => ?_⟩
    cases List.mem_singleton.mp hfd
  have hnoted : Quiet d (noteSent env once a c reps (firstFrame env a c d).2) :=
    hfirst.trans (.of_trace rfl rfl rfl)
  cases hcases with
  | failed hsent h => exact hfirst.trans h.quiet
  | single hsent hmore h => exact hnoted.trans h.quiet
  | waiting hsent hnote hmore honce =>
      subst hnote
      rw [setTimer_eq]
      exact hnoted.trans (.of_trace rfl rfl rfl)
  | outOfMemory hsent hnote hmore honce h =>
      subst hnote
      exact hnoted.trans (.of_start h.quiet rfl rfl rfl)
  | repeating hsent hnote hmore honce h =>
      subst hnote
      rw [setTimer_eq]
      exact (hnoted.trans (.of_start h.quiet rfl rfl rfl)).trans (.of_trace rfl rfl rfl)
  | unanswered hsent hnote hmore honce h =>
      subst hnote
      exact (hnoted.trans (.of_start h.quiet rfl rfl rfl)).trans (.of_trace rfl rfl rfl)

/-- A line, of which only a simulated event closes clients. -/
theorem execLine_quiet (fd : ℕ) (line : List Char) (d : Daemon) :
    Quiet d (execLine (lircd env fd) line d).2 ∨
      ∃ event d₁, request env d line = .simulate event ∧ Quiet d d₁ ∧ d₁.clock = d.clock + 1 ∧
        Quiet (broadcastMessage env (event ++ ['\n']) d₁) (execLine (lircd env fd) line d).2 := by
  have hanswered := execLine_answered env fd line d
  generalize hrequest : request env d line = q at hanswered
  generalize execLine (lircd env fd) line d = x at hanswered
  cases hanswered with
  | reply h => exact .inl h.quiet
  | send hidle honce => exact .inl (sendFirst_quiet env fd _ _ _ _ _ d)
  | @stop a c hremote hcode =>
      refine .inl (Quiet.trans ?_ (sendSuccess_replies env fd _ _).quiet)
      rw [stopRepeating, setTimer_eq]
      exact Quiet.of_trace rfl rfl rfl
  | postpone hremote hcode =>
      exact .inl (.of_start (sendSuccess_replies env fd _ _).quiet rfl rfl rfl)
  | @simulate event hallow =>
      refine .inr ⟨event, d.tick.log (.formatted (event ++ ['\n']) (event.length + 2)), rfl, ?_,
        rfl, (sendSuccess_replies env fd _ _).quiet⟩
      refine ⟨⟨rfl, rfl⟩, [_], rfl, fun fd hfd => ?_⟩
      cases List.mem_singleton.mp hfd

theorem execLine_drops (fd : ℕ) (line : List Char) {d : Daemon} (hd : Distinct d) :
    Drops d (execLine (lircd env fd) line d).2 := by
  obtain hquiet | ⟨event, d₁, -, hbefore, -, hafter⟩ := execLine_quiet env fd line d
  · exact hquiet.drops hd
  · have hbegun := hbefore.drops hd
    have hsent := hbegun.trans (broadcastLoop_drops env (event ++ ['\n']) d₁.clin 0 hbegun.distinct)
    exact hsent.trans (hafter.drops hsent.distinct)

/-- The client that sends the line keeps its place if the events that it simulates reach it. -/
theorem execLine_front {i : ℕ} (line : List Char) {d : Daemon} (hd : Distinct d) (hi : i < d.clin)
    (hreaches : ReachesSender env (d.clis i) line d) :
    KeepsFront i d (execLine (lircd env (d.clis i)) line d).2 := by
  obtain hquiet | ⟨event, d₁, hrequest, hbefore, hclock, hafter⟩ :=
    execLine_quiet env (d.clis i) line d
  · exact .of_table hquiet.table hi
  · have hwrites := hreaches (by rw [hrequest]; rfl)
    have hfront := KeepsFront.of_table hbefore.table hi
    have hsent : KeepsFront i d₁ (broadcastMessage env (event ++ ['\n']) d₁) := by
      refine broadcastLoop_front env _ _ (hbefore.table.distinct hd) hfront.clin fun j _ hj => ?_
      rw [hclock, hbefore.table.clis, Nat.sub_zero]
      exact hwrites i hi rfl j hj
    exact (hfront.trans hsent).trans (.of_table hafter.table hsent.clin)

/-- A call of `get_command`. -/
theorem getCommand_drops (fd : ℕ) {reads reads' : List (Option (List Char))} {d d' : Daemon}
    {ok : Bool} (hd : Distinct d) (h : getCommand (lircd env fd) reads d = some (ok, d', reads')) :
    Drops d d' :=
  getCommand_invariant (I := Drops d)
    (fun line _ _ hdrops => hdrops.trans (execLine_drops env fd line hdrops.distinct))
    ((Quiet.of_trace rfl rfl rfl).drops hd) h

/-- The client keeps its place if all events that it simulates reach it. -/
theorem getCommand_front {i : ℕ} {reads reads' : List (Option (List Char))} {d d' : Daemon}
    {ok : Bool} {lines : List (List Char × Daemon)} (hd : Distinct d) (hi : i < d.clin)
    (h : getCommandWith (noted (execLine (lircd env (d.clis i)))) reads (d, []) =
      some (ok, (d', lines), reads'))
    (hreaches : ∀ x ∈ lines, ReachesSender env (d.clis i) x.1 x.2) : KeepsFront i d d' := by
  have hrun := getCommandWith_invariant
    (I := fun s => (∀ x ∈ s.2, ReachesSender env (d.clis i) x.1 x.2) →
      Distinct s.1 ∧ KeepsFront i d s.1)
    (fun line s _ hs hall => ?_) (fun _ => ⟨hd, .refl hi⟩) h
  · exact (hrun hreaches).2
  · obtain ⟨hbefore, hline⟩ := List.forall_mem_append.mp hall
    obtain ⟨hdistinct, hfront⟩ := hs hbefore
    have hfd : s.1.clis i = d.clis i := hfront.clis i le_rfl
    have hnext := execLine_front env line hdistinct hfront.clin
      (by rw [hfd]; exact hline _ (List.mem_singleton_self _))
    rw [hfd] at hnext
    exact ⟨(execLine_drops env (d.clis i) line hdistinct).distinct, hfront.trans hnext⟩

end Line

/-! ### The loop -/

section Loop

variable (env : Env) {start s s' : ClientLoop}

/-- Clients that could not be written to have been closed. -/
theorem OnlyOffending.drops (h : OnlyOffending start s) (hdrops : Drops s.daemon s'.daemon)
    (hrefused : s.refused ⊆ s'.refused) : OnlyOffending start s' := by
  obtain ⟨es, hes, hclosed, hkept⟩ := h.since
  obtain ⟨es', hes', hbroken, hkept'⟩ := hdrops.since
  refine ⟨hdrops.distinct, es ++ es', by rw [hes', hes, List.append_assoc], fun fd hfd => ?_,
    fun fd hfd hnot => ?_⟩
  · obtain hfd | hfd := List.mem_append.mp hfd
    · exact (hclosed fd hfd).imp (fun hr => hrefused hr) (List.mem_append_left _)
    · exact .inr (List.mem_append_right _ (hbroken fd hfd))
  · exact hkept' fd (hkept fd hfd fun h => hnot (List.mem_append_left _ h))
      fun h => hnot (List.mem_append_right _ h)

/-- A client that has been refused is removed. -/
theorem OnlyOffending.removed (h : OnlyOffending start s) {i : ℕ} (hi : i < s.daemon.clin)
    (hrefused : s.daemon.clis i ∈ s.refused)
    (hdaemon : s'.daemon = removeClient env (s.daemon.clis i) s.daemon)
    (hsame : s'.refused = s.refused) : OnlyOffending start s' := by
  obtain ⟨es, hes, hclosed, hkept⟩ := h.since
  obtain ⟨es', hes', hgone, hstay⟩ := removeClient_since env h.distinct hi
  rw [← hdaemon] at hes' hstay
  refine ⟨?_, es ++ es', by rw [hes', hes, List.append_assoc], fun fd hfd => ?_,
    fun fd hfd hnot => ?_⟩
  · rw [hdaemon]
    exact (removeClient_at env h.distinct hi).distinct h.distinct
  · rw [hsame]
    obtain hfd | hfd := List.mem_append.mp hfd
    · exact (hclosed fd hfd).imp id (List.mem_append_left _)
    · rw [(hgone fd).mp hfd]
      exact .inl hrefused
  · exact hstay fd (hkept fd hfd fun h => hnot (List.mem_append_left _ h))
      fun heq => hnot (List.mem_append_right _ ((hgone fd).mpr heq))

/-- One pass. -/
theorem clientPass_offending (h : OnlyOffending start s) {reads : List (Option (List Char))}
    (hkeeps : KeepsIndex env s reads) : OnlyOffending start (clientPass env s reads) := by
  have hsame : ∀ {t : ClientLoop}, t.daemon = s.daemon → t.refused = s.refused →
      OnlyOffending start t := fun {t} hdaemon hrefused => by
    refine h.drops ?_ (by rw [hrefused]; exact List.Subset.refl _)
    rw [hdaemon]
    exact (Quiet.of_trace rfl rfl rfl).drops h.distinct
  unfold clientPass
  split
  · next hi =>
      dsimp only
      split
      · next hready =>
          have hnoted := getCommandWith_noted (execLine (lircd env (s.daemon.clis s.index))) reads
            s.daemon []
          rw [getCommandWith_execLine] at hnoted
          have hplace := hkeeps hi hready
          rw [refusedLines] at hplace
          split
          · exact hsame rfl rfl
          · next d _ hcall =>
              have hdrops : Drops s.daemon d := getCommand_drops env _ h.distinct hcall
              have hnext : OnlyOffending start { s with
                  daemon := d, index := s.index + 1,
                  ready := s.ready.filter (· ≠ s.daemon.clis s.index) } :=
                h.drops hdrops (List.Subset.refl _)
              exact hnext
          · next d reads' hcall =>
              have hdrops := getCommand_drops env _ h.distinct hcall
              have hfront : KeepsFront s.index s.daemon d := by
                rw [hcall] at hnoted
                cases hresult : getCommandWith
                    (noted (execLine (lircd env (s.daemon.clis s.index)))) reads (s.daemon, []) with
                | none =>
                    rw [hresult] at hnoted
                    cases hnoted
                | some r =>
                    obtain ⟨ok, ⟨d₁, lines⟩, left⟩ := r
                    rw [hresult] at hnoted hplace
                    cases hnoted
                    exact getCommand_front env h.distinct hi hresult hplace
              have hserved := hfront.clis s.index le_rfl
              -- the client that is served is at the index still
              have hbefore : OnlyOffending start { s with
                  daemon := d, refused := s.refused ++ [s.daemon.clis s.index] } :=
                h.drops hdrops (List.subset_append_left _ _)
              refine hbefore.removed env (i := s.index) hfront.clin ?_ rfl rfl
              rw [hserved]
              exact List.mem_append_right _ (List.mem_singleton_self _)
      · exact hsame rfl rfl
  · exact hsame rfl rfl

/-- In every state of the loop over the clients only clients have been closed for which
`get_command` has returned 0 or which could not be written to, and every other client is there
once, if the events that are simulated in a call of `get_command` that returns 0 reach all clients
up to the one that is served. -/
theorem loop_removes_offending {d : Daemon} (hdistinct : Distinct d) (ready : List ℕ)
    (passes : List (List (Option (List Char))))
    (hkeeps : Along (clientPass env) (KeepsIndex env) { daemon := d, ready } passes) :
    Always (clientPass env) (OnlyOffending { daemon := d, ready }) { daemon := d, ready } passes :=
  hkeeps.always (fun _ _ h hplace => clientPass_offending env h hplace)
    ⟨hdistinct, [], (List.append_nil _).symm, fun _ hfd => absurd hfd List.not_mem_nil,
      fun _ hfd _ => hfd⟩

end Loop

/-- A daemon with four clients. -/
def fourClients : Daemon := { emptyDaemon with clis := (· + 5), clin := 4 }

/-- A system on which one client cannot be written to. -/
def brokenEnv (fd : ℕ) : Env :=
  { quietEnv with allowSimulate := true, writeOk := fun _ fd' => fd' != fd }

/-- An event, and the beginning of a line that does not come. -/
def simulatedReads : List (Option (List Char)) :=
  [some "SIMULATE 0000000000000001 00 POWER tv\nLI".toList]

/-- The client behind the one that simulates the event cannot be written to. -/
theorem loop_removes_offending_behind :
    Always (clientPass (brokenEnv 7))
      (OnlyOffending { daemon := fourClients, ready := [5, 6, 7, 8] })
      { daemon := fourClients, ready := [5, 6, 7, 8] }
      [[some "VERSION\n".toList], simulatedReads, [some "LIST\n".toList]] := by
  refine loop_removes_offending (brokenEnv 7) (fun i hi j hj heq => ?_) [5, 6, 7, 8] _ ?_
  · exact Nat.add_right_cancel heq
  · decide +kernel

/-- The client in front of it cannot be written to, and the one behind it is removed. -/
theorem loop_removes_others :
    ¬ ∀ (env : Env) (d : Daemon) (ready : List ℕ) (passes : List (List (Option (List Char)))),
      Distinct d →
        Always (clientPass env) (OnlyOffending { daemon := d, ready }) { daemon := d, ready }
          passes := by
  intro h
  have hlast := h (brokenEnv 5) fourClients [6] [[], simulatedReads]
    (fun i _ j _ heq => Nat.add_right_cancel heq) [[], simulatedReads] (List.prefix_refl _)
  obtain ⟨es, hes, hclosed, -⟩ := hlast.since
  have htrace : es = (run (clientPass (brokenEnv 5)) { daemon := fourClients, ready := [6] }
      [[], simulatedReads]).daemon.trace := hes.symm
  rw [htrace] at hclosed
  have hrefused := hclosed 7 (by decide +kernel)
  revert hrefused
  decide +kernel

end Lirc
