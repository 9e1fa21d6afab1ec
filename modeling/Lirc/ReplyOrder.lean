import Lirc.DeferredReply

/-!
The replies to one client in the order of its commands. A command is answered by the operation
that executes it, but for a SEND_ONCE that repeats: its reply waits for the last frame, and a line
that has been read together with it does not.
-/

namespace Lirc

open CString Lines Transition Reloading

section Alarm

variable (env : Env) {d : Daemon}

theorem handleAlarm_speaks (late : Bool) (h : Fit d) :
    (Speaks none d (handleAlarm env late d) ∧
        (handleAlarm env late d).repeatRemote = d.repeatRemote) ∨
      (Speaks d.waitingReply d (handleAlarm env late d) ∧
        (handleAlarm env late d).repeatRemote = none ∧ d.repeatRemote ≠ none) := by
  have hcleared : ∀ {d' : Daemon}, Fit d' →
      Speaks none d' { (if late then expire d' else d') with alrm := false } ∧
        ({ (if late then expire d' else d') with alrm := false } : Daemon).repeatRemote =
          d'.repeatRemote := fun {d'} hfit => by
    cases late with
    | true =>
        simp only [if_pos, expire_eq]
        exact ⟨.of_eq ⟨hfit.heap, hfit.few, hfit.message⟩ rfl, trivial⟩
    | false => exact ⟨.of_eq ⟨hfit.heap, hfit.few, hfit.message⟩ rfl, rfl⟩
  unfold handleAlarm
  split
  · obtain ⟨hspeaks, hsame⟩ | ⟨hspeaks, hnone, hsome⟩ := dosigalrm_speaks env h
    · obtain ⟨hafter, hkept⟩ := hcleared hspeaks.fit
      exact .inl ⟨hspeaks.andThen hafter, hkept.trans hsame⟩
    · obtain ⟨hafter, hkept⟩ := hcleared hspeaks.fit
      exact .inr ⟨hspeaks.andThen hafter, hkept.trans hnone, hsome⟩
  · exact .inl ⟨.of_eq h rfl, rfl⟩

end Alarm

/-! ### Conversations -/

/-- lircd, and the lines that have been executed for the client at each descriptor. -/
structure Conversing where
  transmitting : Transmitting
  commands : ℕ → List (List Char) := fun _ => []

namespace Conversing

def daemon (c : Conversing) : Daemon := c.transmitting.daemon

/-- The line that is executed for the client. -/
def executed (c : Conversing) (fd : ℕ) : Activity → List (List Char)
  | .line fd' line =>
      if c.transmitting.reloading.crashed = false ∧ Connected c.daemon fd' ∧ fd' = fd then [line]
      else []
  | _ => []

/-- The command whose reply waits for the end of what is repeated. -/
def waiting (c : Conversing) (fd : ℕ) : List (List Char) :=
  if c.daemon.repeatRemote = none then [] else repliesTo c.daemon.waitingReply fd

/-- Every descriptor has been written one reply to each line of its client, in the order of the
lines, but for the one whose reply waits, or a write to it has failed. -/
def InOrder (c : Conversing) : Prop :=
  ∀ fd, ∃ answered, Told fd (connection fd c.daemon.trace) answered ∧
    answered ++ c.waiting fd = c.commands fd

end Conversing

open Conversing

/-- One operation. A client that is not connected any more has said nothing. -/
def converseStep (env : Env) (c : Conversing) (op : Activity) : Conversing :=
  let s := operate env c.transmitting op
  { transmitting := s
    commands := fun fd => if Connected s.daemon fd then c.commands fd ++ c.executed fd op else [] }

/-- Lines are lines, clients are written events, and the names that are read can be shown. -/
def Offered (c : Conversing) : Activity → Prop
  | .write fd message => Connected c.daemon fd ∧ IsEvent message
  | .line _ line => '\n' ∉ line
  | .received heap _ _ => ∀ a, Showable (heap a)
  | .config (some new) => new.length < 2 ^ 31 ∧ ∀ x ∈ new, Showable x.2
  | _ => True

/-- The client that waits is not removed and no line of it is executed, and while it waits no
SEND_STOP ends what is repeated. -/
def KeepsOrder (env : Env) (c : Conversing) : Activity → Prop
  | .disconnect fd => c.transmitting.reloading.crashed = false → c.daemon.repeatFd ≠ some fd
  | .line fd line => c.transmitting.reloading.crashed = false → Connected c.daemon fd →
      c.daemon.repeatFd ≠ some fd ∧
        (c.daemon.repeatFd ≠ none → (request env c.daemon line).ends = false)
  | _ => True

instance decidableKeepsOrder (env : Env) (c : Conversing) : DecidablePred (KeepsOrder env c)
  | .disconnect fd => inferInstanceAs (Decidable
      (c.transmitting.reloading.crashed = false → c.daemon.repeatFd ≠ some fd))
  | .line fd line => inferInstanceAs (Decidable (c.transmitting.reloading.crashed = false →
      Connected c.daemon fd → c.daemon.repeatFd ≠ some fd ∧
        (c.daemon.repeatFd ≠ none → (request env c.daemon line).ends = false)))
  | .accept _ _ | .write _ _ | .expire | .alarm _ | .reconnect | .received _ _ _ | .config _
  | .freeOld => .isTrue trivial

/-- What holds between two operations. -/
structure Orderly (c : Conversing) : Prop where
  fit : Fit c.daemon
  distinct : Distinct c.daemon
  deferred : Deferred c.transmitting
  silent : ∀ fd, ¬Connected c.daemon fd → c.commands fd = []
  inOrder : c.InOrder

theorem KeepsOrder.keepsReply {env : Env} {c : Conversing} {op : Activity}
    (h : KeepsOrder env c op) : KeepsReply env c.transmitting op := by
  cases op with
  | disconnect fd => exact h
  | line fd line => exact fun hrunning hfd hwaits => (h hrunning hfd).2 hwaits
  | _ => trivial

/-! ### What waits -/

section Waiting

variable {c c' : Conversing} {fd : ℕ}

theorem waiting_eq (h : Deferred c.transmitting) (fd : ℕ) :
    c.waiting fd = repliesTo c.daemon.waitingReply fd := by
  rw [waiting]
  split
  · next hnone =>
      have hidle : c.daemon.repeatFd = none := h.nobody hnone
      rw [Daemon.waitingReply, hidle]
      rfl
  · rfl

/-- Another client waits, or nobody. -/
theorem repliesTo_waitingReply {d : Daemon} (h : d.repeatFd ≠ some fd) :
    repliesTo d.waitingReply fd = [] := by
  rw [Daemon.waitingReply]
  split
  · next fd' message hfd _ =>
      rw [repliesTo]
      exact if_neg fun heq => h (by rw [hfd, heq])
  · rfl

theorem waitingReply_congr {d d' : Daemon} (hfd : d'.repeatFd = d.repeatFd)
    (hmessage : d'.repeatMessage = d.repeatMessage) : d'.waitingReply = d.waitingReply := by
  rw [Daemon.waitingReply, Daemon.waitingReply, hfd, hmessage]

theorem waitingReply_of_pending {d d' : Daemon} (h : d'.pending = d.pending) :
    d'.waitingReply = d.waitingReply := by
  simp only [Daemon.pending, Prod.mk.injEq] at h
  exact waitingReply_congr h.2.2.1 h.2.2.2

theorem waitingReply_none {d : Daemon} (h : d.repeatFd = none) : d.waitingReply = none := by
  rw [Daemon.waitingReply, h]

/-- The replies that are written and the one that waits then are the ones that are due. -/
theorem Conversing.InOrder.speaks {reply : Option (ℕ × List Char)} (h : c.InOrder)
    (hspeaks : Speaks reply c.daemon c'.daemon)
    (hdue : ∀ fd answered, answered ++ c.waiting fd = c.commands fd →
      answered ++ repliesTo reply fd ++ c'.waiting fd = c'.commands fd) : c'.InOrder := by
  intro fd
  obtain ⟨answered, htold, horder⟩ := h fd
  obtain ⟨-, es, hes, hsince⟩ := hspeaks
  refine ⟨answered ++ repliesTo reply fd, ?_, hdue fd answered horder⟩
  rw [hes, connection_append, if_neg (hsince fd).1]
  exact htold.append (hsince fd).2

end Waiting

/-! ### What is not said to a client -/

section Silent

variable (env : Env) {d : Daemon}

theorem expire_speaks (h : Fit d) : Speaks none d (expire d) := by
  rw [expire_eq]
  exact .of_eq ⟨h.heap, h.few, h.message⟩ rfl

theorem reconnect_speaks (h : Fit d) : Speaks none d (reconnect env d) := by
  rw [reconnect]
  split
  · exact .of_log ⟨h.heap, h.few, h.message⟩ rfl (fun _ _ heq => by cases heq)
      fun _ heq => by cases heq
  · exact .of_eq h rfl

theorem mapLast_speaks {s : Reloading} (h : Fit s.daemon) :
    Speaks none s.daemon s.mapLast.daemon := by
  have hsame : Speaks none s.daemon s.daemon := .of_eq h rfl
  unfold mapLast
  split
  · exact hsame
  · split
    · dsimp only
      split
      · exact hsame
      · next b _ =>
          split
          · exact hsame
          · split
            · exact hsame
            · have hr := h.heap b
              exact .of_eq (h.setRemote ⟨hr.name, hr.few, hr.codes⟩) rfl
    · exact hsame

theorem mapRepeat_speaks {s : Reloading} (h : Fit s.daemon) :
    Speaks none s.daemon s.mapRepeat.2.daemon := by
  have hsame : Speaks none s.daemon s.daemon := .of_eq h rfl
  unfold mapRepeat
  split
  · exact hsame
  · next a _ =>
      split
      · dsimp only
        split
        · exact hsame
        · next b _ =>
            split
            · exact hsame
            · split
              · exact hsame
              · next c _ =>
                  have hr := h.heap b
                  have hset : Fit (s.daemon.setRemote b { s.daemon.heap b with
                      lastCode := some c
                      lastSend := (s.daemon.heap a).lastSend
                      toggleBitMaskState := (s.daemon.heap a).toggleBitMaskState
                      minRemainingGap := (s.daemon.heap a).minRemainingGap
                      maxRemainingGap := (s.daemon.heap a).maxRemainingGap }) :=
                    h.setRemote ⟨hr.name, hr.few, hr.codes⟩
                  exact .of_eq ⟨hset.heap, hset.few, hset.message⟩ rfl
      · exact hsame

theorem freeMapped_speaks {s : Reloading} (h : Fit s.daemon) :
    Speaks none s.daemon s.freeMapped.daemon := by
  have hlast := mapLast_speaks h
  have hmapped := hlast.trans (mapRepeat_speaks hlast.fit)
  unfold freeMapped
  dsimp only
  split
  · exact hlast
  · split
    · exact hmapped
    · exact hmapped

theorem config_speaks {s : Reloading} (h : Fit s.daemon) {new : Option (List (ℕ × IrRemote))}
    (hnew : ∀ remotes ∈ new, remotes.length < 2 ^ 31 ∧ ∀ x ∈ remotes, Showable x.2) :
    Speaks none s.daemon (s.config new).daemon := by
  have hsame : Speaks none s.daemon s.daemon := .of_eq h rfl
  unfold config
  split
  · exact hsame
  · split
    · exact hsame
    · next remotes =>
        obtain ⟨hfew, hshown⟩ := hnew remotes rfl
        refine .of_eq ⟨fun a => ?_, ?_, h.message⟩ rfl
        · dsimp only
          cases hfound : remotes.find? fun x => x.1 == a with
          | none => exact h.heap a
          | some x => exact hshown x (List.mem_of_find?_eq_some hfound)
        · rw [List.length_map]
          exact hfew

end Silent

/-! ### Runs -/

section Step

variable (env : Env) {c : Conversing}

/-- The lines of a client that stays. -/
theorem converseStep_commands (h : Orderly c) (op : Activity) {fd : ℕ}
    (hkept : Connected c.daemon fd → Connected (operate env c.transmitting op).daemon fd) :
    (converseStep env c op).commands fd = c.commands fd ++ c.executed fd op := by
  show (if Connected (operate env c.transmitting op).daemon fd then
    c.commands fd ++ c.executed fd op else []) = _
  by_cases hfd : Connected c.daemon fd
  · rw [if_pos (hkept hfd)]
  · have hnone : c.executed fd op = [] := by
      cases op with
      | line fd' line =>
          rw [executed]
          apply if_neg
          rintro ⟨-, hconnected, rfl⟩
          exact hfd hconnected
      | _ => rfl
    rw [h.silent fd hfd, hnone]
    exact ite_self []

theorem converseStep_waiting {op : Activity} (hafter : Deferred (operate env c.transmitting op))
    (fd : ℕ) : (converseStep env c op).waiting fd =
      repliesTo (operate env c.transmitting op).daemon.waitingReply fd :=
  waiting_eq hafter fd

/-- No client has gone, and no reply has been written. -/
theorem converseStep_quiet (h : Orderly c) {op : Activity} {d' : Daemon}
    (hop : (operate env c.transmitting op).daemon = d')
    (hafter : Deferred (operate env c.transmitting op)) (hspeaks : Speaks none c.daemon d')
    (hkept : ∀ fd, Connected c.daemon fd → Connected d' fd)
    (hwaits : d'.waitingReply = c.daemon.waitingReply) (hexecuted : ∀ fd, c.executed fd op = []) :
    Fit (converseStep env c op).daemon ∧ (converseStep env c op).InOrder := by
  subst hop
  refine ⟨hspeaks.fit, h.inOrder.speaks hspeaks fun fd answered horder => ?_⟩
  rw [converseStep_waiting env hafter, hwaits, ← waiting_eq h.deferred,
    converseStep_commands env h op (hkept fd), hexecuted, List.append_nil, ← horder, repliesTo, List.append_nil]

/-- A line is answered at once, or its reply waits. -/
theorem converseStep_line (hsim : env.allowSimulate = false) (h : Orderly c) {fd : ℕ}
    {line : List Char} (hrunning : c.transmitting.reloading.crashed = false)
    (hfd : Connected c.daemon fd) (hline : '\n' ∉ line)
    (hafter : Deferred (operate env c.transmitting (.line fd line)))
    (hwaits : c.daemon.repeatFd ≠ some fd) :
    Fit (converseStep env c (.line fd line)).daemon ∧
      (converseStep env c (.line fd line)).InOrder := by
  have hdaemon : (operate env c.transmitting (.line fd line)).daemon =
      (execLine (lircd env fd) line c.daemon).2 := by
    rw [operate, hrunning, if_neg Bool.false_ne_true]
    exact congrArg Transmitting.daemon (if_pos hfd)
  obtain ⟨htable, hpending⟩ := execLine_pending env fd hsim line c.daemon
  have hspeaks := @execLine_speaks env fd _ _ hline h.fit
  rw [← hdaemon] at htable hpending hspeaks
  have hwaiting := converseStep_waiting env hafter
  have hcommands : ∀ fd', (converseStep env c (.line fd line)).commands fd' =
      c.commands fd' ++ if fd = fd' then [line] else [] := fun fd' => by
    rw [converseStep_commands env h _ (htable.connected fd').mpr, executed]
    by_cases heq : fd = fd'
    · rw [if_pos ⟨hrunning, hfd, heq⟩, if_pos heq]
    · rw [if_neg fun hboth => heq hboth.2.2, if_neg heq]
  obtain ⟨hanswers, hkept⟩ | ⟨hsilent, hidle, hnew, hmessage⟩ | ⟨hallow, -⟩ := hspeaks
  · -- what waits is left
    have hsame : (operate env c.transmitting (.line fd line)).daemon.waitingReply =
        c.daemon.waitingReply := by
      cases hpending with
      | kept _ hpending => exact waitingReply_of_pending hpending
      | ended _ hpending =>
          simp only [Daemon.pending, Prod.mk.injEq] at hpending
          exact waitingReply_congr hkept hpending.2.2.2
      | failed _ hidle _ _ _ =>
          have hnone : c.daemon.repeatFd = none := h.deferred.nobody hidle
          rw [waitingReply_none (hkept.trans hnone), waitingReply_none hnone]
      | once _ hidle _ _ _ hpending =>
          simp only [Daemon.pending, Prod.mk.injEq] at hpending
          have hnot := hpending.2.2.1.symm.trans (hkept.trans (h.deferred.nobody hidle))
          cases hnot
      | start _ _ _ _ hpending =>
          simp only [Daemon.pending, Prod.mk.injEq] at hpending
          exact waitingReply_congr hkept hpending.2.2.2
    refine ⟨hanswers.fit, h.inOrder.speaks hanswers fun fd' answered horder => ?_⟩
    rw [hwaiting, hsame, ← waiting_eq h.deferred, hcommands, ← horder, repliesTo]
    by_cases heq : fd = fd'
    · subst heq
      rw [waiting_eq h.deferred, repliesTo_waitingReply hwaits, if_pos rfl, List.append_nil,
        List.append_nil]
    · rw [if_neg heq, List.append_nil, List.append_nil]
  · -- a SEND_ONCE that repeats: nobody waited before it
    have hnobody : c.daemon.waitingReply = none := waitingReply_none (h.deferred.nobody hidle)
    refine ⟨hsilent.fit, h.inOrder.speaks hsilent fun fd' answered horder => ?_⟩
    rw [waiting_eq h.deferred, hnobody, repliesTo, List.append_nil] at horder
    rw [hwaiting, hcommands, ← horder, Daemon.waitingReply, hnew, hmessage]
    dsimp only [repliesTo]
    rw [List.dropLast_concat, List.append_nil]
  · rw [hsim] at hallow
    cases hallow

theorem converseStep_alarm (h : Orderly c) (late : Bool)
    (hrunning : c.transmitting.reloading.crashed = false)
    (hafter : Deferred (operate env c.transmitting (.alarm late))) :
    Fit (converseStep env c (.alarm late)).daemon ∧ (converseStep env c (.alarm late)).InOrder := by
  have hdaemon : (operate env c.transmitting (.alarm late)).daemon =
      handleAlarm env late c.daemon := by
    rw [operate, hrunning]
    rfl
  obtain ⟨htable, hpending⟩ := handleAlarm_pending env late c.daemon
  have hkept : ∀ fd, Connected c.daemon fd → Connected (handleAlarm env late c.daemon) fd :=
    fun fd => (htable.connected fd).mpr
  have hcases := hpending h.deferred.message
  obtain ⟨hsilent, hsame⟩ | ⟨hanswers, hnone, hsome⟩ := handleAlarm_speaks env late h.fit
  · refine converseStep_quiet env h hdaemon hafter hsilent hkept ?_ fun _ => rfl
    obtain hpending | hpending := hcases
    · exact waitingReply_of_pending hpending
    · -- nothing was repeated before either
      simp only [Daemon.pending, Prod.mk.injEq] at hpending
      have hidle : c.daemon.repeatFd = none :=
        h.deferred.nobody (hsame.symm.trans hpending.1)
      rw [waitingReply_none hpending.2.2.1, waitingReply_none hidle]
  · -- the last frame: what waited is answered
    have hended : (handleAlarm env late c.daemon).waitingReply = none := by
      obtain hpending | hpending := hcases
      · simp only [Daemon.pending, Prod.mk.injEq] at hpending
        exact absurd (hpending.1.symm.trans hnone) hsome
      · simp only [Daemon.pending, Prod.mk.injEq] at hpending
        exact waitingReply_none hpending.2.2.1
    rw [← hdaemon] at hanswers hended hkept
    refine ⟨hanswers.fit, h.inOrder.speaks hanswers fun fd answered horder => ?_⟩
    have hwaiting : (converseStep env c (.alarm late)).waiting fd = [] := by
      rw [converseStep_waiting env hafter, hended]
      rfl
    have hnothing : c.executed fd (.alarm late) = [] := rfl
    rw [hwaiting, converseStep_commands env h _ (hkept fd), hnothing, ← horder,
      waiting_eq h.deferred]

/-- The trace of a new connection begins with nothing written. -/
theorem converseStep_accept (h : Orderly c) {fd : ℕ} (type : ClientType)
    (hrunning : c.transmitting.reloading.crashed = false) (hnew : ¬Connected c.daemon fd)
    (hafter : Deferred (operate env c.transmitting (.accept fd type))) :
    Fit (converseStep env c (.accept fd type)).daemon ∧
      (converseStep env c (.accept fd type)).InOrder := by
  have hdaemon : (operate env c.transmitting (.accept fd type)).daemon =
      addClient env fd type c.daemon := by
    rw [operate, hrunning, if_neg Bool.false_ne_true]
    exact congrArg Transmitting.daemon (if_neg hnew)
  have hkept : ∀ fd', Connected c.daemon fd' →
      Connected (operate env c.transmitting (.accept fd type)).daemon fd' := fun fd' hfd' => by
    rw [hdaemon]
    exact addClient_connected env fd type hfd'
  have hsame : (operate env c.transmitting (.accept fd type)).daemon.waitingReply =
      c.daemon.waitingReply := by
    rw [hdaemon]
    exact waitingReply_of_pending (addClient_pending env fd type c.daemon)
  have hwaiting : ∀ fd', (converseStep env c (.accept fd type)).waiting fd' = c.waiting fd' :=
    fun fd' => by rw [converseStep_waiting env hafter, hsame, ← waiting_eq h.deferred]
  by_cases hroom : fdSetsize ≤ fd ∨ maxClients ≤ c.daemon.clin
  · -- no room: the connection is closed at once
    have hrejected : (converseStep env c (.accept fd type)).daemon =
        c.daemon.log (.closed fd) := by
      show (operate env c.transmitting (.accept fd type)).daemon = _
      rw [hdaemon, addClient, if_pos hroom]
    refine ⟨hrejected ▸ ⟨h.fit.heap, h.fit.few, h.fit.message⟩, fun fd' => ?_⟩
    rw [hrejected, hwaiting, converseStep_commands env h _ (hkept fd')]
    show ∃ answered, Told fd' (connection fd' (c.daemon.trace ++ [.closed fd])) answered ∧ _
    rw [connection_concat]
    obtain ⟨answered, htold, horder⟩ := h.inOrder fd'
    by_cases hfd : fd' = fd
    · subst hfd
      have hidle : c.daemon.repeatFd ≠ some fd' := fun hwaits =>
        hnew (h.deferred.connected fd' hwaits)
      refine ⟨[], ?_, ?_⟩
      · rw [if_pos rfl]
        exact .silent rfl
      · rw [h.silent fd' hnew, waiting_eq h.deferred, repliesTo_waitingReply hidle]
        rfl
    · refine ⟨answered, ?_, ?_⟩
      · rw [if_neg fun heq => hfd (Event.closed.inj heq).symm]
        have hclosed : Told fd' [Event.closed fd] [] := .silent rfl
        have hboth := htold.append hclosed
        rwa [List.append_nil] at hboth
      · rw [horder]
        exact (List.append_nil _).symm
  · have hspeaks : Speaks none c.daemon (addClient env fd type c.daemon) := by
      rw [addClient, if_neg hroom]
      dsimp only
      split
      · exact .of_eq ⟨h.fit.heap, h.fit.few, h.fit.message⟩ rfl
      · exact .of_log ⟨h.fit.heap, h.fit.few, h.fit.message⟩ rfl
          (fun _ _ heq => by cases heq) fun _ heq => by cases heq
    rw [hdaemon] at hsame hkept
    exact converseStep_quiet env h hdaemon hafter hspeaks hkept hsame fun _ => rfl

/-- Behind the end of a connection nothing has been written. -/
theorem removeClient_closes {d : Daemon} {i : ℕ} (hi : i < d.clin) :
    ∃ es, (removeClient env (d.clis i) d).trace = d.trace ++ .closed (d.clis i) :: es ∧
      ∀ fd, writtenTo fd es = [] ∧ .closed fd ∉ es := by
  unfold removeClient
  split
  · next hnone =>
      have hnot := List.find?_eq_none.mp hnone i (List.mem_range.mpr hi)
      exact absurd (beq_self_eq_true _) hnot
  · dsimp only
    rw [deinitUnused]
    split
    · exact ⟨[], rfl, fun _ => ⟨rfl, List.not_mem_nil⟩⟩
    · exact ⟨[.deinit], by simp [Daemon.log], fun _ => ⟨rfl, by simp⟩⟩

theorem converseStep_disconnect (h : Orderly c) {i : ℕ} (hi : i < c.daemon.clin)
    (hrunning : c.transmitting.reloading.crashed = false)
    (hafter : Deferred (operate env c.transmitting (.disconnect (c.daemon.clis i))))
    (hwaits : c.daemon.repeatFd ≠ some (c.daemon.clis i)) :
    Fit (converseStep env c (.disconnect (c.daemon.clis i))).daemon ∧
      (converseStep env c (.disconnect (c.daemon.clis i))).InOrder := by
  have hdaemon : (operate env c.transmitting (.disconnect (c.daemon.clis i))).daemon =
      removeClient env (c.daemon.clis i) c.daemon := by
    rw [operate, hrunning]
    rfl
  have hremoved := removeClient_at env h.distinct hi
  obtain ⟨es, hes, hsilent⟩ := removeClient_closes env hi
  have hfit := (removeClient_tells env h.fit (c.daemon.clis i)).1
  have hsame := waitingReply_of_pending (removeClient_pending env (c.daemon.clis i) c.daemon)
  rw [← hdaemon] at hremoved hes hfit hsame
  refine ⟨hfit, fun fd => ?_⟩
  rw [converseStep_waiting env hafter, hsame, ← waiting_eq h.deferred]
  show ∃ answered, Told fd (connection fd (operate env c.transmitting
    (.disconnect (c.daemon.clis i))).daemon.trace) answered ∧ _
  rw [hes, connection_append]
  by_cases hfd : fd = c.daemon.clis i
  · subst hfd
    refine ⟨[], ?_, ?_⟩
    · rw [if_pos List.mem_cons_self]
      have hconnection : connection (c.daemon.clis i) (.closed (c.daemon.clis i) :: es) = es := by
        have happend := connection_append (c.daemon.clis i) [.closed (c.daemon.clis i)] es
        rw [if_neg (hsilent _).2, ← List.nil_append [Event.closed _], connection_concat,
          if_pos rfl] at happend
        exact happend
      rw [hconnection]
      exact .silent (hsilent _).1
    · have hgone : ¬Connected (operate env c.transmitting
          (.disconnect (c.daemon.clis i))).daemon (c.daemon.clis i) := by
        rintro ⟨j, hj, heq⟩
        exact hremoved.gone h.distinct hi hj heq
      have hnothing : (converseStep env c (.disconnect (c.daemon.clis i))).commands
          (c.daemon.clis i) = [] := if_neg hgone
      rw [hnothing, waiting_eq h.deferred, repliesTo_waitingReply hwaits]
      rfl
  · obtain ⟨answered, htold, horder⟩ := h.inOrder fd
    refine ⟨answered, ?_, ?_⟩
    · rw [if_neg]
      · have hclosed : Told fd (.closed (c.daemon.clis i) :: es) [] := .silent (hsilent fd).1
        have hboth := htold.append hclosed
        rwa [List.append_nil] at hboth
      · intro hmem
        obtain heq | hmem := List.mem_cons.mp hmem
        · exact hfd (Event.closed.inj heq)
        · exact (hsilent fd).2 hmem
    · rw [horder, converseStep_commands env h _
        fun hconnected => hremoved.connected hi hconnected hfd]
      exact (List.append_nil _).symm

/-- One operation. -/
theorem converseStep_orderly (hsim : env.allowSimulate = false) (h : Orderly c) {op : Activity}
    (hoffered : Offered c op) (hkeeps : KeepsOrder env c op) : Orderly (converseStep env c op) := by
  have hafter : Deferred (operate env c.transmitting op) :=
    (operate_deferred_iff env hsim h.distinct h.deferred op).mpr hkeeps.keepsReply
  suffices horder : Fit (converseStep env c op).daemon ∧ (converseStep env c op).InOrder from
    ⟨horder.1, operate_distinct env hsim c.transmitting op h.distinct, hafter,
      fun fd hfd => if_neg hfd, horder.2⟩
  have hsame : Speaks none c.daemon c.daemon := .of_eq h.fit rfl
  cases hcrashed : c.transmitting.reloading.crashed with
  | true =>
      have hdaemon : (operate env c.transmitting op).daemon = c.daemon := by
        unfold operate
        rw [if_pos hcrashed]
        rfl
      refine converseStep_quiet env h hdaemon hafter hsame (fun _ hfd => hfd) rfl fun fd => ?_
      cases op with
      | line fd' line =>
          rw [executed, hcrashed]
          exact if_neg fun hboth => by cases hboth.1
      | _ => rfl
  | false =>
  cases op with
  | accept fd type =>
      by_cases hfd : Connected c.daemon fd
      · have hdaemon : (operate env c.transmitting (.accept fd type)).daemon = c.daemon := by
          rw [operate, hcrashed, if_neg Bool.false_ne_true]
          exact congrArg Transmitting.daemon (if_pos hfd)
        exact converseStep_quiet env h hdaemon hafter hsame (fun _ hfd => hfd) rfl fun _ => rfl
      · exact converseStep_accept env h type hcrashed hfd hafter
  | disconnect fd =>
      by_cases hfd : Connected c.daemon fd
      · have hwaits := hkeeps hcrashed
        obtain ⟨i, hi, rfl⟩ := hfd
        exact converseStep_disconnect env h hi hcrashed hafter hwaits
      · have hdaemon : (operate env c.transmitting (.disconnect fd)).daemon = c.daemon := by
          rw [operate, hcrashed]
          exact removeClient_absent env hfd
        exact converseStep_quiet env h hdaemon hafter hsame (fun _ hfd => hfd) rfl fun _ => rfl
  | write fd message =>
      have hreplies := writeSocket_replies env fd message c.daemon
      have hdaemon : (operate env c.transmitting (.write fd message)).daemon =
          (writeSocket env fd message c.daemon).2 := by
        rw [operate, hcrashed]
        rfl
      exact converseStep_quiet env h hdaemon hafter (writeSocket_speaks env hoffered.2 fd h.fit)
        (fun fd' => (hreplies.sameTable.connected fd').mpr)
        (waitingReply_of_pending hreplies.pending) fun _ => rfl
  | line fd line =>
      by_cases hfd : Connected c.daemon fd
      · exact converseStep_line env hsim h hcrashed hfd hoffered hafter (hkeeps hcrashed hfd).1
      · have hdaemon : (operate env c.transmitting (.line fd line)).daemon = c.daemon := by
          rw [operate, hcrashed, if_neg Bool.false_ne_true]
          exact congrArg Transmitting.daemon (if_neg hfd)
        refine converseStep_quiet env h hdaemon hafter hsame (fun _ hfd => hfd) rfl fun _ => ?_
        rw [executed]
        exact if_neg fun hboth => hfd hboth.2.1
  | expire =>
      have hdaemon : (operate env c.transmitting .expire).daemon = Lirc.expire c.daemon := by
        rw [operate, hcrashed]
        rfl
      refine converseStep_quiet env h hdaemon hafter (expire_speaks h.fit) (fun fd hfd => ?_) ?_
        fun _ => rfl
      · rw [expire_eq]
        exact hfd
      · rw [expire_eq]
        rfl
  | alarm late => exact converseStep_alarm env h late hcrashed hafter
  | reconnect =>
      have hdaemon : (operate env c.transmitting .reconnect).daemon =
          Lirc.reconnect env c.daemon := by
        rw [operate, hcrashed]
        rfl
      refine converseStep_quiet env h hdaemon hafter (reconnect_speaks env h.fit)
        (fun fd => ((reconnect_table env c.daemon).connected fd).mpr) ?_ fun _ => rfl
      rw [Lirc.reconnect]
      split
      · rfl
      · rfl
  | received heap lastRemote decoding =>
      have hdaemon : (operate env c.transmitting (.received heap lastRemote decoding)).daemon =
          { c.daemon with heap := heap } := by
        rw [operate, hcrashed]
        rfl
      exact converseStep_quiet env h hdaemon hafter
        (.of_eq ⟨hoffered, h.fit.few, h.fit.message⟩ rfl) (fun _ hfd => hfd) rfl fun _ => rfl
  | config new =>
      have hdaemon : (operate env c.transmitting (.config new)).daemon =
          (c.transmitting.reloading.config new).daemon := by
        rw [operate, hcrashed]
        rfl
      obtain ⟨hpending, htable⟩ := config_pending new c.transmitting.reloading
      have hnew : ∀ remotes ∈ new, remotes.length < 2 ^ 31 ∧ ∀ x ∈ remotes, Showable x.2 := by
        rintro remotes rfl
        exact hoffered
      exact converseStep_quiet env h hdaemon hafter (config_speaks h.fit hnew)
        (fun fd => (htable.connected fd).mpr) (waitingReply_of_pending hpending) fun _ => rfl
  | freeOld =>
      by_cases hkept : c.transmitting.reloading.freeRemotes = [] ∨
          c.transmitting.reloading.decodesOld = true
      · have hdaemon : (operate env c.transmitting .freeOld).daemon = c.daemon := by
          rw [operate, hcrashed, if_neg Bool.false_ne_true]
          exact congrArg Transmitting.daemon (if_pos hkept)
        exact converseStep_quiet env h hdaemon hafter hsame (fun _ hfd => hfd) rfl fun _ => rfl
      · have hdaemon : (operate env c.transmitting .freeOld).daemon =
            c.transmitting.reloading.freeMapped.daemon := by
          rw [operate, hcrashed, if_neg Bool.false_ne_true]
          exact congrArg Transmitting.daemon (if_neg hkept)
        obtain ⟨htable, hpending⟩ := freeMapped_pending c.transmitting.reloading
        refine converseStep_quiet env h hdaemon hafter (freeMapped_speaks h.fit)
          (fun fd => (htable.connected fd).mpr) ?_ fun _ => rfl
        obtain hpending | ⟨-, a, code, hpending⟩ := hpending
        · exact waitingReply_of_pending hpending
        · simp only [Daemon.pending, Prod.mk.injEq] at hpending
          exact waitingReply_congr hpending.2.2.1 hpending.2.2.2

/-- In every state of a series of operations each client has been written exactly one reply to each
of its lines, in the order of the lines, but for the SEND_ONCE that waits for the last frame, if
the client that waits is not removed, no line of it is executed and no SEND_STOP ends what is
repeated while it waits. -/
theorem replies_in_order (hsim : env.allowSimulate = false) (start : Transmitting)
    (hstart : AtStart start.daemon) (hfit : Fit start.daemon) (ops : List Activity)
    (hoffered : Along (converseStep env) Offered ⟨start, fun _ => []⟩ ops)
    (hkeeps : Along (converseStep env) (KeepsOrder env) ⟨start, fun _ => []⟩ ops) :
    Always (converseStep env) InOrder ⟨start, fun _ => []⟩ ops := by
  have hbegin : Orderly ⟨start, fun _ => []⟩ := by
    refine ⟨hfit, fun i hi => ?_, Deferred.of_idle ?_, fun _ _ => rfl, fun fd => ⟨[], ?_, ?_⟩⟩
    · have hnone : i < 0 := hstart.clin ▸ hi
      exact absurd hnone (Nat.not_lt_zero i)
    · rw [Daemon.pending, hstart.repeatRemote, hstart.repeatCode, hstart.repeatFd,
        hstart.repeatMessage]
    · have htrace : (Conversing.daemon ⟨start, fun _ => []⟩).trace = [] := hstart.trace
      rw [htrace]
      exact .silent rfl
    · rw [waiting]
      exact if_pos hstart.repeatRemote
  have hall := (hoffered.and hkeeps).always (I := Orderly)
    (fun c op h hboth => converseStep_orderly env hsim h hboth.1 hboth.2) hbegin
  exact fun fs hp => (hall fs hp).inOrder

end Step

theorem showable_repeatingRemote : Showable repeatingRemote := ⟨by decide, by decide, by decide⟩

theorem transmittingTv_fit : Fit transmittingTv.daemon where
  heap _ := showable_repeatingRemote
  few := by decide
  message _ hm := by cases hm

/-- A SEND_ONCE with two repeats, during which another client is answered, an event is sent and the
configuration is read again; then a SEND_START that is stopped. -/
def conversationOps : List Activity :=
  [.accept 7 .localClient, .accept 8 .remoteClient, .line 7 "SEND_ONCE tv POWER 2".toList,
    .line 8 "VERSION".toList, .write 7 "0000000000000001 00 POWER tv\n".toList, .expire,
    .alarm false, .line 8 "SEND_ONCE tv POWER".toList, .config (some [(1, repeatingRemote)]),
    .freeOld, .expire, .alarm false, .line 7 "LIST tv".toList,
    .line 7 "SEND_START tv POWER".toList, .line 8 "SEND_STOP tv POWER".toList, .disconnect 8]

theorem replies_in_order_two :
    Always (converseStep quietEnv) InOrder ⟨transmittingTv, fun _ => []⟩ conversationOps := by
  have hline : ∀ {c : Conversing} {fd : ℕ} {line : List Char}, '\n' ∉ line →
      Offered c (.line fd line) := fun h => h
  refine replies_in_order quietEnv rfl transmittingTv ⟨rfl, rfl, rfl, rfl, rfl, rfl, rfl, rfl⟩
    transmittingTv_fit conversationOps ⟨trivial, trivial, hline (by decide), hline (by decide), ?_,
      trivial, trivial, hline (by decide), ?_, trivial, trivial, trivial, hline (by decide),
      hline (by decide), hline (by decide), trivial, trivial⟩ (by decide +kernel)
  · exact ⟨by decide +kernel, "0000000000000001 00 POWER tv".toList, by decide, by decide +kernel,
      by decide⟩
  · refine ⟨by decide, fun x hx => ?_⟩
    cases List.mem_singleton.mp hx
    exact showable_repeatingRemote

/-- Two lines in one read: the reply to the second one is written first. -/
theorem replies_in_order_fails :
    ¬ ∀ (env : Env) (start : Transmitting) (ops : List Activity), env.allowSimulate = false →
      AtStart start.daemon → Fit start.daemon →
      Along (converseStep env) Offered ⟨start, fun _ => []⟩ ops →
      Always (converseStep env) InOrder ⟨start, fun _ => []⟩ ops := by
  intro h
  let ops : List Activity := [.accept 7 .localClient, .line 7 "SEND_ONCE tv POWER 2".toList,
    .line 7 "VERSION".toList]
  have honce : '\n' ∉ "SEND_ONCE tv POWER 2".toList := by decide
  have hversion : '\n' ∉ "VERSION".toList := by decide
  have hlast := h quietEnv transmittingTv ops rfl ⟨rfl, rfl, rfl, rfl, rfl, rfl, rfl, rfl⟩
    transmittingTv_fit ⟨trivial, honce, hversion, trivial⟩ ops (List.prefix_refl _)
  obtain ⟨answered, htold, horder⟩ := hlast 7
  obtain hbroken | ⟨ps, hps, htext, hanswered⟩ := htold
  · revert hbroken
    decide +kernel
  · have hwritten : ps = [.reply "VERSION".toList true [lircVersion]] := by
      refine Packet.packets_inj hps (fun q hq => ?_) (htext.symm.trans (by decide +kernel))
      cases List.mem_singleton.mp hq
      exact ⟨by decide, by decide, by decide⟩
    subst hwritten
    subst hanswered
    revert horder
    decide +kernel

end Lirc
