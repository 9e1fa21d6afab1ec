import Lirc.Clients
import Lirc.OldRemotes
import Lirc.Requests

/-!
The reply to a SEND_ONCE that waits until all frames have been sent. `repeat_fd` and
`repeat_message` hold it; what reads them and what sets them is cut into single operations, which
may follow each other in every order. `remove_client` leaves `repeat_fd`, and so does the end of
`send_stop`.
-/

namespace Lirc

open CString Transition Reloading

/-- lircd, and what has been noted about its connections: how many there have been, the number of
the one at each descriptor, and the connection and the line that have started what is repeated. -/
structure Transmitting where
  reloading : Reloading
  accepted : ℕ := 0
  connection : ℕ → ℕ := fun _ => 0
  started : Option (ℕ × List Char) := none

namespace Transmitting

def daemon (s : Transmitting) : Daemon := s.reloading.daemon

def withDaemon (s : Transmitting) (d : Daemon) : Transmitting :=
  { s with reloading := { s.reloading with daemon := d } }

end Transmitting

/-- What lircd does. -/
inductive Activity
  /-- `accept` returns a descriptor. -/
  | accept (fd : ℕ) (type : ClientType)
  /-- A call of `remove_client`. -/
  | disconnect (fd : ℕ)
  /-- A message is written to a client. -/
  | write (fd : ℕ) (message : List Char)
  /-- A line of a client is executed. -/
  | line (fd : ℕ) (line : List Char)
  | expire
  | alarm (late : Bool)
  | reconnect
  /-- `hw.rec_func` begins to decode, or has decoded. -/
  | received (heap : ℕ → IrRemote) (lastRemote : Option ℕ) (decoding : List ℕ)
  | config (new : Option (List (ℕ × IrRemote)))
  /-- `free_old_remotes` after the release has been mapped. -/
  | freeOld

section Functions

variable (env : Env)

/-- A line of the client. The line that starts to repeat is noted with its connection. -/
def Transmitting.serve (s : Transmitting) (fd : ℕ) (line : List Char) : Transmitting :=
  let d := (execLine (lircd env fd) line s.daemon).2
  { s.withDaemon d with
    started := if s.daemon.repeatRemote = none ∧ d.repeatRemote ≠ none then
      some (s.connection fd, line) else s.started }

/-- One operation. `accept` returns no descriptor that is open, and only clients are served. After
a crash nothing happens any more. -/
def operate (s : Transmitting) (op : Activity) : Transmitting :=
  if s.reloading.crashed then s
  else
    match op with
    | .accept fd type =>
        if Connected s.daemon fd then s
        else
          { s.withDaemon (addClient env fd type s.daemon) with
            accepted := s.accepted + 1
            connection := Function.update s.connection fd s.accepted }
    | .disconnect fd => s.withDaemon (removeClient env fd s.daemon)
    | .write fd message => s.withDaemon (writeSocket env fd message s.daemon).2
    | .line fd line => if Connected s.daemon fd then s.serve env fd line else s
    | .expire => s.withDaemon (Lirc.expire s.daemon)
    | .alarm late => s.withDaemon (handleAlarm env late s.daemon)
    | .reconnect => s.withDaemon (Lirc.reconnect env s.daemon)
    | .received heap lastRemote decoding =>
        { s with reloading := { s.reloading with
            daemon := { s.daemon with heap := heap }, lastRemote, decoding } }
    | .config new => { s with reloading := s.reloading.config new }
    | .freeOld =>
        if s.reloading.freeRemotes = [] ∨ s.reloading.decodesOld then s
        else { s with reloading := s.reloading.freeMapped }

end Functions

/-- What is repeated ends. -/
def Request.ends : Request → Bool
  | .stop _ => true
  | _ => false

/-- The four variables agree with each other, and the reply that waits is that to the SEND_ONCE
which is being transmitted, for the connection that has sent it. -/
structure Deferred (s : Transmitting) : Prop where
  code : s.daemon.repeatRemote = none ↔ s.daemon.repeatCode = none
  message : s.daemon.repeatFd = none ↔ s.daemon.repeatMessage = none
  repeating : ∀ fd, s.daemon.repeatFd = some fd → s.daemon.repeatRemote ≠ none
  connected : ∀ fd, s.daemon.repeatFd = some fd → Connected s.daemon fd
  started : ∀ fd, s.daemon.repeatFd = some fd → ∃ line,
    HasDirective line "SEND_ONCE".toList ∧
    s.started = some (s.connection fd, line) ∧ s.daemon.repeatMessage = some (line ++ ['\n'])

theorem Deferred.nobody {s : Transmitting} (h : Deferred s)
    (hidle : s.daemon.repeatRemote = none) : s.daemon.repeatFd = none :=
  Option.eq_none_iff_forall_ne_some.mpr fun fd hfd => h.repeating fd hfd hidle

/-- The client that waits is not removed, and while it waits no SEND_STOP ends what is repeated. -/
def KeepsReply (env : Env) (s : Transmitting) : Activity → Prop
  | .disconnect fd => s.reloading.crashed = false → s.daemon.repeatFd ≠ some fd
  | .line fd line => s.reloading.crashed = false → Connected s.daemon fd →
      s.daemon.repeatFd ≠ none → (request env s.daemon line).ends = false
  | _ => True

instance decidableKeepsReply (env : Env) (s : Transmitting) : DecidablePred (KeepsReply env s)
  | .disconnect fd =>
      inferInstanceAs (Decidable (s.reloading.crashed = false → s.daemon.repeatFd ≠ some fd))
  | .line fd line =>
      inferInstanceAs (Decidable (s.reloading.crashed = false → Connected s.daemon fd →
        s.daemon.repeatFd ≠ none → (request env s.daemon line).ends = false))
  | .accept _ _ | .write _ _ | .expire | .alarm _ | .reconnect | .received _ _ _ | .config _
  | .freeOld => .isTrue trivial

/-! ### What a line does -/

/-- What is repeated, and the reply that waits for it. -/
def Daemon.pending (d : Daemon) : Option ℕ × Option ℕ × Option ℕ × Option (List Char) :=
  (d.repeatRemote, d.repeatCode, d.repeatFd, d.repeatMessage)

theorem Replies.sameTable {fd : ℕ} {d d' : Daemon} (h : Replies fd d d') : SameTable d d' := by
  obtain ⟨clock, es, rfl, -⟩ := h
  exact ⟨rfl, rfl⟩

theorem Replies.pending {fd : ℕ} {d d' : Daemon} (h : Replies fd d d') :
    d'.pending = d.pending := by
  obtain ⟨clock, es, rfl, -⟩ := h
  rfl

/-- What a line of the client `fd` makes of the reply that waits. -/
inductive LinePending (env : Env) (fd : ℕ) (line : List Char) (d d' : Daemon) : Prop
  | kept (hends : (request env d line).ends = false) (h : d'.pending = d.pending)
  | ended (hends : (request env d line).ends = true)
      (h : d'.pending = (none, none, d.repeatFd, d.repeatMessage))
  /-- The first frame is not followed by another one. -/
  | failed (hends : (request env d line).ends = false) (hidle : d.repeatRemote = none)
      (message : Option (List Char)) (hmessage : message = d.repeatMessage ∨ message = none)
      (h : d'.pending = (none, none, d.repeatFd, message))
  | once (hends : (request env d line).ends = false) (hidle : d.repeatRemote = none)
      (honce : HasDirective line "SEND_ONCE".toList) (a c : ℕ)
      (h : d'.pending = (some a, some c, some fd, some (line ++ ['\n'])))
  | start (hends : (request env d line).ends = false) (hidle : d.repeatRemote = none) (a c : ℕ)
      (h : d'.pending = (some a, some c, d.repeatFd, d.repeatMessage))

section Line

variable (env : Env) (fd : ℕ)

theorem sendFirst_pending (once : Bool) (message : List Char) (a c : ℕ) (reps : ℤ) (d : Daemon) :
    SameTable d (sendFirst env fd message once a c reps d).2 ∧
      ((sendFirst env fd message once a c reps d).2.pending = d.pending ∨
        (∃ m, (m = d.repeatMessage ∨ m = none) ∧
          (sendFirst env fd message once a c reps d).2.pending = (none, none, d.repeatFd, m)) ∨
        once = true ∧ (sendFirst env fd message once a c reps d).2.pending =
          (some a, some c, some fd, some message) ∨
        (sendFirst env fd message once a c reps d).2.pending =
          (some a, some c, d.repeatFd, d.repeatMessage)) := by
  have hcases := sendFirst_cases env fd once message a c reps d
  generalize sendFirst env fd message once a c reps d = x at hcases
  have hfirst : SameTable d (firstFrame env a c d).2 ∧
      (firstFrame env a c d).2.pending = d.pending := ⟨⟨rfl, rfl⟩, rfl⟩
  have hnote : SameTable d (noteSent env once a c reps (firstFrame env a c d).2) ∧
      (noteSent env once a c reps (firstFrame env a c d).2).pending = d.pending :=
    ⟨⟨rfl, rfl⟩, rfl⟩
  cases hcases with
  | failed hsent h =>
      exact ⟨hfirst.1.trans h.sameTable, .inl (h.pending.trans hfirst.2)⟩
  | single hsent hmore h =>
      exact ⟨hnote.1.trans h.sameTable, .inl (h.pending.trans hnote.2)⟩
  | waiting hsent hnoted hmore honce =>
      subst hnoted
      rw [setTimer_eq]
      exact ⟨⟨rfl, rfl⟩, .inr (.inr (.inl ⟨honce, rfl⟩))⟩
  | outOfMemory hsent hnoted hmore honce h =>
      subst hnoted
      exact ⟨⟨h.sameTable.clin, h.sameTable.clis⟩, .inr (.inl ⟨none, .inr rfl, h.pending⟩)⟩
  | repeating hsent hnoted hmore honce h =>
      subst hnoted
      rw [setTimer_eq]
      exact ⟨⟨h.sameTable.clin, h.sameTable.clis⟩, .inr (.inr (.inr h.pending))⟩
  | unanswered hsent hnoted hmore honce h =>
      subst hnoted
      refine ⟨⟨h.sameTable.clin, h.sameTable.clis⟩, .inr (.inl ⟨d.repeatMessage, .inl rfl, ?_⟩)⟩
      have hpending := h.pending
      simp only [Daemon.pending, Prod.mk.injEq] at hpending ⊢
      exact ⟨trivial, trivial, hpending.2.2⟩

/-- A line of a client that cannot simulate events. -/
theorem execLine_pending (hsim : env.allowSimulate = false) (line : List Char) (d : Daemon) :
    SameTable d (execLine (lircd env fd) line d).2 ∧
      LinePending env fd line d (execLine (lircd env fd) line d).2 := by
  have hanswered := execLine_answered env fd line d
  have hreply : ∀ {d₁ : Daemon} {x : Bool × Daemon}, SameTable d d₁ → Replies fd d₁ x.2 →
      SameTable d x.2 ∧ x.2.pending = d₁.pending :=
    fun htable h => ⟨htable.trans h.sameTable, h.pending⟩
  generalize hrequest : request env d line = q at hanswered
  generalize execLine (lircd env fd) line d = x at hanswered
  cases hanswered with
  | reply h =>
      obtain ⟨htable, hpending⟩ := hreply (SameTable.refl d) h
      exact ⟨htable, .kept (by rw [hrequest]; rfl) hpending⟩
  | @send once a c reps hidle honce =>
      have hends : (request env d line).ends = false := by rw [hrequest]; rfl
      obtain ⟨htable, h | ⟨m, hm, h⟩ | ⟨hyes, h⟩ | h⟩ :=
        sendFirst_pending env fd once (line ++ ['\n']) a c reps d
      · exact ⟨htable, .kept hends h⟩
      · exact ⟨htable, .failed hends hidle m hm h⟩
      · exact ⟨htable, .once hends hidle (honce hyes) a c h⟩
      · exact ⟨htable, .start hends hidle a c h⟩
  | @stop a c hremote hcode =>
      have hstop : SameTable d (stopRepeating a d) ∧
          (stopRepeating a d).pending = (none, none, d.repeatFd, d.repeatMessage) := by
        rw [stopRepeating, setTimer_eq]
        exact ⟨⟨rfl, rfl⟩, rfl⟩
      obtain ⟨htable, hpending⟩ := hreply hstop.1
        (sendSuccess_replies env fd (line ++ ['\n']) (stopRepeating a d))
      exact ⟨htable, .ended (by rw [hrequest]; rfl) (hpending.trans hstop.2)⟩
  | @postpone a c frames hremote hcode =>
      have hset : SameTable d (d.setRemote a { d.heap a with repeatCountdown := frames }) :=
        ⟨rfl, rfl⟩
      obtain ⟨htable, hpending⟩ := hreply hset
        (sendSuccess_replies env fd (line ++ ['\n'])
          (d.setRemote a { d.heap a with repeatCountdown := frames }))
      exact ⟨htable, .kept (by rw [hrequest]; rfl) hpending⟩
  | simulate hallow =>
      rw [hsim] at hallow
      cases hallow

end Line

/-! ### The operations -/

section Operations

variable (env : Env)

theorem deinitUnused_pending (d : Daemon) :
    (deinitUnused env d).pending = d.pending ∧ SameTable d (deinitUnused env d) := by
  obtain ⟨hclin, hclis, -, -⟩ := deinitUnused_table env d
  refine ⟨?_, hclin, hclis⟩
  have hsame := deinitUnused_same env d
  rw [Daemon.pending, hsame.repeatRemote, hsame.repeatCode, deinitUnused]
  split
  · rfl
  · rfl

/-- The reply that waits is written, if there is one. -/
theorem answerRepeat_pending {reply : ℕ → List Char → Daemon → Bool × Daemon}
    (hreply : ∀ fd message d, Replies fd d (reply fd message d).2) (d : Daemon) :
    SameTable d (answerRepeat reply d) ∧ ((d.repeatFd = none ↔ d.repeatMessage = none) →
      (answerRepeat reply d).pending = (d.repeatRemote, d.repeatCode, none, none)) := by
  unfold answerRepeat
  split
  · next fd message hfd htext =>
      have hreplied := hreply fd message d
      have hpending := hreplied.pending
      simp only [Daemon.pending, Prod.mk.injEq] at hpending
      refine ⟨⟨hreplied.sameTable.clin, hreplied.sameTable.clis⟩, fun _ => ?_⟩
      simp only [Daemon.pending, hpending.1, hpending.2.1]
  · next hnot =>
      refine ⟨SameTable.refl d, fun hmessage => ?_⟩
      cases hfd : d.repeatFd with
      | none => rw [Daemon.pending, hfd, hmessage.mp hfd]
      | some fd =>
          cases htext : d.repeatMessage with
          | none =>
              rw [hmessage.mpr htext] at hfd
              cases hfd
          | some message => exact absurd htext (hnot fd message hfd)

/-- `dosigalrm` sends a frame, or ends what is repeated and answers. -/
theorem dosigalrm_pending (d : Daemon) :
    SameTable d (dosigalrm env d) ∧ ((d.repeatFd = none ↔ d.repeatMessage = none) →
      (dosigalrm env d).pending = d.pending ∨
        (dosigalrm env d).pending = (none, none, none, none)) := by
  unfold dosigalrm
  split
  · next a c hremote hcode =>
      split
      · have hsent : SameTable d (sendIrNcode env a c (countRepeat a c d)).2 ∧
            (sendIrNcode env a c (countRepeat a c d)).2.pending = d.pending := by
          rw [countRepeat]
          split
          · exact ⟨⟨rfl, rfl⟩, rfl⟩
          · split
            · exact ⟨⟨rfl, rfl⟩, rfl⟩
            · exact ⟨⟨rfl, rfl⟩, rfl⟩
        have hafter := hsent.2
        simp only [Daemon.pending, Prod.mk.injEq] at hafter
        obtain ⟨-, -, hfd, htext⟩ := hafter
        dsimp only
        split
        · rw [setTimer_eq]
          exact ⟨⟨hsent.1.clin, hsent.1.clis⟩, fun _ => .inl hsent.2⟩
        · rw [finishRepeating]
          obtain ⟨hdeinit, hdeinitTable⟩ := deinitUnused_pending env (answerRepeat (sendSuccess env)
            { (sendIrNcode env a c (countRepeat a c d)).2 with
              repeatRemote := none, repeatCode := none })
          obtain ⟨htable, hanswer⟩ := answerRepeat_pending
            (fun fd message d => sendSuccess_replies env fd message d)
            { (sendIrNcode env a c (countRepeat a c d)).2 with
              repeatRemote := none, repeatCode := none }
          refine ⟨⟨(hdeinitTable.clin.trans htable.clin).trans hsent.1.clin,
            (hdeinitTable.clis.trans htable.clis).trans hsent.1.clis⟩, fun hmessage => ?_⟩
          exact .inr (hdeinit.trans (hanswer (by rw [hfd, htext]; exact hmessage)))
      · rw [interruptRepeating]
        obtain ⟨htable, -⟩ := answerRepeat_pending
          (fun fd message => sendError_replies env fd message "repeating interrupted\n".toList) d
        obtain ⟨hdeinit, hdeinitTable⟩ := deinitUnused_pending env
          { answerRepeat (fun fd message =>
              sendError env fd message "repeating interrupted\n".toList) d with
            repeatRemote := none, repeatCode := none, repeatFd := none, repeatMessage := none }
        exact ⟨htable.trans ⟨hdeinitTable.clin, hdeinitTable.clis⟩, fun _ => .inr hdeinit⟩
  · exact ⟨SameTable.refl d, fun _ => .inl rfl⟩

theorem removeClient_pending (fd : ℕ) (d : Daemon) :
    (removeClient env fd d).pending = d.pending := by
  unfold removeClient
  split
  · rfl
  · exact (deinitUnused_pending env _).1

theorem addClient_pending (fd : ℕ) (type : ClientType) (d : Daemon) :
    (addClient env fd type d).pending = d.pending := by
  unfold addClient
  split
  · rfl
  · dsimp only
    split
    · rfl
    · rfl

theorem mapLast_pending (s : Reloading) :
    s.mapLast.daemon.pending = s.daemon.pending ∧ SameTable s.daemon s.mapLast.daemon := by
  have hrefl := SameTable.refl s.daemon
  unfold mapLast
  split
  · exact ⟨rfl, hrefl⟩
  · split
    · dsimp only
      split
      · exact ⟨rfl, hrefl⟩
      · split
        · exact ⟨rfl, hrefl⟩
        · split
          · exact ⟨rfl, hrefl⟩
          · exact ⟨rfl, rfl, rfl⟩
    · exact ⟨rfl, hrefl⟩

theorem reconnect_table (d : Daemon) : SameTable d (reconnect env d) := by
  rw [reconnect]
  split
  · exact ⟨rfl, rfl⟩
  · exact SameTable.refl d

/-- What is repeated is mapped with its code. -/
theorem mapRepeat_pending (s : Reloading) :
    SameTable s.daemon s.mapRepeat.2.daemon ∧
      (s.mapRepeat.2.daemon.pending = s.daemon.pending ∨
        s.daemon.repeatRemote ≠ none ∧ ∃ b c, s.mapRepeat.2.daemon.pending =
          (some b, some c, s.daemon.repeatFd, s.daemon.repeatMessage)) := by
  have hrefl := SameTable.refl s.daemon
  unfold mapRepeat
  split
  · exact ⟨hrefl, .inl rfl⟩
  · next a ha =>
      split
      · dsimp only
        split
        · exact ⟨hrefl, .inl rfl⟩
        · split
          · exact ⟨hrefl, .inl rfl⟩
          · split
            · exact ⟨hrefl, .inl rfl⟩
            · refine ⟨⟨rfl, rfl⟩, .inr ⟨?_, _, _, rfl⟩⟩
              rw [ha]
              exact Option.some_ne_none a
      · exact ⟨hrefl, .inl rfl⟩

theorem freeMapped_pending (s : Reloading) :
    SameTable s.daemon s.freeMapped.daemon ∧
      (s.freeMapped.daemon.pending = s.daemon.pending ∨
        s.daemon.repeatRemote ≠ none ∧ ∃ b c, s.freeMapped.daemon.pending =
          (some b, some c, s.daemon.repeatFd, s.daemon.repeatMessage)) := by
  obtain ⟨hlast, hlastTable⟩ := mapLast_pending s
  obtain ⟨hrepeatTable, hrepeat⟩ := mapRepeat_pending s.mapLast
  have hfields := hlast
  simp only [Daemon.pending, Prod.mk.injEq] at hfields
  rw [hlast, hfields.1, hfields.2.2.1, hfields.2.2.2] at hrepeat
  unfold freeMapped
  dsimp only
  split
  · exact ⟨hlastTable, .inl hlast⟩
  · split
    · exact ⟨hlastTable.trans hrepeatTable, hrepeat⟩
    · exact ⟨hlastTable.trans hrepeatTable, hrepeat⟩

theorem config_pending (new : Option (List (ℕ × IrRemote))) (s : Reloading) :
    (s.config new).daemon.pending = s.daemon.pending ∧
      SameTable s.daemon (s.config new).daemon := by
  unfold config
  split
  · exact ⟨rfl, SameTable.refl _⟩
  · split
    · exact ⟨rfl, SameTable.refl _⟩
    · exact ⟨rfl, rfl, rfl⟩

theorem handleAlarm_pending (late : Bool) (d : Daemon) :
    SameTable d (handleAlarm env late d) ∧ ((d.repeatFd = none ↔ d.repeatMessage = none) →
      (handleAlarm env late d).pending = d.pending ∨
        (handleAlarm env late d).pending = (none, none, none, none)) := by
  unfold handleAlarm
  split
  · obtain ⟨htable, hpending⟩ := dosigalrm_pending env d
    cases late with
    | true =>
        simp only [if_pos, expire_eq]
        exact ⟨⟨htable.clin, htable.clis⟩, hpending⟩
    | false => exact ⟨⟨htable.clin, htable.clis⟩, hpending⟩
  · exact ⟨SameTable.refl d, fun _ => .inl rfl⟩

end Operations

/-! ### Runs -/

section Runs

variable {s s' : Transmitting}

/-- Nothing that the reply depends on has changed; clients may have come. -/
theorem Deferred.of_pending (h : Deferred s) (hpending : s'.daemon.pending = s.daemon.pending)
    (hstarted : s'.started = s.started)
    (hwaiting : ∀ fd, s.daemon.repeatFd = some fd → Connected s.daemon fd →
      Connected s'.daemon fd ∧ s'.connection fd = s.connection fd) : Deferred s' := by
  simp only [Daemon.pending, Prod.mk.injEq] at hpending
  obtain ⟨hremote, hcode, hfd, hmessage⟩ := hpending
  refine ⟨?_, ?_, fun fd hs => ?_, fun fd hs => ?_, fun fd hs => ?_⟩
  · rw [hremote, hcode]
    exact h.code
  · rw [hfd, hmessage]
    exact h.message
  · rw [hremote]
    rw [hfd] at hs
    exact h.repeating fd hs
  · rw [hfd] at hs
    exact (hwaiting fd hs (h.connected fd hs)).1
  · rw [hfd] at hs
    rw [hstarted, hmessage, (hwaiting fd hs (h.connected fd hs)).2]
    exact h.started fd hs

/-- What is repeated has been mapped to a new remote. -/
theorem Deferred.of_mapped (h : Deferred s) {r : Reloading} {b c : ℕ}
    (hpending : r.daemon.pending =
      (some b, some c, s.daemon.repeatFd, s.daemon.repeatMessage))
    (htable : SameTable s.daemon r.daemon) : Deferred { s with reloading := r } := by
  simp only [Daemon.pending, Prod.mk.injEq] at hpending
  obtain ⟨hremote, hcode, hfd, hmessage⟩ := hpending
  refine ⟨?_, ?_, fun fd hs => ?_, fun fd hs => ?_, fun fd hs => ?_⟩
  · exact iff_of_false (by rw [Transmitting.daemon, hremote]; exact Option.some_ne_none b)
      (by rw [Transmitting.daemon, hcode]; exact Option.some_ne_none c)
  · rw [Transmitting.daemon, hfd, hmessage]
    exact h.message
  · rw [Transmitting.daemon, hremote]
    exact Option.some_ne_none b
  · exact (htable.connected fd).mpr (h.connected fd (hfd.symm.trans hs))
  · obtain ⟨line, honce, hstarted, htext⟩ := h.started fd (hfd.symm.trans hs)
    exact ⟨line, honce, hstarted, hmessage.trans htext⟩

/-- No reply waits. -/
theorem Deferred.of_unanswered (hcode : s'.daemon.repeatRemote = none ↔ s'.daemon.repeatCode = none)
    (hfd : s'.daemon.repeatFd = none) (hmessage : s'.daemon.repeatMessage = none) :
    Deferred s' := by
  have hnone : ∀ fd, s'.daemon.repeatFd ≠ some fd := fun fd hs => by
    rw [hfd] at hs
    cases hs
  exact ⟨hcode, iff_of_true hfd hmessage, fun fd hs => absurd hs (hnone fd),
    fun fd hs => absurd hs (hnone fd), fun fd hs => absurd hs (hnone fd)⟩

theorem Deferred.of_idle (hpending : s'.daemon.pending = (none, none, none, none)) :
    Deferred s' := by
  simp only [Daemon.pending, Prod.mk.injEq] at hpending
  obtain ⟨hremote, hcode, hfd, hmessage⟩ := hpending
  exact of_unanswered (iff_of_true hremote hcode) hfd hmessage

/-- Nothing waits while nothing is repeated. -/
theorem Deferred.idle (h : Deferred s) (hidle : s.daemon.repeatRemote = none) :
    s.daemon.pending = (none, none, none, none) := by
  have hfd : s.daemon.repeatFd = none := by
    cases hfd : s.daemon.repeatFd with
    | none => rfl
    | some fd => exact absurd hidle (h.repeating fd hfd)
  rw [Daemon.pending, hidle, h.code.mp hidle, hfd, h.message.mp hfd]

section Step

variable (env : Env)

/-- A line keeps the agreement exactly if it does not end what is repeated while a reply waits. -/
theorem serve_deferred_iff (hsim : env.allowSimulate = false) (h : Deferred s) {fd : ℕ}
    (hfd : Connected s.daemon fd) (line : List Char) :
    Deferred (s.serve env fd line) ↔
      (s.daemon.repeatFd ≠ none → (request env s.daemon line).ends = false) := by
  obtain ⟨htable, hline⟩ := execLine_pending env fd hsim line s.daemon
  have hdaemon : (s.serve env fd line).daemon = (execLine (lircd env fd) line s.daemon).2 := rfl
  have hconnection : (s.serve env fd line).connection = s.connection := rfl
  have hstarted : (s.serve env fd line).started =
      if s.daemon.repeatRemote = none ∧
          (execLine (lircd env fd) line s.daemon).2.repeatRemote ≠ none then
        some (s.connection fd, line)
      else s.started := rfl
  generalize (execLine (lircd env fd) line s.daemon).2 = d' at htable hline hdaemon hstarted
  generalize s.serve env fd line = s' at hdaemon hconnection hstarted
  subst hdaemon
  cases hline with
  | kept hends hpending =>
      refine iff_of_true (h.of_pending hpending ?_ fun fd' _ hfd' =>
        ⟨(htable.connected fd').mpr hfd', by rw [hconnection]⟩) fun _ => hends
      simp only [Daemon.pending, Prod.mk.injEq] at hpending
      rw [hstarted, if_neg]
      rw [hpending.1]
      exact fun hnot => hnot.2 hnot.1
  | ended hends hpending =>
      cases hwait : s.daemon.repeatFd with
      | none =>
          refine iff_of_true (Deferred.of_idle ?_) fun hne => absurd rfl hne
          rw [hpending, hwait, h.message.mp hwait]
      | some fd' =>
          simp only [Daemon.pending, Prod.mk.injEq] at hpending
          refine iff_of_false (fun hafter => ?_) fun himp => ?_
          · refine hafter.repeating fd' ?_ hpending.1
            rw [hpending.2.2.1, hwait]
          · rw [himp (Option.some_ne_none fd')] at hends
            cases hends
  | failed hends hidle message hmessage hpending =>
      have hbefore := h.idle hidle
      simp only [Daemon.pending, Prod.mk.injEq] at hbefore
      refine iff_of_true (Deferred.of_idle ?_) fun _ => hends
      rw [hpending, hbefore.2.2.1]
      obtain rfl | rfl := hmessage
      · rw [hbefore.2.2.2]
      · rfl
  | once hends hidle honce a c hpending =>
      simp only [Daemon.pending, Prod.mk.injEq] at hpending
      obtain ⟨hremote, hcode, hwait, htext⟩ := hpending
      refine iff_of_true ?_ fun _ => hends
      refine ⟨?_, ?_, fun fd' hs => ?_, fun fd' hs => ?_, fun fd' hs => ?_⟩
      · rw [hremote, hcode]
        exact iff_of_false (Option.some_ne_none a) (Option.some_ne_none c)
      · rw [hwait, htext]
        exact iff_of_false (Option.some_ne_none fd) (Option.some_ne_none _)
      · rw [hremote]
        exact Option.some_ne_none a
      · rw [hwait] at hs
        cases hs
        exact (htable.connected fd).mpr hfd
      · rw [hwait] at hs
        cases hs
        refine ⟨line, honce, ?_, htext⟩
        rw [hstarted, if_pos ⟨hidle, by rw [hremote]; exact Option.some_ne_none a⟩, hconnection]
  | start hends hidle a c hpending =>
      have hbefore := h.idle hidle
      simp only [Daemon.pending, Prod.mk.injEq] at hbefore hpending
      obtain ⟨hremote, hcode, hwait, htext⟩ := hpending
      rw [hbefore.2.2.1] at hwait
      rw [hbefore.2.2.2] at htext
      refine iff_of_true (Deferred.of_unanswered ?_ hwait htext) fun _ => hends
      rw [hremote, hcode]
      exact iff_of_false (Option.some_ne_none a) (Option.some_ne_none c)

theorem Transmitting.withDaemon_daemon (s : Transmitting) (d : Daemon) :
    (s.withDaemon d).daemon = d := rfl

/-- One operation keeps the agreement exactly if it meets the condition. -/
theorem operate_deferred_iff (hsim : env.allowSimulate = false) (hdistinct : Distinct s.daemon)
    (h : Deferred s) (op : Activity) : Deferred (operate env s op) ↔ KeepsReply env s op := by
  unfold operate
  split
  · next hcrashed =>
      refine iff_of_true h ?_
      cases op with
      | disconnect fd => exact fun hrunning => by rw [hrunning] at hcrashed; cases hcrashed
      | line fd line => exact fun hrunning => by rw [hrunning] at hcrashed; cases hcrashed
      | _ => trivial
  · next hrunning =>
      have hcrashed : s.reloading.crashed = false := Bool.eq_false_of_not_eq_true hrunning
      cases op with
      | accept fd type =>
          refine iff_of_true ?_ trivial
          dsimp only
          split
          · exact h
          · next hnew =>
              refine h.of_pending (addClient_pending env fd type s.daemon) rfl fun fd' _ hfd' => ?_
              have hne : fd' ≠ fd := fun heq => hnew (heq ▸ hfd')
              exact ⟨addClient_connected env fd type hfd', Function.update_of_ne hne _ _⟩
      | disconnect fd =>
          have hpending := removeClient_pending env fd s.daemon
          by_cases hfd : Connected s.daemon fd
          · obtain ⟨i, hi, rfl⟩ := hfd
            have hremoved := removeClient_at env hdistinct hi
            by_cases hwait : s.daemon.repeatFd = some (s.daemon.clis i)
            · -- the descriptor of the client that waits is not that of a client any more
              refine iff_of_false (fun hafter => ?_) fun hne => hne hcrashed hwait
              have hfields := hpending
              simp only [Daemon.pending, Prod.mk.injEq] at hfields
              obtain ⟨j, hj, heq⟩ := hafter.connected (s.daemon.clis i) (hfields.2.2.1.trans hwait)
              exact hremoved.gone hdistinct hi hj heq
            · refine iff_of_true (h.of_pending hpending rfl fun fd' hfd' hconnected => ?_)
                fun _ => hwait
              refine ⟨hremoved.connected hi hconnected fun heq => hwait ?_, rfl⟩
              rw [heq] at hfd'
              exact hfd'
          · refine iff_of_true ?_ fun _ hwait => hfd (h.connected fd hwait)
            show Deferred (s.withDaemon (removeClient env fd s.daemon))
            rw [removeClient_absent env hfd]
            exact h
      | write fd message =>
          have hreplies := writeSocket_replies env fd message s.daemon
          exact iff_of_true (h.of_pending hreplies.pending rfl fun fd' _ hfd' =>
            ⟨(hreplies.sameTable.connected fd').mpr hfd', rfl⟩) trivial
      | line fd line =>
          dsimp only
          split
          · next hfd =>
              rw [serve_deferred_iff env hsim h hfd]
              exact ⟨fun hends _ _ => hends, fun hkeeps => hkeeps hcrashed hfd⟩
          · next hfd => exact iff_of_true h fun _ hconnected => absurd hconnected hfd
      | expire =>
          refine iff_of_true (h.of_pending ?_ rfl fun fd' _ hfd' => ⟨?_, rfl⟩) trivial
          · dsimp only
            rw [Transmitting.withDaemon_daemon, expire_eq]
            rfl
          · dsimp only
            rw [Transmitting.withDaemon_daemon, expire_eq]
            exact hfd'
      | alarm late =>
          refine iff_of_true ?_ trivial
          obtain ⟨htable, hpending⟩ := handleAlarm_pending env late s.daemon
          obtain hpending | hpending := hpending h.message
          · exact h.of_pending hpending rfl fun fd' _ hfd' => ⟨(htable.connected fd').mpr hfd', rfl⟩
          · exact Deferred.of_idle hpending
      | reconnect =>
          refine iff_of_true (h.of_pending ?_ rfl fun fd' _ hfd' => ⟨?_, rfl⟩) trivial
          · dsimp only
            rw [Transmitting.withDaemon_daemon, reconnect]
            split
            · rfl
            · rfl
          · dsimp only
            rw [Transmitting.withDaemon_daemon, reconnect]
            split
            · exact hfd'
            · exact hfd'
      | received heap lastRemote decoding =>
          exact iff_of_true (h.of_pending rfl rfl fun fd' _ hfd' => ⟨hfd', rfl⟩) trivial
      | config new =>
          obtain ⟨hpending, htable⟩ := config_pending new s.reloading
          exact iff_of_true (h.of_pending hpending rfl fun fd' _ hfd' =>
            ⟨(htable.connected fd').mpr hfd', rfl⟩) trivial
      | freeOld =>
          refine iff_of_true ?_ trivial
          dsimp only
          split
          · exact h
          · obtain ⟨htable, hpending | ⟨-, b, c, hpending⟩⟩ := freeMapped_pending s.reloading
            · exact h.of_pending hpending rfl fun fd' _ hfd' =>
                ⟨(htable.connected fd').mpr hfd', rfl⟩
            · exact h.of_mapped hpending htable

theorem operate_distinct (hsim : env.allowSimulate = false) (s : Transmitting) (op : Activity)
    (h : Distinct s.daemon) : Distinct (operate env s op).daemon := by
  unfold operate
  split
  · exact h
  · cases op with
    | accept fd type =>
        dsimp only
        split
        · exact h
        · next hnew => exact addClient_distinct env h hnew type
    | disconnect fd =>
        by_cases hfd : Connected s.daemon fd
        · obtain ⟨i, hi, rfl⟩ := hfd
          exact (removeClient_at env h hi).distinct h
        · show Distinct (removeClient env fd s.daemon)
          rw [removeClient_absent env hfd]
          exact h
    | write fd message => exact (writeSocket_replies env fd message s.daemon).sameTable.distinct h
    | line fd line =>
        dsimp only
        split
        · exact (execLine_pending env fd hsim line s.daemon).1.distinct h
        · exact h
    | expire =>
        refine SameTable.distinct (d := s.daemon) ?_ h
        show SameTable s.daemon (Lirc.expire s.daemon)
        rw [expire_eq]
        exact ⟨rfl, rfl⟩
    | alarm late => exact (handleAlarm_pending env late s.daemon).1.distinct h
    | reconnect => exact (reconnect_table env s.daemon).distinct h
    | received heap lastRemote decoding => exact h
    | config new => exact (config_pending new s.reloading).2.distinct h
    | freeOld =>
        dsimp only
        split
        · exact h
        · exact (freeMapped_pending s.reloading).1.distinct h

/-- In every state of a series of operations the variables agree, and the client that waits for a
reply is a connected one, the one whose SEND_ONCE is being transmitted, if and only if the client
that waits is never removed and no SEND_STOP ends what is repeated while it waits. -/
theorem reply_deferred_iff (hsim : env.allowSimulate = false) (start : Transmitting)
    (hstart : AtStart start.daemon) (ops : List Activity) :
    Always (operate env) Deferred start ops ↔ Along (operate env) (KeepsReply env) start ops := by
  refine always_iff_along (J := fun s => Distinct s.daemon) (operate_distinct env hsim)
    (fun s op hs h => operate_deferred_iff env hsim hs h op) (fun i hi => ?_) ?_
  · rw [hstart.clin] at hi
    exact absurd hi (Nat.not_lt_zero i)
  · refine Deferred.of_idle ?_
    rw [Daemon.pending, hstart.repeatRemote, hstart.repeatCode, hstart.repeatFd,
      hstart.repeatMessage]

end Step

end Runs

/-! ### The main loop -/

/-- The daemon gets from one state to the other by operations, whatever has been noted. -/
def Performed (env : Env) (d d' : Daemon) : Prop :=
  ∀ s : Transmitting, s.reloading.crashed = false → s.daemon = d →
    ∃ ops, (run (operate env) s ops).reloading.crashed = false ∧
      (run (operate env) s ops).daemon = d'

namespace Performed

variable {env : Env} {d d' d'' : Daemon}

theorem refl (env : Env) (d : Daemon) : Performed env d d := fun _ hs hd => ⟨[], hs, hd⟩

theorem trans (h : Performed env d d') (h' : Performed env d' d'') : Performed env d d'' := by
  intro s hs hd
  obtain ⟨ops, hrun, hafter⟩ := h s hs hd
  obtain ⟨ops', hrun', hafter'⟩ := h' _ hrun hafter
  refine ⟨ops ++ ops', ?_, ?_⟩
  · rw [run_append]
    exact hrun'
  · rw [run_append]
    exact hafter'

/-- One operation. -/
theorem single (op : Activity) (h : ∀ s : Transmitting, s.reloading.crashed = false →
    s.daemon = d → (operate env s op).reloading.crashed = false ∧ (operate env s op).daemon = d') :
    Performed env d d' :=
  fun s hs hd => ⟨[op], h s hs hd⟩

theorem of_daemon (op : Activity) (f : Daemon → Daemon)
    (hop : ∀ s : Transmitting, s.reloading.crashed = false →
      operate env s op = s.withDaemon (f s.daemon)) (d : Daemon) : Performed env d (f d) :=
  single op fun s hs hd => by
    rw [hop s hs, hd]
    exact ⟨hs, rfl⟩

end Performed

section Loop

variable (env : Env)

theorem removeClient_performed (fd : ℕ) (d : Daemon) : Performed env d (removeClient env fd d) :=
  .of_daemon (.disconnect fd) (removeClient env fd)
    (fun s hs => by rw [operate, hs]; rfl) d

theorem writeSocket_performed (fd : ℕ) (message : List Char) (d : Daemon) :
    Performed env d (writeSocket env fd message d).2 :=
  .of_daemon (.write fd message) (fun d => (writeSocket env fd message d).2)
    (fun s hs => by rw [operate, hs]; rfl) d

theorem broadcastLoop_performed (message : List Char) (n i : ℕ) (d : Daemon) :
    Performed env d (broadcastLoop env message n i d) := by
  induction n generalizing i d with
  | zero => exact .refl env d
  | succ n ih =>
      rw [broadcastLoop]
      split
      · have hwrote := writeSocket_performed env (d.clis i) message d
        dsimp only
        split
        · exact hwrote.trans (ih _ _)
        · exact (hwrote.trans (removeClient_performed env _ _)).trans (ih _ _)
      · exact .refl env d

theorem serveClient_performed (hsim : env.allowSimulate = false) (i : ℕ)
    (reads : List (Option (List Char))) (d : Daemon) :
    Performed env d (serveClient env i reads d) := by
  unfold serveClient
  split
  · next hready =>
      split
      · exact .refl env d
      · next ok d' reads' hcall =>
          have hlines : Performed env d d' ∧ SameTable d d' := by
            refine getCommand_invariant (I := fun d' => Performed env d d' ∧ SameTable d d')
              (fun line d' _ h => ?_) ⟨.refl env d, .refl d⟩ hcall
            have htable := (execLine_pending env (d.clis i) hsim line d').1
            refine ⟨h.1.trans (.single (.line (d.clis i) line) fun s hs hd => ?_),
              h.2.trans htable⟩
            have hfd : Connected s.daemon (d.clis i) := by
              rw [hd]
              exact (h.2.connected _).mpr ⟨i, hready.1, rfl⟩
            have hserve : operate env s (.line (d.clis i) line) = s.serve env (d.clis i) line := by
              rw [operate, hs]
              exact if_pos hfd
            rw [hserve, ← hd]
            exact ⟨hs, rfl⟩
          split
          · exact hlines.1
          · exact hlines.1.trans (removeClient_performed env _ d')
  · exact .refl env d

/-- Every event of the main loop is a series of these operations. -/
theorem loopStep_performed (hsim : env.allowSimulate = false) (d : Daemon) {e : LoopEvent}
    (hnew : ∀ fd type, e = .connect fd type → ¬Connected d fd) :
    Performed env d (loopStep env d e) := by
  cases e with
  | connect fd type =>
      refine .single (.accept fd type) fun s hs hd => ?_
      rw [operate, hs]
      dsimp only
      rw [if_neg Bool.false_ne_true, if_neg (by rw [hd]; exact hnew fd type rfl), hd]
      exact ⟨hs, rfl⟩
  | input i reads => exact serveClient_performed env hsim i reads d
  | expire => exact .of_daemon .expire expire (fun s hs => by rw [operate, hs]; rfl) d
  | alarm late =>
      exact .of_daemon (.alarm late) (handleAlarm env late)
        (fun s hs => by rw [operate, hs]; rfl) d
  | reconnect =>
      exact .of_daemon .reconnect (reconnect env) (fun s hs => by rw [operate, hs]; rfl) d
  | received heap messages =>
      have hheap : Performed env d { d with heap := heap } := by
        intro s hs hd
        refine ⟨[.received heap s.reloading.lastRemote s.reloading.decoding], ?_⟩
        rw [run_cons, run_nil, operate, hs, ← hd]
        exact ⟨hs, rfl⟩
      have hmessages : ∀ (messages : List (List Char)) (d : Daemon), Performed env d
          (messages.foldl (fun d message => broadcastMessage env message d) d) := by
        intro messages
        induction messages with
        | nil => exact fun d => .refl env d
        | cons message messages ih =>
            exact fun d => (broadcastLoop_performed env message _ 0 d).trans (ih _)
      exact hheap.trans (hmessages messages _)

end Loop

/-- A remote whose frames are 100 ms apart. -/
def repeatingRemote : IrRemote := { remoteTv "POWER" with minRemainingGap := 100000 }

def transmittingTv : Transmitting where
  reloading := { daemon := { emptyDaemon with heap := fun _ => repeatingRemote, remotes := [0] } }

/-- A SEND_ONCE with two repeats is answered after a new configuration has been read and the old
one is mapped and freed; a SEND_START is stopped by another client. -/
def answeredOps : List Activity :=
  [.accept 7 .localClient, .accept 8 .localClient, .line 7 "SEND_ONCE tv POWER 2".toList,
    .line 8 "SEND_ONCE tv POWER".toList, .expire, .alarm false,
    .config (some [(1, repeatingRemote)]), .freeOld, .expire, .alarm false, .disconnect 7,
    .accept 7 .remoteClient, .line 7 "SEND_START tv POWER".toList,
    .line 8 "SEND_STOP tv POWER".toList]

/-- A SEND_STOP ends a SEND_ONCE for which another client waits. -/
def stoppedOps : List Activity :=
  [.accept 7 .localClient, .accept 8 .localClient, .line 7 "SEND_ONCE tv POWER 2".toList,
    .line 8 "SEND_STOP tv POWER".toList]

/-- The client that waits goes, and its descriptor is that of another one. -/
def reusedOps : List Activity :=
  [.accept 7 .localClient, .line 7 "SEND_ONCE tv POWER 2".toList, .disconnect 7,
    .accept 7 .remoteClient]

theorem reply_deferred_iff_tv :
    Always (operate quietEnv) Deferred transmittingTv answeredOps ∧
      ¬Always (operate quietEnv) Deferred transmittingTv stoppedOps ∧
      ¬Always (operate quietEnv) Deferred transmittingTv reusedOps := by
  have hstart : AtStart transmittingTv.daemon := ⟨rfl, rfl, rfl, rfl, rfl, rfl, rfl, rfl⟩
  have hstopped : ¬Along (operate quietEnv) (KeepsReply quietEnv) transmittingTv stoppedOps := by
    decide +kernel
  have hreused : ¬Along (operate quietEnv) (KeepsReply quietEnv) transmittingTv reusedOps := by
    decide +kernel
  exact ⟨(reply_deferred_iff quietEnv rfl transmittingTv hstart answeredOps).mpr
      (by decide +kernel),
    fun h => hstopped ((reply_deferred_iff quietEnv rfl transmittingTv hstart stoppedOps).mp h),
    fun h => hreused ((reply_deferred_iff quietEnv rfl transmittingTv hstart reusedOps).mp h)⟩

/-- Nothing is repeated any more, and the client still waits. -/
theorem reply_deferred_fails :
    ¬ ∀ (env : Env) (start : Transmitting) (ops : List Activity), env.allowSimulate = false →
      AtStart start.daemon → Always (operate env) Deferred start ops := by
  intro h
  have hlast := h quietEnv transmittingTv stoppedOps rfl ⟨rfl, rfl, rfl, rfl, rfl, rfl, rfl, rfl⟩
    stoppedOps (List.prefix_refl _)
  exact hlast.repeating 7 (by decide +kernel) (by decide +kernel)

end Lirc
