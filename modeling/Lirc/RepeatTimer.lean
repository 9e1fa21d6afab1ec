import Lirc.DeferredReply
import Lirc.FrameBounds

/-!
The timer of what is repeated. A frame behind which another one follows starts the interval timer
with `min_remaining_gap` microseconds, of which `setitimer` takes less than 1000000, and 0 means
that no signal comes. `waitfordata` clears the flag of the signal only after `dosigalrm` has
started the timer again.
-/

namespace Lirc

open Transition Reloading

section Functions

variable (env : Env)

/-- The line of a SEND_ONCE or SEND_START has sent its frame, and lircd is to wait for the timer:
more frames follow, and the reply can be kept or has been written. -/
def startsRepeat (fd : ℕ) (line : List Char) (once : Bool) (a c : ℕ) (reps : ℤ) (d : Daemon) :
    Bool :=
  let noted := noteSent env once a c reps (firstFrame env a c d).2
  (firstFrame env a c d).1 && moreFrames a c noted &&
    if once then env.strdupOk noted.clock
    else (sendSuccess env fd (line ++ ['\n'])
      { noted with repeatRemote := some a, repeatCode := some c }).1

/-- The remote of a line that starts the timer, after its frame. -/
def startedBy (fd : ℕ) (line : List Char) (d : Daemon) : Option IrRemote :=
  match request env d line with
  | .send once a c reps =>
      if startsRepeat env fd line once a c reps d then some ((firstFrame env a c d).2.heap a)
      else none
  | _ => none

/-- The remote for which `dosigalrm` starts the timer again, after its frame. -/
def restartedBy (d : Daemon) : Option IrRemote :=
  match d.repeatRemote, d.repeatCode with
  | some a, some c =>
      if (d.heap a).lastCode = some c then
        let sent := sendIrNcode env a c (countRepeat a c d)
        if sent.1 ∧ 0 < (sent.2.heap a).repeatCountdown then some (sent.2.heap a) else none
      else none
  | _, _ => none

end Functions

/-- The timer is started with the gap behind the frame. -/
def TimerFits (r : IrRemote) : Prop := 0 < r.minRemainingGap ∧ r.minRemainingGap < 1000000

instance decidableTimerFits (r : IrRemote) : Decidable (TimerFits r) :=
  inferInstanceAs (Decidable (_ ∧ _))

/-- While something is repeated the timer runs or its signal has come, and `dosigalrm` is called
only then. -/
structure NotStuck (d : Daemon) : Prop where
  armed : d.repeatRemote ≠ none → 0 < d.timer ∨ d.alrm = true
  entered : d.alrm = true → d.repeatRemote ≠ none

/-- Whenever lircd waits for the timer, it can be started with the gap behind the frame, and it does
not expire before the flag is cleared. -/
def KeepsTimer (env : Env) (s : Transmitting) : Activity → Prop
  | .line fd line => s.reloading.crashed = false → Connected s.daemon fd →
      ∀ r ∈ startedBy env fd line s.daemon, TimerFits r
  | .alarm late => s.reloading.crashed = false → s.daemon.alrm = true →
      ∀ r ∈ restartedBy env s.daemon, TimerFits r ∧ late = false
  | _ => True

instance decidableKeepsTimer (env : Env) (s : Transmitting) : DecidablePred (KeepsTimer env s)
  | .line fd line => inferInstanceAs (Decidable (s.reloading.crashed = false →
      Connected s.daemon fd → ∀ r ∈ startedBy env fd line s.daemon, TimerFits r))
  | .alarm late => inferInstanceAs (Decidable (s.reloading.crashed = false →
      s.daemon.alrm = true → ∀ r ∈ restartedBy env s.daemon, TimerFits r ∧ late = false))
  | .accept _ _ | .disconnect _ | .write _ _ | .expire | .reconnect | .received _ _ _ | .config _
  | .freeOld => .isTrue trivial

/-! ### The timer and what is repeated -/

/-- What is repeated, the timer and the flag. -/
def Daemon.clockwork (d : Daemon) : Option ℕ × Option ℕ × ℤ × Bool :=
  (d.repeatRemote, d.repeatCode, d.timer, d.alrm)

theorem Replies.clockwork {fd : ℕ} {d d' : Daemon} (h : Replies fd d d') :
    d'.clockwork = d.clockwork := by
  obtain ⟨clock, es, rfl, -⟩ := h
  rfl

/-- The timer and the flag are as they were. What is repeated may have been mapped to another
remote. -/
structure SameClock (d d' : Daemon) : Prop where
  remote : d'.repeatRemote = none ↔ d.repeatRemote = none
  code : d'.repeatCode = none ↔ d.repeatCode = none
  timer : d'.timer = d.timer
  alrm : d'.alrm = d.alrm

namespace SameClock

variable {d d' d'' : Daemon}

theorem of_clockwork (h : d'.clockwork = d.clockwork) : SameClock d d' := by
  simp only [Daemon.clockwork, Prod.mk.injEq] at h
  exact ⟨by rw [h.1], by rw [h.2.1], h.2.2.1, h.2.2.2⟩

theorem refl (d : Daemon) : SameClock d d := of_clockwork rfl

theorem trans (h : SameClock d d') (h' : SameClock d' d'') : SameClock d d'' :=
  ⟨h'.remote.trans h.remote, h'.code.trans h.code, h'.timer.trans h.timer, h'.alrm.trans h.alrm⟩

end SameClock

/-- What holds of the timer in any run. -/
structure TimerState (d : Daemon) : Prop where
  code : d.repeatRemote = none ↔ d.repeatCode = none
  nonneg : 0 ≤ d.timer
  idle : d.repeatRemote = none → d.timer = 0 ∧ d.alrm = false
  once : d.alrm = true → d.timer = 0

/-- The timer is left, or stopped, or started with the gap behind a frame of this remote. -/
inductive Clocked (d d' : Daemon) : Option IrRemote → Prop
  | kept (h : SameClock d d') : Clocked d d' none
  | ended (h : d'.clockwork = (none, none, 0, false)) : Clocked d d' none
  | started {r : IrRemote} {a c : ℕ} (htimer : d.timer = 0)
      (h : d'.clockwork = (some a, some c, (d.setTimer r.minRemainingGap).timer, false)) :
      Clocked d d' (some r)

section Timer

variable {d d' : Daemon}

theorem setTimer_stopped (hd : d.timer = 0) (r : IrRemote) :
    0 ≤ (d.setTimer r.minRemainingGap).timer ∧
      (0 < (d.setTimer r.minRemainingGap).timer ↔ TimerFits r) := by
  rw [setTimer_eq, TimerFits, hd]
  dsimp only
  split
  · omega
  · omega

theorem TimerState.of_same (hd : TimerState d) (h : SameClock d d') : TimerState d' where
  code := by
    rw [h.remote, h.code]
    exact hd.code
  nonneg := by
    rw [h.timer]
    exact hd.nonneg
  idle hidle := by
    rw [h.timer, h.alrm]
    exact hd.idle (h.remote.mp hidle)
  once halrm := by
    rw [h.timer]
    exact hd.once (h.alrm.symm.trans halrm)

theorem TimerState.of_stopped (h : d.clockwork = (none, none, 0, false)) : TimerState d := by
  simp only [Daemon.clockwork, Prod.mk.injEq] at h
  obtain ⟨hremote, hcode, htimer, halrm⟩ := h
  refine ⟨by rw [hremote, hcode], by rw [htimer], fun _ => ⟨htimer, halrm⟩, fun _ => htimer⟩

theorem TimerState.of_running {a c : ℕ} {usec : ℤ}
    (h : d.clockwork = (some a, some c, usec, false)) (husec : 0 ≤ usec) : TimerState d := by
  simp only [Daemon.clockwork, Prod.mk.injEq] at h
  obtain ⟨hremote, hcode, htimer, halrm⟩ := h
  refine ⟨by simp [hremote, hcode], by rw [htimer]; exact husec, fun hnone => ?_, fun hset => ?_⟩
  · rw [hremote] at hnone
    cases hnone
  · rw [halrm] at hset
    cases hset

theorem NotStuck.of_same (hd : NotStuck d) (h : SameClock d d') : NotStuck d' where
  armed hsome := by
    rw [h.timer, h.alrm]
    exact hd.armed fun hnone => hsome (h.remote.mpr hnone)
  entered halrm hnone := hd.entered (h.alrm.symm.trans halrm) (h.remote.mp hnone)

theorem NotStuck.of_stopped (h : d.clockwork = (none, none, 0, false)) : NotStuck d := by
  simp only [Daemon.clockwork, Prod.mk.injEq] at h
  refine ⟨fun hsome => absurd h.1 hsome, fun halrm => ?_⟩
  rw [h.2.2.2] at halrm
  cases halrm

/-- Something is repeated, and the signal has not come. -/
theorem notStuck_running_iff {a c : ℕ} {usec : ℤ}
    (h : d.clockwork = (some a, some c, usec, false)) : NotStuck d ↔ 0 < usec := by
  simp only [Daemon.clockwork, Prod.mk.injEq] at h
  obtain ⟨hremote, -, htimer, halrm⟩ := h
  constructor
  · intro hd
    obtain harmed | halarm := hd.armed (by rw [hremote]; exact Option.some_ne_none a)
    · rwa [htimer] at harmed
    · rw [halrm] at halarm
      cases halarm
  · intro husec
    refine ⟨fun _ => .inl (by rwa [htimer]), fun _ => ?_⟩
    rw [hremote]
    exact Option.some_ne_none a

namespace Clocked

variable {r : Option IrRemote}

theorem timerState (h : Clocked d d' r) (hd : TimerState d) : TimerState d' := by
  cases h with
  | kept h => exact hd.of_same h
  | ended h => exact .of_stopped h
  | started htimer h => exact .of_running h (setTimer_stopped htimer _).1

theorem notStuck_iff (h : Clocked d d' r) (hd : NotStuck d) :
    NotStuck d' ↔ ∀ x ∈ r, TimerFits x := by
  cases h with
  | kept h => exact iff_of_true (hd.of_same h) fun x hx => by cases hx
  | ended h => exact iff_of_true (.of_stopped h) fun x hx => by cases hx
  | @started x a c htimer h =>
      rw [notStuck_running_iff h, (setTimer_stopped htimer x).2]
      exact ⟨fun hfits y hy => by cases hy; exact hfits, fun hfits => hfits x rfl⟩

/-- The signal comes before the flag is cleared. -/
theorem unseen (h : Clocked d { d' with alrm := false } r) (halrm : d.alrm = true) :
    TimerState { expire d' with alrm := false } ∧
      (NotStuck { expire d' with alrm := false } ↔ r = none) := by
  have hexpired : ∀ {remote code : Option ℕ} {usec : ℤ},
      Daemon.clockwork { d' with alrm := false } = (remote, code, usec, false) → 0 ≤ usec →
      Daemon.clockwork { expire d' with alrm := false } = (remote, code, 0, false) := by
    intro remote code usec hclock husec
    simp only [Daemon.clockwork, Prod.mk.injEq] at hclock
    obtain ⟨rfl, rfl, rfl, -⟩ := hclock
    rw [expire_eq, Daemon.clockwork]
    dsimp only
    split
    · rfl
    · next hpos => rw [show d'.timer = 0 by omega]
  cases h with
  | kept h =>
      have hset := h.alrm.trans halrm
      cases hset
  | ended h =>
      have hstopped := hexpired h le_rfl
      exact ⟨.of_stopped hstopped, iff_of_true (.of_stopped hstopped) rfl⟩
  | @started x a c htimer h =>
      have hrunning := hexpired h (setTimer_stopped htimer x).1
      refine ⟨.of_running hrunning le_rfl, ?_⟩
      rw [notStuck_running_iff hrunning]
      exact iff_of_false (lt_irrefl 0) (Option.some_ne_none x)

end Clocked

end Timer

section Clockwork

variable (env : Env)

theorem deinitUnused_clockwork (d : Daemon) : (deinitUnused env d).clockwork = d.clockwork := by
  rw [deinitUnused]
  split
  · rfl
  · rfl

theorem removeClient_clockwork (fd : ℕ) (d : Daemon) :
    (removeClient env fd d).clockwork = d.clockwork := by
  unfold removeClient
  split
  · rfl
  · exact deinitUnused_clockwork env _

theorem addClient_clockwork (fd : ℕ) (type : ClientType) (d : Daemon) :
    (addClient env fd type d).clockwork = d.clockwork := by
  unfold addClient
  split
  · rfl
  · dsimp only
    split
    · rfl
    · rfl

theorem broadcastLoop_clockwork (message : List Char) (n i : ℕ) (d : Daemon) :
    (broadcastLoop env message n i d).clockwork = d.clockwork := by
  induction n generalizing i d with
  | zero => rfl
  | succ n ih =>
      rw [broadcastLoop]
      split
      · have hwrote := (writeSocket_replies env (d.clis i) message d).clockwork
        dsimp only
        split
        · exact (ih _ _).trans hwrote
        · exact ((ih _ _).trans (removeClient_clockwork env _ _)).trans hwrote
      · rfl

/-- A first frame starts the timer, or nothing is repeated. -/
theorem sendFirst_clockwork (fd : ℕ) (line : List Char) (once : Bool) (a c : ℕ) (reps : ℤ)
    {d : Daemon} (hidle : d.repeatRemote = none) :
    (startsRepeat env fd line once a c reps d = true ∧
        (sendFirst env fd (line ++ ['\n']) once a c reps d).2.clockwork =
          (some a, some c,
            (d.setTimer ((firstFrame env a c d).2.heap a).minRemainingGap).timer, d.alrm)) ∨
      (startsRepeat env fd line once a c reps d = false ∧
        ∃ code, (code = d.repeatCode ∨ code = none) ∧
          (sendFirst env fd (line ++ ['\n']) once a c reps d).2.clockwork =
            (none, code, d.timer, d.alrm)) := by
  have hgap : ((noteSent env once a c reps (firstFrame env a c d).2).heap a).minRemainingGap =
      ((firstFrame env a c d).2.heap a).minRemainingGap := by
    rw [noteSent, setRemote_heap_self]
  have htimer : ∀ usec, (d.setTimer usec).timer =
      if 0 ≤ usec ∧ usec < 1000000 then usec else d.timer := fun usec => by rw [setTimer_eq]
  have hfirst : (firstFrame env a c d).2.clockwork = d.clockwork := rfl
  have hnoted : (noteSent env once a c reps (firstFrame env a c d).2).clockwork = d.clockwork :=
    rfl
  have hstart : d.clockwork = (none, d.repeatCode, d.timer, d.alrm) := by
    rw [Daemon.clockwork, hidle]
  rw [startsRepeat, htimer, sendFirst]
  cases hsent : (firstFrame env a c d).1 with
  | false =>
      refine .inr ⟨rfl, d.repeatCode, .inl rfl, ?_⟩
      have herror := sendError_replies env fd (line ++ ['\n']) "transmission failed\n".toList
        (firstFrame env a c d).2
      rw [firstFrame] at hsent herror hfirst
      rw [hsent, if_neg Bool.false_ne_true]
      exact (herror.clockwork.trans hfirst).trans hstart
  | true =>
      rw [firstFrame] at hsent hgap hnoted ⊢
      rw [hsent, if_pos rfl]
      dsimp only
      generalize noteSent env once a c reps (sendIrNcode env a c (startSending a c d)).2 = noted
        at hgap hnoted ⊢
      have hfields := hnoted
      simp only [Daemon.clockwork, Prod.mk.injEq] at hfields
      cases moreFrames a c noted with
      | false =>
          refine .inr ⟨rfl, d.repeatCode, .inl rfl, ?_⟩
          exact ((sendSuccess_replies env fd _ noted).clockwork.trans hnoted).trans hstart
      | true =>
          rw [if_pos rfl, startRepeating, hgap]
          cases once with
          | true =>
              cases env.strdupOk noted.clock with
              | true =>
                  refine .inl ⟨rfl, ?_⟩
                  rw [if_pos rfl, if_pos rfl, setTimer_eq]
                  simp only [Daemon.clockwork, Daemon.tick, hfields.2.2.1, hfields.2.2.2]
              | false =>
                  refine .inr ⟨rfl, none, .inr rfl, ?_⟩
                  rw [if_pos rfl, if_neg Bool.false_ne_true]
                  refine (sendError_replies env fd _ _ _).clockwork.trans ?_
                  simp only [Daemon.clockwork, Daemon.tick, hfields.2.2.1, hfields.2.2.2]
          | false =>
              have hreply := (sendSuccess_replies env fd (line ++ ['\n'])
                { noted with repeatRemote := some a, repeatCode := some c }).clockwork
              rw [if_neg Bool.false_ne_true, if_neg Bool.false_ne_true]
              dsimp only
              generalize sendSuccess env fd (line ++ ['\n'])
                { noted with repeatRemote := some a, repeatCode := some c } = x at hreply ⊢
              obtain ⟨written, d'⟩ := x
              simp only [Daemon.clockwork, Prod.mk.injEq] at hreply
              cases written with
              | true =>
                  refine .inl ⟨rfl, ?_⟩
                  rw [if_pos rfl, setTimer_eq]
                  simp only [Daemon.clockwork, hreply, hfields.2.2.1, hfields.2.2.2]
              | false =>
                  refine .inr ⟨rfl, none, .inr rfl, ?_⟩
                  rw [if_neg Bool.false_ne_true]
                  simp only [Daemon.clockwork, hreply, hfields.2.2.1, hfields.2.2.2]

/-- A line of a client. -/
theorem execLine_clocked (fd : ℕ) (line : List Char) {d : Daemon} (hd : TimerState d) :
    Clocked d (execLine (lircd env fd) line d).2 (startedBy env fd line d) := by
  have hanswered := execLine_answered env fd line d
  rw [startedBy]
  generalize request env d line = q at hanswered ⊢
  generalize execLine (lircd env fd) line d = x at hanswered ⊢
  cases hanswered with
  | reply h => exact .kept (.of_clockwork h.clockwork)
  | @send once a c reps hidle honce =>
      obtain ⟨htimer, halrm⟩ := hd.idle hidle
      have hcode : d.repeatCode = none := hd.code.mp hidle
      dsimp only
      obtain ⟨hstarts, h⟩ | ⟨hstarts, code, hnone, h⟩ :=
        sendFirst_clockwork env fd line once a c reps hidle
      · rw [if_pos hstarts]
        rw [halrm] at h
        exact .started htimer h
      · rw [hstarts, if_neg Bool.false_ne_true]
        rw [hcode, or_self] at hnone
        rw [hnone, htimer, halrm] at h
        exact .ended h
  | @stop a c hremote hcode =>
      refine .ended ((sendSuccess_replies env fd _ (stopRepeating a d)).clockwork.trans ?_)
      rw [stopRepeating, setTimer_eq]
      rfl
  | @postpone a c frames hremote hcode =>
      exact .kept (.of_clockwork (sendSuccess_replies env fd _ _).clockwork)
  | @simulate event hallow =>
      exact .kept (.of_clockwork ((sendSuccess_replies env fd _ _).clockwork.trans
        (broadcastLoop_clockwork env _ _ 0 _)))

theorem answerRepeat_clockwork {reply : ℕ → List Char → Daemon → Bool × Daemon}
    (hreply : ∀ fd message d, Replies fd d (reply fd message d).2) (d : Daemon) :
    (answerRepeat reply d).clockwork = d.clockwork := by
  unfold answerRepeat
  split
  · next fd message hfd htext => exact (hreply fd message d).clockwork
  · rfl

/-- `dosigalrm`, and the flag is cleared. -/
theorem dosigalrm_clocked {d : Daemon} (hd : TimerState d) (halrm : d.alrm = true) :
    Clocked d { dosigalrm env d with alrm := false } (restartedBy env d) := by
  have htimer := hd.once halrm
  rw [restartedBy, dosigalrm]
  cases hremote : d.repeatRemote with
  | none =>
      have hclear := (hd.idle hremote).2
      rw [halrm] at hclear
      cases hclear
  | some a =>
      cases hcode : d.repeatCode with
      | none =>
          have hnone := hd.code.mpr hcode
          rw [hremote] at hnone
          cases hnone
      | some c =>
          dsimp only
          by_cases hlast : (d.heap a).lastCode = some c
          · rw [if_pos hlast, if_pos hlast]
            have hsent : (sendIrNcode env a c (countRepeat a c d)).2.clockwork = d.clockwork := by
              rw [countRepeat]
              split
              · rfl
              · split
                · rfl
                · rfl
            generalize sendIrNcode env a c (countRepeat a c d) = x at hsent ⊢
            simp only [Daemon.clockwork, Prod.mk.injEq] at hsent
            by_cases hmore : x.1 = true ∧ 0 < (x.2.heap a).repeatCountdown
            · rw [if_pos hmore, if_pos hmore]
              refine .started (a := a) (c := c) htimer ?_
              rw [setTimer_eq, setTimer_eq, Daemon.clockwork]
              simp only [hsent, hremote, hcode]
            · rw [if_neg hmore, if_neg hmore, finishRepeating]
              refine .ended ?_
              have hfinished : (deinitUnused env (answerRepeat (sendSuccess env)
                  { x.2 with repeatRemote := none, repeatCode := none })).clockwork =
                  (none, none, x.2.timer, x.2.alrm) :=
                (deinitUnused_clockwork env _).trans (answerRepeat_clockwork
                  (fun fd message d => sendSuccess_replies env fd message d) _)
              simp only [Daemon.clockwork, Prod.mk.injEq] at hfinished ⊢
              exact ⟨hfinished.1, hfinished.2.1,
                hfinished.2.2.1.trans (hsent.2.2.1.trans htimer), trivial⟩
          · rw [if_neg hlast, if_neg hlast, interruptRepeating]
            refine .ended ?_
            have hanswered := answerRepeat_clockwork (fun fd message =>
              sendError_replies env fd message "repeating interrupted\n".toList) d
            generalize answerRepeat (fun fd message =>
              sendError env fd message "repeating interrupted\n".toList) d = d' at hanswered ⊢
            simp only [Daemon.clockwork, Prod.mk.injEq] at hanswered
            have hinterrupted := deinitUnused_clockwork env { d' with
              repeatRemote := none, repeatCode := none, repeatFd := none, repeatMessage := none }
            simp only [Daemon.clockwork, Prod.mk.injEq] at hinterrupted ⊢
            exact ⟨hinterrupted.1, hinterrupted.2.1,
              hinterrupted.2.2.1.trans (hanswered.2.2.1.trans htimer), trivial⟩

end Clockwork

/-! ### Runs -/

theorem mapLast_clockwork (s : Reloading) :
    s.mapLast.daemon.clockwork = s.daemon.clockwork := by
  unfold mapLast
  split
  · rfl
  · split
    · dsimp only
      split
      · rfl
      · split
        · rfl
        · split
          · rfl
          · rfl
    · rfl

theorem mapRepeat_sameClock (s : Reloading) : SameClock s.daemon s.mapRepeat.2.daemon := by
  have hrefl := SameClock.refl s.daemon
  unfold mapRepeat
  split
  · exact hrefl
  · next a ha =>
      split
      · dsimp only
        split
        · exact hrefl
        · split
          · exact hrefl
          · next c hc =>
              split
              · exact hrefl
              · exact ⟨by simp [ha], by simp [hc], rfl, rfl⟩
      · exact hrefl

theorem freeMapped_sameClock (s : Reloading) : SameClock s.daemon s.freeMapped.daemon := by
  have hlast := SameClock.of_clockwork (mapLast_clockwork s)
  have hmapped := hlast.trans (mapRepeat_sameClock s.mapLast)
  unfold freeMapped
  dsimp only
  split
  · exact hlast
  · split
    · exact hmapped
    · exact hmapped

theorem config_clockwork (new : Option (List (ℕ × IrRemote))) (s : Reloading) :
    (s.config new).daemon.clockwork = s.daemon.clockwork := by
  unfold config
  split
  · rfl
  · split
    · rfl
    · rfl

section Runs

variable (env : Env) {s : Transmitting}

/-- One operation. -/
theorem operate_timer (hd : TimerState s.daemon) (op : Activity) :
    TimerState (operate env s op).daemon ∧ (NotStuck s.daemon →
      (NotStuck (operate env s op).daemon ↔ KeepsTimer env s op)) := by
  have hsame : ∀ {d' : Daemon} {P : Prop}, SameClock s.daemon d' → P →
      TimerState d' ∧ (NotStuck s.daemon → (NotStuck d' ↔ P)) :=
    fun h hP => ⟨hd.of_same h, fun hstuck => iff_of_true (hstuck.of_same h) hP⟩
  unfold operate
  split
  · next hcrashed =>
      refine hsame (.refl s.daemon) ?_
      cases op with
      | line fd line => exact fun hrunning => by rw [hrunning] at hcrashed; cases hcrashed
      | alarm late => exact fun hrunning => by rw [hrunning] at hcrashed; cases hcrashed
      | _ => trivial
  · next hrunning =>
      have hcrashed : s.reloading.crashed = false := Bool.eq_false_of_not_eq_true hrunning
      cases op with
      | accept fd type =>
          dsimp only
          split
          · exact hsame (.refl s.daemon) trivial
          · exact hsame (.of_clockwork (addClient_clockwork env fd type s.daemon)) trivial
      | disconnect fd =>
          exact hsame (.of_clockwork (removeClient_clockwork env fd s.daemon)) trivial
      | write fd message =>
          exact hsame (.of_clockwork (writeSocket_replies env fd message s.daemon).clockwork)
            trivial
      | line fd line =>
          dsimp only
          split
          · next hfd =>
              have hclocked := execLine_clocked env fd line hd
              refine ⟨hclocked.timerState hd, fun hstuck => ?_⟩
              exact (hclocked.notStuck_iff hstuck).trans
                ⟨fun hfits _ _ => hfits, fun hkeeps => hkeeps hcrashed hfd⟩
          · next hfd => exact hsame (.refl s.daemon) fun _ hconnected => absurd hconnected hfd
      | expire =>
          show TimerState (Lirc.expire s.daemon) ∧
            (NotStuck s.daemon → (NotStuck (Lirc.expire s.daemon) ↔ True))
          rw [Lirc.expire]
          split
          · next hpos =>
              have hsome : s.daemon.repeatRemote ≠ none := fun hnone => by
                have hzero := (hd.idle hnone).1
                omega
              exact ⟨⟨hd.code, le_rfl, fun hnone => absurd hnone hsome, fun _ => rfl⟩,
                fun _ => iff_of_true ⟨fun _ => .inr rfl, fun _ => hsome⟩ trivial⟩
          · exact hsame (.refl s.daemon) trivial
      | alarm late =>
          show TimerState (handleAlarm env late s.daemon) ∧ (NotStuck s.daemon →
            (NotStuck (handleAlarm env late s.daemon) ↔ KeepsTimer env s (.alarm late)))
          rw [handleAlarm, KeepsTimer]
          split
          · next halrm =>
              have hclocked := dosigalrm_clocked env hd halrm
              cases late with
              | false =>
                  refine ⟨hclocked.timerState hd, fun hstuck => ?_⟩
                  exact (hclocked.notStuck_iff hstuck).trans
                    ⟨fun hfits _ _ r hr => ⟨hfits r hr, rfl⟩,
                      fun hkeeps r hr => (hkeeps hcrashed halrm r hr).1⟩
              | true =>
                  -- the flag is cleared after the timer that has been started has expired
                  obtain ⟨hstate, hiff⟩ := hclocked.unseen halrm
                  refine ⟨hstate, fun _ => hiff.trans ⟨fun hnone _ _ r hr => ?_, fun hkeeps => ?_⟩⟩
                  · rw [hnone] at hr
                    cases hr
                  · rw [Option.eq_none_iff_forall_not_mem]
                    intro r hr
                    have hlate := (hkeeps hcrashed halrm r hr).2
                    cases hlate
          · next halrm => exact hsame (.refl s.daemon) fun _ hset => absurd hset halrm
      | reconnect =>
          show TimerState (Lirc.reconnect env s.daemon) ∧
            (NotStuck s.daemon → (NotStuck (Lirc.reconnect env s.daemon) ↔ True))
          rw [Lirc.reconnect]
          split
          · exact hsame (.of_clockwork rfl) trivial
          · exact hsame (.refl s.daemon) trivial
      | received heap lastRemote decoding => exact hsame (.of_clockwork rfl) trivial
      | config new => exact hsame (.of_clockwork (config_clockwork new s.reloading)) trivial
      | freeOld =>
          dsimp only
          split
          · exact hsame (.refl s.daemon) trivial
          · exact hsame (freeMapped_sameClock s.reloading) trivial

/-- In every state of a series of operations the timer runs or its signal has come while something
is repeated, and `dosigalrm` is entered only then, if and only if the gap behind every frame that
is followed by another one lies between 0 and 1000000 microseconds and the signal never comes
between `dosigalrm` and the clearing of the flag. -/
theorem repeat_notStuck_iff (start : Transmitting) (hstart : AtStart start.daemon)
    (ops : List Activity) :
    Always (operate env) (fun s => NotStuck s.daemon) start ops ↔
      Along (operate env) (KeepsTimer env) start ops := by
  have hstopped : start.daemon.clockwork = (none, none, 0, false) := by
    rw [Daemon.clockwork, hstart.repeatRemote, hstart.repeatCode, hstart.timer, hstart.alrm]
  exact always_iff_along (J := fun s : Transmitting => TimerState s.daemon)
    (fun s op hs => (operate_timer env hs op).1)
    (fun s op hs h => (operate_timer env hs op).2 h) (.of_stopped hstopped) (.of_stopped hstopped)

end Runs

/-- lircd with a remote that has this gap. -/
def transmittingGap (gap : ℕ) : Transmitting where
  reloading :=
    { daemon := { emptyDaemon with heap := fun _ => { fourTimesRemote with gap }, remotes := [0] } }

/-- A SEND_ONCE with two repeats during which the configuration is read again, and a SEND_START
that is stopped. -/
def repeatedOps : List Activity :=
  [.accept 7 .localClient, .accept 8 .localClient, .line 7 "SEND_ONCE tv ok 2".toList, .expire,
    .alarm false, .config (some [(1, fourTimesRemote)]), .freeOld, .expire, .alarm false, .expire,
    .alarm false, .line 8 "SEND_START tv ok".toList, .expire, .alarm false,
    .line 8 "SEND_STOP tv ok".toList, .disconnect 8]

/-- The timer that `dosigalrm` has started expires before the flag is cleared. -/
def lateOps : List Activity :=
  [.accept 7 .localClient, .line 7 "SEND_ONCE tv ok 2".toList, .expire, .alarm true]

theorem repeat_notStuck_iff_tv :
    Always (operate sendingEnv) (fun s => NotStuck s.daemon) (transmittingGap 100000)
        repeatedOps ∧
      ¬Always (operate sendingEnv) (fun s => NotStuck s.daemon) (transmittingGap 1000000)
        repeatedOps ∧
      ¬Always (operate sendingEnv) (fun s => NotStuck s.daemon) (transmittingGap 100000)
        lateOps := by
  have hstart : ∀ gap, AtStart (transmittingGap gap).daemon :=
    fun gap => ⟨rfl, rfl, rfl, rfl, rfl, rfl, rfl, rfl⟩
  have hlong : ¬Along (operate sendingEnv) (KeepsTimer sendingEnv) (transmittingGap 1000000)
      repeatedOps := by
    decide +kernel
  have hlate : ¬Along (operate sendingEnv) (KeepsTimer sendingEnv) (transmittingGap 100000)
      lateOps := by
    decide +kernel
  exact ⟨(repeat_notStuck_iff sendingEnv (transmittingGap 100000) (hstart _) repeatedOps).mpr
      (by decide +kernel),
    fun h => hlong ((repeat_notStuck_iff sendingEnv _ (hstart _) repeatedOps).mp h),
    fun h => hlate ((repeat_notStuck_iff sendingEnv _ (hstart _) lateOps).mp h)⟩

/-- The gap is one second, and the timer has not been started behind the first frame. -/
theorem repeat_notStuck_fails :
    ¬ ∀ (env : Env) (start : Transmitting) (ops : List Activity), AtStart start.daemon →
      Always (operate env) (fun s => NotStuck s.daemon) start ops := by
  intro h
  let ops : List Activity := [.accept 7 .localClient, .line 7 "SEND_ONCE tv ok 2".toList]
  have hlast := h sendingEnv (transmittingGap 1000000) ops
    ⟨rfl, rfl, rfl, rfl, rfl, rfl, rfl, rfl⟩ ops (List.prefix_refl _)
  have harmed := hlast.armed (by decide +kernel)
  revert harmed
  decide +kernel

end Lirc
