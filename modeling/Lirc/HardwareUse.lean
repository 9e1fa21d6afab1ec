import Mathlib.Data.List.Chain
import Lirc.MainLoop
import Lirc.Library.Run

/-!
The driver is initialised exactly while it is used. What a line of a client does
leaves the driver alone, since there is a client; the driver is called only when
a client comes or goes and when a transmission ends.
-/

namespace Lirc

open Transition

/-- The calls of `hw.init_func` and `hw.deinit_func`. -/
def driverCalls (trace : List Event) : List Bool :=
  trace.filterMap fun e => if e = .init then some true else if e = .deinit then some false else none

/-- The calls alternate, and the first one is `hw.init_func`. -/
def CallsAlternate (trace : List Event) : Prop :=
  List.IsChain (· ≠ ·) (false :: driverCalls trace)

/-- The calls alternate so far, and whether the driver is initialised. -/
def DriverState (on : Bool) (trace : List Event) : Prop :=
  CallsAlternate trace ∧ hwOpen trace = on

@[simp] theorem hwOpen_append (t es : List Event) :
    hwOpen (t ++ es) =
      es.foldl (fun on e => if e = .init then true else if e = .deinit then false else on)
        (hwOpen t) := List.foldl_append

theorem driverCalls_append (t es : List Event) :
    driverCalls (t ++ es) = driverCalls t ++ driverCalls es := List.filterMap_append

/-- The driver is in the state that the last call has brought it to. -/
theorem getLast?_driverCalls (t : List Event) :
    (false :: driverCalls t).getLast? = some (hwOpen t) := by
  induction t using List.reverseRecOn with
  | nil => rfl
  | append_singleton t e ih =>
      rw [driverCalls_append, hwOpen_append, ← List.cons_append]
      cases e with
      | init => exact List.getLast?_concat
      | deinit => exact List.getLast?_concat
      | _ => simpa [driverCalls] using ih

theorem DriverState.call {on : Bool} {t : List Event} {e : Event} (h : DriverState on t)
    (he : e = if on then .deinit else .init) : DriverState (!on) (t ++ [e]) := by
  have hcall : driverCalls [e] = [!on] ∧ hwOpen (t ++ [e]) = !on := by
    cases on with
    | true => subst he; exact ⟨rfl, by simp⟩
    | false => subst he; exact ⟨rfl, by simp⟩
  refine ⟨?_, hcall.2⟩
  rw [CallsAlternate, driverCalls_append, hcall.1, ← List.cons_append, List.isChain_append]
  refine ⟨h.1, List.isChain_singleton _, ?_⟩
  intro x hx y hy
  rw [getLast?_driverCalls, h.2, Option.mem_some_iff] at hx
  rw [List.head?_cons, Option.mem_some_iff] at hy
  subst hx hy
  cases on with
  | true => decide
  | false => decide

/-- Events that are no calls of these functions. -/
theorem DriverState.quiet {on : Bool} {t es : List Event} (h : DriverState on t)
    (hes : ∀ e ∈ es, e ≠ .init ∧ e ≠ .deinit) : DriverState on (t ++ es) := by
  induction es using List.reverseRecOn with
  | nil => rwa [List.append_nil]
  | append_singleton es e ih =>
      have hall := List.forall_mem_append.mp hes
      obtain ⟨hinit, hdeinit⟩ := hall.2 e (List.mem_singleton_self e)
      have hprev := ih hall.1
      rw [← List.append_assoc]
      constructor
      · have hnone : driverCalls [e] = [] := by simp [driverCalls, hinit, hdeinit]
        rw [CallsAlternate, driverCalls_append, hnone, List.append_nil]
        exact hprev.1
      · rw [hwOpen_append]
        simpa [hinit, hdeinit] using hprev.2

theorem Replies.driverState {fd : ℕ} {d d' : Daemon} {on : Bool} (h : Replies fd d d')
    (hd : DriverState on d.trace) : DriverState on d'.trace := by
  obtain ⟨clock, es, rfl, hes⟩ := h
  refine hd.quiet fun e he => ?_
  have hreply := hes e he
  constructor
  · rintro rfl
    exact hreply
  · rintro rfl
    exact hreply

theorem Replies.clin {fd : ℕ} {d d' : Daemon} (h : Replies fd d d') : d'.clin = d.clin := by
  obtain ⟨clock, es, rfl, -⟩ := h
  rfl

theorem Replies.repeatRemote {fd : ℕ} {d d' : Daemon} (h : Replies fd d d') :
    d'.repeatRemote = d.repeatRemote := by
  obtain ⟨clock, es, rfl, -⟩ := h
  rfl

section Events

variable (env : Env)

/-- The driver is initialised exactly if it is used. -/
def InUse (d : Daemon) : Prop := DriverState (useHw env d) d.trace

variable {env}

/-- There are as many clients as before, and the driver is left alone. -/
def LeavesDriver (d d' : Daemon) : Prop :=
  d'.clin = d.clin ∧ ∀ on, DriverState on d.trace → DriverState on d'.trace

theorem Replies.leavesDriver {fd : ℕ} {d d' : Daemon} (h : Replies fd d d') :
    LeavesDriver d d' := ⟨h.clin, fun _ => h.driverState⟩

theorem LeavesDriver.trans {d d' d'' : Daemon} (h : LeavesDriver d d')
    (h' : LeavesDriver d' d'') : LeavesDriver d d'' :=
  ⟨h'.1.trans h.1, fun on hon => h'.2 on (h.2 on hon)⟩

theorem sendIrNcode_leavesDriver (a c : ℕ) (d : Daemon) :
    LeavesDriver d (sendIrNcode env a c d).2 := by
  refine ⟨rfl, fun on hon => ?_⟩
  refine hon.quiet fun e he => ?_
  obtain rfl := List.mem_singleton.mp he
  exact ⟨nofun, nofun⟩

theorem sendFirst_leavesDriver (fd : ℕ) (message : List Char) (once : Bool) (a c : ℕ) (reps : ℤ)
    (d : Daemon) : LeavesDriver d (sendFirst env fd message once a c reps d).2 := by
  have hfirst : LeavesDriver d (firstFrame env a c d).2 :=
    sendIrNcode_leavesDriver (d := startSending a c d) a c
  have hcases := sendFirst_cases env fd once message a c reps d
  generalize sendFirst env fd message once a c reps d = x at hcases
  cases hcases with
  | failed hsent h => exact hfirst.trans h.leavesDriver
  | single hsent hmore h => exact hfirst.trans h.leavesDriver
  | waiting hsent hnoted hmore honce =>
      subst hnoted
      rw [setTimer_eq]
      exact hfirst
  | outOfMemory hsent hnoted hmore honce h =>
      subst hnoted
      exact hfirst.trans h.leavesDriver
  | repeating hsent hnoted hmore honce h =>
      subst hnoted
      rw [setTimer_eq]
      exact hfirst.trans h.leavesDriver
  | unanswered hsent hnoted hmore honce h =>
      subst hnoted
      exact hfirst.trans h.leavesDriver

/-- A line of a client. Only a simulated event can make clients go. -/
theorem execLine_leavesDriver (hsim : env.allowSimulate = false) (fd : ℕ) (line : List Char)
    (d : Daemon) : LeavesDriver d (execLine (lircd env fd) line d).2 := by
  have hhandled := execLine_handled env fd line d
  generalize execLine (lircd env fd) line d = x at hhandled
  cases hhandled with
  | replied h => exact h.leavesDriver
  | sent hmode hparse hidle => exact sendFirst_leavesDriver fd _ _ _ _ _ d
  | postponed hparse hremote hcode hmatch hdone =>
      exact (sendSuccess_replies env fd _ _).leavesDriver
  | stopped hparse hremote hcode hmatch hdone =>
      refine LeavesDriver.trans ?_ (sendSuccess_replies env fd _ _).leavesDriver
      rw [stopRepeating, setTimer_eq]
      exact ⟨rfl, fun _ h => h⟩
  | simulated hallow hevent => exact absurd hallow (by simp [hsim])

theorem inUse_of_clients {d : Daemon} (hon : DriverState true d.trace) (hclin : 0 < d.clin) :
    InUse env d := by
  rw [InUse, useHw]
  simpa [hclin] using hon

theorem deinitUnused_inUse {d : Daemon} (hon : DriverState true d.trace) :
    InUse env (deinitUnused env d) := by
  rw [deinitUnused]
  split
  · next huse => rwa [InUse, huse]
  · next hunused =>
      rw [InUse]
      show DriverState (useHw env d) (d.trace ++ [.deinit])
      rw [Bool.eq_false_of_not_eq_true hunused]
      exact hon.call rfl

/-- While there is a client or a transmission, the driver is initialised. -/
theorem InUse.on {d : Daemon} (h : InUse env d) (huse : useHw env d = true) :
    DriverState true d.trace := by
  rwa [InUse, huse] at h

theorem useHw_of_clients {d : Daemon} (hclin : 0 < d.clin) : useHw env d = true := by
  simp [useHw, hclin]

theorem removeClient_inUse {d : Daemon} (h : InUse env d) (fd : ℕ) :
    InUse env (removeClient env fd d) := by
  unfold removeClient
  split
  · exact h
  · next i hfind =>
      have hi : i < d.clin := List.mem_range.mp (List.mem_of_find?_eq_some hfind)
      have hon : DriverState true (d.trace ++ [.closed fd]) :=
        (h.on (useHw_of_clients (by omega))).quiet (by simp)
      have hgone : InUse env
          (deinitUnused env { d.log (.closed fd) with clin := d.clin - 1 }) :=
        deinitUnused_inUse hon
      exact hgone

theorem broadcastLoop_inUse (message : List Char) (n i : ℕ) {d : Daemon} (h : InUse env d) :
    InUse env (broadcastLoop env message n i d) := by
  induction n generalizing i d with
  | zero => exact h
  | succ n ih =>
      rw [broadcastLoop]
      split
      · have hwrite := writeSocket_replies env (d.clis i) message d
        have hkept : InUse env (writeSocket env (d.clis i) message d).2 := by
          rw [InUse, useHw, hwrite.clin, hwrite.repeatRemote]
          exact hwrite.driverState h
        simp only []
        split
        · exact ih _ hkept
        · exact ih _ (removeClient_inUse hkept _)
      · exact h

theorem dosigalrm_inUse {d : Daemon} (h : InUse env d) : InUse env (dosigalrm env d) := by
  unfold dosigalrm
  split
  · next a c hremote hcode =>
      have hon : DriverState true d.trace := h.on (by simp [useHw, hremote])
      have hanswer : ∀ reply : ℕ → List Char → Daemon → Bool × Daemon,
          (∀ fd message d, Replies fd d (reply fd message d).2) →
          ∀ d, DriverState true d.trace → DriverState true (answerRepeat reply d).trace := by
        intro reply hreply d hd
        rw [answerRepeat]
        split
        · exact (hreply _ _ d).driverState hd
        · exact hd
      split
      · have hsent : DriverState true (sendIrNcode env a c (countRepeat a c d)).2.trace := by
          refine (sendIrNcode_leavesDriver a c _).2 true ?_
          rw [countRepeat]
          split
          · exact hon
          · split
            · exact hon
            · exact hon
        have hremote' : (sendIrNcode env a c (countRepeat a c d)).2.repeatRemote = some a := by
          show (countRepeat a c d).repeatRemote = some a
          rw [countRepeat]
          split
          · exact hremote
          · split
            · exact hremote
            · exact hremote
        simp only []
        split
        · rw [setTimer_eq, InUse, useHw]
          simpa [hremote'] using hsent
        · refine deinitUnused_inUse ?_
          exact hanswer _ (fun fd message d => sendSuccess_replies env fd message d) _ hsent
      · refine deinitUnused_inUse ?_
        exact hanswer _ (fun fd message d => sendError_replies env fd message _ d) d hon
  · exact h

/-- Every event of the loop. -/
theorem loopStep_inUse (hsim : env.allowSimulate = false) (d : Daemon) (e : LoopEvent)
    (h : InUse env d) : InUse env (loopStep env d e) := by
  cases e with
  | connect fd type =>
      show InUse env (addClient env fd type d)
      unfold addClient
      split
      · have hclosed : DriverState (useHw env d) (d.trace ++ [.closed fd]) := h.quiet (by simp)
        exact hclosed
      · simp only []
        split
        · next huse =>
            have hon : DriverState true d.trace := h.on huse
            exact inUse_of_clients hon (Nat.succ_pos _)
        · next hunused =>
            have hoff : DriverState false d.trace := by
              have huse : useHw env d = false := Bool.eq_false_of_not_eq_true hunused
              rwa [InUse, huse] at h
            exact inUse_of_clients (hoff.call rfl) (Nat.succ_pos _)
  | input i reads =>
      show InUse env (serveClient env i reads d)
      unfold serveClient
      split
      · next hready =>
          have hon : DriverState true d.trace := h.on (useHw_of_clients (by omega))
          split
          · exact h
          · next ok d' reads' hcall =>
              have hleaves : LeavesDriver d d' :=
                getCommand_invariant
                  (fun line s _ hs => hs.trans (execLine_leavesDriver hsim _ line s))
                  ⟨rfl, fun _ h => h⟩ hcall
              have hclin := hleaves.1
              have huse : InUse env d' := inUse_of_clients (hleaves.2 true hon) (by omega)
              split
              · exact huse
              · exact removeClient_inUse huse _
      · exact h
  | expire =>
      show InUse env (expire d)
      rw [expire_eq]
      exact h
  | alarm late =>
      show InUse env (handleAlarm env late d)
      unfold handleAlarm
      split
      · have hdone := dosigalrm_inUse h
        cases late with
        | true =>
            simp only [if_pos, expire_eq]
            exact hdone
        | false => exact hdone
      · exact h
  | reconnect =>
      show InUse env (reconnect env d)
      rw [reconnect, if_neg]
      · exact h
      · -- the device is open whenever it is used
        rw [h.2]
        cases useHw env d with
        | true => decide
        | false => decide
  | received heap messages =>
      show InUse env
        (messages.foldl (fun d message => broadcastMessage env message d) { d with heap := heap })
      have hheap : InUse env { d with heap := heap } := h
      generalize ({ d with heap := heap } : Daemon) = d₁ at hheap
      induction messages generalizing d₁ with
      | nil => exact hheap
      | cons message messages ih => exact ih _ (broadcastLoop_inUse message _ _ hheap)

end Events

/-- After all events, in whatever order they come, the calls of `hw.init_func`
and `hw.deinit_func` alternate, and the driver is initialised exactly if it is
used. -/
theorem driver_initialised_while_used (env : Env) (hinput : env.useUinput = false)
    (hsim : env.allowSimulate = false) (d : Daemon) (hstart : AtStart d)
    (events : List LoopEvent) :
    CallsAlternate (run (loopStep env) d events).trace ∧
      (hwOpen (run (loopStep env) d events).trace = true ↔
        0 < (run (loopStep env) d events).clin ∨
          (run (loopStep env) d events).repeatRemote ≠ none) := by
  have hinit : InUse env d := by
    rw [InUse, useHw, hstart.clin, hinput, hstart.repeatRemote, hstart.trace]
    exact ⟨List.isChain_singleton _, rfl⟩
  have huse : InUse env (run (loopStep env) d events) :=
    run_invariant (fun d e h => loopStep_inUse hsim d e h) events hinit
  refine ⟨huse.1, ?_⟩
  rw [huse.2, useHw, hinput]
  simp [Option.isSome_iff_ne_none]

/-- Two clients come and go. -/
theorem driver_initialised_while_used_clients :
    let d := run (loopStep quietEnv) emptyDaemon
      [.connect 7 .localClient, .connect 8 .remoteClient, .input 0 [], .input 0 []]
    CallsAlternate d.trace ∧ (hwOpen d.trace = true ↔ 0 < d.clin ∨ d.repeatRemote ≠ none) :=
  driver_initialised_while_used quietEnv rfl rfl emptyDaemon
    ⟨rfl, rfl, rfl, rfl, rfl, rfl, rfl, rfl⟩ _

end Lirc
