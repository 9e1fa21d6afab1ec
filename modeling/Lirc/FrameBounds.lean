import Lirc.MainLoop
import Lirc.Driver
import Lirc.Library.Run

/-!
How many frames a SEND_START transmits. `send_stop` computes the frames that are
done from the countdown, as if the countdown had begun at `repeat_max`. That is
so only until a first SEND_STOP has put the rest of the minimum there.
-/

namespace Lirc

open Transition

/-- What happens to a transmission while it is repeated. -/
inductive RepeatEvent
  | alarm
  | stop (fd : ℕ) (message : List Char) (arguments : Option (List Char))

/-- The function that handles the event. -/
def repeatStep (env : Env) (d : Daemon) : RepeatEvent → Daemon
  | .alarm => dosigalrm env d
  | .stop fd message arguments => (sendStop env fd message arguments d).2

/-- The frames that the driver has transmitted. -/
def framesSent (trace : List Event) : ℕ :=
  trace.countP fun e => match e with
    | .sent _ _ _ ok => ok
    | _ => false

/-- The alarm sends its frame; a SEND_STOP names what is being sent. -/
def Succeeds (env : Env) (a c : ℕ) (d : Daemon) : RepeatEvent → Prop
  | .alarm => (sendIrNcode env a c (countRepeat a c d)).1 = true
  | .stop _ _ arguments =>
      match parseRc env d arguments false 0 with
      | .ok rc => StopMatches d rc a c
      | .error _ => False

instance (d : Daemon) (rc : RcArgs) (a c : ℕ) : Decidable (StopMatches d rc a c) :=
  inferInstanceAs (Decidable (_ ∧ _))

instance (env : Env) (a c : ℕ) (d : Daemon) : DecidablePred (Succeeds env a c d)
  | .alarm => inferInstanceAs (Decidable (_ = true))
  | .stop _ _ arguments =>
      match hparse : parseRc env d arguments false 0 with
      | .ok rc => decidable_of_iff (StopMatches d rc a c) (by simp only [Succeeds, hparse])
      | .error _ => .isFalse (by simp only [Succeeds, hparse]; exact id)

/-- The events up to the first moment at which nothing is sent any more. -/
def UntilIdle (env : Env) (a c : ℕ) : Daemon → List RepeatEvent → Prop
  | d, [] => d.repeatRemote = none
  | d, e :: es =>
      d.repeatRemote = some a ∧ Succeeds env a c d e ∧ UntilIdle env a c (repeatStep env d e) es

instance decidableUntilIdle (env : Env) (a c : ℕ) :
    (d : Daemon) → (es : List RepeatEvent) → Decidable (UntilIdle env a c d es)
  | d, [] => inferInstanceAs (Decidable (d.repeatRemote = none))
  | d, e :: es =>
      have := decidableUntilIdle env a c (repeatStep env d e) es
      inferInstanceAs (Decidable (_ ∧ _ ∧ _))

/-- The SEND_STOPs that come before the `m`-th alarm. -/
def earlyStops : ℕ → List RepeatEvent → ℕ
  | 0, _ => 0
  | _ + 1, [] => 0
  | m + 1, .alarm :: es => earlyStops m es
  | m + 1, .stop .. :: es => earlyStops (m + 1) es + 1

/-- The alarms among the events. -/
def alarms (es : List RepeatEvent) : ℕ :=
  es.countP fun e => match e with
    | .alarm => true
    | .stop .. => false

theorem alarms_alarm (es : List RepeatEvent) : alarms (.alarm :: es) = alarms es + 1 :=
  List.countP_cons_of_pos rfl

/-- The remote up to what transmissions change in it. -/
def SameRemote (r r' : IrRemote) : Prop :=
  Transmits r { r' with
    lastSend := r.lastSend, lastCode := r.lastCode, toggleBitMaskState := r.toggleBitMaskState }

/-- One frame is sent for each alarm: the driver leaves the number of repeats
that are to follow alone. -/
def OneFrameEach (env : Env) (r : IrRemote) (c : ℕ) : Prop :=
  ∀ n r' buf, SameRemote r r' → (env.sendFunc n true r' c buf).1 = true →
    (env.sendFunc n true r' c buf).2.1.repeatCountdown = r'.repeatCountdown

theorem SameRemote.of_transmits {r r' r'' : IrRemote} (h : SameRemote r r')
    (hsent : Transmits r' r'') : SameRemote r r'' := by
  obtain ⟨_, _, _, _, codes, rfl, hcodes⟩ := hsent
  exact Transmits.trans h ⟨_, _, _, _, codes, rfl, hcodes⟩

theorem SameRemote.minRepeat {r r' : IrRemote} (h : SameRemote r r') :
    r'.minRepeat = r.minRepeat := by
  obtain ⟨_, _, _, _, _, heq, -⟩ := h
  have hmin := congrArg IrRemote.minRepeat heq
  exact hmin

/-- A code keeps its sequence. -/
theorem SameRemote.next {r r' : IrRemote} (h : SameRemote r r') (c : ℕ) :
    (r'.codes[c]?).map IrNcode.next = (r.codes[c]?).map IrNcode.next := by
  obtain ⟨_, _, _, _, codes, heq, hcodes⟩ := h
  have hr' : r'.codes = codes := congrArg IrRemote.codes heq
  have hget := congrArg (fun l => (l[c]?).map IrNcode.next) hcodes
  simp only [List.getElem?_map, Option.map_map] at hget
  rw [hr']
  exact hget

/-! ### One event -/

section Steps

variable {env : Env} {r₀ : IrRemote} {a c : ℕ}

/-- A code that is no sequence is being repeated, and so many frames are still
to be counted. -/
structure Repeats (r₀ : IrRemote) (a c : ℕ) (v : ℤ) (d : Daemon) : Prop where
  remote : d.repeatRemote = some a
  code : d.repeatCode = some c
  countdown : (d.heap a).repeatCountdown = v
  last : (d.heap a).lastCode = some c
  same : SameRemote r₀ (d.heap a)

theorem Replies.repeats {fd : ℕ} {d d' : Daemon} {v : ℤ} (h : Replies fd d d')
    (hd : Repeats r₀ a c v d) : Repeats r₀ a c v d' := by
  obtain ⟨clock, es, rfl, -⟩ := h
  exact ⟨hd.remote, hd.code, hd.countdown, hd.last, hd.same⟩

theorem Replies.framesSent {fd : ℕ} {d d' : Daemon} (h : Replies fd d d') :
    framesSent d'.trace = framesSent d.trace := by
  obtain ⟨clock, es, rfl, hes⟩ := h
  have hnone : Lirc.framesSent es = 0 := by
    refine List.countP_eq_zero.mpr fun e he => ?_
    have hreply := hes e he
    cases e with
    | sent => exact hreply.elim
    | _ => simp
  show List.countP _ (d.trace ++ es) = _
  rw [List.countP_append]
  exact congrArg _ hnone

theorem framesSent_sendIrNcode (env : Env) (d : Daemon) (a c : ℕ) :
    framesSent (sendIrNcode env a c d).2.trace =
      framesSent d.trace + if (sendIrNcode env a c d).1 then 1 else 0 := by
  have htrace : (sendIrNcode env a c d).2.trace = d.trace ++
      [.sent (d.heap a) c d.repeatRemote.isSome (sendIrNcode env a c d).1] := rfl
  rw [htrace, framesSent, List.countP_append, List.countP_singleton]
  rfl

theorem countRepeat_of_single {d : Daemon} {v : ℤ} (hd : Repeats r₀ a c v d)
    (hsingle : (r₀.codes[c]?).map IrNcode.next = some []) :
    countRepeat a c d = d.setRemote a { d.heap a with repeatCountdown := v - 1 } := by
  have hnext := (hd.same.next c).trans hsingle
  obtain ⟨code, hcode, hempty⟩ := Option.map_eq_some_iff.mp hnext
  simp only [countRepeat, hcode, hempty, true_or, if_pos, hd.countdown]

/-- The answer that `dosigalrm` has put off is no frame. -/
theorem finishRepeating_spec (env : Env) (d : Daemon) :
    (finishRepeating env d).repeatRemote = none ∧
      framesSent (finishRepeating env d).trace = framesSent d.trace := by
  have hanswer : ∀ d : Daemon, (answerRepeat (sendSuccess env) d).repeatRemote = d.repeatRemote ∧
      framesSent (answerRepeat (sendSuccess env) d).trace = framesSent d.trace := by
    intro d
    rw [answerRepeat]
    split
    · next fd message _ _ =>
        have hreply := sendSuccess_replies env fd message d
        exact ⟨by obtain ⟨_, _, heq, -⟩ := hreply; simp only [heq], hreply.framesSent⟩
    · exact ⟨rfl, rfl⟩
  obtain ⟨hremote, hframes⟩ := hanswer { d with repeatRemote := none, repeatCode := none }
  rw [finishRepeating, deinitUnused]
  split
  · exact ⟨hremote, hframes⟩
  · refine ⟨hremote, ?_⟩
    show framesSent (_ ++ [Event.deinit]) = _
    rw [framesSent, List.countP_append]
    exact hframes

/-- A repeat alarm sends one frame and counts it. -/
theorem alarm_step {d : Daemon} {v : ℤ} (hd : Repeats r₀ a c v d)
    (hsingle : (r₀.codes[c]?).map IrNcode.next = some [])
    (hdriver : OneFrameEach env r₀ c) (hok : Succeeds env a c d .alarm) :
    framesSent (repeatStep env d .alarm).trace = framesSent d.trace + 1 ∧
      (1 < v → Repeats r₀ a c (v - 1) (repeatStep env d .alarm)) ∧
      (v ≤ 1 → (repeatStep env d .alarm).repeatRemote = none) := by
  have hcount := countRepeat_of_single hd hsingle
  have hsent : (sendIrNcode env a c (countRepeat a c d)).1 = true := hok
  have hframes := framesSent_sendIrNcode env (countRepeat a c d) a c
  rw [if_pos hsent] at hframes
  have htrace : (countRepeat a c d).trace = d.trace := by rw [hcount]; rfl
  -- what the driver is given and what it leaves
  have hgiven : SameRemote r₀ { d.heap a with repeatCountdown := v - 1 } :=
    hd.same.of_transmits ⟨_, _, _, _, _, rfl, rfl⟩
  have hrep : (countRepeat a c d).repeatRemote = some a := by rw [hcount]; exact hd.remote
  have hheap : (countRepeat a c d).heap a = { d.heap a with repeatCountdown := v - 1 } := by
    rw [hcount]
    exact setRemote_heap_self d a _
  have hfunc : (env.sendFunc (countRepeat a c d).clock true
      { d.heap a with repeatCountdown := v - 1 } c (countRepeat a c d).sendBuffer).1 = true := by
    have h := hsent
    simp only [sendIrNcode, hrep, hheap, Option.isSome_some] at h
    exact h
  have hleft : ((sendIrNcode env a c (countRepeat a c d)).2.heap a).repeatCountdown = v - 1 ∧
      ((sendIrNcode env a c (countRepeat a c d)).2.heap a).lastCode = some c ∧
      SameRemote r₀ ((sendIrNcode env a c (countRepeat a c d)).2.heap a) := by
    have hkeeps := hdriver _ _ _ hgiven hfunc
    have hsame := hgiven.of_transmits (env.sendFunc_transmits (countRepeat a c d).clock true
      { d.heap a with repeatCountdown := v - 1 } c (countRepeat a c d).sendBuffer)
    simp only [sendIrNcode, Daemon.setRemote, Function.update_self, hrep, hheap,
      Option.isSome_some, hfunc, if_true]
    exact ⟨hkeeps, trivial, hsame⟩
  have hremote : (sendIrNcode env a c (countRepeat a c d)).2.repeatRemote = some a := hrep
  have hcode : (sendIrNcode env a c (countRepeat a c d)).2.repeatCode = some c := by
    show (countRepeat a c d).repeatCode = some c
    rw [hcount]
    exact hd.code
  have hstep : repeatStep env d .alarm =
      if 0 < v - 1 then
        (sendIrNcode env a c (countRepeat a c d)).2.setTimer
          ((sendIrNcode env a c (countRepeat a c d)).2.heap a).minRemainingGap
      else finishRepeating env (sendIrNcode env a c (countRepeat a c d)).2 := by
    show dosigalrm env d = _
    simp only [dosigalrm, hd.remote, hd.code, hd.last, if_true, hsent, true_and, hleft.1]
  rw [htrace] at hframes
  rw [hstep]
  split
  · next hmore =>
      have htimer : ∀ (d' : Daemon) (usec : ℤ), (d'.setTimer usec).trace = d'.trace ∧
          (Repeats r₀ a c (v - 1) d' → Repeats r₀ a c (v - 1) (d'.setTimer usec)) := by
        intro d' usec
        rw [Daemon.setTimer]
        split
        · exact ⟨rfl, fun h => ⟨h.remote, h.code, h.countdown, h.last, h.same⟩⟩
        · exact ⟨rfl, id⟩
      refine ⟨by rw [(htimer _ _).1]; exact hframes, fun _ => ?_, fun hle => by omega⟩
      exact (htimer _ _).2 ⟨hremote, hcode, hleft.1, hleft.2.1, hleft.2.2⟩
  · next hdone =>
      have hfinish := finishRepeating_spec env
        (sendIrNcode env a c (countRepeat a c d)).2
      exact ⟨hfinish.2.trans hframes, fun hlt => absurd hlt (by omega), fun _ => hfinish.1⟩

/-- A SEND_STOP sends no frame. While it takes fewer frames to be done than the
minimum, it replaces the countdown, else it ends the transmission. -/
theorem stop_step {d : Daemon} {v : ℤ} (hd : Repeats r₀ a c v d) {fd : ℕ} {message : List Char}
    {arguments : Option (List Char)} (hok : Succeeds env a c d (.stop fd message arguments))
    (hmax : env.repeatMax < 2 ^ 31) (hpos : 0 < v) (hle : v ≤ env.repeatMax) :
    framesSent (repeatStep env d (.stop fd message arguments)).trace = framesSent d.trace ∧
      (env.repeatMax - v < r₀.minRepeat → Repeats r₀ a c (r₀.minRepeat - (env.repeatMax - v))
        (repeatStep env d (.stop fd message arguments))) ∧
      (r₀.minRepeat ≤ env.repeatMax - v →
        (repeatStep env d (.stop fd message arguments)).repeatRemote = none) := by
  obtain ⟨rc, hparse, hname, hbutton⟩ :
      ∃ rc, parseRc env d arguments false 0 = .ok rc ∧ StopMatches d rc a c := by
    rw [Succeeds] at hok
    split at hok
    · next rc hparse => exact ⟨rc, hparse, hok⟩
    · exact hok.elim
  have hdone : Int.bmod ((env.repeatMax : ℤ) - (d.heap a).repeatCountdown) (2 ^ 32) =
      env.repeatMax - v := by
    rw [hd.countdown]
    exact Int.bmod_eq_of_le (by omega) (by omega)
  have hmin := hd.same.minRepeat
  have hstep : repeatStep env d (.stop fd message arguments) =
      if env.repeatMax - v < r₀.minRepeat then
        (sendSuccess env fd message (d.setRemote a
          { d.heap a with repeatCountdown := r₀.minRepeat - (env.repeatMax - v) })).2
      else (sendSuccess env fd message (stopRepeating a d)).2 := by
    show (sendStop env fd message arguments d).2 = _
    simp only [sendStop, hparse, hd.remote, hd.code, hname, hbutton, Bool.false_eq_true, if_false,
      hdone, hmin]
    split
    · rfl
    · rfl
  rw [hstep]
  split
  · next hfew =>
      have hreply := sendSuccess_replies env fd message (d.setRemote a
        { d.heap a with repeatCountdown := r₀.minRepeat - (env.repeatMax - v) })
      refine ⟨hreply.framesSent, fun _ => hreply.repeats ?_, fun hge => by omega⟩
      refine ⟨hd.remote, hd.code, ?_, ?_, ?_⟩
      · rw [setRemote_heap_self]
      · rw [setRemote_heap_self]
        exact hd.last
      · rw [setRemote_heap_self]
        exact hd.same.of_transmits ⟨_, _, _, _, _, rfl, rfl⟩
  · next hmany =>
      have hreply := sendSuccess_replies env fd message (stopRepeating a d)
      have htrace : (stopRepeating a d).trace = d.trace := by
        rw [stopRepeating, Daemon.setTimer]
        split
        · rfl
        · rfl
      refine ⟨hreply.framesSent.trans (by rw [htrace]), fun hlt => absurd hlt hmany, fun _ => ?_⟩
      obtain ⟨_, _, heq, -⟩ := hreply
      simp only [heq]
      rfl

/-! ### Whole transmissions -/

/-- Nothing follows once nothing is sent any more. -/
theorem UntilIdle.eq_nil {d : Daemon} {es : List RepeatEvent} (h : UntilIdle env a c d es)
    (hidle : d.repeatRemote = none) : es = [] := by
  cases es with
  | nil => rfl
  | cons e es =>
      have hremote := h.1
      rw [hidle] at hremote
      cases hremote

variable (hsingle : (r₀.codes[c]?).map IrNcode.next = some []) (hdriver : OneFrameEach env r₀ c)
  (hmax : env.repeatMax < 2 ^ 31) (hmin : r₀.minRepeat ≤ env.repeatMax)
include hsingle hdriver hmax

include hmin in
/-- Every alarm sends a frame, and there are no more alarms than the countdown
says: a SEND_STOP does not make it larger. -/
theorem UntilIdle.frames {d : Daemon} {v : ℤ} {es : List RepeatEvent} (hd : Repeats r₀ a c v d)
    (hpos : 0 < v) (hle : v ≤ env.repeatMax) (hrun : UntilIdle env a c d es) :
    framesSent (run (repeatStep env) d es).trace = framesSent d.trace + alarms es ∧
      alarms es ≤ v := by
  induction es generalizing d v with
  | nil =>
      have hremote := hd.remote
      rw [show d.repeatRemote = none from hrun] at hremote
      cases hremote
  | cons e es ih =>
      obtain ⟨-, hok, hrest⟩ := hrun
      cases e with
      | alarm =>
          obtain ⟨hframes, hmore, hlast⟩ := alarm_step hd hsingle hdriver hok
          have hcount := alarms_alarm es
          rw [run_cons, hcount]
          by_cases hv : v ≤ 1
          · obtain rfl := hrest.eq_nil (hlast hv)
            have hnone : alarms [] = 0 := rfl
            rw [run_nil, hframes, hnone]
            omega
          · obtain ⟨htotal, hbound⟩ := ih (hmore (by omega)) (by omega) (by omega) hrest
            rw [htotal, hframes]
            omega
      | stop fd message arguments =>
          obtain ⟨hframes, hmore, hlast⟩ := stop_step hd hok hmax hpos hle
          have hcount : alarms (.stop fd message arguments :: es) = alarms es := rfl
          rw [run_cons, hcount]
          by_cases hfew : env.repeatMax - v < r₀.minRepeat
          · obtain ⟨htotal, hbound⟩ := ih (hmore hfew) (by omega) (by omega) hrest
            rw [htotal, hframes]
            omega
          · obtain rfl := hrest.eq_nil (hlast (by omega))
            have hnone : alarms [] = 0 := rfl
            rw [run_nil, hframes, hnone]
            omega

/-- When the minimum is the limit, a SEND_STOP computes the right number of
frames and changes nothing. -/
theorem UntilIdle.all_of_min_eq_max {d : Daemon} {v : ℤ} {es : List RepeatEvent}
    (hd : Repeats r₀ a c v d) (hpos : 0 < v) (hle : v ≤ env.repeatMax)
    (heq : r₀.minRepeat = env.repeatMax) (hrun : UntilIdle env a c d es) : v ≤ alarms es := by
  induction es generalizing d v with
  | nil =>
      have hremote := hd.remote
      rw [show d.repeatRemote = none from hrun] at hremote
      cases hremote
  | cons e es ih =>
      obtain ⟨-, hok, hrest⟩ := hrun
      cases e with
      | alarm =>
          obtain ⟨-, hmore, -⟩ := alarm_step hd hsingle hdriver hok
          have hcount := alarms_alarm es
          rw [hcount]
          by_cases hv : v ≤ 1
          · omega
          · have hbound := ih (hmore (by omega)) (by omega) (by omega) hrest
            omega
      | stop fd message arguments =>
          obtain ⟨-, hmore, -⟩ := stop_step hd hok hmax hpos hle
          have hkept : Repeats r₀ a c v (repeatStep env d (.stop fd message arguments)) := by
            have hreplaced := hmore (by omega)
            rwa [heq, Int.sub_sub_self] at hreplaced
          exact ih hkept hpos hle hrest

/-- After a first SEND_STOP the countdown is what is left of the minimum. A
second one takes almost all of it to be done, or all. -/
theorem UntilIdle.rest_iff {d : Daemon} {j : ℕ} {es : List RepeatEvent}
    (hd : Repeats r₀ a c j d) (hpos : 0 < j) (hj : (j : ℤ) ≤ r₀.minRepeat)
    (hlt : r₀.minRepeat < env.repeatMax) (hrun : UntilIdle env a c d es) :
    j ≤ alarms es ↔ earlyStops j es = 0 := by
  induction es generalizing d j with
  | nil =>
      have hremote := hd.remote
      rw [show d.repeatRemote = none from hrun] at hremote
      cases hremote
  | cons e es ih =>
      obtain ⟨-, hok, hrest⟩ := hrun
      obtain ⟨j, rfl⟩ : ∃ k, j = k + 1 := ⟨j - 1, by omega⟩
      cases e with
      | alarm =>
          obtain ⟨-, hmore, hlast⟩ := alarm_step hd hsingle hdriver hok
          have hcount := alarms_alarm es
          have hearly : earlyStops (j + 1) (.alarm :: es) = earlyStops j es := rfl
          rw [hcount, hearly]
          cases j with
          | zero =>
              have hnone : earlyStops 0 es = 0 := by rw [earlyStops]
              omega
          | succ j =>
              have hnext : Repeats r₀ a c ((j + 1 : ℕ) : ℤ) (repeatStep env d .alarm) := by
                have h := hmore (by omega)
                rwa [show (((j + 1 + 1 : ℕ) : ℤ) - 1) = ((j + 1 : ℕ) : ℤ) by omega] at h
              have hiff := ih hnext (by omega) (by omega) hrest
              omega
      | stop fd message arguments =>
          obtain ⟨-, hmore, hlast⟩ := stop_step hd hok hmax (by omega) (by omega)
          have hcount : alarms (.stop fd message arguments :: es) = alarms es := rfl
          have hearly : earlyStops (j + 1) (.stop fd message arguments :: es) =
              earlyStops (j + 1) es + 1 := rfl
          rw [hcount, hearly]
          have hfewer : alarms es < j + 1 := by
            by_cases hfew : (env.repeatMax : ℤ) - (j + 1 : ℕ) < r₀.minRepeat
            · have hbound := (UntilIdle.frames hsingle hdriver hmax hlt.le (hmore hfew) (by omega)
                (by omega) hrest).2
              omega
            · obtain rfl := hrest.eq_nil (hlast (by omega))
              have hnone : alarms [] = 0 := rfl
              omega
          omega

/-- Before any SEND_STOP: the minimum is kept exactly if at most one comes too
early. -/
theorem UntilIdle.minimum_iff {d : Daemon} {j : ℕ} {es : List RepeatEvent}
    (hd : Repeats r₀ a c (env.repeatMax - r₀.minRepeat + j) d) (hpos : 0 < j)
    (hj : (j : ℤ) ≤ r₀.minRepeat) (hlt : r₀.minRepeat < env.repeatMax)
    (hrun : UntilIdle env a c d es) :
    j ≤ alarms es ↔ earlyStops j es ≤ 1 := by
  induction es generalizing d j with
  | nil =>
      have hremote := hd.remote
      rw [show d.repeatRemote = none from hrun] at hremote
      cases hremote
  | cons e es ih =>
      obtain ⟨-, hok, hrest⟩ := hrun
      obtain ⟨j, rfl⟩ : ∃ k, j = k + 1 := ⟨j - 1, by omega⟩
      cases e with
      | alarm =>
          obtain ⟨-, hmore, -⟩ := alarm_step hd hsingle hdriver hok
          have hcount := alarms_alarm es
          have hearly : earlyStops (j + 1) (.alarm :: es) = earlyStops j es := rfl
          rw [hcount, hearly]
          cases j with
          | zero =>
              have hnone : earlyStops 0 es = 0 := by rw [earlyStops]
              omega
          | succ j =>
              have hnext : Repeats r₀ a c (env.repeatMax - r₀.minRepeat + (j + 1 : ℕ))
                  (repeatStep env d .alarm) := by
                have h := hmore (by omega)
                rwa [show (env.repeatMax - r₀.minRepeat + ((j + 1 + 1 : ℕ) : ℤ) - 1) =
                  env.repeatMax - r₀.minRepeat + ((j + 1 : ℕ) : ℤ) by omega] at h
              have hiff := ih hnext (by omega) (by omega) hrest
              omega
      | stop fd message arguments =>
          obtain ⟨-, hmore, -⟩ := stop_step hd hok hmax (by omega) (by omega)
          have hcount : alarms (.stop fd message arguments :: es) = alarms es := rfl
          have hearly : earlyStops (j + 1) (.stop fd message arguments :: es) =
              earlyStops (j + 1) es + 1 := rfl
          have hrestored : Repeats r₀ a c ((j + 1 : ℕ) : ℤ)
              (repeatStep env d (.stop fd message arguments)) := by
            have h := hmore (by omega)
            rwa [show (r₀.minRepeat - (env.repeatMax -
              (env.repeatMax - r₀.minRepeat + ((j + 1 : ℕ) : ℤ)))) = ((j + 1 : ℕ) : ℤ) by omega] at h
          have hiff := UntilIdle.rest_iff hsingle hdriver hmax hrestored (by omega) hj hlt hrest
          rw [hcount, hearly]
          omega

end Steps

/-! ### SEND_START -/

theorem SameRemote.startSending (d : Daemon) (a c : ℕ) :
    SameRemote (d.heap a) ((startSending a c d).heap a) := by
  have hcodes : ∀ r : IrRemote, r.codes = (d.heap a).codes →
      (r.setTransmitState c []).codes.map (fun code => { code with transmitState := [] }) =
        (d.heap a).codes.map fun code => { code with transmitState := [] } := by
    rintro r hr
    rw [← hr]
    exact map_modify_transmitState _ _ _
  rw [Lirc.startSending, setRemote_heap_self]
  split
  · split
    · exact ⟨_, _, _, _, _, rfl, hcodes _ rfl⟩
    · exact ⟨_, _, _, _, _, rfl, hcodes _ rfl⟩
  · split
    · exact ⟨_, _, _, _, _, rfl, hcodes _ rfl⟩
    · exact ⟨_, _, _, _, _, rfl, hcodes _ rfl⟩

theorem SameRemote.sendIrNcode (env : Env) {r : IrRemote} {a : ℕ} (c : ℕ) {d : Daemon}
    (h : SameRemote r (d.heap a)) : SameRemote r ((sendIrNcode env a c d).2.heap a) := by
  have hsent := h.of_transmits
    (env.sendFunc_transmits d.clock d.repeatRemote.isSome (d.heap a) c d.sendBuffer)
  rw [Lirc.sendIrNcode, setRemote_heap_self]
  split
  · exact hsent
  · exact hsent

/-- A SEND_START that is answered has begun to repeat the code, unless the limit
leaves no frame to be repeated. -/
theorem sendStart_started {env : Env} {fd : ℕ} {message : List Char}
    {arguments : Option (List Char)} {reps : ℤ} {a c : ℕ} {d d₁ : Daemon}
    (hmode : env.sendMode ≠ 0)
    (hparse : parseRc env d arguments false 2 = .ok ⟨some a, some c, reps⟩)
    (hidle : d.repeatRemote = none)
    (hsingle : ((d.heap a).codes[c]?).map IrNcode.next = some [])
    (hstart : sendStart env fd message arguments d = (true, d₁))
    (hsent : framesSent d₁.trace = framesSent d.trace + 1) :
    (0 < env.repeatMax ∧ env.repeatMax < 2 ^ 31 ∧ Repeats (d.heap a) a c env.repeatMax d₁) ∨
      ((env.repeatMax = 0 ∨ 2 ^ 31 ≤ env.repeatMax) ∧ d₁.repeatRemote = none) := by
  have hfirst : sendFirst env fd message false a c reps d = (true, d₁) := by
    rw [← hstart]
    simp only [sendStart, sendCore, hmode, if_false, hparse, hidle, Option.isSome_none,
      Bool.false_eq_true]
  have hcases := sendFirst_cases env fd false message a c reps d
  rw [hfirst] at hcases
  have hsame : SameRemote (d.heap a)
      ((noteSent env false a c reps (firstFrame env a c d).2).heap a) := by
    have h := SameRemote.sendIrNcode env c (SameRemote.startSending d a c)
    rw [noteSent, setRemote_heap_self]
    obtain ⟨_, toggle, gmin, gmax, codes, heq, hcodes⟩ := h
    refine ⟨toInt32 env.repeatMax, toggle, gmin, gmax, codes, ?_, hcodes⟩
    exact congrArg
      (fun r : IrRemote => { r with repeatCountdown := toInt32 env.repeatMax }) heq
  have hcountdown : ((noteSent env false a c reps (firstFrame env a c d).2).heap a).repeatCountdown =
      toInt32 env.repeatMax := by
    rw [noteSent, setRemote_heap_self]
    rfl
  have hmore : moreFrames a c (noteSent env false a c reps (firstFrame env a c d).2) =
      decide (0 < toInt32 env.repeatMax) := by
    rw [moreFrames, hcountdown, hsame.next c, hsingle]
    simp
  have hlimit := env.repeatMax_lt
  cases hcases with
  | failed hfailed h =>
      exfalso
      have hnone : framesSent (firstFrame env a c d).2.trace = framesSent d.trace := by
        have h := framesSent_sendIrNcode env (startSending a c d) a c
        rw [if_neg (by simpa [firstFrame] using hfailed)] at h
        exact h
      rw [h.framesSent, hnone] at hsent
      omega
  | single hok hless h =>
      right
      rw [hmore] at hless
      have hnonpos : ¬ 0 < toInt32 env.repeatMax := by simpa using hless
      refine ⟨?_, ?_⟩
      · rw [toInt32] at hnonpos
        split at hnonpos
        · omega
        · omega
      · obtain ⟨clock, es, rfl, -⟩ := h
        exact hidle
  | waiting hok hnoted hmore' honce => cases honce
  | outOfMemory hok hnoted hmore' honce h => cases honce
  | repeating hok hnoted hmore' honce h =>
      left
      subst hnoted
      rw [hmore] at hmore'
      have hpos : 0 < toInt32 env.repeatMax := by simpa using hmore'
      have hrange : 0 < env.repeatMax ∧ env.repeatMax < 2 ^ 31 := by
        rw [toInt32] at hpos
        split at hpos
        · omega
        · omega
      refine ⟨hrange.1, hrange.2, ?_⟩
      have hvalue : toInt32 env.repeatMax = env.repeatMax := by rw [toInt32, if_pos hrange.2]
      rw [hvalue] at hcountdown
      have hbegun : Repeats (d.heap a) a c env.repeatMax
          { noteSent env false a c reps (firstFrame env a c d).2 with
            repeatRemote := some a, repeatCode := some c } := by
        refine ⟨rfl, rfl, hcountdown, ?_, hsame⟩
        show ((noteSent env false a c reps (firstFrame env a c d).2).heap a).lastCode = _
        rw [noteSent, setRemote_heap_self]
      have hreplied := h.repeats hbegun
      rw [setTimer_eq]
      exact ⟨hreplied.remote, hreplied.code, hreplied.countdown, hreplied.last, hreplied.same⟩

/-- A driver that calls `init_send` sends one frame for each alarm if the remote
has a fixed gap that is long enough. -/
theorem oneFrameEach_initSendDriver {env : Env} {r : IrRemote} {fuel : ℕ}
    (hfunc : ∀ n rep r c buf, env.sendFunc n rep r c buf = initSendDriver fuel rep r c buf)
    (hconst : isConst r = false) (hrepeat : hasRepeatGap r = false)
    (hgap : exactGapThreshold ≤ minGap r) (c : ℕ) : OneFrameEach env r c := by
  intro n r' buf hsame hok
  obtain ⟨_, _, _, _, codes, heq, -⟩ := hsame
  have hgap' : ∀ sum gap, remainingGap r' true sum = some gap → exactGapThreshold ≤ gap.1 := by
    intro sum gap hremaining
    have hconst' := congrArg isConst heq
    have hrepeat' := congrArg hasRepeatGap heq
    have hmin' := congrArg minGap heq
    have hc : isConst r' = false := hconst'.trans hconst
    have hr : hasRepeatGap r' = false := hrepeat'.trans hrepeat
    have hm : minGap r' = minGap r := hmin'
    rw [remainingGap, hr, hc] at hremaining
    cases hremaining
    rw [hm]
    exact hgap
  rw [hfunc] at hok ⊢
  rw [initSendDriver] at hok ⊢
  split
  · rfl
  · next out hout =>
      rw [hout] at hok
      obtain ⟨code, -, hsend⟩ := Option.bind_eq_some_iff.mp hout
      exact (initSend_single (fun b' tx' gap _ hremaining => hgap' _ gap hremaining) hsend hok).2

/-- From a SEND_START that is answered until nothing is sent any more, at least
`min_repeat + 1` and at most `repeat_max + 1` frames are transmitted, exactly
when the minimum is not positive, or the limit can be counted down and either
equals the minimum or no second SEND_STOP comes before the minimum is reached. -/
theorem sendStart_frame_bounds (env : Env) (fd : ℕ) (message : List Char)
    (arguments : Option (List Char)) (reps : ℤ) (a c : ℕ) (d d₁ : Daemon)
    (events : List RepeatEvent) (hmode : env.sendMode ≠ 0)
    (hparse : parseRc env d arguments false 2 = .ok ⟨some a, some c, reps⟩)
    (hidle : d.repeatRemote = none)
    (hsingle : ((d.heap a).codes[c]?).map IrNcode.next = some [])
    (hmin : (d.heap a).minRepeat ≤ env.repeatMax)
    (hdriver : OneFrameEach env (d.heap a) c)
    (hstart : sendStart env fd message arguments d = (true, d₁))
    (hsent : framesSent d₁.trace = framesSent d.trace + 1)
    (hrun : UntilIdle env a c d₁ events) :
    ((d.heap a).minRepeat + 1 ≤
        (framesSent (run (repeatStep env) d₁ events).trace : ℤ) - framesSent d.trace ∧
      (framesSent (run (repeatStep env) d₁ events).trace : ℤ) - framesSent d.trace ≤
        env.repeatMax + 1) ↔
      (d.heap a).minRepeat ≤ 0 ∨
        env.repeatMax < 2 ^ 31 ∧
          ((d.heap a).minRepeat = env.repeatMax ∨
            earlyStops (d.heap a).minRepeat.toNat events ≤ 1) := by
  obtain ⟨hpos, hmax, hrepeats⟩ | ⟨hlimit, hdone⟩ :=
    sendStart_started hmode hparse hidle hsingle hstart hsent
  · obtain ⟨hframes, hupper⟩ := UntilIdle.frames hsingle hdriver hmax hmin hrepeats
      (by omega) le_rfl hrun
    rw [hframes, hsent]
    by_cases hzero : (d.heap a).minRepeat ≤ 0
    · exact iff_of_true (by omega) (.inl hzero)
    · by_cases heq : (d.heap a).minRepeat = env.repeatMax
      · have hlower := UntilIdle.all_of_min_eq_max hsingle hdriver hmax hrepeats
          (by omega) le_rfl heq hrun
        exact iff_of_true (by omega) (.inr ⟨hmax, .inl heq⟩)
      · obtain ⟨j, hj⟩ : ∃ j : ℕ, (d.heap a).minRepeat = j :=
          ⟨(d.heap a).minRepeat.toNat, by omega⟩
        have hcountdown : Repeats (d.heap a) a c
            (env.repeatMax - (d.heap a).minRepeat + j) d₁ := by
          rwa [hj, Int.sub_add_cancel]
        have hiff := UntilIdle.minimum_iff hsingle hdriver hmax hcountdown (by omega) (by omega)
          (by omega) hrun
        have hnat : (d.heap a).minRepeat.toNat = j := by omega
        rw [hnat]
        omega
  · obtain rfl := hrun.eq_nil hdone
    rw [run_nil, hsent]
    omega

/-- A remote with one button that is to be sent four times. -/
def fourTimesRemote : IrRemote where
  name := "tv".toList
  codes := [{ name := "ok".toList, code := 1 }]
  bits := 1
  flags := spaceEnc
  pone := 500
  sone := 1500
  pzero := 500
  szero := 500
  ptrail := 500
  gap := 100000
  minRepeat := 3

/-- A daemon with this remote and one client. -/
def fourTimesDaemon : Daemon :=
  { emptyDaemon with heap := fun _ => fourTimesRemote, remotes := [0], clis := fun _ => 7, clin := 1 }

/-- A driver that can send, on a system in which nothing fails. -/
def sendingEnv : Env :=
  { quietEnv with
    sendFunc := fun _ => initSendDriver 3
    sendFunc_transmits := fun _ => initSendDriver_transmits 3 }

/-- The line `command tv ok`. -/
def okLine (command : String) : List Char := (command ++ " tv ok\n").toList

/-- A SEND_STOP for the button. -/
def stopOk : RepeatEvent := .stop 7 (okLine "SEND_STOP") (some "tv ok".toList)

/-- The daemon after SEND_START. -/
def startedDaemon : Daemon :=
  (sendStart sendingEnv 7 (okLine "SEND_START") (some "tv ok".toList) fourTimesDaemon).2

theorem sendingEnv_oneFrameEach : OneFrameEach sendingEnv fourTimesRemote 0 :=
  oneFrameEach_initSendDriver (fun _ _ _ _ _ => rfl) (by decide) (by decide) (by decide) 0

/-- One SEND_STOP comes at once: all four frames are sent. -/
theorem sendStart_frame_bounds_one_stop :
    let events := [stopOk, .alarm, .alarm, .alarm]
    (fourTimesRemote.minRepeat + 1 ≤
        (framesSent (run (repeatStep sendingEnv) startedDaemon events).trace : ℤ) -
          framesSent fourTimesDaemon.trace ∧
      (framesSent (run (repeatStep sendingEnv) startedDaemon events).trace : ℤ) -
          framesSent fourTimesDaemon.trace ≤ sendingEnv.repeatMax + 1) ↔
      fourTimesRemote.minRepeat ≤ 0 ∨
        sendingEnv.repeatMax < 2 ^ 31 ∧
          (fourTimesRemote.minRepeat = sendingEnv.repeatMax ∨
            earlyStops fourTimesRemote.minRepeat.toNat events ≤ 1) :=
  sendStart_frame_bounds sendingEnv 7 (okLine "SEND_START") (some "tv ok".toList) (-1) 0 0
    fourTimesDaemon startedDaemon _ (by decide) rfl rfl rfl (by decide) sendingEnv_oneFrameEach
    (Prod.ext (by decide +kernel) rfl) (by decide +kernel) (by decide +kernel)

/-- A second SEND_STOP ends the transmission after its first frame. -/
theorem sendStart_frame_bounds_fails :
    ¬ ∀ (env : Env) (fd : ℕ) (message : List Char) (arguments : Option (List Char)) (reps : ℤ)
      (a c : ℕ) (d d₁ : Daemon) (events : List RepeatEvent), env.sendMode ≠ 0 →
      parseRc env d arguments false 2 = .ok ⟨some a, some c, reps⟩ → d.repeatRemote = none →
      ((d.heap a).codes[c]?).map IrNcode.next = some [] →
      (d.heap a).minRepeat ≤ env.repeatMax → OneFrameEach env (d.heap a) c →
      sendStart env fd message arguments d = (true, d₁) →
      framesSent d₁.trace = framesSent d.trace + 1 → UntilIdle env a c d₁ events →
      (d.heap a).minRepeat + 1 ≤
          (framesSent (run (repeatStep env) d₁ events).trace : ℤ) - framesSent d.trace ∧
        (framesSent (run (repeatStep env) d₁ events).trace : ℤ) - framesSent d.trace ≤
          env.repeatMax + 1 := by
  intro h
  have hbounds := h sendingEnv 7 (okLine "SEND_START") (some "tv ok".toList) (-1) 0 0
    fourTimesDaemon startedDaemon [stopOk, stopOk] (by decide) rfl rfl rfl (by decide)
    sendingEnv_oneFrameEach (Prod.ext (by decide +kernel) rfl) (by decide +kernel)
    (by decide +kernel)
  have hone : framesSent (run (repeatStep sendingEnv) startedDaemon [stopOk, stopOk]).trace = 1 ∧
      framesSent fourTimesDaemon.trace = 0 := by decide +kernel
  have hlower : (3 : ℤ) + 1 ≤
      (framesSent (run (repeatStep sendingEnv) startedDaemon [stopOk, stopOk]).trace : ℤ) -
        framesSent fourTimesDaemon.trace := hbounds.1
  rw [hone.1, hone.2] at hlower
  omega

end Lirc
