import Lirc.Daemon

/-!
What a line of a client does to the daemon: it is answered, or it starts or
stops a transmission, or it simulates an event. Everything that is proved about
the commands of clients is proved for these few cases.
-/

namespace Lirc

open CString

@[simp] theorem setRemote_heap_self (d : Daemon) (a : ℕ) (r : IrRemote) :
    (d.setRemote a r).heap a = r := Function.update_self ..

theorem setRemote_heap_ne (d : Daemon) {a b : ℕ} (r : IrRemote) (h : b ≠ a) :
    (d.setRemote a r).heap b = d.heap b := Function.update_of_ne h ..

/-- What is noted while a client is answered. -/
def Event.IsReply (fd : ℕ) : Event → Prop
  | .formatted .. => True
  | .wrote fd' _ => fd' = fd
  | .broken fd' => fd' = fd
  | _ => False

/-- Time passes and a client is answered; nothing else changes. -/
def Replies (fd : ℕ) (d d' : Daemon) : Prop :=
  ∃ clock es, d' = { d with clock := clock, trace := d.trace ++ es } ∧ ∀ e ∈ es, e.IsReply fd

namespace Replies

variable {fd : ℕ} {d d' d'' : Daemon}

theorem refl (fd : ℕ) (d : Daemon) : Replies fd d d :=
  ⟨d.clock, [], by rw [List.append_nil], by simp⟩

theorem trans (h : Replies fd d d') (h' : Replies fd d' d'') : Replies fd d d'' := by
  obtain ⟨clock, es, rfl, hes⟩ := h
  obtain ⟨clock', es', rfl, hes'⟩ := h'
  refine ⟨clock', es ++ es', by rw [← List.append_assoc], ?_⟩
  exact List.forall_mem_append.mpr ⟨hes, hes'⟩

theorem tick (fd : ℕ) (d : Daemon) : Replies fd d d.tick :=
  ⟨d.clock + 1, [], by rw [List.append_nil]; rfl, by simp⟩

theorem log {e : Event} (d : Daemon) (he : e.IsReply fd) : Replies fd d (d.log e) :=
  ⟨d.clock, [e], rfl, by simpa using he⟩

end Replies

section Replying

variable (env : Env) (fd : ℕ)

theorem writeSocket_replies (bytes : List Char) (d : Daemon) :
    Replies fd d (writeSocket env fd bytes d).2 := by
  rw [writeSocket]
  split
  · exact (Replies.tick fd d).trans (Replies.log _ rfl)
  · exact (Replies.tick fd d).trans (Replies.log _ rfl)

theorem Replies.andThen {d : Daemon} {x : Bool × Daemon} {f : Daemon → Bool × Daemon}
    (hx : Replies fd d x.2) (hf : ∀ d, Replies fd d (f d).2) :
    Replies fd d (andThen x f).2 := by
  rw [Lirc.andThen]
  split
  · exact hx.trans (hf x.2)
  · exact hx

theorem writeAll_replies (texts : List (List Char)) (d : Daemon) :
    Replies fd d (writeAll env fd texts d).2 := by
  induction texts generalizing d with
  | nil => exact Replies.refl fd d
  | cons bytes texts ih => exact Replies.andThen fd (writeSocket_replies env fd bytes d) ih

theorem sendSuccess_replies (message : List Char) (d : Daemon) :
    Replies fd d (sendSuccess env fd message d).2 := writeAll_replies env fd _ d

theorem sendError_replies (message text : List Char) (d : Daemon) :
    Replies fd d (sendError env fd message text d).2 := by
  have htext : Replies fd d (d.log (.formatted text (packetSize + 1))) := Replies.log d trivial
  have hlines : Replies fd (d.log (.formatted text (packetSize + 1)))
      ((d.log (.formatted text (packetSize + 1))).log
        (.formatted (countLine (text.count '\n')) 4)) := Replies.log _ trivial
  exact (htext.trans hlines).trans (writeAll_replies env fd _ _)

theorem sendLines_replies (limit : ℕ) (replacement : List Char) (texts : List (List Char))
    (d : Daemon) : Replies fd d (sendLines env fd limit replacement texts d).2 := by
  induction texts generalizing d with
  | nil => exact Replies.refl fd d
  | cons text texts ih =>
      have hlog : Replies fd d (d.log (.formatted (text.take (limit - 1)) (packetSize + 1))) :=
        Replies.log d trivial
      exact Replies.andThen fd (hlog.trans (writeSocket_replies env fd _ _)) ih

theorem sendList_replies (message : List Char) (limit : ℕ) (replacement : List Char)
    (texts : List (List Char)) (d : Daemon) :
    Replies fd d (sendList env fd message limit replacement texts d).2 := by
  refine Replies.andThen fd (writeAll_replies env fd _ d) fun d => ?_
  dsimp only
  split
  · exact writeAll_replies env fd _ d
  · have hlog : Replies fd d
        (d.log (.formatted (countLine texts.length) (packetSize + 1))) := Replies.log d trivial
    refine Replies.andThen fd (hlog.trans (writeAll_replies env fd _ _)) fun d => ?_
    exact Replies.andThen fd (sendLines_replies env fd _ _ _ d) (writeAll_replies env fd _)

theorem sendName_replies (message : List Char) (code : IrNcode) (d : Daemon) :
    Replies fd d (sendName env fd message code d).2 := by
  refine Replies.andThen fd (writeAll_replies env fd _ d) fun d => ?_
  exact Replies.andThen fd (sendLines_replies env fd _ _ _ d) (writeAll_replies env fd _)

theorem list_replies (message : List Char) (arguments : Option (List Char)) (d : Daemon) :
    Replies fd d (list env fd message arguments d).2 := by
  rw [list]
  split
  · exact sendError_replies env fd message _ d
  · split
    · exact sendList_replies env fd message _ _ _ d
    · split
      · exact sendList_replies env fd message _ _ _ d
      · exact sendName_replies env fd message _ d

theorem setTransmitters_replies (message : List Char) (arguments : Option (List Char))
    (d : Daemon) : Replies fd d (setTransmitters env fd message arguments d).2 := by
  have herror : ∀ text d, Replies fd d (sendError env fd message text d).2 :=
    fun text d => sendError_replies env fd message text d
  unfold setTransmitters
  split
  · apply herror
  · split
    · apply herror
    · split
      · apply herror
      · split
        · apply herror
        · split
          · apply herror
          · refine (Replies.tick fd d).trans ?_
            simp only []
            split
            · apply herror
            · split
              · apply herror
              · exact sendSuccess_replies env fd message _

theorem version_replies (message : List Char) (arguments : Option (List Char)) (d : Daemon) :
    Replies fd d (version env fd message arguments d).2 := by
  unfold version
  split
  · exact sendError_replies env fd message _ d
  · have hlog : Replies fd d
        (d.log (.formatted ("1\n".toList ++ lircVersion ++ ['\n']) (packetSize + 1))) :=
      Replies.log d trivial
    exact hlog.trans (writeAll_replies env fd _ _)

end Replying

/-! ### The cases -/

/-- The remote and the code that a SEND_STOP names, if it names any, are those
that are being repeated. -/
def StopMatches (d : Daemon) (rc : RcArgs) (a c : ℕ) : Prop :=
  (rc.remote.any fun a' => !strcaseeq (d.heap a').name (d.heap a).name) = false ∧
    ((rc.remote.bind fun a' => rc.code.map ((d.heap a').codeName ·)).any
      fun name => !strcaseeq name ((d.heap a).codeName c)) = false

/-- The frames that `send_stop` takes to be done, without the first one. -/
def framesDone (env : Env) (r : IrRemote) : ℤ :=
  Int.bmod ((env.repeatMax : ℤ) - r.repeatCountdown) (2 ^ 32)

/-- What a line of the client `fd` leads to from the state `d`. -/
inductive Handled (env : Env) (fd : ℕ) (d : Daemon) : Bool × Daemon → Prop
  | replied {x : Bool × Daemon} (h : Replies fd d x.2) : Handled env fd d x
  | sent {once : Bool} {message : List Char} {arguments : Option (List Char)} {a c : ℕ} {reps : ℤ}
      (hmode : env.sendMode ≠ 0)
      (hparse : parseRc env d arguments once 2 = .ok ⟨some a, some c, reps⟩)
      (hidle : d.repeatRemote = none) :
      Handled env fd d (sendFirst env fd message once a c reps d)
  | postponed {message : List Char} {arguments : Option (List Char)} {rc : RcArgs} {a c : ℕ}
      (hparse : parseRc env d arguments false 0 = .ok rc)
      (hremote : d.repeatRemote = some a) (hcode : d.repeatCode = some c)
      (hmatch : StopMatches d rc a c) (hdone : framesDone env (d.heap a) < (d.heap a).minRepeat) :
      Handled env fd d (sendSuccess env fd message (d.setRemote a
        { d.heap a with
          repeatCountdown := (d.heap a).minRepeat - framesDone env (d.heap a) }))
  | stopped {message : List Char} {arguments : Option (List Char)} {rc : RcArgs} {a c : ℕ}
      (hparse : parseRc env d arguments false 0 = .ok rc)
      (hremote : d.repeatRemote = some a) (hcode : d.repeatCode = some c)
      (hmatch : StopMatches d rc a c)
      (hdone : ¬ framesDone env (d.heap a) < (d.heap a).minRepeat) :
      Handled env fd d (sendSuccess env fd message (stopRepeating a d))
  | simulated {message event : List Char} (hallow : env.allowSimulate = true)
      (hevent : validEvent event = true) :
      Handled env fd d (sendSuccess env fd message (broadcastMessage env (event ++ ['\n'])
        (d.tick.log (.formatted (event ++ ['\n']) (event.length + 2)))))

section Cases

variable (env : Env) (fd : ℕ)

theorem simulate_handled (message : List Char) (arguments : Option (List Char)) (d : Daemon) :
    Handled env fd d (simulate env fd message arguments d) := by
  have herror : ∀ text, Handled env fd d (sendError env fd message text d) :=
    fun text => .replied (sendError_replies env fd message text d)
  unfold simulate
  split
  · apply herror
  · next hallow =>
      split
      · apply herror
      · next event =>
          split
          · apply herror
          · next hevent =>
              split
              · exact .replied ((Replies.tick fd d).trans (sendError_replies env fd message _ _))
              · exact .simulated (by simpa using hallow) (by simpa using hevent)

theorem sendCore_handled (once : Bool) (message : List Char) (arguments : Option (List Char))
    (d : Daemon) : Handled env fd d (sendCore env once fd message arguments d) := by
  have herror : ∀ text, Handled env fd d (sendError env fd message text d) :=
    fun text => .replied (sendError_replies env fd message text d)
  rw [sendCore]
  split
  · apply herror
  · next hmode =>
      split
      · apply herror
      · next a c reps hparse =>
          split
          · apply herror
          · next hidle => exact .sent hmode hparse (by simpa using hidle)
      · exact .replied (Replies.refl fd d)

theorem sendStop_handled (message : List Char) (arguments : Option (List Char)) (d : Daemon) :
    Handled env fd d (sendStop env fd message arguments d) := by
  have herror : ∀ text, Handled env fd d (sendError env fd message text d) :=
    fun text => .replied (sendError_replies env fd message text d)
  rw [sendStop]
  split
  · apply herror
  · next rc hparse =>
      split
      · next a c hremote hcode =>
          simp only []
          split
          · apply herror
          · next hname =>
              split
              · apply herror
              · next hbutton =>
                  have hmatch : StopMatches d rc a c :=
                    ⟨by simpa only [Bool.not_eq_true] using hname,
                      by simpa only [Bool.not_eq_true] using hbutton⟩
                  split
                  · next hdone => exact .postponed hparse hremote hcode hmatch hdone
                  · next hdone => exact .stopped hparse hremote hcode hmatch hdone
      · apply herror

/-- What one line does. -/
theorem execLine_handled (line : List Char) (d : Daemon) :
    Handled env fd d (execLine (lircd env fd) line d) := by
  rw [execLine]
  cases htok : strtok whiteSpace (stripCR line) with
  | none => exact .replied (sendError_replies env fd _ _ d)
  | some token =>
      obtain ⟨directive, rest⟩ := token
      simp only [lircd, List.find?_cons]
      cases strcaseeq directive "LIST".toList with
      | true => exact .replied (list_replies env fd _ _ d)
      | false =>
      cases strcaseeq directive "SEND_ONCE".toList with
      | true => exact sendCore_handled env fd true _ _ d
      | false =>
      cases strcaseeq directive "SEND_START".toList with
      | true => exact sendCore_handled env fd false _ _ d
      | false =>
      cases strcaseeq directive "SEND_STOP".toList with
      | true => exact sendStop_handled env fd _ _ d
      | false =>
      cases strcaseeq directive "VERSION".toList with
      | true => exact .replied (version_replies env fd _ _ d)
      | false =>
      cases strcaseeq directive "SET_TRANSMITTERS".toList with
      | true => exact .replied (setTransmitters_replies env fd _ _ d)
      | false =>
      cases strcaseeq directive "SIMULATE".toList with
      | true => exact simulate_handled env fd _ _ d
      | false => exact .replied (sendError_replies env fd _ _ d)

/-! ### The first frame -/

/-- The daemon after `hw.send_func` has been called for the first frame. -/
def firstFrame (a c : ℕ) (d : Daemon) : Bool × Daemon := sendIrNcode env a c (startSending a c d)

/-- What `sendFirst` leads to. -/
inductive FirstSent (once : Bool) (message : List Char) (a c : ℕ) (reps : ℤ) (d : Daemon) :
    Bool × Daemon → Prop
  | failed {x : Bool × Daemon} (hsent : (firstFrame env a c d).1 = false)
      (h : Replies fd (firstFrame env a c d).2 x.2) : FirstSent once message a c reps d x
  | single {x : Bool × Daemon} (hsent : (firstFrame env a c d).1 = true)
      (hmore : moreFrames a c (noteSent env once a c reps (firstFrame env a c d).2) = false)
      (h : Replies fd (noteSent env once a c reps (firstFrame env a c d).2) x.2) :
      FirstSent once message a c reps d x
  | waiting {noted : Daemon} (hsent : (firstFrame env a c d).1 = true)
      (hnoted : noted = noteSent env once a c reps (firstFrame env a c d).2)
      (hmore : moreFrames a c noted = true) (honce : once = true) :
      FirstSent once message a c reps d
        (true, ({ noted with
          repeatRemote := some a, repeatCode := some c,
          repeatMessage := some message, repeatFd := some fd }.tick).setTimer
            (noted.heap a).minRemainingGap)
  | outOfMemory {noted : Daemon} {x : Bool × Daemon} (hsent : (firstFrame env a c d).1 = true)
      (hnoted : noted = noteSent env once a c reps (firstFrame env a c d).2)
      (hmore : moreFrames a c noted = true) (honce : once = true)
      (h : Replies fd
        { noted with repeatRemote := none, repeatCode := none, repeatMessage := none } x.2) :
      FirstSent once message a c reps d x
  | repeating {noted d' : Daemon} (hsent : (firstFrame env a c d).1 = true)
      (hnoted : noted = noteSent env once a c reps (firstFrame env a c d).2)
      (hmore : moreFrames a c noted = true) (honce : once = false)
      (h : Replies fd { noted with repeatRemote := some a, repeatCode := some c } d') :
      FirstSent once message a c reps d (true, d'.setTimer (noted.heap a).minRemainingGap)
  | unanswered {noted d' : Daemon} (hsent : (firstFrame env a c d).1 = true)
      (hnoted : noted = noteSent env once a c reps (firstFrame env a c d).2)
      (hmore : moreFrames a c noted = true) (honce : once = false)
      (h : Replies fd { noted with repeatRemote := some a, repeatCode := some c } d') :
      FirstSent once message a c reps d (false, { d' with repeatRemote := none, repeatCode := none })

theorem sendFirst_cases (once : Bool) (message : List Char) (a c : ℕ) (reps : ℤ) (d : Daemon) :
    FirstSent env fd once message a c reps d (sendFirst env fd message once a c reps d) := by
  unfold sendFirst
  simp only []
  split
  · next hsent =>
      split
      · next hmore =>
          unfold startRepeating
          simp only []
          split
          · next honce =>
              split
              · exact .waiting hsent rfl hmore honce
              · refine .outOfMemory hsent rfl hmore honce ?_
                exact (Replies.tick fd _).trans (sendError_replies env fd message _ _)
          · next honce =>
              have hreply := sendSuccess_replies env fd message
                { noteSent env once a c reps (firstFrame env a c d).2 with
                  repeatRemote := some a, repeatCode := some c }
              split
              · exact .repeating hsent rfl hmore (by simpa using honce) hreply
              · exact .unanswered hsent rfl hmore (by simpa using honce) hreply
      · next hmore =>
          exact .single hsent (Bool.eq_false_of_not_eq_true hmore) (sendSuccess_replies env fd message _)
  · next hsent =>
      exact .failed (Bool.eq_false_of_not_eq_true hsent) (sendError_replies env fd message _ _)

end Cases

end Lirc
