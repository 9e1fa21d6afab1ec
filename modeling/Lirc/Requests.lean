import Lirc.HardwareUse

/-!
What a line of a client asks for, in the state that it finds: a transmission, the end of one, an
event for all clients, or no more than a reply. The words of the line and the state decide it;
`execLine_answered` says what becomes of each request.
-/

namespace Lirc

open CString

/-- What a line asks for, with the remote, the code and the arguments that it stands for. -/
inductive Request
  /-- Only a reply is written. -/
  | reply
  | send (once : Bool) (a c : ℕ) (reps : ℤ)
  /-- What is repeated ends. -/
  | stop (a : ℕ)
  /-- What is repeated goes on for so many frames. -/
  | postpone (a : ℕ) (frames : ℤ)
  | simulate (event : List Char)
  deriving DecidableEq

section Functions

variable (env : Env)

/-- The request of SEND_ONCE and SEND_START. -/
def sendRequest (once : Bool) (arguments : Option (List Char)) (d : Daemon) : Request :=
  if env.sendMode = 0 then .reply
  else
    match parseRc env d arguments once 2 with
    | .ok ⟨some a, some c, reps⟩ => if d.repeatRemote.isSome then .reply else .send once a c reps
    | _ => .reply

instance decidableStopMatches (d : Daemon) (rc : RcArgs) (a c : ℕ) :
    Decidable (StopMatches d rc a c) := inferInstanceAs (Decidable (_ ∧ _))

/-- The request of SEND_STOP. -/
def stopRequest (arguments : Option (List Char)) (d : Daemon) : Request :=
  match parseRc env d arguments false 0, d.repeatRemote, d.repeatCode with
  | .ok rc, some a, some c =>
      if StopMatches d rc a c then
        if framesDone env (d.heap a) < (d.heap a).minRepeat then
          .postpone a ((d.heap a).minRepeat - framesDone env (d.heap a))
        else .stop a
      else .reply
  | _, _, _ => .reply

/-- The request of SIMULATE. -/
def simulateRequest (arguments : Option (List Char)) (d : Daemon) : Request :=
  match arguments with
  | none => .reply
  | some event =>
      if env.allowSimulate && validEvent event && env.strdupOk d.clock then .simulate event
      else .reply

/-- The first word of the line is the name of this directive. -/
def HasDirective (line : List Char) (name : Name) : Prop :=
  ∃ directive rest, strtok whiteSpace (stripCR line) = some (directive, rest) ∧
    strcaseeq directive name = true

/-- What the line asks for. -/
def request (d : Daemon) (line : List Char) : Request :=
  match strtok whiteSpace (stripCR line) with
  | none => .reply
  | some (directive, rest) =>
      if strcaseeq directive "SEND_ONCE".toList then sendRequest env true (strtokRest rest) d
      else if strcaseeq directive "SEND_START".toList then
        sendRequest env false (strtokRest rest) d
      else if strcaseeq directive "SEND_STOP".toList then stopRequest env (strtokRest rest) d
      else if strcaseeq directive "SIMULATE".toList then simulateRequest env (strtokRest rest) d
      else .reply

/-- What becomes of a request of the client `fd`. -/
inductive Answered (fd : ℕ) (line : List Char) (d : Daemon) : Request → Bool × Daemon → Prop
  | reply {x : Bool × Daemon} (h : Replies fd d x.2) : Answered fd line d .reply x
  | send {once : Bool} {a c : ℕ} {reps : ℤ} (hidle : d.repeatRemote = none)
      (honce : once = true → HasDirective line "SEND_ONCE".toList) :
      Answered fd line d (.send once a c reps)
        (sendFirst env fd (line ++ ['\n']) once a c reps d)
  | stop {a c : ℕ} (hremote : d.repeatRemote = some a) (hcode : d.repeatCode = some c) :
      Answered fd line d (.stop a) (sendSuccess env fd (line ++ ['\n']) (stopRepeating a d))
  | postpone {a c : ℕ} {frames : ℤ} (hremote : d.repeatRemote = some a)
      (hcode : d.repeatCode = some c) :
      Answered fd line d (.postpone a frames)
        (sendSuccess env fd (line ++ ['\n'])
          (d.setRemote a { d.heap a with repeatCountdown := frames }))
  | simulate {event : List Char} (hallow : env.allowSimulate = true) :
      Answered fd line d (.simulate event)
        (sendSuccess env fd (line ++ ['\n']) (broadcastMessage env (event ++ ['\n'])
          (d.tick.log (.formatted (event ++ ['\n']) (event.length + 2)))))

section Cases

variable (fd : ℕ) {line : List Char} {d : Daemon}

theorem sendCore_answered (once : Bool) (arguments : Option (List Char))
    (honce : once = true → HasDirective line "SEND_ONCE".toList) :
    Answered env fd line d (sendRequest env once arguments d)
      (sendCore env once fd (line ++ ['\n']) arguments d) := by
  have herror : ∀ text, Answered env fd line d .reply (sendError env fd (line ++ ['\n']) text d) :=
    fun text => .reply (sendError_replies env fd _ text d)
  unfold sendRequest sendCore
  split
  · apply herror
  · split
    · next a c reps hparse =>
        simp only [hparse]
        split
        · apply herror
        · next hidle => exact .send (by simpa using hidle) honce
    · next hnot =>
        split
        · apply herror
        · next a c reps hparse => exact absurd hparse (hnot a c reps)
        · exact .reply (Replies.refl fd d)

theorem sendStop_answered (arguments : Option (List Char)) :
    Answered env fd line d (stopRequest env arguments d)
      (sendStop env fd (line ++ ['\n']) arguments d) := by
  have herror : ∀ text, Answered env fd line d .reply (sendError env fd (line ++ ['\n']) text d) :=
    fun text => .reply (sendError_replies env fd _ text d)
  rw [stopRequest, sendStop]
  cases parseRc env d arguments false 0 with
  | error text => exact herror text
  | ok rc =>
      cases hremote : d.repeatRemote with
      | none => exact herror _
      | some a =>
          cases hcode : d.repeatCode with
          | none => exact herror _
          | some c =>
              dsimp only
              by_cases hname : (rc.remote.any fun a' =>
                  !strcaseeq (d.heap a').name (d.heap a).name) = true
              · rw [if_pos hname, if_neg fun h => by rw [h.1] at hname; cases hname]
                exact herror _
              · by_cases hbutton :
                    ((rc.remote.bind fun a' => rc.code.map ((d.heap a').codeName ·)).any
                      fun name => !strcaseeq name ((d.heap a).codeName c)) = true
                · rw [if_neg hname, if_pos hbutton,
                    if_neg fun h => by rw [h.2] at hbutton; cases hbutton]
                  exact herror _
                · have hmatch : StopMatches d rc a c :=
                    ⟨Bool.eq_false_of_not_eq_true hname, Bool.eq_false_of_not_eq_true hbutton⟩
                  rw [if_neg hname, if_neg hbutton, if_pos hmatch]
                  by_cases hdone : framesDone env (d.heap a) < (d.heap a).minRepeat
                  · rw [if_pos hdone]
                    exact (if_pos hdone).symm ▸ .postpone hremote hcode
                  · rw [if_neg hdone]
                    exact (if_neg hdone).symm ▸ .stop hremote hcode

theorem simulate_answered (arguments : Option (List Char)) :
    Answered env fd line d (simulateRequest env arguments d)
      (simulate env fd (line ++ ['\n']) arguments d) := by
  have herror : ∀ text d', Replies fd d d' →
      Answered env fd line d .reply (sendError env fd (line ++ ['\n']) text d') :=
    fun text d' h => .reply (h.trans (sendError_replies env fd _ text d'))
  unfold simulateRequest simulate
  cases hallow : env.allowSimulate with
  | false =>
      cases arguments with
      | none => exact herror _ d (Replies.refl fd d)
      | some event => exact herror _ d (Replies.refl fd d)
  | true =>
      cases arguments with
      | none => exact herror _ d (Replies.refl fd d)
      | some event =>
          simp only [Bool.not_true, Bool.true_and, Bool.false_eq_true, if_false]
          cases validEvent event with
          | false => exact herror _ d (Replies.refl fd d)
          | true =>
              cases env.strdupOk d.clock with
              | false => exact herror _ d.tick (Replies.tick fd d)
              | true => exact .simulate hallow

theorem strcaseeq_left {a b : Name} (h : strcaseeq a b = true) (c : Name) :
    strcaseeq a c = strcaseeq b c := by
  simp only [strcaseeq, beq_iff_eq] at h
  simp only [strcaseeq, h]

/-- What becomes of a line. -/
theorem execLine_answered (line : List Char) (d : Daemon) :
    Answered env fd line d (request env d line) (execLine (lircd env fd) line d) := by
  rw [request, execLine]
  cases htok : strtok whiteSpace (stripCR line) with
  | none => exact .reply (sendError_replies env fd _ _ d)
  | some token =>
      obtain ⟨directive, rest⟩ := token
      simp only [lircd, List.find?_cons]
      cases hlist : strcaseeq directive "LIST".toList with
      | true =>
          simp only [strcaseeq_left hlist]
          exact .reply (list_replies env fd _ _ d)
      | false =>
      cases honce : strcaseeq directive "SEND_ONCE".toList with
      | true => exact sendCore_answered env fd true _ fun _ => ⟨directive, rest, htok, honce⟩
      | false =>
      cases hstart : strcaseeq directive "SEND_START".toList with
      | true => exact sendCore_answered env fd false _ fun h => by cases h
      | false =>
      cases hstop : strcaseeq directive "SEND_STOP".toList with
      | true => exact sendStop_answered env fd _
      | false =>
      cases hversion : strcaseeq directive "VERSION".toList with
      | true =>
          simp only [strcaseeq_left hversion]
          exact .reply (version_replies env fd _ _ d)
      | false =>
      cases hmask : strcaseeq directive "SET_TRANSMITTERS".toList with
      | true =>
          simp only [strcaseeq_left hmask]
          exact .reply (setTransmitters_replies env fd _ _ d)
      | false =>
      cases strcaseeq directive "SIMULATE".toList with
      | true => exact simulate_answered env fd _
      | false => exact .reply (sendError_replies env fd _ _ d)

end Cases

end Functions

end Lirc
