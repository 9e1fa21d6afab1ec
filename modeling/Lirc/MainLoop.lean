import Lirc.Directives
import Lirc.PacketLoop

/-!
The main loop of lircd as a step on the state of the daemon. What the loop does
between two calls of `select` is cut into single events; they may follow each
other in every order.
-/

namespace Lirc

/-- `FD_SETSIZE` -/
def fdSetsize : ℕ := 1024

/-- `MAX_CLIENTS` -/
def maxClients : ℕ := (fdSetsize - 6) / 2

section Functions

variable (env : Env)

/-- `add_client`, with the descriptor that `accept` returns. -/
def addClient (fd : ℕ) (type : ClientType) (d : Daemon) : Daemon :=
  if fdSetsize ≤ fd ∨ maxClients ≤ d.clin then d.log (.closed fd)
  else
    let added := { d with
      cliType := Function.update d.cliType d.clin type, clis := Function.update d.clis d.clin fd }
    let added := if useHw env added then added else added.log .init
    { added with clin := added.clin + 1 }

/-- The client at the index `i` of `clis` is ready to be read. The client that
waits for a reply is not watched. -/
def serveClient (i : ℕ) (reads : List (Option (List Char))) (d : Daemon) : Daemon :=
  if i < d.clin ∧ d.repeatFd ≠ some (d.clis i) then
    match getCommand (lircd env (d.clis i)) reads d with
    | none => d -- a read does not return more than there is room for
    | some (ok, d, _) => if ok then d else removeClient env (d.clis i) d
  else d

/-- `SIGALRM`: the signal handler sets the flag. -/
def expire (d : Daemon) : Daemon := if 0 < d.timer then { d with timer := 0, alrm := true } else d

/-- The flag is found set. When the timer that `dosigalrm` starts is `late`, it
expires before the flag is cleared. -/
def handleAlarm (late : Bool) (d : Daemon) : Daemon :=
  if d.alrm then
    let done := dosigalrm env d
    { if late then expire done else done with alrm := false }
  else d

/-- `hw.fd != -1`: a driver opens its device when it is initialised. -/
def hwOpen (trace : List Event) : Bool :=
  trace.foldl (fun on e => if e = .init then true else if e = .deinit then false else on) false

/-- The attempt to initialise the hardware again. -/
def reconnect (d : Daemon) : Daemon :=
  if !hwOpen d.trace && useHw env d then d.log .init else d

/-- What happens in the loop. -/
inductive LoopEvent
  | connect (fd : ℕ) (type : ClientType)
  | input (i : ℕ) (reads : List (Option (List Char)))
  | expire
  | alarm (late : Bool)
  | reconnect
  /-- The driver has received something: it changes the remotes, and these
  messages are sent to all clients. -/
  | received (heap : ℕ → IrRemote) (messages : List (List Char))

/-- One event. -/
def loopStep (d : Daemon) : LoopEvent → Daemon
  | .connect fd type => addClient env fd type d
  | .input i reads => serveClient env i reads d
  | .expire => expire d
  | .alarm late => handleAlarm env late d
  | .reconnect => reconnect env d
  | .received heap messages =>
      messages.foldl (fun d message => broadcastMessage env message d) { d with heap := heap }

end Functions

/-- The daemon before its first client: nothing is sent and nothing has
happened. -/
structure AtStart (d : Daemon) : Prop where
  clin : d.clin = 0
  repeatRemote : d.repeatRemote = none
  repeatCode : d.repeatCode = none
  repeatFd : d.repeatFd = none
  repeatMessage : d.repeatMessage = none
  timer : d.timer = 0
  alrm : d.alrm = false
  trace : d.trace = []

/-! ### The fields that an operation leaves -/

theorem setTimer_eq (d : Daemon) (usec : ℤ) :
    d.setTimer usec =
      { d with timer := if 0 ≤ usec ∧ usec < 1000000 then usec else d.timer } := by
  rw [Daemon.setTimer]
  split
  · rfl
  · rfl

theorem expire_eq (d : Daemon) :
    expire d = { d with
      timer := if 0 < d.timer then 0 else d.timer, alrm := 0 < d.timer || d.alrm } := by
  rw [expire]
  split
  · next h => simp [h]
  · next h => simp [h]

end Lirc
