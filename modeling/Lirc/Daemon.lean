import Lirc.Command
import Lirc.Config
import Lirc.Transmit

/-!
`lircd.c`: the state of the daemon, the replies to its clients and the
functions of its directives.

A pointer to a remote is an address in the heap, a pointer to a code its index
in the remote. The driver and the system are an environment whose answers
depend on how many it has given. What the daemon does to the outside and what
it formats into arrays is noted as a list of events.
-/

namespace Lirc

open CString Numeral

/-! ### The state -/

/-- A remote that only a transmission has changed: what `init_send` counts and
toggles, and the positions in the sequences of codes. -/
def Transmits (r r' : IrRemote) : Prop :=
  ∃ countdown toggle gmin gmax codes,
    r' = { r with
      repeatCountdown := countdown, toggleMaskState := toggle, minRemainingGap := gmin,
      maxRemainingGap := gmax, codes := codes } ∧
    codes.map (fun c => { c with transmitState := [] }) =
      r.codes.map (fun c => { c with transmitState := [] })

/-- The driver, the options and the system. -/
structure Env where
  /-- `hw.send_mode` -/
  sendMode : ℕ := 0
  /-- `hw.ioctl_func` is there and `LIRC_CAN_SET_TRANSMITTER_MASK` is set. -/
  transmitterMask : Bool := false
  allowSimulate : Bool := false
  useUinput : Bool := false
  repeatMax : ℕ := 600
  repeatMax_lt : repeatMax < 2 ^ 32 := by decide
  /-- `hw.send_func`: whether a frame is being repeated, the remote and its code,
  and the send buffer. -/
  sendFunc : ℕ → Bool → IrRemote → ℕ → SBuf → Bool × IrRemote × SBuf
  /-- A driver changes no more than `init_send` does. -/
  sendFunc_transmits : ∀ n rep r c buf, Transmits r (sendFunc n rep r c buf).2.1
  /-- `hw.ioctl_func(LIRC_SET_TRANSMITTER_MASK, &channels)` -/
  ioctl : ℕ → ℕ → ℤ
  /-- A write to a descriptor succeeds. -/
  writeOk : ℕ → ℕ → Bool
  strdupOk : ℕ → Bool
  now : ℕ → ℕ

/-- What the daemon does. -/
inductive Event
  /-- A text is formatted into an array of so many bytes. -/
  | formatted (text : List Char) (size : ℕ)
  | wrote (fd : ℕ) (bytes : List Char)
  | broken (fd : ℕ)
  | closed (fd : ℕ)
  /-- `hw.send_func`: the remote it is given with the index of the code, whether
  a frame is being repeated, and whether it succeeds. -/
  | sent (remote : IrRemote) (code : ℕ) (rep ok : Bool)
  | init
  | deinit
  deriving DecidableEq, Repr

inductive ClientType
  | unknown | localClient | remoteClient
  deriving DecidableEq, Repr

/-- The variables of lircd. The arrays of clients keep what stands behind
`clin`. -/
structure Daemon where
  clock : ℕ
  heap : ℕ → IrRemote
  remotes : List ℕ
  repeatRemote : Option ℕ
  repeatCode : Option ℕ
  repeatFd : Option ℕ
  repeatMessage : Option (List Char)
  /-- The interval timer in microseconds; 0 when it is not armed. -/
  timer : ℤ
  alrm : Bool
  clis : ℕ → ℕ
  cliType : ℕ → ClientType
  clin : ℕ
  sendBuffer : SBuf
  trace : List Event

namespace Daemon

variable (d : Daemon)

def log (e : Event) : Daemon := { d with trace := d.trace ++ [e] }

def tick : Daemon := { d with clock := d.clock + 1 }

def setRemote (a : ℕ) (r : IrRemote) : Daemon := { d with heap := Function.update d.heap a r }

/-- `setitimer`: a number of microseconds from 1000000 on is refused. -/
def setTimer (usec : ℤ) : Daemon := if 0 ≤ usec ∧ usec < 1000000 then { d with timer := usec } else d

/-- `get_ir_remote(remotes, name)` -/
def getIrRemote (name : List Char) : Option ℕ :=
  d.remotes.find? fun a => strcaseeq (d.heap a).name name

end Daemon

/-- `get_code_by_name` -/
def getCodeByName (r : IrRemote) (name : List Char) : Option ℕ :=
  r.codes.findIdx? fun c => strcaseeq c.name name

/-- The name of a code of the remote. -/
def IrRemote.codeName (r : IrRemote) (c : ℕ) : List Char :=
  (r.codes[c]?.map IrNcode.name).getD []

/-- `code->transmit_state = ts` -/
def IrRemote.setTransmitState (r : IrRemote) (c : ℕ) (ts : List IrCode) : IrRemote :=
  { r with codes := r.codes.modify c fun code => { code with transmitState := ts } }

/-- What follows is done only when it has gone well so far, as in a chain of
`&&`. -/
def andThen {σ : Type*} (x : Bool × σ) (f : σ → Bool × σ) : Bool × σ :=
  if x.1 then f x.2 else (false, x.2)

section Functions

variable (env : Env)

/-- `use_hw` -/
def useHw (d : Daemon) : Bool := 0 < d.clin || env.useUinput || d.repeatRemote.isSome

/-- `hw.deinit_func` when the driver is not used any more. -/
def deinitUnused (d : Daemon) : Daemon := if useHw env d then d else d.log .deinit

/-! ### Writing to clients -/

/-- `write_socket(fd, bytes, len) == len` -/
def writeSocket (fd : ℕ) (bytes : List Char) (d : Daemon) : Bool × Daemon :=
  if env.writeOk d.clock fd then (true, d.tick.log (.wrote fd bytes))
  else (false, d.tick.log (.broken fd))

/-- Writes one after the other up to the first that fails. -/
def writeAll (fd : ℕ) : List (List Char) → Daemon → Bool × Daemon
  | [], d => (true, d)
  | bytes :: rest, d => andThen (writeSocket env fd bytes d) (writeAll fd rest)

def beginString : List Char := "BEGIN\n".toList
def dataString : List Char := "DATA\n".toList
def endString : List Char := "END\n".toList
def errorString : List Char := "ERROR\n".toList
def successString : List Char := "SUCCESS\n".toList
def sighupString : List Char := "SIGHUP\n".toList

/-- `sprintf(lines, "%d\n", n)` with the `int` n. -/
def countLine (n : ℕ) : List Char := decimalInt (Int.bmod n (2 ^ 32)) ++ ['\n']

/-- `send_success` -/
def sendSuccess (fd : ℕ) (message : List Char) : Daemon → Bool × Daemon :=
  writeAll env fd [beginString, message, successString, endString]

/-- `send_error`, given the text that the format and its arguments stand for. -/
def sendError (fd : ℕ) (message text : List Char) (d : Daemon) : Bool × Daemon :=
  let lines := countLine (text.count '\n')
  let d := (d.log (.formatted text (packetSize + 1))).log (.formatted lines 4)
  writeAll env fd [beginString, message, errorString, dataString, lines, text, endString] d

/-- What `snprintf` with this size leaves in an array, with the terminating
zero. -/
def snprintf (size : ℕ) (text : List Char) : List Char := text.take (size - 1) ++ [nul]

/-- A line that is formatted into an array with at most `limit` bytes: the
bytes that are then written, and the replacement when the text has 257 bytes or
more. -/
def limitedLine (limit : ℕ) (text replacement : List Char) : List Char :=
  if packetSize + 1 ≤ text.length then replacement
  else (snprintf limit text).take text.length

/-- The lines of a list, each formatted and written. -/
def sendLines (fd : ℕ) (limit : ℕ) (replacement : List Char) :
    List (List Char) → Daemon → Bool × Daemon
  | [], d => (true, d)
  | text :: texts, d =>
      let d := d.log (.formatted (text.take (limit - 1)) (packetSize + 1))
      andThen (writeSocket env fd (limitedLine limit text replacement) d)
        (sendLines fd limit replacement texts)

/-- A reply with a list of lines. -/
def sendList (fd : ℕ) (message : List Char) (limit : ℕ) (replacement : List Char)
    (texts : List (List Char)) (d : Daemon) : Bool × Daemon :=
  andThen (writeAll env fd [beginString, message, successString] d) fun d =>
    if texts = [] then writeAll env fd [endString] d
    else
      let d := d.log (.formatted (countLine texts.length) (packetSize + 1))
      andThen (writeAll env fd [dataString, countLine texts.length] d) fun d =>
        andThen (sendLines env fd limit replacement texts d) (writeAll env fd [endString])

def nameTooLong : List Char := "name_too_long\n".toList
def codeTooLong : List Char := "code_too_long\n".toList

/-- `%016llx %s\n` -/
def codeText (code : IrNcode) : List Char :=
  hexDigits 16 code.code.toNat ++ ' ' :: code.name ++ ['\n']

/-- `send_remote_list` -/
def sendRemoteList (fd : ℕ) (message : List Char) (d : Daemon) : Bool × Daemon :=
  sendList env fd message (packetSize + 1) nameTooLong
    (d.remotes.map fun a => (d.heap a).name ++ ['\n']) d

/-- `send_remote` -/
def sendRemote (fd : ℕ) (message : List Char) (remote : IrRemote) : Daemon → Bool × Daemon :=
  sendList env fd message packetSize codeTooLong (remote.codes.map codeText)

/-- `send_name`: the count and the line are formatted together. -/
def sendName (fd : ℕ) (message : List Char) (code : IrNcode) (d : Daemon) : Bool × Daemon :=
  andThen (writeAll env fd [beginString, message, successString, dataString] d) fun d =>
    andThen
      (sendLines env fd packetSize ("1\n".toList ++ codeTooLong)
        ["1\n".toList ++ codeText code] d)
      (writeAll env fd [endString])

/-! ### Arguments -/

/-- What `parse_rc` has found. -/
structure RcArgs where
  remote : Option ℕ := none
  code : Option ℕ := none
  reps : ℤ := -1

/-- `strtol(repeats, &end_ptr, 10)` as an `int`, when all of it is a number. -/
def parseReps (repeats : List Char) : Option ℤ :=
  let n := scanDecimal repeats
  if n.rest = [] then some (Int.bmod n.toSigned (2 ^ 32)) else none

def unknownRemote (name : List Char) : List Char :=
  "unknown remote: \"".toList ++ name ++ "\"\n".toList

def unknownCommand (command : List Char) : List Char :=
  "unknown command: \"".toList ++ command ++ "\"\n".toList

def tooManyRepeats (reps : ℤ) : List Char :=
  "too many repeats: \"".toList ++ decimalInt reps ++ "\" > \"".toList ++ decimal env.repeatMax ++
    "\"\n".toList

/-- The end of `parse_rc`, from `arg_check` on. -/
def argCheck (n : ℕ) (rc : RcArgs) : Except (List Char) RcArgs :=
  if 0 < n ∧ rc.remote = none then .error "remote missing\n".toList
  else if 1 < n ∧ rc.code = none then .error "code missing\n".toList
  else .ok rc

/-- The number of repeats, if it is asked for, and the end of the arguments. -/
def parseEnd (withReps : Bool) (n : ℕ) (rc : RcArgs) (rest : List Char) :
    Except (List Char) RcArgs :=
  match withReps, strtok whiteSpace rest with
  | false, none => argCheck n rc
  | true, none => argCheck n rc
  | false, some _ => .error "bad send packet\n".toList
  | true, some (repeats, rest) =>
      match parseReps repeats with
      | none => .error "bad send packet\n".toList
      | some reps =>
          if reps < 0 then .error "bad send packet\n".toList
          else if env.repeatMax < reps then .error (tooManyRepeats env reps)
          else if (strtok whiteSpace rest).isSome then .error "bad send packet\n".toList
          else argCheck n { rc with reps }

/-- `parse_rc`, with the text of the error it sends. -/
def parseRc (d : Daemon) (arguments : Option (List Char)) (withReps : Bool) (n : ℕ) :
    Except (List Char) RcArgs :=
  match arguments.bind (strtok whiteSpace) with
  | none => argCheck n {}
  | some (name, rest) =>
      match d.getIrRemote name with
      | none => .error (unknownRemote name)
      | some a =>
          match strtok whiteSpace rest with
          | none => argCheck n { remote := some a }
          | some (command, rest) =>
              match getCodeByName (d.heap a) command with
              | none => .error (unknownCommand command)
              | some c => parseEnd env withReps n { remote := some a, code := some c } rest

/-! ### Directives -/

/-- `list` -/
def list (fd : ℕ) (message : List Char) (arguments : Option (List Char)) (d : Daemon) :
    Bool × Daemon :=
  match parseRc env d arguments false 0 with
  | .error text => sendError env fd message text d
  | .ok rc =>
      match rc.remote with
      | none => sendRemoteList env fd message d
      | some a =>
          match rc.code.bind ((d.heap a).codes[·]?) with
          | none => sendRemote env fd message (d.heap a) d
          | some code => sendName env fd message code d

/-- `MAX_TX` -/
def maxTx : ℕ := 32

def unsupportedTransmitters : List Char :=
  "cannot support more than ".toList ++ decimal maxTx ++ " transmitters\n".toList

/-- The mask of the transmitters, or the text of an error. -/
def parseTransmitters : ℕ → List Char → ℕ → Except (List Char) ℕ
  | 0, _, channels => .ok channels
  | fuel + 1, arguments, channels =>
      match strtok whiteSpace arguments with
      | none => .ok channels
      | some (arg, rest) =>
          let n := scanDecimal arg
          let tx := strtou32 n
          if n.rest ≠ [] ∨ tx = 0 then .error "invalid argument\n".toList
          else if maxTx < tx then .error unsupportedTransmitters
          else parseTransmitters fuel rest (channels ||| 2 ^ (tx - 1))

/-- `set_transmitters` -/
def setTransmitters (fd : ℕ) (message : List Char) (arguments : Option (List Char))
    (d : Daemon) : Bool × Daemon :=
  match arguments with
  | none => sendError env fd message "no arguments given\n".toList d
  | some arguments =>
      if env.sendMode = 0 then
        sendError env fd message "hardware does not support sending\n".toList d
      else if !env.transmitterMask then
        sendError env fd message "hardware does not support multiple transmitters\n".toList d
      else if (strtok whiteSpace arguments).isNone then
        sendError env fd message "no arguments given\n".toList d
      else
        match parseTransmitters arguments.length arguments 0 with
        | .error text => sendError env fd message text d
        | .ok channels =>
            let retval := Int.bmod (env.ioctl d.clock channels) (2 ^ 32)
            let d := d.tick
            if retval < 0 then
              sendError env fd message "error - could not set transmitters\n".toList d
            else if 0 < retval then
              sendError env fd message
                ("error - maximum of ".toList ++ decimalInt retval ++ " transmitters\n".toList) d
            else sendSuccess env fd message d

/-- `remove_client`. The types of the clients keep their places. -/
def removeClient (fd : ℕ) (d : Daemon) : Daemon :=
  match (List.range d.clin).find? fun i => d.clis i == fd with
  | none => d
  | some i =>
      let clin := d.clin - 1
      let d := deinitUnused env { d.log (.closed fd) with clin }
      { d with clis := fun j => if i ≤ j ∧ j < clin then d.clis (j + 1) else d.clis j }

/-- The loop of `broadcast_message` from the client `i` on. Each pass leaves
one client less to be written to. -/
def broadcastLoop (message : List Char) : ℕ → ℕ → Daemon → Daemon
  | 0, _, d => d
  | n + 1, i, d =>
      if i < d.clin then
        let (ok, d) := writeSocket env (d.clis i) message d
        if ok then broadcastLoop message n (i + 1) d
        else broadcastLoop message n i (removeClient env (d.clis i) d)
      else d

/-- `broadcast_message` -/
def broadcastMessage (message : List Char) (d : Daemon) : Daemon :=
  broadcastLoop env message d.clin 0 d

/-- The field up to the next blank, when it is not empty, and what follows the
blank. -/
def simField (s : List Char) : Option (List Char × List Char) :=
  match s.takeWhile (· != ' '), s.dropWhile (· != ' ') with
  | c :: cs, ' ' :: rest => some (c :: cs, rest)
  | _, _ => none

/-- The form of the event that `simulate` asks for. -/
def validEvent (s : List Char) : Bool :=
  match simField s with
  | none => false
  | some (code, rest) =>
      code.length == 16 && code.all (isDigit 16) &&
        match simField rest with
        | none => false
        | some (reps, rest) =>
            reps.all (isDigit 16) &&
              match simField rest with
              | none => false
              | some (_, remote) => remote ≠ [] && !remote.contains ' '

/-- `simulate` -/
def simulate (fd : ℕ) (message : List Char) (arguments : Option (List Char)) (d : Daemon) :
    Bool × Daemon :=
  if !env.allowSimulate then
    sendError env fd message "SIMULATE command is disabled\n".toList d
  else
    match arguments with
    | none => sendError env fd message "no arguments given\n".toList d
    | some event =>
        if !validEvent event then sendError env fd message "invalid event\n".toList d
        else if !env.strdupOk d.clock then
          sendError env fd message "out of memory\n".toList d.tick
        else
          let sim := event ++ ['\n']
          let d := d.tick.log (.formatted sim (event.length + 2))
          sendSuccess env fd message (broadcastMessage env sim d)

/-- `send_ir_ncode` -/
def sendIrNcode (a c : ℕ) (d : Daemon) : Bool × Daemon :=
  let out := env.sendFunc d.clock d.repeatRemote.isSome (d.heap a) c d.sendBuffer
  let sent := ({ d with sendBuffer := out.2.2 }.tick).log
    (.sent (d.heap a) c d.repeatRemote.isSome out.1)
  let r := out.2.1
  (out.1, sent.setRemote a
    (if out.1 then { r with lastSend := env.now sent.clock, lastCode := some c } else r))

/-- The state of the toggles and of the code before a new transmission. -/
def startSending (a c : ℕ) (d : Daemon) : Daemon :=
  let r := d.heap a
  let r := if hasToggleMask r then { r with toggleMaskState := 0 } else r
  let r :=
    if hasToggleBitMask r then
      { r with toggleBitMaskState := r.toggleBitMaskState ^^^ r.toggleBitMask }
    else r
  d.setRemote a (r.setTransmitState c [])

/-- What `send_core` notes after the first frame. -/
def noteSent (once : Bool) (a c : ℕ) (reps : ℤ) (d : Daemon) : Daemon :=
  let r := d.heap a
  d.setRemote a
    { r with
      lastSend := env.now d.clock
      lastCode := some c
      repeatCountdown := if once then max r.repeatCountdown reps else toInt32 env.repeatMax }

/-- `remote->repeat_countdown > 0 || code->next != NULL` -/
def moreFrames (a c : ℕ) (d : Daemon) : Bool :=
  0 < (d.heap a).repeatCountdown || ((d.heap a).codes[c]?.map IrNcode.next).getD [] != []

/-- More frames are to follow: the reply of SEND_ONCE waits for them. -/
def startRepeating (fd : ℕ) (message : List Char) (once : Bool) (a c : ℕ) (d : Daemon) :
    Bool × Daemon :=
  let started := { d with repeatRemote := some a, repeatCode := some c }
  let gap := (d.heap a).minRemainingGap
  if once then
    if env.strdupOk d.clock then
      (true, ({ started with repeatMessage := some message, repeatFd := some fd }.tick).setTimer gap)
    else
      sendError env fd message "out of memory\n".toList
        { d with repeatRemote := none, repeatCode := none, repeatMessage := none }.tick
  else
    let reply := sendSuccess env fd message started
    if reply.1 then (true, reply.2.setTimer gap)
    else (false, { reply.2 with repeatRemote := none, repeatCode := none })

/-- `send_core` from the first frame on. -/
def sendFirst (fd : ℕ) (message : List Char) (once : Bool) (a c : ℕ) (reps : ℤ) (d : Daemon) :
    Bool × Daemon :=
  let sent := sendIrNcode env a c (startSending a c d)
  if sent.1 then
    let d := noteSent env once a c reps sent.2
    if moreFrames a c d then startRepeating env fd message once a c d
    else sendSuccess env fd message d
  else sendError env fd message "transmission failed\n".toList sent.2

/-- `send_core` -/
def sendCore (once : Bool) (fd : ℕ) (message : List Char) (arguments : Option (List Char))
    (d : Daemon) : Bool × Daemon :=
  if env.sendMode = 0 then
    sendError env fd message "hardware does not support sending\n".toList d
  else
    match parseRc env d arguments once 2 with
    | .error text => sendError env fd message text d
    | .ok ⟨some a, some c, reps⟩ =>
        if d.repeatRemote.isSome then
          sendError env fd message
            (if once then "busy: repeating\n".toList else "already repeating\n".toList) d
        else sendFirst env fd message once a c reps d
    | .ok _ => (true, d) -- `parse_rc` has found both

def sendOnce : ℕ → List Char → Option (List Char) → Daemon → Bool × Daemon := sendCore env true

def sendStart : ℕ → List Char → Option (List Char) → Daemon → Bool × Daemon := sendCore env false

/-- The end of a transmission that is stopped. -/
def stopRepeating (a : ℕ) (d : Daemon) : Daemon :=
  { (d.setTimer 0).setRemote a { d.heap a with toggleMaskState := 0 } with
    repeatRemote := none, repeatCode := none, alrm := false }

/-- `send_stop` -/
def sendStop (fd : ℕ) (message : List Char) (arguments : Option (List Char)) (d : Daemon) :
    Bool × Daemon :=
  match parseRc env d arguments false 0 with
  | .error text => sendError env fd message text d
  | .ok rc =>
      match d.repeatRemote, d.repeatCode with
      | some a, some c =>
          let r := d.heap a
          if rc.remote.any fun a' => !strcaseeq (d.heap a').name r.name then
            sendError env fd message "specified remote does not match\n".toList d
          else if (rc.remote.bind fun a' => rc.code.map ((d.heap a').codeName ·)).any
              fun name => !strcaseeq name (r.codeName c) then
            sendError env fd message "specified code does not match\n".toList d
          else
            let done := Int.bmod ((env.repeatMax : ℤ) - r.repeatCountdown) (2 ^ 32)
            if done < r.minRepeat then
              sendSuccess env fd message
                (d.setRemote a { r with repeatCountdown := r.minRepeat - done })
            else sendSuccess env fd message (stopRepeating a d)
      | _, _ => sendError env fd message "not repeating\n".toList d

/-- `VERSION` -/
def lircVersion : List Char := "0.9.1-git".toList

/-- `version` -/
def version (fd : ℕ) (message : List Char) (arguments : Option (List Char)) (d : Daemon) :
    Bool × Daemon :=
  match arguments with
  | some _ => sendError env fd message "bad send packet\n".toList d
  | none =>
      let buffer := "1\n".toList ++ lircVersion ++ ['\n']
      writeAll env fd
        [beginString, message, successString, dataString, buffer, endString]
        (d.log (.formatted buffer (packetSize + 1)))

/-- `directives` of lircd with `send_error`, for a client. -/
def lircd (fd : ℕ) : Server Daemon where
  directives :=
    [⟨"LIST".toList, list env fd⟩, ⟨"SEND_ONCE".toList, sendOnce env fd⟩,
      ⟨"SEND_START".toList, sendStart env fd⟩, ⟨"SEND_STOP".toList, sendStop env fd⟩,
      ⟨"VERSION".toList, version env fd⟩,
      ⟨"SET_TRANSMITTERS".toList, setTransmitters env fd⟩,
      ⟨"SIMULATE".toList, simulate env fd⟩]
  sendError := sendError env fd

/-! ### The repeat alarm -/

/-- The frame that `dosigalrm` sends next counts as one repeat. -/
def countRepeat (a c : ℕ) (d : Daemon) : Daemon :=
  let r := d.heap a
  match r.codes[c]? with
  | none => d
  | some code =>
      if code.next = [] ∨ code.transmitState.length = 1 then
        d.setRemote a { r with repeatCountdown := r.repeatCountdown - 1 }
      else d

/-- A reply that was put off, if there is one. -/
def answerRepeat (reply : ℕ → List Char → Daemon → Bool × Daemon) (d : Daemon) : Daemon :=
  match d.repeatFd, d.repeatMessage with
  | some fd, some message =>
      { (reply fd message d).2 with repeatFd := none, repeatMessage := none }
  | _, _ => d

/-- `dosigalrm` when a different code was received: to repeat it would be
wrong. -/
def interruptRepeating (d : Daemon) : Daemon :=
  let d := answerRepeat
    (fun fd message => sendError env fd message "repeating interrupted\n".toList) d
  deinitUnused env
    { d with repeatRemote := none, repeatCode := none, repeatFd := none, repeatMessage := none }

/-- `dosigalrm` when no more frames are sent. -/
def finishRepeating (d : Daemon) : Daemon :=
  deinitUnused env
    (answerRepeat (sendSuccess env) { d with repeatRemote := none, repeatCode := none })

/-- `dosigalrm`; it is called while `repeat_remote` is not `NULL`. -/
def dosigalrm (d : Daemon) : Daemon :=
  match d.repeatRemote, d.repeatCode with
  | some a, some c =>
      if (d.heap a).lastCode = some c then
        let sent := sendIrNcode env a c (countRepeat a c d)
        if sent.1 ∧ 0 < (sent.2.heap a).repeatCountdown then
          sent.2.setTimer (sent.2.heap a).minRemainingGap
        else finishRepeating env sent.2
      else interruptRepeating env d
  | _, _ => d

end Functions

/-! ### A small daemon -/

/-- A daemon that has read no configuration, without clients. -/
def emptyDaemon : Daemon where
  clock := 0
  heap := fun _ => {}
  remotes := []
  repeatRemote := none
  repeatCode := none
  repeatFd := none
  repeatMessage := none
  timer := 0
  alrm := false
  clis := fun _ => 0
  cliType := fun _ => .unknown
  clin := 0
  sendBuffer := {}
  trace := []

/-- A driver that sends nothing, on a system in which nothing fails. -/
def quietEnv : Env where
  sendMode := 2
  sendFunc := fun _ _ r _ buf => (true, r, buf)
  sendFunc_transmits := fun _ _ r _ _ => ⟨_, _, _, _, _, rfl, rfl⟩
  ioctl := fun _ _ => 0
  writeOk := fun _ _ => true
  strdupOk := fun _ => true
  now := fun _ => 0

end Lirc
