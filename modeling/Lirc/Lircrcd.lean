import Lirc.Daemon
import Lirc.PacketLoop
import Lirc.Lircrc

/-!
`lircrcd.c`: the daemon that evaluates a lircrc file for several clients. It
takes commands as lircd does, except that it leaves DOS line endings alone.
-/

namespace Lirc

open CString Lines Numeral

/-! ### The state -/

/-- `struct event_info`: a code and the strings scheduled for it. -/
structure EventInfo where
  code : List Char
  first : List (List Char) := []
  deriving DecidableEq, Repr

/-- `struct client_data`. For the statements it also has the number of lines
that had come from lircd before the client connected, and all codes that have
been enqueued for it. -/
structure ClientData where
  fd : ℕ
  identString : Option (List Char) := none
  firstEvent : List EventInfo := []
  pendingCode : Option (List Char) := none
  born : ℕ := 0
  enqueued : List (List Char) := []
  deriving DecidableEq, Repr

/-- A value that is used though it is not there. -/
inductive Missing
  /-- the code, in `strdup` and `lirc_code2charprog` -/
  | code
  /-- the `ident_string` that a program name is compared with -/
  | ident
  /-- the client with the index -1 -/
  | client
  deriving DecidableEq, Repr

/-- Whether `loop` is still running. -/
inductive Phase
  | looping
  | returned
  | misused (m : Missing)
  deriving DecidableEq, Repr

/-- The variables of lircrcd, with those of `lirc_nextcode`, and all bytes that
have come from lircd. -/
structure Lircrcd where
  clock : ℕ
  clis : List ClientData
  config : RcConfig
  /-- `lirc_buffer` up to `end_len` -/
  buffer : List Char
  /-- `packet_size` -/
  bufferSize : ℕ
  received : List Char
  phase : Phase
  trace : List Event

namespace Lircrcd

variable (d : Lircrcd)

def log (e : Event) : Lircrcd := { d with trace := d.trace ++ [e] }

def tick : Lircrcd := { d with clock := d.clock + 1 }

/-- `clis[i] = f(clis[i])` -/
def modify (i : ℕ) (f : ClientData → ClientData) : Lircrcd :=
  { d with clis := d.clis.modify i f }

/-- `get_client_index` -/
def clientIndex (fd : ℕ) : Option ℕ := d.clis.findIdx? fun c => c.fd == fd

/-- What lircrcd starts with. -/
def init (config : RcConfig) : Lircrcd where
  clock := 0
  clis := []
  config := config
  buffer := []
  bufferSize := 100
  received := []
  phase := .looping
  trace := []

end Lircrcd

/-- The answers of the system, which depend on how many it has given. -/
structure RcEnv where
  /-- A write to a descriptor succeeds. -/
  writeOk : ℕ → ℕ → Bool
  strdupOk : ℕ → Bool

section Functions

variable (env : RcEnv)

/-! ### Replies -/

/-- `write_socket(fd, bytes, len) == len` -/
def rcWriteSocket (fd : ℕ) (bytes : List Char) (d : Lircrcd) : Bool × Lircrcd :=
  if env.writeOk d.clock fd then (true, d.tick.log (.wrote fd bytes))
  else (false, d.tick.log (.broken fd))

def rcWriteAll (fd : ℕ) : List (List Char) → Lircrcd → Bool × Lircrcd
  | [], d => (true, d)
  | bytes :: rest, d => andThen (rcWriteSocket env fd bytes d) (rcWriteAll fd rest)

/-- `send_result` -/
def rcSendResult (fd : ℕ) (message result : List Char) (d : Lircrcd) : Bool × Lircrcd :=
  let buffer := result ++ ['\n']
  rcWriteAll env fd
    [beginString, message, successString, dataString, "1\n".toList, buffer, endString]
    (d.log (.formatted buffer (result.length + 2)))

/-- `send_success` -/
def rcSendSuccess (fd : ℕ) (message : List Char) : Lircrcd → Bool × Lircrcd :=
  rcWriteAll env fd [beginString, message, successString, endString]

/-- `send_error` -/
def rcSendError (fd : ℕ) (message text : List Char) (d : Lircrcd) : Bool × Lircrcd :=
  let lines := countLine (text.count '\n')
  let d := (d.log (.formatted text (packetSize + 1))).log (.formatted lines 4)
  rcWriteAll env fd [beginString, message, errorString, dataString, lines, text, endString] d

def protocolError : List Char := "protocol error\n".toList
def outOfMemory : List Char := "out of memory\n".toList

/-! ### Directives -/

/-- The answer of `code_func` when an event is there: its next string, or
nothing more, or nothing because it is another event. -/
def answerEvent (fd : ℕ) (message code : List Char) (i : ℕ) (ei : EventInfo)
    (events : List EventInfo) (d : Lircrcd) : Bool × Lircrcd :=
  if ei.code = code then
    match ei.first with
    | string :: strings =>
        let (ok, d) := rcSendResult env fd message string d
        (ok, d.modify i fun c => { c with firstEvent := { ei with first := strings } :: events })
    | [] =>
        rcSendSuccess env fd message (d.modify i fun c => { c with firstEvent := events })
  else rcSendSuccess env fd message d

/-- `code_func`: the next string for the code, or the request waits for it. -/
def codeFunc (fd : ℕ) (message : List Char) (arguments : Option (List Char))
    (d : Lircrcd) : Bool × Lircrcd :=
  match arguments with
  | none => rcSendError env fd message protocolError d
  | some code =>
      match (d.clientIndex fd).bind fun i => (d.clis[i]?).map fun c => (i, c) with
      | none => rcSendError env fd message "identify yourself first!\n".toList d
      | some (i, cli) =>
          if cli.pendingCode.isSome then rcSendError env fd message protocolError d
          else
            match cli.firstEvent with
            | ei :: events => answerEvent env fd message code i ei events d
            | [] =>
                if env.strdupOk d.clock then
                  (true, d.tick.modify i fun c => { c with pendingCode := some code })
                else rcSendError env fd message outOfMemory d.tick

/-- `ident_func`. The index is used without a test. -/
def identFunc (fd : ℕ) (message : List Char) (arguments : Option (List Char))
    (d : Lircrcd) : Bool × Lircrcd :=
  match arguments with
  | none => rcSendError env fd message protocolError d
  | some ident =>
      match d.clientIndex fd with
      | none => (true, { d with phase := .misused .client })
      | some i =>
          if (d.clis[i]?.bind ClientData.identString).isSome then
            rcSendError env fd message protocolError d
          else if env.strdupOk d.clock then
            rcSendSuccess env fd message
              (d.tick.modify i fun c => { c with identString := some ident })
          else rcSendError env fd message outOfMemory d.tick

/-- `getmode_func` -/
def getmodeFunc (fd : ℕ) (message : List Char) (arguments : Option (List Char))
    (d : Lircrcd) : Bool × Lircrcd :=
  match arguments, d.config.getMode with
  | some _, _ => rcSendError env fd message protocolError d
  | none, some mode => rcSendResult env fd message mode d
  | none, none => rcSendSuccess env fd message d

/-- `setmode_func` -/
def setmodeFunc (fd : ℕ) (message : List Char) (arguments : Option (List Char))
    (d : Lircrcd) : Bool × Lircrcd :=
  let mode := arguments.filter fun _ => env.strdupOk d.clock
  let d := { d.tick with config := d.config.setMode mode }
  match mode, arguments with
  | some mode, _ => rcSendResult env fd message mode d
  | none, none => rcSendSuccess env fd message d
  | none, some _ => rcSendError env fd message outOfMemory d

/-- `directives` of lircrcd with `send_error`, for a client. -/
def lircrcd (fd : ℕ) : Server Lircrcd where
  directives :=
    [⟨"CODE".toList, codeFunc env fd⟩, ⟨"IDENT".toList, identFunc env fd⟩,
      ⟨"GETMODE".toList, getmodeFunc env fd⟩, ⟨"SETMODE".toList, setmodeFunc env fd⟩]
  sendError := rcSendError env fd

/-- The body of the loop of `get_command` up to `skip`. -/
def rcExecLine (fd : ℕ) (line : List Char) (d : Lircrcd) : Bool × Lircrcd :=
  let srv := lircrcd env fd
  let backup := line ++ ['\n']
  match strtok whiteSpace line with
  | none => srv.sendError backup "bad send packet\n".toList d
  | some (directive, rest) =>
      match srv.directives.find? fun d => strcaseeq directive d.name with
      | some f => f.function backup (strtokRest rest) d
      | none =>
          srv.sendError backup ("unknown directive: \"".toList ++ directive ++ "\"\n".toList) d

/-! ### Input from lircd -/

/-- A read from lircd. -/
inductive LircdRead
  | bytes (bytes : List Char)
  | again
  | failed

/-- What `lirc_nextcode` returns: -1, or 0 with or without a code. -/
inductive NextCode
  | failed
  | nothing
  | code (line : List Char)

/-- The first line of the buffer, without its newline. -/
def takeLine (d : Lircrcd) : NextCode × Lircrcd :=
  match splitLine '\n' (cstr d.buffer) with
  | some (line, rest) => (.code line, { d with buffer := rest })
  | none => (.nothing, d)

/-- The buffer is made larger when it is full. -/
def Lircrcd.grow (d : Lircrcd) : Lircrcd :=
  { d with bufferSize :=
      if d.bufferSize ≤ d.buffer.length then d.bufferSize + 100 else d.bufferSize }

/-- `lirc_nextcode`. A read of no bytes is a failed one, and there is no read of
more bytes than were asked for. -/
def lircNextcode (read : LircdRead) (d : Lircrcd) : Option (NextCode × Lircrcd) :=
  if '\n' ∈ cstr d.buffer then some (takeLine d)
  else
    match read with
    | .failed => some (.failed, d.grow)
    | .again => some (.nothing, d.grow)
    | .bytes bytes =>
        if bytes = [] ∨ d.grow.bufferSize < d.buffer.length + bytes.length then none
        else
          some (takeLine
            { d.grow with buffer := d.buffer ++ bytes, received := d.received ++ bytes })

/-- The new event at the end of the events of a client. -/
def ClientData.enqueue (code : List Char) (c : ClientData) : ClientData :=
  { c with firstEvent := c.firstEvent ++ [{ code }], enqueued := c.enqueued ++ [code] }

/-- `schedule`: a string for the last event. -/
def ClientData.schedule (string : List Char) (c : ClientData) : ClientData :=
  { c with firstEvent :=
      c.firstEvent.modify (c.firstEvent.length - 1) fun e => { e with first := e.first ++ [string] } }

/-- A string is scheduled for the clients of its program. -/
def fanOut (d : Lircrcd) (s : RcFound) : Lircrcd :=
  if d.clis.all fun c => c.identString.isSome then
    { d with clis := d.clis.map fun c =>
        if c.identString = some s.prog then c.schedule s.string else c }
  else { d with phase := .misused .ident }

/-- The request of a client that waits for a code is carried out. -/
def answerPending (d : Lircrcd) (i : ℕ) : Lircrcd :=
  match d.clis[i]? with
  | none => d
  | some cli =>
      match cli.pendingCode with
      | none => d
      | some backup =>
          let message := "CODE ".toList ++ backup ++ ['\n']
          let d := d.modify i fun c => { c with pendingCode := none }
          let d := d.log (.formatted message (backup.length + 1))
          (codeFunc env cli.fd message (some backup) d).2

/-- `handle_input` for a complete line, with enough memory. -/
def handleLine (line : List Char) (d : Lircrcd) : Lircrcd :=
  let strings := allStrings none (line ++ ['\n']) d.config
  let clis := d.clis.map (ClientData.enqueue line)
  let d := strings.1.foldl fanOut { d with clis, config := strings.2 }
  if d.phase = .looping then (List.range d.clis.length).foldl (answerPending env) d else d

/-- `handle_input`, and what `loop` does when it fails. -/
def handleInput (read : LircdRead) (d : Lircrcd) : Lircrcd :=
  match lircNextcode read d with
  | none => d
  | some (.failed, d) => { d with clis := [], phase := .returned }
  | some (.nothing, d) => { d with phase := .misused .code }
  | some (.code line, d) => handleLine env line d

/-! ### The loop -/

/-- `remove_client` -/
def rcRemoveClient (i : ℕ) (d : Lircrcd) : Lircrcd :=
  { (d.clis[i]?).elim d fun c => d.log (.closed c.fd) with clis := d.clis.eraseIdx i }

/-- `FD_SETSIZE` -/
def fdSetSize : ℕ := 1024

/-- `MAX_CLIENTS` of lircrcd. -/
def rcMaxClients : ℕ := 100

/-- `add_client` for a descriptor that is not in use. -/
def rcAddClient (fd : ℕ) (d : Lircrcd) : Lircrcd :=
  if (d.clientIndex fd).isSome then d
  else if fdSetSize ≤ fd ∨ rcMaxClients ≤ d.clis.length then d
  else { d with clis := d.clis ++ [{ fd, born := (complete '\n' d.received).length }] }

/-- What `loop` does for one of the descriptors that `select` reports. -/
inductive RcEvent
  | command (fd : ℕ) (reads : List (Option (List Char)))
  | connect (fd : ℕ)
  | input (read : LircdRead)

/-- `get_command` for a client, and its removal. -/
def rcCommand (fd : ℕ) (reads : List (Option (List Char))) (d : Lircrcd) : Lircrcd :=
  match d.clientIndex fd with
  | none => d
  | some i =>
      match getCommandWith (rcExecLine env fd) reads d with
      | none => d
      | some (true, d, _) => d
      | some (false, d, _) =>
          let d := rcRemoveClient i d
          if d.clis = [] then { d with phase := .returned } else d

/-- One descriptor of a pass of `loop`; a pass takes the clients in their
order, then new connections, then lircd. -/
def rcStep (d : Lircrcd) (e : RcEvent) : Lircrcd :=
  match d.phase with
  | .looping =>
      match e with
      | .command fd reads => rcCommand env fd reads d
      | .connect fd => rcAddClient fd d
      | .input read => handleInput env read d
  | _ => d

end Functions

end Lirc
