import Lirc.Library.Memory
import Lirc.Library.Lines
import Lirc.Library.Run

/-!
`lirc_nextcode` and `lirc_deinit` of the client library: the lines that lircd sends,
taken from the reads of its socket. `packet_size` and `end_len` outlive a connection,
the buffer does not. `none` is an access outside the buffer.
-/

namespace Lirc

open CString Lines Memory Transition

namespace Nextcode

/-- `PACKET_SIZE` of the client library. -/
def packetSize : ℕ := 100

/-- `lirc_buffer`, and the static `packet_size` and `end_len`. -/
structure Client where
  buffer : Option (List Char) := none
  packetSize : ℕ := Nextcode.packetSize
  endLen : ℕ := 0
  deriving DecidableEq, Repr

/-- The bytes that have come, as far as there is room for them; nothing is left
when the call fails or would block. -/
inductive SocketRead
  | data (available : ℕ)
  | again
  | failed
  deriving DecidableEq, Repr

/-- `read` of `count` bytes, from what the connection still has. -/
def SocketRead.bytes (input : List Char) (count : ℕ) : SocketRead → List Char
  | .data available => input.take (min available count)
  | .again => []
  | .failed => []

/-- What a call of `lirc_nextcode` leaves: whether it returns 0, the code, the bytes
that it has read, and the state of the library. -/
structure Reply where
  ok : Bool
  code : Option (List Char)
  received : List Char
  client : Client
  deriving DecidableEq, Repr

/-- `malloc` and `realloc`: what the new bytes are is not known. -/
def fresh (junk : ℕ → Char) (size : ℕ) : List Char := (List.range size).map junk

/-- The end of `lirc_nextcode`: the first line is copied, and what follows it moved to
the beginning of the buffer. -/
def takeLine (mem line received : List Char) (packetSize : ℕ) : Option Reply := do
  let rest ← string (mem.drop (line.length + 1))
  let cut ← store mem (line.length + 1) nul
  let code ← string cut
  let mem ← copyTo mem 0 (rest ++ [nul])
  some ⟨true, some code, received, ⟨some mem, packetSize, rest.length⟩⟩

/-- The loop of `lirc_nextcode`: one read is enough, since it leaves the loop with or
without a line. -/
def readLine (mem input : List Char) (read : SocketRead) (packetSize endLen : ℕ) : Option Reply :=
  match read.bytes input (packetSize - endLen) with
  | [] => some ⟨read == .again, none, [], ⟨some mem, packetSize, endLen⟩⟩
  | bytes => do
      let mem ← (copyTo mem endLen bytes).bind fun mem => store mem (endLen + bytes.length) nul
      match splitLine '\n' (← string mem) with
      | none => some ⟨true, none, bytes, ⟨some mem, packetSize, endLen + bytes.length⟩⟩
      | some (line, _) => takeLine mem line bytes packetSize

/-- The buffer, which is allocated when there is none. -/
def allocated (junk : ℕ → Char) (c : Client) : Option (List Char) :=
  match c.buffer with
  | some mem => some mem
  | none => store (fresh junk (c.packetSize + 1)) 0 nul

/-- `lirc_nextcode` -/
def nextcode (input : List Char) (read : SocketRead) (junk : ℕ → Char) (c : Client) :
    Option Reply := do
  let mem ← allocated junk c
  match splitLine '\n' (← string mem) with
  | some (line, _) => takeLine mem line [] c.packetSize
  | none =>
      if c.packetSize ≤ c.endLen then
        readLine (mem ++ fresh junk Nextcode.packetSize) input read
          (c.packetSize + Nextcode.packetSize) c.endLen
      else readLine mem input read c.packetSize c.endLen

/-- `lirc_deinit` -/
def deinit (c : Client) : Client := { c with buffer := none }

/-! ### Runs -/

/-- The library with its connection: what the connection still has, what has been read
from it, the codes that were returned for it and whether the last call had one. -/
structure Session where
  client : Client := {}
  input : List Char
  received : List Char := []
  codes : List (List Char) := []
  gotCode : Bool := false
  deriving DecidableEq, Repr

inductive Event
  /-- A call of `lirc_nextcode`. -/
  | call (read : SocketRead) (junk : ℕ → Char)
  /-- `lirc_deinit` and `lirc_init`: a new connection, with the bytes lircd sends. -/
  | reconnect (input : List Char)

def step : Option Session → Event → Option Session
  | none, _ => none
  | some s, .call read junk =>
      (nextcode s.input read junk s.client).map fun reply =>
        { client := reply.client
          input := s.input.drop reply.received.length
          received := s.received ++ reply.received
          codes := s.codes ++ reply.code.toList
          gotCode := reply.code.isSome }
  | some s, .reconnect input => some { client := deinit s.client, input := input }

/-- The complete lines, each with its newline. -/
def wholeLines (bytes : List Char) : List (List Char) :=
  (complete '\n' bytes).map (· ++ ['\n'])

/-- The codes of the connection are the complete lines that have been read from it, up
to those that wait while there was a code in the last call. -/
def Delivers (s : Session) : Prop :=
  s.codes <+: wholeLines s.received ∧ (s.gotCode = false → s.codes = wholeLines s.received)

/-! ### One call -/

/-- The buffer has its size and a string in it. -/
structure Safe (c : Client) : Prop where
  endLen : c.endLen ≤ c.packetSize
  buffer : ∀ mem ∈ c.buffer, mem.length = c.packetSize + 1 ∧ nul ∈ mem

/-- The bytes that wait in the buffer, and `end_len` is their number. -/
def Waits (c : Client) (bytes : List Char) : Prop :=
  c.endLen = bytes.length ∧
    (c.buffer = none ∧ bytes = [] ∨ ∃ mem, c.buffer = some mem ∧ Stores mem bytes)

/-- What a call makes of the bytes that waited and those that it has read. -/
def Outcome (bytes : List Char) (reply : Reply) : Prop :=
  (reply.code = none ∧ '\n' ∉ bytes ∧ Waits reply.client bytes) ∨
    ∃ line rest, bytes = line ++ '\n' :: rest ∧ '\n' ∉ line ∧ reply.code = some (line ++ ['\n']) ∧
      Waits reply.client rest

section Call

variable {mem bytes input : List Char} {size endLen : ℕ} {c : Client}

theorem takeLine_spec {line rest : List Char} (hmem : Stores mem (line ++ '\n' :: rest))
    (hsize : mem.length = size + 1) (received : List Char) :
    ∃ reply, takeLine mem line received size = some reply ∧ reply.received = received ∧
      reply.code = some (line ++ ['\n']) ∧ Safe reply.client ∧ Waits reply.client rest := by
  have hline : line ++ '\n' :: rest = (line ++ ['\n']) ++ rest := by simp
  have hlength : line.length + 1 = (line ++ ['\n']).length := by simp
  rw [hline] at hmem
  have hshort : rest.length < mem.length := by
    have hlong := hmem.length_lt
    rw [List.length_append] at hlong
    omega
  have hrest : nul ∉ rest := fun h => hmem.1 (List.mem_append_right _ h)
  obtain ⟨cut, hcut, hcutStores⟩ := hmem.cut
  obtain ⟨mem', hcopy, hkept, hstores⟩ := copyTo_string hrest hshort
  rw [takeLine, hlength, hmem.drop.string, Option.bind_eq_bind, Option.bind_some, hcut,
    Option.bind_some, hcutStores.string, Option.bind_some, hcopy, Option.bind_some]
  refine ⟨_, rfl, rfl, rfl, ⟨?_, ?_⟩, rfl, .inr ⟨mem', rfl, hstores⟩⟩
  · show rest.length ≤ size
    omega
  · intro m hm
    obtain rfl : mem' = m := Option.some.inj hm
    exact ⟨hkept.trans hsize, hstores.nul_mem⟩

theorem readLine_spec (hmem : Stores mem bytes) (hsize : mem.length = size + 1)
    (hroom : endLen ≤ size) (hinput : nul ∉ input) (read : SocketRead) :
    ∃ reply, readLine mem input read size endLen = some reply ∧ reply.received <+: input ∧
      Safe reply.client ∧
      (endLen = bytes.length → '\n' ∉ bytes → Outcome (bytes ++ reply.received) reply) := by
  have hfront : read.bytes input (size - endLen) <+: input := by
    cases read with
    | data available => exact List.take_prefix _ _
    | again => exact List.nil_prefix
    | failed => exact List.nil_prefix
  have hcount : (read.bytes input (size - endLen)).length ≤ size - endLen := by
    cases read with
    | data available =>
        show (input.take _).length ≤ _
        rw [List.length_take]
        omega
    | again => exact Nat.zero_le _
    | failed => exact Nat.zero_le _
  rw [readLine]
  generalize read.bytes input (size - endLen) = new at hfront hcount
  split
  · refine ⟨_, rfl, hfront, ⟨hroom, ?_⟩, fun hend hnone => ?_⟩
    · intro m hm
      obtain rfl : mem = m := Option.some.inj hm
      exact ⟨hsize, hmem.nul_mem⟩
    · rw [List.append_nil]
      exact .inl ⟨rfl, hnone, hend, .inr ⟨mem, rfl, hmem⟩⟩
  · next hnew =>
      have hnul : nul ∉ new := fun h => hinput (hfront.subset h)
      have hfits : endLen + new.length < mem.length := by omega
      obtain ⟨mem', hcopy, hlength, hin⟩ := copyTo_store endLen new hfits
      have hstores := stores_cstr hin
      -- without stale counters the bytes are appended to those that wait
      have happend : endLen = bytes.length → cstr mem' = bytes ++ new := by
        rintro rfl
        obtain ⟨mem'', hcopy', -, hstores'⟩ := hmem.append hnul hfits
        have heq : mem' = mem'' := Option.some.inj (hcopy.symm.trans hcopy')
        rw [← heq] at hstores'
        exact Option.some.inj (hstores.string.symm.trans hstores'.string)
      rw [hcopy, Option.bind_eq_bind, Option.bind_some, hstores.string, Option.bind_some]
      split
      · next hnone =>
          refine ⟨_, rfl, hfront, ⟨?_, ?_⟩, fun hend _ => ?_⟩
          · show endLen + new.length ≤ size
            omega
          · intro m hm
            obtain rfl : mem' = m := Option.some.inj hm
            exact ⟨hlength.trans hsize, hin⟩
          · refine .inl ⟨rfl, ?_, ?_, .inr ⟨mem', rfl, ?_⟩⟩
            · rw [← happend hend]
              exact splitLine_eq_none.mp hnone
            · show endLen + new.length = (bytes ++ new).length
              rw [hend, List.length_append]
            · rw [← happend hend]
              exact hstores
      · next line rest hsplit =>
          obtain ⟨hline, hnot⟩ := splitLine_eq_some hsplit
          rw [hline] at hstores
          obtain ⟨reply, htake, hreceived, hcode, hsafe, hwaits⟩ :=
            takeLine_spec hstores (hlength.trans hsize) new
          refine ⟨reply, htake, hreceived ▸ hfront, hsafe, fun hend _ => ?_⟩
          refine .inr ⟨line, rest, ?_, hnot, hcode, hwaits⟩
          rw [hreceived, ← happend hend]
          exact hline

theorem allocated_spec (hsafe : Safe c) (junk : ℕ → Char) :
    ∃ mem, allocated junk c = some mem ∧ mem.length = c.packetSize + 1 ∧ nul ∈ mem ∧
      ∀ bytes, Waits c bytes → Stores mem bytes := by
  rw [allocated]
  cases hmem : c.buffer with
  | some mem =>
      obtain ⟨hlength, hnul⟩ := hsafe.buffer mem hmem
      refine ⟨mem, rfl, hlength, hnul, ?_⟩
      rintro bytes ⟨-, ⟨hnone, -⟩ | ⟨mem', hmem', hstores⟩⟩
      · cases hmem.symm.trans hnone
      · rw [Option.some.inj (hmem.symm.trans hmem')]
        exact hstores
  | none =>
      have hlength : (fresh junk (c.packetSize + 1)).length = c.packetSize + 1 := by
        rw [fresh, List.length_map, List.length_range]
      have hfirst : 0 < (fresh junk (c.packetSize + 1)).length := by omega
      refine ⟨_, if_pos hfirst, (List.length_set ..).trans hlength, List.mem_set hfirst nul, ?_⟩
      rintro bytes ⟨-, ⟨-, rfl⟩ | ⟨mem', hmem', -⟩⟩
      · refine ⟨List.not_mem_nil, (fresh junk (c.packetSize + 1)).tail, ?_⟩
        cases hcells : fresh junk (c.packetSize + 1) with
        | nil =>
            rw [hcells] at hlength
            cases hlength
        | cons first rest => rfl
      · cases hmem.symm.trans hmem'

/-- A call stays inside the buffer. When `end_len` is right it returns the first line
of what waited and what it has read, or nothing when no line is complete. -/
theorem nextcode_spec (hsafe : Safe c) (hinput : nul ∉ input) (read : SocketRead)
    (junk : ℕ → Char) :
    ∃ reply, nextcode input read junk c = some reply ∧ reply.received <+: input ∧
      Safe reply.client ∧ ∀ bytes, Waits c bytes → Outcome (bytes ++ reply.received) reply := by
  obtain ⟨hend, hbuffer⟩ := hsafe
  obtain ⟨mem, hmem, hsize, hnul, hwaits⟩ := allocated_spec ⟨hend, hbuffer⟩ junk
  have hstores := stores_cstr hnul
  have hbytes : ∀ bytes, Waits c bytes → cstr mem = bytes := by
    intro bytes h
    exact Option.some.inj (hstores.string.symm.trans (hwaits bytes h).string)
  rw [nextcode, hmem, Option.bind_eq_bind, Option.bind_some, hstores.string, Option.bind_some]
  split
  · next line rest hsplit =>
      obtain ⟨hline, hnot⟩ := splitLine_eq_some hsplit
      rw [hline] at hstores
      obtain ⟨reply, htake, hreceived, hcode, hsafe', hwaits'⟩ := takeLine_spec hstores hsize []
      refine ⟨reply, htake, hreceived ▸ List.nil_prefix, hsafe', fun bytes h => ?_⟩
      refine .inr ⟨line, rest, ?_, hnot, hcode, hwaits'⟩
      rw [hreceived, List.append_nil, ← hbytes bytes h]
      exact hline
  · next hnone =>
      have hread : ∀ mem' size, Stores mem' (cstr mem) → mem'.length = size + 1 → c.endLen ≤ size →
          ∃ reply, readLine mem' input read size c.endLen = some reply ∧ reply.received <+: input ∧
            Safe reply.client ∧ ∀ bytes, Waits c bytes → Outcome (bytes ++ reply.received) reply := by
        intro mem' size hstores' hsize' hroom
        obtain ⟨reply, hreply, hfront, hsafe', hout⟩ :=
          readLine_spec hstores' hsize' hroom hinput read
        refine ⟨reply, hreply, hfront, hsafe', fun bytes h => ?_⟩
        have heq := hbytes bytes h
        rw [heq] at hout
        refine hout h.1 ?_
        rw [← heq]
        exact splitLine_eq_none.mp hnone
      split
      · -- the buffer grows
        obtain ⟨hs, rest, hrest⟩ := hstores
        refine hread _ _ ⟨hs, rest ++ fresh junk Nextcode.packetSize, ?_⟩ ?_ (by omega)
        · rw [← List.cons_append, ← List.append_assoc, ← hrest]
        · rw [List.length_append, hsize, fresh, List.length_map, List.length_range]
          omega
      · exact hread mem c.packetSize hstores hsize (by omega)

end Call

/-! ### All calls -/

/-- What lircd sends has no zero byte. -/
def NulFree : Event → Prop
  | .call _ _ => True
  | .reconnect input => nul ∉ input

/-- When the connection is closed nothing of it waits in the buffer. -/
def ReconnectsEmpty : Option Session → Event → Prop
  | some s, .reconnect _ => s.client.endLen = 0
  | _, _ => True

/-- The codes so far, and the bytes that wait for the next one. -/
def Delivering (s : Session) : Prop :=
  ∃ lines bytes, (∀ line ∈ lines, '\n' ∉ line) ∧ s.codes = lines.map (· ++ ['\n']) ∧
    s.received = stream '\n' lines ++ bytes ∧ Waits s.client bytes ∧
    (s.gotCode = false → '\n' ∉ bytes)

theorem wholeLines_append {lines : List (List Char)} (h : ∀ line ∈ lines, '\n' ∉ line)
    (bytes : List Char) :
    wholeLines (stream '\n' lines ++ bytes) = lines.map (· ++ ['\n']) ++ wholeLines bytes := by
  rw [wholeLines, complete_stream h, List.map_append, wholeLines]

theorem Delivering.delivers {s : Session} (h : Delivering s) : Delivers s := by
  obtain ⟨lines, bytes, hlines, hcodes, hreceived, -, hlast⟩ := h
  rw [Delivers, hreceived, wholeLines_append hlines, hcodes]
  refine ⟨List.prefix_append _ _, fun hnone => ?_⟩
  rw [wholeLines, complete_of_not_mem (hlast hnone), List.map_nil, List.append_nil]

/-- What is kept whatever waits. -/
structure Sound (s : Session) : Prop where
  safe : Safe s.client
  input : nul ∉ s.input

section Steps

variable {s : Session}

theorem call_step (h : Sound s) (read : SocketRead) (junk : ℕ → Char) :
    ∃ s', step (some s) (.call read junk) = some s' ∧ Sound s' ∧ (Delivering s → Delivering s') := by
  obtain ⟨reply, hreply, -, hsafe, hout⟩ := nextcode_spec h.safe h.input read junk
  rw [step, hreply, Option.map_some]
  refine ⟨_, rfl, ⟨hsafe, fun hmem => h.input (List.mem_of_mem_drop hmem)⟩, ?_⟩
  rintro ⟨lines, bytes, hlines, hcodes, hreceived, hwaits, -⟩
  obtain ⟨hcode, hnone, hwaits'⟩ | ⟨line, rest, hbytes, hline, hcode, hwaits'⟩ := hout bytes hwaits
  · refine ⟨lines, bytes ++ reply.received, hlines, ?_, ?_, hwaits', fun _ => hnone⟩
    · rw [hcode, Option.toList_none, List.append_nil, hcodes]
    · rw [hreceived, List.append_assoc]
  · refine ⟨lines ++ [line], rest, ?_, ?_, ?_, hwaits', ?_⟩
    · intro l hl
      obtain hl | hl := List.mem_append.mp hl
      · exact hlines l hl
      · rw [List.mem_singleton.mp hl]
        exact hline
    · rw [hcode, Option.toList_some, hcodes, List.map_append]
      rfl
    · rw [hreceived, List.append_assoc, hbytes, stream, stream, List.flatMap_append]
      simp
    · intro hlast
      rw [hcode] at hlast
      cases hlast

theorem reconnect_step (h : Sound s) {input : List Char} (hinput : nul ∉ input) :
    ∃ s', step (some s) (.reconnect input) = some s' ∧ Sound s' ∧
      (s.client.endLen = 0 → Delivering s') := by
  refine ⟨_, rfl, ⟨⟨h.safe.endLen, fun mem hmem => ?_⟩, hinput⟩, fun hend => ?_⟩
  · cases hmem
  · exact ⟨[], [], by simp, rfl, rfl, ⟨hend, .inl ⟨rfl, rfl⟩⟩, fun _ => List.not_mem_nil⟩

end Steps

/-- What one event keeps. -/
theorem step_spec {s : Session} (h : Sound s) {e : Event} (he : NulFree e) :
    ∃ s', step (some s) e = some s' ∧ Sound s' ∧
      (Delivering s → ReconnectsEmpty (some s) e → Delivering s') := by
  cases e with
  | call read junk =>
      obtain ⟨s', hstep, hsound, hdelivers⟩ := call_step h read junk
      exact ⟨s', hstep, hsound, fun hbefore _ => hdelivers hbefore⟩
  | reconnect input =>
      obtain ⟨s', hstep, hsound, hdelivers⟩ := reconnect_step h he
      exact ⟨s', hstep, hsound, fun _ hend => hdelivers hend⟩

theorem run_spec {s : Session} (h : Sound s) {events : List Event}
    (hevents : ∀ e ∈ events, NulFree e) :
    ∃ s', run step (some s) events = some s' ∧ Sound s' ∧
      (Delivering s → Along step ReconnectsEmpty (some s) events → Delivering s') := by
  induction events generalizing s with
  | nil => exact ⟨s, rfl, h, fun hbefore _ => hbefore⟩
  | cons e events ih =>
      obtain ⟨s', hstep, hsound, hfirst⟩ := step_spec h (hevents e List.mem_cons_self)
      obtain ⟨s'', hrun, hsound', hrest⟩ :=
        ih hsound fun e he => hevents e (List.mem_cons_of_mem _ he)
      rw [run_cons, hstep]
      refine ⟨s'', hrun, hsound', fun hbefore halong => ?_⟩
      obtain ⟨hthis, hothers⟩ := halong
      rw [hstep] at hothers
      exact hrest (hfirst hbefore hthis) hothers

/-- The library has just been loaded, and the first connection is made. -/
def start (input : List Char) : Session := { input := input }

/-- No call writes outside the buffer. The codes of every connection are its lines, if
nothing waits in the buffer whenever a connection is closed. -/
theorem nextcode_delivers (input : List Char) (hinput : nul ∉ input) (events : List Event)
    (hevents : ∀ e ∈ events, NulFree e) :
    ∃ s, run step (some (start input)) events = some s ∧
      (Along step ReconnectsEmpty (some (start input)) events → Delivers s) := by
  have hsound : Sound (start input) := ⟨⟨Nat.zero_le _, fun mem hmem => by cases hmem⟩, hinput⟩
  have hstart : Delivering (start input) :=
    ⟨[], [], by simp, rfl, rfl, ⟨rfl, .inl ⟨rfl, rfl⟩⟩, fun _ => List.not_mem_nil⟩
  obtain ⟨s, hrun, -, hdelivers⟩ := run_spec hsound hevents
  exact ⟨s, hrun, fun halong => (hdelivers hstart halong).delivers⟩

instance : DecidablePred NulFree
  | .call _ _ => .isTrue trivial
  | .reconnect input => inferInstanceAs (Decidable (nul ∉ input))

/-- A call that finds `n` bytes. -/
def callWith (n : ℕ) : Event := .call (.data n) fun _ => '?'

instance : ∀ o, DecidablePred (ReconnectsEmpty o)
  | some s, .reconnect _ => inferInstanceAs (Decidable (s.client.endLen = 0))
  | some _, .call _ _ => .isTrue trivial
  | none, _ => .isTrue trivial

/-- A line in three pieces, two lines in one, and a second connection. -/
theorem nextcode_delivers_pieces :
    ∃ s, run step (some (start "0 0 up tv\n1 0 ok tv\n2 0 go tv\n".toList))
        [callWith 3, .call .again fun _ => '?', callWith 3, callWith 200, callWith 0, callWith 0,
          .reconnect "3 0 up tv\n".toList, callWith 200] = some s ∧ Delivers s :=
  (nextcode_delivers "0 0 up tv\n1 0 ok tv\n2 0 go tv\n".toList (by decide +kernel) _
    (by decide +kernel)).imp fun _ h => ⟨h.1, h.2 (by decide +kernel)⟩

/-- The connection is closed in the middle of a line: no code of the next one is
returned. -/
theorem nextcode_delivers_fails :
    ¬ ∀ (input : List Char) (events : List Event), nul ∉ input → (∀ e ∈ events, NulFree e) →
      ∀ s, run step (some (start input)) events = some s → Delivers s := by
  intro h
  have hrun : (run step (some (start "0 0 up".toList))
      [callWith 6, .reconnect "1 0 ok tv\n".toList, callWith 200]).map
        (fun s => (s.codes, wholeLines s.received, s.gotCode)) =
      some ([], ["1 0 ok tv\n".toList], false) := by decide +kernel
  obtain ⟨s, hs, hvalues⟩ := Option.map_eq_some_iff.mp hrun
  obtain ⟨hcodes, hlines, hlast⟩ : s.codes = [] ∧ wholeLines s.received = ["1 0 ok tv\n".toList] ∧
      s.gotCode = false := by simpa using hvalues
  have hdelivers := (h _ _ (by decide +kernel) (by decide +kernel) s hs).2 hlast
  rw [hcodes, hlines] at hdelivers
  cases hdelivers

end Nextcode

end Lirc
