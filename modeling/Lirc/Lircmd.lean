import Lirc.Command
import Lirc.Library.Memory
import Lirc.Library.Scanf
import Lirc.Library.Run

/-!
The loop of lircmd: events are taken from the reads of its socket and given to
`mouse_conv`. The terminator is written at `len + end_len`, where `len` is the size of
the last read; a pass that finds a line in the buffer does none. `none` is a write
outside the buffer.
-/

namespace Lirc

open CString Lines Memory Scanf Transition

namespace Lircmd

/-- The arguments of `mouse_conv`. -/
structure MouseEvent where
  rep : ℤ
  button : List Char
  remote : List Char
  deriving DecidableEq, Repr

/-- `sscanf(buffer, "%*llx %x %s %s\n", &rep, button, remote)`, where it returns 3. -/
def scanEvent (s : List Char) : Option MouseEvent := do
  let (_, s) ← hex s
  let (rep, s) ← hex s
  let (button, s) ← word s
  let (remote, _) ← word s
  some ⟨toInt rep, button, remote⟩

/-- The variables of `loop`, what lircd still sends, what has been read and the calls
of `mouse_conv`. -/
structure Loop where
  buffer : List Char
  len : ℕ := 0
  endLen : ℕ := 0
  input : List Char
  received : List Char := []
  events : List MouseEvent := []
  deriving DecidableEq, Repr

/-- `read` of what has come, as far as there is room for it. -/
def readBytes (available : ℕ) (m : Loop) : List Char :=
  m.input.take (min available (packetSize - m.endLen))

/-- From the terminator on. -/
def scanBuffer (m : Loop) : Option Loop := do
  let buffer ← store m.buffer (m.len + m.endLen) nul
  let s ← string buffer
  match splitLine '\n' s with
  | none => some { m with buffer := buffer, endLen := 0 }
  | some (_, rest) => do
      let moved ← copyTo buffer 0 (rest ++ [nul])
      some { m with
        buffer := moved, endLen := rest.length, events := m.events ++ (scanEvent s).toList }

/-- A pass of the loop, in which so many bytes have come when it reads. A read that
is interrupted goes on with the next pass. -/
def pass : Option Loop → ℕ → Option Loop
  | none, _ => none
  | some m, available => do
      let s ← string m.buffer
      if '\n' ∈ s then scanBuffer m
      else
        match readBytes available m with
        | [] => some m
        | bytes => do
            let buffer ← copyTo m.buffer m.endLen bytes
            scanBuffer { m with
              buffer := buffer, len := bytes.length, input := m.input.drop bytes.length,
              received := m.received ++ bytes }

/-! ### What should be passed on -/

/-- The well-formed event lines of some bytes. -/
def eventsOf (bytes : List Char) : List MouseEvent :=
  (complete '\n' bytes).filterMap fun line => scanEvent (line ++ ['\n'])

/-- `mouse_conv` has been called for the event lines that have been read, up to those
that wait in the buffer. -/
def Passes (m : Loop) : Prop :=
  m.events <+: eventsOf m.received ∧
    ('\n' ∉ cstr m.buffer → m.events = eventsOf m.received)

/-- What a pass reads. -/
def newBytes (m : Loop) (available : ℕ) : List Char :=
  if '\n' ∈ cstr m.buffer then [] else readBytes available m

/-- A pass that reads brings the end of a line. One that does not writes the terminator
inside the buffer. A line that is no event is not made one by those behind it. -/
def KeepsLines : Option Loop → ℕ → Prop
  | none, _ => True
  | some m, available =>
      ('\n' ∈ cstr m.buffer → m.len + m.endLen ≤ packetSize) ∧
        ('\n' ∉ cstr m.buffer → newBytes m available ≠ [] → '\n' ∈ newBytes m available) ∧
        ∀ found ∈ splitLine '\n' (cstr m.buffer ++ newBytes m available),
          scanEvent (found.1 ++ ['\n']) = none →
            scanEvent (cstr m.buffer ++ newBytes m available) = none

/-! ### One line -/

theorem scanEvent_line {line : List Char} {e : MouseEvent} (h : scanEvent (line ++ ['\n']) = some e)
    (more : List Char) : scanEvent (line ++ '\n' :: more) = some e := by
  simp only [scanEvent, Option.bind_eq_bind, Option.bind_eq_some_iff] at h
  obtain ⟨⟨a₁, s₁⟩, h₁, ⟨a₂, s₂⟩, h₂, ⟨a₃, s₃⟩, h₃, ⟨a₄, s₄⟩, h₄, he⟩ := h
  obtain ⟨left₁, rfl, hex₁⟩ := hex_local line a₁ s₁ h₁
  obtain ⟨left₂, rfl, hex₂⟩ := hex_local left₁ a₂ s₂ h₂
  obtain ⟨left₃, rfl, word₃⟩ := word_local left₂ a₃ s₃ h₃
  obtain ⟨left₄, rfl, word₄⟩ := word_local left₃ a₄ s₄ h₄
  simp only [scanEvent, hex₁, hex₂, word₃, word₄, Option.bind_eq_bind, Option.bind_some]
  exact he

/-- The first line of a string is passed on as it is alone. -/
theorem scanEvent_first {line more : List Char}
    (h : scanEvent (line ++ ['\n']) = none → scanEvent (line ++ '\n' :: more) = none) :
    scanEvent (line ++ '\n' :: more) = scanEvent (line ++ ['\n']) := by
  cases halone : scanEvent (line ++ ['\n']) with
  | none => exact h halone
  | some e => exact scanEvent_line halone more

/-- The lines that have been handled, and the bytes that wait. -/
structure Handled (m : Loop) (lines : List (List Char)) (bytes : List Char) : Prop where
  size : m.buffer.length = packetSize + 1
  stores : Stores m.buffer bytes
  endLen : m.endLen = bytes.length
  input : nul ∉ m.input
  whole : ∀ line ∈ lines, '\n' ∉ line
  received : m.received = stream '\n' lines ++ bytes
  events : m.events = lines.filterMap fun line => scanEvent (line ++ ['\n'])

section Pass

variable {m : Loop} {lines : List (List Char)} {bytes : List Char}

theorem Handled.passes (h : Handled m lines bytes) : Passes m := by
  have hevents : eventsOf m.received = m.events ++ eventsOf bytes := by
    rw [eventsOf, h.received, complete_stream h.whole, List.filterMap_append, ← h.events, eventsOf]
  rw [Passes, hevents]
  refine ⟨List.prefix_append _ _, fun hnone => ?_⟩
  have hstring : cstr m.buffer = bytes :=
    Option.some.inj ((stores_cstr h.stores.nul_mem).string.symm.trans h.stores.string)
  rw [hstring] at hnone
  rw [eventsOf, complete_of_not_mem hnone, List.filterMap_nil, List.append_nil]

/-- A line is taken from the buffer. -/
theorem scanBuffer_spec {buffer line rest : List Char}
    (hstore : store m.buffer (m.len + m.endLen) nul = some buffer)
    (hsize : buffer.length = packetSize + 1) (hstores : Stores buffer (line ++ '\n' :: rest))
    (hline : '\n' ∉ line) :
    ∃ moved, scanBuffer m = some { m with
        buffer := moved, endLen := rest.length,
        events := m.events ++ (scanEvent (line ++ '\n' :: rest)).toList } ∧
      moved.length = packetSize + 1 ∧ Stores moved rest := by
  have hrest : nul ∉ rest := fun h => hstores.1 (List.mem_append_right _ (List.mem_cons_of_mem _ h))
  have hshort : rest.length < buffer.length := by
    have hlength := hstores.length_lt
    rw [List.length_append, List.length_cons] at hlength
    omega
  obtain ⟨moved, hcopy, hkept, hmoved⟩ := copyTo_string hrest hshort
  refine ⟨moved, ?_, hkept.trans hsize, hmoved⟩
  rw [scanBuffer, hstore, Option.bind_eq_bind, Option.bind_some, hstores.string, Option.bind_some,
    splitLine_append hline]
  simp only [hcopy, Option.bind_some]

/-- After a line has been taken. -/
theorem Handled.take {line rest : List Char} (h : Handled m lines bytes) {m' : Loop} (new : List Char)
    (hbuffer : m'.buffer.length = packetSize + 1 ∧ Stores m'.buffer rest)
    (hend : m'.endLen = rest.length) (hinput : nul ∉ m'.input) (hline : '\n' ∉ line)
    (hnew : bytes ++ new = line ++ '\n' :: rest)
    (hreceived : m'.received = m.received ++ new)
    (hevents : m'.events = m.events ++ (scanEvent (line ++ ['\n'])).toList) :
    Handled m' (lines ++ [line]) rest := by
  refine ⟨hbuffer.1, hbuffer.2, hend, hinput, ?_, ?_, ?_⟩
  · intro l hl
    obtain hl | hl := List.mem_append.mp hl
    · exact h.whole l hl
    · rw [List.mem_singleton.mp hl]
      exact hline
  · rw [hreceived, h.received, List.append_assoc, hnew, stream, stream, List.flatMap_append]
    simp
  · rw [hevents, h.events, List.filterMap_append]
    cases hscan : scanEvent (line ++ ['\n']) with
    | none => simp [hscan]
    | some e => simp [hscan]

/-- What one pass keeps. -/
theorem pass_spec (h : Handled m lines bytes) {available : ℕ}
    (hkeeps : KeepsLines (some m) available) :
    ∃ m' lines' bytes', pass (some m) available = some m' ∧ Handled m' lines' bytes' := by
  have hstring : cstr m.buffer = bytes :=
    Option.some.inj ((stores_cstr h.stores.nul_mem).string.symm.trans h.stores.string)
  rw [KeepsLines, newBytes, hstring] at hkeeps
  obtain ⟨hroom, hbrings, hfirst⟩ := hkeeps
  rw [pass, h.stores.string, Option.bind_eq_bind, Option.bind_some]
  by_cases hmem : '\n' ∈ bytes
  · -- a line waits in the buffer
    obtain ⟨line, rest, hsplit⟩ := splitLine_of_mem hmem
    obtain ⟨hline, hnot⟩ := splitLine_eq_some hsplit
    have hinside := hroom hmem
    obtain ⟨buffer, hstore, hsize, hstores⟩ := h.stores.store_behind (i := m.len + m.endLen)
      (by rw [h.endLen]; omega) (by rw [h.size]; omega)
    rw [hline] at hstores
    obtain ⟨moved, hscan, hmoved⟩ := scanBuffer_spec hstore (hsize.trans h.size) hstores hnot
    rw [if_pos hmem, hscan]
    refine ⟨_, lines ++ [line], rest, rfl, h.take [] hmoved rfl h.input hnot ?_ ?_ ?_⟩
    · rw [List.append_nil, hline]
    · rw [List.append_nil]
    · rw [if_pos hmem, List.append_nil] at hfirst
      have halone := hfirst (line, rest) hsplit
      rw [hline] at halone
      rw [scanEvent_first halone]
  · rw [if_neg hmem]
    rw [if_neg hmem] at hfirst hbrings
    generalize hread : readBytes available m = new at hfirst hbrings
    cases new with
    | nil => exact ⟨m, lines, bytes, rfl, h⟩
    | cons c cs =>
        -- a read, which brings the end of a line
        have hfront : c :: cs <+: m.input := by
          rw [← hread]
          exact List.take_prefix _ _
        have hcount : (c :: cs).length ≤ packetSize - m.endLen := by
          rw [← hread, readBytes, List.length_take]
          omega
        have hnul : nul ∉ c :: cs := fun hmem => h.input (hfront.subset hmem)
        have hends := hbrings hmem (List.cons_ne_nil c cs)
        obtain ⟨line, rest, hsplit⟩ := splitLine_of_mem (List.mem_append_right bytes hends)
        obtain ⟨hline, hnot⟩ := splitLine_eq_some hsplit
        have hpositive : 0 < (c :: cs).length := Nat.succ_pos _
        obtain ⟨buffer, hcopy, hsize, hstores⟩ := h.stores.append hnul (by rw [h.size, ← h.endLen]; omega)
        obtain ⟨copied, hcopied, hstore⟩ := Option.bind_eq_some_iff.mp hcopy
        rw [← h.endLen] at hcopied hstore
        rw [Nat.add_comm] at hstore
        rw [hline] at hstores
        have hscan := scanBuffer_spec (m := { m with
          buffer := copied, len := (c :: cs).length, input := m.input.drop (c :: cs).length,
          received := m.received ++ c :: cs }) hstore (hsize.trans h.size) hstores hnot
        obtain ⟨moved, hscan, hmoved⟩ := hscan
        simp only [hcopied, Option.bind_some, hscan]
        refine ⟨_, lines ++ [line], rest, rfl, h.take (c :: cs) hmoved rfl ?_ hnot hline rfl ?_⟩
        · exact fun hmem => h.input (List.mem_of_mem_drop hmem)
        · have halone := hfirst (line, rest) hsplit
          rw [hline] at halone
          rw [scanEvent_first halone]

end Pass

/-! ### The loop -/

/-- The loop begins: of the buffer only `buffer[0] = 0` is known. -/
def start (junk input : List Char) : Loop := { buffer := nul :: junk, input := input }

theorem start_handled {junk input : List Char} (hjunk : junk.length = packetSize)
    (hinput : nul ∉ input) : Handled (start junk input) [] [] where
  size := congrArg (· + 1) hjunk
  stores := ⟨List.not_mem_nil, junk, rfl⟩
  endLen := rfl
  input := hinput
  whole := fun _ h => absurd h List.not_mem_nil
  received := rfl
  events := rfl

/-- Every pass writes inside the buffer and the loop passes on the event lines, if each
read brings the end of a line, the last read and what waits behind a line have room
in the buffer, and no line that is not an event becomes one with those behind it. -/
theorem loop_passes (junk input : List Char) (hjunk : junk.length = packetSize)
    (hinput : nul ∉ input) (available : List ℕ)
    (h : Along pass KeepsLines (some (start junk input)) available) :
    ∃ m, run pass (some (start junk input)) available = some m ∧ Passes m := by
  have hstep : ∀ o n, (∃ m lines bytes, o = some m ∧ Handled m lines bytes) → KeepsLines o n →
      ∃ m lines bytes, pass o n = some m ∧ Handled m lines bytes := by
    rintro o n ⟨m, lines, bytes, rfl, hhandled⟩ hkeeps
    exact pass_spec hhandled hkeeps
  obtain ⟨m, lines, bytes, hrun, hhandled⟩ :=
    h.invariant hstep ⟨_, [], [], rfl, start_handled hjunk hinput⟩
  exact ⟨m, hrun, hhandled.passes⟩

instance : ∀ o n, Decidable (KeepsLines o n)
  | none, _ => .isTrue trivial
  | some m, n => inferInstanceAs (Decidable (('\n' ∈ cstr m.buffer → _) ∧
      ('\n' ∉ cstr m.buffer → newBytes m n ≠ [] → '\n' ∈ newBytes m n) ∧
      ∀ found ∈ splitLine '\n' (cstr m.buffer ++ newBytes m n), _ → _))

/-- Two events and the beginning of a third come with one read, and its end with
another. -/
theorem loop_passes_cut :
    ∃ m, run pass (some (start (List.replicate packetSize '?')
        "0 0 up tv\n1 1 ok tv\n2 0 go tv\n".toList)) [25, 0, 0, 200] = some m ∧ Passes m :=
  loop_passes (List.replicate packetSize '?') "0 0 up tv\n1 1 ok tv\n2 0 go tv\n".toList
    (by decide +kernel) (by decide +kernel) [25, 0, 0, 200] (by decide +kernel)

/-- An event that comes in two reads is lost. -/
theorem loop_passes_fails :
    ¬ ∀ (junk input : List Char) (available : List ℕ), junk.length = packetSize → nul ∉ input →
      ∀ m, run pass (some (start junk input)) available = some m → Passes m := by
  intro h
  have hrun : (run pass (some (start (List.replicate packetSize '?') "0 0 up tv\n".toList))
      [4, 200]).map (fun m => (m.events, eventsOf m.received, decide ('\n' ∈ cstr m.buffer))) =
      some ([], [⟨0, "up".toList, "tv".toList⟩], false) := by decide +kernel
  obtain ⟨m, hm, hvalues⟩ := Option.map_eq_some_iff.mp hrun
  obtain ⟨hevents, hexpected, hnone⟩ : m.events = [] ∧
      eventsOf m.received = [⟨0, "up".toList, "tv".toList⟩] ∧ '\n' ∉ cstr m.buffer := by
    simpa using hvalues
  have hpasses := (h _ _ _ (by decide +kernel) (by decide +kernel) m hm).2 hnone
  rw [hevents, hexpected] at hpasses
  cases hpasses

end Lircmd

end Lirc
