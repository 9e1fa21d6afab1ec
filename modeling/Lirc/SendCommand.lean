import Lirc.Library.Decimal
import Lirc.Packets

/-!
The other end of a connection: `lirc_send_command` of the client library and `send_packet` of
irsend send a command and read lines up to the end of the reply to it. What they read has been
cut anywhere, and other packets may stand in front of the reply.
-/

namespace Lirc

open CString Lines Numeral

/-! ### Lines of a socket -/

/-- The static buffer of a client, and what is still to come through its socket. -/
structure Inbox where
  buffer : List Char := []
  reads : List (List Char)

namespace Inbox

/-- All that is still to be read. -/
def stream (x : Inbox) : List Char := x.buffer ++ x.reads.flatten

/-- No read comes back empty-handed before the end. -/
structure Open (x : Inbox) : Prop where
  nonempty : ∀ bytes ∈ x.reads, bytes ≠ []
  noNul : nul ∉ x.stream

end Inbox

/-- `read`: of what has come as much as there is room for. At the end of it the call fails, or
the time is up. -/
def readSocket (room : ℕ) : List (List Char) → List Char × List (List Char)
  | [] => ([], [])
  | bytes :: reads =>
      if bytes.length ≤ room then (bytes, reads) else (bytes.take room, bytes.drop room :: reads)

theorem readSocket_flatten (room : ℕ) (reads : List (List Char)) :
    (readSocket room reads).1 ++ (readSocket room reads).2.flatten = reads.flatten := by
  cases reads with
  | nil => rfl
  | cons bytes reads =>
      rw [readSocket]
      split
      · rfl
      · rw [List.flatten_cons, ← List.append_assoc, List.take_append_drop]
        rfl

theorem readSocket_shrinks {room : ℕ} {reads reads' : List (List Char)} {c : Char}
    {cs : List Char} (h : readSocket room reads = (c :: cs, reads')) :
    reads'.flatten.length + cs.length + 1 = reads.flatten.length := by
  have hflat := congrArg List.length (readSocket_flatten room reads)
  simp only [h, List.length_append, List.length_cons] at hflat
  omega

/-- What is left is not empty-handed either, and something is read if there is room. -/
theorem readSocket_nonempty (room : ℕ) {reads : List (List Char)}
    (h : ∀ bytes ∈ reads, bytes ≠ []) :
    (∀ bytes ∈ (readSocket room reads).2, bytes ≠ []) ∧
      (0 < room → reads ≠ [] → (readSocket room reads).1 ≠ []) := by
  cases reads with
  | nil => exact ⟨h, fun _ hne => absurd rfl hne⟩
  | cons bytes reads =>
      obtain ⟨hbytes, hreads⟩ := List.forall_mem_cons.mp h
      rw [readSocket]
      split
      · exact ⟨hreads, fun _ _ => hbytes⟩
      · next hroom =>
          refine ⟨List.forall_mem_cons.mpr ⟨?_, hreads⟩, fun hpos _ => ?_⟩
          · rw [ne_eq, List.drop_eq_nil_iff]
            omega
          · rw [ne_eq, List.take_eq_nil_iff, not_or]
            exact ⟨by omega, hbytes⟩

/-- The loop over the reads. The buffer holds `size` bytes; `clip` is what counts of them as
having been read. -/
def nextString (size : ℕ) (clip : List Char → List Char) (buffer : List Char)
    (reads : List (List Char)) : Option (List Char) × Inbox :=
  match splitLine '\n' (cstr buffer) with
  | some (line, _) => (some line, ⟨buffer.drop (line.length + 1), reads⟩)
  | none =>
      if size ≤ buffer.length then (none, ⟨[], reads⟩)
      else
        match _hread : readSocket (size - buffer.length) reads with
        | ([], reads) => (none, ⟨[], reads⟩)
        | (c :: cs, reads) => nextString size clip (clip (buffer ++ c :: cs)) reads
termination_by reads.flatten.length
decreasing_by
  have hless := readSocket_shrinks _hread
  omega

/-- `LIRC_PACKET_SIZE` -/
def lircPacketSize : ℕ := 255

/-- `lirc_read_string` -/
def lircReadString (x : Inbox) : Option (List Char) × Inbox :=
  if nul ∈ x.buffer then (none, ⟨[], x.reads⟩) else nextString lircPacketSize id x.buffer x.reads

/-- `read_string` of irsend -/
def readString (x : Inbox) : Option (List Char) × Inbox :=
  nextString packetSize cstr (cstr x.buffer) x.reads

section NextString

variable {size : ℕ} {clip : List Char → List Char}

/-- Each line takes something away. -/
theorem nextString_shrinks (hclip : ∀ bytes, (clip bytes).length ≤ bytes.length)
    {buffer : List Char} {reads : List (List Char)} {line : List Char} {y : Inbox}
    (h : nextString size clip buffer reads = (some line, y)) :
    y.stream.length < buffer.length + reads.flatten.length := by
  fun_induction nextString size clip buffer reads with
  | case1 buffer reads line' rest hsplit =>
      obtain ⟨-, rfl⟩ := Prod.mk.inj h
      have hstring := (splitLine_eq_some hsplit).1
      have hlen : (cstr buffer).length ≤ buffer.length := (List.takeWhile_prefix _).length_le
      rw [hstring, List.length_append, List.length_cons] at hlen
      show (buffer.drop (line'.length + 1) ++ reads.flatten).length < _
      rw [List.length_append, List.length_drop]
      omega
  | case2 => cases h
  | case3 => cases h
  | case4 buffer reads hsplit hroom c cs reads' hread ih =>
      have hless := readSocket_shrinks hread
      have hbuffer := hclip (buffer ++ c :: cs)
      rw [List.length_append, List.length_cons] at hbuffer
      have hline := ih h
      omega

/-- Where no line ends, it is the beginning of the first line. -/
theorem beginning_of_line {α : Type*} {nl : α} {buffer more line rest : List α}
    (hbuffer : nl ∉ buffer) (h : buffer ++ more = line ++ nl :: rest) :
    ∃ behind, line = buffer ++ behind ∧ more = behind ++ nl :: rest := by
  rcases List.append_eq_append_iff.mp h with ⟨behind, hline, hmore⟩ | ⟨front, hfront, hrest⟩
  · exact ⟨behind, hline, hmore⟩
  · cases front with
    | nil => exact ⟨[], by simpa using hfront.symm, by simpa using hrest.symm⟩
    | cons c front =>
        obtain rfl := (List.cons.inj hrest).1
        exact absurd (hfront ▸ List.mem_append_right _ List.mem_cons_self) hbuffer

/-- A line that is not too long is read, however it has been cut. -/
theorem nextString_line (hclip : ∀ bytes, nul ∉ bytes → clip bytes = bytes)
    {line rest buffer : List Char} {reads : List (List Char)} (hline : '\n' ∉ line)
    (hlen : line.length < size) (hopen : Inbox.Open ⟨buffer, reads⟩)
    (hstream : buffer ++ reads.flatten = line ++ '\n' :: rest) :
    ∃ y, nextString size clip buffer reads = (some line, y) ∧ y.stream = rest ∧ y.Open := by
  have hnul : nul ∉ buffer := fun hmem => hopen.noNul (List.mem_append_left _ hmem)
  fun_induction nextString size clip buffer reads with
  | case1 buffer reads line' rest' hsplit =>
      rw [cstr_eq_self hnul] at hsplit
      obtain ⟨rfl, hline'⟩ := splitLine_eq_some hsplit
      rw [List.append_assoc, List.cons_append] at hstream
      have heq := (splitLine_append hline' (rest' ++ reads.flatten)).symm.trans
        ((congrArg (splitLine '\n') hstream).trans (splitLine_append hline rest))
      obtain ⟨rfl, rfl⟩ := Prod.mk.inj (Option.some.inj heq)
      have hdrop : (line' ++ '\n' :: rest').drop (line'.length + 1) = rest' := by simp
      refine ⟨_, rfl, by rw [Inbox.stream, hdrop], hopen.nonempty, fun hmem => ?_⟩
      rw [Inbox.stream, hdrop] at hmem
      refine hopen.noNul ?_
      rw [Inbox.stream, List.append_assoc, List.cons_append]
      exact List.mem_append_right _ (List.mem_cons_of_mem _ hmem)
  | case2 buffer reads hsplit hfull =>
      rw [cstr_eq_self hnul] at hsplit
      obtain ⟨behind, rfl, -⟩ := beginning_of_line (splitLine_eq_none.mp hsplit) hstream
      rw [List.length_append] at hlen
      omega
  | case3 buffer reads hsplit hroom reads' hread =>
      rw [cstr_eq_self hnul] at hsplit
      obtain ⟨behind, -, hmore⟩ := beginning_of_line (splitLine_eq_none.mp hsplit) hstream
      have hreads : reads ≠ [] := by
        rintro rfl
        simp at hmore
      have hnone := (readSocket_nonempty (size - buffer.length) hopen.nonempty).2
        (by omega) hreads
      exact absurd (congrArg Prod.fst hread) hnone
  | case4 buffer reads hsplit hroom c cs reads' hread ih =>
      have hflat := readSocket_flatten (size - buffer.length) reads
      have hleft := (readSocket_nonempty (size - buffer.length) hopen.nonempty).1
      rw [hread] at hflat hleft
      have hall : (buffer ++ c :: cs) ++ reads'.flatten = buffer ++ reads.flatten := by
        rw [List.append_assoc, hflat]
      have hnoNul : nul ∉ (buffer ++ c :: cs) ++ reads'.flatten := hall ▸ hopen.noNul
      have hnul' : nul ∉ buffer ++ c :: cs := fun hmem => hnoNul (List.mem_append_left _ hmem)
      rw [hclip _ hnul'] at ih ⊢
      exact ih ⟨hleft, hnoNul⟩ (hall.trans hstream) hnul'

end NextString

/-- What a client reads its lines with. -/
structure LineReader where
  /-- The bytes its buffer holds. -/
  size : ℕ
  read : Inbox → Option (List Char) × Inbox
  shrinks : ∀ {x y : Inbox} {line : List Char}, read x = (some line, y) →
    y.stream.length < x.stream.length
  line : ∀ {x : Inbox} {line rest : List Char}, '\n' ∉ line → line.length < size → x.Open →
    x.stream = line ++ '\n' :: rest → ∃ y, read x = (some line, y) ∧ y.stream = rest ∧ y.Open

/-- The client library reads with `lirc_read_string`. -/
def lircReader : LineReader where
  size := lircPacketSize
  read := lircReadString
  shrinks := by
    intro x y line h
    rw [lircReadString] at h
    split at h
    · cases h
    · have hless := nextString_shrinks (fun _ => le_rfl) h
      rwa [← List.length_append] at hless
  line := by
    intro x line rest hline hlen hopen hstream
    rw [lircReadString, if_neg fun hmem => hopen.noNul (List.mem_append_left _ hmem)]
    exact nextString_line (fun _ _ => rfl) hline hlen hopen hstream

/-- irsend reads with `read_string`. -/
def irsendReader : LineReader where
  size := packetSize
  read := readString
  shrinks := by
    intro x y line h
    have hclip : ∀ bytes, (cstr bytes).length ≤ bytes.length := fun bytes =>
      (List.takeWhile_prefix _).length_le
    have hless := nextString_shrinks hclip h
    rw [Inbox.stream, Inbox.stream, List.length_append, List.length_append]
    rw [Inbox.stream, List.length_append] at hless
    have hbuffer := hclip x.buffer
    omega
  line := by
    intro x line rest hline hlen hopen hstream
    rw [readString, cstr_eq_self fun hmem => hopen.noNul (List.mem_append_left _ hmem)]
    exact nextString_line (fun _ => cstr_eq_self) hline hlen hopen hstream

/-! ### Replies -/

/-- `enum packet_state` -/
inductive PacketState
  | pBegin | pMessage | pStatus | pData | pN | pDataN | pEnd
  deriving DecidableEq, Repr

/-- The variables of `lirc_send_command`; the lines of data are kept as they come. -/
structure Conversation where
  state : PacketState := .pBegin
  /-- `LIRC_RET_SUCCESS` -/
  status : Bool := true
  n : ℕ := 0
  dataN : ℕ := 0
  data : List (List Char) := []
  deriving DecidableEq, Repr

inductive LineResult
  | more (c : Conversation)
  | goodPacket (c : Conversation)
  | badPacket
  deriving DecidableEq, Repr

/-- The `switch` on a line. -/
def nextLine (command string : List Char) (c : Conversation) : LineResult :=
  match c.state with
  | .pBegin =>
      if strcaseeq string "BEGIN".toList then .more { c with state := .pMessage } else .more c
  | .pMessage =>
      if strcaseeq string (command.take string.length) ∧ string.length + 1 = command.length then
        .more { c with state := .pStatus }
      else .more { c with state := .pBegin }
  | .pStatus =>
      if strcaseeq string "SUCCESS".toList then .more { c with status := true, state := .pData }
      else if strcaseeq string "END".toList then .goodPacket { c with status := true }
      else if strcaseeq string "ERROR".toList then
        .more { c with status := false, state := .pData }
      else .badPacket
  | .pData =>
      if strcaseeq string "END".toList then .goodPacket c
      else if strcaseeq string "DATA".toList then .more { c with state := .pN }
      else .badPacket
  | .pN =>
      if string = [] ∨ (scan string).rest ≠ [] then .badPacket
      else
        let dataN := strtou32 (scan string)
        .more { c with dataN, state := if dataN = 0 then .pEnd else .pDataN }
  | .pDataN =>
      .more { c with
        n := c.n + 1
        data := c.data ++ [string]
        state := if c.n + 1 = c.dataN then .pEnd else .pDataN }
  | .pEnd => if strcaseeq string "END".toList then .goodPacket c else .badPacket

/-- The loop over the lines, once the command has been written. `none` is a packet that is bad,
or is not read to its end. -/
def converse (r : LineReader) (command : List Char) (c : Conversation) (x : Inbox) :
    Option Conversation × Inbox :=
  match _hread : r.read x with
  | (none, y) => (none, y)
  | (some string, y) =>
      match nextLine command string c with
      | .more c => converse r command c y
      | .goodPacket c => (some c, y)
      | .badPacket => (none, y)
termination_by x.stream.length
decreasing_by exact r.shrinks _hread

/-- The lines are read, and the reply goes on behind them. -/
def follow (command : List Char) : Conversation → List (List Char) → Option Conversation
  | c, [] => some c
  | c, string :: strings =>
      match nextLine command string c with
      | .more c => follow command c strings
      | _ => none

theorem follow_append (command : List Char) (c : Conversation) (ls ls' : List (List Char)) :
    follow command c (ls ++ ls') = (follow command c ls).bind fun c => follow command c ls' := by
  induction ls generalizing c with
  | nil => rfl
  | cons line ls ih =>
      rw [List.cons_append, follow, follow]
      cases nextLine command line c with
      | more c => exact ih c
      | goodPacket c => rfl
      | badPacket => rfl

section Converse

variable {r : LineReader} {command : List Char} {c c' : Conversation} {x : Inbox}

/-- Lines that go on. -/
theorem converse_follow {ls : List (List Char)} {rest : List Char}
    (hls : ∀ l ∈ ls, '\n' ∉ l ∧ l.length < r.size) (hopen : x.Open)
    (hstream : x.stream = stream '\n' ls ++ rest) (hfollow : follow command c ls = some c') :
    ∃ y, converse r command c x = converse r command c' y ∧ y.stream = rest ∧ y.Open := by
  induction ls generalizing c x with
  | nil =>
      obtain rfl := Option.some.inj hfollow
      exact ⟨x, rfl, hstream, hopen⟩
  | cons line ls ih =>
      obtain ⟨⟨hline, hlen⟩, hls⟩ := List.forall_mem_cons.mp hls
      rw [stream_cons, List.append_assoc, List.cons_append] at hstream
      obtain ⟨y, hread, hrest, hopen'⟩ := r.line hline hlen hopen hstream
      rw [follow] at hfollow
      cases hnext : nextLine command line c with
      | goodPacket d =>
          rw [hnext] at hfollow
          cases hfollow
      | badPacket =>
          rw [hnext] at hfollow
          cases hfollow
      | more d =>
          rw [hnext] at hfollow
          obtain ⟨z, hmore, hz⟩ := ih hls hopen' hrest hfollow
          refine ⟨z, ?_, hz⟩
          rw [converse, ← hmore]
          split
          · next h => rw [hread] at h; cases h
          · next h =>
              rw [hread] at h
              cases h
              rw [hnext]

/-- The line that ends a reply. -/
theorem converse_good {line rest : List Char} (hline : '\n' ∉ line) (hlen : line.length < r.size)
    (hopen : x.Open) (hstream : x.stream = line ++ '\n' :: rest)
    (hnext : nextLine command line c = .goodPacket c') :
    ∃ y, converse r command c x = (some c', y) ∧ y.stream = rest ∧ y.Open := by
  obtain ⟨y, hread, hy⟩ := r.line hline hlen hopen hstream
  refine ⟨y, ?_, hy⟩
  rw [converse]
  split
  · next h => rw [hread] at h; cases h
  · next h =>
      rw [hread] at h
      cases h
      rw [hnext]

end Converse

/-! ### Packets that are read -/

/-- A packet that is not taken for the reply to the command. -/
def Skipped (command : List Char) : Packet → Prop
  | .event _ => True
  | .sighup => strcaseeq "SIGHUP".toList command = false
  | .reply command' _ data =>
      strcaseeq command' command = false ∧ ∀ line ∈ data, strcaseeq line "BEGIN".toList = false

section Follow

variable {command : List Char} {c : Conversation}

theorem strcaseeq_refl (name : List Char) : strcaseeq name name = true := beq_self_eq_true _

theorem strcaseeq_decimal (n : ℕ) : strcaseeq (decimal n) "BEGIN".toList = false := by
  rcases Nat.eq_zero_or_pos n with rfl | hpos
  · decide
  · obtain ⟨d, digits, hd, -, hlt⟩ := decimal_cons hpos
    have hfirst : (Nat.digitChar d).toLower ≠ 'b' := by
      interval_cases d <;> decide
    have hbegin : "BEGIN".toList.map Char.toLower = "begin".toList := by decide
    rw [strcaseeq, hd, hbegin, beq_eq_false_iff_ne, List.map_cons]
    exact fun heq => hfirst (List.cons.inj heq).1

/-- Outside of a packet a line is skipped if it does not begin one. -/
theorem follow_outside (hc : c.state = .pBegin) {ls : List (List Char)}
    (hls : ∀ l ∈ ls, strcaseeq l "BEGIN".toList = false) : follow command c ls = some c := by
  induction ls with
  | nil => rfl
  | cons line ls ih =>
      obtain ⟨hline, hls⟩ := List.forall_mem_cons.mp hls
      simp only [follow, nextLine, hc, hline, Bool.false_eq_true, if_false]
      exact ih hls

/-- Another command is answered. -/
theorem follow_other (hc : c.state = .pBegin) {command' : List Char} {ls : List (List Char)}
    (hcommand : strcaseeq command' command = false)
    (hls : ∀ l ∈ ls, strcaseeq l "BEGIN".toList = false) :
    follow (command ++ ['\n']) c ("BEGIN".toList :: command' :: ls) = some c := by
  have hbegin : strcaseeq "BEGIN".toList "BEGIN".toList = true := strcaseeq_refl _
  have hother : ¬(strcaseeq command' ((command ++ ['\n']).take command'.length) = true ∧
      command'.length + 1 = (command ++ ['\n']).length) := by
    rintro ⟨heq, hlen⟩
    rw [List.length_append, List.length_singleton] at hlen
    rw [Nat.add_right_cancel hlen, List.take_left, hcommand] at heq
    cases heq
  rw [follow, nextLine, hc]
  simp only [hbegin, if_true]
  rw [follow, nextLine]
  simp only [if_neg hother]
  have hback : ({ c with state := .pBegin } : Conversation) = c := by
    rw [← hc]
  rw [hback]
  exact follow_outside hc hls

theorem strcaseeq_event {line : List Char} (h : validEvent line = true) :
    strcaseeq line "BEGIN".toList = false := by
  have hlen := Packet.validEvent_length h
  rw [strcaseeq, beq_eq_false_iff_ne]
  intro heq
  have heq := congrArg List.length heq
  rw [List.length_map, List.length_map] at heq
  rw [heq] at hlen
  exact absurd hlen (by decide)

theorem follow_skipped (hc : c.state = .pBegin) {p : Packet} (hwell : p.WellFormed)
    (hp : Skipped command p) :
    follow (command ++ ['\n']) c p.lines = some c := by
  cases p with
  | event line =>
      refine follow_outside hc fun l hl => ?_
      obtain rfl := List.mem_singleton.mp hl
      exact strcaseeq_event hwell.2
  | sighup =>
      refine follow_other hc hp fun l hl => ?_
      obtain rfl := List.mem_singleton.mp hl
      decide
  | reply command' ok data =>
      obtain ⟨hcommand, hdata⟩ := hp
      refine follow_other hc hcommand fun l hl => ?_
      rw [List.mem_cons, List.mem_append, Packet.dataLines] at hl
      rcases hl with rfl | hl | hl
      · cases ok <;> decide
      · split at hl
        · cases hl
        · rw [List.mem_cons, List.mem_cons] at hl
          rcases hl with rfl | rfl | hl
          · decide
          · exact strcaseeq_decimal _
          · exact hdata l hl
      · obtain rfl := List.mem_singleton.mp hl
        decide

theorem follow_data (hc : c.state = .pDataN) {data : List (List Char)} (hne : data ≠ [])
    (hn : c.n + data.length = c.dataN) :
    follow command c data =
      some { c with n := c.dataN, data := c.data ++ data, state := .pEnd } := by
  induction data generalizing c with
  | nil => exact absurd rfl hne
  | cons line data ih =>
      rw [List.length_cons] at hn
      rw [follow, nextLine, hc]
      dsimp only
      by_cases hdata : data = []
      · subst hdata
        rw [if_pos (by simpa using hn), follow, ← hn]
        rfl
      · have hmore : c.n + 1 ≠ c.dataN := by
          have hpos := List.length_pos_iff_ne_nil.mpr hdata
          omega
        rw [if_neg hmore, ih rfl hdata (by dsimp only; omega)]
        simp

theorem follow_packets (hc : c.state = .pBegin) {ps : List Packet}
    (hps : ∀ p ∈ ps, p.WellFormed ∧ Skipped command p) :
    follow (command ++ ['\n']) c (ps.flatMap Packet.lines) = some c := by
  induction ps with
  | nil => rfl
  | cons p ps ih =>
      obtain ⟨hp, hps⟩ := List.forall_mem_cons.mp hps
      rw [List.flatMap_cons, follow_append, follow_skipped hc hp.1 hp.2]
      exact ih hps

/-- The reply to the command up to its last line. -/
theorem follow_reply (command : List Char) (hc : c = {}) (ok : Bool) {data : List (List Char)}
    (hfew : data.length < 2 ^ 31) :
    ∃ c', follow (command ++ ['\n']) c ("BEGIN".toList :: command ::
        (if ok then "SUCCESS".toList else "ERROR".toList) :: Packet.dataLines data) = some c' ∧
      nextLine (command ++ ['\n']) "END".toList c' = .goodPacket c' ∧
      c'.status = ok ∧ c'.data = data ∧ c'.dataN = data.length := by
  have hstatus : follow (command ++ ['\n']) c ("BEGIN".toList :: command ::
      (if ok then "SUCCESS".toList else "ERROR".toList) :: Packet.dataLines data) =
      follow (command ++ ['\n']) { state := .pData, status := ok } (Packet.dataLines data) := by
    subst hc
    have hecho : strcaseeq command ((command ++ ['\n']).take command.length) ∧
        command.length + 1 = (command ++ ['\n']).length := by
      rw [List.take_left, List.length_append, List.length_singleton]
      exact ⟨strcaseeq_refl _, rfl⟩
    have hbegin : strcaseeq "BEGIN".toList "BEGIN".toList = true := strcaseeq_refl _
    rw [follow, nextLine]
    simp only [hbegin, if_true]
    rw [follow, nextLine]
    simp only [if_pos hecho]
    cases ok <;> rfl
  rw [hstatus, Packet.dataLines]
  by_cases hdata : data = []
  · subst hdata
    exact ⟨_, rfl, rfl, rfl, rfl, rfl⟩
  · have hpos := List.length_pos_iff_ne_nil.mpr hdata
    have hscan := scan_decimal hpos
    have hnumber : strtou32 (scan (decimal data.length)) = data.length := by
      rw [hscan, strtou32, Scan.toUnsigned, if_neg (by dsimp only; omega)]
      simp only [Bool.false_eq_true, if_false, Option.getD_some]
      exact Nat.mod_eq_of_lt (by omega)
    have hne : ¬(decimal data.length = [] ∨ (scan (decimal data.length)).rest ≠ []) := by
      rw [hscan]
      rintro (hnil | hrest)
      · exact Nat.toDigits_ne_nil hnil
      · exact hrest rfl
    rw [if_neg hdata, follow, nextLine]
    simp only [show strcaseeq "DATA".toList "END".toList = false by decide,
      strcaseeq_refl "DATA".toList, Bool.false_eq_true, if_false, if_true]
    rw [follow, nextLine]
    simp only [if_neg hne, hnumber, if_neg hpos.ne']
    rw [follow_data rfl hdata (Nat.zero_add _)]
    exact ⟨_, rfl, rfl, rfl, rfl, rfl⟩

end Follow

/-- The reply is read as it was sent, whatever other packets stand in front of it and however
the stream has been cut, and what follows it is left for the next command. -/
theorem converse_reply (r : LineReader) (command : List Char) (skipped : List Packet) (ok : Bool)
    (data : List (List Char)) (rest : List Char) (x : Inbox)
    (hskipped : ∀ p ∈ skipped, p.WellFormed ∧ Skipped command p)
    (hreply : (Packet.reply command ok data).WellFormed)
    (hshort : ∀ p ∈ skipped ++ [.reply command ok data], ∀ l ∈ p.lines, l.length < r.size)
    (hopen : x.Open)
    (hstream : x.stream =
      (skipped ++ [Packet.reply command ok data]).flatMap Packet.text ++ rest) :
    ∃ c y, converse r (command ++ ['\n']) {} x = (some c, y) ∧
      c.status = ok ∧ c.data = data ∧ c.dataN = data.length ∧ y.stream = rest ∧ y.Open := by
  let ls := skipped.flatMap Packet.lines ++ ("BEGIN".toList :: command ::
    (if ok then "SUCCESS".toList else "ERROR".toList) :: Packet.dataLines data)
  have hlines : (skipped ++ [Packet.reply command ok data]).flatMap Packet.lines =
      ls ++ ["END".toList] := by
    rw [List.flatMap_append, List.flatMap_singleton, Packet.lines, List.append_assoc]
    rfl
  have hall : ∀ l ∈ ls ++ ["END".toList], '\n' ∉ l ∧ l.length < r.size := by
    intro l hl
    rw [← hlines, List.mem_flatMap] at hl
    obtain ⟨p, hp, hl⟩ := hl
    refine ⟨?_, hshort p hp l hl⟩
    rcases List.mem_append.mp hp with hp | hp
    · exact Packet.newline_notMem (hskipped p hp).1 l hl
    · obtain rfl := List.mem_singleton.mp hp
      exact Packet.newline_notMem hreply l hl
  obtain ⟨hls, hend⟩ := List.forall_mem_append.mp hall
  obtain ⟨hendLine, hendShort⟩ := hend _ (List.mem_singleton_self _)
  have hstream' : x.stream = stream '\n' ls ++ ("END".toList ++ '\n' :: rest) := by
    rw [hstream, Packet.flatMap_text, hlines, stream, List.flatMap_append, List.append_assoc,
      List.flatMap_singleton, List.append_assoc]
    rfl
  obtain ⟨c, hfollow, hgood, hstatus, hdata, hn⟩ := follow_reply command rfl ok
    hreply.2.2
  have hfollowed : follow (command ++ ['\n']) {} ls = some c := by
    rw [follow_append, follow_packets rfl hskipped]
    exact hfollow
  obtain ⟨y, hmore, hrest, hopen'⟩ := converse_follow hls hopen hstream' hfollowed
  obtain ⟨z, hdone, hz⟩ := converse_good hendLine hendShort hopen' hrest hgood
  exact ⟨c, z, hmore.trans hdone, hstatus, hdata, hn, hz⟩

/-! ### Clients -/

/-- What `lirc_send_command` returns for a packet that is good. -/
structure SentCommand where
  status : Bool
  dataN : ℕ
  buf : List Char
  written : ℕ
  deriving DecidableEq, Repr

/-- A line of data is copied to `buf` with its zero if there is room. -/
def copyLine (max : ℕ) (b : List Char × ℕ) (string : List Char) : List Char × ℕ :=
  (if b.2 + string.length + 1 < max then b.1 ++ string ++ [nul] else b.1,
    b.2 + string.length + 1)

/-- `lirc_send_command`, once the command has been written. -/
def lircSendCommand (command : List Char) (max : ℕ) (x : Inbox) : Option SentCommand × Inbox :=
  match converse lircReader command {} x with
  | (none, y) => (none, y)
  | (some c, y) =>
      let b := c.data.foldl (copyLine max) ([], 0)
      (some ⟨c.status, c.dataN, b.1, b.2⟩, y)

/-- `send_packet` of irsend, once the packet has been written: whether it returns 0, and the
lines that it prints. -/
def sendPacket (packet : List Char) (x : Inbox) : Option (Bool × List (List Char)) × Inbox :=
  match converse irsendReader packet {} x with
  | (none, y) => (none, y)
  | (some c, y) => (some (c.status, c.data), y)

/-- The lines in front of the first for which there is no room any more. -/
def fitting (max : ℕ) : ℕ → List (List Char) → List (List Char)
  | _, [] => []
  | written, line :: lines =>
      if written + line.length + 1 < max then line :: fitting max (written + line.length + 1) lines
      else []

theorem foldl_copyLine (max : ℕ) (data : List (List Char)) (b : List Char × ℕ) :
    data.foldl (copyLine max) b =
      (b.1 ++ (fitting max b.2 data).flatMap (· ++ [nul]),
        b.2 + (data.map fun line => line.length + 1).sum) := by
  induction data generalizing b with
  | nil => simp [fitting]
  | cons line data ih =>
      have hfull : ∀ w, max ≤ w → ∀ ls, fitting max w ls = [] := by
        intro w hw ls
        cases ls with
        | nil => rfl
        | cons l ls => rw [fitting, if_neg (by omega)]
      rw [List.foldl_cons, ih, copyLine, fitting]
      by_cases hfits : b.2 + line.length + 1 < max
      · simp only [if_pos hfits]
        simp only [List.flatMap_cons, List.map_cons, List.sum_cons, List.append_assoc,
          Nat.add_assoc]
      · simp only [if_neg hfits, hfull _ (Nat.le_of_not_lt hfits)]
        simp only [List.flatMap_nil, List.map_cons, List.sum_cons, Nat.add_assoc]

/-- A command with what is read on its connection up to the end of the reply. -/
structure Exchange where
  command : List Char
  skipped : List Packet
  ok : Bool
  data : List (List Char)

namespace Exchange

def packets (e : Exchange) : List Packet := e.skipped ++ [.reply e.command e.ok e.data]

/-- A client with a buffer of `size` bytes can read the packets. -/
structure Readable (size : ℕ) (e : Exchange) : Prop where
  skipped : ∀ p ∈ e.skipped, p.WellFormed ∧ Skipped e.command p
  reply : (Packet.reply e.command e.ok e.data).WellFormed
  short : ∀ p ∈ e.packets, ∀ l ∈ p.lines, l.length < size

/-- What the client library returns. -/
def result (max : ℕ) (e : Exchange) : SentCommand where
  status := e.ok
  dataN := e.data.length
  buf := (fitting max 0 e.data).flatMap (· ++ [nul])
  written := (e.data.map fun line => line.length + 1).sum

end Exchange

/-- Commands one after the other. -/
def sendCommands (max : ℕ) : List (List Char) → Inbox → List (Option SentCommand) × Inbox
  | [], x => ([], x)
  | command :: commands, x =>
      let sent := lircSendCommand (command ++ ['\n']) max x
      let others := sendCommands max commands sent.2
      (sent.1 :: others.1, others.2)

theorem lircSendCommand_exchange (max : ℕ) {e : Exchange} (he : e.Readable lircPacketSize)
    {x : Inbox} {rest : List Char} (hopen : x.Open)
    (hstream : x.stream = e.packets.flatMap Packet.text ++ rest) :
    ∃ y, lircSendCommand (e.command ++ ['\n']) max x = (some (e.result max), y) ∧
      y.stream = rest ∧ y.Open := by
  obtain ⟨c, y, hconverse, hstatus, hdata, hn, hy⟩ :=
    converse_reply lircReader e.command e.skipped e.ok e.data rest x he.skipped he.reply he.short
      hopen hstream
  refine ⟨y, ?_, hy⟩
  rw [lircSendCommand, hconverse]
  simp only [hstatus, hdata, hn, foldl_copyLine, List.nil_append, Nat.zero_add]
  rfl

/-- The commands of a client get the replies to them one after the other, and no byte of them
is left over. -/
theorem sendCommands_exchanges (max : ℕ) (es : List Exchange) (rest : List Char) (x : Inbox)
    (hes : ∀ e ∈ es, e.Readable lircPacketSize) (hopen : x.Open)
    (hstream : x.stream = (es.flatMap Exchange.packets).flatMap Packet.text ++ rest) :
    ∃ y, sendCommands max (es.map Exchange.command) x =
        (es.map fun e => some (e.result max), y) ∧ y.stream = rest := by
  induction es generalizing x with
  | nil => exact ⟨x, rfl, hstream⟩
  | cons e es ih =>
      obtain ⟨he, hes⟩ := List.forall_mem_cons.mp hes
      rw [List.flatMap_cons, List.flatMap_append, List.append_assoc] at hstream
      obtain ⟨y, hsent, hrest, hopen'⟩ := lircSendCommand_exchange max he hopen hstream
      obtain ⟨z, hothers, hz⟩ := ih y hes hopen' hrest
      refine ⟨z, ?_, hz⟩
      rw [List.map_cons, sendCommands, hsent]
      dsimp only
      rw [hothers]
      rfl

/-- The version and a list, with an event and a note about a SIGHUP in front of the first reply,
in three reads. -/
theorem sendCommands_exchanges_version :
    let es : List Exchange :=
      [⟨"VERSION".toList, [.event "0000000000000001 00 POWER tv".toList, .sighup], true,
        ["0.9.1".toList]⟩, ⟨"LIST".toList, [], true, ["tv".toList]⟩]
    let bytes := (es.flatMap Exchange.packets).flatMap Packet.text
    ∃ y, sendCommands 255 (es.map Exchange.command)
        ⟨[], [bytes.take 40, (bytes.drop 40).take 25, (bytes.drop 40).drop 25]⟩ =
      (es.map fun e => some (e.result 255), y) ∧ y.stream = [] := by
  intro es bytes
  refine sendCommands_exchanges 255 es [] _ ?_ ⟨?_, ?_⟩ ?_
  · intro e he
    rcases List.mem_pair.mp he with rfl | rfl
    · exact ⟨by simp [Packet.WellFormed, Skipped]; decide, by simp [Packet.WellFormed],
        by decide⟩
    · exact ⟨by simp, by simp [Packet.WellFormed], by decide⟩
  · decide
  · simp [Inbox.stream]
    decide
  · show bytes.take 40 ++ ((bytes.drop 40).take 25 ++ ((bytes.drop 40).drop 25 ++ [])) = bytes ++ []
    rw [List.append_nil, List.append_nil, List.take_append_drop, List.take_append_drop]

/-! ### Lists that are read -/

section ListRead

variable {env : Env} {d : Daemon} {i : ℕ} {command : List Char}

/-- A client sends one line. -/
theorem serveClient_line (hi : i < d.clin ∧ d.repeatFd ≠ some (d.clis i))
    (hcommand : '\n' ∉ command) (hnul : nul ∉ command) (hlen : command.length < packetSize) :
    serveClient env i [some (command ++ ['\n'])] d =
      if (execLine (lircd env (d.clis i)) command d).1 then
        (execLine (lircd env (d.clis i)) command d).2
      else
        removeClient env ((execLine (lircd env (d.clis i)) command d).2.clis i)
          (execLine (lircd env (d.clis i)) command d).2 := by
  have hnl : (command ++ ['\n']).length = command.length + 1 := by simp
  have hfits : (command ++ ['\n']).length ≤ packetSize := hnl ▸ hlen
  have hnone : nul ∉ command ++ ['\n'] := by
    rw [List.mem_append, not_or]
    exact ⟨hnul, by decide⟩
  have hsplit : splitLine '\n' (cstr (command ++ ['\n'])) = some (command, []) := by
    rw [cstr_eq_self hnone]
    exact splitLine_append hcommand []
  have hcall : getCommand (lircd env (d.clis i)) [some (command ++ ['\n'])] d =
      some ((execLine (lircd env (d.clis i)) command d).1,
        (execLine (lircd env (d.clis i)) command d).2, []) := by
    rw [getCommand, readTimeout, if_pos hfits]
    dsimp only
    rw [commandLoop, if_neg (by simp), hsplit]
    dsimp only
    cases hok : (execLine (lircd env (d.clis i)) command d).1 with
    | false => rfl
    | true => rw [if_neg (by simp), if_pos hnl.le]
  rw [serveClient, if_pos hi, hcall]

theorem execLine_list {fd : ℕ} {directive rest : List Char}
    (htoken : strtok whiteSpace (stripCR command) = some (directive, rest))
    (hlist : strcaseeq directive "LIST".toList = true) :
    execLine (lircd env fd) command d = list env fd (command ++ ['\n']) (strtokRest rest) d := by
  rw [execLine, htoken]
  simp only [lircd, List.find?_cons, hlist]

/-- What LIST answers is short enough for irsend. -/
theorem listing_short {arguments : Option (List Char)}
    (herror : ∀ text, parseRc env d arguments false 0 = .error text → text.length ≤ packetSize) :
    ∀ line ∈ (listing env d arguments).2, line.length < packetSize := by
  have hshown : ∀ {room : ℕ} {line tooLong : List Char}, room ≤ packetSize →
      tooLong.length < packetSize → (shownLine room line tooLong).length < packetSize := by
    intro room line tooLong hroom htooLong
    rw [shownLine]
    split
    · exact htooLong
    · omega
  intro line hline
  rw [listing] at hline
  cases hparse : parseRc env d arguments false 0 with
  | error text =>
      rw [hparse] at hline
      obtain rfl := List.mem_singleton.mp hline
      have hlen := herror text hparse
      rw [List.length_dropLast]
      rw [packetSize] at hlen ⊢
      omega
  | ok rc =>
      rw [hparse] at hline
      dsimp only at hline
      cases hremote : rc.remote with
      | none =>
          rw [hremote] at hline
          obtain ⟨a, -, rfl⟩ := List.mem_map.mp hline
          exact hshown le_rfl (by decide)
      | some a =>
          rw [hremote] at hline
          dsimp only at hline
          split at hline
          · obtain ⟨c, -, rfl⟩ := List.mem_map.mp hline
            exact hshown le_rfl (by decide)
          · next code _ =>
              have hroom : packetSize - 2 ≤ packetSize := Nat.sub_le _ _
              have hshort : (shownLine (packetSize - 2) (shownCode code)
                  "code_too_long".toList).length < packetSize := hshown hroom (by decide)
              rw [List.mem_singleton.mp hline]
              exact hshort

/-- The lines of a reply are short if those of its data are. -/
theorem reply_short {ok : Bool} {data : List (List Char)} (hcommand : command.length < packetSize)
    (hdata : ∀ line ∈ data, line.length < packetSize) (hfew : data.length < 2 ^ 31) :
    ∀ l ∈ (Packet.reply command ok data).lines, l.length < packetSize := by
  have hcount : (decimal data.length).length < packetSize := by
    have hlen : (decimal data.length).length ≤ 10 :=
      length_decimal_le (by omega) (by decide)
    rw [packetSize]
    omega
  intro l hl
  rw [Packet.lines, List.mem_cons, List.mem_cons, List.mem_cons, List.mem_append,
    Packet.dataLines] at hl
  rcases hl with rfl | rfl | rfl | hl | hl
  · decide
  · exact hcommand
  · cases ok <;> decide
  · split at hl
    · cases hl
    · rw [List.mem_cons, List.mem_cons] at hl
      rcases hl with rfl | rfl | hl
      · decide
      · exact hcount
      · exact hdata l hl
  · obtain rfl := List.mem_singleton.mp hl
    decide

end ListRead

/-- A LIST that lircd has answered is read by irsend as the names and codes of the remotes,
whatever else lircd has sent before and however the bytes have been cut. -/
theorem list_read (env : Env) (d : Daemon) (i : ℕ) (command directive rest : List Char)
    (hfit : Fit d) (hi : i < d.clin) (hidle : d.repeatFd ≠ some (d.clis i))
    (hcommand : '\n' ∉ command) (hnul : nul ∉ command) (hlen : command.length < packetSize)
    (htoken : strtok whiteSpace (stripCR command) = some (directive, rest))
    (hlist : strcaseeq directive "LIST".toList = true)
    (herror : ∀ text, parseRc env d (strtokRest rest) false 0 = .error text →
      text.length ≤ packetSize) :
    ∃ es, (serveClient env i [some (command ++ ['\n'])] d).trace = d.trace ++ es ∧
      (.broken (d.clis i) ∈ es ∨
        ∀ (skipped : List Packet) (more : List Char) (x : Inbox),
          (∀ p ∈ skipped, p.WellFormed ∧ Skipped command p ∧
            ∀ l ∈ p.lines, l.length < packetSize) →
          x.Open →
          x.stream = skipped.flatMap Packet.text ++ writtenTo (d.clis i) es ++ more →
          ∃ y, sendPacket (command ++ ['\n']) x =
              (some (listing env d (strtokRest rest)), y) ∧ y.stream = more) := by
  have hargs := (newline_notMem_token hcommand htoken).2
  have hreplied : Replied (d.clis i) _ _ _ d _ := list_replied env hargs hcommand hfit
  rw [← execLine_list htoken hlist] at hreplied
  rw [serveClient_line ⟨hi, hidle⟩ hcommand hnul hlen]
  generalize execLine (lircd env (d.clis i)) command d = answered at hreplied
  obtain ⟨clock, es, hstate, -, hbytes⟩ := hreplied.wrote
  by_cases hok : answered.1 = true
  · rw [if_pos hok] at hbytes ⊢
    refine ⟨es, by rw [hstate], .inr fun skipped more x hskipped hopen hstream => ?_⟩
    have hshort : ∀ p ∈ skipped ++ [Packet.reply command (listing env d (strtokRest rest)).1
        (listing env d (strtokRest rest)).2], ∀ l ∈ p.lines, l.length < packetSize := by
      refine List.forall_mem_append.mpr ⟨fun p hp => (hskipped p hp).2.2, fun p hp => ?_⟩
      obtain rfl := List.mem_singleton.mp hp
      exact reply_short hlen (listing_short herror) hreplied.wellFormed.2.2
    have hstream' : x.stream = (skipped ++ [Packet.reply command
        (listing env d (strtokRest rest)).1 (listing env d (strtokRest rest)).2]).flatMap
          Packet.text ++ more := by
      rw [hstream, hbytes, List.flatMap_append, List.flatMap_singleton]
    obtain ⟨c, y, hread, hstatus, hdata, -, hrest, -⟩ := converse_reply irsendReader command skipped
      _ _ more x (fun p hp => ⟨(hskipped p hp).1, (hskipped p hp).2.1⟩) hreplied.wellFormed hshort
      hopen hstream'
    refine ⟨y, ?_, hrest⟩
    rw [sendPacket, hread]
    dsimp only
    rw [hstatus, hdata]
  · rw [if_neg hok] at hbytes ⊢
    have hfit' : Fit answered.2 := by
      rw [hstate]
      exact ⟨hfit.heap, hfit.few, hfit.message⟩
    obtain ⟨-, fs, hfs, -⟩ := removeClient_tells env hfit' (answered.2.clis i)
    refine ⟨es ++ fs, ?_, .inl (List.mem_append_left _ hbytes)⟩
    rw [hfs, hstate, List.append_assoc]

/-- A daemon with one remote and one client. -/
def listingDaemon : Daemon :=
  { emptyDaemon with
    heap := fun _ => { name := "tv".toList, codes := [{ name := "POWER".toList, code := 1 }] }
    remotes := [0]
    clin := 1
    clis := fun _ => 7 }

theorem listingDaemon_fit : Fit listingDaemon := by
  have hshowable : Showable (listingDaemon.heap 0) := ⟨by decide, by decide, by decide⟩
  exact ⟨fun _ => hshowable, by decide, by simp [listingDaemon, emptyDaemon]⟩

/-- An event, a note about a SIGHUP and the reply to another command. -/
def packetsBefore : List Packet :=
  [.event "0000000000000001 00 POWER tv".toList, .sighup,
    .reply "VERSION".toList true ["0.9.1".toList]]

theorem packetsBefore_skipped : ∀ p ∈ packetsBefore, p.WellFormed ∧
    Skipped "LIST tv".toList p ∧ ∀ l ∈ p.lines, l.length < packetSize := by
  simp only [packetsBefore, List.forall_mem_cons]
  refine ⟨⟨⟨by decide, by decide⟩, trivial, by decide⟩, ⟨trivial, by rw [Skipped]; decide, by decide⟩,
    ⟨⟨by decide, by decide, by decide⟩, ⟨by decide, by decide⟩, by decide⟩, by simp⟩

/-- What lircd answers to a LIST of the codes of its remote. -/
def tvListing : List Event :=
  (serveClient quietEnv 0 [some ("LIST tv".toList ++ ['\n'])] listingDaemon).trace

/-- The bytes that irsend reads: other packets, the listing, and the beginning of an event. -/
def tvBytes : List Char :=
  packetsBefore.flatMap Packet.text ++ writtenTo 7 tvListing ++ "0000".toList

/-- The listing is read in four pieces, of which the first ends within the event, the second
within the name of the other command and the third within the code. -/
theorem list_read_tv :
    ∃ y, sendPacket ("LIST tv".toList ++ ['\n'])
        ⟨[], [tvBytes.take 20, (tvBytes.drop 20).take 40, (tvBytes.drop 60).take 70,
          tvBytes.drop 130]⟩ =
      (some (true, ["0000000000000001 POWER".toList]), y) ∧ y.stream = "0000".toList := by
  obtain ⟨es, htrace, hread⟩ := list_read quietEnv listingDaemon 0 "LIST tv".toList "LIST".toList
    "tv".toList listingDaemon_fit (by decide) (by decide) (by decide) (by decide) (by decide)
    (by decide) (by decide)
    (by
      intro text h
      have hok : (parseRc quietEnv listingDaemon (strtokRest "tv".toList) false 0).isOk = true := by
        decide
      rw [h] at hok
      cases hok)
  obtain rfl : tvListing = es := htrace
  have hlisting : listing quietEnv listingDaemon (strtokRest "tv".toList) =
      (true, ["0000000000000001 POWER".toList]) := by decide +kernel
  rw [hlisting] at hread
  have hsent : .broken 7 ∉ tvListing := by decide +kernel
  refine hread.resolve_left hsent packetsBefore "0000".toList _ packetsBefore_skipped ?_ ?_
  · exact ⟨by decide +kernel, by decide +kernel⟩
  · show tvBytes.take 20 ++ ((tvBytes.drop 20).take 40 ++ ((tvBytes.drop 60).take 70 ++
      (tvBytes.drop 130 ++ []))) = tvBytes
    decide +kernel

end Lirc
