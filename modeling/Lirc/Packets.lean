import Mathlib.Data.List.DropRight
import Lirc.Library.Decimal
import Lirc.Library.Run
import Lirc.MainLoop
import Lirc.ReplyBuffers
import Lirc.Requests

/-!
What a client of lircd reads. In whatever order things happen in the main loop, a client is
sent one packet after the other: the line of an event, the note about a SIGHUP, or a reply
from its BEGIN to its END.
-/

namespace Lirc

open CString Lines Numeral Transition

/-! ### Packets -/

/-- What a client is sent as a whole. -/
inductive Packet
  | event (line : List Char)
  | sighup
  | reply (command : List Char) (ok : Bool) (data : List (List Char))
  deriving DecidableEq, Repr

namespace Packet

/-- The lines of a reply behind its status. -/
def dataLines (data : List (List Char)) : List (List Char) :=
  if data = [] then [] else "DATA".toList :: decimal data.length :: data

def lines : Packet → List (List Char)
  | event line => [line]
  | sighup => ["BEGIN".toList, "SIGHUP".toList, "END".toList]
  | reply command ok data =>
      "BEGIN".toList :: command :: (if ok then "SUCCESS".toList else "ERROR".toList) ::
        (dataLines data ++ ["END".toList])

def text (p : Packet) : List Char := stream '\n' p.lines

/-- The lines are lines, and their number is one that `%d` shows as it is. An event has the
fields that SIMULATE asks for. -/
def WellFormed : Packet → Prop
  | event line => '\n' ∉ line ∧ validEvent line = true
  | sighup => True
  | reply command _ data =>
      '\n' ∉ command ∧ (∀ line ∈ data, '\n' ∉ line) ∧ data.length < 2 ^ 31

theorem newline_notMem {p : Packet} (h : p.WellFormed) : ∀ line ∈ p.lines, '\n' ∉ line := by
  cases p with
  | event line =>
      have hline : '\n' ∉ line := h.1
      simpa [lines] using hline
  | sighup => decide
  | reply command ok data =>
      obtain ⟨hcommand, hdata, -⟩ := h
      intro line hline
      rw [lines, List.mem_cons, List.mem_cons, List.mem_cons, List.mem_append, dataLines] at hline
      rcases hline with rfl | rfl | rfl | hline | hline
      · decide
      · exact hcommand
      · cases ok <;> decide
      · split at hline
        · cases hline
        · rw [List.mem_cons, List.mem_cons] at hline
          rcases hline with rfl | rfl | hline
          · decide
          · exact not_mem_decimal _
          · exact hdata line hline
      · obtain rfl := List.mem_singleton.mp hline
        decide

/-! A packet is known by its lines, whatever follows them. -/

theorem decimal_injective {n m : ℕ} (h : decimal n = decimal m) : n = m := by
  rw [← valueOf_decimal n, ← valueOf_decimal m, h]

/-- The code of an event alone is longer than `BEGIN`. -/
theorem validEvent_length {line : List Char} (h : validEvent line = true) : 16 ≤ line.length := by
  rw [validEvent] at h
  split at h
  · cases h
  · next code rest hcode =>
      simp only [Bool.and_eq_true, beq_iff_eq] at h
      rw [simField] at hcode
      split at hcode
      · next c cs rest' htake hdrop =>
          obtain ⟨rfl, -⟩ := Prod.mk.inj (Option.some.inj hcode)
          rw [← h.1.1, ← htake]
          exact (List.takeWhile_prefix _).length_le
      · cases hcode

theorem ne_begin_of_validEvent {line : List Char} (h : validEvent line = true) :
    line ≠ "BEGIN".toList := by
  rintro rfl
  exact absurd (validEvent_length h) (by decide)

theorem dataLines_inj {data data' : List (List Char)} {rest rest' : List (List Char)}
    (h : dataLines data ++ "END".toList :: rest = dataLines data' ++ "END".toList :: rest') :
    data = data' ∧ rest = rest' := by
  rw [dataLines, dataLines] at h
  split at h
  · next hnil =>
      split at h
      · next hnil' => exact ⟨hnil.trans hnil'.symm, (List.cons.inj h).2⟩
      · exact absurd (List.cons.inj h).1 (by decide)
  · split at h
    · exact absurd (List.cons.inj h).1 (by decide)
    · obtain ⟨-, h⟩ := List.cons.inj h
      obtain ⟨hcount, h⟩ := List.cons.inj h
      obtain ⟨hdata, hrest⟩ := List.append_inj h (decimal_injective hcount)
      exact ⟨hdata, (List.cons.inj hrest).2⟩

theorem lines_inj {p q : Packet} (hp : p.WellFormed) (hq : q.WellFormed)
    {rest rest' : List (List Char)} (h : p.lines ++ rest = q.lines ++ rest') :
    p = q ∧ rest = rest' := by
  -- the first line tells an event, the third the note about a SIGHUP
  cases p with
  | event line =>
      cases q with
      | event line' =>
          obtain ⟨rfl, hrest⟩ := List.cons.inj h
          exact ⟨rfl, hrest⟩
      | sighup => exact absurd (List.cons.inj h).1 (ne_begin_of_validEvent hp.2)
      | reply command ok data =>
          exact absurd (List.cons.inj h).1 (ne_begin_of_validEvent hp.2)
  | sighup =>
      cases q with
      | event line' => exact absurd (List.cons.inj h).1.symm (ne_begin_of_validEvent hq.2)
      | sighup => exact ⟨rfl, List.append_cancel_left h⟩
      | reply command ok data =>
          have hthird := (List.cons.inj (List.cons.inj (List.cons.inj h).2).2).1
          cases ok <;> exact absurd hthird (by decide)
  | reply command ok data =>
      cases q with
      | event line' => exact absurd (List.cons.inj h).1.symm (ne_begin_of_validEvent hq.2)
      | sighup =>
          have hthird := (List.cons.inj (List.cons.inj (List.cons.inj h).2).2).1
          cases ok <;> exact absurd hthird (by decide)
      | reply command' ok' data' =>
          obtain ⟨-, htail⟩ := List.cons.inj h
          obtain ⟨hcommand, hbehind⟩ := List.cons.inj htail
          obtain ⟨hstatus, hlines⟩ := List.cons.inj hbehind
          have hok : ok = ok' := by
            cases ok <;> cases ok' <;> first | rfl | exact absurd hstatus (by decide)
          have hdata : dataLines data ++ ["END".toList] ++ rest =
              dataLines data' ++ ["END".toList] ++ rest' := hlines
          rw [List.append_assoc, List.append_assoc] at hdata
          obtain ⟨rfl, hrest⟩ := dataLines_inj hdata
          exact ⟨by rw [hcommand, hok], hrest⟩

theorem flatMap_text (ps : List Packet) :
    ps.flatMap Packet.text = stream '\n' (ps.flatMap Packet.lines) := by
  rw [stream, List.flatMap_assoc]
  rfl

/-- A stream is split into packets in one way. -/
theorem packets_inj {ps qs : List Packet} (hps : ∀ p ∈ ps, p.WellFormed)
    (hqs : ∀ q ∈ qs, q.WellFormed) (h : ps.flatMap Packet.text = qs.flatMap Packet.text) :
    ps = qs := by
  have hlines : ∀ {rs : List Packet}, (∀ r ∈ rs, r.WellFormed) →
      complete '\n' (rs.flatMap Packet.text) = rs.flatMap Packet.lines := by
    intro rs hrs
    have hall : ∀ l ∈ rs.flatMap Packet.lines, '\n' ∉ l := by
      intro l hl
      obtain ⟨r, hr, hl⟩ := List.mem_flatMap.mp hl
      exact newline_notMem (hrs r hr) l hl
    have hstream := complete_stream hall []
    rw [complete_of_not_mem List.not_mem_nil, List.append_nil, List.append_nil] at hstream
    rw [flatMap_text, hstream]
  have heq : ps.flatMap Packet.lines = qs.flatMap Packet.lines := by
    rw [← hlines hps, ← hlines hqs, h]
  have hsome : ∀ p : Packet, p.lines ≠ [] := by
    intro p
    cases p <;> exact List.cons_ne_nil _ _
  clear h hlines
  induction ps generalizing qs with
  | nil =>
      cases qs with
      | nil => rfl
      | cons q qs =>
          have hnone := (List.append_eq_nil_iff.mp heq.symm).1
          exact absurd hnone (hsome q)
  | cons p ps ih =>
      obtain ⟨hp, hps⟩ := List.forall_mem_cons.mp hps
      cases qs with
      | nil => exact absurd (List.append_eq_nil_iff.mp heq).1 (hsome p)
      | cons q qs =>
          obtain ⟨hq, hothers⟩ := List.forall_mem_cons.mp hqs
          rw [List.flatMap_cons, List.flatMap_cons] at heq
          obtain ⟨rfl, hrest⟩ := lines_inj hp hq heq
          rw [ih hps hothers hrest]

end Packet

/-- A text that is one line. -/
def IsLine (text : List Char) : Prop := ∃ line, '\n' ∉ line ∧ text = line ++ ['\n']

/-- A text that is the line of an event. -/
def IsEvent (text : List Char) : Prop :=
  ∃ line, '\n' ∉ line ∧ validEvent line = true ∧ text = line ++ ['\n']

theorem countLine_of_lt {n : ℕ} (h : n < 2 ^ 31) : countLine n = decimal n ++ ['\n'] := by
  have hmod : Int.bmod (n : ℤ) (2 ^ 32) = n := by
    rw [Int.bmod_def]
    omega
  rw [countLine, hmod, decimalInt, if_neg (by omega), Int.natAbs_natCast]

/-! ### What is written -/

/-- What a descriptor has been written. -/
def writtenTo (fd : ℕ) (es : List Event) : List Char :=
  es.flatMap fun e =>
    match e with
    | .wrote fd' bytes => if fd' = fd then bytes else []
    | _ => []

theorem writtenTo_append (fd : ℕ) (es fs : List Event) :
    writtenTo fd (es ++ fs) = writtenTo fd es ++ writtenTo fd fs := List.flatMap_append

/-- A descriptor has been written whole packets, or a write to it has failed. -/
def Whole (fd : ℕ) (es : List Event) : Prop :=
  .broken fd ∈ es ∨
    ∃ ps : List Packet, (∀ p ∈ ps, p.WellFormed) ∧ writtenTo fd es = ps.flatMap Packet.text

theorem Whole.append {fd : ℕ} {es fs : List Event} (h : Whole fd es) (h' : Whole fd fs) :
    Whole fd (es ++ fs) := by
  rcases h with hbroken | ⟨ps, hps, htext⟩
  · exact .inl (List.mem_append_left _ hbroken)
  · rcases h' with hbroken | ⟨qs, hqs, htext'⟩
    · exact .inl (List.mem_append_right _ hbroken)
    · refine .inr ⟨ps ++ qs, List.forall_mem_append.mpr ⟨hps, hqs⟩, ?_⟩
      rw [writtenTo_append, htext, htext', List.flatMap_append]

/-- What has happened since a descriptor was closed. -/
def connection (fd : ℕ) (es : List Event) : List Event := es.rtakeWhile (· != .closed fd)

theorem connection_of_open {fd : ℕ} {es : List Event} (h : .closed fd ∉ es) :
    connection fd es = es := by
  rw [connection, List.rtakeWhile_eq_self_iff]
  intro e he
  exact bne_iff_ne.mpr fun heq => h (heq ▸ he)

theorem connection_concat (fd : ℕ) (es : List Event) (e : Event) :
    connection fd (es ++ [e]) = if e = .closed fd then [] else connection fd es ++ [e] := by
  rw [connection, List.rtakeWhile_concat]
  by_cases he : e = .closed fd
  · rw [if_pos he, if_neg (by simp [he])]
  · rw [if_neg he, if_pos (bne_iff_ne.mpr he)]
    rfl

theorem connection_append (fd : ℕ) (es fs : List Event) :
    connection fd (es ++ fs) =
      if .closed fd ∈ fs then connection fd fs else connection fd es ++ fs := by
  induction fs using List.reverseRecOn with
  | nil => simp
  | append_singleton fs e ih =>
      rw [← List.append_assoc, connection_concat, connection_concat, ih]
      by_cases he : e = .closed fd
      · simp [he]
      · by_cases hfs : .closed fd ∈ fs
        · simp [he, hfs]
        · simp [he, hfs, Ne.symm he]

/-- Since it was last closed every descriptor has been written packets. -/
def PacketsOnly (es : List Event) : Prop := ∀ fd, Whole fd (connection fd es)

theorem PacketsOnly.nil : PacketsOnly [] := fun _ => .inr ⟨[], by simp, rfl⟩

theorem PacketsOnly.append {es fs : List Event} (h : PacketsOnly es) (h' : PacketsOnly fs) :
    PacketsOnly (es ++ fs) := by
  intro fd
  rw [connection_append]
  split
  · exact h' fd
  · next hopen =>
      have hwhole := h' fd
      rw [connection_of_open hopen] at hwhole
      exact (h fd).append hwhole

/-- What is noted beside the writes. -/
theorem PacketsOnly.quiet {e : Event} (h : ∀ fd bytes, e ≠ .wrote fd bytes) : PacketsOnly [e] := by
  intro fd
  refine .inr ⟨[], by simp, ?_⟩
  have hnone : writtenTo fd [e] = [] := by
    cases e with
    | wrote fd' bytes => exact absurd rfl (h fd' bytes)
    | _ => rfl
  by_cases he : e = .closed fd
  · simp [connection, he, List.rtakeWhile, writtenTo]
  · rw [connection_of_open (by simpa using Ne.symm he), hnone]
    rfl

section Replying

variable {fd : ℕ} {d d' : Daemon} {bytes bytes' : List Char} {x : Bool × Daemon}

/-- The client is written these bytes, or the write fails. -/
def Wrote (fd : ℕ) (bytes : List Char) (d : Daemon) (x : Bool × Daemon) : Prop :=
  ∃ clock es, x.2 = { d with clock := clock, trace := d.trace ++ es } ∧
    (∀ e ∈ es, e.IsReply fd) ∧
    if x.1 then writtenTo fd es = bytes else .broken fd ∈ es

theorem Wrote.nil (fd : ℕ) (d : Daemon) : Wrote fd [] d (true, d) :=
  ⟨d.clock, [], by rw [List.append_nil], by simp, rfl⟩

/-- A text is formatted first. -/
theorem Wrote.formatted {text : List Char} {size : ℕ}
    (h : Wrote fd bytes (d.log (.formatted text size)) x) : Wrote fd bytes d x := by
  obtain ⟨clock, es, hx, hes, hbytes⟩ := h
  refine ⟨clock, .formatted text size :: es, ?_, ?_, ?_⟩
  · rw [hx, List.append_cons]
    rfl
  · exact List.forall_mem_cons.mpr ⟨trivial, hes⟩
  · by_cases hok : x.1 = true
    · rw [if_pos hok] at hbytes ⊢
      exact hbytes
    · rw [if_neg hok] at hbytes ⊢
      exact List.mem_cons_of_mem _ hbytes

theorem Wrote.andThen {f : Daemon → Bool × Daemon} (h : Wrote fd bytes d x)
    (hf : ∀ d, Wrote fd bytes' d (f d)) : Wrote fd (bytes ++ bytes') d (andThen x f) := by
  obtain ⟨clock, es, hx, hes, hbytes⟩ := h
  rw [Lirc.andThen]
  cases hok : x.1 with
  | false =>
      rw [hok, if_neg Bool.false_ne_true] at hbytes
      exact ⟨clock, es, hx, hes, hbytes⟩
  | true =>
      rw [hok, if_pos rfl] at hbytes
      obtain ⟨clock', es', hx', hes', hbytes'⟩ := hf x.2
      rw [if_pos rfl]
      refine ⟨clock', es ++ es', ?_, List.forall_mem_append.mpr ⟨hes, hes'⟩, ?_⟩
      · rw [hx', hx, ← List.append_assoc]
      · by_cases hok' : (f x.2).1 = true
        · rw [if_pos hok'] at hbytes' ⊢
          rw [writtenTo_append, hbytes, hbytes']
        · rw [if_neg hok'] at hbytes' ⊢
          exact List.mem_append_right _ hbytes'

variable (env : Env)

theorem writeSocket_wrote (fd : ℕ) (bytes : List Char) (d : Daemon) :
    Wrote fd bytes d (writeSocket env fd bytes d) := by
  rw [writeSocket]
  split
  · refine ⟨d.clock + 1, [.wrote fd bytes], rfl, by simp [Event.IsReply], ?_⟩
    simp [writtenTo]
  · exact ⟨d.clock + 1, [.broken fd], rfl, by simp [Event.IsReply], by simp⟩

theorem writeAll_wrote (fd : ℕ) (texts : List (List Char)) (d : Daemon) :
    Wrote fd texts.flatten d (writeAll env fd texts d) := by
  induction texts generalizing d with
  | nil => exact Wrote.nil fd d
  | cons bytes texts ih => exact (writeSocket_wrote env fd bytes d).andThen ih

/-- A reply to a command, from its BEGIN to its END. -/
structure Replied (fd : ℕ) (command : List Char) (ok : Bool) (data : List (List Char)) (d : Daemon)
    (x : Bool × Daemon) : Prop where
  wellFormed : (Packet.reply command ok data).WellFormed
  wrote : Wrote fd (Packet.reply command ok data).text d x

def Answers (fd : ℕ) (command : List Char) (d : Daemon) (x : Bool × Daemon) : Prop :=
  ∃ ok data, Replied fd command ok data d x

variable {env}

/-- The text of the status of a reply. -/
def statusString (ok : Bool) : List Char := if ok then successString else errorString

theorem statusString_true : statusString true = successString := rfl

theorem text_reply (command : List Char) (ok : Bool) (data : List (List Char)) :
    (Packet.reply command ok data).text =
      [beginString, command ++ ['\n'], statusString ok, stream '\n' (Packet.dataLines data),
        endString].flatten := by
  have hbegin : beginString = "BEGIN".toList ++ ['\n'] := by decide
  have hstatus : statusString ok =
      (if ok then "SUCCESS".toList else "ERROR".toList) ++ ['\n'] := by
    cases ok <;> decide
  have hend : stream '\n' (Packet.dataLines data ++ ["END".toList]) =
      stream '\n' (Packet.dataLines data) ++ endString := List.flatMap_append
  rw [Packet.text, Packet.lines, stream_cons, stream_cons, stream_cons, hend, hbegin, hstatus]
  simp only [List.flatten_cons, List.flatten_nil, List.append_nil, List.append_assoc,
    List.cons_append, List.nil_append]

theorem stream_dataLines {data : List (List Char)} (h : data ≠ []) :
    stream '\n' (Packet.dataLines data) =
      [dataString, decimal data.length ++ ['\n'], stream '\n' data].flatten := by
  have hdata : dataString = "DATA".toList ++ ['\n'] := by decide
  rw [Packet.dataLines, if_neg h, stream_cons, stream_cons, hdata]
  simp only [List.flatten_cons, List.flatten_nil, List.append_nil, List.append_assoc,
    List.cons_append, List.nil_append]

theorem sendSuccess_answers {command : List Char} (h : '\n' ∉ command) (d : Daemon) :
    Answers fd command d (sendSuccess env fd (command ++ ['\n']) d) := by
  refine ⟨true, [], ⟨⟨h, by simp, by simp⟩, ?_⟩⟩
  rw [text_reply]
  exact writeAll_wrote env fd [beginString, command ++ ['\n'], successString, endString] d

/-- A reply with one line of data. -/
theorem text_line (command : List Char) (ok : Bool) (line : List Char) :
    (Packet.reply command ok [line]).text =
      [beginString, command ++ ['\n'], statusString ok, dataString, ['1', '\n'], line ++ ['\n'],
        endString].flatten := by
  have hdigit : decimal 1 = ['1'] := by decide
  rw [text_reply, stream_dataLines (List.cons_ne_nil _ _), List.length_singleton, hdigit]
  simp only [List.flatten_cons, List.flatten_nil, List.append_nil, List.append_assoc,
    List.cons_append, List.nil_append, stream_cons, stream_nil]

theorem sendError_replied {command text : List Char} (h : '\n' ∉ command) (htext : IsLine text)
    (d : Daemon) : Replied fd command false [text.dropLast] d
      (sendError env fd (command ++ ['\n']) text d) := by
  obtain ⟨line, hline, rfl⟩ := htext
  rw [List.dropLast_concat]
  have hcount : (line ++ ['\n']).count '\n' = 1 := by
    rw [List.count_append, List.count_eq_zero.mpr hline]
    rfl
  have hone : countLine 1 = ['1', '\n'] := by decide
  refine ⟨⟨h, by simpa using hline, by simp⟩, ?_⟩
  rw [text_line, sendError, hcount, hone]
  exact (writeAll_wrote env fd _
    ((d.log (.formatted (line ++ ['\n']) (packetSize + 1))).log (.formatted ['1', '\n'] 4)))
      |>.formatted |>.formatted

theorem sendError_answers {command text : List Char} (h : '\n' ∉ command) (htext : IsLine text)
    (d : Daemon) : Answers fd command d (sendError env fd (command ++ ['\n']) text d) :=
  ⟨false, _, sendError_replied h htext d⟩

/-! ### Lists -/

/-- A line of a list, or what stands for one that does not fit. -/
def shownLine (room : ℕ) (line tooLong : List Char) : List Char :=
  if room ≤ line.length then tooLong else line

/-- The line of a code. -/
def shownCode (code : IrNcode) : List Char := hexDigits 16 code.code.toNat ++ ' ' :: code.name

theorem codeText_eq (code : IrNcode) : codeText code = shownCode code ++ ['\n'] := by
  simp [codeText, shownCode]

theorem limitedLine_eq {limit : ℕ} (hlimit : packetSize ≤ limit) (text replacement : List Char)
    (h : text.length ≠ packetSize ∨ packetSize < limit) :
    limitedLine limit text replacement =
      if packetSize + 1 ≤ text.length then replacement else text := by
  rw [limitedLine]
  split
  · rfl
  · have hfits : text.length ≤ limit - 1 := by omega
    rw [snprintf, List.take_of_length_le hfits, List.take_append_of_le_length le_rfl,
      List.take_length]

theorem limitedLine_shown {limit : ℕ} (hlimit : packetSize ≤ limit) (line tooLong : List Char)
    (h : line.length + 1 ≠ packetSize ∨ packetSize < limit) :
    limitedLine limit (line ++ ['\n']) (tooLong ++ ['\n']) =
      shownLine packetSize line tooLong ++ ['\n'] := by
  have hlen : (line ++ ['\n']).length = line.length + 1 := by simp
  rw [limitedLine_eq hlimit _ _ (hlen ▸ h), hlen, shownLine]
  by_cases hfits : packetSize ≤ line.length
  · rw [if_pos hfits, if_pos (Nat.succ_le_succ hfits)]
  · rw [if_neg hfits, if_neg fun hle => hfits (Nat.le_of_succ_le_succ hle)]

theorem sendLines_wrote (env : Env) (fd limit : ℕ) (replacement : List Char)
    (texts : List (List Char)) (d : Daemon) :
    Wrote fd (texts.flatMap fun text => limitedLine limit text replacement) d
      (sendLines env fd limit replacement texts d) := by
  induction texts generalizing d with
  | nil => exact Wrote.nil fd d
  | cons text texts ih => exact ((writeSocket_wrote env fd _ _).andThen ih).formatted

/-- Lines are a stream of what stands before their newlines. -/
theorem stream_dropLast {texts : List (List Char)} (h : ∀ text ∈ texts, IsLine text) :
    stream '\n' (texts.map List.dropLast) = texts.flatten := by
  induction texts with
  | nil => rfl
  | cons text texts ih =>
      obtain ⟨line, -, rfl⟩ := h text List.mem_cons_self
      rw [List.map_cons, stream_cons, ih fun t ht => h t (List.mem_cons_of_mem _ ht),
        List.dropLast_concat, List.flatten_cons, List.append_assoc]
      rfl

theorem sendList_replied {command : List Char} (h : '\n' ∉ command) {limit : ℕ}
    {replacement : List Char} {texts : List (List Char)}
    (htexts : ∀ text ∈ texts, IsLine (limitedLine limit text replacement))
    (hfew : texts.length < 2 ^ 31) (d : Daemon) :
    Replied fd command true (texts.map fun text => (limitedLine limit text replacement).dropLast) d
      (sendList env fd (command ++ ['\n']) limit replacement texts d) := by
  have hfirst := writeAll_wrote env fd [beginString, command ++ ['\n'], successString] d
  have hlast := fun d => writeAll_wrote env fd [endString] d
  by_cases hnil : texts = []
  · subst hnil
    refine ⟨⟨h, by simp, by simp⟩, ?_⟩
    rw [List.map_nil]
    have hnone : stream '\n' (Packet.dataLines []) = [] := rfl
    have hwrote := hfirst.andThen hlast
    rw [sendList, text_reply, statusString_true, hnone]
    simpa only [if_true, List.flatten_cons, List.flatten_nil, List.append_nil, List.append_assoc,
      List.nil_append] using hwrote
  · let sent := texts.map fun text => limitedLine limit text replacement
    have hsent : ∀ text ∈ sent, IsLine text := by
      intro text htext
      obtain ⟨text', htext', rfl⟩ := List.mem_map.mp htext
      exact htexts text' htext'
    have hlen : (sent.map List.dropLast).length = texts.length := by
      rw [List.length_map, List.length_map]
    have hdata : sent.map List.dropLast ≠ [] := by
      rw [← List.length_pos_iff_ne_nil, hlen]
      exact List.length_pos_iff_ne_nil.mpr hnil
    have hmap : (texts.map fun text => (limitedLine limit text replacement).dropLast) =
        sent.map List.dropLast := by
      rw [List.map_map]
      rfl
    rw [hmap]
    refine ⟨⟨h, ?_, hlen.symm ▸ hfew⟩, ?_⟩
    · intro line hline
      obtain ⟨text, htext, rfl⟩ := List.mem_map.mp hline
      obtain ⟨line, hline, rfl⟩ := hsent text htext
      rwa [List.dropLast_concat]
    · have hlines : ∀ d, Wrote fd (sent.flatten ++ [endString].flatten) d
          (andThen (sendLines env fd limit replacement texts d) (writeAll env fd [endString])) := by
        intro d
        have hdata := sendLines_wrote env fd limit replacement texts d
        rw [List.flatMap_def] at hdata
        exact hdata.andThen hlast
      have hbehind : ∀ d, Wrote fd
          ([dataString, countLine texts.length].flatten ++ (sent.flatten ++ [endString].flatten)) d
          (andThen (writeAll env fd [dataString, countLine texts.length]
              (d.log (.formatted (countLine texts.length) (packetSize + 1))))
            fun d =>
              andThen (sendLines env fd limit replacement texts d) (writeAll env fd [endString])) :=
        fun d =>
          ((writeAll_wrote env fd [dataString, countLine texts.length] _).andThen hlines).formatted
      rw [text_reply, stream_dataLines hdata, stream_dropLast hsent, hlen, statusString_true,
        ← countLine_of_lt hfew, sendList]
      simp only [if_neg hnil]
      have hwrote := hfirst.andThen hbehind
      simpa only [List.flatten_cons, List.flatten_nil, List.append_nil, List.append_assoc]
        using hwrote

theorem not_mem_shown {room : ℕ} {line tooLong : List Char} (hline : '\n' ∉ line)
    (htooLong : '\n' ∉ tooLong) : '\n' ∉ shownLine room line tooLong := by
  rw [shownLine]
  split
  · exact htooLong
  · exact hline

/-- The lines of a list, those that do not fit replaced. -/
theorem sendList_shown {command : List Char} (h : '\n' ∉ command) {limit : ℕ}
    (hlimit : packetSize ≤ limit) {lines : List (List Char)} {tooLong : List Char}
    (hlines : ∀ line ∈ lines, '\n' ∉ line ∧ (line.length + 1 ≠ packetSize ∨ packetSize < limit))
    (htooLong : '\n' ∉ tooLong) (hfew : lines.length < 2 ^ 31) (d : Daemon) :
    Replied fd command true (lines.map fun line => shownLine packetSize line tooLong) d
      (sendList env fd (command ++ ['\n']) limit (tooLong ++ ['\n'])
        (lines.map (· ++ ['\n'])) d) := by
  have hsent : ∀ line ∈ lines, limitedLine limit (line ++ ['\n']) (tooLong ++ ['\n']) =
      shownLine packetSize line tooLong ++ ['\n'] := fun line hline =>
    limitedLine_shown hlimit line tooLong (hlines line hline).2
  have hdata : (lines.map (· ++ ['\n'])).map
      (fun text => (limitedLine limit text (tooLong ++ ['\n'])).dropLast) =
      lines.map fun line => shownLine packetSize line tooLong := by
    rw [List.map_map]
    refine List.map_congr_left fun line hline => ?_
    rw [Function.comp_apply, hsent line hline, List.dropLast_concat]
  rw [← hdata]
  refine sendList_replied h (fun text htext => ?_) (by rwa [List.length_map]) d
  obtain ⟨line, hline, rfl⟩ := List.mem_map.mp htext
  exact ⟨_, not_mem_shown (hlines line hline).1 htooLong, hsent line hline⟩

theorem not_mem_hexDigits (k n : ℕ) : '\n' ∉ hexDigits k n := fun hmem =>
  absurd (isDigit_hexDigits k n _ hmem) (by decide)

theorem not_mem_shownCode {code : IrNcode} (hname : '\n' ∉ code.name) : '\n' ∉ shownCode code := by
  rw [shownCode, List.mem_append, List.mem_cons, not_or, not_or]
  exact ⟨not_mem_hexDigits _ _, by decide, hname⟩

/-- The count is formatted in front of the line. -/
theorem sendName_replied {command : List Char} (h : '\n' ∉ command) {code : IrNcode}
    (hname : '\n' ∉ code.name) (hlen : (codeText code).length + 2 ≠ packetSize) (d : Daemon) :
    Replied fd command true [shownLine (packetSize - 2) (shownCode code) "code_too_long".toList] d
      (sendName env fd (command ++ ['\n']) code d) := by
  let line := shownLine (packetSize - 2) (shownCode code) "code_too_long".toList
  have hdigit : "1\n".toList = ['1', '\n'] := by decide
  have hsent : limitedLine packetSize ("1\n".toList ++ codeText code)
      ("1\n".toList ++ codeTooLong) = "1\n".toList ++ (line ++ ['\n']) := by
    have htooLong : codeTooLong = "code_too_long".toList ++ ['\n'] := by decide
    have hone : ("1\n".toList ++ codeText code).length = (shownCode code).length + 3 := by
      rw [hdigit, codeText_eq]
      simp
    have hne : (shownCode code).length + 3 ≠ packetSize := by
      rw [codeText_eq, List.length_append, List.length_singleton] at hlen
      exact hlen
    rw [limitedLine_eq le_rfl _ _ (.inl (hone ▸ hne)), hone]
    by_cases hfits : packetSize - 2 ≤ (shownCode code).length
    · have hlong : packetSize + 1 ≤ (shownCode code).length + 3 := by
        rw [packetSize] at hfits ⊢
        omega
      have hline : line = "code_too_long".toList := if_pos hfits
      rw [if_pos hlong, htooLong, hline]
    · have hshort : ¬packetSize + 1 ≤ (shownCode code).length + 3 := by
        rw [packetSize] at hfits ⊢
        omega
      have hline : line = shownCode code := if_neg hfits
      rw [if_neg hshort, codeText_eq, hline]
  refine ⟨⟨h, by simpa using not_mem_shown (not_mem_shownCode hname) (by decide), by simp⟩, ?_⟩
  have hfirst := writeAll_wrote env fd
    [beginString, command ++ ['\n'], successString, dataString] d
  have hbehind : ∀ d, Wrote fd (("1\n".toList ++ (line ++ ['\n'])) ++ [endString].flatten) d
      (andThen
        (sendLines env fd packetSize ("1\n".toList ++ codeTooLong)
          ["1\n".toList ++ codeText code] d)
        (writeAll env fd [endString])) := by
    intro d
    have hline := sendLines_wrote env fd packetSize ("1\n".toList ++ codeTooLong)
      ["1\n".toList ++ codeText code] d
    rw [List.flatMap_singleton, hsent] at hline
    exact hline.andThen fun d => writeAll_wrote env fd [endString] d
  have hwrote := hfirst.andThen hbehind
  rw [hdigit] at hwrote
  rw [text_line, statusString_true, sendName]
  simpa only [hdigit, List.flatten_cons, List.flatten_nil, List.append_nil, List.append_assoc]
    using hwrote

end Replying

/-! ### Names and arguments -/

theorem isLine_of {text : List Char} (h : text.getLast? = some '\n' ∧ '\n' ∉ text.dropLast) :
    IsLine text :=
  ⟨text.dropLast, h.2, (List.dropLast_append_getLast? _ h.1).symm⟩

theorem isLine_quoted {before name : List Char} (hbefore : '\n' ∉ before) (hname : '\n' ∉ name) :
    IsLine (before ++ name ++ "\"\n".toList) := by
  refine ⟨before ++ name ++ ['"'], ?_, by simp⟩
  simp only [List.mem_append, List.mem_singleton, not_or]
  exact ⟨⟨hbefore, hname⟩, by decide⟩

theorem argCheck_isLine {n : ℕ} {rc : RcArgs} {text : List Char}
    (h : argCheck n rc = .error text) : IsLine text := by
  rw [argCheck] at h
  split at h
  · cases h
    exact isLine_of (by decide)
  split at h
  · cases h
    exact isLine_of (by decide)
  · cases h

theorem parseEnd_isLine {env : Env} {withReps : Bool} {n : ℕ} {rc : RcArgs} {rest text : List Char}
    (h : parseEnd env withReps n rc rest = .error text) : IsLine text := by
  have hbad : IsLine "bad send packet\n".toList := isLine_of (by decide)
  unfold parseEnd at h
  split at h
  · exact argCheck_isLine h
  · exact argCheck_isLine h
  · cases h
    exact hbad
  · next repeats rest' _ =>
      cases hreps : parseReps repeats with
      | none =>
          rw [hreps] at h
          cases h
          exact hbad
      | some reps =>
          simp only [hreps] at h
          split at h
          · cases h
            exact hbad
          split at h
          · cases h
            refine isLine_quoted ?_ (not_mem_decimal _)
            simp only [List.mem_append, not_or]
            exact ⟨⟨by decide, not_mem_decimalInt _⟩, by decide⟩
          split at h
          · cases h
            exact hbad
          · exact argCheck_isLine h

/-- The error of `parse_rc` is a line. -/
theorem parseRc_isLine {env : Env} {d : Daemon} {arguments : Option (List Char)} {withReps : Bool}
    {n : ℕ} (hargs : ∀ args ∈ arguments, '\n' ∉ args) {text : List Char}
    (h : parseRc env d arguments withReps n = .error text) : IsLine text := by
  rw [parseRc] at h
  cases harg : arguments.bind (strtok whiteSpace) with
  | none =>
      rw [harg] at h
      exact argCheck_isLine h
  | some token =>
      obtain ⟨name, rest⟩ := token
      obtain ⟨args, rfl, htok⟩ := Option.bind_eq_some_iff.mp harg
      obtain ⟨hname, hrest⟩ := strtok_subset htok
      have hargs' := hargs args rfl
      simp only [harg] at h
      cases hremote : d.getIrRemote name with
      | none =>
          simp only [hremote] at h
          cases h
          exact isLine_quoted (by decide) fun hmem => hargs' (hname hmem)
      | some a =>
          simp only [hremote] at h
          cases hcommand : strtok whiteSpace rest with
          | none =>
              simp only [hcommand] at h
              exact argCheck_isLine h
          | some token =>
              obtain ⟨command, rest'⟩ := token
              obtain ⟨hcmd, -⟩ := strtok_subset hcommand
              simp only [hcommand] at h
              cases hcode : getCodeByName (d.heap a) command with
              | none =>
                  simp only [hcode] at h
                  cases h
                  exact isLine_quoted (by decide) fun hmem => hargs' (hrest (hcmd hmem))
              | some c =>
                  simp only [hcode] at h
                  exact parseEnd_isLine h

/-! ### The state -/

/-- The names of a remote can be shown in lines. A line of 256 bytes would lose its newline. -/
structure Showable (r : IrRemote) : Prop where
  name : '\n' ∉ r.name
  few : r.codes.length < 2 ^ 31
  codes : ∀ c ∈ r.codes, '\n' ∉ c.name ∧ (codeText c).length ≠ packetSize ∧
    (codeText c).length + 2 ≠ packetSize

/-- The positions in the sequences do not count. -/
theorem Showable.of_codes {r r' : IrRemote} (h : Showable r) (hname : r'.name = r.name)
    (hcodes : r'.codes.map (fun c => { c with transmitState := [] }) =
      r.codes.map fun c => { c with transmitState := [] }) : Showable r' := by
  refine ⟨hname ▸ h.name, ?_, fun c hc => ?_⟩
  · have hlen := congrArg List.length hcodes
    rw [List.length_map, List.length_map] at hlen
    rw [hlen]
    exact h.few
  · have hmem : ({ c with transmitState := [] } : IrNcode) ∈
        r.codes.map fun c => { c with transmitState := [] } :=
      hcodes ▸ List.mem_map_of_mem hc
    obtain ⟨c', hc', heq⟩ := List.mem_map.mp hmem
    obtain ⟨hname', hcode', -⟩ := IrNcode.mk.inj heq
    have hshown := h.codes c' hc'
    rw [codeText, hname', hcode'] at hshown
    exact hshown

theorem Showable.transmits {r r' : IrRemote} (h : Showable r) (ht : Transmits r r') :
    Showable r' := by
  obtain ⟨countdown, toggle, gmin, gmax, codes, rfl, hcodes⟩ := ht
  exact h.of_codes rfl hcodes

theorem Showable.setTransmitState {r : IrRemote} (h : Showable r) (c : ℕ) (ts : List IrCode) :
    Showable (r.setTransmitState c ts) := by
  refine h.of_codes rfl ?_
  rw [IrRemote.setTransmitState]
  apply List.ext_getElem?
  intro i
  rw [List.getElem?_map, List.getElem?_map, List.getElem?_modify]
  cases r.codes[i]? with
  | none => rfl
  | some code =>
      by_cases hi : c = i
      · simp [hi]
      · simp [hi]

/-- The configuration can be shown, and a reply that was put off is to a line. -/
structure Fit (d : Daemon) : Prop where
  heap : ∀ a, Showable (d.heap a)
  few : d.remotes.length < 2 ^ 31
  message : ∀ m ∈ d.repeatMessage, IsLine m

theorem Fit.setRemote {d : Daemon} (h : Fit d) {a : ℕ} {r : IrRemote} (hr : Showable r) :
    Fit (d.setRemote a r) := by
  refine ⟨fun b => ?_, h.few, h.message⟩
  by_cases hb : b = a
  · rw [hb, setRemote_heap_self]
    exact hr
  · rw [setRemote_heap_ne d r hb]
    exact h.heap b

theorem Fit.setTimer {d : Daemon} (h : Fit d) (usec : ℤ) : Fit (d.setTimer usec) := by
  rw [setTimer_eq]
  exact ⟨h.heap, h.few, h.message⟩

/-- Packets are sent, and the state stays fit for more of them. -/
def Tells (d d' : Daemon) : Prop := Fit d' ∧ ∃ es, d'.trace = d.trace ++ es ∧ PacketsOnly es

namespace Tells

variable {d d' d'' : Daemon}

/-- Nothing is noted. -/
theorem of_eq (h : Fit d') (htrace : d'.trace = d.trace) : Tells d d' :=
  ⟨h, [], by rw [htrace, List.append_nil], PacketsOnly.nil⟩

theorem refl (h : Fit d) : Tells d d := of_eq h rfl

theorem trans (h : Tells d d') (h' : Tells d' d'') : Tells d d'' := by
  obtain ⟨-, es, hes, honly⟩ := h
  obtain ⟨hfit, fs, hfs, honly'⟩ := h'
  exact ⟨hfit, es ++ fs, by rw [hfs, hes, List.append_assoc], honly.append honly'⟩

theorem log {e : Event} (h : Fit d) (he : ∀ fd bytes, e ≠ .wrote fd bytes) : Tells d (d.log e) :=
  ⟨⟨h.heap, h.few, h.message⟩, [e], rfl, PacketsOnly.quiet he⟩

end Tells

/-- The rest of the state has changed. -/
theorem Tells.before {d d' d'' : Daemon} (h : Tells d' d'') (htrace : d'.trace = d.trace) :
    Tells d d'' := by
  obtain ⟨hfit, es, hes, honly⟩ := h
  exact ⟨hfit, es, by rw [hes, htrace], honly⟩

theorem writtenTo_replies {fd fd' : ℕ} (hne : fd' ≠ fd) {es : List Event}
    (h : ∀ e ∈ es, e.IsReply fd) : writtenTo fd' es = [] := by
  refine List.flatMap_eq_nil_iff.mpr fun e he => ?_
  have hreply := h e he
  cases e with
  | wrote fd'' bytes =>
      obtain rfl : fd'' = fd := hreply
      exact if_neg hne.symm
  | _ => rfl

/-- The command that is replied to. -/
def Packet.command : Packet → Option (List Char)
  | .reply command _ _ => some command
  | _ => none

/-- The descriptor has been written whole packets, whose replies are to these commands, or a write
to it has failed. -/
def Told (fd : ℕ) (es : List Event) (commands : List (List Char)) : Prop :=
  .broken fd ∈ es ∨ ∃ ps : List Packet, (∀ p ∈ ps, p.WellFormed) ∧
    writtenTo fd es = ps.flatMap Packet.text ∧ ps.filterMap Packet.command = commands

namespace Told

variable {fd : ℕ} {es fs : List Event} {commands more : List (List Char)}

/-- Nothing is written. -/
theorem silent (h : writtenTo fd es = []) : Told fd es [] := .inr ⟨[], by simp, h, rfl⟩

theorem append (h : Told fd es commands) (h' : Told fd fs more) :
    Told fd (es ++ fs) (commands ++ more) := by
  rcases h with hbroken | ⟨ps, hps, htext, hcommands⟩
  · exact .inl (List.mem_append_left _ hbroken)
  · rcases h' with hbroken | ⟨qs, hqs, htext', hmore⟩
    · exact .inl (List.mem_append_right _ hbroken)
    · refine .inr ⟨ps ++ qs, List.forall_mem_append.mpr ⟨hps, hqs⟩, ?_, ?_⟩
      · rw [writtenTo_append, htext, htext', List.flatMap_append]
      · rw [List.filterMap_append, hcommands, hmore]

end Told

/-- The commands of the replies that a descriptor is written, if one reply is written. -/
def repliesTo (reply : Option (ℕ × List Char)) (fd : ℕ) : List (List Char) :=
  match reply with
  | some (fd', command) => if fd' = fd then [command] else []
  | none => []

/-- This reply has been written and no other one. -/
structure Speaks (reply : Option (ℕ × List Char)) (d d' : Daemon) : Prop where
  fit : Fit d'
  since : ∃ es, d'.trace = d.trace ++ es ∧
    ∀ fd, .closed fd ∉ es ∧ Told fd es (repliesTo reply fd)

namespace Speaks

variable {reply : Option (ℕ × List Char)} {d d' d'' : Daemon}

theorem of_eq (hfit : Fit d') (htrace : d'.trace = d.trace) : Speaks none d d' :=
  ⟨hfit, [], by rw [htrace, List.append_nil], fun _ => ⟨List.not_mem_nil, .silent rfl⟩⟩

/-- Something is noted that is neither a write nor the end of a connection. -/
theorem of_log {e : Event} (hfit : Fit d') (htrace : d'.trace = d.trace ++ [e])
    (hwrote : ∀ fd bytes, e ≠ .wrote fd bytes) (hclosed : ∀ fd, e ≠ .closed fd) :
    Speaks none d d' := by
  refine ⟨hfit, [e], htrace, fun fd => ⟨fun hmem => ?_, .silent ?_⟩⟩
  · exact hclosed fd (List.mem_singleton.mp hmem).symm
  · cases e with
    | wrote fd' bytes => exact absurd rfl (hwrote fd' bytes)
    | _ => rfl

theorem trans (h : Speaks none d d') (h' : Speaks reply d' d'') : Speaks reply d d'' := by
  obtain ⟨-, es, hes, hsilent⟩ := h
  obtain ⟨hfit, fs, hfs, htold⟩ := h'
  refine ⟨hfit, es ++ fs, by rw [hfs, hes, List.append_assoc], fun fd => ⟨?_, ?_⟩⟩
  · exact fun hmem => (List.mem_append.mp hmem).elim (hsilent fd).1 (htold fd).1
  · exact (hsilent fd).2.append (htold fd).2

theorem andThen (h : Speaks reply d d') (h' : Speaks none d' d'') : Speaks reply d d'' := by
  obtain ⟨-, es, hes, htold⟩ := h
  obtain ⟨hfit, fs, hfs, hsilent⟩ := h'
  refine ⟨hfit, es ++ fs, by rw [hfs, hes, List.append_assoc], fun fd => ⟨?_, ?_⟩⟩
  · exact fun hmem => (List.mem_append.mp hmem).elim (htold fd).1 (hsilent fd).1
  · have hboth := (htold fd).2.append (hsilent fd).2
    rwa [repliesTo, List.append_nil] at hboth

/-- The rest of the state has changed. -/
theorem before (h : Speaks reply d' d'') (htrace : d'.trace = d.trace) : Speaks reply d d'' :=
  ⟨h.fit, by rw [← htrace]; exact h.since⟩

end Speaks

/-- One packet is sent to one client. -/
theorem Wrote.speaks {d : Daemon} {x : Bool × Daemon} {fd : ℕ} {p : Packet} (hfit : Fit d)
    (hp : p.WellFormed) (h : Wrote fd p.text d x) :
    Speaks (p.command.map (fd, ·)) d x.2 := by
  obtain ⟨clock, es, hx, hes, hbytes⟩ := h
  rw [hx]
  refine ⟨⟨hfit.heap, hfit.few, hfit.message⟩, es, rfl, fun fd' => ⟨fun hmem => hes _ hmem, ?_⟩⟩
  by_cases hfd : fd' = fd
  · subst hfd
    split at hbytes
    · refine .inr ⟨[p], by simpa using hp, by simpa using hbytes, ?_⟩
      cases p with
      | reply command ok data => exact (if_pos rfl).symm
      | _ => rfl
    · exact .inl hbytes
  · have hnone : repliesTo (p.command.map (fd, ·)) fd' = [] := by
      cases p with
      | reply command ok data => exact if_neg (Ne.symm hfd)
      | _ => rfl
    rw [hnone]
    exact .silent (writtenTo_replies hfd hes)

/-- The reply to a command. -/
theorem Answers.speaks {d : Daemon} {x : Bool × Daemon} {fd : ℕ} {command : List Char}
    (hfit : Fit d) (h : Answers fd command d x) : Speaks (some (fd, command)) d x.2 := by
  obtain ⟨ok, data, hreplied⟩ := h
  exact hreplied.wrote.speaks hfit hreplied.wellFormed

/-- At most one reply is written, so whole packets are. -/
theorem Speaks.tells {reply : Option (ℕ × List Char)} {d d' : Daemon} (h : Speaks reply d d') :
    Tells d d' := by
  obtain ⟨hfit, es, hes, htold⟩ := h
  refine ⟨hfit, es, hes, fun fd => ?_⟩
  obtain ⟨hopen, hbroken | ⟨ps, hps, htext, -⟩⟩ := htold fd
  · rw [connection_of_open hopen]
    exact .inl hbroken
  · rw [connection_of_open hopen]
    exact .inr ⟨ps, hps, htext⟩

/-! ### What the daemon does -/

section Operations

variable (env : Env) {fd : ℕ} {d : Daemon} {command : List Char} {x : Bool × Daemon}

theorem Showable.ite {c : Prop} [Decidable c] {r r' : IrRemote} (h : Showable r)
    (h' : Showable r') : Showable (if c then r else r') := by
  split
  · exact h
  · exact h'

theorem deinitUnused_speaks (h : Fit d) : Speaks none d (deinitUnused env d) := by
  rw [deinitUnused]
  split
  · exact .of_eq h rfl
  · exact .of_log ⟨h.heap, h.few, h.message⟩ rfl (fun _ _ heq => by cases heq)
      fun _ heq => by cases heq

theorem removeClient_tells (h : Fit d) (fd : ℕ) : Tells d (removeClient env fd d) := by
  unfold removeClient
  split
  · exact .refl h
  · have hclosed : Tells d (d.log (.closed fd)) := .log h (by simp)
    have hgone : Tells { d.log (.closed fd) with clin := d.clin - 1 }
        (deinitUnused env { d.log (.closed fd) with clin := d.clin - 1 }) :=
      Speaks.tells (deinitUnused_speaks env ⟨h.heap, h.few, h.message⟩)
    have hboth := hclosed.trans (hgone.before rfl)
    exact hboth.trans (.of_eq ⟨hboth.1.heap, hboth.1.few, hboth.1.message⟩ rfl)

theorem writeSocket_speaks {message : List Char} (hmessage : IsEvent message) (fd : ℕ)
    (h : Fit d) : Speaks none d (writeSocket env fd message d).2 := by
  obtain ⟨line, hline, hevent, rfl⟩ := hmessage
  have htext : (Packet.event line).text = line ++ ['\n'] := by
    simp [Packet.text, Packet.lines]
  have hwrote := writeSocket_wrote env fd (line ++ ['\n']) d
  rw [← htext] at hwrote ⊢
  exact Wrote.speaks (p := .event line) h ⟨hline, hevent⟩ hwrote

theorem broadcastLoop_tells {message : List Char} (hmessage : IsEvent message) (n i : ℕ)
    (h : Fit d) : Tells d (broadcastLoop env message n i d) := by
  induction n generalizing i d with
  | zero => exact .refl h
  | succ n ih =>
      rw [broadcastLoop]
      split
      · have hsent := (writeSocket_speaks env hmessage (d.clis i) h).tells
        dsimp only
        split
        · exact hsent.trans (ih _ hsent.1)
        · have hgone := hsent.trans (removeClient_tells env hsent.1
            ((writeSocket env (d.clis i) message d).2.clis i))
          exact hgone.trans (ih _ hgone.1)
      · exact .refl h

theorem sendIrNcode_speaks (a c : ℕ) (h : Fit d) : Speaks none d (sendIrNcode env a c d).2 := by
  have hr := (h.heap a).transmits
    (env.sendFunc_transmits d.clock d.repeatRemote.isSome (d.heap a) c d.sendBuffer)
  refine .of_log ?_ rfl (fun _ _ heq => by cases heq) fun _ heq => by cases heq
  unfold sendIrNcode
  dsimp only
  apply Fit.setRemote
  · exact ⟨h.heap, h.few, h.message⟩
  · exact Showable.ite ⟨hr.name, hr.few, hr.codes⟩ hr

theorem startSending_fit (a c : ℕ) (h : Fit d) : Fit (startSending a c d) := by
  have hr := h.heap a
  have htoggle : Showable (if hasToggleMask (d.heap a) then
      { d.heap a with toggleMaskState := 0 } else d.heap a) :=
    Showable.ite ⟨hr.name, hr.few, hr.codes⟩ hr
  unfold startSending
  dsimp only
  refine h.setRemote (Showable.setTransmitState ?_ c [])
  exact Showable.ite ⟨htoggle.name, htoggle.few, htoggle.codes⟩ htoggle

/-! ### Directives -/

/-- What LIST answers: whether its arguments are accepted, and the lines of data. -/
def listing (env : Env) (d : Daemon) (arguments : Option (List Char)) : Bool × List (List Char) :=
  match parseRc env d arguments false 0 with
  | .error text => (false, [text.dropLast])
  | .ok rc =>
      match rc.remote with
      | none =>
          (true, d.remotes.map fun a => shownLine packetSize (d.heap a).name "name_too_long".toList)
      | some a =>
          match rc.code.bind ((d.heap a).codes[·]?) with
          | none =>
              (true, (d.heap a).codes.map fun c =>
                shownLine packetSize (shownCode c) "code_too_long".toList)
          | some code =>
              (true, [shownLine (packetSize - 2) (shownCode code) "code_too_long".toList])

theorem list_replied {arguments : Option (List Char)} (hargs : ∀ args ∈ arguments, '\n' ∉ args)
    (hcommand : '\n' ∉ command) (h : Fit d) :
    Replied fd command (listing env d arguments).1 (listing env d arguments).2 d
      (list env fd (command ++ ['\n']) arguments d) := by
  have hnameText : nameTooLong = "name_too_long".toList ++ ['\n'] := by decide
  have hcodeText : codeTooLong = "code_too_long".toList ++ ['\n'] := by decide
  rw [list, listing]
  cases hparse : parseRc env d arguments false 0 with
  | error text => exact sendError_replied hcommand (parseRc_isLine hargs hparse) d
  | ok rc =>
      dsimp only
      cases rc.remote with
      | none =>
          dsimp only
          have hlines : ∀ line ∈ d.remotes.map fun a => (d.heap a).name,
              '\n' ∉ line ∧ (line.length + 1 ≠ packetSize ∨ packetSize < packetSize + 1) := by
            intro line hline
            obtain ⟨a, -, rfl⟩ := List.mem_map.mp hline
            exact ⟨(h.heap a).name, .inr (Nat.lt_succ_self _)⟩
          have hreplied : Replied fd command true _ d (sendList env fd (command ++ ['\n'])
              (packetSize + 1) ("name_too_long".toList ++ ['\n']) _ d) :=
            sendList_shown hcommand (Nat.le_succ packetSize) hlines (by decide)
              (by rw [List.length_map]; exact h.few) d
          rw [List.map_map, List.map_map] at hreplied
          rw [sendRemoteList, hnameText]
          exact hreplied
      | some a =>
          have hr := h.heap a
          dsimp only
          cases hcode : rc.code.bind ((d.heap a).codes[·]?) with
          | none =>
              have hlines : ∀ line ∈ (d.heap a).codes.map shownCode,
                  '\n' ∉ line ∧ (line.length + 1 ≠ packetSize ∨ packetSize < packetSize) := by
                intro line hline
                obtain ⟨c, hc, rfl⟩ := List.mem_map.mp hline
                obtain ⟨hname, hlen, -⟩ := hr.codes c hc
                rw [codeText_eq, List.length_append, List.length_singleton] at hlen
                exact ⟨not_mem_shownCode hname, .inl hlen⟩
              have hreplied : Replied fd command true _ d (sendList env fd (command ++ ['\n'])
                  packetSize ("code_too_long".toList ++ ['\n']) _ d) :=
                sendList_shown hcommand le_rfl hlines (by decide)
                  (by rw [List.length_map]; exact hr.few) d
              have htexts : ((d.heap a).codes.map shownCode).map (· ++ ['\n']) =
                  (d.heap a).codes.map codeText := by
                rw [List.map_map]
                refine List.map_congr_left fun c _ => ?_
                rw [Function.comp_apply, codeText_eq]
              rw [htexts, List.map_map, Function.comp_def] at hreplied
              dsimp only
              rw [sendRemote, hcodeText]
              exact hreplied
          | some code =>
              obtain ⟨i, -, hi⟩ := Option.bind_eq_some_iff.mp hcode
              have hmem : code ∈ (d.heap a).codes := List.mem_of_getElem? hi
              obtain ⟨hname, -, hlen⟩ := hr.codes code hmem
              dsimp only
              exact sendName_replied hcommand hname hlen d

theorem parseTransmitters_isLine {fuel : ℕ} {arguments : List Char} {channels : ℕ}
    {text : List Char} (h : parseTransmitters fuel arguments channels = .error text) :
    IsLine text := by
  induction fuel generalizing arguments channels with
  | zero => cases h
  | succ fuel ih =>
      unfold parseTransmitters at h
      split at h
      · cases h
      · dsimp only at h
        split at h
        · cases h
          exact isLine_of (by decide)
        split at h
        · cases h
          exact isLine_of (by decide)
        · exact ih h

theorem maximumText_isLine (n : ℤ) :
    IsLine ("error - maximum of ".toList ++ decimalInt n ++ " transmitters\n".toList) := by
  have hend : " transmitters\n".toList = " transmitters".toList ++ ['\n'] := by decide
  refine ⟨"error - maximum of ".toList ++ decimalInt n ++ " transmitters".toList, ?_, ?_⟩
  · simp only [List.mem_append, not_or]
    exact ⟨⟨by decide, not_mem_decimalInt n⟩, by decide⟩
  · rw [hend, List.append_assoc _ _ ['\n']]

theorem Answers.tick (h : Answers fd command d.tick x) : Answers fd command d x := by
  obtain ⟨ok, data, hwell, clock, es, hx, hes, hbytes⟩ := h
  exact ⟨ok, data, hwell, clock, es, hx, hes, hbytes⟩

theorem setTransmitters_answers (arguments : Option (List Char)) (hcommand : '\n' ∉ command) :
    Answers fd command d (setTransmitters env fd (command ++ ['\n']) arguments d) := by
  have herror : ∀ {text : List Char} {d' : Daemon}, IsLine text →
      Answers fd command d' (sendError env fd (command ++ ['\n']) text d') :=
    fun htext => sendError_answers hcommand htext _
  unfold setTransmitters
  split
  · exact herror (isLine_of (by decide))
  split
  · exact herror (isLine_of (by decide))
  split
  · exact herror (isLine_of (by decide))
  split
  · exact herror (isLine_of (by decide))
  split
  · next htext => exact herror (parseTransmitters_isLine htext)
  · dsimp only
    split
    · exact (herror (isLine_of (by decide))).tick
    split
    · exact (herror (maximumText_isLine _)).tick
    · exact (sendSuccess_answers hcommand d.tick).tick

theorem version_answers (arguments : Option (List Char)) (hcommand : '\n' ∉ command) :
    Answers fd command d (version env fd (command ++ ['\n']) arguments d) := by
  unfold version
  split
  · exact sendError_answers hcommand (isLine_of (by decide)) d
  · have hnl : '\n' ∉ lircVersion := by decide
    refine ⟨true, [lircVersion], ⟨⟨hcommand, by simpa using hnl, by simp⟩, ?_⟩⟩
    have hdigit : "1\n".toList = ['1', '\n'] := by decide
    have hwrote := (writeAll_wrote env fd
      [beginString, command ++ ['\n'], successString, dataString,
        "1\n".toList ++ lircVersion ++ ['\n'], endString]
      (d.log (.formatted ("1\n".toList ++ lircVersion ++ ['\n']) (packetSize + 1)))).formatted
    rw [text_line, statusString_true]
    simpa only [hdigit, List.flatten_cons, List.flatten_nil, List.append_nil, List.append_assoc]
      using hwrote

theorem argCheck_both {rc rc' : RcArgs} (h : argCheck 2 rc = .ok rc') :
    ∃ a c, rc'.remote = some a ∧ rc'.code = some c := by
  rw [argCheck] at h
  split at h
  · cases h
  · next hremote =>
      split at h
      · cases h
      · next hcode =>
          cases h
          obtain ⟨a, ha⟩ := Option.ne_none_iff_exists'.mp fun hnone => hremote ⟨by omega, hnone⟩
          obtain ⟨c, hc⟩ := Option.ne_none_iff_exists'.mp fun hnone => hcode ⟨by omega, hnone⟩
          exact ⟨a, c, ha, hc⟩

/-- `parse_rc` has found both a remote and a code when it is asked for both. -/
theorem parseRc_both {arguments : Option (List Char)} {withReps : Bool} {rc : RcArgs}
    (h : parseRc env d arguments withReps 2 = .ok rc) :
    ∃ a c, rc.remote = some a ∧ rc.code = some c := by
  unfold parseRc at h
  split at h
  · exact argCheck_both h
  · split at h
    · cases h
    · split at h
      · exact argCheck_both h
      · split at h
        · cases h
        · unfold parseEnd at h
          split at h
          · exact argCheck_both h
          · exact argCheck_both h
          · cases h
          · split at h
            · cases h
            · split at h
              · cases h
              · split at h
                · cases h
                · split at h
                  · cases h
                  · exact argCheck_both h

theorem sendCore_answers {arguments : Option (List Char)} (hargs : ∀ args ∈ arguments, '\n' ∉ args)
    (hcommand : '\n' ∉ command) (once : Bool) (hreply : sendRequest env once arguments d = .reply) :
    Answers fd command d (sendCore env once fd (command ++ ['\n']) arguments d) := by
  rw [sendRequest] at hreply
  rw [sendCore]
  split
  · exact sendError_answers hcommand (isLine_of (by decide)) d
  · next hmode =>
      rw [if_neg hmode] at hreply
      split
      · next htext => exact sendError_answers hcommand (parseRc_isLine hargs htext) d
      · next a c reps hparse =>
          rw [hparse] at hreply
          dsimp only at hreply
          split
          · refine sendError_answers hcommand ?_ d
            cases once with
            | true => exact isLine_of (by decide)
            | false => exact isLine_of (by decide)
          · next hidle =>
              rw [if_neg hidle] at hreply
              cases hreply
      · next rc hnot hparse =>
          obtain ⟨a, c, ha, hc⟩ := parseRc_both env hparse
          obtain ⟨remote, code, reps⟩ := rc
          obtain rfl : remote = some a := ha
          obtain rfl : code = some c := hc
          exact absurd rfl (hnot a c reps)

theorem sendStop_answers {arguments : Option (List Char)} (hargs : ∀ args ∈ arguments, '\n' ∉ args)
    (hcommand : '\n' ∉ command) (hreply : stopRequest env arguments d = .reply) :
    Answers fd command d (sendStop env fd (command ++ ['\n']) arguments d) := by
  rw [stopRequest] at hreply
  rw [sendStop]
  cases hparse : parseRc env d arguments false 0 with
  | error text => exact sendError_answers hcommand (parseRc_isLine hargs hparse) d
  | ok rc =>
      rw [hparse] at hreply
      dsimp only at hreply ⊢
      cases hremote : d.repeatRemote with
      | none => exact sendError_answers hcommand (isLine_of (by decide)) d
      | some a =>
          cases hcode : d.repeatCode with
          | none => exact sendError_answers hcommand (isLine_of (by decide)) d
          | some c =>
              rw [hremote, hcode] at hreply
              dsimp only at hreply ⊢
              split
              · exact sendError_answers hcommand (isLine_of (by decide)) d
              · next hname =>
                  split
                  · exact sendError_answers hcommand (isLine_of (by decide)) d
                  · next hbutton =>
                      have hmatch : StopMatches d rc a c :=
                        ⟨Bool.eq_false_of_not_eq_true hname, Bool.eq_false_of_not_eq_true hbutton⟩
                      rw [if_pos hmatch] at hreply
                      split at hreply
                      · cases hreply
                      · cases hreply

theorem simulate_answers {arguments : Option (List Char)} (hcommand : '\n' ∉ command)
    (hreply : simulateRequest env arguments d = .reply) :
    Answers fd command d (simulate env fd (command ++ ['\n']) arguments d) := by
  have herror : ∀ {text : List Char} {d' : Daemon}, IsLine text →
      Answers fd command d' (sendError env fd (command ++ ['\n']) text d') :=
    fun htext => sendError_answers hcommand htext _
  unfold simulate
  split
  · exact herror (isLine_of (by decide))
  · next hallow =>
      cases arguments with
      | none => exact herror (isLine_of (by decide))
      | some event =>
          rw [simulateRequest] at hreply
          dsimp only at hreply ⊢
          split
          · exact herror (isLine_of (by decide))
          · next hvalid =>
              split
              · exact (herror (isLine_of (by decide))).tick
              · next hmemory =>
                  simp only [Bool.not_eq_true', Bool.not_eq_false] at hallow hvalid hmemory
                  rw [hallow, hvalid, hmemory, Bool.and_true, Bool.and_true, if_pos rfl] at hreply
                  cases hreply

/-- A line that asks for no more than a reply gets it. -/
theorem execLine_answers {line : List Char} (hline : '\n' ∉ line) (h : Fit d)
    (hreply : request env d line = .reply) :
    Answers fd line d (execLine (lircd env fd) line d) := by
  rw [request] at hreply
  rw [execLine]
  cases htok : strtok whiteSpace (stripCR line) with
  | none => exact sendError_answers hline (isLine_of (by decide)) d
  | some token =>
      obtain ⟨directive, rest⟩ := token
      obtain ⟨hnl, hargs⟩ := newline_notMem_token hline htok
      rw [htok] at hreply
      simp only [lircd, List.find?_cons]
      dsimp only at hreply
      cases hlist : strcaseeq directive "LIST".toList with
      | true => exact ⟨_, _, list_replied env hargs hline h⟩
      | false =>
      cases honce : strcaseeq directive "SEND_ONCE".toList with
      | true =>
          rw [honce] at hreply
          exact sendCore_answers env hargs hline true hreply
      | false =>
      cases hstart : strcaseeq directive "SEND_START".toList with
      | true =>
          rw [honce, hstart] at hreply
          exact sendCore_answers env hargs hline false hreply
      | false =>
      cases hstop : strcaseeq directive "SEND_STOP".toList with
      | true =>
          rw [honce, hstart, hstop] at hreply
          exact sendStop_answers env hargs hline hreply
      | false =>
      cases hversion : strcaseeq directive "VERSION".toList with
      | true => exact version_answers env _ hline
      | false =>
      cases hmask : strcaseeq directive "SET_TRANSMITTERS".toList with
      | true => exact setTransmitters_answers env _ hline
      | false =>
      cases hsimulate : strcaseeq directive "SIMULATE".toList with
      | true =>
          rw [honce, hstart, hstop, hsimulate] at hreply
          exact simulate_answers env hline hreply
      | false => exact sendError_answers hline (isLine_quoted (by decide) hnl) d

/-! ### Lines that send -/

/-- A reply is written, and what waits for another one is left. -/
theorem Answers.spoken {x : Bool × Daemon} (h : Answers fd command d x) (hfit : Fit d) :
    Speaks (some (fd, command)) d x.2 ∧ x.2.repeatFd = d.repeatFd := by
  refine ⟨h.speaks hfit, ?_⟩
  obtain ⟨ok, data, -, clock, es, hx, -, -⟩ := h
  rw [hx]

theorem sendSuccess_spoken (hcommand : '\n' ∉ command) (h : Fit d) :
    Speaks (some (fd, command)) d (sendSuccess env fd (command ++ ['\n']) d).2 ∧
      (sendSuccess env fd (command ++ ['\n']) d).2.repeatFd = d.repeatFd :=
  (sendSuccess_answers hcommand d).spoken h

theorem sendError_spoken (hcommand : '\n' ∉ command) {text : List Char} (htext : IsLine text)
    (h : Fit d) :
    Speaks (some (fd, command)) d (sendError env fd (command ++ ['\n']) text d).2 ∧
      (sendError env fd (command ++ ['\n']) text d).2.repeatFd = d.repeatFd :=
  (sendError_answers hcommand htext d).spoken h

/-- The reply of the line that begins a transmission is written, or waits for its end. -/
theorem sendFirst_speaks (hcommand : '\n' ∉ command) (once : Bool) (a c : ℕ) (reps : ℤ)
    (h : Fit d) :
    (Speaks (some (fd, command)) d (sendFirst env fd (command ++ ['\n']) once a c reps d).2 ∧
        (sendFirst env fd (command ++ ['\n']) once a c reps d).2.repeatFd = d.repeatFd) ∨
      (Speaks none d (sendFirst env fd (command ++ ['\n']) once a c reps d).2 ∧
        (sendFirst env fd (command ++ ['\n']) once a c reps d).2.repeatFd = some fd ∧
        (sendFirst env fd (command ++ ['\n']) once a c reps d).2.repeatMessage =
          some (command ++ ['\n'])) := by
  have hstart : Speaks none d (startSending a c d) := .of_eq (startSending_fit a c h) rfl
  have hsent := hstart.trans (sendIrNcode_speaks env a c hstart.fit)
  have hr := hsent.fit.heap a
  have hnoted : Speaks none d
      (noteSent env once a c reps (sendIrNcode env a c (startSending a c d)).2) :=
    hsent.trans (.of_eq (hsent.fit.setRemote ⟨hr.name, hr.few, hr.codes⟩) rfl)
  have hfd : (noteSent env once a c reps (sendIrNcode env a c (startSending a c d)).2).repeatFd =
      d.repeatFd := rfl
  rw [sendFirst]
  dsimp only
  generalize noteSent env once a c reps (sendIrNcode env a c (startSending a c d)).2 = noted
    at hnoted hfd ⊢
  split
  · split
    · rw [startRepeating]
      dsimp only
      split
      · split
        · refine .inr ⟨hnoted.trans (.of_eq ?_ ?_), ?_⟩
          · apply Fit.setTimer
            refine ⟨hnoted.fit.heap, hnoted.fit.few, fun m hm => ?_⟩
            obtain rfl := Option.some.inj hm
            exact ⟨command, hcommand, rfl⟩
          · rw [setTimer_eq]
            rfl
          · rw [setTimer_eq]
            exact ⟨rfl, rfl⟩
        · -- there is no memory for the text of the reply
          have htext : IsLine "out of memory\n".toList := isLine_of (by decide)
          have hfailed : Fit (Daemon.tick { noted with
              repeatRemote := none, repeatCode := none, repeatMessage := none }) :=
            ⟨hnoted.fit.heap, hnoted.fit.few, by simp [Daemon.tick]⟩
          obtain ⟨hspeaks, hsame⟩ := sendError_spoken env hcommand htext hfailed
          exact .inl ⟨hnoted.trans (hspeaks.before rfl), hsame.trans hfd⟩
      · have hstarted : Fit { noted with repeatRemote := some a, repeatCode := some c } :=
          ⟨hnoted.fit.heap, hnoted.fit.few, hnoted.fit.message⟩
        obtain ⟨hanswered, hkept⟩ := sendSuccess_spoken env hcommand hstarted
        have hspeaks := hnoted.trans (hanswered.before rfl)
        have hsame := hkept.trans hfd
        split
        · refine .inl ⟨hspeaks.andThen (.of_eq (hspeaks.fit.setTimer _) ?_), ?_⟩
          · rw [setTimer_eq]
          · rw [setTimer_eq]
            exact hsame
        · exact .inl ⟨hspeaks.andThen (.of_eq
            ⟨hspeaks.fit.heap, hspeaks.fit.few, hspeaks.fit.message⟩ rfl), hsame⟩
    · obtain ⟨hanswered, hsame⟩ := sendSuccess_spoken env hcommand hnoted.fit
      exact .inl ⟨hnoted.trans hanswered, hsame.trans hfd⟩
  · have htext : IsLine "transmission failed\n".toList := isLine_of (by decide)
    obtain ⟨hanswered, hsame⟩ := sendError_spoken env hcommand htext hsent.fit
    exact .inl ⟨hsent.trans hanswered, hsame⟩

theorem sendRequest_ne_simulate (once : Bool) (arguments : Option (List Char))
    (event : List Char) : sendRequest env once arguments d ≠ .simulate event := by
  rw [sendRequest]
  split
  · exact Request.noConfusion
  · split
    · split
      · exact Request.noConfusion
      · exact Request.noConfusion
    · exact Request.noConfusion

theorem stopRequest_ne_simulate (arguments : Option (List Char)) (event : List Char) :
    stopRequest env arguments d ≠ .simulate event := by
  rw [stopRequest]
  split
  · split
    · split
      · exact Request.noConfusion
      · exact Request.noConfusion
    · exact Request.noConfusion
  · exact Request.noConfusion

/-- What SIMULATE sends to the clients has the form of an event. -/
theorem request_event {line event : List Char} (hline : '\n' ∉ line)
    (h : request env d line = .simulate event) : IsEvent (event ++ ['\n']) := by
  rw [request] at h
  split at h
  · cases h
  · next directive rest htok =>
      split at h
      · exact absurd h (sendRequest_ne_simulate env _ _ _)
      split at h
      · exact absurd h (sendRequest_ne_simulate env _ _ _)
      split at h
      · exact absurd h (stopRequest_ne_simulate env _ _)
      split at h
      · unfold simulateRequest at h
        split at h
        · cases h
        · next hargs =>
            split at h
            · next hall =>
                cases h
                simp only [Bool.and_eq_true] at hall
                exact ⟨event, (newline_notMem_token hline htok).2 event hargs, hall.1.2, rfl⟩
            · cases h
      · cases h

/-- A line is answered, or its reply waits for the end of a transmission, or it is a SIMULATE. -/
theorem execLine_speaks {line : List Char} (hline : '\n' ∉ line) (h : Fit d) :
    (Speaks (some (fd, line)) d (execLine (lircd env fd) line d).2 ∧
        (execLine (lircd env fd) line d).2.repeatFd = d.repeatFd) ∨
      (Speaks none d (execLine (lircd env fd) line d).2 ∧ d.repeatRemote = none ∧
        (execLine (lircd env fd) line d).2.repeatFd = some fd ∧
        (execLine (lircd env fd) line d).2.repeatMessage = some (line ++ ['\n'])) ∨
      (env.allowSimulate = true ∧ Tells d (execLine (lircd env fd) line d).2) := by
  have hanswered := execLine_answered env fd line d
  have hreplies : _ → Answers fd line d _ := execLine_answers env hline h
  have hevents : ∀ event, request env d line = .simulate event → IsEvent (event ++ ['\n']) :=
    fun _ => request_event env hline
  generalize request env d line = q at hanswered hreplies hevents
  generalize execLine (lircd env fd) line d = x at hanswered hreplies ⊢
  cases hanswered with
  | reply hx => exact .inl ((hreplies rfl).spoken h)
  | @send once a c reps hidle honce =>
      obtain hanswers | ⟨hwaits, hfields⟩ := sendFirst_speaks env hline once a c reps h
      · exact .inl hanswers
      · exact .inr (.inl ⟨hwaits, hidle, hfields⟩)
  | @stop a c hremote hcode =>
      have hr := h.heap a
      have hfit : Fit (stopRepeating a d) := by
        have hset := (h.setTimer 0).setRemote (a := a)
          (r := { d.heap a with toggleMaskState := 0 }) ⟨hr.name, hr.few, hr.codes⟩
        exact ⟨hset.heap, hset.few, hset.message⟩
      have hstopped : (stopRepeating a d).trace = d.trace ∧
          (stopRepeating a d).repeatFd = d.repeatFd := by
        rw [stopRepeating, setTimer_eq]
        exact ⟨rfl, rfl⟩
      obtain ⟨hanswers, hsame⟩ := sendSuccess_spoken env hline hfit
      exact .inl ⟨hanswers.before hstopped.1, hsame.trans hstopped.2⟩
  | @postpone a c frames hremote hcode =>
      have hr := h.heap a
      have hfit : Fit (d.setRemote a { d.heap a with repeatCountdown := frames }) :=
        h.setRemote ⟨hr.name, hr.few, hr.codes⟩
      obtain ⟨hanswers, hsame⟩ := sendSuccess_spoken env hline hfit
      exact .inl ⟨hanswers.before rfl, hsame⟩
  | @simulate event hallow =>
      have htick : Fit d.tick := ⟨h.heap, h.few, h.message⟩
      have hlog : Tells d (d.tick.log (.formatted (event ++ ['\n']) (event.length + 2))) :=
        (Tells.log htick (by simp)).before rfl
      have hsent := hlog.trans (broadcastLoop_tells env (hevents event rfl) d.clin 0 hlog.1)
      exact .inr (.inr ⟨hallow,
        hsent.trans ((sendSuccess_answers hline _).speaks hsent.1).tells⟩)

theorem execLine_tells {line : List Char} (hline : '\n' ∉ line) (h : Fit d) :
    Tells d (execLine (lircd env fd) line d).2 := by
  obtain ⟨hanswered, -⟩ | ⟨hwaits, -⟩ | ⟨-, hsent⟩ := @execLine_speaks env fd d line hline h
  · exact hanswered.tells
  · exact hwaits.tells
  · exact hsent

/-! ### The repeat alarm -/

/-- The reply that waits. -/
def Daemon.waitingReply (d : Daemon) : Option (ℕ × List Char) :=
  match d.repeatFd, d.repeatMessage with
  | some fd, some message => some (fd, message.dropLast)
  | _, _ => none

/-- What has been counted as a repeat is noted nowhere. -/
theorem countRepeat_speaks (a c : ℕ) (h : Fit d) :
    Speaks none d (countRepeat a c d) ∧ (countRepeat a c d).repeatRemote = d.repeatRemote ∧
      (countRepeat a c d).waitingReply = d.waitingReply := by
  rw [countRepeat]
  split
  · exact ⟨.of_eq h rfl, rfl, rfl⟩
  · split
    · have hr := h.heap a
      exact ⟨.of_eq (h.setRemote ⟨hr.name, hr.few, hr.codes⟩) rfl, rfl, rfl⟩
    · exact ⟨.of_eq h rfl, rfl, rfl⟩

theorem answerRepeat_speaks {reply : ℕ → List Char → Daemon → Bool × Daemon}
    (hreply : ∀ fd command d, '\n' ∉ command →
      Answers fd command d (reply fd (command ++ ['\n']) d)) (h : Fit d) :
    Speaks d.waitingReply d (answerRepeat reply d) := by
  rw [answerRepeat, Daemon.waitingReply]
  cases hfd : d.repeatFd with
  | none => exact .of_eq h rfl
  | some fd =>
      cases hmessage : d.repeatMessage with
      | none => exact .of_eq h rfl
      | some message =>
          obtain ⟨command, hcommand, rfl⟩ := h.message message hmessage
          dsimp only
          rw [List.dropLast_concat]
          have hsent := (hreply fd command d hcommand).speaks h
          exact hsent.andThen (.of_eq ⟨hsent.fit.heap, hsent.fit.few, by simp⟩ rfl)

/-- `dosigalrm` sends a frame, or writes the reply that waits. -/
theorem dosigalrm_speaks (h : Fit d) :
    (Speaks none d (dosigalrm env d) ∧ (dosigalrm env d).repeatRemote = d.repeatRemote) ∨
      (Speaks d.waitingReply d (dosigalrm env d) ∧ (dosigalrm env d).repeatRemote = none ∧
        d.repeatRemote ≠ none) := by
  have hnone : ∀ {d' : Daemon}, d'.repeatRemote = none →
      (deinitUnused env d').repeatRemote = none := fun {d'} hd' => by
    rw [deinitUnused]
    split
    · exact hd'
    · exact hd'
  unfold dosigalrm
  split
  · next a c hremote hcode =>
      have hsome : d.repeatRemote ≠ none := by
        rw [hremote]
        exact Option.some_ne_none a
      split
      · obtain ⟨hcounted, hsame, hwaiting⟩ := countRepeat_speaks a c h
        have hsent := hcounted.trans (sendIrNcode_speaks env a c hcounted.fit)
        have hremote' : (sendIrNcode env a c (countRepeat a c d)).2.repeatRemote = d.repeatRemote :=
          hsame
        have hwaiting' : (sendIrNcode env a c (countRepeat a c d)).2.waitingReply =
            d.waitingReply := hwaiting
        generalize sendIrNcode env a c (countRepeat a c d) = x at hsent hremote' hwaiting' ⊢
        dsimp only
        split
        · refine .inl ⟨hsent.andThen (.of_eq (hsent.fit.setTimer _) ?_), ?_⟩
          · rw [setTimer_eq]
          · rw [setTimer_eq]
            exact hremote'
        · -- all frames have been sent, or sending has failed
          rw [finishRepeating]
          have hended : Fit { x.2 with repeatRemote := none, repeatCode := none } :=
            ⟨hsent.fit.heap, hsent.fit.few, hsent.fit.message⟩
          have hanswered : Speaks _ _ (answerRepeat (sendSuccess env) _) :=
            answerRepeat_speaks (fun fd command d hcommand => sendSuccess_answers hcommand d) hended
          have hspeaks := hanswered.andThen (deinitUnused_speaks env hanswered.fit)
          have hall : Speaks d.waitingReply d (deinitUnused env (answerRepeat (sendSuccess env)
              { x.2 with repeatRemote := none, repeatCode := none })) := by
            rw [← hwaiting']
            exact hsent.trans (hspeaks.before rfl)
          refine .inr ⟨hall, hnone ?_, hsome⟩
          rw [answerRepeat]
          split
          · next fd message _ _ =>
              obtain ⟨clock, es, hstate, -⟩ := sendSuccess_replies env fd message
                { x.2 with repeatRemote := none, repeatCode := none }
              rw [hstate]
          · rfl
      · -- another code has been received since
        rw [interruptRepeating]
        have htext : IsLine "repeating interrupted\n".toList := isLine_of (by decide)
        have hanswered : Speaks _ _ (answerRepeat (fun fd message =>
            sendError env fd message "repeating interrupted\n".toList) d) :=
          answerRepeat_speaks (fun fd command d hcommand => sendError_answers hcommand htext d) h
        generalize answerRepeat (fun fd message =>
          sendError env fd message "repeating interrupted\n".toList) d = d' at hanswered ⊢
        have hended : Speaks none d' { d' with
            repeatRemote := none, repeatCode := none, repeatFd := none, repeatMessage := none } :=
          .of_eq ⟨hanswered.fit.heap, hanswered.fit.few, by simp⟩ rfl
        have hspeaks := (hanswered.andThen hended).andThen (deinitUnused_speaks env hended.fit)
        exact .inr ⟨hspeaks, hnone rfl, hsome⟩
  · exact .inl ⟨.of_eq h rfl, rfl⟩

theorem dosigalrm_tells (h : Fit d) : Tells d (dosigalrm env d) := by
  obtain ⟨hspeaks, -⟩ | ⟨hspeaks, -⟩ := dosigalrm_speaks env h
  · exact hspeaks.tells
  · exact hspeaks.tells

/-! ### The main loop -/

theorem addClient_tells (fd' : ℕ) (type : ClientType) (h : Fit d) :
    Tells d (addClient env fd' type d) := by
  unfold addClient
  split
  · exact .log h (by simp)
  · have hadded : Fit { d with
        cliType := Function.update d.cliType d.clin type
        clis := Function.update d.clis d.clin fd' } := ⟨h.heap, h.few, h.message⟩
    dsimp only
    split
    · exact .of_eq ⟨h.heap, h.few, h.message⟩ rfl
    · have hinit := (Tells.log (e := .init) hadded (by simp)).before (d := d) rfl
      exact hinit.trans (.of_eq ⟨h.heap, h.few, h.message⟩ rfl)

theorem serveClient_tells (i : ℕ) (reads : List (Option (List Char))) (h : Fit d) :
    Tells d (serveClient env i reads d) := by
  unfold serveClient
  split
  · split
    · exact .refl h
    · next ok d' reads' hcall =>
        have hserved : Tells d d' :=
          getCommand_invariant
            (fun line s hline hs => hs.trans (execLine_tells env hline hs.1)) (Tells.refl h) hcall
        split
        · exact hserved
        · exact hserved.trans (removeClient_tells env hserved.1 _)
  · exact .refl h

theorem broadcast_tells {messages : List (List Char)} (hmessages : ∀ m ∈ messages, IsEvent m)
    (h : Fit d) :
    Tells d (messages.foldl (fun d message => broadcastMessage env message d) d) := by
  induction messages generalizing d with
  | nil => exact .refl h
  | cons message messages ih =>
      obtain ⟨hmessage, hrest⟩ := List.forall_mem_cons.mp hmessages
      have hsent : Tells d (broadcastMessage env message d) :=
        broadcastLoop_tells env hmessage _ 0 h
      exact hsent.trans (ih hrest hsent.1)

/-- What the driver has received is an event, and what is read from the configuration can be
shown. -/
def LoopEvent.Fits : LoopEvent → Prop
  | .received heap messages => (∀ a, Showable (heap a)) ∧ ∀ m ∈ messages, IsEvent m
  | _ => True

theorem loopStep_tells {e : LoopEvent} (he : e.Fits) (h : Fit d) : Tells d (loopStep env d e) := by
  cases e with
  | connect fd' type => exact addClient_tells env fd' type h
  | input i reads => exact serveClient_tells env i reads h
  | expire =>
      show Tells d (expire d)
      rw [expire_eq]
      exact .of_eq ⟨h.heap, h.few, h.message⟩ rfl
  | alarm late =>
      show Tells d (handleAlarm env late d)
      unfold handleAlarm
      split
      · have hdone : Tells d (dosigalrm env d) := dosigalrm_tells env h
        have hfit := hdone.1
        cases late with
        | true =>
            simp only [if_pos, expire_eq]
            exact hdone.trans (.of_eq ⟨hfit.heap, hfit.few, hfit.message⟩ rfl)
        | false => exact hdone.trans (.of_eq ⟨hfit.heap, hfit.few, hfit.message⟩ rfl)
      · exact .refl h
  | reconnect =>
      show Tells d (reconnect env d)
      rw [reconnect]
      split
      · exact .log h (by simp)
      · exact .refl h
  | received heap messages =>
      have hheap : Fit { d with heap := heap } := ⟨he.1, h.few, h.message⟩
      exact (broadcast_tells env he.2 hheap).before rfl

end Operations

/-! ### Configurations that are read again -/

section Sighup

variable (env : Env)

/-- The loop of `dosighup` over the clients. -/
def sighupLoop : ℕ → ℕ → Daemon → Daemon
  | 0, _, d => d
  | n + 1, i, d =>
      if i < d.clin then
        let (ok, d) := writeAll env (d.clis i) [beginString, sighupString, endString] d
        if ok then sighupLoop n (i + 1) d
        else sighupLoop n i (removeClient env (d.clis i) d)
      else d

/-- `dosighup`, with the remotes that `config` has left. -/
def dosighup (heap : ℕ → IrRemote) (remotes : List ℕ) (d : Daemon) : Daemon :=
  sighupLoop env d.clin 0 { d with heap := heap, remotes := remotes }

/-- What lircd does between two calls of `select`. -/
inductive OutputEvent
  | loop (e : LoopEvent)
  | sighup (heap : ℕ → IrRemote) (remotes : List ℕ)
  /-- `free_old_remotes` has mapped what is being repeated to the new remotes and sent the
  release of a button. -/
  | mapped (heap : ℕ → IrRemote) (repeatRemote repeatCode : Option ℕ)
      (messages : List (List Char))

def outputStep (d : Daemon) : OutputEvent → Daemon
  | .loop e => loopStep env d e
  | .sighup heap remotes => dosighup env heap remotes d
  | .mapped heap repeatRemote repeatCode messages =>
      messages.foldl (fun d message => broadcastMessage env message d)
        { d with heap := heap, repeatRemote := repeatRemote, repeatCode := repeatCode }

end Sighup

def OutputEvent.Fits : OutputEvent → Prop
  | .loop e => e.Fits
  | .sighup heap remotes => (∀ a, Showable (heap a)) ∧ remotes.length < 2 ^ 31
  | .mapped heap _ _ messages => (∀ a, Showable (heap a)) ∧ ∀ m ∈ messages, IsEvent m

section Runs

variable {env : Env} {d : Daemon}

theorem sighupLoop_tells (n i : ℕ) (h : Fit d) : Tells d (sighupLoop env n i d) := by
  induction n generalizing i d with
  | zero => exact .refl h
  | succ n ih =>
      rw [sighupLoop]
      split
      · have hwrote : Wrote (d.clis i) Packet.sighup.text d
            (writeAll env (d.clis i) [beginString, sighupString, endString] d) :=
          writeAll_wrote env (d.clis i) [beginString, sighupString, endString] d
        have hsent := (Wrote.speaks (p := .sighup) h trivial hwrote).tells
        dsimp only
        split
        · exact hsent.trans (ih _ hsent.1)
        · have hgone := hsent.trans (removeClient_tells env hsent.1
            ((writeAll env (d.clis i) [beginString, sighupString, endString] d).2.clis i))
          exact hgone.trans (ih _ hgone.1)
      · exact .refl h

theorem outputStep_tells {e : OutputEvent} (he : e.Fits) (h : Fit d) :
    Tells d (outputStep env d e) := by
  cases e with
  | loop e => exact loopStep_tells env he h
  | sighup heap remotes =>
      have hread : Fit { d with heap := heap, remotes := remotes } := ⟨he.1, he.2, h.message⟩
      exact (sighupLoop_tells d.clin 0 hread).before rfl
  | mapped heap repeatRemote repeatCode messages =>
      have hmapped : Fit { d with
          heap := heap, repeatRemote := repeatRemote, repeatCode := repeatCode } :=
        ⟨he.1, h.few, h.message⟩
      exact (broadcast_tells env he.2 hmapped).before rfl

end Runs

/-- Over every run each descriptor is written whole packets, one after the other, up to the
first write to it that fails. What it is written tells which packets these are. -/
theorem output_packets (env : Env) (d : Daemon) (hfit : Fit d) (htrace : d.trace = [])
    (events : List OutputEvent) (hevents : ∀ e ∈ events, e.Fits) (fd : ℕ) :
    let es := connection fd (run (outputStep env) d events).trace
    .broken fd ∈ es ∨
      ∃! ps : List Packet,
        (∀ p ∈ ps, p.WellFormed) ∧ writtenTo fd es = ps.flatMap Packet.text := by
  intro es
  have hrun : Tells d (run (outputStep env) d events) :=
    (along_of_forall hevents).invariant (fun s e hs he => hs.trans (outputStep_tells he hs.1))
      (Tells.refl hfit)
  obtain ⟨-, fs, hfs, honly⟩ := hrun
  have hes : es = connection fd fs := by
    show connection fd (run (outputStep env) d events).trace = _
    rw [hfs, htrace, List.nil_append]
  rw [hes]
  rcases honly fd with hbroken | ⟨ps, hps, htext⟩
  · exact .inl hbroken
  · refine .inr ⟨ps, ⟨hps, htext⟩, fun qs hqs => ?_⟩
    exact Packet.packets_inj hqs.1 hps (hqs.2.symm.trans htext)

/-- A client asks for the version and for what it may not have, and is told of a button and of
a new configuration. -/
theorem output_packets_version :
    let es := connection 7 (run (outputStep quietEnv) emptyDaemon
      [.loop (.connect 7 .localClient),
        .loop (.input 0 [some "VERSION\nSIMULATE BEGIN\n".toList]),
        .loop (.received (fun _ => {}) ["0000000000000001 00 POWER tv\n".toList]),
        .sighup (fun _ => {}) []]).trace
    .broken 7 ∈ es ∨
      ∃! ps : List Packet,
        (∀ p ∈ ps, p.WellFormed) ∧ writtenTo 7 es = ps.flatMap Packet.text := by
  have hempty : Showable {} := ⟨by simp, by simp, by simp⟩
  have hevent : IsEvent "0000000000000001 00 POWER tv\n".toList :=
    ⟨"0000000000000001 00 POWER tv".toList, by decide, by decide, by decide⟩
  refine output_packets quietEnv emptyDaemon ⟨fun _ => hempty, by simp [emptyDaemon],
    by simp [emptyDaemon]⟩ rfl _ ?_ 7
  simp only [List.forall_mem_cons, OutputEvent.Fits, LoopEvent.Fits]
  exact ⟨trivial, trivial, ⟨fun _ => hempty, by simpa using hevent⟩, ⟨fun _ => hempty, by simp⟩,
    by simp⟩

end Lirc
