import Lirc.Survival

/-!
The lines that come from lircd and the events of the clients of lircrcd. One
pass of the loop takes one line, so the queues keep up with the lines as long as
no read brings two.
-/

namespace Lirc

open CString Lines Transition

/-! ### What is read -/

/-- An event of the loop whose read from lircd brings at most one newline, and
no zero byte. -/
def BringsOneLine : RcEvent → Prop
  | .input (.bytes bytes) => bytes.count '\n' ≤ 1 ∧ nul ∉ bytes
  | _ => True

/-- Every complete line is in the queues: each client has all of them since it
connected, and the buffer has none. -/
structure InQueues (d : Lircrcd) : Prop where
  buffer : '\n' ∉ d.buffer
  noNul : nul ∉ d.buffer
  lines : ∃ ls, (∀ l ∈ ls, '\n' ∉ l) ∧ d.received = stream '\n' ls ++ d.buffer
  clients : ∀ c ∈ d.clis.map ClientData.record,
    c.2.2 = (complete '\n' d.received).drop c.2.1 ∧ c.2.1 ≤ (complete '\n' d.received).length

/-- lircrcd does not lag behind lircd. -/
structure KeepsUp (d : Lircrcd) : Prop where
  enqueued : ∀ c ∈ d.clis, c.enqueued = (complete '\n' d.received).drop c.born
  pending : ∀ c ∈ d.clis, c.pendingCode.isSome → '\n' ∉ d.buffer

theorem InQueues.keepsUp {d : Lircrcd} (h : InQueues d) : KeepsUp d := by
  refine ⟨fun c hc => ?_, fun c _ _ => h.buffer⟩
  exact (h.clients _ (List.mem_map_of_mem hc)).1

theorem inQueues_init (config : RcConfig) : InQueues (Lircrcd.init config) :=
  ⟨by simp [Lircrcd.init], by simp [Lircrcd.init], ⟨[], by simp, rfl⟩, by simp [Lircrcd.init]⟩

/-- What leaves the buffer and the queues alone keeps them. -/
theorem InQueues.of_subset {d d' : Lircrcd} (h : InQueues d) (hbuffer : d'.buffer = d.buffer)
    (hreceived : d'.received = d.received)
    (hclis : d'.clis.map ClientData.record ⊆ d.clis.map ClientData.record) : InQueues d' := by
  refine ⟨hbuffer ▸ h.buffer, hbuffer ▸ h.noNul, ?_, ?_⟩
  · rw [hreceived, hbuffer]
    exact h.lines
  · intro c hc
    rw [hreceived]
    exact h.clients c (hclis hc)

/-! ### Commands and connections -/

section Steps

variable (env : RcEnv)

theorem InQueues.command {d : Lircrcd} (h : InQueues d) (fd : ℕ)
    (reads : List (Option (List Char))) : InQueues (rcCommand env fd reads d) := by
  unfold rcCommand
  cases d.clientIndex fd with
  | none => exact h
  | some i =>
      simp only []
      cases hcall : getCommandWith (rcExecLine env fd) reads d with
      | none => exact h
      | some x =>
          obtain ⟨ok, d', reads'⟩ := x
          have hserves := getCommand_serves env fd hcall
          have hd' : InQueues d' :=
            h.of_subset hserves.buffer hserves.received (hserves.clis ▸ List.Subset.refl _)
          cases ok with
          | true => exact hd'
          | false =>
              have hremoved : InQueues (rcRemoveClient i d') := by
                refine hd'.of_subset ?_ ?_ ?_
                · unfold rcRemoveClient
                  cases d'.clis[i]? <;> rfl
                · unfold rcRemoveClient
                  cases d'.clis[i]? <;> rfl
                · show (d'.clis.eraseIdx i).map ClientData.record ⊆ _
                  exact List.map_subset _ (List.eraseIdx_subset ..)
              simp only []
              split
              · exact hremoved.of_subset rfl rfl (List.Subset.refl _)
              · exact hremoved

theorem InQueues.addClient {d : Lircrcd} (h : InQueues d) (fd : ℕ) :
    InQueues (rcAddClient fd d) := by
  unfold rcAddClient
  split
  · exact h
  · split
    · exact h
    · refine ⟨h.buffer, h.noNul, h.lines, ?_⟩
      intro c hc
      rw [List.map_append, List.mem_append, List.map_singleton, List.mem_singleton] at hc
      obtain hc | rfl := hc
      · exact h.clients c hc
      · -- nothing has come since the client connected
        exact ⟨(List.drop_length ..).symm, le_rfl⟩

/-! ### Input -/

theorem foldl_fanOut_frame (strings : List RcFound) (d : Lircrcd) :
    (strings.foldl fanOut d).clis.map ClientData.record = d.clis.map ClientData.record ∧
      (strings.foldl fanOut d).buffer = d.buffer ∧
      (strings.foldl fanOut d).received = d.received := by
  induction strings generalizing d with
  | nil => exact ⟨rfl, rfl, rfl⟩
  | cons s strings ih =>
      obtain ⟨hclis, hbuffer, hreceived⟩ := ih (fanOut d s)
      obtain ⟨hb, hr⟩ := fanOut_buffer d s
      exact ⟨hclis.trans (fanOut_records d s), hbuffer.trans hb, hreceived.trans hr⟩

theorem foldl_answerPending_frame (is : List ℕ) (d : Lircrcd) :
    (is.foldl (answerPending env) d).clis.map ClientData.record = d.clis.map ClientData.record ∧
      (is.foldl (answerPending env) d).buffer = d.buffer ∧
      (is.foldl (answerPending env) d).received = d.received := by
  induction is generalizing d with
  | nil => exact ⟨rfl, rfl, rfl⟩
  | cons i is ih =>
      obtain ⟨hclis, hbuffer, hreceived⟩ := ih (answerPending env d i)
      obtain ⟨hb, hr⟩ := answerPending_buffer env d i
      exact ⟨hclis.trans (answerPending_records env d i), hbuffer.trans hb, hreceived.trans hr⟩

/-- A line becomes the last event of every client. -/
theorem handleLine_frame (line : List Char) (d : Lircrcd) :
    (handleLine env line d).clis.map ClientData.record =
        (d.clis.map ClientData.record).map (fun c => (c.1, c.2.1, c.2.2 ++ [line])) ∧
      (handleLine env line d).buffer = d.buffer ∧
      (handleLine env line d).received = d.received := by
  have henqueue : (d.clis.map (ClientData.enqueue line)).map ClientData.record =
      (d.clis.map ClientData.record).map (fun c => (c.1, c.2.1, c.2.2 ++ [line])) := by
    rw [List.map_map, List.map_map]
    rfl
  unfold handleLine
  simp only []
  obtain ⟨hclis, hbuffer, hreceived⟩ := foldl_fanOut_frame
    (allStrings none (line ++ ['\n']) d.config).1
    { d with
      clis := d.clis.map (ClientData.enqueue line)
      config := (allStrings none (line ++ ['\n']) d.config).2 }
  rw [← henqueue]
  split
  · obtain ⟨hc, hb, hr⟩ := foldl_answerPending_frame env
      (List.range (List.foldl fanOut _ (allStrings none (line ++ ['\n']) d.config).1).clis.length)
      (List.foldl fanOut _ (allStrings none (line ++ ['\n']) d.config).1)
    exact ⟨hc.trans hclis, hb.trans hbuffer, hr.trans hreceived⟩
  · exact ⟨hclis, hbuffer, hreceived⟩

/-- The line that a read completes is put into the queues, and what follows it
into the buffer. -/
theorem InQueues.handleLine {d : Lircrcd} (h : InQueues d) {line rest bytes : List Char}
    (hline : '\n' ∉ line) (hrest : '\n' ∉ rest) (hnul : nul ∉ rest)
    (hread : d.buffer ++ bytes = line ++ '\n' :: rest) {d' : Lircrcd}
    (hclis : d'.clis = d.clis) (hbuffer : d'.buffer = rest)
    (hreceived : d'.received = d.received ++ bytes) : InQueues (Lirc.handleLine env line d') := by
  obtain ⟨hc, hb, hr⟩ := handleLine_frame env line d'
  obtain ⟨ls, hls, hlines⟩ := h.lines
  have hall : ∀ l ∈ ls ++ [line], '\n' ∉ l := by
    intro l hl
    obtain hl | hl := List.mem_append.mp hl
    · exact hls l hl
    · rw [List.mem_singleton.mp hl]
      exact hline
  have hstream : d.received ++ bytes = stream '\n' (ls ++ [line]) ++ rest := by
    rw [hlines, List.append_assoc, hread]
    simp [stream]
  have hcomplete : complete '\n' d.received = ls := by
    rw [hlines, complete_stream hls, complete_of_not_mem h.buffer, List.append_nil]
  have hcomplete' : complete '\n' (d.received ++ bytes) = ls ++ [line] := by
    rw [hstream, complete_stream hall, complete_of_not_mem hrest, List.append_nil]
  refine ⟨?_, ?_, ⟨ls ++ [line], hall, ?_⟩, ?_⟩
  · rw [hb, hbuffer]
    exact hrest
  · rw [hb, hbuffer]
    exact hnul
  · rw [hr, hb, hreceived, hbuffer, hstream]
  · intro c hmem
    rw [hc, hclis, List.mem_map] at hmem
    obtain ⟨c, hmem, rfl⟩ := hmem
    obtain ⟨henqueued, hborn⟩ := h.clients c hmem
    rw [hcomplete] at henqueued hborn
    rw [hr, hreceived, hcomplete', List.length_append]
    refine ⟨?_, Nat.le_add_right_of_le hborn⟩
    show c.2.2 ++ [line] = (ls ++ [line]).drop c.2.1
    rw [henqueued, List.drop_append_of_le_length hborn]

/-- A read with at most one newline completes no line or exactly one. -/
theorem InQueues.input {d : Lircrcd} (h : InQueues d) {read : LircdRead}
    (hread : BringsOneLine (.input read))
    (hphase : (handleInput env read d).phase = .looping) :
    InQueues (handleInput env read d) := by
  have hnone : '\n' ∉ cstr d.buffer := by
    rw [cstr_eq_self h.noNul]
    exact h.buffer
  unfold handleInput lircNextcode at hphase ⊢
  rw [if_neg hnone] at hphase ⊢
  cases read with
  | failed => cases hphase
  | again => cases hphase
  | bytes bytes =>
      obtain ⟨hcount, hnul⟩ := hread
      have hnul' : nul ∉ d.buffer ++ bytes := by
        rw [List.mem_append]
        exact not_or.mpr ⟨h.noNul, hnul⟩
      simp only [] at hphase ⊢
      by_cases himpossible : bytes = [] ∨ d.grow.bufferSize < d.buffer.length + bytes.length
      · rw [if_pos himpossible]
        exact h
      · rw [if_neg himpossible, takeLine, cstr_eq_self hnul'] at hphase ⊢
        cases hsplit : splitLine '\n' (d.buffer ++ bytes) with
        | none =>
            rw [hsplit] at hphase
            cases hphase
        | some x =>
            obtain ⟨line, rest⟩ := x
            obtain ⟨heq, hline⟩ := splitLine_eq_some hsplit
            have hrest : '\n' ∉ rest := by
              have htotal := congrArg (List.count '\n') heq
              rw [List.count_append, List.count_append, List.count_cons_self,
                List.count_eq_zero.mpr h.buffer, List.count_eq_zero.mpr hline] at htotal
              apply List.count_eq_zero.mp
              omega
            have hnul'' : nul ∉ rest := by
              rw [heq] at hnul'
              intro hmem
              exact hnul' (List.mem_append_right _ (List.mem_cons_of_mem _ hmem))
            exact h.handleLine env hline hrest hnul'' heq rfl rfl rfl

/-- What a step keeps while the loop runs. -/
theorem InQueues.step {d : Lircrcd} (h : d.phase = .looping → InQueues d) {e : RcEvent}
    (he : BringsOneLine e) (hphase : (rcStep env d e).phase = .looping) :
    InQueues (rcStep env d e) := by
  unfold rcStep at hphase ⊢
  cases hd : d.phase with
  | misused m =>
      simp only [hd] at hphase
      cases hphase
  | returned =>
      simp only [hd] at hphase
      cases hphase
  | looping =>
      simp only [hd] at hphase ⊢
      cases e with
      | command fd reads => exact (h hd).command env fd reads
      | connect fd => exact (h hd).addClient fd
      | input read => exact (h hd).input env he hphase

/-- As long as no read from lircd brings the ends of two lines, every complete
line is in the queue of every client that was there when it came, once and in
order, and none is left in the buffer. -/
theorem rcStep_keepsUp (config : RcConfig) (es : List RcEvent) (hes : ∀ e ∈ es, BringsOneLine e) :
    Always (rcStep env) (fun d => d.phase = .looping → KeepsUp d) (Lircrcd.init config) es := by
  have hstep : ∀ d e, (d.phase = .looping → InQueues d) → BringsOneLine e →
      (rcStep env d e).phase = .looping → InQueues (rcStep env d e) :=
    fun d e hd he hphase => InQueues.step env hd he hphase
  have halong : ∀ d, Along (rcStep env) (fun _ e => BringsOneLine e) d es := by
    intro d
    induction es generalizing d with
    | nil => trivial
    | cons e es ih =>
        exact ⟨hes e List.mem_cons_self,
          ih (fun e' he' => hes e' (List.mem_cons_of_mem _ he')) _⟩
  have halways := (halong (Lircrcd.init config)).always hstep fun _ => inQueues_init config
  intro fs hfs hphase
  exact (halways fs hfs hphase).keepsUp

end Steps

/-- Two lines in two reads, the second of them in two pieces with the first. -/
theorem rcStep_keepsUp_pieces :
    (∀ e ∈ [RcEvent.connect 5, .input (.bytes "a\nb".toList), .input (.bytes "\n".toList)],
        BringsOneLine e) ∧
      Always (rcStep quietRcEnv) (fun d => d.phase = .looping → KeepsUp d)
        (Lircrcd.init okConfig)
        [.connect 5, .input (.bytes "a\nb".toList), .input (.bytes "\n".toList)] := by
  have hreads : ∀ e ∈ [RcEvent.connect 5, .input (.bytes "a\nb".toList),
      .input (.bytes "\n".toList)], BringsOneLine e := by
    simp only [List.forall_mem_cons, BringsOneLine, List.not_mem_nil, false_implies, implies_true]
    decide +kernel
  exact ⟨hreads, rcStep_keepsUp quietRcEnv okConfig _ hreads⟩

/-- The three lines of a SIGHUP packet in one read: the second stays in the
buffer, while the client already waits for it. -/
theorem rcStep_lags :
    ¬∀ (env : RcEnv) (config : RcConfig) (es : List RcEvent),
      Always (rcStep env) (fun d => d.phase = .looping → KeepsUp d) (Lircrcd.init config) es := by
  intro h
  have hd := h quietRcEnv okConfig
    [.connect 5, .input (.bytes "BEGIN\nSIGHUP\nEND\n".toList),
      .command 5 [some "CODE BEGIN\nCODE SIGHUP\n".toList]]
    _ List.prefix_rfl (by decide +kernel)
  have hclient := hd.pending
  revert hclient
  decide +kernel

end Lirc
