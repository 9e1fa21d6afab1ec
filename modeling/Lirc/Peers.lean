import Lirc.Clients

/-!
What a peer sends, as the local clients get it. `get_peer_message` keeps nothing
between two calls: it wants each read to end with a newline, drops the peer otherwise,
and uses the result of a read that fails as an index.
-/

namespace Lirc

open CString Lines Transition

/-- The clients with the connection to a peer. For each descriptor `relayed` has what
was relayed to its connection, and `joined` how much of the complete lines had come
when it was accepted. -/
structure PeerRun where
  table : ClientTable
  connected : Bool := true
  received : List Char := []
  relayed : ℕ → List Char := fun _ => []
  joined : ℕ → ℕ := fun _ => 0

inductive PeerEvent
  | client (e : TableEvent)
  /-- The peer's descriptor is ready to be read: what the read returns, at most
  `packetSize` bytes. -/
  | peer (read : Option (List Char))
  deriving DecidableEq, Repr

/-- The complete lines of what has come. -/
def completeText (bytes : List Char) : List Char := stream '\n' (complete '\n' bytes)

def peerStep (env : Env) : Option PeerRun → PeerEvent → Option PeerRun
  | none, _ => none
  | some s, .client e =>
      let accepted : ℕ → Bool := fun fd =>
        match e with
        | .accept fd' _ => fd == fd' && !decide (Connected s.table.daemon fd)
        | .remove _ => false
      some { s with
        table := tableStep env s.table e
        relayed := fun fd => if accepted fd then [] else s.relayed fd
        joined := fun fd => if accepted fd then (completeText s.received).length else s.joined fd }
  | some s, .peer read =>
      if !s.connected then some s
      else
        (getPeerMessage env read s.table.daemon).map fun out =>
          { s with
            table := { s.table with daemon := out.2 }
            connected := out.1
            received := s.received ++ read.getD []
            relayed := fun fd => s.relayed fd ++
              (writesTo fd (out.2.trace.drop s.table.daemon.trace.length)).flatten }

/-- The peer is not dropped; a local client has got the complete lines that have come
since it was accepted, and a remote one nothing. -/
def ServesPeer (s : PeerRun) : Prop :=
  s.connected = true ∧ ∀ i < s.table.daemon.clin,
    s.relayed (s.table.daemon.clis i) =
      if s.table.tcp (s.table.daemon.clis i) then []
      else (completeText s.received).drop (s.joined (s.table.daemon.clis i))

/-- A read does not fail and ends with a newline. Whenever a client is removed, also
one that cannot be written to, the clients behind it have its type. -/
def KeepsPeer (env : Env) : Option PeerRun → PeerEvent → Prop
  | none, _ => True
  | some s, .client e => KeepsTypes s.table e
  | some _, .peer none => False
  | some s, .peer (some bytes) =>
      nul ∉ bytes ∧ bytes.getLast? = some '\n' ∧
        KeepsRelaying env bytes s.table.daemon.clin 0 s.table.daemon

instance (env : Env) : (s : Option PeerRun) → DecidablePred (KeepsPeer env s)
  | none, _ => .isTrue trivial
  | some s, .client e => inferInstanceAs (Decidable (KeepsTypes s.table e))
  | some _, .peer none => .isFalse not_false
  | some s, .peer (some bytes) =>
      inferInstanceAs (Decidable (nul ∉ bytes ∧ bytes.getLast? = some '\n' ∧
        KeepsRelaying env bytes s.table.daemon.clin 0 s.table.daemon))

/-! ### Complete lines -/

theorem complete_stream_all {ls : List (List Char)} (h : ∀ l ∈ ls, '\n' ∉ l) :
    complete '\n' (stream '\n' ls) = ls := by
  have hall := complete_stream h []
  rw [List.append_nil, complete_of_not_mem List.not_mem_nil, List.append_nil] at hall
  exact hall

/-- Bytes that end with a newline are lines. -/
theorem lines_of_getLast {bytes : List Char} (h : bytes = [] ∨ bytes.getLast? = some '\n') :
    ∃ ls : List (List Char), (∀ l ∈ ls, '\n' ∉ l) ∧ bytes = stream '\n' ls := by
  induction hlength : bytes.length using Nat.strong_induction_on generalizing bytes with
  | _ n ih =>
      obtain rfl | hlast := h
      · exact ⟨[], by simp, rfl⟩
      · have hmem : '\n' ∈ bytes := List.mem_of_getLast? hlast
        obtain ⟨line, rest, hsplit⟩ := splitLine_of_mem hmem
        obtain ⟨rfl, hline⟩ := splitLine_eq_some hsplit
        have hrest : rest = [] ∨ rest.getLast? = some '\n' := by
          cases rest with
          | nil => exact .inl rfl
          | cons c cs =>
              right
              rw [← hlast, List.getLast?_append, List.getLast?_cons_cons]
              rfl
        obtain ⟨ls, hls, rfl⟩ := ih rest.length
          (by rw [← hlength, List.length_append, List.length_cons]; omega) hrest rfl
        refine ⟨line :: ls, ?_, (stream_cons line ls).symm⟩
        intro l hl
        obtain rfl | hl := List.mem_cons.mp hl
        · exact hline
        · exact hls l hl

theorem completeText_of_getLast {bytes : List Char} (h : bytes = [] ∨ bytes.getLast? = some '\n') :
    completeText bytes = bytes := by
  obtain ⟨ls, hls, rfl⟩ := lines_of_getLast h
  rw [completeText, complete_stream_all hls]

/-! ### What a step keeps -/

/-- The clients and what they have got; the bytes that have come are complete lines. -/
structure PeerInv (s : PeerRun) : Prop where
  distinct : Distinct s.table.daemon
  types : TypesAgree s.table
  connected : s.connected = true
  lines : s.received = [] ∨ s.received.getLast? = some '\n'
  joined : ∀ fd, s.joined fd ≤ s.received.length
  relayed : ∀ i < s.table.daemon.clin, s.relayed (s.table.daemon.clis i) =
    if s.table.tcp (s.table.daemon.clis i) then []
    else s.received.drop (s.joined (s.table.daemon.clis i))

theorem PeerInv.serves {s : PeerRun} (h : PeerInv s) : ServesPeer s := by
  refine ⟨h.connected, fun i hi => ?_⟩
  rw [h.relayed i hi, completeText_of_getLast h.lines]

section Steps

variable (env : Env) {s : PeerRun}

theorem writeSocket_trace (fd : ℕ) (message : List Char) (d : Daemon) :
    d.trace <+: (writeSocket env fd message d).2.trace := by
  rw [writeSocket]
  split
  · exact List.prefix_append _ _
  · exact List.prefix_append _ _

theorem removeClient_trace (fd : ℕ) (d : Daemon) :
    d.trace <+: (removeClient env fd d).trace := by
  rw [removeClient]
  split
  · exact List.prefix_rfl
  · show d.trace <+: (deinitUnused env _).trace
    rw [deinitUnused]
    split
    · exact List.prefix_append _ _
    · exact (List.prefix_append _ _).trans (List.prefix_append _ _)

theorem relayLoop_trace (message : List Char) (n i : ℕ) (d : Daemon) :
    d.trace <+: (relayLoop env message n i d).trace := by
  induction n generalizing i d with
  | zero => exact List.prefix_rfl
  | succ n ih =>
      rw [relayLoop]
      split
      · split
        · exact ih _ _
        · have hwrite := writeSocket_trace env (d.clis i) message d
          generalize writeSocket env (d.clis i) message d = out at hwrite ⊢
          obtain ⟨ok, d'⟩ := out
          show d.trace <+: Daemon.trace (if ok = true then relayLoop env message n (i + 1) d'
            else relayLoop env message n i (removeClient env (d'.clis i) d'))
          split
          · exact hwrite.trans (ih _ _)
          · exact hwrite.trans ((removeClient_trace env _ _).trans (ih _ _))
      · exact List.prefix_rfl

/-- A removal leaves entries of before. -/
theorem removeClient_connected (fd : ℕ) (d : Daemon) {fd' : ℕ}
    (h : Connected (removeClient env fd d) fd') : Connected d fd' := by
  by_cases hfd : ∃ i, ((List.range d.clin).find? fun j => d.clis j == fd) = some i
  · obtain ⟨i, hi⟩ := hfd
    obtain ⟨j, hj, rfl⟩ := h
    rw [removeClient, hi] at hj ⊢
    obtain ⟨hclin, hclis, -⟩ := deinitUnused_table env
      { d.log (.closed fd) with clin := d.clin - 1 }
    have hj : j < d.clin - 1 := by rw [← show _ = d.clin - 1 from hclin]; exact hj
    show Connected d (if i ≤ j ∧ j < d.clin - 1 then (deinitUnused env _).clis (j + 1)
      else (deinitUnused env _).clis j)
    rw [hclis]
    split
    · exact ⟨j + 1, by omega, rfl⟩
    · exact ⟨j, by omega, rfl⟩
  · rw [removeClient, Option.eq_none_iff_forall_ne_some.mpr fun i hi => hfd ⟨i, hi⟩] at h
    exact h

theorem relayLoop_connected (message : List Char) {n i : ℕ} {d : Daemon} {fd : ℕ}
    (h : Connected (relayLoop env message n i d) fd) : Connected d fd := by
  induction n generalizing i d with
  | zero => exact h
  | succ n ih =>
      rw [relayLoop] at h
      split at h
      · split at h
        · exact ih h
        · obtain ⟨hclin, hclis, -⟩ :=
            writeSocket_table env message (d.clis i) d
          have hwrite : ∀ fd', Connected (writeSocket env (d.clis i) message d).2 fd' →
              Connected d fd' := by
            rintro fd' ⟨j, hj, rfl⟩
            exact ⟨j, hclin ▸ hj, by rw [hclis]⟩
          generalize writeSocket env (d.clis i) message d = out at h hwrite
          obtain ⟨ok, d'⟩ := out
          cases ok with
          | true => exact hwrite fd (ih h)
          | false => exact hwrite fd (removeClient_connected env _ _ (ih h))
      · exact h

theorem peerStep_remove (fd : ℕ) :
    peerStep env (some s) (.client (.remove fd)) =
      some { s with table := { s.table with daemon := removeClient env fd s.table.daemon } } := by
  simp [peerStep, tableStep]

theorem peerStep_accept_connected {fd : ℕ} (tcp : Bool) (h : Connected s.table.daemon fd) :
    peerStep env (some s) (.client (.accept fd tcp)) = some s := by
  have hnone : ∀ fd', (fd' == fd && !decide (Connected s.table.daemon fd')) = false := by
    intro fd'
    by_cases heq : fd' = fd
    · subst heq
      simp [h]
    · simp [heq]
  simp only [peerStep, tableStep, if_pos h, hnone]
  rfl

theorem peerStep_accept_new {fd : ℕ} (tcp : Bool) (h : ¬Connected s.table.daemon fd) :
    peerStep env (some s) (.client (.accept fd tcp)) =
      some { s with
        table :=
          { daemon := addClient env fd (clientType tcp) s.table.daemon
            tcp := Function.update s.table.tcp fd tcp }
        relayed := Function.update s.relayed fd []
        joined := Function.update s.joined fd (completeText s.received).length } := by
  have hnew : ∀ fd', (fd' == fd && !decide (Connected s.table.daemon fd')) = decide (fd' = fd) := by
    intro fd'
    by_cases heq : fd' = fd
    · subst heq
      simp [h]
    · simp [heq]
  simp only [peerStep, tableStep, if_neg h, hnew, decide_eq_true_eq]
  congr 2
  · funext fd'
    exact (Function.update_apply _ _ _ _).symm
  · funext fd'
    exact (Function.update_apply _ _ _ _).symm

/-- A client is accepted with nothing relayed to it yet, or rejected. -/
theorem PeerInv.accepted (h : PeerInv s) {fd : ℕ} (tcp : Bool)
    (hnew : ¬Connected s.table.daemon fd) :
    PeerInv { s with
      table :=
        { daemon := addClient env fd (clientType tcp) s.table.daemon
          tcp := Function.update s.table.tcp fd tcp }
      relayed := Function.update s.relayed fd []
      joined := Function.update s.joined fd (completeText s.received).length } := by
  have hother : ∀ i < s.table.daemon.clin, s.table.daemon.clis i ≠ fd :=
    fun i hi heq => hnew ⟨i, hi, heq⟩
  have hold : ∀ i < s.table.daemon.clin, ∀ fd', s.table.daemon.clis i = fd' →
      Function.update s.relayed fd [] fd' =
        if Function.update s.table.tcp fd tcp fd' then []
        else s.received.drop
          (Function.update s.joined fd (completeText s.received).length fd') := by
    rintro i hi fd' rfl
    rw [Function.update_of_ne (hother i hi), Function.update_of_ne (hother i hi),
      Function.update_of_ne (hother i hi)]
    exact h.relayed i hi
  obtain ⟨hdistinct, htypes⟩ := accept_table env hnew tcp
  refine ⟨hdistinct h.distinct, htypes h.types, h.connected, h.lines, fun fd' => ?_, fun i hi => ?_⟩
  · show Function.update s.joined fd (completeText s.received).length fd' ≤ s.received.length
    rw [Function.update_apply, completeText_of_getLast h.lines]
    split
    · exact le_rfl
    · exact h.joined fd'
  · simp only at hi ⊢
    obtain ⟨hclin, hclis, -⟩ | ⟨hclin, hclis, -⟩ :=
      addClient_table env fd (clientType tcp) s.table.daemon
    · exact hold i (by omega) _ (by rw [hclis])
    · by_cases hlast : i = s.table.daemon.clin
      · subst hlast
        rw [hclis, Function.update_self, Function.update_self, Function.update_self,
          Function.update_self, completeText_of_getLast h.lines, List.drop_length, ite_self]
      · exact hold i (by omega) _ (by rw [hclis, Function.update_of_ne hlast])

theorem PeerInv.removed (h : PeerInv s) {fd : ℕ} (hkeeps : KeepsTypes s.table (.remove fd)) :
    PeerInv { s with table := { s.table with daemon := removeClient env fd s.table.daemon } } := by
  by_cases hfd : Connected s.table.daemon fd
  · obtain ⟨i, hi, rfl⟩ := hfd
    have hremoved := removeClient_at env h.distinct hi
    refine ⟨hremoved.distinct h.distinct,
      (hremoved.typesAgree_iff h.types).mpr (hkeeps i hi rfl),
      h.connected, h.lines, h.joined, fun j hj => ?_⟩
    simp only [hremoved.clin] at hj
    simp only [hremoved.clis]
    split
    · exact h.relayed (j + 1) (by omega)
    · exact h.relayed j (by omega)
  · rw [removeClient_absent env hfd]
    exact h

/-- A read that ends with a newline is relayed as a whole. -/
theorem PeerInv.read (h : PeerInv s) {bytes : List Char} (hnul : nul ∉ bytes)
    (hlast : bytes.getLast? = some '\n')
    (hkeeps : KeepsRelaying env bytes s.table.daemon.clin 0 s.table.daemon) :
    ∃ s', peerStep env (some s) (.peer (some bytes)) = some s' ∧ PeerInv s' := by
  have hget : getPeerMessage env (some bytes) s.table.daemon =
      some (true, relayLoop env bytes s.table.daemon.clin 0 s.table.daemon) := by
    cases bytes with
    | nil => cases hlast
    | cons c cs =>
        have hcstr : cstr (c :: cs) = c :: cs := cstr_eq_self hnul
        show (if (cstr (c :: cs)).getLast? = some '\n' then _ else _) = _
        rw [hcstr, if_pos hlast]
  have hstart : Relaying s.table.tcp (fun fd => writesTo fd s.table.daemon.trace) bytes 0
      s.table.daemon :=
    ⟨h.distinct, h.types, fun _ _ hlt => absurd hlt (Nat.not_lt_zero _), fun _ _ _ => rfl⟩
  obtain ⟨k, hk, hdone⟩ := relayLoop_relaying (Nat.le_of_eq (Nat.sub_zero _)) hstart hkeeps
  obtain ⟨new, hnew⟩ := relayLoop_trace env bytes s.table.daemon.clin 0 s.table.daemon
  have hentry : ∀ {fd}, Connected (relayLoop env bytes s.table.daemon.clin 0 s.table.daemon) fd →
      Connected s.table.daemon fd := relayLoop_connected env bytes
  refine ⟨_, by rw [peerStep, h.connected, hget]; rfl, ?_⟩
  generalize relayLoop env bytes s.table.daemon.clin 0 s.table.daemon = d' at hk hdone hnew hentry
  refine ⟨hdone.distinct, hdone.types, rfl, .inr ?_, fun fd => ?_, fun i hi => ?_⟩
  · show (s.received ++ bytes).getLast? = some '\n'
    rw [List.getLast?_append, hlast]
    rfl
  · show s.joined fd ≤ (s.received ++ bytes).length
    rw [List.length_append]
    exact (h.joined fd).trans (Nat.le_add_right _ _)
  · simp only at hi ⊢
    obtain ⟨j, hj, hij⟩ := hentry ⟨i, hi, rfl⟩
    have hold := h.relayed j hj
    have hwrites := hdone.done i hi (by omega)
    rw [hij] at hold
    rw [← hnew, writesTo_append] at hwrites
    have hwritten := List.append_cancel_left hwrites
    rw [← hnew, List.drop_left, hwritten, hold]
    cases s.table.tcp (d'.clis i) with
    | true => rfl
    | false =>
        show s.received.drop _ ++ [bytes].flatten = (s.received ++ bytes).drop _
        rw [List.drop_append_of_le_length (h.joined _), List.flatten_singleton]

theorem PeerInv.step (h : PeerInv s) {e : PeerEvent} (hkeeps : KeepsPeer env (some s) e) :
    ∃ s', peerStep env (some s) e = some s' ∧ PeerInv s' := by
  match e, hkeeps with
  | .client (.accept fd tcp), _ =>
      by_cases hfd : Connected s.table.daemon fd
      · exact ⟨s, peerStep_accept_connected env tcp hfd, h⟩
      · exact ⟨_, peerStep_accept_new env tcp hfd, h.accepted env tcp hfd⟩
  | .client (.remove fd), hkeeps => exact ⟨_, peerStep_remove env fd, h.removed env hkeeps⟩
  | .peer (some bytes), ⟨hnul, hlast, hrelay⟩ => exact h.read env hnul hlast hrelay

end Steps

/-- The loop goes on and the peer is served. -/
def PeerServed (s : Option PeerRun) : Prop := ∃ run, s = some run ∧ ServesPeer run

/-- When every read of the peer succeeds and ends with a newline, and no removed client
stands in front of one of the other type, the peer is never dropped, and in every state
each local client has got the complete lines since it was accepted. -/
theorem peer_served (env : Env) (table : ClientTable) (hstart : table.daemon.clin = 0)
    (events : List PeerEvent) (h : Along (peerStep env) (KeepsPeer env) (some { table }) events) :
    Always (peerStep env) PeerServed (some { table }) events := by
  have hnone : ∀ i, ¬i < table.daemon.clin := fun i => by rw [hstart]; exact Nat.not_lt_zero i
  have hinv : PeerInv { table } :=
    ⟨fun i hi => absurd hi (hnone i), fun i hi => absurd hi (hnone i), rfl, .inl rfl,
      fun _ => le_rfl, fun i hi => absurd hi (hnone i)⟩
  intro before hbefore
  have hlast : ∃ s, run (peerStep env) (some { table }) before = some s ∧ PeerInv s := by
    refine (h.of_prefix hbefore).invariant (I := fun o => ∃ s, o = some s ∧ PeerInv s)
      ?_ ⟨_, rfl, hinv⟩
    rintro o e ⟨s, rfl, hs⟩ hkeeps
    exact hs.step env hkeeps
  obtain ⟨s, hs, hs'⟩ := hlast
  exact ⟨s, hs, hs'.serves⟩

/-- A local client and a remote one, which goes, and three lines in two reads. -/
theorem peer_served_run :
    Always (peerStep quietEnv) PeerServed (some { table := emptyTable })
      [.client (.accept 5 false), .peer (some "0 0 A tv\n0 1 A tv\n".toList),
        .client (.accept 6 true), .client (.remove 6), .peer (some "0 0 B tv\n".toList)] :=
  peer_served quietEnv emptyTable rfl _ (by decide +kernel)

/-- A line cut in two reads: the peer is dropped. -/
theorem peer_served_fails :
    ¬ ∀ (lines reads : List (List Char)),
      (∀ l ∈ lines, '\n' ∉ l ∧ nul ∉ l ∧ l.length < packetSize) →
      reads.flatten = stream '\n' lines →
      Always (peerStep quietEnv) PeerServed (some { table := emptyTable })
        (.client (.accept 5 false) :: reads.map fun bytes => .peer (some bytes)) := by
  intro h
  obtain ⟨s, hs, hserves⟩ := h ["0 0 A tv".toList] ["0 0 A".toList, " tv\n".toList]
    (by decide) (by decide) _ (List.prefix_refl _)
  have hdropped : (run (peerStep quietEnv) (some { table := emptyTable })
      [.client (.accept 5 false), .peer (some "0 0 A".toList),
        .peer (some " tv\n".toList)]).map PeerRun.connected = some false := by decide +kernel
  have hopen := congrArg (Option.map PeerRun.connected) hs
  rw [show Option.map PeerRun.connected (some s) = some s.connected from rfl, hserves.1] at hopen
  exact absurd (hdropped.symm.trans hopen) (by decide)

end Lirc
