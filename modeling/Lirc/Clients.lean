import Lirc.MainLoop
import Lirc.Library.Run

/-!
The table of clients: `clis` with the descriptors and `cli_type` with the types of the
connections. `remove_client` moves the descriptors behind the one it removes, and not
their types. A message of a peer goes to the clients whose entry in `cli_type` is not
that of a remote client.
-/

namespace Lirc

open CString Transition

/-- The type that `add_client` notes for a connection. -/
def clientType (tcp : Bool) : ClientType := if tcp then .remoteClient else .localClient

/-- The daemon, and for each descriptor whether its connection came over TCP. -/
structure ClientTable where
  daemon : Daemon
  tcp : ℕ → Bool

/-- The descriptor is that of a client. -/
def Connected (d : Daemon) (fd : ℕ) : Prop := ∃ i < d.clin, d.clis i = fd

instance (d : Daemon) (fd : ℕ) : Decidable (Connected d fd) :=
  decidable_of_iff (∃ i ∈ List.range d.clin, d.clis i = fd) (by simp [Connected])

inductive TableEvent
  /-- `accept` returns a descriptor. -/
  | accept (fd : ℕ) (tcp : Bool)
  /-- A call of `remove_client`. -/
  | remove (fd : ℕ)
  deriving DecidableEq, Repr

/-- `accept` returns no descriptor that is open. -/
def tableStep (env : Env) (s : ClientTable) : TableEvent → ClientTable
  | .accept fd tcp =>
      if Connected s.daemon fd then s
      else
        { daemon := addClient env fd (clientType tcp) s.daemon
          tcp := Function.update s.tcp fd tcp }
  | .remove fd => { s with daemon := removeClient env fd s.daemon }

/-! ### A message of a peer -/

section Relay

variable (env : Env)

/-- The loop of `get_peer_message` over the clients. -/
def relayLoop (message : List Char) : ℕ → ℕ → Daemon → Daemon
  | 0, _, d => d
  | n + 1, i, d =>
      if i < d.clin then
        -- messages are not relayed to remote clients
        if d.cliType i = .remoteClient then relayLoop message n (i + 1) d
        else
          let (ok, d) := writeSocket env (d.clis i) message d
          if ok then relayLoop message n (i + 1) d
          else relayLoop message n i (removeClient env (d.clis i) d)
      else d

/-- `get_peer_message`, with what `read_timeout` returns; `none` is -1 for it. Its
result is used as an index: `none` is a write in front of the buffer. -/
def getPeerMessage (read : Option (List Char)) (d : Daemon) : Option (Bool × Daemon) :=
  match read with
  | none => none
  | some [] => some (false, d)
  | some bytes =>
      if (cstr bytes).getLast? = some '\n' then some (true, relayLoop env (cstr bytes) d.clin 0 d)
      else some (false, d)

end Relay

/-- The messages in a trace that were written to a descriptor. -/
def writesTo (fd : ℕ) (trace : List Event) : List (List Char) :=
  trace.filterMap fun
    | .wrote fd' bytes => if fd' = fd then some bytes else none
    | _ => none

@[simp] theorem writesTo_nil (fd : ℕ) : writesTo fd [] = [] := rfl

theorem writesTo_append (fd : ℕ) (trace trace' : List Event) :
    writesTo fd (trace ++ trace') = writesTo fd trace ++ writesTo fd trace' :=
  List.filterMap_append

/-! ### Agreement -/

/-- The entries of `cli_type` are the types of the connections. -/
def TypesAgree (s : ClientTable) : Prop :=
  ∀ i < s.daemon.clin, s.daemon.cliType i = clientType (s.tcp (s.daemon.clis i))

/-- No two entries are the same descriptor. -/
def Distinct (d : Daemon) : Prop :=
  ∀ i < d.clin, ∀ j < d.clin, d.clis i = d.clis j → i = j

/-- From the entry of the client that is removed on all entries have one type. -/
def KeepsTypes (s : ClientTable) : TableEvent → Prop
  | .accept _ _ => True
  | .remove fd => ∀ i < s.daemon.clin, s.daemon.clis i = fd →
      ∀ j, i ≤ j → j + 1 < s.daemon.clin → s.daemon.cliType (j + 1) = s.daemon.cliType j

instance (s : ClientTable) : DecidablePred (KeepsTypes s)
  | .accept _ _ => .isTrue trivial
  | .remove fd =>
      decidable_of_iff
        (∀ i ∈ List.range s.daemon.clin, s.daemon.clis i = fd →
          ∀ j ∈ List.range s.daemon.clin, i ≤ j → j + 1 < s.daemon.clin →
            s.daemon.cliType (j + 1) = s.daemon.cliType j) <| by
        simp only [List.mem_range, KeepsTypes]
        constructor
        · intro h i hi hfd j hij hj
          exact h i hi hfd j (by omega) hij hj
        · intro h i hi hfd j _ hij hj
          exact h i hi hfd j hij hj

/-- The same clients. -/
structure SameTable (d d' : Daemon) : Prop where
  clin : d'.clin = d.clin
  clis : d'.clis = d.clis

namespace SameTable

variable {d d' d'' : Daemon}

theorem refl (d : Daemon) : SameTable d d := ⟨rfl, rfl⟩

theorem trans (h : SameTable d d') (h' : SameTable d' d'') : SameTable d d'' :=
  ⟨h'.clin.trans h.clin, h'.clis.trans h.clis⟩

theorem connected (h : SameTable d d') (fd : ℕ) : Connected d' fd ↔ Connected d fd := by
  rw [Connected, Connected, h.clin, h.clis]

theorem distinct (h : SameTable d d') (hd : Distinct d) : Distinct d' := by
  rw [Distinct, h.clin, h.clis]
  exact hd

end SameTable

section Remove

variable (env : Env) {d : Daemon}

/-- The table without an entry. -/
structure RemovedAt (i : ℕ) (d d' : Daemon) : Prop where
  clin : d'.clin = d.clin - 1
  clis : ∀ j, d'.clis j = if i ≤ j ∧ j < d.clin - 1 then d.clis (j + 1) else d.clis j
  cliType : d'.cliType = d.cliType
  writes : ∀ fd, writesTo fd d'.trace = writesTo fd d.trace

theorem deinitUnused_table (d : Daemon) :
    (deinitUnused env d).clin = d.clin ∧ (deinitUnused env d).clis = d.clis ∧
      (deinitUnused env d).cliType = d.cliType ∧
      ∀ fd, writesTo fd (deinitUnused env d).trace = writesTo fd d.trace := by
  rw [deinitUnused]
  split
  · exact ⟨rfl, rfl, rfl, fun _ => rfl⟩
  · refine ⟨rfl, rfl, rfl, fun fd => ?_⟩
    show writesTo fd (d.trace ++ [.deinit]) = _
    rw [writesTo_append]
    exact List.append_nil _

theorem removeClient_absent {fd : ℕ} (h : ¬Connected d fd) : removeClient env fd d = d := by
  have hnone : ((List.range d.clin).find? fun i => d.clis i == fd) = none := by
    rw [List.find?_eq_none]
    intro i hi heq
    exact h ⟨i, List.mem_range.mp hi, beq_iff_eq.mp heq⟩
  rw [removeClient, hnone]

theorem removeClient_at (hdistinct : Distinct d) {i : ℕ} (hi : i < d.clin) :
    RemovedAt i d (removeClient env (d.clis i) d) := by
  have hfind : ((List.range d.clin).find? fun j => d.clis j == d.clis i) = some i := by
    cases hfound : (List.range d.clin).find? fun j => d.clis j == d.clis i with
    | none =>
        have hnot := List.find?_eq_none.mp hfound i (List.mem_range.mpr hi)
        exact absurd (beq_self_eq_true _) hnot
    | some j =>
        have hj := List.mem_range.mp (List.mem_of_find?_eq_some hfound)
        have heq := List.find?_some hfound
        rw [hdistinct j hj i hi (beq_iff_eq.mp heq)]
  obtain ⟨hclin, hclis, htype, hwrites⟩ := deinitUnused_table env
    { d.log (.closed (d.clis i)) with clin := d.clin - 1 }
  rw [removeClient, hfind]
  refine ⟨hclin, fun j => ?_, htype, fun fd => ?_⟩
  · show (if i ≤ j ∧ j < d.clin - 1 then (deinitUnused env _).clis (j + 1)
      else (deinitUnused env _).clis j) = _
    rw [hclis]
    rfl
  · refine (hwrites fd).trans ?_
    show writesTo fd (d.trace ++ [.closed (d.clis i)]) = _
    rw [writesTo_append]
    exact List.append_nil _

variable {env} {i : ℕ} {d' : Daemon}

theorem RemovedAt.distinct (h : RemovedAt i d d') (hdistinct : Distinct d) : Distinct d' := by
  intro j hj k hk heq
  rw [h.clin] at hj hk
  rw [h.clis, h.clis] at heq
  split at heq <;> split at heq
  · have hnext := hdistinct (j + 1) (by omega) (k + 1) (by omega) heq
    omega
  · have hnext := hdistinct (j + 1) (by omega) k (by omega) heq
    omega
  · have hnext := hdistinct j (by omega) (k + 1) (by omega) heq
    omega
  · exact hdistinct j (by omega) k (by omega) heq

theorem RemovedAt.gone (h : RemovedAt i d d') (hdistinct : Distinct d) (hi : i < d.clin) {j : ℕ}
    (hj : j < d'.clin) : d'.clis j ≠ d.clis i := by
  rw [h.clin] at hj
  rw [h.clis]
  intro heq
  split at heq
  · have hnext := hdistinct (j + 1) (by omega) i hi heq
    omega
  · have hsame := hdistinct j (by omega) i hi heq
    omega

/-- The other clients stay. -/
theorem RemovedAt.connected (h : RemovedAt i d d') (hi : i < d.clin) {fd : ℕ}
    (hfd : Connected d fd) (hne : fd ≠ d.clis i) : Connected d' fd := by
  obtain ⟨j, hj, rfl⟩ := hfd
  have hij : j ≠ i := fun heq => hne (by rw [heq])
  by_cases hlt : j < i
  · exact ⟨j, by rw [h.clin]; omega, by rw [h.clis, if_neg (by omega)]⟩
  · refine ⟨j - 1, by rw [h.clin]; omega, ?_⟩
    rw [h.clis, if_pos (by omega), Nat.sub_add_cancel (by omega)]

/-- The types agree after an entry has been removed exactly if those behind it are of
one type with it. -/
theorem RemovedAt.typesAgree_iff (h : RemovedAt i d d') {tcp : ℕ → Bool}
    (hagree : TypesAgree ⟨d, tcp⟩) :
    TypesAgree ⟨d', tcp⟩ ↔
      ∀ j, i ≤ j → j + 1 < d.clin → d.cliType (j + 1) = d.cliType j := by
  constructor
  · intro hafter j hj hlast
    have hentry := hafter j (by rw [h.clin]; omega)
    simp only [h.cliType, h.clis, if_pos (show i ≤ j ∧ j < d.clin - 1 by omega)] at hentry
    rw [hentry]
    exact hagree (j + 1) hlast
  · intro hsame j hj
    simp only [h.clin] at hj
    simp only [h.cliType, h.clis]
    split
    · next hbehind =>
        rw [← hsame j hbehind.1 (by omega)]
        exact hagree (j + 1) (by show j + 1 < d.clin; omega)
    · exact hagree j (by show j < d.clin; omega)

end Remove

section Add

variable (env : Env) {d : Daemon}

/-- A client is added behind the others, or is rejected. -/
theorem addClient_table (fd : ℕ) (type : ClientType) (d : Daemon) :
    ((addClient env fd type d).clin = d.clin ∧ (addClient env fd type d).clis = d.clis ∧
        (addClient env fd type d).cliType = d.cliType) ∨
      ((addClient env fd type d).clin = d.clin + 1 ∧
        (addClient env fd type d).clis = Function.update d.clis d.clin fd ∧
        (addClient env fd type d).cliType = Function.update d.cliType d.clin type) := by
  rw [addClient]
  split
  · exact .inl ⟨rfl, rfl, rfl⟩
  · dsimp only
    split
    · exact .inr ⟨rfl, rfl, rfl⟩
    · exact .inr ⟨rfl, rfl, rfl⟩

/-- The clients stay when another one is added. -/
theorem addClient_connected {fd : ℕ} (fd' : ℕ) (type : ClientType) (hfd : Connected d fd) :
    Connected (addClient env fd' type d) fd := by
  obtain ⟨i, hi, hclis⟩ := hfd
  obtain ⟨hclin, htable, -⟩ | ⟨hclin, htable, -⟩ := addClient_table env fd' type d
  · exact ⟨i, by rw [hclin]; exact hi, by rw [htable]; exact hclis⟩
  · refine ⟨i, by rw [hclin]; omega, ?_⟩
    rw [htable, Function.update_of_ne (by omega)]
    exact hclis

theorem addClient_distinct (h : Distinct d) {fd : ℕ} (hnew : ¬Connected d fd)
    (type : ClientType) : Distinct (addClient env fd type d) := by
  obtain ⟨hclin, hclis, -⟩ | ⟨hclin, hclis, -⟩ := addClient_table env fd type d
  · exact SameTable.distinct ⟨hclin, hclis⟩ h
  · intro i hi j hj heq
    rw [hclin] at hi hj
    rw [hclis, Function.update_apply, Function.update_apply] at heq
    split at heq <;> split at heq
    · omega
    · exact absurd ⟨j, by omega, heq.symm⟩ hnew
    · exact absurd ⟨i, by omega, heq⟩ hnew
    · exact h i (by omega) j (by omega) heq

theorem accept_table {s : ClientTable} {fd : ℕ} (hnew : ¬Connected s.daemon fd) (tcp : Bool) :
    (Distinct s.daemon → Distinct (addClient env fd (clientType tcp) s.daemon)) ∧
      (TypesAgree s → TypesAgree
        ⟨addClient env fd (clientType tcp) s.daemon, Function.update s.tcp fd tcp⟩) := by
  refine ⟨fun hdistinct => addClient_distinct env hdistinct hnew _, fun hagree i hi => ?_⟩
  have hother : ∀ i < s.daemon.clin, s.daemon.clis i ≠ fd := fun i hi heq => hnew ⟨i, hi, heq⟩
  obtain ⟨hclin, hclis, htype⟩ | ⟨hclin, hclis, htype⟩ :=
    addClient_table env fd (clientType tcp) s.daemon
  · simp only [hclin] at hi
    simp only [htype, hclis, Function.update_of_ne (hother i hi)]
    exact hagree i hi
  · simp only [hclin] at hi
    simp only [htype, hclis]
    by_cases hlast : i = s.daemon.clin
    · subst hlast
      rw [Function.update_self, Function.update_self, Function.update_self]
    · rw [Function.update_of_ne hlast, Function.update_of_ne hlast,
        Function.update_of_ne (hother i (by omega))]
      exact hagree i (by omega)

end Add

/-! ### The loop over the clients -/

section RelayLoop

variable (env : Env) (message : List Char)

/-- When a write fails, the entries from this client on have one type. -/
def KeepsRelaying : ℕ → ℕ → Daemon → Prop
  | 0, _, _ => True
  | n + 1, i, d =>
      i < d.clin →
        if d.cliType i = .remoteClient then KeepsRelaying n (i + 1) d
        else if (writeSocket env (d.clis i) message d).1 then
          KeepsRelaying n (i + 1) (writeSocket env (d.clis i) message d).2
        else
          (∀ j, i ≤ j → j + 1 < d.clin → d.cliType (j + 1) = d.cliType j) ∧
            KeepsRelaying n i
              (removeClient env ((writeSocket env (d.clis i) message d).2.clis i)
                (writeSocket env (d.clis i) message d).2)

instance decidableKeepsRelaying : (n i : ℕ) → (d : Daemon) → Decidable (KeepsRelaying env message n i d)
  | 0, _, _ => .isTrue trivial
  | n + 1, i, d =>
      have := decidableKeepsRelaying n
      have : Decidable (∀ j, i ≤ j → j + 1 < d.clin → d.cliType (j + 1) = d.cliType j) :=
        decidable_of_iff
          (∀ j ∈ List.range d.clin, i ≤ j → j + 1 < d.clin → d.cliType (j + 1) = d.cliType j)
          ⟨fun h j hij hj => h j (List.mem_range.mpr (by omega)) hij hj,
            fun h j _ hij hj => h j hij hj⟩
      inferInstanceAs (Decidable (i < d.clin → ite (d.cliType i = .remoteClient) _ _))

variable {env message}

variable (env message) in
/-- A write that succeeds, and one that fails. -/
theorem writeSocket_table (fd : ℕ) (d : Daemon) :
    (writeSocket env fd message d).2.clin = d.clin ∧
      (writeSocket env fd message d).2.clis = d.clis ∧
      (writeSocket env fd message d).2.cliType = d.cliType ∧
      ∀ fd', writesTo fd' (writeSocket env fd message d).2.trace =
        writesTo fd' d.trace ++
          if (writeSocket env fd message d).1 ∧ fd = fd' then [message] else [] := by
  rw [writeSocket]
  split
  · refine ⟨rfl, rfl, rfl, fun fd' => ?_⟩
    show writesTo fd' (d.trace ++ [.wrote fd message]) = _
    rw [writesTo_append]
    by_cases heq : fd = fd'
    · simp [writesTo, heq]
    · simp [writesTo, heq]
  · refine ⟨rfl, rfl, rfl, fun fd' => ?_⟩
    show writesTo fd' (d.trace ++ [.broken fd]) = _
    rw [writesTo_append]
    simp [writesTo]

/-- What a client is due from a message. -/
def due (tcp : Bool) (message : List Char) : List (List Char) := if tcp then [] else [message]

/-- The clients in front of the entry `i` have got the message if they are local, and
the others have not yet. -/
structure Relaying (tcp : ℕ → Bool) (before : ℕ → List (List Char)) (message : List Char) (i : ℕ)
    (d : Daemon) : Prop where
  distinct : Distinct d
  types : TypesAgree ⟨d, tcp⟩
  done : ∀ j < d.clin, j < i →
    writesTo (d.clis j) d.trace = before (d.clis j) ++ due (tcp (d.clis j)) message
  todo : ∀ j < d.clin, i ≤ j → writesTo (d.clis j) d.trace = before (d.clis j)

variable {tcp : ℕ → Bool} {before : ℕ → List (List Char)} {i : ℕ} {d : Daemon}

/-- A client that gets nothing, or has just been written to. -/
theorem Relaying.next (h : Relaying tcp before message i d) {d' : Daemon}
    (hclin : d'.clin = d.clin) (hclis : d'.clis = d.clis) (htype : d'.cliType = d.cliType)
    (hi : i < d.clin) (hwrites : ∀ fd, writesTo fd d'.trace =
      writesTo fd d.trace ++ if d.clis i = fd then due (tcp (d.clis i)) message else []) :
    Relaying tcp before message (i + 1) d' := by
  refine ⟨?_, ?_, fun j hj hlt => ?_, fun j hj hle => ?_⟩
  · intro j hj k hk heq
    rw [hclin] at hj hk
    rw [hclis] at heq
    exact h.distinct j hj k hk heq
  · intro j hj
    simp only [hclin] at hj
    simp only [htype, hclis]
    exact h.types j hj
  · rw [hclin] at hj
    rw [hclis, hwrites]
    by_cases heq : j = i
    · subst heq
      rw [if_pos rfl, h.todo j hj le_rfl]
    · have hne : d.clis i ≠ d.clis j := fun hfd => heq (h.distinct i hi j hj hfd).symm
      rw [if_neg hne, List.append_nil]
      exact h.done j hj (by omega)
  · rw [hclin] at hj
    have hne : d.clis i ≠ d.clis j := fun hfd => by
      have heq := h.distinct i hi j hj hfd
      omega
    rw [hclis, hwrites, if_neg hne, List.append_nil]
    exact h.todo j hj (by omega)

/-- A client that cannot be written to is removed. -/
theorem Relaying.removed (h : Relaying tcp before message i d) {d' : Daemon}
    (hremoved : RemovedAt i d d')
    (hsame : ∀ j, i ≤ j → j + 1 < d.clin → d.cliType (j + 1) = d.cliType j) :
    Relaying tcp before message i d' := by
  refine ⟨hremoved.distinct h.distinct, (hremoved.typesAgree_iff h.types).mpr hsame,
    fun j hj hlt => ?_, fun j hj hle => ?_⟩
  · rw [hremoved.clin] at hj
    rw [hremoved.writes, hremoved.clis, if_neg (by omega)]
    exact h.done j (by omega) hlt
  · rw [hremoved.clin] at hj
    rw [hremoved.writes, hremoved.clis, if_pos ⟨hle, hj⟩]
    exact h.todo (j + 1) (by omega) (by omega)

/-- After the loop every client that is left has got the message if it is local, and no
remote client has. -/
theorem relayLoop_relaying {n : ℕ} (hn : d.clin - i ≤ n) (h : Relaying tcp before message i d)
    (hkeeps : KeepsRelaying env message n i d) :
    ∃ k, (relayLoop env message n i d).clin ≤ k ∧
      Relaying tcp before message k (relayLoop env message n i d) := by
  induction n generalizing i d with
  | zero => exact ⟨i, by rw [relayLoop]; omega, h⟩
  | succ n ih =>
      rw [relayLoop]
      rw [KeepsRelaying] at hkeeps
      by_cases hi : i < d.clin
      · have hkeeps := hkeeps hi
        rw [if_pos hi]
        have hentry := h.types i hi
        simp only at hentry
        by_cases hremote : d.cliType i = .remoteClient
        · rw [if_pos hremote] at hkeeps ⊢
          have htcp : tcp (d.clis i) = true := by
            cases htcp : tcp (d.clis i) with
            | true => rfl
            | false =>
                rw [htcp, hremote] at hentry
                cases hentry
          refine ih (by omega) (h.next rfl rfl rfl hi fun fd => ?_) hkeeps
          rw [htcp]
          split
          · exact (List.append_nil _).symm
          · exact (List.append_nil _).symm
        · rw [if_neg hremote] at hkeeps ⊢
          have htcp : tcp (d.clis i) = false := by
            cases htcp : tcp (d.clis i) with
            | false => rfl
            | true =>
                rw [htcp] at hentry
                exact absurd hentry hremote
          obtain ⟨hclin, hclis, htype, hwrites⟩ :=
            writeSocket_table env message (d.clis i) d
          generalize writeSocket env (d.clis i) message d = out at hkeeps hclin hclis htype hwrites
          obtain ⟨ok, d'⟩ := out
          simp only at hkeeps hclin hclis htype hwrites ⊢
          cases ok with
          | true =>
              refine ih (by omega) (h.next hclin hclis htype hi fun fd => ?_) hkeeps
              rw [hwrites, htcp]
              simp [due]
          | false =>
              rw [if_neg Bool.false_ne_true] at hkeeps ⊢
              -- a write that fails changes nothing in the table
              have hfailed : Relaying tcp before message i d' := by
                refine ⟨?_, ?_, fun j hj hlt => ?_, fun j hj hle => ?_⟩
                · intro j hj k hk heq
                  rw [hclin] at hj hk
                  rw [hclis] at heq
                  exact h.distinct j hj k hk heq
                · intro j hj
                  simp only [hclin] at hj
                  simp only [htype, hclis]
                  exact h.types j hj
                · rw [hclin] at hj
                  rw [hclis, hwrites]
                  simpa using h.done j hj hlt
                · rw [hclin] at hj
                  rw [hclis, hwrites]
                  simpa using h.todo j hj hle
              have hremoved := removeClient_at env hfailed.distinct (i := i) (by omega)
              refine ih ?_ (hfailed.removed hremoved ?_) hkeeps.2
              · rw [hremoved.clin, hclin]
                omega
              · rw [hclin, htype]
                exact hkeeps.1
      · rw [if_neg hi]
        exact ⟨i, by omega, h⟩

end RelayLoop

/-! ### Sequences of calls -/

/-- The message of a peer goes to every local client, once, and to no remote one; no
write fails. -/
def RelaysToLocal (s : ClientTable) : Prop :=
  ∀ env : Env, (∀ t fd, env.writeOk t fd = true) →
    ∀ message d', getPeerMessage env (some message) s.daemon = some (true, d') →
      ∀ i < s.daemon.clin, writesTo (s.daemon.clis i) d'.trace =
        writesTo (s.daemon.clis i) s.daemon.trace ++
          due (s.tcp (s.daemon.clis i)) (cstr message)

/-- Without failing writes nothing is removed. -/
theorem relayLoop_ok {env : Env} (hok : ∀ t fd, env.writeOk t fd = true) (message : List Char)
    (n i : ℕ) (d : Daemon) :
    KeepsRelaying env message n i d ∧ (relayLoop env message n i d).clin = d.clin ∧
      (relayLoop env message n i d).clis = d.clis := by
  have hwrite : ∀ fd (d : Daemon), writeSocket env fd message d =
      (true, d.tick.log (.wrote fd message)) := fun fd d => if_pos (hok _ _)
  induction n generalizing i d with
  | zero => exact ⟨trivial, rfl, rfl⟩
  | succ n ih =>
      rw [KeepsRelaying, relayLoop, hwrite]
      by_cases hi : i < d.clin
      · rw [if_pos hi]
        split
        · obtain ⟨hkeeps, hclin, hclis⟩ := ih (i + 1) d
          exact ⟨fun _ => hkeeps, hclin, hclis⟩
        · obtain ⟨hkeeps, hclin, hclis⟩ := ih (i + 1) (d.tick.log (.wrote (d.clis i) message))
          exact ⟨fun _ => hkeeps, hclin, hclis⟩
      · rw [if_neg hi]
        exact ⟨fun h => absurd h hi, rfl, rfl⟩

theorem TypesAgree.relays {s : ClientTable} (h : TypesAgree s) (hdistinct : Distinct s.daemon) :
    RelaysToLocal s := by
  intro env hok message d' hget i hi
  cases message with
  | nil => cases hget
  | cons c cs =>
      simp only [getPeerMessage] at hget
      split at hget
      · obtain ⟨-, rfl⟩ := Prod.mk.inj (Option.some.inj hget)
        obtain ⟨hkeeps, hclin, hclis⟩ := relayLoop_ok hok (cstr (c :: cs)) s.daemon.clin 0 s.daemon
        have hstart : Relaying s.tcp (fun fd => writesTo fd s.daemon.trace) (cstr (c :: cs)) 0
            s.daemon :=
          ⟨hdistinct, h, fun _ _ hlt => absurd hlt (Nat.not_lt_zero _), fun _ _ _ => rfl⟩
        obtain ⟨k, hk, hdone⟩ := relayLoop_relaying (Nat.le_of_eq (Nat.sub_zero _)) hstart hkeeps
        have hclient := hdone.done i (by omega) (by omega)
        rw [hclis] at hclient
        exact hclient
      · cases hget

/-- The table agrees with the connections, and so the messages of peers go where they
should. -/
def Agreement (s : ClientTable) : Prop := TypesAgree s ∧ RelaysToLocal s

section Table

variable (env : Env) {s : ClientTable}

theorem tableStep_distinct (s : ClientTable) (e : TableEvent) (h : Distinct s.daemon) :
    Distinct (tableStep env s e).daemon := by
  cases e with
  | accept fd tcp =>
      rw [tableStep]
      split
      · exact h
      · next hnew => exact (accept_table env hnew tcp).1 h
  | remove fd =>
      rw [tableStep]
      by_cases hfd : Connected s.daemon fd
      · obtain ⟨i, hi, rfl⟩ := hfd
        exact (removeClient_at env h hi).distinct h
      · rw [removeClient_absent env hfd]
        exact h

/-- One call keeps the agreement exactly if the client that it removes is followed by
clients of its own type only. -/
theorem tableStep_agrees_iff (e : TableEvent) (hdistinct : Distinct s.daemon) (h : TypesAgree s) :
    TypesAgree (tableStep env s e) ↔ KeepsTypes s e := by
  cases e with
  | accept fd tcp =>
      refine iff_of_true ?_ trivial
      rw [tableStep]
      split
      · exact h
      · next hnew => exact (accept_table env hnew tcp).2 h
  | remove fd =>
      rw [tableStep, KeepsTypes]
      by_cases hfd : Connected s.daemon fd
      · obtain ⟨i, hi, rfl⟩ := hfd
        rw [(removeClient_at env hdistinct hi).typesAgree_iff h]
        constructor
        · intro hsame j hj heq
          rw [hdistinct j hj i hi heq]
          exact hsame
        · intro hkeeps
          exact hkeeps i hi rfl
      · rw [removeClient_absent env hfd]
        exact iff_of_true h fun i hi heq => absurd ⟨i, hi, heq⟩ hfd

/-- In every state of a sequence of calls the types agree, and messages of peers go to
the local clients only, if and only if whenever a client is removed the clients behind
it have its type. -/
theorem tables_agree_iff (start : ClientTable) (hstart : start.daemon.clin = 0)
    (events : List TableEvent) :
    Always (tableStep env) Agreement start events ↔
      Along (tableStep env) KeepsTypes start events := by
  have hnone : ∀ i, ¬i < start.daemon.clin := fun i => by rw [hstart]; exact Nat.not_lt_zero i
  have hdistinct : Distinct start.daemon := fun i hi => absurd hi (hnone i)
  have hagree : TypesAgree start := fun i hi => absurd hi (hnone i)
  refine always_iff_along (J := fun s => Distinct s.daemon) (tableStep_distinct env) ?_ hdistinct
    ⟨hagree, hagree.relays hdistinct⟩
  intro s e hs h
  rw [← tableStep_agrees_iff env e hs h.1]
  exact ⟨And.left, fun hafter => ⟨hafter, hafter.relays (tableStep_distinct env s e hs)⟩⟩

end Table

/-- No client, and nothing has happened. -/
def emptyTable : ClientTable := { daemon := emptyDaemon, tcp := fun _ => false }

/-- Clients of both kinds, of which a last one and one in front of its own kind go. -/
theorem tables_agree_mixed :
    Always (tableStep quietEnv) Agreement emptyTable
        [.accept 5 false, .accept 6 false, .accept 7 true, .remove 7, .remove 5, .accept 8 true] ↔
      Along (tableStep quietEnv) KeepsTypes emptyTable
        [.accept 5 false, .accept 6 false, .accept 7 true, .remove 7, .remove 5, .accept 8 true] :=
  tables_agree_iff quietEnv emptyTable rfl _

/-- A local client in front of a TCP client goes: the entry of the latter says that it is
local. -/
theorem tables_agree_fails :
    ¬ ∀ (env : Env) (start : ClientTable) (events : List TableEvent), start.daemon.clin = 0 →
      Always (tableStep env) Agreement start events := by
  intro h
  have hlast := h quietEnv emptyTable [.accept 5 false, .accept 6 true, .remove 5] rfl
    [.accept 5 false, .accept 6 true, .remove 5] (List.prefix_refl _)
  have hentry := hlast.1 0 (by decide +kernel)
  revert hentry
  decide +kernel

end Lirc
