import Lirc.Lircrcd
import Lirc.Library.Run

/-!
What the commands of the clients leave alone in lircrcd, and when it uses a
value that is not there: the code of a line that has not come completely, and
the name of a client that has not identified itself.
-/

namespace Lirc

open CString Lines Transition

/-! ### What the commands leave alone -/

/-- The part of a client that its commands do not change. -/
def ClientData.record (c : ClientData) : ℕ × ℕ × List (List Char) := (c.fd, c.born, c.enqueued)

/-- A step that answers the client `fd`. -/
structure Serves (fd : ℕ) (d d' : Lircrcd) : Prop where
  clis : d'.clis.map ClientData.record = d.clis.map ClientData.record
  buffer : d'.buffer = d.buffer
  received : d'.received = d.received
  phase : (d.clientIndex fd).isSome → d'.phase = d.phase

theorem clientIndex_isSome {d : Lircrcd} {fd : ℕ} :
    (d.clientIndex fd).isSome = true ↔ fd ∈ d.clis.map ClientData.fd := by
  rw [Lircrcd.clientIndex, List.findIdx?_isSome, List.any_eq_true, List.mem_map]
  simp

theorem fds_of_records {d d' : Lircrcd}
    (h : d'.clis.map ClientData.record = d.clis.map ClientData.record) :
    d'.clis.map ClientData.fd = d.clis.map ClientData.fd := by
  have hfst := congrArg (List.map Prod.fst) h
  rw [List.map_map, List.map_map] at hfst
  exact hfst

theorem Serves.refl (fd : ℕ) (d : Lircrcd) : Serves fd d d := ⟨rfl, rfl, rfl, fun _ => rfl⟩

theorem Serves.trans {fd : ℕ} {d d' d'' : Lircrcd} (h : Serves fd d d') (h' : Serves fd d' d'') :
    Serves fd d d'' := by
  refine ⟨h'.clis.trans h.clis, h'.buffer.trans h.buffer, h'.received.trans h.received, ?_⟩
  intro hfd
  refine (h'.phase ?_).trans (h.phase hfd)
  rw [clientIndex_isSome] at hfd ⊢
  rwa [fds_of_records h.clis]

/-- A change of a client that keeps its record. -/
theorem Serves.modify (fd : ℕ) (d : Lircrcd) (i : ℕ) {f : ClientData → ClientData}
    (hf : ∀ c, (f c).record = c.record) : Serves fd d (d.modify i f) := by
  refine ⟨?_, rfl, rfl, fun _ => rfl⟩
  show (d.clis.modify i f).map ClientData.record = d.clis.map ClientData.record
  apply List.ext_getElem?
  intro j
  rw [List.getElem?_map, List.getElem?_map, List.getElem?_modify]
  cases d.clis[j]? with
  | none => rfl
  | some c =>
      simp only [Option.map_some]
      split
      · exact congrArg some (hf c)
      · rfl

theorem Serves.log (fd : ℕ) (d : Lircrcd) (e : Event) : Serves fd d (d.log e) :=
  ⟨rfl, rfl, rfl, fun _ => rfl⟩

theorem Serves.tick (fd : ℕ) (d : Lircrcd) : Serves fd d d.tick :=
  ⟨rfl, rfl, rfl, fun _ => rfl⟩

theorem Serves.setConfig (fd : ℕ) (d : Lircrcd) (config : RcConfig) :
    Serves fd d { d with config } := ⟨rfl, rfl, rfl, fun _ => rfl⟩

section Functions

variable (env : RcEnv) (fd : ℕ)

theorem rcWriteAll_serves (texts : List (List Char)) (d : Lircrcd) :
    Serves fd d (rcWriteAll env fd texts d).2 := by
  induction texts generalizing d with
  | nil => exact .refl fd d
  | cons bytes rest ih =>
      have hwrite : Serves fd d (rcWriteSocket env fd bytes d).2 := by
        unfold rcWriteSocket
        split
        · exact ⟨rfl, rfl, rfl, fun _ => rfl⟩
        · exact ⟨rfl, rfl, rfl, fun _ => rfl⟩
      rw [rcWriteAll, andThen]
      split
      · exact hwrite.trans (ih _)
      · exact hwrite

theorem rcSendResult_serves (message result : List Char) (d : Lircrcd) :
    Serves fd d (rcSendResult env fd message result d).2 :=
  (Serves.log fd d _).trans (rcWriteAll_serves env fd _ _)

theorem rcSendSuccess_serves (message : List Char) (d : Lircrcd) :
    Serves fd d (rcSendSuccess env fd message d).2 := rcWriteAll_serves env fd _ _

theorem rcSendError_serves (message text : List Char) (d : Lircrcd) :
    Serves fd d (rcSendError env fd message text d).2 :=
  ((Serves.log fd d _).trans (Serves.log fd _ _)).trans (rcWriteAll_serves env fd _ _)

theorem answerEvent_serves (message code : List Char) (i : ℕ) (ei : EventInfo)
    (events : List EventInfo) (d : Lircrcd) :
    Serves fd d (answerEvent env fd message code i ei events d).2 := by
  unfold answerEvent
  split
  · split
    · next first string strings hfirst =>
        have hsend := rcSendResult_serves env fd message string d
        exact hsend.trans (Serves.modify fd _ i fun _ => rfl)
    · refine Serves.trans ?_ (rcSendSuccess_serves env fd message _)
      exact Serves.modify fd d i fun _ => rfl
  · exact rcSendSuccess_serves env fd message d

theorem codeFunc_serves (message : List Char) (arguments : Option (List Char)) (d : Lircrcd) :
    Serves fd d (codeFunc env fd message arguments d).2 := by
  unfold codeFunc
  split
  · exact rcSendError_serves env fd message _ d
  · split
    · exact rcSendError_serves env fd message _ d
    · split
      · exact rcSendError_serves env fd message _ d
      · split
        · exact answerEvent_serves env fd message _ _ _ _ d
        · split
          · exact (Serves.tick fd d).trans (Serves.modify fd _ _ fun _ => rfl)
          · exact (Serves.tick fd d).trans (rcSendError_serves env fd message _ _)

theorem identFunc_serves (message : List Char) (arguments : Option (List Char)) (d : Lircrcd) :
    Serves fd d (identFunc env fd message arguments d).2 := by
  unfold identFunc
  split
  · exact rcSendError_serves env fd message _ d
  · split
    · next hindex =>
        -- the client is there, so the index is not -1
        refine ⟨rfl, rfl, rfl, fun hfd => ?_⟩
        rw [hindex] at hfd
        cases hfd
    · split
      · exact rcSendError_serves env fd message _ d
      · split
        · refine Serves.trans ?_ (rcSendSuccess_serves env fd message _)
          exact (Serves.tick fd d).trans (Serves.modify fd _ _ fun _ => rfl)
        · exact (Serves.tick fd d).trans (rcSendError_serves env fd message _ _)

theorem getmodeFunc_serves (message : List Char) (arguments : Option (List Char))
    (d : Lircrcd) : Serves fd d (getmodeFunc env fd message arguments d).2 := by
  unfold getmodeFunc
  split
  · exact rcSendError_serves env fd message _ d
  · exact rcSendResult_serves env fd message _ d
  · exact rcSendSuccess_serves env fd message d

theorem setmodeFunc_serves (message : List Char) (arguments : Option (List Char))
    (d : Lircrcd) : Serves fd d (setmodeFunc env fd message arguments d).2 := by
  unfold setmodeFunc
  have hset : ∀ config, Serves fd d { d.tick with config } :=
    fun config => (Serves.tick fd d).trans (Serves.setConfig fd _ config)
  simp only []
  split
  · exact (hset _).trans (rcSendResult_serves env fd message _ _)
  · exact (hset _).trans (rcSendSuccess_serves env fd message _)
  · exact (hset _).trans (rcSendError_serves env fd message _ _)

theorem rcExecLine_serves (line : List Char) (d : Lircrcd) :
    Serves fd d (rcExecLine env fd line d).2 := by
  unfold rcExecLine
  simp only []
  split
  · exact rcSendError_serves env fd _ _ d
  · split
    · next f hfind =>
        have hmem := List.mem_of_find?_eq_some hfind
        simp only [lircrcd, List.mem_cons, List.not_mem_nil, or_false] at hmem
        obtain rfl | rfl | rfl | rfl := hmem
        · exact codeFunc_serves env fd _ _ d
        · exact identFunc_serves env fd _ _ d
        · exact getmodeFunc_serves env fd _ _ d
        · exact setmodeFunc_serves env fd _ _ d
    · exact rcSendError_serves env fd _ _ d

theorem getCommand_serves {reads reads' : List (Option (List Char))} {d d' : Lircrcd} {ok : Bool}
    (h : getCommandWith (rcExecLine env fd) reads d = some (ok, d', reads')) :
    Serves fd d d' :=
  getCommandWith_invariant (fun line s _ hs => hs.trans (rcExecLine_serves env fd line s))
    (Serves.refl fd d) h

/-- The answers that were due change no more than a command does. -/
theorem answerPending_serves (d : Lircrcd) (i : ℕ) :
    ∃ fd, (d.clientIndex fd).isSome ∧ Serves fd d (answerPending env d i) ∨
      answerPending env d i = d := by
  unfold answerPending
  split
  · exact ⟨0, .inr rfl⟩
  · next cli hcli =>
      split
      · exact ⟨0, .inr rfl⟩
      · next backup hpending =>
          refine ⟨cli.fd, .inl ⟨?_, ?_⟩⟩
          · rw [clientIndex_isSome]
            exact List.mem_map_of_mem (List.mem_of_getElem? hcli)
          · refine Serves.trans ?_ (codeFunc_serves env cli.fd _ _ _)
            refine Serves.trans ?_ (Serves.log cli.fd _ _)
            exact Serves.modify cli.fd d i fun _ => rfl

theorem answerPending_phase (d : Lircrcd) (i : ℕ) : (answerPending env d i).phase = d.phase := by
  obtain ⟨fd, ⟨hfd, hserves⟩ | h⟩ := answerPending_serves env d i
  · exact hserves.phase hfd
  · rw [h]

theorem answerPending_records (d : Lircrcd) (i : ℕ) :
    (answerPending env d i).clis.map ClientData.record = d.clis.map ClientData.record := by
  obtain ⟨fd, ⟨hfd, hserves⟩ | h⟩ := answerPending_serves env d i
  · exact hserves.clis
  · rw [h]

theorem answerPending_buffer (d : Lircrcd) (i : ℕ) :
    (answerPending env d i).buffer = d.buffer ∧ (answerPending env d i).received = d.received := by
  obtain ⟨fd, ⟨hfd, hserves⟩ | h⟩ := answerPending_serves env d i
  · exact ⟨hserves.buffer, hserves.received⟩
  · rw [h]
    exact ⟨rfl, rfl⟩

end Functions

/-! ### Strings for the clients -/

/-- All clients have said which program they are. -/
def Identified (d : Lircrcd) : Prop := ∀ c ∈ d.clis, c.identString.isSome

instance (d : Lircrcd) : Decidable (Identified d) :=
  inferInstanceAs (Decidable (∀ c ∈ d.clis, c.identString.isSome))

theorem fanOut_of_identified {d : Lircrcd} (h : Identified d) (s : RcFound) :
    fanOut d s = { d with clis := d.clis.map fun c =>
      if c.identString = some s.prog then c.schedule s.string else c } :=
  if_pos (List.all_eq_true.mpr h)

theorem fanOut_of_not_identified {d : Lircrcd} (h : ¬Identified d) (s : RcFound) :
    fanOut d s = { d with phase := .misused .ident } :=
  if_neg fun hall => h (List.all_eq_true.mp hall)

theorem Identified.fanOut {d : Lircrcd} (h : Identified d) (s : RcFound) :
    Identified (fanOut d s) := by
  rw [fanOut_of_identified h]
  intro c hc
  obtain ⟨c', hc', rfl⟩ := List.mem_map.mp hc
  have hident := h c' hc'
  split
  · exact hident
  · exact hident

/-- Strings are scheduled without a missing name when all clients have one. -/
theorem Identified.foldl_fanOut {d : Lircrcd} (h : Identified d) (strings : List RcFound) :
    (strings.foldl Lirc.fanOut d).phase = d.phase := by
  induction strings generalizing d with
  | nil => rfl
  | cons s strings ih =>
      rw [List.foldl_cons, ih (h.fanOut s), fanOut_of_identified h]

theorem foldl_fanOut_misused {d : Lircrcd} (h : ¬Identified d)
    (hphase : d.phase = .misused .ident) (strings : List RcFound) :
    (strings.foldl fanOut d).phase = .misused .ident := by
  induction strings generalizing d with
  | nil => exact hphase
  | cons s strings ih =>
      rw [List.foldl_cons, fanOut_of_not_identified h]
      exact ih h rfl

/-- The first string is compared with a missing name. -/
theorem foldl_fanOut_not_identified {d : Lircrcd} (h : ¬Identified d) (s : RcFound)
    (strings : List RcFound) : ((s :: strings).foldl fanOut d).phase = .misused .ident := by
  rw [List.foldl_cons, fanOut_of_not_identified h]
  have hd : ¬Identified { d with phase := .misused .ident } := h
  exact foldl_fanOut_misused hd rfl strings

theorem fanOut_records (d : Lircrcd) (s : RcFound) :
    (fanOut d s).clis.map ClientData.record = d.clis.map ClientData.record := by
  unfold fanOut
  split
  · rw [List.map_map]
    apply List.map_congr_left
    intro c _
    simp only [Function.comp_apply]
    split
    · rfl
    · rfl
  · rfl

theorem fanOut_buffer (d : Lircrcd) (s : RcFound) :
    (fanOut d s).buffer = d.buffer ∧ (fanOut d s).received = d.received := by
  unfold fanOut
  split
  · exact ⟨rfl, rfl⟩
  · exact ⟨rfl, rfl⟩

section Survival

variable (env : RcEnv)

theorem foldl_answerPending_phase (is : List ℕ) (d : Lircrcd) :
    (is.foldl (answerPending env) d).phase = d.phase := by
  induction is generalizing d with
  | nil => rfl
  | cons i is ih => rw [List.foldl_cons, ih, answerPending_phase]

/-- The phase in which the strings for a line have been scheduled. -/
theorem foldl_fanOut_phase (strings : List RcFound) (d : Lircrcd) :
    (strings.foldl fanOut d).phase =
      if strings = [] ∨ Identified d then d.phase else .misused .ident := by
  split
  · next h =>
      obtain rfl | h := h
      · rfl
      · exact h.foldl_fanOut strings
  · next h =>
      obtain ⟨hne, hnot⟩ := not_or.mp h
      obtain ⟨s, rest, rfl⟩ := List.exists_cons_of_ne_nil hne
      exact foldl_fanOut_not_identified hnot s rest

/-- A new event changes no name. -/
theorem identified_enqueue (line : List Char) (d : Lircrcd) (config : RcConfig) :
    Identified { d with clis := d.clis.map (ClientData.enqueue line), config } ↔ Identified d := by
  simp only [Identified, List.forall_mem_map]
  rfl

/-- The value that is missing when a line is handled, if any. -/
theorem handleLine_phase {d : Lircrcd} (hloop : d.phase = .looping) (line : List Char) :
    (handleLine env line d).phase =
      if (allStrings none (line ++ ['\n']) d.config).1 = [] ∨ Identified d then .looping
      else .misused .ident := by
  have hident := identified_enqueue line d (allStrings none (line ++ ['\n']) d.config).2
  unfold handleLine
  simp only []
  split
  · next h =>
      rw [foldl_answerPending_phase, h]
      rw [foldl_fanOut_phase] at h
      split at h
      · next hsound => rw [if_pos (hsound.imp_right hident.mp)]
      · cases h
  · next h =>
      rw [foldl_fanOut_phase] at h ⊢
      split at h
      · exact absurd hloop h
      · next hsound =>
          rw [if_neg hsound, if_neg fun h' => hsound (h'.imp_right hident.mpr)]

/-- What `handle_input` finds: no code for a read that does not complete a
line, else a line that needs no name or finds a name for every client. -/
def Served (d : Lircrcd) : RcEvent → Prop
  | .input read =>
      match lircNextcode read d with
      | some (.nothing, _) => False
      | some (.code line, _) =>
          (allStrings none (line ++ ['\n']) d.config).1 = [] ∨ Identified d
      | _ => True
  | _ => True

theorem takeLine_frame (d : Lircrcd) :
    (takeLine d).2.clis = d.clis ∧ (takeLine d).2.config = d.config ∧
      (takeLine d).2.phase = d.phase := by
  unfold takeLine
  split
  · exact ⟨rfl, rfl, rfl⟩
  · exact ⟨rfl, rfl, rfl⟩

theorem lircNextcode_frame {read : LircdRead} {d d' : Lircrcd} {code : NextCode}
    (h : lircNextcode read d = some (code, d')) :
    d'.clis = d.clis ∧ d'.config = d.config ∧ d'.phase = d.phase := by
  unfold lircNextcode at h
  split at h
  · have hd : (takeLine d).2 = d' := congrArg Prod.snd (Option.some.inj h)
    rw [← hd]
    exact takeLine_frame d
  · split at h
    · cases h
      exact ⟨rfl, rfl, rfl⟩
    · cases h
      exact ⟨rfl, rfl, rfl⟩
    · split at h
      · cases h
      · next bytes hread =>
          have hd : (takeLine { d.grow with
              buffer := d.buffer ++ bytes, received := d.received ++ bytes }).2 = d' :=
            congrArg Prod.snd (Option.some.inj h)
          rw [← hd]
          exact takeLine_frame _

theorem handleInput_sound {d : Lircrcd} (hloop : d.phase = .looping) (read : LircdRead) :
    (∀ m, (handleInput env read d).phase ≠ .misused m) ↔ Served d (.input read) := by
  unfold handleInput Served
  simp only []
  cases hnext : lircNextcode read d with
  | none => simp [hloop]
  | some x =>
      obtain ⟨code, d'⟩ := x
      obtain ⟨hclis, hconfig, hphase⟩ := lircNextcode_frame hnext
      cases code with
      | failed => simp
      | nothing => simp
      | code line =>
          show (∀ m, (handleLine env line d').phase ≠ .misused m) ↔ _
          rw [handleLine_phase env (hphase.trans hloop), hconfig]
          have hident : Identified d' ↔ Identified d := by rw [Identified, hclis, Identified]
          show _ ↔ (allStrings none (line ++ ['\n']) d.config).1 = [] ∨ Identified d
          split
          · next h => exact ⟨fun _ => h.imp_right hident.mp, fun _ m hm => by cases hm⟩
          · next h =>
              refine ⟨fun hm => absurd rfl (hm .ident), fun h' => ?_⟩
              exact absurd (h'.imp_right hident.mpr) h

/-- Commands of clients and connections use no missing value. -/
theorem rcCommand_sound {d : Lircrcd} (hloop : d.phase = .looping) (fd : ℕ)
    (reads : List (Option (List Char))) (m : Missing) :
    (rcCommand env fd reads d).phase ≠ .misused m := by
  unfold rcCommand
  cases hindex : d.clientIndex fd with
  | none => simp [hloop]
  | some i =>
      have hfd : (d.clientIndex fd).isSome := by rw [hindex]; rfl
      simp only []
      cases hcall : getCommandWith (rcExecLine env fd) reads d with
      | none => simp [hloop]
      | some x =>
          obtain ⟨ok, d', reads'⟩ := x
          have hphase := ((getCommand_serves env fd hcall).phase hfd).trans hloop
          have hremoved : (rcRemoveClient i d').phase = .looping := by
            unfold rcRemoveClient
            cases d'.clis[i]? with
            | none => exact hphase
            | some c => exact hphase
          cases ok with
          | true => simp [hphase]
          | false =>
              simp only []
              split
              · simp
              · simp [hremoved]

theorem rcAddClient_phase (fd : ℕ) (d : Lircrcd) : (rcAddClient fd d).phase = d.phase := by
  unfold rcAddClient
  split
  · rfl
  · split
    · rfl
    · rfl

/-- lircrcd never uses a missing value if and only if every `handle_input`
finds a complete line, or an error, and has the names it compares. -/
theorem rcStep_survives (config : RcConfig) (es : List RcEvent) :
    Always (rcStep env) (fun d => ∀ m, d.phase ≠ .misused m) (Lircrcd.init config) es ↔
      Along (rcStep env) (fun d e => d.phase = .looping → Served d e) (Lircrcd.init config) es := by
  apply always_iff_along (fun _ _ (_ : True) => trivial) ?_ trivial (by simp [Lircrcd.init])
  intro d e _ hsafe
  cases hphase : d.phase with
  | misused m => exact absurd hphase (hsafe m)
  | returned =>
      simp only [rcStep, hphase]
      simp
  | looping =>
      simp only [rcStep, hphase, forall_const]
      cases e with
      | command fd reads => simp [Served, rcCommand_sound env hphase fd reads]
      | connect fd => simp [Served, rcAddClient_phase, hphase]
      | input read => exact handleInput_sound env hphase read

end Survival

/-- A lircrc file with one string for the button `OK` of any remote. -/
def okConfig : RcConfig where
  entries := [{ prog := some "irexec".toList, code := [⟨none, some "OK".toList⟩],
                config := ["play".toList] }]

/-- A system in which nothing fails. -/
def quietRcEnv : RcEnv := ⟨fun _ _ => true, fun _ => true⟩

/-- The first part of a line makes `handle_input` copy a code that is not
there, and a complete one with a string for it makes it compare the name of a
client that has not sent `IDENT`. -/
theorem rcStep_not_survives :
    (run (rcStep quietRcEnv) (Lircrcd.init okConfig)
        [.connect 5, .input (.bytes "0000000000000001 00".toList)]).phase = .misused .code ∧
      (run (rcStep quietRcEnv) (Lircrcd.init okConfig)
        [.connect 5, .input (.bytes "0000000000000001 00 OK tv\n".toList)]).phase =
          .misused .ident := by
  decide +kernel

end Lirc
