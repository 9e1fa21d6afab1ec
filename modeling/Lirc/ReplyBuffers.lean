import Lirc.Formatting
import Lirc.Survival

/-!
Which command lines make lircd and lircrcd format a text that its array cannot
hold.
-/

namespace Lirc

open CString Lines Numeral

/-! ### The directives of lircd -/

section Daemon

variable (env : Env) (fd : ℕ)

/-- What is done with the arguments adds no text of variable length, except for
the error of `parse_rc`. -/
theorem parsed_adds {arguments : Option (List Char)} {withReps : Bool} {n : ℕ} {d : Daemon}
    (hargs : ∀ args ∈ arguments, '\n' ∉ args) (message : List Char)
    {f : RcArgs → Bool × Daemon} (hf : ∀ rc, Adds d.trace (f rc).2.trace True) :
    Adds d.trace
      (match parseRc env d arguments withReps n with
        | .error text => sendError env fd message text d
        | .ok rc => f rc).2.trace (ArgsFit d arguments) := by
  have herror : match parseRc env d arguments withReps n with
      | .error text =>
          text.count '\n' < 10 ∧ (text.length < packetSize + 1 ↔ ArgsFit d arguments)
      | .ok _ => ArgsFit d arguments := parseRc_error env hargs
  cases hparse : parseRc env d arguments withReps n with
  | error text =>
      rw [hparse] at herror
      exact (sendError_adds env fd message text d herror.1).congr herror.2
  | ok rc =>
      rw [hparse] at herror
      exact (hf rc).congr (iff_of_true trivial herror)

theorem list_adds {arguments : Option (List Char)} (hargs : ∀ args ∈ arguments, '\n' ∉ args)
    (message : List Char) (d : Daemon) :
    Adds d.trace (list env fd message arguments d).2.trace (ArgsFit d arguments) := by
  refine parsed_adds env fd hargs message fun rc => ?_
  cases rc.remote with
  | none => exact sendList_adds env fd message le_rfl _ _ d
  | some a =>
      simp only []
      split
      · exact sendList_adds env fd message (Nat.le_succ _) _ _ d
      · exact sendName_adds env fd message _ d

theorem parseTransmitters_error {fuel : ℕ} {arguments : List Char} {channels : ℕ}
    {text : List Char} (h : parseTransmitters fuel arguments channels = .error text) :
    FixedText text := by
  induction fuel generalizing arguments channels with
  | zero => cases h
  | succ fuel ih =>
      unfold parseTransmitters at h
      split at h
      · cases h
      · simp only [] at h
        split at h
        · cases h
          decide
        · split at h
          · cases h
            decide
          · exact ih h

theorem bmod_natAbs_lt (n : ℤ) : (Int.bmod n (2 ^ 32)).natAbs < 10 ^ 10 := by
  have hlt := Int.bmod_lt (x := n) (m := 2 ^ 32) (by decide)
  have hge := Int.le_bmod (x := n) (m := 2 ^ 32) (by decide)
  omega

theorem maximumText_fixed (n : ℤ) :
    FixedText ("error - maximum of ".toList ++ decimalInt (Int.bmod n (2 ^ 32)) ++
      " transmitters\n".toList) := by
  have hlen := length_decimalInt_le (bmod_natAbs_lt n) (by decide)
  have hfits : (decimalInt (Int.bmod n (2 ^ 32))).length ≤ 223 := by omega
  exact ⟨quoted_count (not_mem_decimalInt _) (by decide),
    (quoted_length (by decide)).mpr hfits⟩

theorem setTransmitters_adds (message : List Char) (arguments : Option (List Char))
    (d : Daemon) : Adds d.trace (setTransmitters env fd message arguments d).2.trace True := by
  have hfixed : ∀ {text} d, FixedText text →
      Adds d.trace (sendError env fd message text d).2.trace True :=
    fun d htext => sendError_fixed env fd message d htext
  unfold setTransmitters
  split
  · exact hfixed d (by decide)
  · split
    · exact hfixed d (by decide)
    · split
      · exact hfixed d (by decide)
      · split
        · exact hfixed d (by decide)
        · split
          · next text hparse => exact hfixed d (parseTransmitters_error hparse)
          · simp only []
            split
            · exact hfixed d.tick (by decide)
            · split
              · exact hfixed d.tick (maximumText_fixed _)
              · exact writeAll_adds env fd _ d.tick

theorem removeClient_adds (d : Daemon) : Adds d.trace (removeClient env fd d).trace True := by
  unfold removeClient
  split
  · exact Adds.refl d.trace
  · have hclosed : Adds d.trace (d.log (.closed fd)).trace True :=
      (Adds.one d.trace _).congr (iff_of_true trivial trivial)
    refine hclosed.after ?_
    simp only [deinitUnused]
    split
    · exact Adds.refl _
    · exact (Adds.one _ _).congr (iff_of_true trivial trivial)

theorem broadcastLoop_adds (message : List Char) (n i : ℕ) (d : Daemon) :
    Adds d.trace (broadcastLoop env message n i d).trace True := by
  induction n generalizing i d with
  | zero => exact Adds.refl d.trace
  | succ n ih =>
      rw [broadcastLoop]
      split
      · have hwrite := writeSocket_adds env (d.clis i) message d
        simp only []
        split
        · exact hwrite.after (ih _ _)
        · exact (hwrite.after (removeClient_adds env _ _)).after (ih _ _)
      · exact Adds.refl d.trace

theorem simulate_adds (message : List Char) (arguments : Option (List Char)) (d : Daemon) :
    Adds d.trace (simulate env fd message arguments d).2.trace True := by
  unfold simulate
  split
  · exact sendError_fixed env fd message d (by decide)
  · split
    · exact sendError_fixed env fd message d (by decide)
    · next event =>
        split
        · exact sendError_fixed env fd message d (by decide)
        · split
          · exact sendError_fixed env fd message d.tick (by decide)
          · have hlen : (event ++ ['\n']).length < event.length + 2 := by simp
            have hlog : Adds d.trace
                (d.tick.log (.formatted (event ++ ['\n']) (event.length + 2))).trace True :=
              (Adds.one d.trace _).congr (iff_true_intro hlen)
            exact (hlog.after (broadcastLoop_adds env _ _ _ _)).after (writeAll_adds env fd _ _)

theorem sendIrNcode_adds (a c : ℕ) (d : Daemon) :
    Adds d.trace (sendIrNcode env a c d).2.trace True :=
  (Adds.one d.trace _).congr (iff_of_true trivial trivial)

theorem setTimer_trace (usec : ℤ) (d : Daemon) : (d.setTimer usec).trace = d.trace := by
  rw [Daemon.setTimer]
  split
  · rfl
  · rfl

theorem sendSuccess_adds (message : List Char) (d : Daemon) :
    Adds d.trace (sendSuccess env fd message d).2.trace True := writeAll_adds env fd _ d

theorem startRepeating_adds (message : List Char) (once : Bool) (a c : ℕ) (d : Daemon) :
    Adds d.trace (startRepeating env fd message once a c d).2.trace True := by
  have hmem : FixedText "out of memory\n".toList := by decide
  have hreply := sendSuccess_adds env fd message
    { d with repeatRemote := some a, repeatCode := some c }
  unfold startRepeating
  simp only []
  split
  · split
    · rw [setTimer_trace]
      exact Adds.refl d.trace
    · exact sendError_fixed env fd message
        { d with repeatRemote := none, repeatCode := none, repeatMessage := none }.tick hmem
  · split
    · rw [setTimer_trace]
      exact hreply
    · exact hreply

theorem sendFirst_adds (message : List Char) (once : Bool) (a c : ℕ) (reps : ℤ) (d : Daemon) :
    Adds d.trace (sendFirst env fd message once a c reps d).2.trace True := by
  have hsend : Adds d.trace (sendIrNcode env a c (startSending a c d)).2.trace True :=
    sendIrNcode_adds env a c (startSending a c d)
  have hnote : Adds d.trace
      (noteSent env once a c reps (sendIrNcode env a c (startSending a c d)).2).trace True := hsend
  unfold sendFirst
  simp only []
  split
  · split
    · exact hnote.after (startRepeating_adds env fd message once a c _)
    · exact hnote.after (sendSuccess_adds env fd message _)
  · exact hsend.after (sendError_fixed env fd message _ (by decide))

theorem busyText_fixed : FixedText "busy: repeating\n".toList := by decide

theorem repeatingText_fixed : FixedText "already repeating\n".toList := by decide

/-- Sending fits when the driver cannot send at all or the names fit. -/
theorem sendCore_adds {arguments : Option (List Char)} (hargs : ∀ args ∈ arguments, '\n' ∉ args)
    (once : Bool) (message : List Char) (d : Daemon) :
    Adds d.trace (sendCore env once fd message arguments d).2.trace
      (env.sendMode ≠ 0 → ArgsFit d arguments) := by
  unfold sendCore
  split
  · next hmode =>
      exact (sendError_fixed env fd message d (by decide)).congr (by simp [hmode])
  · next hmode =>
      have herror : match parseRc env d arguments once 2 with
          | .error text =>
              text.count '\n' < 10 ∧ (text.length < packetSize + 1 ↔ ArgsFit d arguments)
          | .ok _ => ArgsFit d arguments := parseRc_error env hargs
      have hsome : (env.sendMode ≠ 0 → ArgsFit d arguments) ↔ ArgsFit d arguments := by
        simp [hmode]
      cases hparse : parseRc env d arguments once 2 with
      | error text =>
          rw [hparse] at herror
          exact ((sendError_adds env fd message text d herror.1).congr herror.2).congr hsome.symm
      | ok rc =>
          rw [hparse] at herror
          refine Adds.congr ?_ (iff_of_true trivial (hsome.mpr herror))
          obtain ⟨remote, code, reps⟩ := rc
          cases remote with
          | none => exact Adds.refl d.trace
          | some a =>
              cases code with
              | none => exact Adds.refl d.trace
              | some c =>
                  simp only []
                  split
                  · refine sendError_fixed env fd message d ?_
                    cases once with
                    | true => exact busyText_fixed
                    | false => exact repeatingText_fixed
                  · exact sendFirst_adds env fd message once a c reps d

theorem sendStop_adds {arguments : Option (List Char)} (hargs : ∀ args ∈ arguments, '\n' ∉ args)
    (message : List Char) (d : Daemon) :
    Adds d.trace (sendStop env fd message arguments d).2.trace (ArgsFit d arguments) := by
  refine parsed_adds env fd hargs message fun rc => ?_
  have hfixed : ∀ {text}, FixedText text →
      Adds d.trace (sendError env fd message text d).2.trace True :=
    fun htext => sendError_fixed env fd message d htext
  have hreply := writeAll_adds env fd [beginString, message, successString, endString]
  simp only []
  split
  · split
    · exact hfixed (by decide)
    · split
      · exact hfixed (by decide)
      · split
        · exact hreply _
        · refine Adds.after ?_ (hreply _)
          show Adds d.trace (d.setTimer 0).trace True
          rw [setTimer_trace]
          exact Adds.refl d.trace
  · exact hfixed (by decide)

theorem version_adds (message : List Char) (arguments : Option (List Char)) (d : Daemon) :
    Adds d.trace (version env fd message arguments d).2.trace True := by
  unfold version
  split
  · exact sendError_fixed env fd message d (by decide)
  · have hlen : ("1\n".toList ++ lircVersion ++ ['\n']).length < packetSize + 1 := by
      decide
    have hlog : Adds d.trace
        (d.log (.formatted ("1\n".toList ++ lircVersion ++ ['\n']) (packetSize + 1))).trace True :=
      (Adds.one d.trace _).congr (iff_true_intro hlen)
    exact hlog.after (writeAll_adds env fd _ _)

/-- An unknown directive, or an unknown name in the arguments of a directive that
looks for one, is not too long to be quoted. -/
def DirectiveFits (d : Daemon) (directive : List Char) (arguments : Option (List Char)) : Prop :=
  if strcaseeq directive "LIST".toList then ArgsFit d arguments
  else if strcaseeq directive "SEND_ONCE".toList || strcaseeq directive "SEND_START".toList then
    env.sendMode ≠ 0 → ArgsFit d arguments
  else if strcaseeq directive "SEND_STOP".toList then ArgsFit d arguments
  else if strcaseeq directive "VERSION".toList ||
      strcaseeq directive "SET_TRANSMITTERS".toList ||
      strcaseeq directive "SIMULATE".toList then True
  else directive.length ≤ 234

/-- What a line formats fits. -/
def LineFits (line : List Char) (d : Daemon) : Prop :=
  ∀ directive rest, strtok whiteSpace (stripCR line) = some (directive, rest) →
    DirectiveFits env d directive (strtokRest rest)

theorem unknownDirective_adds {directive : List Char} (hdirective : '\n' ∉ directive)
    (message : List Char) (d : Daemon) :
    Adds d.trace
      (sendError env fd message ("unknown directive: \"".toList ++ directive ++ "\"\n".toList) d).2.trace
      (directive.length ≤ 234) :=
  (sendError_adds env fd message _ d (quoted_count hdirective (by decide))).congr
    (quoted_length (by decide))

theorem stripCR_subset (line : List Char) : stripCR line ⊆ line := by
  rw [stripCR]
  split
  · exact List.dropLast_subset line
  · exact List.Subset.refl line

/-- The words of a line are in it. -/
theorem newline_notMem_token {line directive rest : List Char} (hline : '\n' ∉ line)
    (h : strtok whiteSpace (stripCR line) = some (directive, rest)) :
    '\n' ∉ directive ∧ ∀ args ∈ strtokRest rest, '\n' ∉ args := by
  obtain ⟨hdirective, hrest⟩ := strtok_subset h
  refine ⟨fun hmem => hline (stripCR_subset line (hdirective hmem)), fun args hargs hmem => ?_⟩
  rw [strtokRest] at hargs
  split at hargs
  · cases hargs
  · cases hargs
    exact hline (stripCR_subset line (hrest hmem))

/-- One line. -/
theorem execLine_adds {line : List Char} (hline : '\n' ∉ line) (d : Daemon) :
    Adds d.trace (execLine (lircd env fd) line d).2.trace (LineFits env line d) := by
  unfold execLine
  simp only []
  cases htok : strtok whiteSpace (stripCR line) with
  | none =>
      refine (sendError_fixed env fd _ d (by decide)).congr (iff_of_true trivial ?_)
      intro directive rest h
      rw [htok] at h
      cases h
  | some token =>
      obtain ⟨directive, rest⟩ := token
      obtain ⟨hnl, hargs⟩ := newline_notMem_token hline htok
      have hfits : LineFits env line d ↔ DirectiveFits env d directive (strtokRest rest) := by
        constructor
        · exact fun h => h directive rest htok
        · intro h directive' rest' h'
          rw [htok] at h'
          cases h'
          exact h
      rw [hfits]
      unfold DirectiveFits
      simp only [lircd, List.find?_cons]
      cases strcaseeq directive "LIST".toList with
      | true => exact list_adds env fd hargs _ d
      | false =>
      cases strcaseeq directive "SEND_ONCE".toList with
      | true => exact sendCore_adds env fd hargs true _ d
      | false =>
      cases strcaseeq directive "SEND_START".toList with
      | true => exact sendCore_adds env fd hargs false _ d
      | false =>
      cases strcaseeq directive "SEND_STOP".toList with
      | true => exact sendStop_adds env fd hargs _ d
      | false =>
      cases strcaseeq directive "VERSION".toList with
      | true => exact version_adds env fd _ _ d
      | false =>
      cases strcaseeq directive "SET_TRANSMITTERS".toList with
      | true => exact setTransmitters_adds env fd _ _ d
      | false =>
      cases strcaseeq directive "SIMULATE".toList with
      | true => exact simulate_adds env fd _ _ d
      | false => exact unknownDirective_adds env fd hnl _ d

end Daemon

/-! ### The directives of lircrcd -/

section Lircrcd

variable (env : RcEnv) (fd : ℕ)

theorem Adds.thenRc {t : List Event} {x : Bool × Lircrcd} {f : Lircrcd → Bool × Lircrcd}
    (hx : Adds t x.2.trace True) (hf : ∀ d, Adds d.trace (f d).2.trace True) :
    Adds t (Lirc.andThen x f).2.trace True := by
  rw [Lirc.andThen]
  split
  · exact hx.after (hf x.2)
  · exact hx

theorem rcWriteAll_adds (texts : List (List Char)) (d : Lircrcd) :
    Adds d.trace (rcWriteAll env fd texts d).2.trace True := by
  induction texts generalizing d with
  | nil => exact Adds.refl d.trace
  | cons bytes texts ih =>
      have hwrite : Adds d.trace (rcWriteSocket env fd bytes d).2.trace True := by
        rw [rcWriteSocket]
        split
        · exact (Adds.one d.trace _).congr (iff_of_true trivial trivial)
        · exact (Adds.one d.trace _).congr (iff_of_true trivial trivial)
      exact hwrite.thenRc ih

theorem rcSendSuccess_adds (message : List Char) (d : Lircrcd) :
    Adds d.trace (rcSendSuccess env fd message d).2.trace True := rcWriteAll_adds env fd _ d

/-- The array for a result is made as long as the result. -/
theorem rcSendResult_adds (message result : List Char) (d : Lircrcd) :
    Adds d.trace (rcSendResult env fd message result d).2.trace True := by
  have hlen : (result ++ ['\n']).length < result.length + 2 := by simp
  have hlog : Adds d.trace
      (d.log (.formatted (result ++ ['\n']) (result.length + 2))).trace True :=
    (Adds.one d.trace _).congr (iff_true_intro hlen)
  exact hlog.after (rcWriteAll_adds env fd _ _)

theorem rcSendError_adds (message text : List Char) (d : Lircrcd)
    (hlines : text.count '\n' < 10) :
    Adds d.trace (rcSendError env fd message text d).2.trace (text.length < packetSize + 1) := by
  have hfew : ∀ n < 10, (countLine n).length < 4 := by decide
  have htext : Adds d.trace (d.log (.formatted text (packetSize + 1))).trace
      (text.length < packetSize + 1) := Adds.one d.trace _
  have hlog := htext.trans (Adds.one _ (.formatted (countLine (text.count '\n')) 4))
  exact (hlog.congr (and_iff_left (hfew _ hlines))).before (rcWriteAll_adds env fd _ _)

theorem rcSendError_fixed (message : List Char) {text : List Char} (d : Lircrcd)
    (htext : FixedText text) : Adds d.trace (rcSendError env fd message text d).2.trace True :=
  (rcSendError_adds env fd message text d htext.1).congr (iff_true_intro htext.2)

theorem protocolError_fixed : FixedText protocolError := by decide

theorem outOfMemory_fixed : FixedText outOfMemory := by decide

theorem codeFunc_adds (message : List Char) (arguments : Option (List Char)) (d : Lircrcd) :
    Adds d.trace (codeFunc env fd message arguments d).2.trace True := by
  have hsucc := rcSendSuccess_adds env fd message
  unfold codeFunc
  split
  · exact rcSendError_fixed env fd message d protocolError_fixed
  · split
    · exact rcSendError_fixed env fd message d (by decide)
    · split
      · exact rcSendError_fixed env fd message d protocolError_fixed
      · split
        · unfold answerEvent
          split
          · split
            · exact rcSendResult_adds env fd message _ d
            · exact hsucc (d.modify _ _)
          · exact hsucc d
        · split
          · exact Adds.refl d.trace
          · exact rcSendError_fixed env fd message d.tick outOfMemory_fixed

theorem identFunc_adds (message : List Char) (arguments : Option (List Char)) (d : Lircrcd) :
    Adds d.trace (identFunc env fd message arguments d).2.trace True := by
  unfold identFunc
  split
  · exact rcSendError_fixed env fd message d protocolError_fixed
  · split
    · exact Adds.refl d.trace
    · split
      · exact rcSendError_fixed env fd message d protocolError_fixed
      · split
        · exact rcSendSuccess_adds env fd message (d.tick.modify _ _)
        · exact rcSendError_fixed env fd message d.tick outOfMemory_fixed

theorem getmodeFunc_adds (message : List Char) (arguments : Option (List Char)) (d : Lircrcd) :
    Adds d.trace (getmodeFunc env fd message arguments d).2.trace True := by
  unfold getmodeFunc
  split
  · exact rcSendError_fixed env fd message d protocolError_fixed
  · exact rcSendResult_adds env fd message _ d
  · exact rcSendSuccess_adds env fd message d

theorem setmodeFunc_adds (message : List Char) (arguments : Option (List Char)) (d : Lircrcd) :
    Adds d.trace (setmodeFunc env fd message arguments d).2.trace True := by
  unfold setmodeFunc
  simp only []
  split
  · exact rcSendResult_adds env fd message _ { d.tick with config := _ }
  · exact rcSendSuccess_adds env fd message { d.tick with config := _ }
  · exact rcSendError_fixed env fd message { d.tick with config := _ } outOfMemory_fixed

/-- An unknown directive is not too long to be quoted. -/
def RcLineFits (line : List Char) : Prop :=
  ∀ directive rest, strtok whiteSpace line = some (directive, rest) →
    ["CODE", "IDENT", "GETMODE", "SETMODE"].all (fun name => !strcaseeq directive name.toList) →
      directive.length ≤ 234

theorem rcExecLine_adds {line : List Char} (hline : '\n' ∉ line) (d : Lircrcd) :
    Adds d.trace (rcExecLine env fd line d).2.trace (RcLineFits line) := by
  unfold rcExecLine
  simp only []
  cases htok : strtok whiteSpace line with
  | none =>
      refine (rcSendError_fixed env fd _ d (by decide)).congr (iff_of_true trivial ?_)
      intro directive rest h
      rw [htok] at h
      cases h
  | some token =>
      obtain ⟨directive, rest⟩ := token
      have hnl : '\n' ∉ directive := fun hmem => hline ((strtok_subset htok).1 hmem)
      have hfits : RcLineFits line ↔
          (["CODE", "IDENT", "GETMODE", "SETMODE"].all
            (fun name => !strcaseeq directive name.toList) → directive.length ≤ 234) := by
        constructor
        · exact fun h => h directive rest htok
        · intro h directive' rest' h'
          rw [htok] at h'
          cases h'
          exact h
      rw [hfits]
      simp only [lircrcd, List.find?_cons, List.all_cons, List.all_nil]
      cases strcaseeq directive "CODE".toList with
      | true => exact (codeFunc_adds env fd _ _ d).congr (by simp)
      | false =>
      cases strcaseeq directive "IDENT".toList with
      | true => exact (identFunc_adds env fd _ _ d).congr (by simp)
      | false =>
      cases strcaseeq directive "GETMODE".toList with
      | true => exact (getmodeFunc_adds env fd _ _ d).congr (by simp)
      | false =>
      cases strcaseeq directive "SETMODE".toList with
      | true => exact (setmodeFunc_adds env fd _ _ d).congr (by simp)
      | false =>
          refine (rcSendError_adds env fd _ _ d (quoted_count hnl (by decide))).congr ?_
          rw [quoted_length (k := 234) (by decide)]
          simp

/-- A request that waits for its code is formatted into an array that is too
small for it. -/
theorem answerPending_adds (d : Lircrcd) (i : ℕ) :
    Adds d.trace (answerPending env d i).trace
        (∀ c, d.clis[i]? = some c → c.pendingCode = none) ∧
      ((∀ c, d.clis[i]? = some c → c.pendingCode = none) → answerPending env d i = d) := by
  unfold answerPending
  cases hcli : d.clis[i]? with
  | none => exact ⟨(Adds.refl d.trace).congr (by simp), fun _ => rfl⟩
  | some cli =>
      simp only []
      cases hpending : cli.pendingCode with
      | none => exact ⟨(Adds.refl d.trace).congr (by simp [hpending]), fun _ => rfl⟩
      | some backup =>
          simp only []
          refine ⟨?_, fun h => ?_⟩
          · have hlen : ¬("CODE ".toList ++ backup ++ ['\n']).length < backup.length + 1 := by
              have hcode : "CODE ".toList.length = 5 := by decide
              simp only [List.length_append, hcode, List.length_singleton]
              omega
            have hlog : Adds d.trace
                ((d.modify i fun c => { c with pendingCode := none }).log
                  (.formatted ("CODE ".toList ++ backup ++ ['\n']) (backup.length + 1))).trace
                False := (Adds.one d.trace _).congr (iff_false_intro hlen)
            refine ((hlog.trans (codeFunc_adds env cli.fd _ _ _)).congr (iff_of_eq (false_and _))).congr ?_
            simp [hpending]
          · rw [h cli rfl] at hpending
            cases hpending

theorem foldl_answerPending_adds (is : List ℕ) (d : Lircrcd) :
    Adds d.trace (is.foldl (answerPending env) d).trace
      (∀ i ∈ is, ∀ c, d.clis[i]? = some c → c.pendingCode = none) := by
  induction is generalizing d with
  | nil => exact (Adds.refl d.trace).congr (by simp)
  | cons i is ih =>
      obtain ⟨hadds, hsame⟩ := answerPending_adds env d i
      rw [List.foldl_cons]
      by_cases hnone : ∀ c, d.clis[i]? = some c → c.pendingCode = none
      · rw [hsame hnone]
        refine (ih d).congr ?_
        rw [List.forall_mem_cons]
        exact (and_iff_right hnone).symm
      · refine (hadds.trans (ih _)).congr ?_
        rw [List.forall_mem_cons]
        exact ⟨fun h => absurd h.1 hnone, fun h => absurd h.1 hnone⟩

theorem foldl_fanOut_trace (strings : List RcFound) (d : Lircrcd) :
    (strings.foldl fanOut d).trace = d.trace ∧
      (strings.foldl fanOut d).clis.map ClientData.pendingCode =
        d.clis.map ClientData.pendingCode := by
  induction strings generalizing d with
  | nil => exact ⟨rfl, rfl⟩
  | cons s strings ih =>
      have hone : (fanOut d s).trace = d.trace ∧
          (fanOut d s).clis.map ClientData.pendingCode = d.clis.map ClientData.pendingCode := by
        unfold fanOut
        split
        · refine ⟨rfl, ?_⟩
          rw [List.map_map]
          apply List.map_congr_left
          intro c _
          simp only [Function.comp_apply]
          split
          · rfl
          · rfl
        · exact ⟨rfl, rfl⟩
      obtain ⟨htrace, hpending⟩ := ih (fanOut d s)
      exact ⟨htrace.trans hone.1, hpending.trans hone.2⟩

/-- Handling a line, with the answers it brings: they are formatted unless a
name was missing before. -/
theorem handleLine_adds (line : List Char) (d : Lircrcd) :
    Adds d.trace (handleLine env line d).trace
      (d.phase = .looping → (allStrings none (line ++ ['\n']) d.config).1 = [] ∨ Identified d →
        ∀ c ∈ d.clis, c.pendingCode = none) := by
  have hident := identified_enqueue line d (allStrings none (line ++ ['\n']) d.config).2
  obtain ⟨htrace, hpending⟩ := foldl_fanOut_trace
    (allStrings none (line ++ ['\n']) d.config).1
    { d with
      clis := d.clis.map (ClientData.enqueue line)
      config := (allStrings none (line ++ ['\n']) d.config).2 }
  have hphase := foldl_fanOut_phase
    (allStrings none (line ++ ['\n']) d.config).1
    { d with
      clis := d.clis.map (ClientData.enqueue line)
      config := (allStrings none (line ++ ['\n']) d.config).2 }
  unfold handleLine
  simp only []
  generalize List.foldl fanOut _ (allStrings none (line ++ ['\n']) d.config).1 = d'
    at htrace hpending hphase ⊢
  have hclients : (∀ i ∈ List.range d'.clis.length, ∀ c, d'.clis[i]? = some c →
      c.pendingCode = none) ↔ ∀ c ∈ d.clis, c.pendingCode = none := by
    have henqueue : (d.clis.map (ClientData.enqueue line)).map ClientData.pendingCode =
        d.clis.map ClientData.pendingCode := by
      rw [List.map_map]
      rfl
    have hall : (∀ c ∈ d'.clis, c.pendingCode = none) ↔ ∀ c ∈ d.clis, c.pendingCode = none := by
      rw [← List.forall_mem_map (P := (· = none)), hpending.trans henqueue, List.forall_mem_map]
    rw [← hall]
    constructor
    · intro h c hc
      obtain ⟨i, hi, rfl⟩ := List.getElem_of_mem hc
      exact h i (List.mem_range.mpr hi) _ (List.getElem?_eq_getElem hi)
    · exact fun h i _ c hc => h c (List.mem_of_getElem? hc)
  split
  · next h =>
      rw [h] at hphase
      refine Adds.congr (htrace ▸ foldl_answerPending_adds env _ d') ?_
      rw [hclients]
      split at hphase
      · next hsound =>
          exact ⟨fun hnone _ _ => hnone, fun hnone => hnone hphase.symm (hsound.imp_right hident.mp)⟩
      · cases hphase
  · next h =>
      rw [htrace]
      refine (Adds.refl d.trace).congr (iff_of_true trivial fun hloop hsound => absurd ?_ h)
      rw [hphase, if_pos (hsound.imp_right hident.mpr)]
      exact hloop

end Lircrcd

/-! ### Packets -/

/-- What a packet has added to the trace fits exactly when each of its lines
meets the condition in the state it was executed in. -/
def FitsWhen {σ : Type*} (trace : σ → List Event) (C : List Char → σ → Prop) (s : σ) :
    Option (Bool × (σ × List (List Char × σ)) × List (Option (List Char))) → Prop
  | none => True
  | some (_, (s', lines), _) => Adds (trace s) (trace s') (∀ x ∈ lines, C x.1 x.2)

theorem getCommandWith_adds {σ : Type*} {exec : List Char → σ → Bool × σ}
    {trace : σ → List Event} {C : List Char → σ → Prop}
    (hexec : ∀ line s, '\n' ∉ line → Adds (trace s) (trace (exec line s).2) (C line s))
    (reads : List (Option (List Char))) (s : σ) :
    FitsWhen trace C s (getCommandWith (noted exec) reads (s, [])) := by
  cases hcall : getCommandWith (noted exec) reads (s, []) with
  | none => trivial
  | some result =>
      obtain ⟨ok, ⟨s', lines⟩, reads'⟩ := result
      refine getCommandWith_invariant
        (I := fun x : σ × List (List Char × σ) =>
          Adds (trace s) (trace x.1) (∀ y ∈ x.2, C y.1 y.2)) ?_ ?_ hcall
      · intro line x hline hx
        refine (hx.trans (hexec line x.1 hline)).congr ?_
        simp only [noted, List.forall_mem_append, List.forall_mem_singleton]
      · exact (Adds.refl _).congr (by simp)

/-- The texts that lircd and lircrcd format for a packet, and lircrcd for a line
from lircd, fit their arrays exactly when no line quotes a name that is too long
and no client waits for a code. -/
theorem formatted_fit (env : Env) (rcEnv : RcEnv) (fd : ℕ) (reads : List (Option (List Char)))
    (line : List Char) (d : Daemon) (rc : Lircrcd) :
    FitsWhen Daemon.trace (LineFits env) d
        (getCommandWith (noted (execLine (lircd env fd))) reads (d, [])) ∧
      FitsWhen Lircrcd.trace (fun line _ => RcLineFits line) rc
        (getCommandWith (noted (rcExecLine rcEnv fd)) reads (rc, [])) ∧
      Adds rc.trace (handleLine rcEnv line rc).trace
        (rc.phase = .looping →
          (allStrings none (line ++ ['\n']) rc.config).1 = [] ∨ Identified rc →
            ∀ c ∈ rc.clis, c.pendingCode = none) := by
  refine ⟨?_, ?_, ?_⟩
  · exact getCommandWith_adds (fun line d hline => execLine_adds env fd hline d) reads d
  · exact getCommandWith_adds (fun line d hline => rcExecLine_adds rcEnv fd hline d) reads rc
  · exact handleLine_adds rcEnv line rc

/-- An unknown directive of 250 letters in a packet of 251 bytes, and a request
that waits when its code comes. -/
theorem formatted_not_fit :
    ((getCommandWith (execLine (lircd quietEnv 5)) [some (List.replicate 250 'x' ++ ['\n'])]
        emptyDaemon).any fun r =>
      r.2.1.trace.any fun e => !decide e.Fits) = true ∧
      ((handleLine quietRcEnv "0000000000000001 00 OK tv".toList
        { Lircrcd.init okConfig with
          clis := [{ fd := 5, identString := some "irexec".toList,
                     pendingCode := some "0000000000000001 00 OK tv".toList }] }).trace.any
      fun e => !decide e.Fits) = true := by
  decide +kernel

end Lirc
