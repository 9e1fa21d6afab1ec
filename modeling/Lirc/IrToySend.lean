import Lirc.Driver
import Lirc.Directives
import Lirc.IrToy

/-!
`irtoy_send`: the handshake with the USB IR Toy, and what lircd makes of its
end. The device is a function from the exchange so far to its next answer, so
that it may answer late, too little, wrongly or not at all.
-/

namespace Lirc

/-- A call that the driver makes: a write with its result, or a read of so many
bytes with those that have come before the timeout. -/
inductive ToyEvent
  | wrote (bytes : List UInt8) (res : ℤ)
  | read (count : ℕ) (got : List UInt8)
  deriving DecidableEq, Repr

/-- How the device behaves. `read_with_timeout` never gets more than it asks for;
no byte at all is its result -1. -/
structure ToyDevice where
  write : List ToyEvent → List UInt8 → ℤ
  read : List ToyEvent → ℕ → List UInt8
  read_le : ∀ past count, (read past count).length ≤ count

/-- `IRTOY_COMMAND_TXSTART` -/
def irtoyCommandTxstart : List UInt8 := [0x24, 0x25, 0x26, 0x03]

/-- `IRTOY_REPLY_XMITCOUNT` -/
def irtoyReplyXmitcount : UInt8 := 't'.toNat.toUInt8

/-- `IRTOY_REPLY_XMITSUCCESS` -/
def irtoyReplyXmitsuccess : UInt8 := 'C'.toNat.toUInt8

/-- `IRTOY_LEN_XMITRES` -/
def irtoyLenXmitres : ℕ := 4

namespace ToyDevice

variable (dev : ToyDevice)

/-- The end of `irtoy_send_double_buffered`: the result of the transmission. -/
def transmitResult (length : ℕ) (past : List ToyEvent) : ℤ × List ToyEvent :=
  let reply := dev.read past irtoyLenXmitres
  let past := past ++ [.read irtoyLenXmitres reply]
  match reply with
  | [indicator, hi, lo, status] =>
      if indicator ≠ irtoyReplyXmitcount then (0, past)
      else if length ≠ 256 * hi.toNat + lo.toNat then (0, past)
      else if status ≠ irtoyReplyXmitsuccess then (0, past)
      else (1, past)
  | _ => (-1, past)

/-- The loop: as many bytes as the device has room for, and its next answer. A
device without room leaves the loop where it is. `none` is a loop that has not
ended yet. -/
def transmitLoop (length : ℕ) :
    ℕ → List UInt8 → UInt8 → List ToyEvent → Option (ℤ × List ToyEvent)
  | 0, _, _, _ => none
  | fuel + 1, rest, irToyBufLen, past =>
      if rest = [] then some (dev.transmitResult length past)
      else
        let now := rest.take irToyBufLen.toNat
        let res := dev.write past now
        let past := past ++ [.wrote now res]
        if res ≠ now.length then some (0, past)
        else
          let answer := dev.read past 1
          let past := past ++ [.read 1 answer]
          match answer with
          | [irToyBufLen] => transmitLoop length fuel (rest.drop now.length) irToyBufLen past
          | _ => some (-1, past)

/-- `irtoy_send_double_buffered` -/
def sendDoubleBuffered (fuel : ℕ) (signals : List UInt8) : Option (ℤ × List ToyEvent) :=
  let res := dev.write [] irtoyCommandTxstart
  let past := [.wrote irtoyCommandTxstart res]
  if res ≠ irtoyCommandTxstart.length then some (0, past)
  else
    let answer := dev.read past 1
    let past := past ++ [.read 1 answer]
    match answer with
    | [irToyBufLen] => dev.transmitLoop signals.length fuel signals irToyBufLen past
    | _ => some (-1, past)

end ToyDevice

/-! ### What the exchange shows -/

/-- A write was complete. -/
def ToyEvent.Complete : ToyEvent → Prop
  | .wrote bytes res => res = bytes.length
  | .read _ _ => True

/-- A read got all that it asked for. -/
def ToyEvent.Answered : ToyEvent → Prop
  | .wrote _ _ => True
  | .read count got => got.length = count

/-- The bytes that were written. -/
def ToyEvent.sentBytes : ToyEvent → List UInt8
  | .wrote bytes _ => bytes
  | .read _ _ => []

/-- Every write was complete, the command and the signals were written, and at
the end the device has confirmed the transmission of so many bytes. -/
def Confirmed (signals : List UInt8) (exchange : List ToyEvent) : Prop :=
  (∀ e ∈ exchange, e.Complete) ∧
    exchange.flatMap ToyEvent.sentBytes = irtoyCommandTxstart ++ signals ∧
    ∃ past hi lo, 256 * UInt8.toNat hi + UInt8.toNat lo = signals.length ∧
      exchange = past ++ [.read irtoyLenXmitres
        [irtoyReplyXmitcount, hi, lo, irtoyReplyXmitsuccess]]

/-- How an exchange ends, by the value that is returned. -/
inductive ToyEnd (signals : List UInt8) (exchange : List ToyEvent) : ℤ → Prop
  | confirmed (h : Confirmed signals exchange) (hreads : ∀ e ∈ exchange, e.Answered) :
      ToyEnd signals exchange 1
  | refused (hreads : ∀ e ∈ exchange, e.Answered) : ToyEnd signals exchange 0
  | unanswered {past : List ToyEvent} {count : ℕ} {got : List UInt8}
      (h : exchange = past ++ [.read count got]) (hshort : got.length ≠ count) :
      ToyEnd signals exchange (-1)

section Handshake

variable {dev : ToyDevice} {signals : List UInt8} {past exchange : List ToyEvent} {ret : ℤ}

/-- The exchange up to a round of the loop: everything went well, and what has
not been written yet is `rest`. -/
structure UnderWay (signals rest : List UInt8) (past : List ToyEvent) : Prop where
  complete : ∀ e ∈ past, e.Complete
  answered : ∀ e ∈ past, e.Answered
  sent : past.flatMap ToyEvent.sentBytes ++ rest = irtoyCommandTxstart ++ signals

theorem forall_mem_snoc {P : ToyEvent → Prop} {e : ToyEvent} (h : ∀ x ∈ past, P x) (he : P e) :
    ∀ x ∈ past ++ [e], P x := by
  intro x hx
  rcases List.mem_append.mp hx with hx | hx
  · exact h x hx
  · rw [List.mem_singleton.mp hx]
    exact he

theorem UnderWay.wrote {rest now : List UInt8} {res : ℤ} (h : UnderWay signals rest past)
    (hnow : now <+: rest) (hres : res = now.length) :
    UnderWay signals (rest.drop now.length) (past ++ [.wrote now res]) := by
  obtain ⟨later, rfl⟩ := hnow
  refine ⟨forall_mem_snoc h.complete hres, forall_mem_snoc h.answered trivial, ?_⟩
  rw [List.drop_left, ← h.sent]
  simp [ToyEvent.sentBytes]

theorem UnderWay.read {rest got : List UInt8} {count : ℕ} (h : UnderWay signals rest past)
    (hgot : got.length = count) : UnderWay signals rest (past ++ [.read count got]) := by
  refine ⟨forall_mem_snoc h.complete trivial, forall_mem_snoc h.answered hgot, ?_⟩
  rw [← h.sent]
  simp [ToyEvent.sentBytes]

theorem transmitResult_end (h : UnderWay signals [] past)
    (hresult : dev.transmitResult signals.length past = (ret, exchange)) :
    ToyEnd signals exchange ret := by
  rw [ToyDevice.transmitResult] at hresult
  split at hresult
  · next indicator hi lo status hreply =>
      have hread : UnderWay signals []
          (past ++ [.read irtoyLenXmitres (dev.read past irtoyLenXmitres)]) :=
        h.read (by rw [hreply]; rfl)
      split at hresult
      · obtain ⟨rfl, rfl⟩ := Prod.mk.inj hresult
        exact .refused hread.answered
      · next hindicator =>
          split at hresult
          · obtain ⟨rfl, rfl⟩ := Prod.mk.inj hresult
            exact .refused hread.answered
          · next hlength =>
              split at hresult
              · obtain ⟨rfl, rfl⟩ := Prod.mk.inj hresult
                exact .refused hread.answered
              · next hstatus =>
                  obtain ⟨rfl, rfl⟩ := Prod.mk.inj hresult
                  have hsent := hread.sent
                  rw [List.append_nil] at hsent
                  refine .confirmed ⟨hread.complete, hsent, past, hi, lo, ?_, ?_⟩ hread.answered
                  · exact (not_not.mp hlength).symm
                  · rw [hreply, not_not.mp hindicator, not_not.mp hstatus]
  · next hother =>
      obtain ⟨rfl, rfl⟩ := Prod.mk.inj hresult
      refine .unanswered rfl fun hlen => ?_
      obtain ⟨a, b, c, e, hfour⟩ := List.length_eq_four.mp hlen
      exact hother a b c e hfour

/-- A read of one byte that gets no byte ends the exchange. -/
theorem short_of_ne_singleton {got : List UInt8} (h : ∀ x, got ≠ [x]) : got.length ≠ 1 := by
  intro hlen
  obtain ⟨x, hx⟩ := List.length_eq_one_iff.mp hlen
  exact h x hx

theorem transmitLoop_end {fuel : ℕ} {rest : List UInt8} {irToyBufLen : UInt8}
    (h : UnderWay signals rest past)
    (hloop : dev.transmitLoop signals.length fuel rest irToyBufLen past = some (ret, exchange)) :
    ToyEnd signals exchange ret := by
  induction fuel generalizing rest irToyBufLen past with
  | zero => cases hloop
  | succ fuel ih =>
      rw [ToyDevice.transmitLoop] at hloop
      split at hloop
      · next hrest =>
          rw [hrest] at h
          exact transmitResult_end h (Option.some.inj hloop)
      · dsimp only at hloop
        have hprefix := List.take_prefix irToyBufLen.toNat rest
        generalize rest.take irToyBufLen.toNat = now at hprefix hloop
        by_cases hres : dev.write past now = now.length
        · rw [if_neg (not_not_intro hres)] at hloop
          have hwrote := h.wrote hprefix hres
          split at hloop
          · next len hgot =>
              refine ih (hwrote.read ?_) hloop
              rw [hgot]
              rfl
          · next hother =>
              obtain ⟨rfl, rfl⟩ := Prod.mk.inj (Option.some.inj hloop)
              exact .unanswered rfl (short_of_ne_singleton hother)
        · rw [if_pos hres] at hloop
          obtain ⟨rfl, rfl⟩ := Prod.mk.inj (Option.some.inj hloop)
          exact .refused (forall_mem_snoc h.answered trivial)

theorem sendDoubleBuffered_end {fuel : ℕ}
    (hsend : dev.sendDoubleBuffered fuel signals = some (ret, exchange)) :
    ToyEnd signals exchange ret := by
  have hnone : UnderWay signals (irtoyCommandTxstart ++ signals) [] := ⟨by simp, by simp, rfl⟩
  rw [ToyDevice.sendDoubleBuffered] at hsend
  dsimp only at hsend
  split at hsend
  · obtain ⟨rfl, rfl⟩ := Prod.mk.inj (Option.some.inj hsend)
    exact .refused (forall_mem_snoc hnone.answered trivial)
  · next hres =>
      have hwrote := hnone.wrote (List.prefix_append _ signals) (not_not.mp hres)
      rw [List.drop_left] at hwrote
      split at hsend
      · next len hgot =>
          refine transmitLoop_end (hwrote.read ?_) hsend
          rw [hgot]
          rfl
      · next hother =>
          obtain ⟨rfl, rfl⟩ := Prod.mk.inj (Option.some.inj hsend)
          exact .unanswered rfl (short_of_ne_singleton hother)

/-- The value is taken for a success without a confirmation exactly where the
device owes an answer. -/
theorem ToyEnd.confirmed_iff (h : ToyEnd signals exchange ret) :
    (ret ≠ 0 → Confirmed signals exchange) ↔ ∀ e ∈ exchange, e.Answered := by
  cases h with
  | confirmed h hreads => exact iff_of_true (fun _ => h) hreads
  | refused hreads => exact iff_of_true (fun h => absurd rfl h) hreads
  | @unanswered past count got h hshort =>
      refine iff_of_false (fun hconfirmed => ?_) fun hreads => ?_
      · obtain ⟨-, -, past', hi, lo, -, hend⟩ := hconfirmed (by decide)
        have hlast := List.append_inj' (h.symm.trans hend) rfl
        injection hlast.2 with hread
        injection hread with hcount hgot
        exact hshort (by rw [hgot, hcount]; rfl)
      · have hread := hreads (.read count got) (by rw [h]; simp)
        exact hshort hread

end Handshake

/-! ### The driver -/

/-- `irtoy_send` and what it leaves: the value it returns, the remote and the
send buffer after `init_send`, what was to be sent, and the exchange. -/
structure ToySend where
  ret : ℤ
  remote : IrRemote
  buf : SBuf
  bytes : List UInt8
  exchange : List ToyEvent

/-- `irtoy_send`; `none` is a call that has not returned, or that has run over
the array. -/
def irtoySend (fuel : ℕ) (dev : ToyDevice) (rep : Bool) (r : IrRemote) (c : ℕ) (buf : SBuf) :
    Option ToySend :=
  (r.codes[c]?.bind fun code => initSend r code rep buf fuel).bind fun out =>
    if !out.ok then some ⟨0, out.leave r c, out.buf, [], []⟩
    else
      (encodeSamples irtoyUnit out.buf.samples).bind fun bytes =>
        (dev.sendDoubleBuffered fuel bytes).map fun x =>
          ⟨x.1, out.leave r c, out.buf, bytes, x.2⟩

/-- `hw.send_func`: every value other than 0 is a success. -/
def irtoyDriver (fuel : ℕ) (dev : ToyDevice) (rep : Bool) (r : IrRemote) (c : ℕ) (buf : SBuf) :
    Bool × IrRemote × SBuf :=
  match irtoySend fuel dev rep r c buf with
  | none => (false, r, buf)
  | some x => (x.ret != 0, x.remote, x.buf)

theorem irtoyDriver_transmits (fuel : ℕ) (dev : ToyDevice) (rep : Bool) (r : IrRemote) (c : ℕ)
    (buf : SBuf) : Transmits r (irtoyDriver fuel dev rep r c buf).2.1 := by
  rw [irtoyDriver]
  split
  · exact Transmits.refl r
  · next x hx =>
      obtain ⟨out, -, hout⟩ := Option.bind_eq_some_iff.mp hx
      split at hout
      · obtain rfl := Option.some.inj hout
        exact ⟨_, _, _, _, _, rfl, map_modify_transmitState _ _ _⟩
      · obtain ⟨bytes, -, hbytes⟩ := Option.bind_eq_some_iff.mp hout
        obtain ⟨y, -, rfl⟩ := Option.map_eq_some_iff.mp hbytes
        exact ⟨_, _, _, _, _, rfl, map_modify_transmitState _ _ _⟩

/-- A value other than 0 means a confirmed transmission exactly where the device
owes no answer. -/
theorem irtoySend_confirmed_iff {fuel : ℕ} {dev : ToyDevice} {rep : Bool} {r : IrRemote} {c : ℕ}
    {buf : SBuf} {x : ToySend} (h : irtoySend fuel dev rep r c buf = some x) :
    (x.ret ≠ 0 → Confirmed x.bytes x.exchange) ↔ ∀ e ∈ x.exchange, e.Answered := by
  obtain ⟨out, -, hout⟩ := Option.bind_eq_some_iff.mp h
  split at hout
  · obtain rfl := Option.some.inj hout
    exact iff_of_true (fun h => absurd rfl h) (by simp)
  · obtain ⟨bytes, -, hbytes⟩ := Option.bind_eq_some_iff.mp hout
    obtain ⟨y, hy, rfl⟩ := Option.map_eq_some_iff.mp hbytes
    exact (sendDoubleBuffered_end hy).confirmed_iff

/-! ### The reply -/

/-- The texts that a client is sent. -/
def textsTo (fd : ℕ) (es : List Event) : List (List Char) :=
  es.filterMap fun e => match e with
    | .wrote fd' bytes => if fd' = fd then some bytes else none
    | _ => none

/-- The reply to the client has SUCCESS behind its first line and the message. -/
def ReportsSuccess (fd : ℕ) (d d' : Daemon) : Prop :=
  ∃ es, d'.trace = d.trace ++ es ∧ (textsTo fd es)[2]? = some successString

theorem writeAll_texts (env : Env) (fd : ℕ) (texts : List (List Char)) (d : Daemon) :
    ∃ es, (writeAll env fd texts d).2.trace = d.trace ++ es ∧ textsTo fd es <+: texts := by
  induction texts generalizing d with
  | nil => exact ⟨[], by rw [List.append_nil]; rfl, List.nil_prefix⟩
  | cons bytes texts ih =>
      rw [writeAll, writeSocket]
      split
      · obtain ⟨es, htrace, hes⟩ := ih (d.tick.log (.wrote fd bytes))
        refine ⟨.wrote fd bytes :: es, ?_, ?_⟩
        · show (writeAll env fd texts (d.tick.log (.wrote fd bytes))).2.trace = _
          rw [htrace, Daemon.log, List.append_assoc]
          rfl
        · have hcons : textsTo fd (.wrote fd bytes :: es) = bytes :: textsTo fd es := by
            simp [textsTo]
          rw [hcons]
          exact List.cons_prefix_cons.mpr ⟨rfl, hes⟩
      · exact ⟨[.broken fd], rfl, List.nil_prefix⟩

/-- An error reply has ERROR there. -/
theorem sendError_not_success (env : Env) (fd : ℕ) (message text : List Char) {d d' : Daemon}
    {es : List Event} (hd : d'.trace = d.trace ++ es) (hes : textsTo fd es = []) :
    ¬ReportsSuccess fd d (sendError env fd message text d').2 := by
  rintro ⟨es', htrace, hsuccess⟩
  rw [sendError] at htrace
  obtain ⟨es'', hwrite, htexts⟩ := writeAll_texts env fd
    [beginString, message, errorString, dataString, countLine (text.count '\n'), text, endString]
    ((d'.log (.formatted text (packetSize + 1))).log
      (.formatted (countLine (text.count '\n')) 4))
  rw [hwrite, Daemon.log, Daemon.log, hd] at htrace
  simp only [List.append_assoc, List.append_cancel_left_eq] at htrace
  have hsame : textsTo fd es' = textsTo fd es'' := by
    rw [← htrace]
    simp only [textsTo, List.filterMap_append] at hes ⊢
    rw [hes]
    rfl
  rw [hsame] at hsuccess
  obtain ⟨rest, hrest⟩ := htexts
  have hthird := congrArg (·[2]?) hrest
  simp only [List.getElem?_append, List.getElem?_cons_succ, List.getElem?_cons_zero] at hthird
  have hlen : 2 < (textsTo fd es'').length := (List.getElem?_eq_some_iff.mp hsuccess).1
  rw [if_pos hlen, hsuccess] at hthird
  exact absurd hthird (by decide)

/-- A SEND_ONCE is noted by `send_ir_ncode` and reported as a success only when
the device has confirmed the transmission. -/
def OnlyConfirmed (env : Env) (fd : ℕ) (message : List Char) (arguments : Option (List Char))
    (a c : ℕ) (d : Daemon) (x : ToySend) : Prop :=
  ((firstFrame env a c d).1 = true → Confirmed x.bytes x.exchange) ∧
    (ReportsSuccess fd d (sendOnce env fd message arguments d).2 → Confirmed x.bytes x.exchange)

section Reply

variable {env : Env} {fd : ℕ} {message : List Char} {arguments : Option (List Char)} {a c : ℕ}
  {reps : ℤ} {d : Daemon}

/-- A success is reported at once only for a frame that `send_ir_ncode` has noted. -/
theorem firstFrame_of_success (hmode : env.sendMode ≠ 0)
    (hparse : parseRc env d arguments true 2 = .ok ⟨some a, some c, reps⟩)
    (hidle : d.repeatRemote = none)
    (h : ReportsSuccess fd d (sendOnce env fd message arguments d).2) :
    (firstFrame env a c d).1 = true := by
  by_contra hfailed
  have hsent : (sendIrNcode env a c (startSending a c d)).1 = false :=
    Bool.eq_false_iff.mpr hfailed
  rw [sendOnce, sendCore, if_neg hmode, hparse] at h
  simp only [hidle, Option.isSome_none, Bool.false_eq_true, if_false, sendFirst, hsent] at h
  exact @sendError_not_success env fd message _ _ _
    [.sent ((startSending a c d).heap a) c (startSending a c d).repeatRemote.isSome
      (sendIrNcode env a c (startSending a c d)).1] rfl rfl h

end Reply

/-- A SEND_ONCE through the IR Toy is a success only for a confirmed transmission
exactly where every read of the exchange gets all the bytes it asks for. -/
theorem sendOnce_confirmed_iff (env : Env) (fuel : ℕ) (dev : ℕ → ToyDevice) (fd : ℕ)
    (message : List Char) (arguments : Option (List Char)) (a c : ℕ) (reps : ℤ) (d : Daemon)
    (x : ToySend)
    (hdriver : ∀ n rep r c buf, env.sendFunc n rep r c buf = irtoyDriver fuel (dev n) rep r c buf)
    (hmode : env.sendMode ≠ 0)
    (hparse : parseRc env d arguments true 2 = .ok ⟨some a, some c, reps⟩)
    (hidle : d.repeatRemote = none)
    (hx : irtoySend fuel (dev d.clock) false ((startSending a c d).heap a) c d.sendBuffer =
      some x) :
    OnlyConfirmed env fd message arguments a c d x ↔ ∀ e ∈ x.exchange, e.Answered := by
  have hfirst : (firstFrame env a c d).1 = true ↔ x.ret ≠ 0 := by
    have hrep : (startSending a c d).repeatRemote.isSome = false := by
      show d.repeatRemote.isSome = false
      rw [hidle]
      rfl
    have hsent : (firstFrame env a c d).1 = (env.sendFunc d.clock
        (startSending a c d).repeatRemote.isSome ((startSending a c d).heap a) c
          d.sendBuffer).1 := rfl
    rw [hsent, hdriver, hrep, irtoyDriver, hx]
    simp
  rw [← irtoySend_confirmed_iff hx, OnlyConfirmed, hfirst]
  exact ⟨And.left, fun h => ⟨h, fun hreport =>
    h (hfirst.mp (firstFrame_of_success hmode hparse hidle hreport))⟩⟩

/-- A device that never answers: every write is complete. -/
def silentDevice : ToyDevice where
  write _ bytes := bytes.length
  read _ _ := []
  read_le _ _ := Nat.zero_le _

/-- A system in which nothing fails, with a device that never answers. -/
def silentEnv : Env :=
  { quietEnv with
    sendFunc := fun _ => irtoyDriver 600 silentDevice
    sendFunc_transmits := fun _ => irtoyDriver_transmits 600 silentDevice }

/-- A daemon with one remote and one client. -/
def onceDaemon : Daemon :=
  { emptyDaemon with
    heap := fun _ =>
      { name := "tv".toList
        codes := [{ name := "ok".toList, code := 1 }]
        bits := 1
        flags := spaceEnc
        pone := 500
        sone := 1500
        ptrail := 500
        gap := 100000 }
    remotes := [0]
    clis := fun _ => 7
    clin := 1 }

theorem silentSend_returns : (irtoySend 600 silentDevice false
    ((startSending 0 0 onceDaemon).heap 0) 0 onceDaemon.sendBuffer).isSome = true := by
  decide +kernel

/-- The call of `irtoy_send` for the button. -/
def silentSend : ToySend :=
  (irtoySend 600 silentDevice false ((startSending 0 0 onceDaemon).heap 0) 0
    onceDaemon.sendBuffer).get silentSend_returns

theorem silentSend_exchange : silentSend.exchange =
    [.wrote irtoyCommandTxstart 4, .read 1 []] := by decide +kernel

instance : DecidablePred ToyEvent.Answered
  | .wrote _ _ => .isTrue trivial
  | .read count got => inferInstanceAs (Decidable (got.length = count))

/-- A device with room for five bytes at a time, which counts what it gets. -/
def readyDevice : ToyDevice where
  write _ bytes := bytes.length
  read past count :=
    let sent := (past.flatMap ToyEvent.sentBytes).length - irtoyCommandTxstart.length
    if count = irtoyLenXmitres then
      [irtoyReplyXmitcount, (sent / 256).toUInt8, sent.toUInt8, irtoyReplyXmitsuccess]
    else [5].take count
  read_le past count := by
    split
    · next h => exact h.ge
    · exact List.length_take_le _ _

/-- A system in which nothing fails, with a device that confirms. -/
def readyEnv : Env :=
  { quietEnv with
    sendFunc := fun _ => irtoyDriver 600 readyDevice
    sendFunc_transmits := fun _ => irtoyDriver_transmits 600 readyDevice }

theorem readySend_returns : (irtoySend 600 readyDevice false
    ((startSending 0 0 onceDaemon).heap 0) 0 onceDaemon.sendBuffer).isSome = true := by
  decide +kernel

def readySend : ToySend :=
  (irtoySend 600 readyDevice false ((startSending 0 0 onceDaemon).heap 0) 0
    onceDaemon.sendBuffer).get readySend_returns

/-- The signal goes out in two blocks, and the device confirms it: a success that is
reported. -/
theorem sendOnce_confirmed_ready :
    OnlyConfirmed readyEnv 7 "SEND_ONCE tv ok\n".toList (some "tv ok".toList) 0 0 onceDaemon
        readySend ∧ readySend.ret = 1 ∧ readySend.bytes.length = 8 :=
  ⟨(sendOnce_confirmed_iff readyEnv 600 (fun _ => readyDevice) 7 "SEND_ONCE tv ok\n".toList
    (some "tv ok".toList) 0 0 (-1) onceDaemon readySend (fun _ _ _ _ _ => rfl) (by decide) rfl rfl
    (Option.some_get readySend_returns).symm).mpr (by decide +kernel), by decide +kernel,
    by decide +kernel⟩

/-- The device takes the command and never answers: the value -1 is taken for a
success. -/
theorem sendOnce_unconfirmed : ¬∀ (env : Env) (fuel : ℕ) (dev : ℕ → ToyDevice) (fd : ℕ)
    (message : List Char) (arguments : Option (List Char)) (a c : ℕ) (reps : ℤ) (d : Daemon)
    (x : ToySend),
    (∀ n rep r c buf, env.sendFunc n rep r c buf = irtoyDriver fuel (dev n) rep r c buf) →
      env.sendMode ≠ 0 → parseRc env d arguments true 2 = .ok ⟨some a, some c, reps⟩ →
      d.repeatRemote = none →
      irtoySend fuel (dev d.clock) false ((startSending a c d).heap a) c d.sendBuffer = some x →
      OnlyConfirmed env fd message arguments a c d x := by
  intro h
  have hconfirmed := (h silentEnv 600 (fun _ => silentDevice) 7 "SEND_ONCE tv ok\n".toList
    (some "tv ok".toList) 0 0 (-1) onceDaemon silentSend (fun _ _ _ _ _ => rfl) (by decide) rfl rfl
    (Option.some_get silentSend_returns).symm).1 (by decide +kernel)
  obtain ⟨-, -, past, hi, lo, -, hend⟩ := hconfirmed
  rw [silentSend_exchange] at hend
  have hlast := @List.append_inj' _ [ToyEvent.wrote irtoyCommandTxstart 4] _ _ _ hend rfl
  injection hlast.2 with hread
  injection hread with hcount
  exact absurd hcount (by decide)

end Lirc
