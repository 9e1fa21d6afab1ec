import Lirc.RemainingGap
import Lirc.Relinking

/-!
`calculate_signal_lengths`, the last step of the post-processing. Each frame of a remote
is built in the send buffer by `init_sim`. What is found depends on the buffer in one
way only: a repeat frame is checked with what `data` points to, and for a raw remote
this is set by the codes that have been sent before, if there is one with signals.
-/

namespace Lirc

open Signal

/-! ### The loops -/

/-- The shortest and the longest signal; `none` while `first_sum` holds. -/
abbrev SignalSpan := Option (ℤ × ℤ)

/-- A signal of this length is taken into account. -/
def widen (span : SignalSpan) (sum : ℤ) : SignalSpan :=
  if sum = 0 then span
  else
    match span with
    | none => some (sum, sum)
    | some (lo, hi) => some (if sum < lo then sum else lo, if hi < sum then sum else hi)

section Measuring

variable (r : IrRemote)

/-- `init_sim` for one frame. `none`: `check_send_buffer` reads through a pointer that is
`NULL`. -/
def measureFrame (code : IrNcode) (rep : Bool) (s : SBuf × SignalSpan) :
    Option (SBuf × SignalSpan) :=
  match initSim r code rep s.1 with
  | none => none
  | some out =>
      if cannotSend r = false ∧ out.buf.data = .null ∧ out.buf.wptr ≠ 0 then none
      else some (out.buf, if out.ok then widen s.2 out.buf.sum else s.2)

/-- The frames of one code of a sequence. -/
def measureNode (code : IrNcode) (s : SBuf × SignalSpan) : Option (SBuf × SignalSpan) :=
  (measureFrame r code false s).bind (measureFrame r code true)

/-- The codes of a button: the first one, and the further ones in its place. -/
def sequenceOf (code : IrNcode) : List IrNcode :=
  code :: code.next.map fun c => { code with code := c }

/-- The loop over the buttons, each with its sequence. -/
def measureCodes (codes : List IrNcode) (s : SBuf × SignalSpan) : Option (SBuf × SignalSpan) :=
  (codes.flatMap sequenceOf).foldlM (fun s code => measureNode r code s) s

end Measuring

/-- The fields of a remote that `calculate_signal_lengths` sets. -/
structure SignalLengths where
  minTotalSignalLength : ℤ := 0
  maxTotalSignalLength : ℤ := 0
  minGapLength : ℤ := 0
  maxGapLength : ℤ := 0
  deriving DecidableEq, Repr, Inhabited

/-- The end of `calculate_signal_lengths`. -/
def signalLengths (r : IrRemote) (span : SignalSpan) : SignalLengths :=
  match span with
  | none => ⟨minGap r, maxGap r, minGap r, maxGap r⟩
  | some (lo, hi) =>
      if isConst r then
        ⟨minGap r, maxGap r, if hi < minGap r then minGap r - hi else 0,
          if lo < maxGap r then maxGap r - lo else 0⟩
      else ⟨lo + minGap r, hi + maxGap r, minGap r, maxGap r⟩

/-! ### What depends on the buffer -/

/-- A repeat frame in a buffer that has not been used. -/
def repeatFrame (r : IrRemote) : SBuf :=
  syncSendBuffer (sendParts (startBuffer r initSendBuffer) (repeatParts r))

/-- A repeat frame passes `check_send_buffer`: this is what `data` points to. -/
def repeatPasses (r : IrRemote) (d : DataPtr) : Bool := checkSendBuffer { repeatFrame r with data := d }

/-- What `data` points to after a frame that is no repeat frame; `none` when no frame is
built. -/
def pointerOf (r : IrRemote) (code : IrNcode) : Option DataPtr :=
  if isRaw r then code.signals.map .signals else some .own

/-- The span after a frame that is no repeat frame. -/
def codeSpan (r : IrRemote) (code : IrNcode) (rep : Bool) (span : SignalSpan) : SignalSpan :=
  ((measureFrame r code rep (initSendBuffer, span)).map Prod.snd).getD span

/-- The part of the state that the frames depend on: what `data` points to, and the span. -/
def viewOf (s : SBuf × SignalSpan) : DataPtr × SignalSpan := (s.1.data, s.2)

/-- One frame. -/
def frameStep (r : IrRemote) (code : IrNcode) (rep : Bool) (v : DataPtr × SignalSpan) :
    Option (DataPtr × SignalSpan) :=
  if cannotSend r then some v
  else if rep && hasRepeat r then
    if v.1 = .null then none
    else some (v.1, if repeatPasses r v.1 then widen v.2 (repeatLength r) else v.2)
  else
    match pointerOf r code with
    | none => some v
    | some d => some (d, codeSpan r code rep v.2)

section Views

variable {r : IrRemote} {code : IrNcode} {rep : Bool} {b b' : SBuf} {span : SignalSpan}

theorem checkSendBuffer_alike (h : b.Alike 0 (fun _ => 0) b') (hdata : b'.data = b.data) :
    checkSendBuffer b' = checkSendBuffer b := by
  have hsamples : ∀ i, i < b.wptr → b'.samples.getD i 0 = b.samples.getD i 0 := by
    intro i hi
    cases hd : b.data with
    | own =>
        rw [samples_getD_own hd hi, samples_getD_own (hdata.trans hd) (h.wptr ▸ hi)]
        split
        · next hlt => exact h.arr i hlt hi
        · rfl
    | null => rw [SBuf.samples, SBuf.samples, hdata, hd]
    | signals l => rw [SBuf.samples, SBuf.samples, hdata, hd, h.wptr]
  rw [Bool.eq_iff_iff, checkSendBuffer_iff, checkSendBuffer_iff, h.wptr]
  refine and_congr_right fun _ => forall₂_congr fun i hi => ?_
  rw [hsamples i hi]

/-- The state of a simulation at `init_send_loop`. -/
def simTx (r : IrRemote) (code : IrNcode) : TxState :=
  ⟨r.repeatCountdown, r.toggleMaskState, r.minRemainingGap, r.maxRemainingGap, code.transmitState⟩

theorem initSim_eq (hsend : cannotSend r = false) :
    initSim r code rep b =
      initSendLoop r code true 1 rep (startBuffer r b) (simTx r code) [] := by
  rw [initSim, initSendOrSim, if_neg (by rw [hsend]; exact Bool.false_ne_true)]
  rfl

/-- What a frame in the buffer does to the span. -/
def frameSpan (c : SBuf) (span : SignalSpan) : SignalSpan :=
  if !badSendBuffer c && checkSendBuffer c then widen span c.sum else span

theorem measureFrame_none (hsend : cannotSend r = false)
    (hbuild : buildFrame r code true rep (startBuffer r b) (simTx r code) = none) :
    measureFrame r code rep (b, span) = some (startBuffer r b, span) := by
  rw [measureFrame, initSim_eq hsend, initSendLoop, hbuild]
  exact if_neg fun h => h.2.2 rfl

theorem measureFrame_some {c : SBuf} {tx : TxState} (hsend : cannotSend r = false)
    (hbuild : buildFrame r code true rep (startBuffer r b) (simTx r code) = some (c, tx)) :
    measureFrame r code rep (b, span) =
      if (syncSendBuffer c).data = .null ∧ (syncSendBuffer c).wptr ≠ 0 then none
      else some (syncSendBuffer c, frameSpan (syncSendBuffer c) span) := by
  rw [measureFrame, initSim_eq hsend, initSendLoop, hbuild, frameSpan]
  dsimp only
  cases badSendBuffer (syncSendBuffer c) with
  | true =>
      rw [if_pos rfl]
      dsimp only
      simp only [hsend, true_and, Bool.not_true, Bool.false_and]
  | false =>
      rw [if_neg Bool.false_ne_true, if_pos rfl]
      dsimp only
      simp only [hsend, true_and, Bool.not_false, Bool.true_and]

theorem frameSpan_alike {c c' : SBuf} (h : c.Alike 0 (fun _ => 0) c') (hdata : c'.data = c.data) :
    frameSpan c' span = frameSpan c span := by
  have hbad : badSendBuffer c' = badSendBuffer c := by
    rw [badSendBuffer, badSendBuffer, h.tooLong, h.wptr, h.pendingp]
  rw [frameSpan, frameSpan, hbad, checkSendBuffer_alike h hdata, h.sum]

/-- Over the signals of a raw code the array does not matter. -/
theorem frameSpan_signals {c c' : SBuf} {l : List ℤ} (hdata : c.data = .signals l)
    (harr : ∃ a, c' = { c with arr := a }) :
    frameSpan (syncSendBuffer c') span = frameSpan (syncSendBuffer c) span := by
  obtain ⟨a, rfl⟩ := harr
  obtain ⟨a', ha'⟩ := syncSendBuffer_arr c a
  have hsync : (syncSendBuffer c).data = .signals l := (syncSendBuffer_data c).trans hdata
  have hsamples : ({ syncSendBuffer c with arr := a' } : SBuf).samples =
      (syncSendBuffer c).samples := by
    rw [SBuf.samples, SBuf.samples, hsync]
  rw [ha', frameSpan, frameSpan, checkSendBuffer, checkSendBuffer, hsamples]
  rfl

/-- A repeat frame is the same in every buffer. -/
theorem repeatFrame_alike (r : IrRemote) (b : SBuf) :
    (repeatFrame r).Alike 0 (fun _ => 0)
      (syncSendBuffer (sendParts (startBuffer r b) (repeatParts r))) :=
  (((startBuffer_alike r (fun _ => 0) initSendBuffer b).sendParts (Nat.zero_le _)
    (repeatParts r)).syncSendBuffer (Nat.zero_le _) (.inl rfl)).1

theorem repeatFrame_sum (hr : hasRepeat r = true) : (repeatFrame r).sum = repeatLength r := by
  rw [repeatFrame, syncSendBuffer_eq, (dropSpace_frame _).2.2.2.2]
  exact sendParts_repeatParts_sum hr (startBuffer_rested r initSendBuffer) (startBuffer_repeat_fits r initSendBuffer)

theorem repeatFrame_wptr (hr : hasRepeat r = true) : (repeatFrame r).wptr ≠ 0 := by
  have hpos := sendParts_repeatParts_pos hr (b := startBuffer r initSendBuffer)
    (.inl (Int.le_refl 0))
  obtain ⟨-, hwpos⟩ := dropSpace_odd (Nat.lt_of_lt_of_le hpos (le_closePulse_wptr _))
  exact Nat.ne_of_gt hwpos

theorem repeatPasses_alike (r : IrRemote) (b : SBuf) :
    checkSendBuffer (syncSendBuffer (sendParts (startBuffer r b) (repeatParts r))) =
      repeatPasses r b.data := by
  obtain ⟨hw, hl, hi, hp, hs, hsum, harr⟩ := repeatFrame_alike r b
  have halike : ({ repeatFrame r with data := b.data } : SBuf).Alike 0 (fun _ => 0)
      (syncSendBuffer (sendParts (startBuffer r b) (repeatParts r))) :=
    ⟨hw, hl, hi, hp, hs, hsum, harr⟩
  refine checkSendBuffer_alike halike ?_
  rw [syncSendBuffer_data, sendParts_data]
  rfl

/-- A frame that is not a repeat frame leaves the same in every buffer. -/
theorem buildFrame_alike (hrep : (rep && hasRepeat r) = false) (b : SBuf) :
    (buildFrame r code true rep (startBuffer r b) (simTx r code) = none ∧
        pointerOf r code = none) ∨
      ∃ c c' tx d, buildFrame r code true rep (startBuffer r initSendBuffer) (simTx r code) =
          some (c, tx) ∧
        buildFrame r code true rep (startBuffer r b) (simTx r code) = some (c', tx) ∧
        (∀ span, frameSpan (syncSendBuffer c') span = frameSpan (syncSendBuffer c) span) ∧
        c.data = d ∧ c'.data = d ∧ pointerOf r code = some d := by
  have hstart := startBuffer_alike r (fun _ => 0) initSendBuffer b
  cases hraw : isRaw r with
  | false =>
      refine .inr ⟨_, _, _, .own, buildFrame_code hraw code true hrep _ _,
        buildFrame_code hraw code true hrep _ _, fun span => ?_, rfl, rfl, ?_⟩
      · have halike := (hstart.sendParts (Nat.zero_le _) (codeParts
          (r.withToggle (simTx r code).toggleMaskState)
          (nextCode code true (simTx r code).transmitState) rep)).adjusted
            (sumCorrection r rep) .own .own
        refine frameSpan_alike (halike.syncSendBuffer (Nat.zero_le _) (.inl rfl)).1 ?_
        rw [syncSendBuffer_data, syncSendBuffer_data]
        rfl
      · rw [pointerOf, hraw]
        rfl
  | true =>
      simp only [buildFrame, hrep, hraw, pointerOf, Bool.false_eq_true, if_false, Bool.not_true,
        if_true]
      cases hsignals : code.signals with
      | none => exact .inl ⟨rfl, rfl⟩
      | some signals =>
          refine .inr ⟨_, _, _, .signals signals, rfl, rfl, fun span => ?_, rfl, rfl, rfl⟩
          obtain ⟨a, d, hb⟩ := hstart.aligned
          rw [hb]
          exact frameSpan_signals (l := signals) rfl ⟨a, rfl⟩

/-- What a frame leaves depends on the buffer through `data` alone. -/
theorem measureFrame_view (r : IrRemote) (code : IrNcode) (rep : Bool) (s : SBuf × SignalSpan) :
    (measureFrame r code rep s).map viewOf = frameStep r code rep (viewOf s) := by
  obtain ⟨b, span⟩ := s
  cases hsend : cannotSend r with
  | true =>
      rw [frameStep, if_pos hsend, measureFrame, initSim, initSendOrSim, if_pos hsend]
      dsimp only
      rw [if_neg (by rw [hsend]; simp)]
      rfl
  | false =>
      rw [frameStep, if_neg (by rw [hsend]; exact Bool.false_ne_true)]
      cases hrep : rep && hasRepeat r with
      | true =>
          have hr := ((Bool.and_eq_true _ _).mp hrep).2
          rw [measureFrame_some hsend (buildFrame_repeat code true hrep _ _), if_pos rfl]
          have halike := repeatFrame_alike r b
          have hdata : (syncSendBuffer (sendParts (startBuffer r b) (repeatParts r))).data = b.data := by
            rw [syncSendBuffer_data, sendParts_data]
            rfl
          have hwptr := halike.wptr ▸ repeatFrame_wptr hr
          rw [frameSpan, badSendBuffer_sync, startBuffer_repeat_fits, repeatPasses_alike, halike.sum,
            repeatFrame_sum hr, hdata]
          by_cases hnull : b.data = .null
          · rw [if_pos ⟨hnull, hwptr⟩]
            exact (if_pos hnull).symm
          · rw [if_neg fun h => hnull h.1]
            refine Eq.trans ?_ (if_neg hnull).symm
            show some ((syncSendBuffer (sendParts (startBuffer r b) (repeatParts r))).data, _) = _
            rw [hdata]
            rfl
      | false =>
          rw [if_neg Bool.false_ne_true]
          rcases @buildFrame_alike r code rep hrep b with ⟨hbuild, hpointer⟩ |
            ⟨c, c', tx, d, hbuild, hbuild', hspan, hc, hc', hpointer⟩
          · rw [measureFrame_none hsend hbuild, hpointer]
            rfl
          · have hne : d ≠ .null := by
              rintro rfl
              rw [pointerOf] at hpointer
              split at hpointer
              · obtain ⟨l, -, hl⟩ := Option.map_eq_some_iff.mp hpointer
                cases hl
              · cases hpointer
            have hdata : (syncSendBuffer c).data = d := (syncSendBuffer_data c).trans hc
            have hdata' : (syncSendBuffer c').data = d := (syncSendBuffer_data c').trans hc'
            rw [measureFrame_some hsend hbuild', if_neg fun h => hne (hdata' ▸ h.1), hpointer,
              codeSpan, measureFrame_some hsend hbuild, if_neg fun h => hne (hdata ▸ h.1)]
            show some ((syncSendBuffer c').data, _) = _
            rw [hdata', hspan]
            rfl

end Views

/-! ### The frames of a remote -/

/-- The frames of one code of a sequence. -/
def nodeStep (r : IrRemote) (code : IrNcode) (v : DataPtr × SignalSpan) :
    Option (DataPtr × SignalSpan) :=
  (frameStep r code false v).bind (frameStep r code true)

/-- All frames of a remote. -/
def codesStep (r : IrRemote) (codes : List IrNcode) (v : DataPtr × SignalSpan) :
    Option (DataPtr × SignalSpan) :=
  (codes.flatMap sequenceOf).foldlM (fun v code => nodeStep r code v) v

/-- Steps that agree on a part of the state lead to states that do. -/
theorem foldlM_view {σ τ α : Type} {f : σ → α → Option σ} {g : τ → α → Option τ} (view : σ → τ)
    (h : ∀ s a, (f s a).map view = g (view s) a) (l : List α) (s : σ) :
    (l.foldlM f s).map view = l.foldlM g (view s) := by
  induction l generalizing s with
  | nil => rfl
  | cons a l ih =>
      rw [List.foldlM_cons, List.foldlM_cons, ← h]
      cases f s a with
      | none => rfl
      | some s' => exact ih s'

theorem measureCodes_view (r : IrRemote) (codes : List IrNcode) (s : SBuf × SignalSpan) :
    (measureCodes r codes s).map viewOf = codesStep r codes (viewOf s) := by
  refine foldlM_view viewOf (fun s code => ?_) _ s
  rw [measureNode, nodeStep, ← measureFrame_view]
  cases measureFrame r code false s with
  | none => rfl
  | some s' => exact measureFrame_view r code true s'

section Remote

variable {r : IrRemote} {code : IrNcode} {codes : List IrNcode} {d : DataPtr}

theorem pointerOf_sequence : ∀ node ∈ sequenceOf code, pointerOf r node = pointerOf r code := by
  intro node hnode
  rcases List.mem_cons.mp hnode with rfl | hnode
  · rfl
  · obtain ⟨c, -, rfl⟩ := List.mem_map.mp hnode
    rfl

theorem pointerOf_ne_null (h : pointerOf r code = some d) : d ≠ .null := by
  rintro rfl
  rw [pointerOf] at h
  split at h
  · obtain ⟨l, -, hl⟩ := Option.map_eq_some_iff.mp h
    cases hl
  · cases h

/-- The span after the frames of a code that sets the pointer. -/
def nodeSpan (r : IrRemote) (code : IrNcode) (d : DataPtr) (span : SignalSpan) : SignalSpan :=
  let span := codeSpan r code false span
  if hasRepeat r then if repeatPasses r d then widen span (repeatLength r) else span
  else codeSpan r code true span

theorem nodeStep_sets (hsend : cannotSend r = false) (hpointer : pointerOf r code = some d)
    (v : DataPtr × SignalSpan) : nodeStep r code v = some (d, nodeSpan r code d v.2) := by
  have hfirst : frameStep r code false v = some (d, codeSpan r code false v.2) := by
    rw [frameStep, if_neg (by rw [hsend]; exact Bool.false_ne_true), Bool.false_and,
      if_neg Bool.false_ne_true, hpointer]
  rw [nodeStep, hfirst, Option.bind_some, frameStep,
    if_neg (by rw [hsend]; exact Bool.false_ne_true), Bool.true_and, nodeSpan]
  dsimp only
  cases hasRepeat r with
  | true => rw [if_pos rfl, if_neg (pointerOf_ne_null hpointer), if_pos rfl]
  | false =>
      rw [if_neg Bool.false_ne_true, hpointer, if_neg Bool.false_ne_true]

/-- Where each code sets the pointer, the last one counts, and the span does not depend on
what was there before. -/
theorem foldlM_sets (hsend : cannotSend r = false) (l : List IrNcode)
    (hset : ∀ code ∈ l, (pointerOf r code).isSome = true) (hne : l ≠ []) (span : SignalSpan) :
    ∃ span', ∀ d, l.foldlM (fun v code => nodeStep r code v) (d, span) =
      some (((l.getLast?).bind (pointerOf r)).getD d, span') := by
  induction l generalizing span with
  | nil => exact absurd rfl hne
  | cons code l ih =>
      obtain ⟨p, hp⟩ := Option.isSome_iff_exists.mp (hset code List.mem_cons_self)
      cases l with
      | nil =>
          refine ⟨nodeSpan r code p span, fun d => ?_⟩
          rw [List.foldlM_cons, nodeStep_sets hsend hp]
          show some (p, nodeSpan r code p span) = some ((pointerOf r code).getD d, _)
          rw [hp]
          rfl
      | cons code' l =>
          obtain ⟨span', hrest⟩ := ih (fun c hc => hset c (List.mem_cons_of_mem code hc))
            (List.cons_ne_nil _ _) (nodeSpan r code p span)
          refine ⟨span', fun d => ?_⟩
          have hlast : (code :: code' :: l).getLast? = (code' :: l).getLast? := rfl
          have hmem := List.getLast_mem (List.cons_ne_nil code' l)
          obtain ⟨q, hq⟩ := Option.isSome_iff_exists.mp (hset _ (List.mem_cons_of_mem code hmem))
          rw [List.foldlM_cons, nodeStep_sets hsend hp]
          refine (hrest p).trans ?_
          rw [hlast, List.getLast?_eq_some_getLast (List.cons_ne_nil code' l), Option.bind_some, hq]
          rfl

theorem pointerOf_last (r : IrRemote) (codes : List IrNcode) :
    ((codes.flatMap sequenceOf).getLast?).bind (pointerOf r) =
      (codes.getLast?).bind (pointerOf r) := by
  rcases List.eq_nil_or_concat codes with rfl | ⟨front, code, rfl⟩
  · rfl
  · have hne : sequenceOf code ≠ [] := List.cons_ne_nil _ _
    have hmem := List.getLast_mem hne
    rw [List.concat_eq_append, List.flatMap_append, List.flatMap_singleton,
      List.getLast?_append_of_ne_nil _ hne, List.getLast?_eq_some_getLast hne,
      List.getLast?_append_of_ne_nil _ (List.cons_ne_nil code []), Option.bind_some,
      pointerOf_sequence _ hmem]
    rfl

end Remote

/-- A raw remote with a repeat code, but no signals: its repeat frames are checked with what
other remotes have left. -/
def borrows (r : IrRemote) : Bool :=
  isRaw r && hasRepeat r && !r.codes.isEmpty && r.codes.all (·.signals.isNone)

/-- The codes are from one section: all of a raw remote have signals, or none has. -/
def UniformCodes (r : IrRemote) : Prop :=
  isRaw r = true → (∀ code ∈ r.codes, code.signals.isNone = true) ∨
    ∀ code ∈ r.codes, code.signals.isSome = true

/-- What `data` points to after a remote. -/
def leaves (r : IrRemote) (d : DataPtr) : DataPtr :=
  if cannotSend r then d else ((r.codes.getLast?).bind (pointerOf r)).getD d

section Remote

variable {r : IrRemote} {d : DataPtr}

theorem repeatLength_pos (hr : hasRepeat r = true) : 0 < repeatLength r := by
  obtain ⟨hp, hs⟩ := (Bool.and_eq_true _ _).mp hr
  have hp := of_decide_eq_true hp
  have hs := of_decide_eq_true hs
  have hlead := le_max_right r.plead 0
  have htrail := le_max_right r.ptrail 0
  have hheader : 0 ≤ if r.has repeatHeader && hasHeader r then r.phead + r.shead else 0 := by
    split
    · next h =>
        obtain ⟨hph, hsh⟩ := (Bool.and_eq_true _ _).mp ((Bool.and_eq_true _ _).mp h).2
        have hph := of_decide_eq_true hph
        have hsh := of_decide_eq_true hsh
        omega
    · exact le_rfl
  have htrail : 0 ≤ if r.ptrail ≠ 0 then r.srepeat + max r.ptrail 0 else 0 := by
    split
    · exact Int.add_nonneg hs.le htrail
    · exact le_rfl
  rw [repeatLength]
  omega

/-- A raw remote can be sent. -/
theorem cannotSend_of_raw (hraw : isRaw r = true) : cannotSend r = false := by
  have hother : ∀ p, rawCodes ≠ p → r.protocolIs p = false := fun p hp =>
    protocolIs_unique hraw hp
  simp only [cannotSend, isGrundig, isGoldstar, isSerial, isBo, hother _ (by decide : rawCodes ≠ grundig),
    hother _ (by decide : rawCodes ≠ goldstar), hother _ (by decide : rawCodes ≠ serial),
    hother _ (by decide : rawCodes ≠ bo), Bool.or_false]

theorem nodeStep_bare {code : IrNcode} (hsend : cannotSend r = false)
    (hpointer : pointerOf r code = none) (v : DataPtr × SignalSpan) :
    nodeStep r code v = frameStep r code true v := by
  have hfirst : frameStep r code false v = some v := by
    rw [frameStep, if_neg (by rw [hsend]; exact Bool.false_ne_true), Bool.false_and,
      if_neg Bool.false_ne_true, hpointer]
  rw [nodeStep, hfirst, Option.bind_some]

theorem foldlM_id (l : List IrNcode) (v : DataPtr × SignalSpan)
    (h : ∀ code ∈ l, nodeStep r code v = some v) :
    l.foldlM (fun v code => nodeStep r code v) v = some v := by
  induction l with
  | nil => rfl
  | cons code l ih =>
      rw [List.foldlM_cons, h code List.mem_cons_self]
      exact ih fun c hc => h c (List.mem_cons_of_mem code hc)

theorem pointerOf_isNone (hraw : isRaw r = true) (hbare : ∀ code ∈ r.codes, code.signals.isNone = true) :
    ∀ node ∈ r.codes.flatMap sequenceOf, pointerOf r node = none := by
  intro node hnode
  obtain ⟨code, hcode, hnode⟩ := List.mem_flatMap.mp hnode
  rw [pointerOf_sequence node hnode, pointerOf, if_pos hraw, Option.map_eq_none_iff]
  exact Option.isNone_iff_eq_none.mp (hbare code hcode)

theorem pointerOf_isSome (hset : isRaw r = true → ∀ code ∈ r.codes, code.signals.isSome = true) :
    ∀ node ∈ r.codes.flatMap sequenceOf, (pointerOf r node).isSome = true := by
  intro node hnode
  obtain ⟨code, hcode, hnode⟩ := List.mem_flatMap.mp hnode
  rw [pointerOf_sequence node hnode, pointerOf]
  split
  · next hraw =>
      rw [Option.isSome_map]
      exact hset hraw code hcode
  · rfl

/-- What is found does not depend on what `data` points to, unless the remote borrows it. -/
theorem codesStep_fixed (huniform : UniformCodes r) (h : borrows r = false) :
    ∃ span, ∀ d, codesStep r r.codes (d, none) = some (leaves r d, span) := by
  cases hsend : cannotSend r with
  | true =>
      refine ⟨none, fun d => ?_⟩
      rw [leaves, if_pos hsend]
      refine foldlM_id _ _ fun code _ => ?_
      rw [nodeStep, frameStep, if_pos hsend, Option.bind_some, frameStep, if_pos hsend]
  | false =>
      have hleaves : ∀ d, leaves r d =
          (((r.codes.flatMap sequenceOf).getLast?).bind (pointerOf r)).getD d := fun d => by
        rw [leaves, if_neg (by rw [hsend]; exact Bool.false_ne_true), pointerOf_last]
      by_cases hbare : isRaw r = true ∧ ∀ code ∈ r.codes, code.signals.isNone = true
      · obtain ⟨hraw, hbare⟩ := hbare
        have hnone := pointerOf_isNone hraw hbare
        refine ⟨none, fun d => ?_⟩
        have hkept : leaves r d = d := by
          rw [hleaves]
          cases hlast : (r.codes.flatMap sequenceOf).getLast? with
          | none => rfl
          | some node =>
              rw [Option.bind_some, hnone node (List.mem_of_getLast? hlast)]
              rfl
        rw [hkept]
        refine foldlM_id _ _ fun node hnode => ?_
        rw [nodeStep_bare hsend (hnone node hnode), frameStep,
          if_neg (by rw [hsend]; exact Bool.false_ne_true), Bool.true_and, hnone node hnode]
        -- without a repeat code nothing is built
        have hrepeat : hasRepeat r = false := by
          rw [← Bool.not_eq_true]
          intro hr
          have hne : r.codes.isEmpty = false := by
            rw [List.isEmpty_eq_false_iff]
            intro hnil
            rw [hnil] at hnode
            cases hnode
          rw [borrows, hraw, hr, hne, List.all_eq_true.mpr hbare] at h
          cases h
        rw [hrepeat]
        rfl
      · by_cases hnil : r.codes = []
        · refine ⟨none, fun d => ?_⟩
          rw [hleaves, codesStep, hnil]
          rfl
        · have hset : isRaw r = true → ∀ code ∈ r.codes, code.signals.isSome = true := fun hraw =>
            (huniform hraw).resolve_left fun hall => hbare ⟨hraw, hall⟩
          have hne : r.codes.flatMap sequenceOf ≠ [] := by
            obtain ⟨code, rest, hcodes⟩ := List.exists_cons_of_ne_nil hnil
            rw [hcodes]
            exact List.cons_ne_nil _ _
          obtain ⟨span, hspan⟩ := foldlM_sets hsend _ (pointerOf_isSome hset) hne none
          exact ⟨span, fun d => by rw [hleaves]; exact hspan d⟩

theorem frameStep_borrows (h : borrows r = true) (code : IrNcode) (v : DataPtr × SignalSpan) :
    frameStep r code true v =
      if v.1 = .null then none
      else some (v.1, if repeatPasses r v.1 then widen v.2 (repeatLength r) else v.2) := by
  simp only [borrows, Bool.and_eq_true] at h
  obtain ⟨⟨⟨hraw, hr⟩, -⟩, -⟩ := h
  rw [frameStep, cannotSend_of_raw hraw, if_neg Bool.false_ne_true, hr, Bool.true_and, if_pos rfl]

theorem codesStep_borrows (h : borrows r = true) (d : DataPtr) :
    codesStep r r.codes (d, none) =
      if d = .null then none
      else some (d, if repeatPasses r d then some (repeatLength r, repeatLength r) else none) := by
  have hborrows := h
  simp only [borrows, Bool.and_eq_true, Bool.not_eq_true', List.isEmpty_eq_false_iff,
    List.all_eq_true] at h
  obtain ⟨⟨⟨hraw, hr⟩, hne⟩, hbare⟩ := h
  have hnone := pointerOf_isNone hraw hbare
  have hsend := cannotSend_of_raw hraw
  have hpos := repeatLength_pos hr
  have hstep : ∀ node ∈ r.codes.flatMap sequenceOf, ∀ v, nodeStep r node v =
      if v.1 = .null then none
      else some (v.1, if repeatPasses r v.1 then widen v.2 (repeatLength r) else v.2) :=
    fun node hnode v =>
      (nodeStep_bare hsend (hnone node hnode) v).trans (frameStep_borrows hborrows node v)
  have hfirst : widen none (repeatLength r) = some (repeatLength r, repeatLength r) :=
    if_neg hpos.ne'
  have hagain : widen (some (repeatLength r, repeatLength r)) (repeatLength r) =
      some (repeatLength r, repeatLength r) := by
    rw [widen, if_neg hpos.ne', if_neg (lt_irrefl _)]
  obtain ⟨code, rest, hcodes⟩ := List.exists_cons_of_ne_nil hne
  have hflat : r.codes.flatMap sequenceOf =
      code :: ((code.next.map fun c => { code with code := c }) ++ rest.flatMap sequenceOf) := by
    rw [hcodes]
    rfl
  rw [codesStep]
  rw [hflat] at hstep ⊢
  rw [List.foldlM_cons, hstep code List.mem_cons_self]
  dsimp only
  by_cases hnull : d = .null
  · rw [if_pos hnull, if_pos hnull]
    rfl
  · rw [if_neg hnull, if_neg hnull, Option.bind_eq_bind, Option.bind_some, hfirst]
    refine foldlM_id _ _ fun node hnode => ?_
    rw [hstep node (List.mem_cons_of_mem code hnode)]
    dsimp only
    rw [if_neg hnull]
    split
    · rw [hagain]
    · rfl

theorem leaves_borrows (h : borrows r = true) (d : DataPtr) : leaves r d = d := by
  simp only [borrows, Bool.and_eq_true, Bool.not_eq_true', List.isEmpty_eq_false_iff,
    List.all_eq_true] at h
  obtain ⟨⟨⟨hraw, -⟩, -⟩, hbare⟩ := h
  rw [leaves, if_neg (by rw [cannotSend_of_raw hraw]; exact Bool.false_ne_true)]
  cases hlast : r.codes.getLast? with
  | none => rfl
  | some code =>
      rw [Option.bind_some, pointerOf, if_pos hraw, Option.isNone_iff_eq_none.mp
        (hbare code (List.mem_of_getLast? hlast))]
      rfl

end Remote

end Lirc
