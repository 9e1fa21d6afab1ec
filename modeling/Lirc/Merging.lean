import Lirc.Waveform

/-!
The send buffer as a run-length form of the pulses and spaces that are sent. A part
without length closes the pending sample of the other level, and a later part of
the level that was pending then starts a sample of its own. Apart from this the
samples and what is pending are the parts with a length, adjacent ones of a level
added up, from the first pulse on.
-/

namespace Lirc

open Signal

/-! ### The canonical form -/

/-- The samples of a signal with the last one, which is still open. -/
def mergeFrom (cur : Part) : List Part → List Part
  | [] => [cur]
  | p :: ps =>
      if p.high = cur.high then mergeFrom ⟨cur.high, cur.len + p.len⟩ ps
      else cur :: mergeFrom p ps

/-- Adjacent parts of a level are one part. -/
def merge : List Part → List Part
  | [] => []
  | p :: ps => mergeFrom p ps

/-- The parts that have a length. -/
def withLength (ps : List Part) : List Part := ps.filter fun p => decide (0 < p.len)

/-- The alternating list of pulses and spaces: without the spaces at the beginning,
without parts that have no length, and with adjacent parts of a level added up. -/
def canonical (ps : List Part) : List Part := merge ((withLength ps).dropWhile fun p => !p.high)

/-- The samples in the buffer's own array, and what is pending. -/
def SBuf.signal (b : SBuf) : List Part :=
  alternate true b.content ++ ((if 0 < b.pendingp then [pulse b.pendingp] else []) ++
    if 0 < b.pendings then [space b.pendings] else [])

/-- After a part of the level `last` that has a length another one of this level
comes, and only parts without length are between them, `cut` or one of these at the
other level. -/
def interrupted : Bool → Bool → List Part → Bool
  | _, _, [] => false
  | last, cut, p :: ps =>
      if p.len = 0 then interrupted last (cut || p.high != last) ps
      else p.high == last && cut || interrupted p.high false ps

/-- From the first pulse that has a length on, two parts of one level with a length
have only parts without length between them, one of these at the other level. -/
def splitsSample (ps : List Part) : Bool :=
  match ps.dropWhile fun p => !(p.high && decide (0 < p.len)) with
  | [] => false
  | _ :: ps => interrupted true false ps

theorem mergeFrom_head {ps : List Part} (hps : ∀ p ∈ ps, 0 ≤ p.len) (cur : Part) :
    ∃ first rest, mergeFrom cur ps = first :: rest ∧ cur.len ≤ first.len := by
  induction ps generalizing cur with
  | nil => exact ⟨cur, [], rfl, le_rfl⟩
  | cons p ps ih =>
      rw [mergeFrom]
      split
      · obtain ⟨first, rest, hmerge, hle⟩ :=
          ih (fun q hq => hps q (List.mem_cons_of_mem _ hq)) ⟨cur.high, cur.len + p.len⟩
        have hp := hps p List.mem_cons_self
        refine ⟨first, rest, hmerge, ?_⟩
        simp only at hle
        omega
      · exact ⟨cur, _, rfl, le_rfl⟩

/-! ### What one part adds -/

theorem SBuf.Extended.of_pending {b b' : SBuf} {ws : List ℤ} (h : b.Extended b' ws)
    (pendingp pendings : ℤ) :
    b.Extended { b' with pendingp := pendingp, pendings := pendings } ws :=
  ⟨⟨h.sound.wptr_le⟩, h.content, h.wptr, h.sum, h.data⟩

/-- A part adds samples, and changes none that are there. -/
theorem sendPart_extends {b : SBuf} (hb : b.Sound) (p : Part)
    (hfit : (sendPart b p).tooLong = false) : ∃ ws, b.Extended (sendPart b p) ws := by
  rw [sendPart] at hfit ⊢
  split at hfit
  · next hhigh =>
      rw [if_pos hhigh]
      rw [sendPulse] at hfit ⊢
      split at hfit
      · next hpending =>
          rw [if_pos hpending]
          exact ⟨[], hb.extended_nil.of_pending _ _⟩
      · next hpending =>
          rw [if_neg hpending]
          dsimp only at hfit ⊢
          split at hfit
          · next hspace =>
              rw [if_pos hspace]
              exact ⟨_, (addSendBuffer_extended hb hfit).of_pending _ _⟩
          · next hspace =>
              rw [if_neg hspace]
              exact ⟨[], hb.extended_nil.of_pending _ _⟩
  · next hlow =>
      rw [if_neg hlow]
      rw [sendSpace] at hfit ⊢
      split at hfit
      · next hstart =>
          rw [if_pos hstart]
          exact ⟨[], hb.extended_nil⟩
      · next hstart =>
          rw [if_neg hstart]
          split at hfit
          · next hpending =>
              rw [if_pos hpending]
              exact ⟨[], hb.extended_nil.of_pending _ _⟩
          · next hpending =>
              rw [if_neg hpending]
              dsimp only at hfit ⊢
              split at hfit
              · next hpulse =>
                  rw [if_pos hpulse]
                  exact ⟨_, (addSendBuffer_extended hb hfit).of_pending _ _⟩
              · next hpulse =>
                  rw [if_neg hpulse]
                  exact ⟨[], hb.extended_nil.of_pending _ _⟩

theorem sendPart_keeps {b : SBuf} {p : Part} {ps : List Part}
    (hfit : (sendParts b (p :: ps)).tooLong = false) : (sendPart b p).tooLong = false := by
  by_contra hlong
  have hlater := sendParts_tooLong ps (Bool.not_eq_false _ ▸ hlong)
  rw [sendParts_cons, hlater] at hfit
  cases hfit

theorem sendParts_extends {b : SBuf} (hb : b.Sound) (ps : List Part)
    (hfit : (sendParts b ps).tooLong = false) : ∃ ws, b.Extended (sendParts b ps) ws := by
  induction ps generalizing b with
  | nil => exact ⟨[], hb.extended_nil⟩
  | cons p ps ih =>
      obtain ⟨ws, hfirst⟩ := sendPart_extends hb p (sendPart_keeps hfit)
      obtain ⟨vs, hrest⟩ := ih hfirst.sound hfit
      exact ⟨ws ++ vs, hfirst.trans hrest⟩

/-- The sample `cur` is pending after the samples `done`, or `cut` is set and the
sample has been added to them. -/
structure SBuf.Sending (b : SBuf) (done : List ℤ) (cur : Part) (cut : Bool) : Prop where
  sound : b.Sound
  pos : 0 < cur.len
  parity : done.length % 2 = if cur.high then 0 else 1
  content : b.content = if cut then done ++ [cur.len] else done
  pendingp : b.pendingp = if !cut && cur.high then cur.len else 0
  pendings : b.pendings = if !cut && !cur.high then cur.len else 0

section Sending

variable {b : SBuf} {done : List ℤ} {cur : Part} {cut : Bool}

theorem SBuf.Sending.wptr_pos (h : b.Sending done cur cut) (hlow : cur.high = false ∨ cut = true) :
    0 < b.wptr := by
  rw [← h.sound.content_length, h.content]
  obtain hlow | hcut := hlow
  · have hodd := h.parity
    rw [hlow, if_neg Bool.false_ne_true] at hodd
    split
    · rw [List.length_append, List.length_singleton]
      omega
    · omega
  · rw [if_pos hcut, List.length_append, List.length_singleton]
    omega

theorem SBuf.Sending.opened (h : b.Sending done cur false) : b.Opened cur where
  pos := h.pos
  pendingp := h.pendingp
  pendings := by
    rw [h.pendings]
    cases cur.high with
    | true => rfl
    | false => rfl
  wptr_pos := fun hlow => h.wptr_pos (.inl hlow)

/-- The buffer after a sample has been pending. -/
theorem SBuf.Sending.of_opened {done : List ℤ} (hsound : b.Sound) (hopen : b.Opened cur)
    (hparity : done.length % 2 = if cur.high then 0 else 1) (hcontent : b.content = done) :
    b.Sending done cur false where
  sound := hsound
  pos := hopen.pos
  parity := hparity
  content := hcontent
  pendingp := hopen.pendingp
  pendings := by
    rw [hopen.pendings]
    cases cur.high with
    | true => rfl
    | false => rfl

/-- The signal so far. -/
theorem SBuf.Sending.signal (h : b.Sending done cur cut) :
    b.signal = alternate true done ++ [cur] := by
  obtain ⟨high, len⟩ := cur
  have hpos := h.pos
  have hparity := h.parity
  rw [SBuf.signal, h.content, h.pendingp, h.pendings]
  cases cut with
  | true =>
      rw [if_pos rfl, alternate_append, hparity]
      cases high with
      | true => simp
      | false => simp
  | false =>
      rw [if_neg Bool.false_ne_true]
      simp only at hpos
      cases high with
      | true => simp [hpos]
      | false => simp [hpos]

/-- A part without length changes nothing when its level is pending, or none is. -/
theorem SBuf.Sending.zero_keeps (h : b.Sending done cur cut) (high : Bool)
    (hkeeps : high = cur.high ∨ cut = true) : sendPart b ⟨high, 0⟩ = b := by
  obtain ⟨level, len⟩ := cur
  obtain ⟨-, hpos, -, -, hp, hs⟩ := h
  have hidle : cut = true → b.pendingp = 0 ∧ b.pendings = 0 := by
    rintro rfl
    exact ⟨hp, hs⟩
  cases cut with
  | true =>
      obtain ⟨hp', hs'⟩ := hidle rfl
      obtain ⟨data, arr, wptr, tooLong, isBiphase, pendingp, pendings, sum⟩ := b
      subst hp' hs'
      cases high with
      | true => rfl
      | false =>
          show sendSpace _ 0 = _
          rw [sendSpace]
          split
          · rfl
          · rfl
  | false =>
      have heq : high = level := hkeeps.resolve_right Bool.false_ne_true
      subst heq
      obtain ⟨data, arr, wptr, tooLong, isBiphase, pendingp, pendings, sum⟩ := b
      cases high with
      | true =>
          simp only [Bool.not_false, Bool.and_self, if_true] at hp hpos
          show sendPulse _ 0 = _
          simp [sendPulse, hp, hpos]
      | false =>
          simp only [Bool.not_false, Bool.and_self, if_true] at hs hpos
          show sendSpace _ 0 = _
          simp [sendSpace, hs, hpos]

/-- A part without length at the other level closes the sample that is pending. -/
theorem SBuf.Sending.zero_cuts (h : b.Sending done cur false)
    (hfit : (sendPart b ⟨!cur.high, 0⟩).tooLong = false) :
    (sendPart b ⟨!cur.high, 0⟩).Sending done cur true := by
  obtain ⟨level, len⟩ := cur
  obtain ⟨hsound, hpos, hparity, hcontent, hp, hs⟩ := h
  have hclosed : ∀ b' : SBuf, b' = { addSendBuffer b len with pendings := 0, pendingp := 0 } →
      b'.tooLong = false → b'.Sending done ⟨level, len⟩ true := by
    rintro b' rfl hlong
    obtain ⟨hsound', hcontent', -, -, -⟩ := addSendBuffer_extended hsound hlong
    refine ⟨⟨hsound'.wptr_le⟩, hpos, hparity, ?_, rfl, rfl⟩
    rw [if_pos rfl]
    exact hcontent'.trans (congrArg (· ++ [len]) hcontent)
  apply hclosed _ _ hfit
  cases level with
  | true =>
      simp only [Bool.not_false, Bool.and_self, if_true] at hp hpos
      simp only [Bool.not_true, Bool.and_false, Bool.false_eq_true, if_false] at hs
      have hstart : ¬(b.wptr = 0 ∧ b.pendingp = 0) := by omega
      show sendSpace b 0 = _
      rw [sendSpace, if_neg hstart, hs, if_neg (lt_irrefl 0), hp, if_pos hpos]
  | false =>
      simp only [Bool.not_false, Bool.and_self, if_true] at hs hpos
      simp only [Bool.and_false, Bool.false_eq_true, if_false] at hp
      show sendPulse b 0 = _
      rw [sendPulse, hp, if_neg (lt_irrefl 0), hs, if_pos hpos]

/-- A part of the other level that has a length. -/
theorem SBuf.Sending.other (h : b.Sending done cur cut) {len : ℤ} (hlen : 0 < len)
    (hfit : (sendPart b ⟨!cur.high, len⟩).tooLong = false) :
    (sendPart b ⟨!cur.high, len⟩).Sending (done ++ [cur.len]) ⟨!cur.high, len⟩ false := by
  have hparity : (done ++ [cur.len]).length % 2 = if (!cur.high) = true then 0 else 1 := by
    have hbefore := h.parity
    rw [List.length_append, List.length_singleton]
    cases hhigh : cur.high with
    | true =>
        rw [hhigh, if_pos rfl] at hbefore
        rw [Bool.not_true, if_neg Bool.false_ne_true]
        omega
    | false =>
        rw [hhigh, if_neg Bool.false_ne_true] at hbefore
        rw [Bool.not_false, if_pos rfl]
        omega
  cases cut with
  | false =>
      obtain ⟨hopen, hext⟩ := sendPart_other h.opened hlen h.sound hfit
      refine .of_opened hext.sound hopen hparity ?_
      rw [hext.content, h.content]
      rfl
  | true =>
      have hwptr := h.wptr_pos (.inr rfl)
      obtain ⟨level, x⟩ := cur
      obtain ⟨hsound, hpos, -, hcontent, hp, hs⟩ := h
      rw [Bool.not_true, Bool.false_and, if_neg Bool.false_ne_true] at hp hs
      have hopen : (sendPart b ⟨!level, len⟩).Opened ⟨!level, len⟩ ∧
          (sendPart b ⟨!level, len⟩).content = b.content ∧ (sendPart b ⟨!level, len⟩).Sound := by
        cases level with
        | true =>
            have hsend : sendSpace b len = { b with pendings := len } := by
              simp [sendSpace, hwptr.ne', hs, hp]
            show (sendSpace b len).Opened _ ∧ (sendSpace b len).content = _ ∧ (sendSpace b len).Sound
            rw [hsend]
            exact ⟨⟨hlen, hp, rfl, fun _ => hwptr⟩, rfl, ⟨hsound.wptr_le⟩⟩
        | false =>
            have hsend : sendPulse b len = { b with pendingp := len } := by
              simp [sendPulse, hs, hp]
            show (sendPulse b len).Opened _ ∧ (sendPulse b len).content = _ ∧ (sendPulse b len).Sound
            rw [hsend]
            exact ⟨⟨hlen, rfl, hs, fun h => absurd h.symm Bool.false_ne_true⟩, rfl, ⟨hsound.wptr_le⟩⟩
      refine .of_opened hopen.2.2 hopen.1 hparity ?_
      rw [hopen.2.1, hcontent]
      rfl

/-- A part of the level that is pending that has a length. -/
theorem SBuf.Sending.same (h : b.Sending done cur false) {len : ℤ} (hlen : 0 < len) :
    (sendPart b ⟨cur.high, len⟩).Sending done ⟨cur.high, cur.len + len⟩ false := by
  obtain ⟨hopen, hext⟩ := sendPart_same h.opened hlen
  have hext := hext h.sound
  refine .of_opened hext.sound hopen h.parity ?_
  rw [hext.content, List.append_nil, h.content]
  rfl

/-- A part of the level that was pending, after the sample has been closed. -/
theorem SBuf.Sending.split (h : b.Sending done cur true) (len : ℤ) :
    (sendPart b ⟨cur.high, len⟩).Sound ∧ (sendPart b ⟨cur.high, len⟩).content = done ++ [cur.len] := by
  have hwptr := h.wptr_pos (.inr rfl)
  have hcontent := h.content
  have hp := h.pendingp
  have hs := h.pendings
  rw [Bool.not_true, Bool.false_and, if_neg Bool.false_ne_true] at hp hs
  rw [if_pos rfl] at hcontent
  cases cur.high with
  | true =>
      have hsend : sendPulse b len = { b with pendingp := len } := by simp [sendPulse, hp, hs]
      show (sendPulse b len).Sound ∧ (sendPulse b len).content = _
      rw [hsend]
      exact ⟨⟨h.sound.wptr_le⟩, hcontent⟩
  | false =>
      have hsend : sendSpace b len = { b with pendings := len } := by
        simp [sendSpace, hwptr.ne', hs, hp]
      show (sendSpace b len).Sound ∧ (sendSpace b len).content = _
      rw [hsend]
      exact ⟨⟨h.sound.wptr_le⟩, hcontent⟩

/-- Once a sample has been split the signal is not the canonical one. -/
theorem split_ne (hsound : b.Sound) (hcontent : b.content = done ++ [cur.len]) {len : ℤ}
    (hlen : 0 < len) {ps : List Part} (hps : ∀ p ∈ ps, 0 ≤ p.len) (hfit : (sendParts b ps).tooLong = false) :
    (sendParts b ps).signal ≠
      alternate true done ++ mergeFrom ⟨cur.high, cur.len + len⟩ (withLength ps) := by
  intro heq
  obtain ⟨ws, hext⟩ := sendParts_extends hsound ps hfit
  obtain ⟨first, rest, hmerge, hle⟩ := @mergeFrom_head (withLength ps)
    (fun p hp => hps p (List.mem_of_mem_filter hp)) ⟨cur.high, cur.len + len⟩
  rw [SBuf.signal, hext.content, hcontent, List.append_assoc, alternate_append, List.append_assoc,
    hmerge] at heq
  have hfirst := (List.cons.inj (List.append_cancel_left heq)).1
  have hlens := congrArg Part.len hfirst
  simp only at hlens hle
  omega

/-- While parts are sent the signal is the canonical one, up to the first sample that
is split. -/
theorem SBuf.Sending.sendParts_iff (h : b.Sending done cur cut) {ps : List Part}
    (hps : ∀ p ∈ ps, 0 ≤ p.len) (hfit : (sendParts b ps).tooLong = false) :
    (sendParts b ps).signal = alternate true done ++ mergeFrom cur (withLength ps) ↔
      interrupted cur.high cut ps = false := by
  induction ps generalizing b done cur cut with
  | nil => exact iff_of_true h.signal rfl
  | cons p ps ih =>
      have hrest : ∀ q ∈ ps, 0 ≤ q.len := fun q hq => hps q (List.mem_cons_of_mem _ hq)
      have hfit' := sendPart_keeps hfit
      obtain ⟨high, len⟩ := p
      have hlen : 0 ≤ len := hps _ List.mem_cons_self
      rw [sendParts_cons] at hfit ⊢
      by_cases hzero : len = 0
      · subst hzero
        have hskip : withLength (⟨high, 0⟩ :: ps) = withLength ps := rfl
        rw [hskip, interrupted, if_pos rfl]
        by_cases hkeeps : high = cur.high ∨ cut = true
        · rw [h.zero_keeps high hkeeps] at hfit ⊢
          have hcut : (cut || high != cur.high) = cut := by
            obtain rfl | rfl := hkeeps
            · simp
            · rfl
          rw [hcut]
          exact ih h hrest hfit
        · rw [not_or, Bool.not_eq_true] at hkeeps
          obtain ⟨hother, rfl⟩ := hkeeps
          have hhigh : high = !cur.high := Bool.eq_not_of_ne hother
          subst hhigh
          have hcut : (false || (!cur.high) != cur.high) = true := by simp
          rw [hcut]
          exact ih (h.zero_cuts hfit') hrest hfit
      · have hpos : 0 < len := by omega
        have hkeep : withLength (⟨high, len⟩ :: ps) = ⟨high, len⟩ :: withLength ps :=
          List.filter_cons_of_pos (decide_eq_true hpos)
        rw [hkeep, interrupted, if_neg hzero, mergeFrom]
        by_cases hsame : high = cur.high
        · subst hsame
          rw [if_pos rfl]
          cases cut with
          | false =>
              have hnot : (cur.high == cur.high && false || interrupted cur.high false ps) =
                  interrupted cur.high false ps := by simp
              rw [hnot]
              exact ih (h.same hpos) hrest hfit
          | true =>
              obtain ⟨hsound, hcontent⟩ := h.split len
              have hyes : (cur.high == cur.high && true || interrupted cur.high false ps) = true := by
                simp
              rw [hyes]
              refine iff_of_false ?_ fun h => Bool.false_ne_true h.symm
              exact split_ne hsound hcontent hpos hrest hfit
        · have hhigh : high = !cur.high := Bool.eq_not_of_ne hsame
          subst hhigh
          have hnot : ((!cur.high) == cur.high && cut || interrupted (!cur.high) false ps) =
              interrupted (!cur.high) false ps := by simp
          rw [if_neg hsame, hnot]
          have hnext := ih (h.other hpos hfit') hrest hfit
          rw [← hnext, alternate_append, h.parity]
          have hlevel : alternate (if (if cur.high = true then 0 else 1) = 0 then true else !true)
              [cur.len] = [cur] := by
            obtain ⟨level, x⟩ := cur
            cases level with
            | true => rfl
            | false => rfl
          rw [hlevel, List.append_assoc]
          rfl

end Sending

/-! ### From the beginning -/

/-- Nothing has been sent. -/
structure SBuf.Unsent (b : SBuf) : Prop where
  wptr : b.wptr = 0
  pendingp : b.pendingp = 0
  pendings : b.pendings = 0

theorem clearSendBuffer_unsent (b : SBuf) : (clearSendBuffer b).Unsent := ⟨rfl, rfl, rfl⟩

section Unsent

variable {b : SBuf}

theorem SBuf.Unsent.sound (h : b.Unsent) : b.Sound := ⟨by rw [h.wptr]; exact Nat.zero_le _⟩

theorem SBuf.Unsent.content (h : b.Unsent) : b.content = [] := by
  rw [SBuf.content, h.wptr, List.take_zero]

theorem SBuf.Unsent.signal (h : b.Unsent) : b.signal = [] := by
  rw [SBuf.signal, h.content, h.pendingp, h.pendings]
  rfl

/-- Before the first pulse nothing goes into the buffer. -/
theorem SBuf.Unsent.keeps (h : b.Unsent) {p : Part} (hp : 0 ≤ p.len)
    (hlow : (p.high && decide (0 < p.len)) = false) : sendPart b p = b := by
  obtain ⟨hwptr, hpulse, hspace⟩ := h
  obtain ⟨high, len⟩ := p
  cases high with
  | false =>
      show sendSpace b len = b
      rw [sendSpace, if_pos ⟨hwptr, hpulse⟩]
  | true =>
      have hzero : len = 0 := by
        simp only [Bool.true_and, decide_eq_false_iff_not] at hlow hp
        omega
      subst hzero
      show sendPulse b 0 = b
      obtain ⟨data, arr, wptr, tooLong, isBiphase, pendingp, pendings, sum⟩ := b
      simp only at hpulse hspace
      subst hpulse hspace
      rfl

/-- The first pulse. -/
theorem SBuf.Unsent.starts (h : b.Unsent) {len : ℤ} (hlen : 0 < len) :
    (sendPart b (pulse len)).Sending [] (pulse len) false := by
  obtain ⟨hwptr, hpulse, hspace⟩ := id h
  have hsend : sendPulse b len = { b with pendingp := len } := by simp [sendPulse, hpulse, hspace]
  show (sendPulse b len).Sending [] (pulse len) false
  rw [hsend]
  exact ⟨⟨h.sound.wptr_le⟩, hlen, rfl, h.content, rfl, hspace⟩

theorem SBuf.Unsent.sendParts_iff (h : b.Unsent) {ps : List Part} (hps : ∀ p ∈ ps, 0 ≤ p.len)
    (hfit : (sendParts b ps).tooLong = false) :
    (sendParts b ps).signal = canonical ps ↔ splitsSample ps = false := by
  induction ps with
  | nil => exact iff_of_true h.signal rfl
  | cons p ps ih =>
      have hrest : ∀ q ∈ ps, 0 ≤ q.len := fun q hq => hps q (List.mem_cons_of_mem _ hq)
      have hp : 0 ≤ p.len := hps p List.mem_cons_self
      rw [sendParts_cons] at hfit ⊢
      cases hfirst : p.high && decide (0 < p.len) with
      | false =>
          have hcanonical : canonical (p :: ps) = canonical ps := by
            rw [canonical, withLength, List.filter_cons]
            split
            · next hlen =>
                rw [hlen, Bool.and_true] at hfirst
                rw [List.dropWhile_cons, hfirst]
                rfl
            · rfl
          have hsplits : splitsSample (p :: ps) = splitsSample ps := by
            rw [splitsSample, List.dropWhile_cons, hfirst]
            rfl
          rw [h.keeps hp hfirst] at hfit ⊢
          rw [hcanonical, hsplits]
          exact ih hrest hfit
      | true =>
          obtain ⟨hhigh, hlen⟩ := (Bool.and_eq_true _ _).mp hfirst
          obtain ⟨high, len⟩ := p
          simp only at hhigh
          subst hhigh
          have hcanonical : canonical (pulse len :: ps) = mergeFrom (pulse len) (withLength ps) := by
            rw [canonical, withLength, List.filter_cons, if_pos hlen]
            rfl
          have hsplits : splitsSample (pulse len :: ps) = interrupted true false ps := by
            rw [splitsSample, List.dropWhile_cons, hfirst]
            rfl
          rw [hcanonical, hsplits]
          exact (h.starts (of_decide_eq_true hlen)).sendParts_iff hrest hfit

end Unsent

/-- `sum` is that of the samples in the buffer. -/
theorem sendParts_sum {b : SBuf} (h : b.Unsent) (hsum : b.sum = 0) {ps : List Part}
    (hfit : (sendParts b ps).tooLong = false) :
    (sendParts b ps).sum = (sendParts b ps).content.sum := by
  obtain ⟨ws, hext⟩ := sendParts_extends h.sound ps hfit
  rw [hext.sum, hext.content, hsum, h.content, List.nil_append, Int.zero_add]

/-- Of pulses and spaces that are sent after the buffer has been cleared, and fit, the
samples and what is pending are the alternating list, and `sum` is the sum of the
samples, if and only if no sample is split by a part without length. -/
theorem sendParts_canonical_iff (b : SBuf) (ps : List Part) (hps : ∀ p ∈ ps, 0 ≤ p.len)
    (hfit : (sendParts (clearSendBuffer b) ps).tooLong = false) :
    ((sendParts (clearSendBuffer b) ps).signal = canonical ps ∧
        (sendParts (clearSendBuffer b) ps).sum = (sendParts (clearSendBuffer b) ps).content.sum) ↔
      splitsSample ps = false := by
  rw [← (clearSendBuffer_unsent b).sendParts_iff hps hfit]
  exact and_iff_left (sendParts_sum (clearSendBuffer_unsent b) rfl hfit)

/-- Parts without length at the beginning, inside a pulse and before the other level. -/
theorem sendParts_canonical_zeros :
    ((sendParts (clearSendBuffer initSendBuffer) [space 300, pulse 0, pulse 500, pulse 0, pulse 400,
        space 200, pulse 0, pulse 600, space 700]).signal =
          canonical [space 300, pulse 0, pulse 500, pulse 0, pulse 400, space 200, pulse 0, pulse 600,
            space 700] ∧
      (sendParts (clearSendBuffer initSendBuffer) [space 300, pulse 0, pulse 500, pulse 0, pulse 400,
        space 200, pulse 0, pulse 600, space 700]).sum =
          (sendParts (clearSendBuffer initSendBuffer) [space 300, pulse 0, pulse 500, pulse 0,
            pulse 400, space 200, pulse 0, pulse 600, space 700]).content.sum) ↔
      splitsSample [space 300, pulse 0, pulse 500, pulse 0, pulse 400, space 200, pulse 0, pulse 600,
        space 700] = false :=
  sendParts_canonical_iff initSendBuffer _ (by decide) (by decide +kernel)

/-- Two pulses with a space of no length between them are two samples. -/
theorem sendParts_canonical_fails :
    ¬ ∀ (b : SBuf) (ps : List Part), (∀ p ∈ ps, 0 ≤ p.len) →
      (sendParts (clearSendBuffer b) ps).tooLong = false →
      (sendParts (clearSendBuffer b) ps).signal = canonical ps := by
  intro h
  have heq := h initSendBuffer [pulse 500, space 0, pulse 300] (by decide) (by decide +kernel)
  revert heq
  decide +kernel

end Lirc
