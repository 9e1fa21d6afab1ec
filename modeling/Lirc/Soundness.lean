import Lirc.Attempt
import Mathlib.Data.List.Chain

/-!
Soundness of the decoder: lead, data, trail and foot of an accepted signal
have been received, sample by sample, exactly when no attempt at a bit and no
decision about the header has done harm.
-/

namespace Lirc

open Signal

section Signals

variable {hw : Hardware} {r : IrRemote} {R : List ℕ} {k : ℕ} {held : Option Part} {ps : List Part}
  {b b' : RBuf} {ended : Bool} {bit : ℕ} {fit : Prop}

/-! ### Segments -/

/-- Where a signal could end, a part of it has been read. -/
theorem RBuf.Through.behind (h : b.Through hw r R k held ps true fit) :
    b.Behind hw r R k held ps true fit := by
  rcases h with h | ⟨hfalse, -⟩
  · exact h
  · simp at hfalse

/-- `get_data` goes through the data that it returns. -/
theorem RBuf.Through.getData {n : ℕ} (h : b.Through hw r R k held ps ended fit)
    (hc : PulseSpaceCoded r) (hfirst : 0 < n → ended = true ∨ startsWithBit r = true)
    (hn : bit + n ≤ bitCount r) {code : IrCode} {r' : IrRemote}
    (heq : Lirc.getData hw r n bit b = (code, r', b')) (hne : code ≠ noCode) :
    r' = r ∧ b'.Through hw r R k held (ps ++ dataParts r code n bit) (ended || decide (0 < n))
      (fit ∧ CleanBits hw r held n bit b) := by
  rw [getData_eq hc.bitwise] at heq
  obtain ⟨hr, hthrough, -⟩ := h.getBitLoop hc hfirst hn heq hne
  exact ⟨hr, by rwa [dataParts_eq hc.bitwise]⟩

/-- A pulse that has been found, with a space announced after it. -/
theorem RBuf.Behind.pause (h : b.Behind hw r R k held ps ended fit) {p s : ℤ} (hs : 0 < s)
    (heq : expectPulse hw r b p = (true, b')) :
    ({ b' with pendings := s } : RBuf).Behind hw r R k held (ps ++ [pulse p, space s]) true
      fit := by
  obtain ⟨i, qs, q, last, fit', hreached, hlies, -⟩ := h
  obtain ⟨j, h', -⟩ := hreached.expectPart_found (p := pulse p) heq
  have hspace := h'.announce (p := space s) hs (by simp) h'.sees.pendingp rfl
  have hall := hlies.append [pulse p, space s]
  exact ⟨j, _, _, _, fit', hspace, by simpa using hall, by simp, by simp, by simp⟩

/-- No bit comes first where a pause does. -/
theorem RBuf.Through.pause (h : b.Through hw r R k held ps ended fit)
    (hfirst : ended = true ∨ startsWithBit r = false) {p s : ℤ} (hs : 0 < s)
    (heq : expectPulse hw r b p = (true, b')) :
    ({ b' with pendings := s } : RBuf).Behind hw r R k held (ps ++ [pulse p, space s]) true
      fit := by
  rcases h with h | ⟨rfl, h | ⟨-, q, h, -⟩⟩
  · exact h.pause hs heq
  · obtain ⟨i, qs, s', fit', -, -, -, -, -, -, hbit⟩ := h
    simp [hbit] at hfirst
  · obtain ⟨-, hlow, -⟩ := h.expectPart_found (p := pulse p) heq
    simp at hlow

/-- `get_pre` goes through the data that it returns and the pause. -/
theorem RBuf.Through.getPre (h : b.Through hw r R k held ps ended fit) (hc : PulseSpaceCoded r)
    (hpre : hasPre r = true) {pre : IrCode} {r' : IrRemote}
    (heq : Lirc.getPre hw r b = (pre, r', b')) (hne : pre ≠ noCode) :
    r' = r ∧ b'.Through hw r R k held
      (ps ++ (dataParts r pre r.preDataBits 0 ++ prePauseParts r)) true
      (fit ∧ CleanBits hw r held r.preDataBits 0 b) := by
  have hcount : 0 + r.preDataBits ≤ bitCount r := by unfold bitCount; omega
  have hpos : 0 < r.preDataBits := by simpa [hasPre] using hpre
  have hbit : startsWithBit r = true := by simp [startsWithBit, hpre]
  rw [Lirc.getPre] at heq
  cases hdata : Lirc.getData hw r r.preDataBits 0 b with
  | mk pre₀ rest =>
      obtain ⟨r₁, b₁⟩ := rest
      simp only [hdata] at heq
      by_cases hfail : pre₀ = noCode
      · simp only [hfail, if_true, Prod.mk.injEq] at heq
        exact absurd heq.1.symm hne
      · obtain ⟨rfl, h₁⟩ := h.getData hc (fun _ => .inr hbit) hcount hdata hfail
        simp only [hpos, decide_true, Bool.or_true] at h₁
        simp only [hfail, if_false] at heq
        rw [← List.append_assoc]
        by_cases hp : 0 < r₁.preP ∧ 0 < r₁.preS
        · simp only [hp, and_self, if_true] at heq
          rw [prePauseParts, if_pos hp]
          cases hpulse : expectPulse hw r₁ b₁ r₁.preP with
          | mk ok b₂ =>
              cases ok with
              | false =>
                  simp only [hpulse, Bool.not_false, if_true, Prod.mk.injEq] at heq
                  exact absurd heq.1.symm hne
              | true =>
                  simp only [hpulse, Bool.not_true, Bool.false_eq_true, if_false,
                    Prod.mk.injEq] at heq
                  obtain ⟨rfl, rfl, rfl⟩ := heq
                  exact ⟨rfl, .inl (h₁.behind.pause hp.2 hpulse)⟩
        · simp only [hp, if_false, Prod.mk.injEq] at heq
          obtain ⟨rfl, rfl, rfl⟩ := heq
          rw [prePauseParts, if_neg hp, List.append_nil]
          exact ⟨rfl, h₁⟩

/-- The buffer after the pause before the post data. -/
def postPause (hw : Hardware) (r : IrRemote) (b : RBuf) : RBuf :=
  if 0 < r.postP ∧ 0 < r.postS then { (expectPulse hw r b r.postP).2 with pendings := r.postS }
  else b

/-- `get_post` goes through the pause and the data that it returns. -/
theorem RBuf.Through.getPost (h : b.Through hw r R k held ps ended fit) (hc : PulseSpaceCoded r)
    (hended : ended = (decide (0 < r.preDataBits) || decide (0 < r.bits)))
    (hpost : hasPost r = true) {post : IrCode} {r' : IrRemote}
    (heq : Lirc.getPost hw r b = (post, r', b')) (hne : post ≠ noCode) :
    r' = r ∧ b'.Through hw r R k held (ps ++ (postPauseParts r ++
      dataParts r post r.postDataBits (r.preDataBits + r.bits))) true
      (fit ∧ CleanBits hw r held r.postDataBits (r.preDataBits + r.bits) (postPause hw r b)) := by
  have hcount : r.preDataBits + r.bits + r.postDataBits ≤ bitCount r := by unfold bitCount; omega
  have hpos : 0 < r.postDataBits := by simpa [hasPost] using hpost
  have hstarts : ended = true ∨
      startsWithBit r = !(decide (0 < r.postP) && decide (0 < r.postS)) := by
    cases hpre : decide (0 < r.preDataBits) <;> cases hbits : decide (0 < r.bits) <;>
      simp [hended, hpre, hbits, startsWithBit, hasPre]
  rw [Lirc.getPost] at heq
  rw [← List.append_assoc]
  by_cases hp : 0 < r.postP ∧ 0 < r.postS
  · rw [postPause, if_pos hp]
    rw [postPauseParts, if_pos hp]
    cases hpulse : expectPulse hw r b r.postP with
    | mk ok b₁ =>
        cases ok with
        | false =>
            simp only [hp, and_self, if_true, hpulse, Bool.not_false, Prod.mk.injEq] at heq
            exact absurd heq.1.symm hne
        | true =>
            simp only [hp, and_self, if_true, hpulse, Bool.not_true, Bool.false_eq_true,
              if_false] at heq
            have h₁ := h.pause (hstarts.imp_right fun hbit => by simp [hbit, hp]) hp.2 hpulse
            have h' := RBuf.Through.getData (.inl h₁) hc (fun _ => .inl rfl) hcount heq hne
            simpa using h'
  · rw [postPause, if_neg hp]
    rw [postPauseParts, if_neg hp, List.append_nil]
    simp only [hp, if_false, Bool.not_true, Bool.false_eq_true] at heq
    have hpause : (decide (0 < r.postP) && decide (0 < r.postS)) = false := by simpa using hp
    have hbit : ended = true ∨ startsWithBit r = true :=
      hstarts.imp_right fun hbit => by rw [hbit, hpause]; rfl
    have h' := h.getData hc (fun _ => hbit) hcount heq hne
    simpa [hpos] using h'

/-- The decoder has gone through a signal up to its trail: nothing but a space
is pending, and the last sample is a pulse. -/
def RBuf.Finished (hw : Hardware) (r : IrRemote) (R : List ℕ) (k : ℕ) (b : RBuf)
    (ps : List Part) (fit : Prop) : Prop :=
  ∃ i qs q fit', b.Reached hw r R k i qs q true fit' ∧ Lies fit fit' (qs ++ q.toList) ps ∧
    ∀ p ∈ q, p.high = false

theorem RBuf.Finished.congr (h : b.Finished hw r R k ps fit) {fit' : Prop} (hiff : fit ↔ fit') :
    b.Finished hw r R k ps fit' :=
  propext hiff ▸ h

theorem RBuf.Behind.getTrail (h : b.Behind hw r R k held ps true fit)
    (heq : Lirc.getTrail hw r b = (true, b')) :
    b'.Finished hw r R k (ps ++ trailParts r) fit := by
  obtain ⟨i, qs, q, last, fit', hreached, hlies, hplace⟩ := h
  rw [Lirc.getTrail] at heq
  by_cases ht : r.ptrail = 0
  · rw [trailParts, if_neg (by simpa using ht), List.append_nil]
    simp only [ht, ne_eq, not_true_eq_false, if_false, Bool.not_true, Bool.false_eq_true] at heq
    rcases q with _ | ⟨_ | _, p⟩
    · have hpend : b.pendingp = 0 := hreached.sees.pendingp
      simp only [hpend, Int.lt_irrefl, if_false, Prod.mk.injEq, true_and] at heq
      obtain rfl := heq
      obtain rfl := hplace.closed rfl ht rfl
      exact ⟨i, qs, none, fit', hreached, hlies, by simp⟩
    · -- a space is pending
      have hpend : b.pendingp = 0 := hreached.sees.pendingp
      simp only [hpend, Int.lt_irrefl, if_false, Prod.mk.injEq, true_and] at heq
      obtain rfl := heq
      have hlast : last = true := by
        have := hreached.opposite _ rfl
        simpa using this.symm
      subst hlast
      exact ⟨i, qs, _, fit', hreached, hlies, by simp⟩
    · have hpend : b.pendingp = p := hreached.sees.pendingp
      have hp : 0 < p := hreached.sees.positive _ rfl
      simp only [hpend, hp, if_true] at heq
      exact ⟨i + 1, _, none, fit', hreached.syncPulse heq, by simpa using hlies, by simp⟩
  · rw [trailParts, if_pos ht]
    simp only [ht, ne_eq, not_false_eq_true, if_true] at heq
    cases hpulse : expectPulse hw r b r.ptrail with
    | mk ok b₁ =>
        cases ok with
        | false => simp [hpulse] at heq
        | true =>
            obtain ⟨j, h₁, -⟩ := hreached.expectPart_found (p := pulse r.ptrail) hpulse
            have hpend : b₁.pendingp = 0 := h₁.sees.pendingp
            simp only [hpulse, Bool.not_true, Bool.false_eq_true, if_false, hpend,
              Int.lt_irrefl, Prod.mk.injEq, true_and] at heq
            obtain rfl := heq
            have hall := hlies.append [pulse r.ptrail]
            exact ⟨j, _, none, fit', h₁, by simpa using hall, by simp⟩

theorem RBuf.Finished.getFoot (h : b.Finished hw r R k ps fit)
    (heq : Lirc.getFoot hw r b = (true, b')) :
    b'.Finished hw r R k (ps ++ [space r.sfoot, pulse r.pfoot]) fit := by
  obtain ⟨i, qs, q, fit', hreached, hlies, -⟩ := h
  rw [Lirc.getFoot] at heq
  cases hspace : expectSpace hw r b r.sfoot with
  | mk ok b₁ =>
      cases ok with
      | false => simp [hspace] at heq
      | true =>
          obtain ⟨j, h₁, -⟩ := hreached.expectPart_found (p := space r.sfoot) hspace
          simp only [hspace, Bool.not_true, Bool.false_eq_true, if_false] at heq
          obtain ⟨j', h₂, -⟩ := h₁.expectPart_found (p := pulse r.pfoot) heq
          have hall := hlies.append [space r.sfoot, pulse r.pfoot]
          exact ⟨j', _, none, fit', h₂, by simpa using hall, by simp⟩

/-- The sum of the lengths plays no part. -/
theorem RBuf.Finished.correctSum (h : b.Finished hw r R k ps fit) (x : ℤ) :
    ({ b with sum := x } : RBuf).Finished hw r R k ps fit := by
  obtain ⟨i, qs, q, fit', hreached, hps, hq⟩ := h
  exact ⟨i, qs, q, fit', hreached.congr (hreached.sees.correctSum x), hps, hq⟩

/-- The gap after a signal is looked at and given back. -/
theorem RBuf.Finished.getGap (h : b.Finished hw r R k ps fit) {gap : ℤ}
    (heq : Lirc.getGap hw r b gap = (true, b')) : b'.Finished hw r R k ps fit := by
  obtain ⟨i, qs, q, fit', hreached, hlies, hq⟩ := h
  rw [Lirc.getGap] at heq
  rcases hreached.sees.read (gap - (gap * r.eps).tdiv 100) with
    ⟨b₁, hread, h₁⟩ | ⟨w, b₁, hread, hw', h₁⟩
  · simp only [hread, if_true, Prod.mk.injEq, true_and] at heq
    obtain rfl := heq
    exact ⟨i, qs, q, fit', hreached.congr h₁, hlies, hq⟩
  · have hne := hreached.sees.ne_zero hw'
    simp only [hread, hne, if_false] at heq
    cases hp : isSpace w with
    | false => simp [hp] at heq
    | true =>
        simp only [hp, Bool.not_true, Bool.false_eq_true, if_false, Prod.mk.injEq] at heq
        obtain ⟨-, rfl⟩ := heq
        exact ⟨i, qs, q, fit', hreached.congr (h₁.unget (.inl rfl)), hlies, hq⟩

/-- The space of a header that has been read is read once more for the first
bit, or the signal is not what was sent. -/
def readsAgain (r : IrRemote) : Bool :=
  isSpaceFirst r && decide (r.plead = 0) && startsWithBit r

/-- The decoder is at the start of the data: nothing is pending but the space
of a header, and the last sample is not a pulse that could go on; or it has
read the space of a header that is read once more; or it is before the signal. -/
def RBuf.Starts (hw : Hardware) (r : IrRemote) (R : List ℕ) (k : ℕ) (held : Option Part)
    (b : RBuf) (ps : List Part) (fit : Prop) : Prop :=
  (∃ i qs q last, b.Reached hw r R k i qs q last fit ∧ qs ++ q.toList = ps ∧
    (q = none → last = false) ∧ (∀ p ∈ q, p.high = false) ∧
    (q = none → readsAgain r = true → i = k ∧ ps = [] ∧ held = none)) ∨
  (r.plead = 0 ∧ b.OnSpace hw r R k held ps fit) ∨ (¬fit ∧ ps = [] ∧ b.Before R k none)

theorem RBuf.Starts.getLead (h : b.Starts hw r R k held ps fit) (hc : PulseSpaceCoded r)
    (heq : Lirc.getLead hw r b = (true, b')) :
    b'.Through hw r R k held (ps ++ leadParts r) false fit := by
  rw [Lirc.getLead] at heq
  by_cases hl : r.plead = 0
  · rw [leadParts, if_neg (by simpa using hl), List.append_nil]
    simp only [hl, if_true, Prod.mk.injEq, true_and] at heq
    obtain rfl := heq
    rcases h with ⟨i, qs, q, last, hreached, rfl, hlast, hlow, hfresh⟩ | ⟨-, h⟩ | ⟨hunfit, rfl, h⟩
    · refine .inl ⟨i, qs, q, last, fit, hreached, .whole Iff.rfl, ?_, by simp, ?_⟩
      · intro hq hhigh
        simp [hlast hq] at hhigh
      · intro hq _ hs hbit
        exact hfresh hq (by simpa [readsAgain, hs, hl] using hbit)
    · exact .inr ⟨rfl, .inl h⟩
    · exact .inr ⟨rfl, .inr ⟨hunfit, none, h, rfl⟩⟩
  · have hpos : 0 < r.plead := by have := hc.plead_nonneg; omega
    rw [leadParts, if_pos hl]
    simp only [hl, if_false] at heq
    cases hsync : syncPendingSpace hw r b with
    | mk ok b₁ =>
        cases ok with
        | false => simp [hsync] at heq
        | true =>
            simp only [hsync, Bool.not_true, Bool.false_eq_true, if_false, Prod.mk.injEq,
              true_and] at heq
            obtain rfl := heq
            rcases h with ⟨i, qs, q, last, hreached, rfl, hlast, hlow, -⟩ | ⟨hzero, -⟩ |
              ⟨hunfit, rfl, h⟩
            · rcases q with _ | ⟨_ | _, p⟩
              · have hpend : b.pendings = 0 := hreached.sees.pendings
                simp only [syncPendingSpace, hpend, Int.lt_irrefl, if_false, Prod.mk.injEq,
                  true_and] at hsync
                obtain rfl := hsync
                obtain rfl := hlast rfl
                have h' := hreached.announce (p := pulse r.plead) hpos (by simp) rfl
                  hreached.sees.pendings
                exact .inl ⟨i, _, _, _, fit, h', by simpa using .whole Iff.rfl, by simp, by simp,
                  by simp⟩
              · -- a space is pending
                have h₁ := hreached.syncSpace hsync
                have h' := h₁.announce (p := pulse r.plead) hpos (by simp) rfl h₁.sees.pendings
                exact .inl ⟨i + 1, _, _, _, fit, h', by simpa using .whole Iff.rfl, by simp,
                  by simp, by simp⟩
              · simpa using hlow _ rfl
            · exact absurd hzero hl
            · have hpend : b.pendings = 0 := h.sees.pendings
              simp only [syncPendingSpace, hpend, Int.lt_irrefl, if_false, Prod.mk.injEq,
                true_and] at hsync
              obtain rfl := hsync
              have hsees : ({ b with pendingp := r.plead } : RBuf).Sees R (k - 1)
                  (some (pulse r.plead)) :=
                h.sees.announce rfl h.sees.pendings (by simpa using hpos)
              exact .inr ⟨rfl, .inr ⟨hunfit, some (pulse r.plead),
                ⟨hsees, h.held, h.start, h.space, by simp⟩, rfl⟩⟩

/-! ### A whole signal -/

/-- The remote with other data around its codes. -/
def IrRemote.withData (r : IrRemote) (pre post : IrCode) : IrRemote :=
  { r with preData := pre, postData := post }

theorem bitLoopParts_withData (hc : PulseSpaceCoded r) (pre post : IrCode) (n : ℕ)
    (data mask : IrCode) :
    bitLoopParts (r.withData pre post) n data mask = bitLoopParts r n data mask := by
  induction n generalizing data mask with
  | zero => rfl
  | succ n ih =>
      have hb' : hasToggleBitMask (r.withData pre post) = false := hc.noToggleBitMask
      have ht' : hasToggleMask (r.withData pre post) = false := hc.noToggleMask
      simp only [bitLoopParts, toggledData_eq hc.noToggleBitMask hc.noToggleMask,
        toggledData_eq hb' ht', ih]
      rfl

theorem dataParts_withData (hc : PulseSpaceCoded r) (pre post data : IrCode) (bits done : ℕ) :
    dataParts (r.withData pre post) data bits done = dataParts r data bits done := by
  have hw : Bitwise (r.withData pre post) :=
    let ⟨h1, h2, h3, h4, h5, h6, h7, h8, h9⟩ := hc.bitwise
    ⟨h1, h2, h3, h4, h5, h6, h7, h8, h9⟩
  rw [dataParts_eq hw, dataParts_eq hc.bitwise, bitLoopParts_withData hc]
  rfl

/-- What a signal consists of between header and foot. -/
def innerParts (r : IrRemote) (pre code post : IrCode) : List Part :=
  leadParts r ++ (if hasPre r then dataParts r pre r.preDataBits 0 ++ prePauseParts r else []) ++
    dataParts r code r.bits r.preDataBits ++
    (if hasPost r then postPauseParts r ++
      dataParts r post r.postDataBits (r.preDataBits + r.bits) else []) ++ trailParts r

theorem codeParts_withData (hc : PulseSpaceCoded r) (pre code post : IrCode) (rep : Bool) :
    codeParts (r.withData pre post) code rep =
      (if !rep || !r.has noHeadRep then headerParts r else []) ++ (innerParts r pre code post ++
        if !rep || !r.has noFootRep then footParts r else []) := by
  have hdata := dataParts_withData hc pre post
  have hpre : preParts (r.withData pre post) =
      if hasPre r then dataParts r pre r.preDataBits 0 ++ prePauseParts r else [] := by
    rw [preParts, hdata]
    rfl
  have hpost : postParts (r.withData pre post) =
      if hasPost r then postPauseParts r ++
        dataParts r post r.postDataBits (r.preDataBits + r.bits) else [] := by
    rw [postParts, hdata]
    rfl
  show (if !rep || !r.has noHeadRep then headerParts r else []) ++ leadParts r ++
    preParts (r.withData pre post) ++
    dataParts (r.withData pre post) code r.bits r.preDataBits ++
    postParts (r.withData pre post) ++ trailParts r ++
    (if !rep || !r.has noFootRep then footParts r else []) = _
  rw [hpre, hpost, hdata, innerParts]
  simp only [List.append_assoc]

/-- No failed attempt at a one does harm in the data of a signal that starts
with its lead. -/
def CleanData (hw : Hardware) (r : IrRemote) (held : Option Part) (b : RBuf) : Prop :=
  let b := (Lirc.getLead hw r b).2
  let b₁ := if hasPre r then (Lirc.getPre hw r b).2.2 else b
  let b₂ := (Lirc.getData hw r r.bits r.preDataBits b₁).2.2
  (hasPre r = true → CleanBits hw r held r.preDataBits 0 b) ∧
  CleanBits hw r held r.bits r.preDataBits b₁ ∧
  (hasPost r = true →
    CleanBits hw r held r.postDataBits (r.preDataBits + r.bits) (postPause hw r b₂))

instance (hw : Hardware) (r : IrRemote) (held : Option Part) (b : RBuf) :
    Decidable (CleanData hw r held b) :=
  inferInstanceAs (Decidable (_ ∧ _ ∧ _))

/-- Nothing but a Goldstar remote is changed by reading data. -/
theorem getBitLoop_remote (hg : isGoldstar r = false) (n bit : ℕ) (code : IrCode) (b : RBuf) :
    (Lirc.getBitLoop hw n bit code r b).2.1 = r := by
  induction n generalizing bit code b with
  | zero => rfl
  | succ n ih =>
      rw [getBitLoop_succ hg]
      rcases Lirc.readBit hw r bit b with ⟨v, b₁⟩
      cases v with
      | none => rfl
      | some v => exact ih _ _ _

theorem getData_remote (hw : Hardware) (hc : Bitwise r) (n bit : ℕ) (b : RBuf) :
    (Lirc.getData hw r n bit b).2.1 = r := by
  rw [getData_eq hc]
  exact getBitLoop_remote hc.notGoldstar _ _ _ _

theorem getPre_remote (hw : Hardware) (hc : Bitwise r) (b : RBuf) :
    (Lirc.getPre hw r b).2.1 = r := by
  have hdata := getData_remote hw hc r.preDataBits 0 b
  rw [Lirc.getPre]
  rcases hd : Lirc.getData hw r r.preDataBits 0 b with ⟨pre, r₁, b₁⟩
  obtain rfl : r₁ = r := by rwa [hd] at hdata
  dsimp only
  split
  · rfl
  · split
    · split <;> rfl
    · rfl

theorem getPost_remote (hw : Hardware) (hc : Bitwise r) (b : RBuf) :
    (Lirc.getPost hw r b).2.1 = r := by
  rw [Lirc.getPost]
  generalize (if 0 < r.postP ∧ 0 < r.postS then _ else (true, b)) = x
  obtain ⟨ok, b₁⟩ := x
  cases ok with
  | false => rfl
  | true => exact getData_remote hw hc _ _ _

/-- The pre data of a signal, if it has any. -/
theorem RBuf.Through.preData (h : b.Through hw r R k held ps false fit) (hc : PulseSpaceCoded r)
    {pre : IrCode} {r' : IrRemote}
    (heq : (if hasPre r then Lirc.getPre hw r b else (0, r, b)) = (pre, r', b'))
    (hne : ¬(hasPre r' ∧ pre = noCode)) :
    r' = r ∧ (if hasPre r then (Lirc.getPre hw r b).2.2 else b) = b' ∧
    b'.Through hw r R k held
      (ps ++ if hasPre r then dataParts r pre r.preDataBits 0 ++ prePauseParts r else [])
      (decide (0 < r.preDataBits))
      (fit ∧ (hasPre r = true → CleanBits hw r held r.preDataBits 0 b)) := by
  cases hpre : hasPre r with
  | true =>
      have hpos : 0 < r.preDataBits := by simpa [hasPre] using hpre
      simp only [hpre, if_true] at heq ⊢
      obtain rfl : r' = r := by
        have := getPre_remote hw hc.bitwise b
        rwa [heq] at this
      have hcode : pre ≠ noCode := fun hp => hne ⟨hpre, hp⟩
      rw [decide_eq_true hpos]
      exact ⟨rfl, by rw [heq], by simpa using (h.getPre hc hpre heq hcode).2⟩
  | false =>
      have hzero : r.preDataBits = 0 := by simpa [hasPre] using hpre
      simp only [hpre, Bool.false_eq_true, if_false, Prod.mk.injEq] at heq ⊢
      obtain ⟨-, rfl, rfl⟩ := heq
      exact ⟨rfl, rfl, by simpa [hzero] using h⟩

/-- The post data of a signal, if it has any. -/
theorem RBuf.Through.postData (h : b.Through hw r R k held ps ended fit) (hc : PulseSpaceCoded r)
    (hended : ended = (decide (0 < r.preDataBits) || decide (0 < r.bits)))
    {post : IrCode} {r' : IrRemote}
    (heq : (if hasPost r then Lirc.getPost hw r b else (0, r, b)) = (post, r', b'))
    (hne : ¬(hasPost r' ∧ post = noCode)) :
    r' = r ∧ b'.Through hw r R k held
      (ps ++ if hasPost r then postPauseParts r ++
        dataParts r post r.postDataBits (r.preDataBits + r.bits) else [])
      (ended || decide (0 < r.postDataBits))
      (fit ∧ (hasPost r = true →
        CleanBits hw r held r.postDataBits (r.preDataBits + r.bits) (postPause hw r b))) := by
  cases hpost : hasPost r with
  | true =>
      have hpos : 0 < r.postDataBits := by simpa [hasPost] using hpost
      simp only [hpost, if_true] at heq ⊢
      obtain rfl : r' = r := by
        have := getPost_remote hw hc.bitwise b
        rwa [heq] at this
      have hcode : post ≠ noCode := fun hp => hne ⟨hpost, hp⟩
      rw [decide_eq_true hpos, Bool.or_true]
      exact ⟨rfl, by simpa using (h.getPost hc hended hpost heq hcode).2⟩
  | false =>
      have hzero : r.postDataBits = 0 := by simpa [hasPost] using hpost
      simp only [hpost, Bool.false_eq_true, if_false, Prod.mk.injEq] at heq ⊢
      obtain ⟨-, rfl, rfl⟩ := heq
      exact ⟨rfl, by simpa [hzero] using h⟩

/-- Lead, data, trail and foot of a signal that is accepted have been received. -/
theorem RBuf.Starts.decodeBits (h : b.Starts hw r R k held ps fit) (hc : PulseSpaceCoded r)
    {header : Bool} {pre code post : IrCode} {r' : IrRemote}
    (heq : Lirc.decodeBits hw r header b = (some (pre, code, post), r', b')) :
    b'.Finished hw r R k (ps ++ (innerParts r pre code post ++ footParts r))
      (fit ∧ CleanData hw r held b) := by
  have hcount : r.preDataBits + r.bits ≤ bitCount r := by unfold bitCount; omega
  have hsome : (decide (0 < r.preDataBits) || decide (0 < r.bits) ||
      decide (0 < r.postDataBits)) = true := by
    have hpos := hc.bits_pos
    unfold bitCount at hpos
    simp only [Bool.or_eq_true, decide_eq_true_eq]
    omega
  rw [Lirc.decodeBits] at heq
  rcases hlead : Lirc.getLead hw r b with ⟨ok, b₁⟩
  cases ok with
  | false => simp [hlead] at heq
  | true =>
  have h₁ := h.getLead hc hlead
  simp -zeta only [hlead, Bool.not_true, Bool.false_eq_true, if_false] at heq
  -- pre data
  rcases hpre : (if hasPre r then Lirc.getPre hw r b₁ else (0, r, b₁)) with ⟨p₀, r₁, b₂⟩
  simp -zeta only [hpre] at heq
  by_cases hne₁ : hasPre r₁ ∧ p₀ = noCode
  · rw [if_pos hne₁] at heq
    simp at heq
  rw [if_neg hne₁] at heq
  obtain ⟨rfl, hb₂, h₂⟩ := h₁.preData hc hpre hne₁
  -- code
  rcases hcode : Lirc.getData hw r₁ r₁.bits r₁.preDataBits b₂ with ⟨c₀, r₂, b₃⟩
  simp -zeta only [hcode] at heq
  by_cases hne₂ : c₀ = noCode
  · rw [if_pos hne₂] at heq
    simp at heq
  rw [if_neg hne₂] at heq
  have hbit : 0 < r₁.bits → decide (0 < r₁.preDataBits) = true ∨ startsWithBit r₁ = true :=
    fun hpos => .inr (by simp [startsWithBit, hpos])
  obtain ⟨rfl, h₃⟩ := h₂.getData hc hbit hcount hcode hne₂
  -- post data
  rcases hpost : (if hasPost r₂ then Lirc.getPost hw r₂ b₃ else (0, r₂, b₃)) with ⟨q₀, r₃, b₄⟩
  simp -zeta only [hpost] at heq
  by_cases hne₃ : hasPost r₃ ∧ q₀ = noCode
  · rw [if_pos hne₃] at heq
    simp at heq
  rw [if_neg hne₃] at heq
  obtain ⟨rfl, h₄⟩ := h₃.postData hc rfl hpost hne₃
  rw [hsome] at h₄
  have hclean : ((fit ∧ (hasPre r₃ = true → CleanBits hw r₃ held r₃.preDataBits 0 b₁)) ∧
      CleanBits hw r₃ held r₃.bits r₃.preDataBits b₂) ∧
      (hasPost r₃ = true → CleanBits hw r₃ held r₃.postDataBits (r₃.preDataBits + r₃.bits)
        (postPause hw r₃ b₃)) ↔ fit ∧ CleanData hw r₃ held b := by
    simp only [CleanData, hlead, hb₂, hcode, and_assoc]
  -- trail, foot and gap
  rcases htrail : Lirc.getTrail hw r₃ b₄ with ⟨ok, b₅⟩
  cases ok with
  | false => simp [htrail] at heq
  | true =>
  have h₅ := (h₄.behind.getTrail htrail).congr hclean
  simp -zeta only [htrail, Bool.not_true, Bool.false_eq_true, if_false] at heq
  have hbody : ps ++ leadParts r₃ ++
      (if hasPre r₃ then dataParts r₃ p₀ r₃.preDataBits 0 ++ prePauseParts r₃ else []) ++
      dataParts r₃ c₀ r₃.bits r₃.preDataBits ++
      (if hasPost r₃ then postPauseParts r₃ ++
        dataParts r₃ q₀ r₃.postDataBits (r₃.preDataBits + r₃.bits) else []) ++ trailParts r₃ =
      ps ++ innerParts r₃ p₀ c₀ q₀ := by
    simp only [innerParts, List.append_assoc]
  rw [hbody] at h₅
  obtain ⟨b₆, hfoot, h₆⟩ : ∃ b₆,
      (if hasFoot r₃ then Lirc.getFoot hw r₃ b₅ else (true, b₅)) = (true, b₆) ∧
      b₆.Finished hw r₃ R k (ps ++ (innerParts r₃ p₀ c₀ q₀ ++ footParts r₃))
        (fit ∧ CleanData hw r₃ held b) := by
    rw [← List.append_assoc]
    cases hf : hasFoot r₃ with
    | false =>
        refine ⟨b₅, by simp, ?_⟩
        simpa [footParts, hf] using h₅
    | true =>
        rcases hfoot : Lirc.getFoot hw r₃ b₅ with ⟨ok, b₆⟩
        cases ok with
        | false => simp [hf, hfoot] at heq
        | true =>
            refine ⟨b₆, by simp, ?_⟩
            rw [footParts, if_pos hf]
            exact h₅.getFoot hfoot
  simp only [hfoot, Bool.not_true, Bool.false_eq_true, if_false] at heq
  generalize hb₇ : (if (header && isConst r₃ && r₃.has noHeadRep) = true then _ else b₆) = b₇
    at heq
  have h₇ : b₇.Finished hw r₃ R k (ps ++ (innerParts r₃ p₀ c₀ q₀ ++ footParts r₃))
      (fit ∧ CleanData hw r₃ held b) := by
    rw [← hb₇]
    split
    · exact h₆.correctSum _
    · exact h₆
  generalize (if isRcmm r₃ = true then (1000 : ℤ) else _) = gap at heq
  rcases hgap : Lirc.getGap hw r₃ b₇ gap with ⟨ok, b₈⟩
  cases ok with
  | false => simp [hgap] at heq
  | true =>
  simp only [hgap, if_true, Prod.mk.injEq, Option.some.injEq] at heq
  obtain ⟨⟨rfl, rfl, rfl⟩, -, rfl⟩ := heq
  exact h₇.getGap hgap

/-! ### The header -/

/-- The space of a header that has been read to decide that it is one. -/
def headSpace (hw : Hardware) (r : IrRemote) (sync : ℤ) (b : RBuf) : Option Part :=
  if (Lirc.decodeHeader hw r sync b).1 = some true ∧ r.has noHeadRep = true ∧
      (getNextSpace (expectPulse hw r b r.phead).2 r.shead).1 ≠ 0 then some (space r.shead)
  else none

/-- The decision about the header is sound. A space that has been read fits the
one of the header; a header is taken as missing only when a sample has been
read and no foot is missing with it. -/
def HeaderKept (hw : Hardware) (r : IrRemote) (sync : ℤ) (b : RBuf) : Prop :=
  hasHeader r = true →
    match (Lirc.decodeHeader hw r sync b).1 with
    | none => True
    | some true =>
        ∀ s ∈ headSpace hw r sync b, readsAgain r = true ∨ b.FitsAt hw r (b.rptr + 1) [s]
    | some false =>
        (expectPulse hw r b r.phead).2.rptr ≠ b.rptr ∧
          ¬(hasFoot r = true ∧ r.has noFootRep = true)

instance (hw : Hardware) (r : IrRemote) (sync : ℤ) (b : RBuf) :
    Decidable (HeaderKept hw r sync b) := by
  unfold HeaderKept
  split <;> infer_instance

/-- A header that has been found. -/
theorem RBuf.Reached.getHeader (h : b.Reached hw r R k k [] none false True)
    (hc : PulseSpaceCoded r) (hhead : hasHeader r = true) (held : Option Part)
    (hheld : held = if r.has noHeadRep = true ∧
      (getNextSpace (Lirc.expectPulse hw r b r.phead).2 r.shead).1 ≠ 0 then some (space r.shead)
      else none)
    (heq : Lirc.getHeader hw r b = (true, b')) :
    b'.Starts hw r R k held (headerParts r)
      (∀ s ∈ held, readsAgain r = true ∨ b.FitsAt hw r (k + 1) [s]) := by
  have hpos : 0 < r.phead ∧ 0 < r.shead := by simpa [hasHeader] using hhead
  have hs : r.shead ≠ 0 := by omega
  rw [headerParts, if_pos hhead]
  simp only [Lirc.getHeader, hc.bitwise.notRcmm, hc.bitwise.notBo, Bool.false_eq_true, if_false,
    hs] at heq
  rcases hpulse : Lirc.expectPulse hw r b r.phead with ⟨ok, b₁⟩
  rw [hpulse] at hheld
  cases ok with
  | false => simp [hpulse] at heq
  | true =>
  have h₁ : b₁.Reached hw r R k (k + 1) [pulse r.phead] none true True := by
    obtain ⟨j, h₁, hj⟩ := h.expectPart_found (p := pulse r.phead) hpulse
    obtain rfl := hj rfl
    exact h₁
  have hannounce : ∀ {i : ℕ} {c : RBuf}, c.Reached hw r R k i [pulse r.phead] none true True →
      held = none → ({ c with pendings := r.shead } : RBuf).Starts hw r R k held
        [pulse r.phead, space r.shead]
        (∀ s ∈ held, readsAgain r = true ∨ b.FitsAt hw r (k + 1) [s]) := by
    intro i c hc' hnone
    have h' := hc'.announce (p := space r.shead) hpos.2 (by simp) hc'.sees.pendingp rfl
    exact .inl ⟨i, _, _, _, h'.congr_fit (by simp [hnone]), rfl, by simp, by simp, by simp⟩
  simp only [hpulse, Bool.not_true, Bool.false_eq_true, if_false] at heq
  cases hn : r.has noHeadRep with
  | false =>
      simp only [hn, Bool.false_eq_true, if_false, Prod.mk.injEq, true_and] at heq
      obtain rfl := heq
      exact hannounce h₁ (by simpa [hn] using hheld)
  | true =>
      rcases hread : getNextSpace b₁ r.shead with ⟨v, b₂⟩
      simp only [hn, hread, if_true] at heq
      simp only [hn, hread, true_and] at hheld
      rcases h₁.sees.nextSpace hread with ⟨rfl, h₂ | ⟨h₂, w, hw', hp⟩⟩ | ⟨hv, h₂, w, hw', hp, rfl⟩
      · -- nothing has come, so the space is announced
        simp only [ne_eq, not_true_eq_false, if_false, Prod.mk.injEq, true_and] at heq hheld
        obtain rfl := heq
        exact hannounce (h₁.congr h₂) hheld
      · -- a second pulse
        simp only [ne_eq, not_true_eq_false, if_false, Prod.mk.injEq, true_and] at heq hheld
        obtain rfl := heq
        obtain ⟨v, hv, hlast⟩ := h₁.lastWord
        have hspoiled : Tracks hw r R k (k + 1 + 1) [pulse r.phead] True :=
          .spoiled (by omega) (stretch_not_alternating (Nat.le_refl k) (Nat.lt_succ_self _)
            (by simpa using hv) hw' (by rw [hlast, hp])) _ _
        exact hannounce ⟨h₂, hspoiled, h₁.start, ⟨w, hw', hp⟩, by simp⟩ hheld
      · simp only [hv, ne_eq, not_false_eq_true, if_true] at heq hheld
        cases hx : expect hw r r.shead w with
        | false => simp [hx] at heq
        | true =>
            simp only [hx, if_true, Prod.mk.injEq, true_and] at heq
            obtain rfl := heq
            subst hheld
            have hlow : (sampleOf w).high = false := by simp [sampleOf, hp]
            have hiff : (True ∧ Fits hw r [space r.shead] (sampleOf w)) ↔
                b.FitsAt hw r (k + 1) [space r.shead] := by
              simp [RBuf.FitsAt, h.sees.received, hw']
            have hread : b₂.Reached hw r R k (k + 1 + 1) [pulse r.phead, space r.shead] none false
                (b.FitsAt hw r (k + 1) [space r.shead]) :=
              ⟨h₂, (h₁.tracks.extend_iff hw' [space r.shead] ⟨by simp, by simp [hlow]⟩).congr hiff,
                h₁.start, ⟨w, hw', hp⟩, by simp⟩
            -- only then is the space kept for the first bit
            cases hagain : readsAgain r with
            | true =>
                simp only [readsAgain, Bool.and_eq_true, decide_eq_true_eq] at hagain
                obtain ⟨⟨hfirst, hlead⟩, hbit⟩ := hagain
                refine .inr (.inl ⟨hlead, k + 1, [pulse r.phead], r.shead, _, hread,
                  h₁.tracks.congr ?_, rfl, rfl, hfirst, hc.oneWay hfirst, hbit⟩)
                simp
            | false =>
                refine .inl ⟨k + 1 + 1, _, none, false, hread.congr_fit ?_, rfl, by simp, by simp,
                  by simp [hagain]⟩
                simp

/-- A header that has not been found has been given back, or the decoder is
before the signal. -/
theorem RBuf.Reached.getHeader_failed (h : b.Reached hw r R k k [] none false True)
    (hc : PulseSpaceCoded r) (hhead : hasHeader r = true)
    (heq : Lirc.getHeader hw r b = (false, b')) :
    b'.Starts hw r R k none [] ((Lirc.expectPulse hw r b r.phead).2.rptr ≠ b.rptr) := by
  have hpos : 0 < r.phead ∧ 0 < r.shead := by simpa [hasHeader] using hhead
  have hs : r.shead ≠ 0 := by omega
  have hstart : ∀ {c : RBuf}, c.Sees R k none →
      (Lirc.expectPulse hw r b r.phead).2.rptr ≠ b.rptr →
      c.Starts hw r R k none [] ((Lirc.expectPulse hw r b r.phead).2.rptr ≠ b.rptr) := by
    intro c hc' hread
    exact .inl ⟨k, [], none, false, (h.congr hc').congr_fit (iff_of_true trivial hread), rfl,
      by simp, by simp, by simp⟩
  simp only [Lirc.getHeader, hc.bitwise.notRcmm, hc.bitwise.notBo, Bool.false_eq_true, if_false,
    hs] at heq
  rcases hpulse : Lirc.expectPulse hw r b r.phead with ⟨ok, b₁⟩
  rw [hpulse] at hstart
  cases ok with
  | false =>
      simp only [hpulse, Bool.not_false, if_true, Prod.mk.injEq, true_and] at heq
      obtain rfl := heq
      rcases h.expectPulse_failed hpulse with (h₁ | h₁) | ⟨x, _, hx, -⟩
      · refine .inr (.inr ⟨?_, rfl, h₁.unget (.inl rfl), ?_, h.start, h.lastWord, by simp⟩)
        · simp [h₁.rptr, h.sees.rptr]
        · have hle := h₁.rptr_le
          rw [h₁.rptr] at hle
          exact hle
      · exact hstart (h₁.unget (.inl rfl)) (by simp [h₁.rptr, h.sees.rptr])
      · simp at hx
  | true =>
      obtain ⟨j, h₁, hj⟩ := h.expectPart_found (p := pulse r.phead) hpulse
      obtain rfl := hj rfl
      simp only [hpulse, Bool.not_true, Bool.false_eq_true, if_false] at heq
      cases hn : r.has noHeadRep with
      | false => simp [hn] at heq
      | true =>
          rcases hspace : getNextSpace b₁ r.shead with ⟨v, b₂⟩
          simp only [hn, hspace, if_true] at heq
          rcases h₁.sees.nextSpace hspace with ⟨rfl, -⟩ | ⟨hv, h₂, w, hw', hp, rfl⟩
          · simp at heq
          · simp only [hv, ne_eq, not_false_eq_true, if_true] at heq
            cases hx : expect hw r r.shead w with
            | true => simp [hx] at heq
            | false =>
                simp only [hx, Bool.false_eq_true, if_false, Prod.mk.injEq, true_and] at heq
                obtain rfl := heq
                exact hstart (h₂.unget (.inr rfl)) (by simp [h₁.sees.rptr, h.sees.rptr])

/-- The header of a full signal has been received, or it is left out where
that is allowed. -/
theorem RBuf.Reached.decodeHeader (h : b.Reached hw r R k k [] none false True)
    (hc : PulseSpaceCoded r) {sync : ℤ} {header : Bool}
    (heq : Lirc.decodeHeader hw r sync b = (some header, b')) :
    b'.Starts hw r R k (headSpace hw r sync b) (headerParts r) (HeaderKept hw r sync b) ∨
    hasHeader r = true ∧ r.has noHeadRep = true ∧
      ∃ fit, b'.Starts hw r R k (headSpace hw r sync b) [] fit ∧
        (HeaderKept hw r sync b ↔ fit ∧ ¬(hasFoot r = true ∧ r.has noFootRep = true)) := by
  cases hhead : hasHeader r with
  | false =>
      have hheld : headSpace hw r sync b = none := by simp [headSpace, Lirc.decodeHeader, hhead]
      simp only [Lirc.decodeHeader, hhead, Bool.false_eq_true, if_false, Prod.mk.injEq,
        Option.some.injEq] at heq
      obtain ⟨-, rfl⟩ := heq
      rw [hheld]
      exact .inl (.inl ⟨k, [], none, false, h.congr_fit (by simp [HeaderKept, hhead]),
        by simp [headerParts, hhead], by simp, by simp, by simp [headerParts, hhead]⟩)
  | true =>
      have hdecode := heq
      rw [Lirc.decodeHeader, if_pos hhead] at heq
      rcases hget : Lirc.getHeader hw r b with ⟨ok, b₁⟩
      cases ok with
      | true =>
          simp only [hget, if_true, Prod.mk.injEq, Option.some.injEq] at heq
          obtain ⟨rfl, rfl⟩ := heq
          have h' := h.getHeader hc hhead (headSpace hw r sync b)
            (by simp only [headSpace, hdecode, true_and]) hget
          have hkept : HeaderKept hw r sync b ↔ ∀ s ∈ headSpace hw r sync b,
              readsAgain r = true ∨ b.FitsAt hw r (k + 1) [s] := by
            simp only [HeaderKept, hhead, forall_const, hdecode, h.sees.rptr]
          rw [hkept]
          exact .inl h'
      | false =>
          cases hn : r.has noHeadRep && expectAtMost hw r sync (maxGap r) with
          | false => simp [hget, hn] at heq
          | true =>
              simp only [hget, hn, if_true, Bool.false_eq_true, if_false, Prod.mk.injEq,
                Option.some.injEq] at heq
              obtain ⟨rfl, rfl⟩ := heq
              have hheld : headSpace hw r sync b = none := by simp [headSpace, hdecode]
              rw [hheld]
              simp only [Bool.and_eq_true] at hn
              refine .inr ⟨rfl, hn.1, _, h.getHeader_failed hc hhead hget, ?_⟩
              simp only [HeaderKept, hhead, forall_const, hdecode]

/-! ### Soundness -/

theorem sampleOf_high (w : ℕ) : (sampleOf w).high = isPulse w := by
  rw [sampleOf]
  cases isPulse w <;> rfl

theorem alternating_iff (ws : List ℕ) : Alternating ws ↔ Alternates (ws.map sampleOf) := by
  simp only [Alternating, Alternates, List.isChain_map, sampleOf_high]

/-- Samples of a signal are as many as its run-length form has, and fit it
exactly when `fit` holds; or there is one sample less, since the space that the
signal starts with is missing. -/
def Measures (hw : Hardware) (r : IrRemote) (ps xs : List Part) (fit : Prop) : Prop :=
  ((wave ps).length = xs.length ∧ (Accounts hw r ps xs ↔ fit)) ∨
  ((wave ps).length = xs.length + 1 ∧ ¬fit ∧ ∃ s rest, ps = space s :: rest)

/-- What has been consumed of a finished signal, if it alternates. -/
theorem RBuf.Finished.measures (h : b.Finished hw r R k ps fit)
    (halt : Alternates (((b.data.take b.rptr).drop k).map sampleOf)) :
    Measures hw r ps (((b.data.take b.rptr).drop k).map sampleOf) fit := by
  obtain ⟨i, qs, q, fit', hreached, hlies, hq⟩ := h
  have hdata : (b.data.take b.rptr).drop k = stretch R k i := by
    have hle := hreached.sees.rptr_le
    rw [hreached.sees.rptr] at hle ⊢
    rw [stretch, ← List.drop_take, ← hreached.sees.received, RBuf.received,
      List.take_append_of_le_length hle]
  rw [hdata] at halt ⊢
  obtain ⟨runs, rfl, hlevels, hfits⟩ := hreached.tracks.runs ((alternating_iff _).mpr halt)
  -- the sample read last is a pulse
  have hlast : ∀ x ∈ ((stretch R k i).map sampleOf).getLast?, x.high = true := by
    intro x hx
    obtain ⟨w, hw', hlast⟩ := hreached.lastWord
    have hle := hreached.tracks.le
    rw [stretch, List.getLast?_eq_getElem?, List.length_map, List.getElem?_map, List.length_take,
      List.length_drop] at hx
    obtain ⟨v, hv, rfl⟩ := Option.map_eq_some_iff.mp hx
    have hlt : min (i - k) (R.length - k) - 1 < i - k := by
      rw [List.getElem?_eq_some_iff] at hv
      obtain ⟨hlt, -⟩ := hv
      simp only [List.length_take, List.length_drop] at hlt
      omega
    have hi : i - 1 < R.length := (List.getElem?_eq_some_iff.mp hw').1
    have hidx : k + (min (i - k) (R.length - k) - 1) = i - 1 := by omega
    rw [List.getElem?_take_of_lt hlt, List.getElem?_drop, hidx, hw'] at hv
    obtain rfl : w = v := by simpa using hv
    rw [sampleOf_high]
    exact hlast
  have hlength := congrArg List.length (levels_runs hlevels halt hlast hq)
  rw [List.length_map, List.length_map] at hlength
  cases hlies with
  | whole hiff =>
      exact .inl ⟨hlength, (accounts_iff hlevels halt hlast hq).trans (hfits.trans hiff)⟩
  | behind s hunfit hhigh =>
      exact .inr ⟨by rw [hhigh.length_wave, hlength], hunfit, s, _, rfl⟩

end Signals

/-! ### With and without header and foot -/

section Repeats

variable {hw : Hardware} {r : IrRemote} {head body foot xs : List Part} {fit : Prop}

theorem Accounts.length {ps : List Part} (h : Accounts hw r ps xs) :
    (wave ps).length = xs.length := by
  have hlevels := congrArg List.length h.levels
  rw [List.length_map, List.length_map] at hlevels
  exact hlevels.symm

theorem headerParts_cases (r : IrRemote) :
    headerParts r = [] ∨ ∃ a c, headerParts r = [pulse a, space c] := by
  rw [headerParts]
  split
  · exact .inr ⟨_, _, rfl⟩
  · exact .inl rfl

theorem footParts_cases (r : IrRemote) :
    footParts r = [] ∨ ∃ a c, footParts r = [space a, pulse c] := by
  rw [footParts]
  split
  · exact .inr ⟨_, _, rfl⟩
  · exact .inl rfl

/-- Leaving out a foot takes two samples away. -/
theorem length_wave_withoutFoot (hfoot : foot = [] ∨ ∃ a c, foot = [space a, pulse c])
    (hne : foot ≠ []) (ps : List Part) :
    (wave (ps ++ foot)).length = (wave ps).length + 2 := by
  rcases hfoot with rfl | ⟨a, c, rfl⟩
  · exact absurd rfl hne
  · exact length_wave_foot ps a c

/-- Leaving out a header takes samples away. -/
theorem length_wave_withoutHead (hhead : head = [] ∨ ∃ a c, head = [pulse a, space c])
    (hne : head ≠ []) (ps : List Part) : (wave ps).length < (wave (head ++ ps)).length := by
  rcases hhead with rfl | ⟨a, c, rfl⟩
  · exact absurd rfl hne
  · exact length_wave_head a c ps

/-- A signal that has been received whole is no repeat without header or foot. -/
theorem Measures.whole (h : Measures hw r (head ++ (body ++ foot)) xs fit)
    (hhead : head = [] ∨ ∃ a c, head = [pulse a, space c])
    (hfoot : foot = [] ∨ ∃ a c, foot = [space a, pulse c]) (keepHead keepFoot : Bool → Bool)
    (hsent : keepHead false = true ∧ keepFoot false = true) :
    (∃ rep, Accounts hw r ((if keepHead rep then head else []) ++
      (body ++ if keepFoot rep then foot else [])) xs) ↔ fit := by
  -- a repeat without header or foot would have fewer samples
  have hall : ∀ rep, Accounts hw r ((if keepHead rep then head else []) ++
      (body ++ if keepFoot rep then foot else [])) xs →
      Accounts hw r (head ++ (body ++ foot)) xs := by
    intro rep haccounts
    have hlength := haccounts.length
    by_cases hf : keepFoot rep = true ∨ foot = []
    · have hf' : (if keepFoot rep then foot else []) = foot := by
        rcases hf with hf | rfl <;> simp [*]
      rw [hf'] at hlength haccounts
      by_cases hh : keepHead rep = true ∨ head = []
      · have hh' : (if keepHead rep then head else []) = head := by
          rcases hh with hh | rfl <;> simp [*]
        rwa [hh'] at haccounts
      · rw [not_or] at hh
        have hless := length_wave_withoutHead hhead hh.2 (body ++ foot)
        simp only [hh.1, Bool.false_eq_true, if_false, List.nil_append] at hlength
        rcases h with ⟨h, -⟩ | ⟨h, -, s, rest, hps⟩
        · omega
        · obtain ⟨a, c, rfl⟩ := hhead.resolve_left hh.2
          simp at hps
    · rw [not_or] at hf
      simp only [hf.1, Bool.false_eq_true, if_false, List.append_nil] at hlength
      by_cases hh : keepHead rep = true ∨ head = []
      · have hh' : (if keepHead rep then head else []) = head := by
          rcases hh with hh | rfl <;> simp [*]
        have hless := length_wave_withoutFoot hfoot hf.2 (head ++ body)
        rw [List.append_assoc] at hless
        rw [hh'] at hlength
        rcases h with ⟨h, -⟩ | ⟨h, -⟩ <;> omega
      · rw [not_or] at hh
        have hless := length_wave_withoutHead hhead hh.2 (body ++ foot)
        have hless' := length_wave_withoutFoot hfoot hf.2 body
        simp only [hh.1, Bool.false_eq_true, if_false, List.nil_append] at hlength
        rcases h with ⟨h, -⟩ | ⟨h, -⟩ <;> omega
  have hiff : Accounts hw r (head ++ (body ++ foot)) xs ↔ fit := by
    rcases h with ⟨-, h⟩ | ⟨h, hunfit, -⟩
    · exact h
    · refine iff_of_false (fun haccounts => ?_) hunfit
      have := haccounts.length
      omega
  rw [← hiff]
  constructor
  · rintro ⟨rep, haccounts⟩
    exact hall rep haccounts
  · intro haccounts
    refine ⟨false, ?_⟩
    rwa [if_pos hsent.1, if_pos hsent.2]

/-- A signal that has been received without its header is a repeat, if no foot
is missing in repeats. -/
theorem Measures.headless (h : Measures hw r (body ++ foot) xs fit) (hne : head ≠ [])
    (hhead : head = [] ∨ ∃ a c, head = [pulse a, space c])
    (hfoot : foot = [] ∨ ∃ a c, foot = [space a, pulse c]) (keepHead keepFoot : Bool → Bool)
    (hsent : keepHead false = true ∧ keepFoot false = true) (hmissing : keepHead true = false) :
    (∃ rep, Accounts hw r ((if keepHead rep then head else []) ++
      (body ++ if keepFoot rep then foot else [])) xs) ↔
      fit ∧ ¬(foot ≠ [] ∧ keepFoot true = false) := by
  have hiff : Accounts hw r (body ++ foot) xs ↔ fit := by
    rcases h with ⟨-, h⟩ | ⟨h, hunfit, -⟩
    · exact h
    · refine iff_of_false (fun haccounts => ?_) hunfit
      have := haccounts.length
      omega
  rw [← hiff]
  constructor
  · rintro ⟨rep, haccounts⟩
    have hlength := haccounts.length
    cases rep with
    | false =>
        -- with the header there would be more samples
        have hless := length_wave_withoutHead hhead hne (body ++ foot)
        rw [if_pos hsent.1, if_pos hsent.2] at hlength
        rcases h with ⟨h, -⟩ | ⟨h, -⟩ <;> omega
    | true =>
        simp only [hmissing, Bool.false_eq_true, if_false, List.nil_append] at hlength haccounts
        by_cases hf : keepFoot true = true ∨ foot = []
        · have hf' : (if keepFoot true then foot else []) = foot := by
            rcases hf with hf | rfl <;> simp [*]
          rw [hf'] at haccounts
          refine ⟨haccounts, ?_⟩
          rcases hf with hf | rfl <;> simp [*]
        · rw [not_or] at hf
          have hless := length_wave_withoutFoot hfoot hf.2 body
          simp only [hf.1, Bool.false_eq_true, if_false, List.append_nil] at hlength
          rcases h with ⟨h, -⟩ | ⟨h, -⟩ <;> omega
  · rintro ⟨haccounts, hkept⟩
    refine ⟨true, ?_⟩
    have hf' : (if keepFoot true then foot else []) = foot := by
      by_cases hf : foot = []
      · simp [hf]
      · have : keepFoot true = true := by
          cases hk : keepFoot true with
          | true => rfl
          | false => exact absurd ⟨hf, hk⟩ hkept
        simp [this]
    rw [hf', hmissing]
    simpa using haccounts

end Repeats

/-- The synchronisation before a full signal, and the buffer after it. After
a repeat code has been tried in vain it is done again. -/
def signalStart (hw : Hardware) (r : IrRemote) (last : LastRemote) (b : RBuf) : ℤ × RBuf :=
  let (sync, r, b) :=
    syncRecBuffer hw r last { rewindRecBuffer b with isBiphase := isBiphase r }
  if hasRepeat r && last == .same then
    match decodeRepeat hw r last b with
    | .inl _ => (sync, b)
    | .inr (_, b) => (sync, b)
  else (sync, b)

/-- The decision about a header is sound, and at no bit a failed attempt at a
one does harm to the zero after it. -/
def NothingLost (hw : Hardware) (r : IrRemote) (last : LastRemote) (b : RBuf) : Prop :=
  let start := signalStart hw r last b
  HeaderKept hw r start.1 start.2 ∧
    CleanData hw r (headSpace hw r start.1 start.2) (decodeHeader hw r start.1 start.2).2

instance (hw : Hardware) (r : IrRemote) (last : LastRemote) (b : RBuf) :
    Decidable (NothingLost hw r last b) :=
  inferInstanceAs (Decidable (_ ∧ _))

/-- The samples consumed after the sync space. -/
def consumed (hw : Hardware) (r : IrRemote) (last : LastRemote) (b b' : RBuf) : List Part :=
  let start := syncRecBuffer hw r last { rewindRecBuffer b with isBiphase := isBiphase r }
  ((b'.data.take b'.rptr).drop start.2.2.rptr).map sampleOf

/-- The result is the signal: what has been consumed accounts for what
`send_code` emits for exactly the values returned. -/
def Sound (hw : Hardware) (r : IrRemote) (last : LastRemote) (b b' : RBuf) (d : Decoded) : Prop :=
  ∃ rep, Accounts hw r (codeParts (r.withData d.pre d.post) d.code rep) (consumed hw r last b b')

/-- A result that comes from a repeat code is marked as one. -/
theorem decodeRepeat_inl {hw : Hardware} {r r' : IrRemote} {last : LastRemote} {b b' : RBuf}
    {d : Decoded} (heq : decodeRepeat hw r last b = .inl (some d, r', b')) :
    d.repeatFlag = true := by
  rw [decodeRepeat] at heq
  generalize (if r.has repeatHeader && hasHeader r then _ else _) = x at heq
  obtain ⟨ok, b₁⟩ := x
  cases ok with
  | false => simp at heq
  | true =>
      rcases hrep : getRepeat hw r b₁ with ⟨ok, b₂⟩
      simp only [Bool.not_true, Bool.false_eq_true, if_false, hrep] at heq
      cases ok with
      | false => simp at heq
      | true =>
          simp only [if_true] at heq
          cases hl : r.lastCode with
          | none => simp [hl] at heq
          | some i =>
              simp only [hl, Sum.inl.injEq, Prod.mk.injEq, Option.some.injEq] at heq
              rw [← heq.1]

/-- What the signal between header and foot is part of, with or without them. -/
theorem RBuf.Reached.accounts_iff {hw : Hardware} {r : IrRemote} {R : List ℕ} {k : ℕ}
    {b b₁ b₂ : RBuf} (h : b.Reached hw r R k k [] none false True) (hc : PulseSpaceCoded r)
    {sync : ℤ} {header : Bool} {pre code post : IrCode} {r' : IrRemote}
    (hhead : Lirc.decodeHeader hw r sync b = (some header, b₁))
    (hbits : Lirc.decodeBits hw r header b₁ = (some (pre, code, post), r', b₂))
    (halt : Alternates (((b₂.data.take b₂.rptr).drop k).map sampleOf)) :
    (∃ rep, Accounts hw r (codeParts (r.withData pre post) code rep)
      (((b₂.data.take b₂.rptr).drop k).map sampleOf)) ↔
      HeaderKept hw r sync b ∧ CleanData hw r (headSpace hw r sync b) b₁ := by
  have hsent : (!false || !r.has noHeadRep) = true ∧ (!false || !r.has noFootRep) = true := by
    simp
  simp only [codeParts_withData hc]
  rcases h.decodeHeader hc hhead with h₁ | ⟨hhas, hmissing, fit, h₁, hkept⟩
  · have h₂ := (h₁.decodeBits hc hbits).measures halt
    exact h₂.whole (headerParts_cases r) (footParts_cases r)
      (fun rep => !rep || !r.has noHeadRep) (fun rep => !rep || !r.has noFootRep) hsent
  · have h₂ := (h₁.decodeBits hc hbits).measures halt
    have hne : headerParts r ≠ [] := by simp [headerParts, hhas]
    have hfoot : footParts r ≠ [] ↔ hasFoot r = true := by
      cases hf : hasFoot r <;> simp [footParts, hf]
    rw [List.nil_append] at h₂
    have h₃ := h₂.headless hne (headerParts_cases r) (footParts_cases r)
      (fun rep => !rep || !r.has noHeadRep) (fun rep => !rep || !r.has noFootRep) hsent
      (by simp [hmissing])
    rw [h₃, hkept, hfoot, and_right_comm]
    simp only [Bool.not_true, Bool.false_or, Bool.not_eq_false']

/-- A remote of two bits and a leading pulse. -/
def rc5Remote : IrRemote :=
  { flags := rc5, bits := 2, eps := 30, aeps := 100, pone := 889, sone := 889, pzero := 889,
    szero := 889, plead := 889, gap := 50000 }

end Lirc
