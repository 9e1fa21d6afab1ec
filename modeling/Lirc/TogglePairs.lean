import Lirc.Pairing
import Lirc.Undisturbed

/-!
The pairs of frames of a remote with a toggle mask. Such a remote sends each code
twice, the second time with the bits of the mask inverted, so that errors are
detected: `toggle_mask_state` is odd while the inverted frame is expected, and
`toggle_code` is the button of the frame before it. The state is changed by
`get_code`, `set_code`, `decode_all` and `sync_rec_buffer`.
-/

namespace Lirc

open Transition

/-! ### What a driver leaves of a remote -/

/-- The toggles are kept or reset. The timings of the bits may have changed. -/
def LeftByDriver (r r' : IrRemote) : Prop :=
  ∃ pone sone state code,
    r' = { r with pone := pone, sone := sone, toggleMaskState := state, toggleCode := code } ∧
      (state = r.toggleMaskState ∧ code = r.toggleCode ∨ state = 0 ∧ code = none)

namespace LeftByDriver

variable {r r' r'' : IrRemote}

theorem refl (r : IrRemote) : LeftByDriver r r := ⟨_, _, _, _, rfl, .inl ⟨rfl, rfl⟩⟩

theorem trans (h : LeftByDriver r r') (h' : LeftByDriver r' r'') : LeftByDriver r r'' := by
  obtain ⟨pone, sone, state, code, rfl, htoggles⟩ := h
  obtain ⟨pone', sone', state', code', rfl, htoggles'⟩ := h'
  refine ⟨pone', sone', state', code', rfl, ?_⟩
  obtain ⟨hstate, hcode⟩ | hreset := htoggles'
  · rw [hstate, hcode]
    exact htoggles
  · exact .inr hreset

theorem of_timings (h : ∃ p s, r' = { r with pone := p, sone := s }) : LeftByDriver r r' := by
  obtain ⟨_, _, rfl⟩ := h
  exact ⟨_, _, _, _, rfl, .inl ⟨rfl, rfl⟩⟩

end LeftByDriver

section Receive

variable (hw : Hardware)

theorem syncRecBuffer_leaves (r : IrRemote) (last : LastRemote) (b : RBuf) :
    LeftByDriver r (syncRecBuffer hw r last b).2.1 := by
  rw [syncRecBuffer]
  generalize getNextSpace b 1000000 = space
  simp only []
  split
  · exact .refl r
  · cases last.get r with
    | none => exact .refl r
    | some l =>
        simp only []
        split
        · exact .refl r
        · generalize syncLoop hw l recSync space.1 space.2 = synced
          split
          · exact .refl r
          · show LeftByDriver r (if _ then _ else r)
            split
            -- the gap is too long for the second frame of a pair
            · exact ⟨_, _, _, _, rfl, .inr ⟨rfl, rfl⟩⟩
            · exact .refl r

theorem decodeRepeat_leaves (r : IrRemote) (last : LastRemote) (b : RBuf) :
    LeftByDriver r (afterRepeat (decodeRepeat hw r last b)).1 := by
  have hsync := syncRecBuffer_leaves hw r last
  unfold decodeRepeat
  generalize (if r.has repeatHeader && hasHeader r then getHeader hw r b else (true, b)) = x
  rcases x with ⟨_ | _, b₁⟩
  · exact .refl r
  dsimp only [Bool.not_true]
  generalize getRepeat hw r b₁ = y
  rcases y with ⟨_ | _, b₂⟩
  · exact hsync _
  · cases r.lastCode with
    | none => exact .refl r
    | some i => exact .refl r

theorem decodeRaw_leaves (last : LastRemote) (codes : List IrNcode) (r : IrRemote) (b : RBuf) :
    LeftByDriver r (decodeRaw hw last codes r b).2.1 := by
  induction codes generalizing r b with
  | nil => exact .refl r
  | cons c codes ih =>
      rw [decodeRaw]
      generalize matchSignals hw r (c.signals.getD []) b = x
      rcases x with ⟨_ | _, b₁⟩
      · exact (syncRecBuffer_leaves hw r last _).trans (ih ..)
      · dsimp only [Bool.not_true]
        generalize getGap hw r b₁ (if isConst r then minGap r - b₁.sum else minGap r) = y
        rcases y with ⟨_ | _, b₂⟩
        · exact ih ..
        · exact .refl r

theorem decodePost_leaves (header : Bool) (pre code : IrCode) (r : IrRemote) (b : RBuf) :
    LeftByDriver r (decodePost hw header pre code r b).2.1 := by
  unfold decodePost
  have hpost : LeftByDriver r (if hasPost r then getPost hw r b else (0, r, b)).2.1 := by
    split
    · exact .of_timings (getPost_timings hw r b)
    · exact .refl r
  generalize (if hasPost r then getPost hw r b else (0, r, b)) = x at hpost ⊢
  rcases x with ⟨post, r', b'⟩
  dsimp only at hpost ⊢
  split
  · exact hpost
  · split
    · exact hpost
    · exact hpost

theorem decodeCode_leaves (header : Bool) (pre : IrCode) (r : IrRemote) (b : RBuf) :
    LeftByDriver r (decodeCode hw header pre r b).2.1 := by
  unfold decodeCode
  have hdata := LeftByDriver.of_timings (getData_timings hw r r.bits r.preDataBits b)
  generalize getData hw r r.bits r.preDataBits b = x at hdata ⊢
  rcases x with ⟨code, r', b'⟩
  dsimp only at hdata ⊢
  split
  · exact hdata
  · exact hdata.trans (decodePost_leaves hw header pre code r' b')

theorem decodeBits_leaves (r : IrRemote) (header : Bool) (b : RBuf) :
    LeftByDriver r (decodeBits hw r header b).2.1 := by
  rw [decodeBits_eq]
  split
  · exact .refl r
  generalize (getLead hw r b).2 = b₁
  have hpre : LeftByDriver r (if hasPre r then getPre hw r b₁ else (0, r, b₁)).2.1 := by
    split
    · exact .of_timings (getPre_timings hw r b₁)
    · exact .refl r
  generalize (if hasPre r then getPre hw r b₁ else (0, r, b₁)) = x at hpre ⊢
  rcases x with ⟨pre, r', b₂⟩
  dsimp only at hpre ⊢
  split
  · exact hpre
  · exact hpre.trans (decodeCode_leaves hw header pre r' b₂)

theorem decodeSignal_leaves (r : IrRemote) (last : LastRemote) (now : ℕ) (sync : ℤ) (header : Bool)
    (b : RBuf) : LeftByDriver r (decodeSignal hw r last now sync header b).2.1 := by
  have hraw := decodeRaw_leaves hw last r.codes r b
  have hbits := decodeBits_leaves hw r header b
  rw [decodeSignal]
  split
  · split
    · exact .refl r
    · generalize decodeRaw hw last r.codes r b = out at hraw ⊢
      obtain ⟨_ | code, r₁, b₁⟩ := out
      · exact hraw
      · exact hraw
  · split
    · generalize decodeLirccode hw r now b = out
      obtain ⟨_ | code, b₁⟩ := out
      · exact .refl r
      · exact .refl r
    · generalize decodeBits hw r header b = out at hbits ⊢
      obtain ⟨_ | code, r₁, b₁⟩ := out
      · exact hbits
      · exact hbits

/-- `receive_decode` is a driver of this kind. -/
theorem receiveDecode_leaves (r : IrRemote) (last : LastRemote) (now : ℕ) (b : RBuf) :
    LeftByDriver r (receiveDecode hw r last now b).2.1 := by
  rw [receiveDecode]
  split
  · simp only []
    generalize ({ rewindRecBuffer b with isBiphase := isBiphase r } : RBuf) = b₀
    have hsync := syncRecBuffer_leaves hw r last b₀
    generalize syncRecBuffer hw r last b₀ = synced at hsync ⊢
    obtain ⟨sync, r₁, b₁⟩ := synced
    split
    · exact hsync
    · have hnext : LeftByDriver r (afterRepeat
          (if hasRepeat r₁ && last == .same then decodeRepeat hw r₁ last b₁ else .inr (r₁, b₁))).1 := by
        split
        · exact hsync.trans (decodeRepeat_leaves hw r₁ last b₁)
        · exact hsync
      generalize (if hasRepeat r₁ && last == .same then decodeRepeat hw r₁ last b₁
        else .inr (r₁, b₁)) = next at hnext ⊢
      obtain ⟨d, r₂, b₂⟩ | ⟨r₂, b₂⟩ := next
      · exact hnext
      · simp only []
        generalize decodeHeader hw r₂ sync b₂ = header
        obtain ⟨_ | header, b₃⟩ := header
        · exact hnext
        · exact hnext.trans (decodeSignal_leaves hw r₂ last now sync header b₃)
  · exact decodeSignal_leaves hw r last now 0 false b

end Receive

/-! ### The button of a frame -/

/-- No button sends a sequence. -/
def NoSequences (r : IrRemote) : Prop := ∀ code ∈ r.codes, code.next = [] ∧ code.current = []

instance (r : IrRemote) : Decidable (NoSequences r) :=
  inferInstanceAs (Decidable (∀ code ∈ r.codes, _))

/-- The words with the bits of the toggle mask flipped. -/
def flipMask (r : IrRemote) (x : Received) : Received :=
  untoggleLoop r (bitCount r) 0 r.toggleMask x

/-- The button that these words belong to, as they are. -/
def buttonOf (r : IrRemote) (x : Received) : Option ℕ :=
  if frameMatches r x then
    (matchCodes r (genIrCode r x.pre x.code x.post) 0 r.codes none false).2
  else none

/-- The remotes have the same buttons: they differ in their timings and in what is
remembered of the frames so far. -/
def SameButtons (r r' : IrRemote) : Prop :=
  ∃ pone sone bits toggle last toggled reps send gmin gmax released,
    r' = { r with
      pone := pone, sone := sone, toggleBitMaskState := bits, toggleMaskState := toggle,
      lastCode := last, toggleCode := toggled, reps := reps, lastSend := send,
      minRemainingGap := gmin, maxRemainingGap := gmax, releaseDetected := released }

namespace SameButtons

variable {r r' r'' : IrRemote}

theorem refl (r : IrRemote) : SameButtons r r := ⟨_, _, _, _, _, _, _, _, _, _, _, rfl⟩

theorem trans (h : SameButtons r r') (h' : SameButtons r' r'') : SameButtons r r'' := by
  obtain ⟨_, _, _, _, _, _, _, _, _, _, _, rfl⟩ := h
  obtain ⟨_, _, _, _, _, _, _, _, _, _, _, rfl⟩ := h'
  exact ⟨_, _, _, _, _, _, _, _, _, _, _, rfl⟩

theorem codes (h : SameButtons r r') : r'.codes = r.codes := by
  obtain ⟨_, _, _, _, _, _, _, _, _, _, _, rfl⟩ := h
  rfl

theorem noSequences (h : SameButtons r r') (hr : NoSequences r) : NoSequences r' := by
  rw [NoSequences, h.codes]
  exact hr

theorem hasToggleMask (h : SameButtons r r') : hasToggleMask r' = hasToggleMask r := by
  obtain ⟨_, _, _, _, _, _, _, _, _, _, _, rfl⟩ := h
  rfl

theorem flipMask (h : SameButtons r r') (x : Received) : flipMask r' x = flipMask r x := by
  have hloop : ∀ (n bit : ℕ) (mask : IrCode) (x : Received),
      untoggleLoop r' n bit mask x = untoggleLoop r n bit mask x := by
    obtain ⟨_, _, _, _, _, _, _, _, _, _, _, rfl⟩ := h
    intro n
    induction n with
    | zero => exact fun bit mask x => rfl
    | succ n ih =>
        intro bit mask x
        rw [untoggleLoop, untoggleLoop, ih]
  rw [Lirc.flipMask, hloop]
  obtain ⟨_, _, _, _, _, _, _, _, _, _, _, rfl⟩ := h
  rfl

theorem matchCodes (h : SameButtons r r') (all : IrCode) (i : ℕ) (codes : List IrNcode)
    (found : Option ℕ) (haveCode : Bool) :
    matchCodes r' all i codes found haveCode = matchCodes r all i codes found haveCode := by
  have hbegin : ∀ code search, findBeginning r' all code search = findBeginning r all code search := by
    obtain ⟨_, _, _, _, _, _, _, _, _, _, _, rfl⟩ := h
    intro code search
    induction search with
    | nil => rfl
    | cons n search ih =>
        rw [findBeginning, findBeginning, ih]
        rfl
  have hmatch : ∀ code, matchNcode r' all code = matchNcode r all code := by
    intro code
    rw [matchNcode, matchNcode, hbegin]
    obtain ⟨_, _, _, _, _, _, _, _, _, _, _, rfl⟩ := h
    rfl
  induction codes generalizing i found haveCode with
  | nil => rfl
  | cons code codes ih => rw [Lirc.matchCodes, Lirc.matchCodes, hmatch, ih]

theorem buttonOf (h : SameButtons r r') (x : Received) : buttonOf r' x = buttonOf r x := by
  rw [Lirc.buttonOf, h.matchCodes]
  obtain ⟨_, _, _, _, _, _, _, _, _, _, _, rfl⟩ := h
  rfl

end SameButtons

/-! ### The functions that change the toggles -/

section Toggles

variable {r : IrRemote} {c : ℕ} {code : IrNcode}

/-- A pointer into a sequence of a remote that has none. -/
theorem matchCodes_noSequences (r : IrRemote) (all : IrCode) (i : ℕ) (codes : List IrNcode)
    (found : Option ℕ) (haveCode : Bool)
    (h : ∀ code ∈ codes, code.next = [] ∧ code.current = []) :
    (matchCodes r all i codes found haveCode).1 = codes := by
  induction codes generalizing i found haveCode with
  | nil => rfl
  | cons code codes ih =>
      obtain ⟨⟨hnext, hcurrent⟩, hrest⟩ := List.forall_mem_cons.mp h
      have hnode : (matchNcode r all code).1 = code.current := by
        rw [matchNcode, if_pos hnext, if_pos (Or.inl hnext), hcurrent]
        split
        · rfl
        · rfl
      rw [matchCodes]
      simp only [ih _ _ _ hrest, hnode]

theorem getCode_sameButtons (h : NoSequences r) (x : Received) :
    SameButtons r (getCode r x).2 ∧ (getCode r x).2.toggleMaskState = r.toggleMaskState := by
  rw [getCode]
  split
  · exact ⟨.refl r, rfl⟩
  · have hcodes := matchCodes_noSequences r
      (genIrCode r (untoggle r x).pre (untoggle r x).code (untoggle r x).post) 0 r.codes none false h
    simp only [hcodes]
    split
    · exact ⟨.refl r, rfl⟩
    · rw [foundCode]
      split
      · exact ⟨.refl r, rfl⟩
      · split
        · exact ⟨⟨_, _, _, _, _, _, _, _, _, _, _, rfl⟩, rfl⟩
        · split
          · exact ⟨⟨_, _, _, _, _, _, _, _, _, _, _, rfl⟩, rfl⟩
          · exact ⟨⟨_, _, _, _, _, _, _, _, _, _, _, rfl⟩, rfl⟩

/-- The words that `get_code` looks for. -/
theorem untoggle_of_mask (hmask : hasToggleMask r = true) (x : Received) :
    untoggle r x = if toggleOdd r then flipMask r x else x := by
  rw [untoggle, hmask, Bool.true_and]
  rfl

/-- The first frame of a pair is remembered, and the second one belongs to the
button that is remembered. -/
theorem getCode_toggles (hmask : hasToggleMask r = true) {x : Received} {state : IrCode}
    (hfound : (getCode r x).1 = some (c, state)) :
    buttonOf r (untoggle r x) = some c ∧
      if toggleOdd r then r.toggleCode = some c else (getCode r x).2.toggleCode = some c := by
  rw [getCode] at hfound ⊢
  rw [buttonOf]
  split at hfound
  · cases hfound
  · next hmatches =>
      rw [if_neg hmatches]
      have hmatches' : frameMatches r (untoggle r x) = true := by
        simpa using hmatches
      rw [if_pos hmatches']
      simp only [] at hfound ⊢
      generalize matchCodes r
        (genIrCode r (untoggle r x).pre (untoggle r x).code (untoggle r x).post) 0 r.codes none
          false = matched at hfound ⊢
      obtain ⟨codes, _ | c'⟩ := matched
      · cases hfound
      · simp only [] at hfound ⊢
        have hmask' : (!hasToggleMask { r with codes := codes }) = false := by
          rw [Bool.not_eq_false']
          exact hmask
        rw [foundCode, if_neg (Bool.eq_false_iff.mp hmask')] at hfound ⊢
        cases hodd : toggleOdd r with
        | false =>
            have hodd' : (!toggleOdd { r with codes := codes }) = true := congrArg not hodd
            rw [if_pos hodd'] at hfound ⊢
            cases hfound
            exact ⟨rfl, rfl⟩
        | true =>
            have hodd' : (!toggleOdd { r with codes := codes }) = false := congrArg not hodd
            rw [if_neg (Bool.eq_false_iff.mp hodd')] at hfound
            split at hfound
            · next hsame =>
                cases hfound
                exact ⟨rfl, hsame⟩
            · cases hfound

/-- The state is odd or even whatever its sign. -/
theorem toggleOdd_iff (r : IrRemote) : toggleOdd r = true ↔ r.toggleMaskState % 2 = 1 := by
  have hzero : r.toggleMaskState.tmod 2 = 0 ↔ r.toggleMaskState % 2 = 0 :=
    Int.dvd_iff_tmod_eq_zero.symm.trans Int.dvd_iff_emod_eq_zero
  rw [toggleOdd, bne_iff_ne, ne_eq, hzero]
  omega

theorem toggleOdd_of_state {r' : IrRemote} (h : r'.toggleMaskState = r.toggleMaskState) :
    toggleOdd r' = toggleOdd r := by
  rw [toggleOdd, toggleOdd, h]

theorem countRepeated_toggles (hmask : hasToggleMask r = true) (code : IrNcode) :
    SameButtons r (countRepeated r code) ∧
      toggleOdd (countRepeated r code) = !toggleOdd r ∧
      (countRepeated r code).toggleCode = r.toggleCode := by
  have hflip : ∀ r' : IrRemote, (r'.toggleMaskState % 2 = 1 ↔ ¬ r.toggleMaskState % 2 = 1) →
      toggleOdd r' = !toggleOdd r := by
    intro r' h
    apply Bool.eq_iff_iff.mpr
    rw [Bool.not_eq_true', ← Bool.not_eq_true, toggleOdd_iff, toggleOdd_iff]
    exact h
  rw [countRepeated, if_pos hmask]
  split
  · next hfour =>
      refine ⟨⟨_, _, _, _, _, _, _, _, _, _, _, rfl⟩, hflip _ ?_, rfl⟩
      show (2 : ℤ) % 2 = 1 ↔ _
      omega
  · refine ⟨⟨_, _, _, _, _, _, _, _, _, _, _, rfl⟩, hflip _ ?_, rfl⟩
    show (r.toggleMaskState + 1) % 2 = 1 ↔ _
    omega

theorem startPress_toggles (hmask : hasToggleMask r = true) (c : ℕ) (code : IrNcode)
    (state : IrCode) :
    SameButtons r (startPress r c code state) ∧
      toggleOdd (startPress r c code state) = true ∧
      (startPress r c code state).toggleCode = some c := by
  rw [startPress, startToggleMask]
  generalize (if code.next ≠ [] ∧ code.current = [] then (1 : ℤ) else 0) = reps
  have hmask' : hasToggleMask { r with reps := reps } = true := hmask
  rw [if_pos hmask', storeToggleBits]
  split
  · exact ⟨⟨_, _, _, _, _, _, _, _, _, _, _, rfl⟩, rfl, rfl⟩
  · exact ⟨⟨_, _, _, _, _, _, _, _, _, _, _, rfl⟩, rfl, rfl⟩

/-- A frame that continues the press expects the other kind of frame next; another
one counts as the first of a pair. -/
theorem setCode_toggles (hmask : hasToggleMask r = true) (hcode : r.codes[c]? = some code)
    (state : IrCode) (same : Bool) (x : Decoded) (now : ℕ) :
    let counted := setCode r c state same x.repeatFlag x.minRemainingGap x.maxRemainingGap now
    SameButtons r counted ∧
      if continues r c code state same x now then
        toggleOdd counted = !toggleOdd r ∧ counted.toggleCode = r.toggleCode
      else toggleOdd counted = true ∧ counted.toggleCode = some c := by
  intro counted
  have hleave : ∀ frame : IrRemote, SameButtons r frame →
      SameButtons r { frame with
        lastCode := if code.current = [] then some c else frame.lastCode
        lastSend := now
        minRemainingGap := x.minRemainingGap
        maxRemainingGap := x.maxRemainingGap } := fun frame h =>
    h.trans ⟨_, _, _, _, _, _, _, _, _, _, _, rfl⟩
  have hmask' : hasToggleMask { r with releaseDetected := false } = true := hmask
  have hreleased : SameButtons r { r with releaseDetected := false } :=
    ⟨_, _, _, _, _, _, _, _, _, _, _, rfl⟩
  show SameButtons r counted ∧ _
  simp only [counted, setCode, hcode, countFrame]
  rw [show continuesPress r c code state same (x.repeatFlag && !r.releaseDetected) now =
    continues r c code state same x now from rfl]
  cases continues r c code state same x now with
  | true =>
      obtain ⟨hsame, hodd, htoggle⟩ := countRepeated_toggles hmask' code
      exact ⟨hleave _ (hreleased.trans hsame), hodd, htoggle⟩
  | false =>
      obtain ⟨hsame, hodd, htoggle⟩ := startPress_toggles hmask' c code state
      exact ⟨hleave _ (hreleased.trans hsame), hodd, htoggle⟩

/-- Without sequences there is nothing to be expected from its beginning. -/
theorem resetCurrents_noSequences (h : NoSequences r) : resetCurrents r = r := by
  have hcodes : r.codes.map (fun code => { code with current := [] }) = r.codes := by
    conv_rhs => rw [← List.map_id r.codes]
    refine List.map_congr_left fun code hmem => ?_
    obtain ⟨_, hcurrent⟩ := h code hmem
    obtain ⟨name, word, signals, next, current, transmitState⟩ := code
    obtain rfl : current = [] := hcurrent
    rfl
  rw [resetCurrents, hcodes]

theorem reportCode_toggles (h : NoSequences r) (c : ℕ) :
    SameButtons r (reportCode r c).2 ∧
      (reportCode r c).2.toggleMaskState = r.toggleMaskState ∧
      (reportCode r c).2.toggleCode = r.toggleCode ∧
      ((reportCode r c).1.isSome = true → hasToggleMask r = true → toggleOdd r = false) := by
  have hexpected : ∀ r' : IrRemote, r'.codes.modify c (fun code => { code with current := code.next }) =
      r'.codes → expectNext r' c = r' := by
    intro r' hcodes
    rw [expectNext]
    split
    · rw [hcodes]
    · rfl
  have hmodify : r.codes.modify c (fun code => { code with current := code.next }) = r.codes := by
    apply List.ext_getElem?
    intro i
    rw [List.getElem?_modify]
    cases hcode : r.codes[i]? with
    | none => rfl
    | some code =>
        obtain ⟨hnext, hcurrent⟩ := h code (List.mem_of_getElem? hcode)
        obtain ⟨name, word, signals, next, current, transmitState⟩ := code
        obtain rfl : next = [] := hnext
        obtain rfl : current = [] := hcurrent
        exact congrArg some (ite_self _)
  rw [reportCode]
  split
  · exact ⟨.refl r, rfl, rfl, fun hsome => by cases hsome⟩
  · next code hcode =>
      split
      · exact ⟨.refl r, rfl, rfl, fun hsome => by cases hsome⟩
      · next hcomplete =>
          rw [resetCurrents_noSequences h, hexpected r hmodify]
          refine ⟨.refl r, rfl, rfl, fun _ hmask => ?_⟩
          rw [incomplete, hmask, Bool.true_and, Bool.or_eq_true, not_or] at hcomplete
          exact Bool.eq_false_iff.mpr hcomplete.1

end Toggles

/-! ### Runs -/

/-- What happens to the receiver. -/
inductive TogglingEvent
  /-- A frame: what the driver decodes for each remote, and what it leaves of it. A
  remote that is not tried is left as it is. -/
  | frame (decoded : ℕ → Option Decoded) (left : ℕ → IrRemote → IrRemote)
      (hleft : ∀ i r, LeftByDriver r (left i r)) (now : ℕ)
  /-- The release of a button of this remote is detected. -/
  | released (a : ℕ)

/-- The remotes as the driver leaves them. -/
def driven (left : ℕ → IrRemote → IrRemote) (d : Receiver) : Receiver :=
  { d with remotes := d.remotes.mapIdx left }

/-- The function that handles the event. -/
def togglingStep (d : Receiver) : TogglingEvent → Receiver
  | .frame decoded left _ now => (decodeAll decoded now (driven left d)).2
  | .released a => { d with remotes := detectRelease a d.remotes }

/-- What `decode_all` makes of a frame of a remote that it tries: the words of one
that is accepted, whether their bits were flipped, and whether there is a message. -/
inductive FrameResult
  | failed
  | accepted (words : Received) (flipped message : Bool)
  deriving DecidableEq

def Decoded.words (x : Decoded) : Received := ⟨x.pre, x.code, x.post⟩

/-- The result for the remote `a`; there is none if it is not tried. -/
def frameResult (a : ℕ) (d : Receiver) : TogglingEvent → Option FrameResult
  | .frame decoded left _ now =>
      match (tryRemotes decoded 0 (driven left d).remotes).2 with
      | none => some .failed
      | some f =>
          if f.remote < a then none
          else if f.remote = a then
            some (.accepted f.decoded.words ((driven left d).remotes[a]?.any toggleOdd)
              (decodeAll decoded now (driven left d)).1.isSome)
          else some .failed
  | .released _ => none

/-- The results for a remote, one after the other. -/
def frameResults (a : ℕ) : Receiver → List TogglingEvent → List FrameResult
  | _, [] => []
  | d, e :: es => (frameResult a d e).toList ++ frameResults a (togglingStep d e) es

/-- The frame before was accepted as it is, and is of the same button. -/
def Confirms (r : IrRemote) (words : Received) (before : Option FrameResult) : Prop :=
  ∃ words' message c, before = some (.accepted words' false message) ∧
    buttonOf r words' = some c ∧ buttonOf r (flipMask r words) = some c

/-- There is a message only for a frame whose flipped bits confirm the frame before,
and no frame belongs to two messages. -/
structure PairsConfirmed (r : IrRemote) (results : List FrameResult) : Prop where
  confirmed : ∀ i words flipped, results[i]? = some (.accepted words flipped true) →
    flipped = true ∧ ∃ j, i = j + 1 ∧ Confirms r words results[j]?
  apart : ∀ i j words words' flipped flipped',
    results[i]? = some (.accepted words flipped true) →
    results[j]? = some (.accepted words' flipped' true) → i < j → i + 1 < j

/-- A frame of the remote that is accepted with its bits flipped continues the press. -/
def FlippedContinues (a : ℕ) (d : Receiver) : TogglingEvent → Prop
  | .frame decoded left _ now =>
      ∀ found ∈ foundFor decoded (driven left d), found.1.remote = a →
        toggleOdd found.2.1 = true →
        found.1.continues (driven left d) found.2.1 found.2.2 now = true
  | .released _ => True

/-! ### The invariant -/

/-- While the second frame of a pair is expected, the first one is the last that was
accepted, and its button is remembered. -/
structure PairBegun (a : ℕ) (r₀ : IrRemote) (d : Receiver) (last : Option FrameResult)
    (r : IrRemote) : Prop where
  remote : d.remotes[a]? = some r
  same : SameButtons r₀ r
  begun : toggleOdd r = true → ∃ words message c,
    last = some (.accepted words false message) ∧ buttonOf r₀ words = some c ∧ r.toggleCode = some c

/-- The results are confirmed, after the last one before them. -/
def EachConfirmed (r : IrRemote) : Option FrameResult → List FrameResult → Prop
  | _, [] => True
  | last, result :: results =>
      (∀ words flipped, result = .accepted words flipped true →
        flipped = true ∧ Confirms r words last) ∧ EachConfirmed r (some result) results

/-! ### One frame -/

/-- What the loop over the remotes does to the one with the index `i`, by what it
finds. -/
inductive TriedAt (i : ℕ) (r : IrRemote) : Option Found → IrRemote → Prop
  | failed {found : Option Found} {r' : IrRemote} (hlater : ∀ f ∈ found, i < f.remote)
      (hsame : SameButtons r r') (hstate : r'.toggleMaskState = 0) : TriedAt i r found r'
  | found {f : Found} {r' : IrRemote} (hremote : f.remote = i)
      (hcode : getCode r f.decoded.words = (some (f.code, f.state), r')) : TriedAt i r (some f) r'
  | passed {f : Found} (hearlier : f.remote < i) : TriedAt i r (some f) r

/-- The remote that is found is one of those that are tried. -/
theorem tryRemotes_remote (decoded : ℕ → Option Decoded) (i : ℕ) (rs : List IrRemote) :
    ∀ f ∈ (tryRemotes decoded i rs).2, i ≤ f.remote := by
  induction rs generalizing i with
  | nil => exact fun f hf => by cases hf
  | cons r rs ih =>
      rw [tryRemotes]
      have hrest : ∀ f ∈ (tryRemotes decoded (i + 1) rs).2, i ≤ f.remote := fun f hf =>
        (Nat.le_succ i).trans (ih (i + 1) f hf)
      split
      · exact hrest
      · split
        · exact hrest
        · rintro f ⟨⟩
          exact le_rfl

theorem tryRemotes_at (decoded : ℕ → Option Decoded) (i j : ℕ) (rs : List IrRemote) {r : IrRemote}
    (hr : rs[j]? = some r) (h : NoSequences r) :
    ∃ r', (tryRemotes decoded i rs).1[j]? = some r' ∧
      TriedAt (i + j) r (tryRemotes decoded i rs).2 r' := by
  induction rs generalizing i j with
  | nil => cases hr
  | cons first rs ih =>
      have hlater : ∀ f ∈ (tryRemotes decoded (i + 1) rs).2, i < f.remote :=
        tryRemotes_remote decoded (i + 1) rs
      have hskip : ∀ first', SameButtons first first' ∧ first'.toggleMaskState = 0 ∨ j ≠ 0 →
          ∃ r', (first' :: (tryRemotes decoded (i + 1) rs).1)[j]? = some r' ∧
            TriedAt (i + j) r (tryRemotes decoded (i + 1) rs).2 r' := by
        intro first' hfirst
        cases j with
        | zero =>
            cases hr
            obtain ⟨hsame, hstate⟩ := hfirst.resolve_right (not_not.mpr rfl)
            exact ⟨first', rfl, .failed hlater hsame hstate⟩
        | succ j =>
            obtain ⟨r', hr', htried⟩ := ih (i + 1) j hr
            rw [show i + (j + 1) = i + 1 + j by omega]
            exact ⟨r', hr', htried⟩
      have hsame : ∀ x, SameButtons first (getCode first x).2 ∨ j ≠ 0 := by
        intro x
        cases j with
        | zero =>
            cases hr
            exact .inl (getCode_sameButtons h x).1
        | succ j => exact .inr (Nat.succ_ne_zero j)
      rw [tryRemotes]
      split
      · exact hskip _ (.inl ⟨⟨_, _, _, _, _, _, _, _, _, _, _, rfl⟩, rfl⟩)
      · next x _ =>
          have hgot := hsame x.words
          generalize hcode : getCode first ⟨x.pre, x.code, x.post⟩ = got
          rw [show getCode first x.words = got from hcode] at hgot
          obtain ⟨_ | ⟨c, state⟩, first'⟩ := got
          · exact hskip _ (hgot.imp_left fun hsame =>
              ⟨hsame.trans ⟨_, _, _, _, _, _, _, _, _, _, _, rfl⟩, rfl⟩)
          · cases j with
            | zero =>
                cases hr
                exact ⟨first', rfl, .found rfl hcode⟩
            | succ j => exact ⟨r, hr, .passed (by show i < i + (j + 1); omega)⟩

/-- What a driver leaves of the remote. A reset only ends a pair. -/
theorem PairBegun.driven {a : ℕ} {r₀ r : IrRemote} {d : Receiver} {last : Option FrameResult}
    (h : PairBegun a r₀ d last r) {left : ℕ → IrRemote → IrRemote}
    (hleft : LeftByDriver r (left a r)) : PairBegun a r₀ (driven left d) last (left a r) := by
  refine ⟨?_, ?_, fun hodd => ?_⟩
  · rw [Lirc.driven, List.getElem?_mapIdx, h.remote]
    rfl
  · obtain ⟨_, _, _, _, heq, -⟩ := hleft
    rw [heq]
    exact h.same.trans ⟨_, _, _, _, _, _, _, _, _, _, _, rfl⟩
  · obtain ⟨pone, sone, state, code, heq, ⟨hstate, hcode⟩ | ⟨hstate, hcode⟩⟩ := hleft
    · have hkept : toggleOdd (left a r) = toggleOdd r := by
        apply toggleOdd_of_state
        rw [heq]
        exact hstate
      obtain ⟨words, message, c, hlast, hbutton, htoggle⟩ := h.begun (hkept.symm.trans hodd)
      refine ⟨words, message, c, hlast, hbutton, ?_⟩
      rw [heq, ← htoggle]
      exact hcode
    · rw [toggleOdd, heq, hstate] at hodd
      cases hodd

section Frame

variable {decoded : ℕ → Option Decoded} {now a : ℕ} {d : Receiver} {r r' r₀ : IrRemote}
variable {f : Found} {last : Option FrameResult}

/-- The remotes other than the one that is found. -/
theorem decodeAll_other (hr' : (triedRemotes decoded d)[a]? = some r') (h : NoSequences r')
    (hother : ∀ f ∈ (tryRemotes decoded 0 d.remotes).2, f.remote ≠ a) :
    (decodeAll decoded now d).2.remotes[a]? = some r' := by
  rw [decodeAll_eq]
  cases hfound : foundFor decoded d with
  | none => exact hr'
  | some found =>
      obtain ⟨f, r, code⟩ := found
      have hf : f ∈ (tryRemotes decoded 0 d.remotes).2 := by
        simp only [foundFor, Option.bind_eq_bind, Option.bind_eq_some_iff, Option.some.injEq,
          Prod.mk.injEq] at hfound
        obtain ⟨f', hf', -, -, -, -, rfl, -, -⟩ := hfound
        exact hf'
      show (List.set _ f.remote _)[a]? = some r'
      rw [List.getElem?_set_ne (hother f hf)]
      split
      · exact hr'
      · rw [List.getElem?_map, hr', Option.map_some, resetCurrents_noSequences h]

/-- The remote that is found. -/
theorem decodeAll_found (hf : (tryRemotes decoded 0 d.remotes).2 = some f)
    (hr : (triedRemotes decoded d)[f.remote]? = some r) {code : IrNcode}
    (hcode : r.codes[f.code]? = some code) :
    let reported := reportCode (f.count (d.lastDecoded == some f.remote) now r) f.code
    foundFor decoded d = some (f, r, code) ∧
      (decodeAll decoded now d).1.isSome = reported.1.isSome ∧
      (decodeAll decoded now d).2.remotes[f.remote]? = some reported.2 := by
  intro reported
  have hfound : foundFor decoded d = some (f, r, code) := by
    rw [triedRemotes] at hr
    simp only [foundFor, hf, hr, hcode, Option.bind_eq_bind, Option.bind_some]
  refine ⟨hfound, ?_, ?_⟩
  · rw [decodeAll_eq, hfound]
    exact Option.isSome_map
  · rw [decodeAll_eq, hfound]
    refine List.getElem?_set_self ?_
    have hlength := (List.getElem?_eq_some_iff.mp hr).1
    split
    · exact hlength
    · rw [List.length_map]
      exact hlength

/-- A remote whose frame is not accepted expects the first frame of a pair. -/
theorem PairBegun.of_even {last' : Option FrameResult} (hr : d.remotes[a]? = some r)
    (hsame : SameButtons r₀ r) (hstate : r.toggleMaskState = 0) : PairBegun a r₀ d last' r := by
  refine ⟨hr, hsame, fun hodd => ?_⟩
  rw [toggleOdd, hstate] at hodd
  cases hodd

/-- A frame that is accepted. If its bits are flipped, it continues the press. -/
theorem accepted_pairs (hbegun : PairBegun a r₀ d last r) (hmask : hasToggleMask r₀ = true)
    (hno : NoSequences r₀) (hf : (tryRemotes decoded 0 d.remotes).2 = some f) (hremote : f.remote = a)
    (hr' : (triedRemotes decoded d)[a]? = some r')
    (hgot : getCode r f.decoded.words = (some (f.code, f.state), r'))
    (hcontinues : ∀ code, foundFor decoded d = some (f, r', code) → toggleOdd r' = true →
      f.continues d r' code now = true) :
    let out := decodeAll decoded now d
    let result := FrameResult.accepted f.decoded.words (toggleOdd r) out.1.isSome
    (∃ r'', PairBegun a r₀ out.2 (some result) r'') ∧
      (out.1.isSome = true → toggleOdd r = true ∧ Confirms r₀ f.decoded.words last) := by
  intro out result
  have hmaskr : hasToggleMask r = true := hbegun.same.hasToggleMask.trans hmask
  have hnor := hbegun.same.noSequences hno
  have hspec := (getCode_spec r f.decoded.words).2.2.2 (f.code, f.state)
  obtain ⟨hsame, hstate⟩ := getCode_sameButtons hnor f.decoded.words
  obtain ⟨hbutton, hremembered⟩ := getCode_toggles hmaskr (congrArg Prod.fst hgot)
  rw [hgot] at hspec hsame hstate hremembered
  have hodd : toggleOdd r' = toggleOdd r := toggleOdd_of_state hstate
  have hmaskr' : hasToggleMask r' = true := hsame.hasToggleMask.trans hmaskr
  obtain ⟨code, hcode⟩ : ∃ code, r'.codes[f.code]? = some code := by
    rw [hsame.codes]
    exact ⟨_, List.getElem?_eq_getElem (hspec rfl)⟩
  obtain ⟨hfound, hmessage, hremotes⟩ := @decodeAll_found _ now _ _ _ hf (hremote ▸ hr') _ hcode
  obtain ⟨hsameCounted, hcounted⟩ := setCode_toggles hmaskr' hcode f.state
    (d.lastDecoded == some f.remote) f.decoded now
  rw [show Lirc.continues r' f.code code f.state (d.lastDecoded == some f.remote) f.decoded now =
    f.continues d r' code now from rfl] at hcounted
  have hcontinues := hcontinues code hfound
  rw [show setCode r' f.code f.state (d.lastDecoded == some f.remote) f.decoded.repeatFlag
      f.decoded.minRemainingGap f.decoded.maxRemainingGap now =
    f.count (d.lastDecoded == some f.remote) now r' from rfl] at hsameCounted hcounted
  generalize f.count (d.lastDecoded == some f.remote) now r' = counted at *
  obtain ⟨hsameReported, hstateReported, hcodeReported, hreported⟩ :=
    reportCode_toggles (hsameCounted.noSequences (hsame.noSequences hnor)) f.code
  have hreported := fun hsome => hreported hsome (hsameCounted.hasToggleMask.trans hmaskr')
  have hoddReported := toggleOdd_of_state hstateReported
  have hkept := hbegun.same.trans (hsame.trans (hsameCounted.trans hsameReported))
  rw [← hmessage] at hreported
  rw [hremote] at hremotes
  rw [untoggle_of_mask hmaskr] at hbutton
  cases hflipped : toggleOdd r with
  | true =>
      -- the second frame of a pair
      rw [hflipped, if_pos rfl] at hbutton hremembered
      rw [hcontinues (hodd.trans hflipped), if_pos rfl, hodd, hflipped] at hcounted
      obtain ⟨words, message, c, hlast, hbefore, htoggle⟩ := hbegun.begun hflipped
      have hcode : c = f.code := Option.some.inj (htoggle.symm.trans hremembered)
      refine ⟨⟨_, hremotes, hkept, fun h => ?_⟩, fun _ => ⟨rfl, words, message, c, hlast, hbefore, ?_⟩⟩
      · rw [hoddReported, hcounted.1] at h
        cases h
      · rw [hcode, ← hbutton, hbegun.same.buttonOf, hbegun.same.flipMask]
  | false =>
      -- the first frame of a pair
      rw [hflipped, if_neg Bool.false_ne_true] at hbutton hremembered
      have hexpected : toggleOdd counted = true ∧ counted.toggleCode = some f.code := by
        split at hcounted
        · rw [hcounted.1, hcounted.2, hodd, hflipped]
          exact ⟨rfl, hremembered⟩
        · exact hcounted
      refine ⟨⟨_, hremotes, hkept, fun _ => ⟨f.decoded.words, out.1.isSome, f.code, ?_, ?_, ?_⟩⟩,
        fun hsome => ?_⟩
      · show some (FrameResult.accepted _ (toggleOdd r) _) = _
        rw [hflipped]
      · rw [← hbutton, hbegun.same.buttonOf]
      · exact hcodeReported.trans hexpected.2
      · exact absurd hexpected.1 (Bool.eq_false_iff.mp (hreported hsome))

end Frame

/-- A step of the receiver. -/
theorem togglingStep_pairs {a : ℕ} {r₀ r : IrRemote} {d : Receiver} {last : Option FrameResult}
    (hbegun : PairBegun a r₀ d last r) (hmask : hasToggleMask r₀ = true) (hno : NoSequences r₀)
    (e : TogglingEvent) (hcontinues : FlippedContinues a d e) :
    (∃ r', PairBegun a r₀ (togglingStep d e) ((frameResult a d e).or last) r') ∧
      ∀ words flipped, frameResult a d e = some (.accepted words flipped true) →
        flipped = true ∧ Confirms r₀ words last := by
  cases e with
  | released b =>
      refine ⟨?_, fun words flipped h => by cases h⟩
      have hget : (detectRelease b d.remotes)[a]? =
          some (if b = a then { r with releaseDetected := true } else r) := by
        rw [detectRelease, List.getElem?_modify, hbegun.remote]
        rfl
      split at hget
      · exact ⟨_, hget, hbegun.same.trans ⟨_, _, _, _, _, _, _, _, _, _, _, rfl⟩, hbegun.begun⟩
      · exact ⟨_, hget, hbegun.same, hbegun.begun⟩
  | frame decoded left hleft now =>
      have hdriven := hbegun.driven (hleft a r)
      have hno' := hdriven.same.noSequences hno
      obtain ⟨r', hr', htried⟩ := tryRemotes_at decoded 0 a _ hdriven.remote hno'
      rw [Nat.zero_add] at htried
      simp only [frameResult, togglingStep]
      generalize hfound : (tryRemotes decoded 0 (driven left d).remotes).2 = found at htried ⊢
      cases htried with
      | failed hlater hsame hstate =>
          have hother : ∀ f ∈ found, f.remote ≠ a := fun f hf => (hlater f hf).ne'
          have hfailed : (match found with
              | none => some FrameResult.failed
              | some f =>
                  if f.remote < a then none
                  else if f.remote = a then
                    some (.accepted f.decoded.words ((driven left d).remotes[a]?.any toggleOdd)
                      (decodeAll decoded now (driven left d)).1.isSome)
                  else some .failed) = some .failed := by
            cases found with
            | none => rfl
            | some f =>
                have hlt := hlater f rfl
                simp only []
                rw [if_neg (Nat.not_lt.mpr hlt.le), if_neg hlt.ne']
          rw [hfailed]
          refine ⟨⟨r', ?_⟩, fun words flipped h => by cases h⟩
          apply PairBegun.of_even
          · exact decodeAll_other hr' (hsame.noSequences hno') (hfound ▸ hother)
          · exact hdriven.same.trans hsame
          · exact hstate
      | found hremote hcode =>
          obtain ⟨hbegun', hconfirms⟩ := @accepted_pairs _ now _ _ _ _ _ _ _ hdriven hmask hno hfound hremote
            hr' hcode fun code hf hodd => hcontinues _ hf hremote hodd
          simp only []
          rw [if_neg (Nat.not_lt.mpr hremote.ge), if_pos hremote, hdriven.remote, Option.any_some]
          refine ⟨hbegun', fun words flipped h => ?_⟩
          injection h with h
          injection h with hwords hflipped hmessage
          obtain ⟨hodd, hbefore⟩ := hconfirms hmessage
          rw [← hwords, ← hflipped]
          exact ⟨hodd, hbefore⟩
      | passed hearlier =>
          simp only []
          rw [if_pos hearlier]
          refine ⟨⟨left a r, ?_, hdriven.same, hdriven.begun⟩, fun words flipped h => by cases h⟩
          exact decodeAll_other hr' hno' (hfound ▸ fun f hf => by cases hf; exact hearlier.ne)

/-! ### Whole runs -/

theorem frameResults_eachConfirmed {a : ℕ} {r₀ r : IrRemote} {d : Receiver}
    {last : Option FrameResult} (hbegun : PairBegun a r₀ d last r)
    (hmask : hasToggleMask r₀ = true) (hno : NoSequences r₀) {events : List TogglingEvent}
    (hcontinues : Along togglingStep (FlippedContinues a) d events) :
    EachConfirmed r₀ last (frameResults a d events) := by
  induction events generalizing d last r with
  | nil => trivial
  | cons e es ih =>
      obtain ⟨hthis, hrest⟩ := hcontinues
      obtain ⟨⟨r', hbegun'⟩, hconfirmed⟩ := togglingStep_pairs hbegun hmask hno e hthis
      have hnext := ih hbegun' hrest
      rw [frameResults]
      cases hresult : frameResult a d e with
      | none =>
          rw [hresult, Option.none_or] at hnext
          exact hnext
      | some result =>
          rw [hresult, Option.some_or] at hnext
          refine ⟨fun words flipped h => ?_, hnext⟩
          rw [h] at hresult
          exact hconfirmed words flipped hresult

theorem EachConfirmed.getElem? {r : IrRemote} {last : Option FrameResult}
    {results : List FrameResult} (h : EachConfirmed r last results) {i : ℕ} {words : Received}
    {flipped : Bool} (hi : results[i]? = some (.accepted words flipped true)) :
    flipped = true ∧ Confirms r words (if i = 0 then last else results[i - 1]?) := by
  induction results generalizing last i with
  | nil => cases hi
  | cons result results ih =>
      obtain ⟨hthis, hrest⟩ := h
      cases i with
      | zero => exact hthis words flipped (Option.some.inj hi)
      | succ i =>
          have hconfirms := ih hrest hi
          rw [if_neg (Nat.succ_ne_zero i)]
          cases i with
          | zero => exact hconfirms
          | succ i => exact hconfirms

theorem EachConfirmed.pairsConfirmed {r : IrRemote} {results : List FrameResult}
    (h : EachConfirmed r none results) : PairsConfirmed r results where
  confirmed := by
    intro i words flipped hi
    obtain ⟨hflipped, hconfirms⟩ := h.getElem? hi
    cases i with
    | zero =>
        obtain ⟨_, _, _, hnone, -⟩ := hconfirms
        cases hnone
    | succ j => exact ⟨hflipped, j, rfl, hconfirms⟩
  apart := by
    intro i j words words' flipped flipped' hi hj hlt
    obtain ⟨hflipped, -⟩ := h.getElem? hi
    obtain ⟨-, _, _, _, hbefore, -⟩ := h.getElem? hj
    -- the frame before the second message is not flipped, the first message's frame is
    by_contra hnext
    obtain rfl : i = j - 1 := by omega
    rw [if_neg (by omega), hi, hflipped] at hbefore
    cases hbefore

/-- Every message of a remote with a toggle mask is about two frames of one button, the
second of which has its bits flipped, as long as no frame that is accepted with flipped
bits starts a press. -/
theorem toggle_pairs_confirmed (a : ℕ) (d : Receiver) (r : IrRemote) (events : List TogglingEvent)
    (hr : d.remotes[a]? = some r) (hmask : hasToggleMask r = true) (hno : NoSequences r)
    (hstart : r.toggleMaskState = 0)
    (hcontinues : Along togglingStep (FlippedContinues a) d events) :
    PairsConfirmed r (frameResults a d events) :=
  (frameResults_eachConfirmed (.of_even hr (.refl r) hstart) hmask hno hcontinues).pairsConfirmed

/-- A remote whose buttons are confirmed by frames with inverted bits. -/
def maskedRemote : IrRemote where
  name := "vcr".toList
  codes := [{ name := "play".toList, code := 0x11 }, { name := "stop".toList, code := 0x12 }]
  bits := 8
  flags := spaceEnc
  pone := 500
  sone := 1500
  pzero := 500
  szero := 500
  ptrail := 500
  gap := 100000
  toggleMask := 0xFF

/-- A frame of the first remote; the driver leaves the toggles. -/
def maskedFrame (code : IrCode) (repeatFlag : Bool) (now : ℕ) : TogglingEvent :=
  .frame (fun a => if a = 0 then
      some { pre := 0, code := code, post := 0, repeatFlag := repeatFlag, minRemainingGap := 100000,
             maxRemainingGap := 100000 }
    else none) (fun _ r => r) (fun _ r => .refl r) now

instance (a : ℕ) (d : Receiver) : DecidablePred (FlippedContinues a d)
  | .frame decoded left _ _ =>
      inferInstanceAs (Decidable (∀ found ∈ foundFor decoded (driven left d), _))
  | .released _ => .isTrue trivial

/-- "play" is held for two pairs of frames. -/
theorem toggle_pairs_confirmed_held :
    PairsConfirmed maskedRemote (frameResults 0 { remotes := [maskedRemote] }
      [maskedFrame 0x11 false 0, maskedFrame 0xEE true 100000, maskedFrame 0x11 true 200000,
        maskedFrame 0xEE true 300000]) :=
  toggle_pairs_confirmed 0 { remotes := [maskedRemote] } maskedRemote _ rfl (by decide) (by decide)
    rfl (by decide +kernel)

/-- The second frame of a pair comes too late to continue the press and counts as a first
one. It is repeated, and there is a message about two frames with flipped bits. -/
theorem toggle_pairs_not_confirmed :
    ¬ ∀ (a : ℕ) (d : Receiver) (r : IrRemote) (events : List TogglingEvent),
      d.remotes[a]? = some r → hasToggleMask r = true → NoSequences r → r.toggleMaskState = 0 →
      PairsConfirmed r (frameResults a d events) := by
  intro h
  have hpairs := h 0 { remotes := [maskedRemote] } maskedRemote
    [maskedFrame 0x11 false 0, maskedFrame 0xEE false 400000, maskedFrame 0xEE true 500000] rfl
    (by decide) (by decide) rfl
  have hresults : frameResults 0 { remotes := [maskedRemote] }
      [maskedFrame 0x11 false 0, maskedFrame 0xEE false 400000, maskedFrame 0xEE true 500000] =
      [.accepted ⟨0, 0x11, 0⟩ false false, .accepted ⟨0, 0xEE, 0⟩ true false,
        .accepted ⟨0, 0xEE, 0⟩ true true] := by decide +kernel
  rw [hresults] at hpairs
  obtain ⟨-, j, hj, words, message, c, hbefore, -⟩ := hpairs.confirmed 2 ⟨0, 0xEE, 0⟩ true rfl
  obtain rfl : j = 1 := by omega
  cases hbefore

end Lirc
