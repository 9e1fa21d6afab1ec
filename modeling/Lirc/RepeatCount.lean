import Lirc.Library.Run
import Lirc.Recognition

/-!
The repeats that `decode_all` counts for one remote while no other remote is
decoded. `reps` is advanced in `set_code` and shifted in `decode_all`; the messages
count up as long as neither a part of a sequence nor a frame that is not
identified has disturbed the counters in between.
-/

namespace Lirc

open Transition

/-- What happens to a remote while no other one is decoded. -/
inductive SeriesEvent
  | frame (x : Decoded) (now : ℕ)
  /-- The release of the button is detected. -/
  | released

/-- A remote, whether it is the one that was decoded last, and whether the counter
of a button with a single code has been lost. -/
structure Series where
  remote : IrRemote
  decodedLast : Bool
  disturbed : Bool := false

/-- The button with this index has a single code. -/
def isSingle (r : IrRemote) (c : ℕ) : Bool := r.codes[c]?.any fun code => code.next == []

/-- The frame repeats the last one, and no release has been detected. -/
def continues (r : IrRemote) (c : ℕ) (code : IrNcode) (state : IrCode) (same : Bool) (x : Decoded)
    (now : ℕ) : Bool :=
  continuesPress r c code state same (x.repeatFlag && !r.releaseDetected) now

/-- The counter of a button with a single code has been lost when a part of a
sequence sets it to 0. -/
def disturbs (r : IrRemote) (c : ℕ) (code : IrNcode) (state : IrCode) (same : Bool) (x : Decoded)
    (now : ℕ) : Bool :=
  !continues r c code state same x now && r.reps != 0 && r.lastCode.any (isSingle r)

/-- Once a button is complete, its own counter counts. -/
def disturbedAfter (s : Series) (x : Decoded) (now : ℕ) : Bool :=
  match getCode s.remote ⟨x.pre, x.code, x.post⟩ with
  | (none, _) => s.disturbed
  | (some (c, state), r) =>
      match r.codes[c]? with
      | none => s.disturbed
      | some code =>
          code.current != [] && (s.disturbed || disturbs r c code state s.decodedLast x now)

/-- The function that handles the event. -/
def seriesStep (s : Series) : SeriesEvent → Series
  | .frame x now =>
      { remote := (decodeFrame s.remote x s.decodedLast now).2
        decodedLast := s.decodedLast || (getCode s.remote ⟨x.pre, x.code, x.post⟩).1.isSome
        disturbed := disturbedAfter s x now }
  | .released => { s with remote := { s.remote with releaseDetected := true } }

/-- The button that a frame completes, with the repeats in its message; these are
`none` when the message is suppressed. -/
def completedBy (r : IrRemote) (x : Decoded) (same : Bool) (now : ℕ) : Option (ℕ × Option ℤ) :=
  match getCode r ⟨x.pre, x.code, x.post⟩ with
  | (none, _) => none
  | (some (c, state), r) =>
      let r := setCode r c state same x.repeatFlag x.minRemainingGap x.maxRemainingGap now
      match r.codes[c]? with
      | none => none
      | some code => if incomplete r code then none else some (c, reportedReps r code)

/-- A frame has a message if it completes a button and is not suppressed. -/
theorem decodeFrame_message (r : IrRemote) (x : Decoded) (same : Bool) (now : ℕ) :
    (decodeFrame r x same now).1 =
      (completedBy r x same now).bind fun done => done.2.map (done.1, ·) := by
  rw [decodeFrame, completedBy]
  obtain ⟨_ | ⟨c, state⟩, r'⟩ := getCode r ⟨x.pre, x.code, x.post⟩
  · rfl
  · simp only []
    generalize setCode r' c state same x.repeatFlag x.minRemainingGap x.maxRemainingGap now = counted
    cases hcode : counted.codes[c]? with
    | none => simp only [reportCode, hcode, Option.bind_none]
    | some code =>
        cases hpart : incomplete counted code with
        | true => simp only [reportCode, hcode, hpart, if_true, Option.bind_none]
        | false => simp only [reportCode, hcode, hpart, Bool.false_eq_true, if_false, Option.bind_some]

/-- The buttons that the frames of a series complete. -/
def completions : Series → List SeriesEvent → List (ℕ × Option ℤ)
  | _, [] => []
  | s, .frame x now :: es =>
      (completedBy s.remote x s.decodedLast now).toList ++
        completions (seriesStep s (.frame x now)) es
  | s, .released :: es => completions (seriesStep s .released) es

/-- The repeats in the message of a button that has been repeated `n` times
before. -/
def expectedReps (suppress n : ℕ) : Option ℤ := if n < suppress then none else some (n + 1 - suppress)

/-- After a message with no repeats the same button is completed until the next
one, `suppress` times without a message, and then with 1, 2, 3 and so on. -/
def CountsUp (suppress : ℕ) (done : List (ℕ × Option ℤ)) : Prop :=
  ∀ (before since after : List (ℕ × Option ℤ)) (c : ℕ),
    done = before ++ (c, some 0) :: (since ++ after) → (∀ e ∈ since, e.2 ≠ some 0) →
    ∀ i e, since[i]? = some e → e = (c, expectedReps suppress i)

/-- The frame does not show that the counters have been disturbed. With a toggle
mask it belongs to a button with a single code, and does not continue one that has
been repeated when a frame that was not identified has reset the toggles. Otherwise
it does not continue a button whose counter has been lost. -/
def KeepsCount (s : Series) : SeriesEvent → Prop
  | .released => True
  | .frame x now =>
      let got := getCode s.remote ⟨x.pre, x.code, x.post⟩
      let r := got.2
      ∀ found ∈ got.1, ∀ code ∈ r.codes[found.1]?,
        if hasToggleMask r then
          code.next = [] ∧
            (continues r found.1 code found.2 s.decodedLast x now = true → r.toggleMaskState = 0 →
              r.reps = 0)
        else
          s.disturbed = true → code.current = [] →
            continues r found.1 code found.2 s.decodedLast x now = false

instance (s : Series) : DecidablePred (KeepsCount s)
  | .released => .isTrue trivial
  | .frame x _ =>
      inferInstanceAs (Decidable (∀ found ∈ (getCode s.remote ⟨x.pre, x.code, x.post⟩).1, _))

/-! ### What one frame does to the counters -/

/-- A button with a single code has no pointer into its sequence. -/
def NoStrayPointers (r : IrRemote) : Prop := ∀ code ∈ r.codes, code.next = [] → code.current = []

/-- The counters of `get_code` are those of the remote, and so are the codes up to
their pointers. -/
structure SameCounters (r r' : IrRemote) : Prop where
  reps : r'.reps = r.reps
  toggleMaskState : r'.toggleMaskState = r.toggleMaskState
  lastCode : r'.lastCode = r.lastCode
  suppressRepeat : r'.suppressRepeat = r.suppressRepeat
  toggleMask : hasToggleMask r' = hasToggleMask r
  next : r'.codes.map IrNcode.next = r.codes.map IrNcode.next

theorem isSingle_eq {r r' : IrRemote} (h : r'.codes.map IrNcode.next = r.codes.map IrNcode.next)
    (c : ℕ) : isSingle r' c = isSingle r c := by
  have hget := congrArg (fun l => (l[c]?).any fun next => next == []) h
  simp only [List.getElem?_map, Option.any_map] at hget
  exact hget

/-- A match leaves no pointer to a button with a single code. -/
theorem matchCodes_noStrayPointers (r : IrRemote) (all : IrCode) (i : ℕ) (codes : List IrNcode)
    (found : Option ℕ) (haveCode : Bool) (h : ∀ code ∈ codes, code.next = [] → code.current = []) :
    ∀ code ∈ (matchCodes r all i codes found haveCode).1, code.next = [] → code.current = [] := by
  induction codes generalizing i found haveCode with
  | nil => exact h
  | cons first codes ih =>
      intro code hcode
      rw [matchCodes] at hcode
      obtain hhead | htail := List.mem_cons.mp hcode
      · intro hsingle
        subst hhead
        show (matchNcode r all first).1 = []
        have hfirst := h first List.mem_cons_self hsingle
        rw [matchNcode]
        split
        · exact hfirst
        · rw [if_pos (Or.inl hsingle)]
      · exact ih _ _ _ (fun code hmem => h code (List.mem_cons_of_mem _ hmem)) code htail

/-- `get_code` leaves the counters. -/
theorem getCode_sameCounters (r : IrRemote) (x : Received) :
    SameCounters r (getCode r x).2 ∧ (NoStrayPointers r → NoStrayPointers (getCode r x).2) := by
  have hnext := matchCodes_map IrNcode.next (fun _ _ => rfl) r
    (genIrCode r (untoggle r x).pre (untoggle r x).code (untoggle r x).post) 0 r.codes none false
  have hstray := matchCodes_noStrayPointers r
    (genIrCode r (untoggle r x).pre (untoggle r x).code (untoggle r x).post) 0 r.codes none false
  rw [getCode]
  split
  · exact ⟨⟨rfl, rfl, rfl, rfl, rfl, rfl⟩, id⟩
  · simp only []
    split
    · exact ⟨⟨rfl, rfl, rfl, rfl, rfl, hnext⟩, hstray⟩
    · rw [foundCode]
      split
      · exact ⟨⟨rfl, rfl, rfl, rfl, rfl, hnext⟩, hstray⟩
      · split
        · exact ⟨⟨rfl, rfl, rfl, rfl, rfl, hnext⟩, hstray⟩
        · split
          · exact ⟨⟨rfl, rfl, rfl, rfl, rfl, hnext⟩, hstray⟩
          · exact ⟨⟨rfl, rfl, rfl, rfl, rfl, hnext⟩, hstray⟩

/-- What `decode_all` does after the frame has been counted leaves the counters. -/
theorem reportCode_sameCounters (r : IrRemote) (c : ℕ) :
    SameCounters r (reportCode r c).2 ∧ (NoStrayPointers r → NoStrayPointers (reportCode r c).2) := by
  have hreset : (resetCurrents r).codes.map IrNcode.next = r.codes.map IrNcode.next := by
    rw [resetCurrents, List.map_map]
    rfl
  have hstray : NoStrayPointers (resetCurrents r) := by
    intro code hcode _
    obtain ⟨code', -, rfl⟩ := List.mem_map.mp hcode
    rfl
  have hmodify : ∀ (codes : List IrNcode),
      (codes.modify c fun code => { code with current := code.next }).map IrNcode.next =
        codes.map IrNcode.next ∧
      ((∀ code ∈ codes, code.next = [] → code.current = []) →
        ∀ code ∈ codes.modify c fun code => { code with current := code.next },
          code.next = [] → code.current = []) := by
    intro codes
    induction codes generalizing c with
    | nil =>
        rw [List.modify_nil]
        exact ⟨rfl, id⟩
    | cons first codes ih =>
        cases c with
        | zero =>
            refine ⟨rfl, fun h code hcode => ?_⟩
            obtain rfl | htail := List.mem_cons.mp hcode
            · exact id
            · exact h code (List.mem_cons_of_mem _ htail)
        | succ c =>
            rw [List.modify_succ_cons, List.map_cons, List.map_cons, (ih c).1]
            refine ⟨rfl, fun h code hcode => ?_⟩
            obtain rfl | htail := List.mem_cons.mp hcode
            · exact h code List.mem_cons_self
            · exact (ih c).2 (fun code hmem => h code (List.mem_cons_of_mem _ hmem)) code htail
  rw [reportCode]
  split
  · exact ⟨⟨rfl, rfl, rfl, rfl, rfl, rfl⟩, id⟩
  · split
    · exact ⟨⟨rfl, rfl, rfl, rfl, rfl, rfl⟩, id⟩
    · rw [expectNext]
      split
      · exact ⟨⟨rfl, rfl, rfl, rfl, rfl, (hmodify _).1.trans hreset⟩, fun _ => (hmodify _).2 hstray⟩
      · exact ⟨⟨rfl, rfl, rfl, rfl, rfl, hreset⟩, fun _ => hstray⟩

/-- The remote after `set_code` has counted a frame, up to what the counters do
not depend on. -/
structure Counted (r r' : IrRemote) (last : Option ℕ) (reps : ℤ) : Prop where
  codes : r'.codes = r.codes
  suppressRepeat : r'.suppressRepeat = r.suppressRepeat
  toggleMask : hasToggleMask r' = hasToggleMask r
  lastCode : r'.lastCode = last
  reps : r'.reps = reps

theorem countRepeated_counted (r : IrRemote) (code : IrNcode) :
    Counted r (countRepeated r code) r.lastCode
        (if hasToggleMask r then if r.toggleMaskState + 1 = 4 then r.reps + 1 else r.reps
        else if code.current = [] then r.reps + 1 else r.reps) ∧
      (hasToggleMask r = true → (countRepeated r code).toggleMaskState =
        if r.toggleMaskState + 1 = 4 then 2 else r.toggleMaskState + 1) := by
  rw [countRepeated]
  split
  · split
    · exact ⟨⟨rfl, rfl, rfl, rfl, rfl⟩, fun _ => rfl⟩
    · exact ⟨⟨rfl, rfl, rfl, rfl, rfl⟩, fun _ => rfl⟩
  · next hno =>
      split
      · exact ⟨⟨rfl, rfl, rfl, rfl, rfl⟩, fun h => absurd h hno⟩
      · exact ⟨⟨rfl, rfl, rfl, rfl, rfl⟩, fun h => absurd h hno⟩

theorem startPress_counted (r : IrRemote) (c : ℕ) (code : IrNcode) (state : IrCode) :
    Counted r (startPress r c code state) r.lastCode
        (if code.next ≠ [] ∧ code.current = [] then 1 else 0) ∧
      (hasToggleMask r = true → (startPress r c code state).toggleMaskState = 1) := by
  have hstored : ∀ r', (storeToggleBits r' state).toggleMaskState = r'.toggleMaskState ∧
      ∀ last reps, Counted r r' last reps → Counted r (storeToggleBits r' state) last reps := by
    intro r'
    rw [storeToggleBits]
    split
    · exact ⟨rfl, fun _ _ h => ⟨h.codes, h.suppressRepeat, h.toggleMask, h.lastCode, h.reps⟩⟩
    · exact ⟨rfl, fun _ _ => id⟩
  have hstarted : ∀ r' : IrRemote, hasToggleMask r' = hasToggleMask r →
      (hasToggleMask r = true → (startToggleMask r' c).toggleMaskState = 1) ∧
        ∀ last reps, Counted r r' last reps → Counted r (startToggleMask r' c) last reps := by
    intro r' htoggle
    rw [startToggleMask]
    split
    · exact ⟨fun _ => rfl, fun _ _ h => ⟨h.codes, h.suppressRepeat, h.toggleMask, h.lastCode, h.reps⟩⟩
    · next hno =>
        rw [htoggle] at hno
        exact ⟨fun h => absurd h hno, fun _ _ => id⟩
  have hpressed : Counted r
      { r with reps := if code.next ≠ [] ∧ code.current = [] then 1 else 0 } r.lastCode
      (if code.next ≠ [] ∧ code.current = [] then 1 else 0) := ⟨rfl, rfl, rfl, rfl, rfl⟩
  rw [startPress]
  refine ⟨(hstored _).2 _ _ ((hstarted _ hpressed.toggleMask).2 _ _ hpressed), fun h => ?_⟩
  rw [(hstored _).1]
  exact (hstarted _ hpressed.toggleMask).1 h

/-- What `set_code` does to the counters. -/
theorem setCode_counted {r : IrRemote} {c : ℕ} {code : IrNcode} (hcode : r.codes[c]? = some code)
    (state : IrCode) (same : Bool) (x : Decoded) (now : ℕ) :
    Counted r (setCode r c state same x.repeatFlag x.minRemainingGap x.maxRemainingGap now)
        (if code.current = [] then some c else r.lastCode)
        (if continues r c code state same x now then
          if hasToggleMask r then if r.toggleMaskState + 1 = 4 then r.reps + 1 else r.reps
          else if code.current = [] then r.reps + 1 else r.reps
        else if code.next ≠ [] ∧ code.current = [] then 1 else 0) ∧
      (hasToggleMask r = true →
        (setCode r c state same x.repeatFlag x.minRemainingGap x.maxRemainingGap
            now).toggleMaskState =
          if continues r c code state same x now then
            if r.toggleMaskState + 1 = 4 then 2 else r.toggleMaskState + 1
          else 1) := by
  rw [setCode, hcode]
  simp only [countFrame]
  rw [show continuesPress r c code state same (x.repeatFlag && !r.releaseDetected) now =
    continues r c code state same x now from rfl]
  cases continues r c code state same x now with
  | true =>
      obtain ⟨hcounted, htoggle⟩ := countRepeated_counted { r with releaseDetected := false } code
      refine ⟨⟨hcounted.codes, hcounted.suppressRepeat, hcounted.toggleMask, ?_, hcounted.reps⟩,
        htoggle⟩
      show (if code.current = [] then some c else _) = _
      rw [if_pos rfl, hcounted.lastCode]
  | false =>
      obtain ⟨hcounted, htoggle⟩ :=
        startPress_counted { r with releaseDetected := false } c code state
      refine ⟨⟨hcounted.codes, hcounted.suppressRepeat, hcounted.toggleMask, ?_, hcounted.reps⟩,
        htoggle⟩
      show (if code.current = [] then some c else _) = _
      rw [if_neg Bool.false_ne_true, hcounted.lastCode]

/-! ### The invariant of a series -/

/-- The counters of a remote without a toggle mask, whose last message with no
repeats was that of a button, since when it has been repeated so many times. A
part of a sequence may have set the counter of a sequence to 0, so that its next
message has no repeats again. -/
def PlainCounters (r : IrRemote) (disturbed : Bool) : Option (ℕ × ℕ) → Prop
  | none => True
  | some (c, n) =>
      r.lastCode = some c ∧ (r.reps = n + (if isSingle r c then 0 else 1) ∨
        isSingle r c = false ∧ r.reps = 0 ∨ disturbed = true)

/-- The counters of a remote with a toggle mask. Every second frame of a press has
a message. -/
structure ToggleCounters (r : IrRemote) (q : Option (ℕ × ℕ)) : Prop where
  range : 0 ≤ r.toggleMaskState ∧ r.toggleMaskState ≤ 3
  first : r.toggleMaskState = 1 → ∀ c n, q = some (c, n) → r.reps = 0
  later : 2 ≤ r.toggleMaskState → ∀ c n, q = some (c, n) → r.lastCode = some c ∧ r.reps = n

/-- The counters fit to the messages so far. -/
structure CountersFit (r : IrRemote) (disturbed : Bool) (q : Option (ℕ × ℕ)) : Prop where
  pointers : NoStrayPointers r
  suppress : 0 ≤ r.suppressRepeat
  plain : hasToggleMask r = false → PlainCounters r disturbed q
  toggle : hasToggleMask r = true → ToggleCounters r q

/-- The button of the last message with no repeats and the number of its repeats,
after one more button has been completed. -/
def nextMessage (q : Option (ℕ × ℕ)) (done : ℕ × Option ℤ) : Option (ℕ × ℕ) :=
  if done.2 = some 0 then some (done.1, 0) else q.map fun p => (p.1, p.2 + 1)

/-- What may be completed next. -/
def MayFollow (suppress : ℕ) (q : Option (ℕ × ℕ)) (done : ℕ × Option ℤ) : Prop :=
  done.2 ≠ some 0 → ∀ c n, q = some (c, n) → done = (c, expectedReps suppress n)

/-- One button after the other may follow. -/
def CountsFrom (suppress : ℕ) : Option (ℕ × ℕ) → List (ℕ × Option ℤ) → Prop
  | _, [] => True
  | q, e :: done => MayFollow suppress q e ∧ CountsFrom suppress (nextMessage q e) done

/-- While no message says otherwise the repeats of a button are counted. -/
theorem CountsFrom.since {suppress c n : ℕ} {since after : List (ℕ × Option ℤ)}
    (h : CountsFrom suppress (some (c, n)) (since ++ after)) (hsince : ∀ e ∈ since, e.2 ≠ some 0)
    {i : ℕ} {e : ℕ × Option ℤ} (he : since[i]? = some e) :
    e = (c, expectedReps suppress (n + i)) := by
  induction since generalizing n i with
  | nil => cases he
  | cons first since ih =>
      obtain ⟨hfirst, hrest⟩ := h
      have hne := hsince first List.mem_cons_self
      cases i with
      | zero =>
          cases he
          exact hfirst hne c n rfl
      | succ i =>
          rw [nextMessage, if_neg hne] at hrest
          have hnext := ih hrest (fun e hmem => hsince e (List.mem_cons_of_mem _ hmem)) he
          rw [hnext, show n + 1 + i = n + (i + 1) by omega]

theorem CountsFrom.countsUp {suppress : ℕ} {q : Option (ℕ × ℕ)} {done : List (ℕ × Option ℤ)}
    (h : CountsFrom suppress q done) : CountsUp suppress done := by
  rintro before since after c rfl hsince i e he
  induction before generalizing q with
  | nil =>
      have hnext := h.2
      rw [nextMessage, if_pos rfl] at hnext
      have hcount := hnext.since hsince he
      rwa [Nat.zero_add] at hcount
  | cons first before ih => exact ih h.2

/-! ### One frame -/

section Step

variable {r : IrRemote} {q : Option (ℕ × ℕ)} {c : ℕ} {code : IrNcode}

theorem isSingle_of_getElem? (hcode : r.codes[c]? = some code) :
    isSingle r c = (code.next == []) := by rw [isSingle, hcode, Option.any_some]

/-- A frame that ends a button continues only the one that was last. -/
theorem lastCode_of_continues {state : IrCode} {same : Bool} {x : Decoded} {now : ℕ}
    (hcurrent : code.current = []) (h : continues r c code state same x now = true) :
    r.lastCode = some c := by
  rw [continues, continuesPress, hcurrent] at h
  simp only [Bool.and_eq_true, Bool.or_eq_true, beq_iff_eq, bne_self_eq_false, Bool.and_false,
    Bool.false_eq_true, or_false] at h
  exact h.1.1.1.2

/-- The message of a button whose counter stands at `v`. -/
theorem reportedReps_eq {counted : IrRemote} {v : ℤ}
    (hv : counted.reps = v + if code.next = [] then 0 else 1) :
    reportedReps counted code =
      if 0 < v then if v ≤ counted.suppressRepeat then none else some (v - counted.suppressRepeat)
      else some v := by
  rw [reportedReps, hv, Int.add_sub_cancel]

theorem reportedReps_zero {counted : IrRemote}
    (hv : counted.reps = if code.next = [] then 0 else 1) : reportedReps counted code = some 0 :=
  reportedReps_eq (v := 0) (by rw [hv, Int.zero_add])

/-- One repeat more is reported as it should be. -/
theorem reportedReps_succ {counted : IrRemote} {n : ℕ} (hsuppress : 0 ≤ counted.suppressRepeat)
    (hv : counted.reps = n + 1 + if code.next = [] then 0 else 1) :
    reportedReps counted code = expectedReps counted.suppressRepeat.toNat n ∧
      reportedReps counted code ≠ some 0 := by
  rw [reportedReps_eq hv, expectedReps, if_pos (by omega)]
  by_cases hle : (n : ℤ) + 1 ≤ counted.suppressRepeat
  · rw [if_pos hle, if_pos (by omega)]
    exact ⟨rfl, Option.some_ne_none _ |>.symm⟩
  · rw [if_neg hle, if_neg (by omega), Int.toNat_of_nonneg hsuppress]
    refine ⟨rfl, fun h => ?_⟩
    have hzero := Option.some.inj h
    omega

/-- Only a counter that stands at 0 is reported as no repeats. -/
theorem reps_of_reportedReps {counted : IrRemote} (h : reportedReps counted code = some 0) :
    counted.reps = if code.next = [] then 0 else 1 := by
  have hv : counted.reps = (counted.reps - if code.next = [] then 0 else 1) +
      if code.next = [] then 0 else 1 := by omega
  rw [reportedReps_eq hv] at h
  generalize (if code.next = [] then (0 : ℤ) else 1) = first at h ⊢
  split at h
  · split at h
    · cases h
    · have hzero := Option.some.inj h
      omega
  · have hzero := Option.some.inj h
    omega

/-- A frame of a remote without a toggle mask that ends a button. -/
theorem plain_completed (hno : hasToggleMask r = false) (hsuppress : 0 ≤ r.suppressRepeat)
    {disturbed : Bool} (hq : PlainCounters r disturbed q) (hcode : r.codes[c]? = some code)
    (hcurrent : code.current = []) (state : IrCode) (same : Bool) (x : Decoded) (now : ℕ)
    (hkeeps : disturbed = true → continues r c code state same x now = false) :
    let counted := setCode r c state same x.repeatFlag x.minRemainingGap x.maxRemainingGap now
    MayFollow counted.suppressRepeat.toNat q (c, reportedReps counted code) ∧
      PlainCounters counted false (nextMessage q (c, reportedReps counted code)) := by
  intro counted
  obtain ⟨hcounted, -⟩ := setCode_counted hcode state same x now
  have hsup : 0 ≤ counted.suppressRepeat := by
    rw [hcounted.suppressRepeat]
    exact hsuppress
  have hlast : counted.lastCode = some c := by rw [hcounted.lastCode, if_pos hcurrent]
  have hsingle : ∀ v : ℤ, (v + if code.next = [] then 0 else 1) =
      v + if isSingle counted c then 0 else 1 := by
    intro v
    have hget : counted.codes[c]? = some code := by
      rw [hcounted.codes]
      exact hcode
    rw [isSingle_of_getElem? hget]
    simp only [beq_iff_eq]
  -- a new press
  have hpress : counted.reps = (if code.next = [] then 0 else 1) →
      MayFollow counted.suppressRepeat.toNat q (c, reportedReps counted code) ∧
        PlainCounters counted false (nextMessage q (c, reportedReps counted code)) := by
    intro hreps
    rw [reportedReps_zero hreps]
    refine ⟨fun h => absurd rfl h, hlast, .inl ?_⟩
    rw [hreps, ← Int.zero_add (if code.next = [] then 0 else 1), hsingle]
    rfl
  have hreps := hcounted.reps
  rw [hno] at hreps
  cases hcont : continues r c code state same x now with
  | false =>
      apply hpress
      rw [hreps, hcont]
      by_cases hnext : code.next = []
      · simp [hnext]
      · simp [hnext, hcurrent]
  | true =>
      rw [hcont] at hreps
      simp only [if_true, if_pos hcurrent, Bool.false_eq_true, if_false] at hreps
      have hwas := lastCode_of_continues hcurrent hcont
      cases q with
      | none =>
          refine ⟨fun _ c n h => absurd h (Option.some_ne_none _).symm, ?_⟩
          by_cases hzero : reportedReps counted code = some 0
          · exact (hpress (reps_of_reportedReps hzero)).2
          · rw [nextMessage, if_neg hzero]
            trivial
      | some p =>
          obtain ⟨c₀, n⟩ := p
          obtain ⟨hlast₀, hcases⟩ := hq
          have heq : c₀ = c := Option.some.inj (hlast₀.symm.trans hwas)
          subst heq
          have hsame : isSingle r c₀ = (code.next == []) := isSingle_of_getElem? hcode
          obtain hcount | ⟨hnot, hzero⟩ | hlost := hcases
          · -- one repeat more
            have hnext : counted.reps = n + 1 + if code.next = [] then 0 else 1 := by
              rw [hreps, hcount, hsame]
              simp only [beq_iff_eq]
              omega
            obtain ⟨hreported, hne⟩ := reportedReps_succ hsup hnext
            refine ⟨fun _ c n h => ?_, ?_⟩
            · cases h
              rw [hreported]
            · rw [nextMessage, if_neg hne]
              refine ⟨hlast, .inl ?_⟩
              rw [hnext, hsingle]
              rfl
          · -- the counter of a sequence was set to 0
            apply hpress
            have hmulti : code.next ≠ [] := by
              rw [hsame] at hnot
              exact beq_eq_false_iff_ne.mp hnot
            rw [hreps, hzero, if_neg hmulti]
            rfl
          · exact absurd hcont (by rw [hkeeps hlost]; exact Bool.false_ne_true)

/-- A part of a sequence. -/
theorem plain_part (hno : hasToggleMask r = false) {disturbed : Bool}
    (hq : PlainCounters r disturbed q) (hcode : r.codes[c]? = some code)
    (hcurrent : code.current ≠ []) (state : IrCode) (same : Bool) (x : Decoded) (now : ℕ) :
    PlainCounters (setCode r c state same x.repeatFlag x.minRemainingGap x.maxRemainingGap now)
      (disturbed || disturbs r c code state same x now) q := by
  obtain ⟨hcounted, -⟩ := setCode_counted hcode state same x now
  cases q with
  | none => trivial
  | some p =>
      obtain ⟨c₀, n⟩ := p
      obtain ⟨hlast₀, hcases⟩ := hq
      have hlast := hcounted.lastCode
      rw [if_neg hcurrent, hlast₀] at hlast
      have hsame := isSingle_eq (congrArg (List.map IrNcode.next) hcounted.codes) c₀
      have hreps := hcounted.reps
      rw [hno] at hreps
      simp only [Bool.false_eq_true, if_false, hcurrent, and_false] at hreps
      refine ⟨hlast, ?_⟩
      rw [hsame, hreps, disturbs, hlast₀, Option.any_some]
      cases hcont : continues r c code state same x now with
      | true =>
          rw [if_pos rfl, Bool.not_true, Bool.false_and, Bool.false_and, Bool.or_false]
          exact hcases
      | false =>
          rw [if_neg Bool.false_ne_true]
          cases hsingle : isSingle r c₀ with
          | false => exact .inr (.inl ⟨rfl, rfl⟩)
          | true =>
              rw [hsingle] at hcases
              by_cases hzero : r.reps = 0
              · obtain hcount | ⟨hnot, -⟩ | hlost := hcases
                · rw [hzero] at hcount
                  exact .inl hcount
                · cases hnot
                · rw [hlost]
                  exact .inr (.inr rfl)
              · have hne : (r.reps != 0) = true := bne_iff_ne.mpr hzero
                rw [hne]
                exact .inr (.inr (Bool.or_true _))

/-- A frame of a button with a single code of a remote with a toggle mask: every
second one completes the button. -/
theorem toggle_frame (hyes : hasToggleMask r = true) (hsuppress : 0 ≤ r.suppressRepeat)
    (hq : ToggleCounters r q) (hcode : r.codes[c]? = some code) (hnext : code.next = [])
    (hcurrent : code.current = []) {state : IrCode} {same : Bool} {x : Decoded} {now : ℕ}
    (hkeeps : continues r c code state same x now = true → r.toggleMaskState = 0 → r.reps = 0) :
    let counted := setCode r c state same x.repeatFlag x.minRemainingGap x.maxRemainingGap now
    if toggleOdd counted then ToggleCounters counted q
    else MayFollow counted.suppressRepeat.toNat q (c, reportedReps counted code) ∧
      ToggleCounters counted (nextMessage q (c, reportedReps counted code)) := by
  intro counted
  obtain ⟨hcounted, htoggle⟩ := setCode_counted hcode state same x now
  have hsup : 0 ≤ counted.suppressRepeat := by
    rw [hcounted.suppressRepeat]
    exact hsuppress
  have hlast : counted.lastCode = some c := by rw [hcounted.lastCode, if_pos hcurrent]
  have hreps := hcounted.reps
  have hstate := htoggle hyes
  rw [hyes] at hreps
  simp only [if_true, hnext, ne_eq, not_true_eq_false, false_and, if_false] at hreps
  cases hcont : continues r c code state same x now with
  | false =>
      rw [hcont] at hreps hstate
      simp only [Bool.false_eq_true, if_false] at hreps hstate
      have hstate' : counted.toggleMaskState = 1 := hstate
      have hodd : toggleOdd counted = true := by
        rw [toggleOdd, hstate']
        rfl
      rw [if_pos hodd]
      exact ⟨by omega, fun _ _ _ _ => hreps, fun h => by omega⟩
  | true =>
      rw [hcont] at hreps hstate
      simp only [if_true] at hreps hstate
      have hwas := lastCode_of_continues hcurrent hcont
      have hstate' : counted.toggleMaskState =
          if r.toggleMaskState + 1 = 4 then 2 else r.toggleMaskState + 1 := hstate
      have hreps' : counted.reps =
          if r.toggleMaskState + 1 = 4 then r.reps + 1 else r.reps := hreps
      have hfirst : reportedReps counted code = some 0 → counted.reps = 0 := by
        intro h
        have hzero := reps_of_reportedReps h
        rwa [if_pos hnext] at hzero
      obtain ⟨hlow, hhigh⟩ := hq.range
      obtain h0 | h1 | h2 | h3 : r.toggleMaskState = 0 ∨ r.toggleMaskState = 1 ∨
          r.toggleMaskState = 2 ∨ r.toggleMaskState = 3 := by omega
      · -- the first frame after the toggles were reset
        rw [h0, if_neg (by decide)] at hstate' hreps'
        have hodd : toggleOdd counted = true := by
          rw [toggleOdd, hstate']
          rfl
        rw [if_pos hodd]
        exact ⟨by omega, fun _ _ _ _ => hreps'.trans (hkeeps hcont h0), fun h => by omega⟩
      · -- the press is complete
        rw [h1, if_neg (by decide)] at hstate' hreps'
        have heven : ¬ toggleOdd counted = true := by
          rw [toggleOdd, hstate']
          decide
        have hzero : ∀ c₀ n, q = some (c₀, n) → reportedReps counted code = some 0 := by
          intro c₀ n hsome
          apply reportedReps_zero
          rw [hreps', hq.first h1 c₀ n hsome, if_pos hnext]
        rw [if_neg heven]
        refine ⟨fun hne c₀ n hsome => absurd (hzero c₀ n hsome) hne, by omega, fun h => by omega,
          fun _ c' n h => ?_⟩
        rw [nextMessage] at h
        split at h
        · next hreported =>
            cases h
            exact ⟨hlast, hfirst hreported⟩
        · next hreported =>
            obtain ⟨p, hp, -⟩ := Option.map_eq_some_iff.mp h
            exact absurd (hzero p.1 p.2 hp) hreported
      · -- the first frame of a repeat
        rw [h2, if_neg (by decide)] at hstate' hreps'
        have hodd : toggleOdd counted = true := by
          rw [toggleOdd, hstate']
          rfl
        rw [if_pos hodd]
        refine ⟨by omega, fun h => by omega, fun _ c' n h => ?_⟩
        obtain ⟨hlast', hcount⟩ := hq.later (by omega) c' n h
        exact ⟨hlast.trans (hwas.symm.trans hlast'), hreps'.trans hcount⟩
      · -- the repeat is complete
        rw [h3, if_pos (by decide)] at hstate' hreps'
        have heven : ¬ toggleOdd counted = true := by
          rw [toggleOdd, hstate']
          decide
        rw [if_neg heven]
        cases q with
        | none =>
            refine ⟨fun _ c n h => absurd h (Option.some_ne_none _).symm, by omega,
              fun h => by omega, fun _ c' n h => ?_⟩
            rw [nextMessage] at h
            split at h
            · next hreported =>
                cases h
                exact ⟨hlast, hfirst hreported⟩
            · cases h
        | some p =>
            obtain ⟨c₀, n⟩ := p
            obtain ⟨hlast', hcount⟩ := hq.later (by omega) c₀ n rfl
            have heq : c₀ = c := Option.some.inj (hlast'.symm.trans hwas)
            subst heq
            have hcount' : counted.reps = n + 1 + if code.next = [] then 0 else 1 := by
              rw [hreps', hcount, if_pos hnext, Int.add_zero]
            obtain ⟨hreported, hne⟩ := reportedReps_succ hsup hcount'
            refine ⟨fun _ c n h => ?_, by omega, fun h => by omega, fun _ c' m h => ?_⟩
            · cases h
              rw [hreported]
            · rw [nextMessage, if_neg hne] at h
              cases h
              exact ⟨hlast, by rw [hreps', hcount]; rfl⟩

theorem CountersFit.of_same {r' : IrRemote} {disturbed : Bool} (h : CountersFit r disturbed q)
    (hsame : SameCounters r r') (hpointers : NoStrayPointers r') : CountersFit r' disturbed q where
  pointers := hpointers
  suppress := by
    rw [hsame.suppressRepeat]
    exact h.suppress
  plain := by
    intro hno
    have hplain := h.plain (hsame.toggleMask.symm.trans hno)
    cases q with
    | none => trivial
    | some p =>
        obtain ⟨c, n⟩ := p
        obtain ⟨hlast, hcases⟩ := hplain
        refine ⟨hsame.lastCode.trans hlast, ?_⟩
        rw [isSingle_eq hsame.next, hsame.reps]
        exact hcases
  toggle := by
    intro hyes
    obtain ⟨hrange, hfirst, hlater⟩ := h.toggle (hsame.toggleMask.symm.trans hyes)
    refine ⟨?_, ?_, ?_⟩
    · rw [hsame.toggleMaskState]
      exact hrange
    · rw [hsame.toggleMaskState, hsame.reps]
      exact hfirst
    · rw [hsame.toggleMaskState, hsame.lastCode, hsame.reps]
      exact hlater

/-- `decode_all` resets the toggles when no code is found. -/
theorem CountersFit.reset {disturbed : Bool} (h : CountersFit r disturbed q) :
    CountersFit { r with toggleMaskState := 0 } disturbed q where
  pointers := h.pointers
  suppress := h.suppress
  plain := h.plain
  toggle := by
    intro _
    refine ⟨?_, fun hone => ?_, fun htwo => ?_⟩
    · show (0 : ℤ) ≤ 0 ∧ (0 : ℤ) ≤ 3
      decide
    · have hone' : (0 : ℤ) = 1 := hone
      omega
    · have htwo' : (2 : ℤ) ≤ 0 := htwo
      omega

/-- The frame of a button that is found. -/
theorem counted_fits {disturbed : Bool} (h : CountersFit r disturbed q)
    (hcode : r.codes[c]? = some code) (state : IrCode) (same : Bool) (x : Decoded) (now : ℕ)
    (hkeeps : if hasToggleMask r then
        code.next = [] ∧
          (continues r c code state same x now = true → r.toggleMaskState = 0 → r.reps = 0)
      else
        disturbed = true → code.current = [] → continues r c code state same x now = false) :
    let counted := setCode r c state same x.repeatFlag x.minRemainingGap x.maxRemainingGap now
    let after := code.current != [] && (disturbed || disturbs r c code state same x now)
    if incomplete counted code then CountersFit counted after q
    else MayFollow counted.suppressRepeat.toNat q (c, reportedReps counted code) ∧
      CountersFit counted after (nextMessage q (c, reportedReps counted code)) := by
  intro counted after
  obtain ⟨hcounted, -⟩ := setCode_counted hcode state same x now
  have hpointers : NoStrayPointers counted := by
    intro code' hmem
    exact h.pointers code' (hcounted.codes ▸ hmem)
  have hsuppress : 0 ≤ counted.suppressRepeat := by
    rw [hcounted.suppressRepeat]
    exact h.suppress
  cases hmask : hasToggleMask r with
  | true =>
      rw [hmask, if_pos rfl] at hkeeps
      obtain ⟨hnext, hreset⟩ := hkeeps
      have hcurrent : code.current = [] :=
        h.pointers code (List.mem_of_getElem? hcode) hnext
      have hmask' : hasToggleMask counted = true := hcounted.toggleMask.trans hmask
      have hframe := toggle_frame hmask h.suppress (h.toggle hmask) hcode hnext hcurrent hreset
      have hpart : incomplete counted code = toggleOdd counted := by
        rw [incomplete, hmask', hcurrent, Bool.true_and]
        exact Bool.or_false _
      have hfits : ∀ q', ToggleCounters counted q' → CountersFit counted after q' :=
        fun q' htoggle =>
          ⟨hpointers, hsuppress, fun hno => Bool.noConfusion (hno.symm.trans hmask'),
            fun _ => htoggle⟩
      rw [hpart]
      by_cases hodd : toggleOdd counted = true
      · rw [if_pos hodd]
        rw [if_pos hodd] at hframe
        exact hfits q hframe
      · rw [if_neg hodd]
        rw [if_neg hodd] at hframe
        exact ⟨hframe.1, hfits _ hframe.2⟩
  | false =>
      rw [hmask, if_neg Bool.false_ne_true] at hkeeps
      have hmask' : hasToggleMask counted = false := hcounted.toggleMask.trans hmask
      have hfits : ∀ q', PlainCounters counted after q' → CountersFit counted after q' :=
        fun q' hplain =>
          ⟨hpointers, hsuppress, fun _ => hplain,
            fun hyes => Bool.noConfusion (hmask'.symm.trans hyes)⟩
      have hpart : incomplete counted code = (code.current != []) := by
        rw [incomplete, hmask']
        rfl
      rw [hpart]
      by_cases hcurrent : code.current = []
      · have hframe := plain_completed hmask h.suppress (h.plain hmask) hcode hcurrent state same x
          now fun hlost => hkeeps hlost hcurrent
        have hafter : after = false := by
          show (code.current != [] && _) = false
          rw [hcurrent]
          rfl
        rw [hafter] at hfits ⊢
        rw [hcurrent]
        exact ⟨hframe.1, hfits _ hframe.2⟩
      · have hne : (code.current != []) = true := bne_iff_ne.mpr hcurrent
        have hafter : after = (disturbed || disturbs r c code state same x now) := by
          show (code.current != [] && _) = _
          rw [hne, Bool.true_and]
        rw [if_pos hne]
        apply hfits
        rw [hafter]
        exact plain_part hmask (h.plain hmask) hcode hcurrent state same x now

/-- A frame completes nothing, or what may follow. -/
theorem frame_fits {s : Series} (h : CountersFit s.remote s.disturbed q) (x : Decoded) (now : ℕ)
    (hkeeps : KeepsCount s (.frame x now)) :
    (seriesStep s (.frame x now)).remote.suppressRepeat = s.remote.suppressRepeat ∧
      (completedBy s.remote x s.decodedLast now = none →
        CountersFit (seriesStep s (.frame x now)).remote (disturbedAfter s x now) q) ∧
      ∀ done, completedBy s.remote x s.decodedLast now = some done →
        MayFollow s.remote.suppressRepeat.toNat q done ∧
          CountersFit (seriesStep s (.frame x now)).remote (disturbedAfter s x now)
            (nextMessage q done) := by
  obtain ⟨r, same, disturbed⟩ := s
  obtain ⟨hsame, hstray⟩ := getCode_sameCounters r ⟨x.pre, x.code, x.post⟩
  have hlength := (getCode_spec r ⟨x.pre, x.code, x.post⟩).2.2
  simp only [KeepsCount] at hkeeps
  simp only [seriesStep, decodeFrame, completedBy, disturbedAfter]
  generalize getCode r ⟨x.pre, x.code, x.post⟩ = got at hsame hstray hlength hkeeps
  have hfits : CountersFit got.2 disturbed q := h.of_same hsame (hstray h.pointers)
  obtain ⟨_ | ⟨c, state⟩, r'⟩ := got
  · exact ⟨hsame.suppressRepeat, fun _ => hfits.reset,
      fun done hdone => absurd hdone (Option.some_ne_none _).symm⟩
  · have hc : c < r'.codes.length := by
      rw [hlength.1]
      exact hlength.2 (c, state) rfl
    have hcode : r'.codes[c]? = some r'.codes[c] := List.getElem?_eq_getElem hc
    have hcases := counted_fits hfits hcode state same x now
      (hkeeps (c, state) rfl r'.codes[c] hcode)
    obtain ⟨hcounted, -⟩ := setCode_counted hcode state same x now
    simp only [hcode] at hcases ⊢
    generalize setCode r' c state same x.repeatFlag x.minRemainingGap x.maxRemainingGap now =
      counted at hcounted hcases
    have hcode' : counted.codes[c]? = some r'.codes[c] := by
      rw [hcounted.codes]
      exact hcode
    obtain ⟨hreport, hreportStray⟩ := reportCode_sameCounters counted c
    have hsuppress : counted.suppressRepeat = r.suppressRepeat :=
      hcounted.suppressRepeat.trans hsame.suppressRepeat
    have hleave : ∀ after q', CountersFit counted after q' →
        CountersFit (reportCode counted c).2 after q' := fun after q' hq' =>
      hq'.of_same hreport (hreportStray hq'.pointers)
    refine ⟨hreport.suppressRepeat.trans hsuppress, ?_⟩
    rw [hcode']
    simp only []
    split at hcases
    · next hpart =>
        rw [if_pos hpart]
        exact ⟨fun _ => hleave _ q hcases,
          fun done hdone => absurd hdone (Option.some_ne_none _).symm⟩
    · next hpart =>
        rw [if_neg hpart]
        refine ⟨fun hnone => absurd hnone (Option.some_ne_none _), fun done hdone => ?_⟩
        cases hdone
        rw [← hsuppress]
        exact ⟨hcases.1, hleave _ _ hcases.2⟩

end Step

/-! ### Runs -/

/-- What a series completes is counted as long as no frame disturbs the counters. -/
theorem completions_countsFrom {s : Series} {q : Option (ℕ × ℕ)} {events : List SeriesEvent}
    (h : CountersFit s.remote s.disturbed q) (hkeeps : Along seriesStep KeepsCount s events) :
    CountsFrom s.remote.suppressRepeat.toNat q (completions s events) := by
  induction events generalizing s q with
  | nil => trivial
  | cons e es ih =>
      obtain ⟨hthis, hrest⟩ := hkeeps
      cases e with
      | released =>
          have hreleased : CountersFit (seriesStep s .released).remote s.disturbed q :=
            h.of_same ⟨rfl, rfl, rfl, rfl, rfl, rfl⟩ h.pointers
          exact ih hreleased hrest
      | frame x now =>
          obtain ⟨hsuppress, hnone, hsome⟩ := frame_fits h x now hthis
          rw [completions]
          cases hdone : completedBy s.remote x s.decodedLast now with
          | none =>
              have hnext := ih (hnone hdone) hrest
              rw [← hsuppress]
              exact hnext
          | some done =>
              obtain ⟨hfollows, hfits⟩ := hsome done hdone
              have hnext := ih hfits hrest
              refine ⟨hfollows, ?_⟩
              rw [← hsuppress]
              exact hnext

/-- Between two messages with no repeats the messages of a series name one button
and carry 1, 2, 3 and so on, after as many repeats without a message as the remote
suppresses, if this number is not negative and no frame shows that the counters
have been disturbed. -/
theorem repeats_counted (s : Series) (events : List SeriesEvent)
    (hpointers : NoStrayPointers s.remote)
    (hrange : 0 ≤ s.remote.toggleMaskState ∧ s.remote.toggleMaskState ≤ 3)
    (hsuppress : 0 ≤ s.remote.suppressRepeat) (hkeeps : Along seriesStep KeepsCount s events) :
    CountsUp s.remote.suppressRepeat.toNat (completions s events) := by
  have hfits : CountersFit s.remote s.disturbed none := by
    refine ⟨hpointers, hsuppress, fun _ => trivial, fun _ => ⟨hrange, ?_, ?_⟩⟩
    · rintro - c n h
      cases h
    · rintro - c n h
      cases h
  exact (completions_countsFrom hfits hkeeps).countsUp

/-- A remote with the button "ok", and "menu", which sends a sequence of two codes. -/
def sequenceRemote (suppress : ℤ) : IrRemote where
  name := "tv".toList
  codes := [{ name := "ok".toList, code := 1 }, { name := "menu".toList, code := 2, next := [3] }]
  bits := 8
  flags := spaceEnc
  pone := 500
  sone := 1500
  pzero := 500
  szero := 500
  ptrail := 500
  gap := 100000
  suppressRepeat := suppress

instance (r : IrRemote) : Decidable (NoStrayPointers r) :=
  inferInstanceAs (Decidable (∀ code ∈ r.codes, _))

/-- A frame with this code at this time. -/
def frameAt (code : IrCode) (repeatFlag : Bool) (now : ℕ) : SeriesEvent :=
  .frame { pre := 0, code := code, post := 0, repeatFlag := repeatFlag, minRemainingGap := 100000,
           maxRemainingGap := 100000 } now

/-- Of two repeats the first is suppressed, and then the sequence is counted. -/
theorem repeats_counted_sequence :
    CountsUp 1 (completions { remote := sequenceRemote 1, decodedLast := false }
      [frameAt 1 false 0, frameAt 1 true 100000, frameAt 1 true 200000, frameAt 2 false 300000,
        frameAt 3 true 400000, frameAt 2 true 500000, frameAt 3 true 600000]) :=
  repeats_counted { remote := sequenceRemote 1, decodedLast := false } _ (by decide) (by decide)
    (by decide) (by decide +kernel)

/-- The first code of the sequence is received between two repeats of "ok": these
have the same number. -/
theorem repeats_counted_fails :
    ¬ ∀ (s : Series) (events : List SeriesEvent), NoStrayPointers s.remote →
      0 ≤ s.remote.toggleMaskState ∧ s.remote.toggleMaskState ≤ 3 →
      CountsUp s.remote.suppressRepeat.toNat (completions s events) := by
  intro h
  have hcounts := h { remote := sequenceRemote 0, decodedLast := false }
    [frameAt 1 false 0, frameAt 1 true 100000, frameAt 2 false 200000, frameAt 1 true 300000]
    (by decide) (by decide)
  have hdone : completions { remote := sequenceRemote 0, decodedLast := false }
      [frameAt 1 false 0, frameAt 1 true 100000, frameAt 2 false 200000, frameAt 1 true 300000] =
      [(0, some 0), (0, some 1), (0, some 1)] := by decide +kernel
  have hthird := hcounts [] [(0, some 1), (0, some 1)] [] 0 hdone (by decide) 1 (0, some 1) rfl
  revert hthird
  decide

end Lirc
