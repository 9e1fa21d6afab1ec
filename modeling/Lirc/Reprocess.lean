import Lirc.OneSection

/-!
The post-processing of a list of remotes that has been through it, as the remotes of an
included file have when the file that includes them ends. Each field is stable, but the
signal lengths of a remote that borrows the pointer of another one are what is found there,
and after the sorting it is found at another place of the list.
-/

namespace Lirc

open StableSort

/-! ### The loop -/

/-- A remote of the list, with the fields that `calculate_signal_lengths` sets. -/
structure ListedRemote where
  conf : ConfRemote
  lengths : SignalLengths := {}
  deriving DecidableEq, Repr

/-- One pass of the loop at the end of `read_config_recursive`. `none`: a pointer that is
`NULL` is followed. -/
def finishRemote (s : SBuf) (m : ListedRemote) : Option (SBuf × ListedRemote) :=
  let conf := postProcess m.conf
  if conf.codes.isNone then none
  else
    (measureCodes conf.toRemote conf.toRemote.codes (s, none)).map fun x =>
      (x.1, ⟨conf, signalLengths conf.toRemote x.2⟩)

def finishLoop : SBuf → List ListedRemote → Option (SBuf × List ListedRemote)
  | s, [] => some (s, [])
  | s, m :: ms =>
      match finishRemote s m with
      | none => none
      | some (s, m) => (finishLoop s ms).map fun x => (x.1, m :: x.2)

/-- The loop and `sort_by_bit_count`. -/
def finishRemotes (s : SBuf) (ms : List ListedRemote) : Option (SBuf × List ListedRemote) :=
  (finishLoop s ms).map fun x => (x.1, sort (fun m => m.conf.bitCount) x.2)

/-! ### The pointers -/

/-- What each remote of a list finds in `data`. -/
def found : DataPtr → List ConfRemote → List (ConfRemote × DataPtr)
  | _, [] => []
  | d, rem :: rems => (rem, d) :: found (leaves rem.toRemote d) rems

/-- What `data` points to after a list. -/
def leavesAll (d : DataPtr) (rems : List ConfRemote) : DataPtr :=
  rems.foldl (fun d rem => leaves rem.toRemote d) d

/-- A remote whose signal lengths are others when its repeat frames pass. -/
def Sensitive (r : IrRemote) : Prop := borrows r = true ∧ ¬(isConst r = true ∧ maxGap r = 0)

instance (r : IrRemote) : Decidable (Sensitive r) := inferInstanceAs (Decidable (_ ∧ _))

/-- There are codes, and no remote borrows a pointer that is `NULL`. -/
def Readable (xs : List (ConfRemote × DataPtr)) : Prop :=
  ∀ x ∈ xs, x.1.codes.isSome = true ∧ (borrows x.1.toRemote = true → x.2 ≠ .null)

instance (xs : List (ConfRemote × DataPtr)) : Decidable (Readable xs) :=
  inferInstanceAs (Decidable (∀ x ∈ xs, _))

/-- In the order of the list and in the sorted order, the remotes that borrow a pointer find
samples without a zero both times, or a zero both times. -/
structure PointersAgree (d : DataPtr) (rems : List ConfRemote) : Prop where
  readable : Readable (found d rems)
  agree : List.Forall₂ (fun d x => Sensitive x.1.toRemote →
      repeatPasses x.1.toRemote d = repeatPasses x.1.toRemote x.2)
    ((sort (fun x => x.1.bitCount) (found d rems)).map Prod.snd)
    (found (leavesAll d rems) ((sort (fun x => x.1.bitCount) (found d rems)).map Prod.fst))

section Found

variable {d : DataPtr} {rems : List ConfRemote} {r : IrRemote}

theorem found_fst (d : DataPtr) (rems : List ConfRemote) : (found d rems).map Prod.fst = rems := by
  induction rems generalizing d with
  | nil => rfl
  | cons rem rems ih => rw [found, List.map_cons, ih]

theorem leaves_ne_null (h : d ≠ .null) : leaves r d ≠ .null := by
  rw [leaves]
  split
  · exact h
  · cases hlast : r.codes.getLast? with
    | none => exact h
    | some code =>
        rw [Option.bind_some]
        cases hpointer : pointerOf r code with
        | none => exact h
        | some p => exact pointerOf_ne_null hpointer

theorem leavesAll_ne_null (h : d ≠ .null) (rems : List ConfRemote) : leavesAll d rems ≠ .null := by
  induction rems generalizing d with
  | nil => exact h
  | cons rem rems ih => exact ih (leaves_ne_null h)

theorem found_ne_null (h : d ≠ .null) : ∀ x ∈ found d rems, x.2 ≠ .null := by
  induction rems generalizing d with
  | nil => exact fun x hx => absurd hx List.not_mem_nil
  | cons rem rems ih =>
      intro x hx
      rcases List.mem_cons.mp hx with rfl | hx
      · exact h
      · exact ih (leaves_ne_null h) x hx

/-- A pointer that is set stays set. -/
theorem leavesAll_of_found {x : ConfRemote × DataPtr} (hx : x ∈ found d rems) (h : x.2 ≠ .null) :
    leavesAll d rems ≠ .null := by
  induction rems generalizing d with
  | nil => exact absurd hx List.not_mem_nil
  | cons rem rems ih =>
      rcases List.mem_cons.mp hx with rfl | hx
      · exact leavesAll_ne_null (leaves_ne_null h) rems
      · exact ih hx

/-- Where the first pass follows no `NULL` pointer, the second one does not. -/
theorem Readable.again {rems' : List ConfRemote} (h : Readable (found d rems))
    (hperm : rems'.Perm rems) : Readable (found (leavesAll d rems) rems') := by
  intro x hx
  have hmem : x.1 ∈ rems := by
    refine hperm.subset ?_
    rw [← found_fst (leavesAll d rems) rems']
    exact List.mem_map_of_mem hx
  rw [← found_fst d rems] at hmem
  obtain ⟨y, hy, hyx⟩ := List.mem_map.mp hmem
  obtain ⟨hcodes, hborrows⟩ := h y hy
  rw [hyx] at hcodes hborrows
  exact ⟨hcodes, fun hb => found_ne_null (leavesAll_of_found hy (hborrows hb)) x hx⟩

end Found

/-! ### What the post-processing keeps -/

section Kept

variable {rem : ConfRemote}

/-- A raw remote has none of the other protocols. -/
theorem flags_of_raw (h : rem.isRaw = true) {f : ℕ} (hf : protocolMask &&& f = f) :
    rem.flags &&& f = rawCodes &&& f := by
  have hflags : rem.flags &&& protocolMask = rawCodes := beq_iff_eq.mp h
  rw [← hf, ← Nat.and_assoc, hflags, hf]

/-- Of a raw remote only the toggle bit and the repetitions are changed. -/
theorem postProcess_raw (h : rem.isRaw = true) :
    ∃ m b n, postProcess rem = { rem with toggleBitMask := m, toggleBit := b, minCodeRepeat := n } := by
  have hreverse : kickReverse rem = rem := kickReverse_of_flag rem (.inl h)
  have hrc6 : kickRc6 rem = rem := by
    refine if_neg fun hflag => ?_
    rw [ConfRemote.has, flags_of_raw h (by decide)] at hflag
    exact absurd hflag.1 (by decide)
  obtain ⟨m, b, -, hbit⟩ := kickToggleBit_eq rem
  have hraw : ({ rem with toggleBitMask := m, toggleBit := b } : ConfRemote).isRaw = true := h
  have hstate : kickToggleState { rem with toggleBitMask := m, toggleBit := b } =
      { rem with toggleBitMask := m, toggleBit := b } := by
    unfold kickToggleState
    split
    · exact if_neg fun hmask => by rw [hraw] at hmask; exact absurd hmask.2 Bool.false_ne_true
    · rfl
  have hserial : kickSerial { rem with toggleBitMask := m, toggleBit := b } =
      { rem with toggleBitMask := m, toggleBit := b } := by
    refine if_neg ?_
    show ¬(rem.flags &&& protocolMask == serial) = true
    rw [flags_of_raw h (by decide)]
    decide
  obtain ⟨n, hrepeat⟩ := kickMinCodeRepeat_eq { rem with toggleBitMask := m, toggleBit := b }
  refine ⟨m, b, n, ?_⟩
  rw [postProcess, hreverse, hrc6, hbit, hstate, hserial, hrepeat]

theorem postProcess_protocol : (postProcess rem).flags &&& protocolMask = rem.flags &&& protocolMask := by
  obtain ⟨m₁, h₂⟩ := kickRc6_eq (kickReverse rem)
  obtain ⟨m₂, t, -, h₃⟩ := kickToggleBit_eq (kickRc6 (kickReverse rem))
  obtain ⟨m₃, h₄⟩ := kickToggleState_eq (kickToggleBit (kickRc6 (kickReverse rem)))
  obtain ⟨p, s, b, n, hlast⟩ :=
    kickLast_eq (kickToggleState (kickToggleBit (kickRc6 (kickReverse rem))))
  rw [postProcess, hlast, h₄, h₃, h₂]
  show (kickReverse rem).flags &&& protocolMask = rem.flags &&& protocolMask
  rw [kickReverse]
  split
  · exact protocol_kickReverse rem.flags
  · rfl

theorem postProcess_protocolIs (p : ℕ) :
    (postProcess rem).toRemote.protocolIs p = rem.toRemote.protocolIs p := by
  show ((postProcess rem).flags &&& protocolMask == p) = (rem.flags &&& protocolMask == p)
  rw [postProcess_protocol]

theorem postProcess_isRaw : isRaw (postProcess rem).toRemote = isRaw rem.toRemote :=
  postProcess_protocolIs rawCodes

theorem postProcess_cannotSend : cannotSend (postProcess rem).toRemote = cannotSend rem.toRemote := by
  simp only [cannotSend, isGrundig, isGoldstar, isSerial, isBo, postProcess_protocolIs]

theorem postProcess_borrows : borrows (postProcess rem).toRemote = borrows rem.toRemote := by
  cases hraw : isRaw rem.toRemote with
  | true =>
      obtain ⟨m, b, n, heq⟩ := postProcess_raw hraw
      rw [heq]
      rfl
  | false => simp only [borrows, postProcess_isRaw, hraw, Bool.false_and]

theorem postProcess_leaves (d : DataPtr) :
    leaves (postProcess rem).toRemote d = leaves rem.toRemote d := by
  cases hraw : isRaw rem.toRemote with
  | true =>
      obtain ⟨m, b, n, heq⟩ := postProcess_raw hraw
      rw [heq]
      rfl
  | false =>
      have hpointer : ∀ r : IrRemote, isRaw r = false → ((r.codes.getLast?).bind (pointerOf r)).getD d =
          if r.codes = [] then d else .own := by
        intro r hr
        have hown : ∀ code, pointerOf r code = some .own := fun code => by
          rw [pointerOf, hr]
          rfl
        split
        · next hnil => rw [hnil]; rfl
        · next hne => rw [List.getLast?_eq_some_getLast hne, Option.bind_some, hown]; rfl
      have hcodes : (postProcess rem).toRemote.codes = [] ↔ rem.toRemote.codes = [] := by
        show (postProcess rem).codes.getD [] = [] ↔ rem.codes.getD [] = []
        rw [postProcess_codes_eq, kickReverse]
        split
        · cases rem.codes with
          | none => exact Iff.rfl
          | some codes => exact List.map_eq_nil_iff
        · exact Iff.rfl
      rw [leaves, leaves, postProcess_cannotSend, hpointer _ (postProcess_isRaw.trans hraw),
        hpointer _ hraw]
      simp only [hcodes]

theorem postProcess_uniform (h : UniformCodes rem.toRemote) :
    UniformCodes (postProcess rem).toRemote := by
  intro hraw
  rw [postProcess_isRaw] at hraw
  obtain ⟨m, b, n, heq⟩ := postProcess_raw hraw
  rw [heq]
  exact h hraw

theorem found_postProcess (d : DataPtr) (rems : List ConfRemote) :
    found d (rems.map postProcess) = (found d rems).map fun x => (postProcess x.1, x.2) := by
  induction rems generalizing d with
  | nil => rfl
  | cons rem rems ih => rw [List.map_cons, found, found, List.map_cons, postProcess_leaves, ih]

end Kept

/-! ### The signal lengths -/

/-- The signal lengths of a remote that finds this in `data`. -/
def lengthsAt (r : IrRemote) (d : DataPtr) : SignalLengths :=
  signalLengths r (((codesStep r r.codes (d, none)).map Prod.snd).getD none)

section Lengths

variable {r : IrRemote} {d e : DataPtr} {s s' : SBuf} {m : ListedRemote} {ms : List ListedRemote}

/-- Lengths without a signal are those of one signal only where there is no gap. -/
theorem signalLengths_none_iff {length : ℤ} (h : 0 < length) :
    signalLengths r none = signalLengths r (some (length, length)) ↔
      isConst r = true ∧ maxGap r = 0 := by
  have hnonneg := minGap_nonneg r
  have hle := minGap_le_maxGap r
  rw [signalLengths, signalLengths]
  generalize minGap r = lo at hnonneg hle
  generalize maxGap r = hi at hle
  by_cases hconst : isConst r = true
  · rw [if_pos hconst]
    simp only [SignalLengths.mk.injEq, true_and]
    constructor
    · rintro ⟨-, hmax⟩
      refine ⟨hconst, ?_⟩
      split at hmax <;> omega
    · rintro ⟨-, hzero⟩
      constructor <;> split <;> omega
  · rw [if_neg hconst]
    simp only [SignalLengths.mk.injEq]
    constructor
    · rintro ⟨hmin, -⟩
      omega
    · exact fun h => absurd h.1 hconst

/-- Two places of a list lead to the same lengths exactly when a remote that is sensitive to
it finds the same. -/
theorem lengthsAt_eq_iff (huniform : UniformCodes r) (hd : borrows r = true → d ≠ .null)
    (he : borrows r = true → e ≠ .null) :
    lengthsAt r e = lengthsAt r d ↔ (Sensitive r → repeatPasses r d = repeatPasses r e) := by
  cases hb : borrows r with
  | false =>
      obtain ⟨span, hspan⟩ := codesStep_fixed huniform hb
      refine iff_of_true ?_ fun h => absurd h.1 (by rw [hb]; exact Bool.false_ne_true)
      rw [lengthsAt, lengthsAt, hspan, hspan]
      rfl
  | true =>
      have hr : hasRepeat r = true := by
        simp only [borrows, Bool.and_eq_true] at hb
        exact hb.1.1.2
      have hlengths : ∀ c, c ≠ DataPtr.null → lengthsAt r c = signalLengths r
          (if repeatPasses r c then some (repeatLength r, repeatLength r) else none) := by
        intro c hc
        rw [lengthsAt, codesStep_borrows hb, if_neg hc]
        rfl
      have hnone := signalLengths_none_iff (r := r) (repeatLength_pos hr)
      rw [hlengths d (hd hb), hlengths e (he hb), Sensitive, hb]
      cases repeatPasses r d with
      | true =>
          cases repeatPasses r e with
          | true => exact iff_of_true rfl fun _ => rfl
          | false =>
              simp only [if_true, Bool.false_eq_true, if_false, true_and, hnone, reduceCtorEq,
                imp_false, not_not]
      | false =>
          cases repeatPasses r e with
          | true =>
              simp only [if_true, Bool.false_eq_true, if_false, true_and, imp_false, not_not,
                ← hnone]
              exact eq_comm
          | false => exact iff_of_true rfl fun _ => rfl

/-- A pass of the loop. -/
theorem finishRemote_view (s : SBuf) (m : ListedRemote) :
    (finishRemote s m).map (fun x => (x.1.data, x.2)) =
      if (postProcess m.conf).codes.isNone then none
      else
        (codesStep (postProcess m.conf).toRemote (postProcess m.conf).toRemote.codes
          (s.data, none)).map fun v =>
            (v.1, ⟨postProcess m.conf, signalLengths (postProcess m.conf).toRemote v.2⟩) := by
  rw [finishRemote]
  split
  · rfl
  · have hview := measureCodes_view (postProcess m.conf).toRemote (postProcess m.conf).toRemote.codes
      (s, none)
    rw [show (s.data, none) = viewOf (s, none) from rfl, ← hview, Option.map_map, Option.map_map]
    rfl

theorem finishRemote_some (huniform : UniformCodes m.conf.toRemote) (hcodes : m.conf.codes.isSome = true)
    (hnull : borrows m.conf.toRemote = true → s.data ≠ .null) :
    ∃ s', finishRemote s m = some (s', ⟨postProcess m.conf,
        lengthsAt (postProcess m.conf).toRemote s.data⟩) ∧
      s'.data = leaves m.conf.toRemote s.data := by
  have hview := finishRemote_view s m
  have hsome : (postProcess m.conf).codes.isNone = false := by
    rw [← Bool.not_eq_true, Option.isNone_iff_eq_none, ← Option.not_isSome_iff_eq_none, not_not,
      postProcess_codes]
    exact hcodes
  have hstep : ∃ span, codesStep (postProcess m.conf).toRemote (postProcess m.conf).toRemote.codes
      (s.data, none) = some (leaves m.conf.toRemote s.data, span) := by
    rw [← postProcess_leaves]
    cases hb : borrows (postProcess m.conf).toRemote with
    | false =>
        obtain ⟨span, hspan⟩ := codesStep_fixed (postProcess_uniform huniform) hb
        exact ⟨span, hspan s.data⟩
    | true =>
        rw [codesStep_borrows hb, if_neg (hnull (postProcess_borrows ▸ hb)), leaves_borrows hb]
        exact ⟨_, rfl⟩
  obtain ⟨span, hspan⟩ := hstep
  rw [hsome, if_neg Bool.false_ne_true, hspan] at hview
  obtain ⟨⟨s', m'⟩, hfinish, hpair⟩ := Option.map_eq_some_iff.mp hview
  obtain ⟨hdata, rfl⟩ := Prod.mk.inj hpair
  refine ⟨s', ?_, hdata⟩
  rw [hfinish, lengthsAt, hspan]
  rfl

theorem finishRemote_none (h : ¬(m.conf.codes.isSome = true ∧
    (borrows m.conf.toRemote = true → s.data ≠ .null))) : finishRemote s m = none := by
  have hview := finishRemote_view s m
  suffices hnone : (finishRemote s m).map (fun x => (x.1.data, x.2)) = none from
    Option.map_eq_none_iff.mp hnone
  rw [hview]
  split
  · rfl
  · next hcodes =>
      have hsome : m.conf.codes.isSome = true := by
        rw [← postProcess_codes]
        exact Option.isNone_eq_false_iff.mp (Bool.eq_false_of_not_eq_true hcodes)
      simp only [hsome, true_and, Classical.not_imp, not_not] at h
      rw [codesStep_borrows (postProcess_borrows.trans h.1), if_pos h.2]
      rfl

end Lengths

/-! ### Whole lists -/

/-- What the loop makes of a remote that finds this in `data`. -/
def listed (x : ConfRemote × DataPtr) : ListedRemote :=
  ⟨postProcess x.1, lengthsAt (postProcess x.1).toRemote x.2⟩

/-- The configurations of a list. -/
def confs (ms : List ListedRemote) : List ConfRemote := ms.map ListedRemote.conf

section Lists

variable {s s' : SBuf} {ms ms' : List ListedRemote}

/-- The codes of each remote are from one section. -/
def UniformList (ms : List ListedRemote) : Prop := ∀ m ∈ ms, UniformCodes m.conf.toRemote

/-- The remotes that a file and those included in it define are such a list. -/
theorem UniformList.of_read {files : List Char → Option (List Char)} {levels : ℕ}
    {name : List Char} {bufs : List (List Char)} {q : Parser}
    (h : readLines files levels name {} bufs = .ok q) (hms : confs ms = q.chain) :
    UniformList ms := fun m hm =>
  ((readLines_fromSections .start q h).chain m.conf (hms ▸ List.mem_map_of_mem hm)).uniform

theorem finishLoop_some (huniform : UniformList ms) (h : Readable (found s.data (confs ms))) :
    ∃ s', finishLoop s ms = some (s', (found s.data (confs ms)).map listed) ∧
      s'.data = leavesAll s.data (confs ms) := by
  induction ms generalizing s with
  | nil => exact ⟨s, rfl, rfl⟩
  | cons m ms ih =>
      obtain ⟨hcodes, hnull⟩ := h _ List.mem_cons_self
      obtain ⟨s₁, hfirst, hdata⟩ := finishRemote_some (huniform m List.mem_cons_self) hcodes hnull
      have hrest : Readable (found s₁.data (confs ms)) := by
        rw [hdata]
        exact fun x hx => h x (List.mem_cons_of_mem _ hx)
      obtain ⟨s₂, hloop, hlast⟩ := ih (fun m hm => huniform m (List.mem_cons_of_mem _ hm)) hrest
      refine ⟨s₂, ?_, ?_⟩
      · rw [finishLoop, hfirst]
        simp only [hloop, Option.map_some, hdata]
        rfl
      · rw [hlast, hdata]
        rfl

theorem finishLoop_readable {x : SBuf × List ListedRemote} (huniform : UniformList ms)
    (h : finishLoop s ms = some x) : Readable (found s.data (confs ms)) := by
  induction ms generalizing s x with
  | nil => exact fun y hy => absurd hy List.not_mem_nil
  | cons m ms ih =>
      have hm := huniform m List.mem_cons_self
      have hfirst : m.conf.codes.isSome = true ∧ (borrows m.conf.toRemote = true → s.data ≠ .null) := by
        by_contra hnot
        rw [finishLoop, finishRemote_none hnot] at h
        cases h
      obtain ⟨s₁, hstep, hdata⟩ := finishRemote_some hm hfirst.1 hfirst.2
      rw [finishLoop, hstep] at h
      obtain ⟨y, hloop, -⟩ := Option.map_eq_some_iff.mp h
      have hrest := ih (fun m hm => huniform m (List.mem_cons_of_mem _ hm)) hloop
      rw [hdata] at hrest
      intro z hz
      rcases List.mem_cons.mp hz with rfl | hz
      · exact hfirst
      · exact hrest z hz

theorem listed_bitCount : (fun m : ListedRemote => m.conf.bitCount) ∘ listed =
    fun x => x.1.bitCount :=
  funext fun x => postProcess_bitCount x.1

/-- What the remotes of a list find in `data`, in the order that the list is sorted to. -/
def sortedFound (d : DataPtr) (rems : List ConfRemote) : List (ConfRemote × DataPtr) :=
  sort (fun x => x.1.bitCount) (found d rems)

theorem finishRemotes_some (huniform : UniformList ms) (h : Readable (found s.data (confs ms))) :
    ∃ s', finishRemotes s ms = some (s', (sortedFound s.data (confs ms)).map listed) ∧
      s'.data = leavesAll s.data (confs ms) := by
  obtain ⟨s', hloop, hdata⟩ := finishLoop_some huniform h
  refine ⟨s', ?_, hdata⟩
  rw [finishRemotes, hloop, Option.map_some, sort_map, listed_bitCount]
  rfl

theorem finishRemotes_readable {x : SBuf × List ListedRemote} (huniform : UniformList ms)
    (h : finishRemotes s ms = some x) : Readable (found s.data (confs ms)) := by
  obtain ⟨y, hloop, -⟩ := Option.map_eq_some_iff.mp h
  exact finishLoop_readable huniform hloop

/-! ### The second time -/

variable {d : DataPtr} {rems : List ConfRemote}

theorem readable_postProcess : Readable ((found d rems).map fun x => (postProcess x.1, x.2)) ↔
    Readable (found d rems) := by
  simp only [Readable, List.forall_mem_map, postProcess_codes, postProcess_borrows]

theorem confs_listed (xs : List (ConfRemote × DataPtr)) :
    confs (xs.map listed) = (xs.map Prod.fst).map postProcess := by
  rw [confs, List.map_map, List.map_map]
  rfl

theorem sortedFound_fst (d : DataPtr) (rems : List ConfRemote) :
    (sortedFound d rems).map Prod.fst = sort ConfRemote.bitCount rems := by
  have hmap : sort ConfRemote.bitCount ((found d rems).map Prod.fst) =
      (sortedFound d rems).map Prod.fst := sort_map Prod.fst (found d rems)
  rw [found_fst] at hmap
  exact hmap.symm

/-- The list stays in its order. -/
theorem sortedFound_again (e : DataPtr) (rems : List ConfRemote) :
    sortedFound e ((sort ConfRemote.bitCount rems).map postProcess) =
      (found e (sort ConfRemote.bitCount rems)).map fun x => (postProcess x.1, x.2) := by
  rw [sortedFound, found_postProcess]
  refine sort_of_sorted (List.pairwise_map.mpr ?_)
  have hsorted : Sorted ConfRemote.bitCount (sort ConfRemote.bitCount rems) := sort_sorted rems
  rw [← found_fst e (sort ConfRemote.bitCount rems)] at hsorted
  refine (List.pairwise_map.mp hsorted).imp fun hle => ?_
  exact le_of_le_of_eq (le_of_eq_of_le (postProcess_bitCount _) hle) (postProcess_bitCount _).symm

theorem listed_postProcess (x : ConfRemote × DataPtr) : listed (postProcess x.1, x.2) = listed x := by
  rw [listed, postProcess_idem]
  rfl

/-- The second time the list is what its remotes find in the sorted order. -/
theorem finishRemotes_again (huniform : UniformList ms) (h : Readable (found s.data (confs ms))) :
    ∃ s₁ s₂, finishRemotes s ms = some (s₁, (sortedFound s.data (confs ms)).map listed) ∧
      finishRemotes s₁ ((sortedFound s.data (confs ms)).map listed) =
        some (s₂, (found (leavesAll s.data (confs ms))
          (sort ConfRemote.bitCount (confs ms))).map listed) := by
  obtain ⟨s₁, hfirst, hdata⟩ := finishRemotes_some huniform h
  have hconfs : confs ((sortedFound s.data (confs ms)).map listed) =
      (sort ConfRemote.bitCount (confs ms)).map postProcess := by
    rw [confs_listed, sortedFound_fst]
  have huniform' : UniformList ((sortedFound s.data (confs ms)).map listed) := by
    intro m hm
    obtain ⟨x, hx, rfl⟩ := List.mem_map.mp hm
    have hmem : x.1 ∈ confs ms := by
      rw [← found_fst s.data (confs ms)]
      exact List.mem_map_of_mem ((sort_perm _).subset hx)
    obtain ⟨m', hm', heq⟩ := List.mem_map.mp hmem
    exact postProcess_uniform (heq ▸ huniform m' hm')
  have hagain : Readable (found s₁.data (confs ((sortedFound s.data (confs ms)).map listed))) := by
    rw [hconfs, hdata, found_postProcess, readable_postProcess]
    exact h.again (sort_perm _)
  obtain ⟨s₂, hsecond, -⟩ := finishRemotes_some huniform' hagain
  refine ⟨s₁, s₂, hfirst, ?_⟩
  rw [hsecond, hconfs, sortedFound_again, List.map_map, hdata]
  refine congrArg (fun l => some (s₂, l)) (List.map_congr_left fun x _ => ?_)
  exact listed_postProcess x

theorem sensitive_postProcess {rem : ConfRemote} :
    Sensitive (postProcess rem).toRemote ↔ Sensitive rem.toRemote := by
  cases hraw : isRaw rem.toRemote with
  | true =>
      obtain ⟨m, b, n, heq⟩ := postProcess_raw hraw
      rw [heq]
      exact Iff.rfl
  | false =>
      have hfalse : borrows rem.toRemote = false := by
        simp only [borrows, hraw, Bool.false_and]
      rw [Sensitive, Sensitive, postProcess_borrows, hfalse]
      exact iff_of_false (fun h => Bool.false_ne_true h.1) fun h => Bool.false_ne_true h.1

theorem repeatPasses_postProcess {rem : ConfRemote} (hraw : isRaw rem.toRemote = true) :
    repeatPasses (postProcess rem).toRemote d = repeatPasses rem.toRemote d := by
  obtain ⟨m, b, n, heq⟩ := postProcess_raw hraw
  rw [heq]
  rfl

/-- A remote has the same lengths at both places. -/
theorem listed_eq_iff {x y : ConfRemote × DataPtr} (heq : x.1 = y.1)
    (huniform : UniformCodes y.1.toRemote) (hx : borrows x.1.toRemote = true → x.2 ≠ .null)
    (hy : borrows y.1.toRemote = true → y.2 ≠ .null) :
    listed x = listed y ↔ (Sensitive y.1.toRemote →
      repeatPasses y.1.toRemote x.2 = repeatPasses y.1.toRemote y.2) := by
  obtain ⟨rem, d⟩ := x
  obtain ⟨rem', e⟩ := y
  obtain rfl : rem = rem' := heq
  have hlengths := lengthsAt_eq_iff (d := e) (e := d) (postProcess_uniform huniform)
    (fun h => hy (postProcess_borrows ▸ h)) (fun h => hx (postProcess_borrows ▸ h))
  rw [listed, listed, ListedRemote.mk.injEq, hlengths, sensitive_postProcess]
  simp only [true_and]
  refine imp_congr_right fun hsensitive => ?_
  have hraw : isRaw rem.toRemote = true := by
    have hb := hsensitive.1
    simp only [borrows, Bool.and_eq_true] at hb
    exact hb.1.1.1
  rw [repeatPasses_postProcess hraw, repeatPasses_postProcess hraw, eq_comm]

theorem map_listed_eq_iff {xs ys : List (ConfRemote × DataPtr)}
    (heq : xs.map Prod.fst = ys.map Prod.fst) (huniform : ∀ y ∈ ys, UniformCodes y.1.toRemote)
    (hx : Readable xs) (hy : Readable ys) :
    xs.map listed = ys.map listed ↔ List.Forall₂ (fun d y => Sensitive y.1.toRemote →
      repeatPasses y.1.toRemote d = repeatPasses y.1.toRemote y.2) (xs.map Prod.snd) ys := by
  induction xs generalizing ys with
  | nil =>
      cases ys with
      | nil => exact iff_of_true rfl .nil
      | cons y ys => cases heq
  | cons x xs ih =>
      cases ys with
      | nil => cases heq
      | cons y ys =>
          obtain ⟨hhead, htail⟩ := List.cons.inj heq
          have hrest := ih htail (fun z hz => huniform z (List.mem_cons_of_mem y hz))
            (fun z hz => hx z (List.mem_cons_of_mem x hz))
            (fun z hz => hy z (List.mem_cons_of_mem y hz))
          have hfirst := listed_eq_iff hhead (huniform y List.mem_cons_self)
            (hx x List.mem_cons_self).2 (hy y List.mem_cons_self).2
          rw [List.map_cons, List.map_cons, List.map_cons, List.cons.injEq, List.forall₂_cons,
            hfirst, hrest]

/-- The post-processing of a list that has been through it changes nothing exactly when the
pointers agree. -/
theorem finishRemotes_stable_iff (huniform : UniformList ms) :
    (∃ s₁ ms₁ s₂, finishRemotes s ms = some (s₁, ms₁) ∧ finishRemotes s₁ ms₁ = some (s₂, ms₁)) ↔
      PointersAgree s.data (confs ms) := by
  have hlist : ∀ h : Readable (found s.data (confs ms)),
      (sortedFound s.data (confs ms)).map listed = (found (leavesAll s.data (confs ms))
        (sort ConfRemote.bitCount (confs ms))).map listed ↔ List.Forall₂ (fun d y =>
          Sensitive y.1.toRemote → repeatPasses y.1.toRemote d = repeatPasses y.1.toRemote y.2)
        ((sortedFound s.data (confs ms)).map Prod.snd) (found (leavesAll s.data (confs ms))
          (sort ConfRemote.bitCount (confs ms))) := fun h => by
    refine map_listed_eq_iff ((sortedFound_fst _ _).trans (found_fst _ _).symm) (fun y hy => ?_)
      (fun x hx => h x ((sort_perm _).subset hx)) (h.again (sort_perm _))
    have hperm : (sort ConfRemote.bitCount (confs ms)).Perm (confs ms) := sort_perm _
    have hmem : y.1 ∈ confs ms := by
      refine hperm.subset ?_
      rw [← found_fst (leavesAll s.data (confs ms)) (sort ConfRemote.bitCount (confs ms))]
      exact List.mem_map_of_mem hy
    obtain ⟨m, hm, heq⟩ := List.mem_map.mp hmem
    exact heq ▸ huniform m hm
  constructor
  · rintro ⟨s₁, ms₁, s₂, hfirst, hsecond⟩
    have h := finishRemotes_readable huniform hfirst
    obtain ⟨t₁, t₂, hfirst', hsecond'⟩ := finishRemotes_again huniform h
    rw [hfirst] at hfirst'
    obtain ⟨rfl, rfl⟩ := Prod.mk.inj (Option.some.inj hfirst')
    rw [hsecond] at hsecond'
    refine ⟨h, ?_⟩
    have hagree := (hlist h).mp (Prod.mk.inj (Option.some.inj hsecond')).2
    rwa [← sortedFound_fst s.data] at hagree
  · rintro ⟨h, hagree⟩
    obtain ⟨s₁, s₂, hfirst, hsecond⟩ := finishRemotes_again huniform h
    refine ⟨s₁, _, s₂, hfirst, ?_⟩
    rw [hsecond, ← (hlist h).mpr]
    rwa [← sortedFound_fst s.data]

end Lists

/-- `sort_by_bit_count` returns a permutation of the list in ascending order, in which the
remotes with the same bit count keep their order. When the post-processing of a list comes
to its end, then it does a second time, and changes no field that a file sets and not the
order; the signal lengths stay what they are exactly when the pointers agree. -/
theorem includedList_stable_iff (remotes : ℕ → ConfRemote) (next : ℕ → Option ℕ)
    (head : Option ℕ) (nodes : List ℕ) (hchain : Linked.Chain next head nodes)
    (hnodup : nodes.Nodup) (s : SBuf) (ms : List ListedRemote) (huniform : UniformList ms) :
    (∃ next' top' nodes', relinkByBitCount remotes nodes.length next head = some (next', top') ∧
      Linked.Chain next' top' nodes' ∧ nodes'.Perm nodes ∧
      nodes'.Pairwise (fun a b => (remotes a).bitCount ≤ (remotes b).bitCount) ∧
      ∀ k, nodes'.filter (fun a => (remotes a).bitCount = k) =
        nodes.filter fun a => (remotes a).bitCount = k) ∧
    (∀ s₁ ms₁, finishRemotes s ms = some (s₁, ms₁) →
      ∃ s₂ ms₂, finishRemotes s₁ ms₁ = some (s₂, ms₂) ∧ confs ms₂ = confs ms₁) ∧
    ((∃ s₁ ms₁ s₂, finishRemotes s ms = some (s₁, ms₁) ∧ finishRemotes s₁ ms₁ = some (s₂, ms₁)) ↔
      PointersAgree s.data (confs ms)) := by
  refine ⟨?_, fun s₁ ms₁ hfirst => ?_, finishRemotes_stable_iff huniform⟩
  · obtain ⟨next', top', hrelink, hsorted, -, -⟩ :=
      @relinkByBitCount_chain remotes next nodes.length head nodes hchain hnodup le_rfl
    exact ⟨next', top', _, hrelink, hsorted, sort_perm nodes, sort_sorted nodes, sort_stable nodes⟩
  · obtain ⟨t₁, t₂, hfirst', hsecond⟩ :=
      finishRemotes_again huniform (finishRemotes_readable huniform hfirst)
    rw [hfirst] at hfirst'
    obtain ⟨rfl, rfl⟩ := Prod.mk.inj (Option.some.inj hfirst')
    refine ⟨t₂, _, hsecond, ?_⟩
    rw [confs_listed, confs_listed, found_fst, sortedFound_fst]

/-- A remote that leaves its own array in `data`, a raw one with a repeat code and buttons
without signals, and a raw one with a signal that has a zero in it. -/
def borrowingList : List ListedRemote :=
  [{ conf := { name := some "a".toList, bits := 16, pone := 560, sone := 1690, pzero := 560,
               szero := 560, gap := 40000, codes := some [{ name := "up".toList, code := 1 }] } },
   { conf := { name := some "b".toList, bits := 8, flags := rawCodes, prepeat := 9000,
               srepeat := 2250, ptrail := 560, gap := 40000,
               codes := some [{ name := "up".toList, code := 1 }] } },
   { conf := { name := some "c".toList, flags := rawCodes, gap := 40000,
               codes := some [{ name := "up".toList, code := 1,
                                signals := some [900, 0, 900] }] } }]

theorem borrowingList_uniform : UniformList borrowingList := by
  rw [UniformList, borrowingList, List.forall_mem_cons, List.forall_mem_cons, List.forall_mem_singleton]
  exact ⟨nofun, fun _ => .inl (by decide), fun _ => .inr (by decide)⟩

/-- In the sorted order the second remote of this list finds the signal of the third. -/
theorem includedList_not_stable : ∃ s₁ ms₁ s₂ ms₂,
    finishRemotes initSendBuffer borrowingList = some (s₁, ms₁) ∧
      finishRemotes s₁ ms₁ = some (s₂, ms₂) ∧ ms₂ ≠ ms₁ := by
  have hreadable : Readable (found initSendBuffer.data (confs borrowingList)) := by decide +kernel
  obtain ⟨s₁, s₂, hfirst, hsecond⟩ := finishRemotes_again borrowingList_uniform hreadable
  refine ⟨s₁, _, s₂, _, hfirst, hsecond, fun heq => ?_⟩
  rw [heq] at hsecond
  have hagree := ((finishRemotes_stable_iff borrowingList_uniform).mp
    ⟨s₁, _, s₂, hfirst, hsecond⟩).agree
  revert hagree
  decide +kernel

theorem includedList_stable_iff_apply :
    (∃ next' top' nodes', relinkByBitCount (fun a => { bits := 16 - a }) 2
        (fun a => if a = 0 then some 1 else none) (some 0) = some (next', top') ∧
      Linked.Chain next' top' nodes' ∧ nodes'.Perm [0, 1]) ∧
    ∃ s₁ ms₁ s₂, finishRemotes initSendBuffer (borrowingList.take 2) = some (s₁, ms₁) ∧
      finishRemotes s₁ ms₁ = some (s₂, ms₁) := by
  have huniform : UniformList (borrowingList.take 2) := fun m hm =>
    borrowingList_uniform m (List.mem_of_mem_take hm)
  obtain ⟨⟨next', top', nodes', hrelink, hchain, hperm, -⟩, -, hstable⟩ :=
    includedList_stable_iff (fun a => { bits := 16 - a }) (fun a => if a = 0 then some 1 else none)
      (some 0) [0, 1] ⟨rfl, rfl, rfl⟩ (by decide) initSendBuffer _ huniform
  exact ⟨⟨next', top', nodes', hrelink, hchain, hperm⟩,
    hstable.mpr ⟨by decide +kernel, by decide +kernel⟩⟩

end Lirc
