import Lirc.CodeTables
import Lirc.SignalLengths

/-!
The codes of a remote are those of one section of its file. A section of a raw remote gives
each button its signal, the other sections give none, and a remote has one section only; so
the buttons of a remote that has been read all have signals, or none has.
-/

namespace Lirc

/-! ### What holds of an outcome -/

/-- The property holds of the value, if there is one. -/
def Ensures {α : Type} (P : α → Prop) (x : Config α) : Prop := ∀ a, x = .ok a → P a

namespace Ensures

variable {α β : Type} {P : α → Prop} {Q : β → Prop} {x y : Config α}

theorem ok {a : α} (h : P a) : Ensures P (.ok a) := by
  rintro a' heq
  cases heq
  exact h

theorem error {e : ConfigError} : Ensures P (.error e) := nofun

theorem bind {f : α → Config β} (hx : Ensures P x) (hf : ∀ a, P a → Ensures Q (f a)) :
    Ensures Q (x >>= f) := by
  intro b hb
  obtain ⟨a, ha, hfa⟩ := Config.bind_ok hb
  exact hf a (hx a ha) b hfa

/-- Nothing has to be known of the value. -/
theorem andThen {f : β → Config α} (x : Config β) (h : ∀ b, Ensures P (f b)) :
    Ensures P (x >>= f) :=
  bind (P := fun _ => True) (fun _ _ => trivial) fun b _ => h b

theorem map {f : β → α} (h : ∀ b, P (f b)) (x : Config β) : Ensures P (x.map f) := by
  cases x with
  | error e => exact error
  | ok b => exact ok (h b)

theorem ite {c : Prop} [Decidable c] (hx : Ensures P x) (hy : Ensures P y) :
    Ensures P (if c then x else y) := by
  split
  · exact hx
  · exact hy

end Ensures

/-! ### The fields of a remote -/

/-- A definition sets another field than the codes. -/
abbrev KeepsCodes (rem : ConfRemote) (x : Config ConfRemote) : Prop :=
  Ensures (fun rem' => rem'.codes = rem.codes) x

theorem serialMode_codes (val : List Char) (rem : ConfRemote) :
    KeepsCodes rem (serialMode val rem) := by
  rw [serialMode.eq_def]
  split
  · refine .ite ?_ .error
    exact .andThen _ fun parity =>
      .andThen _ fun stop => .ok rfl
  · exact .error

theorem oneValue_codes : ∀ f ∈ oneValue, ∀ val rem, KeepsCodes rem (f.2 val rem) := by
  simp only [oneValue, List.forall_mem_cons]
  repeat' apply And.intro
  all_goals first
    | exact fun val rem => .ok (by rfl)
    | exact fun val rem => .map (fun n => by rfl) _
    | exact serialMode_codes
    | exact fun f hf => absurd hf List.not_mem_nil

theorem twoValues_codes : ∀ f ∈ twoValues, ∀ val val2 rem, KeepsCodes rem (f.2 val val2 rem) := by
  have hpair : ∀ (set : ConfRemote → ℤ → ℤ → ConfRemote) val val2 rem,
      (∀ p s, (set rem p s).codes = rem.codes) → KeepsCodes rem (pair set val val2 rem) :=
    fun set val val2 rem h => .andThen _ fun p =>
      .andThen _ fun s => .ok (h p s)
  simp only [twoValues, List.forall_mem_cons]
  repeat' apply And.intro
  all_goals first
    | exact fun val val2 rem => hpair _ val val2 rem fun _ _ => rfl
    | exact fun f hf => absurd hf List.not_mem_nil

theorem defineRemote_codes (key val : List Char) (val2 : Option (List Char)) (rem : ConfRemote) :
    KeepsCodes rem (defineRemote key val val2 rem) := by
  rw [defineRemote.eq_def]
  refine .ite ?_ ?_
  · exact .andThen _ fun gap2 =>
      .andThen _ fun gap => .ok rfl
  · split
    · next f hf => exact oneValue_codes f (List.mem_of_find?_eq_some hf) val rem
    · split
      · exact .error
      · split
        · next f hf => exact twoValues_codes f (List.mem_of_find?_eq_some hf) val _ rem
        · exact .error

/-! ### The sections -/

/-- Codes without signals, or with. -/
def HaveSignals (signals : Bool) (codes : List IrNcode) : Prop :=
  ∀ code ∈ codes, code.signals.isSome = signals

/-- The codes of one section. -/
def OneSection (rem : ConfRemote) : Prop := ∃ signals, HaveSignals signals (rem.codes.getD [])

/-- The codes that a section has so far. -/
def Mode.Fits : Mode → Prop
  | .none | .remote => True
  | .codes list => HaveSignals false list
  | .rawCodes list | .rawName list _ _ => HaveSignals true list

/-- What the parser has read is from one section each. -/
structure Parser.FromSections (p : Parser) : Prop where
  chain : ∀ rem ∈ p.chain, OneSection rem
  mode : p.mode.Fits

section Sections

variable {p q : Parser} {list : List IrNcode} {signals : Bool} {rem : ConfRemote}

theorem HaveSignals.concat {code : IrNcode} (h : HaveSignals signals list)
    (hcode : code.signals.isSome = signals) : HaveSignals signals (list ++ [code]) := by
  intro c hc
  rcases List.mem_append.mp hc with hc | hc
  · exact h c hc
  · exact List.mem_singleton.mp hc ▸ hcode

theorem HaveSignals.map {f : IrNcode → IrNcode} (h : HaveSignals signals list)
    (hf : ∀ code, (f code).signals = code.signals) : HaveSignals signals (list.map f) := by
  intro c hc
  obtain ⟨code, hcode, rfl⟩ := List.mem_map.mp hc
  rw [hf]
  exact h code hcode

theorem OneSection.of_codes {rem' : ConfRemote} (h : OneSection rem) (heq : rem'.codes = rem.codes) :
    OneSection rem' := by
  rw [OneSection, heq]
  exact h

theorem OneSection.of_map {rem' : ConfRemote} {f : IrNcode → IrNcode} (h : OneSection rem)
    (heq : rem'.codes = rem.codes.map (List.map f)) (hf : ∀ code, (f code).signals = code.signals) :
    OneSection rem' := by
  obtain ⟨signals, hsignals⟩ := h
  refine ⟨signals, ?_⟩
  rw [heq]
  cases hcodes : rem.codes with
  | none => exact fun _ hc => absurd hc List.not_mem_nil
  | some codes =>
      rw [hcodes] at hsignals
      exact HaveSignals.map hsignals hf

theorem OneSection.postProcess (h : OneSection rem) : OneSection (postProcess rem) := by
  by_cases hreverse : !rem.isRaw ∧ rem.has reverseFlag
  · refine h.of_map (f := fun c => { c with code := reverse c.code rem.bits.toNat }) ?_ fun _ => rfl
    rw [postProcess_codes_eq, kickReverse, if_pos hreverse]
  · refine h.of_codes ?_
    rw [postProcess_codes_eq, kickReverse, if_neg hreverse]

theorem sanityChecks_oneSection (h : OneSection rem) : Ensures OneSection (sanityChecks rem) := by
  rw [sanityChecks]
  split
  · exact .error
  · refine .ite (.ok h) ?_
    split
    · exact .error
    · next codes hcodes =>
        refine .ok (h.of_map (f := cutCode (maskOf rem.bits)) ?_ fun _ => rfl)
        rw [hcodes]
        rfl

/-- The current remote is replaced by one of the same kind. -/
theorem Parser.FromSections.setRem {rem' : ConfRemote} (hp : p.FromSections)
    (hrem : OneSection rem') : ({ p with rem := some rem' } : Parser).FromSections := by
  refine ⟨fun r hr => ?_, hp.mode⟩
  rcases List.mem_append.mp hr with hr | hr
  · rcases List.mem_append.mp hr with hr | hr
    · exact hp.chain r (List.mem_append_left _ (List.mem_append_left _ hr))
    · exact List.mem_singleton.mp hr ▸ hrem
  · exact hp.chain r (List.mem_append_right _ hr)

theorem Parser.FromSections.setMode {mode : Mode} (hp : p.FromSections) (hmode : mode.Fits) :
    ({ p with mode } : Parser).FromSections := ⟨hp.chain, hmode⟩

theorem onRem_fromSections {f : ConfRemote → Config ConfRemote} (hp : p.FromSections)
    (hf : ∀ rem, OneSection rem → Ensures OneSection (f rem)) :
    Ensures Parser.FromSections (p.onRem f) := by
  intro q hq
  obtain ⟨rem, rem', hrem, hfrem, rfl⟩ := onRem_ok hq
  have hmem : rem ∈ p.chain := by
    rw [Parser.chain, hrem]
    exact List.mem_append_left _ (List.mem_append_right _ (List.mem_singleton_self rem))
  exact hp.setRem (hf rem (hp.chain rem hmem) rem' hfrem)

theorem defineCode_signals (key val : List Char) (more : List (List Char)) :
    Ensures (fun code => code.signals.isSome = false) (defineCode key val more) :=
  .andThen _ fun _ =>
    .andThen _ fun _ => .ok rfl

theorem addRaw_signals (name : Name) (signals : List ℤ) (h : HaveSignals true list) :
    Ensures (HaveSignals true) (addRaw list name signals) :=
  .ite .error (.ok (h.concat rfl))

theorem codeLine_fromSections {key val : List Char} {more : List (List Char)}
    (hp : p.FromSections) (hlist : HaveSignals false list) :
    Ensures Parser.FromSections (codeLine p list key val more) :=
  .bind (defineCode_signals key val more) fun _ hcode => .ok (hp.setMode (hlist.concat hcode))

theorem checkMode_bind {P : Parser → Prop} {mode : Mode} {f : Unit → Config Parser}
    (h : p.mode = mode → Ensures P (f ())) : Ensures P (checkMode p mode >>= f) := by
  intro q hq
  obtain ⟨_, hmode, hq⟩ := Config.bind_ok hq
  exact h (checkMode_ok hmode) q hq

theorem beginSection_fromSections {key val : List Char} {more : List (List Char)}
    (hp : p.FromSections) : Ensures Parser.FromSections (beginSection p key val more) := by
  rw [beginSection]
  refine .ite ?_ (.ite ?_ (.ite ?_ ?_))
  · refine checkMode_bind fun _ => .bind (onRem_fromSections hp fun rem hrem => ?_) fun q hq =>
      .ok (hq.setMode fun _ hc => absurd hc List.not_mem_nil)
    exact .ite .error (.ok hrem)
  · refine checkMode_bind fun _ => .bind (onRem_fromSections hp fun rem hrem => ?_) fun q hq =>
      .ok (hq.setMode fun _ hc => absurd hc List.not_mem_nil)
    exact .ite .error (.ok (hrem.of_codes rfl))
  · refine checkMode_bind fun _ => .ok ⟨fun r hr => ?_, trivial⟩
    simp only [Parser.chain, Parser.append, Option.toList_some, List.append_nil, List.mem_append,
      List.mem_singleton] at hr
    rcases hr with hr | rfl
    · exact hp.chain r (List.mem_append_left _ (List.mem_append.mpr hr))
    · exact ⟨false, fun _ hc => absurd hc List.not_mem_nil⟩
  · split
    · next list hmode =>
        have hlist := hp.mode
        rw [hmode] at hlist
        exact codeLine_fromSections hp hlist
    · exact .error

theorem endRawCodes_signals (hmode : p.mode.Fits) : Ensures (HaveSignals true) (endRawCodes p.mode) := by
  cases h : p.mode with
  | rawName list name signals =>
      rw [h] at hmode
      exact addRaw_signals name signals hmode
  | rawCodes list =>
      rw [h] at hmode
      exact .ok hmode
  | none => exact .error
  | remote => exact .error
  | codes list => exact .error

theorem endSection_fromSections {key val : List Char} {more : List (List Char)}
    (hp : p.FromSections) : Ensures Parser.FromSections (endSection p key val more) := by
  rw [endSection]
  refine .ite ?_ (.ite ?_ (.ite ?_ ?_))
  · split
    · next list hmode =>
        have hlist := hp.mode
        rw [hmode] at hlist
        exact .bind (onRem_fromSections hp fun rem _ => .ok ⟨false, hlist⟩) fun q hq =>
          .ok (hq.setMode trivial)
    · exact .error
  · exact .bind (endRawCodes_signals hp.mode) fun list hlist =>
      .bind (onRem_fromSections hp fun rem _ => .ok ⟨true, hlist⟩) fun q hq => .ok (hq.setMode trivial)
  · refine checkMode_bind fun _ => .bind (onRem_fromSections hp fun rem hrem =>
      sanityChecks_oneSection hrem) fun q hq => .ok ⟨fun r hr => ?_, trivial⟩
    refine hq.chain r (List.mem_append_left _ ?_)
    rw [Parser.chain, List.append_nil] at hr
    exact hr
  · split
    · next list hmode =>
        have hlist := hp.mode
        rw [hmode] at hlist
        exact codeLine_fromSections hp hlist
    · exact .error

theorem rawLine_fromSections {key val : List Char} {more : List (List Char)}
    (hp : p.FromSections) : Ensures Parser.FromSections (rawLine p key val more) := by
  have hmode := hp.mode
  rw [rawLine]
  refine .ite ?_ ?_
  · split
    · next list name signals h =>
        rw [h] at hmode
        exact .bind (addRaw_signals name signals hmode) fun list hlist => .ok (hp.setMode hlist)
    · next list h =>
        rw [h] at hmode
        exact .ok (hp.setMode hmode)
    · exact .error
  · split
    · next list name signals h =>
        rw [h] at hmode
        exact .andThen _ fun _ => .ok (hp.setMode hmode)
    · exact .error

theorem bodyLine_fromSections {key val : List Char} {more : List (List Char)}
    (hp : p.FromSections) : Ensures Parser.FromSections (bodyLine p key val more) := by
  rw [bodyLine]
  split
  · exact .ok hp
  · exact onRem_fromSections hp fun rem hrem rem' hrem' =>
      hrem.of_codes (defineRemote_codes key val more.head? rem rem' hrem')
  · next list hmode =>
      have hlist := hp.mode
      rw [hmode] at hlist
      exact codeLine_fromSections hp hlist
  · exact rawLine_fromSections hp
  · exact rawLine_fromSections hp

theorem plainLine_fromSections {ws : List (List Char)} (hp : p.FromSections) :
    Ensures Parser.FromSections (plainLine p ws) := by
  match ws with
  | [] => exact .ok hp
  | [key] =>
      rw [plainLine]
      split
      · next list name signals h =>
          have hmode := hp.mode
          rw [h] at hmode
          exact .andThen _ fun _ => .ok (hp.setMode hmode)
      · exact .error
  | key :: val :: more =>
      rw [plainLine]
      exact .ite (beginSection_fromSections hp)
        (.ite (endSection_fromSections hp) (bodyLine_fromSections hp))

theorem finish_oneSection (hp : p.FromSections) :
    Ensures (fun remotes => ∀ rem ∈ remotes, OneSection rem) (finish p) := by
  intro remotes h
  obtain ⟨-, -, rfl⟩ := finish_ok h
  simp only [(sortByBitCount_perm _).mem_iff, List.forall_mem_map]
  exact fun rem hrem => (hp.chain rem hrem).postProcess

theorem splice_fromSections {remotes : List ConfRemote} (hp : p.FromSections)
    (h : ∀ rem ∈ remotes, OneSection rem) : (p.splice remotes).FromSections := by
  cases remotes with
  | nil =>
      refine ⟨fun r hr => hp.chain r (List.mem_append_left _ ?_), hp.mode⟩
      rw [Parser.splice, Parser.chain, List.append_nil] at hr
      exact hr
  | cons rem after =>
      refine ⟨fun r hr => ?_, hp.mode⟩
      simp only [Parser.chain, Parser.splice, Option.toList_some, List.mem_append,
        List.mem_singleton] at hr
      rcases hr with (hr | rfl) | hr
      · exact hp.chain r (List.mem_append_left _ (List.mem_append.mpr hr))
      · exact h r List.mem_cons_self
      · exact h r (List.mem_cons_of_mem rem hr)

end Sections

section Files

variable {files : List Char → Option (List Char)} {levels : ℕ} {name : List Char} {p : Parser}
  {bufs : List (List Char)}

theorem Parser.FromSections.start : Parser.FromSections {} :=
  ⟨fun _ hr => absurd hr List.not_mem_nil, trivial⟩

/-- The lines of a file, when the include lines are read well. -/
theorem readLines_of_includeLine (hincl : ∀ val p, Parser.FromSections p →
    Ensures Parser.FromSections (includeLine files levels name val p)) (hp : p.FromSections) :
    Ensures Parser.FromSections (readLines files levels name p bufs) := by
  induction bufs generalizing p with
  | nil =>
      rw [readLines_nil]
      exact .ok hp
  | cons buf bufs ih =>
      rw [readLines_cons]
      refine .bind (.ite .error ?_) fun q hq => ih hq
      cases includeOf buf with
      | none => exact plainLine_fromSections hp
      | some val => exact hincl val p hp

/-- The remotes of a file, and of those that it includes, are from one section each. -/
theorem readLines_fromSections (hp : p.FromSections) :
    Ensures Parser.FromSections (readLines files levels name p bufs) := by
  induction levels generalizing name p bufs with
  | zero => exact readLines_of_includeLine (fun _ _ _ => .error) hp
  | succ levels ih =>
      refine readLines_of_includeLine (fun val p hp => ?_) hp
      rw [includeLine]
      split
      · exact .error
      split
      · exact .ok hp
      exact .bind (ih .start) fun q hq => .bind (finish_oneSection hq) fun remotes hremotes =>
        .ok (splice_fromSections hp hremotes)

theorem OneSection.uniform {rem : ConfRemote} (h : OneSection rem) : UniformCodes rem.toRemote := by
  obtain ⟨signals, hsignals⟩ := h
  intro _
  cases signals with
  | false =>
      refine .inl fun code hcode => ?_
      rw [Option.isNone_iff_eq_none, ← Option.not_isSome_iff_eq_none, hsignals code hcode]
      exact Bool.false_ne_true
  | true => exact .inr hsignals

end Files

end Lirc
