import Lirc.Lircrcd

/-!
Which texts fit the arrays they are formatted into. Every function adds events
to the trace; with each goes the condition under which the texts among them
fit.
-/

namespace Lirc

open CString Numeral

/-- A formatted text fits its array, with the terminating zero. -/
def Event.Fits : Event → Prop
  | .formatted text size => text.length < size
  | _ => True

instance : DecidablePred Event.Fits
  | .formatted text size => inferInstanceAs (Decidable (text.length < size))
  | .wrote .. | .broken _ | .closed _ | .sent .. | .init | .deinit => .isTrue trivial

/-- Events are added to a trace, and all of them fit exactly when `P` holds. -/
def Adds (t t' : List Event) (P : Prop) : Prop :=
  ∃ es, t' = t ++ es ∧ ((∀ e ∈ es, e.Fits) ↔ P)

namespace Adds

variable {t t' t'' : List Event} {P Q : Prop}

theorem refl (t : List Event) : Adds t t True :=
  ⟨[], (List.append_nil t).symm, by simp⟩

theorem one (t : List Event) (e : Event) : Adds t (t ++ [e]) e.Fits :=
  ⟨[e], rfl, by simp⟩

theorem trans (h : Adds t t' P) (h' : Adds t' t'' Q) : Adds t t'' (P ∧ Q) := by
  obtain ⟨es, rfl, hes⟩ := h
  obtain ⟨es', rfl, hes'⟩ := h'
  refine ⟨es ++ es', List.append_assoc .., ?_⟩
  rw [← hes, ← hes', List.forall_mem_append]

theorem congr (h : Adds t t' P) (hPQ : P ↔ Q) : Adds t t' Q := by
  obtain ⟨es, hes, hfits⟩ := h
  exact ⟨es, hes, hfits.trans hPQ⟩

/-- Nothing that is formatted first makes a difference. -/
theorem after (h : Adds t t' True) (h' : Adds t' t'' Q) : Adds t t'' Q :=
  (h.trans h').congr (iff_of_eq (true_and Q))

theorem before (h : Adds t t' P) (h' : Adds t' t'' True) : Adds t t'' P :=
  (h.trans h').congr (iff_of_eq (and_true P))

end Adds

theorem countLine_length (n : ℕ) : (countLine n).length ≤ 12 := by
  have hbound : (Int.bmod n (2 ^ 32)).natAbs < 10 ^ 10 := by
    have hlt := Int.bmod_lt (x := (n : ℤ)) (m := 2 ^ 32) (by decide)
    have hge := Int.le_bmod (x := (n : ℤ)) (m := 2 ^ 32) (by decide)
    omega
  have hlen := length_decimalInt_le hbound (by decide)
  rw [countLine, List.length_append, List.length_singleton]
  omega

section Daemon

variable (env : Env) (fd : ℕ)

/-- A first part, and a second one that is done when the first has gone well. -/
theorem Adds.andThen {t : List Event} {x : Bool × Daemon} {f : Daemon → Bool × Daemon}
    (hx : Adds t x.2.trace True) (hf : ∀ d, Adds d.trace (f d).2.trace True) :
    Adds t (andThen x f).2.trace True := by
  rw [Lirc.andThen]
  split
  · exact hx.after (hf x.2)
  · exact hx

theorem writeSocket_adds (bytes : List Char) (d : Daemon) :
    Adds d.trace (writeSocket env fd bytes d).2.trace True := by
  rw [writeSocket]
  split
  · exact (Adds.one d.trace _).congr (iff_of_true trivial trivial)
  · exact (Adds.one d.trace _).congr (iff_of_true trivial trivial)

theorem writeAll_adds (texts : List (List Char)) (d : Daemon) :
    Adds d.trace (writeAll env fd texts d).2.trace True := by
  induction texts generalizing d with
  | nil => exact Adds.refl d.trace
  | cons bytes texts ih => exact (writeSocket_adds env fd bytes d).andThen ih

/-- A text with one newline at its end. -/
theorem sendError_adds (message text : List Char) (d : Daemon) (hlines : text.count '\n' < 10) :
    Adds d.trace (sendError env fd message text d).2.trace (text.length < packetSize + 1) := by
  have hfew : ∀ n < 10, (countLine n).length < 4 := by decide
  have hcount := hfew _ hlines
  have htext : Adds d.trace (d.log (.formatted text (packetSize + 1))).trace
      (text.length < packetSize + 1) := Adds.one d.trace _
  have hlog := htext.trans
    (Adds.one _ (.formatted (countLine (text.count '\n')) 4))
  exact (hlog.congr (and_iff_left hcount)).before (writeAll_adds env fd _ _)

theorem sendError_fixed (message : List Char) {text : List Char} (d : Daemon)
    (htext : text.count '\n' < 10 ∧ text.length < packetSize + 1) :
    Adds d.trace (sendError env fd message text d).2.trace True :=
  (sendError_adds env fd message text d htext.1).congr (iff_true_intro htext.2)

theorem sendLines_adds {limit : ℕ} (hlimit : limit ≤ packetSize + 1)
    (replacement : List Char) (texts : List (List Char)) (d : Daemon) :
    Adds d.trace (sendLines env fd limit replacement texts d).2.trace True := by
  induction texts generalizing d with
  | nil => exact Adds.refl d.trace
  | cons text texts ih =>
      have hlen : (text.take (limit - 1)).length < packetSize + 1 := by
        have htake := List.length_take_le (limit - 1) text
        have hpos : 0 < packetSize := by decide
        omega
      have hlog : Adds d.trace
          (d.log (.formatted (text.take (limit - 1)) (packetSize + 1))).trace True :=
        (Adds.one d.trace _).congr (iff_true_intro hlen)
      exact (hlog.after (writeSocket_adds env fd _ _)).andThen ih

theorem sendList_adds (message : List Char) {limit : ℕ} (hlimit : limit ≤ packetSize + 1)
    (replacement : List Char) (texts : List (List Char)) (d : Daemon) :
    Adds d.trace (sendList env fd message limit replacement texts d).2.trace True := by
  refine (writeAll_adds env fd _ d).andThen fun d => ?_
  dsimp only
  split
  · exact writeAll_adds env fd _ d
  · have hcount : (countLine texts.length).length < packetSize + 1 :=
      (countLine_length _).trans_lt (by decide)
    have hlog : Adds d.trace
        (d.log (.formatted (countLine texts.length) (packetSize + 1))).trace True :=
      (Adds.one d.trace _).congr (iff_true_intro hcount)
    refine (hlog.after (writeAll_adds env fd _ _)).andThen fun d => ?_
    exact (sendLines_adds env fd hlimit replacement texts d).andThen (writeAll_adds env fd _)

theorem sendName_adds (message : List Char) (code : IrNcode) (d : Daemon) :
    Adds d.trace (sendName env fd message code d).2.trace True := by
  refine (writeAll_adds env fd _ d).andThen fun d => ?_
  exact (sendLines_adds env fd (Nat.le_succ _) _ _ d).andThen (writeAll_adds env fd _)

/-! ### The texts of errors -/

theorem not_mem_decimal (n : ℕ) : '\n' ∉ decimal n := fun hmem => by
  have hdigit := Nat.isDigit_of_mem_toDigits (by decide) (by decide) hmem
  cases hdigit

theorem not_mem_decimalInt (n : ℤ) : '\n' ∉ decimalInt n := by
  rw [decimalInt]
  split
  · rw [List.mem_cons, not_or]
    exact ⟨by decide, not_mem_decimal _⟩
  · exact not_mem_decimal _

/-- The names in the arguments fit the texts in which they are quoted. -/
def ArgsFit (d : Daemon) (arguments : Option (List Char)) : Prop :=
  ∀ name rest, arguments.bind (strtok whiteSpace) = some (name, rest) →
    match d.getIrRemote name with
    | none => name.length ≤ 237
    | some a =>
        ∀ command rest', strtok whiteSpace rest = some (command, rest') →
          getCodeByName (d.heap a) command = none → command.length ≤ 236

theorem strtok_subset {delims s tok rest : List Char} (h : strtok delims s = some (tok, rest)) :
    tok ⊆ s ∧ rest ⊆ s := by
  rw [strtok] at h
  have hdrop : s.dropWhile (delims.contains ·) ⊆ s := (List.dropWhile_suffix _).subset
  generalize s.dropWhile (delims.contains ·) = t at h hdrop
  cases t with
  | nil => cases h
  | cons c cs =>
      obtain ⟨rfl, rfl⟩ := Prod.mk.inj (Option.some.inj h)
      have htake := (List.takeWhile_prefix (fun x => !delims.contains x) (l := c :: cs)).subset
      have hrest := (List.dropWhile_suffix (fun x => !delims.contains x) (l := c :: cs)).subset
      exact ⟨fun x hx => hdrop (htake hx), fun x hx => hdrop (hrest (List.mem_of_mem_tail hx))⟩

/-- A text without names. -/
def FixedText (text : List Char) : Prop := text.count '\n' < 10 ∧ text.length < packetSize + 1

instance (text : List Char) : Decidable (FixedText text) := inferInstanceAs (Decidable (_ ∧ _))

theorem argCheck_error {n : ℕ} {rc : RcArgs} {text : List Char}
    (h : argCheck n rc = .error text) : FixedText text := by
  rw [argCheck] at h
  split at h
  · cases h
    decide
  split at h
  · cases h
    decide
  · cases h

/-- A text with two words that hold no newline. -/
theorem fixedText_words {before a between b after : List Char} (ha : '\n' ∉ a) (hb : '\n' ∉ b)
    (hcount : before.count '\n' + between.count '\n' + after.count '\n' < 10)
    (hlen : before.length + a.length + between.length + b.length + after.length <
      packetSize + 1) : FixedText (before ++ a ++ between ++ b ++ after) := by
  refine ⟨?_, ?_⟩
  · simp only [List.count_append, List.count_eq_zero.mpr ha, List.count_eq_zero.mpr hb]
    omega
  · simp only [List.length_append]
    exact hlen

theorem tooManyRepeats_fixed {reps : ℤ} (h : reps.natAbs < 10 ^ 10) :
    FixedText (tooManyRepeats env reps) := by
  have hmax : (decimal env.repeatMax).length ≤ 10 :=
    length_decimal_le (env.repeatMax_lt.trans (by decide)) (by decide)
  have hreps := length_decimalInt_le h (by decide)
  refine fixedText_words (not_mem_decimalInt _) (not_mem_decimal _) (by decide) ?_
  have hfirst : "too many repeats: \"".toList.length = 19 := by decide
  have hmiddle : "\" > \"".toList.length = 5 := by decide
  have hlast : "\"\n".toList.length = 2 := by decide
  rw [hfirst, hmiddle, hlast, packetSize]
  omega

theorem parseEnd_error {withReps : Bool} {n : ℕ} {rc : RcArgs} {rest text : List Char}
    (h : parseEnd env withReps n rc rest = .error text) : FixedText text := by
  unfold parseEnd at h
  split at h
  · exact argCheck_error h
  · exact argCheck_error h
  · cases h
    decide
  · next repeats rest' _ =>
      cases hreps : parseReps repeats with
      | none =>
          rw [hreps] at h
          cases h
          decide
      | some reps =>
          simp only [hreps] at h
          split at h
          · cases h
            decide
          split at h
          · cases h
            refine tooManyRepeats_fixed env ?_
            rw [parseReps] at hreps
            split at hreps
            · cases hreps
              have hlt := Int.bmod_lt (x := (scanDecimal repeats).toSigned) (m := 2 ^ 32) (by decide)
              have hge := Int.le_bmod (x := (scanDecimal repeats).toSigned) (m := 2 ^ 32) (by decide)
              omega
            · cases hreps
          split at h
          · cases h
            decide
          · exact argCheck_error h

/-- A quoted name that holds no newline. -/
theorem quoted_count {before name after : List Char} (hname : '\n' ∉ name)
    (h : before.count '\n' + after.count '\n' < 10) :
    (before ++ name ++ after).count '\n' < 10 := by
  rw [List.count_append, List.count_append, List.count_eq_zero.mpr hname]
  omega

/-- How long a quoted name may be. -/
theorem quoted_length {before name after : List Char} {k : ℕ}
    (h : before.length + after.length + k = packetSize) :
    (before ++ name ++ after).length < packetSize + 1 ↔ name.length ≤ k := by
  rw [List.length_append, List.length_append]
  omega

/-- The error of `parse_rc` fits its array exactly when the quoted name does. -/
theorem parseRc_error {d : Daemon} {arguments : Option (List Char)} {withReps : Bool} {n : ℕ}
    (hargs : ∀ args ∈ arguments, '\n' ∉ args) :
    match parseRc env d arguments withReps n with
    | .error text =>
        text.count '\n' < 10 ∧ (text.length < packetSize + 1 ↔ ArgsFit d arguments)
    | .ok _ => ArgsFit d arguments := by
  rw [parseRc]
  cases harg : arguments.bind (strtok whiteSpace) with
  | none =>
      have hfit : ArgsFit d arguments := fun name rest h => by
        rw [harg] at h
        cases h
      cases hcheck : argCheck n {} with
      | error text =>
          have hfixed := argCheck_error hcheck
          simp only
          exact ⟨hfixed.1, iff_of_true hfixed.2 hfit⟩
      | ok rc =>
          simp only
          exact hfit
  | some token =>
      obtain ⟨name, rest⟩ := token
      obtain ⟨args, rfl, htok⟩ := Option.bind_eq_some_iff.mp harg
      obtain ⟨hname, hrest⟩ := strtok_subset htok
      have hargs' := hargs args rfl
      have hfit : ArgsFit d (some args) ↔
          match d.getIrRemote name with
          | none => name.length ≤ 237
          | some a => ∀ command rest', strtok whiteSpace rest = some (command, rest') →
              getCodeByName (d.heap a) command = none → command.length ≤ 236 := by
        constructor
        · exact fun h => h name rest harg
        · intro h name' rest' h'
          rw [harg] at h'
          cases h'
          exact h
      cases hremote : d.getIrRemote name with
      | none =>
          rw [hfit]
          simp only [hremote]
          exact ⟨quoted_count (fun hmem => hargs' (hname hmem)) (by decide),
            quoted_length (by decide)⟩
      | some a =>
          rw [hremote] at hfit
          simp only [hremote]
          cases hcommand : strtok whiteSpace rest with
          | none =>
              have hfit' : ArgsFit d (some args) := hfit.mpr fun command rest' h => by
                rw [hcommand] at h
                cases h
              cases hcheck : argCheck n { remote := some a } with
              | error text =>
                  have hfixed := argCheck_error hcheck
                  simp only
                  exact ⟨hfixed.1, iff_of_true hfixed.2 hfit'⟩
              | ok rc =>
                  simp only
                  exact hfit'
          | some token =>
              obtain ⟨command, rest'⟩ := token
              obtain ⟨hcmd, -⟩ := strtok_subset hcommand
              have hfit' : ArgsFit d (some args) ↔
                  (getCodeByName (d.heap a) command = none → command.length ≤ 236) := by
                rw [hfit]
                constructor
                · exact fun h => h command rest' hcommand
                · intro h command' rest'' h'
                  rw [hcommand] at h'
                  cases h'
                  exact h
              rw [hfit']
              simp only
              cases hcode : getCodeByName (d.heap a) command with
              | none =>
                  simp only
                  rw [true_imp_iff]
                  exact ⟨quoted_count (fun hmem => hargs' (hrest (hcmd hmem)))
                    (by decide), quoted_length (by decide +kernel)⟩
              | some c =>
                  simp only
                  cases hend : parseEnd env withReps n { remote := some a, code := some c } rest' with
                  | error text =>
                      have hfixed := parseEnd_error env hend
                      exact ⟨hfixed.1, iff_of_true hfixed.2 (by simp)⟩
                  | ok rc => simp

end Daemon

end Lirc
