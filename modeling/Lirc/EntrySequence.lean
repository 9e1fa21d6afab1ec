import Lirc.Library.Run
import Lirc.Library.SequenceMatch
import Lirc.Lircrc

/-!
`lirc_iscode` as a matcher of sequences: the presses since an entry was completed
last, and the place of the entry in its list of buttons.
-/

namespace Lirc

open Transition SequenceMatch

/-- What an event says. -/
structure ButtonEvent where
  remote : Name
  button : Name
  rep : ℕ

/-- The press of a button of a remote. -/
def ButtonEvent.press (ev : ButtonEvent) : Name × Name := (ev.remote, ev.button)

/-- A press is one that an element of the list asks for. -/
def RcCode.Covers (c : RcCode) (press : Name × Name) : Prop := c.covers press.1 press.2 = true

/-- Neither the remote nor the button is `LIRC_ALL`. -/
structure RcCode.Plain (c : RcCode) : Prop where
  remote : c.remote.isSome = true
  button : c.button.isSome = true

theorem strcaseeq_congr {a b : Name} (h : strcaseeq a b = true) (c : Name) :
    strcaseeq c a = strcaseeq c b := by
  have heq : a.map Char.toLower = b.map Char.toLower := beq_iff_eq.mp h
  rw [strcaseeq, strcaseeq, heq]

/-- Two elements agree when one of them covers what the other does. -/
theorem RcCode.coversCode_iff {c c' : RcCode} (hplain : c'.Plain) {press : Name × Name}
    (h : c'.Covers press) : c.coversCode c' = true ↔ c.Covers press := by
  obtain ⟨remote, hremote⟩ := Option.isSome_iff_exists.mp hplain.remote
  obtain ⟨button, hbutton⟩ := Option.isSome_iff_exists.mp hplain.button
  rw [Covers, covers, hremote, hbutton, Bool.and_eq_true] at h
  rw [coversCode, Covers, covers, hremote, hbutton]
  simp only [Option.all_some, Option.any_some] at h ⊢
  rw [show (fun r => strcaseeq r remote) = fun r => strcaseeq r press.1 from
      funext fun r => strcaseeq_congr h.1 r,
    show (fun b => strcaseeq b button) = fun b => strcaseeq b press.2 from
      funext fun b => strcaseeq_congr h.2 b]

/-! ### One event -/

namespace RcEntry

variable {e : RcEntry} {k : ℕ} {c : RcCode} {remote button : Name}

/-- An entry with several buttons that waits for the one at the head of `rest`. -/
theorem isCode_sequence {c₀ c₁ : RcCode} {more rest : List RcCode}
    (hcode : e.code = c₀ :: c₁ :: more) (hnext : e.nextCode = c :: rest) (rep : ℕ) :
    e.isCode remote button rep =
      if rep ≠ 0 then (0, e)
      else if c.covers remote button then
        if rest = [] then (2, { e with nextCode := e.code })
        else (1, { e with nextCode := rest })
      else
        (0, { e with
          nextConfig := if e.flags.toggleReset then e.config else e.nextConfig
          nextCode := e.rebase remote button }) := by
  cases e with
  | mk prog code repDelay rep' config changeMode flags mode nextConfig nextCode =>
      obtain rfl : code = c₀ :: c₁ :: more := hcode
      obtain rfl : nextCode = c :: rest := hnext
      rw [isCode]
      by_cases hrep : rep = 0
      · by_cases hcovers : c.covers remote button = true
        · by_cases hrest : rest = []
          · simp [hrep, hcovers, hrest]
          · simp [hrep, hcovers, hrest]
        · simp [hrep, hcovers]
      · simp [hrep]

/-- An entry with several buttons that waits for the one at `k`. -/
theorem isCode_at (hlen : 2 ≤ e.code.length) (hc : e.code[k]? = some c)
    (hnext : e.nextCode = e.code.drop k) (rep : ℕ) :
    e.isCode remote button rep =
      if rep ≠ 0 then (0, e)
      else if c.covers remote button then
        if k + 1 = e.code.length then (2, { e with nextCode := e.code })
        else (1, { e with nextCode := e.code.drop (k + 1) })
      else
        (0, { e with
          nextConfig := if e.flags.toggleReset then e.config else e.nextConfig
          nextCode := e.rebase remote button }) := by
  obtain ⟨hk, hget⟩ := List.getElem?_eq_some_iff.mp hc
  have hdrop : e.nextCode = c :: e.code.drop (k + 1) := by
    rw [hnext, List.drop_eq_getElem_cons hk, hget]
  obtain ⟨c₀, c₁, more, hcode⟩ : ∃ c₀ c₁ more, e.code = c₀ :: c₁ :: more := by
    match h : e.code, hlen with
    | c₀ :: c₁ :: more, _ => exact ⟨c₀, c₁, more, rfl⟩
  have hlast : e.code.drop (k + 1) = [] ↔ k + 1 = e.code.length := by
    rw [List.drop_eq_nil_iff]
    omega
  rw [isCode_sequence hcode hdrop rep]
  simp only [hlast]

theorem zip_all_iff {α β : Type*} {f : α × β → Bool} {l : List α} {seg : List β}
    (h : seg.length ≤ l.length) : (l.zip seg).all f = true ↔
      List.Forall₂ (fun a b => f (a, b) = true) (l.take seg.length) seg := by
  induction seg generalizing l with
  | nil => simp
  | cons b seg ih =>
      cases l with
      | nil => simp at h
      | cons a l =>
          rw [List.zip_cons_cons, List.all_cons, Bool.and_eq_true, List.length_cons,
            List.take_succ_cons, List.forall₂_cons, ih (by simpa using h)]

/-- A beginning that the loop of `lirc_iscode` takes: the last presses match it,
and the new press goes on with it. -/
theorem rebase_fits_iff (hplain : ∀ c ∈ e.code, c.Plain) {presses : List (Name × Name)}
    (hplace : AtPlace RcCode.Covers e.code presses k) {j : ℕ} (hj : j < k) :
    ((e.code.zip ((e.code.drop (j + 1)).take (k - (j + 1)))).all (fun x => x.1.coversCode x.2) &&
        (e.code[k - (j + 1)]?).any fun c => c.covers remote button) = true ↔
      Ends RcCode.Covers e.code (k - (j + 1)) presses ∧
        ∃ c, e.code[k - (j + 1)]? = some c ∧ c.Covers (remote, button) := by
  have hk := hplace.lt
  have hagree : ∀ p ∈ e.code, ∀ q ∈ e.code, ∀ y, q.Covers y → (p.coversCode q = true ↔ p.Covers y) :=
    fun p _ q hq y hy => RcCode.coversCode_iff (hplain q hq) hy
  have hseg : ((e.code.drop (j + 1)).take (k - (j + 1))).length = k - (j + 1) := by
    rw [List.length_take, List.length_drop]
    omega
  rw [Bool.and_eq_true, zip_all_iff (by omega), hseg, Option.any_eq_true,
    ends_iff_agree hagree hplace.ends (by omega) (j := k - (j + 1)) (by omega),
    show k - (k - (j + 1)) = j + 1 by omega]
  rfl

/-- The place after a press that does not go on with the sequence. -/
theorem rebase_spec (hplain : ∀ c ∈ e.code, c.Plain) (hnext : e.nextCode = e.code.drop k)
    {presses : List (Name × Name)} (hplace : AtPlace RcCode.Covers e.code presses k)
    (hc : e.code[k]? = some c) (hmiss : c.covers remote button = false) :
    ∃ k', e.rebase remote button = e.code.drop k' ∧
      AtPlace RcCode.Covers e.code (presses ++ [(remote, button)]) k' := by
  have hk := hplace.lt
  have hplaceAt : e.code.length - e.nextCode.length = k := by
    rw [hnext, List.length_drop]
    omega
  -- the element at the place is not the one that was pressed
  have hmiss' : ∀ q, e.code[k]? = some q → ¬q.Covers (remote, button) := by
    intro q hq hcovers
    obtain rfl : c = q := Option.some.inj (hc.symm.trans hq)
    rw [RcCode.Covers, hmiss] at hcovers
    nomatch hcovers
  rw [rebase, hplaceAt]
  cases hfind : (List.range k).find? fun j =>
      (e.code.zip ((e.code.drop (j + 1)).take (k - (j + 1)))).all (fun x => x.1.coversCode x.2) &&
        (e.code[k - (j + 1)]?).any fun c => c.covers remote button with
  | none =>
      refine ⟨0, List.drop_zero.symm, hplace.startOver ?_⟩
      intro i q hi hq hends hcovers
      obtain rfl | hlt := Nat.eq_or_lt_of_le hi
      · exact hmiss' q hq hcovers
      · have hnot := List.find?_range_eq_none.mp hfind (k - (i + 1)) (by omega)
        rw [Bool.not_eq_true'] at hnot
        refine Bool.eq_false_iff.mp hnot ((rebase_fits_iff hplain hplace (by omega)).mpr ?_)
        rw [show k - (k - (i + 1) + 1) = i by omega]
        exact ⟨hends, q, hq, hcovers⟩
  | some j =>
      obtain ⟨hfits, hj, hfirst⟩ := List.find?_range_eq_some.mp hfind
      have hj : j < k := List.mem_range.mp hj
      obtain ⟨hends, q, hq, hcovers⟩ := (rebase_fits_iff hplain hplace hj).mp hfits
      refine ⟨k - (j + 1) + 1, by rw [show k - (j + 1) + 1 = k - j by omega],
        hplace.fallBack hq (by omega) hends hcovers ?_⟩
      intro i q' hlt hi hq' hends' hcovers'
      obtain rfl | hik := Nat.eq_or_lt_of_le hi
      · exact hmiss' q' hq' hcovers'
      · have hnot := hfirst (k - (i + 1)) (by omega)
        rw [Bool.not_eq_true'] at hnot
        refine Bool.eq_false_iff.mp hnot ((rebase_fits_iff hplain hplace (by omega)).mpr ?_)
        rw [show k - (k - (i + 1) + 1) = i by omega]
        exact ⟨hends', q', hq', hcovers'⟩

end RcEntry

/-! ### A series of events -/

/-- An entry after an event, and the presses since it was completed last. -/
def sequenceStep (s : RcEntry × List (Name × Name)) (ev : ButtonEvent) :
    RcEntry × List (Name × Name) :=
  let (iscode, e) := s.1.isCode ev.remote ev.button ev.rep
  (e, if iscode = 2 then [] else if ev.rep = 0 then s.2 ++ [ev.press] else s.2)

/-- The entry waits at the place that the presses lead to. -/
def Waits (code : List RcCode) (s : RcEntry × List (Name × Name)) : Prop :=
  s.1.code = code ∧ ∃ k, s.1.nextCode = code.drop k ∧ AtPlace RcCode.Covers code s.2 k

theorem sequenceStep_waits {code : List RcCode} (hlen : 2 ≤ code.length)
    (hplain : ∀ c ∈ code, c.Plain) (s : RcEntry × List (Name × Name)) (ev : ButtonEvent)
    (h : Waits code s) : Waits code (sequenceStep s ev) := by
  obtain ⟨e, presses⟩ := s
  obtain ⟨rfl, k, hnext, hplace⟩ := h
  have hc := List.getElem?_eq_getElem hplace.lt
  rw [sequenceStep, RcEntry.isCode_at hlen hc hnext]
  dsimp only
  split
  · next hrep => exact ⟨rfl, k, hnext, by simpa [hrep] using hplace⟩
  · next hrep =>
      rw [Decidable.not_not] at hrep
      split
      · next hcovers =>
          split
          · exact ⟨rfl, 0, rfl, atPlace_nil (List.length_pos_iff.mp (by omega))⟩
          · next hmore =>
              have hlt : k < e.code.length := hplace.lt
              have hmore' : k + 1 < e.code.length := by
                have hne : k + 1 ≠ e.code.length := hmore
                omega
              have hnext' := hplace.advance (x := ev.press) hc hcovers hmore'
              exact ⟨rfl, k + 1, rfl, by simpa [hrep] using hnext'⟩
      · next hmiss =>
          obtain ⟨k', hrebase, (hplace' : AtPlace _ _ (presses ++ [ev.press]) k')⟩ :=
            RcEntry.rebase_spec hplain hnext hplace hc
            (Bool.eq_false_iff.mpr hmiss)
          exact ⟨rfl, k', hrebase, by simpa [hrep] using hplace'⟩

/-- An entry of several buttons: its place is the longest beginning of the list
that the last presses since its completion match, it is completed by the presses
after which they match the list, it is told to have gone on by those that match
the button at its place, and repeats leave it where it is. -/
theorem iscode_matches_sequence (e : RcEntry) (hlen : 2 ≤ e.code.length)
    (hplain : ∀ c ∈ e.code, c.Plain) (hstart : e.nextCode = e.code) (events : List ButtonEvent)
    (ev : ButtonEvent) :
    let s := run sequenceStep (e, []) events
    let result := s.1.isCode ev.remote ev.button ev.rep
    ∃ k c, AtPlace RcCode.Covers e.code s.2 k ∧ e.code[k]? = some c ∧
      s.1.nextCode = e.code.drop k ∧
      (result.1 = 2 ↔ ev.rep = 0 ∧ Ends RcCode.Covers e.code e.code.length (s.2 ++ [ev.press])) ∧
      (result.1 = 1 ↔ ev.rep = 0 ∧ c.Covers ev.press ∧ k + 1 < e.code.length) ∧
      (ev.rep ≠ 0 → result.1 = 0 ∧ result.2.nextCode = s.1.nextCode) := by
  intro s result
  have hwaits : Waits e.code s := run_invariant (sequenceStep_waits hlen hplain) events
    ⟨rfl, 0, hstart, atPlace_nil (List.length_pos_iff.mp (by omega))⟩
  obtain ⟨hcode, k, hnext, hplace⟩ := hwaits
  have hc := List.getElem?_eq_getElem hplace.lt
  refine ⟨k, _, hplace, hc, hnext, ?_⟩
  have hlt : k < e.code.length := hplace.lt
  have hresult : result = s.1.isCode ev.remote ev.button ev.rep := rfl
  rw [RcEntry.isCode_at (hcode ▸ hlen) (by rw [hcode]; exact hc) (hcode.symm ▸ hnext)] at hresult
  rw [hplace.completes_iff hc, hresult]
  by_cases hrep : ev.rep = 0
  · rw [if_neg (not_not_intro hrep)]
    by_cases hcovers : e.code[k].covers ev.remote ev.button = true
    · rw [if_pos hcovers, hcode]
      have hpress : e.code[k].Covers ev.press := hcovers
      by_cases hlast : k + 1 = e.code.length
      · simp [hrep, hlast, hpress]
      · have hmore : k + 1 < e.code.length := by omega
        simp [hrep, hlast, hpress, hmore]
    · rw [if_neg hcovers]
      have hpress : ¬e.code[k].Covers ev.press := hcovers
      simp [hrep, hpress]
  · rw [if_pos hrep]
    simp [hrep]

/-- Up, up, down on a remote. -/
def upUpDown : RcEntry where
  prog := some "p".toList
  code := ["up", "up", "down"].map fun button => ⟨some "rc".toList, some button.toList⟩

/-- Three times up. -/
def upThrice : List ButtonEvent :=
  ["UP", "up", "up"].map fun button => ⟨"rc".toList, button.toList, 0⟩

/-- Then down completes the entry. -/
theorem iscode_matches_sequence_overlap :
    ((run sequenceStep (upUpDown, []) upThrice).1.isCode "rc".toList "down".toList 0).1 = 2 := by
  have hplain : ∀ c ∈ upUpDown.code, c.Plain := by
    intro c hc
    obtain ⟨button, -, rfl⟩ := List.mem_map.mp hc
    exact ⟨rfl, rfl⟩
  obtain ⟨k, c, -, -, -, hcomplete, -⟩ := iscode_matches_sequence upUpDown (by decide) hplain rfl
    upThrice ⟨"rc".toList, "down".toList, 0⟩
  exact hcomplete.mpr ⟨rfl, [("rc".toList, "UP".toList)],
    ["up", "up", "down"].map fun button => ("rc".toList, button.toList), by decide,
    .cons (by rfl) (.cons (by rfl) (.cons (by rfl) .nil))⟩

end Lirc
