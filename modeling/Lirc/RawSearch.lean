import Mathlib.Data.List.DropRight
import Lirc.Undisturbed

/-!
The search through the codes of a raw remote. When all samples are there, what a code
is compared with depends on the place where the comparison starts only: behind the
synchronisation after a rewind, but behind the samples of the code before when these all
matched and no gap followed.
-/

namespace Lirc

open Signal

/-- The samples are all there: held by the buffer, or delivered one after the other. -/
structure RBuf.Available (b : RBuf) (ws : List ℕ) : Prop where
  words : b.data ++ b.input = ws
  ready : ∀ w ∈ ws, deliverable w = true
  room : ws.length ≤ rbufSize

/-- The next word is that with the number `i`, and nothing is pending. -/
structure RBuf.AtWord (b : RBuf) (ws : List ℕ) (i : ℕ) (s : ℤ) : Prop extends b.Available ws where
  rptr : b.rptr = i
  rptr_le : b.rptr ≤ b.data.length
  pendingp : b.pendingp = 0
  pendings : b.pendings = 0
  sum : b.sum = s

/-! ### What a code is compared with -/

section Spec

variable (hw : Hardware) (r : IrRemote)

/-- `expectpulse` and `expectspace` on one word. -/
def sampleMatches (high : Bool) (x : ℤ) (w : ℕ) : Bool :=
  (sampleOf w).high == high && (sampleOf w).len != 0 && expect hw r (sampleOf w).len x

/-- Pulses and spaces in turn. -/
def samplesMatch : Bool → List ℤ → List ℕ → Bool
  | _, [], _ => true
  | _, _ :: _, [] => false
  | high, x :: xs, w :: ws => sampleMatches hw r high x w && samplesMatch (!high) xs ws

/-- All samples of the code match. -/
def rawMatches (after : List ℕ) (c : IrNcode) : Bool :=
  samplesMatch hw r true (c.signals.getD []) after

/-- A space of at least the gap, or nothing more. -/
def gapFollows (gap : ℤ) : List ℕ → Bool
  | [] => true
  | w :: _ => isSpace w && expectAtLeast hw r w gap

/-- The sum of the received samples. -/
def sampleSum (ws : List ℕ) : ℤ := (ws.map sampleValue).sum

/-- The samples of the code are followed by a sufficient gap. -/
def rawGap (after : List ℕ) (c : IrNcode) : Bool :=
  let n := (c.signals.getD []).length
  gapFollows hw r (if isConst r then minGap r - sampleSum (after.take n) else minGap r)
    (after.drop n)

def rawFits (after : List ℕ) (c : IrNcode) : Bool := rawMatches hw r after c && rawGap hw r after c

end Spec

/-! ### Reading -/

section Read

variable {b c : RBuf} {ws : List ℕ} {i : ℕ} {s t : ℤ}

theorem deliverable_ne_zero {w : ℕ} (h : deliverable w = true) : w ≠ 0 :=
  bne_iff_ne.mp ((Bool.and_eq_true _ _).mp h).1

theorem readNew_ready (m : ℤ) {w : ℕ} (h : deliverable w = true) (rest : List ℕ) :
    readNew m (w :: rest) = (w, rest) := by
  obtain ⟨hne, ht⟩ := (Bool.and_eq_true _ _).mp h
  rw [Bool.not_eq_true'] at ht
  rw [readNew, if_neg (bne_iff_ne.mp hne), if_neg (ne_true_of_eq_false ht)]

theorem RBuf.Available.fetches (h : b.Available ws) (hc : b.Fetches c) : c.Available ws := by
  have hall : ∀ q, Relation.ReflTransGen Fetch (b.data, b.input) q → q.1 ++ q.2 = ws := by
    intro q hq
    induction hq with
    | refl => exact h.words
    | tail _ hstep ih =>
        cases hstep with
        | @timeout m data input rest hread =>
            cases input with
            | nil =>
                rw [readNew] at hread
                rw [← (Prod.mk.inj hread).2]
                exact ih
            | cons w input =>
                have hw : deliverable w = true := h.ready w (by rw [← ih]; simp)
                rw [readNew_ready m hw] at hread
                exact absurd (Prod.mk.inj hread).1 (deliverable_ne_zero hw)
        | @word m data input rest v hread hv =>
            cases input with
            | nil =>
                rw [readNew] at hread
                exact absurd (Prod.mk.inj hread).1.symm hv
            | cons w input =>
                have hw : deliverable w = true := h.ready w (by rw [← ih]; simp)
                rw [readNew_ready m hw] at hread
                obtain ⟨rfl, rfl⟩ := Prod.mk.inj hread
                rw [← ih]
                simp
  exact ⟨hall _ hc, h.ready, h.room⟩

theorem RBuf.Available.rewind (h : b.Available ws) : (rewindRecBuffer b).AtWord ws 0 0 :=
  ⟨⟨h.words, h.ready, h.room⟩, rfl, Nat.zero_le _, rfl, rfl, rfl⟩

/-- A word that is there is read. -/
theorem RBuf.AtWord.read (h : b.AtWord ws i s) (m : ℤ) {w : ℕ} (hw : ws[i]? = some w) :
    ∃ b', getNextRecBuffer b m = (w, b') ∧ b'.AtWord ws (i + 1) (s + sampleValue w) := by
  have hrptr := h.rptr
  have hwords := h.words
  by_cases hlt : b.rptr < b.data.length
  · have hget : b.data[b.rptr]? = some w := by
      rw [hrptr] at hlt ⊢
      rw [← hw, ← hwords, List.getElem?_append_left hlt]
    refine ⟨{ b with sum := b.sum + sampleValue w, rptr := b.rptr + 1 },
      by simp only [getNextRecBuffer, getNextRecBufferInternal, hget], ⟨hwords, h.ready, h.room⟩, ?_, hlt,
      h.pendingp, h.pendings, ?_⟩
    · simp [hrptr]
    · simp [h.sum]
  · have hle := h.rptr_le
    have hget : b.data[b.rptr]? = none := List.getElem?_eq_none (by omega)
    have hmem : w ∈ ws := List.mem_of_getElem? hw
    have hready := h.ready w hmem
    obtain ⟨rest, hinput⟩ : ∃ rest, b.input = w :: rest := by
      have hfirst : b.input[0]? = some w := by
        rw [← hw, ← hwords, List.getElem?_append_right (by omega)]
        congr 1
        omega
      cases hb : b.input with
      | nil => simp [hb] at hfirst
      | cons v rest =>
          rw [hb] at hfirst
          exact ⟨rest, by rw [Option.some.inj hfirst]⟩
    have hroom : b.data.length < rbufSize := by
      have hlen := congrArg List.length hwords
      rw [List.length_append, hinput, List.length_cons] at hlen
      have := h.room
      omega
    refine ⟨{ b with data := b.data ++ [w], input := rest, sum := b.sum + sampleValue w,
                     rptr := b.rptr + 1 }, ?_, ⟨?_, h.ready, h.room⟩, ?_, ?_, h.pendingp,
      h.pendings, ?_⟩
    · simp only [getNextRecBuffer, getNextRecBufferInternal, hget, if_pos hroom, hinput,
        readNew_ready _ hready]
      cases w with
      | zero => exact absurd rfl (deliverable_ne_zero hready)
      | succ w => rfl
    · simp [← hwords, hinput]
    · simp [hrptr]
    · simp only [List.length_append, List.length_singleton]
      omega
    · simp [h.sum]

/-- Behind the last word every read times out. -/
theorem RBuf.AtWord.read_end (h : b.AtWord ws i s) (m : ℤ) (hw : ws[i]? = none) :
    ∃ b', getNextRecBuffer b m = (0, b') ∧ b'.AtWord ws i s := by
  have hrptr := h.rptr
  have hle := h.rptr_le
  have hlen := congrArg List.length h.words
  have hend := List.getElem?_eq_none_iff.mp hw
  rw [List.length_append] at hlen
  have hget : b.data[b.rptr]? = none := List.getElem?_eq_none (by omega)
  have hinput : b.input = [] := List.eq_nil_of_length_eq_zero (by omega)
  by_cases hroom : b.data.length < rbufSize
  · refine ⟨{ b with input := [] }, ?_, ⟨by simp [← h.words, hinput], h.ready, h.room⟩, hrptr, hle,
      h.pendingp, h.pendings, h.sum⟩
    simp only [getNextRecBuffer, getNextRecBufferInternal, hget, if_pos hroom, hinput, readNew]
  · refine ⟨{ b with tooLong := true }, ?_, ⟨h.words, h.ready, h.room⟩, hrptr, hle, h.pendingp, h.pendings,
      h.sum⟩
    simp only [getNextRecBuffer, getNextRecBufferInternal, hget, if_neg hroom]

theorem RBuf.AtWord.nextPulse (h : b.AtWord ws i s) (m : ℤ) {w : ℕ} (hw : ws[i]? = some w)
    (hp : isPulse w = true) :
    ∃ b', getNextPulse b m = (sampleValue w, b') ∧ b'.AtWord ws (i + 1) (s + sampleValue w) := by
  obtain ⟨b', hread, h'⟩ := h.read m hw
  have hne := deliverable_ne_zero (h.ready w (List.mem_of_getElem? hw))
  exact ⟨b', by simp [getNextPulse, hread, hne, hp], h'⟩

theorem RBuf.AtWord.nextSpace (h : b.AtWord ws i s) (m : ℤ) {w : ℕ} (hw : ws[i]? = some w)
    (hp : isPulse w = false) :
    ∃ b', getNextSpace b m = ((w : ℤ), b') ∧ b'.AtWord ws (i + 1) (s + sampleValue w) := by
  obtain ⟨b', hread, h'⟩ := h.read m hw
  have hne := deliverable_ne_zero (h.ready w (List.mem_of_getElem? hw))
  exact ⟨b', by simp [getNextSpace, hread, hne, isSpace, hp], h'⟩

/-- Asking for the other kind, or behind the end. -/
theorem RBuf.AtWord.nextPulse_none (h : b.AtWord ws i s) (m : ℤ)
    (hw : ∀ w, ws[i]? = some w → isPulse w = false) : (getNextPulse b m).1 = 0 := by
  cases hget : ws[i]? with
  | none =>
      obtain ⟨b', hread, -⟩ := h.read_end m hget
      simp [getNextPulse, hread]
  | some w =>
      obtain ⟨b', hread, -⟩ := h.read m hget
      simp [getNextPulse, hread, hw w hget]

theorem RBuf.AtWord.nextSpace_none (h : b.AtWord ws i s) (m : ℤ)
    (hw : ∀ w, ws[i]? = some w → isPulse w = true) : (getNextSpace b m).1 = 0 := by
  cases hget : ws[i]? with
  | none =>
      obtain ⟨b', hread, -⟩ := h.read_end m hget
      simp [getNextSpace, hread]
  | some w =>
      obtain ⟨b', hread, -⟩ := h.read m hget
      simp [getNextSpace, hread, isSpace, hw w hget]

end Read

/-! ### Single samples -/

section Match

variable {hw : Hardware} {r : IrRemote} {b : RBuf} {ws : List ℕ} {i : ℕ} {s : ℤ}

theorem sampleMatches_pulse {w : ℕ} (hp : isPulse w = true) (x : ℤ) :
    sampleMatches hw r true x w = (sampleValue w != 0 && expect hw r (sampleValue w) x) := by
  simp [sampleMatches, sampleOf, hp]

theorem sampleMatches_space {w : ℕ} (hp : isPulse w = false) (x : ℤ) :
    sampleMatches hw r false x w = ((w : ℤ) != 0 && expect hw r w x) := by
  simp [sampleMatches, sampleOf, hp]

theorem sampleMatches_high {high : Bool} {x : ℤ} {w : ℕ} (h : sampleMatches hw r high x w = true) :
    isPulse w = high := by
  have hhigh : (sampleOf w).high = high :=
    beq_iff_eq.mp ((Bool.and_eq_true _ _).mp ((Bool.and_eq_true _ _).mp h).1).1
  rw [← hhigh, sampleOf]
  cases isPulse w with
  | true => rfl
  | false => rfl

variable (hw r) in
/-- `expectpulse` compares with the next word. -/
theorem RBuf.AtWord.expectPulse (h : b.AtWord ws i s) (x : ℤ) :
    (Lirc.expectPulse hw r b x).1 = (ws[i]?.any (sampleMatches hw r true x)) ∧
      ∀ w, ws[i]? = some w → sampleMatches hw r true x w = true →
        (Lirc.expectPulse hw r b x).2.AtWord ws (i + 1) (s + sampleValue w) := by
  have hsync : syncPendingSpace hw r b = (true, b) := by
    rw [syncPendingSpace, h.pendings, if_neg (by decide)]
  rw [Lirc.expectPulse, hsync]
  simp only [Bool.not_true, Bool.false_eq_true, if_false]
  by_cases hp : ∃ w, ws[i]? = some w ∧ isPulse w = true
  · obtain ⟨w, hget, hp⟩ := hp
    obtain ⟨b', hread, h'⟩ := h.nextPulse (b.pendingp + x) hget hp
    have hpend : ¬0 < b'.pendingp := by rw [h'.pendingp]; decide
    rw [hread, hget, Option.any_some, sampleMatches_pulse hp]
    simp only [if_neg hpend]
    by_cases hv : sampleValue w = 0
    · rw [if_pos hv]
      refine ⟨by simp [hv], ?_⟩
      intro w' hget' hmatch
      rw [← Option.some.inj hget', sampleMatches_pulse hp, hv] at hmatch
      cases hmatch
    · rw [if_neg hv]
      refine ⟨by simp [hv], ?_⟩
      intro w' hget' _
      rw [← Option.some.inj hget']
      exact h'
  · have hnone : ∀ w, ws[i]? = some w → isPulse w = false := by
      intro w hget
      by_contra hp'
      exact hp ⟨w, hget, eq_true_of_ne_false hp'⟩
    have hzero := h.nextPulse_none (b.pendingp + x) hnone
    have hfail : ∀ w, ws[i]? = some w → sampleMatches hw r true x w = false := by
      intro w hget
      by_contra hmatch
      have hhigh := sampleMatches_high (eq_true_of_ne_false hmatch)
      rw [hnone w hget] at hhigh
      cases hhigh
    rw [if_pos hzero]
    constructor
    · cases hget : ws[i]? with
      | none => rfl
      | some w => exact (hfail w hget).symm
    · intro w hget hmatch
      rw [hfail w hget] at hmatch
      cases hmatch

variable (hw r) in
/-- `expectspace` compares with the next word. -/
theorem RBuf.AtWord.expectSpace (h : b.AtWord ws i s) (x : ℤ) :
    (Lirc.expectSpace hw r b x).1 = (ws[i]?.any (sampleMatches hw r false x)) ∧
      ∀ w, ws[i]? = some w → sampleMatches hw r false x w = true →
        (Lirc.expectSpace hw r b x).2.AtWord ws (i + 1) (s + sampleValue w) := by
  have hsync : syncPendingPulse hw r b = (true, b) := by
    rw [syncPendingPulse, h.pendingp, if_neg (by decide)]
  rw [Lirc.expectSpace, hsync]
  simp only [Bool.not_true, Bool.false_eq_true, if_false]
  by_cases hp : ∃ w, ws[i]? = some w ∧ isPulse w = false
  · obtain ⟨w, hget, hp⟩ := hp
    obtain ⟨b', hread, h'⟩ := h.nextSpace (b.pendings + x) hget hp
    have hpend : ¬0 < b'.pendings := by rw [h'.pendings]; decide
    have hne : (w : ℤ) ≠ 0 :=
      Int.natCast_ne_zero.mpr (deliverable_ne_zero (h.ready w (List.mem_of_getElem? hget)))
    rw [hread, hget, Option.any_some, sampleMatches_space hp]
    simp only [if_neg hpend, if_neg hne]
    refine ⟨by rw [bne_iff_ne.mpr hne, Bool.true_and], ?_⟩
    intro w' hget' _
    rw [← Option.some.inj hget']
    exact h'
  · have hnone : ∀ w, ws[i]? = some w → isPulse w = true := by
      intro w hget
      by_contra hp'
      exact hp ⟨w, hget, eq_false_of_ne_true hp'⟩
    have hzero := h.nextSpace_none (b.pendings + x) hnone
    have hfail : ∀ w, ws[i]? = some w → sampleMatches hw r false x w = false := by
      intro w hget
      by_contra hmatch
      have hhigh := sampleMatches_high (eq_true_of_ne_false hmatch)
      rw [hnone w hget] at hhigh
      cases hhigh
    rw [if_pos hzero]
    constructor
    · cases hget : ws[i]? with
      | none => rfl
      | some w => exact (hfail w hget).symm
    · intro w hget hmatch
      rw [hfail w hget] at hmatch
      cases hmatch

theorem samplesMatch_cons (high : Bool) (x : ℤ) (xs : List ℤ) (ws : List ℕ) (i : ℕ) :
    samplesMatch hw r high (x :: xs) (ws.drop i) =
      (ws[i]?.any (sampleMatches hw r high x) && samplesMatch hw r (!high) xs (ws.drop (i + 1))) := by
  cases hget : ws[i]? with
  | none =>
      rw [List.drop_eq_nil_of_le (List.getElem?_eq_none_iff.mp hget)]
      rfl
  | some w =>
      obtain ⟨hi, rfl⟩ := List.getElem?_eq_some_iff.mp hget
      rw [List.drop_eq_getElem_cons hi]
      rfl

theorem sampleSum_drop {w : ℕ} (hget : ws[i]? = some w) (n : ℕ) :
    sampleSum ((ws.drop i).take (n + 1)) = sampleValue w + sampleSum ((ws.drop (i + 1)).take n) := by
  obtain ⟨hi, rfl⟩ := List.getElem?_eq_some_iff.mp hget
  rw [List.drop_eq_getElem_cons hi, List.take_succ_cons, sampleSum, List.map_cons, List.sum_cons]
  rfl

variable (hw r) in
/-- The comparison with a code: whether all samples match, and then the decoder stands
behind them. -/
theorem RBuf.AtWord.matchSignals {b : RBuf} {i : ℕ} {s : ℤ} (h : b.AtWord ws i s) (xs : List ℤ) :
    (Lirc.matchSignals hw r xs b).1 = samplesMatch hw r true xs (ws.drop i) ∧
      (samplesMatch hw r true xs (ws.drop i) = true →
        (Lirc.matchSignals hw r xs b).2.AtWord ws (i + xs.length)
          (s + sampleSum ((ws.drop i).take xs.length))) := by
  match xs with
  | [] =>
      refine ⟨rfl, fun _ => ?_⟩
      rw [List.length_nil, Nat.add_zero, List.take_zero, sampleSum, List.map_nil, List.sum_nil,
        Int.add_zero]
      exact h
  | [p] =>
      obtain ⟨hok, hpulse⟩ := h.expectPulse hw r p
      rw [samplesMatch_cons, samplesMatch, Bool.and_true, Lirc.matchSignals]
      refine ⟨hok, fun hmatch => ?_⟩
      cases hget : ws[i]? with
      | none =>
          rw [hget] at hmatch
          cases hmatch
      | some w =>
          rw [hget] at hmatch
          have hsum := sampleSum_drop hget 0
          rw [List.take_zero] at hsum
          rw [List.length_singleton, hsum]
          simpa [sampleSum] using hpulse w hget hmatch
  | p :: x :: rest =>
      obtain ⟨hok, hpulse⟩ := h.expectPulse hw r p
      rw [samplesMatch_cons, samplesMatch_cons, Lirc.matchSignals]
      generalize Lirc.expectPulse hw r b p = first at hok hpulse ⊢
      obtain ⟨ok, b₁⟩ := first
      simp only at hok hpulse ⊢
      cases hget : ws[i]? with
      | none =>
          rw [hget] at hok
          rw [hok]
          exact ⟨rfl, fun hmatch => by cases hmatch⟩
      | some w =>
          rw [hget, Option.any_some] at hok
          rw [Option.any_some, ← hok]
          cases ok with
          | false => exact ⟨rfl, fun hmatch => by cases hmatch⟩
          | true =>
              have h₁ := hpulse w hget hok.symm
              obtain ⟨hok', hspace⟩ := h₁.expectSpace hw r x
              simp only [Bool.not_true, Bool.false_eq_true, if_false, Bool.true_and, Bool.not_false]
              generalize Lirc.expectSpace hw r b₁ x = second at hok' hspace ⊢
              obtain ⟨ok', b₂⟩ := second
              simp only at hok' hspace ⊢
              cases hget' : ws[i + 1]? with
              | none =>
                  rw [hget'] at hok'
                  rw [hok']
                  exact ⟨rfl, fun hmatch => by cases hmatch⟩
              | some w' =>
                  rw [hget', Option.any_some] at hok'
                  rw [Option.any_some, ← hok']
                  cases ok' with
                  | false => exact ⟨rfl, fun hmatch => by cases hmatch⟩
                  | true =>
                      have h₂ := hspace w' hget' hok'.symm
                      obtain ⟨hrest, hdone⟩ := h₂.matchSignals rest
                      rw [Bool.true_and]
                      refine ⟨hrest, fun hmatch => ?_⟩
                      have hlast := hdone hmatch
                      rw [List.length_cons, List.length_cons, sampleSum_drop hget,
                        sampleSum_drop hget']
                      have hi : i + (rest.length + 1 + 1) = i + 1 + 1 + rest.length := by omega
                      rw [hi, ← Int.add_assoc, ← Int.add_assoc]
                      exact hlast

variable (hw r) in
/-- `get_gap` looks at the next word. -/
theorem RBuf.AtWord.getGap (h : b.AtWord ws i s) (gap : ℤ) :
    (Lirc.getGap hw r b gap).1 = gapFollows hw r gap (ws.drop i) ∧
      (∀ w, ws[i]? = some w → isPulse w = false →
        ∃ t, (Lirc.getGap hw r b gap).2.AtWord ws i t) := by
  rw [Lirc.getGap]
  cases hget : ws[i]? with
  | none =>
      obtain ⟨b', hread, -⟩ := h.read_end (gap - (gap * r.eps).tdiv 100) hget
      rw [hread, List.drop_eq_nil_of_le (List.getElem?_eq_none_iff.mp hget)]
      exact ⟨rfl, fun w hw' => by cases hw'⟩
  | some w =>
      obtain ⟨b', hread, h'⟩ := h.read (gap - (gap * r.eps).tdiv 100) hget
      have hne := deliverable_ne_zero (h.ready w (List.mem_of_getElem? hget))
      obtain ⟨hi, rfl⟩ := List.getElem?_eq_some_iff.mp hget
      rw [hread, List.drop_eq_getElem_cons hi, gapFollows]
      simp only [if_neg hne]
      cases hp : isSpace ws[i] with
      | false =>
          refine ⟨rfl, fun w hw' hpulse => ?_⟩
          rw [isSpace, Option.some.inj hw', hpulse] at hp
          cases hp
      | true =>
          refine ⟨rfl, fun w _ _ => ⟨_, ⟨h'.words, h'.ready, h'.room⟩, ?_, ?_, h'.pendingp,
            h'.pendings, rfl⟩⟩
          · simp [ungetRecBuffer, h'.rptr]
          · have hle := h'.rptr_le
            simp only [Bool.not_true, Bool.false_eq_true, if_false, ungetRecBuffer, if_true]
            omega

end Match

/-! ### Synchronisation -/

section Sync

variable {hw : Hardware} {r r' : IrRemote} {b c : RBuf} {ws : List ℕ} {i : ℕ} {s t : ℤ}

/-- Two buffers at one place give the same. -/
theorem nextPulse_same (h : b.AtWord ws i s) (hc : c.AtWord ws i t) (m : ℤ) :
    (getNextPulse c m).1 = (getNextPulse b m).1 ∧
      ((getNextPulse b m).1 ≠ 0 → ∃ s' t', (getNextPulse b m).2.AtWord ws (i + 1) s' ∧
        (getNextPulse c m).2.AtWord ws (i + 1) t') := by
  by_cases hp : ∃ w, ws[i]? = some w ∧ isPulse w = true
  · obtain ⟨w, hget, hp⟩ := hp
    obtain ⟨b', hread, h'⟩ := h.nextPulse m hget hp
    obtain ⟨c', hread', hc'⟩ := hc.nextPulse m hget hp
    rw [hread, hread']
    exact ⟨rfl, fun _ => ⟨_, _, h', hc'⟩⟩
  · have hnone : ∀ w, ws[i]? = some w → isPulse w = false := by
      intro w hget
      by_contra hp'
      exact hp ⟨w, hget, eq_true_of_ne_false hp'⟩
    have hzero := h.nextPulse_none m hnone
    rw [hc.nextPulse_none m hnone, hzero]
    exact ⟨rfl, fun hne => absurd rfl hne⟩

theorem nextSpace_same (h : b.AtWord ws i s) (hc : c.AtWord ws i t) (m : ℤ) :
    (getNextSpace c m).1 = (getNextSpace b m).1 ∧
      ((getNextSpace b m).1 ≠ 0 → ∃ s' t', (getNextSpace b m).2.AtWord ws (i + 1) s' ∧
        (getNextSpace c m).2.AtWord ws (i + 1) t') := by
  by_cases hp : ∃ w, ws[i]? = some w ∧ isPulse w = false
  · obtain ⟨w, hget, hp⟩ := hp
    obtain ⟨b', hread, h'⟩ := h.nextSpace m hget hp
    obtain ⟨c', hread', hc'⟩ := hc.nextSpace m hget hp
    rw [hread, hread']
    exact ⟨rfl, fun _ => ⟨_, _, h', hc'⟩⟩
  · have hnone : ∀ w, ws[i]? = some w → isPulse w = true := by
      intro w hget
      by_contra hp'
      exact hp ⟨w, hget, eq_false_of_ne_true hp'⟩
    have hzero := h.nextSpace_none m hnone
    rw [hc.nextSpace_none m hnone, hzero]
    exact ⟨rfl, fun hne => absurd rfl hne⟩

theorem syncLoop_sameConfig {l l' : IrRemote} (h : SameConfig l l') (n : ℕ) (d : ℤ) (b : RBuf) :
    syncLoop hw l' n d b = syncLoop hw l n d b := by
  obtain ⟨state, code, rfl⟩ := h
  induction n generalizing d b with
  | zero => rfl
  | succ n ih =>
      rw [syncLoop, syncLoop]
      simp only [ih]
      rfl

variable (hw) in
theorem syncLoop_same (l : IrRemote) (h : b.AtWord ws i s) (hc : c.AtWord ws i t) (n : ℕ) (d : ℤ) :
    (syncLoop hw l n d c).1 = (syncLoop hw l n d b).1 ∧
      ((syncLoop hw l n d b).1 ≠ 0 → ∃ j s' t', (syncLoop hw l n d b).2.AtWord ws j s' ∧
        (syncLoop hw l n d c).2.AtWord ws j t') := by
  induction n generalizing b c i s t d with
  | zero =>
      by_cases hleast : expectAtLeast hw l d l.minRemainingGap = true
      · rw [syncLoop, syncLoop, if_pos hleast, if_pos hleast]
        exact ⟨rfl, fun _ => ⟨i, s, t, h, hc⟩⟩
      · have hzero : ∀ b : RBuf, (syncLoop hw l 0 d b).1 = 0 := by
          intro b
          rw [syncLoop, if_neg hleast]
          dsimp only
          split
          · rfl
          · split
            · rfl
            · rfl
        exact ⟨(hzero c).trans (hzero b).symm, fun hne => absurd (hzero b) hne⟩
  | succ n ih =>
      rw [syncLoop, syncLoop]
      by_cases hleast : expectAtLeast hw l d l.minRemainingGap = true
      · rw [if_pos hleast, if_pos hleast]
        exact ⟨rfl, fun _ => ⟨i, s, t, h, hc⟩⟩
      · rw [if_neg hleast, if_neg hleast]
        obtain ⟨hpulse, hbehind⟩ := nextPulse_same h hc 1000000
        generalize getNextPulse b 1000000 = x at hpulse hbehind ⊢
        generalize getNextPulse c 1000000 = y at hpulse hbehind ⊢
        obtain ⟨v, b₁⟩ := x
        obtain ⟨v', c₁⟩ := y
        obtain rfl : v' = v := hpulse
        dsimp only at hbehind ⊢
        by_cases hv : v' = 0
        · rw [if_pos hv, if_pos hv]
          exact ⟨rfl, fun hne => absurd rfl hne⟩
        · obtain ⟨s₁, t₁, h₁, hc₁⟩ := hbehind hv
          obtain ⟨hspace, hbehind'⟩ := nextSpace_same h₁ hc₁ 1000000
          rw [if_neg hv, if_neg hv]
          generalize getNextSpace b₁ 1000000 = x at hspace hbehind' ⊢
          generalize getNextSpace c₁ 1000000 = y at hspace hbehind' ⊢
          obtain ⟨u, b₂⟩ := x
          obtain ⟨u', c₂⟩ := y
          obtain rfl : u' = u := hspace
          dsimp only at hbehind' ⊢
          by_cases hu : u' = 0
          · rw [if_pos hu, if_pos hu]
            exact ⟨rfl, fun hne => absurd rfl hne⟩
          · obtain ⟨s₂, t₂, h₂, hc₂⟩ := hbehind' hu
            rw [if_neg hu, if_neg hu]
            exact ih h₂ hc₂ u'

/-- The synchronisation stops at the same place whenever it starts from the front. -/
theorem syncRecBuffer_same (hr : SameConfig r r') (last : LastRemote) (h : b.AtWord ws 0 s)
    (hc : c.AtWord ws 0 t) (hne : (syncRecBuffer hw r last b).1 ≠ 0) :
    ∃ j, (syncRecBuffer hw r last b).2.2.AtWord ws j 0 ∧
      (syncRecBuffer hw r' last c).2.2.AtWord ws j 0 := by
  have hreset : ∀ {b : RBuf} {j : ℕ} {s : ℤ}, b.AtWord ws j s →
      ({ b with sum := 0 } : RBuf).AtWord ws j 0 := fun h =>
    ⟨⟨h.words, h.ready, h.room⟩, h.rptr, h.rptr_le, h.pendingp, h.pendings, rfl⟩
  rw [syncRecBuffer] at hne ⊢
  rw [syncRecBuffer]
  obtain ⟨hspace, hbehind⟩ := nextSpace_same h hc 1000000
  generalize getNextSpace b 1000000 = x at hspace hbehind hne ⊢
  generalize getNextSpace c 1000000 = y at hspace hbehind ⊢
  obtain ⟨v, b₁⟩ := x
  obtain ⟨v', c₁⟩ := y
  obtain rfl : v' = v := hspace
  dsimp only at hbehind hne ⊢
  by_cases hv : v' = 0
  · rw [if_pos hv] at hne
    exact absurd rfl hne
  obtain ⟨s₁, t₁, h₁, hc₁⟩ := hbehind hv
  rw [if_neg hv] at hne
  rw [if_neg hv, if_neg hv]
  have hrcmm : isRcmm r' = isRcmm r := by
    obtain ⟨_, _, rfl⟩ := hr
    rfl
  have hlast : (last.get r = none ∧ last.get r' = none) ∨
      ∃ l l', last.get r = some l ∧ last.get r' = some l' ∧ SameConfig l l' := by
    cases last with
    | null => exact .inl ⟨rfl, rfl⟩
    | same => exact .inr ⟨r, r', rfl, rfl, hr⟩
    | other l => exact .inr ⟨l, l, rfl, rfl, .refl l⟩
  obtain ⟨hl, hl'⟩ | ⟨l, l', hl, hl', hsame⟩ := hlast
  · rw [hl, hl']
    exact ⟨1, hreset h₁, hreset hc₁⟩
  · rw [hl] at hne ⊢
    rw [hl', hrcmm]
    dsimp only at hne ⊢
    by_cases hm : isRcmm r = true
    · rw [if_pos hm, if_pos hm]
      exact ⟨1, hreset h₁, hreset hc₁⟩
    · rw [if_neg hm] at hne
      rw [if_neg hm, if_neg hm, syncLoop_sameConfig hsame]
      obtain ⟨hloop, hafter⟩ := syncLoop_same hw l h₁ hc₁ recSync v'
      generalize syncLoop hw l recSync v' b₁ = x at hloop hafter hne ⊢
      generalize syncLoop hw l recSync v' c₁ = y at hloop hafter ⊢
      obtain ⟨u, b₂⟩ := x
      obtain ⟨u', c₂⟩ := y
      obtain rfl : u' = u := hloop
      dsimp only at hafter hne ⊢
      by_cases hu : u' = 0
      · rw [if_pos hu] at hne
        exact absurd rfl hne
      · obtain ⟨j, s₂, t₂, h₂, hc₂⟩ := hafter hu
        rw [if_neg hu, if_neg hu]
        exact ⟨j, hreset h₂, hreset hc₂⟩

end Sync

/-! ### The search -/

section Search

variable {hw : Hardware} {r r' : IrRemote} {b : RBuf} {ws : List ℕ} {j : ℕ}

/-- The codes that are tried: behind a code whose samples all match, but without the
gap, the next one is passed over. -/
def rawSearch (hw : Hardware) (r : IrRemote) (after : List ℕ) : List IrNcode → Option IrNcode
  | [] => none
  | [c] => if rawFits hw r after c then some c else none
  | c :: d :: codes =>
      if rawFits hw r after c then some c
      else if rawMatches hw r after c then rawSearch hw r after codes
      else rawSearch hw r after (d :: codes)

theorem samplesMatch_sameConfig (hr : SameConfig r r') (high : Bool) (xs : List ℤ) (ws : List ℕ) :
    samplesMatch hw r' high xs ws = samplesMatch hw r high xs ws := by
  obtain ⟨_, _, rfl⟩ := hr
  induction xs generalizing high ws with
  | nil => rfl
  | cons x xs ih =>
      cases ws with
      | nil => rfl
      | cons w ws =>
          rw [samplesMatch, samplesMatch, ih]
          rfl

/-- After every rewind the decoder stands at the word `j`. -/
def Resyncs (hw : Hardware) (r : IrRemote) (last : LastRemote) (ws : List ℕ) (j : ℕ) : Prop :=
  ∀ r' (c : RBuf), SameConfig r r' → c.Available ws →
    (syncRecBuffer hw r' last (rewindRecBuffer c)).2.2.AtWord ws j 0

theorem samplesMatch_pulse_last {high : Bool} {xs : List ℤ} {ws : List ℕ}
    (h : samplesMatch hw r high xs ws = true) {n : ℕ} (hn : xs.length = n + 1) :
    ∃ w, ws[n]? = some w ∧ isPulse w = (if n % 2 = 0 then high else !high) := by
  induction n generalizing high xs ws with
  | zero =>
      obtain ⟨x, rfl⟩ := List.length_eq_one_iff.mp hn
      cases ws with
      | nil => cases h
      | cons w ws =>
          obtain ⟨hfirst, -⟩ := (Bool.and_eq_true _ _).mp h
          exact ⟨w, rfl, sampleMatches_high hfirst⟩
  | succ n ih =>
      cases xs with
      | nil => cases hn
      | cons x xs =>
          cases ws with
          | nil => cases h
          | cons w ws =>
              obtain ⟨-, hrest⟩ := (Bool.and_eq_true _ _).mp h
              obtain ⟨v, hv, hp⟩ := ih hrest (Nat.succ.inj hn)
              refine ⟨v, hv, ?_⟩
              rw [hp]
              by_cases heven : n % 2 = 0
              · rw [if_pos heven, if_neg (by omega)]
              · rw [if_neg heven, if_pos (by omega), Bool.not_not]

section Codes

variable {last : LastRemote} {c : IrNcode} {codes : List IrNcode} {i : ℕ} {s : ℤ}

variable (codes) in
/-- A code that does not match: the decoder is rewound. -/
theorem decodeRaw_miss (hre : Resyncs hw r last ws j) (hr : SameConfig r r') (hb : b.Available ws)
    (hmiss : (matchSignals hw r' (c.signals.getD []) b).1 = false) :
    ∃ r'' b', decodeRaw hw last (c :: codes) r' b = decodeRaw hw last codes r'' b' ∧
      SameConfig r r'' ∧ b'.AtWord ws j 0 := by
  have hfetches := matchSignals_fetches hw r' (c.signals.getD []) b
  rw [decodeRaw]
  generalize matchSignals hw r' (c.signals.getD []) b = x at hmiss hfetches ⊢
  obtain ⟨ok, b₁⟩ := x
  obtain rfl : ok = false := hmiss
  have hsame := syncRecBuffer_sameConfig hw r' last (rewindRecBuffer b₁)
  have hstart := hre r' b₁ hr (hb.fetches hfetches)
  exact ⟨(syncRecBuffer hw r' last (rewindRecBuffer b₁)).2.1,
    (syncRecBuffer hw r' last (rewindRecBuffer b₁)).2.2, rfl, hr.trans hsame, hstart⟩

variable (codes) in
/-- A code whose samples all match: the gap decides. -/
theorem decodeRaw_match (hr : SameConfig r r') (hb : b.AtWord ws j 0)
    (hmatch : rawMatches hw r (ws.drop j) c = true) :
    (rawGap hw r (ws.drop j) c = true →
      (decodeRaw hw last (c :: codes) r' b).1 = some c.code) ∧
    (rawGap hw r (ws.drop j) c = false →
      ∃ b', decodeRaw hw last (c :: codes) r' b = decodeRaw hw last codes r' b' ∧
        ∀ w, ws[j + (c.signals.getD []).length]? = some w → isPulse w = false →
          ∃ t, b'.AtWord ws (j + (c.signals.getD []).length) t) := by
  obtain ⟨hok, hbehind⟩ := hb.matchSignals hw r' (c.signals.getD [])
  rw [samplesMatch_sameConfig hr] at hok hbehind
  have hbehind := hbehind hmatch
  have hok := hok.trans hmatch
  rw [decodeRaw]
  generalize matchSignals hw r' (c.signals.getD []) b = x at hok hbehind ⊢
  obtain ⟨ok, b₁⟩ := x
  obtain rfl : ok = true := hok
  dsimp only at hbehind ⊢
  rw [if_neg (by decide)]
  have hconfig : isConst r' = isConst r ∧ minGap r' = minGap r ∧
      ∀ gap ws, gapFollows hw r' gap ws = gapFollows hw r gap ws := by
    obtain ⟨_, _, rfl⟩ := hr
    refine ⟨rfl, rfl, fun gap ws => ?_⟩
    cases ws with
    | nil => rfl
    | cons w ws => rfl
  rw [hconfig.1, hconfig.2.1, hbehind.sum, Int.zero_add]
  obtain ⟨hgap, hstays⟩ := hbehind.getGap hw r'
    (if isConst r = true then
      minGap r - sampleSum ((ws.drop j).take (c.signals.getD []).length) else minGap r)
  rw [hconfig.2.2, ← List.drop_drop] at hgap
  have hgap : _ = rawGap hw r (ws.drop j) c := hgap
  rw [← hgap]
  generalize getGap hw r' b₁ _ = y at hgap hstays ⊢
  obtain ⟨ok, b₂⟩ := y
  cases ok with
  | true => exact ⟨fun _ => rfl, fun h => (by cases h)⟩
  | false => exact ⟨fun h => (by cases h), fun _ => ⟨b₂, rfl, hstays⟩⟩

variable (codes) in
/-- A code behind one that had no gap is compared with a space at first. -/
theorem decodeRaw_passed (hre : Resyncs hw r last ws j) (hr : SameConfig r r')
    (hb : b.AtWord ws i s) {w : ℕ} (hget : ws[i]? = some w) (hspace : isPulse w = false)
    (hodd : (c.signals.getD []).length % 2 = 1) :
    ∃ r'' b', decodeRaw hw last (c :: codes) r' b = decodeRaw hw last codes r'' b' ∧
      SameConfig r r'' ∧ b'.AtWord ws j 0 := by
  refine decodeRaw_miss codes hre hr hb.toAvailable ?_
  rw [(hb.matchSignals hw r' (c.signals.getD [])).1]
  cases hsig : c.signals.getD [] with
  | nil =>
      rw [hsig] at hodd
      cases hodd
  | cons x xs =>
      rw [samplesMatch_cons, hget, Option.any_some]
      have hnot : sampleMatches hw r' true x w = false := by
        by_contra hmatch
        have hhigh := sampleMatches_high (eq_true_of_ne_false hmatch)
        rw [hspace] at hhigh
        cases hhigh
      rw [hnot, Bool.false_and]

/-- Behind the samples of a code of odd length comes a space. -/
theorem rawMatches_behind (halt : Alternating ws) (hodd : (c.signals.getD []).length % 2 = 1)
    (hmatch : rawMatches hw r (ws.drop j) c = true) {w : ℕ}
    (hget : ws[j + (c.signals.getD []).length]? = some w) : isPulse w = false := by
  obtain ⟨n, hn⟩ : ∃ n, (c.signals.getD []).length = n + 1 :=
    ⟨_, (Nat.sub_add_cancel (by omega)).symm⟩
  obtain ⟨v, hv, hp⟩ := samplesMatch_pulse_last hmatch hn
  rw [List.getElem?_drop] at hv
  rw [hn, ← Nat.add_assoc] at hget
  have hne := halt.next hv hget
  rw [hp, if_pos (by omega)] at hne
  exact eq_false_of_ne_true fun hpulse => hne hpulse.symm

/-- Without the gap there is a word behind the samples. -/
theorem rawGap_word {after : List ℕ} (h : rawGap hw r after c = false) :
    ∃ w, after[(c.signals.getD []).length]? = some w := by
  cases hget : after[(c.signals.getD []).length]? with
  | some w => exact ⟨w, rfl⟩
  | none =>
      rw [rawGap, List.drop_eq_nil_of_le (List.getElem?_eq_none_iff.mp hget)] at h
      cases h

theorem decodeRaw_search (hre : Resyncs hw r last ws j) (halt : Alternating ws)
    (hodd : ∀ c ∈ codes, (c.signals.getD []).length % 2 = 1) (hr : SameConfig r r')
    (hb : b.AtWord ws j 0) :
    (decodeRaw hw last codes r' b).1 =
      (rawSearch hw r (ws.drop j) codes).map IrNcode.code := by
  induction codes using rawSearch.induct (hw) (r) (ws.drop j) generalizing r' b with
  | case1 => rfl
  | case2 c hfits =>
      obtain ⟨hmatch, hgap⟩ := (Bool.and_eq_true _ _).mp hfits
      rw [rawSearch, if_pos hfits]
      exact (decodeRaw_match _ hr hb hmatch).1 hgap
  | case3 c hfits =>
      rw [rawSearch, if_neg hfits]
      have hend : ∃ r'' b', decodeRaw hw last [c] r' b = decodeRaw hw last [] r'' b' := by
        cases hmatch : rawMatches hw r (ws.drop j) c with
        | true =>
            have hgap : rawGap hw r (ws.drop j) c = false := by
              rw [rawFits, hmatch, Bool.true_and] at hfits
              exact eq_false_of_ne_true hfits
            obtain ⟨b', heq, -⟩ := (decodeRaw_match [] hr hb hmatch).2 hgap
            exact ⟨r', b', heq⟩
        | false =>
            have hok := (hb.matchSignals hw r' (c.signals.getD [])).1
            rw [samplesMatch_sameConfig hr] at hok
            obtain ⟨r'', b', heq, -⟩ :=
              decodeRaw_miss [] hre hr hb.toAvailable (hok.trans hmatch)
            exact ⟨r'', b', heq⟩
      obtain ⟨r'', b', heq⟩ := hend
      rw [heq]
      rfl
  | case4 c d codes hfits =>
      obtain ⟨hmatch, hgap⟩ := (Bool.and_eq_true _ _).mp hfits
      rw [rawSearch, if_pos hfits]
      exact (decodeRaw_match _ hr hb hmatch).1 hgap
  | case5 c d codes hfits hmatch ih =>
      rw [rawSearch, if_neg hfits, if_pos hmatch]
      have hgap : rawGap hw r (ws.drop j) c = false := by
        rw [rawFits, hmatch, Bool.true_and] at hfits
        exact eq_false_of_ne_true hfits
      obtain ⟨b', heq, hstays⟩ := (decodeRaw_match (d :: codes) hr hb hmatch).2 hgap
      obtain ⟨w, hget⟩ := rawGap_word hgap
      rw [List.getElem?_drop] at hget
      have hspace := rawMatches_behind halt (hodd c List.mem_cons_self) hmatch hget
      obtain ⟨t, hb'⟩ := hstays w hget hspace
      obtain ⟨r'', b'', hpassed, hr'', hb''⟩ := decodeRaw_passed codes hre hr hb' hget
        hspace (hodd d (List.mem_cons_of_mem _ List.mem_cons_self))
      rw [heq, hpassed]
      exact ih (fun c hc => hodd c (List.mem_cons_of_mem _ (List.mem_cons_of_mem _ hc))) hr'' hb''
  | case6 c d codes hfits hmatch ih =>
      rw [rawSearch, if_neg hfits, if_neg hmatch]
      have hok := (hb.matchSignals hw r' (c.signals.getD [])).1
      rw [samplesMatch_sameConfig hr] at hok
      obtain ⟨r'', b', heq, hr', hb'⟩ := decodeRaw_miss (d :: codes) hre hr hb.toAvailable
        (hok.trans (eq_false_of_ne_true hmatch))
      rw [heq]
      exact ih (fun c hc => hodd c (List.mem_cons_of_mem _ hc)) hr' hb'

end Codes

variable (hw r) in
/-- The codes directly in front of the first one that fits whose samples all match are
even in number. -/
def FirstReached (after : List ℕ) (codes : List IrNcode) : Prop :=
  ∀ before c behind, codes = before ++ c :: behind →
    (∀ d ∈ before, rawFits hw r after d = false) → rawFits hw r after c = true →
    (before.rtakeWhile (rawMatches hw r after)).length % 2 = 0

theorem rawSearch_fits {after : List ℕ} {codes : List IrNcode} {c : IrNcode}
    (h : rawSearch hw r after codes = some c) : c ∈ codes ∧ rawFits hw r after c = true := by
  induction codes using rawSearch.induct (hw) (r) after with
  | case1 => cases h
  | case2 d hfits =>
      rw [rawSearch, if_pos hfits] at h
      obtain rfl := Option.some.inj h
      exact ⟨List.mem_cons_self, hfits⟩
  | case3 d hfits =>
      rw [rawSearch, if_neg hfits] at h
      cases h
  | case4 d e codes hfits =>
      rw [rawSearch, if_pos hfits] at h
      obtain rfl := Option.some.inj h
      exact ⟨List.mem_cons_self, hfits⟩
  | case5 d e codes hfits hmatch ih =>
      rw [rawSearch, if_neg hfits, if_pos hmatch] at h
      obtain ⟨hmem, hc⟩ := ih h
      exact ⟨List.mem_cons_of_mem _ (List.mem_cons_of_mem _ hmem), hc⟩
  | case6 d e codes hfits hmatch ih =>
      rw [rawSearch, if_neg hfits, if_neg hmatch] at h
      obtain ⟨hmem, hc⟩ := ih h
      exact ⟨List.mem_cons_of_mem _ hmem, hc⟩

/-- One more code in front lengthens the run only if everything matches. -/
theorem rtakeWhile_cons_length {α : Type*} (p : α → Bool) (d : α) (xs : List α) :
    ((d :: xs).rtakeWhile p).length =
      if xs.all p && p d then xs.length + 1 else (xs.rtakeWhile p).length := by
  rw [List.rtakeWhile, List.rtakeWhile, List.length_reverse, List.length_reverse, List.reverse_cons,
    List.takeWhile_append]
  by_cases hall : (xs.reverse.takeWhile p).length = xs.reverse.length
  · have hsub := (List.takeWhile_prefix p (l := xs.reverse)).eq_of_length hall
    have hxs : xs.all p = true := by
      rw [List.takeWhile_eq_self_iff] at hsub
      rw [List.all_eq_true]
      intro x hx
      exact hsub x (List.mem_reverse.mpr hx)
    rw [if_pos hall, hxs, Bool.true_and, List.length_append, List.length_reverse]
    cases hd : p d with
    | true => simp [hd]
    | false => simp [hd, hall]
  · have hxs : xs.all p = false := by
      by_contra htrue
      have htrue := List.all_eq_true.mp (eq_true_of_ne_false htrue)
      refine hall (congrArg List.length (List.takeWhile_eq_self_iff.mpr fun x hx => ?_))
      exact htrue x (List.mem_reverse.mp hx)
    rw [if_neg hall, hxs, Bool.false_and, if_neg Bool.false_ne_true]

theorem rtakeWhile_cons_cons {α : Type*} {p : α → Bool} {d : α} (hd : p d = true) (e : α)
    (xs : List α) :
    ((d :: e :: xs).rtakeWhile p).length % 2 = (xs.rtakeWhile p).length % 2 := by
  rw [rtakeWhile_cons_length, rtakeWhile_cons_length, List.all_cons, hd, Bool.and_true]
  cases he : p e with
  | false => simp
  | true =>
      cases hxs : xs.all p with
      | false => simp
      | true =>
          have hself : xs.rtakeWhile p = xs :=
            List.rtakeWhile_eq_self_iff.mpr (List.all_eq_true.mp hxs)
          rw [hself]
          simp only [Bool.and_self, if_true, List.length_cons]
          omega

/-- The first code that fits is found behind a run that is even. -/
theorem rawSearch_append {after : List ℕ} {c : IrNcode} (behind : List IrNcode)
    (hc : rawFits hw r after c = true) : ∀ before : List IrNcode,
    (∀ d ∈ before, rawFits hw r after d = false) →
      if (before.rtakeWhile (rawMatches hw r after)).length % 2 = 0 then
        rawSearch hw r after (before ++ c :: behind) = some c
      else ∀ d, rawSearch hw r after (before ++ c :: behind) = some d → d ∈ behind
  | [], _ => by
      rw [if_pos (by rfl), List.nil_append]
      cases behind with
      | nil => rw [rawSearch, if_pos hc]
      | cons e behind => rw [rawSearch, if_pos hc]
  | [d], hbefore => by
      have hd : ¬rawFits hw r after d = true := by
        rw [hbefore d List.mem_cons_self]
        exact Bool.false_ne_true
      rw [rtakeWhile_cons_length, List.singleton_append, rawSearch, if_neg hd]
      cases hmatch : rawMatches hw r after d with
      | true =>
          rw [if_neg (by simp), if_pos rfl]
          exact fun e he => (rawSearch_fits he).1
      | false =>
          rw [if_pos (by simp), if_neg Bool.false_ne_true]
          have hfirst := rawSearch_append behind hc [] (by simp)
          rwa [if_pos (by rfl)] at hfirst
  | d :: e :: before, hbefore => by
      have hd : ¬rawFits hw r after d = true := by
        rw [hbefore d List.mem_cons_self]
        exact Bool.false_ne_true
      rw [List.cons_append, List.cons_append, rawSearch, if_neg hd]
      cases hmatch : rawMatches hw r after d with
      | true =>
          rw [rtakeWhile_cons_cons hmatch, if_pos rfl]
          exact rawSearch_append behind hc before fun x hx =>
            hbefore x (List.mem_cons_of_mem _ (List.mem_cons_of_mem _ hx))
      | false =>
          rw [rtakeWhile_cons_length, hmatch, Bool.and_false, if_neg Bool.false_ne_true,
            if_neg Bool.false_ne_true, ← List.cons_append]
          exact rawSearch_append behind hc (e :: before) fun x hx =>
            hbefore x (List.mem_cons_of_mem _ hx)

/-- The search finds the first code that fits, exactly if it comes to it. -/
theorem rawSearch_first_iff {after : List ℕ} {codes : List IrNcode}
    (hnodup : (codes.map IrNcode.code).Nodup) :
    (rawSearch hw r after codes).map IrNcode.code =
        (codes.find? (rawFits hw r after)).map IrNcode.code ↔
      FirstReached hw r after codes := by
  constructor
  · rintro heq before c behind rfl hbefore hc
    have hfind : (before ++ c :: behind).find? (rawFits hw r after) = some c :=
      List.find?_eq_some_iff_append.mpr
        ⟨hc, before, behind, rfl, fun d hd => by rw [hbefore d hd]; rfl⟩
    have happend := rawSearch_append behind hc before hbefore
    by_contra hodd
    rw [if_neg hodd] at happend
    rw [hfind, Option.map_some] at heq
    obtain ⟨d, hd, hcode⟩ := Option.map_eq_some_iff.mp heq
    rw [List.map_append, List.map_cons] at hnodup
    have hnot := (List.nodup_cons.mp hnodup.of_append_right).1
    rw [← hcode] at hnot
    exact hnot (List.mem_map_of_mem (happend d hd))
  · intro hreached
    cases hfind : codes.find? (rawFits hw r after) with
    | none =>
        cases hs : rawSearch hw r after codes with
        | none => rfl
        | some d =>
            obtain ⟨hd, hfits⟩ := rawSearch_fits hs
            exact absurd hfits (List.find?_eq_none.mp hfind d hd)
    | some c =>
        obtain ⟨hc, before, behind, rfl, hbefore⟩ := List.find?_eq_some_iff_append.mp hfind
        have hbefore : ∀ d ∈ before, rawFits hw r after d = false := fun d hd => by
          simpa using hbefore d hd
        have happend := rawSearch_append behind hc before hbefore
        rw [if_pos (hreached before c behind rfl hbefore hc)] at happend
        rw [happend]

end Search

/-! ### `receive_decode` -/

section Decode

variable (hw : Hardware) (r : IrRemote) (last : LastRemote)

/-- The synchronisation at the start. -/
def rawStart (b : RBuf) : ℤ × IrRemote × RBuf :=
  syncRecBuffer hw r last { rewindRecBuffer b with isBiphase := isBiphase r }

/-- The samples after the sync space. -/
def afterSync (b : RBuf) (ws : List ℕ) : List ℕ := ws.drop (rawStart hw r last b).2.2.rptr

/-- The repeat code of the remote has been received. -/
def repeatReceived (b : RBuf) : Bool :=
  hasRepeat r && last == .same &&
    (getRepeat hw (rawStart hw r last b).2.1 (rawStart hw r last b).2.2).1

/-- The first code in the order of the list whose samples all match those after the
sync space and are followed by a sufficient gap. -/
def firstRaw (b : RBuf) (ws : List ℕ) : Option IrCode :=
  if (rawStart hw r last b).1 = 0 then none
  else (r.codes.find? (rawFits hw r (afterSync hw r last b ws))).map IrNcode.code

/-- There is no sync space; or the repeat code was received, and stands for the right
code; or the search comes to the first code that fits. -/
def ComesToFirst (b : RBuf) (ws : List ℕ) : Prop :=
  (rawStart hw r last b).1 ≠ 0 →
    if repeatReceived hw r last b then
      r.lastCode.map (fun i => (r.codes.getD i default).code) = firstRaw hw r last b ws
    else FirstReached hw r (afterSync hw r last b ws) r.codes

variable {hw r last} {r' : IrRemote} {b : RBuf} {ws : List ℕ} {j : ℕ}

theorem pulseSpaceMode_not_lirccode (h : pulseSpaceMode hw = true) : hw.recMode ≠ modeLirccode := by
  intro hmode
  rw [pulseSpaceMode, hmode] at h
  exact absurd h (by decide)

theorem decodeSignal_search (hmode : pulseSpaceMode hw = true) (hraw : isRaw r = true)
    (hre : Resyncs hw r last ws j) (halt : Alternating ws)
    (hodd : ∀ c ∈ r.codes, (c.signals.getD []).length % 2 = 1) (hr : SameConfig r r')
    (hb : b.AtWord ws j 0) (now : ℕ) (sync : ℤ) (header : Bool) :
    (decodeSignal hw r' last now sync header b).1.map Decoded.code =
      (rawSearch hw r (ws.drop j) r.codes).map IrNcode.code := by
  have hsearch := decodeRaw_search hre halt hodd hr hb
  have hraw' : isRaw r' = true := by
    obtain ⟨_, _, rfl⟩ := hr
    exact hraw
  have hcodes : r'.codes = r.codes := by
    obtain ⟨_, _, rfl⟩ := hr
    rfl
  rw [decodeSignal, if_pos hraw', if_neg (pulseSpaceMode_not_lirccode hmode), hcodes, ← hsearch]
  generalize decodeRaw hw last r.codes r' b = x
  obtain ⟨found, r'', b'⟩ := x
  cases found with
  | none => rfl
  | some code => rfl

/-- From the synchronisation on. -/
theorem receiveDecode_start (hmode : pulseSpaceMode hw = true) (now : ℕ) (b : RBuf) :
    receiveDecode hw r last now b =
      if (rawStart hw r last b).1 = 0 then
        (none, (rawStart hw r last b).2.1, (rawStart hw r last b).2.2)
      else
        match
          if hasRepeat (rawStart hw r last b).2.1 && last == .same then
            decodeRepeat hw (rawStart hw r last b).2.1 last (rawStart hw r last b).2.2
          else .inr ((rawStart hw r last b).2.1, (rawStart hw r last b).2.2) with
        | .inl out => out
        | .inr (r', b') =>
            match decodeHeader hw r' (rawStart hw r last b).1 b' with
            | (none, b') => (none, r', b')
            | (some header, b') =>
                decodeSignal hw r' last now (rawStart hw r last b).1 header b' :=
  if_pos hmode

/-- A raw code is decoded as the first one that fits exactly if the search comes to it. -/
theorem receiveDecode_raw_iff (now : ℕ) (hmode : pulseSpaceMode hw = true) (hraw : isRaw r = true)
    (hhead : hasHeader r = false) (hodd : ∀ c ∈ r.codes, (c.signals.getD []).length % 2 = 1)
    (hnodup : (r.codes.map IrNcode.code).Nodup) (hb : b.Available ws) (halt : Alternating ws) :
    (receiveDecode hw r last now b).1.map Decoded.code = firstRaw hw r last b ws ↔
      ComesToFirst hw r last b ws := by
  have hstart : ({ rewindRecBuffer b with isBiphase := isBiphase r } : RBuf).AtWord ws 0 0 :=
    ⟨⟨hb.words, hb.ready, hb.room⟩, rfl, Nat.zero_le _, rfl, rfl, rfl⟩
  have hconfig : SameConfig r (rawStart hw r last b).2.1 := syncRecBuffer_sameConfig hw r last _
  have hplace : (rawStart hw r last b).1 ≠ 0 →
      (rawStart hw r last b).2.2.AtWord ws (rawStart hw r last b).2.2.rptr 0 ∧
        Resyncs hw r last ws (rawStart hw r last b).2.2.rptr := by
    intro hne
    have hsame : ∀ r' (c : RBuf), SameConfig r r' → c.Available ws →
        (rawStart hw r last b).2.2.AtWord ws (rawStart hw r last b).2.2.rptr 0 ∧
          (syncRecBuffer hw r' last (rewindRecBuffer c)).2.2.AtWord ws
            (rawStart hw r last b).2.2.rptr 0 := by
      intro r' c hr' hc
      obtain ⟨j, hj, hj'⟩ := syncRecBuffer_same hr' last hstart hc.rewind hne
      have hrptr : (rawStart hw r last b).2.2.rptr = j := hj.rptr
      rw [hrptr]
      exact ⟨hj, hj'⟩
    exact ⟨(hsame r b (.refl r) hb).1, fun r' c hr' hc => (hsame r' c hr' hc).2⟩
  rw [receiveDecode_start hmode, ComesToFirst, firstRaw, repeatReceived, afterSync]
  generalize rawStart hw r last b = x at hconfig hplace ⊢
  obtain ⟨sync, r₁, b₁⟩ := x
  dsimp only at hconfig hplace ⊢
  by_cases hsync : sync = 0
  · rw [if_pos hsync, if_pos hsync]
    exact iff_of_true rfl fun hne => absurd hsync hne
  obtain ⟨hb₁, hre⟩ := hplace hsync
  rw [if_neg hsync, if_neg hsync, ← rawSearch_first_iff hnodup]
  have hrepeat : hasRepeat r₁ = hasRepeat r ∧ hasHeader r₁ = false := by
    obtain ⟨_, _, rfl⟩ := hconfig
    exact ⟨rfl, hhead⟩
  rw [hrepeat.1]
  -- a full signal is searched for from the sync space on
  have hfull : ∀ r' b', SameConfig r r' → b'.AtWord ws b₁.rptr 0 →
      (match decodeHeader hw r' sync b' with
        | (none, b') => (none, r', b')
        | (some header, b') => decodeSignal hw r' last now sync header b').1.map Decoded.code =
        (rawSearch hw r (ws.drop b₁.rptr) r.codes).map IrNcode.code := by
    intro r' b' hr' hb'
    have hheader : hasHeader r' = false := by
      obtain ⟨_, _, rfl⟩ := hr'
      exact hhead
    rw [decodeHeader, if_neg (ne_true_of_eq_false hheader)]
    exact decodeSignal_search hmode hraw hre halt hodd hr' hb' now sync false
  cases hattempt : hasRepeat r && last == .same with
  | false =>
      rw [if_neg Bool.false_ne_true, Bool.false_and, if_neg Bool.false_ne_true]
      rw [hfull r₁ b₁ hconfig hb₁]
      exact ⟨fun h _ => h, fun h => h hsync⟩
  | true =>
      rw [if_pos rfl, Bool.true_and, decodeRepeat, hrepeat.2, Bool.and_false,
        if_neg Bool.false_ne_true]
      have hfetches := getRepeat_fetches hw r₁ b₁
      dsimp only
      rw [if_neg (by decide)]
      generalize getRepeat hw r₁ b₁ = y at hfetches ⊢
      obtain ⟨ok, b₂⟩ := y
      cases ok with
      | true =>
          have hlast : r₁.lastCode = r.lastCode ∧ r₁.codes = r.codes := by
            obtain ⟨_, _, rfl⟩ := hconfig
            exact ⟨rfl, rfl⟩
          dsimp only
          rw [if_pos rfl, if_pos rfl, hlast.1, hlast.2]
          cases r.lastCode with
          | none => exact ⟨fun h _ => h, fun h => h hsync⟩
          | some i => exact ⟨fun h _ => h, fun h => h hsync⟩
      | false =>
          have hb₂ := hre r₁ b₂ hconfig (hb₁.toAvailable.fetches hfetches)
          have hconfig₂ := syncRecBuffer_sameConfig hw r₁ last (rewindRecBuffer b₂)
          dsimp only
          rw [if_neg Bool.false_ne_true, if_neg Bool.false_ne_true]
          generalize syncRecBuffer hw r₁ last (rewindRecBuffer b₂) = z at hb₂ hconfig₂ ⊢
          obtain ⟨sync', r₂, b₃⟩ := z
          dsimp only at hb₂ hconfig₂ ⊢
          rw [hfull r₂ b₃ (hconfig.trans hconfig₂) hb₂]
          exact ⟨fun h _ => h, fun h => h hsync⟩

end Decode

/-- A code, and one that it is the beginning of. -/
def shortCode : IrNcode := { name := ['s'], code := 0, signals := some [500, 500, 500] }

def longCode : IrNcode := { name := ['l'], code := 1, signals := some [500, 500, 500, 500, 500] }

def prefixRemote (codes : List IrNcode) : IrRemote :=
  { name := ['p'], flags := rawCodes, gap := 40000, eps := 30, aeps := 100, codes }

/-- The samples of the longer code between two long spaces. -/
def longWords : List ℕ :=
  [60000, pulseBit + 500, 500, pulseBit + 500, 500, pulseBit + 500, 60000]

/-- The longer code stands in front of its beginning. -/
theorem receiveDecode_raw_longest :
    (receiveDecode mode2Hardware (prefixRemote [longCode, shortCode]) .null 0
        { input := longWords }).1.map Decoded.code =
      firstRaw mode2Hardware (prefixRemote [longCode, shortCode]) .null { input := longWords }
        longWords ↔
      ComesToFirst mode2Hardware (prefixRemote [longCode, shortCode]) .null { input := longWords }
        longWords :=
  receiveDecode_raw_iff 0 (by decide) (by decide) (by decide) (by decide) (by decide)
    ⟨rfl, by decide, by decide⟩ (by decide)

/-- The beginning stands in front: it takes the place of the longer code, which is not
compared with the samples any more. -/
theorem receiveDecode_raw_fails :
    ¬ ∀ (hw : Hardware) (r : IrRemote) (last : LastRemote) (now : ℕ) (b : RBuf) (ws : List ℕ),
      pulseSpaceMode hw = true → isRaw r = true → hasHeader r = false →
      (∀ c ∈ r.codes, (c.signals.getD []).length % 2 = 1) → (r.codes.map IrNcode.code).Nodup →
      b.Available ws → Alternating ws →
      (receiveDecode hw r last now b).1.map Decoded.code = firstRaw hw r last b ws := by
  intro h
  have hfirst := h mode2Hardware (prefixRemote [shortCode, longCode]) .null 0
    { input := longWords } longWords (by decide) (by decide) (by decide) (by decide) (by decide)
    ⟨rfl, by decide, by decide⟩ (by decide)
  revert hfirst
  decide +kernel

end Lirc
