import Lirc.Tape
import Lirc.BitDecode
import Mathlib.Data.List.Forall2

/-!
What has been consumed. Each sample behind the read position has been
compared with one part of the expected signal, or with two parts of one
level, the first of which was taken off before.
-/

namespace Lirc

open Signal

/-- A sample within the tolerance of a run of one or two parts. -/
def Fits (hw : Hardware) (r : IrRemote) : List Part → Part → Prop
  | [p], x => x.high = p.high ∧ expect hw r x.len p.len = true
  | [p, p'], x =>
      p'.high = p.high ∧ x.high = p.high ∧ p.len ≤ x.len ∧
        expect hw r (x.len - p.len) p'.len = true
  | _, _ => False

instance Fits.decidable (hw : Hardware) (r : IrRemote) :
    (run : List Part) → (x : Part) → Decidable (Fits hw r run x)
  | [], _ => .isFalse id
  | [_], _ => inferInstanceAs (Decidable (_ ∧ _))
  | [_, _], _ => inferInstanceAs (Decidable (_ ∧ _ ∧ _ ∧ _))
  | _ :: _ :: _ :: _, _ => .isFalse id

/-- A run of parts that a sample of one level can stand for, whatever its length. -/
def OfLevel (run : List Part) (x : Part) : Prop := run ≠ [] ∧ ∀ p ∈ run, p.high = x.high

theorem Fits.ofLevel {hw : Hardware} {r : IrRemote} {run : List Part} {x : Part}
    (h : Fits hw r run x) : OfLevel run x := by
  rcases run with _ | ⟨p, _ | ⟨p', _ | ⟨_, _⟩⟩⟩
  · exact h.elim
  · exact ⟨by simp, by simpa using h.1.symm⟩
  · exact ⟨by simp, by simpa using ⟨h.2.1.symm, h.1.trans h.2.1.symm⟩⟩
  · exact h.elim

/-- The words of the tape from `k` up to `i`. -/
def stretch (R : List ℕ) (k i : ℕ) : List ℕ := (R.drop k).take (i - k)

/-- The samples of the tape from `k` up to `i` stand for the parts, one after
the other, as long as they alternate; they are within the tolerance of them
exactly when `fit` holds. -/
structure Tracks (hw : Hardware) (r : IrRemote) (R : List ℕ) (k i : ℕ) (ps : List Part)
    (fit : Prop) : Prop where
  le : k ≤ i
  runs : Alternating (stretch R k i) → ∃ runs, runs.flatten = ps ∧
    List.Forall₂ OfLevel runs ((stretch R k i).map sampleOf) ∧
    (List.Forall₂ (Fits hw r) runs ((stretch R k i).map sampleOf) ↔ fit)

section

variable {hw : Hardware} {r : IrRemote} {R : List ℕ} {k i : ℕ} {ps : List Part} {fit : Prop}

theorem stretch_self (R : List ℕ) (k : ℕ) : stretch R k k = [] := by simp [stretch]

theorem stretch_succ (hle : k ≤ i) {w : ℕ} (hw' : R[i]? = some w) :
    stretch R k (i + 1) = stretch R k i ++ [w] := by
  have hsub : i + 1 - k = i - k + 1 := by omega
  have hget : (R.drop k)[i - k]? = some w := by
    rw [List.getElem?_drop, ← hw']
    congr 1
    omega
  rw [stretch, hsub, List.take_add_one, hget]
  rfl

/-- Two words of one level in a row. -/
theorem stretch_not_alternating {n : ℕ} {v w : ℕ} (hk : k ≤ n) (hn : n + 1 < i)
    (hv : R[n]? = some v) (hw' : R[n + 1]? = some w) (hsame : isPulse v = isPulse w) :
    ¬Alternating (stretch R k i) := by
  intro halt
  have hget : ∀ m x, k ≤ m → m < i → R[m]? = some x → (stretch R k i)[m - k]? = some x := by
    intro m x hkm hmi hx
    rw [stretch, List.getElem?_take_of_lt (by omega), List.getElem?_drop, ← hx]
    congr 1
    omega
  have hnext := hget (n + 1) w (by omega) hn hw'
  have hidx : n + 1 - k = n - k + 1 := by omega
  rw [hidx] at hnext
  exact halt.next (hget n v hk (by omega) hv) hnext hsame

theorem Tracks.nil (hw : Hardware) (r : IrRemote) (R : List ℕ) (k : ℕ) :
    Tracks hw r R k k [] True :=
  ⟨Nat.le_refl k, fun _ => ⟨[], rfl, by simp [stretch_self], by simp [stretch_self]⟩⟩

theorem Tracks.congr (h : Tracks hw r R k i ps fit) {fit' : Prop} (hiff : fit ↔ fit') :
    Tracks hw r R k i ps fit' :=
  propext hiff ▸ h

/-- Where the samples do not alternate, nothing is said about them. -/
theorem Tracks.spoiled (hle : k ≤ i) (halt : ¬Alternating (stretch R k i)) (ps : List Part)
    (fit : Prop) : Tracks hw r R k i ps fit :=
  ⟨hle, fun h => absurd h halt⟩

/-- One more sample stands for one more run. -/
theorem Tracks.extend_iff (h : Tracks hw r R k i ps fit) {w : ℕ} (hw' : R[i]? = some w)
    (run : List Part) (hlevel : OfLevel run (sampleOf w)) :
    Tracks hw r R k (i + 1) (ps ++ run) (fit ∧ Fits hw r run (sampleOf w)) := by
  refine ⟨Nat.le_succ_of_le h.le, fun halt => ?_⟩
  rw [stretch_succ h.le hw'] at halt ⊢
  -- the samples before alternate as well, so they have runs already
  obtain ⟨runs, hflat, hlevels, hfits⟩ := h.runs (halt.left_of_append)
  have hlen := hlevels.length_eq
  refine ⟨runs ++ [run], by simp [hflat], ?_, ?_⟩
  · rw [List.map_append]
    exact List.rel_append hlevels (List.Forall₂.cons hlevel List.Forall₂.nil)
  · rw [List.map_append, ← hfits]
    constructor
    · intro hall
      have htake := List.forall₂_take runs.length hall
      have hdrop := List.forall₂_drop runs.length hall
      rw [List.take_left, hlen, List.take_left] at htake
      rw [List.drop_left, hlen, List.drop_left] at hdrop
      refine ⟨htake, ?_⟩
      simpa using hdrop
    · rintro ⟨hall, hfit⟩
      exact List.rel_append hall (List.Forall₂.cons hfit List.Forall₂.nil)

/-- One more sample accounts for one more run. -/
theorem Tracks.extend (h : Tracks hw r R k i ps fit) {w : ℕ} (hw' : R[i]? = some w)
    {run : List Part} (hfit : Fits hw r run (sampleOf w)) :
    Tracks hw r R k (i + 1) (ps ++ run) fit :=
  (h.extend_iff hw' run hfit.ofLevel).congr (and_iff_left hfit)

/-- The decoder has accounted for `ps`, has `q` pending, and has read a pulse
last if `last` holds. -/
structure RBuf.Reached (hw : Hardware) (r : IrRemote) (R : List ℕ) (k : ℕ) (b : RBuf) (i : ℕ)
    (ps : List Part) (q : Option Part) (last : Bool) (fit : Prop) : Prop where
  sees : b.Sees R i q
  tracks : Tracks hw r R k i ps fit
  start : 0 < k
  lastWord : ∃ w, R[i - 1]? = some w ∧ isPulse w = last
  opposite : ∀ p ∈ q, p.high ≠ last

theorem fits_pulse {w : ℕ} (hp : isPulse w = true) {x : ℤ}
    (hx : expect hw r (sampleValue w) x = true) : Fits hw r [pulse x] (sampleOf w) := by
  rw [sampleOf, if_pos hp]
  exact ⟨rfl, hx⟩

theorem fits_space {w : ℕ} (hp : isPulse w = false) {x : ℤ}
    (hx : expect hw r (w : ℤ) x = true) : Fits hw r [space x] (sampleOf w) := by
  rw [sampleOf, if_neg (by simp [hp])]
  exact ⟨rfl, hx⟩

namespace RBuf.Reached

variable {b b' : RBuf} {q : Option Part} {last : Bool}

/-- One more run has been read. -/
theorem extend (h : b.Reached hw r R k i ps q last fit) {w : ℕ} (hw' : R[i]? = some w)
    {run : List Part} (hfit : Fits hw r run (sampleOf w)) {q' : Option Part}
    (hsees : b'.Sees R (i + 1) q') (hopp : ∀ p ∈ q', p.high ≠ isPulse w) :
    b'.Reached hw r R k (i + 1) (ps ++ run) q' (isPulse w) fit :=
  ⟨hsees, h.tracks.extend hw' hfit, h.start, ⟨w, hw', rfl⟩, hopp⟩

/-- The same samples are accounted for by another buffer at the position. -/
theorem congr (h : b.Reached hw r R k i ps q last fit) (hsees : b'.Sees R i q) :
    b'.Reached hw r R k i ps q last fit :=
  ⟨hsees, h.tracks, h.start, h.lastWord, h.opposite⟩

theorem congr_fit (h : b.Reached hw r R k i ps q last fit) {fit' : Prop} (hiff : fit ↔ fit') :
    b.Reached hw r R k i ps q last fit' :=
  ⟨h.sees, h.tracks.congr hiff, h.start, h.lastWord, h.opposite⟩

/-- Nothing is said any more once two words of one level have been read in a row. -/
theorem spoil (h : b.Reached hw r R k i ps q last fit) {n v w : ℕ} (hk : k ≤ n) (hn : n + 1 < i)
    (hv : R[n]? = some v) (hw' : R[n + 1]? = some w) (hsame : isPulse v = isPulse w)
    (fit' : Prop) : b.Reached hw r R k i ps q last fit' :=
  ⟨h.sees, .spoiled h.tracks.le (stretch_not_alternating hk hn hv hw' hsame) ps fit', h.start,
    h.lastWord, h.opposite⟩

/-- The word at the position before has the level that was read last. -/
theorem last_eq (h : b.Reached hw r R k i ps q last fit) {w : ℕ} (hw' : R[i - 1]? = some w) :
    isPulse w = last := by
  obtain ⟨v, hv, hlast⟩ := h.lastWord
  rw [hv] at hw'
  obtain rfl : v = w := by simpa using hw'
  exact hlast

/-- Announcing a part of the other level. -/
theorem announce (h : b.Reached hw r R k i ps q last fit) {p : Part} (hp : 0 < p.len)
    (hopp : p.high ≠ last) {pp ss : ℤ} (hpp : pp = pendPulse (some p))
    (hss : ss = pendSpace (some p)) :
    ({ b with pendingp := pp, pendings := ss } : RBuf).Reached hw r R k i ps (some p) last fit :=
  ⟨h.sees.announce hpp hss (by simpa using hp), h.tracks, h.start, h.lastWord, by simpa using hopp⟩

/-- A pending space that has been read. -/
theorem syncSpace {s : ℤ} (h : b.Reached hw r R k i ps (some (space s)) last fit)
    (heq : syncPendingSpace hw r b = (true, b')) :
    b'.Reached hw r R k (i + 1) (ps ++ [space s]) none false fit := by
  rcases h.sees.syncSpace heq with ⟨-, h₁, w, hw', hp, hx⟩ | ⟨hfalse, -⟩
  · rw [← hp]
    exact h.extend hw' (fits_space hp hx) h₁ (by simp)
  · simp at hfalse

/-- A pending pulse that has been read. -/
theorem syncPulse {p : ℤ} (h : b.Reached hw r R k i ps (some (pulse p)) last fit)
    (heq : syncPendingPulse hw r b = (true, b')) :
    b'.Reached hw r R k (i + 1) (ps ++ [pulse p]) none true fit := by
  rcases h.sees.syncPulse heq with ⟨-, h₁, w, hw', hp, hx⟩ | ⟨hfalse, -⟩
  · rw [← hp]
    exact h.extend hw' (fits_pulse hp hx) h₁ (by simp)
  · simp at hfalse

/-- A pulse that has been found: what was pending is in the same sample, or in
one of its own that has been read before. -/
theorem expectPulse {ex : ℤ} (h : b.Reached hw r R k i ps q last fit)
    (heq : Lirc.expectPulse hw r b ex = (true, b')) :
    ((∀ x ∈ q, x.high = true) ∧
      b'.Reached hw r R k (i + 1) (ps ++ q.toList ++ [pulse ex]) none true fit) ∨
    ∃ (x : Part) (b₁ : RBuf), q = some x ∧ x.high = false ∧
      b₁.Reached hw r R k (i + 1) (ps ++ [x]) none x.high fit ∧
      b'.Reached hw r R k (i + 1 + 1) (ps ++ [x] ++ [pulse ex]) none true fit := by
  match q with
  | none =>
      rcases h.sees.expectPulse_cases rfl heq with ⟨-, h₁, w, hw', hp, hx⟩ | ⟨hfalse, -⟩
      · rw [pendPulse_none, if_neg (by simp)] at hx
        refine .inl ⟨by simp, ?_⟩
        rw [← hp, Option.toList_none, List.append_nil]
        exact h.extend hw' (fits_pulse hp hx) h₁ (by simp)
      · simp at hfalse
  | some ⟨true, x⟩ =>
      have hpos : (0 : ℤ) < x := h.sees.positive _ rfl
      rcases h.sees.expectPulse_cases rfl heq with ⟨-, h₁, w, hw', hp, hx⟩ | ⟨hfalse, -⟩
      · rw [pendPulse_pulse, if_pos hpos] at hx
        have hfit : Fits hw r [pulse x, pulse ex] (sampleOf w) := by
          rw [sampleOf, if_pos hp]
          exact ⟨rfl, rfl, hx.1, hx.2⟩
        have h' := h.extend hw' hfit h₁ (by simp)
        rw [hp] at h'
        exact .inl ⟨by simp, by simpa using h'⟩
      · simp at hfalse
  | some ⟨false, x⟩ =>
      rw [h.sees.expectPulse_sync] at heq
      cases hsync : syncPendingSpace hw r b with
      | mk ok b₁ =>
          cases ok with
          | false => simp [hsync] at heq
          | true =>
              simp only [hsync] at heq
              have h₁ := h.syncSpace hsync
              rcases h₁.sees.expectPulse_cases rfl heq with
                ⟨-, h₂, w, hw', hp, hx⟩ | ⟨hfalse, -⟩
              · rw [pendPulse_none, if_neg (by simp)] at hx
                refine .inr ⟨_, b₁, rfl, rfl, h₁, ?_⟩
                rw [← hp]
                exact h₁.extend hw' (fits_pulse hp hx) h₂ (by simp)
              · simp at hfalse

/-- A space that has been found: what was pending is in the same sample, or in
one of its own that has been read before. -/
theorem expectSpace {ex : ℤ} (h : b.Reached hw r R k i ps q last fit)
    (heq : Lirc.expectSpace hw r b ex = (true, b')) :
    ((∀ x ∈ q, x.high = false) ∧
      b'.Reached hw r R k (i + 1) (ps ++ q.toList ++ [space ex]) none false fit) ∨
    ∃ (x : Part) (b₁ : RBuf), q = some x ∧ x.high = true ∧
      b₁.Reached hw r R k (i + 1) (ps ++ [x]) none x.high fit ∧
      b'.Reached hw r R k (i + 1 + 1) (ps ++ [x] ++ [space ex]) none false fit := by
  match q with
  | none =>
      rcases h.sees.expectSpace_cases rfl heq with ⟨-, h₁, w, hw', hp, hx⟩ | ⟨hfalse, -⟩
      · rw [pendSpace_none, if_neg (by simp)] at hx
        refine .inl ⟨by simp, ?_⟩
        rw [← hp, Option.toList_none, List.append_nil]
        exact h.extend hw' (fits_space hp hx) h₁ (by simp)
      · simp at hfalse
  | some ⟨false, x⟩ =>
      have hpos : (0 : ℤ) < x := h.sees.positive _ rfl
      rcases h.sees.expectSpace_cases rfl heq with ⟨-, h₁, w, hw', hp, hx⟩ | ⟨hfalse, -⟩
      · rw [pendSpace_space, if_pos hpos] at hx
        have hfit : Fits hw r [space x, space ex] (sampleOf w) := by
          rw [sampleOf, if_neg (by simp [hp])]
          exact ⟨rfl, rfl, hx.1, hx.2⟩
        have h' := h.extend hw' hfit h₁ (by simp)
        rw [hp] at h'
        exact .inl ⟨by simp, by simpa using h'⟩
      · simp at hfalse
  | some ⟨true, x⟩ =>
      rw [h.sees.expectSpace_sync] at heq
      cases hsync : syncPendingPulse hw r b with
      | mk ok b₁ =>
          cases ok with
          | false => simp [hsync] at heq
          | true =>
              simp only [hsync] at heq
              have h₁ := h.syncPulse hsync
              rcases h₁.sees.expectSpace_cases rfl heq with
                ⟨-, h₂, w, hw', hp, hx⟩ | ⟨hfalse, -⟩
              · rw [pendSpace_none, if_neg (by simp)] at hx
                refine .inr ⟨_, b₁, rfl, rfl, h₁, ?_⟩
                rw [← hp]
                exact h₁.extend hw' (fits_space hp hx) h₂ (by simp)
              · simp at hfalse

/-- A pulse that has not been found: the read has timed out or moved over one
sample, and a pending space may have been read before. -/
theorem expectPulse_failed {ex : ℤ} (h : b.Reached hw r R k i ps q last fit)
    (heq : Lirc.expectPulse hw r b ex = (false, b')) :
    (b'.Sees R i q ∨ b'.Sees R (i + 1) q) ∨
    ∃ (x : Part) (b₁ : RBuf), q = some x ∧ x.high = false ∧
      b₁.Reached hw r R k (i + 1) (ps ++ [x]) none x.high fit ∧
      (b'.Sees R (i + 1) none ∨ b'.Sees R (i + 1 + 1) none) := by
  match q with
  | none =>
      rcases h.sees.expectPulse_cases rfl heq with ⟨hfalse, -⟩ | ⟨-, h'⟩
      · simp at hfalse
      · exact .inl h'
  | some ⟨true, x⟩ =>
      rcases h.sees.expectPulse_cases rfl heq with ⟨hfalse, -⟩ | ⟨-, h'⟩
      · simp at hfalse
      · exact .inl h'
  | some ⟨false, x⟩ =>
      rw [h.sees.expectPulse_sync] at heq
      cases hsync : syncPendingSpace hw r b with
      | mk ok b₁ =>
          cases ok with
          | false =>
              simp only [hsync, Prod.mk.injEq, true_and] at heq
              subst heq
              rcases h.sees.syncSpace hsync with ⟨hfalse, -⟩ | ⟨-, h'⟩
              · simp at hfalse
              · exact .inl h'
          | true =>
              simp only [hsync] at heq
              have h₁ := h.syncSpace hsync
              rcases h₁.sees.expectPulse_cases rfl heq with ⟨hfalse, -⟩ | ⟨-, h'⟩
              · simp at hfalse
              · exact .inr ⟨_, b₁, rfl, rfl, h₁, h'⟩

/-- A space that has not been found: the read has timed out or moved over one
sample, and a pending pulse may have been read before. -/
theorem expectSpace_failed {ex : ℤ} (h : b.Reached hw r R k i ps q last fit)
    (heq : Lirc.expectSpace hw r b ex = (false, b')) :
    (b'.Sees R i q ∨ b'.Sees R (i + 1) q) ∨
    ∃ (x : Part) (b₁ : RBuf), q = some x ∧ x.high = true ∧
      b₁.Reached hw r R k (i + 1) (ps ++ [x]) none x.high fit ∧
      (b'.Sees R (i + 1) none ∨ b'.Sees R (i + 1 + 1) none) := by
  match q with
  | none =>
      rcases h.sees.expectSpace_cases rfl heq with ⟨hfalse, -⟩ | ⟨-, h'⟩
      · simp at hfalse
      · exact .inl h'
  | some ⟨false, x⟩ =>
      rcases h.sees.expectSpace_cases rfl heq with ⟨hfalse, -⟩ | ⟨-, h'⟩
      · simp at hfalse
      · exact .inl h'
  | some ⟨true, x⟩ =>
      rw [h.sees.expectSpace_sync] at heq
      cases hsync : syncPendingPulse hw r b with
      | mk ok b₁ =>
          cases ok with
          | false =>
              simp only [hsync, Prod.mk.injEq, true_and] at heq
              subst heq
              rcases h.sees.syncPulse hsync with ⟨hfalse, -⟩ | ⟨-, h'⟩
              · simp at hfalse
              · exact .inl h'
          | true =>
              simp only [hsync] at heq
              have h₁ := h.syncPulse hsync
              rcases h₁.sees.expectSpace_cases rfl heq with ⟨hfalse, -⟩ | ⟨-, h'⟩
              · simp at hfalse
              · exact .inr ⟨_, b₁, rfl, rfl, h₁, h'⟩

end RBuf.Reached

/-! ### Parts of either level -/

/-- `expectpulse` or `expectspace`. -/
def expectPart (hw : Hardware) (r : IrRemote) (b : RBuf) (p : Part) : Bool × RBuf :=
  if p.high then expectPulse hw r b p.len else expectSpace hw r b p.len

namespace RBuf.Reached

variable {b b' : RBuf} {q : Option Part} {last : Bool} {p : Part}

theorem expectPart (h : b.Reached hw r R k i ps q last fit)
    (heq : Lirc.expectPart hw r b p = (true, b')) :
    ((∀ x ∈ q, x.high = p.high) ∧
      b'.Reached hw r R k (i + 1) (ps ++ q.toList ++ [p]) none p.high fit) ∨
    ∃ (x : Part) (b₁ : RBuf), q = some x ∧ x.high = !p.high ∧
      b₁.Reached hw r R k (i + 1) (ps ++ [x]) none x.high fit ∧
      b'.Reached hw r R k (i + 1 + 1) (ps ++ [x] ++ [p]) none p.high fit := by
  obtain ⟨level, len⟩ := p
  cases level with
  | true => exact h.expectPulse heq
  | false => exact h.expectSpace heq

theorem expectPart_failed (h : b.Reached hw r R k i ps q last fit)
    (heq : Lirc.expectPart hw r b p = (false, b')) :
    (b'.Sees R i q ∨ b'.Sees R (i + 1) q) ∨
    ∃ (x : Part) (b₁ : RBuf), q = some x ∧ x.high = !p.high ∧
      b₁.Reached hw r R k (i + 1) (ps ++ [x]) none x.high fit ∧
      (b'.Sees R (i + 1) none ∨ b'.Sees R (i + 1 + 1) none) := by
  obtain ⟨level, len⟩ := p
  cases level with
  | true => exact h.expectPulse_failed heq
  | false => exact h.expectSpace_failed heq

end RBuf.Reached

/-- The level of the word a part starts with, given what is pending. -/
theorem RBuf.Sees.expectPart_first {b b' : RBuf} {q : Option Part} {p : Part}
    (h : b.Sees R i q) (heq : Lirc.expectPart hw r b p = (true, b')) :
    ∃ w, R[i]? = some w ∧ isPulse w = q.elim p.high Part.high := by
  obtain ⟨level, len⟩ := p
  cases level with
  | true => exact h.expectPulse_first heq
  | false => exact h.expectSpace_first heq

end

/-! ### Samples and the signal they stand for -/

/-- The samples are, one after the other, the run-length form of the parts:
each is within the tolerance of a run of one level. A space at the end of the
parts is not sent. -/
inductive Accounts (hw : Hardware) (r : IrRemote) : List Part → List Part → Prop
  | nil : Accounts hw r [] []
  | unsent (s : ℤ) : Accounts hw r [space s] []
  | run {run rest : List Part} {x : Part} {xs : List Part} (fits : Fits hw r run x)
      (off : StartsOff x.high rest) (sent : x.high = true ∨ rest ≠ [])
      (others : Accounts hw r rest xs) : Accounts hw r (run ++ rest) (x :: xs)

section

variable {hw : Hardware} {r : IrRemote}

theorem Fits.cases {run : List Part} {x : Part} (h : Fits hw r run x) :
    (∃ p, run = [p] ∧ x.high = p.high) ∨
    ∃ p p', run = [p, p'] ∧ p'.high = p.high ∧ x.high = p.high := by
  match run with
  | [p] => exact .inl ⟨p, rfl, h.1⟩
  | [p, p'] => exact .inr ⟨p, p', rfl, h.1, h.2.1⟩

theorem waveFrom_closed {p : Part} {rest : List Part} (hoff : StartsOff p.high rest)
    (hsent : p.high = true ∨ rest ≠ []) : waveFrom p rest = p :: wave rest := by
  obtain ⟨level, len⟩ := p
  cases level with
  | true => exact waveFrom_pulse hoff
  | false =>
      cases rest with
      | nil => simp at hsent
      | cons p ps => exact waveFrom_space (by simpa using hoff)

/-- The samples have the levels of the run-length form. -/
theorem Accounts.levels {ps xs : List Part} (h : Accounts hw r ps xs) :
    xs.map Part.high = (wave ps).map Part.high := by
  induction h with
  | nil => rfl
  | unsent s => rfl
  | run hfits hoff hsent _ ih =>
      rcases hfits.cases with ⟨p, rfl, hx⟩ | ⟨⟨level, a⟩, ⟨level', c⟩, rfl, hp, hx⟩
      · rw [hx] at hoff hsent
        rw [List.singleton_append, wave_cons, waveFrom_closed hoff hsent]
        simp [hx, ih]
      · simp only at hp hx
        subst hp
        rw [hx] at hoff hsent
        simp only [List.cons_append, List.nil_append, wave_cons, waveFrom_same]
        rw [waveFrom_closed hoff hsent]
        simp [hx, ih]

/-- The first sample belongs to a first run. -/
theorem Accounts.uncons {ps xs : List Part} {x : Part} (h : Accounts hw r ps (x :: xs)) :
    ∃ run rest, ps = run ++ rest ∧ Fits hw r run x ∧ StartsOff x.high rest ∧
      Accounts hw r rest xs := by
  cases h with
  | run hfits hoff _ hothers => exact ⟨_, _, rfl, hfits, hoff, hothers⟩

/-- A part followed by one of the other level is a run. -/
theorem Accounts.tail {p p' x : Part} {ps xs : List Part}
    (h : Accounts hw r (p :: p' :: ps) (x :: xs)) (hne : p'.high ≠ p.high) :
    Accounts hw r (p' :: ps) xs := by
  obtain ⟨run, rest, hps, hfits, -, hothers⟩ := h.uncons
  rcases hfits.cases with ⟨c, rfl, -⟩ | ⟨c, c', rfl, hlevel, -⟩
  · simp only [List.singleton_append, List.cons.injEq] at hps
    rw [hps.2]
    exact hothers
  · simp only [List.cons_append, List.nil_append, List.cons.injEq] at hps
    rw [← hps.1, ← hps.2.1] at hlevel
    exact absurd hlevel hne

/-- Two parts of one level are a run. -/
theorem Accounts.merged {p p' x : Part} {ps xs : List Part}
    (h : Accounts hw r (p :: p' :: ps) (x :: xs)) (heq : p'.high = p.high) :
    Fits hw r [p, p'] x := by
  obtain ⟨run, rest, hps, hfits, hoff, -⟩ := h.uncons
  rcases hfits.cases with ⟨c, rfl, hx⟩ | ⟨c, c', rfl, -⟩
  · simp only [List.singleton_append, List.cons.injEq] at hps
    rw [← hps.2, startsOff_cons, hx, ← hps.1] at hoff
    exact absurd heq hoff
  · simp only [List.cons_append, List.nil_append, List.cons.injEq] at hps
    rw [hps.1, hps.2.1]
    exact hfits

/-- Without tolerance, nothing but the length itself passes. -/
theorem expect_exact (heps : r.eps = 0) (haeps : r.aeps = 0) (hres : hw.resolution = 0) {d x : ℤ}
    (h : expect hw r d x = true) : d = x := by
  have hslack : aepsOf hw r = 0 := by simp [aepsOf, haeps, hres]
  simp only [expect, heps, hslack, Int.mul_zero, Int.zero_tdiv, Bool.or_self,
    decide_eq_true_eq] at h
  have := abs_nonpos_iff.mp h
  omega

/-- Without tolerance, the samples are the run-length form. -/
theorem Accounts.exact (heps : r.eps = 0) (haeps : r.aeps = 0) (hres : hw.resolution = 0)
    {ps xs : List Part} (h : Accounts hw r ps xs) : xs = wave ps := by
  induction h with
  | nil => rfl
  | unsent s => rfl
  | @run run rest x xs hfits hoff hsent _ ih =>
      obtain ⟨level, len⟩ := x
      match run with
      | [p] =>
          obtain ⟨rfl, hlen⟩ := hfits
          obtain rfl : len = p.len := expect_exact heps haeps hres hlen
          rw [List.singleton_append, wave_cons, waveFrom_closed hoff hsent, ih]
      | [p, p'] =>
          obtain ⟨level, a⟩ := p
          obtain ⟨level', c⟩ := p'
          obtain ⟨hp, rfl, -, hlen⟩ := hfits
          simp only at hp
          subst hp
          have hsum : len - a = c := expect_exact heps haeps hres hlen
          have hlen' : len = a + c := by omega
          subst hlen'
          simp only [List.cons_append, List.nil_append, wave_cons, waveFrom_same]
          rw [waveFrom_closed hoff hsent, ih]

/-- A run stands for one sample of its level. -/
theorem levels_run {run rest : List Part} {x : Part} (hrun : OfLevel run x)
    (hoff : StartsOff x.high rest) (hsent : x.high = true ∨ rest ≠ []) :
    (wave (run ++ rest)).map Part.high = x.high :: (wave rest).map Part.high := by
  obtain ⟨hne, hall⟩ := hrun
  obtain ⟨p, run, rfl⟩ := List.exists_cons_of_ne_nil hne
  have hp : p.high = x.high := hall p List.mem_cons_self
  have hothers : ∀ p' ∈ run, p'.high = x.high := fun p' h => hall p' (List.mem_cons_of_mem _ h)
  clear hne hall
  rw [List.cons_append, wave_cons]
  -- the first two parts of the run are joined, which leaves a shorter one
  induction run generalizing p with
  | nil =>
      rw [← hp] at hoff hsent
      rw [List.nil_append, waveFrom_closed hoff hsent, List.map_cons, hp]
  | cons p' run ih =>
      obtain ⟨level, a⟩ := p
      obtain ⟨level', c⟩ := p'
      obtain rfl : level' = level := (hothers _ List.mem_cons_self).trans hp.symm
      rw [List.cons_append, waveFrom_same]
      exact ih _ hp fun p h => hothers p (List.mem_cons_of_mem _ h)

/-- The first of two runs ends where the level changes. -/
theorem run_unique {run run' rest rest' : List Part} {x : Part} (h : OfLevel run x)
    (h' : OfLevel run' x) (hoff : StartsOff x.high rest) (hoff' : StartsOff x.high rest')
    (heq : run ++ rest = run' ++ rest') : run = run' ∧ rest = rest' := by
  -- a run is the longest prefix of its level
  have hprefix : ∀ {run rest : List Part}, OfLevel run x → StartsOff x.high rest →
      (run ++ rest).takeWhile (fun p => p.high == x.high) = run := by
    intro run rest hrun hrest
    rw [List.takeWhile_append_of_pos (by simpa using hrun.2)]
    cases rest with
    | nil => simp
    | cons p rest =>
        have hp : p.high ≠ x.high := by simpa using hrest
        simp [hp]
  have hrun : run = run' := by rw [← hprefix h hoff, heq, hprefix h' hoff']
  subst hrun
  exact ⟨rfl, List.append_cancel_left heq⟩

/-- What follows a run starts off its level. -/
theorem runs_startsOff {runs : List (List Part)} {x : Part} {xs : List Part} {q : Option Part}
    (hall : List.Forall₂ OfLevel runs xs) (halt : Alternates (x :: xs))
    (hlast : ∀ y ∈ (x :: xs).getLast?, y.high = true) (hq : ∀ p ∈ q, p.high = false) :
    StartsOff x.high (runs.flatten ++ q.toList) ∧
      (x.high = true ∨ runs.flatten ++ q.toList ≠ []) := by
  cases hall with
  | nil =>
      have hx : x.high = true := hlast x rfl
      rw [List.flatten_nil, List.nil_append]
      cases q with
      | none => simp [hx]
      | some p => simp [hx, hq p rfl]
  | @cons run y runs xs hrun _ =>
      have hnext := (List.isChain_cons_cons.mp halt).1
      obtain ⟨hne, hlevel⟩ := hrun
      obtain ⟨p, run, rfl⟩ := List.exists_cons_of_ne_nil hne
      have hp : p.high = y.high := hlevel p List.mem_cons_self
      simp [hp, hnext.symm]

/-- Runs of the levels of alternating samples, the last of them a pulse, are
the runs of the signal. -/
theorem levels_runs {runs : List (List Part)} {xs : List Part} {q : Option Part}
    (h : List.Forall₂ OfLevel runs xs) (halt : Alternates xs)
    (hlast : ∀ x ∈ xs.getLast?, x.high = true) (hq : ∀ p ∈ q, p.high = false) :
    (wave (runs.flatten ++ q.toList)).map Part.high = xs.map Part.high := by
  induction h with
  | nil =>
      rcases q with _ | ⟨_ | _, s⟩
      · rfl
      · rfl
      · simpa using hq _ rfl
  | @cons run x runs xs hrun hall ih =>
      obtain ⟨hoff, hsent⟩ := runs_startsOff hall halt hlast hq
      have hrest := ih halt.tail fun y hy => hlast y (by
        cases xs with
        | nil => simp at hy
        | cons z xs => simpa using hy)
      rw [List.flatten_cons, List.append_assoc, levels_run hrun hoff hsent, hrest, List.map_cons]

/-- Samples account for a signal exactly when each is within the tolerance of
its run. -/
theorem accounts_iff {runs : List (List Part)} {xs : List Part} {q : Option Part}
    (h : List.Forall₂ OfLevel runs xs) (halt : Alternates xs)
    (hlast : ∀ x ∈ xs.getLast?, x.high = true) (hq : ∀ p ∈ q, p.high = false) :
    Accounts hw r (runs.flatten ++ q.toList) xs ↔ List.Forall₂ (Fits hw r) runs xs := by
  induction h with
  | nil =>
      refine ⟨fun _ => .nil, fun _ => ?_⟩
      rcases q with _ | ⟨_ | _, s⟩
      · exact .nil
      · exact .unsent s
      · simpa using hq _ rfl
  | @cons run x runs xs hrun hall ih =>
      obtain ⟨hoff, hsent⟩ := runs_startsOff hall halt hlast hq
      have hrest := ih halt.tail fun y hy => hlast y (by
        cases xs with
        | nil => simp at hy
        | cons z xs => simpa using hy)
      rw [List.flatten_cons, List.append_assoc, List.forall₂_cons]
      constructor
      · intro haccounts
        -- the samples may be cut into runs in one way only
        obtain ⟨run', rest', hparts, hfits, hoff', hothers⟩ := haccounts.uncons
        obtain ⟨rfl, rfl⟩ := run_unique hrun hfits.ofLevel hoff hoff' hparts
        exact ⟨hfits, hrest.mp hothers⟩
      · rintro ⟨hfits, hothers⟩
        exact .run hfits hoff hsent (hrest.mpr hothers)

end

end Lirc
