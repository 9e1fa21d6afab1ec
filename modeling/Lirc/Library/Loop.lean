import Mathlib.Data.List.Basic

/-!
Loops that need not end. A round of a loop gives either the state that the
next one starts in or a result; the rules below say that a loop ends when a
rank goes down, that it does not when it is in a trap, and when both
together decide it.
-/

namespace Loop

variable {σ ρ : Type*}

/-- The result of at most so many rounds. -/
def runFor (body : σ → σ ⊕ ρ) : ℕ → σ → Option ρ
  | 0, _ => none
  | n + 1, s =>
      match body s with
      | .inl s => runFor body n s
      | .inr out => some out

section

variable (body : σ → σ ⊕ ρ)

/-- The loop ends with a result. -/
def Returns (s : σ) (out : ρ) : Prop := ∃ n, runFor body n s = some out

def Ends (s : σ) : Prop := ∃ out, Returns body s out

/-- The states that the rounds of the loop start in. -/
inductive Reaches : σ → σ → Prop
  | refl (s : σ) : Reaches s s
  | round {s s' t : σ} (h : body s = .inl s') (hr : Reaches s' t) : Reaches s t

end

variable {body : σ → σ ⊕ ρ} {s s' t : σ} {out out' : ρ} {n m : ℕ}

@[simp] theorem runFor_zero : runFor body 0 s = none := rfl

theorem runFor_of_inl (h : body s = .inl s') : runFor body (n + 1) s = runFor body n s' := by
  rw [runFor, h]

theorem runFor_of_inr (h : body s = .inr out) : runFor body (n + 1) s = some out := by
  rw [runFor, h]

/-- More rounds change nothing. -/
theorem runFor_mono (h : runFor body n s = some out) (hle : n ≤ m) :
    runFor body m s = some out := by
  induction n generalizing s m with
  | zero => exact absurd h (by rw [runFor_zero]; exact nofun)
  | succ n ih =>
      obtain ⟨m, rfl⟩ : ∃ k, m = k + 1 := ⟨m - 1, by omega⟩
      rw [runFor] at h ⊢
      cases hbody : body s with
      | inl s' =>
          rw [hbody] at h
          exact ih h (by omega)
      | inr out' =>
          rw [hbody] at h
          exact h

theorem returns_of_inl (h : body s = .inl s') : Returns body s out ↔ Returns body s' out := by
  constructor
  · rintro ⟨n, hn⟩
    cases n with
    | zero => exact absurd hn nofun
    | succ n => exact ⟨n, by rwa [runFor_of_inl h] at hn⟩
  · rintro ⟨n, hn⟩
    exact ⟨n + 1, by rwa [runFor_of_inl h]⟩

theorem returns_of_inr (h : body s = .inr out) : Returns body s out' ↔ out = out' := by
  constructor
  · rintro ⟨n, hn⟩
    cases n with
    | zero => exact absurd hn nofun
    | succ n => exact Option.some.inj (by rwa [runFor_of_inr h] at hn)
  · rintro rfl
    exact ⟨1, runFor_of_inr h⟩

theorem Returns.unique (h : Returns body s out) (h' : Returns body s out') : out = out' := by
  obtain ⟨n, hn⟩ := h
  obtain ⟨m, hm⟩ := h'
  have hn' := runFor_mono hn (Nat.le_max_left n m)
  rw [runFor_mono hm (Nat.le_max_right n m)] at hn'
  exact (Option.some.inj hn').symm

theorem ends_of_inl (h : body s = .inl s') : Ends body s ↔ Ends body s' :=
  exists_congr fun _ => returns_of_inl h

theorem ends_of_inr (h : body s = .inr out) : Ends body s := ⟨out, 1, runFor_of_inr h⟩

theorem Reaches.trans {u : σ} (h : Reaches body s t) (h' : Reaches body t u) :
    Reaches body s u := by
  induction h with
  | refl s => exact h'
  | round hround _ ih => exact .round hround (ih h')

theorem Reaches.tail {u : σ} (h : Reaches body s t) (hround : body t = .inl u) :
    Reaches body s u :=
  h.trans (.round hround (.refl u))

/-- What every round keeps holds in every state that is reached. -/
theorem Reaches.invariant {I : σ → Prop} (hround : ∀ s s', I s → body s = .inl s' → I s')
    (h : Reaches body s t) (hs : I s) : I t := by
  induction h with
  | refl s => exact hs
  | round hbody _ ih => exact ih (hround _ _ hs hbody)

theorem Reaches.ends_iff (h : Reaches body s t) : Ends body s ↔ Ends body t := by
  induction h with
  | refl s => rfl
  | round hbody _ ih => rw [ends_of_inl hbody, ih]

theorem Reaches.returns_iff (h : Reaches body s t) : Returns body s out ↔ Returns body t out := by
  induction h with
  | refl s => rfl
  | round hbody _ ih => rw [returns_of_inl hbody, ih]

/-- In a trap there is always a next round. -/
theorem not_ends_of_trap {T : σ → Prop} (htrap : ∀ s, T s → ∃ s', body s = .inl s' ∧ T s')
    (hs : T s) : ¬Ends body s := by
  rintro ⟨out, n, hn⟩
  induction n generalizing s with
  | zero => exact absurd hn nofun
  | succ n ih =>
      obtain ⟨s', hbody, hs'⟩ := htrap s hs
      rw [runFor_of_inl hbody] at hn
      exact ih hs' hn

/-- A loop ends whose rounds lower a rank; it makes no more rounds than that. -/
theorem runFor_of_rank (rank : σ → ℕ)
    (hround : ∀ t t', Reaches body s t → body t = .inl t' → rank t' < rank t) :
    ∃ out, runFor body (rank s + 1) s = some out := by
  have hall : ∀ n t, rank t ≤ n → Reaches body s t → ∃ out, runFor body (n + 1) t = some out := by
    intro n
    induction n with
    | zero =>
        intro t hrank hreach
        cases hbody : body t with
        | inl t' =>
            have hlt := hround t t' hreach hbody
            omega
        | inr out => exact ⟨out, runFor_of_inr hbody⟩
    | succ n ih =>
        intro t hrank hreach
        cases hbody : body t with
        | inl t' =>
            have hlt := hround t t' hreach hbody
            rw [runFor_of_inl hbody]
            exact ih t' (by omega) (hreach.tail hbody)
        | inr out => exact ⟨out, runFor_of_inr hbody⟩
  exact hall (rank s) s (Nat.le_refl _) (.refl s)

section

variable {T I : σ → Prop} {rank : σ → ℕ}

/-- When the rounds lower a rank outside of a trap, a run that stays outside of it
ends within so many rounds. -/
theorem runFor_of_no_trap (hI : ∀ s s', I s → body s = .inl s' → I s')
    (hround : ∀ t t', I t → ¬T t → body t = .inl t' → rank t' < rank t) (hs : I s)
    (hfree : ∀ t, Reaches body s t → ¬T t) : ∃ out, runFor body (rank s + 1) s = some out :=
  runFor_of_rank rank fun t t' hreach hbody =>
    hround t t' (hreach.invariant hI hs) (hfree t hreach) hbody

/-- It ends unless it gets into the trap. -/
theorem ends_iff_no_trap (hI : ∀ s s', I s → body s = .inl s' → I s')
    (htrap : ∀ s, T s → ∃ s', body s = .inl s' ∧ T s')
    (hround : ∀ t t', I t → ¬T t → body t = .inl t' → rank t' < rank t) (hs : I s) :
    Ends body s ↔ ∀ t, Reaches body s t → ¬T t := by
  constructor
  · intro hends t hreach htrapped
    exact not_ends_of_trap htrap htrapped (hreach.ends_iff.mp hends)
  · intro hfree
    obtain ⟨out, hout⟩ := runFor_of_no_trap hI hround hs hfree
    exact ⟨out, _, hout⟩

end

end Loop
