import Mathlib.Data.List.Basic

/-!
Runs of a deterministic labelled transition system. An event carries
everything the environment decides, so a step is a function and a run is a
fold. `Along` says that every step of a run meets a condition that may
depend on the state the step starts in; the rules below turn a fact about
one step into a fact about every state a run reaches.
-/

namespace Transition

variable {σ ε : Type*}

/-- The state a list of events leads to. -/
def run (step : σ → ε → σ) (s : σ) (es : List ε) : σ := es.foldl step s

@[simp] theorem run_nil (step : σ → ε → σ) (s : σ) : run step s [] = s := rfl

@[simp] theorem run_cons (step : σ → ε → σ) (s : σ) (e : ε) (es : List ε) :
    run step s (e :: es) = run step (step s e) es := rfl

theorem run_append (step : σ → ε → σ) (s : σ) (es fs : List ε) :
    run step s (es ++ fs) = run step (run step s es) fs := by
  simp [run, List.foldl_append]

/-- Every step of the run starts in a state that meets the condition. -/
def Along (step : σ → ε → σ) (C : σ → ε → Prop) : σ → List ε → Prop
  | _, [] => True
  | s, e :: es => C s e ∧ Along step C (step s e) es

instance decidableAlong {step : σ → ε → σ} {C : σ → ε → Prop} [∀ s, DecidablePred (C s)] :
    (s : σ) → (es : List ε) → Decidable (Along step C s es)
  | _, [] => .isTrue trivial
  | s, e :: es =>
      have : Decidable (Along step C (step s e) es) := decidableAlong (step s e) es
      inferInstanceAs (Decidable (C s e ∧ Along step C (step s e) es))

@[simp] theorem along_nil (step : σ → ε → σ) (C : σ → ε → Prop) (s : σ) :
    Along step C s [] := trivial

@[simp] theorem along_cons (step : σ → ε → σ) (C : σ → ε → Prop) (s : σ) (e : ε)
    (es : List ε) :
    Along step C s (e :: es) ↔ C s e ∧ Along step C (step s e) es := Iff.rfl

theorem along_append {step : σ → ε → σ} {C : σ → ε → Prop} {s : σ} {es fs : List ε} :
    Along step C s (es ++ fs) ↔
      Along step C s es ∧ Along step C (run step s es) fs := by
  induction es generalizing s with
  | nil => simp
  | cons e es ih => simp [ih, and_assoc]

/-- A condition on the events alone. -/
theorem along_of_forall {step : σ → ε → σ} {P : ε → Prop} {s : σ} {es : List ε}
    (h : ∀ e ∈ es, P e) : Along step (fun _ e => P e) s es := by
  induction es generalizing s with
  | nil => trivial
  | cons e es ih =>
      exact ⟨h e List.mem_cons_self, ih fun e' he' => h e' (List.mem_cons_of_mem _ he')⟩

/-- A condition met along a run is met along each of its beginnings. -/
theorem Along.of_prefix {step : σ → ε → σ} {C : σ → ε → Prop} {s : σ} {es fs : List ε}
    (h : Along step C s es) (hp : fs <+: es) : Along step C s fs := by
  obtain ⟨gs, rfl⟩ := hp
  exact (along_append.mp h).1

theorem Along.mono {step : σ → ε → σ} {C D : σ → ε → Prop} {s : σ} {es : List ε}
    (h : Along step C s es) (hCD : ∀ s e, C s e → D s e) : Along step D s es := by
  induction es generalizing s with
  | nil => trivial
  | cons e es ih => exact ⟨hCD s e h.1, ih h.2⟩

theorem Along.and {step : σ → ε → σ} {C D : σ → ε → Prop} {s : σ} {es : List ε}
    (hC : Along step C s es) (hD : Along step D s es) :
    Along step (fun s e => C s e ∧ D s e) s es := by
  induction es generalizing s with
  | nil => trivial
  | cons e es ih => exact ⟨⟨hC.1, hD.1⟩, ih hC.2 hD.2⟩

/-- Two conditions that agree while a third holds and an invariant lasts. The invariant need
not outlast the second condition. -/
theorem along_iff_along {step : σ → ε → σ} {B C D : σ → ε → Prop} {I : σ → Prop}
    (hiff : ∀ s e, I s → B s e → (D s e ↔ C s e))
    (hstep : ∀ s e, I s → B s e → C s e → I (step s e)) {s : σ} {es : List ε} (hs : I s)
    (hB : Along step B s es) : Along step D s es ↔ Along step C s es := by
  induction es generalizing s with
  | nil => exact Iff.rfl
  | cons e es ih =>
      constructor
      · rintro ⟨hD, hes⟩
        have hC := (hiff s e hs hB.1).mp hD
        exact ⟨hC, (ih (hstep s e hs hB.1 hC) hB.2).mp hes⟩
      · rintro ⟨hC, hes⟩
        exact ⟨(hiff s e hs hB.1).mpr hC, (ih (hstep s e hs hB.1 hC) hB.2).mpr hes⟩

/-- The invariant rule: what every step that meets the condition preserves
holds at the end of every run whose steps all meet it. -/
theorem Along.invariant {step : σ → ε → σ} {C : σ → ε → Prop} {I : σ → Prop}
    (hstep : ∀ s e, I s → C s e → I (step s e)) {s : σ} {es : List ε}
    (hC : Along step C s es) (hs : I s) : I (run step s es) := by
  induction es generalizing s with
  | nil => exact hs
  | cons e es ih => exact ih hC.2 (hstep s e hs hC.1)

/-- The invariant rule for steps that preserve the invariant unconditionally. -/
theorem run_invariant {step : σ → ε → σ} {I : σ → Prop}
    (hstep : ∀ s e, I s → I (step s e)) {s : σ} (es : List ε) (hs : I s) :
    I (run step s es) := by
  induction es generalizing s with
  | nil => exact hs
  | cons e es ih => exact ih (hstep s e hs)

/-- Every state on the way satisfies `I`. -/
def Always (step : σ → ε → σ) (I : σ → Prop) (s : σ) (es : List ε) : Prop :=
  ∀ fs, fs <+: es → I (run step s fs)

/-- The invariant rule for every state on the way. -/
theorem Along.always {step : σ → ε → σ} {C : σ → ε → Prop} {I : σ → Prop}
    (hstep : ∀ s e, I s → C s e → I (step s e)) {s : σ} {es : List ε}
    (hC : Along step C s es) (hs : I s) : Always step I s es :=
  fun _ hp => (hC.of_prefix hp).invariant hstep hs

theorem Always.head {step : σ → ε → σ} {I : σ → Prop} {s : σ} {es : List ε}
    (h : Always step I s es) : I s := h [] es.nil_prefix

theorem Always.tail {step : σ → ε → σ} {I : σ → Prop} {s : σ} {e : ε} {es : List ε}
    (h : Always step I s (e :: es)) : Always step I (step s e) es :=
  fun fs hp => h (e :: fs) (List.cons_prefix_cons.mpr ⟨rfl, hp⟩)

/-- When the condition `C` is exactly what one step needs to keep the invariant, given facts `J`
that every step keeps, a run keeps the invariant throughout if and only if each of its steps
meets `C`. All steps of the run meet `B`. -/
theorem Along.always_iff_along {step : σ → ε → σ} {B C : σ → ε → Prop} {I J : σ → Prop}
    (hJ : ∀ s e, J s → B s e → J (step s e))
    (hstep : ∀ s e, J s → B s e → I s → (I (step s e) ↔ C s e)) {s : σ} {es : List ε}
    (hB : Along step B s es) (hJs : J s) (hs : I s) : Always step I s es ↔ Along step C s es := by
  induction es generalizing s with
  | nil =>
      refine ⟨fun _ => trivial, fun _ fs hp => ?_⟩
      rw [List.prefix_nil.mp hp]
      exact hs
  | cons e es ih =>
      constructor
      · intro h
        have hC : C s e := (hstep s e hJs hB.1 hs).mp h.tail.head
        exact ⟨hC, (ih hB.2 (hJ s e hJs hB.1) h.tail.head).mp h.tail⟩
      · rintro ⟨hC, hes⟩ fs hp
        cases fs with
        | nil => exact hs
        | cons f fs =>
            obtain ⟨rfl, hp'⟩ := List.cons_prefix_cons.mp hp
            have hs' : I (step s f) := (hstep s f hJs hB.1 hs).mpr hC
            exact (ih hB.2 (hJ s f hJs hB.1) hs').mpr hes fs hp'

/-- The same for any run. -/
theorem always_iff_along {step : σ → ε → σ} {C : σ → ε → Prop} {I J : σ → Prop}
    (hJ : ∀ s e, J s → J (step s e))
    (hstep : ∀ s e, J s → I s → (I (step s e) ↔ C s e)) {s : σ} {es : List ε}
    (hJs : J s) (hs : I s) : Always step I s es ↔ Along step C s es :=
  Along.always_iff_along (fun s e hs _ => hJ s e hs) (fun s e hs _ => hstep s e hs)
    (along_of_forall fun _ _ => trivial) hJs hs

end Transition
