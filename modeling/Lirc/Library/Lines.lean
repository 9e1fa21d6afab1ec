import Mathlib.Data.List.Basic

/-!
Streams of terminated lines, and how much of a stream a buffer holds. A
stream is cut anywhere; a line is complete when its terminator has come.
-/

namespace Lines

variable {α : Type*} {nl : α}

/-- The lines, each with its terminator. -/
def stream (nl : α) (ls : List (List α)) : List α := ls.flatMap (· ++ [nl])

@[simp] theorem stream_nil : stream nl [] = [] := rfl

@[simp] theorem stream_cons (l : List α) (ls : List (List α)) :
    stream nl (l :: ls) = l ++ nl :: stream nl ls := by
  simp [stream]

/-- A stream that has ended has no lines left. -/
theorem stream_eq_nil {ls : List (List α)} (h : stream nl ls = []) : ls = [] := by
  cases ls with
  | nil => rfl
  | cons l ls => simp at h

theorem mem_stream {ls : List (List α)} {c : α} (h : c ∈ stream nl ls) :
    c = nl ∨ ∃ l ∈ ls, c ∈ l := by
  induction ls with
  | nil => simp at h
  | cons l ls ih =>
      rw [stream_cons, List.mem_append, List.mem_cons] at h
      rcases h with h | rfl | h
      · exact .inr ⟨l, List.mem_cons_self, h⟩
      · exact .inl rfl
      · rcases ih h with rfl | ⟨l', hl', hc⟩
        · exact .inl rfl
        · exact .inr ⟨l', List.mem_cons_of_mem _ hl', hc⟩

variable [DecidableEq α]

/-- The first complete line and what follows it. -/
def splitLine (nl : α) : List α → Option (List α × List α)
  | [] => none
  | c :: cs => if c = nl then some ([], cs) else (splitLine nl cs).map fun x => (c :: x.1, x.2)

theorem splitLine_append {l : List α} (h : nl ∉ l) (rest : List α) :
    splitLine nl (l ++ nl :: rest) = some (l, rest) := by
  induction l with
  | nil => simp [splitLine]
  | cons c cs ih =>
      obtain ⟨hc, hcs⟩ := not_or.mp (List.mem_cons.not.mp h)
      have hne : c ≠ nl := fun heq => hc heq.symm
      rw [List.cons_append, splitLine, if_neg hne, ih hcs]
      rfl

theorem splitLine_eq_some {buf l rest : List α} (h : splitLine nl buf = some (l, rest)) :
    buf = l ++ nl :: rest ∧ nl ∉ l := by
  induction buf generalizing l with
  | nil => simp [splitLine] at h
  | cons c cs ih =>
      rw [splitLine] at h
      split at h
      · next hc =>
          obtain ⟨rfl, rfl⟩ := Prod.mk.inj (Option.some.inj h)
          exact ⟨by rw [hc]; rfl, by simp⟩
      · next hc =>
          obtain ⟨⟨l', rest'⟩, hsplit, heq⟩ := Option.map_eq_some_iff.mp h
          obtain ⟨rfl, rfl⟩ := Prod.mk.inj heq
          obtain ⟨rfl, hmem⟩ := ih hsplit
          exact ⟨rfl, by simpa [hmem] using fun heq : nl = c => hc heq.symm⟩

theorem splitLine_eq_none {buf : List α} : splitLine nl buf = none ↔ nl ∉ buf := by
  induction buf with
  | nil => simp [splitLine]
  | cons c cs ih =>
      rw [splitLine]
      split
      · next hc => simp [hc]
      · next hc =>
          rw [Option.map_eq_none_iff, ih, List.mem_cons, not_or]
          exact ⟨fun h => ⟨fun heq => hc heq.symm, h⟩, fun h => h.2⟩

theorem splitLine_of_mem {buf : List α} (h : nl ∈ buf) :
    ∃ l rest, splitLine nl buf = some (l, rest) := by
  cases hs : splitLine nl buf with
  | none => exact absurd h (splitLine_eq_none.mp hs)
  | some x => exact ⟨x.1, x.2, rfl⟩

/-- The first complete line of a buffer is the first line of the stream. -/
theorem stream_uncons {ls : List (List α)} (hls : ∀ l ∈ ls, nl ∉ l) {buf more l rest : List α}
    (hstream : buf ++ more = stream nl ls) (hsplit : splitLine nl buf = some (l, rest)) :
    ∃ ls', ls = l :: ls' ∧ rest ++ more = stream nl ls' := by
  obtain ⟨rfl, hl⟩ := splitLine_eq_some hsplit
  cases ls with
  | nil => simp at hstream
  | cons l' ls' =>
      have hl' : nl ∉ l' := hls l' List.mem_cons_self
      rw [stream_cons, List.append_assoc, List.cons_append] at hstream
      have heq := (splitLine_append hl (rest ++ more)).symm.trans
        ((congrArg (splitLine nl) hstream).trans (splitLine_append hl' (stream nl ls')))
      obtain ⟨rfl, hrest⟩ := Prod.mk.inj (Option.some.inj heq)
      exact ⟨ls', rfl, hrest⟩

/-- The complete lines of a buffer. -/
def complete (nl : α) (buf : List α) : List (List α) :=
  match _hsplit : splitLine nl buf with
  | none => []
  | some (l, rest) => l :: complete nl rest
termination_by buf.length
decreasing_by
  obtain ⟨rfl, -⟩ := splitLine_eq_some _hsplit
  simp
  omega

theorem complete_of_not_mem {buf : List α} (h : nl ∉ buf) : complete nl buf = [] := by
  rw [complete]
  split
  · rfl
  · next hsplit => rw [splitLine_eq_none.mpr h] at hsplit; cases hsplit

theorem complete_cons {l : List α} (h : nl ∉ l) (rest : List α) :
    complete nl (l ++ nl :: rest) = l :: complete nl rest := by
  rw [complete]
  split
  · next hsplit => rw [splitLine_append h] at hsplit; cases hsplit
  · next hsplit => rw [splitLine_append h] at hsplit; cases hsplit; rfl

/-- The complete lines of a stream that has been cut. -/
theorem complete_stream {ls : List (List α)} (hls : ∀ l ∈ ls, nl ∉ l) (rest : List α) :
    complete nl (stream nl ls ++ rest) = ls ++ complete nl rest := by
  induction ls with
  | nil => rfl
  | cons l ls ih =>
      have hmem := ih fun l hl => hls l (List.mem_cons_of_mem _ hl)
      rw [stream_cons, List.append_assoc, List.cons_append,
        complete_cons (hls l List.mem_cons_self), hmem]
      rfl

end Lines
