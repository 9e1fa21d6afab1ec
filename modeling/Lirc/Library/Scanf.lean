import Lirc.Library.Numeral

/-!
Conversions of `sscanf`: each skips white space, takes what it converts and leaves
the rest. What a conversion makes of a line does not depend on what follows the line.
-/

namespace Scanf

open Numeral

/-- A conversion: the value and what is left. -/
abbrev Conversion (α : Type*) := List Char → Option (α × List Char)

/-- `0x` in front of the digits. -/
def splitPrefix : List Char → Bool × List Char
  | '0' :: x :: s => if x = 'x' ∨ x = 'X' then (true, s) else (false, '0' :: x :: s)
  | s => (false, s)

/-- `%x`: the sign and the magnitude. The digit of `0x` is one. -/
def hex : Conversion (Bool × ℕ) := fun s =>
  let (negative, unsigned) := splitSign (s.dropWhile isSpace)
  let (zero, t) := splitPrefix unsigned
  let digits := t.takeWhile (isDigit 16)
  if digits = [] ∧ zero = false then none
  else some ((negative, valueOf 16 digits), t.dropWhile (isDigit 16))

/-- `%s` -/
def word : Conversion (List Char) := fun s =>
  match s.dropWhile isSpace with
  | [] => none
  | c :: s => some ((c :: s).takeWhile (!isSpace ·), (c :: s).dropWhile (!isSpace ·))

/-- What is stored for `%x` in an `int`. -/
def toInt (n : Bool × ℕ) : ℤ :=
  let magnitude := if 2 ^ 64 ≤ n.2 then 2 ^ 64 - 1 else if n.1 then (2 ^ 64 - n.2) % 2 ^ 64 else n.2
  (BitVec.ofNat 32 magnitude).toInt

/-- A conversion that succeeds on a line does the same when something follows. -/
def Local {α : Type*} (p : Conversion α) : Prop :=
  ∀ line a rest, p (line ++ ['\n']) = some (a, rest) →
    ∃ left, rest = left ++ ['\n'] ∧ ∀ more, p (line ++ '\n' :: more) = some (a, left ++ '\n' :: more)

section Lines

variable (line more : List Char)

theorem takeWhile_line {p : Char → Bool} (h : p '\n' = false) :
    (line ++ '\n' :: more).takeWhile p = line.takeWhile p := by
  induction line with
  | nil => rw [List.nil_append, List.takeWhile_cons, h, List.takeWhile_nil]; rfl
  | cons c line ih =>
      rw [List.cons_append, List.takeWhile_cons, List.takeWhile_cons]
      split
      · rw [ih]
      · rfl

theorem dropWhile_line {p : Char → Bool} (h : p '\n' = false) :
    (line ++ '\n' :: more).dropWhile p = line.dropWhile p ++ '\n' :: more := by
  induction line with
  | nil => rw [List.nil_append, List.dropWhile_cons, h]; rfl
  | cons c line ih =>
      rw [List.cons_append, List.dropWhile_cons, List.dropWhile_cons]
      split
      · exact ih
      · rfl

/-- White space at the beginning of a line that has something else in it. -/
theorem skipSpace_line {line : List Char} (h : line.dropWhile isSpace ≠ []) :
    (line ++ '\n' :: more).dropWhile isSpace = line.dropWhile isSpace ++ '\n' :: more := by
  induction line with
  | nil => exact absurd rfl h
  | cons c line ih =>
      rw [List.dropWhile_cons] at h ⊢
      rw [List.cons_append, List.dropWhile_cons]
      split
      · next hspace =>
          rw [if_pos hspace] at h
          exact ih h
      · rfl

/-- A line of white space. -/
theorem skipSpace_blank {line : List Char} (h : line.dropWhile isSpace = []) :
    (line ++ ['\n']).dropWhile isSpace = [] := by
  have hall := List.dropWhile_eq_nil_iff.mp h
  apply List.dropWhile_eq_nil_iff.mpr
  intro c hc
  obtain hc | hc := List.mem_append.mp hc
  · exact hall c hc
  · rw [List.mem_singleton.mp hc]
    rfl

theorem splitSign_line :
    splitSign (line ++ '\n' :: more) = ((splitSign line).1, (splitSign line).2 ++ '\n' :: more) := by
  cases line with
  | nil => rfl
  | cons c line =>
      by_cases hminus : c = '-'
      · subst hminus
        rfl
      · by_cases hplus : c = '+'
        · subst hplus
          rfl
        · simp [splitSign, hminus, hplus]

theorem splitPrefix_line :
    splitPrefix (line ++ '\n' :: more) =
      ((splitPrefix line).1, (splitPrefix line).2 ++ '\n' :: more) := by
  rcases line with _ | ⟨c, _ | ⟨x, line⟩⟩
  · rfl
  · by_cases hzero : c = '0'
    · subst hzero
      rfl
    · simp [splitPrefix, hzero]
  · by_cases hzero : c = '0'
    · subst hzero
      show (if x = 'x' ∨ x = 'X' then _ else _) = _
      rw [splitPrefix]
      split
      · rfl
      · rfl
    · simp [splitPrefix, hzero]

end Lines

theorem hex_local : Local hex := by
  intro line a rest h
  by_cases hblank : line.dropWhile isSpace = []
  · rw [hex, skipSpace_blank hblank] at h
    cases h
  · have hnewline : isDigit 16 '\n' = false := by decide
    have hall : ∀ more, hex (line ++ '\n' :: more) =
        let unsigned := splitSign (line.dropWhile isSpace)
        let t := splitPrefix unsigned.2
        if t.2.takeWhile (isDigit 16) = [] ∧ t.1 = false then none
        else some ((unsigned.1, valueOf 16 (t.2.takeWhile (isDigit 16))),
          t.2.dropWhile (isDigit 16) ++ '\n' :: more) := by
      intro more
      rw [hex, skipSpace_line more hblank, splitSign_line]
      simp only [splitPrefix_line, takeWhile_line _ _ hnewline, dropWhile_line _ _ hnewline]
    rw [hall []] at h
    simp only [hall]
    dsimp only at h
    split at h
    · cases h
    · next hdigits =>
        obtain ⟨rfl, rfl⟩ := Prod.mk.inj (Option.some.inj h)
        exact ⟨_, rfl, fun more => if_neg hdigits⟩

theorem word_local : Local word := by
  intro line a rest h
  by_cases hblank : line.dropWhile isSpace = []
  · rw [word, skipSpace_blank hblank] at h
    cases h
  · have hnewline : (!isSpace '\n') = false := rfl
    have hall : ∀ more, word (line ++ '\n' :: more) =
        some ((line.dropWhile isSpace).takeWhile (!isSpace ·),
          (line.dropWhile isSpace).dropWhile (!isSpace ·) ++ '\n' :: more) := by
      intro more
      rw [word, skipSpace_line more hblank]
      have htake := takeWhile_line (line.dropWhile isSpace) more (p := (!isSpace ·)) hnewline
      have hdrop := dropWhile_line (line.dropWhile isSpace) more (p := (!isSpace ·)) hnewline
      cases hrest : line.dropWhile isSpace with
      | nil => exact absurd hrest hblank
      | cons c line' =>
          rw [hrest] at htake hdrop
          rw [List.cons_append] at htake hdrop ⊢
          simp only [htake, hdrop]
    rw [hall []] at h
    obtain ⟨rfl, rfl⟩ := Prod.mk.inj (Option.some.inj h)
    exact ⟨_, rfl, hall⟩

end Scanf
