import Mathlib.Data.List.TakeWhile

/-!
C strings in arrays of bytes: a string ends before the first zero byte.
-/

namespace CString

/-- The terminating zero. -/
def nul : Char := Char.ofNat 0

/-- The string at the start of an array. -/
def cstr (bytes : List Char) : List Char := bytes.takeWhile (· != nul)

theorem cstr_eq_self {bytes : List Char} (h : nul ∉ bytes) : cstr bytes = bytes := by
  rw [cstr, List.takeWhile_eq_self_iff]
  intro c hc
  rw [bne_iff_ne]
  intro heq
  exact h (heq ▸ hc)

/-- `strtok`: the next token and what follows the delimiter behind it. -/
def strtok (delims : List Char) (s : List Char) : Option (List Char × List Char) :=
  match s.dropWhile (delims.contains ·) with
  | [] => none
  | c :: cs =>
      some ((c :: cs).takeWhile (!delims.contains ·),
        ((c :: cs).dropWhile (!delims.contains ·)).tail)

/-- `strtok(NULL, "")`: all that is left. -/
def strtokRest (s : List Char) : Option (List Char) := if s = [] then none else some s

theorem length_dropWhile_le (p : Char → Bool) (s : List Char) :
    (s.dropWhile p).length ≤ s.length :=
  List.IsSuffix.length_le (List.dropWhile_suffix p)

/-- A token and what follows it are not longer than the string. -/
theorem strtok_length {delims s tok rest : List Char} (h : strtok delims s = some (tok, rest)) :
    tok.length + rest.length ≤ s.length := by
  unfold strtok at h
  have hdrop := length_dropWhile_le (delims.contains ·) s
  generalize s.dropWhile (delims.contains ·) = t at h hdrop
  cases t with
  | nil => simp at h
  | cons c cs =>
      obtain ⟨rfl, rfl⟩ := Prod.mk.inj (Option.some.inj h)
      have happ := congrArg List.length
        (List.takeWhile_append_dropWhile (p := (!delims.contains ·)) (l := c :: cs))
      rw [List.length_append] at happ
      rw [List.length_tail]
      omega

/-! ### All tokens -/

/-- What repeated calls of `strtok` give. -/
def tokens (delims s : List Char) : List (List Char) :=
  (s.splitOnP (delims.contains ·)).filter (· ≠ [])

variable {delims : List Char}

@[simp] theorem tokens_nil : tokens delims [] = [] := rfl

theorem tokens_append_cons (s rest : List Char) {c : Char} (hc : delims.contains c = true) :
    tokens delims (s ++ c :: rest) = tokens delims s ++ tokens delims rest := by
  rw [tokens, List.splitOnP_append_cons (p := (delims.contains ·)) s rest hc,
    List.filter_append]
  rfl

theorem tokens_cons {c : Char} (hc : delims.contains c = true) (s : List Char) :
    tokens delims (c :: s) = tokens delims s := tokens_append_cons [] s hc

theorem tokens_word {w : List Char} (hw : ∀ c ∈ w, delims.contains c = false) (hne : w ≠ []) :
    tokens delims w = [w] := by
  rw [tokens, List.splitOnP_eq_singleton (p := (delims.contains ·)) hw]
  simp [hne]

theorem tokens_dropWhile (s : List Char) :
    tokens delims (s.dropWhile (delims.contains ·)) = tokens delims s := by
  induction s with
  | nil => rfl
  | cons c s ih =>
      cases hc : delims.contains c with
      | true => rw [List.dropWhile_cons_of_pos hc, ih, tokens_cons hc]
      | false => rw [List.dropWhile_cons_of_neg (ne_true_of_eq_false hc)]

theorem strtok_none {s : List Char} (h : strtok delims s = none) : tokens delims s = [] := by
  rw [← tokens_dropWhile]
  rw [strtok] at h
  cases hs : s.dropWhile (delims.contains ·) with
  | nil => rfl
  | cons c cs => rw [hs] at h; nomatch h

theorem dropWhile_head {p : Char → Bool} {s cs : List Char} {c : Char}
    (h : s.dropWhile p = c :: cs) : p c = false := by
  have hne : s.dropWhile p ≠ [] := h ▸ List.cons_ne_nil _ _
  have hhead := List.head_dropWhile_not p hne
  simpa only [h, List.head_cons] using hhead

/-- A call of `strtok` gives the first token and leaves the others. -/
theorem strtok_some {s tok rest : List Char} (h : strtok delims s = some (tok, rest)) :
    tokens delims s = tok :: tokens delims rest := by
  rw [← tokens_dropWhile]
  rw [strtok] at h
  cases hs : s.dropWhile (delims.contains ·) with
  | nil => rw [hs] at h; nomatch h
  | cons c cs =>
      rw [hs] at h
      obtain ⟨rfl, rfl⟩ := Prod.mk.inj (Option.some.inj h)
      have hc : delims.contains c = false := dropWhile_head hs
      have hword : ∀ d ∈ (c :: cs).takeWhile (!delims.contains ·), delims.contains d = false := by
        intro d hd
        simpa using List.mem_takeWhile_imp hd
      have hne : (c :: cs).takeWhile (!delims.contains ·) ≠ [] := by
        rw [List.takeWhile_cons_of_pos (by simpa using hc)]
        exact List.cons_ne_nil _ _
      have hsplit := List.takeWhile_append_dropWhile (p := (!delims.contains ·)) (l := c :: cs)
      cases hrest : (c :: cs).dropWhile (!delims.contains ·) with
      | nil =>
          rw [hrest, List.append_nil] at hsplit
          calc
            tokens delims (c :: cs) = tokens delims ((c :: cs).takeWhile (!delims.contains ·)) :=
              congrArg _ hsplit.symm
            _ = _ := tokens_word hword hne
      | cons d ds =>
          have hd : delims.contains d = true := by simpa using dropWhile_head hrest
          calc
            tokens delims (c :: cs) =
                tokens delims ((c :: cs).takeWhile (!delims.contains ·) ++ d :: ds) :=
              congrArg _ (hrest ▸ hsplit.symm)
            _ = _ := by rw [tokens_append_cons _ _ hd, tokens_word hword hne]; rfl

/-- A word is a token up to the delimiter behind it. -/
theorem strtok_word {w rest : List Char} (hne : w ≠ [])
    (hw : ∀ c ∈ w, delims.contains c = false)
    (hrest : ∀ c ∈ rest.head?, delims.contains c = true) :
    strtok delims (w ++ rest) = some (w, rest.tail) := by
  obtain ⟨c, cs, rfl⟩ := List.exists_cons_of_ne_nil hne
  have hstart : (c :: cs ++ rest).dropWhile (delims.contains ·) = c :: cs ++ rest :=
    List.dropWhile_cons_of_neg (ne_true_of_eq_false (hw c List.mem_cons_self))
  have hin : ∀ d ∈ c :: cs, (!delims.contains d) = true := by
    intro d hd
    rw [hw d hd]
    rfl
  have hout : rest.takeWhile (!delims.contains ·) = [] ∧
      rest.dropWhile (!delims.contains ·) = rest := by
    cases rest with
    | nil => exact ⟨rfl, rfl⟩
    | cons d ds =>
        have hd : ¬(!delims.contains d) = true := by
          rw [hrest d rfl]
          exact Bool.false_ne_true
        exact ⟨List.takeWhile_cons_of_neg hd, List.dropWhile_cons_of_neg hd⟩
  rw [strtok, hstart]
  refine congrArg some (Prod.ext ?_ (congrArg List.tail ?_))
  · exact (List.takeWhile_append_of_pos hin).trans (by rw [hout.1, List.append_nil])
  · exact (List.dropWhile_append_of_pos hin).trans hout.2

/-- A token takes a character. -/
theorem strtok_rest_lt {s tok rest : List Char} (h : strtok delims s = some (tok, rest)) :
    rest.length < s.length := by
  have hlen := strtok_length h
  have hne : tok ≠ [] := by
    intro hnil
    have hmem : tok ∈ tokens delims s := strtok_some h ▸ List.mem_cons_self
    simp [tokens, hnil] at hmem
  have hpos := List.length_pos_iff.mpr hne
  omega

end CString
