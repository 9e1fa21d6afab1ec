import Lirc.Command

/-!
The loop of `get_command` for an arbitrary way to execute a line, as lircrcd
has it too, and the rules for it: what every line keeps is kept by the call,
and what is executed beside the lines changes nothing.
-/

namespace Lirc

open CString Lines

section Commands

variable {σ : Type*} (exec : List Char → σ → Bool × σ)

/-- The loop of `get_command`, given what is done with a line. -/
def commandLoopWith (buffer : List Char) (reads : List (Option (List Char))) (s : σ) :
    Option (Bool × σ × List (Option (List Char))) :=
  if buffer = [] then some (false, s, reads)
  else
    match splitLine '\n' (cstr buffer) with
    | none => some (false, s, reads)
    | some (line, _) =>
        let result := exec line s
        if !result.1 then some (false, result.2, reads)
        else if buffer.length ≤ line.length + 1 then some (true, result.2, reads)
        else
          match _hrefill : refill (buffer.drop (line.length + 1)) reads with
          | none => none
          | some (none, reads) => some (true, result.2, reads)
          | some (some buffer, reads) => commandLoopWith buffer reads result.2
termination_by buffer.length + bytesLeft reads
decreasing_by
  have hbytes := refill_bytesLeft _hrefill
  rw [List.length_drop] at hbytes
  omega

def getCommandWith (reads : List (Option (List Char))) (s : σ) :
    Option (Bool × σ × List (Option (List Char))) :=
  match readTimeout packetSize reads with
  | none => none
  | some (none, reads) => some (true, s, reads)
  | some (some buffer, reads) => commandLoopWith exec buffer reads s

/-- `get_command` of lircd. -/
theorem getCommandWith_execLine (srv : Server σ) (reads : List (Option (List Char))) (s : σ) :
    getCommandWith (execLine srv) reads s = getCommand srv reads s := by
  have hloop : ∀ buffer reads s,
      commandLoopWith (execLine srv) buffer reads s = commandLoop srv buffer reads s := by
    intro buffer reads s
    fun_induction commandLoop srv buffer reads s with
    | case1 => rw [commandLoopWith, if_pos rfl]
    | case2 buffer reads s hne hsplit =>
        rw [commandLoopWith, if_neg hne]
        simp only [hsplit]
    | case3 buffer reads s hne line rest hsplit result hfail =>
        rw [commandLoopWith, if_neg hne]
        simp only [hsplit]
        exact if_pos hfail
    | case4 buffer reads s hne line rest hsplit result hok hlast =>
        rw [commandLoopWith, if_neg hne]
        simp only [hsplit]
        exact (if_neg hok).trans (if_pos hlast)
    | case5 buffer reads s hne line rest hsplit result hok hmore hrefill =>
        rw [commandLoopWith, if_neg hne]
        simp only [hsplit]
        refine (if_neg hok).trans ((if_neg hmore).trans ?_)
        split
        · rfl
        · next h => rw [hrefill] at h; cases h
        · next h => rw [hrefill] at h; cases h
    | case6 buffer reads s hne line rest hsplit result hok hmore reads' hrefill =>
        rw [commandLoopWith, if_neg hne]
        simp only [hsplit]
        refine (if_neg hok).trans ((if_neg hmore).trans ?_)
        split
        · next h => rw [hrefill] at h; cases h
        · next h => rw [hrefill] at h; cases h; rfl
        · next h => rw [hrefill] at h; cases h
    | case7 buffer reads s hne line rest hsplit result hok hmore buffer' reads' hrefill ih =>
        rw [commandLoopWith, if_neg hne]
        simp only [hsplit]
        refine (if_neg hok).trans ((if_neg hmore).trans ?_)
        split
        · next h => rw [hrefill] at h; cases h
        · next h => rw [hrefill] at h; cases h
        · next h => rw [hrefill] at h; cases h; exact ih
  rw [getCommandWith, getCommand]
  obtain _ | ⟨_ | buffer, reads⟩ := readTimeout packetSize reads
  · rfl
  · rfl
  · exact hloop buffer reads s

/-- Two ways to execute a line that agree up to `f` lead to results that agree
up to `f`. -/
theorem getCommandWith_map {τ : Type*} {exec : List Char → σ → Bool × σ}
    {exec' : List Char → τ → Bool × τ} (f : τ → σ)
    (hexec : ∀ line t, ((exec' line t).1, f (exec' line t).2) = exec line (f t))
    (reads : List (Option (List Char))) (t : τ) :
    (getCommandWith exec' reads t).map (fun r => (r.1, f r.2.1, r.2.2)) =
      getCommandWith exec reads (f t) := by
  have hloop : ∀ buffer reads t,
      (commandLoopWith exec' buffer reads t).map (fun r => (r.1, f r.2.1, r.2.2)) =
        commandLoopWith exec buffer reads (f t) := by
    intro buffer reads t
    fun_induction commandLoopWith exec' buffer reads t with
    | case1 => rw [commandLoopWith, if_pos rfl]; rfl
    | case2 buffer reads t hne hsplit =>
        rw [commandLoopWith, if_neg hne]
        simp only [hsplit]
        rfl
    | case3 buffer reads t hne line rest hsplit result hfail =>
        rw [commandLoopWith, if_neg hne]
        simp only [hsplit, ← hexec]
        exact (if_pos hfail).symm
    | case4 buffer reads t hne line rest hsplit result hok hlast =>
        rw [commandLoopWith, if_neg hne]
        simp only [hsplit, ← hexec]
        exact ((if_neg hok).trans (if_pos hlast)).symm
    | case5 buffer reads t hne line rest hsplit result hok hmore hrefill =>
        rw [commandLoopWith, if_neg hne]
        simp only [hsplit, ← hexec]
        refine (((if_neg hok).trans (if_neg hmore)).trans ?_).symm
        split
        · rfl
        · next h => rw [hrefill] at h; cases h
        · next h => rw [hrefill] at h; cases h
    | case6 buffer reads t hne line rest hsplit result hok hmore reads' hrefill =>
        rw [commandLoopWith, if_neg hne]
        simp only [hsplit, ← hexec]
        refine (((if_neg hok).trans (if_neg hmore)).trans ?_).symm
        split
        · next h => rw [hrefill] at h; cases h
        · next h => rw [hrefill] at h; cases h; rfl
        · next h => rw [hrefill] at h; cases h
    | case7 buffer reads t hne line rest hsplit result hok hmore buffer' reads' hrefill ih =>
        conv_rhs => rw [commandLoopWith, if_neg hne]
        simp only [hsplit, ← hexec]
        refine (((if_neg hok).trans (if_neg hmore)).trans ?_).symm
        split
        · next h => rw [hrefill] at h; cases h
        · next h => rw [hrefill] at h; cases h
        · next h => rw [hrefill] at h; cases h; exact ih.symm
  unfold getCommandWith
  obtain _ | ⟨_ | buffer, reads⟩ := readTimeout packetSize reads
  · rfl
  · rfl
  · exact hloop buffer reads t

/-- A step that keeps a history of the lines and the states before them. -/
def noted (line : List Char) (s : σ × List (List Char × σ)) : Bool × σ × List (List Char × σ) :=
  ((exec line s.1).1, (exec line s.1).2, s.2 ++ [(line, s.1)])

/-- The history changes nothing. -/
theorem getCommandWith_noted (reads : List (Option (List Char))) (s : σ)
    (h : List (List Char × σ)) :
    (getCommandWith (noted exec) reads (s, h)).map (fun r => (r.1, r.2.1.1, r.2.2)) =
      getCommandWith exec reads s :=
  getCommandWith_map Prod.fst (fun _ _ => rfl) reads (s, h)

variable {exec}

/-- What every line keeps is kept by the call. -/
theorem getCommandWith_invariant {I : σ → Prop}
    (hexec : ∀ line s, '\n' ∉ line → I s → I (exec line s).2)
    {reads reads' : List (Option (List Char))} {s s' : σ} {ok : Bool} (hs : I s)
    (h : getCommandWith exec reads s = some (ok, s', reads')) : I s' := by
  have hloop : ∀ buffer reads s, I s → ∀ ok s' reads',
      commandLoopWith exec buffer reads s = some (ok, s', reads') → I s' := by
    intro buffer reads s
    fun_induction commandLoopWith exec buffer reads s with
    | case1 => intro hs _ _ _ h; cases h; exact hs
    | case2 => intro hs _ _ _ h; cases h; exact hs
    | case3 buffer reads s hne line rest hsplit =>
        intro hs _ _ _ h
        cases h
        exact hexec _ _ (splitLine_eq_some hsplit).2 hs
    | case4 buffer reads s hne line rest hsplit =>
        intro hs _ _ _ h
        cases h
        exact hexec _ _ (splitLine_eq_some hsplit).2 hs
    | case5 => intro _ _ _ _ h; cases h
    | case6 buffer reads s hne line rest hsplit =>
        intro hs _ _ _ h
        cases h
        exact hexec _ _ (splitLine_eq_some hsplit).2 hs
    | case7 buffer reads s hne line rest hsplit result hok hmore buffer' reads' hrefill ih =>
        intro hs ok s' reads'' h
        exact ih (hexec _ _ (splitLine_eq_some hsplit).2 hs) ok s' reads'' h
  unfold getCommandWith at h
  split at h
  · cases h
  · cases h
    exact hs
  · exact hloop _ _ _ hs _ _ _ h

/-- The same for lircd. -/
theorem getCommand_invariant {srv : Server σ} {I : σ → Prop}
    (hexec : ∀ line s, '\n' ∉ line → I s → I (execLine srv line s).2)
    {reads reads' : List (Option (List Char))} {s s' : σ} {ok : Bool} (hs : I s)
    (h : getCommand srv reads s = some (ok, s', reads')) : I s' := by
  rw [← getCommandWith_execLine] at h
  exact getCommandWith_invariant hexec hs h

end Commands

end Lirc
