import Lirc.Command

/-!
How the cut of a stream of lines into reads shows in what lircd executes. A
line is executed once its newline is in the buffer; a read that brings no
newline makes `get_command` drop the client.
-/

namespace Lirc

open CString Lines

variable {σ : Type*} (srv : Server σ)

/-- What a call has done with lines that come in pieces: it has executed the
lines of the pieces it took and each of these held a newline, or a reply could
not be written, or a piece held no newline. -/
inductive Progress (lines pieces : List (List Char)) (s : σ) :
    Bool → σ → List (Option (List Char)) → Prop
  | served {done left taken rest : List (List Char)} {first : List Char} {s' : σ}
      (hlines : lines = done ++ left) (hpieces : pieces = first :: taken ++ rest)
      (htaken : ∀ p ∈ first :: taken, '\n' ∈ p)
      (hrest : rest.flatten = stream '\n' left) (hdone : execLines srv done s = (true, s')) :
      Progress lines pieces s true s' (rest.map some)
  | failed {done left : List (List Char)} {s' : σ} {reads : List (Option (List Char))}
      (hlines : lines = done ++ left) (hdone : execLines srv done s = (false, s')) :
      Progress lines pieces s false s' reads
  | cut {p : List Char} {s' : σ} {reads : List (Option (List Char))} (hp : p ∈ pieces)
      (hcut : '\n' ∉ p) : Progress lines pieces s false s' reads

theorem execLines_append (as bs : List (List Char)) (s : σ) :
    execLines srv (as ++ bs) s =
      if (execLines srv as s).1 then execLines srv bs (execLines srv as s).2
      else execLines srv as s := by
  induction as generalizing s with
  | nil => rfl
  | cons line as ih =>
      rw [List.cons_append, execLines, execLines]
      rcases execLine srv line s with ⟨ok, s'⟩
      cases ok with
      | true => exact ih s'
      | false => rfl

theorem Progress.cons {line : List Char} {lines pieces : List (List Char)} {s s' s'' : σ}
    {ok : Bool} {reads : List (Option (List Char))}
    (hline : execLine srv line s = (true, s')) (h : Progress srv lines pieces s' ok s'' reads) :
    Progress srv (line :: lines) pieces s ok s'' reads := by
  have hexec : ∀ done, execLines srv (line :: done) s = execLines srv done s' := by
    intro done
    rw [execLines, hline]
    rfl
  cases h with
  | served hlines hpieces htaken hrest hdone =>
      exact .served (congrArg (line :: ·) hlines) hpieces htaken hrest
        ((hexec _).trans hdone)
  | failed hlines hdone => exact .failed (congrArg (line :: ·) hlines) ((hexec _).trans hdone)
  | cut hp hcut => exact .cut hp hcut

/-- The bytes behind a line count as taken with the piece that held it. -/
theorem Progress.behind {lines pieces : List (List Char)} {line rest : List Char} {s s' : σ}
    {ok : Bool} {reads : List (Option (List Char))}
    (h : Progress srv lines (rest :: pieces) s ok s' reads) (hrest : '\n' ∈ rest) :
    Progress srv lines ((line ++ '\n' :: rest) :: pieces) s ok s' reads := by
  have hnl : '\n' ∈ line ++ '\n' :: rest := by simp
  cases h with
  | served hlines hpieces htaken hleft hdone =>
      obtain ⟨rfl, rfl⟩ := List.cons.inj hpieces
      refine .served hlines (List.cons_append ..).symm ?_ hleft hdone
      intro p hp
      rcases List.mem_cons.mp hp with rfl | hp
      · exact hnl
      · exact htaken p (List.mem_cons_of_mem _ hp)
  | failed hlines hdone => exact .failed hlines hdone
  | cut hp hcut =>
      rcases List.mem_cons.mp hp with rfl | hp
      · exact absurd hrest hcut
      · exact .cut (List.mem_cons_of_mem _ hp) hcut

/-- A piece is joined to bytes that hold no newline. -/
theorem Progress.joined {lines pieces : List (List Char)} {line rest piece : List Char}
    {s s' : σ} {ok : Bool} {reads : List (Option (List Char))}
    (h : Progress srv lines ((rest ++ piece) :: pieces) s ok s' reads) (hrest : '\n' ∉ rest) :
    Progress srv lines ((line ++ '\n' :: rest) :: piece :: pieces) s ok s' reads := by
  have hnl : '\n' ∈ line ++ '\n' :: rest := by simp
  cases h with
  | served hlines hpieces htaken hleft hdone =>
      obtain ⟨rfl, rfl⟩ := List.cons.inj hpieces
      refine .served hlines (congrArg _ (List.cons_append ..).symm) ?_ hleft hdone
      intro p hp
      rcases List.mem_cons.mp hp with rfl | hp
      · exact hnl
      rcases List.mem_cons.mp hp with rfl | hp
      · have hfirst := htaken _ List.mem_cons_self
        exact (List.mem_append.mp hfirst).resolve_left hrest
      · exact htaken p (List.mem_cons_of_mem _ hp)
  | failed hlines hdone => exact .failed hlines hdone
  | cut hp hcut =>
      rcases List.mem_cons.mp hp with rfl | hp
      · have hpiece : '\n' ∉ piece := fun hmem => hcut (List.mem_append_right _ hmem)
        exact .cut (List.mem_cons_of_mem _ List.mem_cons_self) hpiece
      · exact .cut (List.mem_cons_of_mem _ (List.mem_cons_of_mem _ hp)) hcut

/-- What has come without a zero byte is a string. -/
theorem cstr_of_stream {ls : List (List Char)} (hnul : ∀ l ∈ ls, nul ∉ l)
    {buffer more : List Char} (hstream : buffer ++ more = stream '\n' ls) :
    cstr buffer = buffer := by
  apply cstr_eq_self
  intro hmem
  have hin : nul ∈ stream '\n' ls := hstream ▸ List.mem_append_left _ hmem
  rcases mem_stream hin with h | ⟨l, hl, h⟩
  · exact absurd h (by decide)
  · exact hnul l hl h

/-- A refill is made when no newline is left; the stream then goes on. -/
theorem refill_pieces {rest : List Char} {pieces ls : List (List Char)}
    {result : Option (List Char)} {reads : List (Option (List Char))}
    (hnul : ∀ l ∈ ls, nul ∉ l) (hstream : rest ++ pieces.flatten = stream '\n' ls)
    (hne : ∀ p ∈ pieces, p ≠ []) (hrest : rest ≠ [])
    (h : refill rest (pieces.map some) = some (result, reads)) :
    ('\n' ∈ rest ∧ result = some rest ∧ reads = pieces.map some) ∨
      ('\n' ∉ rest ∧ ∃ p ps, pieces = p :: ps ∧ result = some (rest ++ p) ∧
        reads = ps.map some) := by
  rw [refill, cstr_of_stream hnul hstream] at h
  split at h
  · next hnl =>
      cases h
      exact .inl ⟨hnl, rfl, rfl⟩
  · next hnl =>
      refine .inr ⟨hnl, ?_⟩
      cases pieces with
      | nil =>
          cases ls with
          | nil => simp [hrest] at hstream
          | cons l ls =>
              rw [List.flatten_nil, List.append_nil] at hstream
              rw [hstream] at hnl
              simp at hnl
      | cons p ps =>
          have hp : p ≠ [] := hne p List.mem_cons_self
          obtain ⟨c, cs, rfl⟩ := List.exists_cons_of_ne_nil hp
          rw [List.map_cons, readTimeout] at h
          by_cases hfit : (c :: cs).length ≤ packetSize - rest.length
          · rw [if_pos hfit] at h
            cases h
            exact ⟨c :: cs, ps, rfl, rfl, rfl⟩
          · rw [if_neg hfit] at h
            cases h

theorem execLines_singleton (line : List Char) (s : σ) :
    execLines srv [line] s = execLine srv line s := by
  rw [execLines]
  rcases execLine srv line s with ⟨ok, s'⟩
  cases ok with
  | true => rfl
  | false => rfl

/-- The line in front of the buffer is the next line of the stream. -/
theorem front_line {ls : List (List Char)} (hnl : ∀ l ∈ ls, '\n' ∉ l)
    (hnul : ∀ l ∈ ls, nul ∉ l) {buffer more line rest : List Char}
    (hstream : buffer ++ more = stream '\n' ls)
    (hsplit : splitLine '\n' (cstr buffer) = some (line, rest)) :
    ∃ ls', ls = line :: ls' ∧ buffer = line ++ '\n' :: rest ∧
      buffer.drop (line.length + 1) = rest ∧ rest ++ more = stream '\n' ls' := by
  rw [cstr_of_stream hnul hstream] at hsplit
  obtain ⟨ls', rfl, hrest⟩ := stream_uncons hnl hstream hsplit
  obtain ⟨rfl, -⟩ := splitLine_eq_some hsplit
  refine ⟨ls', rfl, rfl, ?_, hrest⟩
  rw [List.append_cons, List.drop_left' (by simp)]

theorem commandLoop_progress {buffer : List Char} {pieces ls : List (List Char)} {s s' : σ}
    {ok : Bool} {reads : List (Option (List Char))} (hnl : ∀ l ∈ ls, '\n' ∉ l)
    (hnul : ∀ l ∈ ls, nul ∉ l) (hstream : buffer ++ pieces.flatten = stream '\n' ls)
    (hne : ∀ p ∈ pieces, p ≠ []) (hbuffer : buffer ≠ [])
    (h : commandLoop srv buffer (pieces.map some) s = some (ok, s', reads)) :
    Progress srv ls (buffer :: pieces) s ok s' reads := by
  generalize hpieces : pieces.map some = reads₀ at h
  fun_induction commandLoop srv buffer reads₀ s generalizing pieces ls with
  | case1 => exact absurd rfl hbuffer
  | case2 buffer reads₀ s _ hsplit =>
      rw [cstr_of_stream hnul hstream] at hsplit
      cases h
      exact .cut List.mem_cons_self (splitLine_eq_none.mp hsplit)
  | case3 buffer reads₀ s _ line rest hsplit result =>
      rename_i hfail
      obtain ⟨ls', rfl, -⟩ := front_line hnl hnul hstream hsplit
      rw [Bool.not_eq_true'] at hfail
      cases h
      refine .failed (show line :: ls' = [line] ++ ls' from rfl) ?_
      rw [execLines_singleton, ← hfail]
  | case4 buffer reads₀ s _ line rest hsplit result hok =>
      rename_i hlast
      obtain ⟨ls', rfl, hfront, -, hrest⟩ := front_line hnl hnul hstream hsplit
      rw [Bool.not_eq_true', Bool.not_eq_false] at hok
      have hempty : rest = [] := by
        apply List.eq_nil_of_length_eq_zero
        rw [hfront, List.length_append, List.length_cons] at hlast
        omega
      cases h
      rw [hempty, List.nil_append] at hrest
      rw [← hpieces]
      refine .served (show line :: ls' = [line] ++ ls' from rfl)
        (show buffer :: pieces = [buffer] ++ pieces from rfl) ?_ hrest ?_
      · intro p hp
        rw [List.mem_singleton.mp hp, hfront]
        simp
      · rw [execLines_singleton, ← hok]
  | case5 => cases h
  | case6 buffer reads₀ s _ line rest hsplit result hok hmore reads' =>
      rename_i hrefill
      obtain ⟨ls', rfl, hfront, hdrop, hrest⟩ := front_line hnl hnul hstream hsplit
      have hrest_ne : rest ≠ [] := by
        rintro rfl
        simp [hfront] at hmore
      rw [hdrop, ← hpieces] at hrefill
      have hnul' : ∀ l ∈ ls', nul ∉ l := fun l hl => hnul l (List.mem_cons_of_mem _ hl)
      rcases refill_pieces hnul' hrest hne hrest_ne hrefill with ⟨-, hnone, -⟩ | ⟨-, _, _, -, hnone, -⟩
      · cases hnone
      · cases hnone
  | case7 buffer reads₀ s _ line rest hsplit result hok hmore buffer' reads' hrefill =>
      rename_i ih
      obtain ⟨ls', rfl, hfront, hdrop, hrest⟩ := front_line hnl hnul hstream hsplit
      rw [Bool.not_eq_true', Bool.not_eq_false] at hok
      have hrest_ne : rest ≠ [] := by
        rintro rfl
        simp [hfront] at hmore
      rw [hdrop, ← hpieces] at hrefill
      have hnul' : ∀ l ∈ ls', nul ∉ l := fun l hl => hnul l (List.mem_cons_of_mem _ hl)
      have hnl' : ∀ l ∈ ls', '\n' ∉ l := fun l hl => hnl l (List.mem_cons_of_mem _ hl)
      have hline : execLine srv line s = (true, (execLine srv line s).2) := by rw [← hok]
      refine Progress.cons srv hline ?_
      rw [hfront]
      rcases refill_pieces hnul' hrest hne hrest_ne hrefill with
        ⟨hmem, hbuf, rfl⟩ | ⟨hmem, p, ps, rfl, hbuf, rfl⟩
      · cases hbuf
        exact (ih hnl' hnul' hrest hne hrest_ne rfl h).behind srv hmem
      · cases hbuf
        refine (ih hnl' hnul' ?_ ?_ ?_ rfl h).joined srv hmem
        · rw [List.append_assoc, ← List.flatten_cons]
          exact hrest
        · exact fun q hq => hne q (List.mem_cons_of_mem _ hq)
        · simp [hrest_ne]

/-- A call takes the first piece, and as many more as it needs. -/
theorem getCommand_progress {pieces ls : List (List Char)} {s s' : σ} {ok : Bool}
    {reads : List (Option (List Char))} (hnl : ∀ l ∈ ls, '\n' ∉ l) (hnul : ∀ l ∈ ls, nul ∉ l)
    (hstream : pieces.flatten = stream '\n' ls) (hne : ∀ p ∈ pieces, p ≠ [])
    (hpieces : pieces ≠ [])
    (h : getCommand srv (pieces.map some) s = some (ok, s', reads)) :
    Progress srv ls pieces s ok s' reads := by
  obtain ⟨p, ps, rfl⟩ := List.exists_cons_of_ne_nil hpieces
  rw [List.map_cons, getCommand, readTimeout] at h
  by_cases hfit : p.length ≤ packetSize
  · rw [if_pos hfit] at h
    exact commandLoop_progress srv hnl hnul hstream
      (fun q hq => hne q (List.mem_cons_of_mem _ hq)) (hne p List.mem_cons_self) h
  · rw [if_neg hfit] at h
    cases h

/-- What the calls do together: they serve all lines when every read brings a
newline and every reply can be written. -/
theorem serve_spec {pieces ls : List (List Char)} {s s' : σ} {ok : Bool}
    (hnl : ∀ l ∈ ls, '\n' ∉ l) (hnul : ∀ l ∈ ls, nul ∉ l)
    (hstream : pieces.flatten = stream '\n' ls) (hne : ∀ p ∈ pieces, p ≠ [])
    (h : serve srv (pieces.map some) s = some (ok, s')) :
    (ok = true → (∀ p ∈ pieces, '\n' ∈ p) ∧ execLines srv ls s = (true, s')) ∧
      (ok = false → (∃ p ∈ pieces, '\n' ∉ p) ∨ execLines srv ls s = (false, s')) := by
  generalize hreads : pieces.map some = reads at h
  fun_induction serve srv reads s generalizing pieces ls with
  | case1 s =>
      obtain rfl : pieces = [] := List.map_eq_nil_iff.mp hreads
      obtain rfl : ls = [] := stream_eq_nil hstream.symm
      cases h
      exact ⟨fun _ => ⟨by simp, rfl⟩, nofun⟩
  | case2 => cases h
  | case3 reads s hmore s'' left hcall =>
      cases h
      rw [← hreads] at hcall hmore
      have hpieces : pieces ≠ [] := fun heq => hmore (by rw [heq, List.map_nil])
      refine ⟨nofun, fun _ => ?_⟩
      cases getCommand_progress srv hnl hnul hstream hne hpieces hcall with
      | failed hlines hdone =>
          right
          rw [hlines, execLines_append, hdone]
          rfl
      | cut hp hcut => exact .inl ⟨_, hp, hcut⟩
  | case4 reads s hmore s'' left hcall ih =>
      rw [← hreads] at hcall hmore
      have hpieces : pieces ≠ [] := fun heq => hmore (by rw [heq, List.map_nil])
      cases getCommand_progress srv hnl hnul hstream hne hpieces hcall with
      | @served done lines taken rest first _ hlines hsplit htaken hrest hdone =>
          subst hlines hsplit
          have hall : execLines srv (done ++ lines) s = execLines srv lines s'' := by
            rw [execLines_append, hdone]
            rfl
          have hnl' : ∀ l ∈ lines, '\n' ∉ l := fun l hl => hnl l (List.mem_append_right _ hl)
          have hnul' : ∀ l ∈ lines, nul ∉ l := fun l hl => hnul l (List.mem_append_right _ hl)
          have hne' : ∀ p ∈ rest, p ≠ [] := fun p hp => hne p (List.mem_append_right _ hp)
          obtain ⟨htrue, hfalse⟩ := ih hnl' hnul' hrest hne' rfl h
          rw [hall]
          refine ⟨fun hok => ⟨?_, (htrue hok).2⟩, fun hok => ?_⟩
          · intro p hp
            rcases List.mem_append.mp hp with hp | hp
            · exact htaken p hp
            · exact (htrue hok).1 p hp
          · rcases hfalse hok with ⟨p, hp, hcut⟩ | hfail
            · exact .inl ⟨p, List.mem_append_right _ hp, hcut⟩
            · exact .inr hfail

/-- The commands of a stream of lines are executed as they were sent when
every read brings a newline; a read without one costs the client its
connection. -/
theorem serve_iff_newline_in_reads {lines pieces : List (List Char)} {s : σ}
    (hlines : ∀ l ∈ lines, '\n' ∉ l ∧ nul ∉ l ∧ l.length < packetSize)
    (hstream : pieces.flatten = stream '\n' lines) (hne : ∀ p ∈ pieces, p ≠ [])
    (hreads : serve srv (pieces.map some) s ≠ none) :
    ((∀ p ∈ pieces, '\n' ∈ p) →
        serve srv (pieces.map some) s = some (execLines srv lines s)) ∧
      ∀ s', execLines srv lines s = (true, s') →
        (serve srv (pieces.map some) s = some (true, s') ↔ ∀ p ∈ pieces, '\n' ∈ p) := by
  obtain ⟨⟨ok, s'⟩, hserve⟩ := Option.ne_none_iff_exists'.mp hreads
  obtain ⟨htrue, hfalse⟩ := serve_spec srv (fun l hl => (hlines l hl).1)
    (fun l hl => (hlines l hl).2.1) hstream hne hserve
  have hall : (∀ p ∈ pieces, '\n' ∈ p) → execLines srv lines s = (ok, s') := by
    intro hpieces
    cases ok with
    | true => exact (htrue rfl).2
    | false =>
        rcases hfalse rfl with ⟨p, hp, hcut⟩ | hfail
        · exact absurd (hpieces p hp) hcut
        · exact hfail
  rw [hserve]
  refine ⟨fun hpieces => by rw [hall hpieces], fun s'' hexec => ⟨fun heq => ?_, fun hpieces => ?_⟩⟩
  · cases heq
    exact (htrue rfl).1
  · rw [← hexec, hall hpieces]

/-- A server that notes the lines it executes. -/
def noting : Server (List (List Char)) where
  directives := ["LIST".toList, "SEND_ONCE".toList, "VERSION".toList].map fun name =>
    ⟨name, fun line _ s => (true, s ++ [line])⟩
  sendError line _ s := (true, s ++ [line])

theorem serve_iff_newline_in_reads_noting :
    serve noting (["LIST\nVER".toList, "SION\n".toList].map some) [] =
      some (true, ["LIST\n".toList, "VERSION\n".toList]) := by
  have hlines : ∀ l ∈ ["LIST".toList, "VERSION".toList],
      '\n' ∉ l ∧ nul ∉ l ∧ l.length < packetSize := by decide +kernel
  refine ((serve_iff_newline_in_reads noting hlines ?_ ?_ ?_).2 _ ?_).mpr ?_
  · decide
  · decide
  · decide +kernel
  · decide
  · decide

theorem serve_drops_cut_line :
    ["LI".toList, "ST\n".toList].flatten = stream '\n' ["LIST".toList] ∧
      execLines noting ["LIST".toList] [] = (true, ["LIST\n".toList]) ∧
      serve noting (["LI".toList, "ST\n".toList].map some) [] = some (false, []) := by
  decide +kernel

end Lirc
