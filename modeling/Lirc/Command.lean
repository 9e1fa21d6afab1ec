import Lirc.Library.Lines
import Lirc.Library.CString
import Lirc.Remote

/-!
`get_command` of lircd: the lines a client sends, taken from the reads of its
socket. A read returns some bytes that have come; the buffer holds at most
`packetSize` of them.
-/

namespace Lirc

open CString Lines

/-- `PACKET_SIZE` of lircd. -/
def packetSize : ℕ := 256

/-- `WHITE_SPACE` of lircd. -/
def whiteSpace : List Char := [' ', '\t']

/-- An entry of `directives`: the function gets the line with its newline and
what follows the first word, and returns 0 when the reply cannot be written. -/
structure Directive (σ : Type*) where
  name : List Char
  function : List Char → Option (List Char) → σ → Bool × σ

/-- The parts of lircd that `get_command` calls: the table of directives and
`send_error` with its text. -/
structure Server (σ : Type*) where
  directives : List (Directive σ)
  sendError : List Char → List Char → σ → Bool × σ

variable {σ : Type*} (srv : Server σ)

/-- The removal of a DOS line ending. -/
def stripCR (line : List Char) : List Char :=
  if line.getLast? = some '\r' then line.dropLast else line

/-- The body of the loop of `get_command` up to `skip`. -/
def execLine (line : List Char) (s : σ) : Bool × σ :=
  let backup := line ++ ['\n']
  match strtok whiteSpace (stripCR line) with
  | none => srv.sendError backup "bad send packet\n".toList s
  | some (directive, rest) =>
      match srv.directives.find? fun d => strcaseeq directive d.name with
      | some d => d.function backup (strtokRest rest) s
      | none =>
          srv.sendError backup ("unknown directive: \"".toList ++ directive ++ "\"\n".toList) s

/-- The lines one after the other, up to a reply that cannot be written. -/
def execLines : List (List Char) → σ → Bool × σ
  | [], s => (true, s)
  | line :: lines, s =>
      let (ok, s) := execLine srv line s
      if ok then execLines lines s else (false, s)

/-- `read_timeout`: the next read, `none` for an error. Nothing is left when
the client sends no more before the timeout or has closed the connection. A
read of more than `len` bytes is not possible. -/
def readTimeout (len : ℕ) :
    List (Option (List Char)) → Option (Option (List Char) × List (Option (List Char)))
  | [] => some (some [], [])
  | none :: reads => some (none, reads)
  | some bytes :: reads => if bytes.length ≤ len then some (some bytes, reads) else none

/-- Bytes of the reads that are left. -/
def bytesLeft (reads : List (Option (List Char))) : ℕ :=
  (reads.map fun r => (r.getD []).length).sum

theorem readTimeout_bytesLeft {len : ℕ} {reads reads' : List (Option (List Char))}
    {bytes : List Char} (h : readTimeout len reads = some (some bytes, reads')) :
    bytes.length + bytesLeft reads' = bytesLeft reads := by
  match reads with
  | [] => simp_all [readTimeout]
  | none :: reads => simp [readTimeout] at h
  | some b :: reads =>
      rw [readTimeout] at h
      split at h
      · cases h
        simp [bytesLeft]
      · cases h

/-- What is in the buffer after the bytes behind a line are moved to its
front: they alone when they hold a line, else with the next read. -/
def refill (rest : List Char) (reads : List (Option (List Char))) :
    Option (Option (List Char) × List (Option (List Char))) :=
  if '\n' ∈ cstr rest then some (some rest, reads)
  else
    match readTimeout (packetSize - rest.length) reads with
    | some (some (c :: cs), reads) => some (some (rest ++ c :: cs), reads)
    | result => result

theorem refill_bytesLeft {rest buffer : List Char} {reads reads' : List (Option (List Char))}
    (h : refill rest reads = some (some buffer, reads')) :
    buffer.length + bytesLeft reads' ≤ rest.length + bytesLeft reads := by
  unfold refill at h
  split at h
  · cases h
    exact le_rfl
  · split at h
    · next c cs left hread =>
        have hleft := readTimeout_bytesLeft hread
        cases h
        rw [List.length_append]
        omega
    · have hleft := readTimeout_bytesLeft h
      omega

/-- The loop of `get_command` on the `length` bytes that are in the buffer:
what it returns, and the reads it leaves. -/
def commandLoop (buffer : List Char) (reads : List (Option (List Char))) (s : σ) :
    Option (Bool × σ × List (Option (List Char))) :=
  if buffer = [] then some (false, s, reads)
  else
    match splitLine '\n' (cstr buffer) with
    | none => some (false, s, reads)
    | some (line, _) =>
        let result := execLine srv line s
        if !result.1 then some (false, result.2, reads)
        else if buffer.length ≤ line.length + 1 then some (true, result.2, reads)
        else
          match _hrefill : refill (buffer.drop (line.length + 1)) reads with
          | none => none
          | some (none, reads) => some (true, result.2, reads)
          | some (some buffer, reads) => commandLoop buffer reads result.2
termination_by buffer.length + bytesLeft reads
decreasing_by
  have hbytes := refill_bytesLeft _hrefill
  rw [List.length_drop] at hbytes
  omega

/-- `get_command`. -/
def getCommand (reads : List (Option (List Char))) (s : σ) :
    Option (Bool × σ × List (Option (List Char))) :=
  match readTimeout packetSize reads with
  | none => none
  | some (none, reads) => some (true, s, reads)
  | some (some buffer, reads) => commandLoop srv buffer reads s

theorem readTimeout_length {len : ℕ} {reads reads' : List (Option (List Char))}
    {result : Option (List Char)} (h : readTimeout len reads = some (result, reads'))
    (hne : reads ≠ []) : reads'.length < reads.length := by
  match reads with
  | [] => exact absurd rfl hne
  | none :: reads =>
      cases h
      simp
  | some bytes :: reads =>
      rw [readTimeout] at h
      split at h
      · cases h
        simp
      · cases h

theorem refill_length {rest : List Char} {reads reads' : List (Option (List Char))}
    {result : Option (List Char)} (h : refill rest reads = some (result, reads')) :
    reads'.length ≤ reads.length := by
  have hread : ∀ {len r left}, readTimeout len reads = some (r, left) →
      left.length ≤ reads.length := by
    intro len r left hread
    cases hreads : reads with
    | nil =>
        rw [hreads] at hread
        cases hread
        exact le_rfl
    | cons r' rs =>
        have hlt := readTimeout_length hread (by simp [hreads])
        rw [hreads] at hlt
        omega
  unfold refill at h
  split at h
  · cases h
    exact le_rfl
  · split at h
    · next c cs left hfirst =>
        cases h
        exact hread hfirst
    · exact hread h

theorem commandLoop_length {buffer : List Char} {reads reads' : List (Option (List Char))}
    {s s' : σ} {ok : Bool} (h : commandLoop srv buffer reads s = some (ok, s', reads')) :
    reads'.length ≤ reads.length := by
  fun_induction commandLoop srv buffer reads s with
  | case1 => cases h; exact le_rfl
  | case2 => cases h; exact le_rfl
  | case3 => cases h; exact le_rfl
  | case4 => cases h; exact le_rfl
  | case5 => cases h
  | case6 _ _ _ _ _ _ _ _ _ _ _ hrefill =>
      cases h
      exact refill_length hrefill
  | case7 _ _ _ _ _ _ _ _ _ _ _ _ hrefill ih => exact (ih h).trans (refill_length hrefill)

/-- Every call takes at least one of the reads that are there. -/
theorem getCommand_length {reads reads' : List (Option (List Char))} {s s' : σ} {ok : Bool}
    (h : getCommand srv reads s = some (ok, s', reads')) (hne : reads ≠ []) :
    reads'.length < reads.length := by
  unfold getCommand at h
  split at h
  · cases h
  · next hread =>
      cases h
      exact readTimeout_length hread hne
  · next hread => exact (commandLoop_length srv h).trans_lt (readTimeout_length hread hne)

/-- Repeated calls of `get_command`, one whenever something has come, until
the client is dropped. -/
def serve (reads : List (Option (List Char))) (s : σ) : Option (Bool × σ) :=
  if _hne : reads = [] then some (true, s)
  else
    match _hcall : getCommand srv reads s with
    | none => none
    | some (false, s, _) => some (false, s)
    | some (true, s, reads) => serve reads s
termination_by reads.length
decreasing_by exact getCommand_length srv _hcall _hne

end Lirc
