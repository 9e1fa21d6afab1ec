import Lirc.Receive
import Mathlib.Data.List.Chain
import Mathlib.Data.List.Induction
import Mathlib.Data.Nat.Bitwise
import Mathlib.Tactic.Linarith

/-!
The noise filter of `lirc_serial.c`. A long space is held back: a short pulse that comes
before another long space becomes part of one space with both of them.
-/

namespace Lirc

namespace NoiseFilter

/-- `RBUF_LEN` -/
def rbufLen : ℕ := 256

/-- The static variables of `frbwrite`, the values in `rbuf` that have not been read, and
all that have been written to it; `overrun` is set when one has not been accepted. -/
structure DriverState where
  pulse : ℕ := 0
  space : ℕ := 0
  ptr : ℕ := 0
  rbuf : List ℕ := []
  written : List ℕ := []
  overrun : Bool := false
  deriving DecidableEq, Repr

def rbwrite (s : DriverState) (l : ℕ) : DriverState :=
  if rbufLen ≤ s.rbuf.length then { s with overrun := true }
  else { s with rbuf := s.rbuf ++ [l], written := s.written ++ [l] }

/-- A space is at most `PULSE_MASK`. -/
def clampSpace (space : ℕ) : ℕ := if pulseMask < space then pulseMask else space

/-- What has been held back is written. -/
def releaseHeld (s : DriverState) : DriverState :=
  { rbwrite (rbwrite s s.space) (s.pulse ||| pulseBit) with ptr := 0, pulse := 0 }

def frbwrite (s : DriverState) (l : ℕ) : DriverState :=
  if 0 < s.ptr ∧ isPulse l then
    let s := { s with pulse := s.pulse + (l &&& pulseMask) }
    if 250 < s.pulse then releaseHeld s else s
  else if !isPulse l then
    if s.ptr = 0 then
      if 20000 < l then { s with space := l, ptr := s.ptr + 1 } else rbwrite s l
    else if 20000 < l then
      { s with space := clampSpace (clampSpace (s.space + s.pulse) + l), pulse := 0 }
    else rbwrite (releaseHeld s) l
  else rbwrite s l

/-- A sample of the interrupt handler, or a reader that takes some values out of `rbuf`. -/
inductive Event
  | sample (high : Bool) (len : ℕ)
  | read (count : ℕ)
  deriving DecidableEq, Repr

/-- A pulse or a space of some length. -/
structure Sample where
  high : Bool
  len : ℕ
  deriving DecidableEq, Repr

/-- The value for a sample. -/
def word (x : Sample) : ℕ := if x.high then x.len ||| pulseBit else x.len

def step (s : DriverState) : Event → DriverState
  | .sample high len => frbwrite s (word ⟨high, len⟩)
  | .read count => { s with rbuf := s.rbuf.drop count }

def run (events : List Event) : DriverState := events.foldl step {}

/-- The samples among the events. -/
def samples (events : List Event) : List Sample :=
  events.filterMap fun
    | .sample high len => some ⟨high, len⟩
    | .read _ => none

/-- The time that some samples take. -/
def duration (xs : List Sample) : ℕ := (xs.map Sample.len).sum

/-- The time that the static variables hold. -/
def heldDuration (s : DriverState) : ℕ := if 0 < s.ptr then s.space + s.pulse else 0

/-- Pulses and spaces take turns. -/
def Alternates (xs : List Sample) : Prop := xs.IsChain fun x y => x.high ≠ y.high

/-! ### What is written -/

/-- Long spaces with short pulses between them. -/
inductive Absorbed : List Sample → Prop
  | space {n : ℕ} (hlong : 20000 < n) : Absorbed [⟨false, n⟩]
  | pulse {block : List Sample} {p n : ℕ} (h : Absorbed block) (hshort : p ≤ 250)
      (hlong : 20000 < n) : Absorbed (block ++ [⟨true, p⟩, ⟨false, n⟩])

/-- Samples that are written as one: a single one, or spaces with what they absorb. -/
def IsBlock (block : List Sample) : Prop := (∃ x, block = [x]) ∨ Absorbed block

/-- A block as one sample. -/
def merged (block : List Sample) : Sample where
  high := (block.head?.map Sample.high).getD false
  len := duration block

/-- The samples `outs` are the samples `ins`, but for short pulses between long spaces. -/
def Filters (ins outs : List Sample) : Prop :=
  ∃ blocks : List (List Sample), blocks.flatten = ins ∧ blocks.map merged = outs ∧
    ∀ block ∈ blocks, IsBlock block

/-- What a value stands for. -/
def sampleOf (w : ℕ) : Sample where
  high := isPulse w
  len := w &&& pulseMask

/-- The time that is written and held is the time received, the samples written take
turns, and with what is held they are those received, but for short pulses that lie
between long spaces. -/
structure Keeps (received : List Sample) (s : DriverState) : Prop where
  conserved : duration (s.written.map sampleOf) + heldDuration s = duration received
  alternates : Alternates (s.written.map sampleOf)
  filters : ∃ held, duration held = heldDuration s ∧
    Filters received (s.written.map sampleOf ++ held)

/-! ### Values of samples -/

section Word

variable {x : Sample}

theorem testBit_word (h : x.len < 2 ^ 24) (i : ℕ) :
    (word x).testBit i = if i = 24 then x.high else x.len.testBit i := by
  have hbit : pulseBit = 2 ^ 24 := rfl
  have hlen : x.len.testBit 24 = false := Nat.testBit_lt_two_pow h
  rw [word]
  cases hhigh : x.high with
  | false =>
      rw [if_neg Bool.false_ne_true]
      split
      · rw [‹i = 24›, hlen]
      · rfl
  | true =>
      rw [if_pos rfl, Nat.testBit_or, hbit, Nat.testBit_two_pow]
      split
      · rw [‹i = 24›, hlen]
        rfl
      · rw [decide_eq_false (by omega), Bool.or_false]

theorem isPulse_word (h : x.len < 2 ^ 24) : isPulse (word x) = x.high := by
  have hbit : pulseBit = 2 ^ 24 := rfl
  rw [isPulse, hbit, Nat.and_two_pow, testBit_word h, if_pos rfl]
  cases x.high <;> rfl

theorem word_and_mask (h : x.len < 2 ^ 24) : word x &&& pulseMask = x.len := by
  have hmask : pulseMask = 2 ^ 24 - 1 := rfl
  apply Nat.eq_of_testBit_eq
  intro i
  rw [hmask, Nat.testBit_and, Nat.testBit_two_pow_sub_one, testBit_word h]
  by_cases hi : i < 24
  · rw [if_neg (by omega), decide_eq_true hi, Bool.and_true]
  · have hlen : x.len.testBit i = false :=
      Nat.testBit_lt_two_pow (Nat.lt_of_lt_of_le h (Nat.pow_le_pow_right (by decide) (by omega)))
    rw [decide_eq_false hi, Bool.and_false, hlen]

theorem sampleOf_word (h : x.len < 2 ^ 24) : sampleOf (word x) = x := by
  rw [sampleOf, isPulse_word h, word_and_mask h]

end Word

/-! ### Blocks -/

theorem duration_append (xs ys : List Sample) :
    duration (xs ++ ys) = duration xs + duration ys := by
  rw [duration, List.map_append, List.sum_append, duration, duration]

theorem Absorbed.head {block : List Sample} (h : Absorbed block) :
    block.head?.map Sample.high = some false := by
  induction h with
  | space hlong => rfl
  | @pulse block p n h hshort hlong ih =>
      rw [List.head?_append]
      obtain ⟨x, hx, -⟩ := Option.map_eq_some_iff.mp ih
      rw [hx] at ih ⊢
      exact ih

theorem Absorbed.merged_eq {block : List Sample} (h : Absorbed block) :
    merged block = ⟨false, duration block⟩ := by
  rw [merged, h.head]
  rfl

theorem merged_singleton (x : Sample) : merged [x] = x := by
  rw [merged, duration]
  exact congrArg (Sample.mk x.high) (List.sum_singleton)

/-- Whether the last of some samples is a pulse. -/
def lastHigh (xs : List Sample) : Option Bool := xs.getLast?.map Sample.high

/-- The samples received in blocks. -/
structure Blocks (received : List Sample) (blocks : List (List Sample)) : Prop where
  flatten : blocks.flatten = received
  isBlock : ∀ block ∈ blocks, IsBlock block
  alternates : Alternates (blocks.map merged)
  last : lastHigh (blocks.map merged) = lastHigh received

theorem alternates_append_singleton {xs : List Sample} {x : Sample} :
    Alternates (xs ++ [x]) ↔ Alternates xs ∧ ∀ b ∈ lastHigh xs, b ≠ x.high := by
  rw [Alternates, List.isChain_append, Alternates, lastHigh]
  refine and_congr_right fun _ => ?_
  rw [and_iff_right (List.isChain_singleton x)]
  constructor
  · intro h b hb
    obtain ⟨y, hy, rfl⟩ := Option.map_eq_some_iff.mp hb
    exact h y hy x rfl
  · intro h y hy z hz
    rw [← Option.some.inj hz]
    exact h y.high (Option.map_eq_some_iff.mpr ⟨y, hy, rfl⟩)

theorem lastHigh_append_singleton (xs : List Sample) (x : Sample) :
    lastHigh (xs ++ [x]) = some x.high := by
  rw [lastHigh, List.getLast?_append_of_ne_nil _ (List.cons_ne_nil x []), List.getLast?_singleton]
  rfl

section Blocks

variable {received : List Sample} {blocks : List (List Sample)} {x : Sample}

/-- The next sample is a block of its own. -/
theorem Blocks.snoc (h : Blocks received blocks) (hnext : Alternates (received ++ [x])) :
    Blocks (received ++ [x]) (blocks ++ [[x]]) := by
  have hlast := (alternates_append_singleton.mp hnext).2
  refine ⟨?_, ?_, ?_, ?_⟩
  · rw [List.flatten_append, h.flatten, List.flatten_singleton]
  · intro block hblock
    rcases List.mem_append.mp hblock with hblock | hblock
    · exact h.isBlock block hblock
    · exact .inl ⟨x, List.mem_singleton.mp hblock⟩
  · rw [List.map_append, List.map_singleton, merged_singleton, alternates_append_singleton, h.last]
    exact ⟨h.alternates, hlast⟩
  · rw [List.map_append, List.map_singleton, merged_singleton, lastHigh_append_singleton,
      lastHigh_append_singleton]

/-- A short pulse becomes part of the spaces around it. -/
theorem Blocks.absorb {block : List Sample} {p n : ℕ}
    (h : Blocks received (blocks ++ [block, [⟨true, p⟩]])) (hblock : Absorbed block)
    (hshort : p ≤ 250) (hlong : 20000 < n) :
    Blocks (received ++ [⟨false, n⟩]) (blocks ++ [block ++ [⟨true, p⟩, ⟨false, n⟩]]) := by
  have habsorbed := hblock.pulse hshort hlong
  refine ⟨?_, ?_, ?_, ?_⟩
  · rw [← h.flatten, List.flatten_append, List.flatten_append, List.append_assoc]
    congr 1
    simp only [List.flatten_cons, List.flatten_nil, List.append_assoc, List.cons_append,
      List.nil_append, List.append_nil]
  · intro b hb
    rcases List.mem_append.mp hb with hb | hb
    · exact h.isBlock b (List.mem_append_left _ hb)
    · rw [List.mem_singleton.mp hb]
      exact .inr habsorbed
  · have hpairs : blocks ++ [block, [⟨true, p⟩]] = (blocks ++ [block]) ++ [[⟨true, p⟩]] := by
      rw [List.append_assoc, List.singleton_append]
    have halt := h.alternates
    rw [hpairs, List.map_append] at halt
    have hleft := List.IsChain.left_of_append halt
    rw [List.map_append, List.map_singleton, hblock.merged_eq] at hleft
    rw [List.map_append, List.map_singleton, habsorbed.merged_eq]
    obtain ⟨hinit, hlast⟩ := alternates_append_singleton.mp hleft
    exact alternates_append_singleton.mpr ⟨hinit, hlast⟩
  · rw [List.map_append, List.map_singleton, habsorbed.merged_eq, lastHigh_append_singleton,
      lastHigh_append_singleton]

end Blocks

/-! ### The states of the filter -/

/-- The blocks that the static variables hold. -/
inductive HeldBy (s : DriverState) : List (List Sample) → Prop
  | idle (hptr : s.ptr = 0) (hpulse : s.pulse = 0) : HeldBy s []
  | space {block : List Sample} (hptr : s.ptr = 1) (hpulse : s.pulse = 0)
      (hblock : Absorbed block) (hspace : s.space = duration block) : HeldBy s [block]
  | pulse {block : List Sample} (hptr : s.ptr = 1) (hshort : s.pulse ≤ 250)
      (hblock : Absorbed block) (hspace : s.space = duration block) :
      HeldBy s [block, [⟨true, s.pulse⟩]]

/-- What has been received is written block by block, but for the blocks that are held. -/
structure Filtering (received : List Sample) (s : DriverState) (done held : List (List Sample)) :
    Prop where
  blocks : Blocks received (done ++ held)
  heldBy : HeldBy s held
  written : s.written = done.map fun block => word (merged block)
  bounded : ∀ block ∈ done, (merged block).len < 2 ^ 24

/-- A value is accepted, and so have been all before it. -/
theorem rbwrite_accepted {s : DriverState} {l : ℕ} (h : (rbwrite s l).overrun = false) :
    s.overrun = false ∧
      rbwrite s l = { s with rbuf := s.rbuf ++ [l], written := s.written ++ [l] } := by
  rw [rbwrite] at h ⊢
  split at h
  · cases h
  · rw [if_neg ‹_›]
    exact ⟨h, rfl⟩

theorem releaseHeld_accepted {s : DriverState} (h : (releaseHeld s).overrun = false) :
    s.overrun = false ∧ (releaseHeld s).written = s.written ++ [s.space, s.pulse ||| pulseBit] ∧
      (releaseHeld s).ptr = 0 ∧ (releaseHeld s).pulse = 0 := by
  change (rbwrite (rbwrite s s.space) (s.pulse ||| pulseBit)).overrun = false at h
  obtain ⟨hfirst, hsecond⟩ := rbwrite_accepted h
  obtain ⟨hs, hspace⟩ := rbwrite_accepted hfirst
  refine ⟨hs, ?_, rfl, rfl⟩
  rw [releaseHeld, hsecond, hspace]
  show (s.written ++ [s.space]) ++ [s.pulse ||| pulseBit] = _
  rw [List.append_assoc, List.singleton_append]

section Calls

variable {s : DriverState} {x : Sample}

theorem frbwrite_idle (hlen : x.len < 2 ^ 24) (hptr : s.ptr = 0) :
    frbwrite s (word x) = if x.high = false ∧ 20000 < x.len then { s with space := x.len, ptr := 1 }
      else rbwrite s (word x) := by
  rw [frbwrite, isPulse_word hlen, if_neg fun h => absurd h.1 (by omega)]
  cases hhigh : x.high with
  | true => rfl
  | false =>
      have hword : word x = x.len := if_neg (by rw [hhigh]; exact Bool.false_ne_true)
      rw [Bool.not_false, if_pos rfl, if_pos hptr, hword, hptr]
      simp only [true_and]

theorem frbwrite_pulse (hlen : x.len < 2 ^ 24) (hptr : s.ptr = 1) (hhigh : x.high = true) :
    frbwrite s (word x) = if 250 < s.pulse + x.len then
      releaseHeld { s with pulse := s.pulse + x.len } else { s with pulse := s.pulse + x.len } := by
  rw [frbwrite, isPulse_word hlen, hhigh, if_pos ⟨by omega, rfl⟩, word_and_mask hlen]

theorem frbwrite_space (hlen : x.len < 2 ^ 24) (hptr : s.ptr = 1) (hhigh : x.high = false) :
    frbwrite s (word x) = if 20000 < x.len then
      { s with space := clampSpace (clampSpace (s.space + s.pulse) + x.len), pulse := 0 }
      else rbwrite (releaseHeld s) (word x) := by
  have hword : word x = x.len := if_neg (by rw [hhigh]; exact Bool.false_ne_true)
  rw [frbwrite, isPulse_word hlen, hhigh, if_neg fun h => absurd h.2 Bool.false_ne_true,
    Bool.not_false, if_pos rfl, if_neg (by omega), hword]

/-- A space that does not reach `PULSE_MASK` has not been clamped. -/
theorem clampSpace_lt {a : ℕ} (h : clampSpace a < pulseMask) : clampSpace a = a := by
  rw [clampSpace] at h ⊢
  split at h
  · omega
  · rw [if_neg ‹_›]

/-- The space after a short pulse has been absorbed. -/
theorem clampSpace_sum {a n : ℕ} (h : clampSpace (clampSpace a + n) < pulseMask) :
    clampSpace (clampSpace a + n) = a + n := by
  have hsum := clampSpace_lt h
  rw [hsum] at h ⊢
  rw [clampSpace_lt (by omega)]

end Calls

/-- What a single sample is written as. -/
theorem merged_singleton_lt {x : Sample} (h : x.len < 2 ^ 24) : (merged [x]).len < 2 ^ 24 := by
  rw [merged_singleton]
  exact h

section Step

variable {received : List Sample} {s : DriverState} {x : Sample} {done : List (List Sample)}

/-- A call while nothing is held. -/
theorem Filtering.step_idle (h : Filtering received s done []) (hptr : s.ptr = 0)
    (hpulse : s.pulse = 0) (hnext : Alternates (received ++ [x])) (hlen : x.len < 2 ^ 24)
    (hroom : (frbwrite s (word x)).overrun = false) :
    ∃ done' held', Filtering (received ++ [x]) (frbwrite s (word x)) done' held' := by
  have hblocks := h.blocks.snoc hnext
  rw [List.append_nil] at hblocks
  rw [frbwrite_idle hlen hptr] at hroom ⊢
  by_cases hlong : x.high = false ∧ 20000 < x.len
  · have hx : x = ⟨false, x.len⟩ := by
      rw [← hlong.1]
    have hblock : Absorbed [x] := by
      rw [hx]
      exact .space hlong.2
    rw [if_pos hlong]
    refine ⟨done, [[x]], hblocks, .space rfl hpulse hblock ?_, h.written, h.bounded⟩
    exact (Nat.add_zero x.len).symm
  · rw [if_neg hlong] at hroom ⊢
    obtain ⟨-, hwrite⟩ := rbwrite_accepted hroom
    rw [hwrite]
    refine ⟨done ++ [[x]], [], by rw [List.append_nil]; exact hblocks, .idle hptr hpulse, ?_, ?_⟩
    · show s.written ++ [word x] = _
      rw [h.written, List.map_append, List.map_singleton, merged_singleton]
    · intro block hblock
      rcases List.mem_append.mp hblock with hblock | hblock
      · exact h.bounded block hblock
      · rw [List.mem_singleton.mp hblock]
        exact merged_singleton_lt hlen

/-- What is held is written. -/
theorem Filtering.release {block : List Sample}
    (hblocks : Blocks received (done ++ [block, [⟨true, s.pulse⟩]])) (hblock : Absorbed block)
    (hspace : s.space = duration block) (hlt : s.space < pulseMask) (hpulse : s.pulse < 2 ^ 24)
    (hwritten : s.written = done.map fun block => word (merged block))
    (hbounded : ∀ block ∈ done, (merged block).len < 2 ^ 24)
    (hroom : (releaseHeld s).overrun = false) :
    Filtering received (releaseHeld s) (done ++ [block, [⟨true, s.pulse⟩]]) [] := by
  have hmask : pulseMask = 2 ^ 24 - 1 := rfl
  obtain ⟨-, hrelease, hptr, hzero⟩ := releaseHeld_accepted hroom
  refine ⟨by rw [List.append_nil]; exact hblocks, .idle hptr hzero, ?_, ?_⟩
  · rw [hrelease, hwritten, List.map_append, List.map_cons, List.map_singleton,
      hblock.merged_eq, merged_singleton, hspace]
    rfl
  · intro b hb
    rcases List.mem_append.mp hb with hb | hb
    · exact hbounded b hb
    · rcases List.mem_pair.mp hb with rfl | rfl
      · rw [hblock.merged_eq]
        show duration b < 2 ^ 24
        omega
      · exact merged_singleton_lt hpulse

/-- A call while a space is held: a pulse comes. -/
theorem Filtering.step_space {block : List Sample} (h : Filtering received s done [block])
    (hptr : s.ptr = 1) (hpulse : s.pulse = 0) (hblock : Absorbed block)
    (hspace : s.space = duration block) (hlt : s.space < pulseMask)
    (hnext : Alternates (received ++ [x])) (hlen : x.len < 2 ^ 24)
    (hroom : (frbwrite s (word x)).overrun = false) :
    ∃ done' held', Filtering (received ++ [x]) (frbwrite s (word x)) done' held' := by
  have hhigh : x.high = true := by
    have hlast := h.blocks.last
    rw [List.map_append, List.map_singleton, hblock.merged_eq, lastHigh_append_singleton] at hlast
    have hne := (alternates_append_singleton.mp hnext).2 false hlast.symm
    exact (Bool.not_eq_false _).mp fun heq => hne heq.symm
  have hx : x = ⟨true, s.pulse + x.len⟩ := by
    rw [hpulse, Nat.zero_add, ← hhigh]
  have hblocks := h.blocks.snoc hnext
  rw [List.append_assoc, List.singleton_append, hx] at hblocks
  rw [← hx] at hblocks
  rw [frbwrite_pulse hlen hptr hhigh] at hroom ⊢
  have hblocks' : Blocks (received ++ [x]) (done ++ [block, [⟨true, s.pulse + x.len⟩]]) := by
    rw [← hx]
    exact hblocks
  split at hroom
  · rw [if_pos ‹_›]
    exact ⟨_, _, Filtering.release (s := { s with pulse := s.pulse + x.len }) hblocks' hblock hspace
      hlt (by rw [hpulse, Nat.zero_add]; exact hlen) h.written h.bounded hroom⟩
  · rw [if_neg ‹_›]
    exact ⟨done, [block, [⟨true, s.pulse + x.len⟩]], hblocks',
      .pulse (s := { s with pulse := s.pulse + x.len }) hptr (Nat.le_of_not_lt ‹_›) hblock hspace,
      h.written, h.bounded⟩

/-- A call while a space and a short pulse are held: a space comes. -/
theorem Filtering.step_pulse {block : List Sample}
    (h : Filtering received s done [block, [⟨true, s.pulse⟩]]) (hptr : s.ptr = 1)
    (hshort : s.pulse ≤ 250) (hblock : Absorbed block) (hspace : s.space = duration block)
    (hlt : s.space < pulseMask) (hnext : Alternates (received ++ [x])) (hlen : x.len < 2 ^ 24)
    (hroom : (frbwrite s (word x)).overrun = false)
    (hclamp : (frbwrite s (word x)).space < pulseMask) :
    ∃ done' held', Filtering (received ++ [x]) (frbwrite s (word x)) done' held' := by
  have hhigh : x.high = false := by
    have hlast := h.blocks.last
    have hpair : done ++ [block, [⟨true, s.pulse⟩]] = (done ++ [block]) ++ [[⟨true, s.pulse⟩]] := by
      rw [List.append_assoc, List.singleton_append]
    rw [hpair, List.map_append, List.map_singleton, merged_singleton,
      lastHigh_append_singleton] at hlast
    have hne := (alternates_append_singleton.mp hnext).2 true hlast.symm
    exact (Bool.not_eq_true _).mp fun heq => hne heq.symm
  have hx : x = ⟨false, x.len⟩ := by
    rw [← hhigh]
  rw [frbwrite_space hlen hptr hhigh] at hroom hclamp ⊢
  by_cases hlong : 20000 < x.len
  · rw [if_pos hlong] at hclamp ⊢
    change clampSpace (clampSpace (s.space + s.pulse) + x.len) < pulseMask at hclamp
    have hblocks := h.blocks.absorb hblock hshort hlong
    rw [← hx] at hblocks
    refine ⟨done, _, hblocks, .space hptr rfl ?_ ?_, h.written, h.bounded⟩
    · rw [hx]
      exact hblock.pulse hshort hlong
    · show clampSpace (clampSpace (s.space + s.pulse) + x.len) = _
      rw [clampSpace_sum hclamp, hspace, duration_append, Nat.add_assoc]
      rfl
  · rw [if_neg hlong] at hroom ⊢
    have hrelease := Filtering.release h.blocks hblock hspace hlt (by omega) h.written h.bounded
      (rbwrite_accepted hroom).1
    have hcall : frbwrite (releaseHeld s) (word x) = rbwrite (releaseHeld s) (word x) := by
      rw [frbwrite_idle hlen rfl, if_neg fun hand => hlong hand.2]
    rw [← hcall] at hroom ⊢
    exact hrelease.step_idle rfl rfl hnext hlen hroom

/-- What one call writes and holds. -/
theorem Filtering.step {held : List (List Sample)} (h : Filtering received s done held)
    (hlt : s.space < pulseMask) (hnext : Alternates (received ++ [x])) (hlen : x.len < 2 ^ 24)
    (hroom : (frbwrite s (word x)).overrun = false)
    (hclamp : (frbwrite s (word x)).space < pulseMask) :
    ∃ done' held', Filtering (received ++ [x]) (frbwrite s (word x)) done' held' := by
  cases h.heldBy with
  | idle hptr hpulse => exact h.step_idle hptr hpulse hnext hlen hroom
  | space hptr hpulse hblock hspace =>
      exact h.step_space hptr hpulse hblock hspace hlt hnext hlen hroom
  | pulse hptr hshort hblock hspace =>
      exact h.step_pulse hptr hshort hblock hspace hlt hnext hlen hroom hclamp

end Step

/-! ### Runs of the driver -/

/-- A value that has not been accepted is not forgotten. -/
theorem frbwrite_overrun {s : DriverState} {l : ℕ} (h : (frbwrite s l).overrun = false) :
    s.overrun = false := by
  rw [frbwrite] at h
  split at h
  · dsimp only at h
    split at h
    · exact (releaseHeld_accepted h).1
    · exact h
  · split at h
    · split at h
      · split at h
        · exact h
        · exact (rbwrite_accepted h).1
      · split at h
        · exact h
        · exact (releaseHeld_accepted (rbwrite_accepted h).1).1
    · exact (rbwrite_accepted h).1

theorem run_append (events : List Event) (e : Event) :
    run (events ++ [e]) = NoiseFilter.step (run events) e := by
  rw [run, List.foldl_append]
  rfl

theorem samples_append (events : List Event) (e : Event) :
    samples (events ++ [e]) = samples events ++ samples [e] :=
  List.filterMap_append

/-- The blocks of a whole run. -/
theorem run_filtering (events : List Event) (halt : Alternates (samples events))
    (hlen : ∀ x ∈ samples events, x.len < pulseMask) (hroom : (run events).overrun = false)
    (hspace : ∀ before after, events = before ++ after → (run before).space < pulseMask) :
    ∃ done held, Filtering (samples events) (run events) done held := by
  have hmask : pulseMask = 2 ^ 24 - 1 := rfl
  induction events using List.reverseRecOn with
  | nil =>
      exact ⟨[], [], ⟨rfl, nofun, List.isChain_nil, rfl⟩, .idle rfl rfl, rfl, nofun⟩
  | append_singleton events e ih =>
      have hinit : ∀ before after, events = before ++ after → (run before).space < pulseMask := by
        intro before after heq
        exact hspace before (after ++ [e]) (by rw [heq, List.append_assoc])
      have hlast := hspace (events ++ [e]) [] (List.append_nil _).symm
      rw [samples_append] at halt hlen ⊢
      rw [run_append] at hroom hlast ⊢
      have hlen' : ∀ x ∈ samples events, x.len < pulseMask := fun x hx =>
        hlen x (List.mem_append_left _ hx)
      cases e with
      | sample high len =>
          obtain ⟨done, held, h⟩ := ih (List.IsChain.left_of_append halt) hlen'
            (frbwrite_overrun hroom) hinit
          have hx := hlen ⟨high, len⟩ (List.mem_append_right _ (List.mem_singleton_self _))
          exact h.step (hinit events [] (List.append_nil _).symm) halt (by omega) hroom hlast
      | read count =>
          obtain ⟨done, held, h⟩ := ih (List.IsChain.left_of_append halt) hlen' hroom hinit
          change ∃ done held, Filtering (samples events ++ []) _ done held
          rw [List.append_nil]
          refine ⟨done, held, h.blocks, ?_, h.written, h.bounded⟩
          cases h.heldBy with
          | idle hptr hpulse => exact .idle hptr hpulse
          | space hptr hpulse hblock hspace => exact .space hptr hpulse hblock hspace
          | pulse hptr hshort hblock hspace =>
              exact .pulse (s := NoiseFilter.step (run events) (.read count)) hptr hshort hblock
                hspace

theorem duration_flatten (blocks : List (List Sample)) :
    duration blocks.flatten = duration (blocks.map merged) := by
  induction blocks with
  | nil => rfl
  | cons block blocks ih =>
      rw [List.flatten_cons, duration_append, ih]
      rfl

theorem HeldBy.duration_eq {s : DriverState} {held : List (List Sample)} (h : HeldBy s held) :
    duration (held.map merged) = heldDuration s := by
  rw [← duration_flatten, heldDuration]
  cases h with
  | idle hptr hpulse =>
      rw [if_neg (by omega)]
      rfl
  | space hptr hpulse hblock hspace =>
      rw [if_pos (by omega), List.flatten_singleton, hpulse, hspace, Nat.add_zero]
  | pulse hptr hshort hblock hspace =>
      rw [if_pos (by omega), List.flatten_cons, List.flatten_singleton, duration_append, hspace]
      rfl

theorem Filtering.keeps {received : List Sample} {s : DriverState}
    {done held : List (List Sample)} (h : Filtering received s done held) : Keeps received s := by
  have hwritten : s.written.map sampleOf = done.map merged := by
    rw [h.written, List.map_map]
    apply List.map_congr_left
    intro block hblock
    exact sampleOf_word (h.bounded block hblock)
  have hblocks := h.blocks
  refine ⟨?_, ?_, held.map merged, h.heldBy.duration_eq, done ++ held, hblocks.flatten, ?_,
    hblocks.isBlock⟩
  · rw [hwritten, ← h.heldBy.duration_eq, ← duration_append, ← List.map_append, ← duration_flatten,
      hblocks.flatten]
  · have halternates := hblocks.alternates
    rw [List.map_append] at halternates
    rw [hwritten]
    exact List.IsChain.left_of_append halternates
  · rw [hwritten, List.map_append]

/-- The noise filter loses no time: at any time of a run in which the buffer does not
overrun and no space grows to `PULSE_MASK`. -/
theorem frbwrite_keeps {events : List Event} (halternates : Alternates (samples events))
    (hlen : ∀ x ∈ samples events, x.len < pulseMask) (hroom : (run events).overrun = false)
    (hspace : ∀ before after, events = before ++ after → (run before).space < pulseMask) :
    Keeps (samples events) (run events) := by
  obtain ⟨done, held, h⟩ := run_filtering events halternates hlen hroom hspace
  exact h.keeps

/-- A pulse of 100 µs between two long spaces, and what follows. -/
def noisyEvents : List Event :=
  [.sample false 30000, .sample true 100, .sample false 40000, .read 1, .sample true 560,
    .sample false 560]

example :
    (run noisyEvents).written.map sampleOf = [⟨false, 70100⟩, ⟨true, 560⟩, ⟨false, 560⟩] := by
  decide

theorem frbwrite_keeps_noisy : Keeps (samples noisyEvents) (run noisyEvents) := by
  refine frbwrite_keeps ?_ (by decide) (by decide) ?_
  · show List.IsChain _ [_, _, _, _, _]
    decide
  · intro before after heq
    have htake : before = noisyEvents.take before.length := by
      rw [heq, List.take_left]
    have hle : before.length < 7 := by
      have hlen := congrArg List.length heq
      rw [List.length_append] at hlen
      change 6 = _ at hlen
      omega
    have hall : ∀ n < 7, (run (noisyEvents.take n)).space < pulseMask := by decide
    rw [htake]
    exact hall _ hle

end NoiseFilter

end Lirc
