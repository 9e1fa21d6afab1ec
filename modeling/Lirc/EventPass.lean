import Lirc.Library.Run
import Lirc.Lircrc

/-!
The pass of an event over the entries of a lircrc file, spread over several
calls of `lirc_code2char` by way of `config->next`.

What a call does on its way is written down as a list of acts, beside the
result it has anyway.
-/

namespace Lirc

open Transition

/-- What happens to the entries and modes of a configuration. -/
inductive RcAct where
  /-- `lirc_iscode` is applied to an entry. -/
  | applied (i : ℕ)
  /-- A mode is left in `lirc_clearmode`. -/
  | left (mode : Name)
  /-- An entry is executed, with the string it gives. -/
  | executed (i : ℕ) (string : Option (List Char))
  deriving DecidableEq, Repr

/-- What `lirc_execute` does for the entry `i`. -/
def lircExecuteActs (lircProg : Option Name) (i : ℕ) (c : RcConfig) : List RcAct :=
  match c.entries[i]? with
  | none => []
  | some scan =>
      (if scan.flags.mode then c.currentMode.toList.map .left else []) ++
        [.executed i ((lircExecute lircProg i c).1.map RcFound.string)]

/-- One turn of the loop of `lirc_code2char_internal`: what it does, whether the
loop ends with it, and the variables behind it. -/
structure CodeTurn where
  acts : List RcAct
  ends : Bool := false
  quitHappened : Bool
  s : Option RcFound
  config : RcConfig

/-- The turn for the entry `scan` at `i`. -/
def codeTurn (lircProg : Option Name) (remote button : Name) (rep i : ℕ) (quitHappened : Bool)
    (s : Option RcFound) (c : RcConfig) (scan : RcEntry) : CodeTurn :=
  let (execLevel, scan) := scan.isCode remote button rep
  let c := c.setEntry i scan
  if 0 < execLevel && c.inMode scan && !quitHappened then
    let (acts, s, c) :=
      if 1 < execLevel then (lircExecuteActs lircProg i c, lircExecute lircProg i c)
      else ([], none, c)
    if scan.flags.quit then
      { acts := .applied i :: acts, quitHappened := true, s,
        config := { c with next := c.entries.length } }
    else
      { acts := .applied i :: acts, ends := s.isSome, quitHappened, s,
        config := if s.isSome then { c with next := i + 1 } else c }
  else { acts := [.applied i], quitHappened, s, config := c }

/-- The loop of `lirc_code2char_internal`, with what it does. -/
def codeLoopTraced (lircProg : Option Name) (remote button : Name) (rep : ℕ) :
    ℕ → ℕ → Bool → Option RcFound → RcConfig → List RcAct × Option RcFound × RcConfig
  | 0, _, _, s, c => ([], s, if s.isSome then c else { c with next := 0 })
  | n + 1, i, quitHappened, s, c =>
      match c.entries[i]? with
      | none => ([], s, if s.isSome then c else { c with next := 0 })
      | some scan =>
          let turn := codeTurn lircProg remote button rep i quitHappened s c scan
          if turn.ends then (turn.acts, turn.s, turn.config)
          else
            let (later, result) :=
              codeLoopTraced lircProg remote button rep n (i + 1) turn.quitHappened turn.s
                turn.config
            (turn.acts ++ later, result)

/-- Writing down what the loop does changes nothing in its result. -/
theorem codeLoopTraced_result (lircProg : Option Name) (remote button : Name) (rep n i : ℕ)
    (quitHappened : Bool) (s : Option RcFound) (c : RcConfig) :
    (codeLoopTraced lircProg remote button rep n i quitHappened s c).2 =
      codeLoop lircProg remote button rep n i quitHappened s c := by
  induction n generalizing i quitHappened s c with
  | zero => rfl
  | succ n ih =>
      rw [codeLoopTraced, codeLoop]
      cases hscan : c.entries[i]? with
      | none => rfl
      | some scan =>
          dsimp only
          rw [codeTurn]
          generalize scan.isCode remote button rep = level
          obtain ⟨execLevel, scan'⟩ := level
          dsimp only
          by_cases hdue :
              (0 < execLevel && (c.setEntry i scan').inMode scan' && !quitHappened) = true
          · simp only [if_pos hdue]
            by_cases hexec : 1 < execLevel
            · simp only [if_pos hexec]
              by_cases hquit : scan'.flags.quit = true
              · simp only [if_pos hquit, Bool.false_eq_true, if_false]
                exact ih ..
              · cases hs : (lircExecute lircProg i (c.setEntry i scan')).1 with
                | none => simp [hquit, ih]
                | some found => simp [hquit]
            · simp only [if_neg hexec]
              by_cases hquit : scan'.flags.quit = true
              · simp only [if_pos hquit, Bool.false_eq_true, if_false]
                exact ih ..
              · simp [hquit, ih]
          · simp only [if_neg hdue, Bool.false_eq_true, if_false]
            exact ih ..

/-- `lirc_code2char_internal`, with what it does. -/
def code2charTraced (lircProg : Option Name) (code : List Char) (c : RcConfig) :
    List RcAct × Option RcFound × RcConfig :=
  match scanReps code with
  | none => ([], none, { c with next := 0 })
  | some rep =>
      match eventNames code with
      | none => ([], none, c)
      | some (button, remote) =>
          codeLoopTraced lircProg remote button rep (c.entries.length - c.next) c.next false none c

theorem code2charTraced_result (lircProg : Option Name) (code : List Char) (c : RcConfig) :
    (code2charTraced lircProg code c).2 = code2charInternal lircProg code c := by
  rw [code2charTraced, code2charInternal]
  cases scanReps code with
  | none => rfl
  | some rep =>
      cases eventNames code with
      | none => rfl
      | some names => exact codeLoopTraced_result ..

/-! ### One turn -/

/-- The entries `lirc_iscode` is applied to, in order. -/
def appliedTo (acts : List RcAct) : List ℕ :=
  acts.filterMap fun
    | .applied i => some i
    | _ => none

theorem appliedTo_append (acts acts' : List RcAct) :
    appliedTo (acts ++ acts') = appliedTo acts ++ appliedTo acts' := List.filterMap_append

theorem appliedTo_applied (i : ℕ) (acts : List RcAct) :
    appliedTo (.applied i :: acts) = i :: appliedTo acts := rfl

@[simp] theorem RcConfig.setEntry_length (c : RcConfig) (i : ℕ) (e : RcEntry) :
    (c.setEntry i e).entries.length = c.entries.length := List.length_set

@[simp] theorem RcConfig.setEntry_next (c : RcConfig) (i : ℕ) (e : RcEntry) :
    (c.setEntry i e).next = c.next := rfl

@[simp] theorem RcConfig.clearMode_length (c : RcConfig) :
    c.clearMode.entries.length = c.entries.length := by
  rw [RcConfig.clearMode]
  cases c.currentMode with
  | none => rfl
  | some m => exact List.length_map _

/-- The modes and entries when `lirc_execute` turns to its string. -/
def modeChanged (scan : RcEntry) (c : RcConfig) : RcConfig :=
  let c := if scan.flags.mode then c.clearMode else c
  if scan.changeMode.isSome then { c with currentMode := scan.changeMode } else c

theorem modeChanged_entries (scan : RcEntry) (c : RcConfig) :
    (modeChanged scan c).entries = (if scan.flags.mode then c.clearMode else c).entries := by
  rw [modeChanged]
  cases scan.changeMode <;> rfl

/-- The end of `lirc_execute`: the string of the entry, unless it is held back. -/
def giveString (lircProg : Option Name) (i : ℕ) (doOnce : Bool) (scan : RcEntry) (c : RcConfig) :
    Option RcFound × RcConfig :=
  match scan.nextConfig, scan.prog with
  | s :: rest, some prog =>
      if lircProg.all (strcaseeq prog) && doOnce then
        (some ⟨prog, s⟩,
          c.setEntry i { scan with nextConfig := if rest = [] then scan.config else rest })
      else (none, c.setEntry i scan)
  | _, _ => (none, c.setEntry i scan)

theorem lircExecute_eq {lircProg : Option Name} {i : ℕ} {c : RcConfig} {scan : RcEntry}
    (hscan : c.entries[i]? = some scan) :
    lircExecute lircProg i c =
      giveString lircProg i (onceFlags (((modeChanged scan c).entries[i]?).getD scan)).1
        (onceFlags (((modeChanged scan c).entries[i]?).getD scan)).2 (modeChanged scan c) := by
  rw [lircExecute, hscan]
  rfl

/-- Giving a string changes nothing but the string that comes next; there is
one as long as the entry has any. -/
theorem giveString_config (lircProg : Option Name) (i : ℕ) (doOnce : Bool) (scan : RcEntry)
    (c : RcConfig) : ∃ strings, (giveString lircProg i doOnce scan c).2 =
      c.setEntry i { scan with nextConfig := strings } ∧
        ((scan.nextConfig = [] ↔ scan.config = []) → (strings = [] ↔ scan.config = [])) := by
  rw [giveString]
  split
  · next s rest prog hnext hprog =>
      split
      · refine ⟨_, rfl, fun h => ?_⟩
        have hconfig : scan.config ≠ [] := fun hnil => by simp [hnext] at h; exact h hnil
        by_cases hrest : rest = []
        · rw [if_pos hrest]
        · rw [if_neg hrest]
          exact iff_of_false hrest hconfig
      · exact ⟨scan.nextConfig, rfl, fun h => h⟩
  · exact ⟨scan.nextConfig, rfl, fun h => h⟩

/-- When there is a string. -/
theorem giveString_isSome (lircProg : Option Name) (i : ℕ) (doOnce : Bool) (scan : RcEntry)
    (c : RcConfig) : (giveString lircProg i doOnce scan c).1.isSome =
      (scan.nextConfig ≠ [] && (scan.prog.any fun prog => lircProg.all (strcaseeq prog)) &&
        doOnce) := by
  rw [giveString]
  cases hnext : scan.nextConfig with
  | nil => rfl
  | cons s rest =>
      cases hprog : scan.prog with
      | none => rfl
      | some prog =>
          cases doOnce <;> cases hfor : lircProg.all (strcaseeq prog) <;> simp [hfor]

theorem lircExecute_length (lircProg : Option Name) (i : ℕ) (c : RcConfig) :
    (lircExecute lircProg i c).2.entries.length = c.entries.length := by
  cases hscan : c.entries[i]? with
  | none => rw [lircExecute, hscan]
  | some scan =>
      obtain ⟨strings, hgiven, -⟩ := giveString_config lircProg i
        (onceFlags (((modeChanged scan c).entries[i]?).getD scan)).1
        (onceFlags (((modeChanged scan c).entries[i]?).getD scan)).2 (modeChanged scan c)
      rw [lircExecute_eq hscan, hgiven, RcConfig.setEntry_length, modeChanged_entries]
      split
      · exact c.clearMode_length
      · rfl

theorem appliedTo_lircExecuteActs (lircProg : Option Name) (i : ℕ) (c : RcConfig) :
    appliedTo (lircExecuteActs lircProg i c) = [] := by
  rw [lircExecuteActs]
  cases c.entries[i]? with
  | none => rfl
  | some scan =>
      dsimp only
      split
      · cases c.currentMode <;> rfl
      · rfl

/-- What the loop keeps between its turns: after a quit `next` is `NULL`, and
before it there is no string. -/
structure BetweenTurns (n : ℕ) (quitHappened : Bool) (s : Option RcFound) (c : RcConfig) :
    Prop where
  entries : c.entries.length = n
  quit : quitHappened = true → c.next = n
  going : quitHappened = false → s = none

/-- What a turn keeps, and where it ends the loop. -/
structure TurnSpec (n i : ℕ) (turn : CodeTurn) : Prop where
  applied : appliedTo turn.acts = [i]
  entries : turn.config.entries.length = n
  ends : turn.ends = true → turn.s.isSome ∧ turn.config.next = i + 1
  goesOn : turn.ends = false → BetweenTurns n turn.quitHappened turn.s turn.config

theorem codeTurn_spec {lircProg : Option Name} {remote button : Name} {rep i n : ℕ}
    {quitHappened : Bool} {s : Option RcFound} {c : RcConfig}
    (h : BetweenTurns n quitHappened s c) (scan : RcEntry) :
    TurnSpec n i (codeTurn lircProg remote button rep i quitHappened s c scan) := by
  obtain ⟨hlen, hquit, hgoing⟩ := h
  rw [codeTurn]
  generalize scan.isCode remote button rep = level
  obtain ⟨execLevel, scan⟩ := level
  dsimp only
  have hset : (c.setEntry i scan).entries.length = n := by rw [RcConfig.setEntry_length, hlen]
  have hexec : (lircExecute lircProg i (c.setEntry i scan)).2.entries.length = n := by
    rw [lircExecute_length, hset]
  have hacts := appliedTo_lircExecuteActs lircProg i (c.setEntry i scan)
  by_cases hdue : (0 < execLevel && (c.setEntry i scan).inMode scan && !quitHappened) = true
  · rw [if_pos hdue]
    have hgo : quitHappened = false := by
      simp only [Bool.and_eq_true, Bool.not_eq_true'] at hdue
      exact hdue.2
    -- executed or not, the entry leaves a string or none
    have hfound : ∃ acts found c', (if 1 < execLevel then
        (lircExecuteActs lircProg i (c.setEntry i scan),
          lircExecute lircProg i (c.setEntry i scan))
        else ([], none, c.setEntry i scan)) = (acts, found, c') ∧ appliedTo acts = [] ∧
          c'.entries.length = n := by
      by_cases hlevel : 1 < execLevel
      · exact ⟨_, _, _, if_pos hlevel, hacts, hexec⟩
      · exact ⟨_, _, _, if_neg hlevel, rfl, hset⟩
    obtain ⟨acts, found, c', heq, hnone, hlen'⟩ := hfound
    simp only [heq]
    split
    · exact ⟨by rw [appliedTo_applied, hnone], hlen', nofun,
        fun _ => ⟨hlen', fun _ => hlen', nofun⟩⟩
    · cases found with
      | none =>
          exact ⟨by rw [appliedTo_applied, hnone], hlen', nofun,
            fun _ => ⟨hlen', fun h => absurd (hgo.symm.trans h) Bool.false_ne_true, fun _ => rfl⟩⟩
      | some found =>
          exact ⟨by rw [appliedTo_applied, hnone], hlen', fun _ => ⟨rfl, rfl⟩, nofun⟩
  · rw [if_neg hdue]
    exact ⟨rfl, hset, nofun, fun _ => ⟨hset, hquit, hgoing⟩⟩

/-! ### One call -/

/-- How a call goes on from the entry `i` of `n` with the string `s`: it gets to
an entry `j`, and it either stops in front of it with a string or has seen all
entries. -/
structure CallSpec (n i : ℕ) (s : Option RcFound)
    (result : List RcAct × Option RcFound × RcConfig) : Prop where
  entries : result.2.2.entries.length = n
  reached : ∃ j, i ≤ j ∧ j ≤ n ∧ appliedTo result.1 = List.range' i (j - i) ∧
    (result.2.1 = none → j = n ∧ result.2.2.next = 0) ∧
    (result.2.1.isSome → result.2.2.next = j ∧ (s = none → i < j))

theorem codeLoopTraced_spec {lircProg : Option Name} {remote button : Name} {rep i n k : ℕ}
    {quitHappened : Bool} {s : Option RcFound} {c : RcConfig}
    (h : BetweenTurns n quitHappened s c) (hk : i + k = n) :
    CallSpec n i s (codeLoopTraced lircProg remote button rep k i quitHappened s c) := by
  induction k generalizing i quitHappened s c with
  | zero =>
      obtain rfl : i = n := hk
      rw [codeLoopTraced]
      cases s with
      | none => exact ⟨h.entries, i, le_rfl, le_rfl, by simp [appliedTo], fun _ => ⟨rfl, rfl⟩, nofun⟩
      | some found =>
          have hquit : quitHappened = true := by
            cases quitHappened with
            | true => rfl
            | false => exact nomatch h.going rfl
          exact ⟨h.entries, i, le_rfl, le_rfl, by simp [appliedTo], nofun,
            fun _ => ⟨h.quit hquit, nofun⟩⟩
  | succ k ih =>
      have hi : i < c.entries.length := by
        rw [h.entries]
        omega
      rw [codeLoopTraced, List.getElem?_eq_getElem hi]
      dsimp only
      have hturn : TurnSpec n i
          (codeTurn lircProg remote button rep i quitHappened s c c.entries[i]) :=
        codeTurn_spec h _
      generalize codeTurn lircProg remote button rep i quitHappened s c c.entries[i] = turn at hturn
      cases hends : turn.ends with
      | true =>
          obtain ⟨hs, hnext⟩ := hturn.ends hends
          rw [if_pos rfl]
          refine ⟨hturn.entries, i + 1, by omega, by omega, ?_, ?_,
            fun _ => ⟨hnext, fun _ => by omega⟩⟩
          · rw [hturn.applied, Nat.add_sub_cancel_left]
            rfl
          · intro (hnone : turn.s = none)
            exact nomatch hnone ▸ hs
      | false =>
          obtain ⟨hlen, j, hij, hjn, happ, hnone, hsome⟩ :=
            ih (hturn.goesOn hends) (i := i + 1) (by omega)
          simp only [Bool.false_eq_true, if_false]
          refine ⟨hlen, j, by omega, hjn, ?_, hnone,
            fun h => ⟨(hsome h).1, fun _ => by omega⟩⟩
          rw [appliedTo_append, hturn.applied, happ]
          obtain ⟨m, rfl⟩ : ∃ m, j = i + 1 + m := ⟨j - (i + 1), by omega⟩
          rw [show i + 1 + m - i = m + 1 by omega, List.range'_succ,
            Nat.add_sub_cancel_left]
          rfl

/-! ### All calls -/

/-- Up to so many calls with one event, until one of them gives no string: how
many there were, what they did and the configuration behind them. -/
def callUntilNull (lircProg : Option Name) (code : List Char) :
    ℕ → RcConfig → Option (ℕ × List RcAct × RcConfig)
  | 0, _ => none
  | n + 1, c =>
      match code2charTraced lircProg code c with
      | (acts, none, c) => some (1, acts, c)
      | (acts, some _, c) =>
          (callUntilNull lircProg code n c).map fun x => (x.1 + 1, acts ++ x.2.1, x.2.2)

/-- A string that is an event of `lircd`. -/
def WellFormedEvent (code : List Char) : Prop :=
  (scanReps code).isSome ∧ (eventNames code).isSome

instance (code : List Char) : Decidable (WellFormedEvent code) :=
  inferInstanceAs (Decidable (_ ∧ _))

theorem code2charTraced_spec (lircProg : Option Name) {code : List Char}
    (hcode : WellFormedEvent code) {c : RcConfig} (hnext : c.next ≤ c.entries.length) :
    CallSpec c.entries.length c.next none (code2charTraced lircProg code c) := by
  obtain ⟨rep, hrep⟩ := Option.isSome_iff_exists.mp hcode.1
  obtain ⟨⟨button, remote⟩, hnames⟩ := Option.isSome_iff_exists.mp hcode.2
  rw [code2charTraced, hrep, hnames]
  exact codeLoopTraced_spec ⟨rfl, nofun, fun _ => rfl⟩ (by omega)

/-- From any point on, the calls get to all entries that are left. -/
theorem callUntilNull_spec (lircProg : Option Name) {code : List Char}
    (hcode : WellFormedEvent code) {n : ℕ} {c : RcConfig} (hnext : c.next ≤ c.entries.length)
    (hn : c.entries.length - c.next < n) :
    ∃ calls acts c', callUntilNull lircProg code n c = some (calls, acts, c') ∧
      appliedTo acts = List.range' c.next (c.entries.length - c.next) ∧
      calls ≤ c.entries.length - c.next + 1 ∧
      c'.entries.length = c.entries.length ∧ c'.next = 0 := by
  induction n generalizing c with
  | zero => omega
  | succ n ih =>
      have hcall := code2charTraced_spec lircProg hcode hnext
      rw [callUntilNull]
      generalize code2charTraced lircProg code c = result at hcall
      obtain ⟨acts, found, c'⟩ := result
      obtain ⟨hlen, j, hij, hjn, happ, hnone, hsome⟩ := hcall
      dsimp only at hlen happ hnone hsome
      cases found with
      | none =>
          obtain ⟨rfl, hzero⟩ := hnone rfl
          exact ⟨1, acts, c', rfl, happ, by omega, hlen, hzero⟩
      | some found =>
          obtain ⟨hj, hlt⟩ := hsome rfl
          have hlt := hlt rfl
          obtain ⟨calls, later, c'', hcalls, happ', hle, hlen', hzero⟩ :=
            ih (c := c') (by omega) (by omega)
          refine ⟨calls + 1, acts ++ later, c'', ?_, ?_, by omega, hlen'.trans hlen, hzero⟩
          · simp only [hcalls, Option.map_some]
          · rw [appliedTo_append, happ, happ', hlen, hj]
            have hstart : c.next + (j - c.next) = j := by omega
            have hrest : j - c.next + (c.entries.length - j) = c.entries.length - c.next := by omega
            rw [← hrest, ← List.range'_append_1, hstart]

/-! ### All events -/

/-- The configuration after an event, once there are no more strings for it. -/
def afterEvent (lircProg : Option Name) (c : RcConfig) (code : List Char) : RcConfig :=
  match callUntilNull lircProg code (c.entries.length + 1) c with
  | some (_, _, c') => c'
  | none => c

/-- Between events the next entry is the first one. -/
def AtFirst (n : ℕ) (c : RcConfig) : Prop := c.entries.length = n ∧ c.next = 0

theorem afterEvent_atFirst {lircProg : Option Name} {n : ℕ} (c : RcConfig) (code : List Char)
    (h : AtFirst n c) : AtFirst n (afterEvent lircProg c code) := by
  obtain ⟨hlen, hnext⟩ := h
  rw [afterEvent]
  by_cases hcode : WellFormedEvent code
  · obtain ⟨calls, acts, c', hcalls, -, -, hlen', hzero⟩ :=
      callUntilNull_spec lircProg hcode (c := c) (n := c.entries.length + 1)
        (by omega) (by omega)
    rw [hcalls]
    exact ⟨hlen'.trans hlen, hzero⟩
  · -- what is no event changes no entry
    rw [callUntilNull, code2charTraced]
    cases hrep : scanReps code with
    | none => exact ⟨hlen, rfl⟩
    | some rep =>
        cases hnames : eventNames code with
        | none => exact ⟨hlen, hnext⟩
        | some names => exact absurd ⟨by rw [hrep]; rfl, by rw [hnames]; rfl⟩ hcode

/-- After any events, with any flags and modes, the calls with one more event
apply `lirc_iscode` once to each entry in order and end at the first entry. -/
theorem event_single_pass (lircProg : Option Name) (entries : List RcEntry) (mode : Option Name)
    (before : List (List Char)) {code : List Char} (hcode : WellFormedEvent code) :
    ∃ calls acts c',
      callUntilNull lircProg code (entries.length + 1)
          (run (afterEvent lircProg) { entries, currentMode := mode } before) =
        some (calls, acts, c') ∧
      appliedTo acts = List.range entries.length ∧ calls ≤ entries.length + 1 ∧ c'.next = 0 := by
  obtain ⟨hlen, hnext⟩ : AtFirst entries.length
      (run (afterEvent lircProg) { entries, currentMode := mode } before) :=
    run_invariant (fun c code => afterEvent_atFirst c code) before ⟨rfl, rfl⟩
  obtain ⟨calls, acts, c', hcalls, happ, hle, -, hzero⟩ :=
    callUntilNull_spec lircProg hcode
      (c := run (afterEvent lircProg) { entries, currentMode := mode } before)
      (n := entries.length + 1) (by omega) (by omega)
  rw [hnext, hlen, Nat.sub_zero] at happ hle
  exact ⟨calls, acts, c', hcalls, happ.trans List.range_eq_range'.symm, hle, hzero⟩

/-- Entries for one button: one with two strings that enters a mode, one that
quits, and one behind it. -/
def quitEntries : List RcEntry :=
  [{ prog := some "p".toList, code := [⟨none, some "OK".toList⟩],
     config := ["a".toList, "b".toList], changeMode := some "m".toList,
     flags := { toggleReset := true } },
    { prog := some "p".toList, code := [⟨none, some "OK".toList⟩], config := ["c".toList],
      flags := { quit := true } },
    { prog := some "p".toList, code := [⟨none, some "OK".toList⟩], config := ["d".toList] }]

theorem event_single_pass_quit :
    ∃ calls acts c',
      callUntilNull none "0000000000000001 00 OK rc\n".toList 4
          (run (afterEvent none) { entries := quitEntries, currentMode := none } []) =
        some (calls, acts, c') ∧
      appliedTo acts = List.range 3 ∧ calls ≤ 4 ∧ c'.next = 0 :=
  event_single_pass none quitEntries none [] (by decide)

end Lirc
