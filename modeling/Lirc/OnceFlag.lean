import Lirc.Library.Latch
import Lirc.EventPass

/-!
The flag `once`: the bit `ecno` of an entry is a latch that its execution and
a startup mode set, and that `lirc_clearmode` clears when the mode is left
that the entry changes to.
-/

namespace Lirc

open Transition

/-! ### The configuration that is read -/

/-- An entry as `end` leaves it. There is no name for `ecno`. -/
def RcEntry.ended (e : RcEntry) : RcEntry :=
  { e with nextCode := e.code, nextConfig := e.config, flags := { e.flags with ecno := false } }

/-- The end of `lirc_readconfig_only_internal`. -/
def RcConfig.read (lircProg : Name) (entries : List RcEntry) : RcConfig :=
  let (startupmode, first) := lircStartupmode lircProg (entries.map RcEntry.ended)
  { entries := first, currentMode := startupmode }

/-- What calls of `lirc_code2char` do, and the configuration behind them. -/
def callsTraced (lircProg : Option Name) : List (List Char) → RcConfig → List RcAct × RcConfig
  | [], c => ([], c)
  | code :: codes, c =>
      let (acts, _, c) := code2charTraced lircProg code c
      let (later, c) := callsTraced lircProg codes c
      (acts ++ later, c)

/-! ### The latch -/

/-- The mode is left. -/
def RcAct.leaves (m : Name) : RcAct → Bool
  | .left m' => strcaseeq m m'
  | _ => false

def RcAct.executes (i : ℕ) : RcAct → Bool
  | .executed j _ => j == i
  | _ => false

/-- The entry gives one of its strings. -/
def RcAct.returns (i : ℕ) : RcAct → Bool
  | .executed j s => j == i && s.isSome
  | _ => false

/-- `ecno` of the entry `i`, which changes to the mode `m`. -/
def onceLatch (i : ℕ) (m : Name) : Latch RcAct where
  sets := RcAct.executes i
  clears := RcAct.leaves m
  fires := RcAct.returns i

/-- The entry has a string for the program. -/
def RcEntry.hasString (lircProg : Option Name) (e : RcEntry) : Bool :=
  e.config ≠ [] && e.prog.any fun prog => lircProg.all (strcaseeq prog)

/-- The entry `i` is one with the flag and the mode, and `ecno` stands so. -/
structure OnceEntry (lircProg : Option Name) (i : ℕ) (m : Name) (loaded ecno : Bool)
    (e : RcEntry) : Prop where
  once : e.flags.once = true
  changeMode : e.changeMode = some m
  ecno : e.flags.ecno = ecno
  loaded : e.hasString lircProg = loaded
  nextConfig : e.nextConfig = [] ↔ e.config = []

section

variable {lircProg : Option Name} {i : ℕ} {m : Name} {loaded : Bool}

/-- The entry `i` of a configuration is one with the flag and the mode. -/
def OnceAt (lircProg : Option Name) (i : ℕ) (m : Name) (loaded ecno : Bool) (c : RcConfig) :
    Prop :=
  ∃ e, c.entries[i]? = some e ∧ OnceEntry lircProg i m loaded ecno e

/-- The acts work the latch that the flag is. -/
def Latched (lircProg : Option Name) (i : ℕ) (m : Name) (loaded : Bool) (c : RcConfig)
    (acts : List RcAct) (c' : RcConfig) : Prop :=
  ∀ ecno, OnceAt lircProg i m loaded ecno c →
    Along (onceLatch i m).next ((onceLatch i m).Guarded loaded) ecno acts ∧
      OnceAt lircProg i m loaded (run (onceLatch i m).next ecno acts) c'

theorem Latched.trans {c c' c'' : RcConfig} {acts acts' : List RcAct}
    (h : Latched lircProg i m loaded c acts c')
    (h' : Latched lircProg i m loaded c' acts' c'') :
    Latched lircProg i m loaded c (acts ++ acts') c'' := by
  intro ecno hat
  obtain ⟨halong, hat'⟩ := h ecno hat
  obtain ⟨halong', hat''⟩ := h' _ hat'
  exact ⟨along_append.mpr ⟨halong, halong'⟩, by rwa [run_append]⟩

theorem Latched.of_entries {c c' : RcConfig} (h : c'.entries = c.entries) :
    Latched lircProg i m loaded c [] c' := by
  intro ecno hat
  refine ⟨trivial, ?_⟩
  obtain ⟨e, hget, he⟩ := hat
  exact ⟨e, h ▸ hget, he⟩

/-- Setting an entry to one that has the same flag, mode and strings. -/
theorem OnceAt.setEntry {c : RcConfig} {j : ℕ} {ecno : Bool} {e' : RcEntry}
    (h : OnceAt lircProg i m loaded ecno c)
    (he' : ∀ e, c.entries[j]? = some e → j = i → OnceEntry lircProg i m loaded ecno e →
      OnceEntry lircProg i m loaded ecno e') :
    OnceAt lircProg i m loaded ecno (c.setEntry j e') := by
  obtain ⟨e, hget, he⟩ := h
  by_cases hij : j = i
  · subst hij
    refine ⟨e', ?_, he' e hget rfl he⟩
    rw [RcConfig.setEntry, List.getElem?_set_self (List.getElem?_eq_some_iff.mp hget).1]
  · refine ⟨e, ?_, he⟩
    rw [RcConfig.setEntry, List.getElem?_set_ne hij, hget]

end

/-! ### What the functions do to the latch -/

/-- `lirc_iscode` changes nothing but the place in the sequence and, at most, the
string that comes next. -/
theorem RcEntry.isCode_fields (e : RcEntry) (remote button : Name) (rep : ℕ) :
    (e.isCode remote button rep).2 =
        { e with
          nextConfig := (e.isCode remote button rep).2.nextConfig
          nextCode := (e.isCode remote button rep).2.nextCode } ∧
      ((e.isCode remote button rep).2.nextConfig = e.nextConfig ∨
        (e.isCode remote button rep).2.nextConfig = e.config) := by
  rw [RcEntry.isCode]
  split
  · exact ⟨rfl, .inl rfl⟩
  · exact ⟨rfl, .inl rfl⟩
  · dsimp only
    split
    · -- the button goes on with the sequence, completes it or does neither
      split
      · split <;> exact ⟨rfl, .inl rfl⟩
      · split <;> exact ⟨rfl, .inl rfl⟩
    · split
      · exact ⟨rfl, .inl rfl⟩
      · refine ⟨rfl, ?_⟩
        cases e.flags.toggleReset with
        | true => exact .inr rfl
        | false => exact .inl rfl

section

variable {lircProg : Option Name} {i : ℕ} {m : Name} {loaded : Bool}

theorem latched_isCode {c : RcConfig} {j : ℕ} {scan : RcEntry} (hscan : c.entries[j]? = some scan)
    (remote button : Name) (rep : ℕ) :
    Latched lircProg i m loaded c [.applied j]
      (c.setEntry j (scan.isCode remote button rep).2) := by
  intro ecno hat
  have hnext : (onceLatch i m).next ecno (.applied j) = ecno := by
    simp [Latch.next, onceLatch, RcAct.leaves, RcAct.executes]
  refine ⟨⟨rfl, trivial⟩, ?_⟩
  rw [run_cons, run_nil, hnext]
  refine hat.setEntry ?_
  intro e hget _ he
  obtain rfl : scan = e := Option.some.inj (hscan.symm.trans hget)
  obtain ⟨heq, hconfig⟩ := scan.isCode_fields remote button rep
  rw [heq]
  refine ⟨he.once, he.changeMode, he.ecno, he.loaded, ?_⟩
  obtain hconfig | hconfig := hconfig
  · rw [hconfig]
    exact he.nextConfig
  · rw [hconfig]

theorem latched_clearMode (c : RcConfig) :
    Latched lircProg i m loaded c (c.currentMode.toList.map .left) c.clearMode := by
  intro ecno hat
  rw [RcConfig.clearMode]
  cases c.currentMode with
  | none => exact ⟨trivial, hat⟩
  | some m' =>
      obtain ⟨e, hget, he⟩ := hat
      refine ⟨⟨rfl, trivial⟩, ?_⟩
      have hnext : run (onceLatch i m).next ecno ((some m').toList.map .left) =
          (if strcaseeq m m' then false else ecno) := by
        simp [Latch.next, onceLatch, RcAct.leaves, RcAct.executes]
      rw [hnext]
      have hany : (e.changeMode.any fun m'' => strcaseeq m'' m') = strcaseeq m m' := by
        rw [he.changeMode]
        rfl
      refine ⟨_, by rw [List.getElem?_map, hget]; rfl, ?_⟩
      dsimp only
      rw [hany]
      cases strcaseeq m m' with
      | true => exact ⟨he.once, he.changeMode, rfl, he.loaded, he.nextConfig⟩
      | false => exact he

theorem latched_modeChanged (scan : RcEntry) (c : RcConfig) :
    Latched lircProg i m loaded c
      (if scan.flags.mode then c.currentMode.toList.map .left else []) (modeChanged scan c) := by
  have hleft : Latched lircProg i m loaded c
      (if scan.flags.mode then c.currentMode.toList.map .left else [])
      (if scan.flags.mode then c.clearMode else c) := by
    split
    · exact latched_clearMode c
    · exact .of_entries rfl
  have htrans := hleft.trans (.of_entries (modeChanged_entries scan c))
  rwa [List.append_nil] at htrans

/-- The entry with `ecno`. -/
def RcEntry.marked (e : RcEntry) : RcEntry := { e with flags := { e.flags with ecno := true } }

theorem onceFlags_once {e : RcEntry} {ecno : Bool} (he : OnceEntry lircProg i m loaded ecno e) :
    onceFlags e = (!ecno, e.marked) := by
  have hset : (e.changeMode.isSome && e.flags.once) = true := by
    rw [he.changeMode, he.once]
    rfl
  rw [onceFlags, if_pos hset, he.ecno]
  rfl

theorem latched_executed {c : RcConfig} {j : ℕ} {scan : RcEntry} :
    Latched lircProg i m loaded c
      [.executed j ((giveString lircProg j (onceFlags ((c.entries[j]?).getD scan)).1
        (onceFlags ((c.entries[j]?).getD scan)).2 c).1.map RcFound.string)]
      (giveString lircProg j (onceFlags ((c.entries[j]?).getD scan)).1
        (onceFlags ((c.entries[j]?).getD scan)).2 c).2 := by
  intro ecno hat
  obtain ⟨e, hget, he⟩ := hat
  by_cases hij : j = i
  · subst hij
    rw [hget, Option.getD_some, onceFlags_once he]
    have hisSome : (giveString lircProg j (!ecno) e.marked c).1.isSome =
        (e.nextConfig ≠ [] && (e.prog.any fun prog => lircProg.all (strcaseeq prog)) && !ecno) :=
      giveString_isSome lircProg j (!ecno) e.marked c
    obtain ⟨strings, hconfig, hstrings⟩ := giveString_config lircProg j (!ecno) e.marked c
    have hloaded : (e.nextConfig ≠ [] &&
        (e.prog.any fun prog => lircProg.all (strcaseeq prog))) = loaded := by
      rw [← he.loaded, RcEntry.hasString]
      simp only [ne_eq, he.nextConfig]
    have hnext : (onceLatch j m).next ecno (.executed j
        ((giveString lircProg j (!ecno) e.marked c).1.map
          RcFound.string)) = true := by
      simp [Latch.next, onceLatch, RcAct.leaves, RcAct.executes]
    refine ⟨⟨?_, trivial⟩, ?_⟩
    · have hfires : (onceLatch j m).fires (.executed j
          ((giveString lircProg j (!ecno) e.marked c).1.map
            RcFound.string)) =
          (giveString lircProg j (!ecno) e.marked c).1.isSome := by
        simp [onceLatch, RcAct.returns]
      have hsets : (onceLatch j m).sets (.executed j
          ((giveString lircProg j (!ecno) e.marked c).1.map
            RcFound.string)) = true := by
        simp [onceLatch, RcAct.executes]
      rw [Latch.Guarded, hfires, hsets, hisSome, hloaded, Bool.true_and, Bool.and_comm]
    · rw [run_cons, run_nil, hnext, hconfig]
      refine ⟨{ e.marked with nextConfig := strings }, ?_, he.once, he.changeMode, rfl, he.loaded,
        hstrings he.nextConfig⟩
      rw [RcConfig.setEntry, List.getElem?_set_self (List.getElem?_eq_some_iff.mp hget).1]
  · obtain ⟨strings, hconfig, -⟩ := giveString_config lircProg j
      (onceFlags ((c.entries[j]?).getD scan)).1 (onceFlags ((c.entries[j]?).getD scan)).2 c
    have hne : (j == i) = false := beq_eq_false_iff_ne.mpr hij
    refine ⟨⟨?_, trivial⟩, ?_⟩
    · simp [Latch.Guarded, onceLatch, RcAct.returns, RcAct.executes, hne]
    · rw [run_cons, run_nil, hconfig]
      have hnext (s : Option (List Char)) : (onceLatch i m).next ecno (.executed j s) = ecno := by
        simp [Latch.next, onceLatch, RcAct.leaves, RcAct.executes, hne]
      rw [hnext]
      exact OnceAt.setEntry ⟨e, hget, he⟩ fun _ _ h => absurd h hij

theorem latched_lircExecute (c : RcConfig) (j : ℕ) :
    Latched lircProg i m loaded c (lircExecuteActs lircProg j c) (lircExecute lircProg j c).2 := by
  rw [lircExecuteActs]
  cases hscan : c.entries[j]? with
  | none =>
      rw [lircExecute, hscan]
      exact .of_entries rfl
  | some scan =>
      dsimp only
      rw [lircExecute_eq hscan]
      exact (latched_modeChanged scan c).trans latched_executed

theorem latched_codeTurn (c : RcConfig) {j : ℕ} {scan : RcEntry}
    (hscan : c.entries[j]? = some scan) (remote button : Name) (rep : ℕ) (quitHappened : Bool)
    (s : Option RcFound) :
    Latched lircProg i m loaded c
      (codeTurn lircProg remote button rep j quitHappened s c scan).acts
      (codeTurn lircProg remote button rep j quitHappened s c scan).config := by
  have happlied : Latched lircProg i m loaded c [.applied j]
      (c.setEntry j (scan.isCode remote button rep).2) := latched_isCode hscan remote button rep
  rw [codeTurn]
  generalize scan.isCode remote button rep = level at happlied
  obtain ⟨execLevel, scan'⟩ := level
  dsimp only at happlied ⊢
  by_cases hdue : (0 < execLevel && (c.setEntry j scan').inMode scan' && !quitHappened) = true
  · rw [if_pos hdue]
    have hfound : ∃ acts found c', (if 1 < execLevel then
        (lircExecuteActs lircProg j (c.setEntry j scan'),
          lircExecute lircProg j (c.setEntry j scan'))
        else ([], none, c.setEntry j scan')) = (acts, found, c') ∧
          Latched lircProg i m loaded (c.setEntry j scan') acts c' := by
      by_cases hlevel : 1 < execLevel
      · exact ⟨_, _, _, if_pos hlevel, latched_lircExecute _ j⟩
      · exact ⟨_, _, _, if_neg hlevel, .of_entries rfl⟩
    obtain ⟨acts, found, c', heq, hexec⟩ := hfound
    simp only [heq]
    have hboth := happlied.trans hexec
    split
    · have hlast : Latched lircProg i m loaded c' [] { c' with next := c'.entries.length } :=
        .of_entries rfl
      have hquit := hboth.trans hlast
      rwa [List.append_nil] at hquit
    · have hnext : Latched lircProg i m loaded c' []
          (if found.isSome then { c' with next := j + 1 } else c') :=
        .of_entries (by split <;> rfl)
      have hresume := hboth.trans hnext
      rwa [List.append_nil] at hresume
  · rw [if_neg hdue]
    exact happlied

theorem latched_codeLoop (remote button : Name) (rep n j : ℕ) (quitHappened : Bool)
    (s : Option RcFound) (c : RcConfig) :
    Latched lircProg i m loaded c
      (codeLoopTraced lircProg remote button rep n j quitHappened s c).1
      (codeLoopTraced lircProg remote button rep n j quitHappened s c).2.2 := by
  induction n generalizing j quitHappened s c with
  | zero =>
      refine .of_entries ?_
      rw [codeLoopTraced]
      cases s <;> rfl
  | succ n ih =>
      rw [codeLoopTraced]
      cases hscan : c.entries[j]? with
      | none =>
          refine .of_entries ?_
          cases s <;> rfl
      | some scan =>
          have hturn : Latched lircProg i m loaded c _ _ :=
            latched_codeTurn c hscan remote button rep quitHappened s
          dsimp only
          split
          · exact hturn
          · exact hturn.trans (ih _ _ _ _)

theorem latched_code2char (code : List Char) (c : RcConfig) :
    Latched lircProg i m loaded c (code2charTraced lircProg code c).1
      (code2charTraced lircProg code c).2.2 := by
  rw [code2charTraced]
  cases scanReps code with
  | none => exact .of_entries rfl
  | some rep =>
      cases eventNames code with
      | none => exact .of_entries rfl
      | some names => exact latched_codeLoop _ _ _ _ _ _ _ _

/-- Over any series of calls the flag is the latch. -/
theorem latched_calls (codes : List (List Char)) (c : RcConfig) :
    Latched lircProg i m loaded c (callsTraced lircProg codes c).1
      (callsTraced lircProg codes c).2 := by
  induction codes generalizing c with
  | nil => exact .of_entries rfl
  | cons code codes ih => exact (latched_code2char code c).trans (ih _)

end

/-! ### The start -/

theorem takeStartupMode_fields (entries : List RcEntry) :
    ∀ e ∈ (takeStartupMode entries).2, ∃ e' ∈ entries, e = { e' with changeMode := e.changeMode } := by
  induction entries with
  | nil => nofun
  | cons scan rest ih =>
      intro e he
      rw [takeStartupMode] at he
      split at he
      · obtain rfl | he := List.mem_cons.mp he
        · exact ⟨scan, List.mem_cons_self, rfl⟩
        · exact ⟨e, List.mem_cons_of_mem _ he, rfl⟩
      · obtain rfl | he := List.mem_cons.mp he
        · exact ⟨e, List.mem_cons_self, rfl⟩
        · obtain ⟨e', he', heq⟩ := ih e he
          exact ⟨e', List.mem_cons_of_mem _ he', heq⟩

/-- An entry with which `lirc_startupmode` starts to mark entries. -/
theorem startup_entry {entries : List RcEntry} {e : RcEntry}
    (he : e ∈ (takeStartupMode (entries.map RcEntry.ended)).2) :
    e.flags.ecno = false ∧ e.nextConfig = e.config := by
  obtain ⟨e', he', heq⟩ := takeStartupMode_fields _ e he
  obtain ⟨e'', -, rfl⟩ := List.mem_map.mp he'
  rw [heq]
  exact ⟨rfl, rfl⟩

/-- A startup mode marks the entries with the flag that change to it. -/
theorem read_onceAt {lircProg : Name} {entries : List RcEntry} {i : ℕ} {m : Name} {e : RcEntry}
    (hget : (RcConfig.read lircProg entries).entries[i]? = some e) (honce : e.flags.once = true)
    (hmode : e.changeMode = some m) :
    OnceAt (some lircProg) i m (e.hasString (some lircProg))
      ((RcConfig.read lircProg entries).currentMode.any fun m' => strcaseeq m' m)
      (RcConfig.read lircProg entries) := by
  rw [RcConfig.read, lircStartupmode] at hget ⊢
  have hstart (scan : RcEntry) := @startup_entry entries scan
  generalize takeStartupMode (entries.map RcEntry.ended) = x at hget hstart ⊢
  obtain ⟨startupmode, first⟩ := x
  dsimp only at hget hstart ⊢
  generalize (if startupmode = none ∧ (first.any fun scan => scan.mode.any (strcaseeq lircProg))
    then some lircProg else startupmode) = startupmode at hget ⊢
  cases startupmode with
  | none =>
      obtain ⟨hecno, hnext⟩ := hstart e (List.mem_of_getElem? hget)
      exact ⟨e, hget, honce, hmode, hecno, rfl, by rw [hnext]⟩
  | some startupmode =>
      rw [List.getElem?_map] at hget
      obtain ⟨scan, hscan, rfl⟩ := Option.map_eq_some_iff.mp hget
      obtain ⟨hecno, hnext⟩ := hstart scan (List.mem_of_getElem? hscan)
      refine ⟨_, by rw [List.getElem?_map, hscan]; rfl, ?_⟩
      dsimp only at honce hmode ⊢
      by_cases hmarked :
          (scan.changeMode.any (strcaseeq startupmode) && scan.flags.once) = true
      · rw [if_pos hmarked] at honce hmode ⊢
        have hsame : strcaseeq startupmode m = true := by
          have hany := (Bool.and_eq_true_iff.mp hmarked).1
          rwa [show scan.changeMode = some m from hmode] at hany
        exact ⟨honce, hmode, by rw [Option.any_some, hsame], rfl, by rw [hnext]⟩
      · rw [if_neg hmarked] at honce hmode ⊢
        have hother : strcaseeq startupmode m = false := by
          rw [honce, hmode, Bool.and_true, Option.any_some] at hmarked
          exact Bool.eq_false_iff.mpr hmarked
        exact ⟨honce, hmode, by rw [hecno, Option.any_some, hother], rfl, by rw [hnext]⟩

/-- The strings of an entry with the flag, over any series of calls: between two
times its mode is left there is one at most, the first execution after the mode
was left gives one if there is any, and starting in the mode is an execution. -/
theorem once_per_visit (lircProg : Name) (entries : List RcEntry) (codes : List (List Char))
    {i : ℕ} {m : Name} {e : RcEntry}
    (hget : (RcConfig.read lircProg entries).entries[i]? = some e) (honce : e.flags.once = true)
    (hmode : e.changeMode = some m) :
    let start := RcConfig.read lircProg entries
    let startsIn := start.currentMode.any fun m' => strcaseeq m' m
    let acts := (callsTraced (some lircProg) codes start).1
    (∀ before visit after, acts = before ++ visit ++ after →
        (∀ a ∈ visit, a.leaves m = false) → visit.countP (RcAct.returns i) ≤ 1) ∧
      (∀ before leave wait s after,
        acts = before ++ leave :: (wait ++ .executed i s :: after) → leave.leaves m = true →
        (∀ a ∈ wait, a.executes i = false) → s.isSome = e.hasString (some lircProg)) ∧
      (startsIn = true → ∀ visit after, acts = visit ++ after →
        (∀ a ∈ visit, a.leaves m = false) → visit.countP (RcAct.returns i) = 0) ∧
      (startsIn = false → ∀ wait s after, acts = wait ++ .executed i s :: after →
        (∀ a ∈ wait, a.executes i = false) → s.isSome = e.hasString (some lircProg)) := by
  intro start startsIn acts
  have hrun : Along (onceLatch i m).next ((onceLatch i m).Guarded (e.hasString (some lircProg)))
      startsIn acts := (latched_calls codes start startsIn (read_onceAt hget honce hmode)).1
  have hfires (s : Option (List Char)) : (onceLatch i m).fires (.executed i s) = s.isSome := by
    simp [onceLatch, RcAct.returns]
  have hsets (s : Option (List Char)) : (onceLatch i m).sets (.executed i s) = true := by
    simp [onceLatch, RcAct.executes]
  refine ⟨?_, ?_, ?_, ?_⟩
  · intro before visit after hacts hvisit
    rw [hacts] at hrun
    exact Latch.countP_fires_le_one (along_append.mp (along_append.mp hrun).1).2 hvisit
  · intro before leave wait s after hacts hleave hwait
    rw [hacts] at hrun
    rw [← hfires s]
    exact Latch.fires_of_cleared hrun hleave hwait (hsets s)
  · intro hstarts visit after hacts hvisit
    rw [hstarts, hacts] at hrun
    exact Latch.countP_fires_on (along_append.mp hrun).1 hvisit
  · intro hstarts wait s after hacts hwait
    rw [hstarts, hacts] at hrun
    rw [← hfires s]
    exact Latch.fires_of_off hrun hwait (hsets s)

/-- A program that is started when its mode is entered. -/
def enterTv : RcEntry where
  prog := some "p".toList
  code := [⟨none, some "TV".toList⟩]
  config := ["start".toList]
  changeMode := some "tv".toList
  flags := { once := true }

/-- What two presses of its button do. -/
def enterTvTwice : List RcAct :=
  (callsTraced (some "p".toList)
    ["0000000000000001 00 TV rc\n".toList, "0000000000000001 00 TV rc\n".toList]
    (RcConfig.read "p".toList [enterTv])).1

theorem once_per_visit_twice : enterTvTwice.countP (RcAct.returns 0) ≤ 1 :=
  (once_per_visit "p".toList [enterTv]
    ["0000000000000001 00 TV rc\n".toList, "0000000000000001 00 TV rc\n".toList]
    (i := 0) (m := "tv".toList) rfl rfl rfl).1 [] enterTvTwice [] (by rfl) (by decide)

end Lirc
