import Lirc.Lircmd
import Lirc.Remote

/-!
The mouse mode of lircmd. An event is looked up in the whole list of the configuration and
every entry that matches it acts, so that a single event may enter the mode, move the mouse
and press a button. An event that no entry matches leaves the mode again, unless
`toggle_active` is set.

What `mouse_conv` does is cut into the entries that match and the end of a list without a
match. Over these a session also keeps how the mode has been entered, which the program
knows from `toggle_active` alone.
-/

namespace Lirc

open Transition

namespace MouseMode

open Lircmd (MouseEvent)

/-! ### The configuration -/

/-- `enum directive`. -/
inductive Directive where
  | moveN | moveNe | moveE | moveSe | moveS | moveSw | moveW | moveNw | moveIn | moveOut
  | button1Down | button1Up | button1Toggle | button1Click
  | button2Down | button2Up | button2Toggle | button2Click
  | button3Down | button3Up | button3Toggle | button3Click
  | mouseActivate | mouseToggleActivate | ignore
  deriving DecidableEq, Repr

/-- A set of mouse buttons, as the protocol of Mouse Systems has it. -/
abbrev Buttons := BitVec 32

def button1 : Buttons := 0x04
def button2 : Buttons := 0x02
def button3 : Buttons := 0x01

def allButtons : Buttons := button1 ||| button2 ||| button3

/-- `map_buttons`. -/
def mapButtons (b : Buttons) : Fin 3 :=
  if b = button1 then 0 else if b = button2 then 1 else 2

/-- A row of `config_table`, without its name. -/
structure ConfigMouse where
  d : Directive
  x : ℤ := 0
  y : ℤ := 0
  z : ℤ := 0
  down : Buttons := 0
  up : Buttons := 0
  toggle : Bool := false
  deriving DecidableEq, Repr

def configTable : List ConfigMouse :=
  [ { d := .moveN, x := 0, y := 1 },
    { d := .moveNe, x := 1, y := 1 },
    { d := .moveE, x := 1, y := 0 },
    { d := .moveSe, x := 1, y := -1 },
    { d := .moveS, x := 0, y := -1 },
    { d := .moveSw, x := -1, y := -1 },
    { d := .moveW, x := -1, y := 0 },
    { d := .moveNw, x := -1, y := 1 },
    { d := .moveIn, z := -1 },
    { d := .moveOut, z := 1 },
    { d := .button1Down, down := button1 },
    { d := .button1Up, up := button1 },
    { d := .button1Toggle, down := button1, up := button1, toggle := true },
    { d := .button1Click, down := button1, up := button1 },
    { d := .button2Down, down := button2 },
    { d := .button2Up, up := button2 },
    { d := .button2Toggle, down := button2, up := button2, toggle := true },
    { d := .button2Click, down := button2, up := button2 },
    { d := .button3Down, down := button3 },
    { d := .button3Up, up := button3 },
    { d := .button3Toggle, down := button3, up := button3, toggle := true },
    { d := .button3Click, down := button3, up := button3 },
    { d := .ignore } ]

/-- An entry of the configuration. `none` is the wildcard `ALL`. -/
structure TransMouse where
  remote : Option Name
  button : Option Name
  directive : Directive
  deriving DecidableEq, Repr

inductive Protocol where
  | mouseSystems | imps2 | imSerial
  deriving DecidableEq, Repr

/-- What `read_config` returns of a file. -/
structure Config where
  entries : List TransMouse
  protocol : Protocol := .mouseSystems
  accStart : ℤ := 2
  accMax : ℤ := 20
  accFak : ℤ := 2
  deriving DecidableEq, Repr

/-- The file has a line `ACTIVATE` or `TOGGLE_ACTIVATE`. -/
def Config.UsesActivate (c : Config) : Prop :=
  ∃ tm ∈ c.entries, tm.directive = .mouseActivate ∨ tm.directive = .mouseToggleActivate

instance (c : Config) : Decidable c.UsesActivate :=
  inferInstanceAs (Decidable (∃ tm ∈ c.entries, _))

/-! ### The state -/

/-- `struct state_mouse`. -/
structure StateMouse where
  protocol : Protocol := .mouseSystems
  alwaysActive : Bool := true
  toggleActive : Bool := false
  active : Bool := false
  accStart : ℤ := 2
  accMax : ℤ := 20
  accFak : ℤ := 2
  /-- The buttons that are down. -/
  buttons : Fin 3 → Bool := fun _ => false

/-- What is written to the input device of the kernel. -/
inductive InputEvent where
  | relX (dx : ℤ)
  | relY (dy : ℤ)
  | relWheel (dz : ℤ)
  | key (button : Buttons) (pressed : Bool)
  | synReport
  deriving DecidableEq, Repr

/-- The state of the program: the two devices, of which one is open, the list, the state
and the static `buttons` of `msend`, and what has been written. -/
structure Mouse where
  lircm : Bool
  uinput : Bool
  tmFirst : List TransMouse := []
  ms : StateMouse := {}
  pressed : Buttons := 0
  packets : List (List (BitVec 8)) := []
  inputs : List InputEvent := []

/-! ### Sending -/

/-- How often a movement is sent. -/
def acceleration (ms : StateMouse) (rep : ℤ) : ℤ :=
  if ms.accStart ≤ rep then
    if ms.accMax ≤ rep * ms.accFak then ms.accMax else rep * ms.accFak
  else 1

/-- `im_serial` negates `dy`, and it stays negated for the device of the kernel. -/
def sentDy (protocol : Protocol) (dy : ℤ) : ℤ :=
  match protocol with
  | .imSerial => -dy
  | _ => dy

/-- The buffer of a protocol, given the `dy` that is sent. -/
def packet (protocol : Protocol) (buttons : Buttons) (dx dy dz : ℤ) : List (BitVec 8) :=
  let holds (b : Buttons) (code : BitVec 8) : BitVec 8 := if buttons &&& b ≠ 0 then code else 0
  match protocol with
  | .mouseSystems =>
      [(~~~(buttons ||| 0x78)).setWidth 8, BitVec.ofInt 8 dx, BitVec.ofInt 8 dy, 0, 0]
  | .imps2 =>
      [holds button1 0x01 ||| holds button3 0x02 ||| holds button2 0x04 ||| 0x08 |||
          (if dx < 0 then 0x10 else 0) ||| (if dy < 0 then 0x20 else 0),
        BitVec.ofInt 8 (dx + if 0 ≤ dx then 0 else 256),
        BitVec.ofInt 8 (dy + if 0 ≤ dy then 0 else 256),
        BitVec.ofInt 8 dz]
  | .imSerial =>
      let x := BitVec.ofInt 32 dx
      let y := BitVec.ofInt 32 dy
      [holds button1 0x20 ||| holds button3 0x10 ||| 0x40 |||
          ((x &&& 0xC0) >>> 6).setWidth 8 ||| ((y &&& 0xC0) >>> 4).setWidth 8,
        (x &&& ~~~0xC0).setWidth 8,
        (y &&& ~~~0xC0).setWidth 8,
        (if dz < 0 then 0x0f else 0) ||| (if 0 < dz then 0x01 else 0) ||| holds button2 0x10]

/-- The events of one turn, with a report behind each. -/
def inputEvents (dx dy dz : ℤ) (buttp buttr : Buttons) : List InputEvent :=
  (if dx ≠ 0 ∨ dy ≠ 0 then [.relX dx, .relY dy, .synReport] else []) ++
    (if dz ≠ 0 then [.relWheel dz, .synReport] else []) ++
    [button1, button2, button3].flatMap fun b =>
      (if buttp &&& b ≠ 0 then [.key b true, .synReport] else []) ++
        (if buttr &&& b ≠ 0 then [.key b false, .synReport] else [])

def msend (dx dy dz rep : ℤ) (buttp buttr : Buttons) (m : Mouse) : Mouse :=
  let f := (acceleration m.ms rep).toNat
  let buttons := (m.pressed ||| buttp) &&& ~~~buttr
  let dy := sentDy m.ms.protocol dy
  { m with
    pressed := buttons
    packets := m.packets ++
      if m.lircm then List.replicate f (packet m.ms.protocol buttons dx dy dz) else []
    inputs := m.inputs ++
      if m.uinput then (List.replicate f (inputEvents dx dy dz buttp buttr)).flatten else [] }

def mouseMove (dx dy dz rep : ℤ) (m : Mouse) : Mouse := msend dx dy dz rep 0 0 m

/-- The buttons of a set go down or up. -/
def setButtons (set : Buttons) (down : Bool) (buttons : Fin 3 → Bool) : Fin 3 → Bool :=
  [button1, button2, button3].foldl
    (fun buttons b =>
      if set &&& b ≠ 0 then Function.update buttons (mapButtons b) down else buttons)
    buttons

def mouseButton (down up : Buttons) (rep : ℤ) (m : Mouse) : Mouse :=
  if rep = 0 then
    let m := msend 0 0 0 rep down up m
    { m with ms.buttons := setButtons up false (setButtons down true m.ms.buttons) }
  else m

/-! ### The circle -/

def circleSteps : List ℤ := [1, 0, -1, -1, -1, 0, 1, 1]

/-- `dd[i % 8]`. -/
def dd (i : ℕ) : ℤ := circleSteps.getD (i % 8) 0

/-- The moves of an eighth of a circle: the `while` loop of `mouse_circle`. -/
def octant (i : ℕ) (dirx diry x y d incX incY : ℤ) : List (ℤ × ℤ) :=
  if x < y then
    if 0 ≤ d then
      (dirx * dd i, diry * dd (i + 8 - 6)) ::
        octant i dirx diry (x + 1) (y - 1) (d - (incY - 2) + (incX + 2 + 1)) (incX + 2)
          (incY - 2)
    else
      (dirx * dd (i + 8 - 1), diry * dd (i + 8 - 7)) ::
        octant i dirx diry (x + 1) y (d + (incX + 2 + 1)) (incX + 2) incY
  else []
termination_by (y - x).toNat

def mouseCircle (r dirx diry : ℤ) (m : Mouse) : Mouse :=
  ((List.range 8).flatMap fun i => octant i dirx diry 0 r (1 - r) 0 (2 * r)).foldl
    (fun m move => mouseMove move.1 move.2 0 0 m) m

/-- `CIRCLE`. -/
def circle : ℤ := 10

/-! ### The mode -/

def activate (m : Mouse) : Mouse :=
  mouseCircle circle 1 1 { m with ms.active := true }

def deactivate (m : Mouse) : Mouse :=
  let m := mouseButton 0 allButtons 0 m
  mouseCircle circle (-1) 1 { m with ms.active := false }

/-- What a row of `config_table` says. -/
def act (row : ConfigMouse) (rep : ℤ) (m : Mouse) : Mouse :=
  let m := if row.x ≠ 0 ∨ row.y ≠ 0 ∨ row.z ≠ 0 then mouseMove row.x row.y row.z rep m else m
  if row.toggle then
    if m.ms.buttons (mapButtons row.up) = false then mouseButton row.down 0 rep m
    else mouseButton 0 row.up rep m
  else if row.down ≠ 0 ∧ row.up ≠ 0 then
    mouseButton 0 row.up rep (mouseButton row.down 0 rep m)
  else if row.down ≠ 0 ∨ row.up ≠ 0 then mouseButton row.down row.up rep m
  else m

/-- The first part of an entry: the mode is entered or left. -/
def switchMode (d : Directive) (rep : ℤ) (m : Mouse) : Mouse :=
  if d = .mouseActivate then
    if m.ms.active = false ∧ m.ms.alwaysActive = false then activate m else m
  else if d = .mouseToggleActivate ∧ rep = 0 then
    if m.ms.alwaysActive = false then
      if m.ms.active = false then
        let m := activate m
        { m with ms.toggleActive := true }
      else deactivate m
    else m
  else m

/-- The second part: the mouse acts. -/
def actOn (d : Directive) (rep : ℤ) (m : Mouse) : Mouse :=
  if d ≠ .ignore ∧ (m.ms.active = true ∨ m.ms.alwaysActive = true) then
    match configTable.find? (fun row => row.d = d) with
    | some row => act row rep m
    | none => m
  else m

/-- The body of the loop for an entry that matches. -/
def convEntry (d : Directive) (rep : ℤ) (m : Mouse) : Mouse :=
  actOn d rep (switchMode d rep m)

def TransMouse.matches (tm : TransMouse) (e : MouseEvent) : Bool :=
  tm.remote.all (strcaseeq e.remote) && tm.button.all (strcaseeq e.button)

/-- The loop of `mouse_conv`, with `found`. -/
def convLoop (e : MouseEvent) : List TransMouse → Mouse × Bool → Mouse × Bool
  | [], s => s
  | tm :: tms, (m, found) =>
      if tm.matches e then convLoop e tms (convEntry tm.directive e.rep m, true)
      else convLoop e tms (m, found)

/-- `found == 0`: no entry has matched. -/
def leave (m : Mouse) : Mouse :=
  if m.ms.active = true ∧ m.ms.alwaysActive = false ∧ m.ms.toggleActive = false then
    deactivate m
  else m

def mouseConv (e : MouseEvent) (m : Mouse) : Mouse :=
  let (m, found) := convLoop e m.tmFirst (m, false)
  if found then m else leave m

/-- `new_ms`, as `read_config` leaves it. -/
def newMs (c : Config) (ms : StateMouse) : StateMouse :=
  { ms with
    protocol := c.protocol
    alwaysActive := !decide c.UsesActivate
    toggleActive := false
    accStart := c.accStart
    accMax := c.accMax
    accFak := c.accFak }

/-- `dohup` for a file that could be read. -/
def reload (c : Config) (m : Mouse) : Mouse :=
  { m with tmFirst := c.entries, ms := newMs c m.ms }

/-- What happens to lircmd: an event of lircd, or a request to read the configuration
again, which fails with `none`. -/
inductive Input where
  | event (e : MouseEvent)
  | hup (c : Option Config)

def handle (m : Mouse) : Input → Mouse
  | .event e => mouseConv e m
  | .hup (some c) => reload c m
  | .hup none => m

/-- lircmd after it has read its configuration. -/
def start (lircm uinput : Bool) (c : Config) : Mouse := reload c { lircm, uinput }

/-! ### Single actions -/

/-- A part of the work: one entry that matches, the end of a list without a match, a new
configuration. -/
inductive Action where
  | entry (d : Directive) (rep : ℤ)
  | unmatched
  | reload (c : Config)
  deriving DecidableEq

def perform (m : Mouse) : Action → Mouse
  | .entry d rep => convEntry d rep m
  | .unmatched => leave m
  | .reload c => reload c m

/-- What an event is under a list. -/
def actionsOf (tms : List TransMouse) (e : MouseEvent) : List Action :=
  match tms.filter (·.matches e) with
  | [] => [.unmatched]
  | found => found.map fun tm => .entry tm.directive e.rep

/-- What a series is under a list that may be replaced on the way. -/
def actions (tms : List TransMouse) : List Input → List Action
  | [] => []
  | .event e :: rest => actionsOf tms e ++ actions tms rest
  | .hup (some c) :: rest => .reload c :: actions c.entries rest
  | .hup none :: rest => actions tms rest

/-- The program, and the entry through which the mode has been entered. -/
structure Session where
  mouse : Mouse
  entered : Option Directive := none

def Action.directive : Action → Option Directive
  | .entry d _ => some d
  | _ => none

/-- How the mode has been entered is read off `active` before and after. -/
def step (s : Session) (a : Action) : Session :=
  let m := perform s.mouse a
  { mouse := m
    entered :=
      if m.ms.active then if s.mouse.ms.active then s.entered else a.directive else none }

/-- `toggle_active` is set in a mode that is active and has been toggled; outside the mode
no button is down. -/
structure Proper (s : Session) : Prop where
  toggle : s.mouse.ms.toggleActive = true →
    s.mouse.ms.active = true ∧ s.entered = some .mouseToggleActivate
  released : s.mouse.ms.active = false →
    (∀ b, s.mouse.ms.buttons b = false) ∧ s.mouse.pressed = 0

/-- The step reaches a proper state. An event without a match leaves a mode that has been
entered through `ACTIVATE`, and nothing but an entry `TOGGLE_ACTIVATE` leaves one that has
been entered through it. -/
structure EndsAsConfigured (s : Session) (a : Action) : Prop where
  proper : Proper (step s a)
  activated : a = .unmatched → s.entered = some .mouseActivate →
    (step s a).mouse.ms.active = false
  toggled : s.entered = some .mouseToggleActivate → (step s a).mouse.ms.active = false →
    ∃ rep, a = .entry .mouseToggleActivate rep

/-- The action is not the one that leaves a mode with `toggle_active`. -/
def NotToggledOut (s : Session) (a : Action) : Prop :=
  a = .entry .mouseToggleActivate 0 → s.mouse.ms.active = true → s.mouse.ms.toggleActive = false

/-- No configuration is read while `toggle_active` is set. -/
def NotReloaded (s : Session) (a : Action) : Prop :=
  ∀ c, a = .reload c → s.mouse.ms.toggleActive = false

/-! ### What sending leaves alone -/

section Sending

variable (dx dy dz rep : ℤ) (down up : Buttons) (m : Mouse)

@[simp] theorem msend_ms : (msend dx dy dz rep down up m).ms = m.ms := rfl

@[simp] theorem msend_tmFirst : (msend dx dy dz rep down up m).tmFirst = m.tmFirst := rfl

@[simp] theorem msend_pressed :
    (msend dx dy dz rep down up m).pressed = (m.pressed ||| down) &&& ~~~up := rfl

@[simp] theorem mouseMove_ms : (mouseMove dx dy dz rep m).ms = m.ms := rfl

@[simp] theorem mouseMove_tmFirst : (mouseMove dx dy dz rep m).tmFirst = m.tmFirst := rfl

@[simp] theorem mouseMove_pressed : (mouseMove dx dy dz rep m).pressed = m.pressed := by
  change (m.pressed ||| 0#32) &&& ~~~0#32 = m.pressed
  rw [BitVec.or_zero, BitVec.not_zero, BitVec.and_allOnes]

/-- A circle only moves. -/
theorem foldl_mouseMove (moves : List (ℤ × ℤ)) :
    (moves.foldl (fun m move => mouseMove move.1 move.2 0 0 m) m).ms = m.ms ∧
      (moves.foldl (fun m move => mouseMove move.1 move.2 0 0 m) m).pressed = m.pressed ∧
      (moves.foldl (fun m move => mouseMove move.1 move.2 0 0 m) m).tmFirst = m.tmFirst := by
  induction moves generalizing m with
  | nil => exact ⟨rfl, rfl, rfl⟩
  | cons move moves ih =>
      obtain ⟨hms, hpressed, htms⟩ := ih (mouseMove move.1 move.2 0 0 m)
      simp only [List.foldl_cons, hms, hpressed, htms, mouseMove_ms, mouseMove_pressed,
        mouseMove_tmFirst, and_self]

@[simp] theorem mouseCircle_ms (r dirx diry : ℤ) : (mouseCircle r dirx diry m).ms = m.ms :=
  (foldl_mouseMove m _).1

@[simp] theorem mouseCircle_pressed (r dirx diry : ℤ) :
    (mouseCircle r dirx diry m).pressed = m.pressed := (foldl_mouseMove m _).2.1

@[simp] theorem mouseCircle_tmFirst (r dirx diry : ℤ) :
    (mouseCircle r dirx diry m).tmFirst = m.tmFirst := (foldl_mouseMove m _).2.2

@[simp] theorem activate_ms : (activate m).ms = { m.ms with active := true } := by
  simp [activate]

@[simp] theorem activate_pressed : (activate m).pressed = m.pressed := by
  simp [activate]

@[simp] theorem activate_tmFirst : (activate m).tmFirst = m.tmFirst := by
  simp [activate]

theorem setButtons_all (buttons : Fin 3 → Bool) :
    setButtons allButtons false buttons = fun _ => false := by
  funext b
  match b with
  | 0 | 1 | 2 => simp [setButtons, allButtons, button1, button2, button3, mapButtons]

/-- All buttons go up before the mode is left. -/
@[simp] theorem deactivate_ms :
    (deactivate m).ms = { m.ms with active := false, buttons := fun _ => false } := by
  simp [deactivate, mouseButton, setButtons_all]

@[simp] theorem deactivate_pressed : (deactivate m).pressed = m.pressed &&& ~~~allButtons := by
  simp [deactivate, mouseButton]

@[simp] theorem deactivate_tmFirst : (deactivate m).tmFirst = m.tmFirst := by
  simp [deactivate, mouseButton]

end Sending

/-! ### What an entry leaves alone -/

/-- `msend` holds down nothing but the three buttons. -/
def Inside (m : Mouse) : Prop := m.pressed &&& ~~~allButtons = 0

/-- Nothing but the buttons has changed. -/
structure OnlyButtons (m m' : Mouse) : Prop where
  ms : m'.ms = { m.ms with buttons := m'.ms.buttons }
  tmFirst : m'.tmFirst = m.tmFirst
  inside : Inside m → Inside m'

theorem OnlyButtons.rfl {m : Mouse} : OnlyButtons m m := ⟨Eq.refl _, Eq.refl _, id⟩

theorem OnlyButtons.trans {m m' m'' : Mouse} (h : OnlyButtons m m') (h' : OnlyButtons m' m'') :
    OnlyButtons m m'' where
  ms := by rw [h'.ms, h.ms]
  tmFirst := h'.tmFirst.trans h.tmFirst
  inside := h'.inside ∘ h.inside

theorem onlyButtons_mouseMove (dx dy dz rep : ℤ) (m : Mouse) :
    OnlyButtons m (mouseMove dx dy dz rep m) where
  ms := by rw [mouseMove_ms]
  tmFirst := by rw [mouseMove_tmFirst]
  inside h := by rwa [Inside, mouseMove_pressed]

theorem onlyButtons_mouseButton {down : Buttons} (hdown : down &&& ~~~allButtons = 0)
    (up : Buttons) (rep : ℤ) (m : Mouse) : OnlyButtons m (mouseButton down up rep m) := by
  rw [mouseButton]
  split
  · refine ⟨Eq.refl _, Eq.refl _, fun h => ?_⟩
    -- What goes up again stays within the three buttons as well.
    have hor : (m.pressed ||| down) &&& ~~~allButtons = 0 := by
      rw [BitVec.and_comm, BitVec.and_or_distrib_left, BitVec.and_comm, h, BitVec.and_comm, hdown]
      rfl
    simp only [Inside, msend_pressed]
    rw [BitVec.and_assoc, BitVec.and_comm (~~~up), ← BitVec.and_assoc, hor]
    exact BitVec.zero_and
  · exact .rfl

theorem configTable_down : ∀ row ∈ configTable, row.down &&& ~~~allButtons = 0 := by
  decide

theorem onlyButtons_act {row : ConfigMouse} (hrow : row ∈ configTable) (rep : ℤ) (m : Mouse) :
    OnlyButtons m (act row rep m) := by
  have hdown := configTable_down row hrow
  have hzero : (0 : Buttons) &&& ~~~allButtons = 0 := BitVec.zero_and
  have hmove : OnlyButtons m
      (if row.x ≠ 0 ∨ row.y ≠ 0 ∨ row.z ≠ 0 then mouseMove row.x row.y row.z rep m else m) := by
    split
    · exact onlyButtons_mouseMove _ _ _ _ _
    · exact .rfl
  rw [act]
  generalize (if row.x ≠ 0 ∨ row.y ≠ 0 ∨ row.z ≠ 0 then mouseMove row.x row.y row.z rep m
    else m) = moved at hmove ⊢
  apply hmove.trans
  split
  · split
    · exact onlyButtons_mouseButton hdown _ _ _
    · exact onlyButtons_mouseButton hzero _ _ _
  · split
    · exact (onlyButtons_mouseButton hdown _ _ _).trans (onlyButtons_mouseButton hzero _ _ _)
    · split
      · exact onlyButtons_mouseButton hdown _ _ _
      · exact .rfl

theorem onlyButtons_actOn (d : Directive) (rep : ℤ) (m : Mouse) :
    OnlyButtons m (actOn d rep m) := by
  rw [actOn]
  split
  · split
    · next row hrow => exact onlyButtons_act (List.mem_of_find?_eq_some hrow) rep m
    · exact .rfl
  · exact .rfl

/-- Outside the mode an entry does not move the mouse. -/
theorem actOn_inactive {d : Directive} {rep : ℤ} {m : Mouse} (hactive : m.ms.active = false)
    (halways : m.ms.alwaysActive = false) : actOn d rep m = m := by
  simp [actOn, hactive, halways]

/-! ### The flags after an action -/

/-- Outside the mode no button is down. -/
def Released (m : Mouse) : Prop :=
  m.ms.active = false → (∀ b, m.ms.buttons b = false) ∧ m.pressed = 0

theorem activate_inside {m : Mouse} (hinside : Inside m) : Inside (activate m) := by
  rwa [Inside, activate_pressed]

theorem deactivate_inside {m : Mouse} (hinside : Inside m) : Inside (deactivate m) := by
  rw [Inside, deactivate_pressed, hinside]
  exact BitVec.zero_and

theorem activate_released (m : Mouse) : Released (activate m) := by
  intro hactive
  rw [activate_ms] at hactive
  exact absurd hactive Bool.noConfusion

theorem deactivate_released {m : Mouse} (hinside : Inside m) : Released (deactivate m) := by
  intro _
  rw [deactivate_ms, deactivate_pressed]
  exact ⟨fun _ => rfl, hinside⟩

section Flags

variable {m : Mouse} (halways : m.ms.alwaysActive = false) (d : Directive) (rep : ℤ)

include halways

theorem switchMode_active : (switchMode d rep m).ms.active =
    if d = .mouseActivate then true
    else if d = .mouseToggleActivate ∧ rep = 0 then !m.ms.active
    else m.ms.active := by
  rw [switchMode]
  cases hactive : m.ms.active <;> split_ifs <;> simp_all

theorem switchMode_toggleActive : (switchMode d rep m).ms.toggleActive =
    if d = .mouseToggleActivate ∧ rep = 0 ∧ m.ms.active = false then true
    else m.ms.toggleActive := by
  rw [switchMode]
  cases hactive : m.ms.active <;> split_ifs <;> simp_all

theorem switchMode_alwaysActive : (switchMode d rep m).ms.alwaysActive = false := by
  rw [switchMode]
  split_ifs <;> simp [halways]

omit halways

theorem switchMode_inside (hinside : Inside m) : Inside (switchMode d rep m) := by
  rw [switchMode]
  split_ifs
  · exact activate_inside hinside
  · exact hinside
  · rw [Inside]
    dsimp only
    rw [activate_pressed]
    exact hinside
  · exact deactivate_inside hinside
  · exact hinside
  · exact hinside

theorem switchMode_released (hinside : Inside m) (h : Released m) :
    Released (switchMode d rep m) := by
  rw [switchMode]
  split_ifs
  · exact activate_released m
  · exact h
  · intro hactive
    change (activate m).ms.active = false at hactive
    rw [activate_ms] at hactive
    exact absurd hactive Bool.noConfusion
  · exact deactivate_released hinside
  · exact h
  · exact h

/-! The mouse acts only in the mode, so that what it presses does not matter. -/

theorem convEntry_released (halways : m.ms.alwaysActive = false) (hinside : Inside m)
    (h : Released m) : Released (convEntry d rep m) := by
  have hacts := onlyButtons_actOn d rep (switchMode d rep m)
  cases hactive : (switchMode d rep m).ms.active with
  | false =>
      rw [convEntry, actOn_inactive hactive (switchMode_alwaysActive halways d rep)]
      exact switchMode_released d rep hinside h
  | true =>
      intro hleft
      rw [convEntry, hacts.ms, hactive] at hleft
      exact absurd hleft Bool.noConfusion

theorem convEntry_inside (hinside : Inside m) : Inside (convEntry d rep m) :=
  (onlyButtons_actOn d rep _).inside (switchMode_inside d rep hinside)

theorem convEntry_active : (convEntry d rep m).ms.active = (switchMode d rep m).ms.active := by
  rw [convEntry, (onlyButtons_actOn d rep _).ms]

theorem convEntry_toggleActive :
    (convEntry d rep m).ms.toggleActive = (switchMode d rep m).ms.toggleActive := by
  rw [convEntry, (onlyButtons_actOn d rep _).ms]

theorem convEntry_alwaysActive :
    (convEntry d rep m).ms.alwaysActive = (switchMode d rep m).ms.alwaysActive := by
  rw [convEntry, (onlyButtons_actOn d rep _).ms]

end Flags

/-! ### The program over the actions -/

theorem switchMode_tmFirst (d : Directive) (rep : ℤ) (m : Mouse) :
    (switchMode d rep m).tmFirst = m.tmFirst := by
  rw [switchMode]
  split_ifs
  all_goals simp

theorem convEntry_tmFirst (d : Directive) (rep : ℤ) (m : Mouse) :
    (convEntry d rep m).tmFirst = m.tmFirst :=
  (onlyButtons_actOn d rep _).tmFirst.trans (switchMode_tmFirst d rep m)

theorem leave_tmFirst (m : Mouse) : (leave m).tmFirst = m.tmFirst := by
  rw [leave]
  split_ifs
  all_goals simp

/-- The loop acts for the entries that match, one after the other. -/
theorem convLoop_eq (e : MouseEvent) (tms : List TransMouse) (m : Mouse) (found : Bool) :
    convLoop e tms (m, found) =
      (run perform m ((tms.filter (·.matches e)).map fun tm => .entry tm.directive e.rep),
        found || tms.any (·.matches e)) := by
  induction tms generalizing m found with
  | nil => simp [convLoop]
  | cons tm tms ih =>
      rw [convLoop]
      cases hmatch : tm.matches e with
      | true =>
          rw [if_pos rfl, ih, List.filter_cons, hmatch, if_pos rfl, List.map_cons, run_cons,
            List.any_cons, hmatch, Bool.true_or, Bool.or_true]
          rfl
      | false =>
          rw [if_neg Bool.false_ne_true, ih, List.filter_cons, hmatch,
            if_neg Bool.false_ne_true, List.any_cons, hmatch, Bool.false_or]

theorem mouseConv_eq (e : MouseEvent) (m : Mouse) :
    mouseConv e m = run perform m (actionsOf m.tmFirst e) := by
  rw [mouseConv, convLoop_eq, actionsOf]
  cases hfound : m.tmFirst.filter (·.matches e) with
  | nil =>
      have hany : m.tmFirst.any (·.matches e) = false := by
        simpa [List.filter_eq_nil_iff] using hfound
      simp [hany, perform]
  | cons tm tms =>
      have hmem : tm ∈ m.tmFirst.filter (·.matches e) := hfound ▸ List.mem_cons_self
      have hany : m.tmFirst.any (·.matches e) = true :=
        List.any_eq_true.mpr ⟨tm, List.mem_filter.mp hmem⟩
      simp [hany]

/-- No action but a new configuration replaces the list. -/
theorem run_actionsOf_tmFirst (e : MouseEvent) (tms : List TransMouse) (m : Mouse) :
    (run perform m (actionsOf tms e)).tmFirst = m.tmFirst := by
  have hentries : ∀ (found : List TransMouse) (m : Mouse),
      (run perform m (found.map fun tm => .entry tm.directive e.rep)).tmFirst = m.tmFirst := by
    intro found
    induction found with
    | nil => exact fun m => rfl
    | cons tm found ih =>
        intro m
        rw [List.map_cons, run_cons, ih]
        exact convEntry_tmFirst _ _ _
  rw [actionsOf]
  split
  · exact leave_tmFirst m
  · exact hentries _ m

/-- What lircmd does is the series of its actions. -/
theorem run_handle (m : Mouse) (inputs : List Input) :
    run handle m inputs = run perform m (actions m.tmFirst inputs) := by
  induction inputs generalizing m with
  | nil => rfl
  | cons input inputs ih =>
      rw [run_cons, ih]
      match input with
      | .event e =>
          rw [actions, run_append, handle, ← mouseConv_eq]
          rw [mouseConv_eq, run_actionsOf_tmFirst]
      | .hup (some c) => rfl
      | .hup none => rfl

/-- A session goes along with the program. -/
theorem run_step_mouse (s : Session) (as : List Action) :
    (run step s as).mouse = run perform s.mouse as := by
  induction as generalizing s with
  | nil => rfl
  | cons a as ih =>
      rw [run_cons, run_cons, ih]
      rfl

theorem session_mouse (lircm uinput : Bool) (c : Config) (inputs : List Input) :
    (run step ⟨start lircm uinput c, none⟩ (actions c.entries inputs)).mouse =
      run handle (start lircm uinput c) inputs := by
  rw [run_step_mouse, run_handle]
  rfl

/-! ### Sessions -/

/-- Every configuration that is read has a line that enters the mode. -/
def Action.UsesActivate : Action → Prop
  | .reload c => c.UsesActivate
  | _ => True

/-- `toggle_active` says that the mode has been entered by an entry `TOGGLE_ACTIVATE`. -/
structure Tracks (s : Session) : Prop where
  always : s.mouse.ms.alwaysActive = false
  inside : Inside s.mouse
  released : Released s.mouse
  toggle : s.mouse.ms.toggleActive = true ↔ s.entered = some .mouseToggleActivate
  active : s.mouse.ms.active = false → s.entered = none

section Session

variable {s : Session}

theorem Tracks.proper (h : Tracks s) : Proper s where
  toggle htoggle := by
    have hentered := h.toggle.mp htoggle
    refine ⟨?_, hentered⟩
    by_contra hactive
    rw [h.active (Bool.eq_false_of_not_eq_true hactive)] at hentered
    exact absurd hentered (Option.some_ne_none _).symm
  released := h.released

/-- The step of a mode that stays as it is. -/
theorem step_entered_of_active {a : Action} (hactive : s.mouse.ms.active = true)
    (hafter : (perform s.mouse a).ms.active = true) : (step s a).entered = s.entered := by
  simp [step, hactive, hafter]

theorem step_entered_of_inactive {a : Action} (hafter : (perform s.mouse a).ms.active = false) :
    (step s a).entered = none := by
  simp [step, hafter]

theorem step_entered_of_enters {a : Action} (hactive : s.mouse.ms.active = false)
    (hafter : (perform s.mouse a).ms.active = true) : (step s a).entered = a.directive := by
  simp [step, hactive, hafter]

/-- An action that leaves both flags as they are. -/
theorem Tracks.of_flags {a : Action} (h : Tracks s)
    (halways : (perform s.mouse a).ms.alwaysActive = false) (hinside : Inside (perform s.mouse a))
    (hreleased : Released (perform s.mouse a))
    (hactive : (perform s.mouse a).ms.active = s.mouse.ms.active)
    (htoggle : (perform s.mouse a).ms.toggleActive = s.mouse.ms.toggleActive) :
    Tracks (step s a) := by
  have hentered : (step s a).entered = s.entered := by
    cases hbefore : s.mouse.ms.active with
    | true => exact step_entered_of_active hbefore (hactive.trans hbefore)
    | false => rw [step_entered_of_inactive (hactive.trans hbefore), h.active hbefore]
  refine ⟨halways, hinside, hreleased, ?_, ?_⟩
  · rw [hentered, ← h.toggle, step, htoggle]
  · rw [hentered, step, hactive]
    exact h.active

theorem Tracks.toggle_false (h : Tracks s) (hactive : s.mouse.ms.active = false) :
    s.mouse.ms.toggleActive = false := by
  by_contra htoggle
  have hentered := h.toggle.mp (Bool.eq_true_of_not_eq_false htoggle)
  rw [h.active hactive] at hentered
  exact absurd hentered (Option.some_ne_none _).symm

theorem Tracks.enter {a : Action} {d : Directive} (ha : a.directive = some d)
    (hbefore : s.mouse.ms.active = false)
    (halways : (perform s.mouse a).ms.alwaysActive = false) (hinside : Inside (perform s.mouse a))
    (hactive : (perform s.mouse a).ms.active = true)
    (htoggle : (perform s.mouse a).ms.toggleActive = true ↔ d = .mouseToggleActivate) :
    Tracks (step s a) := by
  have hentered := (step_entered_of_enters hbefore hactive).trans ha
  refine ⟨halways, hinside, fun h => ?_, ?_, fun h => ?_⟩
  · exact absurd (hactive.symm.trans h) Bool.noConfusion
  · rw [hentered, Option.some.injEq, ← htoggle, step]
  · exact absurd (hactive.symm.trans h) Bool.noConfusion

theorem Tracks.exit {a : Action} (halways : (perform s.mouse a).ms.alwaysActive = false)
    (hinside : Inside (perform s.mouse a)) (hreleased : Released (perform s.mouse a))
    (hactive : (perform s.mouse a).ms.active = false)
    (htoggle : (perform s.mouse a).ms.toggleActive = false) : Tracks (step s a) := by
  have hentered := step_entered_of_inactive hactive
  refine ⟨halways, hinside, hreleased, ?_, fun _ => hentered⟩
  rw [hentered, step, htoggle]
  exact ⟨fun h => absurd h Bool.noConfusion, fun h => absurd h (Option.some_ne_none _).symm⟩

theorem Tracks.entry (h : Tracks s) {d : Directive} {rep : ℤ}
    (hout : NotToggledOut s (.entry d rep)) : Tracks (step s (.entry d rep)) := by
  have halways := (convEntry_alwaysActive d rep).trans (switchMode_alwaysActive h.always d rep)
  have hinside := convEntry_inside d rep h.inside
  have hreleased := convEntry_released d rep h.always h.inside h.released
  have hactive := (convEntry_active d rep).trans (switchMode_active h.always d rep)
  have htoggle := (convEntry_toggleActive d rep).trans (switchMode_toggleActive h.always d rep)
  by_cases hd : d = .mouseActivate
  · subst hd
    simp only [if_true, reduceCtorEq, false_and, if_false] at hactive htoggle
    cases hbefore : s.mouse.ms.active with
    | true => exact h.of_flags halways hinside hreleased (hactive.trans hbefore.symm) htoggle
    | false =>
        refine Tracks.enter rfl hbefore halways hinside hactive ?_
        rw [perform, htoggle, h.toggle_false hbefore]
        exact ⟨fun h => absurd h Bool.noConfusion, fun h => absurd h Directive.noConfusion⟩
  by_cases htoggles : d = .mouseToggleActivate ∧ rep = 0
  · obtain ⟨rfl, rfl⟩ := htoggles
    simp only [reduceCtorEq, if_false, and_self, if_true, true_and] at hactive htoggle
    cases hbefore : s.mouse.ms.active with
    | false =>
        rw [hbefore] at hactive htoggle
        exact Tracks.enter rfl hbefore halways hinside hactive ⟨fun _ => rfl, fun _ => htoggle⟩
    | true =>
        rw [hbefore] at hactive htoggle
        exact Tracks.exit halways hinside hreleased hactive (htoggle.trans (hout rfl hbefore))
  · rw [if_neg hd, if_neg htoggles] at hactive
    rw [if_neg fun hall => htoggles ⟨hall.1, hall.2.1⟩] at htoggle
    exact h.of_flags halways hinside hreleased hactive htoggle

theorem Tracks.toggled_in (h : Tracks s) (hactive : s.mouse.ms.active = false) :
    (step s (.entry .mouseToggleActivate 0)).mouse.ms.active = true ∧
      (step s (.entry .mouseToggleActivate 0)).mouse.ms.toggleActive = true := by
  rw [step, perform]
  dsimp only
  rw [convEntry_active, convEntry_toggleActive, switchMode_active h.always,
    switchMode_toggleActive h.always, hactive]
  exact ⟨rfl, rfl⟩

theorem Tracks.unmatched (h : Tracks s) : Tracks (step s .unmatched) := by
  by_cases hleave : s.mouse.ms.active = true ∧ s.mouse.ms.toggleActive = false
  · have hperform : perform s.mouse .unmatched = deactivate s.mouse := by
      simp [perform, leave, hleave, h.always]
    apply Tracks.exit
    · rw [hperform, deactivate_ms, h.always]
    · rw [hperform]
      exact deactivate_inside h.inside
    · rw [hperform]
      exact deactivate_released h.inside
    · rw [hperform, deactivate_ms]
    · rw [hperform, deactivate_ms, hleave.2]
  · have hperform : perform s.mouse .unmatched = s.mouse := by
      rw [perform, leave, if_neg]
      exact fun hall => hleave ⟨hall.1, hall.2.2⟩
    apply h.of_flags <;> rw [hperform]
    exacts [h.always, h.inside, h.released]

theorem Tracks.reload (h : Tracks s) {c : Config} (huse : c.UsesActivate)
    (hnot : s.mouse.ms.toggleActive = false) : Tracks (step s (.reload c)) := by
  refine h.of_flags ?_ h.inside h.released rfl hnot.symm
  simp [perform, MouseMode.reload, newMs, huse]

/-- A session that is tracked stays so up to the step that leaves the mode with
`toggle_active`. -/
theorem Tracks.step {a : Action} (h : Tracks s) (huse : a.UsesActivate) (hreload : NotReloaded s a)
    (hout : NotToggledOut s a) : Tracks (step s a) := by
  cases a with
  | entry d rep => exact h.entry hout
  | unmatched => exact h.unmatched
  | reload c => exact h.reload huse (hreload c rfl)

/-- That step leaves `toggle_active` behind. -/
theorem toggle_remains (h : Tracks s) {a : Action} (hout : ¬ NotToggledOut s a) :
    ¬ Proper (MouseMode.step s a) := by
  rw [NotToggledOut] at hout
  push Not at hout
  obtain ⟨rfl, hactive, htoggle⟩ := hout
  intro hproper
  have hset : (perform s.mouse (.entry .mouseToggleActivate 0)).ms.toggleActive = true := by
    rw [perform, convEntry_toggleActive, switchMode_toggleActive h.always, hactive]
    simpa using htoggle
  have hleft : (perform s.mouse (.entry .mouseToggleActivate 0)).ms.active = false := by
    rw [perform, convEntry_active, switchMode_active h.always, hactive]
    rfl
  exact absurd ((hproper.toggle hset).1.symm.trans hleft) Bool.noConfusion

/-- An event without a match leaves the mode of an entry `ACTIVATE`. -/
theorem Tracks.leave_activated (h : Tracks s) (hentered : s.entered = some .mouseActivate) :
    (MouseMode.step s .unmatched).mouse.ms.active = false := by
  have htoggle : s.mouse.ms.toggleActive = false := by
    by_contra htoggle
    have hother := h.toggle.mp (Bool.eq_true_of_not_eq_false htoggle)
    rw [hentered] at hother
    exact absurd (Option.some.inj hother) Directive.noConfusion
  change (leave s.mouse).ms.active = false
  rw [leave]
  split
  · rw [deactivate_ms]
  · next hstays =>
      by_contra hactive
      exact hstays ⟨Bool.eq_true_of_not_eq_false hactive, h.always, htoggle⟩

/-- Only an entry `TOGGLE_ACTIVATE` leaves the mode of one. -/
theorem Tracks.toggle_of_left (h : Tracks s) (hentered : s.entered = some .mouseToggleActivate)
    {a : Action} (hleft : (MouseMode.step s a).mouse.ms.active = false) :
    ∃ rep, a = .entry .mouseToggleActivate rep := by
  have htoggle := h.toggle.mpr hentered
  have hactive := (h.proper.toggle htoggle).1
  cases a with
  | entry d rep =>
      by_cases hd : d = .mouseToggleActivate
      · exact ⟨rep, by rw [hd]⟩
      · change (convEntry d rep s.mouse).ms.active = false at hleft
        rw [convEntry_active, switchMode_active h.always, hactive,
          if_neg (c := d = .mouseToggleActivate ∧ rep = 0) fun hall => hd hall.1,
          ite_self] at hleft
        exact absurd hleft Bool.noConfusion
  | unmatched =>
      change (leave s.mouse).ms.active = false at hleft
      rw [leave, if_neg fun hall => absurd (htoggle.symm.trans hall.2.2) Bool.noConfusion,
        hactive] at hleft
      exact absurd hleft Bool.noConfusion
  | reload c => exact absurd (hactive.symm.trans hleft) Bool.noConfusion

theorem Tracks.ends_iff {a : Action} (h : Tracks s) (huse : a.UsesActivate)
    (hreload : NotReloaded s a) : EndsAsConfigured s a ↔ NotToggledOut s a := by
  constructor
  · intro hends
    by_contra hout
    exact toggle_remains h hout hends.proper
  · intro hout
    refine ⟨(h.step huse hreload hout).proper, ?_, ?_⟩
    · rintro rfl hentered
      exact h.leave_activated hentered
    · intro hentered hleft
      exact h.toggle_of_left hentered hleft

end Session

theorem actions_usesActivate (tms : List TransMouse) (inputs : List Input)
    (huses : ∀ c, .hup (some c) ∈ inputs → Config.UsesActivate c) :
    ∀ a ∈ actions tms inputs, a.UsesActivate := by
  induction inputs generalizing tms with
  | nil => exact fun a ha => absurd ha List.not_mem_nil
  | cons input inputs ih =>
      have hrest := fun tms => ih tms fun c hc => huses c (List.mem_cons_of_mem _ hc)
      match input with
      | .event e =>
          intro a ha
          rcases List.mem_append.mp ha with ha | ha
          · rw [actionsOf] at ha
            split at ha
            · rw [List.mem_singleton.mp ha]
              trivial
            · obtain ⟨tm, -, rfl⟩ := List.mem_map.mp ha
              trivial
          · exact hrest tms a ha
      | .hup (some c) =>
          intro a ha
          rcases List.mem_cons.mp ha with rfl | ha
          · exact huses c List.mem_cons_self
          · exact hrest c.entries a ha
      | .hup none => exact hrest tms

theorem tracks_start (lircm uinput : Bool) {c : Config} (huse : c.UsesActivate) :
    Tracks ⟨start lircm uinput c, none⟩ where
  always := by simp [start, reload, newMs, huse]
  inside := BitVec.zero_and
  released _ := ⟨fun _ => rfl, rfl⟩
  toggle := ⟨fun h => absurd h Bool.noConfusion, fun h => absurd h (Option.some_ne_none _).symm⟩
  active _ := rfl

/-- A run that reads configurations only while `toggle_active` is not set ends its modes as
configured if and only if no mode is left by `TOGGLE_ACTIVATE` while it is set. -/
theorem mode_ends (lircm uinput : Bool) (c : Config) (inputs : List Input)
    (huse : c.UsesActivate)
    (huses : ∀ c', .hup (some c') ∈ inputs → Config.UsesActivate c')
    (hreload : Along step NotReloaded ⟨start lircm uinput c, none⟩ (actions c.entries inputs)) :
    Along step EndsAsConfigured ⟨start lircm uinput c, none⟩ (actions c.entries inputs) ↔
      Along step NotToggledOut ⟨start lircm uinput c, none⟩ (actions c.entries inputs) := by
  have hactions := actions_usesActivate c.entries inputs huses
  refine along_iff_along (B := fun s a => a.UsesActivate ∧ NotReloaded s a) (I := Tracks)
    ?_ ?_ (tracks_start lircm uinput huse) ?_
  · exact fun s a hs ha => hs.ends_iff ha.1 ha.2
  · exact fun s a hs ha hout => hs.step ha.1 ha.2 hout
  · exact (along_of_forall hactions).and hreload

/-- A configuration with a button for either way into the mode. -/
def twoWays : Config where
  entries :=
    [{ remote := none, button := some "power".toList, directive := .mouseToggleActivate },
      { remote := none, button := some "menu".toList, directive := .mouseActivate }]

def press (button : String) : Input := .event ⟨0, button.toList, "remote".toList⟩

theorem actions_twoWays : actions twoWays.entries [press "power", press "play"] =
    [.entry .mouseToggleActivate 0, .unmatched] := by
  decide

/-- A mode that has been toggled outlasts an event without a match. -/
theorem mode_ends_unmatched :
    Along step EndsAsConfigured ⟨start true false twoWays, none⟩
      (actions twoWays.entries [press "power", press "play"]) := by
  refine (mode_ends true false twoWays [press "power", press "play"] (by decide) ?_ ?_).mpr ?_
  · simp [press]
  · rw [actions_twoWays]
    exact ⟨fun c => nofun, fun c => nofun, trivial⟩
  · rw [actions_twoWays]
    exact ⟨fun _ hactive => absurd hactive Bool.noConfusion, nofun, trivial⟩

/-- A mode that is toggled on and off leaves `toggle_active` behind. -/
theorem toggled_twice_remains :
    ¬ Along step EndsAsConfigured ⟨start true false twoWays, none⟩
      (actions twoWays.entries [press "power", press "power"]) := by
  have hactions : actions twoWays.entries [press "power", press "power"] =
      [.entry .mouseToggleActivate 0, .entry .mouseToggleActivate 0] := by
    decide
  rw [hactions]
  rintro ⟨-, hends, -⟩
  have hstart : Tracks ⟨start true false twoWays, none⟩ := tracks_start true false (by decide)
  have hin : Tracks (step ⟨start true false twoWays, none⟩ (.entry .mouseToggleActivate 0)) :=
    hstart.entry fun _ hactive => absurd hactive Bool.noConfusion
  obtain ⟨hactive, htoggle⟩ := hstart.toggled_in rfl
  apply toggle_remains hin (fun hout => ?_) hends.proper
  exact absurd (htoggle.symm.trans (hout rfl hactive)) Bool.noConfusion

end MouseMode

end Lirc
