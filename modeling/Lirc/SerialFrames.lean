import Lirc.DataLoops

/-!
What the serial decoder takes out of the samples that it consumes. A round
takes a start bit, a bit or a stop bit, or drops the rest of a sample. What
is taken makes up frames unless the decoder goes on with the bits of a frame
that has ended.
-/

namespace Lirc

open Loop

/-! ### Events -/

/-- What a round does with the sample. -/
inductive EventKind
  | start
  | bit
  | stop
  | rest
  deriving DecidableEq, Repr

/-- A round: what it takes, on which level and off how much of the sample, whether the
sample has just been read, whether the stop bit is awaited, and whether a pulse is lost
for the open end of the signal. -/
structure SerialEvent where
  kind : EventKind
  space : Bool
  left : ℤ
  fresh : Bool
  awaited : Bool
  lost : Bool
  deriving DecidableEq, Repr

section

variable (hw : Hardware) (r : IrRemote)

/-- The nominal length of what is taken. -/
def SerialEvent.length (e : SerialEvent) : ℤ :=
  match e.kind with
  | .start => bitTime r
  | .bit => if e.space then r.sone else r.pzero
  | .stop => stopTime r
  | .rest => 0

/-- All that is left of the sample fits it. -/
def SerialEvent.Fits (e : SerialEvent) : Prop := expect hw r e.left (e.length r) = true

/-- At least so much is left of the sample, up to the tolerance. -/
def SerialEvent.Long (e : SerialEvent) : Prop := e.Fits hw r ∨ e.length r < e.left

instance (e : SerialEvent) : Decidable (e.Fits hw r) := inferInstanceAs (Decidable (_ = true))

instance (e : SerialEvent) : Decidable (e.Long hw r) := inferInstanceAs (Decidable (_ ∨ _))

/-- The samples of a space end where a pulse is received. -/
def losesPulse (maxSpace : ℤ) (s : SerialState) (b : RBuf) : Bool :=
  decide (s.delta = 0) && s.space && isPulse (getNextRecBuffer b maxSpace).1

/-- What is taken off a sample. -/
def takeEvent (fresh lost : Bool) (s : SerialState) (b : RBuf) : SerialEvent where
  kind :=
    if 0 < levelPending s b then if s.stopBit then .stop else .start
    else if FitsBit hw r s (behindPending hw r s b) then .bit else .rest
  space := s.space
  left := if 0 < levelPending s b then s.delta else behindPending hw r s b
  fresh := fresh
  awaited := s.stopBit
  lost := lost

/-- What a round does that does not fail. -/
def roundEvent (bits : ℕ) (x : SerialState × RBuf) : SerialEvent :=
  let loaded := serialLoad r (serialTotal r bits) (parityBits r) (serialMaxSpace r)
    (serialMaxPulse r) x.1 x.2
  takeEvent hw r (x.1.delta == 0) (losesPulse (serialMaxSpace r) x.1 x.2) loaded.1 loaded.2

/-- What the rounds do, up to so many. -/
def serialEvents (bits : ℕ) : ℕ → SerialState × RBuf → List SerialEvent
  | 0, _ => []
  | n + 1, x =>
      match serialDataBody hw r bits x with
      | .inl y => roundEvent hw r bits x :: serialEvents bits n y
      | .inr _ => []

/-- What `get_data` does with the samples of a serial signal. -/
def getDataEvents (bits : ℕ) (b : RBuf) : List SerialEvent :=
  serialEvents hw r bits
    (serialFuel (serialTotal r bits) (r.bitsInByte + parityBits r) (serialMaxSpace r) b)
    (serialStartState r b)

/-! ### Frames -/

/-- A start bit on a pulse, the bits of a byte with a parity bit that fits, and a stop
bit on a space. -/
structure SerialFrame where
  start : SerialEvent
  bits : List SerialEvent
  stop : SerialEvent
  isStart : start.kind = .start ∧ start.space = false ∧ start.Long hw r
  isBits : ∀ e ∈ bits, e.kind = .bit ∧ e.Long hw r
  length_bits : bits.length = r.bitsInByte + parityBits r
  parity : ParityFits r.parity ((bits.map SerialEvent.space).foldl xor false)
  isStop : stop.kind = .stop ∧ stop.space = true ∧ stop.Long hw r

def SerialFrame.events {hw : Hardware} {r : IrRemote} (f : SerialFrame hw r) : List SerialEvent :=
  f.start :: (f.bits ++ [f.stop])

/-- What is taken, without what is dropped. -/
def takenEvents (events : List SerialEvent) : List SerialEvent :=
  events.filter fun e => e.kind ≠ .rest

/-- Nothing is dropped but the rest of a sample behind something that all that was left
of it fits, and no pulse is lost. -/
structure UsesUp (events : List SerialEvent) : Prop where
  rests : events.IsChain fun e e' => e'.kind = .rest → e'.fresh = false ∧ e.Fits hw r
  pulses : ∀ e ∈ events, e.lost = false

/-- The samples are made up of so many frames. -/
structure Framed (n : ℕ) (events : List SerialEvent) : Prop where
  frames : ∃ fs : List (SerialFrame hw r), fs.length = n ∧
    takenEvents events = fs.flatMap SerialFrame.events
  usesUp : UsesUp hw r events

/-- The timings of a serial remote are positive. -/
structure PositiveTimings : Prop where
  base : 0 < bitTime r
  pzero : 0 < r.pzero
  sone : 0 < r.sone
  stop : 0 < stopTime r
  byte : 0 < r.bitsInByte

end

section

variable {hw : Hardware} {r : IrRemote} {bits n : ℕ} {s s' s₁ : SerialState} {b b' b₁ : RBuf}
  {e : SerialEvent} {fs fs' : List (SerialFrame hw r)}

/-! ### Frames in a list of events -/

/-- The bits of a frame and its parity bit. -/
def SerialEvent.IsBit (hw : Hardware) (r : IrRemote) (e : SerialEvent) : Prop :=
  e.kind = .bit ∧ e.Long hw r

def SerialEvent.IsStart (hw : Hardware) (r : IrRemote) (e : SerialEvent) : Prop :=
  e.kind = .start ∧ e.space = false ∧ e.Long hw r

theorem SerialFrame.length_events (f : SerialFrame hw r) :
    f.events.length = byteBits r (parityBits r) + 2 := by
  rw [SerialFrame.events, List.length_cons, List.length_append, f.length_bits,
    List.length_singleton]
  rfl

theorem length_frames (fs : List (SerialFrame hw r)) :
    (fs.flatMap SerialFrame.events).length = fs.length * (byteBits r (parityBits r) + 2) := by
  induction fs with
  | nil => rw [List.flatMap_nil, List.length_nil, List.length_nil, Nat.zero_mul]
  | cons f fs ih =>
      rw [List.flatMap_cons, List.length_append, f.length_events, ih, List.length_cons, Nat.add_mul,
        Nat.one_mul, Nat.add_comm]

/-- Frames in front of other events are the first ones of the frames that all of them
make up. -/
theorem frames_prefix {events : List SerialEvent}
    (h : fs.flatMap SerialFrame.events ++ events = fs'.flatMap SerialFrame.events) :
    ∃ gs : List (SerialFrame hw r), events = gs.flatMap SerialFrame.events := by
  induction fs generalizing fs' with
  | nil => exact ⟨fs', h⟩
  | cons f fs ih =>
      cases fs' with
      | nil => exact absurd h (by simp [SerialFrame.events])
      | cons f' fs' =>
          rw [List.flatMap_cons, List.flatMap_cons, List.append_assoc] at h
          have hlen : f.events.length = f'.events.length := by
            rw [f.length_events, f'.length_events]
          exact ih (List.append_inj h hlen).2

/-- Behind a start bit and the bits of a frame stands its stop bit. -/
theorem kind_of_frames {st : SerialEvent} {bs events : List SerialEvent}
    (hbs : bs.length = byteBits r (parityBits r))
    (h : fs.flatMap SerialFrame.events ++ st :: bs ++ e :: events =
      fs'.flatMap SerialFrame.events) : e.kind = .stop := by
  rw [List.append_assoc] at h
  obtain ⟨gs, hgs⟩ := frames_prefix h
  cases gs with
  | nil => exact absurd hgs (by simp)
  | cons g gs =>
      rw [List.flatMap_cons, SerialFrame.events, List.cons_append, List.cons_append,
        List.append_assoc] at hgs
      have htail := (List.cons.inj hgs).2
      have hlen : bs.length = g.bits.length := by
        rw [hbs, g.length_bits]
        rfl
      have hstop := (List.append_inj htail hlen).2
      rw [(List.cons.inj hstop).1]
      exact g.isStop.1

/-- A frame that has begun is no frame. -/
theorem not_frames_of_begun {st : SerialEvent} {bs : List SerialEvent}
    (hbs : bs.length < byteBits r (parityBits r)) :
    fs.flatMap SerialFrame.events ++ st :: bs ≠ fs'.flatMap SerialFrame.events := by
  intro h
  obtain ⟨gs, hgs⟩ := frames_prefix h
  have hlen := congrArg List.length hgs
  rw [length_frames, List.length_cons] at hlen
  cases gs with
  | nil => rw [List.length_nil, Nat.zero_mul] at hlen; omega
  | cons g gs =>
      rw [List.length_cons, Nat.add_mul, Nat.one_mul] at hlen
      omega

/-! ### Where the decoder is in a frame -/

/-- Behind whole frames the decoder awaits a start bit, is in the bits of a frame, or
awaits its stop bit. -/
inductive FramePhase (hw : Hardware) (r : IrRemote) (total n : ℕ) :
    List SerialEvent → SerialState → RBuf → Prop
  | idle {s : SerialState} {b : RBuf} (hpending : b.pendingp = bitTime r)
      (hlevel : s.space = false) (hstop : s.stopBit = false)
      (hparity : s.parity = false) (hreceived : s.received = n * byteBits r (parityBits r))
      (hle : s.received ≤ total) : FramePhase hw r total n [] s b
  | inside {s : SerialState} {b : RBuf} {st : SerialEvent} {bs : List SerialEvent}
      (hst : st.IsStart hw r) (hbs : ∀ e ∈ bs, e.IsBit hw r)
      (hlt : bs.length < byteBits r (parityBits r)) (hp : b.pendingp = 0) (hs : b.pendings = 0)
      (hstop : s.stopBit = false)
      (hparity : s.parity = (bs.map SerialEvent.space).foldl xor false)
      (hreceived : s.received = n * byteBits r (parityBits r) + bs.length)
      (hle : s.received ≤ total) (hmore : bs = [] → s.received < total) :
      FramePhase hw r total n (st :: bs) s b
  | awaiting {s : SerialState} {b : RBuf} {st : SerialEvent} {bs : List SerialEvent}
      (hst : st.IsStart hw r) (hbs : ∀ e ∈ bs, e.IsBit hw r)
      (hlen : bs.length = byteBits r (parityBits r))
      (hfits : ParityFits r.parity ((bs.map SerialEvent.space).foldl xor false))
      (hp : b.pendingp = 0) (hs : b.pendings = stopTime r) (hstop : s.stopBit = true)
      (hparity : s.parity = false)
      (hreceived : s.received = (n + 1) * byteBits r (parityBits r))
      (hle : s.received ≤ total) : FramePhase hw r total n (st :: bs) s b

/-- What the rounds do to the part of a frame that has begun. -/
def FrameStep (hw : Hardware) (r : IrRemote) (total n : ℕ) (begun : List SerialEvent)
    (e : SerialEvent) (s' : SerialState) (b' : RBuf) : Prop :=
  (e.kind = .bit → e.awaited = false) ∧
    ∃ (gs : List (SerialFrame hw r)) (begun' : List SerialEvent),
      FramePhase hw r total (n + gs.length) begun' s' b' ∧
        begun ++ takenEvents [e] = gs.flatMap SerialFrame.events ++ begun'

/-- A bit is taken behind the bits of a frame. -/
def Overruns (r : IrRemote) (begun : List SerialEvent) (e : SerialEvent) : Prop :=
  e.kind = .bit ∧ e.awaited = true ∧
    ∃ st bs, begun = st :: bs ∧ bs.length = byteBits r (parityBits r)

section

variable {total : ℕ} {fresh lost : Bool}

/-- No frame ends. -/
theorem FrameStep.within {begun begun' : List SerialEvent}
    (hinside : e.kind = .bit → e.awaited = false) (h : begun ++ takenEvents [e] = begun')
    (hphase : FramePhase hw r total n begun' s' b') : FrameStep hw r total n begun e s' b' :=
  ⟨hinside, [], begun', hphase, h⟩

theorem takenEvents_of_ne (h : e.kind ≠ .rest) : takenEvents [e] = [e] := by
  rw [takenEvents, List.filter_cons_of_pos (by simp [h])]
  rfl

theorem takenEvents_cons (e : SerialEvent) (events : List SerialEvent) :
    takenEvents (e :: events) = takenEvents [e] ++ takenEvents events := by
  rw [takenEvents, takenEvents, takenEvents, ← List.filter_append]
  rfl

theorem takenEvents_of_isBit (h : e.IsBit hw r) : takenEvents [e] = [e] :=
  takenEvents_of_ne (by rw [h.1]; exact nofun)

theorem takenEvents_of_rest (h : e.kind = .rest) : takenEvents [e] = [] := by
  rw [takenEvents, List.filter_cons_of_neg (by simp [h])]
  rfl

theorem takeEvent_kind_of_pending (h : 0 < levelPending s b) :
    (takeEvent hw r fresh lost s b).kind = if s.stopBit then .stop else .start := if_pos h

theorem takeEvent_kind_of_bit (h : levelPending s b ≤ 0)
    (hbit : FitsBit hw r s (behindPending hw r s b)) :
    (takeEvent hw r fresh lost s b).kind = .bit := by
  rw [takeEvent, if_neg (not_lt.mpr h), if_pos hbit]

theorem takeEvent_kind_of_rest (h : levelPending s b ≤ 0)
    (hbit : ¬FitsBit hw r s (behindPending hw r s b)) :
    (takeEvent hw r fresh lost s b).kind = .rest := by
  rw [takeEvent, if_neg (not_lt.mpr h), if_neg hbit]

theorem takeEvent_isBit (h : levelPending s b ≤ 0)
    (hbit : FitsBit hw r s (behindPending hw r s b)) :
    (takeEvent hw r fresh lost s b).IsBit hw r := by
  have hkind := @takeEvent_kind_of_bit hw r s b fresh lost h hbit
  have hleft : (takeEvent hw r fresh lost s b).left = behindPending hw r s b :=
    if_neg (not_lt.mpr h)
  have hlength : (takeEvent hw r fresh lost s b).length r = levelBit r s := by
    rw [SerialEvent.length, hkind]
    rfl
  refine ⟨hkind, ?_⟩
  rw [SerialEvent.Long, SerialEvent.Fits, hlength, hleft]
  exact hbit.symm

theorem takeEvent_long_of_pending (h : 0 < levelPending s b)
    (hfits : expect hw r s.delta (levelPending s b) = true ∨ levelPending s b < s.delta)
    (hlength : (takeEvent hw r fresh lost s b).length r = levelPending s b) :
    (takeEvent hw r fresh lost s b).Long hw r := by
  have hleft : (takeEvent hw r fresh lost s b).left = s.delta := if_pos h
  rw [SerialEvent.Long, SerialEvent.Fits, hlength, hleft]
  exact hfits

theorem FramePhase.step_idle (hbase : 0 < bitTime r)
    (htake : TakeStep hw r (parityBits r) (bitTime r) (stopTime r) s b s' b')
    (hgo : s.received < total ∨ s.stopBit = true) (hpending : b.pendingp = bitTime r)
    (hlevel : s.space = false) (hstop : s.stopBit = false) (hparity : s.parity = false)
    (hreceived : s.received = n * byteBits r (parityBits r)) (hbyte : 0 < byteBits r (parityBits r)) :
    FrameStep hw r total n [] (takeEvent hw r fresh lost s b) s' b' := by
  have hlevelPending : levelPending s b = bitTime r := by
    rw [levelPending, hlevel, if_neg Bool.false_ne_true, hpending]
  have hpos : 0 < levelPending s b := by rw [hlevelPending]; exact hbase
  have hmore : s.received < total := hgo.resolve_right (by rw [hstop]; exact Bool.false_ne_true)
  have hkind : (takeEvent hw r fresh lost s b).kind = .start := by
    rw [takeEvent_kind_of_pending hpos, hstop, if_neg Bool.false_ne_true]
  cases htake with
  | stop _ _ hstop' =>
      rw [hstop] at hstop'
      cases hstop'
  | pending _ hfits _ =>
      refine .within (fun h => ?_) (takenEvents_of_ne (by rw [hkind]; simp)) ?_
      · rw [hkind] at h
        cases h
      · have hlong : (takeEvent hw r fresh lost s b).Long hw r := by
          refine takeEvent_long_of_pending hpos hfits ?_
          rw [SerialEvent.length, hkind, hlevelPending]
        exact .inside ⟨hkind, hlevel, hlong⟩ (fun _ h => absurd h List.not_mem_nil) hbyte rfl rfl
          hstop hparity hreceived hmore.le fun _ => hmore
  | bit hle => exact absurd hpos (not_lt.mpr hle)
  | byte hle => exact absurd hpos (not_lt.mpr hle)
  | rest hle => exact absurd hpos (not_lt.mpr hle)

theorem foldl_xor_concat (bs : List SerialEvent) (e : SerialEvent) :
    ((bs ++ [e]).map SerialEvent.space).foldl xor false =
      ((bs.map SerialEvent.space).foldl xor false ^^ e.space) := by
  rw [List.map_append, List.foldl_append]
  rfl

theorem FramePhase.step_inside {st : SerialEvent} {bs : List SerialEvent}
    (htake : TakeStep hw r (parityBits r) (bitTime r) (stopTime r) s b s' b')
    (hgo : s.received < total ∨ s.stopBit = true) (hst : st.IsStart hw r)
    (hbs : ∀ e ∈ bs, e.IsBit hw r) (hlt : bs.length < byteBits r (parityBits r))
    (hp : b.pendingp = 0) (hs : b.pendings = 0) (hstop : s.stopBit = false)
    (hparity : s.parity = (bs.map SerialEvent.space).foldl xor false)
    (hreceived : s.received = n * byteBits r (parityBits r) + bs.length) :
    FrameStep hw r total n (st :: bs) (takeEvent hw r fresh lost s b) s' b' := by
  have hzero : levelPending s b = 0 := by
    rw [levelPending, hp, hs]
    split <;> rfl
  have hmore : s.received < total := hgo.resolve_right (by rw [hstop]; exact Bool.false_ne_true)
  have hawaited : (takeEvent hw r fresh lost s b).awaited = false := hstop
  have hmod : (s.received + 1) % byteBits r (parityBits r) =
      (bs.length + 1) % byteBits r (parityBits r) := by
    rw [hreceived, Nat.add_assoc, Nat.mul_comm, Nat.mul_add_mod]
  have hinside : (takeEvent hw r fresh lost s b).kind = .bit →
      (takeEvent hw r fresh lost s b).awaited = false := fun _ => hawaited
  cases htake with
  | stop hpos => exact absurd hpos (by rw [hzero]; exact lt_irrefl 0)
  | pending hpos => exact absurd hpos (by rw [hzero]; exact lt_irrefl 0)
  | bit hle _ hbit hend =>
      have hisBit := @takeEvent_isBit hw r s b fresh lost hle hbit
      have htaken := takenEvents_of_isBit hisBit
      refine .within hinside (by rw [htaken, List.cons_append]) ?_
      refine .inside hst ?_ ?_ hp hs hstop ?_ ?_ hmore ?_
      · exact fun e he => (List.mem_append.mp he).elim (hbs e)
          fun he => (List.mem_singleton.mp he) ▸ hisBit
      · rw [List.length_append, List.length_singleton]
        have hne : bs.length + 1 ≠ byteBits r (parityBits r) := by
          intro heq
          rw [hmod, heq, Nat.mod_self] at hend
          exact hend rfl
        omega
      · rw [foldl_xor_concat, ← hparity]
        rfl
      · show s.received + 1 = _
        rw [List.length_append, hreceived]
        rfl
      · exact fun h => absurd h (by simp)
  | byte hle _ hbit hend hfits =>
      have hisBit := @takeEvent_isBit hw r s b fresh lost hle hbit
      have hlen : bs.length + 1 = byteBits r (parityBits r) := by
        rw [hmod] at hend
        have hdvd := Nat.le_of_dvd (Nat.succ_pos _) (Nat.dvd_of_mod_eq_zero hend)
        omega
      have htaken := takenEvents_of_isBit hisBit
      refine .within hinside (by rw [htaken, List.cons_append]) ?_
      refine .awaiting hst ?_ ?_ ?_ hp rfl rfl rfl ?_ hmore
      · exact fun e he => (List.mem_append.mp he).elim (hbs e)
          fun he => (List.mem_singleton.mp he) ▸ hisBit
      · rw [List.length_append]
        exact hlen
      · rw [foldl_xor_concat, ← hparity]
        exact hfits
      · show s.received + 1 = _
        rw [Nat.add_mul, Nat.one_mul]
        omega
  | rest hle _ hbit =>
      have htaken := takenEvents_of_rest (@takeEvent_kind_of_rest hw r s b fresh lost hle hbit)
      refine .within hinside (by rw [htaken, List.append_nil]) ?_
      exact .inside hst hbs hlt hp hs hstop hparity hreceived hmore.le fun _ => hmore

theorem FramePhase.step_awaiting {st : SerialEvent} {bs : List SerialEvent}
    (htake : TakeStep hw r (parityBits r) (bitTime r) (stopTime r) s b s' b')
    (hst : st.IsStart hw r) (hbs : ∀ e ∈ bs, e.IsBit hw r)
    (hlen : bs.length = byteBits r (parityBits r))
    (hfits : ParityFits r.parity ((bs.map SerialEvent.space).foldl xor false))
    (hp : b.pendingp = 0) (hs : b.pendings = stopTime r) (hstop : s.stopBit = true)
    (hparity : s.parity = false) (hreceived : s.received = (n + 1) * byteBits r (parityBits r))
    (hle' : s.received ≤ total) :
    Overruns r (st :: bs) (takeEvent hw r fresh lost s b) ∨
      FrameStep hw r total n (st :: bs) (takeEvent hw r fresh lost s b) s' b' := by
  have hawaited : (takeEvent hw r fresh lost s b).awaited = true := hstop
  cases htake with
  | stop hpos hfit _ =>
      refine .inr ⟨fun h => ?_, ?_⟩
      · rw [takeEvent_kind_of_pending hpos, hstop] at h
        cases h
      · have hkind : (takeEvent hw r fresh lost s b).kind = .stop := by
          rw [takeEvent_kind_of_pending hpos, hstop, if_pos rfl]
        -- nothing is pending on a pulse
        have hspace : s.space = true := by
          cases hlevel : s.space with
          | true => rfl
          | false =>
              rw [levelPending, hlevel, if_neg Bool.false_ne_true, hp] at hpos
              exact absurd hpos (lt_irrefl 0)
        have hlevelPending : levelPending s b = stopTime r := by
          rw [levelPending, hspace, if_pos rfl, hs]
        have hlong : (takeEvent hw r fresh lost s b).Long hw r := by
          refine takeEvent_long_of_pending hpos hfit ?_
          rw [SerialEvent.length, hkind, hlevelPending]
        let frame : SerialFrame hw r :=
          { start := st, bits := bs, stop := takeEvent hw r fresh lost s b, isStart := hst,
            isBits := hbs, length_bits := hlen, parity := hfits,
            isStop := ⟨hkind, hspace, hlong⟩ }
        refine ⟨[frame], [], .idle rfl rfl rfl hparity hreceived hle', ?_⟩
        rw [takenEvents_of_ne (by rw [hkind]; simp), List.flatMap_cons, List.flatMap_nil,
          List.append_nil, List.append_nil]
        rfl
  | pending _ _ hstop' =>
      rw [hstop] at hstop'
      cases hstop'
  | bit hle _ hbit =>
      exact .inl ⟨takeEvent_kind_of_bit hle hbit, hawaited, st, bs, rfl, hlen⟩
  | byte hle _ hbit =>
      exact .inl ⟨takeEvent_kind_of_bit hle hbit, hawaited, st, bs, rfl, hlen⟩
  | rest hle _ hbit =>
      have hkind := @takeEvent_kind_of_rest hw r s b fresh lost hle hbit
      refine .inr (.within (fun h => ?_) (by rw [takenEvents_of_rest hkind, List.append_nil]) ?_)
      · rw [hkind] at h
        cases h
      · exact .awaiting hst hbs hlen hfits hp hs hstop hparity hreceived hle'

/-- What is taken goes on with the frame, or it is a bit behind the bits of the frame. -/
theorem FramePhase.step {begun : List SerialEvent} (h : FramePhase hw r total n begun s b)
    (hpos : PositiveTimings r)
    (htake : TakeStep hw r (parityBits r) (bitTime r) (stopTime r) s b s' b')
    (hgo : s.received < total ∨ s.stopBit = true) :
    Overruns r begun (takeEvent hw r fresh lost s b) ∨
      FrameStep hw r total n begun (takeEvent hw r fresh lost s b) s' b' := by
  have hbyte : 0 < byteBits r (parityBits r) := Nat.add_pos_left hpos.byte _
  cases h with
  | idle hpending hlevel hstop hparity hreceived hle =>
      exact .inr (step_idle hpos.base htake hgo hpending hlevel hstop hparity hreceived hbyte)
  | inside hst hbs hlt hp hs hstop hparity hreceived hle hmore =>
      exact .inr (step_inside htake hgo hst hbs hlt hp hs hstop hparity hreceived)
  | awaiting hst hbs hlen hfits hp hs hstop hparity hreceived hle =>
      exact step_awaiting htake hst hbs hlen hfits hp hs hstop hparity hreceived hle

/-- A sample that is read does not matter. -/
theorem FramePhase.load {begun : List SerialEvent} (h : FramePhase hw r total n begun s b)
    {maxSpace maxPulse : ℤ} {parityBit bits : ℕ}
    (hload : serialLoad r bits parityBit maxSpace maxPulse s b = (s₁, b₁)) (hne : s₁.delta ≠ 0) :
    FramePhase hw r total n begun s₁ b₁ := by
  by_cases hzero : s.delta = 0
  · obtain ⟨hs₁, hp, hs, -⟩ := serialLoad_spec 0 hzero hload hne
    rw [hs₁]
    cases h with
    | idle hpending => exact .idle (hp.trans hpending) ‹_› ‹_› ‹_› ‹_› ‹_›
    | inside hst hbs hlt hp' hs' =>
        exact .inside hst hbs hlt (hp.trans hp') (hs.trans hs') ‹_› ‹_› ‹_› ‹_› ‹_›
    | awaiting hst hbs hlen hfits hp' hs' =>
        exact .awaiting hst hbs hlen hfits (hp.trans hp') (hs.trans hs') ‹_› ‹_› ‹_› ‹_›
  · rw [serialLoad, if_neg hzero] at hload
    obtain ⟨rfl, rfl⟩ := Prod.mk.inj hload
    exact h

/-- A segment has whole bytes and some bits. -/
theorem serialTotal_eq (r : IrRemote) (bits : ℕ) :
    serialTotal r bits =
      bits / r.bitsInByte * byteBits r (parityBits r) + bits % r.bitsInByte := by
  have hdiv := Nat.div_add_mod bits r.bitsInByte
  rw [serialTotal, byteBits, parityBits]
  split
  · rw [Nat.add_zero, Nat.mul_comm, hdiv]
  · rw [Nat.mul_add, Nat.mul_one, Nat.mul_comm]
    omega

/-- Where the loop ends the segment is over. -/
theorem FramePhase.finished {begun : List SerialEvent} (hpos : PositiveTimings r)
    (h : FramePhase hw r (serialTotal r bits) fs.length begun s b)
    (hend : ¬(s.received < serialTotal r bits ∨ s.stopBit = true)) :
    (∃ gs : List (SerialFrame hw r), gs.length = bits / r.bitsInByte ∧
        fs.flatMap SerialFrame.events ++ begun = gs.flatMap SerialFrame.events) ↔
      bits % r.bitsInByte = 0 := by
  rw [not_or, not_lt] at hend
  have hrest := Nat.mod_lt bits hpos.byte
  have hwidth : r.bitsInByte ≤ byteBits r (parityBits r) := Nat.le_add_right _ _
  have htotal := serialTotal_eq r bits
  cases h with
  | idle hpending hlevel hstop hparity hreceived hle =>
      have heq : fs.length * byteBits r (parityBits r) =
          bits / r.bitsInByte * byteBits r (parityBits r) + bits % r.bitsInByte := by omega
      have hzero : bits % r.bitsInByte = 0 := by
        have hmod := congrArg (· % byteBits r (parityBits r)) heq
        simp only [Nat.mul_mod_left, Nat.mul_comm (bits / r.bitsInByte), Nat.mul_add_mod] at hmod
        rwa [Nat.mod_eq_of_lt (by omega), eq_comm] at hmod
      rw [hzero, Nat.add_zero] at heq
      have hlen := Nat.eq_of_mul_eq_mul_right (Nat.add_pos_left hpos.byte _) heq
      exact iff_of_true ⟨fs, hlen, List.append_nil _⟩ hzero
  | inside hst hbs hlt hp hs hstop hparity hreceived hle hmore =>
      refine iff_of_false ?_ fun hzero => ?_
      · rintro ⟨gs, -, hgs⟩
        exact not_frames_of_begun hlt hgs
      · rename_i bs
        have heq : fs.length * byteBits r (parityBits r) + bs.length =
            bits / r.bitsInByte * byteBits r (parityBits r) := by omega
        have hmod := congrArg (· % byteBits r (parityBits r)) heq
        simp only [Nat.mul_mod_left, Nat.mul_comm fs.length, Nat.mul_add_mod] at hmod
        rw [Nat.mod_eq_of_lt hlt] at hmod
        have hlt' := hmore (List.length_eq_zero_iff.mp hmod)
        omega
  | awaiting hst hbs hlen hfits hp hs hstop => exact absurd hstop hend.2

/-- A loop that ends without a failure is over. -/
theorem serialDataBody_inr {out : IrCode × RBuf}
    (h : serialDataBody hw r bits (s, b) = .inr out) (hcode : out.1 ≠ noCode) :
    ¬(s.received < serialTotal r bits ∨ s.stopBit = true) := by
  intro hgo
  rw [serialDataBody, serialBody, if_pos hgo] at h
  split at h
  · exact hcode (by rw [← Sum.inr.inj h])
  · cases h

theorem serialLoop_succ (k : ℕ) :
    getSerialLoop hw r (serialTotal r bits) (parityBits r) (bitTime r) (stopTime r)
        (serialMaxSpace r) (serialMaxPulse r) (k + 1) s b =
      match serialDataBody hw r bits (s, b) with
      | .inl y => getSerialLoop hw r (serialTotal r bits) (parityBits r) (bitTime r) (stopTime r)
          (serialMaxSpace r) (serialMaxPulse r) k y.1 y.2
      | .inr out => out := getSerialLoop_succ k

/-- What `get_data` does for a serial remote. -/
theorem getData_serialLoop {done : ℕ} (hserial : isSerial r = true) :
    (getData hw r bits done b).1 =
      (getSerialLoop hw r (serialTotal r bits) (parityBits r) (bitTime r) (stopTime r)
        (serialMaxSpace r) (serialMaxPulse r)
        (serialFuel (serialTotal r bits) (r.bitsInByte + parityBits r) (serialMaxSpace r) b)
        (serialStart r) { b with pendingp := bitTime r }).1 := by
  have hrcmm : ¬isRcmm r = true := ne_true_of_eq_false (protocolIs_unique hserial (by decide))
  have hgrundig : ¬isGrundig r = true := ne_true_of_eq_false (protocolIs_unique hserial (by decide))
  rw [getData, if_neg hrcmm, if_neg hgrundig, if_pos hserial]
  rfl

/-- The samples that are still to be read complete the frames when the bits stay inside
of them. -/
theorem FramePhase.completes {begun : List SerialEvent} (hpos : PositiveTimings r) (k : ℕ)
    (h : FramePhase hw r (serialTotal r bits) fs.length begun s b)
    (hcode : (getSerialLoop hw r (serialTotal r bits) (parityBits r) (bitTime r) (stopTime r)
      (serialMaxSpace r) (serialMaxPulse r) k s b).1 ≠ noCode) :
    (∃ gs : List (SerialFrame hw r), gs.length = bits / r.bitsInByte ∧
        fs.flatMap SerialFrame.events ++ begun ++ takenEvents (serialEvents hw r bits k (s, b)) =
          gs.flatMap SerialFrame.events) ↔
      bits % r.bitsInByte = 0 ∧
        ∀ e ∈ serialEvents hw r bits k (s, b), e.kind = .bit → e.awaited = false := by
  induction k generalizing fs begun s b with
  | zero => exact absurd rfl hcode
  | succ k ih =>
      rw [serialLoop_succ] at hcode
      rw [serialEvents]
      cases hbody : serialDataBody hw r bits (s, b) with
      | inr out =>
          rw [hbody] at hcode
          have hfinished := h.finished hpos (serialDataBody_inr hbody hcode)
          dsimp only [takenEvents, List.filter_nil]
          rw [List.append_nil, hfinished]
          exact (and_iff_left fun e he => absurd he List.not_mem_nil).symm
      | inl y =>
          obtain ⟨s', b'⟩ := y
          rw [hbody] at hcode
          obtain ⟨hgo, s₁, b₁, hload, hne, htake⟩ := serialBody_inl hbody
          have hevent : roundEvent hw r bits (s, b) = takeEvent hw r (s.delta == 0)
              (losesPulse (serialMaxSpace r) s b) s₁ b₁ := by
            rw [roundEvent, hload]
          obtain ⟨hreceived, hstop⟩ := serialLoad_same hload
          rw [← hreceived, ← hstop] at hgo
          dsimp only
          rw [List.forall_mem_cons, takenEvents_cons, hevent]
          obtain ⟨hbit, hawaited, st, bs, rfl, hlen⟩ | ⟨hinside, gs, begun', hphase, hbegun⟩ :=
            (h.load hload hne).step hpos htake hgo
          · refine iff_of_false ?_ fun hall => ?_
            · rintro ⟨gs, -, hgs⟩
              rw [takenEvents_of_ne (by rw [hbit]; exact nofun)] at hgs
              have hkind := kind_of_frames hlen hgs
              rw [hbit] at hkind
              nomatch hkind
            · have hnot := hall.2.1 hbit
              rw [hawaited] at hnot
              nomatch hnot
          · rw [← List.length_append] at hphase
            rw [and_iff_right hinside, ← ih hphase hcode, List.flatMap_append]
            have hassoc : fs.flatMap SerialFrame.events ++ begun ++
                (takenEvents [takeEvent hw r (s.delta == 0)
                  (losesPulse (serialMaxSpace r) s b) s₁ b₁] ++
                  takenEvents (serialEvents hw r bits k (s', b'))) =
                fs.flatMap SerialFrame.events ++ gs.flatMap SerialFrame.events ++ begun' ++
                  takenEvents (serialEvents hw r bits k (s', b')) := by
              rw [List.append_assoc, ← List.append_assoc begun, hbegun]
              simp only [List.append_assoc]
            rw [hassoc]

end

/-- A segment that is not a failure is made up of frames exactly when its bits are those of
whole bytes, none is taken while the stop bit is awaited, and the samples are used up. -/
theorem framed_iff_inside (hpos : PositiveTimings r) (hserial : isSerial r = true) (done : ℕ)
    (b : RBuf) (hcode : (getData hw r bits done b).1 ≠ noCode) :
    Framed hw r (bits / r.bitsInByte) (getDataEvents hw r bits b) ↔
      bits % r.bitsInByte = 0 ∧
        (∀ e ∈ getDataEvents hw r bits b, e.kind = .bit → e.awaited = false) ∧
        UsesUp hw r (getDataEvents hw r bits b) := by
  rw [getData_serialLoop hserial] at hcode
  have hlevel : (serialStart r).space = false := beq_false_of_ne hpos.base.ne'
  have hstart : FramePhase hw r (serialTotal r bits) ([] : List (SerialFrame hw r)).length []
      (serialStart r) { b with pendingp := bitTime r } :=
    .idle rfl hlevel rfl rfl (Nat.zero_mul _).symm (Nat.zero_le _)
  have hframes := hstart.completes hpos _ hcode
  constructor
  · rintro ⟨hfs, huses⟩
    obtain ⟨hbytes, hinside⟩ := hframes.mp hfs
    exact ⟨hbytes, hinside, huses⟩
  · rintro ⟨hbytes, hinside, huses⟩
    exact ⟨hframes.mpr ⟨hbytes, hinside⟩, huses⟩

end

end Lirc
