import Mathlib

/-!
Two-level signals as lists of parts, and their run-length form: adjacent
parts of one level are one sample. A signal that ends low has no last
sample, since the low level goes on after it.
-/

namespace Signal

/-- A stretch of one level. -/
structure Part where
  high : Bool
  len : ℤ
  deriving DecidableEq, Repr, Inhabited

/-- A stretch of the high level. -/
abbrev pulse (len : ℤ) : Part := ⟨true, len⟩

/-- A stretch of the low level. -/
abbrev space (len : ℤ) : Part := ⟨false, len⟩

/-- The samples of a signal, given the sample that is still open. -/
def waveFrom (cur : Part) : List Part → List Part
  | [] => if cur.high then [cur] else []
  | p :: ps =>
      if p.high = cur.high then waveFrom ⟨cur.high, cur.len + p.len⟩ ps
      else cur :: waveFrom p ps

/-- The samples of a signal. -/
def wave : List Part → List Part
  | [] => []
  | p :: ps => waveFrom p ps

/-- The first part, if there is one, is not of the level `h`. -/
def StartsOff (h : Bool) (ps : List Part) : Prop := ∀ p ∈ ps.head?, p.high ≠ h

@[simp] theorem startsOff_nil (h : Bool) : StartsOff h [] := by simp [StartsOff]

@[simp] theorem startsOff_cons (h : Bool) (p : Part) (ps : List Part) :
    StartsOff h (p :: ps) ↔ p.high ≠ h := by simp [StartsOff]

/-- The signal starts with a pulse. -/
def StartsHigh (ps : List Part) : Prop := ∃ a rest, ps = pulse a :: rest

theorem StartsHigh.append {ps : List Part} (h : StartsHigh ps) (qs : List Part) :
    StartsHigh (ps ++ qs) := by
  obtain ⟨a, rest, rfl⟩ := h
  exact ⟨a, rest ++ qs, rfl⟩

theorem startsHigh_append {ps qs : List Part} (h : ps = [] ∨ StartsHigh ps)
    (hq : StartsHigh qs) : StartsHigh (ps ++ qs) := by
  rcases h with rfl | h
  · exact hq
  · exact h.append qs

@[simp] theorem wave_nil : wave [] = [] := rfl

theorem wave_cons (p : Part) (ps : List Part) : wave (p :: ps) = waveFrom p ps := rfl

/-- Two parts of one level are one part. -/
@[simp] theorem waveFrom_same (h : Bool) (a b : ℤ) (ps : List Part) :
    waveFrom ⟨h, a⟩ (⟨h, b⟩ :: ps) = waveFrom ⟨h, a + b⟩ ps := by
  simp [waveFrom]

/-- A pulse is closed by whatever is not a pulse. -/
theorem waveFrom_pulse {a : ℤ} {ps : List Part} (h : StartsOff true ps) :
    waveFrom (pulse a) ps = pulse a :: wave ps := by
  cases ps with
  | nil => rfl
  | cons p ps =>
      have hp : p.high = false := by simpa using h
      simp [waveFrom, hp, wave]

/-- A space is closed by a pulse only. -/
theorem waveFrom_space {a : ℤ} {p : Part} {ps : List Part} (h : p.high = true) :
    waveFrom (space a) (p :: ps) = space a :: wave (p :: ps) := by
  simp [waveFrom, h, wave]

@[simp] theorem waveFrom_space_nil (a : ℤ) : waveFrom (space a) [] = [] := rfl

/-- The samples of given lengths with alternating levels. -/
def alternate : Bool → List ℤ → List Part
  | _, [] => []
  | h, x :: xs => ⟨h, x⟩ :: alternate (!h) xs

@[simp] theorem alternate_nil (h : Bool) : alternate h [] = [] := rfl

@[simp] theorem alternate_cons (h : Bool) (x : ℤ) (xs : List ℤ) :
    alternate h (x :: xs) = ⟨h, x⟩ :: alternate (!h) xs := rfl

theorem alternate_append (h : Bool) (xs ys : List ℤ) :
    alternate h (xs ++ ys) =
      alternate h xs ++ alternate (if xs.length % 2 = 0 then h else !h) ys := by
  induction xs generalizing h with
  | nil => simp
  | cons x xs ih =>
      simp only [List.cons_append, alternate_cons, ih, List.length_cons]
      rcases Nat.mod_two_eq_zero_or_one xs.length with hp | hp
      · have hs : ¬(xs.length + 1) % 2 = 0 := by omega
        simp [hp, hs]
      · have hs : (xs.length + 1) % 2 = 0 := by omega
        simp [hp, hs]

/-- Samples alternate. -/
theorem alternate_waveFrom (cur : Part) (ps : List Part) :
    alternate cur.high ((waveFrom cur ps).map Part.len) = waveFrom cur ps := by
  induction ps generalizing cur with
  | nil =>
      obtain ⟨h, a⟩ := cur
      cases h <;> simp [waveFrom]
  | cons p ps ih =>
      by_cases hp : p.high = cur.high
      · have h := ih ⟨cur.high, cur.len + p.len⟩
        simpa [waveFrom, hp] using h
      · have h := ih p
        have hn : (!cur.high) = p.high := by
          cases hc : cur.high <;> cases hq : p.high <;> simp_all
        simp [waveFrom, hp, hn, h]

/-- No two parts in a row are of one level. -/
def Alternates (ps : List Part) : Prop := ps.IsChain fun p q => p.high ≠ q.high

instance (ps : List Part) : Decidable (Alternates ps) := inferInstanceAs (Decidable (ps.IsChain _))

theorem alternates_alternate (h : Bool) (xs : List ℤ) : Alternates (alternate h xs) := by
  induction xs generalizing h with
  | nil => exact .nil
  | cons x xs ih =>
      cases xs with
      | nil => exact .singleton _
      | cons y xs => exact List.isChain_cons_cons.mpr ⟨by simp, ih (!h)⟩

theorem alternates_wave (ps : List Part) : Alternates (wave ps) := by
  cases ps with
  | nil => exact .nil
  | cons p ps =>
      rw [wave_cons, ← alternate_waveFrom]
      exact alternates_alternate _ _

/-- Whether parts alternate is a matter of their levels. -/
theorem Alternates.congr {ps qs : List Part} (h : Alternates ps)
    (heq : qs.map Part.high = ps.map Part.high) : Alternates qs := by
  have hchain : (ps.map Part.high).IsChain (· ≠ ·) := List.isChain_map _ |>.mpr h
  rw [← heq] at hchain
  exact (List.isChain_map _).mp hchain

/-- A signal ends high: from an open pulse the number of samples is odd,
from an open space it is even. -/
theorem length_waveFrom_mod (cur : Part) (ps : List Part) :
    (waveFrom cur ps).length % 2 = if cur.high then 1 else 0 := by
  induction ps generalizing cur with
  | nil => cases hc : cur.high <;> simp [waveFrom, hc]
  | cons p ps ih =>
      by_cases hp : p.high = cur.high
      · simp only [waveFrom, hp, if_true]
        exact ih ⟨cur.high, cur.len + p.len⟩
      · have h := ih p
        have hn : p.high = !cur.high := by
          cases hc : cur.high <;> cases hq : p.high <;> simp_all
        rw [hn] at h
        simp only [waveFrom, hp, if_false, List.length_cons]
        cases hc : cur.high <;> simp only [hc] at h ⊢ <;> simp at h ⊢ <;> omega

/-- A signal with a pulse in it has samples. -/
theorem waveFrom_ne_nil {cur : Part} {ps : List Part} (h : ∃ p ∈ cur :: ps, p.high = true) :
    waveFrom cur ps ≠ [] := by
  induction ps generalizing cur with
  | nil =>
      obtain ⟨p, hp, hhigh⟩ := h
      obtain rfl : p = cur := by simpa using hp
      simp [waveFrom, hhigh]
  | cons q ps ih =>
      by_cases hq : q.high = cur.high
      · simp only [waveFrom, hq, if_true]
        refine ih ?_
        obtain ⟨p, hp, hhigh⟩ := h
        rcases List.mem_cons.mp hp with rfl | hp
        · exact ⟨_, List.mem_cons_self, hhigh⟩
        · rcases List.mem_cons.mp hp with rfl | hp
          · exact ⟨_, List.mem_cons_self, hq ▸ hhigh⟩
          · exact ⟨p, List.mem_cons_of_mem _ hp, hhigh⟩
      · simp [waveFrom, hq]

theorem wave_ne_nil {ps : List Part} (h : ∃ p ∈ ps, p.high = true) : wave ps ≠ [] := by
  cases ps with
  | nil => simp at h
  | cons p ps => exact waveFrom_ne_nil h

/-- The number of samples does not depend on how long the open one is. -/
theorem length_waveFrom (h : Bool) (a b : ℤ) (ps : List Part) :
    (waveFrom ⟨h, a⟩ ps).length = (waveFrom ⟨h, b⟩ ps).length := by
  induction ps generalizing a b with
  | nil => cases h <;> rfl
  | cons p ps ih =>
      by_cases hp : p.high = h
      · simp only [waveFrom, hp, if_true]
        exact ih _ _
      · simp [waveFrom, hp]

/-- A part before a signal takes no sample away. -/
theorem length_wave_le (p : Part) (ps : List Part) :
    (wave ps).length ≤ (wave (p :: ps)).length := by
  cases ps with
  | nil => simp
  | cons p' ps =>
      obtain ⟨h, a⟩ := p
      obtain ⟨h', b⟩ := p'
      by_cases hp : h' = h
      · subst hp
        rw [wave_cons, wave_cons, waveFrom_same, length_waveFrom h' b (a + b)]
      · simp [wave_cons, waveFrom, hp]

/-- A pulse and a space before a signal are at least one sample. -/
theorem length_wave_head (a b : ℤ) (ps : List Part) :
    (wave ps).length < (wave (pulse a :: space b :: ps)).length := by
  have hle := length_wave_le (space b) ps
  have hhead : wave (pulse a :: space b :: ps) = pulse a :: wave (space b :: ps) := by
    rw [wave_cons, waveFrom_pulse (by simp)]
  rw [hhead, List.length_cons]
  omega

/-- A space before a signal that starts high is one sample. -/
theorem StartsHigh.length_wave {ps : List Part} (h : StartsHigh ps) (a : ℤ) :
    (wave (space a :: ps)).length = (wave ps).length + 1 := by
  obtain ⟨b, rest, rfl⟩ := h
  rw [wave_cons, waveFrom_space rfl, List.length_cons]

/-- A space and a pulse behind a signal are two samples. -/
theorem length_wave_foot (ps : List Part) (a b : ℤ) :
    (wave (ps ++ [space a, pulse b])).length = (wave ps).length + 2 := by
  have hopen : ∀ ps cur, (waveFrom cur (ps ++ [space a, pulse b])).length =
      (waveFrom cur ps).length + 2 := by
    intro ps
    induction ps with
    | nil =>
        rintro ⟨h, c⟩
        cases h <;> simp [waveFrom]
    | cons p ps ih =>
        intro cur
        by_cases hp : p.high = cur.high
        · simp only [List.cons_append, waveFrom, hp, if_true]
          exact ih _
        · simp [waveFrom, hp, ih]
  cases ps with
  | nil => rfl
  | cons p ps => exact hopen ps p

/-- All parts have a positive length. -/
def Positive (ps : List Part) : Prop := ∀ p ∈ ps, 0 < p.len

@[simp] theorem positive_nil : Positive [] := by simp [Positive]

@[simp] theorem positive_cons (p : Part) (ps : List Part) :
    Positive (p :: ps) ↔ 0 < p.len ∧ Positive ps := by simp [Positive]

@[simp] theorem positive_append (ps qs : List Part) :
    Positive (ps ++ qs) ↔ Positive ps ∧ Positive qs := by
  simp only [Positive, List.mem_append]
  exact ⟨fun h => ⟨fun p hp => h p (.inl hp), fun p hp => h p (.inr hp)⟩,
    fun h p hp => hp.elim (h.1 p) (h.2 p)⟩

theorem Positive.head {p : Part} {ps : List Part} (h : Positive (p :: ps)) : 0 < p.len :=
  ((positive_cons p ps).mp h).1

theorem Positive.tail {p : Part} {ps : List Part} (h : Positive (p :: ps)) : Positive ps :=
  ((positive_cons p ps).mp h).2

/-- Samples of positive parts are positive. -/
theorem Positive.waveFrom {cur : Part} {ps : List Part} (hc : 0 < cur.len)
    (h : Positive ps) : Positive (waveFrom cur ps) := by
  induction ps generalizing cur with
  | nil => cases hh : cur.high <;> simp [Signal.waveFrom, hh, hc]
  | cons p ps ih =>
      obtain ⟨hp, hps⟩ := (positive_cons p ps).mp h
      by_cases he : p.high = cur.high
      · simp only [Signal.waveFrom, he, if_true]
        exact ih (by simp only; omega) hps
      · simp only [Signal.waveFrom, he, if_false, positive_cons]
        exact ⟨hc, ih hp hps⟩

/-! ### Runs -/

/-- The parts of a signal with neighbours of one level joined, the last low part
included. -/
def runs : List Part → List Part
  | [] => []
  | p :: ps =>
      match runs ps with
      | [] => [p]
      | q :: qs => if q.high = p.high then ⟨p.high, p.len + q.len⟩ :: qs else p :: q :: qs

/-- A part stands alone or is joined to the run that follows it. -/
theorem runs_cons (p : Part) (ps : List Part) :
    (runs (p :: ps) = p :: runs ps ∧ StartsOff p.high (runs ps)) ∨
      ∃ x rest, runs ps = ⟨p.high, x⟩ :: rest ∧
        runs (p :: ps) = ⟨p.high, p.len + x⟩ :: rest := by
  rw [runs]
  cases hruns : runs ps with
  | nil => exact .inl ⟨rfl, startsOff_nil _⟩
  | cons q qs =>
      obtain ⟨level, x⟩ := q
      by_cases hlevel : level = p.high
      · subst hlevel
        exact .inr ⟨x, qs, rfl, by simp⟩
      · exact .inl ⟨by simp [hlevel], by simpa using hlevel⟩

/-- The first run is of the level of the first part. -/
theorem runs_head (p : Part) (ps : List Part) : ∃ x rest, runs (p :: ps) = ⟨p.high, x⟩ :: rest := by
  rcases runs_cons p ps with ⟨hruns, -⟩ | ⟨x, rest, -, hruns⟩
  · exact ⟨p.len, runs ps, hruns⟩
  · exact ⟨p.len + x, rest, hruns⟩

theorem startsOff_runs {h : Bool} {ps : List Part} : StartsOff h (runs ps) ↔ StartsOff h ps := by
  cases ps with
  | nil => rfl
  | cons p ps =>
      obtain ⟨x, rest, hruns⟩ := runs_head p ps
      rw [hruns, startsOff_cons, startsOff_cons]

/-- Runs of positive parts are positive. -/
theorem Positive.runs {ps : List Part} (h : Positive ps) : Positive (runs ps) := by
  induction ps with
  | nil => exact h
  | cons p ps ih =>
      have hps := ih h.tail
      have hp := h.head
      rcases runs_cons p ps with ⟨hruns, -⟩ | ⟨x, rest, hrest, hruns⟩
      · rw [hruns, positive_cons]
        exact ⟨hp, hps⟩
      · rw [hrest, positive_cons] at hps
        have hx : 0 < x := hps.1
        rw [hruns, positive_cons]
        exact ⟨by simp only; omega, hps.2⟩

/-- A part taken off the first run leaves the runs of the other parts. -/
theorem runs_take {h : Bool} {x d : ℤ} {ps rest : List Part} (hpos : Positive ps)
    (hruns : runs (⟨h, x⟩ :: ps) = ⟨h, d⟩ :: rest) :
    (d = x ∧ runs ps = rest ∧ StartsOff h ps) ∨ (x < d ∧ runs ps = ⟨h, d - x⟩ :: rest) := by
  rcases runs_cons ⟨h, x⟩ ps with ⟨halone, hoff⟩ | ⟨y, rest', hrest, hjoined⟩
  · rw [halone] at hruns
    obtain ⟨hd, hrest⟩ := List.cons.inj hruns
    exact .inl ⟨(Part.mk.inj hd).2.symm, hrest, startsOff_runs.mp hoff⟩
  · rw [hjoined] at hruns
    obtain ⟨hd, rfl⟩ := List.cons.inj hruns
    have hd := (Part.mk.inj hd).2
    have hy : 0 < y := by
      have := hpos.runs
      rw [hrest] at this
      exact this.head
    simp only at hd
    refine .inr ⟨by omega, ?_⟩
    rw [hrest]
    congr 2
    omega

/-- How long a signal has been low at its end. -/
def lowEnd : List Part → ℤ
  | [] => 0
  | p :: ps => if (p :: ps).all (fun q => !q.high) then p.len + lowEnd ps else lowEnd ps

/-- A space at the end joins the low end of the signal before it; the other runs
do not depend on it. -/
theorem runs_concat (ps : List Part) :
    ∃ front, ∀ y, runs (ps ++ [space y]) = front ++ [space (lowEnd ps + y)] := by
  have hstrong : ∃ front, (∀ y, runs (ps ++ [space y]) = front ++ [space (lowEnd ps + y)]) ∧
      (front = [] ↔ ps.all (fun q => !q.high) = true) := by
    induction ps with
    | nil => exact ⟨[], fun y => by simp [runs, lowEnd], by simp⟩
    | cons p ps ih =>
        obtain ⟨front, hruns, hnil⟩ := ih
        obtain ⟨level, x⟩ := p
        cases front with
        | nil =>
            have hall := hnil.mp rfl
            cases level with
            | true =>
                refine ⟨[pulse x], fun y => ?_, by simp⟩
                rw [List.cons_append, runs, hruns y]
                simp [lowEnd]
            | false =>
                refine ⟨[], fun y => ?_, by simpa using hall⟩
                rw [List.cons_append, runs, hruns y, lowEnd, if_pos (by simpa using hall)]
                simp [Int.add_assoc]
        | cons q qs =>
            have hall : ¬ps.all (fun q => !q.high) = true := fun h => by simpa using hnil.mpr h
            have hall' : ¬((⟨level, x⟩ : Part) :: ps).all (fun q => !q.high) = true := by
              intro h
              rw [List.all_cons, Bool.and_eq_true] at h
              exact hall h.2
            by_cases hlevel : q.high = level
            · refine ⟨⟨level, x + q.len⟩ :: qs, fun y => ?_, by simpa using hall'⟩
              rw [List.cons_append, runs, hruns y, lowEnd, if_neg hall']
              simp [hlevel]
            · refine ⟨⟨level, x⟩ :: q :: qs, fun y => ?_, by simpa using hall'⟩
              rw [List.cons_append, runs, hruns y, lowEnd, if_neg hall']
              simp [hlevel]
  obtain ⟨front, hruns, -⟩ := hstrong
  exact ⟨front, hruns⟩

/-! ### The level at a time -/

/-- The level of a signal at a time after its start; after its end the level
is low. -/
def level : List Part → ℤ → Bool
  | [], _ => false
  | p :: ps, t => if t < p.len then p.high else level ps (t - p.len)

/-- The level at a time of samples that start with a pulse. -/
def carrier (samples : List ℤ) (t : ℤ) : Bool := level (alternate true samples) t

theorem level_alternate_append {xs : List ℤ} (hxs : ∀ x ∈ xs, 0 < x) (h : Bool) (ys : List ℤ)
    {t : ℤ} (ht : 0 ≤ t) :
    level (alternate h (xs ++ ys)) (xs.sum + t) =
      level (alternate (if xs.length % 2 = 0 then h else !h) ys) t := by
  rw [alternate_append]
  generalize alternate (if xs.length % 2 = 0 then h else !h) ys = qs
  induction xs generalizing h with
  | nil => simp
  | cons x xs ih =>
      have hx : 0 < x := hxs x List.mem_cons_self
      have hsum : 0 ≤ xs.sum :=
        List.sum_nonneg fun y hy => (hxs y (List.mem_cons_of_mem _ hy)).le
      have hlate : ¬x + xs.sum + t < x := by omega
      have hrest : x + xs.sum + t - x = xs.sum + t := by omega
      rw [alternate_cons, List.cons_append, level, List.sum_cons, if_neg hlate, hrest]
      exact ih (fun y hy => hxs y (List.mem_cons_of_mem _ hy)) _

/-- Two signals that agree up to a pulse, after which the second goes on after
`g` and the first does not. -/
theorem carrier_ne {xs : List ℤ} (hxs : ∀ x ∈ xs, 0 < x) (hodd : xs.length % 2 = 1)
    {g z : ℤ} (hg : 0 ≤ g) (hz : 0 < z) (ys zs : List ℤ) (hys : ∀ y ∈ ys.head?, g < y) :
    carrier (xs ++ ys) (xs.sum + g) ≠ carrier (xs ++ g :: z :: zs) (xs.sum + g) := by
  have hpar : ¬xs.length % 2 = 0 := by omega
  rw [carrier, carrier, level_alternate_append hxs true ys hg,
    level_alternate_append hxs true _ hg, if_neg hpar, Bool.not_true]
  have hfirst : level (alternate false ys) g = false := by
    cases ys with
    | nil => rfl
    | cons y ys =>
        have hy : g < y := hys y rfl
        rw [alternate_cons, level, if_pos hy]
  have hsecond : level (alternate false (g :: z :: zs)) g = true := by
    rw [alternate_cons, level, if_neg (lt_irrefl g), alternate_cons, level, Int.sub_self,
      if_pos hz]
    rfl
  rw [hfirst, hsecond]
  exact Bool.false_ne_true

theorem level_start {h : Bool} {x : ℤ} (hx : 0 < x) (xs : List ℤ) :
    level (alternate h (x :: xs)) 0 = h := if_pos hx

/-- After the samples of a signal the level is low. -/
theorem level_low_zero {xs : List ℤ} (hxs : ∀ x ∈ xs, 0 < x) :
    level (alternate false xs) 0 = false := by
  cases xs with
  | nil => rfl
  | cons x xs => exact level_start (hxs x List.mem_cons_self) xs

theorem level_high_zero {xs : List ℤ} (hxs : ∀ x ∈ xs, 0 < x) (hne : xs ≠ []) :
    level (alternate true xs) 0 = true := by
  cases xs with
  | nil => exact absurd rfl hne
  | cons x xs => exact level_start (hxs x List.mem_cons_self) xs

/-- The samples number such that the last one is a pulse, or there is none
at the low level. -/
def EndsHigh (h : Bool) (xs : List ℤ) : Prop := xs.length % 2 = if h then 1 else 0

theorem EndsHigh.tail {h : Bool} {x : ℤ} {xs : List ℤ} (he : EndsHigh h (x :: xs)) :
    EndsHigh (!h) xs := by
  have hlen : (xs.length + 1) % 2 = if h then 1 else 0 := he
  cases h with
  | true =>
      change xs.length % 2 = 0
      rw [if_pos rfl] at hlen
      omega
  | false =>
      change xs.length % 2 = 1
      rw [if_neg Bool.false_ne_true] at hlen
      omega

theorem EndsHigh.ne_nil {xs : List ℤ} (he : EndsHigh true xs) : xs ≠ [] := by
  rintro rfl
  cases he

/-- The level changes where the shorter of two samples ends. -/
theorem level_shorter {h : Bool} {x y : ℤ} {xs ys : List ℤ}
    (hxs : ∀ z ∈ xs, 0 < z) (he : EndsHigh h (x :: xs)) (hlt : x < y) :
    level (alternate h (x :: xs)) x ≠ level (alternate h (y :: ys)) x := by
  have hfirst : level (alternate h (x :: xs)) x = !h := by
    rw [alternate_cons, level, if_neg (lt_irrefl x), Int.sub_self]
    cases h with
    | true => exact level_low_zero hxs
    | false => exact level_high_zero hxs he.tail.ne_nil
  have hsecond : level (alternate h (y :: ys)) x = h := if_pos hlt
  rw [hfirst, hsecond]
  exact Bool.not_ne_self h

/-- A signal of positive samples that ends with a pulse is determined by its
level over time. -/
theorem eq_of_level_eq {h : Bool} {xs ys : List ℤ} (hxs : ∀ x ∈ xs, 0 < x)
    (hys : ∀ y ∈ ys, 0 < y) (hx : EndsHigh h xs) (hy : EndsHigh h ys)
    (heq : ∀ t, 0 ≤ t → level (alternate h xs) t = level (alternate h ys) t) : xs = ys := by
  induction xs generalizing h ys with
  | nil =>
      cases ys with
      | nil => rfl
      | cons y ys =>
          cases h with
          | true => exact absurd rfl hx.ne_nil
          | false =>
              have hpos := hys y List.mem_cons_self
              have hend : false = level (alternate false (y :: ys)) y := heq y hpos.le
              rw [alternate_cons, level, if_neg (lt_irrefl y), Int.sub_self,
                Bool.not_false, level_high_zero (fun z hz => hys z (List.mem_cons_of_mem _ hz))
                  hy.tail.ne_nil] at hend
              cases hend
  | cons x xs ih =>
      have hpos := hxs x List.mem_cons_self
      have hrest : ∀ z ∈ xs, 0 < z := fun z hz => hxs z (List.mem_cons_of_mem _ hz)
      cases ys with
      | nil =>
          cases h with
          | true => exact absurd rfl hy.ne_nil
          | false =>
              have hend := heq x hpos.le
              rw [alternate_cons, level, if_neg (lt_irrefl x), Int.sub_self, Bool.not_false,
                level_high_zero hrest hx.tail.ne_nil] at hend
              cases hend
      | cons y ys =>
          have hpos' := hys y List.mem_cons_self
          have hrest' : ∀ z ∈ ys, 0 < z := fun z hz => hys z (List.mem_cons_of_mem _ hz)
          rcases lt_trichotomy x y with hlt | rfl | hlt
          · exact absurd (heq x hpos.le) (level_shorter hrest hx hlt)
          · -- the first samples are equal: shift the time by them
            have htail := ih hrest hrest' hx.tail hy.tail fun t ht => by
              have hlate : ¬x + t < x := by omega
              have hshift : x + t - x = t := by omega
              have := heq (x + t) (by omega)
              rwa [alternate_cons, alternate_cons, level, level, if_neg hlate, if_neg hlate,
                hshift] at this
            rw [htail]
          · exact absurd (heq y hpos'.le).symm (level_shorter hrest' hy hlt)

end Signal
