import Lirc.EntrySequence

/-!
The pointers that `lirc_iscode` follows and the strings it compares. `LIRC_ALL`
is a pointer to no string, and the list of buttons ends with `NULL`.
-/

namespace Lirc

open Transition

/-- A use of a pointer that points to nothing. -/
inductive RcFault where
  /-- `LIRC_ALL` given to `strcasecmp`. -/
  | wildcard
  /-- A step past the end of the list. -/
  | pastEnd
  deriving DecidableEq, Repr

/-- `strcasecmp(a, b) == 0` -/
def strcasecmpChecked : Option Name → Option Name → Except RcFault Bool
  | some a, some b => .ok (strcaseeq a b)
  | _, _ => .error .wildcard

/-- `a == LIRC_ALL || strcasecmp(a, b) == 0` -/
def allOrEqual (a b : Option Name) : Except RcFault Bool :=
  if a = none then .ok true else strcasecmpChecked a b

/-- The two tests that `lirc_iscode` makes of an element. -/
def compareCodes (c c' : RcCode) : Except RcFault Bool :=
  match allOrEqual c.remote c'.remote with
  | .error fault => .error fault
  | .ok false => .ok false
  | .ok true => allOrEqual c.button c'.button

/-- The inner loop of the rebase; it ends at `scan->next_code`, which `stop`
elements start with. -/
def agreeLoop (stop : ℕ) : List RcCode → List RcCode → Except RcFault (Option (List RcCode))
  | prev, [] => if stop = 0 then .ok (some prev) else .error .pastEnd
  | [], next => if next.length = stop then .ok (some []) else .error .pastEnd
  | p :: prev, n :: next =>
      if (n :: next).length = stop then .ok (some (p :: prev))
      else
        match compareCodes p n with
        | .error fault => .error fault
        | .ok false => .ok none
        | .ok true => agreeLoop stop prev next

/-- The outer loop of the rebase, from `codes` on; `none` when it has come to its
end. -/
def rebaseLoop (code : List RcCode) (stop : ℕ) (press : RcCode) :
    List RcCode → Except RcFault (Option (List RcCode))
  | [] => if stop = 1 then .ok none else .error .pastEnd
  | c :: codes =>
      if (c :: codes).length + 1 = stop then .ok none
      else
        match agreeLoop stop code (c :: codes) with
        | .error fault => .error fault
        | .ok none => rebaseLoop code stop press codes
        | .ok (some []) => .error .pastEnd
        | .ok (some (p :: prev)) =>
            match compareCodes p press with
            | .error fault => .error fault
            | .ok true => .ok (some prev)
            | .ok false => rebaseLoop code stop press codes

/-- `lirc_iscode` with the pointers it follows. -/
def isCodeChecked (e : RcEntry) (remote button : Name) (rep : ℕ) :
    Except RcFault (ℕ × RcEntry) :=
  let press : RcCode := ⟨some remote, some button⟩
  match e.code, e.nextCode with
  | [], _ => .ok (if e.due rep then 1 else 0, e)
  | _ :: _, [] => .error .pastEnd
  | _ :: more, c :: rest =>
      match compareCodes c press with
      | .error fault => .error fault
      | .ok true =>
          let advance := more = [] ∨ rep = 0
          let nextCode := if advance then rest else c :: rest
          let iscode := if advance ∧ more ≠ [] then 1 else 0
          if nextCode = [] then
            .ok (if more ≠ [] ∨ e.due rep then 2 else iscode, { e with nextCode := e.code })
          else .ok (iscode, { e with nextCode })
      | .ok false =>
          if rep ≠ 0 then .ok (0, e)
          else
            let nextConfig := if e.flags.toggleReset then e.config else e.nextConfig
            if (c :: rest).length = e.code.length then .ok (0, { e with nextConfig })
            else
              match rebaseLoop e.code (c :: rest).length press more with
              | .error fault => .error fault
              | .ok nextCode => .ok (0, { e with nextConfig, nextCode := nextCode.getD e.code })

/-! ### Two elements -/

/-- The tests of one element find a name wherever they need one in the other. -/
def RcCode.comparable (c c' : RcCode) : Bool :=
  (c.remote.isNone || c'.remote.isSome) &&
    (!(c.remote.all fun r => c'.remote.any (strcaseeq r)) || c.button.isNone || c'.button.isSome)

theorem compareCodes_press (c : RcCode) (remote button : Name) :
    compareCodes c ⟨some remote, some button⟩ = .ok (c.covers remote button) := by
  obtain ⟨r, b⟩ := c
  have hfield (a : Option Name) (name : Name) :
      allOrEqual a (some name) = .ok (a.all fun a => strcaseeq a name) := by
    cases a <;> rfl
  rw [compareCodes, hfield, hfield, RcCode.covers]
  cases r.all fun r => strcaseeq r remote <;> rfl

theorem allOrEqual_ok {a b : Option Name} (h : (a.isNone || b.isSome) = true) :
    allOrEqual a b = .ok (a.all fun a => b.any (strcaseeq a)) := by
  cases a with
  | none => rfl
  | some a =>
      cases b with
      | none => nomatch h
      | some b => rfl

theorem allOrEqual_fault {a b : Option Name} (h : (a.isNone || b.isSome) = false) :
    allOrEqual a b = .error .wildcard := by
  cases a with
  | none => nomatch h
  | some a =>
      cases b with
      | none => rfl
      | some b => nomatch h

theorem compareCodes_ok {c c' : RcCode} (h : c.comparable c' = true) :
    compareCodes c c' = .ok (c.coversCode c') := by
  obtain ⟨hremote, hbutton⟩ := Bool.and_eq_true_iff.mp h
  rw [compareCodes, allOrEqual_ok hremote, RcCode.coversCode]
  cases hsame : c.remote.all fun r => c'.remote.any (strcaseeq r) with
  | false => rfl
  | true =>
      rw [hsame] at hbutton
      exact allOrEqual_ok hbutton

theorem compareCodes_fault {c c' : RcCode} (h : c.comparable c' = false) :
    compareCodes c c' = .error .wildcard := by
  rw [compareCodes]
  cases hremote : c.remote.isNone || c'.remote.isSome with
  | false => rw [allOrEqual_fault hremote]
  | true =>
      rw [allOrEqual_ok hremote]
      rw [RcCode.comparable, hremote, Bool.true_and] at h
      cases hsame : c.remote.all fun r => c'.remote.any (strcaseeq r) with
      | false => simp [hsame] at h
      | true =>
          rw [hsame] at h
          exact allOrEqual_fault h

/-! ### The loops -/

/-- Up to the first two elements that differ there is a name wherever one is
needed. -/
def NamedPairs : List RcCode → List RcCode → Prop
  | c :: cs, c' :: cs' => c.comparable c' = true ∧ (c.coversCode c' = true → NamedPairs cs cs')
  | _, _ => True

/-- The inner loop on `seg`, which ends where `scan->next_code` points. -/
theorem agreeLoop_spec (prev seg tail : List RcCode) (hlen : seg.length ≤ prev.length)
    (hpos : 0 < tail.length) :
    (NamedPairs prev seg → agreeLoop tail.length prev (seg ++ tail) =
        .ok (if (prev.zip seg).all fun x => x.1.coversCode x.2 then some (prev.drop seg.length)
          else none)) ∧
      (¬NamedPairs prev seg → agreeLoop tail.length prev (seg ++ tail) = .error .wildcard) := by
  induction seg generalizing prev with
  | nil =>
      refine ⟨fun _ => ?_, fun h => absurd (by cases prev <;> trivial) h⟩
      obtain ⟨n, next, rfl⟩ := List.exists_cons_of_length_pos hpos
      cases prev with
      | nil => simp [agreeLoop]
      | cons p prev => simp [agreeLoop]
  | cons c' seg ih =>
      cases prev with
      | nil => simp at hlen
      | cons c prev =>
          obtain ⟨hnamed, hfault⟩ := @ih prev (by simpa using hlen)
          have hmore : ¬(c' :: (seg ++ tail)).length = tail.length := by
            simp only [List.length_cons, List.length_append]
            omega
          rw [List.cons_append, agreeLoop, if_neg hmore, NamedPairs]
          cases hcomp : c.comparable c' with
          | false =>
              rw [compareCodes_fault hcomp]
              exact ⟨fun h => absurd h.1 Bool.false_ne_true, fun _ => rfl⟩
          | true =>
              rw [compareCodes_ok hcomp, List.zip_cons_cons, List.all_cons]
              cases hcov : c.coversCode c' with
              | false => exact ⟨fun _ => rfl, fun h => absurd ⟨rfl, nofun⟩ h⟩
              | true =>
                  refine ⟨fun h => ?_, fun h => ?_⟩
                  · rw [hnamed (h.2 rfl)]
                    rfl
                  · exact hfault fun hrest => h ⟨rfl, fun _ => hrest⟩

/-- The beginning of `k - (j + 1)` elements is one the rebase takes. -/
def rebaseFits (code : List RcCode) (remote button : Name) (k j : ℕ) : Bool :=
  (code.zip ((code.drop (j + 1)).take (k - (j + 1)))).all (fun x => x.1.coversCode x.2) &&
    (code[k - (j + 1)]?).any fun c => c.covers remote button

/-- The comparisons of the rebase from the shift `j + 1` on, up to the first one
that fits, find names. -/
def NamedFrom (code : List RcCode) (remote button : Name) (k j : ℕ) : Prop :=
  ∀ i, j ≤ i → i < k → (∀ i', j ≤ i' → i' < i → rebaseFits code remote button k i' = false) →
    NamedPairs code ((code.drop (i + 1)).take (k - (i + 1)))

section

variable {code : List RcCode} {remote button : Name} {j k : ℕ}

theorem namedFrom_succ
    (hpairs : NamedPairs code ((code.drop (j + 1)).take (k - (j + 1))))
    (hmiss : rebaseFits code remote button k j = false) :
    NamedFrom code remote button k j ↔ NamedFrom code remote button k (j + 1) := by
  constructor
  · intro h i hi hik hnone
    refine h i (by omega) hik fun i' hi' hlt => ?_
    obtain rfl | hlt' := Nat.eq_or_lt_of_le hi'
    · exact hmiss
    · exact hnone i' hlt' hlt
  · intro h i hi hik hnone
    obtain rfl | hlt := Nat.eq_or_lt_of_le hi
    · exact hpairs
    · exact h i hlt hik fun i' hi' => hnone i' (by omega)

/-- The outer loop gives what the first beginning that fits leaves. -/
theorem rebaseLoop_spec (hk : k < code.length) (hj : j ≤ k) :
    (NamedFrom code remote button k j →
        rebaseLoop code (code.length - k) ⟨some remote, some button⟩ (code.drop (j + 1)) =
          .ok (((List.range' j (k - j)).find? (rebaseFits code remote button k)).map
            fun i => code.drop (k - i))) ∧
      (¬NamedFrom code remote button k j →
        rebaseLoop code (code.length - k) ⟨some remote, some button⟩ (code.drop (j + 1)) =
          .error .wildcard) := by
  obtain ⟨n, hn⟩ : ∃ n, n = k - j := ⟨_, rfl⟩
  induction n generalizing j with
  | zero =>
      obtain rfl : j = k := by omega
      refine ⟨fun _ => ?_, fun h => absurd (fun i hi hik => absurd hik (by omega)) h⟩
      rw [Nat.sub_self, List.range'_zero, List.find?_nil, Option.map_none]
      cases hrest : code.drop (j + 1) with
      | nil =>
          have hlen := List.drop_eq_nil_iff.mp hrest
          rw [rebaseLoop, if_pos (by omega)]
      | cons c codes =>
          have hlen := congrArg List.length hrest
          rw [List.length_drop] at hlen
          rw [rebaseLoop, if_pos (by omega)]
  | succ n ih =>
      have hrest := List.drop_eq_getElem_cons (l := code) (i := j + 1) (by omega)
      obtain ⟨hnamed, hfault⟩ := ih (j := j + 1) (by omega) (by omega)
      have hseg : ((code.drop (j + 1)).take (k - (j + 1))).length = k - (j + 1) := by
        rw [List.length_take, List.length_drop]
        omega
      have htail : (code.drop k).length = code.length - k := List.length_drop
      have hsplit : code[j + 1] :: code.drop (j + 1 + 1) =
          (code.drop (j + 1)).take (k - (j + 1)) ++ code.drop k := by
        have happend := List.take_append_drop (k - (j + 1)) (code.drop (j + 1))
        rw [List.drop_drop, show j + 1 + (k - (j + 1)) = k by omega] at happend
        rw [← hrest, happend]
      obtain ⟨hagree, hfault'⟩ :=
        agreeLoop_spec code ((code.drop (j + 1)).take (k - (j + 1))) (code.drop k)
          (by omega) (by omega)
      have hmore : ¬(code[j + 1] :: code.drop (j + 1 + 1)).length + 1 = code.length - k := by
        rw [← hrest, List.length_drop]
        omega
      have hget := List.getElem?_eq_getElem (l := code) (i := k - (j + 1)) (by omega)
      have hdrop := List.drop_eq_getElem_cons (l := code) (i := k - (j + 1)) (by omega)
      rw [show k - (j + 1) + 1 = k - j by omega] at hdrop
      have hfits : rebaseFits code remote button k j =
          ((code.zip ((code.drop (j + 1)).take (k - (j + 1)))).all (fun x => x.1.coversCode x.2) &&
            code[k - (j + 1)].covers remote button) := by
        rw [rebaseFits, hget, Option.any_some]
      have hrange : List.range' j (k - j) = j :: List.range' (j + 1) (k - (j + 1)) := by
        rw [show k - j = k - (j + 1) + 1 by omega, List.range'_succ]
      rw [hrest, rebaseLoop, if_neg hmore, hsplit, ← htail, hrange]
      by_cases hpairs : NamedPairs code ((code.drop (j + 1)).take (k - (j + 1)))
      · -- this shift finds names, and the loop goes on when it does not fit
        have hgoesOn (hmiss : rebaseFits code remote button k j = false) :
            (NamedFrom code remote button k j →
              rebaseLoop code (code.drop k).length ⟨some remote, some button⟩
                (code.drop (j + 1 + 1)) =
              .ok (((j :: List.range' (j + 1) (k - (j + 1))).find?
                (rebaseFits code remote button k)).map fun i => code.drop (k - i))) ∧
            (¬NamedFrom code remote button k j →
              rebaseLoop code (code.drop k).length ⟨some remote, some button⟩
                (code.drop (j + 1 + 1)) = .error .wildcard) := by
          rw [namedFrom_succ hpairs hmiss, htail, List.find?_cons_of_neg (by simp [hmiss])]
          exact ⟨hnamed, hfault⟩
        rw [hagree hpairs, hseg]
        by_cases hall :
            ((code.zip ((code.drop (j + 1)).take (k - (j + 1)))).all fun x =>
              x.1.coversCode x.2) = true
        · rw [hall, Bool.true_and] at hfits
          rw [if_pos hall, hdrop]
          dsimp only
          rw [compareCodes_press]
          cases hcov : code[k - (j + 1)].covers remote button with
          | true =>
              rw [hcov] at hfits
              refine ⟨fun _ => ?_, fun h => absurd (fun i hi hik hnone => ?_) h⟩
              · rw [List.find?_cons_of_pos hfits]
                rfl
              · obtain rfl | hlt := Nat.eq_or_lt_of_le hi
                · exact hpairs
                · rw [hnone j (Nat.le_refl j) hlt] at hfits
                  nomatch hfits
          | false => exact hgoesOn (hfits.trans hcov)
        · rw [Bool.eq_false_iff.mpr hall, Bool.false_and] at hfits
          rw [if_neg hall]
          exact hgoesOn hfits
      · rw [hfault' hpairs]
        exact ⟨fun h => absurd (h j (Nat.le_refl j) (by omega) fun i' hi' hlt => by omega) hpairs,
          fun _ => rfl⟩

end

/-! ### One event -/

/-- A press that the entry does not wait for is compared with names only: in the
rebase no element that names a remote or a button is held against `LIRC_ALL`. -/
def ComparesNames (e : RcEntry) (ev : ButtonEvent) : Prop :=
  ev.rep = 0 → (∀ c ∈ e.nextCode.head?, c.covers ev.remote ev.button = false) →
    NamedFrom e.code ev.remote ev.button (e.code.length - e.nextCode.length) 0

/-- `next_code` points into the list, when there is one. -/
def PointsInto (e : RcEntry) : Prop :=
  e.code = [] ∨ ∃ k, k < e.code.length ∧ e.nextCode = e.code.drop k

theorem rebase_eq (e : RcEntry) (remote button : Name) :
    e.rebase remote button =
      (((List.range' 0 (e.code.length - e.nextCode.length)).find?
        (rebaseFits e.code remote button (e.code.length - e.nextCode.length))).map
          fun i => e.code.drop (e.code.length - e.nextCode.length - i)).getD e.code := by
  rw [RcEntry.rebase, ← List.range_eq_range']
  split
  · next i hfits =>
      have hfound : (List.range (e.code.length - e.nextCode.length)).find?
          (rebaseFits e.code remote button (e.code.length - e.nextCode.length)) = some i := hfits
      rw [hfound]
      rfl
  · next hfits =>
      have hlost : (List.range (e.code.length - e.nextCode.length)).find?
          (rebaseFits e.code remote button (e.code.length - e.nextCode.length)) = none := hfits
      rw [hlost]
      rfl

/-- What `lirc_iscode` does with a button that the entry waits for. -/
def coveredResult (e : RcEntry) (more : List RcCode) (c : RcCode) (rest : List RcCode) (rep : ℕ) :
    ℕ × RcEntry :=
  let advance := more = [] ∨ rep = 0
  let nextCode := if advance then rest else c :: rest
  let iscode := if advance ∧ more ≠ [] then 1 else 0
  if nextCode = [] then
    (if more ≠ [] ∨ e.due rep then 2 else iscode, { e with nextCode := e.code })
  else (iscode, { e with nextCode })

section

variable {e : RcEntry} {c₀ c : RcCode} {more rest : List RcCode}

theorem isCode_cons (hcode : e.code = c₀ :: more) (hnext : e.nextCode = c :: rest)
    (remote button : Name) (rep : ℕ) :
    e.isCode remote button rep =
      if c.covers remote button then coveredResult e more c rest rep
      else if rep ≠ 0 then (0, e)
      else
        (0, { e with
          nextConfig := if e.flags.toggleReset then e.config else e.nextConfig
          nextCode := e.rebase remote button }) := by
  cases e with
  | mk prog code repDelay rep' config changeMode flags mode nextConfig nextCode =>
      obtain rfl : code = c₀ :: more := hcode
      obtain rfl : nextCode = c :: rest := hnext
      rfl

theorem isCodeChecked_cons (hcode : e.code = c₀ :: more) (hnext : e.nextCode = c :: rest)
    (remote button : Name) (rep : ℕ) :
    isCodeChecked e remote button rep =
      if c.covers remote button then .ok (coveredResult e more c rest rep)
      else if rep ≠ 0 then .ok (0, e)
      else
        let nextConfig := if e.flags.toggleReset then e.config else e.nextConfig
        if e.nextCode.length = e.code.length then .ok (0, { e with nextConfig })
        else
          match rebaseLoop e.code e.nextCode.length ⟨some remote, some button⟩ more with
          | .error fault => .error fault
          | .ok nextCode => .ok (0, { e with nextConfig, nextCode := nextCode.getD e.code }) := by
  cases e with
  | mk prog code repDelay rep' config changeMode flags mode nextConfig nextCode =>
      obtain rfl : code = c₀ :: more := hcode
      obtain rfl : nextCode = c :: rest := hnext
      rw [isCodeChecked]
      simp only [compareCodes_press]
      cases c.covers remote button with
      | true =>
          simp only [coveredResult, if_true]
          exact (apply_ite Except.ok _ _ _).symm
      | false => rfl

end

/-- The place of an entry that has buttons. -/
theorem PointsInto.place {e : RcEntry} (h : PointsInto e) {c₀ : RcCode} {more : List RcCode}
    (hcode : e.code = c₀ :: more) : ∃ k c rest, k < e.code.length ∧ e.nextCode = c :: rest ∧
      e.code[k]? = some c ∧ rest = e.code.drop (k + 1) ∧ e.nextCode = e.code.drop k := by
  obtain hnil | ⟨k, hk, hnext⟩ := h
  · rw [hcode] at hnil
    nomatch hnil
  · exact ⟨k, e.code[k], e.code.drop (k + 1), hk, hnext.trans (List.drop_eq_getElem_cons hk),
      List.getElem?_eq_getElem hk, rfl, hnext⟩

/-- The pointers are followed in the list, and the result is that of
`lirc_iscode` when names are compared and a fault otherwise. -/
theorem isCodeChecked_spec {e : RcEntry} (h : PointsInto e) (ev : ButtonEvent) :
    (ComparesNames e ev →
        isCodeChecked e ev.remote ev.button ev.rep = .ok (e.isCode ev.remote ev.button ev.rep)) ∧
      (¬ComparesNames e ev →
        isCodeChecked e ev.remote ev.button ev.rep = .error .wildcard) := by
  cases hcode : e.code with
  | nil =>
      have hnamed : ComparesNames e ev := by
        intro _ _ i hi hik
        rw [hcode, List.length_nil, Nat.zero_sub] at hik
        omega
      refine ⟨fun _ => ?_, fun hnot => absurd hnamed hnot⟩
      rw [isCodeChecked, RcEntry.isCode, hcode]
  | cons c₀ more =>
      obtain ⟨k, c, rest, hk, hnext, hc, hrest, hdrop⟩ := h.place hcode
      have hlen : (c :: rest).length = e.code.length - k := by
        rw [← hnext, hdrop, List.length_drop]
      have hplace : e.code.length - e.nextCode.length = k := by
        rw [hnext, hlen]
        omega
      have hmore : more = e.code.drop (0 + 1) := by
        rw [hcode]
        rfl
      have hrebase := rebase_eq e ev.remote ev.button
      obtain ⟨hok, hfault⟩ :=
        @rebaseLoop_spec e.code ev.remote ev.button 0 k hk (Nat.zero_le k)
      rw [hplace] at hrebase
      cases hcovers : c.covers ev.remote ev.button with
      | true =>
          have hnamed : ComparesNames e ev := by
            intro _ hmiss
            rw [hmiss c (by rw [hnext]; rfl)] at hcovers
            exact absurd hcovers Bool.false_ne_true
          refine ⟨fun _ => ?_, fun hnot => absurd hnamed hnot⟩
          rw [isCodeChecked_cons hcode hnext, isCode_cons hcode hnext, if_pos hcovers,
            if_pos hcovers]
      | false =>
          have hmiss : ∀ c' ∈ e.nextCode.head?, c'.covers ev.remote ev.button = false := by
            intro c' hc'
            rw [hnext] at hc'
            obtain rfl := Option.some.inj hc'
            exact hcovers
          rw [isCodeChecked_cons hcode hnext, isCode_cons hcode hnext, hcovers,
            if_neg Bool.false_ne_true, if_neg Bool.false_ne_true]
          by_cases hrep : ev.rep = 0
          · rw [if_neg (not_not_intro hrep), if_neg (not_not_intro hrep)]
            have hnamed : ComparesNames e ev ↔ NamedFrom e.code ev.remote ev.button k 0 := by
              rw [ComparesNames, hplace]
              exact ⟨fun h => h hrep hmiss, fun h _ _ => h⟩
            dsimp only
            rw [hnamed, hrebase]
            by_cases hpos : k = 0
            · -- the entry waits for its first button
              subst hpos
              have hsame : e.nextCode = e.code := hdrop
              rw [if_pos (congrArg List.length hsame)]
              refine ⟨fun _ => ?_, fun h => absurd (fun i hi hik => absurd hik (by omega)) h⟩
              rw [List.range'_zero, List.find?_nil, Option.map_none,
                Option.getD_none, ← hsame]
            · have hlater : ¬e.nextCode.length = e.code.length := by
                rw [hdrop, List.length_drop]
                omega
              have hstop : e.nextCode.length = e.code.length - k := by
                rw [hdrop, List.length_drop]
              rw [if_neg hlater, hstop, hmore]
              constructor
              · intro h
                rw [hok h]
                rfl
              · intro h
                rw [hfault h]
          · have hnamed : ComparesNames e ev := fun hzero => absurd hzero hrep
            rw [if_pos hrep, if_pos hrep]
            exact ⟨fun _ => rfl, fun hnot => absurd hnamed hnot⟩

theorem isCode_pointsInto {e : RcEntry} (h : PointsInto e) (ev : ButtonEvent) :
    PointsInto (e.isCode ev.remote ev.button ev.rep).2 := by
  cases hcode : e.code with
  | nil =>
      rw [RcEntry.isCode, hcode]
      exact .inl hcode
  | cons c₀ more =>
      obtain ⟨k, c, rest, hk, hnext, hc, hrest, hdrop⟩ := h.place hcode
      have hpos : 0 < e.code.length := by omega
      rw [isCode_cons hcode hnext]
      split
      · have hresult (a b : ℕ) (nextCode : List RcCode)
            (heq : nextCode = rest ∨ nextCode = c :: rest) :
            PointsInto (if nextCode = [] then (a, { e with nextCode := e.code })
              else (b, { e with nextCode })).2 := by
          split
          · exact .inr ⟨0, hpos, rfl⟩
          · next hne =>
              obtain rfl | rfl := heq
              · rw [hrest, List.drop_eq_nil_iff] at hne
                have hlt : k + 1 < e.code.length := by omega
                exact .inr ⟨k + 1, hlt, hrest⟩
              · exact .inr ⟨k, hk, hnext.symm.trans hdrop⟩
        exact hresult _ _ _ (by split <;> simp)
      · split
        · exact h
        · refine .inr ?_
          show ∃ k', k' < e.code.length ∧ e.rebase ev.remote ev.button = e.code.drop k'
          rw [rebase_eq]
          cases hfind : (List.range' 0 (e.code.length - e.nextCode.length)).find?
              (rebaseFits e.code ev.remote ev.button (e.code.length - e.nextCode.length)) with
          | none => exact ⟨0, hpos, rfl⟩
          | some j =>
              have hj := List.mem_range'_1.mp (List.mem_of_find?_eq_some hfind)
              have hlen := congrArg List.length hnext
              rw [List.length_cons] at hlen
              exact ⟨e.code.length - e.nextCode.length - j, by omega, rfl⟩

/-! ### A series of events -/

/-- An entry after an event. -/
def entryStep (e : RcEntry) (ev : ButtonEvent) : RcEntry :=
  (e.isCode ev.remote ev.button ev.rep).2

/-- Over any series of events the calls of `lirc_iscode` meet no fault exactly when
each of them compares names only; a call that does not gives `LIRC_ALL` to
`strcasecmp`, and no call steps past the end of the list. -/
theorem iscode_compares_names_iff (e : RcEntry) (hstart : e.nextCode = e.code)
    (events : List ButtonEvent) :
    (Along entryStep (fun e ev => isCodeChecked e ev.remote ev.button ev.rep =
          .ok (e.isCode ev.remote ev.button ev.rep)) e events ↔
        Along entryStep ComparesNames e events) ∧
      Along entryStep (fun e ev => isCodeChecked e ev.remote ev.button ev.rep ≠ .error .pastEnd)
        e events := by
  have hpoints : PointsInto e := by
    by_cases hnil : e.code = []
    · exact .inl hnil
    · exact .inr ⟨0, List.length_pos_iff.mpr hnil, hstart⟩
  clear hstart
  induction events generalizing e with
  | nil => exact ⟨Iff.rfl, trivial⟩
  | cons ev events ih =>
      obtain ⟨hrest, hin⟩ := ih (entryStep e ev) (isCode_pointsInto hpoints ev)
      obtain ⟨hok, hfault⟩ := isCodeChecked_spec hpoints ev
      by_cases hnames : ComparesNames e ev
      · refine ⟨and_congr (iff_of_true (hok hnames) hnames) hrest, ?_, hin⟩
        show isCodeChecked e ev.remote ev.button ev.rep ≠ .error .pastEnd
        rw [hok hnames]
        exact nofun
      · refine ⟨and_congr (iff_of_false (fun h => ?_) hnames) hrest, ?_, hin⟩
        · exact nomatch (hfault hnames).symm.trans h
        · show isCodeChecked e ev.remote ev.button ev.rep ≠ .error .pastEnd
          rw [hfault hnames]
          exact fun h => nomatch h

/-- A button of a remote, one of any remote, and a third one. -/
def withWildcard : RcEntry where
  code := [⟨some "rc".toList, some "a".toList⟩, ⟨none, some "b".toList⟩,
    ⟨some "rc".toList, some "c".toList⟩]

/-- The first two are pressed. -/
def firstTwo : List ButtonEvent := [⟨"rc".toList, "a".toList, 0⟩, ⟨"rc".toList, "b".toList, 0⟩]

/-- Any other button than the third gives `LIRC_ALL` to `strcasecmp`. -/
theorem iscode_compares_wildcard :
    isCodeChecked (run entryStep withWildcard firstTwo) "rc".toList "x".toList 0 =
      .error .wildcard := by decide

theorem iscode_compares_names_iff_wildcard :
    (Along entryStep (fun e ev => isCodeChecked e ev.remote ev.button ev.rep =
          .ok (e.isCode ev.remote ev.button ev.rep)) withWildcard
          (firstTwo ++ [⟨"rc".toList, "x".toList, 0⟩]) ↔
        Along entryStep ComparesNames withWildcard
          (firstTwo ++ [⟨"rc".toList, "x".toList, 0⟩])) ∧
      Along entryStep (fun e ev => isCodeChecked e ev.remote ev.button ev.rep ≠ .error .pastEnd)
        withWildcard (firstTwo ++ [⟨"rc".toList, "x".toList, 0⟩]) :=
  iscode_compares_names_iff withWildcard rfl _

end Lirc
