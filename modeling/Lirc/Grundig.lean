import Lirc.Segment

/-!
The Grundig decoder of `get_data`: the pairs of a space and a pulse that it
consumes, and the groups of them that make up two bits.

The longest pair is looked for before the pair in front of it is considered, so
that it also ends a group that has begun.
-/

namespace Lirc

/-! ### Groups -/

/-- The groups that the decoder accepts; `cut` is a first pair of a group with the
longest pair behind it. -/
inductive GrundigGroup where
  | sixT
  | fourTwo
  | threeThree
  | twoFour
  | cut (first : Fin 3)
  deriving DecidableEq, Repr

namespace GrundigGroup

/-- Its pairs: 0 for 2T, 1 for 3T, 2 for 4T and 3 for 6T. -/
def symbols : GrundigGroup → List ℕ
  | sixT => [3]
  | fourTwo => [2, 0]
  | threeThree => [1, 1]
  | twoFour => [0, 2]
  | cut first => [first.val, 3]

def digit : GrundigGroup → IrCode
  | sixT => 0
  | fourTwo => 1
  | threeThree => 2
  | twoFour => 3
  | cut _ => 0

/-- A group of a Grundig signal. -/
def Proper : GrundigGroup → Prop
  | cut _ => False
  | _ => True

instance : DecidablePred Proper
  | sixT => .isTrue trivial
  | fourTwo => .isTrue trivial
  | threeThree => .isTrue trivial
  | twoFour => .isTrue trivial
  | cut _ => .isFalse id

/-- The word with the digits of the groups behind those of `code`. -/
def word (code : IrCode) (groups : List GrundigGroup) : IrCode :=
  groups.foldl (fun code group => code <<< 2 ||| group.digit) code

/-- The group that a list of pairs starts with, and the others. -/
def parse : List ℕ → List GrundigGroup
  | 3 :: rest => sixT :: parse rest
  | 2 :: 0 :: rest => fourTwo :: parse rest
  | 1 :: 1 :: rest => threeThree :: parse rest
  | 0 :: 2 :: rest => twoFour :: parse rest
  | 0 :: 3 :: rest => cut 0 :: parse rest
  | 1 :: 3 :: rest => cut 1 :: parse rest
  | 2 :: 3 :: rest => cut 2 :: parse rest
  | _ => []

/-- The pairs determine the groups. -/
theorem parse_flatMap_symbols (groups : List GrundigGroup) :
    parse (groups.flatMap symbols) = groups := by
  induction groups with
  | nil => rfl
  | cons group groups ih =>
      rw [List.flatMap_cons]
      cases group with
      | sixT => exact congrArg _ ih
      | fourTwo => exact congrArg _ ih
      | threeThree => exact congrArg _ ih
      | twoFour => exact congrArg _ ih
      | cut first =>
          match first with
          | 0 => exact congrArg _ ih
          | 1 => exact congrArg _ ih
          | 2 => exact congrArg _ ih

theorem parse_symbols_append (group : GrundigGroup) (rest : List ℕ) :
    parse (group.symbols ++ rest) = group :: parse rest := by
  cases group with
  | sixT => rfl
  | fourTwo => rfl
  | threeThree => rfl
  | twoFour => rfl
  | cut first =>
      match first with
      | 0 => rfl
      | 1 => rfl
      | 2 => rfl

theorem symbols_injective {groups groups' : List GrundigGroup}
    (h : groups.flatMap symbols = groups'.flatMap symbols) : groups = groups' := by
  rw [← parse_flatMap_symbols groups, h, parse_flatMap_symbols]

end GrundigGroup

section

variable (hw : Hardware) (r : IrRemote)

/-! ### What is consumed -/

/-- The loop of the Grundig decoder with the pairs that it consumes. -/
def grundigTraced (bits : ℕ) :
    ℕ → ℕ → Option ℕ → IrCode → RBuf → List (ℤ × ℤ) × IrCode × RBuf
  | 0, _, _, code, b => ([], code, b)
  | n + 1, i, laststate, code, b =>
      if i < bits then
        let (deltas, b) := getNextSpace b (maxSymbolSpace r)
        let (deltap, b) := getNextPulse b (maxSymbolPulse r)
        if deltas = 0 ∨ deltap = 0 then ([], noCode, b)
        else
          match matchSymbol hw r (deltas + deltap) with
          | none => ([(deltas, deltap)], noCode, b)
          | some state =>
              match grundigBits laststate state with
              | some two =>
                  let (pairs, result) := grundigTraced bits n (i + 2) none (code <<< 2 ||| two) b
                  ((deltas, deltap) :: pairs, result)
              | none =>
                  if laststate.isNone then
                    let (pairs, result) := grundigTraced bits n i (some state) code b
                    ((deltas, deltap) :: pairs, result)
                  else ([(deltas, deltap)], noCode, b)
      else ([], code, b)

/-- Writing down the pairs changes nothing in the result. -/
theorem grundigTraced_result (bits n i : ℕ) (laststate : Option ℕ) (code : IrCode) (b : RBuf) :
    (grundigTraced hw r bits n i laststate code b).2 =
      getGrundigLoop hw r bits n i laststate code b := by
  induction n generalizing i laststate code b with
  | zero => rfl
  | succ n ih =>
      rw [grundigTraced, getGrundigLoop]
      split
      · obtain ⟨deltas, b⟩ := getNextSpace b (maxSymbolSpace r)
        dsimp only
        obtain ⟨deltap, b⟩ := getNextPulse b (maxSymbolPulse r)
        dsimp only
        split
        · rfl
        · cases matchSymbol hw r (deltas + deltap) with
          | none => rfl
          | some state =>
              dsimp only
              cases grundigBits laststate state with
              | some two => exact ih ..
              | none =>
                  dsimp only
                  split
                  · exact ih ..
                  · rfl
      · rfl

/-- The pairs that `get_data` consumes of a Grundig signal. -/
def grundigPairs (bits done : ℕ) (b : RBuf) : List (ℤ × ℤ) :=
  if bits % 2 ≠ 0 ∨ done % 2 ≠ 0 then []
  else
    let (ok, b) := syncPendingPulse hw r b
    if !ok then [] else (grundigTraced hw r bits bits 0 none 0 b).1

/-- The symbols that the decoder takes the pairs for. -/
def pairSymbols (pairs : List (ℤ × ℤ)) : List (Option ℕ) :=
  pairs.map fun pair => matchSymbol hw r (pair.1 + pair.2)

/-- The first pair of a group that has begun and the pairs behind it are those of
the groups. -/
def FormGroups (first : Option ℕ) (pairs : List (ℤ × ℤ)) (groups : List GrundigGroup) : Prop :=
  first.toList.map some ++ pairSymbols hw r pairs = (groups.flatMap GrundigGroup.symbols).map some

end

section

open GrundigGroup

variable {hw : Hardware} {r : IrRemote}

/-- Two bits are those of a group. -/
theorem grundigBits_some {first : Option ℕ} {state : ℕ} {two : IrCode}
    (hfirst : ∀ s ∈ first, s < 3) (h : grundigBits first state = some two) :
    ∃ group : GrundigGroup, group.symbols = first.toList ++ [state] ∧ group.digit = two := by
  rw [grundigBits] at h
  split at h
  · next hthree =>
      obtain rfl := Option.some.inj h
      cases first with
      | none => exact ⟨sixT, by rw [hthree]; rfl, rfl⟩
      | some s => exact ⟨cut ⟨s, hfirst s rfl⟩, by rw [hthree]; rfl, rfl⟩
  · split at h
    · next hboth =>
        obtain rfl := Option.some.inj h
        exact ⟨fourTwo, by rw [hboth.1, hboth.2]; rfl, rfl⟩
    · split at h
      · next hboth =>
          obtain rfl := Option.some.inj h
          exact ⟨threeThree, by rw [hboth.1, hboth.2]; rfl, rfl⟩
      · split at h
        · next hboth =>
            obtain rfl := Option.some.inj h
            exact ⟨twoFour, by rw [hboth.1, hboth.2]; rfl, rfl⟩
        · nomatch h

/-- Two pairs that are no two bits start no group. -/
theorem grundigBits_none :
    ∀ s < 3, ∀ state < 4, grundigBits (some s) state = none → parse [s, state] = [] := by
  decide

theorem parse_first : ∀ s < 3, parse [s] = [] := by decide

theorem grundigBits_first : ∀ state < 4, grundigBits none state = none → state < 3 := by decide

/-- A list of symbols that starts with no group is not one of groups. -/
theorem not_formGroups {first : Option ℕ} {pairs : List (ℤ × ℤ)} {symbols : List ℕ}
    (hsymbols : first.toList.map some ++ pairSymbols hw r pairs = symbols.map some)
    (hparse : parse symbols = []) {groups : List GrundigGroup} (hpos : 0 < groups.length) :
    ¬FormGroups hw r first pairs groups := by
  intro h
  rw [FormGroups, hsymbols] at h
  have heq := (List.map_injective_iff.mpr (Option.some_injective ℕ)) h
  have hgroups := parse_flatMap_symbols groups
  rw [← heq, hparse] at hgroups
  rw [← hgroups] at hpos
  exact Nat.lt_irrefl 0 hpos

/-- A pair that is no symbol is in no group. -/
theorem not_formGroups_none {first : Option ℕ} {pairs : List (ℤ × ℤ)} {pair : ℤ × ℤ}
    (hpair : pair ∈ pairs) (hnone : matchSymbol hw r (pair.1 + pair.2) = none)
    (groups : List GrundigGroup) : ¬FormGroups hw r first pairs groups := by
  intro h
  have hmem : none ∈ first.toList.map some ++ pairSymbols hw r pairs :=
    List.mem_append_right _ (List.mem_map.mpr ⟨pair, hpair, hnone⟩)
  rw [h, List.mem_map] at hmem
  obtain ⟨s, -, hs⟩ := hmem
  nomatch hs

/-- The pairs of a group in front of others. -/
theorem formGroups_cons {first : Option ℕ} (pair : ℤ × ℤ) (pairs : List (ℤ × ℤ))
    {group : GrundigGroup} {state : ℕ}
    (hstate : matchSymbol hw r (pair.1 + pair.2) = some state)
    (hgroup : group.symbols = first.toList ++ [state]) (groups : List GrundigGroup) :
    FormGroups hw r first (pair :: pairs) groups ↔
      ∃ groups', groups = group :: groups' ∧ FormGroups hw r none pairs groups' := by
  have hsplit : first.toList.map some ++ pairSymbols hw r (pair :: pairs) =
      group.symbols.map some ++ pairSymbols hw r pairs := by
    rw [hgroup, pairSymbols, List.map_cons, hstate, List.map_append, List.append_assoc]
    rfl
  rw [FormGroups, hsplit]
  constructor
  · intro h
    obtain ⟨rest, hrest⟩ : ∃ rest : List ℕ, groups.flatMap GrundigGroup.symbols =
        group.symbols ++ rest ∧ pairSymbols hw r pairs = rest.map some := by
      obtain ⟨front, rest, hboth, hfront, hrest⟩ := List.map_eq_append_iff.mp h.symm
      have hsame := (List.map_injective_iff.mpr (Option.some_injective ℕ)) hfront
      exact ⟨rest, hsame ▸ hboth, hrest.symm⟩
    obtain ⟨hboth, hsymbols⟩ := hrest
    have hgroups := parse_flatMap_symbols groups
    rw [hboth, parse_symbols_append] at hgroups
    refine ⟨parse rest, hgroups.symm, ?_⟩
    rw [← hgroups, List.flatMap_cons] at hboth
    rw [FormGroups, hsymbols, List.append_cancel_left hboth]
    rfl
  · rintro ⟨groups', rfl, h⟩
    rw [List.flatMap_cons, List.map_append]
    exact congrArg _ h

/-- How the loop ends: with the word of the groups that the pairs form, or with a
failure behind pairs that form none. -/
theorem grundigTraced_spec {bits n i m : ℕ} {first : Option ℕ} (hbits : bits = i + 2 * m)
    (hn : 2 * m ≤ n + first.toList.length) (hfirst : ∀ s ∈ first, s < 3 ∧ 0 < m) (code : IrCode)
    (b : RBuf) :
    (∃ groups : List GrundigGroup, groups.length = m ∧
        FormGroups hw r first (grundigTraced hw r bits n i first code b).1 groups ∧
        (grundigTraced hw r bits n i first code b).2.1 = GrundigGroup.word code groups) ∨
      ((grundigTraced hw r bits n i first code b).2.1 = noCode ∧
        ∀ groups : List GrundigGroup, groups.length = m →
          ¬FormGroups hw r first (grundigTraced hw r bits n i first code b).1 groups) := by
  induction n generalizing i m first code b with
  | zero =>
      have hlen : first.toList.length ≤ 1 := by cases first <;> simp
      obtain rfl : m = 0 := by omega
      have hnone : first = none := by
        cases first with
        | none => rfl
        | some s => exact absurd (hfirst s rfl).2 (Nat.lt_irrefl 0)
      subst hnone
      exact .inl ⟨[], rfl, rfl, rfl⟩
  | succ n ih =>
      rw [grundigTraced]
      by_cases hm : m = 0
      · have hnone : first = none := by
          cases first with
          | none => rfl
          | some s => exact absurd (hfirst s rfl).2 (by omega)
        subst hnone hm
        rw [if_neg (by omega)]
        exact .inl ⟨[], rfl, rfl, rfl⟩
      · rw [if_pos (by omega)]
        obtain ⟨deltas, b⟩ := getNextSpace b (maxSymbolSpace r)
        dsimp only
        obtain ⟨deltap, b⟩ := getNextPulse b (maxSymbolPulse r)
        dsimp only
        by_cases hzero : deltas = 0 ∨ deltap = 0
        · -- the signal ends inside of the group
          rw [if_pos hzero]
          refine .inr ⟨rfl, fun groups hlen => ?_⟩
          have hpairs : first.toList.map some ++ pairSymbols hw r [] = first.toList.map some :=
            List.append_nil _
          have hparse : parse first.toList = [] := by
            cases first with
            | none => rfl
            | some s => exact parse_first s (hfirst s rfl).1
          have hpos : 0 < groups.length := by omega
          exact not_formGroups hpairs hparse hpos
        · rw [if_neg hzero]
          cases hstate : matchSymbol hw r (deltas + deltap) with
          | none =>
              have hmem : (deltas, deltap) ∈ [(deltas, deltap)] := List.mem_cons_self
              exact .inr ⟨rfl, fun groups _ => not_formGroups_none hmem hstate groups⟩
          | some state =>
              have hlt := matchSymbol_lt hw r hstate
              dsimp only
              cases htwo : grundigBits first state with
              | some two =>
                  obtain ⟨group, hgroup, hdigit⟩ :=
                    grundigBits_some (fun s hs => (hfirst s hs).1) htwo
                  have hcons (pairs : List (ℤ × ℤ)) (groups : List GrundigGroup) :=
                    formGroups_cons (deltas, deltap) pairs hstate hgroup groups
                  have hbegun : first.toList.length ≤ 1 := by cases first <;> simp
                  have hfuel : 2 * (m - 1) ≤ n + (none : Option ℕ).toList.length := by
                    rw [Option.toList_none, List.length_nil]
                    omega
                  obtain ⟨groups, hlen, hform, hword⟩ | ⟨hfail, hnone⟩ :=
                    @ih (i + 2) (m - 1) none (by omega) hfuel nofun (code <<< 2 ||| two) b
                  · refine .inl ⟨group :: groups, ?_, (hcons _ _).mpr ⟨groups, rfl, hform⟩, ?_⟩
                    · rw [List.length_cons]
                      omega
                    · rw [hword, ← hdigit]
                      rfl
                  · refine .inr ⟨hfail, fun groups hlen hform => ?_⟩
                    obtain ⟨groups', rfl, hform'⟩ := (hcons _ _).mp hform
                    rw [List.length_cons] at hlen
                    exact hnone groups' (by omega) hform'
              | none =>
                  dsimp only
                  cases first with
                  | none =>
                      -- the first pair of a group
                      have hthree := grundigBits_first state hlt htwo
                      have hbegun (pairs : List (ℤ × ℤ)) (groups : List GrundigGroup) :
                          FormGroups hw r none ((deltas, deltap) :: pairs) groups ↔
                            FormGroups hw r (some state) pairs groups := by
                        rw [FormGroups, FormGroups, pairSymbols, List.map_cons, hstate]
                        rfl
                      have hrec := @ih i m (some state) hbits (by simpa using hn)
                        (fun s hs => by
                          obtain rfl := Option.some.inj hs
                          exact ⟨hthree, by omega⟩) code b
                      simp only [hbegun, Option.isNone_none, if_true]
                      exact hrec
                  | some s =>
                      refine .inr ⟨rfl, fun groups hlen => ?_⟩
                      have hpairs : (some s).toList.map some ++
                          pairSymbols hw r [(deltas, deltap)] = [s, state].map some := by
                        rw [pairSymbols, List.map_cons, hstate]
                        rfl
                      have hparse := grundigBits_none s (hfirst s rfl).1 state hlt htwo
                      have hpos : 0 < groups.length := by omega
                      exact not_formGroups hpairs hparse hpos

end

/-! ### The segment -/

/-- The nominal length of a pair: zero for 2T, one for 3T, two for 4T, three for 6T. -/
def grundigNominal (r : IrRemote) : ℕ → ℤ
  | 0 => r.szero + r.pzero
  | 1 => r.sone + r.pone
  | 2 => r.stwo + r.ptwo
  | _ => r.sthree + r.pthree

section

variable (hw : Hardware) (r : IrRemote)

/-- No length is expected for two of the four pairs. -/
def SeparatedPairs : Prop :=
  ∀ sum : ℤ, ∀ s < 4, ∀ s' < 4, expect hw r sum (grundigNominal r s) = true →
    expect hw r sum (grundigNominal r s') = true → s = s'

/-- The pairs are, one by one, those of the groups. -/
def MadeOf (pairs : List (ℤ × ℤ)) (groups : List GrundigGroup) : Prop :=
  List.Forall₂ (fun pair s => expect hw r (pair.1 + pair.2) (grundigNominal r s) = true) pairs
    (groups.flatMap GrundigGroup.symbols)

/-- `get_data` succeeds exactly on the groups of a Grundig signal, so many as there
are pairs of bits, and returns their digits. -/
def DecodesGroups (bits done : ℕ) (b : RBuf) : Prop :=
  ((getData hw r bits done b).1 ≠ noCode ↔
      ∃ groups : List GrundigGroup, groups.length = bits / 2 ∧ (∀ g ∈ groups, g.Proper) ∧
        MadeOf hw r (grundigPairs hw r bits done b) groups) ∧
    ∀ groups : List GrundigGroup, groups.length = bits / 2 → (∀ g ∈ groups, g.Proper) →
      MadeOf hw r (grundigPairs hw r bits done b) groups →
      (getData hw r bits done b).1 = GrundigGroup.word 0 groups

end

section

variable {hw : Hardware} {r : IrRemote}

theorem matchSymbol_iff (hsep : SeparatedPairs hw r) (sum : ℤ) {s : ℕ} (hs : s < 4) :
    expect hw r sum (grundigNominal r s) = true ↔ matchSymbol hw r sum = some s := by
  have hmatch : matchSymbol hw r sum =
      if expect hw r sum (grundigNominal r 0) then some 0
      else if expect hw r sum (grundigNominal r 1) then some 1
      else if expect hw r sum (grundigNominal r 2) then some 2
      else if expect hw r sum (grundigNominal r 3) then some 3
      else none := by
    simp only [matchSymbol, grundigNominal, add_comm]
  rw [hmatch]
  constructor
  · intro h
    have hother (s' : ℕ) (hs' : s' < 4) (hne : s' ≠ s) :
        ¬expect hw r sum (grundigNominal r s') = true := fun h' =>
      hne (hsep sum s' hs' s hs h' h)
    match s, hs with
    | 0, _ => rw [if_pos h]
    | 1, _ => rw [if_neg (hother 0 (by decide) (by decide)), if_pos h]
    | 2, _ =>
        rw [if_neg (hother 0 (by decide) (by decide)), if_neg (hother 1 (by decide) (by decide)),
          if_pos h]
    | 3, _ =>
        rw [if_neg (hother 0 (by decide) (by decide)), if_neg (hother 1 (by decide) (by decide)),
          if_neg (hother 2 (by decide) (by decide)), if_pos h]
  · intro h
    split at h
    · next h' => exact Option.some.inj h ▸ h'
    · split at h
      · next h' => exact Option.some.inj h ▸ h'
      · split at h
        · next h' => exact Option.some.inj h ▸ h'
        · split at h
          · next h' => exact Option.some.inj h ▸ h'
          · nomatch h

theorem symbols_lt {groups : List GrundigGroup} :
    ∀ s ∈ groups.flatMap GrundigGroup.symbols, s < 4 := by
  intro s hs
  obtain ⟨group, -, hmem⟩ := List.mem_flatMap.mp hs
  cases group <;> simp [GrundigGroup.symbols] at hmem <;> omega

theorem madeOf_iff (hsep : SeparatedPairs hw r) (pairs : List (ℤ × ℤ))
    (groups : List GrundigGroup) :
    MadeOf hw r pairs groups ↔ FormGroups hw r none pairs groups := by
  have hsymbols := @symbols_lt groups
  rw [MadeOf, FormGroups]
  show _ ↔ pairSymbols hw r pairs = _
  generalize groups.flatMap GrundigGroup.symbols = symbols at hsymbols ⊢
  induction pairs generalizing symbols with
  | nil => cases symbols <;> simp [pairSymbols]
  | cons pair pairs ih =>
      cases symbols with
      | nil => simp [pairSymbols]
      | cons s symbols =>
          rw [List.forall₂_cons, ih _ fun s' hs' => hsymbols s' (List.mem_cons_of_mem _ hs'),
            matchSymbol_iff hsep _ (hsymbols s List.mem_cons_self), pairSymbols, pairSymbols,
            List.map_cons, List.map_cons, List.cons.injEq]

/-- The groups of some pairs are unique. -/
theorem madeOf_unique (hsep : SeparatedPairs hw r) {pairs : List (ℤ × ℤ)}
    {groups groups' : List GrundigGroup} (h : MadeOf hw r pairs groups)
    (h' : MadeOf hw r pairs groups') : groups = groups' := by
  rw [madeOf_iff hsep] at h h'
  exact GrundigGroup.symbols_injective
    ((List.map_injective_iff.mpr (Option.some_injective ℕ)) (h.symm.trans h'))

/-- What `get_data` returns of a Grundig signal. -/
theorem getData_grundig (hgrundig : isGrundig r = true) {bits : ℕ} (hbits : bits % 2 = 0)
    (done : ℕ) (b : RBuf) :
    (getData hw r bits done b).1 =
      if done % 2 = 0 ∧ (syncPendingPulse hw r b).1 = true then
        (grundigTraced hw r bits bits 0 none 0 (syncPendingPulse hw r b).2).2.1
      else noCode := by
  have hrcmm : isRcmm r = false := protocolIs_unique hgrundig (by decide)
  rw [getData, if_neg (ne_true_of_eq_false hrcmm), if_pos hgrundig]
  by_cases hdone : done % 2 = 0
  · rw [if_neg (by omega)]
    obtain ⟨ok, b'⟩ := syncPendingPulse hw r b
    dsimp only
    cases ok with
    | true =>
        rw [if_neg (by simp), if_pos ⟨hdone, rfl⟩, grundigTraced_result]
    | false => rw [if_pos (by simp), if_neg (by simp)]
  · rw [if_pos (.inr hdone), if_neg (fun h => hdone h.1)]

theorem grundigPairs_eq {bits : ℕ} (hbits : bits % 2 = 0) (done : ℕ) (b : RBuf) :
    grundigPairs hw r bits done b =
      if done % 2 = 0 ∧ (syncPendingPulse hw r b).1 = true then
        (grundigTraced hw r bits bits 0 none 0 (syncPendingPulse hw r b).2).1
      else [] := by
  rw [grundigPairs]
  by_cases hdone : done % 2 = 0
  · rw [if_neg (by omega)]
    obtain ⟨ok, b'⟩ := syncPendingPulse hw r b
    dsimp only
    cases ok with
    | true =>
        rw [if_neg (by simp), if_pos ⟨hdone, rfl⟩]
    | false => rw [if_pos (by simp), if_neg (by simp)]
  · rw [if_pos (.inr hdone), if_neg (fun h => hdone h.1)]

/-- No pairs are those of no groups only. -/
theorem madeOf_nil {groups : List GrundigGroup} (h : MadeOf hw r [] groups) : groups = [] := by
  have hnil : groups.flatMap GrundigGroup.symbols = [].flatMap GrundigGroup.symbols :=
    List.forall₂_nil_left_iff.mp h
  exact GrundigGroup.symbols_injective hnil

/-- A segment that the decoder does not begin with is decoded as it should be when
some bits were asked for. -/
theorem decodesGroups_of_refused {bits done : ℕ} {b : RBuf} (hbits : bits % 2 = 0)
    (hcode : (getData hw r bits done b).1 = noCode)
    (hpairs : grundigPairs hw r bits done b = []) :
    DecodesGroups hw r bits done b ↔ bits ≠ 0 := by
  rw [DecodesGroups, hcode, hpairs]
  constructor
  · rintro ⟨hsucceeds, -⟩ rfl
    exact hsucceeds.mpr ⟨[], rfl, nofun, .nil⟩ rfl
  · intro hpos
    have hnone (groups : List GrundigGroup) (hlen : groups.length = bits / 2)
        (hmade : MadeOf hw r [] groups) : False := by
      rw [madeOf_nil hmade, List.length_nil] at hlen
      omega
    refine ⟨⟨fun h => absurd rfl h, ?_⟩, fun groups hlen _ hmade => (hnone groups hlen hmade).elim⟩
    rintro ⟨groups, hlen, -, hmade⟩
    exact (hnone groups hlen hmade).elim

/-- For four lengths that are told apart the segment is decoded as it should be
exactly when groups that the decoder takes are proper ones, unless their digits are
the mark of a failure; and a segment of no bits has to start well. -/
theorem grundig_decoded_iff (hgrundig : isGrundig r = true) (hsep : SeparatedPairs hw r)
    {bits : ℕ} (hbits : bits % 2 = 0) (done : ℕ) (b : RBuf) :
    DecodesGroups hw r bits done b ↔
      (∀ groups : List GrundigGroup, groups.length = bits / 2 →
          MadeOf hw r (grundigPairs hw r bits done b) groups →
          ((∀ g ∈ groups, g.Proper) ↔ GrundigGroup.word 0 groups ≠ noCode)) ∧
        (bits = 0 → done % 2 = 0 ∧ (syncPendingPulse hw r b).1 = true) := by
  have hcode := @getData_grundig hw r hgrundig bits hbits done b
  have hpairs := @grundigPairs_eq hw r bits hbits done b
  by_cases hstart : done % 2 = 0 ∧ (syncPendingPulse hw r b).1 = true
  · rw [if_pos hstart] at hcode hpairs
    rw [and_iff_left (fun _ => hstart), DecodesGroups, hcode, hpairs]
    obtain ⟨groups, hlen, hform, hword⟩ | ⟨hfail, hnone⟩ :=
      @grundigTraced_spec hw r bits bits 0 (bits / 2) none (by omega) (by simp; omega) nofun 0
        (syncPendingPulse hw r b).2
    · -- the groups that were taken are the only ones
      have hmade := (madeOf_iff hsep _ groups).mpr hform
      have honly (groups' : List GrundigGroup)
          (h : MadeOf hw r (grundigTraced hw r bits bits 0 none 0
            (syncPendingPulse hw r b).2).1 groups') : groups' = groups :=
        madeOf_unique hsep h hmade
      rw [hword]
      constructor
      · rintro ⟨hsucceeds, -⟩ groups' - hmade'
        obtain rfl := honly groups' hmade'
        refine ⟨fun hproper => hsucceeds.mpr ⟨_, hlen, hproper, hmade⟩, fun hne => ?_⟩
        obtain ⟨groups', -, hproper, hmade''⟩ := hsucceeds.mp hne
        exact honly groups' hmade'' ▸ hproper
      · intro hproper
        refine ⟨⟨fun hne => ⟨groups, hlen, (hproper groups hlen hmade).mpr hne, hmade⟩, ?_⟩, ?_⟩
        · rintro ⟨groups', -, hproper', hmade'⟩
          obtain rfl := honly groups' hmade'
          exact (hproper _ hlen hmade).mp hproper'
        · rintro groups' - - hmade'
          rw [honly groups' hmade']
    · -- no groups are taken
      have hnot (groups : List GrundigGroup) (hlen : groups.length = bits / 2)
          (h : MadeOf hw r (grundigTraced hw r bits bits 0 none 0
            (syncPendingPulse hw r b).2).1 groups) : False :=
        hnone groups hlen ((madeOf_iff hsep _ groups).mp h)
      rw [hfail]
      refine iff_of_true ⟨⟨fun h => absurd rfl h, ?_⟩, ?_⟩ ?_
      · rintro ⟨groups, hlen, -, hmade⟩
        exact (hnot groups hlen hmade).elim
      · exact fun groups hlen _ hmade => (hnot groups hlen hmade).elim
      · exact fun groups hlen hmade => (hnot groups hlen hmade).elim
  · rw [if_neg hstart] at hcode hpairs
    rw [decodesGroups_of_refused hbits hcode hpairs, hpairs]
    constructor
    · intro hpos
      refine ⟨fun groups hlen hmade => ?_, fun h => absurd h hpos⟩
      rw [madeOf_nil hmade, List.length_nil] at hlen
      omega
    · rintro ⟨-, hzero⟩ h
      exact hstart (hzero h)

end

/-- A remote whose pairs last two, three, four and six times 528 us. -/
def grundigRemote : IrRemote :=
  { flags := grundig, aeps := 100, pzero := 528, szero := 528, pone := 528, sone := 1056,
    ptwo := 528, stwo := 1584, pthree := 528, sthree := 2640 }

/-- Only a tolerance of 100 us is given. -/
theorem expect_grundigRemote {sum nominal : ℤ}
    (h : expect { } grundigRemote sum nominal = true) :
    sum - 100 ≤ nominal ∧ nominal ≤ sum + 100 := by
  have heps : grundigRemote.eps = 0 := rfl
  have haeps : aepsOf { } grundigRemote = 100 := rfl
  rw [expect, heps, haeps, Int.mul_zero, Int.zero_tdiv, Bool.or_eq_true, decide_eq_true_iff,
    decide_eq_true_iff] at h
  have hlow := neg_abs_le (nominal - sum)
  have hhigh := le_abs_self (nominal - sum)
  omega

theorem grundigRemote_separated : SeparatedPairs { } grundigRemote := by
  intro sum s hs s' hs' h h'
  have hnominal : ∀ s < 4, grundigNominal grundigRemote s =
      528 * if s = 3 then 6 else (s : ℤ) + 2 := by decide
  have hclose := expect_grundigRemote h
  have hclose' := expect_grundigRemote h'
  rw [hnominal s hs] at hclose
  rw [hnominal s' hs'] at hclose'
  split at hclose <;> split at hclose' <;> omega

/-- The groups 4T2T and 6T are decoded. -/
theorem grundig_decoded_iff_two_groups :
    DecodesGroups { } grundigRemote 4 0
      { input := [1584, 0x01000210, 528, 0x01000210, 2640, 0x01000210] } := by
  refine (grundig_decoded_iff (by decide) grundigRemote_separated (by decide) 0 _).mpr
    ⟨fun groups _ hmade => ?_, nofun⟩
  have htwo : MadeOf { } grundigRemote
      (grundigPairs { } grundigRemote 4 0
        { input := [1584, 0x01000210, 528, 0x01000210, 2640, 0x01000210] })
      [.fourTwo, .sixT] := .cons rfl (.cons rfl (.cons rfl .nil))
  obtain rfl := madeOf_unique grundigRemote_separated hmade htwo
  decide

/-- 4T6T is decoded as well, as 6T would be. -/
theorem grundig_takes_cut_group :
    isGrundig grundigRemote = true ∧ SeparatedPairs { } grundigRemote ∧
      (getData { } grundigRemote 2 0
        { input := [1584, 0x01000210, 2640, 0x01000210] }).1 = 0 ∧
      ¬DecodesGroups { } grundigRemote 2 0
        { input := [1584, 0x01000210, 2640, 0x01000210] } := by
  refine ⟨by decide, grundigRemote_separated, by decide, fun h => ?_⟩
  have hcode : (getData { } grundigRemote 2 0
      { input := [1584, 0x01000210, 2640, 0x01000210] }).1 = 0 := by decide
  obtain ⟨groups, -, hproper, hmade⟩ := h.1.mp (by rw [hcode]; decide)
  have hcut : MadeOf { } grundigRemote
      (grundigPairs { } grundigRemote 2 0 { input := [1584, 0x01000210, 2640, 0x01000210] })
      [.cut 2] := .cons rfl (.cons rfl .nil)
  obtain rfl := madeOf_unique grundigRemote_separated hmade hcut
  exact hproper (.cut 2) List.mem_cons_self

end Lirc
