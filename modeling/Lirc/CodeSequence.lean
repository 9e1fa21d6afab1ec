import Lirc.Library.Run
import Lirc.Library.SequenceMatch
import Lirc.Recognition

/-!
`get_code` as a matcher of sequences: the codes that were received since a
sequence was completed last, and the pointer `current` of its button.
-/

namespace Lirc

open Transition SequenceMatch

/-! ### Matching codes -/

/-- The word of a code of the remote. -/
def codeWord (r : IrRemote) (code : IrCode) : IrCode := genIrCode r r.preData code r.postData

/-- The word that was received. -/
def receivedWord (r : IrRemote) (x : Received) : IrCode := genIrCode r x.pre x.code x.post

/-- The received code is a code of the remote, up to the bits that do not count. -/
def CodeMatches (r : IrRemote) (code : IrCode) (x : Received) : Prop :=
  matchIrCode r (codeWord r code) (receivedWord r x) = true

theorem xor_and_zero {d e w : IrCode} (hd : d &&& w = 0) (he : e &&& w = 0) :
    (d ^^^ e) &&& w = 0 := by
  apply BitVec.eq_of_getLsbD_eq
  intro p hp
  have hd := congrArg (fun w : IrCode => w.getLsbD p) hd
  have he := congrArg (fun w : IrCode => w.getLsbD p) he
  simp only [BitVec.getLsbD_and, BitVec.getLsbD_xor] at hd he ⊢
  rw [show (0 : IrCode).getLsbD p = false from BitVec.getLsbD_zero] at hd he ⊢
  grind

theorem xor_common (a b y : IrCode) : (a ^^^ y) ^^^ (b ^^^ y) = a ^^^ b := by
  rw [show (a ^^^ y) ^^^ (b ^^^ y) = (a ^^^ b) ^^^ (y ^^^ y) by ac_rfl, BitVec.xor_self]
  exact BitVec.xor_zero

/-- Two words that match a third one match each other. -/
theorem matchIrCode_common {r : IrRemote} {a b y : IrCode} (ha : matchIrCode r a y = true)
    (hb : matchIrCode r b y = true) : matchIrCode r a b = true := by
  rw [matchIrCode_iff] at ha hb ⊢
  obtain ha | ha := ha
  · obtain hb | hb := hb
    · left
      rw [← xor_common a b y]
      exact xor_and_zero ha hb
    · right
      rw [← xor_common a b y, BitVec.xor_assoc (a ^^^ y)]
      exact xor_and_zero ha hb
  · obtain hb | hb := hb
    · right
      rw [← xor_common a b y, BitVec.xor_comm (a ^^^ y), BitVec.xor_assoc]
      exact xor_and_zero hb ha
    · left
      rw [← xor_common a b y, ← xor_common (a ^^^ y) (b ^^^ y) r.toggleBitMask]
      exact xor_and_zero ha hb

/-! ### One button -/

namespace IrNcode

variable {code : IrNcode} {j k s : ℕ}

/-- The codes of a button in order. -/
def elements (code : IrNcode) : List IrCode := code.code :: code.next

/-- The pointer to the code at `k`. -/
def node (code : IrNcode) (k : ℕ) : List IrCode := if k = 0 then [] else code.elements.drop k

@[simp] theorem node_zero : code.node 0 = [] := rfl

@[simp] theorem node_succ : code.node (k + 1) = code.next.drop k := rfl

/-- `get_ir_code` is the code at the pointer. -/
theorem getIrCode_node (hnext : code.next ≠ []) (hk : k < code.elements.length) :
    code.elements[k]? = some (code.getIrCode (code.node k)) := by
  rw [getIrCode, if_neg hnext]
  cases k with
  | zero => rfl
  | succ k =>
      have hk' : k < code.next.length := Nat.lt_of_succ_lt_succ hk
      rw [node_succ, List.drop_eq_getElem_cons hk', elements, List.getElem?_cons_succ,
        List.getElem?_eq_getElem hk']
      rfl

/-- `get_next_ir_code_node` is the pointer to the code behind it. -/
theorem getNextIrCodeNode_node (hk : k < code.elements.length) :
    code.getNextIrCodeNode (code.node k) = code.node (k + 1) := by
  rw [getNextIrCodeNode]
  cases k with
  | zero => rfl
  | succ k =>
      have hk' : k < code.next.length := Nat.lt_of_succ_lt_succ hk
      rw [node_succ, if_neg, node_succ, List.tail_drop]
      rw [List.drop_eq_nil_iff]
      omega

theorem length_node (hk : 0 < k) : (code.node k).length = code.elements.length - k := by
  rw [node, if_neg (by omega), List.length_drop]

theorem node_cons (hk : 0 < k) {a : IrCode} (ha : code.elements[k]? = some a) :
    code.node k = a :: code.node (k + 1) := by
  obtain ⟨hlt, hget⟩ := List.getElem?_eq_some_iff.mp ha
  rw [node, if_neg (by omega), node, if_neg (by omega), List.drop_eq_getElem_cons hlt, hget]

end IrNcode

section

variable {r : IrRemote} {all : IrCode} {code : IrNcode} {j s k : ℕ}

/-- The inner loop has come to the current code. -/
theorem agreesUpTo_current (hcurrent : code.current = code.node k) (hk : k < code.elements.length)
    (hpos : 0 < k) (prev : List IrCode) : agreesUpTo code prev (code.node k) = some prev := by
  have hget := List.getElem?_eq_getElem hk
  rw [hcurrent.symm, hcurrent, IrNcode.node_cons hpos hget, agreesUpTo, hcurrent,
    IrNcode.node_cons hpos hget, if_pos rfl]

/-- A turn of the inner loop. -/
theorem agreesUpTo_turn (hnext : code.next ≠ []) (hcurrent : code.current = code.node k)
    (hk : k < code.elements.length) (hjs : j < s) (hs : s < k) :
    agreesUpTo code (code.node j) (code.node s) =
      if code.elements[j]? = code.elements[s]? then
        agreesUpTo code (code.node (j + 1)) (code.node (s + 1))
      else none := by
  have hget := List.getElem?_eq_getElem (l := code.elements) (i := s) (by omega)
  have hprev := IrNcode.getIrCode_node hnext (k := j) (by omega)
  have hlen : (code.node s).length = code.elements.length - s :=
    IrNcode.length_node (by omega)
  have hlen' : (code.node k).length = code.elements.length - k :=
    IrNcode.length_node (by omega)
  rw [IrNcode.node_cons (by omega) hget] at hlen ⊢
  rw [agreesUpTo, hlen, hcurrent, hlen', if_neg (by omega),
    IrNcode.getNextIrCodeNode_node (by omega), hprev, hget]
  by_cases hsame : code.getIrCode (code.node j) = code.elements[s]
  · rw [if_neg (not_not_intro hsame), if_pos (congrArg some hsame)]
  · rw [if_pos hsame, if_neg fun h => hsame (Option.some.inj h)]

/-- The inner loop compares the codes from `j` on with those from `s` up to the
current one. -/
theorem agreesUpTo_spec (hnext : code.next ≠ []) (hcurrent : code.current = code.node k)
    (hk : k < code.elements.length) (hjs : j < s) (hs : s ≤ k) :
    agreesUpTo code (code.node j) (code.node s) =
      if (code.elements.drop j).take (k - s) = (code.elements.drop s).take (k - s) then
        some (code.node (j + (k - s)))
      else none := by
  obtain ⟨n, hn⟩ : ∃ n, n = k - s := ⟨_, rfl⟩
  induction n generalizing j s with
  | zero =>
      obtain rfl : s = k := by omega
      rw [agreesUpTo_current hcurrent hk (by omega), Nat.sub_self, List.take_zero,
        List.take_zero, if_pos rfl, Nat.add_zero]
  | succ n ih =>
      have htake (i : ℕ) (hi : i < code.elements.length) :
          (code.elements.drop i).take (k - s) =
            code.elements[i] :: (code.elements.drop (i + 1)).take (k - (s + 1)) := by
        rw [List.drop_eq_getElem_cons hi, show k - s = k - (s + 1) + 1 by omega,
          List.take_succ_cons]
      have hj' := List.getElem?_eq_getElem (l := code.elements) (i := j) (by omega)
      have hs' := List.getElem?_eq_getElem (l := code.elements) (i := s) (by omega)
      rw [agreesUpTo_turn hnext hcurrent hk hjs (by omega), ih (by omega) (by omega) (by omega),
        show j + 1 + (k - (s + 1)) = j + (k - s) by omega]
      simp only [htake j (by omega), htake s (by omega), hj', hs', List.cons.injEq,
        Option.some.injEq]
      by_cases hsame : code.elements[j] = code.elements[s]
      · simp only [hsame, true_and, if_true]
      · simp only [hsame, false_and, if_false]

/-- A beginning of the sequence that the outer loop takes: it agrees with the
codes up to the current one, and the received code goes on with it. -/
def BeginningFits (r : IrRemote) (all : IrCode) (code : IrNcode) (k i : ℕ) : Prop :=
  code.elements.take i = (code.elements.drop (k - i)).take i ∧
    ∃ a, code.elements[i]? = some a ∧ matchIrCode r (codeWord r a) all = true

theorem length_current_tail (hcurrent : code.current = code.node k) (hpos : 0 < k) :
    code.current.tail.length = code.elements.length - (k + 1) := by
  rw [List.length_tail, hcurrent, IrNcode.length_node hpos]
  omega

/-- A turn of the outer loop tries the beginning of `i` codes. -/
theorem findBeginning_turn (hnext : code.next ≠ []) (hcurrent : code.current = code.node k)
    (hk : k < code.elements.length) {i : ℕ} (hi : i < k) :
    (BeginningFits r all code k i →
        findBeginning r all code (code.node (k - i)) = some (code.node (i + 1))) ∧
      (¬BeginningFits r all code k i → findBeginning r all code (code.node (k - i)) =
        findBeginning r all code (code.node (k - i + 1))) := by
  have hget := List.getElem?_eq_getElem (l := code.elements) (i := k - i) (by omega)
  have hprev := IrNcode.getIrCode_node hnext (k := i) (by omega)
  have hagrees := agreesUpTo_spec hnext hcurrent hk (j := 0) (s := k - i) (by omega) (by omega)
  have hlen : (code.node (k - i)).length = code.elements.length - (k - i) :=
    IrNcode.length_node (by omega)
  have htail := length_current_tail hcurrent (by omega)
  rw [Nat.sub_sub_self hi.le, Nat.zero_add, List.drop_zero, IrNcode.node_zero] at hagrees
  rw [IrNcode.node_cons (by omega) hget] at hagrees hlen ⊢
  rw [findBeginning, hlen, htail, if_neg (by omega), hagrees]
  constructor
  · rintro ⟨hsame, a, ha, hmatch⟩
    obtain rfl := Option.some.inj (hprev.symm.trans ha)
    have hmatch' : matchIrCode r
        (genIrCode r r.preData (code.getIrCode (code.node i)) r.postData) all = true := hmatch
    rw [if_pos hsame]
    dsimp only
    rw [if_pos hmatch', IrNcode.getNextIrCodeNode_node (by omega)]
  · intro hfits
    by_cases hsame : code.elements.take i = (code.elements.drop (k - i)).take i
    · have hmatch : ¬matchIrCode r
          (genIrCode r r.preData (code.getIrCode (code.node i)) r.postData) all = true :=
        fun h => hfits ⟨hsame, _, hprev, h⟩
      rw [if_pos hsame]
      dsimp only
      rw [if_neg hmatch]
    · rw [if_neg hsame]

/-- The loop ends behind the current code. -/
theorem findBeginning_end (hcurrent : code.current = code.node k) (hpos : 0 < k) :
    findBeginning r all code (code.node (k + 1)) = none := by
  have htail := length_current_tail hcurrent hpos
  have hlen : (code.node (k + 1)).length = code.elements.length - (k + 1) :=
    IrNcode.length_node (by omega)
  cases hrest : code.node (k + 1) with
  | nil => rfl
  | cons n search =>
      rw [hrest] at hlen
      rw [findBeginning, hlen, htail, if_pos rfl]

/-- The outer loop finds the longest beginning of fewer than `n` codes. -/
theorem findBeginning_spec (hnext : code.next ≠ []) (hcurrent : code.current = code.node k)
    (hk : k < code.elements.length) (hpos : 0 < k) {n : ℕ} (hn : n ≤ k) :
    (∃ i, i < n ∧ BeginningFits r all code k i ∧ (∀ i', i < i' → i' < n → ¬BeginningFits r all code k i') ∧
        findBeginning r all code (code.node (k + 1 - n)) = some (code.node (i + 1))) ∨
      ((∀ i', i' < n → ¬BeginningFits r all code k i') ∧
        findBeginning r all code (code.node (k + 1 - n)) = none) := by
  induction n with
  | zero => exact .inr ⟨fun i' h => by omega, findBeginning_end hcurrent hpos⟩
  | succ n ih =>
      obtain ⟨hfits, hmiss⟩ :=
        @findBeginning_turn r all code k hnext hcurrent hk n (by omega)
      rw [show k + 1 - (n + 1) = k - n by omega]
      by_cases hfit : BeginningFits r all code k n
      · exact .inl ⟨n, by omega, hfit, fun i' h h' => by omega, hfits hfit⟩
      · have hother : ∀ i', i' < n + 1 → i' ≠ n → i' < n := fun i' h h' => by omega
        have hnot (i' : ℕ) (h : ∀ j, j < n → ¬BeginningFits r all code k j) (h' : i' < n + 1) :
            ¬BeginningFits r all code k i' := by
          by_cases hi : i' = n
          · exact hi ▸ hfit
          · exact h i' (hother i' h' hi)
        rw [hmiss hfit, show k - n + 1 = k + 1 - n by omega]
        obtain ⟨i, hi, hfit', hlonger, hfound⟩ | ⟨hnone, hfound⟩ := ih (by omega)
        · refine .inl ⟨i, by omega, hfit', fun i' h h' => ?_, hfound⟩
          by_cases hi' : i' = n
          · exact hi' ▸ hfit
          · exact hlonger i' h (hother i' h' hi')
        · exact .inr ⟨fun i' h => hnot i' hnone h, hfound⟩

/-- No two different codes of the sequence match each other. -/
def DistinctCodes (r : IrRemote) (code : IrNcode) : Prop :=
  ∀ a ∈ code.elements, ∀ b ∈ code.elements,
    matchIrCode r (codeWord r a) (codeWord r b) = true → a = b

theorem eq_iff_codeMatches (hdistinct : DistinctCodes r code) :
    ∀ a ∈ code.elements, ∀ b ∈ code.elements, ∀ x, CodeMatches r b x →
      (a = b ↔ CodeMatches r a x) := by
  intro a ha b hb x hbx
  constructor
  · rintro rfl
    exact hbx
  · intro hax
    exact hdistinct a ha b hb (matchIrCode_common hax hbx)

variable (r code) in
/-- What a received code does to the pointer at `k`. -/
theorem matchNcode_at (hnext : code.next ≠ []) (hcurrent : code.current = code.node k)
    (hdistinct : DistinctCodes r code) {xs : List Received}
    (hplace : AtPlace (CodeMatches r) code.elements xs k) {a : IrCode}
    (ha : code.elements[k]? = some a) (x : Received) :
    (CodeMatches r a x → matchNcode r (receivedWord r x) code = (code.node (k + 1), true, true)) ∧
      (¬CodeMatches r a x → ∃ k' found,
        matchNcode r (receivedWord r x) code = (code.node k', found, false) ∧
          AtPlace (CodeMatches r) code.elements (xs ++ [x]) k') := by
  have hk := hplace.lt
  have hexpected := IrNcode.getIrCode_node hnext hk
  obtain rfl := Option.some.inj (ha.symm.trans hexpected)
  rw [matchNcode, hcurrent]
  constructor
  · intro hmatch
    have hmatch' : matchIrCode r (genIrCode r r.preData (code.getIrCode (code.node k)) r.postData)
        (receivedWord r x) = true := hmatch
    rw [if_pos hmatch', if_neg hnext, IrNcode.getNextIrCodeNode_node hk]
  · intro hmatch
    have hmatch' : ¬matchIrCode r
        (genIrCode r r.preData (code.getIrCode (code.node k)) r.postData)
        (receivedWord r x) = true := hmatch
    -- the code at the place is not the one that was received
    have hmiss : ∀ q, code.elements[k]? = some q → ¬CodeMatches r q x := by
      intro q hq
      obtain rfl := Option.some.inj (ha.symm.trans hq)
      exact hmatch
    rw [if_neg hmatch']
    by_cases hpos : k = 0
    · subst hpos
      rw [if_pos (.inr rfl)]
      refine ⟨0, false, rfl, hplace.startOver ?_⟩
      intro i q hi hq _
      obtain rfl : i = 0 := by omega
      exact hmiss q hq
    · have hnonempty : code.node k ≠ [] := by
        rw [← List.length_pos_iff, IrNcode.length_node (by omega)]
        omega
      have hagree := eq_iff_codeMatches hdistinct
      have hfits (i : ℕ) (hi : i < k) : BeginningFits r (receivedWord r x) code k i ↔
          Ends (CodeMatches r) code.elements i xs ∧
            ∃ q, code.elements[i]? = some q ∧ CodeMatches r q x := by
        rw [ends_iff_agree hagree hplace.ends hk.le hi.le, List.forall₂_eq_eq_eq]
        rfl
      have hfound := @findBeginning_spec r (receivedWord r x) code k hnext hcurrent hk (by omega) k
        le_rfl
      rw [show k + 1 - k = 0 + 1 by omega, IrNcode.node_succ, List.drop_zero] at hfound
      rw [if_neg (by simp [hnext, hnonempty])]
      obtain ⟨i, hi, hfit, hlonger, hnode⟩ | ⟨hnone, hnode⟩ := hfound
      · obtain ⟨hends, q, hq, hqx⟩ := (hfits i hi).mp hfit
        refine ⟨i + 1, true, by rw [hnode], hplace.fallBack hq hi hends hqx ?_⟩
        intro i' q' hlt hle hq' hends' hq'x
        obtain rfl | hi' := Nat.eq_or_lt_of_le hle
        · exact hmiss q' hq' hq'x
        · exact hlonger i' hlt hi' ((hfits i' hi').mpr ⟨hends', q', hq', hq'x⟩)
      · refine ⟨0, false, by rw [hnode]; rfl, hplace.startOver ?_⟩
        intro i' q' hle hq' hends' hq'x
        obtain rfl | hi' := Nat.eq_or_lt_of_le hle
        · exact hmiss q' hq' hq'x
        · exact hnone i' hi' ((hfits i' hi').mpr ⟨hends', q', hq', hq'x⟩)

end

/-! ### A series of calls -/

/-- Every code moves its own pointer. -/
theorem matchCodes_pointers (r : IrRemote) (all : IrCode) (i : ℕ) (codes : List IrNcode)
    (found : Option ℕ) (haveCode : Bool) :
    (matchCodes r all i codes found haveCode).1 =
      codes.map fun code => { code with current := (matchNcode r all code).1 } := by
  induction codes generalizing i found haveCode with
  | nil => rfl
  | cons code codes ih =>
      rw [matchCodes, List.map_cons]
      exact congrArg _ (ih _ _ _)

/-- Without a toggle mask `get_code` does nothing but move the pointers. -/
theorem getCode_pointers {r : IrRemote} (htoggle : hasToggleMask r = false) {x : Received}
    (hframe : frameMatches r x = true) :
    (getCode r x).2 =
      { r with codes := r.codes.map fun code =>
          { code with current := (matchNcode r (receivedWord r x) code).1 } } := by
  have huntoggle : untoggle r x = x := by
    rw [untoggle, htoggle]
    rfl
  rw [getCode, huntoggle, hframe]
  simp only [Bool.not_true, Bool.false_eq_true, if_false]
  rw [matchCodes_pointers]
  cases (matchCodes r (genIrCode r x.pre x.code x.post) 0 r.codes none false).2 with
  | none => rfl
  | some c =>
      have hmask (codes : List IrNcode) : hasToggleMask { r with codes } = false := htoggle
      dsimp only
      rw [foundCode, hmask]
      rfl

/-- The call completes the sequence of the button `c`: its last code matches where
it is expected, and `current` returns to `NULL`. -/
def completesCode (c : ℕ) (r : IrRemote) (x : Received) : Bool :=
  (r.codes[c]?).any fun code => matchNcode r (receivedWord r x) code == ([], true, true)

/-- A remote after a call of `get_code`, and what was received since the sequence
of the button `c` was completed last. -/
def codeStep (c : ℕ) (s : IrRemote × List Received) (x : Received) : IrRemote × List Received :=
  ((getCode s.1 x).2, if completesCode c s.1 x then [] else s.2 ++ [x])

/-- The pointer of the button stands at the place that the codes lead to. -/
def Stands (r : IrRemote) (c : ℕ) (code : IrNcode) (s : IrRemote × List Received) : Prop :=
  ∃ codes k, s.1 = { r with codes } ∧ codes[c]? = some { code with current := code.node k } ∧
    AtPlace (CodeMatches r) code.elements s.2 k

section

variable {r : IrRemote} {c : ℕ} {code : IrNcode}

/-- Completing is matching the last code at its place. -/
theorem completesCode_iff (hnext : code.next ≠ []) (hdistinct : DistinctCodes r code)
    {s : IrRemote × List Received} {codes : List IrNcode} {k : ℕ} (hs : s.1 = { r with codes })
    (hcode : codes[c]? = some { code with current := code.node k })
    (hplace : AtPlace (CodeMatches r) code.elements s.2 k) {a : IrCode}
    (ha : code.elements[k]? = some a) (x : Received) :
    completesCode c s.1 x = true ↔ k + 1 = code.elements.length ∧ CodeMatches r a x := by
  have hk := hplace.lt
  obtain ⟨hmatch, hmiss⟩ := matchNcode_at { r with codes }
    { code with current := code.node k } hnext rfl hdistinct hplace ha x
  rw [hs, completesCode]
  simp only [hcode, Option.any_some, beq_iff_eq]
  by_cases hax : CodeMatches r a x
  · have hlast : code.node (k + 1) = [] ↔ k + 1 = code.elements.length := by
      rw [IrNcode.node, if_neg (by omega), List.drop_eq_nil_iff]
      omega
    rw [hmatch hax]
    simpa [hax] using hlast
  · obtain ⟨k', found, hnode, -⟩ := hmiss hax
    rw [hnode]
    simp [hax]

theorem codeStep_stands (hnext : code.next ≠ []) (htoggle : hasToggleMask r = false)
    (hdistinct : DistinctCodes r code) {s : IrRemote × List Received} {x : Received}
    (h : Stands r c code s) (hframe : frameMatches r x = true) :
    Stands r c code (codeStep c s x) := by
  obtain ⟨codes, k, hs, hcode, hplace⟩ := h
  have hk := hplace.lt
  have ha := List.getElem?_eq_getElem hk
  have hcompletes := completesCode_iff hnext hdistinct hs hcode hplace ha x
  obtain ⟨hmatch, hmiss⟩ := matchNcode_at { r with codes }
    { code with current := code.node k } hnext rfl hdistinct hplace ha x
  have hpointers := getCode_pointers (r := { r with codes }) htoggle hframe
  rw [codeStep, hs, hpointers]
  rw [hs] at hcompletes
  have hmoved (k' : ℕ) (hnode : (matchNcode { r with codes } (receivedWord { r with codes } x)
      { code with current := code.node k }).1 = code.node k') :
      (codes.map fun code' => { code' with
        current := (matchNcode { r with codes } (receivedWord { r with codes } x) code').1 })[c]? =
        some { code with current := code.node k' } := by
    rw [List.getElem?_map, hcode, Option.map_some, hnode]
  by_cases hax : CodeMatches r code.elements[k] x
  · by_cases hlast : k + 1 = code.elements.length
    · rw [if_pos (hcompletes.mpr ⟨hlast, hax⟩)]
      have hstart : code.node (k + 1) = code.node 0 := by
        rw [IrNcode.node, if_neg (by omega), hlast, List.drop_length]
        rfl
      exact ⟨_, 0, rfl, hmoved _ (by rw [hmatch hax]; exact hstart),
        atPlace_nil (by simp [IrNcode.elements])⟩
    · rw [if_neg fun h => hlast (hcompletes.mp h).1]
      exact ⟨_, k + 1, rfl, hmoved _ (by rw [hmatch hax]; rfl), hplace.advance ha hax (by omega)⟩
  · obtain ⟨k', found, hnode, hplace'⟩ := hmiss hax
    rw [if_neg fun h => hax (hcompletes.mp h).2]
    exact ⟨_, k', rfl, hmoved _ (by rw [hnode]; rfl), hplace'⟩

/-- For a remote without a toggle mask and a button whose different codes do not
match each other: after any received codes the pointer of the button stands at the
longest beginning of its sequence that the codes since the last completion end
with, and a code completes the sequence exactly when with it they end with all of
it. -/
theorem getCode_matches_sequence (r : IrRemote) (c : ℕ) (code : IrNcode)
    (hcode : r.codes[c]? = some code) (hnext : code.next ≠ []) (hcurrent : code.current = [])
    (htoggle : hasToggleMask r = false) (hdistinct : DistinctCodes r code)
    (received : List Received) (hframes : ∀ x ∈ received, frameMatches r x = true)
    (x : Received) :
    let s := run (codeStep c) (r, []) received
    ∃ k code', AtPlace (CodeMatches r) code.elements s.2 k ∧ s.1.codes[c]? = some code' ∧
      code'.current = (if k = 0 then [] else code.elements.drop k) ∧
      (completesCode c s.1 x = true ↔
        Ends (CodeMatches r) code.elements code.elements.length (s.2 ++ [x])) := by
  intro s
  have hstands : Stands r c code s := by
    refine Along.invariant
      (fun s x h hframe => codeStep_stands hnext htoggle hdistinct h hframe)
      (along_of_forall hframes) ⟨r.codes, 0, rfl, ?_, atPlace_nil (by simp [IrNcode.elements])⟩
    rw [hcode, IrNcode.node_zero, ← hcurrent]
  obtain ⟨codes, k, hs, hcode', hplace⟩ := hstands
  have ha := List.getElem?_eq_getElem hplace.lt
  refine ⟨k, _, hplace, by rw [hs]; exact hcode', rfl, ?_⟩
  rw [completesCode_iff hnext hdistinct hs hcode' hplace ha x, hplace.completes_iff ha]

end

/-- A remote with a button of the codes 1, 1, 2. -/
def oneOneTwo : IrRemote :=
  { name := "rc".toList, bits := 4,
    codes := [{ name := "seq".toList, code := 1, next := [1, 2] }] }

/-- After 1, 1, 1 the code 2 completes it. -/
theorem getCode_matches_sequence_overlap :
    completesCode 0 (run (codeStep 0) (oneOneTwo, []) [⟨0, 1, 0⟩, ⟨0, 1, 0⟩, ⟨0, 1, 0⟩]).1
      ⟨0, 2, 0⟩ = true := by
  have hdistinct : DistinctCodes oneOneTwo { name := "seq".toList, code := 1, next := [1, 2] } := by
    have hcodes : ∀ a ∈ ([1, 1, 2] : List IrCode), a = 1 ∨ a = 2 := by simp
    intro a ha b hb hmatch
    obtain rfl | rfl := hcodes a ha
    · obtain rfl | rfl := hcodes b hb
      · rfl
      · exact absurd hmatch (by decide)
    · obtain rfl | rfl := hcodes b hb
      · exact absurd hmatch (by decide)
      · rfl
  obtain ⟨k, code', -, -, -, hcomplete⟩ := getCode_matches_sequence oneOneTwo 0
    { name := "seq".toList, code := 1, next := [1, 2] } rfl (List.cons_ne_nil _ _) rfl rfl
    hdistinct [⟨0, 1, 0⟩, ⟨0, 1, 0⟩, ⟨0, 1, 0⟩] (fun _ _ => rfl) ⟨0, 2, 0⟩
  exact hcomplete.mpr ⟨[⟨0, 1, 0⟩], [⟨0, 1, 0⟩, ⟨0, 1, 0⟩, ⟨0, 2, 0⟩], by decide,
    .cons (by rfl) (.cons (by rfl) (.cons (by rfl) .nil))⟩

end Lirc
