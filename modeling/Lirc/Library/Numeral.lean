import Mathlib.Data.List.Induction
import Mathlib.Data.List.TakeWhile
import Mathlib.Tactic.IntervalCases
import Mathlib.Tactic.Ring

/-!
Numerals as the C library reads and writes them: `strtoul` and its relatives
with base 0, where a prefix of the numeral tells the base, and with base 10;
`%u`, `%d` and `%016llx`.
-/

namespace Numeral

/-- `isspace` -/
def isSpace (c : Char) : Bool :=
  c = ' ' || c = '\t' || c = '\n' || c = '\x0b' || c = '\x0c' || c = '\r'

/-- The value of a digit or letter. -/
def digitValue (c : Char) : Option ℕ :=
  if '0' ≤ c ∧ c ≤ '9' then some (c.toNat - '0'.toNat)
  else if 'a' ≤ c ∧ c ≤ 'z' then some (c.toNat - 'a'.toNat + 10)
  else if 'A' ≤ c ∧ c ≤ 'Z' then some (c.toNat - 'A'.toNat + 10)
  else none

def isDigit (base : ℕ) (c : Char) : Bool :=
  match digitValue c with
  | some d => d < base
  | none => false

/-- The value of digits, most significant first. -/
def valueOf (base : ℕ) (digits : List Char) : ℕ :=
  digits.foldl (fun n c => base * n + (digitValue c).getD 0) 0

/-- The base a numeral without sign is written in, and its digits with what
follows them. -/
def splitBase : List Char → ℕ × List Char
  | '0' :: x :: d :: s =>
      if (x = 'x' ∨ x = 'X') ∧ isDigit 16 d then (16, d :: s) else (8, '0' :: x :: d :: s)
  | '0' :: s => (8, '0' :: s)
  | s => (10, s)

def splitSign : List Char → Bool × List Char
  | '-' :: s => (true, s)
  | '+' :: s => (false, s)
  | s => (false, s)

/-- A scanned numeral: its sign, its magnitude and what follows it. Where
there is no numeral, all of the string follows. -/
structure Scan where
  negative : Bool
  magnitude : ℕ
  rest : List Char

def scan (s : List Char) : Scan :=
  let (negative, unsigned) := splitSign (s.dropWhile isSpace)
  let (base, t) := splitBase unsigned
  let digits := t.takeWhile (isDigit base)
  if digits = [] then ⟨negative, 0, s⟩
  else ⟨negative, valueOf base digits, t.drop digits.length⟩

/-- A scanned decimal numeral. -/
def scanDecimal (s : List Char) : Scan :=
  let (negative, unsigned) := splitSign (s.dropWhile isSpace)
  let digits := unsigned.takeWhile (isDigit 10)
  if digits = [] then ⟨negative, 0, s⟩
  else ⟨negative, valueOf 10 digits, unsigned.drop digits.length⟩

/-- The value `strtoul` and `strtoull` return for 64-bit words; `none` where
the numeral is out of range and the largest value is returned. -/
def Scan.toUnsigned (n : Scan) : Option ℕ :=
  if 2 ^ 64 ≤ n.magnitude then none
  else some (if n.negative then (2 ^ 64 - n.magnitude) % 2 ^ 64 else n.magnitude)

/-- The value `strtol` returns. -/
def Scan.toSigned (n : Scan) : ℤ :=
  if n.negative then max (-(n.magnitude : ℤ)) (-2 ^ 63) else min (n.magnitude : ℤ) (2 ^ 63 - 1)

/-! ### Writing -/

/-- `%u` -/
def decimal (n : ℕ) : List Char := Nat.toDigits 10 n

/-- `%d` -/
def decimalInt (n : ℤ) : List Char :=
  if n < 0 then '-' :: decimal n.natAbs else decimal n.natAbs

/-- So many hexadecimal digits of a number, with leading zeros. -/
def hexDigits : ℕ → ℕ → List Char
  | 0, _ => []
  | k + 1, n => hexDigits k (n / 16) ++ [Nat.digitChar (n % 16)]

@[simp] theorem length_hexDigits (k n : ℕ) : (hexDigits k n).length = k := by
  induction k generalizing n with
  | zero => rfl
  | succ k ih => rw [hexDigits, List.length_append, ih, List.length_singleton]

theorem length_decimal_le {n k : ℕ} (h : n < 10 ^ k) (hk : 0 < k) : (decimal n).length ≤ k :=
  (Nat.length_toDigits_le_iff (by decide) hk).mpr h

theorem length_decimalInt_le {n : ℤ} {k : ℕ} (h : n.natAbs < 10 ^ k) (hk : 0 < k) :
    (decimalInt n).length ≤ k + 1 := by
  have hlen := length_decimal_le h hk
  rw [decimalInt]
  split
  · rw [List.length_cons]
    omega
  · omega

/-! ### Reading what was written -/

theorem digitValue_digitChar {d : ℕ} (h : d < 16) : digitValue (Nat.digitChar d) = some d := by
  interval_cases d <;> decide

theorem isDigit_digitChar {d : ℕ} (h : d < 16) : isDigit 16 (Nat.digitChar d) = true := by
  rw [isDigit, digitValue_digitChar h]
  exact decide_eq_true h

theorem isDigit_hexDigits (k n : ℕ) : ∀ c ∈ hexDigits k n, isDigit 16 c = true := by
  induction k generalizing n with
  | zero =>
      intro c hc
      cases hc
  | succ k ih =>
      intro c hc
      rw [hexDigits, List.mem_append, List.mem_singleton] at hc
      rcases hc with hc | rfl
      · exact ih _ c hc
      · exact isDigit_digitChar (Nat.mod_lt _ (by decide))

theorem isDigit_toDigits (n : ℕ) : ∀ c ∈ Nat.toDigits 16 n, isDigit 16 c = true := by
  induction n using Nat.strongRecOn with
  | ind n ih =>
      intro c hc
      rcases Nat.lt_or_ge n 16 with hlt | hge
      · rw [Nat.toDigits_of_lt_base hlt, List.mem_singleton] at hc
        rw [hc]
        exact isDigit_digitChar hlt
      · rw [Nat.toDigits_of_base_le (by decide) hge, List.mem_append, List.mem_singleton] at hc
        rcases hc with hc | rfl
        · exact ih _ (by omega) c hc
        · exact isDigit_digitChar (Nat.mod_lt _ (by decide))

theorem valueOf_concat (base : ℕ) (digits : List Char) (c : Char) :
    valueOf base (digits ++ [c]) = base * valueOf base digits + (digitValue c).getD 0 := by
  rw [valueOf, List.foldl_append]
  rfl

theorem valueOf_toDigits (n : ℕ) : valueOf 16 (Nat.toDigits 16 n) = n := by
  induction n using Nat.strongRecOn with
  | ind n ih =>
      rcases Nat.lt_or_ge n 16 with hlt | hge
      · rw [Nat.toDigits_of_lt_base hlt, valueOf, List.foldl_cons, List.foldl_nil,
          digitValue_digitChar hlt]
        exact Nat.zero_add n
      · rw [Nat.toDigits_of_base_le (by decide) hge, valueOf_concat, ih _ (by omega),
          digitValue_digitChar (Nat.mod_lt _ (by decide))]
        exact Nat.div_add_mod n 16

/-- Leading zeros do not count. -/
theorem valueOf_zeros (base k : ℕ) (digits : List Char) :
    valueOf base (List.replicate k '0' ++ digits) = valueOf base digits := by
  induction k with
  | zero => rfl
  | succ k ih =>
      rw [List.replicate_succ, List.cons_append, valueOf, List.foldl_cons, Nat.mul_zero]
      exact ih

theorem valueOf_lt {base : ℕ} {digits : List Char} (h : ∀ c ∈ digits, isDigit base c = true) :
    valueOf base digits < base ^ digits.length := by
  induction digits using List.reverseRecOn with
  | nil => exact Nat.one_pos
  | append_singleton digits c ih =>
      have hvalue : (digitValue c).getD 0 < base := by
        have hc := h c (List.mem_append_right _ (List.mem_singleton_self c))
        rw [isDigit] at hc
        split at hc
        · next d hd =>
            rw [hd]
            exact of_decide_eq_true hc
        · cases hc
      have hlt := ih fun c hc => h c (List.mem_append_left _ hc)
      rw [valueOf_concat, List.length_append, List.length_singleton, pow_succ]
      calc base * valueOf base digits + (digitValue c).getD 0
          < base * valueOf base digits + base := Nat.add_lt_add_left hvalue _
        _ = (valueOf base digits + 1) * base := by ring
        _ ≤ base ^ digits.length * base := Nat.mul_le_mul_right _ hlt

end Numeral
