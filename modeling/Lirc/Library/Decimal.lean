import Lirc.Library.Numeral

/-!
Numerals that are written and read again: what `%u` and `%X` write is what `strtoul` reads with
base 0.
-/

namespace Numeral

theorem isDigit_decimal (n : ℕ) : ∀ c ∈ decimal n, isDigit 10 c = true := by
  have hdigit : ∀ d < 10, isDigit 10 (Nat.digitChar d) = true := by decide
  induction n using Nat.strongRecOn with
  | ind n ih =>
      intro c hc
      rcases Nat.lt_or_ge n 10 with hlt | hge
      · rw [decimal, Nat.toDigits_of_lt_base hlt, List.mem_singleton] at hc
        exact hc ▸ hdigit n hlt
      · rw [decimal, Nat.toDigits_of_base_le (by decide) hge, List.mem_append,
          List.mem_singleton] at hc
        rcases hc with hc | rfl
        · exact ih _ (by omega) c hc
        · exact hdigit _ (Nat.mod_lt _ (by decide))

theorem valueOf_decimal (n : ℕ) : valueOf 10 (decimal n) = n := by
  induction n using Nat.strongRecOn with
  | ind n ih =>
      rcases Nat.lt_or_ge n 10 with hlt | hge
      · rw [decimal, Nat.toDigits_of_lt_base hlt, valueOf, List.foldl_cons, List.foldl_nil,
          digitValue_digitChar (by omega)]
        exact Nat.zero_add n
      · have hfirst := ih (n / 10) (by omega)
        rw [decimal] at hfirst
        rw [decimal, Nat.toDigits_of_base_le (by decide) hge, valueOf_concat, hfirst,
          digitValue_digitChar (by omega)]
        exact Nat.div_add_mod n 10

/-- There is no zero at the front. -/
theorem decimal_cons {n : ℕ} (h : 0 < n) :
    ∃ d digits, decimal n = Nat.digitChar d :: digits ∧ 0 < d ∧ d < 10 := by
  induction n using Nat.strongRecOn with
  | ind n ih =>
      rcases Nat.lt_or_ge n 10 with hlt | hge
      · exact ⟨n, [], Nat.toDigits_of_lt_base hlt, h, hlt⟩
      · obtain ⟨d, digits, hd, hpos, hlt⟩ := ih (n / 10) (by omega) (by omega)
        refine ⟨d, digits ++ [Nat.digitChar (n % 10)], ?_, hpos, hlt⟩
        rw [decimal] at hd
        rw [decimal, Nat.toDigits_of_base_le (by decide) hge, hd, List.cons_append]

theorem scan_decimal {n : ℕ} (h : 0 < n) : scan (decimal n) = ⟨false, n, []⟩ := by
  obtain ⟨d, digits, hd, hpos, hlt⟩ := decimal_cons h
  have hspace : isSpace (Nat.digitChar d) = false := by
    interval_cases d <;> rfl
  have hsign : splitSign (decimal n) = (false, decimal n) := by
    rw [hd]
    interval_cases d <;> rfl
  have hbase : splitBase (decimal n) = (10, decimal n) := by
    rw [hd]
    interval_cases d <;> rfl
  have hfront : (decimal n).dropWhile isSpace = decimal n := by
    rw [hd, List.dropWhile_cons_of_neg (by simp [hspace])]
  have hall : (decimal n).takeWhile (isDigit 10) = decimal n :=
    List.takeWhile_eq_self_iff.mpr (isDigit_decimal n)
  have hne : decimal n ≠ [] := by
    rw [hd]
    exact List.cons_ne_nil _ _
  simp only [scan, hfront, hsign, hbase, hall, if_neg hne, valueOf_decimal, List.drop_length]

/-- The numeral of a negative number. -/
theorem scan_neg_decimal {n : ℕ} (h : 0 < n) : scan ('-' :: decimal n) = ⟨true, n, []⟩ := by
  obtain ⟨d, digits, hd, hpos, hlt⟩ := decimal_cons h
  have hbase : splitBase (decimal n) = (10, decimal n) := by
    rw [hd]
    interval_cases d <;> rfl
  have hall : (decimal n).takeWhile (isDigit 10) = decimal n :=
    List.takeWhile_eq_self_iff.mpr (isDigit_decimal n)
  have hne : decimal n ≠ [] := by
    rw [hd]
    exact List.cons_ne_nil _ _
  have hfront : ('-' :: decimal n).dropWhile isSpace = '-' :: decimal n :=
    List.dropWhile_cons_of_neg (by decide)
  simp only [scan, hfront, splitSign, hbase, hall, if_neg hne, valueOf_decimal, List.drop_length]

/-! ### Hexadecimal numerals -/

/-- Digits behind `0x` -/
theorem scan_hex {digits : List Char} (hne : digits ≠ [])
    (hdigits : ∀ c ∈ digits, isDigit 16 c = true) :
    scan ('0' :: 'x' :: digits) = ⟨false, valueOf 16 digits, []⟩ := by
  obtain ⟨d, s, rfl⟩ := List.exists_cons_of_ne_nil hne
  have hbase : splitBase ('0' :: 'x' :: d :: s) = (16, d :: s) := by
    rw [splitBase, if_pos ⟨.inl rfl, hdigits d List.mem_cons_self⟩]
  have hall : (d :: s).takeWhile (isDigit 16) = d :: s := List.takeWhile_eq_self_iff.mpr hdigits
  have hfront : ('0' :: 'x' :: d :: s).dropWhile isSpace = '0' :: 'x' :: d :: s :=
    List.dropWhile_cons_of_neg (by decide)
  have hsign : splitSign ('0' :: 'x' :: d :: s) = (false, '0' :: 'x' :: d :: s) := rfl
  simp only [scan, hfront, hsign, hbase, hall, if_neg hne, List.drop_length]

theorem digitValue_toUpper {d : ℕ} (h : d < 16) :
    digitValue (Nat.digitChar d).toUpper = some d := by
  interval_cases d <;> decide

theorem isDigit_toUpper (n : ℕ) :
    ∀ c ∈ (Nat.toDigits 16 n).map Char.toUpper, isDigit 16 c = true := by
  have hdigit : ∀ d < 16, isDigit 16 (Nat.digitChar d).toUpper = true := by decide
  induction n using Nat.strongRecOn with
  | ind n ih =>
      rcases Nat.lt_or_ge n 16 with hlt | hge
      · rw [Nat.toDigits_of_lt_base hlt, List.map_singleton]
        intro c hc
        rw [List.mem_singleton.mp hc]
        exact hdigit n hlt
      · rw [Nat.toDigits_of_base_le (by decide) hge, List.map_append, List.map_singleton]
        intro c hc
        rcases List.mem_append.mp hc with hc | hc
        · exact ih _ (by omega) c hc
        · rw [List.mem_singleton.mp hc]
          exact hdigit _ (Nat.mod_lt _ (by decide))

theorem valueOf_toUpper (n : ℕ) : valueOf 16 ((Nat.toDigits 16 n).map Char.toUpper) = n := by
  induction n using Nat.strongRecOn with
  | ind n ih =>
      rcases Nat.lt_or_ge n 16 with hlt | hge
      · rw [Nat.toDigits_of_lt_base hlt, List.map_singleton, valueOf, List.foldl_cons,
          List.foldl_nil, digitValue_toUpper hlt]
        exact Nat.zero_add n
      · rw [Nat.toDigits_of_base_le (by decide) hge, List.map_append, List.map_singleton,
          valueOf_concat, ih _ (by omega), digitValue_toUpper (Nat.mod_lt _ (by decide))]
        exact Nat.div_add_mod n 16

/-- What `0x%0*X` writes is read back. -/
theorem scan_upper (width n : ℕ) :
    scan ('0' :: 'x' :: List.leftpad width '0' ((Nat.toDigits 16 n).map Char.toUpper)) =
      ⟨false, n, []⟩ := by
  have hne : (Nat.toDigits 16 n).map Char.toUpper ≠ [] := by
    rw [Ne, List.map_eq_nil_iff, ← List.length_eq_zero_iff]
    exact Nat.ne_of_gt (Nat.length_toDigits_pos)
  rw [List.leftpad, scan_hex, valueOf_zeros, valueOf_toUpper]
  · intro h
    exact hne (List.append_eq_nil_iff.mp h).2
  · intro c hc
    rcases List.mem_append.mp hc with hc | hc
    · rw [List.eq_of_mem_replicate hc]
      decide
    · exact isDigit_toUpper n c hc

end Numeral
