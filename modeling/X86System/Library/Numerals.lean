import Mathlib.Data.Nat.Digits.Defs
import Mathlib.Tactic.Common

/-!
# Numerals

The numeral of a number has its digits, the most significant first. Zero has one digit.
-/
namespace X86System.Numerals

variable {α : Type} {digit : ℕ → α} {value : α → ℕ} {base n : ℕ}

/-- The numeral of `n`. -/
def numeral (digit : ℕ → α) (base n : ℕ) : List α :=
  if n = 0 then [digit 0] else (Nat.digits base n).reverse.map digit

/-- A number below the base has one digit. -/
theorem numeral_of_lt (h : n < base) : numeral digit base n = [digit n] := by
  unfold numeral
  split_ifs with hzero
  · rw [hzero]
  · rw [Nat.digits_of_lt base n hzero h]
    rfl

/-- The last digit stands behind the numeral of the quotient. -/
theorem numeral_of_le (hbase : 1 < base) (h : base ≤ n) :
    numeral digit base n = numeral digit base (n / base) ++ [digit (n % base)] := by
  have hn : n ≠ 0 := by omega
  have hdiv : n / base ≠ 0 := (Nat.div_pos h (by omega)).ne'
  rw [numeral, numeral, if_neg hn, if_neg hdiv, Nat.digits_def' hbase (Nat.pos_of_ne_zero hn),
    List.reverse_cons, List.map_append, List.map_singleton]

theorem numeral_ne_nil (digit : ℕ → α) (base n : ℕ) : numeral digit base n ≠ [] := by
  unfold numeral
  split_ifs with hzero
  · exact List.cons_ne_nil _ _
  · simpa using Nat.digits_ne_nil_iff_ne_zero.mpr hzero

/-- Every character of a numeral is a digit below the base. -/
theorem exists_of_mem_numeral (hbase : 1 < base) {c : α} (hc : c ∈ numeral digit base n) :
    ∃ d < base, c = digit d := by
  unfold numeral at hc
  split_ifs at hc
  · exact ⟨0, by omega, List.mem_singleton.mp hc⟩
  · obtain ⟨d, hd, rfl⟩ := List.mem_map.mp hc
    exact ⟨d, Nat.digits_lt_base hbase (List.mem_reverse.mp hd), rfl⟩

/-- The numeral of a number with `k + 1` digits, each of them by itself. -/
theorem numeral_of_width (hbase : 1 < base) : ∀ {k n : ℕ}, base ^ k ≤ n → n < base ^ (k + 1) →
    numeral digit base n =
      (List.range (k + 1)).map fun i => digit (n / base ^ (k - i) % base) := by
  intro k
  induction k with
  | zero =>
    intro n _ hlt
    rw [zero_add, pow_one] at hlt
    rw [numeral_of_lt hlt]
    simp [Nat.mod_eq_of_lt hlt]
  | succ k ih =>
    intro n hle hlt
    have hbig : base ≤ n := (Nat.le_self_pow (Nat.succ_ne_zero k) base).trans hle
    have hquot : base ^ k ≤ n / base := by
      rw [Nat.le_div_iff_mul_le (by omega), ← pow_succ]
      exact hle
    have hquot' : n / base < base ^ (k + 1) := by
      rw [Nat.div_lt_iff_lt_mul (by omega), ← pow_succ]
      exact hlt
    rw [numeral_of_le hbase hbig, ih hquot hquot', List.range_succ (n := k + 1), List.map_append,
      List.map_singleton, Nat.sub_self, pow_zero, Nat.div_one]
    congr 1
    refine List.map_congr_left fun i hi => ?_
    have hi := List.mem_range.mp hi
    rw [Nat.div_div_eq_div_mul, ← pow_succ', show k - i + 1 = k + 1 - i by omega]

/-- The number that is read from digits. -/
def readNumeral (value : α → ℕ) (base : ℕ) (l : List α) : ℕ :=
  l.foldl (fun n c => base * n + value c) 0

theorem readNumeral_concat (value : α → ℕ) (base : ℕ) (l : List α) (c : α) :
    readNumeral value base (l ++ [c]) = base * readNumeral value base l + value c := by
  unfold readNumeral
  rw [List.foldl_append, List.foldl_cons, List.foldl_nil]

/-- A numeral is read as its number. -/
theorem readNumeral_numeral (hbase : 1 < base) (hvalue : ∀ d < base, value (digit d) = d) (n : ℕ) :
    readNumeral value base (numeral digit base n) = n := by
  induction n using Nat.strong_induction_on with
  | _ n ih =>
    by_cases hlt : n < base
    · rw [numeral_of_lt hlt]
      change base * 0 + value (digit n) = n
      rw [hvalue n hlt, Nat.mul_zero, Nat.zero_add]
    · have hle := Nat.le_of_not_lt hlt
      rw [numeral_of_le hbase hle, readNumeral_concat,
        ih (n / base) (Nat.div_lt_self (by omega) hbase), hvalue _ (Nat.mod_lt _ (by omega)),
        Nat.div_add_mod]

/-- The first digit of a number that is not zero is not zero. -/
theorem head?_numeral (hbase : 1 < base) (hn : 0 < n) :
    ∃ d, 0 < d ∧ d < base ∧ (numeral digit base n).head? = some (digit d) := by
  induction n using Nat.strong_induction_on with
  | _ n ih =>
    by_cases hlt : n < base
    · rw [numeral_of_lt hlt]
      exact ⟨n, hn, hlt, rfl⟩
    · have hle := Nat.le_of_not_lt hlt
      obtain ⟨d, hd, hlt', hhead⟩ := ih (n / base) (Nat.div_lt_self hn hbase)
        (Nat.div_pos hle (by omega))
      rw [numeral_of_le hbase hle, List.head?_append, hhead]
      exact ⟨d, hd, hlt', rfl⟩

end X86System.Numerals
