import Mathlib.Algebra.Group.Nat.Defs
import Mathlib.Data.List.Basic
import Mathlib.Data.Nat.Notation
import Mathlib.Tactic.Common

/-!
# Decimal numerals

The decimal numeral of a number as bytes, without leading zeros, and how it grows from the left to
the right: every numeral is a digit, or the numeral of a positive number with a digit after it. This
is what a scanner needs that multiplies by ten and adds.

## Main definitions

* `IsDigit`, `digitValue`: the bytes from `0` to `9`.
* `numeral`: the numeral of a number.

## Main results

* `numeral_digit`, `numeral_append`: the two ways to make a numeral.
* `numeral_induction`: there are no others.
* `length_numeral_le_iff`: the length of a numeral.
-/

namespace MojitoSys.Util

/-- The byte is a decimal digit. -/
def IsDigit (b : UInt8) : Prop := 48 ≤ b ∧ b ≤ 57

instance : DecidablePred IsDigit := fun b => inferInstanceAs (Decidable (48 ≤ b ∧ b ≤ 57))

/-- The value of a digit. -/
def digitValue (b : UInt8) : ℕ := b.toNat - 48

/-- The decimal numeral of a number. -/
def numeral (n : ℕ) : List UInt8 := (Nat.toDigits 10 n).map fun c => UInt8.ofNat c.toNat

variable {b : UInt8} {n : ℕ}

theorem isDigit_iff : IsDigit b ↔ 48 ≤ b.toNat ∧ b.toNat ≤ 57 := by
  rw [IsDigit, UInt8.le_iff_toNat_le, UInt8.le_iff_toNat_le]
  rfl

theorem digitValue_lt (h : IsDigit b) : digitValue b < 10 := by
  have hb := isDigit_iff.mp h
  rw [digitValue]
  omega

theorem numeral_of_lt (h : n < 10) : numeral n = [UInt8.ofNat (48 + n)] := by
  rw [numeral, Nat.toDigits_of_lt_base h, List.map_singleton, Nat.toNat_digitChar_of_lt_ten h]

theorem isDigit_ofNat (h : n < 10) : IsDigit (UInt8.ofNat (48 + n)) := by
  rw [isDigit_iff, UInt8.toNat_ofNat_of_lt' (by simp [UInt8.size]; omega)]
  omega

theorem digitValue_ofNat (h : n < 10) : digitValue (UInt8.ofNat (48 + n)) = n := by
  rw [digitValue, UInt8.toNat_ofNat_of_lt' (by simp [UInt8.size]; omega)]
  omega

/-- A digit is the numeral of its value. -/
theorem numeral_digit (h : IsDigit b) : numeral (digitValue b) = [b] := by
  have hb := isDigit_iff.mp h
  rw [numeral_of_lt (digitValue_lt h), digitValue, show 48 + (b.toNat - 48) = b.toNat by omega,
    UInt8.ofNat_toNat]

/-- A digit after the numeral of a positive number. -/
theorem numeral_append (hn : 0 < n) (h : IsDigit b) :
    numeral n ++ [b] = numeral (n * 10 + digitValue b) := by
  rw [← numeral_digit h, numeral, numeral, ← List.map_append,
    Nat.toDigits_append_toDigits (by decide) hn (digitValue_lt h), numeral, Nat.mul_comm]

theorem numeral_ne_nil (n : ℕ) : numeral n ≠ [] := by
  rw [numeral, Ne, List.map_eq_nil_iff]
  exact Nat.toDigits_ne_nil

/-- A numeral has at most `k` digits exactly if the number is below `10 ^ k`. -/
theorem length_numeral_le_iff {k : ℕ} (hk : 0 < k) : (numeral n).length ≤ k ↔ n < 10 ^ k := by
  rw [numeral, List.length_map, Nat.length_toDigits_le_iff (by decide) hk]

/-- Every number has one digit, or is a positive number with a digit after it. -/
theorem numeral_induction {motive : ℕ → Prop} (digit : ∀ b, IsDigit b → motive (digitValue b))
    (append : ∀ n b, 0 < n → IsDigit b → motive n → motive (n * 10 + digitValue b)) (n : ℕ) :
    motive n := by
  induction n using Nat.strongRecOn with
  | _ n ih =>
    by_cases h : n < 10
    · rw [← digitValue_ofNat h]
      exact digit _ (isDigit_ofNat h)
    · have hmod : n % 10 < 10 := Nat.mod_lt n (by decide)
      have hdiv := append (n / 10) _ (by omega) (isDigit_ofNat hmod) (ih (n / 10) (by omega))
      rwa [digitValue_ofNat hmod, Nat.div_add_mod'] at hdiv

/-- The bytes of a numeral are digits. -/
theorem isDigit_of_mem_numeral (h : b ∈ numeral n) : IsDigit b := by
  induction n using numeral_induction with
  | digit c hc =>
    rw [numeral_digit hc, List.mem_singleton] at h
    exact h ▸ hc
  | append n c hn hc ih =>
    rw [← numeral_append hn hc, List.mem_append, List.mem_singleton] at h
    rcases h with h | rfl
    · exact ih h
    · exact hc

end MojitoSys.Util
