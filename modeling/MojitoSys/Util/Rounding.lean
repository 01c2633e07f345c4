import Mathlib.Algebra.Order.Ring.Nat
import Mathlib.Data.Nat.Cast.Order.Ring

/-!
# Rounding up to multiples

The next multiple of a unit, on natural numbers, and the two ways in which machine words compute
it: by a division and a product, or, for a power of two, by a bit mask.

## Main definitions

* `roundUpNat`: the least multiple that is not smaller.

## Main results

* `lt_roundUpNat_iff`, `div_mul_lt_iff`: the multiples around a number.
* `toNat_div_mul`: the rounding by a division.
* `toNat_and_mask`, `toNat_round_mask`: the remainder and the rounding by a mask.
-/

namespace MojitoSys.Util

/-- The least multiple of `u` that is not smaller than `n`. -/
def roundUpNat (n u : ℕ) : ℕ := (n + u - 1) / u * u

section Nat

variable {n u : ℕ}

theorem dvd_roundUpNat (n u : ℕ) : u ∣ roundUpNat n u := Dvd.intro_left _ rfl

theorem le_roundUpNat (hu : 0 < u) : n ≤ roundUpNat n u := by
  have h := Nat.div_add_mod (n + u - 1) u
  have hlt := Nat.mod_lt (n + u - 1) hu
  rw [roundUpNat, Nat.mul_comm]
  omega

theorem roundUpNat_lt (hu : 0 < u) : roundUpNat n u < n + u := by
  have h := Nat.div_mul_le_self (n + u - 1) u
  rw [roundUpNat]
  omega

theorem roundUpNat_of_dvd (hu : 0 < u) (h : u ∣ n) : roundUpNat n u = n := by
  obtain ⟨m, rfl⟩ := h
  have hdiv : (u * m + u - 1) / u = m := by
    rw [Nat.add_sub_assoc hu, Nat.mul_add_div hu, Nat.div_eq_of_lt (by omega), Nat.add_zero]
  rw [roundUpNat, hdiv, Nat.mul_comm]

/-- The rounding stays below a multiple exactly when the sum with the unit does not pass it. -/
theorem roundUpNat_lt_iff {b : ℕ} (hu : 0 < u) (hb : u ∣ b) : roundUpNat n u < b ↔ n + u ≤ b := by
  constructor
  · intro h
    have hgap : u ≤ b - roundUpNat n u :=
      Nat.le_of_dvd (by omega) (Nat.dvd_sub hb (dvd_roundUpNat n u))
    have hle := le_roundUpNat (n := n) hu
    omega
  · intro h
    exact (roundUpNat_lt hu).trans_le h

/-- A multiple is below the rounding exactly when it is below the number. -/
theorem lt_roundUpNat_iff {a : ℕ} (hu : 0 < u) (ha : u ∣ a) : a < roundUpNat n u ↔ a < n := by
  constructor
  · intro h
    have hgap : u ≤ roundUpNat n u - a :=
      Nat.le_of_dvd (by omega) (Nat.dvd_sub (dvd_roundUpNat n u) ha)
    have hlt := roundUpNat_lt (n := n) hu
    omega
  · intro h
    exact h.trans_le (le_roundUpNat hu)

/-- A multiple is above the multiple below the number exactly when it is above the number. -/
theorem div_mul_lt_iff {c : ℕ} (hu : 0 < u) (hc : u ∣ c) : n / u * u < c ↔ n < c := by
  obtain ⟨m, rfl⟩ := hc
  rw [Nat.mul_comm u m, Nat.mul_lt_mul_right hu, Nat.div_lt_iff_lt_mul hu]

end Nat

section Words

variable {n u x : BitVec 64}

/-- The rounding by a division, when the sum with the unit does not wrap. -/
theorem toNat_div_mul (hu : 0 < u.toNat) (h : n.toNat + u.toNat ≤ 2 ^ 64) :
    ((n + u - 1) / u * u).toNat = roundUpNat n.toNat u.toNat := by
  have hsum : (n + u - 1).toNat = n.toNat + u.toNat - 1 := by bv_omega
  rw [BitVec.toNat_mul, BitVec.toNat_udiv, hsum]
  exact Nat.mod_eq_of_lt ((roundUpNat_lt hu).trans_le h)

theorem toNat_and_mask {k : ℕ} (hu : u.toNat = 2 ^ k) :
    (x &&& (u - 1)).toNat = x.toNat % 2 ^ k := by
  have hpos := Nat.two_pow_pos k
  have hmask : (u - 1).toNat = 2 ^ k - 1 := by
    rw [← hu] at hpos ⊢
    bv_omega
  rw [BitVec.toNat_and, hmask, Nat.and_two_pow_sub_one_eq_mod]

/-- The bits above the mask are the multiple below the word. -/
theorem toNat_and_not_mask {k : ℕ} (hu : u.toNat = 2 ^ k) :
    (x &&& ~~~(u - 1)).toNat = x.toNat / 2 ^ k * 2 ^ k := by
  have hdisj : (x &&& (u - 1)) &&& (x &&& ~~~(u - 1)) = 0#64 := by
    ext i hi
    simp only [BitVec.getElem_and, BitVec.getElem_not, BitVec.getElem_zero]
    cases x[i] <;> cases (u - 1)[i] <;> rfl
  have hsplit : (x &&& (u - 1)) + (x &&& ~~~(u - 1)) = x := by
    rw [BitVec.add_eq_or_of_and_eq_zero _ _ hdisj]
    ext i hi
    simp only [BitVec.getElem_or, BitVec.getElem_and, BitVec.getElem_not]
    cases x[i] <;> cases (u - 1)[i] <;> rfl
  have hlow := toNat_and_mask (x := x) hu
  have hdiv := Nat.div_add_mod x.toNat (2 ^ k)
  have hmul := Nat.mul_comm (2 ^ k) (x.toNat / 2 ^ k)
  have hsum := congrArg BitVec.toNat hsplit
  rw [BitVec.toNat_add_of_and_eq_zero hdisj] at hsum
  omega

/-- The rounding by a mask, when the sum with the unit does not wrap. -/
theorem toNat_round_mask {k : ℕ} (hu : u.toNat = 2 ^ k) (h : n.toNat + u.toNat ≤ 2 ^ 64) :
    ((n + u - 1) &&& ~~~(u - 1)).toNat = roundUpNat n.toNat u.toNat := by
  have hpos := Nat.two_pow_pos k
  have hsum : (n + u - 1).toNat = n.toNat + u.toNat - 1 := by
    rw [← hu] at hpos
    bv_omega
  rw [toNat_and_not_mask hu, hsum, roundUpNat, hu]

/-! ### Signed words -/

/-- A word below `2 ^ 63` is the same number signed and unsigned. -/
theorem toInt_of_lt (h : x.toNat < 2 ^ 63) : x.toInt = x.toNat :=
  BitVec.toInt_eq_toNat_of_lt (by omega)

theorem toNat_lt_of_nonneg (h : 0 ≤ x.toInt) : x.toNat < 2 ^ 63 := by
  have := BitVec.toInt_neg_iff (x := x)
  omega

end Words

end MojitoSys.Util
