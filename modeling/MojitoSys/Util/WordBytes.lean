import Mathlib.Data.Nat.Bitwise
import Mathlib.Tactic.Common

/-!
# The bytes of a word

A word of 64 bits as eight bytes, the lowest first: `byteOf` reads one with a shift and a mask, and
`orByte` adds the bits of one with a shift and an or. A word that is built from zero by adding every
byte once has these bytes.

## Main definitions

* `byteOf`, `orByte`.

## Main results

* `byteOf_zero`, `byteOf_orByte`: what a byte reads as while a word is built.
-/

namespace MojitoSys.Util

/-- Byte `k` of a word. -/
def byteOf (w : UInt64) (k : ℕ) : UInt8 := ((w >>> UInt64.ofNat (k * 8)) &&& 0xFF).toUInt8

/-- The word with the bits of a byte added to its byte `k`. -/
def orByte (w : UInt64) (k : ℕ) (b : UInt8) : UInt64 := w ||| (b.toUInt64 <<< UInt64.ofNat (k * 8))

variable {j k t : ℕ} {b : UInt8}

theorem toNat_byteShift (hk : k < 8) : (UInt64.ofNat (k * 8)).toNat = k * 8 :=
  UInt64.toNat_ofNat_of_lt' (by simp only [UInt64.size]; omega)

theorem testBit_byte (h : 8 ≤ t) : b.toNat.testBit t = false :=
  Nat.testBit_lt_two_pow (Nat.lt_of_lt_of_le b.toNat_lt (Nat.pow_le_pow_right (by decide) h))

/-- The bits of a byte of a word. -/
theorem testBit_byteOf (w : UInt64) (hj : j < 8) :
    (byteOf w j).toNat.testBit t = (decide (t < 8) && w.toNat.testBit (j * 8 + t)) := by
  have hmask : (0xFF : UInt64).toNat = 2 ^ 8 - 1 := rfl
  rw [byteOf, UInt64.toNat_toUInt8, UInt64.toNat_and, UInt64.toNat_shiftRight, toNat_byteShift hj,
    Nat.mod_eq_of_lt (show j * 8 < 64 by omega), hmask, Nat.and_two_pow_sub_one_eq_mod, Nat.mod_mod,
    Nat.testBit_mod_two_pow, Nat.testBit_shiftRight]

/-- The bits of a byte that was shifted to its place. -/
theorem testBit_shiftLeft_byte (hk : k < 8) (ht : t < 64) :
    (b.toUInt64 <<< UInt64.ofNat (k * 8)).toNat.testBit t =
      (decide (k * 8 ≤ t) && b.toNat.testBit (t - k * 8)) := by
  rw [UInt64.toNat_shiftLeft, UInt8.toNat_toUInt64, toNat_byteShift hk,
    Nat.mod_eq_of_lt (show k * 8 < 64 by omega), Nat.testBit_mod_two_pow, Nat.testBit_shiftLeft]
  simp [ht]

@[simp]
theorem byteOf_zero (k : ℕ) : byteOf 0 k = 0 := by simp [byteOf]

/-- Adding a byte changes no other byte. -/
theorem byteOf_orByte (hj : j < 8) (hk : k < 8) (w : UInt64) (b : UInt8) :
    byteOf (orByte w k b) j = if j = k then byteOf w j ||| b else byteOf w j := by
  rw [← UInt8.toNat_inj]
  refine Nat.eq_of_testBit_eq fun t => ?_
  by_cases ht : t < 8
  · rw [testBit_byteOf _ hj, orByte, UInt64.toNat_or, Nat.testBit_or,
      testBit_shiftLeft_byte hk (by omega)]
    split_ifs with hjk
    · subst hjk
      rw [UInt8.toNat_or, Nat.testBit_or, testBit_byteOf w hj]
      simp [ht]
    · have hbit : (decide (k * 8 ≤ j * 8 + t) && b.toNat.testBit (j * 8 + t - k * 8)) = false := by
        by_cases hle : k * 8 ≤ j * 8 + t
        · rw [testBit_byte (by omega), Bool.and_false]
        · simp [hle]
      rw [testBit_byteOf w hj, hbit, Bool.or_false]
  · rw [testBit_byte (Nat.not_lt.mp ht), testBit_byte (Nat.not_lt.mp ht)]

end MojitoSys.Util
