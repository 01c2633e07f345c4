import Mathlib.Data.BitVec
import Mathlib.Order.Lattice

/-!
# Durations

`duration.mojo`: a span of time is a `UInt64` number of nanoseconds. The factories from coarser
units, the sum and the scaling saturate at the largest number instead of wrapping, and the
difference stops at zero.

## Main definitions

* `Duration`, `durationFromSecs`, `durationFromMillis`, `durationFromMicros`.
* `saturatingAddNs`, `clampedSubNs`, `Duration.scaled`.

## Main results

* `durationFrom_toNat`: a factory is the exact product, cut off at the largest number.
* `saturatingAddNs_toNat`, `clampedSubNs_toNat`, `Duration.scaled_toNat`: so are the operations.
-/

namespace MojitoSys.Time

/-- The largest `UInt64`. -/
def UINT64_MAX : BitVec 64 := 0xFFFFFFFFFFFFFFFF

/-- `Duration`. -/
structure Duration where
  ns : BitVec 64
  deriving DecidableEq, Repr

/-- A number of units of `unit` nanoseconds each. -/
def durationFrom (unit n : BitVec 64) : Duration :=
  if n > UINT64_MAX / unit then ⟨UINT64_MAX⟩ else ⟨n * unit⟩

/-- `duration_from_secs`. -/
def durationFromSecs (seconds : BitVec 64) : Duration := durationFrom 1000000000 seconds

/-- `duration_from_millis`. -/
def durationFromMillis (millis : BitVec 64) : Duration := durationFrom 1000000 millis

/-- `duration_from_micros`. -/
def durationFromMicros (micros : BitVec 64) : Duration := durationFrom 1000 micros

/-- `saturating_add_ns`. -/
def saturatingAddNs (a b : BitVec 64) : BitVec 64 :=
  if a > UINT64_MAX - b then UINT64_MAX else a + b

/-- The difference of `__sub__` and of `duration_since`. -/
def clampedSubNs (a b : BitVec 64) : BitVec 64 := if a ≤ b then 0 else a - b

namespace Duration

/-- `Duration.__add__`. -/
instance : Add Duration := ⟨fun d rhs => ⟨saturatingAddNs d.ns rhs.ns⟩⟩

/-- `Duration.__sub__`. -/
instance : Sub Duration := ⟨fun d rhs => ⟨clampedSubNs d.ns rhs.ns⟩⟩

/-- `Duration.scaled`. -/
def scaled (d : Duration) (factor : BitVec 64) : Duration :=
  if d.ns ≠ 0 ∧ factor > UINT64_MAX / d.ns then ⟨UINT64_MAX⟩ else ⟨d.ns * factor⟩

end Duration

/-! ### The operations on naturals -/

theorem UINT64_MAX_toNat : UINT64_MAX.toNat = 2 ^ 64 - 1 := rfl

/-- The check before a product. -/
theorem gt_max_div_iff {unit : BitVec 64} (hu : 0 < unit.toNat) (n : BitVec 64) :
    n > UINT64_MAX / unit ↔ 2 ^ 64 - 1 < n.toNat * unit.toNat := by
  rw [gt_iff_lt, BitVec.lt_def, BitVec.toNat_udiv, UINT64_MAX_toNat, Nat.div_lt_iff_lt_mul hu]

/-- A factory saturates. -/
theorem durationFrom_toNat {unit : BitVec 64} (hu : 0 < unit.toNat) (n : BitVec 64) :
    (durationFrom unit n).ns.toNat = min (2 ^ 64 - 1) (n.toNat * unit.toNat) := by
  unfold durationFrom
  have hdiv := gt_max_div_iff hu n
  split
  · rename_i h
    rw [min_eq_left (hdiv.mp h).le, UINT64_MAX_toNat]
  · rename_i h
    have hle : n.toNat * unit.toNat ≤ 2 ^ 64 - 1 := Nat.not_lt.mp (mt hdiv.mpr h)
    rw [min_eq_right hle, BitVec.toNat_mul]
    exact Nat.mod_eq_of_lt (by omega)

/-- The sum saturates. -/
theorem saturatingAddNs_toNat (a b : BitVec 64) :
    (saturatingAddNs a b).toNat = min (2 ^ 64 - 1) (a.toNat + b.toNat) := by
  have ha := a.isLt
  have hb := b.isLt
  have hroom : (UINT64_MAX - b).toNat = 2 ^ 64 - 1 - b.toNat := by
    rw [BitVec.toNat_sub, UINT64_MAX_toNat]
    omega
  unfold saturatingAddNs
  split
  · rename_i h
    have hlt : (UINT64_MAX - b).toNat < a.toNat := BitVec.lt_def.mp h
    rw [UINT64_MAX_toNat]
    omega
  · rename_i h
    have hle : a.toNat ≤ (UINT64_MAX - b).toNat :=
      Nat.not_lt.mp fun hlt => h (BitVec.lt_def.mpr hlt)
    rw [BitVec.toNat_add]
    omega

/-- The difference stops at zero. -/
theorem clampedSubNs_toNat (a b : BitVec 64) : (clampedSubNs a b).toNat = a.toNat - b.toNat := by
  unfold clampedSubNs
  split
  · rename_i h
    exact (Nat.sub_eq_zero_of_le (BitVec.le_def.mp h)).symm
  · rename_i h
    exact BitVec.toNat_sub_of_le (BitVec.le_of_lt (BitVec.not_le.mp h))

namespace Duration

theorem add_toNat (d rhs : Duration) :
    (d + rhs).ns.toNat = min (2 ^ 64 - 1) (d.ns.toNat + rhs.ns.toNat) :=
  saturatingAddNs_toNat d.ns rhs.ns

theorem sub_toNat (d rhs : Duration) : (d - rhs).ns.toNat = d.ns.toNat - rhs.ns.toNat :=
  clampedSubNs_toNat d.ns rhs.ns

/-- The scaling saturates. -/
theorem scaled_toNat (d : Duration) (factor : BitVec 64) :
    (d.scaled factor).ns.toNat = min (2 ^ 64 - 1) (d.ns.toNat * factor.toNat) := by
  by_cases hns : d.ns = 0
  · -- The zero span is not divided by.
    simp [scaled, hns]
  · have hpos : 0 < d.ns.toNat := by
      refine Nat.pos_of_ne_zero fun h => hns ?_
      exact BitVec.toNat_inj.mp h
    have heq : d.scaled factor = durationFrom d.ns factor := by
      simp only [scaled, durationFrom, hns, ne_eq, not_false_eq_true, true_and, BitVec.mul_comm]
    rw [heq, durationFrom_toNat hpos, Nat.mul_comm]

end Duration

end MojitoSys.Time
