import MojitoSys.Time.Duration

/-!
# Monotonic instants

`monotonic.mojo`: an instant is a `UInt64` number of nanoseconds since an arbitrary epoch. An
instant moves forward by a duration, and two instants are apart by a duration. An expression of
durations and instants is computed with one saturation for each operation, and its value is its
exact value cut off once.

## Main definitions

* `MonotonicInstant`, `MonotonicInstant.durationSince`.
* `DurationExpr`, `InstantExpr`: the expressions, with `eval` and the exact `value`.

## Main results

* `saturating_algebra`: an expression is its exact value, cut off at the largest number.
-/

namespace MojitoSys.Time

/-- `MonotonicInstant`. -/
structure MonotonicInstant where
  ticks : BitVec 64
  deriving DecidableEq, Repr

namespace MonotonicInstant

/-- `MonotonicInstant.__add__`. -/
instance : HAdd MonotonicInstant Duration MonotonicInstant :=
  ⟨fun i rhs => ⟨saturatingAddNs i.ticks rhs.ns⟩⟩

/-- `MonotonicInstant.__sub__`. -/
instance : HSub MonotonicInstant Duration MonotonicInstant :=
  ⟨fun i rhs => ⟨clampedSubNs i.ticks rhs.ns⟩⟩

/-- `MonotonicInstant.duration_since`. -/
def durationSince (i earlier : MonotonicInstant) : Duration := ⟨clampedSubNs i.ticks earlier.ticks⟩

/-- `MonotonicInstant.__lt__`. -/
instance : LT MonotonicInstant := ⟨fun i other => i.ticks < other.ticks⟩

instance (i other : MonotonicInstant) : Decidable (i < other) :=
  inferInstanceAs (Decidable (i.ticks < other.ticks))

variable (i : MonotonicInstant) (d : Duration)

theorem add_toNat : (i + d).ticks.toNat = min (2 ^ 64 - 1) (i.ticks.toNat + d.ns.toNat) :=
  saturatingAddNs_toNat i.ticks d.ns

theorem sub_toNat : (i - d).ticks.toNat = i.ticks.toNat - d.ns.toNat :=
  clampedSubNs_toNat i.ticks d.ns

theorem durationSince_toNat (earlier : MonotonicInstant) :
    (i.durationSince earlier).ns.toNat = i.ticks.toNat - earlier.ticks.toNat :=
  clampedSubNs_toNat i.ticks earlier.ticks

/-- The way back from an instant that did not saturate. -/
theorem add_sub_cancel (h : i.ticks.toNat + d.ns.toNat < 2 ^ 64) : i + d - d = i := by
  have hback : (i + d - d).ticks.toNat = i.ticks.toNat := by
    rw [sub_toNat, add_toNat]
    omega
  have hticks : (i + d - d).ticks = i.ticks := BitVec.toNat_inj.mp hback
  cases i
  exact congrArg MonotonicInstant.mk hticks

end MonotonicInstant

/-! ### Expressions -/

/-- The expressions of durations. -/
inductive DurationExpr
  /-- The constructor `Duration`. -/
  | ns (n : BitVec 64)
  | secs (n : BitVec 64)
  | millis (n : BitVec 64)
  | micros (n : BitVec 64)
  | add (d e : DurationExpr)
  | scaled (d : DurationExpr) (factor : BitVec 64)

/-- The expressions of instants. -/
inductive InstantExpr
  | instant (ticks : BitVec 64)
  | add (i : InstantExpr) (d : DurationExpr)

namespace DurationExpr

/-- What the code computes. -/
def eval : DurationExpr → Duration
  | ns n => ⟨n⟩
  | secs n => durationFromSecs n
  | millis n => durationFromMillis n
  | micros n => durationFromMicros n
  | add d e => d.eval + e.eval
  | scaled d factor => d.eval.scaled factor

/-- The exact value. -/
def value : DurationExpr → ℕ
  | ns n => n.toNat
  | secs n => n.toNat * 1000000000
  | millis n => n.toNat * 1000000
  | micros n => n.toNat * 1000
  | add d e => d.value + e.value
  | scaled d factor => d.value * factor.toNat

end DurationExpr

namespace InstantExpr

/-- What the code computes. -/
def eval : InstantExpr → MonotonicInstant
  | instant ticks => ⟨ticks⟩
  | add i d => i.eval + d.eval

/-- The exact value. -/
def value : InstantExpr → ℕ
  | instant ticks => ticks.toNat
  | add i d => i.value + d.value

end InstantExpr

/-- Cutting off the summands first does not change the cut off sum. -/
theorem min_add_min (m a b : ℕ) : min m (min m a + min m b) = min m (a + b) := by
  omega

/-- Cutting off a factor first does not change the cut off product. A zero brings a number that was
cut off back to zero. -/
theorem min_min_mul (m a b : ℕ) : min m (min m a * b) = min m (a * b) := by
  rcases Nat.le_total a m with hle | hle
  · rw [min_eq_right hle]
  · rw [min_eq_left hle]
    rcases Nat.eq_zero_or_pos b with rfl | hb
    · rfl
    · rw [min_eq_left (Nat.le_mul_of_pos_right m hb),
        min_eq_left (hle.trans (Nat.le_mul_of_pos_right a hb))]

theorem DurationExpr.eval_toNat (e : DurationExpr) :
    e.eval.ns.toNat = min (2 ^ 64 - 1) e.value := by
  induction e with
  | ns n =>
    have hlt := n.isLt
    simp only [eval, value]
    omega
  | secs n => exact durationFrom_toNat (by decide : 0 < (1000000000 : BitVec 64).toNat) n
  | millis n => exact durationFrom_toNat (by decide : 0 < (1000000 : BitVec 64).toNat) n
  | micros n => exact durationFrom_toNat (by decide : 0 < (1000 : BitVec 64).toNat) n
  | add d e ihd ihe => rw [eval, Duration.add_toNat, ihd, ihe, min_add_min, value]
  | scaled d factor ih => rw [eval, Duration.scaled_toNat, ih, min_min_mul, value]

theorem InstantExpr.eval_toNat (e : InstantExpr) :
    e.eval.ticks.toNat = min (2 ^ 64 - 1) e.value := by
  induction e with
  | instant ticks =>
    have hlt := ticks.isLt
    simp only [eval, value]
    omega
  | add i d ih => rw [eval, MonotonicInstant.add_toNat, ih, d.eval_toNat, min_add_min, value]

/-- The saturating algebra: every expression of durations and instants is its exact value, cut off
at the largest `UInt64`, and an instant is a duration later than before by this duration, or by what
was left to the largest instant. -/
theorem saturating_algebra :
    (∀ e : DurationExpr, e.eval.ns.toNat = min (2 ^ 64 - 1) e.value) ∧
      (∀ e : InstantExpr, e.eval.ticks.toNat = min (2 ^ 64 - 1) e.value) ∧
      ∀ (i : MonotonicInstant) (d : Duration),
        ((i + d).durationSince i).ns.toNat = min d.ns.toNat (2 ^ 64 - 1 - i.ticks.toNat) := by
  refine ⟨DurationExpr.eval_toNat, InstantExpr.eval_toNat, fun i d => ?_⟩
  have hlt := i.ticks.isLt
  rw [MonotonicInstant.durationSince_toNat, MonotonicInstant.add_toNat]
  omega

end MojitoSys.Time
