import Mathlib.Data.BitVec
import Mathlib.Data.Nat.Cast.Order.Ring

/-!
# The clock of macOS

`mjs_time.c`: `mach_absolute_time` counts ticks, and a tick takes `numer / denom` nanoseconds, two
32-bit numbers that the system tells once. The product of the ticks and `numer` need not fit into
64 bits, so `mjs_clock_now` scales the quotient and the remainder of the ticks by `denom` apart.

## Main definitions

* `Timebase`, `mjsTimebaseInit`: the ratio, which has no zero.
* `clockNow`: the scaled ticks.
* `NoWrap`: no intermediate result wraps.

## Main results

* `clock_now_exact`: the scaling is exact and monotone as long as the result fits into 64 bits.
-/

namespace MojitoSys.Time

/-- `mach_timebase_info_data_t`. -/
structure TimebaseInfo where
  numer : BitVec 32
  denom : BitVec 32
  deriving DecidableEq, Repr

/-- The ratio that the clock uses. -/
structure Timebase extends TimebaseInfo where
  numer_pos : 0 < numer.toNat
  denom_pos : 0 < denom.toNat

/-- `mjs_timebase_init`: the answer of the system, if it is a ratio, and else `1 / 1`. -/
def mjsTimebaseInit (answer : Option TimebaseInfo) : Timebase :=
  match answer with
  | none => ⟨⟨1, 1⟩, by decide, by decide⟩
  | some info =>
    if h : info.denom = 0 ∨ info.numer = 0 then ⟨⟨1, 1⟩, by decide, by decide⟩
    else
      { info with
        numer_pos := Nat.pos_of_ne_zero fun h0 => h (Or.inr (BitVec.toNat_inj.mp h0))
        denom_pos := Nat.pos_of_ne_zero fun h0 => h (Or.inl (BitVec.toNat_inj.mp h0)) }

/-- The nanoseconds of `mjs_clock_now` at `t` ticks. -/
def clockNow (tb : Timebase) (t : BitVec 64) : BitVec 64 :=
  let numer := tb.numer.setWidth 64
  let denom := tb.denom.setWidth 64
  let q := t / denom
  let r := t % denom
  q * numer + r * numer / denom

/-- Neither product nor the sum of `mjs_clock_now` wraps. -/
structure NoWrap (tb : Timebase) (t : BitVec 64) : Prop where
  quotient : (t / tb.denom.setWidth 64).toNat * (tb.numer.setWidth 64).toNat < 2 ^ 64
  remainder : (t % tb.denom.setWidth 64).toNat * (tb.numer.setWidth 64).toNat < 2 ^ 64
  sum : (t / tb.denom.setWidth 64 * tb.numer.setWidth 64).toNat +
    (t % tb.denom.setWidth 64 * tb.numer.setWidth 64 / tb.denom.setWidth 64).toNat < 2 ^ 64

/-- The identity of the scaling. -/
theorem scaled_eq {d : ℕ} (hd : 0 < d) (t n : ℕ) : t / d * n + t % d * n / d = t * n / d := by
  have hsplit : t * n = d * (t / d * n) + t % d * n := by
    conv_lhs => rw [← Nat.div_add_mod t d]
    rw [Nat.add_mul, Nat.mul_assoc]
  rw [hsplit, Nat.mul_add_div hd]

section Scaling

variable (tb : Timebase) (t : BitVec 64)

theorem numer_toNat : (tb.numer.setWidth 64).toNat = tb.numer.toNat :=
  BitVec.toNat_setWidth_of_le (by decide)

theorem denom_toNat : (tb.denom.setWidth 64).toNat = tb.denom.toNat :=
  BitVec.toNat_setWidth_of_le (by decide)

/-- The remainder term fits for all ticks. -/
theorem remainder_lt : t.toNat % tb.denom.toNat * tb.numer.toNat < 2 ^ 64 := by
  have hr := (Nat.mod_lt t.toNat tb.denom_pos).le.trans tb.denom.isLt.le
  have hlt : t.toNat % tb.denom.toNat * tb.numer.toNat < 2 ^ 32 * 2 ^ 32 :=
    Nat.mul_lt_mul_of_le_of_lt hr tb.numer.isLt (by decide)
  exact hlt

variable {tb t}

/-- The results of the two terms, if the sum of the exact terms fits. -/
theorem terms_toNat (h : t.toNat * tb.numer.toNat / tb.denom.toNat < 2 ^ 64) :
    (t / tb.denom.setWidth 64 * tb.numer.setWidth 64).toNat =
        t.toNat / tb.denom.toNat * tb.numer.toNat ∧
      (t % tb.denom.setWidth 64 * tb.numer.setWidth 64 / tb.denom.setWidth 64).toNat =
        t.toNat % tb.denom.toNat * tb.numer.toNat / tb.denom.toNat := by
  have hq : t.toNat / tb.denom.toNat * tb.numer.toNat < 2 ^ 64 :=
    (Nat.le_add_right ..).trans_lt (scaled_eq tb.denom_pos t.toNat tb.numer.toNat ▸ h)
  constructor
  · rw [BitVec.toNat_mul, BitVec.toNat_udiv, numer_toNat, denom_toNat, Nat.mod_eq_of_lt hq]
  · rw [BitVec.toNat_udiv, BitVec.toNat_mul, BitVec.toNat_umod, numer_toNat, denom_toNat,
      Nat.mod_eq_of_lt (remainder_lt tb t)]

theorem noWrap (h : t.toNat * tb.numer.toNat / tb.denom.toNat < 2 ^ 64) : NoWrap tb t where
  quotient := by
    rw [BitVec.toNat_udiv, numer_toNat, denom_toNat]
    exact (Nat.le_add_right ..).trans_lt (scaled_eq tb.denom_pos t.toNat tb.numer.toNat ▸ h)
  remainder := by
    rw [BitVec.toNat_umod, numer_toNat, denom_toNat]
    exact remainder_lt tb t
  sum := by
    rw [(terms_toNat h).1, (terms_toNat h).2, scaled_eq tb.denom_pos]
    exact h

theorem clockNow_toNat (h : t.toNat * tb.numer.toNat / tb.denom.toNat < 2 ^ 64) :
    (clockNow tb t).toNat = t.toNat * tb.numer.toNat / tb.denom.toNat := by
  obtain ⟨hq, hr⟩ := terms_toNat h
  simp only [clockNow]
  rw [BitVec.toNat_add_of_lt (noWrap h).sum, hq, hr, scaled_eq tb.denom_pos]

end Scaling

/-- The nanoseconds of `mjs_clock_now` are exact for all ticks whose nanoseconds fit into 64 bits,
without a wrap on the way, and they do not decrease. -/
theorem clock_now_exact (tb : Timebase) :
    (∀ t : BitVec 64, t.toNat * tb.numer.toNat / tb.denom.toNat < 2 ^ 64 →
      (clockNow tb t).toNat = t.toNat * tb.numer.toNat / tb.denom.toNat ∧ NoWrap tb t) ∧
      ∀ t t' : BitVec 64, t ≤ t' → t'.toNat * tb.numer.toNat / tb.denom.toNat < 2 ^ 64 →
        clockNow tb t ≤ clockNow tb t' := by
  refine ⟨fun t h => ⟨clockNow_toNat h, noWrap h⟩, fun t t' hle h' => ?_⟩
  have hexact : t.toNat * tb.numer.toNat / tb.denom.toNat ≤
      t'.toNat * tb.numer.toNat / tb.denom.toNat :=
    Nat.div_le_div_right (Nat.mul_le_mul_right _ (BitVec.le_def.mp hle))
  rw [BitVec.le_def, clockNow_toNat h', clockNow_toNat (hexact.trans_lt h')]
  exact hexact

/-- A tick of 125 / 3 nanoseconds: the product of the ticks and `numer` does not fit into 64
bits. -/
theorem clock_now_exact_split :
    2 ^ 64 ≤ (0x400000000000000 : BitVec 64).toNat * 125 ∧
      (clockNow ⟨⟨125, 3⟩, by decide, by decide⟩ 0x400000000000000).toNat =
        (0x400000000000000 : BitVec 64).toNat * 125 / 3 :=
  ⟨by decide, ((clock_now_exact ⟨⟨125, 3⟩, by decide, by decide⟩).1 _ (by decide)).1⟩

end MojitoSys.Time
