import MojitoSys.Time.Duration
import Mathlib.Algebra.Order.Floor.Div

/-!
# The timeouts of the three pollers

A wait takes its timeout as a pointer to a number of nanoseconds, `NULL` for an unbounded wait.
`mjs_epoll_wait` converts it to the milliseconds of `epoll_wait`, rounded up and cut off at the
largest `int`; `mjs_poller_wait` and `mjs_iouring_wait` split it into the seconds and nanoseconds of
a `timespec`. The rounding of `mjs_epoll_wait` adds `999999` in unsigned 64-bit arithmetic, which
wraps for the largest timeouts.

## Main definitions

* `timeoutSlot`, `epollTimeout`, `timespecOf`.
* `TimeoutLaw`: the timeout given to `epoll_wait` is the rounded one.

## Main results

* `timespecOf_exact`: the split loses nothing.
* `epoll_timeout_iff`: the timeouts for which the rounding does not wrap.
* `epoll_timeout_saturated`: a saturated duration becomes a non-blocking poll.
-/

namespace MojitoSys.Io

open Time

/-- `_timeout_slot`: the pointer to the nanoseconds, `none` for `NULL`. -/
def timeoutSlot (timeout : Option Duration) : Option (BitVec 64) := timeout.map Duration.ns

/-- The timeout that `mjs_epoll_wait` gives to `epoll_wait`, in milliseconds. -/
def epollTimeout (timeoutNs : Option (BitVec 64)) : BitVec 32 :=
  match timeoutNs with
  | none => -1
  | some ns =>
    if ns = 0 then 0
    else
      let ms := (ns + 999999) / 1000000
      if ms > 0x7FFFFFFF then 0x7FFFFFFF else ms.setWidth 32

/-- The `timespec` of `mjs_poller_wait` and of `mjs_iouring_wait`: seconds and nanoseconds. -/
def timespecOf (ns : BitVec 64) : BitVec 64 × BitVec 64 := (ns / 1000000000, ns % 1000000000)

/-- The split into seconds and nanoseconds is exact. -/
theorem timespecOf_exact (ns : BitVec 64) :
    (timespecOf ns).1.toNat * 1000000000 + (timespecOf ns).2.toNat = ns.toNat ∧
      (timespecOf ns).2.toNat < 1000000000 := by
  have hsec : (timespecOf ns).1.toNat = ns.toNat / 1000000000 := BitVec.toNat_udiv
  have hnsec : (timespecOf ns).2.toNat = ns.toNat % 1000000000 := BitVec.toNat_umod
  omega

/-- The timeout of `epoll_wait` is `0` for the duration `0` only, and otherwise the duration in
milliseconds, rounded up and cut off at the largest `int`. -/
structure TimeoutLaw (d : Duration) : Prop where
  zero_iff : (epollTimeout (timeoutSlot (some d))).toInt = 0 ↔ d.ns = 0
  pos : d.ns ≠ 0 → 1 ≤ (epollTimeout (timeoutSlot (some d))).toInt
  eq : d.ns ≠ 0 → (epollTimeout (timeoutSlot (some d))).toInt =
    min ((d.ns.toNat ⌈/⌉ 1000000 : ℕ) : ℤ) (2 ^ 31 - 1)

/-- The milliseconds of a timeout other than `0`. -/
theorem epollTimeout_toInt {ns : BitVec 64} (h : ns ≠ 0) :
    (epollTimeout (some ns)).toInt =
      min (((ns.toNat + 999999) % 2 ^ 64 / 1000000 : ℕ) : ℤ) (2 ^ 31 - 1) := by
  have hround : (999999 : BitVec 64).toNat = 999999 := rfl
  have hunit : (1000000 : BitVec 64).toNat = 1000000 := rfl
  have hms : ((ns + 999999) / 1000000).toNat = (ns.toNat + 999999) % 2 ^ 64 / 1000000 := by
    rw [BitVec.toNat_udiv, BitVec.toNat_add, hround, hunit]
  simp only [epollTimeout, if_neg h]
  split
  · rename_i hgt
    have hlt : 0x7FFFFFFF < ((ns + 999999) / 1000000).toNat := BitVec.lt_def.mp hgt
    rw [hms] at hlt
    rw [min_eq_right (by omega)]
    rfl
  · rename_i hle
    have hle' : ((ns + 999999) / 1000000).toNat ≤ 0x7FFFFFFF :=
      Nat.not_lt.mp fun hlt => hle (BitVec.lt_def.mpr hlt)
    rw [BitVec.toInt_setWidth]
    rw [hms] at hle' ⊢
    rw [min_eq_left (by omega), Int.bmod_eq_of_le] <;> omega

/-- **The timeout of `mjs_epoll_wait`** is the rounded duration exactly when the rounding does not
wrap. -/
theorem epoll_timeout_iff (d : Duration) : TimeoutLaw d ↔ d.ns.toNat ≤ 2 ^ 64 - 1000000 := by
  have hns : d.ns.toNat < 2 ^ 64 := d.ns.isLt
  have hzero : d.ns = 0 ↔ d.ns.toNat = 0 := by
    rw [← BitVec.toNat_inj]
    rfl
  constructor
  · intro h
    by_contra hbig
    have hne : d.ns ≠ 0 := by
      rw [Ne, hzero]
      omega
    have hpos := h.pos hne
    rw [timeoutSlot, Option.map_some, epollTimeout_toInt hne] at hpos
    omega
  · intro hle
    by_cases hne : d.ns = 0
    · refine ⟨iff_of_true ?_ hne, fun h => absurd hne h, fun h => absurd hne h⟩
      rw [timeoutSlot, Option.map_some, hne]
      rfl
    · have hcalc := epollTimeout_toInt hne
      have hceil : d.ns.toNat ⌈/⌉ 1000000 = (d.ns.toNat + 999999) % 2 ^ 64 / 1000000 := by
        rw [Nat.ceilDiv_eq_add_pred_div]
        omega
      rw [← hceil] at hcalc
      have hone : 1 ≤ d.ns.toNat ⌈/⌉ 1000000 := by
        rw [hzero] at hne
        rw [hceil]
        omega
      have hpos : 1 ≤ (epollTimeout (some d.ns)).toInt := by omega
      refine ⟨iff_of_false ?_ hne, fun _ => hpos, fun _ => hcalc⟩
      rw [timeoutSlot, Option.map_some]
      omega

/-- `duration_from_secs(2^63)` saturates, and `epoll_wait` is called with the timeout `0`. -/
theorem epoll_timeout_saturated :
    (durationFromSecs 0x8000000000000000).ns = UINT64_MAX ∧
      (epollTimeout (timeoutSlot (some (durationFromSecs 0x8000000000000000)))).toInt = 0 ∧
      ¬ TimeoutLaw (durationFromSecs 0x8000000000000000) := by
  have hns : durationFromSecs 0x8000000000000000 = ⟨UINT64_MAX⟩ := rfl
  rw [hns]
  refine ⟨rfl, rfl, fun h => ?_⟩
  have hpos : (1 : ℤ) ≤ 0 := h.pos (by decide)
  exact absurd hpos (by decide)

end MojitoSys.Io
