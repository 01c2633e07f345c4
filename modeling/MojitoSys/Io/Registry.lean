import MojitoSys.Io.Poll
import Mathlib.Algebra.Ring.Nat
import Mathlib.Logic.Function.Basic

/-!
# The registry that the backends implement

What the poller header promises of the three backends, for descriptors that are open: a partial map
from descriptors to interests and tokens. A registration and a modification are the same upsert, and
the removal of an absent descriptor succeeds.

## Main definitions

* `Registry`, `Op`, `Op.status`, `Op.apply`: the map, the calls, their status and their effect.

## Main results

* `checkInterests_eq_none`: there are three valid masks of interests.
* `Registry.Valid.apply`: a call keeps the registered interests valid.
-/

namespace MojitoSys.Io

/-- The registrations of a poller. -/
abbrev Registry := Fd → Option (Mask × Token)

/-- A call on a poller. -/
inductive Op
  | register (fd : Fd) (interests : Mask) (token : Token)
  | modify (fd : Fd) (interests : Mask) (token : Token)
  | unregister (fd : Fd)
  deriving DecidableEq, Repr

namespace Op

/-- The descriptor of a call. -/
def fd : Op → Fd
  | register fd _ _ | modify fd _ _ | unregister fd => fd

/-- The status of a call on an open descriptor. -/
def status : Op → Status
  | register _ interests _ | modify _ interests _ => checkInterests interests
  | unregister _ => none

/-- The registry after a call: the last interests and token win. -/
def apply (m : Registry) : Op → Registry
  | register fd interests token | modify fd interests token =>
    if checkInterests interests = none then Function.update m fd (some (interests, token)) else m
  | unregister fd => Function.update m fd none

/-- A call leaves the other descriptors alone. -/
theorem apply_of_ne {m : Registry} {op : Op} {x : Fd} (hx : x ≠ op.fd) : op.apply m x = m x := by
  cases op with
  | register fd interests token | modify fd interests token =>
    rw [apply]
    split_ifs
    · exact Function.update_of_ne hx _ _
    · rfl
  | unregister fd => exact Function.update_of_ne hx _ _

end Op

/-- The registered interests pass the check. -/
def Registry.Valid (m : Registry) : Prop :=
  ∀ fd interests token, m fd = some (interests, token) → checkInterests interests = none

theorem Registry.Valid.apply {m : Registry} (hm : m.Valid) (op : Op) :
    Registry.Valid (op.apply m) := by
  intro x i t hx
  cases op with
  | register fd interests token | modify fd interests token =>
    simp only [Op.apply] at hx
    split_ifs at hx with hc
    · by_cases hne : x = fd
      · rw [hne, Function.update_self] at hx
        cases hx
        exact hc
      · rw [Function.update_of_ne hne] at hx
        exact hm x i t hx
    · exact hm x i t hx
  | unregister fd =>
    by_cases hne : x = fd
    · rw [hne, Op.apply, Function.update_self] at hx
      cases hx
    · rw [Op.apply, Function.update_of_ne hne] at hx
      exact hm x i t hx

/-! ### Valid interests -/

/-- There are three valid masks of interests. -/
theorem checkInterests_eq_none {i : Mask} (h : checkInterests i = none) :
    i = READABLE ∨ i = WRITABLE ∨ i = READABLE ||| WRITABLE := by
  unfold checkInterests at h
  split_ifs at h with hbits hzero
  have hbits' : i &&& ~~~(READABLE ||| WRITABLE) = 0 := by simpa using hbits
  have hmask : i = i &&& 3 := by
    calc i = i &&& ((READABLE ||| WRITABLE) ||| ~~~(READABLE ||| WRITABLE)) := by
          rw [BitVec.or_not_self, BitVec.and_allOnes]
      _ = i &&& 3 := by
          rw [BitVec.and_or_distrib_left, hbits']
          exact BitVec.or_zero
  have hlt : i.toNat < 4 := by
    rw [hmask, BitVec.toNat_and]
    exact Nat.lt_of_le_of_lt Nat.and_le_right (by decide)
  have hcases : i.toNat = 0 ∨ i.toNat = 1 ∨ i.toNat = 2 ∨ i.toNat = 3 := by omega
  rcases hcases with h0 | h1 | h2 | h3
  · exact absurd (BitVec.eq_of_toNat_eq h0) hzero
  · exact Or.inl (BitVec.eq_of_toNat_eq h1)
  · exact Or.inr (Or.inl (BitVec.eq_of_toNat_eq h2))
  · exact Or.inr (Or.inr (BitVec.eq_of_toNat_eq h3))

end MojitoSys.Io
