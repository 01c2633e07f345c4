import Mathlib.Data.BitVec
import Mathlib.Data.Nat.Bitwise

/-!
# Loops over the bits of a word

A loop over the set bits of a word takes the lowest set bit and clears it by `x & (x - 1)`, until
the word is zero.

## Main definitions

* `foldBits`: the loop.

## Main results

* `getLsbD_clear`: the clearing takes the lowest set bit and no other.
* `foldBits_iff`, `foldl_iff`: what a loop that only adds establishes.
-/

namespace MojitoSys.Util

section Clear

variable {w : ℕ} {x : BitVec w}

/-- A number with its lowest set bit apart. -/
theorem toNat_eq_lowest (hx : x ≠ 0) :
    ∃ m, x.toNat = 2 ^ (x.ctz.toNat + 1) * m + 2 ^ x.ctz.toNat := by
  have hlt : 2 ^ x.ctz.toNat < 2 ^ (x.ctz.toNat + 1) :=
    Nat.pow_lt_pow_right (by decide) (Nat.lt_succ_self _)
  refine ⟨x.toNat / 2 ^ (x.ctz.toNat + 1), Nat.eq_of_testBit_eq fun i => ?_⟩
  rw [Nat.testBit_two_pow_mul_add _ hlt, Nat.testBit_div_two_pow, Nat.testBit_two_pow]
  rcases Nat.lt_trichotomy i x.ctz.toNat with hi | rfl | hi
  · have hbit : x.toNat.testBit i = false := BitVec.getLsbD_false_of_lt_ctz hi
    simp [hbit, Nat.lt_succ_of_lt hi, hi.ne']
  · have hbit : x.toNat.testBit x.ctz.toNat = true := BitVec.getLsbD_true_ctz_of_ne_zero hx
    simp [hbit]
  · rw [if_neg (by omega), Nat.sub_add_cancel hi]

theorem toNat_sub_one (hx : x ≠ 0) : (x - 1).toNat = x.toNat - 1 := by
  have hpos : 0 < x.toNat := Nat.pos_of_ne_zero fun h0 => hx (BitVec.toNat_inj.mp h0)
  have hw : 0 < w := Nat.pos_of_ne_zero fun h0 => hx (by subst h0; exact BitVec.of_length_zero)
  have hone : (1 : BitVec w).toNat = 1 := BitVec.toNat_one hw
  rw [BitVec.toNat_sub_of_le (BitVec.le_def.mpr (hone.trans_le hpos)), hone]

/-- The clearing takes the lowest set bit and no other. -/
theorem getLsbD_clear (hx : x ≠ 0) (i : ℕ) :
    (x &&& (x - 1)).getLsbD i = (x.getLsbD i && decide (i ≠ x.ctz.toNat)) := by
  obtain ⟨m, hm⟩ := toNat_eq_lowest hx
  generalize x.ctz.toNat = t at hm ⊢
  have hpos := Nat.two_pow_pos t
  have hlt : 2 ^ t < 2 ^ (t + 1) := Nat.pow_lt_pow_right (by decide) t.lt_succ_self
  have hsub : (x - 1).toNat = 2 ^ (t + 1) * m + (2 ^ t - 1) := by
    rw [toNat_sub_one hx, hm]
    omega
  rw [← BitVec.testBit_toNat, BitVec.toNat_and, hsub, Nat.testBit_and, ← BitVec.testBit_toNat, hm,
    Nat.testBit_two_pow_mul_add _ hlt, Nat.testBit_two_pow_mul_add _ (by omega),
    Nat.testBit_two_pow, Nat.testBit_two_pow_sub_one]
  by_cases hi : i < t + 1
  · rcases Nat.lt_or_ge i t with hit | hit
    · simp [hi, hit, hit.ne']
    · obtain rfl : i = t := by omega
      simp
  · have hne : i ≠ t := by omega
    simp [hi, hne]

theorem toNat_clear_lt (hx : x ≠ 0) : (x &&& (x - 1)).toNat < x.toNat := by
  have hpos : 0 < x.toNat := Nat.pos_of_ne_zero fun h0 => hx (BitVec.toNat_inj.mp h0)
  rw [BitVec.toNat_and, toNat_sub_one hx]
  exact Nat.and_le_right.trans_lt (Nat.pred_lt hpos.ne')

end Clear

/-- The test of one bit by a shift. -/
theorem shift_and_one {w : ℕ} (hw : 0 < w) (x : BitVec w) (i : ℕ) :
    (x >>> i &&& 1#w != 0) = x.getLsbD i := by
  have hbit : x.getLsbD i = (x >>> i).getLsbD 0 := by simp
  rw [hbit, BitVec.and_one_eq_setWidth_ofBool_getLsbD]
  cases (x >>> i).getLsbD 0 with
  | false => simp
  | true =>
    refine bne_iff_ne.mpr fun h0 => ?_
    have hone := congrArg (fun y : BitVec w => y.getLsbD 0) h0
    simp [hw] at hone

/-! ### The loop -/

section Loop

variable {w : ℕ} {α β : Type*} {P : α → Prop}

/-- The loop over the set bits of a word, from the lowest one up. -/
def foldBits (f : α → ℕ → α) (a : α) (x : BitVec w) : α :=
  if h : x = 0 then a else foldBits f (f a x.ctz.toNat) (x &&& (x - 1))
termination_by x.toNat
decreasing_by exact toNat_clear_lt h

/-- A loop whose body can only add establishes what some body adds. -/
theorem foldl_iff {f : α → β → α} {Q : β → Prop} (hf : ∀ a b, P (f a b) ↔ P a ∨ Q b)
    (l : List β) (a : α) : P (l.foldl f a) ↔ P a ∨ ∃ b ∈ l, Q b := by
  induction l generalizing a with
  | nil => simp
  | cons b l ih => simp only [List.foldl_cons, ih, hf, List.exists_mem_cons_iff, or_assoc]

theorem foldBits_iff {f : α → ℕ → α} {Q : ℕ → Prop} (hf : ∀ a b, P (f a b) ↔ P a ∨ Q b)
    (a : α) (x : BitVec w) : P (foldBits f a x) ↔ P a ∨ ∃ b, x.getLsbD b = true ∧ Q b := by
  fun_induction foldBits f a x with
  | case1 a => simp
  | case2 a x hx ih =>
    have hlow := BitVec.getLsbD_true_ctz_of_ne_zero hx
    rw [ih, hf, or_assoc]
    refine or_congr_right ⟨?_, ?_⟩
    · rintro (hq | ⟨b, hb, hq⟩)
      · exact ⟨_, hlow, hq⟩
      · rw [getLsbD_clear hx, Bool.and_eq_true] at hb
        exact ⟨b, hb.1, hq⟩
    · rintro ⟨b, hb, hq⟩
      by_cases hbt : b = x.ctz.toNat
      · exact Or.inl (hbt ▸ hq)
      · refine Or.inr ⟨b, ?_, hq⟩
        rw [getLsbD_clear hx, hb]
        simpa using hbt

end Loop

end MojitoSys.Util
