import Mathlib.Algebra.Ring.Nat
import Mathlib.Data.Nat.Find

/-!
# Linear probing

The probe of an open-addressed table of `cap` cells starts at the home cell of the key and walks
the cells in cyclic order until a cell stops it. What the walk does is decided by the order in
which it meets the cells: `Before cap h j i` says that a probe from `h` meets `j` before `i`, and
`Reaches cap h stop i` that `i` is the first cell that stops it.

## Main definitions

* `dist`, `Before`: the order of the cells along a probe.
* `Reaches`: the first cell that stops a probe.
* `scan`: the probe loop, bounded by a number of steps.

## Main results

* `scan_eq_of_reaches`: the loop returns the first stopping cell.
* `reaches_scan`: the loop finds one if there is one.
* `Reaches.congr`: the cells up to the first stopping one decide the probe.
-/

namespace MojitoSys.Util.Probing

variable {cap h i j d : ℕ}

/-- The number of steps of a probe from the cell `h` to the cell `i`. -/
def dist (cap h i : ℕ) : ℕ := (i + (cap - h)) % cap

/-- A probe from `h` meets `j` before `i`. -/
def Before (cap h j i : ℕ) : Prop := dist cap h j < dist cap h i

/-- The cell `i` is the first one that stops a probe from `h`. -/
def Reaches (cap h : ℕ) (stop : ℕ → Prop) (i : ℕ) : Prop :=
  i < cap ∧ stop i ∧ ∀ j, j < cap → Before cap h j i → ¬ stop j

/-- The probe loop: at most `n` steps from the cell `h`. -/
def scan (stop : ℕ → Prop) [DecidablePred stop] (next : ℕ → ℕ) : ℕ → ℕ → ℕ
  | 0, h => h
  | n + 1, h => if stop h then h else scan stop next n (next h)

instance : Decidable (Before cap h j i) := inferInstanceAs (Decidable (_ < _))

/-! ### The order of the cells -/

theorem dist_lt (hc : 0 < cap) : dist cap h i < cap := Nat.mod_lt _ hc

theorem dist_self (hh : h < cap) : dist cap h h = 0 := by
  have hsum : h + (cap - h) = cap := by omega
  rw [dist, hsum, Nat.mod_self]

/-- The probe from `h` meets `i` after `dist cap h i` steps. -/
theorem add_dist_mod (hh : h < cap) (hi : i < cap) : (h + dist cap h i) % cap = i := by
  have hsum : h + (i + (cap - h)) = i + cap := by omega
  rw [dist, Nat.add_mod_mod, hsum, Nat.add_mod_right, Nat.mod_eq_of_lt hi]

theorem dist_inj (hh : h < cap) (hi : i < cap) (hj : j < cap) (he : dist cap h i = dist cap h j) :
    i = j := by
  rw [← add_dist_mod hh hi, he, add_dist_mod hh hj]

/-- One step shortens the way to every other cell by one. -/
theorem dist_succ (hh : h < cap) (hi : i < cap) (hne : i ≠ h) :
    dist cap h i = dist cap ((h + 1) % cap) i + 1 := by
  unfold dist
  by_cases hlast : h + 1 = cap
  · have hzero : (h + 1) % cap = 0 := by rw [hlast, Nat.mod_self]
    have hone : i + (cap - h) = i + 1 := by omega
    have hlt : i + 1 < cap := by omega
    rw [hzero, hone, Nat.sub_zero, Nat.add_mod_right, Nat.mod_eq_of_lt hi, Nat.mod_eq_of_lt hlt]
  · have hmod : (h + 1) % cap = h + 1 := Nat.mod_eq_of_lt (by omega)
    rw [hmod]
    rcases Nat.lt_or_ge i h with hlt | hge
    · rw [Nat.mod_eq_of_lt (by omega), Nat.mod_eq_of_lt (by omega)]
      omega
    · have h₁ : i + (cap - h) = i - h + cap := by omega
      have h₂ : i + (cap - (h + 1)) = i - (h + 1) + cap := by omega
      rw [h₁, h₂, Nat.add_mod_right, Nat.add_mod_right, Nat.mod_eq_of_lt (by omega),
        Nat.mod_eq_of_lt (by omega)]
      omega

theorem not_before_self : ¬ Before cap h i i := Nat.lt_irrefl _

theorem before_or_eq_or_before (hh : h < cap) (hi : i < cap) (hj : j < cap) :
    Before cap h i j ∨ i = j ∨ Before cap h j i := by
  rcases Nat.lt_trichotomy (dist cap h i) (dist cap h j) with hlt | heq | hgt
  · exact Or.inl hlt
  · exact Or.inr (Or.inl (dist_inj hh hi hj heq))
  · exact Or.inr (Or.inr hgt)

/-! ### The first stopping cell -/

section Reaches

variable {stop stop' : ℕ → Prop}

theorem Reaches.unique (hh : h < cap) (hi : Reaches cap h stop i) (hj : Reaches cap h stop j) :
    i = j := by
  rcases before_or_eq_or_before hh hi.1 hj.1 with hlt | heq | hgt
  · exact absurd hi.2.1 (hj.2.2 i hi.1 hlt)
  · exact heq
  · exact absurd hj.2.1 (hi.2.2 j hj.1 hgt)

/-- Only the cells up to the first stopping one matter. -/
theorem Reaches.congr (hi : Reaches cap h stop i) (hat : stop' i)
    (hbefore : ∀ j, j < cap → Before cap h j i → stop' j → stop j) : Reaches cap h stop' i :=
  ⟨hi.1, hat, fun j hj hb hs => hi.2.2 j hj hb (hbefore j hj hb hs)⟩

theorem exists_reaches (hc : ∃ i, i < cap ∧ stop i) : ∃ i, Reaches cap h stop i := by
  -- the stopping cell with the least distance
  obtain ⟨i₀, hi₀, hs₀⟩ := hc
  have hex : ∃ d i, i < cap ∧ stop i ∧ dist cap h i = d := ⟨_, i₀, hi₀, hs₀, rfl⟩
  classical
  obtain ⟨i, hi, hs, hd⟩ := Nat.find_spec hex
  refine ⟨i, hi, hs, fun j hj hb hsj => ?_⟩
  rw [Before, hd] at hb
  exact Nat.find_min hex hb ⟨j, hj, hsj, rfl⟩

/-- What comes before `i` after one step came before it already. -/
theorem before_of_before_succ (hh : h < cap) (hi : i < cap) (hih : i ≠ h) (hj : j < cap)
    (hb : Before cap ((h + 1) % cap) j i) : Before cap h j i := by
  have hdi := dist_succ hh hi hih
  have hlt : dist cap h i < cap := dist_lt (by omega)
  by_cases hjh : j = h
  · rw [Before, hjh, dist_self hh]
    omega
  · have hdj := dist_succ hh hj hjh
    rw [Before] at hb ⊢
    omega

/-- One step of a probe that has not arrived. -/
theorem Reaches.succ (hh : h < cap) (hi : Reaches cap h stop i) (hih : i ≠ h) :
    ¬ stop h ∧ Reaches cap ((h + 1) % cap) stop i := by
  have hpos : 0 < dist cap h i := by
    rw [dist_succ hh hi.1 hih]
    omega
  refine ⟨hi.2.2 h hh (by rw [Before, dist_self hh]; exact hpos), hi.1, hi.2.1, fun j hj hb => ?_⟩
  exact hi.2.2 j hj (before_of_before_succ hh hi.1 hih hj hb)

variable [DecidablePred stop]

/-- The loop returns the first stopping cell, given enough steps. -/
theorem scan_eq_of_reaches {n : ℕ} (hh : h < cap) (hi : Reaches cap h stop i)
    (hn : dist cap h i < n) : scan stop (fun h => (h + 1) % cap) n h = i := by
  induction n generalizing h with
  | zero => omega
  | succ n ih =>
    by_cases hih : i = h
    · subst hih
      simp [scan, hi.2.1]
    · obtain ⟨hstop, hnext⟩ := hi.succ hh hih
      have hd := dist_succ hh hi.1 hih
      simp only [scan, hstop, if_false]
      exact ih (Nat.mod_lt _ (by omega)) hnext (by omega)

/-- A full turn of the loop finds the first stopping cell if there is one. -/
theorem reaches_scan (hh : h < cap) (hc : ∃ i, i < cap ∧ stop i) :
    Reaches cap h stop (scan stop (fun h => (h + 1) % cap) cap h) := by
  obtain ⟨i, hi⟩ := exists_reaches (h := h) hc
  rwa [scan_eq_of_reaches hh hi (dist_lt (by omega))]

theorem scan_lt {n : ℕ} (hh : h < cap) : scan stop (fun h => (h + 1) % cap) n h < cap := by
  induction n generalizing h with
  | zero => exact hh
  | succ n ih =>
    unfold scan
    split
    · exact hh
    · exact ih (Nat.mod_lt _ (by omega))

end Reaches

/-- The wrap of the source: masking with a power of two less one is the remainder. -/
theorem and_mask_eq_mod {k : ℕ} (hk : cap = 2 ^ k) (x : ℕ) : x &&& (cap - 1) = x % cap := by
  rw [hk, Nat.and_two_pow_sub_one_eq_mod]

end MojitoSys.Util.Probing
