import MojitoSys.Util.BitMask
import Mathlib.Data.List.Nodup
import Mathlib.Data.Nat.ModEq
import Mathlib.Logic.Function.Basic

/-!
# Rings with free-running counters

A ring of entries with two counters that only go up and wrap around. A mask takes a counter to the
slot of its entry, and the number of entries between the two counters is their wrapped difference.
The size of the ring is a power of two, so that consecutive counters have different slots, also
across the wrap.

## Main definitions

* `RingSize`, `RingSize.slot`, `RingSize.slots`.
* `Window`: the entries between two counters are those of a list.

## Main results

* `RingSize.nodup_slots`: the slots of a window are distinct.
* `Window.push`, `Window.pop`, `Window.append_iff`: the operations.
* `Window.length_eq`, `Window.lt_entries_iff`, `Window.head_eq_tail_iff`: what the code computes
  from the counters.
-/

namespace MojitoSys.Util

/-- The size of a ring. -/
structure RingSize (w : ℕ) where
  entries : BitVec w
  mask : BitVec w
  pow_two : ∃ k, entries.toNat = 2 ^ k
  mask_eq : mask = entries - 1

namespace RingSize

variable {w : ℕ} (z : RingSize w)

/-- The slot of the entry at a counter. -/
def slot (c : BitVec w) : BitVec w := c &&& z.mask

/-- The slots of the `n` entries from a counter on. -/
def slots (c : BitVec w) (n : ℕ) : List (BitVec w) :=
  (List.range n).map fun i => z.slot (c + BitVec.ofNat w i)

variable {z} {c : BitVec w}

theorem entries_pos : 0 < z.entries.toNat := by
  obtain ⟨k, hk⟩ := z.pow_two
  rw [hk]
  exact Nat.two_pow_pos k

theorem entries_dvd : z.entries.toNat ∣ 2 ^ w := by
  obtain ⟨k, hk⟩ := z.pow_two
  have hlt : 2 ^ k < 2 ^ w := hk ▸ z.entries.isLt
  rw [hk]
  exact Nat.pow_dvd_pow 2 ((Nat.pow_lt_pow_iff_right (by decide)).mp hlt).le

theorem toNat_slot (c : BitVec w) : (z.slot c).toNat = c.toNat % z.entries.toNat := by
  obtain ⟨k, hk⟩ := z.pow_two
  have hne : z.entries ≠ 0 := fun h0 => by
    have hpos := z.entries_pos
    simp [h0] at hpos
  have hmask : z.mask.toNat = 2 ^ k - 1 := by rw [z.mask_eq, toNat_sub_one hne, hk]
  rw [slot, BitVec.toNat_and, hmask, Nat.and_two_pow_sub_one_eq_mod, hk]

/-- Different entries of a window have different slots. -/
theorem slot_add_inj {i j : ℕ} (hi : i < z.entries.toNat) (hj : j < z.entries.toNat)
    (h : z.slot (c + BitVec.ofNat w i) = z.slot (c + BitVec.ofNat w j)) : i = j := by
  have hmod (n : ℕ) : (z.slot (c + BitVec.ofNat w n)).toNat = (c.toNat + n) % z.entries.toNat := by
    rw [toNat_slot, BitVec.toNat_add, BitVec.toNat_ofNat, Nat.add_mod_mod,
      Nat.mod_mod_of_dvd _ entries_dvd]
  have heq : c.toNat + i ≡ c.toNat + j [MOD z.entries.toNat] :=
    (hmod i).symm.trans ((congrArg BitVec.toNat h).trans (hmod j))
  exact (Nat.ModEq.add_left_cancel' c.toNat heq).eq_of_lt_of_lt hi hj

/-- The slots of a window are distinct. -/
theorem nodup_slots {n : ℕ} (hn : n ≤ z.entries.toNat) : (z.slots c n).Nodup := by
  refine List.Nodup.map_on (fun i hi j hj h => ?_) List.nodup_range
  exact slot_add_inj ((List.mem_range.mp hi).trans_le hn) ((List.mem_range.mp hj).trans_le hn) h

theorem length_slots (n : ℕ) : (z.slots c n).length = n := by simp [slots]

theorem getElem?_slots {i n : ℕ} (hi : i < n) :
    (z.slots c n)[i]? = some (z.slot (c + BitVec.ofNat w i)) := by
  simp [slots, hi]

theorem slots_succ (n : ℕ) :
    z.slots c (n + 1) = z.slots c n ++ [z.slot (c + BitVec.ofNat w n)] := by
  simp [slots, List.range_succ]

theorem slots_one : z.slots c 1 = [z.slot c] := by simp [slots]

theorem add_ofNat_add (c : BitVec w) (m n : ℕ) :
    c + BitVec.ofNat w m + BitVec.ofNat w n = c + BitVec.ofNat w (m + n) := by
  rw [BitVec.add_assoc, BitVec.ofNat_add]

theorem add_ofNat_succ (c : BitVec w) (n : ℕ) :
    c + BitVec.ofNat w (n + 1) = c + 1 + BitVec.ofNat w n := by
  rw [Nat.add_comm, ← add_ofNat_add]
  rfl

theorem slots_add (m n : ℕ) :
    z.slots c (m + n) = z.slots c m ++ z.slots (c + BitVec.ofNat w m) n := by
  simp [slots, List.range_add, add_ofNat_add]

theorem slots_succ_eq_cons (n : ℕ) : z.slots c (n + 1) = z.slot c :: z.slots (c + 1) n := by
  rw [Nat.add_comm, slots_add, slots_one]
  rfl

end RingSize

/-! ### Windows -/

/-- The entries between two counters are those of a list, in this order. -/
structure Window {w : ℕ} {α : Type*} (z : RingSize w) (mem : BitVec w → α) (head tail : BitVec w)
    (xs : List α) : Prop where
  tail_eq : tail = head + BitVec.ofNat w xs.length
  length_le : xs.length ≤ z.entries.toNat
  read : (z.slots head xs.length).map mem = xs

namespace Window

variable {w : ℕ} {α : Type*} {z : RingSize w} {mem : BitVec w → α} {head tail : BitVec w}
  {x : α} {xs ys : List α}

/-- The wrapped difference of the counters is the number of the entries. -/
theorem length_eq (h : Window z mem head tail xs) : (tail - head).toNat = xs.length := by
  have hlt : xs.length < 2 ^ w := h.length_le.trans_lt z.entries.isLt
  rw [h.tail_eq, BitVec.add_comm, BitVec.add_sub_cancel, BitVec.toNat_ofNat, Nat.mod_eq_of_lt hlt]

/-- The test for room. -/
theorem lt_entries_iff (h : Window z mem head tail xs) :
    tail - head < z.entries ↔ xs.length < z.entries.toNat := by
  rw [BitVec.lt_def, h.length_eq]

/-- The test for an empty window. -/
theorem sub_eq_zero_iff (h : Window z mem head tail xs) : tail - head = 0 ↔ xs = [] := by
  rw [← BitVec.toNat_inj, h.length_eq]
  simp

theorem head_eq_tail_iff (h : Window z mem head tail xs) : head = tail ↔ xs = [] := by
  rw [← h.sub_eq_zero_iff]
  constructor
  · rintro rfl
    simp
  · intro h0
    exact (sub_eq_zero.mp h0).symm

theorem empty (mem : BitVec w → α) (head : BitVec w) : Window z mem head head [] where
  tail_eq := by simp
  length_le := Nat.zero_le _
  read := rfl

/-- A store to a slot outside of the window. -/
theorem congr {mem' : BitVec w → α} (h : Window z mem head tail xs)
    (hmem : ∀ s ∈ z.slots head xs.length, mem' s = mem s) : Window z mem' head tail xs where
  tail_eq := h.tail_eq
  length_le := h.length_le
  read := (List.map_congr_left hmem).trans h.read

/-- A window in two parts. -/
theorem append_iff : Window z mem head tail (xs ++ ys) ↔
    (xs ++ ys).length ≤ z.entries.toNat ∧
      Window z mem head (head + BitVec.ofNat w xs.length) xs ∧
      Window z mem (head + BitVec.ofNat w xs.length) tail ys := by
  constructor
  · intro h
    have hread := h.read
    rw [List.length_append, RingSize.slots_add, List.map_append] at hread
    obtain ⟨hxs, hys⟩ := List.append_inj hread (by simp [RingSize.length_slots])
    have hle := h.length_le
    rw [List.length_append] at hle
    refine ⟨h.length_le, ⟨rfl, by omega, hxs⟩, ⟨?_, by omega, hys⟩⟩
    rw [h.tail_eq, List.length_append, RingSize.add_ofNat_add]
  · rintro ⟨hle, hxs, hys⟩
    refine ⟨?_, hle, ?_⟩
    · rw [hys.tail_eq, List.length_append, RingSize.add_ofNat_add]
    · rw [List.length_append, RingSize.slots_add, List.map_append, hxs.read, hys.read]

/-- The first entry is read and leaves the window. -/
theorem pop (h : Window z mem head tail (x :: xs)) :
    mem (z.slot head) = x ∧ Window z mem (head + 1) tail xs := by
  have happ : Window z mem head tail ([x] ++ xs) := h
  obtain ⟨-, hx, hxs⟩ := append_iff.mp happ
  have hread := hx.read
  simp only [List.length_singleton, RingSize.slots_one, List.map_singleton] at hread
  exact ⟨List.singleton_inj.mp hread, hxs⟩

/-- A new entry is written to the slot of the tail. -/
theorem push (h : Window z mem head tail xs) (hroom : xs.length < z.entries.toNat) (x : α) :
    Window z (Function.update mem (z.slot tail) x) head (tail + 1) (xs ++ [x]) := by
  have hnodup : (z.slots head (xs.length + 1)).Nodup := RingSize.nodup_slots hroom
  rw [RingSize.slots_succ, ← h.tail_eq] at hnodup
  have hfresh : z.slot tail ∉ z.slots head xs.length := fun hmem =>
    (List.nodup_append.mp hnodup).2.2 _ hmem _ (List.mem_singleton_self _) rfl
  refine append_iff.mpr ⟨by simpa using Nat.succ_le_of_lt hroom, ?_, ?_⟩
  · rw [← h.tail_eq]
    refine h.congr fun s hs => Function.update_of_ne ?_ x mem
    exact ne_of_mem_of_not_mem hs hfresh
  · rw [← h.tail_eq]
    exact ⟨rfl, Nat.succ_le_of_lt RingSize.entries_pos, by simp [RingSize.slots_one]⟩

/-- The entries of the window in memory. -/
theorem mem_slot (h : Window z mem head tail xs) {i : ℕ} (hx : xs[i]? = some x) :
    mem (z.slot (head + BitVec.ofNat w i)) = x := by
  obtain ⟨hi, -⟩ := List.getElem?_eq_some_iff.mp hx
  rw [← h.read, List.getElem?_map] at hx
  simpa [RingSize.slots, hi] using hx

/-- The last entry is written again. -/
theorem write_last {y : α} (h : Window z mem head tail (xs ++ [y])) (x : α) :
    Window z (Function.update mem (z.slot (head + BitVec.ofNat w xs.length)) x) head tail
      (xs ++ [x]) := by
  obtain ⟨hle, hxs, hy⟩ := append_iff.mp h
  have htail : tail = head + BitVec.ofNat w xs.length + 1 := hy.tail_eq
  rw [htail]
  exact hxs.push (Nat.lt_of_succ_le (by simpa using hle)) x

end Window

end MojitoSys.Util
