import Mathlib.Algebra.Group.Nat.Defs
import Mathlib.Data.List.Basic
import Mathlib.Logic.Function.Basic
import Mathlib.Tactic.Common

/-!
# Byte buffers

A buffer is the memory around the start of an object, byte by byte from that start on; it does not
end where the object ends, so that an access beyond the object has a meaning. Copy loops store and
load lists of bytes at an offset. Strings end at the first zero byte. Integers of two and four bytes
are packed with shifts, in either byte order.

## Main definitions

* `Buffer`, `Buffer.store`, `Buffer.load`.
* `Buffer.storeAll`, `Buffer.FieldsApart`: the fields of a record.
* `Buffer.strnlen`, `Buffer.stringAt`, `Buffer.IsCString`.
* `le16`, `le32`, `ofLe16`, `ofLe32`: the packing of integers.

## Main results

* `Buffer.load_store`, `Buffer.load_store_of_disjoint`: what a load finds after a store.
* `Buffer.load_storeAll`: the fields of a record can be read back.
* `Buffer.storeAll_load`: a copy of ranges.
* `Buffer.stringAt_store`: the string of stored bytes.
* `Buffer.IsCString.unique`: a buffer holds one string.
* `ofLe16_bytes`, `ofLe32_bytes`, `le16_ofLe16`, `le32_ofLe32`: the packing loses nothing.
-/

namespace MojitoSys.Util

/-- The bytes of the memory from the start of an object on. -/
abbrev Buffer := ℕ → UInt8

namespace Buffer

/-- Store bytes one after the other. -/
def store (m : Buffer) (off : ℕ) : List UInt8 → Buffer
  | [] => m
  | b :: bs => store (Function.update m off b) (off + 1) bs

/-- The `n` bytes at an offset. -/
def load (m : Buffer) (off n : ℕ) : List UInt8 := (List.range n).map fun i => m (off + i)

variable {m m' : Buffer} {off : ℕ} {bs cs : List UInt8}

theorem store_of_disjoint {i : ℕ} (h : i < off ∨ off + bs.length ≤ i) : store m off bs i = m i := by
  induction bs generalizing m off with
  | nil => rfl
  | cons b bs ih =>
    rw [List.length_cons] at h
    rw [store, ih (by omega), Function.update_of_ne (by omega)]

theorem store_add {i : ℕ} (h : i < bs.length) : store m off bs (off + i) = bs[i] := by
  induction bs generalizing m off i with
  | nil => simp at h
  | cons b bs ih =>
    cases i with
    | zero =>
      rw [store, store_of_disjoint (by omega), Nat.add_zero, Function.update_self,
        List.getElem_cons_zero]
    | succ i =>
      rw [store, show off + (i + 1) = off + 1 + i by omega, ih (Nat.lt_of_succ_lt_succ h),
        List.getElem_cons_succ]

theorem store_singleton_self {b : UInt8} : store m off [b] off = b := store_add (i := 0) (by simp)

/-- A `memset`. -/
theorem store_replicate {b : UInt8} {n i : ℕ} (h : i < n) :
    store m 0 (List.replicate n b) i = b := by
  have hlt : i < (List.replicate n b).length := by rwa [List.length_replicate]
  rw [← Nat.zero_add i, store_add hlt, List.getElem_replicate]

theorem store_append : store m off (bs ++ cs) = store (store m off bs) (off + bs.length) cs := by
  induction bs generalizing m off with
  | nil => rfl
  | cons b bs ih =>
    rw [List.cons_append, store, store, ih, List.length_cons, Nat.add_right_comm, Nat.add_assoc]

/-- A loop that stores one byte after the other. -/
theorem foldl_update (f : ℕ → UInt8) (m : Buffer) (n : ℕ) :
    (List.range n).foldl (fun c i => Function.update c i (f i)) m =
      store m 0 ((List.range n).map f) := by
  induction n with
  | zero => rfl
  | succ n ih =>
    rw [List.range_succ, List.foldl_append, List.map_append, store_append, ih, List.length_map,
      List.length_range, Nat.zero_add]
    rfl

@[simp]
theorem length_load (n : ℕ) : (load m off n).length = n := by simp [load]

/-- A shorter load at the same offset. -/
theorem take_load {k n : ℕ} (h : k ≤ n) : (load m off n).take k = load m off k := by
  rw [load, ← List.map_take, List.take_range, Nat.min_eq_left h, load]

theorem load_succ (n : ℕ) : load m off (n + 1) = m off :: load m (off + 1) n := by
  rw [load, List.range_succ_eq_map, List.map_cons, List.map_map, load]
  refine congrArg (m off :: ·) (List.map_congr_left fun i _ => congrArg m ?_)
  rw [Nat.succ_eq_add_one]
  omega

theorem load_eq_iff {n : ℕ} (h : bs.length = n) :
    load m off n = bs ↔ ∀ (i : ℕ) (hi : i < bs.length), m (off + i) = bs[i] := by
  subst h
  rw [List.ext_getElem_iff]
  simp [load]

theorem load_store : load (store m off bs) off bs.length = bs :=
  (load_eq_iff rfl).mpr fun _ hi => store_add hi

theorem load_store_of_disjoint {off' n : ℕ} (h : off' + n ≤ off ∨ off + bs.length ≤ off') :
    load (store m off bs) off' n = load m off' n := by
  rw [load, load]
  refine List.map_congr_left fun i hi => store_of_disjoint ?_
  rw [List.mem_range] at hi
  omega

/-! ### Fields -/

/-- Store the fields of a record, each at its offset. -/
def storeAll (m : Buffer) (fs : List (ℕ × List UInt8)) : Buffer :=
  fs.foldl (fun m f => m.store f.1 f.2) m

/-- Two fields have no byte in common. -/
def FieldsApart (f g : ℕ × List UInt8) : Prop :=
  f.1 + f.2.length ≤ g.1 ∨ g.1 + g.2.length ≤ f.1

section Fields

variable {f : ℕ × List UInt8} {fs : List (ℕ × List UInt8)}

theorem storeAll_of_disjoint {i : ℕ} (h : ∀ f ∈ fs, i < f.1 ∨ f.1 + f.2.length ≤ i) :
    storeAll m fs i = m i := by
  induction fs generalizing m with
  | nil => rfl
  | cons f fs ih =>
    rw [List.forall_mem_cons] at h
    rw [storeAll, List.foldl_cons, ← storeAll, ih h.2, store_of_disjoint h.1]

theorem load_storeAll_of_apart (h : ∀ g ∈ fs, FieldsApart f g) :
    load (storeAll m fs) f.1 f.2.length = load m f.1 f.2.length := by
  rw [load, load]
  refine List.map_congr_left fun i hi => storeAll_of_disjoint fun g hg => ?_
  have hfg := h g hg
  rw [List.mem_range] at hi
  rw [FieldsApart] at hfg
  omega

/-- A field that is apart from the others can be read back. -/
theorem load_storeAll (h : fs.Pairwise FieldsApart) (hf : f ∈ fs) :
    load (storeAll m fs) f.1 f.2.length = f.2 := by
  induction fs generalizing m with
  | nil => simp at hf
  | cons g fs ih =>
    rw [List.pairwise_cons] at h
    rcases List.mem_cons.mp hf with rfl | hf
    · rw [storeAll, List.foldl_cons, ← storeAll, load_storeAll_of_apart h.1, load_store]
    · exact ih h.2 hf

/-- Copying ranges of one buffer into another at the same offsets. -/
theorem storeAll_load (m z : Buffer) (rs : List (ℕ × ℕ)) (i : ℕ) :
    storeAll z (rs.map fun r => (r.1, load m r.1 r.2)) i =
      if ∃ r ∈ rs, r.1 ≤ i ∧ i < r.1 + r.2 then m i else z i := by
  induction rs generalizing z with
  | nil => simp [storeAll]
  | cons r rs ih =>
    rw [List.map_cons, storeAll, List.foldl_cons, ← storeAll, ih]
    simp only [List.exists_mem_cons_iff]
    by_cases hrs : ∃ r ∈ rs, r.1 ≤ i ∧ i < r.1 + r.2
    · rw [if_pos hrs, if_pos (Or.inr hrs)]
    · rw [if_neg hrs]
      by_cases hr : r.1 ≤ i ∧ i < r.1 + r.2
      · obtain ⟨k, rfl⟩ := Nat.exists_eq_add_of_le hr.1
        have hk : k < (load m r.1 r.2).length := by
          rw [length_load]
          omega
        rw [if_pos (Or.inl hr), store_add hk]
        simp [load]
      · rw [if_neg (not_or.mpr ⟨hr, hrs⟩), store_of_disjoint]
        rw [length_load]
        omega

end Fields

/-! ### Strings -/

/-- The number of bytes before the first zero byte, at most `cap`. -/
def strnlen (m : Buffer) (off : ℕ) : ℕ → ℕ
  | 0 => 0
  | cap + 1 => if m off = 0 then 0 else strnlen m (off + 1) cap + 1

/-- The string at the start of a buffer that has a zero byte among its first `cap` bytes. -/
def stringAt (m : Buffer) (cap : ℕ) : List UInt8 := m.load 0 (m.strnlen 0 cap)

/-- The bytes at the offset are `bs` and one zero byte after them. -/
structure IsCString (m : Buffer) (off : ℕ) (bs : List UInt8) : Prop where
  bytes : load m off bs.length = bs
  noNul : 0 ∉ bs
  nul : m (off + bs.length) = 0

theorem isCString_cons {b : UInt8} :
    IsCString m off (b :: bs) ↔ m off = b ∧ b ≠ 0 ∧ IsCString m (off + 1) bs := by
  have hnul : off + (b :: bs).length = off + 1 + bs.length := by
    rw [List.length_cons]
    omega
  constructor
  · intro h
    have hbytes := h.bytes
    rw [List.length_cons, load_succ, List.cons.injEq] at hbytes
    have hmem := h.noNul
    rw [List.mem_cons, not_or] at hmem
    exact ⟨hbytes.1, Ne.symm hmem.1, hbytes.2, hmem.2, hnul ▸ h.nul⟩
  · rintro ⟨hb, hne, h⟩
    refine ⟨?_, ?_, hnul ▸ h.nul⟩
    · rw [List.length_cons, load_succ, hb, h.bytes]
    · rw [List.mem_cons, not_or]
      exact ⟨Ne.symm hne, h.noNul⟩

theorem strnlen_le (m : Buffer) (off cap : ℕ) : strnlen m off cap ≤ cap := by
  induction cap generalizing off with
  | zero => exact Nat.le_refl 0
  | succ cap ih =>
    have := ih (off + 1)
    rw [strnlen]
    split_ifs <;> omega

theorem ne_zero_of_lt_strnlen {cap i : ℕ} (h : i < strnlen m off cap) : m (off + i) ≠ 0 := by
  induction cap generalizing off i with
  | zero => exact absurd h (Nat.not_lt_zero i)
  | succ cap ih =>
    rw [strnlen] at h
    split_ifs at h with h0
    · exact absurd h (Nat.not_lt_zero i)
    · cases i with
      | zero => exact h0
      | succ i =>
        have hi := ih (Nat.lt_of_succ_lt_succ h)
        rwa [Nat.add_right_comm, Nat.add_assoc] at hi

theorem eq_zero_of_strnlen_lt {cap : ℕ} (h : strnlen m off cap < cap) :
    m (off + strnlen m off cap) = 0 := by
  induction cap generalizing off with
  | zero => exact absurd h (Nat.not_lt_zero _)
  | succ cap ih =>
    rw [strnlen] at h ⊢
    split_ifs at h ⊢ with h0
    · exact h0
    · have hcap := ih (Nat.lt_of_succ_lt_succ h)
      rwa [Nat.add_right_comm, Nat.add_assoc] at hcap

/-- The length is the capacity exactly when no byte is zero. -/
theorem strnlen_eq_iff {cap : ℕ} : strnlen m off cap = cap ↔ ∀ i < cap, m (off + i) ≠ 0 := by
  constructor
  · intro h i hi
    exact ne_zero_of_lt_strnlen (h ▸ hi)
  · intro h
    by_contra hne
    have hlt := Nat.lt_of_le_of_ne (strnlen_le m off cap) hne
    exact h _ hlt (eq_zero_of_strnlen_lt hlt)

/-- The string of some bytes with a zero byte after them ends at their first zero byte. -/
theorem load_strnlen {cap : ℕ} (h : load m off (bs.length + 1) = bs ++ [0])
    (hcap : bs.length < cap) : load m off (strnlen m off cap) = bs.takeWhile (· ≠ 0) := by
  induction bs generalizing off cap with
  | nil =>
    obtain ⟨cap, rfl⟩ := Nat.exists_eq_succ_of_ne_zero (Nat.ne_of_gt hcap)
    have hnul : m off = 0 := (List.cons.inj h).1
    rw [strnlen, if_pos hnul]
    rfl
  | cons b bs ih =>
    obtain ⟨cap, rfl⟩ := Nat.exists_eq_succ_of_ne_zero (Nat.ne_of_gt (Nat.zero_lt_of_lt hcap))
    rw [List.length_cons, load_succ, List.cons_append] at h
    obtain ⟨hb, htail⟩ := List.cons.inj h
    rw [strnlen]
    by_cases h0 : m off = 0
    · rw [if_pos h0, List.takeWhile_cons_of_neg (by simp [← hb, h0])]
      rfl
    · rw [if_neg h0, load_succ, ih htail (Nat.lt_of_succ_lt_succ hcap),
        List.takeWhile_cons_of_pos (by simp [← hb, h0]), hb]

/-- The string of bytes that were stored with a zero byte after them. -/
theorem stringAt_store {cap : ℕ} (h : bs.length < cap) :
    stringAt (store (store m 0 bs) bs.length [0]) cap = bs.takeWhile (· ≠ 0) := by
  have hstore : store (store m 0 bs) bs.length [0] = store m 0 (bs ++ [0]) := by
    rw [store_append, Nat.zero_add]
  rw [hstore, stringAt]
  refine load_strnlen ?_ h
  rw [← List.length_singleton (a := (0 : UInt8)), ← List.length_append]
  exact load_store

/-- A buffer holds one string. -/
theorem IsCString.unique (h : IsCString m off bs) (h' : IsCString m off cs) : bs = cs := by
  have hle {bs cs : List UInt8} (h : IsCString m off bs) (h' : IsCString m off cs) :
      cs.length ≤ bs.length := by
    by_contra hlt
    have hb := (load_eq_iff rfl).mp h'.bytes bs.length (Nat.not_le.mp hlt)
    rw [h.nul] at hb
    exact h'.noNul (hb ▸ List.getElem_mem _)
  rw [← h.bytes, ← h'.bytes, Nat.le_antisymm (hle h h') (hle h' h)]

end Buffer

/-! ### Integers -/

/-- The two bytes of an integer, the lowest first. -/
def le16 (v : UInt16) : List UInt8 := [(v &&& 0xFF).toUInt8, ((v >>> 8) &&& 0xFF).toUInt8]

/-- The four bytes of an integer, the lowest first. -/
def le32 (v : UInt32) : List UInt8 :=
  [(v &&& 0xFF).toUInt8, ((v >>> 8) &&& 0xFF).toUInt8, ((v >>> 16) &&& 0xFF).toUInt8,
    ((v >>> 24) &&& 0xFF).toUInt8]

/-- The four bytes of an integer, the highest first. -/
def be32 (v : UInt32) : List UInt8 :=
  [((v >>> 24) &&& 0xFF).toUInt8, ((v >>> 16) &&& 0xFF).toUInt8, ((v >>> 8) &&& 0xFF).toUInt8,
    (v &&& 0xFF).toUInt8]

/-- The integer of two bytes, the lowest first. -/
def ofLe16 (b0 b1 : UInt8) : UInt16 := b0.toUInt16 ||| (b1.toUInt16 <<< 8)

/-- The integer of four bytes, the lowest first. -/
def ofLe32 (b0 b1 b2 b3 : UInt8) : UInt32 :=
  b0.toUInt32 ||| (b1.toUInt32 <<< 8) ||| (b2.toUInt32 <<< 16) ||| (b3.toUInt32 <<< 24)

/-- The integer of four bytes, the highest first. -/
def ofBe32 (b0 b1 b2 b3 : UInt8) : UInt32 :=
  (b0.toUInt32 <<< 24) ||| (b1.toUInt32 <<< 16) ||| (b2.toUInt32 <<< 8) ||| b3.toUInt32

@[simp]
theorem length_le16 (v : UInt16) : (le16 v).length = 2 := rfl

@[simp]
theorem length_le32 (v : UInt32) : (le32 v).length = 4 := rfl

@[simp]
theorem length_be32 (v : UInt32) : (be32 v).length = 4 := rfl

/-- Two parts of a number that have no bit in common. -/
theorem or_shiftLeft_of_lt {a k : ℕ} (h : a < 2 ^ k) (b : ℕ) : a ||| b <<< k = a + b * 2 ^ k := by
  rw [Nat.or_comm, ← Nat.shiftLeft_add_eq_or_of_lt h, Nat.shiftLeft_eq, Nat.add_comm]

theorem toNat_shiftLeft_byte (b : UInt8) {k : UInt32} (hk : k.toNat ≤ 24) :
    (b.toUInt32 <<< k).toNat = b.toNat <<< k.toNat := by
  have hb : b.toNat * 2 ^ k.toNat < 2 ^ 32 :=
    calc b.toNat * 2 ^ k.toNat < 2 ^ 8 * 2 ^ k.toNat :=
          Nat.mul_lt_mul_of_pos_right b.toNat_lt (Nat.two_pow_pos _)
      _ ≤ 2 ^ 8 * 2 ^ 24 := Nat.mul_le_mul_left _ (Nat.pow_le_pow_right (by decide) hk)
  rw [UInt32.toNat_shiftLeft, UInt8.toNat_toUInt32, Nat.mod_eq_of_lt (b := 32) (by omega),
    Nat.shiftLeft_eq, Nat.mod_eq_of_lt hb]

theorem toNat_ofLe16 (b0 b1 : UInt8) : (ofLe16 b0 b1).toNat = b0.toNat + b1.toNat * 2 ^ 8 := by
  have h0 := b0.toNat_lt
  have h1 := b1.toNat_lt
  have hshift : (b1.toUInt16 <<< 8).toNat = b1.toNat <<< 8 := by
    rw [UInt16.toNat_shiftLeft, UInt8.toNat_toUInt16]
    change b1.toNat <<< 8 % 2 ^ 16 = _
    rw [Nat.shiftLeft_eq, Nat.mod_eq_of_lt (by omega)]
  rw [ofLe16, UInt16.toNat_or, hshift, UInt8.toNat_toUInt16, or_shiftLeft_of_lt h0]

theorem toNat_ofLe32 (b0 b1 b2 b3 : UInt8) : (ofLe32 b0 b1 b2 b3).toNat =
    b0.toNat + b1.toNat * 2 ^ 8 + b2.toNat * 2 ^ 16 + b3.toNat * 2 ^ 24 := by
  have h0 := b0.toNat_lt
  have h1 := b1.toNat_lt
  have h2 := b2.toNat_lt
  rw [ofLe32, UInt32.toNat_or, UInt32.toNat_or, UInt32.toNat_or,
    toNat_shiftLeft_byte b1 (by decide), toNat_shiftLeft_byte b2 (by decide),
    toNat_shiftLeft_byte b3 (by decide), UInt8.toNat_toUInt32]
  change b0.toNat ||| b1.toNat <<< 8 ||| b2.toNat <<< 16 ||| b3.toNat <<< 24 = _
  rw [or_shiftLeft_of_lt h0, or_shiftLeft_of_lt (k := 16) (by omega),
    or_shiftLeft_of_lt (k := 24) (by omega)]

theorem ofBe32_eq (b0 b1 b2 b3 : UInt8) : ofBe32 b0 b1 b2 b3 = ofLe32 b3 b2 b1 b0 := by
  rw [ofBe32, ofLe32, UInt32.or_comm _ b3.toUInt32, UInt32.or_comm _ (b2.toUInt32 <<< 8),
    UInt32.or_comm _ (b1.toUInt32 <<< 16), UInt32.or_assoc, UInt32.or_assoc]

theorem toNat_lowByte16 (v : UInt16) : (v &&& 0xFF).toUInt8.toNat = v.toNat % 2 ^ 8 := by
  rw [UInt16.toNat_toUInt8, UInt16.toNat_and]
  change (_ &&& (2 ^ 8 - 1)) % _ = _
  rw [Nat.and_two_pow_sub_one_eq_mod, Nat.mod_mod]

theorem toNat_lowByte32 (v : UInt32) : (v &&& 0xFF).toUInt8.toNat = v.toNat % 2 ^ 8 := by
  rw [UInt32.toNat_toUInt8, UInt32.toNat_and]
  change (_ &&& (2 ^ 8 - 1)) % _ = _
  rw [Nat.and_two_pow_sub_one_eq_mod, Nat.mod_mod]

theorem toNat_shiftRight8 (v : UInt16) : (v >>> 8).toNat = v.toNat / 2 ^ 8 := by
  rw [UInt16.toNat_shiftRight, Nat.shiftRight_eq_div_pow]
  rfl

theorem toNat_shiftRight32 (v : UInt32) : (v >>> 8).toNat = v.toNat / 2 ^ 8 ∧
    (v >>> 16).toNat = v.toNat / 2 ^ 16 ∧ (v >>> 24).toNat = v.toNat / 2 ^ 24 := by
  simp only [UInt32.toNat_shiftRight, Nat.shiftRight_eq_div_pow]
  exact ⟨rfl, rfl, rfl⟩

/-- Reading back the two bytes of an integer. -/
theorem ofLe16_bytes (v : UInt16) :
    ofLe16 (v &&& 0xFF).toUInt8 ((v >>> 8) &&& 0xFF).toUInt8 = v := by
  have hv := v.toNat_lt
  have h8 := toNat_shiftRight8 v
  rw [← UInt16.toNat_inj, toNat_ofLe16, toNat_lowByte16, toNat_lowByte16]
  omega

/-- Reading back the four bytes of an integer. -/
theorem ofLe32_bytes (v : UInt32) : ofLe32 (v &&& 0xFF).toUInt8 ((v >>> 8) &&& 0xFF).toUInt8
    ((v >>> 16) &&& 0xFF).toUInt8 ((v >>> 24) &&& 0xFF).toUInt8 = v := by
  have hv := v.toNat_lt
  obtain ⟨h8, h16, h24⟩ := toNat_shiftRight32 v
  rw [← UInt32.toNat_inj, toNat_ofLe32]
  simp only [toNat_lowByte32]
  omega

/-- The bytes of an integer that was read from two bytes. -/
theorem le16_ofLe16 (b0 b1 : UInt8) : le16 (ofLe16 b0 b1) = [b0, b1] := by
  have h0 := b0.toNat_lt
  have h1 := b1.toNat_lt
  have hv := toNat_ofLe16 b0 b1
  have h8 := toNat_shiftRight8 (ofLe16 b0 b1)
  simp only [le16, List.cons.injEq, and_true, ← UInt8.toNat_inj, toNat_lowByte16]
  omega

/-- The bytes of an integer that was read from four bytes. -/
theorem le32_ofLe32 (b0 b1 b2 b3 : UInt8) : le32 (ofLe32 b0 b1 b2 b3) = [b0, b1, b2, b3] := by
  have h0 := b0.toNat_lt
  have h1 := b1.toNat_lt
  have h2 := b2.toNat_lt
  have h3 := b3.toNat_lt
  have hv := toNat_ofLe32 b0 b1 b2 b3
  obtain ⟨h8, h16, h24⟩ := toNat_shiftRight32 (ofLe32 b0 b1 b2 b3)
  simp only [le32, List.cons.injEq, and_true, ← UInt8.toNat_inj, toNat_lowByte32]
  omega

end MojitoSys.Util
