import Mathlib.Logic.Function.Basic
import Mathlib.Tactic.Common

/-!
# Byte-addressed memory with 64-bit little-endian words

A memory is a function from 64-bit addresses to bytes. Words of eight bytes are read and written
at any address, aligned or not, so that two accesses may overlap; addresses wrap around modulo
`2 ^ 64`. Two words are *apart* when neither address lies in the eight bytes of the other, and
then a write to one does not change the other (`readWord_writeWord_of_apart`). An area of `n`
bytes is named by its base, and a write of a word inside one area leaves an area apart from it
unchanged (`AgreeOn`).

## Main definitions

* `ByteMemory`, `readWord`, `writeWord`.
* `Apart`: two words have no byte in common.
* `AreasApart`: two areas of `n` bytes have no byte in common.
* `AgreeOn`: two memories agree on an area.

## Main results

* `readWord_writeWord_self`, `readWord_writeWord_of_apart`.
* `readWord_writeWord_add_of_le`: two words of one area at offsets at least eight apart.
* `AreasApart.apart`: words inside two areas that are apart are apart.
* `AgreeOn.readWord`: memories that agree on an area hold the same words there.
-/

namespace MojitoSys.Util

/-- A memory of bytes with 64-bit addresses. -/
abbrev ByteMemory := BitVec 64 → BitVec 8

/-- The little-endian word of eight bytes at `a`. -/
def readWord (m : ByteMemory) (a : BitVec 64) : BitVec 64 :=
  m (a + 7) ++ m (a + 6) ++ m (a + 5) ++ m (a + 4) ++ m (a + 3) ++ m (a + 2) ++ m (a + 1) ++ m a

/-- The memory `m` with the eight bytes at `a` replaced by those of `v`. -/
def writeWord (m : ByteMemory) (a v : BitVec 64) : ByteMemory :=
  fun b => if (b - a).toNat < 8 then v.extractLsb' (8 * (b - a).toNat) 8 else m b

/-- The words at `a` and `b` have no byte in common. -/
def Apart (a b : BitVec 64) : Prop := 8 ≤ (a - b).toNat ∧ 8 ≤ (b - a).toNat

/-- The areas of `n` bytes at `p` and `q` have no byte in common. -/
def AreasApart (n : ℕ) (p q : BitVec 64) : Prop := n ≤ (p - q).toNat ∧ n ≤ (q - p).toNat

/-- The memories `m` and `m'` agree on the `n` bytes at `p`. -/
def AgreeOn (n : ℕ) (p : BitVec 64) (m m' : ByteMemory) : Prop :=
  ∀ a, (a - p).toNat < n → m' a = m a

instance (a b : BitVec 64) : Decidable (Apart a b) := inferInstanceAs (Decidable (_ ∧ _))

instance (n : ℕ) (p q : BitVec 64) : Decidable (AreasApart n p q) :=
  inferInstanceAs (Decidable (_ ∧ _))

theorem AreasApart.symm {n : ℕ} {p q : BitVec 64} (h : AreasApart n p q) : AreasApart n q p :=
  ⟨h.2, h.1⟩

/-- The low four bits of a word are zero exactly when it is a multiple of sixteen. -/
theorem and_fifteen_eq_zero_iff {w : BitVec 64} : w &&& 15 = 0 ↔ w.toNat % 16 = 0 := by
  rw [← BitVec.toNat_inj, BitVec.toNat_and]
  exact Eq.congr (Nat.and_two_pow_sub_one_eq_mod w.toNat 4) rfl

/-! ### Reading back a write -/

theorem writeWord_apply_of_lt (m : ByteMemory) (a v : BitVec 64) {k : ℕ} (hk : k < 8) :
    writeWord m a v (a + BitVec.ofNat 64 k) = v.extractLsb' (8 * k) 8 := by
  have h : (a + BitVec.ofNat 64 k - a).toNat = k := by
    rw [BitVec.add_comm, BitVec.add_sub_cancel, BitVec.toNat_ofNat]
    omega
  simp only [writeWord, h, hk, ↓reduceIte]

/-- A word is the concatenation of its eight bytes. -/
theorem append_extractLsb'_bytes (v : BitVec 64) :
    v.extractLsb' 56 8 ++ v.extractLsb' 48 8 ++ v.extractLsb' 40 8 ++ v.extractLsb' 32 8 ++
      v.extractLsb' 24 8 ++ v.extractLsb' 16 8 ++ v.extractLsb' 8 8 ++ v.extractLsb' 0 8 = v := by
  apply BitVec.eq_of_getLsbD_eq
  intro i hi
  simp only [BitVec.getLsbD_append, BitVec.getLsbD_extractLsb']
  split_ifs <;>
    rw [decide_eq_true (by omega), Bool.true_and] <;>
    exact congrArg _ (by omega)

@[simp] theorem readWord_writeWord_self (m : ByteMemory) (a v : BitVec 64) :
    readWord (writeWord m a v) a = v := by
  have h0 : writeWord m a v a = v.extractLsb' 0 8 := by
    have h := writeWord_apply_of_lt m a v (k := 0) (by decide)
    rwa [BitVec.add_zero] at h
  have h1 : writeWord m a v (a + 1) = v.extractLsb' 8 8 := writeWord_apply_of_lt m a v (by decide)
  have h2 : writeWord m a v (a + 2) = v.extractLsb' 16 8 := writeWord_apply_of_lt m a v (by decide)
  have h3 : writeWord m a v (a + 3) = v.extractLsb' 24 8 := writeWord_apply_of_lt m a v (by decide)
  have h4 : writeWord m a v (a + 4) = v.extractLsb' 32 8 := writeWord_apply_of_lt m a v (by decide)
  have h5 : writeWord m a v (a + 5) = v.extractLsb' 40 8 := writeWord_apply_of_lt m a v (by decide)
  have h6 : writeWord m a v (a + 6) = v.extractLsb' 48 8 := writeWord_apply_of_lt m a v (by decide)
  have h7 : writeWord m a v (a + 7) = v.extractLsb' 56 8 := writeWord_apply_of_lt m a v (by decide)
  rw [readWord, h0, h1, h2, h3, h4, h5, h6, h7]
  exact append_extractLsb'_bytes v

/-! ### Words and areas that are apart -/

theorem writeWord_apply_of_le {m : ByteMemory} {a v b : BitVec 64} (h : 8 ≤ (b - a).toNat) :
    writeWord m a v b = m b := by
  simp only [writeWord, Nat.not_lt.2 h, ↓reduceIte]

/-- Memories that hold the same eight bytes at `a` hold the same word there. -/
theorem readWord_congr {m m' : ByteMemory} {a : BitVec 64}
    (h : ∀ k < 8, m' (a + BitVec.ofNat 64 k) = m (a + BitVec.ofNat 64 k)) :
    readWord m' a = readWord m a := by
  have h0 : m' a = m a := by
    have h := h 0 (by decide)
    rwa [BitVec.add_zero] at h
  have h1 : m' (a + 1) = m (a + 1) := h 1 (by decide)
  have h2 : m' (a + 2) = m (a + 2) := h 2 (by decide)
  have h3 : m' (a + 3) = m (a + 3) := h 3 (by decide)
  have h4 : m' (a + 4) = m (a + 4) := h 4 (by decide)
  have h5 : m' (a + 5) = m (a + 5) := h 5 (by decide)
  have h6 : m' (a + 6) = m (a + 6) := h 6 (by decide)
  have h7 : m' (a + 7) = m (a + 7) := h 7 (by decide)
  simp only [readWord, h0, h1, h2, h3, h4, h5, h6, h7]

/-- A write does not change a word apart from it. -/
theorem readWord_writeWord_of_apart (m : ByteMemory) {a b : BitVec 64} (v : BitVec 64)
    (h : Apart b a) : readWord (writeWord m a v) b = readWord m b := by
  refine readWord_congr fun k hk => writeWord_apply_of_le ?_
  obtain ⟨h₁, h₂⟩ := h
  bv_omega

/-- Two words of one area, at offsets at least eight bytes apart. -/
theorem readWord_writeWord_add_of_le (m : ByteMemory) (p v : BitVec 64) {o o' : BitVec 64}
    (h : Apart o o') : readWord (writeWord m (p + o') v) (p + o) = readWord m (p + o) := by
  refine readWord_writeWord_of_apart m v ?_
  obtain ⟨h₁, h₂⟩ := h
  constructor <;> bv_omega

/-- Words inside two areas that are apart are apart. -/
theorem AreasApart.apart {n : ℕ} {p q o o' : BitVec 64} (h : AreasApart n p q)
    (ho : o.toNat + 8 ≤ n) (ho' : o'.toNat + 8 ≤ n) : Apart (p + o) (q + o') := by
  obtain ⟨h₁, h₂⟩ := h
  constructor <;> bv_omega

/-- A write inside one area does not change a word of another area. -/
theorem readWord_writeWord_of_areasApart (m : ByteMemory) {n : ℕ} {p q o o' : BitVec 64}
    (v : BitVec 64) (h : AreasApart n p q) (ho : o.toNat + 8 ≤ n) (ho' : o'.toNat + 8 ≤ n) :
    readWord (writeWord m (q + o') v) (p + o) = readWord m (p + o) :=
  readWord_writeWord_of_apart m v (h.apart ho ho')

/-! ### Agreement on an area -/

theorem AgreeOn.refl (n : ℕ) (p : BitVec 64) (m : ByteMemory) : AgreeOn n p m m := fun _ _ => rfl

theorem AgreeOn.trans {n : ℕ} {p : BitVec 64} {m₁ m₂ m₃ : ByteMemory} (h : AgreeOn n p m₁ m₂)
    (h' : AgreeOn n p m₂ m₃) : AgreeOn n p m₁ m₃ :=
  fun a ha => (h' a ha).trans (h a ha)

/-- Memories that agree on an area hold the same words there. -/
theorem AgreeOn.readWord {n : ℕ} {p : BitVec 64} {m m' : ByteMemory} (h : AgreeOn n p m m')
    {o : BitVec 64} (ho : o.toNat + 8 ≤ n) : readWord m' (p + o) = readWord m (p + o) := by
  refine readWord_congr fun k hk => h _ ?_
  bv_omega

/-- A write outside an area agrees with the memory before it on the area. -/
theorem agreeOn_writeWord {n k : ℕ} {p q : BitVec 64} {m : ByteMemory} {o : BitVec 64}
    (v : BitVec 64) (h : AreasApart n p q) (ho : o.toNat + 8 ≤ n) (hk : k ≤ n) :
    AgreeOn k p m (writeWord m (q + o) v) := by
  intro a ha
  apply writeWord_apply_of_le
  obtain ⟨h₁, h₂⟩ := h
  bv_omega

end MojitoSys.Util
