import Mathlib.Data.List.Flatten
import Mathlib.Data.Nat.Notation
import Mathlib.Tactic.Common

/-!
# Code points and their bytes

The UTF-8 bytes of a list of code points, and where they are as many as the code points: a copy
that writes one byte for every code point is exact on ASCII texts and on no others.

## Main definitions

* `utf8`: the bytes of a text.
* `IsAscii`: every code point is below 128.

## Main results

* `length_utf8_eq_iff`: a text has as many bytes as code points exactly if it is ASCII.
* `utf8_of_isAscii`: its bytes are then its code points.
* `utf8_injective`: the bytes determine the text.
-/

namespace MojitoSys.Util

/-- The bytes of a text. -/
def utf8 (cs : List Char) : List UInt8 := cs.flatMap String.utf8EncodeChar

/-- Every code point is below 128. -/
def IsAscii (cs : List Char) : Prop := ∀ c ∈ cs, c.toNat < 128

instance (cs : List Char) : Decidable (IsAscii cs) :=
  List.decidableBAll (fun c : Char => c.toNat < 128) cs

variable {c : Char} {cs ds : List Char}

theorem isAscii_cons : IsAscii (c :: cs) ↔ c.toNat < 128 ∧ IsAscii cs := List.forall_mem_cons

@[simp]
theorem utf8_nil : utf8 [] = [] := rfl

@[simp]
theorem utf8_cons : utf8 (c :: cs) = String.utf8EncodeChar c ++ utf8 cs := rfl

theorem utf8EncodeChar_of_lt (h : c.toNat < 128) :
    String.utf8EncodeChar c = [UInt8.ofNat c.toNat] := by
  have hle : c.val.toNat ≤ 0x7f := Nat.le_of_lt_succ h
  simp only [String.utf8EncodeChar, if_pos hle]
  rfl

/-- A code point from 128 on has at least two bytes. -/
theorem length_utf8EncodeChar_of_le (h : 128 ≤ c.toNat) :
    2 ≤ (String.utf8EncodeChar c).length := by
  have hne : c.utf8Size ≠ 1 := by
    rw [Ne, Char.utf8Size_eq_one_iff, UInt32.le_iff_toNat_le]
    exact Nat.not_le.mpr h
  have := c.utf8Size_pos
  rw [String.length_utf8EncodeChar]
  omega

theorem length_le_length_utf8 (cs : List Char) : cs.length ≤ (utf8 cs).length := by
  induction cs with
  | nil => exact Nat.le_refl 0
  | cons c cs ih =>
    have := c.utf8Size_pos
    simp only [utf8_cons, List.length_append, List.length_cons, String.length_utf8EncodeChar]
    omega

theorem utf8_of_isAscii (h : IsAscii cs) : utf8 cs = cs.map fun c => UInt8.ofNat c.toNat := by
  induction cs with
  | nil => rfl
  | cons c cs ih =>
    obtain ⟨hc, hcs⟩ := isAscii_cons.mp h
    rw [utf8_cons, utf8EncodeChar_of_lt hc, ih hcs]
    rfl

/-- A text has as many bytes as code points exactly if it is ASCII. -/
theorem length_utf8_eq_iff : (utf8 cs).length = cs.length ↔ IsAscii cs := by
  refine ⟨fun h => ?_, fun h => by rw [utf8_of_isAscii h, List.length_map]⟩
  induction cs with
  | nil => simp [IsAscii]
  | cons c cs ih =>
    have hlen := length_le_length_utf8 cs
    rw [utf8_cons, List.length_append, List.length_cons] at h
    have hc : c.toNat < 128 := by
      by_contra hge
      have := length_utf8EncodeChar_of_le (Nat.not_lt.mp hge)
      omega
    rw [utf8EncodeChar_of_lt hc, List.length_singleton] at h
    exact isAscii_cons.mpr ⟨hc, ih (by omega)⟩

/-- The bytes determine the text. -/
theorem utf8_injective (h : utf8 cs = utf8 ds) : cs = ds := by
  have hbytes : cs.utf8Encode = ds.utf8Encode := congrArg List.toByteArray h
  rw [← String.toByteArray_ofList, ← String.toByteArray_ofList, String.toByteArray_inj] at hbytes
  rw [← String.toList_ofList (l := cs), hbytes, String.toList_ofList]

end MojitoSys.Util
