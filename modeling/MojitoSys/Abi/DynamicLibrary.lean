import MojitoSys.Util.Buffer
import MojitoSys.Util.Utf8

/-!
# Names on their way to the dynamic loader

`abi/dynlib.mojo`: `open_library` and `DynamicLibrary.resolve` copy a name into a buffer of 256
bytes on the stack and pass its address to `dlopen` or `dlsym`. The guard before the copy counts the
bytes of the name, and `_fill` writes one byte for each of its code points, cut off to eight bits.

## Main definitions

* `fill`: the copy.
* `openLibrary`, `DynamicLibrary.resolve`: the two calls, with what they pass to the loader.
* `StagingLaw`: two names reach the loader as they are, and so as different strings.

## Main results

* `staging_law_iff`: the law holds of the ASCII names and of no others.
* `staging_law_collision`: two names that reach the loader as one string.
-/

namespace MojitoSys.Abi

open Util Util.Buffer

/-- `NAME_MAX`. -/
def NAME_MAX : ℕ := 255

/-- `_fill`: copy the code points of `s` into the buffer, and a zero byte after them. -/
def fill (buf : Buffer) (s : String) : Buffer :=
  let (buf, i) := s.toList.foldl
    (fun st ch => (Function.update st.1 st.2 (UInt8.ofNat ch.toNat), st.2 + 1)) (buf, 0)
  Function.update buf i 0

/-- A call of the loader; a name is passed as the memory at its address. -/
inductive LoaderCall
  | dlopen (path : Buffer) (mode : Int32)
  | dlsym (handle : BitVec 64) (name : Buffer)
  | dlerror

/-- The memory at the name that a call passes. -/
def LoaderCall.name? : LoaderCall → Option Buffer
  | dlopen path _ => some path
  | dlsym _ name => some name
  | dlerror => none

/-- The text of the bytes of a C string, one code point for each byte. -/
def textOf (bs : List UInt8) : String := String.ofList (bs.map fun b => Char.ofNat b.toNat)

/-- `_msg_open_fail`, for the diagnostic of the loader, a C string. -/
def msgOpenFail (err : Option (List UInt8)) : String :=
  "dlopen failed: " ++ (err.map textOf).getD ""

/-- `_msg_sym_fail`, for the staged name. -/
def msgSymFail (name : Buffer) : String := "dlsym failed: " ++ textOf (stringAt name 256)

/-- `_msg_disposed`. -/
def msgDisposed : String := "resolve on disposed library"

/-- `_msg_name_too_long`. -/
def msgNameTooLong : String := "library or symbol name exceeds 255 bytes"

/-- A handle of the loader, which `dispose` closes. -/
structure DynamicLibrary where
  handle : BitVec 64
  closed : Bool

/-- `open_library`, when `dlopen` returns `h` and `dlerror` then has the C string `err`; `buf` is
the stack before the call. -/
def openLibrary (buf : Buffer) (name : String) (mode : Int32) (h : BitVec 64)
    (err : Option (List UInt8)) : List LoaderCall × Except String DynamicLibrary :=
  if NAME_MAX < name.utf8ByteSize then ([], .error msgNameTooLong)
  else if h = 0 then ([.dlopen (fill buf name) mode, .dlerror], .error (msgOpenFail err))
  else ([.dlopen (fill buf name) mode], .ok ⟨h, false⟩)

namespace DynamicLibrary

/-- The handle can be used. -/
def Live (lib : DynamicLibrary) : Prop := lib.closed = false ∧ lib.handle ≠ 0

instance (lib : DynamicLibrary) : Decidable lib.Live := inferInstanceAs (Decidable (_ ∧ _))

/-- `DynamicLibrary.resolve`, when `dlsym` returns `addr` and `dlerror` then returns `errp`. -/
def resolve (lib : DynamicLibrary) (buf : Buffer) (name : String) (addr errp : BitVec 64) :
    List LoaderCall × Except String (BitVec 64) :=
  if lib.closed ∨ lib.handle = 0 then ([], .error msgDisposed)
  else if NAME_MAX < name.utf8ByteSize then ([], .error msgNameTooLong)
  else
    let name := fill buf name
    let calls := [.dlerror, .dlsym lib.handle name, .dlerror]
    if errp ≠ 0 ∨ addr = 0 then (calls, .error (msgSymFail name)) else (calls, .ok addr)

end DynamicLibrary

/-! ### The copy -/

/-- The loop of the copy from offset `i` on. -/
theorem foldl_update (cs : List Char) (buf : Buffer) (i : ℕ) :
    cs.foldl (fun st ch => (Function.update st.1 st.2 (UInt8.ofNat ch.toNat), st.2 + 1)) (buf, i) =
      (buf.store i (cs.map fun ch => UInt8.ofNat ch.toNat), i + cs.length) := by
  induction cs generalizing buf i with
  | nil => rfl
  | cons c cs ih =>
    rw [List.foldl_cons, ih, List.length_cons, List.map_cons, store, Nat.add_right_comm,
      Nat.add_assoc]

/-- The copy stores one byte for each code point. -/
theorem fill_eq (buf : Buffer) (s : String) :
    fill buf s = buf.store 0 ((s.toList.map fun ch => UInt8.ofNat ch.toNat) ++ [0]) := by
  rw [fill, foldl_update, store_append, List.length_map]
  rfl

/-- The zero byte stands after as many bytes as the name has code points. -/
theorem fill_nul (buf : Buffer) (s : String) : fill buf s s.toList.length = 0 := by
  rw [fill, foldl_update, Nat.zero_add]
  exact Function.update_self ..

/-- The copy of a name that passes the guard stays inside the buffer. -/
theorem fill_of_le {buf : Buffer} {s : String} (hs : (utf8 s.toList).length ≤ NAME_MAX) {i : ℕ}
    (hi : 256 ≤ i) : fill buf s i = buf i := by
  have hlen := length_le_length_utf8 s.toList
  simp only [NAME_MAX] at hs
  rw [fill_eq]
  refine store_of_disjoint (Or.inr ?_)
  rw [List.length_append, List.length_map, List.length_singleton]
  omega

/-- The copy is the string of the low bytes of the code points, if none of them is zero. -/
theorem isCString_fill {bs : List UInt8} {s : String} (buf : Buffer)
    (hbs : s.toList.map (fun ch => UInt8.ofNat ch.toNat) = bs) (hnul : 0 ∉ bs) :
    IsCString (fill buf s) 0 bs where
  bytes := by rw [fill_eq, hbs, store_append, load_store_of_disjoint (by omega), load_store]
  noNul := hnul
  nul := by
    rw [← hbs, List.length_map, Nat.zero_add]
    exact fill_nul buf s

/-- The copy of an ASCII name is the name. -/
theorem isCString_fill_of_isAscii {s : String} (buf : Buffer) (hnul : 0 ∉ utf8 s.toList)
    (hs : IsAscii s.toList) : IsCString (fill buf s) 0 (utf8 s.toList) :=
  isCString_fill buf (utf8_of_isAscii hs).symm hnul

/-- A copy that is the name has a byte for each code point. -/
theorem isAscii_of_isCString {buf : Buffer} {s : String}
    (h : IsCString (fill buf s) 0 (utf8 s.toList)) : IsAscii s.toList := by
  have hle := length_le_length_utf8 s.toList
  rw [← length_utf8_eq_iff]
  by_contra hne
  have hlt : s.toList.length < (utf8 s.toList).length := by omega
  -- The zero byte of the copy would be a byte of the name.
  have hbyte := (load_eq_iff rfl).mp h.bytes s.toList.length hlt
  rw [Nat.zero_add, fill_nul] at hbyte
  exact h.noNul (hbyte ▸ List.getElem_mem _)

/-! ### The law -/

/-- A name as the calls accept it: at most 255 bytes, and none of them zero. -/
structure IsName (s : String) : Prop where
  length : s.utf8ByteSize ≤ NAME_MAX
  noNul : 0 ∉ utf8 s.toList

/-- The memory `m` is the stack `buf` with the name as a C string inside the 256 bytes of the
buffer. -/
structure Stages (buf m : Buffer) (s : String) : Prop where
  name : IsCString m 0 (utf8 s.toList)
  inside : (utf8 s.toList).length + 1 ≤ 256
  frame : ∀ i, 256 ≤ i → m i = buf i

/-- Two names reach the loader as they are, and so as different strings. -/
structure StagingLaw (s t : String) : Prop where
  openLibrary : ∀ name ∈ [s, t], ∀ buf mode h err, ∃ m,
    (openLibrary buf name mode h err).1.filterMap LoaderCall.name? = [m] ∧ Stages buf m name
  resolve : ∀ name ∈ [s, t], ∀ lib : DynamicLibrary, lib.Live → ∀ buf addr errp, ∃ m,
    (lib.resolve buf name addr errp).1.filterMap LoaderCall.name? = [m] ∧ Stages buf m name
  distinct : s ≠ t → ∀ buf buf' bs,
    ¬ (IsCString (fill buf s) 0 bs ∧ IsCString (fill buf' t) 0 bs)

theorem length_utf8_toList (s : String) : (utf8 s.toList).length = s.utf8ByteSize := by
  rw [← String.size_toByteArray, ← String.utf8Encode_toList, List.utf8Encode,
    List.size_toByteArray]
  rfl

variable {s t : String}

/-- `open_library` passes the copy to `dlopen`. -/
theorem name?_openLibrary (hs : IsName s) (buf : Buffer) (mode : Int32) (h : BitVec 64)
    (err : Option (List UInt8)) :
    (openLibrary buf s mode h err).1.filterMap LoaderCall.name? = [fill buf s] := by
  rw [openLibrary, if_neg (Nat.not_lt.mpr hs.length)]
  split_ifs <;> rfl

/-- `resolve` passes the copy to `dlsym`. -/
theorem name?_resolve (hs : IsName s) {lib : DynamicLibrary} (hlib : lib.Live) (buf : Buffer)
    (addr errp : BitVec 64) :
    (lib.resolve buf s addr errp).1.filterMap LoaderCall.name? = [fill buf s] := by
  have hopen : ¬ (lib.closed = true ∨ lib.handle = 0) := by
    rw [hlib.1]
    exact not_or.mpr ⟨Bool.false_ne_true, hlib.2⟩
  rw [DynamicLibrary.resolve, if_neg hopen, if_neg (Nat.not_lt.mpr hs.length)]
  split_ifs <;> rfl

theorem stages_fill (hs : IsName s) (ha : IsAscii s.toList) (buf : Buffer) :
    Stages buf (fill buf s) s := by
  have hlen : (utf8 s.toList).length ≤ NAME_MAX := length_utf8_toList s ▸ hs.length
  exact ⟨isCString_fill_of_isAscii buf hs.noNul ha, Nat.succ_le_succ hlen,
    fun i hi => fill_of_le hlen hi⟩

/-- **The staging of names** is exact for two names exactly when both are ASCII. -/
theorem staging_law_iff (hs : IsName s) (ht : IsName t) :
    StagingLaw s t ↔ IsAscii s.toList ∧ IsAscii t.toList := by
  constructor
  · intro h
    have hascii (name : String) (hname : IsName name) (hmem : name ∈ [s, t]) :
        IsAscii name.toList := by
      obtain ⟨m, hm, hst⟩ := h.openLibrary name hmem (fun _ => 0) 0 0 none
      rw [name?_openLibrary hname] at hm
      obtain rfl := List.singleton_inj.mp hm
      exact isAscii_of_isCString hst.name
    exact ⟨hascii s hs (by simp), hascii t ht (by simp)⟩
  · rintro ⟨has, hat⟩
    have hstages (name : String) (hmem : name ∈ [s, t]) :
        IsName name ∧ ∀ buf, Stages buf (fill buf name) name := by
      rcases List.mem_pair.mp hmem with rfl | rfl
      · exact ⟨hs, stages_fill hs has⟩
      · exact ⟨ht, stages_fill ht hat⟩
    refine ⟨fun name hmem buf mode h err => ?_, fun name hmem lib hlib buf addr errp => ?_, ?_⟩
    · obtain ⟨hname, hst⟩ := hstages name hmem
      exact ⟨_, name?_openLibrary hname buf mode h err, hst buf⟩
    · obtain ⟨hname, hst⟩ := hstages name hmem
      exact ⟨_, name?_resolve hname hlib buf addr errp, hst buf⟩
    · rintro hne buf buf' bs ⟨h, h'⟩
      have hbs := h.unique (isCString_fill_of_isAscii buf hs.noNul has)
      have hbt := h'.unique (isCString_fill_of_isAscii buf' ht.noNul hat)
      exact hne (String.toList_inj.mp (utf8_injective (hbs.symm.trans hbt)))

theorem staging_law_iff_libm : StagingLaw "libm" "libc" :=
  (staging_law_iff ⟨by decide, by decide⟩ ⟨by decide, by decide⟩).mpr ⟨by decide, by decide⟩

/-- The names `U+0141` and `U+0041` reach the loader as the same string. -/
theorem staging_law_collision : ∃ s t, IsName s ∧ IsName t ∧ s ≠ t ∧
    (∀ buf, IsCString (fill buf s) 0 [0x41] ∧ IsCString (fill buf t) 0 [0x41]) ∧
    ¬ StagingLaw s t := by
  have hs (buf : Buffer) : IsCString (fill buf "\u0141") 0 [0x41] :=
    isCString_fill buf (by decide) (by decide)
  have ht (buf : Buffer) : IsCString (fill buf "A") 0 [0x41] :=
    isCString_fill buf (by decide) (by decide)
  refine ⟨"\u0141", "A", ⟨by decide, by decide⟩, ⟨by decide, by decide⟩, by decide,
    fun buf => ⟨hs buf, ht buf⟩, fun h => ?_⟩
  exact h.distinct (by decide) (fun _ => 0) (fun _ => 0) _ ⟨hs _, ht _⟩

end MojitoSys.Abi
