import MojitoSys.Status
import MojitoSys.Util.Buffer
import MojitoSys.Util.Utf8

/-!
# Socket addresses

`SocketAddress` of `io/socket.mojo`, a value type with a codec: `to_buffer` writes an address into
the 136 bytes of a `mjs_sockaddr`, and `from_buffer` reads it back. A string is the list of its
bytes. `to_buffer` copies the bytes of a path; `SocketAddress.unix` and `_path_of` rebuild a path by
appending `chr` of every byte, which is one byte for the ASCII ones only.

## Main definitions

* `SocketAddress`, `SocketAddress.unix`, `SocketAddress.toBuffer`, `SocketAddress.fromBuffer`.
* `SocketAddress.Encodable`: the addresses that the codec is for.
* `SocketAddress.CodecLaw`: the codec loses nothing and refuses everything else.

## Main results

* `SocketAddress.codec_law_iff`: the law fails exactly for the Unix paths with a byte from 128 on.
-/

namespace MojitoSys.Io

open Util Util.Buffer

/-- The systems that the code is for. -/
inductive Host
  | linux
  | darwin
  deriving DecidableEq, Repr

/-- `_host_enametoolong`. -/
def hostEnametoolong : Host → MojitoSys.Errno
  | .darwin => .other 63
  | .linux => .other 36

/-- `SOCKADDR_BYTES`. -/
def SOCKADDR_BYTES : ℕ := 136

/-- `UNIX_PATH_MAX`. -/
def UNIX_PATH_MAX : ℕ := 103

/-- `MJS_SOCK_INET`. -/
def MJS_SOCK_INET : Int32 := 2

/-- `MJS_SOCK_UNIX`. -/
def MJS_SOCK_UNIX : Int32 := 1

/-- `chr` of a byte: the bytes of the code point. -/
def chr (b : UInt8) : List UInt8 := String.utf8EncodeChar (Char.ofNat b.toNat)

/-! ### Integers in a buffer -/

/-- `_st_i32`. -/
def stI32 (p : Buffer) (off : ℕ) (v : Int32) : Buffer := p.store off (le32 v.toUInt32)

/-- `_st_u16`. -/
def stU16 (p : Buffer) (off : ℕ) (v : UInt16) : Buffer := p.store off (le16 v)

/-- `_st_u32`. -/
def stU32 (p : Buffer) (off : ℕ) (v : UInt32) : Buffer := p.store off (le32 v)

/-- `_ld_u16`. -/
def ldU16 (p : Buffer) (off : ℕ) : UInt16 := ofLe16 (p off) (p (off + 1))

/-- `_ld_u32`. -/
def ldU32 (p : Buffer) (off : ℕ) : UInt32 :=
  ofLe32 (p off) (p (off + 1)) (p (off + 2)) (p (off + 3))

theorem ldU16_eq {p : Buffer} {off : ℕ} {v : UInt16} (h : load p off 2 = le16 v) :
    ldU16 p off = v := by
  have hbytes : load p off 2 = [p off, p (off + 1)] := rfl
  rw [hbytes, le16, List.cons.injEq, List.cons.injEq] at h
  rw [ldU16, h.1, h.2.1, ofLe16_bytes]

theorem ldU32_eq {p : Buffer} {off : ℕ} {v : UInt32} (h : load p off 4 = le32 v) :
    ldU32 p off = v := by
  have hbytes : load p off 4 = [p off, p (off + 1), p (off + 2), p (off + 3)] := rfl
  simp only [hbytes, le32, List.cons.injEq] at h
  rw [ldU32, h.1, h.2.1, h.2.2.1, h.2.2.2.1, ofLe32_bytes]

theorem ofBe32_load {p : Buffer} {off : ℕ} {v : UInt32} (h : load p off 4 = be32 v) :
    ofBe32 (p off) (p (off + 1)) (p (off + 2)) (p (off + 3)) = v := by
  have hbytes : load p off 4 = [p off, p (off + 1), p (off + 2), p (off + 3)] := rfl
  simp only [hbytes, be32, List.cons.injEq] at h
  rw [ofBe32_eq, h.1, h.2.1, h.2.2.1, h.2.2.2.1, ofLe32_bytes]

/-- A socket address; the octets are packed into four words, the first octet highest. -/
@[ext]
structure SocketAddress where
  family : Int32
  port : Int32
  flowinfo : UInt32
  scopeId : UInt32
  w0 : UInt32
  w1 : UInt32
  w2 : UInt32
  w3 : UInt32
  path : List UInt8
  deriving DecidableEq

namespace SocketAddress

/-- The default address. -/
def init : SocketAddress := ⟨0, 0, 0, 0, 0, 0, 0, 0, []⟩

/-- The `k`-th word of octets. -/
def word (a : SocketAddress) : ℕ → UInt32
  | 0 => a.w0
  | 1 => a.w1
  | 2 => a.w2
  | _ => a.w3

/-- `SocketAddress.unix`. -/
def unix (path : List UInt8) : SocketAddress :=
  { init with family := MJS_SOCK_UNIX, path := path.flatMap chr }

/-- `SocketAddress.to_buffer`. -/
def toBuffer (host : Host) (a : SocketAddress) (cell : Buffer) :
    Except MojitoSys.Errno Buffer :=
  let p := cell.store 0 (List.replicate SOCKADDR_BYTES 0)
  let p := stI32 p 0 a.family
  if a.port < 0 ∨ 0xFFFF < a.port then .error .EINVAL
  else
    let p := stU16 p 4 a.port.toUInt32.toUInt16
    let p := stU32 p 8 a.flowinfo
    let p := stU32 p 12 a.scopeId
    let p := (List.range 4).foldl (fun p k => p.store (16 + k * 4) (be32 (a.word k))) p
    if a.family = MJS_SOCK_UNIX then
      if UNIX_PATH_MAX < a.path.length then .error (hostEnametoolong host)
      else .ok (p.store 32 a.path)
    else .ok p

/-- The loop of `_path_of`, with the offset of the next byte and the number of bytes left. -/
def pathFrom (p : Buffer) : ℕ → ℕ → List UInt8
  | _, 0 => []
  | off, n + 1 => if p off = 0 then [] else chr (p off) ++ pathFrom p (off + 1) n

/-- `_path_of`. -/
def pathOf (p : Buffer) : List UInt8 := pathFrom p 32 UNIX_PATH_MAX

/-- `_sockaddr_from_buffer`. -/
def fromBuffer (p : Buffer) : SocketAddress :=
  let word k := ofBe32 (p (16 + k * 4)) (p (16 + k * 4 + 1)) (p (16 + k * 4 + 2))
    (p (16 + k * 4 + 3))
  let family := (ldU32 p 0).toInt32
  { family := family
    port := (ldU16 p 4).toUInt32.toInt32
    flowinfo := ldU32 p 8
    scopeId := ldU32 p 12
    w0 := word 0
    w1 := word 1
    w2 := word 2
    w3 := word 3
    path := if family = MJS_SOCK_UNIX then pathOf p else [] }

/-- What the codec is for: a port of 16 bits, and a path of at most 103 bytes without a zero byte,
which is empty unless the family is that of Unix sockets. -/
structure Encodable (a : SocketAddress) : Prop where
  port : 0 ≤ a.port ∧ a.port ≤ 0xFFFF
  length : a.path.length ≤ UNIX_PATH_MAX
  noNul : 0 ∉ a.path
  family : a.family ≠ MJS_SOCK_UNIX → a.path = []

/-- `SocketAddress.unix` keeps the bytes of a path, the address that `from_buffer` reads from what
`to_buffer` wrote is the same, and a port out of range or a longer path is refused. -/
structure CodecLaw (host : Host) (a : SocketAddress) : Prop where
  unix : a.Encodable → a.family = MJS_SOCK_UNIX → (unix a.path).path = a.path
  roundTrip : a.Encodable → ∀ cell, ∃ p, a.toBuffer host cell = .ok p ∧ fromBuffer p = a
  port : a.port < 0 ∨ 0xFFFF < a.port → ∀ cell, a.toBuffer host cell = .error .EINVAL
  path : 0 ≤ a.port ∧ a.port ≤ 0xFFFF → a.family = MJS_SOCK_UNIX → UNIX_PATH_MAX < a.path.length →
    ∀ cell, a.toBuffer host cell = .error (hostEnametoolong host)

/-! ### Paths -/

/-- Rebuilding a string by `chr` of every byte reads the bytes as code points. -/
theorem flatMap_chr (bs : List UInt8) :
    bs.flatMap chr = utf8 (bs.map fun b => Char.ofNat b.toNat) := by
  rw [utf8, List.flatMap_map]
  rfl

theorem toNat_ofNat_byte (b : UInt8) : (Char.ofNat b.toNat).toNat = b.toNat := by
  have hb := b.toNat_lt
  have hvalid : b.toNat.isValidChar := Or.inl (by omega)
  rw [Char.ofNat, dif_pos hvalid]
  rfl

theorem isAscii_map_iff {bs : List UInt8} :
    IsAscii (bs.map fun b => Char.ofNat b.toNat) ↔ ∀ b ∈ bs, b < 0x80 := by
  simp only [IsAscii, List.forall_mem_map, toNat_ofNat_byte, UInt8.lt_iff_toNat_lt]
  rfl

/-- The bytes of a string are kept exactly if all of them are below 128. -/
theorem flatMap_chr_eq_iff {bs : List UInt8} : bs.flatMap chr = bs ↔ ∀ b ∈ bs, b < 0x80 := by
  rw [flatMap_chr, ← isAscii_map_iff]
  constructor
  · intro h
    rw [← length_utf8_eq_iff, h, List.length_map]
  · intro h
    rw [utf8_of_isAscii h, List.map_map]
    refine List.map_id'' (fun b => ?_) bs
    rw [Function.comp_apply, toNat_ofNat_byte, UInt8.ofNat_toNat]

/-- `_path_of` reads a string up to its zero byte. -/
theorem pathFrom_eq {p : Buffer} {off n : ℕ} {bs : List UInt8} (h : IsCString p off bs)
    (hn : bs.length ≤ n) : pathFrom p off n = bs.flatMap chr := by
  induction bs generalizing off n with
  | nil =>
    have hnul : p off = 0 := h.nul
    cases n with
    | zero => rfl
    | succ n => rw [pathFrom, if_pos hnul, List.flatMap_nil]
  | cons b bs ih =>
    obtain ⟨rfl, hne, htail⟩ := isCString_cons.mp h
    cases n with
    | zero => simp at hn
    | succ n => rw [pathFrom, if_neg hne, ih htail (Nat.le_of_succ_le_succ hn), List.flatMap_cons]

/-! ### The fields -/

/-- The fields in the buffer. -/
def fields (a : SocketAddress) : List (ℕ × List UInt8) :=
  [(0, le32 a.family.toUInt32), (4, le16 a.port.toUInt32.toUInt16), (8, le32 a.flowinfo),
    (12, le32 a.scopeId), (16, be32 a.w0), (20, be32 a.w1), (24, be32 a.w2), (28, be32 a.w3),
    (32, a.path)]

theorem fields_pairwise (a : SocketAddress) : a.fields.Pairwise FieldsApart := by
  simp [fields, FieldsApart]

/-- A port of 16 bits survives its way through 16 bits. -/
theorem toInt32_port {v : Int32} (h : 0 ≤ v ∧ v ≤ 0xFFFF) :
    v.toUInt32.toUInt16.toUInt32.toInt32 = v := by
  have h0 : 0 ≤ v.toBitVec.toInt := Int32.le_iff_toInt_le.mp h.1
  have h1 : v.toBitVec.toInt ≤ 0xFFFF := Int32.le_iff_toInt_le.mp h.2
  rw [BitVec.toInt_eq_toNat_cond] at h0 h1
  rw [← Int32.toBitVec_inj]
  change BitVec.setWidth 32 (BitVec.setWidth 16 v.toBitVec) = v.toBitVec
  rw [← BitVec.toNat_inj, BitVec.toNat_setWidth, BitVec.toNat_setWidth]
  omega

/-- What `from_buffer` reads from the fields of an address. -/
theorem fromBuffer_storeAll (a : SocketAddress) (m : Buffer) :
    fromBuffer (m.storeAll a.fields) =
      { a with
        port := a.port.toUInt32.toUInt16.toUInt32.toInt32
        path := if a.family = MJS_SOCK_UNIX then pathOf (m.storeAll a.fields) else [] } := by
  have hload (off : ℕ) (bs : List UInt8) (hf : (off, bs) ∈ a.fields) :
      load (m.storeAll a.fields) off bs.length = bs := load_storeAll a.fields_pairwise hf
  have hfamily : ldU32 (m.storeAll a.fields) 0 = a.family.toUInt32 :=
    ldU32_eq (hload 0 (le32 a.family.toUInt32) (by simp [fields]))
  have hport : ldU16 (m.storeAll a.fields) 4 = a.port.toUInt32.toUInt16 :=
    ldU16_eq (hload 4 (le16 a.port.toUInt32.toUInt16) (by simp [fields]))
  ext : 1
  · exact congrArg UInt32.toInt32 hfamily
  · exact congrArg (fun v => v.toUInt32.toInt32) hport
  · exact ldU32_eq (hload 8 (le32 a.flowinfo) (by simp [fields]))
  · exact ldU32_eq (hload 12 (le32 a.scopeId) (by simp [fields]))
  · exact ofBe32_load (hload 16 (be32 a.w0) (by simp [fields]))
  · exact ofBe32_load (hload 20 (be32 a.w1) (by simp [fields]))
  · exact ofBe32_load (hload 24 (be32 a.w2) (by simp [fields]))
  · exact ofBe32_load (hload 28 (be32 a.w3) (by simp [fields]))
  · simp only [fromBuffer, hfamily]
    rfl

/-- The path in the buffer ends with the zero byte that `to_buffer` left there. -/
theorem isCString_storeAll {a : SocketAddress} (hlen : a.path.length ≤ UNIX_PATH_MAX)
    (hnul : 0 ∉ a.path) (cell : Buffer) :
    IsCString ((cell.store 0 (List.replicate SOCKADDR_BYTES 0)).storeAll a.fields) 32 a.path where
  bytes := load_storeAll (f := (32, a.path)) a.fields_pairwise (by simp [fields])
  noNul := hnul
  nul := by
    simp only [UNIX_PATH_MAX] at hlen
    rw [storeAll_of_disjoint]
    · refine store_replicate ?_
      simp only [SOCKADDR_BYTES]
      omega
    · simp only [fields, List.forall_mem_cons, length_le16, length_le32, length_be32]
      refine ⟨?_, ?_, ?_, ?_, ?_, ?_, ?_, ?_, ?_, List.forall_mem_nil _⟩ <;> omega

/-! ### The law -/

/-- `to_buffer` stores the fields, unless it refuses the address. -/
theorem toBuffer_eq {host : Host} {a : SocketAddress} (hport : 0 ≤ a.port ∧ a.port ≤ 0xFFFF)
    (hlen : a.path.length ≤ UNIX_PATH_MAX) (hpath : a.family ≠ MJS_SOCK_UNIX → a.path = [])
    (cell : Buffer) : a.toBuffer host cell =
      .ok ((cell.store 0 (List.replicate SOCKADDR_BYTES 0)).storeAll a.fields) := by
  have hin : ¬ (a.port < 0 ∨ 0xFFFF < a.port) := by
    rw [not_or, Int32.not_lt, Int32.not_lt]
    exact hport
  simp only [toBuffer, if_neg hin]
  split_ifs with hunix hlong
  · exact absurd hlen (Nat.not_le.mpr hlong)
  · rfl
  · simp only [fields, hpath hunix]
    rfl

/-- **The codec of socket addresses** keeps every address apart from those with a Unix path that is
not ASCII. -/
theorem codec_law_iff (host : Host) (a : SocketAddress) : CodecLaw host a ↔
    ¬ (a.Encodable ∧ a.family = MJS_SOCK_UNIX ∧ ∃ b ∈ a.path, 0x80 ≤ b) := by
  constructor
  · rintro h ⟨henc, hunix, b, hb, hge⟩
    have hlt := flatMap_chr_eq_iff.mp (h.unix henc hunix) b hb
    exact absurd hge (UInt8.not_le.mpr hlt)
  · intro h
    have hascii (henc : a.Encodable) (hunix : a.family = MJS_SOCK_UNIX) :
        a.path.flatMap chr = a.path := by
      rw [flatMap_chr_eq_iff]
      intro b hb
      exact UInt8.not_le.mp fun hge => h ⟨henc, hunix, b, hb, hge⟩
    refine ⟨hascii, fun henc cell => ?_, fun hport cell => ?_, fun hport hunix hlen cell => ?_⟩
    · refine ⟨_, toBuffer_eq henc.port henc.length henc.family cell, ?_⟩
      rw [fromBuffer_storeAll, toInt32_port henc.port]
      split_ifs with hunix
      · rw [pathOf, pathFrom_eq (isCString_storeAll henc.length henc.noNul cell) henc.length,
          hascii henc hunix]
      · rw [← henc.family hunix]
    · rw [toBuffer, if_pos hport]
    · have hin : ¬ (a.port < 0 ∨ 0xFFFF < a.port) := by
        rw [not_or, Int32.not_lt, Int32.not_lt]
        exact hport
      simp only [toBuffer, if_neg hin, if_pos hunix, if_pos hlen]

/-- The path of `unix` of a path with the two bytes of `U+00E9` has four bytes. -/
theorem codec_law_latin : ∃ a : SocketAddress, a.Encodable ∧ a.path = [0xC3, 0xA9] ∧
    (unix a.path).path = [0xC3, 0x83, 0xC2, 0xA9] ∧ ∀ host, ¬ CodecLaw host a := by
  have henc : Encodable { init with family := MJS_SOCK_UNIX, path := [0xC3, 0xA9] } :=
    ⟨by decide, by decide, by decide, fun h => absurd rfl h⟩
  refine ⟨_, henc, rfl, by decide, fun host h => ?_⟩
  exact absurd (h.unix henc rfl) (by decide)

end SocketAddress

end MojitoSys.Io
