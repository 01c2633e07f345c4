import MojitoSys.Io.SocketAddress

/-!
# The addresses of the system calls

`mjs_sa_to_os` and `mjs_sa_to_neutral` of `mjs_socket.c` convert between a `mjs_sockaddr`, 136 bytes
that are laid out in the same way on every system, and the `sockaddr_storage` of the system. The two
systems differ in the place of the family, in the number of `AF_INET6` and in the size of
`sun_path`, which is 108 bytes on Linux and 104 on Darwin, while the path of a `mjs_sockaddr` has
104.

The structures are buffers, and the model of `mjs_sa_to_os` lists what it reads, so that a read
beyond the 136 bytes can be seen. Both systems are little-endian.

## Main definitions

* `mjsSaToOs`, `mjsSaToNeutral`.
* `normalized`: an address without what its family ignores.
* `OsCodecLaw`: the conversion reads inside the structure and can be undone.

## Main results

* `os_codec_law_iff`: the law fails exactly for the paths without a zero byte on Linux.
-/

namespace MojitoSys.Io

open Util Util.Buffer

/-! ### Layouts -/

/-- `MJS_SOCK_INET6`. -/
def MJS_SOCK_INET6 : Host → Int32
  | .linux => 10
  | .darwin => 30

/-- `AF_INET`. -/
def AF_INET : UInt8 := 2

/-- `AF_INET6`. -/
def AF_INET6 : Host → UInt8
  | .linux => 10
  | .darwin => 30

/-- `AF_UNIX`. -/
def AF_UNIX : UInt8 := 1

/-- `sizeof(sun_path)`. -/
def sunPathSize : Host → ℕ
  | .linux => 108
  | .darwin => 104

/-- `sizeof(sa_family_t)`. -/
def saFamilySize : Host → ℕ
  | .linux => 2
  | .darwin => 1

/-- The store of the family: two bytes at 0 on Linux, and one after the length on Darwin. -/
def familyField (host : Host) (af : UInt8) : ℕ × List UInt8 :=
  match host with
  | .linux => (0, [af, 0])
  | .darwin => (1, [af])

/-- The family of a system address. -/
def ssFamily (host : Host) (ss : Buffer) : UInt16 :=
  match host with
  | .linux => ldU16 ss 0
  | .darwin => (ss 1).toUInt16

/-- `htons`, which is also `ntohs`. -/
def htons (v : UInt16) : UInt16 := (v >>> 8) ||| (v <<< 8)

/-! ### The conversions -/

/-- The family of a `mjs_sockaddr`. -/
def familyOf (sa : Buffer) : Int32 := (ldU32 sa 0).toInt32

/-- What `mjs_sa_to_os` did: the offsets and lengths of its reads, and its result, which is the
system address and its length. -/
structure OsCall where
  reads : List (ℕ × ℕ)
  result : Except MojitoSys.Errno (Buffer × ℕ)

/-- `mjs_sa_to_os`. -/
def mjsSaToOs (host : Host) (sa out : Buffer) : OsCall :=
  let out := out.store 0 (List.replicate 128 0)
  if familyOf sa = MJS_SOCK_INET then
    { reads := [(0, 4), (16, 4), (4, 2)]
      result := .ok (out.storeAll [familyField host AF_INET, (4, sa.load 16 4),
        (2, le16 (htons (ldU16 sa 4)))], 16) }
  else if familyOf sa = MJS_SOCK_INET6 host then
    { reads := [(0, 4), (16, 16), (4, 2), (8, 4), (12, 4)]
      result := .ok (out.storeAll [familyField host (AF_INET6 host), (8, sa.load 16 16),
        (2, le16 (htons (ldU16 sa 4))), (4, le32 (ldU32 sa 8)), (24, le32 (ldU32 sa 12))], 28) }
  else if familyOf sa = MJS_SOCK_UNIX then
    let n := sa.strnlen 32 104
    let reads := [(0, 4), (32, min (n + 1) 104)]
    if n = 0 ∨ sunPathSize host ≤ n then ⟨reads, .error (hostEnametoolong host)⟩
    else
      { reads := reads ++ [(32, n + 1)]
        result := .ok (out.storeAll [familyField host AF_UNIX, (2, sa.load 32 (n + 1))],
          2 + n + 1) }
  else ⟨[(0, 4)], .error .EINVAL⟩

/-- `mjs_sa_to_neutral`. -/
def mjsSaToNeutral (host : Host) (ss : Buffer) (len : ℕ) (out : Buffer) : Buffer :=
  let out := out.store 0 (List.replicate SOCKADDR_BYTES 0)
  if ssFamily host ss = AF_INET.toUInt16 ∧ 16 ≤ len then
    out.storeAll [(0, le32 MJS_SOCK_INET.toUInt32), (4, le16 (htons (ldU16 ss 2))),
      (16, ss.load 4 4)]
  else if ssFamily host ss = (AF_INET6 host).toUInt16 ∧ 28 ≤ len then
    out.storeAll [(0, le32 (MJS_SOCK_INET6 host).toUInt32), (4, le16 (htons (ldU16 ss 2))),
      (8, le32 (ldU32 ss 4)), (12, le32 (ldU32 ss 24)), (16, ss.load 8 16)]
  else if ssFamily host ss = AF_UNIX.toUInt16 ∧ saFamilySize host ≤ len then
    -- The subtraction is one of `size_t`.
    let cap := min ((len + (2 ^ 64 - 2)) % 2 ^ 64) 103
    out.storeAll [(0, le32 MJS_SOCK_UNIX.toUInt32), (32, ss.load 2 cap), (32 + cap, [0]),
      (32 + 103, [0])]
  else out.storeAll [(0, le32 (ssFamily host ss).toUInt32)]

/-- The bytes of an address that its family does not ignore. -/
def Relevant (host : Host) (sa : Buffer) (i : ℕ) : Prop :=
  if familyOf sa = MJS_SOCK_INET then i < 6 ∨ 16 ≤ i ∧ i < 20
  else if familyOf sa = MJS_SOCK_INET6 host then i < 6 ∨ 8 ≤ i ∧ i < 32
  else i < 4 ∨ 32 ≤ i ∧ i < 32 + sa.strnlen 32 104

instance (host : Host) (sa : Buffer) : DecidablePred (Relevant host sa) :=
  fun _ => inferInstanceAs (Decidable (ite _ _ _))

/-- An address with zeros for the fields that its family ignores, and after its path. -/
def normalized (host : Host) (sa : Buffer) : Buffer :=
  fun i => if Relevant host sa i then sa i else 0

/-- `mjs_sa_to_os` reads inside the structure, and `mjs_sa_to_neutral` gives back the address that
it converted, but for what the family ignores. -/
structure OsCodecLaw (host : Host) (sa : Buffer) : Prop where
  reads : ∀ out, ∀ r ∈ (mjsSaToOs host sa out).reads, r.1 + r.2 ≤ SOCKADDR_BYTES
  roundTrip : ∀ out ss len, (mjsSaToOs host sa out).result = .ok (ss, len) →
    ∀ out' i, i < SOCKADDR_BYTES → mjsSaToNeutral host ss len out' i = normalized host sa i

/-! ### Integers and the family -/

theorem load_two (m : Buffer) (off : ℕ) : load m off 2 = le16 (ldU16 m off) := by
  rw [ldU16, le16_ofLe16]
  rfl

theorem load_four (m : Buffer) (off : ℕ) : load m off 4 = le32 (ldU32 m off) := by
  rw [ldU32, le32_ofLe32]
  rfl

theorem toNat_htons (v : UInt16) :
    (htons v).toNat = v.toNat / 2 ^ 8 + v.toNat % 2 ^ 8 * 2 ^ 8 := by
  have hv := v.toNat_lt
  have hlow : (v <<< 8).toNat = (v.toNat % 2 ^ 8) <<< 8 := by
    rw [UInt16.toNat_shiftLeft]
    change v.toNat <<< 8 % 2 ^ 16 = _
    rw [Nat.shiftLeft_eq, Nat.shiftLeft_eq]
    omega
  rw [htons, UInt16.toNat_or, hlow, toNat_shiftRight8, or_shiftLeft_of_lt (by omega)]

@[simp]
theorem htons_htons (v : UInt16) : htons (htons v) = v := by
  have hv := v.toNat_lt
  rw [← UInt16.toNat_inj, toNat_htons, toNat_htons]
  omega

/-- The family is a field like the others. -/
theorem ssFamily_storeAll {host : Host} {af : UInt8} {fs : List (ℕ × List UInt8)} (z : Buffer)
    (h : (familyField host af :: fs).Pairwise FieldsApart) :
    ssFamily host (z.storeAll (familyField host af :: fs)) = af.toUInt16 := by
  have hload := load_storeAll (m := z) h List.mem_cons_self
  cases host with
  | linux =>
    have hv : ofLe16 af 0 = af.toUInt16 := by simp [ofLe16]
    rw [← hv]
    exact ldU16_eq (hload.trans (le16_ofLe16 af 0).symm)
  | darwin =>
    have hbyte := List.cons.inj hload
    exact congrArg UInt8.toUInt16 hbyte.1

theorem familyOf_eq {sa : Buffer} {v : Int32} (h : familyOf sa = v) :
    load sa 0 4 = le32 v.toUInt32 := by
  rw [load_four, ← h]
  rfl

/-! ### The round trip -/

section RoundTrip

variable {host : Host} {sa ss out out' : Buffer} {len i : ℕ}

/-- The result of copying ranges into a zeroed structure. -/
theorem copy_apply (rs : List (ℕ × ℕ)) (hi : i < SOCKADDR_BYTES) :
    storeAll (out.store 0 (List.replicate SOCKADDR_BYTES 0))
      (rs.map fun r => (r.1, load sa r.1 r.2)) i =
      if ∃ r ∈ rs, r.1 ≤ i ∧ i < r.1 + r.2 then sa i else 0 := by
  rw [storeAll_load, store_replicate hi]

theorem roundTrip_inet (hfam : familyOf sa = MJS_SOCK_INET)
    (h : (mjsSaToOs host sa out).result = .ok (ss, len)) (hi : i < SOCKADDR_BYTES) :
    mjsSaToNeutral host ss len out' i = normalized host sa i := by
  rw [mjsSaToOs, if_pos hfam] at h
  obtain ⟨rfl, rfl⟩ := Prod.mk.inj (Except.ok.inj h)
  set z := out.store 0 (List.replicate 128 0)
  set fs := [(4, sa.load 16 4), (2, le16 (htons (ldU16 sa 4)))] with hfs
  have hpair : (familyField host AF_INET :: fs).Pairwise FieldsApart := by
    cases host <;> simp [hfs, familyField, FieldsApart]
  have hport : ldU16 (z.storeAll (familyField host AF_INET :: fs)) 2 = htons (ldU16 sa 4) :=
    ldU16_eq (load_storeAll (f := (2, le16 _)) hpair (by simp [hfs]))
  have haddr : load (z.storeAll (familyField host AF_INET :: fs)) 4 4 = load sa 16 4 :=
    load_storeAll (f := (4, load sa 16 4)) hpair (by simp [hfs])
  rw [mjsSaToNeutral, if_pos ⟨ssFamily_storeAll z hpair, Nat.le_refl _⟩, hport, haddr, htons_htons,
    ← load_two, ← familyOf_eq hfam]
  refine (copy_apply [(0, 4), (4, 2), (16, 4)] hi).trans (if_congr ?_ rfl rfl)
  simp only [Relevant, hfam, if_true, List.exists_mem_cons_iff, List.not_mem_nil, false_and,
    exists_false, or_false]
  omega

theorem roundTrip_inet6 (hne : familyOf sa ≠ MJS_SOCK_INET)
    (hfam : familyOf sa = MJS_SOCK_INET6 host)
    (h : (mjsSaToOs host sa out).result = .ok (ss, len)) (hi : i < SOCKADDR_BYTES) :
    mjsSaToNeutral host ss len out' i = normalized host sa i := by
  rw [mjsSaToOs, if_neg hne, if_pos hfam] at h
  obtain ⟨rfl, rfl⟩ := Prod.mk.inj (Except.ok.inj h)
  set z := out.store 0 (List.replicate 128 0)
  set fs := [(8, sa.load 16 16), (2, le16 (htons (ldU16 sa 4))), (4, le32 (ldU32 sa 8)),
    (24, le32 (ldU32 sa 12))] with hfs
  have hpair : (familyField host (AF_INET6 host) :: fs).Pairwise FieldsApart := by
    cases host <;> simp [hfs, familyField, FieldsApart]
  have hfamily := ssFamily_storeAll z hpair
  have hinet : (AF_INET6 host).toUInt16 ≠ AF_INET.toUInt16 := by cases host <;> decide
  have hport : ldU16 (z.storeAll (familyField host (AF_INET6 host) :: fs)) 2 = htons (ldU16 sa 4) :=
    ldU16_eq (load_storeAll (f := (2, le16 _)) hpair (by simp [hfs]))
  have hflow : ldU32 (z.storeAll (familyField host (AF_INET6 host) :: fs)) 4 = ldU32 sa 8 :=
    ldU32_eq (load_storeAll (f := (4, le32 _)) hpair (by simp [hfs]))
  have hscope : ldU32 (z.storeAll (familyField host (AF_INET6 host) :: fs)) 24 = ldU32 sa 12 :=
    ldU32_eq (load_storeAll (f := (24, le32 _)) hpair (by simp [hfs]))
  have haddr : load (z.storeAll (familyField host (AF_INET6 host) :: fs)) 8 16 = load sa 16 16 :=
    load_storeAll (f := (8, load sa 16 16)) hpair (by simp [hfs])
  rw [mjsSaToNeutral, if_neg (fun hc => hinet (hfamily.symm.trans hc.1)),
    if_pos ⟨hfamily, Nat.le_refl _⟩, hport, hflow, hscope, haddr, htons_htons, ← load_two,
    ← load_four, ← load_four, ← familyOf_eq hfam]
  refine (copy_apply [(0, 4), (4, 2), (8, 4), (12, 4), (16, 16)] hi).trans (if_congr ?_ rfl rfl)
  simp only [Relevant, if_neg hne, if_pos hfam, List.exists_mem_cons_iff, List.not_mem_nil,
    false_and, exists_false, or_false]
  omega

/-- What `mjs_sa_to_neutral` stores for a Unix address. -/
theorem mjsSaToNeutral_unix {n : ℕ} (hfamily : ssFamily host ss = AF_UNIX.toUInt16) :
    let cap := min ((2 + n + 1 + (2 ^ 64 - 2)) % 2 ^ 64) 103
    mjsSaToNeutral host ss (2 + n + 1) out =
      storeAll (out.store 0 (List.replicate SOCKADDR_BYTES 0))
        [(0, le32 MJS_SOCK_UNIX.toUInt32), (32, ss.load 2 cap), (32 + cap, [0]),
          (32 + 103, [0])] := by
  have hinet : AF_UNIX.toUInt16 ≠ AF_INET.toUInt16 := by decide
  have hinet6 : AF_UNIX.toUInt16 ≠ (AF_INET6 host).toUInt16 := by cases host <;> decide
  have hlen : saFamilySize host ≤ 2 + n + 1 := by
    cases host <;> simp only [saFamilySize] <;> omega
  rw [mjsSaToNeutral, if_neg (fun hc => hinet (hfamily.symm.trans hc.1)),
    if_neg (fun hc => hinet6 (hfamily.symm.trans hc.1)), if_pos ⟨hfamily, hlen⟩]

/-- The path comes back up to its zero byte, which has to be one of the first 104. -/
theorem roundTrip_unix (hne : familyOf sa ≠ MJS_SOCK_INET)
    (hne6 : familyOf sa ≠ MJS_SOCK_INET6 host) (hfam : familyOf sa = MJS_SOCK_UNIX)
    (hn : sa.strnlen 32 104 < 104) (h : (mjsSaToOs host sa out).result = .ok (ss, len))
    (hi : i < SOCKADDR_BYTES) : mjsSaToNeutral host ss len out' i = normalized host sa i := by
  have hnul : sa (32 + sa.strnlen 32 104) = 0 := eq_zero_of_strnlen_lt hn
  simp only [mjsSaToOs, if_neg hne, if_neg hne6, if_pos hfam] at h
  simp only [normalized, Relevant, if_neg hne, if_neg hne6]
  generalize sa.strnlen 32 104 = n at *
  split_ifs at h with hlong
  obtain ⟨rfl, rfl⟩ := Prod.mk.inj (Except.ok.inj h)
  set z := out.store 0 (List.replicate 128 0)
  have hpair : [familyField host AF_UNIX, (2, sa.load 32 (n + 1))].Pairwise FieldsApart := by
    cases host <;> simp [familyField, FieldsApart]
  obtain ⟨cap, hcap⟩ : ∃ cap, cap = min ((2 + n + 1 + (2 ^ 64 - 2)) % 2 ^ 64) 103 := ⟨_, rfl⟩
  have hcap_le : cap ≤ n + 1 ∧ n ≤ cap ∧ cap ≤ 103 := by omega
  have hbytes : load (z.storeAll [familyField host AF_UNIX, (2, sa.load 32 (n + 1))]) 2 (n + 1) =
      load sa 32 (n + 1) := by
    have hload := load_storeAll (m := z) (f := (2, sa.load 32 (n + 1))) hpair (by simp)
    rwa [length_load] at hload
  have hpath : load (z.storeAll [familyField host AF_UNIX, (2, sa.load 32 (n + 1))]) 2 cap =
      load sa 32 cap := by
    rw [← take_load hcap_le.1, hbytes, take_load hcap_le.1]
  rw [mjsSaToNeutral_unix (ssFamily_storeAll z hpair), ← hcap, hpath, ← familyOf_eq hfam]
  -- The two zero bytes after the copy are stored one by one.
  change Function.update (Function.update (storeAll (out'.store 0 (List.replicate SOCKADDR_BYTES 0))
    ([(0, 4), (32, cap)].map fun r => (r.1, load sa r.1 r.2))) (32 + cap) 0) (32 + 103) 0 i = _
  rw [Function.update_apply, Function.update_apply, copy_apply _ hi]
  simp only [List.exists_mem_cons_iff, List.not_mem_nil, false_and, exists_false, or_false]
  by_cases hin : i < 4 ∨ 32 ≤ i ∧ i < 32 + n
  · rw [if_pos hin, if_neg (by omega), if_neg (by omega), if_pos (by omega)]
  · rw [if_neg hin]
    by_cases hend : i = 32 + n
    · simp only [hend, hnul, ite_self]
    · have hout : ¬ (0 ≤ i ∧ i < 0 + 4 ∨ 32 ≤ i ∧ i < 32 + cap) ∨ i = 32 + cap := by omega
      rcases hout with hout | hout
      · simp only [if_neg hout, ite_self]
      · simp only [if_pos hout, ite_self]

end RoundTrip

/-! ### The law -/

/-- The reads of `mjs_sa_to_os` are inside the structure, unless it copies a path without a zero
byte. -/
theorem reads_le {host : Host} {sa : Buffer} (out : Buffer)
    (hn : familyOf sa = MJS_SOCK_UNIX → sa.strnlen 32 104 < sunPathSize host →
      sa.strnlen 32 104 < 104) :
    ∀ r ∈ (mjsSaToOs host sa out).reads, r.1 + r.2 ≤ SOCKADDR_BYTES := by
  rw [mjsSaToOs]
  dsimp only
  split_ifs with hinet hinet6 hunix hlong
  · simp [SOCKADDR_BYTES]
  · simp [SOCKADDR_BYTES]
  · rintro r (_ | ⟨_, _ | ⟨_, _ | _⟩⟩) <;> simp only [SOCKADDR_BYTES] <;> omega
  · have hlt := hn hunix (Nat.not_le.mp (not_or.mp hlong).2)
    rintro r (_ | ⟨_, _ | ⟨_, _ | ⟨_, _ | _⟩⟩⟩) <;> simp only [SOCKADDR_BYTES] <;> omega
  · simp [SOCKADDR_BYTES]

/-- A path without a zero byte passes the test against the `sun_path` of Linux. -/
theorem mjsSaToOs_unterminated {sa : Buffer} (hfam : familyOf sa = MJS_SOCK_UNIX)
    (hnul : ∀ i < 104, sa (32 + i) ≠ 0) (out : Buffer) : mjsSaToOs .linux sa out =
      ⟨[(0, 4), (32, 104), (32, 105)], .ok ((out.store 0 (List.replicate 128 0)).storeAll
        [familyField .linux AF_UNIX, (2, sa.load 32 105)], 107)⟩ := by
  rw [mjsSaToOs, hfam, strnlen_eq_iff.mpr hnul]
  rfl

/-- **The conversion of addresses** keeps its law apart from the Unix paths without a zero byte on
Linux. -/
theorem os_codec_law_iff (host : Host) (sa : Buffer) : OsCodecLaw host sa ↔
    ¬ (host = .linux ∧ familyOf sa = MJS_SOCK_UNIX ∧ ∀ i < 104, sa (32 + i) ≠ 0) := by
  constructor
  · rintro h ⟨rfl, hfam, hnul⟩
    have hreads := h.reads fun _ => 0
    rw [mjsSaToOs_unterminated hfam hnul] at hreads
    exact absurd (hreads (32, 105) (by simp)) (by decide)
  · intro h
    have hn (hfam : familyOf sa = MJS_SOCK_UNIX) (hlt : sa.strnlen 32 104 < sunPathSize host) :
        sa.strnlen 32 104 < 104 := by
      refine Nat.lt_of_le_of_ne (strnlen_le sa 32 104) fun heq => ?_
      cases host with
      | linux => exact h ⟨rfl, hfam, strnlen_eq_iff.mp heq⟩
      | darwin => exact absurd heq (Nat.ne_of_lt hlt)
    refine ⟨fun out => reads_le out hn, fun out ss len hok out' i hi => ?_⟩
    by_cases hinet : familyOf sa = MJS_SOCK_INET
    · exact roundTrip_inet hinet hok hi
    by_cases hinet6 : familyOf sa = MJS_SOCK_INET6 host
    · exact roundTrip_inet6 hinet hinet6 hok hi
    by_cases hunix : familyOf sa = MJS_SOCK_UNIX
    · refine roundTrip_unix hinet hinet6 hunix (hn hunix ?_) hok hi
      simp only [mjsSaToOs, if_neg hinet, if_neg hinet6, if_pos hunix] at hok
      split_ifs at hok with hlong
      exact Nat.not_le.mp (not_or.mp hlong).2
    · simp only [mjsSaToOs, if_neg hinet, if_neg hinet6, if_neg hunix] at hok
      cases hok

/-- A Unix address whose path has no zero byte. -/
def unterminated : Buffer := fun i => if i < 32 then (if i = 0 then 1 else 0) else 0x61

/-- On Linux the copy of such a path reads the byte after the structure, and the last byte of the
path is lost. -/
theorem os_codec_law_unterminated :
    (∃ ss len, mjsSaToOs .linux unterminated (fun _ => 0) =
        ⟨[(0, 4), (32, 104), (32, 105)], .ok (ss, len)⟩ ∧
      mjsSaToNeutral .linux ss len (fun _ => 0) 135 = 0 ∧
      normalized .linux unterminated 135 = 0x61) ∧
    ¬ OsCodecLaw .linux unterminated := by
  have hnul : ∀ i < 104, unterminated (32 + i) ≠ 0 := by
    intro i hi
    simp [unterminated]
  have hos := mjsSaToOs_unterminated rfl hnul fun _ => 0
  refine ⟨⟨_, _, hos, ?_, ?_⟩, fun h => ?_⟩
  · rw [mjsSaToNeutral_unix (n := 104) (ssFamily_storeAll _ (by simp [familyField, FieldsApart]))]
    -- The last store is the zero byte at the end of the path.
    simp only [storeAll, List.foldl_cons, List.foldl_nil]
    exact store_singleton_self
  · have hn : unterminated.strnlen 32 104 = 104 := strnlen_eq_iff.mpr hnul
    have hrel : Relevant .linux unterminated 135 := by
      unfold Relevant
      rw [hn]
      exact Or.inr ⟨by decide, by decide⟩
    rw [normalized, if_pos hrel]
    rfl
  have hreads := h.reads fun _ => 0
  rw [hos] at hreads
  exact absurd (hreads (32, 105) (by simp)) (by decide)

end MojitoSys.Io
