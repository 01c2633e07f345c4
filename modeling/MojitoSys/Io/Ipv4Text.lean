import MojitoSys.Io.Sockaddr
import MojitoSys.Util.Numeral
import Mathlib.Data.List.TakeWhile

/-!
# IPv4 addresses as text

`socket_address_parse_ipv4` and `socket_format_ipv4` of `io/socket.mojo` over `mjs_sockaddr_ipv4`
and `mjs_sockaddr_format4` of `mjs_socket.c`. The text reaches the parser as a C string in a buffer
of 64 bytes, cut to 62 bytes, and the address comes back through the 136 bytes of a `mjs_sockaddr`.
`inet_pton` and `inet_ntop` are those of the C library: the first has a loop over the bytes, with
the octet that it is in the middle of.

## Main definitions

* `inetPton4`, `inetNtop4`: the functions of the C library for `AF_INET`.
* `mjsSockaddrIpv4`, `mjsSockaddrFormat4`, `socketAddressParseIpv4`, `socketFormatIpv4`.
* `Ipv4TextLaw`: the two are inverse to each other, and what they refuse.

## Main results

* `inetPton4_eq_some_iff`: the loop accepts the texts that `inetNtop4` writes, and no others.
* `ipv4_text_law`: the law holds.
-/

namespace MojitoSys.Io

open Util Util.Buffer

/-! ### The C library -/

/-- The variables of the loop of `inet_pton` for `AF_INET`: the octets before `tp`, `*tp`,
`saw_digit` and `octets`. -/
structure PtonState where
  tmp : List UInt8
  tp : UInt8
  sawDigit : Bool
  octets : ℕ

/-- The variables before the loop. -/
def PtonState.init : PtonState := ⟨[], 0, false, 0⟩

/-- The body of the loop; `none` is a `return 0`. -/
def ptonByte (s : PtonState) (ch : UInt8) : Option PtonState :=
  if IsDigit ch then
    let new := s.tp.toNat * 10 + digitValue ch
    if s.sawDigit ∧ s.tp = 0 then none
    else if 255 < new then none
    else if s.sawDigit then some { s with tp := UInt8.ofNat new }
    else if 4 < s.octets + 1 then none
    else some { s with tp := UInt8.ofNat new, sawDigit := true, octets := s.octets + 1 }
  else if ch = 46 ∧ s.sawDigit then
    if s.octets = 4 then none
    else some { s with tmp := s.tmp ++ [s.tp], tp := 0, sawDigit := false }
  else none

/-- `inet_pton` for `AF_INET`, on the bytes of a C string. -/
def inetPton4 (src : List UInt8) : Option (List UInt8) :=
  (src.foldlM ptonByte .init).bind fun s => if s.octets < 4 then none else some (s.tmp ++ [s.tp])

/-- The text that `inet_ntop` writes for `AF_INET`, with the format `%u.%u.%u.%u`. -/
def inetNtop4 (o0 o1 o2 o3 : UInt8) : List UInt8 :=
  numeral o0.toNat ++ 46 :: (numeral o1.toNat ++ 46 :: (numeral o2.toNat ++ 46 :: numeral o3.toNat))

/-! ### The conversions -/

/-- `mjs_sockaddr_ipv4`, on the C string `dotted`: the status, and what `out` points to. -/
def mjsSockaddrIpv4 (dotted : List UInt8) (port : Int32) (out : Buffer) :
    MojitoSys.Status × Buffer :=
  if port < 0 ∨ 65535 < port then (some .EINVAL, out)
  else
    match inetPton4 dotted with
    | none => (some .EINVAL, out)
    | some a =>
      (none, (out.store 0 (List.replicate SOCKADDR_BYTES 0)).storeAll
        [(0, le32 MJS_SOCK_INET.toUInt32), (4, le16 port.toUInt32.toUInt16), (16, a)])

/-- `INET_ADDRSTRLEN`. -/
def INET_ADDRSTRLEN : ℕ := 16

/-- `mjs_sockaddr_format4`: the status, and what `out_buf` and `out_len` point to. -/
def mjsSockaddrFormat4 (addr outBuf : Buffer) (cap outLen : ℕ) : MojitoSys.Status × Buffer × ℕ :=
  if familyOf addr ≠ MJS_SOCK_INET then (some .EINVAL, outBuf, outLen)
  else
    let tmp := inetNtop4 (addr 16) (addr 17) (addr 18) (addr 19)
    -- `inet_ntop` refuses a text that does not fit into `tmp` with its zero byte.
    if INET_ADDRSTRLEN ≤ tmp.length then (some .ENOSPC, outBuf, outLen)
    else if cap < tmp.length + 1 then (some .EINVAL, outBuf, outLen)
    else (none, outBuf.store 0 (tmp ++ [0]), tmp.length)

/-- `_fill_dotted`: the buffer, and the number of bytes copied. -/
def fillDotted (dbuf : Buffer) (dotted : List UInt8) : Buffer × ℕ :=
  let n := if 62 < dotted.length then 62 else dotted.length
  (dbuf.store 0 (dotted.take n), n)

/-- `socket_address_parse_ipv4`, on what the two stack cells hold before. -/
def socketAddressParseIpv4 (dotted : List UInt8) (port : Int32) (dbuf outCell : Buffer) :
    Except MojitoSys.Errno SocketAddress :=
  let filled := fillDotted dbuf dotted
  let dbuf := filled.1.store filled.2 [0]
  match mjsSockaddrIpv4 (stringAt dbuf 64) port outCell with
  | (some e, _) => .error e
  | (none, out) => .ok (SocketAddress.fromBuffer out)

/-- `socket_format_ipv4`, on what the three stack cells hold before. -/
def socketFormatIpv4 (host : Host) (a : SocketAddress) (inCell obuf : Buffer) (lenSlot : ℕ) :
    Except MojitoSys.Errno (List UInt8) :=
  if a.family ≠ MJS_SOCK_INET then .error .EINVAL
  else
    match a.toBuffer host inCell with
    | .error e => .error e
    | .ok p =>
      match mjsSockaddrFormat4 p obuf 16 lenSlot with
      | (some e, _) => .error e
      | (none, obuf, n) => .ok ((obuf.load 0 n).flatMap chr)

namespace SocketAddress

/-- `SocketAddress.octet`. -/
def octet (a : SocketAddress) (k : ℕ) : UInt8 :=
  ((a.word (k / 4) >>> UInt32.ofNat (24 - 8 * (k % 4))) &&& 0xFF).toUInt8

/-- `SocketAddress.ipv4`. -/
def ipv4 (o0 o1 o2 o3 : UInt8) (port : Int32) : SocketAddress :=
  { init with family := MJS_SOCK_INET, port := port, w0 := ofBe32 o0 o1 o2 o3 }

/-- The text of the first four octets. -/
def dotted (a : SocketAddress) : List UInt8 :=
  inetNtop4 (a.octet 0) (a.octet 1) (a.octet 2) (a.octet 3)

end SocketAddress

/-- A port of 16 bits. -/
def IsPort (port : Int32) : Prop := 0 ≤ port ∧ port ≤ 0xFFFF

instance : DecidablePred IsPort := fun port => inferInstanceAs (Decidable (0 ≤ port ∧ _))

/-- A text is parsed exactly if the port is one and the text up to its first zero byte is that of
four octets, and the address is then the one of these octets; an address is formatted exactly if it
is an IPv4 address with a port; every refusal is `EINVAL`; formatting undoes parsing, but for what
follows a zero byte, and parsing undoes formatting, but for what is not part of an IPv4 address.
Nothing depends on what the stack cells held before. -/
structure Ipv4TextLaw (host : Host) : Prop where
  accepts : ∀ text port dbuf cell a, socketAddressParseIpv4 text port dbuf cell = .ok a ↔
    IsPort port ∧ ∃ o0 o1 o2 o3, text.takeWhile (· ≠ 0) = inetNtop4 o0 o1 o2 o3 ∧
      a = .ipv4 o0 o1 o2 o3 port
  refuses : ∀ text port dbuf cell e, socketAddressParseIpv4 text port dbuf cell = .error e →
    e = .EINVAL
  formats : ∀ a cell obuf len, socketFormatIpv4 host a cell obuf len =
    if a.family = MJS_SOCK_INET ∧ IsPort a.port then .ok a.dotted else .error .EINVAL
  formatParse : ∀ text port dbuf cell a, socketAddressParseIpv4 text port dbuf cell = .ok a →
    ∀ cell obuf len, socketFormatIpv4 host a cell obuf len = .ok (text.takeWhile (· ≠ 0))
  parseFormat : ∀ a cell obuf len text, socketFormatIpv4 host a cell obuf len = .ok text →
    ∀ dbuf cell, socketAddressParseIpv4 text a.port dbuf cell =
      .ok (.ipv4 (a.octet 0) (a.octet 1) (a.octet 2) (a.octet 3) a.port)

/-! ### The loop of `inet_pton` -/

namespace PtonState

variable {s s' : PtonState} {ch : UInt8} {bs : List UInt8} {n : ℕ}

/-- The only text that leads to a state. -/
def text (s : PtonState) : List UInt8 :=
  (s.tmp.flatMap fun o => numeral o.toNat ++ [46]) ++
    if s.sawDigit then numeral s.tp.toNat else []

/-- At most three octets are complete, and `octets` counts the one that was begun. -/
structure Ok (s : PtonState) : Prop where
  tmp : s.tmp.length ≤ 3
  octets : s.octets = s.tmp.length + s.sawDigit.toNat
  tp : s.sawDigit = false → s.tp = 0

theorem ok_init : init.Ok := ⟨Nat.zero_le 3, rfl, fun _ => rfl⟩

theorem toNat_ofNat_le (h : ¬ 255 < n) : (UInt8.ofNat n).toNat = n :=
  UInt8.toNat_ofNat_of_lt' (by simp only [UInt8.size]; omega)

/-- One byte is appended to the text. -/
theorem Ok.ptonByte (hs : s.Ok) (h : ptonByte s ch = some s') :
    s'.Ok ∧ s'.text = s.text ++ [ch] := by
  obtain ⟨htmp, hoctets, htp⟩ := hs
  rw [Io.ptonByte] at h
  by_cases hdigit : IsDigit ch
  · simp only [if_pos hdigit] at h
    split_ifs at h with hzero hlarge hsaw hfull
    · cases h
      have hpos : 0 < s.tp.toNat := by
        refine Nat.pos_of_ne_zero fun h0 => hzero ⟨hsaw, ?_⟩
        rw [← UInt8.toNat_inj, h0]
        rfl
      refine ⟨⟨htmp, hoctets, fun hno => absurd (hsaw.symm.trans hno) (by decide)⟩, ?_⟩
      simp only [text, if_pos hsaw, toNat_ofNat_le hlarge, ← numeral_append hpos hdigit,
        List.append_assoc]
    · cases h
      have hno : s.sawDigit = false := Bool.eq_false_iff.mpr hsaw
      have hnew : s.tp.toNat * 10 + digitValue ch = digitValue ch := by
        rw [htp hno]
        exact Nat.zero_add _
      rw [hnew] at hlarge
      refine ⟨⟨htmp, ?_, fun hno => Bool.noConfusion hno⟩, ?_⟩
      · rw [hoctets, hno]
        rfl
      · simp only [text, hnew, if_true, toNat_ofNat_le hlarge, numeral_digit hdigit, if_neg hsaw,
          List.append_nil]
  · simp only [if_neg hdigit] at h
    split_ifs at h with hdot hfull
    cases h
    obtain ⟨rfl, hsaw⟩ := hdot
    rw [hsaw] at hoctets
    have hlen : s.tmp.length ≠ 3 := fun h3 => hfull (by rw [hoctets, h3]; rfl)
    refine ⟨⟨?_, ?_, fun _ => rfl⟩, ?_⟩
    · rw [List.length_append, List.length_singleton]
      omega
    · rw [List.length_append, List.length_singleton, hoctets]
      rfl
    · simp only [text, if_pos hsaw, List.flatMap_append, List.flatMap_singleton, List.append_assoc,
        List.append_nil, Bool.false_eq_true, if_false]

/-- The state after some bytes has them as its text. -/
theorem Ok.foldlM (hs : s.Ok) (h : bs.foldlM Io.ptonByte s = some s') :
    s'.Ok ∧ s'.text = s.text ++ bs := by
  induction bs generalizing s with
  | nil =>
    cases h
    exact ⟨hs, (List.append_nil _).symm⟩
  | cons b bs ih =>
    rw [List.foldlM_cons] at h
    obtain ⟨s₁, h₁, h⟩ := Option.bind_eq_some_iff.mp h
    obtain ⟨hs₁, htext₁⟩ := hs.ptonByte h₁
    obtain ⟨hs', htext⟩ := ih hs₁ h
    exact ⟨hs', by rw [htext, htext₁, List.append_assoc, List.singleton_append]⟩

/-- The loop reads the numeral of an octet. -/
theorem foldlM_numeral (hn : n ≤ 255) (tmp : List UInt8) {k : ℕ} (hk : k < 4) :
    (numeral n).foldlM Io.ptonByte ⟨tmp, 0, false, k⟩ =
      some ⟨tmp, UInt8.ofNat n, true, k + 1⟩ := by
  induction n using numeral_induction with
  | digit b hb =>
    have hlt := digitValue_lt hb
    have hvalue : (0 : UInt8).toNat * 10 + digitValue b = digitValue b := Nat.zero_add _
    rw [numeral_digit hb, List.foldlM_cons, Io.ptonByte]
    simp only [if_pos hb, hvalue, Bool.false_eq_true, false_and, if_false,
      if_neg (show ¬ 255 < digitValue b by omega), if_neg (show ¬ 4 < k + 1 by omega)]
    rfl
  | append n b hpos hb ih =>
    have hle : n ≤ 255 := by omega
    have hvalue : (UInt8.ofNat n).toNat = n := toNat_ofNat_le (Nat.not_lt.mpr hle)
    have hne : UInt8.ofNat n ≠ 0 := by
      intro h0
      rw [h0] at hvalue
      exact absurd hvalue (Nat.ne_of_lt hpos)
    rw [← numeral_append hpos hb, List.foldlM_append, ih hle]
    simp only [Option.bind_eq_bind, Option.bind_some, List.foldlM_cons, List.foldlM_nil,
      Io.ptonByte, if_pos hb, hvalue, hne, and_false, if_false, if_neg (Nat.not_lt.mpr hn), if_true]
    rfl

/-- The loop reads the numeral of an octet and the dot after it. -/
theorem foldlM_numeral_dot (o : UInt8) (tmp : List UInt8) {k : ℕ} (hk : k < 3)
    (rest : List UInt8) : (numeral o.toNat ++ 46 :: rest).foldlM Io.ptonByte ⟨tmp, 0, false, k⟩ =
      rest.foldlM Io.ptonByte ⟨tmp ++ [o], 0, false, k + 1⟩ := by
  have ho := o.toNat_lt
  have hdot : Io.ptonByte ⟨tmp, o, true, k + 1⟩ 46 = some ⟨tmp ++ [o], 0, false, k + 1⟩ := by
    rw [Io.ptonByte, if_neg (by decide)]
    simp only [and_self, if_true, if_neg (show k + 1 ≠ 4 by omega)]
  rw [List.foldlM_append, foldlM_numeral (by omega) tmp (by omega), UInt8.ofNat_toNat]
  simp only [Option.bind_eq_bind, Option.bind_some, List.foldlM_cons, hdot]

end PtonState

/-- The loop accepts the texts that `inet_ntop` writes, and no others. -/
theorem inetPton4_eq_some_iff {src os : List UInt8} : inetPton4 src = some os ↔
    ∃ o0 o1 o2 o3, os = [o0, o1, o2, o3] ∧ src = inetNtop4 o0 o1 o2 o3 := by
  constructor
  · intro h
    obtain ⟨s, hs, h⟩ := Option.bind_eq_some_iff.mp h
    obtain ⟨⟨htmp, hoctets, -⟩, htext⟩ := PtonState.ok_init.foldlM hs
    split_ifs at h with hfew
    have hsaw : s.sawDigit = true := by
      by_contra hno
      rw [Bool.eq_false_iff.mpr hno] at hoctets
      exact hfew (by rw [hoctets]; exact Nat.lt_succ_of_le htmp)
    rw [hsaw] at hoctets
    have hlen : s.tmp.length = 3 := by
      have := Bool.toNat_true
      omega
    obtain ⟨o0, o1, o2, h3⟩ := List.length_eq_three.mp hlen
    refine ⟨o0, o1, o2, s.tp, ?_, ?_⟩
    · rw [← Option.some.inj h, h3]
      rfl
    · rw [← List.nil_append src]
      refine htext.symm.trans ?_
      simp only [PtonState.text, hsaw, h3, if_true, List.flatMap_cons, List.flatMap_nil,
        inetNtop4, List.append_assoc, List.append_nil, List.cons_append, List.nil_append]
  · rintro ⟨o0, o1, o2, o3, rfl, rfl⟩
    have h3 := o3.toNat_lt
    rw [inetPton4, inetNtop4, PtonState.init, PtonState.foldlM_numeral_dot o0 [] (by decide),
      PtonState.foldlM_numeral_dot o1 _ (by decide), PtonState.foldlM_numeral_dot o2 _ (by decide),
      PtonState.foldlM_numeral (by omega) _ (by decide), UInt8.ofNat_toNat]
    rfl

/-- The octet `04` has a leading zero. -/
example : inetPton4 [49, 46, 50, 46, 51, 46, 48, 52] = none := by decide

/-- The texts of addresses are short. -/
theorem length_inetNtop4_le (o0 o1 o2 o3 : UInt8) : (inetNtop4 o0 o1 o2 o3).length ≤ 15 := by
  have hlen (o : UInt8) : (numeral o.toNat).length ≤ 3 := by
    have := o.toNat_lt
    exact (length_numeral_le_iff (by decide)).mpr (by omega)
  have := hlen o0
  have := hlen o1
  have := hlen o2
  have := hlen o3
  simp only [inetNtop4, List.length_append, List.length_cons]
  omega

/-- The bytes of a text are digits and dots. -/
theorem mem_inetNtop4 {b o0 o1 o2 o3 : UInt8} (h : b ∈ inetNtop4 o0 o1 o2 o3) :
    IsDigit b ∨ b = 46 := by
  simp only [inetNtop4, List.mem_append, List.mem_cons] at h
  rcases h with h | h | h | h | h | h | h
  all_goals first
    | exact Or.inr h
    | exact Or.inl (isDigit_of_mem_numeral h)

/-! ### The way to the parser -/

section Parse

/-- The string in the buffer is the text up to its first zero byte, or the first 62 bytes of it. -/
theorem stringAt_fillDotted (dotted : List UInt8) (dbuf : Buffer) :
    stringAt ((fillDotted dbuf dotted).1.store (fillDotted dbuf dotted).2 [0]) 64 =
      (dotted.take 62).takeWhile (· ≠ 0) := by
  have htake : dotted.take (fillDotted dbuf dotted).2 = dotted.take 62 ∧
      (dotted.take 62).length = (fillDotted dbuf dotted).2 := by
    rw [fillDotted, List.length_take]
    split_ifs with hlong
    · exact ⟨rfl, by omega⟩
    · exact ⟨by rw [List.take_of_length_le (Nat.le_refl _), List.take_of_length_le (by omega)],
        by omega⟩
  have hlen : (dotted.take 62).length ≤ 62 := List.length_take_le 62 dotted
  have hfill : (fillDotted dbuf dotted).1 = dbuf.store 0 (dotted.take 62) := by
    rw [← htake.1]
    rfl
  rw [hfill, ← htake.2]
  exact stringAt_store (by omega)

/-- Cutting a text does not change whether it is a given short one. -/
theorem takeWhile_take_eq_iff {p : UInt8 → Bool} {text os : List UInt8} {n : ℕ}
    (h : os.length < n) : (text.take n).takeWhile p = os ↔ text.takeWhile p = os := by
  rw [← List.take_takeWhile]
  constructor
  · intro heq
    have hlen := congrArg List.length heq
    rw [List.length_take] at hlen
    rwa [List.take_of_length_le (by omega)] at heq
  · rintro rfl
    exact List.take_of_length_le (Nat.le_of_lt h)

/-- What `from_buffer` reads from what `mjs_sockaddr_ipv4` wrote. -/
theorem fromBuffer_ipv4 {port : Int32} (hport : IsPort port) (o0 o1 o2 o3 : UInt8)
    (out : Buffer) :
    SocketAddress.fromBuffer ((out.store 0 (List.replicate SOCKADDR_BYTES 0)).storeAll
      [(0, le32 MJS_SOCK_INET.toUInt32), (4, le16 port.toUInt32.toUInt16),
        (16, [o0, o1, o2, o3])]) = .ipv4 o0 o1 o2 o3 port := by
  set z := out.store 0 (List.replicate SOCKADDR_BYTES 0)
  set fs := [(0, le32 MJS_SOCK_INET.toUInt32), (4, le16 port.toUInt32.toUInt16),
    (16, [o0, o1, o2, o3])] with hfs
  have hpair : fs.Pairwise FieldsApart := by simp [hfs, FieldsApart]
  have hfamily : ldU32 (z.storeAll fs) 0 = MJS_SOCK_INET.toUInt32 :=
    ldU32_eq (load_storeAll (f := (0, le32 _)) hpair (by simp [hfs]))
  have hsin : ldU16 (z.storeAll fs) 4 = port.toUInt32.toUInt16 :=
    ldU16_eq (load_storeAll (f := (4, le16 _)) hpair (by simp [hfs]))
  have hoctets : (z.storeAll fs).load 16 4 = [o0, o1, o2, o3] :=
    load_storeAll (f := (16, [o0, o1, o2, o3])) hpair (by simp [hfs])
  have hzero {i : ℕ} (h : 6 ≤ i ∧ i < 16 ∨ 20 ≤ i ∧ i < SOCKADDR_BYTES) :
      z.storeAll fs i = 0 := by
    have hlt : i < SOCKADDR_BYTES := h.elim (fun h => Nat.lt_trans h.2 (by decide)) (·.2)
    refine (storeAll_of_disjoint ?_).trans (store_replicate hlt)
    simp only [hfs, List.forall_mem_cons, length_le32, length_le16]
    exact ⟨by omega, by omega, by change _ ∨ 16 + 4 ≤ i; omega, List.forall_mem_nil _⟩
  have hword {i : ℕ} (h : 6 ≤ i ∧ i + 3 < 16 ∨ 20 ≤ i ∧ i + 3 < SOCKADDR_BYTES) :
      (z.storeAll fs).load i 4 = le32 0 := by
    have hbytes : (z.storeAll fs).load i 4 = [z.storeAll fs i, z.storeAll fs (i + 1),
      z.storeAll fs (i + 2), z.storeAll fs (i + 3)] := rfl
    rw [hbytes, hzero (by omega), hzero (by omega), hzero (by omega), hzero (by omega)]
    decide
  ext : 1
  · exact congrArg UInt32.toInt32 hfamily
  · exact (congrArg (fun v => v.toUInt32.toInt32) hsin).trans (SocketAddress.toInt32_port hport)
  · exact ldU32_eq (v := 0) (hword (i := 8) (by decide))
  · exact ldU32_eq (v := 0) (hword (i := 12) (by decide))
  · have hbytes : (z.storeAll fs).load 16 4 = [z.storeAll fs 16, z.storeAll fs 17,
      z.storeAll fs 18, z.storeAll fs 19] := rfl
    simp only [hbytes, List.cons.injEq] at hoctets
    obtain ⟨h0, h1, h2, h3, -⟩ := hoctets
    simp only [SocketAddress.fromBuffer, SocketAddress.ipv4, h0, h1, h2, h3]
  · exact ofBe32_load (v := 0) (hword (i := 20) (by decide))
  · exact ofBe32_load (v := 0) (hword (i := 24) (by decide))
  · exact ofBe32_load (v := 0) (hword (i := 28) (by decide))
  · simp only [SocketAddress.fromBuffer, hfamily]
    rfl

/-- The parser on a text of any length. -/
theorem socketAddressParseIpv4_eq_ok_iff {text : List UInt8} {port : Int32} {dbuf cell : Buffer}
    {a : SocketAddress} : socketAddressParseIpv4 text port dbuf cell = .ok a ↔
      IsPort port ∧ ∃ o0 o1 o2 o3, text.takeWhile (· ≠ 0) = inetNtop4 o0 o1 o2 o3 ∧
        a = .ipv4 o0 o1 o2 o3 port := by
  have hports : IsPort port ↔ ¬ (port < 0 ∨ 65535 < port) := by
    rw [not_or, Int32.not_lt, Int32.not_lt]
    exact Iff.rfl
  simp only [socketAddressParseIpv4, stringAt_fillDotted, mjsSockaddrIpv4]
  by_cases hport : IsPort port
  · rw [if_neg (hports.mp hport)]
    constructor
    · intro h
      cases hparse : inetPton4 ((text.take 62).takeWhile (· ≠ 0)) with
      | none =>
        simp only [hparse] at h
        cases h
      | some os =>
        obtain ⟨o0, o1, o2, o3, rfl, hos⟩ := inetPton4_eq_some_iff.mp hparse
        simp only [hparse, fromBuffer_ipv4 hport, Except.ok.injEq] at h
        have hlen := length_inetNtop4_le o0 o1 o2 o3
        exact ⟨hport, o0, o1, o2, o3, (takeWhile_take_eq_iff (by omega)).mp hos, h.symm⟩
    · rintro ⟨-, o0, o1, o2, o3, htext, rfl⟩
      have hlen := length_inetNtop4_le o0 o1 o2 o3
      have hparse : inetPton4 ((text.take 62).takeWhile (· ≠ 0)) = some [o0, o1, o2, o3] :=
        inetPton4_eq_some_iff.mpr
          ⟨o0, o1, o2, o3, rfl, (takeWhile_take_eq_iff (by omega)).mpr htext⟩
      simp only [hparse, fromBuffer_ipv4 hport]
  · rw [if_pos (not_not.mp (mt hports.mpr hport))]
    simp [hport]

/-- The parser has one error. -/
theorem socketAddressParseIpv4_eq_error {text : List UInt8} {port : Int32} {dbuf cell : Buffer}
    {e : MojitoSys.Errno} (h : socketAddressParseIpv4 text port dbuf cell = .error e) :
    e = .EINVAL := by
  simp only [socketAddressParseIpv4, mjsSockaddrIpv4] at h
  split_ifs at h with hport
  · exact (Except.error.inj h).symm
  · split at h
    · rename_i heq
      split at heq
      · cases heq
        exact (Except.error.inj h).symm
      · cases heq
    · cases h

end Parse

/-! ### The way back -/

section Format

variable {host : Host} {a : SocketAddress}

/-- `to_buffer` writes no path for an IPv4 address. -/
theorem toBuffer_of_inet (h : a.family = MJS_SOCK_INET) (cell : Buffer) :
    a.toBuffer host cell = { a with path := [] }.toBuffer host cell := by
  have hne : a.family ≠ MJS_SOCK_UNIX := by
    rw [h]
    decide
  simp only [SocketAddress.toBuffer, if_neg hne]
  rfl

/-- The octets are the bytes of the words. -/
theorem be32_w0 (a : SocketAddress) :
    be32 a.w0 = [a.octet 0, a.octet 1, a.octet 2, a.octet 3] := rfl

/-- The octets of the address of four octets. -/
theorem octets_ipv4 (o0 o1 o2 o3 : UInt8) (port : Int32) :
    (SocketAddress.ipv4 o0 o1 o2 o3 port).dotted = inetNtop4 o0 o1 o2 o3 := by
  have hbe : be32 (ofBe32 o0 o1 o2 o3) = (le32 (ofLe32 o3 o2 o1 o0)).reverse := by
    rw [ofBe32_eq]
    rfl
  rw [le32_ofLe32] at hbe
  have hw := be32_w0 (.ipv4 o0 o1 o2 o3 port)
  rw [show (SocketAddress.ipv4 o0 o1 o2 o3 port).w0 = ofBe32 o0 o1 o2 o3 from rfl, hbe] at hw
  simp only [List.reverse_cons, List.reverse_nil, List.nil_append, List.cons_append,
    List.cons.injEq] at hw
  obtain ⟨h0, h1, h2, h3, -⟩ := hw
  rw [SocketAddress.dotted, ← h0, ← h1, ← h2, ← h3]

/-- `chr` of every byte of the text of an address is the text. -/
theorem flatMap_chr_dotted (a : SocketAddress) : a.dotted.flatMap chr = a.dotted := by
  refine SocketAddress.flatMap_chr_eq_iff.mpr fun b hb => ?_
  rcases mem_inetNtop4 hb with hdigit | rfl
  · have h57 := (isDigit_iff.mp hdigit).2
    exact UInt8.lt_iff_toNat_lt.mpr (Nat.lt_of_le_of_lt h57 (by decide))
  · decide

/-- `mjs_sockaddr_format4` in a buffer of 16 bytes: the text always fits. -/
theorem mjsSockaddrFormat4_eq {addr : Buffer} (h : familyOf addr = MJS_SOCK_INET) (outBuf : Buffer)
    (outLen : ℕ) :
    let text := inetNtop4 (addr 16) (addr 17) (addr 18) (addr 19)
    mjsSockaddrFormat4 addr outBuf 16 outLen =
      (none, outBuf.store 0 (text ++ [0]), text.length) := by
  intro text
  have hlen : text.length ≤ 15 := length_inetNtop4_le _ _ _ _
  have hfits : ¬ INET_ADDRSTRLEN ≤ text.length := Nat.not_le.mpr (Nat.lt_succ_of_le hlen)
  rw [mjsSockaddrFormat4, if_neg (not_not.mpr h)]
  have hcap : ¬ 16 < text.length + 1 := by omega
  exact (if_neg hfits).trans (if_neg hcap)

/-- What the formatter writes. -/
theorem socketFormatIpv4_eq (a : SocketAddress) (cell obuf : Buffer) (len : ℕ) :
    socketFormatIpv4 host a cell obuf len =
      if a.family = MJS_SOCK_INET ∧ IsPort a.port then .ok a.dotted else .error .EINVAL := by
  by_cases hfam : a.family = MJS_SOCK_INET
  · by_cases hport : IsPort a.port
    · have hlen := length_inetNtop4_le (a.octet 0) (a.octet 1) (a.octet 2) (a.octet 3)
      set a' : SocketAddress := { a with path := [] }
      have hne : a.family ≠ MJS_SOCK_UNIX := by
        rw [hfam]
        decide
      have hbuf := @SocketAddress.toBuffer_eq host a' hport (Nat.zero_le _) (fun _ => rfl) cell
      set p := (cell.store 0 (List.replicate SOCKADDR_BYTES 0)).storeAll a'.fields
      have hfamily : familyOf p = MJS_SOCK_INET := by
        have hload : p.load 0 4 = le32 a.family.toUInt32 :=
          load_storeAll (f := (0, le32 _)) a'.fields_pairwise (by simp [a', SocketAddress.fields])
        rw [familyOf, ldU32_eq hload, hfam]
        rfl
      have hoctets : p.load 16 4 = be32 a.w0 :=
        load_storeAll (f := (16, be32 _)) a'.fields_pairwise (by simp [a', SocketAddress.fields])
      have hbytes : p.load 16 4 = [p 16, p 17, p 18, p 19] := rfl
      simp only [hbytes, be32_w0, List.cons.injEq] at hoctets
      obtain ⟨h0, h1, h2, h3, -⟩ := hoctets
      have htext : inetNtop4 (p 16) (p 17) (p 18) (p 19) = a.dotted := by
        rw [h0, h1, h2, h3, SocketAddress.dotted]
      rw [if_pos ⟨hfam, hport⟩, socketFormatIpv4, if_neg (not_not.mpr hfam), toBuffer_of_inet hfam,
        hbuf]
      simp only [mjsSockaddrFormat4_eq hfamily, htext]
      rw [← take_load (Nat.le_add_right _ 1), ← List.length_singleton (a := (0 : UInt8)),
        ← List.length_append, load_store, List.take_left, flatMap_chr_dotted]
    · have hrefuse : a.port < 0 ∨ 0xFFFF < a.port := by
        by_contra hin
        rw [not_or, Int32.not_lt, Int32.not_lt] at hin
        exact hport hin
      rw [if_neg (fun h => hport h.2), socketFormatIpv4, if_neg (not_not.mpr hfam),
        SocketAddress.toBuffer, if_pos hrefuse]
  · rw [if_neg (fun h => hfam h.1), socketFormatIpv4, if_pos hfam]

end Format

/-- **Parsing and formatting IPv4 addresses** are inverse to each other. -/
theorem ipv4_text_law (host : Host) : Ipv4TextLaw host where
  accepts _ _ _ _ _ := socketAddressParseIpv4_eq_ok_iff
  refuses _ _ _ _ _ := socketAddressParseIpv4_eq_error
  formats a cell obuf len := socketFormatIpv4_eq a cell obuf len
  formatParse text port dbuf cell a h cell' obuf len := by
    obtain ⟨hport, o0, o1, o2, o3, htext, rfl⟩ := socketAddressParseIpv4_eq_ok_iff.mp h
    rw [socketFormatIpv4_eq, if_pos ⟨rfl, hport⟩, octets_ipv4, htext]
  parseFormat a cell obuf len text h dbuf cell' := by
    rw [socketFormatIpv4_eq] at h
    split_ifs at h with hok
    cases h
    refine socketAddressParseIpv4_eq_ok_iff.mpr ⟨hok.2, _, _, _, _, ?_, rfl⟩
    refine List.takeWhile_eq_self_iff.mpr fun b hb => ?_
    rcases mem_inetNtop4 hb with hdigit | rfl
    · have h48 := (isDigit_iff.mp hdigit).1
      rw [decide_eq_true_iff]
      rintro rfl
      exact absurd h48 (by decide)
    · decide

end MojitoSys.Io
