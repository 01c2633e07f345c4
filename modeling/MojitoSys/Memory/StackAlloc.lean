import MojitoSys.Status
import MojitoSys.Util.Rounding
import Mathlib.Data.List.Basic

/-!
# The stack allocator

`mjs_stack.c` reserves a stack as one mapping: guard pages at its low end, the usable span above
them, and the top of that span committed read-write. The sizes are `size_t` values, checked for a
wrap before each sum. The mapping sizes are kept in a registry, an array that grows and whose slots
are used again.

The world is the registry together with what the operating system holds: the mappings of the
allocator that are not unmapped, and the protection of every address.

## Main definitions

* `pageSize`, `roundUp`, `stackGeometry`: the sizes of `mjs_stack_alloc`.
* `Reservation`, `World`, `World.record`: the registry.
* `mjsStackAlloc`, `mjsStackFree`.

## Main results

* `roundUp_toNat`: the rounding, on arguments that do not wrap.
* `stackGeometry_spec`: the sizes of an accepted request.
-/

namespace MojitoSys.Memory

open Util

/-- An address of the process. -/
abbrev Addr := BitVec 64

/-- A `size_t`. -/
abbrev Size := BitVec 64

/-- `SIZE_MAX`. -/
def SIZE_MAX : Size := 0xFFFFFFFFFFFFFFFF

/-! ### The sizes -/

/-- `page_size`, for the value of `sysconf(_SC_PAGESIZE)`. -/
def pageSize (sys : BitVec 64) : Size := if 0 < sys.toInt then sys else 4096

/-- `round_up`. -/
def roundUp (n align : Size) : Size := (n + align - 1) / align * align

/-- The usable bytes that a request asks for: at least one page. -/
def usableReq (ps reserveBytes : Size) : Size := if reserveBytes = 0 then ps else reserveBytes

/-- The sizes of a reservation. -/
structure Geometry where
  guard : Size
  usable : Size
  commit : Size
  deriving DecidableEq, Repr

/-- The mapped size. -/
def Geometry.total (g : Geometry) : Size := g.guard + g.usable

/-- The checks of `mjs_stack_alloc` before its `mmap`; `none` is `-EINVAL`. -/
def stackGeometry (ps reserveBytes initialCommitBytes guardBytes : Size) : Option Geometry :=
  if guardBytes = 0 ∨ guardBytes % ps ≠ 0 then none
  else if guardBytes > SIZE_MAX - (ps - 1) then none
  else
    let guard := roundUp guardBytes ps
    if usableReq ps reserveBytes > SIZE_MAX - (ps - 1) then none
    else
      let usable := roundUp (usableReq ps reserveBytes) ps
      if guard > SIZE_MAX - usable then none
      else if initialCommitBytes > SIZE_MAX - (ps - 1) then none
      else
        let commit := roundUp initialCommitBytes ps
        some ⟨guard, usable, if commit > usable then usable else commit⟩

theorem pageSize_pos (sys : BitVec 64) : 0 < (pageSize sys).toNat := by
  unfold pageSize
  split
  · rename_i h
    rw [Nat.pos_iff_ne_zero]
    intro h0
    rw [BitVec.eq_of_toNat_eq (x := sys) (y := 0) h0] at h
    exact absurd h (by decide)
  · decide

section Sizes

variable {ps n : Size}

/-- The wrap check. -/
theorem add_le_of_no_wrap (hps : 0 < ps.toNat) (h : ¬ n > SIZE_MAX - (ps - 1)) :
    n.toNat + ps.toNat ≤ 2 ^ 64 := by
  simp only [SIZE_MAX] at h
  bv_omega

theorem roundUp_toNat (hps : 0 < ps.toNat) (h : n.toNat + ps.toNat ≤ 2 ^ 64) :
    (roundUp n ps).toNat = roundUpNat n.toNat ps.toNat := toNat_div_mul hps h

/-- The sizes of an accepted request: multiples of the page size that do not wrap, the commitment
clamped to the usable span. -/
structure Geometry.Ok (ps reserve commit guard : Size) (g : Geometry) : Prop where
  guard_eq : g.guard = guard
  guard_pos : 0 < guard.toNat
  dvd_guard : ps.toNat ∣ guard.toNat
  usable_eq : g.usable.toNat = roundUpNat (usableReq ps reserve).toNat ps.toNat
  total_eq : g.total.toNat = g.guard.toNat + g.usable.toNat
  commit_le : commit.toNat + ps.toNat ≤ 2 ^ 64
  commit_eq : g.commit.toNat = min (roundUpNat commit.toNat ps.toNat) g.usable.toNat

theorem stackGeometry_spec {reserve commit guard : Size} {g : Geometry} (hps : 0 < ps.toNat)
    (h : stackGeometry ps reserve commit guard = some g) : g.Ok ps reserve commit guard := by
  unfold stackGeometry at h
  split at h
  · cases h
  rename_i hguard
  split at h
  · cases h
  rename_i hguardMax
  simp only at h
  split at h
  · cases h
  rename_i husableMax
  split at h
  · cases h
  rename_i htotal
  split at h
  · cases h
  rename_i hcommitMax
  obtain rfl := Option.some.inj h
  have hg := add_le_of_no_wrap hps hguardMax
  have hu := add_le_of_no_wrap hps husableMax
  have hc := add_le_of_no_wrap hps hcommitMax
  obtain ⟨hne, hmod⟩ := not_or.mp hguard
  have hpos : 0 < guard.toNat := by
    rw [Nat.pos_iff_ne_zero]
    exact fun h0 => hne (BitVec.eq_of_toNat_eq h0)
  have hdvd : ps.toNat ∣ guard.toNat := by
    have hzero := congrArg BitVec.toNat (not_not.mp hmod)
    rw [BitVec.toNat_umod] at hzero
    exact Nat.dvd_of_mod_eq_zero hzero
  have hguardEq : roundUp guard ps = guard := by
    apply BitVec.eq_of_toNat_eq
    rw [roundUp_toNat hps hg, roundUpNat_of_dvd hps hdvd]
  refine ⟨hguardEq, hpos, hdvd, roundUp_toNat hps hu, ?_, hc, ?_⟩
  · simp only [Geometry.total, SIZE_MAX] at htotal ⊢
    bv_omega
  · simp only
    rw [← roundUp_toNat hps hc]
    split
    · rename_i hgt
      rw [min_eq_right (BitVec.lt_def.mp hgt).le]
    · rename_i hle
      rw [min_eq_left (not_lt.mp (mt BitVec.lt_def.mpr hle))]

end Sizes

/-! ### The registry -/

/-- The protection of an address. -/
inductive Prot
  | unmapped
  /-- `PROT_NONE`. -/
  | none
  | readWrite
  | other
  deriving DecidableEq, Repr

/-- `mjs_reservation`: the base and the mapped size; a base `NULL` is a free slot. -/
structure Reservation where
  base : Addr
  total : Size
  deriving DecidableEq, Repr

/-- The address lies in the range of `len` bytes from `base`. -/
def InRange (base len : ℕ) (x : ℕ) : Prop := base ≤ x ∧ x < base + len

instance (base len x : ℕ) : Decidable (InRange base len x) := inferInstanceAs (Decidable (_ ∧ _))

/-- Set the protection of a range. -/
def setProt (prot : ℕ → Prot) (base len : ℕ) (p : Prot) : ℕ → Prot :=
  fun x => if InRange base len x then p else prot x

/-- The registry, and what the operating system holds. -/
structure World where
  /-- `g_resv`, up to `g_resv_len`. -/
  resv : List Reservation
  /-- `g_resv_cap`. -/
  cap : ℕ
  /-- The mappings that the allocator made and that are not unmapped. -/
  mapped : List Reservation
  /-- The protection of every address. -/
  prot : ℕ → Prot

namespace World

/-- `mmap` of a range with `PROT_NONE`. -/
def mmap (w : World) (r : Reservation) : World :=
  { w with
    mapped := r :: w.mapped
    prot := setProt w.prot r.base.toNat r.total.toNat .none }

/-- `mprotect` of a range to `PROT_READ | PROT_WRITE`. -/
def commit (w : World) (addr : Addr) (len : Size) : World :=
  { w with prot := setProt w.prot addr.toNat len.toNat .readWrite }

/-- `munmap` of a mapping. -/
def munmap (w : World) (r : Reservation) : World :=
  { w with
    mapped := w.mapped.erase r
    prot := setProt w.prot r.base.toNat r.total.toNat .unmapped }

/-- The registration of a reservation: the first free slot, or a new one; `none` when the array
cannot grow. -/
def record (w : World) (r : Reservation) (realloc : Bool) : Option World :=
  match w.resv.findIdx? (·.base = 0) with
  | some i => some { w with resv := w.resv.set i r }
  | none =>
    if w.resv.length = w.cap then
      if realloc then
        some { w with
          resv := w.resv ++ [r]
          cap := if w.cap = 0 then 8 else w.cap * 2 }
      else none
    else some { w with resv := w.resv ++ [r] }

end World

/-! ### The calls -/

/-- How an `mprotect` ends; `none` for an `errno` of `0`. -/
inductive Answer
  | ok
  | failed (errno : Option Errno)
  deriving DecidableEq, Repr

/-- The answers of the operating system to the calls of an `mjs_stack_alloc`. -/
structure AllocAnswers where
  mmap : Except Errno Addr
  mprotect : Answer
  /-- The array can grow. -/
  realloc : Bool
  /-- The `munmap` of an unwinding succeeds. -/
  munmap : Bool

/-- The three out-parameters: the pointers, `none` for `NULL`, with the words that they point to. -/
structure Outs where
  base : Option (BitVec 64)
  guardLow : Option (BitVec 64)
  top : Option (BitVec 64)
  deriving DecidableEq, Repr

/-- How a call ends. -/
structure Ended (Out : Type) where
  status : Status
  out : Out
  world : World
  /-- The `munmap` calls, and whether they succeed. -/
  unmaps : List (Reservation × Bool)

/-- The unwinding of an `mjs_stack_alloc` that fails after its `mmap`: the result of the `munmap`
is not looked at. -/
def unwind (w : World) (r : Reservation) (outs : Outs) (err : Errno) (munmap : Bool) : Ended Outs :=
  ⟨some err, outs, if munmap then w.munmap r else w, [(r, munmap)]⟩

/-- `mjs_stack_alloc` from the mapped and committed reservation on. -/
def register (w : World) (r : Reservation) (g : Geometry) (outs : Outs) (ans : AllocAnswers) :
    Ended Outs :=
  match w.record r ans.realloc with
  | none => unwind w r outs .ENOMEM ans.munmap
  | some w => ⟨none, ⟨some r.base, some (r.base + g.guard), some (r.base + r.total)⟩, w, []⟩

/-- `mjs_stack_alloc`. -/
def mjsStackAlloc (sys : BitVec 64) (reserveBytes initialCommitBytes guardBytes : Size)
    (outs : Outs) (ans : AllocAnswers) (w : World) : Ended Outs :=
  if outs.base = none ∨ outs.guardLow = none ∨ outs.top = none then ⟨some .EINVAL, outs, w, []⟩
  else
    match stackGeometry (pageSize sys) reserveBytes initialCommitBytes guardBytes with
    | none => ⟨some .EINVAL, outs, w, []⟩
    | some g =>
      match ans.mmap with
      | .error err => ⟨some err, outs, w, []⟩
      | .ok base =>
        let r : Reservation := ⟨base, g.total⟩
        let w := w.mmap r
        if g.commit = 0 then register w r g outs ans
        else
          match ans.mprotect with
          | .failed errno => unwind w r outs (errno.getD EIO) ans.munmap
          | .ok => register (w.commit (base + (g.total - g.commit)) g.commit) r g outs ans

/-- `mjs_stack_free`; `none` for a `munmap` that succeeds. -/
def mjsStackFree (base : Option Addr) (munmap : Option Errno) (w : World) : Ended (Option Addr) :=
  match base with
  | none => ⟨some .EINVAL, base, w, []⟩
  | some b =>
    if b = 0 then ⟨some .EINVAL, base, w, []⟩
    else
      match w.resv.findIdx? (·.base = b) with
      | none => ⟨some .EINVAL, base, w, []⟩
      | some i =>
        let r : Reservation := ⟨b, (w.resv.getD i ⟨0, 0⟩).total⟩
        match munmap with
        | some err => ⟨some err, base, w, [(r, false)]⟩
        | none =>
          ⟨none, some 0, { w.munmap r with resv := w.resv.set i ⟨0, 0⟩ }, [(r, true)]⟩

end MojitoSys.Memory
