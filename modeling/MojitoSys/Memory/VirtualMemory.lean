import MojitoSys.Status
import MojitoSys.Util.Rounding
import Mathlib.Data.Set.Basic

/-!
# Ranges of a reservation

`memory/virtual_memory.mojo` over `mjs_vm.c`: a `VirtualMemory` is a reservation of address space,
and `commit`, `decommit` and `protect` change a range of it, given by an offset and a length. A
range is checked against the reservation in signed arithmetic, then its start is rounded down and
its end is rounded up to whole pages, and the C function below makes the system calls unless the
rounded range is empty.

The system calls are recorded with the range that they ask for; their answers are a parameter.

## Main definitions

* `Syscall`, `issue`, `mjsVmCommit`, `mjsVmDecommit`, `mjsVmProtect`, `mjsVmReserve`.
* `VirtualMemory`, `VirtualMemory.run`: the reservation and its three operations.
* `VirtualMemory.Live`: a reservation that has not been released.
* `VirtualMemory.RangeLaw`: an operation raises, or changes exactly the pages of its range.

## Main results

* `VirtualMemory.live_reserve`, `VirtualMemory.Live.run`: the reservations that callers hold.
* `VirtualMemory.range_law_iff`: the ranges for which the law fails.
-/

namespace MojitoSys.Memory

open Util

/-! ### The C functions -/

/-- What a system call does to its pages. -/
inductive SyscallKind
  | mprotect (prot : BitVec 32)
  /-- A fresh inaccessible mapping in place of the old one. -/
  | mmapFixed
  deriving DecidableEq, Repr

/-- A system call on a range of addresses. -/
structure Syscall where
  kind : SyscallKind
  addr : BitVec 64
  len : BitVec 64
  deriving DecidableEq, Repr

/-- Issue system calls in order until one fails. -/
def issue (ans : Syscall → Status) : List Syscall → List Syscall × Status
  | [] => ([], none)
  | c :: cs =>
    match ans c with
    | some err => ([c], some err)
    | none => ((c :: (issue ans cs).1), (issue ans cs).2)

/-- `PROT_READ | PROT_WRITE`. -/
def PROT_RW : BitVec 32 := 3

/-- `PROT_NONE`. -/
def PROT_NONE : BitVec 32 := 0

namespace VirtualMemory

/-- The common shape of the three functions. -/
def mjsVmRange (ans : Syscall → Status) (addr len : BitVec 64) (kinds : List SyscallKind) :
    List Syscall × Status :=
  if addr = 0 then ([], some .EINVAL)
  else if len = 0 then ([], none)
  else issue ans (kinds.map fun kind => ⟨kind, addr, len⟩)

/-- `mjs_vm_commit`. -/
def mjsVmCommit (ans : Syscall → Status) (addr len : BitVec 64) : List Syscall × Status :=
  mjsVmRange ans addr len [.mprotect PROT_RW]

/-- `mjs_vm_decommit`. -/
def mjsVmDecommit (ans : Syscall → Status) (addr len : BitVec 64) : List Syscall × Status :=
  mjsVmRange ans addr len [.mprotect PROT_NONE, .mmapFixed]

/-- `mjs_vm_protect`. -/
def mjsVmProtect (ans : Syscall → Status) (addr len : BitVec 64) (flags : BitVec 32) :
    List Syscall × Status :=
  mjsVmRange ans addr len [.mprotect flags]

/-- `mjs_vm_reserve`, for the granularity `gran`, when `mmap` answers `ans`: the base and the
size. -/
def mjsVmReserve (gran bytes : BitVec 64) (ans : BitVec 64 → Except Errno (BitVec 64)) :
    Except Errno (BitVec 64 × BitVec 64) :=
  if BitVec.allOnes 64 - gran < bytes then .error .EINVAL
  else
    let n := if bytes = 0 then gran else bytes
    let total := (n + gran - 1) / gran * gran
    (ans total).map fun base => (base, total)

end VirtualMemory

/-! ### The wrapper -/

/-- `_page_down`. -/
def pageDown (n quantum : BitVec 64) : BitVec 64 := n &&& ~~~(quantum - 1)

/-- `_page_up`. -/
def pageUp (n quantum : BitVec 64) : BitVec 64 := (n + (quantum - 1)) &&& ~~~(quantum - 1)

/-- `_validate_range`. -/
def validateRange (offset length reservedBytes : BitVec 64) : Status :=
  if offset.toInt < 0 ∨ length.toInt < 0 ∨ reservedBytes.toInt < (offset + length).toInt then
    some .EINVAL
  else none

/-- A reservation of address space. -/
structure VirtualMemory where
  base : BitVec 64
  reservedBytes : BitVec 64
  committedBytes : BitVec 64
  quantum : BitVec 64

/-- The operations on a range. -/
inductive RangeOp
  | commit
  | decommit
  | protect (flags : BitVec 32)

namespace VirtualMemory

/-- `VirtualMemory.reserve`; the granularity is the page size. -/
def reserve (pageSize bytes : BitVec 64) (ans : BitVec 64 → Except Errno (BitVec 64)) :
    Except Errno VirtualMemory :=
  (mjsVmReserve pageSize bytes ans).map fun out => ⟨out.1, out.2, 0, pageSize⟩

/-- The body that the operations share: `call` is the C function, and `done` is the value after a
call that succeeded, for the end of the rounded range. -/
def onRange (vm : VirtualMemory) (offset length : BitVec 64)
    (call : BitVec 64 → BitVec 64 → List Syscall × Status) (done : BitVec 64 → VirtualMemory) :
    List Syscall × Except Errno VirtualMemory :=
  match validateRange offset length vm.reservedBytes with
  | some err => ([], .error err)
  | none =>
    let start := pageDown offset vm.quantum
    let stop := pageUp (offset + length) vm.quantum
    match call (vm.base + start) (stop - start) with
    | (calls, some err) => (calls, .error err)
    | (calls, none) => (calls, .ok (done stop))

/-- `VirtualMemory.commit`. -/
def commit (vm : VirtualMemory) (offset length : BitVec 64) (ans : Syscall → Status) :
    List Syscall × Except Errno VirtualMemory :=
  vm.onRange offset length (mjsVmCommit ans) fun stop =>
    if vm.committedBytes.toInt < stop.toInt then { vm with committedBytes := stop } else vm

/-- `VirtualMemory.decommit`. -/
def decommit (vm : VirtualMemory) (offset length : BitVec 64) (ans : Syscall → Status) :
    List Syscall × Except Errno VirtualMemory :=
  vm.onRange offset length (mjsVmDecommit ans) fun _ => vm

/-- `VirtualMemory.protect`. -/
def protect (vm : VirtualMemory) (offset length : BitVec 64) (flags : BitVec 32)
    (ans : Syscall → Status) : List Syscall × Except Errno VirtualMemory :=
  vm.onRange offset length (fun addr len => mjsVmProtect ans addr len flags) fun _ => vm

/-- One of the three operations. -/
def run (vm : VirtualMemory) (op : RangeOp) (offset length : BitVec 64) (ans : Syscall → Status) :
    List Syscall × Except Errno VirtualMemory :=
  match op with
  | .commit => vm.commit offset length ans
  | .decommit => vm.decommit offset length ans
  | .protect flags => vm.protect offset length flags ans

/-- A reservation that has not been released: pages of `2 ^ k` bytes, in the lower half of the
address space, where the system maps the memory of a process. -/
structure Live (vm : VirtualMemory) (k : ℕ) : Prop where
  quantum : vm.quantum.toNat = 2 ^ k
  base_pos : 0 < vm.base.toNat
  base_dvd : 2 ^ k ∣ vm.base.toNat
  reserved_pos : 0 < vm.reservedBytes.toNat
  reserved_dvd : 2 ^ k ∣ vm.reservedBytes.toNat
  user : vm.base.toNat + vm.reservedBytes.toNat ≤ 2 ^ 63

end VirtualMemory

/-! ### Pages -/

/-- The pages of `q` bytes that have an address from `lo` on and below `hi`. -/
def pagesOf (q : ℕ) (lo hi : ℤ) : Set ℤ :=
  {a | (q : ℤ) ∣ a ∧ ∃ x, a ≤ x ∧ x < a + q ∧ lo ≤ x ∧ x < hi}

/-- The pages that a system call asks for. -/
def Syscall.pages (c : Syscall) (q : ℕ) : Set ℤ :=
  pagesOf q c.addr.toNat (c.addr.toNat + c.len.toNat)

namespace VirtualMemory

/-- The addresses of the pages of a reservation. -/
def pages (vm : VirtualMemory) : Set ℤ :=
  {a | vm.base.toNat ≤ a ∧ a < vm.base.toNat + vm.reservedBytes.toNat}

/-- The pages of the reservation that intersect the range of an operation. -/
def rangePages (vm : VirtualMemory) (offset length : BitVec 64) (q : ℕ) : Set ℤ :=
  pagesOf q (vm.base.toNat + offset.toInt) (vm.base.toNat + offset.toInt + length.toInt) ∩ vm.pages

/-- An operation raises without a system call, or its system calls are on exactly the pages of its
range, so never on a page outside the reservation, and on none for the length zero. -/
structure RangeLaw (vm : VirtualMemory) (q : ℕ) (op : RangeOp) (offset length : BitVec 64)
    (ans : Syscall → Status) : Prop where
  exact : ((vm.run op offset length ans).1 = [] ∧
      ∃ err, (vm.run op offset length ans).2 = .error err) ∨
    ∀ c ∈ (vm.run op offset length ans).1, c.pages q = vm.rangePages offset length q
  inside : ∀ c ∈ (vm.run op offset length ans).1, c.pages q ⊆ vm.pages
  empty : length = 0 → ∀ c ∈ (vm.run op offset length ans).1, c.pages q = ∅

end VirtualMemory

section Pages

variable {q : ℕ} {a c lo hi : ℤ}

theorem mem_pagesOf (hq : 0 < q) :
    a ∈ pagesOf q lo hi ↔ (q : ℤ) ∣ a ∧ lo < hi ∧ lo < a + q ∧ a < hi := by
  constructor
  · rintro ⟨hdvd, x, h1, h2, h3, h4⟩
    exact ⟨hdvd, by omega, by omega, by omega⟩
  · rintro ⟨hdvd, h1, h2, h3⟩
    exact ⟨hdvd, max a lo, by omega, by omega, by omega, by omega⟩

/-- A multiple is above the multiple below a number exactly when it is above the number. -/
theorem cast_div_mul_lt_iff (hq : 0 < q) (hc : (q : ℤ) ∣ c) (n : ℕ) :
    ((n / q * q : ℕ) : ℤ) < c ↔ (n : ℤ) < c := by
  by_cases hneg : c < 0
  · omega
  · obtain ⟨m, rfl⟩ := Int.eq_ofNat_of_zero_le (Int.not_lt.mp hneg)
    rw [Int.ofNat_lt, Int.ofNat_lt, div_mul_lt_iff hq (Int.natCast_dvd_natCast.mp hc)]

/-- A multiple is below the rounding of a number exactly when it is below the number. -/
theorem lt_cast_roundUpNat_iff (hq : 0 < q) (hc : (q : ℤ) ∣ c) (n : ℕ) :
    c < (roundUpNat n q : ℕ) ↔ c < (n : ℤ) := by
  by_cases hneg : c < 0
  · omega
  · obtain ⟨m, rfl⟩ := Int.eq_ofNat_of_zero_le (Int.not_lt.mp hneg)
    rw [Int.ofNat_lt, Int.ofNat_lt, lt_roundUpNat_iff hq (Int.natCast_dvd_natCast.mp hc)]

end Pages

/-! ### The rounded range -/

section Words

variable {n u : BitVec 64} {k : ℕ}

theorem toNat_pageDown (hu : u.toNat = 2 ^ k) : (pageDown n u).toNat = n.toNat / 2 ^ k * 2 ^ k :=
  toNat_and_not_mask hu

theorem toNat_pageUp (hu : u.toNat = 2 ^ k) (h : n.toNat + 2 ^ k ≤ 2 ^ 64) :
    (pageUp n u).toNat = roundUpNat n.toNat (2 ^ k) := by
  have hsum : n + (u - 1) = n + u - 1 := by bv_omega
  rw [← hu] at h ⊢
  rw [pageUp, hsum]
  exact toNat_round_mask hu h

/-- The rounding up to `2 ^ 64` wraps to zero. -/
theorem toNat_pageUp_of_lt (hu : u.toNat = 2 ^ k) (h : 2 ^ 64 < n.toNat + 2 ^ k) :
    (pageUp n u).toNat = 0 := by
  have hpos := Nat.two_pow_pos k
  have hsum : (n + (u - 1)).toNat < 2 ^ k := by
    rw [← hu] at h hpos ⊢
    bv_omega
  rw [pageUp, toNat_and_not_mask hu, Nat.div_eq_of_lt hsum, Nat.zero_mul]

end Words

namespace VirtualMemory

variable {vm : VirtualMemory} {k : ℕ} {op : RangeOp} {offset length : BitVec 64}
  {ans : Syscall → Status}

theorem Live.two_pow_le (h : vm.Live k) : 2 ^ k ≤ 2 ^ 62 := by
  have hbase := Nat.le_of_dvd h.base_pos h.base_dvd
  have hres := Nat.le_of_dvd h.reserved_pos h.reserved_dvd
  have := h.user
  omega

/-- What `reserve` returns is live, if `mmap` answers with pages in the lower half of the address
space. -/
theorem live_reserve {pageSize bytes : BitVec 64} {mmap : BitVec 64 → Except Errno (BitVec 64)}
    (hps : pageSize.toNat = 2 ^ k)
    (hmmap : ∀ total base, mmap total = .ok base → 0 < base.toNat ∧ 2 ^ k ∣ base.toNat ∧
      base.toNat + total.toNat ≤ 2 ^ 63)
    (h : reserve pageSize bytes mmap = .ok vm) : vm.Live k := by
  have hpow := Nat.two_pow_pos k
  have hlt := pageSize.isLt
  rw [reserve, mjsVmReserve] at h
  by_cases hwrap : BitVec.allOnes 64 - pageSize < bytes
  · rw [if_pos hwrap] at h
    cases h
  rw [if_neg hwrap] at h
  obtain ⟨n, hn⟩ : ∃ n, n = if bytes = 0 then pageSize else bytes := ⟨_, rfl⟩
  rw [← hn] at h
  dsimp only at h
  have hroom : 0 < n.toNat ∧ n.toNat + pageSize.toNat ≤ 2 ^ 64 := by
    rw [hn]
    split_ifs with hzero
    · have hk : k < 64 := (Nat.pow_lt_pow_iff_right (by decide)).mp (hps ▸ hlt)
      have hle : 2 ^ k ≤ 2 ^ 63 := Nat.pow_le_pow_right (by decide) (Nat.le_of_lt_succ hk)
      omega
    · have hbytes : bytes.toNat ≠ 0 := fun h0 => hzero (BitVec.toNat_inj.mp h0)
      have hmax : (BitVec.allOnes 64 - pageSize).toNat = 2 ^ 64 - 1 - pageSize.toNat := by
        rw [BitVec.toNat_sub, BitVec.toNat_allOnes]
        omega
      have hle := mt BitVec.lt_def.mpr hwrap
      omega
  have htotal := toNat_div_mul (by omega) hroom.2
  cases hans : mmap ((n + pageSize - 1) / pageSize * pageSize) with
  | error err =>
    rw [hans] at h
    cases h
  | ok base =>
    obtain ⟨hpos, hdvd, huser⟩ := hmmap _ base hans
    rw [hans] at h
    obtain rfl := Except.ok.inj h
    have hle := le_roundUpNat (n := n.toNat) (u := pageSize.toNat) (by omega)
    refine ⟨hps, hpos, hdvd, ?_, ?_, huser⟩
    · rw [htotal]
      omega
    · rw [htotal, ← hps]
      exact dvd_roundUpNat _ _

theorem onRange_ok {call : BitVec 64 → BitVec 64 → List Syscall × Status}
    {done : BitVec 64 → VirtualMemory} {vm' : VirtualMemory}
    (h : (vm.onRange offset length call done).2 = .ok vm') : ∃ stop, vm' = done stop := by
  rw [onRange] at h
  split at h
  · cases h
  · dsimp only at h
    split at h
    · cases h
    · exact ⟨_, (Except.ok.inj h).symm⟩

/-- The operations keep the reservation. -/
theorem Live.run (h : vm.Live k) {vm' : VirtualMemory}
    (hrun : (vm.run op offset length ans).2 = .ok vm') : vm'.Live k := by
  cases op with
  | commit =>
    obtain ⟨stop, rfl⟩ := onRange_ok hrun
    split_ifs
    · exact ⟨h.quantum, h.base_pos, h.base_dvd, h.reserved_pos, h.reserved_dvd, h.user⟩
    · exact h
  | decommit =>
    obtain ⟨stop, rfl⟩ := onRange_ok hrun
    exact h
  | protect flags =>
    obtain ⟨stop, rfl⟩ := onRange_ok hrun
    exact h

/-- The range passes the check: it is inside the reservation, or its end overflows. -/
theorem validateRange_eq_none (h : vm.Live k) :
    validateRange offset length vm.reservedBytes = none ↔
      0 ≤ offset.toInt ∧ 0 ≤ length.toInt ∧
        (offset.toNat + length.toNat ≤ vm.reservedBytes.toNat ∨
          2 ^ 63 ≤ offset.toNat + length.toNat) := by
  have hbase := h.base_pos
  have huser := h.user
  have hsum : (offset + length).toNat = (offset.toNat + length.toNat) % 2 ^ 64 :=
    BitVec.toNat_add _ _
  simp only [validateRange, BitVec.toInt_eq_toNat_cond]
  split_ifs <;> simp <;> omega

/-- The start of the rounded range. -/
theorem toNat_start (h : vm.Live k) (h0 : 0 ≤ offset.toInt) :
    (vm.base + pageDown offset vm.quantum).toNat =
      vm.base.toNat + offset.toNat / 2 ^ k * 2 ^ k := by
  have huser := h.user
  have hpos := h.reserved_pos
  have hle := Nat.div_mul_le_self offset.toNat (2 ^ k)
  have hoff := toNat_lt_of_nonneg h0
  rw [BitVec.toNat_add, toNat_pageDown h.quantum, Nat.mod_eq_of_lt (by omega)]

/-- The size of the rounded range, also when the end of the range overflows. -/
theorem toNat_span (h : vm.Live k) (h0 : 0 ≤ offset.toInt) (h1 : 0 ≤ length.toInt) :
    (pageUp (offset + length) vm.quantum - pageDown offset vm.quantum).toNat =
      roundUpNat (offset.toNat + length.toNat) (2 ^ k) - offset.toNat / 2 ^ k * 2 ^ k := by
  have hpow := Nat.two_pow_pos k
  have hk := h.two_pow_le
  have hdown := Nat.div_mul_le_self offset.toNat (2 ^ k)
  have hup := le_roundUpNat (n := offset.toNat + length.toNat) hpow
  have hoff := toNat_lt_of_nonneg h0
  have hlen := toNat_lt_of_nonneg h1
  have hsum : (offset + length).toNat = offset.toNat + length.toNat := by
    rw [BitVec.toNat_add, Nat.mod_eq_of_lt (by omega)]
  rw [BitVec.toNat_sub, toNat_pageDown h.quantum]
  by_cases hfit : offset.toNat + length.toNat + 2 ^ k ≤ 2 ^ 64
  · have hlt := roundUpNat_lt (n := offset.toNat + length.toNat) hpow
    rw [toNat_pageUp h.quantum (by omega), hsum]
    omega
  · -- The end is rounded up to `2 ^ 64`, which is zero.
    have hdvd : 2 ^ k ∣ 2 ^ 64 := (Nat.pow_dvd_pow_iff_le_right (by decide)).mpr
      (((Nat.pow_le_pow_iff_right (by decide)).mp hk).trans (by decide))
    have htop : roundUpNat (offset.toNat + length.toNat) (2 ^ k) = 2 ^ 64 := by
      have hge := mt (roundUpNat_lt_iff hpow hdvd).mp hfit
      have hle := mt (lt_roundUpNat_iff (n := offset.toNat + length.toNat) hpow hdvd).mp (by omega)
      omega
    have hstart : 2 ^ k ≤ offset.toNat / 2 ^ k * 2 ^ k :=
      Nat.not_lt.mp (mt (div_mul_lt_iff hpow dvd_rfl).mp (by omega))
    rw [toNat_pageUp_of_lt h.quantum (by omega), htop]
    omega

/-! ### The system calls -/

theorem mem_of_mem_issue {c : Syscall} {cs : List Syscall} (h : c ∈ (issue ans cs).1) : c ∈ cs := by
  induction cs with
  | nil => exact h
  | cons d cs ih =>
    rw [issue] at h
    split at h
    · exact List.mem_singleton.mp h ▸ List.mem_cons_self
    · rcases List.mem_cons.mp h with rfl | h
      · exact List.mem_cons_self
      · exact List.mem_cons_of_mem _ (ih h)

/-- The first system call is issued in any case. -/
theorem mem_issue_cons (c : Syscall) (cs : List Syscall) : c ∈ (issue ans (c :: cs)).1 := by
  rw [issue]
  split <;> exact List.mem_cons_self

/-- The calls of the C functions, for a rounded range that is not empty. -/
theorem calls_mjsVmRange {addr len : BitVec 64} (ha : addr ≠ 0) (hl : len ≠ 0) {kind : SyscallKind}
    {kinds : List SyscallKind} :
    (⟨kind, addr, len⟩ ∈ (mjsVmRange ans addr len (kind :: kinds)).1) ∧
      ∀ c ∈ (mjsVmRange ans addr len (kind :: kinds)).1, c.addr = addr ∧ c.len = len := by
  rw [mjsVmRange, if_neg ha, if_neg hl]
  refine ⟨mem_issue_cons .., fun c hc => ?_⟩
  obtain ⟨kind', -, rfl⟩ := List.mem_map.mp (mem_of_mem_issue hc)
  exact ⟨rfl, rfl⟩

theorem onRange_calls {call : BitVec 64 → BitVec 64 → List Syscall × Status}
    {done : BitVec 64 → VirtualMemory}
    (hval : validateRange offset length vm.reservedBytes = none) :
    (vm.onRange offset length call done).1 = (call (vm.base + pageDown offset vm.quantum)
      (pageUp (offset + length) vm.quantum - pageDown offset vm.quantum)).1 := by
  simp only [onRange, hval]
  split <;> rename_i heq <;> rw [heq]

/-- The operations differ in what they ask for. -/
theorem run_calls_eq (op : RangeOp) (ans : Syscall → Status)
    (hval : validateRange offset length vm.reservedBytes = none) :
    ∃ kind kinds, (vm.run op offset length ans).1 =
      (mjsVmRange ans (vm.base + pageDown offset vm.quantum)
        (pageUp (offset + length) vm.quantum - pageDown offset vm.quantum) (kind :: kinds)).1 := by
  cases op with
  | commit => exact ⟨_, _, onRange_calls hval⟩
  | decommit => exact ⟨_, _, onRange_calls hval⟩
  | protect flags => exact ⟨_, _, onRange_calls hval⟩

/-- The calls of an operation on a range that passed the check: none if the rounded range is empty,
and else some, all of them on the rounded range. -/
theorem run_calls (op : RangeOp) (ans : Syscall → Status) (h : vm.Live k)
    (hval : validateRange offset length vm.reservedBytes = none) :
    (pageUp (offset + length) vm.quantum - pageDown offset vm.quantum = 0 ∧
        (vm.run op offset length ans).1 = []) ∨
      (pageUp (offset + length) vm.quantum - pageDown offset vm.quantum ≠ 0 ∧
        (∃ c, c ∈ (vm.run op offset length ans).1) ∧
        ∀ c ∈ (vm.run op offset length ans).1, c.addr = vm.base + pageDown offset vm.quantum ∧
          c.len = pageUp (offset + length) vm.quantum - pageDown offset vm.quantum) := by
  have haddr : vm.base + pageDown offset vm.quantum ≠ 0 := by
    have hstart := toNat_start h ((validateRange_eq_none h).mp hval).1
    have hpos := h.base_pos
    intro h0
    rw [h0] at hstart
    change 0 = _ at hstart
    omega
  obtain ⟨kind, kinds, heq⟩ := run_calls_eq op ans hval
  rw [heq]
  by_cases hspan : pageUp (offset + length) vm.quantum - pageDown offset vm.quantum = 0
  · refine Or.inl ⟨hspan, ?_⟩
    rw [mjsVmRange, if_neg haddr, if_pos hspan]
  · exact Or.inr ⟨hspan, (calls_mjsVmRange haddr hspan).imp_left fun hc => ⟨_, hc⟩⟩

/-! ### The law -/

/-- The pages of the rounded range. -/
theorem mem_pages_iff (h : vm.Live k) (h0 : 0 ≤ offset.toInt) (h1 : 0 ≤ length.toInt) {c : Syscall}
    (haddr : c.addr = vm.base + pageDown offset vm.quantum)
    (hlen : c.len = pageUp (offset + length) vm.quantum - pageDown offset vm.quantum) {a : ℤ} :
    a ∈ c.pages (2 ^ k) ↔ ((2 ^ k : ℕ) : ℤ) ∣ a ∧ c.len ≠ 0 ∧
      (vm.base.toNat : ℤ) + offset.toNat < a + (2 ^ k : ℕ) ∧
      a < vm.base.toNat + (offset.toNat + length.toNat : ℕ) := by
  have hpow := Nat.two_pow_pos k
  have hbase : ((2 ^ k : ℕ) : ℤ) ∣ vm.base.toNat := Int.natCast_dvd_natCast.mpr h.base_dvd
  have hspan := toNat_span h h0 h1
  have hstart := toNat_start h h0
  rw [← hlen] at hspan
  rw [← haddr] at hstart
  have hzero : c.len ≠ 0 ↔ 0 < c.len.toNat := by
    rw [Ne, ← BitVec.toNat_inj, Nat.pos_iff_ne_zero]
    rfl
  have hdown := cast_div_mul_lt_iff (c := a + (2 ^ k : ℕ) - vm.base.toNat) hpow
    (n := offset.toNat)
  have hup := lt_cast_roundUpNat_iff (c := a - vm.base.toNat) hpow
    (n := offset.toNat + length.toNat)
  rw [Syscall.pages, mem_pagesOf hpow, hzero]
  refine and_congr_right fun hdvd => ?_
  specialize hdown (Int.dvd_sub (Int.dvd_add hdvd (Int.dvd_refl _)) hbase)
  specialize hup (Int.dvd_sub hdvd hbase)
  omega

/-- The ranges that the check misses: the end of the range overflows, or the range is empty and
inside a page of the reservation. -/
def Missed (vm : VirtualMemory) (k : ℕ) (offset length : BitVec 64) : Prop :=
  0 ≤ offset.toInt ∧ 0 ≤ length.toInt ∧
    (2 ^ 63 ≤ offset.toNat + length.toNat ∨
      length = 0 ∧ offset.toNat ≤ vm.reservedBytes.toNat ∧ ¬ 2 ^ k ∣ offset.toNat)

instance (vm : VirtualMemory) (k : ℕ) (offset length : BitVec 64) :
    Decidable (vm.Missed k offset length) := inferInstanceAs (Decidable (_ ∧ _ ∧ (_ ∨ _)))

/-- The pages of a range inside the reservation are those of the rounded range. -/
theorem pages_eq (h : vm.Live k) (h0 : 0 ≤ offset.toInt) (h1 : 0 ≤ length.toInt)
    (hin : offset.toNat + length.toNat ≤ vm.reservedBytes.toNat) (hpos : 0 < length.toNat)
    {c : Syscall} (haddr : c.addr = vm.base + pageDown offset vm.quantum)
    (hlen : c.len = pageUp (offset + length) vm.quantum - pageDown offset vm.quantum)
    (hne : c.len ≠ 0) : c.pages (2 ^ k) = vm.rangePages offset length (2 ^ k) := by
  have hpow := Nat.two_pow_pos k
  have hbase : ((2 ^ k : ℕ) : ℤ) ∣ vm.base.toNat := Int.natCast_dvd_natCast.mpr h.base_dvd
  have hoff : offset.toInt = offset.toNat := toInt_of_lt (toNat_lt_of_nonneg h0)
  have hlen' : length.toInt = length.toNat := toInt_of_lt (toNat_lt_of_nonneg h1)
  ext a
  rw [mem_pages_iff h h0 h1 haddr hlen, rangePages, Set.mem_inter_iff, mem_pagesOf hpow, hoff,
    hlen']
  simp only [pages, Set.mem_ofPred_eq]
  constructor
  · rintro ⟨hdvd, -, hlo, hhi⟩
    -- The page starts at the base or above, as both are multiples of the page size.
    have hge : ((2 ^ k : ℕ) : ℤ) ≤ a + (2 ^ k : ℕ) - vm.base.toNat :=
      Int.le_of_dvd (by omega) (Int.dvd_sub (Int.dvd_add hdvd (Int.dvd_refl _)) hbase)
    exact ⟨⟨hdvd, by omega, hlo, by omega⟩, by omega, by omega⟩
  · rintro ⟨⟨hdvd, -, hlo, hhi⟩, -⟩
    exact ⟨hdvd, hne, hlo, by omega⟩

/-- An empty range is rounded to an empty range exactly when it starts at a page. -/
theorem span_eq_zero_iff (h : vm.Live k) (h0 : 0 ≤ offset.toInt) :
    pageUp (offset + 0) vm.quantum - pageDown offset vm.quantum = 0 ↔ 2 ^ k ∣ offset.toNat := by
  have hpow := Nat.two_pow_pos k
  have hspan : (pageUp (offset + 0) vm.quantum - pageDown offset vm.quantum).toNat = _ :=
    toNat_span h h0 (by decide)
  have hzero : (0 : BitVec 64).toNat = 0 := rfl
  rw [hzero, Nat.add_zero] at hspan
  rw [← BitVec.toNat_inj, hspan, hzero]
  have hdown := Nat.div_mul_le_self offset.toNat (2 ^ k)
  have hup := le_roundUpNat (n := offset.toNat) hpow
  constructor
  · intro h
    have heq : offset.toNat / 2 ^ k * 2 ^ k = offset.toNat := by omega
    exact heq ▸ Nat.dvd_mul_left _ _
  · intro hdvd
    rw [roundUpNat_of_dvd hpow hdvd, Nat.div_mul_cancel hdvd, Nat.sub_self]

/-- A range that the check refuses. -/
theorem run_of_invalid (op : RangeOp) (ans : Syscall → Status) {err : Errno}
    (hval : validateRange offset length vm.reservedBytes = some err) :
    vm.run op offset length ans = ([], .error err) := by
  cases op with
  | commit => simp only [run, commit, onRange, hval]
  | decommit => simp only [run, decommit, onRange, hval]
  | protect flags => simp only [run, protect, onRange, hval]

/-- A range whose end overflows is not rounded to an empty one. -/
theorem span_ne_zero (h : vm.Live k) (h0 : 0 ≤ offset.toInt) (h1 : 0 ≤ length.toInt)
    (hover : 2 ^ 63 ≤ offset.toNat + length.toNat) :
    pageUp (offset + length) vm.quantum - pageDown offset vm.quantum ≠ 0 := by
  intro hzero
  have hspan := toNat_span h h0 h1
  have hup := le_roundUpNat (n := offset.toNat + length.toNat) (Nat.two_pow_pos k)
  have hdown := Nat.div_mul_le_self offset.toNat (2 ^ k)
  have hoff := toNat_lt_of_nonneg h0
  rw [hzero] at hspan
  change 0 = _ at hspan
  omega

/-- It reaches a page after the reservation. -/
theorem exists_page_outside (h : vm.Live k) (h0 : 0 ≤ offset.toInt) (h1 : 0 ≤ length.toInt)
    (hover : 2 ^ 63 ≤ offset.toNat + length.toNat) {c : Syscall}
    (haddr : c.addr = vm.base + pageDown offset vm.quantum)
    (hlen : c.len = pageUp (offset + length) vm.quantum - pageDown offset vm.quantum) :
    ∃ a ∈ c.pages (2 ^ k), a ∉ vm.pages := by
  have hpow := Nat.two_pow_pos k
  have hbase := Nat.le_of_dvd h.base_pos h.base_dvd
  have huser := h.user
  have hup := le_roundUpNat (n := offset.toNat + length.toNat) hpow
  have hlt := roundUpNat_lt (n := offset.toNat + length.toNat) hpow
  have hoff := toNat_lt_of_nonneg h0
  have hne : c.len ≠ 0 := hlen ▸ span_ne_zero h h0 h1 hover
  refine ⟨vm.base.toNat + roundUpNat (offset.toNat + length.toNat) (2 ^ k) - (2 ^ k : ℕ),
    (mem_pages_iff h h0 h1 haddr hlen).mpr ⟨?_, hne, by omega, by omega⟩, ?_⟩
  · refine Int.dvd_sub (Int.dvd_add ?_ ?_) (Int.dvd_refl _)
    · exact Int.natCast_dvd_natCast.mpr h.base_dvd
    · exact Int.natCast_dvd_natCast.mpr (dvd_roundUpNat _ _)
  · simp only [pages, Set.mem_ofPred_eq]
    omega

/-- An empty range inside a page is rounded to that page. -/
theorem exists_page_of_empty (h : vm.Live k) (h0 : 0 ≤ offset.toInt)
    (hdvd : ¬ 2 ^ k ∣ offset.toNat) {c : Syscall}
    (haddr : c.addr = vm.base + pageDown offset vm.quantum)
    (hlen : c.len = pageUp (offset + 0) vm.quantum - pageDown offset vm.quantum) :
    ∃ a, a ∈ c.pages (2 ^ k) := by
  have hlt : offset.toNat < offset.toNat / 2 ^ k * 2 ^ k + 2 ^ k :=
    Nat.lt_div_mul_add (Nat.two_pow_pos k)
  have hne : offset.toNat / 2 ^ k * 2 ^ k ≠ offset.toNat := by
    intro heq
    exact hdvd (heq ▸ Nat.dvd_mul_left _ _)
  have hle := Nat.div_mul_le_self offset.toNat (2 ^ k)
  have hlen0 : c.len ≠ 0 := hlen ▸ mt (span_eq_zero_iff h h0).mp hdvd
  refine ⟨vm.base.toNat + (offset.toNat / 2 ^ k * 2 ^ k : ℕ),
    (mem_pages_iff h h0 (by decide) haddr hlen).mpr ⟨?_, hlen0, by omega, by omega⟩⟩
  exact Int.dvd_add (Int.natCast_dvd_natCast.mpr h.base_dvd)
    (Int.natCast_dvd_natCast.mpr (Nat.dvd_mul_left _ _))

/-- **The ranges of a reservation**: an operation raises, or changes exactly the pages of its range,
unless the check misses the range. -/
theorem range_law_iff (h : vm.Live k) : vm.RangeLaw (2 ^ k) op offset length ans ↔
    ¬ vm.Missed k offset length := by
  constructor
  · rintro hlaw ⟨h0, h1, hover | ⟨rfl, hin, hdvd⟩⟩
    · have hval := (validateRange_eq_none h).mpr ⟨h0, h1, Or.inr hover⟩
      rcases run_calls op ans h hval with ⟨hspan, -⟩ | ⟨-, ⟨c, hc⟩, hcalls⟩
      · exact span_ne_zero h h0 h1 hover hspan
      · obtain ⟨haddr, hlen⟩ := hcalls c hc
        obtain ⟨a, hmem, hout⟩ := exists_page_outside h h0 h1 hover haddr hlen
        exact hout (hlaw.inside c hc hmem)
    · have hval : validateRange offset 0 vm.reservedBytes = none :=
        (validateRange_eq_none h).mpr ⟨h0, h1, Or.inl hin⟩
      rcases run_calls op ans h hval with ⟨hspan, -⟩ | ⟨-, ⟨c, hc⟩, hcalls⟩
      · exact hdvd ((span_eq_zero_iff h h0).mp hspan)
      · obtain ⟨haddr, hlen⟩ := hcalls c hc
        obtain ⟨a, hmem⟩ := exists_page_of_empty h h0 hdvd haddr hlen
        rw [hlaw.empty rfl c hc] at hmem
        exact hmem
  · intro hmiss
    cases hval : validateRange offset length vm.reservedBytes with
    | some err =>
      have hrun := run_of_invalid op ans hval
      refine ⟨Or.inl ⟨?_, err, ?_⟩, fun c hc => ?_, fun _ c hc => ?_⟩
      · rw [hrun]
      · rw [hrun]
      · simp [hrun] at hc
      · simp [hrun] at hc
    | none =>
      obtain ⟨h0, h1, hin⟩ := (validateRange_eq_none h).mp hval
      replace hin := hin.resolve_right fun hover => hmiss ⟨h0, h1, Or.inl hover⟩
      rcases run_calls op ans h hval with ⟨-, hnil⟩ | ⟨hspan, -, hcalls⟩
      · refine ⟨Or.inr fun c hc => ?_, fun c hc => ?_, fun _ c hc => ?_⟩ <;> simp [hnil] at hc
      · have hpos : 0 < length.toNat := by
          by_contra hzero
          obtain rfl : length = 0 := BitVec.toNat_inj.mp (Nat.eq_zero_of_not_pos hzero)
          have hdvd := mt (span_eq_zero_iff h h0).mpr hspan
          exact hmiss ⟨h0, h1, Or.inr ⟨rfl, hin, hdvd⟩⟩
        have hpages (c) (hc : c ∈ (vm.run op offset length ans).1) :
            c.pages (2 ^ k) = vm.rangePages offset length (2 ^ k) := by
          obtain ⟨haddr, hlen⟩ := hcalls c hc
          exact pages_eq h h0 h1 hin hpos haddr hlen (hlen ▸ hspan)
        refine ⟨Or.inr hpages, fun c hc => ?_, fun hzero => ?_⟩
        · rw [hpages c hc]
          exact Set.inter_subset_right
        · rw [hzero] at hpos
          exact absurd hpos (by decide)

/-- A reservation of four pages of 4096 bytes. -/
def fourPages : VirtualMemory := ⟨0x10000, 0x4000, 0, 0x1000⟩

theorem live_fourPages : fourPages.Live 12 :=
  ⟨rfl, by decide, by decide, by decide, by decide, by decide⟩

theorem range_law_iff_fourPages :
    fourPages.RangeLaw (2 ^ 12) .commit 0x800 0x1000 fun _ => none :=
  (range_law_iff live_fourPages).mpr (by decide)

/-- The range from 4096 on with the largest length passes the check, and `mprotect` is called on
`2 ^ 63` bytes from the second page on. -/
theorem range_law_overflow : ∃ (vm : VirtualMemory) (offset length : BitVec 64), vm.Live 12 ∧
    (vm.run .commit offset length fun _ => none).1 =
      [⟨.mprotect PROT_RW, 0x11000, 0x8000000000000000⟩] ∧
    ¬ vm.RangeLaw (2 ^ 12) .commit offset length fun _ => none := by
  have hcalls : (fourPages.run .commit 0x1000 0x7FFFFFFFFFFFFFFF fun _ => none).1 =
      [⟨.mprotect PROT_RW, 0x11000, 0x8000000000000000⟩] := by decide
  refine ⟨fourPages, 0x1000, 0x7FFFFFFFFFFFFFFF, live_fourPages, hcalls, fun hlaw => ?_⟩
  have hmem := List.mem_singleton_self (⟨.mprotect PROT_RW, 0x11000, 0x8000000000000000⟩ : Syscall)
  have h0 : 0 ≤ (0x1000 : BitVec 64).toInt := by decide
  have h1 : 0 ≤ (0x7FFFFFFFFFFFFFFF : BitVec 64).toInt := by decide
  obtain ⟨a, ha, hout⟩ := exists_page_outside live_fourPages h0 h1 (by decide)
    (c := ⟨.mprotect PROT_RW, 0x11000, 0x8000000000000000⟩) (by decide) (by decide)
  exact hout (hlaw.inside _ (hcalls ▸ hmem) ha)

end VirtualMemory

end MojitoSys.Memory
