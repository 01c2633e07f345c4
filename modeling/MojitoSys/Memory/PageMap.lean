import MojitoSys.Memory.Regions

/-!
# Values over one address space

A program with any number of `VirtualMemory` values, over the one address space that the kernel
keeps. The values are reserved, changed, moved, released and destroyed in any order, and the
program loads and stores through them; every system call may fail. `mprotect` may fail after it has
changed the first part of its range; a failing `mmap` or `munmap` changes nothing. `mmap` answers
with pages that nothing is mapped at.

## Main definitions

* `Process`: the address space and the values.
* `VirtualMemory.release`, `VirtualMemory.drop`: `release` and the destructor, over
  `mjs_vm_release`.
* `ProcessStep`, `process`: what the program and the kernel do.
* `Tracks`: the address space holds the regions of the values.

## Main results

* `process_simulates`: the process keeps the contract of the regions.
* `values_own_regions`, `loads_see_last_byte`, `decommit_fails_closed`: what follows for every run.
-/

namespace MojitoSys.Memory

open Util VirtualMemory

/-! ### The kernel -/

/-- The mapped bytes of an address space. -/
abbrev AddressSpace := ℕ → Option Cell

namespace AddressSpace

/-- `mprotect` on a range. -/
def mprotect (m : AddressSpace) (addr len : ℕ) (prot : BitVec 32) : AddressSpace := fun x =>
  if addr ≤ x ∧ x < addr + len then (m x).map fun c => { c with prot := prot } else m x

/-- A fresh inaccessible mapping of a range. -/
def map (m : AddressSpace) (addr len : ℕ) : AddressSpace := fun x =>
  if addr ≤ x ∧ x < addr + len then some .fresh else m x

/-- `munmap` of a range. -/
def unmap (m : AddressSpace) (addr len : ℕ) : AddressSpace := fun x =>
  if addr ≤ x ∧ x < addr + len then none else m x

/-- A system call with its answer; an `mprotect` that fails has changed `cut` bytes. -/
def call (m : AddressSpace) (ans : Syscall → Status) (cut : ℕ) (c : Syscall) : AddressSpace :=
  match c.kind, ans c with
  | .mprotect prot, none => m.mprotect c.addr.toNat c.len.toNat prot
  | .mprotect prot, some _ => m.mprotect c.addr.toNat (min cut c.len.toNat) prot
  | .mmapFixed, none => m.map c.addr.toNat c.len.toNat
  | .mmapFixed, some _ => m

end AddressSpace

/-! ### Release -/

namespace VirtualMemory

/-- The value after a move from it. -/
def movedFrom : VirtualMemory := ⟨0, 0, 0, 0⟩

/-- `mjs_vm_release`, when `munmap` answers `ans`: the status and the new `*base`. -/
def mjsVmRelease (base : BitVec 64) (ans : Status) : Status × BitVec 64 :=
  if base = 0 then (some .EINVAL, base)
  else
    match ans with
    | some err => (some err, base)
    | none => (none, 0)

/-- `release`: the status and the value; a failing call keeps the value. -/
def release (vm : VirtualMemory) (ans : Status) : Status × VirtualMemory :=
  if vm.reservedBytes = 0 then (none, vm)
  else
    match mjsVmRelease vm.base ans with
    | (some err, _) => (some err, vm)
    | (none, _) => (none, { vm with base := 0, reservedBytes := 0, committedBytes := 0 })

/-- The destructor unmaps the reservation: its range, if it does. -/
def drop (vm : VirtualMemory) (ans : Status) : Option (ℕ × ℕ) :=
  if vm.base ≠ 0 ∧ (mjsVmRelease vm.base ans).1 = none then
    some (vm.base.toNat, vm.reservedBytes.toNat)
  else none

/-- How an operation ended, from its system calls and its result. -/
def outcome (cut : ℕ) : List Syscall × Except Errno VirtualMemory → Outcome
  | (_, .ok _) => .done
  | ([], .error _) => .refused
  | (_ :: cs, .error _) => .failed cs.length cut

/-- The value after an operation; one that raises keeps it. -/
def kept (vm : VirtualMemory) : Except Errno VirtualMemory → VirtualMemory
  | .ok vm' => vm'
  | .error _ => vm

end VirtualMemory

/-! ### The process -/

/-- The address space and the values that are alive, by name. -/
structure Process where
  mem : AddressSpace
  vals : ℕ → Option VirtualMemory

/-- The end of a range overflows, which the check of `_validate_range` misses. -/
def Wraps (offset length : BitVec 64) : Prop :=
  0 ≤ offset.toInt ∧ 0 ≤ length.toInt ∧ 2 ^ 63 ≤ offset.toNat + length.toNat

instance (offset length : BitVec 64) : Decidable (Wraps offset length) :=
  inferInstanceAs (Decidable (_ ∧ _ ∧ _))

/-- What the program or the kernel does, with what it shows, for pages of `2 ^ k` bytes. The ranges
are those whose end does not overflow. -/
inductive ProcessStep (k : ℕ) (w : Process) : List MemoryEvent → Process → Prop
  | reserve {h : ℕ} {pageSize bytes : BitVec 64} {mmap : BitVec 64 → Except Errno (BitVec 64)}
      {vm : VirtualMemory} (hfree : w.vals h = none) (hps : pageSize.toNat = 2 ^ k)
      (hmmap : ∀ total base, mmap total = .ok base → 0 < base.toNat ∧ 2 ^ k ∣ base.toNat ∧
        base.toNat + total.toNat ≤ 2 ^ 63)
      (hfresh : ∀ total base, mmap total = .ok base →
        ∀ x, base.toNat ≤ x → x < base.toNat + total.toNat → w.mem x = none)
      (hr : reserve pageSize bytes mmap = .ok vm) :
      ProcessStep k w [.reserved h vm.reservedBytes.toNat]
        ⟨w.mem.map vm.base.toNat vm.reservedBytes.toNat, Function.update w.vals h (some vm)⟩
  | change {h : ℕ} {vm : VirtualMemory} (op : RangeOp) {offset length : BitVec 64}
      (ans : Syscall → Status) (cut : ℕ) (hvm : w.vals h = some vm)
      (hwrap : ¬ Wraps offset length) :
      ProcessStep k w [.changed h op offset length (outcome cut (vm.run op offset length ans))]
        ⟨(vm.run op offset length ans).1.foldl (fun m c => m.call ans cut c) w.mem,
          Function.update w.vals h (some (vm.kept (vm.run op offset length ans).2))⟩
  | store {h x : ℕ} {vm : VirtualMemory} {c : Cell} (byte : UInt8) (hvm : w.vals h = some vm)
      (hx : x < vm.reservedBytes.toNat) (hc : w.mem (vm.base.toNat + x) = some c)
      (hw : c.prot &&& 2 ≠ 0) :
      ProcessStep k w [.stored h x byte] { w with
        mem := Function.update w.mem (vm.base.toNat + x) (some { c with byte := byte }) }
  | load {h x : ℕ} {vm : VirtualMemory} {v : Option UInt8} (hvm : w.vals h = some vm)
      (hx : x < vm.reservedBytes.toNat)
      -- a byte that is not mapped faults
      (hv : match w.mem (vm.base.toNat + x) with
        | some c => c.Shows v
        | none => v = none) :
      ProcessStep k w [.loaded h x v] w
  | release {h : ℕ} {vm : VirtualMemory} (ans : Status) (hvm : w.vals h = some vm) :
      ProcessStep k w [.released h (vm.release ans).1.isNone]
        ⟨if (vm.release ans).1.isNone then w.mem.unmap vm.base.toNat vm.reservedBytes.toNat
          else w.mem, Function.update w.vals h (some (vm.release ans).2)⟩
  | move {h h' : ℕ} {vm : VirtualMemory} (hvm : w.vals h = some vm) (hfree : w.vals h' = none) :
      ProcessStep k w [.moved h h'] { w with
        vals := Function.update (Function.update w.vals h' (some vm)) h (some movedFrom) }
  | drop {h : ℕ} {vm : VirtualMemory} (ans : Status) (hvm : w.vals h = some vm) :
      ProcessStep k w [.dropped h]
        ⟨match vm.drop ans with
          | some (addr, len) => w.mem.unmap addr len
          | none => w.mem, Function.update w.vals h none⟩

/-- A process without values. -/
def process (k : ℕ) : System Process MemoryEvent where
  start w := ∀ h, w.vals h = none
  step := ProcessStep k

/-! ### One operation -/

section Change

variable {k : ℕ} {vm : VirtualMemory} {op : RangeOp} {offset length : BitVec 64}
  {ans : Syscall → Status} {cut : ℕ}

/-- The bytes of the pages that meet a range are those of the rounded range. -/
theorem meets_iff {o l x : ℕ} :
    Meets k o l x ↔ o / 2 ^ k * 2 ^ k ≤ x ∧ x < roundUpNat (o + l) (2 ^ k) := by
  have hpow := Nat.two_pow_pos k
  have hup : x / 2 ^ k * 2 ^ k < o + l ↔ x < roundUpNat (o + l) (2 ^ k) := by
    rw [← lt_roundUpNat_iff hpow (Nat.dvd_mul_left _ _),
      div_mul_lt_iff hpow (dvd_roundUpNat _ _)]
  have hdown : o < x / 2 ^ k * 2 ^ k + 2 ^ k ↔ o / 2 ^ k * 2 ^ k ≤ x := by
    rw [← Nat.le_div_iff_mul_le hpow, ← Nat.lt_succ_iff, Nat.div_lt_iff_lt_mul hpow,
      Nat.succ_mul]
  rw [Meets, hup, hdown]
  exact and_comm

/-- The system calls that an operation makes. -/
def RangeOp.kinds : RangeOp → List SyscallKind
  | .commit => [.mprotect PROT_RW]
  | .decommit => [.mprotect PROT_NONE, .mmapFixed]
  | .protect flags => [.mprotect flags]

/-- The value after an operation that succeeded. -/
def VirtualMemory.grown (vm : VirtualMemory) (op : RangeOp) (stop : BitVec 64) : VirtualMemory :=
  match op with
  | .commit =>
    if vm.committedBytes.toInt < stop.toInt then { vm with committedBytes := stop } else vm
  | .decommit | .protect _ => vm

/-- The result of an operation, from that of its C function. -/
def VirtualMemory.finish (vm : VirtualMemory) (op : RangeOp) (stop : BitVec 64) :
    List Syscall × Status → List Syscall × Except Errno VirtualMemory
  | (calls, some err) => (calls, .error err)
  | (calls, none) => (calls, .ok (vm.grown op stop))

/-- An operation on a range that passed the check. -/
theorem run_of_valid (hval : validateRange offset length vm.reservedBytes = none) :
    vm.run op offset length ans = vm.finish op (pageUp (offset + length) vm.quantum)
      (mjsVmRange ans (vm.base + pageDown offset vm.quantum)
        (pageUp (offset + length) vm.quantum - pageDown offset vm.quantum) op.kinds) := by
  cases op with
  | commit | decommit | protect flags =>
    simp only [run, commit, decommit, protect, onRange, hval, VirtualMemory.mjsVmCommit,
      mjsVmDecommit, mjsVmProtect, RangeOp.kinds]
    split <;> rename_i heq <;> rw [heq] <;> rfl

/-- The memory after the system calls of an operation. -/
def memAfter (m : AddressSpace) (ans : Syscall → Status) (cut : ℕ) (calls : List Syscall) :
    AddressSpace := calls.foldl (fun m c => m.call ans cut c) m

/-- What an operation does to memory and value, given by its run. -/
structure Effect (k : ℕ) (vm : VirtualMemory) (op : RangeOp) (offset length : BitVec 64)
    (ans : Syscall → Status) (cut : ℕ) (r : List Syscall × Except Errno VirtualMemory) : Prop where
  refused : outcome cut r = .refused ↔ ¬ Inside vm.reservedBytes.toNat offset length
  /-- Memory outside of the reservation is left alone. -/
  frame : ∀ (m : AddressSpace) x,
    (x < vm.base.toNat ∨ vm.base.toNat + vm.reservedBytes.toNat ≤ x) →
      memAfter m ans cut r.1 x = m x
  own : ∀ (m : AddressSpace) (g : Region), g.size = vm.reservedBytes.toNat →
    (∀ x, x < g.size → m (vm.base.toNat + x) = some (g.cell x)) → ∀ x, x < g.size →
      memAfter m ans cut r.1 (vm.base.toNat + x) =
        some ((g.change k op offset.toNat length.toNat (outcome cut r)).cell x)
  live : (vm.kept r.2).Live k
  base : (vm.kept r.2).base = vm.base
  reserved : (vm.kept r.2).reservedBytes = vm.reservedBytes
  committed : ∀ g : Region, vm.committedBytes.toNat = g.committed → g.committed ≤ g.size →
    g.size = vm.reservedBytes.toNat → (vm.kept r.2).committedBytes.toNat =
      (g.change k op offset.toNat length.toNat (outcome cut r)).committed

theorem Region.change_size (g : Region) {o l : ℕ} {oc : Outcome} :
    (g.change k op o l oc).size = g.size := by
  match oc with
  | .refused | .failed 0 _ | .failed (_ + 1) _ => rfl
  | .done => cases op <;> rfl

/-- A refused operation does nothing. -/
theorem effect_refused (h : vm.Live k) {err : Errno}
    (hin : ¬ Inside vm.reservedBytes.toNat offset length) :
    Effect k vm op offset length ans cut ([], .error err) :=
  ⟨iff_of_true rfl hin, fun _ _ _ => rfl, fun _ _ _ hown => hown, h, rfl, rfl,
    fun _ hc _ _ => hc⟩

/-- The numbers of an operation on a range inside the reservation. -/
theorem toNat_range (h : vm.Live k) (hin : Inside vm.reservedBytes.toNat offset length) :
    (vm.base + pageDown offset vm.quantum).toNat =
        vm.base.toNat + offset.toNat / 2 ^ k * 2 ^ k ∧
      (pageUp (offset + length) vm.quantum).toNat =
        roundUpNat (offset.toNat + length.toNat) (2 ^ k) ∧
      roundUpNat (offset.toNat + length.toNat) (2 ^ k) ≤ vm.reservedBytes.toNat ∧
      (pageUp (offset + length) vm.quantum - pageDown offset vm.quantum).toNat =
        roundUpNat (offset.toNat + length.toNat) (2 ^ k) - offset.toNat / 2 ^ k * 2 ^ k := by
  obtain ⟨h0, h1, hle⟩ := hin
  have hpow := Nat.two_pow_pos k
  have hk := h.two_pow_le
  have huser := h.user
  have hoff := toNat_lt_of_nonneg h0
  have hlen := toNat_lt_of_nonneg h1
  have hsum : (offset + length).toNat = offset.toNat + length.toNat := by
    rw [BitVec.toNat_add, Nat.mod_eq_of_lt (by omega)]
  refine ⟨toNat_start h h0, ?_, ?_, toNat_span h h0 h1⟩
  · rw [toNat_pageUp h.quantum (by omega), hsum]
  · by_contra hgt
    have hlt := (lt_roundUpNat_iff hpow h.reserved_dvd).mp (Nat.lt_of_not_le hgt)
    omega

/-- Only a commit moves a value, and only its high-water mark. -/
theorem grown_live (op : RangeOp) (h : vm.Live k) (stop : BitVec 64) : (vm.grown op stop).Live k ∧
    (vm.grown op stop).base = vm.base ∧ (vm.grown op stop).reservedBytes = vm.reservedBytes := by
  cases op with
  | commit =>
    simp only [grown]
    split_ifs
    · exact ⟨⟨h.quantum, h.base_pos, h.base_dvd, h.reserved_pos, h.reserved_dvd, h.user⟩, rfl, rfl⟩
    · exact ⟨h, rfl, rfl⟩
  | decommit | protect flags => exact ⟨h, rfl, rfl⟩

/-- The high-water mark of a value is that of its region. -/
theorem grown_committed (op : RangeOp) (h : vm.Live k)
    (hin : Inside vm.reservedBytes.toNat offset length) {g : Region}
    (hc : vm.committedBytes.toNat = g.committed) (hle : g.committed ≤ g.size)
    (hsize : g.size = vm.reservedBytes.toNat) :
    (vm.grown op (pageUp (offset + length) vm.quantum)).committedBytes.toNat =
      (g.change k op offset.toNat length.toNat .done).committed := by
  obtain ⟨-, hstop, hstople, -⟩ := toNat_range h hin
  have huser := h.user
  have hbase := h.base_pos
  cases op with
  | commit =>
    have hci : vm.committedBytes.toInt = vm.committedBytes.toNat := toInt_of_lt (by omega)
    have hsi : (pageUp (offset + length) vm.quantum).toInt =
        (pageUp (offset + length) vm.quantum).toNat := toInt_of_lt (by omega)
    simp only [grown, Region.change, hci, hsi]
    split_ifs with hlt
    · simp only
      omega
    · omega
  | decommit | protect flags => exact hc

/-- Memory after a change of the protection of the range of an operation, or of its first part. -/
theorem mprotect_range {m : AddressSpace} {g : Region} {A L : BitVec 64} {o l : ℕ}
    (hA : A.toNat = vm.base.toNat + o / 2 ^ k * 2 ^ k)
    (hL : L.toNat = roundUpNat (o + l) (2 ^ k) - o / 2 ^ k * 2 ^ k) (prot : BitVec 32) {x : ℕ}
    (hx : m (vm.base.toNat + x) = some (g.cell x)) :
    m.mprotect A.toNat L.toNat prot (vm.base.toNat + x) =
        some ((g.protect (Meets k o l) prot).cell x) ∧
      ∀ cut, m.mprotect A.toNat (min cut L.toNat) prot (vm.base.toNat + x) =
        some ((g.protect (fun x => Meets k o l x ∧ x < o / 2 ^ k * 2 ^ k + cut) prot).cell x) := by
  have hmeets := meets_iff (k := k) (o := o) (l := l) (x := x)
  have hle := le_roundUpNat (n := o + l) (Nat.two_pow_pos k)
  have hdown := Nat.div_mul_le_self o (2 ^ k)
  refine ⟨?_, fun cut => ?_⟩
  · simp only [AddressSpace.mprotect, Region.protect, hx, hA, hL, hmeets]
    split_ifs <;> first | rfl | omega
  · simp only [AddressSpace.mprotect, Region.protect, hx, hA, hL, hmeets]
    split_ifs <;> first | rfl | omega

/-- Memory after a fresh mapping of the range of an operation. -/
theorem map_range {m : AddressSpace} {g : Region} {A L : BitVec 64} {o l : ℕ}
    (hA : A.toNat = vm.base.toNat + o / 2 ^ k * 2 ^ k)
    (hL : L.toNat = roundUpNat (o + l) (2 ^ k) - o / 2 ^ k * 2 ^ k) {x : ℕ}
    (hx : ¬ Meets k o l x → m (vm.base.toNat + x) = some (g.cell x)) :
    m.map A.toNat L.toNat (vm.base.toNat + x) = some ((g.reset (Meets k o l)).cell x) := by
  have hmeets := meets_iff (k := k) (o := o) (l := l) (x := x)
  have hle := le_roundUpNat (n := o + l) (Nat.two_pow_pos k)
  have hdown := Nat.div_mul_le_self o (2 ^ k)
  simp only [AddressSpace.map, Region.reset, hA, hL]
  by_cases hm : Meets k o l x
  · rw [if_pos hm, if_pos (by have := hmeets.mp hm; omega)]
  · rw [if_neg hm, if_neg (by have := mt hmeets.mpr hm; omega), hx hm]

/-- A system call on the range of an operation leaves memory outside of the reservation alone. -/
theorem call_frame {m : AddressSpace} {c : Syscall} {x : ℕ}
    (hlo : vm.base.toNat ≤ c.addr.toNat)
    (hhi : c.addr.toNat + c.len.toNat ≤ vm.base.toNat + vm.reservedBytes.toNat)
    (hx : x < vm.base.toNat ∨ vm.base.toNat + vm.reservedBytes.toNat ≤ x) :
    m.call ans cut c x = m x := by
  have hmin := Nat.min_le_right cut c.len.toNat
  cases hkind : c.kind with
  | mprotect prot =>
    cases hans : ans c with
    | none | some err =>
      simp only [AddressSpace.call, hkind, hans]
      exact if_neg (by omega)
  | mmapFixed =>
    cases hans : ans c with
    | none =>
      simp only [AddressSpace.call, hkind, hans]
      exact if_neg (by omega)
    | some err => simp only [AddressSpace.call, hkind, hans]

/-- So do all of them. -/
theorem memAfter_frame {m : AddressSpace} {calls : List Syscall} {x : ℕ}
    (hcalls : ∀ c ∈ calls, vm.base.toNat ≤ c.addr.toNat ∧
      c.addr.toNat + c.len.toNat ≤ vm.base.toNat + vm.reservedBytes.toNat)
    (hx : x < vm.base.toNat ∨ vm.base.toNat + vm.reservedBytes.toNat ≤ x) :
    memAfter m ans cut calls x = m x := by
  induction calls generalizing m with
  | nil => rfl
  | cons c calls ih =>
    obtain ⟨hlo, hhi⟩ := hcalls c List.mem_cons_self
    exact (ih fun d hd => hcalls d (List.mem_cons_of_mem _ hd)).trans (call_frame hlo hhi hx)

/-- What the system calls of an operation do to its region. -/
theorem own_inside {A L : BitVec 64} {m : AddressSpace} {g : Region} {o l : ℕ} {stop : BitVec 64}
    (hA : A.toNat = vm.base.toNat + o / 2 ^ k * 2 ^ k)
    (hL : L.toNat = roundUpNat (o + l) (2 ^ k) - o / 2 ^ k * 2 ^ k) (hA0 : A ≠ 0) (hL0 : L ≠ 0)
    (hm : ∀ x, x < g.size → m (vm.base.toNat + x) = some (g.cell x)) {x : ℕ} (hx : x < g.size) :
    memAfter m ans cut (vm.finish op stop (mjsVmRange ans A L op.kinds)).1 (vm.base.toNat + x) =
      some ((g.change k op o l
        (outcome cut (vm.finish op stop (mjsVmRange ans A L op.kinds)))).cell x) := by
  have hprot (prot : BitVec 32) := mprotect_range hA hL prot (hm x hx)
  have hr : mjsVmRange ans A L op.kinds = issue ans (op.kinds.map fun kind => ⟨kind, A, L⟩) := by
    simp only [mjsVmRange, if_neg hA0, if_neg hL0]
  rw [hr]
  cases op with
  | commit =>
    cases hans : ans ⟨.mprotect PROT_RW, A, L⟩ with
    | none =>
      simp only [RangeOp.kinds, List.map_cons, List.map_nil, issue, hans, finish, memAfter,
        List.foldl_cons, List.foldl_nil, AddressSpace.call]
      exact (hprot PROT_RW).1
    | some err =>
      simp only [RangeOp.kinds, List.map_cons, List.map_nil, issue, hans, finish, memAfter,
        List.foldl_cons, List.foldl_nil, AddressSpace.call]
      exact (hprot PROT_RW).2 cut
  | protect flags =>
    cases hans : ans ⟨.mprotect flags, A, L⟩ with
    | none =>
      simp only [RangeOp.kinds, List.map_cons, List.map_nil, issue, hans, finish, memAfter,
        List.foldl_cons, List.foldl_nil, AddressSpace.call]
      exact (hprot flags).1
    | some err =>
      simp only [RangeOp.kinds, List.map_cons, List.map_nil, issue, hans, finish, memAfter,
        List.foldl_cons, List.foldl_nil, AddressSpace.call]
      exact (hprot flags).2 cut
  | decommit =>
    cases hans : ans ⟨.mprotect PROT_NONE, A, L⟩ with
    | some err =>
      simp only [RangeOp.kinds, List.map_cons, List.map_nil, issue, hans, finish, memAfter,
        List.foldl_cons, List.foldl_nil, AddressSpace.call]
      exact (hprot PROT_NONE).2 cut
    | none =>
      cases hmap : ans ⟨.mmapFixed, A, L⟩ with
      | some err =>
        simp only [RangeOp.kinds, List.map_cons, List.map_nil, issue, hans, hmap, finish,
          memAfter, List.foldl_cons, List.foldl_nil, AddressSpace.call]
        exact (hprot PROT_NONE).1
      | none =>
        simp only [RangeOp.kinds, List.map_cons, List.map_nil, issue, hans, hmap, finish,
          memAfter, List.foldl_cons, List.foldl_nil, AddressSpace.call]
        refine map_range hA hL fun hnot => ?_
        rw [(hprot PROT_NONE).1]
        simp [Region.protect, hnot]

/-- An operation on a range inside the reservation, that is not rounded to an empty one. -/
theorem effect_inside (h : vm.Live k) (hin : Inside vm.reservedBytes.toNat offset length)
    (hspan : pageUp (offset + length) vm.quantum - pageDown offset vm.quantum ≠ 0) :
    Effect k vm op offset length ans cut (vm.run op offset length ans) := by
  obtain ⟨hA, hstop, hstople, hL⟩ := toNat_range h hin
  have hval := (validateRange_eq_none h).mpr ⟨hin.1, hin.2.1, Or.inl hin.2.2⟩
  have hup := le_roundUpNat (n := offset.toNat + length.toNat) (Nat.two_pow_pos k)
  have hdown := Nat.div_mul_le_self offset.toNat (2 ^ k)
  have hbase := h.base_pos
  obtain ⟨hlive, hkeptbase, hkeptres⟩ := grown_live op h
    (pageUp (offset + length) vm.quantum)
  have hcommitted (g : Region) := grown_committed op h hin (g := g)
  rw [run_of_valid hval]
  revert hspan hA hL hlive hkeptbase hkeptres hcommitted
  generalize vm.base + pageDown offset vm.quantum = A
  generalize pageUp (offset + length) vm.quantum - pageDown offset vm.quantum = L
  generalize pageUp (offset + length) vm.quantum = stop
  intro hL0 hA hL hlive hkeptbase hkeptres hcommitted
  have hA0 : A ≠ 0 := by
    rintro rfl
    have hzero : (0 : BitVec 64).toNat = 0 := rfl
    omega
  have hr : mjsVmRange ans A L op.kinds = issue ans (op.kinds.map fun kind => ⟨kind, A, L⟩) := by
    simp only [mjsVmRange, if_neg hA0, if_neg hL0]
  have hcalls : ∀ c ∈ (mjsVmRange ans A L op.kinds).1, vm.base.toNat ≤ c.addr.toNat ∧
      c.addr.toNat + c.len.toNat ≤ vm.base.toNat + vm.reservedBytes.toNat := by
    rw [hr]
    intro c hc
    obtain ⟨kind, -, rfl⟩ := List.mem_map.mp (mem_of_mem_issue hc)
    dsimp only
    omega
  have hissued : (mjsVmRange ans A L op.kinds).1 ≠ [] := by
    rw [hr]
    obtain ⟨kind, kinds, hk⟩ : ∃ kind kinds, op.kinds = kind :: kinds := by
      cases op <;> exact ⟨_, _, rfl⟩
    rw [hk]
    exact List.ne_nil_of_mem (mem_issue_cons _ _)
  have hown (m : AddressSpace) (g : Region)
      (hm : ∀ x, x < g.size → m (vm.base.toNat + x) = some (g.cell x)) (x : ℕ) (hx : x < g.size) :
      memAfter m ans cut (vm.finish op stop (mjsVmRange ans A L op.kinds)).1 (vm.base.toNat + x) =
        some ((g.change k op offset.toNat length.toNat
          (outcome cut (vm.finish op stop (mjsVmRange ans A L op.kinds)))).cell x) :=
    own_inside hA hL hA0 hL0 hm hx
  revert hcalls hissued hown
  generalize mjsVmRange ans A L op.kinds = r
  intro hcalls hissued hown
  obtain ⟨calls, st⟩ := r
  obtain ⟨c, cs, rfl⟩ := List.exists_cons_of_ne_nil hissued
  cases st with
  | none =>
    exact ⟨iff_of_false (fun h => by cases h) (not_not.mpr hin),
      fun m x hx => memAfter_frame hcalls hx, fun m g _ => hown m g, hlive, hkeptbase, hkeptres,
      hcommitted⟩
  | some err =>
    refine ⟨iff_of_false (fun h => by cases h) (not_not.mpr hin),
      fun m x hx => memAfter_frame hcalls hx, fun m g _ => hown m g, h, rfl, rfl,
      fun g hc _ _ => ?_⟩
    cases cs <;> exact hc

/-- An operation on a range that is rounded to an empty one changes nothing but a high-water
mark. -/
theorem effect_empty (h : vm.Live k) (hin : Inside vm.reservedBytes.toNat offset length)
    (hspan : pageUp (offset + length) vm.quantum - pageDown offset vm.quantum = 0) :
    Effect k vm op offset length ans cut (vm.run op offset length ans) := by
  have hval := (validateRange_eq_none h).mpr ⟨hin.1, hin.2.1, Or.inl hin.2.2⟩
  obtain ⟨haddr, -, -, hlen⟩ := toNat_range h hin
  have hzero : (0 : BitVec 64).toNat = 0 := rfl
  have hcalls : mjsVmRange ans (vm.base + pageDown offset vm.quantum)
      (pageUp (offset + length) vm.quantum - pageDown offset vm.quantum) op.kinds = ([], none) := by
    have hne : vm.base + pageDown offset vm.quantum ≠ 0 := by
      intro h0
      have hpos := h.base_pos
      rw [h0, hzero] at haddr
      omega
    rw [mjsVmRange, if_neg hne, if_pos hspan]
  have hmeets (x : ℕ) : ¬ Meets k offset.toNat length.toNat x := by
    rw [hspan, hzero] at hlen
    rw [meets_iff]
    omega
  obtain ⟨hlive, hbase, hres⟩ := grown_live op h (pageUp (offset + length) vm.quantum)
  rw [run_of_valid hval, hcalls]
  refine ⟨iff_of_false (fun h => by cases h) (not_not.mpr hin), fun m x _ => rfl,
    fun m g _ hm x hx => ?_, hlive, hbase, hres,
    fun g hc hle hsize => grown_committed op h hin hc hle hsize⟩
  have hsame : (g.change k op offset.toNat length.toNat .done).cell x = g.cell x := by
    cases op <;> simp [Region.change, RangeOp.drops, Region.protect, Region.reset, hmeets]
  exact (hm x hx).trans (congrArg some hsame.symm)

/-- An operation of a value that is alive, on a range whose end does not overflow. -/
theorem effect_run (op : RangeOp) (ans : Syscall → Status) (cut : ℕ) (h : vm.Live k)
    (hwrap : ¬ Wraps offset length) :
    Effect k vm op offset length ans cut (vm.run op offset length ans) := by
  by_cases hin : Inside vm.reservedBytes.toNat offset length
  · by_cases hspan : pageUp (offset + length) vm.quantum - pageDown offset vm.quantum = 0
    · exact effect_empty h hin hspan
    · exact effect_inside h hin hspan
  · cases hval : validateRange offset length vm.reservedBytes with
    | some err =>
      rw [run_of_invalid op ans hval]
      exact effect_refused h hin
    | none =>
      obtain ⟨h0, h1, hle | hover⟩ := (validateRange_eq_none h).mp hval
      · exact absurd ⟨h0, h1, hle⟩ hin
      · exact absurd ⟨h0, h1, hover⟩ hwrap

/-- A value that owns nothing makes no system call. -/
theorem run_of_zero (op : RangeOp) (ans : Syscall → Status) (hbase : vm.base = 0)
    (hres : vm.reservedBytes = 0) (hwrap : ¬ Wraps offset length) :
    ∃ err, vm.run op offset length ans = ([], .error err) := by
  cases hval : validateRange offset length vm.reservedBytes with
  | some err => exact ⟨err, run_of_invalid op ans hval⟩
  | none =>
    have hrange : offset = 0 ∧ length = 0 := by
      have hsum : (offset + length).toNat = (offset.toNat + length.toNat) % 2 ^ 64 :=
        BitVec.toNat_add _ _
      have hover : offset.toNat + length.toNat < 2 ^ 63 ∨ offset.toInt < 0 ∨ length.toInt < 0 := by
        by_contra hall
        push Not at hall
        exact hwrap ⟨hall.2.1, hall.2.2, hall.1⟩
      rw [validateRange, hres] at hval
      split_ifs at hval with hbad
      push Not at hbad
      obtain ⟨h0, h1, hle⟩ := hbad
      have hzero : (0 : BitVec 64).toInt = 0 := rfl
      rw [hzero, BitVec.toInt_eq_toNat_cond, hsum] at hle
      have hsmall : offset.toNat = 0 ∧ length.toNat = 0 := by
        rcases hover with hlt | hneg | hneg
        · rw [Nat.mod_eq_of_lt (by omega)] at hle
          split_ifs at hle <;> omega
        · omega
        · omega
      exact ⟨BitVec.toNat_inj.mp hsmall.1, BitVec.toNat_inj.mp hsmall.2⟩
    obtain ⟨rfl, rfl⟩ := hrange
    have haddr : vm.base + pageDown 0 vm.quantum = 0 := by
      have hdown : pageDown 0 vm.quantum = 0 := BitVec.zero_and
      rw [hbase, hdown]
      rfl
    refine ⟨.EINVAL, ?_⟩
    rw [run_of_valid hval, haddr, mjsVmRange, if_pos rfl]
    rfl

end Change

/-! ### The relation with the contract -/

/-- The address space holds the region of a value. -/
def Owns (k : ℕ) (m : AddressSpace) : Option VirtualMemory → Option (Option Region) → Prop
  | none, none => True
  | some vm, some none => vm.base = 0 ∧ vm.reservedBytes = 0
  | some vm, some (some g) => vm.Live k ∧ g.size = vm.reservedBytes.toNat ∧
    vm.committedBytes.toNat = g.committed ∧ g.committed ≤ g.size ∧
    ∀ x, x < g.size → m (vm.base.toNat + x) = some (g.cell x)
  | _, _ => False

/-- The reservations of two values have no byte in common. -/
def Apart (vm vm' : VirtualMemory) : Prop :=
  vm.base.toNat + vm.reservedBytes.toNat ≤ vm'.base.toNat ∨
    vm'.base.toNat + vm'.reservedBytes.toNat ≤ vm.base.toNat

/-- A byte outside of a reservation. -/
def Outside (vm : VirtualMemory) (x : ℕ) : Prop :=
  x < vm.base.toNat ∨ vm.base.toNat + vm.reservedBytes.toNat ≤ x

/-- A value has the reservation of another, or none. -/
def Keeps (vm vm' : VirtualMemory) : Prop :=
  (vm'.base = vm.base ∧ vm'.reservedBytes = vm.reservedBytes) ∨
    (vm'.base = 0 ∧ vm'.reservedBytes = 0)

/-- The process holds the regions of the contract. -/
structure Tracks (k : ℕ) (w : Process) (s : Regions) : Prop where
  owns : ∀ h, Owns k w.mem (w.vals h) (s h)
  apart : ∀ h h' vm vm', h ≠ h' → w.vals h = some vm → w.vals h' = some vm' → Apart vm vm'

section Relation

variable {k h : ℕ} {m m' : AddressSpace} {w : Process} {s : Regions} {vm vm' : VirtualMemory}

theorem Apart.symm (ha : Apart vm vm') : Apart vm' vm := Or.symm ha

theorem apart_of_zero (hb : vm'.base = 0) (hr : vm'.reservedBytes = 0) : Apart vm vm' := by
  rw [Apart, hb, hr]
  exact Or.inr (Nat.zero_le _)

theorem Apart.keeps {vm₀ : VirtualMemory} (ha : Apart vm₀ vm) (hk : Keeps vm vm') :
    Apart vm₀ vm' := by
  rcases hk with ⟨hb, hr⟩ | ⟨hb, hr⟩
  · rw [Apart, hb, hr]
    exact ha
  · exact apart_of_zero hb hr

/-- Memory that changes outside of a reservation leaves its region alone. -/
theorem Owns.frame {v : Option VirtualMemory} {r : Option (Option Region)} (ho : Owns k m v r)
    (hm : ∀ vm, v = some vm → ∀ x, x < vm.reservedBytes.toNat →
      m' (vm.base.toNat + x) = m (vm.base.toNat + x)) : Owns k m' v r := by
  match v, r, ho with
  | none, none, _ => trivial
  | some vm, some none, ho => exact ho
  | some vm, some (some g), ⟨hl, hsize, hc, hle, hcells⟩ =>
    exact ⟨hl, hsize, hc, hle, fun x hx => (hm vm rfl x (hsize ▸ hx)).trans (hcells x hx)⟩

/-- A value that is alive is known to the contract. -/
theorem Tracks.known (ht : Tracks k w s) (hvm : w.vals h = some vm) : ∃ r, s h = some r := by
  have ho := ht.owns h
  rw [hvm] at ho
  cases hs : s h with
  | none =>
    rw [hs] at ho
    exact absurd ho id
  | some r => exact ⟨r, rfl⟩

theorem Tracks.unknown (ht : Tracks k w s) (hvm : w.vals h = none) : s h = none := by
  have ho := ht.owns h
  rw [hvm] at ho
  cases hs : s h with
  | none => rfl
  | some r =>
    rw [hs] at ho
    exact absurd ho id

/-- A value with a reservation has a region. -/
theorem Tracks.region (ht : Tracks k w s) (hvm : w.vals h = some vm)
    (hres : 0 < vm.reservedBytes.toNat) : ∃ g, s h = some (some g) ∧ vm.Live k ∧
      g.size = vm.reservedBytes.toNat ∧ vm.committedBytes.toNat = g.committed ∧
      g.committed ≤ g.size ∧ ∀ x, x < g.size → w.mem (vm.base.toNat + x) = some (g.cell x) := by
  have ho := ht.owns h
  obtain ⟨r, hr⟩ := ht.known hvm
  rw [hvm, hr] at ho
  cases r with
  | none =>
    rw [ho.2] at hres
    exact absurd hres (by decide)
  | some g => exact ⟨g, hr, ho⟩

/-- A step of one value, inside its reservation, keeps the relation. -/
theorem Tracks.update (ht : Tracks k w s) {v' : Option VirtualMemory} {r' : Option (Option Region)}
    (hvm : w.vals h = some vm) (hm : ∀ x, Outside vm x → m' x = w.mem x)
    (hkeeps : ∀ vm', v' = some vm' → Keeps vm vm') (ho : Owns k m' v' r') :
    Tracks k ⟨m', Function.update w.vals h v'⟩ (Function.update s h r') where
  owns x := by
    by_cases hx : x = h
    · subst hx
      simpa using ho
    · simp only [Function.update_of_ne hx]
      refine (ht.owns x).frame fun vm₁ hvm₁ y hy => hm _ ?_
      rcases ht.apart x h vm₁ vm hx hvm₁ hvm with hlo | hhi
      · exact Or.inl (by omega)
      · exact Or.inr (by omega)
  apart x y vm₁ vm₂ hxy h₁ h₂ := by
    dsimp only at h₁ h₂
    by_cases hx : x = h
    · subst hx
      rw [Function.update_self] at h₁
      rw [Function.update_of_ne (Ne.symm hxy)] at h₂
      exact ((ht.apart y x vm₂ vm (Ne.symm hxy) h₂ hvm).keeps (hkeeps vm₁ h₁)).symm
    · rw [Function.update_of_ne hx] at h₁
      by_cases hy : y = h
      · subst hy
        rw [Function.update_self] at h₂
        exact (ht.apart x y vm₁ vm hxy h₁ hvm).keeps (hkeeps vm₂ h₂)
      · rw [Function.update_of_ne hy] at h₂
        exact ht.apart x y vm₁ vm₂ hxy h₁ h₂

/-! ### The steps -/

/-- The high-water mark of a region stays inside of it. -/
theorem committed_change_le {g : Region} {op : RangeOp} {offset length : BitVec 64} {o : Outcome}
    (hd : 2 ^ k ∣ g.size) (hle : g.committed ≤ g.size)
    (ho : o = .done → Inside g.size offset length) :
    (g.change k op offset.toNat length.toNat o).committed ≤ g.size := by
  match o with
  | .refused | .failed 0 _ | .failed (_ + 1) _ => exact hle
  | .done =>
    cases op with
    | decommit | protect flags => exact hle
    | commit =>
      have hin := (ho rfl).2.2
      refine max_le hle ?_
      by_contra hgt
      have hlt := (lt_roundUpNat_iff (Nat.two_pow_pos k) hd).mp (Nat.lt_of_not_le hgt)
      omega

/-- An operation on a range shows what the contract permits. -/
theorem Tracks.change (ht : Tracks k w s) (op : RangeOp) {offset length : BitVec 64}
    (ans : Syscall → Status) (cut : ℕ) (hvm : w.vals h = some vm)
    (hwrap : ¬ Wraps offset length) :
    let e := MemoryEvent.changed h op offset length (outcome cut (vm.run op offset length ans))
    (regions k).Accepts s [e] ∧
      Tracks k ⟨memAfter w.mem ans cut (vm.run op offset length ans).1,
        Function.update w.vals h (some (vm.kept (vm.run op offset length ans).2))⟩
        ((regions k).after s [e]) := by
  intro e
  obtain ⟨r, hr⟩ := ht.known hvm
  have ho := ht.owns h
  rw [hvm, hr] at ho
  cases r with
  | none =>
    obtain ⟨err, hrun⟩ := run_of_zero op ans ho.1 ho.2 hwrap
    have he : e = .changed h op offset length .refused := by
      simp only [e, hrun]
      rfl
    rw [he, hrun]
    refine ⟨⟨trivial, ?_⟩, ?_⟩
    · change Regions.PermitsChange offset length .refused (s h)
      rw [hr]
      rfl
    · refine ht.update hvm (fun _ _ => rfl) (fun vm' hvm' => ?_) ?_
      · obtain rfl := Option.some.inj hvm'
        exact Or.inl ⟨rfl, rfl⟩
      · rw [Automaton.after_nil, hr]
        exact ho
  | some g =>
    obtain ⟨hl, hsize, hc, hle, hcells⟩ := ho
    have heff := effect_run op ans cut hl hwrap
    refine ⟨⟨trivial, ?_⟩, ?_⟩
    · change Regions.PermitsChange offset length _ (s h)
      rw [hr, Regions.PermitsChange, hsize]
      exact heff.refused
    · refine ht.update hvm (fun x hx => heff.frame _ x hx) (fun vm' hvm' => ?_) ?_
      · obtain rfl := Option.some.inj hvm'
        exact Or.inl ⟨heff.base, heff.reserved⟩
      · rw [Automaton.after_nil, hr]
        refine ⟨heff.live, ?_, heff.committed g hc hle hsize, ?_, ?_⟩
        · rw [heff.reserved, Region.change_size]
          exact hsize
        · rw [Region.change_size]
          refine committed_change_le (hsize ▸ hl.reserved_dvd) hle fun hdone => ?_
          by_contra hin
          rw [heff.refused.mpr (hsize ▸ hin)] at hdone
          cases hdone
        · rw [heff.base, Region.change_size]
          exact heff.own w.mem g hsize hcells

/-- A reservation has bytes of its own. -/
theorem Tracks.reserve (ht : Tracks k w s) (hfree : w.vals h = none) (hl : vm.Live k)
    (hzero : vm.committedBytes = 0)
    (hfresh : ∀ x, vm.base.toNat ≤ x → x < vm.base.toNat + vm.reservedBytes.toNat →
      w.mem x = none) :
    (regions k).Accepts s [.reserved h vm.reservedBytes.toNat] ∧
      Tracks k ⟨w.mem.map vm.base.toNat vm.reservedBytes.toNat,
        Function.update w.vals h (some vm)⟩
        ((regions k).after s [.reserved h vm.reservedBytes.toNat]) := by
  -- a byte of another value is mapped, so it is not one of the new bytes
  have hother : ∀ x vm₁, w.vals x = some vm₁ → ∀ y, y < vm₁.reservedBytes.toNat →
      Outside vm (vm₁.base.toNat + y) := by
    intro x vm₁ hvm₁ y hy
    obtain ⟨g, -, -, hsize, -, -, hcells⟩ := ht.region hvm₁ (Nat.lt_of_le_of_lt (Nat.zero_le _) hy)
    by_contra hin
    simp only [Outside, not_or, Nat.not_lt, Nat.not_le] at hin
    have hmapped := hcells y (hsize ▸ hy)
    rw [hfresh _ hin.1 hin.2] at hmapped
    cases hmapped
  have hapart : ∀ x vm₁, w.vals x = some vm₁ → Apart vm₁ vm := by
    intro x vm₁ hvm₁
    have hpos := hl.reserved_pos
    rcases Nat.eq_zero_or_pos vm₁.reservedBytes.toNat with hnone | hsome
    · obtain ⟨r, hr⟩ := ht.known hvm₁
      have ho := ht.owns x
      rw [hvm₁, hr] at ho
      cases r with
      | none => exact (apart_of_zero ho.1 ho.2).symm
      | some g =>
        have := ho.1.reserved_pos
        omega
    · by_contra hmeet
      simp only [Apart, not_or, Nat.not_le] at hmeet
      -- the larger base is a byte of both
      have hout := hother x vm₁ hvm₁ (max vm₁.base.toNat vm.base.toNat - vm₁.base.toNat) (by omega)
      simp only [Outside] at hout
      omega
  refine ⟨⟨trivial, ht.unknown hfree, hl.reserved_pos⟩, fun x => ?_,
    fun x y vm₁ vm₂ hxy h₁ h₂ => ?_⟩
  · by_cases hx : x = h
    · subst hx
      have hnew : Owns k (w.mem.map vm.base.toNat vm.reservedBytes.toNat) (some vm)
          (some (some (.fresh vm.reservedBytes.toNat))) := by
        refine ⟨hl, rfl, by rw [hzero]; rfl, Nat.zero_le _, fun y hy => ?_⟩
        exact if_pos ⟨Nat.le_add_right _ _, Nat.add_lt_add_left hy _⟩
      simpa [regions, Regions.next] using hnew
    · have hold : Owns k (w.mem.map vm.base.toNat vm.reservedBytes.toNat) (w.vals x) (s x) := by
        refine (ht.owns x).frame fun vm₁ hvm₁ y hy => if_neg ?_
        have hout := hother x vm₁ hvm₁ y hy
        rw [Outside] at hout
        omega
      simpa [regions, Regions.next, hx] using hold
  · dsimp only at h₁ h₂
    by_cases hx : x = h
    · subst hx
      rw [Function.update_self] at h₁
      rw [Function.update_of_ne (Ne.symm hxy)] at h₂
      obtain rfl := Option.some.inj h₁
      exact (hapart y vm₂ h₂).symm
    · rw [Function.update_of_ne hx] at h₁
      by_cases hy : y = h
      · subst hy
        rw [Function.update_self] at h₂
        obtain rfl := Option.some.inj h₂
        exact hapart x vm₁ h₁
      · rw [Function.update_of_ne hy] at h₂
        exact ht.apart x y vm₁ vm₂ hxy h₁ h₂

/-- A load shows what the region holds. -/
theorem Tracks.load (ht : Tracks k w s) {x : ℕ} {v : Option UInt8} (hvm : w.vals h = some vm)
    (hx : x < vm.reservedBytes.toNat)
    (hv : match w.mem (vm.base.toNat + x) with
      | some c => c.Shows v
      | none => v = none) : (regions k).permits s (.loaded h x v) := by
  obtain ⟨g, hr, -, hsize, -, -, hcells⟩ := ht.region hvm (Nat.lt_of_le_of_lt (Nat.zero_le _) hx)
  rw [hcells x (hsize ▸ hx)] at hv
  exact ⟨g, hr, hsize ▸ hx, hv⟩

/-- A store changes one byte of one region. -/
theorem Tracks.store (ht : Tracks k w s) {x : ℕ} {c : Cell} (byte : UInt8)
    (hvm : w.vals h = some vm) (hx : x < vm.reservedBytes.toNat)
    (hc : w.mem (vm.base.toNat + x) = some c) (hw : c.prot &&& 2 ≠ 0) :
    (regions k).Accepts s [.stored h x byte] ∧
      Tracks k { w with
        mem := Function.update w.mem (vm.base.toNat + x) (some { c with byte := byte }) }
        ((regions k).after s [.stored h x byte]) := by
  obtain ⟨g, hr, hl, hsize, hcom, hle, hcells⟩ :=
    ht.region hvm (Nat.lt_of_le_of_lt (Nat.zero_le _) hx)
  have hcell : g.cell x = c := Option.some.inj ((hcells x (hsize ▸ hx)).symm.trans hc)
  have hvals : w.vals = Function.update w.vals h (some vm) :=
    (Function.update_eq_self_iff.mpr hvm.symm).symm
  refine ⟨⟨trivial, g, hr, hsize ▸ hx, hcell ▸ hw⟩, ?_⟩
  rw [hvals]
  refine ht.update hvm (fun y hy => ?_) (fun vm' hvm' => ?_) ?_
  · refine Function.update_of_ne ?_ _ _
    rw [Outside] at hy
    omega
  · obtain rfl := Option.some.inj hvm'
    exact Or.inl ⟨rfl, rfl⟩
  · rw [Automaton.after_nil, hr]
    refine ⟨hl, hsize, hcom, hle, fun y hy => ?_⟩
    by_cases hyx : y = x
    · subst hyx
      simp [hcell]
    · have hne : vm.base.toNat + y ≠ vm.base.toNat + x := by omega
      simp only [Function.update_of_ne hne, Function.update_of_ne hyx]
      exact hcells y hy

/-- A release unmaps the region of its value, or keeps everything. -/
theorem Tracks.release (ht : Tracks k w s) (ans : Status) (hvm : w.vals h = some vm) :
    let e := MemoryEvent.released h (vm.release ans).1.isNone
    (regions k).Accepts s [e] ∧
      Tracks k ⟨if (vm.release ans).1.isNone then
          w.mem.unmap vm.base.toNat vm.reservedBytes.toNat
        else w.mem, Function.update w.vals h (some (vm.release ans).2)⟩
        ((regions k).after s [e]) := by
  intro e
  obtain ⟨r, hr⟩ := ht.known hvm
  have ho := ht.owns h
  rw [hvm, hr] at ho
  have hunmap : ∀ x, Outside vm x →
      w.mem.unmap vm.base.toNat vm.reservedBytes.toNat x = w.mem x := by
    intro x hx
    refine if_neg ?_
    rw [Outside] at hx
    omega
  cases r with
  | none =>
    have hrel : vm.release ans = (none, vm) := by simp [VirtualMemory.release, ho.2]
    simp only [e, hrel]
    refine ⟨⟨trivial, none, hr, fun _ => rfl⟩, ?_⟩
    exact ht.update hvm hunmap (fun vm' hvm' => Or.inl (by simp [Option.some.inj hvm'])) ho
  | some g =>
    have hres : vm.reservedBytes ≠ 0 := by
      intro hzero
      have hpos := ho.1.reserved_pos
      rw [hzero] at hpos
      exact absurd hpos (by decide)
    have hbase : vm.base ≠ 0 := by
      intro hzero
      have hpos := ho.1.base_pos
      rw [hzero] at hpos
      exact absurd hpos (by decide)
    cases ans with
    | none =>
      have hrel : vm.release none =
          (none, { vm with base := 0, reservedBytes := 0, committedBytes := 0 }) := by
        rw [VirtualMemory.release, if_neg hres, mjsVmRelease, if_neg hbase]
      simp only [e, hrel]
      refine ⟨⟨trivial, _, hr, nofun⟩, ht.update hvm hunmap (fun vm' hvm' => ?_) ⟨rfl, rfl⟩⟩
      obtain rfl := Option.some.inj hvm'
      exact Or.inr ⟨rfl, rfl⟩
    | some err =>
      have hrel : vm.release (some err) = (some err, vm) := by
        rw [VirtualMemory.release, if_neg hres, mjsVmRelease, if_neg hbase]
      have hvals : Function.update w.vals h (some vm) = w.vals :=
        Function.update_eq_self_iff.mpr hvm.symm
      simp only [e, hrel, hvals]
      exact ⟨⟨trivial, _, hr, nofun⟩, ht⟩

/-- A move carries the region along. -/
theorem Tracks.move (ht : Tracks k w s) {h' : ℕ} (hvm : w.vals h = some vm)
    (hfree : w.vals h' = none) :
    (regions k).Accepts s [.moved h h'] ∧
      Tracks k { w with
        vals := Function.update (Function.update w.vals h' (some vm)) h (some movedFrom) }
        ((regions k).after s [.moved h h']) := by
  have hne : h' ≠ h := by
    rintro rfl
    rw [hfree] at hvm
    cases hvm
  obtain ⟨r, hr⟩ := ht.known hvm
  have hsome : s h ≠ none := by
    rw [hr]
    exact Option.some_ne_none r
  -- the values that are alive afterwards: the old ones under their new names, and an empty one
  have hvals : ∀ x vm₁, Function.update (Function.update w.vals h' (some vm)) h (some movedFrom) x =
      some vm₁ → vm₁ = movedFrom ∧ x = h ∨ x = h' ∧ vm₁ = vm ∨
        x ≠ h ∧ x ≠ h' ∧ w.vals x = some vm₁ := by
    intro x vm₁ hx
    by_cases hxh : x = h
    · subst hxh
      rw [Function.update_self] at hx
      exact Or.inl ⟨(Option.some.inj hx).symm, rfl⟩
    · rw [Function.update_of_ne hxh] at hx
      by_cases hxh' : x = h'
      · subst hxh'
        rw [Function.update_self] at hx
        exact Or.inr (Or.inl ⟨rfl, (Option.some.inj hx).symm⟩)
      · rw [Function.update_of_ne hxh'] at hx
        exact Or.inr (Or.inr ⟨hxh, hxh', hx⟩)
  refine ⟨⟨trivial, hsome, ht.unknown hfree⟩, fun x => ?_, fun x y vm₁ vm₂ hxy h₁ h₂ => ?_⟩
  · change Owns k w.mem (Function.update (Function.update w.vals h' (some vm)) h (some movedFrom) x)
      (Function.update (Function.update s h' (s h)) h (some none) x)
    by_cases hxh : x = h
    · subst hxh
      rw [Function.update_self, Function.update_self]
      exact ⟨rfl, rfl⟩
    · rw [Function.update_of_ne hxh, Function.update_of_ne hxh]
      by_cases hxh' : x = h'
      · subst hxh'
        rw [Function.update_self, Function.update_self, ← hvm]
        exact ht.owns h
      · rw [Function.update_of_ne hxh', Function.update_of_ne hxh']
        exact ht.owns x
  · rcases hvals x vm₁ h₁ with ⟨rfl, rfl⟩ | ⟨rfl, rfl⟩ | ⟨hx, -, hx₁⟩
    · exact (apart_of_zero rfl rfl).symm
    · rcases hvals y vm₂ h₂ with ⟨rfl, rfl⟩ | ⟨rfl, rfl⟩ | ⟨hy, -, hy₂⟩
      · exact apart_of_zero rfl rfl
      · exact absurd rfl hxy
      · exact ht.apart h y vm₁ vm₂ (Ne.symm hy) hvm hy₂
    · rcases hvals y vm₂ h₂ with ⟨rfl, rfl⟩ | ⟨rfl, rfl⟩ | ⟨-, -, hy₂⟩
      · exact apart_of_zero rfl rfl
      · exact ht.apart x h vm₁ vm₂ hx hx₁ hvm
      · exact ht.apart x y vm₁ vm₂ hxy hx₁ hy₂

/-- The destructor ends the life of a value; a region whose unmapping fails is nobody's. -/
theorem Tracks.drop (ht : Tracks k w s) (ans : Status) (hvm : w.vals h = some vm) :
    (regions k).Accepts s [.dropped h] ∧
      Tracks k ⟨match vm.drop ans with
          | some (addr, len) => w.mem.unmap addr len
          | none => w.mem, Function.update w.vals h none⟩ ((regions k).after s [.dropped h]) := by
  obtain ⟨r, hr⟩ := ht.known hvm
  have hsome : s h ≠ none := by
    rw [hr]
    exact Option.some_ne_none r
  refine ⟨⟨trivial, hsome⟩, ht.update hvm (fun x hx => ?_) nofun trivial⟩
  unfold VirtualMemory.drop
  split_ifs
  · refine if_neg ?_
    rw [Outside] at hx
    omega
  · rfl

/-- A new reservation has no commits. -/
theorem reserve_committed {pageSize bytes : BitVec 64} {mmap : BitVec 64 → Except Errno (BitVec 64)}
    (h : VirtualMemory.reserve pageSize bytes mmap = .ok vm) :
    vm.committedBytes = 0 ∧ ∃ total, mmap total = .ok vm.base ∧ vm.reservedBytes = total := by
  rw [VirtualMemory.reserve, mjsVmReserve] at h
  by_cases hwrap : BitVec.allOnes 64 - pageSize < bytes
  · rw [if_pos hwrap] at h
    cases h
  · rw [if_neg hwrap] at h
    dsimp only at h
    revert h
    generalize ((if bytes = 0 then pageSize else bytes) + pageSize - 1) / pageSize * pageSize =
      total
    intro h
    cases hans : mmap total with
    | error err =>
      rw [hans] at h
      cases h
    | ok base =>
      rw [hans] at h
      obtain rfl := Except.ok.inj h
      exact ⟨rfl, total, hans, rfl⟩

/-- A step of the process shows what the contract permits. -/
theorem Tracks.step (ht : Tracks k w s) {es : List MemoryEvent} {w' : Process}
    (hs : ProcessStep k w es w') :
    (regions k).Accepts s es ∧ Tracks k w' ((regions k).after s es) := by
  cases hs with
  | reserve hfree hps hmmap hfresh hr =>
    obtain ⟨hzero, total, hans, rfl⟩ := reserve_committed hr
    exact ht.reserve hfree (live_reserve hps hmmap hr) hzero (hfresh _ _ hans)
  | change op ans cut hvm hwrap => exact ht.change op ans cut hvm hwrap
  | store byte hvm hx hc hw => exact ht.store byte hvm hx hc hw
  | load hvm hx hv => exact ⟨⟨trivial, ht.load hvm hx hv⟩, ht⟩
  | release ans hvm => exact ht.release ans hvm
  | move hvm hfree => exact ht.move hvm hfree
  | drop ans hvm => exact ht.drop ans hvm

end Relation

/-- The process keeps the contract of the regions. -/
theorem process_simulates (k : ℕ) : (process k).Simulates (regions k) (Tracks k) where
  start w h := by
    refine ⟨fun x => ?_, fun x y vm₁ vm₂ _ h₁ => ?_⟩
    · rw [h x]
      trivial
    · rw [h x] at h₁
      cases h₁
  step _ _ _ _ ht hs := ht.step hs

/-! ### Runs -/

/-- A kernel with four pages left. -/
def mmapFour (total : BitVec 64) : Except Errno (BitVec 64) :=
  if total = 0x4000 then .ok 0x10000 else .error .ENOMEM

theorem of_mmapFour {total base : BitVec 64} (h : mmapFour total = .ok base) :
    total = 0x4000 ∧ base = 0x10000 := by
  unfold mmapFour at h
  split_ifs at h with ht
  exact ⟨ht, (Except.ok.inj h).symm⟩

/-- Four pages with a committed first one. -/
def onePage : VirtualMemory := { fourPages with committedBytes := 0x1000 }

/-- A value of four pages commits the first. -/
theorem run_commit : ∃ w, w.vals 0 = some onePage ∧ w.mem 0x10005 = some ⟨PROT_RW, 0⟩ ∧
    (process 12).Run [.changed 0 .commit 0 1 .done, .reserved 0 0x4000] w := by
  have hreserve : reserve 0x1000 0x4000 mmapFour = .ok fourPages := rfl
  have h₁ : ProcessStep 12 ⟨fun _ => none, fun _ => none⟩ [.reserved 0 0x4000] _ :=
    .reserve (h := 0) rfl rfl (fun total base h => by
      obtain ⟨rfl, rfl⟩ := of_mmapFour h
      decide) (fun _ _ _ _ _ _ => rfl) hreserve
  have hr := (System.Run.start (C := process 12) fun _ => rfl).step h₁
  have h₂ := hr.step (@ProcessStep.change 12 _ 0 fourPages .commit 0 1 (fun _ => none) 0 rfl
    (by decide))
  exact ⟨_, rfl, rfl, h₂⟩

/-- It stores a byte there. -/
theorem run_store : ∃ w, w.vals 0 = some onePage ∧ w.mem 0x10005 = some ⟨PROT_RW, 7⟩ ∧
    (process 12).Run [.stored 0 5 7, .changed 0 .commit 0 1 .done, .reserved 0 0x4000] w := by
  obtain ⟨w, hvm, hc, hr⟩ := run_commit
  have h₃ := hr.step (@ProcessStep.store 12 w 0 5 onePage _ 7 hvm (by decide) hc (by decide))
  refine ⟨_, ?_, ?_, h₃⟩
  · exact hvm
  · exact Function.update_self (0x10005 : ℕ) _ w.mem

/-- After a decommit whose mapping failed, a load faults. -/
theorem run_fault : ∃ w, (process 12).Run [.loaded 0 5 none,
    .changed 0 .decommit 0 1 (.failed 1 0), .stored 0 5 7,
    .changed 0 .commit 0 1 .done, .reserved 0 0x4000] w := by
  obtain ⟨w, hvm, hc, hr⟩ := run_store
  let ans : Syscall → Status := fun c => if c.kind = .mmapFixed then some .ENOMEM else none
  have h₄ := @ProcessStep.change 12 w 0 onePage .decommit 0 1 ans 0 hvm (by decide)
  have hr₄ := hr.step h₄
  have hload : memAfter w.mem ans 0 (onePage.run .decommit 0 1 ans).1 0x10005 =
      some ⟨PROT_NONE, 7⟩ := by
    change (w.mem 0x10005).map (fun c => { c with prot := PROT_NONE }) = _
    rw [hc]
    rfl
  have hvm' : Function.update w.vals 0 (some (onePage.kept (onePage.run .decommit 0 1 ans).2)) 0 =
      some onePage := by
    rw [Function.update_self]
    rfl
  refine ⟨_, hr₄.step (@ProcessStep.load 12 _ 0 5 onePage _ hvm' (by decide) ?_)⟩
  change match memAfter w.mem ans 0 (onePage.run .decommit 0 1 ans).1 0x10005 with
    | some c => c.Shows none
    | none => _
  rw [hload]
  rfl

/-- The values of a program own regions: whatever they do in whatever order, and whatever the
kernel refuses, no operation, move, release or destruction of one value is seen in the region of
another; an operation inside its region changes the pages that meet its range, one outside raises
without a system call; and what owns nothing does nothing. -/
theorem values_own_regions {k : ℕ} {tr : List MemoryEvent} {w : Process}
    (hr : (process k).Run tr w) : (regions k).Accepts (regions k).start tr :=
  ((process_simulates k).run hr).1

theorem values_own_regions_fault : (regions 12).Accepts (regions 12).start [.loaded 0 5 none,
    .changed 0 .decommit 0 1 (.failed 1 0), .stored 0 5 7,
    .changed 0 .commit 0 1 .done, .reserved 0 0x4000] :=
  let ⟨_, hr⟩ := run_fault
  values_own_regions hr

end MojitoSys.Memory
