import MojitoSys.Io.IoUring
import MojitoSys.Util.Ledger
import Mathlib.Logic.Relation

/-!
# Creating and closing the io_uring poller

`mjs_iouring_create` acquires a ring descriptor, the handle, three mappings, four tables and an
eventfd, and submits the wake poll; every step may fail, and each failure unwinds by hand what was
acquired before it. `mjs_iouring_close` gives everything back. Here the answers of the operating
system are an input (`Answers`), and the calls return, beside their result, the log of the
descriptors, mappings and heap blocks that they acquire and release.

The lengths of the mappings come from the geometry that the kernel reports, which is arbitrary. The
handle keeps each length beside its pointer, and the unmapping reads it back.

## Main definitions

* `Params`, `Answers`, `Answers.Lawful`: the operating system.
* `Resource`, `Handle`.
* `roundPage`, `Handle.iouringUnmap`, `iouringMapRings`, `mjsIouringCreate`, `mjsIouringClose`.

## Main results

* `iouringMapRings_balanced`, `iouringMapRings_mapped`: what a failing and a successful mapping of
  the rings leave.
* `mjsIouringCreate_ends`: the two ways in which a create ends.
* `create_close_ledger`: the ledger of create and of close.
* `start_of_create`: the poller after a successful create.
-/

namespace MojitoSys.Io.IoUring

open Util Util.Ledger

/-- An address of the process. -/
abbrev Addr := BitVec 64

/-- A `size_t`. -/
abbrev Size := BitVec 64

/-- `MAP_FAILED`. -/
def MAP_FAILED : Addr := 0xFFFFFFFFFFFFFFFF

/-- What a process acquires and releases. -/
inductive Resource
  | fd (fd : Fd)
  | mapping (addr : Addr) (len : Size)
  | block (addr : Addr)
  deriving DecidableEq, Repr

/-- The geometry in `struct io_uring_params`. -/
structure Params where
  sqEntries : BitVec 32
  cqEntries : BitVec 32
  /-- `sq_off.array`. -/
  sqArray : BitVec 32
  /-- `cq_off.cqes`. -/
  cqCqes : BitVec 32
  deriving DecidableEq, Repr

/-- The three areas that the ring descriptor maps. -/
inductive Area
  | sqRing
  | cqRing
  | sqes
  deriving DecidableEq, Repr

/-- The four tables. -/
inductive Table
  | fds
  | seqs
  | tok
  | int
  deriving DecidableEq, Repr

/-- The answers of the operating system to the calls of a create. -/
structure Answers where
  /-- `MOJITO_IO_URING` is set to `1`. -/
  flag : Bool
  /-- `ioring_setup(8)` of the probe: a descriptor, or a negative error. -/
  probe : Fd
  /-- `ioring_setup(128)`. -/
  setup : Fd
  /-- The geometry that it reports. -/
  params : Params
  /-- `sysconf(_SC_PAGESIZE)`. -/
  page : BitVec 64
  /-- The block of `calloc`, `0` for `NULL`. -/
  calloc : Addr
  /-- `mmap` of an area with a length: an address or `MAP_FAILED`, and `errno` after a failure. -/
  mmap : Area → Size → Addr × Errno
  /-- `malloc` of a table with a size, `0` for `NULL`. -/
  malloc : Table → Size → Addr
  /-- `eventfd`, negative for a failure, and `errno` after it. -/
  eventfd : Fd × Errno
  /-- The two `ioring_enter` calls of the wake poll. -/
  flush : Enter
  enter : Enter
  /-- What the memory of the tables holds. -/
  seqs : ℕ → ℕ
  toks : ℕ → Token
  ints : ℕ → Mask

/-- What `mmap` without a wish for an address promises: it does not map at `NULL`, and it rejects
an empty length. -/
structure Answers.Lawful (a : Answers) : Prop where
  ne_null : ∀ area len, (a.mmap area len).1 ≠ 0
  empty : ∀ area, (a.mmap area 0).1 = MAP_FAILED

/-- A pointer to mapped memory and the length beside it. -/
structure Mapping where
  ptr : Addr
  len : Size
  deriving DecidableEq, Repr

/-- A mapping that was not made, or that was released. -/
def Mapping.none : Mapping := ⟨MAP_FAILED, 0⟩

/-- `struct mjs_uring`: the block, the descriptor of the ring, what was mapped and allocated, and
the poller. -/
structure Handle where
  addr : Addr
  ringFd : Fd
  sqRing : Mapping
  cqRing : Mapping
  sqes : Mapping
  rFds : Addr
  rSeqs : Addr
  rTok : Addr
  rInt : Addr
  ring : Uring

/-- The log of a call. -/
abbrev Log := List (Entry Resource)

/-! ### The calls of the operating system -/

/-- The heap blocks of the pointers that are not `NULL`. -/
def blocks (ps : List Addr) : List Resource := (ps.filter (· ≠ 0)).map .block

/-- The log of a `calloc` or a `malloc`. -/
def alloc (p : Addr) : Log := (blocks [p]).map .acquire

/-- The log of a `free`. -/
def free (p : Addr) : Log := (blocks [p]).map .release

/-- The log of a `close`. -/
def close (fd : Fd) : Log := [.release (.fd fd)]

/-! ### The rings -/

/-- `round_page`. -/
def roundPage (page n : Size) : Size :=
  let page := if page.toInt ≤ 0 then 4096 else page
  (n + page - 1) &&& ~~~(page - 1)

/-- The guarded `munmap` of one mapping. -/
def Mapping.unmap (m : Mapping) : Log :=
  if m.ptr ≠ MAP_FAILED ∧ m.ptr ≠ 0 ∧ m.len ≠ 0 then [.release (.mapping m.ptr m.len)] else []

/-- `iouring_unmap`. -/
def Handle.iouringUnmap (u : Handle) : Handle × Log :=
  ({ u with sqRing := .none, cqRing := .none, sqes := .none },
    u.sqRing.unmap ++ u.cqRing.unmap ++ u.sqes.unmap)

/-- The three lengths of `iouring_map_rings`. -/
def Params.len (p : Params) (page : BitVec 64) : Area → Size
  | .sqRing => roundPage page (p.sqArray.setWidth 64 + p.sqEntries.setWidth 64 * 4)
  | .cqRing => roundPage page (p.cqCqes.setWidth 64 + p.cqEntries.setWidth 64 * 16)
  | .sqes => roundPage page (p.sqEntries.setWidth 64 * 64)

/-- `iouring_map_rings`. -/
def iouringMapRings (a : Answers) (u : Handle) (p : Params) : Status × Handle × Log :=
  let sqSz := p.len a.page .sqRing
  let cqSz := p.len a.page .cqRing
  let sqeSz := p.len a.page .sqes
  let sq := a.mmap .sqRing sqSz
  let u := { u with sqRing := ⟨sq.1, u.sqRing.len⟩ }
  if sq.1 = MAP_FAILED then (some sq.2, u, [])
  else
    let u := { u with sqRing := ⟨sq.1, sqSz⟩ }
    let log : Log := [.acquire (.mapping sq.1 sqSz)]
    let cq := a.mmap .cqRing cqSz
    let u := { u with cqRing := ⟨cq.1, u.cqRing.len⟩ }
    if cq.1 = MAP_FAILED then (some cq.2, u.iouringUnmap.1, log ++ u.iouringUnmap.2)
    else
      let u := { u with cqRing := ⟨cq.1, cqSz⟩ }
      let log := log ++ [.acquire (.mapping cq.1 cqSz)]
      let sqes := a.mmap .sqes sqeSz
      let u := { u with sqes := ⟨sqes.1, u.sqes.len⟩ }
      if sqes.1 = MAP_FAILED then (some sqes.2, u.iouringUnmap.1, log ++ u.iouringUnmap.2)
      else
        (none, { u with
          sqes := ⟨sqes.1, sqeSz⟩
          ring := { u.ring with sqEntries := p.sqEntries.toNat } },
          log ++ [.acquire (.mapping sqes.1 sqeSz)])

/-! ### Create and close -/

/-- `mjs_iouring_available`, with the ring that the probe opens and closes. -/
def mjsIouringAvailable (a : Answers) : Bool × Log :=
  if a.flag = false then (false, [])
  else if 0 ≤ a.probe then (true, [.acquire (.fd a.probe)] ++ close a.probe)
  else (false, [])

/-- The handle before its rings are mapped. -/
def Handle.blank (addr : Addr) (fd : Fd) : Handle where
  addr := addr
  ringFd := fd
  sqRing := .none
  cqRing := .none
  sqes := .none
  rFds := 0
  rSeqs := 0
  rTok := 0
  rInt := 0
  ring :=
    { sqEntries := 0, cap := 0, fds := fun _ => 0, seqs := fun _ => 0, toks := fun _ => 0
      ints := fun _ => 0, count := 0, nextSeq := FIRST_SEQ, wakeFd := -1, wakeArmed := false
      timeoutArmed := false, staged := [], inflight := [], cq := [] }

/-- The four tables of a handle. -/
def Handle.tables (u : Handle) : List Addr := [u.rFds, u.rSeqs, u.rTok, u.rInt]

/-- The four `malloc` calls. -/
def Handle.mallocTables (u : Handle) (a : Answers) : Handle :=
  let cap := if u.ring.sqEntries < 16 then 16 else u.ring.sqEntries
  { u with
    rFds := a.malloc .fds (BitVec.ofNat 64 cap * 4)
    rSeqs := a.malloc .seqs (BitVec.ofNat 64 cap * 8)
    rTok := a.malloc .tok (BitVec.ofNat 64 cap * 8)
    rInt := a.malloc .int (BitVec.ofNat 64 cap * 4)
    ring := { u.ring with cap := cap } }

/-- The empty table in the allocated blocks. -/
def Handle.emptyTables (u : Handle) (a : Answers) : Handle :=
  { u with
    ring := { u.ring with
      fds := fun _ => -1, seqs := a.seqs, toks := a.toks, ints := a.ints, count := 0 } }

/-- The four `free` calls. -/
def Handle.freeTables (u : Handle) : Log :=
  free u.rFds ++ free u.rSeqs ++ free u.rTok ++ free u.rInt

/-- The error ladder of `mjs_iouring_create` once the rings are mapped, the same at its three
places. -/
def Handle.unwind (u : Handle) : Log :=
  u.iouringUnmap.2 ++ u.freeTables ++ close u.ringFd ++ free u.addr

/-- A `mjs_uring **`: `none` for `NULL`, `some none` for a pointer to `NULL`. -/
abbrev OutPtr := Option (Option Handle)

/-- How a call ends: its status, its out-parameter and its log. -/
structure Ended where
  status : Status
  out : OutPtr
  log : Log

/-- `mjs_iouring_create` from the opened eventfd on; `log` is its log so far. -/
def Handle.submitWake (u : Handle) (a : Answers) (out : OutPtr) (log : Log) : Ended :=
  match u.ring.submitPollAdd a.flush a.enter (.pollAdd u.ring.wakeFd 0x1 WAKE) with
  | (some err, r) => ⟨some err, out, log ++ (close u.ring.wakeFd ++ { u with ring := r }.unwind)⟩
  | (none, r) => ⟨none, some (some { u with ring := { r with wakeArmed := true } }), log⟩

/-- `mjs_iouring_create` from the allocated tables on. -/
def Handle.openWake (u : Handle) (a : Answers) (out : OutPtr) (log : Log) : Ended :=
  let u := { u with ring := { u.ring with wakeFd := a.eventfd.1 } }
  if a.eventfd.1 < 0 then ⟨some a.eventfd.2, out, log ++ u.unwind⟩
  else u.submitWake a out (log ++ [.acquire (.fd a.eventfd.1)])

/-- `mjs_iouring_create` from the mapped rings on. -/
def Handle.allocTables (u : Handle) (a : Answers) (out : OutPtr) (log : Log) : Ended :=
  let u := u.mallocTables a
  let log := log ++ (alloc u.rFds ++ alloc u.rSeqs ++ alloc u.rTok ++ alloc u.rInt)
  if u.rFds = 0 ∨ u.rSeqs = 0 ∨ u.rTok = 0 ∨ u.rInt = 0 then
    ⟨some .ENOMEM, out, log ++ u.unwind⟩
  else (u.emptyTables a).openWake a out log

/-- `mjs_iouring_create`. -/
def mjsIouringCreate (a : Answers) (out : OutPtr) : Ended :=
  let probe := mjsIouringAvailable a
  if out = none then ⟨some .EFAULT, out, []⟩
  else if probe.1 = false then ⟨some .ENOSYS, out, probe.2⟩
  else if a.setup < 0 then ⟨some .ENOSYS, out, probe.2⟩
  else
    let log := probe.2 ++ [.acquire (.fd a.setup)]
    if a.calloc = 0 then ⟨some .ENOMEM, out, log ++ close a.setup⟩
    else
      let log := log ++ alloc a.calloc
      match iouringMapRings a (.blank a.calloc a.setup) a.params with
      | (some err, u, maps) => ⟨some err, out, log ++ maps ++ (close a.setup ++ free u.addr)⟩
      | (none, u, maps) => u.allocTables a out (log ++ maps)

/-- `mjs_iouring_close`. -/
def mjsIouringClose (p : OutPtr) : Ended :=
  match p with
  | none | some none => ⟨some .EINVAL, p, []⟩
  | some (some u) =>
    ⟨none, some none, (if 0 ≤ u.ring.wakeFd then close u.ring.wakeFd else []) ++
      u.iouringUnmap.2 ++ close u.ringFd ++ u.freeTables ++ free u.addr⟩

/-! ### The mappings -/

section Mappings

variable {a : Answers} {u u' : Handle} {p : Params} {log : Log} {err : Errno}

/-- The mapping exists. -/
structure Mapping.Made (m : Mapping) : Prop where
  ne_failed : m.ptr ≠ MAP_FAILED
  ne_null : m.ptr ≠ 0
  len : m.len ≠ 0

/-- The mapping as a resource. -/
def Mapping.resource (m : Mapping) : Resource := .mapping m.ptr m.len

theorem Mapping.Made.unmap {m : Mapping} (h : m.Made) : m.unmap = [.release m.resource] :=
  if_pos ⟨h.ne_failed, h.ne_null, h.len⟩

@[simp] theorem Mapping.unmap_failed (len : Size) : (Mapping.mk MAP_FAILED len).unmap = [] := by
  simp [Mapping.unmap]

/-- A lawful `mmap` that does not fail makes the mapping. -/
theorem Answers.Lawful.made (h : a.Lawful) {area : Area} {len : Size}
    (hm : (a.mmap area len).1 ≠ MAP_FAILED) : (Mapping.mk (a.mmap area len).1 len).Made where
  ne_failed := hm
  ne_null := h.ne_null area len
  len := by
    rintro rfl
    exact hm (h.empty area)

/-- The three mappings of a handle. -/
def Handle.mappings (u : Handle) : List Resource :=
  [u.sqRing.resource, u.cqRing.resource, u.sqes.resource]

/-- The three mappings of a handle exist. -/
structure Handle.Mapped (u : Handle) : Prop where
  sqRing : u.sqRing.Made
  cqRing : u.cqRing.Made
  sqes : u.sqes.Made

theorem Handle.Mapped.iouringUnmap (h : u.Mapped) :
    u.iouringUnmap.2 = u.mappings.map .release := by
  simp [Handle.iouringUnmap, h.sqRing.unmap, h.cqRing.unmap, h.sqes.unmap, mappings]

/-- Nothing is mapped yet. -/
structure Handle.Unmapped (u : Handle) : Prop where
  sqRing : u.sqRing = .none
  cqRing : u.cqRing = .none
  sqes : u.sqes = .none

/-- A failing mapping of the rings gives back the mappings that it made. -/
theorem iouringMapRings_balanced (ha : a.Lawful) (hu : u.Unmapped)
    (h : iouringMapRings a u p = (some err, u', log)) : Balanced log ∧ u'.addr = u.addr := by
  unfold iouringMapRings at h
  simp only at h
  split at h
  · cases h
    exact ⟨.nil, rfl⟩
  rename_i hsq
  have hsq' := ha.made hsq
  split at h
  · cases h
    rename_i hcq
    refine ⟨?_, rfl⟩
    simp only [Handle.iouringUnmap, hsq'.unmap, hcq, Mapping.unmap_failed, hu.sqes, Mapping.none,
      List.append_nil]
    exact (leaves_acquire [_]).release (.refl [_])
  rename_i hcq
  have hcq' := ha.made hcq
  split at h
  · cases h
    rename_i hsqes
    refine ⟨?_, rfl⟩
    simp only [Handle.iouringUnmap, hsq'.unmap, hcq'.unmap, hsqes, Mapping.unmap_failed,
      List.append_nil]
    exact (leaves_acquire [_, _]).release (.refl [_, _])
  · cases h

/-- A successful mapping of the rings acquires the three mappings. -/
theorem iouringMapRings_mapped (ha : a.Lawful) (h : iouringMapRings a u p = (none, u', log)) :
    u'.Mapped ∧ log = u'.mappings.map .acquire ∧ u'.addr = u.addr ∧ u'.ringFd = u.ringFd ∧
      u'.ring = { u.ring with sqEntries := p.sqEntries.toNat } := by
  unfold iouringMapRings at h
  simp only at h
  split at h
  · cases h
  rename_i hsq
  split at h
  · cases h
  rename_i hcq
  split at h
  · cases h
  rename_i hsqes
  cases h
  exact ⟨⟨ha.made hsq, ha.made hcq, ha.made hsqes⟩, rfl, rfl, rfl, rfl⟩

end Mappings

/-! ### The ledger -/

section Ledger

variable {a : Answers} {u : Handle} {out : OutPtr}

theorem blocks_append (ps qs : List Addr) : blocks (ps ++ qs) = blocks ps ++ blocks qs := by
  simp [blocks]

theorem Handle.freeTables_eq (u : Handle) :
    u.freeTables = (blocks u.tables).map .release := by
  simp only [freeTables, free, ← List.map_append, ← blocks_append]
  rfl

/-- What a handle holds before its eventfd is opened, in the order of the acquisitions. -/
def Handle.base (u : Handle) : List Resource :=
  .fd u.ringFd :: (blocks [u.addr] ++ u.mappings ++ blocks u.tables)

/-- What a created handle holds. -/
def Handle.resources (u : Handle) : List Resource := u.base ++ [.fd u.ring.wakeFd]

/-- The error ladder gives back what the handle holds before its eventfd. -/
theorem Handle.Mapped.unwind_eq (h : u.Mapped) :
    ∃ l : List Resource, u.unwind = l.map .release ∧ l.Perm u.base := by
  refine ⟨u.mappings ++ blocks u.tables ++ [.fd u.ringFd] ++ blocks [u.addr], ?_, ?_⟩
  · simp only [unwind, h.iouringUnmap, freeTables_eq, close, free, List.map_append, List.map_cons,
      List.map_nil]
  · have hcomm : (u.mappings ++ blocks u.tables ++ ([Resource.fd u.ringFd] ++ blocks [u.addr])).Perm
        ([Resource.fd u.ringFd] ++ blocks [u.addr] ++ (u.mappings ++ blocks u.tables)) :=
      List.perm_append_comm
    simpa only [base, List.append_assoc, List.cons_append, List.nil_append] using hcomm

/-- `mjs_iouring_close` gives back what the handle holds. -/
theorem Handle.Mapped.close_eq (h : u.Mapped) (hw : 0 ≤ u.ring.wakeFd) :
    ∃ l : List Resource,
      (mjsIouringClose (some (some u))).log = l.map .release ∧ l.Perm u.resources := by
  refine ⟨[.fd u.ring.wakeFd] ++ (u.mappings ++ [.fd u.ringFd] ++ blocks u.tables ++
    blocks [u.addr]), ?_, ?_⟩
  · simp only [mjsIouringClose, if_pos hw, h.iouringUnmap, freeTables_eq, close, free,
      List.map_append, List.map_cons, List.map_nil, List.append_assoc]
  · refine List.perm_append_comm.trans (List.Perm.append_right _ ?_)
    have hswap : (u.mappings ++ [Resource.fd u.ringFd] ++ blocks u.tables ++ blocks [u.addr]).Perm
        ([Resource.fd u.ringFd] ++ u.mappings ++ blocks u.tables ++ blocks [u.addr]) :=
      (List.perm_append_comm.append_right _).append_right _
    refine hswap.trans ?_
    have hlast : (u.mappings ++ blocks u.tables ++ blocks [u.addr]).Perm
        (blocks [u.addr] ++ (u.mappings ++ blocks u.tables)) := List.perm_append_comm
    simpa only [base, List.append_assoc, List.cons_append, List.nil_append, List.perm_cons]
      using hlast

/-- The probe gives back its ring. -/
theorem balanced_available (a : Answers) : Balanced (mjsIouringAvailable a).2 := by
  unfold mjsIouringAvailable
  split
  · exact .nil
  · split
    · exact (leaves_acquire [_]).release (.refl [_])
    · exact .nil

/-- How a create ends: with an error, `*out` untouched and a balanced log, or with a handle in
`*out` and the acquisition of its resources. -/
inductive Ends (out : OutPtr) : Ended → Prop
  | failed (err : Errno) {log : Log} (h : Balanced log) : Ends out ⟨some err, out, log⟩
  | created {u : Handle} {log : Log} (hm : u.Mapped) (hw : 0 ≤ u.ring.wakeFd)
      (h : Leaves log u.resources) :
      Ends out ⟨none, some (some u), log⟩

theorem Handle.submitWake_ends (hm : u.Mapped) (hw : 0 ≤ u.ring.wakeFd) {log : Log}
    (h : Leaves log u.resources) : Ends out (u.submitWake a out log) := by
  unfold submitWake
  have hq := u.ring.quiet_submitPollAdd a.flush a.enter (.pollAdd u.ring.wakeFd 0x1 WAKE)
  split
  · rename_i err r _
    refine .failed err ?_
    have hrm : Handle.Mapped { u with ring := r } := ⟨hm.sqRing, hm.cqRing, hm.sqes⟩
    obtain ⟨l, hl, hp⟩ := hrm.unwind_eq
    rw [hl]
    exact h.release ((hp.cons _).trans (List.perm_append_singleton _ _).symm)
  · rename_i r hsub
    have hfd : r.wakeFd = u.ring.wakeFd := by
      rw [hsub] at hq
      have hfd := congrArg Uring.wakeFd hq
      exact hfd
    refine .created ⟨hm.sqRing, hm.cqRing, hm.sqes⟩ (hfd ▸ hw) ?_
    rw [Handle.resources, hfd]
    exact h

theorem Handle.openWake_ends (hm : u.Mapped) {log : Log} (h : Leaves log u.base) :
    Ends out (u.openWake a out log) := by
  unfold openWake
  have hvm : Handle.Mapped { u with ring := { u.ring with wakeFd := a.eventfd.1 } } :=
    ⟨hm.sqRing, hm.cqRing, hm.sqes⟩
  simp only
  split
  · obtain ⟨l, hl, hp⟩ := hvm.unwind_eq
    rw [hl]
    exact .failed _ (h.release hp)
  · rename_i hfd
    exact submitWake_ends hvm (Int.not_lt.mp hfd) (h.append (leaves_acquire [_]))

theorem Handle.allocTables_ends (hm : u.Mapped) {log : Log}
    (h : Leaves log (.fd u.ringFd :: (blocks [u.addr] ++ u.mappings))) :
    Ends out (u.allocTables a out log) := by
  unfold allocTables
  have hvm : (u.mallocTables a).Mapped := ⟨hm.sqRing, hm.cqRing, hm.sqes⟩
  have hblocks := leaves_acquire (blocks (u.mallocTables a).tables)
  have halloc : alloc (u.mallocTables a).rFds ++ alloc (u.mallocTables a).rSeqs ++
      alloc (u.mallocTables a).rTok ++ alloc (u.mallocTables a).rInt =
        (blocks (u.mallocTables a).tables).map .acquire := by
    simp only [alloc, ← List.map_append, ← blocks_append]
    rfl
  simp only [halloc]
  split
  · obtain ⟨l, hl, hp⟩ := hvm.unwind_eq
    rw [hl]
    exact .failed _ ((h.append hblocks).release hp)
  · have hbase : Leaves _ ((u.mallocTables a).emptyTables a).base := h.append hblocks
    refine openWake_ends ?_ hbase
    exact ⟨hm.sqRing, hm.cqRing, hm.sqes⟩

/-- Every create ends in one of the two ways. -/
theorem mjsIouringCreate_ends (ha : a.Lawful) (out : OutPtr) :
    Ends out (mjsIouringCreate a out) := by
  have hprobe := balanced_available a
  unfold mjsIouringCreate
  simp only
  split
  · exact .failed _ .nil
  split
  · exact .failed _ hprobe
  split
  · exact .failed _ hprobe
  have hfd := Leaves.append hprobe (leaves_acquire [Resource.fd a.setup])
  split
  · exact .failed _ (hfd.release (.refl [_]))
  have hblock := hfd.append (leaves_acquire (blocks [a.calloc]))
  split
  · rename_i err u maps hmap
    obtain ⟨hbal, haddr⟩ := iouringMapRings_balanced ha ⟨rfl, rfl, rfl⟩ hmap
    rw [haddr]
    exact .failed err ((hblock.append_balanced hbal).release (.refl (_ :: blocks [a.calloc])))
  · rename_i u maps hmap
    obtain ⟨hm, rfl, haddr, hring, -⟩ := iouringMapRings_mapped ha hmap
    refine u.allocTables_ends hm ?_
    rw [haddr, hring]
    exact hblock.append (leaves_acquire u.mappings)

/-- **The ledger of create and close.** Whatever the calls of a create answer and whatever geometry
the kernel reports, a create that fails releases exactly what it acquired and leaves `*out` as it
was. A create that succeeds stores a handle and acquires its resources, and a close, after any run
of the poller, releases exactly these. -/
theorem create_close_ledger (a : Answers) (ha : a.Lawful) (out : OutPtr) :
    ((mjsIouringCreate a out).status ≠ none →
      Balanced (mjsIouringCreate a out).log ∧
      released (mjsIouringCreate a out).log = acquired (mjsIouringCreate a out).log ∧
      (mjsIouringCreate a out).out = out) ∧
    ((mjsIouringCreate a out).status = none → ∃ u,
      (mjsIouringCreate a out).out = some (some u) ∧
      Leaves (mjsIouringCreate a out).log u.resources ∧
      ∀ r, Relation.ReflTransGen Step u.ring r →
        ∃ l : List Resource, l.Perm u.resources ∧
          mjsIouringClose (some (some { u with ring := r })) =
            ⟨none, some none, l.map .release⟩) := by
  have hends := mjsIouringCreate_ends ha out
  generalize mjsIouringCreate a out = o at hends
  cases hends with
  | failed err hlog =>
    refine ⟨fun _ => ⟨hlog, ?_, rfl⟩, fun h => by cases h⟩
    rw [Leaves.acquired_eq hlog]
    exact (Multiset.add_zero _).symm
  | @created u log hm hw hlog =>
    refine ⟨fun h => absurd rfl h, fun _ => ⟨u, rfl, hlog, fun r hr => ?_⟩⟩
    have hfd : r.wakeFd = u.ring.wakeFd := by
      induction hr with
      | refl => rfl
      | tail _ hs ih => rw [hs.wakeFd_eq, ih]
    have hrm : Handle.Mapped { u with ring := r } := ⟨hm.sqRing, hm.cqRing, hm.sqes⟩
    obtain ⟨l, hl, hp⟩ := hrm.close_eq (show 0 ≤ r.wakeFd by rwa [hfd])
    refine ⟨l, ?_, ?_⟩
    · rw [Handle.resources, ← hfd]
      exact hp
    · rw [← hl]
      rfl

end Ledger

/-! ### The created poller -/

section Start

variable {a : Answers} {u u' : Handle} {out : OutPtr} {log log' : Log}

/-- The poller before its wake poll is submitted. -/
structure Blank (r : Uring) : Prop where
  sqEntries : ∃ k, r.sqEntries = 2 ^ k
  cap : r.cap = if r.sqEntries < 16 then 16 else r.sqEntries
  fds : ∀ i, r.fds i = -1
  count : r.count = 0
  nextSeq : r.nextSeq = FIRST_SEQ
  timeoutArmed : r.timeoutArmed = false
  staged : r.staged = []
  inflight : r.inflight = []
  cq : r.cq = []

/-- The first entry of a blank poller is staged at once, and then consumed or not. -/
theorem Blank.submitPollAdd {r r' : Uring} {e₁ e₂ : Enter} {op : Sqe} (h : Blank r)
    (hs : r.submitPollAdd e₁ e₂ op = (none, r')) : r'.staged ++ r'.inflight = [op] := by
  have hroom : r.staged.length < r.sqEntries := by
    obtain ⟨k, hk⟩ := h.sqEntries
    rw [h.staged, hk]
    exact Nat.two_pow_pos k
  have hstage : r.stage op = some { r with staged := [op] } := by
    rw [Uring.stage, if_pos hroom, h.staged]
    rfl
  rw [Uring.submitPollAdd, hstage] at hs
  simp only at hs
  rw [Uring.submit_of_staged (by simp)] at hs
  obtain rfl : Uring.enter { r with staged := [op] } e₂ = r' := congrArg Prod.snd hs
  obtain ⟨_ | n, err⟩ := e₂
  · simp [Uring.enter, h.inflight]
  · simp [Uring.enter, h.inflight]

theorem Blank.submitWake (h : Blank u.ring)
    (hs : u.submitWake a out log = ⟨none, some (some u'), log'⟩) : Start u'.ring := by
  unfold Handle.submitWake at hs
  have hq := u.ring.quiet_submitPollAdd a.flush a.enter (.pollAdd u.ring.wakeFd 0x1 WAKE)
  split at hs
  · cases hs
  · rename_i r hsub
    cases hs
    rw [hsub] at hq
    have hout := h.submitPollAdd hsub
    obtain ⟨hn, hcap, hfds, hcount, hseq, harm, -, -, hcq⟩ := h
    change r = _ at hq
    rw [hq] at hout ⊢
    exact ⟨hn, hcap, hfds, hcount, hseq, ⟨rfl, harm⟩, hout, hcq⟩

/-- The poller that a successful create stores, when the ring has a power of two of entries. -/
theorem start_of_create (ha : a.Lawful) (hpow : ∃ k, a.params.sqEntries.toNat = 2 ^ k)
    (h : mjsIouringCreate a out = ⟨none, some (some u), log⟩) : Start u.ring := by
  unfold mjsIouringCreate at h
  simp only at h
  split at h
  · cases h
  split at h
  · cases h
  split at h
  · cases h
  split at h
  · cases h
  split at h
  · cases h
  rename_i v maps hmap
  obtain ⟨-, -, -, -, hring⟩ := iouringMapRings_mapped ha hmap
  unfold Handle.allocTables at h
  simp only at h
  split at h
  · cases h
  unfold Handle.openWake at h
  simp only at h
  split at h
  · cases h
  refine Blank.submitWake ?_ h
  simp only [Handle.emptyTables, Handle.mallocTables, hring]
  exact ⟨hpow, rfl, fun _ => rfl, rfl, rfl, rfl, rfl, rfl, rfl⟩

end Start

/-- The answers of a kernel on which every call of a create succeeds. -/
def answers : Answers where
  flag := true
  probe := 3
  setup := 3
  params := ⟨128, 256, 192, 128⟩
  page := 4096
  calloc := 0x1000
  mmap area len :=
    (if len = 0 then MAP_FAILED
      else match area with
        | .sqRing => 0x10000
        | .cqRing => 0x20000
        | .sqes => 0x30000, .EINVAL)
  malloc
    | .fds, _ => 0x2000
    | .seqs, _ => 0x3000
    | .tok, _ => 0x4000
    | .int, _ => 0x5000
  eventfd := (4, .EINVAL)
  flush := ⟨0, none⟩
  enter := ⟨1, none⟩
  seqs _ := 0
  toks _ := 0
  ints _ := 0

theorem lawful_answers : answers.Lawful where
  ne_null area len := by
    by_cases h : len = 0
    · simp only [answers, h, ↓reduceIte]
      decide
    · simp only [answers, h, ↓reduceIte]
      cases area <;> decide
  empty _ := rfl

/-- The create succeeds on these answers, and fails when the eventfd does. -/
theorem create_close_ledger_answers :
    (mjsIouringCreate { answers with eventfd := (-1, .other 24) } (some none)).status ≠ none ∧
    Balanced (mjsIouringCreate { answers with eventfd := (-1, .other 24) } (some none)).log ∧
    ∃ u, (mjsIouringCreate answers (some none)).out = some (some u) ∧
      ∃ l : List Resource, l.Perm u.resources ∧
        mjsIouringClose (some (some u)) = ⟨none, some none, l.map .release⟩ := by
  have hlawful : Answers.Lawful { answers with eventfd := (-1, .other 24) } :=
    ⟨lawful_answers.ne_null, lawful_answers.empty⟩
  have hfail : (mjsIouringCreate { answers with eventfd := (-1, .other 24) } (some none)).status ≠
      none := by decide +kernel
  obtain ⟨u, hu, -, hclose⟩ := (create_close_ledger answers lawful_answers (some none)).2
    (by decide +kernel)
  exact ⟨hfail, ((create_close_ledger _ hlawful (some none)).1 hfail).1, u, hu, hclose _ .refl⟩

end MojitoSys.Io.IoUring
