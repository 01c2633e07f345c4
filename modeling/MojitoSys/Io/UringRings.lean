import MojitoSys.Util.CounterRing
import MojitoSys.Io.IoUring

/-!
# The rings of io_uring

The submission and the completion ring as they are in memory: free-running 32-bit counters, the
index array and the entries. The poller has a private tail of the submission ring, which it
publishes at a submit, and a private head of the completion ring, which it publishes at the end of
a drain. The kernel takes published submission entries and posts completions at any time, in
particular between two steps of a drain; it never posts to a full completion ring.

The entries are values of any types; a zeroed submission entry is `0`.

## Main definitions

* `Rings`, `Rings.uringGetSqe`, `Rings.uringSubmit`.
* `RingPc`, `RingEvent`, `RingStep`, `RingRun`: the poller and the kernel.
* `RingEvents.staged`, `RingEvents.consumed`, `RingEvents.posted`, `RingEvents.processed`: what
  happened in a run.
* `SqInv`, `CqInv`: the invariants of the two rings.

## Main results

* `RingRun.sqInv`, `RingRun.cqInv`: the invariants hold along every run.
* `rings_exact`: no entry of a ring is lost, repeated, overwritten or reordered.
* `Rings.Holds.stage`, `Rings.Holds.submit`, `Rings.Holds.consume`, `Rings.Holds.post`: the rings
  refine the lists of `Uring`.
-/

namespace MojitoSys.Io.IoUring

open Util

/-! ### The code -/

/-- The rings in memory, and the private counters of `mjs_uring`. -/
structure Rings (S C : Type*) where
  /-- `sq_entries` and `sq_mask`. -/
  sq : RingSize 32
  sqHead : BitVec 32
  sqTail : BitVec 32
  sqArray : BitVec 32 → BitVec 32
  sqes : BitVec 32 → S
  /-- `cq_entries` and `cq_mask`. -/
  cq : RingSize 32
  cqHead : BitVec 32
  cqTail : BitVec 32
  cqes : BitVec 32 → C
  sqeTail : BitVec 32
  cqeHead : BitVec 32

namespace Rings

variable {S C : Type*} [Zero S]

/-- `uring_get_sqe`: the index of a zeroed entry, or `NULL` on a full ring. -/
def uringGetSqe (r : Rings S C) : Option (BitVec 32) × Rings S C :=
  let tail := r.sqeTail
  let idx := r.sq.slot tail
  if tail - r.sqHead < r.sq.entries then
    (some idx, { r with
      sqes := Function.update r.sqes idx 0
      sqArray := Function.update r.sqArray idx idx
      sqeTail := tail + 1 })
  else (none, r)

omit [Zero S] in
/-- `uring_submit` up to `ioring_enter`: the number of entries to submit, or no call. -/
def uringSubmit (r : Rings S C) (minComplete : BitVec 32) : Option (BitVec 32) × Rings S C :=
  let pending := r.sqeTail - r.sqHead
  if pending = 0 ∧ minComplete = 0 then (none, r)
  else (some pending, { r with sqTail := r.sqeTail })

variable {r r' : Rings S C}

/-- An entry is handed out if there is room. -/
theorem uringGetSqe_eq_some {idx : BitVec 32} : r.uringGetSqe = (some idx, r') ↔
    r.sqeTail - r.sqHead < r.sq.entries ∧ idx = r.sq.slot r.sqeTail ∧
      r' = { r with
        sqes := Function.update r.sqes (r.sq.slot r.sqeTail) 0
        sqArray := Function.update r.sqArray (r.sq.slot r.sqeTail) (r.sq.slot r.sqeTail)
        sqeTail := r.sqeTail + 1 } := by
  unfold uringGetSqe
  by_cases hroom : r.sqeTail - r.sqHead < r.sq.entries
  · simp [hroom, eq_comm]
  · simp [hroom]

theorem uringGetSqe_eq_none : r.uringGetSqe = (none, r') ↔
    ¬ r.sqeTail - r.sqHead < r.sq.entries ∧ r' = r := by
  unfold uringGetSqe
  by_cases hroom : r.sqeTail - r.sqHead < r.sq.entries
  · simp [hroom]
  · simp [hroom, eq_comm]

omit [Zero S] in
/-- A submit enters the kernel if entries are outstanding or a completion is awaited. -/
theorem uringSubmit_eq_some {minComplete n : BitVec 32} :
    r.uringSubmit minComplete = (some n, r') ↔
      ¬ (r.sqeTail - r.sqHead = 0 ∧ minComplete = 0) ∧ n = r.sqeTail - r.sqHead ∧
        r' = { r with sqTail := r.sqeTail } := by
  unfold uringSubmit
  simp only
  split_ifs with h
  · exact ⟨fun hr => by simp at hr, fun hr => absurd h hr.1⟩
  · rw [Prod.mk.injEq, Option.some.injEq]
    exact ⟨fun hr => ⟨h, hr.1.symm, hr.2.symm⟩, fun hr => ⟨hr.2.1.symm, hr.2.2.symm⟩⟩

omit [Zero S] in
theorem uringSubmit_eq_none {minComplete : BitVec 32} :
    r.uringSubmit minComplete = (none, r') ↔
      (r.sqeTail - r.sqHead = 0 ∧ minComplete = 0) ∧ r' = r := by
  unfold uringSubmit
  simp only
  split_ifs with h
  · exact ⟨fun hr => ⟨h, (Prod.mk.inj hr).2.symm⟩, fun hr => by rw [hr.2]⟩
  · exact ⟨fun hr => by simp at hr, fun hr => absurd hr.1 h⟩

end Rings

/-- Where the poller is. -/
inductive RingPc
  | idle
  /-- `uring_get_sqe` returned the entry at an index, which is not filled yet. -/
  | filling (idx : BitVec 32)
  /-- In the loop of `uring_drain_cq`, with its local `cq_head` and `tail`. -/
  | draining (cqHead tail : BitVec 32)

/-- The rings and the poller. -/
structure RingSys (S C : Type*) where
  rings : Rings S C
  pc : RingPc

/-- What happens to the entries. -/
inductive RingEvent (S C : Type*)
  | stage (e : S)
  /-- `ioring_enter`. -/
  | enter (toSubmit : BitVec 32)
  | consume (e : S)
  | post (c : C)
  /-- A drain begins. -/
  | drain
  | process (c : C)
  /-- A drain ends. -/
  | drained

section Steps

variable {S C : Type*} [Zero S]

/-- A step of the poller or of the kernel. -/
inductive RingStep (s : RingSys S C) : List (RingEvent S C) → RingSys S C → Prop
  | getSqe {idx : BitVec 32} {r : Rings S C} (hpc : s.pc = .idle)
      (hr : s.rings.uringGetSqe = (some idx, r)) : RingStep s [] ⟨r, .filling idx⟩
  | full {r : Rings S C} (hpc : s.pc = .idle) (hr : s.rings.uringGetSqe = (none, r)) :
      RingStep s [] ⟨r, .idle⟩
  | fill {idx : BitVec 32} (e : S) (hpc : s.pc = .filling idx) :
      RingStep s [.stage e]
        ⟨{ s.rings with sqes := Function.update s.rings.sqes idx e }, .idle⟩
  | submit (minComplete : BitVec 32) {n : BitVec 32} {r : Rings S C} (hpc : s.pc = .idle)
      (hr : s.rings.uringSubmit minComplete = (some n, r)) : RingStep s [.enter n] ⟨r, .idle⟩
  | skip (minComplete : BitVec 32) {r : Rings S C} (hpc : s.pc = .idle)
      (hr : s.rings.uringSubmit minComplete = (none, r)) : RingStep s [] ⟨r, .idle⟩
  /-- The kernel takes the oldest published entry, through the index array. -/
  | consume (hne : s.rings.sqHead ≠ s.rings.sqTail) :
      RingStep s [.consume (s.rings.sqes (s.rings.sqArray (s.rings.sq.slot s.rings.sqHead)))]
        { s with rings := { s.rings with sqHead := s.rings.sqHead + 1 } }
  | drain (hpc : s.pc = .idle) :
      RingStep s [.drain] { s with pc := .draining s.rings.cqeHead s.rings.cqTail }
  | process {cqHead tail : BitVec 32} (hpc : s.pc = .draining cqHead tail) (hne : cqHead ≠ tail) :
      RingStep s [.process (s.rings.cqes (s.rings.cq.slot cqHead))]
        { s with pc := .draining (cqHead + 1) tail }
  | drained {cqHead : BitVec 32} (hpc : s.pc = .draining cqHead cqHead) :
      RingStep s [.drained] ⟨{ s.rings with cqeHead := cqHead, cqHead := cqHead }, .idle⟩
  /-- The kernel posts a completion, unless the ring is full. -/
  | post (c : C) (hroom : s.rings.cqTail - s.rings.cqHead < s.rings.cq.entries) :
      RingStep s [.post c]
        { s with rings := { s.rings with
          cqes := Function.update s.rings.cqes (s.rings.cq.slot s.rings.cqTail) c
          cqTail := s.rings.cqTail + 1 } }

/-- Fresh rings are empty; their counters may start anywhere. -/
structure RingStart (s : RingSys S C) : Prop where
  sqTail : s.rings.sqTail = s.rings.sqHead
  sqeTail : s.rings.sqeTail = s.rings.sqHead
  cqTail : s.rings.cqTail = s.rings.cqHead
  cqeHead : s.rings.cqeHead = s.rings.cqHead
  pc : s.pc = .idle

/-- The runs of the poller and the kernel, with their events, the newest first. -/
inductive RingRun : List (RingEvent S C) → RingSys S C → Prop
  | start {s : RingSys S C} (h : RingStart s) : RingRun [] s
  | step {tr es : List (RingEvent S C)} {s s' : RingSys S C} (hr : RingRun tr s)
      (hs : RingStep s es s') : RingRun (es ++ tr) s'

end Steps

/-! ### What happened -/

namespace RingEvents

variable {S C : Type*}

/-- The entries that were staged, the oldest first. -/
def staged : List (RingEvent S C) → List S
  | [] => []
  | .stage e :: tr => staged tr ++ [e]
  | _ :: tr => staged tr

/-- The entries that the kernel consumed. -/
def consumed : List (RingEvent S C) → List S
  | [] => []
  | .consume e :: tr => consumed tr ++ [e]
  | _ :: tr => consumed tr

/-- The completions that the kernel posted. -/
def posted : List (RingEvent S C) → List C
  | [] => []
  | .post c :: tr => posted tr ++ [c]
  | _ :: tr => posted tr

/-- The completions that the drains processed. -/
def processed : List (RingEvent S C) → List C
  | [] => []
  | .process c :: tr => processed tr ++ [c]
  | _ :: tr => processed tr

/-- The events before the last drain began. -/
def beforeDrain : List (RingEvent S C) → List (RingEvent S C)
  | [] => []
  | .drain :: tr => tr
  | _ :: tr => beforeDrain tr

end RingEvents

open RingEvents

/-! ### The submission ring -/

section Sq

variable {S C : Type*} [Zero S] {tr es : List (RingEvent S C)} {s s' : RingSys S C}

/-- The index of the entry that is handed out and not filled. -/
def RingPc.index : RingPc → Option (BitVec 32)
  | .filling idx => some idx
  | _ => none

/-- The entry that is handed out and not filled. -/
def RingPc.reserved (pc : RingPc) : List S := pc.index.toList.map fun _ => 0

@[simp]
theorem RingPc.index_idle : RingPc.idle.index = none := rfl

@[simp]
theorem RingPc.index_filling (idx : BitVec 32) : (RingPc.filling idx).index = some idx := rfl

@[simp]
theorem RingPc.reserved_idle : (RingPc.idle.reserved : List S) = [] := rfl

@[simp]
theorem RingPc.reserved_filling (idx : BitVec 32) :
    ((RingPc.filling idx).reserved : List S) = [0] := rfl

/-- The entries `pub ++ priv` are outstanding, and `pub` are published. -/
structure SqInv (tr : List (RingEvent S C)) (s : RingSys S C) (pub priv : List S) : Prop where
  sqes : Window s.rings.sq s.rings.sqes s.rings.sqHead s.rings.sqeTail
    (pub ++ priv ++ s.pc.reserved)
  array : Window s.rings.sq s.rings.sqArray s.rings.sqHead s.rings.sqeTail
    (s.rings.sq.slots s.rings.sqHead (pub ++ priv ++ (s.pc.reserved : List S)).length)
  sqTail : s.rings.sqTail = s.rings.sqHead + BitVec.ofNat 32 pub.length
  filling : ∀ idx, s.pc.index = some idx →
    idx = s.rings.sq.slot (s.rings.sqHead + BitVec.ofNat 32 (pub ++ priv).length)
  order : staged tr = consumed tr ++ (pub ++ priv)

/-- A step that leaves the submission ring alone. -/
theorem SqInv.keep {pub priv : List S} (h : SqInv tr s pub priv) {rings : Rings S C} {pc : RingPc}
    (hrings : rings.sq = s.rings.sq ∧ rings.sqHead = s.rings.sqHead ∧
      rings.sqTail = s.rings.sqTail ∧ rings.sqArray = s.rings.sqArray ∧
      rings.sqes = s.rings.sqes ∧ rings.sqeTail = s.rings.sqeTail)
    (hpc : pc.index = s.pc.index) (hes : staged (es ++ tr) = staged tr)
    (hes' : consumed (es ++ tr) = consumed tr) : SqInv (es ++ tr) ⟨rings, pc⟩ pub priv := by
  obtain ⟨hsq, hhead, htail, harray, hsqes, hsqe⟩ := hrings
  have hres : (pc.reserved : List S) = s.pc.reserved := by rw [RingPc.reserved, hpc]; rfl
  refine ⟨?_, ?_, ?_, ?_, ?_⟩
  · simpa [hsq, hhead, hsqes, hsqe, hres] using h.sqes
  · simpa [hsq, hhead, harray, hsqe, hres] using h.array
  · simpa [hhead, htail] using h.sqTail
  · simpa [hsq, hhead, hpc] using h.filling
  · rw [hes, hes', h.order]

/-- An entry is handed out. -/
theorem SqInv.getSqe {pub priv : List S} (h : SqInv tr s pub priv) {idx : BitVec 32}
    {r : Rings S C} (hpc : s.pc = .idle) (hr : s.rings.uringGetSqe = (some idx, r)) :
    SqInv tr ⟨r, .filling idx⟩ pub priv := by
  obtain ⟨hroom, rfl, rfl⟩ := Rings.uringGetSqe_eq_some.mp hr
  have hsqes := h.sqes
  have harray := h.array
  rw [hpc, RingPc.reserved_idle, List.append_nil] at hsqes harray
  have hlen := hsqes.lt_entries_iff.mp hroom
  refine ⟨hsqes.push hlen 0, ?_, h.sqTail, ?_, h.order⟩
  · have hpush := harray.push (by rwa [RingSize.length_slots]) (s.rings.sq.slot s.rings.sqeTail)
    rw [hsqes.tail_eq, ← RingSize.slots_succ, ← hsqes.tail_eq] at hpush
    simpa [Nat.add_assoc] using hpush
  · rintro idx ⟨⟩
    rw [hsqes.tail_eq]

/-- The entry is filled. -/
theorem SqInv.fill {pub priv : List S} (h : SqInv tr s pub priv) {idx : BitVec 32} (e : S)
    (hpc : s.pc = .filling idx) :
    SqInv (.stage e :: tr) ⟨{ s.rings with sqes := Function.update s.rings.sqes idx e }, .idle⟩
      pub (priv ++ [e]) := by
  have hidx := h.filling idx (by rw [hpc]; rfl)
  have hsqes := h.sqes
  have harray := h.array
  rw [hpc, RingPc.reserved_filling] at hsqes harray
  have hwrite := hsqes.write_last e
  rw [← hidx] at hwrite
  refine ⟨?_, ?_, h.sqTail, by simp, ?_⟩
  · simpa using hwrite
  · simpa using harray
  · simp [staged, consumed, h.order]

/-- The private tail is published. -/
theorem SqInv.submit {pub priv : List S} (h : SqInv tr s pub priv) {minComplete n : BitVec 32}
    {r : Rings S C} (hpc : s.pc = .idle)
    (hr : s.rings.uringSubmit minComplete = (some n, r)) :
    SqInv (.enter n :: tr) ⟨r, .idle⟩ (pub ++ priv) [] := by
  obtain ⟨-, -, rfl⟩ := Rings.uringSubmit_eq_some.mp hr
  have hsqes := h.sqes
  have harray := h.array
  rw [hpc, RingPc.reserved_idle, List.append_nil] at hsqes harray
  refine ⟨?_, ?_, hsqes.tail_eq, by simp, ?_⟩
  · simpa using hsqes
  · simpa using harray
  · simp [staged, consumed, h.order]

/-- The kernel reads the oldest outstanding entry. -/
theorem SqInv.consume {pub priv : List S} (h : SqInv tr s pub priv)
    (hne : s.rings.sqHead ≠ s.rings.sqTail) :
    ∃ x pub', pub = x :: pub' ∧
      s.rings.sqes (s.rings.sqArray (s.rings.sq.slot s.rings.sqHead)) = x ∧
      SqInv (.consume x :: tr) { s with rings := { s.rings with sqHead := s.rings.sqHead + 1 } }
        pub' priv := by
  cases pub with
  | nil => exact absurd (by simpa using h.sqTail.symm) hne
  | cons x pub =>
    obtain ⟨hx, hsqes⟩ := h.sqes.pop
    have harray := h.array
    have hcons : s.rings.sq.slots s.rings.sqHead
        (x :: pub ++ priv ++ (s.pc.reserved : List S)).length =
        s.rings.sq.slot s.rings.sqHead :: s.rings.sq.slots (s.rings.sqHead + 1)
          (pub ++ priv ++ (s.pc.reserved : List S)).length := RingSize.slots_succ_eq_cons _
    rw [hcons] at harray
    obtain ⟨hslot, harray⟩ := harray.pop
    refine ⟨x, pub, rfl, by rw [hslot, hx], hsqes, harray, ?_, fun idx hidx => ?_, ?_⟩
    · rw [h.sqTail]
      exact RingSize.add_ofNat_succ _ _
    · rw [h.filling idx hidx]
      exact congrArg _ (RingSize.add_ofNat_succ _ _)
    · simp [staged, consumed, h.order]

theorem SqInv.step {pub priv : List S} (h : SqInv tr s pub priv) (hs : RingStep s es s') :
    ∃ pub' priv', SqInv (es ++ tr) s' pub' priv' := by
  cases hs with
  | getSqe hpc hr => exact ⟨pub, priv, h.getSqe hpc hr⟩
  | full hpc hr =>
    obtain ⟨-, rfl⟩ := Rings.uringGetSqe_eq_none.mp hr
    exact ⟨pub, priv, h.keep ⟨rfl, rfl, rfl, rfl, rfl, rfl⟩ (by rw [hpc]) rfl rfl⟩
  | fill e hpc => exact ⟨pub, priv ++ [e], h.fill e hpc⟩
  | submit _ hpc hr => exact ⟨pub ++ priv, [], h.submit hpc hr⟩
  | skip _ hpc hr =>
    obtain ⟨-, rfl⟩ := Rings.uringSubmit_eq_none.mp hr
    exact ⟨pub, priv, h.keep ⟨rfl, rfl, rfl, rfl, rfl, rfl⟩ (by rw [hpc]) rfl rfl⟩
  | consume hne =>
    obtain ⟨x, pub', -, hx, h'⟩ := h.consume hne
    exact ⟨pub', priv, hx ▸ h'⟩
  | drain hpc => exact ⟨pub, priv, h.keep ⟨rfl, rfl, rfl, rfl, rfl, rfl⟩ (by rw [hpc]; rfl) rfl rfl⟩
  | process hpc hne =>
    exact ⟨pub, priv, h.keep ⟨rfl, rfl, rfl, rfl, rfl, rfl⟩ (by rw [hpc]; rfl) rfl rfl⟩
  | drained hpc =>
    exact ⟨pub, priv, h.keep ⟨rfl, rfl, rfl, rfl, rfl, rfl⟩ (by rw [hpc]; rfl) rfl rfl⟩
  | post c hroom => exact ⟨pub, priv, h.keep ⟨rfl, rfl, rfl, rfl, rfl, rfl⟩ rfl rfl rfl⟩

/-- The submission ring along every run. -/
theorem RingRun.sqInv (hr : RingRun tr s) : ∃ pub priv, SqInv tr s pub priv := by
  induction hr with
  | @start s h =>
    refine ⟨[], [], ?_, ?_, by simp [h.sqTail], by simp [h.pc], rfl⟩
    · rw [h.sqeTail]
      simpa [h.pc] using Window.empty s.rings.sqes s.rings.sqHead
    · rw [h.sqeTail]
      simpa [h.pc, RingSize.slots] using Window.empty s.rings.sqArray s.rings.sqHead
  | step _ hs ih =>
    obtain ⟨pub, priv, h⟩ := ih
    exact h.step hs

end Sq

/-! ### The completion ring -/

section Cq

variable {S C : Type*} [Zero S] {tr es : List (RingEvent S C)} {s s' : RingSys S C}

/-- The local `cq_head` and `tail` of a drain. -/
def RingPc.cursor : RingPc → Option (BitVec 32 × BitVec 32)
  | .draining cqHead tail => some (cqHead, tail)
  | _ => none

/-- The head of the poller: the local one in a drain. -/
def RingSys.cqCursor (s : RingSys S C) : BitVec 32 :=
  (s.pc.cursor.map Prod.fst).getD s.rings.cqeHead

/-- The entries `done ++ (left ++ late)` are in the ring: the drain has processed `done`, goes on
with `left`, and does not see `late`. -/
structure CqInv (tr : List (RingEvent S C)) (s : RingSys S C) (done left late : List C) :
    Prop where
  cqes : Window s.rings.cq s.rings.cqes s.rings.cqHead s.rings.cqTail (done ++ (left ++ late))
  cqeHead : s.rings.cqeHead = s.rings.cqHead
  order : posted tr = processed tr ++ (left ++ late)
  idle : s.pc.cursor = none → done = [] ∧ left = []
  drain : ∀ cqHead tail, s.pc.cursor = some (cqHead, tail) →
    cqHead = s.rings.cqHead + BitVec.ofNat 32 done.length ∧
      tail = cqHead + BitVec.ofNat 32 left.length ∧
      posted (beforeDrain tr) = processed tr ++ left

variable {done left late : List C}

omit [Zero S] in
/-- A step that leaves the completion ring alone. -/
theorem CqInv.keep (h : CqInv tr s done left late) {rings : Rings S C} {pc : RingPc}
    (hrings : rings.cq = s.rings.cq ∧ rings.cqHead = s.rings.cqHead ∧
      rings.cqTail = s.rings.cqTail ∧ rings.cqes = s.rings.cqes ∧
      rings.cqeHead = s.rings.cqeHead)
    (hpc : pc.cursor = s.pc.cursor) (hposted : posted (es ++ tr) = posted tr)
    (hprocessed : processed (es ++ tr) = processed tr)
    (hbefore : posted (beforeDrain (es ++ tr)) = posted (beforeDrain tr)) :
    CqInv (es ++ tr) ⟨rings, pc⟩ done left late := by
  obtain ⟨hcq, hhead, htail, hcqes, hcqe⟩ := hrings
  refine ⟨?_, ?_, ?_, ?_, ?_⟩
  · simpa [hcq, hhead, htail, hcqes] using h.cqes
  · simpa [hhead, hcqe] using h.cqeHead
  · rw [hposted, hprocessed, h.order]
  · simpa [hpc] using h.idle
  · simpa [hpc, hhead, hbefore, hprocessed] using h.drain

omit [Zero S] in
/-- A drain begins. -/
theorem CqInv.begin (h : CqInv tr s done left late) (hpc : s.pc = .idle) :
    CqInv (.drain :: tr) { s with pc := .draining s.rings.cqeHead s.rings.cqTail } [] late [] := by
  obtain ⟨rfl, rfl⟩ := h.idle (by rw [hpc]; rfl)
  have hcqes := h.cqes
  have horder := h.order
  simp only [List.nil_append] at hcqes horder
  refine ⟨by simpa using hcqes, h.cqeHead, by simpa [posted, processed] using horder,
    by simp [RingPc.cursor], ?_⟩
  rintro cqHead tail ⟨⟩
  refine ⟨by simp [h.cqeHead], by rw [h.cqeHead, hcqes.tail_eq], ?_⟩
  simpa [beforeDrain, processed] using horder

omit [Zero S] in
/-- The part of the ring that the drain goes on with. -/
theorem CqInv.window (h : CqInv tr s done left late) {cqHead tail : BitVec 32}
    (hpc : s.pc = .draining cqHead tail) : Window s.rings.cq s.rings.cqes cqHead tail left := by
  obtain ⟨rfl, rfl, -⟩ := h.drain cqHead tail (by rw [hpc]; rfl)
  exact (Window.append_iff.mp (Window.append_iff.mp h.cqes).2.2).2.1

omit [Zero S] in
/-- The part of the ring that is not processed. -/
theorem CqInv.rest (h : CqInv tr s done left late) :
    Window s.rings.cq s.rings.cqes s.cqCursor s.rings.cqTail (left ++ late) := by
  have hrest := (Window.append_iff.mp h.cqes).2.2
  cases hpc : s.pc.cursor with
  | none =>
    obtain ⟨rfl, -⟩ := h.idle hpc
    simpa [RingSys.cqCursor, hpc, h.cqeHead] using hrest
  | some p =>
    obtain ⟨hhead, -, -⟩ := h.drain p.1 p.2 hpc
    simpa [RingSys.cqCursor, hpc, hhead] using hrest

omit [Zero S] in
/-- The drain takes the next completion. -/
theorem CqInv.process (h : CqInv tr s done left late) {cqHead tail : BitVec 32}
    (hpc : s.pc = .draining cqHead tail) (hne : cqHead ≠ tail) :
    ∃ c left', left = c :: left' ∧ s.rings.cqes (s.rings.cq.slot cqHead) = c ∧
      CqInv (.process c :: tr) { s with pc := .draining (cqHead + 1) tail } (done ++ [c]) left'
        late := by
  have hwin := h.window hpc
  cases left with
  | nil => exact absurd (hwin.head_eq_tail_iff.mpr rfl) hne
  | cons c left =>
    obtain ⟨hhead, htail, hbefore⟩ := h.drain cqHead tail (by rw [hpc]; rfl)
    refine ⟨c, left, rfl, hwin.pop.1, by simpa using h.cqes, h.cqeHead, ?_, by simp [RingPc.cursor],
      ?_⟩
    · simp [posted, processed, h.order]
    · rintro _ _ ⟨⟩
      refine ⟨?_, hwin.pop.2.tail_eq, ?_⟩
      · rw [hhead, List.length_append, ← RingSize.add_ofNat_add]
        rfl
      · simp [beforeDrain, processed, hbefore]

omit [Zero S] in
/-- The drain publishes its head. -/
theorem CqInv.finish (h : CqInv tr s done left late) {cqHead : BitVec 32}
    (hpc : s.pc = .draining cqHead cqHead) :
    left = [] ∧ CqInv (.drained :: tr)
      ⟨{ s.rings with cqeHead := cqHead, cqHead := cqHead }, .idle⟩ [] [] late := by
  obtain rfl := (h.window hpc).head_eq_tail_iff.mp rfl
  obtain ⟨rfl, -, -⟩ := h.drain cqHead cqHead (by rw [hpc]; rfl)
  refine ⟨rfl, ?_, rfl, ?_, fun _ => ⟨rfl, rfl⟩, by simp [RingPc.cursor]⟩
  · simpa using (Window.append_iff.mp h.cqes).2.2
  · simpa [posted, processed] using h.order

omit [Zero S] in
/-- The kernel posts a completion. -/
theorem CqInv.post (h : CqInv tr s done left late) (c : C)
    (hroom : s.rings.cqTail - s.rings.cqHead < s.rings.cq.entries) :
    CqInv (.post c :: tr) { s with rings := { s.rings with
      cqes := Function.update s.rings.cqes (s.rings.cq.slot s.rings.cqTail) c
      cqTail := s.rings.cqTail + 1 } } done left (late ++ [c]) := by
  have hpush := h.cqes.push (h.cqes.lt_entries_iff.mp hroom) c
  refine ⟨by simpa using hpush, h.cqeHead, ?_, h.idle, h.drain⟩
  simp [posted, processed, h.order]

theorem CqInv.step (h : CqInv tr s done left late) (hs : RingStep s es s') :
    ∃ done' left' late', CqInv (es ++ tr) s' done' left' late' := by
  cases hs with
  | getSqe hpc hr =>
    obtain ⟨-, -, rfl⟩ := Rings.uringGetSqe_eq_some.mp hr
    exact ⟨done, left, late, h.keep ⟨rfl, rfl, rfl, rfl, rfl⟩ (by rw [hpc]; rfl) rfl rfl rfl⟩
  | full hpc hr =>
    obtain ⟨-, rfl⟩ := Rings.uringGetSqe_eq_none.mp hr
    exact ⟨done, left, late, h.keep ⟨rfl, rfl, rfl, rfl, rfl⟩ (by rw [hpc]) rfl rfl rfl⟩
  | fill e hpc =>
    exact ⟨done, left, late, h.keep ⟨rfl, rfl, rfl, rfl, rfl⟩ (by rw [hpc]; rfl) rfl rfl rfl⟩
  | submit _ hpc hr =>
    obtain ⟨-, -, rfl⟩ := Rings.uringSubmit_eq_some.mp hr
    exact ⟨done, left, late, h.keep ⟨rfl, rfl, rfl, rfl, rfl⟩ (by rw [hpc]) rfl rfl rfl⟩
  | skip _ hpc hr =>
    obtain ⟨-, rfl⟩ := Rings.uringSubmit_eq_none.mp hr
    exact ⟨done, left, late, h.keep ⟨rfl, rfl, rfl, rfl, rfl⟩ (by rw [hpc]) rfl rfl rfl⟩
  | consume hne =>
    exact ⟨done, left, late, h.keep ⟨rfl, rfl, rfl, rfl, rfl⟩ rfl rfl rfl rfl⟩
  | drain hpc => exact ⟨[], late, [], h.begin hpc⟩
  | process hpc hne =>
    obtain ⟨c, left', -, hc, h'⟩ := h.process hpc hne
    exact ⟨done ++ [c], left', late, hc ▸ h'⟩
  | drained hpc => exact ⟨[], [], late, (h.finish hpc).2⟩
  | post c hroom => exact ⟨done, left, late ++ [c], h.post c hroom⟩

/-- The completion ring along every run. -/
theorem RingRun.cqInv (hr : RingRun tr s) : ∃ done left late, CqInv tr s done left late := by
  induction hr with
  | @start s h =>
    refine ⟨[], [], [], ?_, h.cqeHead, rfl, fun _ => ⟨rfl, rfl⟩, by simp [h.pc, RingPc.cursor]⟩
    rw [h.cqTail]
    exact Window.empty s.rings.cqes s.rings.cqHead
  | step _ hs ih =>
    obtain ⟨done, left, late, h⟩ := ih
    exact h.step hs

/-- A step has at most one event, and a drain ends at its tail. -/
theorem RingStep.event_cases (hs : RingStep s es s') :
    es = [] ∨ ∃ e, es = [e] ∧ (e = .drained → ∃ cqHead, s.pc = .draining cqHead cqHead) := by
  cases hs with
  | getSqe => exact Or.inl rfl
  | full => exact Or.inl rfl
  | skip => exact Or.inl rfl
  | drained hpc => exact Or.inr ⟨_, rfl, fun _ => ⟨_, hpc⟩⟩
  | _ => exact Or.inr ⟨_, rfl, by simp⟩

/-- A drain that ended processed all completions that were posted when it began. -/
theorem RingRun.drained (hr : RingRun tr s) {new old : List (RingEvent S C)}
    (htr : tr = new ++ .drained :: old) : processed old = posted (beforeDrain old) := by
  induction hr generalizing new with
  | start => simp at htr
  | @step tr es s s' hr hs ih =>
    rcases hs.event_cases with rfl | ⟨e, rfl, he⟩
    · exact ih htr
    · rcases List.cons_eq_append_iff.mp htr with ⟨rfl, hold⟩ | ⟨new, rfl, hold⟩
      · obtain ⟨rfl, rfl⟩ := List.cons.inj hold
        obtain ⟨cqHead, hpc⟩ := he rfl
        obtain ⟨done, left, late, h⟩ := hr.cqInv
        obtain ⟨-, -, hbefore⟩ := h.drain cqHead cqHead (by rw [hpc]; rfl)
        rw [hbefore, (h.finish hpc).1, List.append_nil]
      · exact ih hold

end Cq

/-! ### Both rings -/

section Rings

variable {S C : Type*} [Zero S] {tr : List (RingEvent S C)} {s : RingSys S C}

/-- The rings in every run of the poller and the kernel. At most `sq_entries` entries are
outstanding, in different slots, and at most the filled ones are published; a filled entry is in
memory as it was staged until the kernel consumes it, and the kernel consumes the staged entries in
the order of the staging. The completions are processed in the order of the posting, each one once:
those that are not processed yet are in memory, a drain goes on for as many rounds as it has left of
those that were posted when it began, and when it ends it has processed all of them. -/
theorem rings_exact (h : RingRun tr s) :
    ((s.rings.sqeTail - s.rings.sqHead).toNat ≤ s.rings.sq.entries.toNat ∧
      (s.rings.sq.slots s.rings.sqHead (s.rings.sqeTail - s.rings.sqHead).toNat).Nodup) ∧
      (∃ out, staged tr = consumed tr ++ out ∧
        (s.rings.sqeTail - s.rings.sqHead).toNat = out.length + s.pc.index.toList.length ∧
        (s.rings.sqTail - s.rings.sqHead).toNat ≤ out.length ∧
        ∀ i x, out[i]? = some x →
          s.rings.sqArray (s.rings.sq.slot (s.rings.sqHead + BitVec.ofNat 32 i)) =
              s.rings.sq.slot (s.rings.sqHead + BitVec.ofNat 32 i) ∧
            s.rings.sqes (s.rings.sq.slot (s.rings.sqHead + BitVec.ofNat 32 i)) = x) ∧
      (∃ rest, posted tr = processed tr ++ rest ∧
        (s.rings.cqTail - s.cqCursor).toNat = rest.length ∧
        ∀ i c, rest[i]? = some c →
          s.rings.cqes (s.rings.cq.slot (s.cqCursor + BitVec.ofNat 32 i)) = c) ∧
      (∀ cqHead tail, s.pc = .draining cqHead tail → ∃ left,
        posted (beforeDrain tr) = processed tr ++ left ∧
          (tail - cqHead).toNat = left.length) ∧
      ∀ new old, tr = new ++ .drained :: old → processed old = posted (beforeDrain old) := by
  obtain ⟨pub, priv, hsq⟩ := h.sqInv
  obtain ⟨done, left, late, hcq⟩ := h.cqInv
  have hpub : Window s.rings.sq s.rings.sqes s.rings.sqHead s.rings.sqTail pub := by
    have hfilled := (Window.append_iff.mp hsq.sqes).2.1
    rw [hsq.sqTail]
    exact (Window.append_iff.mp hfilled).2.1
  have hrest := hcq.rest
  refine ⟨⟨?_, ?_⟩, ⟨pub ++ priv, hsq.order, ?_, ?_, fun i x hx => ?_⟩,
    ⟨left ++ late, hcq.order, hrest.length_eq, fun i c => hrest.mem_slot⟩,
    fun cqHead tail hpc => ⟨left, ?_, (hcq.window hpc).length_eq⟩, fun new old => h.drained⟩
  · rw [hsq.sqes.length_eq]
    exact hsq.sqes.length_le
  · rw [hsq.sqes.length_eq]
    exact RingSize.nodup_slots hsq.sqes.length_le
  · rw [hsq.sqes.length_eq]
    simp [RingPc.reserved, Nat.add_assoc]
  · rw [hpub.length_eq, List.length_append]
    exact Nat.le_add_right _ _
  · obtain ⟨hi, -⟩ := List.getElem?_eq_some_iff.mp hx
    refine ⟨hsq.array.mem_slot ?_, hsq.sqes.mem_slot ?_⟩
    · exact RingSize.getElem?_slots (by rw [List.length_append]; omega)
    · rw [List.getElem?_append_left hi, hx]
  · exact (hcq.drain cqHead tail (by rw [hpc]; rfl)).2.2

/-- Empty rings with two entries; the counters are about to wrap. -/
def wrappingRings : RingSys ℕ ℕ where
  rings :=
    { sq := ⟨2, 1, ⟨1, rfl⟩, rfl⟩
      sqHead := 0xFFFFFFFF
      sqTail := 0xFFFFFFFF
      sqArray := fun _ => 0
      sqes := fun _ => 0
      cq := ⟨2, 1, ⟨1, rfl⟩, rfl⟩
      cqHead := 0xFFFFFFFF
      cqTail := 0xFFFFFFFF
      cqes := fun _ => 0
      sqeTail := 0xFFFFFFFF
      cqeHead := 0xFFFFFFFF }
  pc := .idle

/-- Two entries go through the rings, across the wrap of the counters. -/
theorem rings_exact_wrap : ∃ tr s, RingRun (S := ℕ) (C := ℕ) tr s ∧ s.rings.sqHead = 1 ∧
    consumed tr = [7, 8] ∧ processed tr = [70] ∧ ∃ out, staged tr = consumed tr ++ out := by
  have h : RingRun [] wrappingRings := .start ⟨rfl, rfl, rfl, rfl, rfl⟩
  have h := h.step (.getSqe rfl rfl)
  have h := h.step (.fill 7 rfl)
  have h := h.step (.getSqe rfl rfl)
  have h := h.step (.fill 8 rfl)
  have h := h.step (.submit 1 rfl rfl)
  have h := h.step (.consume (by decide))
  have h := h.step (.consume (by decide))
  have h := h.step (.post 70 (by decide))
  have h := h.step (.drain rfl)
  have h := h.step (.process rfl (by decide))
  have h := h.step (.drained rfl)
  obtain ⟨-, ⟨out, hout, -⟩, -⟩ := rings_exact h
  exact ⟨_, _, h, rfl, rfl, rfl, out, hout⟩

end Rings

/-! ### The lists of the poller -/

section Lists

variable {S C : Type*} {encS : Sqe → S} {encC : Cqe → C} {r : Rings S C} {u u' : Uring} {op : Sqe}

/-- The rings hold the lists of a poller between two calls; `encS` and `encC` write the entries. -/
structure Rings.Holds (encS : Sqe → S) (encC : Cqe → C) (r : Rings S C) (u : Uring) : Prop where
  entries : u.sqEntries = r.sq.entries.toNat
  sqes : Window r.sq r.sqes r.sqHead r.sqeTail (u.staged.map encS)
  array : Window r.sq r.sqArray r.sqHead r.sqeTail (r.sq.slots r.sqHead u.staged.length)
  cqes : Window r.cq r.cqes r.cqHead r.cqTail (u.cq.map encC)
  cqeHead : r.cqeHead = r.cqHead

namespace Rings.Holds

/-- The two tests for room agree. -/
theorem room_iff (h : r.Holds encS encC u) :
    r.sqeTail - r.sqHead < r.sq.entries ↔ u.staged.length < u.sqEntries := by
  rw [h.sqes.lt_entries_iff, List.length_map, h.entries]

/-- An entry is staged in the rings as in the list. -/
theorem stage [Zero S] (h : r.Holds encS encC u) (hu : u.stage op = some u') :
    ∃ idx r', r.uringGetSqe = (some idx, r') ∧
      Rings.Holds encS encC { r' with sqes := Function.update r'.sqes idx (encS op) } u' := by
  obtain ⟨hroom, rfl⟩ := Uring.stage_eq_some.mp hu
  have hlen : (u.staged.map encS).length < r.sq.entries.toNat := by
    rw [List.length_map, ← h.entries]
    exact hroom
  refine ⟨_, _, uringGetSqe_eq_some.mpr ⟨h.room_iff.mpr hroom, rfl, rfl⟩, h.entries, ?_, ?_,
    h.cqes, h.cqeHead⟩
  · simpa using h.sqes.push hlen (encS op)
  · have hpush := h.array.push (by simpa [RingSize.length_slots] using hlen) (r.sq.slot r.sqeTail)
    rw [h.sqes.tail_eq, List.length_map, ← RingSize.slots_succ, ← List.length_map (f := encS),
      ← h.sqes.tail_eq] at hpush
    simpa using hpush

/-- A full ring is a full list. -/
theorem full [Zero S] (h : r.Holds encS encC u) :
    u.stage op = none ↔ r.uringGetSqe = (none, r) := by
  rw [Uring.stage_eq_none, uringGetSqe_eq_none, h.room_iff]
  simp

/-- A submit enters the kernel from the rings if it does from the list. -/
theorem submit (h : r.Holds encS encC u) (minComplete : BitVec 32) :
    r.uringSubmit minComplete = (none, r) ↔ u.staged = [] ∧ minComplete = 0 := by
  rw [uringSubmit_eq_none, h.sqes.sub_eq_zero_iff, List.map_eq_nil_iff]
  simp

/-- The kernel consumes an entry. -/
theorem consume (h : r.Holds encS encC u) {ops : List Sqe} (hu : u.staged = op :: ops) :
    r.sqes (r.sqArray (r.sq.slot r.sqHead)) = encS op ∧
      Rings.Holds encS encC { r with sqHead := r.sqHead + 1 }
        (u.enter ⟨1, none⟩) := by
  have hsqes := h.sqes
  have harray := h.array
  rw [hu, List.map_cons] at hsqes
  rw [hu, List.length_cons, RingSize.slots_succ_eq_cons] at harray
  obtain ⟨hop, hsqes⟩ := hsqes.pop
  obtain ⟨hslot, harray⟩ := harray.pop
  refine ⟨by rw [hslot, hop], h.entries, ?_, ?_, h.cqes, h.cqeHead⟩
  · simpa [Uring.enter, hu] using hsqes
  · simpa [Uring.enter, hu] using harray

/-- The kernel posts a completion. -/
theorem post (h : r.Holds encS encC u) (c : Cqe) (hroom : r.cqTail - r.cqHead < r.cq.entries) :
    Rings.Holds encS encC { r with
      cqes := Function.update r.cqes (r.cq.slot r.cqTail) (encC c)
      cqTail := r.cqTail + 1 } { u with cq := u.cq ++ [c] } := by
  refine ⟨h.entries, h.sqes, h.array, ?_, h.cqeHead⟩
  simpa using h.cqes.push (h.cqes.lt_entries_iff.mp hroom) (encC c)

/-- A drain that is not interrupted reads the completions of the list, and leaves it empty. -/
theorem drain (h : r.Holds encS encC u) :
    ((r.cq.slots r.cqeHead (r.cqTail - r.cqeHead).toNat).map r.cqes = u.cq.map encC) ∧
      Rings.Holds encS encC { r with cqeHead := r.cqTail, cqHead := r.cqTail }
        { u with cq := [] } := by
  refine ⟨?_, h.entries, h.sqes, h.array, Window.empty r.cqes r.cqTail, rfl⟩
  rw [h.cqeHead, h.cqes.length_eq, h.cqes.read]

end Rings.Holds

end Lists

end MojitoSys.Io.IoUring
