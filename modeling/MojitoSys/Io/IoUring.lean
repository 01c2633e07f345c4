import MojitoSys.Io.Poll
import MojitoSys.Util.Probing
import Mathlib.Data.List.Basic
import Mathlib.Logic.Function.Basic

/-!
# The io_uring backend

The poller of `mjs_iouring.c`: the descriptor table with its linear probing, the staging of
submission entries, `ioring_enter`, the drain of the completion queue and the entry points over
them. The two rings are lists, the oldest entry first.

The kernel is nondeterministic. An `Enter` says how one `ioring_enter` call ends and how many
staged entries it consumed; at any time the kernel may complete an operation that it consumed,
once and with any result.

## Main definitions

* `Sqe`, `Cqe`, `Uring`, `Enter`.
* `Uring.uringSlot`, `Uring.stage`, `Uring.submit`, `Uring.submitPollAdd`.
* `Uring.register`, `Uring.modify`, `Uring.unregister`.
* `Uring.drainCqe`, `Uring.drainCq`.
* `Uring.rearm`, `Uring.waitSubmit`: `mjs_iouring_wait` up to its drain.
* `Closed`: the properties that the internal entries do not touch, with the rules for the calls.
* `Posted`, `Step`, `Run`.
-/

namespace MojitoSys.Io.IoUring

open Util

/-- `MJS_URING_WAKE`. -/
def WAKE : ℕ := 0xFFFFFFFFFFFFFFFE

/-- `MJS_URING_TIMEOUT`. -/
def TIMEOUT : ℕ := 0xFFFFFFFFFFFFFFFD

/-- `MJS_URING_FIRST_SEQ`. -/
def FIRST_SEQ : ℕ := 0x1000

/-- A submission entry. -/
inductive Sqe
  | pollAdd (fd : Fd) (mask : Mask) (userData : ℕ)
  /-- `IORING_OP_POLL_REMOVE` of the poll with the user data `target`. -/
  | pollRemove (target : ℕ)
  | timeout
  | timeoutRemove
  deriving DecidableEq, Repr

/-- The user data of an entry; the removals leave the zeroed field. -/
def Sqe.userData : Sqe → ℕ
  | .pollAdd _ _ ud => ud
  | .timeout => TIMEOUT
  | .pollRemove _ | .timeoutRemove => 0

/-- A completion: the operation and its result. -/
structure Cqe where
  op : Sqe
  res : ℤ
  deriving DecidableEq, Repr

/-- The user data of a completion. -/
def Cqe.userData (c : Cqe) : ℕ := c.op.userData

/-- How an `ioring_enter` call ends: an error, or the number of entries consumed. An error may
come after a part of the entries was consumed. -/
structure Enter where
  consumed : ℕ
  error : Option Errno
  deriving DecidableEq, Repr

/-- The poller, with the two rings. -/
structure Uring where
  /-- `sq_entries`. -/
  sqEntries : ℕ
  /-- `r_cap`. -/
  cap : ℕ
  /-- `r_fds`; `-1` is an empty slot. -/
  fds : ℕ → Fd
  /-- `r_seqs`: the user data of the live poll of a slot, `0` when it needs a re-arm. -/
  seqs : ℕ → ℕ
  /-- `r_tok`. -/
  toks : ℕ → Token
  /-- `r_int`. -/
  ints : ℕ → Mask
  /-- `r_count`. -/
  count : ℕ
  /-- `next_seq` before the wrap to 64 bits. -/
  nextSeq : ℕ
  wakeFd : Fd
  wakeArmed : Bool
  timeoutArmed : Bool
  /-- The entries handed out and not consumed by the kernel. -/
  staged : List Sqe
  /-- The operations in the kernel. -/
  inflight : List Sqe
  /-- The completions posted and not drained. -/
  cq : List Cqe

/-- `mjs_interests_to_poll`, with `POLLIN`, `POLLOUT`, `POLLERR` and `POLLHUP`. -/
def interestsToPoll (interests : Mask) : Mask :=
  0x18 ||| flagIf interests READABLE 0x1 ||| flagIf interests WRITABLE 0x4

/-- The event flags of a poll result. -/
def pollFlags (res : ℤ) : Mask :=
  let m : Mask := BitVec.ofInt 32 res
  flagIf m 0x1 READABLE ||| flagIf m 0x4 WRITABLE ||| flagIf m 0x10 EOF ||| flagIf m 0x8 ERROR

/-- The home slot of a descriptor. -/
def uringHash (cap : ℕ) (fd : Fd) : ℕ := fd.toNat * 2654435761 % 2 ^ 64 % 2 ^ 32 &&& (cap - 1)

namespace Uring

/-- `uring_slot`. -/
def uringSlot (r : Uring) (fd : Fd) : ℕ :=
  Probing.scan (fun i => r.fds i = -1 ∨ r.fds i = fd) (fun h => (h + 1) &&& (r.cap - 1)) r.cap
    (uringHash r.cap fd)

/-- The number that `uring_next_seq` returns. -/
def uringNextSeq (r : Uring) : ℕ := r.nextSeq % 2 ^ 64

/-- The state that `uring_next_seq` leaves. -/
def draw (r : Uring) : Uring := { r with nextSeq := r.nextSeq + 1 }

/-- `uring_get_sqe` and the fill of the entry; `none` is `-EAGAIN` on a full ring. -/
def stage (r : Uring) (op : Sqe) : Option Uring :=
  if r.staged.length < r.sqEntries then some { r with staged := r.staged ++ [op] } else none

/-- `ioring_enter`: the kernel consumes a prefix of the staged entries. -/
def enter (r : Uring) (e : Enter) : Uring :=
  { r with staged := r.staged.drop e.consumed, inflight := r.inflight ++ r.staged.take e.consumed }

/-- `uring_submit`. -/
def submit (r : Uring) (e : Enter) (minComplete : ℕ) : Status × Uring :=
  if r.staged = [] ∧ minComplete = 0 then (none, r) else (e.error, r.enter e)

/-- `uring_submit_poll_add`: a full ring is flushed once. -/
def submitPollAdd (r : Uring) (e₁ e₂ : Enter) (op : Sqe) : Status × Uring :=
  match r.stage op with
  | some r => r.submit e₂ 0
  | none =>
    match r.submit e₁ 0 with
    | (some err, r) => (some err, r)
    | (none, r) =>
      match r.stage op with
      | none => (some .EAGAIN, r)
      | some r => r.submit e₂ 0

/-- Write the sequence number, the token and the interests of a slot. -/
def setSlot (r : Uring) (slot seq : ℕ) (token : Token) (interests : Mask) : Uring :=
  { r with
    seqs := Function.update r.seqs slot seq
    toks := Function.update r.toks slot token
    ints := Function.update r.ints slot interests }

/-- The upsert of `mjs_iouring_register`: remove the live poll of the slot, add a new one. -/
def registerUpsert (r : Uring) (e : Enter) (slot : ℕ) (fd : Fd) (interests : Mask) (token : Token)
    (seq : ℕ) : Status × Uring :=
  match r.stage (.pollRemove (r.seqs slot)) with
  | none => (some .EAGAIN, r)
  | some r =>
    match r.stage (.pollAdd fd (interestsToPoll interests) seq) with
    | none => (some .EAGAIN, r)
    | some r =>
      match r.submit e 0 with
      | (some err, r) => (some err, r)
      | (none, r) => (none, r.setSlot slot seq token interests)

/-- The insertion of `mjs_iouring_register`; `e₁` is the flush of a full ring. -/
def registerNew (r : Uring) (e₁ e₂ : Enter) (slot : ℕ) (fd : Fd) (interests : Mask) (token : Token)
    (seq : ℕ) : Status × Uring :=
  match r.submitPollAdd e₁ e₂ (.pollAdd fd (interestsToPoll interests) seq) with
  | (some err, r) => (some err, r)
  | (none, r) =>
    (none, { r.setSlot slot seq token interests with
      fds := Function.update r.fds slot fd
      count := r.count + 1 })

/-- `mjs_iouring_register`. -/
def register (r : Uring) (e₁ e₂ : Enter) (fd : Fd) (interests : Mask) (token : Token) :
    Status × Uring :=
  match checkInterests interests with
  | some err => (some err, r)
  | none =>
    if fd < 0 then (some .EBADF, r)
    else if r.cap ≤ r.count then (some .ENOSPC, r)
    else
      let slot := r.uringSlot fd
      let seq := r.uringNextSeq
      let r := r.draw
      if r.fds slot = fd then r.registerUpsert e₂ slot fd interests token seq
      else r.registerNew e₁ e₂ slot fd interests token seq

/-- `mjs_iouring_modify`. -/
def modify (r : Uring) (e₁ e₂ : Enter) (fd : Fd) (interests : Mask) (token : Token) :
    Status × Uring :=
  if fd < 0 then (some .EBADF, r) else r.register e₁ e₂ fd interests token

/-- Empty a slot. -/
def clear (r : Uring) (slot : ℕ) : Uring :=
  { r with fds := Function.update r.fds slot (-1), count := r.count - 1 }

/-- `mjs_iouring_unregister`. -/
def unregister (r : Uring) (e : Enter) (fd : Fd) : Status × Uring :=
  if fd < 0 then (some .EBADF, r)
  else
    let slot := r.uringSlot fd
    if r.fds slot ≠ fd then (none, r)
    else
      match r.stage (.pollRemove (r.seqs slot)) with
      | none => (some .EAGAIN, r)
      | some r =>
        match r.submit e 0 with
        | (some err, r) => (some err, r)
        | (none, r) => (none, r.clear slot)

/-! ### The drain -/

/-- The first live slot whose sequence number is `ud`. -/
def findSeq (r : Uring) (ud : ℕ) : Option ℕ :=
  (List.range r.cap).find? fun i => 0 ≤ r.fds i ∧ r.seqs i = ud

/-- The body of the loop of `uring_drain_cq`, on a completion that was taken off the queue. -/
def drainCqe (cap : ℕ) (s : Uring × List PollEvent) (c : Cqe) : Uring × List PollEvent :=
  let (r, events) := s
  if c.userData = TIMEOUT then ({ r with timeoutArmed := false }, events)
  else if c.userData = WAKE then ({ r with wakeArmed := false }, events)
  else
    match r.findSeq c.userData with
    | none => (r, events)
    | some i =>
      if c.res < 0 then (r.clear i, events)
      else
        ({ r with seqs := Function.update r.seqs i 0 },
          if events.length < cap then events ++ [⟨r.toks i, r.fds i, pollFlags c.res⟩]
          else events)

/-- `uring_drain_cq`: the poller and the events delivered. -/
def drainCq (r : Uring) (cap : ℕ) : Uring × List PollEvent :=
  r.cq.foldl (drainCqe cap) ({ r with cq := [] }, [])

/-! ### `mjs_iouring_wait` -/

/-- The re-arm pass over the slots of a list. -/
def rearm : List ℕ → Uring → Status × Uring
  | [], r => (none, r)
  | i :: is, r =>
    if 0 ≤ r.fds i ∧ r.seqs i = 0 then
      let seq := r.uringNextSeq
      match r.draw.stage (.pollAdd (r.fds i) (interestsToPoll (r.ints i)) seq) with
      | none => (some .EAGAIN, r.draw)
      | some r => rearm is { r with seqs := Function.update r.seqs i seq }
    else rearm is r

/-- The re-arm of the wake poll. -/
def armWake (r : Uring) : Status × Uring :=
  if r.wakeArmed then (none, r)
  else
    match r.stage (.pollAdd r.wakeFd 0x1 WAKE) with
    | none => (some .EAGAIN, r)
    | some r => (none, { r with wakeArmed := true })

/-- The fresh timeout of a bounded wait. -/
def armTimeout (r : Uring) (bounded : Bool) : Status × Uring :=
  if bounded then
    match (if r.timeoutArmed then
        (r.stage .timeoutRemove).map fun r => { r with timeoutArmed := false }
      else some r) with
    | none => (some .EAGAIN, r)
    | some r =>
      match r.stage .timeout with
      | none => (some .EAGAIN, r)
      | some r => (none, { r with timeoutArmed := true })
  else (none, r)

/-- `mjs_iouring_wait` up to its drain. -/
def waitSubmit (r : Uring) (bounded : Bool) (e : Enter) : Status × Uring :=
  match rearm (List.range r.cap) r with
  | (some err, r) => (some err, r)
  | (none, r) =>
    match r.armWake with
    | (some err, r) => (some err, r)
    | (none, r) =>
      match r.armTimeout bounded with
      | (some err, r) => (some err, r)
      | (none, r) => r.submit e 1

end Uring

/-! ### Staging and submitting -/

section Stage

variable {r r' : Uring} {op : Sqe}

theorem Uring.stage_eq_some : r.stage op = some r' ↔
    r.staged.length < r.sqEntries ∧ r' = { r with staged := r.staged ++ [op] } := by
  unfold Uring.stage
  split_ifs with h
  · simp [h, eq_comm]
  · simp [h]

theorem Uring.stage_eq_none : r.stage op = none ↔ ¬ r.staged.length < r.sqEntries := by
  simp [Uring.stage]

theorem Uring.stage_of_room (op : Sqe) (h : r.staged.length < r.sqEntries) :
    r.stage op = some { r with staged := r.staged ++ [op] } :=
  stage_eq_some.mpr ⟨h, rfl⟩

theorem Uring.stage_of_full (op : Sqe) (h : r.sqEntries ≤ r.staged.length) : r.stage op = none :=
  stage_eq_none.mpr (Nat.not_lt.mpr h)

theorem Uring.submit_of_staged (h : r.staged ≠ []) (e : Enter) (n : ℕ) :
    r.submit e n = (e.error, r.enter e) := by
  simp [Uring.submit, h]

/-- The two rings agree but for the entries that were staged or consumed. -/
def Uring.Quiet (r r' : Uring) : Prop :=
  r' = { r with staged := r'.staged, inflight := r'.inflight }

theorem Uring.Quiet.trans {r₁ r₂ r₃ : Uring} (h₁ : r₁.Quiet r₂) (h₂ : r₂.Quiet r₃) :
    r₁.Quiet r₃ := by
  rw [Quiet] at *
  rw [h₂, h₁]

theorem Uring.quiet_stage (h : r.stage op = some r') : r.Quiet r' := by
  obtain ⟨-, rfl⟩ := stage_eq_some.mp h
  rfl

theorem Uring.quiet_submit (r : Uring) (e : Enter) (n : ℕ) : r.Quiet (r.submit e n).2 := by
  unfold submit
  split <;> rfl

theorem Uring.quiet_submitPollAdd (r : Uring) (e₁ e₂ : Enter) (op : Sqe) :
    r.Quiet (r.submitPollAdd e₁ e₂ op).2 := by
  unfold submitPollAdd
  cases h₁ : r.stage op with
  | some r₁ => exact (quiet_stage h₁).trans (quiet_submit r₁ e₂ 0)
  | none =>
    have hflush := quiet_submit r e₁ 0
    simp only
    rcases h₂ : r.submit e₁ 0 with ⟨_ | err, r₂⟩
    · rw [h₂] at hflush
      simp only
      cases h₃ : r₂.stage op with
      | none => exact hflush
      | some r₃ => exact (hflush.trans (quiet_stage h₃)).trans (quiet_submit r₃ e₂ 0)
    · rwa [h₂] at hflush

/-- An upsert stops after some staging, or writes the slot. -/
theorem Uring.registerUpsert_quiet (r : Uring) (e : Enter) (slot : ℕ) (fd : Fd) (interests : Mask)
    (token : Token) (seq : ℕ) :
    ∃ q, r.Quiet q ∧ ((r.registerUpsert e slot fd interests token seq).2 = q ∨
      (r.registerUpsert e slot fd interests token seq).2 =
        q.setSlot slot seq token interests) := by
  unfold registerUpsert
  cases h₁ : r.stage (.pollRemove (r.seqs slot)) with
  | none => exact ⟨r, rfl, Or.inl rfl⟩
  | some r₁ =>
    have hq₁ := quiet_stage h₁
    simp only
    cases h₂ : r₁.stage (.pollAdd fd (interestsToPoll interests) seq) with
    | none => exact ⟨r₁, hq₁, Or.inl rfl⟩
    | some r₂ =>
      have hq₃ := (hq₁.trans (quiet_stage h₂)).trans (quiet_submit r₂ e 0)
      simp only
      rcases h₃ : r₂.submit e 0 with ⟨_ | err, r₃⟩
      · rw [h₃] at hq₃
        exact ⟨r₃, hq₃, Or.inr rfl⟩
      · rw [h₃] at hq₃
        exact ⟨r₃, hq₃, Or.inl rfl⟩

/-- An insertion stops after some staging, or writes the slot. -/
theorem Uring.registerNew_quiet (r : Uring) (e₁ e₂ : Enter) (slot : ℕ) (fd : Fd) (interests : Mask)
    (token : Token) (seq : ℕ) :
    ∃ q, r.Quiet q ∧ ((r.registerNew e₁ e₂ slot fd interests token seq).2 = q ∨
      (r.registerNew e₁ e₂ slot fd interests token seq).2 =
        { q.setSlot slot seq token interests with
          fds := Function.update q.fds slot fd
          count := q.count + 1 }) := by
  unfold registerNew
  have hq := r.quiet_submitPollAdd e₁ e₂ (.pollAdd fd (interestsToPoll interests) seq)
  rcases h : r.submitPollAdd e₁ e₂ (.pollAdd fd (interestsToPoll interests) seq) with ⟨_ | err, q⟩
  · rw [h] at hq
    exact ⟨q, hq, Or.inr rfl⟩
  · rw [h] at hq
    exact ⟨q, hq, Or.inl rfl⟩

end Stage

/-! ### Rules for the calls

A property that the internal entries, `ioring_enter` and the two flags do not touch survives the
parts of the calls that do nothing else. -/

/-- The entry is not the poll of a registration. -/
def Sqe.Internal : Sqe → Prop
  | .pollAdd _ _ ud => ud = WAKE
  | .pollRemove _ | .timeout | .timeoutRemove => True

/-- The property survives the staging of internal entries, `ioring_enter` and the two flags. -/
structure Closed (P : Uring → Prop) : Prop where
  stage : ∀ {r r' : Uring} {op : Sqe}, P r → r.stage op = some r' → op.Internal → P r'
  enter : ∀ {r : Uring} (e : Enter), P r → P (r.enter e)
  wake : ∀ {r : Uring} (b : Bool), P r → P { r with wakeArmed := b }
  timeout : ∀ {r : Uring} (b : Bool), P r → P { r with timeoutArmed := b }

namespace Closed

variable {P : Uring → Prop} (hP : Closed P) {r : Uring}
include hP

theorem submit (e : Enter) (n : ℕ) (h : P r) : P (r.submit e n).2 := by
  unfold Uring.submit
  split
  · exact h
  · exact hP.enter e h

theorem armWake (h : P r) : P r.armWake.2 := by
  unfold Uring.armWake
  split
  · exact h
  · cases hs : r.stage (.pollAdd r.wakeFd 0x1 WAKE) with
    | none => exact h
    | some r₁ => exact hP.wake true (hP.stage h hs rfl)

/-- The removal of a stale timeout. -/
theorem dropTimeout (h : P r) {r' : Uring}
    (hr : (if r.timeoutArmed then
        (r.stage .timeoutRemove).map fun r => { r with timeoutArmed := false }
      else some r) = some r') : P r' := by
  split at hr
  · obtain ⟨r₁, hr₁, rfl⟩ := Option.map_eq_some_iff.mp hr
    exact hP.timeout false (hP.stage h hr₁ trivial)
  · exact Option.some.inj hr ▸ h

theorem armTimeout (bounded : Bool) (h : P r) : P (r.armTimeout bounded).2 := by
  unfold Uring.armTimeout
  split
  · split
    · exact h
    · next r₁ hr₁ =>
      have h₁ := hP.dropTimeout h hr₁
      cases hs : r₁.stage .timeout with
      | none => exact h₁
      | some r₂ => exact hP.timeout true (hP.stage h₁ hs trivial)
  · exact h

/-- `mjs_iouring_wait` after its re-arm pass. -/
theorem waitSubmit (bounded : Bool) (e : Enter) (h : P (Uring.rearm (List.range r.cap) r).2) :
    P (r.waitSubmit bounded e).2 := by
  unfold Uring.waitSubmit
  rcases hr : Uring.rearm (List.range r.cap) r with ⟨_ | err, r₁⟩
  · rw [hr] at h
    have hw := hP.armWake h
    simp only
    rcases hr₂ : r₁.armWake with ⟨_ | err, r₂⟩
    · rw [hr₂] at hw
      have ht := hP.armTimeout bounded hw
      simp only
      rcases hr₃ : r₂.armTimeout bounded with ⟨_ | err, r₃⟩
      · rw [hr₃] at ht
        exact hP.submit e 1 ht
      · rwa [hr₃] at ht
    · rwa [hr₂] at hw
  · rwa [hr] at h

end Closed

/-! ### Runs -/

/-- The kernel completes operations, in any order and with any results. -/
inductive Posted (r : Uring) : Uring → Prop
  | refl : Posted r r
  | post {r' : Uring} (before after : List Sqe) (op : Sqe) (res : ℤ) (h : Posted r r')
      (hop : r'.inflight = before ++ op :: after) :
      Posted r { r' with inflight := before ++ after, cq := r'.cq ++ [⟨op, res⟩] }

/-- The kernel changes its side of the rings only. -/
theorem Posted.eq {r r' : Uring} (h : Posted r r') :
    r' = { r with inflight := r'.inflight, cq := r'.cq } := by
  induction h with
  | refl => rfl
  | post _ _ _ _ _ _ ih => rw [ih]

/-- A call on the poller, or the kernel completing operations between two calls. -/
inductive Step (r : Uring) : Uring → Prop
  | register (e₁ e₂ : Enter) (fd : Fd) (interests : Mask) (token : Token) :
      Step r (r.register e₁ e₂ fd interests token).2
  | modify (e₁ e₂ : Enter) (fd : Fd) (interests : Mask) (token : Token) :
      Step r (r.modify e₁ e₂ fd interests token).2
  | unregister (e : Enter) (fd : Fd) : Step r (r.unregister e fd).2
  | waitFail {bounded : Bool} {e : Enter} {err : Errno} {r' : Uring}
      (h : r.waitSubmit bounded e = (some err, r')) : Step r r'
  | wait {bounded : Bool} {e : Enter} {r₁ r₂ : Uring} (cap : ℕ)
      (h : r.waitSubmit bounded e = (none, r₁)) (hp : Posted r₁ r₂) :
      Step r (r₂.drainCq cap).1
  | post {r' : Uring} (h : Posted r r') : Step r r'

section WakeFd

variable {r r' : Uring}

theorem Uring.wakeFd_register (r : Uring) (e₁ e₂ : Enter) (fd : Fd) (interests : Mask)
    (token : Token) : (r.register e₁ e₂ fd interests token).2.wakeFd = r.wakeFd := by
  unfold register
  split
  · rfl
  · split
    · rfl
    · split
      · rfl
      · simp only
        split
        · obtain ⟨q, hq, h | h⟩ := r.draw.registerUpsert_quiet e₂ (r.uringSlot fd) fd interests
            token r.uringNextSeq
          all_goals rw [h, hq]; rfl
        · obtain ⟨q, hq, h | h⟩ := r.draw.registerNew_quiet e₁ e₂ (r.uringSlot fd) fd interests
            token r.uringNextSeq
          all_goals rw [h, hq]; rfl

theorem Uring.wakeFd_rearm (is : List ℕ) (r : Uring) :
    (rearm is r).2.wakeFd = r.wakeFd := by
  induction is generalizing r with
  | nil => rfl
  | cons i is ih =>
    unfold rearm
    split
    · cases hs : r.draw.stage (.pollAdd (r.fds i) (interestsToPoll (r.ints i)) r.uringNextSeq) with
      | none => simp only [hs]; rfl
      | some r₁ =>
        simp only [hs]
        rw [ih, (stage_eq_some.mp hs).2]
        rfl
    · exact ih r

theorem Uring.wakeFd_waitSubmit (r : Uring) (bounded : Bool) (e : Enter) :
    (r.waitSubmit bounded e).2.wakeFd = r.wakeFd := by
  have hP : Closed fun q => q.wakeFd = r.wakeFd :=
    ⟨fun h hs _ => by rw [(stage_eq_some.mp hs).2]; exact h, fun _ h => h, fun _ h => h,
      fun _ h => h⟩
  exact hP.waitSubmit bounded e (wakeFd_rearm _ r)

theorem Uring.wakeFd_drainCqe (cap : ℕ) (s : Uring × List PollEvent) (c : Cqe) :
    (drainCqe cap s c).1.wakeFd = s.1.wakeFd := by
  obtain ⟨r, events⟩ := s
  unfold drainCqe
  simp only
  split
  · rfl
  · split
    · rfl
    · cases r.findSeq c.userData with
      | none => rfl
      | some i =>
        simp only
        split <;> rfl

theorem Uring.wakeFd_drainCq (r : Uring) (cap : ℕ) : (r.drainCq cap).1.wakeFd = r.wakeFd := by
  have hfold (cs : List Cqe) (s : Uring × List PollEvent) :
      (cs.foldl (drainCqe cap) s).1.wakeFd = s.1.wakeFd := by
    induction cs generalizing s with
    | nil => rfl
    | cons c cs ih => rw [List.foldl_cons, ih, wakeFd_drainCqe]
  exact hfold r.cq _

/-- No step changes the eventfd. -/
theorem Step.wakeFd_eq (h : Step r r') : r'.wakeFd = r.wakeFd := by
  cases h with
  | register e₁ e₂ fd interests token => exact r.wakeFd_register e₁ e₂ fd interests token
  | modify e₁ e₂ fd interests token =>
    unfold Uring.modify
    split
    · rfl
    · exact r.wakeFd_register e₁ e₂ fd interests token
  | unregister e fd =>
    unfold Uring.unregister
    split
    · rfl
    · simp only
      split
      · rfl
      · cases hs : r.stage (.pollRemove (r.seqs (r.uringSlot fd))) with
        | none => rfl
        | some r₁ =>
          have hq := (Uring.quiet_stage hs).trans (r₁.quiet_submit e 0)
          have hfd : (r₁.submit e 0).2.wakeFd = r.wakeFd := by rw [hq]
          simp only
          rcases hsub : r₁.submit e 0 with ⟨_ | err, r₂⟩
          all_goals rw [hsub] at hfd; exact hfd
  | waitFail h =>
    rw [← congrArg (·.2.wakeFd) h]
    exact r.wakeFd_waitSubmit _ _
  | wait cap h hp =>
    rw [Uring.wakeFd_drainCq, hp.eq, ← congrArg (·.2.wakeFd) h]
    exact r.wakeFd_waitSubmit _ _
  | post h => rw [h.eq]

end WakeFd

/-- The poller after `mjs_iouring_create`: the table is empty, and the wake poll is armed. -/
structure Start (r : Uring) : Prop where
  sqEntries : ∃ k, r.sqEntries = 2 ^ k
  cap : r.cap = if r.sqEntries < 16 then 16 else r.sqEntries
  fds : ∀ i, r.fds i = -1
  count : r.count = 0
  nextSeq : r.nextSeq = FIRST_SEQ
  armed : r.wakeArmed = true ∧ r.timeoutArmed = false
  outstanding : r.staged ++ r.inflight = [.pollAdd r.wakeFd 0x1 WAKE]
  cq : r.cq = []

/-- The reachable states of a poller. -/
inductive Run : Uring → Prop
  | start {r : Uring} (h : Start r) : Run r
  | step {r r' : Uring} (hr : Run r) (hs : Step r r') : Run r'

end MojitoSys.Io.IoUring
