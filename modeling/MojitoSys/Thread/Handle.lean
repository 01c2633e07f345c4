import MojitoSys.Status
import MojitoSys.Util.RefCount
import Mathlib.Data.Int.Notation
import Mathlib.Data.BitVec

/-!
# The lifetime of a thread handle

The handle of `mjs_thread.c` has two references, one of its owner and one of the trampoline, which
runs in the new thread. Each party drops its own reference, and the one that drops the last
reference frees the handle. The steps are the single accesses to the handle: the trampoline reads
the name and the entry, stores the status and drops its reference; the owner, whose calls come one
after another, spawns the thread and then joins or detaches it any number of times.
`pthread_create`, `pthread_join` and `pthread_detach` may fail; `pthread_join` succeeds only after
the trampoline has returned.

## Main definitions

* `Handle`, `ThreadWorld`: the handle, the places of the two parties, and the variable `*t`.
* `TrampolineStep`, `OwnerStep`, `ThreadRun`: the steps, with their accesses to the handle.
* `entryResults`, `Consumed`, `lastWanted`: what a trace did.

## Main results

* `ThreadRun.inv`: the invariant of every run.
* `handle_lifetime`: the handle is freed once, by whoever drops the last reference, and not used
  afterwards.
-/

namespace MojitoSys.Thread

open Util

/-- `enum mjs_thread_state`. -/
inductive ThreadState
  | JOINABLE
  | DETACHED
  | JOINED
  deriving DecidableEq, Repr

/-- The fields of `struct mjs_thread` that are written after the spawn. -/
structure Handle where
  state : ThreadState
  refs : ℤ
  status : BitVec 64
  deriving DecidableEq, Repr

/-- Where the trampoline is. -/
inductive TrampolinePc
  /-- The thread does not exist. -/
  | none
  /-- Before the name is read. -/
  | name
  /-- Before the entry is read. -/
  | entry
  | running
  /-- The entry returned, and its status is not stored. -/
  | store (status : BitVec 64)
  | unref
  | free
  | ret
  | returned
  deriving DecidableEq, Repr

/-- The calls of the owner, with what they write to `*out_result`. -/
inductive OwnerCall
  | join (result : Option (BitVec 64))
  | detach
  deriving DecidableEq, Repr

/-- Where the owner is. -/
inductive OwnerPc
  /-- In `spawn`, with an initialised handle. -/
  | create
  /-- `pthread_create` started the thread, and `h->pt` is not written. -/
  | created
  | publish
  /-- `pthread_create` failed. -/
  | discard (rc : Errno)
  | failed (rc : Errno)
  /-- Between the calls. -/
  | idle
  /-- In `join`; `wanted` says whether there is a place for the result. -/
  | joinPt (wanted : Bool)
  | joining (wanted : Bool)
  | rollback (rc : Errno)
  | readStatus
  | detachPt
  | detaching
  /-- The call succeeded, and `*t` is not cleared. -/
  | clear (call : OwnerCall)
  | unref (call : OwnerCall)
  | free (call : OwnerCall)
  | ret (call : OwnerCall)
  deriving DecidableEq, Repr

/-- The handle, how often it was freed, and the two parties. -/
structure ThreadWorld where
  handle : Handle
  frees : ℕ
  trampoline : TrampolinePc
  owner : OwnerPc
  /-- The variable `*t` points to the handle. -/
  var : Bool
  deriving DecidableEq, Repr

/-- What a step did. -/
inductive ThreadEvent
  | silent
  | entryReturned (status : BitVec 64)
  /-- A call of the owner returned. -/
  | returned (call : OwnerCall) (rc : Status)
  deriving DecidableEq, Repr

/-- A step, with the world before it. -/
structure ThreadExec where
  access : Access
  event : ThreadEvent
  pre : ThreadWorld

/-- Drop a reference: the caller goes to `free` if it was the last one. -/
def Handle.unref (h : Handle) : Handle := { h with refs := h.refs - 1 }

/-- `mjs_thread_trampoline`. -/
inductive TrampolineStep (w : ThreadWorld) : Access → ThreadEvent → ThreadWorld → Prop
  | name (hpc : w.trampoline = .name) :
      TrampolineStep w .touch .silent { w with trampoline := .entry }
  | entry (hpc : w.trampoline = .entry) :
      TrampolineStep w .touch .silent { w with trampoline := .running }
  | entryReturned {v : BitVec 64} (hpc : w.trampoline = .running) :
      TrampolineStep w .quiet (.entryReturned v) { w with trampoline := .store v }
  | store {v : BitVec 64} (hpc : w.trampoline = .store v) :
      TrampolineStep w .touch .silent
        { w with handle := { w.handle with status := v }, trampoline := .unref }
  | unref (hpc : w.trampoline = .unref) :
      TrampolineStep w .touch .silent { w with
        handle := w.handle.unref
        trampoline := if w.handle.refs = 1 then .free else .ret }
  | free (hpc : w.trampoline = .free) :
      TrampolineStep w .free .silent { w with frees := w.frees + 1, trampoline := .ret }
  | ret (hpc : w.trampoline = .ret) :
      TrampolineStep w .quiet .silent { w with trampoline := .returned }

/-- `mjs_thread_spawn` from `pthread_create` on, `mjs_thread_join` and `mjs_thread_detach`. -/
inductive OwnerStep (w : ThreadWorld) : Access → ThreadEvent → ThreadWorld → Prop
  | create (hpc : w.owner = .create) :
      OwnerStep w .quiet .silent { w with trampoline := .name, owner := .created }
  /-- `pthread_create` writes `h->pt`. -/
  | created (hpc : w.owner = .created) : OwnerStep w .touch .silent { w with owner := .publish }
  | publish (hpc : w.owner = .publish) :
      OwnerStep w .quiet .silent { w with owner := .idle, var := true }
  | createFailed {rc : Errno} (hpc : w.owner = .create) :
      OwnerStep w .quiet .silent { w with owner := .discard rc }
  | discard {rc : Errno} (hpc : w.owner = .discard rc) :
      OwnerStep w .free .silent { w with frees := w.frees + 1, owner := .failed rc }
  /-- `t` or `*t` is `NULL`. -/
  | null {call : OwnerCall} (hpc : w.owner = .idle) :
      OwnerStep w .quiet (.returned call (some .EINVAL)) w
  | join {wanted : Bool} (hpc : w.owner = .idle) (hvar : w.var = true)
      (hstate : w.handle.state = .JOINABLE) :
      OwnerStep w .touch .silent
        { w with handle := { w.handle with state := .JOINED }, owner := .joinPt wanted }
  | joinInvalid (hpc : w.owner = .idle) (hvar : w.var = true)
      (hstate : w.handle.state ≠ .JOINABLE) :
      OwnerStep w .touch (.returned (.join none) (some .EINVAL)) w
  | joinPt {wanted : Bool} (hpc : w.owner = .joinPt wanted) :
      OwnerStep w .touch .silent { w with owner := .joining wanted }
  | joined {wanted : Bool} (hpc : w.owner = .joining wanted) (hret : w.trampoline = .returned) :
      OwnerStep w .quiet .silent
        { w with owner := if wanted then .readStatus else .clear (.join none) }
  | joinFailed {wanted : Bool} {rc : Errno} (hpc : w.owner = .joining wanted) :
      OwnerStep w .quiet .silent { w with owner := .rollback rc }
  | rollback {rc : Errno} (hpc : w.owner = .rollback rc) :
      OwnerStep w .touch (.returned (.join none) (some rc)) { w with
        handle := { w.handle with
          state := if w.handle.state = .JOINED then .JOINABLE else w.handle.state }
        owner := .idle }
  | readStatus (hpc : w.owner = .readStatus) :
      OwnerStep w .touch .silent { w with owner := .clear (.join (some w.handle.status)) }
  | detach (hpc : w.owner = .idle) (hvar : w.var = true) (hstate : w.handle.state = .JOINABLE) :
      OwnerStep w .touch .silent
        { w with handle := { w.handle with state := .DETACHED }, owner := .detachPt }
  | detachInvalid (hpc : w.owner = .idle) (hvar : w.var = true)
      (hstate : w.handle.state ≠ .JOINABLE) :
      OwnerStep w .touch (.returned .detach (some .EINVAL)) w
  | detachPt (hpc : w.owner = .detachPt) :
      OwnerStep w .touch .silent { w with owner := .detaching }
  | detached (hpc : w.owner = .detaching) :
      OwnerStep w .quiet .silent { w with owner := .clear .detach }
  | detachFailed {rc : Errno} (hpc : w.owner = .detaching) :
      OwnerStep w .quiet (.returned .detach (some rc)) { w with owner := .idle }
  | clear {call : OwnerCall} (hpc : w.owner = .clear call) :
      OwnerStep w .quiet .silent { w with owner := .unref call, var := false }
  | unref {call : OwnerCall} (hpc : w.owner = .unref call) :
      OwnerStep w .touch .silent { w with
        handle := w.handle.unref
        owner := if w.handle.refs = 1 then .free call else .ret call }
  | free {call : OwnerCall} (hpc : w.owner = .free call) :
      OwnerStep w .free .silent { w with frees := w.frees + 1, owner := .ret call }
  | ret {call : OwnerCall} (hpc : w.owner = .ret call) :
      OwnerStep w .quiet (.returned call none) { w with owner := .idle }

/-- The handle as `spawn` initialises it. -/
def spawned : ThreadWorld := ⟨⟨.JOINABLE, 2, 0⟩, 0, .none, .create, false⟩

/-- The runs of one handle, with their traces, the newest step first. -/
inductive ThreadRun : List ThreadExec → ThreadWorld → Prop
  | start : ThreadRun [] spawned
  | trampoline {tr : List ThreadExec} {w w' : ThreadWorld} {a : Access} {e : ThreadEvent}
      (hr : ThreadRun tr w) (hs : TrampolineStep w a e w') : ThreadRun (⟨a, e, w⟩ :: tr) w'
  | owner {tr : List ThreadExec} {w w' : ThreadWorld} {a : Access} {e : ThreadEvent}
      (hr : ThreadRun tr w) (hs : OwnerStep w a e w') : ThreadRun (⟨a, e, w⟩ :: tr) w'

/-! ### The references -/

/-- The holders of the two references. -/
inductive Party
  | owner
  | trampoline
  deriving DecidableEq, Repr

instance : Fintype Party where
  elems := {.owner, .trampoline}
  complete p := by cases p <;> simp

/-- The share of the trampoline in the handle. -/
def TrampolinePc.share : TrampolinePc → Share
  | .free => .freeing
  | .ret => .gone
  | .returned => .gone
  | _ => .holds

/-- The share of the owner in the handle. -/
def OwnerPc.share (var : Bool) : OwnerPc → Share
  | .idle => if var then .holds else .gone
  | .free _ => .freeing
  | .ret _ => .gone
  | _ => .holds

/-- The reference count of the handle. -/
def ThreadWorld.count (w : ThreadWorld) : RefCount Party where
  refs := w.handle.refs
  frees := w.frees
  share
    | .owner => w.owner.share w.var
    | .trampoline => w.trampoline.share

/-- `pthread_create` failed. -/
def OwnerPc.Discarded : OwnerPc → Prop
  | .discard _ => True
  | .failed _ => True
  | _ => False

/-- The variable `*t` at a place of the owner. -/
def OwnerPc.Var : OwnerPc → Bool → Prop
  | .idle, _ => True
  | .joinPt _, var => var = true
  | .joining _, var => var = true
  | .rollback _, var => var = true
  | .readStatus, var => var = true
  | .detachPt, var => var = true
  | .detaching, var => var = true
  | .clear _, var => var = true
  | _, var => var = false

section Simulation

variable {w w' : ThreadWorld} {a : Access} {e : ThreadEvent}

/-- Two worlds with the same counter and the same shares. -/
theorem count_eq (hrefs : w'.handle.refs = w.handle.refs) (hfrees : w'.frees = w.frees)
    (howner : w'.owner.share w'.var = w.owner.share w.var)
    (htramp : w'.trampoline.share = w.trampoline.share) : w'.count = w.count := by
  refine RefCount.ext hrefs hfrees (funext fun p => ?_)
  cases p with
  | owner => exact howner
  | trampoline => exact htramp

theorem step_quiet {p : Party} (h : w'.count = w.count) : w.count.Step p .quiet w'.count :=
  h ▸ .quiet

theorem step_touch {p : Party} (h : w'.count = w.count) (hp : w.count.share p = .holds) :
    w.count.Step p .touch w'.count := by
  rw [h]
  exact .touch hp

/-- The trampoline follows the rules of the reference count. -/
theorem TrampolineStep.count (hs : TrampolineStep w a e w') :
    w.count.Step .trampoline a w'.count := by
  have hshare : w.count.share .trampoline = w.trampoline.share := rfl
  cases hs with
  | name hpc =>
    exact step_touch (count_eq rfl rfl rfl (by rw [hpc]; rfl)) (by rw [hshare, hpc]; rfl)
  | entry hpc =>
    exact step_touch (count_eq rfl rfl rfl (by rw [hpc]; rfl)) (by rw [hshare, hpc]; rfl)
  | entryReturned hpc => exact step_quiet (count_eq rfl rfl rfl (by rw [hpc]; rfl))
  | store hpc =>
    exact step_touch (count_eq rfl rfl rfl (by rw [hpc]; rfl)) (by rw [hshare, hpc]; rfl)
  | unref hpc =>
    have hunref : w.count.unref .trampoline = ThreadWorld.count { w with
        handle := w.handle.unref
        trampoline := if w.handle.refs = 1 then .free else .ret } := by
      refine RefCount.ext rfl rfl (funext fun p => ?_)
      cases p with
      | owner => rfl
      | trampoline =>
        by_cases hlast : w.handle.refs = 1 <;>
          simp [RefCount.unref, ThreadWorld.count, TrampolinePc.share, hlast]
    rw [← hunref]
    exact .unref (by rw [hshare, hpc]; rfl)
  | free hpc =>
    have hfree : w.count.free .trampoline = ThreadWorld.count { w with
        frees := w.frees + 1
        trampoline := .ret } := by
      refine RefCount.ext rfl rfl (funext fun p => ?_)
      cases p with
      | owner => rfl
      | trampoline => simp [RefCount.free, ThreadWorld.count, TrampolinePc.share]
    rw [← hfree]
    exact .free (by rw [hshare, hpc]; rfl)
  | ret hpc => exact step_quiet (count_eq rfl rfl rfl (by rw [hpc]; rfl))

/-- The variable `*t` is where it should be. -/
theorem OwnerStep.var (h : w.owner.Var w.var) (hs : OwnerStep w a e w') : w'.owner.Var w'.var := by
  cases hs with
  | joined hpc =>
    rw [hpc] at h
    dsimp only
    split_ifs
    · exact h
    · exact h
  | unref hpc =>
    rw [hpc] at h
    dsimp only
    split_ifs
    · exact h
    · exact h
  | publish => trivial
  | rollback => trivial
  | detachFailed => trivial
  | ret => trivial
  | null => exact h
  | joinInvalid => exact h
  | detachInvalid => exact h
  | join _ hvar => exact hvar
  | detach _ hvar => exact hvar
  | clear => rfl
  | create hpc => rw [hpc] at h; exact h
  | created hpc => rw [hpc] at h; exact h
  | createFailed hpc => rw [hpc] at h; exact h
  | discard hpc => rw [hpc] at h; exact h
  | joinPt hpc => rw [hpc] at h; exact h
  | joinFailed hpc => rw [hpc] at h; exact h
  | readStatus hpc => rw [hpc] at h; exact h
  | detachPt hpc => rw [hpc] at h; exact h
  | detached hpc => rw [hpc] at h; exact h
  | free hpc => rw [hpc] at h; exact h

/-- The owner follows the rules of the reference count, if the thread exists. -/
theorem OwnerStep.count (h : w.owner.Var w.var) (hs : OwnerStep w a e w')
    (hd : ¬ w'.owner.Discarded) (hcreate : w.owner = .create → w.trampoline = .none) :
    w.count.Step .owner a w'.count := by
  have hshare : w.count.share .owner = w.owner.share w.var := rfl
  cases hs with
  | create hpc =>
    exact step_quiet (count_eq rfl rfl (by rw [hpc]; rfl) (by rw [hcreate hpc]; rfl))
  | created hpc =>
    exact step_touch (count_eq rfl rfl (by rw [hpc]; rfl) rfl) (by rw [hshare, hpc]; rfl)
  | publish hpc => exact step_quiet (count_eq rfl rfl (by rw [hpc]; rfl) rfl)
  | createFailed => exact absurd trivial hd
  | discard => exact absurd trivial hd
  | null => exact .quiet
  | join hpc hvar =>
    exact step_touch (count_eq rfl rfl (by rw [hpc, hvar]; rfl) rfl)
      (by rw [hshare, hpc, hvar]; rfl)
  | joinInvalid hpc hvar => exact .touch (by rw [hshare, hpc, hvar]; rfl)
  | joinPt hpc =>
    exact step_touch (count_eq rfl rfl (by rw [hpc]; rfl) rfl) (by rw [hshare, hpc]; rfl)
  | @joined wanted hpc =>
    refine step_quiet (count_eq rfl rfl ?_ rfl)
    rw [hpc]
    cases wanted <;> rfl
  | joinFailed hpc => exact step_quiet (count_eq rfl rfl (by rw [hpc]; rfl) rfl)
  | rollback hpc =>
    rw [hpc] at h
    exact step_touch (count_eq rfl rfl (by rw [hpc, show w.var = true from h]; rfl) rfl)
      (by rw [hshare, hpc]; rfl)
  | readStatus hpc =>
    exact step_touch (count_eq rfl rfl (by rw [hpc]; rfl) rfl) (by rw [hshare, hpc]; rfl)
  | detach hpc hvar =>
    exact step_touch (count_eq rfl rfl (by rw [hpc, hvar]; rfl) rfl)
      (by rw [hshare, hpc, hvar]; rfl)
  | detachInvalid hpc hvar => exact .touch (by rw [hshare, hpc, hvar]; rfl)
  | detachPt hpc =>
    exact step_touch (count_eq rfl rfl (by rw [hpc]; rfl) rfl) (by rw [hshare, hpc]; rfl)
  | detached hpc => exact step_quiet (count_eq rfl rfl (by rw [hpc]; rfl) rfl)
  | detachFailed hpc =>
    rw [hpc] at h
    exact step_quiet (count_eq rfl rfl (by rw [hpc, show w.var = true from h]; rfl) rfl)
  | clear hpc => exact step_quiet (count_eq rfl rfl (by rw [hpc]; rfl) rfl)
  | @unref call hpc =>
    have hunref : w.count.unref .owner = ThreadWorld.count { w with
        handle := w.handle.unref
        owner := if w.handle.refs = 1 then .free call else .ret call } := by
      refine RefCount.ext rfl rfl (funext fun p => ?_)
      cases p with
      | owner =>
        by_cases hlast : w.handle.refs = 1 <;>
          simp [RefCount.unref, ThreadWorld.count, OwnerPc.share, hlast]
      | trampoline => rfl
    rw [← hunref]
    exact .unref (by rw [hshare, hpc]; rfl)
  | @free call hpc =>
    have hfree : w.count.free .owner = ThreadWorld.count { w with
        frees := w.frees + 1
        owner := .ret call } := by
      refine RefCount.ext rfl rfl (funext fun p => ?_)
      cases p with
      | owner => simp [RefCount.free, ThreadWorld.count, OwnerPc.share]
      | trampoline => rfl
    rw [← hfree]
    exact .free (by rw [hshare, hpc]; rfl)
  | ret hpc =>
    rw [hpc] at h
    exact step_quiet (count_eq rfl rfl (by rw [hpc, show w.var = false from h]; rfl) rfl)

end Simulation

/-! ### The invariant -/

/-- The statuses that the entry returned. -/
def entryResults (tr : List ThreadExec) : List (BitVec 64) :=
  tr.filterMap fun x =>
    match x.event with
    | .entryReturned v => some v
    | _ => none

/-- A join or a detach returned `0`. -/
def Consumed (tr : List ThreadExec) : Prop := ∃ x ∈ tr, ∃ call, x.event = .returned call none

/-- Whether the last call of `pthread_join` was of a join with a place for the result. -/
def lastWanted (tr : List ThreadExec) : Option Bool :=
  tr.findSome? fun x =>
    match x.pre.owner with
    | .joining wanted => some wanted
    | _ => none

/-- The status of the entry at a place of the trampoline. -/
def TrampolinePc.Result (status : BitVec 64) (results : List (BitVec 64)) : TrampolinePc → Prop
  | .none => results = []
  | .name => results = []
  | .entry => results = []
  | .running => results = []
  | .store v => results = [v]
  | _ => results = [status]

/-- The call that the owner has carried out, at a place before its return. -/
def OwnerPc.call : OwnerPc → Option OwnerCall
  | .clear call => some call
  | .unref call => some call
  | .free call => some call
  | .ret call => some call
  | _ => none

/-- The invariant. -/
structure HandleInv (tr : List ThreadExec) (w : ThreadWorld) : Prop where
  var : w.owner.Var w.var
  sound : ¬ w.owner.Discarded → w.count.Sound
  place : w.trampoline = .none ↔ w.owner = .create ∨ w.owner.Discarded
  discarded : (∀ rc, w.owner = .discard rc → w.frees = 0) ∧ ∀ rc, w.owner = .failed rc → w.frees = 1
  result : w.trampoline.Result w.handle.status (entryResults tr)
  reading : w.owner = .readStatus → w.trampoline = .returned
  called : ∀ v, w.owner.call = some (.join (some v)) →
    w.trampoline = .returned ∧ w.handle.status = v
  consumed : Consumed tr → w.owner = .idle ∧ w.var = false
  reported : ∀ x ∈ tr, ∀ v, x.event = .returned (.join (some v)) none →
    w.trampoline = .returned ∧ w.handle.status = v
  accesses : ∀ x ∈ tr, (x.access ≠ .quiet → x.pre.frees = 0) ∧
    (x.access = .free →
      x.pre.handle.refs = 0 ∧ (∀ p, x.pre.count.share p ≠ .holds) ∨ w.owner.Discarded)

section Invariant

variable {tr : List ThreadExec} {w w' : ThreadWorld} {a : Access} {e : ThreadEvent}

/-- What a step of the trampoline leaves. -/
theorem TrampolineStep.frame (hs : TrampolineStep w a e w') :
    w'.owner = w.owner ∧ w'.var = w.var ∧ w.trampoline ≠ .none ∧ w'.trampoline ≠ .none ∧
      w.trampoline ≠ .returned ∧ ∀ call rc, e ≠ .returned call rc := by
  cases hs with
  | unref hpc =>
    refine ⟨rfl, rfl, by simp [hpc], ?_, by simp [hpc], by simp⟩
    dsimp only
    split_ifs <;> simp
  | name hpc => simp [hpc]
  | entry hpc => simp [hpc]
  | entryReturned hpc => simp [hpc]
  | store hpc => simp [hpc]
  | free hpc => simp [hpc]
  | ret hpc => simp [hpc]

theorem TrampolineStep.result (hs : TrampolineStep w a e w')
    (h : w.trampoline.Result w.handle.status (entryResults tr)) :
    w'.trampoline.Result w'.handle.status (entryResults (⟨a, e, w⟩ :: tr)) := by
  cases hs with
  | unref hpc =>
    rw [hpc] at h
    dsimp only
    split_ifs
    · exact h
    · exact h
  | entryReturned hpc =>
    rw [hpc] at h
    simp [TrampolinePc.Result, entryResults, show List.filterMap _ tr = [] from h]
  | name hpc => rw [hpc] at h; exact h
  | entry hpc => rw [hpc] at h; exact h
  | store hpc => rw [hpc] at h; exact h
  | free hpc => rw [hpc] at h; exact h
  | ret hpc => rw [hpc] at h; exact h

theorem HandleInv.trampoline (h : HandleInv tr w) (hs : TrampolineStep w a e w') :
    HandleInv (⟨a, e, w⟩ :: tr) w' := by
  obtain ⟨howner, hvar, hstarted, hstarted', hnot, hevent⟩ := hs.frame
  have hcreate : ¬ (w.owner = .create ∨ w.owner.Discarded) := mt h.place.mpr hstarted
  have hlive : ¬ w.owner.Discarded := fun hd => hcreate (Or.inr hd)
  refine ⟨by rw [howner, hvar]; exact h.var, fun _ => (h.sound hlive).step hs.count, ?_, ?_,
    hs.result h.result, ?_, ?_, ?_, ?_, ?_⟩
  · rw [howner]
    exact iff_of_false hstarted' hcreate
  · rw [howner]
    refine ⟨fun rc hrc => absurd ?_ hlive, fun rc hrc => absurd ?_ hlive⟩
    · rw [hrc]; trivial
    · rw [hrc]; trivial
  · rw [howner]
    exact fun hread => absurd (h.reading hread) hnot
  · rw [howner]
    exact fun v hcall => absurd (h.called v hcall).1 hnot
  · rw [howner, hvar]
    rintro ⟨x, hx, call, hcall⟩
    rcases List.mem_cons.mp hx with rfl | hx
    · exact absurd hcall (hevent _ _)
    · exact h.consumed ⟨x, hx, call, hcall⟩
  · intro x hx v hv
    rcases List.mem_cons.mp hx with rfl | hx
    · exact absurd hv (hevent _ _)
    · exact absurd (h.reported x hx v hv).1 hnot
  · intro x hx
    rcases List.mem_cons.mp hx with rfl | hx
    · have hsafe := hs.count.safe (h.sound hlive)
      exact ⟨hsafe.1, fun hfree => Or.inl (hsafe.2 hfree)⟩
    · rw [howner]
      exact h.accesses x hx

/-- What a step of the owner leaves. -/
theorem OwnerStep.frame (hs : OwnerStep w a e w') (tr : List ThreadExec) :
    w'.handle.status = w.handle.status ∧ entryResults (⟨a, e, w⟩ :: tr) = entryResults tr ∧
      (w'.trampoline = w.trampoline ∧ w'.owner ≠ .create ∧ w'.owner ≠ .created ∨
        w.owner = .create ∧ w'.owner = .created ∧ w'.trampoline = .name) := by
  cases hs with
  | create hpc => exact ⟨rfl, rfl, Or.inr ⟨hpc, rfl, rfl⟩⟩
  | joined hpc =>
    refine ⟨rfl, rfl, Or.inl ⟨rfl, ?_⟩⟩
    dsimp only
    split_ifs <;> simp
  | unref hpc =>
    refine ⟨rfl, rfl, Or.inl ⟨rfl, ?_⟩⟩
    dsimp only
    split_ifs <;> simp
  | null hpc => exact ⟨rfl, rfl, Or.inl ⟨rfl, by simp [hpc]⟩⟩
  | joinInvalid hpc => exact ⟨rfl, rfl, Or.inl ⟨rfl, by simp [hpc]⟩⟩
  | detachInvalid hpc => exact ⟨rfl, rfl, Or.inl ⟨rfl, by simp [hpc]⟩⟩
  | _ => exact ⟨rfl, rfl, Or.inl ⟨rfl, by simp⟩⟩

/-- Where the calls of the owner lead. -/
theorem OwnerStep.call_cases (hs : OwnerStep w a e w') :
    (w'.owner = .readStatus → w.trampoline = .returned) ∧
      (∀ v, w'.owner.call = some (.join (some v)) →
        w.owner.call = some (.join (some v)) ∨ w.owner = .readStatus ∧ w.handle.status = v) ∧
      (∀ call, e = .returned call none → w.owner = .ret call ∧ w'.owner = .idle ∧ w'.var = w.var) ∧
      (w.owner = .idle → w.var = false → w' = w) := by
  cases hs with
  | @joined wanted hpc hret =>
    refine ⟨fun _ => hret, fun v hv => ?_, by simp, by simp [hpc]⟩
    cases wanted <;> simp [OwnerPc.call] at hv
  | @unref call hpc =>
    refine ⟨?_, fun v hv => Or.inl ?_, by simp, by simp [hpc]⟩
    · dsimp only
      split_ifs <;> simp
    · dsimp only at hv
      split_ifs at hv <;> simpa [hpc, OwnerPc.call] using hv
  | readStatus hpc =>
    refine ⟨by simp, fun v hv => Or.inr ⟨hpc, ?_⟩, by simp, by simp [hpc]⟩
    simpa [OwnerPc.call] using hv
  | join hpc hvar => exact ⟨by simp, by simp [OwnerPc.call], by simp, by simp [hvar]⟩
  | detach hpc hvar => exact ⟨by simp, by simp [OwnerPc.call], by simp, by simp [hvar]⟩
  | null hpc => exact ⟨by simp [hpc], by simp [hpc, OwnerPc.call], by simp, by simp⟩
  | joinInvalid hpc => exact ⟨by simp [hpc], by simp [hpc, OwnerPc.call], by simp, by simp⟩
  | detachInvalid hpc => exact ⟨by simp [hpc], by simp [hpc, OwnerPc.call], by simp, by simp⟩
  | _ => simp_all [OwnerPc.call]

/-- A failed `pthread_create`, and the steps after it. -/
theorem OwnerStep.discard_cases (hs : OwnerStep w a e w') :
    ¬ w.owner.Discarded ∧ ¬ w'.owner.Discarded ∧ (w.owner = .create → w'.owner = .created) ∨
      (w.owner = .create ∧ (∃ rc, w'.owner = .discard rc) ∧ w'.frees = w.frees ∧ a = .quiet) ∨
      ∃ rc, w.owner = .discard rc ∧ w'.owner = .failed rc ∧ w'.frees = w.frees + 1 := by
  cases hs with
  | @createFailed rc hpc => exact Or.inr (Or.inl ⟨hpc, ⟨rc, rfl⟩, rfl, rfl⟩)
  | @discard rc hpc => exact Or.inr (Or.inr ⟨rc, hpc, rfl, rfl⟩)
  | @joined wanted hpc => cases wanted <;> simp [hpc, OwnerPc.Discarded]
  | @unref call hpc =>
    refine Or.inl ⟨by simp [hpc, OwnerPc.Discarded], ?_, by simp [hpc]⟩
    dsimp only
    split_ifs <;> simp [OwnerPc.Discarded]
  | create hpc =>
    exact Or.inl ⟨by simp [hpc, OwnerPc.Discarded], by simp [OwnerPc.Discarded], by simp⟩
  | _ => simp_all [OwnerPc.Discarded]

/-- The thread exists unless it is not created yet, or `pthread_create` failed. -/
theorem OwnerStep.place (hs : OwnerStep w a e w')
    (h : w.trampoline = .none ↔ w.owner = .create ∨ w.owner.Discarded) :
    w'.trampoline = .none ↔ w'.owner = .create ∨ w'.owner.Discarded := by
  rcases (hs.frame []).2.2 with ⟨heq, hne, hne'⟩ | ⟨hc, hc', hname⟩
  · rw [heq, h]
    rcases hs.discard_cases with ⟨hd, hd', hc⟩ | ⟨hc, ⟨rc, hrc⟩, -⟩ | ⟨rc, hrc, hrc', -⟩
    · exact iff_of_false (fun hw => hw.elim (fun hw => hne' (hc hw)) hd) fun hw => hw.elim hne hd'
    · exact iff_of_true (Or.inl hc) (Or.inr (by rw [hrc]; trivial))
    · exact iff_of_true (Or.inr (by rw [hrc]; trivial)) (Or.inr (by rw [hrc']; trivial))
  · simp [hname, hc', OwnerPc.Discarded]

/-- The frees of a handle whose `pthread_create` failed. -/
theorem OwnerStep.discarded (hs : OwnerStep w a e w') (hcreate : w.owner = .create → w.frees = 0)
    (h : ∀ rc, w.owner = .discard rc → w.frees = 0) :
    (∀ rc, w'.owner = .discard rc → w'.frees = 0) ∧ ∀ rc, w'.owner = .failed rc → w'.frees = 1 := by
  rcases hs.discard_cases with ⟨-, hd', -⟩ | ⟨hc, ⟨rc', hrc'⟩, hfrees, -⟩ | ⟨rc', hd, hrc', hfrees⟩
  · refine ⟨fun rc hrc => absurd ?_ hd', fun rc hrc => absurd ?_ hd'⟩
    · rw [hrc]; trivial
    · rw [hrc]; trivial
  · refine ⟨fun rc _ => hfrees.trans (hcreate hc), fun rc hrc => ?_⟩
    rw [hrc'] at hrc
    cases hrc
  · refine ⟨fun rc hrc => ?_, fun rc _ => by rw [hfrees, h rc' hd]⟩
    rw [hrc'] at hrc
    cases hrc

theorem HandleInv.owner (h : HandleInv tr w) (hs : OwnerStep w a e w') :
    HandleInv (⟨a, e, w⟩ :: tr) w' := by
  obtain ⟨hstatus, hresults, htramp⟩ := hs.frame tr
  obtain ⟨hread, hcall, hret, hidle⟩ := hs.call_cases
  have hcreate : w.owner = .create → w.trampoline = .none := fun hc => h.place.mpr (Or.inl hc)
  have hkeep : w.trampoline = .returned → w'.trampoline = .returned := by
    intro hr
    rcases htramp with ⟨heq, -⟩ | ⟨hc, -⟩
    · exact heq.trans hr
    · exact absurd ((hcreate hc).symm.trans hr) (by simp)
  have hsound : ¬ w.owner.Discarded → ¬ w'.owner.Discarded →
      w.count.Sound ∧ w.count.Step .owner a w'.count :=
    fun hd hd' => ⟨h.sound hd, hs.count h.var hd' hcreate⟩
  have hunfreed : w.owner = .create → w.frees = 0 := by
    intro hc
    have hlive : ¬ w.owner.Discarded := by simp [hc, OwnerPc.Discarded]
    refine (h.sound hlive).frees_of_holds (p := .owner) ?_
    simp [ThreadWorld.count, hc, OwnerPc.share]
  refine ⟨hs.var h.var, fun hd' => ?_, hs.place h.place, hs.discarded hunfreed h.discarded.1, ?_,
    fun hr => ?_, fun v hv => ?_, ?_, fun x hx v hv => ?_, fun x hx => ?_⟩
  · rcases hs.discard_cases with ⟨hd, -, -⟩ | ⟨-, ⟨rc, hrc⟩, -⟩ | ⟨rc, -, hrc, -⟩
    · exact (hsound hd hd').1.step (hsound hd hd').2
    · exact absurd (by rw [hrc]; trivial) hd'
    · exact absurd (by rw [hrc]; trivial) hd'
  · rw [hstatus, hresults]
    rcases htramp with ⟨heq, -⟩ | ⟨hc, -, hname⟩
    · rw [heq]
      exact h.result
    · have hnone := h.result
      rw [hcreate hc] at hnone
      rw [hname]
      exact hnone
  · exact hkeep (hread hr)
  · rw [hstatus]
    rcases hcall v hv with hc | ⟨hc, hv⟩
    · exact ⟨hkeep (h.called v hc).1, (h.called v hc).2⟩
    · exact ⟨hkeep (h.reading hc), hv⟩
  · rintro ⟨x, hx, call, hx'⟩
    rcases List.mem_cons.mp hx with rfl | hx
    · obtain ⟨howner, hidle', hvar'⟩ := hret call hx'
      have hvar := h.var
      rw [howner] at hvar
      exact ⟨hidle', hvar'.trans hvar⟩
    · obtain ⟨hi, hv⟩ := h.consumed ⟨x, hx, call, hx'⟩
      rw [hidle hi hv]
      exact ⟨hi, hv⟩
  · rw [hstatus]
    rcases List.mem_cons.mp hx with rfl | hx
    · obtain ⟨howner, -⟩ := hret _ hv
      obtain ⟨hr, hv⟩ := h.called v (by rw [howner]; rfl)
      exact ⟨hkeep hr, hv⟩
    · exact ⟨hkeep (h.reported x hx v hv).1, (h.reported x hx v hv).2⟩
  · rcases List.mem_cons.mp hx with rfl | hx
    · rcases hs.discard_cases with ⟨hd, hd', -⟩ | ⟨-, -, -, hquiet⟩ | ⟨rc, hd, hd', -⟩
      · have hsafe := (hsound hd hd').2.safe (hsound hd hd').1
        exact ⟨hsafe.1, fun hfree => Or.inl (hsafe.2 hfree)⟩
      · simp [hquiet]
      · exact ⟨fun _ => h.discarded.1 rc hd, fun _ => Or.inr (by rw [hd']; trivial)⟩
    · refine ⟨(h.accesses x hx).1, fun hfree => ((h.accesses x hx).2 hfree).imp_right fun hd => ?_⟩
      rcases hs.discard_cases with ⟨hd', -⟩ | ⟨-, ⟨rc, hrc⟩, -⟩ | ⟨rc, -, hrc, -⟩
      · exact absurd hd hd'
      · rw [hrc]; trivial
      · rw [hrc]; trivial

/-- The invariant holds along every run. -/
theorem ThreadRun.inv (hr : ThreadRun tr w) : HandleInv tr w := by
  induction hr with
  | start =>
    refine ⟨rfl, fun _ => ⟨by decide, by decide⟩, by simp [spawned], by simp [spawned], rfl,
      by simp [spawned], by simp [spawned, OwnerPc.call], ?_, by simp, by simp⟩
    rintro ⟨x, hx, -⟩
    simp at hx
  | trampoline _ hs ih => exact ih.trampoline hs
  | owner _ hs ih => exact ih.owner hs

/-- When `*t` is cleared between the calls and the trampoline has returned, the handle is freed. -/
theorem HandleInv.frees_of_idle (h : HandleInv tr w) (hidle : w.owner = .idle)
    (hvar : w.var = false) (hret : w.trampoline = .returned) : w.frees = 1 := by
  have hlive : ¬ w.owner.Discarded := by simp [hidle, OwnerPc.Discarded]
  refine (h.sound hlive).frees_of_gone fun p => ?_
  cases p with
  | owner => simp [ThreadWorld.count, hidle, hvar, OwnerPc.share]
  | trampoline => simp [ThreadWorld.count, hret, TrampolinePc.share]

/-- A join that `pthread_join` granted reads the status exactly if there is a place for it. -/
def Wanted (tr : List ThreadExec) (w : ThreadWorld) : Prop :=
  (w.owner = .readStatus → lastWanted tr = some true) ∧
    ∀ r, w.owner.call = some (.join r) → lastWanted tr = some r.isSome

/-- Outside of `pthread_join` a step does not matter for what the last join wanted. -/
theorem lastWanted_cons (h : ∀ wanted, w.owner ≠ .joining wanted) :
    lastWanted (⟨a, e, w⟩ :: tr) = lastWanted tr := by
  cases hw : w.owner with
  | joining wanted => exact absurd hw (h wanted)
  | _ => simp [lastWanted, hw]

/-- A step outside of `pthread_join` that goes on with the same call. -/
theorem Wanted.keep (h : Wanted tr w) (hjoin : ∀ wanted, w.owner ≠ .joining wanted)
    (hread : w'.owner = .readStatus → w.owner = .readStatus)
    (hcall : w'.owner.call = w.owner.call) : Wanted (⟨a, e, w⟩ :: tr) w' := by
  unfold Wanted
  rw [lastWanted_cons hjoin, hcall]
  exact h.imp_left fun hr hw => hr (hread hw)

theorem Wanted.trampoline (h : Wanted tr w) (hs : TrampolineStep w a e w') :
    Wanted (⟨a, e, w⟩ :: tr) w' := by
  obtain ⟨howner, -⟩ := hs.frame
  by_cases hjoin : ∃ wanted, w.owner = .joining wanted
  · obtain ⟨wanted, hw⟩ := hjoin
    simp [Wanted, howner, hw, OwnerPc.call]
  · exact h.keep (not_exists.mp hjoin) (fun hr => howner ▸ hr) (by rw [howner])

theorem Wanted.owner (h : Wanted tr w) (hs : OwnerStep w a e w') :
    Wanted (⟨a, e, w⟩ :: tr) w' := by
  cases hs with
  | @joined wanted hpc =>
    have hlast : lastWanted (⟨.quiet, .silent, w⟩ :: tr) = some wanted := by
      simp [lastWanted, hpc]
    unfold Wanted
    rw [hlast]
    cases wanted <;> simp [OwnerPc.call]
  | readStatus hpc =>
    unfold Wanted
    rw [lastWanted_cons (by simp [hpc]), h.1 hpc]
    simp [OwnerPc.call]
  | clear hpc | free hpc => exact h.keep (by simp [hpc]) (by simp) (by rw [hpc]; rfl)
  | unref hpc =>
    refine h.keep (by simp [hpc]) ?_ ?_
    · dsimp only
      split_ifs <;> simp
    · rw [hpc]
      dsimp only
      split_ifs <;> rfl
  | null hpc | joinInvalid hpc | detachInvalid hpc => simp [Wanted, hpc, OwnerPc.call]
  | _ => simp [Wanted, OwnerPc.call]

/-- A join that returned `0` reported a status exactly if there was a place for it. -/
theorem ThreadRun.reports (hr : ThreadRun tr w) : Wanted tr w ∧
    ∀ x tr', x :: tr' <:+ tr → ∀ r, x.event = .returned (.join r) none →
      lastWanted tr' = some r.isSome := by
  induction hr with
  | start => exact ⟨by simp [Wanted, spawned, OwnerPc.call], by simp⟩
  | trampoline hr hs ih =>
    refine ⟨ih.1.trampoline hs, fun x tr' hx r hret => ?_⟩
    rcases List.suffix_cons_iff.mp hx with heq | hx
    · obtain ⟨rfl, rfl⟩ := List.cons.inj heq
      exact absurd hret (hs.frame.2.2.2.2.2 _ _)
    · exact ih.2 x tr' hx r hret
  | owner hr hs ih =>
    refine ⟨ih.1.owner hs, fun x tr' hx r hret => ?_⟩
    rcases List.suffix_cons_iff.mp hx with heq | hx
    · obtain ⟨rfl, rfl⟩ := List.cons.inj heq
      obtain ⟨howner, -⟩ := hs.call_cases.2.2.1 _ hret
      exact ih.1.2 r (by rw [howner]; rfl)
    · exact ih.2 x tr' hx r hret

/-- The lifetime of the handle of every spawned thread, in every run. It is freed at most once, and
only when both references are dropped; no step reads, writes or frees it after it is freed; when a
join or a detach has returned `0` and the trampoline has returned, it is freed; a join that returned
`0` has reported a status exactly if there was a place for it, and then the one that the entry
returned. -/
theorem handle_lifetime (hr : ThreadRun tr w) (hspawned : w.trampoline ≠ .none) :
    w.frees ≤ 1 ∧ (0 < w.frees → w.handle.refs = 0) ∧
      (∀ x ∈ tr, (x.access ≠ .quiet → x.pre.frees = 0) ∧
        (x.access = .free →
          x.pre.handle.refs = 0 ∧ ∀ p, x.pre.count.share p ≠ .holds)) ∧
      (Consumed tr → w.trampoline = .returned → w.frees = 1) ∧
      (∀ x ∈ tr, ∀ v, x.event = .returned (.join (some v)) none → entryResults tr = [v]) ∧
      ∀ x tr', x :: tr' <:+ tr → ∀ r, x.event = .returned (.join r) none →
        lastWanted tr' = some r.isSome := by
  have h := hr.inv
  have hlive : ¬ w.owner.Discarded := fun hd => hspawned (h.place.mpr (Or.inr hd))
  have hsound := h.sound hlive
  refine ⟨hsound.frees_le.1, hsound.frees_le.2, fun x hx => ?_, fun hc hret => ?_,
    fun x hx v hv => ?_, hr.reports.2⟩
  · obtain ⟨hfreed, hfree⟩ := h.accesses x hx
    exact ⟨hfreed, fun hx' => (hfree hx').resolve_right hlive⟩
  · obtain ⟨hidle, hvar⟩ := h.consumed hc
    exact h.frees_of_idle hidle hvar hret
  · obtain ⟨hret, hv⟩ := h.reported x hx v hv
    have hresult := h.result
    rw [hret, hv] at hresult
    exact hresult

end Invariant

/-! ### A join after a failed one -/

/-- The trampoline returns before the handle is published; the first `pthread_join` fails, and the
second join reports the status. -/
theorem run_joinTwice : ∃ tr w, ThreadRun tr w ∧ w.trampoline = .returned ∧ Consumed tr ∧
    ∃ x ∈ tr, x.event = .returned (.join (some 5)) none := by
  have h := ThreadRun.start
  have h := h.owner (.create rfl)
  have h := h.trampoline (.name rfl)
  have h := h.trampoline (.entry rfl)
  have h := h.trampoline (.entryReturned (v := 5) rfl)
  have h := h.trampoline (.store rfl)
  have h := h.trampoline (.unref rfl)
  have h := h.trampoline (.ret rfl)
  have h := h.owner (.created rfl)
  have h := h.owner (.publish rfl)
  have h := h.owner (@OwnerStep.join _ false rfl rfl rfl)
  have h := h.owner (.joinPt rfl)
  have h := h.owner (@OwnerStep.joinFailed _ false .EINVAL rfl)
  have h := h.owner (.rollback rfl)
  have h := h.owner (@OwnerStep.join _ true rfl rfl rfl)
  have h := h.owner (.joinPt rfl)
  have h := h.owner (.joined rfl rfl)
  have h := h.owner (.readStatus rfl)
  have h := h.owner (.clear rfl)
  have h := h.owner (.unref rfl)
  have h := h.owner (.free rfl)
  have h := h.owner (.ret rfl)
  exact ⟨_, _, h, rfl, ⟨_, List.mem_cons_self, _, rfl⟩, _, List.mem_cons_self, rfl⟩

theorem handle_lifetime_join : ∃ tr w, ThreadRun tr w ∧ w.trampoline = .returned ∧ w.frees = 1 ∧
    entryResults tr = [5] := by
  obtain ⟨tr, w, h, hret, hc, x, hx, hv⟩ := run_joinTwice
  obtain ⟨-, -, -, hfrees, hresult, -⟩ := handle_lifetime h (by simp [hret])
  exact ⟨tr, w, h, hret, hfrees hc hret, hresult x hx 5 hv⟩

end MojitoSys.Thread
