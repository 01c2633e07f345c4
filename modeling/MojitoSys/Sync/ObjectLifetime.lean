import MojitoSys.Sync.Destroy
import MojitoSys.Util.Ledger
import Mathlib.Data.Multiset.Filter
import Mathlib.Logic.Relation
import Mathlib.Tactic.Abel

/-!
# The memory of the synchronisation objects

The constructors and destructors of `mjs_mutex.c`, `mjs_condvar.c`, `mjs_sem.c` and `mjs_event.c`
with the heap blocks and the objects of the platform that they acquire and give back. A semaphore
or an event owns a mutex and a condition variable; its constructor gives back what it has when a
later part fails, and its destructor gives them back in two stages, of which each may fail. The
checks for `NULL` arguments, which come before everything else, are left out.

## Main definitions

* `SyncObj`: a handle, with what it owns.
* `mjsMutexInit`, `mjsCondvarInit`, `mjsSemInit`, `mjsEventInit`: the constructors.
* `SyncObj.destroy`: the destructors.
* `ObjectRun`: any constructors and destructors in any order, on any number of objects.

## Main results

* `tokenInit_leaves`, `destroy_releases`: what one call acquires and gives back.
* `SyncObj.destroy_token`: the destructors are those of the monitors.
* `objects_accounted`: what is held in a run is what the live objects own.
-/

namespace MojitoSys.Sync

open Util.Ledger

/-! ### Constructors -/

/-- What the objects own: heap blocks, with the address, and what the platform has in them. -/
inductive SyncResource
  | block (p : ℕ)
  | mutex (p : ℕ)
  | cond (p : ℕ)
  /-- The attribute object of a constructor. -/
  | condattr
  deriving DecidableEq, Repr

/-- The log of a call. -/
abbrev SyncLog := List (Entry SyncResource)

/-- How a constructor ends: its status, the handle that it stores to `*out`, if any, and its log. -/
structure InitEnded (α : Type*) where
  status : Status
  out : Option α
  log : SyncLog

/-- The answers of the system in a constructor of a condition variable. -/
structure CondAnswers where
  /-- The block of `malloc`; `none` for `NULL`. -/
  malloc : Option ℕ
  attrInit : Status
  setclock : Status
  condInit : Status

/-- `mjs_mutex_init`, for the block of `malloc` and the result of `pthread_mutex_init`. -/
def mjsMutexInit (malloc : Option ℕ) (rc : Status) : InitEnded ℕ :=
  match malloc with
  | none => ⟨some .ENOMEM, none, []⟩
  | some m =>
    let log : SyncLog := [.acquire (.block m)]
    match rc with
    | some e => ⟨some e, none, log ++ [.release (.block m)]⟩
    | none => ⟨none, some m, log ++ [.acquire (.mutex m)]⟩

/-- `mjs_condvar_init` on macOS. -/
def mjsCondvarInitMacos (a : CondAnswers) : InitEnded ℕ :=
  match a.malloc with
  | none => ⟨some .ENOMEM, none, []⟩
  | some c =>
    let log : SyncLog := [.acquire (.block c)]
    match a.condInit with
    | some e => ⟨some e, none, log ++ [.release (.block c)]⟩
    | none => ⟨none, some c, log ++ [.acquire (.cond c)]⟩

/-- `mjs_condvar_init` on Linux, where the clock is an attribute. -/
def mjsCondvarInitLinux (a : CondAnswers) : InitEnded ℕ :=
  match a.malloc with
  | none => ⟨some .ENOMEM, none, []⟩
  | some c =>
    let log : SyncLog := [.acquire (.block c)]
    match a.attrInit with
    | some e => ⟨some e, none, log ++ [.release (.block c)]⟩
    | none =>
      let log := log ++ [.acquire .condattr]
      match a.setclock with
      | some e => ⟨some e, none, log ++ [.release .condattr, .release (.block c)]⟩
      | none =>
        match a.condInit with
        | some e => ⟨some e, none, log ++ [.release .condattr, .release (.block c)]⟩
        | none => ⟨none, some c, log ++ [.acquire (.cond c), .release .condattr]⟩

/-- `mjs_condvar_init`. -/
def mjsCondvarInit (macos : Bool) (a : CondAnswers) : InitEnded ℕ :=
  if macos then mjsCondvarInitMacos a else mjsCondvarInitLinux a

/-- A handle, with the pointers that are not `NULL`. -/
inductive SyncObj
  | mutex (p : ℕ)
  | condvar (p : ℕ)
  /-- A semaphore or an event. -/
  | token (p : ℕ) (m cv : Option ℕ)
  deriving DecidableEq, Repr

/-- What the handle of a mutex owns. -/
def innerMutex (m : Option ℕ) : List SyncResource := m.elim [] fun p => [.mutex p, .block p]

/-- What the handle of a condition variable owns. -/
def innerCond (cv : Option ℕ) : List SyncResource := cv.elim [] fun p => [.cond p, .block p]

/-- What a handle owns. -/
def SyncObj.resources : SyncObj → List SyncResource
  | mutex p => innerMutex (some p)
  | condvar p => innerCond (some p)
  | token p m cv => innerCond cv ++ innerMutex m ++ [.block p]

/-- The log of `pthread_mutex_destroy` and of the `free` after it, when a mutex is destroyed. -/
def mutexDestroyLog (rc : Status) (m : Option ℕ) : SyncLog :=
  if rc ≠ none then [] else (innerMutex m).map .release

/-- The log of `pthread_cond_destroy` and of the `free` after it. -/
def condDestroyLog (rc : Status) (cv : Option ℕ) : SyncLog :=
  if rc ≠ none then [] else (innerCond cv).map .release

/-- The answers of the system in a constructor of a semaphore or an event. -/
structure TokenAnswers where
  malloc : Option ℕ
  mutexMalloc : Option ℕ
  mutexInit : Status
  cond : CondAnswers
  /-- `pthread_mutex_destroy` in the unwinding. -/
  mutexDestroy : Status

/-- The common part of the two constructors. -/
def tokenInit (macos : Bool) (a : TokenAnswers) : InitEnded SyncObj :=
  match a.malloc with
  | none => ⟨some .ENOMEM, none, []⟩
  | some s =>
    let log : SyncLog := [.acquire (.block s)]
    let m := mjsMutexInit a.mutexMalloc a.mutexInit
    let log := log ++ m.log
    match m.status with
    | some e => ⟨some e, none, log ++ [.release (.block s)]⟩
    | none =>
      let cv := mjsCondvarInit macos a.cond
      let log := log ++ cv.log
      match cv.status with
      | some e =>
        ⟨some e, none, log ++ mutexDestroyLog a.mutexDestroy m.out ++ [.release (.block s)]⟩
      | none => ⟨none, some (.token s m.out cv.out), log⟩

/-- `mjs_sem_init`. -/
def mjsSemInit (macos : Bool) (initial : ℤ) (a : TokenAnswers) : InitEnded SyncObj :=
  if initial < 0 then ⟨some .EINVAL, none, []⟩ else tokenInit macos a

/-- `mjs_event_init`. -/
def mjsEventInit (macos : Bool) (a : TokenAnswers) : InitEnded SyncObj := tokenInit macos a

/-- The constructors, with the answers of the system. -/
inductive InitCall
  | mutex (malloc : Option ℕ) (rc : Status)
  | condvar (a : CondAnswers)
  | sem (initial : ℤ) (a : TokenAnswers)
  | event (a : TokenAnswers)

/-- A constructor, with the handle that it makes. -/
def InitCall.exec (macos : Bool) : InitCall → InitEnded SyncObj
  | mutex malloc rc =>
    let r := mjsMutexInit malloc rc
    ⟨r.status, r.out.map .mutex, r.log⟩
  | condvar a =>
    let r := mjsCondvarInit macos a
    ⟨r.status, r.out.map .condvar, r.log⟩
  | sem initial a => mjsSemInit macos initial a
  | event a => mjsEventInit macos a

/-! ### Destructors -/

/-- A destructor: its status, the handle that is left, and its log. -/
def SyncObj.destroy (a : DestroyAnswers) : SyncObj → Status × Option SyncObj × SyncLog
  | mutex p =>
    let r := mjsMutexDestroy a.mutex (some p)
    (r.1, r.2.map .mutex, mutexDestroyLog a.mutex (some p))
  | condvar p =>
    let r := mjsCondvarDestroy a.cond (some p)
    (r.1, r.2.map .condvar, condDestroyLog a.cond (some p))
  | token p m cv =>
    match mjsCondvarDestroy a.cond cv with
    | (some e, cv') => (some e, some (.token p m cv'), condDestroyLog a.cond cv)
    | (none, cv') =>
      match mjsMutexDestroy a.mutex m with
      | (some e, m') => (some e, some (.token p m' cv'), condDestroyLog a.cond cv)
      | (none, _) =>
        (none, none, condDestroyLog a.cond cv ++ mutexDestroyLog a.mutex m ++
          [.release (.block p)])

/-! ### Runs -/

/-- The mutex that a constructor loses when its unwinding cannot destroy it. -/
def TokenAnswers.leaks (macos : Bool) (a : TokenAnswers) : List SyncResource :=
  if a.malloc ≠ none ∧ (mjsCondvarInit macos a.cond).status ≠ none ∧ a.mutexDestroy ≠ none then
    innerMutex (mjsMutexInit a.mutexMalloc a.mutexInit).out
  else []

/-- What a constructor loses. -/
def InitCall.leaks (macos : Bool) : InitCall → List SyncResource
  | mutex _ _ | condvar _ => []
  | sem initial a => if initial < 0 then [] else a.leaks macos
  | event a => a.leaks macos

/-- The live handles, what constructors lost, and the log. -/
structure Objects where
  live : List SyncObj
  lost : List SyncResource
  log : SyncLog

namespace Objects

/-- Before the first constructor. -/
def empty : Objects := ⟨[], [], []⟩

/-- What the live handles own, and what was lost. -/
def held (w : Objects) : Multiset SyncResource := ↑(w.live.flatMap SyncObj.resources ++ w.lost)

end Objects

/-- The addresses of heap blocks. -/
def blocks (held : Multiset SyncResource) : Multiset ℕ :=
  held.filterMap fun
    | .block p => some p
    | _ => none

/-- A constructor, whose blocks are not allocated yet, or a destructor of a live handle. -/
inductive ObjectStep (macos : Bool) (w : Objects) : Objects → Prop
  | init (c : InitCall) (hfresh : (blocks (acquired (c.exec macos).log + w.held)).Nodup) :
    ObjectStep macos w
      ⟨w.live ++ (c.exec macos).out.toList, w.lost ++ c.leaks macos, w.log ++ (c.exec macos).log⟩
  | destroy {l r : List SyncObj} {o : SyncObj} (a : DestroyAnswers) (hlive : w.live = l ++ o :: r) :
    ObjectStep macos w
      ⟨l ++ (o.destroy a).2.1.toList ++ r, w.lost, w.log ++ (o.destroy a).2.2⟩

/-- The runs. -/
abbrev ObjectRun (macos : Bool) : Objects → Objects → Prop :=
  Relation.ReflTransGen (ObjectStep macos)

/-! ### One call -/

section Calls

variable {macos : Bool}

/-- What a constructor leaves: a handle with what it owns, or nothing. -/
def InitEnded.Owns {α : Type*} (r : InitEnded α) (own : α → List SyncResource) : Prop :=
  (∃ e, r.status = some e ∧ r.out = none ∧ Balanced r.log) ∨
    ∃ x, r.status = none ∧ r.out = some x ∧ Leaves r.log (own x)

theorem mutexInit_owns (malloc : Option ℕ) (rc : Status) :
    (mjsMutexInit malloc rc).Owns fun p => innerMutex (some p) := by
  cases malloc with
  | none => exact Or.inl ⟨_, rfl, rfl, .nil⟩
  | some m =>
    have hblock := leaves_acquire [SyncResource.block m]
    cases rc with
    | none =>
      have hmutex := hblock.append (leaves_acquire [SyncResource.mutex m])
      exact Or.inr ⟨m, rfl, rfl, hmutex.perm (.swap ..)⟩
    | some e => exact Or.inl ⟨e, rfl, rfl, hblock.release (.refl _)⟩

theorem condvarInit_owns (macos : Bool) (a : CondAnswers) :
    (mjsCondvarInit macos a).Owns fun p => innerCond (some p) := by
  obtain ⟨malloc, attrInit, setclock, condInit⟩ := a
  cases malloc with
  | none => cases macos <;> exact Or.inl ⟨_, rfl, rfl, .nil⟩
  | some c =>
    have hblock := leaves_acquire [SyncResource.block c]
    have hcond := leaves_acquire [SyncResource.cond c]
    cases macos with
    | true =>
      cases condInit with
      | none => exact Or.inr ⟨c, rfl, rfl, (hblock.append hcond).perm (.swap ..)⟩
      | some e => exact Or.inl ⟨e, rfl, rfl, hblock.release (.refl _)⟩
    | false =>
      cases attrInit with
      | some e => exact Or.inl ⟨e, rfl, rfl, hblock.release (.refl _)⟩
      | none =>
        have hattr := hblock.append (leaves_acquire [SyncResource.condattr])
        cases setclock with
        | some e => exact Or.inl ⟨e, rfl, rfl, hattr.release (.swap ..)⟩
        | none =>
          cases condInit with
          | some e => exact Or.inl ⟨e, rfl, rfl, hattr.release (.swap ..)⟩
          | none =>
            have hall : Leaves _ ([SyncResource.condattr] ++ innerCond (some c)) :=
              (hattr.append hcond).perm
                (List.perm_append_singleton (SyncResource.block c) [.condattr, .cond c])
            exact Or.inr ⟨c, rfl, rfl, hall.release_part [SyncResource.condattr]⟩

/-- A constructor of a semaphore or an event leaves what its handle owns. Without a handle it leaves
nothing, or the mutex that it could not destroy. -/
theorem tokenInit_leaves (a : TokenAnswers) :
    Leaves (tokenInit macos a).log
      ((tokenInit macos a).out.toList.flatMap SyncObj.resources ++ a.leaks macos) := by
  cases hmalloc : a.malloc with
  | none => simpa [tokenInit, TokenAnswers.leaks, hmalloc, Util.Ledger.Balanced] using Balanced.nil
  | some s =>
    have hs := leaves_acquire [SyncResource.block s]
    rcases mutexInit_owns a.mutexMalloc a.mutexInit with ⟨e, hrc, hout, hlog⟩ |
      ⟨m, hrc, hout, hlog⟩
    · have hfree := (hs.append_balanced hlog).release (.refl _)
      simpa [tokenInit, TokenAnswers.leaks, hmalloc, hrc, hout, innerMutex, Util.Ledger.Balanced]
        using hfree
    · have hm := hs.append hlog
      rcases condvarInit_owns macos a.cond with ⟨e, hcrc, hcout, hclog⟩ |
        ⟨c, hcrc, hcout, hclog⟩
      · have hlogs := (hm.append_balanced hclog).perm List.perm_append_comm
        by_cases hd : a.mutexDestroy = none
        · have hfree := (hlogs.release_part _).release (.refl _)
          simpa [tokenInit, TokenAnswers.leaks, mutexDestroyLog, hmalloc, hrc, hout, hcrc, hd,
            Util.Ledger.Balanced] using hfree
        · have hfree := (hm.append_balanced hclog).release_part _
          simpa [tokenInit, TokenAnswers.leaks, mutexDestroyLog, hmalloc, hrc, hout, hcrc, hd]
            using hfree
      · have hperm : (innerCond (some c) ++ innerMutex (some m) ++ [SyncResource.block s]).Perm
            ([.block s] ++ innerMutex (some m) ++ innerCond (some c)) := by
          rw [List.append_assoc [SyncResource.block s]]
          exact List.perm_append_comm.trans (List.perm_append_comm.append_left _)
        have hall := (hm.append hclog).perm hperm
        simpa [tokenInit, TokenAnswers.leaks, SyncObj.resources, hmalloc, hrc, hout, hcrc, hcout]
          using hall

theorem InitCall.exec_leaves (c : InitCall) :
    Leaves (c.exec macos).log
      ((c.exec macos).out.toList.flatMap SyncObj.resources ++ c.leaks macos) := by
  cases c with
  | mutex malloc rc =>
    rcases mutexInit_owns malloc rc with ⟨e, -, hout, hlog⟩ | ⟨m, -, hout, hlog⟩
    · simpa [exec, leaks, hout, Util.Ledger.Balanced] using hlog
    · simpa [exec, leaks, hout, SyncObj.resources] using hlog
  | condvar a =>
    rcases condvarInit_owns macos a with ⟨e, -, hout, hlog⟩ | ⟨m, -, hout, hlog⟩
    · simpa [exec, leaks, hout, Util.Ledger.Balanced] using hlog
    · simpa [exec, leaks, hout, SyncObj.resources] using hlog
  | sem initial a =>
    by_cases hinitial : initial < 0
    · simpa [exec, leaks, mjsSemInit, hinitial, Util.Ledger.Balanced] using Balanced.nil
    · simpa [exec, leaks, mjsSemInit, hinitial] using tokenInit_leaves a
  | event a => exact tokenInit_leaves a

/-- A destructor gives back what is no longer owned after it. -/
theorem destroy_releases (a : DestroyAnswers) (o : SyncObj) :
    ∃ l, (o.destroy a).2.2 = l.map .release ∧
      (l ++ (o.destroy a).2.1.toList.flatMap SyncObj.resources).Perm o.resources := by
  obtain ⟨cond, mutex⟩ := a
  cases o with
  | mutex p =>
    cases mutex with
    | none => exact ⟨innerMutex (some p), rfl, .refl _⟩
    | some e => exact ⟨[], rfl, .refl _⟩
  | condvar p =>
    cases cond with
    | none => exact ⟨innerCond (some p), rfl, .refl _⟩
    | some e => exact ⟨[], rfl, .refl _⟩
  | token p m cv =>
    have hlost (rc : Status) : mjsCondvarDestroy rc none = (some .EINVAL, none) := rfl
    have hkept (e : Errno) (c : ℕ) : mjsCondvarDestroy (some e) (some c) = (some e, some c) := rfl
    cases cv with
    | none => cases cond <;> exact ⟨[], rfl, by simp [SyncObj.destroy, hlost]⟩
    | some c =>
      cases cond with
      | some e => exact ⟨[], rfl, by simp [SyncObj.destroy, hkept]⟩
      | none =>
        cases m with
        | none => exact ⟨innerCond (some c), rfl, .refl _⟩
        | some q =>
          cases mutex with
          | some e => exact ⟨innerCond (some c), rfl, .refl _⟩
          | none =>
            exact ⟨innerCond (some c) ++ innerMutex (some q) ++ [.block p], rfl, .refl _⟩

end Calls

/-- The destructors of a semaphore and an event do to the pointers what `tokenDestroy` does to the
monitor. -/
theorem SyncObj.destroy_token {P : Type*} (a : DestroyAnswers) (p : ℕ) (o : TokenObj P) :
    ((token p o.m o.cv).destroy a).1 = (tokenDestroy a (some o)).1 ∧
      ((token p o.m o.cv).destroy a).2.1 =
        (tokenDestroy a (some o)).2.map fun o' => token p o'.m o'.cv := by
  obtain ⟨m, cv, mon⟩ := o
  simp only [destroy, tokenDestroy]
  rcases mjsCondvarDestroy a.cond cv with ⟨_ | e, cv'⟩
  · rcases mjsMutexDestroy a.mutex m with ⟨_ | e, m'⟩
    · exact ⟨rfl, rfl⟩
    · exact ⟨rfl, rfl⟩
  · exact ⟨rfl, rfl⟩

/-! ### What a run holds -/

section Runs

variable {macos : Bool} {w w' : Objects}

/-- A step extends the log by what it acquires and gives back. -/
theorem ObjectStep.log_replay (hs : ObjectStep macos w w') :
    ∃ es, w'.log = w.log ++ es ∧ replay es w.held = some w'.held ∧
      ((blocks w.held).Nodup → (blocks (acquired es + w.held)).Nodup) := by
  cases hs with
  | init c hfresh =>
    refine ⟨_, rfl, ?_, fun _ => hfresh⟩
    rw [c.exec_leaves w.held]
    simp only [Objects.held, List.flatMap_append, ← Multiset.coe_add]
    congr 1
    abel
  | @destroy l r o a hlive =>
    obtain ⟨gone, hlog, hperm⟩ := destroy_releases a o
    have hheld : w.held = ↑gone +
        Objects.held ⟨l ++ (o.destroy a).2.1.toList ++ r, w.lost, w.log ++ (o.destroy a).2.2⟩ := by
      simp only [Objects.held, hlive, List.flatMap_append, List.flatMap_cons, ← Multiset.coe_add,
        ← Multiset.coe_eq_coe.mpr hperm]
      abel
    refine ⟨_, rfl, ?_, fun hnodup => ?_⟩
    · rw [hlog, hheld]
      exact replay_release gone
    · rwa [hlog, acquired_release, Multiset.zero_add]

theorem ObjectRun.log_replay (hr : ObjectRun macos .empty w) :
    replay w.log 0 = some w.held ∧ (blocks w.held).Nodup := by
  induction hr with
  | refl => exact ⟨rfl, Multiset.nodup_zero⟩
  | @tail w₁ w₂ _ hs ih =>
    obtain ⟨hreplay, hnodup⟩ := ih
    obtain ⟨es, hlog, hes, hfresh⟩ := hs.log_replay
    have hle : w₂.held ≤ acquired es + w₁.held := by
      rw [acquired_add hes]
      exact Multiset.le_add_left ..
    refine ⟨?_, Multiset.nodup_of_le (Multiset.filterMap_le_filterMap _ hle) (hfresh hnodup)⟩
    rw [hlog, replay_append, hreplay, Option.bind_some, hes]

/-- A handle that has lost its condition variable stays. -/
theorem ObjectStep.mem_live {p : ℕ} {m : Option ℕ} (hs : ObjectStep macos w w')
    (h : .token p m none ∈ w.live) : .token p m none ∈ w'.live := by
  cases hs with
  | init c hfresh => exact List.mem_append_left _ h
  | @destroy l r o a hlive =>
    have hkept : o = .token p m none → o ∈ (o.destroy a).2.1 := by
      rintro rfl
      rfl
    simp only [hlive, List.mem_append, List.mem_cons] at h
    simp only [List.mem_append, Option.mem_toList]
    rcases h with h | rfl | h
    · exact Or.inl (Or.inl h)
    · exact Or.inl (Or.inr (hkept rfl))
    · exact Or.inr h

theorem SyncObj.resources_le_held {o : SyncObj} (h : o ∈ w.live) : ↑o.resources ≤ w.held := by
  obtain ⟨l, r, hlive⟩ := List.append_of_mem h
  simp only [Objects.held, hlive, List.flatMap_append, List.flatMap_cons, ← Multiset.coe_add]
  have hle : (↑o.resources : Multiset SyncResource) ≤
      ↑(l.flatMap SyncObj.resources) + (↑o.resources + ↑(r.flatMap SyncObj.resources)) :=
    (Multiset.le_add_right ..).trans (Multiset.le_add_left ..)
  exact hle.trans (Multiset.le_add_right ..)

/-- In every run the resources that were acquired and not given back are those of the live handles
and the mutexes that constructors lost. Nothing is given back that is not held, no block belongs to
two handles, and a handle that lost its condition variable keeps its mutex and its block. -/
theorem objects_accounted (hr : ObjectRun macos .empty w) :
    replay w.log 0 = some w.held ∧ (blocks w.held).Nodup ∧
      acquired w.log = released w.log + w.held ∧
      ∀ w', ObjectRun macos w w' → ∀ p m, .token p m none ∈ w.live →
        .token p m none ∈ w'.live ∧ ↑(SyncObj.token p m none).resources ≤ w'.held := by
  obtain ⟨hreplay, hnodup⟩ := hr.log_replay
  refine ⟨hreplay, hnodup, by simpa using acquired_add hreplay, fun w' hr' p m hmem => ?_⟩
  have hlive : .token p m none ∈ w'.live := by
    induction hr' with
    | refl => exact hmem
    | tail _ hs ih => exact hs.mem_live ih
  exact ⟨hlive, SyncObj.resources_le_held hlive⟩

/-- The answers of a system that refuses nothing. -/
def granted : TokenAnswers := ⟨some 1, some 2, none, ⟨some 3, none, none, none⟩, none⟩

/-- An event whose mutex could not be destroyed keeps it, whatever comes after. -/
theorem objects_accounted_event : ∃ w, ObjectRun false .empty w ∧
    replay w.log 0 = some ↑[SyncResource.mutex 2, .block 2, .block 1] ∧
      ∀ w', ObjectRun false w w' → .token 1 (some 2) none ∈ w'.live := by
  have hr : ObjectRun false .empty _ :=
    (Relation.ReflTransGen.single (.init (.event granted) (by decide))).tail
      (.destroy (l := []) (r := []) ⟨none, some .EBUSY⟩ rfl)
  obtain ⟨hreplay, -, -, hkeep⟩ := objects_accounted hr
  exact ⟨_, hr, hreplay, fun w' hr' => (hkeep w' hr' 1 (some 2) List.mem_cons_self).1⟩

end Runs

end MojitoSys.Sync
