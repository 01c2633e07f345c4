import MojitoSys.Ctx.Lifecycle
import MojitoSys.Status

/-!
# The wrapper `NativeContext`

`context.mojo` wraps the context records. A `NativeContext` value points to two heap blocks, the
native record and a cookie, in which the wrapper keeps a lifecycle of its own. The cookie is the
argument that the record passes to the wrapper's two trampolines: `mjs_ctx_entry` writes `RUNNING`
and calls the caller's entry, `mjs_ctx_finish` writes `FINISHED`, counts the completion and calls
the caller's hook.

The `from` of a switch is any value, not only the context whose code runs, so the running code is
named by the trampoline frame that it stands on (`Frame`), and a record saves the place inside the
wrapper call that it returns to (`Place`). A second return of `re_capture` runs the rest of its
body again.

The memory of a block that is not allocated is arbitrary: a captured record has whatever return
target and hook were in the block.

## Main definitions

* `WrapState`, `Cookie`, `NativeContext`, `NativeContext.state`.
* `Frame`, `Place`, `NativeRecord`, `NativeWorld`.
* `NativeWorld.nativeSwitch`: `ms_context_switch`.
* `NativeWorld.create`, `NativeWorld.captureCurrent`, `NativeWorld.switch`, `NativeWorld.destroy`,
  `NativeWorld.reCapture`, `NativeWorld.setFinishHook`: the wrapper calls.
* `NativeWorld.entryReturn`, `NativeWorld.hookReturn`, `NativeWorld.leave`: the completion.
* `NativeCall`, `NativeStep`, `NativeRun`.
* `NativeWorld.SwitchGuarded`: the contract of `switch` on misuse.

## Main results

* `NativeWorld.nativeSwitch_toWorld`: a native switch is a switch of the lifecycle.
* `switch_guarded_iff`: when `switch` meets its contract.
-/

namespace MojitoSys.Ctx

/-- The wrapper lifecycle states `ST_*`. -/
inductive WrapState
  | dead
  | armed
  | running
  | suspended
  | finished
  deriving DecidableEq, Repr

/-- The cells of the cookie. -/
structure Cookie where
  /-- `C_ENTRY`. -/
  entry : Word
  /-- `C_ARG`. -/
  arg : Word
  /-- `C_STATE`. -/
  state : WrapState
  /-- `C_HOOK`, `0` for no hook. -/
  hook : Word
  /-- `C_HOOK_ARG`. -/
  hookArg : Word
  /-- `C_STAMP`. -/
  stamp : Word
  deriving DecidableEq, Repr

/-- `_alloc_cookie`. -/
def allocCookie : Cookie := ⟨0, 0, .dead, 0, 0, 0⟩

/-- A `NativeContext` value. -/
structure NativeContext (C : Type*) where
  /-- The two blocks; `none` for null pointers. -/
  ctx : Option C
  live : Bool
  deriving DecidableEq, Repr

/-- The code that runs, named by the trampoline frame below it. -/
inductive Frame (C : Type*)
  /-- Code of the thread itself. -/
  | host
  /-- The caller's entry of the context. -/
  | entry (c : C)
  /-- The caller's finish hook of the context. -/
  | hook (c : C)
  /-- The trampoline of the context, past the completion stage. -/
  | done (c : C)
  deriving DecidableEq, Repr

/-- The place that a save area holds. -/
inductive Place (C : Type*)
  /-- Zeroed registers. -/
  | blank
  /-- The exit trampoline of the context, before its entry. -/
  | fresh (c : C)
  /-- Inside a `switch` or a `capture_current`, which then returns to the code. -/
  | call (f : Frame C)
  /-- Inside the `re_capture` of the context, after its `ms_context_capture`. -/
  | reCapture (c : C) (f : Frame C)
  /-- The guard `brk` of the trampoline. -/
  | guard
  deriving DecidableEq, Repr

/-- A native record under the wrapper. -/
structure NativeRecord (C : Type*) where
  state : CtxState
  retTo : Option C
  /-- `mjs_ctx_finish` is registered, with the cookie of the context. -/
  finishHook : Bool
  saved : Place C
  deriving DecidableEq, Repr

/-- The heap blocks and the running code of one OS thread. -/
structure NativeWorld (C : Type*) where
  record : C → NativeRecord C
  cookie : C → Cookie
  /-- The blocks of the context are allocated. -/
  allocated : C → Bool
  frame : Frame C

/-- How a wrapper call ends. -/
inductive Outcome (C : Type*)
  /-- Control is back in the caller's code. -/
  | returned (w : NativeWorld C)
  | raised (e : Errno) (w : NativeWorld C)
  | fault (fault : Fault)
  /-- A write through a null cookie. -/
  | nullWrite

namespace NativeContext

variable {C : Type*}

/-- `__init__`. -/
def init : NativeContext C := ⟨none, false⟩

/-- `_adopt`. -/
def adopt (c : C) : NativeContext C := ⟨some c, true⟩

/-- `state`. -/
def state (h : NativeContext C) (w : NativeWorld C) : WrapState :=
  match h.live, h.ctx with
  | true, some c => (w.cookie c).state
  | _, _ => .dead

@[simp] theorem state_adopt (c : C) (w : NativeWorld C) :
    (adopt c).state w = (w.cookie c).state := rfl

theorem state_of_null {h : NativeContext C} (hn : h.live = false ∨ h.ctx = none)
    (w : NativeWorld C) : h.state w = .dead := by
  obtain ⟨_ | c, _ | _⟩ := h
  · rfl
  · rfl
  · rfl
  · simp at hn

/-- A value is moved-from or empty, or it owns its blocks. -/
theorem null_or_adopt (h : NativeContext C) :
    (h.live = false ∨ h.ctx = none) ∨ ∃ c, h = adopt c := by
  obtain ⟨_ | c, _ | _⟩ := h
  · exact Or.inl (Or.inl rfl)
  · exact Or.inl (Or.inr rfl)
  · exact Or.inl (Or.inl rfl)
  · exact Or.inr ⟨c, rfl⟩

end NativeContext

namespace NativeWorld

variable {C : Type*} [DecidableEq C]

/-- Replace one record. -/
def setRecord (w : NativeWorld C) (c : C) (r : NativeRecord C) : NativeWorld C :=
  { w with record := Function.update w.record c r }

/-- Replace one cookie. -/
def setCookie (w : NativeWorld C) (c : C) (k : Cookie) : NativeWorld C :=
  { w with cookie := Function.update w.cookie c k }

/-- Write `C_STATE`. -/
def setState (w : NativeWorld C) (c : C) (s : WrapState) : NativeWorld C :=
  w.setCookie c { w.cookie c with state := s }

@[simp] theorem setRecord_record (w : NativeWorld C) (c x : C) (r : NativeRecord C) :
    (w.setRecord c r).record x = if x = c then r else w.record x := by
  simp [setRecord, Function.update_apply]

@[simp] theorem setRecord_cookie (w : NativeWorld C) (c : C) (r : NativeRecord C) :
    (w.setRecord c r).cookie = w.cookie := rfl

@[simp] theorem setCookie_cookie (w : NativeWorld C) (c x : C) (k : Cookie) :
    (w.setCookie c k).cookie x = if x = c then k else w.cookie x := by
  simp [setCookie, Function.update_apply]

@[simp] theorem setCookie_record (w : NativeWorld C) (c : C) (k : Cookie) :
    (w.setCookie c k).record = w.record := rfl

@[simp] theorem setState_record (w : NativeWorld C) (c : C) (s : WrapState) :
    (w.setState c s).record = w.record := rfl

@[simp] theorem setState_state (w : NativeWorld C) (c x : C) (s : WrapState) :
    ((w.setState c s).cookie x).state = if x = c then s else (w.cookie x).state := by
  by_cases h : x = c <;> simp [setState, h]

/-! ### The native layer -/

/-- `ms_context_capture`, at a place. -/
def nativeCapture (w : NativeWorld C) (c : C) (p : Place C) : NativeWorld C :=
  w.setRecord c { w.record c with state := .suspended, saved := p }

/-- The rest of `re_capture` after its capture. -/
def finishReCapture (w : NativeWorld C) (c : C) : NativeWorld C :=
  (w.setRecord c { w.record c with finishHook := true }).setState c .suspended

/-- `mjs_ctx_entry`, up to the call of the caller's entry. -/
def mjsCtxEntry (w : NativeWorld C) (c : C) : NativeWorld C :=
  { w.setState c .running with frame := .entry c }

/-- `mjs_ctx_finish`, up to the call of the caller's hook. -/
def mjsCtxFinish (w : NativeWorld C) (c : C) : NativeWorld C :=
  w.setCookie c { w.cookie c with state := .finished, stamp := (w.cookie c).stamp + 1 }

/-- The code at a restored place, up to the caller's code. -/
def resume (w : NativeWorld C) : Place C → Except Fault (NativeWorld C)
  | .blank => .error (.trap 0x68)
  | .fresh c => .ok (w.mjsCtxEntry c)
  | .call f => .ok { w with frame := f }
  | .reCapture c f => .ok { w.finishReCapture c with frame := f }
  | .guard => .error (.trap 0x6a)

/-- The two records after the demotion of `from` and the arm of `to`. -/
def armed (w : NativeWorld C) (f t : C) (p : Place C) : NativeWorld C :=
  (w.setRecord f { w.record f with
    saved := p
    state := if (w.record f).state = .running then .suspended else (w.record f).state }).setRecord t
      { w.record t with state := .running, retTo := some f }

@[simp] theorem armed_state (w : NativeWorld C) (f t x : C) (p : Place C) :
    ((w.armed f t p).record x).state = if x = t then .running
      else if x = f ∧ (w.record f).state = .running then .suspended else (w.record x).state := by
  by_cases ht : x = t
  · simp [armed, ht]
  · by_cases hf : x = f
    · subst hf
      simp [armed, ht]
    · simp [armed, ht, hf]

theorem armed_saved (w : NativeWorld C) {f t : C} (hne : f ≠ t) (x : C) (p : Place C) :
    ((w.armed f t p).record x).saved = if x = f then p else (w.record x).saved := by
  by_cases ht : x = t
  · simp [armed, ht, Ne.symm hne]
  · by_cases hf : x = f <;> simp [armed, ht, hf, hne]

/-- `ms_context_switch(from, to)` with the return address at `p`. -/
def nativeSwitch (w : NativeWorld C) (f t : C) (p : Place C) : Except Fault (NativeWorld C) :=
  if f = t then .ok (w.nativeCapture f p)
  else
    match World.targetFault (w.record t).state with
    | some fault => .error fault
    | none => (w.armed f t p).resume (w.record t).saved

/-! ### The wrapper calls -/

/-- The check of `ms_context_init`. -/
def initRejects (stackLow stackSize : Word) : Bool :=
  stackLow = 0 ∨ stackSize = 0 ∨ stackSize &&& 15 ≠ 0 ∨ stackLow &&& 15 ≠ 0 ∨
    0xFFFFFFFFFFFFFFFF - stackSize.toNat < stackLow.toNat

/-- `create`, in the new blocks `c`. -/
def create (w : NativeWorld C) (c : C) (stackLow stackTop entryFn userdata : Word) : Outcome C :=
  let stackSize := stackTop - stackLow
  if stackSize.toInt ≤ 0 ∨ stackSize.toInt % 16 ≠ 0 ∨ stackLow.toInt % 16 ≠ 0 then
    .raised .EINVAL w
  else if entryFn = 0 then .raised .EINVAL w
  else if initRejects stackLow stackSize then .raised .EINVAL w
  else .returned { (w.setCookie c
      { allocCookie with state := .armed, entry := entryFn, arg := userdata }).setRecord c
        ⟨.empty, none, true, .fresh c⟩ with
    allocated := Function.update w.allocated c true }

/-- `capture_current`, in the new blocks `c`. -/
def captureCurrent (w : NativeWorld C) (c : C) : Outcome C :=
  .returned { (w.setCookie c { allocCookie with state := .suspended }).nativeCapture c
      (.call w.frame) with
    allocated := Function.update w.allocated c true }

/-- `switch`: only `from` is checked. -/
def switch (w : NativeWorld C) (fromContext toContext : NativeContext C) : Outcome C :=
  match fromContext.live, fromContext.ctx with
  | true, some f =>
    match toContext.ctx with
    | none => .nullWrite
    | some t =>
      match ((w.setState f .suspended).setState t .running).nativeSwitch f t (.call w.frame) with
      | .error fault => .fault fault
      | .ok w' => .returned w'
  | _, _ => .raised .EINVAL w

/-- `destroy`. -/
def destroy (w : NativeWorld C) (self : NativeContext C) : Outcome C :=
  match self.live, self.ctx with
  | true, some c =>
    if (w.cookie c).state = .dead then .raised .EINVAL w
    else .returned ((w.setRecord c ⟨.dead, none, false, .blank⟩).setCookie c
      { w.cookie c with state := .dead, hook := 0 })
  | _, _ => .raised .EINVAL w

/-- `re_capture`. -/
def reCapture (w : NativeWorld C) (self : NativeContext C) : Outcome C :=
  match self.live, self.ctx with
  | true, some c => .returned ((w.nativeCapture c (.reCapture c w.frame)).finishReCapture c)
  | true, none => .nullWrite
  | false, _ => .raised .EINVAL w

/-- `set_finish_hook`. -/
def setFinishHook (w : NativeWorld C) (self : NativeContext C) (hook userdata : Word) : Outcome C :=
  match self.live, self.ctx with
  | true, some c =>
    if (w.cookie c).state = .dead then .raised .EINVAL w
    else .returned (w.setCookie c { w.cookie c with hook := hook, hookArg := userdata })
  | _, _ => .raised .EINVAL w

/-! ### The completion -/

/-- The trampoline marks the record `FINISHED`. -/
def finish (w : NativeWorld C) (c : C) : NativeWorld C :=
  { w.setRecord c { w.record c with state := .finished } with frame := .done c }

/-- The caller's entry returns, and the trampoline calls the finish hook. -/
def entryReturn (w : NativeWorld C) (c : C) : NativeWorld C :=
  if (w.record c).finishHook then
    if (w.cookie c).hook ≠ 0 then { w.mjsCtxFinish c with frame := .hook c }
    else (w.mjsCtxFinish c).finish c
  else w.finish c

/-- The caller's hook returns. -/
def hookReturn (w : NativeWorld C) (c : C) : NativeWorld C := w.finish c

/-- The completion switch. -/
def leave (w : NativeWorld C) (c : C) : Except Fault (NativeWorld C) :=
  match (w.record c).retTo with
  | none => .error .nullTarget
  | some t => if t = c then .error (.trap 0x6a) else w.nativeSwitch c t .guard

end NativeWorld

/-! ### Runs -/

/-- The wrapper calls. -/
inductive NativeCall (C : Type*)
  | create (c : C) (stackLow stackTop entryFn userdata : Word)
  | captureCurrent (c : C)
  | switch (fromContext toContext : NativeContext C)
  | destroy (self : NativeContext C)
  | reCapture (self : NativeContext C)
  | setFinishHook (self : NativeContext C) (hook userdata : Word)

/-- What a step does. -/
inductive NativeEvent (C : Type*)
  /-- A wrapper call; control is back in the caller's code. -/
  | call (op : NativeCall C)
  /-- The caller's entry returns. -/
  | ret (c : C)
  /-- The caller's finish hook returns. -/
  | hookRet (c : C)
  /-- The completion switch; the wrapper call at the return target returns. -/
  | leave (c : C)

/-- A wrapper call returns in the step. -/
def NativeEvent.returns {C : Type*} : NativeEvent C → Bool
  | .call _ | .leave _ => true
  | .ret _ | .hookRet _ => false

section Run

variable {C : Type*} [DecidableEq C]

/-- What a call does. -/
def NativeCall.exec (w : NativeWorld C) : NativeCall C → Outcome C
  | .create c stackLow stackTop entryFn userdata => w.create c stackLow stackTop entryFn userdata
  | .captureCurrent c => w.captureCurrent c
  | .switch fromContext toContext => w.switch fromContext toContext
  | .destroy self => w.destroy self
  | .reCapture self => w.reCapture self
  | .setFinishHook self hook userdata => w.setFinishHook self hook userdata

/-- The value points to allocated blocks. -/
def NativeContext.Valid (w : NativeWorld C) (h : NativeContext C) : Prop :=
  ∀ c, h.ctx = some c → w.allocated c = true

/-- The arguments of a call: values of the program, and new blocks of the allocator. -/
def NativeCall.Valid (w : NativeWorld C) : NativeCall C → Prop
  | .create c _ _ _ _ | .captureCurrent c => w.allocated c = false
  | .switch fromContext toContext => fromContext.Valid w ∧ toContext.Valid w
  | .destroy self | .reCapture self | .setFinishHook self _ _ => self.Valid w

/-- One step of the running code. A fault or a null write ends the run. -/
inductive NativeStep (w : NativeWorld C) : NativeEvent C → NativeWorld C → Prop
  | call (op : NativeCall C) {w' : NativeWorld C} (hf : ∀ c, w.frame ≠ .done c) (hv : op.Valid w)
      (h : op.exec w = .returned w') : NativeStep w (.call op) w'
  | raised (op : NativeCall C) {e : Errno} {w' : NativeWorld C} (hf : ∀ c, w.frame ≠ .done c)
      (hv : op.Valid w) (h : op.exec w = .raised e w') : NativeStep w (.call op) w'
  | ret {c : C} (hf : w.frame = .entry c) : NativeStep w (.ret c) (w.entryReturn c)
  | hookRet {c : C} (hf : w.frame = .hook c) : NativeStep w (.hookRet c) (w.hookReturn c)
  | leave {c : C} {w' : NativeWorld C} (hf : w.frame = .done c) (h : w.leave c = .ok w') :
      NativeStep w (.leave c) w'

/-- A thread before any wrapper call. -/
structure NativeStart (w : NativeWorld C) : Prop where
  allocated : ∀ c, w.allocated c = false
  frame : w.frame = .host

/-- The reachable states. -/
inductive NativeRun : NativeWorld C → Prop
  | start {w : NativeWorld C} (h : NativeStart w) : NativeRun w
  | step {w w' : NativeWorld C} {ev : NativeEvent C} (hr : NativeRun w) (hs : NativeStep w ev w') :
      NativeRun w'

end Run

/-! ### The lifecycle of the records -/

/-- The place in the lifecycle. -/
def Frame.phase {C : Type*} : Frame C → Phase
  | .host => .host
  | .entry _ => .entry
  | .hook _ => .hook
  | .done _ => .done

/-- The place in the lifecycle. -/
def Place.phase {C : Type*} : Place C → Phase
  | .blank => .blank
  | .fresh _ => .fresh
  | .call f | .reCapture _ f => f.phase
  | .guard => .done

theorem Frame.resume_phase {C : Type*} (f : Frame C) : f.phase.resume = f.phase := by
  cases f <;> rfl

namespace NativeWorld

variable {C : Type*}

section Lifecycle

-- the address of `mjs_ctx_finish`, and those of the cookies
variable (finishFn : Word) (cookieAddr : C → Word)

/-- The record of the lifecycle. -/
def life (w : NativeWorld C) (c : C) : LifeRecord C where
  state := (w.record c).state
  retTo := (w.record c).retTo
  finishCb := if (w.record c).finishHook then finishFn else 0
  finishUd := if (w.record c).finishHook then cookieAddr c else 0
  saved := (w.record c).saved.phase

/-- The thread of the lifecycle, when `c` stands for the running code. -/
def toWorld (w : NativeWorld C) (c : C) : World C :=
  ⟨w.life finishFn cookieAddr, c, w.frame.phase⟩

variable [DecidableEq C] {w w' : NativeWorld C} {f t : C} {p : Place C}

/-- What a native switch into another context does when it goes through. -/
theorem nativeSwitch_cases (hne : f ≠ t) (h : w.nativeSwitch f t p = .ok w') :
    World.targetFault (w.record t).state = none ∧
      ((∃ c, (w.record t).saved = .fresh c ∧ w' = (w.armed f t p).mjsCtxEntry c) ∨
        (∃ g, (w.record t).saved = .call g ∧ w' = { w.armed f t p with frame := g }) ∨
        ∃ c g, (w.record t).saved = .reCapture c g ∧
          w' = { (w.armed f t p).finishReCapture c with frame := g }) := by
  rw [nativeSwitch, if_neg hne] at h
  cases hfault : World.targetFault (w.record t).state with
  | some fault => simp [hfault] at h
  | none =>
    simp only [hfault] at h
    refine ⟨rfl, ?_⟩
    cases hsaved : (w.record t).saved with
    | blank => simp [hsaved, resume] at h
    | guard => simp [hsaved, resume] at h
    | fresh c =>
      rw [hsaved] at h
      exact Or.inl ⟨c, rfl, (Except.ok.inj h).symm⟩
    | call g =>
      rw [hsaved] at h
      exact Or.inr (Or.inl ⟨g, rfl, (Except.ok.inj h).symm⟩)
    | reCapture c g =>
      rw [hsaved] at h
      exact Or.inr (Or.inr ⟨c, g, rfl, (Except.ok.inj h).symm⟩)

theorem life_armed (hp : p.phase = w.frame.phase) :
    (w.armed f t p).life finishFn cookieAddr =
      Function.update (Function.update (w.life finishFn cookieAddr) f
        (World.switchedOut (w.life finishFn cookieAddr f) w.frame.phase)) t
        (World.armed (w.life finishFn cookieAddr t) f) := by
  funext c
  by_cases ht : c = t
  · subst ht
    simp [life, armed, World.armed]
  · by_cases hf : c = f
    · subst hf
      simp [life, armed, ht, World.switchedOut, hp]
    · simp [life, armed, ht, hf]

/-- The lifecycle switches, when the target passes the validation. -/
theorem switch_toWorld (hne : f ≠ t) (hp : p.phase = w.frame.phase)
    (hfault : World.targetFault (w.record t).state = none) :
    (w.toWorld finishFn cookieAddr f).switch t =
      .ok ⟨(w.armed f t p).life finishFn cookieAddr, t, (w.record t).saved.phase.resume⟩ := by
  have hstate : ((w.toWorld finishFn cookieAddr f).record t).state = (w.record t).state := rfl
  rw [World.switch_of_ne (Ne.symm hne), hstate, hfault, life_armed finishFn cookieAddr hp]
  rfl

/-- A native switch that goes through is a switch of the lifecycle. The rest of a `re_capture` at
the place that it resumes then registers the finish hook of the wrapper. -/
theorem nativeSwitch_toWorld (hne : f ≠ t) (hp : p.phase = w.frame.phase)
    (h : w.nativeSwitch f t p = .ok w') :
    ∃ v, (w.toWorld finishFn cookieAddr f).switch t = .ok v ∧
      (w'.toWorld finishFn cookieAddr t = v ∨
        ∃ c, w'.toWorld finishFn cookieAddr t = v.setFinishHook c finishFn (cookieAddr c)) := by
  obtain ⟨hfault, hsaved⟩ := nativeSwitch_cases hne h
  refine ⟨_, switch_toWorld finishFn cookieAddr hne hp hfault, ?_⟩
  rcases hsaved with ⟨c, hsaved, rfl⟩ | ⟨g, hsaved, rfl⟩ | ⟨c, g, hsaved, rfl⟩
  · rw [hsaved]
    exact Or.inl rfl
  · refine Or.inl ?_
    rw [hsaved, Place.phase, g.resume_phase]
    rfl
  · refine Or.inr ⟨c, ?_⟩
    rw [hsaved, Place.phase, g.resume_phase]
    simp only [toWorld, World.setFinishHook, World.setRecord, World.mk.injEq, and_true]
    funext x
    by_cases hx : x = c
    · subst hx
      simp [finishReCapture, life]
    · simp [finishReCapture, life, hx]

/-- The completion switch of the wrapper is that of the lifecycle. -/
theorem leave_toWorld {c : C} (hf : w.frame = .done c) (h : w.leave c = .ok w') :
    ∃ t v, (w.record c).retTo = some t ∧ (w.toWorld finishFn cookieAddr c).leave = .ok v ∧
      (w'.toWorld finishFn cookieAddr t = v ∨
        ∃ c, w'.toWorld finishFn cookieAddr t = v.setFinishHook c finishFn (cookieAddr c)) := by
  unfold leave at h
  cases hret : (w.record c).retTo with
  | none => simp [hret] at h
  | some t =>
    simp only [hret] at h
    split_ifs at h with ht
    have hp : (Place.guard : Place C).phase = w.frame.phase := by rw [hf]; rfl
    obtain ⟨v, hv, hw'⟩ := nativeSwitch_toWorld finishFn cookieAddr (Ne.symm ht) hp h
    refine ⟨t, v, rfl, ?_, hw'⟩
    have hlife : ((w.toWorld finishFn cookieAddr c).record
        (w.toWorld finishFn cookieAddr c).cur).retTo = some t := hret
    rw [World.leave, hlife]
    simp only
    rw [if_neg (show ¬ t = (w.toWorld finishFn cookieAddr c).cur from ht), hv]

end Lifecycle

end NativeWorld

/-! ### Misuse of `switch` -/

namespace NativeWorld

variable {C : Type*}

/-- `to` is destroyed, finished, moved-from or empty, or the context of `from`. -/
def Misuse (w : NativeWorld C) (fromContext toContext : NativeContext C) : Prop :=
  toContext.state w = .dead ∨ toContext.state w = .finished ∨
    (∃ c, toContext.ctx = some c ∧ ((w.record c).state = .dead ∨ (w.record c).state = .finished)) ∨
    toContext.ctx = fromContext.ctx

/-- The misuse that `state` shows. -/
def VisibleMisuse (w : NativeWorld C) (fromContext toContext : NativeContext C) : Prop :=
  toContext.state w = .dead ∨ toContext.state w = .finished ∨ toContext.state w = .running ∨
    toContext.ctx = fromContext.ctx

/-- The record is `EMPTY` or `SUSPENDED`, and its save area holds a place to resume. -/
def Resumable (w : NativeWorld C) (c : C) : Prop :=
  World.targetFault (w.record c).state = none ∧ (w.record c).saved ≠ .blank ∧
    (w.record c).saved ≠ .guard

variable [DecidableEq C]

/-- The contract of `switch`: misuse raises and changes nothing, and no misuse that `state` shows
reaches a native trap. -/
def SwitchGuarded (w : NativeWorld C) (fromContext toContext : NativeContext C) : Prop :=
  (w.Misuse fromContext toContext → w.switch fromContext toContext = .raised .EINVAL w) ∧
    (w.VisibleMisuse fromContext toContext → ∀ fault, w.switch fromContext toContext ≠ .fault fault)

variable {w : NativeWorld C} {f t : C} {fromContext toContext : NativeContext C}

theorem switch_of_null (h : fromContext.live = false ∨ fromContext.ctx = none) :
    w.switch fromContext toContext = .raised .EINVAL w := by
  obtain ⟨_ | c, _ | _⟩ := fromContext
  · rfl
  · rfl
  · rfl
  · simp at h

/-- With a `from` that is not null, a call never raises. -/
theorem switch_ne_raised (e : Errno) (v : NativeWorld C) :
    w.switch ⟨some f, true⟩ toContext ≠ .raised e v := by
  unfold switch
  simp only
  split
  · simp
  · split <;> simp

/-- A switch into another context traps exactly when its record cannot be resumed. -/
theorem switch_fault_iff {live : Bool} (hne : f ≠ t) :
    (∃ fault, w.switch ⟨some f, true⟩ ⟨some t, live⟩ = .fault fault) ↔ ¬ w.Resumable t := by
  unfold switch
  simp only [nativeSwitch, if_neg hne, setState, setCookie]
  cases hs : World.targetFault (w.record t).state with
  | some fault => simp [Resumable, hs]
  | none => cases hsaved : (w.record t).saved <;> simp [Resumable, hs, hsaved, resume]

end NativeWorld

section Guard

variable {C : Type*} [DecidableEq C]

/-- `switch` meets its contract exactly when it is called with a moved-from or empty `from`, or
when `to` is none of the misuses and, if its cookie reads `RUNNING`, its record can be resumed. -/
theorem switch_guarded_iff (w : NativeWorld C) (fromContext toContext : NativeContext C) :
    w.SwitchGuarded fromContext toContext ↔
      (fromContext.live = false ∨ fromContext.ctx = none) ∨
        (¬ w.Misuse fromContext toContext ∧
          (toContext.state w = .running → ∃ t, toContext.ctx = some t ∧ w.Resumable t)) := by
  by_cases hnull : fromContext.live = false ∨ fromContext.ctx = none
  · simp [NativeWorld.SwitchGuarded, NativeWorld.switch_of_null hnull, hnull]
  obtain ⟨f, rfl⟩ := fromContext.null_or_adopt.resolve_left hnull
  simp only [hnull, false_or]
  constructor
  · rintro ⟨hraise, hfault⟩
    have hno : ¬ w.Misuse (.adopt f) toContext := fun hm =>
      NativeWorld.switch_ne_raised _ _ (hraise hm)
    refine ⟨hno, fun hrun => ?_⟩
    rcases toContext.null_or_adopt with ht | ⟨t, rfl⟩
    · rw [NativeContext.state_of_null ht] at hrun
      cases hrun
    have hne : f ≠ t := fun he => hno (Or.inr (Or.inr (Or.inr (by rw [he]))))
    refine ⟨t, rfl, ?_⟩
    by_contra hres
    obtain ⟨fault, hf⟩ := (NativeWorld.switch_fault_iff hne).mpr hres
    exact hfault (Or.inr (Or.inr (Or.inl hrun))) fault hf
  · rintro ⟨hno, hrun⟩
    refine ⟨fun hm => absurd hm hno, fun hv fault hf => ?_⟩
    have hstate : toContext.state w = .running := by
      rcases hv with h | h | h | h
      · exact absurd (Or.inl h) hno
      · exact absurd (Or.inr (Or.inl h)) hno
      · exact h
      · exact absurd (Or.inr (Or.inr (Or.inr h))) hno
    obtain ⟨t, ht, hres⟩ := hrun hstate
    obtain ⟨ctx, live⟩ := toContext
    obtain rfl : ctx = some t := ht
    have hne : f ≠ t := fun he => hno (Or.inr (Or.inr (Or.inr (by rw [he]; rfl))))
    exact (NativeWorld.switch_fault_iff hne).mp ⟨fault, hf⟩ hres

end Guard

/-- A thread on zeroed blocks. -/
def zeroed : NativeWorld Bool where
  record _ := ⟨.dead, none, false, .blank⟩
  cookie _ := allocCookie
  allocated _ := false
  frame := .host

/-- The thread is captured, a context is created and destroyed: the switch into it does not raise
and traps. -/
theorem switch_guarded_fails :
    ∃ w : NativeWorld Bool, NativeRun w ∧ (NativeContext.adopt true).state w = .dead ∧
      w.switch (.adopt false) (.adopt true) = .fault (.trap 0x68) ∧
      ¬ w.SwitchGuarded (.adopt false) (.adopt true) := by
  have h₀ : NativeRun zeroed := .start ⟨fun _ => rfl, rfl⟩
  have h₁ := h₀.step (.call (.captureCurrent false) (fun _ h => by cases h) rfl rfl)
  have h₂ := h₁.step (.call (.create true 0x1000 0x2000 0x40 0) (fun _ h => by cases h) rfl rfl)
  have h₃ := h₂.step (.call (.destroy (.adopt true)) (fun _ h => by cases h)
    (fun c hc => by cases hc; rfl) rfl)
  refine ⟨_, h₃, rfl, rfl, fun hg => ?_⟩
  have hraise := hg.1 (Or.inl rfl)
  cases hraise

end MojitoSys.Ctx
