import MojitoSys.Ctx.Record

/-!
# The context lifecycle

Every context record owns its state machine, its return target and its finish hook; there is no
global table. This file is the lifecycle of any number of contexts on one OS thread, at the level
of the records: the effect of `ms_context_init`, `ms_context_set_finish_hook`,
`ms_context_destroy`, `ms_context_capture`, `ms_context_switch` and of the exit trampoline on the
lifecycle tail of every record, and the context whose code runs. Register contents are abstracted
to the place where the code of a context stands (`Phase`), which a switch saves in `from` and
restores from `to`.

A run is a sequence of actions of the running code and produces a trace of events, the newest
first. A trap or a fault ends the run.

## Main definitions

* `LifeRecord`, `World`: a record and the state of the thread.
* `World.init`, `World.setFinishHook`, `World.destroy`, `World.capture`, `World.switch`.
* `World.entryReturn`, `World.hookReturn`, `World.leave`: the exit trampoline.
* `Event`, `Step`, `Run`.

## Main results

* `World.switch_ok`: what a switch that does not trap does.
* `World.leave_ok`: what a completion switch that does not trap does.
-/

namespace MojitoSys.Ctx

/-- Where the code of a context stands. -/
inductive Phase
  /-- Zeroed registers. -/
  | blank
  /-- Armed by `ms_context_init`: a resume enters the trampoline, which calls the entry. -/
  | fresh
  /-- Inside the entry. -/
  | entry
  /-- Inside the finish hook. -/
  | hook
  /-- Past the completion stage, at the permanent switch-out. -/
  | done
  /-- Code of the thread itself, outside the trampoline. -/
  | host
  deriving DecidableEq, Repr

/-- The place that a resume of a saved place reaches: a fresh record enters its entry. -/
def Phase.resume : Phase → Phase
  | .fresh => .entry
  | p => p

/-- A context record: the lifecycle tail and the place held by the save area. -/
structure LifeRecord (C : Type*) where
  /-- The state slot. -/
  state : CtxState
  /-- The return target, `none` for `NULL`. -/
  retTo : Option C
  /-- The finish hook, `0` for `NULL`. -/
  finishCb : Word
  /-- The argument of the finish hook. -/
  finishUd : Word
  /-- The place held by the save area. -/
  saved : Phase

/-- The records and the running code of one OS thread. -/
structure World (C : Type*) where
  /-- The records. -/
  record : C → LifeRecord C
  /-- The context whose code runs. -/
  cur : C
  /-- The place of the running code. -/
  live : Phase

/-- A hard stop: a trap of the backend, or a switch to `NULL`. -/
inductive Fault
  | trap (code : ℕ)
  | nullTarget
  deriving DecidableEq, Repr

/-- What happens in a run. -/
inductive Event (C : Type*)
  | init (c : C)
  | setFinishHook (c : C) (cb ud : Word)
  /-- The code of the first context destroys the second. -/
  | destroy (f c : C)
  | capture (c : C)
  /-- An `ms_context_switch` call from the first context to the second. -/
  | switch (f t : C)
  /-- The completion switch of the trampoline. -/
  | complete (f t : C)
  /-- The entry returns to the trampoline. -/
  | ret (c : C)
  /-- The trampoline calls the finish hook. -/
  | hook (c : C) (cb ud : Word)
  /-- The finish hook returns to the trampoline. -/
  | hookRet (c : C)
  /-- The trampoline marks the record `FINISHED`. -/
  | finish (c : C)
  deriving DecidableEq, Repr

namespace World

variable {C : Type*}

/-- The trap of a target that cannot be resumed. -/
def targetFault : CtxState → Option Fault
  | .dead => some (.trap 0x68)
  | .running => some (.trap 0x69)
  | .finished => some (.trap 0x66)
  | .empty | .suspended => none

theorem targetFault_eq_none {s : CtxState} :
    targetFault s = none ↔ s = .empty ∨ s = .suspended := by
  cases s <;> simp [targetFault]

/-- The record of `from` after the save and the demotion. -/
def switchedOut (r : LifeRecord C) (live : Phase) : LifeRecord C :=
  { r with saved := live, state := if r.state = .running then .suspended else r.state }

/-- The record of `to` after the arm. -/
def armed (r : LifeRecord C) (f : C) : LifeRecord C :=
  { r with state := .running, retTo := some f }

/-- The thread after `driver` was captured on zeroed records. -/
def start [DecidableEq C] (driver : C) : World C where
  record c := if c = driver then ⟨.suspended, none, 0, 0, .host⟩ else ⟨.dead, none, 0, 0, .blank⟩
  cur := driver
  live := .host

variable [DecidableEq C]

/-- Replace one record. -/
def setRecord (w : World C) (c : C) (r : LifeRecord C) : World C :=
  { w with record := Function.update w.record c r }

/-- `ms_context_init` on accepted arguments. -/
def init (w : World C) (c : C) : World C :=
  w.setRecord c ⟨.empty, none, 0, 0, .fresh⟩

/-- `ms_context_set_finish_hook`. -/
def setFinishHook (w : World C) (c : C) (cb ud : Word) : World C :=
  w.setRecord c { w.record c with finishCb := cb, finishUd := ud }

/-- `ms_context_destroy`: the record is zeroed. -/
def destroy (w : World C) (c : C) : World C :=
  w.setRecord c ⟨.dead, none, 0, 0, .blank⟩

/-- `ms_context_capture`, the self-switch: the record is armed `SUSPENDED` whatever it was and
stands for the running code from then on. -/
def capture (w : World C) (c : C) : World C :=
  { w.setRecord c { w.record c with saved := w.live, state := .suspended } with cur := c }

/-- `ms_context_switch(from, to)` by the running context `from`. -/
def switch (w : World C) (t : C) : Except Fault (World C) :=
  if t = w.cur then .ok (w.capture t)
  else
    match targetFault (w.record t).state with
    | some fault => .error fault
    | none => .ok
      { record := Function.update
          (Function.update w.record w.cur (switchedOut (w.record w.cur) w.live)) t
          (armed (w.record t) w.cur)
        cur := t
        live := (w.record t).saved.resume }

/-- The trampoline marks the record `FINISHED` and stands before its tail call. -/
def finish (w : World C) : World C :=
  { w.setRecord w.cur { w.record w.cur with state := .finished } with live := .done }

/-- The entry returns: the trampoline calls the finish hook, if there is one. -/
def entryReturn (w : World C) : World C :=
  if (w.record w.cur).finishCb = 0 then w.finish else { w with live := .hook }

/-- The finish hook returns. -/
def hookReturn (w : World C) : World C := w.finish

/-- The tail call `ms_context_switch(self, ret_to)`. A return from it meets the guard `brk`. -/
def leave (w : World C) : Except Fault (World C) :=
  match (w.record w.cur).retTo with
  | none => .error .nullTarget
  | some t => if t = w.cur then .error (.trap 0x6a) else w.switch t

/-! ### What a switch does -/

section Switch

variable {w w' : World C} {c t : C}

theorem switch_of_ne (ht : t ≠ w.cur) :
    w.switch t = match targetFault (w.record t).state with
      | some fault => .error fault
      | none => .ok
        { record := Function.update
            (Function.update w.record w.cur (switchedOut (w.record w.cur) w.live)) t
            (armed (w.record t) w.cur)
          cur := t
          live := (w.record t).saved.resume } := by
  simp [switch, ht]

/-- A switch to another context that does not trap found it resumable, saved the running context,
armed the target and runs it. -/
theorem switch_ok (ht : t ≠ w.cur) (h : w.switch t = .ok w') :
    ((w.record t).state = .empty ∨ (w.record t).state = .suspended) ∧
      w'.cur = t ∧ w'.live = (w.record t).saved.resume ∧
      w'.record t = armed (w.record t) w.cur ∧
      w'.record w.cur = switchedOut (w.record w.cur) w.live ∧
      ∀ c, c ≠ t → c ≠ w.cur → w'.record c = w.record c := by
  rw [switch_of_ne ht] at h
  cases hf : targetFault (w.record t).state with
  | some fault => simp [hf] at h
  | none =>
    simp only [hf, Except.ok.injEq] at h
    subst h
    refine ⟨targetFault_eq_none.mp hf, rfl, rfl, by simp, ?_, fun c hc hcw => ?_⟩
    · simp [Function.update_of_ne (Ne.symm ht)]
    · simp [Function.update_of_ne hc, Function.update_of_ne hcw]

theorem switch_isOk (ht : t ≠ w.cur)
    (hs : (w.record t).state = .empty ∨ (w.record t).state = .suspended) :
    ∃ w', w.switch t = .ok w' := by
  rw [switch_of_ne ht, targetFault_eq_none.mpr hs]
  exact ⟨_, rfl⟩

/-- A completion switch that does not trap is a switch to the return target. -/
theorem leave_ok (h : w.leave = .ok w') :
    ∃ t, (w.record w.cur).retTo = some t ∧ t ≠ w.cur ∧ w.switch t = .ok w' := by
  unfold leave at h
  cases hr : (w.record w.cur).retTo with
  | none => simp [hr] at h
  | some t =>
    by_cases ht : t = w.cur
    · simp [hr, ht] at h
    · exact ⟨t, rfl, ht, by simpa [hr, ht] using h⟩

end Switch

end World

/-! ### Runs -/

section Run

variable {C : Type*} [DecidableEq C]

/-- One action of the running code, with the events it adds. Two kinds of actions are left out: a
capture taken inside a synthetic context, and any action of the caller's code between the
completion stage and the permanent switch-out, where none runs. -/
inductive Step (w : World C) : List (Event C) → World C → Prop
  | init (c : C) (hl : w.live ≠ .done) : Step w [.init c] (w.init c)
  | setFinishHook (c : C) (cb ud : Word) (hl : w.live ≠ .done) :
      Step w [.setFinishHook c cb ud] (w.setFinishHook c cb ud)
  | destroy (c : C) (hl : w.live ≠ .done) :
      Step w [.destroy w.cur c] (w.destroy c)
  | capture (c : C) (hl : w.live = .host) :
      Step w [.capture c] (w.capture c)
  | switch (t : C) {w' : World C} (hl : w.live ≠ .done) (ht : t ≠ w.cur)
      (h : w.switch t = .ok w') :
      Step w [.switch w.cur t] w'
  | retHook (hl : w.live = .entry) (hcb : (w.record w.cur).finishCb ≠ 0) :
      Step w [.hook w.cur (w.record w.cur).finishCb (w.record w.cur).finishUd, .ret w.cur]
        w.entryReturn
  | retFinish (hl : w.live = .entry) (hcb : (w.record w.cur).finishCb = 0) :
      Step w [.finish w.cur, .ret w.cur] w.entryReturn
  | hookReturn (hl : w.live = .hook) :
      Step w [.finish w.cur, .hookRet w.cur] w.hookReturn
  | leave {w' : World C} (hl : w.live = .done) (h : w.leave = .ok w') :
      Step w [.complete w.cur w'.cur] w'

/-- The runs of a thread that captured `driver`, with their traces. -/
inductive Run (driver : C) : List (Event C) → World C → Prop
  | start : Run driver [.capture driver] (World.start driver)
  | step {tr es : List (Event C)} {w w' : World C} (hr : Run driver tr w) (hs : Step w es w') :
      Run driver (es ++ tr) w'

end Run

end MojitoSys.Ctx
