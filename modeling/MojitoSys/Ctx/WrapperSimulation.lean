import MojitoSys.Ctx.NativeContext

/-!
# The wrapper state and the record state

The cookie is written in wrapper calls and in the two trampolines of the wrapper, the record by
every native switch. A wrapper call writes both, and leaves a context that it acts on in states of
the same name, but for four cases: a switch of a context into itself leaves `RUNNING` on a
`SUSPENDED` record; a switch writes `SUSPENDED` for a `from` whose record is not demoted, because
it is neither `RUNNING` nor `SUSPENDED`; the second return of a `re_capture` writes `SUSPENDED` for
a context that was just resumed; and `mjs_ctx_finish` writes `FINISHED` before the caller's hook,
while the trampoline marks the record after it. The completion switch writes the record of the
return target only.

## Main definitions

* `CtxState.image`, `NativeWorld.Agrees`: the two lifecycles of a context agree.
* `NativeCall.ActsOn`: the calls that write the state of a context.
* `NativeWorld.Kept`: the steps outside the four cases and the completion switch.
* `KeptRun`, `SimInv`.

## Main results

* `SimInv.step`, `KeptRun.inv`.
* `wrapper_simulation`: the lifecycles agree at every return of a wrapper call.
* `wrapper_simulation_fails`: a completion.
-/

namespace MojitoSys.Ctx

/-- The wrapper state for a state of the record. -/
def CtxState.image : CtxState → WrapState
  | .dead => .dead
  | .empty => .armed
  | .running => .running
  | .suspended => .suspended
  | .finished => .finished

variable {C : Type*}

/-- `state` of the context is the image of the state of its record. -/
def NativeWorld.Agrees (w : NativeWorld C) (c : C) : Prop :=
  (NativeContext.adopt c).state w = (w.record c).state.image

/-- The call writes the state of the context. -/
def NativeCall.ActsOn (c : C) : NativeCall C → Prop
  | .switch ⟨some f, true⟩ toContext => f = c ∨ toContext.ctx = some c
  | .destroy ⟨some x, true⟩ | .reCapture ⟨some x, true⟩ => x = c
  | _ => False

namespace NativeWorld

/-- The switch leaves a context that its record demotes, for another one that is not suspended
inside a `re_capture`. -/
def KeptSwitch (w : NativeWorld C) (f t : C) : Prop :=
  f ≠ t ∧ ((w.record f).state = .running ∨ (w.record f).state = .suspended) ∧
    ∀ c g, (w.record t).saved ≠ .reCapture c g

/-- The steps that keep the two lifecycles together. In a finish hook, as long as the cookie of the
context reads `FINISHED`, only calls that act on this context do; and no completion switch does. -/
def Kept (w : NativeWorld C) : NativeEvent C → Prop
  | .call op =>
    (∀ c, w.frame = .hook c → (w.cookie c).state = .finished → op.ActsOn c) ∧
      ∀ f t live, op = .switch ⟨some f, true⟩ ⟨some t, live⟩ → w.KeptSwitch f t
  | .ret _ | .hookRet _ => True
  | .leave _ => False

end NativeWorld

variable [DecidableEq C]

/-- The runs of steps that keep the two lifecycles together. -/
inductive KeptRun : NativeWorld C → Prop
  | start {w : NativeWorld C} (h : NativeStart w) : KeptRun w
  | step {w w' : NativeWorld C} {ev : NativeEvent C} (hr : KeptRun w) (hs : NativeStep w ev w')
      (hk : w.Kept ev) : KeptRun w'

/-- The invariant of a kept run: the lifecycles of every context agree, but for the context whose
completion runs. -/
structure SimInv (w : NativeWorld C) : Prop where
  agrees : ∀ c, w.allocated c = true → w.Agrees c ∨ w.frame = .done c ∨
    (w.frame = .hook c ∧ (w.cookie c).state = .finished)
  /-- A record saves the start of its own trampoline only. -/
  fresh : ∀ c x, w.allocated c = true → (w.record c).saved = .fresh x → x = c

/-- The lifecycles of all contexts agree. -/
structure Synced (w : NativeWorld C) : Prop where
  agrees : ∀ c, w.allocated c = true → w.Agrees c
  fresh : ∀ c x, w.allocated c = true → (w.record c).saved = .fresh x → x = c

omit [DecidableEq C] in
theorem Synced.inv {w : NativeWorld C} (h : Synced w) : SimInv w :=
  ⟨fun c hc => Or.inl (h.agrees c hc), h.fresh⟩

section Calls

variable {w w' : NativeWorld C} {c f t : C}

/-- The native switch: the target is armed, `from` is saved, and nothing else is written, but for
the cookie of a context that starts. -/
theorem NativeWorld.nativeSwitch_ok {p : Place C} (hne : f ≠ t)
    (hk : ∀ c g, (w.record t).saved ≠ .reCapture c g) (h : w.nativeSwitch f t p = .ok w') :
    w'.record = (w.armed f t p).record ∧ w'.allocated = w.allocated ∧
      (w'.cookie = w.cookie ∨ ∃ x, (w.record t).saved = .fresh x ∧
        w'.cookie = (w.setState x .running).cookie) := by
  obtain ⟨-, hsaved⟩ := nativeSwitch_cases hne h
  rcases hsaved with ⟨x, hsaved, rfl⟩ | ⟨g, -, rfl⟩ | ⟨x, g, hsaved, -⟩
  · exact ⟨rfl, rfl, Or.inr ⟨x, hsaved, rfl⟩⟩
  · exact ⟨rfl, rfl, Or.inl rfl⟩
  · exact absurd hsaved (hk x g)

/-- The call writes one context, which then agrees. -/
theorem Synced.of_update (hi : SimInv w)
    (hother : ∀ x, x ≠ c → w'.allocated x = w.allocated x ∧ w'.record x = w.record x ∧
      w'.cookie x = w.cookie x)
    (hagrees : ∀ x, x ≠ c → w.allocated x = true → w.Agrees x) (hself : w'.Agrees c)
    (hfresh : ∀ x, (w'.record c).saved = .fresh x → x = c) : Synced w' where
  agrees x hx := by
    by_cases hxc : x = c
    · rw [hxc]
      exact hself
    · obtain ⟨hal, hrec, hck⟩ := hother x hxc
      have ha := hagrees x hxc (hal ▸ hx)
      simp only [NativeWorld.Agrees, NativeContext.state_adopt] at ha ⊢
      rw [hrec, hck]
      exact ha
  fresh x y hx hy := by
    by_cases hxc : x = c
    · subst hxc
      exact hfresh y hy
    · obtain ⟨hal, hrec, -⟩ := hother x hxc
      rw [hrec] at hy
      exact hi.fresh x y (hal ▸ hx) hy

section Null

variable {self : NativeContext C} (hn : self.live = false ∨ self.ctx = none)
include hn

theorem NativeWorld.destroy_of_null : w.destroy self = .raised .EINVAL w := by
  obtain ⟨_ | x, _ | _⟩ := self
  · rfl
  · rfl
  · rfl
  · simp at hn

theorem NativeWorld.reCapture_of_null :
    w.reCapture self = .raised .EINVAL w ∨ w.reCapture self = .nullWrite := by
  obtain ⟨_ | x, _ | _⟩ := self
  · exact Or.inl rfl
  · exact Or.inr rfl
  · exact Or.inl rfl
  · simp at hn

theorem NativeWorld.setFinishHook_of_null (hook userdata : Word) :
    w.setFinishHook self hook userdata = .raised .EINVAL w := by
  obtain ⟨_ | x, _ | _⟩ := self
  · rfl
  · rfl
  · rfl
  · simp at hn

omit [DecidableEq C] in
/-- A call on a moved-from or empty value acts on no context. -/
theorem NativeCall.not_actsOn_of_null :
    ¬ (NativeCall.destroy self).ActsOn c ∧ ¬ (NativeCall.reCapture self).ActsOn c ∧
      ∀ toContext, ¬ (NativeCall.switch self toContext).ActsOn c := by
  obtain ⟨_ | x, _ | _⟩ := self
  · exact ⟨id, id, fun _ => id⟩
  · exact ⟨id, id, fun _ => id⟩
  · exact ⟨id, id, fun _ => id⟩
  · simp at hn

end Null

/-- A call that raises changes nothing, and found the context that it would act on destroyed. -/
theorem NativeCall.raised_eq {op : NativeCall C} {e : Errno} (h : op.exec w = .raised e w') :
    w' = w ∧ ∀ c, op.ActsOn c → (w.cookie c).state = .dead := by
  cases op with
  | create c stackLow stackTop entryFn userdata =>
    simp only [exec, NativeWorld.create] at h
    split_ifs at h <;> cases h <;> exact ⟨rfl, fun _ ha => ha.elim⟩
  | captureCurrent c => cases h
  | switch fromContext toContext =>
    rcases fromContext.null_or_adopt with hn | ⟨f, rfl⟩
    · rw [exec, NativeWorld.switch_of_null hn] at h
      cases h
      exact ⟨rfl, fun c ha => absurd ha ((not_actsOn_of_null hn).2.2 toContext)⟩
    · exact absurd h (NativeWorld.switch_ne_raised e w')
  | destroy self =>
    rcases self.null_or_adopt with hn | ⟨x, rfl⟩
    · rw [exec, NativeWorld.destroy_of_null hn] at h
      cases h
      exact ⟨rfl, fun c ha => absurd ha (not_actsOn_of_null hn).1⟩
    · simp only [exec, NativeWorld.destroy, NativeContext.adopt] at h
      split_ifs at h with hdead
      cases h
      exact ⟨rfl, fun c ha => (show x = c from ha) ▸ hdead⟩
  | reCapture self =>
    rcases self.null_or_adopt with hn | ⟨x, rfl⟩
    · refine ⟨?_, fun c ha => absurd ha (not_actsOn_of_null hn).2.1⟩
      rcases NativeWorld.reCapture_of_null (w := w) hn with hr | hr
      · rw [exec, hr] at h
        cases h
        rfl
      · rw [exec, hr] at h
        cases h
    · cases h
  | setFinishHook self hook userdata =>
    refine ⟨?_, fun _ ha => ha.elim⟩
    rcases self.null_or_adopt with hn | ⟨x, rfl⟩
    · rw [exec, NativeWorld.setFinishHook_of_null hn] at h
      cases h
      rfl
    · simp only [exec, NativeWorld.setFinishHook, NativeContext.adopt] at h
      split_ifs at h
      cases h
      rfl

/-- A switch that goes through. -/
theorem NativeWorld.switch_eq_returned {fromContext toContext : NativeContext C}
    (h : w.switch fromContext toContext = .returned w') :
    ∃ f t live, fromContext = .adopt f ∧ toContext = ⟨some t, live⟩ ∧
      ((w.setState f .suspended).setState t .running).nativeSwitch f t (.call w.frame) =
        .ok w' := by
  rcases fromContext.null_or_adopt with hn | ⟨f, rfl⟩
  · rw [switch_of_null hn] at h
    cases h
  · obtain ⟨_ | t, live⟩ := toContext
    · cases h
    · refine ⟨f, t, live, rfl, rfl, ?_⟩
      simp only [switch, NativeContext.adopt] at h
      split at h
      · cases h
      · next v hv =>
        cases h
        exact hv

/-- A destruction that goes through. -/
theorem NativeWorld.destroy_eq_returned {self : NativeContext C}
    (h : w.destroy self = .returned w') :
    ∃ c, self = .adopt c ∧ w' = (w.setRecord c ⟨.dead, none, false, .blank⟩).setCookie c
      { w.cookie c with state := .dead, hook := 0 } := by
  rcases self.null_or_adopt with hn | ⟨c, rfl⟩
  · rw [destroy_of_null hn] at h
    cases h
  · simp only [destroy, NativeContext.adopt] at h
    split_ifs at h
    cases h
    exact ⟨c, rfl, rfl⟩

/-- A `re_capture` that goes through. -/
theorem NativeWorld.reCapture_eq_returned {self : NativeContext C}
    (h : w.reCapture self = .returned w') :
    ∃ c, self = .adopt c ∧
      w' = (w.nativeCapture c (.reCapture c w.frame)).finishReCapture c := by
  rcases self.null_or_adopt with hn | ⟨c, rfl⟩
  · rcases reCapture_of_null (w := w) hn with hr | hr
    · rw [hr] at h
      cases h
    · rw [hr] at h
      cases h
  · cases h
    exact ⟨c, rfl, rfl⟩

/-- A `set_finish_hook` that goes through. -/
theorem NativeWorld.setFinishHook_eq_returned {self : NativeContext C} {hook userdata : Word}
    (h : w.setFinishHook self hook userdata = .returned w') :
    ∃ c, self = .adopt c ∧
      w' = w.setCookie c { w.cookie c with hook := hook, hookArg := userdata } := by
  rcases self.null_or_adopt with hn | ⟨c, rfl⟩
  · rw [setFinishHook_of_null hn] at h
    cases h
  · simp only [setFinishHook, NativeContext.adopt] at h
    split_ifs at h
    cases h
    exact ⟨c, rfl, rfl⟩

/-- A kept switch writes both lifecycles of its two contexts. -/
theorem Synced.switch (hi : SimInv w) (hk : w.KeptSwitch f t) (ht : w.allocated t = true)
    (hagrees : ∀ x, x ≠ f → x ≠ t → w.allocated x = true → w.Agrees x)
    (h : ((w.setState f .suspended).setState t .running).nativeSwitch f t (.call w.frame) =
      .ok w') : Synced w' := by
  obtain ⟨hne, hstate, hsaved⟩ := hk
  obtain ⟨hrec, hal, hck⟩ := NativeWorld.nativeSwitch_ok
    (w := (w.setState f .suspended).setState t .running) hne hsaved h
  have hcookie (x : C) : (w'.cookie x).state =
      if x = t then .running else if x = f then .suspended else (w.cookie x).state := by
    rcases hck with hck | ⟨y, hy, hck⟩
    · simp [hck]
    · obtain rfl := hi.fresh t y ht hy
      simp only [hck, NativeWorld.setState_state]
      split <;> rfl
  refine ⟨fun x hx => ?_, fun x y hx hy => ?_⟩
  · rw [NativeWorld.Agrees, NativeContext.state_adopt, hcookie, hrec, NativeWorld.armed_state]
    by_cases hxt : x = t
    · simp [hxt, CtxState.image]
    by_cases hxf : x = f
    · rcases hstate with hs | hs <;> simp [hxf, hne, hs, CtxState.image]
    · have ha : (w.cookie x).state = (w.record x).state.image := hagrees x hxf hxt (hal ▸ hx)
      simpa [hxt, hxf] using ha
  · rw [hrec, NativeWorld.armed_saved _ hne] at hy
    split at hy
    · cases hy
    · exact hi.fresh x y (hal ▸ hx) hy

/-- After a kept call that goes through, the lifecycles of all contexts agree. -/
theorem Synced.call {op : NativeCall C} (hi : SimInv w) (hv : op.Valid w)
    (hk : ∀ f t live, op = .switch ⟨some f, true⟩ ⟨some t, live⟩ → w.KeptSwitch f t)
    (hagrees : ∀ c, w.allocated c = true → ¬ op.ActsOn c → w.Agrees c)
    (h : op.exec w = .returned w') : Synced w' := by
  cases op with
  | create c stackLow stackTop entryFn userdata =>
    simp only [NativeCall.exec, NativeWorld.create] at h
    split_ifs at h
    cases h
    refine .of_update (c := c) hi (fun x hx => ?_) (fun x _ hal => hagrees x hal id) ?_
      fun x hx => ?_
    · simp [hx]
    · simp [NativeWorld.Agrees, CtxState.image]
    · simpa [eq_comm] using hx
  | captureCurrent c =>
    cases h
    refine .of_update (c := c) hi (fun x hx => ?_) (fun x _ hal => hagrees x hal id) ?_
      fun x hx => ?_
    · simp [NativeWorld.nativeCapture, hx]
    · simp [NativeWorld.Agrees, NativeWorld.nativeCapture, CtxState.image]
    · simp [NativeWorld.nativeCapture] at hx
  | switch fromContext toContext =>
    obtain ⟨f, t, live, rfl, rfl, hsw⟩ := NativeWorld.switch_eq_returned h
    refine Synced.switch hi (hk f t live rfl) (hv.2 t rfl) (fun x hxf hxt hal => ?_) hsw
    refine hagrees x hal fun ha => ?_
    rcases ha with rfl | ht
    · exact hxf rfl
    · exact hxt (Option.some.inj ht).symm
  | destroy self =>
    obtain ⟨c, rfl, rfl⟩ := NativeWorld.destroy_eq_returned h
    refine .of_update (c := c) hi (fun x hx => ?_) (fun x hx hal => hagrees x hal (Ne.symm hx)) ?_
      fun x hx => ?_
    · refine ⟨rfl, ?_⟩
      simp [hx]
    · simp [NativeWorld.Agrees, CtxState.image]
    · simp at hx
  | reCapture self =>
    obtain ⟨c, rfl, rfl⟩ := NativeWorld.reCapture_eq_returned h
    refine .of_update (c := c) hi (fun x hx => ?_) (fun x hx hal => hagrees x hal (Ne.symm hx)) ?_
      fun x hx => ?_
    · refine ⟨rfl, ?_⟩
      simp [NativeWorld.nativeCapture, NativeWorld.finishReCapture, NativeWorld.setState, hx]
    · simp [NativeWorld.Agrees, NativeWorld.nativeCapture, NativeWorld.finishReCapture,
        CtxState.image]
    · simp [NativeWorld.nativeCapture, NativeWorld.finishReCapture] at hx
  | setFinishHook self hook userdata =>
    have hall (c : C) (hal : w.allocated c = true) : w.Agrees c := hagrees c hal id
    obtain ⟨c, rfl, rfl⟩ := NativeWorld.setFinishHook_eq_returned h
    refine .of_update (c := c) hi (fun x hx => ?_) (fun x _ hal => hall x hal) ?_ fun x hx => ?_
    · refine ⟨rfl, rfl, ?_⟩
      simp [hx]
    · simpa [NativeWorld.Agrees] using hall c (hv c rfl)
    · exact hi.fresh c x (hv c rfl) hx

/-- A kept call, whether it raises or not. -/
theorem Synced.kept {op : NativeCall C} (hi : SimInv w) (hs : NativeStep w (.call op) w')
    (hk : w.Kept (.call op)) : Synced w' := by
  have hcase (hf : ∀ c, w.frame ≠ .done c) (c : C) (hal : w.allocated c = true) :
      w.Agrees c ∨ (w.cookie c).state = .finished ∧ op.ActsOn c := by
    rcases hi.agrees c hal with h | h | ⟨h, hfin⟩
    · exact Or.inl h
    · exact absurd h (hf c)
    · exact Or.inr ⟨hfin, hk.1 c h hfin⟩
  cases hs with
  | call _ hf hv h =>
    refine Synced.call hi hv hk.2 (fun c hal hno => ?_) h
    exact (hcase hf c hal).resolve_right fun ha => hno ha.2
  | raised _ hf hv h =>
    obtain ⟨rfl, hdead⟩ := NativeCall.raised_eq h
    refine ⟨fun c hal => (hcase hf c hal).resolve_right fun ha => ?_, hi.fresh⟩
    have hd := hdead c ha.2
    rw [ha.1] at hd
    cases hd

end Calls

section Run

variable {w w' : NativeWorld C} {ev : NativeEvent C}

/-- The trampoline marks the record of the context whose code ran. -/
theorem SimInv.finish {c : C} (hi : ∀ x, x ≠ c → w.allocated x = true → w.Agrees x)
    (hfresh : ∀ x y, w.allocated x = true → (w.record x).saved = .fresh y → y = x) :
    SimInv (w.finish c) where
  agrees x hx := by
    by_cases hxc : x = c
    · exact Or.inr (Or.inl (by rw [hxc]; rfl))
    · have ha : (w.cookie x).state = (w.record x).state.image := hi x hxc hx
      refine Or.inl ?_
      simpa [NativeWorld.Agrees, NativeWorld.finish, hxc] using ha
  fresh x y hx hy := by
    refine hfresh x y hx ?_
    by_cases hxc : x = c
    · simpa [NativeWorld.finish, hxc] using hy
    · simpa [NativeWorld.finish, hxc] using hy

/-- What one kept step does to the invariant. -/
theorem SimInv.step (hi : SimInv w) (hs : NativeStep w ev w') (hk : w.Kept ev) : SimInv w' := by
  cases hs with
  | call op hf hv h => exact (Synced.kept hi (.call op hf hv h) hk).inv
  | raised op hf hv h => exact (Synced.kept hi (.raised op hf hv h) hk).inv
  | @ret c hf =>
    have hagrees (x : C) (hx : w.allocated x = true) : w.Agrees x := by
      rcases hi.agrees x hx with h | h | ⟨h, -⟩
      · exact h
      · rw [hf] at h
        cases h
      · rw [hf] at h
        cases h
    have hother (x : C) (hxc : x ≠ c) (hx : w.allocated x = true) :
        (w.mjsCtxFinish c).Agrees x := by
      have ha : (w.cookie x).state = (w.record x).state.image := hagrees x hx
      simpa [NativeWorld.Agrees, NativeWorld.mjsCtxFinish, hxc] using ha
    unfold NativeWorld.entryReturn
    split_ifs
    · refine ⟨fun x hx => ?_, hi.fresh⟩
      by_cases hxc : x = c
      · refine Or.inr (Or.inr ⟨by rw [hxc], ?_⟩)
        simp [hxc, NativeWorld.mjsCtxFinish]
      · exact Or.inl (hother x hxc hx)
    · exact .finish hother hi.fresh
    · exact .finish (fun x _ hx => hagrees x hx) hi.fresh
  | @hookRet c hf =>
    refine .finish (fun x hxc hx => ?_) hi.fresh
    rcases hi.agrees x hx with h | h | ⟨h, -⟩
    · exact h
    · rw [hf] at h
      cases h
    · rw [hf] at h
      cases h
      exact absurd rfl hxc
  | leave hf h => exact hk.elim

theorem KeptRun.inv (hr : KeptRun w) : SimInv w := by
  induction hr with
  | start h =>
    refine ⟨fun c hc => ?_, fun c x hc => ?_⟩
    · simp [h.allocated c] at hc
    · simp [h.allocated c] at hc
  | step _ hs hk ih => exact ih.step hs hk

/-- In every run of kept steps, when a wrapper call returns, `state` of every context is the image
of the state of its record. -/
theorem wrapper_simulation (hr : KeptRun w) (hs : NativeStep w ev w') (hk : w.Kept ev)
    (hret : ev.returns = true) (c : C) (hc : w'.allocated c = true) :
    (NativeContext.adopt c).state w' = (w'.record c).state.image := by
  cases ev with
  | call op => exact (Synced.kept hr.inv hs hk).agrees c hc
  | ret x => cases hret
  | hookRet x => cases hret
  | leave x => exact hk.elim

/-- The completion switch into a context that is suspended in a `switch` or a `capture_current`
makes its record `RUNNING`, and leaves its cookie. -/
theorem not_agrees_leave {c t : C} {g : Frame C} (hi : w.Agrees t)
    (ht : (w.record c).retTo = some t) (hsaved : (w.record t).saved = .call g)
    (h : w.leave c = .ok w') : ¬ w'.Agrees t := by
  simp only [NativeWorld.leave, ht] at h
  split_ifs at h with htc
  have hk (x : C) (f : Frame C) : (w.record t).saved ≠ .reCapture x f := by simp [hsaved]
  obtain ⟨hrec, -, hck⟩ := NativeWorld.nativeSwitch_ok (Ne.symm htc) hk h
  have hcookie : w'.cookie = w.cookie := by
    rcases hck with hck | ⟨x, hx, -⟩
    · exact hck
    · simp [hsaved] at hx
  have hfault := (NativeWorld.nativeSwitch_cases (Ne.symm htc) h).1
  rw [NativeWorld.Agrees, NativeContext.state_adopt] at hi ⊢
  rw [hcookie, hi, hrec, NativeWorld.armed_state, if_pos rfl]
  rcases World.targetFault_eq_none.mp hfault with hs | hs <;> simp [hs, CtxState.image]

end Run

/-- A context is created and resumed, and switches back: both lifecycles agree. -/
theorem wrapper_simulation_back :
    ∃ w : NativeWorld Bool, KeptRun w ∧ (NativeContext.adopt true).state w = .suspended ∧
      (NativeContext.adopt false).state w = (w.record false).state.image := by
  have h₀ : KeptRun zeroed := .start ⟨fun _ => rfl, rfl⟩
  have h₁ := h₀.step (.call (.captureCurrent false) (fun _ h => by cases h) rfl rfl)
    ⟨fun _ hf => (by cases hf), fun _ _ _ h => (by cases h)⟩
  have h₂ := h₁.step (.call (.create true 0x1000 0x2000 0x40 0) (fun _ h => by cases h) rfl rfl)
    ⟨fun _ hf => (by cases hf), fun _ _ _ h => (by cases h)⟩
  have h₃ := h₂.step (.call (.switch (.adopt false) (.adopt true)) (fun _ h => by cases h)
    ⟨fun c _ => (by cases c <;> rfl), fun c _ => (by cases c <;> rfl)⟩ rfl)
    ⟨fun _ hf => (by cases hf), fun f t live h => (by
      cases h
      exact ⟨by decide, Or.inr rfl, fun _ _ hs => by cases hs⟩)⟩
  have hlast (w w' : NativeWorld Bool) (hr : KeptRun w)
      (hs : NativeStep w (.call (.switch (.adopt true) (.adopt false))) w')
      (hk : w.Kept (.call (.switch (.adopt true) (.adopt false))))
      (hal : w'.allocated false = true) :
      KeptRun w' ∧ (NativeContext.adopt false).state w' = (w'.record false).state.image :=
    ⟨hr.step hs hk, wrapper_simulation hr hs hk rfl false hal⟩
  obtain ⟨h₄, hagrees⟩ := hlast _ _ h₃ (.call _ (fun _ h => by cases h)
    ⟨fun c _ => (by cases c <;> rfl), fun c _ => (by cases c <;> rfl)⟩ rfl)
    ⟨fun _ hf => (by cases hf), fun f t live h => (by
      cases h
      exact ⟨by decide, Or.inl rfl, fun _ _ hs => by cases hs⟩)⟩ rfl
  exact ⟨_, h₄, rfl, hagrees⟩

/-- A context completes: `state` of the context that it returns to is `SUSPENDED`, and its record
is `RUNNING`. -/
theorem wrapper_simulation_fails :
    ∃ w w' : NativeWorld Bool, NativeRun w ∧ NativeStep w (.leave true) w' ∧
      w'.allocated false = true ∧
      (NativeContext.adopt false).state w' ≠ (w'.record false).state.image := by
  have h₀ : NativeRun zeroed := .start ⟨fun _ => rfl, rfl⟩
  have h₁ := h₀.step (.call (.captureCurrent false) (fun _ h => by cases h) rfl rfl)
  have h₂ := h₁.step (.call (.create true 0x1000 0x2000 0x40 0) (fun _ h => by cases h) rfl rfl)
  have h₃ := h₂.step (.call (.switch (.adopt false) (.adopt true)) (fun _ h => by cases h)
    ⟨fun c _ => (by cases c <;> rfl), fun c _ => (by cases c <;> rfl)⟩ rfl)
  have h₄ := h₃.step (.ret rfl)
  exact ⟨_, _, h₄, .leave rfl rfl, rfl, by decide⟩

end MojitoSys.Ctx
