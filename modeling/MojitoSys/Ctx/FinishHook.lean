import MojitoSys.Ctx.Lifecycle

/-!
# The finish hook

A lifetime of a context begins with `ms_context_init` and ends when the record is initialised
again, destroyed or captured. The history of a context reads its current lifetime off the trace of
a run: the hook registered last, the hook that was registered when the entry returned, and the
events of the completion stage.

In every run in which no context destroys itself, the completion stage of a lifetime is one of
three: nothing, as long as the entry has not returned; the return and the `FINISHED` mark, when no
hook was registered at the return; and else the return, one call of the hook that was registered at
the return, the return of the hook, and the mark. A context may also initialise its own record from
inside its finish hook: the hook of the earlier lifetime then returns into the new one and marks it,
and the hook of the new lifetime does not run. The invariant relates the history of a context to the
place where its code stands. A context that destroys itself breaks it: its code stays inside the
entry of a destroyed record.

## Main definitions

* `History`, `history`: the current lifetime of a context.
* `HookLaw`: the forms of a completion stage.
* `PlaceOk`, `HookInv`: the invariant of a run.

## Main results

* `hookInv_step`, `hookInv_run`: the invariant is preserved by a step and holds along a run.
* `finish_hook_exactly_once`: the law of the finish hook.
* `finish_hook_self_destroyed`: a hook that runs on a destroyed record.
-/

namespace MojitoSys.Ctx

variable {C : Type*}

/-! ### The history of a context -/

/-- The current lifetime of a context. -/
structure History (C : Type*) where
  /-- The record was initialised, and not destroyed or captured since. -/
  opened : Bool
  /-- The registered hook and its argument. -/
  hook : Word × Word
  /-- The hook that was registered when the entry returned. -/
  atReturn : Option (Word × Word)
  /-- The events of the completion stage, the newest first. -/
  completion : List (Event C)

/-- The history of `c` after one more event. -/
def Event.extend [DecidableEq C] (c : C) (e : Event C) (h : History C) : History C :=
  match e with
  | .init x => if x = c then ⟨true, (0, 0), none, []⟩ else h
  | .destroy _ x => if x = c then ⟨false, (0, 0), none, []⟩ else h
  | .capture x => if x = c then ⟨false, h.hook, none, []⟩ else h
  | .setFinishHook x cb ud => if x = c then { h with hook := (cb, ud) } else h
  | .ret x =>
    if x = c then { h with atReturn := some h.hook, completion := e :: h.completion } else h
  | .hook x _ _ | .hookRet x | .finish x =>
    if x = c then { h with completion := e :: h.completion } else h
  | .switch _ _ | .complete _ _ => h

/-- The history of `c` in a trace. -/
def history [DecidableEq C] (c : C) : List (Event C) → History C
  | [] => ⟨false, (0, 0), none, []⟩
  | e :: tr => e.extend c (history c tr)

theorem Event.extend_finish_self [DecidableEq C] (c : C) (h : History C) :
    (Event.finish c).extend c h = { h with completion := .finish c :: h.completion } := by
  simp [Event.extend]

theorem Event.extend_finish_of_ne [DecidableEq C] {c x : C} (hx : x ≠ c) (h : History C) :
    (Event.finish c).extend x h = h := by
  simp [Event.extend, Ne.symm hx]

/-- No part of the completion stage has run. -/
def History.Idle (h : History C) : Prop := h.atReturn = none ∧ h.completion = []

/-- The completion stage of `c` is inside the finish hook. -/
def History.InHook (c : C) (h : History C) : Prop :=
  ∃ cb ud, cb ≠ 0 ∧ h.atReturn = some (cb, ud) ∧ h.completion = [.hook c cb ud, .ret c]

/-- The completion stage of `c` is over: the hook that was registered when the entry returned, if
any, was called once and returned, and the record was marked. -/
def History.Completed (c : C) (h : History C) : Prop :=
  (∃ ud, h.atReturn = some (0, ud) ∧ h.completion = [.finish c, .ret c]) ∨
    ∃ cb ud, cb ≠ 0 ∧ h.atReturn = some (cb, ud) ∧
      h.completion = [.finish c, .hookRet c, .hook c cb ud, .ret c]

/-- The hook of the earlier lifetime, in which the record was initialised, returned and marked the
record. The entry of this lifetime did not return, and its hook was not called. -/
def History.Overrun (c : C) (h : History C) : Prop :=
  h.atReturn = none ∧ h.completion = [.finish c, .hookRet c]

/-- The law of the finish hook: outside a lifetime nothing of the completion stage runs, and in a
lifetime it has not begun, or is inside the hook, or is over, or is that of the earlier lifetime. -/
def HookLaw (c : C) (h : History C) : Prop :=
  h.Idle ∨ h.opened = true ∧ (h.InHook c ∨ h.Completed c ∨ h.Overrun c)

/-! ### The invariant -/

/-- The history of `c` and the state of its record, when its code stands at a place. -/
def PlaceOk (c : C) (h : History C) (state : CtxState) : Phase → Prop
  | .blank => h.Idle ∧ state = .dead
  | .host => h.Idle ∧ state ≠ .finished
  | .fresh | .entry => h.opened = true ∧ h.Idle ∧ state ≠ .finished
  | .hook => h.opened = true ∧ (h.InHook c ∨ h.Idle) ∧ state ≠ .finished
  | .done => h.opened = true ∧ (h.Completed c ∨ h.Overrun c) ∧ state = .finished

/-- The invariant of a run: the registered hooks are in the records, the running code is where its
history says, and so is the saved place of every record that is not in use. -/
structure HookInv [DecidableEq C] (tr : List (Event C)) (w : World C) : Prop where
  hook : ∀ c, (history c tr).hook = ((w.record c).finishCb, (w.record c).finishUd)
  awake : w.live ≠ .blank
  live : PlaceOk w.cur (history w.cur tr) (w.record w.cur).state w.live
  saved : ∀ c, c ≠ w.cur ∨ w.live = .host →
    PlaceOk c (history c tr) (w.record c).state (w.record c).saved

section Place

variable {c : C} {h : History C} {s : CtxState} {p : Phase}

theorem PlaceOk.hookLaw (hp : PlaceOk c h s p) : HookLaw c h := by
  cases p with
  | blank => exact Or.inl hp.1
  | host => exact Or.inl hp.1
  | fresh => exact Or.inl hp.2.1
  | entry => exact Or.inl hp.2.1
  | hook =>
    rcases hp.2.1 with hin | hidle
    · exact Or.inr ⟨hp.1, Or.inl hin⟩
    · exact Or.inl hidle
  | done => exact Or.inr ⟨hp.1, Or.inr hp.2.1⟩

theorem History.Idle.finish_notMem (hi : h.Idle) : Event.finish c ∉ h.completion := by
  simp [hi.2]

theorem History.InHook.finish_notMem (hi : h.InHook c) : Event.finish c ∉ h.completion := by
  obtain ⟨cb, ud, -, -, hc⟩ := hi
  simp [hc]

theorem History.Completed.finish_mem (hi : h.Completed c) : Event.finish c ∈ h.completion := by
  obtain ⟨ud, -, hc⟩ | ⟨cb, ud, -, -, hc⟩ := hi <;> simp [hc]

theorem History.Overrun.finish_mem (hi : h.Overrun c) : Event.finish c ∈ h.completion := by
  simp [hi.2]

/-- The record reads `FINISHED` exactly when the completion stage is over, and then the code
stands at the permanent switch-out. -/
theorem PlaceOk.finished_iff (hp : PlaceOk c h s p) :
    (s = .finished ↔ Event.finish c ∈ h.completion) ∧
      (Event.finish c ∈ h.completion → p = .done) := by
  cases p with
  | blank => simp [hp.1.finish_notMem, hp.2]
  | host => simp [hp.1.finish_notMem, hp.2]
  | fresh => simp [hp.2.1.finish_notMem, hp.2.2]
  | entry => simp [hp.2.1.finish_notMem, hp.2.2]
  | hook =>
    have hno : Event.finish c ∉ h.completion :=
      hp.2.1.elim History.InHook.finish_notMem History.Idle.finish_notMem
    simp [hno, hp.2.2]
  | done =>
    have hmem : Event.finish c ∈ h.completion :=
      hp.2.1.elim History.Completed.finish_mem History.Overrun.finish_mem
    simp [hmem, hp.2.2]

/-- The place does not depend on the registered hook. -/
theorem PlaceOk.setHook (hp : PlaceOk c h s p) (hook : Word × Word) :
    PlaceOk c { h with hook := hook } s p := by
  cases p <;> exact hp

/-- The place survives the demotion of a switch-out. -/
theorem PlaceOk.demote (hp : PlaceOk c h s p) :
    PlaceOk c h (if s = .running then .suspended else s) p := by
  split
  · subst s
    cases p <;> simp_all [PlaceOk]
  · exact hp

/-- A resumable record is resumed at the place its history says. -/
theorem PlaceOk.resume (hp : PlaceOk c h s p) (hs : s = .empty ∨ s = .suspended) :
    PlaceOk c h .running p ∧ PlaceOk c h .running p.resume ∧ p.resume ≠ .blank := by
  rcases hs with rfl | rfl <;> cases p <;> simp_all [PlaceOk, Phase.resume]

end Place

/-! ### One step -/

section Step

variable [DecidableEq C] {tr : List (Event C)} {w w' : World C}

/-- Replacing one record with a record whose place fits the history. -/
theorem HookInv.setRecord (hi : HookInv tr w) {e : Event C} {c : C} {r : LifeRecord C}
    (hne : ∀ x, x ≠ c → e.extend x (history x tr) = history x tr)
    (hhook : (e.extend c (history c tr)).hook = (r.finishCb, r.finishUd))
    (hlive : c = w.cur → PlaceOk c (e.extend c (history c tr)) r.state w.live)
    (hsaved : c ≠ w.cur ∨ w.live = .host →
      PlaceOk c (e.extend c (history c tr)) r.state r.saved) :
    HookInv (e :: tr) (w.setRecord c r) where
  hook x := by
    by_cases hx : x = c
    · subst hx
      simpa [history, World.setRecord] using hhook
    · simpa [history, World.setRecord, hx, hne x hx] using hi.hook x
  awake := hi.awake
  live := by
    by_cases hx : w.cur = c
    · have := hlive hx.symm
      simpa [history, World.setRecord, hx] using this
    · simpa [history, World.setRecord, hx, hne _ hx] using hi.live
  saved x hxc := by
    by_cases hx : x = c
    · subst hx
      simpa [history, World.setRecord] using hsaved hxc
    · simpa [history, World.setRecord, hx, hne x hx] using hi.saved x hxc

/-- A switch keeps the invariant: nothing of any lifetime happens in it. -/
theorem HookInv.switch (hi : HookInv tr w) {e : Event C} {t : C}
    (he : ∀ x, e.extend x (history x tr) = history x tr) (ht : t ≠ w.cur)
    (h : w.switch t = .ok w') : HookInv (e :: tr) w' := by
  obtain ⟨hst, hcur, hlive, hrt, hrc, hrest⟩ := World.switch_ok ht h
  have hh (x : C) : history x (e :: tr) = history x tr := he x
  have htarget := (hi.saved t (Or.inl ht)).resume hst
  refine ⟨fun x => ?_, hlive ▸ htarget.2.2, ?_, fun x hx => ?_⟩
  · rw [hh, hi.hook]
    by_cases hxt : x = t
    · subst hxt
      simp [hrt, World.armed]
    · by_cases hxc : x = w.cur
      · subst hxc
        simp [hrc, World.switchedOut]
      · rw [hrest x hxt hxc]
  · rw [hh, hcur, hlive, hrt]
    exact htarget.2.1
  · rw [hh]
    by_cases hxt : x = t
    · subst hxt
      rw [hrt]
      exact htarget.1
    · by_cases hxc : x = w.cur
      · subst hxc
        rw [hrc]
        exact hi.live.demote
      · rw [hrest x hxt hxc]
        exact hi.saved x (Or.inl hxc)

/-- The `FINISHED` mark ends a completion stage. -/
theorem HookInv.finish (hi : HookInv tr w) {e : Event C}
    (hne : ∀ x, x ≠ w.cur → e.extend x (history x tr) = history x tr)
    (hhook : (e.extend w.cur (history w.cur tr)).hook = (history w.cur tr).hook)
    (hopen : (e.extend w.cur (history w.cur tr)).opened = true)
    (hdone : ((Event.finish w.cur).extend w.cur
        (e.extend w.cur (history w.cur tr))).Completed w.cur ∨
      ((Event.finish w.cur).extend w.cur (e.extend w.cur (history w.cur tr))).Overrun w.cur) :
    HookInv (.finish w.cur :: e :: tr) w.finish where
  hook x := by
    by_cases hx : x = w.cur
    · subst hx
      simpa [history, World.finish, World.setRecord, Event.extend_finish_self, hhook]
        using hi.hook w.cur
    · simpa [history, World.finish, World.setRecord, Event.extend_finish_of_ne hx, hx, hne x hx]
        using hi.hook x
  awake := by simp [World.finish]
  live := by
    refine ⟨?_, hdone, ?_⟩
    · simpa [history, World.finish, World.setRecord, Event.extend_finish_self] using hopen
    · simp [World.finish, World.setRecord]
  saved x hx := by
    have hxc : x ≠ w.cur := by
      rcases hx with hx | hx
      · exact hx
      · cases hx
    simpa [history, World.finish, World.setRecord, Event.extend_finish_of_ne hxc, hxc, hne x hxc]
      using hi.saved x (Or.inl hxc)

/-- The entry returns and the trampoline calls the hook. -/
theorem HookInv.callHook (hi : HookInv tr w) (hl : w.live = .entry)
    (hcb : (w.record w.cur).finishCb ≠ 0) :
    HookInv (.hook w.cur (w.record w.cur).finishCb (w.record w.cur).finishUd :: .ret w.cur :: tr)
      w.entryReturn := by
  have hw : w.entryReturn = { w with live := .hook } := if_neg hcb
  obtain ⟨hopen, hidle, hst⟩ : PlaceOk w.cur _ _ .entry := hl ▸ hi.live
  rw [hw]
  refine ⟨fun x => ?_, by simp,
    ⟨?_, Or.inl ⟨_, (w.record w.cur).finishUd, hcb, ?_, ?_⟩, hst⟩, fun x hx => ?_⟩
  · by_cases hx : w.cur = x <;> simpa [history, Event.extend, hx] using hi.hook x
  · simpa [history, Event.extend] using hopen
  · simpa [history, Event.extend] using hi.hook w.cur
  · simp [history, Event.extend, hidle.2]
  · have hxc : w.cur ≠ x := by
      rcases hx with hx | hx
      · exact Ne.symm hx
      · cases hx
    simpa [history, Event.extend, hxc] using hi.saved x (Or.inl (Ne.symm hxc))

/-- The host saves itself in a record. -/
theorem HookInv.capture (hi : HookInv tr w) (hl : w.live = .host) (c : C) :
    HookInv (.capture c :: tr) (w.capture c) := by
  have hsaved (x : C) : PlaceOk x (history x (.capture c :: tr)) ((w.capture c).record x).state
      ((w.capture c).record x).saved := by
    by_cases hx : x = c
    · subst hx
      simp [history, Event.extend, World.capture, World.setRecord, hl, PlaceOk, History.Idle]
    · simpa [history, Event.extend, World.capture, World.setRecord, hx, Ne.symm hx]
        using hi.saved x (Or.inr hl)
  refine ⟨fun x => ?_, hi.awake, ?_, fun x _ => hsaved x⟩
  · by_cases hx : x = c
    · subst hx
      simpa [history, Event.extend, World.capture, World.setRecord] using hi.hook x
    · simpa [history, Event.extend, World.capture, World.setRecord, hx, Ne.symm hx]
        using hi.hook x
  · have hlive : (w.capture c).live = ((w.capture c).record c).saved := by
      simp [World.capture, World.setRecord]
    exact hlive ▸ hsaved c

/-- What one step does to the invariant. -/
theorem hookInv_step {es : List (Event C)} (hi : HookInv tr w) (hs : Step w es w')
    (hself : ∀ c, .destroy c c ∉ es) : HookInv (es ++ tr) w' := by
  cases hs with
  | init c hl =>
    refine hi.setRecord (fun x hx => by simp [Event.extend, Ne.symm hx]) (by simp [Event.extend])
      (fun hcur => ?_) fun _ => by simp [Event.extend, PlaceOk, History.Idle]
    cases hp : w.live with
    | blank => exact absurd hp hi.awake
    | fresh => simp [Event.extend, PlaceOk, History.Idle]
    | entry => simp [Event.extend, PlaceOk, History.Idle]
    | hook => simp [Event.extend, PlaceOk, History.Idle]
    | done => exact absurd hp hl
    | host => simp [Event.extend, PlaceOk, History.Idle]
  | setFinishHook c cb ud hl =>
    have hkeep {s p} (hp : PlaceOk c (history c tr) s p) :
        PlaceOk c ((Event.setFinishHook c cb ud).extend c (history c tr)) s p := by
      have hext : (Event.setFinishHook c cb ud).extend c (history c tr) =
          { history c tr with hook := (cb, ud) } := if_pos rfl
      rw [hext]
      exact hp.setHook (cb, ud)
    exact hi.setRecord (fun x hx => by simp [Event.extend, Ne.symm hx]) (by simp [Event.extend])
      (fun hcur => hkeep (hcur ▸ hi.live)) fun hc => hkeep (hi.saved c hc)
  | destroy c hl =>
    have hc : c ≠ w.cur := by
      rintro rfl
      exact hself _ List.mem_cons_self
    exact hi.setRecord (fun x hx => by simp [Event.extend, Ne.symm hx]) (by simp [Event.extend])
      (fun hcur => absurd hcur hc) fun _ => by simp [Event.extend, PlaceOk, History.Idle]
  | capture c hl => exact hi.capture hl c
  | switch t hl ht h => exact hi.switch (fun x => rfl) ht h
  | retHook hl hcb => exact hi.callHook hl hcb
  | retFinish hl hcb =>
    have hw : w.entryReturn = w.finish := if_pos hcb
    obtain ⟨hopen, hidle, -⟩ : PlaceOk w.cur _ _ .entry := hl ▸ hi.live
    rw [hw]
    refine hi.finish (fun x hx => by simp [Event.extend, Ne.symm hx]) (by simp [Event.extend])
      (by simpa [Event.extend] using hopen) (Or.inl (Or.inl ⟨(w.record w.cur).finishUd, ?_, ?_⟩))
    · simp [Event.extend, hi.hook, hcb]
    · simp [Event.extend, hidle.2]
  | hookReturn hl =>
    obtain ⟨hopen, hin, -⟩ : PlaceOk w.cur _ _ .hook := hl ▸ hi.live
    refine hi.finish (fun x hx => by simp [Event.extend, Ne.symm hx]) (by simp [Event.extend])
      (by simpa [Event.extend] using hopen) ?_
    rcases hin with ⟨cb, ud, hne, hret, hcompl⟩ | hidle
    · refine Or.inl (Or.inr ⟨cb, ud, hne, ?_, ?_⟩)
      · simp [Event.extend, hret]
      · simp [Event.extend, hcompl]
    · -- the record was initialised again from inside the hook
      refine Or.inr ⟨?_, ?_⟩
      · simp [Event.extend, hidle.1]
      · simp [Event.extend, hidle.2]
  | leave hl h =>
    obtain ⟨t, hr, ht, hsw⟩ := World.leave_ok h
    exact hi.switch (fun x => rfl) ht hsw

end Step

/-! ### Whole runs -/

section Run

variable [DecidableEq C] {driver : C} {tr : List (Event C)} {w : World C}

theorem hookInv_start (driver : C) : HookInv [.capture driver] (World.start driver) where
  hook c := by
    by_cases hc : c = driver <;> simp [history, Event.extend, World.start, hc, Ne.symm]
  awake := by simp [World.start]
  live := by simp [World.start, history, Event.extend, PlaceOk, History.Idle]
  saved c _ := by
    by_cases hc : c = driver
    · simp [World.start, history, Event.extend, PlaceOk, History.Idle, hc]
    · simp [World.start, history, Event.extend, PlaceOk, History.Idle, hc, Ne.symm hc]

theorem hookInv_run (hr : Run driver tr w) (hself : ∀ c, .destroy c c ∉ tr) : HookInv tr w := by
  induction hr with
  | start => exact hookInv_start driver
  | step _ hs ih =>
    exact hookInv_step (ih fun c hc => hself c (List.mem_append_right _ hc)) hs fun c hc =>
      hself c (List.mem_append_left _ hc)

/-- The law of the finish hook, in every state of every run in which no context destroys itself,
and for every context. In its current lifetime the completion stage has not begun, or it called the
hook that was registered when the entry returned, once and after the return; the record reads
`FINISHED` exactly when the hook has returned as well, and from then on the code of the context
stands at the permanent switch-out. Outside a lifetime, and in one whose entry has not returned, the
hook has not run. -/
theorem finish_hook_exactly_once (hr : Run driver tr w) (hself : ∀ c, .destroy c c ∉ tr) (c : C) :
    HookLaw c (history c tr) ∧
      ((w.record c).state = .finished ↔ Event.finish c ∈ (history c tr).completion) ∧
      (Event.finish c ∈ (history c tr).completion → c = w.cur → w.live = .done) := by
  have hi := hookInv_run hr hself
  by_cases hc : c = w.cur
  · subst hc
    have hp := hi.live
    exact ⟨hp.hookLaw, hp.finished_iff.1, fun h _ => hp.finished_iff.2 h⟩
  · have hp := hi.saved c (Or.inl hc)
    exact ⟨hp.hookLaw, hp.finished_iff.1, fun _ h => absurd h hc⟩

end Run

/-- A context whose hook `7` suspends inside and is resumed before it returns. -/
theorem finish_hook_exactly_once_suspended :
    ∃ tr w, Run (0 : Fin 2) tr w ∧ HookLaw 1 (history 1 tr) ∧
      (history 1 tr).completion = [.finish 1, .hookRet 1, .hook 1 7 9, .ret 1] := by
  have h₀ : Run (0 : Fin 2) _ _ := .start
  have h₁ := h₀.step (.init 1 (by decide))
  have h₂ := h₁.step (.setFinishHook 1 7 9 (by decide))
  have h₃ := h₂.step (.switch 1 (by decide) (by decide) rfl)
  have h₄ := h₃.step (.retHook rfl (by decide))
  have h₅ := h₄.step (.switch 0 (by decide) (by decide) rfl)
  have h₆ := h₅.step (.switch 1 (by decide) (by decide) rfl)
  have h₇ := h₆.step (.hookReturn rfl)
  have h₈ := h₇.step (.leave rfl rfl)
  exact ⟨_, _, h₈, (finish_hook_exactly_once h₈ (by decide) 1).1, rfl⟩

/-- A context destroys itself in its entry and registers the hook `7` afterwards: the trampoline
calls the hook on the destroyed record. -/
theorem finish_hook_self_destroyed :
    ∃ tr w, Run (0 : Fin 2) tr w ∧ (history 1 tr).opened = false ∧
      (history 1 tr).completion = [.finish 1, .hookRet 1, .hook 1 7 9, .ret 1] ∧
      ¬ HookLaw 1 (history 1 tr) := by
  have h₀ : Run (0 : Fin 2) _ _ := .start
  have h₁ := h₀.step (.init 1 (by decide))
  have h₂ := h₁.step (.switch 1 (by decide) (by decide) rfl)
  have h₃ := h₂.step (.destroy 1 (by decide))
  have h₄ := h₃.step (.setFinishHook 1 7 9 (by decide))
  have h₅ := h₄.step (.retHook rfl (by decide))
  have h₆ := h₅.step (.hookReturn rfl)
  refine ⟨_, _, h₆, rfl, rfl, ?_⟩
  rintro (hidle | ⟨hopen, -⟩)
  · cases hidle.2
  · cases hopen

end MojitoSys.Ctx
