import MojitoSys.Ctx.Lifecycle

/-!
# Completion under nested resumes

In the nested discipline a running context resumes contexts that are not waiting for it, and else
suspends by switching back to the context that resumed it, or completes. The header says that a
completion switches back to the most recent switcher of the context.

The return target is written by every switch into a context, and the completion switch of a child
is one of them: after a child completed into its parent, the return target of the parent is the
finished child. So a completion reaches the most recent explicit resumer exactly when the last
switch into the completing context was an explicit call (or the completion of that very resumer,
which was initialised again since).

## Main definitions

* `NestedRun`: the runs of the nested discipline, with the stack of waiting contexts.
* `Entrance`, `lastEntrance`, `lastResumer`: the last switch and the last explicit switch into a
  context.
* `CompletesIntoResumer`: the completion reaches the most recent explicit resumer.

## Main results

* `nestedInv_run`: the return target of the running context.
* `nested_completion_iff`: when a completion reaches the most recent explicit resumer.
* `nested_completion_traps`: a parent that completes after its child does not.
-/

namespace MojitoSys.Ctx

variable {C : Type*} [DecidableEq C]

/-- The runs of the nested discipline on a thread that captured `driver`, with the contexts that
wait for the running one, the innermost first. -/
inductive NestedRun (driver : C) : List C → List (Event C) → World C → Prop
  | start : NestedRun driver [] [.capture driver] (World.start driver)
  | init {ws tr w} (c : C) (hr : NestedRun driver ws tr w) :
      NestedRun driver ws (.init c :: tr) (w.init c)
  | resume {ws tr w w'} (t : C) (hr : NestedRun driver ws tr w) (ht : t ≠ w.cur) (hw : t ∉ ws)
      (h : w.switch t = .ok w') :
      NestedRun driver (w.cur :: ws) (.switch w.cur t :: tr) w'
  | suspend {p ws tr w w'} (hr : NestedRun driver (p :: ws) tr w) (hp : p ≠ w.cur)
      (h : w.switch p = .ok w') :
      NestedRun driver ws (.switch w.cur p :: tr) w'
  | complete {ws tr w w'} (hr : NestedRun driver ws tr w) (hl : w.live = .entry)
      (h : w.entryReturn.leave = .ok w') :
      -- a completion into another context than the waiting parent leaves nobody waiting for it
      NestedRun driver (if ws.head? = some w'.cur then ws.tail else [])
        (.complete w.cur w'.cur :: .finish w.cur :: .ret w.cur :: tr) w'

/-- A switch into a context. -/
inductive Entrance (C : Type*)
  /-- By an `ms_context_switch` call of the context. -/
  | explicit (f : C)
  /-- By the completion switch of the context. -/
  | completion (f : C)
  deriving DecidableEq, Repr

/-- The last switch into `c` since it was initialised. -/
def lastEntrance (c : C) : List (Event C) → Option (Entrance C)
  | [] => none
  | .init x :: tr => if x = c then none else lastEntrance c tr
  | .switch f t :: tr => if t = c then some (.explicit f) else lastEntrance c tr
  | .complete f t :: tr => if t = c then some (.completion f) else lastEntrance c tr
  | _ :: tr => lastEntrance c tr

/-- The context whose explicit switch call resumed `c` most recently since it was initialised. -/
def lastResumer (c : C) : List (Event C) → Option C
  | [] => none
  | .init x :: tr => if x = c then none else lastResumer c tr
  | .switch f t :: tr => if t = c then some f else lastResumer c tr
  | _ :: tr => lastResumer c tr

/-- The entry of the running context returns, and the completion switch resumes the context whose
explicit switch call most recently resumed it. -/
def CompletesIntoResumer (tr : List (Event C)) (w : World C) : Prop :=
  ∃ w', w.entryReturn.leave = .ok w' ∧ lastResumer w.cur tr = some w'.cur

theorem lastResumer_of_explicit {c f : C} {tr : List (Event C)}
    (h : lastEntrance c tr = some (.explicit f)) : lastResumer c tr = some f := by
  induction tr with
  | nil => cases h
  | cons e tr ih =>
    cases e <;> simp only [lastEntrance, lastResumer] at h ⊢ <;> grind

/-! ### The invariant -/

/-- A record that a switch into it accepts. -/
def Resumable (s : CtxState) : Prop := s = .empty ∨ s = .suspended

/-- The return target of the running context, and the state of the context it names. -/
def EntranceOk (w : World C) : Option (Entrance C) → Prop
  | none => w.live = .entry → (w.record w.cur).retTo = none
  | some (.explicit f) =>
    (w.record w.cur).retTo = some f ∧ f ≠ w.cur ∧ Resumable (w.record f).state
  | some (.completion f) =>
    (w.record w.cur).retTo = some f ∧ f ≠ w.cur ∧
      ((w.record f).state = .finished ∨ (w.record f).state = .empty)

/-- The invariant of a nested run. -/
structure NestedInv (tr : List (Event C)) (w : World C) : Prop where
  noHook : ∀ c, (w.record c).finishCb = 0
  alive : (w.record w.cur).state ≠ .dead ∧ (w.record w.cur).state ≠ .finished
  entrance : EntranceOk w (lastEntrance w.cur tr)

theorem nestedInv_start (driver : C) : NestedInv [.capture driver] (World.start driver) where
  noHook c := by by_cases hc : c = driver <;> simp [World.start, hc]
  alive := by simp [World.start]
  entrance := by simp [lastEntrance, EntranceOk, World.start]

/-- Initialising another context keeps what the running one was entered by. -/
theorem EntranceOk.init {w : World C} {c : C} {e : Option (Entrance C)} (h : EntranceOk w e)
    (hc : c ≠ w.cur) : EntranceOk (w.init c) e := by
  have hcur : (w.init c).record w.cur = w.record w.cur := by
    simp [World.init, World.setRecord, Function.update_of_ne (Ne.symm hc)]
  have hstate (f : C) : ((w.init c).record f).state = (w.record f).state ∨
      ((w.init c).record f).state = .empty := by
    by_cases hf : f = c <;> simp [World.init, World.setRecord, hf]
  match e, h with
  | none, h => exact fun hl => hcur ▸ h hl
  | some (.explicit f), ⟨hret, hne, hres⟩ =>
    refine ⟨hcur ▸ hret, hne, ?_⟩
    rcases hstate f with hf | hf
    · exact hf ▸ hres
    · exact Or.inl hf
  | some (.completion f), ⟨hret, hne, hres⟩ =>
    refine ⟨hcur ▸ hret, hne, ?_⟩
    rcases hstate f with hf | hf
    · exact hf ▸ hres
    · exact Or.inr hf

theorem NestedInv.init {tr : List (Event C)} {w : World C} (hi : NestedInv tr w) (c : C) :
    NestedInv (.init c :: tr) (w.init c) where
  noHook x := by
    by_cases hx : x = c <;> simp [World.init, World.setRecord, hx, hi.noHook]
  alive := by
    by_cases hc : w.cur = c
    · simp [World.init, World.setRecord, hc]
    · simpa [World.init, World.setRecord, hc] using hi.alive
  entrance := by
    by_cases hc : c = w.cur
    · have htr : lastEntrance (w.init c).cur (.init c :: tr) = none := if_pos hc
      rw [htr]
      intro _
      simp [World.init, World.setRecord, hc]
    · have htr : lastEntrance (w.init c).cur (.init c :: tr) = lastEntrance w.cur tr := if_neg hc
      rw [htr]
      exact hi.entrance.init hc

/-- A switch into `t` from a world `v` without hooks: the return target of `t` is the context that
switched, and its state is the one it was switched out with. -/
theorem switch_entrance {v w' : World C} {t : C} (ht : t ≠ v.cur) (h : v.switch t = .ok w')
    (hook : ∀ c, (v.record c).finishCb = 0) :
    (∀ c, (w'.record c).finishCb = 0) ∧ w'.cur = t ∧ (w'.record t).state = .running ∧
      (w'.record t).retTo = some v.cur ∧
      (w'.record v.cur).state = (World.switchedOut (v.record v.cur) v.live).state := by
  obtain ⟨-, hcur, -, hrt, hrc, hrest⟩ := World.switch_ok ht h
  refine ⟨fun c => ?_, hcur, by simp [hrt, World.armed], by simp [hrt, World.armed], by rw [hrc]⟩
  by_cases hct : c = t
  · subst hct
    simpa [hrt, World.armed] using hook c
  · by_cases hcc : c = v.cur
    · subst hcc
      simpa [hrc, World.switchedOut] using hook v.cur
    · rw [hrest c hct hcc]
      exact hook c

theorem NestedInv.switch {tr : List (Event C)} {w w' : World C} (hi : NestedInv tr w) {t : C}
    (ht : t ≠ w.cur) (h : w.switch t = .ok w') : NestedInv (.switch w.cur t :: tr) w' := by
  obtain ⟨hhook, hcur, hst, hret, hout⟩ := switch_entrance ht h hi.noHook
  refine ⟨hhook, ?_, ?_⟩
  · simp [hcur, hst]
  · have htr : lastEntrance w'.cur (.switch w.cur t :: tr) = some (.explicit w.cur) :=
      if_pos hcur.symm
    rw [htr]
    refine ⟨hcur ▸ hret, hcur ▸ Ne.symm ht, ?_⟩
    rw [hout]
    have halive := hi.alive
    cases hs : (w.record w.cur).state <;> simp_all [World.switchedOut, Resumable]

/-- Without a hook the return of the entry marks the record. -/
theorem entryReturn_eq_finish {w : World C} (h : (w.record w.cur).finishCb = 0) :
    w.entryReturn = w.finish := if_pos h

theorem finish_record_of_ne {w : World C} {c : C} (hc : c ≠ w.cur) :
    w.finish.record c = w.record c := by
  simp [World.finish, World.setRecord, hc]

theorem finish_record_cur (w : World C) :
    w.finish.record w.cur = { w.record w.cur with state := .finished } := by
  simp [World.finish, World.setRecord]

theorem NestedInv.complete {tr : List (Event C)} {w w' : World C} (hi : NestedInv tr w)
    (h : w.entryReturn.leave = .ok w') :
    NestedInv (.complete w.cur w'.cur :: .finish w.cur :: .ret w.cur :: tr) w' := by
  rw [entryReturn_eq_finish (hi.noHook _)] at h
  obtain ⟨t, -, ht, hsw⟩ := World.leave_ok h
  have hfin (c : C) : (w.finish.record c).finishCb = 0 := by
    by_cases hc : c = w.cur
    · subst hc
      simpa [finish_record_cur] using hi.noHook w.cur
    · simpa [finish_record_of_ne hc] using hi.noHook c
  obtain ⟨hhook, hcur, hst, hret, hout⟩ := switch_entrance ht hsw hfin
  refine ⟨hhook, ?_, ?_⟩
  · simp [hcur, hst]
  · have htr : lastEntrance w'.cur (.complete w.cur w'.cur :: .finish w.cur :: .ret w.cur :: tr) =
        some (.completion w.cur) := if_pos rfl
    rw [htr]
    refine ⟨hcur ▸ hret, hcur ▸ Ne.symm ht, Or.inl ?_⟩
    have hcurf : w.finish.cur = w.cur := rfl
    rw [hcurf] at hout
    rw [hout, finish_record_cur]
    simp [World.switchedOut]

theorem nestedInv_run {driver : C} {ws : List C} {tr : List (Event C)} {w : World C}
    (hr : NestedRun driver ws tr w) : NestedInv tr w := by
  induction hr with
  | start => exact nestedInv_start driver
  | init c _ ih => exact ih.init c
  | resume t _ ht _ h ih => exact ih.switch ht h
  | suspend _ hp h ih => exact ih.switch hp h
  | complete _ _ h ih => exact ih.complete h

/-! ### Completion -/

section Completion

variable {tr : List (Event C)} {w : World C} {f : C}

/-- The completion switch goes to the return target, or traps on it. -/
theorem leave_of_retTo (hhook : (w.record w.cur).finishCb = 0)
    (hret : (w.record w.cur).retTo = some f) (hne : f ≠ w.cur) :
    w.entryReturn.leave = w.finish.switch f := by
  have hr : (w.finish.record w.finish.cur).retTo = some f := by
    change (w.finish.record w.cur).retTo = some f
    simpa [finish_record_cur] using hret
  have hne' : f ≠ w.finish.cur := hne
  rw [entryReturn_eq_finish hhook]
  simp [World.leave, hr, hne']

theorem exists_leave_of_resumable (hhook : (w.record w.cur).finishCb = 0)
    (hret : (w.record w.cur).retTo = some f) (hne : f ≠ w.cur)
    (hres : Resumable (w.record f).state) :
    ∃ w', w.entryReturn.leave = .ok w' ∧ w'.cur = f := by
  have hst : Resumable (w.finish.record f).state := by rwa [finish_record_of_ne hne]
  have hne' : f ≠ w.finish.cur := hne
  obtain ⟨w', hw'⟩ := World.switch_isOk hne' hst
  exact ⟨w', (leave_of_retTo hhook hret hne).trans hw', (World.switch_ok hne' hw').2.1⟩

/-- A context that initialised its own record while it ran has no return target. -/
theorem leave_of_no_retTo (hhook : (w.record w.cur).finishCb = 0)
    (hret : (w.record w.cur).retTo = none) : w.entryReturn.leave = .error .nullTarget := by
  have hr : (w.finish.record w.finish.cur).retTo = none := by
    change (w.finish.record w.cur).retTo = none
    simpa [finish_record_cur] using hret
  rw [entryReturn_eq_finish hhook]
  simp [World.leave, hr]

theorem leave_of_finished (hhook : (w.record w.cur).finishCb = 0)
    (hret : (w.record w.cur).retTo = some f) (hne : f ≠ w.cur)
    (hfin : (w.record f).state = .finished) :
    w.entryReturn.leave = .error (.trap 0x66) := by
  rw [leave_of_retTo hhook hret hne, World.switch_of_ne (w := w.finish) hne,
    finish_record_of_ne hne, hfin]
  rfl

end Completion

/-- In every nested run: when the entry of the running context returns, the completion switch
resumes its most recent explicit resumer exactly when the last switch into the context was an
explicit call, or the completion of that resumer, initialised again since. -/
theorem nested_completion_iff {driver : C} {ws : List C} {tr : List (Event C)} {w : World C}
    (hr : NestedRun driver ws tr w) (hl : w.live = .entry) :
    CompletesIntoResumer tr w ↔
      (∃ f, lastEntrance w.cur tr = some (.explicit f)) ∨
        ∃ f, lastEntrance w.cur tr = some (.completion f) ∧ (w.record f).state = .empty ∧
          lastResumer w.cur tr = some f := by
  have hi := nestedInv_run hr
  have hhook := hi.noHook w.cur
  cases he : lastEntrance w.cur tr with
  | none =>
    have hnone : EntranceOk w none := he ▸ hi.entrance
    have hfault := leave_of_no_retTo hhook (hnone hl)
    have hdont : ¬ CompletesIntoResumer tr w := by
      rintro ⟨w', hw', -⟩
      simp [hfault] at hw'
    simp [hdont]
  | some e =>
    cases e with
    | explicit f =>
      obtain ⟨hret, hne, hres⟩ : EntranceOk w (some (.explicit f)) := he ▸ hi.entrance
      obtain ⟨w', hw', hcur⟩ := exists_leave_of_resumable hhook hret hne hres
      have hdo : CompletesIntoResumer tr w := ⟨w', hw', hcur ▸ lastResumer_of_explicit he⟩
      exact ⟨fun _ => Or.inl ⟨f, rfl⟩, fun _ => hdo⟩
    | completion f =>
      obtain ⟨hret, hne, hres⟩ : EntranceOk w (some (.completion f)) := he ▸ hi.entrance
      rcases hres with hfin | hempty
      · -- the finished child is still the return target
        have htrap := leave_of_finished hhook hret hne hfin
        have hdont : ¬ CompletesIntoResumer tr w := by
          rintro ⟨w', hw', -⟩
          simp [htrap] at hw'
        simp [hdont, hfin]
      · obtain ⟨w', hw', hcur⟩ := exists_leave_of_resumable hhook hret hne (Or.inl hempty)
        have hiff : CompletesIntoResumer tr w ↔ lastResumer w.cur tr = some f := by
          refine ⟨?_, fun h => ⟨w', hw', hcur ▸ h⟩⟩
          rintro ⟨w'', hw'', hlast⟩
          have : w'' = w' := by simpa [hw'] using hw''.symm
          rw [hlast, this, hcur]
        simp [hiff, hempty]

/-- Driver `0` resumes `1`, which resumes `2`; `2` completes into `1`, which suspends to `0` and is
resumed again. Then the entry of `1` returns, and `0` goes on. -/
theorem nested_completion_iff_child :
    ∃ ws tr w, NestedRun (0 : Fin 3) ws tr w ∧ w.cur = 1 ∧ w.live = .entry ∧
      (w.record 2).state = .finished ∧ CompletesIntoResumer tr w := by
  have h₀ : NestedRun (0 : Fin 3) _ _ _ := .start
  have h₁ := h₀.init 1
  have h₂ := h₁.init 2
  have h₃ := h₂.resume 1 (by decide) (by decide) rfl
  have h₄ := h₃.resume 2 (by decide) (by decide) rfl
  have h₅ := h₄.complete rfl rfl
  have h₆ := @NestedRun.suspend _ _ _ 0 [] _ _ _ h₅ (by decide) rfl
  have h₇ := h₆.resume 1 (by decide) (by decide) rfl
  exact ⟨_, _, _, h₇, rfl, rfl, rfl, (nested_completion_iff h₇ rfl).mpr (Or.inl ⟨0, rfl⟩)⟩

/-- Driver `0` resumes `1`, which resumes `2`; `2` completes into `1`, and the entry of `1`
returns: the completion switch traps on the finished `2`. -/
theorem nested_completion_traps :
    ¬ ∀ ws tr (w : World (Fin 3)), NestedRun 0 ws tr w → w.live = .entry →
      CompletesIntoResumer tr w := by
  have h₀ : NestedRun (0 : Fin 3) _ _ _ := .start
  have h₁ := h₀.init 1
  have h₂ := h₁.init 2
  have h₃ := h₂.resume 1 (by decide) (by decide) rfl
  have h₄ := h₃.resume 2 (by decide) (by decide) rfl
  have h₅ := h₄.complete rfl rfl
  intro h
  obtain ⟨w', hw', -⟩ := h _ _ _ h₅ rfl
  cases hw'

end MojitoSys.Ctx
