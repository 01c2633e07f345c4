import MojitoSys.Thread.Handle

/-!
# Failed calls on a thread handle

`mjs_thread_join` and `mjs_thread_detach` change the state of the handle before they call
`pthread_join` and `pthread_detach`. When `pthread_join` fails, the join rolls the state back; when
`pthread_detach` fails, the detach returns and leaves the state `DETACHED`.

Here any number of callers share the variable `*t`, each with its own calls, and their steps
interleave with each other and with the trampoline. As in `MojitoSys.Thread.Handle`, a step is a
single access to the handle; the read of `*t` goes with the compare-and-exchange after it, because
a caller that finds the handle consumed is rejected there as it is at `*t`. At most one caller is
between its compare-and-exchange and its return, so that the callers follow one owner with
serialised calls.

## Main definitions

* `CallWorld`, `CallRun`: the callers, and their runs.
* `Restored`: state, references and `*t` are as before.
* `CallLaw`: failed calls restore the handle, and it can still be consumed and freed.
* `CallExec.DetachFailed`: a `pthread_detach` that fails.

## Main results

* `CallRun.inv`: the callers follow one owner, and the state tells where it is.
* `CallRun.stuck`: after a failed `pthread_detach` the handle stays `DETACHED`.
* `call_law_iff`: the law holds in exactly the runs in which no `pthread_detach` fails.
-/

namespace MojitoSys.Thread

open Util

/-- The handle, the trampoline, and the callers `C` of the variable `*t`. -/
structure CallWorld (C : Type*) where
  handle : Handle
  frees : ℕ
  trampoline : TrampolinePc
  var : Bool
  pc : C → OwnerPc

/-- A step of a caller or of the trampoline, with the worlds around it. -/
structure CallExec (C : Type*) where
  caller : Option C
  event : ThreadEvent
  pre : CallWorld C
  post : CallWorld C

/-- The references of the trampoline. -/
def TrampolinePc.held (pc : TrampolinePc) : ℤ := if pc.share = .holds then 1 else 0

section Callers

variable {C : Type*}

/-- What a caller sees. -/
def CallWorld.view (w : CallWorld C) (c : C) : ThreadWorld :=
  ⟨w.handle, w.frees, w.trampoline, w.pc c, w.var⟩

/-- The handle and `*t` are as before, but for the reference of the trampoline and for what the
trampoline stored. -/
structure Restored (w₀ w : CallWorld C) : Prop where
  state : w.handle.state = w₀.handle.state
  refs : w.handle.refs - w.trampoline.held = w₀.handle.refs - w₀.trampoline.held
  var : w.var = w₀.var

/-- The step is the return of a `pthread_detach` with an error. -/
def CallExec.DetachFailed (x : CallExec C) : Prop :=
  ∃ c rc, x.caller = some c ∧ x.pre.pc c = .detaching ∧ x.event = .returned .detach (some rc)

variable [DecidableEq C]

/-- The world after a step of a caller. -/
def CallWorld.after (w : CallWorld C) (c : C) (v : ThreadWorld) : CallWorld C :=
  ⟨v.handle, v.frees, v.trampoline, v.var, Function.update w.pc c v.owner⟩

/-- The handle as `spawn` initialises it for the caller `c₀`. -/
def CallWorld.spawned (c₀ : C) : CallWorld C :=
  ⟨⟨.JOINABLE, 2, 0⟩, 0, .none, false, Function.update (fun _ => .idle) c₀ .create⟩

/-- The runs, with their traces, the newest step first. -/
inductive CallRun (c₀ : C) : List (CallExec C) → CallWorld C → Prop
  | start : CallRun c₀ [] (.spawned c₀)
  | trampoline {tr : List (CallExec C)} {w : CallWorld C} {c : C} {a : Access} {e : ThreadEvent}
      {v : ThreadWorld} (hr : CallRun c₀ tr w) (hs : TrampolineStep (w.view c) a e v) :
      CallRun c₀ (⟨none, e, w, w.after c v⟩ :: tr) (w.after c v)
  | caller {tr : List (CallExec C)} {w : CallWorld C} {c : C} {a : Access} {e : ThreadEvent}
      {v : ThreadWorld} (hr : CallRun c₀ tr w) (hs : OwnerStep (w.view c) a e v) :
      CallRun c₀ (⟨some c, e, w, w.after c v⟩ :: tr) (w.after c v)

/-- The world in which the last call of `c` began. -/
def began (c : C) : List (CallExec C) → Option (CallWorld C)
  | [] => none
  | x :: tr => if x.caller = some c ∧ x.pre.pc c = .idle then some x.pre else began c tr

/-- The law of the failed calls in a run. -/
structure CallLaw (c₀ : C) (tr : List (CallExec C)) (w : CallWorld C) : Prop where
  /-- A call that returned an error left the handle as it was when the call began. -/
  restored : ∀ x tr', x :: tr' <:+ tr → ∀ c call rc, x.caller = some c →
    x.event = .returned call (some rc) → ∃ w₀, began c (x :: tr') = some w₀ ∧ Restored w₀ x.post
  /-- Between the calls, every caller can still join and detach, and then the handle is freed. -/
  usable : w.var = true → (∀ c, w.pc c = .idle) → ∀ c,
    (∃ tr' w' result, CallRun c₀ (tr' ++ tr) w' ∧ w'.frees = 1 ∧
      ∃ x ∈ tr', x.caller = some c ∧ x.event = .returned (.join result) none) ∧
    ∃ tr' w', CallRun c₀ (tr' ++ tr) w' ∧ w'.frees = 1 ∧
      ∃ x ∈ tr', x.caller = some c ∧ x.event = .returned .detach none
  /-- The handle of a thread that was created can always be freed. -/
  unleaked : w.trampoline ≠ .none → ∃ tr' w', CallRun c₀ (tr' ++ tr) w' ∧ w'.frees = 1

end Callers

/-! ### The state at the places of the owner -/

/-- The state at a place of the owner; `failed` says that a `pthread_detach` has failed. -/
def OwnerPc.Phase (failed : Prop) (var : Bool) (state : ThreadState) : OwnerPc → Prop
  | .create => state = .JOINABLE ∧ ¬ failed
  | .created => state = .JOINABLE ∧ ¬ failed
  | .publish => state = .JOINABLE ∧ ¬ failed
  | .discard _ => ¬ failed
  | .failed _ => ¬ failed
  | .idle => (failed → var = true ∧ state = .DETACHED) ∧
      (¬ failed → (var = true ↔ state = .JOINABLE))
  | .detachPt => state = .DETACHED ∧ ¬ failed
  | .detaching => state = .DETACHED ∧ ¬ failed
  | .clear _ => state ≠ .JOINABLE ∧ ¬ failed
  | .unref _ => state ≠ .JOINABLE ∧ ¬ failed
  | .free _ => state ≠ .JOINABLE ∧ ¬ failed
  | .ret _ => state ≠ .JOINABLE ∧ ¬ failed
  | _ => state = .JOINED ∧ ¬ failed

section Phase

variable {w w' : ThreadWorld} {a : Access} {e : ThreadEvent} {failed : Prop}

theorem OwnerStep.phase (h : w.owner.Phase failed w.var w.handle.state) (hv : w.owner.Var w.var)
    (hs : OwnerStep w a e w') :
    w'.owner.Phase (failed ∨ w.owner = .detaching ∧ ∃ rc, e = .returned .detach (some rc)) w'.var
      w'.handle.state := by
  cases hs with
  | @joined wanted hpc => cases wanted <;> simp_all [OwnerPc.Phase]
  | @unref call hpc =>
    dsimp only
    split_ifs <;> simp_all [OwnerPc.Phase, Handle.unref]
  | null hpc => simp_all
  | joinInvalid hpc => simp_all
  | detachInvalid hpc => simp_all
  | _ => simp_all [OwnerPc.Phase, OwnerPc.Var]

/-- A call either is rejected and leaves everything, or begins at a joinable handle. -/
theorem OwnerStep.of_idle (hs : OwnerStep w a e w') (hidle : w.owner = .idle) :
    w' = w ∨ w.var = true ∧ w.handle.state = .JOINABLE := by
  cases hs with
  | null => exact Or.inl rfl
  | joinInvalid => exact Or.inl rfl
  | detachInvalid => exact Or.inl rfl
  | join _ hvar hstate => exact Or.inr ⟨hvar, hstate⟩
  | detach _ hvar hstate => exact Or.inr ⟨hvar, hstate⟩
  | _ => simp_all

/-- The calls that return an error. -/
theorem OwnerStep.error_cases {call : OwnerCall} {rc : Errno}
    (hs : OwnerStep w a (.returned call (some rc)) w') :
    w.owner = .idle ∧ w' = w ∨
      (∃ rc', w.owner = .rollback rc' ∧ w'.var = w.var ∧
        (w.handle.state = .JOINED → w'.handle.state = .JOINABLE)) ∨
      w.owner = .detaching ∧ call = .detach ∧ w'.handle.state = w.handle.state := by
  cases hs with
  | null hpc => exact Or.inl ⟨hpc, rfl⟩
  | joinInvalid hpc => exact Or.inl ⟨hpc, rfl⟩
  | detachInvalid hpc => exact Or.inl ⟨hpc, rfl⟩
  | rollback hpc => exact Or.inr (Or.inl ⟨_, hpc, rfl, fun hstate => if_pos hstate⟩)
  | detachFailed hpc => exact Or.inr (Or.inr ⟨hpc, rfl, rfl⟩)

/-- The trampoline does not look at the owner. -/
theorem TrampolineStep.owner (hs : TrampolineStep w a e w') (pc : OwnerPc) :
    TrampolineStep { w with owner := pc } a e { w' with owner := pc } := by
  cases hs with
  | name hpc => exact .name hpc
  | entry hpc => exact .entry hpc
  | entryReturned hpc => exact .entryReturned hpc
  | store hpc => exact .store hpc
  | unref hpc => exact .unref hpc
  | free hpc => exact .free hpc
  | ret hpc => exact .ret hpc

/-- The owner is between its compare-and-exchange and the result of `pthread_join` or
`pthread_detach`. -/
def OwnerPc.Pending : OwnerPc → Prop
  | .joinPt _ => True
  | .joining _ => True
  | .rollback _ => True
  | .detachPt => True
  | .detaching => True
  | _ => False

theorem OwnerStep.pending (hs : OwnerStep w a e w') (hidle : w.owner ≠ .idle)
    (hp : w'.owner.Pending) : w.owner.Pending := by
  cases hs with
  | @joined wanted hpc => simp [hpc, OwnerPc.Pending]
  | unref hpc =>
    dsimp only at hp
    split_ifs at hp <;> exact hp.elim
  | _ => simp_all [OwnerPc.Pending]

theorem TrampolineStep.state (hs : TrampolineStep w a e w') :
    w'.handle.state = w.handle.state := by
  cases hs <;> rfl

/-- While `*t` points to the handle, its owner has one reference. -/
theorem ThreadRun.refs_of_var {tr : List ThreadExec} (hr : ThreadRun tr w) (hvar : w.var = true) :
    w.handle.refs - w.trampoline.held = 1 ∧ w.frees = 0 := by
  have h := hr.inv
  have hv := h.var
  rw [hvar] at hv
  have hlive : ¬ w.owner.Discarded := by
    intro hd
    cases hpc : w.owner <;> simp_all [OwnerPc.Var, OwnerPc.Discarded]
  have hshare : w.count.share .owner = .holds := by
    change w.owner.share w.var = .holds
    cases hpc : w.owner <;> simp_all [OwnerPc.Var, OwnerPc.share]
  have hsound := h.sound hlive
  refine ⟨?_, hsound.frees_of_holds hshare⟩
  have hrefs : w.handle.refs = (w.count.parties .holds).card := hsound.refs
  have htramp : w.count.share .trampoline = w.trampoline.share := rfl
  by_cases ht : w.trampoline.share = .holds
  · have hall : w.count.parties .holds = Finset.univ := by
      ext p
      cases p <;> simp [RefCount.mem_parties, hshare, htramp, ht]
    rw [hrefs, hall, TrampolinePc.held, if_pos ht]
    rfl
  · have hone : w.count.parties .holds = {.owner} := by
      ext p
      cases p <;> simp [RefCount.mem_parties, hshare, htramp, ht]
    rw [hrefs, hone, TrampolinePc.held, if_neg ht]
    rfl

/-! ### A handle that can still be consumed -/

/-- The steps of the trampoline and of the owner, with their events. -/
inductive Serial : ThreadWorld → List ThreadEvent → ThreadWorld → Prop
  | refl (w : ThreadWorld) : Serial w [] w
  | trampoline {w w' v : ThreadWorld} {a : Access} {e : ThreadEvent} {es : List ThreadEvent}
      (hs : TrampolineStep w a e w') (h : Serial w' es v) : Serial w (e :: es) v
  | owner {w w' v : ThreadWorld} {a : Access} {e : ThreadEvent} {es : List ThreadEvent}
      (hs : OwnerStep w a e w') (h : Serial w' es v) : Serial w (e :: es) v

/-- The handle can be consumed, by a call that returns `0` if one is given. -/
def Consumes (call : Option OwnerCall) (w : ThreadWorld) : Prop :=
  ∃ es v, Serial w es v ∧ (∀ k ∈ call, .returned k none ∈ es) ∧ v.owner = .idle ∧ v.var = false ∧
    v.trampoline = .returned

variable {call : Option OwnerCall}

theorem Consumes.trampoline (hs : TrampolineStep w a e w') (h : Consumes call w') :
    Consumes call w := by
  obtain ⟨es, v, hv, hes, h⟩ := h
  exact ⟨e :: es, v, .trampoline hs hv, fun k hk => List.mem_cons_of_mem _ (hes k hk), h⟩

theorem Consumes.owner (hs : OwnerStep w a e w') (h : Consumes call w') : Consumes call w := by
  obtain ⟨es, v, hv, hes, h⟩ := h
  exact ⟨e :: es, v, .owner hs hv, fun k hk => List.mem_cons_of_mem _ (hes k hk), h⟩

/-- The steps that are left to the trampoline. -/
def TrampolinePc.rank : TrampolinePc → ℕ
  | .name => 7
  | .entry => 6
  | .running => 5
  | .store _ => 4
  | .unref => 3
  | .free => 2
  | .ret => 1
  | _ => 0

theorem TrampolineStep.exists_rank_lt (h : w.trampoline ≠ .none) (h' : w.trampoline ≠ .returned) :
    ∃ a e w', TrampolineStep w a e w' ∧ w'.trampoline.rank < w.trampoline.rank := by
  cases hpc : w.trampoline with
  | none => exact absurd hpc h
  | name => exact ⟨_, _, _, .name hpc, Nat.lt_succ_self 6⟩
  | entry => exact ⟨_, _, _, .entry hpc, Nat.lt_succ_self 5⟩
  | running => exact ⟨_, _, _, .entryReturned (v := 0) hpc, Nat.lt_succ_self 4⟩
  | store v => exact ⟨_, _, _, .store hpc, Nat.lt_succ_self 3⟩
  | unref =>
    refine ⟨_, _, _, .unref hpc, ?_⟩
    dsimp only
    split_ifs
    · exact Nat.lt_succ_self 2
    · exact (by decide : 1 < 3)
  | free => exact ⟨_, _, _, .free hpc, Nat.lt_succ_self 1⟩
  | ret => exact ⟨_, _, _, .ret hpc, Nat.lt_succ_self 0⟩
  | returned => exact absurd hpc h'

/-- It is enough to look at the worlds in which the trampoline has returned. -/
theorem Consumes.of_returned (hstarted : w.trampoline ≠ .none)
    (h : ∀ v : ThreadWorld, v.trampoline = .returned → v.owner = w.owner → v.var = w.var →
      v.handle.state = w.handle.state → Consumes call v) : Consumes call w := by
  induction hn : w.trampoline.rank using Nat.strong_induction_on generalizing w with
  | _ n ih =>
    by_cases hret : w.trampoline = .returned
    · exact h w hret rfl rfl rfl
    · obtain ⟨a, e, w', hs, hlt⟩ := TrampolineStep.exists_rank_lt hstarted hret
      obtain ⟨howner, hvar, -, hstarted', -⟩ := hs.frame
      refine Consumes.trampoline hs (ih _ (hn ▸ hlt) hstarted' ?_ rfl)
      intro v hv ho hv' hstate
      exact h v hv (ho.trans howner) (hv'.trans hvar) (hstate.trans hs.state)

/-- A call that is carried out returns `0`. -/
theorem Consumes.of_call {k : OwnerCall} (hcall : w.owner.call = some k)
    (hvar : w.owner.Var w.var) (hret : w.trampoline = .returned) : Consumes (some k) w := by
  have hlast (w : ThreadWorld) (hpc : w.owner = .ret k) (hvar : w.var = false)
      (hret : w.trampoline = .returned) : Consumes (some k) w :=
    ⟨_, _, .owner (.ret hpc) (.refl _), by simp, rfl, hvar, hret⟩
  have hfree (w : ThreadWorld) (hpc : w.owner = .free k) (hvar : w.var = false)
      (hret : w.trampoline = .returned) : Consumes (some k) w :=
    .owner (.free hpc) (hlast _ rfl hvar hret)
  have hunref (w : ThreadWorld) (hpc : w.owner = .unref k) (hvar : w.var = false)
      (hret : w.trampoline = .returned) : Consumes (some k) w := by
    by_cases hrefs : w.handle.refs = 1
    · exact .owner (.unref hpc) (hfree _ (if_pos hrefs) hvar hret)
    · exact .owner (.unref hpc) (hlast _ (if_neg hrefs) hvar hret)
  cases hpc : w.owner <;> rw [hpc] at hcall hvar <;> cases hcall
  case clear => exact .owner (.clear hpc) (hunref _ rfl rfl hret)
  case unref => exact hunref w hpc hvar hret
  case free => exact hfree w hpc hvar hret
  case ret => exact hlast w hpc hvar hret

/-- A joinable handle can be joined. -/
theorem Consumes.join (hidle : w.owner = .idle) (hvar : w.var = true)
    (hstate : w.handle.state = .JOINABLE) (hret : w.trampoline = .returned) :
    Consumes (some (.join none)) w :=
  .owner (@OwnerStep.join w false hidle hvar hstate) <| .owner (.joinPt rfl) <|
    .owner (.joined rfl hret) (.of_call rfl hvar hret)

/-- A joinable handle can be detached. -/
theorem Consumes.detach (hidle : w.owner = .idle) (hvar : w.var = true)
    (hstate : w.handle.state = .JOINABLE) (hret : w.trampoline = .returned) :
    Consumes (some .detach) w :=
  .owner (.detach hidle hvar hstate) <| .owner (.detachPt rfl) <|
    .owner (.detached rfl) (.of_call rfl hvar hret)

theorem Consumes.weaken (h : Consumes call w) : Consumes none w := by
  obtain ⟨es, v, hv, -, h⟩ := h
  exact ⟨es, v, hv, by simp, h⟩

/-- From every place of the owner the handle can be consumed, if no `pthread_detach` failed. -/
theorem Consumes.of_phase (hvar : w.owner.Var w.var)
    (hphase : w.owner.Phase False w.var w.handle.state) (hret : w.trampoline = .returned)
    (hcreate : w.owner ≠ .create) (hlive : ¬ w.owner.Discarded) : Consumes none w := by
  have hjoin (w : ThreadWorld) (hidle : w.owner = .idle) (hvar : w.var = true)
      (hstate : w.handle.state = .JOINABLE) (hret : w.trampoline = .returned) : Consumes none w :=
    (Consumes.join hidle hvar hstate hret).weaken
  have hjoining (w : ThreadWorld) (wanted : Bool) (hpc : w.owner = .joining wanted)
      (hvar : w.var = true) (hret : w.trampoline = .returned) : Consumes none w := by
    refine .owner (.joined hpc hret) ?_
    cases wanted with
    | false => exact Consumes.weaken (Consumes.of_call rfl hvar hret)
    | true => exact .owner (.readStatus rfl) (Consumes.weaken (Consumes.of_call rfl hvar hret))
  have hdetaching (w : ThreadWorld) (hpc : w.owner = .detaching) (hvar : w.var = true)
      (hret : w.trampoline = .returned) : Consumes none w :=
    .owner (.detached hpc) (Consumes.weaken (Consumes.of_call rfl hvar hret))
  have hcalled {k : OwnerCall} (hcall : w.owner.call = some k) : Consumes none w :=
    Consumes.weaken (Consumes.of_call hcall hvar hret)
  cases hpc : w.owner with
  | create => exact absurd hpc hcreate
  | discard => simp [hpc, OwnerPc.Discarded] at hlive
  | failed => simp [hpc, OwnerPc.Discarded] at hlive
  | clear => exact hcalled (by rw [hpc]; rfl)
  | unref => exact hcalled (by rw [hpc]; rfl)
  | free => exact hcalled (by rw [hpc]; rfl)
  | ret => exact hcalled (by rw [hpc]; rfl)
  | created =>
    rw [hpc] at hphase
    exact .owner (.created hpc) (.owner (.publish rfl) (hjoin _ rfl rfl hphase.1 hret))
  | publish =>
    rw [hpc] at hphase
    exact .owner (.publish hpc) (hjoin _ rfl rfl hphase.1 hret)
  | idle =>
    rw [hpc] at hphase
    by_cases hv : w.var = true
    · exact hjoin w hpc hv ((hphase.2 id).mp hv) hret
    · exact ⟨[], w, .refl w, by simp, hpc, Bool.not_eq_true _ ▸ hv, hret⟩
  | joinPt wanted =>
    rw [hpc] at hvar
    exact .owner (.joinPt hpc) (hjoining _ wanted rfl hvar hret)
  | joining wanted =>
    rw [hpc] at hvar
    exact hjoining w wanted hpc hvar hret
  | rollback rc =>
    rw [hpc] at hvar hphase
    exact .owner (.rollback hpc) (hjoin _ rfl hvar (if_pos hphase.1) hret)
  | readStatus =>
    rw [hpc] at hvar
    exact .owner (.readStatus hpc) (Consumes.weaken (Consumes.of_call rfl hvar hret))
  | detachPt =>
    rw [hpc] at hvar
    exact .owner (.detachPt hpc) (hdetaching _ rfl hvar hret)
  | detaching =>
    rw [hpc] at hvar
    exact hdetaching w hpc hvar hret

theorem ThreadRun.serial {es : List ThreadEvent} {tr : List ThreadExec} (hr : ThreadRun tr w)
    (h : Serial w es w') : ∃ tr', ThreadRun tr' w' := by
  induction h generalizing tr with
  | refl => exact ⟨tr, hr⟩
  | trampoline hs _ ih => exact ih (hr.trampoline hs)
  | owner hs _ ih => exact ih (hr.owner hs)

end Phase

/-! ### The callers follow one owner -/

section Callers

variable {C : Type*} [DecidableEq C] {c₀ c : C} {tr : List (CallExec C)} {w : CallWorld C}
  {v v' : ThreadWorld} {a : Access} {e : ThreadEvent}

@[simp] theorem CallWorld.view_after : (w.after c v).view c = v := by
  simp [view, after]

@[simp] theorem CallWorld.after_after : (w.after c v).after c v' = w.after c v' := by
  simp [after]

@[simp] theorem CallWorld.after_view : w.after c (w.view c) = w := by
  simp [view, after]

theorem CallWorld.after_pc (hs : TrampolineStep (w.view c) a e v) : (w.after c v).pc = w.pc := by
  rw [after, hs.frame.1]
  exact Function.update_eq_self c w.pc

/-- The caller `o` follows the rules of an owner with serialised calls, and the other callers are
between their calls. -/
structure CallInv (tr : List (CallExec C)) (w : CallWorld C) (o : C) : Prop where
  idle : ∀ c, c ≠ o → w.pc c = .idle
  serial : ∃ tr', ThreadRun tr' (w.view o)
  phase : (w.pc o).Phase (∃ x ∈ tr, x.DetachFailed) w.var w.handle.state

/-- Between the calls, every caller may be the next owner. -/
theorem CallInv.pass {o : C} (h : CallInv tr w o) (hidle : w.pc o = .idle) (c : C) :
    CallInv tr w c := by
  have hall (c : C) : w.pc c = .idle := by
    by_cases hc : c = o
    · rw [hc, hidle]
    · exact h.idle c hc
  obtain ⟨tr', hr⟩ := h.serial
  have hview : w.view c = w.view o := by
    simp only [CallWorld.view, hall c, hidle]
  refine ⟨fun c _ => hall c, ⟨tr', hview ▸ hr⟩, ?_⟩
  rw [hall c, ← hidle]
  exact h.phase

omit [DecidableEq C] in
/-- While another caller is in a call, a call is rejected. -/
theorem CallInv.rejected {o : C} (h : CallInv tr w o) (hidle : w.pc o ≠ .idle) (hc : c ≠ o)
    (hs : OwnerStep (w.view c) a e v) : v = w.view c := by
  refine (hs.of_idle (h.idle c hc)).resolve_right ?_
  rintro ⟨hvar, hstate⟩
  obtain ⟨tr', hr⟩ := h.serial
  have hv : (w.pc o).Var w.var := hr.inv.var
  have hphase := h.phase
  rw [show w.var = true from hvar] at hv hphase
  rw [show w.handle.state = .JOINABLE from hstate] at hphase
  cases hpc : w.pc o <;> simp_all [OwnerPc.Phase, OwnerPc.Var]

theorem CallInv.trampoline {o : C} (h : CallInv tr w o) (hs : TrampolineStep (w.view c) a e v) :
    CallInv (⟨none, e, w, w.after c v⟩ :: tr) (w.after c v) o := by
  obtain ⟨-, hvar, -⟩ := hs.frame
  have hpc := CallWorld.after_pc hs
  have hview : (w.after c v).view o = { v with owner := w.pc o } := by
    rw [CallWorld.view, hpc]
    rfl
  obtain ⟨tr', hr⟩ := h.serial
  have hr' := hr.trampoline (hs.owner (w.pc o))
  have hfailed : (∃ x ∈ ⟨none, e, w, w.after c v⟩ :: tr, x.DetachFailed) ↔
      ∃ x ∈ tr, x.DetachFailed := by
    simp [CallExec.DetachFailed]
  refine ⟨fun c' hc' => by rw [hpc, h.idle c' hc'], ⟨_, hview ▸ hr'⟩, ?_⟩
  rw [hfailed, hpc, show (w.after c v).var = w.var from hvar,
    show (w.after c v).handle.state = w.handle.state from hs.state]
  exact h.phase

theorem CallInv.caller {o : C} (h : CallInv tr w o) (hs : OwnerStep (w.view c) a e v) :
    ∃ o', CallInv (⟨some c, e, w, w.after c v⟩ :: tr) (w.after c v) o' := by
  have hfailed : (∃ x ∈ ⟨some c, e, w, w.after c v⟩ :: tr, x.DetachFailed) ↔
      (∃ x ∈ tr, x.DetachFailed) ∨ w.pc c = .detaching ∧ ∃ rc, e = .returned .detach (some rc) := by
    simp only [List.exists_mem_cons_iff, CallExec.DetachFailed, Option.some.injEq]
    grind
  by_cases hc : c = o ∨ w.pc o = .idle
  · -- The caller is the owner, or becomes it.
    have hown : CallInv tr w c := by
      rcases hc with rfl | hidle
      · exact h
      · exact h.pass hidle c
    obtain ⟨tr', hr⟩ := hown.serial
    refine ⟨c, fun c' hc' => ?_, ⟨_, by rw [CallWorld.view_after]; exact hr.owner hs⟩, ?_⟩
    · exact (Function.update_of_ne hc' ..).trans (hown.idle c' hc')
    · rw [hfailed, show (w.after c v).pc c = v.owner from Function.update_self ..]
      exact hs.phase hown.phase hr.inv.var
  · obtain ⟨hc, hidle⟩ := not_or.mp hc
    obtain rfl := h.rejected hidle hc hs
    rw [CallWorld.after_view] at hfailed ⊢
    refine ⟨o, h.idle, h.serial, ?_⟩
    rw [hfailed, h.idle c hc]
    simpa using h.phase

/-- The callers follow one owner, in every run. -/
theorem CallRun.inv (hr : CallRun c₀ tr w) : ∃ o, CallInv tr w o := by
  induction hr with
  | start =>
    refine ⟨c₀, fun c hc => ?_, ⟨[], ?_⟩, ?_⟩
    · simp [CallWorld.spawned, Function.update_of_ne hc]
    · have hview : (CallWorld.spawned c₀).view c₀ = spawned := by
        simp [CallWorld.view, CallWorld.spawned, spawned]
      exact hview ▸ .start
    · simp [CallWorld.spawned, OwnerPc.Phase]
  | trampoline _ hs ih =>
    obtain ⟨o, h⟩ := ih
    exact ⟨o, h.trampoline hs⟩
  | caller _ hs ih =>
    obtain ⟨o, h⟩ := ih
    exact h.caller hs

/-- While `*t` points to the handle, its owner has one reference. -/
theorem CallRun.refs_of_var (hr : CallRun c₀ tr w) (hvar : w.var = true) :
    w.handle.refs - w.trampoline.held = 1 ∧ w.frees = 0 := by
  obtain ⟨o, h⟩ := hr.inv
  obtain ⟨tr', hr'⟩ := h.serial
  exact hr'.refs_of_var hvar

/-! ### What a failed call leaves -/

/-- The world in which a pending call began. -/
theorem CallRun.began_of_pending (hr : CallRun c₀ tr w) (hp : (w.pc c).Pending) :
    ∃ w₀, began c tr = some w₀ ∧ w₀.handle.state = .JOINABLE ∧ w₀.var = true ∧
      w₀.handle.refs - w₀.trampoline.held = 1 := by
  induction hr with
  | start =>
    by_cases hc : c = c₀
    · simp [CallWorld.spawned, hc, OwnerPc.Pending] at hp
    · simp [CallWorld.spawned, Function.update_of_ne hc, OwnerPc.Pending] at hp
  | @trampoline tr w c' a e v hr hs ih =>
    rw [CallWorld.after_pc hs] at hp
    simpa [began] using ih hp
  | @caller tr w c' a e v hr hs ih =>
    by_cases hc : c = c'
    · subst hc
      have hp' : v.owner.Pending := by simpa [CallWorld.after] using hp
      by_cases hidle : w.pc c = .idle
      · rcases hs.of_idle hidle with rfl | ⟨hvar, hstate⟩
        · simp [CallWorld.view, hidle, OwnerPc.Pending] at hp'
        · exact ⟨w, if_pos ⟨rfl, hidle⟩, hstate, hvar, (hr.refs_of_var hvar).1⟩
      · simpa [began, hidle] using ih (hs.pending hidle hp')
    · have hpc : (w.after c' v).pc c = w.pc c := Function.update_of_ne hc ..
      rw [hpc] at hp
      simpa [began, Ne.symm hc] using ih hp

/-- A call that returns an error leaves the handle as it was when the call began, unless the error
is one of `pthread_detach`. -/
theorem CallRun.restored_iff {call : OwnerCall} {rc : Errno} (hr : CallRun c₀ tr w)
    (hs : OwnerStep (w.view c) a (.returned call (some rc)) v) :
    ∃ w₀, began c (⟨some c, .returned call (some rc), w, w.after c v⟩ :: tr) = some w₀ ∧
      (Restored w₀ (w.after c v) ↔ ¬ (w.pc c = .detaching ∧ call = .detach)) := by
  obtain ⟨o, h⟩ := hr.inv
  have howner (hc : w.pc c ≠ .idle) : c = o := by
    by_contra hne
    exact hc (h.idle c hne)
  rcases hs.error_cases with ⟨hidle, rfl⟩ | ⟨rc', hpc, hvar', hstate⟩ | ⟨hpc, rfl, hstate'⟩
  · refine ⟨w, if_pos ⟨rfl, hidle⟩, iff_of_true ?_ ?_⟩
    · rw [CallWorld.after_view]
      exact ⟨rfl, rfl, rfl⟩
    · simp [show w.pc c = .idle from hidle]
  · have hpc : w.pc c = .rollback rc' := hpc
    obtain rfl := howner (by simp [hpc])
    obtain ⟨w₀, hw₀, hstate₀, hvar₀, hrefs₀⟩ := hr.began_of_pending (c := c)
      (by rw [hpc]; trivial)
    have hphase := h.phase
    obtain ⟨tr', hserial⟩ := h.serial
    have hvar : (w.pc c).Var w.var := hserial.inv.var
    rw [hpc] at hphase hvar
    have hvar : (w.after c v).var = true := hvar'.trans hvar
    have hrefs := ((hr.caller hs).refs_of_var hvar).1
    refine ⟨w₀, by simpa [began, hpc] using hw₀, iff_of_true ?_ (by simp [hpc])⟩
    exact ⟨(hstate hphase.1).trans hstate₀.symm, hrefs.trans hrefs₀.symm, hvar.trans hvar₀.symm⟩
  · have hpc : w.pc c = .detaching := hpc
    obtain rfl := howner (by simp [hpc])
    obtain ⟨w₀, hw₀, hstate₀, -⟩ := hr.began_of_pending (c := c) (by rw [hpc]; trivial)
    have hphase := h.phase
    rw [hpc] at hphase
    refine ⟨w₀, by simpa [began, hpc] using hw₀, iff_of_false (fun hres => ?_) (by simp [hpc])⟩
    have hsame : v.handle.state = w₀.handle.state := hres.state
    rw [hstate', hstate₀, show (w.view c).handle.state = .DETACHED from hphase.1] at hsame
    cases hsame

/-- The part of a run up to one of its steps. -/
theorem CallRun.of_suffix {x : CallExec C} {tr' : List (CallExec C)} (hr : CallRun c₀ tr w)
    (hx : x :: tr' <:+ tr) : CallRun c₀ (x :: tr') x.post := by
  induction hr with
  | start => simp at hx
  | trampoline hr hs ih =>
    rcases List.suffix_cons_iff.mp hx with heq | hx
    · obtain ⟨rfl, rfl⟩ := List.cons.inj heq
      exact hr.trampoline hs
    · exact ih hx
  | caller hr hs ih =>
    rcases List.suffix_cons_iff.mp hx with heq | hx
    · obtain ⟨rfl, rfl⟩ := List.cons.inj heq
      exact hr.caller hs
    · exact ih hx

/-- The step of a caller that ends a call with an error. -/
theorem CallRun.error_step {x : CallExec C} {call : OwnerCall} {rc : Errno}
    (hr : CallRun c₀ (x :: tr) w) (hc : x.caller = some c)
    (he : x.event = .returned call (some rc)) :
    ∃ w₀, began c (x :: tr) = some w₀ ∧
      (Restored w₀ x.post ↔ ¬ (x.pre.pc c = .detaching ∧ call = .detach)) := by
  cases hr with
  | trampoline => cases hc
  | caller hr hs =>
    cases hc
    cases he
    exact hr.restored_iff hs

/-! ### The law -/

/-- The steps of the trampoline and of one caller. -/
theorem CallRun.serial {u : ThreadWorld} {es : List ThreadEvent} (hr : CallRun c₀ tr w)
    (hu : w.view c = u) (h : Serial u es v) :
    ∃ tr', CallRun c₀ (tr' ++ tr) (w.after c v) ∧ ∀ call rc, .returned call rc ∈ es →
      ∃ x ∈ tr', x.caller = some c ∧ x.event = .returned call rc := by
  induction h generalizing w tr with
  | refl =>
    subst hu
    exact ⟨[], by simpa using hr, by simp⟩
  | @trampoline u u' v a e es hs _ ih =>
    subst hu
    obtain ⟨tr', hr', hes⟩ := ih (hr.trampoline hs) CallWorld.view_after
    refine ⟨tr' ++ [⟨none, e, w, w.after c u'⟩], by simpa using hr', fun call rc he => ?_⟩
    rcases List.mem_cons.mp he with he | he
    · exact absurd he.symm (hs.frame.2.2.2.2.2 call rc)
    · obtain ⟨x, hx, hx'⟩ := hes call rc he
      exact ⟨x, List.mem_append_left _ hx, hx'⟩
  | @owner u u' v a e es hs _ ih =>
    subst hu
    obtain ⟨tr', hr', hes⟩ := ih (hr.caller hs) CallWorld.view_after
    refine ⟨tr' ++ [⟨some c, e, w, w.after c u'⟩], by simpa using hr', fun call rc he => ?_⟩
    rcases List.mem_cons.mp he with he | he
    · exact ⟨_, List.mem_append_right _ List.mem_cons_self, rfl, he.symm⟩
    · obtain ⟨x, hx, hx'⟩ := hes call rc he
      exact ⟨x, List.mem_append_left _ hx, hx'⟩

/-- The owner consumes the handle, and then it is freed. -/
theorem CallRun.consumes {call : Option OwnerCall} (hr : CallRun c₀ tr w) (h : CallInv tr w c)
    (hc : Consumes call (w.view c)) :
    ∃ tr' w', CallRun c₀ (tr' ++ tr) w' ∧ w'.frees = 1 ∧
      ∀ k ∈ call, ∃ x ∈ tr', x.caller = some c ∧ x.event = .returned k none := by
  obtain ⟨es, v, hv, hes, hidle, hvar, hret⟩ := hc
  obtain ⟨tr₁, hr₁⟩ := h.serial
  obtain ⟨tr₂, hr₂⟩ := hr₁.serial hv
  obtain ⟨tr', hr', hevents⟩ := hr.serial rfl hv
  exact ⟨tr', w.after c v, hr', hr₂.inv.frees_of_idle hidle hvar hret,
    fun k hk => hevents k none (hes k hk)⟩

/-- After a failed `pthread_detach` the handle stays `DETACHED` under a variable that is not
cleared, and it is not freed. -/
theorem CallRun.stuck (hr : CallRun c₀ tr w) (h : ∃ x ∈ tr, x.DetachFailed) :
    (∀ c, w.pc c = .idle) ∧ w.var = true ∧ w.handle.state = .DETACHED ∧ w.frees = 0 := by
  obtain ⟨o, ho⟩ := hr.inv
  have hphase := ho.phase
  have hidle : w.pc o = .idle := by
    cases hpc : w.pc o <;> rw [hpc] at hphase <;> simp_all [OwnerPc.Phase]
  rw [hidle] at hphase
  obtain ⟨hvar, hstate⟩ := hphase.1 h
  refine ⟨fun c => ?_, hvar, hstate, (hr.refs_of_var hvar).2⟩
  by_cases hc : c = o
  · rw [hc, hidle]
  · exact ho.idle c hc

/-- After a failed `pthread_detach` the handle is not freed in any later run. -/
theorem CallRun.leaked {tr' : List (CallExec C)} {w' : CallWorld C}
    (hr : CallRun c₀ (tr' ++ tr) w') (h : ∃ x ∈ tr, x.DetachFailed) :
    w'.var = true ∧ w'.frees = 0 := by
  obtain ⟨x, hx, hd⟩ := h
  obtain ⟨-, hvar, -, hfrees⟩ := hr.stuck ⟨x, List.mem_append_right _ hx, hd⟩
  exact ⟨hvar, hfrees⟩

/-- Between the calls, with no failed `pthread_detach`, the handle can be consumed by every call
that can consume a joinable handle. -/
theorem CallRun.usable {k : OwnerCall} (hr : CallRun c₀ tr w)
    (hnone : ¬ ∃ x ∈ tr, x.DetachFailed) (hvar : w.var = true) (hidle : ∀ c, w.pc c = .idle)
    (hk : ∀ v : ThreadWorld, v.owner = .idle → v.var = true → v.handle.state = .JOINABLE →
      v.trampoline = .returned → Consumes (some k) v) (c : C) :
    ∃ tr' w', CallRun c₀ (tr' ++ tr) w' ∧ w'.frees = 1 ∧
      ∃ x ∈ tr', x.caller = some c ∧ x.event = .returned k none := by
  obtain ⟨o, ho⟩ := hr.inv
  have h := ho.pass (hidle o) c
  have hphase := h.phase
  rw [hidle c] at hphase
  have hstate := (hphase.2 hnone).mp hvar
  obtain ⟨tr₁, hr₁⟩ := h.serial
  have hstarted : (w.view c).trampoline ≠ .none := by
    rw [ne_eq, hr₁.inv.place]
    simp [CallWorld.view, hidle c, OwnerPc.Discarded]
  have hconsumes : Consumes (some k) (w.view c) :=
    Consumes.of_returned hstarted fun v hret ho hv hs =>
      hk v (ho.trans (hidle c)) (hv.trans hvar) (hs.trans hstate) hret
  obtain ⟨tr', w', hr', hfrees, hx⟩ := hr.consumes h hconsumes
  exact ⟨tr', w', hr', hfrees, hx k rfl⟩

/-- With no failed `pthread_detach`, the handle can be freed. -/
theorem CallRun.unleaked (hr : CallRun c₀ tr w) (hnone : ¬ ∃ x ∈ tr, x.DetachFailed)
    (hstarted : w.trampoline ≠ .none) : ∃ tr' w', CallRun c₀ (tr' ++ tr) w' ∧ w'.frees = 1 := by
  obtain ⟨o, h⟩ := hr.inv
  obtain ⟨tr₁, hr₁⟩ := h.serial
  have hinv := hr₁.inv
  have hplace := mt hinv.place.mpr hstarted
  have hphase := h.phase
  rw [eq_false hnone] at hphase
  have hconsumes : Consumes none (w.view o) := by
    refine Consumes.of_returned hstarted fun v hret ho hv hs => Consumes.of_phase ?_ ?_ hret ?_ ?_
    · rw [ho, hv]
      exact hinv.var
    · rw [ho, hv, hs]
      exact hphase
    · rw [ho]
      exact fun hc => hplace (Or.inl hc)
    · rw [ho]
      exact fun hd => hplace (Or.inr hd)
  obtain ⟨tr', w', hr', hfrees, -⟩ := hr.consumes h hconsumes
  exact ⟨tr', w', hr', hfrees⟩

/-- In every run of any number of callers, the law of the failed calls holds if and only if no
`pthread_detach` has failed. -/
theorem call_law_iff (hr : CallRun c₀ tr w) :
    CallLaw c₀ tr w ↔ ∀ x ∈ tr, ¬ x.DetachFailed := by
  constructor
  · rintro hlaw x hx ⟨c, rc, hc, hpc, he⟩
    obtain ⟨new, old, rfl⟩ := List.append_of_mem hx
    have hsuffix : x :: old <:+ new ++ x :: old := List.suffix_append ..
    obtain ⟨w₀, hw₀, hrestored⟩ := hlaw.restored x old hsuffix c _ rc hc he
    obtain ⟨w₁, hw₁, hiff⟩ := (hr.of_suffix hsuffix).error_step hc he
    obtain rfl : w₀ = w₁ := Option.some.inj (hw₀.symm.trans hw₁)
    exact hiff.mp hrestored ⟨hpc, rfl⟩
  · intro hall
    have hnone : ¬ ∃ x ∈ tr, x.DetachFailed := by simpa using hall
    refine ⟨fun x tr' hx c call rc hc he => ?_, fun hvar hidle c => ⟨?_, ?_⟩, hr.unleaked hnone⟩
    · obtain ⟨w₀, hw₀, hiff⟩ := (hr.of_suffix hx).error_step hc he
      refine ⟨w₀, hw₀, hiff.mpr ?_⟩
      rintro ⟨hpc, rfl⟩
      exact hall x (hx.subset List.mem_cons_self) ⟨c, rc, hc, hpc, he⟩
    · obtain ⟨tr', w', hr', hfrees, hx⟩ := hr.usable hnone hvar hidle (fun _ => Consumes.join) c
      exact ⟨tr', w', none, hr', hfrees, hx⟩
    · exact hr.usable hnone hvar hidle (fun _ => Consumes.detach) c

end Callers

/-! ### A join and a detach that fail -/

/-- A caller joins while another one detaches: the detach is rejected, and then the `pthread_join`
fails. -/
theorem call_law_iff_join : ∃ tr w, CallRun true tr w ∧
    (∃ x ∈ tr, x.caller = some false ∧ x.event = .returned .detach (some .EINVAL)) ∧
    (∃ x ∈ tr, x.caller = some true ∧ x.event = .returned (.join none) (some .EINVAL)) ∧
    CallLaw true tr w := by
  have h := @CallRun.start Bool _ true
  have h := h.caller (c := true) (.create rfl)
  have h := h.caller (c := true) (.created rfl)
  have h := h.caller (c := true) (.publish rfl)
  have h := h.caller (c := true) (@OwnerStep.join _ true rfl rfl rfl)
  have h := h.caller (c := false) (.detachInvalid rfl rfl (fun hstate => nomatch hstate))
  have h := h.caller (c := true) (.joinPt rfl)
  have h := h.caller (c := true) (@OwnerStep.joinFailed _ true .EINVAL rfl)
  have h := h.caller (c := true) (.rollback rfl)
  refine ⟨_, _, h, by simp, by simp, (call_law_iff h).mpr fun x hx hd => ?_⟩
  -- The handle is joinable again.
  exact nomatch (h.stuck ⟨x, hx, hd⟩).2.2.1

/-- A `pthread_detach` fails: the detach leaves a joinable handle `DETACHED`, and in no later run
is the handle freed. -/
theorem call_law_detachFailed : ∃ tr w w₀, CallRun () tr w ∧ began () tr = some w₀ ∧
    w₀.handle.state = .JOINABLE ∧ w.handle.state = .DETACHED ∧ ¬ CallLaw () tr w ∧
      ∀ tr' w', CallRun () (tr' ++ tr) w' → w'.var = true ∧ w'.frees = 0 := by
  have h := @CallRun.start Unit _ ()
  have h := h.caller (c := ()) (.create rfl)
  have h := h.caller (c := ()) (.created rfl)
  have h := h.caller (c := ()) (.publish rfl)
  have h := h.caller (c := ()) (.detach rfl rfl rfl)
  have h := h.caller (c := ()) (.detachPt rfl)
  have h := h.caller (c := ()) (@OwnerStep.detachFailed _ .EINVAL rfl)
  refine ⟨_, _, _, h, rfl, rfl, rfl, fun hlaw => ?_, fun tr' w' hr => hr.leaked
    ⟨_, List.mem_cons_self, (), .EINVAL, rfl, rfl, rfl⟩⟩
  obtain ⟨tr', w', hr, hfrees⟩ := hlaw.unleaked (by decide)
  have hleak := hr.leaked ⟨_, List.mem_cons_self, (), .EINVAL, rfl, rfl, rfl⟩
  exact absurd (hfrees.symm.trans hleak.2) (by decide)

end MojitoSys.Thread
