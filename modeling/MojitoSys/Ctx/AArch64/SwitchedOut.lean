import MojitoSys.Ctx.AArch64.Refinement
import MojitoSys.Ctx.AArch64.RoundTrip

/-!
# Resuming a context that was switched out

`ms_context_switch` saves the registers into `from` whatever its state is, but it rewrites the
state word of `from` only when it reads `RUNNING`. The other states stay, so the record that a
switch leaves behind is resumable or not by what it was before the call: an `EMPTY` or `SUSPENDED`
record is, zeroed storage is not. `ms_context_capture`, the self-switch, arms the record whatever
it was.

A record stays switched out (`StaysOut`) as long as no call names it: other code and switches
between other records do not write it, and `ms_context_set_finish_hook` writes its hook only.

## Main definitions

* `StaysOut`: the runs in which the record is left to itself.
* `leftState`: the state word that a switch leaves in `from`.
* `ResumesAfter`, `TrapsAfter`: every later switch into `from` returns from the call, or traps.

## Main results

* `leaves_of_switch`: the registers and the state word that a switch leaves in `from`.
* `resume_of_saved`: the ends of a switch into a record that holds saved registers.
* `resumes_after_switch`: when a later switch into `from` returns from the call, and how it traps
  otherwise.
-/

namespace MojitoSys.Ctx.AArch64

open Util

/-- A run from memory `m` in which the record at `p` stays switched out. -/
inductive StaysOut (p : Word) (m : ByteMemory) : ByteMemory → Prop
  | refl : StaysOut p m m
  /-- Code that does not write the record, and the operations on other records. -/
  | code {m₁ m₂ : ByteMemory} (h : StaysOut p m m₁) (h' : AgreeOn Record.size p m₁ m₂) :
      StaysOut p m m₂
  | setFinishHook {m₁ : ByteMemory} (h : StaysOut p m m₁) (hook userdata : Word) :
      StaysOut p m (msContextSetFinishHook p hook userdata m₁)
  /-- A switch between two other records. -/
  | switch {n : ℕ} {s s' : Machine} (h : StaysOut p m s.mem) (hf : RecordsApart p (s.x 0))
      (ht : RecordsApart p (s.x 1)) (hap : RecordsApart (s.x 1) (s.x 0))
      (hs : msContextSwitch n s = .ret s') : StaysOut p m s'.mem

/-- The state word and the save area are kept while the record stays switched out. -/
theorem StaysOut.readWord_eq {p : Word} {m m' : ByteMemory} (h : StaysOut p m m') {o : Word}
    (ho : o.toNat + 8 ≤ Record.retToOff.toNat) :
    readWord m' (p + o) = readWord m (p + o) := by
  have hsize : o.toNat + 8 ≤ Record.size := ho.trans (by decide)
  induction h with
  | refl => rfl
  | code _ h' ih => rw [h'.readWord hsize, ih]
  | setFinishHook _ hook userdata ih =>
    have hcb : Apart o Record.finCbOff := by constructor <;> bv_omega
    have hud : Apart o Record.finUdOff := by constructor <;> bv_omega
    unfold msContextSetFinishHook
    split
    · exact ih
    · rw [readWord_writeWord_add_of_le _ _ _ hud, readWord_writeWord_add_of_le _ _ _ hcb, ih]
  | @switch n s _ _ hf ht hap hs ih =>
    have hres := msContextSwitch_result n s hap
    rw [hs] at hres
    cases hres with
    | resumed _ _ _ hmem _ =>
      rw [hmem, ← ih]
      exact ((agreeOn_saveRegisters _ hf).trans (agreeOn_switchMem _ hf ht)).readWord hsize

theorem Saved.of_staysOut {p : Word} {m m' : ByteMemory} {s : Machine} (h : Saved m p s)
    (h' : StaysOut p m m') : Saved m' p s :=
  h.of_readWord fun _ ho => h'.readWord_eq (ho.trans (by decide))

/-! ### What a switch leaves in `from` -/

/-- The state word of `from` after a switch to `to`. -/
def leftState (f t state : Word) : Word :=
  if f = t ∨ state = CtxState.running.toWord then CtxState.suspended.toWord else state

/-- What a switch leaves in a record that is neither `DEAD` nor `FINISHED`, or captured, passes the
checks of a target. -/
theorem validateTarget_leftState_of_live {f t state : Word}
    (hfin : state ≠ CtxState.finished.toWord) (h : state ≠ CtxState.dead.toWord ∨ f = t) :
    validateTarget (leftState f t state) = none := by
  unfold leftState
  split
  · rfl
  · rename_i hno
    obtain ⟨hne, hrun⟩ := not_or.mp hno
    have hdead := h.resolve_right hne
    simp only [validateTarget, hdead, hrun, hfin, ↓reduceIte]

/-- `DEAD` storage is left `DEAD`. -/
theorem validateTarget_leftState_dead {f t : Word} (h : f ≠ t) :
    validateTarget (leftState f t CtxState.dead.toWord) = some 0x68 := by
  have hne : CtxState.dead.toWord ≠ CtxState.running.toWord := by decide
  simp only [leftState, h, hne, or_self, ↓reduceIte, validateTarget]

/-- A switch saves the registers into `from` and leaves its state. -/
theorem leaves_of_switch {n : ℕ} {s s₁ : Machine}
    (hft : s.x 0 = s.x 1 ∨ RecordsApart (s.x 0) (s.x 1)) (hal : s.sp &&& 15 = 0)
    (hs : msContextSwitch n s = .ret s₁) :
    Saved s₁.mem (s.x 0) s ∧ readWord s₁.mem (s.x 0 + Record.stateOff) =
      leftState (s.x 0) (s.x 1) (readWord s.mem (s.x 0 + Record.stateOff)) := by
  rcases hft with he | hft
  · obtain ⟨s', hret, -, hmem⟩ := msContextSwitch_self n s he hal
    obtain rfl : s' = s₁ := by injection hret.symm.trans hs
    rw [hmem, readWord_writeWord_self, leftState, if_pos (Or.inl he)]
    exact ⟨(saveRegisters_saved s).of_undisturbed (Undisturbed.refl.state _), rfl⟩
  · have hres := msContextSwitch_result n s hft.symm
    rw [hs] at hres
    cases hres with
    | resumed _ _ _ hmem _ =>
      refine ⟨hmem ▸ (saveRegisters_saved s).of_undisturbed (undisturbed_switchMem _ hft), ?_⟩
      have hne : s.x 0 ≠ s.x 1 := by
        intro he
        rw [he] at hft
        exact absurd hft.1 (by simp [Record.size])
      have htail := readWord_saveRegisters_tail s (o := Record.stateOff) (by decide) (by decide)
      -- the two writes into the target lie in another record
      rw [hmem, switchMem, readWord_writeWord_of_areasApart _ _ hft (by decide) (by decide),
        readWord_writeWord_of_areasApart _ _ hft (by decide) (by decide), demoteMem, htail,
        leftState]
      simp only [hne, false_or]
      split
      · rw [readWord_writeWord_self]
      · exact htail

/-! ### The later switch -/

/-- The ends of a switch into a record that holds the registers of a call on an aligned stack: the
trap of its state word, or the return of the call. -/
theorem resume_of_saved {n : ℕ} {s s₂ : Machine} (h : Saved s₂.mem (s₂.x 1) s) (hsp : s.sp ≠ 0)
    (hal : s.sp &&& 15 = 0) (hap : RecordsApart (s₂.x 1) (s₂.x 0)) :
    match validateTarget (readWord s₂.mem (s₂.x 1 + Record.stateOff)) with
    | some code => msContextSwitch n s₂ = .trap code
    | none => ∃ s₃, msContextSwitch n s₂ = .ret s₃ ∧ SameCalleeSaved s s₃ := by
  have hkeep := agreeOn_saveRegisters s₂ hap
  have hstate := hkeep.readWord (o := Record.stateOff) (by decide)
  have hslot : readWord (saveRegisters s₂).mem (s₂.x 1 + Record.spOff) = s.sp :=
    (hkeep.readWord (by decide)).trans h.sp
  have hres := msContextSwitch_result n s₂ hap
  generalize ho : msContextSwitch n s₂ = o at hres
  rw [← hstate]
  cases hres with
  | state hv => rw [hv]
  | noStack _ h0 => exact absurd (hslot.symm.trans h0) hsp
  | misaligned _ _ h15 => exact absurd hal (hslot ▸ h15)
  | resumed hv => rw [hv]; exact ⟨_, rfl, resume_sameCalleeSaved h hap ho⟩

/-- A later switch into `from` finds what the call of `s` left there: it meets the trap of that
state, or returns from the call. -/
theorem later_switch {n : ℕ} (n' : ℕ) {s s₁ s₂ : Machine}
    (hft : s.x 0 = s.x 1 ∨ RecordsApart (s.x 0) (s.x 1)) (hsp : s.sp ≠ 0) (hal : s.sp &&& 15 = 0)
    (hs : msContextSwitch n s = .ret s₁) (hrun : StaysOut (s.x 0) s₁.mem s₂.mem)
    (hto : s₂.x 1 = s.x 0) (hap : RecordsApart (s.x 0) (s₂.x 0)) :
    match validateTarget (leftState (s.x 0) (s.x 1)
      (readWord s.mem (s.x 0 + Record.stateOff))) with
    | some code => msContextSwitch n' s₂ = .trap code
    | none => ∃ s₃, msContextSwitch n' s₂ = .ret s₃ ∧ SameCalleeSaved s s₃ := by
  obtain ⟨hsaved, hleft⟩ := leaves_of_switch hft hal hs
  have h := resume_of_saved (n := n') (hto ▸ hsaved.of_staysOut hrun) hsp hal (hto ▸ hap)
  rwa [hto, hrun.readWord_eq (by decide), hleft] at h

/-- Every later switch into `from` returns from the call of `s`, as long as `from` stays switched
out. The call of `s` left the machine `s₁`. -/
structure ResumesAfter (s s₁ : Machine) : Prop where
  returns : ∀ (n : ℕ) (s₂ : Machine), StaysOut (s.x 0) s₁.mem s₂.mem → s₂.x 1 = s.x 0 →
    RecordsApart (s.x 0) (s₂.x 0) →
    ∃ s₃, msContextSwitch n s₂ = .ret s₃ ∧ s₃.x 30 = s.x 30 ∧ SameCalleeSaved s s₃

/-- Every later switch into `from` traps with the code, as long as `from` stays switched out. -/
structure TrapsAfter (code : ℕ) (s s₁ : Machine) : Prop where
  traps : ∀ (n : ℕ) (s₂ : Machine), StaysOut (s.x 0) s₁.mem s₂.mem → s₂.x 1 = s.x 0 →
    RecordsApart (s.x 0) (s₂.x 0) → msContextSwitch n s₂ = .trap code

/-- **A later switch into `from` returns from the call**, when the storage of `from` was not `DEAD`
at the call, or when the call is a capture. Otherwise the switch goes through all the same, and
every later switch into `from` meets the trap of `DEAD` storage. -/
theorem resumes_after_switch (n : ℕ) (s s₁ : Machine)
    (hft : s.x 0 = s.x 1 ∨ RecordsApart (s.x 0) (s.x 1)) (hsp : s.sp ≠ 0) (hal : s.sp &&& 15 = 0)
    (hfin : readWord s.mem (s.x 0 + Record.stateOff) ≠ CtxState.finished.toWord)
    (hs : msContextSwitch n s = .ret s₁) :
    (readWord s.mem (s.x 0 + Record.stateOff) ≠ CtxState.dead.toWord ∨ s.x 0 = s.x 1 →
      ResumesAfter s s₁) ∧
    (readWord s.mem (s.x 0 + Record.stateOff) = CtxState.dead.toWord → s.x 0 ≠ s.x 1 →
      TrapsAfter 0x68 s s₁) := by
  constructor
  · intro hcond
    constructor
    intro n' s₂ hrun hto hap
    have h := later_switch n' hft hsp hal hs hrun hto hap
    rw [validateTarget_leftState_of_live hfin hcond] at h
    obtain ⟨s₃, hret, hsame⟩ := h
    exact ⟨s₃, hret, hsame.x 30 (by decide), hsame⟩
  · intro hdead hne
    constructor
    intro n' s₂ hrun hto hap
    have h := later_switch n' hft hsp hal hs hrun hto hap
    rwa [hdead, validateTarget_leftState_dead hne] at h

/-- The memory of `initOutcome` after `ms_context_destroy(0x1000)`: the target at `0x2000` is
initialised, the record at `0x1000` is zeroed. -/
def destroyedMem : ByteMemory := msContextDestroy 0x1000 initOutcome.2.mem

/-- A call from a suspended record is returned from, whatever ran in between. -/
theorem resumes_after_switch_suspended :
    ∃ s₁, msContextSwitch 1 (driverMachine 0x2000 initOutcome.2.mem) = .ret s₁ ∧
      ResumesAfter (driverMachine 0x2000 initOutcome.2.mem) s₁ := by
  obtain ⟨s₁, h₁⟩ := Outcome.exists_of_isRet
    (show (msContextSwitch 1 (driverMachine 0x2000 initOutcome.2.mem)).isRet = true by
      decide +kernel)
  have hstate : readWord (driverMachine 0x2000 initOutcome.2.mem).mem (0x1000 + Record.stateOff) =
      CtxState.suspended.toWord := by decide +kernel
  refine ⟨s₁, h₁, (resumes_after_switch 1 _ s₁ (Or.inr (by decide)) (by decide) (by decide) ?_
    h₁).1 (Or.inl ?_)⟩
  · exact hstate.trans_ne (by decide)
  · exact hstate.trans_ne (by decide)

/-- A call from destroyed storage goes through, and the switch back into it traps. -/
theorem resumes_after_switch_fails :
    ∃ s s₁ : Machine, s.x 0 = 0x1000 ∧ s.mem = destroyedMem ∧ s.sp = 0x8000 ∧
      readWord s.mem (s.x 0 + Record.stateOff) ≠ CtxState.finished.toWord ∧
      msContextSwitch 0 s = .ret s₁ ∧ msContextSwitch 0 (backMachine s₁.mem) = .trap 0x68 ∧
      ¬ ResumesAfter s s₁ := by
  obtain ⟨s₁, h₁⟩ := Outcome.exists_of_isRet
    (show (msContextSwitch 0 (driverMachine 0x2000 destroyedMem)).isRet = true by decide +kernel)
  have hdead : readWord (driverMachine 0x2000 destroyedMem).mem
      ((driverMachine 0x2000 destroyedMem).x 0 + Record.stateOff) = CtxState.dead.toWord := by
    decide +kernel
  have hap : RecordsApart 0x1000 0x2000 := by decide
  have htrap : msContextSwitch 0 (backMachine s₁.mem) = .trap 0x68 := by
    have hrun : StaysOut 0x1000 s₁.mem (backMachine s₁.mem).mem := .refl
    have h := later_switch 0 (Or.inr (by decide)) (by decide) (by decide) h₁ hrun rfl hap
    rwa [hdead, validateTarget_leftState_dead (by decide)] at h
  refine ⟨driverMachine 0x2000 destroyedMem, s₁, rfl, rfl, rfl, by decide +kernel, h₁, htrap,
    fun hres => ?_⟩
  obtain ⟨s₃, hret, -⟩ := hres.returns 0 (backMachine s₁.mem) .refl rfl hap
  exact absurd (hret.symm.trans htrap) (by simp)

end MojitoSys.Ctx.AArch64
