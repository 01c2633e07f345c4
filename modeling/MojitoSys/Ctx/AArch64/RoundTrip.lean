import MojitoSys.Ctx.AArch64.Switch

/-!
# The AArch64 round trip

A switch out of a context and a later switch back into it are separated by a run of other code.
The run is undisturbed (`Undisturbed`): it writes the record only as `ms_context_switch` itself
does, and switches between other records are such runs (`Undisturbed.switch`). The save area
survives it, so the later switch restores what the earlier one saved. A freshly initialised record
restores to the entry of the trampoline, which calls `entry(userdata)`.

## Main results

* `roundTrip_sameCalleeSaved`: a switch out and a switch back.
* `msContextInit_resume`: the first resume of a freshly initialised record.
* `aarch64_round_trip`: both, with the disjointness of the slots.
-/

namespace MojitoSys.Ctx.AArch64

open Util

theorem Saved.of_undisturbed {p : Word} {m m' : ByteMemory} {s : Machine} (h : Saved m p s)
    (h' : Undisturbed p m m') : Saved m' p s :=
  h.of_readWord fun _ ho => h'.readWord_save ho

/-- A switch between two other records is undisturbed. -/
theorem Undisturbed.switch {p : Word} {m : ByteMemory} {n : ℕ} {s s' : Machine}
    (h : Undisturbed p m s.mem) (hf : RecordsApart p (s.x 0)) (ht : RecordsApart p (s.x 1))
    (hap : RecordsApart (s.x 1) (s.x 0)) (hs : msContextSwitch n s = .ret s') :
    Undisturbed p m s'.mem := by
  have hres := msContextSwitch_result n s hap
  rw [hs] at hres
  cases hres with
  | resumed _ _ _ hmem _ =>
    exact h.code (hmem ▸ (agreeOn_saveRegisters s hf).trans (agreeOn_switchMem _ hf ht))

/-- The lifecycle writes of a switch out of `f` are undisturbed. -/
theorem undisturbed_switchMem (m : ByteMemory) {f t : Word} (hap : RecordsApart f t) :
    Undisturbed f m (switchMem m f t) := by
  have hdemote : Undisturbed f m (demoteMem m f) := by
    unfold demoteMem
    split
    · exact Undisturbed.refl.state _
    · exact .refl
  exact (hdemote.code (agreeOn_writeWord _ hap (by decide) le_rfl)).code
    (agreeOn_writeWord _ hap (by decide) le_rfl)

/-- The lifecycle writes of a switch into `t` leave its save area alone. -/
theorem readWord_switchMem_save (m : ByteMemory) {f t : Word} (h : RecordsApart t f) {o : Word}
    (ho : o.toNat + 8 ≤ Record.saveSize) :
    readWord (switchMem m f t) (t + o) = readWord m (t + o) := by
  simp only [Record.saveSize] at ho
  refine readWord_switchMem_target m h ?_ ?_ ?_
  · constructor <;> bv_omega
  · constructor <;> bv_omega
  · simp only [Record.size]
    omega

/-- A switch back into a record that still holds the registers of `s`. -/
theorem resume_sameCalleeSaved {n : ℕ} {s s₂ s₃ : Machine} (h : Saved s₂.mem (s₂.x 1) s)
    (hap : RecordsApart (s₂.x 1) (s₂.x 0)) (hs : msContextSwitch n s₂ = .ret s₃) :
    SameCalleeSaved s s₃ := by
  have hres := msContextSwitch_result n s₂ hap
  rw [hs] at hres
  cases hres with
  | resumed _ _ _ hmem hreg =>
    refine Saved.sameCalleeSaved ?_ hreg
    rw [hmem]
    refine h.of_readWord fun o ho => ?_
    rw [readWord_switchMem_save _ hap ho, (agreeOn_saveRegisters s₂ hap).readWord]
    simp only [Record.saveSize] at ho
    simp only [Record.size]
    omega

/-- **Round trip.** A switch out of `from`, an undisturbed run and a switch back. -/
theorem roundTrip_sameCalleeSaved {n n' : ℕ} {s s₁ s₂ s₃ : Machine}
    (hft : s.x 0 = s.x 1 ∨ RecordsApart (s.x 0) (s.x 1)) (hsp : s.sp &&& 15 = 0)
    (hs : msContextSwitch n s = .ret s₁) (hrun : Undisturbed (s.x 0) s₁.mem s₂.mem)
    (hto : s₂.x 1 = s.x 0) (hap : RecordsApart (s.x 0) (s₂.x 0))
    (hs' : msContextSwitch n' s₂ = .ret s₃) : SameCalleeSaved s s₃ := by
  have hsaved : Saved s₁.mem (s.x 0) s := by
    rcases hft with he | hft
    · obtain ⟨s', hret, -, hmem⟩ := msContextSwitch_self n s he hsp
      obtain rfl : s' = s₁ := by injection hret.symm.trans hs
      rw [hmem]
      exact (saveRegisters_saved s).of_undisturbed (Undisturbed.refl.state _)
    · have hres := msContextSwitch_result n s hft.symm
      rw [hs] at hres
      cases hres with
      | resumed _ _ _ hmem _ =>
        exact hmem ▸ (saveRegisters_saved s).of_undisturbed (undisturbed_switchMem _ hft)
  have hsaved' := hsaved.of_undisturbed hrun
  rw [← hto] at hsaved' hap
  exact resume_sameCalleeSaved hsaved' hap hs'

/-! ### The first resume -/

/-- The record at `p` as `mjs__ctx_make_raw` leaves it. -/
structure Made (m : ByteMemory) (p trampoline stackTop entry userdata : Word) : Prop where
  entry : readWord m (p + 0) = entry
  userdata : readWord m (p + 8) = userdata
  lr : readWord m (p + 88) = trampoline
  sp : readWord m (p + Record.spOff) = stackTop - 16
  state : readWord m (p + Record.stateOff) = CtxState.empty.toWord

theorem mjsCtxMakeRaw_ret {trampoline : Word} {s s₁ : Machine}
    (h : mjsCtxMakeRaw trampoline s = .ret s₁) :
    s.x 1 &&& 15 = 0 ∧ Made s₁.mem (s.x 0) trampoline (s.x 1) (s.x 2) (s.x 3) := by
  unfold mjsCtxMakeRaw at h
  split at h
  · cases h
  · rename_i hal
    injection h with h
    refine ⟨not_not.1 hal, ?_⟩
    subst h
    constructor
    all_goals simp (disch := decide) only [stp, str, strZero, setX, Function.update_self,
      Function.update_of_ne, readWord_writeWord_self, readWord_writeWord_add_of_le,
      BitVec.reduceAdd, BitVec.ofNat_eq_ofNat]

theorem msContextInit_ret {trampoline ctx stackLow stackSize entry userdata : Word} {s s₁ : Machine}
    (h : msContextInit trampoline ctx stackLow stackSize entry userdata s = (0, .ret s₁)) :
    initArgsOk ctx stackLow stackSize entry = true ∧ stackLow + stackSize &&& 15 = 0 ∧
      Made s₁.mem ctx trampoline (stackLow + stackSize) entry userdata := by
  unfold msContextInit at h
  split at h
  · rename_i hok
    have hraw := mjsCtxMakeRaw_ret (congrArg Prod.snd h)
    simp (disch := decide) only [setX, Function.update_self, Function.update_of_ne] at hraw
    exact ⟨hok, hraw⟩
  · exact absurd (congrArg Prod.fst h) (show -EINVAL ≠ 0 by decide)

/-- The arguments that `ms_context_init` accepts leave room for the trampoline's frame. -/
theorem stackTop_sub_ne_zero {ctx stackLow stackSize entry : Word}
    (h : initArgsOk ctx stackLow stackSize entry = true) : stackLow + stackSize - 16 ≠ 0 := by
  simp only [initArgsOk, Bool.and_eq_true, Bool.not_eq_true', Bool.or_eq_false_iff,
    decide_eq_false_iff_not, ne_eq, not_not, BitVec.lt_def, Nat.not_lt] at h
  obtain ⟨⟨⟨-, hlow⟩, -⟩, ⟨⟨hsize, hsz⟩, hal⟩, hfit⟩ := h
  rw [and_fifteen_eq_zero_iff] at hsz hal
  bv_omega

/-- The trampoline calls the address in `x19` on `x20`, sixteen bytes further down the stack. -/
theorem trampolineEnter_eq (s : Machine) : (trampolineEnter s).1 = s.x 19 ∧
    (trampolineEnter s).2.x 0 = s.x 20 ∧ (trampolineEnter s).2.sp = s.sp - 16 := by
  refine ⟨?_, ?_, rfl⟩ <;>
    simp (disch := decide) only [trampolineEnter, ldrSp, strSp, setX, Function.update_self,
      Function.update_of_ne]

/-- **First resume.** A switch into a freshly initialised record returns into the trampoline, which
calls `entry(userdata)` with an aligned stack. -/
theorem msContextInit_resume {trampoline ctx stackLow stackSize entry userdata : Word} {n : ℕ}
    {s s₁ s₂ s₃ : Machine}
    (hinit : msContextInit trampoline ctx stackLow stackSize entry userdata s = (0, .ret s₁))
    (hrun : Undisturbed ctx s₁.mem s₂.mem) (hto : s₂.x 1 = ctx) (hap : RecordsApart ctx (s₂.x 0))
    (hs : msContextSwitch n s₂ = .ret s₃) :
    s₃.x 30 = trampoline ∧ (trampolineEnter s₃).1 = entry ∧
      (trampolineEnter s₃).2.x 0 = userdata ∧ (trampolineEnter s₃).2.sp &&& 15 = 0 := by
  obtain ⟨-, hal, hmade⟩ := msContextInit_ret hinit
  have hres := msContextSwitch_result n s₂ (hto ▸ hap)
  rw [hs] at hres
  cases hres with
  | resumed _ _ _ hmem hreg =>
    -- a slot of the save area holds at the resume what `mjs__ctx_make_raw` stored in it
    have hslot (o : Word) (ho : o.toNat + 8 ≤ Record.saveSize) :
        readWord s₃.mem (ctx + o) = readWord s₁.mem (ctx + o) := by
      have hsz : o.toNat + 8 ≤ Record.size := by
        simp only [Record.saveSize] at ho
        simp only [Record.size]
        omega
      rw [hmem, hto, readWord_switchMem_save _ hap ho, (agreeOn_saveRegisters s₂ hap).readWord hsz,
        hrun.readWord_save ho]
    obtain ⟨he, hu, hsp⟩ := trampolineEnter_eq s₃
    have hr := hreg.regs
    rw [hto] at hr
    refine ⟨?_, ?_, ?_, ?_⟩
    · exact (hr 11).trans ((hslot 88 (by decide)).trans hmade.lr)
    · exact he.trans ((hr 0).trans ((hslot 0 (by decide)).trans hmade.entry))
    · exact hu.trans ((hr 1).trans ((hslot 8 (by decide)).trans hmade.userdata))
    · rw [hsp, hreg.sp, hto, hslot _ (by decide), hmade.sp]
      rw [and_fifteen_eq_zero_iff] at hal ⊢
      bv_omega

/-- The first resume of a freshly initialised record does not trap. -/
theorem msContextInit_resume_ret {trampoline ctx stackLow stackSize entry userdata : Word}
    {s s₁ s₂ : Machine} (n : ℕ)
    (hinit : msContextInit trampoline ctx stackLow stackSize entry userdata s = (0, .ret s₁))
    (hrun : AgreeOn Record.size ctx s₁.mem s₂.mem) (hto : s₂.x 1 = ctx)
    (hap : RecordsApart ctx (s₂.x 0)) : ∃ s₃, msContextSwitch n s₂ = .ret s₃ := by
  obtain ⟨hok, hal, hmade⟩ := msContextInit_ret hinit
  have hslot (o : Word) (ho : o.toNat + 8 ≤ Record.size) :
      readWord (saveRegisters s₂).mem (ctx + o) = readWord s₁.mem (ctx + o) :=
    ((agreeOn_saveRegisters s₂ hap).readWord ho).trans (hrun.readWord ho)
  have hstate : validateTarget
      (readWord (saveRegisters s₂).mem (s₂.x 1 + Record.stateOff)) = none := by
    rw [hto, hslot _ (by decide), hmade.state]
    rfl
  have hsp : readWord (saveRegisters s₂).mem (s₂.x 1 + Record.spOff) =
      stackLow + stackSize - 16 := by
    rw [hto, hslot _ (by decide), hmade.sp]
  have hres := msContextSwitch_result n s₂ (hto ▸ hap)
  generalize msContextSwitch n s₂ = o at hres
  cases hres with
  | state h => exact absurd (h.symm.trans hstate) (by simp)
  | noStack _ h => exact absurd (hsp.symm.trans h) (stackTop_sub_ne_zero hok)
  | misaligned _ _ h =>
    rw [hsp] at h
    refine absurd ?_ h
    rw [and_fifteen_eq_zero_iff] at hal ⊢
    bv_omega
  | resumed => exact ⟨_, rfl⟩

/-! ### The round trip -/

/-- **AArch64 round trip.** For every register file and memory: a switch out of `from`, any run
that writes the record of `from` only through lifecycle writes, and a switch back into `from` that
does not trap, return at the saved `lr` with every callee-saved register and the stack pointer of
the call, and so does a self-switch. The register saves land in distinct slots outside the
lifecycle tail, and no lifecycle write of a switch touches a saved slot of either record. The first
resume of a freshly initialised record does not trap and enters `entry(userdata)` with an aligned
stack. -/
theorem aarch64_round_trip :
    (∀ (n n' : ℕ) (s s₁ s₂ s₃ : Machine), (s.x 0 = s.x 1 ∨ RecordsApart (s.x 0) (s.x 1)) →
      s.sp &&& 15 = 0 → msContextSwitch n s = .ret s₁ → Undisturbed (s.x 0) s₁.mem s₂.mem →
      s₂.x 1 = s.x 0 → RecordsApart (s.x 0) (s₂.x 0) → msContextSwitch n' s₂ = .ret s₃ →
      s₃.x 30 = s.x 30 ∧ SameCalleeSaved s s₃) ∧
    (∀ (n : ℕ) (s : Machine), s.x 0 = s.x 1 → s.sp &&& 15 = 0 →
      ∃ s', msContextSwitch n s = .ret s' ∧ s'.x 30 = s.x 30 ∧ SameCalleeSaved s s') ∧
    (∀ s : Machine, Saved (saveRegisters s).mem (s.x 0) s ∧
      (∀ o : Word, Record.saveSize ≤ o.toNat → o.toNat + 8 ≤ Record.size →
        readWord (saveRegisters s).mem (s.x 0 + o) = readWord s.mem (s.x 0 + o)) ∧
      ∀ (m : ByteMemory) (t o : Word), RecordsApart (s.x 0) t → o.toNat + 8 ≤ Record.saveSize →
        readWord (switchMem m (s.x 0) t) (s.x 0 + o) = readWord m (s.x 0 + o) ∧
        readWord (switchMem m (s.x 0) t) (t + o) = readWord m (t + o)) ∧
    (∀ (n : ℕ) (trampoline ctx stackLow stackSize entry userdata : Word) (s s₁ s₂ : Machine),
      msContextInit trampoline ctx stackLow stackSize entry userdata s = (0, .ret s₁) →
      s₂.x 1 = ctx → RecordsApart ctx (s₂.x 0) →
      (AgreeOn Record.size ctx s₁.mem s₂.mem → ∃ s₃, msContextSwitch n s₂ = .ret s₃) ∧
      ∀ s₃, Undisturbed ctx s₁.mem s₂.mem → msContextSwitch n s₂ = .ret s₃ →
        s₃.x 30 = trampoline ∧ (trampolineEnter s₃).1 = entry ∧
          (trampolineEnter s₃).2.x 0 = userdata ∧ (trampolineEnter s₃).2.sp &&& 15 = 0) := by
  refine ⟨?_, ?_, fun s => ⟨saveRegisters_saved s, fun o h h' => ?_, fun m t o hap ho => ⟨?_, ?_⟩⟩,
    ?_⟩
  · intro n n' s s₁ s₂ s₃ hft hsp hs hrun hto hap hs'
    have h := roundTrip_sameCalleeSaved hft hsp hs hrun hto hap hs'
    exact ⟨h.x 30 (by decide), h⟩
  · intro n s he hsp
    obtain ⟨s', hs', h, -⟩ := msContextSwitch_self n s he hsp
    exact ⟨s', hs', h.x 30 (by decide), h⟩
  · exact readWord_saveRegisters_tail s h h'
  · exact (undisturbed_switchMem m hap).readWord_save ho
  · exact readWord_switchMem_save m hap.symm ho
  · intro n trampoline ctx stackLow stackSize entry userdata s s₁ s₂ hinit hto hap
    exact ⟨fun hrun => msContextInit_resume_ret n hinit hrun hto hap,
      fun s₃ hrun hs => msContextInit_resume hinit hrun hto hap hs⟩

/-- A machine at the call `ms_context_switch(0x1000, target)`, on a stack at `0x8000`. -/
def driverMachine (target : Word) (mem : ByteMemory) : Machine where
  x i := if i.val = 0 then 0x1000 else if i.val = 1 then target
    else BitVec.ofNat 64 (0x500 + i.val)
  d i := BitVec.ofNat 64 (0x600 + i.val)
  sp := 0x8000
  mem := mem

/-- The initialisation of the record at `0x2000`, the record at `0x1000` being suspended. -/
def initOutcome : ℤ × Outcome :=
  msContextInit 0x4000 0x2000 0x10000 0x1000 0x5000 0x77 (driverMachine 0x2000
    (writeWord (fun _ => 0) (0x1000 + Record.stateOff) CtxState.suspended.toWord))

/-- The memory that an outcome leaves, empty after a trap. -/
def Outcome.mem : Outcome → ByteMemory
  | .ret s => s.mem
  | .trap _ => fun _ => 0

/-- A machine at the call `ms_context_switch(0x2000, 0x1000)`. -/
def backMachine (mem : ByteMemory) : Machine where
  x i := if i.val = 0 then 0x2000 else if i.val = 1 then 0x1000
    else BitVec.ofNat 64 (0x700 + i.val)
  d i := BitVec.ofNat 64 (0x900 + i.val)
  sp := 0x10fe0
  mem := mem

theorem aarch64_round_trip_driver :
    (∃ s₁ s₃, msContextSwitch 1 (driverMachine 0x2000 initOutcome.2.mem) = .ret s₁ ∧
      msContextSwitch 0 (backMachine s₁.mem) = .ret s₃ ∧ s₃.x 30 = 0x51e ∧
      SameCalleeSaved (driverMachine 0x2000 initOutcome.2.mem) s₃) ∧
    (∃ s', msContextSwitch 0 (driverMachine 0x1000 fun _ => 0) = .ret s' ∧ s'.x 30 = 0x51e) ∧
    ∃ s₁ s₃, initOutcome = (0, .ret s₁) ∧
      msContextSwitch 2 (driverMachine 0x2000 s₁.mem) = .ret s₃ ∧ s₃.x 30 = 0x4000 ∧
      (trampolineEnter s₃).1 = 0x5000 ∧ (trampolineEnter s₃).2.x 0 = 0x77 := by
  refine ⟨?_, ?_, ?_⟩
  · obtain ⟨s₁, h₁⟩ := Outcome.exists_of_isRet
      (show (msContextSwitch 1 (driverMachine 0x2000 initOutcome.2.mem)).isRet = true by
        decide +kernel)
    have hmem : s₁.mem = (msContextSwitch 1 (driverMachine 0x2000 initOutcome.2.mem)).mem := by
      rw [h₁, Outcome.mem]
    obtain ⟨s₃, h₃⟩ := Outcome.exists_of_isRet
      (show (msContextSwitch 0 (backMachine
        (msContextSwitch 1 (driverMachine 0x2000 initOutcome.2.mem)).mem)).isRet = true by
        decide +kernel)
    rw [← hmem] at h₃
    have h := aarch64_round_trip.1 1 0 _ s₁ (backMachine s₁.mem) s₃ (Or.inr (by decide)) (by decide)
      h₁ .refl rfl (show RecordsApart 0x1000 0x2000 by decide) h₃
    exact ⟨s₁, s₃, h₁, h₃, h.1, h.2⟩
  · obtain ⟨s', h, h', -⟩ := aarch64_round_trip.2.1 0 (driverMachine 0x1000 fun _ => 0) rfl
      (by decide)
    exact ⟨s', h, h'⟩
  · obtain ⟨s₁, h₁⟩ := Outcome.exists_of_isRet (show initOutcome.2.isRet = true by decide +kernel)
    have hinit : initOutcome = (0, .ret s₁) :=
      Prod.ext (show initOutcome.1 = 0 by decide +kernel) h₁
    have h := aarch64_round_trip.2.2.2 2 0x4000 0x2000 0x10000 0x1000 0x5000 0x77 _ s₁
      (driverMachine 0x2000 s₁.mem) hinit rfl (show RecordsApart 0x2000 0x1000 by decide)
    obtain ⟨s₃, h₃⟩ := h.1 (AgreeOn.refl _ _ _)
    obtain ⟨hlr, hentry, hud, -⟩ := h.2 s₃ .refl h₃
    exact ⟨s₁, s₃, hinit, h₃, hlr, hentry, hud⟩

end MojitoSys.Ctx.AArch64
