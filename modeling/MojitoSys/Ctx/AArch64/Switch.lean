import MojitoSys.Ctx.AArch64.Machine
import Mathlib.Data.Fintype.Basic

/-!
# What one AArch64 switch does

One specification for each part of `ms_context_switch`. The save stores every callee-saved
register in its own slot of `from` and touches neither the lifecycle tail nor another record
(`saveRegisters_saved`, `readWord_saveRegisters_tail`). The arm, however often the exclusive store
fails, ends in one of four ways (`SwitchResult`): the trap of the target's state, the trap of an
empty or a misaligned stack slot, or a resumed machine whose memory differs from the saved one
only in the state of `from` and in the state and return target of `to` (`switchMem`).

## Main definitions

* `Saved`: a record holds the callee-saved registers of a machine.
* `Restored`: a machine holds the registers of a record.
* `demoteMem`, `switchMem`: the lifecycle writes of a switch.
* `SwitchResult`: the possible ends of a switch.

## Main results

* `msContextSwitch_result`: every switch between two records ends in a `SwitchResult`.
* `msContextSwitch_self`: the self-switch of a caller with an aligned stack returns.
-/

namespace MojitoSys.Ctx.AArch64

open Util

/-- The save area at `p` holds the callee-saved registers and the stack pointer of `s`. -/
structure Saved (m : ByteMemory) (p : Word) (s : Machine) : Prop where
  regs : ∀ i : Fin 12, readWord m (p + BitVec.ofNat 64 (8 * i)) = s.x ⟨19 + i, by omega⟩
  fps : ∀ i : Fin 8, readWord m (p + BitVec.ofNat 64 (96 + 8 * i)) = s.d ⟨8 + i, by omega⟩
  sp : readWord m (p + Record.spOff) = s.sp

/-- The machine `s` holds the callee-saved registers and the stack pointer of the save area at
`p`. -/
structure Restored (p : Word) (s : Machine) : Prop where
  regs : ∀ i : Fin 12, s.x ⟨19 + i, by omega⟩ = readWord s.mem (p + BitVec.ofNat 64 (8 * i))
  fps : ∀ i : Fin 8, s.d ⟨8 + i, by omega⟩ = readWord s.mem (p + BitVec.ofNat 64 (96 + 8 * i))
  sp : s.sp = readWord s.mem (p + Record.spOff)

/-! ### The register save -/

theorem saveRegisters_mem (s : Machine) : (saveRegisters s).mem =
    writeWord (writeWord (writeWord (writeWord (writeWord (writeWord (writeWord (writeWord
    (writeWord (writeWord (writeWord (writeWord (writeWord (writeWord (writeWord (writeWord
    (writeWord (writeWord (writeWord (writeWord (writeWord s.mem (s.x 0 + 0) (s.x 19))
    (s.x 0 + 8) (s.x 20)) (s.x 0 + 16) (s.x 21)) (s.x 0 + 24) (s.x 22))
    (s.x 0 + 32) (s.x 23)) (s.x 0 + 40) (s.x 24)) (s.x 0 + 48) (s.x 25)) (s.x 0 + 56) (s.x 26))
    (s.x 0 + 64) (s.x 27)) (s.x 0 + 72) (s.x 28)) (s.x 0 + 80) (s.x 29)) (s.x 0 + 88) (s.x 30))
    (s.x 0 + 96) (s.d 8)) (s.x 0 + 104) (s.d 9)) (s.x 0 + 112) (s.d 10)) (s.x 0 + 120) (s.d 11))
    (s.x 0 + 128) (s.d 12)) (s.x 0 + 136) (s.d 13)) (s.x 0 + 144) (s.d 14))
    (s.x 0 + 152) (s.d 15)) (s.x 0 + 160) s.sp := by
  simp (disch := decide) only [saveRegisters, stp, stpD, str, setX, Function.update_self,
    Function.update_of_ne, BitVec.reduceAdd, BitVec.ofNat_eq_ofNat]

theorem saveRegisters_x {s : Machine} {i : Fin 31} (hi : i ≠ 15) :
    (saveRegisters s).x i = s.x i := by
  simp only [saveRegisters, stp, stpD, str, setX, Function.update_of_ne hi]

/-- Every callee-saved register is saved in its own slot. -/
theorem saveRegisters_saved (s : Machine) : Saved (saveRegisters s).mem (s.x 0) s := by
  rw [saveRegisters_mem]
  constructor
  · intro i
    fin_cases i
    all_goals simp (disch := decide) only [Nat.reduceMul, readWord_writeWord_self,
      readWord_writeWord_add_of_le, BitVec.ofNat_eq_ofNat]
    all_goals rfl
  · intro i
    fin_cases i
    all_goals simp (disch := decide) only [Nat.reduceMul, Nat.reduceAdd, readWord_writeWord_self,
      readWord_writeWord_add_of_le, BitVec.ofNat_eq_ofNat]
    all_goals rfl
  · exact readWord_writeWord_self ..

/-- The save does not touch the lifecycle tail. -/
theorem readWord_saveRegisters_tail (s : Machine) {o : Word} (h : 168 ≤ o.toNat)
    (h' : o.toNat + 8 ≤ Record.size) :
    readWord (saveRegisters s).mem (s.x 0 + o) = readWord s.mem (s.x 0 + o) := by
  have hap (o' : Word) (ho' : o'.toNat ≤ 160) : Apart o o' := by
    simp only [Record.size] at h'
    constructor <;> bv_omega
  rw [saveRegisters_mem]
  repeat rw [readWord_writeWord_add_of_le _ _ _ (hap _ (by decide))]

/-- The save does not touch another record. -/
theorem agreeOn_saveRegisters (s : Machine) {q : Word} (h : RecordsApart q (s.x 0)) :
    AgreeOn Record.size q s.mem (saveRegisters s).mem := by
  rw [saveRegisters_mem]
  repeat refine AgreeOn.trans ?_ (agreeOn_writeWord _ h (by decide) le_rfl)
  exact AgreeOn.refl _ _ _

/-! ### Restoring -/

theorem loadRegisters_x16 (s : Machine) :
    (loadRegisters s).x 16 = readWord s.mem (s.x 1 + Record.spOff) := by
  simp (disch := decide) only [loadRegisters, ldpD, ldp, ldr, setX, setD, Function.update_self,
    Function.update_of_ne]

theorem loadRegisters_restored (s : Machine) :
    Restored (s.x 1) (loadRegisters s |> movSp 16 |> ldp 29 30 1 80) := by
  constructor
  · intro i
    fin_cases i
    all_goals simp (disch := decide) [loadRegisters, movSp, ldpD, ldp, ldr, setX, setD,
      Function.update_of_ne]
  · intro i
    fin_cases i
    all_goals simp (disch := decide) [loadRegisters, movSp, ldpD, ldp, ldr, setX, setD,
      Function.update_of_ne]
  · simp (disch := decide) [loadRegisters, movSp, ldpD, ldp, ldr, setX, setD, Function.update_of_ne]

/-- The restore sequence traps on a misaligned stack slot and otherwise loads every register from
its slot, changing no memory. -/
theorem restoreTarget_eq (s : Machine) :
    (readWord s.mem (s.x 1 + Record.spOff) &&& 15 ≠ 0 ∧ restoreTarget s = .trap 0x6b) ∨
    (readWord s.mem (s.x 1 + Record.spOff) &&& 15 = 0 ∧
      ∃ s', restoreTarget s = .ret s' ∧ s'.mem = s.mem ∧ Restored (s.x 1) s') := by
  simp only [restoreTarget, loadRegisters_x16]
  by_cases hsp : readWord s.mem (s.x 1 + Record.spOff) &&& 15 = 0
  · exact Or.inr ⟨hsp, _, ite_eq_right_iff.2 (fun h => absurd hsp h), rfl,
      loadRegisters_restored s⟩
  · exact Or.inl ⟨hsp, ite_eq_left_iff.2 (fun h => absurd hsp h)⟩

/-! ### The lifecycle writes -/

/-- The demotion of `f`: `RUNNING` becomes `SUSPENDED`. -/
def demoteMem (m : ByteMemory) (f : Word) : ByteMemory :=
  if readWord m (f + Record.stateOff) = CtxState.running.toWord then
    writeWord m (f + Record.stateOff) CtxState.suspended.toWord
  else m

/-- All lifecycle writes of a switch from `f` to `t`. -/
def switchMem (m : ByteMemory) (f t : Word) : ByteMemory :=
  writeWord (writeWord (demoteMem m f) (t + Record.stateOff) CtxState.running.toWord)
    (t + Record.retToOff) f

theorem demoteMem_demoteMem (m : ByteMemory) (f : Word) :
    demoteMem (demoteMem m f) f = demoteMem m f := by
  by_cases h : readWord m (f + Record.stateOff) = CtxState.running.toWord
  · have hne : CtxState.suspended.toWord ≠ CtxState.running.toWord := by decide
    simp only [demoteMem, h, ↓reduceIte, readWord_writeWord_self, hne]
  · simp only [demoteMem, h, ↓reduceIte]

/-- The demotion of `f` does not touch another record. -/
theorem agreeOn_demoteMem (m : ByteMemory) {f q : Word} (h : RecordsApart q f) :
    AgreeOn Record.size q m (demoteMem m f) := by
  unfold demoteMem
  split
  · exact agreeOn_writeWord _ h (by decide) le_rfl
  · exact AgreeOn.refl _ _ _

/-- The lifecycle writes of a switch do not touch a third record. -/
theorem agreeOn_switchMem (m : ByteMemory) {f t q : Word} (hf : RecordsApart q f)
    (ht : RecordsApart q t) : AgreeOn Record.size q m (switchMem m f t) :=
  ((agreeOn_demoteMem m hf).trans (agreeOn_writeWord _ ht (by decide) le_rfl)).trans
    (agreeOn_writeWord _ ht (by decide) le_rfl)

/-- The demotion of `f` writes no slot of `f` but its state. -/
theorem readWord_demoteMem_self (m : ByteMemory) (f : Word) {o : Word}
    (ho : Apart o Record.stateOff) :
    readWord (demoteMem m f) (f + o) = readWord m (f + o) := by
  unfold demoteMem
  split
  · exact readWord_writeWord_add_of_le _ _ _ ho
  · rfl

/-- The lifecycle writes of a switch into `t` write no slot of `t` but its state and return
target. -/
theorem readWord_switchMem_target (m : ByteMemory) {f t : Word} (h : RecordsApart t f) {o : Word}
    (ho : Apart o Record.stateOff) (ho' : Apart o Record.retToOff)
    (hs : o.toNat + 8 ≤ Record.size) :
    readWord (switchMem m f t) (t + o) = readWord m (t + o) := by
  rw [switchMem, readWord_writeWord_add_of_le _ _ _ ho', readWord_writeWord_add_of_le _ _ _ ho,
    (agreeOn_demoteMem m h).readWord hs]

/-! ### The arm loop -/

/-- How a switch from `f` to `t` over the memory `m` can end, the registers being saved. -/
inductive SwitchResult (m : ByteMemory) (f t : Word) : Outcome → Prop
  /-- The state of the target traps. -/
  | state {code : ℕ} (h : validateTarget (readWord m (t + Record.stateOff)) = some code) :
      SwitchResult m f t (.trap code)
  /-- The stack slot of the target is empty. -/
  | noStack (h : validateTarget (readWord m (t + Record.stateOff)) = none)
      (hsp : readWord m (t + Record.spOff) = 0) : SwitchResult m f t (.trap 0x68)
  /-- The stack slot of the target is misaligned. -/
  | misaligned (h : validateTarget (readWord m (t + Record.stateOff)) = none)
      (hsp : readWord m (t + Record.spOff) ≠ 0)
      (hal : readWord m (t + Record.spOff) &&& 15 ≠ 0) : SwitchResult m f t (.trap 0x6b)
  /-- The target is armed and its registers are restored. -/
  | resumed {s' : Machine} (h : validateTarget (readWord m (t + Record.stateOff)) = none)
      (hsp : readWord m (t + Record.spOff) ≠ 0)
      (hal : readWord m (t + Record.spOff) &&& 15 = 0)
      (hmem : s'.mem = switchMem m f t) (hreg : Restored t s') : SwitchResult m f t (.ret s')

theorem demoteFrom_mem (s : Machine) : (demoteFrom s).mem = demoteMem s.mem (s.x 0) := by
  simp (disch := decide) only [demoteFrom, demoteMem, ldr, setX, str, Function.update_self,
    Function.update_of_ne]
  split <;> rfl

theorem demoteFrom_x (s : Machine) {i : Fin 31} (hi : i ≠ 16) : (demoteFrom s).x i = s.x i := by
  unfold demoteFrom
  dsimp only
  split <;> simp only [ldr, setX, str, Function.update_of_ne hi]

/-- The machine that reaches the exclusive store. -/
theorem prepareArm_ldr (s : Machine) :
    (prepareArm (ldr 16 15 0 s)).mem = demoteMem s.mem (s.x 0) ∧
      (prepareArm (ldr 16 15 0 s)).x 17 = CtxState.running.toWord ∧
      ∀ i : Fin 31, i ≠ 16 → i ≠ 17 → (prepareArm (ldr 16 15 0 s)).x i = s.x i := by
  refine ⟨?_, ?_, fun i h16 h17 => ?_⟩
  · change (demoteFrom _).mem = _
    rw [demoteFrom_mem]
    simp (disch := decide) only [ldr, setX, Function.update_of_ne]
  · simp only [prepareArm, setX, Function.update_self]
  · simp only [prepareArm, setX, Function.update_of_ne h17, demoteFrom_x _ h16, ldr,
      Function.update_of_ne h16]

/-- One more demotion of `f` before the loop changes nothing. -/
theorem SwitchResult.of_demoteMem {m : ByteMemory} {f t : Word} {o : Outcome}
    (hap : RecordsApart t f) (h : SwitchResult (demoteMem m f) f t o) : SwitchResult m f t o := by
  have hstate : readWord (demoteMem m f) (t + Record.stateOff) = readWord m (t + Record.stateOff) :=
    (agreeOn_demoteMem m hap).readWord (by decide)
  have hspEq : readWord (demoteMem m f) (t + Record.spOff) = readWord m (t + Record.spOff) :=
    (agreeOn_demoteMem m hap).readWord (by decide)
  cases h with
  | state h => exact .state (hstate ▸ h)
  | noStack h hsp => exact .noStack (hstate ▸ h) (hspEq ▸ hsp)
  | misaligned h hsp hal => exact .misaligned (hstate ▸ h) (hspEq ▸ hsp) (hspEq ▸ hal)
  | resumed h hsp hal hmem hreg =>
    refine .resumed (hstate ▸ h) (hspEq ▸ hsp) (hspEq ▸ hal) ?_ hreg
    rw [hmem, switchMem, demoteMem_demoteMem, switchMem]

/-- After a successful arm of a valid target. -/
theorem resumeTarget_result {m : ByteMemory} {s : Machine} (hap : RecordsApart (s.x 1) (s.x 0))
    (hv : validateTarget (readWord m (s.x 1 + Record.stateOff)) = none)
    (hm : s.mem = writeWord (demoteMem m (s.x 0)) (s.x 1 + Record.stateOff)
      CtxState.running.toWord) :
    SwitchResult m (s.x 0) (s.x 1) (resumeTarget s) := by
  let s₁ := s |> str 0 1 Record.retToOff |> ldr 15 1 Record.spOff
  have hmem : s₁.mem = switchMem m (s.x 0) (s.x 1) := by
    change writeWord s.mem _ _ = _
    rw [hm, switchMem]
  have hx1 : s₁.x 1 = s.x 1 := by
    simp (disch := decide) only [s₁, str, ldr, setX, Function.update_of_ne]
  have hsp : readWord s₁.mem (s.x 1 + Record.spOff) = readWord m (s.x 1 + Record.spOff) := by
    rw [hmem]
    exact readWord_switchMem_target m hap (by decide) (by decide) (by decide)
  have hx15 : s₁.x 15 = readWord m (s.x 1 + Record.spOff) := by
    rw [← hsp]
    simp (disch := decide) only [s₁, str, ldr, setX, Function.update_self]
  change SwitchResult _ _ _ (if s₁.x 15 = 0 then _ else restoreTarget s₁)
  split
  · rename_i h0
    exact .noStack hv (hx15 ▸ h0)
  · rename_i h0
    rw [hx15] at h0
    rcases restoreTarget_eq s₁ with ⟨hal, hr⟩ | ⟨hal, s', hr, hs', hreg⟩
    · rw [hx1, hsp] at hal
      exact hr ▸ .misaligned hv h0 hal
    · rw [hx1, hsp] at hal
      exact hr ▸ .resumed hv h0 hal (hs'.trans hmem) (hx1 ▸ hreg)

theorem stlxr_x (ok : Bool) (s : Machine) {i : Fin 31} (hi : i ≠ 16) :
    (stlxr ok s).x i = s.x i := by
  cases ok with
  | true => exact Function.update_of_ne hi _ _
  | false => exact Function.update_of_ne hi _ _

/-- The state that a pass of the arm loop validates. -/
theorem ldr_state {s : Machine} (h15 : s.x 15 = s.x 1 + Record.stateOff) :
    (ldr 16 15 0 s).x 16 = readWord s.mem (s.x 1 + Record.stateOff) := by
  simp only [ldr, setX, Function.update_self, h15, BitVec.ofNat_eq_ofNat, BitVec.add_zero]

/-- A pass leaves the arguments. -/
theorem armPass_x (ok : Bool) (s : Machine) {i : Fin 31} (h16 : i ≠ 16) (h17 : i ≠ 17) :
    (stlxr ok (prepareArm (ldr 16 15 0 s))).x i = s.x i :=
  (stlxr_x ok _ h16).trans ((prepareArm_ldr s).2.2 i h16 h17)

/-- The arm loop, however often the exclusive store fails. A failed pass has demoted `from`, and
demoting it again changes nothing, so the induction is on the number of failures. -/
theorem armLoop_result (n : ℕ) (s : Machine) (hap : RecordsApart (s.x 1) (s.x 0))
    (h15 : s.x 15 = s.x 1 + Record.stateOff) :
    SwitchResult s.mem (s.x 0) (s.x 1) (armLoop n s) := by
  induction n generalizing s with
  | zero =>
    rw [armLoop, ldr_state h15]
    cases hv : validateTarget (readWord s.mem (s.x 1 + Record.stateOff)) with
    | some code => exact .state hv
    | none =>
      obtain ⟨hm, hx17, hx⟩ := prepareArm_ldr s
      have h0 := armPass_x true s (i := 0) (by decide) (by decide)
      have h1 := armPass_x true s (i := 1) (by decide) (by decide)
      have hres := resumeTarget_result (m := s.mem) (s := stlxr true (prepareArm (ldr 16 15 0 s)))
      rw [h0, h1] at hres
      refine hres hap hv ?_
      change writeWord _ _ _ = _
      rw [hm, hx17, hx 15 (by decide) (by decide), h15]
  | succ n ih =>
    rw [armLoop, ldr_state h15]
    cases hv : validateTarget (readWord s.mem (s.x 1 + Record.stateOff)) with
    | some code => exact .state hv
    | none =>
      have hm : (stlxr false (prepareArm (ldr 16 15 0 s))).mem = demoteMem s.mem (s.x 0) :=
        (prepareArm_ldr s).1
      have h0 := armPass_x false s (i := 0) (by decide) (by decide)
      have h1 := armPass_x false s (i := 1) (by decide) (by decide)
      have h15' := armPass_x false s (i := 15) (by decide) (by decide)
      have hres := ih (stlxr false (prepareArm (ldr 16 15 0 s)))
      rw [h0, h1, hm, h15'] at hres
      exact (hres hap h15).of_demoteMem hap

/-- **Every switch between two records** ends in a `SwitchResult` over the memory that holds the
saved registers. -/
theorem msContextSwitch_result (n : ℕ) (s : Machine) (hap : RecordsApart (s.x 1) (s.x 0)) :
    SwitchResult (saveRegisters s).mem (s.x 0) (s.x 1) (msContextSwitch n s) := by
  have hne : s.x 0 ≠ s.x 1 := by
    intro h
    rw [h] at hap
    exact absurd hap.1 (by simp [Record.size])
  have h0 : (saveRegisters s).x 0 = s.x 0 := saveRegisters_x (by decide)
  have h1 : (saveRegisters s).x 1 = s.x 1 := saveRegisters_x (by decide)
  have harm := armLoop_result n (setX 15 ((saveRegisters s).x 1 + Record.stateOff)
    (saveRegisters s))
  simp (disch := decide) only [setX, Function.update_of_ne, Function.update_self, h0, h1] at harm
  simp only [msContextSwitch, h0, h1, hne, ↓reduceIte]
  exact harm hap trivial

/-- The machine `s'` has the callee-saved registers and the stack pointer of `s`. -/
structure SameCalleeSaved (s s' : Machine) : Prop where
  x : ∀ i : Fin 31, 19 ≤ i.val → s'.x i = s.x i
  d : ∀ i : Fin 32, 8 ≤ i.val → i.val ≤ 15 → s'.d i = s.d i
  sp : s'.sp = s.sp

/-- A machine restored from a record that still holds the registers saved from `s`. -/
theorem Saved.sameCalleeSaved {p : Word} {s s' : Machine} (h : Saved s'.mem p s)
    (h' : Restored p s') : SameCalleeSaved s s' where
  x i hi := by
    have hlt := i.isLt
    have he : i = ⟨19 + (i.val - 19), by omega⟩ := Fin.ext (by simp only; omega)
    rw [he]
    exact (h'.regs ⟨i.val - 19, by omega⟩).trans (h.regs ⟨i.val - 19, by omega⟩)
  d i hi hi' := by
    have he : i = ⟨8 + (i.val - 8), by omega⟩ := Fin.ext (by simp only; omega)
    rw [he]
    exact (h'.fps ⟨i.val - 8, by omega⟩).trans (h.fps ⟨i.val - 8, by omega⟩)
  sp := h'.sp.trans h.sp

/-- A save area that is not written still holds the saved registers. -/
theorem Saved.of_readWord {m m' : ByteMemory} {p : Word} {s : Machine} (h : Saved m p s)
    (hm : ∀ o : Word, o.toNat + 8 ≤ Record.saveSize → readWord m' (p + o) = readWord m (p + o)) :
    Saved m' p s where
  regs i := by
    rw [hm _ (by have := i.isLt; simp [Record.saveSize]; omega), h.regs]
  fps i := by
    rw [hm _ (by have := i.isLt; simp [Record.saveSize]; omega), h.fps]
  sp := by rw [hm _ (by decide), h.sp]

/-- The self-switch of a caller with an aligned stack returns to it with its registers, and arms
the record `SUSPENDED`. -/
theorem msContextSwitch_self (n : ℕ) (s : Machine) (h : s.x 0 = s.x 1) (hsp : s.sp &&& 15 = 0) :
    ∃ s', msContextSwitch n s = .ret s' ∧ SameCalleeSaved s s' ∧
      s'.mem = writeWord (saveRegisters s).mem (s.x 0 + Record.stateOff)
        CtxState.suspended.toWord := by
  let s₁ := saveRegisters s |> setX 16 CtxState.suspended.toWord |> str 16 1 Record.stateOff
  have h0 : (saveRegisters s).x 0 = s.x 0 := saveRegisters_x (by decide)
  have h1 : (saveRegisters s).x 1 = s.x 0 :=
    (saveRegisters_x (by decide)).trans h.symm
  have hx1 : s₁.x 1 = s.x 0 := by
    simp (disch := decide) only [s₁, str, setX, Function.update_of_ne, h1]
  have hmem : s₁.mem = writeWord (saveRegisters s).mem (s.x 0 + Record.stateOff)
      CtxState.suspended.toWord := by
    simp (disch := decide) only [s₁, str, setX, Function.update_of_ne, Function.update_self, h1]
  have hsaved : Saved s₁.mem (s.x 0) s := by
    refine (saveRegisters_saved s).of_readWord fun o ho => ?_
    rw [hmem]
    refine readWord_writeWord_add_of_le _ _ _ ?_
    simp only [Record.saveSize] at ho
    constructor <;> bv_omega
  have heq : msContextSwitch n s = restoreTarget s₁ := by
    simp only [msContextSwitch, h0, h1, ↓reduceIte, selfSwitch, s₁]
  rcases restoreTarget_eq s₁ with ⟨hal, -⟩ | ⟨-, s', hr, hs', hreg⟩
  · rw [hx1, hsaved.sp] at hal
    exact absurd hsp hal
  · rw [hx1] at hreg
    exact ⟨s', heq.trans hr, Saved.sameCalleeSaved (hs' ▸ hsaved) hreg, hs'.trans hmem⟩

end MojitoSys.Ctx.AArch64
