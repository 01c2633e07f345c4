import MojitoSys.Ctx.Record
import MojitoSys.Status
import Mathlib.Data.Fin.Basic
import Mathlib.Tactic.FinCases

/-!
# The AArch64 backend

The instruction bodies of `ms_context_aarch64.S`, one state transformer for each instruction, over
a machine with the general registers, the low halves of the vector registers, the stack pointer
and a byte memory. A label of the source is a definition, a branch to it a call of that
definition. `brk` ends the run with its immediate, `ret` and `blr` end it with the machine that
the branch target receives.

The exclusive store may fail spuriously: `msContextSwitch n` is a run in which `stlxr` fails `n`
times before it succeeds.

## Main definitions

* `Machine`, `Outcome`, and the instructions `stp`, `ldp`, `str`, `ldr`, …
* `saveRegisters`, `validateTarget`, `demoteFrom`, `armLoop`, `restoreTarget`, `selfSwitch`,
  `msContextSwitch`.
* `mjsCtxMakeRaw`, `msContextInit`.
* `trampolineEnter`, `trampolineComplete`, `trampolineFinish`: the three straight-line parts of
  `mjs_ctx_trampoline`, between its indirect calls.
-/

namespace MojitoSys.Ctx.AArch64

open Util

/-- The part of the machine state that the backend reads and writes. -/
structure Machine where
  /-- The general registers `x0`–`x30`. -/
  x : Fin 31 → Word
  /-- The low halves `d0`–`d31` of the vector registers. -/
  d : Fin 32 → Word
  /-- The stack pointer. -/
  sp : Word
  /-- Memory. -/
  mem : ByteMemory

/-- The end of a run: a `brk` with its immediate, or a return through `x30`. -/
inductive Outcome
  | trap (code : ℕ)
  | ret (s : Machine)

/-- The run returned. -/
def Outcome.isRet : Outcome → Bool
  | .trap _ => false
  | .ret _ => true

theorem Outcome.exists_of_isRet {o : Outcome} (h : o.isRet = true) : ∃ s, o = .ret s := by
  cases o with
  | trap code => cases h
  | ret s => exact ⟨s, rfl⟩

/-! ### Instructions -/

/-- `stp xi, xj, [xb, #o]`. -/
def stp (i j b : Fin 31) (o : Word) (s : Machine) : Machine :=
  { s with mem := writeWord (writeWord s.mem (s.x b + o) (s.x i)) (s.x b + (o + 8)) (s.x j) }

/-- `stp di, dj, [xb, #o]`. -/
def stpD (i j : Fin 32) (b : Fin 31) (o : Word) (s : Machine) : Machine :=
  { s with mem := writeWord (writeWord s.mem (s.x b + o) (s.d i)) (s.x b + (o + 8)) (s.d j) }

/-- `str xi, [xb, #o]`. -/
def str (i b : Fin 31) (o : Word) (s : Machine) : Machine :=
  { s with mem := writeWord s.mem (s.x b + o) (s.x i) }

/-- `str xzr, [xb, #o]`. -/
def strZero (b : Fin 31) (o : Word) (s : Machine) : Machine :=
  { s with mem := writeWord s.mem (s.x b + o) 0 }

/-- `str xi, [sp]`. -/
def strSp (i : Fin 31) (s : Machine) : Machine :=
  { s with mem := writeWord s.mem s.sp (s.x i) }

/-- Write the general register `xi`: `mov`, `add`, `sub`, `adr` and the load instructions. -/
def setX (i : Fin 31) (v : Word) (s : Machine) : Machine :=
  { s with x := Function.update s.x i v }

/-- Write the low half `di`. -/
def setD (i : Fin 32) (v : Word) (s : Machine) : Machine :=
  { s with d := Function.update s.d i v }

/-- `ldr xi, [xb, #o]`. -/
def ldr (i b : Fin 31) (o : Word) (s : Machine) : Machine :=
  setX i (readWord s.mem (s.x b + o)) s

/-- `ldr xi, [sp]`. -/
def ldrSp (i : Fin 31) (s : Machine) : Machine :=
  setX i (readWord s.mem s.sp) s

/-- `ldp xi, xj, [xb, #o]`, for `xb` not loaded. -/
def ldp (i j b : Fin 31) (o : Word) (s : Machine) : Machine :=
  s |> setX i (readWord s.mem (s.x b + o)) |> setX j (readWord s.mem (s.x b + (o + 8)))

/-- `ldp di, dj, [xb, #o]`. -/
def ldpD (i j : Fin 32) (b : Fin 31) (o : Word) (s : Machine) : Machine :=
  s |> setD i (readWord s.mem (s.x b + o)) |> setD j (readWord s.mem (s.x b + (o + 8)))

/-- `mov sp, xi`. -/
def movSp (i : Fin 31) (s : Machine) : Machine := { s with sp := s.x i }

/-! ### `ms_context_switch` -/

/-- The register save at the head of `ms_context_switch`, `x0` the record `from`. -/
def saveRegisters (s : Machine) : Machine :=
  s |> stp 19 20 0 0
    |> stp 21 22 0 16
    |> stp 23 24 0 32
    |> stp 25 26 0 48
    |> stp 27 28 0 64
    |> stp 29 30 0 80
    |> stpD 8 9 0 Record.fpsOff
    |> stpD 10 11 0 (Record.fpsOff + 16)
    |> stpD 12 13 0 (Record.fpsOff + 32)
    |> stpD 14 15 0 (Record.fpsOff + 48)
    |> (fun s => setX 15 s.sp s)
    |> str 15 0 Record.spOff

/-- The loads of the restore sequence up to the test of the stack slot, `x1` the record `to`. -/
def loadRegisters (s : Machine) : Machine :=
  s |> ldpD 14 15 1 (Record.fpsOff + 48)
    |> ldpD 12 13 1 (Record.fpsOff + 32)
    |> ldpD 10 11 1 (Record.fpsOff + 16)
    |> ldpD 8 9 1 Record.fpsOff
    |> ldp 27 28 1 64
    |> ldp 25 26 1 48
    |> ldp 23 24 1 32
    |> ldp 21 22 1 16
    |> ldp 19 20 1 0
    |> ldr 16 1 Record.spOff

/-- The restore sequence, `x1` the record `to`. The source has it twice, once after the arm and
once, under the label `9`, for the self-switch; both copies are this sequence and share the
alignment trap. -/
def restoreTarget (s : Machine) : Outcome :=
  let s := loadRegisters s
  if s.x 16 &&& 15 ≠ 0 then .trap 0x6b
  else .ret (s |> movSp 16 |> ldp 29 30 1 80)

/-- The checks after label `4` on the target's state word: the trap of an unusable target. -/
def validateTarget (state : Word) : Option ℕ :=
  if state = CtxState.dead.toWord then some 0x68
  else if state = CtxState.running.toWord then some 0x69
  else if state = CtxState.finished.toWord then some 0x66
  else none

/-- The demotion of `from` between the exclusive load and store: `RUNNING` becomes `SUSPENDED`,
every other state stays. -/
def demoteFrom (s : Machine) : Machine :=
  let s := ldr 16 0 Record.stateOff s
  if s.x 16 = CtxState.running.toWord then
    s |> setX 16 CtxState.suspended.toWord |> str 16 0 Record.stateOff
  else s

/-- The instructions between the checks and the exclusive store. -/
def prepareArm (s : Machine) : Machine :=
  s |> demoteFrom |> setX 17 CtxState.running.toWord

/-- `stlxr w16, x17, [x15]`, which stores and clears `w16`, or fails and sets it. -/
def stlxr (ok : Bool) (s : Machine) : Machine :=
  if ok then setX 16 0 { s with mem := writeWord s.mem (s.x 15) (s.x 17) }
  else setX 16 1 s

/-- After a successful arm: record the return target, check the stack slot, restore. -/
def resumeTarget (s : Machine) : Outcome :=
  let s := s |> str 0 1 Record.retToOff |> ldr 15 1 Record.spOff
  if s.x 15 = 0 then .trap 0x68 else restoreTarget s

/-- The loop at label `4`, in a run where the exclusive store fails `n` times. -/
def armLoop : ℕ → Machine → Outcome
  | n, s =>
    let s := ldr 16 15 0 s  -- `ldaxr x16, [x15]`
    match validateTarget (s.x 16) with
    | some code => .trap code
    | none =>
      match n with
      | 0 => resumeTarget (stlxr true (prepareArm s))
      | n + 1 => armLoop n (stlxr false (prepareArm s))

/-- Label `5`: the self-switch of `ms_context_capture`. -/
def selfSwitch (s : Machine) : Outcome :=
  s |> setX 16 CtxState.suspended.toWord |> str 16 1 Record.stateOff |> restoreTarget

/-- `ms_context_switch(from = x0, to = x1)`, the exclusive store failing `n` times. -/
def msContextSwitch (n : ℕ) (s : Machine) : Outcome :=
  let s := saveRegisters s
  if s.x 0 = s.x 1 then selfSwitch s
  else armLoop n (setX 15 (s.x 1 + Record.stateOff) s)

/-! ### `mjs__ctx_make_raw` and `ms_context_init` -/

/-- `mjs__ctx_make_raw(ctx = x0, stack_top = x1, entry = x2, userdata = x3)`, the trampoline
placed at `trampoline`. -/
def mjsCtxMakeRaw (trampoline : Word) (s : Machine) : Outcome :=
  if s.x 1 &&& 15 ≠ 0 then .trap 0x64
  else .ret <| s
    |> (fun s => setX 15 (s.x 1 - 16) s)
    |> str 0 15 0
    |> str 15 0 Record.spOff
    |> stp 2 3 0 0
    |> setX 15 0
    |> stp 15 15 0 16
    |> stp 15 15 0 32
    |> stp 15 15 0 48
    |> stp 15 15 0 64
    |> str 15 0 80
    |> stp 15 15 0 Record.fpsOff
    |> stp 15 15 0 (Record.fpsOff + 16)
    |> stp 15 15 0 (Record.fpsOff + 32)
    |> stp 15 15 0 (Record.fpsOff + 48)
    |> strZero 0 Record.retToOff
    |> strZero 0 Record.finCbOff
    |> strZero 0 Record.finUdOff
    |> setX 15 CtxState.empty.toWord
    |> str 15 0 Record.stateOff
    |> setX 16 trampoline
    |> str 16 0 88

/-- The argument checks of `ms_context_init`. -/
def initArgsOk (ctx stackLow stackSize entry : Word) : Bool :=
  !(ctx = 0 || stackLow = 0 || entry = 0) &&
    !(stackSize = 0 || stackSize &&& 15 ≠ 0 || stackLow &&& 15 ≠ 0 ||
      0xFFFFFFFFFFFFFFFF - stackSize < stackLow)  -- `UINTPTR_MAX - stack_size`

/-- `ms_context_init`: the return code, and the outcome of `mjs__ctx_make_raw` when the arguments
pass. -/
def msContextInit (trampoline ctx stackLow stackSize entry userdata : Word) (s : Machine) :
    ℤ × Outcome :=
  if initArgsOk ctx stackLow stackSize entry then
    (0, s |> setX 0 ctx |> setX 1 (stackLow + stackSize) |> setX 2 entry |> setX 3 userdata
      |> mjsCtxMakeRaw trampoline)
  else (-EINVAL, .ret s)

/-! ### The exit trampoline -/

/-- `mjs_ctx_trampoline` up to `blr x19`: the machine that the entry receives, with the address
that is called. -/
def trampolineEnter (s : Machine) : Word × Machine :=
  let s := s |> ldrSp 15
    |> (fun s => { s with sp := s.sp - 16 })
    |> strSp 15
    |> (fun s => setX 0 (s.x 20) s)
  (s.x 19, s)

/-- The completion stage after the entry returned, up to `blr x16`: the finish hook that is
called, if any, with the machine it receives. -/
def trampolineComplete (s : Machine) : Option Word × Machine :=
  let s := s |> ldrSp 19
    |> (fun s => { s with sp := s.sp + 16 })
    |> ldr 16 19 Record.finCbOff
  if s.x 16 = 0 then (none, s) else (some (s.x 16), ldr 0 19 Record.finUdOff s)

/-- Label `1` of the trampoline up to the tail call of `ms_context_switch`, the fall-through guard
placed at `guard`. -/
def trampolineFinish (guard : Word) (s : Machine) : Machine :=
  s |> setX 16 CtxState.finished.toWord
    |> str 16 19 Record.stateOff
    |> (fun s => setX 0 (s.x 19) s)
    |> ldr 1 19 Record.retToOff
    |> setX 17 guard
    |> (fun s => setX 30 (s.x 17) s)

end MojitoSys.Ctx.AArch64
