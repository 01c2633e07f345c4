import MojitoSys.Ctx.Record

/-!
# The x86-64 System V backend

The instruction bodies of `ms_context_x86_64.S`, one state transformer for each instruction, over
a machine with the general registers, the low halves of the vector registers and a byte memory. A
local label is a definition, a jump to it a call of that definition. `int3` ends a run with the
marker in `%eax`, `ret` with the popped address and the machine that the target receives.

The compare-exchange loses a pass when another thread changes the target's state after it was
loaded: `msContextSwitch lost` is a run that loses one pass for each memory of `lost`, which is
what the other threads leave when the pass is lost.

## Main definitions

* `Gpr`, `Machine`, `Outcome`, and the instructions `movToMem`, `movFromMem`, …
* `saveRegisters`, `validateTarget`, `demoteFrom`, `recheck`, `restore`, `selfSwitch`,
  `msContextSwitch`, `msContextCapture`.
* `mjsCtxMakeRaw`.
-/

namespace MojitoSys.Ctx.X86

open Util

/-- The general registers. -/
inductive Gpr
  | rax | rbx | rcx | rdx | rsi | rdi | rbp | rsp | r8 | r9 | r10 | r11 | r12 | r13 | r14 | r15
  deriving DecidableEq, Repr

/-- The part of the machine state that the backend reads and writes. -/
structure Machine where
  /-- The general registers. -/
  gpr : Gpr → Word
  /-- The low halves of `xmm0`–`xmm15`. -/
  xmm : Fin 16 → Word
  /-- Memory. -/
  mem : ByteMemory

/-- The end of a run: an `int3` with its marker, or a `ret` to an address. -/
inductive Outcome
  | trap (code : ℕ)
  | ret (rip : Word) (s : Machine)

/-- The marker of a trap. -/
def Outcome.trapCode : Outcome → Option ℕ
  | .trap code => some code
  | .ret _ _ => none

/-- The memory that an outcome leaves, empty after a trap. -/
def Outcome.mem : Outcome → ByteMemory
  | .trap _ => fun _ => 0
  | .ret _ s => s.mem

theorem Outcome.exists_ret {o : Outcome} (h : o.trapCode = none) : ∃ rip s, o = .ret rip s := by
  cases o with
  | trap code => cases h
  | ret rip s => exact ⟨rip, s, rfl⟩

theorem Outcome.eq_trap {o : Outcome} {code : ℕ} (h : o.trapCode = some code) : o = .trap code := by
  cases o with
  | trap code' => exact congrArg _ (Option.some.inj h)
  | ret rip s => cases h

/-! ### Instructions -/

/-- Write a general register. -/
def setGpr (r : Gpr) (v : Word) (s : Machine) : Machine :=
  { s with gpr := Function.update s.gpr r v }

/-- `movq %r, o(%b)`. -/
def movToMem (r : Gpr) (o : Word) (b : Gpr) (s : Machine) : Machine :=
  { s with mem := writeWord s.mem (s.gpr b + o) (s.gpr r) }

/-- `movq $v, o(%b)`. -/
def movImmToMem (v : Word) (o : Word) (b : Gpr) (s : Machine) : Machine :=
  { s with mem := writeWord s.mem (s.gpr b + o) v }

/-- `movq %xmmi, o(%b)`. -/
def movXmmToMem (i : Fin 16) (o : Word) (b : Gpr) (s : Machine) : Machine :=
  { s with mem := writeWord s.mem (s.gpr b + o) (s.xmm i) }

/-- `movq o(%b), %r`. -/
def movFromMem (o : Word) (b r : Gpr) (s : Machine) : Machine :=
  setGpr r (readWord s.mem (s.gpr b + o)) s

/-- `movq o(%b), %xmmi`. -/
def movXmmFromMem (o : Word) (b : Gpr) (i : Fin 16) (s : Machine) : Machine :=
  { s with xmm := Function.update s.xmm i (readWord s.mem (s.gpr b + o)) }

/-- `ret`. -/
def ret (s : Machine) : Outcome :=
  .ret (readWord s.mem (s.gpr .rsp)) (setGpr .rsp (s.gpr .rsp + 8) s)

/-! ### `ms_context_switch` -/

/-- The register save at the head of `ms_context_switch`, `%rdi` the record `from`. -/
def saveRegisters (s : Machine) : Machine :=
  s |> movToMem .rbx 0 .rdi
    |> movToMem .rbp 8 .rdi
    |> movToMem .r12 16 .rdi
    |> movToMem .r13 24 .rdi
    |> movToMem .r14 32 .rdi
    |> movToMem .r15 40 .rdi
    |> movXmmToMem 6 Record.fpsOff .rdi
    |> movXmmToMem 7 (Record.fpsOff + 8) .rdi
    |> movXmmToMem 8 (Record.fpsOff + 16) .rdi
    |> movXmmToMem 9 (Record.fpsOff + 24) .rdi
    |> movXmmToMem 10 (Record.fpsOff + 32) .rdi
    |> movXmmToMem 11 (Record.fpsOff + 40) .rdi
    |> movXmmToMem 12 (Record.fpsOff + 48) .rdi
    |> movXmmToMem 13 (Record.fpsOff + 56) .rdi
    |> movToMem .rsp Record.spOff .rdi

/-- The loads at `.Lrestore` up to the test of the stack slot, `%rsi` the record `to`. The slots of
`xmm12` and `xmm13` are not loaded. -/
def loadRegisters (s : Machine) : Machine :=
  s |> movFromMem 0 .rsi .rbx
    |> movFromMem 8 .rsi .rbp
    |> movFromMem 16 .rsi .r12
    |> movFromMem 24 .rsi .r13
    |> movFromMem 32 .rsi .r14
    |> movFromMem 40 .rsi .r15
    |> movXmmFromMem Record.fpsOff .rsi 6
    |> movXmmFromMem (Record.fpsOff + 8) .rsi 7
    |> movXmmFromMem (Record.fpsOff + 16) .rsi 8
    |> movXmmFromMem (Record.fpsOff + 24) .rsi 9
    |> movXmmFromMem (Record.fpsOff + 32) .rsi 10
    |> movXmmFromMem (Record.fpsOff + 40) .rsi 11
    |> movFromMem Record.spOff .rsi .rax

/-- `.Lrestore`. -/
def restore (s : Machine) : Outcome :=
  let s := loadRegisters s
  if s.gpr .rax &&& 15 ≠ 0 then .trap 0x6b
  else ret (setGpr .rsp (s.gpr .rax) s)

/-- The checks at `.Lrecheck` on the target's state word: the trap of an unusable target. -/
def validateTarget (state : Word) : Option ℕ :=
  if state = CtxState.dead.toWord then some 0x68
  else if state = CtxState.running.toWord then some 0x69
  else if state = CtxState.finished.toWord then some 0x66
  else none

/-- The demotion of `from` before the compare-exchange. -/
def demoteFrom (s : Machine) : Machine :=
  if readWord s.mem (s.gpr .rdi + Record.stateOff) = CtxState.running.toWord then
    movImmToMem CtxState.suspended.toWord Record.stateOff .rdi s
  else s

/-- The instructions between the checks and the compare-exchange. -/
def prepareArm (s : Machine) : Machine :=
  s |> demoteFrom |> setGpr .rdx CtxState.running.toWord

/-- A lost compare-exchange: other threads have left the memory `m`, and `%rax` receives the
target's state. -/
def loseExchange (m : ByteMemory) (s : Machine) : Machine :=
  movFromMem Record.stateOff .rsi .rax { s with mem := m }

/-- After a successful arm: record the return target, check the stack slot, restore. -/
def resumeTarget (s : Machine) : Outcome :=
  let s := movToMem .rdi Record.retToOff .rsi s
  if readWord s.mem (s.gpr .rsi + Record.spOff) = 0 then .trap 0x68 else restore s

/-- `.Lrecheck`, in a run that loses one pass for each memory of `lost`. The exchange that is not
lost finds the value in `%rax` and stores `%rdx`. -/
def recheck : List ByteMemory → Machine → Outcome
  | lost, s =>
    let s := movFromMem Record.stateOff .rsi .rax s
    match validateTarget (s.gpr .rax) with
    | some code => .trap code
    | none =>
      match lost with
      | [] => resumeTarget (movToMem .rdx Record.stateOff .rsi (prepareArm s))
      | m :: lost => recheck lost (loseExchange m (prepareArm s))

/-- `.Lselfswitch`. -/
def selfSwitch (s : Machine) : Outcome :=
  s |> movImmToMem CtxState.suspended.toWord Record.stateOff .rsi |> restore

/-- `ms_context_switch(from = %rdi, to = %rsi)`. -/
def msContextSwitch (lost : List ByteMemory) (s : Machine) : Outcome :=
  let s := saveRegisters s
  if s.gpr .rdi = s.gpr .rsi then selfSwitch s else recheck lost s

/-- `ms_context_capture(ctx)` from the call of `ms_context_switch(ctx, ctx)`. -/
def msContextCapture (ctx : Word) (s : Machine) : Outcome :=
  s |> setGpr .rdi ctx |> setGpr .rsi ctx |> msContextSwitch []

/-! ### `mjs__ctx_make_raw` -/

/-- `mjs__ctx_make_raw(ctx = %rdi, stack_top = %rsi, entry = %rdx, userdata = %rcx)`, the trampoline
placed at `trampoline`. -/
def mjsCtxMakeRaw (trampoline : Word) (s : Machine) : Outcome :=
  if s.gpr .rsi &&& 15 ≠ 0 then .trap 0x64
  else s
    |> (fun s => setGpr .r8 (s.gpr .rsi - 16) s)
    |> setGpr .rax trampoline
    |> movToMem .rax 0 .r8
    |> movToMem .rdi 8 .r8
    |> movToMem .r8 Record.spOff .rdi
    |> movToMem .rdx 0 .rdi
    |> movToMem .rcx 16 .rdi
    |> movImmToMem 0 8 .rdi
    |> movImmToMem 0 24 .rdi
    |> movImmToMem 0 32 .rdi
    |> movImmToMem 0 40 .rdi
    |> (fun s => { s with xmm := Function.update s.xmm 0 0 })
    |> movXmmToMem 0 Record.fpsOff .rdi
    |> movXmmToMem 0 (Record.fpsOff + 8) .rdi
    |> movXmmToMem 0 (Record.fpsOff + 16) .rdi
    |> movXmmToMem 0 (Record.fpsOff + 24) .rdi
    |> movXmmToMem 0 (Record.fpsOff + 32) .rdi
    |> movXmmToMem 0 (Record.fpsOff + 40) .rdi
    |> movXmmToMem 0 (Record.fpsOff + 48) .rdi
    |> movXmmToMem 0 (Record.fpsOff + 56) .rdi
    |> movImmToMem 0 Record.retToOff .rdi
    |> movImmToMem 0 Record.finCbOff .rdi
    |> movImmToMem 0 Record.finUdOff .rdi
    |> movImmToMem CtxState.empty.toWord Record.stateOff .rdi
    |> ret

end MojitoSys.Ctx.X86
