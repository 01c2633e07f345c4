import MojitoSys.Util.ByteMemory

/-!
# The context record

A context is a caller-owned record of 200 bytes: the 168 bytes of the frozen save area (twelve
general registers, eight floating-point halves and the stack pointer) and a lifecycle tail of four
words (state, return target, finish hook and its argument). The assembly addresses the slots by
immediate offsets, and `ms_context.c` pins the same offsets by static assertions. The lifecycle
states are the enumeration `ms_ctx_state` of `ms_context.c`, mirrored by the `MS_STATE_*`
constants of both assembly files.

## Main definitions

* `Record.stateOff`, `Record.retToOff`, … : the offsets of the slots.
* `CtxState`, `CtxState.toWord`: the lifecycle states and their encoding.
* `RecordsApart`: two records have no byte in common.
* `Undisturbed`: runs that write a record only in the lifecycle words that `ms_context_switch`
  writes.

## Main results

* `Undisturbed.readWord_save`: the save area survives an undisturbed run.
-/

namespace MojitoSys.Ctx

open Util

/-- A 64-bit machine word. -/
abbrev Word := BitVec 64

namespace Record

/-- `sizeof(struct ms_context)`. -/
def size : ℕ := 200

/-- Length of the frozen save area, up to the lifecycle tail. -/
def saveSize : ℕ := 168

/-- `MS_CTX_FPS_OFF`. -/
abbrev fpsOff : Word := 96
/-- `MS_CTX_SP_OFF`. -/
abbrev spOff : Word := 160
/-- `MS_CTX_STATE_OFF`. -/
abbrev stateOff : Word := 168
/-- `MS_CTX_RETTO_OFF`. -/
abbrev retToOff : Word := 176
/-- `MS_CTX_FINCB_OFF`. -/
abbrev finCbOff : Word := 184
/-- `MS_CTX_FINUD_OFF`. -/
abbrev finUdOff : Word := 192

end Record

/-- The lifecycle states `enum ms_ctx_state`. -/
inductive CtxState
  /-- Zeroed storage: destroyed or never armed. -/
  | dead
  /-- Armed by `ms_context_init`, never resumed. -/
  | empty
  /-- Currently executing on some OS thread. -/
  | running
  /-- Suspended mid-life, resumable. -/
  | suspended
  /-- The entry returned. -/
  | finished
  deriving DecidableEq, Repr

/-- The encoding of a state in the state slot. -/
def CtxState.toWord : CtxState → Word
  | .dead => 0
  | .empty => 1
  | .running => 2
  | .suspended => 3
  | .finished => 4

theorem CtxState.toWord_injective : Function.Injective CtxState.toWord := by
  intro a b h
  cases a <;> cases b <;> first | rfl | exact absurd h (by decide)

/-- Two records have no byte in common. -/
abbrev RecordsApart (p q : Word) : Prop := AreasApart Record.size p q

/-! ### Runs that leave a record to the backend -/

/-- A run from memory `m` to memory `m'` that writes the record at `p` only in the lifecycle words
that `ms_context_switch` writes. -/
inductive Undisturbed (p : Word) (m : ByteMemory) : ByteMemory → Prop
  | refl : Undisturbed p m m
  /-- Any code that does not write the record. -/
  | code {m₁ m₂ : ByteMemory} (h : Undisturbed p m m₁) (h' : AgreeOn Record.size p m₁ m₂) :
      Undisturbed p m m₂
  /-- A write of the state word. -/
  | state {m₁ : ByteMemory} (h : Undisturbed p m m₁) (v : Word) :
      Undisturbed p m (writeWord m₁ (p + Record.stateOff) v)
  /-- A write of the return target. -/
  | retTo {m₁ : ByteMemory} (h : Undisturbed p m m₁) (v : Word) :
      Undisturbed p m (writeWord m₁ (p + Record.retToOff) v)

/-- The save area and the hook words survive an undisturbed run. -/
theorem Undisturbed.readWord_eq {p : Word} {m m' : ByteMemory} (h : Undisturbed p m m') {o : Word}
    (ho : o.toNat + 8 ≤ Record.size) (hs : Apart o Record.stateOff) (hr : Apart o Record.retToOff) :
    readWord m' (p + o) = readWord m (p + o) := by
  induction h with
  | refl => rfl
  | code _ h' ih => rw [h'.readWord ho, ih]
  | state _ v ih => rw [readWord_writeWord_add_of_le _ _ _ hs, ih]
  | retTo _ v ih => rw [readWord_writeWord_add_of_le _ _ _ hr, ih]

/-- The save area survives an undisturbed run. -/
theorem Undisturbed.readWord_save {p : Word} {m m' : ByteMemory} (h : Undisturbed p m m') {o : Word}
    (ho : o.toNat + 8 ≤ Record.saveSize) : readWord m' (p + o) = readWord m (p + o) := by
  simp only [Record.saveSize] at ho
  refine h.readWord_eq ?_ ?_ ?_
  · simp only [Record.size]
    omega
  · constructor <;> bv_omega
  · constructor <;> bv_omega

end MojitoSys.Ctx
