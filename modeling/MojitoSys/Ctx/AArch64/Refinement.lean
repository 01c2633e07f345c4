import MojitoSys.Ctx.AArch64.RoundTrip
import MojitoSys.Ctx.Lifecycle

/-!
# The AArch64 backend implements the lifecycle

The lifecycle of the contexts of one thread (`MojitoSys.Ctx.Lifecycle`) is stated on records. Here
the records lie in memory, at addresses that keep them apart, and every operation of the backend
does to the lifecycle tails in memory what the lifecycle says: `ms_context_init`,
`ms_context_set_finish_hook`, `ms_context_destroy`, the self-switch, the switch between two records,
however often the exclusive store fails, and the completion stage of the exit trampoline with its
tail call.

## Main definitions

* `Layout`: the addresses of the records.
* `Represents`: the memory holds the lifecycle tails of the records.
* `msContextSetFinishHook`, `msContextDestroy`: the two functions of `ms_context.c` that write
  memory only.

## Main results

* `switch_refines`, `capture_refines`: a switch of the machine is a switch of the lifecycle.
* `init_refines`, `setFinishHook_refines`, `destroy_refines`.
* `complete_refines`: the completion stage calls the hook of the record.
* `leave_refines`: the tail call of the trampoline is the completion switch.
-/

namespace MojitoSys.Ctx.AArch64

open Util

/-- `ms_context_set_finish_hook`. -/
def msContextSetFinishHook (ctx hook userdata : Word) (m : ByteMemory) : ByteMemory :=
  if ctx = 0 then m
  else writeWord (writeWord m (ctx + Record.finCbOff) hook) (ctx + Record.finUdOff) userdata

/-- `ms_context_destroy`. -/
def msContextDestroy (ctx : Word) (m : ByteMemory) : ByteMemory :=
  if ctx = 0 then m else fun a => if (a - ctx).toNat < Record.size then 0 else m a

/-- The addresses of the records: no record is at `NULL`, and no two have a byte in common. -/
structure Layout (C : Type*) where
  addr : C → Word
  ne_zero : ∀ c, addr c ≠ 0
  apart : ∀ {c d}, c ≠ d → RecordsApart (addr c) (addr d)

/-- The word of a return target. -/
def Layout.ptr {C : Type*} (L : Layout C) : Option C → Word
  | none => 0
  | some c => L.addr c

/-- The lifecycle tail at `p` is that of the record. -/
structure TailOf {C : Type*} (L : Layout C) (r : LifeRecord C) (m : ByteMemory) (p : Word) :
    Prop where
  state : readWord m (p + Record.stateOff) = r.state.toWord
  retTo : readWord m (p + Record.retToOff) = L.ptr r.retTo
  finishCb : readWord m (p + Record.finCbOff) = r.finishCb
  finishUd : readWord m (p + Record.finUdOff) = r.finishUd

/-- The memory holds the lifecycle tails of the records. -/
def Represents {C : Type*} (L : Layout C) (w : World C) (m : ByteMemory) : Prop :=
  ∀ c, TailOf L (w.record c) m (L.addr c)

variable {C : Type*} {L : Layout C} {w w' : World C} {m m' : ByteMemory} {s : Machine}

theorem TailOf.of_agreeOn {r : LifeRecord C} {p : Word} (h : TailOf L r m p)
    (hm : AgreeOn Record.size p m m') : TailOf L r m' p where
  state := (hm.readWord (by decide)).trans h.state
  retTo := (hm.readWord (by decide)).trans h.retTo
  finishCb := (hm.readWord (by decide)).trans h.finishCb
  finishUd := (hm.readWord (by decide)).trans h.finishUd

/-- The register save touches no lifecycle tail. -/
theorem Represents.save {c : C} (h : Represents L w s.mem) (h0 : s.x 0 = L.addr c) :
    Represents L w (saveRegisters s).mem := by
  intro d
  by_cases hd : d = c
  · subst hd
    have htail (o : Word) (ho : 168 ≤ o.toNat) (ho' : o.toNat + 8 ≤ Record.size) :
        readWord (saveRegisters s).mem (L.addr d + o) = readWord s.mem (L.addr d + o) :=
      h0 ▸ readWord_saveRegisters_tail s ho ho'
    obtain ⟨hst, hret, hcb, hud⟩ := h d
    exact ⟨(htail _ (by decide) (by decide)).trans hst,
      (htail _ (by decide) (by decide)).trans hret,
      (htail _ (by decide) (by decide)).trans hcb, (htail _ (by decide) (by decide)).trans hud⟩
  · exact (h d).of_agreeOn (agreeOn_saveRegisters s (h0 ▸ L.apart hd))

/-- A change of the records is represented when the changed records are and the memory of the others
is kept. -/
theorem Represents.of_agreeOn {w₁ : World C} {m₁ : ByteMemory} (h : Represents L w₁ m₁)
    (hc : ∀ c, TailOf L (w'.record c) m' (L.addr c) ∨
      w'.record c = w₁.record c ∧ AgreeOn Record.size (L.addr c) m₁ m') : Represents L w' m' := by
  intro c
  rcases hc c with hnew | ⟨hrec, hm⟩
  · exact hnew
  · rw [hrec]
    exact (h c).of_agreeOn hm

/-! ### The switch -/

/-- The checks of the backend are those of the lifecycle. -/
theorem validateTarget_toWord (st : CtxState) :
    validateTarget st.toWord = (World.targetFault st).bind fun
      | .trap code => some code
      | .nullTarget => none := by
  cases st <;> rfl

/-- The lifecycle writes into the target. -/
theorem TailOf.armed {f : C} {t : Word} {r : LifeRecord C} (h : TailOf L r m t)
    (hap : RecordsApart t (L.addr f)) :
    TailOf L (World.armed r f) (switchMem m (L.addr f) t) t where
  state := by
    rw [switchMem, readWord_writeWord_add_of_le _ _ _ (by decide), readWord_writeWord_self]
    rfl
  retTo := by
    rw [switchMem, readWord_writeWord_self]
    rfl
  finishCb := (readWord_switchMem_target m hap (by decide) (by decide) (by decide)).trans h.finishCb
  finishUd := (readWord_switchMem_target m hap (by decide) (by decide) (by decide)).trans h.finishUd

theorem toWord_eq_running {st : CtxState} : st.toWord = CtxState.running.toWord ↔ st = .running :=
  CtxState.toWord_injective.eq_iff

/-- The demotion in the record that is switched out. -/
theorem TailOf.switchedOut {f : Word} {r : LifeRecord C} (h : TailOf L r m f) (live : Phase) :
    TailOf L (World.switchedOut r live) (demoteMem m f) f where
  state := by
    unfold demoteMem World.switchedOut
    rw [h.state]
    by_cases hr : r.state = .running
    · rw [if_pos (toWord_eq_running.mpr hr), readWord_writeWord_self]
      simp [hr]
    · rw [if_neg (mt toWord_eq_running.mp hr), h.state]
      simp [hr]
  retTo := (readWord_demoteMem_self m f (by decide)).trans h.retTo
  finishCb := (readWord_demoteMem_self m f (by decide)).trans h.finishCb
  finishUd := (readWord_demoteMem_self m f (by decide)).trans h.finishUd

/-- The stack slot of a record holds an aligned stack. -/
def StackOk (m : ByteMemory) (p : Word) : Prop :=
  readWord m (p + Record.spOff) ≠ 0 ∧ readWord m (p + Record.spOff) &&& 15 = 0

section Switch

variable [DecidableEq C] {c t : C} {n : ℕ}

/-- The lifecycle writes of a switch are those of the lifecycle. -/
theorem Represents.switch (h : Represents L w m) (ht : t ≠ w.cur) (hw : w.switch t = .ok w') :
    Represents L w' (switchMem m (L.addr w.cur) (L.addr t)) := by
  obtain ⟨-, -, -, hrt, hrc, hrest⟩ := World.switch_ok ht hw
  refine h.of_agreeOn fun c => ?_
  by_cases hct : c = t
  · subst hct
    rw [hrt]
    exact Or.inl ((h c).armed (L.apart ht))
  · by_cases hcc : c = w.cur
    · subst hcc
      rw [hrc]
      -- the two writes into the target do not touch the record that is switched out
      have hap := L.apart hct
      exact Or.inl (((h _).switchedOut w.live).of_agreeOn
        ((agreeOn_writeWord _ hap (by decide) le_rfl).trans
          (agreeOn_writeWord _ hap (by decide) le_rfl)))
    · exact Or.inr ⟨hrest c hct hcc, agreeOn_switchMem m (L.apart hcc) (L.apart hct)⟩

/-- **A switch of the machine is a switch of the lifecycle.** It traps with the code of the
lifecycle, or resumes a target with a stack and leaves the records of the lifecycle, however often
the exclusive store fails. -/
theorem switch_refines (h : Represents L w s.mem) (h0 : s.x 0 = L.addr w.cur)
    (h1 : s.x 1 = L.addr t) (ht : t ≠ w.cur) :
    (∀ code, w.switch t = .error (.trap code) → msContextSwitch n s = .trap code) ∧
      ∀ w', w.switch t = .ok w' → StackOk s.mem (L.addr t) →
        ∃ s', msContextSwitch n s = .ret s' ∧ Represents L w' s'.mem ∧ Restored (L.addr t) s' := by
  have hap : RecordsApart (L.addr t) (L.addr w.cur) := L.apart ht
  have hsave := h.save h0
  have hres := msContextSwitch_result n s (h0 ▸ h1 ▸ hap)
  rw [h0, h1] at hres
  have hv := validateTarget_toWord (w.record t).state
  rw [← (hsave t).state] at hv
  refine ⟨fun code hw => ?_, fun w' hw hstack => ?_⟩
  · have hf : World.targetFault (w.record t).state = some (.trap code) := by
      rw [World.switch_of_ne ht] at hw
      cases hf : World.targetFault (w.record t).state with
      | none => simp [hf] at hw
      | some fault => simpa [hf] using hw
    rw [hf] at hv
    generalize msContextSwitch n s = o at hres
    cases hres with
    | state hc => exact congrArg Outcome.trap (Option.some.inj (hc.symm.trans hv))
    | noStack hc | misaligned hc | resumed hc => cases hc.symm.trans hv
  · have hf := World.targetFault_eq_none.mpr (World.switch_ok ht hw).1
    rw [hf] at hv
    have hsp : readWord (saveRegisters s).mem (L.addr t + Record.spOff) =
        readWord s.mem (L.addr t + Record.spOff) :=
      (agreeOn_saveRegisters s (h0 ▸ hap)).readWord (by decide)
    generalize msContextSwitch n s = o at hres
    cases hres with
    | state hc => cases hc.symm.trans hv
    | noStack _ hno => exact absurd (hsp.symm.trans hno) hstack.1
    | misaligned _ _ hal => exact absurd hstack.2 (hsp ▸ hal)
    | resumed _ _ _ hmem hreg => exact ⟨_, rfl, hmem ▸ hsave.switch ht hw, hreg⟩

/-- The self-switch of a caller with an aligned stack is the capture of the lifecycle. -/
theorem capture_refines (h : Represents L w s.mem) (h0 : s.x 0 = L.addr c) (h1 : s.x 1 = L.addr c)
    (hsp : s.sp &&& 15 = 0) : ∃ s', msContextSwitch n s = .ret s' ∧
      Represents L (w.capture c) s'.mem ∧ SameCalleeSaved s s' := by
  obtain ⟨s', hs', hsame, hmem⟩ := msContextSwitch_self n s (h0.trans h1.symm) hsp
  refine ⟨s', hs', ?_, hsame⟩
  rw [hmem, h0]
  have hsave := h.save h0
  refine hsave.of_agreeOn fun d => ?_
  by_cases hd : d = c
  · subst hd
    left
    obtain ⟨-, hret, hcb, hud⟩ := hsave d
    simp only [World.capture, World.setRecord, Function.update_self]
    exact ⟨readWord_writeWord_self .., (readWord_writeWord_add_of_le _ _ _ (by decide)).trans hret,
      (readWord_writeWord_add_of_le _ _ _ (by decide)).trans hcb,
      (readWord_writeWord_add_of_le _ _ _ (by decide)).trans hud⟩
  · right
    refine ⟨?_, agreeOn_writeWord _ (L.apart hd) (by decide) le_rfl⟩
    simp [World.capture, World.setRecord, hd]

end Switch

/-! ### The operations on one record -/

section Records

variable [DecidableEq C] {c : C}

/-- Only the record of `c` was written. -/
theorem Represents.setRecord {r : LifeRecord C} (h : Represents L w m)
    (hc : TailOf L r m' (L.addr c))
    (hm : ∀ d, d ≠ c → AgreeOn Record.size (L.addr d) m m') :
    Represents L (w.setRecord c r) m' := by
  refine h.of_agreeOn fun d => ?_
  by_cases hd : d = c
  · subst hd
    exact Or.inl (by simpa [World.setRecord] using hc)
  · exact Or.inr ⟨by simp [World.setRecord, hd], hm d hd⟩

theorem setFinishHook_refines (h : Represents L w m) (hook userdata : Word) :
    Represents L (w.setFinishHook c hook userdata)
      (msContextSetFinishHook (L.addr c) hook userdata m) := by
  obtain ⟨hst, hret, -, -⟩ := h c
  unfold msContextSetFinishHook
  rw [if_neg (L.ne_zero c)]
  refine h.setRecord ⟨?_, ?_, ?_, ?_⟩ fun d hd => ?_
  · rw [readWord_writeWord_add_of_le _ _ _ (by decide),
      readWord_writeWord_add_of_le _ _ _ (by decide), hst]
  · rw [readWord_writeWord_add_of_le _ _ _ (by decide),
      readWord_writeWord_add_of_le _ _ _ (by decide), hret]
  · rw [readWord_writeWord_add_of_le _ _ _ (by decide), readWord_writeWord_self]
  · rw [readWord_writeWord_self]
  · exact (agreeOn_writeWord _ (L.apart hd) (by decide) le_rfl).trans
      (agreeOn_writeWord _ (L.apart hd) (by decide) le_rfl)

/-- A word inside zeroed storage is zero. -/
theorem readWord_of_zeroed {p o : Word} (hm : ∀ a : Word, (a - p).toNat < Record.size → m a = 0)
    (ho : o.toNat + 8 ≤ Record.size) : readWord m (p + o) = 0 := by
  have hzero : readWord m (p + o) = readWord (fun _ => 0) (p + o) := by
    refine readWord_congr fun k hk => hm _ ?_
    simp only [Record.size] at ho ⊢
    bv_omega
  rw [hzero]
  simp [readWord]

theorem destroy_refines (h : Represents L w m) :
    Represents L (w.destroy c) (msContextDestroy (L.addr c) m) := by
  unfold msContextDestroy
  rw [if_neg (L.ne_zero c)]
  have hzero (a : Word) (ha : (a - L.addr c).toNat < Record.size) :
      (if (a - L.addr c).toNat < Record.size then 0 else m a) = 0 := if_pos ha
  refine h.setRecord ⟨?_, ?_, ?_, ?_⟩ fun d hd a ha => ?_
  · exact readWord_of_zeroed hzero (by decide)
  · exact readWord_of_zeroed hzero (by decide)
  · exact readWord_of_zeroed hzero (by decide)
  · exact readWord_of_zeroed hzero (by decide)
  · refine if_neg ?_
    obtain ⟨h₁, h₂⟩ := L.apart hd
    simp only [Record.size] at ha h₁ h₂ ⊢
    bv_omega

/-- `mjs__ctx_make_raw` writes the frame of the trampoline and the record. -/
theorem mjsCtxMakeRaw_agreeOn {trampoline p : Word} {s₁ : Machine}
    (h : mjsCtxMakeRaw trampoline s = .ret s₁) (hp : RecordsApart p (s.x 0))
    (hframe : AgreeOn Record.size p s.mem (writeWord s.mem (s.x 1 - 16) (s.x 0))) :
    AgreeOn Record.size p s.mem s₁.mem := by
  unfold mjsCtxMakeRaw at h
  split at h
  · cases h
  · injection h with h
    subst h
    simp (disch := decide) only [stp, str, strZero, setX, Function.update_self,
      Function.update_of_ne, BitVec.ofNat_eq_ofNat]
    -- the 25 writes into the record
    iterate 25 refine AgreeOn.trans ?_ (agreeOn_writeWord _ hp (by decide) le_rfl)
    rwa [BitVec.add_zero]

/-- `mjs__ctx_make_raw` arms the record `EMPTY` and clears the rest of the lifecycle tail. -/
theorem mjsCtxMakeRaw_tail {trampoline : Word} {s₁ : Machine}
    (h : mjsCtxMakeRaw trampoline s = .ret s₁) :
    readWord s₁.mem (s.x 0 + Record.stateOff) = CtxState.empty.toWord ∧
      readWord s₁.mem (s.x 0 + Record.retToOff) = 0 ∧
      readWord s₁.mem (s.x 0 + Record.finCbOff) = 0 ∧
      readWord s₁.mem (s.x 0 + Record.finUdOff) = 0 := by
  unfold mjsCtxMakeRaw at h
  split at h
  · cases h
  · injection h with h
    subst h
    refine ⟨?_, ?_, ?_, ?_⟩
    all_goals simp (disch := decide) only [stp, str, strZero, setX, Function.update_self,
      Function.update_of_ne, readWord_writeWord_self, readWord_writeWord_add_of_le,
      BitVec.reduceAdd, BitVec.ofNat_eq_ofNat]

/-- A successful `ms_context_init`, on a stack whose top frame lies in no record, is the
initialisation of the lifecycle, and leaves a stack. -/
theorem init_refines {trampoline stackLow stackSize entry userdata : Word} {s₁ : Machine}
    (h : Represents L w s.mem)
    (hinit : msContextInit trampoline (L.addr c) stackLow stackSize entry userdata s =
      (0, .ret s₁))
    (hframe : ∀ d, AgreeOn Record.size (L.addr d) s.mem
      (writeWord s.mem (stackLow + stackSize - 16) (L.addr c))) :
    Represents L (w.init c) s₁.mem ∧ StackOk s₁.mem (L.addr c) := by
  obtain ⟨hok, hal, hmade⟩ := msContextInit_ret hinit
  have hraw := congrArg Prod.snd hinit
  simp only [msContextInit, hok, if_true] at hraw
  refine ⟨h.setRecord ?_ fun d hd => ?_, ?_⟩
  · obtain ⟨hst, hret, hcb, hud⟩ := mjsCtxMakeRaw_tail hraw
    simp (disch := decide) only [setX, Function.update_self, Function.update_of_ne]
      at hst hret hcb hud
    exact ⟨hst, hret, hcb, hud⟩
  · have hagree := mjsCtxMakeRaw_agreeOn hraw (p := L.addr d)
    simp (disch := decide) only [setX, Function.update_self, Function.update_of_ne] at hagree
    exact hagree (L.apart hd) (hframe d)
  · unfold StackOk
    rw [hmade.sp]
    refine ⟨stackTop_sub_ne_zero hok, ?_⟩
    rw [and_fifteen_eq_zero_iff] at hal ⊢
    bv_omega

end Records

/-! ### The exit trampoline -/

section Trampoline

variable [DecidableEq C] {t : C} {n : ℕ} {guard : Word}

omit [DecidableEq C] in
/-- When the entry returns, the trampoline finds its record in the frame and calls the hook of the
record on its argument, if there is one; it changes no memory. -/
theorem complete_refines (h : Represents L w s.mem) (hself : readWord s.mem s.sp = L.addr w.cur) :
    (trampolineComplete s).1 = (if (w.record w.cur).finishCb = 0 then none
      else some (w.record w.cur).finishCb) ∧
      ((w.record w.cur).finishCb ≠ 0 →
        (trampolineComplete s).2.x 0 = (w.record w.cur).finishUd) ∧
      (trampolineComplete s).2.x 19 = L.addr w.cur ∧ (trampolineComplete s).2.mem = s.mem := by
  obtain ⟨-, -, hcb, hud⟩ := h w.cur
  simp (disch := decide) only [trampolineComplete, ldrSp, ldr, setX, Function.update_self,
    Function.update_of_ne, hself, hcb]
  by_cases hhook : (w.record w.cur).finishCb = 0
  · simp (disch := decide) only [if_pos hhook, Function.update_self, Function.update_of_ne]
    exact ⟨trivial, fun hne => absurd hhook hne, trivial, trivial⟩
  · simp (disch := decide) only [if_neg hhook, Function.update_self, Function.update_of_ne]
    exact ⟨trivial, fun _ => hud, trivial, trivial⟩

/-- The last part of the trampoline marks the record and passes it and its return target to
`ms_context_switch`. -/
theorem finish_refines (h : Represents L w s.mem) (h19 : s.x 19 = L.addr w.cur) (guard : Word) :
    Represents L w.finish (trampolineFinish guard s).mem ∧
      (trampolineFinish guard s).x 0 = L.addr w.cur ∧
      (trampolineFinish guard s).x 1 = L.ptr (w.record w.cur).retTo ∧
      (trampolineFinish guard s).x 30 = guard := by
  obtain ⟨-, hret, hcb, hud⟩ := h w.cur
  have hmem : (trampolineFinish guard s).mem =
      writeWord s.mem (L.addr w.cur + Record.stateOff) CtxState.finished.toWord := by
    simp (disch := decide) only [trampolineFinish, setX, str, ldr, Function.update_self,
      Function.update_of_ne, h19]
  refine ⟨?_, ?_, ?_, ?_⟩
  · rw [hmem]
    refine h.setRecord ⟨readWord_writeWord_self .., ?_, ?_, ?_⟩
      fun d hd => agreeOn_writeWord _ (L.apart hd) (by decide) le_rfl
    · exact (readWord_writeWord_add_of_le _ _ _ (by decide)).trans hret
    · exact (readWord_writeWord_add_of_le _ _ _ (by decide)).trans hcb
    · exact (readWord_writeWord_add_of_le _ _ _ (by decide)).trans hud
  · simp (disch := decide) only [trampolineFinish, setX, str, ldr, Function.update_self,
      Function.update_of_ne, h19]
  · have hkeep : readWord (writeWord s.mem (L.addr w.cur + Record.stateOff)
        CtxState.finished.toWord) (L.addr w.cur + Record.retToOff) =
        readWord s.mem (L.addr w.cur + Record.retToOff) :=
      readWord_writeWord_add_of_le _ _ _ (by decide)
    rw [← hret, ← hkeep]
    simp (disch := decide) only [trampolineFinish, setX, str, ldr, Function.update_self,
      Function.update_of_ne, h19]
  · simp (disch := decide) only [trampolineFinish, setX, str, ldr, Function.update_self,
      Function.update_of_ne]

/-- **The tail call of the trampoline is the completion switch of the lifecycle.** -/
theorem leave_refines (h : Represents L w s.mem) (h19 : s.x 19 = L.addr w.cur)
    (hret : (w.record w.cur).retTo = some t) (ht : t ≠ w.cur) :
    (∀ code, w.finish.leave = .error (.trap code) →
      msContextSwitch n (trampolineFinish guard s) = .trap code) ∧
      ∀ w', w.finish.leave = .ok w' → StackOk s.mem (L.addr t) →
        ∃ s', msContextSwitch n (trampolineFinish guard s) = .ret s' ∧ Represents L w' s'.mem ∧
          Restored (L.addr t) s' := by
  obtain ⟨hfin, h0, h1, -⟩ := finish_refines h h19 guard
  rw [hret] at h1
  have hleave : w.finish.leave = w.finish.switch t := by
    have hr : (w.finish.record w.finish.cur).retTo = some t := by
      simpa [World.finish, World.setRecord] using hret
    have hne : t ≠ w.finish.cur := ht
    simp [World.leave, hr, hne]
  have hstack (hs : StackOk s.mem (L.addr t)) :
      StackOk (trampolineFinish guard s).mem (L.addr t) := by
    have hsp : readWord (trampolineFinish guard s).mem (L.addr t + Record.spOff) =
        readWord s.mem (L.addr t + Record.spOff) := by
      simp (disch := decide) only [trampolineFinish, setX, str, ldr, Function.update_self,
        Function.update_of_ne, h19]
      exact readWord_writeWord_of_areasApart _ _ (L.apart ht) (by decide) (by decide)
    unfold StackOk
    rwa [hsp]
  obtain ⟨htrap, hok⟩ := switch_refines (n := n) hfin h0 h1 ht
  rw [hleave]
  exact ⟨htrap, fun w' hw hs => hok w' hw (hstack hs)⟩

end Trampoline

end MojitoSys.Ctx.AArch64
