import MojitoSys.Ctx.X86.Machine

/-!
# The x86-64 round trip

On entry to a System V function the stack pointer is `8` modulo `16`, since the call has pushed the
return address. `ms_context_switch` stores that stack pointer in the record, and its restore path
traps on a stack slot that is not a multiple of sixteen. So every record saved by a conformant
caller traps when it is resumed, and so does every capture.

## Main definitions

* `ResumesCaller`: a run ends just after the call of `s`, with the registers of `s` that the save
  area stores.

## Main results

* `recheck_trap`: a target with a misaligned stack slot traps, whatever other threads do.
* `x86_round_trip_traps`: no round trip of a conformant caller resumes it.
-/

namespace MojitoSys.Ctx.X86

open Util

/-- The run `o` ends just after the call of `s`: at the return address on its stack, with the
registers of `s` that the save area stores, the return address being popped. -/
def ResumesCaller (s : Machine) (o : Outcome) : Prop :=
  ∃ s', o = .ret (readWord s.mem (s.gpr .rsp)) s' ∧
    (∀ r ∈ [Gpr.rbx, .rbp, .r12, .r13, .r14, .r15], s'.gpr r = s.gpr r) ∧
    s'.gpr .rsp = s.gpr .rsp + 8 ∧ ∀ i : Fin 16, 6 ≤ i.val → i.val ≤ 13 → s'.xmm i = s.xmm i

theorem not_resumesCaller_of_trap {s : Machine} {o : Outcome} {code : ℕ} (h : o = .trap code) :
    ¬ ResumesCaller s o := by
  rintro ⟨s', hs', -⟩
  cases h.symm.trans hs'

/-! ### The save -/

@[simp] theorem saveRegisters_gpr (s : Machine) : (saveRegisters s).gpr = s.gpr := by
  simp only [saveRegisters, movToMem, movXmmToMem]

theorem saveRegisters_mem (s : Machine) : (saveRegisters s).mem =
    writeWord (writeWord (writeWord (writeWord (writeWord (writeWord (writeWord (writeWord
    (writeWord (writeWord (writeWord (writeWord (writeWord (writeWord (writeWord s.mem
    (s.gpr .rdi + 0) (s.gpr .rbx)) (s.gpr .rdi + 8) (s.gpr .rbp)) (s.gpr .rdi + 16) (s.gpr .r12))
    (s.gpr .rdi + 24) (s.gpr .r13)) (s.gpr .rdi + 32) (s.gpr .r14)) (s.gpr .rdi + 40) (s.gpr .r15))
    (s.gpr .rdi + 96) (s.xmm 6)) (s.gpr .rdi + 104) (s.xmm 7)) (s.gpr .rdi + 112) (s.xmm 8))
    (s.gpr .rdi + 120) (s.xmm 9)) (s.gpr .rdi + 128) (s.xmm 10)) (s.gpr .rdi + 136) (s.xmm 11))
    (s.gpr .rdi + 144) (s.xmm 12)) (s.gpr .rdi + 152) (s.xmm 13)) (s.gpr .rdi + 160)
    (s.gpr .rsp) := by
  simp only [saveRegisters, movToMem, movXmmToMem, BitVec.reduceAdd, BitVec.ofNat_eq_ofNat]

/-- The stack slot of `from` holds the stack pointer at the call. -/
theorem readWord_saveRegisters_sp (s : Machine) :
    readWord (saveRegisters s).mem (s.gpr .rdi + Record.spOff) = s.gpr .rsp := by
  rw [saveRegisters_mem, readWord_writeWord_self]

/-- The save does not touch another record. -/
theorem agreeOn_saveRegisters (s : Machine) {q : Word} (h : RecordsApart q (s.gpr .rdi)) :
    AgreeOn Record.size q s.mem (saveRegisters s).mem := by
  rw [saveRegisters_mem]
  repeat refine AgreeOn.trans ?_ (agreeOn_writeWord _ h (by decide) (Nat.le_refl _))
  exact AgreeOn.refl _ _ _

/-! ### A misaligned stack slot traps -/

theorem loadRegisters_rax (s : Machine) :
    (loadRegisters s).gpr .rax = readWord s.mem (s.gpr .rsi + Record.spOff) := by
  simp (disch := decide) only [loadRegisters, movFromMem, movXmmFromMem, setGpr,
    Function.update_self, Function.update_of_ne]

theorem restore_trap {s : Machine} (h : readWord s.mem (s.gpr .rsi + Record.spOff) &&& 15 ≠ 0) :
    restore s = .trap 0x6b := by
  simp only [restore, loadRegisters_rax]
  exact ite_eq_left_iff.2 fun h' => absurd h h'

/-- What reaches the compare-exchange: the demotion of `from` changes no other record. -/
theorem prepareArm_spec (s : Machine) :
    (∀ r : Gpr, r ≠ .rax → r ≠ .rdx →
      (prepareArm (movFromMem Record.stateOff .rsi .rax s)).gpr r = s.gpr r) ∧
    ∀ q : Word, RecordsApart q (s.gpr .rdi) →
      AgreeOn Record.size q s.mem (prepareArm (movFromMem Record.stateOff .rsi .rax s)).mem := by
  have hrdi : (movFromMem Record.stateOff .rsi .rax s).gpr .rdi = s.gpr .rdi := by
    simp (disch := decide) only [movFromMem, setGpr, Function.update_of_ne]
  unfold prepareArm demoteFrom
  split
  · refine ⟨fun r hr hr' => ?_, fun q h => ?_⟩
    · simp only [setGpr, movImmToMem, movFromMem, Function.update_of_ne hr,
        Function.update_of_ne hr']
    · simp only [setGpr, movImmToMem, hrdi]
      exact agreeOn_writeWord _ h (by decide) (Nat.le_refl _)
  · refine ⟨fun r hr hr' => ?_, fun q _ => AgreeOn.refl _ _ _⟩
    simp only [setGpr, movFromMem, Function.update_of_ne hr, Function.update_of_ne hr']

/-- The state that the pass validates. -/
theorem movFromMem_rax (s : Machine) : (movFromMem Record.stateOff .rsi .rax s).gpr .rax =
    readWord s.mem (s.gpr .rsi + Record.stateOff) := by
  simp only [movFromMem, setGpr, Function.update_self]

/-- After a lost pass the next one starts with the same arguments. -/
theorem loseExchange_gpr (m : ByteMemory) (s : Machine) {r : Gpr} (hr : r ≠ .rax) (hr' : r ≠ .rdx) :
    (loseExchange m (prepareArm (movFromMem Record.stateOff .rsi .rax s))).gpr r = s.gpr r := by
  rw [← (prepareArm_spec s).1 r hr hr']
  simp only [loseExchange, movFromMem, setGpr, Function.update_of_ne hr]

/-- After the arm, a misaligned stack slot traps with `0x6b`. -/
theorem resumeTarget_trap {s : Machine} {m : ByteMemory}
    (hm : s.mem = writeWord m (s.gpr .rsi + Record.stateOff) (s.gpr .rdx))
    (h : readWord m (s.gpr .rsi + Record.spOff) &&& 15 ≠ 0) : resumeTarget s = .trap 0x6b := by
  have hsp : readWord (movToMem .rdi Record.retToOff .rsi s).mem (s.gpr .rsi + Record.spOff) =
      readWord m (s.gpr .rsi + Record.spOff) := by
    change readWord (writeWord s.mem _ _) _ = _
    rw [hm, readWord_writeWord_add_of_le _ _ _ (by decide),
      readWord_writeWord_add_of_le _ _ _ (by decide)]
  have hne : readWord m (s.gpr .rsi + Record.spOff) ≠ 0 := by
    intro h0
    exact h (by rw [h0]; rfl)
  have hif : ¬ readWord (movToMem .rdi Record.retToOff .rsi s).mem
      ((movToMem .rdi Record.retToOff .rsi s).gpr .rsi + Record.spOff) = 0 := by
    change ¬ readWord _ (s.gpr .rsi + Record.spOff) = 0
    rwa [hsp]
  rw [resumeTarget, ite_eq_right_iff.2 (fun h0 => absurd h0 hif)]
  exact restore_trap (by change readWord _ (s.gpr .rsi + Record.spOff) &&& 15 ≠ 0; rwa [hsp])

/-- **A target with a misaligned stack slot traps**, whatever other threads leave in memory when a
pass is lost, provided they keep the slot misaligned. -/
theorem recheck_trap (lost : List ByteMemory) (s : Machine)
    (hap : RecordsApart (s.gpr .rsi) (s.gpr .rdi))
    (h : readWord s.mem (s.gpr .rsi + Record.spOff) &&& 15 ≠ 0)
    (hl : ∀ m ∈ lost, readWord m (s.gpr .rsi + Record.spOff) &&& 15 ≠ 0) :
    ∃ code, recheck lost s = .trap code ∧
      (lost = [] → validateTarget (readWord s.mem (s.gpr .rsi + Record.stateOff)) = none →
        code = 0x6b) := by
  induction lost generalizing s with
  | nil =>
    rw [recheck, movFromMem_rax]
    obtain ⟨hg, hmem⟩ := prepareArm_spec s
    cases hv : validateTarget (readWord s.mem (s.gpr .rsi + Record.stateOff)) with
    | some code => exact ⟨code, rfl, fun _ h' => by cases h'⟩
    | none =>
      refine ⟨0x6b, resumeTarget_trap rfl ?_, fun _ _ => rfl⟩
      change readWord _ ((prepareArm _).gpr .rsi + _) &&& 15 ≠ 0
      rw [hg .rsi (by decide) (by decide), (hmem _ hap).readWord (by decide)]
      exact h
  | cons m lost ih =>
    rw [recheck, movFromMem_rax]
    cases hv : validateTarget (readWord s.mem (s.gpr .rsi + Record.stateOff)) with
    | some code => exact ⟨code, rfl, fun h' => by cases h'⟩
    | none =>
      have hrsi := loseExchange_gpr m s (r := .rsi) (by decide) (by decide)
      have hrdi := loseExchange_gpr m s (r := .rdi) (by decide) (by decide)
      have hih := ih (loseExchange m (prepareArm (movFromMem Record.stateOff .rsi .rax s)))
      rw [hrsi, hrdi] at hih
      obtain ⟨code, hc, -⟩ := hih hap (hl m List.mem_cons_self)
        fun m' hm' => hl m' (List.mem_cons_of_mem _ hm')
      exact ⟨code, hc, fun h' => by cases h'⟩

/-! ### Every round trip of a conformant caller traps -/

/-- A stack pointer that is `8` modulo `16` is not a multiple of sixteen. -/
theorem and_fifteen_ne_zero_of_mod {w : Word} (h : w.toNat % 16 = 8) : w &&& 15 ≠ 0 := by
  rw [ne_eq, and_fifteen_eq_zero_iff]
  omega

/-- A capture by a conformant caller traps. -/
theorem msContextCapture_trap (ctx : Word) {s : Machine} (h : (s.gpr .rsp).toNat % 16 = 8) :
    msContextCapture ctx s = .trap 0x6b := by
  let s₀ := s |> setGpr .rdi ctx |> setGpr .rsi ctx
  have hrdi : s₀.gpr .rdi = ctx := by
    simp (disch := decide) only [s₀, setGpr, Function.update_self, Function.update_of_ne]
  have hrsi : s₀.gpr .rsi = ctx := by
    simp only [s₀, setGpr, Function.update_self]
  have hrsp : s₀.gpr .rsp = s.gpr .rsp := by
    simp (disch := decide) only [s₀, setGpr, Function.update_of_ne]
  change msContextSwitch [] s₀ = _
  simp only [msContextSwitch, saveRegisters_gpr, hrdi, hrsi, ↓reduceIte, selfSwitch]
  refine restore_trap ?_
  have hsp := readWord_saveRegisters_sp s₀
  simp only [movImmToMem, saveRegisters_gpr, hrsi]
  rw [hrdi, hrsp] at hsp
  rw [readWord_writeWord_add_of_le _ _ _ (by decide), hsp]
  exact and_fifteen_ne_zero_of_mod h

/-- The restore path changes no memory. -/
theorem restore_mem {s s₁ : Machine} {rip : Word} (h : restore s = .ret rip s₁) :
    s₁.mem = s.mem := by
  unfold restore at h
  dsimp only at h
  split at h
  · cases h
  · injection h with _ h
    rw [← h]
    simp only [setGpr, loadRegisters, movFromMem, movXmmFromMem]

/-- After the arm, only the return target of `to` is written. -/
theorem resumeTarget_mem {s s₁ : Machine} {rip : Word} (h : resumeTarget s = .ret rip s₁) :
    s₁.mem = writeWord s.mem (s.gpr .rsi + Record.retToOff) (s.gpr .rdi) := by
  unfold resumeTarget at h
  dsimp only at h
  split at h
  · cases h
  · exact restore_mem h

/-- What reaches the compare-exchange is undisturbed for `from`. -/
theorem prepareArm_undisturbed {m : ByteMemory} {s : Machine}
    (h : Undisturbed (s.gpr .rdi) m s.mem) :
    Undisturbed (s.gpr .rdi) m (prepareArm (movFromMem Record.stateOff .rsi .rax s)).mem := by
  have hrdi : (movFromMem Record.stateOff .rsi .rax s).gpr .rdi = s.gpr .rdi := by
    simp (disch := decide) only [movFromMem, setGpr, Function.update_of_ne]
  unfold prepareArm demoteFrom
  split
  · simp only [setGpr, movImmToMem, hrdi]
    exact h.state _
  · exact h

/-- A switch that resumes its target writes the record of `from` only in the lifecycle words, as
long as other threads do. -/
theorem recheck_undisturbed (m₀ : ByteMemory) (lost : List ByteMemory) {s s₁ : Machine} {rip : Word}
    (hap : RecordsApart (s.gpr .rdi) (s.gpr .rsi)) (h₀ : Undisturbed (s.gpr .rdi) m₀ s.mem)
    (hl : ∀ m ∈ lost, Undisturbed (s.gpr .rdi) m₀ m) (h : recheck lost s = .ret rip s₁) :
    Undisturbed (s.gpr .rdi) m₀ s₁.mem := by
  induction lost generalizing s with
  | nil =>
    rw [recheck] at h
    obtain ⟨hg, -⟩ := prepareArm_spec s
    have hrsi := hg .rsi (by decide) (by decide)
    split at h
    · cases h
    · rw [resumeTarget_mem h]
      refine ((prepareArm_undisturbed h₀).code ?_).code
        (agreeOn_writeWord _ (hrsi ▸ hap) (by decide) (Nat.le_refl _))
      exact agreeOn_writeWord _ (hrsi ▸ hap) (by decide) (Nat.le_refl _)
  | cons m lost ih =>
    rw [recheck] at h
    split at h
    · cases h
    · have hrsi := loseExchange_gpr m s (r := .rsi) (by decide) (by decide)
      have hrdi := loseExchange_gpr m s (r := .rdi) (by decide) (by decide)
      rw [← hrdi]
      refine ih ?_ ?_ ?_ h
      · rw [hrsi, hrdi]
        exact hap
      · exact hrdi ▸ hl m List.mem_cons_self
      · exact fun m' hm' => hrdi ▸ hl m' (List.mem_cons_of_mem _ hm')

theorem msContextSwitch_of_apart {lost : List ByteMemory} {s : Machine}
    (hap : RecordsApart (s.gpr .rdi) (s.gpr .rsi)) :
    msContextSwitch lost s = recheck lost (saveRegisters s) := by
  have hne : s.gpr .rdi ≠ s.gpr .rsi := by
    intro h
    rw [h] at hap
    exact absurd hap.1 (by simp [Record.size])
  simp only [msContextSwitch, saveRegisters_gpr, hne, ↓reduceIte]

/-- **x86-64 round trip.** For every conformant caller, `rsp` being `8` modulo `16` on entry: a
switch out of `from`, any run that leaves the record of `from` to the backend, and a switch back
into `from` end in a trap and never resume the caller; the trap is `0x6b` when the state of `from`
is resumable. Every capture by a conformant caller traps with `0x6b`. -/
theorem x86_round_trip_traps (s : Machine) (h8 : (s.gpr .rsp).toNat % 16 = 8) :
    (∀ (lost lost' : List ByteMemory) (rip : Word) (s₁ s₂ : Machine),
      RecordsApart (s.gpr .rdi) (s.gpr .rsi) → msContextSwitch lost s = .ret rip s₁ →
      (∀ m ∈ lost, Undisturbed (s.gpr .rdi) (saveRegisters s).mem m) →
      Undisturbed (s.gpr .rdi) s₁.mem s₂.mem → (∀ m ∈ lost', Undisturbed (s.gpr .rdi) s₁.mem m) →
      s₂.gpr .rsi = s.gpr .rdi → RecordsApart (s.gpr .rdi) (s₂.gpr .rdi) →
      ∃ code, msContextSwitch lost' s₂ = .trap code ∧
        ¬ ResumesCaller s (msContextSwitch lost' s₂) ∧
        (lost' = [] → validateTarget (readWord s₂.mem (s.gpr .rdi + Record.stateOff)) = none →
          code = 0x6b)) ∧
    ∀ ctx : Word, msContextCapture ctx s = .trap 0x6b ∧
      ¬ ResumesCaller s (msContextCapture ctx s) := by
  refine ⟨?_, fun ctx => ⟨msContextCapture_trap ctx h8,
    not_resumesCaller_of_trap (msContextCapture_trap ctx h8)⟩⟩
  intro lost lost' rip s₁ s₂ hap hret hl hrun hl' hto hap'
  have hsp₁ : readWord s₁.mem (s.gpr .rdi + Record.spOff) = s.gpr .rsp := by
    rw [msContextSwitch_of_apart hap] at hret
    have hund := recheck_undisturbed (s := saveRegisters s) _ lost hap .refl hl hret
    rw [saveRegisters_gpr] at hund
    rw [hund.readWord_save (by decide), readWord_saveRegisters_sp]
  have hslot {m : ByteMemory} (hm : Undisturbed (s.gpr .rdi) s₁.mem m) :
      readWord m (s.gpr .rdi + Record.spOff) &&& 15 ≠ 0 := by
    rw [hm.readWord_save (by decide), hsp₁]
    exact and_fifteen_ne_zero_of_mod h8
  have hap₂ : RecordsApart (s₂.gpr .rsi) (s₂.gpr .rdi) := hto ▸ hap'
  have hsave := agreeOn_saveRegisters s₂ hap₂
  rw [hto] at hsave
  obtain ⟨code, hcode, hexact⟩ := recheck_trap lost' (saveRegisters s₂) hap₂
    (by
      rw [saveRegisters_gpr, hto, hsave.readWord (by decide)]
      exact hslot hrun)
    (fun m hm => by
      rw [saveRegisters_gpr, hto]
      exact hslot (hl' m hm))
  rw [← msContextSwitch_of_apart hap₂.symm] at hcode
  refine ⟨code, hcode, not_resumesCaller_of_trap hcode, fun hnil hv => hexact hnil ?_⟩
  rw [saveRegisters_gpr, hto, hsave.readWord (by decide)]
  exact hv

/-- The memory after `mjs__ctx_make_raw` armed the record at `0x2000` on a stack below `0x11000`,
the record at `0x1000` being suspended. -/
def preparedMem : ByteMemory :=
  (mjsCtxMakeRaw 0x4000
    { gpr := fun r => match r with
        | .rdi => 0x2000 | .rsi => 0x11000 | .rdx => 0x5000 | .rcx => 0x77 | _ => 0x9000
      xmm := fun _ => 0
      mem := writeWord (fun _ => 0) (0x1000 + Record.stateOff) CtxState.suspended.toWord }).mem

/-- A conformant caller at the call `ms_context_switch(0x1000, 0x2000)`. -/
def driverMachine : Machine where
  gpr r := match r with
    | .rdi => 0x1000 | .rsi => 0x2000 | .rsp => 0x8008 | _ => 0x33
  xmm i := BitVec.ofNat 64 i.val
  mem := preparedMem

/-- The context at `0x2000` at the call `ms_context_switch(0x2000, 0x1000)`. -/
def backMachine (mem : ByteMemory) : Machine where
  gpr r := match r with
    | .rdi => 0x2000 | .rsi => 0x1000 | .rsp => 0x10fe8 | _ => 0x44
  xmm _ := 0
  mem := mem

theorem x86_round_trip_traps_driver : ∃ rip s₁ code,
    msContextSwitch [] driverMachine = .ret rip s₁ ∧
      msContextSwitch [] (backMachine s₁.mem) = .trap code := by
  obtain ⟨rip, s₁, h₁⟩ := Outcome.exists_ret
    (show (msContextSwitch [] driverMachine).trapCode = none by decide +kernel)
  obtain ⟨code, hcode, -⟩ := (x86_round_trip_traps driverMachine (by decide)).1 [] [] rip s₁
    (backMachine s₁.mem) (by decide) h₁ (by simp) .refl (by simp) rfl
    (show RecordsApart 0x1000 0x2000 by decide)
  exact ⟨rip, s₁, code, h₁, hcode⟩

/-- The driver switches to a fresh context, which switches back: the restore of the driver traps on
its stack slot `0x8008`. A capture by the driver traps as well. -/
theorem x86_round_trip_fails : (driverMachine.gpr .rsp).toNat % 16 = 8 ∧
    (∃ rip s₁, msContextSwitch [] driverMachine = .ret rip s₁ ∧
      msContextSwitch [] (backMachine s₁.mem) = .trap 0x6b ∧
      ¬ ResumesCaller driverMachine (msContextSwitch [] (backMachine s₁.mem))) ∧
    msContextCapture 0x1000 driverMachine = .trap 0x6b := by
  refine ⟨by decide, ?_, Outcome.eq_trap (by decide +kernel)⟩
  obtain ⟨rip, s₁, h₁⟩ := Outcome.exists_ret
    (show (msContextSwitch [] driverMachine).trapCode = none by decide +kernel)
  have hmem : s₁.mem = (msContextSwitch [] driverMachine).mem := by rw [h₁, Outcome.mem]
  have htrap : msContextSwitch [] (backMachine s₁.mem) = .trap 0x6b := by
    rw [hmem]
    exact Outcome.eq_trap (by decide +kernel)
  exact ⟨rip, s₁, h₁, htrap, not_resumesCaller_of_trap htrap⟩

end MojitoSys.Ctx.X86
