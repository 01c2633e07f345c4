import MojitoSys.Sync.Handoff
import MojitoSys.Time.Monotonic

/-!
# Waiting for a change

`wait_until_changed` of `atomic_wait.mojo`: while the deadline has not passed it waits on the word
with the old value expected, gives up if the wait timed out, and else reads the word. The wait is
`mjs_atomic_wait_on_u32`, over a futex on Linux and over the waiter table on macOS. The word is
stored to and the clock goes on at any time.

What the call needs from a wait is that a wait that timed out has seen the old value: it compares
the word before it sleeps, also when the deadline has passed. The loop does not do so itself. If
the deadline has passed when the call reads the clock first, then it returns `False` without a
look at the word.

## Main definitions

* `decode`, `WaitBackend`: the waits that the call can use.
* `FutexStep`, `mjsAtomicWaitLinux`, `FallbackStep`, `mjsAtomicWaitMacos`: the waits of the hosts.
* `ChangedPc`, `ChangedStep`, `ChangedRun`: the call.
* `ChangedLaw`: what the results of the call should say about the word.

## Main results

* `TableStep.fallback`: the steps of the waiter table are steps of `mjsAtomicWaitMacos`.
* `wait_until_changed_iff`: when the results say so.
-/

namespace MojitoSys.Sync

open Util Util.Monitor Time

/-! ### The waits -/

/-- `WaitStatus`. -/
inductive WaitStatus
  | ok
  | timedOut
  deriving DecidableEq, Repr

/-- `_decode`: `ETIMEDOUT` is `60` on one host and `110` on the other, and both are accepted. -/
def decode : Status → Except Errno WaitStatus
  | none => .ok .ok
  | some .ETIMEDOUT | some (.other 60) | some (.other 110) => .ok .timedOut
  | some e => .error e

/-- The status of a wait that timed out. -/
def TimedOut (rc : Status) : Prop := decode rc = .ok .timedOut

/-- A wait for the word to differ from `old`, as the calling thread sees it. -/
structure WaitBackend (old : BitVec 32) where
  /-- The places in the code. -/
  L : Type
  start : L
  /-- A step while the word is `w` and the clock shows `now`. -/
  step : BitVec 32 → MonotonicInstant → L → L → Prop
  /-- The wait returns a status. -/
  ret : L → Status → Prop
  /-- The wait has found the word equal to `old`. -/
  saw : L → Prop
  saw_start : ¬ saw start
  saw_step : ∀ {w now l l'}, step w now l l' → saw l' → saw l ∨ w = old
  saw_ret : ∀ {l rc}, ret l rc → TimedOut rc → saw l

/-- The places in `mjs_atomic_wait_linux`. -/
inductive FutexLabel
  /-- The remaining span is computed. -/
  | clock
  /-- The call of the kernel, with the span. -/
  | futex (rem : Duration)
  /-- In the queue of the kernel, up to a time. -/
  | asleep (limit : ℕ)
  | done (rc : Status)

/-- Where the answer of the kernel leads; `EINTR` is `4`. -/
def FutexLabel.answer : Status → FutexLabel
  | none | some .EAGAIN => .done none
  | some (.other 4) => .clock
  | some err => .done (some err)

/-- `mjs_atomic_wait_linux`. The kernel compares the word before it puts the caller to sleep, also
with an empty span. A sleep may end with any answer, but not with a timeout before its time. -/
inductive FutexStep (old : BitVec 32) (deadline : MonotonicInstant) (w : BitVec 32)
    (now : MonotonicInstant) : FutexLabel → FutexLabel → Prop
  | span : FutexStep old deadline w now .clock (.futex (deadline.durationSince now))
  | noClock : FutexStep old deadline w now .clock (.done (some .EINVAL))
  | differs {rem : Duration} (h : w ≠ old) :
      FutexStep old deadline w now (.futex rem) (.answer (some .EAGAIN))
  | sleep {rem : Duration} (h : w = old) :
      FutexStep old deadline w now (.futex rem) (.asleep (now.ticks.toNat + rem.ns.toNat))
  /-- The call is refused before the comparison. -/
  | refused {rem : Duration} {err : Errno} (herr : ¬ TimedOut (some err)) :
      FutexStep old deadline w now (.futex rem) (.answer (some err))
  | wake {limit : ℕ} {rc : Status} (h : rc = some .ETIMEDOUT → limit ≤ now.ticks.toNat) :
      FutexStep old deadline w now (.asleep limit) (.answer rc)

/-- The label of a wait that has found the word equal to `old`. -/
def FutexLabel.Saw : FutexLabel → Prop
  | .asleep _ => True
  | .done rc => TimedOut rc
  | _ => False

theorem not_timedOut_none : ¬ TimedOut none := by simp [TimedOut, decode]

theorem not_timedOut_error {err : Errno} (h : err = .EINVAL ∨ err = .EFAULT) :
    ¬ TimedOut (some err) := by
  rcases h with rfl | rfl <;> simp [TimedOut, decode]

theorem FutexLabel.saw_answer {rc : Status} (h : (answer rc).Saw) : TimedOut rc := by
  unfold answer at h
  split at h
  · exact absurd h not_timedOut_none
  · exact absurd h not_timedOut_none
  · exact absurd h id
  · exact h

/-- `mjs_atomic_wait_on_u32` on Linux. -/
def mjsAtomicWaitLinux (addr : Addr) (old : BitVec 32) (deadline : MonotonicInstant) :
    WaitBackend old where
  L := FutexLabel
  start := if addr = 0 then .done (some .EFAULT) else .clock
  step := FutexStep old deadline
  ret l rc := l = .done rc
  saw := FutexLabel.Saw
  saw_start := by
    split_ifs
    · exact not_timedOut_error (Or.inr rfl)
    · exact id
  saw_step {w now l l'} hs hl' := by
    cases hs with
    | span => exact absurd hl' id
    | noClock => exact absurd hl' (not_timedOut_error (Or.inl rfl))
    | differs h => exact absurd (FutexLabel.saw_answer hl') (by simp [TimedOut, decode])
    | sleep h => exact Or.inr h
    | refused herr => exact absurd (FutexLabel.saw_answer hl') herr
    | wake => exact Or.inl trivial
  saw_ret := by
    rintro _ rc rfl hrc
    exact hrc

/-- `mjs_atomic_wait_fallback`, as the calling thread sees it: the other threads may mark its
record, and the condition variable may return with any status. -/
inductive FallbackStep (old w : BitVec 32) : AwLabel → AwLabel → Prop
  /-- The mutex of the slot is not taken; there is no deadline to pass. -/
  | refused {rc : Status} (hrc : rc ≠ none) (ht : ¬ TimedOut rc) :
      FallbackStep old w .check (.done rc)
  | changed (h : w ≠ old) : FallbackStep old w .check (.unlock none)
  | unchanged (h : w = old) : FallbackStep old w .check .link
  | arm : FallbackStep old w .link .park
  | returned (rc : Status) : FallbackStep old w .park (.woke rc)
  | handed (rc : Status) : FallbackStep old w (.woke rc) (.unlock none)
  | leave {rc : Status} (hrc : rc ≠ none) : FallbackStep old w (.woke rc) (.unlock rc)
  | again : FallbackStep old w (.woke none) .check
  | unlock (rc : Status) : FallbackStep old w (.unlock rc) (.done rc)

/-- The label of a wait that has found the word equal to `old`. -/
def AwLabel.Saw : AwLabel → Prop
  | .link | .park | .woke _ => True
  | .unlock rc | .done rc => TimedOut rc
  | _ => False

/-- `mjs_atomic_wait_on_u32` on macOS; `initRc` is the status of the table. -/
def mjsAtomicWaitMacos (initRc : Status) (hrc : ¬ TimedOut initRc) (addr : Addr)
    (old : BitVec 32) : WaitBackend old where
  L := AwLabel
  start := awStart initRc (slotFor addr) (.wait addr old true)
  step w _ := FallbackStep old w
  ret l rc := l = .done rc
  saw := AwLabel.Saw
  saw_start := by
    unfold awStart
    split_ifs with h0 h1 h2
    · exact not_timedOut_error (Or.inr rfl)
    · exact hrc
    · exact id
    · exact id
  saw_step {w now l l'} hs hl' := by
    cases hs with
    | refused _ ht => exact absurd hl' ht
    | changed => exact absurd hl' not_timedOut_none
    | unchanged h => exact Or.inr h
    | arm => exact Or.inl trivial
    | returned => exact Or.inl trivial
    | handed => exact Or.inl trivial
    | leave => exact Or.inl trivial
    | again => exact Or.inl trivial
    | unlock rc => exact Or.inl hl'
  saw_ret := by
    rintro _ rc rfl hrc
    exact hrc

section Table

variable {P : Type*} [DecidableEq P] {call : P → AwCall} {initRc : Status} {me : P} {addr : Addr}
  {old : BitVec 32} {timed : Bool} {mem : Memory} {l l' : AwLabel} {i j : ℕ}
  {trs : ℕ → List (Exec P AwLabel (AwSlot P))} {es : List (Exec P AwLabel (AwSlot P))}
  {t t' : AwTable P}

/-- The steps of a wait in the table, as its thread sees them. -/
theorem ProcStep.fallback (hme : call me = .wait addr old timed) (hl : l ≠ .scan)
    (hs : ProcStep (awProgram call) me mem l l')
    (hlock : ∀ rc, l = .check → l' = .done rc → ¬ TimedOut rc) :
    l' = l ∨ FallbackStep old (mem addr) l l' := by
  cases hs with
  | refuse hentry hl' =>
    obtain ⟨rc, hrc, rfl⟩ := hl'
    obtain rfl : l = .check := hentry.resolve_right hl
    exact Or.inr (.refused hrc (hlock rc rfl rfl))
  | exec hcode =>
    have hinstr := code_cases hcode
    rw [hme] at hinstr
    cases hinstr with
    | changed h => exact Or.inr (.changed h)
    | unchanged h => exact Or.inr (.unchanged h)
    | arm => exact Or.inr .arm
    | park => exact Or.inl rfl
    | handed => exact Or.inr (.handed _)
    | leave _ _ hrc => exact Or.inr (.leave hrc)
    | again => exact Or.inr .again
    | unlock => exact Or.inr (.unlock _)
  | resume hl =>
    cases l with
    | park =>
      obtain ⟨rc, rfl, -⟩ := hl
      exact Or.inr (.returned rc)
    | _ => exact absurd hl (Set.notMem_empty _)

/-- A wait is never in the code of a wake. -/
theorem ProcStep.not_scan (hme : call me = .wait addr old timed) (hl : l ≠ .scan)
    (hs : ProcStep (awProgram call) me mem l l') : l' ≠ .scan := by
  cases hs with
  | refuse hentry hl' =>
    obtain ⟨rc, -, rfl⟩ := hl'
    simp
  | exec hcode =>
    have hinstr := code_cases hcode
    rw [hme] at hinstr
    cases hinstr <;> simp [Instr.next]
  | resume hl =>
    cases l with
    | park =>
      obtain ⟨rc, rfl, -⟩ := hl
      simp
    | _ => exact absurd hl (Set.notMem_empty _)

theorem not_scan_of_run {s : State P AwLabel (AwSlot P)} {tr : List (Exec P AwLabel (AwSlot P))}
    (hr : Run (awProgram call) (SlotStart initRc call i) tr s)
    (hme : call me = .wait addr old timed) : s.pc me ≠ .scan := by
  induction hr with
  | start h =>
    rw [h.pc, hme]
    unfold awStart
    split_ifs <;> simp
  | step _ hs ih =>
    rcases hs.proc me with heq | hproc
    · rwa [heq]
    · exact ProcStep.not_scan hme ih hproc

/-- In every run of the table, a step moves a wait by `FallbackStep`, or not at all. -/
theorem TableStep.fallback (hr : TableRun initRc call trs t) (hs : TableStep call t j es t')
    (hme : call me = .wait addr old timed)
    (hlock : ∀ rc, (t.slot i).pc me = .check → (t'.slot i).pc me = .done rc → ¬ TimedOut rc) :
    (t'.slot i).pc me = (t.slot i).pc me ∨
      FallbackStep old (t.mem addr) ((t.slot i).pc me) ((t'.slot i).pc me) := by
  cases hs with
  | store => exact Or.inl rfl
  | slot hs =>
    by_cases hij : i = j
    · subst hij
      simp only [Function.update_self] at hlock ⊢
      rcases hs.proc me with heq | hproc
      · exact Or.inl heq
      · exact ProcStep.fallback hme (not_scan_of_run (hr.slot i) hme) hproc hlock
    · exact Or.inl (by simp [Function.update_of_ne hij])

end Table

/-- The hosts, with the status of the table on macOS. -/
inductive Host
  | linux
  | macos (initRc : Status) (hrc : ¬ TimedOut initRc)

/-- `mjs_atomic_wait_on_u32`. -/
def Host.wait (h : Host) (addr : Addr) (old : BitVec 32) (deadline : MonotonicInstant) :
    WaitBackend old :=
  match h with
  | .linux => mjsAtomicWaitLinux addr old deadline
  | .macos initRc hrc => mjsAtomicWaitMacos initRc hrc addr old

/-! ### The call -/

/-- The places in `wait_until_changed`, where `L` are those of the wait. -/
inductive ChangedPc (L : Type)
  /-- The test of the clock. -/
  | check
  | wait (l : L)
  /-- The word is read. -/
  | read
  | done (res : Bool)
  | raised

/-- The call has not returned. -/
def ChangedPc.Running {L : Type} : ChangedPc L → Prop
  | .done _ | .raised => False
  | _ => True

/-- What happens during the call. -/
inductive ChangedEvent
  /-- A store by another thread. -/
  | store (v : BitVec 32)
  /-- The call reads the clock. -/
  | clock (now : MonotonicInstant)
  /-- The call reads the word. -/
  | read (w : BitVec 32)

/-- The word, the clock and the call. -/
structure ChangedState (L : Type) where
  word : BitVec 32
  now : MonotonicInstant
  pc : ChangedPc L

section Changed

variable {old : BitVec 32} (B : WaitBackend old) (deadline : MonotonicInstant)

/-- A step of `wait_until_changed`, or of the other threads and the clock while it runs. -/
inductive ChangedStep (s : ChangedState B.L) :
    List ChangedEvent → ChangedState B.L → Prop
  | store (v : BitVec 32) (hpc : s.pc.Running) : ChangedStep s [.store v] { s with word := v }
  | tick {now : MonotonicInstant} (hpc : s.pc.Running) (hnow : s.now < now) :
      ChangedStep s [] { s with now := now }
  | noClock (hpc : s.pc = .check) : ChangedStep s [] { s with pc := .raised }
  | enter (hpc : s.pc = .check) (hlt : s.now < deadline) :
      ChangedStep s [.clock s.now] { s with pc := .wait B.start }
  | late (hpc : s.pc = .check) (hge : ¬ s.now < deadline) :
      ChangedStep s [.clock s.now] { s with pc := .done false }
  | wait {l l' : B.L} (hpc : s.pc = .wait l) (hs : B.step s.word s.now l l') :
      ChangedStep s [] { s with pc := .wait l' }
  | ok {l : B.L} {rc : Status} (hpc : s.pc = .wait l) (hret : B.ret l rc)
      (hrc : decode rc = .ok .ok) : ChangedStep s [] { s with pc := .read }
  | timedOut {l : B.L} {rc : Status} (hpc : s.pc = .wait l) (hret : B.ret l rc)
      (hrc : TimedOut rc) : ChangedStep s [] { s with pc := .done false }
  | raise {l : B.L} {rc : Status} {err : Errno} (hpc : s.pc = .wait l) (hret : B.ret l rc)
      (hrc : decode rc = .error err) : ChangedStep s [] { s with pc := .raised }
  | changed (hpc : s.pc = .read) (h : s.word ≠ old) :
      ChangedStep s [.read s.word] { s with pc := .done true }
  | again (hpc : s.pc = .read) (h : s.word = old) :
      ChangedStep s [.read s.word] { s with pc := .check }

/-- The runs of the call while the word is `w₀` at its beginning, with their events, the newest
first. -/
inductive ChangedRun (w₀ : BitVec 32) : List ChangedEvent → ChangedState B.L → Prop
  | start (now : MonotonicInstant) : ChangedRun w₀ [] ⟨w₀, now, .check⟩
  | step {tr es : List ChangedEvent} {s s' : ChangedState B.L} (hr : ChangedRun w₀ tr s)
      (hs : ChangedStep B deadline s es s') : ChangedRun w₀ (es ++ tr) s'

end Changed

/-! ### What the results say -/

/-- The values that the word had, the newest first. -/
def values (w₀ : BitVec 32) : List ChangedEvent → List (BitVec 32)
  | [] => [w₀]
  | .store v :: tr => v :: values w₀ tr
  | _ :: tr => values w₀ tr

/-- The first time that the call read the clock, with the events before. -/
def firstClock : List ChangedEvent → Option (MonotonicInstant × List ChangedEvent)
  | [] => none
  | .clock now :: tr => (firstClock tr).or (some (now, tr))
  | _ :: tr => firstClock tr

/-- What the results should say. The call returns `True` only if it read a value of the word other
than `old`, and `False` only if the word was `old` at some moment of the call; a change that lasts
through the call is not reported as a timeout. -/
structure ChangedLaw {L : Type} (old w₀ : BitVec 32) (tr : List ChangedEvent)
    (s : ChangedState L) : Prop where
  changed : s.pc = .done true → ∃ w, .read w ∈ tr ∧ w ∈ values w₀ tr ∧ w ≠ old
  expired : s.pc = .done false → old ∈ values w₀ tr
  settled : (∀ w ∈ values w₀ tr, w ≠ old) → s.pc ≠ .done false

/-- When the call read the clock first, the deadline had not passed, or the word had been `old` at
some moment of the call. -/
def InTime (old w₀ : BitVec 32) (deadline : MonotonicInstant) (tr : List ChangedEvent) : Prop :=
  ∀ now rest, firstClock tr = some (now, rest) → now < deadline ∨ old ∈ values w₀ rest

section Law

variable {old w₀ : BitVec 32} {B : WaitBackend old} {deadline : MonotonicInstant}
  {tr es : List ChangedEvent} {s s' : ChangedState B.L}

/-- The call has read the clock, and the deadline had not passed. -/
def Entered (deadline : MonotonicInstant) (tr : List ChangedEvent) : Prop :=
  ∃ now rest, firstClock tr = some (now, rest) ∧ now < deadline

/-- What is known at a place in the call. -/
def AtPc (B : WaitBackend old) (w₀ : BitVec 32) (deadline : MonotonicInstant)
    (tr : List ChangedEvent) : ChangedPc B.L → Prop
  | .check => firstClock tr = none ∨ Entered deadline tr ∧ old ∈ values w₀ tr
  | .wait l => Entered deadline tr ∧ (B.saw l → old ∈ values w₀ tr)
  | .read => Entered deadline tr
  | .done true => Entered deadline tr ∧ ∃ w, .read w ∈ tr ∧ w ∈ values w₀ tr ∧ w ≠ old
  | .done false => (Entered deadline tr ∧ old ∈ values w₀ tr) ∨
      ∃ now rest, tr = .clock now :: rest ∧ firstClock rest = none ∧ ¬ now < deadline
  | .raised => firstClock tr = none ∨ Entered deadline tr

/-- The invariant of the call. -/
structure ChangedInv (B : WaitBackend old) (w₀ : BitVec 32) (deadline : MonotonicInstant)
    (tr : List ChangedEvent) (s : ChangedState B.L) : Prop where
  word : s.word ∈ values w₀ tr
  pc : AtPc B w₀ deadline tr s.pc

theorem mem_values_cons {w : BitVec 32} (e : ChangedEvent) (h : w ∈ values w₀ tr) :
    w ∈ values w₀ (e :: tr) := by
  cases e with
  | store v => exact List.mem_cons_of_mem v h
  | clock now => exact h
  | read w => exact h

theorem Entered.cons (e : ChangedEvent) (h : Entered deadline tr) : Entered deadline (e :: tr) := by
  obtain ⟨now, rest, hfirst, hlt⟩ := h
  refine ⟨now, rest, ?_, hlt⟩
  cases e with
  | store v => exact hfirst
  | clock now' => simp [firstClock, hfirst]
  | read w => exact hfirst

/-- A store while the call runs. -/
theorem AtPc.store {pc : ChangedPc B.L} (h : AtPc B w₀ deadline tr pc) (hpc : pc.Running)
    (v : BitVec 32) : AtPc B w₀ deadline (.store v :: tr) pc := by
  cases pc with
  | check => exact h.imp_right fun hin => ⟨hin.1.cons _, mem_values_cons _ hin.2⟩
  | wait l => exact ⟨h.1.cons _, fun hsaw => mem_values_cons _ (h.2 hsaw)⟩
  | read => exact h.cons _
  | done res => exact absurd hpc id
  | raised => exact absurd hpc id

theorem ChangedInv.step (h : ChangedInv B w₀ deadline tr s)
    (hs : ChangedStep B deadline s es s') : ChangedInv B w₀ deadline (es ++ tr) s' := by
  obtain ⟨hword, hat⟩ := h
  cases hs with
  | store v hpc => exact ⟨List.mem_cons_self, hat.store hpc v⟩
  | tick => exact ⟨hword, hat⟩
  | noClock hpc =>
    rw [hpc] at hat
    exact ⟨hword, hat.imp_right And.left⟩
  | enter hpc hlt =>
    rw [hpc] at hat
    refine ⟨hword, ?_, fun hsaw => absurd hsaw B.saw_start⟩
    rcases hat with hfirst | ⟨hin, -⟩
    · exact ⟨s.now, tr, by simp [firstClock, hfirst], hlt⟩
    · exact hin.cons _
  | late hpc hge =>
    rw [hpc] at hat
    refine ⟨hword, ?_⟩
    rcases hat with hfirst | ⟨hin, hold⟩
    · exact Or.inr ⟨s.now, tr, rfl, hfirst, hge⟩
    · exact Or.inl ⟨hin.cons _, hold⟩
  | wait hpc hs =>
    rw [hpc] at hat
    refine ⟨hword, hat.1, fun hsaw => ?_⟩
    rcases B.saw_step hs hsaw with hsaw | heq
    · exact hat.2 hsaw
    · exact heq.subst hword
  | ok hpc hret hrc =>
    rw [hpc] at hat
    exact ⟨hword, hat.1⟩
  | timedOut hpc hret hrc =>
    rw [hpc] at hat
    exact ⟨hword, Or.inl ⟨hat.1, hat.2 (B.saw_ret hret hrc)⟩⟩
  | raise hpc hret hrc =>
    rw [hpc] at hat
    exact ⟨hword, Or.inr hat.1⟩
  | changed hpc hne =>
    rw [hpc] at hat
    exact ⟨hword, hat.cons _, s.word, List.mem_cons_self, hword, hne⟩
  | again hpc heq =>
    rw [hpc] at hat
    have hold : old ∈ values w₀ tr := heq.subst hword
    exact ⟨hword, Or.inr ⟨hat.cons _, hold⟩⟩

/-- If the call read the clock, then it went on, or returned `False` at once. -/
theorem AtPc.entered_or_late {pc : ChangedPc B.L} (h : AtPc B w₀ deadline tr pc)
    {now : MonotonicInstant} {rest : List ChangedEvent}
    (hfirst : firstClock tr = some (now, rest)) :
    now < deadline ∨ pc = .done false ∧ tr = .clock now :: rest := by
  have hentered (hin : Entered deadline tr) : now < deadline := by
    obtain ⟨now', rest', hfirst', hlt⟩ := hin
    obtain ⟨rfl, -⟩ := Prod.mk.inj (Option.some.inj (hfirst.symm.trans hfirst'))
    exact hlt
  have hnone (h0 : firstClock tr = none) : now < deadline := by simp [h0] at hfirst
  cases pc with
  | check => exact Or.inl (h.elim hnone fun hin => hentered hin.1)
  | wait l => exact Or.inl (hentered h.1)
  | read => exact Or.inl (hentered h)
  | raised => exact Or.inl (h.elim hnone hentered)
  | done res =>
    cases res with
    | true => exact Or.inl (hentered h.1)
    | false =>
      rcases h with ⟨hin, -⟩ | ⟨now', rest', rfl, h0, -⟩
      · exact Or.inl (hentered hin)
      · simp only [firstClock, h0, Option.none_or, Option.some.injEq, Prod.mk.injEq] at hfirst
        obtain ⟨rfl, rfl⟩ := hfirst
        exact Or.inr ⟨rfl, rfl⟩

theorem ChangedRun.inv (hr : ChangedRun B deadline w₀ tr s) : ChangedInv B w₀ deadline tr s := by
  induction hr with
  | start now => exact ⟨List.mem_singleton_self _, Or.inl rfl⟩
  | step _ hs ih => exact ih.step hs

end Law

section Main

variable {old w₀ : BitVec 32} {host : Host} {addr : Addr} {deadline : MonotonicInstant}
  {tr : List ChangedEvent} {s : ChangedState (host.wait addr old deadline).L}

/-- The results of the call say what they should if and only if the deadline had not passed when the
call read the clock first, or the word had been `old` before. -/
theorem wait_until_changed_iff (hr : ChangedRun (host.wait addr old deadline) deadline w₀ tr s) :
    ChangedLaw old w₀ tr s ↔ InTime old w₀ deadline tr := by
  have hat := hr.inv.pc
  constructor
  · intro hlaw now rest hfirst
    rcases hat.entered_or_late hfirst with hlt | ⟨hpc, rfl⟩
    · exact Or.inl hlt
    · exact Or.inr (hlaw.expired hpc)
  · intro htime
    have hexpired (hpc : s.pc = .done false) : old ∈ values w₀ tr := by
      rw [hpc] at hat
      rcases hat with ⟨-, hold⟩ | ⟨now, rest, rfl, hfirst, hge⟩
      · exact hold
      · exact (htime now rest (by simp [firstClock, hfirst])).resolve_left hge
    refine ⟨fun hpc => ?_, hexpired, fun hne hpc => hne old (hexpired hpc) rfl⟩
    rw [hpc] at hat
    exact hat.2

/-- On Linux, a store that comes while the call sleeps, and no wake: the call is interrupted, finds
the new value and returns `True`. -/
theorem wait_until_changed_interrupted : ∃ tr s,
    ChangedRun (Host.linux.wait 4 0 ⟨9⟩) ⟨9⟩ 0 tr s ∧ s.pc = .done true ∧ ChangedLaw 0 0 tr s := by
  have hintr : some (Errno.other 4) ≠ some .ETIMEDOUT := by simp
  have h : ChangedRun (Host.linux.wait 4 0 ⟨9⟩) ⟨9⟩ 0 [] ⟨0, ⟨5⟩, .check⟩ := .start ⟨5⟩
  have h := h.step (.enter rfl (by decide))
  have h := h.step (.wait rfl FutexStep.span)
  have h := h.step (.wait rfl (FutexStep.sleep rfl))
  have h := h.step (.store 1 trivial)
  have h := h.step (.wait rfl (FutexStep.wake fun hrc => absurd hrc hintr))
  have h := h.step (.wait rfl FutexStep.span)
  have h := h.step (.wait rfl (FutexStep.differs (by simp)))
  have h := h.step (.ok rfl rfl rfl)
  have h := h.step (.changed rfl (by simp))
  refine ⟨_, _, h, rfl, (wait_until_changed_iff h).mpr ?_⟩
  rintro now rest ⟨⟩
  exact Or.inl (by decide)

/-- The word changed before the call, and the deadline has passed: the call returns `False`. -/
theorem wait_until_changed_late : ∃ tr s, ChangedRun (Host.linux.wait 4 0 ⟨5⟩) ⟨5⟩ 1 tr s ∧
    s.pc = .done false ∧ (∀ w ∈ values 1 tr, w ≠ 0) ∧ ¬ ChangedLaw 0 1 tr s := by
  have h : ChangedRun (Host.linux.wait 4 0 ⟨5⟩) ⟨5⟩ 1 [] ⟨1, ⟨5⟩, .check⟩ := .start ⟨5⟩
  have h := h.step (.late rfl (by decide))
  have hne : ∀ w ∈ values 1 [.clock ⟨5⟩], w ≠ 0 := by simp [values]
  exact ⟨_, _, h, rfl, hne, fun hlaw => hlaw.settled hne rfl⟩

end Main

end MojitoSys.Sync
