import Mathlib.Data.Finset.Card
import Mathlib.Data.Set.Basic
import Mathlib.Logic.Function.Basic

/-!
# Monitors

A monitor is some data with one mutex and one condition variable. Any number of processes run the
same program on it: a process takes the mutex at an entry label, executes instructions while it
holds the mutex, and may park on the condition variable, which releases the mutex. The program may
read an environment that no mutex protects.

The condition variable has the guarantees of POSIX and no others. A signal unblocks at least one
blocked process, if there is one; a blocked process may also be unblocked for no reason, or because
its deadline passed; an unblocked process is ready and competes for the mutex with every process
that arrives.

A proof about all interleavings is an outline: an assertion for the free monitor, and one for the
holder of the mutex at every label. The trace of the executed instructions, the newest first, is
available to the assertions.

## Main definitions

* `Condvar`: the blocked and the ready waiters.
* `Program`, `State`, `Step`, `Run`.
* `Outline`: the assertions of a proof outline, with their rules.
* `Regions`: the labels inside the lock regions.
* `Condvar.Covered`: some waiter is blocked only if enough others are ready.

## Main results

* `Step.proc`: a step moves every process by its own code.
* `Run.exists_step`: the step of a run that executed a given instruction.
* `Outline.run`: the assertions hold along every run.
* `Regions.placed`: a process inside a lock region holds the mutex, or waits.
* `Run.of_local`: an assertion on the label and the instructions of one process holds along every
  run.
-/

namespace MojitoSys.Util.Monitor

/-! ### The condition variable -/

/-- The waiters of a condition variable. -/
@[ext]
structure Condvar (P : Type*) where
  /-- Parked and not notified. -/
  blocked : Finset P
  /-- Notified or expired, and before the re-acquisition of the mutex. -/
  ready : Finset P
  disjoint : Disjoint blocked ready

namespace Condvar

variable {P : Type*} [DecidableEq P] {cv cv' : Condvar P} {p : P}

/-- No waiters. -/
def empty : Condvar P := ⟨∅, ∅, Finset.disjoint_empty_left _⟩

/-- The process is blocked or ready. -/
def Waits (cv : Condvar P) (p : P) : Prop := p ∈ cv.blocked ∨ p ∈ cv.ready

instance (cv : Condvar P) (p : P) : Decidable (cv.Waits p) := inferInstanceAs (Decidable (_ ∨ _))

/-- The process parks. -/
def park (cv : Condvar P) (p : P) : Condvar P where
  blocked := insert p cv.blocked
  ready := cv.ready.erase p
  disjoint := by
    rw [Finset.disjoint_insert_left]
    exact ⟨Finset.notMem_erase p _, cv.disjoint.mono_right (Finset.erase_subset p _)⟩

/-- The blocked processes of a set get ready. -/
def notify (cv : Condvar P) (ps : Finset P) : Condvar P where
  blocked := cv.blocked \ ps
  ready := cv.ready ∪ cv.blocked ∩ ps
  disjoint := by
    rw [Finset.disjoint_union_right]
    refine ⟨cv.disjoint.mono_left Finset.sdiff_subset, ?_⟩
    exact Finset.disjoint_sdiff.symm.mono_right Finset.inter_subset_right

/-- The process re-acquires the mutex. -/
def retire (cv : Condvar P) (p : P) : Condvar P where
  blocked := cv.blocked
  ready := cv.ready.erase p
  disjoint := cv.disjoint.mono_right (Finset.erase_subset p _)

/-- A signal: at least one blocked process gets ready, if there is one. -/
def Signal (cv cv' : Condvar P) : Prop :=
  ∃ ps, (cv.blocked.Nonempty → (cv.blocked ∩ ps).Nonempty) ∧ cv' = cv.notify ps

/-- A broadcast: every blocked process gets ready. -/
def broadcast (cv : Condvar P) : Condvar P := cv.notify cv.blocked

theorem waits_notify {ps : Finset P} : (cv.notify ps).Waits p ↔ cv.Waits p := by
  simp only [Waits, notify, Finset.mem_sdiff, Finset.mem_union, Finset.mem_inter]
  tauto

theorem Signal.waits (h : cv.Signal cv') : cv'.Waits p ↔ cv.Waits p := by
  obtain ⟨ps, -, rfl⟩ := h
  exact waits_notify

theorem waits_park {q : P} : (cv.park p).Waits q ↔ q = p ∨ cv.Waits q := by
  simp only [Waits, park, Finset.mem_insert, Finset.mem_erase]
  tauto

theorem waits_retire {q : P} (hp : p ∈ cv.ready) : (cv.retire p).Waits q ↔ q ≠ p ∧ cv.Waits q := by
  have hpb : p ∉ cv.blocked := fun h => Finset.disjoint_left.mp cv.disjoint h hp
  have hq : q ∈ cv.blocked → q ≠ p := by
    rintro h rfl
    exact hpb h
  simp only [Waits, retire, Finset.mem_erase]
  tauto

theorem card_ready_notify (ps : Finset P) :
    (cv.notify ps).ready.card = cv.ready.card + (cv.blocked ∩ ps).card :=
  Finset.card_union_of_disjoint (cv.disjoint.symm.mono_right Finset.inter_subset_left)

theorem card_ready_retire (hp : p ∈ cv.ready) : (cv.retire p).ready.card + 1 = cv.ready.card :=
  Finset.card_erase_add_one hp

/-! ### Enough ready waiters -/

/-- If some waiter is blocked, then at least `n` others are ready. -/
def Covered (cv : Condvar P) (n : ℤ) : Prop := cv.blocked.Nonempty → n ≤ cv.ready.card

omit [DecidableEq P] in
theorem Covered.mono {m n : ℤ} (h : cv.Covered n) (hmn : m ≤ n) : cv.Covered m :=
  fun hb => hmn.trans (h hb)

omit [DecidableEq P] in
theorem covered_of_nonpos {n : ℤ} (hn : n ≤ 0) : cv.Covered n :=
  fun _ => hn.trans (Int.natCast_nonneg _)

theorem Covered.notify {n : ℤ} (h : cv.Covered n) (ps : Finset P) : (cv.notify ps).Covered n := by
  intro hb
  have hn := h (hb.mono Finset.sdiff_subset)
  rw [card_ready_notify]
  omega

/-- A signal makes up for one more. -/
theorem Covered.signal {n : ℤ} (h : cv.Covered n) (hs : cv.Signal cv') : cv'.Covered (n + 1) := by
  obtain ⟨ps, hps, rfl⟩ := hs
  intro hb
  have hblocked : cv.blocked.Nonempty := hb.mono Finset.sdiff_subset
  have hn := h hblocked
  have hcard := Finset.card_pos.mpr (hps hblocked)
  rw [card_ready_notify]
  omega

/-- A waiter that re-acquires the mutex is one less. -/
theorem Covered.retire {n : ℤ} (h : cv.Covered n) (hp : p ∈ cv.ready) :
    (cv.retire p).Covered (n - 1) := by
  intro hb
  have hn := h hb
  have hcard := card_ready_retire hp
  omega

end Condvar

/-! ### Programs -/

/-- An instruction of the holder of the mutex; `L` are the labels of the program. -/
inductive Instr (σ L : Type*)
  /-- Write the data. -/
  | act (d : σ) (l : L)
  | signal (l : L)
  | broadcast (l : L)
  /-- Park on the condition variable. -/
  | wait
  | unlock (l : L)

/-- The data after an instruction. -/
def Instr.post {σ L : Type*} : Instr σ L → σ → σ
  | .act d _, _ => d
  | _, d => d

/-- The label after an instruction. A wait stays where it is until it returns. -/
def Instr.next {σ L : Type*} : Instr σ L → L → L
  | .act _ l, _ => l
  | .signal l, _ => l
  | .broadcast l, _ => l
  | .wait, l => l
  | .unlock l, _ => l

/-- A program of the processes `P` over data `σ` in an environment `E`. -/
structure Program (P E L σ : Type*) where
  /-- The labels at which a process takes the mutex. -/
  entry : Set L
  /-- Where a failed attempt to take the mutex leads. -/
  refuse : L → Set L
  /-- The instructions of a process at a label. -/
  code : P → E → L → σ → Instr σ L → Prop
  /-- Where a wait of a process at a label may return. -/
  back : P → L → Set L

/-- The state of a monitor and of its processes. -/
structure State (P L σ : Type*) where
  data : σ
  /-- The holder of the mutex. -/
  owner : Option P
  cv : Condvar P
  pc : P → L

/-- An executed instruction, with the data before and after it and the next label. -/
structure Exec (P L σ : Type*) where
  proc : P
  label : L
  pre : σ
  post : σ
  next : L

section Run

variable {P E L σ : Type*} [DecidableEq P]

/-- One step, with the instruction it executes. -/
inductive Step (prog : Program P E L σ) (e : E) (s : State P L σ) :
    List (Exec P L σ) → State P L σ → Prop
  | lock {p : P} (hfree : s.owner = none) (hentry : s.pc p ∈ prog.entry) (hp : ¬ s.cv.Waits p) :
      Step prog e s [] { s with owner := some p }
  | refuse {p : P} {l : L} (hown : s.owner ≠ some p) (hentry : s.pc p ∈ prog.entry)
      (hp : ¬ s.cv.Waits p) (hl : l ∈ prog.refuse (s.pc p)) :
      Step prog e s [] { s with pc := Function.update s.pc p l }
  | act {p : P} {d : σ} {l : L} (hown : s.owner = some p)
      (hcode : prog.code p e (s.pc p) s.data (.act d l)) :
      Step prog e s [⟨p, s.pc p, s.data, d, l⟩]
        { s with data := d, pc := Function.update s.pc p l }
  | signal {p : P} {l : L} {cv : Condvar P} (hown : s.owner = some p)
      (hcode : prog.code p e (s.pc p) s.data (.signal l)) (hcv : s.cv.Signal cv) :
      Step prog e s [⟨p, s.pc p, s.data, s.data, l⟩]
        { s with cv := cv, pc := Function.update s.pc p l }
  | broadcast {p : P} {l : L} (hown : s.owner = some p)
      (hcode : prog.code p e (s.pc p) s.data (.broadcast l)) :
      Step prog e s [⟨p, s.pc p, s.data, s.data, l⟩]
        { s with cv := s.cv.broadcast, pc := Function.update s.pc p l }
  | wait {p : P} (hown : s.owner = some p) (hcode : prog.code p e (s.pc p) s.data .wait) :
      Step prog e s [⟨p, s.pc p, s.data, s.data, s.pc p⟩]
        { s with owner := none, cv := s.cv.park p }
  | unlock {p : P} {l : L} (hown : s.owner = some p)
      (hcode : prog.code p e (s.pc p) s.data (.unlock l)) :
      Step prog e s [⟨p, s.pc p, s.data, s.data, l⟩]
        { s with owner := none, pc := Function.update s.pc p l }
  /-- A deadline, or no reason at all. -/
  | wakeup {p : P} (hp : p ∈ s.cv.blocked) : Step prog e s [] { s with cv := s.cv.notify {p} }
  | resume {p : P} {l : L} (hfree : s.owner = none) (hp : p ∈ s.cv.ready)
      (hl : l ∈ prog.back p (s.pc p)) :
      Step prog e s []
        { s with owner := some p, cv := s.cv.retire p, pc := Function.update s.pc p l }

/-- A step executes no instruction, or one of the holder of the mutex. -/
theorem Step.exec_cases {prog : Program P E L σ} {e : E} {es : List (Exec P L σ)}
    {s s' : State P L σ} (hs : Step prog e s es s') :
    (es = [] ∧ s'.data = s.data) ∨
      ∃ p i, s.owner = some p ∧ prog.code p e (s.pc p) s.data i ∧ s'.data = i.post s.data ∧
        s'.pc = Function.update s.pc p (i.next (s.pc p)) ∧
        es = [⟨p, s.pc p, s.data, i.post s.data, i.next (s.pc p)⟩] := by
  cases hs with
  | lock => exact Or.inl ⟨rfl, rfl⟩
  | refuse => exact Or.inl ⟨rfl, rfl⟩
  | wakeup => exact Or.inl ⟨rfl, rfl⟩
  | resume => exact Or.inl ⟨rfl, rfl⟩
  | act hown hcode => exact Or.inr ⟨_, _, hown, hcode, rfl, rfl, rfl⟩
  | signal hown hcode => exact Or.inr ⟨_, _, hown, hcode, rfl, rfl, rfl⟩
  | broadcast hown hcode => exact Or.inr ⟨_, _, hown, hcode, rfl, rfl, rfl⟩
  | wait hown hcode =>
    exact Or.inr ⟨_, _, hown, hcode, rfl, (Function.update_eq_self _ _).symm, rfl⟩
  | unlock hown hcode => exact Or.inr ⟨_, _, hown, hcode, rfl, rfl, rfl⟩

/-- What a process may do to its own label, whatever the data are and the other processes do. -/
inductive ProcStep (prog : Program P E L σ) (p : P) (e : E) (l : L) : L → Prop
  | refuse {l' : L} (hentry : l ∈ prog.entry) (hl : l' ∈ prog.refuse l) : ProcStep prog p e l l'
  | exec {d : σ} {i : Instr σ L} (hcode : prog.code p e l d i) : ProcStep prog p e l (i.next l)
  | resume {l' : L} (hl : l' ∈ prog.back p l) : ProcStep prog p e l l'

theorem ProcStep.of_update {prog : Program P E L σ} {e : E} {pc : P → L} {p q : P}
    {l : L} (h : ProcStep prog q e (pc q) l) :
    Function.update pc q l p = pc p ∨ ProcStep prog p e (pc p) (Function.update pc q l p) := by
  by_cases hp : p = q
  · subst hp
    exact Or.inr (by simpa using h)
  · exact Or.inl (Function.update_of_ne hp l pc)

/-- A step moves every process by its own code, or not at all. -/
theorem Step.proc {prog : Program P E L σ} {e : E} {es : List (Exec P L σ)} {s s' : State P L σ}
    (hs : Step prog e s es s') (p : P) :
    s'.pc p = s.pc p ∨ ProcStep prog p e (s.pc p) (s'.pc p) := by
  cases hs with
  | lock => exact Or.inl rfl
  | refuse _ hentry _ hl => exact ProcStep.of_update (.refuse hentry hl)
  | act _ hcode => exact ProcStep.of_update (.exec hcode)
  | signal _ hcode => exact ProcStep.of_update (.exec hcode)
  | broadcast _ hcode => exact ProcStep.of_update (.exec hcode)
  | wait => exact Or.inl rfl
  | unlock _ hcode => exact ProcStep.of_update (.exec hcode)
  | wakeup => exact Or.inl rfl
  | resume _ _ hl => exact ProcStep.of_update (.resume hl)

/-- The runs from the states of `start`, in any environment, with their traces. -/
inductive Run (prog : Program P E L σ) (start : State P L σ → Prop) :
    List (Exec P L σ) → State P L σ → Prop
  | start {s : State P L σ} (h : start s) : Run prog start [] s
  | step {tr es : List (Exec P L σ)} {s s' : State P L σ} {e : E} (hr : Run prog start tr s)
      (hs : Step prog e s es s') : Run prog start (es ++ tr) s'

/-- The step of a run that executed a given instruction. -/
theorem Run.exists_step {prog : Program P E L σ} {start : State P L σ → Prop}
    {tr tr' : List (Exec P L σ)} {s : State P L σ} {x : Exec P L σ} (hr : Run prog start tr s)
    (hx : x :: tr' <:+ tr) : ∃ e s₀ s₁, Run prog start tr' s₀ ∧ Step prog e s₀ [x] s₁ := by
  induction hr with
  | start => simp at hx
  | @step tr es s s' e hr hs ih =>
    rcases hs.exec_cases with ⟨rfl, -⟩ | ⟨p, i, -, -, -, -, rfl⟩
    · exact ih hx
    · rcases List.suffix_cons_iff.mp hx with heq | hx
      · obtain ⟨rfl, rfl⟩ := List.cons.inj heq
        exact ⟨e, s, s', hr, hs⟩
      · exact ih hx

end Run

/-! ### Proof outlines -/

section Outline

variable {P E L σ : Type*} [DecidableEq P]

/-- A proof outline: an assertion for the free monitor, one for the holder of the mutex at every
label, and the rules that the program keeps them. -/
structure Outline (prog : Program P E L σ) where
  free : List (Exec P L σ) → σ → Condvar P → Prop
  held : List (Exec P L σ) → P → L → σ → Condvar P → Prop
  lock : ∀ {tr d cv p l}, l ∈ prog.entry → ¬ cv.Waits p → free tr d cv → held tr p l d cv
  act : ∀ {tr d cv p l e d' l'}, prog.code p e l d (.act d' l') → ¬ cv.Waits p →
    held tr p l d cv → held (⟨p, l, d, d', l'⟩ :: tr) p l' d' cv
  signal : ∀ {tr d cv p l e l' cv'}, prog.code p e l d (.signal l') → cv.Signal cv' →
    held tr p l d cv → held (⟨p, l, d, d, l'⟩ :: tr) p l' d cv'
  broadcast : ∀ {tr d cv p l e l'}, prog.code p e l d (.broadcast l') →
    held tr p l d cv → held (⟨p, l, d, d, l'⟩ :: tr) p l' d cv.broadcast
  wait : ∀ {tr d cv p l e}, prog.code p e l d .wait → ¬ cv.Waits p →
    held tr p l d cv → free (⟨p, l, d, d, l⟩ :: tr) d (cv.park p)
  unlock : ∀ {tr d cv p l e l'}, prog.code p e l d (.unlock l') → ¬ cv.Waits p →
    held tr p l d cv → free (⟨p, l, d, d, l'⟩ :: tr) d cv
  resume : ∀ {tr d cv p l l'}, l' ∈ prog.back p l → p ∈ cv.ready → free tr d cv →
    held tr p l' d (cv.retire p)
  wakeup_free : ∀ {tr d cv p}, p ∈ cv.blocked → free tr d cv → free tr d (cv.notify {p})
  wakeup_held : ∀ {tr d cv q l p}, p ∈ cv.blocked → held tr q l d cv →
    held tr q l d (cv.notify {p})

namespace Outline

variable {prog : Program P E L σ} (O : Outline prog) {start : State P L σ → Prop}
  {tr es : List (Exec P L σ)} {s s' : State P L σ}

/-- The assertions of an outline hold in a state; the holder of the mutex does not wait. -/
structure Holds (tr : List (Exec P L σ)) (s : State P L σ) : Prop where
  free : s.owner = none → O.free tr s.data s.cv
  held : ∀ p, s.owner = some p → O.held tr p (s.pc p) s.data s.cv
  awake : ∀ p, s.owner = some p → ¬ s.cv.Waits p

variable {O}

/-- The holder of the mutex goes on to another label. -/
theorem Holds.of_held {p : P} {l : L} {d : σ} {cv : Condvar P} (hown : s.owner = some p)
    (h : O.held tr p l d cv) (hp : ¬ cv.Waits p) :
    O.Holds tr { data := d, owner := s.owner, cv := cv, pc := Function.update s.pc p l } where
  free hfree := by simp [hown] at hfree
  held q hq := by
    obtain rfl : p = q := Option.some.inj (hown.symm.trans hq)
    simpa using h
  awake q hq := by
    obtain rfl : p = q := Option.some.inj (hown.symm.trans hq)
    exact hp

/-- The mutex is released. -/
theorem Holds.of_free {pc : P → L} {d : σ} {cv : Condvar P} (h : O.free tr d cv) :
    O.Holds tr { data := d, owner := none, cv := cv, pc := pc } where
  free _ := h
  held p hp := by simp at hp
  awake p hp := by simp at hp

/-- One step keeps the assertions. -/
theorem Holds.step {e : E} (h : O.Holds tr s) (hs : Step prog e s es s') :
    O.Holds (es ++ tr) s' := by
  cases hs with
  | @lock p hfree hentry hp =>
    refine ⟨fun hnone => by simp at hnone, fun q hq => ?_, fun q hq => ?_⟩
    · obtain rfl : p = q := Option.some.inj hq
      exact O.lock hentry hp (h.free hfree)
    · obtain rfl : p = q := Option.some.inj hq
      exact hp
  | @refuse p l hown hentry hp hl =>
    refine ⟨h.free, fun q hq => ?_, h.awake⟩
    have hne : q ≠ p := by
      rintro rfl
      exact hown hq
    simpa [Function.update_of_ne hne] using h.held q hq
  | @act p d l hown hcode =>
    exact .of_held hown (O.act hcode (h.awake p hown) (h.held p hown)) (h.awake p hown)
  | @signal p l cv hown hcode hcv =>
    exact .of_held hown (O.signal hcode hcv (h.held p hown))
      (fun hw => h.awake p hown (hcv.waits.mp hw))
  | @broadcast p l hown hcode =>
    exact .of_held hown (O.broadcast hcode (h.held p hown))
      (fun hw => h.awake p hown (Condvar.waits_notify.mp hw))
  | @wait p hown hcode => exact .of_free (O.wait hcode (h.awake p hown) (h.held p hown))
  | @unlock p l hown hcode => exact .of_free (O.unlock hcode (h.awake p hown) (h.held p hown))
  | @wakeup p hp =>
    refine ⟨fun hfree => O.wakeup_free hp (h.free hfree), fun q hq => ?_, fun q hq hw => ?_⟩
    · exact O.wakeup_held hp (h.held q hq)
    · exact h.awake q hq (Condvar.waits_notify.mp hw)
  | @resume p l hfree hp hl =>
    refine ⟨fun hnone => by simp at hnone, fun q hq => ?_, fun q hq hw => ?_⟩
    · obtain rfl : p = q := Option.some.inj hq
      simpa using O.resume hl hp (h.free hfree)
    · obtain rfl : p = q := Option.some.inj hq
      exact ((Condvar.waits_retire hp).mp hw).1 rfl

/-- The assertions of an outline hold along every run. -/
theorem run (hstart : ∀ s, start s → s.owner = none ∧ O.free [] s.data s.cv)
    (hr : Run prog start tr s) : O.Holds tr s := by
  induction hr with
  | @start s h =>
    obtain ⟨hown, hfree⟩ := hstart s h
    refine ⟨fun _ => hfree, fun p hp => ?_, fun p hp => ?_⟩
    · simp [hown] at hp
    · simp [hown] at hp
  | step _ hs ih => exact ih.step hs

end Outline

/-! ### Lock regions -/

/-- The labels inside the lock regions of a program. -/
structure Regions (prog : Program P E L σ) where
  /-- The labels at which only the holder of the mutex is. -/
  held : Set L
  /-- The labels at which a process parks. -/
  parked : Set L
  refuse : ∀ {l l'}, l ∈ prog.entry → l' ∈ prog.refuse l → l' ∉ held ∧ l' ∉ parked
  wait : ∀ {p e l d}, prog.code p e l d .wait → l ∈ parked ∧ l ∉ held
  unlock : ∀ {p e l d l'}, prog.code p e l d (.unlock l') → l' ∉ held ∧ l' ∉ parked

namespace Regions

variable {prog : Program P E L σ} (R : Regions prog) {start : State P L σ → Prop}
  {tr es : List (Exec P L σ)} {s s' : State P L σ}

/-- The processes inside a lock region hold the mutex, or wait. -/
structure Placed (s : State P L σ) : Prop where
  awake : ∀ {p}, s.owner = some p → ¬ s.cv.Waits p
  waits : ∀ {p}, s.cv.Waits p → s.pc p ∈ R.parked
  held : ∀ {p}, s.pc p ∈ R.held → s.owner = some p
  parked : ∀ {p}, s.pc p ∈ R.parked → s.owner = some p ∨ s.cv.Waits p

variable {R}

/-- The holder of the mutex goes on to another label. -/
theorem Placed.of_owner (h : R.Placed s) {p : P} {l : L} {d : σ} {cv : Condvar P}
    (hown : s.owner = some p) (hcv : ∀ q, cv.Waits q ↔ s.cv.Waits q) :
    R.Placed { data := d, owner := s.owner, cv := cv, pc := Function.update s.pc p l } := by
  have hne : ∀ {q}, s.cv.Waits q → q ≠ p := by
    rintro q hq rfl
    exact h.awake hown hq
  refine ⟨fun hq hw => h.awake hq ((hcv _).mp hw), fun {q} hw => ?_, fun {q} hq => ?_,
    fun {q} hq => ?_⟩
  · have hw' := (hcv q).mp hw
    simpa [Function.update_of_ne (hne hw')] using h.waits hw'
  · by_cases hqp : q = p
    · exact hqp ▸ hown
    · exact h.held (by simpa [Function.update_of_ne hqp] using hq)
  · by_cases hqp : q = p
    · exact Or.inl (hqp ▸ hown)
    · rw [hcv]
      exact h.parked (by simpa [Function.update_of_ne hqp] using hq)

/-- A process goes on to a label outside of the lock regions, and does not hold the mutex. -/
theorem Placed.of_outside (h : R.Placed s) {p : P} {l : L} {o : Option P}
    (hp : ¬ s.cv.Waits p) (hl : l ∉ R.held ∧ l ∉ R.parked)
    (ho : ∀ q, o = some q ↔ s.owner = some q ∧ q ≠ p) :
    R.Placed { data := s.data, owner := o, cv := s.cv, pc := Function.update s.pc p l } := by
  refine ⟨fun hq => h.awake ((ho _).mp hq).1, fun {q} hw => ?_, fun {q} hq => ?_, fun {q} hq => ?_⟩
  · have hqp : q ≠ p := by
      rintro rfl
      exact hp hw
    simpa [Function.update_of_ne hqp] using h.waits hw
  · by_cases hqp : q = p
    · subst hqp
      exact absurd (by simpa using hq) hl.1
    · exact (ho q).mpr ⟨h.held (by simpa [Function.update_of_ne hqp] using hq), hqp⟩
  · by_cases hqp : q = p
    · subst hqp
      exact absurd (by simpa using hq) hl.2
    · refine (h.parked (by simpa [Function.update_of_ne hqp] using hq)).imp_left ?_
      exact fun hown => (ho q).mpr ⟨hown, hqp⟩

/-- One step keeps the processes in their lock regions. -/
theorem Placed.step {e : E} (h : R.Placed s) (hs : Step prog e s es s') : R.Placed s' := by
  cases hs with
  | @lock p hfree hentry hp =>
    refine ⟨fun {q} hq => ?_, h.waits, fun {q} hq => ?_, fun {q} hq => ?_⟩
    · obtain rfl : p = q := Option.some.inj hq
      exact hp
    · exact absurd (h.held hq) (by simp [hfree])
    · exact Or.inr ((h.parked hq).resolve_left (by simp [hfree]))
  | @refuse p l hown hentry hp hl =>
    refine h.of_outside hp (R.refuse hentry hl) fun q => ?_
    refine ⟨fun hq => ⟨hq, ?_⟩, And.left⟩
    rintro rfl
    exact hown hq
  | act hown hcode => exact h.of_owner hown fun _ => Iff.rfl
  | signal hown hcode hcv => exact h.of_owner hown fun _ => hcv.waits
  | broadcast hown hcode => exact h.of_owner hown fun _ => Condvar.waits_notify
  | @wait p hown hcode =>
    have hpc := R.wait hcode
    refine ⟨fun hq => by simp at hq, fun {q} hw => ?_, fun {q} hq => ?_, fun {q} hq => Or.inr ?_⟩
    · rcases Condvar.waits_park.mp hw with rfl | hw
      · exact hpc.1
      · exact h.waits hw
    · obtain rfl : p = q := Option.some.inj (hown.symm.trans (h.held hq))
      exact absurd hq hpc.2
    · refine Condvar.waits_park.mpr ((h.parked hq).imp_left fun hqo => ?_)
      exact Option.some.inj (hqo.symm.trans hown)
  | @unlock p l hown hcode =>
    refine h.of_outside (h.awake hown) (R.unlock hcode) fun q => ?_
    refine ⟨fun hq => by simp at hq, fun hq => absurd ?_ hq.2⟩
    exact Option.some.inj (hq.1.symm.trans hown)
  | @wakeup p hp =>
    refine ⟨fun hq hw => h.awake hq (Condvar.waits_notify.mp hw),
      fun hw => h.waits (Condvar.waits_notify.mp hw), h.held, fun hq => ?_⟩
    exact (h.parked hq).imp_right Condvar.waits_notify.mpr
  | @resume p l hfree hp hl =>
    refine ⟨fun {q} hq hw => ?_, fun {q} hw => ?_, fun {q} hq => ?_, fun {q} hq => ?_⟩
    · obtain rfl : p = q := Option.some.inj hq
      exact ((Condvar.waits_retire hp).mp hw).1 rfl
    · obtain ⟨hqp, hw⟩ := (Condvar.waits_retire hp).mp hw
      simpa [Function.update_of_ne hqp] using h.waits hw
    · by_cases hqp : q = p
      · exact congrArg some hqp.symm
      · have hq' := h.held (by simpa [Function.update_of_ne hqp] using hq)
        exact absurd hq' (by simp [hfree])
    · by_cases hqp : q = p
      · exact Or.inl (congrArg some hqp.symm)
      · have hq' := h.parked (by simpa [Function.update_of_ne hqp] using hq)
        have hw := hq'.resolve_left (by simp [hfree])
        exact Or.inr ((Condvar.waits_retire hp).mpr ⟨hqp, hw⟩)

/-- The processes are in their lock regions along every run. -/
theorem placed (hstart : ∀ s, start s → R.Placed s) (hr : Run prog start tr s) : R.Placed s := by
  induction hr with
  | @start s h => exact hstart s h
  | step _ hs ih => exact ih.step hs

end Regions

/-! ### Assertions on one process -/

/-- The instructions that the process executed. -/
def own (p : P) (tr : List (Exec P L σ)) : List (Exec P L σ) := tr.filter fun x => x.proc = p

theorem own_cons_self (x : Exec P L σ) (tr : List (Exec P L σ)) :
    own x.proc (x :: tr) = x :: own x.proc tr := by
  simp [own]

theorem own_cons_of_ne {p : P} {x : Exec P L σ} (h : x.proc ≠ p) (tr : List (Exec P L σ)) :
    own p (x :: tr) = own p tr := by
  simp [own, h]

/-- An assertion on the label of a process and on the instructions that it executed. -/
structure Local (prog : Program P E L σ) where
  holds : P → L → List (Exec P L σ) → Prop
  refuse : ∀ {p h l l'}, l ∈ prog.entry → l' ∈ prog.refuse l → holds p l h → holds p l' h
  act : ∀ {p h e l d d' l'}, prog.code p e l d (.act d' l') → holds p l h →
    holds p l' (⟨p, l, d, d', l'⟩ :: h)
  signal : ∀ {p h e l d l'}, prog.code p e l d (.signal l') → holds p l h →
    holds p l' (⟨p, l, d, d, l'⟩ :: h)
  broadcast : ∀ {p h e l d l'}, prog.code p e l d (.broadcast l') → holds p l h →
    holds p l' (⟨p, l, d, d, l'⟩ :: h)
  wait : ∀ {p h e l d}, prog.code p e l d .wait → holds p l h → holds p l (⟨p, l, d, d, l⟩ :: h)
  unlock : ∀ {p h e l d l'}, prog.code p e l d (.unlock l') → holds p l h →
    holds p l' (⟨p, l, d, d, l'⟩ :: h)
  back : ∀ {p h l l'}, l' ∈ prog.back p l → holds p l h → holds p l' h

section Local

variable {prog : Program P E L σ} {A : Local prog} {start : State P L σ → Prop}
  {tr : List (Exec P L σ)} {s : State P L σ}

/-- A process goes on to another label, and no other one does. -/
theorem Local.of_update {q : P} {l : L} {pc : P → L} {tr' : List (Exec P L σ)}
    (h : ∀ p, A.holds p (pc p) (own p tr)) (hq : A.holds q l (own q tr'))
    (hne : ∀ p, p ≠ q → own p tr' = own p tr) (p : P) :
    A.holds p (Function.update pc q l p) (own p tr') := by
  by_cases hp : p = q
  · subst hp
    simpa using hq
  · rw [Function.update_of_ne hp, hne p hp]
    exact h p

/-- A process executes an instruction. -/
theorem Local.of_exec {q : P} {l l' : L} {d d' : σ} {pc : P → L}
    (h : ∀ p, A.holds p (pc p) (own p tr))
    (hq : A.holds q l' (⟨q, l, d, d', l'⟩ :: own q tr)) (p : P) :
    A.holds p (Function.update pc q l' p) (own p (⟨q, l, d, d', l'⟩ :: tr)) := by
  have hself : own q (⟨q, l, d, d', l'⟩ :: tr) = ⟨q, l, d, d', l'⟩ :: own q tr :=
    own_cons_self ⟨q, l, d, d', l'⟩ tr
  refine Local.of_update (q := q) h (hself ▸ hq) (fun p hp => ?_) p
  exact own_cons_of_ne (Ne.symm hp) tr

/-- A local assertion holds along every run. -/
theorem Run.of_local (hstart : ∀ s, start s → ∀ p, A.holds p (s.pc p) [])
    (hr : Run prog start tr s) (p : P) : A.holds p (s.pc p) (own p tr) := by
  induction hr generalizing p with
  | @start s h => exact hstart s h p
  | @step tr es s s' e _ hs ih =>
    cases hs with
    | lock => exact ih p
    | @refuse q l _ hentry _ hl =>
      exact Local.of_update ih (A.refuse hentry hl (ih q)) (fun _ _ => rfl) p
    | @act q d l _ hcode => exact Local.of_exec ih (A.act hcode (ih q)) p
    | @signal q l cv _ hcode _ => exact Local.of_exec ih (A.signal hcode (ih q)) p
    | @broadcast q l _ hcode => exact Local.of_exec ih (A.broadcast hcode (ih q)) p
    | @wait q _ hcode =>
      have h := Local.of_exec ih (A.wait hcode (ih q)) p
      rwa [Function.update_eq_self] at h
    | @unlock q l _ hcode => exact Local.of_exec ih (A.unlock hcode (ih q)) p
    | wakeup => exact ih p
    | @resume q l _ _ hl => exact Local.of_update ih (A.back hl (ih q)) (fun _ _ => rfl) p

end Local

end Outline

end MojitoSys.Util.Monitor
