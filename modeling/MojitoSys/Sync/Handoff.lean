import MojitoSys.Sync.AtomicWait

/-!
# Exact handoff

The queue of a slot holds the records of the waits that sleep and are not marked, each under the
address of its call, in every interleaving of the calls. A wake therefore marks exactly the sleeping
waits on its address, or the first of them; a marked wait is out of the queue, so that no second
wake counts it, and it returns `0` even if its deadline has passed.

## Main definitions

* `AwInstr`: the instructions of the calls.
* `Ledger`: the queue against the set of the sleeping waits.
* `LinkedOn`, `Marks`, `Exact`: what one wake does.

## Main results

* `ledgerOutline`: the outline of the calls.
* `exact_handoff`: the wakes of every run of the table.
-/

namespace MojitoSys.Sync

open Util Util.Monitor

variable {P : Type*} [DecidableEq P]

/-! ### The instructions of the calls -/

/-- The record of a wait is written and linked. -/
def AwSlot.arm (d : AwSlot P) (me : P) (addr : Addr) : AwSlot P :=
  ({ d with
    addr := Function.update d.addr me addr
    woken := Function.update d.woken me false }).link me

/-- The instructions of the calls. -/
inductive AwInstr (mem : Memory) (me : P) (d : AwSlot P) :
    AwCall → AwLabel → Instr (AwSlot P) AwLabel → Prop
  | changed {addr : Addr} {expected : BitVec 32} {timed : Bool} (h : mem addr ≠ expected) :
      AwInstr mem me d (.wait addr expected timed) .check (.act d (.unlock none))
  | unchanged {addr : Addr} {expected : BitVec 32} {timed : Bool} (h : mem addr = expected) :
      AwInstr mem me d (.wait addr expected timed) .check (.act d .link)
  | arm {addr : Addr} {expected : BitVec 32} {timed : Bool} :
      AwInstr mem me d (.wait addr expected timed) .link (.act (d.arm me addr) .park)
  | park {addr : Addr} {expected : BitVec 32} {timed : Bool} :
      AwInstr mem me d (.wait addr expected timed) .park .wait
  | handed {addr : Addr} {expected : BitVec 32} {timed : Bool} {rc : Status}
      (h : d.woken me = true) :
      AwInstr mem me d (.wait addr expected timed) (.woke rc) (.act d (.unlock none))
  | leave {addr : Addr} {expected : BitVec 32} {timed : Bool} {rc : Status} {fuel : ℕ}
      {d' : AwSlot P} (h : d.woken me = false) (hd : d.unlink fuel me = some d') (hrc : rc ≠ none) :
      AwInstr mem me d (.wait addr expected timed) (.woke rc) (.act d' (.unlock rc))
  | again {addr : Addr} {expected : BitVec 32} {timed : Bool} {fuel : ℕ} {d' : AwSlot P}
      (h : d.woken me = false) (hd : d.unlink fuel me = some d') :
      AwInstr mem me d (.wait addr expected timed) (.woke none) (.act d' .check)
  | unlock {addr : Addr} {expected : BitVec 32} {timed : Bool} {rc : Status} :
      AwInstr mem me d (.wait addr expected timed) (.unlock rc) (.unlock (.done rc))
  | scan {addr : Addr} {all : Bool} {fuel n : ℕ} {d' : AwSlot P}
      (hd : d.wake fuel addr all = some (d', n)) :
      AwInstr mem me d (.wake addr all) .scan (.act d' (.notify n))
  | notify {addr : Addr} {all : Bool} {n : ℕ} (hn : 0 < n) :
      AwInstr mem me d (.wake addr all) (.notify n) (.broadcast (.unlockWake n))
  | silent {addr : Addr} {all : Bool} :
      AwInstr mem me d (.wake addr all) (.notify 0) (.act d (.unlockWake 0))
  | unlockWake {addr : Addr} {all : Bool} {n : ℕ} :
      AwInstr mem me d (.wake addr all) (.unlockWake n) (.unlock (.doneWake n))

/-- A place at which the record of a wait is linked, or was taken by a wake. -/
def AwLabel.queued : AwLabel → Prop
  | .park => True
  | .woke _ => True
  | _ => False

section Code

variable {call : P → AwCall} {me : P} {mem : Memory} {l : AwLabel} {d d' : AwSlot P}
  {i : Instr (AwSlot P) AwLabel}

theorem unlinkFrom_woken {fuel : ℕ} {pp : Link P}
    (hd : AwSlot.unlinkFrom me fuel pp d = some d') : d'.woken = d.woken := by
  induction fuel generalizing pp with
  | zero => simp [AwSlot.unlinkFrom] at hd
  | succ fuel ih =>
    unfold AwSlot.unlinkFrom at hd
    split at hd
    · rw [← Option.some.inj hd]
    · split_ifs at hd
      · rw [← Option.some.inj hd]
      · exact ih hd

/-- An instruction of a call is one of these. -/
theorem code_cases (h : (awProgram call).code me mem l d i) : AwInstr mem me d (call me) l i := by
  obtain ⟨fuel, h⟩ := h
  cases hc : call me with
  | wait addr expected timed =>
    rw [hc] at h
    cases l with
    | check =>
      simp only [awCode] at h
      split_ifs at h with hne
      · exact Option.some.inj h ▸ .changed hne
      · exact Option.some.inj h ▸ .unchanged (not_not.mp hne)
    | link => exact Option.some.inj h ▸ .arm
    | park => exact Option.some.inj h ▸ .park
    | woke rc =>
      simp only [awCode] at h
      by_cases hw : d.woken me = false
      · rw [if_pos hw] at h
        cases hd : d.unlink fuel me with
        | none => simp [hd] at h
        | some d₁ =>
          have hw₁ : d₁.woken me = false := (congrFun (unlinkFrom_woken hd) me).trans hw
          simp only [hd, Option.bind_eq_bind, Option.bind_some, hw₁, Bool.false_eq_true,
            if_false] at h
          split_ifs at h with hrc
          · exact Option.some.inj h ▸ .leave hw hd hrc
          · obtain rfl := not_not.mp hrc
            exact Option.some.inj h ▸ .again hw hd
      · have hw₁ : d.woken me = true := by simpa using hw
        simp only [hw₁, Bool.true_eq_false, if_false, Option.bind_eq_bind, Option.bind_some,
          if_true] at h
        exact Option.some.inj h ▸ .handed hw₁
    | unlock rc => exact Option.some.inj h ▸ .unlock
    | _ => simp [awCode] at h
  | wake addr all =>
    rw [hc] at h
    cases l with
    | scan =>
      simp only [awCode] at h
      cases hd : d.wake fuel addr all with
      | none => simp [hd] at h
      | some r =>
        simp only [hd, Option.bind_eq_bind, Option.bind_some] at h
        exact Option.some.inj h ▸ .scan hd
    | notify n =>
      simp only [awCode] at h
      split_ifs at h with hn
      · exact Option.some.inj h ▸ .notify hn
      · obtain rfl := Nat.eq_zero_of_not_pos hn
        exact Option.some.inj h ▸ .silent
    | unlockWake n => exact Option.some.inj h ▸ .unlockWake
    | _ => simp [awCode] at h

theorem not_signal {l' : AwLabel} : ¬ (awProgram call).code me mem l d (.signal l') := by
  intro hcode
  have hinstr := code_cases hcode
  generalize call me = c at hinstr
  cases hinstr

end Code

/-! ### The queue against the sleeping waits -/

/-- The queue holds the records of the sleeping waits that are not marked, each under the address
of its call. -/
structure Ledger (call : P → AwCall) (d : AwSlot P) (sleeps : P → Prop) : Prop where
  queue : ∃ ps, d.queue.Holds ps ∧ ∀ q, q ∈ ps ↔ sleeps q ∧ d.woken q = false
  key : ∀ {q}, sleeps q → ∃ expected timed, call q = .wait (d.addr q) expected timed

namespace Ledger

variable {call : P → AwCall} {d d' : AwSlot P} {sleeps sleeps' : P → Prop} {me : P} {fuel : ℕ}

omit [DecidableEq P] in
theorem congr (h : Ledger call d sleeps) (hs : ∀ q, sleeps' q ↔ sleeps q) :
    Ledger call d sleeps' := by
  obtain rfl : sleeps' = sleeps := funext fun q => propext (hs q)
  exact h

/-- A wait links its record. -/
theorem arm {addr : Addr} {expected : BitVec 32} {timed : Bool} (h : Ledger call d sleeps)
    (hme : ¬ sleeps me) (hc : call me = .wait addr expected timed) :
    Ledger call (d.arm me addr) fun q => sleeps q ∨ q = me := by
  obtain ⟨ps, hps, hmem⟩ := h.queue
  have hnot : me ∉ ps := fun hp => hme ((hmem me).mp hp).1
  refine ⟨⟨ps ++ [me], hps.append hnot, fun q => ?_⟩, fun {q} hq => ?_⟩
  · by_cases hq : q = me
    · subst hq
      simp [AwSlot.arm, AwSlot.link]
    · simp [AwSlot.arm, AwSlot.link, hmem, hq]
  · by_cases hqm : q = me
    · subst hqm
      exact ⟨expected, timed, by simpa [AwSlot.arm, AwSlot.link] using hc⟩
    · simpa [AwSlot.arm, AwSlot.link, hqm] using h.key (hq.resolve_right hqm)

omit [DecidableEq P] in
/-- A marked wait goes on. -/
theorem handed (h : Ledger call d sleeps) (hme : d.woken me = true) :
    Ledger call d fun q => sleeps q ∧ q ≠ me := by
  obtain ⟨ps, hps, hmem⟩ := h.queue
  refine ⟨⟨ps, hps, fun q => ?_⟩, fun hq => h.key hq.1⟩
  rw [hmem]
  refine ⟨fun hq => ⟨⟨hq.1, ?_⟩, hq.2⟩, fun hq => ⟨hq.1.1, hq.2⟩⟩
  rintro rfl
  exact absurd (hme.symm.trans hq.2) (by simp)

/-- A wait that is not marked unlinks its record. -/
theorem leave (h : Ledger call d sleeps) (hd : d.unlink fuel me = some d') :
    Ledger call d' fun q => sleeps q ∧ q ≠ me := by
  obtain ⟨ps, hps, hmem⟩ := h.queue
  obtain ⟨hq', haddr, hwoken, -⟩ := AwSlot.unlink_spec hps hd
  refine ⟨⟨ps.erase me, hq', fun q => ?_⟩, fun hq => haddr ▸ h.key hq.1⟩
  rw [hps.nodup.mem_erase_iff, hmem, hwoken]
  tauto

/-- A wake marks records. -/
theorem wake {addr : Addr} {all : Bool} {n : ℕ} (h : Ledger call d sleeps)
    (hd : d.wake fuel addr all = some (d', n)) : Ledger call d' sleeps := by
  obtain ⟨ps, hps, hmem⟩ := h.queue
  obtain ⟨hq', -, haddr, hwoken, -⟩ := AwSlot.wake_spec hps hd
  refine ⟨⟨_, hq', fun q => ?_⟩, fun hq => haddr ▸ h.key hq⟩
  have hperm := AwSlot.handOff_perm (d.addr · = addr) all ps
  have hnodup := List.nodup_append.mp (hperm.nodup_iff.mpr hps.nodup)
  have hmem' := (hperm.mem_iff (a := q)).symm.trans List.mem_append
  have hfalse : d'.woken q = false ↔ ¬ (q ∈ (AwSlot.handOff (d.addr · = addr) all ps).1 ∨
      d.woken q = true) := by
    rw [← hwoken, Bool.not_eq_true]
  rw [hfalse, not_or, Bool.not_eq_true]
  constructor
  · intro hq
    have hsleep := (hmem q).mp (hmem'.mpr (Or.inr hq))
    exact ⟨hsleep.1, fun hm => hnodup.2.2 q hm q hq rfl, hsleep.2⟩
  · rintro ⟨hsleep, hm, hw⟩
    exact (hmem'.mp ((hmem q).mpr ⟨hsleep, hw⟩)).resolve_left hm

end Ledger

/-! ### The outline of the calls -/

section Outline

variable {call : P → AwCall} {mem : Memory} {me : P} {l l' : AwLabel} {d d' : AwSlot P}
  {cv : Condvar P}

/-- No blocked wait is marked. -/
def Unmarked (d : AwSlot P) (cv : Condvar P) : Prop := ∀ q ∈ cv.blocked, d.woken q = false

theorem Unmarked.unlink (h : Unmarked d cv) {fuel : ℕ} (hd : d.unlink fuel me = some d') :
    Unmarked d' cv := by
  intro q hq
  rw [unlinkFrom_woken hd]
  exact h q hq

/-- The assertion for the holder of the mutex. -/
structure HeldSlot (call : P → AwCall) (me : P) (l : AwLabel) (d : AwSlot P) (cv : Condvar P) :
    Prop where
  ledger : Ledger call d fun q => cv.Waits q ∨ q = me ∧ l.queued
  /-- Between its marks and its broadcast a wake leaves marked waits blocked. -/
  blocked : Unmarked d cv ∨ ∃ n, 0 < n ∧ l = .notify n
  park : l = .park → d.woken me = false

omit [DecidableEq P] in
theorem HeldSlot.of_not_queued (hl : ¬ l.queued) (h : Ledger call d cv.Waits)
    (hb : Unmarked d cv ∨ ∃ n, 0 < n ∧ l = .notify n) : HeldSlot call me l d cv where
  ledger := h.congr fun q => by simp [hl]
  blocked := hb
  park hpark := absurd (by simp [hpark, AwLabel.queued]) hl

omit [DecidableEq P] in
theorem HeldSlot.of_queued (h : HeldSlot call me l d cv) (hl : ¬ l.queued) :
    Ledger call d cv.Waits :=
  h.ledger.congr fun q => by simp [hl]

omit [DecidableEq P] in
theorem HeldSlot.unmarked (h : HeldSlot call me l d cv) (hl : ∀ n, l ≠ .notify n) :
    Unmarked d cv :=
  h.blocked.resolve_right fun ⟨n, _, hn⟩ => hl n hn

theorem HeldSlot.act (h : HeldSlot call me l d cv) (hme : ¬ cv.Waits me)
    (hcode : (awProgram call).code me mem l d (.act d' l')) : HeldSlot call me l' d' cv := by
  have hwaits : ∀ q, cv.Waits q → q ≠ me := by
    rintro q hq rfl
    exact hme hq
  have hgone : ∀ q, cv.Waits q ↔ (cv.Waits q ∨ q = me ∧ True) ∧ q ≠ me := by
    intro q
    refine ⟨fun hq => ⟨Or.inl hq, hwaits q hq⟩, fun hq => hq.1.resolve_right fun hqm => ?_⟩
    exact hq.2 hqm.1
  generalize hi : Instr.act d' l' = i at hcode
  have hinstr := code_cases hcode
  generalize hc : call me = c at hinstr
  cases hinstr with
  | changed =>
    obtain ⟨rfl, rfl⟩ := Instr.act.inj hi
    exact .of_not_queued id (h.of_queued id) (Or.inl (h.unmarked (by simp)))
  | unchanged =>
    obtain ⟨rfl, rfl⟩ := Instr.act.inj hi
    exact .of_not_queued id (h.of_queued id) (Or.inl (h.unmarked (by simp)))
  | @arm addr expected timed =>
    obtain ⟨rfl, rfl⟩ := Instr.act.inj hi
    refine ⟨?_, Or.inl fun q hq => ?_, fun _ => by simp [AwSlot.arm, AwSlot.link]⟩
    · exact ((h.of_queued id).arm hme hc).congr fun q => by simp [AwLabel.queued]
    · have hne := hwaits q (Or.inl hq)
      simpa [AwSlot.arm, AwSlot.link, hne] using h.unmarked (by simp) q hq
  | park => simp at hi
  | handed hw =>
    obtain ⟨rfl, rfl⟩ := Instr.act.inj hi
    exact .of_not_queued id ((h.ledger.handed hw).congr hgone) (Or.inl (h.unmarked (by simp)))
  | leave hw hd =>
    obtain ⟨rfl, rfl⟩ := Instr.act.inj hi
    have hun := (h.unmarked (by simp)).unlink hd
    exact .of_not_queued id ((h.ledger.leave hd).congr hgone) (Or.inl hun)
  | again hw hd =>
    obtain ⟨rfl, rfl⟩ := Instr.act.inj hi
    have hun := (h.unmarked (by simp)).unlink hd
    exact .of_not_queued id ((h.ledger.leave hd).congr hgone) (Or.inl hun)
  | unlock => simp at hi
  | @scan addr all fuel n d₁ hd =>
    obtain ⟨rfl, rfl⟩ := Instr.act.inj hi
    refine .of_not_queued id ((h.of_queued id).wake hd) ?_
    obtain ⟨ps, hps, -⟩ := h.ledger.queue
    obtain ⟨-, rfl, -, hwoken, -⟩ := AwSlot.wake_spec hps hd
    rcases Nat.eq_zero_or_pos (AwSlot.handOff (d.addr · = addr) all ps).1.length with hn | hn
    · refine Or.inl fun q hq => ?_
      rw [List.length_eq_zero_iff] at hn
      rw [← Bool.not_eq_true, hwoken, hn]
      simpa using h.unmarked (by simp) q hq
    · exact Or.inr ⟨_, hn, rfl⟩
  | notify => simp at hi
  | silent =>
    obtain ⟨rfl, rfl⟩ := Instr.act.inj hi
    refine .of_not_queued id (h.of_queued id) (Or.inl ?_)
    exact h.blocked.resolve_right (by simp)
  | unlockWake => simp at hi

/-- The outline of the calls. -/
def ledgerOutline (call : P → AwCall) : Outline (awProgram call) where
  free _ d cv := Ledger call d cv.Waits ∧ Unmarked d cv
  held _ me l d cv := HeldSlot call me l d cv
  lock hentry _ h := by
    refine .of_not_queued ?_ h.1 (Or.inl h.2)
    rcases hentry with rfl | rfl <;> exact id
  act hcode hme h := h.act hme hcode
  signal hcode := absurd hcode not_signal
  broadcast {_ _ cv p l _ _} hcode h := by
    have hblocked : cv.broadcast.blocked = ∅ := by simp [Condvar.broadcast, Condvar.notify]
    have hinstr := code_cases hcode
    generalize call p = c at hinstr
    cases hinstr with
    | notify =>
      refine .of_not_queued id ((h.of_queued id).congr fun q => Condvar.waits_notify) (Or.inl ?_)
      intro q hq
      simp [hblocked] at hq
  wait {_ d cv p l _} hcode hme h := by
    have hinstr := code_cases hcode
    generalize call p = c at hinstr
    cases hinstr with
    | park =>
      refine ⟨h.ledger.congr fun q => ?_, fun q hq => ?_⟩
      · rw [Condvar.waits_park]
        simp [AwLabel.queued, or_comm]
      · rcases Finset.mem_insert.mp hq with rfl | hq
        · exact h.park rfl
        · exact h.unmarked (by simp) q hq
  unlock {_ _ cv p l _ _} hcode _ h := by
    have hinstr := code_cases hcode
    generalize call p = c at hinstr
    cases hinstr with
    | unlock => exact ⟨h.of_queued id, h.unmarked (by simp)⟩
    | unlockWake => exact ⟨h.of_queued id, h.unmarked (by simp)⟩
  resume {_ d cv p l l'} hback hp h := by
    cases l with
    | park =>
      obtain ⟨rc, rfl, -⟩ := hback
      refine ⟨h.1.congr fun q => ?_, Or.inl h.2, by simp⟩
      rw [Condvar.waits_retire hp]
      by_cases hq : q = p
      · simp [hq, AwLabel.queued, Condvar.Waits, hp]
      · simp [hq]
    | _ => exact absurd hback (Set.notMem_empty _)
  wakeup_free hp h :=
    ⟨h.1.congr fun _ => Condvar.waits_notify, fun q hq => h.2 q (Finset.mem_sdiff.mp hq).1⟩
  wakeup_held hp h :=
    ⟨h.ledger.congr fun _ => or_congr_left Condvar.waits_notify,
      h.blocked.imp_left fun hb q hq => hb q (Finset.mem_sdiff.mp hq).1, h.park⟩

/-- The lock regions of the calls. -/
def awRegions (call : P → AwCall) : Regions (awProgram call) where
  held := {l | l = .link ∨ ∃ rc, l = .woke rc}
  parked := {.park}
  refuse := by
    rintro l l' - ⟨rc, -, rfl⟩
    simp
  wait {p e l d} hcode := by
    have hinstr := code_cases hcode
    generalize call p = c at hinstr
    cases hinstr
    simp
  unlock {p e l d l'} hcode := by
    have hinstr := code_cases hcode
    generalize call p = c at hinstr
    cases hinstr <;> simp

variable {initRc : Status} {i : ℕ} {s : State P AwLabel (AwSlot P)}
  {tr : List (Exec P AwLabel (AwSlot P))}

omit [DecidableEq P] in
theorem awStart_cases (initRc : Status) (i : ℕ) (c : AwCall) :
    awStart initRc i c = .absent ∨ (∃ rc, rc ≠ none ∧ awStart initRc i c = .done rc) ∨
      (∃ addr expected timed, c = .wait addr expected timed ∧ awStart initRc i c = .check) ∨
      ∃ addr all, c = .wake addr all ∧ awStart initRc i c = .scan := by
  unfold awStart
  split_ifs with hnull hrc hslot
  · exact Or.inr (Or.inl ⟨_, by simp, rfl⟩)
  · exact Or.inr (Or.inl ⟨_, hrc, rfl⟩)
  · exact Or.inl rfl
  · cases c with
    | wait addr expected timed => exact Or.inr (Or.inr (Or.inl ⟨_, _, _, rfl, rfl⟩))
    | wake addr all => exact Or.inr (Or.inr (Or.inr ⟨_, _, rfl, rfl⟩))

theorem slot_holds (hr : Run (awProgram call) (SlotStart initRc call i) tr s) :
    (ledgerOutline call).Holds tr s := by
  refine Outline.run
    (fun s hs => ⟨hs.owner, ⟨⟨[], hs.queue, fun q => ?_⟩, fun {q} hq => ?_⟩, ?_⟩) hr
  · simp [hs.cv, Condvar.Waits, Condvar.empty]
  · simp [hs.cv, Condvar.Waits, Condvar.empty] at hq
  · intro q hq
    simp [hs.cv, Condvar.empty] at hq

theorem slot_placed (hr : Run (awProgram call) (SlotStart initRc call i) tr s) :
    (awRegions call).Placed s := by
  refine Regions.placed (fun s hs => ?_) hr
  have hpc : ∀ q, s.pc q ∉ (awRegions call).held ∧ s.pc q ∉ (awRegions call).parked := by
    intro q
    rw [hs.pc]
    rcases awStart_cases initRc i (call q) with h | ⟨_, -, h⟩ |
      ⟨_, _, _, -, h⟩ | ⟨_, _, -, h⟩ <;> simp [awRegions, h]
  refine ⟨fun hq => ?_, fun hq => ?_, fun hq => absurd hq (hpc _).1, fun hq => absurd hq (hpc _).2⟩
  · simp [hs.owner] at hq
  · simp [hs.cv, Condvar.Waits, Condvar.empty] at hq

/-- The linked records belong to waits that sleep and are not marked. -/
theorem slot_linked (hr : Run (awProgram call) (SlotStart initRc call i) tr s) {p : P}
    (hp : s.data.queue.Linked p) : (s.pc p).queued ∧ s.data.woken p = false := by
  have hwaits : s.cv.Waits p → (s.pc p).queued := by
    intro hw
    have hpark : s.pc p = .park := (slot_placed hr).waits hw
    simp [hpark, AwLabel.queued]
  cases hown : s.owner with
  | none =>
    obtain ⟨ps, hps, hmem⟩ := ((slot_holds hr).free hown).1.queue
    exact ((hmem p).mp (hps.linked_iff.mp hp)).imp_left hwaits
  | some me =>
    obtain ⟨ps, hps, hmem⟩ := ((slot_holds hr).held me hown).ledger.queue
    refine ((hmem p).mp (hps.linked_iff.mp hp)).imp_left fun hsleep => hsleep.elim hwaits ?_
    rintro ⟨rfl, hqueued⟩
    exact hqueued

/-- The walks over the queue end: a wake finishes its scan, and a wait goes on when the condition
variable returned. -/
theorem walk_ends (hr : Run (awProgram call) (SlotStart initRc call i) tr s) {p : P}
    (hown : s.owner = some p) (mem : Memory) :
    (∀ addr all, call p = .wake addr all → s.pc p = .scan →
      ∃ d' n, (awProgram call).code p mem .scan s.data (.act d' (.notify n))) ∧
      ∀ addr expected timed rc, call p = .wait addr expected timed → s.pc p = .woke rc →
        ∃ d' l', (awProgram call).code p mem (.woke rc) s.data (.act d' l') := by
  obtain ⟨ps, hps, -⟩ := ((slot_holds hr).held p hown).ledger.queue
  refine ⟨fun addr all hp _ => ?_, fun addr expected timed rc hp _ => ?_⟩
  · obtain ⟨fuel, ⟨d', n⟩, hd⟩ := AwSlot.exists_wake hps addr all
    exact ⟨d', n, fuel, by simp [hp, awCode, hd]⟩
  · obtain ⟨fuel, d', hd⟩ := AwSlot.exists_unlink hps p
    by_cases hw : s.data.woken p = true
    · exact ⟨s.data, .unlock none, fuel, by simp [hp, awCode, hw]⟩
    · have hw' : d'.woken p = false := by
        rw [unlinkFrom_woken hd]
        simpa using hw
      by_cases hrc : rc = none
      · exact ⟨d', .check, fuel, by simp [hp, awCode, hw, hd, hw', hrc]⟩
      · exact ⟨d', .unlock rc, fuel, by simp [hp, awCode, hw, hd, hw', hrc]⟩

end Outline

/-! ### What one wake does -/

/-- The record of a wait is linked, under this address. -/
def LinkedOn (d : AwSlot P) (addr : Addr) (p : P) : Prop := d.queue.Linked p ∧ d.addr p = addr

/-- The instruction is the scan of a wake that marks the record of a wait. -/
def Marks (x : Exec P AwLabel (AwSlot P)) (p : P) : Prop :=
  x.label = .scan ∧ x.pre.woken p = false ∧ x.post.woken p = true

/-- The scan of a wake hands off exactly: `ms` are the waits that it marks. -/
structure Exact (call : P → AwCall) (x : Exec P AwLabel (AwSlot P)) (addr : Addr) (all : Bool)
    (ms : List P) : Prop where
  waker : call x.proc = .wake addr all
  nodup : ms.Nodup
  mem : ∀ p, p ∈ ms ↔ Marks x p
  /-- The number that the wake is going to return. -/
  count : x.next = .notify ms.length
  linked : ∀ p ∈ ms, LinkedOn x.pre addr p
  wait : ∀ p, LinkedOn x.pre addr p → ∃ expected timed, call p = .wait addr expected timed
  one : all = false → ms.length ≤ 1 ∧ ((∃ p, LinkedOn x.pre addr p) → ms.length = 1)
  every : all = true → ∀ p, LinkedOn x.pre addr p → p ∈ ms
  /-- The marked waits are out of the queue. -/
  taken : ∀ p ∈ ms, ¬ x.post.queue.Linked p
  /-- Everybody else stays in the queue. -/
  kept : ∀ p, x.pre.queue.Linked p → p ∉ ms → x.post.queue.Linked p ∧ x.post.woken p = false ∧
    x.post.addr p = x.pre.addr p

section Exact

variable {call : P → AwCall} {mem : Memory} {me : P} {d d' : AwSlot P} {sleeps : P → Prop}
  {addr : Addr} {all : Bool} {fuel n : ℕ}

theorem Ledger.exact (h : Ledger call d sleeps) (hc : call me = .wake addr all)
    (hd : d.wake fuel addr all = some (d', n)) :
    ∃ ms, Exact call ⟨me, .scan, d, d', .notify n⟩ addr all ms ∧
      ∀ p ∈ ms, sleeps p := by
  obtain ⟨ps, hps, hmem⟩ := h.queue
  obtain ⟨hq', rfl, haddr, hwoken, -⟩ := AwSlot.wake_spec hps hd
  set ms := (AwSlot.handOff (d.addr · = addr) all ps).1 with hms
  have hperm := AwSlot.handOff_perm (d.addr · = addr) all ps
  have hnodup := List.nodup_append.mp (hperm.nodup_iff.mpr hps.nodup)
  have hsub : ∀ p ∈ ms, p ∈ ps := fun p hp => hperm.mem_iff.mp (List.mem_append_left _ hp)
  have hsel : ∀ p ∈ ms, d.addr p = addr := fun p hp =>
    AwSlot.sel_of_mem_handOff (d.addr · = addr) hp
  have hmarks : ∀ p, p ∈ ms ↔ Marks ⟨me, .scan, d, d', .notify ms.length⟩ p := by
    intro p
    constructor
    · exact fun hp => ⟨rfl, ((hmem p).mp (hsub p hp)).2, (hwoken p).mpr (Or.inl hp)⟩
    · rintro ⟨-, hfalse, htrue⟩
      exact ((hwoken p).mp htrue).resolve_right (by simp [show d.woken p = false from hfalse])
  refine ⟨ms, ⟨hc, hnodup.1, hmarks, rfl, fun p hp => ?_, fun p hp => ?_, ?_, ?_, fun p hp => ?_,
    fun p hp hnot => ?_⟩, fun p hp => ((hmem p).mp (hsub p hp)).1⟩
  · exact ⟨hps.linked_iff.mpr (hsub p hp), hsel p hp⟩
  · exact hp.2 ▸ h.key ((hmem p).mp (hps.linked_iff.mp hp.1)).1
  · rintro rfl
    refine ⟨AwSlot.length_handOff_le, fun ⟨p, hp, ha⟩ => le_antisymm AwSlot.length_handOff_le ?_⟩
    exact AwSlot.length_handOff_pos (hps.linked_iff.mp hp) ha
  · rintro rfl p ⟨hp, ha⟩
    refine (List.mem_append.mp (hperm.mem_iff.mpr (hps.linked_iff.mp hp))).resolve_right ?_
    exact fun hrest => AwSlot.not_sel_of_mem_rest (d.addr · = addr) hrest ha
  · rw [hq'.linked_iff]
    exact fun hrest => hnodup.2.2 p hp p hrest rfl
  · have hp' := hps.linked_iff.mp hp
    have hrest := (List.mem_append.mp (hperm.mem_iff.mpr hp')).resolve_left hnot
    refine ⟨hq'.linked_iff.mpr hrest, ?_, congrFun haddr p⟩
    rw [← Bool.not_eq_true, hwoken]
    simp [hnot, ((hmem p).mp hp').2]

end Exact

/-! ### The wakes of a run -/

section Wakes

variable {call : P → AwCall} {initRc : Status} {i : ℕ} {s s' : State P AwLabel (AwSlot P)}
  {tr es : List (Exec P AwLabel (AwSlot P))} {mem : Memory}

/-- Some wake marked the record of the wait. -/
def Marked (tr : List (Exec P AwLabel (AwSlot P))) (p : P) : Prop := ∃ x ∈ tr, Marks x p

/-- The places of a marked wait. -/
def AwLabel.handed (l : AwLabel) : Prop := l.queued ∨ l = .unlock none ∨ l = .done none

/-- The wakes of a trace hand off exactly, no wait is marked twice, and a marked wait is on its
way to return `0`. -/
structure Wakes (call : P → AwCall) (tr : List (Exec P AwLabel (AwSlot P)))
    (s : State P AwLabel (AwSlot P)) : Prop where
  exact : ∀ x ∈ tr, x.label = .scan → ∃ addr all ms, Exact call x addr all ms
  disjoint : tr.Pairwise fun x y => ∀ p, Marks x p → ¬ Marks y p
  handed : ∀ p, Marked tr p → s.data.woken p = true ∧ (s.pc p).handed

omit [DecidableEq P] in
theorem Wakes.of_not_scan (h : Wakes call tr s) (es : List (Exec P AwLabel (AwSlot P)))
    (hes : ∀ x ∈ es, x.label ≠ .scan)
    (hs : ∀ p, s.data.woken p = true → (s.pc p).handed →
      s'.data.woken p = true ∧ (s'.pc p).handed) : Wakes call (es ++ tr) s' := by
  refine ⟨fun x hx hscan => ?_, List.pairwise_append.mpr ⟨?_, h.disjoint, ?_⟩, fun p hp => ?_⟩
  · rcases List.mem_append.mp hx with hx | hx
    · exact absurd hscan (hes x hx)
    · exact h.exact x hx hscan
  · exact List.Pairwise.imp_of_mem (fun {x y} hx _ _ p hm => absurd hm.1 (hes x hx))
      (List.pairwise_of_forall fun x y => (trivial : True))
  · exact fun x hx y _ p hm => absurd hm.1 (hes x hx)
  · obtain ⟨x, hx, hm⟩ := hp
    rcases List.mem_append.mp hx with hx | hx
    · exact absurd hm.1 (hes x hx)
    · obtain ⟨hw, hh⟩ := h.handed p ⟨x, hx, hm⟩
      exact hs p hw hh

theorem handed_update {pc : P → AwLabel} {me p : P} {l' : AwLabel} (h : (pc p).handed)
    (hme : (pc me).handed → l'.handed) : (Function.update pc me l' p).handed := by
  by_cases hp : p = me
  · subst hp
    simpa using hme h
  · simpa [Function.update_of_ne hp] using h

/-- A wake hands off. -/
theorem Wakes.scan (h : Wakes call tr s) {me : P} {addr : Addr} {all : Bool} {ms : List P}
    {d' : AwSlot P} {n : ℕ} (hpc : s.pc me = .scan)
    (hx : Exact call ⟨me, .scan, s.data, d', .notify n⟩ addr all ms)
    (hms : ∀ p ∈ ms, (s.pc p).handed)
    (hwoken : ∀ p, s.data.woken p = true → d'.woken p = true) :
    Wakes call (⟨me, .scan, s.data, d', .notify n⟩ :: tr)
      { s with data := d', pc := Function.update s.pc me (.notify n) } := by
  have hme : ∀ {l' : AwLabel}, (s.pc me).handed → l'.handed := by
    intro l' hh
    rw [hpc] at hh
    simp [AwLabel.handed, AwLabel.queued] at hh
  refine ⟨fun x hmem hscan => ?_, List.pairwise_cons.mpr ⟨fun y hy p hm hm' => ?_, h.disjoint⟩,
    fun p hp => ?_⟩
  · rcases List.mem_cons.mp hmem with rfl | hmem
    · exact ⟨addr, all, ms, hx⟩
    · exact h.exact x hmem hscan
  · have hw := (h.handed p ⟨y, hy, hm'⟩).1
    exact absurd (hw.symm.trans hm.2.1) (by simp)
  · obtain ⟨x, hmem, hm⟩ := hp
    rcases List.mem_cons.mp hmem with rfl | hmem
    · exact ⟨hm.2.2, handed_update (hms p ((hx.mem p).mpr hm)) hme⟩
    · obtain ⟨hw, hh⟩ := h.handed p ⟨x, hmem, hm⟩
      exact ⟨hwoken p hw, handed_update hh hme⟩

/-- A wait that was not marked unlinks itself. -/
theorem Wakes.unlink (h : Wakes call tr s) {me : P} {fuel : ℕ} {d' : AwSlot P} {l l' : AwLabel}
    (hfalse : s.data.woken me = false) (hd : s.data.unlink fuel me = some d') (hl : l ≠ .scan) :
    Wakes call (⟨me, l, s.data, d', l'⟩ :: tr)
      { s with data := d', pc := Function.update s.pc me l' } := by
  refine h.of_not_scan [_] (by simp [hl]) fun p hw hh => ?_
  have hp : p ≠ me := by
    rintro rfl
    exact absurd (hw.symm.trans hfalse) (by simp)
  exact ⟨(congrFun (unlinkFrom_woken hd) p).trans hw, by simpa [Function.update_of_ne hp] using hh⟩

theorem Wakes.act (h : Wakes call tr s) (hO : (ledgerOutline call).Holds tr s)
    (hR : (awRegions call).Placed s) {me : P} {d' : AwSlot P} {l' : AwLabel}
    (hown : s.owner = some me)
    (hcode : (awProgram call).code me mem (s.pc me) s.data (.act d' l')) :
    Wakes call (⟨me, s.pc me, s.data, d', l'⟩ :: tr)
      { s with data := d', pc := Function.update s.pc me l' } := by
  have hheld := hO.held me hown
  generalize hi : Instr.act d' l' = i at hcode
  have hinstr := code_cases hcode
  generalize hc : call me = c at hinstr
  generalize hl : s.pc me = l at hinstr hheld ⊢
  have hskip : ¬ l.handed → (s.pc me).handed → l'.handed := by
    rw [hl]
    exact fun hn hh => absurd hh hn
  cases hinstr with
  | changed =>
    obtain ⟨rfl, rfl⟩ := Instr.act.inj hi
    refine h.of_not_scan [_] (by simp) fun p hw hh => ⟨hw, handed_update hh (hskip ?_)⟩
    simp [AwLabel.handed, AwLabel.queued]
  | unchanged =>
    obtain ⟨rfl, rfl⟩ := Instr.act.inj hi
    refine h.of_not_scan [_] (by simp) fun p hw hh => ⟨hw, handed_update hh (hskip ?_)⟩
    simp [AwLabel.handed, AwLabel.queued]
  | arm =>
    obtain ⟨rfl, rfl⟩ := Instr.act.inj hi
    have hlink : ¬ AwLabel.link.handed := by simp [AwLabel.handed, AwLabel.queued]
    refine h.of_not_scan [_] (by simp) fun p hw hh => ⟨?_, handed_update hh (hskip hlink)⟩
    have hp : p ≠ me := by
      rintro rfl
      exact hlink (hl ▸ hh)
    simpa [AwSlot.arm, AwSlot.link, hp] using hw
  | park => simp at hi
  | handed =>
    obtain ⟨rfl, rfl⟩ := Instr.act.inj hi
    refine h.of_not_scan [_] (by simp) fun p hw hh => ⟨hw, handed_update hh fun _ => ?_⟩
    exact Or.inr (Or.inl rfl)
  | leave hfalse hd =>
    obtain ⟨rfl, rfl⟩ := Instr.act.inj hi
    exact h.unlink hfalse hd (by simp)
  | again hfalse hd =>
    obtain ⟨rfl, rfl⟩ := Instr.act.inj hi
    exact h.unlink hfalse hd (by simp)
  | unlock => simp at hi
  | scan hd =>
    obtain ⟨rfl, rfl⟩ := Instr.act.inj hi
    obtain ⟨ms, hx, hms⟩ := hheld.ledger.exact hc hd
    obtain ⟨ps, hps, -⟩ := hheld.ledger.queue
    refine h.scan hl hx (fun p hp => ?_) fun p hw => ?_
    · have hwaits := (hms p hp).resolve_right fun hq => hq.2
      have hpark : s.pc p = .park := hR.waits hwaits
      exact Or.inl (by simp [hpark, AwLabel.queued])
    · exact ((AwSlot.wake_spec hps hd).2.2.2.1 p).mpr (Or.inr hw)
  | notify => simp at hi
  | silent =>
    obtain ⟨rfl, rfl⟩ := Instr.act.inj hi
    refine h.of_not_scan [_] (by simp) fun p hw hh => ⟨hw, handed_update hh (hskip ?_)⟩
    simp [AwLabel.handed, AwLabel.queued]
  | unlockWake => simp at hi

theorem Wakes.step (h : Wakes call tr s) (hO : (ledgerOutline call).Holds tr s)
    (hR : (awRegions call).Placed s) (hs : Step (awProgram call) mem s es s') :
    Wakes call (es ++ tr) s' := by
  cases hs with
  | lock => exact h.of_not_scan [] (by simp) fun p hw hh => ⟨hw, hh⟩
  | @refuse p l hown hentry hp hl =>
    refine h.of_not_scan [] (by simp) fun q hw hh => ⟨hw, handed_update hh fun hme => ?_⟩
    obtain hentry | hentry : s.pc p = .check ∨ s.pc p = .scan := hentry
    · simp [hentry, AwLabel.handed, AwLabel.queued] at hme
    · simp [hentry, AwLabel.handed, AwLabel.queued] at hme
  | act hown hcode => exact h.act hO hR hown hcode
  | signal hown hcode hcv => exact absurd hcode not_signal
  | @broadcast p l hown hcode =>
    have hinstr := code_cases hcode
    generalize call p = c at hinstr
    generalize hl : s.pc p = l' at hinstr ⊢
    cases hinstr with
    | notify =>
      refine h.of_not_scan [_] (by simp) fun q hw hh => ⟨hw, handed_update hh fun hme => ?_⟩
      simp [hl, AwLabel.handed, AwLabel.queued] at hme
  | @wait p hown hcode =>
    have hinstr := code_cases hcode
    generalize call p = c at hinstr
    generalize s.pc p = l' at hinstr ⊢
    cases hinstr
    exact h.of_not_scan [_] (by simp) fun q hw hh => ⟨hw, hh⟩
  | @unlock p l hown hcode =>
    have hinstr := code_cases hcode
    generalize call p = c at hinstr
    generalize hl : s.pc p = l' at hinstr ⊢
    cases hinstr with
    | unlock =>
      refine h.of_not_scan [_] (by simp) fun q hw hh => ⟨hw, handed_update hh fun hme => ?_⟩
      simpa [hl, AwLabel.handed, AwLabel.queued] using hme
    | unlockWake =>
      refine h.of_not_scan [_] (by simp) fun q hw hh => ⟨hw, handed_update hh fun hme => ?_⟩
      simp [hl, AwLabel.handed, AwLabel.queued] at hme
  | wakeup => exact h.of_not_scan [] (by simp) fun p hw hh => ⟨hw, hh⟩
  | @resume p l hfree hp hl =>
    have hpark : s.pc p = .park := hR.waits (Or.inr hp)
    rw [hpark] at hl
    obtain ⟨rc, rfl, -⟩ := hl
    refine h.of_not_scan [] (by simp) fun q hw hh => ⟨hw, handed_update hh fun _ => ?_⟩
    exact Or.inl trivial

/-- The wakes of every run of a slot. -/
theorem slot_wakes (hr : Run (awProgram call) (SlotStart initRc call i) tr s) :
    Wakes call tr s := by
  induction hr with
  | start h => exact ⟨by simp, List.Pairwise.nil, fun p ⟨x, hx, _⟩ => absurd hx (by simp)⟩
  | step hr hs ih => exact ih.step (slot_holds hr) (slot_placed hr) hs

/-- The scans among the instructions of a call. -/
def scans (tr : List (Exec P AwLabel (AwSlot P))) : List (Exec P AwLabel (AwSlot P)) :=
  tr.filter fun x => x.label = .scan

/-- A wake scans once, and returns what it counted. -/
def scanLocal (call : P → AwCall) : Local (awProgram call) where
  holds _ l h :=
    (l = .scan → scans h = []) ∧
      ∀ n, l = .notify n ∨ l = .unlockWake n ∨ l = .doneWake n →
        ∃ x, scans h = [x] ∧ x.next = .notify n
  refuse := by
    rintro p h l l' - ⟨rc, -, rfl⟩ -
    simp
  act {p h e l d d' l'} hcode hh := by
    generalize hi : Instr.act d' l' = i at hcode
    have hinstr := code_cases hcode
    generalize call p = c at hinstr
    cases hinstr with
    | scan =>
      obtain ⟨rfl, rfl⟩ := Instr.act.inj hi
      simp [scans, show h.filter (fun x => x.label = .scan) = [] from hh.1 rfl]
    | silent =>
      obtain ⟨rfl, rfl⟩ := Instr.act.inj hi
      simpa [scans] using hh.2 0 (Or.inl rfl)
    | _ => simp_all
  signal hcode := absurd hcode not_signal
  broadcast {p h e l d l'} hcode hh := by
    have hinstr := code_cases hcode
    generalize call p = c at hinstr
    cases hinstr with
    | @notify _ _ n => simpa [scans] using hh.2 n (Or.inl rfl)
  wait {p h e l d} hcode hh := by
    have hinstr := code_cases hcode
    generalize call p = c at hinstr
    cases hinstr
    simp
  unlock {p h e l d l'} hcode hh := by
    have hinstr := code_cases hcode
    generalize call p = c at hinstr
    cases hinstr with
    | unlock => simp
    | @unlockWake _ _ n => simpa [scans] using hh.2 n (Or.inr (Or.inl rfl))
  back {p h l l'} hback _ := by
    cases l with
    | park =>
      obtain ⟨rc, rfl, -⟩ := hback
      simp
    | _ => exact absurd hback (Set.notMem_empty _)

theorem scans_of_doneWake (hr : Run (awProgram call) (SlotStart initRc call i) tr s) {q : P} {n : ℕ}
    (hq : s.pc q = .doneWake n) : ∃ x, scans (own q tr) = [x] ∧ x.next = .notify n := by
  have h := Run.of_local (A := scanLocal call) (fun s hs p => ?_) hr q
  · exact h.2 n (by simp [hq])
  · rw [hs.pc]
    refine ⟨fun _ => rfl, fun n hn => ?_⟩
    rcases awStart_cases initRc i (call p) with h | ⟨_, -, h⟩ | ⟨_, _, _, -, h⟩ | ⟨_, _, -, h⟩ <;>
      simp [h] at hn

variable {trs : ℕ → List (Exec P AwLabel (AwSlot P))} {t : AwTable P}

/-- The wakes of every run of the table, in every slot. The scan of a wake ends, and a wake that
returned `n` scanned once and marked `n` waits, exactly as `Exact` says. No wait is marked by two
wakes, and a marked wait returns nothing but `0`. -/
theorem exact_handoff (h : TableRun initRc call trs t) (i : ℕ) :
    (∀ q addr all mem, (t.slot i).owner = some q → call q = .wake addr all →
      (t.slot i).pc q = .scan →
        ∃ d' n, (awProgram call).code q mem .scan (t.slot i).data (.act d' (.notify n))) ∧
      (∀ q n, (t.slot i).pc q = .doneWake n → ∃ x addr all ms,
        scans (own q (trs i)) = [x] ∧ Exact call x addr all ms ∧ n = ms.length) ∧
      (∀ x ∈ trs i, x.label = .scan → ∃ addr all ms, Exact call x addr all ms) ∧
      ((trs i).Pairwise fun x y => ∀ p, Marks x p → ¬ Marks y p) ∧
      ∀ p rc, Marked (trs i) p → (t.slot i).pc p = .done rc → rc = none := by
  have hr := h.slot i
  have hwakes := slot_wakes hr
  refine ⟨fun q addr all mem hown hq hpc => ?_, fun q n hq => ?_, hwakes.exact, hwakes.disjoint,
    fun p rc hp hpc => ?_⟩
  · exact (walk_ends hr hown mem).1 addr all hq hpc
  · obtain ⟨x, hx, hnext⟩ := scans_of_doneWake hr hq
    have hmem : x ∈ trs i ∧ x.label = .scan := by
      have hx' : x ∈ scans (own q (trs i)) := hx ▸ List.mem_singleton_self x
      simp only [scans, own, List.mem_filter, decide_eq_true_eq] at hx'
      exact ⟨hx'.1.1, hx'.2⟩
    obtain ⟨addr, all, ms, hexact⟩ := hwakes.exact x hmem.1 hmem.2
    refine ⟨x, addr, all, ms, hx, hexact, ?_⟩
    simpa using hnext.symm.trans hexact.count
  · obtain ⟨-, hh⟩ := hwakes.handed p hp
    simpa [hpc, AwLabel.handed, AwLabel.queued] using hh

end Wakes

/-! ### A wait past its deadline -/

/-- A bounded wait on the word at `4`, and a `wake_one` there. -/
def waitAndWake (p : Bool) : AwCall := if p then .wake 4 false else .wait 4 0 true

/-- The table at the start. -/
def quietTable {P : Type*} (call : P → AwCall) : AwTable P where
  mem _ := 0
  slot i :=
    { data := ⟨⟨none, .head, fun _ => none⟩, fun _ => 0, fun _ => false, fun _ => false⟩
      owner := none
      cv := .empty
      pc := fun p => awStart none i (call p) }

theorem tableRun_quietTable {P : Type*} [DecidableEq P] (call : P → AwCall) :
    TableRun none call (fun _ => []) (quietTable call) :=
  .start fun _ => ⟨⟨trivial, rfl, rfl, List.nodup_nil⟩, rfl, rfl, fun _ => rfl⟩

theorem run_waitAndWake : ∃ tr t, TableRun none waitAndWake tr t ∧
    (t.slot (slotFor 4)).pc true = .doneWake 1 ∧ (t.slot (slotFor 4)).pc false = .done none := by
  have h := tableRun_quietTable waitAndWake
  have h := h.step (.slot (i := slotFor 4) (.lock (p := false) rfl (Or.inl rfl) (by decide)))
  have h := h.step (.slot (i := slotFor 4) (.act (p := false) rfl ⟨0, rfl⟩))
  have h := h.step (.slot (i := slotFor 4) (.act (p := false) rfl ⟨0, rfl⟩))
  have h := h.step (.slot (i := slotFor 4) (.wait (p := false) rfl ⟨0, rfl⟩))
  have h := h.step (.slot (i := slotFor 4) (.lock (p := true) rfl (Or.inr rfl) (by decide)))
  have h := h.step (.slot (i := slotFor 4) (.act (p := true) rfl ⟨2, rfl⟩))
  have h := h.step (.slot (i := slotFor 4) (.broadcast (p := true) rfl ⟨0, rfl⟩))
  have h := h.step (.slot (i := slotFor 4) (.unlock (p := true) rfl ⟨0, rfl⟩))
  have h := h.step (.slot (i := slotFor 4) (.resume (p := false) rfl (by decide)
    ⟨some .ETIMEDOUT, rfl, fun _ => ⟨_, _, rfl⟩⟩))
  have h := h.step (.slot (i := slotFor 4) (.act (p := false) rfl ⟨0, rfl⟩))
  have h := h.step (.slot (i := slotFor 4) (.unlock (p := false) rfl ⟨0, rfl⟩))
  exact ⟨_, _, h, rfl, rfl⟩

theorem exact_handoff_timeout : ∃ tr t, TableRun none waitAndWake tr t ∧
    (t.slot (slotFor 4)).pc false = .done none ∧ ∃ x addr all ms,
      scans (own true (tr (slotFor 4))) = [x] ∧ Exact waitAndWake x addr all ms ∧
        1 = ms.length := by
  obtain ⟨tr, t, h, hwake, hwait⟩ := run_waitAndWake
  exact ⟨tr, t, h, hwait, (exact_handoff h (slotFor 4)).2.1 true 1 hwake⟩

end MojitoSys.Sync
