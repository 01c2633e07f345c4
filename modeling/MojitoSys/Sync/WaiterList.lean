import MojitoSys.Sync.Handoff

/-!
# The waiter list

The list of a slot is repaired by three pieces of code: a wait links its record at the tail and, if
it was not marked, splices it out again, and a wake splices the records out that it marks. The
record lives on the stack of its wait, so that it must not be reachable any more when the wait
returns.

## Main definitions

* `Recorded`, `Pending`: the waits that linked, and those that are between their link and their
  wake or unlink.
* `Listed`: the records of a list against a trace.

## Main results

* `Listed.step`, `Listed.run`: the list has exactly the pending records.
* `waiter_list`: the list of a slot in every run of the table.
-/

namespace MojitoSys.Sync

open Util Util.Monitor

variable {P : Type*}

/-- The wait linked its record, at least once. -/
def Recorded (tr : List (Exec P AwLabel (AwSlot P))) (p : P) : Prop :=
  ∃ x ∈ tr, x.proc = p ∧ x.label = .link

/-- The instruction takes the record of the wait out: the wake that marks it, or the wait itself
when the condition variable returned. -/
def Takes (x : Exec P AwLabel (AwSlot P)) (p : P) : Prop :=
  Marks x p ∨ x.proc = p ∧ ∃ rc, x.label = .woke rc

/-- The wait is between its link and its wake or unlink. -/
def Pending (tr : List (Exec P AwLabel (AwSlot P))) (p : P) : Prop :=
  ∃ new x old, tr = new ++ x :: old ∧ x.proc = p ∧ x.label = .link ∧ ∀ y ∈ new, ¬ Takes y p

section Pending

variable {tr es : List (Exec P AwLabel (AwSlot P))} {y : Exec P AwLabel (AwSlot P)} {p : P}

theorem Pending.recorded (h : Pending tr p) : Recorded tr p := by
  obtain ⟨new, x, old, rfl, hp, hl, -⟩ := h
  exact ⟨x, by simp, hp, hl⟩

theorem pending_cons :
    Pending (y :: tr) p ↔ y.proc = p ∧ y.label = .link ∨ Pending tr p ∧ ¬ Takes y p := by
  constructor
  · rintro ⟨new, x, old, heq, hp, hl, hnew⟩
    cases new with
    | nil =>
      obtain ⟨rfl, -⟩ := List.cons.inj heq
      exact Or.inl ⟨hp, hl⟩
    | cons z new =>
      obtain ⟨rfl, rfl⟩ := List.cons.inj heq
      obtain ⟨hz, hnew⟩ := List.forall_mem_cons.mp hnew
      exact Or.inr ⟨⟨new, x, old, rfl, hp, hl, hnew⟩, hz⟩
  · rintro (⟨hp, hl⟩ | ⟨⟨new, x, old, rfl, hp, hl, hnew⟩, hy⟩)
    · exact ⟨[], y, tr, rfl, hp, hl, by simp⟩
    · exact ⟨y :: new, x, old, rfl, hp, hl, List.forall_mem_cons.mpr ⟨hy, hnew⟩⟩

/-- An instruction that is neither the scan of a wake nor the end of a sleep. -/
theorem not_takes (hscan : y.label ≠ .scan) (hwoke : ∀ rc, y.label ≠ .woke rc) : ¬ Takes y p := by
  rintro (hm | ⟨-, rc, hl⟩)
  · exact hscan hm.1
  · exact hwoke rc hl

theorem recorded_cons : Recorded (y :: tr) p ↔ y.proc = p ∧ y.label = .link ∨ Recorded tr p := by
  simp [Recorded]

end Pending

/-! ### The list along a run -/

section Listed

variable [DecidableEq P] {call : P → AwCall} {initRc : Status} {i : ℕ} {mem : Memory}
  {tr es : List (Exec P AwLabel (AwSlot P))} {s s' : State P AwLabel (AwSlot P)}

/-- The records `ps` of the list are those of the pending waits, and the records with their flag
set among those that were written. -/
structure Listed (tr : List (Exec P AwLabel (AwSlot P))) (d : AwSlot P) (ps : List P) : Prop where
  holds : d.queue.Holds ps
  pending : ∀ p, p ∈ ps ↔ Pending tr p
  linked : ∀ p, Recorded tr p → (d.linked p = true ↔ p ∈ ps)

variable {d d' : AwSlot P} {ps : List P} {x : Exec P AwLabel (AwSlot P)}

omit [DecidableEq P] in
/-- An instruction that leaves the list alone. -/
theorem Listed.keep (h : Listed tr d ps) (hl : x.label ≠ .link) (hx : ∀ p ∈ ps, ¬ Takes x p) :
    Listed (x :: tr) d ps where
  holds := h.holds
  pending p := by
    rw [pending_cons, h.pending]
    refine ⟨fun hp => Or.inr ⟨hp, hx p ((h.pending p).mpr hp)⟩, ?_⟩
    rintro (⟨-, hlink⟩ | hp)
    · exact absurd hlink hl
    · exact hp.1
  linked p hp := by
    rw [recorded_cons] at hp
    exact h.linked p (hp.resolve_left fun hlink => hl hlink.2)

omit [DecidableEq P] in
/-- An instruction that takes records out. -/
theorem Listed.take (h : Listed tr d ps) {ps' : List P} (hl : x.label ≠ .link)
    (hq : d'.queue.Holds ps') (hps' : ∀ p, p ∈ ps' ↔ p ∈ ps ∧ ¬ Takes x p)
    (hflag : ∀ p, d'.linked p = true ↔ d.linked p = true ∧ (p ∈ ps → p ∈ ps')) :
    Listed (x :: tr) d' ps' where
  holds := hq
  pending p := by
    rw [hps', pending_cons, h.pending]
    simp [hl]
  linked p hp := by
    rw [recorded_cons] at hp
    have hrec := h.linked p (hp.resolve_left fun hlink => hl hlink.2)
    rw [hflag, hrec]
    exact ⟨fun ⟨hin, himp⟩ => himp hin, fun hin => ⟨((hps' p).mp hin).1, fun _ => hin⟩⟩

omit [DecidableEq P] in
/-- A wait takes its own record out. -/
theorem takes_woke {me : P} {rc : Status} {l' : AwLabel} (p : P) :
    Takes ⟨me, .woke rc, d, d', l'⟩ p ↔ p = me := by
  constructor
  · rintro (hm | ⟨rfl, -⟩)
    · exact absurd hm.1 (by simp)
    · rfl
  · rintro rfl
    exact Or.inr ⟨rfl, rc, rfl⟩

/-- A wait that was not marked takes its own record out. -/
theorem Listed.unlink (h : Listed tr d ps) {me : P} {rc : Status} {l' : AwLabel} {fuel : ℕ}
    (hme : me ∈ ps) (hd : d.unlink fuel me = some d') :
    Listed (⟨me, .woke rc, d, d', l'⟩ :: tr) d' (ps.erase me) := by
  have hmem (p : P) : p ∈ ps.erase me ↔ p ∈ ps ∧ p ≠ me := by
    rw [h.holds.nodup.mem_erase_iff, and_comm]
  obtain ⟨hq, -, -, hlinked⟩ := AwSlot.unlink_spec h.holds hd
  refine h.take (by simp) hq (fun p => ?_) fun p => ?_
  · rw [hmem, takes_woke]
  · rw [hlinked hme, hmem]
    by_cases hp : p = me
    · simp [hp, hme]
    · simp [hp]

/-- A wake takes the records out that it marks. -/
theorem Listed.wake (h : Listed tr d ps) {me : P} {addr : Addr} {all : Bool} {fuel n : ℕ}
    {l' : AwLabel} (hw : ∀ p ∈ ps, d.woken p = false) (hd : d.wake fuel addr all = some (d', n)) :
    ∃ ps', Listed (⟨me, .scan, d, d', l'⟩ :: tr) d' ps' := by
  obtain ⟨hq, -, -, hwoken, hlinked⟩ := AwSlot.wake_spec h.holds hd
  have hperm := AwSlot.handOff_perm (d.addr · = addr) all ps
  have hnodup := List.nodup_append.mp (hperm.nodup_iff.mpr h.holds.nodup)
  have htakes (p : P) (hp : p ∈ ps) : Takes ⟨me, .scan, d, d', l'⟩ p ↔
      p ∈ (AwSlot.handOff (d.addr · = addr) all ps).1 := by
    constructor
    · rintro (⟨-, -, hpost⟩ | ⟨-, rc, hl⟩)
      · exact ((hwoken p).mp hpost).resolve_right (by simp [hw p hp])
      · cases hl
    · exact fun hin => Or.inl ⟨rfl, hw p hp, (hwoken p).mpr (Or.inl hin)⟩
  have hmem (p : P) : p ∈ (AwSlot.handOff (d.addr · = addr) all ps).2 ↔
      p ∈ ps ∧ p ∉ (AwSlot.handOff (d.addr · = addr) all ps).1 := by
    rw [← hperm.mem_iff (a := p), List.mem_append]
    refine ⟨fun hp => ⟨Or.inr hp, fun hin => hnodup.2.2 p hin p hp rfl⟩, ?_⟩
    rintro ⟨hp | hp, hnot⟩
    · exact absurd hp hnot
    · exact hp
  refine ⟨_, h.take (by simp) hq (fun p => ?_) fun p => ?_⟩
  · rw [hmem]
    exact and_congr_right fun hp => not_congr (htakes p hp).symm
  · rw [hlinked, hmem]
    have hsub : p ∈ (AwSlot.handOff (d.addr · = addr) all ps).1 → p ∈ ps :=
      fun hin => hperm.mem_iff.mp (List.mem_append_left _ hin)
    tauto

theorem Listed.step (h : Listed tr s.data ps) (hO : (ledgerOutline call).Holds tr s)
    (hs : Step (awProgram call) mem s es s') : ∃ ps', Listed (es ++ tr) s'.data ps' := by
  rcases hs.exec_cases with ⟨rfl, hd⟩ | ⟨me, i, hown, hcode, hpost, -, rfl⟩
  · exact ⟨ps, hd ▸ h⟩
  have hheld := hO.held me hown
  obtain ⟨qs, hqs, hmem⟩ := hheld.ledger.queue
  obtain rfl := h.holds.unique hqs
  have hinstr := code_cases hcode
  rw [hpost]
  generalize hc : call me = c at hinstr
  generalize s.pc me = l at hinstr hheld hmem ⊢
  cases hinstr with
  | changed => exact ⟨ps, h.keep (by simp) fun p _ => not_takes (by simp) (by simp)⟩
  | unchanged => exact ⟨ps, h.keep (by simp) fun p _ => not_takes (by simp) (by simp)⟩
  | park => exact ⟨ps, h.keep (by simp) fun p _ => not_takes (by simp) (by simp)⟩
  | unlock => exact ⟨ps, h.keep (by simp) fun p _ => not_takes (by simp) (by simp)⟩
  | notify => exact ⟨ps, h.keep (by simp) fun p _ => not_takes (by simp) (by simp)⟩
  | silent => exact ⟨ps, h.keep (by simp) fun p _ => not_takes (by simp) (by simp)⟩
  | unlockWake => exact ⟨ps, h.keep (by simp) fun p _ => not_takes (by simp) (by simp)⟩
  | @arm addr expected timed =>
    have hme : me ∉ ps := fun hp => by
      rcases ((hmem me).mp hp).1 with hw | ⟨-, hq⟩
      · exact hO.awake me hown hw
      · exact hq
    refine ⟨ps ++ [me], h.holds.append hme, fun p => ?_, fun p hp => ?_⟩
    · rw [List.singleton_append, pending_cons, List.mem_append, List.mem_singleton, h.pending]
      simp [not_takes, or_comm, eq_comm]
    · rw [List.singleton_append, recorded_cons] at hp
      rw [List.mem_append, List.mem_singleton]
      by_cases hpm : p = me
      · simp [hpm, Instr.post, AwSlot.arm, AwSlot.link]
      · have hrec := h.linked p (hp.resolve_left fun hlink => hpm hlink.1.symm)
        simpa [hpm, Instr.post, AwSlot.arm, AwSlot.link] using hrec
  | handed hw =>
    refine ⟨ps, h.keep (by simp) fun p hp htakes => ?_⟩
    obtain rfl := (takes_woke p).mp htakes
    exact absurd (hw.symm.trans ((hmem p).mp hp).2) (by simp)
  | leave hw hd => exact ⟨_, h.unlink ((hmem me).mpr ⟨Or.inr ⟨rfl, trivial⟩, hw⟩) hd⟩
  | again hw hd => exact ⟨_, h.unlink ((hmem me).mpr ⟨Or.inr ⟨rfl, trivial⟩, hw⟩) hd⟩
  | scan hd => exact h.wake (fun p hp => ((hmem p).mp hp).2) hd

/-- The list of a slot along every run. -/
theorem Listed.run (hr : Run (awProgram call) (SlotStart initRc call i) tr s) :
    ∃ ps, Listed tr s.data ps := by
  induction hr with
  | start h => exact ⟨[], h.queue, by simp [Pending], by simp [Recorded]⟩
  | step hr hs ih =>
    obtain ⟨ps, hps⟩ := ih
    exact hps.step (slot_holds hr) hs

variable {trs : ℕ → List (Exec P AwLabel (AwSlot P))} {t : AwTable P}

/-- The list of every slot in every run of the table. A walk from the head meets finitely many
records, none of them twice, and then ends; the tail is the `next` field of the last one, or the
head field. The records of the list are those of the waits between their link and their wake or
unlink: these records are not marked, and they are the records in use with `linked` set. A wait
that returned is not on the list. -/
theorem waiter_list (h : TableRun initRc call trs t) (i : ℕ) :
    ∃ ps : List P, (t.slot i).data.queue.Walk .head ps ∧
      (t.slot i).data.queue.get (Link.head.after ps) = none ∧ ps.Nodup ∧
      (t.slot i).data.queue.tail = ps.getLast?.elim .head .next ∧
      (∀ p, (t.slot i).data.queue.Linked p ↔ p ∈ ps) ∧
      (∀ p, p ∈ ps ↔ Pending (trs i) p) ∧
      (∀ p ∈ ps, (t.slot i).data.linked p = true ∧ (t.slot i).data.woken p = false) ∧
      (∀ p, Recorded (trs i) p → (t.slot i).data.linked p = true → p ∈ ps) ∧
      ∀ p rc, (t.slot i).pc p = .done rc → ¬ (t.slot i).data.queue.Linked p := by
  have hr := h.slot i
  obtain ⟨ps, hps⟩ := Listed.run hr
  have hlinked (p : P) (hp : p ∈ ps) := slot_linked hr (hps.holds.linked_iff.mpr hp)
  refine ⟨ps, hps.holds.walk, hps.holds.stop, hps.holds.nodup, ?_, fun p => hps.holds.linked_iff,
    hps.pending, fun p hp => ⟨?_, (hlinked p hp).2⟩, fun p hp => (hps.linked p hp).mp,
    fun p rc hpc hp => ?_⟩
  · rw [hps.holds.tail, LinkedQueue.after_head]
  · exact (hps.linked p ((hps.pending p).mp hp).recorded).mpr hp
  · simpa [hpc, AwLabel.queued] using (slot_linked hr hp).1

/-- Waits on two words whose slots coincide, and a `wake_one` on the second word. -/
def collidingCalls : Fin 3 → AwCall
  | 0 => .wait 4 0 false
  | 1 => .wait 0x5dc 0 false
  | 2 => .wake 0x5dc false

/-- Two waits park, and the wake takes the record at the tail: the list is that of the other wait,
and ends at its `next` field. -/
theorem waiter_list_parked : ∃ trs t, TableRun none collidingCalls trs t ∧
    (t.slot (slotFor 4)).data.queue.tail = .next 0 ∧
    (t.slot (slotFor 4)).data.queue.Linked 0 ∧ Pending (trs (slotFor 4)) 0 ∧
    ¬ (t.slot (slotFor 4)).data.queue.Linked 1 ∧ ¬ Pending (trs (slotFor 4)) 1 := by
  have h := tableRun_quietTable collidingCalls
  have h := h.step (.slot (i := slotFor 4) (.lock (p := 0) rfl (Or.inl rfl) (by decide)))
  have h := h.step (.slot (i := slotFor 4) (.act (p := 0) rfl ⟨0, rfl⟩))
  have h := h.step (.slot (i := slotFor 4) (.act (p := 0) rfl ⟨0, rfl⟩))
  have h := h.step (.slot (i := slotFor 4) (.wait (p := 0) rfl ⟨0, rfl⟩))
  have h := h.step (.slot (i := slotFor 4) (.lock (p := 1) rfl (Or.inl rfl) (by decide)))
  have h := h.step (.slot (i := slotFor 4) (.act (p := 1) rfl ⟨0, rfl⟩))
  have h := h.step (.slot (i := slotFor 4) (.act (p := 1) rfl ⟨0, rfl⟩))
  have h := h.step (.slot (i := slotFor 4) (.wait (p := 1) rfl ⟨0, rfl⟩))
  have h := h.step (.slot (i := slotFor 4) (.lock (p := 2) rfl (Or.inr rfl) (by decide)))
  have h := h.step (.slot (i := slotFor 4) (.act (p := 2) rfl ⟨3, rfl⟩))
  obtain ⟨ps, -, -, -, -, hlinked, hpending, -⟩ := waiter_list h (slotFor 4)
  have hkept : (0 : Fin 3) ∈ ps := (hlinked 0).mp ⟨[], rfl, trivial⟩
  have htaken : (1 : Fin 3) ∉ ps := fun hp => by
    have hwoken := (slot_linked (h.slot (slotFor 4)) ((hlinked 1).mpr hp)).2
    exact absurd hwoken (by decide)
  exact ⟨_, _, h, rfl, (hlinked 0).mpr hkept, (hpending 0).mp hkept,
    fun hl => htaken ((hlinked 1).mp hl), fun hp => htaken ((hpending 1).mpr hp)⟩

end Listed

end MojitoSys.Sync
