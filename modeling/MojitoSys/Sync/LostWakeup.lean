import MojitoSys.Sync.Handoff

/-!
# No lost wakeup

A thread stores a value different from `old` to a word and then calls `mjs_atomic_wake_all_u32`. As
long as nobody stores `old` again, a wait for the change of `old` that checks the word after the
store does not sleep; a wait that checked it before the store is in the queue when the wake gets the
mutex, since the check, the link and the park are one lock region, and the wake marks it.

## Main definitions

* `Since`: the runs since the store.
* `Swept`: no wait on the word is about to sleep, and all that sleep are marked.

## Main results

* `no_lost_wakeup`: after the wake no wait on the word is parked and not marked.
-/

namespace MojitoSys.Sync

open Util Util.Monitor

variable {P : Type*} [DecidableEq P]

/-- The runs from a table during which the word differs from `old`, with the traces since then. -/
inductive Since (call : P → AwCall) (addr : Addr) (old : BitVec 32) (t₀ : AwTable P) :
    (ℕ → List (Exec P AwLabel (AwSlot P))) → AwTable P → Prop
  | refl (h : t₀.mem addr ≠ old) : Since call addr old t₀ (fun _ => []) t₀
  | step {trs : ℕ → List (Exec P AwLabel (AwSlot P))} {t t' : AwTable P} {i : ℕ}
      {es : List (Exec P AwLabel (AwSlot P))} (hp : Since call addr old t₀ trs t)
      (hs : TableStep call t i es t') (hmem : t'.mem addr ≠ old) :
      Since call addr old t₀ (Function.update trs i (es ++ trs i)) t'

/-- No wait on the word is about to sleep, and all that sleep are marked. -/
def Swept (call : P → AwCall) (addr : Addr) (old : BitVec 32) (s : State P AwLabel (AwSlot P)) :
    Prop :=
  ∀ p timed, call p = .wait addr old timed →
    s.pc p ≠ .link ∧ ((s.pc p).queued → s.data.woken p = true)

section Swept

variable {call : P → AwCall} {addr : Addr} {old : BitVec 32} {s s' : State P AwLabel (AwSlot P)}
  {mem : Memory} {tr es : List (Exec P AwLabel (AwSlot P))}

/-- A call goes on to another place, and unmarks nobody else. -/
theorem Swept.of_update (h : Swept call addr old s) {me : P} {l' : AwLabel} {d' : AwSlot P}
    {o : Option P} {cv : Condvar P}
    (hw : ∀ p, p ≠ me → s.data.woken p = true → d'.woken p = true)
    (hme : ∀ timed, call me = .wait addr old timed →
      l' ≠ .link ∧ (l'.queued → d'.woken me = true)) :
    Swept call addr old ⟨d', o, cv, Function.update s.pc me l'⟩ := by
  intro p timed hp
  by_cases hpm : p = me
  · subst hpm
    simpa using hme timed hp
  · obtain ⟨hlink, hq⟩ := h p timed hp
    simp only [Function.update_of_ne hpm]
    exact ⟨hlink, fun hqueued => hw p hpm (hq hqueued)⟩

/-- The scan of `wake_all` sweeps the queue. -/
theorem swept_of_scan {q : P} {d' : AwSlot P} {n fuel : ℕ} (hq : call q = .wake addr true)
    (hO : (ledgerOutline call).Holds tr s) (hR : (awRegions call).Placed s)
    (hown : s.owner = some q) (hpc : s.pc q = .scan)
    (hd : s.data.wake fuel addr true = some (d', n)) :
    Swept call addr old ⟨d', s.owner, s.cv, Function.update s.pc q (.notify n)⟩ := by
  intro p timed hp
  have hpq : p ≠ q := by
    rintro rfl
    rw [hp] at hq
    simp at hq
  have hnot : s.owner ≠ some p := by
    rw [hown]
    exact fun h => hpq (Option.some.inj h).symm
  have hledger := (hO.held q hown).ledger
  obtain ⟨ms, hexact, -⟩ := hledger.exact hq hd
  obtain ⟨ps, hps, hmem⟩ := hledger.queue
  simp only [Function.update_of_ne hpq]
  refine ⟨fun hlink => hnot (hR.held (Or.inl hlink)), fun hqueued => ?_⟩
  -- only a process that waits can be at a queued place now
  have hwaits : s.cv.Waits p := by
    cases hl : s.pc p with
    | park => exact (hR.parked hl).resolve_left hnot
    | woke rc => exact absurd (hR.held (Or.inr ⟨rc, hl⟩)) hnot
    | _ => simp [hl, AwLabel.queued] at hqueued
  obtain ⟨expected, timed', hkey⟩ := hledger.key (Or.inl hwaits)
  have haddr : s.data.addr p = addr := by
    rw [hp] at hkey
    exact (AwCall.wait.inj hkey).1.symm
  by_cases hw : s.data.woken p = true
  · exact ((AwSlot.wake_spec hps hd).2.2.2.1 p).mpr (Or.inr hw)
  · have hin := (hmem p).mpr ⟨Or.inl hwaits, by simpa using hw⟩
    have hms := hexact.every rfl p ⟨hps.linked_iff.mpr hin, haddr⟩
    exact ((hexact.mem p).mp hms).2.2

/-- While the word differs from `old`, a swept slot stays swept. -/
theorem Swept.step (h : Swept call addr old s) (hO : (ledgerOutline call).Holds tr s)
    (hR : (awRegions call).Placed s) (hmem : mem addr ≠ old)
    (hs : Step (awProgram call) mem s es s') : Swept call addr old s' := by
  cases hs with
  | lock => exact h
  | @refuse p l hown hentry hp hl =>
    obtain ⟨rc, -, rfl⟩ := hl
    exact h.of_update (fun _ _ hw => hw) fun _ _ => ⟨by simp, False.elim⟩
  | @act me d' l' hown hcode =>
    generalize hi : Instr.act d' l' = i at hcode
    have hinstr := code_cases hcode
    generalize hc : call me = c at hinstr
    generalize hl : s.pc me = l at hinstr
    cases hinstr with
    | changed =>
      obtain ⟨rfl, rfl⟩ := Instr.act.inj hi
      exact h.of_update (fun _ _ hw => hw) fun _ _ => ⟨by simp, False.elim⟩
    | unchanged heq =>
      obtain ⟨rfl, rfl⟩ := Instr.act.inj hi
      refine h.of_update (fun _ _ hw => hw) fun timed hme => ?_
      obtain ⟨rfl, rfl, -⟩ := AwCall.wait.inj (hc.symm.trans hme)
      exact absurd heq hmem
    | arm =>
      obtain ⟨rfl, rfl⟩ := Instr.act.inj hi
      refine h.of_update (fun p hp hw => ?_) fun timed hme => absurd hl (h me timed hme).1
      simpa [AwSlot.arm, AwSlot.link, hp] using hw
    | park => simp at hi
    | handed =>
      obtain ⟨rfl, rfl⟩ := Instr.act.inj hi
      exact h.of_update (fun _ _ hw => hw) fun _ _ => ⟨by simp, False.elim⟩
    | leave _ hd =>
      obtain ⟨rfl, rfl⟩ := Instr.act.inj hi
      exact h.of_update (fun p _ hw => (congrFun (unlinkFrom_woken hd) p).trans hw)
        fun _ _ => ⟨by simp, False.elim⟩
    | again _ hd =>
      obtain ⟨rfl, rfl⟩ := Instr.act.inj hi
      exact h.of_update (fun p _ hw => (congrFun (unlinkFrom_woken hd) p).trans hw)
        fun _ _ => ⟨by simp, False.elim⟩
    | unlock => simp at hi
    | scan hd =>
      obtain ⟨rfl, rfl⟩ := Instr.act.inj hi
      obtain ⟨ps, hps, -⟩ := (hO.held me hown).ledger.queue
      exact h.of_update (fun p _ hw => ((AwSlot.wake_spec hps hd).2.2.2.1 p).mpr (Or.inr hw))
        fun _ _ => ⟨by simp, False.elim⟩
    | notify => simp at hi
    | silent =>
      obtain ⟨rfl, rfl⟩ := Instr.act.inj hi
      exact h.of_update (fun _ _ hw => hw) fun _ _ => ⟨by simp, False.elim⟩
    | unlockWake => simp at hi
  | signal hown hcode hcv => exact absurd hcode not_signal
  | @broadcast me l' hown hcode =>
    have hinstr := code_cases hcode
    generalize call me = c at hinstr
    generalize hl : s.pc me = l at hinstr
    cases hinstr
    exact h.of_update (fun _ _ hw => hw) fun _ _ => ⟨by simp, False.elim⟩
  | wait => exact h
  | @unlock me l' hown hcode =>
    have hinstr := code_cases hcode
    generalize call me = c at hinstr
    generalize hl : s.pc me = l at hinstr
    cases hinstr with
    | unlock => exact h.of_update (fun _ _ hw => hw) fun _ _ => ⟨by simp, False.elim⟩
    | unlockWake => exact h.of_update (fun _ _ hw => hw) fun _ _ => ⟨by simp, False.elim⟩
  | wakeup => exact h
  | @resume p l' hfree hp hl =>
    have hpark : s.pc p = .park := hR.waits (Or.inr hp)
    rw [hpark] at hl
    obtain ⟨rc, rfl, -⟩ := hl
    refine h.of_update (fun _ _ hw => hw) fun timed hme => ⟨by simp, fun _ => ?_⟩
    exact (h p timed hme).2 (by simp [hpark, AwLabel.queued])

end Swept

/-! ### The steps of the wake and of the checks -/

section Moves

variable {call : P → AwCall} {addr : Addr} {old : BitVec 32} {s s' : State P AwLabel (AwSlot P)}
  {mem : Memory} {tr es : List (Exec P AwLabel (AwSlot P))} {p q : P}

/-- The step of another process leaves the place of a process. -/
theorem pc_cases (hs : Step (awProgram call) mem s es s') (p : P) :
    s'.pc p = s.pc p ∨
      (s.pc p ∈ (awProgram call).entry ∧ ∃ rc, rc ≠ none ∧ s'.pc p = .done rc) ∨
      (∃ rc, s.pc p = .park ∧ s'.pc p = .woke rc) ∨
      (s.owner = some p ∧ ∃ i, (awProgram call).code p mem (s.pc p) s.data i ∧
        ((∃ d', i = .act d' (s'.pc p) ∧ s'.data = d' ∧ s'.owner = s.owner ∧ s'.cv = s.cv ∧
            s'.pc = Function.update s.pc p (s'.pc p)) ∨
          (i = .broadcast (s'.pc p) ∧ s'.cv = s.cv.broadcast) ∨ i = .unlock (s'.pc p))) := by
  have hne : ∀ {me : P} {l : AwLabel}, p ≠ me → Function.update s.pc me l p = s.pc p :=
    fun h => Function.update_of_ne h _ _
  cases hs with
  | lock => exact Or.inl rfl
  | @refuse me l hown hentry hp hl =>
    by_cases hme : p = me
    · subst hme
      obtain ⟨rc, hrc, rfl⟩ := hl
      exact Or.inr (Or.inl ⟨hentry, rc, hrc, by simp⟩)
    · exact Or.inl (hne hme)
  | @act me d' l hown hcode =>
    by_cases hme : p = me
    · subst hme
      exact Or.inr (Or.inr (Or.inr ⟨hown, _, hcode, Or.inl ⟨d', by simp⟩⟩))
    · exact Or.inl (hne hme)
  | signal hown hcode hcv => exact absurd hcode not_signal
  | @broadcast me l hown hcode =>
    by_cases hme : p = me
    · subst hme
      exact Or.inr (Or.inr (Or.inr ⟨hown, _, hcode, Or.inr (Or.inl (by simp))⟩))
    · exact Or.inl (hne hme)
  | wait => exact Or.inl rfl
  | @unlock me l hown hcode =>
    by_cases hme : p = me
    · subst hme
      exact Or.inr (Or.inr (Or.inr ⟨hown, _, hcode, Or.inr (Or.inr (by simp))⟩))
    · exact Or.inl (hne hme)
  | wakeup => exact Or.inl rfl
  | @resume me l hfree hp hl =>
    by_cases hme : p = me
    · subst hme
      refine Or.inr (Or.inr (Or.inl ?_))
      cases hpc : s.pc p with
      | park =>
        rw [hpc] at hl
        obtain ⟨rc, rfl, -⟩ := hl
        exact ⟨rc, rfl, by simp⟩
      | _ =>
        rw [hpc] at hl
        exact absurd hl (Set.notMem_empty _)
    · exact Or.inl (hne hme)

/-- A call that is about to return `0` returns `0`. -/
theorem returning_step (hs : Step (awProgram call) mem s es s')
    (h : s.pc p = .unlock none ∨ s.pc p = .done none) :
    s'.pc p = .unlock none ∨ s'.pc p = .done none := by
  obtain heq | ⟨hentry, -⟩ | ⟨rc, hpark, -⟩ | ⟨-, i, hcode, hi⟩ := pc_cases hs p
  · rwa [heq]
  · obtain hentry | hentry : s.pc p = .check ∨ s.pc p = .scan := hentry
    · simp [hentry] at h
    · simp [hentry] at h
  · simp [hpark] at h
  · have hinstr := code_cases hcode
    generalize call p = c at hinstr
    rcases h with h | h
    · rw [h] at hinstr
      cases hinstr
      have hdone : .done none = s'.pc p := by simpa using hi
      exact Or.inr hdone.symm
    · rw [h] at hinstr
      cases hinstr

/-- Only a wait that parks gets blocked. -/
theorem blocked_step (hs : Step (awProgram call) mem s es s') (hp : p ∈ s'.cv.blocked) :
    p ∈ s.cv.blocked ∨ s.owner = some p ∧ s.pc p = .park := by
  cases hs with
  | signal hown hcode hcv => exact absurd hcode not_signal
  | broadcast => exact Or.inl (Finset.mem_sdiff.mp hp).1
  | @wait me hown hcode =>
    rcases Finset.mem_insert.mp hp with rfl | hp
    · exact Or.inr ⟨hown, ((awRegions call).wait hcode).1⟩
    · exact Or.inl hp
  | wakeup => exact Or.inl (Finset.mem_sdiff.mp hp).1
  | _ => exact Or.inl hp

/-- A check of a word that differs from `old` goes to the return of `0`. -/
theorem check_instr {d : AwSlot P} {timed : Bool} {i : Instr (AwSlot P) AwLabel}
    (hmem : mem addr ≠ old) (hc : call p = .wait addr old timed)
    (hcode : (awProgram call).code p mem .check d i) : i = .act d (.unlock none) := by
  have hinstr := code_cases hcode
  rw [hc] at hinstr
  cases hinstr with
  | changed => rfl
  | unchanged heq => exact absurd heq hmem

/-- A check of a word that differs from `old`. -/
theorem check_step (hmem : mem addr ≠ old) (hs : Step (awProgram call) mem s es s')
    {x : Exec P AwLabel (AwSlot P)} (hx : x ∈ es) (hcheck : x.label = .check) {timed : Bool}
    (hc : call x.proc = .wait addr old timed) :
    x.next = .unlock none ∧ s'.pc x.proc = .unlock none := by
  rcases hs.exec_cases with ⟨rfl, -⟩ | ⟨me, i, -, hcode, -, hpc, rfl⟩
  · simp at hx
  · obtain rfl := List.mem_singleton.mp hx
    rw [show s.pc me = .check from hcheck] at hcode
    obtain rfl := check_instr hmem hc hcode
    rw [hpc]
    exact ⟨rfl, Function.update_self ..⟩

/-- A call that did not begin in a slot, or has returned, executes nothing. -/
theorem not_code_of_idle {l : AwLabel} {d : AwSlot P} {i : Instr (AwSlot P) AwLabel}
    (h : l = .absent ∨ ∃ rc, l = .done rc) : ¬ (awProgram call).code p mem l d i := by
  intro hcode
  have hinstr := code_cases hcode
  generalize call p = c at hinstr
  obtain rfl | ⟨rc, rfl⟩ := h
  · cases hinstr
  · cases hinstr

end Moves

/-! ### From the store to the end of the wake -/

/-- The wake has scanned the queue. -/
def AwLabel.scanned (l : AwLabel) : Prop := ∃ n, l = .notify n ∨ l = .unlockWake n ∨ l = .doneWake n

/-- The wake has scanned the queue and sent its broadcast. -/
def AwLabel.sent (l : AwLabel) : Prop := ∃ n, l = .unlockWake n ∨ l = .doneWake n

/-- The slot of the word after the store, with the trace since then; `q` is the wake. -/
structure AfterStore (call : P → AwCall) (addr : Addr) (old : BitVec 32) (q : P)
    (tr : List (Exec P AwLabel (AwSlot P))) (s : State P AwLabel (AwSlot P)) : Prop where
  phase : s.pc q = .scan ∨ (∃ rc, s.pc q = .done rc) ∨ (s.pc q).scanned ∧ Swept call addr old s
  sent : (s.pc q).sent → ∀ p timed, call p = .wait addr old timed → p ∉ s.cv.blocked
  checks : ∀ x ∈ tr, x.label = .check → ∀ timed, call x.proc = .wait addr old timed →
    x.next = .unlock none ∧ (s.pc x.proc = .unlock none ∨ s.pc x.proc = .done none)

section AfterStore

variable {call : P → AwCall} {addr : Addr} {old : BitVec 32} {s s' : State P AwLabel (AwSlot P)}
  {mem : Memory} {tr₀ tr es : List (Exec P AwLabel (AwSlot P))} {q : P}

omit [DecidableEq P] in
theorem AfterStore.swept (h : AfterStore call addr old q tr s) (hq : (s.pc q).scanned) :
    Swept call addr old s := by
  obtain ⟨n, hn⟩ := hq
  obtain hscan | ⟨rc, hdone⟩ | ⟨-, hs⟩ := h.phase
  · simp [hscan] at hn
  · simp [hdone] at hn
  · exact hs

theorem AfterStore.phase_step (h : AfterStore call addr old q tr s) (hq : call q = .wake addr true)
    (hO : (ledgerOutline call).Holds tr₀ s) (hR : (awRegions call).Placed s)
    (hmem : mem addr ≠ old) (hs : Step (awProgram call) mem s es s') :
    s'.pc q = .scan ∨ (∃ rc, s'.pc q = .done rc) ∨ (s'.pc q).scanned ∧ Swept call addr old s' := by
  obtain heq | ⟨hentry, rc, -, hdone⟩ | ⟨rc, hpark, -⟩ | ⟨hown, i, hcode, hi⟩ := pc_cases hs q
  · rw [heq]
    exact h.phase.imp_right (Or.imp_right fun hp => ⟨hp.1, hp.2.step hO hR hmem hs⟩)
  · exact Or.inr (Or.inl ⟨rc, hdone⟩)
  · obtain hscan | ⟨rc, hdone⟩ | ⟨⟨n, hn⟩, -⟩ := h.phase
    · simp [hpark] at hscan
    · simp [hpark] at hdone
    · simp [hpark] at hn
  · refine Or.inr (Or.inr ?_)
    have hinstr := code_cases hcode
    rw [hq] at hinstr
    generalize hl : s.pc q = l at hinstr
    cases hinstr with
    | @scan _ _ fuel n d' hd =>
      obtain ⟨d₁, hact, hdata, hown', hcv, hpc⟩ | ⟨hb, -⟩ | hu := hi
      · obtain ⟨rfl, hnext⟩ := Instr.act.inj hact
        refine ⟨⟨n, Or.inl hnext.symm⟩, ?_⟩
        have hstate : s' = ⟨d', s.owner, s.cv, Function.update s.pc q (.notify n)⟩ := by
          rw [hnext, ← hdata, ← hown', ← hcv, ← hpc]
        rw [hstate]
        exact swept_of_scan hq hO hR hown hl hd
      · simp at hb
      · simp at hu
    | @notify _ _ n hn =>
      have hnext : .unlockWake n = s'.pc q ∧ s'.cv = s.cv.broadcast := by simpa using hi
      refine ⟨⟨n, Or.inr (Or.inl hnext.1.symm)⟩, ?_⟩
      exact (h.swept ⟨n, Or.inl hl⟩).step hO hR hmem hs
    | silent =>
      have hnext : .unlockWake 0 = s'.pc q := by
        obtain ⟨d₁, hact, -⟩ | ⟨hb, -⟩ | hu := hi
        · exact (Instr.act.inj hact).2
        · simp at hb
        · simp at hu
      refine ⟨⟨0, Or.inr (Or.inl hnext.symm)⟩, ?_⟩
      exact (h.swept ⟨0, Or.inl hl⟩).step hO hR hmem hs
    | @unlockWake _ _ n =>
      have hnext : .doneWake n = s'.pc q := by simpa using hi
      refine ⟨⟨n, Or.inr (Or.inr hnext.symm)⟩, ?_⟩
      exact (h.swept ⟨n, Or.inr (Or.inl hl)⟩).step hO hR hmem hs

/-- After the broadcast no wait on the word parks. -/
theorem AfterStore.blocked_step (h : AfterStore call addr old q tr s)
    (hO : (ledgerOutline call).Holds tr₀ s) (hs : Step (awProgram call) mem s es s')
    (hsent : (s.pc q).sent) {p : P} {timed : Bool} (hp : call p = .wait addr old timed) :
    p ∉ s'.cv.blocked := by
  intro hb
  rcases Sync.blocked_step hs hb with hb | ⟨hown, hpark⟩
  · exact h.sent hsent p timed hp hb
  · obtain ⟨n, hn⟩ := hsent
    have hw := ((h.swept ⟨n, Or.inr hn⟩) p timed hp).2 (by simp [hpark, AwLabel.queued])
    exact absurd (hw.symm.trans ((hO.held p hown).park hpark)) (by simp)

theorem AfterStore.sent_step (h : AfterStore call addr old q tr s) (hq : call q = .wake addr true)
    (hO : (ledgerOutline call).Holds tr₀ s) (hR : (awRegions call).Placed s)
    (hs : Step (awProgram call) mem s es s') (hsent : (s'.pc q).sent) {p : P} {timed : Bool}
    (hp : call p = .wait addr old timed) : p ∉ s'.cv.blocked := by
  obtain heq | ⟨-, rc, -, hdone⟩ | ⟨rc, -, hwoke⟩ | ⟨hown, i, hcode, hi⟩ := pc_cases hs q
  · exact h.blocked_step hO hs (heq ▸ hsent) hp
  · obtain ⟨n, hn⟩ := hsent
    simp [hdone] at hn
  · obtain ⟨n, hn⟩ := hsent
    simp [hwoke] at hn
  · have hinstr := code_cases hcode
    rw [hq] at hinstr
    generalize hl : s.pc q = l at hinstr
    cases hinstr with
    | @scan _ _ _ n =>
      have hnext : .notify n = s'.pc q := by
        obtain ⟨d₁, hact, -⟩ | ⟨hb, -⟩ | hu := hi
        · exact (Instr.act.inj hact).2
        · simp at hb
        · simp at hu
      obtain ⟨m, hm⟩ := hsent
      simp [← hnext] at hm
    | @notify _ _ n hn =>
      have hnext : .unlockWake n = s'.pc q ∧ s'.cv = s.cv.broadcast := by simpa using hi
      simp [hnext.2, Condvar.broadcast, Condvar.notify]
    | silent =>
      have hcv : s'.cv = s.cv := by
        obtain ⟨d₁, -, -, -, hcv, -⟩ | ⟨hb, -⟩ | hu := hi
        · exact hcv
        · simp at hb
        · simp at hu
      rw [hcv]
      intro hb
      -- the wake marked nobody, so that a blocked wait on the word is not marked
      have hfalse := ((hO.held q hown).blocked.resolve_right (by simp [hl])) p hb
      have hpark : s.pc p = .park := hR.waits (Or.inl hb)
      have htrue := (h.swept ⟨0, Or.inl hl⟩ p timed hp).2 (by simp [hpark, AwLabel.queued])
      exact absurd (htrue.symm.trans hfalse) (by simp)
    | @unlockWake _ _ n => exact h.blocked_step hO hs ⟨n, Or.inl hl⟩ hp

theorem AfterStore.step (h : AfterStore call addr old q tr s) (hq : call q = .wake addr true)
    (hO : (ledgerOutline call).Holds tr₀ s) (hR : (awRegions call).Placed s)
    (hmem : mem addr ≠ old) (hs : Step (awProgram call) mem s es s') :
    AfterStore call addr old q (es ++ tr) s' where
  phase := h.phase_step hq hO hR hmem hs
  sent hsent _ _ hp := h.sent_step hq hO hR hs hsent hp
  checks x hx hcheck timed hc := by
    rcases List.mem_append.mp hx with hx | hx
    · obtain ⟨hnext, hpc⟩ := check_step hmem hs hx hcheck hc
      exact ⟨hnext, Or.inl hpc⟩
    · obtain ⟨hnext, hpc⟩ := h.checks x hx hcheck timed hc
      exact ⟨hnext, returning_step hs hpc⟩

end AfterStore

/-! ### No lost wakeup -/

section Main

variable {call : P → AwCall} {initRc : Status} {addr : Addr} {old : BitVec 32}
  {trs₀ trs : ℕ → List (Exec P AwLabel (AwSlot P))} {t₀ t : AwTable P} {q : P}

/-- The runs since the store continue a run of the table. -/
theorem Since.run (h : Since call addr old t₀ trs t) (h₀ : TableRun initRc call trs₀ t₀) :
    TableRun initRc call (fun i => trs i ++ trs₀ i) t := by
  induction h with
  | refl => exact h₀
  | @step trs t t' i es _ hs _ ih =>
    have h' := ih.step hs
    have htrs : Function.update (fun i => trs i ++ trs₀ i) i (es ++ (trs i ++ trs₀ i)) =
        fun j => Function.update trs i (es ++ trs i) j ++ trs₀ j := by
      funext j
      by_cases hj : j = i
      · subst hj
        simp
      · simp [Function.update_of_ne hj]
    rwa [htrs] at h'

theorem Since.mem_ne (h : Since call addr old t₀ trs t) : t.mem addr ≠ old := by
  cases h with
  | refl h => exact h
  | step _ _ h => exact h

theorem Since.afterStore (h : Since call addr old t₀ trs t) (h₀ : TableRun initRc call trs₀ t₀)
    (hq : call q = .wake addr true) (hscan : (t₀.slot (slotFor addr)).pc q = .scan) :
    AfterStore call addr old q (trs (slotFor addr)) (t.slot (slotFor addr)) := by
  induction h with
  | refl h => exact ⟨Or.inl hscan, by simp [hscan, AwLabel.sent], by simp⟩
  | @step trs t t' i es hp hs hmem ih =>
    have hrun := hp.run h₀
    cases hs with
    | store => simpa [Function.update_eq_self] using ih
    | slot hs =>
      by_cases hi : slotFor addr = i
      · subst hi
        have hslot := hrun.slot (slotFor addr)
        simpa using ih.step hq (slot_holds hslot) (slot_placed hslot) hp.mem_ne hs
      · simpa [Function.update_of_ne hi] using ih

/-- A call does nothing in the slots of other addresses. -/
def idleLocal (call : P → AwCall) (i : ℕ) : Local (awProgram call) where
  holds p l h := slotFor (call p).addr ≠ i → (l = .absent ∨ ∃ rc, l = .done rc) ∧ h = []
  refuse := by
    rintro p h l l' - ⟨rc, -, rfl⟩ hh hi
    exact ⟨Or.inr ⟨rc, rfl⟩, (hh hi).2⟩
  act hcode hh hi := absurd hcode (not_code_of_idle (hh hi).1)
  signal hcode := absurd hcode not_signal
  broadcast hcode hh hi := absurd hcode (not_code_of_idle (hh hi).1)
  wait hcode hh hi := absurd hcode (not_code_of_idle (hh hi).1)
  unlock hcode hh hi := absurd hcode (not_code_of_idle (hh hi).1)
  back {p h l l'} hback hh hi := by
    obtain ⟨rfl | ⟨rc, rfl⟩, -⟩ := hh hi
    · exact absurd hback (Set.notMem_empty _)
    · exact absurd hback (Set.notMem_empty _)

/-- A call has executed nothing in the slots of other addresses. -/
theorem TableRun.idle (h : TableRun initRc call trs t) {p : P} {i : ℕ}
    (hi : slotFor (call p).addr ≠ i) :
    ((t.slot i).pc p = .absent ∨ ∃ rc, (t.slot i).pc p = .done rc) ∧ own p (trs i) = [] := by
  refine Run.of_local (A := idleLocal call i) (fun s hs p hi => ?_) (h.slot i) p hi
  rw [hs.pc]
  refine ⟨?_, rfl⟩
  unfold awStart
  split_ifs
  · exact Or.inr ⟨_, rfl⟩
  · exact Or.inr ⟨_, rfl⟩
  · exact Or.inl rfl

/-- In a run whose word differs from `old` since `t₀`, where the `wake_all` has not scanned yet:
every check since then leads to the return of `0`; and once the scan is over and its waits are
notified, that is when the wake releases the mutex and ever after, no wait for the change of `old`
is linked, about to be linked, or blocked, and those that still sleep are marked. -/
theorem no_lost_wakeup (h₀ : TableRun initRc call trs₀ t₀) (hq : call q = .wake addr true)
    (hscan : (t₀.slot (slotFor addr)).pc q = .scan) (h : Since call addr old t₀ trs t) (i : ℕ) :
    (∀ x ∈ trs i, x.label = .check → ∀ timed, call x.proc = .wait addr old timed →
      x.next = .unlock none ∧
        ((t.slot i).pc x.proc = .unlock none ∨ (t.slot i).pc x.proc = .done none)) ∧
      (((t.slot (slotFor addr)).pc q).sent → ∀ p timed, call p = .wait addr old timed →
        (t.slot i).pc p ≠ .link ∧ ¬ (t.slot i).data.queue.Linked p ∧ p ∉ (t.slot i).cv.blocked ∧
          ((t.slot i).cv.Waits p → (t.slot i).data.woken p = true)) := by
  have hrun := h.run h₀
  by_cases hi : slotFor addr = i
  · subst hi
    have hafter := h.afterStore h₀ hq hscan
    refine ⟨hafter.checks, fun hsent p timed hp => ?_⟩
    obtain ⟨hlink, hqueued⟩ := hafter.swept (hsent.imp fun _ => Or.inr) p timed hp
    refine ⟨hlink, fun hl => ?_, hafter.sent hsent p timed hp, fun hw => hqueued ?_⟩
    · obtain ⟨hpc, hfalse⟩ := slot_linked (hrun.slot _) hl
      exact absurd ((hqueued hpc).symm.trans hfalse) (by simp)
    · have hpark : (t.slot (slotFor addr)).pc p = .park := (slot_placed (hrun.slot _)).waits hw
      simp [hpark, AwLabel.queued]
  · have hidle : ∀ {p timed}, call p = .wait addr old timed → slotFor (call p).addr ≠ i := by
      intro p timed hp
      simpa [hp, AwCall.addr] using hi
    refine ⟨fun x hx _ timed hc => ?_, fun _ p timed hp => ?_⟩
    · have hown : x ∈ own x.proc (trs i ++ trs₀ i) := by simp [own, hx]
      rw [(hrun.idle (hidle hc)).2] at hown
      simp at hown
    · have hpc := (hrun.idle (hidle hp)).1
      have hwaits : ¬ (t.slot i).cv.Waits p := by
        intro hw
        have hpark : (t.slot i).pc p = .park := (slot_placed (hrun.slot i)).waits hw
        simp [hpark] at hpc
      refine ⟨fun hlink => ?_, fun hl => ?_, fun hb => hwaits (Or.inl hb),
        fun hw => absurd hw hwaits⟩
      · simp [hlink] at hpc
      · have hqueued := (slot_linked (hrun.slot i) hl).1
        rcases hpc with hpc | ⟨rc, hpc⟩
        · simp [hpc, AwLabel.queued] at hqueued
        · simp [hpc, AwLabel.queued] at hqueued

end Main

/-! ### A parked wait and a store -/

/-- A wait for the change of `0` at `4`, and a `wake_all` there. -/
def waitAndWakeAll (p : Bool) : AwCall := if p then .wake 4 true else .wait 4 0 false

/-- The wait parks, the word is set to `1`, and the wake runs. -/
theorem since_waitAndWakeAll : ∃ trs₀ t₀ trs t, TableRun none waitAndWakeAll trs₀ t₀ ∧
    false ∈ (t₀.slot (slotFor 4)).cv.blocked ∧ (t₀.slot (slotFor 4)).pc true = .scan ∧
      Since waitAndWakeAll 4 0 t₀ trs t ∧ (t.slot (slotFor 4)).pc true = .doneWake 1 := by
  have h := tableRun_quietTable waitAndWakeAll
  have h := h.step (.slot (i := slotFor 4) (.lock (p := false) rfl (Or.inl rfl) (by decide)))
  have h := h.step (.slot (i := slotFor 4) (.act (p := false) rfl ⟨0, rfl⟩))
  have h := h.step (.slot (i := slotFor 4) (.act (p := false) rfl ⟨0, rfl⟩))
  have h := h.step (.slot (i := slotFor 4) (.wait (p := false) rfl ⟨0, rfl⟩))
  have h := h.step (.store (slotFor 4) 4 1)
  have refl : ∀ {trs t}, TableRun none waitAndWakeAll trs t → t.mem 4 ≠ 0 →
      Since waitAndWakeAll 4 0 t (fun _ => []) t := fun _ hne => .refl hne
  have k := refl h (by decide)
  have k := k.step (.slot (i := slotFor 4) (.lock (p := true) rfl (Or.inr rfl) (by decide)))
    (by decide)
  have k := k.step (.slot (i := slotFor 4) (.act (p := true) rfl ⟨2, rfl⟩)) (by decide)
  have k := k.step (.slot (i := slotFor 4) (.broadcast (p := true) rfl ⟨0, rfl⟩)) (by decide)
  have k := k.step (.slot (i := slotFor 4) (.unlock (p := true) rfl ⟨0, rfl⟩)) (by decide)
  exact ⟨_, _, _, _, h, by decide, rfl, k, rfl⟩

theorem no_lost_wakeup_store : ∃ trs₀ t₀ trs t, TableRun none waitAndWakeAll trs₀ t₀ ∧
    false ∈ (t₀.slot (slotFor 4)).cv.blocked ∧ Since waitAndWakeAll 4 0 t₀ trs t ∧
      false ∉ (t.slot (slotFor 4)).cv.blocked ∧
        ((t.slot (slotFor 4)).cv.Waits false → (t.slot (slotFor 4)).data.woken false = true) := by
  obtain ⟨trs₀, t₀, trs, t, h₀, hblocked, hscan, h, hdone⟩ := since_waitAndWakeAll
  obtain ⟨-, hwaits⟩ := no_lost_wakeup (q := true) h₀ rfl hscan h (slotFor 4)
  obtain ⟨-, -, hnot, hw⟩ := hwaits ⟨1, Or.inr hdone⟩ false false rfl
  exact ⟨trs₀, t₀, trs, t, h₀, hblocked, h, hnot, hw⟩

end MojitoSys.Sync
