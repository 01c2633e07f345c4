import MojitoSys.Io.UringAtomic

/-!
# Waits of the io_uring backend that return no event

A wait returns `0` without an event when no completion of its drain delivered one. It should have
consumed a wake or the expiry of the timeout that it staged itself. But `ioring_enter` returns on
any completion: the timeout of an earlier wait that ended before it expired, the removal of such a
timeout or of a poll, and the cancelled polls all complete like any other operation, and all
timeouts carry the same user data.

A wait is sound when it starts with nothing outstanding but the wake poll and the polls of the
registered descriptors, and none of these polls fails.

## Main definitions

* `Uring.Expected`, `Clear`: the operations that may be outstanding when a wait starts.
* `Justified`, `ZeroEventSound`: what a wait without events consumed.

## Main results

* `Clear.waitSubmit`: what is outstanding when the wait drains.
* `zero_event_sound`: a wait from a clear state is sound.
* `zero_event_spurious`: the timeout of an earlier wait ends an untimed one.
-/

namespace MojitoSys.Io.IoUring

open Uring
open scoped List

/-- The operation is the wake poll or the poll of a registered descriptor. -/
def Uring.Expected (r : Uring) (op : Sqe) : Prop :=
  op = .pollAdd r.wakeFd 0x1 WAKE ∨
    ∃ i, r.Live i ∧ r.seqs i ≠ 0 ∧ ∃ fd mask, op = .pollAdd fd mask (r.seqs i)

/-- Nothing is outstanding but the wake poll and the polls of the registered descriptors. -/
structure Clear (r : Uring) : Prop where
  expected : ∀ op ∈ r.outstanding, r.Expected op
  timeoutArmed : r.timeoutArmed = false

/-- A drain consumed the completion of the wake poll, or the wait was bounded and the drain consumed
the expiry of its timeout: no other timeout was outstanding when it started, and no removal when it
drained. -/
def Justified (r r₁ r₂ : Uring) (bounded : Bool) : Prop :=
  (∃ c ∈ r₂.cq, c.op = .pollAdd r.wakeFd 0x1 WAKE) ∨
    bounded = true ∧ (∃ c ∈ r₂.cq, c.op = .timeout) ∧ .timeout ∉ r.outstanding ∧
      .timeoutRemove ∉ r₁.outstanding

/-- Every wait from `r` that returns without events is justified. The kernel returns from a
successful `ioring_enter` with at least one completion, and no poll of a registered descriptor
fails. -/
def ZeroEventSound (r : Uring) : Prop :=
  ∀ bounded e r₁ r₂ cap, 0 < cap → r.waitSubmit bounded e = (none, r₁) → r₁.nextSeq ≤ SEQ_BOUND →
    Posted r₁ r₂ → r₂.cq ≠ [] →
    (∀ c ∈ r₂.cq, ∀ i, r₁.Live i → r₁.seqs i ≠ 0 → c.userData = r₁.seqs i → 0 ≤ c.res) →
    (r₂.drainCq cap).2 = [] → Justified r r₁ r₂ bounded

/-! ### What is outstanding when the wait drains -/

section Outstanding

variable {r r' : Uring} {op : Sqe}

/-- The poll of a slot that was armed stays expected. -/
theorem Uring.Expected.of_seqs (h : r.Expected op) (hcap : r'.cap = r.cap) (hfds : r'.fds = r.fds)
    (hwake : r'.wakeFd = r.wakeFd) (hseqs : ∀ i, r.seqs i ≠ 0 → r'.seqs i = r.seqs i) :
    r'.Expected op := by
  rcases h with h | ⟨i, hl, hz, fd, mask, h⟩
  · exact Or.inl (by rw [hwake, h])
  · refine Or.inr ⟨i, ?_, ?_, fd, mask, ?_⟩
    · rwa [Live, hcap, hfds]
    · rwa [hseqs i hz]
    · rw [hseqs i hz, h]

theorem mem_outstanding_stage {op' : Sqe} (h : r.stage op = some r') :
    op' ∈ r'.outstanding ↔ op' = op ∨ op' ∈ r.outstanding := by
  rw [(outstanding_stage h).mem_iff, List.mem_cons]

/-- The kernel completes outstanding operations. -/
theorem outstanding_posted (h : Posted r r') : r'.outstanding ~ r.outstanding := by
  induction h with
  | refl => exact .refl _
  | post before after op res _ hop ih => exact (outstanding_post hop res).trans ih

/-- The re-arm pass adds polls of live slots. -/
theorem Clear.rearm (is : List ℕ) (h : Clear r) (hfirst : FIRST_SEQ ≤ r.nextSeq)
    (hb : (Uring.rearm is r).2.nextSeq ≤ SEQ_BOUND)
    (hcap : ∀ i ∈ is, i < r.cap) : Clear (Uring.rearm is r).2 := by
  induction is generalizing r with
  | nil => exact h
  | cons i is ih =>
    have hcap' : ∀ j ∈ is, j < r.cap := fun j hj => hcap j (List.mem_cons_of_mem _ hj)
    by_cases hf : 0 ≤ r.fds i ∧ r.seqs i = 0
    · by_cases hroom : r.staged.length < r.sqEntries
      · rw [rearm_cons_of_fired hf hroom] at hb ⊢
        have hle : r.nextSeq + 1 ≤ (Uring.rearm is (r.rearmed i)).2.nextSeq :=
          nextSeq_le_rearm is (r.rearmed i)
        have hseq := SeqFrame.uringNextSeq_eq (r := r) (by omega)
        have hz : r.uringNextSeq ≠ 0 := by
          have hpos : 0 < FIRST_SEQ := by decide
          omega
        refine ih ⟨fun op hop => ?_, h.timeoutArmed⟩ (hfirst.trans (Nat.le_succ _)) hb hcap'
        have hst : r.stage (.pollAdd (r.fds i) (interestsToPoll (r.ints i)) r.uringNextSeq) =
            some { r with staged := r.staged ++
              [.pollAdd (r.fds i) (interestsToPoll (r.ints i)) r.uringNextSeq] } :=
          stage_of_room _ hroom
        rcases (mem_outstanding_stage hst).mp hop with rfl | hold
        · refine Or.inr ⟨i, ⟨hcap i List.mem_cons_self, hf.1⟩, ?_, r.fds i,
            interestsToPoll (r.ints i), ?_⟩
          · simpa [rearmed] using hz
          · simp [rearmed]
        · refine (h.expected op hold).of_seqs rfl rfl rfl fun j hj => ?_
          have hji : j ≠ i := by
            rintro rfl
            exact hj hf.2
          simp [rearmed, hji]
      · rw [rearm_cons_of_full hf hroom]
        exact ⟨h.expected, h.timeoutArmed⟩
    · rw [Uring.rearm, if_neg hf] at hb ⊢
      exact ih h hfirst hb hcap'

theorem Clear.armWake (h : Clear r) (hw : r.armWake = (none, r')) :
    r'.wakeFd = r.wakeFd ∧ Clear r' := by
  unfold Uring.armWake at hw
  split at hw
  · cases hw
    exact ⟨rfl, h⟩
  · cases hst : r.stage (.pollAdd r.wakeFd 0x1 WAKE) with
    | none =>
      simp only [hst] at hw
      cases hw
    | some r₁ =>
      simp only [hst] at hw
      cases hw
      have hmem := fun op' => @mem_outstanding_stage r r₁ (.pollAdd r.wakeFd 0x1 WAKE) op' hst
      obtain ⟨-, rfl⟩ := stage_eq_some.mp hst
      refine ⟨rfl, fun op hop => ?_, h.timeoutArmed⟩
      rcases (hmem op).mp hop with rfl | hold
      · exact Or.inl rfl
      · exact h.expected op hold

/-- Without a stale timeout, the fresh one is all that the last part stages. -/
theorem Clear.armTimeout {bounded : Bool} (h : Clear r)
    (ht : r.armTimeout bounded = (none, r')) :
    r'.wakeFd = r.wakeFd ∧
      ∀ op ∈ r'.outstanding, r'.Expected op ∨ bounded = true ∧ op = .timeout := by
  unfold Uring.armTimeout at ht
  cases bounded with
  | false =>
    cases ht
    exact ⟨rfl, fun op hop => Or.inl (h.expected op hop)⟩
  | true =>
    cases hst : r.stage .timeout with
    | none => simp [h.timeoutArmed, hst] at ht
    | some r₁ =>
      simp only [if_true, h.timeoutArmed, Bool.false_eq_true, if_false, hst] at ht
      cases ht
      have hmem := fun op' => @mem_outstanding_stage r r₁ .timeout op' hst
      obtain ⟨-, rfl⟩ := stage_eq_some.mp hst
      refine ⟨rfl, fun op hop => ?_⟩
      rcases (hmem op).mp hop with rfl | hold
      · exact Or.inr ⟨rfl, rfl⟩
      · exact Or.inl (h.expected op hold)

/-- When a wait from a clear state drains, the wake poll, the polls of the registered descriptors
and its own timeout are outstanding, and nothing else. -/
theorem Clear.waitSubmit {bounded : Bool} {e : Enter} (h : Clear r) (hfirst : FIRST_SEQ ≤ r.nextSeq)
    (hw : r.waitSubmit bounded e = (none, r')) (hb : r'.nextSeq ≤ SEQ_BOUND) :
    r'.wakeFd = r.wakeFd ∧
      ∀ op ∈ r'.outstanding, r'.Expected op ∨ bounded = true ∧ op = .timeout := by
  have hnext := grows_waitSubmit r bounded e
  rw [hw] at hnext
  have h₁ := h.rearm (List.range r.cap) hfirst (hnext.nextSeq ▸ hb)
    fun i hi => List.mem_range.mp hi
  have hfd₁ := wakeFd_rearm (List.range r.cap) r
  unfold Uring.waitSubmit at hw
  rcases hr₁ : Uring.rearm (List.range r.cap) r with ⟨_ | err, r₁⟩
  · rw [hr₁] at h₁ hfd₁
    simp only [hr₁] at hw
    rcases hr₂ : r₁.armWake with ⟨_ | err, r₂⟩
    · obtain ⟨hfd₂, h₂⟩ := Clear.armWake h₁ hr₂
      simp only [hr₂] at hw
      rcases hr₃ : r₂.armTimeout bounded with ⟨_ | err, r₃⟩
      · obtain ⟨hfd₃, h₃⟩ := Clear.armTimeout h₂ hr₃
        have hsub : r₃.submit e 1 = (e.error, r₃.enter e) := by simp [submit]
        simp only [hr₃, hsub, Prod.mk.injEq] at hw
        obtain ⟨-, rfl⟩ := hw
        refine ⟨hfd₃.trans (hfd₂.trans hfd₁), fun op hop => ?_⟩
        exact h₃ op ((outstanding_enter r₃ e).mem_iff.mp hop)
      · simp [hr₃] at hw
    · simp [hr₂] at hw
  · simp [hr₁] at hw

end Outstanding

/-! ### What the drain delivers -/

section Drain

variable {r : Uring} {cap : ℕ}

/-- A drained completion takes back no event. -/
theorem length_le_drainCqe (cap : ℕ) (s : Uring × List PollEvent) (c : Cqe) :
    s.2.length ≤ (drainCqe cap s c).2.length := by
  obtain ⟨r, events⟩ := s
  unfold drainCqe
  simp only
  split
  · exact Nat.le_refl _
  split
  · exact Nat.le_refl _
  cases r.findSeq c.userData with
  | none => exact Nat.le_refl _
  | some i =>
    simp only
    split
    · exact Nat.le_refl _
    · simp only
      split <;> simp

theorem length_le_drain (cap : ℕ) (cs : List Cqe) (s : Uring × List PollEvent) :
    s.2.length ≤ (cs.foldl (drainCqe cap) s).2.length := by
  induction cs generalizing s with
  | nil => exact Nat.le_refl _
  | cons c cs ih => exact (length_le_drainCqe cap s c).trans (ih _)

/-- A drain that begins with the completion of a ready poll delivers an event. -/
theorem drainCq_ne_nil {c : Cqe} {cs : List Cqe} (hcq : r.cq = c :: cs) (hcap : 0 < cap) {i : ℕ}
    (hl : r.Live i) (hud : c.userData = r.seqs i) (hb : r.seqs i < TIMEOUT) (hres : 0 ≤ c.res) :
    (r.drainCq cap).2 ≠ [] := by
  have hwake : TIMEOUT < WAKE := by decide
  have htime : c.userData ≠ TIMEOUT := by omega
  have hne : c.userData ≠ WAKE := by omega
  have hsome : (findSeq { r with cq := [] } c.userData).isSome = true :=
    findSeq_isSome_iff.mpr ⟨i, hl, hud.symm⟩
  obtain ⟨j, hj⟩ := Option.isSome_iff_exists.mp hsome
  have hfirst : (drainCqe cap ({ r with cq := [] }, []) c).2.length = 1 := by
    have hneg : ¬ c.res < 0 := Int.not_lt.mpr hres
    simp only [drainCqe, htime, hne, hj, hneg, if_false, List.length_nil, hcap, if_true]
    rfl
  have hle := length_le_drain cap cs (drainCqe cap ({ r with cq := [] }, []) c)
  intro hnil
  rw [drainCq, hcq, List.foldl_cons] at hnil
  rw [hnil, hfirst] at hle
  exact absurd hle (by decide)

end Drain

/-- In every reachable state of a poller: a wait that starts with nothing outstanding but the wake
poll and the polls of the registered descriptors, and returns without events while none of these
polls failed, consumed a wake or the expiry of the timeout that it staged. -/
theorem zero_event_sound {r : Uring} (hr : Run r) (hc : Clear r) : ZeroEventSound r := by
  intro bounded e r₁ r₂ cap hcap hw hb hp hcq hres hzero
  have hle : r.nextSeq ≤ SEQ_BOUND := by
    have hmono := nextSeq_le_waitSubmit r bounded e
    rw [hw] at hmono
    exact hmono.trans hb
  have hinv := armInv_run hr hle
  have hinv₁ := hinv.waitSubmit bounded e
  rw [hw] at hinv₁
  obtain ⟨hfd, hout⟩ := hc.waitSubmit hinv.first hw hb
  have hg := grows_posted hp
  -- the first completion decides
  obtain ⟨c, cs, hcons⟩ := List.exists_cons_of_ne_nil hcq
  have hmem : c ∈ r₂.cq := by rw [hcons]; exact List.mem_cons_self
  have hop : c.op ∈ r₁.outstanding := by
    rw [← (outstanding_posted hp).mem_iff]
    exact List.mem_append_right _ (List.mem_map_of_mem hmem)
  rcases hout c.op hop with (hwake | ⟨i, hl, hz, fd, mask, hpoll⟩) | ⟨hbounded, htime⟩
  · exact Or.inl ⟨c, hmem, by rw [hwake, hfd]⟩
  · have hud : c.userData = r₁.seqs i := by rw [Cqe.userData, hpoll]; rfl
    have hlt : r₁.seqs i < r₁.nextSeq := ((hinv₁ hb).range i hl hz).2
    have hbt : SEQ_BOUND < TIMEOUT := by decide
    refine absurd hzero (drainCq_ne_nil hcons hcap ((hg.live_iff i).mpr hl) ?_ ?_
      (hres c hmem i hl hz hud))
    · rw [hg.seqs, hud]
    · rw [hg.seqs]
      omega
  · refine Or.inr ⟨hbounded, ⟨c, hmem, htime⟩, fun hold => ?_, fun hold => ?_⟩
    · rcases hc.expected _ hold with h | ⟨i, -, -, fd, mask, h⟩ <;> cases h
    · rcases hout _ hold with (h | ⟨i, -, -, fd, mask, h⟩) | ⟨-, h⟩ <;> cases h

/-- The wake poll and the poll of descriptor `3` are all that is outstanding. -/
theorem clear_ring3 : Clear ring3 := by
  refine ⟨fun op hop => ?_, by decide +kernel⟩
  have hout : ring3.outstanding = [.pollAdd ring3.wakeFd 0x1 WAKE,
      .pollAdd 3 (interestsToPoll READABLE) (ring3.seqs 19)] := by decide +kernel
  rw [hout] at hop
  rcases List.mem_cons.mp hop with rfl | hop
  · exact Or.inl rfl
  · rw [List.mem_singleton.mp hop]
    exact Or.inr ⟨19, ⟨by decide +kernel, by decide +kernel⟩, by decide +kernel, 3, _, rfl⟩

/-- The first wait after the registration is sound, whatever completes. -/
theorem zero_event_sound_first : Clear ring3 ∧ ZeroEventSound ring3 :=
  ⟨clear_ring3, zero_event_sound run_ring3 clear_ring3⟩

/-- A timed wait in which descriptor `3` becomes ready. -/
def ring3Timed : Uring := (ring3.waitSubmit true ⟨128, none⟩).2

/-- The kernel completed the poll; the timeout stays in flight. -/
def ring3Ready : Uring :=
  { ring3Timed with
    inflight := [.pollAdd 100 0x1 WAKE, .timeout]
    cq := [⟨.pollAdd 3 (interestsToPoll READABLE) FIRST_SEQ, 1⟩] }

/-- The untimed wait that follows. -/
def ring3Untimed : Uring := ((ring3Ready.drainCq 8).1.waitSubmit false ⟨128, none⟩).2

/-- The timeout of the first wait expires (`-62`) during the second. -/
def ring3Expired : Uring :=
  { ring3Untimed with
    inflight := [.pollAdd 100 0x1 WAKE, .pollAdd 3 (interestsToPoll READABLE) (FIRST_SEQ + 1)]
    cq := [⟨.timeout, -62⟩] }

/-- A timed wait delivers an event of descriptor `3` and returns; the untimed wait after it returns
without an event, for the timeout of the first one expired. -/
theorem zero_event_spurious :
    Run (ring3Ready.drainCq 8).1 ∧ (ring3Ready.drainCq 8).2 = [⟨7, 3, READABLE⟩] ∧
      (ring3Ready.drainCq 8).1.waitSubmit false ⟨128, none⟩ = (none, ring3Untimed) ∧
      Posted ring3Untimed ring3Expired ∧ ring3Expired.cq = [⟨.timeout, -62⟩] ∧
      (ring3Expired.drainCq 8).2 = [] ∧
      ¬ Justified (ring3Ready.drainCq 8).1 ring3Untimed ring3Expired false := by
  have hw₁ : ring3.waitSubmit true ⟨128, none⟩ = (none, ring3Timed) :=
    Prod.ext (by decide +kernel) rfl
  have hin₁ : ring3Timed.inflight = [.pollAdd 100 0x1 WAKE] ++
      .pollAdd 3 (interestsToPoll READABLE) FIRST_SEQ :: [.timeout] := by decide +kernel
  have hcq₁ : ring3Timed.cq = [] := by decide +kernel
  have hp₁ := Posted.refl.post _ _ _ 1 hin₁
  rw [hcq₁] at hp₁
  have hw₂ : (ring3Ready.drainCq 8).1.waitSubmit false ⟨128, none⟩ = (none, ring3Untimed) :=
    Prod.ext (by decide +kernel) rfl
  have hin₂ : ring3Untimed.inflight = [.pollAdd 100 0x1 WAKE] ++ .timeout ::
      [.pollAdd 3 (interestsToPoll READABLE) (FIRST_SEQ + 1)] := by decide +kernel
  have hcq₂ : ring3Untimed.cq = [] := by decide +kernel
  have hp₂ := Posted.refl.post _ _ _ (-62) hin₂
  rw [hcq₂] at hp₂
  refine ⟨run_ring3.step (.wait 8 hw₁ hp₁), by decide +kernel, hw₂, hp₂, rfl, by decide +kernel, ?_⟩
  rintro (⟨c, hc, hop⟩ | ⟨h, -⟩)
  · rw [List.mem_singleton.mp hc] at hop
    cases hop
  · cases h

end MojitoSys.Io.IoUring
