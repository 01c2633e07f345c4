import MojitoSys.Io.UringProgress

/-!
# Failing control operations of the io_uring backend

A registration, modification or unregistration that fails has not written the table, but it may
have staged entries, and a later `ioring_enter` submits them. A poll that was staged for a
registration that did not come about completes with a number that no slot ever has, so every later
drain drops its completion. A removal cancels the live poll of the descriptor, and the drain of the
cancelled poll retires the registration.

## Main definitions

* `Control`: the control operations.
* `Uring.pending`, `leftBehind`: the entries that a call appended to the rings.
* `Atomic`: a failed call has no effect, in this state and in every later drain.
* `Control.Removes`: the call stages a removal.

## Main results

* `Control.failed`: what a failing call leaves.
* `SeqFrame.step`, `Stray.steps`: a number that was drawn and not assigned stays unassigned.
* `failed_control_atomic_iff`: a failing call is atomic exactly when it stages no removal.
* `failed_control_retires`: a failed unregistration that retires its registration later.
-/

namespace MojitoSys.Io.IoUring

open Uring

/-- A control operation with the outcomes of its `ioring_enter` calls. -/
inductive Control
  | register (e₁ e₂ : Enter) (fd : Fd) (interests : Mask) (token : Token)
  | modify (e₁ e₂ : Enter) (fd : Fd) (interests : Mask) (token : Token)
  | unregister (e : Enter) (fd : Fd)

namespace Control

/-- The call. -/
def run (r : Uring) : Control → Status × Uring
  | register e₁ e₂ fd interests token => r.register e₁ e₂ fd interests token
  | modify e₁ e₂ fd interests token => r.modify e₁ e₂ fd interests token
  | unregister e fd => r.unregister e fd

/-- The call passes its checks, finds the descriptor in the table, and has room to stage the removal
of its poll. -/
def Removes (r : Uring) : Control → Prop
  | register _ _ fd interests _ | modify _ _ fd interests _ =>
    checkInterests interests = none ∧ 0 ≤ fd ∧ r.count < r.cap ∧ r.fds (r.uringSlot fd) = fd ∧
      r.staged.length < r.sqEntries
  | unregister _ fd => 0 ≤ fd ∧ r.fds (r.uringSlot fd) = fd ∧ r.staged.length < r.sqEntries

theorem step (r : Uring) (c : Control) : Step r (c.run r).2 := by
  cases c with
  | register e₁ e₂ fd interests token => exact .register e₁ e₂ fd interests token
  | modify e₁ e₂ fd interests token => exact .modify e₁ e₂ fd interests token
  | unregister e fd => exact .unregister e fd

end Control

/-- The entry removes a poll. -/
def Sqe.isRemoval : Sqe → Bool
  | .pollRemove _ => true
  | .pollAdd _ _ _ | .timeout | .timeoutRemove => false

/-- The entries in the kernel and the staged ones, in the order of their staging. -/
def Uring.pending (r : Uring) : List Sqe := r.inflight ++ r.staged

/-- The entries that a call from `r` to `r'` left in the rings. -/
def leftBehind (r r' : Uring) : List Sqe := r'.pending.drop r.pending.length

/-- The registrations of two states are the same, with the numbers of their polls. -/
structure SameRegistrations (r r' : Uring) : Prop where
  fds : r'.fds = r.fds
  seqs : r'.seqs = r.seqs
  toks : r'.toks = r.toks
  ints : r'.ints = r.ints
  count : r'.count = r.count

/-- A failed call from `r` to `r'` has no effect: the registrations are as before, nothing that it
left cancels a poll, and every later drain does what it would do without the entries left. -/
structure Atomic (r r' : Uring) : Prop where
  kept : SameRegistrations r r'
  noRemoval : ∀ op ∈ leftBehind r r', op.isRemoval = false
  later : ∀ q, Relation.ReflTransGen Step r' q → q.nextSeq ≤ SEQ_BOUND → ∀ cap,
    q.drainCq cap = Uring.drainCq { q with cq := q.cq.filter (·.op ∉ leftBehind r r') } cap

/-! ### What a call leaves -/

section Left

variable {r r' : Uring} {op : Sqe}

theorem pending_stage (h : r.stage op = some r') : r'.pending = r.pending ++ [op] := by
  obtain ⟨-, rfl⟩ := stage_eq_some.mp h
  simp [pending]

theorem pending_enter (r : Uring) (e : Enter) : (r.enter e).pending = r.pending := by
  simp [pending, Uring.enter]

theorem pending_submit (r : Uring) (e : Enter) (n : ℕ) : (r.submit e n).2.pending = r.pending := by
  unfold submit
  split
  · rfl
  · exact pending_enter r e

theorem leftBehind_of_pending {ops : List Sqe} (h : r'.pending = r.pending ++ ops) :
    leftBehind r r' = ops := by
  rw [leftBehind, h, List.drop_left]

theorem Uring.Quiet.sameRegistrations (h : r.Quiet r') : SameRegistrations r r' := by
  rw [Quiet] at h
  rw [h]
  exact ⟨rfl, rfl, rfl, rfl, rfl⟩

/-- The submission of a poll leaves nothing or the poll. -/
theorem pending_submitPollAdd (r : Uring) (e₁ e₂ : Enter) (op : Sqe) :
    (r.submitPollAdd e₁ e₂ op).2.pending = r.pending ∨
      (r.submitPollAdd e₁ e₂ op).2.pending = r.pending ++ [op] := by
  unfold submitPollAdd
  cases h₁ : r.stage op with
  | some r₁ =>
    rw [← pending_stage h₁]
    exact Or.inr (pending_submit r₁ e₂ 0)
  | none =>
    have hflush := pending_submit r e₁ 0
    simp only
    rcases h₂ : r.submit e₁ 0 with ⟨_ | err, r₂⟩
    · rw [h₂] at hflush
      simp only at hflush ⊢
      cases h₃ : r₂.stage op with
      | none => exact Or.inl hflush
      | some r₃ =>
        rw [← hflush, ← pending_stage h₃]
        exact Or.inr (pending_submit r₃ e₂ 0)
    · rw [h₂] at hflush
      exact Or.inl hflush

/-- What a failing call leaves: a removal, or nothing but the poll of the number it drew. -/
structure Left (r r' : Uring) (removes : Prop) : Prop where
  kept : SameRegistrations r r'
  removal : removes → ∃ target, .pollRemove target ∈ leftBehind r r'
  poll : ¬ removes → leftBehind r r' = [] ∨
    ∃ fd mask, leftBehind r r' = [.pollAdd fd mask r.uringNextSeq] ∧ r'.nextSeq = r.nextSeq + 1

/-- A call that stopped at its checks. -/
theorem Left.refl (r : Uring) {removes : Prop} (h : ¬ removes) : Left r r removes where
  kept := ⟨rfl, rfl, rfl, rfl, rfl⟩
  removal hr := absurd hr h
  poll _ := Or.inl (leftBehind_of_pending (List.append_nil _).symm)

/-- An upsert that fails. -/
theorem registerUpsert_failed {e : Enter} {slot : ℕ} {fd : Fd} {interests : Mask} {token : Token}
    {seq : ℕ} (h : (r.registerUpsert e slot fd interests token seq).1 ≠ none) :
    SameRegistrations r (r.registerUpsert e slot fd interests token seq).2 ∧
      ((r.registerUpsert e slot fd interests token seq).2 = r ∧ ¬ r.staged.length < r.sqEntries ∨
        r.staged.length < r.sqEntries ∧ ∃ ops,
          (r.registerUpsert e slot fd interests token seq).2.pending =
            r.pending ++ .pollRemove (r.seqs slot) :: ops) := by
  unfold Uring.registerUpsert at h ⊢
  cases h₁ : r.stage (.pollRemove (r.seqs slot)) with
  | none => exact ⟨⟨rfl, rfl, rfl, rfl, rfl⟩, Or.inl ⟨rfl, stage_eq_none.mp h₁⟩⟩
  | some r₁ =>
    have hroom := (stage_eq_some.mp h₁).1
    have hp₁ := pending_stage h₁
    simp only [h₁] at h ⊢
    cases h₂ : r₁.stage (.pollAdd fd (interestsToPoll interests) seq) with
    | none => exact ⟨(quiet_stage h₁).sameRegistrations, Or.inr ⟨hroom, [], hp₁⟩⟩
    | some r₂ =>
      have hp₂ := pending_stage h₂
      have hp₃ := pending_submit r₂ e 0
      have hq := ((quiet_stage h₁).trans (quiet_stage h₂)).trans (quiet_submit r₂ e 0)
      simp only [h₂] at h ⊢
      rcases h₃ : r₂.submit e 0 with ⟨_ | err, r₃⟩
      · rw [h₃] at h
        exact absurd rfl h
      · rw [h₃] at hp₃ hq
        refine ⟨hq.sameRegistrations, Or.inr ⟨hroom,
          [.pollAdd fd (interestsToPoll interests) seq], ?_⟩⟩
        simp only [hp₃, hp₂, hp₁, List.append_assoc, List.singleton_append]

/-- An insertion that fails. -/
theorem registerNew_failed {e₁ e₂ : Enter} {slot : ℕ} {fd : Fd} {interests : Mask} {token : Token}
    {seq : ℕ} (h : (r.registerNew e₁ e₂ slot fd interests token seq).1 ≠ none) :
    SameRegistrations r (r.registerNew e₁ e₂ slot fd interests token seq).2 ∧
      ((r.registerNew e₁ e₂ slot fd interests token seq).2.pending = r.pending ∨
        (r.registerNew e₁ e₂ slot fd interests token seq).2.pending =
          r.pending ++ [.pollAdd fd (interestsToPoll interests) seq]) := by
  have hq := r.quiet_submitPollAdd e₁ e₂ (.pollAdd fd (interestsToPoll interests) seq)
  have hp := pending_submitPollAdd r e₁ e₂ (.pollAdd fd (interestsToPoll interests) seq)
  unfold Uring.registerNew at h ⊢
  rcases hs : r.submitPollAdd e₁ e₂ (.pollAdd fd (interestsToPoll interests) seq) with
    ⟨_ | err, q⟩
  · rw [hs] at h
    exact absurd rfl h
  · rw [hs] at hq hp
    exact ⟨hq.sameRegistrations, hp⟩

theorem SameRegistrations.trans {r₁ r₂ r₃ : Uring} (h₁ : SameRegistrations r₁ r₂)
    (h₂ : SameRegistrations r₂ r₃) : SameRegistrations r₁ r₃ :=
  ⟨h₂.fds.trans h₁.fds, h₂.seqs.trans h₁.seqs, h₂.toks.trans h₁.toks, h₂.ints.trans h₁.ints,
    h₂.count.trans h₁.count⟩

theorem register_failed {e₁ e₂ : Enter} {fd : Fd} {interests : Mask} {token : Token}
    (h : (r.register e₁ e₂ fd interests token).1 ≠ none) :
    Left r (r.register e₁ e₂ fd interests token).2
      ((Control.register e₁ e₂ fd interests token).Removes r) := by
  have hdraw : SameRegistrations r r.draw := ⟨rfl, rfl, rfl, rfl, rfl⟩
  unfold Uring.register at h ⊢
  cases hc : checkInterests interests with
  | some err => exact Left.refl r fun hr => by simp [Control.Removes, hc] at hr
  | none =>
    simp only [hc] at h ⊢
    split_ifs at h ⊢ with hfd hfull hslot
    · exact Left.refl r fun hr => absurd hr.2.1 (Int.not_le.mpr hfd)
    · exact Left.refl r fun hr => absurd hr.2.2.1 (Nat.not_lt.mpr hfull)
    · obtain ⟨hkept, ⟨heq, hno⟩ | ⟨hroom, ops, hpend⟩⟩ := registerUpsert_failed h
      · refine ⟨hdraw.trans hkept, fun hr => absurd hr.2.2.2.2 hno, fun _ => Or.inl ?_⟩
        rw [heq]
        exact leftBehind_of_pending (List.append_nil _).symm
      · have hrem : (Control.register e₁ e₂ fd interests token).Removes r :=
          ⟨hc, Int.not_lt.mp hfd, Nat.not_le.mp hfull, hslot, hroom⟩
        refine ⟨hdraw.trans hkept, fun _ => ⟨r.seqs (r.uringSlot fd), ?_⟩, fun hr => absurd hrem hr⟩
        rw [leftBehind_of_pending (r := r) hpend]
        exact List.mem_cons_self
    · obtain ⟨hkept, hpend⟩ := registerNew_failed h
      refine ⟨hdraw.trans hkept, fun hr => absurd hr.2.2.2.1 hslot, fun _ => ?_⟩
      rcases hpend with hpend | hpend
      · exact Or.inl (leftBehind_of_pending (hpend.trans (List.append_nil _).symm))
      · exact Or.inr ⟨fd, interestsToPoll interests, leftBehind_of_pending hpend,
          nextSeq_registerNew _ _ _ _ _ _ _ _⟩

theorem unregister_failed {e : Enter} {fd : Fd} (h : (r.unregister e fd).1 ≠ none) :
    Left r (r.unregister e fd).2 ((Control.unregister e fd).Removes r) := by
  unfold Uring.unregister at h ⊢
  by_cases hfd : fd < 0
  · rw [if_pos hfd]
    exact Left.refl r fun hr => absurd hr.1 (Int.not_le.mpr hfd)
  · simp only [if_neg hfd] at h ⊢
    by_cases hslot : r.fds (r.uringSlot fd) = fd
    · simp only [hslot, ne_eq, not_true_eq_false, if_false] at h ⊢
      cases h₁ : r.stage (.pollRemove (r.seqs (r.uringSlot fd))) with
      | none => exact Left.refl r fun hr => stage_eq_none.mp h₁ hr.2.2
      | some r₁ =>
        have hp := (pending_submit r₁ e 0).trans (pending_stage h₁)
        have hq := (quiet_stage h₁).trans (quiet_submit r₁ e 0)
        have hrem : (Control.unregister e fd).Removes r :=
          ⟨Int.not_lt.mp hfd, hslot, (stage_eq_some.mp h₁).1⟩
        simp only [h₁] at h ⊢
        rcases h₂ : r₁.submit e 0 with ⟨_ | err, r₂⟩
        · rw [h₂] at h
          exact absurd rfl h
        · rw [h₂] at hp hq
          refine ⟨hq.sameRegistrations, fun _ => ⟨r.seqs (r.uringSlot fd), ?_⟩,
            fun hr => absurd hrem hr⟩
          simp only [leftBehind_of_pending hp, List.mem_singleton]
    · simp [hslot] at h

/-- What a failing control operation leaves. -/
theorem Control.failed (c : Control) (h : (c.run r).1 ≠ none) :
    Left r (c.run r).2 (c.Removes r) := by
  cases c with
  | register e₁ e₂ fd interests token => exact register_failed h
  | modify e₁ e₂ fd interests token =>
    change (r.modify e₁ e₂ fd interests token).1 ≠ none at h
    change Left r (r.modify e₁ e₂ fd interests token).2
      ((Control.register e₁ e₂ fd interests token).Removes r)
    unfold Uring.modify at h ⊢
    by_cases hfd : fd < 0
    · rw [if_pos hfd]
      exact Left.refl r fun hr => absurd hr.2.1 (Int.not_le.mpr hfd)
    · rw [if_neg hfd] at h ⊢
      exact register_failed h
  | unregister e fd => exact unregister_failed h

end Left

/-! ### Numbers that were drawn and not assigned -/

/-- The live slots of `r'` are disarmed, or as in `r`, or carry a number drawn since. -/
structure SeqFrame (r r' : Uring) : Prop where
  cap : r'.cap = r.cap
  le : r.nextSeq ≤ r'.nextSeq
  slot : ∀ i, r'.Live i →
    r'.seqs i = 0 ∨ r.Live i ∧ r'.seqs i = r.seqs i ∨ r.nextSeq ≤ r'.seqs i

namespace SeqFrame

variable {r r' r₁ r₂ r₃ : Uring}

theorem of_same (hcap : r'.cap = r.cap) (hfds : r'.fds = r.fds) (hseqs : r'.seqs = r.seqs)
    (hle : r.nextSeq ≤ r'.nextSeq) : SeqFrame r r' where
  cap := hcap
  le := hle
  slot i hl := by
    rw [Live, hcap, hfds] at hl
    exact Or.inr (Or.inl ⟨hl, by rw [hseqs]⟩)

theorem refl (r : Uring) : SeqFrame r r := of_same rfl rfl rfl (Nat.le_refl _)

theorem trans (h₁ : SeqFrame r₁ r₂) (h₂ : SeqFrame r₂ r₃) : SeqFrame r₁ r₃ where
  cap := h₂.cap.trans h₁.cap
  le := h₁.le.trans h₂.le
  slot i hl := by
    rcases h₂.slot i hl with hz | ⟨hl', hs⟩ | hnew
    · exact Or.inl hz
    · rw [hs]
      exact h₁.slot i hl'
    · exact Or.inr (Or.inr (h₁.le.trans hnew))

theorem quiet (h : r.Quiet r') : SeqFrame r r' := by
  rw [Quiet] at h
  rw [h]
  exact of_same rfl rfl rfl (Nat.le_refl _)

/-- A slot that gets a number drawn since. -/
theorem assign {slot seq : ℕ} (hcap : r'.cap = r.cap) (hle : r.nextSeq ≤ r'.nextSeq)
    (hfds : ∀ i, i ≠ slot → r'.fds i = r.fds i) (hseqs : r'.seqs = Function.update r.seqs slot seq)
    (hseq : r.nextSeq ≤ seq) : SeqFrame r r' where
  cap := hcap
  le := hle
  slot i hl := by
    rw [hseqs, Function.update_apply]
    split_ifs with hi
    · exact Or.inr (Or.inr hseq)
    · rw [Live, hcap, hfds i hi] at hl
      exact Or.inr (Or.inl ⟨hl, rfl⟩)

theorem uringNextSeq_eq (h : r.nextSeq ≤ SEQ_BOUND) : r.uringNextSeq = r.nextSeq := by
  have hb : SEQ_BOUND < 0x10000000000000000 := by decide
  exact Nat.mod_eq_of_lt (by omega)

theorem register {e₁ e₂ : Enter} {fd : Fd} {interests : Mask} {token : Token}
    (hb : r.nextSeq ≤ SEQ_BOUND) : SeqFrame r (r.register e₁ e₂ fd interests token).2 := by
  have hseq := uringNextSeq_eq hb
  have hdraw : SeqFrame r r.draw := of_same rfl rfl rfl (Nat.le_succ _)
  unfold Uring.register
  cases checkInterests interests with
  | some err => exact refl r
  | none =>
    simp only
    split_ifs with hfd hfull hslot
    · exact refl r
    · exact refl r
    · obtain ⟨q, hq, h | h⟩ := r.draw.registerUpsert_quiet e₂ (r.uringSlot fd) fd interests token
        r.uringNextSeq
      · rw [h]
        exact hdraw.trans (quiet hq)
      · rw [h, hq]
        exact assign rfl (Nat.le_succ _) (fun _ _ => rfl) rfl hseq.ge
    · obtain ⟨q, hq, h | h⟩ := r.draw.registerNew_quiet e₁ e₂ (r.uringSlot fd) fd interests token
        r.uringNextSeq
      · rw [h]
        exact hdraw.trans (quiet hq)
      · rw [h, hq]
        exact assign rfl (Nat.le_succ _) (fun i hi => Function.update_of_ne hi _ _) rfl hseq.ge

theorem clear (r : Uring) (slot : ℕ) : SeqFrame r (r.clear slot) where
  cap := rfl
  le := Nat.le_refl _
  slot i hl := by
    have hi : i ≠ slot := by
      rintro rfl
      simp [Live, Uring.clear] at hl
    exact Or.inr (Or.inl ⟨by simpa [Live, Uring.clear, hi] using hl, rfl⟩)

theorem unregister (r : Uring) (e : Enter) (fd : Fd) : SeqFrame r (r.unregister e fd).2 := by
  unfold Uring.unregister
  split
  · exact refl r
  · simp only
    split
    · exact refl r
    · cases h₁ : r.stage (.pollRemove (r.seqs (r.uringSlot fd))) with
      | none => exact refl r
      | some r₁ =>
        have hq := quiet ((quiet_stage h₁).trans (quiet_submit r₁ e 0))
        simp only
        rcases h₂ : r₁.submit e 0 with ⟨_ | err, r₂⟩
        · rw [h₂] at hq
          exact hq.trans (clear r₂ _)
        · rwa [h₂] at hq

theorem rearm {is : List ℕ} (hb : (Uring.rearm is r).2.nextSeq ≤ SEQ_BOUND) :
    SeqFrame r (Uring.rearm is r).2 := by
  induction is generalizing r with
  | nil => exact refl r
  | cons i is ih =>
    by_cases hf : 0 ≤ r.fds i ∧ r.seqs i = 0
    · by_cases hroom : r.staged.length < r.sqEntries
      · rw [rearm_cons_of_fired hf hroom] at hb ⊢
        have hle : r.nextSeq + 1 ≤ (Uring.rearm is (r.rearmed i)).2.nextSeq :=
          nextSeq_le_rearm is (r.rearmed i)
        have hseq : r.nextSeq ≤ r.uringNextSeq := (uringNextSeq_eq (by omega)).ge
        have hone : SeqFrame r (r.rearmed i) := assign rfl (Nat.le_succ _) (fun _ _ => rfl) rfl hseq
        exact hone.trans (ih hb)
      · rw [rearm_cons_of_full hf hroom]
        exact of_same rfl rfl rfl (Nat.le_succ _)
    · rw [Uring.rearm, if_neg hf] at hb ⊢
      exact ih hb

theorem closed (r : Uring) : Closed (SeqFrame r) where
  stage h hs _ := h.trans (quiet (quiet_stage hs))
  enter _ h := h.trans (of_same rfl rfl rfl (Nat.le_refl _))
  wake _ h := h.trans (of_same rfl rfl rfl (Nat.le_refl _))
  timeout _ h := h.trans (of_same rfl rfl rfl (Nat.le_refl _))

theorem waitSubmit (r : Uring) (bounded : Bool) (e : Enter)
    (hb : (r.waitSubmit bounded e).2.nextSeq ≤ SEQ_BOUND) :
    SeqFrame r (r.waitSubmit bounded e).2 := by
  have hg := grows_waitSubmit r bounded e
  rw [hg.nextSeq] at hb
  exact (closed r).waitSubmit bounded e (rearm hb)

theorem drainCqe (r : Uring) (cap : ℕ) (events : List PollEvent) (c : Cqe) :
    SeqFrame r (Uring.drainCqe cap (r, events) c).1 := by
  unfold Uring.drainCqe
  simp only
  split
  · exact of_same rfl rfl rfl (Nat.le_refl _)
  split
  · exact of_same rfl rfl rfl (Nat.le_refl _)
  cases r.findSeq c.userData with
  | none => exact refl r
  | some i =>
    simp only
    split
    · exact clear r i
    · refine ⟨rfl, Nat.le_refl _, fun j hl => ?_⟩
      simp only [Function.update_apply]
      split_ifs
      · exact Or.inl rfl
      · exact Or.inr (Or.inl ⟨hl, rfl⟩)

theorem drainCq (r : Uring) (cap : ℕ) : SeqFrame r (r.drainCq cap).1 := by
  suffices h : ∀ (cs : List Cqe) (q : Uring) (events : List PollEvent),
      SeqFrame q (cs.foldl (Uring.drainCqe cap) (q, events)).1 by
    have htaken : SeqFrame r { r with cq := [] } := of_same rfl rfl rfl (Nat.le_refl _)
    exact htaken.trans (h r.cq { r with cq := [] } [])
  intro cs
  induction cs with
  | nil => exact fun q _ => refl q
  | cons c cs ih => exact fun q events => (drainCqe q cap events c).trans (ih _ _)

/-- What one step does to the numbers of the live slots. -/
theorem step (hs : Step r r') (hb : r'.nextSeq ≤ SEQ_BOUND) : SeqFrame r r' := by
  have hle := (nextSeq_le_step hs).trans hb
  cases hs with
  | register e₁ e₂ fd interests token => exact register hle
  | modify e₁ e₂ fd interests token =>
    unfold Uring.modify
    split
    · exact refl r
    · exact register hle
  | unregister e fd => exact unregister r e fd
  | @waitFail bounded e err _ h =>
    have hw := waitSubmit r bounded e
    rw [h] at hw
    exact hw hb
  | @wait bounded e r₁ r₂ cap h hp =>
    have hw := waitSubmit r bounded e
    rw [h] at hw
    rw [nextSeq_drainCq, (grows_posted hp).nextSeq] at hb
    have hg := grows_posted hp
    exact ((hw hb).trans (of_same hg.cap hg.fds hg.seqs hg.nextSeq.ge)).trans (drainCq r₂ cap)
  | post h =>
    have hg := grows_posted h
    exact of_same hg.cap hg.fds hg.seqs hg.nextSeq.ge

end SeqFrame

/-- The number was drawn, and no live slot carries it. -/
structure Stray (seq : ℕ) (r : Uring) : Prop where
  lower : FIRST_SEQ ≤ seq
  upper : seq < r.nextSeq
  unassigned : ∀ i, r.Live i → r.seqs i ≠ seq

section Stray

variable {r r' : Uring} {seq : ℕ}

theorem Stray.frame (h : Stray seq r) (hf : SeqFrame r r') : Stray seq r' where
  lower := h.lower
  upper := h.upper.trans_le hf.le
  unassigned i hl := by
    have hlow : 0 < FIRST_SEQ := by decide
    have hlower := h.lower
    have hupper := h.upper
    rcases hf.slot i hl with hz | ⟨hl', hs⟩ | hnew
    · omega
    · rw [hs]
      exact h.unassigned i hl'
    · omega

/-- The number stays unassigned. -/
theorem Stray.steps (h : Stray seq r) (hs : Relation.ReflTransGen Step r r')
    (hb : r'.nextSeq ≤ SEQ_BOUND) : Stray seq r' := by
  induction hs with
  | refl => exact h
  | tail _ hstep ih =>
    exact (ih ((nextSeq_le_step hstep).trans hb)).frame (.step hstep hb)

/-- A drain drops the completions with an unassigned number. -/
theorem Stray.drain_filter (h : Stray seq r) (hb : seq < TIMEOUT) {ops : List Sqe}
    (hops : ∀ op ∈ ops, op.userData = seq) (cap : ℕ) (cs : List Cqe) (events : List PollEvent) :
    cs.foldl (drainCqe cap) (r, events) =
      (cs.filter (·.op ∉ ops)).foldl (drainCqe cap) (r, events) := by
  induction cs generalizing r events with
  | nil => rfl
  | cons c cs ih =>
    by_cases hc : c.op ∈ ops
    · have hud : c.userData = seq := hops c.op hc
      have hwake : TIMEOUT < WAKE := by decide
      have hnone : r.findSeq seq = none := by
        rw [← Option.not_isSome_iff_eq_none, findSeq_isSome_iff]
        rintro ⟨i, hl, hs⟩
        exact h.unassigned i hl hs
      have hdrop : drainCqe cap (r, events) c = (r, events) := by
        have htime : seq ≠ TIMEOUT := by omega
        have hne : seq ≠ WAKE := by omega
        simp only [drainCqe, hud, htime, hne, if_false, hnone]
      rw [List.foldl_cons, hdrop, List.filter_cons_of_neg (by simpa using hc)]
      exact ih h events
    · rw [List.foldl_cons, List.filter_cons_of_pos (by simpa using hc), List.foldl_cons]
      exact ih (h.frame (.drainCqe r cap events c)) _

end Stray

/-! ### Failing calls -/

/-- In every reachable state, a control operation that fails has no effect, then and in every later
drain, exactly when it did not come to stage a removal. -/
theorem failed_control_atomic_iff {r : Uring} (hr : Run r) (c : Control)
    (hfail : (c.run r).1 ≠ none) : Atomic r (c.run r).2 ↔ ¬ c.Removes r := by
  have hleft := c.failed hfail
  constructor
  · intro hat hrem
    obtain ⟨target, hmem⟩ := hleft.removal hrem
    exact absurd (hat.noRemoval _ hmem) (by simp [Sqe.isRemoval])
  · intro hno
    rcases hleft.poll hno with hnil | ⟨fd, mask, hone, hnext⟩
    · refine ⟨hleft.kept, by simp [hnil], fun q _ _ cap => ?_⟩
      simp [hnil]
    · refine ⟨hleft.kept, by simp [hone, Sqe.isRemoval], fun q hq hb cap => ?_⟩
      have hrun : ∀ q', Relation.ReflTransGen Step (c.run r).2 q' →
          (c.run r).2.nextSeq ≤ q'.nextSeq := by
        intro q' hq'
        induction hq' with
        | refl => exact Nat.le_refl _
        | tail _ hs ih => exact ih.trans (nextSeq_le_step hs)
      have hb' : (c.run r).2.nextSeq ≤ SEQ_BOUND := (hrun q hq).trans hb
      have hbr : r.nextSeq ≤ SEQ_BOUND := by omega
      have hseq := SeqFrame.uringNextSeq_eq hbr
      have hinv := armInv_run hr hbr
      have hstray : Stray r.uringNextSeq (c.run r).2 := by
        rw [hseq]
        refine ⟨hinv.first, by omega, fun i hl he => ?_⟩
        have hcap := (SeqFrame.step (c.step r) hb').cap
        rw [hleft.kept.seqs] at he
        have hl' : r.Live i := by rwa [Live, hcap, hleft.kept.fds] at hl
        have hfirst : 0 < FIRST_SEQ := by decide
        have hlow := hinv.first
        have hlt := (hinv.range i hl' (by omega)).2
        omega
      have htime : r.uringNextSeq < TIMEOUT := by
        have hbt : SEQ_BOUND < TIMEOUT := by decide
        omega
      have hops : ∀ op ∈ leftBehind r (c.run r).2, op.userData = r.uringNextSeq := by
        simp [hone, Sqe.userData]
      have htaken : SeqFrame q { q with cq := [] } := .of_same rfl rfl rfl (Nat.le_refl _)
      exact ((hstray.steps hq hb).frame htaken).drain_filter htime hops cap q.cq []

/-- A registration whose `ioring_enter` fails leaves a poll staged, and no effect. -/
theorem failed_control_atomic_new :
    ((Control.register ⟨0, none⟩ ⟨0, some (.other 16)⟩ 3 READABLE 7).run freshRing).1 ≠ none ∧
      Atomic freshRing
        ((Control.register ⟨0, none⟩ ⟨0, some (.other 16)⟩ 3 READABLE 7).run freshRing).2 := by
  have hfail : ((Control.register ⟨0, none⟩ ⟨0, some (.other 16)⟩ 3 READABLE 7).run
      freshRing).1 ≠ none := by decide +kernel
  refine ⟨hfail, (failed_control_atomic_iff (.start start_freshRing) _ hfail).mpr fun hrem => ?_⟩
  exact absurd hrem.2.2.2.1 (by decide)

/-- Descriptor `3` registered in slot `19`. -/
def ring3 : Uring := (freshRing.register ⟨0, none⟩ ⟨1, none⟩ 3 READABLE 7).2

theorem run_ring3 : Run ring3 := (Run.start start_freshRing).step (.register _ _ 3 READABLE 7)

/-- The same after an unregistration whose `ioring_enter` returned `EBUSY`. -/
def ring3Failed : Uring := (ring3.unregister ⟨0, some (.other 16)⟩ 3).2

/-- The same after the next wait submitted what was staged. -/
def ring3Submitted : Uring := (ring3Failed.waitSubmit false ⟨128, none⟩).2

/-- An unregistration of descriptor `3` fails with `EBUSY`, and the table still holds it. The next
wait submits the removal, the kernel cancels the poll (`-125`), and the drain retires the
registration and delivers nothing. -/
theorem failed_control_retires :
    Run ring3 ∧ (ring3.unregister ⟨0, some (.other 16)⟩ 3).1 = some (.other 16) ∧
      ring3Failed.fds 19 = 3 ∧ ring3Failed.toks 19 = 7 ∧
      ring3Failed.waitSubmit false ⟨128, none⟩ = (none, ring3Submitted) ∧
      .pollRemove FIRST_SEQ ∈ ring3Submitted.inflight ∧
      ∃ r, Posted ring3Submitted r ∧
        r.cq = [⟨.pollAdd 3 (interestsToPoll READABLE) FIRST_SEQ, -125⟩] ∧
        (r.drainCq 8).2 = [] ∧ (r.drainCq 8).1.fds 19 = -1 := by
  have hin : ring3Submitted.inflight = [.pollAdd 100 0x1 WAKE] ++
      .pollAdd 3 (interestsToPoll READABLE) FIRST_SEQ :: [.pollRemove FIRST_SEQ] := by
    decide +kernel
  refine ⟨run_ring3, by decide +kernel, by decide +kernel, by decide +kernel, ?_, by simp [hin],
    _, Posted.refl.post _ _ _ (-125) hin, by decide +kernel, by decide +kernel, by decide +kernel⟩
  have hok : (ring3Failed.waitSubmit false ⟨128, none⟩).1 = none := by decide +kernel
  rw [← hok]
  rfl

end MojitoSys.Io.IoUring
