import MojitoSys.Io.UringTable
import Mathlib.Data.List.Count
import Mathlib.Data.List.Perm.Basic

/-!
# Armed polls of the io_uring backend

A live slot is armed when its sequence number is not `0`; then exactly one poll with this number as
its user data is outstanding, that is staged, in the kernel, or completed and not yet drained.
Numbers are drawn at three places and cleared at one, and a call may stop after any staging or
`ioring_enter`. Every part of a call keeps the invariant, so a call that stops halfway does too.

Most parts of the calls only stage internal entries and move entries between the rings (`Grows`).
A poll of a registration goes through three states: its number is drawn (`Drawn`), the poll is
staged (`Fresh`), and the number is written to the slot.

## Main definitions

* `Uring.outstanding`, `Uring.slotPoll`, `Sqe.isPoll`.
* `ArmInv`: the invariant.
* `Grows`, `Drawn`, `Fresh`.

## Main results

* `ArmInv.step`, `armInv_run`: the invariant is preserved by a step and holds along a run.
* `arming_invariant`: every armed slot has exactly one outstanding poll, the numbers are distinct,
  and a successful wait leaves no live slot un-armed.
-/

namespace MojitoSys.Io.IoUring

open scoped List

/-- The bound of the sequence numbers that a poller draws. -/
def SEQ_BOUND : ℕ := FIRST_SEQ + 2 ^ 63

/-- The entry is the poll with the user data `ud`. -/
def Sqe.isPoll (ud : ℕ) : Sqe → Bool
  | .pollAdd _ _ u => u = ud
  | .pollRemove _ | .timeout | .timeoutRemove => false

theorem Sqe.Internal.isPoll_eq_false {op : Sqe} (h : op.Internal) {ud : ℕ} (hud : ud < WAKE) :
    op.isPoll ud = false := by
  cases op with
  | pollAdd fd mask u =>
    have hu : u = WAKE := h
    simp only [isPoll, decide_eq_false_iff_not]
    omega
  | pollRemove target => rfl
  | timeout => rfl
  | timeoutRemove => rfl

namespace Uring

/-- The operations staged, in the kernel, or completed and not drained. -/
def outstanding (r : Uring) : List Sqe := r.staged ++ r.inflight ++ r.cq.map Cqe.op

/-- The number of outstanding polls with the user data `ud`. -/
def polls (r : Uring) (ud : ℕ) : ℕ := r.outstanding.countP (Sqe.isPoll ud)

/-- The poll that a live slot asks for. -/
def slotPoll (r : Uring) (i : ℕ) : Sqe :=
  .pollAdd (r.fds i) (interestsToPoll (r.ints i)) (r.seqs i)

/-- The slot holds a registration. -/
def Live (r : Uring) (i : ℕ) : Prop := i < r.cap ∧ 0 ≤ r.fds i

/-- The invariant of the armed slots. -/
structure ArmInv (r : Uring) : Prop where
  first : FIRST_SEQ ≤ r.nextSeq
  bound : r.nextSeq ≤ SEQ_BOUND
  drawn : ∀ fd mask ud, .pollAdd fd mask ud ∈ r.outstanding →
    ud = WAKE ∨ FIRST_SEQ ≤ ud ∧ ud < r.nextSeq
  range : ∀ i, r.Live i → r.seqs i ≠ 0 → FIRST_SEQ ≤ r.seqs i ∧ r.seqs i < r.nextSeq
  armed : ∀ i, r.Live i → r.seqs i ≠ 0 →
    r.polls (r.seqs i) = 1 ∧ r.slotPoll i ∈ r.outstanding
  injective : ∀ i j, r.Live i → r.Live j → r.seqs i ≠ 0 → r.seqs i = r.seqs j → i = j

/-- `r'` has the table of `r` and the same outstanding operations, with internal ones added. -/
structure Grows (r r' : Uring) : Prop where
  cap : r'.cap = r.cap
  fds : r'.fds = r.fds
  seqs : r'.seqs = r.seqs
  ints : r'.ints = r.ints
  nextSeq : r'.nextSeq = r.nextSeq
  perm : ∃ ops, (∀ op ∈ ops, op.Internal) ∧ r'.outstanding.Perm (ops ++ r.outstanding)

/-- The number `seq` was drawn and is not in use. -/
structure Drawn (seq : ℕ) (r : Uring) : Prop extends ArmInv r where
  lower : FIRST_SEQ ≤ seq
  upper : seq < r.nextSeq
  unused : r.polls seq = 0
  unassigned : ∀ i, r.Live i → r.seqs i ≠ seq

/-- The poll `seq` of the descriptor `fd` is outstanding with the mask, and belongs to no slot. -/
structure Fresh (seq : ℕ) (fd : Fd) (mask : Mask) (r : Uring) : Prop extends ArmInv r where
  lower : FIRST_SEQ ≤ seq
  upper : seq < r.nextSeq
  once : r.polls seq = 1 ∧ .pollAdd fd mask seq ∈ r.outstanding
  unassigned : ∀ i, r.Live i → r.seqs i ≠ seq

variable {r r' : Uring} {seq : ℕ} {fd : Fd} {mask : Mask}

theorem ArmInv.lt_wake (h : ArmInv r) {n : ℕ} (hn : n < r.nextSeq) : n < WAKE := by
  have hb := h.bound
  have hw : SEQ_BOUND < WAKE := by decide
  omega

/-! ### Parts of the calls that only grow the rings -/

theorem Grows.refl (r : Uring) : Grows r r :=
  ⟨rfl, rfl, rfl, rfl, rfl, [], by simp, List.Perm.refl _⟩

theorem Grows.trans {r₁ r₂ r₃ : Uring} (h₁ : Grows r₁ r₂) (h₂ : Grows r₂ r₃) : Grows r₁ r₃ := by
  obtain ⟨ops₁, hin₁, hp₁⟩ := h₁.perm
  obtain ⟨ops₂, hin₂, hp₂⟩ := h₂.perm
  refine ⟨h₂.cap.trans h₁.cap, h₂.fds.trans h₁.fds, h₂.seqs.trans h₁.seqs, h₂.ints.trans h₁.ints,
    h₂.nextSeq.trans h₁.nextSeq, ops₂ ++ ops₁, ?_, ?_⟩
  · intro op hop
    rcases List.mem_append.mp hop with h | h
    · exact hin₂ op h
    · exact hin₁ op h
  · rw [List.append_assoc]
    exact hp₂.trans (hp₁.append_left ops₂)

theorem grows_stage {op : Sqe} (h : r.stage op = some r') (hin : op.Internal) : Grows r r' := by
  obtain ⟨-, rfl⟩ := stage_eq_some.mp h
  refine ⟨rfl, rfl, rfl, rfl, rfl, [op], by simpa using hin, ?_⟩
  simp only [outstanding, List.append_assoc, List.singleton_append]
  exact List.perm_middle

theorem outstanding_enter (r : Uring) (e : Enter) : (r.enter e).outstanding ~ r.outstanding := by
  simp only [outstanding, enter]
  refine List.Perm.append_right _ ?_
  calc r.staged.drop e.consumed ++ (r.inflight ++ r.staged.take e.consumed)
      _ ~ r.inflight ++ r.staged.take e.consumed ++ r.staged.drop e.consumed :=
        List.perm_append_comm
      _ = r.inflight ++ r.staged := by rw [List.append_assoc, List.take_append_drop]
      _ ~ r.staged ++ r.inflight := List.perm_append_comm

theorem grows_enter (r : Uring) (e : Enter) : Grows r (r.enter e) :=
  ⟨rfl, rfl, rfl, rfl, rfl, [], by simp, outstanding_enter r e⟩

theorem closed_grows (r : Uring) : Closed (Grows r) where
  stage h hs hin := h.trans (grows_stage hs hin)
  enter e h := h.trans (grows_enter _ e)
  wake _ h := ⟨h.cap, h.fds, h.seqs, h.ints, h.nextSeq, h.perm⟩
  timeout _ h := ⟨h.cap, h.fds, h.seqs, h.ints, h.nextSeq, h.perm⟩

/-- After its re-arm pass a wait stages internal entries only. -/
theorem grows_waitSubmit (r : Uring) (bounded : Bool) (e : Enter) :
    Grows (Uring.rearm (List.range r.cap) r).2 (r.waitSubmit bounded e).2 :=
  (closed_grows _).waitSubmit bounded e (.refl _)

theorem Grows.live_iff (h : Grows r r') (i : ℕ) : r'.Live i ↔ r.Live i := by
  simp [Live, h.cap, h.fds]

theorem Grows.slotPoll_eq (h : Grows r r') (i : ℕ) : r'.slotPoll i = r.slotPoll i := by
  simp [slotPoll, h.fds, h.ints, h.seqs]

/-- Internal entries are no polls of a registration. -/
theorem Grows.polls_eq (h : Grows r r') {ud : ℕ} (hud : ud < WAKE) : r'.polls ud = r.polls ud := by
  obtain ⟨ops, hin, hp⟩ := h.perm
  have hzero : ops.countP (Sqe.isPoll ud) = 0 :=
    List.countP_eq_zero.mpr fun op hop => by simp [(hin op hop).isPoll_eq_false hud]
  rw [polls, hp.countP_eq, List.countP_append, hzero, Nat.zero_add]
  rfl

theorem Grows.mem_outstanding (h : Grows r r') {op : Sqe} (hop : op ∈ r.outstanding) :
    op ∈ r'.outstanding := by
  obtain ⟨ops, -, hp⟩ := h.perm
  exact hp.mem_iff.mpr (List.mem_append_right ops hop)

theorem ArmInv.grows (hi : ArmInv r) (h : Grows r r') : ArmInv r' where
  first := h.nextSeq ▸ hi.first
  bound := h.nextSeq ▸ hi.bound
  drawn fd mask ud hop := by
    obtain ⟨ops, hin, hp⟩ := h.perm
    rw [h.nextSeq]
    rcases List.mem_append.mp (hp.mem_iff.mp hop) with hmem | hmem
    · exact Or.inl (hin _ hmem)
    · exact hi.drawn fd mask ud hmem
  range i hl hne := by
    rw [h.seqs] at hne ⊢
    rw [h.nextSeq]
    exact hi.range i ((h.live_iff i).mp hl) hne
  armed i hl hne := by
    rw [h.slotPoll_eq]
    rw [h.seqs] at hne ⊢
    have hl' := (h.live_iff i).mp hl
    obtain ⟨hone, hmem⟩ := hi.armed i hl' hne
    refine ⟨?_, h.mem_outstanding hmem⟩
    rw [h.polls_eq (hi.lt_wake (hi.range i hl' hne).2), hone]
  injective i j hl hl' hne he := by
    rw [h.seqs] at hne he
    exact hi.injective i j ((h.live_iff i).mp hl) ((h.live_iff j).mp hl') hne he

theorem Drawn.grows (hd : Drawn seq r) (h : Grows r r') : Drawn seq r' where
  toArmInv := hd.toArmInv.grows h
  lower := hd.lower
  upper := h.nextSeq ▸ hd.upper
  unused := by rw [h.polls_eq (hd.lt_wake hd.upper), hd.unused]
  unassigned i hl := by
    rw [h.seqs]
    exact hd.unassigned i ((h.live_iff i).mp hl)

theorem Fresh.grows (hf : Fresh seq fd mask r) (h : Grows r r') : Fresh seq fd mask r' where
  toArmInv := hf.toArmInv.grows h
  lower := hf.lower
  upper := h.nextSeq ▸ hf.upper
  once := by
    obtain ⟨hone, hmem⟩ := hf.once
    exact ⟨by rw [h.polls_eq (hf.lt_wake hf.upper), hone], h.mem_outstanding hmem⟩
  unassigned i hl := by
    rw [h.seqs]
    exact hf.unassigned i ((h.live_iff i).mp hl)

/-! ### The way of a poll -/

theorem ArmInv.uringNextSeq_eq (hi : ArmInv r) : r.uringNextSeq = r.nextSeq := by
  have hb := hi.bound
  have hw : SEQ_BOUND < 2 ^ 64 := by decide
  exact Nat.mod_eq_of_lt (by omega)

/-- No outstanding poll has the next number. -/
theorem ArmInv.polls_nextSeq (hi : ArmInv r) (hb : r.nextSeq < SEQ_BOUND) :
    r.polls r.nextSeq = 0 := by
  refine List.countP_eq_zero.mpr fun op hop => ?_
  cases op with
  | pollAdd fd mask ud =>
    have hw : SEQ_BOUND < WAKE := by decide
    have hud := hi.drawn fd mask ud hop
    simp only [Sqe.isPoll, decide_eq_true_eq]
    omega
  | pollRemove target => simp [Sqe.isPoll]
  | timeout => simp [Sqe.isPoll]
  | timeoutRemove => simp [Sqe.isPoll]

theorem ArmInv.draw (hi : ArmInv r) (hb : r.nextSeq < SEQ_BOUND) :
    Drawn r.uringNextSeq r.draw where
  first := Nat.le_succ_of_le hi.first
  bound := hb
  drawn fd mask ud hop := by
    have hud := hi.drawn fd mask ud hop
    simp only [Uring.draw]
    omega
  range i hl hne := by
    have hr := hi.range i hl hne
    exact ⟨hr.1, Nat.lt_succ_of_lt hr.2⟩
  armed := hi.armed
  injective := hi.injective
  lower := hi.uringNextSeq_eq ▸ hi.first
  upper := hi.uringNextSeq_eq ▸ Nat.lt_succ_self _
  unused := hi.uringNextSeq_eq ▸ hi.polls_nextSeq hb
  unassigned i hl he := by
    rw [hi.uringNextSeq_eq] at he
    have hfirst := hi.first
    have hpos : 0 < FIRST_SEQ := by decide
    have hne : r.seqs i ≠ 0 := by
      have he' : r.seqs i = r.nextSeq := he
      omega
    have hr := (hi.range i hl hne).2
    exact Nat.lt_irrefl _ (he ▸ hr)

theorem outstanding_stage {op : Sqe} (h : r.stage op = some r') :
    r'.outstanding ~ op :: r.outstanding := by
  obtain ⟨-, rfl⟩ := stage_eq_some.mp h
  simp only [outstanding, List.append_assoc, List.singleton_append]
  exact List.perm_middle

theorem Drawn.stage (hd : Drawn seq r) (h : r.stage (.pollAdd fd mask seq) = some r') :
    Fresh seq fd mask r' := by
  have hp := outstanding_stage h
  obtain ⟨-, rfl⟩ := stage_eq_some.mp h
  have hcount (ud : ℕ) : polls { r with staged := r.staged ++ [.pollAdd fd mask seq] } ud =
      r.polls ud + if seq = ud then 1 else 0 := by
    rw [polls, hp.countP_eq, List.countP_cons]
    simp [polls, Sqe.isPoll]
  refine ⟨⟨hd.first, hd.bound, fun f m ud hop => ?_, hd.range, fun i hl hne => ?_, hd.injective⟩,
    hd.lower, hd.upper, ⟨?_, hp.mem_iff.mpr List.mem_cons_self⟩, hd.unassigned⟩
  · rcases List.mem_cons.mp (hp.mem_iff.mp hop) with heq | hmem
    · cases heq
      exact Or.inr ⟨hd.lower, hd.upper⟩
    · exact hd.drawn f m ud hmem
  · obtain ⟨hone, hmem⟩ := hd.armed i hl hne
    refine ⟨?_, hp.mem_iff.mpr (List.mem_cons_of_mem _ hmem)⟩
    have hne' : seq ≠ r.seqs i := Ne.symm (hd.unassigned i hl)
    rw [hcount, if_neg hne', Nat.add_zero]
    exact hone
  · rw [hcount, hd.unused, if_pos rfl]

/-- The number of a staged poll is written to a slot of its descriptor and its interests. -/
theorem Fresh.assign (hf : Fresh seq fd mask r) (slot : ℕ)
    (hslot : r'.fds slot = fd ∧ interestsToPoll (r'.ints slot) = mask)
    (hfds : ∀ i, i ≠ slot → r'.fds i = r.fds i ∧ r'.ints i = r.ints i)
    (ht : r'.cap = r.cap ∧ r'.seqs = Function.update r.seqs slot seq)
    (hk : r'.nextSeq = r.nextSeq ∧ r'.outstanding = r.outstanding) : ArmInv r' := by
  obtain ⟨hcap, hseqs⟩ := ht
  obtain ⟨hnext, hout⟩ := hk
  have hself : r'.seqs slot = seq := by rw [hseqs, Function.update_self]
  have hother (i : ℕ) (hi : i ≠ slot) : r'.seqs i = r.seqs i := by
    rw [hseqs, Function.update_of_ne hi]
  have hlive (i : ℕ) (hi : i ≠ slot) (hl : r'.Live i) : r.Live i := by
    rw [Live, hcap, (hfds i hi).1] at hl
    exact hl
  have hpolls (ud : ℕ) : r'.polls ud = r.polls ud := by rw [polls, hout, polls]
  refine ⟨hnext ▸ hf.first, hnext ▸ hf.bound, fun f m ud hop => ?_, fun i hl hne => ?_,
    fun i hl hne => ?_, fun i j hl hl' hne he => ?_⟩
  · rw [hout] at hop
    rw [hnext]
    exact hf.drawn f m ud hop
  · rw [hnext]
    by_cases hi : i = slot
    · rw [hi, hself]
      exact ⟨hf.lower, hf.upper⟩
    · rw [hother i hi] at hne ⊢
      exact hf.range i (hlive i hi hl) hne
  · rw [hpolls, hout]
    by_cases hi : i = slot
    · rw [slotPoll, hi, hself, hslot.1, hslot.2]
      exact hf.once
    · rw [slotPoll, (hfds i hi).1, (hfds i hi).2]
      rw [hother i hi] at hne ⊢
      exact hf.armed i (hlive i hi hl) hne
  · by_cases hi : i = slot <;> by_cases hj : j = slot
    · rw [hi, hj]
    · rw [hi, hself, hother j hj] at he
      exact absurd he.symm (hf.unassigned j (hlive j hj hl'))
    · rw [hj, hself, hother i hi] at he
      exact absurd he (hf.unassigned i (hlive i hi hl))
    · rw [hother i hi] at hne he
      rw [hother j hj] at he
      exact hf.injective i j (hlive i hi hl) (hlive j hj hl') hne he

/-- The writes of a slot, with its descriptor. -/
theorem Fresh.setSlot {interests : Mask} (hf : Fresh seq fd (interestsToPoll interests) r)
    (slot count : ℕ) (token : Token) :
    ArmInv { r.setSlot slot seq token interests with
      fds := Function.update r.fds slot fd
      count := count } :=
  hf.assign slot (by simp [Uring.setSlot]) (fun i hi => by simp [Uring.setSlot, hi]) ⟨rfl, rfl⟩
    ⟨rfl, rfl⟩

/-! ### The calls -/

theorem grows_submit (r : Uring) (e : Enter) (n : ℕ) : Grows r (r.submit e n).2 :=
  (closed_grows r).submit e n (.refl r)

theorem ArmInv.registerUpsert (hd : Drawn seq r) {slot : ℕ} (hslot : r.fds slot = fd) (e : Enter)
    (interests : Mask) (token : Token) :
    ArmInv (r.registerUpsert e slot fd interests token seq).2 := by
  unfold Uring.registerUpsert
  cases h₁ : r.stage (.pollRemove (r.seqs slot)) with
  | none => exact hd.toArmInv
  | some r₁ =>
    have hg₁ := grows_stage h₁ trivial
    simp only
    cases h₂ : r₁.stage (.pollAdd fd (interestsToPoll interests) seq) with
    | none => exact hd.toArmInv.grows hg₁
    | some r₂ =>
      have hf₃ := ((hd.grows hg₁).stage h₂).grows (grows_submit r₂ e 0)
      have hfds : (r₂.submit e 0).2.fds slot = fd := by
        have hq := ((quiet_stage h₁).trans (quiet_stage h₂)).trans (quiet_submit r₂ e 0)
        rw [Quiet] at hq
        rw [hq]
        exact hslot
      simp only
      rcases h₃ : r₂.submit e 0 with ⟨_ | err, r₃⟩
      · rw [h₃] at hf₃ hfds
        have hset := hf₃.setSlot slot r₃.count token
        rwa [← hfds, Function.update_eq_self] at hset
      · rw [h₃] at hf₃
        exact hf₃.toArmInv

/-- A submitted poll is outstanding, or the submission failed. -/
theorem Drawn.submitPollAdd (hd : Drawn seq r) (e₁ e₂ : Enter) (fd : Fd) (mask : Mask) :
    ArmInv (r.submitPollAdd e₁ e₂ (.pollAdd fd mask seq)).2 ∧
      ((r.submitPollAdd e₁ e₂ (.pollAdd fd mask seq)).1 = none →
        Fresh seq fd mask (r.submitPollAdd e₁ e₂ (.pollAdd fd mask seq)).2) := by
  unfold Uring.submitPollAdd
  cases h₁ : r.stage (.pollAdd fd mask seq) with
  | some r₁ =>
    have hf := (hd.stage h₁).grows (grows_submit r₁ e₂ 0)
    exact ⟨hf.toArmInv, fun _ => hf⟩
  | none =>
    have hflush := hd.grows (grows_submit r e₁ 0)
    simp only
    rcases h₂ : r.submit e₁ 0 with ⟨_ | err, r₂⟩
    · rw [h₂] at hflush
      simp only
      cases h₃ : r₂.stage (.pollAdd fd mask seq) with
      | none => exact ⟨hflush.toArmInv, fun h => by cases h⟩
      | some r₃ =>
        have hf := (hflush.stage h₃).grows (grows_submit r₃ e₂ 0)
        exact ⟨hf.toArmInv, fun _ => hf⟩
    · rw [h₂] at hflush
      exact ⟨hflush.toArmInv, fun h => by cases h⟩

theorem ArmInv.registerNew (hd : Drawn seq r) (slot : ℕ) (e₁ e₂ : Enter) (interests : Mask)
    (token : Token) : ArmInv (r.registerNew e₁ e₂ slot fd interests token seq).2 := by
  unfold Uring.registerNew
  have hsub := hd.submitPollAdd e₁ e₂ fd (interestsToPoll interests)
  rcases h : r.submitPollAdd e₁ e₂ (.pollAdd fd (interestsToPoll interests) seq) with
    ⟨_ | err, r₁⟩
  · rw [h] at hsub
    exact (hsub.2 rfl).setSlot slot (r₁.count + 1) token
  · rw [h] at hsub
    exact hsub.1

theorem Quiet.nextSeq_eq (h : r.Quiet r') : r'.nextSeq = r.nextSeq := by
  rw [Quiet] at h
  rw [h]

theorem nextSeq_registerUpsert (r : Uring) (e : Enter) (slot : ℕ) (fd : Fd) (interests : Mask)
    (token : Token) (seq : ℕ) :
    (r.registerUpsert e slot fd interests token seq).2.nextSeq = r.nextSeq := by
  obtain ⟨q, hq, h | h⟩ := r.registerUpsert_quiet e slot fd interests token seq
  all_goals rw [h]; exact hq.nextSeq_eq

theorem nextSeq_registerNew (r : Uring) (e₁ e₂ : Enter) (slot : ℕ) (fd : Fd) (interests : Mask)
    (token : Token) (seq : ℕ) :
    (r.registerNew e₁ e₂ slot fd interests token seq).2.nextSeq = r.nextSeq := by
  obtain ⟨q, hq, h | h⟩ := r.registerNew_quiet e₁ e₂ slot fd interests token seq
  all_goals rw [h]; exact hq.nextSeq_eq

theorem ArmInv.register (hi : ArmInv r) (e₁ e₂ : Enter) (fd : Fd) (interests : Mask)
    (token : Token) (hb : (r.register e₁ e₂ fd interests token).2.nextSeq ≤ SEQ_BOUND) :
    ArmInv (r.register e₁ e₂ fd interests token).2 := by
  unfold Uring.register at hb ⊢
  cases hc : checkInterests interests with
  | some err => exact hi
  | none =>
    simp only [hc] at hb ⊢
    split_ifs at hb ⊢ with hfd hfull hslot
    · exact hi
    · exact hi
    · rw [nextSeq_registerUpsert] at hb
      exact ArmInv.registerUpsert (hi.draw hb) hslot e₂ interests token
    · rw [nextSeq_registerNew] at hb
      exact ArmInv.registerNew (hi.draw hb) _ e₁ e₂ interests token

/-- An emptied slot is live no more. -/
theorem ArmInv.clear (hi : ArmInv r) (slot : ℕ) : ArmInv (r.clear slot) := by
  have hlive (i : ℕ) (hl : (r.clear slot).Live i) : r.Live i ∧ i ≠ slot := by
    by_cases h : i = slot
    · simp [Live, Uring.clear, h] at hl
    · simpa [Live, Uring.clear, h] using hl
  have hpoll (i : ℕ) (h : i ≠ slot) : (r.clear slot).slotPoll i = r.slotPoll i := by
    simp [slotPoll, Uring.clear, h]
  refine ⟨hi.first, hi.bound, hi.drawn, fun i hl => hi.range i (hlive i hl).1, fun i hl hne => ?_,
    fun i j hl hl' => hi.injective i j (hlive i hl).1 (hlive j hl').1⟩
  rw [hpoll i (hlive i hl).2]
  exact hi.armed i (hlive i hl).1 hne

theorem ArmInv.unregister (hi : ArmInv r) (e : Enter) (fd : Fd) :
    ArmInv (r.unregister e fd).2 := by
  unfold Uring.unregister
  split
  · exact hi
  · simp only
    split
    · exact hi
    · cases h₁ : r.stage (.pollRemove (r.seqs (r.uringSlot fd))) with
      | none => exact hi
      | some r₁ =>
        have hg := (grows_stage h₁ trivial).trans (grows_submit r₁ e 0)
        simp only
        rcases h₂ : r₁.submit e 0 with ⟨_ | err, r₂⟩
        · rw [h₂] at hg
          exact (hi.grows hg).clear _
        · rw [h₂] at hg
          exact hi.grows hg

/-! ### The re-arm pass -/

theorem nextSeq_le_rearm (is : List ℕ) (r : Uring) : r.nextSeq ≤ (rearm is r).2.nextSeq := by
  induction is generalizing r with
  | nil => exact Nat.le_refl _
  | cons i is ih =>
    unfold rearm
    split
    · simp only
      cases h : r.draw.stage (.pollAdd (r.fds i) (interestsToPoll (r.ints i)) r.uringNextSeq) with
      | none => exact Nat.le_succ _
      | some r₁ =>
        have hq : r₁.nextSeq = r.nextSeq + 1 := (quiet_stage h).nextSeq_eq
        have hle := ih { r₁ with seqs := Function.update r₁.seqs i r.uringNextSeq }
        simp only at hle ⊢
        omega
    · exact ih r

/-- One slot is re-armed. -/
theorem ArmInv.rearmSlot (hi : ArmInv r) (hb : r.nextSeq < SEQ_BOUND) (i : ℕ)
    (h : r.draw.stage (.pollAdd (r.fds i) (interestsToPoll (r.ints i)) r.uringNextSeq) = some r') :
    ArmInv { r' with seqs := Function.update r'.seqs i r.uringNextSeq } := by
  have hkeep : r'.fds i = r.fds i ∧ r'.ints i = r.ints i := by
    have hq := quiet_stage h
    rw [Quiet] at hq
    rw [hq]
    exact ⟨rfl, rfl⟩
  exact ((hi.draw hb).stage h).assign i ⟨hkeep.1, congrArg interestsToPoll hkeep.2⟩
    (fun _ _ => ⟨rfl, rfl⟩) ⟨rfl, rfl⟩ ⟨rfl, rfl⟩

theorem ArmInv.rearm (is : List ℕ) (hi : ArmInv r)
    (hb : (rearm is r).2.nextSeq ≤ SEQ_BOUND) : ArmInv (rearm is r).2 := by
  induction is generalizing r with
  | nil => exact hi
  | cons i is ih =>
    unfold Uring.rearm at hb ⊢
    split_ifs at hb ⊢
    · simp only at hb ⊢
      cases h : r.draw.stage (.pollAdd (r.fds i) (interestsToPoll (r.ints i)) r.uringNextSeq) with
      | none =>
        simp only [h] at hb
        exact (hi.draw hb).toArmInv
      | some r₁ =>
        simp only [h] at hb
        have hq : r₁.nextSeq = r.nextSeq + 1 := (quiet_stage h).nextSeq_eq
        have hle := nextSeq_le_rearm is { r₁ with seqs := Function.update r₁.seqs i r.uringNextSeq }
        simp only at hle
        exact ih (hi.rearmSlot (by omega) i h) hb
    · exact ih hi hb

/-- A successful re-arm pass leaves no slot of the list un-armed. -/
theorem ArmInv.seqs_ne_zero_of_rearm {is : List ℕ} (hi : ArmInv r)
    (h : Uring.rearm is r = (none, r')) (hb : r'.nextSeq ≤ SEQ_BOUND) (i : ℕ) (hl : 0 ≤ r'.fds i)
    (hmem : i ∈ is ∨ r.seqs i ≠ 0) : r'.seqs i ≠ 0 := by
  induction is generalizing r with
  | nil =>
    obtain rfl : r = r' := by simpa [Uring.rearm] using h
    simpa using hmem
  | cons j is ih =>
    unfold Uring.rearm at h
    split_ifs at h with hj
    · simp only at h
      cases hst : r.draw.stage (.pollAdd (r.fds j) (interestsToPoll (r.ints j)) r.uringNextSeq) with
      | none => simp [hst] at h
      | some r₁ =>
        simp only [hst] at h
        have hle := nextSeq_le_rearm is { r₁ with seqs := Function.update r₁.seqs j r.uringNextSeq }
        have hq : r₁.nextSeq = r.nextSeq + 1 := (quiet_stage hst).nextSeq_eq
        rw [h] at hle
        simp only at hle
        have hseq : r.uringNextSeq ≠ 0 := by
          have hfirst := hi.first
          have hpos : 0 < FIRST_SEQ := by decide
          rw [hi.uringNextSeq_eq]
          omega
        refine ih (hi.rearmSlot (by omega) j hst) h ?_
        by_cases hij : i = j
        · exact Or.inr (by simpa [hij] using hseq)
        · have hsame : r₁.seqs i = r.seqs i := by
            have hq' := quiet_stage hst
            rw [Quiet] at hq'
            rw [hq']
            rfl
          simpa [hij, hsame] using hmem
    · -- the slot is not live, or armed already
      refine ih hi h ?_
      rcases hmem with hmem | hne
      · rcases List.mem_cons.mp hmem with rfl | hmem
        · refine Or.inr fun hz => hj ⟨?_, hz⟩
          have hsame := sameTable_rearm is r
          rw [h] at hsame
          rwa [hsame.2.1] at hl
        · exact Or.inl hmem
      · exact Or.inr hne

/-! ### The drain -/

theorem ArmInv.disarm (hi : ArmInv r) (slot : ℕ) :
    ArmInv { r with seqs := Function.update r.seqs slot 0 } := by
  have hseq (i : ℕ) (hne : Function.update r.seqs slot 0 i ≠ 0) :
      Function.update r.seqs slot 0 i = r.seqs i := by
    by_cases h : i = slot
    · simp [h] at hne
    · simp [h]
  refine ⟨hi.first, hi.bound, hi.drawn, fun i hl hne => ?_, fun i hl hne => ?_,
    fun i j hl hl' hne he => ?_⟩
  · have h := hseq i hne
    simp only [h] at hne ⊢
    exact hi.range i hl hne
  · have h := hseq i hne
    simp only [slotPoll, h] at hne ⊢
    exact hi.armed i hl hne
  · simp only at he hne
    have h := hseq i hne
    have h' := hseq j (he ▸ hne)
    rw [h] at hne he
    rw [h'] at he
    exact hi.injective i j hl hl' hne he

theorem Sqe.userData_of_isPoll {op : Sqe} {ud : ℕ} (h : op.isPoll ud = true) :
    op.userData = ud := by
  cases op with
  | pollAdd fd mask u => simpa [Sqe.isPoll, Sqe.userData] using h
  | pollRemove target => cases h
  | timeout => cases h
  | timeoutRemove => cases h

/-- A completion that belongs to no armed slot is taken off the queue. -/
theorem ArmInv.drop {c : Cqe} {cs : List Cqe} (hi : ArmInv { r with cq := c :: cs })
    (hne : ∀ i, r.Live i → r.seqs i ≠ 0 → r.seqs i ≠ c.userData) : ArmInv { r with cq := cs } := by
  have hp : outstanding { r with cq := c :: cs } ~ c.op :: outstanding { r with cq := cs } :=
    List.perm_middle
  refine ⟨hi.first, hi.bound, fun fd mask ud hop => ?_, hi.range, fun i hl hz => ?_, hi.injective⟩
  · exact hi.drawn fd mask ud (hp.mem_iff.mpr (List.mem_cons_of_mem _ hop))
  · obtain ⟨hone, hmem⟩ := hi.armed i hl hz
    have hno : c.op.isPoll (r.seqs i) = false := by
      by_contra h
      rw [Bool.not_eq_false] at h
      exact hne i hl hz (Sqe.userData_of_isPoll h).symm
    have hcount : polls { r with cq := c :: cs } (r.seqs i) =
        polls { r with cq := cs } (r.seqs i) := by
      rw [polls, hp.countP_eq, List.countP_cons, hno]
      rfl
    refine ⟨hcount ▸ hone, ?_⟩
    rcases List.mem_cons.mp (hp.mem_iff.mp hmem) with heq | hmem
    · rw [← heq] at hno
      simp [slotPoll, Sqe.isPoll] at hno
    · exact hmem

theorem ne_of_findSeq_eq_none {ud i : ℕ} (h : r.findSeq ud = none) (hl : r.Live i) :
    r.seqs i ≠ ud := by
  have hno := List.find?_eq_none.mp h i (List.mem_range.mpr hl.1)
  simp only [decide_eq_true_eq, not_and] at hno
  exact hno hl.2

/-- One drained completion keeps the invariant of the completions that are left. -/
theorem ArmInv.drainCqe {c : Cqe} {cs : List Cqe} (hi : ArmInv { r with cq := c :: cs })
    (cap : ℕ) (events : List PollEvent) :
    ArmInv { (drainCqe cap (r, events) c).1 with cq := cs } := by
  have hsent (ud : ℕ) (hud : SEQ_BOUND < ud) (i : ℕ) (hl : r.Live i) (hz : r.seqs i ≠ 0) :
      r.seqs i ≠ ud := by
    have hr := (hi.range i hl hz).2
    have hb := hi.bound
    simp only at hr hb
    omega
  unfold Uring.drainCqe
  by_cases ht : c.userData = TIMEOUT
  · simp only [ht, if_true]
    have hdrop := hi.drop fun i hl hz => ht ▸ hsent TIMEOUT (by decide) i hl hz
    exact hdrop.grows ((closed_grows _).timeout false (.refl _))
  · by_cases hw : c.userData = WAKE
    · have hne : WAKE ≠ TIMEOUT := by decide
      simp only [hw, hne, if_false, if_true]
      have hdrop := hi.drop fun i hl hz => hw ▸ hsent WAKE (by decide) i hl hz
      exact hdrop.grows ((closed_grows _).wake false (.refl _))
    · simp only [ht, hw, if_false]
      cases hf : r.findSeq c.userData with
      | none => exact hi.drop fun i hl _ => ne_of_findSeq_eq_none hf hl
      | some slot =>
        obtain ⟨hslot, hlive, hseq⟩ := findSeq_spec hf
        -- no other armed slot has the number of this completion
        have hothers (i : ℕ) (hl : r.Live i) (hz : r.seqs i ≠ 0) (his : i ≠ slot) :
            r.seqs i ≠ c.userData := fun he =>
          his (hi.injective i slot hl ⟨hslot, hlive⟩ hz (he.trans hseq.symm))
        simp only
        split
        · refine ArmInv.drop (r := r.clear slot) (hi.clear slot) fun i hl hz => ?_
          have his : i ≠ slot := by
            rintro rfl
            simp [Live, Uring.clear] at hl
          have hl' : r.Live i := by simpa [Live, Uring.clear, his] using hl
          exact hothers i hl' hz his
        · refine ArmInv.drop (r := { r with seqs := Function.update r.seqs slot 0 })
            (hi.disarm slot) fun i hl hz => ?_
          have his : i ≠ slot := by
            rintro rfl
            simp at hz
          simp only [Function.update_of_ne his] at hz ⊢
          exact hothers i hl hz his

/-- A drained completion leaves the rings and the counter. -/
theorem drainCqe_frame (cap : ℕ) (r : Uring) (events : List PollEvent) (c : Cqe) :
    (drainCqe cap (r, events) c).1.cq = r.cq ∧
      (drainCqe cap (r, events) c).1.nextSeq = r.nextSeq := by
  unfold Uring.drainCqe
  simp only
  split
  · exact ⟨rfl, rfl⟩
  split
  · exact ⟨rfl, rfl⟩
  cases r.findSeq c.userData with
  | none => exact ⟨rfl, rfl⟩
  | some i =>
    simp only
    split <;> exact ⟨rfl, rfl⟩

theorem nextSeq_drainCq (r : Uring) (cap : ℕ) : (r.drainCq cap).1.nextSeq = r.nextSeq := by
  suffices h : ∀ (cs : List Cqe) (q : Uring) (events : List PollEvent),
      (cs.foldl (Uring.drainCqe cap) (q, events)).1.nextSeq = q.nextSeq from h _ _ _
  intro cs
  induction cs with
  | nil => exact fun _ _ => rfl
  | cons c cs ih =>
    intro q events
    exact (ih _ _).trans (drainCqe_frame cap q events c).2

theorem ArmInv.drainCq (hi : ArmInv r) (cap : ℕ) : ArmInv (r.drainCq cap).1 := by
  suffices h : ∀ (cs : List Cqe) (q : Uring) (events : List PollEvent), q.cq = [] →
      ArmInv { q with cq := cs } → ArmInv (cs.foldl (Uring.drainCqe cap) (q, events)).1 from
    h r.cq { r with cq := [] } [] rfl hi
  intro cs
  induction cs with
  | nil =>
    intro q events hq hinv
    rw [← hq] at hinv
    exact hinv
  | cons c cs ih =>
    intro q events hq hinv
    exact ih _ (Uring.drainCqe cap (q, events) c).2 ((drainCqe_frame cap q events c).1.trans hq)
      (hinv.drainCqe cap events)

/-! ### Whole runs -/

theorem outstanding_post {before after : List Sqe} {op : Sqe}
    (hop : r.inflight = before ++ op :: after) (res : ℤ) :
    outstanding { r with inflight := before ++ after, cq := r.cq ++ [⟨op, res⟩] } ~
      r.outstanding := by
  simp only [outstanding, hop, List.map_append, List.map_cons, List.map_nil, List.append_assoc,
    List.cons_append]
  refine List.Perm.append_left _ (List.Perm.append_left _ ?_)
  rw [← List.append_assoc]
  exact List.perm_append_singleton op _

theorem grows_posted (h : Posted r r') : Grows r r' := by
  induction h with
  | refl => exact .refl r
  | @post q before after op res _ hop ih =>
    exact ih.trans ⟨rfl, rfl, rfl, rfl, rfl, [], by simp, outstanding_post hop res⟩

theorem armInv_start (h : Start r) : ArmInv r := by
  have hdead (i : ℕ) (hl : r.Live i) : False := by simp [Live, h.fds] at hl
  refine ⟨?_, ?_, fun fd mask ud hop => Or.inl ?_, fun i hl => (hdead i hl).elim,
    fun i hl => (hdead i hl).elim, fun i _ hl => (hdead i hl).elim⟩
  · rw [h.nextSeq]
  · rw [h.nextSeq]
    exact Nat.le_add_right _ _
  · rw [outstanding, h.outstanding, h.cq] at hop
    simp only [List.map_nil, List.append_nil, List.mem_singleton, Sqe.pollAdd.injEq] at hop
    exact hop.2.2

/-- The part of a wait before its drain. -/
theorem ArmInv.waitSubmit (hi : ArmInv r) (bounded : Bool) (e : Enter)
    (hb : (r.waitSubmit bounded e).2.nextSeq ≤ SEQ_BOUND) :
    ArmInv (r.waitSubmit bounded e).2 := by
  have hg := grows_waitSubmit r bounded e
  rw [hg.nextSeq] at hb
  exact (hi.rearm _ hb).grows hg

/-- What one step does to the invariant, within the bound of the numbers. -/
theorem ArmInv.step (hi : ArmInv r) (hs : Step r r') (hb : r'.nextSeq ≤ SEQ_BOUND) :
    ArmInv r' := by
  cases hs with
  | register e₁ e₂ fd interests token => exact hi.register e₁ e₂ fd interests token hb
  | modify e₁ e₂ fd interests token =>
    unfold Uring.modify at hb ⊢
    split_ifs at hb ⊢
    · exact hi
    · exact hi.register e₁ e₂ fd interests token hb
  | unregister e fd => exact hi.unregister e fd
  | @waitFail bounded e err _ h =>
    have hw := hi.waitSubmit bounded e
    rw [h] at hw
    exact hw hb
  | @wait bounded e r₁ r₂ cap h hp =>
    have hg := grows_posted hp
    rw [nextSeq_drainCq, hg.nextSeq] at hb
    have hw := hi.waitSubmit bounded e
    rw [h] at hw
    exact ((hw hb).grows hg).drainCq cap
  | post h => exact hi.grows (grows_posted h)

theorem nextSeq_le_register (r : Uring) (e₁ e₂ : Enter) (fd : Fd) (interests : Mask)
    (token : Token) : r.nextSeq ≤ (r.register e₁ e₂ fd interests token).2.nextSeq := by
  unfold Uring.register
  cases checkInterests interests with
  | some err => exact Nat.le_refl _
  | none =>
    simp only
    split_ifs
    · exact Nat.le_refl _
    · exact Nat.le_refl _
    · rw [nextSeq_registerUpsert]
      exact Nat.le_succ _
    · rw [nextSeq_registerNew]
      exact Nat.le_succ _

theorem nextSeq_unregister (r : Uring) (e : Enter) (fd : Fd) :
    (r.unregister e fd).2.nextSeq = r.nextSeq := by
  unfold Uring.unregister
  split
  · rfl
  · simp only
    split
    · rfl
    · cases h₁ : r.stage (.pollRemove (r.seqs (r.uringSlot fd))) with
      | none => rfl
      | some r₁ =>
        have hq := ((quiet_stage h₁).trans (quiet_submit r₁ e 0)).nextSeq_eq
        simp only
        rcases h₂ : r₁.submit e 0 with ⟨_ | err, r₂⟩
        · rw [h₂] at hq
          exact hq
        · rw [h₂] at hq
          exact hq

theorem nextSeq_le_waitSubmit (r : Uring) (bounded : Bool) (e : Enter) :
    r.nextSeq ≤ (r.waitSubmit bounded e).2.nextSeq := by
  have hg := grows_waitSubmit r bounded e
  rw [hg.nextSeq]
  exact nextSeq_le_rearm _ r

/-- Numbers are only drawn. -/
theorem nextSeq_le_step (hs : Step r r') : r.nextSeq ≤ r'.nextSeq := by
  cases hs with
  | register e₁ e₂ fd interests token => exact nextSeq_le_register r e₁ e₂ fd interests token
  | modify e₁ e₂ fd interests token =>
    unfold Uring.modify
    split
    · exact Nat.le_refl _
    · exact nextSeq_le_register r e₁ e₂ fd interests token
  | unregister e fd => exact (nextSeq_unregister r e fd).ge
  | @waitFail bounded e err _ h =>
    have hle := nextSeq_le_waitSubmit r bounded e
    rwa [h] at hle
  | @wait bounded e r₁ r₂ cap h hp =>
    have hle := nextSeq_le_waitSubmit r bounded e
    rw [h] at hle
    rw [nextSeq_drainCq, (grows_posted hp).nextSeq]
    exact hle
  | post h => exact (grows_posted h).nextSeq.ge

theorem armInv_run (hr : Run r) (hb : r.nextSeq ≤ SEQ_BOUND) : ArmInv r := by
  induction hr with
  | start h => exact armInv_start h
  | step _ hs ih => exact (ih ((nextSeq_le_step hs).trans hb)).step hs hb

/-- A successful wait armed every live slot. -/
theorem ArmInv.seqs_ne_zero_of_waitSubmit (hi : ArmInv r) {bounded : Bool} {e : Enter}
    (h : r.waitSubmit bounded e = (none, r')) (hb : r'.nextSeq ≤ SEQ_BOUND) (i : ℕ)
    (hl : r'.Live i) : r'.seqs i ≠ 0 := by
  have hg := grows_waitSubmit r bounded e
  rw [h] at hg
  have hcap : (Uring.rearm (List.range r.cap) r).2.cap = r.cap := (sameTable_rearm _ r).1
  have hrearm : Uring.rearm (List.range r.cap) r =
      (none, (Uring.rearm (List.range r.cap) r).2) := by
    unfold Uring.waitSubmit at h
    rcases hr : Uring.rearm (List.range r.cap) r with ⟨_ | err, q⟩
    · rfl
    · simp [hr] at h
  have hl' := (hg.live_iff i).mp hl
  have hmem : i ∈ List.range r.cap := List.mem_range.mpr (hcap ▸ hl'.1)
  have hne := hi.seqs_ne_zero_of_rearm hrearm (hg.nextSeq ▸ hb) i hl'.2 (Or.inl hmem)
  rwa [hg.seqs]

end Uring

open Uring

/-- In every reachable state of a poller that drew fewer than `2^63` numbers: an armed live slot
has exactly one outstanding poll with its number, which is the poll of its descriptor and its
interests; no two live slots share a number; and when the next wait comes to its drain, every live
slot is armed. -/
theorem arming_invariant {r : Uring} (hr : Run r) (hb : r.nextSeq < SEQ_BOUND) :
    (∀ i, r.Live i → r.seqs i ≠ 0 → r.polls (r.seqs i) = 1 ∧ r.slotPoll i ∈ r.outstanding) ∧
      (∀ i j, r.Live i → r.Live j → r.seqs i ≠ 0 → r.seqs i = r.seqs j → i = j) ∧
      ∀ bounded e r', r.waitSubmit bounded e = (none, r') → r'.nextSeq < SEQ_BOUND →
        ∀ i, r'.Live i → r'.seqs i ≠ 0 ∧ r'.polls (r'.seqs i) = 1 ∧
          r'.slotPoll i ∈ r'.outstanding := by
  have hi := armInv_run hr hb.le
  refine ⟨hi.armed, hi.injective, fun bounded e r' h hb' i hl => ?_⟩
  have hne := hi.seqs_ne_zero_of_waitSubmit h hb'.le i hl
  have hi' := hi.waitSubmit bounded e
  rw [h] at hi'
  exact ⟨hne, (hi' hb'.le).armed i hl hne⟩

/-- Descriptor `3` is registered in slot `19`. Its event is dropped, as the wait has no room for it,
and the submit of the next wait fails after the re-arm: the slot has its second number, and one
outstanding poll with it. -/
theorem arming_invariant_rearmed : ∃ r, Run r ∧ r.fds 19 = 3 ∧ r.seqs 19 = FIRST_SEQ + 1 ∧
    r.polls (r.seqs 19) = 1 ∧ r.slotPoll 19 ∈ r.outstanding := by
  have hr := (Run.start start_freshRing).step (.register ⟨0, none⟩ ⟨1, none⟩ 3 READABLE 7)
  have hr := hr.step (@Step.wait _ false ⟨0, none⟩ _ _ 0 (Prod.ext (by decide +kernel) rfl)
    (.post [.pollAdd 100 0x1 WAKE] [] (.pollAdd 3 (interestsToPoll READABLE) FIRST_SEQ) 1 .refl
      (by decide +kernel)))
  have hr := hr.step (@Step.waitFail _ false ⟨0, some .EAGAIN⟩ .EAGAIN _
    (Prod.ext (by decide +kernel) rfl))
  refine ⟨_, hr, by decide +kernel, by decide +kernel, ?_⟩
  exact (arming_invariant hr (by decide +kernel)).1 19 ⟨by decide +kernel, by decide +kernel⟩
    (by decide +kernel)

end MojitoSys.Io.IoUring
