import MojitoSys.Io.UringArming

/-!
# The wake token of the io_uring backend

A wake adds one to an eventfd; a one-shot poll of this eventfd turns the counter into a completion;
the waiter that drains this completion clears `wake_armed` and then reads the counter, and its next
wait arms the poll again. Any number of threads wake, and one waiter waits, while the kernel works
at its own pace, so that wakes and completions come between any two steps of a wait. A wait may stop
on a full submission ring, or with an error of `ioring_enter`, after it has staged the wake poll.

The kernel completes the poll of the eventfd only while the counter is not zero. An eventfd counts
up to `2 ^ 64 - 2`; a write beyond that changes nothing.

## Main definitions

* `WakeWorld`, `WakeStep`, `WakeRun`: the poller, the eventfd and the waiter.
* `unread`, `sinceDrained`: the wakes since the last read, and since the last drained completion.
* `Keeps`: the parts of the calls that leave the wake poll alone.
* `WakeInv`: the invariant.

## Main results

* `WakeInv.step`, `WakeRun.inv`.
* `wake_token`: no wake is lost, and no completion comes without one.
-/

namespace MojitoSys.Io.IoUring

open scoped List

/-- The largest value of an eventfd. -/
def EVENTFD_MAX : ℕ := 2 ^ 64 - 2

/-- Where the waiter is. -/
inductive WaiterPc
  /-- Outside of `mjs_iouring_wait`. -/
  | idle
  /-- In `ioring_enter`. -/
  | blocked (cap : ℕ)
  /-- In `uring_drain_cq`, with `left` completions before its `tail`. -/
  | draining (cap left : ℕ) (events : List PollEvent)
  /-- Before the read of the eventfd. -/
  | reading (cap left : ℕ) (events : List PollEvent)
  deriving DecidableEq, Repr

/-- The poller, its eventfd and its waiter. -/
structure WakeWorld where
  ring : Uring
  /-- The counter of the eventfd. -/
  counter : ℕ
  waiter : WaiterPc

/-- The waiter is between the completion and the read of the eventfd. -/
def WaiterPc.reads : WaiterPc → Bool
  | .reading _ _ _ => true
  | .idle | .blocked _ | .draining _ _ _ => false

/-- What a step did. -/
inductive WakeEvent
  | wake
  /-- The waiter took the completion of the wake poll. -/
  | drained
  /-- The waiter read the eventfd. -/
  | read
  /-- A call on the table. -/
  | table
  deriving DecidableEq, Repr

/-- The write of a wake. -/
def eventfdWrite (counter : ℕ) : ℕ := if counter < EVENTFD_MAX then counter + 1 else counter

/-- One step of a thread, of the waiter or of the kernel. -/
inductive WakeStep (w : WakeWorld) : List WakeEvent → WakeWorld → Prop
  /-- `mjs_iouring_wake`. -/
  | wake : WakeStep w [.wake] { w with counter := eventfdWrite w.counter }
  /-- The kernel completes an operation. -/
  | post (before after : List Sqe) (op : Sqe) (res : ℤ)
      (hop : w.ring.inflight = before ++ op :: after)
      (hwake : op = .pollAdd w.ring.wakeFd 0x1 WAKE → 0 < w.counter) :
      WakeStep w [] { w with
        ring := { w.ring with inflight := before ++ after, cq := w.ring.cq ++ [⟨op, res⟩] } }
  /-- A wait that fails before its drain. -/
  | waitFail {bounded : Bool} {e : Enter} {err : Errno} {r : Uring} (hpc : w.waiter = .idle)
      (h : w.ring.waitSubmit bounded e = (some err, r)) : WakeStep w [] { w with ring := r }
  | wait {bounded : Bool} {e : Enter} {r : Uring} (cap : ℕ) (hpc : w.waiter = .idle)
      (h : w.ring.waitSubmit bounded e = (none, r)) :
      WakeStep w [] { w with ring := r, waiter := .blocked cap }
  /-- `ioring_enter` returns with a completion, or at once when it left entries behind, and the
  drain reads `tail`. -/
  | drain {cap : ℕ} (hpc : w.waiter = .blocked cap)
      (hcq : w.ring.cq ≠ [] ∨ w.ring.staged ≠ []) :
      WakeStep w [] { w with waiter := .draining cap w.ring.cq.length [] }
  | drainCqe {cap left : ℕ} {events : List PollEvent} {c : Cqe} {cs : List Cqe}
      (hpc : w.waiter = .draining cap (left + 1) events) (hcq : w.ring.cq = c :: cs)
      (hc : c.userData ≠ WAKE) :
      WakeStep w [] { w with
        ring := (Uring.drainCqe cap ({ w.ring with cq := cs }, events) c).1
        waiter := .draining cap left (Uring.drainCqe cap ({ w.ring with cq := cs }, events) c).2 }
  | drainWake {cap left : ℕ} {events : List PollEvent} {c : Cqe} {cs : List Cqe}
      (hpc : w.waiter = .draining cap (left + 1) events) (hcq : w.ring.cq = c :: cs)
      (hc : c.userData = WAKE) :
      WakeStep w [.drained] { w with
        ring := (Uring.drainCqe cap ({ w.ring with cq := cs }, events) c).1
        waiter := .reading cap left events }
  | read {cap left : ℕ} {events : List PollEvent} (hpc : w.waiter = .reading cap left events) :
      WakeStep w [.read] { w with counter := 0, waiter := .draining cap left events }
  | done {cap : ℕ} {events : List PollEvent} (hpc : w.waiter = .draining cap 0 events) :
      WakeStep w [] { w with waiter := .idle }
  | register (e₁ e₂ : Enter) (fd : Fd) (interests : Mask) (token : Token)
      (hpc : w.waiter = .idle) :
      WakeStep w [.table] { w with ring := (w.ring.register e₁ e₂ fd interests token).2 }
  | modify (e₁ e₂ : Enter) (fd : Fd) (interests : Mask) (token : Token) (hpc : w.waiter = .idle) :
      WakeStep w [.table] { w with ring := (w.ring.modify e₁ e₂ fd interests token).2 }
  | unregister (e : Enter) (fd : Fd) (hpc : w.waiter = .idle) :
      WakeStep w [.table] { w with ring := (w.ring.unregister e fd).2 }

/-- The runs after `mjs_iouring_create`, with their traces, the newest step first. -/
inductive WakeRun : List WakeEvent → WakeWorld → Prop
  | start {r : Uring} (h : Start r) : WakeRun [] ⟨r, 0, .idle⟩
  | step {tr es : List WakeEvent} {w w' : WakeWorld} (hr : WakeRun tr w) (hs : WakeStep w es w') :
      WakeRun (es ++ tr) w'

/-- The wakes since the last read of the eventfd. -/
def unread (tr : List WakeEvent) : ℕ := (tr.takeWhile (· ≠ .read)).count .wake

/-- The wakes since the last drained completion of the wake poll. -/
def sinceDrained (tr : List WakeEvent) : ℕ := (tr.takeWhile (· ≠ .drained)).count .wake

/-! ### The wake poll -/

namespace Uring

variable {r r' r₁ r₂ r₃ : Uring} {op : Sqe} {seq : ℕ}

/-- The outstanding polls that carry the user data of the wake poll. -/
def wakePolls (r : Uring) : List Sqe := r.outstanding.filter (Sqe.isPoll WAKE)

/-- The flag, the eventfd, the completions and the outstanding wake polls are left alone. -/
structure Keeps (r r' : Uring) : Prop where
  armed : r'.wakeArmed = r.wakeArmed
  wakeFd : r'.wakeFd = r.wakeFd
  cq : r'.cq = r.cq
  polls : r'.wakePolls ~ r.wakePolls

theorem Keeps.refl (r : Uring) : Keeps r r := ⟨rfl, rfl, rfl, .refl _⟩

theorem Keeps.trans (h₁ : Keeps r₁ r₂) (h₂ : Keeps r₂ r₃) : Keeps r₁ r₃ :=
  ⟨h₂.armed.trans h₁.armed, h₂.wakeFd.trans h₁.wakeFd, h₂.cq.trans h₁.cq,
    h₂.polls.trans h₁.polls⟩

/-- The wake poll depends on the flag, the eventfd and the rings only. -/
theorem Keeps.of_eq (harmed : r'.wakeArmed = r.wakeArmed) (hfd : r'.wakeFd = r.wakeFd)
    (hcq : r'.cq = r.cq) (hout : r'.outstanding = r.outstanding) : Keeps r r' :=
  ⟨harmed, hfd, hcq, by rw [wakePolls, hout, wakePolls]⟩

theorem keeps_draw (r : Uring) : Keeps r r.draw := .of_eq rfl rfl rfl rfl

theorem keeps_stage (h : r.stage op = some r') (hop : op.isPoll WAKE = false) : Keeps r r' := by
  have hp := (outstanding_stage h).filter (Sqe.isPoll WAKE)
  rw [List.filter_cons, hop] at hp
  obtain ⟨-, rfl⟩ := stage_eq_some.mp h
  exact ⟨rfl, rfl, rfl, hp⟩

theorem keeps_cq_stage (h : r.stage op = some r') : r'.cq = r.cq := by
  obtain ⟨-, rfl⟩ := stage_eq_some.mp h
  rfl

theorem keeps_enter (r : Uring) (e : Enter) : Keeps r (r.enter e) :=
  ⟨rfl, rfl, rfl, (outstanding_enter r e).filter _⟩

theorem keeps_submit (r : Uring) (e : Enter) (n : ℕ) : Keeps r (r.submit e n).2 := by
  unfold submit
  split
  · exact .refl r
  · exact keeps_enter r e

theorem isPoll_of_ne {fd : Fd} {mask : Mask} (h : seq ≠ WAKE) :
    (Sqe.pollAdd fd mask seq).isPoll WAKE = false := by
  simpa [Sqe.isPoll] using h

theorem keeps_submitPollAdd (r : Uring) (e₁ e₂ : Enter) (hop : op.isPoll WAKE = false) :
    Keeps r (r.submitPollAdd e₁ e₂ op).2 := by
  unfold submitPollAdd
  cases h₁ : r.stage op with
  | some r₁ => exact (keeps_stage h₁ hop).trans (keeps_submit r₁ e₂ 0)
  | none =>
    have hflush := keeps_submit r e₁ 0
    simp only
    rcases h₂ : r.submit e₁ 0 with ⟨_ | err, r₂⟩
    · rw [h₂] at hflush
      simp only
      cases h₃ : r₂.stage op with
      | none => exact hflush
      | some r₃ => exact (hflush.trans (keeps_stage h₃ hop)).trans (keeps_submit r₃ e₂ 0)
    · rwa [h₂] at hflush

theorem keeps_registerUpsert (r : Uring) (e : Enter) (slot : ℕ) (fd : Fd) (interests : Mask)
    (token : Token) (hseq : seq ≠ WAKE) :
    Keeps r (r.registerUpsert e slot fd interests token seq).2 := by
  unfold registerUpsert
  cases h₁ : r.stage (.pollRemove (r.seqs slot)) with
  | none => exact .refl r
  | some r₁ =>
    have hk₁ := keeps_stage h₁ rfl
    simp only
    cases h₂ : r₁.stage (.pollAdd fd (interestsToPoll interests) seq) with
    | none => exact hk₁
    | some r₂ =>
      have hk₃ := (hk₁.trans (keeps_stage h₂ (isPoll_of_ne hseq))).trans (keeps_submit r₂ e 0)
      simp only
      rcases h₃ : r₂.submit e 0 with ⟨_ | err, r₃⟩
      · rw [h₃] at hk₃
        exact hk₃.trans (.of_eq rfl rfl rfl rfl)
      · rwa [h₃] at hk₃

theorem keeps_registerNew (r : Uring) (e₁ e₂ : Enter) (slot : ℕ) (fd : Fd) (interests : Mask)
    (token : Token) (hseq : seq ≠ WAKE) :
    Keeps r (r.registerNew e₁ e₂ slot fd interests token seq).2 := by
  unfold registerNew
  have hk := keeps_submitPollAdd r e₁ e₂
    (@isPoll_of_ne seq fd (interestsToPoll interests) hseq)
  rcases h : r.submitPollAdd e₁ e₂ (.pollAdd fd (interestsToPoll interests) seq) with ⟨_ | err, q⟩
  · rw [h] at hk
    exact hk.trans (.of_eq rfl rfl rfl rfl)
  · rwa [h] at hk

/-- A number below the reserved ones. -/
theorem uringNextSeq_ne_wake (h : r.nextSeq < WAKE) : r.uringNextSeq ≠ WAKE := by
  have hw : WAKE < 2 ^ 64 := by decide
  rw [uringNextSeq, Nat.mod_eq_of_lt (by omega)]
  omega

theorem keeps_register (r : Uring) (e₁ e₂ : Enter) (fd : Fd) (interests : Mask) (token : Token)
    (hb : (r.register e₁ e₂ fd interests token).2.nextSeq ≤ WAKE) :
    Keeps r (r.register e₁ e₂ fd interests token).2 := by
  unfold Uring.register at hb ⊢
  cases hc : checkInterests interests with
  | some err => exact .refl r
  | none =>
    simp only [hc] at hb ⊢
    split_ifs at hb ⊢ with hfd hfull hslot
    · exact .refl r
    · exact .refl r
    · rw [nextSeq_registerUpsert] at hb
      exact (keeps_draw r).trans
        (keeps_registerUpsert r.draw e₂ _ fd interests token (uringNextSeq_ne_wake hb))
    · rw [nextSeq_registerNew] at hb
      exact (keeps_draw r).trans
        (keeps_registerNew r.draw e₁ e₂ _ fd interests token (uringNextSeq_ne_wake hb))

theorem keeps_modify (r : Uring) (e₁ e₂ : Enter) (fd : Fd) (interests : Mask) (token : Token)
    (hb : (r.modify e₁ e₂ fd interests token).2.nextSeq ≤ WAKE) :
    Keeps r (r.modify e₁ e₂ fd interests token).2 := by
  unfold modify at hb ⊢
  split at hb
  · rw [if_pos ‹_›]
    exact .refl r
  · rw [if_neg ‹_›]
    exact keeps_register r e₁ e₂ fd interests token hb

theorem keeps_unregister (r : Uring) (e : Enter) (fd : Fd) : Keeps r (r.unregister e fd).2 := by
  unfold Uring.unregister
  split
  · exact .refl r
  · simp only
    split
    · exact .refl r
    · cases h₁ : r.stage (.pollRemove (r.seqs (r.uringSlot fd))) with
      | none => exact .refl r
      | some r₁ =>
        have hk := (keeps_stage h₁ rfl).trans (keeps_submit r₁ e 0)
        simp only
        rcases h₂ : r₁.submit e 0 with ⟨_ | err, r₂⟩
        · rw [h₂] at hk
          exact hk.trans (.of_eq rfl rfl rfl rfl)
        · rwa [h₂] at hk

theorem keeps_rearm (is : List ℕ) (r : Uring) (hb : (rearm is r).2.nextSeq ≤ WAKE) :
    Keeps r (rearm is r).2 := by
  induction is generalizing r with
  | nil => exact .refl r
  | cons i is ih =>
    unfold rearm at hb ⊢
    split at hb
    · rw [if_pos ‹_›]
      simp only at hb ⊢
      cases h : r.draw.stage (.pollAdd (r.fds i) (interestsToPoll (r.ints i)) r.uringNextSeq) with
      | none => exact keeps_draw r
      | some r₁ =>
        simp only [h] at hb ⊢
        have hq : r₁.nextSeq = r.nextSeq + 1 := (quiet_stage h).nextSeq_eq
        have hle := nextSeq_le_rearm is { r₁ with seqs := Function.update r₁.seqs i r.uringNextSeq }
        have hlt : r.nextSeq < WAKE := by
          simp only at hle
          omega
        have hk := (keeps_draw r).trans (keeps_stage h (isPoll_of_ne (uringNextSeq_ne_wake hlt)))
        have hseqs : Keeps r₁ { r₁ with seqs := Function.update r₁.seqs i r.uringNextSeq } :=
          .of_eq rfl rfl rfl rfl
        exact (hk.trans hseqs).trans (ih _ hb)
    · rw [if_neg ‹_›]
      exact ih r hb

theorem keeps_armTimeout (r : Uring) (bounded : Bool) : Keeps r (r.armTimeout bounded).2 := by
  unfold armTimeout
  split
  · split
    · exact .refl r
    · next r₁ hr₁ =>
      have hk₁ : Keeps r r₁ := by
        split at hr₁
        · obtain ⟨r₀, hr₀, rfl⟩ := Option.map_eq_some_iff.mp hr₁
          exact (keeps_stage hr₀ rfl).trans (.of_eq rfl rfl rfl rfl)
        · exact Option.some.inj hr₁ ▸ .refl r
      cases hs : r₁.stage .timeout with
      | none => exact hk₁
      | some r₂ => exact (hk₁.trans (keeps_stage hs rfl)).trans (.of_eq rfl rfl rfl rfl)
  · exact .refl r

/-- The flag says whether the one wake poll is outstanding. -/
def WakePoll (r : Uring) : Prop :=
  r.wakePolls = if r.wakeArmed then [.pollAdd r.wakeFd 0x1 WAKE] else []

theorem WakePoll.of_perm (h : r.WakePoll) (harmed : r'.wakeArmed = r.wakeArmed)
    (hfd : r'.wakeFd = r.wakeFd) (hp : r'.wakePolls ~ r.wakePolls) : r'.WakePoll := by
  rw [WakePoll] at h ⊢
  rw [h] at hp
  rw [harmed, hfd]
  split at hp
  · rw [if_pos ‹_›]
    exact List.perm_singleton.mp hp
  · rw [if_neg ‹_›]
    exact hp.eq_nil

theorem WakePoll.keeps (h : r.WakePoll) (hk : Keeps r r') : r'.WakePoll :=
  h.of_perm hk.armed hk.wakeFd hk.polls

theorem WakePoll.armWake (h : r.WakePoll) :
    r.armWake.2.WakePoll ∧ (r.armWake.1 = none → r.armWake.2.wakeArmed = true) := by
  unfold Uring.armWake
  split
  · exact ⟨h, fun _ => ‹_›⟩
  · next harmed =>
    cases hs : r.stage (.pollAdd r.wakeFd 0x1 WAKE) with
    | none => exact ⟨h, fun hnone => by cases hnone⟩
    | some r₁ =>
      refine ⟨?_, fun _ => rfl⟩
      have hself : (Sqe.pollAdd r.wakeFd 0x1 WAKE).isPoll WAKE = true := by simp [Sqe.isPoll]
      have hp := (outstanding_stage hs).filter (Sqe.isPoll WAKE)
      have hnil : r.outstanding.filter (Sqe.isPoll WAKE) = [] := by
        rw [WakePoll, if_neg harmed] at h
        exact h
      rw [List.filter_cons, hself, if_pos rfl, hnil] at hp
      obtain ⟨-, rfl⟩ := stage_eq_some.mp hs
      exact List.perm_singleton.mp hp

/-- A wait up to its drain keeps the wake poll, and arms it unless it fails. -/
theorem WakePoll.waitSubmit (h : r.WakePoll) (bounded : Bool) (e : Enter)
    (hb : (r.waitSubmit bounded e).2.nextSeq ≤ WAKE) :
    (r.waitSubmit bounded e).2.WakePoll ∧
      ((r.waitSubmit bounded e).1 = none → (r.waitSubmit bounded e).2.wakeArmed = true) := by
  have hg := grows_waitSubmit r bounded e
  rw [hg.nextSeq] at hb
  have hk₁ := h.keeps (keeps_rearm _ r hb)
  unfold Uring.waitSubmit
  rcases hr : Uring.rearm (List.range r.cap) r with ⟨_ | err, r₁⟩
  · rw [hr] at hk₁
    have hw := hk₁.armWake
    simp only
    rcases hr₂ : r₁.armWake with ⟨_ | err, r₂⟩
    · rw [hr₂] at hw
      have ht := keeps_armTimeout r₂ bounded
      simp only
      rcases hr₃ : r₂.armTimeout bounded with ⟨_ | err, r₃⟩
      · rw [hr₃] at ht
        have hk := ht.trans (keeps_submit r₃ e 1)
        exact ⟨hw.1.keeps hk, fun _ => hk.armed.trans (hw.2 rfl)⟩
      · rw [hr₃] at ht
        exact ⟨hw.1.keeps ht, fun hnone => by cases hnone⟩
    · rw [hr₂] at hw
      exact ⟨hw.1, fun hnone => by cases hnone⟩
  · rw [hr] at hk₁
    exact ⟨hk₁, fun hnone => by cases hnone⟩

/-- A wait up to its drain leaves the completions. -/
theorem cq_waitSubmit (r : Uring) (bounded : Bool) (e : Enter)
    (hb : (r.waitSubmit bounded e).2.nextSeq ≤ WAKE) : (r.waitSubmit bounded e).2.cq = r.cq := by
  have hg := grows_waitSubmit r bounded e
  rw [hg.nextSeq] at hb
  have hclosed : Closed fun q => q.cq = r.cq :=
    ⟨fun h hs _ => (keeps_cq_stage hs).trans h, fun _ h => h, fun _ h => h, fun _ h => h⟩
  exact hclosed.waitSubmit bounded e (keeps_rearm _ r hb).cq

theorem WakePoll.waited {bounded : Bool} {e : Enter} {rc : Option Errno} (h : r.WakePoll)
    (hw : r.waitSubmit bounded e = (rc, r')) (hb : r'.nextSeq ≤ WAKE) :
    r'.WakePoll ∧ (rc = none → r'.wakeArmed = true) ∧ r'.cq = r.cq := by
  have hr : r' = (r.waitSubmit bounded e).2 := by rw [hw]
  have hpoll := h.waitSubmit bounded e (hr ▸ hb)
  have hcq := cq_waitSubmit r bounded e (hr ▸ hb)
  rw [hw] at hpoll hcq
  exact ⟨hpoll.1, hpoll.2, hcq⟩

/-! ### The completion of the wake poll -/

theorem userData_eq_wake_iff : op.userData = WAKE ↔ op.isPoll WAKE = true := by
  cases op with
  | pollAdd fd mask ud => simp [Sqe.userData, Sqe.isPoll]
  | pollRemove target => simp [Sqe.userData, Sqe.isPoll, WAKE]
  | timeout => simp [Sqe.userData, Sqe.isPoll, WAKE, TIMEOUT]
  | timeoutRemove => simp [Sqe.userData, Sqe.isPoll, WAKE]

/-- An outstanding entry with the user data of the wake poll is the wake poll, and it is armed. -/
theorem WakePoll.eq_of_mem (h : r.WakePoll) (hop : op ∈ r.outstanding) (hud : op.userData = WAKE) :
    r.wakeArmed = true ∧ op = .pollAdd r.wakeFd 0x1 WAKE := by
  have hmem : op ∈ r.wakePolls := List.mem_filter.mpr ⟨hop, userData_eq_wake_iff.mp hud⟩
  rw [WakePoll] at h
  rw [h] at hmem
  split at hmem
  · exact ⟨‹_›, List.mem_singleton.mp hmem⟩
  · cases hmem

theorem WakePoll.armed_of_queued (h : r.WakePoll) (hq : ∃ c ∈ r.cq, c.userData = WAKE) :
    r.wakeArmed = true := by
  obtain ⟨c, hc, hud⟩ := hq
  exact (h.eq_of_mem (List.mem_append_right _ (List.mem_map_of_mem hc)) hud).1

/-- An armed wake poll is outstanding. -/
theorem WakePoll.mem_of_armed (h : r.WakePoll) (harmed : r.wakeArmed = true) :
    (∃ c ∈ r.cq, c.userData = WAKE) ∨ .pollAdd r.wakeFd 0x1 WAKE ∈ r.staged ++ r.inflight := by
  rw [WakePoll, if_pos harmed] at h
  have hmem : .pollAdd r.wakeFd 0x1 WAKE ∈ r.wakePolls := by simp [h]
  rcases List.mem_append.mp (List.mem_filter.mp hmem).1 with hring | hcq
  · exact Or.inr hring
  · obtain ⟨c, hc, hop⟩ := List.mem_map.mp hcq
    exact Or.inl ⟨c, hc, by rw [Cqe.userData, hop, Sqe.userData]⟩

theorem outstanding_cons {c : Cqe} {cs : List Cqe} (hcq : r.cq = c :: cs) :
    r.outstanding ~ c.op :: outstanding { r with cq := cs } := by
  rw [outstanding, hcq]
  exact List.perm_middle

/-- A drained completion of another operation leaves the wake poll. -/
theorem WakePoll.drainCqe {c : Cqe} {cs : List Cqe} (h : r.WakePoll) (hcq : r.cq = c :: cs)
    (hc : c.userData ≠ WAKE) (cap : ℕ) (events : List PollEvent) :
    (Uring.drainCqe cap ({ r with cq := cs }, events) c).1.WakePoll ∧
      (Uring.drainCqe cap ({ r with cq := cs }, events) c).1.wakeArmed = r.wakeArmed := by
  have hop : c.op.isPoll WAKE = false := by
    rw [Bool.eq_false_iff]
    exact fun hp => hc (userData_eq_wake_iff.mpr hp)
  have hp := (outstanding_cons hcq).filter (Sqe.isPoll WAKE)
  rw [List.filter_cons, hop, if_neg Bool.false_ne_true] at hp
  have hw : WakePoll { r with cq := cs } := h.of_perm rfl rfl hp.symm
  unfold Uring.drainCqe
  simp only
  rw [if_neg hc]
  split
  · exact ⟨hw.keeps (.of_eq rfl rfl rfl rfl), rfl⟩
  · split
    · exact ⟨hw, rfl⟩
    · split
      · exact ⟨hw.keeps (.of_eq rfl rfl rfl rfl), rfl⟩
      · exact ⟨hw.keeps (.of_eq rfl rfl rfl rfl), rfl⟩

/-- The drained completion of the wake poll was the only one. -/
theorem WakePoll.drainCqe_wake {c : Cqe} {cs : List Cqe} (h : r.WakePoll) (hcq : r.cq = c :: cs)
    (hc : c.userData = WAKE) (cap : ℕ) (events : List PollEvent) :
    (Uring.drainCqe cap ({ r with cq := cs }, events) c).1.WakePoll ∧
      (Uring.drainCqe cap ({ r with cq := cs }, events) c).1.wakeArmed = false := by
  have hp := (outstanding_cons hcq).filter (Sqe.isPoll WAKE)
  rw [List.filter_cons, userData_eq_wake_iff.mp hc, if_pos rfl] at hp
  have hrest : (outstanding { r with cq := cs }).filter (Sqe.isPoll WAKE) = [] := by
    have hlen := hp.length_eq
    rw [WakePoll, wakePolls] at h
    rw [h] at hlen
    split at hlen
    · exact List.length_eq_zero_iff.mp (by simpa using hlen)
    · simp at hlen
  have hne : WAKE ≠ TIMEOUT := by decide
  unfold Uring.drainCqe
  simp only [hc, if_neg hne, if_true]
  exact ⟨hrest, trivial⟩

end Uring

/-! ### Traces -/

section Trace

variable (tr : List WakeEvent)

@[simp] theorem unread_wake : unread (.wake :: tr) = unread tr + 1 := by simp [unread]

@[simp] theorem unread_drained : unread (.drained :: tr) = unread tr := by simp [unread]

@[simp] theorem unread_read : unread (.read :: tr) = 0 := by simp [unread]

@[simp] theorem unread_table : unread (.table :: tr) = unread tr := by simp [unread]

@[simp] theorem sinceDrained_wake : sinceDrained (.wake :: tr) = sinceDrained tr + 1 := by
  simp [sinceDrained]

@[simp] theorem sinceDrained_read : sinceDrained (.read :: tr) = sinceDrained tr := by
  simp [sinceDrained]

@[simp] theorem sinceDrained_table : sinceDrained (.table :: tr) = sinceDrained tr := by
  simp [sinceDrained]

/-- Every drained completion comes after a wake since the one before it. -/
def Accounted : Prop :=
  ∀ later earlier, tr = later ++ .drained :: earlier → 0 < sinceDrained earlier

variable {tr}

theorem Accounted.cons (h : Accounted tr) {e : WakeEvent}
    (he : e = .drained → 0 < sinceDrained tr) : Accounted (e :: tr) := by
  intro later earlier heq
  cases later with
  | nil =>
    obtain ⟨rfl, rfl⟩ := List.cons.inj heq
    exact he rfl
  | cons e' later => exact h later earlier (List.cons.inj heq).2

end Trace

theorem eventfdWrite_pos (counter : ℕ) : 0 < eventfdWrite counter := by
  unfold eventfdWrite
  have hmax : 0 < EVENTFD_MAX := by decide
  split <;> omega

/-! ### The invariant -/

open Uring

/-- The invariant of the wake token. -/
structure WakeInv (tr : List WakeEvent) (w : WakeWorld) : Prop where
  poll : w.ring.WakePoll
  counter : 0 < w.counter ↔ 0 < unread tr
  queued : (∃ c ∈ w.ring.cq, c.userData = WAKE) → 0 < w.counter
  /-- The last read came after the last drained completion. -/
  drained : w.waiter.reads = false → unread tr ≤ sinceDrained tr
  reading : w.waiter.reads = true → w.ring.wakeArmed = false
  blocked : ∀ cap, w.waiter = .blocked cap → w.ring.wakeArmed = true
  accounted : Accounted tr

section Invariant

variable {tr es : List WakeEvent} {w w' : WakeWorld}

theorem wakeInv_start {r : Uring} (h : Start r) : WakeInv [] ⟨r, 0, .idle⟩ where
  poll := by
    rw [WakePoll, if_pos h.armed.1, wakePolls, outstanding, h.outstanding, h.cq]
    simp [Sqe.isPoll]
  counter := by simp [unread]
  queued := by simp [h.cq]
  drained _ := by simp [unread, sinceDrained]
  reading hpc := by cases hpc
  blocked _ hpc := by cases hpc
  accounted later earlier heq := by simp at heq

/-- A call on the table, outside of a wait. -/
theorem WakeInv.table (hi : WakeInv tr w) (hpc : w.waiter = .idle) {r : Uring}
    (hk : Keeps w.ring r) : WakeInv (.table :: tr) { w with ring := r } where
  poll := hi.poll.keeps hk
  counter := by simpa using hi.counter
  queued := by
    simp only [hk.cq]
    exact hi.queued
  drained hno := by simpa using hi.drained hno
  reading hpc' := by simp [hpc, WaiterPc.reads] at hpc'
  blocked cap hpc' := by simp [hpc] at hpc'
  accounted := hi.accounted.cons (by simp)

/-- The step of a waiter outside of its read, with the eventfd and the trace as they were. -/
theorem WakeInv.quiet (hi : WakeInv tr w) (hno : w.waiter.reads = false) {r : Uring}
    {pc : WaiterPc} (hp : r.WakePoll) (hcq : ∀ c ∈ r.cq, c ∈ w.ring.cq) (hno' : pc.reads = false)
    (hblocked : ∀ cap, pc = .blocked cap → r.wakeArmed = true) :
    WakeInv tr { w with ring := r, waiter := pc } where
  poll := hp
  counter := hi.counter
  queued := fun ⟨c, hc, hud⟩ => hi.queued ⟨c, hcq c hc, hud⟩
  drained _ := hi.drained hno
  reading hpc := by simp [hno'] at hpc
  blocked := hblocked
  accounted := hi.accounted

theorem WakeInv.wake (hi : WakeInv tr w) :
    WakeInv (.wake :: tr) { w with counter := eventfdWrite w.counter } where
  poll := hi.poll
  counter := by simp [eventfdWrite_pos]
  queued _ := eventfdWrite_pos _
  drained hno := by simpa using hi.drained hno
  reading := hi.reading
  blocked := hi.blocked
  accounted := hi.accounted.cons (by simp)

/-- The kernel completes the wake poll over a nonzero counter only. -/
theorem WakeInv.post (hi : WakeInv tr w) {before after : List Sqe} {op : Sqe} (res : ℤ)
    (hop : w.ring.inflight = before ++ op :: after)
    (hwake : op = .pollAdd w.ring.wakeFd 0x1 WAKE → 0 < w.counter) :
    WakeInv tr { w with
      ring := { w.ring with inflight := before ++ after, cq := w.ring.cq ++ [⟨op, res⟩] } } where
  poll := hi.poll.of_perm rfl rfl ((outstanding_post hop res).filter _)
  counter := hi.counter
  queued := by
    rintro ⟨c, hc, hud⟩
    rcases List.mem_append.mp hc with hc | hc
    · exact hi.queued ⟨c, hc, hud⟩
    · obtain rfl := List.mem_singleton.mp hc
      have hmem : op ∈ w.ring.outstanding := by simp [outstanding, hop]
      exact hwake (hi.poll.eq_of_mem hmem hud).2
  drained := hi.drained
  reading := hi.reading
  blocked := hi.blocked
  accounted := hi.accounted

/-- The waiter drains the completion of the wake poll. -/
theorem WakeInv.drainWake (hi : WakeInv tr w) {cap left : ℕ} {events : List PollEvent} {c : Cqe}
    {cs : List Cqe} (hno : w.waiter.reads = false) (hcq : w.ring.cq = c :: cs)
    (hc : c.userData = WAKE) :
    WakeInv (.drained :: tr) { w with
      ring := (Uring.drainCqe cap ({ w.ring with cq := cs }, events) c).1
      waiter := .reading cap left events } := by
  obtain ⟨hp, harmed⟩ := hi.poll.drainCqe_wake hcq hc cap events
  have hpos : 0 < w.counter := hi.queued ⟨c, by simp [hcq], hc⟩
  refine ⟨hp, by simpa using hi.counter, fun _ => hpos, (nomatch ·), fun _ => harmed,
    fun _ hpc => (by cases hpc), hi.accounted.cons fun _ => ?_⟩
  have hunread := hi.counter.mp hpos
  have hle := hi.drained hno
  omega

/-- The read of the eventfd. -/
theorem WakeInv.read (hi : WakeInv tr w) (hreads : w.waiter.reads = true) (cap left : ℕ)
    (events : List PollEvent) :
    WakeInv (.read :: tr) { w with counter := 0, waiter := .draining cap left events } where
  poll := hi.poll
  counter := by simp
  queued hq := by
    have harmed := hi.poll.armed_of_queued hq
    rw [hi.reading hreads] at harmed
    cases harmed
  drained _ := by simp
  reading hpc := by cases hpc
  blocked _ hpc := by cases hpc
  accounted := hi.accounted.cons (by simp)

/-- What one step does to the invariant, while no number reaches the reserved ones. -/
theorem WakeInv.step (hi : WakeInv tr w) (hs : WakeStep w es w') (hb : w'.ring.nextSeq ≤ WAKE) :
    WakeInv (es ++ tr) w' := by
  cases hs with
  | wake => exact hi.wake
  | post before after op res hop hwake => exact hi.post res hop hwake
  | @waitFail bounded e err r hpc h =>
    obtain ⟨hw, -, hcq⟩ := hi.poll.waited h hb
    refine hi.quiet (by rw [hpc, WaiterPc.reads]) hw (by simp [hcq]) (by rw [hpc, WaiterPc.reads])
      fun cap hpc' => ?_
    rw [hpc] at hpc'
    cases hpc'
  | @wait bounded e r cap hpc h =>
    obtain ⟨hw, harmed, hcq⟩ := hi.poll.waited h hb
    exact hi.quiet (by rw [hpc, WaiterPc.reads]) hw (by simp [hcq]) rfl fun _ _ => harmed rfl
  | drain hpc _ =>
    exact hi.quiet (by rw [hpc, WaiterPc.reads]) hi.poll (fun _ hc => hc) rfl
      fun _ hpc' => by cases hpc'
  | @drainCqe cap left events c cs hpc hcq hc =>
    have hw := hi.poll.drainCqe hcq hc cap events
    have hframe := (drainCqe_frame cap { w.ring with cq := cs } events c).1
    refine hi.quiet (by rw [hpc, WaiterPc.reads]) hw.1 (fun c' hc' => ?_) rfl
      fun _ hpc' => by cases hpc'
    rw [hframe] at hc'
    rw [hcq]
    exact List.mem_cons_of_mem c hc'
  | drainWake hpc hcq hc => exact hi.drainWake (by rw [hpc, WaiterPc.reads]) hcq hc
  | read hpc => exact hi.read (by rw [hpc, WaiterPc.reads]) _ _ _
  | done hpc =>
    exact hi.quiet (by rw [hpc, WaiterPc.reads]) hi.poll (fun _ hc => hc) rfl
      fun _ hpc' => by cases hpc'
  | register e₁ e₂ fd interests token hpc =>
    exact hi.table hpc (keeps_register w.ring e₁ e₂ fd interests token hb)
  | modify e₁ e₂ fd interests token hpc =>
    exact hi.table hpc (keeps_modify w.ring e₁ e₂ fd interests token hb)
  | unregister e fd hpc => exact hi.table hpc (keeps_unregister w.ring e fd)

/-- Numbers are only drawn. -/
theorem WakeStep.nextSeq_le (hs : WakeStep w es w') : w.ring.nextSeq ≤ w'.ring.nextSeq := by
  cases hs with
  | wake => exact Nat.le_refl _
  | post before after op res hop hwake => exact Nat.le_refl _
  | waitFail hpc h => exact nextSeq_le_step (.waitFail h)
  | @wait bounded e r cap hpc h =>
    have hle := nextSeq_le_waitSubmit w.ring bounded e
    rwa [h] at hle
  | drain hpc _ => exact Nat.le_refl _
  | @drainCqe cap left events c cs hpc hcq hc =>
    exact (drainCqe_frame cap { w.ring with cq := cs } events c).2.ge
  | @drainWake cap left events c cs hpc hcq hc =>
    exact (drainCqe_frame cap { w.ring with cq := cs } events c).2.ge
  | read hpc => exact Nat.le_refl _
  | done hpc => exact Nat.le_refl _
  | register e₁ e₂ fd interests token hpc =>
    exact nextSeq_le_step (.register e₁ e₂ fd interests token)
  | modify e₁ e₂ fd interests token hpc => exact nextSeq_le_step (.modify e₁ e₂ fd interests token)
  | unregister e fd hpc => exact nextSeq_le_step (.unregister e fd)

theorem WakeRun.inv (hr : WakeRun tr w) (hb : w.ring.nextSeq ≤ WAKE) : WakeInv tr w := by
  induction hr with
  | start h => exact wakeInv_start h
  | step _ hs ih => exact (ih (hs.nextSeq_le.trans hb)).step hs hb

/-! ### Runs without registrations -/

/-- The table is empty, and no number was drawn. -/
def Unregistered (r : Uring) : Prop := r.nextSeq = FIRST_SEQ ∧ ∀ i, r.fds i = -1

theorem rearm_of_unregistered {r : Uring} (h : Unregistered r) (is : List ℕ) :
    Uring.rearm is r = (none, r) := by
  induction is with
  | nil => rfl
  | cons i is ih =>
    rw [Uring.rearm, if_neg (by simp [h.2 i])]
    exact ih

theorem Unregistered.waitSubmit {r : Uring} (h : Unregistered r) (bounded : Bool) (e : Enter) :
    Unregistered (r.waitSubmit bounded e).2 := by
  have hg := (closed_grows r).waitSubmit (r := r) bounded e
    (by rw [rearm_of_unregistered h]; exact .refl r)
  exact ⟨hg.nextSeq.trans h.1, fun i => (congrFun hg.fds i).trans (h.2 i)⟩

theorem Unregistered.drainCqe {r : Uring} (h : Unregistered r) (cap : ℕ) (events : List PollEvent)
    (c : Cqe) : Unregistered (Uring.drainCqe cap (r, events) c).1 := by
  have hnone : r.findSeq c.userData = none :=
    List.find?_eq_none.mpr fun i _ => by simp [h.2 i]
  unfold Uring.drainCqe
  simp only [hnone]
  split
  · exact h
  · split
    · exact h
    · exact h

theorem WakeRun.unregistered (hr : WakeRun tr w) (ht : .table ∉ tr) : Unregistered w.ring := by
  induction hr with
  | start h => exact ⟨h.nextSeq, h.fds⟩
  | @step tr es w w' _ hs ih =>
    have hi := ih fun hmem => ht (List.mem_append_right es hmem)
    cases hs with
    | wake => exact hi
    | post before after op res hop hwake => exact hi
    | @waitFail bounded e err r hpc h =>
      have hw := hi.waitSubmit bounded e
      rwa [h] at hw
    | @wait bounded e r cap hpc h =>
      have hw := hi.waitSubmit bounded e
      rwa [h] at hw
    | drain hpc _ => exact hi
    | @drainCqe cap left events c cs hpc hcq hc =>
      exact Unregistered.drainCqe (r := { w.ring with cq := cs }) hi cap events c
    | @drainWake cap left events c cs hpc hcq hc =>
      exact Unregistered.drainCqe (r := { w.ring with cq := cs }) hi cap events c
    | read hpc => exact hi
    | done hpc => exact hi
    | register e₁ e₂ fd interests token hpc => exact absurd List.mem_cons_self ht
    | modify e₁ e₂ fd interests token hpc => exact absurd List.mem_cons_self ht
    | unregister e fd hpc => exact absurd List.mem_cons_self ht

end Invariant

/-- In every run of wakes and waits, and of calls on the table as long as fewer numbers are drawn
than there are below the reserved ones:

* after a wake that no read consumed, the completion of the wake poll is queued, or the counter is
  not zero and the wake poll is staged or in the kernel, or else will be armed by the next wait;
* at most one wake poll is outstanding, and its completion is queued after such a wake only;
* between two drained completions of the wake poll, and before the first one, there is a wake;
* a wait that blocks after such a wake, with its entries consumed, finds the completion, or the
  kernel has the poll of a readable eventfd. -/
theorem wake_token {tr : List WakeEvent} {w : WakeWorld} (hr : WakeRun tr w)
    (hseq : .table ∉ tr ∨ w.ring.nextSeq ≤ WAKE) :
    (0 < unread tr → (∃ c ∈ w.ring.cq, c.userData = WAKE) ∨
      0 < w.counter ∧ (.pollAdd w.ring.wakeFd 0x1 WAKE ∈ w.ring.staged ++ w.ring.inflight ∨
        w.ring.wakeArmed = false)) ∧
      w.ring.wakePolls.length ≤ 1 ∧ ((∃ c ∈ w.ring.cq, c.userData = WAKE) → 0 < unread tr) ∧
      (∀ later earlier, tr = later ++ .drained :: earlier → 0 < sinceDrained earlier) ∧
      ∀ cap, w.waiter = .blocked cap → w.ring.staged = [] → 0 < unread tr →
        (∃ c ∈ w.ring.cq, c.userData = WAKE) ∨
          0 < w.counter ∧ .pollAdd w.ring.wakeFd 0x1 WAKE ∈ w.ring.inflight := by
  have hb : w.ring.nextSeq ≤ WAKE := by
    rcases hseq with ht | hb
    · rw [(hr.unregistered ht).1]
      decide
    · exact hb
  have hi := hr.inv hb
  refine ⟨fun hun => ?_, ?_, fun hq => hi.counter.mp (hi.queued hq), hi.accounted,
    fun cap hpc hstaged hun => ?_⟩
  · by_cases harmed : w.ring.wakeArmed = true
    · rcases hi.poll.mem_of_armed harmed with hq | hring
      · exact Or.inl hq
      · exact Or.inr ⟨hi.counter.mpr hun, Or.inl hring⟩
    · exact Or.inr ⟨hi.counter.mpr hun, Or.inr (Bool.eq_false_iff.mpr harmed)⟩
  · rw [show w.ring.wakePolls = _ from hi.poll]
    split
    · exact Nat.le_refl 1
    · exact Nat.zero_le 1
  · rcases hi.poll.mem_of_armed (hi.blocked cap hpc) with hq | hring
    · exact Or.inl hq
    · rw [hstaged, List.nil_append] at hring
      exact Or.inr ⟨hi.counter.mpr hun, hring⟩

/-- Two wakes before a wait: the kernel completes the wake poll, and the wait drains it. -/
theorem wake_token_two_wakes :
    ∃ tr w, WakeRun tr w ∧ tr = [.read, .drained, .wake, .wake] ∧ w.waiter = .draining 1 0 [] ∧
      w.counter = 0 ∧ w.ring.wakeArmed = false ∧ 0 < sinceDrained [.wake, .wake] := by
  have h₁ := ((WakeRun.start start_freshRing).step .wake).step .wake
  have h₂ : WakeRun [.wake, .wake]
      ⟨{ freshRing with inflight := [], cq := [⟨.pollAdd 100 0x1 WAKE, 1⟩] }, 2, .idle⟩ :=
    h₁.step (.post [] [] (.pollAdd 100 0x1 WAKE) 1 rfl fun _ => by decide)
  have h₃ : WakeRun [.wake, .wake]
      ⟨{ freshRing with inflight := [], cq := [⟨.pollAdd 100 0x1 WAKE, 1⟩] }, 2, .blocked 1⟩ :=
    h₂.step (@WakeStep.wait _ false ⟨0, none⟩ _ 1 rfl
      (by rw [Uring.waitSubmit, rearm_of_unregistered ⟨rfl, fun _ => rfl⟩]; rfl))
  have h₄ := h₃.step (.drain rfl (Or.inl (List.cons_ne_nil _ _)))
  have h₅ := h₄.step (.drainWake rfl rfl rfl)
  have h₆ := h₅.step (.read rfl)
  refine ⟨_, _, h₆, rfl, rfl, rfl, rfl, ?_⟩
  exact (wake_token h₆ (Or.inl (by decide))).2.2.2.1 [.read] _ rfl

end MojitoSys.Io.IoUring
