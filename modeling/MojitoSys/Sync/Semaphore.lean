import MojitoSys.Sync.Token

/-!
# The semaphore

`mjs_sem.c`: a count of permits with an internal mutex and condition variable. `mjs_sem_post` adds
a permit and signals the condition variable, `mjs_sem_wait` and `mjs_sem_wait_until` park while the
count is zero and then take a permit, and `mjs_sem_try_wait` takes one or gives up.

## Main definitions

* `semInit`, `semaphore`, `SemStart`.
* `CountBound`: the bound of the count.

## Main results

* `semaphore_conservation`: the count is the initial count plus the posts minus the acquisitions,
  and every acquisition takes one permit.
* `no_stranded_waiter`: a parked waiter and `n` permits mean that `n` waiters are on their way.
* `count_bound_iff`: the bound holds unless a post finds the count at `INT_MAX`.
-/

namespace MojitoSys.Sync

open Util.Monitor

/-- `INT_MAX`. -/
def INT_MAX : ℤ := 0x7FFFFFFF

/-- The initial count of `mjs_sem_init`. -/
def semInit (initial : CInt) : Except Errno CInt :=
  if initial.toInt < 0 then .error .EINVAL else .ok initial

/-- The semaphore: `mjs_sem_post` is the release. -/
def semaphore : TokenKind where
  put count := count + 1
  drop count := count - 1
  max := INT_MAX
  coalesce := false
  max_pos := by decide
  put_eq {d} h0 h1 := by
    simp only [INT_MAX] at h1
    rw [BitVec.toInt_add, Int.bmod_eq_of_le] <;> simp <;> omega
  drop_eq {d} h0 h1 := by
    simp only [INT_MAX] at h1
    rw [BitVec.toInt_sub, Int.bmod_eq_of_le] <;> simp <;> omega
  put_le d := by bv_omega
  drop_lt {d} hd := by bv_omega

theorem semInit_eq_ok {initial count : CInt} :
    semInit initial = .ok count ↔ 0 ≤ initial.toInt ∧ count = initial := by
  unfold semInit
  split_ifs with h
  · simp
    omega
  · simp [eq_comm]
    omega

/-- The semaphore that `mjs_sem_init` made, and no call begun. -/
def SemStart {P : Type*} (initial : CInt) (op : P → Op) (s : State P Label CInt) : Prop :=
  ∃ count, semInit initial = .ok count ∧ semaphore.Start count op s

section Run

variable {P : Type*} [DecidableEq P] {initial : CInt} {op : P → Op}
  {tr : List (Exec P Label CInt)} {s : State P Label CInt}

/-- `mjs_sem_init` succeeded, and the count began with its argument. -/
theorem run_of_semStart (hr : Run semaphore.program (SemStart initial op) tr s) :
    0 ≤ initial.toInt ∧ Run semaphore.program (semaphore.Start initial op) tr s := by
  induction hr with
  | start h =>
    obtain ⟨count, hinit, hs⟩ := h
    obtain ⟨hk, rfl⟩ := semInit_eq_ok.mp hinit
    exact ⟨hk, .start hs⟩
  | step _ hs ih => exact ih.imp_right fun hr => hr.step hs

theorem toInt_le_max (d : CInt) : d.toInt ≤ INT_MAX := by
  have := d.toInt_lt
  simp only [INT_MAX]
  omega

/-- The conservation law. The trace has the executed instructions: `stores` counts the increments
and `takes` the decrements. A call that returned `0` took one permit, a call that returned an error
took none, and the last count it saw was zero. -/
theorem semaphore_conservation (hr : Run semaphore.program (SemStart initial op) tr s)
    (hroom : initial.toInt + stores tr ≤ INT_MAX) :
    s.data.toInt = initial.toInt + stores tr - takes tr ∧ 0 ≤ s.data.toInt ∧ (∀ x ∈ tr, Moves x) ∧
      (∀ p, s.pc p = .done .release none → stores (own p tr) = 1) ∧
      (∀ p o, o ≠ .release → s.pc p = .done o none → takes (own p tr) = 1) ∧
      (∀ p o e, s.pc p = .done o (some e) →
        takes (own p tr) = 0 ∧ lastTest (own p tr) = some 0) := by
  obtain ⟨hk, hr⟩ := run_of_semStart hr
  have hb := TokenKind.balanced hk (toInt_le_max _) hr (Or.inr hroom)
  refine ⟨hb.eq, hb.nonneg, hb.moves, fun p hp => ?_, fun p o ho hp => ?_, fun p o e hp => ?_⟩
  · simpa [semaphore] using TokenKind.stores_of_done hr hp
  · exact TokenKind.takes_of_done hr ho hp
  · exact TokenKind.failed_of_done hr hp

/-- With the mutex free, if a waiter is parked and not notified, then at least as many notified or
expired waiters are about to re-acquire the mutex as there are permits. -/
theorem no_stranded_waiter (hr : Run semaphore.program (SemStart initial op) tr s)
    (hfree : s.owner = none) {p : P} (hp : p ∈ s.cv.blocked) :
    s.data.toInt ≤ s.cv.ready.card ∧ (0 < s.data.toInt → s.cv.ready.Nonempty) := by
  obtain ⟨hk, hr⟩ := run_of_semStart hr
  have hle : s.data.toInt ≤ s.data.toNat := by
    rw [BitVec.toInt_eq_toNat_cond]
    split <;> omega
  have hc : s.data.toInt ≤ s.cv.ready.card :=
    hle.trans (TokenKind.covered hk (toInt_le_max _) hr hfree ⟨p, hp⟩)
  refine ⟨hc, fun hpos => Finset.card_pos.mp ?_⟩
  omega

/-- The bound of the count in a run: the count is not negative, a post raises it by one or fails
and leaves it, and the acquisitions never outnumber the permits of the initial count and of the
posts. -/
structure CountBound (initial : CInt) (tr : List (Exec P Label CInt)) (s : State P Label CInt) :
    Prop where
  nonneg : 0 ≤ s.data.toInt
  post : ∀ x ∈ tr, x.label = .store → x.post.toInt = x.pre.toInt + 1 ∨
    x.post = x.pre ∧ s.pc x.proc ≠ .done .release none
  granted : ∀ tr', tr' <:+ tr → (takes tr' : ℤ) ≤ initial.toInt + stores tr'
  /-- The calls of `A` acquired a permit and returned. -/
  acquired : ∀ A : Finset P, (∀ p ∈ A, ∃ o, o ≠ .release ∧ s.pc p = .done o none) →
    (A.card : ℤ) ≤ initial.toInt + stores tr

/-- At `INT_MAX` the increment of a post is not representable. -/
theorem put_max {d : CInt} (hd : d.toInt = INT_MAX) :
    (semaphore.put d).toInt < 0 ∧ semaphore.put d ≠ d := by
  obtain rfl : d = 0x7FFFFFFF := BitVec.toInt_inj.mp hd
  exact ⟨by decide, by decide⟩

/-- The bound holds in exactly the runs in which no post finds the count at `INT_MAX`. -/
theorem count_bound_iff (hr : Run semaphore.program (SemStart initial op) tr s) :
    CountBound initial tr s ↔ ∀ x ∈ tr, x.label = .store → x.pre.toInt ≠ INT_MAX := by
  obtain ⟨hk, hr⟩ := run_of_semStart hr
  constructor
  · intro h x hx hl hmax
    obtain ⟨hneg, hne⟩ := put_max hmax
    rw [← TokenKind.post_of_store hr x hx hl] at hneg hne
    rcases h.post x hx hl with hinc | ⟨hkeep, -⟩
    · simp only [INT_MAX] at hmax
      omega
    · exact hne hkeep
  · intro h
    have hb := TokenKind.balanced_of_bounded hk (toInt_le_max _) hr fun x hx hl =>
      lt_of_le_of_ne (toInt_le_max _) (h x hx hl)
    have hle (tr') (htr' : tr' <:+ tr) : (takes tr' : ℤ) ≤ initial.toInt + stores tr' := by
      have := (hb.within tr' htr').1
      omega
    refine ⟨hb.nonneg, fun x hx hl => Or.inl ?_, hle, fun A hA => ?_⟩
    · have hx := hb.moves x hx
      rw [Moves, hl] at hx
      exact hx.2
    · have hcard := TokenKind.card_le_takes hr hA
      have := hle tr List.suffix_rfl
      omega

end Run

/-! ### Two waiters and a post -/

/-- Two calls of `mjs_sem_wait` and one of `mjs_sem_post`. -/
def twoWaits (p : ℕ) : Op := if p = 2 then .release else .wait

/-- The trace of the post after both waiters parked. -/
def postTrace : List (Exec ℕ Label CInt) :=
  [⟨2, .unlock .release none, 1, 1, .done .release none⟩,
    ⟨2, .notify, 1, 1, .unlock .release none⟩, ⟨2, .store, 0, 1, .notify⟩, ⟨1, .wait, 0, 0, .wait⟩,
    ⟨0, .wait, 0, 0, .wait⟩]

/-- The semaphore after the post signalled the first waiter. -/
def onePermit : State ℕ Label CInt where
  data := 1
  owner := none
  cv := ((Condvar.empty.park 0).park 1).notify {0}
  pc := Function.update (fun p => semaphore.start (twoWaits p)) 2 (.done .release none)

theorem run_onePermit : Run semaphore.program (SemStart 0 twoWaits) postTrace onePermit := by
  have h := @Run.start _ _ _ _ _ semaphore.program (SemStart 0 twoWaits)
    ⟨0, none, .empty, fun p => semaphore.start (twoWaits p)⟩
    ⟨0, rfl, rfl, rfl, rfl, fun _ => rfl⟩
  have h := h.step (e := ()) (.lock (p := 0) rfl ⟨.wait, rfl⟩ (by decide))
  have h := h.step (e := ()) (.wait (p := 0) rfl rfl)
  have h := h.step (e := ()) (.lock (p := 1) rfl ⟨.wait, rfl⟩ (by decide))
  have h := h.step (e := ()) (.wait (p := 1) rfl rfl)
  have h := h.step (e := ()) (.lock (p := 2) rfl ⟨.release, rfl⟩ (by decide))
  have h := h.step (e := ()) (.act (p := 2) rfl rfl)
  have h := h.step (e := ()) (.signal (p := 2) rfl rfl ⟨{0}, fun _ => by decide, rfl⟩)
  have h := h.step (e := ()) (.unlock (p := 2) rfl rfl)
  simp only [Function.update_idem] at h
  exact h

/-- The first waiter takes the permit of the post. -/
theorem semaphore_conservation_post : ∃ tr s, Run semaphore.program (SemStart 0 twoWaits) tr s ∧
    s.pc 2 = .done .release none ∧ s.pc 0 = .done .wait none ∧
      s.data.toInt = (0 : CInt).toInt + stores tr - takes tr ∧ stores (own 2 tr) = 1 ∧
        takes (own 0 tr) = 1 := by
  have h := run_onePermit
  have h := h.step (e := ()) (.resume (p := 0) rfl (by decide) ⟨none, rfl, rfl⟩)
  have h := h.step (e := ()) (.act (p := 0) rfl rfl)
  have h := h.step (e := ()) (.act (p := 0) rfl rfl)
  have h := h.step (e := ()) (.act (p := 0) rfl rfl)
  have h := h.step (e := ()) (.unlock (p := 0) rfl rfl)
  obtain ⟨heq, -, -, hpost, htake, -⟩ := semaphore_conservation h (by decide)
  exact ⟨_, _, h, rfl, rfl, heq, hpost 2 rfl, htake 0 .wait (by decide) rfl⟩

theorem no_stranded_waiter_post :
    0 < onePermit.data.toInt ∧ onePermit.data.toInt ≤ onePermit.cv.ready.card :=
  ⟨by decide, (no_stranded_waiter (p := 1) run_onePermit rfl (by decide)).1⟩

theorem count_bound_iff_post : CountBound 0 postTrace onePermit :=
  (count_bound_iff run_onePermit).mpr (by decide)

/-! ### A post on a full count -/

/-- The count after the increment of a post, which `mjs_sem_init` had set to `INT_MAX`. -/
def overflowed : State ℕ Label CInt where
  data := 0x80000000
  owner := some 0
  cv := .empty
  pc := Function.update (fun _ => .store) 0 .notify

theorem run_overflowed : Run semaphore.program (SemStart 0x7FFFFFFF fun _ => .release)
    [⟨0, .store, 0x7FFFFFFF, 0x80000000, .notify⟩] overflowed := by
  have h := @Run.start ℕ _ _ _ _ semaphore.program (SemStart 0x7FFFFFFF fun _ => .release)
    ⟨0x7FFFFFFF, none, .empty, fun _ => .store⟩
    ⟨0x7FFFFFFF, rfl, rfl, rfl, rfl, fun _ => rfl⟩
  have h := h.step (e := ()) (.lock (p := 0) rfl ⟨.release, rfl⟩ (by decide))
  exact h.step (e := ()) (.act (p := 0) rfl rfl)

/-- A post on a count of `INT_MAX` makes it negative. -/
theorem count_bound_overflow :
    ∃ (tr : List (Exec ℕ Label CInt)) (s : State ℕ Label CInt),
      Run semaphore.program (SemStart 0x7FFFFFFF fun _ => .release) tr s ∧
        s.data.toInt < 0 ∧ ¬ CountBound 0x7FFFFFFF tr s :=
  ⟨_, _, run_overflowed, by decide, fun h => absurd h.nonneg (by decide)⟩

end MojitoSys.Sync
