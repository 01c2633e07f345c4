import MojitoSys.Io.UringArming

/-!
# The drain of the io_uring backend

`uring_drain_cq` resolves a completion to the live slot whose sequence number is its user data.
The number `0` marks a slot whose poll fired and that waits for its re-arm, and it is also the user
data of the removals that the backend submits itself. So once a poll of the batch has fired, the
completion of a removal is resolved to the slot of that poll: it emits a second event for it, or
retires the registration when the removal failed.

A drain comes after a re-arm pass, so at its start every live slot is armed. It treats every
completion as it should exactly when each removal in the batch comes before the first poll that
fires, or succeeded and finds the output array full.

## Main definitions

* `IsOwn`, `OwnOnly`, `DrainOwn`: the effects of a completion are those of an own armed poll.
* `Uring.fires`, `ControlsHarmless`: the condition on a batch.

## Main results

* `ownOnly_of_userData_ne_zero`, `ownOnly_control_iff`: one completion.
* `drain_own_iff_controls_harmless`: whole batches, at every drain of every run.
* `drain_own_fails`: a poll fires, and then a removal completes.
-/

namespace MojitoSys.Io.IoUring

open Uring
open scoped List

/-- The completion is one of the poll that is armed for the slot. -/
def IsOwn (r : Uring) (c : Cqe) (i : ℕ) : Prop :=
  r.Live i ∧ r.seqs i ≠ 0 ∧ ∃ mask, c.op = .pollAdd (r.fds i) mask (r.seqs i)

/-- From `s` to `s'`, the completion emitted an event, retired a registration or un-armed a slot
only for the slot whose armed poll it completes. -/
structure OwnOnly (s s' : Uring × List PollEvent) (c : Cqe) : Prop where
  emits : s'.2 = s.2 ∨ ∃ i, IsOwn s.1 c i ∧
    s'.2 = s.2 ++ [⟨s.1.toks i, s.1.fds i, pollFlags c.res⟩]
  retires : ∀ i, s.1.Live i → ¬ s'.1.Live i → IsOwn s.1 c i
  unarms : ∀ i, s.1.Live i → s.1.seqs i ≠ 0 → s'.1.seqs i = 0 → IsOwn s.1 c i

/-- Every completion of the batch has its own effects only. -/
def DrainOwn (cap : ℕ) : List Cqe → Uring × List PollEvent → Prop
  | [], _ => True
  | c :: cs, s => OwnOnly s (drainCqe cap s c) c ∧ DrainOwn cap cs (drainCqe cap s c)

/-- The poll of a live slot that fires. -/
def Uring.fires (r : Uring) (c : Cqe) : Bool := 0 ≤ c.res ∧ (r.findSeq c.userData).isSome

/-- Every removal (a completion with the user data `0`) in the batch comes before the first poll
that fires, or succeeded and finds the output full; `k` polls fired before the batch. -/
def ControlsHarmless (r : Uring) (cap : ℕ) : List Cqe → ℕ → Prop
  | [], _ => True
  | c :: cs, k =>
    (c.userData = 0 → k = 0 ∨ 0 ≤ c.res ∧ cap ≤ k) ∧
      ControlsHarmless r cap cs (if r.fires c then k + 1 else k)

/-! ### One completion -/

section One

variable {q : Uring} {c : Cqe} {cs : List Cqe} {events : List PollEvent} {cap : ℕ}

theorem Sqe.isPoll_of_userData {op : Sqe} {ud : ℕ} (h : op.userData = ud) (hne : ud ≠ 0)
    (ht : ud ≠ TIMEOUT) : op.isPoll ud = true := by
  cases op with
  | pollAdd fd mask u => simpa [Sqe.isPoll, Sqe.userData] using h
  | pollRemove target => exact absurd h.symm hne
  | timeout => exact absurd h.symm ht
  | timeoutRemove => exact absurd h.symm hne

theorem perm_outstanding_cons (q : Uring) (c : Cqe) (cs : List Cqe) :
    outstanding { q with cq := c :: cs } ~ c.op :: outstanding { q with cq := cs } :=
  List.perm_middle

/-- The completed poll of a slot is the only one with its number. -/
theorem isPoll_rest (hi : ArmInv { q with cq := c :: cs }) {i : ℕ} (hl : q.Live i)
    (hz : q.seqs i ≠ 0) (hpoll : c.op.isPoll (q.seqs i) = true) {op : Sqe}
    (hop : op ∈ outstanding { q with cq := cs }) : op.isPoll (q.seqs i) = false := by
  have hone := (hi.armed i hl hz).1
  rw [polls, (perm_outstanding_cons q c cs).countP_eq, List.countP_cons, hpoll, if_pos rfl] at hone
  have hrest := List.countP_eq_zero.mp (Nat.succ.inj hone) op hop
  simpa using hrest

/-- The slot found by a completion that is no removal is the slot of its poll. -/
theorem isOwn_of_findSeq (hi : ArmInv { q with cq := c :: cs }) (hne : c.userData ≠ 0)
    (ht : c.userData ≠ TIMEOUT) {i : ℕ} (hf : q.findSeq c.userData = some i) : IsOwn q c i := by
  obtain ⟨hlt, hlive, hseq⟩ := findSeq_spec hf
  have hl : q.Live i := ⟨hlt, hlive⟩
  have hz : q.seqs i ≠ 0 := hseq ▸ hne
  have hpoll := Sqe.isPoll_of_userData hseq.symm hz (hseq ▸ ht)
  obtain ⟨-, hmem⟩ := hi.armed i hl hz
  refine ⟨hl, hz, interestsToPoll (q.ints i), ?_⟩
  rcases List.mem_cons.mp ((perm_outstanding_cons q c cs).mem_iff.mp hmem) with heq | hmem
  · exact heq.symm
  · have hno := isPoll_rest hi hl hz hpoll hmem
    simp [slotPoll, Sqe.isPoll] at hno

/-- What a completion that is resolved to a slot does. -/
theorem drainCqe_of_findSeq (ht : c.userData ≠ TIMEOUT) (hw : c.userData ≠ WAKE) {i : ℕ}
    (hf : q.findSeq c.userData = some i) :
    drainCqe cap (q, events) c =
      if c.res < 0 then (q.clear i, events)
      else
        ({ q with seqs := Function.update q.seqs i 0 },
          if events.length < cap then events ++ [⟨q.toks i, q.fds i, pollFlags c.res⟩]
          else events) := by
  unfold drainCqe
  simp only [ht, hw, if_false, hf]

theorem drainCqe_of_findSeq_none (ht : c.userData ≠ TIMEOUT) (hw : c.userData ≠ WAKE)
    (hf : q.findSeq c.userData = none) : drainCqe cap (q, events) c = (q, events) := by
  unfold drainCqe
  simp only [ht, hw, if_false, hf]

/-- A completion without effects on the table has its own effects only. -/
theorem ownOnly_of_same {q' : Uring} (hcap : q'.cap = q.cap) (hfds : q'.fds = q.fds)
    (hseqs : q'.seqs = q.seqs) : OwnOnly (q, events) (q', events) c where
  emits := Or.inl rfl
  retires i hl hn := absurd (by simpa [Live, hcap, hfds] using hl) hn
  unarms i _ hz hz' := absurd (hseqs ▸ hz') hz

/-- A completion that is resolved to its own slot has its own effects only. -/
theorem ownOnly_of_isOwn (ht : c.userData ≠ TIMEOUT) (hw : c.userData ≠ WAKE) {i : ℕ}
    (hf : q.findSeq c.userData = some i) (hown : IsOwn q c i) :
    OwnOnly (q, events) (drainCqe cap (q, events) c) c := by
  rw [drainCqe_of_findSeq ht hw hf]
  split
  · refine ⟨Or.inl rfl, fun j hl hn => ?_, fun j hl hz hz' => absurd hz' hz⟩
    by_cases hji : j = i
    · exact hji ▸ hown
    · exact absurd (by simpa [Live, Uring.clear, hji] using hl) hn
  · refine ⟨?_, fun j hl hn => absurd hl hn, fun j hl hz hz' => ?_⟩
    · simp only
      split
      · exact Or.inr ⟨i, hown, rfl⟩
      · exact Or.inl rfl
    · by_cases hji : j = i
      · exact hji ▸ hown
      · exact absurd (by simpa [hji] using hz') hz

/-- A completion that is no removal has its own effects only. -/
theorem ownOnly_of_userData_ne_zero (hi : ArmInv { q with cq := c :: cs })
    (hne : c.userData ≠ 0) : OwnOnly (q, events) (drainCqe cap (q, events) c) c := by
  by_cases ht : c.userData = TIMEOUT
  · have h : drainCqe cap (q, events) c = ({ q with timeoutArmed := false }, events) := by
      unfold drainCqe
      simp only [ht, if_true]
    rw [h]
    exact ownOnly_of_same rfl rfl rfl
  · by_cases hw : c.userData = WAKE
    · have hwt : WAKE ≠ TIMEOUT := by decide
      have h : drainCqe cap (q, events) c = ({ q with wakeArmed := false }, events) := by
        unfold drainCqe
        simp only [hw, hwt, if_false, if_true]
      rw [h]
      exact ownOnly_of_same rfl rfl rfl
    · cases hf : q.findSeq c.userData with
      | none =>
        rw [drainCqe_of_findSeq_none ht hw hf]
        exact ownOnly_of_same rfl rfl rfl
      | some i => exact ownOnly_of_isOwn ht hw hf (isOwn_of_findSeq hi hne ht hf)

/-- A removal has no effects exactly when no slot waits for its re-arm, or when it succeeded and
the output is full. -/
theorem ownOnly_control_iff (hz : c.userData = 0) (hop : ∀ fd mask ud, c.op = .pollAdd fd mask ud →
    ud ≠ 0) :
    OwnOnly (q, events) (drainCqe cap (q, events) c) c ↔
      q.findSeq 0 = none ∨ 0 ≤ c.res ∧ cap ≤ events.length := by
  have ht : c.userData ≠ TIMEOUT := hz ▸ by decide
  have hw : c.userData ≠ WAKE := hz ▸ by decide
  -- a removal is never the poll of a slot
  have hnot (i : ℕ) : ¬ IsOwn q c i := by
    rintro ⟨-, hseq, mask, hc⟩
    exact hop _ _ _ hc (by simpa [Cqe.userData, hc, Sqe.userData] using hz)
  cases hf : q.findSeq 0 with
  | none =>
    rw [drainCqe_of_findSeq_none ht hw (hz ▸ hf)]
    simpa using ownOnly_of_same rfl rfl rfl
  | some i =>
    obtain ⟨hlt, hlive, -⟩ := findSeq_spec hf
    rw [drainCqe_of_findSeq ht hw (hz ▸ hf)]
    by_cases hres : c.res < 0
    · have hretired : ¬ (q.clear i).Live i := by simp [Live, Uring.clear]
      simp only [if_pos hres, reduceCtorEq, false_or]
      refine ⟨fun h => absurd (h.retires i ⟨hlt, hlive⟩ hretired) (hnot i), fun h => ?_⟩
      omega
    · simp only [if_neg hres, reduceCtorEq, false_or]
      by_cases hfull : cap ≤ events.length
      · have hsame : Function.update q.seqs i 0 = q.seqs := by
          rw [← (findSeq_spec hf).2.2, Function.update_eq_self]
        simp only [if_neg (Nat.not_lt.mpr hfull), Int.not_lt.mp hres, hfull, and_self, iff_true]
        exact ownOnly_of_same rfl rfl hsame
      · simp only [if_pos (Nat.not_le.mp hfull), hfull, and_false, iff_false]
        intro h
        rcases h.emits with heq | ⟨j, hown, -⟩
        · simp at heq
        · exact hnot j hown

end One

/-! ### Whole batches -/

section Batch

variable {r q : Uring} {c : Cqe} {cs : List Cqe} {events : List PollEvent} {cap k : ℕ}

theorem findSeq_isSome_iff {ud : ℕ} :
    (q.findSeq ud).isSome = true ↔ ∃ i, q.Live i ∧ q.seqs i = ud := by
  constructor
  · intro h
    obtain ⟨i, hi⟩ := Option.isSome_iff_exists.mp h
    obtain ⟨hlt, hlive, hseq⟩ := findSeq_spec hi
    exact ⟨i, ⟨hlt, hlive⟩, hseq⟩
  · rintro ⟨i, hl, hseq⟩
    by_contra hno
    rw [Option.not_isSome_iff_eq_none] at hno
    exact ne_of_findSeq_eq_none hno hl hseq

/-- Where a drain stands: the completions `cs` are left of the batch that began in `r`, `k` polls
have fired, and the removals had no effects. -/
structure Progress (r q : Uring) (cap : ℕ) (cs : List Cqe) (events : List PollEvent) (k : ℕ) :
    Prop where
  inv : ArmInv { q with cq := cs }
  start : r.findSeq 0 = none
  tracks : ∀ c ∈ cs, c.userData ≠ 0 →
    ((q.findSeq c.userData).isSome = true ↔ (r.findSeq c.userData).isSome = true)
  waiting : (q.findSeq 0).isSome = true ↔ k ≠ 0
  filled : events.length = min k cap

theorem Progress.fires_iff (hp : Progress r q cap (c :: cs) events k) (hne : c.userData ≠ 0) :
    r.fires c = true ↔ 0 ≤ c.res ∧ (q.findSeq c.userData).isSome = true := by
  rw [hp.tracks c List.mem_cons_self hne]
  simp [Uring.fires]

/-- No other completion of the batch has the number of an own one. -/
theorem userData_ne_of_isOwn (hi : ArmInv { q with cq := c :: cs }) {i : ℕ} (hown : IsOwn q c i)
    {c' : Cqe} (hc' : c' ∈ cs) : c'.userData ≠ c.userData := by
  obtain ⟨hl, hz, mask, hop⟩ := hown
  have hud : c.userData = q.seqs i := by simp [Cqe.userData, hop, Sqe.userData]
  have htime : q.seqs i ≠ TIMEOUT := by
    have hlt := (hi.range i hl hz).2
    have hb := hi.bound
    have htb : SEQ_BOUND < TIMEOUT := by decide
    simp only at hlt hb
    omega
  intro he
  have hmem : c'.op ∈ outstanding { q with cq := cs } :=
    List.mem_append_right _ (List.mem_map_of_mem hc')
  have hno := isPoll_rest hi hl hz (Sqe.isPoll_of_userData hud hz htime) hmem
  rw [Sqe.isPoll_of_userData (he.trans hud) hz htime] at hno
  cases hno

/-- Two tables that agree on the slots with the number `ud`. -/
theorem findSeq_isSome_congr {q' : Uring} {ud : ℕ}
    (h : ∀ i, q'.Live i ∧ q'.seqs i = ud ↔ q.Live i ∧ q.seqs i = ud) :
    (q'.findSeq ud).isSome = true ↔ (q.findSeq ud).isSome = true := by
  rw [findSeq_isSome_iff, findSeq_isSome_iff]
  exact exists_congr h

/-- A poll that failed: its slot is emptied. -/
theorem clear_findSeq {i ud : ℕ} (hi : q.seqs i ≠ ud) :
    ((q.clear i).findSeq ud).isSome = true ↔ (q.findSeq ud).isSome = true := by
  refine findSeq_isSome_congr fun j => ?_
  by_cases hj : j = i
  · subst hj
    simp [Live, Uring.clear, hi]
  · simp [Live, Uring.clear, hj]

/-- A poll that fired: its slot waits for the re-arm. -/
theorem disarm_findSeq {i ud : ℕ} (hi : q.seqs i ≠ ud) (hz : ud ≠ 0) :
    (findSeq { q with seqs := Function.update q.seqs i 0 } ud).isSome = true ↔
      (q.findSeq ud).isSome = true := by
  refine findSeq_isSome_congr fun j => ?_
  by_cases hj : j = i
  · subst hj
    simp [hi, Ne.symm hz]
  · simp [Live, hj]

/-- A completion that is resolved to no slot leaves the table. -/
theorem findSeq_drainCqe_of_none (hf : q.findSeq c.userData = none) :
    (drainCqe cap (q, events) c).1.findSeq = q.findSeq ∧
      (drainCqe cap (q, events) c).2 = events := by
  unfold drainCqe
  simp only
  split
  · exact ⟨rfl, rfl⟩
  split
  · exact ⟨rfl, rfl⟩
  rw [hf]
  exact ⟨rfl, rfl⟩

/-- The sentinels are the number of no slot. -/
theorem findSeq_sentinel (hi : ArmInv { q with cq := cs }) (ud : ℕ) (hud : SEQ_BOUND < ud) :
    q.findSeq ud = none := by
  rw [← Option.not_isSome_iff_eq_none, findSeq_isSome_iff]
  rintro ⟨i, hl, rfl⟩
  have hz : q.seqs i ≠ 0 := by omega
  have hlt := (hi.range i hl hz).2
  have hb := hi.bound
  simp only at hlt hb
  omega

/-- One completion that is no removal. -/
theorem Progress.step (hp : Progress r q cap (c :: cs) events k) (hne : c.userData ≠ 0) :
    Progress r (drainCqe cap (q, events) c).1 cap cs (drainCqe cap (q, events) c).2
      (if r.fires c then k + 1 else k) := by
  have hinv := hp.inv.drainCqe cap events
  have htracks (c' : Cqe) (hc' : c' ∈ cs) := hp.tracks c' (List.mem_cons_of_mem c hc')
  cases hf : q.findSeq c.userData with
  | none =>
    have hfires : ¬ r.fires c = true := by simp [hp.fires_iff hne, hf]
    obtain ⟨hsame, hev⟩ := findSeq_drainCqe_of_none hf
    rw [if_neg hfires]
    refine ⟨hinv, hp.start, fun c' hc' => ?_, ?_, ?_⟩
    · rw [hsame]
      exact htracks c' hc'
    · rw [hsame]
      exact hp.waiting
    · rw [hev]
      exact hp.filled
  | some i =>
    have ht : c.userData ≠ TIMEOUT := fun h => by
      simp [h, findSeq_sentinel hp.inv TIMEOUT (by decide)] at hf
    have hw : c.userData ≠ WAKE := fun h => by
      simp [h, findSeq_sentinel hp.inv WAKE (by decide)] at hf
    have hseq := (findSeq_spec hf).2.2
    have hother (c' : Cqe) (hc' : c' ∈ cs) : q.seqs i ≠ c'.userData := fun h =>
      userData_ne_of_isOwn hp.inv (isOwn_of_findSeq hp.inv hne ht hf) hc' (h.symm.trans hseq)
    rw [drainCqe_of_findSeq ht hw hf] at hinv ⊢
    by_cases hres : c.res < 0
    · have hfires : ¬ r.fires c = true := fun h => by
        have := ((hp.fires_iff hne).mp h).1
        omega
      rw [if_neg hfires]
      simp only [if_pos hres] at hinv ⊢
      refine ⟨hinv, hp.start, fun c' hc' hz => ?_, ?_, hp.filled⟩
      · rw [clear_findSeq (hother c' hc')]
        exact htracks c' hc' hz
      · rw [clear_findSeq (hseq ▸ hne)]
        exact hp.waiting
    · have hfires : r.fires c = true := (hp.fires_iff hne).mpr ⟨Int.not_lt.mp hres, by simp [hf]⟩
      rw [if_pos hfires]
      simp only [if_neg hres] at hinv ⊢
      refine ⟨hinv, hp.start, fun c' hc' hz => ?_, ?_, ?_⟩
      · rw [disarm_findSeq (hother c' hc') hz]
        exact htracks c' hc' hz
      · have hl := (findSeq_spec hf)
        refine ⟨fun _ => Nat.succ_ne_zero k, fun _ => ?_⟩
        exact findSeq_isSome_iff.mpr ⟨i, ⟨hl.1, hl.2.1⟩, by simp⟩
      · have hfilled := hp.filled
        split
        · rw [List.length_append, List.length_singleton]
          omega
        · omega

/-- A removal without effects. -/
theorem Progress.control (hp : Progress r q cap (c :: cs) events k) (hz : c.userData = 0)
    (hh : k = 0 ∨ 0 ≤ c.res ∧ cap ≤ k) :
    drainCqe cap (q, events) c = (q, events) ∧ r.fires c = false ∧
      Progress r q cap cs events k := by
  have ht : c.userData ≠ TIMEOUT := hz ▸ by decide
  have hw : c.userData ≠ WAKE := hz ▸ by decide
  have hfires : r.fires c = false := by simp [Uring.fires, hz, hp.start]
  have hsame : drainCqe cap (q, events) c = (q, events) := by
    cases hf : q.findSeq 0 with
    | none => exact drainCqe_of_findSeq_none ht hw (hz ▸ hf)
    | some i =>
      have hk : k ≠ 0 := hp.waiting.mp (by simp [hf])
      obtain ⟨hres, hcap⟩ := hh.resolve_left hk
      have hfull : ¬ events.length < cap := by
        rw [hp.filled]
        omega
      have hupd : Function.update q.seqs i 0 = q.seqs := by
        rw [← (findSeq_spec hf).2.2, Function.update_eq_self]
      rw [drainCqe_of_findSeq ht hw (hz ▸ hf), if_neg (Int.not_lt.mpr hres), if_neg hfull, hupd]
  have hinv := hp.inv.drainCqe cap events
  rw [hsame] at hinv
  exact ⟨hsame, hfires, hinv, hp.start, fun c' hc' => hp.tracks c' (List.mem_cons_of_mem c hc'),
    hp.waiting, hp.filled⟩

/-- A batch is drained as it should exactly when its removals are harmless. -/
theorem Progress.drainOwn_iff (hp : Progress r q cap cs events k) :
    DrainOwn cap cs (q, events) ↔ ControlsHarmless r cap cs k := by
  induction cs generalizing q events k with
  | nil => exact Iff.rfl
  | cons c cs ih =>
    simp only [DrainOwn, ControlsHarmless]
    by_cases hz : c.userData = 0
    · have hop (fd : Fd) (mask : Mask) (ud : ℕ) (hc : c.op = .pollAdd fd mask ud) : ud ≠ 0 := by
        have hmem : c.op ∈ outstanding { q with cq := c :: cs } :=
          (perm_outstanding_cons q c cs).mem_iff.mpr List.mem_cons_self
        rcases hp.inv.drawn fd mask ud (hc ▸ hmem) with rfl | ⟨hfirst, -⟩
        · decide
        · have hpos : 0 < FIRST_SEQ := by decide
          omega
      have hhead : OwnOnly (q, events) (drainCqe cap (q, events) c) c ↔
          k = 0 ∨ 0 ≤ c.res ∧ cap ≤ k := by
        have hnone : q.findSeq 0 = none ↔ k = 0 := by
          rw [← Option.not_isSome_iff_eq_none, hp.waiting, not_not]
        have hfilled : cap ≤ events.length ↔ cap ≤ k := by
          rw [hp.filled]
          omega
        rw [ownOnly_control_iff hz hop, hnone, hfilled]
      rw [hhead]
      simp only [hz, true_implies]
      refine and_congr_right fun hh => ?_
      obtain ⟨hsame, hfires, hp'⟩ := hp.control hz hh
      rw [hsame, hfires]
      exact ih hp'
    · have hown : OwnOnly (q, events) (drainCqe cap (q, events) c) c :=
        ownOnly_of_userData_ne_zero hp.inv hz
      simp only [hown, hz, true_and, false_implies]
      exact ih (hp.step hz)

end Batch

/-- At every drain of every run of a poller that drew fewer than `2^63` numbers, each completion of
the batch emits, retires and un-arms only for its own armed poll exactly when the removals of the
batch are harmless. -/
theorem drain_own_iff_controls_harmless {r r₁ r₂ : Uring} {bounded : Bool} {e : Enter} (hr : Run r)
    (hw : r.waitSubmit bounded e = (none, r₁)) (hp : Posted r₁ r₂) (hb : r₂.nextSeq < SEQ_BOUND)
    (cap : ℕ) :
    DrainOwn cap r₂.cq ({ r₂ with cq := [] }, []) ↔ ControlsHarmless r₂ cap r₂.cq 0 := by
  have hg := grows_posted hp
  have hb₁ : r₁.nextSeq < SEQ_BOUND := hg.nextSeq ▸ hb
  have hle : r.nextSeq ≤ r₁.nextSeq := by
    have hle := nextSeq_le_waitSubmit r bounded e
    rwa [hw] at hle
  have hi := armInv_run hr (hle.trans hb₁.le)
  have hi₁ : ArmInv r₁ := by
    have hi₁ := hi.waitSubmit bounded e
    rw [hw] at hi₁
    exact hi₁ hb₁.le
  have hi₂ := hi₁.grows hg
  -- the re-arm pass left no live slot un-armed
  have hnone : r₂.findSeq 0 = none := by
    rw [← Option.not_isSome_iff_eq_none, findSeq_isSome_iff]
    rintro ⟨i, hl, hz⟩
    have hne := hi.seqs_ne_zero_of_waitSubmit hw hb₁.le i ((hg.live_iff i).mp hl)
    exact hne (hg.seqs ▸ hz)
  have hstart : Progress r₂ { r₂ with cq := [] } cap r₂.cq [] 0 := by
    refine ⟨hi₂, hnone, fun c _ _ => Iff.rfl, ?_, by simp⟩
    have hnone' : Uring.findSeq { r₂ with cq := [] } 0 = none := hnone
    simp [hnone']
  exact hstart.drainOwn_iff

/-- Descriptors `3` and `5`, and a change of the interests of `5`, all consumed by the kernel. -/
def busyRing : Uring :=
  let r := (freshRing.register ⟨0, none⟩ ⟨1, none⟩ 3 READABLE 7).2
  let r := (r.register ⟨0, none⟩ ⟨1, none⟩ 5 READABLE 8).2
  (r.modify ⟨0, none⟩ ⟨2, none⟩ 5 WRITABLE 8).2

theorem run_busyRing : Run busyRing :=
  (((Run.start start_freshRing).step (.register _ _ 3 READABLE 7)).step
    (.register _ _ 5 READABLE 8)).step (.modify _ _ 5 WRITABLE 8)

/-- The removal of the old poll of `5` completes, and then the poll of `3` fires: the removal is
harmless. -/
theorem drain_own_iff_controls_harmless_removed_first :
    ∃ r₂, Posted (busyRing.waitSubmit false ⟨0, none⟩).2 r₂ ∧
      r₂.cq = [⟨.pollRemove 0x1001, 0⟩, ⟨.pollAdd 3 0x19 0x1000, 1⟩] ∧
      DrainOwn 8 r₂.cq ({ r₂ with cq := [] }, []) := by
  have h₁ := Posted.post [.pollAdd 100 0x1 WAKE, .pollAdd 3 0x19 0x1000, .pollAdd 5 0x19 0x1001]
    [.pollAdd 5 0x1c 0x1002] (.pollRemove 0x1001) 0
    (Posted.refl (r := (busyRing.waitSubmit false ⟨0, none⟩).2)) (by decide +kernel)
  have h₂ := h₁.post [.pollAdd 100 0x1 WAKE] [.pollAdd 5 0x19 0x1001, .pollAdd 5 0x1c 0x1002]
    (.pollAdd 3 0x19 0x1000) 1 rfl
  have hw : busyRing.waitSubmit false ⟨0, none⟩ =
      (none, (busyRing.waitSubmit false ⟨0, none⟩).2) := Prod.ext (by decide +kernel) rfl
  refine ⟨_, h₂, by decide +kernel, ?_⟩
  refine (drain_own_iff_controls_harmless run_busyRing hw h₂ (by decide +kernel) 8).mpr ?_
  exact ⟨fun _ => Or.inl rfl, fun h => absurd h (by decide), trivial⟩

/-- The poll of `3` fires, and then the removal of the old poll of `5` completes: the drain emits a
second event for `3`. -/
theorem drain_own_fails :
    ¬ ∀ (r r₁ r₂ : Uring) (bounded : Bool) (e : Enter) (cap : ℕ), Run r →
      r.waitSubmit bounded e = (none, r₁) → Posted r₁ r₂ → r₂.nextSeq < SEQ_BOUND →
      DrainOwn cap r₂.cq ({ r₂ with cq := [] }, []) := by
  have h₁ := Posted.post [.pollAdd 100 0x1 WAKE]
    [.pollAdd 5 0x19 0x1001, .pollRemove 0x1001, .pollAdd 5 0x1c 0x1002]
    (.pollAdd 3 0x19 0x1000) 1
    (Posted.refl (r := (busyRing.waitSubmit false ⟨0, none⟩).2)) (by decide +kernel)
  have h₂ := h₁.post [.pollAdd 100 0x1 WAKE, .pollAdd 5 0x19 0x1001] [.pollAdd 5 0x1c 0x1002]
    (.pollRemove 0x1001) 0 rfl
  have hw : busyRing.waitSubmit false ⟨0, none⟩ =
      (none, (busyRing.waitSubmit false ⟨0, none⟩).2) := Prod.ext (by decide +kernel) rfl
  intro h
  obtain ⟨-, hsecond, -⟩ := h _ _ _ _ _ 8 run_busyRing hw h₂ (by decide +kernel)
  rcases hsecond.emits with hsame | ⟨i, ⟨-, -, mask, hop⟩, -⟩
  · revert hsame
    decide +kernel
  · cases hop

end MojitoSys.Io.IoUring
