import MojitoSys.Io.Capacity
import MojitoSys.Io.UringDrain
import Mathlib.Logic.Relation

/-!
# Room in the submission queue

`mjs_iouring_wait` stages a poll for every registration that fired, the wake poll if it fired, the
removal of a stale timeout and a fresh timeout, and submits after the last of them. The ring has as
many entries as the table has slots, so a wait may need more entries than there are. The control
operations flush a full ring before they give up; the wait does not, and its staged entries stay.

## Main definitions

* `Uring.demand`: the entries that a wait stages.
* `Uring.waitStage`: `mjs_iouring_wait` up to its submission.
* `FullRun`: the runs on a kernel that consumes every entry of a successful `ioring_enter`.
* `Stuck`: no call can submit anything.

## Main results

* `rearm_of_room`, `rearm_of_full`: the re-arm pass fits exactly when the ring has room for it.
* `wait_eagain_iff`: a wait fails for lack of room exactly when the staged entries and its demand
  exceed the ring.
* `Stuck.step`: a stuck poller stays so.
* `wait_eagain_stuck`: all registrations and the wake poll of a full table fire at once.
-/

namespace MojitoSys.Io.IoUring

open Uring

namespace Uring

/-- The slots that the re-arm pass re-arms. -/
def fired (r : Uring) : Finset ℕ := (Finset.range r.cap).filter fun i => 0 ≤ r.fds i ∧ r.seqs i = 0

/-- The entries that `mjs_iouring_wait` stages. -/
def demand (r : Uring) (bounded : Bool) : ℕ :=
  r.fired.card + (if r.wakeArmed then 0 else 1) +
    if bounded then (if r.timeoutArmed then 2 else 1) else 0

/-- `mjs_iouring_wait` up to its submission. -/
def waitStage (r : Uring) (bounded : Bool) : Status × Uring :=
  match rearm (List.range r.cap) r with
  | (some err, r) => (some err, r)
  | (none, r) =>
    match r.armWake with
    | (some err, r) => (some err, r)
    | (none, r) => r.armTimeout bounded

/-- The ring holds what was handed out. -/
def Fits (r : Uring) : Prop := r.staged.length ≤ r.sqEntries

variable {r r' : Uring}

theorem waitSubmit_eq (r : Uring) (bounded : Bool) (e : Enter) :
    r.waitSubmit bounded e =
      match r.waitStage bounded with
      | (some err, r) => (some err, r)
      | (none, r) => r.submit e 1 := by
  unfold waitSubmit waitStage
  rcases rearm (List.range r.cap) r with ⟨_ | err, r₁⟩
  · simp only
    rcases r₁.armWake with ⟨_ | err, r₂⟩ <;> rfl
  · rfl

/-! ### The room of the ring -/

theorem Fits.stage {op : Sqe} (h : r.stage op = some r') : Fits r' := by
  obtain ⟨hlt, rfl⟩ := stage_eq_some.mp h
  simpa [Fits] using Nat.succ_le_of_lt hlt

theorem Fits.enter (h : Fits r) (e : Enter) : Fits (r.enter e) := by
  have hle : r.staged.length - e.consumed ≤ r.sqEntries := (Nat.sub_le _ _).trans h
  simpa [Fits, Uring.enter] using hle

theorem closed_fits : Closed Fits where
  stage _ hs _ := Fits.stage hs
  enter e h := h.enter e
  wake _ h := h
  timeout _ h := h

theorem Fits.submitPollAdd (h : Fits r) (e₁ e₂ : Enter) (op : Sqe) :
    Fits (r.submitPollAdd e₁ e₂ op).2 := by
  unfold Uring.submitPollAdd
  cases h₁ : r.stage op with
  | some r₁ => exact closed_fits.submit e₂ 0 (Fits.stage h₁)
  | none =>
    have hflush := closed_fits.submit e₁ 0 h
    simp only
    rcases h₂ : r.submit e₁ 0 with ⟨_ | err, r₂⟩
    · rw [h₂] at hflush
      simp only
      cases h₃ : r₂.stage op with
      | none => exact hflush
      | some r₃ => exact closed_fits.submit e₂ 0 (Fits.stage h₃)
    · rwa [h₂] at hflush

theorem Fits.registerUpsert (h : Fits r) (e : Enter) (slot : ℕ) (fd : Fd) (interests : Mask)
    (token : Token) (seq : ℕ) : Fits (r.registerUpsert e slot fd interests token seq).2 := by
  unfold Uring.registerUpsert
  cases h₁ : r.stage (.pollRemove (r.seqs slot)) with
  | none => exact h
  | some r₁ =>
    simp only
    cases h₂ : r₁.stage (.pollAdd fd (interestsToPoll interests) seq) with
    | none => exact Fits.stage h₁
    | some r₂ =>
      have hsub := closed_fits.submit e 0 (Fits.stage h₂)
      simp only
      rcases h₃ : r₂.submit e 0 with ⟨_ | err, r₃⟩ <;> rwa [h₃] at hsub

theorem Fits.register (h : Fits r) (e₁ e₂ : Enter) (fd : Fd) (interests : Mask) (token : Token) :
    Fits (r.register e₁ e₂ fd interests token).2 := by
  have hdraw : Fits r.draw := h
  unfold Uring.register
  cases checkInterests interests with
  | some err => exact h
  | none =>
    simp only
    split_ifs
    · exact h
    · exact h
    · exact hdraw.registerUpsert e₂ _ fd interests token _
    · have hadd := hdraw.submitPollAdd e₁ e₂
        (.pollAdd fd (interestsToPoll interests) r.uringNextSeq)
      unfold Uring.registerNew
      rcases hs : r.draw.submitPollAdd e₁ e₂
        (.pollAdd fd (interestsToPoll interests) r.uringNextSeq) with ⟨_ | err, q⟩ <;>
        rwa [hs] at hadd

theorem Fits.unregister (h : Fits r) (e : Enter) (fd : Fd) : Fits (r.unregister e fd).2 := by
  unfold Uring.unregister
  split
  · exact h
  · simp only
    split
    · exact h
    · cases h₁ : r.stage (.pollRemove (r.seqs (r.uringSlot fd))) with
      | none => exact h
      | some r₁ =>
        have hsub := closed_fits.submit e 0 (Fits.stage h₁)
        simp only
        rcases h₂ : r₁.submit e 0 with ⟨_ | err, r₂⟩ <;> rwa [h₂] at hsub

theorem Fits.rearm (is : List ℕ) (h : Fits r) : Fits (rearm is r).2 := by
  induction is generalizing r with
  | nil => exact h
  | cons i is ih =>
    unfold Uring.rearm
    split_ifs
    · simp only
      cases hs : r.draw.stage (.pollAdd (r.fds i) (interestsToPoll (r.ints i)) r.uringNextSeq) with
      | none => exact h
      | some r₁ =>
        have h₁ : Fits r₁ := Fits.stage hs
        exact ih h₁
    · exact ih h

theorem Fits.waitSubmit (h : Fits r) (bounded : Bool) (e : Enter) :
    Fits (r.waitSubmit bounded e).2 :=
  closed_fits.waitSubmit bounded e (h.rearm _)

theorem drainCqe_staged (cap : ℕ) (r : Uring) (events : List PollEvent) (c : Cqe) :
    (drainCqe cap (r, events) c).1.staged = r.staged ∧
      (drainCqe cap (r, events) c).1.sqEntries = r.sqEntries := by
  unfold drainCqe
  simp only
  split
  · exact ⟨rfl, rfl⟩
  split
  · exact ⟨rfl, rfl⟩
  cases r.findSeq c.userData with
  | none => exact ⟨rfl, rfl⟩
  | some i =>
    simp only
    split <;> exact ⟨rfl, rfl⟩

theorem Fits.drainCq (h : Fits r) (cap : ℕ) : Fits (r.drainCq cap).1 := by
  suffices hfold : ∀ (cs : List Cqe) (q : Uring) (events : List PollEvent), Fits q →
      Fits (cs.foldl (Uring.drainCqe cap) (q, events)).1 from hfold _ _ _ h
  intro cs
  induction cs with
  | nil => exact fun _ _ hq => hq
  | cons c cs ih =>
    intro q events hq
    obtain ⟨hstaged, hsize⟩ := drainCqe_staged cap q events c
    have hc : Fits (Uring.drainCqe cap (q, events) c).1 := by
      rw [Fits, hstaged, hsize]
      exact hq
    exact ih _ _ hc

theorem Fits.posted (h : Fits r) (hp : Posted r r') : Fits r' := by
  rw [hp.eq]
  exact h

theorem Fits.step (h : Fits r) (hs : Step r r') : Fits r' := by
  cases hs with
  | register e₁ e₂ fd interests token => exact h.register e₁ e₂ fd interests token
  | modify e₁ e₂ fd interests token =>
    unfold Uring.modify
    split
    · exact h
    · exact h.register e₁ e₂ fd interests token
  | unregister e fd => exact h.unregister e fd
  | @waitFail bounded e err _ hw =>
    have hsub := h.waitSubmit bounded e
    rwa [hw] at hsub
  | @wait bounded e r₁ r₂ cap hw hp =>
    have hsub := h.waitSubmit bounded e
    rw [hw] at hsub
    exact (hsub.posted hp).drainCq cap
  | post hp => exact h.posted hp

theorem fits_start (h : Start r) : Fits r := by
  obtain ⟨k, hk⟩ := h.sqEntries
  have hpos : 0 < 2 ^ k := Nat.two_pow_pos k
  have hlen := congrArg List.length h.outstanding
  simp only [List.length_append, List.length_singleton] at hlen
  rw [Fits]
  omega

theorem fits_run (hr : Run r) : Fits r := by
  induction hr with
  | start h => exact fits_start h
  | step _ hs ih => exact ih.step hs

/-! ### What a wait stages -/

/-- The slots of a list that the re-arm pass re-arms. -/
def firedIn (r : Uring) (is : List ℕ) : ℕ := is.countP fun i => 0 ≤ r.fds i ∧ r.seqs i = 0

/-- Two pollers with the same ring and the same flags. -/
structure SameRing (r r' : Uring) : Prop where
  sqEntries : r'.sqEntries = r.sqEntries
  wakeArmed : r'.wakeArmed = r.wakeArmed
  timeoutArmed : r'.timeoutArmed = r.timeoutArmed

theorem firedIn_update {is : List ℕ} {i : ℕ} (hi : i ∉ is) (r : Uring) (seq : ℕ) :
    firedIn { r with seqs := Function.update r.seqs i seq } is = firedIn r is := by
  refine List.countP_congr fun j hj => ?_
  have hji : j ≠ i := fun h => hi (h ▸ hj)
  simp [hji]

/-- The state after the re-arm of one slot. -/
def rearmed (r : Uring) (i : ℕ) : Uring :=
  { r.draw with
    staged := r.staged ++ [.pollAdd (r.fds i) (interestsToPoll (r.ints i)) r.uringNextSeq]
    seqs := Function.update r.seqs i r.uringNextSeq }

theorem rearm_cons_of_fired {i : ℕ} {is : List ℕ} (hf : 0 ≤ r.fds i ∧ r.seqs i = 0)
    (hroom : r.staged.length < r.sqEntries) : rearm (i :: is) r = rearm is (r.rearmed i) := by
  have hst : r.draw.stage (.pollAdd (r.fds i) (interestsToPoll (r.ints i)) r.uringNextSeq) =
      some { r.draw with staged := r.staged ++
        [.pollAdd (r.fds i) (interestsToPoll (r.ints i)) r.uringNextSeq] } :=
    stage_of_room _ hroom
  rw [rearm, if_pos hf]
  simp only [hst]
  rfl

theorem rearm_cons_of_full {i : ℕ} {is : List ℕ} (hf : 0 ≤ r.fds i ∧ r.seqs i = 0)
    (hfull : ¬ r.staged.length < r.sqEntries) : rearm (i :: is) r = (some .EAGAIN, r.draw) := by
  have hst : r.draw.stage (.pollAdd (r.fds i) (interestsToPoll (r.ints i)) r.uringNextSeq) =
      none := stage_of_full _ (Nat.le_of_not_lt hfull)
  rw [rearm, if_pos hf]
  simp only [hst]

theorem firedIn_cons_of_fired {i : ℕ} {is : List ℕ} (hf : 0 ≤ r.fds i ∧ r.seqs i = 0)
    (hi : i ∉ is) :
    firedIn r (i :: is) = firedIn (r.rearmed i) is + 1 := by
  have hrest : firedIn (r.rearmed i) is = firedIn r is := firedIn_update hi r r.uringNextSeq
  rw [hrest, firedIn, List.countP_cons_of_pos (by simpa using hf)]
  rfl

theorem firedIn_cons_of_not {i : ℕ} {is : List ℕ} (hf : ¬ (0 ≤ r.fds i ∧ r.seqs i = 0)) :
    firedIn r (i :: is) = firedIn r is := by
  rw [firedIn, List.countP_cons_of_neg (by simpa using hf)]
  rfl

/-- The re-arm pass stages one poll for each slot that fired, when there is room for them. -/
theorem rearm_of_room {is : List ℕ} (hnd : is.Nodup)
    (hroom : r.staged.length + firedIn r is ≤ r.sqEntries) :
    ∃ q, rearm is r = (none, q) ∧ q.staged.length = r.staged.length + firedIn r is ∧
      SameRing r q := by
  induction is generalizing r with
  | nil => exact ⟨r, rfl, rfl, rfl, rfl, rfl⟩
  | cons i is ih =>
    obtain ⟨hi, hnd⟩ := List.nodup_cons.mp hnd
    by_cases hf : 0 ≤ r.fds i ∧ r.seqs i = 0
    · rw [firedIn_cons_of_fired hf hi] at hroom ⊢
      have hlen : (r.rearmed i).staged.length = r.staged.length + 1 := by simp [rearmed]
      have hsize : (r.rearmed i).sqEntries = r.sqEntries := rfl
      rw [rearm_cons_of_fired hf (by omega)]
      obtain ⟨q, hq, hstaged, hsame⟩ := ih (r := r.rearmed i) hnd (by omega)
      refine ⟨q, hq, by omega, hsame.sqEntries, hsame.wakeArmed, hsame.timeoutArmed⟩
    · rw [firedIn_cons_of_not hf] at hroom ⊢
      rw [rearm, if_neg hf]
      exact ih hnd hroom

/-- The re-arm pass fails when it has no room, and leaves a full ring. -/
theorem rearm_of_full {is : List ℕ} (hnd : is.Nodup) (hfits : Fits r)
    (hfull : r.sqEntries < r.staged.length + firedIn r is) :
    ∃ q, rearm is r = (some .EAGAIN, q) ∧ q.staged.length = r.sqEntries ∧ SameRing r q := by
  induction is generalizing r with
  | nil => exact absurd hfull (Nat.not_lt.mpr hfits)
  | cons i is ih =>
    obtain ⟨hi, hnd⟩ := List.nodup_cons.mp hnd
    by_cases hf : 0 ≤ r.fds i ∧ r.seqs i = 0
    · by_cases hlt : r.staged.length < r.sqEntries
      · rw [firedIn_cons_of_fired hf hi] at hfull
        have hlen : (r.rearmed i).staged.length = r.staged.length + 1 := by simp [rearmed]
        have hsize : (r.rearmed i).sqEntries = r.sqEntries := rfl
        have hfits' : Fits (r.rearmed i) := by
          rw [Fits]
          omega
        rw [rearm_cons_of_fired hf hlt]
        obtain ⟨q, hq, hstaged, hsame⟩ := ih (r := r.rearmed i) hnd hfits' (by omega)
        exact ⟨q, hq, hstaged, hsame.sqEntries, hsame.wakeArmed, hsame.timeoutArmed⟩
      · rw [rearm_cons_of_full hf hlt]
        have hfits' : r.staged.length ≤ r.sqEntries := hfits
        have hlen : r.draw.staged.length = r.sqEntries := Nat.le_antisymm hfits' (Nat.not_lt.mp hlt)
        exact ⟨r.draw, rfl, hlen, rfl, rfl, rfl⟩
    · rw [firedIn_cons_of_not hf] at hfull
      rw [rearm, if_neg hf]
      exact ih hnd hfits hfull

theorem firedIn_range (r : Uring) : firedIn r (List.range r.cap) = r.fired.card := by
  simp only [firedIn, fired, Finset.card_def, Finset.filter_val, Finset.range_val, Multiset.range]
  rw [List.countP_eq_length_filter]
  rfl

/-- The entries for the wake poll. -/
def wakeDemand (r : Uring) : ℕ := if r.wakeArmed then 0 else 1

/-- The entries for the timeout. -/
def timeoutDemand (r : Uring) (bounded : Bool) : ℕ :=
  if bounded then (if r.timeoutArmed then 2 else 1) else 0

theorem armWake_of_room (hroom : r.staged.length + r.wakeDemand ≤ r.sqEntries) :
    ∃ q, r.armWake = (none, q) ∧ q.staged.length = r.staged.length + r.wakeDemand ∧
      q.sqEntries = r.sqEntries ∧ q.timeoutArmed = r.timeoutArmed := by
  unfold armWake wakeDemand at *
  cases hw : r.wakeArmed with
  | true => exact ⟨r, by simp, by simp, rfl, rfl⟩
  | false =>
    rw [hw] at hroom
    have hst := stage_of_room (.pollAdd r.wakeFd 0x1 WAKE) (Nat.lt_of_succ_le hroom)
    simp only [Bool.false_eq_true, if_false, hst]
    exact ⟨_, rfl, by simp, rfl, rfl⟩

theorem armWake_of_full (hfits : Fits r) (hfull : r.sqEntries < r.staged.length + r.wakeDemand) :
    r.armWake = (some .EAGAIN, r) ∧ r.staged.length = r.sqEntries := by
  rw [Fits] at hfits
  unfold armWake wakeDemand at *
  cases hw : r.wakeArmed with
  | true =>
    rw [hw] at hfull
    exact absurd hfull (Nat.not_lt.mpr hfits)
  | false =>
    rw [hw] at hfull
    have hlen : r.staged.length = r.sqEntries := Nat.le_antisymm hfits (Nat.le_of_lt_succ hfull)
    have hst := stage_of_full (.pollAdd r.wakeFd 0x1 WAKE) hlen.ge
    simp only [Bool.false_eq_true, if_false, hst]
    exact ⟨trivial, hlen⟩

theorem armTimeout_of_room {bounded : Bool}
    (hroom : r.staged.length + r.timeoutDemand bounded ≤ r.sqEntries) :
    (r.armTimeout bounded).1 = none := by
  unfold armTimeout timeoutDemand at *
  cases bounded with
  | false => rfl
  | true =>
    cases ht : r.timeoutArmed with
    | false =>
      simp only [ht, if_true, Bool.false_eq_true, if_false] at hroom ⊢
      simp only [stage_of_room .timeout (Nat.lt_of_succ_le hroom)]
    | true =>
      simp only [ht, if_true] at hroom ⊢
      have hlt : r.staged.length < r.sqEntries := by omega
      simp only [stage_of_room .timeoutRemove hlt, Option.map_some]
      rw [stage_of_room .timeout (by simp only [List.length_append, List.length_singleton]; omega)]

theorem armTimeout_of_full {bounded : Bool} (hfits : Fits r)
    (hfull : r.sqEntries < r.staged.length + r.timeoutDemand bounded) :
    ∃ q, r.armTimeout bounded = (some .EAGAIN, q) ∧ q.staged.length = r.sqEntries ∧
      q.sqEntries = r.sqEntries := by
  rw [Fits] at hfits
  unfold armTimeout timeoutDemand at *
  cases bounded with
  | false => exact absurd hfull (Nat.not_lt.mpr hfits)
  | true =>
    cases ht : r.timeoutArmed with
    | false =>
      simp only [ht, if_true, Bool.false_eq_true, if_false] at hfull ⊢
      have hge : r.sqEntries ≤ r.staged.length := by omega
      simp only [stage_of_full .timeout hge]
      exact ⟨r, rfl, Nat.le_antisymm hfits hge, rfl⟩
    | true =>
      simp only [ht, if_true] at hfull ⊢
      by_cases hlt : r.staged.length < r.sqEntries
      · -- the removal fits, the timeout does not
        simp only [stage_of_room .timeoutRemove hlt, Option.map_some]
        rw [stage_of_full .timeout
          (by simp only [List.length_append, List.length_singleton]; omega)]
        exact ⟨_, rfl, by simp only [List.length_append, List.length_singleton]; omega, rfl⟩
      · simp only [stage_of_full .timeoutRemove (Nat.le_of_not_lt hlt), Option.map_none]
        exact ⟨r, rfl, by omega, rfl⟩

theorem demand_eq (r : Uring) (bounded : Bool) :
    r.demand bounded = r.fired.card + r.wakeDemand + r.timeoutDemand bounded := rfl

/-- The staging part of a wait succeeds when there is room for its demand. -/
theorem waitStage_of_room {bounded : Bool}
    (hroom : r.staged.length + r.demand bounded ≤ r.sqEntries) :
    (r.waitStage bounded).1 = none := by
  rw [demand_eq, ← firedIn_range] at hroom
  have hnd : (List.range r.cap).Nodup := List.nodup_range
  obtain ⟨q₁, hq₁, hlen₁, hsame⟩ := rearm_of_room (r := r) hnd (by omega)
  have hw : q₁.wakeDemand = r.wakeDemand := by rw [wakeDemand, wakeDemand, hsame.wakeArmed]
  have hs₁ := hsame.sqEntries
  obtain ⟨q₂, hq₂, hlen₂, hs₂, ht₂⟩ := armWake_of_room (r := q₁) (by omega)
  have ht : q₂.timeoutDemand bounded = r.timeoutDemand bounded := by
    rw [timeoutDemand, timeoutDemand, ht₂, hsame.timeoutArmed]
  unfold waitStage
  simp only [hq₁, hq₂]
  exact armTimeout_of_room (by omega)

/-- It fails when there is none, and leaves a full ring. -/
theorem waitStage_of_full {bounded : Bool} (hfits : Fits r)
    (hfull : r.sqEntries < r.staged.length + r.demand bounded) :
    ∃ q, r.waitStage bounded = (some .EAGAIN, q) ∧ q.staged.length = q.sqEntries := by
  rw [demand_eq, ← firedIn_range] at hfull
  unfold waitStage
  by_cases h₁ : r.staged.length + firedIn r (List.range r.cap) ≤ r.sqEntries
  · obtain ⟨q₁, hq₁, hlen₁, hsame⟩ := rearm_of_room (r := r) List.nodup_range h₁
    have hs₁ := hsame.sqEntries
    have hw : q₁.wakeDemand = r.wakeDemand := by rw [wakeDemand, wakeDemand, hsame.wakeArmed]
    have hfits₁ : Fits q₁ := by
      rw [Fits]
      omega
    simp only [hq₁]
    by_cases h₂ : q₁.staged.length + q₁.wakeDemand ≤ q₁.sqEntries
    · obtain ⟨q₂, hq₂, hlen₂, hs₂, ht₂⟩ := armWake_of_room h₂
      have ht : q₂.timeoutDemand bounded = r.timeoutDemand bounded := by
        rw [timeoutDemand, timeoutDemand, ht₂, hsame.timeoutArmed]
      have hfits₂ : Fits q₂ := by
        rw [Fits]
        omega
      have hfull₃ : q₂.sqEntries < q₂.staged.length + q₂.timeoutDemand bounded := by omega
      obtain ⟨q₃, hq₃, hlen₃, hs₃⟩ := armTimeout_of_full hfits₂ hfull₃
      simp only [hq₂, hq₃]
      exact ⟨q₃, rfl, by omega⟩
    · obtain ⟨hq₂, hlen₂⟩ := armWake_of_full hfits₁ (Nat.lt_of_not_le h₂)
      simp only [hq₂]
      exact ⟨q₁, rfl, hlen₂⟩
  · obtain ⟨q₁, hq₁, hlen₁, hsame⟩ :=
      rearm_of_full List.nodup_range hfits (Nat.lt_of_not_le h₁)
    simp only [hq₁]
    exact ⟨q₁, rfl, by rw [hlen₁, hsame.sqEntries]⟩

end Uring

/-- In every reachable state, whatever the kernel consumes: a wait does not fail with `-EAGAIN` of
its own exactly when the staged entries and the entries it stages fit in the ring. -/
theorem wait_eagain_iff {r : Uring} (hr : Run r) (bounded : Bool) {e : Enter}
    (he : e.error ≠ some .EAGAIN) :
    (r.waitSubmit bounded e).1 ≠ some .EAGAIN ↔
      r.staged.length + r.demand bounded ≤ r.sqEntries := by
  constructor
  · intro hok
    by_contra hfull
    obtain ⟨q, hq, -⟩ := waitStage_of_full (fits_run hr) (Nat.lt_of_not_le hfull)
    rw [waitSubmit_eq, hq] at hok
    exact hok rfl
  · intro hroom
    have hst := waitStage_of_room hroom
    rw [waitSubmit_eq]
    rcases hq : r.waitStage bounded with ⟨_ | err, q⟩
    · simp only
      unfold submit
      split
      · simp
      · exact he
    · rw [hq] at hst
      cases hst

/-- With three armed registrations, a timed wait stages its timeout. -/
theorem wait_eagain_iff_three :
    ((filledRing 3).waitSubmit true ⟨1, some .EBADF⟩).1 ≠ some .EAGAIN :=
  (wait_eagain_iff (run_filledRing 3 (by decide)) true (by decide)).mpr (by decide +kernel)

/-! ### A stuck poller -/

/-- The ring and the table are full, and the wake poll fired. -/
structure Stuck (r : Uring) : Prop where
  staged : r.staged.length = r.sqEntries
  count : r.cap ≤ r.count
  wakeArmed : r.wakeArmed = false

section Stuck

variable {r r' : Uring}

/-- With the wake poll to re-arm and no entry left for it, a wait fails, and the poller is stuck if
its table is full. -/
theorem stuck_of_wait (hfits : r.Fits) (hfull : r.sqEntries ≤ r.staged.length + r.fired.card)
    (hcount : r.cap ≤ r.count) (hwake : r.wakeArmed = false) (bounded : Bool) (e : Enter) :
    ∃ q, r.waitSubmit bounded e = (some .EAGAIN, q) ∧ Stuck q := by
  have hnd : (List.range r.cap).Nodup := List.nodup_range
  have htable := sameTable_rearm (List.range r.cap) r
  rw [← firedIn_range] at hfull
  suffices h : ∃ q, r.waitStage bounded = (some .EAGAIN, q) ∧ Stuck q by
    obtain ⟨q, hq, hs⟩ := h
    exact ⟨q, by rw [waitSubmit_eq, hq], hs⟩
  unfold waitStage
  by_cases h₁ : r.staged.length + firedIn r (List.range r.cap) ≤ r.sqEntries
  · obtain ⟨q, hq, hlen, hsame⟩ := rearm_of_room hnd h₁
    rw [hq] at htable
    have hs := hsame.sqEntries
    have hw : q.wakeArmed = false := hsame.wakeArmed.trans hwake
    have hq' : q.Fits := by
      rw [Fits]
      omega
    have hdemand : q.wakeDemand = 1 := by rw [wakeDemand, hw]; rfl
    obtain ⟨ha, hlen'⟩ := armWake_of_full hq' (by omega)
    simp only [hq, ha]
    exact ⟨q, rfl, hlen', by rw [htable.1, htable.2.2]; exact hcount, hw⟩
  · obtain ⟨q, hq, hlen, hsame⟩ := rearm_of_full hnd hfits (Nat.lt_of_not_le h₁)
    rw [hq] at htable
    simp only [hq]
    exact ⟨q, rfl, by rw [hlen, hsame.sqEntries], by rw [htable.1, htable.2.2]; exact hcount,
      hsame.wakeArmed.trans hwake⟩

/-- Every wait of a stuck poller fails and leaves it stuck. -/
theorem Stuck.wait (hs : Stuck r) (bounded : Bool) (e : Enter) :
    ∃ q, r.waitSubmit bounded e = (some .EAGAIN, q) ∧ Stuck q :=
  stuck_of_wait hs.staged.le (hs.staged.ge.trans (Nat.le_add_right _ _)) hs.count hs.wakeArmed
    bounded e

theorem Stuck.register (hs : Stuck r) (e₁ e₂ : Enter) (fd : Fd) (interests : Mask)
    (token : Token) : (r.register e₁ e₂ fd interests token).2 = r := by
  unfold Uring.register
  cases checkInterests interests with
  | some err => rfl
  | none =>
    simp only [if_pos hs.count]
    split <;> rfl

theorem Stuck.unregister (hs : Stuck r) (e : Enter) (fd : Fd) : (r.unregister e fd).2 = r := by
  have hst : r.stage (.pollRemove (r.seqs (r.uringSlot fd))) = none :=
    stage_of_full _ hs.staged.ge
  unfold Uring.unregister
  simp only [hst]
  split_ifs <;> rfl

/-- A stuck poller stays stuck, whatever is called. -/
theorem Stuck.step (hs : Stuck r) (hstep : Step r r') : Stuck r' := by
  cases hstep with
  | register e₁ e₂ fd interests token =>
    rw [hs.register]
    exact hs
  | modify e₁ e₂ fd interests token =>
    unfold Uring.modify
    split
    · exact hs
    · rw [hs.register]
      exact hs
  | unregister e fd =>
    rw [hs.unregister]
    exact hs
  | @waitFail bounded e err _ h =>
    obtain ⟨q, hq, hs'⟩ := hs.wait bounded e
    rw [hq] at h
    cases h
    exact hs'
  | @wait bounded e r₁ r₂ cap h hp =>
    obtain ⟨q, hq, -⟩ := hs.wait bounded e
    rw [hq] at h
    cases h
  | post hp =>
    rw [hp.eq]
    exact ⟨hs.staged, hs.count, hs.wakeArmed⟩

theorem Stuck.steps (hs : Stuck r) (h : Relation.ReflTransGen Step r r') : Stuck r' := by
  induction h with
  | refl => exact hs
  | tail _ hstep ih => exact ih.step hstep

end Stuck

/-! ### A kernel that consumes everything -/

/-- The call consumes every entry of the ring if it succeeds. -/
def Enter.Full (e : Enter) (r : Uring) : Prop := e.error = none → r.sqEntries ≤ e.consumed

/-- A step on a kernel that consumes every entry of a successful `ioring_enter`. -/
inductive FullStep (r : Uring) : Uring → Prop
  | register {e₁ e₂ : Enter} (h₁ : e₁.Full r) (h₂ : e₂.Full r) (fd : Fd) (interests : Mask)
      (token : Token) : FullStep r (r.register e₁ e₂ fd interests token).2
  | modify {e₁ e₂ : Enter} (h₁ : e₁.Full r) (h₂ : e₂.Full r) (fd : Fd) (interests : Mask)
      (token : Token) : FullStep r (r.modify e₁ e₂ fd interests token).2
  | unregister {e : Enter} (he : e.Full r) (fd : Fd) : FullStep r (r.unregister e fd).2
  | waitFail {bounded : Bool} {e : Enter} {err : Errno} {r' : Uring} (he : e.Full r)
      (h : r.waitSubmit bounded e = (some err, r')) : FullStep r r'
  | wait {bounded : Bool} {e : Enter} {r₁ r₂ : Uring} (he : e.Full r) (cap : ℕ)
      (h : r.waitSubmit bounded e = (none, r₁)) (hp : Posted r₁ r₂) :
      FullStep r (r₂.drainCq cap).1
  | post {r' : Uring} (h : Posted r r') : FullStep r r'

/-- The states that a poller reaches on such a kernel. -/
inductive FullRun : Uring → Prop
  | start {r : Uring} (h : Start r) : FullRun r
  | step {r r' : Uring} (hr : FullRun r) (hs : FullStep r r') : FullRun r'

theorem FullStep.step {r r' : Uring} (h : FullStep r r') : Step r r' := by
  cases h with
  | register _ _ fd interests token => exact .register _ _ fd interests token
  | modify _ _ fd interests token => exact .modify _ _ fd interests token
  | unregister _ fd => exact .unregister _ fd
  | waitFail _ h => exact .waitFail h
  | wait _ cap h hp => exact .wait cap h hp
  | post h => exact .post h

theorem FullRun.run {r : Uring} (h : FullRun r) : Run r := by
  induction h with
  | start h => exact .start h
  | step _ hs ih => exact ih.step hs.step

/-- The kernel completes the oldest operations in order. -/
theorem Posted.oldest {r : Uring} (ops rest : List Sqe) (res : ℤ) (h : r.inflight = ops ++ rest) :
    Posted r { r with inflight := rest, cq := r.cq ++ ops.map fun op => ⟨op, res⟩ } := by
  induction ops using List.reverseRecOn generalizing rest with
  | nil =>
    have hr : { r with inflight := rest, cq := r.cq ++ [] } = r := by
      rw [List.append_nil]
      exact congrArg (fun i => { r with inflight := i }) h.symm
    rw [List.map_nil, hr]
    exact .refl
  | append_singleton ops op ih =>
    have hpost := (ih (op :: rest) (by simpa using h)).post [] rest op res rfl
    simpa using hpost

theorem fullRun_filledRing : ∀ n ≤ 128, FullRun (filledRing n)
  | 0, _ => .start start_filledRing
  | n + 1, hn => by
    have hr := fullRun_filledRing n (Nat.le_of_succ_le hn)
    have hfull : Enter.Full ⟨128, none⟩ (filledRing n) := fun _ => Nat.le_refl _
    have hs := FullStep.register hfull hfull n READABLE 0
    rw [register_filledRing hn] at hs
    exact hr.step hs

/-- The full table with the wake poll and the polls of the descriptors below `k` drained. -/
def firedRing (k : ℕ) : Uring :=
  { filledRing 128 with
    seqs := fun i => if i < 128 ∧ k ≤ homed128 i then FIRST_SEQ + homed128 i else 0
    wakeArmed := false
    inflight := [] }

/-- The completion of the poll of descriptor `k`, which is ready for reading. -/
def readable (k : ℕ) : Cqe := ⟨.pollAdd k (interestsToPoll READABLE) (FIRST_SEQ + k), 1⟩

theorem homed128_lt (i : ℕ) : homed128 i < 128 := Nat.mod_lt _ (by decide)

/-- The completion of a poll disarms the slot of its descriptor. -/
theorem drainCqe_firedRing {k : ℕ} (hk : k < 128) (cap : ℕ) (events : List PollEvent) :
    (drainCqe cap (firedRing k, events) (readable k)).1 = firedRing (k + 1) := by
  have hseq : FIRST_SEQ + k ≠ TIMEOUT ∧ FIRST_SEQ + k ≠ WAKE ∧ FIRST_SEQ + k ≠ 0 := by
    simp only [FIRST_SEQ, TIMEOUT, WAKE]
    omega
  have hud : (readable k).userData = FIRST_SEQ + k := rfl
  have hhome := homed128_hash hk
  have hlt : uringHash 128 k < 128 := by
    rw [uringHash_natCast]
    exact Nat.mod_lt _ (by decide)
  -- only the home slot of the descriptor carries its number
  have hfind : (firedRing k).findSeq (FIRST_SEQ + k) = some (uringHash 128 k) := by
    have hsome : ((firedRing k).findSeq (FIRST_SEQ + k)).isSome = true := by
      refine findSeq_isSome_iff.mpr ⟨uringHash 128 k, ⟨hlt, ?_⟩, ?_⟩
      · simp [firedRing, filledRing, hlt, hhome, hk]
      · simp [firedRing, hlt, hhome]
    obtain ⟨i, hi⟩ := Option.isSome_iff_exists.mp hsome
    obtain ⟨hilt, -, his⟩ := findSeq_spec hi
    have hin : homed128 i = k := by
      simp only [firedRing] at his
      split_ifs at his
      · omega
      · exact absurd his.symm hseq.2.2
    rw [hi, ← hin, hash_homed128 hilt]
  have hres : ¬ (readable k).res < 0 := Int.not_lt.mpr (by simp [readable])
  simp only [drainCqe, hud, hseq.1, hseq.2.1, if_false, hfind, hres]
  simp only [firedRing, Uring.mk.injEq, true_and, and_true]
  funext i
  rw [Function.update_apply]
  by_cases hi : i = uringHash 128 k
  · have hin : homed128 i = k := hi ▸ hhome
    rw [if_pos hi, if_neg (by omega)]
  · have hne (hlt : i < 128) : homed128 i ≠ k := fun h => hi (by rw [← hash_homed128 hlt, h])
    rw [if_neg hi]
    refine if_congr ⟨fun h => ⟨h.1, ?_⟩, fun h => ⟨h.1, by omega⟩⟩ rfl rfl
    have hik := hne h.1
    omega

theorem drain_firedRing (cap : ℕ) (events : List PollEvent) :
    ∀ n ≤ 128, (((List.range n).map readable).foldl (drainCqe cap) (firedRing 0, events)).1 =
      firedRing n
  | 0, _ => rfl
  | n + 1, hn => by
    have ih := drain_firedRing cap events n (Nat.le_of_succ_le hn)
    rw [List.range_succ, List.map_append, List.foldl_append, List.map_singleton, List.foldl_cons,
      List.foldl_nil]
    rw [← drainCqe_firedRing hn cap, ← ih]

theorem rearm_of_armed {r : Uring} (is : List ℕ) (h : ∀ i ∈ is, 0 ≤ r.fds i → r.seqs i ≠ 0) :
    rearm is r = (none, r) := by
  induction is with
  | nil => rfl
  | cons i is ih =>
    have hi : ¬ (0 ≤ r.fds i ∧ r.seqs i = 0) := fun hf => h i List.mem_cons_self hf.1 hf.2
    rw [rearm, if_neg hi]
    exact ih fun j hj => h j (List.mem_cons_of_mem _ hj)

/-- A wait on the armed ring only enters the kernel. -/
theorem waitSubmit_filledRing :
    (filledRing 128).waitSubmit false ⟨128, none⟩ = (none, filledRing 128) := by
  have harmed (i : ℕ) (hfd : 0 ≤ (filledRing 128).fds i) : (filledRing 128).seqs i ≠ 0 := by
    simp only [filledRing] at hfd ⊢
    split_ifs at hfd ⊢
    · simp [FIRST_SEQ]
    · exact absurd hfd (by decide)
  have hrearm := rearm_of_armed (List.range 128) fun i _ => harmed i
  have hcap : (filledRing 128).cap = 128 := rfl
  simp only [waitSubmit, hcap, hrearm]
  simp [armWake, armTimeout, submit, enter, filledRing]

/-- The drain of the wake poll and of all polls. -/
theorem fullRun_firedRing : FullRun (firedRing 128) := by
  have hp := Posted.oldest (r := filledRing 128) (filledRing 128).inflight [] 1 (by simp)
  have hfull : Enter.Full ⟨128, none⟩ (filledRing 128) := fun _ => Nat.le_refl _
  have hs := (fullRun_filledRing 128 (Nat.le_refl _)).step (.wait hfull 1 waitSubmit_filledRing hp)
  have hdrain : (drainCq { filledRing 128 with
      inflight := []
      cq := (filledRing 128).cq ++ (filledRing 128).inflight.map fun op => ⟨op, 1⟩ } 1).1 =
        firedRing 128 := by
    have hcq : ((filledRing 128).cq ++ (filledRing 128).inflight.map fun op => (⟨op, 1⟩ : Cqe)) =
        ⟨.pollAdd 1000 0x1 WAKE, 1⟩ :: (List.range 128).map readable := by
      simp [filledRing, readable, Function.comp_def]
    have hwake : drainCqe 1 ({ filledRing 128 with inflight := [], cq := [] }, [])
        ⟨.pollAdd 1000 0x1 WAKE, 1⟩ = (firedRing 0, []) := by
      have hne : WAKE ≠ TIMEOUT := by decide
      simp [drainCqe, Cqe.userData, Sqe.userData, hne, firedRing, filledRing, homed128_lt]
    rw [← drain_firedRing 1 [] 128 (Nat.le_refl _), ← hwake]
    simp only [drainCq, hcq, List.foldl_cons]
  rwa [hdrain] at hs

/-- All `128` registrations of a full table and its wake poll fire, and one wait takes their
completions. The next wait, timed or not, fails with `-EAGAIN` although the kernel consumed every
submitted entry, and so does every wait after it, whatever else is called. -/
theorem wait_eagain_stuck :
    ∃ r, FullRun r ∧ ∀ r', Relation.ReflTransGen Step r r' →
      ∀ bounded e, (r'.waitSubmit bounded e).1 = some .EAGAIN := by
  have hfired : (firedRing 128).fired = Finset.range 128 := by
    ext i
    have hlt := homed128_lt i
    rw [fired, Finset.mem_filter, Finset.mem_range]
    refine ⟨fun h => Finset.mem_range.mpr h.1, fun hi => ⟨Finset.mem_range.mp hi, ?_⟩⟩
    simp [firedRing, filledRing, Finset.mem_range.mp hi, hlt]
  obtain ⟨q, hq, hs⟩ := stuck_of_wait (r := firedRing 128) (Nat.zero_le _)
    (by rw [hfired, Finset.card_range]; exact Nat.le_refl _) (Nat.le_refl _) rfl true ⟨128, none⟩
  refine ⟨q, fullRun_firedRing.step (.waitFail (fun _ => Nat.le_refl _) hq),
    fun r' hr' bounded e => ?_⟩
  obtain ⟨q', hq', -⟩ := (hs.steps hr').wait bounded e
  rw [hq']

end MojitoSys.Io.IoUring
