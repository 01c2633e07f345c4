import MojitoSys.Io.IoUring
import Mathlib.Data.Finset.Card
import Mathlib.Data.Finset.Range

/-!
# The descriptor table of the io_uring backend

The table is probed linearly, and the probe stops at an empty slot. Both sites that delete an
entry (`mjs_iouring_unregister` and the retirement of a failed poll) write `-1`, so a deletion cuts
the probe of every descriptor that was displaced over the deleted slot: `uring_slot` then returns
the hole, and the descriptor can be inserted a second time. The epoll table writes a tombstone at
the same place.

The count of live slots is right in every run. The lookup is right in every state of a run exactly
when no deletion empties a slot on the probe path of another live descriptor.

## Main definitions

* `TableOk`: every descriptor is in one slot, `uring_slot` finds it, and the count is right.
* `Call`, `TableRun`: the calls on the poller, with one drained completion as a call.
* `Call.clears`, `Severs`: the slot that a call empties, and the descriptors that lose their way.

## Main results

* `tableOk_insert`, `tableOk_clear_iff`: what an insertion and a deletion do to the table.
* `exists_tableRun`: every reachable state of the poller is the end of such a run.
* `table_ok_iff_no_severed_chain`: the table is right throughout a run exactly when no call severs
  a chain.
* `table_ok_fails`: descriptors `3` and `131` collide, and the first is unregistered.
-/

namespace MojitoSys.Io.IoUring

open Util Probing

namespace Uring

/-- The live slots. -/
def live (r : Uring) : Finset ℕ := (Finset.range r.cap).filter fun i => 0 ≤ r.fds i

/-- The probe for `fd` stops at the slot. -/
def Stops (r : Uring) (fd : Fd) (i : ℕ) : Prop := r.fds i = -1 ∨ r.fds i = fd

instance (r : Uring) (fd : Fd) : DecidablePred (r.Stops fd) :=
  fun _ => inferInstanceAs (Decidable (_ ∨ _))

/-- The home slot of `fd`. -/
def home (r : Uring) (fd : Fd) : ℕ := uringHash r.cap fd

/-- Every descriptor is in one slot, `uring_slot` finds it, and the count is right. -/
structure TableOk (r : Uring) : Prop where
  unique : ∀ i j, i < r.cap → j < r.cap → 0 ≤ r.fds i → r.fds i = r.fds j → i = j
  found : ∀ i, i < r.cap → 0 ≤ r.fds i → r.uringSlot (r.fds i) = i
  count : r.count = r.live.card

/-- What holds of the table in every run. -/
structure Shape (r : Uring) : Prop where
  cap : ∃ k, r.cap = 2 ^ k
  fds : ∀ i, r.fds i = -1 ∨ 0 ≤ r.fds i
  count : r.count = r.live.card

/-- The two tables are the same. -/
def SameTable (r r' : Uring) : Prop := r'.cap = r.cap ∧ r'.fds = r.fds ∧ r'.count = r.count

/-- Emptying the slot `i` cuts the probe of another live descriptor. -/
def Severs (r : Uring) (i : ℕ) : Prop :=
  ∃ j, j < r.cap ∧ j ≠ i ∧ 0 ≤ r.fds j ∧ Before r.cap (r.home (r.fds j)) i j

instance (r : Uring) (i : ℕ) : Decidable (r.Severs i) :=
  inferInstanceAs (Decidable (∃ j, j < r.cap ∧ j ≠ i ∧ 0 ≤ r.fds j ∧
    Before r.cap (r.home (r.fds j)) i j))

variable {r r' : Uring} {fd : Fd} {i slot : ℕ}

theorem mem_live : i ∈ r.live ↔ i < r.cap ∧ 0 ≤ r.fds i := by simp [live]

/-! ### The probe -/

theorem Shape.cap_pos (hs : Shape r) : 0 < r.cap := by
  obtain ⟨k, hk⟩ := hs.cap
  rw [hk]
  exact Nat.two_pow_pos k

theorem home_lt (hc : 0 < r.cap) (fd : Fd) : r.home fd < r.cap := by
  have hle : r.home fd ≤ r.cap - 1 := Nat.and_le_right
  omega

theorem uringSlot_eq_scan (hs : Shape r) (fd : Fd) :
    r.uringSlot fd =
      scan (r.Stops fd) (fun h => (h + 1) % r.cap) r.cap (r.home fd) := by
  obtain ⟨k, hk⟩ := hs.cap
  have hnext : (fun h => (h + 1) &&& (r.cap - 1)) = fun h => (h + 1) % r.cap := by
    funext h
    exact and_mask_eq_mod hk _
  rw [uringSlot, hnext]
  rfl

/-- With an empty slot in the table, `uring_slot` returns the first slot where the probe stops. -/
theorem reaches_uringSlot (hs : Shape r) (fd : Fd) (hstop : ∃ i, i < r.cap ∧ r.Stops fd i) :
    Reaches r.cap (r.home fd) (r.Stops fd) (r.uringSlot fd) := by
  rw [uringSlot_eq_scan hs]
  exact reaches_scan (home_lt hs.cap_pos fd) hstop

theorem uringSlot_lt (hs : Shape r) (fd : Fd) : r.uringSlot fd < r.cap := by
  rw [uringSlot_eq_scan hs]
  exact scan_lt (home_lt hs.cap_pos fd)

/-- A live descriptor is found exactly when no slot before it stops the probe. -/
theorem uringSlot_eq_iff (hs : Shape r) (hi : i < r.cap) :
    r.uringSlot (r.fds i) = i ↔ Reaches r.cap (r.home (r.fds i)) (r.Stops (r.fds i)) i := by
  have hreach := reaches_uringSlot hs (r.fds i) ⟨i, hi, Or.inr rfl⟩
  refine ⟨fun h => by rwa [h] at hreach, fun h => ?_⟩
  exact Reaches.unique (home_lt hs.cap_pos _) hreach h

theorem unique_of_found (hfound : ∀ i, i < r.cap → 0 ≤ r.fds i → r.uringSlot (r.fds i) = i) :
    ∀ i j, i < r.cap → j < r.cap → 0 ≤ r.fds i → r.fds i = r.fds j → i = j := by
  intro i j hi hj hfd he
  rw [← hfound i hi hfd, he, hfound j hj (he ▸ hfd)]

/-- Slots are left below the capacity. -/
theorem exists_empty (hs : Shape r) (hc : r.count < r.cap) : ∃ i, i < r.cap ∧ r.fds i = -1 := by
  by_contra hno
  push Not at hno
  have hall : r.live = Finset.range r.cap := by
    ext i
    rw [mem_live, Finset.mem_range]
    refine ⟨And.left, fun hi => ⟨hi, ?_⟩⟩
    exact (hs.fds i).resolve_left (hno i hi)
  rw [hs.count, hall, Finset.card_range] at hc
  exact Nat.lt_irrefl _ hc

/-- A descriptor that `uring_slot` does not find is inserted in an empty slot. -/
theorem fds_uringSlot_of_ne (hs : Shape r) (hc : r.count < r.cap)
    (hne : r.fds (r.uringSlot fd) ≠ fd) : r.fds (r.uringSlot fd) = -1 := by
  obtain ⟨i, hi, hempty⟩ := exists_empty hs hc
  exact (reaches_uringSlot hs fd ⟨i, hi, Or.inl hempty⟩).2.1.resolve_right hne

/-! ### Insertion and deletion -/

/-- Put a descriptor in a slot. -/
def put (r : Uring) (slot : ℕ) (fd : Fd) : Uring :=
  { r with fds := Function.update r.fds slot fd, count := r.count + 1 }

theorem shape_put (hs : Shape r) (hslot : slot < r.cap) (hempty : r.fds slot = -1)
    (hfd : 0 ≤ fd) : Shape (r.put slot fd) where
  cap := hs.cap
  fds i := by
    by_cases hi : i = slot
    · exact Or.inr (by simpa [put, hi] using hfd)
    · simpa [put, hi] using hs.fds i
  count := by
    have hlive : (r.put slot fd).live = insert slot r.live := by
      ext i
      rw [mem_live, Finset.mem_insert, mem_live]
      by_cases hi : i = slot <;> simp [put, hi, hslot, hfd]
    have hnew : slot ∉ r.live := by simp [mem_live, hempty]
    rw [hlive, Finset.card_insert_of_notMem hnew, ← hs.count]
    rfl

theorem shape_clear (hs : Shape r) (hslot : slot < r.cap) (hlive : 0 ≤ r.fds slot) :
    Shape (r.clear slot) where
  cap := hs.cap
  fds i := by
    by_cases hi : i = slot
    · exact Or.inl (by simp [clear, hi])
    · simpa [clear, hi] using hs.fds i
  count := by
    have herase : (r.clear slot).live = r.live.erase slot := by
      ext i
      rw [mem_live, Finset.mem_erase, mem_live]
      by_cases hi : i = slot <;> simp [clear, hi]
    rw [herase, Finset.card_erase_of_mem (mem_live.mpr ⟨hslot, hlive⟩), ← hs.count]
    rfl

/-- An insertion at the slot that `uring_slot` returned keeps every descriptor findable. -/
theorem tableOk_put (hs : Shape r) (ht : TableOk r) (hc : r.count < r.cap) (hfd : 0 ≤ fd)
    (hne : r.fds (r.uringSlot fd) ≠ fd) : TableOk (r.put (r.uringSlot fd) fd) := by
  have hslot := uringSlot_lt hs fd
  have hempty := fds_uringSlot_of_ne hs hc hne
  have hs' := shape_put hs hslot hempty hfd
  have hreach := reaches_uringSlot hs fd ⟨_, hslot, Or.inl hempty⟩
  generalize r.uringSlot fd = slot at *
  have hfound (i : ℕ) (hi : i < (r.put slot fd).cap) (hl : 0 ≤ (r.put slot fd).fds i) :
      (r.put slot fd).uringSlot ((r.put slot fd).fds i) = i := by
    rw [uringSlot_eq_iff hs' hi]
    by_cases his : i = slot
    · -- the new descriptor: nothing before its slot stopped the probe
      subst his
      have hval : (r.put i fd).fds i = fd := by simp [put]
      rw [hval]
      refine hreach.congr (Or.inr hval) fun j hj hb hstop => ?_
      have hji : j ≠ i := fun h => not_before_self (h ▸ hb)
      simpa [Stops, put, hji] using hstop
    · -- an old descriptor: the slot was empty, so its probe did not come by
      have hval : (r.put slot fd).fds i = r.fds i := by simp [put, his]
      rw [hval] at hl ⊢
      have hold := (uringSlot_eq_iff hs hi).mp (ht.found i hi hl)
      refine hold.congr (Or.inr hval) fun j hj hb hstop => ?_
      have hjs : j ≠ slot := by
        rintro rfl
        exact hold.2.2 j hj hb (Or.inl hempty)
      simpa [Stops, put, hjs] using hstop
  exact ⟨unique_of_found hfound, hfound, hs'.count⟩

/-- A deletion keeps every other descriptor findable exactly when it severs no chain. -/
theorem tableOk_clear_iff (hs : Shape r) (ht : TableOk r) (hslot : slot < r.cap)
    (hlive : 0 ≤ r.fds slot) : TableOk (r.clear slot) ↔ ¬ Severs r slot := by
  have hs' := shape_clear hs hslot hlive
  have hval (i : ℕ) (hi : i ≠ slot) : (r.clear slot).fds i = r.fds i := by simp [clear, hi]
  have hhole : (r.clear slot).fds slot = -1 := by simp [clear]
  constructor
  · rintro ht' ⟨j, hj, hjs, hl, hb⟩
    have hreach := (uringSlot_eq_iff hs' hj).mp (ht'.found j hj (by rwa [hval j hjs]))
    rw [hval j hjs] at hreach
    exact hreach.2.2 slot hslot hb (Or.inl hhole)
  · intro hno
    have hfound (i : ℕ) (hi : i < (r.clear slot).cap) (hl : 0 ≤ (r.clear slot).fds i) :
        (r.clear slot).uringSlot ((r.clear slot).fds i) = i := by
      have his : i ≠ slot := by
        rintro rfl
        rw [hhole] at hl
        exact absurd hl (by decide)
      rw [uringSlot_eq_iff hs' hi, hval i his]
      rw [hval i his] at hl
      have hold := (uringSlot_eq_iff hs hi).mp (ht.found i hi hl)
      refine hold.congr (Or.inr (hval i his)) fun j hj hb hstop => ?_
      have hjs : j ≠ slot := by
        rintro rfl
        exact hno ⟨i, hi, his, hl, hb⟩
      rcases hstop with h | h
      · exact Or.inl ((hval j hjs).symm.trans h)
      · exact Or.inr ((hval j hjs).symm.trans h)
    exact ⟨unique_of_found hfound, hfound, hs'.count⟩

/-! ### Which operations change the table -/

theorem SameTable.refl (r : Uring) : SameTable r r := ⟨rfl, rfl, rfl⟩

theorem SameTable.trans {r₁ r₂ r₃ : Uring} (h₁ : SameTable r₁ r₂) (h₂ : SameTable r₂ r₃) :
    SameTable r₁ r₃ :=
  ⟨h₂.1.trans h₁.1, h₂.2.1.trans h₁.2.1, h₂.2.2.trans h₁.2.2⟩

theorem SameTable.live_eq (h : SameTable r r') : r'.live = r.live := by
  simp only [live, h.1, h.2.1]

theorem SameTable.shape (h : SameTable r r') (hs : Shape r) : Shape r' where
  cap := h.1 ▸ hs.cap
  fds := h.2.1 ▸ hs.fds
  count := by rw [h.2.2, h.live_eq, hs.count]

theorem SameTable.symm (h : SameTable r r') : SameTable r' r := ⟨h.1.symm, h.2.1.symm, h.2.2.symm⟩

theorem SameTable.tableOk (h : SameTable r r') (ht : TableOk r) : TableOk r' := by
  have hslot : r'.uringSlot = r.uringSlot := by
    funext fd
    simp only [uringSlot, h.1, h.2.1]
  refine ⟨?_, ?_, ?_⟩
  · simpa only [h.1, h.2.1] using ht.unique
  · simpa only [h.1, h.2.1, hslot] using ht.found
  · simpa only [h.2.2, h.live_eq] using ht.count

theorem SameTable.tableOk_iff (h : SameTable r r') : TableOk r' ↔ TableOk r :=
  ⟨h.symm.tableOk, h.tableOk⟩

theorem Quiet.sameTable (h : r.Quiet r') : SameTable r r' := by
  rw [Quiet] at h
  rw [h]
  exact ⟨rfl, rfl, rfl⟩

theorem sameTable_registerUpsert (r : Uring) (e : Enter) (slot : ℕ) (fd : Fd) (interests : Mask)
    (token : Token) (seq : ℕ) :
    SameTable r (r.registerUpsert e slot fd interests token seq).2 := by
  obtain ⟨q, hq, h | h⟩ := r.registerUpsert_quiet e slot fd interests token seq
  · rw [h]
    exact hq.sameTable
  · rw [h]
    exact hq.sameTable.trans ⟨rfl, rfl, rfl⟩

theorem registerNew_table (r : Uring) (e₁ e₂ : Enter) (slot : ℕ) (fd : Fd) (interests : Mask)
    (token : Token) (seq : ℕ) :
    SameTable r (r.registerNew e₁ e₂ slot fd interests token seq).2 ∨
      SameTable (r.put slot fd) (r.registerNew e₁ e₂ slot fd interests token seq).2 := by
  obtain ⟨q, hq, h | h⟩ := r.registerNew_quiet e₁ e₂ slot fd interests token seq
  · rw [h]
    exact Or.inl hq.sameTable
  · have ht := hq.sameTable
    rw [h]
    refine Or.inr ⟨ht.1, ?_, ?_⟩
    · exact congrArg (Function.update · slot fd) ht.2.1
    · exact congrArg (· + 1) ht.2.2

/-- A registration leaves the table, or puts a new descriptor in the slot that the probe found. -/
theorem register_table (r : Uring) (e₁ e₂ : Enter) (fd : Fd) (interests : Mask) (token : Token) :
    SameTable r (r.register e₁ e₂ fd interests token).2 ∨
      (0 ≤ fd ∧ r.count < r.cap ∧ r.fds (r.uringSlot fd) ≠ fd ∧
        SameTable (r.put (r.uringSlot fd) fd) (r.register e₁ e₂ fd interests token).2) := by
  unfold register
  cases checkInterests interests with
  | some err => exact Or.inl (.refl r)
  | none =>
    simp only
    split_ifs with hfd hc hslot
    · exact Or.inl (.refl r)
    · exact Or.inl (.refl r)
    · exact Or.inl (SameTable.trans ⟨rfl, rfl, rfl⟩ (sameTable_registerUpsert r.draw _ _ _ _ _ _))
    · rcases registerNew_table r.draw e₁ e₂ (r.uringSlot fd) fd interests token r.uringNextSeq
        with h | h
      · exact Or.inl (SameTable.trans ⟨rfl, rfl, rfl⟩ h)
      · exact Or.inr ⟨Int.not_lt.mp hfd, Nat.not_le.mp hc, hslot, SameTable.trans ⟨rfl, rfl, rfl⟩ h⟩

theorem sameTable_rearm (is : List ℕ) (r : Uring) : SameTable r (rearm is r).2 := by
  induction is generalizing r with
  | nil => exact .refl r
  | cons i is ih =>
    unfold rearm
    split_ifs
    · simp only
      cases h : r.draw.stage (.pollAdd (r.fds i) (interestsToPoll (r.ints i)) r.uringNextSeq) with
      | none => exact ⟨rfl, rfl, rfl⟩
      | some r₁ =>
        have hdraw : SameTable r r.draw := ⟨rfl, rfl, rfl⟩
        exact (hdraw.trans (quiet_stage h).sameTable).trans (SameTable.trans ⟨rfl, rfl, rfl⟩ (ih _))
    · exact ih r

theorem closed_sameTable (r : Uring) : Closed (SameTable r) where
  stage h hs _ := h.trans (quiet_stage hs).sameTable
  enter _ h := h
  wake _ h := h
  timeout _ h := h

theorem sameTable_waitSubmit (r : Uring) (bounded : Bool) (e : Enter) :
    SameTable r (r.waitSubmit bounded e).2 :=
  (closed_sameTable r).waitSubmit bounded e (sameTable_rearm _ r)

theorem findSeq_spec {ud : ℕ} (h : r.findSeq ud = some i) :
    i < r.cap ∧ 0 ≤ r.fds i ∧ r.seqs i = ud := by
  have hmem := List.mem_of_find?_eq_some h
  have hp := List.find?_some h
  simp only [decide_eq_true_eq] at hp
  exact ⟨List.mem_range.mp hmem, hp⟩

end Uring

/-! ### Runs -/

/-- A call on the poller, one drained completion, or the kernel changing its side of the rings. -/
inductive Call
  | register (e₁ e₂ : Enter) (fd : Fd) (interests : Mask) (token : Token)
  | modify (e₁ e₂ : Enter) (fd : Fd) (interests : Mask) (token : Token)
  | unregister (e : Enter) (fd : Fd)
  | waitSubmit (bounded : Bool) (e : Enter)
  | drained (cap : ℕ) (events : List PollEvent) (c : Cqe)
  | kernel (inflight : List Sqe) (cq : List Cqe)

namespace Call

open Uring

/-- The poller after a call. -/
def apply (r : Uring) : Call → Uring
  | register e₁ e₂ fd interests token => (r.register e₁ e₂ fd interests token).2
  | modify e₁ e₂ fd interests token => (r.modify e₁ e₂ fd interests token).2
  | unregister e fd => (r.unregister e fd).2
  | waitSubmit bounded e => (r.waitSubmit bounded e).2
  | drained cap events c => (drainCqe cap (r, events) c).1
  | kernel inflight cq => { r with inflight := inflight, cq := cq }

/-- The slot that a call empties: a descriptor that is found and can be unregistered, or a poll
that failed. -/
def clears (r : Uring) : Call → Option ℕ
  | unregister e fd =>
    if 0 ≤ fd ∧ r.fds (r.uringSlot fd) = fd ∧ r.staged.length < r.sqEntries ∧ e.error = none then
      some (r.uringSlot fd)
    else none
  | drained _ _ c =>
    if c.userData ≠ TIMEOUT ∧ c.userData ≠ WAKE ∧ c.res < 0 then r.findSeq c.userData else none
  | register _ _ _ _ _ | modify _ _ _ _ _ | waitSubmit _ _ | kernel _ _ => none

/-- What a call does to the table. -/
inductive Effect (r r' : Uring) : Option ℕ → Prop
  | same (h : SameTable r r') : Effect r r' none
  | put {fd : Fd} (hfd : 0 ≤ fd) (hc : r.count < r.cap) (hne : r.fds (r.uringSlot fd) ≠ fd)
      (h : SameTable (r.put (r.uringSlot fd) fd) r') : Effect r r' none
  | clear {i : ℕ} (hi : i < r.cap) (hl : 0 ≤ r.fds i) (h : SameTable (r.clear i) r') :
      Effect r r' (some i)

variable {r : Uring}

theorem effect_register (e₁ e₂ : Enter) (fd : Fd) (interests : Mask) (token : Token) :
    Effect r (r.register e₁ e₂ fd interests token).2 none := by
  rcases r.register_table e₁ e₂ fd interests token with h | ⟨hfd, hc, hne, h⟩
  · exact .same h
  · exact .put hfd hc hne h

theorem effect_unregister (hs : Shape r) (e : Enter) (fd : Fd) :
    Effect r (r.unregister e fd).2 ((unregister e fd).clears r) := by
  unfold Uring.unregister clears
  by_cases hfd : fd < 0
  · simpa [hfd, Int.not_le.mpr hfd] using Effect.same (SameTable.refl r)
  · have hfd' : 0 ≤ fd := Int.not_lt.mp hfd
    by_cases hslot : r.fds (r.uringSlot fd) = fd
    · cases hst : r.stage (.pollRemove (r.seqs (r.uringSlot fd))) with
      | none =>
        have hroom := stage_eq_none.mp hst
        simpa [hfd, hslot, hst, hroom] using Effect.same (SameTable.refl r)
      | some r₁ =>
        obtain ⟨hroom, rfl⟩ := stage_eq_some.mp hst
        have hsub := submit_of_staged (r := { r with
          staged := r.staged ++ [.pollRemove (r.seqs (r.uringSlot fd))] }) (by simp) e 0
        cases he : e.error with
        | some err =>
          simp only [hfd, hslot, hst, hsub, he, ne_eq, not_true_eq_false, reduceCtorEq, and_false,
            if_false]
          exact .same ⟨rfl, rfl, rfl⟩
        | none =>
          simp only [hfd, hfd', hslot, hst, hsub, he, hroom, ne_eq, not_true_eq_false, and_self,
            if_false, if_true]
          exact .clear (uringSlot_lt hs fd) (by rwa [hslot]) ⟨rfl, rfl, rfl⟩
    · simpa [hfd, hslot] using Effect.same (SameTable.refl r)

theorem effect_drained (cap : ℕ) (events : List PollEvent) (c : Cqe) :
    Effect r (drainCqe cap (r, events) c).1 ((drained cap events c).clears r) := by
  unfold drainCqe clears
  by_cases ht : c.userData = TIMEOUT
  · simp only [ne_eq, ht, not_true_eq_false, false_and, if_false]
    exact .same ⟨rfl, rfl, rfl⟩
  · by_cases hw : c.userData = WAKE
    · have hne : WAKE ≠ TIMEOUT := by decide
      simp only [ne_eq, hw, hne, not_true_eq_false, false_and, and_false, if_false]
      exact .same ⟨rfl, rfl, rfl⟩
    · simp only [ne_eq, ht, hw, not_false_eq_true, true_and, if_false]
      cases hf : r.findSeq c.userData with
      | none => simpa using Effect.same (SameTable.refl r)
      | some i =>
        by_cases hres : c.res < 0
        · obtain ⟨hi, hl, -⟩ := findSeq_spec hf
          simpa [hres] using Effect.clear hi hl (SameTable.refl _)
        · simp only [if_neg hres]
          exact .same ⟨rfl, rfl, rfl⟩

/-- One step: every call leaves the table, puts a descriptor, or empties the slot it clears. -/
theorem effect (hs : Shape r) (c : Call) : Effect r (c.apply r) (c.clears r) := by
  cases c with
  | register e₁ e₂ fd interests token => exact effect_register e₁ e₂ fd interests token
  | modify e₁ e₂ fd interests token =>
    change Effect r (r.modify e₁ e₂ fd interests token).2 none
    unfold Uring.modify
    split
    · exact .same (.refl r)
    · exact effect_register e₁ e₂ fd interests token
  | unregister e fd => exact effect_unregister hs e fd
  | waitSubmit bounded e => exact .same (sameTable_waitSubmit r bounded e)
  | drained cap events c => exact effect_drained cap events c
  | kernel inflight cq => exact .same ⟨rfl, rfl, rfl⟩

theorem shape_apply (hs : Shape r) (c : Call) : Shape (c.apply r) := by
  have heff := effect hs c
  generalize c.clears r = cleared at heff
  cases heff with
  | same h => exact h.shape hs
  | put hfd hc hne h =>
    exact h.shape (shape_put hs (uringSlot_lt hs _) (fds_uringSlot_of_ne hs hc hne) hfd)
  | clear hi hl h => exact h.shape (shape_clear hs hi hl)

/-- From a right table, a call leads to a right table exactly when it severs no chain. -/
theorem tableOk_apply_iff (hs : Shape r) (ht : TableOk r) (c : Call) :
    TableOk (c.apply r) ↔ ∀ i, c.clears r = some i → ¬ r.Severs i := by
  have heff := effect hs c
  generalize c.clears r = cleared at heff
  cases heff with
  | same h => simpa using h.tableOk_iff.mpr ht
  | put hfd hc hne h => simpa using h.tableOk_iff.mpr (tableOk_put hs ht hc hfd hne)
  | clear hi hl h => simpa [h.tableOk_iff] using tableOk_clear_iff hs ht hi hl

end Call

/-- The runs of a poller, with the state before each call. -/
inductive TableRun : List (Uring × Call) → Uring → Prop
  | start {r : Uring} (h : Start r) : TableRun [] r
  | call {hist : List (Uring × Call)} {r : Uring} (hr : TableRun hist r) (c : Call) :
      TableRun ((r, c) :: hist) (c.apply r)

namespace TableRun

open Uring

theorem cap_of_start {r : Uring} (h : Start r) : ∃ k, r.cap = 2 ^ k := by
  obtain ⟨k, hk⟩ := h.sqEntries
  rw [h.cap]
  split_ifs
  · exact ⟨4, rfl⟩
  · exact ⟨k, hk⟩

theorem shape_start {r : Uring} (h : Start r) : Shape r where
  cap := cap_of_start h
  fds i := Or.inl (h.fds i)
  count := by simp [h.count, live, h.fds]

theorem tableOk_start {r : Uring} (h : Start r) : TableOk r where
  unique i j _ _ hfd _ := by simp [h.fds] at hfd
  found i _ hfd := by simp [h.fds] at hfd
  count := (shape_start h).count

theorem shape {hist : List (Uring × Call)} {r : Uring} (hr : TableRun hist r) : Shape r := by
  induction hr with
  | start h => exact shape_start h
  | call _ c ih => exact c.shape_apply ih

theorem exists_drained {hist : List (Uring × Call)} {r : Uring} (hr : TableRun hist r) (cap : ℕ)
    (cs : List Cqe) (events : List PollEvent) :
    ∃ hist', TableRun hist' (cs.foldl (drainCqe cap) (r, events)).1 := by
  induction cs generalizing hist r events with
  | nil => exact ⟨hist, hr⟩
  | cons c cs ih => exact ih (hr.call (.drained cap events c)) (drainCqe cap (r, events) c).2

/-- Every reachable state of the poller is the end of such a run. -/
theorem exists_tableRun {r : Uring} (hr : Run r) : ∃ hist, TableRun hist r := by
  induction hr with
  | start h => exact ⟨[], .start h⟩
  | @step r r' _ hs ih =>
    obtain ⟨hist, hr⟩ := ih
    cases hs with
    | register e₁ e₂ fd interests token => exact ⟨_, hr.call (.register e₁ e₂ fd interests token)⟩
    | modify e₁ e₂ fd interests token => exact ⟨_, hr.call (.modify e₁ e₂ fd interests token)⟩
    | unregister e fd => exact ⟨_, hr.call (.unregister e fd)⟩
    | @waitFail bounded e err _ h =>
      have hw := hr.call (.waitSubmit bounded e)
      simp only [Call.apply, h] at hw
      exact ⟨_, hw⟩
    | @wait bounded e r₁ r₂ cap h hp =>
      have hw := hr.call (.waitSubmit bounded e)
      simp only [Call.apply, h] at hw
      have hk := hw.call (.kernel r₂.inflight [])
      have hr₂ : (Call.kernel r₂.inflight []).apply r₁ = { r₂ with cq := [] } := by
        conv_rhs => rw [hp.eq]
        rfl
      rw [hr₂] at hk
      exact exists_drained hk cap r₂.cq []
    | post h =>
      have hk := hr.call (.kernel r'.inflight r'.cq)
      have hr' : (Call.kernel r'.inflight r'.cq).apply r = r' := h.eq.symm
      exact ⟨_, hr' ▸ hk⟩

end TableRun

/-- The table is right in every state of a run exactly when no unregistration and no retirement
of the run empties a slot on the probe path of another live descriptor. -/
theorem table_ok_iff_no_severed_chain {hist : List (Uring × Call)} {r : Uring}
    (hr : TableRun hist r) :
    (r.TableOk ∧ ∀ q ∈ hist, q.1.TableOk) ↔
      ∀ q ∈ hist, ∀ i, q.2.clears q.1 = some i → ¬ q.1.Severs i := by
  induction hr with
  | start h => simpa using TableRun.tableOk_start h
  | @call hist r hr c ih =>
    rw [List.forall_mem_cons, List.forall_mem_cons]
    constructor
    · rintro ⟨hnew, hold, hall⟩
      exact ⟨(c.tableOk_apply_iff hr.shape hold).mp hnew, ih.mp ⟨hold, hall⟩⟩
    · rintro ⟨hc, hall⟩
      obtain ⟨hold, hhist⟩ := ih.mpr hall
      exact ⟨(c.tableOk_apply_iff hr.shape hold).mpr hc, hold, hhist⟩

/-- A poller of 128 entries after its creation. -/
def freshRing : Uring where
  sqEntries := 128
  cap := 128
  fds _ := -1
  seqs _ := 0
  toks _ := 0
  ints _ := 0
  count := 0
  nextSeq := FIRST_SEQ
  wakeFd := 100
  wakeArmed := true
  timeoutArmed := false
  staged := []
  inflight := [.pollAdd 100 0x1 WAKE]
  cq := []

theorem start_freshRing : Start freshRing :=
  ⟨⟨7, rfl⟩, rfl, fun _ => rfl, rfl, rfl, ⟨rfl, rfl⟩, rfl, rfl⟩

/-- The descriptors `3` and `131` share their home slot, and `131` is displaced to the next one.
Unregistering it there severs nothing. -/
theorem table_ok_iff_no_severed_chain_displaced :
    ((Call.unregister ⟨1, none⟩ 131).apply
      ((Call.register ⟨0, none⟩ ⟨1, none⟩ 131 READABLE 8).apply
        ((Call.register ⟨0, none⟩ ⟨1, none⟩ 3 READABLE 7).apply freshRing))).TableOk := by
  have hr := (((TableRun.start start_freshRing).call
    (.register ⟨0, none⟩ ⟨1, none⟩ 3 READABLE 7)).call
    (.register ⟨0, none⟩ ⟨1, none⟩ 131 READABLE 8)).call (.unregister ⟨1, none⟩ 131)
  refine ((table_ok_iff_no_severed_chain hr).mpr ?_).1
  rw [List.forall_mem_cons, List.forall_mem_cons, List.forall_mem_singleton]
  refine ⟨fun i hi => ?_, (fun i hi => by cases hi), fun i hi => by cases hi⟩
  have hslot : (Call.unregister ⟨1, none⟩ 131).clears
      ((Call.register ⟨0, none⟩ ⟨1, none⟩ 131 READABLE 8).apply
        ((Call.register ⟨0, none⟩ ⟨1, none⟩ 3 READABLE 7).apply freshRing)) = some 20 := by
    decide +kernel
  obtain rfl : 20 = i := Option.some.inj (hslot.symm.trans hi)
  decide +kernel

/-- After `3` is unregistered, the probe for `131` stops at the hole. -/
theorem table_ok_fails : ¬ ∀ hist r, TableRun hist r → r.TableOk := by
  intro h
  have hr := (((TableRun.start start_freshRing).call
    (.register ⟨0, none⟩ ⟨1, none⟩ 3 READABLE 7)).call
    (.register ⟨0, none⟩ ⟨1, none⟩ 131 READABLE 8)).call (.unregister ⟨1, none⟩ 3)
  have hfound := (h _ _ hr).found 20 (by decide +kernel) (by decide +kernel)
  revert hfound
  decide +kernel

end MojitoSys.Io.IoUring
