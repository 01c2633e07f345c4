import MojitoSys.Io.EpollTable

/-!
# The bounds of the epoll table

The calls that index `table_fd` and `table_tok`, with the indices they use. `mjs_epoll_slot`
returns the sentinel `MJS_EPOLL_TABLE_CAP` for an absent descriptor when no slot is empty.
`mjs_epoll_set` and `mjs_epoll_wait` check for it; `mjs_epoll_unregister` does not, and reads past
the end of the table.

## Main definitions

* `Epoller.slotTraced`, `Epoller.setTraced`, `Epoller.unregisterTraced`, `Epoller.deliverTraced`:
  the calls with the indices they use.
* `InBounds`: the calls on a descriptor stay inside the table, and an unregistration of an absent
  descriptor leaves it alone.
* `filled`: the poller after the registration of the first descriptors.

## Main results

* `slotTraced_fst`, `setTraced_fst`, `unregisterTraced_fst`, `deliverTraced_fst`: the results are
  those of the calls.
* `in_bounds_iff`: the calls stay inside the table exactly when the descriptor is in the table or
  a slot is empty.
* `in_bounds_fails`: a table of `256` descriptors.
-/

namespace MojitoSys.Io.Epoll

open Util Probing Epoller

/-! ### The calls with their indices -/

/-- The loop of `mjs_epoll_slot` with the entries of `table_fd` that it reads. -/
def probeTraced (t : ℕ → Fd) (fd : Fd) : ℕ → ℕ → ℕ → ℕ × List ℕ
  | 0, _, _ => (CAP, [])
  | n + 1, h, firstTomb =>
    if t h = -1 ∨ t h = fd then
      (if t h = -1 ∧ firstTomb < CAP then firstTomb else h, [h])
    else
      let r := probeTraced t fd n ((h + 1) &&& (CAP - 1))
        (if t h = TOMB ∧ firstTomb = CAP then h else firstTomb)
      (r.1, h :: r.2)

namespace Epoller

/-- `mjs_epoll_slot` with its indices. -/
def slotTraced (p : Epoller) (fd : Fd) : ℕ × List ℕ := probeTraced p.tableFd fd CAP (hash fd) CAP

/-- `mjs_epoll_set` with its indices. -/
def setTraced (p : Epoller) (f₁ f₂ : Option Fail) (fd : Fd) (interests : Mask) (token : Token)
    (isAdd : Bool) : (Status × Epoller) × List ℕ :=
  match checkInterests interests with
  | some err => ((some err, p), [])
  | none =>
    if fd < 0 then ((some .EBADF, p), [])
    else
      let s := p.slotTraced fd
      if CAP ≤ s.1 then ((some .ENOSPC, p), s.2)
      else
        match p.addOrMod f₁ f₂ fd interests isAdd with
        | (some err, p) => ((some err, p), s.2)
        | (none, p) =>
          ((none, { p with
            tableFd := Function.update p.tableFd s.1 fd
            tableTok := Function.update p.tableTok s.1 token }), s.2 ++ [s.1, s.1])

/-- `mjs_epoll_unregister` with its indices: the slot is read whatever it is. -/
def unregisterTraced (p : Epoller) (f : Option Fail) (fd : Fd) :
    Option (Status × Epoller) × List ℕ :=
  if fd < 0 then (some (some .EBADF, p), [])
  else
    let r := p.ctl f .del fd 0
    let s := r.2.slotTraced fd
    if CAP ≤ s.1 then (none, s.2 ++ [s.1])
    else if r.2.tableFd s.1 = fd then
      (some (r.1, { r.2 with tableFd := Function.update r.2.tableFd s.1 TOMB }),
        s.2 ++ [s.1, s.1])
    else (some r, s.2 ++ [s.1])

/-- The body of the loop of `mjs_epoll_wait` with its indices. -/
def deliverOneTraced (p : Epoller) (cap : ℕ) (acc : List PollEvent × List ℕ) (e : Fd × Mask) :
    List PollEvent × List ℕ :=
  if e.1 = p.wfd then acc
  else if cap ≤ acc.1.length then acc
  else
    let s := p.slotTraced e.1
    if CAP ≤ s.1 then (acc.1, acc.2 ++ s.2)
    else if p.tableFd s.1 ≠ e.1 then (acc.1, acc.2 ++ s.2 ++ [s.1])
    else (acc.1 ++ [⟨p.tableTok s.1, e.1, eventFlags e.2⟩], acc.2 ++ s.2 ++ [s.1, s.1])

/-- The loop of `mjs_epoll_wait` with its indices. -/
def deliverTraced (p : Epoller) (cap : ℕ) (ready : List (Fd × Mask)) : List PollEvent × List ℕ :=
  ready.foldl (p.deliverOneTraced cap) ([], [])

end Epoller

/-! ### The results are those of the calls -/

section Result

variable (p : Epoller) (fd : Fd)

theorem probeTraced_fst (t : ℕ → Fd) (n h firstTomb : ℕ) :
    (probeTraced t fd n h firstTomb).1 = probe t fd n h firstTomb := by
  induction n generalizing h firstTomb with
  | zero => rfl
  | succ n ih =>
    unfold probeTraced probe
    split
    · rfl
    · exact ih _ _

@[simp] theorem slotTraced_fst : (p.slotTraced fd).1 = p.slot fd := probeTraced_fst fd _ _ _ _

theorem setTraced_fst (f₁ f₂ : Option Fail) (interests : Mask) (token : Token) (isAdd : Bool) :
    (p.setTraced f₁ f₂ fd interests token isAdd).1 = p.set f₁ f₂ fd interests token isAdd := by
  unfold setTraced Epoller.set
  cases checkInterests interests with
  | some err => rfl
  | none =>
    simp only [slotTraced_fst]
    split_ifs
    · rfl
    · rfl
    · rcases p.addOrMod f₁ f₂ fd interests isAdd with ⟨_ | err, q⟩ <;> rfl

theorem unregisterTraced_fst (f : Option Fail) :
    (p.unregisterTraced f fd).1 = p.unregister f fd := by
  unfold unregisterTraced unregister
  simp only [slotTraced_fst]
  split_ifs <;> rfl

theorem deliverTraced_fst (cap : ℕ) (ready : List (Fd × Mask)) :
    (p.deliverTraced cap ready).1 = p.deliver cap ready := by
  have hone (acc : List PollEvent × List ℕ) (e : Fd × Mask) :
      (p.deliverOneTraced cap acc e).1 = p.deliverOne cap acc.1 e := by
    simp only [deliverOneTraced, deliverOne, slotTraced_fst]
    split_ifs <;> grind
  have hfold (ready : List (Fd × Mask)) (acc : List PollEvent × List ℕ) :
      (ready.foldl (p.deliverOneTraced cap) acc).1 = ready.foldl (p.deliverOne cap) acc.1 := by
    induction ready generalizing acc with
    | nil => rfl
    | cons e ready ih => rw [List.foldl_cons, List.foldl_cons, ih, hone]
  exact hfold ready ([], [])

end Result

/-! ### The indices -/

section Indices

variable {p : Epoller} {fd : Fd}

theorem lt_of_mem_probeTraced {t : ℕ → Fd} {n h firstTomb : ℕ} (hh : h < CAP) :
    ∀ i ∈ (probeTraced t fd n h firstTomb).2, i < CAP := by
  induction n generalizing h firstTomb with
  | zero => simp [probeTraced]
  | succ n ih =>
    unfold probeTraced
    split
    · simpa using hh
    · have hnext : (h + 1) &&& (CAP - 1) < CAP := by
        rw [next_eq]
        exact Nat.mod_lt _ (by decide)
      intro i hi
      rcases List.mem_cons.mp hi with rfl | hi
      · exact hh
      · exact ih hnext i hi

/-- `mjs_epoll_slot` reads inside the table. -/
theorem lt_of_mem_slotTraced : ∀ i ∈ (p.slotTraced fd).2, i < CAP :=
  lt_of_mem_probeTraced (hash_lt fd)

/-- `mjs_epoll_set` checks the sentinel. -/
theorem lt_of_mem_setTraced {f₁ f₂ : Option Fail} {interests : Mask} {token : Token}
    {isAdd : Bool} : ∀ i ∈ (p.setTraced f₁ f₂ fd interests token isAdd).2, i < CAP := by
  unfold setTraced
  cases checkInterests interests with
  | some err => simp
  | none =>
    have hreads := @lt_of_mem_slotTraced p fd
    simp only
    split_ifs with hfd hs
    · simp
    · exact hreads
    · rcases p.addOrMod f₁ f₂ fd interests isAdd with ⟨_ | err, q⟩
      · intro i hi
        rcases List.mem_append.mp hi with hi | hi
        · exact hreads i hi
        · have his : i = (p.slotTraced fd).1 := by simpa using hi
          omega
      · exact hreads

/-- `mjs_epoll_wait` checks the sentinel. -/
theorem lt_of_mem_deliverTraced {cap : ℕ} {ready : List (Fd × Mask)} :
    ∀ i ∈ (p.deliverTraced cap ready).2, i < CAP := by
  have hone (acc : List PollEvent × List ℕ) (e : Fd × Mask) (hacc : ∀ i ∈ acc.2, i < CAP) :
      ∀ i ∈ (p.deliverOneTraced cap acc e).2, i < CAP := by
    have hreads := @lt_of_mem_slotTraced p e.1
    unfold deliverOneTraced
    dsimp only
    split_ifs with hw hcap hs hne
    · exact hacc
    · exact hacc
    · simpa [or_imp, forall_and] using ⟨hacc, hreads⟩
    · simp only [List.mem_append, List.mem_singleton, or_imp, forall_and, forall_eq]
      exact ⟨⟨hacc, hreads⟩, by omega⟩
    · simp only [List.mem_append, List.mem_cons, List.not_mem_nil, or_false, or_self, or_imp,
        forall_and, forall_eq]
      exact ⟨⟨hacc, hreads⟩, by omega⟩
  have hfold (ready : List (Fd × Mask)) (acc : List PollEvent × List ℕ)
      (hacc : ∀ i ∈ acc.2, i < CAP) :
      ∀ i ∈ (ready.foldl (p.deliverOneTraced cap) acc).2, i < CAP := by
    induction ready generalizing acc with
    | nil => exact hacc
    | cons e ready ih => exact ih _ (hone acc e hacc)
  exact hfold ready ([], []) (by simp)

/-- `mjs_epoll_unregister` reads what `mjs_epoll_slot` reads, and the slot it returns. -/
theorem mem_unregisterTraced (hfd : 0 ≤ fd) (f : Option Fail) {i : ℕ} :
    i ∈ (p.unregisterTraced f fd).2 ↔ i ∈ (p.slotTraced fd).2 ∨ i = p.slot fd := by
  have hneg : ¬ fd < 0 := Int.not_lt.mpr hfd
  have htable : (p.ctl f .del fd 0).2.tableFd = p.tableFd := by
    rcases ctl_del_cases p f fd 0 with h | h <;> rw [h]
  have hslot : (p.ctl f .del fd 0).2.slotTraced fd = p.slotTraced fd := by
    rw [slotTraced, slotTraced, htable]
  unfold unregisterTraced
  rw [if_neg hneg]
  simp only [hslot, slotTraced_fst]
  split_ifs <;> simp

/-- `mjs_epoll_unregister` stays inside the table exactly when `mjs_epoll_slot` does not return the
sentinel. -/
theorem unregisterTraced_lt_iff (hfd : 0 ≤ fd) (f : Option Fail) :
    (∀ i ∈ (p.unregisterTraced f fd).2, i < CAP) ↔ p.slot fd < CAP := by
  simp only [mem_unregisterTraced hfd, or_imp, forall_and, forall_eq]
  exact ⟨And.right, fun h => ⟨lt_of_mem_slotTraced, h⟩⟩

/-- The slot of a descriptor is no sentinel exactly when the table holds the descriptor or has an
empty slot. -/
theorem slot_lt_iff (hr : Reachable p.tableFd) (hfd : 0 ≤ fd) :
    p.slot fd < CAP ↔
      (∃ i, i < CAP ∧ p.tableFd i = fd) ∨ ∃ i, i < CAP ∧ p.tableFd i = -1 := by
  by_cases hheld : ∃ i, i < CAP ∧ p.tableFd i = fd
  · obtain ⟨i, hi, hti⟩ := hheld
    rw [slot_of_holds hr hfd hi hti]
    exact ⟨fun _ => Or.inl ⟨i, hi, hti⟩, fun _ => hi⟩
  · have habs : ∀ j, j < CAP → p.tableFd j ≠ fd := fun j hj hjt => hheld ⟨j, hj, hjt⟩
    by_cases hempty : ∃ e, e < CAP ∧ p.tableFd e = -1
    · refine ⟨fun _ => Or.inr hempty, fun _ => ?_⟩
      obtain ⟨e, he, ⟨hse, -⟩ | ⟨hlt, -⟩⟩ := slot_of_absent habs hempty
      · rw [hse]
        exact he.1
      · exact hlt
    · have hfull := slot_of_full habs fun j hj hjt => hempty ⟨j, hj, hjt⟩
      rw [hfull]
      exact ⟨fun h => absurd h (Nat.lt_irrefl _), fun h => (h.elim hheld hempty).elim⟩

end Indices

/-! ### Reachable tables -/

/-- The calls on a descriptor index the table below its capacity, and the unregistration of a
descriptor that is not in the table leaves every entry and every token. -/
structure InBounds (p : Epoller) (fd : Fd) : Prop where
  set : ∀ f₁ f₂ interests token isAdd, ∀ i ∈ (p.setTraced f₁ f₂ fd interests token isAdd).2, i < CAP
  unregister : ∀ f, ∀ i ∈ (p.unregisterTraced f fd).2, i < CAP
  wait : ∀ cap ready, ∀ i ∈ (p.deliverTraced cap ready).2, i < CAP
  absent : (∀ i, i < CAP → p.tableFd i ≠ fd) → ∀ f, ∃ st p', p.unregister f fd = some (st, p') ∧
    ∀ i, i < CAP → p'.tableFd i = p.tableFd i ∧ p'.tableTok i = p.tableTok i

/-- In every run, the calls on a descriptor stay inside the table, and the unregistration of an
absent descriptor leaves it alone, exactly when the table holds the descriptor or has an empty
slot. -/
theorem in_bounds_iff {log : List Entry} {p : Epoller} (hr : Run log p) {fd : Fd} (hfd : 0 ≤ fd) :
    InBounds p fd ↔
      (∃ i, i < CAP ∧ p.tableFd i = fd) ∨ ∃ i, i < CAP ∧ p.tableFd i = -1 := by
  have hreach := (tableInv_run hr).reach
  rw [← slot_lt_iff hreach hfd]
  constructor
  · intro h
    exact (unregisterTraced_lt_iff hfd none).mp (h.unregister none)
  · intro hs
    refine ⟨fun _ _ _ _ _ => lt_of_mem_setTraced, fun f => (unregisterTraced_lt_iff hfd f).mpr hs,
      fun _ _ => lt_of_mem_deliverTraced, fun habs f => ?_⟩
    have hfull : ¬ CAP ≤ p.slot fd := Nat.not_le.mpr hs
    refine ⟨_, _, (unregister_eq p f hfd).trans (if_neg hfull), fun i _ => ⟨?_, rfl⟩⟩
    rw [bury, if_neg (habs _ hs)]

/-! ### A full table -/

/-- The descriptor whose home slot is `i`. -/
def homed256 (i : ℕ) : ℕ := i * 81 % CAP

theorem hash_natCast (n : ℕ) : hash n = n * 2654435761 % CAP := by
  have hcap : CAP = 2 ^ 8 := by decide
  rw [hash, Int.toNat_natCast, and_mask_eq_mod hcap, Nat.mod_mod_of_dvd _ (by decide)]

theorem homed256_hash {n : ℕ} (hn : n < CAP) : homed256 (hash n) = n := by
  rw [hash_natCast, homed256]
  simp only [CAP] at *
  omega

theorem hash_homed256 {i : ℕ} (hi : i < CAP) : hash (homed256 i : ℕ) = i := by
  rw [hash_natCast, homed256]
  simp only [CAP] at *
  omega

/-- The poller with the descriptors below `n` registered for reading. The descriptor of its eventfd
is `1000`. -/
def filled (n : ℕ) : Epoller where
  wfd := 1000
  tableFd i := if i < CAP ∧ homed256 i < n then homed256 i else -1
  tableTok _ := 0
  kernel fd := if fd = 1000 then some 0x1 else if 0 ≤ fd ∧ fd < n then some 0x2001 else none

theorem start_filled : Start (filled 0) where
  tableFd _ := by simp [filled]
  kernel fd := by
    have hno : ¬ (0 ≤ fd ∧ fd < 0) := fun h => absurd h.2 (Int.not_lt.mpr h.1)
    simp [filled, hno]

/-- The next descriptor goes to its home slot. -/
theorem slot_filled {n : ℕ} (hn : n < CAP) : (filled n).slot n = hash n := by
  have hempty : (filled n).tableFd (hash n) = -1 := by simp [filled, homed256_hash hn]
  change probe (filled n).tableFd n (255 + 1) (hash n) CAP = hash n
  rw [probe, if_pos (Or.inl hempty), if_neg fun h => absurd h.2 (Nat.lt_irrefl _)]

theorem put_filled {n : ℕ} (hn : n < CAP) : put (filled n) n READABLE 0 = filled (n + 1) := by
  have hcap : CAP = 256 := rfl
  have hlt := hash_lt n
  have hwhere (i : ℕ) (hi : i < CAP) : i = hash n ↔ homed256 i = n :=
    ⟨fun h => h ▸ homed256_hash hn, fun h => by rw [← hash_homed256 hi, h]⟩
  rw [put, slot_filled hn]
  simp only [filled, Epoller.mk.injEq, true_and]
  refine ⟨funext fun i => ?_, funext fun i => ?_, funext fun fd => ?_⟩
  · by_cases hi : i < CAP
    · rw [Function.update_apply, if_congr (hwhere i hi) rfl rfl]
      by_cases hin : homed256 i = n
      · simp [hi, hin]
      · have hless : homed256 i < n + 1 ↔ homed256 i < n := by omega
        simp [hi, hin, hless]
    · have hne : i ≠ hash n := by omega
      simp [hi, hne]
  · rw [Function.update_apply, ite_self]
  · have hwatched : watched READABLE = 0x2001 := by decide
    have hbelow (x : ℤ) : 0 ≤ x ∧ x < (n + 1 : ℕ) ↔ x = n ∨ 0 ≤ x ∧ x < n := by omega
    have hwake (x : ℤ) (hx : x = n) : x ≠ 1000 := by omega
    rw [Function.update_apply, hwatched, if_congr (hbelow fd) rfl rfl]
    by_cases hfd : fd = n
    · simp [hfd, hwake n rfl]
    · simp [hfd]

theorem register_filled {n : ℕ} (hn : n < CAP) :
    (filled n).register none none n READABLE 0 = (none, filled (n + 1)) := by
  have hcap : CAP = 256 := rfl
  have hk : (filled n).kernel n = none := by
    have hne : ((n : ℕ) : ℤ) ≠ 1000 := by omega
    simp [filled, hne]
  have hneg : ¬ ((n : ℕ) : ℤ) < 0 := by omega
  have hfull : ¬ CAP ≤ hash n := Nat.not_le.mpr (hash_lt n)
  have hint : checkInterests READABLE = none := by decide
  rw [← put_filled hn]
  simp [register, Epoller.set, hint, hneg, slot_filled hn, hfull, addOrMod, ctl, epollCtl, hk, put]

/-- The fillings are reachable. -/
theorem run_filled : ∀ n ≤ CAP, ∃ log, Run log (filled n)
  | 0, _ => ⟨[], .start start_filled⟩
  | n + 1, hn => by
    obtain ⟨log, hr⟩ := run_filled n (Nat.le_of_succ_le hn)
    have hs := Step.register (p := filled n) none none n READABLE 0
    rw [register_filled hn] at hs
    exact ⟨_, hr.step hs⟩

/-- Every slot of the full table holds the descriptor that is at home there. -/
theorem filled_tableFd {i : ℕ} (hi : i < CAP) : (filled CAP).tableFd i = homed256 i := by
  have hlt : homed256 i < CAP := Nat.mod_lt _ (by decide)
  simp [filled, hi, hlt]

/-- With half of the table in use, the calls on the absent descriptor `300` stay inside it. -/
theorem in_bounds_half : ∃ log, Run log (filled 128) ∧ InBounds (filled 128) 300 := by
  obtain ⟨log, hr⟩ := run_filled 128 (by decide)
  refine ⟨log, hr, (in_bounds_iff hr (by decide)).mpr (Or.inr ⟨hash 200, hash_lt 200, ?_⟩)⟩
  decide

/-- With `256` descriptors registered, the unregistration of descriptor `256` reads
`table_fd[256]`. -/
theorem in_bounds_fails :
    ∃ log, Run log (filled CAP) ∧ ¬ InBounds (filled CAP) 256 ∧
      256 ∈ ((filled CAP).unregisterTraced none 256).2 := by
  obtain ⟨log, hr⟩ := run_filled CAP (Nat.le_refl _)
  have habs (i : ℕ) (hi : i < CAP) : (filled CAP).tableFd i ≠ 256 := by
    have hlt : homed256 i < 256 := Nat.mod_lt _ (by decide)
    rw [filled_tableFd hi]
    exact_mod_cast Nat.ne_of_lt hlt
  have hfull (i : ℕ) (hi : i < CAP) : (filled CAP).tableFd i ≠ -1 := by
    rw [filled_tableFd hi]
    exact fun h => absurd h (by simp)
  have hslot : (filled CAP).slot 256 = CAP := slot_of_full habs hfull
  refine ⟨log, hr, fun h => ?_, ?_⟩
  · have hlt := (unregisterTraced_lt_iff (by decide) none).mp (h.unregister none)
    rw [hslot] at hlt
    exact absurd hlt (Nat.lt_irrefl _)
  · exact (mem_unregisterTraced (by decide) none).mpr (Or.inr hslot.symm)

end MojitoSys.Io.Epoll
