import MojitoSys.Io.EpollBounds
import MojitoSys.Io.UringTable

/-!
# The capacity of the two tables

A registration should be refused for lack of room exactly when its descriptor is not registered
and the table holds as many live registrations as it has slots.

`mjs_epoll_slot` returns its sentinel when the probe met no empty slot, whatever tombstones it met,
so a table without empty slots refuses a new descriptor although slots were freed.
`mjs_iouring_register` compares the count with the capacity before it looks for the descriptor, so
a full table refuses the upsert of a registered descriptor.

## Main definitions

* `Epoll.CapacityLaw`, `IoUring.CapacityLaw`: the law at a state and a descriptor.
* `IoUring.filledRing`: the poller after the registration of the first descriptors.

## Main results

* `Epoll.register_eq_enospc_iff`, `IoUring.register_eq_enospc_iff`: when a registration is refused.
* `capacity_law_iff`: the law holds of the epoll table unless a new descriptor meets a table with
  tombstones and no empty slot, and of the io_uring table unless a registered descriptor meets a
  full table.
* `capacity_law_fails`.
-/

namespace MojitoSys.Io

/-! ### The epoll table -/

namespace Epoll

open Epoller

/-- The live slots of the table. -/
def live (p : Epoller) : Finset ℕ := (Finset.range CAP).filter fun i => 0 ≤ p.tableFd i

/-- A registration with valid arguments, on a kernel that does not run out of watches itself, is
refused for lack of room exactly when the descriptor is not registered and every slot is live. -/
def CapacityLaw (p : Epoller) (fd : Fd) : Prop :=
  ∀ f₁ f₂ : Option Fail, (∀ f ∈ f₁, f.errno ≠ .ENOSPC) → (∀ f ∈ f₂, f.errno ≠ .ENOSPC) →
    ∀ interests token, checkInterests interests = none →
      ((p.register f₁ f₂ fd interests token).1 = some .ENOSPC ↔
        (∀ i, i < CAP → p.tableFd i ≠ fd) ∧ (live p).card = CAP)

variable {p : Epoller} {fd : Fd}

theorem card_live_eq_iff : (live p).card = CAP ↔ ∀ i, i < CAP → 0 ≤ p.tableFd i := by
  have h := Finset.card_filter_eq_iff (s := Finset.range CAP) (p := fun i => 0 ≤ p.tableFd i)
  simpa [live] using h

/-- The status of the kernel part is one of its two errors, or that the entry is listed. -/
theorem addOrMod_ne_enospc {f₁ f₂ : Option Fail} (h₁ : ∀ f ∈ f₁, f.errno ≠ .ENOSPC)
    (h₂ : ∀ f ∈ f₂, f.errno ≠ .ENOSPC) (fd : Fd) (interests : Mask) :
    (p.addOrMod f₁ f₂ fd interests true).1 ≠ some .ENOSPC := by
  have hctl (f : Option Fail) (hf : ∀ f' ∈ f, f'.errno ≠ .ENOSPC) (op : CtlOp) (hop : op ≠ .del) :
      (p.ctl f op fd interests).1 ≠ some .ENOSPC := by
    cases op with
    | del => exact absurd rfl hop
    | add | mod =>
      cases f with
      | some f => simpa [ctl, epollCtl] using hf f rfl
      | none => cases hk : p.kernel fd <;> simp [ctl, epollCtl, hk]
  unfold addOrMod
  rcases ctl_cases p f₁ .add fd interests (by decide) with ⟨err, h⟩ | h
  · have hne := hctl f₁ h₁ .add (by decide)
    simp only [if_true, h] at hne ⊢
    by_cases he : err = .EEXIST
    · subst he
      exact hctl f₂ h₂ .mod (by decide)
    · cases err <;> simp_all
  · simp [h]

/-- A registration is refused for lack of room exactly when the probe returns the sentinel. -/
theorem register_eq_enospc_iff {f₁ f₂ : Option Fail} (h₁ : ∀ f ∈ f₁, f.errno ≠ .ENOSPC)
    (h₂ : ∀ f ∈ f₂, f.errno ≠ .ENOSPC) (hfd : 0 ≤ fd) {interests : Mask}
    (hint : checkInterests interests = none) (token : Token) :
    (p.register f₁ f₂ fd interests token).1 = some .ENOSPC ↔ CAP ≤ p.slot fd := by
  have hneg : ¬ fd < 0 := Int.not_lt.mpr hfd
  have hne := addOrMod_ne_enospc (p := p) h₁ h₂ fd interests
  unfold register Epoller.set
  simp only [hint, if_neg hneg]
  split_ifs with hs
  · exact iff_of_true rfl hs
  · refine iff_of_false ?_ hs
    rcases h : p.addOrMod f₁ f₂ fd interests true with ⟨_ | err, q⟩
    · simp
    · rwa [h] at hne

/-- The law fails of the epoll table exactly on a new descriptor that meets deleted slots and no
empty one. -/
theorem capacityLaw_iff {log : List Entry} (hr : Run log p) (hfd : 0 ≤ fd) :
    CapacityLaw p fd ↔ (∃ i, i < CAP ∧ p.tableFd i = fd) ∨ (∃ i, i < CAP ∧ p.tableFd i = -1) ∨
      ∀ i, i < CAP → 0 ≤ p.tableFd i := by
  have hreach := (tableInv_run hr).reach
  have hslot := slot_lt_iff hreach hfd
  constructor
  · intro hlaw
    by_contra hno
    push Not at hno
    obtain ⟨habs, hfull, i, hi, hdead⟩ := hno
    have hcap : CAP ≤ p.slot fd := (slot_of_full habs hfull).ge
    have hint : checkInterests READABLE = none := by decide
    have hrefused : (p.register none none fd READABLE 0).1 = some .ENOSPC :=
      (register_eq_enospc_iff (by simp) (by simp) hfd hint 0).mpr hcap
    have hlive := ((hlaw none none (by simp) (by simp) READABLE 0 hint).mp hrefused).2
    exact absurd (card_live_eq_iff.mp hlive i hi) (Int.not_le.mpr hdead)
  · intro hcond f₁ f₂ h₁ h₂ interests token hint
    rw [register_eq_enospc_iff h₁ h₂ hfd hint, card_live_eq_iff, ← Nat.not_lt, hslot]
    rcases hcond with ⟨i, hi, hti⟩ | ⟨i, hi, hti⟩ | hall
    · exact iff_of_false (fun h => h (Or.inl ⟨i, hi, hti⟩)) fun h => h.1 i hi hti
    · refine iff_of_false (fun h => h (Or.inr ⟨i, hi, hti⟩)) fun h => ?_
      have hlive := h.2 i hi
      rw [hti] at hlive
      exact absurd hlive (by decide)
    · have hempty : ¬ ∃ i, i < CAP ∧ p.tableFd i = -1 := by
        rintro ⟨i, hi, hti⟩
        have hlive := hall i hi
        rw [hti] at hlive
        exact absurd hlive (by decide)
      simp only [hempty, or_false, not_exists, not_and]
      exact ⟨fun h => ⟨h, hall⟩, And.left⟩

/-- The full table after descriptor `0` is unregistered. -/
def holed : Epoller := bury (filled CAP) 0 (Function.update (filled CAP).kernel 0 none)

theorem filled_zero : (filled CAP).tableFd 0 = 0 := by decide

theorem slot_filled_zero : (filled CAP).slot 0 = 0 := by
  obtain ⟨log, hr⟩ := run_filled CAP (Nat.le_refl _)
  exact slot_of_holds (tableInv_run hr).reach (by decide) (by decide) filled_zero

theorem run_holed : ∃ log, Run log holed := by
  obtain ⟨log, hr⟩ := run_filled CAP (Nat.le_refl _)
  have hk : (filled CAP).kernel 0 = some 0x2001 := by decide
  have hun : (filled CAP).unregister none 0 = some (none, holed) := by
    have hlt : ¬ CAP ≤ (filled CAP).slot 0 := by
      rw [slot_filled_zero]
      decide
    rw [unregister_eq (filled CAP) none (Int.le_refl 0), if_neg hlt]
    simp [ctl, epollCtl, hk, holed]
  exact ⟨_, hr.step (.unregister (fun _ => Or.inl ⟨0, by decide, filled_zero⟩) hun)⟩

theorem holed_tableFd {i : ℕ} (hi : i < CAP) :
    holed.tableFd i = if i = 0 then TOMB else homed256 i := by
  simp [holed, bury, slot_filled_zero, filled_zero, Function.update_apply, filled_tableFd hi]

end Epoll

/-! ### The io_uring table -/

namespace IoUring

open Uring

/-- A registration with valid arguments, on a kernel that does not return the error itself, is
refused for lack of room exactly when the descriptor is not registered and every slot is live. -/
def CapacityLaw (r : Uring) (fd : Fd) : Prop :=
  ∀ e₁ e₂ : Enter, e₁.error ≠ some .ENOSPC → e₂.error ≠ some .ENOSPC →
    ∀ interests token, checkInterests interests = none →
      ((r.register e₁ e₂ fd interests token).1 = some .ENOSPC ↔
        (∀ i, i < r.cap → r.fds i ≠ fd) ∧ r.live.card = r.cap)

variable {r : Uring} {fd : Fd}

theorem submit_ne_enospc {e : Enter} (he : e.error ≠ some .ENOSPC) (r : Uring) (n : ℕ) :
    (r.submit e n).1 ≠ some .ENOSPC := by
  unfold submit
  split
  · simp
  · exact he

theorem submitPollAdd_ne_enospc {e₁ e₂ : Enter} (h₁ : e₁.error ≠ some .ENOSPC)
    (h₂ : e₂.error ≠ some .ENOSPC) (r : Uring) (op : Sqe) :
    (r.submitPollAdd e₁ e₂ op).1 ≠ some .ENOSPC := by
  unfold submitPollAdd
  cases r.stage op with
  | some q => exact submit_ne_enospc h₂ q 0
  | none =>
    have hflush := submit_ne_enospc h₁ r 0
    simp only
    rcases hs : r.submit e₁ 0 with ⟨_ | err, q⟩
    · simp only
      cases q.stage op with
      | none => simp
      | some q' => exact submit_ne_enospc h₂ q' 0
    · rwa [hs] at hflush

theorem registerUpsert_ne_enospc {e : Enter} (he : e.error ≠ some .ENOSPC) (r : Uring) (slot : ℕ)
    (fd : Fd) (interests : Mask) (token : Token) (seq : ℕ) :
    (r.registerUpsert e slot fd interests token seq).1 ≠ some .ENOSPC := by
  unfold registerUpsert
  cases r.stage (.pollRemove (r.seqs slot)) with
  | none => simp
  | some q =>
    simp only
    cases q.stage (.pollAdd fd (interestsToPoll interests) seq) with
    | none => simp
    | some q' =>
      have hsub := submit_ne_enospc he q' 0
      simp only
      rcases hs : q'.submit e 0 with ⟨_ | err, q''⟩
      · simp
      · rwa [hs] at hsub

theorem registerNew_ne_enospc {e₁ e₂ : Enter} (h₁ : e₁.error ≠ some .ENOSPC)
    (h₂ : e₂.error ≠ some .ENOSPC) (r : Uring) (slot : ℕ) (fd : Fd) (interests : Mask)
    (token : Token) (seq : ℕ) :
    (r.registerNew e₁ e₂ slot fd interests token seq).1 ≠ some .ENOSPC := by
  have hsub := submitPollAdd_ne_enospc h₁ h₂ r (.pollAdd fd (interestsToPoll interests) seq)
  unfold registerNew
  rcases hs : r.submitPollAdd e₁ e₂ (.pollAdd fd (interestsToPoll interests) seq) with
    ⟨_ | err, q⟩
  · simp
  · rwa [hs] at hsub

/-- A registration is refused for lack of room exactly when the count has reached the capacity,
whether or not the descriptor is registered. -/
theorem register_eq_enospc_iff {e₁ e₂ : Enter} (h₁ : e₁.error ≠ some .ENOSPC)
    (h₂ : e₂.error ≠ some .ENOSPC) (hfd : 0 ≤ fd) {interests : Mask}
    (hint : checkInterests interests = none) (token : Token) :
    (r.register e₁ e₂ fd interests token).1 = some .ENOSPC ↔ r.cap ≤ r.count := by
  have hneg : ¬ fd < 0 := Int.not_lt.mpr hfd
  unfold register
  simp only [hint, if_neg hneg]
  split_ifs with hc hslot
  · exact iff_of_true rfl hc
  · exact iff_of_false (registerUpsert_ne_enospc h₂ _ _ _ _ _ _) hc
  · exact iff_of_false (registerNew_ne_enospc h₁ h₂ _ _ _ _ _ _) hc

theorem card_live_le (r : Uring) : r.live.card ≤ r.cap := by
  simpa [live] using Finset.card_filter_le (Finset.range r.cap) fun i => 0 ≤ r.fds i

/-- The law fails of the io_uring table exactly on a registered descriptor that meets a full
table. -/
theorem capacityLaw_iff (hr : Run r) (hfd : 0 ≤ fd) :
    CapacityLaw r fd ↔ (∀ i, i < r.cap → r.fds i ≠ fd) ∨ r.live.card < r.cap := by
  obtain ⟨hist, ht⟩ := TableRun.exists_tableRun hr
  have hcount := ht.shape.count
  have hle := card_live_le r
  constructor
  · intro hlaw
    by_contra hno
    push Not at hno
    obtain ⟨⟨i, hi, hti⟩, hfull⟩ := hno
    have hint : checkInterests READABLE = none := by decide
    have hrefused : (r.register ⟨0, none⟩ ⟨0, none⟩ fd READABLE 0).1 = some .ENOSPC :=
      (register_eq_enospc_iff (by simp) (by simp) hfd hint 0).mpr (hcount ▸ hfull)
    exact ((hlaw ⟨0, none⟩ ⟨0, none⟩ (by simp) (by simp) READABLE 0 hint).mp hrefused).1 i hi hti
  · intro hcond e₁ e₂ h₁ h₂ interests token hint
    rw [register_eq_enospc_iff h₁ h₂ hfd hint, hcount]
    rcases hcond with habs | hroom
    · exact ⟨fun h => ⟨habs, Nat.le_antisymm hle h⟩, fun h => h.2.ge⟩
    · exact iff_of_false (by omega) fun h => by omega

/-- The descriptor whose home slot is `i` in a table of `128` slots. -/
def homed128 (i : ℕ) : ℕ := i * 81 % 128

theorem uringHash_natCast (n : ℕ) : uringHash 128 n = n * 2654435761 % 128 := by
  have hcap : 128 = 2 ^ 7 := by decide
  rw [uringHash, Int.toNat_natCast, Util.Probing.and_mask_eq_mod hcap,
    Nat.mod_mod_of_dvd _ (by decide), Nat.mod_mod_of_dvd _ (by decide)]

theorem homed128_hash {n : ℕ} (hn : n < 128) : homed128 (uringHash 128 n) = n := by
  rw [uringHash_natCast, homed128]
  omega

theorem hash_homed128 {i : ℕ} (hi : i < 128) : uringHash 128 (homed128 i : ℕ) = i := by
  rw [uringHash_natCast, homed128]
  omega

/-- The poller of `128` entries with the descriptors below `n` registered for reading and armed. The
descriptor of its eventfd is `1000`. -/
def filledRing (n : ℕ) : Uring where
  sqEntries := 128
  cap := 128
  fds i := if i < 128 ∧ homed128 i < n then homed128 i else -1
  seqs i := if i < 128 ∧ homed128 i < n then FIRST_SEQ + homed128 i else 0
  toks _ := 0
  ints i := if i < 128 ∧ homed128 i < n then READABLE else 0
  count := n
  nextSeq := FIRST_SEQ + n
  wakeFd := 1000
  wakeArmed := true
  timeoutArmed := false
  staged := []
  inflight := .pollAdd 1000 0x1 WAKE ::
    (List.range n).map fun k : ℕ => .pollAdd k (interestsToPoll READABLE) (FIRST_SEQ + k)
  cq := []

theorem start_filledRing : Start (filledRing 0) where
  sqEntries := ⟨7, rfl⟩
  cap := rfl
  fds _ := by simp [filledRing]
  count := rfl
  nextSeq := rfl
  armed := ⟨rfl, rfl⟩
  outstanding := rfl
  cq := rfl

/-- The next descriptor goes to its home slot. -/
theorem uringSlot_filledRing {n : ℕ} (hn : n < 128) :
    (filledRing n).uringSlot n = uringHash 128 n := by
  have hempty : (filledRing n).fds (uringHash 128 n) = -1 := by
    simp [filledRing, homed128_hash hn]
  change Util.Probing.scan _ _ (127 + 1) (uringHash 128 n) = uringHash 128 n
  rw [Util.Probing.scan, if_pos (Or.inl hempty)]

theorem register_filledRing {n : ℕ} (hn : n < 128) :
    (filledRing n).register ⟨128, none⟩ ⟨128, none⟩ n READABLE 0 = (none, filledRing (n + 1)) := by
  have hlt : uringHash 128 n < 128 := by
    rw [uringHash_natCast]
    exact Nat.mod_lt _ (by decide)
  have hwhere (i : ℕ) (hi : i < 128) : i = uringHash 128 n ↔ homed128 i = n :=
    ⟨fun h => h ▸ homed128_hash hn, fun h => by rw [← hash_homed128 hi, h]⟩
  have hupdate {α : Type} (f g : ℕ → α) (v : α) (hself : ∀ i < 128, homed128 i = n → g i = v)
      (hother : ∀ i, ¬ (i < 128 ∧ homed128 i = n) → g i = f i) :
      Function.update f (uringHash 128 n) v = g := by
    funext i
    rw [Function.update_apply]
    split_ifs with hi
    · exact (hself i (hi ▸ hlt) ((hwhere i (hi ▸ hlt)).mp hi)).symm
    · exact (hother i fun h => hi ((hwhere i h.1).mpr h.2)).symm
  have hbelow (i : ℕ) (hi : ¬ (i < 128 ∧ homed128 i = n)) :
      i < 128 ∧ homed128 i < n + 1 ↔ i < 128 ∧ homed128 i < n := by omega
  have hint : checkInterests READABLE = none := by decide
  have hneg : ¬ ((n : ℕ) : ℤ) < 0 := by omega
  have hroom : ¬ (filledRing n).cap ≤ (filledRing n).count := Nat.not_le.mpr hn
  have hne : (filledRing n).draw.fds (uringHash 128 n) ≠ n := by
    simp [filledRing, draw, homed128_hash hn]
  have hseq : (filledRing n).uringNextSeq = FIRST_SEQ + n := by
    simp only [uringNextSeq, filledRing, FIRST_SEQ]
    omega
  unfold register
  simp only [hint, if_neg hneg, if_neg hroom, uringSlot_filledRing hn, if_neg hne, hseq]
  have hsub : (filledRing n).draw.submitPollAdd ⟨128, none⟩ ⟨128, none⟩
      (.pollAdd n (interestsToPoll READABLE) (FIRST_SEQ + n)) =
        (none, { (filledRing n).draw with inflight := (filledRing (n + 1)).inflight }) := by
    simp [submitPollAdd, stage, submit, enter, draw, filledRing, List.range_succ]
  rw [registerNew, hsub]
  refine congrArg (Prod.mk none) ?_
  simp only [draw, setSlot, filledRing, Uring.mk.injEq, true_and, and_true]
  refine ⟨?_, ?_, ?_, ?_, rfl⟩
  · refine hupdate _ _ _ (fun i hi h => ?_) fun i hi => if_congr (hbelow i hi) rfl rfl
    simp [hi, h]
  · refine hupdate _ _ _ (fun i hi h => ?_) fun i hi => if_congr (hbelow i hi) rfl rfl
    simp [hi, h]
  · exact hupdate _ _ _ (fun _ _ _ => rfl) fun _ _ => rfl
  · refine hupdate _ _ _ (fun i hi h => ?_) fun i hi => if_congr (hbelow i hi) rfl rfl
    simp [hi, h]

/-- The fillings are reachable. -/
theorem run_filledRing : ∀ n ≤ 128, Run (filledRing n)
  | 0, _ => .start start_filledRing
  | n + 1, hn => by
    have hr := run_filledRing n (Nat.le_of_succ_le hn)
    have hs := Step.register (r := filledRing n) ⟨128, none⟩ ⟨128, none⟩ n READABLE 0
    rw [register_filledRing hn] at hs
    exact hr.step hs

end IoUring

/-! ### The law -/

/-- In every reachable state of an epoll poller, the capacity law holds of a descriptor exactly when
the table holds it, or a slot was never used, or all slots are live. In every reachable state of an
io_uring poller, it holds exactly when the descriptor is not registered or a slot is free. -/
theorem capacity_law_iff {fd : Fd} (hfd : 0 ≤ fd) :
    (∀ log p, Epoll.Run log p →
      (Epoll.CapacityLaw p fd ↔
        (∃ i, i < Epoll.CAP ∧ p.tableFd i = fd) ∨ (∃ i, i < Epoll.CAP ∧ p.tableFd i = -1) ∨
          ∀ i, i < Epoll.CAP → 0 ≤ p.tableFd i)) ∧
    ∀ r, IoUring.Run r →
      (IoUring.CapacityLaw r fd ↔ (∀ i, i < r.cap → r.fds i ≠ fd) ∨ r.live.card < r.cap) :=
  ⟨fun _ _ hr => Epoll.capacityLaw_iff hr hfd, fun _ hr => IoUring.capacityLaw_iff hr hfd⟩

/-- A table of `256` live descriptors refuses descriptor `256` and takes descriptor `0` again; an
io_uring table with one free slot takes both a new and a registered descriptor. -/
theorem capacity_law_near_full :
    Epoll.CapacityLaw (Epoll.filled Epoll.CAP) 256 ∧ Epoll.CapacityLaw (Epoll.filled Epoll.CAP) 0 ∧
      IoUring.CapacityLaw (IoUring.filledRing 127) 127 ∧
      IoUring.CapacityLaw (IoUring.filledRing 127) 0 := by
  obtain ⟨log, hr⟩ := Epoll.run_filled Epoll.CAP (Nat.le_refl _)
  have hu := IoUring.run_filledRing 127 (by decide)
  have hcard : (IoUring.filledRing 127).live.card < (IoUring.filledRing 127).cap := by
    decide +kernel
  refine ⟨((capacity_law_iff (by decide)).1 _ _ hr).mpr (Or.inr (Or.inr fun i hi => ?_)),
    ((capacity_law_iff (by decide)).1 _ _ hr).mpr (Or.inl ⟨0, by decide, Epoll.filled_zero⟩),
    ((capacity_law_iff (by decide)).2 _ hu).mpr (Or.inr hcard),
    ((capacity_law_iff (by decide)).2 _ hu).mpr (Or.inr hcard)⟩
  rw [Epoll.filled_tableFd hi]
  exact Int.natCast_nonneg _

/-- With `255` descriptors live and one slot deleted, the epoll table refuses the new descriptor
`256`; with `128` descriptors live, the io_uring table refuses the live descriptor `0`. -/
theorem capacity_law_fails :
    (∃ log, Epoll.Run log Epoll.holed ∧
      (Epoll.holed.register none none 256 READABLE 7).1 = some .ENOSPC ∧
      (Epoll.live Epoll.holed).card < Epoll.CAP) ∧
    IoUring.Run (IoUring.filledRing 128) ∧
      ((IoUring.filledRing 128).register ⟨0, none⟩ ⟨2, none⟩ 0 READABLE 7).1 = some .ENOSPC ∧
      ∃ i, i < 128 ∧ (IoUring.filledRing 128).fds i = 0 := by
  obtain ⟨log, hr⟩ := Epoll.run_holed
  refine ⟨⟨log, hr, ?_, ?_⟩, IoUring.run_filledRing 128 (Nat.le_refl _), rfl, 0, by decide, rfl⟩
  · have hslot : Epoll.holed.slot 256 = Epoll.CAP := by
      refine Epoll.slot_of_full (fun i hi => ?_) fun i hi => ?_ <;> rw [Epoll.holed_tableFd hi]
      · have hlt : Epoll.homed256 i < 256 := Nat.mod_lt _ (by decide)
        split_ifs
        · decide
        · exact_mod_cast Nat.ne_of_lt hlt
      · split_ifs
        · decide
        · exact fun h => absurd h (by simp)
    exact (Epoll.register_eq_enospc_iff (by simp) (by simp) (by decide) (by decide) 7).mpr hslot.ge
  · refine Nat.lt_of_le_of_ne ?_ fun h => ?_
    · simpa [Epoll.live] using Finset.card_filter_le (Finset.range Epoll.CAP) _
    · have hzero := Epoll.card_live_eq_iff.mp h 0 (by decide)
      rw [Epoll.holed_tableFd (by decide)] at hzero
      exact absurd hzero (by decide)

end MojitoSys.Io
