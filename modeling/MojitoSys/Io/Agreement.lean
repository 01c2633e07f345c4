import MojitoSys.Io.EpollTable
import MojitoSys.Io.Kqueue
import MojitoSys.Io.UringTable

/-!
# Agreement of the three backends

The same calls are made on the three backends, over kernels that do not fail, on open descriptors
and below the capacity of the io_uring table. Each backend implements the registry as long as a call
avoids its defect, so the three return the same status and hold the same registrations.

kqueue has no condition. In epoll, a modification passes `EPOLL_CTL_MOD` to the kernel and fails on
a descriptor that is not registered, and the table loses a never-used slot with every tombstone, so
a call on a new descriptor needs an empty slot. In io_uring, the lookup must find the descriptor if
the table holds it.

## Main definitions

* `Epoll.Epoller.Implements`, `IoUring.Uring.Implements`: the two tables of a registry.
* `Backends`, `Backends.Avoids`, `Backends.Run`: the three pollers, the calls that avoid the
  defects, and the runs.

## Main results

* `Epoll.Epoller.Implements.call`, `IoUring.Uring.Implements.call`: a call that avoids the defect
  has the status and the effect of the registry.
* `backends_agree`: the backends agree along every run whose calls avoid the defects.
* `backends_disagree`: a modification before any registration.
-/

namespace MojitoSys.Io

/-! ### epoll -/

namespace Epoll

open Epoller

/-- The table holds the descriptor. -/
def Epoller.Has (p : Epoller) (fd : Fd) : Prop := ∃ i, i < CAP ∧ p.tableFd i = fd

/-- A slot was never used. -/
def Epoller.HasEmpty (p : Epoller) : Prop := ∃ i, i < CAP ∧ p.tableFd i = -1

/-- A call on a kernel that does not fail. -/
def Epoller.call (p : Epoller) : Op → Option (Status × Epoller)
  | .register fd interests token => some (p.register none none fd interests token)
  | .modify fd interests token => some (p.modify none fd interests token)
  | .unregister fd => p.unregister none fd

/-- The call modifies registered descriptors only, and has a slot. -/
def Epoller.Avoids (p : Epoller) : Op → Prop
  | .register fd interests _ => checkInterests interests = none → p.Has fd ∨ p.HasEmpty
  | .modify fd interests _ => checkInterests interests = none → p.Has fd
  | .unregister fd => p.Has fd ∨ p.HasEmpty

/-- The table and the kernel hold a registration. -/
def Epoller.Registered (p : Epoller) (fd : Fd) (interests : Mask) (token : Token) : Prop :=
  Holds p fd token ∧ p.kernel fd = some (watched interests) ∧ checkInterests interests = none

/-- The table and the interest list are those of the registry. -/
structure Epoller.Implements (p : Epoller) (m : Registry) : Prop where
  reach : Reachable p.tableFd
  table : ∀ fd, 0 ≤ fd → ∀ token, Holds p fd token ↔ ∃ interests, m fd = some (interests, token)
  kernel : ∀ fd interests token, 0 ≤ fd → m fd = some (interests, token) →
    p.kernel fd = some (watched interests)

variable {p : Epoller} {m : Registry} {fd : Fd} {interests : Mask} {token : Token}

theorem slot_lt (hr : Reachable p.tableFd) (hfd : 0 ≤ fd) (h : p.Has fd ∨ p.HasEmpty) :
    p.slot fd < CAP := by
  by_cases habs : ∀ j, j < CAP → p.tableFd j ≠ fd
  · have hempty : p.HasEmpty := h.resolve_left fun ⟨i, hi, hti⟩ => habs i hi hti
    obtain ⟨e, he, ⟨hse, -⟩ | ⟨hlt, -⟩⟩ := slot_of_absent habs hempty
    · rw [hse]
      exact he.1
    · exact hlt
  · push Not at habs
    obtain ⟨i, hi, hti⟩ := habs
    rwa [slot_of_holds hr hfd hi hti]

/-- On a kernel that does not fail, an upsert succeeds, and so does a modification of a watched
descriptor. -/
theorem addOrMod_none {isAdd : Bool} (h : isAdd = true ∨ p.kernel fd ≠ none) :
    p.addOrMod none none fd interests isAdd =
      (none, { p with kernel := Function.update p.kernel fd (some (watched interests)) }) := by
  cases isAdd <;> cases hk : p.kernel fd <;> simp_all [addOrMod, ctl, epollCtl]

theorem set_none {isAdd : Bool} (hc : checkInterests interests = none) (hfd : 0 ≤ fd)
    (hs : p.slot fd < CAP) (h : isAdd = true ∨ p.kernel fd ≠ none) :
    p.set none none fd interests token isAdd = (none, put p fd interests token) := by
  have hneg : ¬ fd < 0 := Int.not_lt.mpr hfd
  unfold Epoller.set
  simp only [hc, if_neg hneg, if_neg (Nat.not_le.mpr hs), addOrMod_none h]
  rfl

/-- On a kernel that does not fail, an unregistration returns `0`. -/
theorem ctl_del_none (p : Epoller) (fd : Fd) : (p.ctl none .del fd 0).1 = none := by
  cases hk : p.kernel fd <;> simp [ctl, epollCtl, hk]

theorem Epoller.Implements.put (hp : p.Implements m) (hfd : 0 ≤ fd) (hs : p.slot fd < CAP) :
    (put p fd interests token).Implements (Function.update m fd (some (interests, token))) where
  reach := hp.reach.put hfd hs
  table x hx tok := by
    by_cases hne : fd = x
    · subst hne
      rw [holds_put_self hp.reach hfd hs, Function.update_self]
      simp
    · rw [holds_put_of_ne hp.reach hfd hs hx hne, hp.table x hx,
        Function.update_of_ne (Ne.symm hne)]
  kernel x i t hx h := by
    by_cases hne : x = fd
    · subst hne
      rw [Function.update_self] at h
      cases h
      exact Function.update_self _ _ _
    · rw [Function.update_of_ne hne] at h
      simpa [Epoll.put, hne] using hp.kernel x i t hx h

theorem Epoller.Implements.bury (hp : p.Implements m) (hfd : 0 ≤ fd) (hs : p.slot fd < CAP) :
    (bury p fd (p.ctl none .del fd 0).2.kernel).Implements (Function.update m fd none) where
  reach := hp.reach.bury fd _
  table x hx tok := by
    rw [holds_bury hp.reach hfd hs hx, hp.table x hx]
    by_cases hne : x = fd
    · simp [hne]
    · simp [hne, Ne.symm hne]
  kernel x i t hx h := by
    by_cases hne : x = fd
    · rw [hne, Function.update_self] at h
      cases h
    · rw [Function.update_of_ne hne] at h
      have hk := hp.kernel x i t hx h
      rcases ctl_del_cases p none fd 0 with hd | hd
      · rwa [Epoll.bury, hd]
      · rw [Epoll.bury, hd]
        exact (Function.update_of_ne hne _ _).trans hk

/-- A registered descriptor is in the table and watched. -/
theorem Epoller.Implements.watched_of_has (hp : p.Implements m) (hfd : 0 ≤ fd) (h : p.Has fd) :
    p.kernel fd ≠ none := by
  obtain ⟨i, hi, hti⟩ := h
  obtain ⟨interests, hm⟩ := (hp.table fd hfd _).mp ⟨i, hi, hti, rfl⟩
  rw [hp.kernel fd interests _ hfd hm]
  simp

/-- A registration or modification that gets a slot, and that the kernel accepts, is an upsert. -/
theorem Epoller.Implements.set (hp : p.Implements m) (isAdd : Bool) (hfd : 0 ≤ fd)
    (h : checkInterests interests = none →
      p.slot fd < CAP ∧ (isAdd = true ∨ p.kernel fd ≠ none)) :
    ∃ p', p.set none none fd interests token isAdd = (checkInterests interests, p') ∧
      p'.Implements ((Op.register fd interests token).apply m) := by
  cases hc : checkInterests interests with
  | some err => exact ⟨p, by simp [Epoller.set, hc], by simpa [Op.apply, hc] using hp⟩
  | none =>
    obtain ⟨hs, hk⟩ := h hc
    exact ⟨_, set_none hc hfd hs hk, by simpa [Op.apply, hc] using hp.put hfd hs⟩

/-- A call that avoids the defect has the status and the effect of the registry. -/
theorem Epoller.Implements.call (hp : p.Implements m) (op : Op) (hfd : 0 ≤ op.fd)
    (h : p.Avoids op) :
    ∃ p', p.call op = some (op.status, p') ∧ p'.Implements (op.apply m) := by
  cases op with
  | register fd interests token =>
    obtain ⟨p', hset, hp'⟩ := hp.set true hfd
      fun hc => ⟨slot_lt hp.reach hfd (h hc), Or.inl rfl⟩
    exact ⟨p', congrArg some hset, hp'⟩
  | modify fd interests token =>
    obtain ⟨p', hset, hp'⟩ := hp.set false hfd
      fun hc => ⟨slot_lt hp.reach hfd (Or.inl (h hc)), Or.inr (hp.watched_of_has hfd (h hc))⟩
    exact ⟨p', congrArg some hset, hp'⟩
  | unregister fd =>
    replace hfd : 0 ≤ fd := hfd
    have hs := slot_lt hp.reach hfd h
    refine ⟨_, ?_, hp.bury hfd hs⟩
    rw [Epoller.call, unregister_eq p none hfd, if_neg (Nat.not_le.mpr hs), ctl_del_none]
    rfl

/-- The watched events determine valid interests. -/
theorem watched_inj {i j : Mask} (hi : checkInterests i = none) (hj : checkInterests j = none)
    (h : watched i = watched j) : i = j := by
  rcases checkInterests_eq_none hi with rfl | rfl | rfl <;>
    rcases checkInterests_eq_none hj with rfl | rfl | rfl <;> revert h <;> decide

/-- The table and the kernel determine the registry. -/
theorem Epoller.Implements.registered_iff (hp : p.Implements m) (hm : m.Valid) (hfd : 0 ≤ fd) :
    p.Registered fd interests token ↔ m fd = some (interests, token) := by
  constructor
  · rintro ⟨hh, hk, hc⟩
    obtain ⟨i, hi⟩ := (hp.table fd hfd token).mp hh
    have hw := hp.kernel fd i token hfd hi
    rw [hk] at hw
    rw [hi, watched_inj hc (hm fd i token hi) (Option.some.inj hw)]
  · intro h
    exact ⟨(hp.table fd hfd token).mpr ⟨interests, h⟩, hp.kernel fd interests token hfd h,
      hm fd interests token h⟩

end Epoll

/-! ### io_uring -/

namespace IoUring

open Uring

/-- The `ioring_enter` call succeeds and consumes every staged entry. -/
def Whole (r : Uring) (e : Enter) : Prop := e.error = none ∧ r.sqEntries ≤ e.consumed

namespace Uring

/-- A call, with the ends of its `ioring_enter` calls. -/
def call (r : Uring) (e₁ e₂ : Enter) : Op → Status × Uring
  | .register fd interests token => r.register e₁ e₂ fd interests token
  | .modify fd interests token => r.modify e₁ e₂ fd interests token
  | .unregister fd => r.unregister e₂ fd

/-- The table holds the descriptor. -/
def Has (r : Uring) (fd : Fd) : Prop := ∃ i, i < r.cap ∧ r.fds i = fd

/-- The lookup finds the descriptor if the table holds it. -/
def Found (r : Uring) (fd : Fd) : Prop := r.Has fd → r.fds (r.uringSlot fd) = fd

/-- The call looks up its descriptor, and finds it if the table holds it. -/
def Avoids (r : Uring) : Op → Prop
  | .register fd interests _ | .modify fd interests _ =>
    checkInterests interests = none → r.Found fd
  | .unregister fd => r.Found fd

/-- The table holds a registration. -/
def Registered (r : Uring) (fd : Fd) (interests : Mask) (token : Token) : Prop :=
  ∃ i, i < r.cap ∧ r.fds i = fd ∧ r.ints i = interests ∧ r.toks i = token

/-- The table is that of the registry, and the kernel consumed every staged entry. -/
structure Implements (r : Uring) (m : Registry) : Prop where
  shape : Shape r
  sqEntries : 2 ≤ r.sqEntries
  staged : r.staged = []
  unique : ∀ i j, i < r.cap → j < r.cap → 0 ≤ r.fds i → r.fds i = r.fds j → i = j
  table : ∀ fd, 0 ≤ fd → ∀ interests token,
    r.Registered fd interests token ↔ m fd = some (interests, token)

variable {r r' : Uring} {m : Registry} {fd : Fd} {interests : Mask} {token : Token} {slot : ℕ}
  {e e₁ e₂ : Enter}

/-- The two tables have the same slots but for one. -/
structure SameSlots (slot : ℕ) (r r' : Uring) : Prop where
  cap : r'.cap = r.cap
  fds : ∀ k, k ≠ slot → r'.fds k = r.fds k
  ints : ∀ k, k ≠ slot → r'.ints k = r.ints k
  toks : ∀ k, k ≠ slot → r'.toks k = r.toks k

theorem SameSlots.symm (h : SameSlots slot r r') : SameSlots slot r' r where
  cap := h.cap.symm
  fds k hk := (h.fds k hk).symm
  ints k hk := (h.ints k hk).symm
  toks k hk := (h.toks k hk).symm

theorem SameSlots.registered (h : SameSlots slot r r') (hne : r.fds slot ≠ fd)
    (hr : r.Registered fd interests token) : r'.Registered fd interests token := by
  obtain ⟨k, hk, hfd, hi, ht⟩ := hr
  have hks : k ≠ slot := by
    rintro rfl
    exact hne hfd
  exact ⟨k, h.cap ▸ hk, (h.fds k hks).trans hfd, (h.ints k hks).trans hi, (h.toks k hks).trans ht⟩

/-- A descriptor that the slot holds neither before nor after keeps its registration. -/
theorem SameSlots.registered_iff (h : SameSlots slot r r') (hne : r.fds slot ≠ fd)
    (hne' : r'.fds slot ≠ fd) :
    r'.Registered fd interests token ↔ r.Registered fd interests token :=
  ⟨h.symm.registered hne', h.registered hne⟩

/-- The live slots of the changed table are distinct if the new descriptor is in no other slot. -/
theorem SameSlots.unique (h : SameSlots slot r r')
    (hr : ∀ i j, i < r.cap → j < r.cap → 0 ≤ r.fds i → r.fds i = r.fds j → i = j)
    (hother : ∀ i, i < r.cap → i ≠ slot → 0 ≤ r.fds i → r.fds i ≠ r'.fds slot) :
    ∀ i j, i < r'.cap → j < r'.cap → 0 ≤ r'.fds i → r'.fds i = r'.fds j → i = j := by
  intro i j hi hj hl he
  rw [h.cap] at hi hj
  by_cases his : i = slot <;> by_cases hjs : j = slot
  · rw [his, hjs]
  · rw [he, h.fds j hjs] at hl
    rw [his, h.fds j hjs] at he
    exact absurd he.symm (hother j hj hjs hl)
  · rw [h.fds i his] at hl
    rw [hjs, h.fds i his] at he
    exact absurd he (hother i hi his hl)
  · rw [h.fds i his] at hl he
    rw [h.fds j hjs] at he
    exact hr i j hi hj hl he

/-- Writing the slot of a descriptor, or an empty one for an absent descriptor, is an upsert. -/
theorem Implements.write (hr : r.Implements m) (h : SameSlots slot r r') (hs' : Shape r')
    (hsq : r'.sqEntries = r.sqEntries) (hst : r'.staged = []) (hfd : 0 ≤ fd) (hslot : slot < r.cap)
    (hold : r.fds slot = fd ∨ r.fds slot = -1 ∧ ¬ r.Has fd)
    (hnew : r'.fds slot = fd ∧ r'.ints slot = interests ∧ r'.toks slot = token) :
    r'.Implements (Function.update m fd (some (interests, token))) := by
  obtain ⟨hself, hint, htok⟩ := hnew
  have hother (i : ℕ) (hi : i < r.cap) (his : i ≠ slot) : r.fds i ≠ fd := by
    intro hif
    rcases hold with hsame | ⟨-, habs⟩
    · exact his (hr.unique i slot hi hslot (hif ▸ hfd) (hif.trans hsame.symm))
    · exact habs ⟨i, hi, hif⟩
  refine ⟨hs', hsq ▸ hr.sqEntries, hst,
    h.unique hr.unique fun i hi his _ => hself ▸ hother i hi his, fun x hx i t => ?_⟩
  by_cases hne : x = fd
  · subst hne
    rw [Function.update_self]
    constructor
    · rintro ⟨k, hk, hkfd, rfl, rfl⟩
      have hks : k = slot := by
        by_contra hks
        rw [h.fds k hks] at hkfd
        exact hother k (h.cap ▸ hk) hks hkfd
      rw [hks, hint, htok]
    · intro heq
      cases heq
      exact ⟨slot, h.cap ▸ hslot, hself, hint, htok⟩
  · have hne' : r.fds slot ≠ x := by
      rintro rfl
      rcases hold with hsame | ⟨hempty, -⟩
      · exact hne hsame
      · rw [hempty] at hx
        cases hx
    rw [Function.update_of_ne hne, ← hr.table x hx]
    exact h.registered_iff hne' (hself ▸ Ne.symm hne)

/-- Emptying the slot of a descriptor removes its registration. -/
theorem Implements.erase (hr : r.Implements m) (h : SameSlots slot r r') (hs' : Shape r')
    (hsq : r'.sqEntries = r.sqEntries) (hst : r'.staged = []) (hfd : 0 ≤ fd) (hslot : slot < r.cap)
    (hold : r.fds slot = fd) (hnew : r'.fds slot = -1) :
    r'.Implements (Function.update m fd none) := by
  have hlive (x : Fd) (hx : 0 ≤ x) : r'.fds slot ≠ x := by
    rw [hnew]
    rintro rfl
    cases hx
  refine ⟨hs', hsq ▸ hr.sqEntries, hst,
    h.unique hr.unique fun i _ _ hl => Ne.symm (hlive _ hl), fun x hx i t => ?_⟩
  by_cases hne : x = fd
  · subst hne
    rw [Function.update_self]
    refine ⟨?_, fun heq => by cases heq⟩
    rintro ⟨k, hk, hkfd, -, -⟩
    have hks : k ≠ slot := by
      rintro rfl
      exact hlive x hx hkfd
    rw [h.fds k hks] at hkfd
    exact absurd (hr.unique k slot (h.cap ▸ hk) hslot (hkfd ▸ hx) (hkfd.trans hold.symm)) hks
  · rw [Function.update_of_ne hne, ← hr.table x hx]
    exact h.registered_iff (hold ▸ Ne.symm hne) (hlive x hx)

/-- A whole `ioring_enter` call leaves nothing staged. -/
theorem submit_whole (he : Whole r e) (hlen : r.staged.length ≤ r.sqEntries) (hst : r.staged ≠ []) :
    r.submit e 0 = (none, { r with staged := [], inflight := r.inflight ++ r.staged }) := by
  have hle : r.staged.length ≤ e.consumed := Nat.le_trans hlen he.2
  rw [submit_of_staged hst, he.1, enter, List.drop_of_length_le hle, List.take_of_length_le hle]

/-- With nothing staged, an entry is staged alone. -/
theorem stage_of_nil {op : Sqe} (hsq : 0 < r.sqEntries) (hst : r.staged = []) :
    r.stage op = some { r with staged := [op] } :=
  stage_eq_some.mpr ⟨by simpa [hst] using hsq, by rw [hst]; rfl⟩

/-- The upsert of a found descriptor. -/
theorem registerUpsert_whole {seq : ℕ} (hsq : 2 ≤ r.sqEntries) (hst : r.staged = [])
    (he : Whole r e) : r.registerUpsert e slot fd interests token seq = (none, setSlot { r with
      staged := []
      inflight := r.inflight ++ [.pollRemove (r.seqs slot),
        .pollAdd fd (interestsToPoll interests) seq] } slot seq token interests) := by
  have h₁ : r.stage (.pollRemove (r.seqs slot)) = some _ := stage_of_nil (by omega) hst
  have h₂ : Uring.stage { r with staged := [.pollRemove (r.seqs slot)] }
      (.pollAdd fd (interestsToPoll interests) seq) = some _ :=
    stage_of_room _ hsq
  have h₃ := submit_whole (e := e) (r := { r with staged := [.pollRemove (r.seqs slot)] ++
    [.pollAdd fd (interestsToPoll interests) seq] }) he hsq (by simp)
  simp only [registerUpsert, h₁, h₂, h₃]
  rfl

/-- The insertion of a new descriptor. -/
theorem registerNew_whole {seq : ℕ} (hsq : 2 ≤ r.sqEntries) (hst : r.staged = [])
    (he : Whole r e₂) : r.registerNew e₁ e₂ slot fd interests token seq =
      (none, { setSlot { r with
        staged := []
        inflight := r.inflight ++ [.pollAdd fd (interestsToPoll interests) seq] }
          slot seq token interests with
        fds := Function.update r.fds slot fd
        count := r.count + 1 }) := by
  have h₁ : r.stage (.pollAdd fd (interestsToPoll interests) seq) = some _ :=
    stage_of_nil (by omega) hst
  have h₂ := submit_whole (e := e₂) (r := { r with
    staged := [.pollAdd fd (interestsToPoll interests) seq] }) he (Nat.le_of_lt hsq) (by simp)
  simp only [registerNew, submitPollAdd, h₁, h₂]

/-- The removal of a found descriptor. -/
theorem unregister_whole (hfd : 0 ≤ fd) (hsq : 2 ≤ r.sqEntries) (hst : r.staged = [])
    (he : Whole r e) (hslot : r.fds (r.uringSlot fd) = fd) :
    r.unregister e fd = (none, clear { r with
      staged := []
      inflight := r.inflight ++ [.pollRemove (r.seqs (r.uringSlot fd))] } (r.uringSlot fd)) := by
  have hneg : ¬ fd < 0 := Int.not_lt.mpr hfd
  have h₁ : r.stage (.pollRemove (r.seqs (r.uringSlot fd))) = some _ :=
    stage_of_nil (by omega) hst
  have h₂ := submit_whole (e := e) (r := { r with
    staged := [.pollRemove (r.seqs (r.uringSlot fd))] }) he (Nat.le_of_lt hsq) (by simp)
  simp only [unregister, hneg, hslot, h₁, h₂, ne_eq, not_true_eq_false, if_false]

/-- A registration that finds its descriptor is an upsert. -/
theorem Implements.register (hr : r.Implements m) (hfd : 0 ≤ fd) (hcount : r.count < r.cap)
    (he : Whole r e₂) (hfound : checkInterests interests = none → r.Found fd) :
    (r.register e₁ e₂ fd interests token).1 = checkInterests interests ∧
      (r.register e₁ e₂ fd interests token).2.Implements
        ((Op.register fd interests token).apply m) := by
  have hneg : ¬ fd < 0 := Int.not_lt.mpr hfd
  have hshape := Call.shape_apply hr.shape (.register e₁ e₂ fd interests token)
  have hlt := uringSlot_lt hr.shape fd
  simp only [Call.apply] at hshape
  cases hc : checkInterests interests with
  | some err =>
    have heq : r.register e₁ e₂ fd interests token = (some err, r) := by simp [Uring.register, hc]
    rw [heq]
    exact ⟨rfl, by simpa [Op.apply, hc] using hr⟩
  | none =>
    simp only [Op.apply, hc, if_true]
    simp only [Uring.register, hc, if_neg hneg, if_neg (Nat.not_le.mpr hcount)] at hshape ⊢
    by_cases hslot : r.fds (r.uringSlot fd) = fd
    · have hslot' : r.draw.fds (r.uringSlot fd) = fd := hslot
      rw [if_pos hslot', registerUpsert_whole (r := r.draw) hr.sqEntries hr.staged he] at hshape ⊢
      refine ⟨rfl, hr.write ?_ hshape rfl rfl hfd hlt (Or.inl hslot) ?_⟩
      · exact ⟨rfl, fun _ _ => rfl, fun k hk => Function.update_of_ne hk _ _,
          fun k hk => Function.update_of_ne hk _ _⟩
      · exact ⟨hslot, Function.update_self _ _ _, Function.update_self _ _ _⟩
    · have hslot' : r.draw.fds (r.uringSlot fd) ≠ fd := hslot
      rw [if_neg hslot', registerNew_whole (r := r.draw) hr.sqEntries hr.staged he] at hshape ⊢
      have hempty := fds_uringSlot_of_ne hr.shape hcount hslot
      refine ⟨rfl, hr.write ?_ hshape rfl rfl hfd hlt (Or.inr ⟨hempty, mt (hfound hc) hslot⟩) ?_⟩
      · exact ⟨rfl, fun k hk => Function.update_of_ne hk _ _,
          fun k hk => Function.update_of_ne hk _ _, fun k hk => Function.update_of_ne hk _ _⟩
      · exact ⟨Function.update_self _ _ _, Function.update_self _ _ _, Function.update_self _ _ _⟩

/-- An unregistration that finds its descriptor removes it, and succeeds on an absent one. -/
theorem Implements.unregister (hr : r.Implements m) (hfd : 0 ≤ fd) (he : Whole r e)
    (hfound : r.Found fd) : (r.unregister e fd).1 = none ∧
      (r.unregister e fd).2.Implements (Function.update m fd none) := by
  have hneg : ¬ fd < 0 := Int.not_lt.mpr hfd
  have hshape := Call.shape_apply hr.shape (.unregister e fd)
  simp only [Call.apply] at hshape
  by_cases hslot : r.fds (r.uringSlot fd) = fd
  · rw [unregister_whole hfd hr.sqEntries hr.staged he hslot] at hshape ⊢
    refine ⟨rfl, hr.erase ?_ hshape rfl rfl hfd (uringSlot_lt hr.shape fd) hslot ?_⟩
    · exact ⟨rfl, fun k hk => Function.update_of_ne hk _ _, fun _ _ => rfl, fun _ _ => rfl⟩
    · exact Function.update_self _ _ _
  · have heq : r.unregister e fd = (none, r) := by simp [Uring.unregister, hneg, hslot]
    have habs : m fd = none := by
      rw [Option.eq_none_iff_forall_ne_some]
      rintro ⟨i, t⟩ hm
      obtain ⟨k, hk, hkfd, -⟩ := (hr.table fd hfd i t).mpr hm
      exact hslot (hfound ⟨k, hk, hkfd⟩)
    rw [heq, Function.update_eq_self_iff.mpr habs.symm]
    exact ⟨rfl, hr⟩

/-- A call that finds its descriptor has the status and the effect of the registry. -/
theorem Implements.call (hr : r.Implements m) (e₁ : Enter) (op : Op) (hfd : 0 ≤ op.fd)
    (hcount : r.count < r.cap) (he : Whole r e₂) (h : r.Avoids op) :
    (r.call e₁ e₂ op).1 = op.status ∧ (r.call e₁ e₂ op).2.Implements (op.apply m) := by
  cases op with
  | register fd interests token => exact hr.register hfd hcount he h
  | modify fd interests token =>
    have hneg : ¬ fd < 0 := Int.not_lt.mpr hfd
    have heq : r.call e₁ e₂ (.modify fd interests token) = r.register e₁ e₂ fd interests token :=
      if_neg hneg
    rw [heq]
    exact hr.register hfd hcount he h
  | unregister fd => exact hr.unregister hfd he h

/-- The kernel completing operations does not touch the table. -/
theorem Implements.posted (hr : r.Implements m) (h : Posted r r') : r'.Implements m := by
  have htable : SameTable r r' := by
    rw [h.eq]
    exact ⟨rfl, rfl, rfl⟩
  have hshape := htable.shape hr.shape
  rw [h.eq] at hshape ⊢
  exact ⟨hshape, hr.sqEntries, hr.staged, hr.unique, hr.table⟩

end Uring

end IoUring

/-! ### The three backends -/

/-- The three pollers. -/
structure Backends where
  kqueue : Kqueue
  epoll : Epoll.Epoller
  uring : IoUring.Uring

namespace Backends

/-- The same call on the three pollers: the state before it and the three statuses. -/
structure Call where
  before : Backends
  op : Op
  kqueue : Status
  epoll : Status
  uring : Status

/-- The call reaches no defect of the state before it. -/
def Avoids (b : Backends) (op : Op) : Prop := b.epoll.Avoids op ∧ b.uring.Avoids op

/-- The pollers after their creation. `mjs_iouring_create` asks for 128 entries. -/
structure Start (b : Backends) : Prop where
  kqueue : ∀ fd filter, b.kqueue.knotes fd filter = none
  epoll : Epoll.Start b.epoll
  uring : IoUring.Start b.uring
  sqEntries : b.uring.sqEntries = 128
  staged : b.uring.staged = []

/-- The runs of the three pollers under the same calls, on kernels that do not fail, with open
descriptors and room in the io_uring table. -/
inductive Run : List Call → Backends → Prop
  | start {b : Backends} (h : Start b) : Run [] b
  | call {hist : List Call} {b : Backends} {st : Status} {p : Epoll.Epoller} (hr : Run hist b)
      (op : Op) (e₁ e₂ : IoUring.Enter) (hfd : 0 ≤ op.fd) (hcount : b.uring.count < b.uring.cap)
      (he : IoUring.Whole b.uring e₂) (hp : b.epoll.call op = some (st, p)) :
      Run (⟨b, op, (b.kqueue.call op).1, st, (b.uring.call e₁ e₂ op).1⟩ :: hist)
        ⟨(b.kqueue.call op).2, p, (b.uring.call e₁ e₂ op).2⟩
  | post {hist : List Call} {b : Backends} {r : IoUring.Uring} (hr : Run hist b)
      (hp : IoUring.Posted b.uring r) : Run hist { b with uring := r }

/-- The registry that the calls leave, the last call first. -/
def registry : List Call → Registry
  | [] => fun _ => none
  | c :: hist => c.op.apply (registry hist)

/-- The pollers return the same statuses and hold the same registrations. -/
structure Agree (hist : List Call) (b : Backends) : Prop where
  status : ∀ c ∈ hist, c.kqueue = c.epoll ∧ c.epoll = c.uring
  registered : ∀ fd interests token, 0 ≤ fd →
    (b.kqueue.Registered fd interests token ↔ b.epoll.Registered fd interests token) ∧
    (b.epoll.Registered fd interests token ↔ b.uring.Registered fd interests token)

/-- The pollers return the statuses of the registry and hold what it holds. -/
structure Conforms (hist : List Call) (b : Backends) : Prop where
  status : ∀ c ∈ hist, c.kqueue = c.op.status ∧ c.epoll = c.op.status ∧ c.uring = c.op.status
  kqueue : b.kqueue.Implements (registry hist)
  epoll : b.epoll.Implements (registry hist)
  uring : b.uring.Implements (registry hist)
  valid : (registry hist).Valid

variable {hist : List Call} {b : Backends}

theorem Conforms.agree (h : Conforms hist b) : Agree hist b where
  status c hc := by
    obtain ⟨hk, he, hu⟩ := h.status c hc
    exact ⟨hk.trans he.symm, he.trans hu.symm⟩
  registered fd interests token hfd := by
    rw [h.kqueue.registered_iff h.valid, h.epoll.registered_iff h.valid hfd,
      h.uring.table fd hfd]
    exact ⟨Iff.rfl, Iff.rfl⟩

theorem Start.conforms (h : Start b) : Conforms [] b where
  status c hc := absurd hc List.not_mem_nil
  kqueue := h.kqueue
  epoll := by
    refine ⟨fun i _ hi => ?_, fun fd hfd token => ⟨?_, ?_⟩, fun _ _ _ _ hm => by cases hm⟩
    · rw [h.epoll.tableFd i] at hi
      cases hi
    · rintro ⟨i, -, hi, -⟩
      rw [h.epoll.tableFd i] at hi
      subst hi
      cases hfd
    · rintro ⟨_, hm⟩
      cases hm
  uring := by
    refine ⟨IoUring.TableRun.shape_start h.uring, by rw [h.sqEntries]; decide, h.staged,
      (IoUring.TableRun.tableOk_start h.uring).unique, fun fd hfd i t => ⟨?_, ?_⟩⟩
    · rintro ⟨k, -, hk, -⟩
      rw [h.uring.fds k] at hk
      subst hk
      cases hfd
    · intro hm
      cases hm
  valid _ _ _ hm := by cases hm

/-- The pollers conform to the registry along every run whose calls avoid the defects. -/
theorem conforms_run (hr : Run hist b) (havoid : ∀ c ∈ hist, c.before.Avoids c.op) :
    Conforms hist b := by
  induction hr with
  | start h => exact h.conforms
  | @call hist b st p _ op e₁ e₂ hfd hcount he hp ih =>
    obtain ⟨hnow, hbefore⟩ := List.forall_mem_cons.mp havoid
    have hc := ih hbefore
    obtain ⟨hks, hk⟩ := hc.kqueue.call op hfd
    obtain ⟨p', hp', hpi⟩ := hc.epoll.call op hfd hnow.1
    obtain ⟨hus, hu⟩ := hc.uring.call e₁ op hfd hcount he hnow.2
    rw [hp] at hp'
    cases hp'
    exact ⟨List.forall_mem_cons.mpr ⟨⟨hks, rfl, hus⟩, hc.status⟩, hk, hpi, hu, hc.valid.apply op⟩
  | post _ hp ih =>
    have hc := ih havoid
    exact ⟨hc.status, hc.kqueue, hc.epoll, hc.uring.posted hp, hc.valid⟩

end Backends

/-- In every run whose calls avoid the defects, the three backends return the same statuses and hold
the same registrations, those of the registry, and the next such call returns. -/
theorem backends_agree {hist : List Backends.Call} {b : Backends} (hr : Backends.Run hist b)
    (havoid : ∀ c ∈ hist, c.before.Avoids c.op) :
    Backends.Agree hist b ∧ Backends.Conforms hist b ∧
      ∀ op : Op, 0 ≤ op.fd → b.Avoids op → (b.epoll.call op).isSome := by
  have hc := Backends.conforms_run hr havoid
  refine ⟨hc.agree, hc, fun op hfd h => ?_⟩
  obtain ⟨p', hp', -⟩ := hc.epoll.call op hfd h.1
  rw [hp']
  rfl

namespace Backends

/-- The pollers of the examples. -/
def fresh : Backends := ⟨⟨fun _ _ => none⟩, Epoll.fresh, IoUring.freshRing⟩

theorem start_fresh : Start fresh :=
  ⟨fun _ _ => rfl, Epoll.start_fresh, IoUring.start_freshRing, rfl, rfl⟩

theorem whole_fresh : IoUring.Whole fresh.uring ⟨128, none⟩ := ⟨rfl, by decide⟩

/-- The pollers after a registration of `3`. -/
def registered : Backends where
  kqueue := (fresh.kqueue.call (.register 3 READABLE 30)).2
  epoll := Epoll.homed
  uring := (fresh.uring.call ⟨128, none⟩ ⟨128, none⟩ (.register 3 READABLE 30)).2

end Backends

/-- A modification after a registration. -/
theorem backends_agree_modified : ∃ hist b, Backends.Run hist b ∧ hist.length = 2 ∧
    Backends.Agree hist b := by
  have he : Backends.fresh.epoll.call (.register 3 READABLE 30) = some (none, Epoll.homed) := rfl
  have hrun := (Backends.Run.start Backends.start_fresh).call (.register 3 READABLE 30)
    ⟨128, none⟩ ⟨128, none⟩ (by decide) (by decide) Backends.whole_fresh he
  have hp : Backends.registered.epoll.call (.modify 3 WRITABLE 31) =
      some (Epoll.homed.modify none 3 WRITABLE 31) := rfl
  have hrun' := Backends.Run.call (b := Backends.registered) hrun (.modify 3 WRITABLE 31)
    ⟨128, none⟩ ⟨128, none⟩ (by decide) (by decide +kernel) ⟨rfl, by decide⟩ hp
  refine ⟨_, _, hrun', rfl, (backends_agree hrun' ?_).1⟩
  rw [List.forall_mem_cons, List.forall_mem_singleton]
  refine ⟨⟨fun _ => ⟨19, by decide, rfl⟩, fun _ _ => ?_⟩,
    ⟨fun _ => Or.inr ⟨0, by decide, rfl⟩, fun _ h => ?_⟩⟩
  · decide +kernel
  · obtain ⟨i, -, hi⟩ := h
    have hi' : (-1 : Fd) = 3 := hi
    cases hi'

/-- A modification before any registration: the kernel of epoll answers `ENOENT`, the two other
backends upsert. -/
theorem backends_disagree : ¬ ∀ hist b, Backends.Run hist b → Backends.Agree hist b := by
  intro h
  have he : Backends.fresh.epoll.call (.modify 3 READABLE 30) =
      some (some .ENOENT, Epoll.fresh) := rfl
  have hrun := (Backends.Run.start Backends.start_fresh).call (.modify 3 READABLE 30)
    ⟨128, none⟩ ⟨128, none⟩ (by decide) (by decide) Backends.whole_fresh he
  have hstatus := ((h _ _ hrun).status _ List.mem_cons_self).1
  cases hstatus

end MojitoSys.Io
