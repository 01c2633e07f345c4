import MojitoSys.Io.EpollTable
import MojitoSys.Io.PollerContract
import MojitoSys.Io.UringWake

/-!
# Waits and wakes of the epoll backend

The poller of `mjs_epoll.c` as a whole: `mjs_epoll_wait` and its loop over the batch of
`epoll_wait`, the eventfd of `mjs_epoll_wake`, and the calls on the table, which other threads may
make between any two steps of the wait. The descriptors change their conditions and are closed at
any time.

The kernel is level-triggered: `epoll_wait` reports listed descriptors whose conditions meet the
watched events, or `EPOLLERR` and `EPOLLHUP`, each once, and all of them unless the batch is full. A
descriptor that is closed leaves the interest list. `EPOLL_CTL_DEL` fails, other than with `ENOENT`,
only for a descriptor that is not listed. The callers do not name the eventfd, which is the
poller's own.

## Main definitions

* `EpollWorld`, `EpollStep`, `epollSystem`: the poller with its eventfd, its waiter and the kernel.
* `EpollWorld.Batch`: what `epoll_wait` may return.
* `Tracks`: the state of the poller is that of the contract.

## Main results

* `epoll_simulates`: the poller simulates the contract.
* `epoll_obeys_contract`: its traces are those of the contract, and no descriptor comes twice.
-/

namespace MojitoSys.Io.Epoll

open Util Epoller IoUring

/-- Where the waiter is. -/
inductive EpollPc
  /-- Outside of `mjs_epoll_wait`. -/
  | idle
  /-- In `epoll_wait`, with a timeout or without. -/
  | blocked (cap : ℕ) (timed : Bool)
  /-- In the loop, with the rest of the batch and the events delivered so far. -/
  | looping (cap : ℕ) (rest : List (Fd × Mask)) (events : List PollEvent)
  deriving DecidableEq, Repr

/-- The poller, its eventfd, the conditions of the descriptors and the waiter. -/
structure EpollWorld where
  poller : Epoller
  /-- The counter of the eventfd. -/
  counter : ℕ
  /-- The events that hold of a descriptor. -/
  level : Fd → Mask
  pc : EpollPc

namespace EpollWorld

/-- The events that hold of a descriptor; the eventfd is readable while its counter is not zero. -/
def current (w : EpollWorld) (fd : Fd) : Mask :=
  if fd = w.poller.wfd then (if 0 < w.counter then 0x1 else 0) else w.level fd

/-- The events that the kernel reports of a descriptor: the watched ones, and always `EPOLLERR` and
`EPOLLHUP`. -/
def report (w : EpollWorld) (fd : Fd) : Mask :=
  match w.poller.kernel fd with
  | none => 0
  | some watch => w.current fd &&& (watch ||| 0x18)

/-- What `epoll_wait` may return. -/
structure Batch (w : EpollWorld) (maxevents : ℕ) (ready : List (Fd × Mask)) : Prop where
  nodup : (ready.map Prod.fst).Nodup
  length_le : ready.length ≤ maxevents
  reported : ∀ e ∈ ready, e.2 = w.report e.1 ∧ e.2 ≠ 0
  /-- A descriptor is left out only of a full batch. -/
  complete : ready.length < maxevents → ∀ fd, w.report fd ≠ 0 → fd ∈ ready.map Prod.fst

end EpollWorld

/-- One step of a caller, of the waiter or of the kernel, with what it shows. -/
inductive EpollStep (w : EpollWorld) : List Observed → EpollWorld → Prop
  | register (f₁ f₂ : Option Fail) (fd : Fd) (interests : Mask) (token : Token)
      (hfd : fd ≠ w.poller.wfd) :
      EpollStep w
        [.called (.register fd interests token) (w.poller.register f₁ f₂ fd interests token).1]
        { w with poller := (w.poller.register f₁ f₂ fd interests token).2 }
  | modify (f : Option Fail) (fd : Fd) (interests : Mask) (token : Token)
      (hfd : fd ≠ w.poller.wfd) :
      EpollStep w [.called (.modify fd interests token) (w.poller.modify f fd interests token).1]
        { w with poller := (w.poller.modify f fd interests token).2 }
  /-- An unregistration that does not index past the table. -/
  | unregister {f : Option Fail} {fd : Fd} {st : Status} {p : Epoller} (hfd : fd ≠ w.poller.wfd)
      (hf : f ≠ none → w.poller.kernel fd = none) (h : w.poller.unregister f fd = some (st, p)) :
      EpollStep w [.called (.unregister fd) st] { w with poller := p }
  /-- A descriptor is closed by its owner. -/
  | close (fd : Fd) (hfd : fd ≠ w.poller.wfd) :
      EpollStep w [.closed fd] { w with
        poller := { w.poller with kernel := Function.update w.poller.kernel fd none }
        level := Function.update w.level fd 0 }
  /-- The conditions of a descriptor change. -/
  | ready (fd : Fd) (events : Mask) :
      EpollStep w [] { w with level := Function.update w.level fd events }
  /-- `mjs_epoll_wake`. -/
  | wake : EpollStep w [.woke (if w.counter < EVENTFD_MAX then none else some .EAGAIN)]
      { w with counter := eventfdWrite w.counter }
  /-- A wait with no room for events. -/
  | invalid (hpc : w.pc = .idle) : EpollStep w [.failed .EINVAL] w
  | wait {cap : ℕ} (timed : Bool) (hpc : w.pc = .idle) (hcap : cap ≠ 0) :
      EpollStep w [.waiting cap] { w with pc := .blocked cap timed }
  /-- `epoll_wait` fails, as with `EINTR`. -/
  | fail {cap : ℕ} {timed : Bool} (err : Errno) (hpc : w.pc = .blocked cap timed) :
      EpollStep w [.failed err] { w with pc := .idle }
  | batch {cap : ℕ} {timed : Bool} {ready : List (Fd × Mask)} (hpc : w.pc = .blocked cap timed)
      (h : w.Batch (min cap BATCH) ready) (hne : ready ≠ []) :
      EpollStep w [] { w with pc := .looping cap ready [] }
  | expire {cap : ℕ} (hpc : w.pc = .blocked cap true) (h : w.Batch (min cap BATCH) []) :
      EpollStep w [.expired] { w with pc := .looping cap [] [] }
  /-- The read of the eventfd. -/
  | drain {cap : ℕ} {e : Fd × Mask} {rest : List (Fd × Mask)} {events : List PollEvent}
      (hpc : w.pc = .looping cap (e :: rest) events) (he : e.1 = w.poller.wfd) :
      EpollStep w [.took] { w with
        counter := 0
        pc := .looping cap rest (w.poller.deliverOne cap events e) }
  | deliver {cap : ℕ} {e : Fd × Mask} {rest : List (Fd × Mask)} {events : List PollEvent}
      (hpc : w.pc = .looping cap (e :: rest) events) (he : e.1 ≠ w.poller.wfd) :
      EpollStep w [] { w with pc := .looping cap rest (w.poller.deliverOne cap events e) }
  | done {cap : ℕ} {events : List PollEvent} (hpc : w.pc = .looping cap [] events) :
      EpollStep w [.returned events] { w with pc := .idle }

/-- The poller from `mjs_epoll_create` on. -/
def epollSystem : System EpollWorld Observed where
  start w := Start w.poller ∧ w.counter = 0 ∧ w.pc = .idle
  step := EpollStep

/-! ### What the loop delivers -/

section Deliver

variable {p : Epoller} {cap : ℕ} {events : List PollEvent} {e : Fd × Mask} {token : Token}

/-- An event of a descriptor that the table does not hold is skipped. -/
theorem deliverOne_of_not_holds (hh : ∀ token, ¬ Holds p e.1 token) :
    p.deliverOne cap events e = events := by
  unfold deliverOne
  dsimp only
  split_ifs with hw hcap hslot
  · rfl
  · rfl
  · rfl
  · push Not at hslot
    exact absurd ⟨_, hslot.1, hslot.2, rfl⟩ (hh _)

/-- An event of a descriptor that the table holds is delivered. -/
theorem deliverOne_of_holds (hr : Reachable p.tableFd) (hfd : 0 ≤ e.1) (hh : Holds p e.1 token)
    (hw : e.1 ≠ p.wfd) (hroom : events.length < cap) :
    p.deliverOne cap events e = events ++ [⟨token, e.1, eventFlags e.2⟩] := by
  obtain ⟨i, hi, hti, rfl⟩ := hh
  have hslot : p.slot e.1 = i := slot_of_holds hr hfd hi hti
  have hlt : ¬ (CAP ≤ i ∨ p.tableFd i ≠ e.1) := by
    push Not
    exact ⟨hi, hti⟩
  unfold deliverOne
  rw [if_neg hw, if_neg (Nat.not_le.mpr hroom)]
  dsimp only
  rw [hslot, if_neg hlt]

theorem deliverOne_wake (he : e.1 = p.wfd) : p.deliverOne cap events e = events := if_pos he

/-- A descriptor is held with one token. -/
theorem Holds.unique {fd : Fd} {token' : Token} (hr : Reachable p.tableFd) (hfd : 0 ≤ fd)
    (h : Holds p fd token) (h' : Holds p fd token') : token = token' := by
  obtain ⟨i, hi, hti, rfl⟩ := h
  obtain ⟨j, hj, htj, rfl⟩ := h'
  rw [← slot_of_holds hr hfd hi hti, ← slot_of_holds hr hfd hj htj]

end Deliver

/-! ### The bits of a report -/

section Bits

variable {interests level : Mask}

theorem flagIf_and (m mask test flag : Mask) :
    flagIf (m &&& mask) test flag = flagIf m (mask &&& test) flag := by
  rw [flagIf, flagIf, BitVec.and_assoc]

theorem flagIf_eq_zero {m test flag : Mask} (hflag : flag ≠ 0) :
    flagIf m test flag = 0 ↔ m &&& test = 0 := by
  unfold flagIf
  split_ifs with h
  · exact iff_of_false hflag h
  · exact iff_of_true rfl (not_not.mp h)

/-- A report of a registration has the registered interests, `EOF` and `ERROR` and no others. -/
theorem eventFlags_subset (h : checkInterests interests = none) :
    eventFlags (level &&& (watched interests ||| 0x18)) &&& ~~~(interests ||| EOF ||| ERROR) =
      0 := by
  simp only [eventFlags, flagIf_and]
  rcases checkInterests_eq_none h with rfl | rfl | rfl <;> unfold flagIf <;> split_ifs <;>
    first | rfl | simp_all [watched, flagIf, READABLE, WRITABLE]

/-- A report that is not empty has flags. -/
theorem eventFlags_ne_zero (h : checkInterests interests = none)
    (hne : level &&& (watched interests ||| 0x18) ≠ 0) :
    eventFlags (level &&& (watched interests ||| 0x18)) ≠ 0 := by
  intro hzero
  obtain ⟨hrest, herr⟩ := BitVec.or_eq_zero_iff.mp hzero
  obtain ⟨hrest, heof⟩ := BitVec.or_eq_zero_iff.mp hrest
  obtain ⟨hin, hout⟩ := BitVec.or_eq_zero_iff.mp hrest
  replace hin := (flagIf_eq_zero (by decide)).mp hin
  replace hout := (flagIf_eq_zero (by decide)).mp hout
  replace heof := (flagIf_eq_zero (by decide)).mp heof
  replace herr := (flagIf_eq_zero (by decide)).mp herr
  -- the four tests cover the mask of every report
  have hcover : watched interests ||| 0x18 =
      (watched interests ||| 0x18) &&& (0x1 ||| 0x4 ||| 0x2010 ||| 0x8) := by
    rcases checkInterests_eq_none h with rfl | rfl | rfl <;> rfl
  apply hne
  rw [hcover, ← BitVec.and_assoc, BitVec.and_or_distrib_left, BitVec.and_or_distrib_left,
    BitVec.and_or_distrib_left, hin, hout, heof, herr]
  rfl

end Bits

/-! ### The relation with the contract -/

/-- The loop of a wait is in the state of the wait of the contract. -/
structure Collects (p : Epoller) (counter : ℕ) (m : Registry) (wt : Wait) (cap : ℕ)
    (rest : List (Fd × Mask)) (events : List PollEvent) : Prop where
  cap_eq : wt.cap = cap
  follows : wt.Follows m
  expired : wt.expired = true → rest = [] ∧ events = []
  /-- The events never fill the buffer before the batch ends. -/
  room : events.length + rest.length ≤ min cap BATCH
  nodup : (events.map PollEvent.fd ++ rest.map Prod.fst).Nodup
  checked : ∀ e ∈ rest, e.1 ≠ p.wfd → 0 ≤ e.1
  /-- A token that the table still holds for the batch is one that the wait has seen. -/
  named : ∀ e ∈ rest, e.1 ≠ p.wfd → ∀ token, Holds p e.1 token →
    wt.Names ⟨token, e.1, eventFlags e.2⟩
  allowed : ∀ e ∈ rest, e.1 ≠ p.wfd → wt.Allows e.1 (eventFlags e.2) ∧ eventFlags e.2 ≠ 0
  delivered : ∀ e ∈ events, wt.Names e ∧ wt.Allows e.fd e.events ∧ e.events ≠ 0
  /-- Only the waiter reads the eventfd. -/
  wake : ∀ e ∈ rest, e.1 = p.wfd → 0 < counter
  reason : events = [] → rest = [] → wt.took = true ∨ wt.expired = true ∨ wt.dropped = true

/-- The waiter is in the state of the wait of the contract. -/
def WaitTracks (p : Epoller) (counter : ℕ) (m : Registry) (wait : Option Wait) : EpollPc → Prop
  | .idle => wait = none
  | .blocked cap _ => ∃ wt, wait = some wt ∧ wt.cap = cap ∧ wt.Follows m ∧ wt.took = false ∧
    wt.expired = false ∧ 0 < cap
  | .looping cap rest events => ∃ wt, wait = some wt ∧ Collects p counter m wt cap rest events

/-- The poller is in the state of the contract. -/
structure Tracks (w : EpollWorld) (s : Contract) : Prop where
  reach : Reachable w.poller.tableFd
  /-- The eventfd stays listed. -/
  own : w.poller.kernel w.poller.wfd = some 0x1
  kernel : ∀ fd, fd ≠ w.poller.wfd →
    w.poller.kernel fd = (s.registry fd).map fun r => watched r.1
  held : ∀ fd interests token, s.registry fd = some (interests, token) →
    fd ≠ w.poller.wfd ∧ 0 ≤ fd ∧ Holds w.poller fd token
  valid : s.registry.Valid
  pending : s.pending = true ↔ 0 < w.counter
  wait : WaitTracks w.poller w.counter s.registry s.wait w.pc

section Calls

variable {p p' : Epoller} {counter : ℕ} {m m' : Registry} {wt : Wait} {cap : ℕ} {fd : Fd}
  {rest : List (Fd × Mask)} {events : List PollEvent} {pc : EpollPc}

/-- A call leaves the loop alone: a token of the table is an old one or that of the new
registration. -/
theorem Collects.see (h : Collects p counter m wt cap rest events) (hwfd : p'.wfd = p.wfd)
    (hm : ∀ x, x ≠ fd → m' x = m x)
    (hholds : ∀ x, 0 ≤ x → ∀ token, Holds p' x token →
      Holds p x token ∨ ∃ interests, m' x = some (interests, token)) :
    Collects p' counter m' (wt.see m' ((m fd).isSome && (m' fd).isNone)) cap rest events where
  cap_eq := h.cap_eq
  follows := h.follows.see hm
  expired := h.expired
  room := h.room
  nodup := h.nodup
  checked e he hne := h.checked e he (hwfd ▸ hne)
  named e he hne token htoken := by
    rcases hholds e.1 (h.checked e he (hwfd ▸ hne)) token htoken with hold | ⟨interests, hnew⟩
    · exact (h.named e he (hwfd ▸ hne) token hold).see
    · exact ⟨m', List.mem_cons_self, interests, hnew⟩
  allowed e he hne := (h.allowed e he (hwfd ▸ hne)).imp Wait.Allows.see id
  delivered e he := by
    obtain ⟨hn, ha, hz⟩ := h.delivered e he
    exact ⟨hn.see, ha.see, hz⟩
  wake e he hw := h.wake e he (hwfd ▸ hw)
  reason hev hrest := by
    rcases h.reason hev hrest with ht | hx | hd
    · exact Or.inl ht
    · exact Or.inr (Or.inl hx)
    · exact Or.inr (Or.inr (by simp [Wait.see, hd]))

/-- A refused call leaves the loop alone. -/
theorem Collects.refuse (h : Collects p counter m wt cap rest events) (hwfd : p'.wfd = p.wfd)
    (hholds : ∀ x, 0 ≤ x → ∀ token, Holds p' x token → Holds p x token) :
    Collects p' counter m wt cap rest events where
  cap_eq := h.cap_eq
  follows := h.follows
  expired := h.expired
  room := h.room
  nodup := h.nodup
  checked e he hne := h.checked e he (hwfd ▸ hne)
  named e he hne token htoken :=
    h.named e he (hwfd ▸ hne) token (hholds _ (h.checked e he (hwfd ▸ hne)) _ htoken)
  allowed e he hne := h.allowed e he (hwfd ▸ hne)
  delivered := h.delivered
  wake e he hw := h.wake e he (hwfd ▸ hw)
  reason := h.reason

theorem WaitTracks.see {s : Contract} (h : WaitTracks p counter s.registry s.wait pc)
    (hwfd : p'.wfd = p.wfd) (hm : ∀ x, x ≠ fd → m' x = s.registry x)
    (hholds : ∀ x, 0 ≤ x → ∀ token, Holds p' x token →
      Holds p x token ∨ ∃ interests, m' x = some (interests, token)) :
    WaitTracks p' counter m' (s.put fd m').wait pc := by
  cases pc with
  | idle =>
    simp only [WaitTracks] at h ⊢
    simp [Contract.put, h]
  | blocked cap timed =>
    obtain ⟨wt, hwait, hcap, hf, ht, hx⟩ := h
    exact ⟨_, Option.map_eq_some_iff.mpr ⟨wt, hwait, rfl⟩, hcap, hf.see hm, ht, hx⟩
  | looping cap rest events =>
    obtain ⟨wt, hwait, hc⟩ := h
    exact ⟨_, Option.map_eq_some_iff.mpr ⟨wt, hwait, rfl⟩, hc.see hwfd hm hholds⟩

theorem WaitTracks.refuse {wait : Option Wait} (h : WaitTracks p counter m wait pc)
    (hwfd : p'.wfd = p.wfd) (hholds : ∀ x, 0 ≤ x → ∀ token, Holds p' x token → Holds p x token) :
    WaitTracks p' counter m wait pc := by
  cases pc with
  | idle => exact h
  | blocked cap timed => exact h
  | looping cap rest events =>
    obtain ⟨wt, hwait, hc⟩ := h
    exact ⟨wt, hwait, hc.refuse hwfd hholds⟩

end Calls

namespace Tracks

variable {w : EpollWorld} {s : Contract} {fd : Fd} {interests : Mask} {token : Token}

/-- A registration keeps the relation. -/
theorem put (ht : Tracks w s) (hfd : fd ≠ w.poller.wfd) (h0 : 0 ≤ fd)
    (hs : w.poller.slot fd < CAP) (hc : checkInterests interests = none) :
    Tracks { w with poller := put w.poller fd interests token }
      (s.put fd (Function.update s.registry fd (some (interests, token)))) where
  reach := ht.reach.put h0 hs
  own := by
    rw [← ht.own]
    exact Function.update_of_ne (Ne.symm hfd) _ _
  kernel x hx := by
    by_cases hne : x = fd
    · subst hne
      simp [Epoll.put, Contract.put]
    · simpa [Epoll.put, Contract.put, hne] using ht.kernel x hx
  held x i t hx := by
    by_cases hne : x = fd
    · subst hne
      obtain ⟨rfl, rfl⟩ : interests = i ∧ token = t := by simpa [Contract.put] using hx
      exact ⟨hfd, h0, (holds_put_self ht.reach h0 hs).mpr rfl⟩
    · obtain ⟨hw, hpos, hh⟩ := ht.held x i t (by simpa [Contract.put, hne] using hx)
      exact ⟨hw, hpos, (holds_put_of_ne ht.reach h0 hs hpos (Ne.symm hne)).mpr hh⟩
  valid := by
    have hv := ht.valid.apply (.register fd interests token)
    rwa [Op.apply, if_pos hc] at hv
  pending := ht.pending
  wait := by
    refine ht.wait.see rfl (fun x hx => Function.update_of_ne hx _ _) fun x hpos t hx => ?_
    by_cases hne : x = fd
    · subst hne
      obtain rfl := (holds_put_self ht.reach h0 hs).mp hx
      exact Or.inr ⟨interests, Function.update_self _ _ _⟩
    · exact Or.inl ((holds_put_of_ne ht.reach h0 hs hpos (Ne.symm hne)).mp hx)

/-- An unregistration keeps the relation. -/
theorem bury (ht : Tracks w s) (hfd : fd ≠ w.poller.wfd) (h0 : 0 ≤ fd)
    (hs : w.poller.slot fd < CAP) :
    Tracks { w with poller := bury w.poller fd (Function.update w.poller.kernel fd none) }
      (s.put fd (Function.update s.registry fd none)) where
  reach := ht.reach.bury fd _
  own := by
    rw [← ht.own]
    exact Function.update_of_ne (Ne.symm hfd) _ _
  kernel x hx := by
    by_cases hne : x = fd
    · subst hne
      simp [Epoll.bury, Contract.put]
    · simpa [Epoll.bury, Contract.put, hne] using ht.kernel x hx
  held x i t hx := by
    have hne : x ≠ fd := by
      rintro rfl
      simp [Contract.put] at hx
    obtain ⟨hw, hpos, hh⟩ := ht.held x i t (by simpa [Contract.put, hne] using hx)
    exact ⟨hw, hpos, (holds_bury ht.reach h0 hs hpos).mpr ⟨Ne.symm hne, hh⟩⟩
  valid := ht.valid.apply (.unregister fd)
  pending := ht.pending
  wait := ht.wait.see rfl (fun x hx => Function.update_of_ne hx _ _) fun x hpos t hx =>
    Or.inl ((holds_bury ht.reach h0 hs hpos).mp hx).2

/-- An unregistration that the kernel refuses keeps the relation: the descriptor was not listed. -/
theorem bury_refused (ht : Tracks w s) (hfd : fd ≠ w.poller.wfd) (h0 : 0 ≤ fd)
    (hs : w.poller.slot fd < CAP) (hk : w.poller.kernel fd = none) :
    Tracks { w with poller := Epoll.bury w.poller fd w.poller.kernel } s where
  reach := ht.reach.bury fd _
  own := ht.own
  kernel := ht.kernel
  held x i t hx := by
    have hne : x ≠ fd := by
      rintro rfl
      simp [ht.kernel x hfd, hx] at hk
    obtain ⟨hw, hpos, hh⟩ := ht.held x i t hx
    exact ⟨hw, hpos, (holds_bury ht.reach h0 hs hpos).mpr ⟨Ne.symm hne, hh⟩⟩
  valid := ht.valid
  pending := ht.pending
  wait := ht.wait.refuse rfl fun x hpos t hx => ((holds_bury ht.reach h0 hs hpos).mp hx).2

/-- The closing of a descriptor keeps the relation: the table may keep a token, which only a batch
of before still names. -/
theorem close (ht : Tracks w s) (hfd : fd ≠ w.poller.wfd) :
    Tracks { w with
      poller := { w.poller with kernel := Function.update w.poller.kernel fd none }
      level := Function.update w.level fd 0 }
      (s.put fd (Function.update s.registry fd none)) where
  reach := ht.reach
  own := by
    rw [← ht.own]
    exact Function.update_of_ne (Ne.symm hfd) _ _
  kernel x hx := by
    by_cases hne : x = fd
    · subst hne
      simp [Contract.put]
    · simpa [Contract.put, hne] using ht.kernel x hx
  held x i t hx := by
    have hne : x ≠ fd := by
      rintro rfl
      simp [Contract.put] at hx
    exact ht.held x i t (by simpa [Contract.put, hne] using hx)
  valid := ht.valid.apply (.unregister fd)
  pending := ht.pending
  wait := ht.wait.see rfl (fun x hx => Function.update_of_ne hx _ _) fun _ _ _ => Or.inl

/-- A registration or a modification shows a call that the contract permits. -/
theorem set (ht : Tracks w s) (f₁ f₂ : Option Fail) (hfd : fd ≠ w.poller.wfd) (isAdd : Bool)
    {op : Op} (hop : op = .register fd interests token ∨ op = .modify fd interests token) :
    let r := w.poller.set f₁ f₂ fd interests token isAdd
    contract.Accepts s [.called op r.1] ∧
      Tracks { w with poller := r.2 } (contract.after s [.called op r.1]) := by
  intro r
  rcases set_cases w.poller f₁ f₂ fd interests token isAdd with ⟨err, h⟩ | ⟨h0, hs, h⟩
  · have hr : r = (some err, w.poller) := h
    rw [hr]
    exact ⟨⟨trivial, trivial⟩, ht⟩
  · have hr : r = (none, Epoll.put w.poller fd interests token) := h
    have hc : checkInterests interests = none := by
      have hnone : r.1 = none := by rw [hr]
      cases hcheck : checkInterests interests with
      | none => rfl
      | some err =>
        simp only [r, Epoller.set, hcheck] at hnone
        cases hnone
    have htrack : Tracks { w with poller := Epoll.put w.poller fd interests token }
        (s.put fd (Function.update s.registry fd (some (interests, token)))) :=
      ht.put hfd h0 hs hc
    rw [hr]
    rcases hop with rfl | rfl
    · refine ⟨⟨trivial, hc⟩, ?_⟩
      simpa [contract, Contract.next, Op.apply, Op.fd, hc] using htrack
    · refine ⟨⟨trivial, hc⟩, ?_⟩
      simpa [contract, Contract.next, Op.apply, Op.fd, hc] using htrack

/-- An unregistration shows a call that the contract permits. -/
theorem unregister (ht : Tracks w s) {f : Option Fail} {st : Status} {p : Epoller}
    (hfd : fd ≠ w.poller.wfd) (hf : f ≠ none → w.poller.kernel fd = none)
    (h : w.poller.unregister f fd = some (st, p)) :
    contract.Accepts s [.called (.unregister fd) st] ∧
      Tracks { w with poller := p } (contract.after s [.called (.unregister fd) st]) := by
  rcases unregister_cases h with ⟨-, rfl, rfl⟩ | ⟨h0, hs, rfl, rfl⟩
  · exact ⟨⟨trivial, trivial⟩, ht⟩
  · cases f with
    | none =>
      have hctl : w.poller.ctl none .del fd 0 =
          (none, { w.poller with kernel := Function.update w.poller.kernel fd none }) := by
        cases hk : w.poller.kernel fd with
        | none =>
          have hself : Function.update w.poller.kernel fd none = w.poller.kernel :=
            Function.update_eq_self_iff.mpr hk.symm
          simp [ctl, epollCtl, hk, hself]
        | some watch => simp [ctl, epollCtl, hk]
      rw [hctl]
      exact ⟨⟨trivial, rfl⟩, ht.bury hfd h0 hs⟩
    | some f =>
      have hk := hf (Option.some_ne_none f)
      have hctl : w.poller.ctl (some f) .del fd 0 = (some f.errno, w.poller) := by
        have hne := f.ne_noent
        simp only [ctl, epollCtl]
        split
        · simp_all
        · rfl
      rw [hctl]
      exact ⟨⟨trivial, trivial⟩, ht.bury_refused hfd h0 hs hk⟩

/-- A listed descriptor of the callers is registered. -/
theorem registered_of_report (ht : Tracks w s) (hfd : fd ≠ w.poller.wfd) (h : w.report fd ≠ 0) :
    ∃ interests token, s.registry fd = some (interests, token) ∧
      w.report fd = w.level fd &&& (watched interests ||| 0x18) := by
  have hk := ht.kernel fd hfd
  cases hreg : s.registry fd with
  | none =>
    rw [hreg] at hk
    simp [EpollWorld.report, hk] at h
  | some r =>
    rw [hreg] at hk
    refine ⟨r.1, r.2, rfl, ?_⟩
    simp [EpollWorld.report, hk, EpollWorld.current, hfd]

/-- The eventfd is reported exactly while a wake sticks. -/
theorem report_wake (ht : Tracks w s) : w.report w.poller.wfd ≠ 0 ↔ 0 < w.counter := by
  simp only [EpollWorld.report, ht.own, EpollWorld.current, if_true]
  split_ifs with h
  · exact iff_of_true (by decide) h
  · exact iff_of_false (by simp) h

/-- The batch of `epoll_wait` starts the loop. -/
theorem batch (ht : Tracks w s) {cap : ℕ} {timed : Bool} {ready : List (Fd × Mask)}
    (hpc : w.pc = .blocked cap timed) (h : w.Batch (min cap BATCH) ready) (hne : ready ≠ []) :
    Tracks { w with pc := .looping cap ready [] } s := by
  refine ⟨ht.reach, ht.own, ht.kernel, ht.held, ht.valid, ht.pending, ?_⟩
  have hwait := ht.wait
  rw [hpc] at hwait
  obtain ⟨wt, hw, hcap, hf, -, hx, -⟩ := hwait
  have hreg : ∀ e ∈ ready, e.1 ≠ w.poller.wfd → ∃ interests token,
      s.registry e.1 = some (interests, token) ∧
        e.2 = w.level e.1 &&& (watched interests ||| 0x18) ∧ e.2 ≠ 0 := by
    intro e he hfd
    obtain ⟨hrep, hz⟩ := h.reported e he
    obtain ⟨interests, token, hreg, hbits⟩ := ht.registered_of_report hfd (hrep ▸ hz)
    exact ⟨interests, token, hreg, hrep.trans hbits, hz⟩
  refine ⟨wt, hw, hcap, hf, fun hx' => ?_, ?_, ?_, fun e he hfd => ?_, fun e he hfd tok htok => ?_,
    fun e he hfd => ?_, nofun, fun e he hfd => ?_, fun _ hnil => absurd hnil hne⟩
  · rw [hx] at hx'
    cases hx'
  · simpa using h.length_le
  · simpa using h.nodup
  · obtain ⟨interests, token, hr, -⟩ := hreg e he hfd
    exact (ht.held _ _ _ hr).2.1
  · obtain ⟨interests, token, hr, -⟩ := hreg e he hfd
    obtain ⟨-, hpos, hh⟩ := ht.held _ _ _ hr
    obtain rfl := hh.unique ht.reach hpos htok
    exact ⟨s.registry, hf.now, interests, hr⟩
  · obtain ⟨interests, token, hr, hbits, hz⟩ := hreg e he hfd
    have hc := ht.valid _ _ _ hr
    rw [hbits] at hz ⊢
    exact ⟨⟨s.registry, hf.now, interests, token, hr, eventFlags_subset hc⟩,
      eventFlags_ne_zero hc hz⟩
  · obtain ⟨hrep, hz⟩ := h.reported e he
    rw [hrep, hfd] at hz
    exact ht.report_wake.mp hz

/-- A timeout expires only while no wake sticks. -/
theorem expire (ht : Tracks w s) {cap : ℕ} (hpc : w.pc = .blocked cap true)
    (h : w.Batch (min cap BATCH) []) : contract.Accepts s [.expired] ∧
      Tracks { w with pc := .looping cap [] [] } (contract.after s [.expired]) := by
  have hwait := ht.wait
  rw [hpc] at hwait
  obtain ⟨wt, hw, hcap, hf, hnot, -, hpos⟩ := hwait
  have hroom : ([] : List (Fd × Mask)).length < min cap BATCH := Nat.lt_min.mpr ⟨hpos, by decide⟩
  have hquiet : ¬ 0 < w.counter := by
    intro hc
    cases h.complete hroom _ (ht.report_wake.mpr hc)
  have hpend : s.pending = false := by
    rw [← Bool.not_eq_true, ht.pending]
    exact hquiet
  refine ⟨⟨trivial, hpend, wt, hw, hnot⟩, ht.reach, ht.own, ht.kernel, ht.held, ht.valid,
    ht.pending, _, Option.map_eq_some_iff.mpr ⟨wt, hw, rfl⟩, ?_⟩
  exact ⟨hcap, ⟨hf.now, hf.kept⟩, fun _ => ⟨rfl, rfl⟩, Nat.zero_le _, List.nodup_nil, nofun,
    nofun, nofun, nofun, nofun, fun _ _ => Or.inr (Or.inl rfl)⟩

/-- The read of the eventfd takes the wake. -/
theorem drain (ht : Tracks w s) {cap : ℕ} {e : Fd × Mask} {rest : List (Fd × Mask)}
    {events : List PollEvent} (hpc : w.pc = .looping cap (e :: rest) events)
    (he : e.1 = w.poller.wfd) : contract.Accepts s [.took] ∧
      Tracks
        { w with counter := 0, pc := .looping cap rest (w.poller.deliverOne cap events e) }
        (contract.after s [.took]) := by
  have hwait := ht.wait
  rw [hpc] at hwait
  obtain ⟨wt, hw, hc⟩ := hwait
  have hpend : s.pending = true := ht.pending.mpr (hc.wake e List.mem_cons_self he)
  have hsome : s.wait ≠ none := by
    rw [hw]
    exact Option.some_ne_none wt
  rw [deliverOne_wake he]
  refine ⟨⟨trivial, hpend, hsome⟩, ht.reach, ht.own, ht.kernel,
    ht.held, ht.valid, ?_, _, Option.map_eq_some_iff.mpr ⟨wt, hw, rfl⟩, ?_⟩
  · simp [contract, Contract.next]
  · have hnodup := hc.nodup
    rw [List.map_cons, List.nodup_append] at hnodup
    obtain ⟨hevents, hrest, hdisj⟩ := hnodup
    refine ⟨hc.cap_eq, ⟨hc.follows.now, hc.follows.kept⟩, fun hx => ?_, ?_, ?_,
      fun x hx => hc.checked x (List.mem_cons_of_mem _ hx),
      fun x hx => hc.named x (List.mem_cons_of_mem _ hx),
      fun x hx => hc.allowed x (List.mem_cons_of_mem _ hx), hc.delivered, fun x hx hxw => ?_,
      fun _ _ => Or.inl rfl⟩
    · cases (hc.expired hx).1
    · have hroom := hc.room
      rw [List.length_cons] at hroom
      omega
    · rw [List.nodup_append]
      exact ⟨hevents, hrest.of_cons, fun a ha b hb => hdisj a ha b (List.mem_cons_of_mem _ hb)⟩
    · -- the eventfd comes once
      have hmem : e.1 ∈ rest.map Prod.fst := by
        rw [he, ← hxw]
        exact List.mem_map_of_mem hx
      exact absurd hmem (List.nodup_cons.mp hrest).1

/-- One turn of the loop keeps the relation. -/
theorem deliver (ht : Tracks w s) {cap : ℕ} {e : Fd × Mask} {rest : List (Fd × Mask)}
    {events : List PollEvent} (hpc : w.pc = .looping cap (e :: rest) events)
    (he : e.1 ≠ w.poller.wfd) :
    Tracks { w with pc := .looping cap rest (w.poller.deliverOne cap events e) } s := by
  refine ⟨ht.reach, ht.own, ht.kernel, ht.held, ht.valid, ht.pending, ?_⟩
  have hwait := ht.wait
  rw [hpc] at hwait
  obtain ⟨wt, hw, hc⟩ := hwait
  have hmem : e ∈ e :: rest := List.mem_cons_self
  have hroom := hc.room
  rw [List.length_cons] at hroom
  have hlt : events.length < cap := by omega
  have hpos := hc.checked e hmem he
  obtain ⟨hallows, hz⟩ := hc.allowed e hmem he
  have hnotexpired : wt.expired ≠ true := fun hx => by cases (hc.expired hx).1
  refine ⟨wt, hw, ?_⟩
  by_cases hh : ∃ token, Holds w.poller e.1 token
  · obtain ⟨token, hh⟩ := hh
    rw [deliverOne_of_holds ht.reach hpos hh he hlt]
    refine ⟨hc.cap_eq, hc.follows, fun hx => absurd hx hnotexpired, ?_, ?_,
      fun x hx => hc.checked x (List.mem_cons_of_mem _ hx),
      fun x hx => hc.named x (List.mem_cons_of_mem _ hx),
      fun x hx => hc.allowed x (List.mem_cons_of_mem _ hx), fun x hx => ?_,
      fun x hx => hc.wake x (List.mem_cons_of_mem _ hx), fun hnil => ?_⟩
    · rw [List.length_append, List.length_singleton]
      omega
    · simpa using hc.nodup
    · rcases List.mem_append.mp hx with hold | hnew
      · exact hc.delivered x hold
      · rw [List.mem_singleton.mp hnew]
        exact ⟨hc.named e hmem he token hh, hallows, hz⟩
    · simp at hnil
  · push Not at hh
    rw [deliverOne_of_not_holds hh]
    refine ⟨hc.cap_eq, hc.follows, fun hx => absurd hx hnotexpired, by omega, ?_,
      fun x hx => hc.checked x (List.mem_cons_of_mem _ hx),
      fun x hx => hc.named x (List.mem_cons_of_mem _ hx),
      fun x hx => hc.allowed x (List.mem_cons_of_mem _ hx), hc.delivered,
      fun x hx => hc.wake x (List.mem_cons_of_mem _ hx), fun _ _ => ?_⟩
    · have hnodup := hc.nodup
      rw [List.map_cons] at hnodup
      exact hnodup.sublist ((List.sublist_cons_self _ _).append_left _)
    · -- the wait saw the registration of the skipped event, which is gone
      obtain ⟨m, hm, interests, token, hreg, -⟩ := hallows
      have hgone : s.registry e.1 = none := by
        cases hnow : s.registry e.1 with
        | none => rfl
        | some r => exact absurd (ht.held _ r.1 r.2 hnow).2.2 (hh r.2)
      have hsaw : m e.1 ≠ none := by
        rw [hreg]
        exact Option.some_ne_none _
      rcases hc.follows.kept m hm e.1 hsaw with hnow | hd
      · exact absurd hgone hnow
      · exact Or.inr (Or.inr hd)

/-- The events that the loop leaves are a report. -/
theorem done (ht : Tracks w s) {cap : ℕ} {events : List PollEvent}
    (hpc : w.pc = .looping cap [] events) : contract.Accepts s [.returned events] ∧
      Tracks { w with pc := .idle } (contract.after s [.returned events]) := by
  have hwait := ht.wait
  rw [hpc] at hwait
  obtain ⟨wt, hw, hc⟩ := hwait
  have hnodup : (events.map PollEvent.fd).Nodup := by simpa using hc.nodup
  have hreports : wt.Reports events := by
    refine ⟨?_, fun e he => (hc.delivered e he).1, fun e he => (hc.delivered e he).2.1,
      fun e he => (hc.delivered e he).2.2, ?_, fun hnil => hc.reason hnil rfl,
      fun hx => (hc.expired hx).2⟩
    · rw [hc.cap_eq]
      exact hc.room
    · refine (List.pairwise_map.mp hnodup).imp fun hne heq => ?_
      exact absurd heq hne
  exact ⟨⟨trivial, wt, hw, hreports⟩, ht.reach, ht.own, ht.kernel, ht.held, ht.valid, ht.pending,
    rfl⟩

/-- A wake keeps the relation. -/
theorem wake (ht : Tracks w s) :
    let o := Observed.woke (if w.counter < EVENTFD_MAX then none else some .EAGAIN)
    contract.Accepts s [o] ∧
      Tracks { w with counter := eventfdWrite w.counter } (contract.after s [o]) := by
  intro o
  have hpos : 0 < eventfdWrite w.counter := by
    unfold eventfdWrite
    split_ifs with h
    · exact Nat.succ_pos _
    · exact Nat.lt_of_lt_of_le (by decide) (Nat.not_lt.mp h)
  have hwait : WaitTracks w.poller (eventfdWrite w.counter) s.registry s.wait w.pc := by
    have hold := ht.wait
    cases hpc : w.pc with
    | idle | blocked cap timed =>
      rw [hpc] at hold
      exact hold
    | looping cap rest events =>
      rw [hpc] at hold
      obtain ⟨wt, hw, hc⟩ := hold
      exact ⟨wt, hw, { hc with wake := fun _ _ _ => hpos }⟩
  by_cases hlt : w.counter < EVENTFD_MAX
  · have ho : o = .woke none := by simp [o, hlt]
    rw [ho]
    exact ⟨⟨trivial, trivial⟩, ht.reach, ht.own, ht.kernel, ht.held, ht.valid,
      iff_of_true rfl hpos, hwait⟩
  · have ho : o = .woke (some .EAGAIN) := by simp [o, hlt]
    have hpend : s.pending = true :=
      ht.pending.mpr (Nat.lt_of_lt_of_le (by decide) (Nat.not_lt.mp hlt))
    rw [ho]
    exact ⟨⟨trivial, hpend⟩, ht.reach, ht.own, ht.kernel, ht.held, ht.valid,
      iff_of_true hpend hpos, hwait⟩

/-- A step of the poller shows what the contract permits. -/
theorem step (ht : Tracks w s) {os : List Observed} {w' : EpollWorld} (hs : EpollStep w os w') :
    contract.Accepts s os ∧ Tracks w' (contract.after s os) := by
  cases hs with
  | register f₁ f₂ fd interests token hfd => exact ht.set f₁ f₂ hfd true (Or.inl rfl)
  | modify f fd interests token hfd => exact ht.set f none hfd false (Or.inr rfl)
  | unregister hfd hf h => exact ht.unregister hfd hf h
  | close fd hfd => exact ⟨⟨trivial, trivial⟩, ht.close hfd⟩
  | ready fd events =>
    exact ⟨trivial, ht.reach, ht.own, ht.kernel, ht.held, ht.valid, ht.pending, ht.wait⟩
  | wake => exact ht.wake
  | invalid hpc =>
    have hidle := ht.wait
    rw [hpc] at hidle
    refine ⟨⟨trivial, fun wt hw => ?_⟩, ht.reach, ht.own, ht.kernel, ht.held, ht.valid,
      ht.pending, ?_⟩
    · rw [Automaton.after_nil, hidle] at hw
      cases hw
    · rw [hpc]
      rfl
  | wait timed hpc hcap =>
    have hidle := ht.wait
    rw [hpc] at hidle
    have hpos := Nat.pos_of_ne_zero hcap
    refine ⟨⟨trivial, hidle, hpos⟩, ht.reach, ht.own, ht.kernel, ht.held, ht.valid, ht.pending,
      _, rfl, rfl, ⟨List.mem_singleton_self _, fun m hm fd hfd => ?_⟩, rfl, rfl, hpos⟩
    rw [List.mem_singleton.mp hm] at hfd
    exact Or.inl hfd
  | fail err hpc =>
    have hwait := ht.wait
    rw [hpc] at hwait
    obtain ⟨wt, hw, -, -, hnot, -⟩ := hwait
    refine ⟨⟨trivial, fun wt' hw' => ?_⟩, ht.reach, ht.own, ht.kernel, ht.held, ht.valid,
      ht.pending, rfl⟩
    obtain rfl := Option.some.inj (hw.symm.trans hw')
    exact hnot
  | batch hpc h hne => exact ⟨trivial, ht.batch hpc h hne⟩
  | expire hpc h => exact ht.expire hpc h
  | drain hpc he => exact ht.drain hpc he
  | deliver hpc he => exact ⟨trivial, ht.deliver hpc he⟩
  | done hpc => exact ht.done hpc

end Tracks

/-- The poller after `mjs_epoll_create` is the contract at its start. -/
theorem tracks_start {w : EpollWorld} (hs : Start w.poller) (hc : w.counter = 0)
    (hpc : w.pc = .idle) : Tracks w contract.start where
  reach i _ hi := by
    rw [hs.tableFd i] at hi
    cases hi
  own := by rw [hs.kernel, if_pos rfl]
  kernel fd hfd := by
    rw [hs.kernel, if_neg hfd]
    rfl
  held := nofun
  valid := nofun
  pending := by simp [contract, hc]
  wait := by
    rw [hpc]
    rfl

/-- The poller simulates the contract. -/
theorem epoll_simulates : epollSystem.Simulates contract Tracks where
  start _ h := tracks_start h.1 h.2.1 h.2.2
  step _ _ _ _ ht hs := ht.step hs

/-- Descriptor `3` is registered and becomes readable, and a wait reports it. -/
def readable (pc : EpollPc) : EpollWorld where
  poller := homed
  counter := 0
  level := Function.update (fun _ => 0) 3 0x1
  pc := pc

/-- The trace until the wait. -/
theorem run_readable : epollSystem.Run [.waiting 1, .called (.register 3 READABLE 30) none]
    (readable (.blocked 1 true)) := by
  have hstart : epollSystem.Run [] ⟨fresh, 0, fun _ => 0, .idle⟩ :=
    .start ⟨start_fresh, rfl, rfl⟩
  have h₁ : EpollStep ⟨fresh, 0, fun _ => 0, .idle⟩ [.called (.register 3 READABLE 30) none]
      ⟨homed, 0, fun _ => 0, .idle⟩ := .register none none 3 READABLE 30 (by decide)
  have h₂ : EpollStep ⟨homed, 0, fun _ => 0, .idle⟩ [] (readable .idle) := .ready 3 0x1
  have h₃ : EpollStep (readable .idle) [.waiting 1] (readable (.blocked 1 true)) :=
    .wait true rfl (by decide)
  exact ((hstart.step h₁).step h₂).step h₃

theorem batch_readable : (readable (.blocked 1 true)).Batch (min 1 BATCH) [(3, 0x1)] :=
  ⟨by decide, by decide, by decide, fun h => absurd h (by decide)⟩

section Ready

variable {w : EpollWorld} {s : Contract} {tr : List Observed} {cap : ℕ}
  {ready : List (Fd × Mask)}

/-- The event that a registration makes of an event of the kernel. -/
def eventOf (m : Registry) (e : Fd × Mask) : Option PollEvent :=
  (m e.1).map fun r => ⟨r.2, e.1, eventFlags e.2⟩

/-- The loop delivers every event of a registered descriptor: it never finds the buffer full or a
descriptor missing from the table. -/
theorem Tracks.foldl_deliverOne (ht : Tracks w s) {events : List PollEvent}
    (hreg : ∀ e ∈ ready, e.1 ≠ w.poller.wfd → s.registry e.1 ≠ none)
    (hroom : events.length + ready.length ≤ cap) :
    ready.foldl (w.poller.deliverOne cap) events =
      events ++ ready.filterMap (eventOf s.registry) := by
  induction ready generalizing events with
  | nil => simp
  | cons e ready ih =>
    rw [List.length_cons] at hroom
    have hrest : ∀ x ∈ ready, x.1 ≠ w.poller.wfd → s.registry x.1 ≠ none :=
      fun x hx => hreg x (List.mem_cons_of_mem _ hx)
    rw [List.foldl_cons]
    by_cases he : e.1 = w.poller.wfd
    · have hnone : eventOf s.registry e = none := by
        cases hr : s.registry e.1 with
        | none => simp [eventOf, hr]
        | some r => exact absurd he (ht.held e.1 r.1 r.2 hr).1
      rw [deliverOne_wake he, List.filterMap_cons_none hnone, ih hrest (by omega)]
    · obtain ⟨r, hr⟩ := Option.ne_none_iff_exists'.mp (hreg e List.mem_cons_self he)
      obtain ⟨-, hpos, hh⟩ := ht.held e.1 r.1 r.2 hr
      have hsome : eventOf s.registry e = some ⟨r.2, e.1, eventFlags e.2⟩ := by
        simp [eventOf, hr]
      rw [deliverOne_of_holds ht.reach hpos hh he (by omega), List.filterMap_cons_some hsome,
        ih hrest, List.append_assoc]
      · rfl
      · rw [List.length_append, List.length_singleton]
        omega

/-- In every reachable state, a wait whose loop no call interrupts delivers exactly the events of
the batch but that of the eventfd, with the registered tokens; and it reports every registered
descriptor whose conditions meet its interests, or the batch is full. -/
theorem wait_reports_ready (hr : epollSystem.Run tr w) (h : w.Batch (min cap BATCH) ready) :
    w.poller.deliver cap ready = ready.filterMap (eventOf (registryOf tr)) ∧
      (∀ e ∈ ready, e.1 ≠ w.poller.wfd → registryOf tr e.1 ≠ none) ∧
      ∀ fd interests token, registryOf tr fd = some (interests, token) →
        w.level fd &&& (watched interests ||| 0x18) ≠ 0 → ready.length < min cap BATCH →
          ⟨token, fd, eventFlags (w.level fd &&& (watched interests ||| 0x18))⟩ ∈
            w.poller.deliver cap ready := by
  have ht := (epoll_simulates.run hr).2
  have hregistry : (contract.after contract.start tr).registry = registryOf tr :=
    registry_stateOf tr
  have hreg : ∀ e ∈ ready, e.1 ≠ w.poller.wfd → registryOf tr e.1 ≠ none := by
    intro e he hfd
    obtain ⟨hrep, hz⟩ := h.reported e he
    obtain ⟨interests, token, hsome, -⟩ := ht.registered_of_report hfd (hrep ▸ hz)
    rw [← hregistry, hsome]
    exact Option.some_ne_none _
  have hroom : ([] : List PollEvent).length + ready.length ≤ cap := by
    have hlen := h.length_le
    simp only [List.length_nil]
    omega
  have hdeliver : w.poller.deliver cap ready = ready.filterMap (eventOf (registryOf tr)) := by
    rw [Epoller.deliver, ht.foldl_deliverOne (by rwa [hregistry]) hroom, List.nil_append, hregistry]
  refine ⟨hdeliver, hreg, fun fd interests token hsome hlevel hlt => ?_⟩
  have hfd : fd ≠ w.poller.wfd := (ht.held fd interests token (by rwa [hregistry])).1
  have hrep : w.report fd = w.level fd &&& (watched interests ||| 0x18) := by
    have hk := ht.kernel fd hfd
    rw [hregistry, hsome] at hk
    simp [EpollWorld.report, hk, EpollWorld.current, hfd]
  obtain ⟨e, he, rfl⟩ := List.mem_map.mp (h.complete hlt fd (hrep ▸ hlevel))
  rw [hdeliver, List.mem_filterMap]
  refine ⟨e, he, ?_⟩
  rw [eventOf, hsome, (h.reported e he).1, hrep]
  rfl

theorem wait_reports_ready_readable :
    (readable (.blocked 1 true)).poller.deliver 1 [(3, 0x1)] = [⟨30, 3, READABLE⟩] := by
  rw [(wait_reports_ready run_readable batch_readable).1]
  decide

end Ready

end MojitoSys.Io.Epoll
