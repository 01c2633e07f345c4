import MojitoSys.Io.Kqueue
import MojitoSys.Io.PollerContract
import Mathlib.Algebra.Ring.Int.Defs

/-!
# Waits and wakes of the kqueue backend

The poller of `mjs_poller.c` as a whole: `mjs_poller_wait` and its loop over the batch of `kevent`,
the user event of `mjs_poller_wake`, and the calls on the filters, which other threads may make
between any two steps of the wait.

Every filter has `EV_CLEAR`: a knote becomes active when something happens to its descriptor, and a
batch that reports it clears it. A trigger of the user event is such an activation, so that the
batch itself takes the wake. The first of the two changes of a call may fail.

## Main definitions

* `Kevent`, `eventOf`, `deliverOne`: an event of the batch, and the loop of `mjs_poller_wait`.
* `KqueueWorld`, `KqueueStep`, `kqueueSystem`: the poller with its waiter and the kernel.
* `Tracks`: the state of the poller is that of the contract.

## Main results

* `kqueue_simulates`: the poller simulates the contract.
* `kqueue_obeys_contract`: its traces are those of the contract.
-/

namespace MojitoSys.Io.Kqueue

open Util

/-- `MJS_POLLER_WAKE_IDENT`. -/
def WAKE_IDENT : ℕ := 0x4D4A535953

/-- The filter of an event: one of a descriptor, or `EVFILT_USER`. -/
inductive EventFilter
  | fd (filter : Filter)
  | user
  deriving DecidableEq, Repr

/-- `struct kevent`, as far as the wait reads it. -/
structure Kevent where
  ident : ℕ
  filter : EventFilter
  /-- `EV_EOF` in `flags`. -/
  eof : Bool
  data : ℤ
  udata : Token
  deriving DecidableEq, Repr

namespace Kevent

/-- The event of the wake. -/
def isWake (e : Kevent) : Bool := e.ident = WAKE_IDENT ∧ e.filter = .user

/-- The flags of an event. -/
def flags (e : Kevent) : Mask :=
  (if e.filter = .fd .write then WRITABLE else READABLE) |||
    if e.eof then EOF ||| (if e.data < 0 then ERROR else 0) else 0

/-- The event that is delivered, with `ident` cast to `int32_t`. -/
def toPollEvent (e : Kevent) : PollEvent := ⟨e.udata, (BitVec.ofNat 32 e.ident).toInt, e.flags⟩

end Kevent

/-- The body of the loop of `mjs_poller_wait`. -/
def deliverOne (cap : ℕ) (events : List PollEvent) (e : Kevent) : List PollEvent :=
  if e.isWake then events
  else if cap ≤ events.length then events
  else events ++ [e.toPollEvent]

/-- Where the waiter is. -/
inductive KqueuePc
  /-- Outside of `mjs_poller_wait`. -/
  | idle
  /-- In `kevent`, with a timeout or without. -/
  | blocked (cap : ℕ) (timed : Bool)
  /-- In the loop, with the rest of the batch and the events delivered so far. -/
  | looping (cap : ℕ) (rest : List Kevent) (events : List PollEvent)
  deriving DecidableEq, Repr

/-- The poller, the activations of its knotes and the waiter. -/
structure KqueueWorld where
  queue : Kqueue
  /-- What a batch would report of a knote: `EV_EOF` and `data`. -/
  active : Fd → Filter → Option (Bool × ℤ)
  /-- The user event is triggered. -/
  triggered : Bool
  pc : KqueuePc

namespace KqueueWorld

/-- The kernel has an event to report. -/
def Pending (w : KqueueWorld) (e : Kevent) : Prop :=
  match e.filter with
  | .user => e.ident = WAKE_IDENT ∧ w.triggered = true
  | .fd filter =>
    w.queue.knotes e.ident filter = some e.udata ∧ w.active e.ident filter = some (e.eof, e.data)

/-- What `kevent` may return. -/
structure Batch (w : KqueueWorld) (maxevents : ℕ) (ready : List Kevent) : Prop where
  nodup : (ready.map fun e => (e.ident, e.filter)).Nodup
  length_le : ready.length ≤ maxevents
  pending : ∀ e ∈ ready, w.Pending e
  /-- A triggered user event is left out only of a full batch. -/
  complete : ready.length < maxevents → w.triggered = true → ∃ e ∈ ready, e.isWake = true

/-- A batch clears what it reports. -/
def clear (w : KqueueWorld) (ready : List Kevent) : KqueueWorld :=
  { w with
    active := fun fd filter =>
      if ready.any fun e => e.ident = fd ∧ e.filter = .fd filter then none else w.active fd filter
    triggered := w.triggered && !ready.any Kevent.isWake }

end KqueueWorld

/-- One step of a caller, of the waiter or of the kernel, with what it shows. A descriptor is an
`int`. -/
inductive KqueueStep (w : KqueueWorld) : List Observed → KqueueWorld → Prop
  | register {f : Option Errno} (fd : Fd) (interests : Mask) (token : Token)
      (hint : fd < 2 ^ 31) (hf : f ≠ some .ENOENT) :
      KqueueStep w
        [.called (.register fd interests token) (w.queue.register f none fd interests token).1]
        { w with queue := (w.queue.register f none fd interests token).2 }
  | modify {f : Option Errno} (fd : Fd) (interests : Mask) (token : Token) (hint : fd < 2 ^ 31)
      (hf : f ≠ some .ENOENT) :
      KqueueStep w
        [.called (.modify fd interests token) (w.queue.modify f none fd interests token).1]
        { w with queue := (w.queue.modify f none fd interests token).2 }
  | unregister {f : Option Errno} (fd : Fd) (hint : fd < 2 ^ 31) (hf : f ≠ some .ENOENT) :
      KqueueStep w [.called (.unregister fd) (w.queue.unregister f none fd).1]
        { w with queue := (w.queue.unregister f none fd).2 }
  /-- A descriptor is closed by its owner, which removes its knotes. -/
  | close (fd : Fd) :
      KqueueStep w [.closed fd]
        { w with queue := ⟨Function.update w.queue.knotes fd fun _ => none⟩ }
  /-- Something happens to a descriptor. -/
  | activate (fd : Fd) (filter : Filter) (v : Option (Bool × ℤ)) :
      KqueueStep w [] { w with
        active := Function.update w.active fd (Function.update (w.active fd) filter v) }
  /-- `mjs_poller_wake`. -/
  | wake : KqueueStep w [.woke none] { w with triggered := true }
  /-- A wait with no room for events. -/
  | invalid (hpc : w.pc = .idle) : KqueueStep w [.failed .EINVAL] w
  | wait {cap : ℕ} (timed : Bool) (hpc : w.pc = .idle) (hcap : cap ≠ 0) :
      KqueueStep w [.waiting cap] { w with pc := .blocked cap timed }
  /-- `kevent` fails, as with `EINTR`. -/
  | fail {cap : ℕ} {timed : Bool} (err : Errno) (hpc : w.pc = .blocked cap timed) :
      KqueueStep w [.failed err] { w with pc := .idle }
  | batch {cap : ℕ} {timed : Bool} {ready : List Kevent} (hpc : w.pc = .blocked cap timed)
      (h : w.Batch (min cap BATCH) ready) (hne : ready ≠ []) :
      KqueueStep w (if ready.any Kevent.isWake then [.took] else [])
        { w.clear ready with pc := .looping cap ready [] }
  | expire {cap : ℕ} (hpc : w.pc = .blocked cap true) (h : w.Batch (min cap BATCH) []) :
      KqueueStep w [.expired] { w with pc := .looping cap [] [] }
  | deliver {cap : ℕ} {e : Kevent} {rest : List Kevent} {events : List PollEvent}
      (hpc : w.pc = .looping cap (e :: rest) events) :
      KqueueStep w [] { w with pc := .looping cap rest (deliverOne cap events e) }
  | done {cap : ℕ} {events : List PollEvent} (hpc : w.pc = .looping cap [] events) :
      KqueueStep w [.returned events] { w with pc := .idle }

/-- The poller from `mjs_poller_create` on. -/
def kqueueSystem : System KqueueWorld Observed where
  start w := (∀ fd filter, w.queue.knotes fd filter = none) ∧ w.triggered = false ∧ w.pc = .idle
  step := KqueueStep

/-! ### The relation with the contract -/

/-- What the loop will have delivered at its end. -/
def total (rest : List Kevent) (events : List PollEvent) : List PollEvent :=
  events ++ (rest.filter fun e => !e.isWake).map Kevent.toPollEvent

/-- The waiter is in the state of the wait of the contract. -/
def WaitTracks (m : Registry) (wait : Option Wait) : KqueuePc → Prop
  | .idle => wait = none
  | .blocked cap _ => ∃ wt, wait = some wt ∧ wt.cap = cap ∧ wt.Follows m ∧ wt.took = false ∧
    wt.expired = false ∧ 0 < cap
  | .looping cap rest events => ∃ wt, wait = some wt ∧ wt.Follows m ∧
    events.length + rest.length ≤ cap ∧ wt.Reports (total rest events)

/-- The poller is in the state of the contract. -/
structure Tracks (w : KqueueWorld) (s : Contract) : Prop where
  implements : w.queue.Implements s.registry
  valid : s.registry.Valid
  checked : ∀ fd, s.registry fd ≠ none → 0 ≤ fd ∧ fd < 2 ^ 31
  pending : s.pending = w.triggered
  wait : WaitTracks s.registry s.wait w.pc

theorem WaitTracks.see {s : Contract} {pc : KqueuePc} {fd : Fd} {m : Registry}
    (h : WaitTracks s.registry s.wait pc) (hm : ∀ x, x ≠ fd → m x = s.registry x) :
    WaitTracks m (s.put fd m).wait pc := by
  cases pc with
  | idle =>
    simp only [WaitTracks] at h ⊢
    simp [Contract.put, h]
  | blocked cap timed =>
    obtain ⟨wt, hwait, hcap, hf, ht, hx⟩ := h
    exact ⟨_, Option.map_eq_some_iff.mpr ⟨wt, hwait, rfl⟩, hcap, hf.see hm, ht, hx⟩
  | looping cap rest events =>
    obtain ⟨wt, hwait, hf, hlen, hr⟩ := h
    exact ⟨_, Option.map_eq_some_iff.mpr ⟨wt, hwait, rfl⟩, hf.see hm, hlen, hr.see⟩

/-! ### The calls -/

section Calls

variable {k : Kqueue} {f : Option Errno} {fd : Fd} {interests : Mask} {token : Token}

/-- A call whose first change fails changes nothing. -/
theorem applyFilters_failed_first {err : Errno} (hf : err ≠ .ENOENT) :
    k.applyFilters (some err) none fd interests token = (some err, k) := by
  have hread (want : Bool) : k.applyFilter (some err) fd .read want token = (some err, k) := by
    cases want with
    | true => rfl
    | false => cases err <;> first | exact absurd rfl hf | rfl
  rw [applyFilters, hread]

/-- A registration or a modification is refused and changes nothing, or is the call of a kernel
that does not fail. -/
theorem pollSet_cases (hf : f ≠ some .ENOENT) :
    (∃ err, k.pollSet f none fd interests token = (some err, k)) ∨
      checkInterests interests = none ∧ 0 ≤ fd ∧
        k.pollSet f none fd interests token = k.pollSet none none fd interests token := by
  unfold pollSet
  cases hc : checkInterests interests with
  | some err => exact Or.inl ⟨err, rfl⟩
  | none =>
    dsimp only
    split_ifs with hneg
    · exact Or.inl ⟨.EBADF, rfl⟩
    · cases f with
      | none => exact Or.inr ⟨rfl, Int.not_lt.mp hneg, rfl⟩
      | some err =>
        have hne : err ≠ .ENOENT := fun h => hf (congrArg some h)
        exact Or.inl ⟨err, applyFilters_failed_first hne⟩

/-- An unregistration is refused and changes nothing, or is the call of a kernel that does not
fail. -/
theorem unregister_cases (hf : f ≠ some .ENOENT) :
    (∃ err, k.unregister f none fd = (some err, k)) ∨
      0 ≤ fd ∧ k.unregister f none fd = k.unregister none none fd := by
  unfold unregister
  split_ifs with hneg
  · exact Or.inl ⟨.EBADF, rfl⟩
  · cases f with
    | none => exact Or.inr ⟨Int.not_lt.mp hneg, rfl⟩
    | some err =>
      have hne : err ≠ .ENOENT := fun h => hf (congrArg some h)
      exact Or.inl ⟨err, applyFilters_failed_first hne⟩

end Calls

/-! ### The flags -/

section Flags

variable {filter filter' : Filter} {flags flags' interests : Mask}

/-- Flags of an event of a filter: its bit, and perhaps `EOF` and `ERROR`. -/
def FlagsOf (filter : Filter) (flags : Mask) : Prop :=
  flags = filter.bit ∨ flags = filter.bit ||| EOF ∨ flags = filter.bit ||| (EOF ||| ERROR)

theorem flags_of_filter {e : Kevent} (he : e.filter = .fd filter) : FlagsOf filter e.flags := by
  unfold FlagsOf Kevent.flags
  rw [he]
  cases filter <;> cases e.eof <;> by_cases hd : e.data < 0 <;> simp [Filter.bit, hd]

theorem flags_ne_zero (h : FlagsOf filter flags) : flags ≠ 0 := by
  cases filter <;> rcases h with rfl | rfl | rfl <;> decide

theorem flags_disjoint (h : FlagsOf filter flags) (h' : FlagsOf filter' flags')
    (hne : filter ≠ filter') : flags &&& flags' &&& (READABLE ||| WRITABLE) = 0 := by
  cases filter <;> cases filter' <;> first | exact absurd rfl hne | skip
  all_goals rcases h with rfl | rfl | rfl <;> rcases h' with rfl | rfl | rfl <;> decide

theorem flags_allowed (h : FlagsOf filter flags) (hc : checkInterests interests = none)
    (hbit : interests &&& filter.bit ≠ 0) : flags &&& ~~~(interests ||| EOF ||| ERROR) = 0 := by
  rcases checkInterests_eq_none hc with rfl | rfl | rfl <;> cases filter <;>
    first | exact absurd (by decide) hbit | skip
  all_goals rcases h with rfl | rfl | rfl <;> decide

end Flags

namespace Tracks

variable {w : KqueueWorld} {s : Contract}

/-- A call that the kernel does not fail shows what the contract permits. -/
theorem call (ht : Tracks w s) {op : Op} (h0 : 0 ≤ op.fd) (hint : op.fd < 2 ^ 31)
    (hop : op.status = none) :
    contract.Accepts s [.called op (w.queue.call op).1] ∧
      Tracks { w with queue := (w.queue.call op).2 }
        (contract.after s [.called op (w.queue.call op).1]) := by
  obtain ⟨hst, himp⟩ := ht.implements.call op h0
  rw [hst, hop]
  refine ⟨⟨trivial, hop⟩, himp, ht.valid.apply op, fun x hx => ?_, ht.pending,
    ht.wait.see fun x hx => Op.apply_of_ne hx⟩
  by_cases hne : x = op.fd
  · rw [hne]
    exact ⟨h0, hint⟩
  · refine ht.checked x fun hnone => hx ?_
    exact (Op.apply_of_ne hne).trans hnone

/-- A refused call is permitted and changes nothing. -/
theorem refuse (ht : Tracks w s) (op : Op) {r : Status × Kqueue}
    (hr : ∃ err, r = (some err, w.queue)) :
    contract.Accepts s [.called op r.1] ∧
      Tracks { w with queue := r.2 } (contract.after s [.called op r.1]) := by
  obtain ⟨err, rfl⟩ := hr
  exact ⟨⟨trivial, trivial⟩, ht⟩

/-- The closing of a descriptor keeps the relation. -/
theorem close (ht : Tracks w s) (fd : Fd) :
    Tracks { w with queue := ⟨Function.update w.queue.knotes fd fun _ => none⟩ }
      (s.put fd (Function.update s.registry fd none)) where
  implements x filter := by
    by_cases hne : x = fd
    · simp [hne, Contract.put, filterToken]
    · simpa [hne, Contract.put] using ht.implements x filter
  valid := ht.valid.apply (.unregister fd)
  checked x hx := by
    refine ht.checked x fun hnone => hx ?_
    by_cases hne : x = fd
    · simp [hne, Contract.put]
    · simpa [hne, Contract.put] using hnone
  pending := ht.pending
  wait := ht.wait.see fun x hx => Function.update_of_ne hx _ _

/-- An event of a descriptor in the batch is that of its registration. -/
theorem registered_of_pending (ht : Tracks w s) {e : Kevent} (he : e.isWake = false)
    (hp : w.Pending e) : ∃ filter interests, e.filter = .fd filter ∧
      interests &&& filter.bit ≠ 0 ∧ s.registry e.ident = some (interests, e.udata) ∧
      e.toPollEvent.fd = e.ident := by
  cases hfilter : e.filter with
  | user =>
    simp only [KqueueWorld.Pending, hfilter] at hp
    simp [Kevent.isWake, hfilter, hp.1] at he
  | fd filter =>
    simp only [KqueueWorld.Pending, hfilter] at hp
    have hreg := ht.implements e.ident filter
    rw [hp.1] at hreg
    cases hm : s.registry e.ident with
    | none => simp [hm, filterToken] at hreg
    | some r =>
      obtain ⟨interests, token⟩ := r
      simp only [hm, filterToken] at hreg
      split_ifs at hreg with hbit
      have hlt := (ht.checked e.ident (by simp [hm])).2
      refine ⟨filter, interests, rfl, hbit, by rw [Option.some.inj hreg], ?_⟩
      have hident : e.ident < 2 ^ 31 := by exact_mod_cast hlt
      have hnat : (BitVec.ofNat 32 e.ident).toNat = e.ident := by
        rw [BitVec.toNat_ofNat]
        exact Nat.mod_eq_of_lt (by omega)
      rw [Kevent.toPollEvent, BitVec.toInt_eq_toNat_of_lt (by omega), hnat]

/-- A batch makes a report. -/
theorem reports (ht : Tracks w s) {cap : ℕ} {ready : List Kevent} {wt : Wait}
    (h : w.Batch (min cap BATCH) ready) (hcap : wt.cap = cap) (hf : wt.Follows s.registry)
    (hx : wt.expired = false) (hwake : ready.all Kevent.isWake = true → wt.took = true) :
    wt.Reports (total ready []) := by
  have hmem : ∀ ev ∈ total ready [], ∃ e ∈ ready, e.isWake = false ∧ ev = e.toPollEvent := by
    intro ev hev
    rw [total, List.nil_append] at hev
    obtain ⟨e, he, rfl⟩ := List.mem_map.mp hev
    obtain ⟨he, hw⟩ := List.mem_filter.mp he
    exact ⟨e, he, by simpa using hw, rfl⟩
  refine ⟨?_, fun ev hev => ?_, fun ev hev => ?_, fun ev hev => ?_, ?_, fun hnil => ?_,
    fun hx' => ?_⟩
  · rw [hcap, total, List.nil_append, List.length_map]
    exact Nat.le_trans (List.length_filter_le _ _) h.length_le
  · obtain ⟨e, he, hw, rfl⟩ := hmem ev hev
    obtain ⟨filter, interests, -, -, hreg, hfd⟩ := ht.registered_of_pending hw (h.pending e he)
    exact ⟨s.registry, hf.now, interests, by rw [hfd]; exact hreg⟩
  · obtain ⟨e, he, hw, rfl⟩ := hmem ev hev
    obtain ⟨filter, interests, hfilter, hbit, hreg, hfd⟩ :=
      ht.registered_of_pending hw (h.pending e he)
    refine ⟨s.registry, hf.now, interests, e.udata, by rw [hfd]; exact hreg, ?_⟩
    exact flags_allowed (flags_of_filter hfilter) (ht.valid _ _ _ hreg) hbit
  · obtain ⟨e, he, hw, rfl⟩ := hmem ev hev
    obtain ⟨filter, interests, hfilter, -⟩ := ht.registered_of_pending hw (h.pending e he)
    exact flags_ne_zero (flags_of_filter hfilter)
  · rw [total, List.nil_append, List.pairwise_map]
    refine ((List.pairwise_map.mp h.nodup).filter _).imp_of_mem fun {a b} ha hb hne heq => ?_
    obtain ⟨ha, haw⟩ := List.mem_filter.mp ha
    obtain ⟨hb, hbw⟩ := List.mem_filter.mp hb
    obtain ⟨fa, -, hfa, -, -, hfda⟩ :=
      ht.registered_of_pending (by simpa using haw) (h.pending a ha)
    obtain ⟨fb, -, hfb, -, -, hfdb⟩ :=
      ht.registered_of_pending (by simpa using hbw) (h.pending b hb)
    have hident : a.ident = b.ident := by
      rw [hfda, hfdb] at heq
      exact_mod_cast heq
    have hfilter : fa ≠ fb := by
      rintro rfl
      exact hne (by rw [hident, hfa, hfb])
    exact flags_disjoint (flags_of_filter hfa) (flags_of_filter hfb) hfilter
  · refine Or.inl (hwake (List.all_eq_true.mpr fun e he => ?_))
    by_contra hw
    have hin : e.toPollEvent ∈ total ready [] := by
      rw [total, List.nil_append]
      exact List.mem_map_of_mem (List.mem_filter.mpr ⟨he, by simpa using hw⟩)
    rw [hnil] at hin
    cases hin
  · rw [hx] at hx'
    cases hx'

/-- A batch starts the loop, and takes the wake if it has its event. -/
theorem batch (ht : Tracks w s) {cap : ℕ} {timed : Bool} {ready : List Kevent}
    (hpc : w.pc = .blocked cap timed) (h : w.Batch (min cap BATCH) ready) (hne : ready ≠ []) :
    let os := if ready.any Kevent.isWake then [Observed.took] else []
    contract.Accepts s os ∧
      Tracks { w.clear ready with pc := .looping cap ready [] } (contract.after s os) := by
  intro os
  have hwait := ht.wait
  rw [hpc] at hwait
  obtain ⟨wt, hw, hcap, hf, -, hx, -⟩ := hwait
  have hroom : ([] : List PollEvent).length + ready.length ≤ cap := by
    have hlen := h.length_le
    simp only [List.length_nil]
    omega
  cases hany : ready.any Kevent.isWake with
  | true =>
    have hos : os = [.took] := by simp [os, hany]
    obtain ⟨e, he, hew⟩ := List.any_eq_true.mp hany
    have htrig : w.triggered = true := by
      have hp := h.pending e he
      have huser : e.filter = .user := by
        simp only [Kevent.isWake, decide_eq_true_eq] at hew
        exact hew.2
      simp only [KqueueWorld.Pending, huser] at hp
      exact hp.2
    have hsome : s.wait ≠ none := by
      rw [hw]
      exact Option.some_ne_none wt
    rw [hos]
    refine ⟨⟨trivial, ht.pending.trans htrig, hsome⟩, ht.implements, ht.valid, ht.checked, ?_,
      { wt with took := true }, Option.map_eq_some_iff.mpr ⟨wt, hw, rfl⟩, ⟨hf.now, hf.kept⟩, hroom,
      ht.reports h hcap ⟨hf.now, hf.kept⟩ hx fun _ => rfl⟩
    simp [contract, Contract.next, KqueueWorld.clear, hany]
  | false =>
    have hos : os = [] := by simp [os, hany]
    rw [hos]
    refine ⟨trivial, ht.implements, ht.valid, ht.checked, ?_, wt, hw, hf, hroom,
      ht.reports h hcap hf hx fun hall => ?_⟩
    · simpa [KqueueWorld.clear, hany] using ht.pending
    · obtain ⟨e, he⟩ := List.exists_mem_of_ne_nil ready hne
      have hew := List.all_eq_true.mp hall e he
      rw [List.any_eq_true.mpr ⟨e, he, hew⟩] at hany
      cases hany

/-- A timeout expires only while no wake sticks. -/
theorem expire (ht : Tracks w s) {cap : ℕ} (hpc : w.pc = .blocked cap true)
    (h : w.Batch (min cap BATCH) []) : contract.Accepts s [.expired] ∧
      Tracks { w with pc := .looping cap [] [] } (contract.after s [.expired]) := by
  have hwait := ht.wait
  rw [hpc] at hwait
  obtain ⟨wt, hw, hcap, hf, hnot, -, hpos⟩ := hwait
  have hroom : ([] : List Kevent).length < min cap BATCH := Nat.lt_min.mpr ⟨hpos, by decide⟩
  have hquiet : w.triggered = false := by
    by_contra htrig
    obtain ⟨e, he, -⟩ := h.complete hroom (by simpa using htrig)
    cases he
  refine ⟨⟨trivial, ht.pending.trans hquiet, wt, hw, hnot⟩, ht.implements, ht.valid, ht.checked,
    ht.pending, { wt with expired := true }, Option.map_eq_some_iff.mpr ⟨wt, hw, rfl⟩,
    ⟨hf.now, hf.kept⟩, Nat.zero_le _, ?_⟩
  exact ⟨Nat.zero_le _, nofun, nofun, nofun, List.Pairwise.nil, fun _ => Or.inr (Or.inl rfl),
    fun _ => rfl⟩

/-- One turn of the loop brings the events nearer to the total. -/
theorem deliver (ht : Tracks w s) {cap : ℕ} {e : Kevent} {rest : List Kevent}
    {events : List PollEvent} (hpc : w.pc = .looping cap (e :: rest) events) :
    Tracks { w with pc := .looping cap rest (deliverOne cap events e) } s := by
  refine ⟨ht.implements, ht.valid, ht.checked, ht.pending, ?_⟩
  have hwait := ht.wait
  rw [hpc] at hwait
  obtain ⟨wt, hw, hf, hroom, hr⟩ := hwait
  rw [List.length_cons] at hroom
  refine ⟨wt, hw, hf, ?_⟩
  unfold deliverOne
  split_ifs with hwake hfull
  · refine ⟨by omega, ?_⟩
    simpa [total, hwake] using hr
  · omega
  · refine ⟨?_, ?_⟩
    · rw [List.length_append, List.length_singleton]
      omega
    · simpa [total, hwake] using hr

/-- A step of the poller shows what the contract permits. -/
theorem step (ht : Tracks w s) {os : List Observed} {w' : KqueueWorld} (hs : KqueueStep w os w') :
    contract.Accepts s os ∧ Tracks w' (contract.after s os) := by
  cases hs with
  | register fd interests token hint hf =>
    rcases pollSet_cases hf with hrefused | ⟨hc, h0, heq⟩
    · exact ht.refuse _ hrefused
    · simp only [register, heq]
      exact ht.call (show 0 ≤ (Op.register fd interests token).fd from h0) hint hc
  | modify fd interests token hint hf =>
    rcases pollSet_cases hf with hrefused | ⟨hc, h0, heq⟩
    · exact ht.refuse _ hrefused
    · simp only [modify, heq]
      exact ht.call (show 0 ≤ (Op.modify fd interests token).fd from h0) hint hc
  | unregister fd hint hf =>
    rcases unregister_cases hf with hrefused | ⟨h0, heq⟩
    · exact ht.refuse _ hrefused
    · simp only [heq]
      exact ht.call (show 0 ≤ (Op.unregister fd).fd from h0) hint rfl
  | close fd => exact ⟨⟨trivial, trivial⟩, ht.close fd⟩
  | activate fd filter v =>
    exact ⟨trivial, ht.implements, ht.valid, ht.checked, ht.pending, ht.wait⟩
  | wake => exact ⟨⟨trivial, trivial⟩, ht.implements, ht.valid, ht.checked, rfl, ht.wait⟩
  | invalid hpc =>
    have hidle := ht.wait
    rw [hpc] at hidle
    refine ⟨⟨trivial, fun wt hw => ?_⟩, ht.implements, ht.valid, ht.checked, ht.pending, ?_⟩
    · rw [Automaton.after_nil, hidle] at hw
      cases hw
    · rw [hpc]
      rfl
  | wait timed hpc hcap =>
    have hidle := ht.wait
    rw [hpc] at hidle
    have hpos := Nat.pos_of_ne_zero hcap
    refine ⟨⟨trivial, hidle, hpos⟩, ht.implements, ht.valid, ht.checked, ht.pending,
      _, rfl, rfl, ⟨List.mem_singleton_self _, fun m hm fd hfd => ?_⟩, rfl, rfl, hpos⟩
    rw [List.mem_singleton.mp hm] at hfd
    exact Or.inl hfd
  | fail err hpc =>
    have hwait := ht.wait
    rw [hpc] at hwait
    obtain ⟨wt, hw, -, -, hnot, -⟩ := hwait
    refine ⟨⟨trivial, fun wt' hw' => ?_⟩, ht.implements, ht.valid, ht.checked, ht.pending, rfl⟩
    obtain rfl := Option.some.inj (hw.symm.trans hw')
    exact hnot
  | batch hpc h hne => exact ht.batch hpc h hne
  | expire hpc h => exact ht.expire hpc h
  | deliver hpc => exact ⟨trivial, ht.deliver hpc⟩
  | done hpc =>
    have hwait := ht.wait
    rw [hpc] at hwait
    obtain ⟨wt, hw, -, -, hr⟩ := hwait
    rw [total, List.filter_nil, List.map_nil, List.append_nil] at hr
    exact ⟨⟨trivial, wt, hw, hr⟩, ht.implements, ht.valid, ht.checked, ht.pending, rfl⟩

end Tracks

/-- The poller simulates the contract. -/
theorem kqueue_simulates : kqueueSystem.Simulates contract Tracks where
  start w h := by
    refine ⟨fun fd filter => h.1 fd filter, nofun, fun _ hne => absurd rfl hne, h.2.1.symm, ?_⟩
    rw [h.2.2]
    rfl
  step _ _ _ _ ht hs := ht.step hs

/-- Descriptor `3` is watched for both interests, and its peer resets the connection. -/
def reset (active : Fd → Filter → Option (Bool × ℤ)) (pc : KqueuePc) : KqueueWorld :=
  ⟨both, active, false, pc⟩

end MojitoSys.Io.Kqueue
