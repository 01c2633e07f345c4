import MojitoSys.Io.Timeout
import MojitoSys.Sync.WaitContract
import MojitoSys.Sync.WaitUntilChanged

/-!
# Atomic wait and wake on Linux

The Linux side of `mjs_atomic_wait.c`. A wait computes the time that is left to its deadline and
calls the kernel, which compares the word and puts the thread to sleep in one step. A signal ends
the sleep, and the wait starts over with the time that is left then. A wake is one call of the
kernel.

Any number of threads call these functions on any words, and anybody stores to the words at any
time. A thread that was put to sleep stays in the queue of the kernel until a wake, a signal or its
timeout takes it out; a thread that a wake took out of the queue gets the answer `0`, whatever
happens before it runs again.

## Main definitions

* `FutexCall`, `FutexPc`, `waitSpan`, `waitAnswer`, `wakeAnswer`: the code between the calls of the
  kernel.
* `FutexWorld`, `FutexMove`, `futexSystem`: the calls, the kernel, the words and the clock.
* `FutexLaw`: what a program may rely on.

## Main results

* `futex_simulates`: the Linux side keeps the contract of atomic waits.
* `FutexMove.wait`: a wait moves by the steps of `mjsAtomicWaitLinux`.
* `futex_keeps_contract`: the law, for every run.
-/

namespace MojitoSys.Sync

open Util Time

/-! ### The code -/

/-- The calls of `mjs_atomic_wait_on_u32`, `mjs_atomic_wake_one_u32` and
`mjs_atomic_wake_all_u32`. -/
inductive FutexCall
  | wait (addr : Addr) (expected : BitVec 32) (deadline : Option MonotonicInstant)
  | wake (addr : Addr) (all : Bool)
  deriving DecidableEq, Repr

/-- The call in the contract, where the deadline only matters by its presence. -/
def FutexCall.toAw : FutexCall → AwCall
  | .wait addr expected deadline => .wait addr expected deadline.isSome
  | .wake addr all => .wake addr all

/-- The places in the code. -/
inductive FutexPc
  /-- The head of the loop. -/
  | clock
  /-- The call of `FUTEX_WAIT_PRIVATE`, with the time that is left. -/
  | futex (rem : Option Duration)
  /-- In the queue of the kernel, up to a time. -/
  | asleep (limit : Option ℕ)
  /-- Taken out of the queue by a wake. -/
  | woken (limit : Option ℕ)
  | done (rc : Status)
  /-- The call of `FUTEX_WAKE_PRIVATE`. -/
  | wake
  /-- A wake returned `n`. -/
  | doneWake (n : ℕ)
  deriving DecidableEq, Repr

/-- The loop of `mjs_atomic_wait_linux` up to the call of the kernel; `now` is what `mjs_clock_now`
tells, if it does not fail. -/
def waitSpan (deadline now : Option MonotonicInstant) : FutexPc :=
  match deadline, now with
  | none, _ => .futex none
  | some _, none => .done (some .EINVAL)
  | some deadline, some now => .futex (some (deadline.durationSince now))

/-- The loop of `mjs_atomic_wait_linux` after the call of the kernel; `EINTR` is `4`. -/
def waitAnswer : Status → FutexPc
  | none | some .EAGAIN => .done none
  | some (.other 4) => .clock
  | some err => .done (some err)

theorem waitAnswer_error {err : Errno} (h : err ≠ .EAGAIN) (h' : err ≠ .other 4) :
    waitAnswer (some err) = .done (some err) := by
  simp [waitAnswer]

/-- The most waits that a wake asks the kernel to take. -/
def wakeCount (all : Bool) : ℕ := if all then wakeLimit else 1

/-- The end of `mjs_atomic_wake_one_u32` and of `mjs_atomic_wake_all_u32`. -/
def wakeAnswer : Except Errno ℕ → FutexPc
  | .ok n => .doneWake n
  | .error err => .done (some err)

/-- The checks of the arguments. -/
def futexRefuse : FutexCall → Status
  | .wait addr _ _ | .wake addr _ => if addr = 0 then some .EFAULT else none

def futexStart (c : FutexCall) : FutexPc :=
  if futexRefuse c ≠ none then .done (futexRefuse c)
  else
    match c with
    | .wait _ _ _ => .clock
    | .wake _ _ => .wake

theorem futexStart_cases (c : FutexCall) :
    futexRefuse c = some .EFAULT ∧ futexStart c = .done (some .EFAULT) ∨
      futexRefuse c = none ∧ (futexStart c = .clock ∨ futexStart c = .wake) := by
  have hrefuse : futexRefuse c = some .EFAULT ∨ futexRefuse c = none := by
    cases c with
    | wait addr _ _ | wake addr _ =>
      simp only [futexRefuse]
      split_ifs
      · exact Or.inl rfl
      · exact Or.inr rfl
  rcases hrefuse with h | h
  · exact Or.inl ⟨h, by simp [futexStart, h]⟩
  · refine Or.inr ⟨h, ?_⟩
    cases c with
    | wait _ _ _ => exact Or.inl (by simp [futexStart, h])
    | wake _ _ => exact Or.inr (by simp [futexStart, h])

/-! ### The kernel -/

/-- The nanoseconds of the `timespec` that the kernel gets. -/
def spanOf (rem : Duration) : ℕ :=
  (Io.timespecOf rem.ns).1.toNat * 1000000000 + (Io.timespecOf rem.ns).2.toNat

theorem spanOf_eq (rem : Duration) : spanOf rem = rem.ns.toNat := (Io.timespecOf_exact rem.ns).1

/-- The words, the clock, the queue of the kernel and the calls. -/
structure FutexWorld (P : Type*) where
  mem : Memory
  now : MonotonicInstant
  queue : List P
  pc : P → FutexPc

section Steps

variable {P : Type*} [DecidableEq P]

/-- A call goes on to another place. -/
def FutexWorld.goto (w : FutexWorld P) (p : P) (l : FutexPc) : FutexWorld P :=
  { w with pc := Function.update w.pc p l }

/-- The kernel takes a wait out of its queue. -/
def FutexWorld.leave (w : FutexWorld P) (p : P) (l : FutexPc) : FutexWorld P :=
  { w with queue := w.queue.erase p, pc := Function.update w.pc p l }

/-- The waits in the queue for an address. -/
def FutexWorld.waiters (call : P → FutexCall) (w : FutexWorld P) (addr : Addr) : List P :=
  w.queue.filter fun p => (call p).toAw.addr = addr

/-- Where a wake that takes `ps` leaves a wait. -/
def FutexPc.hand : FutexPc → FutexPc
  | .asleep limit => .woken limit
  | l => l

/-- The kernel takes the waits `ps` out of its queue, and tells the wake `q` their number. -/
def FutexWorld.take (w : FutexWorld P) (q : P) (ps : List P) : FutexWorld P :=
  { w with
    queue := w.queue.filter (· ∉ ps)
    pc := Function.update (fun p => if p ∈ ps then (w.pc p).hand else w.pc p) q
      (wakeAnswer (.ok ps.length)) }

/-- What happens, with what it means for the contract. -/
inductive FutexMove (call : P → FutexCall) (w : FutexWorld P) :
    List (WaitEvent P) → FutexWorld P → Prop
  | store (addr : Addr) (v : BitVec 32) :
      FutexMove call w [.stored addr v] { w with mem := Function.update w.mem addr v }
  | tick {now : MonotonicInstant} (h : w.now.ticks.toNat ≤ now.ticks.toNat) :
      FutexMove call w [] { w with now := now }
  | span {p : P} {addr : Addr} {expected : BitVec 32} {deadline : Option MonotonicInstant}
      (hp : w.pc p = .clock) (hc : call p = .wait addr expected deadline) :
      FutexMove call w [] (w.goto p (waitSpan deadline (some w.now)))
  | noClock {p : P} {addr : Addr} {expected : BitVec 32} {deadline : MonotonicInstant}
      (hp : w.pc p = .clock) (hc : call p = .wait addr expected (some deadline)) :
      FutexMove call w [.refused p .EINVAL] (w.goto p (waitSpan (some deadline) none))
  | differs {p : P} {addr : Addr} {expected : BitVec 32} {deadline : Option MonotonicInstant}
      {rem : Option Duration} (hp : w.pc p = .futex rem)
      (hc : call p = .wait addr expected deadline) (h : w.mem addr ≠ expected) :
      FutexMove call w [.differed p] (w.goto p (waitAnswer (some .EAGAIN)))
  | sleep {p : P} {addr : Addr} {expected : BitVec 32} {deadline : Option MonotonicInstant}
      {rem : Option Duration} (hp : w.pc p = .futex rem)
      (hc : call p = .wait addr expected deadline) (h : w.mem addr = expected) :
      FutexMove call w [.slept p] { w with
        queue := w.queue ++ [p]
        pc := Function.update w.pc p (.asleep (rem.map (w.now.ticks.toNat + spanOf ·))) }
  /-- The kernel refuses the call before the comparison. -/
  | refused {p : P} {rem : Option Duration} {err : Errno} (hp : w.pc p = .futex rem)
      (herr : err ≠ .EAGAIN ∧ err ≠ .other 4 ∧ ¬ TimedOut (some err)) :
      FutexMove call w [.refused p err] (w.goto p (waitAnswer (some err)))
  | signal {p : P} {limit : Option ℕ} (hp : w.pc p = .asleep limit) :
      FutexMove call w [.stirred p] (w.leave p (waitAnswer (some (.other 4))))
  | expire {p : P} {limit : ℕ} (hp : w.pc p = .asleep (some limit))
      (hlimit : limit ≤ w.now.ticks.toNat) :
      FutexMove call w [.failed p .ETIMEDOUT] (w.leave p (waitAnswer (some .ETIMEDOUT)))
  /-- Code outside of these calls wakes the thread. -/
  | stray {p : P} {limit : Option ℕ} (hp : w.pc p = .asleep limit) :
      FutexMove call w [.strayed p] (w.leave p (.woken limit))
  | took {p : P} {limit : Option ℕ} (hp : w.pc p = .woken limit) :
      FutexMove call w [.took p] (w.goto p (waitAnswer none))
  /-- The kernel says nothing about which waits a wake takes. -/
  | wake {q : P} {addr : Addr} {all : Bool} {ps : List P} (hq : w.pc q = .wake)
      (hc : call q = .wake addr all) (hps : ps.Nodup) (hsub : ps ⊆ w.waiters call addr)
      (hlen : ps.length = min (wakeCount all) (w.waiters call addr).length) :
      FutexMove call w [.woke q ps] (w.take q ps)
  | wakeFails {q : P} {addr : Addr} {all : Bool} {err : Errno} (hq : w.pc q = .wake)
      (hc : call q = .wake addr all) :
      FutexMove call w [.refused q err] (w.goto q (wakeAnswer (.error err)))

/-- The calls have passed the checks of their arguments. -/
structure FutexWorld.Start (call : P → FutexCall) (mem : Memory) (w : FutexWorld P) : Prop where
  mem : w.mem = mem
  queue : w.queue = []
  pc : ∀ p, w.pc p = futexStart (call p)

/-- The process. -/
def futexSystem (call : P → FutexCall) (mem : Memory) :
    System (FutexWorld P) (WaitEvent P) where
  start := FutexWorld.Start call mem
  step := FutexMove call

/-! ### The contract -/

/-- The place in the contract. -/
def FutexPc.place : FutexPc → Place
  | .clock | .futex _ | .wake => .running
  | .asleep _ => .asleep
  | .woken _ => .handed
  | .done rc => .done rc
  | .doneWake n => .counted n

/-- A sleep does not end before its deadline, and does not end by itself without one. -/
def OnTime (deadline : Option MonotonicInstant) (limit : Option ℕ) : Prop :=
  deadline.isSome = limit.isSome ∧
    ∀ d l, deadline = some d → limit = some l → d.ticks.toNat ≤ l

/-- What the place of a call says about its deadline, while the clock shows `now`. -/
def Punctual (c : FutexCall) (now : ℕ) : FutexPc → Prop
  | .futex rem => ∃ addr expected deadline, c = .wait addr expected deadline ∧
      OnTime deadline (rem.map (now + spanOf ·))
  | .asleep limit | .woken limit => ∃ addr expected deadline, c = .wait addr expected deadline ∧
      OnTime deadline limit
  | .done (some .ETIMEDOUT) => ∀ addr expected deadline, c = .wait addr expected deadline →
      ∃ d, deadline = some d ∧ d.ticks.toNat ≤ now
  | _ => True

theorem punctual_done {c : FutexCall} {now : ℕ} {err : Errno} (h : err ≠ .ETIMEDOUT) :
    Punctual c now (.done (some err)) := by
  cases err with
  | ETIMEDOUT => exact absurd rfl h
  | _ => trivial

theorem Punctual.mono {c : FutexCall} {now now' : ℕ} {l : FutexPc} (h : Punctual c now l)
    (hnow : now ≤ now') : Punctual c now' l := by
  unfold Punctual at h ⊢
  split
  · obtain ⟨addr, expected, deadline, hc, hsome, hle⟩ := h
    refine ⟨addr, expected, deadline, hc, by simpa using hsome, fun d l hd hl => ?_⟩
    obtain ⟨rem, rfl, rfl⟩ := Option.map_eq_some_iff.mp hl
    have hold : d.ticks.toNat ≤ now + spanOf rem := hle d _ hd rfl
    omega
  · exact h
  · exact h
  · intro addr expected deadline hc
    obtain ⟨d, hd, hle⟩ := h addr expected deadline hc
    exact ⟨d, hd, hle.trans hnow⟩
  · trivial

/-- The time that is left reaches up to the deadline. -/
theorem punctual_waitSpan {addr : Addr} {expected : BitVec 32}
    (deadline : Option MonotonicInstant) (now : MonotonicInstant) :
    Punctual (.wait addr expected deadline) now.ticks.toNat (waitSpan deadline (some now)) := by
  cases deadline with
  | none => exact ⟨addr, expected, none, rfl, rfl, fun d l hd => by cases hd⟩
  | some deadline =>
    refine ⟨addr, expected, some deadline, rfl, rfl, fun d l hd hl => ?_⟩
    obtain rfl := Option.some.inj hd
    obtain rfl := Option.some.inj hl
    have hspan : spanOf (deadline.durationSince now) = deadline.ticks.toNat - now.ticks.toNat :=
      (spanOf_eq _).trans (MonotonicInstant.durationSince_toNat deadline now)
    change deadline.ticks.toNat ≤ now.ticks.toNat + spanOf _
    omega

/-- The world is that of the contract, and the queue holds the waits that sleep. -/
structure FutexWorld.Sound (call : P → FutexCall) (w : FutexWorld P) (t : WaitWorld P) : Prop where
  mem : t.mem = w.mem
  place : ∀ p, t.place p = (w.pc p).place
  nodup : w.queue.Nodup
  queue : ∀ p, p ∈ w.queue ↔ ∃ limit, w.pc p = .asleep limit
  punctual : ∀ p, Punctual (call p) w.now.ticks.toNat (w.pc p)

namespace FutexWorld.Sound

variable {call : P → FutexCall} {w w' : FutexWorld P} {t : WaitWorld P} {p q : P} {l : FutexPc}
  {es : List (WaitEvent P)} {mem : Memory}

omit [DecidableEq P] in
theorem place_eq (h : w.Sound call t) (hp : w.pc p = l) : t.place p = l.place :=
  (h.place p).trans (congrArg FutexPc.place hp)

theorem place_update (h : w.Sound call t) (p : P) (l : FutexPc) (x : P) :
    (t.put p l.place).place x = (Function.update w.pc p l x).place := by
  by_cases hx : x = p
  · subst hx
    simp [WaitWorld.put]
  · simp [WaitWorld.put, hx, h.place x]

theorem punctual_update (h : w.Sound call t) (hl : Punctual (call p) w.now.ticks.toNat l)
    (x : P) : Punctual (call x) w.now.ticks.toNat (Function.update w.pc p l x) := by
  by_cases hx : x = p
  · subst hx
    simpa using hl
  · simpa [hx] using h.punctual x

/-- A call that does not sleep goes on. -/
theorem goto (h : w.Sound call t) (hp : ∀ limit, w.pc p ≠ .asleep limit)
    (hl : ∀ limit, l ≠ .asleep limit) (hlate : Punctual (call p) w.now.ticks.toNat l) :
    (w.goto p l).Sound call (t.put p l.place) := by
  refine ⟨h.mem, h.place_update p l, h.nodup, fun x => ?_, h.punctual_update hlate⟩
  rw [FutexWorld.goto, h.queue]
  by_cases hx : x = p
  · subst hx
    simp [hp, hl]
  · simp [hx]

/-- A wait leaves the queue. -/
theorem leave {limit : Option ℕ} (h : w.Sound call t) (hp : w.pc p = .asleep limit)
    (hl : ∀ limit, l ≠ .asleep limit) (hlate : Punctual (call p) w.now.ticks.toNat l) :
    (w.leave p l).Sound call (t.put p l.place) := by
  refine ⟨h.mem, h.place_update p l, h.nodup.erase p, fun x => ?_, h.punctual_update hlate⟩
  rw [FutexWorld.leave, h.nodup.mem_erase_iff, h.queue]
  by_cases hx : x = p
  · subst hx
    simp [hl]
  · simp [hx]

omit [DecidableEq P] in
theorem asleepOn_iff (h : w.Sound call t) (addr : Addr) (p : P) :
    t.AsleepOn (fun p => (call p).toAw) addr p ↔ p ∈ w.waiters call addr := by
  have hasleep : t.place p = .asleep ↔ ∃ limit, w.pc p = .asleep limit := by
    rw [h.place p]
    cases w.pc p <;> simp [FutexPc.place]
  rw [WaitWorld.AsleepOn, hasleep, FutexWorld.waiters, List.mem_filter, h.queue, decide_eq_true_iff]
  refine and_congr_right fun ⟨limit, hp⟩ => ?_
  have hpun := h.punctual p
  rw [hp] at hpun
  obtain ⟨addr', expected, deadline, hc, -⟩ := hpun
  simp [hc, FutexCall.toAw, AwCall.addr]

omit [DecidableEq P] in
/-- The kernel takes one wait, if there is one, or all. -/
theorem takes (h : w.Sound call t) {addr : Addr} {all : Bool} {ps : List P} (hps : ps.Nodup)
    (hsub : ps ⊆ w.waiters call addr)
    (hlen : ps.length = min (wakeCount all) (w.waiters call addr).length) :
    t.Takes (fun p => (call p).toAw) addr all ps := by
  refine ⟨hps, fun p hp => (h.asleepOn_iff addr p).mpr (hsub hp), ?_, ?_, ?_⟩
  · rintro rfl
    rw [hlen]
    exact min_le_left _ _
  · rintro rfl p hp
    have hpos := List.length_pos_of_mem ((h.asleepOn_iff addr p).mp hp)
    have hcount : 0 < wakeCount all := by cases all <;> decide
    simp only [List.length_nil] at hlen
    omega
  · rintro rfl hlt p hp
    have hcount : wakeCount true = wakeLimit := rfl
    have hperm : ps.Perm (w.waiters call addr) :=
      (hps.subperm hsub).perm_of_length_le (by omega)
    exact hperm.mem_iff.mpr ((h.asleepOn_iff addr p).mp hp)

/-- The waits that a wake takes leave the queue. -/
theorem take {ps : List P} (h : w.Sound call t) (hq : w.pc q = .wake)
    (hps : ∀ p ∈ ps, ∃ limit, w.pc p = .asleep limit) :
    (w.take q ps).Sound call ((t.hand ps).put q (.counted ps.length)) := by
  have hqps : q ∉ ps := by
    intro hmem
    obtain ⟨limit, hlimit⟩ := hps q hmem
    cases hq.symm.trans hlimit
  refine ⟨h.mem, fun p => ?_, h.nodup.filter _, fun p => ?_, fun p => ?_⟩
  · by_cases hpq : p = q
    · subst hpq
      simp [FutexWorld.take, WaitWorld.put, wakeAnswer, FutexPc.place]
    · by_cases hp : p ∈ ps
      · obtain ⟨limit, hlimit⟩ := hps p hp
        simp [FutexWorld.take, WaitWorld.put, WaitWorld.hand, hpq, hp, hlimit, FutexPc.hand,
          FutexPc.place]
      · simp [FutexWorld.take, WaitWorld.put, WaitWorld.hand, hpq, hp, h.place p]
  · by_cases hpq : p = q
    · subst hpq
      simp [FutexWorld.take, wakeAnswer, h.queue, hq]
    · by_cases hp : p ∈ ps
      · obtain ⟨limit, hlimit⟩ := hps p hp
        simp [FutexWorld.take, hpq, hp, hlimit, FutexPc.hand]
      · simp [FutexWorld.take, hpq, hp, h.queue]
  · by_cases hpq : p = q
    · subst hpq
      simp [FutexWorld.take, wakeAnswer, Punctual]
    · by_cases hp : p ∈ ps
      · obtain ⟨limit, hlimit⟩ := hps p hp
        have hpun : Punctual (call p) w.now.ticks.toNat (.woken limit) := by
          have hold := h.punctual p
          rw [hlimit] at hold
          exact hold
        simpa [FutexWorld.take, hpq, hp, hlimit, FutexPc.hand] using hpun
      · simpa [FutexWorld.take, hpq, hp] using h.punctual p

/-- Every move shows what the contract permits. -/
theorem step (h : w.Sound call t) (hs : FutexMove call w es w') :
    (waitContract (fun p => (call p).toAw) (fun p => futexRefuse (call p)) mem).Accepts t es ∧
      w'.Sound call ((waitContract (fun p => (call p).toAw)
        (fun p => futexRefuse (call p)) mem).after t es) := by
  cases hs with
  | store addr v =>
    refine ⟨⟨trivial, trivial⟩, ?_, h.place, h.nodup, h.queue, h.punctual⟩
    change Function.update t.mem addr v = Function.update w.mem addr v
    rw [h.mem]
  | tick hnow =>
    exact ⟨trivial, h.mem, h.place, h.nodup, h.queue, fun p => (h.punctual p).mono hnow⟩
  | @span p addr expected deadline hp hc =>
    have hrunning : t.place p = .running := h.place_eq hp
    refine ⟨trivial, ?_⟩
    have hspan : (waitSpan deadline (some w.now)).place = .running := by
      cases deadline <;> rfl
    have hgoto := h.goto (p := p) (l := waitSpan deadline (some w.now)) (by simp [hp])
      (by cases deadline <;> simp [waitSpan]) (hc ▸ punctual_waitSpan deadline w.now)
    rwa [hspan, WaitWorld.put_self hrunning] at hgoto
  | @noClock p addr expected deadline hp hc =>
    have hrunning : t.place p = .running := h.place_eq hp
    exact ⟨⟨trivial, hrunning⟩, h.goto (by simp [hp]) (by simp [waitSpan]) trivial⟩
  | @differs p addr expected deadline rem hp hc hne =>
    have hrunning : t.place p = .running := h.place_eq hp
    refine ⟨⟨trivial, hrunning, addr, expected, deadline.isSome, by simp [hc, FutexCall.toAw], ?_⟩,
      h.goto (by simp [hp]) (by simp [waitAnswer]) trivial⟩
    rwa [Automaton.after_nil, h.mem]
  | @sleep p addr expected deadline rem hp hc heq =>
    have hrunning : t.place p = .running := h.place_eq hp
    have hnot : p ∉ w.queue := by simp [h.queue, hp]
    refine ⟨⟨trivial, hrunning, addr, expected, deadline.isSome, by simp [hc, FutexCall.toAw], ?_⟩,
      h.mem, h.place_update p (.asleep _), ?_, fun x => ?_, h.punctual_update ?_⟩
    · rwa [Automaton.after_nil, h.mem]
    · exact List.nodup_append.mpr ⟨h.nodup, List.nodup_singleton p, by
        rintro x hx _ hx' rfl
        exact hnot (List.mem_singleton.mp hx' ▸ hx)⟩
    · by_cases hx : x = p
      · subst hx
        simp
      · simp [hx, h.queue]
    · have hpun := h.punctual p
      rw [hp] at hpun
      exact hpun
  | @refused p rem err hp herr =>
    have hrunning : t.place p = .running := h.place_eq hp
    rw [waitAnswer_error herr.1 herr.2.1]
    refine ⟨⟨trivial, hrunning⟩, h.goto (by simp [hp]) (by simp) (punctual_done ?_)⟩
    rintro rfl
    exact herr.2.2 rfl
  | @signal p limit hp =>
    have hasleep : t.place p = .asleep := h.place_eq hp
    exact ⟨⟨trivial, hasleep⟩, h.leave hp (by simp [waitAnswer]) trivial⟩
  | @expire p limit hp hlimit =>
    have hasleep : t.place p = .asleep := h.place_eq hp
    have hpun := h.punctual p
    rw [hp] at hpun
    obtain ⟨addr, expected, deadline, hc, hsome, hle⟩ := hpun
    obtain ⟨d, rfl⟩ := Option.isSome_iff_exists.mp hsome
    refine ⟨⟨trivial, hasleep, addr, expected, true, by simp [hc, FutexCall.toAw], fun _ => rfl⟩,
      h.leave hp (by simp [waitAnswer]) ?_⟩
    intro addr' expected' deadline' hc'
    obtain ⟨-, -, rfl⟩ := FutexCall.wait.inj (hc.symm.trans hc')
    exact ⟨d, rfl, (hle d limit rfl rfl).trans hlimit⟩
  | @stray p limit hp =>
    have hasleep : t.place p = .asleep := h.place_eq hp
    have hpun := h.punctual p
    rw [hp] at hpun
    exact ⟨⟨trivial, hasleep⟩, h.leave hp (by simp) hpun⟩
  | @took p limit hp =>
    have hhanded : t.place p = .handed := h.place_eq hp
    exact ⟨⟨trivial, hhanded⟩, h.goto (by simp [hp]) (by simp [waitAnswer]) trivial⟩
  | @wake q addr all ps hq hc hps hsub hlen =>
    have hrunning : t.place q = .running := h.place_eq hq
    refine ⟨⟨trivial, hrunning, addr, all, by simp [hc, FutexCall.toAw], h.takes hps hsub hlen⟩,
      h.take hq fun p hp => ?_⟩
    exact (h.queue p).mp (List.mem_of_mem_filter (hsub hp))
  | @wakeFails q addr all err hq hc =>
    have hrunning : t.place q = .running := h.place_eq hq
    refine ⟨⟨trivial, hrunning⟩, h.goto (by simp [hq]) (by simp [wakeAnswer]) ?_⟩
    by_cases herr : err = .ETIMEDOUT
    · subst herr
      intro addr' expected deadline hc'
      cases hc.symm.trans hc'
    · exact punctual_done herr

end FutexWorld.Sound

/-- The Linux side keeps the contract. -/
theorem futex_simulates (call : P → FutexCall) (mem : Memory) :
    (futexSystem call mem).Simulates
      (waitContract (fun p => (call p).toAw) (fun p => futexRefuse (call p)) mem)
      (FutexWorld.Sound call) where
  start w hw := by
    refine ⟨hw.mem.symm, fun p => ?_, ?_, fun p => ?_, fun p => ?_⟩
    · rw [hw.pc]
      change (if futexRefuse (call p) = none then Place.running
        else .done (futexRefuse (call p))) = _
      rcases futexStart_cases (call p) with ⟨hr, h⟩ | ⟨hr, h | h⟩ <;> simp [hr, h, FutexPc.place]
    · rw [hw.queue]
      exact List.nodup_nil
    · rw [hw.queue, hw.pc]
      rcases futexStart_cases (call p) with ⟨-, h⟩ | ⟨-, h | h⟩ <;> simp [h]
    · rw [hw.pc]
      rcases futexStart_cases (call p) with ⟨-, h⟩ | ⟨-, h | h⟩
      · rw [h]
        exact punctual_done (by simp)
      · rw [h]
        trivial
      · rw [h]
        trivial
  step _ _ _ _ h hs := h.step hs

/-! ### One wait -/

/-- The place in `mjsAtomicWaitLinux`. -/
def FutexPc.label : FutexPc → FutexLabel
  | .futex (some rem) => .futex rem
  | .asleep (some limit) | .woken (some limit) => .asleep limit
  | .done rc => .done rc
  | _ => .clock

theorem label_waitAnswer (rc : Status) : (waitAnswer rc).label = FutexLabel.answer rc := by
  cases rc with
  | none => rfl
  | some err =>
    by_cases hagain : err = .EAGAIN
    · subst hagain
      rfl
    by_cases hintr : err = .other 4
    · subst hintr
      rfl
    rw [waitAnswer_error hagain hintr]
    simp [FutexLabel.answer, FutexPc.label]

/-- A wait with a deadline moves by the steps of `mjsAtomicWaitLinux`. -/
theorem FutexMove.wait {call : P → FutexCall} {w w' : FutexWorld P} {t : WaitWorld P}
    {es : List (WaitEvent P)} {p : P} {addr : Addr} {old : BitVec 32}
    {deadline : MonotonicInstant} (h : w.Sound call t) (hs : FutexMove call w es w')
    (hc : call p = .wait addr old (some deadline)) :
    (w'.pc p).label = (w.pc p).label ∨
      FutexStep old deadline (w.mem addr) w.now (w.pc p).label (w'.pc p).label := by
  have hmove {q : P} {l : FutexPc} (hl : q = p →
      FutexStep old deadline (w.mem addr) w.now (w.pc p).label l.label) :
      (Function.update w.pc q l p).label = (w.pc p).label ∨
        FutexStep old deadline (w.mem addr) w.now (w.pc p).label
          (Function.update w.pc q l p).label := by
    by_cases hq : p = q
    · subst hq
      rw [Function.update_self]
      exact Or.inr (hl rfl)
    · rw [Function.update_of_ne hq]
      exact Or.inl rfl
  have htimed {limit : Option ℕ} (hp : ∃ addr expected deadline,
      call p = .wait addr expected deadline ∧ OnTime deadline limit) : ∃ l, limit = some l := by
    obtain ⟨addr', expected, deadline', hc', hsome, -⟩ := hp
    obtain ⟨-, -, rfl⟩ := FutexCall.wait.inj (hc.symm.trans hc')
    exact Option.isSome_iff_exists.mp hsome.symm
  have hpun := h.punctual p
  cases hs with
  | store addr v => exact Or.inl rfl
  | tick hnow => exact Or.inl rfl
  | @span q addr' expected deadline' hq hc' =>
    refine hmove ?_
    rintro rfl
    obtain ⟨rfl, rfl, rfl⟩ := FutexCall.wait.inj (hc.symm.trans hc')
    rw [hq]
    exact .span
  | @noClock q addr' expected deadline' hq hc' =>
    refine hmove ?_
    rintro rfl
    rw [hq]
    exact .noClock
  | @differs q addr' expected deadline' rem hq hc' hne =>
    refine hmove ?_
    rintro rfl
    obtain ⟨rfl, rfl, -⟩ := FutexCall.wait.inj (hc.symm.trans hc')
    rw [hq] at hpun ⊢
    obtain ⟨l, hl⟩ := htimed hpun
    obtain ⟨rem, rfl, -⟩ := Option.map_eq_some_iff.mp hl
    exact .differs hne
  | @sleep q addr' expected deadline' rem hq hc' heq =>
    refine hmove ?_
    rintro rfl
    obtain ⟨rfl, rfl, -⟩ := FutexCall.wait.inj (hc.symm.trans hc')
    rw [hq] at hpun ⊢
    obtain ⟨l, hl⟩ := htimed hpun
    obtain ⟨rem, rfl, -⟩ := Option.map_eq_some_iff.mp hl
    change FutexStep _ _ _ _ (.futex rem) (.asleep (w.now.ticks.toNat + spanOf rem))
    rw [spanOf_eq]
    exact .sleep heq
  | @refused q rem err hq herr =>
    refine hmove ?_
    rintro rfl
    rw [label_waitAnswer]
    rw [hq] at hpun ⊢
    obtain ⟨l, hl⟩ := htimed hpun
    obtain ⟨rem, rfl, -⟩ := Option.map_eq_some_iff.mp hl
    exact .refused herr.2.2
  | @signal q limit hq =>
    refine hmove ?_
    rintro rfl
    rw [label_waitAnswer]
    rw [hq] at hpun ⊢
    obtain ⟨l, rfl⟩ := htimed hpun
    exact .wake (by simp)
  | @expire q limit hq hlimit =>
    refine hmove ?_
    rintro rfl
    rw [label_waitAnswer, hq]
    exact .wake fun _ => hlimit
  | @stray q limit hq =>
    by_cases hqp : p = q
    · subst hqp
      left
      rw [hq] at hpun
      obtain ⟨l, rfl⟩ := htimed hpun
      simp [FutexWorld.leave, hq, FutexPc.label]
    · exact hmove fun h => absurd h.symm hqp
  | @took q limit hq =>
    refine hmove ?_
    rintro rfl
    rw [label_waitAnswer]
    rw [hq] at hpun ⊢
    obtain ⟨l, rfl⟩ := htimed hpun
    exact .wake (by simp)
  | @wake q addr' all ps hq hc' hps hsub hlen =>
    have hpq : p ≠ q := by
      rintro rfl
      cases hc.symm.trans hc'
    left
    by_cases hp : p ∈ ps
    · obtain ⟨limit, hlimit⟩ := (h.queue p).mp (List.mem_of_mem_filter (hsub hp))
      rw [hlimit] at hpun
      obtain ⟨l, rfl⟩ := htimed hpun
      simp [FutexWorld.take, hpq, hp, hlimit, FutexPc.hand, FutexPc.label]
    · simp [FutexWorld.take, hpq, hp]
  | @wakeFails q addr' all err hq hc' =>
    refine hmove ?_
    rintro rfl
    cases hc.symm.trans hc'

/-! ### The law -/

/-- What a program may rely on. -/
structure FutexLaw (call : P → FutexCall) (mem : Memory) (tr : List (WaitEvent P))
    (w : FutexWorld P) : Prop where
  contract : WaitLaw (fun p => (call p).toAw) (fun p => futexRefuse (call p)) mem tr
  world : worldAfter (fun p => (call p).toAw) (fun p => futexRefuse (call p)) mem tr =
    ⟨w.mem, fun p => (w.pc p).place⟩
  /-- A wait does not time out before its deadline, nor without a look at the word. -/
  timedOut : ∀ p addr expected deadline, call p = .wait addr expected deadline →
    w.pc p = .done (some .ETIMEDOUT) →
      (∃ d, deadline = some d ∧ d.ticks.toNat ≤ w.now.ticks.toNat) ∧ ∃ tr', .slept p :: tr' <:+ tr ∧
        (worldAfter (fun p => (call p).toAw) (fun p => futexRefuse (call p)) mem tr').mem addr =
          expected

variable {call : P → FutexCall} {mem : Memory} {tr : List (WaitEvent P)} {w : FutexWorld P}

/-- The calls of the kernel that fail at once do not time out. -/
theorem not_refused_of_run (hr : (futexSystem call mem).Run tr w) {p : P} {addr : Addr}
    {expected : BitVec 32} {deadline : Option MonotonicInstant}
    (hc : call p = .wait addr expected deadline) : .refused p .ETIMEDOUT ∉ tr := by
  induction hr with
  | start hs => exact List.not_mem_nil
  | @step tr es w w' _ hs ih =>
    rw [List.mem_append, not_or]
    refine ⟨fun hmem => ?_, ih⟩
    cases hs with
    | refused hp herr =>
      obtain ⟨rfl, rfl⟩ := WaitEvent.refused.inj (List.mem_singleton.mp hmem)
      exact herr.2.2 rfl
    | wakeFails hq hc' =>
      obtain ⟨rfl, rfl⟩ := WaitEvent.refused.inj (List.mem_singleton.mp hmem)
      cases hc.symm.trans hc'
    | _ => simp at hmem

/-- On Linux, in every interleaving of the calls, of the stores, of the signals and of the clock:
a wake returns the number of the waits that it takes, and no wait is taken twice; a wait that was
taken returns `0`; a wait returns `0` only if it was taken or the word differed; after a wake of all
no wait for the change of a value sleeps while the word has another; and a wait times out only
after its deadline, having found the word as expected. -/
theorem futex_keeps_contract (hr : (futexSystem call mem).Run tr w) : FutexLaw call mem tr w := by
  obtain ⟨hacc, hsound⟩ := (futex_simulates call mem).run hr
  have hlaw := waitLaw_of_accepts hacc
  have hworld : worldAfter (fun p => (call p).toAw) (fun p => futexRefuse (call p)) mem tr =
      ⟨w.mem, fun p => (w.pc p).place⟩ := WaitWorld.ext hsound.mem (funext hsound.place)
  refine ⟨hlaw, hworld, fun p addr expected deadline hc hp => ⟨?_, ?_⟩⟩
  · have hpun := hsound.punctual p
    rw [hp] at hpun
    exact hpun addr expected deadline hc
  · have hplace : (worldAfter (fun p => (call p).toAw) (fun p => futexRefuse (call p)) mem tr).place
        p = .done (some .ETIMEDOUT) := by
      rw [hworld]
      change (w.pc p).place = _
      rw [hp]
      rfl
    rcases hlaw.timedOut p hplace with hrefuse | hrefused | ⟨tr', addr', expected', hs, hc', heq⟩
    · rcases futexStart_cases (call p) with ⟨h, -⟩ | ⟨h, -⟩
      · cases h.symm.trans hrefuse
      · cases h.symm.trans hrefuse
    · exact absurd hrefused (not_refused_of_run hr hc)
    · obtain ⟨rfl, rfl, -⟩ := AwCall.wait.inj
        ((congrArg FutexCall.toAw hc).symm.trans hc')
      exact ⟨tr', hs, heq⟩

end Steps

/-- A wait without a deadline for the change of `0`, and a wake of all. -/
def futexPair : Bool → FutexCall
  | false => .wait 4 0 none
  | true => .wake 4 true

/-- The wait sleeps, a signal ends its sleep, it sleeps again, the word is stored to, and the wake
takes it. -/
theorem futex_keeps_contract_signal : ∃ w : FutexWorld Bool, FutexLaw futexPair (fun _ => 0)
    [.took false, .woke true [false], .stored 4 1, .slept false, .stirred false, .slept false] w ∧
      w.pc false = .done none ∧ w.pc true = .doneWake 1 := by
  let w₀ : FutexWorld Bool := ⟨fun _ => 0, ⟨0⟩, [], fun p => futexStart (futexPair p)⟩
  have hr₀ : (futexSystem futexPair fun _ => 0).Run [] w₀ := .start ⟨rfl, rfl, fun _ => rfl⟩
  have hr₁ := hr₀.step (.span (p := false) rfl rfl)
  have hr₂ := hr₁.step (.sleep (p := false) rfl rfl rfl)
  have hr₃ := hr₂.step (.signal (p := false) rfl)
  have hr₄ := hr₃.step (.span (p := false) rfl rfl)
  have hr₅ := hr₄.step (.sleep (p := false) rfl rfl rfl)
  have hr₆ := hr₅.step (.store 4 1)
  have hr₇ := hr₆.step
    (@FutexMove.wake _ _ _ _ true 4 true [false] rfl rfl (by simp) (by decide) (by decide))
  have hr₈ := hr₇.step (.took (p := false) rfl)
  exact ⟨_, futex_keeps_contract hr₈, rfl, rfl⟩

end MojitoSys.Sync
