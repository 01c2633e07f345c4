import MojitoSys.Ctx.Lifecycle

/-!
# Exclusive resume

Any number of OS threads call `ms_context_switch` at the same time. A call is a sequence of single
accesses to the state words: load and validate the target, load the word of `from`, demote `from`
when it reads `RUNNING`, arm the target by an exclusive store or a compare-and-exchange, and
restore it; a failed arm goes back to the validation. Memory is sequentially consistent, and the
exclusive store may fail without a reason.

The demotion lies inside the retry loop. A first pass demotes the context that its own thread
runs. A retry reads the word of `from` again, and another thread may have resumed `from` in
between: then the retry demotes a context that this thread no longer runs, and a third call can
resume it once more. In every run without such a retry the state word is a lock on the context.

The records that a thread captured, or passes as `from` for code outside any context, are the
hosts; their words may change at any time. All other contexts are created by `ms_context_init` and
are not initialised again or destroyed while a thread runs them.

## Main definitions

* `Pc`, `Threads`, `Backend`: the place of a thread in its code, the state of all threads, and
  the two kinds of the arm.
* `ThreadStep`, `ThreadRun`: the interleavings.
* `lastMark`, `ArmsAlternate`: at most one arm between two switch-outs.

## Main results

* `resumeInv_step`, `resumeInv_run`: the word is `RUNNING` while a thread holds the context, and
  one thread holds it.
* `exclusive_resume`: the three guarantees, in every run in which no retry finds its `from`
  `RUNNING`.
* `exclusive_resume_fails`: a retry that demotes a context running on another thread.
* `ThreadRun.switch_alone`: a call that is not interleaved is a switch of the lifecycle.
-/

namespace MojitoSys.Ctx

variable {T C : Type*}

/-! ### The threads -/

/-- An `ms_context_switch` call in flight. -/
structure SwitchCall (C : Type*) where
  /-- The argument `from`. -/
  src : C
  /-- The argument `to`. -/
  dst : C
  /-- An arm of this call has failed. -/
  retry : Bool
  /-- The call is the completion switch of `src`. -/
  completing : Bool

/-- The place of a thread in its code; `seen` is the state that the validation read. -/
inductive Pc (C : Type*)
  /-- Code of the context, outside `ms_context_switch`. -/
  | running (c : C)
  | validate (k : SwitchCall C)
  | demoteLoad (k : SwitchCall C) (seen : CtxState)
  | demoteStore (k : SwitchCall C) (seen : CtxState)
  | arm (k : SwitchCall C) (seen : CtxState)
  | restore (k : SwitchCall C) (seen : CtxState)
  | trapped

/-- The state words, the place of every thread, and whether the reservation that its validation
took is still valid. -/
structure Threads (T C : Type*) where
  word : C → CtxState
  pc : T → Pc C
  monitor : T → Bool

/-- How the target is armed: `ldaxr`/`stlxr`, or `lock cmpxchg`. -/
inductive Backend
  | exclusive
  | cmpxchg
  deriving DecidableEq, Repr

/-- What happens in an interleaving. -/
inductive ThreadEvent (T C : Type*)
  /-- The thread that runs the context calls `ms_context_switch` from it. -/
  | switchOut (t : T) (c : C)
  /-- A call arms the context `RUNNING`. -/
  | arm (t : T) (c : C)
  /-- A retry finds its `from` `RUNNING`. -/
  | redemote (t : T) (c : C)

/-- A state that the validation lets pass. -/
def CtxState.Valid (s : CtxState) : Prop := s = .empty ∨ s = .suspended

/-- The context that a thread runs: its code, the first pass of a call from it up to the demotion,
or its completion up to the arm of the return target. -/
def Pc.occupies : Pc C → Option C
  | .running c => some c
  | .validate k | .demoteLoad k _ | .demoteStore k _ =>
    if k.retry && !k.completing then none else some k.src
  | .arm k _ => if k.completing then some k.src else none
  | .restore _ _ | .trapped => none

/-- The reservation of a call between its validation and its arm. -/
def Pc.reserves : Pc C → Option (C × CtxState)
  | .demoteLoad k seen | .demoteStore k seen | .arm k seen => some (k.dst, seen)
  | .running _ | .validate _ | .restore _ _ | .trapped => none

namespace Threads

variable [DecidableEq T] [DecidableEq C]

/-- Thread `t` goes to `p`. -/
def goto (m : Threads T C) (t : T) (p : Pc C) : Threads T C :=
  { m with pc := Function.update m.pc t p }

/-- Thread `t` stores `v` to the word of `c` and goes to `p`; the store clears every reservation
of another thread on the word. -/
def store (m : Threads T C) (t : T) (c : C) (v : CtxState) (p : Pc C) : Threads T C where
  word := Function.update m.word c v
  pc := Function.update m.pc t p
  monitor u := m.monitor u && (u = t || ((m.pc u).reserves.map Prod.fst) ≠ some c)

/-- Thread `t` takes the reservation of its validation and goes to `p`. -/
def reserve (m : Threads T C) (t : T) (p : Pc C) : Threads T C :=
  { m with pc := Function.update m.pc t p, monitor := Function.update m.monitor t true }

end Threads

/-- The arm can succeed. -/
def Backend.canArm (b : Backend) (m : Threads T C) (t : T) (c : C) (seen : CtxState) : Prop :=
  match b with
  | .exclusive => m.monitor t = true
  | .cmpxchg => m.word c = seen

/-- The arm can fail: the exclusive store always can. -/
def Backend.canFail (b : Backend) (m : Threads T C) (c : C) (seen : CtxState) : Prop :=
  match b with
  | .exclusive => True
  | .cmpxchg => m.word c ≠ seen

/-- One step of one thread. -/
inductive ThreadStep [DecidableEq T] [DecidableEq C] (b : Backend) (hosts : Set C)
    (m : Threads T C) : List (ThreadEvent T C) → Threads T C → Prop
  | host {t : T} {x c : C} (v : CtxState) (hp : m.pc t = .running x) (hc : c ∈ hosts) :
      ThreadStep b hosts m [] (m.store t c v (.running x))
  | init {t : T} {x c : C} (hp : m.pc t = .running x) (hc : c ∉ hosts)
      (hw : m.word c ≠ .running) (hfree : ∀ u, (m.pc u).occupies ≠ some c) :
      ThreadStep b hosts m [] (m.store t c .empty (.running x))
  | destroy {t : T} {x c : C} (hp : m.pc t = .running x) (hc : c ∉ hosts)
      (hw : m.word c ≠ .running) (hfree : ∀ u, (m.pc u).occupies ≠ some c) :
      ThreadStep b hosts m [] (m.store t c .dead (.running x))
  | call {t : T} {c d : C} (hp : m.pc t = .running c) (hd : c ≠ d) :
      ThreadStep b hosts m [.switchOut t c] (m.goto t (.validate ⟨c, d, false, false⟩))
  -- the trampoline marks `FINISHED` and calls the switch to the return target
  | complete {t : T} {c d : C} (hp : m.pc t = .running c) (hd : c ≠ d) (hc : c ∉ hosts) :
      ThreadStep b hosts m [.switchOut t c]
        (m.store t c .finished (.validate ⟨c, d, false, true⟩))
  | trap {t : T} {k : SwitchCall C} (hp : m.pc t = .validate k) (hs : ¬ (m.word k.dst).Valid) :
      ThreadStep b hosts m [] (m.goto t .trapped)
  | validate {t : T} {k : SwitchCall C} (hp : m.pc t = .validate k)
      (hs : (m.word k.dst).Valid) :
      ThreadStep b hosts m [] (m.reserve t (.demoteLoad k (m.word k.dst)))
  | demoteSkip {t : T} {k : SwitchCall C} {seen : CtxState} (hp : m.pc t = .demoteLoad k seen)
      (hs : m.word k.src ≠ .running) :
      ThreadStep b hosts m [] (m.goto t (.arm k seen))
  | demoteLoad {t : T} {k : SwitchCall C} {seen : CtxState} (hp : m.pc t = .demoteLoad k seen)
      (hs : m.word k.src = .running) :
      ThreadStep b hosts m (if k.retry then [.redemote t k.src] else [])
        (m.goto t (.demoteStore k seen))
  | demoteStore {t : T} {k : SwitchCall C} {seen : CtxState}
      (hp : m.pc t = .demoteStore k seen) :
      ThreadStep b hosts m [] (m.store t k.src .suspended (.arm k seen))
  | arm {t : T} {k : SwitchCall C} {seen : CtxState} (hp : m.pc t = .arm k seen)
      (ha : b.canArm m t k.dst seen) :
      ThreadStep b hosts m [.arm t k.dst] (m.store t k.dst .running (.restore k seen))
  | armFail {t : T} {k : SwitchCall C} {seen : CtxState} (hp : m.pc t = .arm k seen)
      (ha : b.canFail m k.dst seen) :
      ThreadStep b hosts m [] (m.goto t (.validate { k with retry := true }))
  | restore {t : T} {k : SwitchCall C} {seen : CtxState} (hp : m.pc t = .restore k seen) :
      ThreadStep b hosts m [] (m.goto t (.running k.dst))

/-- Every thread runs code of a host, and no context is initialised. -/
structure ThreadStart (hosts : Set C) (m : Threads T C) : Prop where
  pc : ∀ t, ∃ c ∈ hosts, m.pc t = .running c
  word : ∀ c, c ∉ hosts → m.word c = .dead

/-- The interleavings of the threads, with their traces. -/
inductive ThreadRun [DecidableEq T] [DecidableEq C] (b : Backend) (hosts : Set C) :
    List (ThreadEvent T C) → Threads T C → Prop
  | start {m : Threads T C} (h : ThreadStart hosts m) : ThreadRun b hosts [] m
  | step {tr es : List (ThreadEvent T C)} {m m' : Threads T C} (hr : ThreadRun b hosts tr m)
      (hs : ThreadStep b hosts m es m') : ThreadRun b hosts (es ++ tr) m'

/-! ### At most one arm between two switch-outs -/

/-- The last event that opened or closed the execution of `c`: `true` for an arm, `false` for a
switch-out. -/
def lastMark [DecidableEq C] (c : C) : List (ThreadEvent T C) → Option Bool
  | [] => none
  | .switchOut _ x :: tr => if x = c then some false else lastMark c tr
  | .arm _ x :: tr => if x = c then some true else lastMark c tr
  | .redemote _ _ :: tr => lastMark c tr

/-- Between two arms of `c` there is a switch-out of `c`. -/
def ArmsAlternate [DecidableEq C] (c : C) : List (ThreadEvent T C) → Prop
  | [] => True
  | .arm _ x :: tr => (x = c → lastMark c tr ≠ some true) ∧ ArmsAlternate c tr
  | .switchOut _ _ :: tr | .redemote _ _ :: tr => ArmsAlternate c tr

/-! ### The invariant -/

/-- The context that a thread holds: the one it runs, still runs as `from` of a first pass, or has
armed. -/
def Pc.holds : Pc C → Option C
  | .running c => some c
  | .validate k | .demoteLoad k _ | .demoteStore k _ =>
    if k.retry || k.completing then none else some k.src
  | .arm _ _ | .trapped => none
  | .restore k _ => some k.dst

/-- The context that a thread runs, or has armed and is about to run. -/
def Pc.executes : Pc C → Option C
  | .running c => some c
  | .restore k _ => some k.dst
  | .validate _ | .demoteLoad _ _ | .demoteStore _ _ | .arm _ _ | .trapped => none

/-- The finished context that a thread is leaving for good. -/
def Pc.leaving : Pc C → Option C
  | .validate k | .demoteLoad k _ | .arm k _ => if k.completing then some k.src else none
  | .running _ | .demoteStore _ _ | .restore _ _ | .trapped => none

/-- A call has two different arguments, restores only what it saw resumable, and demotes only in
the first pass of an explicit call. -/
def Pc.Ok (hosts : Set C) : Pc C → Prop
  | .running _ | .trapped => True
  | .validate k => k.src ≠ k.dst ∧ (k.completing = true → k.src ∉ hosts)
  | .demoteLoad k seen | .arm k seen | .restore k seen =>
    k.src ≠ k.dst ∧ (k.completing = true → k.src ∉ hosts) ∧ seen.Valid
  | .demoteStore k seen =>
    k.src ≠ k.dst ∧ (k.completing = true → k.src ∉ hosts) ∧ seen.Valid ∧
      (k.src ∉ hosts → k.retry = false ∧ k.completing = false)

/-- The invariant of a run in which no retry demotes: the state word is a lock. -/
structure ResumeInv [DecidableEq C] (hosts : Set C) (tr : List (ThreadEvent T C))
    (m : Threads T C) : Prop where
  ok : ∀ t, (m.pc t).Ok hosts
  holds : ∀ t c, c ∉ hosts → (m.pc t).holds = some c → m.word c = .running
  unique : ∀ t u c, c ∉ hosts → (m.pc t).holds = some c → (m.pc u).holds = some c → t = u
  leaving : ∀ t c, c ∉ hosts → (m.pc t).leaving = some c → m.word c = .finished
  reserved : ∀ t c s, m.monitor t = true → (m.pc t).reserves = some (c, s) → m.word c = s
  mark : ∀ c, c ∉ hosts → lastMark c tr = some true → ∃ t, (m.pc t).executes = some c
  arms : ∀ c, c ∉ hosts → ArmsAlternate c tr

theorem Pc.holds_of_executes {p : Pc C} {c : C} (h : p.executes = some c) : p.holds = some c := by
  cases p <;> simp_all [Pc.executes, Pc.holds]

theorem Pc.occupies_of_leaving {p : Pc C} {c : C} (h : p.leaving = some c) :
    p.occupies = some c := by
  cases p <;> simp_all [Pc.leaving, Pc.occupies]

section Step

variable [DecidableEq T] [DecidableEq C] {hosts : Set C} {tr es : List (ThreadEvent T C)}
  {m m' : Threads T C}

/-- The part of the invariant on the trace, after a step of thread `t` to `p`. -/
structure TraceKept (hosts : Set C) (tr es : List (ThreadEvent T C)) (m : Threads T C) (t : T)
    (p : Pc C) : Prop where
  mark : ∀ c, c ∉ hosts → lastMark c (es ++ tr) = some true →
    p.executes = some c ∨ lastMark c tr = some true ∧ (m.pc t).executes ≠ some c
  arms : ∀ c, c ∉ hosts → ArmsAlternate c tr → ArmsAlternate c (es ++ tr)

omit [DecidableEq T] in
/-- A step without events that leaves the executed context alone. -/
theorem TraceKept.nil {t : T} {p : Pc C} (h : p.executes = (m.pc t).executes) :
    TraceKept hosts tr [] m t p where
  mark c _ hm := by
    by_cases he : (m.pc t).executes = some c
    · exact Or.inl (h.trans he)
    · exact Or.inr ⟨hm, he⟩
  arms _ _ h := h

theorem TraceKept.exists_executes {t : T} {p : Pc C} (hk : TraceKept hosts tr es m t p)
    (hi : ResumeInv hosts tr m) {c : C} (hc : c ∉ hosts)
    (hm : lastMark c (es ++ tr) = some true) :
    ∃ u, (Function.update m.pc t p u).executes = some c := by
  rcases hk.mark c hc hm with hp | ⟨hold, hne⟩
  · exact ⟨t, by simpa using hp⟩
  · obtain ⟨u, hu⟩ := hi.mark c hc hold
    have hut : u ≠ t := by
      rintro rfl
      exact hne hu
    exact ⟨u, by simpa [Function.update_of_ne hut] using hu⟩

/-- One step of thread `t` to `p`: what the other threads hold, leave or reserve is not written,
and what `t` holds, leaves or reserves at `p` is in order. -/
theorem ResumeInv.advance (hi : ResumeInv hosts tr m) {t : T} {p : Pc C}
    (hpc : m'.pc = Function.update m.pc t p) (hok : p.Ok hosts)
    (hother : ∀ u c, u ≠ t → c ∉ hosts → (m.pc u).holds = some c ∨ (m.pc u).leaving = some c →
      m'.word c = m.word c)
    (hreserved : ∀ u c s, u ≠ t → m'.monitor u = true → (m.pc u).reserves = some (c, s) →
      m.monitor u = true ∧ m'.word c = m.word c)
    (hholds : ∀ c, c ∉ hosts → p.holds = some c →
      m'.word c = .running ∧ ∀ u, u ≠ t → (m.pc u).holds ≠ some c)
    (hleaving : ∀ c, c ∉ hosts → p.leaving = some c → m'.word c = .finished)
    (hres : ∀ c s, m'.monitor t = true → p.reserves = some (c, s) → m'.word c = s)
    (hk : TraceKept hosts tr es m t p) : ResumeInv hosts (es ++ tr) m' where
  ok u := by
    rw [hpc]
    by_cases hu : u = t
    · subst hu
      simpa using hok
    · simpa [Function.update_of_ne hu] using hi.ok u
  holds u c hc hu := by
    rw [hpc] at hu
    by_cases hut : u = t
    · subst hut
      exact (hholds c hc (by simpa using hu)).1
    · rw [Function.update_of_ne hut] at hu
      rw [hother u c hut hc (Or.inl hu), hi.holds u c hc hu]
  unique u v c hc hu hv := by
    rw [hpc] at hu hv
    by_cases hut : u = t <;> by_cases hvt : v = t
    · rw [hut, hvt]
    · subst hut
      rw [Function.update_of_ne hvt] at hv
      exact absurd hv ((hholds c hc (by simpa using hu)).2 v hvt)
    · subst hvt
      rw [Function.update_of_ne hut] at hu
      exact absurd hu ((hholds c hc (by simpa using hv)).2 u hut)
    · rw [Function.update_of_ne hut] at hu
      rw [Function.update_of_ne hvt] at hv
      exact hi.unique u v c hc hu hv
  leaving u c hc hu := by
    rw [hpc] at hu
    by_cases hut : u = t
    · subst hut
      exact hleaving c hc (by simpa using hu)
    · rw [Function.update_of_ne hut] at hu
      rw [hother u c hut hc (Or.inr hu), hi.leaving u c hc hu]
  reserved u c s hm hu := by
    rw [hpc] at hu
    by_cases hut : u = t
    · subst hut
      exact hres c s hm (by simpa using hu)
    · rw [Function.update_of_ne hut] at hu
      obtain ⟨hm', hw⟩ := hreserved u c s hut hm hu
      rw [hw, hi.reserved u c s hm' hu]
  mark c hc hm := hpc ▸ hk.exists_executes hi hc hm
  arms c hc := hk.arms c hc (hi.arms c hc)

/-- A step that stores nothing and holds and leaves no more than before. -/
theorem ResumeInv.goto (hi : ResumeInv hosts tr m) {t : T} {p : Pc C} (hok : p.Ok hosts)
    (hholds : ∀ c, p.holds = some c → (m.pc t).holds = some c)
    (hleaving : ∀ c, p.leaving = some c → (m.pc t).leaving = some c)
    (hres : ∀ c s, p.reserves = some (c, s) → (m.pc t).reserves = some (c, s))
    (hk : TraceKept hosts tr es m t p) : ResumeInv hosts (es ++ tr) (m.goto t p) :=
  hi.advance rfl hok (fun _ _ _ _ _ => rfl) (fun _ _ _ _ hm _ => ⟨hm, rfl⟩)
    (fun c hc hp => ⟨hi.holds t c hc (hholds c hp),
      fun u hu hu' => hu (hi.unique u t c hc hu' (hholds c hp))⟩)
    (fun c hc hp => hi.leaving t c hc (hleaving c hp))
    (fun c s hm hp => hi.reserved t c s hm (hres c s hp)) hk

/-- A store to a word that no other thread holds or leaves. -/
theorem ResumeInv.store (hi : ResumeInv hosts tr m) {t : T} {p : Pc C} {c : C} {v : CtxState}
    (hok : p.Ok hosts)
    (hfree : c ∉ hosts → ∀ u, u ≠ t → (m.pc u).holds ≠ some c ∧ (m.pc u).leaving ≠ some c)
    (hholds : ∀ x, x ∉ hosts → p.holds = some x →
      x = c ∧ v = .running ∨ x ≠ c ∧ (m.pc t).holds = some x)
    (hleaving : ∀ x, x ∉ hosts → p.leaving = some x →
      x = c ∧ v = .finished ∨ x ≠ c ∧ (m.pc t).leaving = some x)
    (hres : ∀ x s, p.reserves = some (x, s) → x ≠ c ∧ (m.pc t).reserves = some (x, s))
    (hk : TraceKept hosts tr es m t p) : ResumeInv hosts (es ++ tr) (m.store t c v p) := by
  refine hi.advance rfl hok (fun u x hu hx hux => ?_) (fun u x s hu hm hux => ?_)
    (fun x hx hp => ?_) (fun x hx hp => ?_) (fun x s hm hp => ?_) hk
  · have hxc : x ≠ c := by
      rintro rfl
      rcases hux with h | h
      · exact (hfree hx u hu).1 h
      · exact (hfree hx u hu).2 h
    simp [Threads.store, hxc]
  · have hxc : x ≠ c ∧ m.monitor u = true := by
      simp [Threads.store, hu, hux] at hm
      exact ⟨hm.2, hm.1⟩
    exact ⟨hxc.2, by simp [Threads.store, hxc.1]⟩
  · rcases hholds x hx hp with ⟨rfl, rfl⟩ | ⟨hxc, hold⟩
    · exact ⟨by simp [Threads.store], fun u hu => (hfree hx u hu).1⟩
    · exact ⟨by simpa [Threads.store, hxc] using hi.holds t x hx hold,
        fun u hu hu' => hu (hi.unique u t x hx hu' hold)⟩
  · rcases hleaving x hx hp with ⟨rfl, rfl⟩ | ⟨hxc, hold⟩
    · simp [Threads.store]
    · simpa [Threads.store, hxc] using hi.leaving t x hx hold
  · obtain ⟨hxc, hold⟩ := hres x s hp
    have hm' : m.monitor t = true := by simpa [Threads.store] using hm
    simpa [Threads.store, hxc] using hi.reserved t x s hm' hold

omit [DecidableEq T] in
/-- Nobody holds or leaves a context whose word is resumable. -/
theorem ResumeInv.free_of_valid (hi : ResumeInv hosts tr m) {c : C} (hc : c ∉ hosts)
    (hw : (m.word c).Valid) (u : T) :
    (m.pc u).holds ≠ some c ∧ (m.pc u).leaving ≠ some c := by
  refine ⟨fun h => ?_, fun h => ?_⟩
  · simp [hi.holds u c hc h, CtxState.Valid] at hw
  · simp [hi.leaving u c hc h, CtxState.Valid] at hw

omit [DecidableEq T] in
/-- Nobody else holds or leaves a context that `t` holds. -/
theorem ResumeInv.free_of_holds (hi : ResumeInv hosts tr m) {t : T} {c : C} (hc : c ∉ hosts)
    (ht : (m.pc t).holds = some c) (u : T) (hu : u ≠ t) :
    (m.pc u).holds ≠ some c ∧ (m.pc u).leaving ≠ some c := by
  refine ⟨fun h => hu (hi.unique u t c hc h ht), fun h => ?_⟩
  have hw := hi.holds t c hc ht
  simp [hi.leaving u c hc h] at hw

/-- The initialisation and the destruction of a context that no thread occupies. -/
theorem ResumeInv.reset (hi : ResumeInv hosts tr m) {t : T} {x c : C} (v : CtxState)
    (hp : m.pc t = .running x) (hw : m.word c ≠ .running)
    (hfree : ∀ u, (m.pc u).occupies ≠ some c) :
    ResumeInv hosts ([] ++ tr) (m.store t c v (.running x)) := by
  have hxc : x ≠ c := by
    rintro rfl
    exact hfree t (by simp [hp, Pc.occupies])
  refine hi.store trivial (fun hc u _ => ⟨fun h => hw (hi.holds u c hc h),
    fun h => hfree u (Pc.occupies_of_leaving h)⟩) (fun y _ hy => Or.inr ?_)
    (fun y _ hy => by simp [Pc.leaving] at hy) (fun y s hy => by simp [Pc.reserves] at hy)
    (.nil (by rw [hp]))
  obtain rfl : x = y := by simpa [Pc.holds] using hy
  exact ⟨hxc, by rw [hp]; rfl⟩

omit [DecidableEq T] in
/-- A successful arm finds the state that the validation saw. -/
theorem ResumeInv.word_of_canArm (hi : ResumeInv hosts tr m) {b : Backend} {t : T}
    {k : SwitchCall C} {seen : CtxState} (hp : m.pc t = .arm k seen)
    (ha : b.canArm m t k.dst seen) : m.word k.dst = seen := by
  cases b with
  | exclusive => exact hi.reserved t k.dst seen ha (by rw [hp]; rfl)
  | cmpxchg => exact ha

omit [DecidableEq T] in
/-- The end of the execution of `c` in the trace. -/
theorem TraceKept.switchOut {t : T} {p : Pc C} {c : C} (hp : (m.pc t).executes = some c) :
    TraceKept hosts tr [.switchOut t c] m t p where
  mark x _ hm := by
    by_cases hx : c = x
    · simp [lastMark, hx] at hm
    · refine Or.inr ⟨by simpa [lastMark, hx] using hm, ?_⟩
      simpa [hp] using hx
  arms _ _ h := h

omit [DecidableEq T] in
/-- The arm of a context that no thread holds. -/
theorem TraceKept.arm {t : T} {k : SwitchCall C} {seen : CtxState} (hi : ResumeInv hosts tr m)
    (hp : m.pc t = .arm k seen) (hvalid : (m.word k.dst).Valid) :
    TraceKept hosts tr [.arm t k.dst] m t (.restore k seen) where
  mark x _ hm := by
    by_cases hx : k.dst = x
    · exact Or.inl (by simp [Pc.executes, hx])
    · exact Or.inr ⟨by simpa [lastMark, hx] using hm, by simp [hp, Pc.executes]⟩
  arms x hx h := by
    refine ⟨?_, h⟩
    rintro rfl hm
    obtain ⟨u, hu⟩ := hi.mark _ hx hm
    exact (hi.free_of_valid hx hvalid u).1 (Pc.holds_of_executes hu)

omit [DecidableEq T] in
/-- The demotion of a context, in a first pass or in a retry. -/
theorem TraceKept.demote {t : T} {k : SwitchCall C} {seen : CtxState}
    (hp : m.pc t = .demoteLoad k seen) :
    TraceKept hosts tr (if k.retry then [.redemote t k.src] else []) m t
      (.demoteStore k seen) := by
  cases k.retry with
  | false => exact .nil (by rw [hp]; rfl)
  | true => exact ⟨fun x _ hm => Or.inr ⟨hm, by simp [hp, Pc.executes]⟩, fun _ _ h => h⟩

omit [DecidableEq T] in
/-- A context other than a host is demoted in the first pass of a call that does not complete it. -/
theorem ResumeInv.first_demotion (hi : ResumeInv hosts tr m) {t : T} {k : SwitchCall C}
    {seen : CtxState} (hp : m.pc t = .demoteLoad k seen) (hs : m.word k.src = .running)
    (hno : k.retry = true → k.src ∈ hosts) (hc : k.src ∉ hosts) :
    k.retry = false ∧ k.completing = false := by
  refine ⟨?_, ?_⟩
  · by_contra hr
    rw [Bool.not_eq_false] at hr
    exact hc (hno hr)
  · by_contra hr
    rw [Bool.not_eq_false] at hr
    have hfin := hi.leaving t k.src hc (by simp [hp, Pc.leaving, hr])
    simp [hs] at hfin

/-- What one step does to the invariant, unless a retry demotes a context. -/
theorem resumeInv_step {b : Backend} (hi : ResumeInv hosts tr m) (hs : ThreadStep b hosts m es m')
    (hno : ∀ t c, ThreadEvent.redemote t c ∈ es → c ∈ hosts) :
    ResumeInv hosts (es ++ tr) m' := by
  cases hs with
  | @host t x c v hp hc =>
    refine hi.store trivial (fun h => absurd hc h) (fun y hy hx => Or.inr ⟨?_, ?_⟩)
      (fun y _ hy => by simp [Pc.leaving] at hy) (fun y s hy => by simp [Pc.reserves] at hy)
      (.nil (by rw [hp]))
    · rintro rfl
      exact hy hc
    · rw [hp, ← hx]
  | init hp hc hw hfree => exact hi.reset _ hp hw hfree
  | destroy hp hc hw hfree => exact hi.reset _ hp hw hfree
  | @call t c d hp hd =>
    have hok := hi.ok t
    exact hi.goto ⟨hd, by simp⟩ (fun x hx => by simpa [hp, Pc.holds] using hx)
      (fun x hx => by simp [Pc.leaving] at hx) (fun x s hx => by simp [Pc.reserves] at hx)
      (.switchOut (by rw [hp]; rfl))
  | @complete t c d hp hd hc =>
    refine hi.store ⟨hd, fun _ => hc⟩ (fun _ => hi.free_of_holds hc (by rw [hp]; rfl))
      (fun x _ hx => by simp [Pc.holds] at hx) (fun x _ hx => Or.inl ⟨?_, rfl⟩)
      (fun x s hx => by simp [Pc.reserves] at hx) (.switchOut (by rw [hp]; rfl))
    simpa [Pc.leaving] using hx.symm
  | @trap t k hp hs =>
    exact hi.goto trivial (fun x hx => by simp [Pc.holds] at hx)
      (fun x hx => by simp [Pc.leaving] at hx) (fun x s hx => by simp [Pc.reserves] at hx)
      (.nil (by rw [hp]; rfl))
  | @validate t k hp hs =>
    obtain ⟨hne, hcompl⟩ : (Pc.validate k).Ok hosts := hp ▸ hi.ok t
    refine hi.advance rfl ⟨hne, hcompl, hs⟩ (fun _ _ _ _ _ => rfl) (fun u x s hu hm hx => ⟨?_, rfl⟩)
      (fun x hx hh => ?_) (fun x hx hh => ?_) (fun x s _ hh => ?_) (.nil (by rw [hp]; rfl))
    · simpa [Threads.reserve, Function.update_of_ne hu] using hm
    · have ht : (m.pc t).holds = some x := by rw [hp]; exact hh
      exact ⟨hi.holds t x hx ht, fun u hu => (hi.free_of_holds hx ht u hu).1⟩
    · exact hi.leaving t x hx (by rw [hp]; exact hh)
    · simp only [Pc.reserves, Option.some.injEq, Prod.mk.injEq] at hh
      obtain ⟨rfl, rfl⟩ := hh
      rfl
  | @demoteSkip t k seen hp hs =>
    have hok : (Pc.demoteLoad k seen).Ok hosts := hp ▸ hi.ok t
    exact hi.goto hok (fun x hx => by simp [Pc.holds] at hx) (fun x hx => by rw [hp]; exact hx)
      (fun x s hx => by rw [hp]; exact hx) (.nil (by rw [hp]; rfl))
  | @demoteLoad t k seen hp hs =>
    obtain ⟨hne, hcompl, hseen⟩ : (Pc.demoteLoad k seen).Ok hosts := hp ▸ hi.ok t
    have hfirst := hi.first_demotion hp hs fun hr => hno t k.src (by simp [hr])
    exact hi.goto ⟨hne, hcompl, hseen, hfirst⟩ (fun x hx => by rw [hp]; exact hx)
      (fun x hx => by simp [Pc.leaving] at hx) (fun x s hx => by rw [hp]; exact hx) (.demote hp)
  | @demoteStore t k seen hp =>
    obtain ⟨hne, hcompl, hseen, hfirst⟩ : (Pc.demoteStore k seen).Ok hosts := hp ▸ hi.ok t
    refine hi.store ⟨hne, hcompl, hseen⟩ (fun hc => hi.free_of_holds hc ?_)
      (fun x _ hx => by simp [Pc.holds] at hx) (fun x hx hl => ?_) (fun x s hx => ?_)
      (.nil (by rw [hp]; rfl))
    · simp [hp, Pc.holds, hfirst hc]
    · -- a completing call never gets here
      obtain ⟨hk, rfl⟩ : k.completing = true ∧ k.src = x := by simpa [Pc.leaving] using hl
      simp [hfirst hx] at hk
    · simp only [Pc.reserves, Option.some.injEq, Prod.mk.injEq] at hx
      obtain ⟨rfl, rfl⟩ := hx
      exact ⟨Ne.symm hne, by rw [hp]; rfl⟩
  | @arm t k seen hp ha =>
    have hok : (Pc.arm k seen).Ok hosts := hp ▸ hi.ok t
    have hvalid : (m.word k.dst).Valid := hi.word_of_canArm hp ha ▸ hok.2.2
    refine hi.store hok (fun hc u _ => hi.free_of_valid hc hvalid u)
      (fun x _ hx => Or.inl ⟨?_, rfl⟩) (fun x _ hx => by simp [Pc.leaving] at hx)
      (fun x s hx => by simp [Pc.reserves] at hx) (.arm hi hp hvalid)
    simpa [Pc.holds] using hx.symm
  | @armFail t k seen hp ha =>
    obtain ⟨hne, hcompl, -⟩ : (Pc.arm k seen).Ok hosts := hp ▸ hi.ok t
    exact hi.goto ⟨hne, hcompl⟩ (fun x hx => by simp [Pc.holds] at hx)
      (fun x hx => by rw [hp]; exact hx) (fun x s hx => by simp [Pc.reserves] at hx)
      (.nil (by rw [hp]; rfl))
  | @restore t k seen hp =>
    exact hi.goto trivial (fun x hx => by rw [hp]; exact hx)
      (fun x hx => by simp [Pc.leaving] at hx) (fun x s hx => by simp [Pc.reserves] at hx)
      (.nil (by rw [hp]; rfl))

end Step

/-! ### Whole runs -/

section Run

variable [DecidableEq T] [DecidableEq C] {b : Backend} {hosts : Set C}
  {tr : List (ThreadEvent T C)} {m : Threads T C}

omit [DecidableEq T] in
theorem resumeInv_start (h : ThreadStart hosts m) : ResumeInv hosts [] m := by
  refine ⟨fun t => ?_, fun t c hc hh => ?_, fun t u c hc hh _ => ?_, fun t c _ hl => ?_,
    fun t c s _ hr => ?_, fun c _ hm => by simp [lastMark] at hm, fun c _ => trivial⟩
  all_goals obtain ⟨x, hx, hp⟩ := h.pc t
  · rw [hp]
    trivial
  · obtain rfl : x = c := by simpa [hp, Pc.holds] using hh
    exact absurd hx hc
  · obtain rfl : x = c := by simpa [hp, Pc.holds] using hh
    exact absurd hx hc
  · simp [hp, Pc.leaving] at hl
  · simp [hp, Pc.reserves] at hr

theorem resumeInv_run (hr : ThreadRun b hosts tr m)
    (hno : ∀ t c, ThreadEvent.redemote t c ∈ tr → c ∈ hosts) : ResumeInv hosts tr m := by
  induction hr with
  | start h => exact resumeInv_start h
  | step _ hs ih =>
    exact resumeInv_step (ih fun t c h => hno t c (List.mem_append_right _ h)) hs
      fun t c h => hno t c (List.mem_append_left _ h)

/-- In every run in which no retry finds its `from` `RUNNING`: a context that is no host is armed
at most once between two of its switch-outs, its word does not read `SUSPENDED` while a thread
executes its code, and no call restores a record whose state it saw as `DEAD`, `RUNNING` or
`FINISHED`. -/
theorem exclusive_resume (hr : ThreadRun b hosts tr m)
    (hno : ∀ t c, ThreadEvent.redemote t c ∈ tr → c ∈ hosts) :
    (∀ c, c ∉ hosts → ArmsAlternate c tr) ∧
      (∀ t c, c ∉ hosts → m.pc t = .running c → m.word c ≠ .suspended) ∧
      ∀ t k seen, m.pc t = .restore k seen → seen = .empty ∨ seen = .suspended := by
  have hi := resumeInv_run hr hno
  refine ⟨hi.arms, fun t c hc hp => ?_, fun t k seen hp => ?_⟩
  · have hw := hi.holds t c hc (by rw [hp]; rfl)
    simp [hw]
  · have hok : (Pc.restore k seen).Ok hosts := hp ▸ hi.ok t
    exact hok.2.2

end Run

/-! ### A call that is not interleaved -/

section Alone

variable [DecidableEq T] [DecidableEq C] {b : Backend} {hosts : Set C}
  {tr : List (ThreadEvent T C)} {m : Threads T C} {w w' : World C} {t : T} {d : C}

/-- The validated target of a call that has demoted its `from` is armed and restored. -/
theorem ThreadRun.arm_alone {k : SwitchCall C} {seen : CtxState} (hr : ThreadRun b hosts tr m)
    (hp : m.pc t = .arm k seen) (hm : m.monitor t = true) (hseen : m.word k.dst = seen) :
    ∃ tr' m', ThreadRun b hosts tr' m' ∧ m'.word = Function.update m.word k.dst .running ∧
      m'.pc t = .running k.dst := by
  have ha : b.canArm m t k.dst seen := by
    cases b with
    | exclusive => exact hm
    | cmpxchg => exact hseen
  have hstep := hr.step (.arm hp ha)
  have hrest := hstep.step (.restore (t := t) (Function.update_self _ _ _))
  exact ⟨_, _, hrest, rfl, Function.update_self _ _ _⟩

/-- A call that no other thread interleaves does to the state words what the lifecycle of one
thread says. -/
theorem ThreadRun.switch_alone (hr : ThreadRun b hosts tr m)
    (hword : ∀ c, m.word c = (w.record c).state) (hp : m.pc t = .running w.cur) (hd : d ≠ w.cur)
    (h : w.switch d = .ok w') :
    ∃ tr' m', ThreadRun b hosts tr' m' ∧ (∀ c, m'.word c = (w'.record c).state) ∧
      m'.pc t = .running d := by
  obtain ⟨hres, -, -, hrd, hrc, hrest⟩ := World.switch_ok hd h
  have hvalid : (m.word d).Valid := by
    rw [hword]
    exact hres
  -- the words after the arm, for the word that the demotion leaves in `from`
  have hdone (v : CtxState) (hv : v = (World.switchedOut (w.record w.cur) w.live).state) (c : C) :
      Function.update (Function.update m.word w.cur v) d .running c = (w'.record c).state := by
    by_cases hcd : c = d
    · subst hcd
      rw [Function.update_self, hrd]
      rfl
    · rw [Function.update_of_ne hcd]
      by_cases hcc : c = w.cur
      · subst hcc
        rw [Function.update_self, hrc, hv]
      · rw [Function.update_of_ne hcc, hrest c hcd hcc, hword]
  have hcall := hr.step (.call hp (Ne.symm hd))
  have hval := hcall.step (.validate (t := t) (Function.update_self _ _ _) hvalid)
  by_cases hrun : m.word w.cur = .running
  · have hload := hval.step (.demoteLoad (t := t) (Function.update_self _ _ _) hrun)
    have hstore := hload.step (.demoteStore (t := t) (Function.update_self _ _ _))
    obtain ⟨tr', m', hr', hw', hpc'⟩ := hstore.arm_alone (t := t) (Function.update_self _ _ _)
      (by simp [Threads.store, Threads.goto, Threads.reserve]) (Function.update_of_ne hd _ _)
    refine ⟨tr', m', hr', fun c => ?_, hpc'⟩
    rw [hw']
    exact hdone .suspended (by simp [World.switchedOut, ← hword, hrun]) c
  · have hskip := hval.step (.demoteSkip (t := t) (Function.update_self _ _ _) hrun)
    obtain ⟨tr', m', hr', hw', hpc'⟩ := hskip.arm_alone (t := t) (Function.update_self _ _ _)
      (by simp [Threads.goto, Threads.reserve]) rfl
    refine ⟨tr', m', hr', fun c => ?_, hpc'⟩
    rw [hw', ← hdone (m.word w.cur) (by simp [World.switchedOut, ← hword, hrun]) c,
      Function.update_eq_self]
    rfl

end Alone

/-- The hosts `0` and `1`. -/
def hostPair : Set (Fin 4) := {c | c.val < 2}

theorem notMem_hostPair {c : Fin 4} (h : 2 ≤ c.val) : c ∉ hostPair := Nat.not_lt.mpr h

/-- Two threads on the hosts `0` and `1`, both captured. -/
def twoThreads : Threads (Fin 2) (Fin 4) where
  word c := if c.val < 2 then .suspended else .dead
  pc t := .running (t.castLE (by decide))
  monitor _ := false

theorem threadStart_twoThreads : ThreadStart hostPair twoThreads where
  pc t := ⟨t.castLE (by decide), t.isLt, rfl⟩
  word c hc := if_neg hc

/-- Thread `0` runs `2` and switches back to its host; its exclusive store fails once, and the
retry finds `2` demoted. Before it arms the host, thread `1` resumes `2`. -/
theorem exclusive_resume_two :
    ∃ tr, ∃ m : Threads (Fin 2) (Fin 4), ThreadRun .exclusive hostPair tr m ∧
      m.pc 0 = .running 0 ∧ m.pc 1 = .running 2 ∧ m.word 2 ≠ .suspended ∧
        ArmsAlternate 2 tr := by
  have h₀ : ThreadRun .exclusive hostPair _ _ := .start threadStart_twoThreads
  have h₁ := h₀.step
    (.init (t := 0) (c := 2) rfl (notMem_hostPair (by decide)) (by decide) (by decide))
  have h₂ := h₁.step (.call (t := 0) (d := 2) rfl (by decide))
  have h₃ := h₂.step (.validate (t := 0) rfl (Or.inl rfl))
  have h₄ := h₃.step (.demoteSkip (t := 0) rfl (by decide))
  have h₅ := h₄.step (.arm (t := 0) rfl rfl)
  have h₆ := h₅.step (.restore (t := 0) rfl)
  have h₇ := h₆.step (.call (t := 0) (d := 0) rfl (by decide))
  have h₈ := h₇.step (.validate (t := 0) rfl (Or.inr rfl))
  have h₉ := h₈.step (.demoteLoad (t := 0) rfl rfl)
  have h₁₀ := h₉.step (.demoteStore (t := 0) rfl)
  have h₁₁ := h₁₀.step (.armFail (t := 0) rfl trivial)
  -- the retry of thread `0` finds `2` suspended
  have h₁₂ := h₁₁.step (.validate (t := 0) rfl (Or.inr rfl))
  have h₁₃ := h₁₂.step (.demoteSkip (t := 0) rfl (by decide))
  -- thread `1` resumes `2`
  have h₁₄ := h₁₃.step (.call (t := 1) (d := 2) rfl (by decide))
  have h₁₅ := h₁₄.step (.validate (t := 1) rfl (Or.inr rfl))
  have h₁₆ := h₁₅.step (.demoteSkip (t := 1) rfl (by decide))
  have h₁₇ := h₁₆.step (.arm (t := 1) rfl rfl)
  have h₁₈ := h₁₇.step (.restore (t := 1) rfl)
  -- thread `0` arms its host
  have h₁₉ := h₁₈.step (.arm (t := 0) rfl rfl)
  have h₂₀ := h₁₉.step (.restore (t := 0) rfl)
  have hctx : (2 : Fin 4) ∉ hostPair := notMem_hostPair (by decide)
  obtain ⟨halt, hword, -⟩ := exclusive_resume h₂₀ (by simp)
  exact ⟨_, _, h₂₀, rfl, rfl, hword 1 2 hctx rfl, halt 2 hctx⟩

/-- Thread `0` runs `2` and switches to `3`; its exclusive store fails once. In between thread `1`
resumes `2`, and the retry demotes `2` while thread `1` runs it. -/
theorem exclusive_resume_fails :
    ¬ ∀ tr, ∀ m : Threads (Fin 2) (Fin 4), ThreadRun .exclusive hostPair tr m →
      (∀ c, c ∉ hostPair → ArmsAlternate c tr) ∧
        (∀ t c, c ∉ hostPair → m.pc t = .running c → m.word c ≠ .suspended) ∧
        ∀ t k seen, m.pc t = .restore k seen → seen = .empty ∨ seen = .suspended := by
  have h₀ : ThreadRun .exclusive hostPair _ _ := .start threadStart_twoThreads
  have h₁ := h₀.step
    (.init (t := 0) (c := 2) rfl (notMem_hostPair (by decide)) (by decide) (by decide))
  have h₂ := h₁.step
    (.init (t := 0) (c := 3) rfl (notMem_hostPair (by decide)) (by decide) (by decide))
  have h₃ := h₂.step (.call (t := 0) (d := 2) rfl (by decide))
  have h₄ := h₃.step (.validate (t := 0) rfl (Or.inl rfl))
  have h₅ := h₄.step (.demoteSkip (t := 0) rfl (by decide))
  have h₆ := h₅.step (.arm (t := 0) rfl rfl)
  have h₇ := h₆.step (.restore (t := 0) rfl)
  -- thread `0` runs `2`: the first pass of its switch to `3`, up to the failed arm
  have h₈ := h₇.step (.call (t := 0) (d := 3) rfl (by decide))
  have h₉ := h₈.step (.validate (t := 0) rfl (Or.inl rfl))
  have h₁₀ := h₉.step (.demoteLoad (t := 0) rfl rfl)
  have h₁₁ := h₁₀.step (.demoteStore (t := 0) rfl)
  have h₁₂ := h₁₁.step (.armFail (t := 0) rfl trivial)
  -- thread `1` resumes `2`
  have h₁₃ := h₁₂.step (.call (t := 1) (d := 2) rfl (by decide))
  have h₁₄ := h₁₃.step (.validate (t := 1) rfl (Or.inr rfl))
  have h₁₅ := h₁₄.step (.demoteSkip (t := 1) rfl (by decide))
  have h₁₆ := h₁₅.step (.arm (t := 1) rfl rfl)
  have h₁₇ := h₁₆.step (.restore (t := 1) rfl)
  -- the retry of thread `0`
  have h₁₈ := h₁₇.step (.validate (t := 0) rfl (Or.inl rfl))
  have h₁₉ := h₁₈.step (.demoteLoad (t := 0) rfl rfl)
  have h₂₀ := h₁₉.step (.demoteStore (t := 0) rfl)
  intro h
  exact (h _ _ h₂₀).2.1 1 2 (notMem_hostPair (by decide)) rfl rfl

end MojitoSys.Ctx
