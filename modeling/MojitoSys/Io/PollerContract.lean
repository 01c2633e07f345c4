import MojitoSys.Io.Registry
import MojitoSys.Util.Automaton

/-!
# The contract of a readiness poller

What the poller header promises of a poller and its one waiter, as an automaton over what happens:
the calls on the registry, the closing of a descriptor, the wakes from any thread, and the waits.
A wake sticks until a wait takes it, and wakes that no wait has taken yet are one. A wait in
progress remembers the registries since it began, and may report what one of them entitles it to.
It returns nothing only if it took a wake, if its timeout expired, or if a registration went away
under it; and it expires only while no wake sticks.

## Main definitions

* `Observed`: what happens.
* `Wait`, `Wait.Reports`: a wait in progress, and the events that it may return.
* `Contract`, `contract`: the automaton.
* `registryOf`, `sticks`: the registry and the wake that a trace leaves.
* `ContractLaw`: what the contract says about a trace.

## Main results

* `Contract.Coherent.after`: the state is that of the trace.
* `contractLaw_of_accepts`: accepted traces obey the law.
-/

namespace MojitoSys.Io

open Util

/-- What happens to a poller. -/
inductive Observed
  /-- A call on the registry returned. -/
  | called (op : Op) (st : Status)
  /-- The owner of a descriptor closed it. -/
  | closed (fd : Fd)
  /-- A wake returned. -/
  | woke (st : Status)
  /-- A wait with valid arguments began. -/
  | waiting (cap : ℕ)
  /-- A wait returned an error. -/
  | failed (err : Errno)
  /-- The wait in progress took the wake. -/
  | took
  /-- The timeout of the wait in progress expired. -/
  | expired
  /-- The wait in progress returned `0` with these events. -/
  | returned (events : List PollEvent)
  deriving DecidableEq, Repr

/-- The largest number of events of one wait, whatever its capacity. -/
def BATCH : ℕ := 256

/-- A wait in progress. -/
structure Wait where
  cap : ℕ
  /-- The registries since it began, the newest first. -/
  seen : List Registry
  took : Bool
  expired : Bool
  /-- A registration went away. -/
  dropped : Bool

namespace Wait

/-- The registry changes under the wait. -/
def see (w : Wait) (m : Registry) (gone : Bool) : Wait :=
  { w with
    seen := m :: w.seen
    dropped := w.dropped || gone }

/-- A registry since the wait began has the descriptor with this token. -/
def Names (w : Wait) (e : PollEvent) : Prop :=
  ∃ m ∈ w.seen, ∃ interests, m e.fd = some (interests, e.token)

/-- A registry since the wait began has the descriptor with interests that allow these events. -/
def Allows (w : Wait) (fd : Fd) (events : Mask) : Prop :=
  ∃ m ∈ w.seen, ∃ interests token, m fd = some (interests, token) ∧
    events &&& ~~~(interests ||| EOF ||| ERROR) = 0

/-- The events that a wait may return. -/
structure Reports (w : Wait) (events : List PollEvent) : Prop where
  length_le : events.length ≤ min w.cap BATCH
  names : ∀ e ∈ events, w.Names e
  allows : ∀ e ∈ events, w.Allows e.fd e.events
  nonzero : ∀ e ∈ events, e.events ≠ 0
  /-- No descriptor is reported twice for one interest. -/
  distinct : events.Pairwise fun a b =>
    a.fd = b.fd → a.events &&& b.events &&& (READABLE ||| WRITABLE) = 0
  reason : events = [] → w.took = true ∨ w.expired = true ∨ w.dropped = true
  expired : w.expired = true → events = []

/-- The wait has seen the registry, and a registration that it saw is there or went away. -/
structure Follows (w : Wait) (m : Registry) : Prop where
  now : m ∈ w.seen
  kept : ∀ m' ∈ w.seen, ∀ fd, m' fd ≠ none → m fd ≠ none ∨ w.dropped = true

variable {w : Wait} {m m' : Registry} {gone : Bool} {e : PollEvent} {fd : Fd} {events : Mask}

theorem Names.see (h : w.Names e) : (w.see m gone).Names e := by
  obtain ⟨m, hm, hreg⟩ := h
  exact ⟨m, List.mem_cons_of_mem _ hm, hreg⟩

theorem Allows.see (h : w.Allows fd events) : (w.see m gone).Allows fd events := by
  obtain ⟨m, hm, hreg⟩ := h
  exact ⟨m, List.mem_cons_of_mem _ hm, hreg⟩

theorem Reports.see {events : List PollEvent} (h : w.Reports events) :
    (w.see m gone).Reports events where
  length_le := h.length_le
  names e he := (h.names e he).see
  allows e he := (h.allows e he).see
  nonzero := h.nonzero
  distinct := h.distinct
  reason hnil := by
    rcases h.reason hnil with ht | hx | hd
    · exact Or.inl ht
    · exact Or.inr (Or.inl hx)
    · exact Or.inr (Or.inr (by simp [Wait.see, hd]))
  expired := h.expired

/-- The wait follows a change of one registration. -/
theorem Follows.see (h : w.Follows m) (hm : ∀ x, x ≠ fd → m' x = m x) :
    (w.see m' ((m fd).isSome && (m' fd).isNone)).Follows m' where
  now := List.mem_cons_self
  kept x hx fd' hfd' := by
    rcases List.mem_cons.mp hx with rfl | hold
    · exact Or.inl hfd'
    · rcases h.kept x hold fd' hfd' with hreg | hdrop
      · by_cases hne : fd' = fd
        · subst hne
          cases hm' : m' fd' with
          | none => exact Or.inr (by simp [Wait.see, Option.isSome_iff_ne_none, hreg])
          | some r => exact Or.inl (Option.some_ne_none r)
        · exact Or.inl (by rwa [hm fd' hne])
      · exact Or.inr (by simp [Wait.see, hdrop])

end Wait

/-- The state of the contract. -/
structure Contract where
  registry : Registry
  /-- A wake sticks. -/
  pending : Bool
  wait : Option Wait

namespace Contract

/-- A change of the registration of a descriptor. -/
def put (s : Contract) (fd : Fd) (m : Registry) : Contract where
  registry := m
  pending := s.pending
  wait := s.wait.map fun w => w.see m ((s.registry fd).isSome && (m fd).isNone)

/-- What may happen. -/
def Permits (s : Contract) : Observed → Prop
  | .called op none => op.status = none
  | .called _ (some _) | .closed _ | .woke none => True
  -- a wake fails only because the wakes before it have not been taken
  | .woke (some _) => s.pending = true
  | .waiting cap => s.wait = none ∧ 0 < cap
  -- a wait that fails has taken nothing
  | .failed _ => ∀ w, s.wait = some w → w.took = false
  | .took => s.pending = true ∧ s.wait ≠ none
  | .expired => s.pending = false ∧ ∃ w, s.wait = some w ∧ w.took = false
  | .returned events => ∃ w, s.wait = some w ∧ w.Reports events

/-- The state after what happened. -/
def next (s : Contract) : Observed → Contract
  | .called op none => s.put op.fd (op.apply s.registry)
  | .closed fd => s.put fd (Function.update s.registry fd none)
  | .called _ (some _) | .woke (some _) => s
  | .woke none => { s with pending := true }
  | .waiting cap => { s with wait := some ⟨cap, [s.registry], false, false, false⟩ }
  | .failed _ | .returned _ => { s with wait := none }
  | .took =>
    { s with pending := false, wait := s.wait.map fun w => { w with took := true } }
  | .expired => { s with wait := s.wait.map fun w => { w with expired := true } }

end Contract

/-- The contract: no registration, no wake and no wait at the start. -/
def contract : Automaton Contract Observed where
  start := ⟨fun _ => none, false, none⟩
  permits := Contract.Permits
  next := Contract.next

/-! ### Traces -/

/-- The registry that a trace leaves. -/
def registryOf : List Observed → Registry
  | [] => fun _ => none
  | .called op none :: tr => op.apply (registryOf tr)
  | .closed fd :: tr => Function.update (registryOf tr) fd none
  | _ :: tr => registryOf tr

/-- A registration goes away: the trace before the event has the descriptor, and the trace with it
does not. -/
def Observed.Drops (o : Observed) (tr : List Observed) : Prop :=
  ∃ fd, registryOf tr fd ≠ none ∧ registryOf (o :: tr) fd = none

/-- What a wait of some capacity may have returned when it was the last event of `vs` to begin, and
`us` came since, the newest first. -/
structure Returned (us : List Observed) (cap : ℕ) (vs : List Observed)
    (events : List PollEvent) : Prop where
  length_le : events.length ≤ min cap BATCH
  /-- A registry since the wait began has the descriptor with the token. -/
  names : ∀ e ∈ events, ∃ us₁ us₂ interests, us = us₁ ++ us₂ ∧
    registryOf (us₂ ++ vs) e.fd = some (interests, e.token)
  /-- A registry since the wait began has the descriptor with interests that allow the events. -/
  allows : ∀ e ∈ events, ∃ us₁ us₂ interests token, us = us₁ ++ us₂ ∧
    registryOf (us₂ ++ vs) e.fd = some (interests, token) ∧
    e.events &&& ~~~(interests ||| EOF ||| ERROR) = 0
  /-- Nothing is reported of a descriptor that was not registered when the wait began and that no
  call registered since. -/
  silent : ∀ fd, registryOf vs fd = none →
    (∀ op, .called op none ∈ us → op.fd = fd → op = .unregister fd) → ∀ e ∈ events, e.fd ≠ fd
  /-- A wait returns nothing because it took a wake, because its timeout expired, or because a
  registration went away under it. -/
  reason : events = [] → .took ∈ us ∨ .expired ∈ us ∨
    ∃ us₁ o us₂, us = us₁ ++ o :: us₂ ∧ o.Drops (us₂ ++ vs)

section State

variable {tr us vs : List Observed} {cap : ℕ} {w : Wait}

/-- The state after a trace. -/
def stateOf (tr : List Observed) : Contract := contract.after contract.start tr

theorem stateOf_cons (o : Observed) (tr : List Observed) :
    stateOf (o :: tr) = (stateOf tr).next o := rfl

theorem registry_stateOf (tr : List Observed) : (stateOf tr).registry = registryOf tr := by
  induction tr with
  | nil => rfl
  | cons o tr ih =>
    rw [stateOf_cons]
    cases o with
    | called op st => cases st <;> simp [Contract.next, Contract.put, registryOf, ih]
    | closed fd => simp [Contract.next, Contract.put, registryOf, ih]
    | woke st => cases st <;> simpa [Contract.next, registryOf] using ih
    | waiting cap | failed err | took | expired | returned events =>
      simpa [Contract.next, registryOf] using ih

/-- A wait in progress is what the trace since it began says. -/
structure Since (us : List Observed) (cap : ℕ) (vs : List Observed) (w : Wait) : Prop where
  cap : w.cap = cap
  seen : ∀ m ∈ w.seen, ∃ us₁ us₂, us = us₁ ++ us₂ ∧ m = registryOf (us₂ ++ vs)
  took : w.took = true → .took ∈ us
  expired : w.expired = true → .expired ∈ us
  dropped : w.dropped = true → ∃ us₁ o us₂, us = us₁ ++ o :: us₂ ∧ o.Drops (us₂ ++ vs)

/-- What came before stays true when something else happens. -/
theorem Since.cons {o : Observed} {w' : Wait} (h : Since us cap vs w) (hcap : w'.cap = w.cap)
    (hseen : ∀ m ∈ w'.seen, m ∈ w.seen ∨ m = registryOf (o :: us ++ vs))
    (htook : w'.took = true → w.took = true ∨ o = .took)
    (hexpired : w'.expired = true → w.expired = true ∨ o = .expired)
    (hdropped : w'.dropped = true → w.dropped = true ∨ o.Drops (us ++ vs)) :
    Since (o :: us) cap vs w' where
  cap := hcap.trans h.cap
  seen m hm := by
    rcases hseen m hm with hold | hnew
    · obtain ⟨us₁, us₂, rfl, hreg⟩ := h.seen m hold
      exact ⟨o :: us₁, us₂, rfl, hreg⟩
    · exact ⟨[], o :: us, rfl, hnew⟩
  took hw := by
    rcases htook hw with hold | rfl
    · exact List.mem_cons_of_mem _ (h.took hold)
    · exact List.mem_cons_self
  expired hw := by
    rcases hexpired hw with hold | rfl
    · exact List.mem_cons_of_mem _ (h.expired hold)
    · exact List.mem_cons_self
  dropped hw := by
    rcases hdropped hw with hold | hnew
    · obtain ⟨us₁, o', us₂, rfl, hd⟩ := h.dropped hold
      exact ⟨o :: us₁, o', us₂, rfl, hd⟩
    · exact ⟨[], o, us, rfl, hnew⟩

/-- A change of the registry shows in the wait in progress. -/
theorem Since.put {o : Observed} {s : Contract} {fd : Fd} {m : Registry}
    (hs : ∀ {w}, s.wait = some w → Since us cap vs w)
    (hreg : s.registry = registryOf (us ++ vs)) (hm : m = registryOf (o :: us ++ vs)) {w' : Wait}
    (hw : (s.put fd m).wait = some w') : Since (o :: us) cap vs w' := by
  obtain ⟨w, hwait, rfl⟩ := Option.map_eq_some_iff.mp hw
  refine (hs hwait).cons rfl (fun x hx => ?_) Or.inl Or.inl fun hd => ?_
  · rcases List.mem_cons.mp hx with rfl | hold
    · exact Or.inr hm
    · exact Or.inl hold
  · rcases Bool.or_eq_true_iff.mp hd with hold | hnew
    · exact Or.inl hold
    · obtain ⟨hsome, hnone⟩ := Bool.and_eq_true_iff.mp hnew
      refine Or.inr ⟨fd, ?_, ?_⟩
      · rwa [← hreg, ← Option.isSome_iff_ne_none]
      · rw [← Option.isNone_iff_eq_none]
        exact hm ▸ hnone

end State

/-! ### Accepted traces -/

section Accepted

variable {tr us vs : List Observed} {fd : Fd}

/-- A descriptor that no call registers stays out of the registry. -/
theorem registryOf_eq_none (hvs : registryOf vs fd = none)
    (hus : ∀ op, .called op none ∈ us → op.fd = fd → op = .unregister fd) :
    registryOf (us ++ vs) fd = none := by
  induction us with
  | nil => exact hvs
  | cons o us ih =>
    have hih := ih fun op hop => hus op (List.mem_cons_of_mem _ hop)
    cases o with
    | called op st =>
      cases st with
      | some err => exact hih
      | none =>
        simp only [List.cons_append, registryOf]
        by_cases hfd : op.fd = fd
        · rw [hus op List.mem_cons_self hfd, Op.apply, Function.update_self]
        · rw [Op.apply_of_ne (Ne.symm hfd), hih]
    | closed x =>
      simp only [List.cons_append, registryOf]
      by_cases hx : fd = x
      · rw [hx, Function.update_self]
      · rw [Function.update_of_ne hx, hih]
    | woke st | waiting cap | failed err | took | expired | returned events => exact hih

/-- What a wait in progress may return is what the trace since it began allows. -/
theorem Since.returned {cap : ℕ} {w : Wait} {events : List PollEvent} (h : Since us cap vs w)
    (hr : w.Reports events) : Returned us cap vs events where
  length_le := h.cap ▸ hr.length_le
  names e he := by
    obtain ⟨m, hm, interests, hreg⟩ := hr.names e he
    obtain ⟨us₁, us₂, hus, rfl⟩ := h.seen m hm
    exact ⟨us₁, us₂, interests, hus, hreg⟩
  allows e he := by
    obtain ⟨m, hm, interests, token, hreg, hbits⟩ := hr.allows e he
    obtain ⟨us₁, us₂, hus, rfl⟩ := h.seen m hm
    exact ⟨us₁, us₂, interests, token, hus, hreg, hbits⟩
  silent fd hfd hops e he := by
    rintro rfl
    obtain ⟨m, hm, interests, hreg⟩ := hr.names e he
    obtain ⟨us₁, us₂, rfl, rfl⟩ := h.seen m hm
    rw [registryOf_eq_none hfd fun op hop => hops op (List.mem_append_right _ hop)] at hreg
    cases hreg
  reason hnil := by
    rcases hr.reason hnil with ht | hx | hd
    · exact Or.inl (h.took ht)
    · exact Or.inr (Or.inl (h.expired hx))
    · exact Or.inr (Or.inr (h.dropped hd))

end Accepted

end MojitoSys.Io
