import MojitoSys.Io.Registry

/-!
# The kqueue backend

The poller of `mjs_poller.c`: every registration is at most two knotes in the kernel, one for each
filter, and the token rides in the knote. `kevent` behaves as documented: `EV_ADD` of a present
knote replaces its token, `EV_DELETE` of an absent one is `ENOENT`, and any call may fail with
another error; a call that fails changes nothing.

The backend keeps no table, so it implements the registry without conditions. One update is two
changes, and the second may fail after the first took effect.

## Main definitions

* `Kqueue`, `Kqueue.kevent`.
* `Kqueue.applyFilter`, `Kqueue.pollSet`, `Kqueue.register`, `Kqueue.modify`, `Kqueue.unregister`.
* `Kqueue.Implements`: the knotes of a registry.
* `Kqueue.KeptOnFailure`: a call that fails leaves the filters of its descriptor.

## Main results

* `Kqueue.Implements.call`: a call has the status and the effect of the registry.
* `Kqueue.Implements.registered_iff`: the knotes determine the registry.
* `Kqueue.kept_on_failure_iff`: a failing call keeps the filters exactly when its change of the
  reading filter changes nothing.
-/

namespace MojitoSys.Io

/-- `EVFILT_READ` and `EVFILT_WRITE`. -/
inductive Kqueue.Filter
  | read
  | write
  deriving DecidableEq, Repr

/-- The interest bit of a filter. -/
def Kqueue.Filter.bit : Kqueue.Filter → Mask
  | .read => READABLE
  | .write => WRITABLE

/-- The poller: the tokens of its knotes. -/
structure Kqueue where
  knotes : Fd → Kqueue.Filter → Option Token

namespace Kqueue

/-- `kevent` with one change: `EV_ADD` with a token, or `EV_DELETE`. -/
def kevent (k : Kqueue) (fail : Option Errno) (fd : Fd) (filter : Filter) (change : Option Token) :
    Status × Kqueue :=
  match fail, change, k.knotes fd filter with
  | some err, _, _ => (some err, k)
  | none, none, none => (some .ENOENT, k)
  | none, change, _ =>
    (none, ⟨Function.update k.knotes fd (Function.update (k.knotes fd) filter change)⟩)

/-- `mjs_apply_filter`. -/
def applyFilter (k : Kqueue) (fail : Option Errno) (fd : Fd) (filter : Filter) (want : Bool)
    (token : Token) : Status × Kqueue :=
  if want then k.kevent fail fd filter (some token)
  else
    match k.kevent fail fd filter none with
    | (some .ENOENT, k) => (none, k)
    | r => r

/-- The two filters of a descriptor, the reading one first. -/
def applyFilters (k : Kqueue) (f₁ f₂ : Option Errno) (fd : Fd) (interests : Mask) (token : Token) :
    Status × Kqueue :=
  match k.applyFilter f₁ fd .read (interests &&& READABLE ≠ 0) token with
  | (some err, k) => (some err, k)
  | (none, k) => k.applyFilter f₂ fd .write (interests &&& WRITABLE ≠ 0) token

/-- `mjs_poll_set`. -/
def pollSet (k : Kqueue) (f₁ f₂ : Option Errno) (fd : Fd) (interests : Mask) (token : Token) :
    Status × Kqueue :=
  match checkInterests interests with
  | some err => (some err, k)
  | none => if fd < 0 then (some .EBADF, k) else k.applyFilters f₁ f₂ fd interests token

/-- `mjs_poller_register`. -/
def register (k : Kqueue) (f₁ f₂ : Option Errno) (fd : Fd) (interests : Mask) (token : Token) :
    Status × Kqueue := k.pollSet f₁ f₂ fd interests token

/-- `mjs_poller_modify`. -/
def modify (k : Kqueue) (f₁ f₂ : Option Errno) (fd : Fd) (interests : Mask) (token : Token) :
    Status × Kqueue := k.pollSet f₁ f₂ fd interests token

/-- `mjs_poller_unregister`. -/
def unregister (k : Kqueue) (f₁ f₂ : Option Errno) (fd : Fd) : Status × Kqueue :=
  if fd < 0 then (some .EBADF, k) else k.applyFilters f₁ f₂ fd 0 0

/-- A call on a kernel that does not fail. -/
def call (k : Kqueue) : Op → Status × Kqueue
  | .register fd interests token => k.register none none fd interests token
  | .modify fd interests token => k.modify none none fd interests token
  | .unregister fd => k.unregister none none fd

/-! ### The registry -/

/-- The token of a filter in a registration. -/
def filterToken (filter : Filter) : Option (Mask × Token) → Option Token
  | some (interests, token) => if interests &&& filter.bit ≠ 0 then some token else none
  | none => none

/-- The knotes are those of the registry. -/
def Implements (k : Kqueue) (m : Registry) : Prop :=
  ∀ fd filter, k.knotes fd filter = filterToken filter (m fd)

/-- The knotes of a descriptor are those of a registration. -/
def Registered (k : Kqueue) (fd : Fd) (interests : Mask) (token : Token) : Prop :=
  checkInterests interests = none ∧
    ∀ filter, k.knotes fd filter = filterToken filter (some (interests, token))

variable {k k' : Kqueue} {m : Registry} {fd : Fd}

/-- One filter is set or removed, whatever it was. -/
theorem applyFilter_none (k : Kqueue) (fd : Fd) (filter : Filter) (want : Bool) (token : Token) :
    k.applyFilter none fd filter want token =
      (none, ⟨Function.update k.knotes fd
        (Function.update (k.knotes fd) filter (if want then some token else none))⟩) := by
  cases want with
  | true => simp [applyFilter, kevent]
  | false =>
    cases hk : k.knotes fd filter with
    | none =>
      have hself : Function.update (k.knotes fd) filter none = k.knotes fd :=
        Function.update_eq_self_iff.mpr hk.symm
      simp [applyFilter, kevent, hk, hself]
    | some t => simp [applyFilter, kevent, hk]

/-- The filters of a descriptor are replaced, and no other. -/
theorem applyFilters_none (k : Kqueue) (fd : Fd) (interests : Mask) (token : Token) :
    k.applyFilters none none fd interests token =
      (none, ⟨Function.update k.knotes fd
        fun filter => filterToken filter (some (interests, token))⟩) := by
  simp only [applyFilters, applyFilter_none, Function.update_self, Function.update_idem]
  congr 3
  funext filter
  cases filter with
  | read =>
    by_cases hbit : interests &&& READABLE = 0#32 <;>
      simp [filterToken, Filter.bit, Function.update, hbit]
  | write =>
    by_cases hbit : interests &&& WRITABLE = 0#32 <;>
      simp [filterToken, Filter.bit, Function.update, hbit]

/-- A call has the status and the effect of the registry. -/
theorem Implements.call (hk : k.Implements m) (op : Op) (hfd : 0 ≤ op.fd) :
    (k.call op).1 = op.status ∧ (k.call op).2.Implements (op.apply m) := by
  have hput (fd : Fd) (v : Option (Mask × Token)) :
      (⟨Function.update k.knotes fd fun filter => filterToken filter v⟩ : Kqueue).Implements
        (Function.update m fd v) := by
    intro x filter
    by_cases hne : x = fd
    · simp [hne]
    · simpa [hne] using hk x filter
  cases op with
  | register fd interests token | modify fd interests token =>
    have hneg : ¬ fd < 0 := Int.not_lt.mpr hfd
    simp only [Kqueue.call, register, modify, pollSet, Op.status, Op.apply]
    cases hc : checkInterests interests with
    | some err => exact ⟨rfl, hk⟩
    | none =>
      rw [if_neg hneg, if_pos rfl, applyFilters_none]
      exact ⟨rfl, hput fd _⟩
  | unregister fd =>
    have hneg : ¬ fd < 0 := Int.not_lt.mpr hfd
    simp only [Kqueue.call, unregister, Op.status, Op.apply]
    rw [if_neg hneg, applyFilters_none]
    refine ⟨rfl, ?_⟩
    have hnone : (fun filter => filterToken filter (some (0, 0))) =
        fun filter => filterToken filter none := by
      funext filter
      cases filter <;> rfl
    rw [hnone]
    exact hput fd none

/-- The two filters determine a registration. -/
theorem filterToken_inj {v : Option (Mask × Token)} {interests : Mask} {token : Token}
    (hc : checkInterests interests = none) (hv : ∀ i t, v = some (i, t) → checkInterests i = none)
    (h : ∀ filter, filterToken filter v = filterToken filter (some (interests, token))) :
    v = some (interests, token) := by
  have hread := h .read
  have hwrite := h .write
  cases v with
  | none =>
    rcases checkInterests_eq_none hc with rfl | rfl | rfl <;>
      simp [filterToken, Filter.bit, READABLE, WRITABLE] at hread hwrite
  | some r =>
    obtain ⟨i, t⟩ := r
    have hi := hv i t rfl
    rcases checkInterests_eq_none hc with rfl | rfl | rfl <;>
      rcases checkInterests_eq_none hi with rfl | rfl | rfl <;>
      simp_all [filterToken, Filter.bit, READABLE, WRITABLE]

/-- The knotes determine the registry. -/
theorem Implements.registered_iff (hk : k.Implements m) (hm : m.Valid) {interests : Mask}
    {token : Token} : k.Registered fd interests token ↔ m fd = some (interests, token) := by
  constructor
  · rintro ⟨hc, hknotes⟩
    exact filterToken_inj hc (hm fd) fun filter => (hk fd filter).symm.trans (hknotes filter)
  · intro h
    exact ⟨hm fd interests token h, fun filter => by rw [hk fd filter, h]⟩

/-! ### Failing calls -/

/-- A call on `fd`, given by the outcomes of its two changes, leaves the filters of `fd` and their
tokens as they were whenever it returns nonzero. -/
def KeptOnFailure (k : Kqueue) (fd : Fd) (call : Option Errno → Option Errno → Status × Kqueue) :
    Prop :=
  ∀ f₁ f₂, (call f₁ f₂).1 ≠ none → (call f₁ f₂).2.knotes fd = k.knotes fd

/-- A change of one filter has no effect, or takes effect and succeeds. -/
theorem applyFilter_cases (k : Kqueue) (f : Option Errno) (fd : Fd) (filter : Filter) (want : Bool)
    (token : Token) : (k.applyFilter f fd filter want token).2 = k ∨
      k.applyFilter f fd filter want token = k.applyFilter none fd filter want token := by
  cases f with
  | none => exact Or.inr rfl
  | some err =>
    left
    cases want with
    | true => rfl
    | false => cases err <;> rfl

/-- A pair of changes that fails has no effect, or its first change took effect alone. -/
theorem applyFilters_failed {f₁ f₂ : Option Errno} {interests : Mask} {token : Token}
    (h : (k.applyFilters f₁ f₂ fd interests token).1 ≠ none) :
    (k.applyFilters f₁ f₂ fd interests token).2 = k ∨
      (k.applyFilters f₁ f₂ fd interests token).2 =
        (k.applyFilter none fd .read (interests &&& READABLE ≠ 0) token).2 := by
  unfold applyFilters at h ⊢
  have hread := applyFilter_cases k f₁ fd .read (interests &&& READABLE ≠ 0) token
  rcases hr : k.applyFilter f₁ fd .read (interests &&& READABLE ≠ 0) token with ⟨_ | err, k₁⟩
  · rw [hr] at h hread
    have hwrite := applyFilter_cases k₁ f₂ fd .write (interests &&& WRITABLE ≠ 0) token
    dsimp only at h ⊢
    rcases hwrite with hw | hw
    · rw [hw]
      exact hread.imp id (congrArg Prod.snd)
    · -- the second change took effect, so the call did not fail
      rw [hw, applyFilter_none] at h
      exact absurd rfl h
  · rw [hr] at hread
    exact hread.imp id (congrArg Prod.snd)

/-- The pair of changes keeps the filters on failure exactly when the reading filter is already
what the call asks for. -/
theorem keptOnFailure_applyFilters_iff (k : Kqueue) (fd : Fd) (interests : Mask) (token : Token) :
    KeptOnFailure k fd (fun f₁ f₂ => k.applyFilters f₁ f₂ fd interests token) ↔
      k.knotes fd .read = filterToken .read (some (interests, token)) := by
  have hasked : filterToken .read (some (interests, token)) =
      if (decide (interests &&& READABLE ≠ 0)) = true then some token else none := by
    by_cases hr : interests &&& READABLE = 0#32 <;> simp [filterToken, Filter.bit, hr]
  constructor
  · intro h
    -- the reading change succeeds, and the writing one has no memory
    have hpair : k.applyFilters none (some (.other 12)) fd interests token =
        (some (.other 12), (k.applyFilter none fd .read (interests &&& READABLE ≠ 0) token).2) := by
      rw [applyFilters, applyFilter_none]
      by_cases hw : interests &&& WRITABLE = 0#32 <;> simp [applyFilter, kevent, hw]
    have hkept := h none (some (.other 12)) (by simp [hpair])
    dsimp only at hkept
    rw [hpair, applyFilter_none, ← hasked] at hkept
    simpa using (congrFun hkept .read).symm
  · intro hread f₁ f₂ hfail
    dsimp only at hfail ⊢
    rcases applyFilters_failed hfail with h | h
    · rw [h]
    · rw [h, applyFilter_none, ← hasked, ← hread]
      simp

/-- A registration or a modification that returns nonzero keeps the filters of its descriptor, for
all failures of its changes, exactly when its arguments are refused or the reading filter is
already what it asks for; an unregistration, exactly when there is no reading filter. -/
theorem kept_on_failure_iff (k : Kqueue) (fd : Fd) :
    (∀ interests token,
      (KeptOnFailure k fd (fun f₁ f₂ => k.register f₁ f₂ fd interests token) ↔
        checkInterests interests ≠ none ∨ fd < 0 ∨
          k.knotes fd .read = filterToken .read (some (interests, token))) ∧
      (KeptOnFailure k fd (fun f₁ f₂ => k.modify f₁ f₂ fd interests token) ↔
        checkInterests interests ≠ none ∨ fd < 0 ∨
          k.knotes fd .read = filterToken .read (some (interests, token)))) ∧
    (KeptOnFailure k fd (fun f₁ f₂ => k.unregister f₁ f₂ fd) ↔
      fd < 0 ∨ k.knotes fd .read = none) := by
  have hset (interests : Mask) (token : Token) :
      KeptOnFailure k fd (fun f₁ f₂ => k.pollSet f₁ f₂ fd interests token) ↔
        checkInterests interests ≠ none ∨ fd < 0 ∨
          k.knotes fd .read = filterToken .read (some (interests, token)) := by
    rw [← keptOnFailure_applyFilters_iff]
    unfold pollSet
    cases checkInterests interests with
    | some err => simp [KeptOnFailure]
    | none =>
      by_cases hfd : fd < 0
      · simp [KeptOnFailure, hfd]
      · simp [hfd]
  refine ⟨fun interests token => ⟨hset interests token, hset interests token⟩, ?_⟩
  have hun := keptOnFailure_applyFilters_iff k fd 0 0
  have hnone : filterToken .read (some ((0 : Mask), (0 : Token))) = none := rfl
  rw [hnone] at hun
  rw [← hun]
  unfold unregister
  by_cases hfd : fd < 0
  · simp [KeptOnFailure, hfd]
  · simp [hfd]

/-- Descriptor `3` watched for reading and writing with the token `1`. -/
def both : Kqueue :=
  (register ⟨fun _ _ => none⟩ none none 3 (READABLE ||| WRITABLE) 1).2

/-- A modification whose second change has no memory returns nonzero and has replaced the token of
the reading filter; an unregistration has removed that filter. -/
theorem kept_on_failure_fails :
    ((both.modify none (some (.other 12)) 3 (READABLE ||| WRITABLE) 2).1 = some (.other 12) ∧
      both.knotes 3 .read = some 1 ∧
      (both.modify none (some (.other 12)) 3 (READABLE ||| WRITABLE) 2).2.knotes 3 .read = some 2 ∧
      (both.modify none (some (.other 12)) 3 (READABLE ||| WRITABLE) 2).2.knotes 3 .write =
        some 1) ∧
    (both.unregister none (some (.other 12)) 3).1 = some (.other 12) ∧
      (both.unregister none (some (.other 12)) 3).2.knotes 3 .read = none := by
  decide

end Kqueue

end MojitoSys.Io
