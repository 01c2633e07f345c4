import MojitoSys.Status
import Mathlib.Data.Set.Insert
import Mathlib.Logic.Function.Basic
import Mathlib.Data.BitVec

/-!
# Thread-local storage keys

The registry of `mjs_tls.c`: public ids that only grow, in slots that are recycled, over host keys
that the system recycles. The registry has one lock. The creation of the host key precedes the lock
region of `mjs_tls_create`, and the deletion of the host key follows the lock region of
`mjs_tls_destroy` or of a failed `mjs_tls_create`, so that the steps of other threads come in
between; a thread in such a gap holds a host key that is in no live slot.

## Main definitions

* `TlsRegistry`, `TlsRegistry.find`, `TlsRegistry.insert`, `TlsRegistry.remove`: the lock regions.
* `Host`: the host keys and the values of the threads.
* `TlsStep`, `TlsRun`: the calls of any number of threads, with the trace of their lock regions.
* `created`, `removed`, `lastSet`: what a trace did.

## Main results

* `Owned`: a host key has one owner, a live slot or a thread between two steps of a call.
* `TlsRun.inv`: the invariant of every run.
* `tls_registry`: the laws of the registry.
-/

namespace MojitoSys.Thread

/-- A public key. -/
abbrev TlsId := BitVec 64

/-- `tls_slot`. -/
structure TlsSlot (K : Type*) where
  id : TlsId
  /-- The host key behind the slot. -/
  key : K
  live : Bool
  deriving DecidableEq, Repr

/-- The slots, `g_cap` and `g_next_id`; `g_len` is the length of the list. -/
@[ext]
structure TlsRegistry (K : Type*) where
  slots : List (TlsSlot K)
  cap : ℕ
  nextId : TlsId
  deriving DecidableEq, Repr

namespace TlsRegistry

variable {K : Type*}

/-- The registry at the start of the program. -/
def empty : TlsRegistry K := ⟨[], 0, 1⟩

/-- `tls_find`: the index of the live slot of an id. -/
def find (r : TlsRegistry K) (id : TlsId) : Option ℕ :=
  r.slots.findIdx? fun s => s.live && s.id = id

/-- `tls_grow`, when `realloc` succeeds. -/
def grow (r : TlsRegistry K) : TlsRegistry K :=
  { r with cap := if r.cap ≠ 0 then r.cap * 2 else 16 }

/-- The slot of a new key. -/
def fresh (r : TlsRegistry K) (key : K) : TlsSlot K := ⟨r.nextId, key, true⟩

/-- The lock region of `mjs_tls_create`, with the host key that was created before it. `alloc` says
whether `realloc` would succeed. -/
def insert (alloc : Bool) (r : TlsRegistry K) (key : K) : Option (TlsRegistry K) :=
  match r.slots.findIdx? fun s => !s.live with
  | some i => some { r with slots := r.slots.set i (r.fresh key), nextId := r.nextId + 1 }
  | none =>
    if r.slots.length = r.cap ∧ alloc = false then none
    else
      let r' := if r.slots.length = r.cap then r.grow else r
      some { r' with slots := r.slots ++ [r.fresh key], nextId := r.nextId + 1 }

/-- The lock region of `mjs_tls_destroy` that found slot `i`. -/
def remove (r : TlsRegistry K) (i : ℕ) : TlsRegistry K :=
  { r with slots := r.slots.modify i fun s => { s with live := false } }

/-- The slot at an index is live. -/
def LiveAt (r : TlsRegistry K) (i : ℕ) (s : TlsSlot K) : Prop :=
  r.slots[i]? = some s ∧ s.live = true

end TlsRegistry

/-- The host keys, and the value of every thread under every key; `none` is `NULL`. -/
structure Host (T K V : Type*) where
  allocated : Set K
  specific : T → K → Option V

namespace Host

variable {T K V : Type*} [DecidableEq T] [DecidableEq K]

/-- `pthread_key_create`. -/
def keyCreate (h : Host T K V) (k : K) : Host T K V where
  allocated := insert k h.allocated
  specific t := Function.update (h.specific t) k none

/-- `pthread_setspecific` that succeeds. -/
def setspecific (h : Host T K V) (t : T) (k : K) (v : Option V) : Host T K V :=
  { h with specific := Function.update h.specific t (Function.update (h.specific t) k v) }

/-- `pthread_key_delete` that succeeds. -/
def keyDelete (h : Host T K V) (k : K) : Host T K V :=
  { h with allocated := h.allocated \ {k} }

end Host

/-- Where a thread is in its calls. -/
inductive TlsPc (K : Type*)
  /-- Outside of the calls. -/
  | idle
  /-- In `create`, before the lock region. -/
  | minted (key : K)
  /-- In `create`, after a failed lock region. -/
  | refused (key : K)
  /-- In `destroy`, after the lock region. -/
  | removed (key : K)
  deriving DecidableEq, Repr

/-- The host key that a thread holds between two steps of a call. -/
def TlsPc.key : TlsPc K → Option K
  | .idle => none
  | .minted key => some key
  | .refused key => some key
  | .removed key => some key

/-- What a step of a call did. -/
inductive TlsEvent (V : Type*)
  /-- `create` minted the id and returns `0`. -/
  | created (id : TlsId)
  /-- `create` returns an error, or is going to. -/
  | createFailed (rc : Errno)
  | got (id : TlsId) (v : Option V)
  | set (id : TlsId) (v : Option V) (rc : Status)
  /-- The lock region of `destroy` removed the id. -/
  | removed (id : TlsId)
  /-- `destroy` did not find the id. -/
  | destroyFailed (id : TlsId) (rc : Errno)
  deriving DecidableEq, Repr

/-- A step of a thread, with the registry before and after it. -/
structure TlsExec (T K V : Type*) where
  thread : T
  event : TlsEvent V
  pre : TlsRegistry K
  post : TlsRegistry K

/-- The registry, the host keys and the threads. -/
structure TlsState (T K V : Type*) where
  registry : TlsRegistry K
  host : Host T K V
  pc : T → TlsPc K

section Step

variable {T K V : Type*} [DecidableEq T] [DecidableEq K]

/-- One step of a thread: a lock region, or one call of the host outside of the lock. -/
inductive TlsStep (s : TlsState T K V) : List (TlsExec T K V) → TlsState T K V → Prop
  /-- `create` has no place for the key, or `pthread_key_create` fails. -/
  | createEarly {t : T} {rc : Errno} (hpc : s.pc t = .idle)
      (hrc : rc = .EINVAL ∨ rc = .ENOMEM ∨ rc = .EAGAIN) :
      TlsStep s [⟨t, .createFailed rc, s.registry, s.registry⟩] s
  | keyCreate {t : T} {k : K} (hpc : s.pc t = .idle) (hk : k ∉ s.host.allocated) :
      TlsStep s []
        { s with host := s.host.keyCreate k, pc := Function.update s.pc t (.minted k) }
  | create {t : T} {k : K} {alloc : Bool} {r : TlsRegistry K} (hpc : s.pc t = .minted k)
      (hr : s.registry.insert alloc k = some r) :
      TlsStep s [⟨t, .created s.registry.nextId, s.registry, r⟩]
        { s with registry := r, pc := Function.update s.pc t .idle }
  | createRefused {t : T} {k : K} {alloc : Bool} (hpc : s.pc t = .minted k)
      (hr : s.registry.insert alloc k = none) :
      TlsStep s [⟨t, .createFailed .ENOMEM, s.registry, s.registry⟩]
        { s with pc := Function.update s.pc t (.refused k) }
  | get {t : T} {id : TlsId} {i : ℕ} {slot : TlsSlot K} (hpc : s.pc t = .idle)
      (hi : s.registry.find id = some i) (hslot : s.registry.slots[i]? = some slot) :
      TlsStep s [⟨t, .got id (s.host.specific t slot.key), s.registry, s.registry⟩] s
  | getInvalid {t : T} {id : TlsId} (hpc : s.pc t = .idle) (hi : s.registry.find id = none) :
      TlsStep s [⟨t, .got id none, s.registry, s.registry⟩] s
  | set {t : T} {id : TlsId} {v : Option V} {i : ℕ} {slot : TlsSlot K} (hpc : s.pc t = .idle)
      (hi : s.registry.find id = some i) (hslot : s.registry.slots[i]? = some slot) :
      TlsStep s [⟨t, .set id v none, s.registry, s.registry⟩]
        { s with host := s.host.setspecific t slot.key v }
  /-- `pthread_setspecific` fails. -/
  | setFailed {t : T} {id : TlsId} {v : Option V} {i : ℕ} {rc : Errno} (hpc : s.pc t = .idle)
      (hi : s.registry.find id = some i) :
      TlsStep s [⟨t, .set id v (some rc), s.registry, s.registry⟩] s
  | setInvalid {t : T} {id : TlsId} {v : Option V} (hpc : s.pc t = .idle)
      (hi : s.registry.find id = none) :
      TlsStep s [⟨t, .set id v (some .EINVAL), s.registry, s.registry⟩] s
  | destroy {t : T} {id : TlsId} {i : ℕ} {slot : TlsSlot K} (hpc : s.pc t = .idle)
      (hi : s.registry.find id = some i) (hslot : s.registry.slots[i]? = some slot) :
      TlsStep s [⟨t, .removed id, s.registry, s.registry.remove i⟩]
        { s with registry := s.registry.remove i, pc := Function.update s.pc t (.removed slot.key) }
  | destroyInvalid {t : T} {id : TlsId} (hpc : s.pc t = .idle) (hi : s.registry.find id = none) :
      TlsStep s [⟨t, .destroyFailed id .EINVAL, s.registry, s.registry⟩] s
  | keyDelete {t : T} {k : K} (hpc : s.pc t = .refused k ∨ s.pc t = .removed k) :
      TlsStep s []
        { s with host := s.host.keyDelete k, pc := Function.update s.pc t .idle }
  /-- `pthread_key_delete` fails. -/
  | keyDeleteFailed {t : T} {k : K} (hpc : s.pc t = .refused k ∨ s.pc t = .removed k) :
      TlsStep s [] { s with pc := Function.update s.pc t .idle }

/-- The runs from the start of the program, with their traces, the newest step first. -/
inductive TlsRun : List (TlsExec T K V) → TlsState T K V → Prop
  | start {host : Host T K V} : TlsRun [] ⟨.empty, host, fun _ => .idle⟩
  | step {tr es : List (TlsExec T K V)} {s s' : TlsState T K V} (hr : TlsRun tr s)
      (hs : TlsStep s es s') : TlsRun (es ++ tr) s'

end Step

/-! ### What a trace did -/

section Trace

variable {T K V : Type*}

/-- The ids that a trace minted. -/
def created (tr : List (TlsExec T K V)) : List TlsId :=
  tr.filterMap fun x =>
    match x.event with
    | .created id => some id
    | _ => none

/-- The ids that a trace removed. -/
def removed (tr : List (TlsExec T K V)) : List TlsId :=
  tr.filterMap fun x =>
    match x.event with
    | .removed id => some id
    | _ => none

/-- The value that a thread last set under an id; `NULL` if there is none. -/
def lastSet [DecidableEq T] (t : T) (id : TlsId) : List (TlsExec T K V) → Option V
  | [] => none
  | x :: tr =>
    match x.event with
    | .set id' v none => if x.thread = t ∧ id' = id then v else lastSet t id tr
    | _ => lastSet t id tr

end Trace

/-! ### The lock regions -/

namespace TlsRegistry

variable {K : Type*} {r r' : TlsRegistry K} {i j : ℕ} {slot : TlsSlot K} {id : TlsId}

theorem find_eq_some (h : r.find id = some i) (hslot : r.slots[i]? = some slot) :
    r.LiveAt i slot ∧ slot.id = id := by
  obtain ⟨hi, hp, -⟩ := List.findIdx?_eq_some_iff_getElem.mp h
  have heq : r.slots[i] = slot := by
    rw [List.getElem?_eq_getElem hi] at hslot
    exact Option.some.inj hslot
  rw [heq] at hp
  simp only [Bool.and_eq_true, decide_eq_true_eq] at hp
  exact ⟨⟨hslot, hp.1⟩, hp.2⟩

theorem find_eq_none (h : r.find id = none) (hslot : r.LiveAt i slot) : slot.id ≠ id := by
  have hmem : slot ∈ r.slots := List.mem_of_getElem? hslot.1
  have hp := List.findIdx?_eq_none_iff.mp h slot hmem
  simpa [hslot.2] using hp

theorem liveAt_of_getElem {key : K} (hi : r'.slots[i]? = some (r.fresh key))
    (hne : ∀ j, j ≠ i → r'.slots[j]? = r.slots[j]?) (hnot : ∀ slot, ¬ r.LiveAt i slot) (j : ℕ)
    (slot : TlsSlot K) : r'.LiveAt j slot ↔ r.LiveAt j slot ∨ j = i ∧ slot = r.fresh key := by
  by_cases hj : j = i
  · subst hj
    rw [LiveAt, hi]
    constructor
    · exact fun hs => Or.inr ⟨rfl, (Option.some.inj hs.1).symm⟩
    · rintro (hs | ⟨-, rfl⟩)
      · exact absurd hs (hnot slot)
      · exact ⟨rfl, rfl⟩
  · simp [LiveAt, hne j hj, hj]

/-- A new key gets a slot that is not live, and no other slot changes. -/
theorem insert_spec {alloc : Bool} {key : K} (h : r.insert alloc key = some r') :
    r'.nextId = r.nextId + 1 ∧ ∃ i, (∀ slot, ¬ r.LiveAt i slot) ∧
      ∀ j slot, r'.LiveAt j slot ↔ r.LiveAt j slot ∨ j = i ∧ slot = r.fresh key := by
  unfold insert at h
  split at h
  · rename_i i hi
    obtain ⟨hlt, hdead, -⟩ := List.findIdx?_eq_some_iff_getElem.mp hi
    have hnot : ∀ slot, ¬ r.LiveAt i slot := by
      rintro slot ⟨hslot, hlive⟩
      rw [List.getElem?_eq_getElem hlt] at hslot
      simp [Option.some.inj hslot, hlive] at hdead
    obtain rfl := Option.some.inj h
    refine ⟨rfl, i, hnot, liveAt_of_getElem (List.getElem?_set_self hlt) (fun j hj => ?_) hnot⟩
    exact List.getElem?_set_ne (Ne.symm hj)
  · have hnot : ∀ slot, ¬ r.LiveAt r.slots.length slot := by
      rintro slot ⟨hslot, -⟩
      simp at hslot
    split_ifs at h
    all_goals
      obtain rfl := Option.some.inj h
      refine ⟨rfl, r.slots.length, hnot,
        liveAt_of_getElem List.getElem?_concat_length (fun j hj => ?_) hnot⟩
      rcases Nat.lt_or_gt_of_ne hj with hlt | hgt
      · exact List.getElem?_append_left hlt
      · rw [List.getElem?_eq_none hgt.le,
          List.getElem?_eq_none (by simpa using Nat.succ_le_of_lt hgt)]

/-- A removed slot is not live, and no other slot changes. -/
theorem liveAt_remove : (r.remove i).LiveAt j slot ↔ r.LiveAt j slot ∧ j ≠ i := by
  simp only [LiveAt, remove, List.getElem?_modify]
  by_cases hj : i = j
  · subst hj
    cases hs : r.slots[i]? with
    | none => simp
    | some s =>
      simp only [if_true, Option.map_eq_map, Option.map_some, Option.some.injEq, ne_eq, not_true,
        and_false, iff_false]
      rintro ⟨rfl, hlive⟩
      simp at hlive
  · simp [hj, Ne.symm hj]

end TlsRegistry

/-! ### Owners of host keys -/

section Owned

variable {H K : Type*} {holds holds' : H → K → Prop} {allocated allocated' : Set K} {h₀ h₁ : H}
  {k₀ : K}

/-- Every held key is allocated, and has one holder. -/
structure Owned (holds : H → K → Prop) (allocated : Set K) : Prop where
  exclusive : ∀ {h h' k}, holds h k → holds h' k → h = h'
  allocated : ∀ {h k}, holds h k → k ∈ allocated

theorem Owned.take (h : Owned holds allocated) (h₀ : H) (hk : k₀ ∉ allocated)
    (hholds : ∀ g k, holds' g k → holds g k ∨ g = h₀ ∧ k = k₀) :
    Owned holds' (insert k₀ allocated) where
  exclusive {g g' k} hg hg' := by
    rcases hholds g k hg with hg | ⟨rfl, rfl⟩ <;> rcases hholds g' k hg' with hg' | ⟨rfl, hk'⟩
    · exact h.exclusive hg hg'
    · exact absurd (h.allocated hg) (hk' ▸ hk)
    · exact absurd (h.allocated hg') hk
    · rfl
  allocated {g k} hg := by
    rcases hholds g k hg with hg | ⟨-, rfl⟩
    · exact Set.mem_insert_of_mem _ (h.allocated hg)
    · exact Set.mem_insert _ _

theorem Owned.move (h : Owned holds allocated) (h₁ : H) (h₀k : holds h₀ k₀)
    (hholds : ∀ g k, holds' g k → holds g k ∧ g ≠ h₀ ∨ g = h₁ ∧ k = k₀) :
    Owned holds' allocated where
  exclusive {g g' k} hg hg' := by
    rcases hholds g k hg with ⟨hg, hne⟩ | ⟨rfl, rfl⟩ <;>
      rcases hholds g' k hg' with ⟨hg', hne'⟩ | ⟨rfl, hk'⟩
    · exact h.exclusive hg hg'
    · exact absurd (h.exclusive hg (hk' ▸ h₀k)) hne
    · exact absurd (h.exclusive hg' h₀k) hne'
    · rfl
  allocated {g k} hg := by
    rcases hholds g k hg with ⟨hg, -⟩ | ⟨-, rfl⟩
    · exact h.allocated hg
    · exact h.allocated h₀k

theorem Owned.drop (h : Owned holds allocated) (h₀k : holds h₀ k₀)
    (hholds : ∀ g k, holds' g k → holds g k ∧ g ≠ h₀) : Owned holds' (allocated \ {k₀}) where
  exclusive hg hg' := h.exclusive (hholds _ _ hg).1 (hholds _ _ hg').1
  allocated {g k} hg := by
    obtain ⟨hg, hne⟩ := hholds g k hg
    refine ⟨h.allocated hg, ?_⟩
    rintro rfl
    exact hne (h.exclusive hg h₀k)

theorem Owned.mono (h : Owned holds allocated) (hholds : ∀ g k, holds' g k → holds g k) :
    Owned holds' allocated where
  exclusive hg hg' := h.exclusive (hholds _ _ hg) (hholds _ _ hg')
  allocated hg := h.allocated (hholds _ _ hg)

end Owned

/-! ### The invariant -/

section Invariant

variable {T K V : Type*} {s s' : TlsState T K V} {tr es : List (TlsExec T K V)}

/-- The holders of the host keys: the live slots, and the threads between two steps of a call. -/
def TlsState.Holds (s : TlsState T K V) : ℕ ⊕ T → K → Prop
  | .inl i, k => ∃ slot, s.registry.LiveAt i slot ∧ slot.key = k
  | .inr t, k => (s.pc t).key = some k

/-- The ids against the trace. -/
structure IdLaw (tr : List (TlsExec T K V)) (r : TlsRegistry K) : Prop where
  next : r.nextId = BitVec.ofNat 64 ((created tr).length + 1)
  bound : ∀ id ∈ created tr, id.toNat ≤ (created tr).length
  nodup : (created tr).Nodup
  minted : ∀ id ∈ removed tr, id ∈ created tr
  live : ∀ {i slot}, r.LiveAt i slot → slot.id ∈ created tr ∧ slot.id ∉ removed tr
  unique : ∀ {i j slot slot'}, r.LiveAt i slot → r.LiveAt j slot' → slot.id = slot'.id → i = j
  found : ∀ {id}, id ∈ created tr → id ∉ removed tr → ∃ i slot, r.LiveAt i slot ∧ slot.id = id

/-- The values of the threads against the trace. -/
structure ValueLaw [DecidableEq T] (tr : List (TlsExec T K V)) (s : TlsState T K V) : Prop where
  live : ∀ {i slot}, s.registry.LiveAt i slot →
    ∀ t, s.host.specific t slot.key = lastSet t slot.id tr
  minted : ∀ {t k}, s.pc t = .minted k → ∀ t', s.host.specific t' k = none
  unset : ∀ {t id}, id ∉ created tr → lastSet t id tr = none

/-- What a step did, against the trace before it. -/
def Lawful [DecidableEq T] (x : TlsExec T K V) (tr : List (TlsExec T K V)) : Prop :=
  match x.event with
  | .created id => id ∉ created tr
  | .createFailed _ => x.post = x.pre
  | .got id v => v = if id ∈ removed tr then none else lastSet x.thread id tr
  | .set id _ rc => id ∈ created tr ∧ id ∉ removed tr ∨ rc = some .EINVAL
  | .removed id => id ∈ created tr ∧ id ∉ removed tr
  | .destroyFailed id rc => ¬ (id ∈ created tr ∧ id ∉ removed tr) ∧ rc = .EINVAL

/-- The trace is lawful at every step. -/
def LawfulTrace [DecidableEq T] : List (TlsExec T K V) → Prop
  | [] => True
  | x :: tr => Lawful x tr ∧ LawfulTrace tr

/-! ### The ids -/

/-- A new id. -/
theorem IdLaw.create {x : TlsExec T K V} {r r' : TlsRegistry K} {k : K} {alloc : Bool}
    (h : IdLaw tr r) (hx : x.event = .created r.nextId) (hr : r.insert alloc k = some r')
    (hcount : (created (x :: tr)).length < 2 ^ 64) :
    r.nextId ∉ created tr ∧ r.nextId ∉ removed tr ∧ IdLaw (x :: tr) r' := by
  obtain ⟨hnext, i, hnot, hlive⟩ := TlsRegistry.insert_spec hr
  have hcreated : created (x :: tr) = r.nextId :: created tr := by simp [created, hx]
  have hremoved : removed (x :: tr) = removed tr := by simp [removed, hx]
  rw [hcreated, List.length_cons] at hcount
  have hid : r.nextId.toNat = (created tr).length + 1 := by
    rw [h.next, BitVec.toNat_ofNat, Nat.mod_eq_of_lt hcount]
  have hnew : r.nextId ∉ created tr := by
    intro hmem
    have := h.bound _ hmem
    omega
  refine ⟨hnew, fun hmem => hnew (h.minted _ hmem), ?_, fun id hmem => ?_, ?_, fun id hmem => ?_,
    fun {j slot} hslot => ?_, fun {j j' slot slot'} hslot hslot' heq => ?_,
    fun {id} hmem hnot' => ?_⟩
  · rw [hnext, hcreated, h.next, List.length_cons]
    exact BitVec.ofNat_add_ofNat _ 1
  · rw [hcreated] at hmem ⊢
    rcases List.mem_cons.mp hmem with rfl | hmem
    · exact hid.le
    · exact (h.bound id hmem).trans (Nat.le_succ _)
  · rw [hcreated]
    exact List.nodup_cons.mpr ⟨hnew, h.nodup⟩
  · rw [hcreated]
    exact List.mem_cons_of_mem _ (h.minted id (hremoved ▸ hmem))
  · rw [hcreated, hremoved]
    rcases (hlive j slot).mp hslot with hslot | ⟨-, rfl⟩
    · exact ⟨List.mem_cons_of_mem _ (h.live hslot).1, (h.live hslot).2⟩
    · exact ⟨List.mem_cons_self, fun hmem => hnew (h.minted _ hmem)⟩
  · rcases (hlive j slot).mp hslot with hslot | ⟨rfl, rfl⟩ <;>
      rcases (hlive j' slot').mp hslot' with hslot' | ⟨rfl, rfl⟩
    · exact h.unique hslot hslot' heq
    · have heq' : slot.id = r.nextId := heq
      exact absurd (heq' ▸ (h.live hslot).1) hnew
    · have heq' : r.nextId = slot'.id := heq
      exact absurd (heq' ▸ (h.live hslot').1) hnew
    · rfl
  · rw [hcreated] at hmem
    rw [hremoved] at hnot'
    rcases List.mem_cons.mp hmem with rfl | hmem
    · exact ⟨i, r.fresh k, (hlive _ _).mpr (Or.inr ⟨rfl, rfl⟩), rfl⟩
    · obtain ⟨j, slot, hslot, hj⟩ := h.found hmem hnot'
      exact ⟨j, slot, (hlive _ _).mpr (Or.inl hslot), hj⟩

/-- A removed id. -/
theorem IdLaw.destroy {x : TlsExec T K V} {r : TlsRegistry K} {i : ℕ} {slot : TlsSlot K}
    (h : IdLaw tr r) (hx : x.event = .removed slot.id) (hslot : r.LiveAt i slot) :
    IdLaw (x :: tr) (r.remove i) := by
  have hcreated : created (x :: tr) = created tr := by simp [created, hx]
  have hremoved : removed (x :: tr) = slot.id :: removed tr := by simp [removed, hx]
  refine ⟨by rw [hcreated]; exact h.next, by rw [hcreated]; exact h.bound,
    by rw [hcreated]; exact h.nodup, fun id hmem => ?_, fun {j slot'} hj => ?_,
    fun {j j' slot₁ slot₂} hj hj' heq => ?_, fun {id} hmem hnot => ?_⟩
  · rw [hcreated]
    rw [hremoved] at hmem
    rcases List.mem_cons.mp hmem with rfl | hmem
    · exact (h.live hslot).1
    · exact h.minted id hmem
  · obtain ⟨hj, hne⟩ := TlsRegistry.liveAt_remove.mp hj
    rw [hcreated, hremoved]
    refine ⟨(h.live hj).1, fun hmem => ?_⟩
    rcases List.mem_cons.mp hmem with heq | hmem
    · exact hne (h.unique hj hslot heq)
    · exact (h.live hj).2 hmem
  · exact h.unique (TlsRegistry.liveAt_remove.mp hj).1 (TlsRegistry.liveAt_remove.mp hj').1 heq
  · rw [hcreated] at hmem
    rw [hremoved, List.mem_cons, not_or] at hnot
    obtain ⟨j, slot', hj, rfl⟩ := h.found hmem hnot.2
    refine ⟨j, slot', TlsRegistry.liveAt_remove.mpr ⟨hj, ?_⟩, rfl⟩
    rintro rfl
    exact hnot.1 (congrArg TlsSlot.id (Option.some.inj (hj.1.symm.trans hslot.1)))

/-- A step that neither mints nor removes an id. -/
theorem IdLaw.of_eq {r : TlsRegistry K} (h : IdLaw tr r) (es : List (TlsExec T K V))
    (hc : created (es ++ tr) = created tr)
    (hm : removed (es ++ tr) = removed tr) : IdLaw (es ++ tr) r where
  next := hc ▸ h.next
  bound := hc ▸ h.bound
  nodup := hc ▸ h.nodup
  minted := hc ▸ hm ▸ h.minted
  live := hc ▸ hm ▸ h.live
  unique := h.unique
  found := hc ▸ hm ▸ h.found

/-! ### The values -/

variable [DecidableEq T] {t : T} {i : ℕ} {slot : TlsSlot K}

theorem ValueLaw.of_eq (h : ValueLaw tr s) (es : List (TlsExec T K V))
    (hset : ∀ t id, lastSet t id (es ++ tr) = lastSet t id tr)
    (hc : created (es ++ tr) = created tr) (hhost : s'.host.specific = s.host.specific)
    (hreg : ∀ {i slot}, s'.registry.LiveAt i slot → s.registry.LiveAt i slot)
    (hpc : ∀ {t k}, s'.pc t = .minted k → s.pc t = .minted k) : ValueLaw (es ++ tr) s' where
  live hslot t := by rw [hhost, hset, h.live (hreg hslot) t]
  minted hm t' := by rw [hhost, h.minted (hpc hm) t']
  unset hid := by rw [hset, h.unset (hc ▸ hid)]

variable [DecidableEq K]

theorem ValueLaw.keyCreate {k : K} (h : ValueLaw tr s) (hO : Owned s.Holds s.host.allocated)
    (hk : k ∉ s.host.allocated) :
    ValueLaw tr
      { s with host := s.host.keyCreate k, pc := Function.update s.pc t (.minted k) } where
  live {i slot} hslot t' := by
    have hne : slot.key ≠ k := by
      rintro rfl
      exact hk (hO.allocated (h := .inl i) ⟨slot, hslot, rfl⟩)
    simpa [Host.keyCreate, Function.update_of_ne hne] using h.live hslot t'
  minted {t₁ k₁} hm t' := by
    by_cases hk₁ : k₁ = k
    · simp [Host.keyCreate, hk₁]
    · have ht₁ : t₁ ≠ t := by
        rintro rfl
        simp only [Function.update_self, TlsPc.minted.injEq] at hm
        exact hk₁ hm.symm
      have hm' : s.pc t₁ = .minted k₁ := by simpa [Function.update_of_ne ht₁] using hm
      simpa [Host.keyCreate, Function.update_of_ne hk₁] using h.minted hm' t'
  unset := h.unset

omit [DecidableEq K] in
theorem ValueLaw.create {x : TlsExec T K V} {k : K} {alloc : Bool} {r' : TlsRegistry K}
    (h : ValueLaw tr s) (hx : x.event = .created s.registry.nextId) (hpc : s.pc t = .minted k)
    (hr : s.registry.insert alloc k = some r') (hnew : s.registry.nextId ∉ created tr) :
    ValueLaw (x :: tr) { s with registry := r', pc := Function.update s.pc t .idle } := by
  obtain ⟨-, i, -, hlive⟩ := TlsRegistry.insert_spec hr
  have hset : ∀ t id, lastSet t id (x :: tr) = lastSet t id tr := fun t id => by simp [lastSet, hx]
  refine ⟨fun {j slot} hslot t' => ?_, fun {t₁ k₁} hm t' => ?_, fun {t' id} hid => ?_⟩
  · rw [hset]
    rcases (hlive j slot).mp hslot with hslot | ⟨-, rfl⟩
    · exact h.live hslot t'
    · exact (h.minted hpc t').trans (h.unset hnew).symm
  · have ht₁ : t₁ ≠ t := by
      rintro rfl
      simp at hm
    exact h.minted (by simpa [Function.update_of_ne ht₁] using hm) t'
  · rw [hset]
    refine h.unset fun hmem => hid ?_
    simp [created, hx, show id ∈ List.filterMap _ tr from hmem]

theorem ValueLaw.set {x : TlsExec T K V} {v : Option V} (h : ValueLaw tr s)
    (hI : IdLaw tr s.registry) (hO : Owned s.Holds s.host.allocated)
    (hx : x.event = .set slot.id v none) (ht : x.thread = t) (hslot : s.registry.LiveAt i slot) :
    ValueLaw (x :: tr) { s with host := s.host.setspecific t slot.key v } := by
  have hset : ∀ t' id, lastSet t' id (x :: tr) =
      if t = t' ∧ slot.id = id then v else lastSet t' id tr := by
    intro t' id
    simp [lastSet, hx, ht]
  have hspecific : ∀ t' k, (s.host.setspecific t slot.key v).specific t' k =
      if t = t' ∧ slot.key = k then v else s.host.specific t' k := by
    intro t' k
    by_cases ht' : t = t'
    · subst ht'
      by_cases hk : slot.key = k
      · subst hk
        simp [Host.setspecific]
      · simp [Host.setspecific, hk, Function.update_of_ne (Ne.symm hk)]
    · simp [Host.setspecific, ht', Function.update_of_ne (Ne.symm ht')]
  refine ⟨fun {j slot'} hj t' => ?_, fun {t₁ k₁} hm t' => ?_, fun {t' id} hid => ?_⟩
  · rw [hset, hspecific, h.live hj t']
    -- the same slot is the only one with this id, and the only one with this key
    have hiff : slot.key = slot'.key ↔ slot.id = slot'.id := by
      have hsame : i = j → slot = slot' := by
        rintro rfl
        exact Option.some.inj (hslot.1.symm.trans hj.1)
      constructor
      · intro hk
        have hij : Sum.inl i = (Sum.inl j : ℕ ⊕ T) :=
          hO.exclusive (k := slot.key) ⟨slot, hslot, rfl⟩ ⟨slot', hj, hk.symm⟩
        rw [hsame (Sum.inl.inj hij)]
      · intro hid
        rw [hsame (hI.unique hslot hj hid)]
    simp only [hiff]
  · have hne : slot.key ≠ k₁ := by
      rintro rfl
      have hij : Sum.inl i = (Sum.inr t₁ : ℕ ⊕ T) :=
        hO.exclusive (k := slot.key) ⟨slot, hslot, rfl⟩ (congrArg TlsPc.key hm)
      simp at hij
    rw [hspecific, if_neg fun hk => hne hk.2]
    exact h.minted hm t'
  · have hid' : id ∉ created tr := by simpa [created, hx] using hid
    have hne : slot.id ≠ id := by
      rintro rfl
      exact hid' (hI.live hslot).1
    rw [hset, if_neg fun hk => hne hk.2]
    exact h.unset hid'

/-! ### Every run -/

/-- The invariant. -/
structure TlsInv (tr : List (TlsExec T K V)) (s : TlsState T K V) : Prop where
  owned : Owned s.Holds s.host.allocated
  ids : IdLaw tr s.registry
  values : ValueLaw tr s
  lawful : LawfulTrace tr

/-- The event neither mints nor removes an id, nor sets a value. -/
def TlsEvent.Quiet : TlsEvent V → Prop
  | .created _ => False
  | .removed _ => False
  | .set _ _ none => False
  | _ => True

omit [DecidableEq K] in
theorem trace_of_quiet {x : TlsExec T K V} (h : x.event.Quiet) (tr : List (TlsExec T K V)) :
    created (x :: tr) = created tr ∧ removed (x :: tr) = removed tr ∧
      ∀ t id, lastSet t id (x :: tr) = lastSet t id tr := by
  cases hx : x.event with
  | created id => simp [hx, TlsEvent.Quiet] at h
  | removed id => simp [hx, TlsEvent.Quiet] at h
  | set id v rc =>
    cases rc with
    | none => simp [hx, TlsEvent.Quiet] at h
    | some rc => simp [created, removed, lastSet, hx]
  | _ => simp [created, removed, lastSet, hx]

omit [DecidableEq K] in
/-- A step that leaves the registry and the values. -/
theorem TlsInv.of_quiet {x : TlsExec T K V} {pc : T → TlsPc K} (h : TlsInv tr s)
    (hx : x.event.Quiet) (hlaw : Lawful x tr) (hpc : ∀ t, (pc t).key = (s.pc t).key)
    (hm : ∀ {t k}, pc t = .minted k → s.pc t = .minted k) :
    TlsInv (x :: tr) { s with pc := pc } where
  owned := h.owned.mono fun g k hg => by
    cases g with
    | inl i => exact hg
    | inr t => exact (hpc t).symm.trans hg
  ids := h.ids.of_eq [x] (trace_of_quiet hx tr).1 (trace_of_quiet hx tr).2.1
  values := h.values.of_eq [x] (trace_of_quiet hx tr).2.2 (trace_of_quiet hx tr).1 rfl id hm
  lawful := ⟨hlaw, h.lawful⟩

omit [DecidableEq K] in
/-- The host key of a thread, after a thread went to another place. -/
theorem holds_of_update {registry : TlsRegistry K} {host : Host T K V} {p : TlsPc K} {t' : T}
    {k : K} (hg : TlsState.Holds ⟨registry, host, Function.update s.pc t p⟩ (.inr t') k) :
    t' = t ∧ p.key = some k ∨ t' ≠ t ∧ s.Holds (.inr t') k := by
  by_cases ht : t' = t
  · subst ht
    exact Or.inl ⟨rfl, by simpa [TlsState.Holds] using hg⟩
  · exact Or.inr ⟨ht, by simpa [TlsState.Holds, Function.update_of_ne ht] using hg⟩

omit [DecidableEq K] in
/-- A thread that left its call holds no host key. -/
theorem holds_of_idle {host : Host T K V} {g : ℕ ⊕ T} {k : K}
    (hg : TlsState.Holds { s with host := host, pc := Function.update s.pc t .idle } g k) :
    s.Holds g k ∧ g ≠ .inr t := by
  cases g with
  | inl i => exact ⟨hg, by simp⟩
  | inr t' =>
    rcases holds_of_update hg with ⟨-, hk⟩ | ⟨ht, hg⟩
    · cases hk
    · exact ⟨hg, by simpa using ht⟩

omit [DecidableEq K] in
theorem minted_of_update {p : TlsPc K} {t' : T} {k : K} (hp : p ≠ .minted k)
    (hm : Function.update s.pc t p t' = .minted k) : s.pc t' = .minted k := by
  by_cases ht : t' = t
  · subst ht
    exact absurd (by simpa using hm) hp
  · simpa [Function.update_of_ne ht] using hm

theorem TlsInv.step (h : TlsInv tr s) (hs : TlsStep s es s')
    (hcount : (created (es ++ tr)).length < 2 ^ 64) : TlsInv (es ++ tr) s' := by
  have hdead : ∀ {id}, s.registry.find id = none → ¬ (id ∈ created tr ∧ id ∉ removed tr) := by
    rintro id hi ⟨hc, hm⟩
    obtain ⟨i, slot, hl, hid⟩ := h.ids.found hc hm
    exact TlsRegistry.find_eq_none hi hl hid
  cases hs with
  | createEarly hpc hrc => exact h.of_quiet trivial rfl (fun _ => rfl) id
  | @keyCreate t k hpc hk =>
    refine ⟨h.owned.take (.inr t) hk fun g k' hg => ?_, h.ids, h.values.keyCreate h.owned hk,
      h.lawful⟩
    cases g with
    | inl i => exact Or.inl hg
    | inr t' =>
      rcases holds_of_update hg with ⟨rfl, hk'⟩ | ⟨-, hg⟩
      · exact Or.inr ⟨rfl, (Option.some.inj hk').symm⟩
      · exact Or.inl hg
  | @create t k alloc r hpc hr =>
    obtain ⟨hnew, -, hids⟩ := h.ids.create rfl hr hcount
    obtain ⟨-, i, -, hl⟩ := TlsRegistry.insert_spec hr
    have ht₀ : s.Holds (.inr t) k := congrArg TlsPc.key hpc
    refine ⟨h.owned.move (.inl i) ht₀ fun g k' hg => ?_, hids, h.values.create rfl hpc hr hnew,
      hnew, h.lawful⟩
    cases g with
    | inl j =>
      obtain ⟨slot, hslot, rfl⟩ := hg
      rcases (hl j slot).mp hslot with hslot | ⟨rfl, rfl⟩
      · exact Or.inl ⟨⟨slot, hslot, rfl⟩, by simp⟩
      · exact Or.inr ⟨rfl, rfl⟩
    | inr t' =>
      rcases holds_of_update hg with ⟨-, hk'⟩ | ⟨ht, hg⟩
      · cases hk'
      · exact Or.inl ⟨hg, by simpa using ht⟩
  | @createRefused t k alloc hpc hr =>
    refine h.of_quiet trivial rfl (fun t' => ?_) (minted_of_update (by simp))
    by_cases ht : t' = t
    · subst ht
      simp [hpc, TlsPc.key]
    · simp [Function.update_of_ne ht]
  | @get t key i slot hpc hi hslot =>
    obtain ⟨hl, rfl⟩ := TlsRegistry.find_eq_some hi hslot
    refine h.of_quiet trivial ?_ (fun _ => rfl) id
    simp only [Lawful]
    rw [if_neg (h.ids.live hl).2, h.values.live hl]
  | @getInvalid t key hpc hi =>
    refine h.of_quiet trivial ?_ (fun _ => rfl) id
    simp only [Lawful]
    split_ifs with hm
    · rfl
    · exact (h.values.unset fun hc => hdead hi ⟨hc, hm⟩).symm
  | @set t key v i slot hpc hi hslot =>
    obtain ⟨hl, rfl⟩ := TlsRegistry.find_eq_some hi hslot
    refine ⟨h.owned.mono ?_, h.ids.of_eq [_] (by simp [created]) (by simp [removed]),
      h.values.set h.ids h.owned rfl rfl hl, Or.inl (h.ids.live hl), h.lawful⟩
    rintro (j | t') k hg
    · exact hg
    · exact hg
  | @setFailed t key v i rc hpc hi =>
    obtain ⟨hlt, -, -⟩ := List.findIdx?_eq_some_iff_getElem.mp hi
    obtain ⟨hl, rfl⟩ := TlsRegistry.find_eq_some hi (List.getElem?_eq_getElem hlt)
    exact h.of_quiet trivial (Or.inl (h.ids.live hl)) (fun _ => rfl) id
  | setInvalid hpc hi => exact h.of_quiet trivial (Or.inr rfl) (fun _ => rfl) id
  | @destroy t key i slot hpc hi hslot =>
    obtain ⟨hl, rfl⟩ := TlsRegistry.find_eq_some hi hslot
    have hi₀ : s.Holds (.inl i) slot.key := ⟨slot, hl, rfl⟩
    refine ⟨h.owned.move (.inr t) hi₀ fun g k hg => ?_, h.ids.destroy rfl hl,
      h.values.of_eq [_] (fun _ _ => by simp [lastSet]) (by simp [created]) rfl
        (fun hj => (TlsRegistry.liveAt_remove.mp hj).1) (minted_of_update (by simp)),
      h.ids.live hl, h.lawful⟩
    cases g with
    | inl j =>
      obtain ⟨slot', hj, rfl⟩ := hg
      obtain ⟨hj, hne⟩ := TlsRegistry.liveAt_remove.mp hj
      exact Or.inl ⟨⟨slot', hj, rfl⟩, by simpa using hne⟩
    | inr t' =>
      rcases holds_of_update hg with ⟨rfl, hk⟩ | ⟨-, hg⟩
      · exact Or.inr ⟨rfl, (Option.some.inj hk).symm⟩
      · exact Or.inl ⟨hg, by simp⟩
  | destroyInvalid hpc hi => exact h.of_quiet trivial ⟨hdead hi, rfl⟩ (fun _ => rfl) id
  | @keyDelete t k hpc =>
    have ht₀ : s.Holds (.inr t) k := hpc.elim (congrArg TlsPc.key) (congrArg TlsPc.key)
    exact ⟨h.owned.drop ht₀ fun g k' hg => holds_of_idle hg, h.ids,
      h.values.of_eq [] (fun _ _ => rfl) rfl rfl id (minted_of_update (by simp)), h.lawful⟩
  | @keyDeleteFailed t k hpc =>
    exact ⟨h.owned.mono fun g k' hg => (holds_of_idle hg).1, h.ids,
      h.values.of_eq [] (fun _ _ => rfl) rfl rfl id (minted_of_update (by simp)), h.lawful⟩

/-- The invariant holds along every run with fewer than `2 ^ 64` creations. -/
theorem TlsRun.inv (hr : TlsRun tr s) (hcount : (created tr).length < 2 ^ 64) : TlsInv tr s := by
  induction hr with
  | start =>
    have hnone : ∀ {i slot}, ¬ (TlsRegistry.empty (K := K)).LiveAt i slot := by
      rintro i slot ⟨hslot, -⟩
      simp [TlsRegistry.empty] at hslot
    have hholds : ∀ {g k} {host : Host T K V},
        ¬ TlsState.Holds ⟨.empty, host, fun _ => .idle⟩ g k := by
      rintro (i | t) k host hg
      · obtain ⟨slot, hslot, -⟩ := hg
        exact hnone hslot
      · simp [TlsState.Holds, TlsPc.key] at hg
    refine ⟨⟨fun hg => absurd hg hholds, fun hg => absurd hg hholds⟩, ⟨rfl, ?_, List.nodup_nil, ?_,
      fun hl => absurd hl hnone, fun hl => absurd hl hnone, ?_⟩,
      ⟨fun hl => absurd hl hnone, ?_, fun _ => rfl⟩, trivial⟩ <;> simp [created, removed]
  | @step tr es s s' hr hs ih =>
    refine (ih (lt_of_le_of_lt ?_ hcount)).step hs hcount
    simp only [created, List.filterMap_append, List.length_append]
    omega

omit [DecidableEq K] in
theorem LawfulTrace.of_append {x : TlsExec T K V} {post pre : List (TlsExec T K V)}
    (h : LawfulTrace (post ++ x :: pre)) : Lawful x pre := by
  induction post with
  | nil => exact h.1
  | cons y post ih => exact ih h.2

/-- The laws of the registry, in every run with fewer than `2 ^ 64` creations. No id is minted
twice; an id that is minted and not removed has one live slot; a live slot has such an id, and an
allocated host key that no other live slot has; and every step is lawful. -/
theorem tls_registry (hr : TlsRun tr s) (hcount : (created tr).length < 2 ^ 64) :
    (created tr).Nodup ∧
      (∀ id ∈ created tr, id ∉ removed tr → ∃! i, ∃ slot, s.registry.LiveAt i slot ∧ slot.id = id) ∧
      (∀ i slot, s.registry.LiveAt i slot →
        slot.id ∈ created tr ∧ slot.id ∉ removed tr ∧ slot.key ∈ s.host.allocated) ∧
      (∀ i j slot slot', s.registry.LiveAt i slot → s.registry.LiveAt j slot' →
        slot.key = slot'.key → i = j) ∧
      ∀ post x pre, tr = post ++ x :: pre → Lawful x pre := by
  have h := hr.inv hcount
  refine ⟨h.ids.nodup, fun id hc hm => ?_,
    fun i slot hl => ⟨(h.ids.live hl).1, (h.ids.live hl).2, ?_⟩,
    fun i j slot slot' hl hl' hk => ?_, fun post x pre htr => (htr ▸ h.lawful).of_append⟩
  · obtain ⟨i, slot, hl, hid⟩ := h.ids.found hc hm
    refine ⟨i, ⟨slot, hl, hid⟩, ?_⟩
    rintro j ⟨slot', hl', hid'⟩
    exact h.ids.unique hl' hl (hid'.trans hid.symm)
  · exact h.owned.allocated (h := .inl i) ⟨slot, hl, rfl⟩
  · have hij : Sum.inl i = (Sum.inl j : ℕ ⊕ T) :=
      h.owned.exclusive (k := slot.key) ⟨slot, hl, rfl⟩ ⟨slot', hl', hk.symm⟩
    exact Sum.inl.inj hij

end Invariant

/-! ### A slot and a host key used twice -/

/-- The ids `1` and `2`, one after the other, in one slot with one host key. -/
theorem run_reuse : ∃ (tr : List (TlsExec Bool ℕ ℕ)) (s : TlsState Bool ℕ ℕ), TlsRun tr s ∧
    created tr = [2, 1] ∧ removed tr = [1] ∧ s.registry.LiveAt 0 ⟨2, 7, true⟩ ∧
      ∃ post pre r, tr = post ++ ⟨false, .got 2 none, r, r⟩ :: pre ∧
        lastSet false 1 pre = some 5 := by
  have h := @TlsRun.start Bool ℕ ℕ _ _ ⟨∅, fun _ _ => none⟩
  have h := h.step (.keyCreate (t := false) (k := 7) rfl (Set.notMem_empty 7))
  have h := h.step (.create (t := false) rfl (rfl : TlsRegistry.insert true _ _ = _))
  have h := h.step (.set (t := false) (v := some 5) rfl (rfl : TlsRegistry.find _ 1 = some 0) rfl)
  have h := h.step (.destroy (t := true) rfl (rfl : TlsRegistry.find _ 1 = some 0) rfl)
  have h := h.step (.keyDelete (t := true) (k := 7) (Or.inr rfl))
  have h := h.step (.keyCreate (t := true) (k := 7) rfl (by simp [Host.keyDelete]))
  have h := h.step (.create (t := true) rfl (rfl : TlsRegistry.insert true _ _ = _))
  have h := h.step (.get (t := false) rfl (rfl : TlsRegistry.find _ 2 = some 0) rfl)
  exact ⟨_, _, h, by decide, by decide, ⟨by decide, by decide⟩, [], _, _, rfl, by decide⟩

/-- The thread that set a value under the first id reads `NULL` under the second one. -/
theorem tls_registry_reuse : ∃ (tr : List (TlsExec Bool ℕ ℕ)) (s : TlsState Bool ℕ ℕ), TlsRun tr s ∧
    created tr = [2, 1] ∧ (created tr).Nodup ∧
      (∃! i, ∃ slot, s.registry.LiveAt i slot ∧ slot.id = 2) ∧
      ∃ post pre r, tr = post ++ ⟨false, .got 2 none, r, r⟩ :: pre ∧
        Lawful ⟨false, .got 2 none, r, r⟩ pre := by
  obtain ⟨tr, s, h, hc, hm, hl, post, pre, r, htr, -⟩ := run_reuse
  obtain ⟨hnodup, hunique, -, -, hlaw⟩ := tls_registry h (by simp [hc])
  exact ⟨tr, s, h, hc, hnodup, hunique 2 (by simp [hc]) (by simp [hm]), post, pre, r, htr,
    hlaw _ _ _ htr⟩

end MojitoSys.Thread
