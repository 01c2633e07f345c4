import MojitoSys.Memory.StackAlloc
import Mathlib.Data.List.Perm.Basic
import Mathlib.Data.List.Perm.Lattice
import Mathlib.Data.List.Pairwise
import Mathlib.Order.Interval.Finset.Nat

/-!
# The registry of the stack allocator

The registry of `mjs_stack.c` maps the base of every live reservation to its mapped size. A free
slot has the base `NULL` and is used again, and a base may come back from the operating system
after its reservation was unmapped. Every call may fail at each of its system calls.

An `mjs_stack_alloc` that fails after its `mmap` unmaps the reservation and does not look at the
result. A `munmap` that fails there leaves a mapping that no slot records; a run collects these
mappings (`leaks`), and every other live mapping of the allocator has one slot.

## Main definitions

* `Reservation.Apart`: two mappings do not overlap.
* `World.entries`: the slots that are in use.
* `Fresh`: what the operating system promises of an `mmap`.
* `StackRun`: the runs of the two calls, with the mappings that an unwinding failed to unmap.
* `RegistryInv`: the invariant of the registry.

## Main results

* `mjsStackAlloc_cases`: the three ways in which an `mjs_stack_alloc` ends.
* `RegistryInv.alloc`, `RegistryInv.free`: the calls keep the invariant.
* `stack_registry`: the registry after every run, and what the calls then do.
-/

namespace MojitoSys.Memory

open Util

/-- The mapping lies in the address space, not at `NULL`. -/
structure Reservation.Sound (r : Reservation) : Prop where
  base : r.base ≠ 0
  total : 0 < r.total.toNat
  fits : r.base.toNat + r.total.toNat ≤ 2 ^ 64

/-- The two ranges have no address in common. -/
def Reservation.Apart (r s : Reservation) : Prop :=
  r.base.toNat + r.total.toNat ≤ s.base.toNat ∨ s.base.toNat + s.total.toNat ≤ r.base.toNat

instance : Std.Symm Reservation.Apart := ⟨fun _ _ => Or.symm⟩

/-- A mapping is not apart from one with the same base. -/
theorem Reservation.Sound.not_apart {r s : Reservation} (hr : r.Sound) (hs : s.Sound)
    (h : r.base = s.base) : ¬ r.Apart s := by
  have hr' := hr.total
  have hs' := hs.total
  rw [Apart, h]
  omega

/-- The slots in use. -/
def entriesOf (resv : List Reservation) : List Reservation := resv.filter (·.base ≠ 0)

/-- The registry entries whose base is not `NULL`. -/
def World.entries (w : World) : List Reservation := entriesOf w.resv

theorem entriesOf_cons (a : Reservation) (l : List Reservation) :
    entriesOf (a :: l) = entriesOf [a] ++ entriesOf l := by
  rw [← List.singleton_append, entriesOf, List.filter_append]
  rfl

theorem entriesOf_append (l l' : List Reservation) :
    entriesOf (l ++ l') = entriesOf l ++ entriesOf l' := List.filter_append ..

theorem entriesOf_singleton {a : Reservation} (h : a.base ≠ 0) : entriesOf [a] = [a] :=
  List.filter_eq_self.mpr fun _ hb => decide_eq_true (List.mem_singleton.mp hb ▸ h)

theorem mem_entriesOf {a : Reservation} {l : List Reservation} :
    a ∈ entriesOf l ↔ a ∈ l ∧ a.base ≠ 0 := by
  simp [entriesOf]

/-- Writing a slot exchanges its entry. -/
theorem entriesOf_set {l : List Reservation} {i : ℕ} {a : Reservation} (b : Reservation)
    (h : l[i]? = some a) :
    (entriesOf (l.set i b) ++ entriesOf [a]).Perm (entriesOf l ++ entriesOf [b]) := by
  induction l generalizing i with
  | nil => cases h
  | cons c l ih =>
    cases i with
    | zero =>
      obtain rfl : c = a := Option.some.inj h
      rw [List.set_cons_zero, entriesOf_cons b, entriesOf_cons c l,
        List.append_assoc (entriesOf [c])]
      exact List.perm_append_comm.trans (List.perm_append_comm.append_left _)
    | succ i =>
      rw [List.set_cons_succ, entriesOf_cons c, entriesOf_cons c l, List.append_assoc,
        List.append_assoc]
      exact (ih h).append_left _

/-! ### What the calls do -/

/-- The world after the `mmap` and the commitment of a reservation. -/
def World.reserve (w : World) (r : Reservation) (g : Geometry) : World :=
  if g.commit = 0 then w.mmap r else (w.mmap r).commit (r.base + (g.total - g.commit)) g.commit

section Calls

variable {sys : BitVec 64} {reserve commit guard : Size} {outs : Outs} {ans : AllocAnswers}
  {w w' : World} {r : Reservation} {g : Geometry}

@[simp] theorem World.reserve_resv (w : World) (r : Reservation) (g : Geometry) :
    (w.reserve r g).resv = w.resv := by
  unfold reserve
  split <;> rfl

@[simp] theorem World.reserve_mapped (w : World) (r : Reservation) (g : Geometry) :
    (w.reserve r g).mapped = r :: w.mapped := by
  unfold reserve
  split <;> rfl

@[simp] theorem World.reserve_cap (w : World) (r : Reservation) (g : Geometry) :
    (w.reserve r g).cap = w.cap := by
  unfold reserve
  split <;> rfl

@[simp] theorem World.reserve_entries (w : World) (r : Reservation) (g : Geometry) :
    (w.reserve r g).entries = w.entries := by
  rw [entries, reserve_resv]
  rfl

/-- The registration of a reservation ends in one of two ways. -/
theorem register_cases (w : World) (r : Reservation) (g : Geometry) (outs : Outs)
    (ans : AllocAnswers) :
    register w r g outs ans = unwind w r outs .ENOMEM ans.munmap ∨
      ∃ w', w.record r ans.realloc = some w' ∧ register w r g outs ans =
        ⟨none, ⟨some r.base, some (r.base + g.guard), some (r.base + r.total)⟩, w', []⟩ := by
  unfold register
  cases h : w.record r ans.realloc with
  | none => exact Or.inl rfl
  | some w' => exact Or.inr ⟨w', rfl, rfl⟩

/-- **An `mjs_stack_alloc`** is rejected and changes nothing, or it maps a reservation, and then
unwinds or registers it. -/
theorem mjsStackAlloc_cases (sys : BitVec 64) (reserve commit guard : Size) (outs : Outs)
    (ans : AllocAnswers) (w : World) :
    (∃ err, mjsStackAlloc sys reserve commit guard outs ans w = ⟨some err, outs, w, []⟩) ∨
    ∃ g base, stackGeometry (pageSize sys) reserve commit guard = some g ∧ ans.mmap = .ok base ∧
      ((∃ err w₁, w₁.resv = w.resv ∧ w₁.cap = w.cap ∧ w₁.mapped = ⟨base, g.total⟩ :: w.mapped ∧
        mjsStackAlloc sys reserve commit guard outs ans w =
          unwind w₁ ⟨base, g.total⟩ outs err ans.munmap) ∨
      ∃ w', (w.reserve ⟨base, g.total⟩ g).record ⟨base, g.total⟩ ans.realloc = some w' ∧
        mjsStackAlloc sys reserve commit guard outs ans w =
          ⟨none, ⟨some base, some (base + g.guard), some (base + g.total)⟩, w', []⟩) := by
  unfold mjsStackAlloc
  split
  · exact Or.inl ⟨_, rfl⟩
  cases hg : stackGeometry (pageSize sys) reserve commit guard with
  | none => exact Or.inl ⟨_, rfl⟩
  | some g =>
    cases hm : ans.mmap with
    | error err => exact Or.inl ⟨err, rfl⟩
    | ok base =>
      refine Or.inr ⟨g, base, rfl, rfl, ?_⟩
      simp only
      by_cases hc : g.commit = 0
      · rw [if_pos hc, World.reserve, if_pos hc]
        rcases register_cases (w.mmap ⟨base, g.total⟩) ⟨base, g.total⟩ g outs ans with h | h
        · exact Or.inl ⟨_, w.mmap ⟨base, g.total⟩, rfl, rfl, rfl, h⟩
        · exact Or.inr h
      · rw [if_neg hc, World.reserve, if_neg hc]
        cases hp : ans.mprotect with
        | failed errno => exact Or.inl ⟨_, w.mmap ⟨base, g.total⟩, rfl, rfl, rfl, rfl⟩
        | ok =>
          let w₁ := (w.mmap ⟨base, g.total⟩).commit (base + (g.total - g.commit)) g.commit
          rcases register_cases w₁ ⟨base, g.total⟩ g outs ans with h | h
          · exact Or.inl ⟨_, w₁, rfl, rfl, rfl, h⟩
          · exact Or.inr h

/-- A recorded reservation is one more entry. -/
theorem record_entries {realloc : Bool} (h : w.record r realloc = some w') (hr : r.base ≠ 0) :
    w'.entries.Perm (r :: w.entries) ∧ w'.mapped = w.mapped ∧ w'.prot = w.prot := by
  have hpush : (entriesOf (w.resv ++ [r])).Perm (r :: entriesOf w.resv) := by
    rw [entriesOf_append, entriesOf_singleton hr]
    exact List.perm_append_singleton _ _
  unfold World.record at h
  split at h
  · rename_i i hi
    obtain rfl := Option.some.inj h
    obtain ⟨hlt, hzero, -⟩ := List.findIdx?_eq_some_iff_getElem.mp hi
    have hslot : entriesOf [w.resv[i]] = [] := by
      rw [entriesOf, List.filter_cons_of_neg]
      · rfl
      · simpa using hzero
    have hset := entriesOf_set r (List.getElem?_eq_getElem hlt)
    rw [hslot, List.append_nil, entriesOf_singleton hr] at hset
    exact ⟨hset.trans (List.perm_append_singleton _ _), rfl, rfl⟩
  · split at h
    · split at h
      · obtain rfl := Option.some.inj h
        exact ⟨hpush, rfl, rfl⟩
      · cases h
    · obtain rfl := Option.some.inj h
      exact ⟨hpush, rfl, rfl⟩

/-- A reservation that was mapped and recorded is one more entry and one more live mapping. -/
theorem record_reserve {realloc : Bool} (h : (w.reserve r g).record r realloc = some w')
    (hr : r.base ≠ 0) : w'.entries.Perm (r :: w.entries) ∧ w'.mapped = r :: w.mapped := by
  obtain ⟨hperm, hmapped, -⟩ := record_entries h hr
  rw [World.reserve_entries] at hperm
  rw [World.reserve_mapped] at hmapped
  exact ⟨hperm, hmapped⟩

/-- **An `mjs_stack_free`** refuses an address that no entry has, without a `munmap`, or calls
`munmap` on the entry with that base. -/
theorem mjsStackFree_cases (base : Option Addr) (munmap : Option Errno) (w : World) :
    ((∀ r ∈ w.entries, base ≠ some r.base) ∧
      mjsStackFree base munmap w = ⟨some .EINVAL, base, w, []⟩) ∨
    ∃ i r, w.resv[i]? = some r ∧ r.base ≠ 0 ∧ base = some r.base ∧
      mjsStackFree base munmap w = match munmap with
        | some err => ⟨some err, base, w, [(r, false)]⟩
        | none => ⟨none, some 0, { w.munmap r with resv := w.resv.set i ⟨0, 0⟩ }, [(r, true)]⟩ := by
  unfold mjsStackFree
  cases base with
  | none => exact Or.inl ⟨fun r _ => by simp, rfl⟩
  | some b =>
    by_cases hb : b = 0
    · refine Or.inl ⟨fun r hr he => ?_, if_pos hb⟩
      exact (mem_entriesOf.mp hr).2 ((Option.some.inj he).symm.trans hb)
    · simp only [if_neg hb]
      cases hi : w.resv.findIdx? (·.base = b) with
      | none =>
        refine Or.inl ⟨fun r hr he => ?_, rfl⟩
        have hno := List.findIdx?_eq_none_iff.mp hi r (mem_entriesOf.mp hr).1
        exact of_decide_eq_false hno (Option.some.inj he).symm
      | some i =>
        obtain ⟨hlt, hbase, -⟩ := List.findIdx?_eq_some_iff_getElem.mp hi
        obtain rfl : w.resv[i].base = b := of_decide_eq_true hbase
        refine Or.inr ⟨i, w.resv[i], List.getElem?_eq_getElem hlt, hb, rfl, ?_⟩
        have hget : w.resv.getD i ⟨0, 0⟩ = w.resv[i] := by simp [hlt]
        simp only [hget]
        cases munmap <;> rfl

end Calls

/-! ### Runs -/

/-- What the operating system promises of an `mmap` of `total` bytes: a range of the address space
that is not at `NULL` and overlaps no live mapping. -/
def Fresh (w : World) (total : Size) (mmap : Except Errno Addr) : Prop :=
  ∀ base, mmap = .ok base → base ≠ 0 ∧ base.toNat + total.toNat ≤ 2 ^ 64 ∧
    ∀ r ∈ w.mapped, Reservation.Apart ⟨base, total⟩ r

/-- The mappings of the `munmap` calls that failed. -/
def failedUnmaps (unmaps : List (Reservation × Bool)) : List Reservation :=
  (unmaps.filter (·.2 = false)).map (·.1)

/-- The runs of the two calls, with the mappings that an unwinding failed to unmap. -/
inductive StackRun (sys : BitVec 64) : World → List Reservation → Prop
  | start (prot : ℕ → Prot) : StackRun sys ⟨[], 0, [], prot⟩ []
  | alloc {w : World} {leaks : List Reservation} (reserve commit guard : Size) (outs : Outs)
      (ans : AllocAnswers) (hr : StackRun sys w leaks)
      (hf : ∀ g, stackGeometry (pageSize sys) reserve commit guard = some g →
        Fresh w g.total ans.mmap) :
      StackRun sys (mjsStackAlloc sys reserve commit guard outs ans w).world
        (failedUnmaps (mjsStackAlloc sys reserve commit guard outs ans w).unmaps ++ leaks)
  | free {w : World} {leaks : List Reservation} (base : Option Addr) (munmap : Option Errno)
      (hr : StackRun sys w leaks) : StackRun sys (mjsStackFree base munmap w).world leaks

/-- Every live mapping is recorded in one slot or was left by an unwinding, and no two overlap. -/
structure RegistryInv (w : World) (leaks : List Reservation) : Prop where
  perm : (w.entries ++ leaks).Perm w.mapped
  apart : w.mapped.Pairwise Reservation.Apart
  sound : ∀ r ∈ w.mapped, r.Sound

section Inv

variable {sys : BitVec 64} {reserve commit guard : Size} {outs : Outs} {ans : AllocAnswers}
  {w : World} {leaks : List Reservation}

/-- The new mapping of an accepted request. -/
theorem sound_of_fresh {g : Geometry} {base : Addr}
    (hg : stackGeometry (pageSize sys) reserve commit guard = some g)
    (hf : Fresh w g.total (.ok base)) : Reservation.Sound ⟨base, g.total⟩ := by
  obtain ⟨hbase, hfits, -⟩ := hf base rfl
  have hok := stackGeometry_spec (pageSize_pos sys) hg
  refine ⟨hbase, ?_, hfits⟩
  have hpos := hok.guard_pos
  simp only [hok.total_eq, hok.guard_eq]
  omega

theorem unwind_resv (w : World) (r : Reservation) (outs : Outs) (err : Errno) (munmap : Bool) :
    (unwind w r outs err munmap).world.resv = w.resv := by
  cases munmap <;> rfl

/-- An unwinding leaves the mapping that its `munmap` failed to unmap. -/
theorem unwind_mapped {w₁ : World} {r : Reservation} (h : w₁.mapped = r :: w.mapped) (outs : Outs)
    (err : Errno) (munmap : Bool) :
    (unwind w₁ r outs err munmap).world.mapped =
      failedUnmaps (unwind w₁ r outs err munmap).unmaps ++ w.mapped := by
  cases munmap with
  | true =>
    change w₁.mapped.erase r = w.mapped
    rw [h, List.erase_cons_head]
  | false => exact h

theorem RegistryInv.of_eq {w' : World} (h : RegistryInv w leaks) (hresv : w'.resv = w.resv)
    (hmapped : w'.mapped = w.mapped) : RegistryInv w' leaks where
  perm := by
    rw [World.entries, hresv, hmapped]
    exact h.perm
  apart := hmapped ▸ h.apart
  sound := hmapped ▸ h.sound

/-- A new mapping that overlaps no other is recorded, or left by an unwinding. -/
theorem RegistryInv.push {w' : World} {leaks' : List Reservation} {r : Reservation}
    (h : RegistryInv w leaks) (hr : r.Sound) (hapart : ∀ s ∈ w.mapped, r.Apart s)
    (hmapped : w'.mapped = r :: w.mapped)
    (hperm : (w'.entries ++ leaks').Perm (r :: (w.entries ++ leaks))) :
    RegistryInv w' leaks' where
  perm := hmapped ▸ hperm.trans (h.perm.cons r)
  apart := hmapped ▸ List.pairwise_cons.mpr ⟨hapart, h.apart⟩
  sound := by
    intro s hs
    rcases List.mem_cons.mp (hmapped ▸ hs) with rfl | hs
    · exact hr
    · exact h.sound s hs

/-- An `mjs_stack_alloc` keeps the invariant. -/
theorem RegistryInv.alloc (h : RegistryInv w leaks)
    (hf : ∀ g, stackGeometry (pageSize sys) reserve commit guard = some g →
      Fresh w g.total ans.mmap) :
    RegistryInv (mjsStackAlloc sys reserve commit guard outs ans w).world
      (failedUnmaps (mjsStackAlloc sys reserve commit guard outs ans w).unmaps ++ leaks) := by
  rcases mjsStackAlloc_cases sys reserve commit guard outs ans w with ⟨err, he⟩ | ⟨g, base, hg, hm,
    hend⟩
  · rw [he]
    exact h
  have hfresh : Fresh w g.total (.ok base) := hm ▸ hf g hg
  have hsound := sound_of_fresh hg hfresh
  have hapart := (hfresh base rfl).2.2
  rcases hend with ⟨err, w₁, hresv, -, hmapped, he⟩ | ⟨w', hrec, he⟩
  · rw [he]
    cases ans.munmap with
    | true => exact h.of_eq hresv (unwind_mapped hmapped outs err true)
    | false =>
      refine h.push hsound hapart hmapped ?_
      change (entriesOf w₁.resv ++ ⟨base, g.total⟩ :: leaks).Perm _
      rw [hresv]
      exact List.perm_middle
  · rw [he]
    obtain ⟨hperm, hmap⟩ := record_reserve hrec hsound.base
    exact h.push hsound hapart hmap (hperm.append_right leaks)

/-- The entries after a slot is cleared. -/
theorem entries_clear {i : ℕ} {r : Reservation} (h : w.resv[i]? = some r) (hr : r.base ≠ 0) :
    w.entries.Perm (r :: entriesOf (w.resv.set i ⟨0, 0⟩)) := by
  have hset := entriesOf_set ⟨0, 0⟩ h
  rw [entriesOf_singleton hr, show entriesOf [⟨0, 0⟩] = [] from rfl, List.append_nil] at hset
  exact hset.symm.trans (List.perm_append_singleton _ _)

/-- An `mjs_stack_free` keeps the invariant. -/
theorem RegistryInv.free (h : RegistryInv w leaks) (base : Option Addr) (munmap : Option Errno) :
    RegistryInv (mjsStackFree base munmap w).world leaks := by
  rcases mjsStackFree_cases base munmap w with ⟨-, he⟩ | ⟨i, r, hi, hr, -, he⟩
  · rw [he]
    exact h
  rw [he]
  cases munmap with
  | some err => exact h
  | none =>
    have hclear := entries_clear hi hr
    have hmapped : w.mapped.Perm (r :: (entriesOf (w.resv.set i ⟨0, 0⟩) ++ leaks)) :=
      h.perm.symm.trans (hclear.append_right leaks)
    have herase := hmapped.erase r
    rw [List.erase_cons_head] at herase
    exact ⟨herase.symm, h.apart.sublist List.erase_sublist,
      fun s hs => h.sound s (List.mem_of_mem_erase hs)⟩

theorem StackRun.inv (hr : StackRun sys w leaks) : RegistryInv w leaks := by
  induction hr with
  | start prot => exact ⟨.refl _, .nil, nofun⟩
  | alloc reserve commit guard outs ans _ hf ih => exact ih.alloc hf
  | free base munmap _ ih => exact ih.free base munmap

/-- Two entries with one base are the same entry. -/
theorem RegistryInv.eq_of_base (h : RegistryInv w leaks) {r s : Reservation} (hr : r ∈ w.mapped)
    (hs : s ∈ w.mapped) (hb : r.base = s.base) : r = s := by
  by_contra hne
  have hapart := h.apart.forall hr hs hne
  exact (h.sound r hr).not_apart (h.sound s hs) hb hapart

/-- Every entry is a live mapping. -/
theorem RegistryInv.mem_mapped (h : RegistryInv w leaks) {r : Reservation} (hr : r ∈ w.entries) :
    r ∈ w.mapped := h.perm.mem_iff.mp (List.mem_append_left _ hr)

/-- Every entry has its own base. -/
theorem RegistryInv.nodup_bases (h : RegistryInv w leaks) : (w.entries.map (·.base)).Nodup := by
  have hpair : (w.entries ++ leaks).Pairwise Reservation.Apart :=
    h.perm.symm.pairwise h.apart Or.symm
  have hent : w.entries.Pairwise Reservation.Apart := (List.pairwise_append.mp hpair).1
  rw [List.nodup_map_iff_inj_on]
  · exact fun r hr s hs hb => h.eq_of_base (h.mem_mapped hr) (h.mem_mapped hs) hb
  · refine hent.imp_of_mem fun hr hs hapart he => ?_
    subst he
    have hsound := h.sound _ (h.mem_mapped hr)
    exact hsound.not_apart hsound rfl hapart

/-- A `munmap` of an entry: its whole mapping, and the slot is free again when it succeeds. -/
theorem RegistryInv.free_entry (h : RegistryInv w leaks) {r : Reservation} (hr : r ∈ w.entries)
    (munmap : Option Errno) :
    (mjsStackFree (some r.base) munmap w).unmaps = [(r, munmap.isNone)] ∧
      (munmap = none → (mjsStackFree (some r.base) munmap w).status = none ∧
        (mjsStackFree (some r.base) munmap w).out = some 0 ∧
        (mjsStackFree (some r.base) munmap w).world.mapped = w.mapped.erase r ∧
        w.entries.Perm (r :: (mjsStackFree (some r.base) munmap w).world.entries)) ∧
      ∀ err, munmap = some err →
        mjsStackFree (some r.base) munmap w = ⟨some err, some r.base, w, [(r, false)]⟩ := by
  rcases mjsStackFree_cases (some r.base) munmap w with ⟨hno, -⟩ | ⟨i, s, hi, hs, hbase, he⟩
  · exact absurd rfl (hno r hr)
  have hmem : s ∈ w.entries := mem_entriesOf.mpr ⟨List.mem_of_getElem? hi, hs⟩
  obtain rfl : r = s :=
    h.eq_of_base (h.mem_mapped hr) (h.mem_mapped hmem) (Option.some.inj hbase)
  rw [he]
  cases munmap with
  | some err =>
    refine ⟨rfl, nofun, fun err' h' => ?_⟩
    obtain rfl := Option.some.inj h'
    rfl
  | none => exact ⟨rfl, fun _ => ⟨rfl, rfl, rfl, entries_clear hi hs⟩, nofun⟩

/-- A failing `mjs_stack_alloc` touches neither an out-parameter nor an entry, and leaves a mapping
only when its own `munmap` fails. -/
theorem alloc_failed (h : (mjsStackAlloc sys reserve commit guard outs ans w).status ≠ none) :
    (mjsStackAlloc sys reserve commit guard outs ans w).out = outs ∧
      (mjsStackAlloc sys reserve commit guard outs ans w).world.entries = w.entries ∧
      (mjsStackAlloc sys reserve commit guard outs ans w).world.mapped =
        failedUnmaps (mjsStackAlloc sys reserve commit guard outs ans w).unmaps ++ w.mapped := by
  rcases mjsStackAlloc_cases sys reserve commit guard outs ans w with ⟨err, he⟩ | ⟨g, base, hg, hm,
    ⟨err, w₁, hresv, -, hmapped, he⟩ | ⟨w', hrec, he⟩⟩
  · rw [he]
    exact ⟨rfl, rfl, rfl⟩
  · rw [he]
    exact ⟨rfl, congrArg entriesOf ((unwind_resv ..).trans hresv), unwind_mapped hmapped ..⟩
  · rw [he] at h
    exact absurd rfl h

end Inv

/-- **The stack registry.** After every run of the two calls, with any arguments and any failures,
the entries whose base is not `NULL` are the live mappings of the allocator, each once with its
mapped size, but for the mappings that an unwinding failed to unmap. An `mjs_stack_free` unmaps the
whole mapping of a live base and refuses every other address without a `munmap`, and a failing
`mjs_stack_alloc` touches no out-parameter and leaves no new mapping unless its own `munmap`
fails. -/
theorem stack_registry {sys : BitVec 64} {w : World} {leaks : List Reservation}
    (hr : StackRun sys w leaks) :
    (w.entries ++ leaks).Perm w.mapped ∧ (w.entries.map (·.base)).Nodup ∧
    (∀ r ∈ w.entries, ∀ munmap,
      (mjsStackFree (some r.base) munmap w).unmaps = [(r, munmap.isNone)] ∧
      (munmap = none → (mjsStackFree (some r.base) munmap w).status = none ∧
        (mjsStackFree (some r.base) munmap w).out = some 0 ∧
        (mjsStackFree (some r.base) munmap w).world.mapped = w.mapped.erase r ∧
        w.entries.Perm (r :: (mjsStackFree (some r.base) munmap w).world.entries)) ∧
      ∀ err, munmap = some err →
        mjsStackFree (some r.base) munmap w = ⟨some err, some r.base, w, [(r, false)]⟩) ∧
    (∀ base munmap, (∀ r ∈ w.entries, base ≠ some r.base) →
      mjsStackFree base munmap w = ⟨some .EINVAL, base, w, []⟩) ∧
    ∀ reserve commit guard outs ans,
      (mjsStackAlloc sys reserve commit guard outs ans w).status ≠ none →
      (mjsStackAlloc sys reserve commit guard outs ans w).out = outs ∧
      (mjsStackAlloc sys reserve commit guard outs ans w).world.entries = w.entries ∧
      (mjsStackAlloc sys reserve commit guard outs ans w).world.mapped =
        failedUnmaps (mjsStackAlloc sys reserve commit guard outs ans w).unmaps ++ w.mapped := by
  have hinv := hr.inv
  refine ⟨hinv.perm, hinv.nodup_bases, fun r hmem munmap => hinv.free_entry hmem munmap, ?_,
    fun _ _ _ _ _ h => alloc_failed h⟩
  intro base munmap hno
  rcases mjsStackFree_cases base munmap w with ⟨-, he⟩ | ⟨i, r, hi, hr, hbase, -⟩
  · exact he
  · exact absurd hbase (hno r (mem_entriesOf.mpr ⟨List.mem_of_getElem? hi, hr⟩))

/-- The allocator before any call. -/
def emptyWorld : World := ⟨[], 0, [], fun _ => .unmapped⟩

/-- Answers on which every call succeeds, the reservation at `0x10000`. -/
def okAnswers : AllocAnswers := ⟨.ok 0x10000, .ok, true, true⟩

/-- Three out-parameters that point to zeroed words. -/
def zeroOuts : Outs := ⟨some 0, some 0, some 0⟩

/-- A stack of sixteen pages at `0x10000`. -/
theorem stack_registry_one :
    ∃ w, StackRun 4096 w [] ∧ w.entries = [⟨0x10000, 0x11000⟩] ∧
      (mjsStackFree (some 0x10000) none w).unmaps = [(⟨0x10000, 0x11000⟩, true)] ∧
      mjsStackFree (some 0x11000) none w = ⟨some .EINVAL, some 0x11000, w, []⟩ := by
  have hrun := StackRun.alloc 0x10000 0x2000 0x1000 zeroOuts okAnswers
    (.start (fun _ => .unmapped) : StackRun 4096 _ _) (fun g hg base hb => ?_)
  · refine ⟨_, hrun, by decide +kernel, ?_, ?_⟩
    · exact ((stack_registry hrun).2.2.1 ⟨0x10000, 0x11000⟩ (by decide +kernel) none).1
    · exact (stack_registry hrun).2.2.2.1 (some 0x11000) none (by decide +kernel)
  · cases hb
    cases Option.some.inj ((show stackGeometry (pageSize 4096) 0x10000 0x2000 0x1000 =
      some ⟨0x1000, 0x10000, 0x2000⟩ by decide +kernel).symm.trans hg)
    exact ⟨by decide, by decide, nofun⟩

/-- The commitment of a new stack fails, and the `munmap` of its unwinding fails too: the failing
call leaves a live mapping that no slot records. -/
theorem stack_registry_leak :
    ∃ ans : AllocAnswers, Fresh emptyWorld 0x11000 ans.mmap ∧
      (mjsStackAlloc 4096 0x10000 0x2000 0x1000 zeroOuts ans emptyWorld).status = some .ENOMEM ∧
      (mjsStackAlloc 4096 0x10000 0x2000 0x1000 zeroOuts ans emptyWorld).world.entries = [] ∧
      (mjsStackAlloc 4096 0x10000 0x2000 0x1000 zeroOuts ans emptyWorld).world.mapped =
        [⟨0x10000, 0x11000⟩] := by
  refine ⟨⟨.ok 0x10000, .failed (some .ENOMEM), true, false⟩, fun base hb => ?_, by decide +kernel,
    by decide +kernel, by decide +kernel⟩
  cases hb
  exact ⟨by decide, by decide, nofun⟩

/-! ### The size of the array -/

section Slots

variable {sys : BitVec 64} {w : World} {leaks : List Reservation}

/-- The addresses of some mappings. -/
def cover : List Reservation → Finset ℕ
  | [] => ∅
  | r :: l => Finset.Ico r.base.toNat (r.base.toNat + r.total.toNat) ∪ cover l

theorem mem_cover {l : List Reservation} {x : ℕ} :
    x ∈ cover l ↔ ∃ r ∈ l, InRange r.base.toNat r.total.toNat x := by
  induction l with
  | nil => simp [cover]
  | cons r l ih => simp [cover, ih, InRange]

/-- Mappings that do not overlap share the address space. -/
theorem length_mul_le {l : List Reservation} {t : ℕ} (hapart : l.Pairwise Reservation.Apart)
    (hsound : ∀ r ∈ l, r.Sound) (ht : ∀ r ∈ l, t ≤ r.total.toNat) : l.length * t ≤ 2 ^ 64 := by
  have hcard : l.length * t ≤ (cover l).card := by
    clear hsound
    induction l with
    | nil => simp
    | cons r l ih =>
      obtain ⟨hr, hl⟩ := List.pairwise_cons.mp hapart
      have hdisj : Disjoint (Finset.Ico r.base.toNat (r.base.toNat + r.total.toNat)) (cover l) := by
        rw [Finset.disjoint_left]
        intro x hx hx'
        obtain ⟨s, hs, hxs⟩ := mem_cover.mp hx'
        have hrs := hr s hs
        rw [Finset.mem_Ico] at hx
        unfold Reservation.Apart at hrs
        unfold InRange at hxs
        omega
      have hrest := ih hl fun s hs => ht s (List.mem_cons_of_mem r hs)
      have hhead := ht r List.mem_cons_self
      rw [cover, Finset.card_union_of_disjoint hdisj, Nat.card_Ico, List.length_cons, Nat.add_mul]
      omega
  have hsub : cover l ⊆ Finset.range (2 ^ 64) := by
    intro x hx
    obtain ⟨r, hr, hxr⟩ := mem_cover.mp hx
    have hfits := (hsound r hr).fits
    rw [Finset.mem_range]
    unfold InRange at hxr
    omega
  calc l.length * t ≤ (cover l).card := hcard
    _ ≤ (Finset.range (2 ^ 64)).card := Finset.card_le_card hsub
    _ = 2 ^ 64 := Finset.card_range _

/-- The array has a slot for every reservation that was live at one time, and its capacity doubles.
-/
structure SlotInv (ps : ℕ) (w : World) : Prop where
  total : ∀ r ∈ w.mapped, 2 * ps ≤ r.total.toNat
  slots : w.resv.length * (2 * ps) ≤ 2 ^ 64
  cap : w.cap ≤ max 8 (2 * w.resv.length)

theorem SlotInv.of_length {ps : ℕ} {w' : World} (h : SlotInv ps w)
    (htotal : ∀ r ∈ w'.mapped, 2 * ps ≤ r.total.toNat)
    (hlen : w'.resv.length = w.resv.length) (hcap : w'.cap = w.cap) : SlotInv ps w' where
  total := htotal
  slots := hlen ▸ h.slots
  cap := by
    rw [hlen, hcap]
    exact h.cap

/-- A mapping is at least one guard page and one usable page. -/
theorem two_mul_le_total {ps reserve commit guard : Size} {g : Geometry} (hps : 0 < ps.toNat)
    (hg : stackGeometry ps reserve commit guard = some g) : 2 * ps.toNat ≤ g.total.toNat := by
  have hok := stackGeometry_spec hps hg
  have hguard := Nat.le_of_dvd hok.guard_pos hok.dvd_guard
  have hreq : 0 < (usableReq ps reserve).toNat := by
    unfold usableReq
    split
    · exact hps
    · rename_i hne
      rw [Nat.pos_iff_ne_zero]
      exact fun h0 => hne (BitVec.eq_of_toNat_eq h0)
  have husable : ps.toNat ≤ g.usable.toNat := by
    rw [hok.usable_eq]
    exact Nat.le_of_dvd (hreq.trans_le (le_roundUpNat hps)) (dvd_roundUpNat _ _)
  rw [hok.total_eq, hok.guard_eq]
  omega

/-- A slot is added only when every slot is in use. -/
theorem record_slots {w' : World} {r : Reservation} {realloc : Bool}
    (h : w.record r realloc = some w') :
    (w'.resv.length = w.resv.length ∧ w'.cap = w.cap) ∨
      (w.entries = w.resv ∧ w'.resv.length = w.resv.length + 1 ∧
        w'.cap ≤ max 8 (max w.cap (2 * w.resv.length))) := by
  unfold World.record at h
  split at h
  · obtain rfl := Option.some.inj h
    exact Or.inl ⟨List.length_set, rfl⟩
  · rename_i hnone
    have hall : w.entries = w.resv := by
      refine List.filter_eq_self.mpr fun s hs => ?_
      have hno := List.findIdx?_eq_none_iff.mp hnone s hs
      exact decide_eq_true (of_decide_eq_false hno)
    refine Or.inr ⟨hall, ?_⟩
    split at h
    · rename_i hfull
      split at h
      · obtain rfl := Option.some.inj h
        refine ⟨List.length_append, ?_⟩
        simp only
        split <;> omega
      · cases h
    · obtain rfl := Option.some.inj h
      exact ⟨List.length_append, by simp only; omega⟩

theorem SlotInv.alloc {reserve commit guard : Size} {outs : Outs} {ans : AllocAnswers}
    (h : SlotInv (pageSize sys).toNat w) (hinv : RegistryInv w leaks)
    (hf : ∀ g, stackGeometry (pageSize sys) reserve commit guard = some g →
      Fresh w g.total ans.mmap) :
    SlotInv (pageSize sys).toNat (mjsStackAlloc sys reserve commit guard outs ans w).world := by
  rcases mjsStackAlloc_cases sys reserve commit guard outs ans w with ⟨err, he⟩ | ⟨g, base, hg, hm,
    hend⟩
  · rw [he]
    exact h
  have hfresh : Fresh w g.total (.ok base) := hm ▸ hf g hg
  have htotal : ∀ r ∈ (⟨base, g.total⟩ :: w.mapped : List Reservation),
      2 * (pageSize sys).toNat ≤ r.total.toNat := by
    intro r hr
    rcases List.mem_cons.mp hr with rfl | hr
    · exact two_mul_le_total (pageSize_pos sys) hg
    · exact h.total r hr
  rcases hend with ⟨err, w₁, hresv, hcap, hmapped, he⟩ | ⟨w', hrec, he⟩
  · rw [he]
    cases ans.munmap with
    | true =>
      exact h.of_length (fun r hr => htotal r (hmapped ▸ List.mem_of_mem_erase hr))
        (congrArg List.length hresv) hcap
    | false => exact h.of_length (hmapped ▸ htotal) (congrArg List.length hresv) hcap
  · rw [he]
    have hsound := sound_of_fresh hg hfresh
    obtain ⟨hperm, hmap⟩ := record_reserve hrec hsound.base
    have hslots := record_slots hrec
    rw [World.reserve_entries, World.reserve_resv, World.reserve_cap] at hslots
    rcases hslots with ⟨hlen, hcap⟩ | ⟨hall, hlen, hcap⟩
    · exact h.of_length (hmap ▸ htotal) hlen hcap
    · have hnew := hinv.push hsound (hfresh base rfl).2.2 hmap (hperm.append_right leaks)
      have hle : w.resv.length ≤ w.mapped.length := by
        rw [← hinv.perm.length_eq, hall, List.length_append]
        omega
      have hspace := length_mul_le hnew.apart hnew.sound (hmap ▸ htotal)
      rw [hmap, List.length_cons] at hspace
      refine ⟨hmap ▸ htotal, ?_, ?_⟩
      · calc w'.resv.length * (2 * (pageSize sys).toNat)
            = (w.resv.length + 1) * (2 * (pageSize sys).toNat) := by rw [hlen]
          _ ≤ (w.mapped.length + 1) * (2 * (pageSize sys).toNat) :=
            Nat.mul_le_mul_right _ (by omega)
          _ ≤ 2 ^ 64 := hspace
      · have hold := h.cap
        simp only at hlen hcap ⊢
        omega

/-- **The array of the registry stays small.** Its slots were in use at one time, so they fit into
the address space, and no size that the array is allocated with wraps. -/
theorem StackRun.slots (hr : StackRun sys w leaks) : SlotInv (pageSize sys).toNat w := by
  induction hr with
  | start prot => exact ⟨nofun, by simp, by simp⟩
  | alloc reserve commit guard outs ans hr hf ih => exact ih.alloc hr.inv hf
  | @free w leaks base munmap _ ih =>
    rcases mjsStackFree_cases base munmap w with ⟨-, he⟩ | ⟨i, r, -, -, -, he⟩
    · rw [he]
      exact ih
    · rw [he]
      cases munmap with
      | some err => exact ih
      | none =>
        exact ih.of_length (fun s hs => ih.total s (List.mem_of_mem_erase hs)) List.length_set rfl

/-- The bytes of the array, for pages of at least 64 bytes. -/
theorem StackRun.array_bytes (hr : StackRun sys w leaks) (hps : 64 ≤ (pageSize sys).toNat) :
    w.cap * 16 < 2 ^ 64 := by
  have h := hr.slots
  have hslots : w.resv.length * 128 ≤ 2 ^ 64 :=
    (Nat.mul_le_mul_left _ (by omega)).trans h.slots
  have hcap := h.cap
  omega

end Slots

end MojitoSys.Memory
