import MojitoSys.Memory.NativeStack
import MojitoSys.Util.Custody

/-!
# Custody of stacks

Any number of `NativeStack` values over the one registry of the stack allocator. The values are
created, grown, moved and destroyed in any order, and every system call may fail. A value knows the
base of its reservation, and a base may come back from the operating system once its reservation is
unmapped.

A destructor whose `munmap` fails leaves the reservation to nobody.

## Main definitions

* `NativeStack.moved`, `NativeStack.deinit`: a value that was moved from, and the destructor.
* `StackWorld`, `StackStep`, `stackSystem`: the process.
* `StackWorld.Owned`: every value holds the reservation that is registered at its base.
* `StackOwnerLaw`: what a program may rely on.

## Main results

* `stack_simulates`: the process keeps the custody of the reservations.
* `stacks_keep_custody`: the law, for every run.
-/

namespace MojitoSys.Memory

open Util

/-! ### The process -/

namespace NativeStack

/-- `NativeStack()`, and a value that was moved from. -/
def moved : NativeStack := ⟨0, 0, 0, 0, 0, 0⟩

/-- `__deinit__`: the call of `mjs_stack_free`, if there is one. -/
def deinit (s : NativeStack) (munmap : Option Errno) (w : World) : Option (Ended (Option Addr)) :=
  if s.base ≠ 0 then some (mjsStackFree (some s.base) munmap w) else none

/-- The base that a value knows. -/
def known (s : NativeStack) : Option Addr := if s.base = 0 then none else some s.base

end NativeStack

/-- The registry and the values, by place. -/
structure StackWorld (ι : Type*) where
  world : World
  /-- The mappings that an unwinding failed to unmap. -/
  leaks : List Reservation
  /-- Which reservation is live at a base, counted from the first. -/
  live : Addr → Option ℕ
  made : ℕ
  value : ι → Option NativeStack

namespace StackWorld

variable {ι : Type*}

/-- Who knows which base. -/
def names (w : StackWorld ι) : Names Addr ι where
  table := w.live
  made := w.made
  name i := (w.value i).bind NativeStack.known

variable [DecidableEq ι]

def setValue (w : StackWorld ι) (i : ι) (v : Option NativeStack) : StackWorld ι :=
  { w with value := Function.update w.value i v }

@[simp]
theorem names_setValue {w : StackWorld ι} (i : ι) (v : Option NativeStack) :
    (w.setValue i v).names = w.names.tell i (v.bind NativeStack.known) := by
  refine Names.ext rfl rfl (funext fun j => ?_)
  by_cases hj : j = i
  · subst hj
    simp [names, setValue, Names.tell]
  · simp [names, setValue, Names.tell, hj]

end StackWorld

section Steps

variable {ι : Type*} [DecidableEq ι]

/-- What happens, with what happens to the reservations. -/
inductive StackStep (sys : BitVec 64) (w : StackWorld ι) :
    List (CustodyEvent ι) → StackWorld ι → Prop
  | create {i : ι} {reserve commit guard : BitVec 64} {ans : AllocAnswers} {s : NativeStack}
      {w' : World} (hi : w.value i = none)
      (hf : ∀ g, stackGeometry (pageSize sys) reserve commit guard = some g →
        Fresh w.world g.total ans.mmap)
      (hs : NativeStack.create sys reserve commit guard ans w.world = (.ok s, w')) :
      StackStep sys w [.made i w.made]
        (StackWorld.setValue ⟨w', w.leaks, Function.update w.live s.base (some w.made), w.made + 1,
          w.value⟩ i (some s))
  /-- A `create` that raises. -/
  | fail {reserve commit guard : BitVec 64} {ans : AllocAnswers}
      (hf : ∀ g, stackGeometry (pageSize sys) reserve commit guard = some g →
        Fresh w.world g.total ans.mmap)
      (hs : (mjsStackAlloc sys reserve commit guard zeroOuts ans w.world).status ≠ none) :
      StackStep sys w [] { w with
        world := (mjsStackAlloc sys reserve commit guard zeroOuts ans w.world).world
        leaks := failedUnmaps
          (mjsStackAlloc sys reserve commit guard zeroOuts ans w.world).unmaps ++ w.leaks }
  | grow {i : ι} {s : NativeStack} (additional : BitVec 64) (mprotect : Option Errno)
      (hi : w.value i = some s) :
      StackStep sys w (s.known.map fun _ => .used i (w.names.target i)).toList
        (StackWorld.setValue { w with world := (s.grow sys additional mprotect w.world).world } i
          (some (s.grow sys additional mprotect w.world).stack))
  | move {i j : ι} {s : NativeStack} (hi : w.value i = some s) (hj : w.value j = none) :
      StackStep sys w (s.known.map fun _ => .passed i j (w.names.target i)).toList
        ((w.setValue i (some .moved)).setValue j (some s))
  /-- The destructor of a value that has no reservation. -/
  | drop {i : ι} {s : NativeStack} (munmap : Option Errno) (hi : w.value i = some s)
      (hs : s.deinit munmap w.world = none) : StackStep sys w [] (w.setValue i none)
  | free {i : ι} {s : NativeStack} {munmap : Option Errno} {r : Ended (Option Addr)}
      (hi : w.value i = some s) (hs : s.deinit munmap w.world = some r) (hr : r.status = none) :
      StackStep sys w [.released i (w.names.target i)]
        (StackWorld.setValue { w with
          world := r.world
          live := Function.update w.live s.base none } i none)
  /-- The destructor prints a warning. -/
  | leak {i : ι} {s : NativeStack} {munmap : Option Errno} {r : Ended (Option Addr)}
      (hi : w.value i = some s) (hs : s.deinit munmap w.world = some r) (hr : r.status ≠ none) :
      StackStep sys w [.lost i (w.names.target i)]
        (StackWorld.setValue { w with world := r.world } i none)

/-- A process before its first stack. -/
structure StackWorld.Start (w : StackWorld ι) : Prop where
  resv : w.world.resv = []
  mapped : w.world.mapped = []
  leaks : w.leaks = []
  live : ∀ n, w.live n = none
  value : ∀ i, w.value i = none

/-- The process. -/
def stackSystem (ι : Type*) [DecidableEq ι] (sys : BitVec 64) :
    System (StackWorld ι) (CustodyEvent ι) where
  start := StackWorld.Start
  step := StackStep sys

/-- The registry has the reservations that are live, and every value holds the one at its base. -/
structure StackWorld.Owned (w : StackWorld ι) (s : ℕ → Life ι) : Prop where
  registry : RegistryInv w.world w.leaks
  live : ∀ n, w.live n ≠ none ↔ ∃ r ∈ w.world.entries, r.base = n
  names : w.names.Keeps s

namespace StackWorld.Owned

variable {sys : BitVec 64} {w w' : StackWorld ι} {l : ℕ → Life ι} {es : List (CustodyEvent ι)}
  {i : ι} {s : NativeStack}

omit [DecidableEq ι] in
theorem name_value (hi : w.value i = some s) : w.names.name i = s.known := by
  simp [StackWorld.names, hi]

omit [DecidableEq ι] in
theorem name_none (hi : w.value i = none) : w.names.name i = none := by
  simp [StackWorld.names, hi]

omit [DecidableEq ι] in
/-- A value with a base has an entry of the registry. -/
theorem entry (h : w.Owned l) (hi : w.value i = some s) (hs : s.base ≠ 0) :
    ∃ r ∈ w.world.entries, r.base = s.base := by
  obtain ⟨d, hd, -⟩ := h.names.holds i s.base ((name_value hi).trans (if_neg hs))
  refine (h.live s.base).mp fun hnone => ?_
  have hlive : w.live s.base = some d := hd
  rw [hnone] at hlive
  cases hlive

omit [DecidableEq ι] in
/-- A new mapping has a base of its own. -/
theorem live_of_fresh (h : w.Owned l) {base : Addr} {total : Size}
    (hf : Fresh w.world total (.ok base)) (hsound : Reservation.Sound ⟨base, total⟩) :
    w.live base = none := by
  by_contra hne
  obtain ⟨r, hr, hbase⟩ := (h.live base).mp hne
  have hmapped := h.registry.mem_mapped hr
  exact hsound.not_apart (h.registry.sound r hmapped) hbase.symm ((hf base rfl).2.2 r hmapped)

/-- A new stack is one more entry and one more live reservation. -/
theorem create {reserve commit guard : BitVec 64} {ans : AllocAnswers} {w₁ : World}
    (h : w.Owned l) (hi : w.value i = none)
    (hf : ∀ g, stackGeometry (pageSize sys) reserve commit guard = some g →
      Fresh w.world g.total ans.mmap)
    (hs : NativeStack.create sys reserve commit guard ans w.world = (.ok s, w₁)) :
    (custody ι).permits l (.made i w.made) ∧
      (StackWorld.setValue ⟨w₁, w.leaks, Function.update w.live s.base (some w.made), w.made + 1,
        w.value⟩ i (some s)).Owned ((custody ι).next l (.made i w.made)) := by
  obtain ⟨g, base, hg, hm, hrec, rfl⟩ := create_cases hs
  have hfresh : Fresh w.world g.total (.ok base) := hm ▸ hf g hg
  have hsound := sound_of_fresh hg hfresh
  obtain ⟨hperm, hmap⟩ := record_reserve hrec hsound.base
  obtain ⟨hp, hkeeps⟩ := h.names.make (n := base) (h.live_of_fresh hfresh hsound) (name_none hi)
  refine ⟨hp, ?_, fun n => ?_, ?_⟩
  · exact h.registry.push hsound (hfresh base rfl).2.2 hmap (hperm.append_right w.leaks)
  · change Function.update w.live base (some w.made) n ≠ none ↔ ∃ r ∈ w₁.entries, r.base = n
    simp only [hperm.mem_iff, List.mem_cons, exists_eq_or_imp]
    by_cases hn : n = base
    · subst hn
      simp
    · rw [Function.update_of_ne hn, h.live n]
      simp [Ne.symm hn]
  · rw [names_setValue, Option.bind_some]
    have hknown : (NativeStack.ofOuts sys commit guard base (base + g.guard)
        (base + g.total)).known = some base := if_neg hsound.base
    rw [hknown]
    exact hkeeps

omit [DecidableEq ι] in
/-- A world with the same registry. -/
theorem of_eq {w₁ : StackWorld ι} {l₁ : ℕ → Life ι} (h : w.Owned l)
    (hresv : w₁.world.resv = w.world.resv) (hmapped : w₁.world.mapped = w.world.mapped)
    (hleaks : w₁.leaks = w.leaks) (hlive : w₁.live = w.live) (hnames : w₁.names.Keeps l₁) :
    w₁.Owned l₁ := by
  refine ⟨?_, fun n => ?_, hnames⟩
  · rw [hleaks]
    exact h.registry.of_eq hresv hmapped
  · rw [hlive, World.entries, hresv]
    exact h.live n

/-- A destructor that unmaps clears the entry of its value. -/
theorem free {munmap : Option Errno} {r : Ended (Option Addr)} (h : w.Owned l)
    (hi : w.value i = some s) (hs : s.deinit munmap w.world = some r) (hr : r.status = none) :
    (custody ι).permits l (.released i (w.names.target i)) ∧
      (StackWorld.setValue { w with
        world := r.world
        live := Function.update w.live s.base none } i none).Owned
        ((custody ι).next l (.released i (w.names.target i))) := by
  unfold NativeStack.deinit at hs
  split_ifs at hs with hbase
  obtain rfl := Option.some.inj hs
  obtain ⟨e, he, heq⟩ := h.entry hi hbase
  have hknown : w.names.name i = some s.base := (name_value hi).trans (if_neg hbase)
  obtain ⟨-, hok, hfail⟩ := h.registry.free_entry he munmap
  rw [heq] at hok hfail
  cases munmap with
  | some err =>
    rw [hfail err rfl] at hr
    cases hr
  | none =>
    obtain ⟨-, -, -, hperm⟩ := hok rfl
    obtain ⟨hp, hkeeps⟩ := h.names.release hknown
    refine ⟨hp, h.registry.free _ _, fun n => ?_, ?_⟩
    · change Function.update w.live s.base none n ≠ none ↔
        ∃ r ∈ (mjsStackFree (some s.base) none w.world).world.entries, r.base = n
      have hnodup := (hperm.map (·.base)).nodup_iff.mp h.registry.nodup_bases
      rw [List.map_cons, List.nodup_cons, heq] at hnodup
      by_cases hn : n = s.base
      · subst hn
        simp only [Function.update_self, ne_eq, not_true_eq_false, false_iff]
        rintro ⟨e', he', heq'⟩
        exact hnodup.1 (List.mem_map.mpr ⟨e', he', heq'⟩)
      · rw [Function.update_of_ne hn, h.live n]
        simp only [hperm.mem_iff, List.mem_cons, exists_eq_or_imp]
        have hne : e.base ≠ n := fun hen => hn (hen.symm.trans heq)
        simp [hne]
    · rw [names_setValue]
      exact hkeeps

/-- A destructor whose `munmap` fails changes nothing. -/
theorem leak {munmap : Option Errno} {r : Ended (Option Addr)} (h : w.Owned l)
    (hi : w.value i = some s) (hs : s.deinit munmap w.world = some r) (hr : r.status ≠ none) :
    (custody ι).permits l (.lost i (w.names.target i)) ∧
      (StackWorld.setValue { w with world := r.world } i none).Owned
        ((custody ι).next l (.lost i (w.names.target i))) := by
  unfold NativeStack.deinit at hs
  split_ifs at hs with hbase
  obtain rfl := Option.some.inj hs
  obtain ⟨e, he, heq⟩ := h.entry hi hbase
  obtain ⟨-, hok, hfail⟩ := h.registry.free_entry he munmap
  rw [heq] at hok hfail
  obtain ⟨hp, hkeeps⟩ := h.names.lose ((name_value hi).trans (if_neg hbase))
  cases munmap with
  | none => exact absurd (hok rfl).1 hr
  | some err =>
    rw [hfail err rfl]
    refine ⟨hp, h.of_eq rfl rfl rfl rfl ?_⟩
    rw [names_setValue]
    exact hkeeps

/-- A `grow` leaves the registry and the base of its value alone. -/
theorem grow_eq (sys : BitVec 64) (s : NativeStack) (additional : BitVec 64)
    (mprotect : Option Errno) (w : World) :
    (s.grow sys additional mprotect w).world.resv = w.resv ∧
      (s.grow sys additional mprotect w).world.mapped = w.mapped ∧
      (s.grow sys additional mprotect w).stack.known = s.known := by
  rcases grow_cases sys s additional mprotect w with ⟨err, he⟩ | he | ⟨-, -, he⟩
  · rw [he]
    exact ⟨rfl, rfl, rfl⟩
  · rw [he]
    exact ⟨rfl, rfl, rfl⟩
  · rw [he]
    exact ⟨rfl, rfl, rfl⟩

/-- Every step shows what the custody of the reservations permits. -/
theorem step (h : w.Owned l) (hs : StackStep sys w es w') :
    (custody ι).Accepts l es ∧ w'.Owned ((custody ι).after l es) := by
  cases hs with
  | create hi hf hs =>
    obtain ⟨hp, ho⟩ := h.create hi hf hs
    exact ⟨⟨trivial, hp⟩, ho⟩
  | fail hf hs =>
    obtain ⟨-, hentries, -⟩ := alloc_failed hs
    refine ⟨trivial, h.registry.alloc hf, fun n => ?_, h.names⟩
    change w.live n ≠ none ↔ _
    rw [h.live n, hentries]
  | @grow i s additional mprotect hi =>
    obtain ⟨hresv, hmapped, hknown⟩ := grow_eq sys s additional mprotect w.world
    have hname := name_value hi
    have howned : (StackWorld.setValue
        { w with world := (s.grow sys additional mprotect w.world).world } i
        (some (s.grow sys additional mprotect w.world).stack)).Owned l := by
      refine h.of_eq hresv hmapped rfl rfl ?_
      rw [names_setValue, Option.bind_some, hknown]
      change (w.names.tell i s.known).Keeps l
      rw [Names.tell_eq_self hname]
      exact h.names
    cases hk : s.known with
    | none => exact ⟨trivial, howned⟩
    | some n =>
      rw [hk] at hname
      exact ⟨⟨trivial, h.names.use hname⟩, howned⟩
  | @move i j s hi hj =>
    have hname := name_value hi
    have hmoved : NativeStack.moved.known = none := rfl
    cases hk : s.known with
    | none =>
      rw [hk] at hname
      refine ⟨trivial, h.of_eq rfl rfl rfl rfl ?_⟩
      rw [names_setValue, names_setValue, Option.bind_some, Option.bind_some, hmoved, hk,
        Names.tell_eq_self hname, Names.tell_eq_self (name_none hj)]
      exact h.names
    | some n =>
      rw [hk] at hname
      obtain ⟨hp, hkeeps⟩ := h.names.pass hname (name_none hj)
      refine ⟨⟨trivial, hp⟩, h.of_eq rfl rfl rfl rfl ?_⟩
      rw [names_setValue, names_setValue, Option.bind_some, Option.bind_some, hmoved, hk]
      exact hkeeps
  | @drop i s munmap hi hs =>
    have hbase : s.base = 0 := by
      by_contra hne
      rw [NativeStack.deinit, if_pos hne] at hs
      cases hs
    refine ⟨trivial, h.of_eq rfl rfl rfl rfl ?_⟩
    rw [names_setValue, Option.bind_none,
      Names.tell_eq_self ((name_value hi).trans (if_pos hbase))]
    exact h.names
  | free hi hs hr =>
    obtain ⟨hp, ho⟩ := h.free hi hs hr
    exact ⟨⟨trivial, hp⟩, ho⟩
  | leak hi hs hr =>
    obtain ⟨hp, ho⟩ := h.leak hi hs hr
    exact ⟨⟨trivial, hp⟩, ho⟩

end StackWorld.Owned

/-- The process keeps the custody of the reservations. -/
theorem stack_simulates (sys : BitVec 64) :
    (stackSystem ι sys).Simulates (custody ι) StackWorld.Owned where
  start w hw := by
    refine ⟨⟨?_, ?_, ?_⟩, fun n => ?_, ?_⟩
    · rw [World.entries, hw.resv, hw.mapped, hw.leaks]
      exact .refl _
    · rw [hw.mapped]
      exact .nil
    · intro r hr
      rw [hw.mapped] at hr
      cases hr
    · rw [World.entries, hw.resv, hw.live]
      simp [entriesOf]
    · have hnames : w.names = ⟨fun _ => none, w.made, fun _ => none⟩ := by
        refine Names.ext (funext hw.live) rfl (funext fun i => ?_)
        simp [StackWorld.names, hw.value]
      rw [hnames]
      refine Names.Keeps.start _ _ (fun n d hd => ?_) fun n n' d hd => ?_
      · cases hd
      · cases hd
  step _ _ _ _ h hs := h.step hs

/-- What a program may rely on. -/
structure StackOwnerLaw (w : StackWorld ι) (tr : List (CustodyEvent ι)) : Prop where
  accepted : (custody ι).Accepts (custody ι).start tr
  once : (releasedIn tr).Nodup
  /-- What is not unmapped has one owner, or was left by a destructor. -/
  owner : ∀ d ∈ madeIn tr, d ∉ releasedIn tr → d ∉ lostIn tr → ∃! i, w.names.target i = some d
  /-- The destructor of a value unmaps the whole of its reservation, unless the `munmap` fails. -/
  unmaps : ∀ i s, w.value i = some s → s.base ≠ 0 → ∃ r ∈ w.world.entries, r.base = s.base ∧
    ∀ munmap, (mjsStackFree (some s.base) munmap w.world).status = munmap ∧
      (mjsStackFree (some s.base) munmap w.world).unmaps = [(r, munmap.isNone)]
  apart : ∀ i j s t, i ≠ j → w.value i = some s → w.value j = some t → s.base ≠ 0 → t.base ≠ 0 →
    ∃ r ∈ w.world.mapped, ∃ r' ∈ w.world.mapped, r.base = s.base ∧ r'.base = t.base ∧ r.Apart r'

/-- In every run of a process with any number of stacks, whatever the system calls answer, each
reservation is unmapped at most once, by the destructor of its owner; the reservations of two values
do not overlap; and a destructor finds the entry of its value and unmaps the whole of it. -/
theorem stacks_keep_custody {sys : BitVec 64} {w : StackWorld ι} {tr : List (CustodyEvent ι)}
    (hr : (stackSystem ι sys).Run tr w) : StackOwnerLaw w tr := by
  obtain ⟨hacc, h⟩ := (stack_simulates sys).run hr
  have haccount := accounted_of_accepts hacc
  refine ⟨hacc, haccount.once, fun d => h.names.existsUnique_holder haccount,
    fun i s hi hs => ?_, fun i j s t hij hi hj hs ht => ?_⟩
  · obtain ⟨r, hmem, heq⟩ := h.entry hi hs
    refine ⟨r, hmem, heq, fun munmap => ?_⟩
    obtain ⟨hunmaps, hok, hfail⟩ := h.registry.free_entry hmem munmap
    rw [heq] at hunmaps hok hfail
    refine ⟨?_, hunmaps⟩
    cases munmap with
    | none => exact (hok rfl).1
    | some err => rw [hfail err rfl]
  · obtain ⟨r, hmem, heq⟩ := h.entry hi hs
    obtain ⟨r', hmem', heq'⟩ := h.entry hj ht
    have hne : r ≠ r' := by
      rintro rfl
      refine hij (h.names.name_inj (n := s.base) ?_ ?_)
      · exact (StackWorld.Owned.name_value hi).trans (if_neg hs)
      · rw [StackWorld.Owned.name_value hj, NativeStack.known, if_neg ht, ← heq', heq]
    exact ⟨r, h.registry.mem_mapped hmem, r', h.registry.mem_mapped hmem', heq, heq',
      h.registry.apart.forall (h.registry.mem_mapped hmem) (h.registry.mem_mapped hmem') hne⟩

end Steps

/-- A process before its first stack. -/
def noStacks : StackWorld Unit := ⟨emptyWorld, [], fun _ => none, 0, fun _ => none⟩

/-- A stack of sixteen pages, which is destroyed. -/
theorem stacks_keep_custody_one :
    ∃ w : StackWorld Unit, StackOwnerLaw w [.released () (some 0), .made () 0] := by
  have hr₀ : (stackSystem Unit 4096).Run [] noStacks :=
    .start ⟨rfl, rfl, rfl, fun _ => rfl, fun _ => rfl⟩
  let ans : AllocAnswers := ⟨.ok 0x10000, .ok, true, true⟩
  have hgeometry : stackGeometry (pageSize 4096) 0x10000 0x2000 0x1000 =
      some ⟨0x1000, 0x10000, 0x2000⟩ := by decide +kernel
  have hf : ∀ g, stackGeometry (pageSize 4096) 0x10000 0x2000 0x1000 = some g →
      Fresh emptyWorld g.total ans.mmap := by
    intro g hg base hb
    cases hb
    cases Option.some.inj (hgeometry.symm.trans hg)
    exact ⟨by decide, by decide, nofun⟩
  have hr₁ := hr₀.step (@StackStep.create _ _ 4096 _ () 0x10000 0x2000 0x1000 ans _ _ rfl hf rfl)
  have hr₂ := hr₁.step (@StackStep.free _ _ 4096 _ () _ none _ rfl rfl rfl)
  exact ⟨_, stacks_keep_custody hr₂⟩

end MojitoSys.Memory
