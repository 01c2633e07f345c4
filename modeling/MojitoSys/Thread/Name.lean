import MojitoSys.Io.SocketAddress
import MojitoSys.Thread.Handle
import MojitoSys.Util.Ledger
import MojitoSys.Util.WordBytes
import Mathlib.Data.List.TakeWhile

/-!
# The name of a thread, and its spawn

A name goes from a string into the two words of `ThreadOptions`, from there into a cell of 16 bytes,
as a C string through `mjs_thread_spawn` into the name field of the handle, and from there, in the
new thread, into `pthread_setname_np`. `set_current_thread_name` takes a shorter way to the same
call. The spawn acquires an attribute object and the block of the handle, and gives back whatever it
acquired when one of its calls fails.

## Main definitions

* `ThreadOptions`, `threadFillNameCell`, `mjsThreadSpawn`, `trampolineName`: the way of a name.
* `setCurrentThreadName`: the other way.
* `ThreadNameLaw`: what becomes of a name.

## Main results

* `fillNameCell_init`: packing and unpacking a name is copying it.
* `mjsThreadSpawn_cases`: a spawn does all of its work or nothing.
* `thread_name_law`: the law holds.
-/

namespace MojitoSys.Thread

open Util Util.Buffer Util.Ledger

/-! ### The options -/

/-- `MJS_THREAD_NAME_MAX`. -/
def MJS_THREAD_NAME_MAX : ℕ := 15

/-- `ENAMETOOLONG_RC`, which has the number of Darwin on every host. -/
def ENAMETOOLONG_RC : Errno := .other 63

/-- `ThreadOptions`. -/
structure ThreadOptions where
  nameLo : UInt64
  nameHi : UInt64
  nameLen : ℕ
  nameTooLong : Bool
  stackSize : Int64
  priorityHint : Int64

/-- The body of the loop of `ThreadOptions.__init__`. -/
def packByte (src : List UInt8) (o : ThreadOptions) (i : ℕ) : ThreadOptions :=
  if i < 8 then { o with nameLo := orByte o.nameLo i (src.getD i 0) }
  else { o with nameHi := orByte o.nameHi (i - 8) (src.getD i 0) }

/-- `ThreadOptions.__init__`. -/
def ThreadOptions.init (name : List UInt8) (stackSize priorityHint : Int64) : ThreadOptions :=
  let n := name.length
  let nameLen := if n ≤ 15 then n else 15
  (List.range nameLen).foldl (packByte name)
    ⟨0, 0, nameLen, decide (15 < n), stackSize, priorityHint⟩

/-- Byte `i` of the name, as `thread_fill_name_cell` reads it. -/
def ThreadOptions.nameByte (o : ThreadOptions) (i : ℕ) : UInt8 :=
  byteOf (if i < 8 then o.nameLo else o.nameHi) (i % 8)

/-- `thread_fill_name_cell`: the cell to pass on, which is `none` for `NULL`. -/
def threadFillNameCell (o : ThreadOptions) (cell : Buffer) : Except Errno (Option Buffer) :=
  if o.nameTooLong then .error ENAMETOOLONG_RC
  else if o.nameLen = 0 then .ok none
  else
    let cell := (List.range o.nameLen).foldl (fun c i => Function.update c i (o.nameByte i)) cell
    .ok (some (Function.update cell o.nameLen 0))

/-! ### The spawn -/

/-- The answers of the operating system to the calls of a spawn. -/
structure SpawnAnswers where
  attrInit : Status
  setStackSize : UInt64 → Status
  /-- `calloc` has a block. -/
  calloc : Bool
  create : Status

/-- No call fails in a spawn for an entry that is not `NULL`. -/
def SpawnAnswers.Grants (a : SpawnAnswers) (entry : BitVec 64) (stackSize : UInt64) : Prop :=
  entry ≠ 0 ∧ a.attrInit = none ∧ (stackSize ≠ 0 → a.setStackSize stackSize = none) ∧
    a.calloc = true ∧ a.create = none

/-- What a spawn acquires. -/
inductive SpawnResource
  | attr
  | block
  deriving DecidableEq, Repr

/-- `struct mjs_thread` at the start of the new thread. -/
structure ThreadBlock where
  entry : BitVec 64
  userdata : BitVec 64
  name : Buffer
  handle : Handle

/-- How a spawn ends: its status, `*out`, and its log. -/
structure SpawnEnded where
  status : Status
  out : Option ThreadBlock
  log : List (Entry SpawnResource)

/-- `mjs_thread_spawn`, for an `out` that is not `NULL`; the name is a C string. -/
def mjsThreadSpawn (host : Io.Host) (a : SpawnAnswers) (entry userdata : BitVec 64)
    (stackSize : UInt64) (name : Option (List UInt8)) (out : Option ThreadBlock) : SpawnEnded :=
  let name := name.getD []
  if entry = 0 then ⟨some .EINVAL, out, []⟩
  else if MJS_THREAD_NAME_MAX < name.length then ⟨some (Io.hostEnametoolong host), out, []⟩
  else
    match a.attrInit with
    | some rc => ⟨some rc, out, []⟩
    | none =>
      let log : List (Entry SpawnResource) := [.acquire .attr]
      match if stackSize = 0 then none else a.setStackSize stackSize with
      | some rc => ⟨some rc, out, log ++ [.release .attr]⟩
      | none =>
        if a.calloc = false then ⟨some .ENOMEM, out, log ++ [.release .attr]⟩
        else
          let log := log ++ [.acquire .block]
          let h : ThreadBlock :=
            { entry := entry
              userdata := userdata
              name := store (fun _ => 0) 0 name
              handle := spawned.handle }
          match a.create with
          | some rc => ⟨some rc, out, log ++ [.release .attr, .release .block]⟩
          | none => ⟨none, some h, log ++ [.release .attr]⟩

/-- The name that the trampoline passes to `pthread_setname_np`, if it calls it. -/
def trampolineName (self : ThreadBlock) : Option (List UInt8) :=
  if self.name 0 ≠ 0 then some (stringAt self.name 16) else none

/-- `spawn_native_thread` with the cell that `thread_fill_name_cell` fills. -/
def spawnNativeThread (host : Io.Host) (a : SpawnAnswers) (entry userdata : BitVec 64)
    (stackSize : Int64) (cell : Option Buffer) : SpawnEnded :=
  mjsThreadSpawn host a entry userdata stackSize.toUInt64 (cell.map fun c => stringAt c 16) none

/-! ### The calling thread -/

/-- `_name_cell`, which fills `buf`. -/
def nameCell (name : List UInt8) (buf : Buffer) : Except Errno Buffer :=
  if 15 < name.length then .error ENAMETOOLONG_RC
  else .ok ((buf.store 0 name).store name.length [0])

/-- `mjs_thread_set_name`: the name passed to `pthread_setname_np`, which answers `rc`, and the
status. -/
def mjsThreadSetName (host : Io.Host) (name : Option (List UInt8)) (rc : Status) :
    Option (List UInt8) × Status :=
  match name with
  | none => (none, some .EINVAL)
  | some name =>
    if MJS_THREAD_NAME_MAX < name.length then (none, some (Io.hostEnametoolong host))
    else (some name, rc)

/-- `set_current_thread_name`: the name passed to `pthread_setname_np`, and what it raises. -/
def setCurrentThreadName (host : Io.Host) (name : List UInt8) (buf : Buffer) (rc : Status) :
    Option (List UInt8) × Status :=
  if name.length = 0 then (none, some .EINVAL)
  else
    match nameCell name buf with
    | .error e => (none, some e)
    | .ok buf => mjsThreadSetName host (some (stringAt buf 16)) rc

/-- Either no call failed, and the thread of the spawn gives itself the name `s`, unless that is
empty; or the spawn failed, gave back what it acquired and left `*out` as it was. -/
def SpawnedAs (granted : Prop) (entry userdata : BitVec 64) (s : List UInt8) (r : SpawnEnded) :
    Prop :=
  (granted ∧ r.status = none ∧ Leaves r.log [.block] ∧ ∃ h, r.out = some h ∧ h.entry = entry ∧
      h.userdata = userdata ∧ h.handle = spawned.handle ∧
      trampolineName h = if s = [] then none else some s) ∨
    (¬ granted ∧ r.status ≠ none ∧ Balanced r.log ∧ r.out = none)

/-- What becomes of a name, from any contents of the stack cells and for any answers of the system.
A name of at most 15 bytes comes whole out of the two words, into the cell and before a zero byte.
Up to its first zero byte it is the name that a new thread gives itself and that the calling thread
gives itself, where an empty name means none for the first and an error for the second; a longer
one is refused before anything is called. -/
structure ThreadNameLaw (host : Io.Host) (name : List UInt8) : Prop where
  pack : name.length ≤ 15 → name ≠ [] → ∀ stackSize priorityHint cell,
    threadFillNameCell (.init name stackSize priorityHint) cell =
      .ok (some ((cell.store 0 name).store name.length [0]))
  spawn : name.length ≤ 15 → ∀ stackSize priorityHint cell, ∃ c,
    threadFillNameCell (.init name stackSize priorityHint) cell = .ok c ∧
      ∀ (a : SpawnAnswers) entry userdata, SpawnedAs (a.Grants entry stackSize.toUInt64) entry
        userdata (name.takeWhile (· ≠ 0)) (spawnNativeThread host a entry userdata stackSize c)
  rename : name.length ≤ 15 → name ≠ [] → ∀ buf rc,
    setCurrentThreadName host name buf rc = (some (name.takeWhile (· ≠ 0)), rc)
  empty : name = [] → ∀ buf rc, setCurrentThreadName host name buf rc = (none, some .EINVAL)
  tooLong : 15 < name.length →
    (∀ stackSize priorityHint cell, threadFillNameCell (.init name stackSize priorityHint) cell =
      .error ENAMETOOLONG_RC) ∧
    ∀ buf rc, setCurrentThreadName host name buf rc = (none, some ENAMETOOLONG_RC)

/-! ### Packing and unpacking -/

section Pack

variable {name : List UInt8} {o : ThreadOptions} {i k : ℕ}

/-- The loop of the constructor adds one byte to the name. -/
theorem nameByte_packByte (hi : i < 16) (hk : k < 16) : (packByte name o k).nameByte i =
    if i = k then o.nameByte i ||| name.getD k 0 else o.nameByte i := by
  simp only [ThreadOptions.nameByte, packByte]
  by_cases hi8 : i < 8 <;> by_cases hk8 : k < 8
  · simp only [hi8, hk8, if_true]
    rw [byteOf_orByte (by omega) hk8, Nat.mod_eq_of_lt hi8]
  · simp only [hi8, hk8, if_true, if_false]
    rw [if_neg (by omega)]
  · simp only [hi8, hk8, if_true, if_false]
    rw [if_neg (by omega)]
  · simp only [hi8, hk8, if_false]
    rw [byteOf_orByte (by omega) (by omega)]
    exact if_congr (by omega) rfl rfl

/-- The loop of the constructor leaves the other fields. -/
theorem packByte_fields : (packByte name o k).nameLen = o.nameLen ∧
    (packByte name o k).nameTooLong = o.nameTooLong := by
  rw [packByte]
  split_ifs <;> exact ⟨rfl, rfl⟩

/-- The name after some rounds of the loop. -/
theorem nameByte_foldl (hk : k ≤ 16) (hi : i < 16) (ho : ∀ i, o.nameByte i = 0) :
    ((List.range k).foldl (packByte name) o).nameByte i = if i < k then name.getD i 0 else 0 := by
  induction k with
  | zero => exact ho i
  | succ k ih =>
    rw [List.range_succ, List.foldl_append, List.foldl_cons, List.foldl_nil,
      nameByte_packByte hi (by omega), ih (by omega)]
    by_cases hik : i = k
    · subst hik
      simp
    · rw [if_neg hik]
      exact if_congr (by omega) rfl rfl

theorem foldl_fields (ks : List ℕ) : (ks.foldl (packByte name) o).nameLen = o.nameLen ∧
    (ks.foldl (packByte name) o).nameTooLong = o.nameTooLong := by
  induction ks generalizing o with
  | nil => exact ⟨rfl, rfl⟩
  | cons k ks ih =>
    rw [List.foldl_cons, ih.1, ih.2]
    exact packByte_fields

/-- Packing and unpacking a name is copying it. -/
theorem fillNameCell_init (hlen : name.length ≤ 15) (hne : name ≠ []) (stack prio : Int64)
    (cell : Buffer) : threadFillNameCell (.init name stack prio) cell =
      .ok (some ((cell.store 0 name).store name.length [0])) := by
  set o₀ : ThreadOptions := ⟨0, 0, name.length, false, stack, prio⟩
  have hinit : ThreadOptions.init name stack prio =
      (List.range name.length).foldl (packByte name) o₀ := by
    have hlong : decide (15 < name.length) = false := decide_eq_false (Nat.not_lt.mpr hlen)
    simp only [ThreadOptions.init, if_pos hlen, hlong, o₀]
  obtain ⟨hn, hlong⟩ := @foldl_fields name o₀ (List.range name.length)
  have hzero (i : ℕ) : o₀.nameByte i = 0 := by simp [ThreadOptions.nameByte, o₀]
  have hbytes : (List.range name.length).map
      ((List.range name.length).foldl (packByte name) o₀).nameByte = name := by
    refine List.ext_getElem (by simp) fun i hi hi' => ?_
    rw [List.getElem_map, List.getElem_range, nameByte_foldl (by omega) (by omega) hzero,
      if_pos hi', List.getD_eq_getElem _ _ hi']
  rw [hinit, threadFillNameCell, hlong, hn]
  have hpos : name.length ≠ 0 := fun h0 => hne (List.length_eq_zero_iff.mp h0)
  rw [if_neg (by simp [o₀]), if_neg hpos, foldl_update, hbytes]
  rfl

end Pack

/-! ### The spawn -/

section Spawn

variable {host : Io.Host} {a : SpawnAnswers} {entry userdata : BitVec 64}

/-- The attribute object is given back at every end of a spawn. -/
theorem leaves_spawn : Balanced (α := SpawnResource) ([.acquire .attr] ++ [.release .attr]) ∧
    Leaves (α := SpawnResource) ([.acquire .attr] ++ [.acquire .block] ++ [.release .attr])
      [.block] ∧
    Balanced (α := SpawnResource)
      ([.acquire .attr] ++ [.acquire .block] ++ [.release .attr, .release .block]) :=
  ⟨(leaves_acquire [SpawnResource.attr]).release (List.Perm.refl _),
    (leaves_acquire [SpawnResource.attr, .block]).release_part (l := [.block]) [SpawnResource.attr],
    (leaves_acquire [SpawnResource.attr, .block]).release (List.Perm.refl _)⟩

/-- A spawn does all of its work or nothing. -/
theorem mjsThreadSpawn_cases (host : Io.Host) (a : SpawnAnswers) (entry userdata : BitVec 64)
    (stackSize : UInt64) {name : Option (List UInt8)} (hname : (name.getD []).length ≤ 15)
    (out : Option ThreadBlock) :
    let r := mjsThreadSpawn host a entry userdata stackSize name out
    (a.Grants entry stackSize ∧ r.status = none ∧ Leaves r.log [.block] ∧
        r.out = some ⟨entry, userdata, store (fun _ => 0) 0 (name.getD []), spawned.handle⟩) ∨
      (¬ a.Grants entry stackSize ∧ r.status ≠ none ∧ Balanced r.log ∧ r.out = out) := by
  intro r
  obtain ⟨hattr, hblock, hboth⟩ := leaves_spawn
  have hlong : ¬ MJS_THREAD_NAME_MAX < (name.getD []).length := Nat.not_lt.mpr hname
  by_cases hentry : entry = 0
  · right
    simp only [r, mjsThreadSpawn, if_pos hentry]
    exact ⟨fun h => h.1 hentry, by simp, Balanced.nil, trivial⟩
  cases hinit : a.attrInit with
  | some rc =>
    right
    simp only [r, mjsThreadSpawn, if_neg hentry, if_neg hlong, hinit]
    exact ⟨fun h => by simp [SpawnAnswers.Grants, hinit] at h, by simp, Balanced.nil, trivial⟩
  | none =>
    cases hsize : if stackSize = 0 then none else a.setStackSize stackSize with
    | some rc =>
      right
      simp only [r, mjsThreadSpawn, if_neg hentry, if_neg hlong, hinit, hsize]
      refine ⟨fun h => ?_, by simp, hattr, trivial⟩
      split_ifs at hsize with h0
      rw [h.2.2.1 h0] at hsize
      cases hsize
    | none =>
      have hstack (h0 : stackSize ≠ 0) : a.setStackSize stackSize = none := by
        rwa [if_neg h0] at hsize
      by_cases hcalloc : a.calloc = false
      · right
        simp only [r, mjsThreadSpawn, if_neg hentry, if_neg hlong, hinit, hsize, if_pos hcalloc]
        exact ⟨fun h => by simp [SpawnAnswers.Grants, hcalloc] at h, by simp, hattr, trivial⟩
      cases hcreate : a.create with
      | some rc =>
        right
        simp only [r, mjsThreadSpawn, if_neg hentry, if_neg hlong, hinit, hsize, if_neg hcalloc,
          hcreate]
        exact ⟨fun h => by simp [SpawnAnswers.Grants, hcreate] at h, by simp, hboth, trivial⟩
      | none =>
        left
        simp only [r, mjsThreadSpawn, if_neg hentry, if_neg hlong, hinit, hsize, if_neg hcalloc,
          hcreate]
        exact ⟨⟨hentry, hinit, hstack, Bool.eq_true_of_not_eq_false hcalloc, hcreate⟩, trivial,
          hblock, trivial⟩

/-- The trampoline finds the name that the spawn stored. -/
theorem trampolineName_eq {h : ThreadBlock} {s : List UInt8} (hs : 0 ∉ s) (hlen : s.length ≤ 15)
    (hname : h.name = store (fun _ => 0) 0 s) :
    trampolineName h = if s = [] then none else some s := by
  have hnul : store (fun _ => 0) 0 s s.length = 0 := store_of_disjoint (Or.inr (by omega))
  have hstore : store (store (fun _ => 0) 0 s) s.length [0] = store (fun _ => 0) 0 s :=
    (Function.update_eq_self_iff).mpr hnul.symm
  have hall : ∀ b ∈ s, decide (b ≠ 0) = true := fun b hb =>
    decide_eq_true fun h0 => hs (h0 ▸ hb)
  have hstring : stringAt h.name 16 = s := by
    rw [hname, ← hstore, stringAt_store (by omega), List.takeWhile_eq_self_iff.mpr hall]
  rw [trampolineName, hstring, hname]
  cases s with
  | nil => rfl
  | cons b s =>
    have hb : store (fun _ => 0) 0 (b :: s) 0 = b := store_add (i := 0) (by simp)
    have hne : b ≠ 0 := fun h0 => hs (by simp [h0])
    rw [hb, if_pos hne, if_neg (by simp)]

/-- A spawn with the string in a cell, or without a cell for the empty string. -/
theorem spawnedAs_spawnNativeThread {stackSize : Int64} {cell : Option Buffer} {s : List UInt8}
    (hcell : (cell.map fun c => stringAt c 16).getD [] = s) (hs : 0 ∉ s) (hlen : s.length ≤ 15) :
    SpawnedAs (a.Grants entry stackSize.toUInt64) entry userdata s
      (spawnNativeThread host a entry userdata stackSize cell) := by
  rcases mjsThreadSpawn_cases host a entry userdata stackSize.toUInt64 (hcell ▸ hlen) none with
    ⟨hgrants, hrc, hlog, hout⟩ | hfailed
  · rw [hcell] at hout
    exact Or.inl ⟨hgrants, hrc, hlog, _, hout, rfl, rfl, rfl, trampolineName_eq hs hlen rfl⟩
  · exact Or.inr hfailed

end Spawn

/-! ### The law -/

/-- **The way of a name** loses nothing but what follows a zero byte. -/
theorem thread_name_law (host : Io.Host) (name : List UInt8) : ThreadNameLaw host name where
  pack := fillNameCell_init
  spawn := by
    intro hlen stack prio cell
    by_cases hne : name = []
    · subst hne
      exact ⟨none, rfl, fun a entry userdata => spawnedAs_spawnNativeThread rfl (by simp) (by simp)⟩
    · refine ⟨_, fillNameCell_init hlen hne stack prio cell, fun a entry userdata => ?_⟩
      refine spawnedAs_spawnNativeThread ?_ (fun h0 => ?_) ?_
      · exact stringAt_store (show name.length < 16 by omega)
      · simpa using List.mem_takeWhile_imp h0
      · exact (List.takeWhile_prefix _).length_le.trans hlen
  rename := by
    intro hlen hne buf rc
    have hpos : name.length ≠ 0 := fun h0 => hne (List.length_eq_zero_iff.mp h0)
    have htake : (name.takeWhile (· ≠ 0)).length ≤ 15 :=
      (List.takeWhile_prefix _).length_le.trans hlen
    rw [setCurrentThreadName, if_neg hpos, nameCell, if_neg (Nat.not_lt.mpr hlen)]
    simp only [stringAt_store (show name.length < 16 by omega)]
    exact if_neg (Nat.not_lt.mpr htake)
  empty := by
    rintro rfl buf rc
    rfl
  tooLong := by
    intro hlong
    refine ⟨fun stack prio cell => ?_, fun buf rc => ?_⟩
    · have hflag : (ThreadOptions.init name stack prio).nameTooLong = true :=
        (foldl_fields _).2.trans (decide_eq_true hlong)
      rw [threadFillNameCell, if_pos hflag]
    · rw [setCurrentThreadName, if_neg (by omega), nameCell, if_pos hlong]

end MojitoSys.Thread
