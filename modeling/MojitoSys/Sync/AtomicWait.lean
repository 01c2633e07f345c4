import MojitoSys.Sync.Token
import MojitoSys.Util.LinkedQueue

/-!
# Atomic wait and wake

The macOS fallback of `mjs_atomic_wait.c`: a table of slots, each with a mutex, a condition
variable and a queue of records that live on the stacks of the waiting threads. The word that a
wait watches is read under the mutex of its slot and written without any mutex.

Every call is a process. A wait takes the mutex of its slot, compares the word, links its record,
parks, and looks at its record when the condition variable returns; a wake takes the mutex, splices
the matching records out of the queue, marks them, and broadcasts. The walks over the queue are
loops without a bound in the source; here they carry fuel, and a step exists when some fuel
suffices.

## Main definitions

* `slotFor`, `AwSlot`, `AwSlot.link`, `AwSlot.unlink`, `AwSlot.wake`.
* `AwCall`, `AwLabel`, `awCode`, `awProgram`: the code of the calls.
* `AwTable`, `TableStep`, `TableRun`: the table and the unprotected words.

## Main results

* `AwSlot.unlink_spec`, `AwSlot.wake_spec`: the walks over the queue.
* `AwSlot.exists_unlink`, `AwSlot.exists_wake`: the walks end.
* `TableRun.slot`: a run of the table is a run of every slot.
-/

namespace MojitoSys.Sync

open Util Util.Monitor

/-- An address. -/
abbrev Addr := BitVec 64

/-- The words that the calls watch. -/
abbrev Memory := Addr → BitVec 32

/-- `mjs_aw_slot_for`: the index of the slot of an address. -/
def slotFor (addr : Addr) : ℕ := (((addr >>> 2) * 0x9E3779B97F4A7C15) >>> 32 &&& 255).toNat

/-- The data of an `aw_slot`, with the fields of the records `aw_waiter` of all waits. -/
structure AwSlot (P : Type*) where
  /-- The head and the tail of the slot, and the `next` fields. -/
  queue : LinkedQueue P
  addr : P → Addr
  woken : P → Bool
  linked : P → Bool

namespace AwSlot

variable {P : Type*} [DecidableEq P]

/-- `mjs_aw_link`. -/
def link (d : AwSlot P) (w : P) : AwSlot P :=
  { d with queue := d.queue.append w, linked := Function.update d.linked w true }

/-- The loop of `mjs_aw_unlink` from the field `pp`. -/
def unlinkFrom (me : P) : ℕ → Link P → AwSlot P → Option (AwSlot P)
  | 0, _, _ => none
  | fuel + 1, pp, d =>
    match d.queue.get pp with
    | none => some d
    | some w =>
      if w = me then
        some { d with queue := d.queue.splice pp me, linked := Function.update d.linked me false }
      else unlinkFrom me fuel (.next w) d

/-- `mjs_aw_unlink`. -/
def unlink (fuel : ℕ) (d : AwSlot P) (me : P) : Option (AwSlot P) := unlinkFrom me fuel .head d

/-- Splice a record out and mark it. -/
def mark (d : AwSlot P) (pp : Link P) (w : P) : AwSlot P where
  queue := (d.queue.splice pp w).set (.next w) none
  addr := d.addr
  woken := Function.update d.woken w true
  linked := Function.update d.linked w false

/-- The loop of `mjs_atomic_wake_fallback` from the field `pp`, with `n` records marked. -/
def wakeFrom (addr : Addr) (all : Bool) : ℕ → Link P → AwSlot P → ℕ → Option (AwSlot P × ℕ)
  | 0, _, _, _ => none
  | fuel + 1, pp, d, n =>
    match d.queue.get pp with
    | none => some (d, n)
    | some w =>
      if d.addr w ≠ addr then wakeFrom addr all fuel (.next w) d n
      else if all then wakeFrom addr all fuel pp (d.mark pp w) (n + 1)
      else some (d.mark pp w, n + 1)

/-- The scan of `mjs_atomic_wake_fallback`. -/
def wake (fuel : ℕ) (d : AwSlot P) (addr : Addr) (all : Bool) : Option (AwSlot P × ℕ) :=
  wakeFrom addr all fuel .head d 0

/-! ### The walks over the queue -/

variable {d d' : AwSlot P} {ps qs : List P} {fuel : ℕ}

theorem unlinkFrom_spec {me : P} (ps : List P) (h : d.queue.Holds (ps ++ qs))
    (hd : unlinkFrom me fuel (Link.head.after ps) d = some d') :
    d'.queue.Holds (ps ++ qs.erase me) ∧ d'.addr = d.addr ∧ d'.woken = d.woken ∧
      (me ∈ qs → d'.linked = Function.update d.linked me false) := by
  induction qs generalizing ps fuel with
  | nil =>
    cases fuel with
    | zero => simp [unlinkFrom] at hd
    | succ fuel =>
      rw [List.append_nil] at h
      simp only [unlinkFrom, h.stop, Option.some.injEq] at hd
      subst hd
      exact ⟨by simpa using h, rfl, rfl, by simp⟩
  | cons w qs ih =>
    cases fuel with
    | zero => simp [unlinkFrom] at hd
    | succ fuel =>
      simp only [unlinkFrom, h.get_after] at hd
      split_ifs at hd with hw
      · subst hw
        simp only [Option.some.injEq] at hd
        subst hd
        rw [List.erase_cons_head]
        exact ⟨h.splice, rfl, rfl, fun _ => rfl⟩
      · rw [List.erase_cons_tail (by simpa using hw)]
        have h' : d.queue.Holds ((ps ++ [w]) ++ qs) := by simpa using h
        obtain ⟨hq, haddr, hwoken, hlinked⟩ :=
          ih (ps ++ [w]) h' (LinkedQueue.after_concat .head ps w ▸ hd)
        refine ⟨by simpa using hq, haddr, hwoken, fun hme => hlinked ?_⟩
        exact (List.mem_cons.mp hme).resolve_left (Ne.symm hw)

/-- `mjs_aw_unlink` takes the record out of the queue, and clears its flag. -/
theorem unlink_spec {me : P} (h : d.queue.Holds ps) (hd : d.unlink fuel me = some d') :
    d'.queue.Holds (ps.erase me) ∧ d'.addr = d.addr ∧ d'.woken = d.woken ∧
      (me ∈ ps → d'.linked = Function.update d.linked me false) :=
  unlinkFrom_spec [] h hd

theorem exists_unlinkFrom {me : P} (ps : List P) (h : d.queue.Holds (ps ++ qs)) :
    (unlinkFrom me (qs.length + 1) (Link.head.after ps) d).isSome := by
  induction qs generalizing ps with
  | nil =>
    rw [List.append_nil] at h
    simp [unlinkFrom, h.stop]
  | cons w qs ih =>
    simp only [List.length_cons, unlinkFrom, h.get_after]
    split_ifs with hw
    · rfl
    · have h' : d.queue.Holds ((ps ++ [w]) ++ qs) := by simpa using h
      rw [← LinkedQueue.after_concat .head ps w]
      exact ih (ps ++ [w]) h'

/-- The walk of `mjs_aw_unlink` ends. -/
theorem exists_unlink (h : d.queue.Holds ps) (me : P) : ∃ fuel d', d.unlink fuel me = some d' :=
  ⟨_, Option.isSome_iff_exists.mp (exists_unlinkFrom [] h)⟩

/-- What a wake takes from a queue, and what it leaves: the first record that matches, or all. -/
def handOff (sel : P → Prop) [DecidablePred sel] (all : Bool) : List P → List P × List P
  | [] => ([], [])
  | w :: ws =>
    if ¬ sel w then ((handOff sel all ws).1, w :: (handOff sel all ws).2)
    else if all then (w :: (handOff sel all ws).1, (handOff sel all ws).2)
    else ([w], ws)

theorem addr_mark (pp : Link P) (w : P) : (d.mark pp w).addr = d.addr := rfl

theorem woken_mark {pp : Link P} {w p : P} :
    (d.mark pp w).woken p = true ↔ p = w ∨ d.woken p = true := by
  by_cases hp : p = w
  · simp [mark, hp]
  · simp [mark, hp]

theorem linked_mark {pp : Link P} {w p : P} :
    (d.mark pp w).linked p = true ↔ d.linked p = true ∧ p ≠ w := by
  by_cases hp : p = w
  · simp [mark, hp]
  · simp [mark, hp]

theorem wakeFrom_spec {addr : Addr} {all : Bool} {n n' : ℕ} (ps : List P)
    (h : d.queue.Holds (ps ++ qs))
    (hd : wakeFrom addr all fuel (Link.head.after ps) d n = some (d', n')) :
    d'.queue.Holds (ps ++ (handOff (d.addr · = addr) all qs).2) ∧
      n' = n + (handOff (d.addr · = addr) all qs).1.length ∧ d'.addr = d.addr ∧
      (∀ p, d'.woken p = true ↔
        p ∈ (handOff (d.addr · = addr) all qs).1 ∨ d.woken p = true) ∧
      ∀ p, d'.linked p = true ↔
        d.linked p = true ∧ p ∉ (handOff (d.addr · = addr) all qs).1 := by
  induction qs generalizing ps fuel d n with
  | nil =>
    cases fuel with
    | zero => simp [wakeFrom] at hd
    | succ fuel =>
      rw [List.append_nil] at h
      simp only [wakeFrom, h.stop, Option.some.injEq, Prod.mk.injEq] at hd
      obtain ⟨rfl, rfl⟩ := hd
      simpa [handOff] using h
  | cons w qs ih =>
    cases fuel with
    | zero => simp [wakeFrom] at hd
    | succ fuel =>
      simp only [wakeFrom, h.get_after] at hd
      have hw : w ∉ ps ++ qs := (List.nodup_middle.mp h.nodup).notMem
      have hmark : (d.mark (Link.head.after ps) w).queue.Holds (ps ++ qs) := h.splice.set_next hw
      split_ifs at hd with hne hall
      · have h' : d.queue.Holds ((ps ++ [w]) ++ qs) := by simpa using h
        simpa [handOff, hne] using ih (ps ++ [w]) h' (LinkedQueue.after_concat .head ps w ▸ hd)
      · obtain ⟨hq, hn, haddr, hwoken, hlinked⟩ := ih ps hmark hd
        have heq : d.addr w = addr := not_not.mp hne
        have htaken : handOff (d.addr · = addr) all (w :: qs) =
            (w :: (handOff (d.addr · = addr) all qs).1, (handOff (d.addr · = addr) all qs).2) := by
          simp [handOff, heq, hall]
        rw [addr_mark] at hq hn haddr
        rw [htaken]
        refine ⟨hq, ?_, haddr, fun p => ?_, fun p => ?_⟩
        · rw [hn, List.length_cons]
          omega
        · rw [hwoken, woken_mark, addr_mark, List.mem_cons]
          tauto
        · rw [hlinked, linked_mark, addr_mark, List.mem_cons]
          tauto
      · have heq : d.addr w = addr := not_not.mp hne
        have htaken : handOff (d.addr · = addr) all (w :: qs) = ([w], qs) := by
          simp [handOff, heq, hall]
        simp only [Option.some.injEq, Prod.mk.injEq] at hd
        obtain ⟨rfl, rfl⟩ := hd
        rw [htaken]
        refine ⟨hmark, rfl, rfl, fun p => ?_, fun p => ?_⟩
        · rw [woken_mark, List.mem_singleton]
        · rw [linked_mark, List.mem_singleton]

/-- The scan of a wake takes records from the queue and counts them; it marks them, and clears
their flags. -/
theorem wake_spec {addr : Addr} {all : Bool} {n : ℕ} (h : d.queue.Holds ps)
    (hd : d.wake fuel addr all = some (d', n)) :
    d'.queue.Holds (handOff (d.addr · = addr) all ps).2 ∧
      n = (handOff (d.addr · = addr) all ps).1.length ∧ d'.addr = d.addr ∧
      (∀ p, d'.woken p = true ↔
        p ∈ (handOff (d.addr · = addr) all ps).1 ∨ d.woken p = true) ∧
      ∀ p, d'.linked p = true ↔
        d.linked p = true ∧ p ∉ (handOff (d.addr · = addr) all ps).1 := by
  simpa using wakeFrom_spec [] h hd

theorem exists_wakeFrom {addr : Addr} {all : Bool} {n : ℕ} (ps : List P)
    (h : d.queue.Holds (ps ++ qs)) :
    (wakeFrom addr all (qs.length + 1) (Link.head.after ps) d n).isSome := by
  induction qs generalizing ps d n with
  | nil =>
    rw [List.append_nil] at h
    simp [wakeFrom, h.stop]
  | cons w qs ih =>
    rw [List.length_cons, wakeFrom]
    simp only [h.get_after]
    split_ifs with hne hall
    · have h' : d.queue.Holds ((ps ++ [w]) ++ qs) := by simpa using h
      rw [← LinkedQueue.after_concat .head ps w]
      exact ih (ps ++ [w]) h'
    · have hmark : (d.mark (Link.head.after ps) w).queue.Holds (ps ++ qs) :=
        h.splice.set_next (List.nodup_middle.mp h.nodup).notMem
      exact ih ps hmark
    · rfl

/-- The scan of a wake ends. -/
theorem exists_wake (h : d.queue.Holds ps) (addr : Addr) (all : Bool) :
    ∃ fuel r, d.wake fuel addr all = some r :=
  ⟨_, Option.isSome_iff_exists.mp (exists_wakeFrom [] h)⟩

/-! ### What a wake takes -/

section HandOff

omit [DecidableEq P]

variable {sel : P → Prop} [DecidablePred sel] {all : Bool}

theorem handOff_perm (sel : P → Prop) [DecidablePred sel] (all : Bool) (ps : List P) :
    ((handOff sel all ps).1 ++ (handOff sel all ps).2).Perm ps := by
  induction ps with
  | nil => exact List.Perm.refl _
  | cons w ps ih =>
    unfold handOff
    split_ifs
    · exact ih.cons w
    · exact List.Perm.refl _
    · exact List.perm_middle.trans (ih.cons w)

theorem sel_of_mem_handOff (sel : P → Prop) [DecidablePred sel] {p : P}
    (hp : p ∈ (handOff sel all ps).1) : sel p := by
  induction ps with
  | nil => simp [handOff] at hp
  | cons w ps ih =>
    unfold handOff at hp
    split_ifs at hp with hw hall
    · rcases List.mem_cons.mp hp with rfl | hp
      · exact hw
      · exact ih hp
    · rw [List.mem_singleton.mp hp]
      exact hw
    · exact ih hp

theorem not_sel_of_mem_rest (sel : P → Prop) [DecidablePred sel] {p : P}
    (hp : p ∈ (handOff sel true ps).2) : ¬ sel p := by
  induction ps with
  | nil => simp [handOff] at hp
  | cons w ps ih =>
    unfold handOff at hp
    split_ifs at hp with hw htrue
    · exact ih hp
    · exact absurd rfl htrue
    · rcases List.mem_cons.mp hp with rfl | hp
      · exact hw
      · exact ih hp

theorem length_handOff_le : (handOff sel false ps).1.length ≤ 1 := by
  induction ps with
  | nil => simp [handOff]
  | cons w ps ih =>
    unfold handOff
    split_ifs with hw hfalse
    · exact absurd hfalse (by simp)
    · simp
    · exact ih

theorem length_handOff_pos {p : P} (hp : p ∈ ps) (hsel : sel p) :
    0 < (handOff sel all ps).1.length := by
  induction ps with
  | nil => simp at hp
  | cons w ps ih =>
    unfold handOff
    split_ifs with hw
    · simp
    · simp
    · rcases List.mem_cons.mp hp with rfl | hp
      · exact absurd hsel hw
      · exact ih hp

theorem handOff_sublist : (handOff sel all ps).2.Sublist ps := by
  induction ps with
  | nil => exact List.Sublist.refl _
  | cons w ps ih =>
    unfold handOff
    split_ifs
    · exact ih.cons w
    · exact (List.Sublist.refl ps).cons w
    · exact ih.cons_cons w

/-- A wake that takes one record takes the first one that matches. -/
theorem exists_append_of_handOff (h : ∃ p ∈ ps, sel p) :
    ∃ l p r, ps = l ++ p :: r ∧ sel p ∧ (∀ q ∈ l, ¬ sel q) ∧ (handOff sel false ps).1 = [p] := by
  induction ps with
  | nil => simp at h
  | cons w ps ih =>
    by_cases hw : sel w
    · exact ⟨[], w, ps, rfl, hw, by simp, by simp [handOff, hw]⟩
    · obtain ⟨p, hp, hsel⟩ := h
      have hps : ∃ p ∈ ps, sel p := by
        rcases List.mem_cons.mp hp with rfl | hp
        · exact absurd hsel hw
        · exact ⟨p, hp, hsel⟩
      obtain ⟨l, p, r, rfl, hp, hl, heq⟩ := ih hps
      exact ⟨w :: l, p, r, rfl, hp, by simpa [hw] using hl, by simpa [handOff, hw] using heq⟩

end HandOff

end AwSlot

/-! ### The calls -/

/-- The calls; the deadline of a wait only matters by its presence. -/
inductive AwCall
  | wait (addr : Addr) (expected : BitVec 32) (timed : Bool)
  | wake (addr : Addr) (all : Bool)
  deriving DecidableEq, Repr

/-- The address of a call. -/
def AwCall.addr : AwCall → Addr
  | .wait addr _ _ => addr
  | .wake addr _ => addr

/-- The places in the code of the calls. -/
inductive AwLabel
  /-- The call does not use this slot. -/
  | absent
  /-- The test of the loop of a wait. -/
  | check
  /-- The record is written and linked. -/
  | link
  /-- The wait on the condition variable. -/
  | park
  /-- The condition variable returned `rc`. -/
  | woke (rc : Status)
  | unlock (rc : Status)
  /-- A wait returned, or a call failed before its code in the slot. -/
  | done (rc : Status)
  /-- The loop of a wake. -/
  | scan
  /-- The broadcast of a wake that marked `n` records. -/
  | notify (n : ℕ)
  | unlockWake (n : ℕ)
  /-- A wake returned `n`. -/
  | doneWake (n : ℕ)
  deriving DecidableEq, Repr

section Program

variable {P : Type*} [DecidableEq P]

/-- `mjs_atomic_wait_fallback` and `mjs_atomic_wake_fallback`. -/
def awCode (fuel : ℕ) (me : P) (mem : Memory) :
    AwCall → AwLabel → AwSlot P → Option (Instr (AwSlot P) AwLabel)
  | .wait addr expected _, .check, d =>
    if mem addr ≠ expected then some (.act d (.unlock none)) else some (.act d .link)
  | .wait addr _ _, .link, d =>
    let d := { d with
      addr := Function.update d.addr me addr
      woken := Function.update d.woken me false }
    some (.act (d.link me) .park)
  | .wait _ _ _, .park, _ => some .wait
  | .wait _ _ _, .woke rc, d => do
    let d ← if d.woken me = false then d.unlink fuel me else some d
    if d.woken me = true then some (.act d (.unlock none))
    else if rc ≠ none then some (.act d (.unlock rc))
    else some (.act d .check)
  | .wait _ _ _, .unlock rc, _ => some (.unlock (.done rc))
  | .wake addr all, .scan, d => do
    let (d, n) ← d.wake fuel addr all
    some (.act d (.notify n))
  | .wake _ _, .notify n, d =>
    if 0 < n then some (.broadcast (.unlockWake n)) else some (.act d (.unlockWake n))
  | .wake _ _, .unlockWake n, _ => some (.unlock (.doneWake n))
  | _, _, _ => none

/-- The program of the calls in one slot. The condition variable may return for no reason and with
any error, but a deadline that is not there does not pass. -/
def awProgram (call : P → AwCall) : Program P Memory AwLabel (AwSlot P) where
  entry := {.check, .scan}
  refuse _ := {l | ∃ rc, rc ≠ none ∧ l = .done rc}
  code me mem l d i := ∃ fuel, awCode fuel me mem (call me) l d = some i
  back me
    | .park => {l | ∃ rc, l = .woke rc ∧
        (rc = some .ETIMEDOUT → ∃ addr expected, call me = .wait addr expected true)}
    | _ => ∅

/-- Where a call of `mjs_atomic_wait_on_u32`, `mjs_atomic_wake_one_u32` or
`mjs_atomic_wake_all_u32` takes the mutex of a slot; `initRc` is the status of the table. -/
def awStart (initRc : Status) (i : ℕ) (c : AwCall) : AwLabel :=
  if c.addr = 0 then .done (some .EFAULT)
  else if initRc ≠ none then .done initRc
  else if slotFor c.addr ≠ i then .absent
  else
    match c with
    | .wait _ _ _ => .check
    | .wake _ _ => .scan

/-- A slot after `mjs_aw_init`. The records are uninitialised. -/
structure SlotStart (initRc : Status) (call : P → AwCall) (i : ℕ)
    (s : State P AwLabel (AwSlot P)) : Prop where
  queue : s.data.queue.Holds []
  owner : s.owner = none
  cv : s.cv = .empty
  pc : ∀ p, s.pc p = awStart initRc i (call p)

/-! ### The table -/

/-- The slots, and the words that no mutex protects. -/
structure AwTable (P : Type*) where
  mem : Memory
  slot : ℕ → State P AwLabel (AwSlot P)

/-- A store to a word, or a step in a slot, with the instruction it executes there. -/
inductive TableStep (call : P → AwCall) (t : AwTable P) :
    ℕ → List (Exec P AwLabel (AwSlot P)) → AwTable P → Prop
  | store (i : ℕ) (addr : Addr) (v : BitVec 32) :
      TableStep call t i [] { t with mem := Function.update t.mem addr v }
  | slot {i : ℕ} {es : List (Exec P AwLabel (AwSlot P))} {s : State P AwLabel (AwSlot P)}
      (hs : Step (awProgram call) t.mem (t.slot i) es s) :
      TableStep call t i es { t with slot := Function.update t.slot i s }

/-- The runs of the table, with the trace of every slot. -/
inductive TableRun (initRc : Status) (call : P → AwCall) :
    (ℕ → List (Exec P AwLabel (AwSlot P))) → AwTable P → Prop
  | start {t : AwTable P} (h : ∀ i, SlotStart initRc call i (t.slot i)) :
      TableRun initRc call (fun _ => []) t
  | step {tr : ℕ → List (Exec P AwLabel (AwSlot P))} {t t' : AwTable P} {i : ℕ}
      {es : List (Exec P AwLabel (AwSlot P))} (hr : TableRun initRc call tr t)
      (hs : TableStep call t i es t') :
      TableRun initRc call (Function.update tr i (es ++ tr i)) t'

/-- A run of the table is a run of every slot. -/
theorem TableRun.slot {initRc : Status} {call : P → AwCall}
    {tr : ℕ → List (Exec P AwLabel (AwSlot P))} {t : AwTable P} (h : TableRun initRc call tr t)
    (i : ℕ) : Run (awProgram call) (SlotStart initRc call i) (tr i) (t.slot i) := by
  induction h with
  | start h => exact .start (h i)
  | @step tr t t' j es _ hs ih =>
    cases hs with
    | store => simpa [Function.update_eq_self] using ih
    | slot hs =>
      by_cases hij : i = j
      · subst hij
        simpa using ih.step hs
      · simpa [Function.update_of_ne hij] using ih

end Program

end MojitoSys.Sync
