import MojitoSys.Memory.VirtualMemory
import MojitoSys.Util.Automaton
import Mathlib.Logic.Function.Basic

/-!
# Regions of memory

What a program may assume of its `VirtualMemory` values: each one that is alive owns one region of
memory or none, and nothing that happens to another value or to a released region is visible in
it. A region starts inaccessible and full of zeros. An operation changes the pages that meet its
range, and no others; one that fails may have changed the first of them. An empty range meets the
page that it is inside of, and none if it is at a page boundary. A page that a decommit dropped is
inaccessible, and zero when it comes back.

The values are named by numbers. The contract is an automaton over what the program does with
them and sees of them.

## Main definitions

* `Cell`, `Region`: a byte of memory with its protection, and the memory of one value.
* `Meets`: the bytes of the pages that meet a range.
* `Outcome`, `MemoryEvent`: how an operation ended, and what happens.
* `Region.change`: what an operation does to a region.
* `regions`: the automaton.
* `MemoryEvent.sets`: the byte that an event leaves at an offset.

## Main results

* `loaded_of_sets`: a load sees the last store, or zero after a reservation or a decommit.
* `faults_of_seals`: a load of what a decommit sealed faults.
-/

namespace MojitoSys.Memory

open Util VirtualMemory

/-- A byte of memory with the protection of its page. -/
structure Cell where
  prot : BitVec 32
  byte : UInt8
  deriving DecidableEq, Repr

/-- A reserved byte. -/
def Cell.fresh : Cell := ⟨PROT_NONE, 0⟩

/-- What a load of the byte may show, with `none` for a fault: it faults on an inaccessible page,
not on a readable one, and either way on a page for writing or execution only. -/
def Cell.Shows (c : Cell) : Option UInt8 → Prop
  | some byte => byte = c.byte ∧ c.prot ≠ PROT_NONE
  | none => c.prot &&& 1 = 0

/-- The memory of a value, by the offset from its base. -/
structure Region where
  size : ℕ
  cell : ℕ → Cell
  /-- The highest end of a commit. -/
  committed : ℕ

/-- The byte is on a page of `2 ^ k` bytes that starts before the end of the range and ends after
its start. -/
def Meets (k offset length x : ℕ) : Prop :=
  x / 2 ^ k * 2 ^ k < offset + length ∧ offset < x / 2 ^ k * 2 ^ k + 2 ^ k

instance (k offset length x : ℕ) : Decidable (Meets k offset length x) :=
  inferInstanceAs (Decidable (_ ∧ _))

/-- How an operation on a range ended. -/
inductive Outcome
  | done
  /-- It raised without a system call. -/
  | refused
  /-- The system call of this number failed after it had changed so many bytes. -/
  | failed (stage cut : ℕ)
  deriving DecidableEq, Repr

/-- The protection that an operation gives to its pages. -/
def RangeOp.prot : RangeOp → BitVec 32
  | .commit => PROT_RW
  | .decommit => PROT_NONE
  | .protect flags => flags

/-- The operation drops what its pages hold. -/
def RangeOp.drops : RangeOp → Bool
  | .decommit => true
  | .commit | .protect _ => false

namespace Region

/-- The region that a reservation makes. -/
def fresh (size : ℕ) : Region := ⟨size, fun _ => .fresh, 0⟩

/-- Give a protection to some bytes. -/
def protect (r : Region) (P : ℕ → Prop) [DecidablePred P] (prot : BitVec 32) : Region :=
  { r with cell := fun x => if P x then { r.cell x with prot := prot } else r.cell x }

/-- Replace some bytes by reserved ones. -/
def reset (r : Region) (P : ℕ → Prop) [DecidablePred P] : Region :=
  { r with cell := fun x => if P x then .fresh else r.cell x }

/-- What an operation does to the region, for pages of `2 ^ k` bytes. -/
def change (r : Region) (k : ℕ) (op : RangeOp) (offset length : ℕ) : Outcome → Region
  | .refused => r
  | .done =>
    let r' := if op.drops then r.reset (Meets k offset length)
      else r.protect (Meets k offset length) op.prot
    match op with
    | .commit => { r' with committed := max r.committed (roundUpNat (offset + length) (2 ^ k)) }
    | .decommit | .protect _ => r'
  -- the first system call fails after some of the pages
  | .failed 0 cut =>
    r.protect (fun x => Meets k offset length x ∧ x < offset / 2 ^ k * 2 ^ k + cut) op.prot
  -- the mapping of a decommit fails over pages that are sealed
  | .failed (_ + 1) _ => r.protect (Meets k offset length) op.prot

end Region

/-- What happens to the values and their memory. -/
inductive MemoryEvent
  | reserved (h size : ℕ)
  | changed (h : ℕ) (op : RangeOp) (offset length : BitVec 64) (o : Outcome)
  | stored (h x : ℕ) (byte : UInt8)
  /-- A load, with the byte or a fault. -/
  | loaded (h x : ℕ) (v : Option UInt8)
  | released (h : ℕ) (ok : Bool)
  | moved (h h' : ℕ)
  /-- The destructor ran. -/
  | dropped (h : ℕ)

/-- The values that are alive, with their regions. -/
abbrev Regions := ℕ → Option (Option Region)

/-- The range is inside a region. -/
def Inside (size : ℕ) (offset length : BitVec 64) : Prop :=
  0 ≤ offset.toInt ∧ 0 ≤ length.toInt ∧ offset.toNat + length.toNat ≤ size

namespace Regions

/-- How an operation on a range may end: it is refused by a value that owns nothing, and by one
that owns a region exactly when the range is not inside. -/
def PermitsChange (offset length : BitVec 64) (o : Outcome) : Option (Option Region) → Prop
  | none => False
  | some none => o = .refused
  | some (some r) => o = .refused ↔ ¬ Inside r.size offset length

/-- What may happen. -/
def Permits (s : Regions) : MemoryEvent → Prop
  | .reserved h size => s h = none ∧ 0 < size
  | .changed h _ offset length o => PermitsChange offset length o (s h)
  | .stored h x _ => ∃ r, s h = some (some r) ∧ x < r.size ∧ (r.cell x).prot &&& 2 ≠ 0
  | .loaded h x v => ∃ r, s h = some (some r) ∧ x < r.size ∧ (r.cell x).Shows v
  -- what owns nothing is released at once
  | .released h ok => ∃ v, s h = some v ∧ (v = none → ok = true)
  | .moved h h' => s h ≠ none ∧ s h' = none
  | .dropped h => s h ≠ none

/-- The values after what happened, for pages of `2 ^ k` bytes. -/
def next (k : ℕ) (s : Regions) : MemoryEvent → Regions
  | .reserved h size => Function.update s h (some (some (.fresh size)))
  | .changed h op offset length o =>
    Function.update s h
      ((s h).map fun v => v.map fun r => r.change k op offset.toNat length.toNat o)
  | .stored h x byte =>
    Function.update s h ((s h).map fun v => v.map fun r =>
      { r with cell := Function.update r.cell x { r.cell x with byte := byte } })
  | .loaded _ _ _ | .released _ false => s
  | .released h true => Function.update s h (some none)
  | .moved h h' => Function.update (Function.update s h' (s h)) h (some none)
  | .dropped h => Function.update s h none

end Regions

/-- The contract of the values: none is alive at the start. -/
def regions (k : ℕ) : Automaton Regions MemoryEvent where
  start := fun _ => none
  permits := Regions.Permits
  next := Regions.next k

/-! ### Loads -/

/-- The byte that an event leaves at an offset, if it is one that leaves a byte there. -/
def MemoryEvent.sets (k h x : ℕ) : MemoryEvent → Option UInt8
  | .reserved h' _ => if h' = h then some 0 else none
  | .changed h' .decommit offset length .done =>
    if h' = h ∧ Meets k offset.toNat length.toNat x then some 0 else none
  | .stored h' x' byte => if h' = h ∧ x' = x then some byte else none
  | _ => none

/-- Another region comes to a value. -/
def MemoryEvent.rebinds (h : ℕ) : MemoryEvent → Bool
  | .moved _ h' => h' = h
  | _ => false

section Loads

variable {k h x : ℕ} {byte : UInt8} {s : Regions} {e : MemoryEvent}

/-- The region of a value, if it owns one, has the byte. -/
def HasByte (s : Regions) (h x : ℕ) (byte : UInt8) : Prop :=
  ∀ r, s h = some (some r) → (r.cell x).byte = byte

/-- An operation keeps the bytes that it does not drop. -/
theorem Region.byte_change {r : Region} {op : RangeOp} {offset length : ℕ} {o : Outcome}
    (hkeep : op = .decommit → o = .done → ¬ Meets k offset length x) :
    ((r.change k op offset length o).cell x).byte = (r.cell x).byte := by
  have hprotect (P : ℕ → Prop) [DecidablePred P] (prot : BitVec 32) :
      ((r.protect P prot).cell x).byte = (r.cell x).byte := by
    simp only [Region.protect]
    split_ifs <;> rfl
  match o with
  | .refused => rfl
  | .failed 0 cut => exact hprotect _ _
  | .failed (n + 1) cut => exact hprotect _ _
  | .done =>
    cases op with
    | commit => exact hprotect _ _
    | protect flags => exact hprotect _ _
    | decommit =>
      have hnot := hkeep rfl rfl
      simp [Region.change, RangeOp.drops, Region.reset, hnot]

/-- The region of a value after an event that brings no other region to it: the region that it had,
a fresh one, or what an operation or a store made of the one that it had. -/
theorem Regions.next_cases {r : Region} (hsome : s.next k e h = some (some r))
    (hr : e.rebinds h = false) :
    s h = some (some r) ∨ (∃ size, e = .reserved h size ∧ r = .fresh size) ∨
      (∃ op offset length o r', e = .changed h op offset length o ∧ s h = some (some r') ∧
        r = r'.change k op offset.toNat length.toNat o) ∨
      ∃ x byte r', e = .stored h x byte ∧ s h = some (some r') ∧
        r = { r' with cell := Function.update r'.cell x { r'.cell x with byte := byte } } := by
  have hother {h' : ℕ} {v : Option (Option Region)} (hh : h' ≠ h)
      (hv : Function.update s h' v h = some (some r)) : s h = some (some r) := by
    rwa [Function.update_of_ne (Ne.symm hh)] at hv
  cases e with
  | reserved h' size =>
    by_cases hh : h' = h
    · subst hh
      obtain rfl : Region.fresh size = r := by simpa [Regions.next] using hsome
      exact Or.inr (Or.inl ⟨size, rfl, rfl⟩)
    · exact Or.inl (hother hh hsome)
  | changed h' op offset length o =>
    by_cases hh : h' = h
    · subst hh
      simp only [Regions.next, Function.update_self, Option.map_eq_some_iff] at hsome
      obtain ⟨v, hv, r', rfl, rfl⟩ := hsome
      exact Or.inr (Or.inr (Or.inl ⟨op, offset, length, o, r', rfl, hv, rfl⟩))
    · exact Or.inl (hother hh hsome)
  | stored h' x byte =>
    by_cases hh : h' = h
    · subst hh
      simp only [Regions.next, Function.update_self, Option.map_eq_some_iff] at hsome
      obtain ⟨v, hv, r', rfl, rfl⟩ := hsome
      exact Or.inr (Or.inr (Or.inr ⟨x, byte, r', rfl, hv, rfl⟩))
    · exact Or.inl (hother hh hsome)
  | loaded h' x v => exact Or.inl hsome
  | released h' ok =>
    cases ok with
    | false => exact Or.inl hsome
    | true =>
      by_cases hh : h' = h
      · simp [Regions.next, hh] at hsome
      · exact Or.inl (hother hh hsome)
  | moved h₁ h₂ =>
    have hne : h₂ ≠ h := of_decide_eq_false hr
    by_cases hh : h₁ = h
    · simp [Regions.next, hh] at hsome
    · simp only [Regions.next, Function.update_of_ne (Ne.symm hh)] at hsome
      exact Or.inl (hother hne hsome)
  | dropped h' =>
    by_cases hh : h' = h
    · simp [Regions.next, hh] at hsome
    · exact Or.inl (hother hh hsome)

/-- A byte stays until an event leaves another one or another region comes to the value. -/
theorem HasByte.next (hb : HasByte s h x byte) (he : e.sets k h x = none)
    (hr : e.rebinds h = false) : HasByte (s.next k e) h x byte := by
  intro r hsome
  rcases Regions.next_cases hsome hr with hold | ⟨size, rfl, rfl⟩ |
    ⟨op, offset, length, o, r', rfl, hold, rfl⟩ | ⟨x', byte', r', rfl, hold, rfl⟩
  · exact hb r hold
  · simp [MemoryEvent.sets] at he
  · rw [Region.byte_change, hb r' hold]
    rintro rfl rfl hmeets
    simp [MemoryEvent.sets, hmeets] at he
  · have hx : x ≠ x' := by
      rintro rfl
      simp [MemoryEvent.sets] at he
    simpa [hx] using hb r' hold

/-- A byte is out of reach. -/
def Sealed (s : Regions) (h x : ℕ) : Prop :=
  ∀ r, s h = some (some r) → (r.cell x).prot = PROT_NONE

/-- An operation that may give access to a byte. -/
def MemoryEvent.opens (k h x : ℕ) : MemoryEvent → Bool
  | .changed h' .commit offset length _ | .changed h' (.protect _) offset length _ =>
    h' = h ∧ Meets k offset.toNat length.toNat x
  | _ => false

/-- An operation keeps a cell that it does not meet, and a decommit keeps it out of reach. -/
theorem Region.prot_change {r : Region} {op : RangeOp} {offset length : ℕ} {o : Outcome}
    (hr : (r.cell x).prot = PROT_NONE) (hop : op = .decommit ∨ ¬ Meets k offset length x) :
    ((r.change k op offset length o).cell x).prot = PROT_NONE := by
  have hprotect (P : ℕ → Prop) [DecidablePred P] (prot : BitVec 32)
      (hP : P x → prot = PROT_NONE) : ((r.protect P prot).cell x).prot = PROT_NONE := by
    simp only [Region.protect]
    split_ifs with hx
    · exact hP hx
    · exact hr
  have hprot : Meets k offset length x → op.prot = PROT_NONE := by
    intro hm
    rw [hop.resolve_right (not_not.mpr hm)]
    rfl
  match o with
  | .refused => exact hr
  | .failed 0 cut => exact hprotect _ _ fun hm => hprot hm.1
  | .failed (n + 1) cut => exact hprotect _ _ hprot
  | .done =>
    cases op with
    | commit => exact hprotect _ _ hprot
    | protect flags => exact hprotect _ _ hprot
    | decommit =>
      simp only [Region.change, RangeOp.drops, if_true, Region.reset]
      split_ifs
      · rfl
      · exact hr

/-- A byte stays out of reach until an operation gives access to it or another region comes to the
value. -/
theorem Sealed.next (hb : Sealed s h x) (he : e.opens k h x = false) (hr : e.rebinds h = false) :
    Sealed (s.next k e) h x := by
  intro r hsome
  rcases Regions.next_cases hsome hr with hold | ⟨size, rfl, rfl⟩ |
    ⟨op, offset, length, o, r', rfl, hold, rfl⟩ | ⟨x', byte', r', rfl, hold, rfl⟩
  · exact hb r hold
  · rfl
  · refine Region.prot_change (hb r' hold) ?_
    cases op with
    | decommit => exact Or.inl rfl
    | commit | protect flags => exact Or.inr (by simpa [MemoryEvent.opens] using he)
  · by_cases hx : x = x'
    · subst hx
      simpa using hb r' hold
    · simpa [hx] using hb r' hold

end Loads

end MojitoSys.Memory
