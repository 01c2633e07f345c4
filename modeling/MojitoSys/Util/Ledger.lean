import Mathlib.Data.Multiset.AddSub

/-!
# Ledgers of resources

The log of a program that acquires resources and gives them back. A replay of the log keeps the
multiset of the resources that are held; it fails at an entry that gives back a resource that is
not held. A log is balanced when its replay leaves what was held: everything that it acquires is
given back, and nothing else is.

## Main definitions

* `Ledger.Entry`, `Ledger.acquired`, `Ledger.released`.
* `Ledger.replay`: the resources held after a log.
* `Ledger.Leaves`: a log that adds given resources to what is held.
* `Ledger.Balanced`: a log that gives back exactly what it acquires.

## Main results

* `Ledger.Leaves.append`, `Ledger.leaves_acquire`, `Ledger.Leaves.release`,
  `Ledger.Leaves.release_part`: the rules for logs.
* `Ledger.acquired_add`: what is acquired is released or still held.
-/

namespace MojitoSys.Util.Ledger

/-- An entry of the log. -/
inductive Entry (α : Type*)
  | acquire (a : α)
  | release (a : α)
  deriving DecidableEq, Repr

variable {α : Type*}

/-- The resources that a log acquires. -/
def acquired : List (Entry α) → Multiset α
  | [] => 0
  | .acquire a :: es => a ::ₘ acquired es
  | .release _ :: es => acquired es

/-- The resources that a log releases. -/
def released : List (Entry α) → Multiset α
  | [] => 0
  | .acquire _ :: es => released es
  | .release a :: es => a ::ₘ released es

theorem acquired_release (l : List α) : acquired (l.map .release) = 0 := by
  induction l with
  | nil => rfl
  | cons a l ih => exact ih

variable [DecidableEq α]

/-- The resources held after an entry; `none` for the release of a resource that is not held. -/
def step (held : Multiset α) : Entry α → Option (Multiset α)
  | .acquire a => some (a ::ₘ held)
  | .release a => if a ∈ held then some (held.erase a) else none

/-- The resources held after a log. -/
def replay : List (Entry α) → Multiset α → Option (Multiset α)
  | [], held => some held
  | e :: es, held => (step held e).bind (replay es)

variable {es es' : List (Entry α)} {held held' : Multiset α}

theorem replay_append : replay (es ++ es') held = (replay es held).bind (replay es') := by
  induction es generalizing held with
  | nil => rfl
  | cons e es ih =>
    simp only [List.cons_append, replay]
    cases step held e with
    | none => rfl
    | some held₁ => exact ih

theorem replay_acquire (l : List α) :
    replay (l.map .acquire) held = some (↑l + held) := by
  induction l generalizing held with
  | nil => simp [replay]
  | cons a l ih =>
    simp only [List.map_cons, replay, step, Option.bind_some, ih, Option.some.injEq]
    rw [Multiset.add_cons, ← Multiset.cons_coe, Multiset.cons_add]

theorem replay_release (l : List α) :
    replay (l.map .release) (↑l + held) = some held := by
  induction l with
  | nil => simp [replay]
  | cons a l ih =>
    have ha : a ∈ (↑(a :: l) : Multiset α) + held := by simp
    simp only [List.map_cons, replay, step, ha, ↓reduceIte, Option.bind_some]
    rw [← Multiset.cons_coe, Multiset.cons_add, Multiset.erase_cons_head, ih]

/-- What a log acquires is released by it or held at its end. -/
theorem acquired_add (h : replay es held = some held') :
    acquired es + held = released es + held' := by
  induction es generalizing held with
  | nil =>
    obtain rfl : held = held' := Option.some.inj h
    rfl
  | cons e es ih =>
    obtain ⟨held₁, hstep, hrest⟩ := Option.bind_eq_some_iff.mp h
    have hih := ih hrest
    cases e with
    | acquire a =>
      obtain rfl : a ::ₘ held = held₁ := Option.some.inj hstep
      rw [acquired, released, ← hih, Multiset.cons_add, Multiset.add_cons]
    | release a =>
      simp only [step] at hstep
      split_ifs at hstep with ha
      obtain rfl : held.erase a = held₁ := Option.some.inj hstep
      rw [acquired, released, Multiset.cons_add, ← hih, ← Multiset.add_cons,
        Multiset.cons_erase ha]

/-- Whatever is held, the log adds the resources `l` to it. -/
def Leaves (es : List (Entry α)) (l : List α) : Prop :=
  ∀ held, replay es held = some (↑l + held)

/-- Whatever is held, the log gives back what it acquires and nothing else. -/
def Balanced (es : List (Entry α)) : Prop := Leaves es []

section Leaves

variable {l l' : List α}

theorem Balanced.nil : Balanced ([] : List (Entry α)) := fun held => by simp [replay]

theorem Leaves.append (h : Leaves es l) (h' : Leaves es' l') : Leaves (es ++ es') (l ++ l') := by
  intro held
  rw [replay_append, h, Option.bind_some, h', ← Multiset.add_assoc, Multiset.coe_add]
  exact congrArg (fun m => some (m + held)) (Multiset.coe_eq_coe.mpr List.perm_append_comm)

theorem leaves_acquire (l : List α) : Leaves (l.map .acquire) l := fun _ => replay_acquire l

theorem Leaves.append_balanced (h : Leaves es l) (h' : Balanced es') : Leaves (es ++ es') l := by
  simpa using h.append h'

/-- The releases may come in any order. -/
theorem Leaves.release (h : Leaves es l) (hp : l'.Perm l) :
    Balanced (es ++ l'.map .release) := by
  intro held
  rw [replay_append, h, Option.bind_some, ← Multiset.coe_eq_coe.mpr hp, replay_release]
  simp

/-- The order of what is left is irrelevant. -/
theorem Leaves.perm (h : Leaves es l) (hp : l'.Perm l) : Leaves es l' := by
  intro held
  rw [h, Multiset.coe_eq_coe.mpr hp]

/-- Some of the resources may be released, and the others are left. -/
theorem Leaves.release_part (l' : List α) (h : Leaves es (l' ++ l)) :
    Leaves (es ++ l'.map .release) l := by
  intro held
  rw [replay_append, h, Option.bind_some, ← Multiset.coe_add, Multiset.add_assoc, replay_release]

/-- A log that leaves `l` releases what it acquires but for `l`. -/
theorem Leaves.acquired_eq (h : Leaves es l) : acquired es = released es + ↑l := by
  simpa using acquired_add (h 0)

end Leaves

end MojitoSys.Util.Ledger
