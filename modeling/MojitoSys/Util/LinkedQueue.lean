import Mathlib.Data.List.Basic
import Mathlib.Data.List.Nodup
import Mathlib.Logic.Function.Basic

/-!
# Linked queues

A singly linked queue whose records belong to the callers. The queue has a pointer to its first
record and a pointer to the pointer field that a new record is to be written to: the head field of
an empty queue, and otherwise the `next` field of the last record. Walks over the queue carry a
pointer to the field that they came through, so that a record is spliced out by one store.

## Main definitions

* `Link`: the pointer fields.
* `LinkedQueue`, `LinkedQueue.append`, `LinkedQueue.splice`.
* `LinkedQueue.Holds`: the queue holds exactly the records of a list, in this order.
* `LinkedQueue.Linked`: a walk from the head meets the record.

## Main results

* `LinkedQueue.Holds.append`, `LinkedQueue.Holds.splice`.
* `LinkedQueue.Holds.linked_iff`: the linked records are those of the list.
-/

namespace MojitoSys.Util

/-- A pointer field: the head field of the queue, or the `next` field of a record. -/
inductive Link (P : Type*)
  | head
  | next (p : P)
  deriving DecidableEq

/-- The pointer fields of a queue and of its records. -/
structure LinkedQueue (P : Type*) where
  head : Option P
  /-- The field that a new record is written to. -/
  tail : Link P
  next : P → Option P

/-- The field after a walk over the records of a list. -/
def Link.after {P : Type*} : Link P → List P → Link P
  | l, [] => l
  | _, p :: ps => (Link.next p).after ps

/-- The fields that a walk over the records of a list reads. -/
def Link.read {P : Type*} : Link P → List P → List (Link P)
  | _, [] => []
  | l, p :: ps => l :: (Link.next p).read ps

namespace LinkedQueue

variable {P : Type*}

/-- The value of a field. -/
def get (q : LinkedQueue P) : Link P → Option P
  | .head => q.head
  | .next p => q.next p

/-- The walk from a field meets the records of a list. -/
def Walk (q : LinkedQueue P) : Link P → List P → Prop
  | _, [] => True
  | l, p :: ps => q.get l = some p ∧ q.Walk (.next p) ps

/-- The queue holds exactly the records of a list, in this order. -/
structure Holds (q : LinkedQueue P) (ps : List P) : Prop where
  walk : q.Walk .head ps
  stop : q.get (Link.head.after ps) = none
  tail : q.tail = Link.head.after ps
  nodup : ps.Nodup

variable [DecidableEq P]

/-- Store to a field. -/
def set (q : LinkedQueue P) (l : Link P) (v : Option P) : LinkedQueue P :=
  match l with
  | .head => { q with head := v }
  | .next p => { q with next := Function.update q.next p v }

/-- Write a record to the end of the queue. -/
def append (q : LinkedQueue P) (p : P) : LinkedQueue P :=
  let q := q.set (.next p) none
  { q.set q.tail (some p) with tail := .next p }

/-- Splice the record `p` out of the queue; `l` is the field that points to it. -/
def splice (q : LinkedQueue P) (l : Link P) (p : P) : LinkedQueue P :=
  let q := q.set l (q.next p)
  if q.tail = .next p then { q with tail := l } else q

/-! ### Walks -/

section Walk

omit [DecidableEq P]

variable {q q' : LinkedQueue P} {l : Link P} {p : P} {ps qs : List P}

theorem after_append : l.after (ps ++ qs) = (l.after ps).after qs := by
  induction ps generalizing l with
  | nil => rfl
  | cons p ps ih => exact ih

theorem after_concat (l : Link P) (ps : List P) (p : P) : l.after (ps ++ [p]) = .next p := by
  rw [after_append]
  rfl

/-- The field that a queue ends with: the `next` field of the last record, or the head field. -/
theorem after_head (ps : List P) : Link.head.after ps = ps.getLast?.elim .head .next := by
  rcases ps.eq_nil_or_concat with rfl | ⟨qs, p, rfl⟩
  · rfl
  · rw [List.concat_eq_append, after_concat, List.getLast?_concat]
    rfl

theorem after_eq (l : Link P) (ps : List P) : l.after ps = l ∨ ∃ p ∈ ps, l.after ps = .next p := by
  induction ps generalizing l with
  | nil => exact Or.inl rfl
  | cons p ps ih =>
    refine Or.inr ?_
    rcases ih (.next p) with h | ⟨x, hx, h⟩
    · exact ⟨p, List.mem_cons_self, h⟩
    · exact ⟨x, List.mem_cons_of_mem p hx, h⟩

theorem mem_read {k : Link P} (h : k ∈ l.read ps) : k = l ∨ ∃ p ∈ ps, k = .next p := by
  induction ps generalizing l with
  | nil => simp [Link.read] at h
  | cons p ps ih =>
    rcases List.mem_cons.mp h with rfl | htail
    · exact Or.inl rfl
    · rcases ih htail with rfl | ⟨x, hx, rfl⟩
      · exact Or.inr ⟨p, List.mem_cons_self, rfl⟩
      · exact Or.inr ⟨x, List.mem_cons_of_mem p hx, rfl⟩

/-- A walk over different records does not read the field that it ends at. -/
theorem after_notMem_read (hnodup : ps.Nodup) (hl : ∀ p ∈ ps, l ≠ .next p) :
    l.after ps ∉ l.read ps := by
  induction ps generalizing l with
  | nil => simp [Link.read]
  | cons p ps ih =>
    obtain ⟨hp, hnodup⟩ := List.nodup_cons.mp hnodup
    have hne : ∀ x ∈ ps, Link.next p ≠ .next x := by
      rintro x hx ⟨⟩
      exact hp hx
    intro hmem
    rcases List.mem_cons.mp hmem with heq | htail
    · rcases after_eq (.next p) ps with h | ⟨x, hx, h⟩
      · exact hl p List.mem_cons_self (heq.symm.trans h)
      · exact hl x (List.mem_cons_of_mem p hx) (heq.symm.trans h)
    · exact ih hnodup hne htail

theorem walk_append : q.Walk l (ps ++ qs) ↔ q.Walk l ps ∧ q.Walk (l.after ps) qs := by
  induction ps generalizing l with
  | nil => simp [Walk, Link.after]
  | cons p ps ih => simp [Walk, Link.after, ih, and_assoc]

theorem Walk.congr (h : q.Walk l ps) (hq : ∀ k ∈ l.read ps, q'.get k = q.get k) :
    q'.Walk l ps := by
  induction ps generalizing l with
  | nil => trivial
  | cons p ps ih =>
    refine ⟨(hq l List.mem_cons_self).trans h.1, ih h.2 fun k hk => ?_⟩
    exact hq k (List.mem_cons_of_mem l hk)

theorem after_head_ne (hp : p ∉ ps) : Link.head.after ps ≠ .next p := by
  intro h
  rcases after_eq Link.head ps with h' | ⟨x, hx, h'⟩
  · exact absurd (h'.symm.trans h) (by simp)
  · obtain rfl : x = p := by simpa using h'.symm.trans h
    exact hp hx

/-- The field after the records before `p` points to `p`. -/
theorem Holds.get_after (h : q.Holds (ps ++ p :: qs)) : q.get (Link.head.after ps) = some p :=
  (walk_append.mp h.walk).2.1

/-- A record is linked if a walk from the head meets it. -/
def Linked (q : LinkedQueue P) (p : P) : Prop := ∃ ps, q.Walk .head (ps ++ [p])

theorem Walk.isPrefix (h : q.Walk l ps) (h' : q.Walk l qs) (hq : q.get (l.after qs) = none) :
    ps <+: qs := by
  induction ps generalizing l qs with
  | nil => exact List.nil_prefix
  | cons x ps ih =>
    cases qs with
    | nil => exact absurd (hq.symm.trans h.1) (by simp)
    | cons y qs =>
      obtain rfl : x = y := Option.some.inj (h.1.symm.trans h'.1)
      exact List.cons_prefix_cons.mpr ⟨rfl, ih h.2 h'.2 hq⟩

theorem Holds.unique (h : q.Holds ps) (h' : q.Holds qs) : ps = qs :=
  (h.walk.isPrefix h'.walk h'.stop).eq_of_length_le
    (h'.walk.isPrefix h.walk h.stop).length_le

/-- The linked records are those of the list. -/
theorem Holds.linked_iff (h : q.Holds ps) : q.Linked p ↔ p ∈ ps := by
  constructor
  · rintro ⟨qs, hqs⟩
    exact (hqs.isPrefix h.walk h.stop).subset (by simp)
  · intro hp
    obtain ⟨qs, rs, rfl⟩ := List.append_of_mem hp
    refine ⟨qs, walk_append.mpr ⟨(walk_append.mp h.walk).1, h.get_after, trivial⟩⟩

end Walk

/-! ### Stores -/

section Store

variable {q : LinkedQueue P} {l k : Link P} {p : P} {ps qs : List P} {v : Option P}

theorem get_set_self : (q.set l v).get l = v := by
  cases l <;> simp [set, get]

theorem get_set_of_ne (h : k ≠ l) : (q.set l v).get k = q.get k := by
  cases l with
  | head =>
    cases k with
    | head => exact absurd rfl h
    | next x => rfl
  | next y =>
    cases k with
    | head => rfl
    | next x =>
      have hxy : x ≠ y := fun hxy => h (congrArg Link.next hxy)
      simp [set, get, Function.update_of_ne hxy]

theorem tail_set : (q.set l v).tail = q.tail := by
  cases l <;> rfl

theorem tail_splice : (q.splice l p).tail = if q.tail = .next p then l else q.tail := by
  unfold LinkedQueue.splice
  simp only [tail_set]
  split
  · rfl
  · exact tail_set

theorem get_splice (k : Link P) : (q.splice l p).get k = (q.set l (q.next p)).get k := by
  unfold LinkedQueue.splice
  simp only
  split
  · cases k <;> rfl
  · rfl

/-- The `next` field of a record outside the queue is free to write. -/
theorem Holds.set_next (h : q.Holds ps) (hp : p ∉ ps) : (q.set (.next p) v).Holds ps where
  walk := h.walk.congr fun k hk => by
    refine get_set_of_ne ?_
    rintro rfl
    rcases mem_read hk with hk | ⟨x, hx, hk⟩
    · simp at hk
    · exact hp (by simpa [Link.next.inj hk] using hx)
  stop := by rw [get_set_of_ne (after_head_ne hp), h.stop]
  tail := by rw [tail_set, h.tail]
  nodup := h.nodup

/-- A new record becomes the last one. -/
theorem Holds.append (h : q.Holds ps) (hp : p ∉ ps) : (q.append p).Holds (ps ++ [p]) := by
  have h₁ := h.set_next (v := none) hp
  have hne := after_head_ne hp
  have hget : ∀ k, (q.append p).get k = ((q.set (.next p) none).set (Link.head.after ps)
      (some p)).get k := by
    intro k
    rw [← h.tail, LinkedQueue.append, tail_set]
    cases k <;> rfl
  refine ⟨walk_append.mpr ⟨h₁.walk.congr fun k hk => ?_, ?_, trivial⟩, ?_, ?_, ?_⟩
  · rw [hget, get_set_of_ne]
    rintro rfl
    exact after_notMem_read h.nodup (by simp) hk
  · rw [hget, get_set_self]
  · rw [after_append, hget]
    change LinkedQueue.get _ (.next p) = none
    rw [get_set_of_ne (Ne.symm hne), get_set_self]
  · rw [after_append]
    rfl
  · exact List.nodup_append.mpr ⟨h.nodup, List.nodup_singleton p, by
      simpa using fun a ha => ne_of_mem_of_not_mem ha hp⟩

/-- The record that the walk has reached is spliced out. -/
theorem Holds.splice (h : q.Holds (ps ++ p :: qs)) :
    (q.splice (Link.head.after ps) p).Holds (ps ++ qs) := by
  obtain ⟨hps, hp, hqs⟩ := walk_append.mp h.walk
  obtain ⟨hnps, hnpq, hdisj⟩ := List.nodup_append.mp h.nodup
  obtain ⟨hpq, hnqs⟩ := List.nodup_cons.mp hnpq
  have hfield : ∀ x ∈ p :: qs, Link.head.after ps ≠ .next x := fun x hx =>
    after_head_ne fun hxp => hdisj x hxp x hx rfl
  have hkeep : ∀ x ∈ p :: qs, (q.splice (Link.head.after ps) p).get (.next x) = q.next x := by
    intro x hx
    rw [get_splice, get_set_of_ne (Ne.symm (hfield x hx))]
    rfl
  have hwalk : (q.splice (Link.head.after ps) p).Walk .head ps := by
    refine hps.congr fun k hk => ?_
    rw [get_splice, get_set_of_ne]
    rintro rfl
    exact after_notMem_read hnps (by simp) hk
  have htail : q.tail = (Link.next p).after qs := by
    rw [h.tail, after_append]
    rfl
  have hstop : q.get ((Link.next p).after qs) = none := by
    have := h.stop
    rwa [after_append] at this
  refine ⟨walk_append.mpr ⟨hwalk, ?_⟩, ?_, ?_, ?_⟩
  · cases qs with
    | nil => trivial
    | cons x qs =>
      refine ⟨?_, hqs.2.congr fun k hk => ?_⟩
      · rw [get_splice, get_set_self]
        exact hqs.1
      · rcases mem_read hk with rfl | ⟨y, hy, rfl⟩
        · exact hkeep x (by simp)
        · exact hkeep y (by simp [hy])
  · rw [after_append]
    cases qs with
    | nil =>
      change LinkedQueue.get _ (Link.head.after ps) = none
      rw [get_splice, get_set_self]
      exact hstop
    | cons x qs =>
      rcases after_eq (.next x) qs with hx | ⟨y, hy, hx⟩
      · have := hstop
        simp only [Link.after] at this ⊢
        rw [hx] at this ⊢
        rw [hkeep x (by simp)]
        exact this
      · have := hstop
        simp only [Link.after] at this ⊢
        rw [hx] at this ⊢
        rw [hkeep y (by simp [hy])]
        exact this
  · rw [after_append, tail_splice, htail]
    cases qs with
    | nil => exact if_pos rfl
    | cons x qs =>
      refine if_neg fun hx => ?_
      rcases after_eq (.next x) qs with h' | ⟨y, hy, h'⟩
      · obtain rfl : x = p := by simpa using h'.symm.trans hx
        exact hpq List.mem_cons_self
      · obtain rfl : y = p := by simpa using h'.symm.trans hx
        exact hpq (List.mem_cons_of_mem x hy)
  · exact List.nodup_append.mpr ⟨hnps, hnqs, fun a ha b hb => hdisj a ha b (by simp [hb])⟩

end Store

end LinkedQueue

end MojitoSys.Util
