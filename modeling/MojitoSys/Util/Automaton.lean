import Mathlib.Data.List.Basic

/-!
# Systems and safety automata

A system takes steps that show events. A safety automaton states what its traces may be: it has one
state after every trace, and permits some events in every state. A system obeys an automaton if
a relation between their states is kept by every step of the system, with every event that the step
shows permitted.

Traces are lists of events, the newest first.

## Main definitions

* `System`, `System.Run`: the steps of a system and its runs, with their traces.
* `Automaton`, `Automaton.after`, `Automaton.Accepts`.
* `System.Simulates`: a relation that the steps of a system keep.

## Main results

* `System.Run.exists_step`: every event of a trace was shown by a step.
* `Automaton.Accepts.permits`: every event of an accepted trace was permitted when it came.
* `Automaton.Accepts.invariant`: an invariant of the permitted events holds after accepted traces.
* `System.Simulates.run`: a system that simulates an automaton shows accepted traces only.
-/

namespace MojitoSys.Util

/-- A system: its start states, and its steps with the events that they show. -/
structure System (S E : Type*) where
  start : S → Prop
  step : S → List E → S → Prop

/-- An automaton: a start state, the events that a state permits, and the state after an event. -/
structure Automaton (T E : Type*) where
  start : T
  permits : T → E → Prop
  next : T → E → T

variable {S T E : Type*}

/-- The runs of a system, with their traces. -/
inductive System.Run (C : System S E) : List E → S → Prop
  | start {s : S} (h : C.start s) : C.Run [] s
  | step {tr es : List E} {s s' : S} (hr : C.Run tr s) (hs : C.step s es s') : C.Run (es ++ tr) s'

/-- Every event of a trace was shown by a step of the run. -/
theorem System.Run.exists_step {C : System S E} {e : E} {tr : List E} {s : S} (hr : C.Run tr s)
    (he : e ∈ tr) : ∃ tr' es s₁ s₂, C.Run tr' s₁ ∧ C.step s₁ es s₂ ∧ e ∈ es := by
  induction hr with
  | start h => cases he
  | @step tr es s s' hr hs ih =>
    rcases List.mem_append.mp he with hnew | hold
    · exact ⟨tr, es, s, s', hr, hs, hnew⟩
    · exact ih hold

namespace Automaton

variable {A : Automaton T E} {t : T} {e : E} {es tr : List E}

/-- The state after some events. -/
def after (A : Automaton T E) (t : T) : List E → T
  | [] => t
  | e :: es => A.next (A.after t es) e

/-- Every event is permitted when it comes. -/
def Accepts (A : Automaton T E) (t : T) : List E → Prop
  | [] => True
  | e :: es => A.Accepts t es ∧ A.permits (A.after t es) e

@[simp]
theorem after_nil : A.after t [] = t := rfl

@[simp]
theorem after_cons : A.after t (e :: es) = A.next (A.after t es) e := rfl

theorem after_append : A.after t (es ++ tr) = A.after (A.after t tr) es := by
  induction es with
  | nil => rfl
  | cons e es ih => rw [List.cons_append, after_cons, after_cons, ih]

@[simp]
theorem accepts_nil : A.Accepts t [] := trivial

@[simp]
theorem accepts_cons : A.Accepts t (e :: es) ↔ A.Accepts t es ∧ A.permits (A.after t es) e :=
  Iff.rfl

theorem accepts_append :
    A.Accepts t (es ++ tr) ↔ A.Accepts t tr ∧ A.Accepts (A.after t tr) es := by
  induction es with
  | nil => simp
  | cons e es ih =>
    rw [List.cons_append, accepts_cons, accepts_cons, ih, after_append, and_assoc]

/-- An event of an accepted trace was permitted in the state before it. -/
theorem Accepts.permits (h : A.Accepts t (es ++ e :: tr)) : A.permits (A.after t tr) e :=
  (accepts_append.mp h).1.2

/-- An invariant that the permitted events keep holds after every accepted trace. -/
theorem Accepts.invariant {P : List E → T → Prop} (h : A.Accepts t tr) (hstart : P [] t)
    (hnext : ∀ tr e, P tr (A.after t tr) → A.permits (A.after t tr) e →
      P (e :: tr) (A.next (A.after t tr) e)) : P tr (A.after t tr) := by
  induction tr with
  | nil => exact hstart
  | cons e tr ih => exact hnext tr e (ih h.1) h.2

end Automaton

/-- A relation between the states of a system and of an automaton: it holds at the start, and every
step of the system shows permitted events and keeps it. -/
structure System.Simulates (C : System S E) (A : Automaton T E) (R : S → T → Prop) : Prop where
  start : ∀ s, C.start s → R s A.start
  step : ∀ s t es s', R s t → C.step s es s' → A.Accepts t es ∧ R s' (A.after t es)

/-- The traces of a system that simulates an automaton are accepted. -/
theorem System.Simulates.run {C : System S E} {A : Automaton T E} {R : S → T → Prop}
    (h : C.Simulates A R) {tr : List E} {s : S} (hr : C.Run tr s) :
    A.Accepts A.start tr ∧ R s (A.after A.start tr) := by
  induction hr with
  | start hs => exact ⟨trivial, h.start _ hs⟩
  | step _ hs ih =>
    obtain ⟨hes, hrel⟩ := h.step _ _ _ _ ih.2 hs
    rw [Automaton.accepts_append, Automaton.after_append]
    exact ⟨⟨ih.1, hes⟩, hrel⟩

end MojitoSys.Util
