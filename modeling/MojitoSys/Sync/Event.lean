import MojitoSys.Sync.Token

/-!
# The event

`mjs_event.c`: an auto-reset event with one token. `mjs_event_signal` stores the token and signals
the condition variable, unless the token is already pending; `mjs_event_wait` and
`mjs_event_wait_until` park while there is no token and then consume it.

## Main definitions

* `event`, `EventCall`.
* `Paired`: every token stored is consumed before the next one is stored.

## Main results

* `event_token_law`: the law of the token, and no lost wakeup.
-/

namespace MojitoSys.Sync

open Util.Monitor

/-- The event: the integer is `signaled`. -/
def event : TokenKind where
  put _ := 1
  drop _ := 0
  max := 1
  coalesce := true
  max_pos := by decide
  put_eq {d} h0 h1 := by
    have hd : d.toInt = 0 := by omega
    rw [hd]
    decide
  drop_eq {d} h0 h1 := by
    have hd : d.toInt = 1 := by omega
    rw [hd]
    decide
  put_le d := by bv_omega
  drop_lt {d} hd := by bv_omega

/-- The calls on an event. -/
inductive EventCall
  | signal
  | wait
  | waitUntil
  deriving DecidableEq, Repr

/-- The call of the token monitor. -/
def EventCall.op : EventCall → Op
  | .signal => .release
  | .wait => .wait
  | .waitUntil => .waitUntil

section Paired

variable {P : Type*}

/-- In the trace every store is followed by at most one take before the next store, and every take
follows its store; `b` tells whether the last token is still pending. -/
def Paired : List (Exec P Label CInt) → Bool → Prop
  | [], b => b = false
  | x :: tr, b =>
    match x.label with
    | .store => b = true ∧ Paired tr false
    | .take _ => b = false ∧ Paired tr true
    | _ => Paired tr b

/-- A trace in which never more than one token is pending is paired. -/
theorem paired_of_within {tr : List (Exec P Label CInt)}
    (h : ∀ tr', tr' <:+ tr → (0 : ℤ) ≤ stores tr' - takes tr' ∧ (stores tr' - takes tr' : ℤ) ≤ 1) :
    Paired tr ((stores tr - takes tr : ℤ) = 1) := by
  induction tr with
  | nil => simp [Paired, stores, takes]
  | cons x tr ih =>
    have hself := h (x :: tr) List.suffix_rfl
    have htail := h tr (List.suffix_cons x tr)
    have ih := ih fun tr' htr' => h tr' (htr'.trans (List.suffix_cons x tr))
    rw [stores_cons, takes_cons] at hself ⊢
    unfold Paired
    split
    · next hx =>
      simp only [hx, Label.isTake, if_true, Bool.false_eq_true, if_false] at hself ⊢
      have hzero : ((stores tr : ℤ) - takes tr) = 0 := by
        push_cast at hself
        omega
      refine ⟨?_, by simpa [hzero] using ih⟩
      push_cast
      simp
      omega
    · next op hx =>
      simp only [hx, Label.isTake, if_true, reduceCtorEq, if_false] at hself ⊢
      have hone : ((stores tr : ℤ) - takes tr) = 1 := by
        push_cast at hself
        omega
      refine ⟨?_, by simpa [hone] using ih⟩
      push_cast
      simp
      omega
    · next hs ht =>
      have hstore : x.label ≠ .store := hs
      have htake : x.label.isTake = false := by
        cases hl : x.label with
        | take op => exact absurd hl (ht op)
        | _ => rfl
      simpa [hstore, htake] using ih

end Paired

section Run

variable {P : Type*} [DecidableEq P] {call : P → EventCall} {tr : List (Exec P Label CInt)}
  {s : State P Label CInt}

/-- The law of the token. `signaled` is `0` or `1`; each store of the token is consumed by at most
one successful wait, which consumes exactly one; a signal that saw a pending token stores none; a
wait that gave up saw no token at its last test; and a pending token and a parked waiter that is not
notified mean that another waiter is about to re-acquire the mutex, if the mutex is free, and else
the same, or that the holder of the mutex is about to signal, or to test or take the token. -/
theorem event_token_law
    (hr : Run event.program (event.Start 0 fun p => (call p).op) tr s) :
    (s.data = 0 ∨ s.data = 1) ∧ Paired tr (s.data = 1) ∧ (∀ x ∈ tr, Moves x) ∧
      (∀ p, s.pc p = .done .release none →
        stores (own p tr) = if lastTest (own p tr) = some 0 then 1 else 0) ∧
      (∀ p o, o ≠ .release → s.pc p = .done o none → takes (own p tr) = 1) ∧
      (∀ p o e, s.pc p = .done o (some e) →
        takes (own p tr) = 0 ∧ lastTest (own p tr) = some 0) ∧
      (s.data = 1 → s.cv.blocked.Nonempty → s.cv.ready.Nonempty ∨
        ∃ p, s.owner = some p ∧ (s.pc p).isPending = true) := by
  have hb := TokenKind.balanced (K := event) le_rfl (by decide) hr (Or.inl rfl)
  have hzero : (0 : CInt).toInt = 0 := by decide
  have heq : s.data.toInt = stores tr - takes tr := by
    rw [hb.eq, hzero]
    omega
  have hone : s.data = 1 ↔ (stores tr - takes tr : ℤ) = 1 := by
    rw [← heq, ← BitVec.toInt_inj]
    exact Iff.rfl
  refine ⟨?_, ?_, hb.moves, fun p hp => ?_, fun p o ho hp => ?_, fun p o e hp => ?_,
    fun hdata hblocked => ?_⟩
  · have h0 := hb.nonneg
    have h1 : s.data.toInt ≤ 1 := hb.le
    rcases (by omega : s.data.toInt = 0 ∨ s.data.toInt = 1) with h | h
    · exact Or.inl (BitVec.toInt_inj.mp h)
    · exact Or.inr (BitVec.toInt_inj.mp h)
  · simp only [hone]
    refine paired_of_within fun tr' htr' => ?_
    have hw := hb.within tr' htr'
    rw [hzero] at hw
    simp only [event] at hw
    omega
  · have h := TokenKind.stores_of_done hr hp
    by_cases ht : lastTest (own p tr) = some 0
    · simpa [ht] using h
    · simpa [ht, event] using h
  · exact TokenKind.takes_of_done hr ho hp
  · exact TokenKind.failed_of_done hr hp
  · have hready (hc : s.cv.Covered s.data.toNat) : s.cv.ready.Nonempty := by
      have hle := hc hblocked
      rw [hdata] at hle
      have hpos : (1 : ℤ) ≤ s.cv.ready.card := hle
      exact Finset.card_pos.mp (by omega)
    cases hown : s.owner with
    | none => exact Or.inl (hready (TokenKind.covered (K := event) le_rfl (by decide) hr hown))
    | some p =>
      by_cases hp : (s.pc p).isPending = true
      · exact Or.inr ⟨p, rfl, hp⟩
      · have hno := Bool.eq_false_iff.mpr hp
        exact Or.inl (hready
          (TokenKind.covered_of_held (K := event) le_rfl (by decide) hr hown hno))

end Run

/-! ### Two waiters and a signal -/

/-- Two calls of `mjs_event_wait` and one of `mjs_event_signal`. -/
def waitsAndSignal (p : ℕ) : EventCall := if p = 2 then .signal else .wait

/-- The trace of the signal after both waiters parked. -/
def signalTrace : List (Exec ℕ Label CInt) :=
  [⟨2, .unlock .release none, 1, 1, .done .release none⟩,
    ⟨2, .notify, 1, 1, .unlock .release none⟩, ⟨2, .store, 0, 1, .notify⟩,
    ⟨2, .release, 0, 0, .store⟩, ⟨1, .wait, 0, 0, .wait⟩, ⟨0, .wait, 0, 0, .wait⟩]

/-- The event after the signal notified the first waiter. -/
def oneToken : State ℕ Label CInt where
  data := 1
  owner := none
  cv := ((Condvar.empty.park 0).park 1).notify {0}
  pc := Function.update (fun p => event.start (waitsAndSignal p).op) 2 (.done .release none)

theorem run_oneToken :
    Run event.program (event.Start 0 fun p => (waitsAndSignal p).op) signalTrace oneToken := by
  have h := @Run.start _ _ _ _ _ event.program (event.Start 0 fun p => (waitsAndSignal p).op)
    ⟨0, none, .empty, fun p => event.start (waitsAndSignal p).op⟩ ⟨rfl, rfl, rfl, fun _ => rfl⟩
  have h := h.step (e := ()) (.lock (p := 0) rfl ⟨.wait, rfl⟩ (by decide))
  have h := h.step (e := ()) (.wait (p := 0) rfl rfl)
  have h := h.step (e := ()) (.lock (p := 1) rfl ⟨.wait, rfl⟩ (by decide))
  have h := h.step (e := ()) (.wait (p := 1) rfl rfl)
  have h := h.step (e := ()) (.lock (p := 2) rfl ⟨.release, rfl⟩ (by decide))
  have h := h.step (e := ()) (.act (p := 2) rfl rfl)
  have h := h.step (e := ()) (.act (p := 2) rfl rfl)
  have h := h.step (e := ()) (.signal (p := 2) rfl rfl ⟨{0}, fun _ => by decide, rfl⟩)
  have h := h.step (e := ()) (.unlock (p := 2) rfl rfl)
  simp only [Function.update_idem] at h
  exact h

theorem event_token_law_signal :
    oneToken.data = 1 ∧ Paired signalTrace true ∧ oneToken.cv.ready.Nonempty := by
  have h := event_token_law run_oneToken
  refine ⟨rfl, h.2.1, ?_⟩
  rcases h.2.2.2.2.2.2 rfl ⟨1, by decide⟩ with hready | ⟨p, hown, -⟩
  · exact hready
  · cases hown

end MojitoSys.Sync
