import MojitoSys.Sync.AtomicWait
import MojitoSys.Util.Automaton

/-!
# The contract of atomic waits

What the calls of `mjs_atomic_wait_on_u32`, `mjs_atomic_wake_one_u32` and `mjs_atomic_wake_all_u32`
promise on every host, whatever puts their threads to sleep. A wait compares the word and sleeps if
it is as expected; a wake takes waits that sleep on its address and counts them; a wait that was
taken returns `0`, also when its deadline passes.

The contract is an automaton over the places of the calls and the words. It lets a sleep end for no
reason: the wait then compares the word again.

## Main definitions

* `Place`, `WaitEvent`, `WaitWorld`, `waitContract`.
* `handedIn`: the waits that the wakes of a trace took.
* `WaitLaw`: what a program may rely on.

## Main results

* `waitLaw_of_accepts`: the law, for every trace that the contract accepts.
-/

namespace MojitoSys.Sync

open Util

/-- Where a call stands. -/
inductive Place
  | running
  /-- The word was as expected. -/
  | asleep
  /-- A wake took the wait. -/
  | handed
  /-- The call returned, or is about to. -/
  | done (rc : Status)
  /-- A wake that took so many waits. -/
  | counted (n : ℕ)
  deriving DecidableEq, Repr

/-- What the calls do, and the stores to the words. -/
inductive WaitEvent (P : Type*)
  | stored (addr : Addr) (v : BitVec 32)
  | slept (p : P)
  /-- A sleep ended for no reason. -/
  | stirred (p : P)
  /-- The word was not as expected. -/
  | differed (p : P)
  /-- A wake took the waits. -/
  | woke (q : P) (ps : List P)
  /-- Code outside of the calls woke the wait. -/
  | strayed (p : P)
  /-- A wait that was taken goes on to return. -/
  | took (p : P)
  /-- The sleep ended with an error. -/
  | failed (p : P) (err : Errno)
  /-- The call failed before it looked at the word, or at the waits. -/
  | refused (p : P) (err : Errno)

/-- The words and the calls. -/
@[ext]
structure WaitWorld (P : Type*) where
  mem : Memory
  place : P → Place

/-- The most waits that one wake takes, `INT_MAX`. -/
def wakeLimit : ℕ := 0x7fffffff

section Contract

variable {P : Type*}

/-- The wait sleeps on the address. -/
def WaitWorld.AsleepOn (call : P → AwCall) (w : WaitWorld P) (addr : Addr) (p : P) : Prop :=
  w.place p = .asleep ∧ ∃ expected timed, call p = .wait addr expected timed

/-- Which waits a wake may take: one, if there is one; or all, up to what an `int` can count. -/
structure WaitWorld.Takes (call : P → AwCall) (w : WaitWorld P) (addr : Addr) (all : Bool)
    (ps : List P) : Prop where
  nodup : ps.Nodup
  asleep : ∀ p ∈ ps, w.AsleepOn call addr p
  one : all = false → ps.length ≤ 1
  some : ps = [] → ∀ p, ¬ w.AsleepOn call addr p
  every : all = true → ps.length < wakeLimit → ∀ p, w.AsleepOn call addr p → p ∈ ps

variable [DecidableEq P]

def WaitWorld.put (w : WaitWorld P) (p : P) (l : Place) : WaitWorld P :=
  { w with place := Function.update w.place p l }

/-- A call that stays where it is. -/
theorem WaitWorld.put_self {w : WaitWorld P} {p : P} {l : Place} (hl : w.place p = l) :
    w.put p l = w := by
  subst hl
  simp [WaitWorld.put]

/-- The waits are taken. -/
def WaitWorld.hand (w : WaitWorld P) (ps : List P) : WaitWorld P :=
  { w with place := fun p => if p ∈ ps then .handed else w.place p }

/-- The contract; `refuse` is the status of the calls that fail at once. -/
def waitContract (call : P → AwCall) (refuse : P → Status) (mem : Memory) :
    Automaton (WaitWorld P) (WaitEvent P) where
  start := ⟨mem, fun p => if refuse p = none then .running else .done (refuse p)⟩
  permits w
    | .stored _ _ => True
    | .slept p => w.place p = .running ∧
        ∃ addr expected timed, call p = .wait addr expected timed ∧ w.mem addr = expected
    | .differed p => w.place p = .running ∧
        ∃ addr expected timed, call p = .wait addr expected timed ∧ w.mem addr ≠ expected
    | .woke q ps => w.place q = .running ∧
        ∃ addr all, call q = .wake addr all ∧ w.Takes call addr all ps
    | .took p => w.place p = .handed
    | .stirred p | .strayed p => w.place p = .asleep
    | .failed p err => w.place p = .asleep ∧
        ∃ addr expected timed, call p = .wait addr expected timed ∧
          (err = .ETIMEDOUT → timed = true)
    | .refused p _ => w.place p = .running
  next w
    | .stored addr v => { w with mem := Function.update w.mem addr v }
    | .slept p => w.put p .asleep
    | .stirred p => w.put p .running
    | .differed p | .took p => w.put p (.done none)
    | .woke q ps => (w.hand ps).put q (.counted ps.length)
    | .strayed p => w.put p .handed
    | .failed p err | .refused p err => w.put p (.done (some err))

/-! ### Traces -/

/-- The waits that the wakes of a trace took. -/
def handedIn (tr : List (WaitEvent P)) : List P :=
  tr.flatMap fun
    | .woke _ ps => ps
    | _ => []

omit [DecidableEq P] in
/-- An event that does not take the wait. -/
theorem mem_handedIn_cons {e : WaitEvent P} {p : P} (he : ∀ q ps, e = .woke q ps → p ∉ ps)
    (tr : List (WaitEvent P)) : p ∈ handedIn (e :: tr) ↔ p ∈ handedIn tr := by
  cases e with
  | woke q ps =>
    change p ∈ ps ++ handedIn tr ↔ p ∈ handedIn tr
    simp [he q ps rfl]
  | _ => exact Iff.rfl

variable {call : P → AwCall} {refuse : P → Status} {mem : Memory} {tr : List (WaitEvent P)}
  {w : WaitWorld P} {p : P} {l l' : Place} {e : WaitEvent P}

/-- What a trace says about a call at its place. -/
structure Told (call : P → AwCall) (refuse : P → Status) (tr : List (WaitEvent P)) (p : P)
    (l : Place) : Prop where
  hand : p ∈ handedIn tr → l = .handed ∨ l = .done none
  handed : l = .handed → p ∈ handedIn tr ∨ .strayed p ∈ tr
  ok : l = .done none → p ∈ handedIn tr ∨ .strayed p ∈ tr ∨ .differed p ∈ tr
  asleep : l = .asleep → .slept p ∈ tr
  error : ∀ err, l = .done (some err) → refuse p = some err ∨ .refused p err ∈ tr ∨
    .slept p ∈ tr ∧ ∃ addr expected timed, call p = .wait addr expected timed ∧
      (err = .ETIMEDOUT → timed = true)
  counted : ∀ n, l = .counted n ↔ ∃ ps, .woke p ps ∈ tr ∧ ps.length = n

namespace Told

omit [DecidableEq P] in
/-- The call goes on to another place, and the event does not concern a wake. -/
theorem move (h : Told call refuse tr p l) (he : ∀ q ps, e ≠ .woke q ps)
    (hl : ∀ n, l ≠ .counted n) (hl' : ∀ n, l' ≠ .counted n)
    (hand : p ∈ handedIn tr → l' = .handed ∨ l' = .done none)
    (handed : l' = .handed → .strayed p ∈ e :: tr)
    (ok : l' = .done none → p ∈ handedIn tr ∨ .strayed p ∈ tr ∨ .differed p ∈ e :: tr)
    (asleep : l' = .asleep → .slept p ∈ e :: tr)
    (error : ∀ err, l' = .done (some err) → .refused p err ∈ e :: tr ∨
      .slept p ∈ tr ∧ ∃ addr expected timed, call p = .wait addr expected timed ∧
        (err = .ETIMEDOUT → timed = true)) :
    Told call refuse (e :: tr) p l' := by
  have hmem := mem_handedIn_cons (p := p) (fun q ps heq => absurd heq (he q ps)) tr
  refine ⟨fun hp => hand (hmem.mp hp), fun hp => Or.inr (handed hp), fun hp => ?_, asleep,
    fun err hp => Or.inr ?_, fun n => ⟨fun hp => absurd hp (hl' n), ?_⟩⟩
  · refine (ok hp).imp hmem.mpr (Or.imp_left (List.mem_cons_of_mem e))
  · exact (error err hp).imp_right (And.imp_left (List.mem_cons_of_mem e))
  · rintro ⟨ps, hps, hn⟩
    have hold : .woke p ps ∈ tr := by
      rcases List.mem_cons.mp hps with heq | hps
      · exact absurd heq.symm (he p ps)
      · exact hps
    exact absurd ((h.counted n).mpr ⟨ps, hold, hn⟩) (hl n)

omit [DecidableEq P] in
/-- The event is about other calls. -/
theorem stay (h : Told call refuse tr p l)
    (he : ∀ q ps, e = .woke q ps → p ≠ q ∧ p ∉ ps) : Told call refuse (e :: tr) p l := by
  have hmem := mem_handedIn_cons (fun q ps heq => (he q ps heq).2) tr
  have hcons {x : WaitEvent P} (hx : x ∈ tr) : x ∈ e :: tr := List.mem_cons_of_mem e hx
  refine ⟨fun hp => h.hand (hmem.mp hp), fun hp => (h.handed hp).imp hmem.mpr hcons,
    fun hp => (h.ok hp).imp hmem.mpr (Or.imp hcons hcons), fun hp => hcons (h.asleep hp),
    fun err hp => (h.error err hp).imp_right (Or.imp hcons (And.imp_left hcons)), fun n => ?_⟩
  rw [h.counted n]
  refine exists_congr fun ps => and_congr_left fun _ => ⟨hcons, fun hps => ?_⟩
  rcases List.mem_cons.mp hps with heq | hps
  · exact absurd rfl (he p ps heq.symm).1
  · exact hps

omit [DecidableEq P] in
/-- No wake took a call that runs or sleeps. -/
theorem not_handed (h : Told call refuse tr p l) (hl : l = .running ∨ l = .asleep) :
    p ∉ handedIn tr := by
  intro hp
  rcases h.hand hp with rfl | rfl <;> rcases hl with hl | hl <;> cases hl

end Told

/-- What a trace says about the calls. -/
structure Tells (call : P → AwCall) (refuse : P → Status) (tr : List (WaitEvent P))
    (w : WaitWorld P) : Prop where
  once : (handedIn tr).Nodup
  told : ∀ p, Told call refuse tr p (w.place p)

namespace Tells

theorem start : Tells call refuse [] (waitContract call refuse mem).start := by
  refine ⟨List.nodup_nil, fun p => ?_⟩
  change Told call refuse [] p (if refuse p = none then .running else .done (refuse p))
  by_cases hp : refuse p = none
  · rw [if_pos hp]
    exact ⟨by simp [handedIn], by simp, by simp, by simp, by simp, by simp⟩
  · rw [if_neg hp]
    exact ⟨by simp [handedIn], by simp, fun h => absurd (by injection h) hp, by simp,
      fun err h => Or.inl (by injection h), by simp⟩

/-- One call goes on to another place. -/
theorem put (h : Tells call refuse tr w) (he : ∀ q ps, e ≠ .woke q ps)
    (hp : Told call refuse (e :: tr) p l) : Tells call refuse (e :: tr) (w.put p l) := by
  have honce : handedIn (e :: tr) = handedIn tr := by
    cases e with
    | woke q ps => exact absurd rfl (he q ps)
    | _ => rfl
  refine ⟨honce ▸ h.once, fun q => ?_⟩
  by_cases hq : q = p
  · subst hq
    simpa [WaitWorld.put] using hp
  · simp only [WaitWorld.put, Function.update_of_ne hq]
    exact (h.told q).stay fun q ps heq => absurd heq (he q ps)

/-- A wake takes waits that no wake took before. -/
theorem woke {q : P} {ps : List P} (h : Tells call refuse tr w) (hq : w.place q = .running)
    (hnodup : ps.Nodup) (hps : ∀ p ∈ ps, w.place p = .asleep) :
    Tells call refuse (.woke q ps :: tr) ((w.hand ps).put q (.counted ps.length)) := by
  have hqps : q ∉ ps := by
    intro hmem
    cases hq.symm.trans (hps q hmem)
  have hnew (p : P) (hp : p ∈ ps) : p ∉ handedIn tr :=
    (h.told p).not_handed (Or.inr (hps p hp))
  refine ⟨List.nodup_append.mpr ⟨hnodup, h.once, ?_⟩, fun p => ?_⟩
  · rintro p hp _ hp' rfl
    exact hnew p hp hp'
  by_cases hpq : p = q
  · subst hpq
    have hplace : ((w.hand ps).put p (.counted ps.length)).place p = .counted ps.length :=
      Function.update_self ..
    rw [hplace]
    have hnot := (h.told p).not_handed (Or.inl hq)
    refine ⟨fun hp => ?_, by simp, by simp, by simp, by simp, fun n => ⟨fun hn => ?_, ?_⟩⟩
    · exact absurd hp ((mem_handedIn_cons (by rintro _ _ ⟨⟩; exact hqps) tr).not.mpr hnot)
    · exact ⟨ps, List.mem_cons_self, by injection hn⟩
    · rintro ⟨ps', hps', rfl⟩
      rcases List.mem_cons.mp hps' with heq | hps'
      · injection heq with _ heq
        rw [heq]
      · have hold := ((h.told p).counted _).mpr ⟨ps', hps', rfl⟩
        rw [hq] at hold
        cases hold
  · have hplace : ((w.hand ps).put q (.counted ps.length)).place p =
        if p ∈ ps then .handed else w.place p := Function.update_of_ne hpq ..
    rw [hplace]
    split_ifs with hp
    · have hmem : p ∈ handedIn (.woke q ps :: tr) := List.mem_append_left _ hp
      refine ⟨fun _ => Or.inl rfl, fun _ => Or.inl hmem, by simp, by simp, by simp,
        fun n => ⟨by simp, ?_⟩⟩
      rintro ⟨ps', hps', hn⟩
      have hold := (h.told p).counted n
      rw [hps p hp] at hold
      have hmem' : .woke p ps' ∈ tr := by simpa [hpq] using hps'
      cases hold.mpr ⟨ps', hmem', hn⟩
    · refine (h.told p).stay ?_
      rintro _ _ ⟨⟩
      exact ⟨hpq, hp⟩

/-- An event keeps what the trace says. -/
theorem next (h : Tells call refuse tr w) (he : (waitContract call refuse mem).permits w e) :
    Tells call refuse (e :: tr) ((waitContract call refuse mem).next w e) := by
  cases e with
  | stored addr v => exact ⟨h.once, fun p => (h.told p).stay (by simp)⟩
  | slept p =>
    have hnot := (h.told p).not_handed (Or.inl he.1)
    refine h.put (by simp) ((h.told p).move ?_ ?_ ?_ ?_ ?_ ?_ ?_ ?_)
    all_goals simp [he.1, hnot]
  | stirred p =>
    have hasleep : w.place p = .asleep := he
    have hnot := (h.told p).not_handed (Or.inr hasleep)
    refine h.put (by simp) ((h.told p).move ?_ ?_ ?_ ?_ ?_ ?_ ?_ ?_)
    all_goals simp [hasleep, hnot]
  | differed p =>
    refine h.put (by simp) ((h.told p).move ?_ ?_ ?_ ?_ ?_ ?_ ?_ ?_)
    all_goals simp [he.1]
  | woke q ps =>
    obtain ⟨hq, addr, all, -, htakes⟩ := he
    exact h.woke hq htakes.nodup fun p hp => (htakes.asleep p hp).1
  | strayed p =>
    have hasleep : w.place p = .asleep := he
    refine h.put (by simp) ((h.told p).move ?_ ?_ ?_ ?_ ?_ ?_ ?_ ?_)
    all_goals simp [hasleep]
  | took p =>
    have hhanded : w.place p = .handed := he
    have htold := (h.told p).handed hhanded
    refine h.put (by simp) ((h.told p).move ?_ ?_ ?_ ?_ ?_ ?_ ?_ ?_)
    case refine_6 => exact fun _ => htold.imp_right Or.inl
    all_goals simp [hhanded]
  | failed p err =>
    obtain ⟨hasleep, hwait⟩ := he
    have hnot := (h.told p).not_handed (Or.inr hasleep)
    refine h.put (by simp) ((h.told p).move ?_ ?_ ?_ ?_ ?_ ?_ ?_ ?_)
    case refine_8 =>
      rintro err' ⟨⟩
      exact Or.inr ⟨(h.told p).asleep hasleep, hwait⟩
    all_goals simp [hasleep, hnot]
  | refused p err =>
    have hrunning : w.place p = .running := he
    have hnot := (h.told p).not_handed (Or.inl hrunning)
    refine h.put (by simp) ((h.told p).move ?_ ?_ ?_ ?_ ?_ ?_ ?_ ?_)
    case refine_8 =>
      rintro err' ⟨⟩
      exact Or.inl List.mem_cons_self
    all_goals simp [hrunning, hnot]

end Tells

/-! ### The law -/

/-- The words and the calls after a trace. -/
def worldAfter (call : P → AwCall) (refuse : P → Status) (mem : Memory)
    (tr : List (WaitEvent P)) : WaitWorld P :=
  (waitContract call refuse mem).after (waitContract call refuse mem).start tr

/-- What a program may rely on. -/
structure WaitLaw (call : P → AwCall) (refuse : P → Status) (mem : Memory)
    (tr : List (WaitEvent P)) : Prop where
  /-- No wait is counted by two wakes. -/
  once : (handedIn tr).Nodup
  /-- A wait that was taken returns `0`. -/
  handed : ∀ p ∈ handedIn tr, (worldAfter call refuse mem tr).place p = .handed ∨
    (worldAfter call refuse mem tr).place p = .done none
  /-- The number that a wake returns. -/
  counted : ∀ q n, (worldAfter call refuse mem tr).place q = .counted n ↔
    ∃ ps, .woke q ps ∈ tr ∧ ps.length = n
  takes : ∀ tr' q ps, .woke q ps :: tr' <:+ tr → ∃ addr all, call q = .wake addr all ∧
    (worldAfter call refuse mem tr').Takes call addr all ps
  /-- A wait returns `0` because it was taken, or because the word was not as expected. -/
  ok : ∀ p, (worldAfter call refuse mem tr).place p = .done none →
    p ∈ handedIn tr ∨ .strayed p ∈ tr ∨ ∃ tr' addr expected timed, .differed p :: tr' <:+ tr ∧
      call p = .wait addr expected timed ∧ (worldAfter call refuse mem tr').mem addr ≠ expected
  /-- A wait that timed out had a deadline, and had found the word as expected. -/
  timedOut : ∀ p, (worldAfter call refuse mem tr).place p = .done (some .ETIMEDOUT) →
    refuse p = some .ETIMEDOUT ∨ .refused p .ETIMEDOUT ∈ tr ∨ ∃ tr' addr expected,
      .slept p :: tr' <:+ tr ∧ call p = .wait addr expected true ∧
        (worldAfter call refuse mem tr').mem addr = expected
  /-- After a wake of all, no wait for the change of `old` sleeps as long as the word is not `old`
  again. -/
  swept : ∀ tr' q ps addr old p timed, .woke q ps :: tr' <:+ tr → call q = .wake addr true →
    ps.length < wakeLimit →
    (∀ tr'', tr' <:+ tr'' → tr'' <:+ tr → (worldAfter call refuse mem tr'').mem addr ≠ old) →
    call p = .wait addr old timed → (worldAfter call refuse mem tr).place p ≠ .asleep

/-- A wait that sleeps did so before, or has just compared the word. -/
theorem asleep_of_next (h : ((waitContract call refuse mem).next w e).place p = .asleep) :
    w.place p = .asleep ∨ e = .slept p := by
  have hput {w : WaitWorld P} {q : P} {l : Place} (hl : l ≠ .asleep)
      (hp : (w.put q l).place p = .asleep) : w.place p = .asleep := by
    by_cases hpq : p = q
    · subst hpq
      exact absurd ((Function.update_self ..).symm.trans hp) hl
    · exact (Function.update_of_ne hpq ..).symm.trans hp
  cases e with
  | stored addr v => exact Or.inl h
  | slept q =>
    by_cases hpq : p = q
    · exact Or.inr (hpq ▸ rfl)
    · exact Or.inl ((Function.update_of_ne hpq ..).symm.trans h)
  | woke q ps =>
    have hhand : (w.hand ps).place p = .asleep := hput (by simp) h
    simp only [WaitWorld.hand] at hhand
    split_ifs at hhand
    exact Or.inl hhand
  | _ => exact Or.inl (hput (by simp) h)

/-- A wake of all leaves no wait asleep. -/
theorem not_asleep_of_takes {q : P} {ps : List P} {addr : Addr} {expected : BitVec 32}
    {timed : Bool} (h : w.Takes call addr true ps) (hlen : ps.length < wakeLimit)
    (hp : call p = .wait addr expected timed) :
    ((waitContract call refuse mem).next w (.woke q ps)).place p ≠ .asleep := by
  intro hasleep
  have hold : w.place p = .asleep := (asleep_of_next hasleep).resolve_right (by simp)
  have hmem := h.every rfl hlen p ⟨hold, expected, timed, hp⟩
  have hplace : ((w.hand ps).put q (.counted ps.length)).place p = .asleep := hasleep
  by_cases hpq : p = q
  · subst hpq
    cases (Function.update_self ..).symm.trans hplace
  · have hhand : (w.hand ps).place p = .asleep := (Function.update_of_ne hpq ..).symm.trans hplace
    simp [WaitWorld.hand, hmem] at hhand

/-- An event of an accepted trace was permitted. -/
theorem permits_of_suffix {tr' : List (WaitEvent P)}
    (h : (waitContract call refuse mem).Accepts (waitContract call refuse mem).start tr)
    (hs : e :: tr' <:+ tr) :
    (waitContract call refuse mem).permits (worldAfter call refuse mem tr') e := by
  obtain ⟨es, rfl⟩ := hs
  exact h.permits

theorem not_asleep_since {tr' : List (WaitEvent P)} {q : P} {ps : List P} {addr : Addr}
    {old : BitVec 32} {timed : Bool}
    (h : (waitContract call refuse mem).Accepts (waitContract call refuse mem).start tr)
    (hs : .woke q ps :: tr' <:+ tr) (hq : call q = .wake addr true) (hlen : ps.length < wakeLimit)
    (hmem : ∀ tr'', tr' <:+ tr'' → tr'' <:+ tr →
      (worldAfter call refuse mem tr'').mem addr ≠ old)
    (hp : call p = .wait addr old timed) : (worldAfter call refuse mem tr).place p ≠ .asleep := by
  obtain ⟨es, rfl⟩ := hs
  induction es with
  | nil =>
    obtain ⟨-, addr', all, hq', htakes⟩ := permits_of_suffix h (List.suffix_refl _)
    obtain ⟨rfl, rfl⟩ := AwCall.wake.inj (hq.symm.trans hq')
    exact not_asleep_of_takes htakes hlen hp
  | cons e es ih =>
    have hrest := ih h.1 fun tr'' h₁ h₂ => hmem tr'' h₁ (h₂.trans (List.suffix_cons _ _))
    intro hasleep
    rcases asleep_of_next hasleep with hold | rfl
    · exact hrest hold
    · -- the wait has just found the word equal to `old`
      obtain ⟨-, addr', expected, timed', hp', heq⟩ := permits_of_suffix h (List.suffix_refl _)
      obtain ⟨rfl, rfl, -⟩ := AwCall.wait.inj (hp.symm.trans hp')
      refine hmem (es ++ .woke q ps :: tr') ?_ (List.suffix_cons _ _) heq
      exact (List.suffix_cons _ _).trans (List.suffix_append _ _)

/-- Every trace that the contract accepts obeys the law. -/
theorem waitLaw_of_accepts
    (h : (waitContract call refuse mem).Accepts (waitContract call refuse mem).start tr) :
    WaitLaw call refuse mem tr := by
  have htells : Tells call refuse tr (worldAfter call refuse mem tr) :=
    h.invariant (P := Tells call refuse) .start fun _ _ hold he => hold.next he
  refine ⟨htells.once, fun p => (htells.told p).hand, fun q => (htells.told q).counted,
    fun tr' q ps hs => (permits_of_suffix h hs).2, fun p hp => ?_, fun p hp => ?_,
    fun tr' q ps addr old p timed hs hq hlen hmem => not_asleep_since h hs hq hlen hmem⟩
  · refine ((htells.told p).ok hp).imp_right (Or.imp_right fun hmem => ?_)
    obtain ⟨es, tr', rfl⟩ := List.append_of_mem hmem
    obtain ⟨-, addr, expected, timed, hc, hne⟩ := permits_of_suffix h (List.suffix_append _ _)
    exact ⟨tr', addr, expected, timed, List.suffix_append _ _, hc, hne⟩
  · refine ((htells.told p).error _ hp).imp_right (Or.imp_right fun ⟨hmem, hwait⟩ => ?_)
    obtain ⟨es, tr', rfl⟩ := List.append_of_mem hmem
    obtain ⟨-, addr, expected, timed, hc, heq⟩ := permits_of_suffix h (List.suffix_append _ _)
    obtain ⟨addr', expected', timed', hc', htimed⟩ := hwait
    obtain ⟨rfl, rfl, rfl⟩ := AwCall.wait.inj (hc.symm.trans hc')
    exact ⟨tr', addr, expected, List.suffix_append _ _, htimed rfl ▸ hc, heq⟩

end Contract

end MojitoSys.Sync
