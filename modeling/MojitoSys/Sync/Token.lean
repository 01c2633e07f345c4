import MojitoSys.Status
import MojitoSys.Util.Monitor
import Mathlib.Algebra.BigOperators.Group.Finset.Piecewise
import Mathlib.Data.Int.Notation
import Mathlib.Data.List.Count

/-!
# Token monitors

The semaphore and the event are one integer with an internal mutex and condition variable, and
their calls have the same code. A release stores a token and signals the condition variable; the
event first tests whether a token is pending, and then does nothing. A wait parks while the integer
is zero, and then takes a token; a bounded wait that the condition variable returned with an error
tests the integer once more before it gives up; an attempt never parks. The calls of `mjs_mutex`
and `mjs_condvar` do not fail, apart from the timeout of a bounded wait.

## Main definitions

* `Op`, `Label`: the calls and the places in their code.
* `TokenKind`: what distinguishes the two objects.
* `TokenKind.code`, `TokenKind.program`: the code of the calls.
* `TokenKind.TokenInstr`: what the calls can execute.
* `stores`, `takes`, `lastTest`: what a trace did.

## Main results

* `TokenKind.balanced`: the integer is the initial value plus the stores minus the takes.
* `TokenKind.covered`: a blocked waiter and `n` tokens need `n` ready waiters.
* `TokenKind.stores_of_done`, `TokenKind.takes_of_done`, `TokenKind.failed_of_done`: what a
  returned call did.
-/

namespace MojitoSys.Sync

open Util.Monitor

/-- What `mjs_condvar_wait` may return. -/
def condvarWait : Set Status := {none}

/-- What `mjs_condvar_wait_until` may return. On a passed deadline it may return without having
released the mutex, which is a wait that nobody interleaves with. -/
def condvarWaitUntil : Set Status := {none, some .ETIMEDOUT}

/-- A C `int`. -/
abbrev CInt := BitVec 32

/-- The calls. -/
inductive Op
  /-- `post` of a semaphore, `signal` of an event. -/
  | release
  | wait
  | waitUntil
  | tryWait
  deriving DecidableEq, Repr

/-- The places in the code of the calls. -/
inductive Label
  /-- The test of a release that coalesces. -/
  | release
  /-- The store of a token. -/
  | store
  /-- The signal of the condition variable. -/
  | notify
  /-- The test of the loop of `wait`. -/
  | wait
  /-- The test of `wait` after the condition variable returned `rc`. -/
  | woken (rc : Status)
  /-- The test of the loop of `wait_until`. -/
  | waitUntil
  /-- The test of `wait_until` after the condition variable returned `rc`. -/
  | expiry (rc : Status)
  /-- The test of `try_wait`. -/
  | tryWait
  /-- The consumption of a token. -/
  | take (op : Op)
  | unlock (op : Op) (rc : Status)
  | done (op : Op) (rc : Status)
  deriving DecidableEq, Repr

/-- An object that holds up to `max` tokens. -/
structure TokenKind where
  /-- The integer after the store of a token. -/
  put : CInt → CInt
  /-- The integer after the consumption of a token. -/
  drop : CInt → CInt
  /-- The most tokens that the integer can count. -/
  max : ℤ
  /-- A release of a pending token does nothing. -/
  coalesce : Bool
  max_pos : 0 < max
  put_eq : ∀ {d}, 0 ≤ d.toInt → d.toInt < max → (put d).toInt = d.toInt + 1
  drop_eq : ∀ {d}, 0 < d.toInt → d.toInt ≤ max → (drop d).toInt = d.toInt - 1
  put_le : ∀ d, (put d).toNat ≤ d.toNat + 1
  drop_lt : ∀ {d}, d ≠ 0 → (drop d).toNat < d.toNat

namespace TokenKind

/-- The instruction at a label. -/
def code (K : TokenKind) : Label → CInt → Option (Instr CInt Label)
  | .release, d => if d = 0 then some (.act d .store) else some (.act d (.unlock .release none))
  | .store, d => some (.act (K.put d) .notify)
  | .notify, _ => some (.signal (.unlock .release none))
  | .wait, d => if d = 0 then some .wait else some (.act d (.take .wait))
  | .woken rc, d =>
    if rc ≠ none then some (.act d (.unlock .wait rc)) else some (.act d .wait)
  | .waitUntil, d => if d = 0 then some .wait else some (.act d (.take .waitUntil))
  | .expiry rc, d =>
    if rc ≠ none ∧ d = 0 then some (.act d (.unlock .waitUntil rc)) else some (.act d .waitUntil)
  | .tryWait, d =>
    if d = 0 then some (.act d (.unlock .tryWait (some .EBUSY))) else some (.act d (.take .tryWait))
  | .take op, d => some (.act (K.drop d) (.unlock op none))
  | .unlock op rc, _ => some (.unlock (.done op rc))
  | .done _ _, _ => none

/-- What the calls can execute, instruction by instruction, with what a test saw. -/
inductive TokenInstr (K : TokenKind) (d : CInt) : Label → Instr CInt Label → Prop
  | releaseStore (h : d = 0) : TokenInstr K d .release (.act d .store)
  | releasePending (h : d ≠ 0) : TokenInstr K d .release (.act d (.unlock .release none))
  | store : TokenInstr K d .store (.act (K.put d) .notify)
  | notify : TokenInstr K d .notify (.signal (.unlock .release none))
  | park (h : d = 0) : TokenInstr K d .wait .wait
  | waitTake (h : d ≠ 0) : TokenInstr K d .wait (.act d (.take .wait))
  | failed {rc : Status} (h : rc ≠ none) : TokenInstr K d (.woken rc) (.act d (.unlock .wait rc))
  | again : TokenInstr K d (.woken none) (.act d .wait)
  | parkUntil (h : d = 0) : TokenInstr K d .waitUntil .wait
  | waitUntilTake (h : d ≠ 0) : TokenInstr K d .waitUntil (.act d (.take .waitUntil))
  | expired {rc : Status} (hrc : rc ≠ none) (h : d = 0) :
      TokenInstr K d (.expiry rc) (.act d (.unlock .waitUntil rc))
  | againUntil {rc : Status} : TokenInstr K d (.expiry rc) (.act d .waitUntil)
  | busy (h : d = 0) : TokenInstr K d .tryWait (.act d (.unlock .tryWait (some .EBUSY)))
  | tryTake (h : d ≠ 0) : TokenInstr K d .tryWait (.act d (.take .tryWait))
  | take {op : Op} : TokenInstr K d (.take op) (.act (K.drop d) (.unlock op none))
  | unlock {op : Op} {rc : Status} : TokenInstr K d (.unlock op rc) (.unlock (.done op rc))

/-- An instruction of a call is one of these. -/
theorem code_cases {K : TokenKind} {l : Label} {d : CInt} {i : Instr CInt Label}
    (h : K.code l d = some i) : TokenInstr K d l i := by
  cases l with
  | release =>
    simp only [code] at h
    split_ifs at h with hd
    · exact Option.some.inj h ▸ .releaseStore hd
    · exact Option.some.inj h ▸ .releasePending hd
  | store => exact Option.some.inj h ▸ .store
  | notify => exact Option.some.inj h ▸ .notify
  | wait =>
    simp only [code] at h
    split_ifs at h with hd
    · exact Option.some.inj h ▸ .park hd
    · exact Option.some.inj h ▸ .waitTake hd
  | woken rc =>
    simp only [code] at h
    split_ifs at h with hrc
    · exact Option.some.inj h ▸ .failed hrc
    · obtain rfl := not_not.mp hrc
      exact Option.some.inj h ▸ .again
  | waitUntil =>
    simp only [code] at h
    split_ifs at h with hd
    · exact Option.some.inj h ▸ .parkUntil hd
    · exact Option.some.inj h ▸ .waitUntilTake hd
  | expiry rc =>
    simp only [code] at h
    split_ifs at h with hd
    · exact Option.some.inj h ▸ .expired hd.1 hd.2
    · exact Option.some.inj h ▸ .againUntil
  | tryWait =>
    simp only [code] at h
    split_ifs at h with hd
    · exact Option.some.inj h ▸ .busy hd
    · exact Option.some.inj h ▸ .tryTake hd
  | take op => exact Option.some.inj h ▸ .take
  | unlock op rc => exact Option.some.inj h ▸ .unlock
  | done op rc => cases h

/-- Where a call takes the mutex. -/
def start (K : TokenKind) : Op → Label
  | .release => if K.coalesce then .release else .store
  | .wait => .wait
  | .waitUntil => .waitUntil
  | .tryWait => .tryWait

variable {P : Type*}

/-- The program of the calls. -/
def program (K : TokenKind) : Program P Unit Label CInt where
  entry := Set.range K.start
  refuse _ := ∅
  code _ _ l d i := K.code l d = some i
  back _
    | .wait => {l | ∃ rc ∈ condvarWait, l = .woken rc}
    | .waitUntil => {l | ∃ rc ∈ condvarWaitUntil, l = .expiry rc}
    | _ => ∅

end TokenKind

/-! ### Traces -/

section Trace

variable {P : Type*}

/-- The label is the consumption of a token. -/
def Label.isTake : Label → Bool
  | .take _ => true
  | _ => false

/-- The label is a test of the integer. -/
def Label.isTest : Label → Bool
  | .release | .wait | .waitUntil | .expiry _ | .tryWait => true
  | _ => false

/-- The holder of the mutex is about to signal the condition variable, or to test or take a
token. -/
def Label.isPending : Label → Bool
  | .notify | .wait | .woken _ | .waitUntil | .expiry _ | .tryWait | .take _ => true
  | .release | .store | .unlock _ _ | .done _ _ => false

/-- The number of tokens stored. -/
def stores (tr : List (Exec P Label CInt)) : ℕ := tr.countP fun x => x.label = .store

/-- The number of tokens consumed. -/
def takes (tr : List (Exec P Label CInt)) : ℕ := tr.countP fun x => x.label.isTake

/-- What the last test saw. -/
def lastTest (tr : List (Exec P Label CInt)) : Option CInt :=
  (tr.find? fun x => x.label.isTest).map Exec.pre

/-- A store adds one token, a take removes one that was there, and nothing else changes the
integer. -/
def Moves (x : Exec P Label CInt) : Prop :=
  match x.label with
  | .store => 0 ≤ x.pre.toInt ∧ x.post.toInt = x.pre.toInt + 1
  | .take _ => 0 < x.pre.toInt ∧ x.post.toInt = x.pre.toInt - 1
  | _ => x.post = x.pre

theorem stores_cons (x : Exec P Label CInt) (tr : List (Exec P Label CInt)) :
    stores (x :: tr) = stores tr + if x.label = .store then 1 else 0 := by
  simp [stores, List.countP_cons]

theorem takes_cons (x : Exec P Label CInt) (tr : List (Exec P Label CInt)) :
    takes (x :: tr) = takes tr + if x.label.isTake then 1 else 0 := by
  simp [takes, List.countP_cons]

/-- The takes of different processes are different. -/
theorem sum_takes_own_le [DecidableEq P] (A : Finset P) (tr : List (Exec P Label CInt)) :
    ∑ p ∈ A, takes (own p tr) ≤ takes tr := by
  induction tr with
  | nil => simp [own, takes]
  | cons x tr ih =>
    have hx (p : P) : takes (own p (x :: tr)) =
        takes (own p tr) + if p = x.proc then (if x.label.isTake then 1 else 0) else 0 := by
      by_cases hp : p = x.proc
      · rw [hp, own_cons_self, takes_cons, if_pos rfl]
      · rw [own_cons_of_ne (Ne.symm hp), if_neg hp, Nat.add_zero]
    have hsum : (∑ p ∈ A, if p = x.proc then (if x.label.isTake then 1 else 0) else 0) ≤
        if x.label.isTake then 1 else 0 := by
      rw [Finset.sum_ite_eq']
      split_ifs <;> simp
    simp only [hx, Finset.sum_add_distrib, takes_cons]
    omega

theorem lastTest_cons (x : Exec P Label CInt) (tr : List (Exec P Label CInt)) :
    lastTest (x :: tr) = if x.label.isTest then some x.pre else lastTest tr := by
  unfold lastTest
  rw [List.find?_cons]
  cases x.label.isTest <;> rfl

end Trace

/-! ### The invariant -/

namespace TokenKind

variable {P : Type*} (K : TokenKind) (k : ℤ)

/-- The integer cannot overflow: a release of a full object does nothing, or all tokens together fit
into the integer. -/
def Room (tr : List (Exec P Label CInt)) : Prop := K.coalesce = true ∨ k + stores tr ≤ K.max

/-- The integer is the initial value plus the stores minus the takes. -/
structure Balance (tr : List (Exec P Label CInt)) (d : CInt) : Prop where
  eq : d.toInt = k + stores tr - takes tr
  nonneg : 0 ≤ d.toInt
  le : d.toInt ≤ K.max
  moves : ∀ x ∈ tr, Moves x
  within : ∀ tr', tr' <:+ tr → 0 ≤ k + stores tr' - takes tr' ∧ k + stores tr' - takes tr' ≤ K.max

/-- The tokens that are covered by ready waiters when the holder of the mutex is at a label, and
what the label knows about the integer. After an overflow the integer is read without its sign. -/
def AtLabel (d : CInt) (cv : Condvar P) : Label → Prop
  | .release | .unlock _ _ | .done _ _ => cv.Covered d.toNat
  | .store => cv.Covered d.toNat ∧ (K.coalesce = true → d = 0)
  | .notify | .wait | .waitUntil | .expiry _ | .tryWait => cv.Covered (d.toNat - 1)
  | .woken rc => rc = none ∧ cv.Covered (d.toNat - 1)
  | .take _ => d ≠ 0 ∧ cv.Covered (d.toNat - 1)

variable {K k}

theorem Room.tail {x : Exec P Label CInt} {tr : List (Exec P Label CInt)}
    (h : K.Room k (x :: tr)) : K.Room k tr := by
  refine h.imp_right fun hk => ?_
  rw [stores_cons] at hk
  push_cast at hk
  split_ifs at hk <;> omega

section Balance

variable {tr : List (Exec P Label CInt)} {d : CInt} {p : P}

/-- The balance after one more instruction, from the new value of the integer. -/
theorem Balance.cons (h : K.Balance k tr d) {x : Exec P Label CInt} {d' : CInt} (hx : Moves x)
    (heq : d'.toInt = k + stores (x :: tr) - takes (x :: tr)) (h0 : 0 ≤ d'.toInt)
    (hle : d'.toInt ≤ K.max) : K.Balance k (x :: tr) d' where
  eq := heq
  nonneg := h0
  le := hle
  moves := List.forall_mem_cons.mpr ⟨hx, h.moves⟩
  within tr' htr' := by
    rcases List.suffix_cons_iff.mp htr' with rfl | htail
    · rw [← heq]
      exact ⟨h0, hle⟩
    · exact h.within tr' htail

/-- An instruction that is neither a store nor a take. -/
theorem Balance.keep (h : K.Balance k tr d) {x : Exec P Label CInt} (hs : x.label ≠ .store)
    (ht : x.label.isTake = false) (hx : Moves x) : K.Balance k (x :: tr) d := by
  refine h.cons hx ?_ h.nonneg h.le
  rw [stores_cons, takes_cons, if_neg hs, if_neg (by simp [ht])]
  exact h.eq

/-- A store in a run with room finds the integer below its maximum. -/
theorem Room.lt_max {d' : CInt} {l' : Label} (hroom : K.Room k (⟨p, .store, d, d', l'⟩ :: tr))
    (h : K.Balance k tr d) (hd : K.coalesce = true → d = 0) : d.toInt < K.max := by
  have heq := h.eq
  rcases hroom with hc | hk
  · rw [hd hc]
    exact K.max_pos
  · rw [stores_cons] at hk
    simp only [if_true] at hk
    push_cast at hk
    omega

theorem Balance.store (h : K.Balance k tr d) (hlt : d.toInt < K.max) :
    K.Balance k (⟨p, .store, d, K.put d, .notify⟩ :: tr) (K.put d) := by
  have heq := h.eq
  have hput := K.put_eq h.nonneg hlt
  refine h.cons ⟨h.nonneg, hput⟩ ?_ ?_ ?_
  · rw [stores_cons, takes_cons, hput]
    simp only [if_true, Label.isTake, Bool.false_eq_true, if_false]
    push_cast
    omega
  · have := h.nonneg
    omega
  · omega

theorem Balance.take (h : K.Balance k tr d) (hd : d ≠ 0) (op : Op) :
    K.Balance k (⟨p, .take op, d, K.drop d, .unlock op none⟩ :: tr) (K.drop d) := by
  have hpos : 0 < d.toInt := by
    have hne : d.toInt ≠ 0 := fun h0 => hd (BitVec.toInt_inj.mp (by simpa using h0))
    have := h.nonneg
    omega
  have hdrop := K.drop_eq hpos h.le
  have heq := h.eq
  have hle := h.le
  refine h.cons ⟨hpos, hdrop⟩ ?_ ?_ ?_
  · rw [stores_cons, takes_cons, hdrop]
    simp only [Label.isTake, if_true, reduceCtorEq, if_false]
    push_cast
    omega
  · omega
  · omega

/-- An instruction that writes the integer, or only tests it, keeps the balance. -/
theorem Balance.act {d' : CInt} {cv : Condvar P} {l l' : Label}
    (hcode : K.code l d = some (.act d' l')) (hlt : l = .store → d.toInt < K.max)
    (h : K.Balance k tr d) (ha : K.AtLabel d cv l) : K.Balance k (⟨p, l, d, d', l'⟩ :: tr) d' := by
  cases code_cases hcode with
  | store => exact h.store (hlt rfl)
  | take => exact h.take ha.1 _
  | _ => exact h.keep (by simp) rfl rfl

end Balance

section AtLabel

variable {d : CInt} {cv : Condvar P} {p : P} {l l' : Label}

/-- An instruction that writes the integer, or only tests it, leads to its next label. -/
theorem AtLabel.act {d' : CInt} (hcode : K.code l d = some (.act d' l')) (h : K.AtLabel d cv l) :
    K.AtLabel d' cv l' := by
  cases code_cases hcode with
  | releaseStore hd => exact ⟨h, fun _ => hd⟩
  | releasePending hd => exact h
  | store =>
    have hput := K.put_le d
    exact h.1.mono (by omega)
  | waitTake hd => exact ⟨hd, h⟩
  | failed hrc => exact absurd h.1 hrc
  | again => exact h.2
  | waitUntilTake hd => exact ⟨hd, h⟩
  | expired hrc hd => exact Condvar.covered_of_nonpos (by simp [hd])
  | againUntil => exact h
  | busy hd => exact Condvar.covered_of_nonpos (by simp [hd])
  | tryTake hd => exact ⟨hd, h⟩
  | take =>
    have hdrop := K.drop_lt h.1
    exact h.2.mono (by omega)

/-- Only a loop test that saw zero parks. -/
theorem eq_zero_of_wait (h : K.code l d = some .wait) : d = 0 ∧ (l = .wait ∨ l = .waitUntil) := by
  cases code_cases h with
  | park hd => exact ⟨hd, Or.inl rfl⟩
  | parkUntil hd => exact ⟨hd, Or.inr rfl⟩

theorem notify_of_signal (h : K.code l d = some (.signal l')) :
    l = .notify ∧ l' = .unlock .release none := by
  cases code_cases h
  exact ⟨rfl, rfl⟩

theorem unlock_of_unlock (h : K.code l d = some (.unlock l')) :
    ∃ op rc, l = .unlock op rc ∧ l' = .done op rc := by
  cases code_cases h
  exact ⟨_, _, rfl, rfl⟩

theorem no_broadcast : K.code l d ≠ some (.broadcast l') := by
  intro h
  cases code_cases h

/-- A wait returns to its test. -/
theorem AtLabel.of_back (hl : l' ∈ K.program.back p l) (h : cv.Covered (d.toNat - 1)) :
    K.AtLabel d cv l' := by
  cases l with
  | wait =>
    obtain ⟨rc, hrc, rfl⟩ := hl
    exact ⟨hrc, h⟩
  | waitUntil =>
    obtain ⟨rc, -, rfl⟩ := hl
    exact h
  | _ => exact absurd hl (Set.notMem_empty _)

theorem AtLabel.of_entry (hl : l ∈ (K.program (P := P)).entry) (h : cv.Covered d.toNat) :
    K.AtLabel d cv l := by
  have hless : cv.Covered (d.toNat - 1) := h.mono (by omega)
  obtain ⟨op, rfl⟩ := hl
  cases op with
  | release =>
    simp only [start]
    split_ifs with hc
    · exact h
    · exact ⟨h, fun hc' => absurd hc' hc⟩
  | wait => exact hless
  | waitUntil => exact hless
  | tryWait => exact hless

theorem AtLabel.notify [DecidableEq P] (h : K.AtLabel d cv l) (ps : Finset P) :
    K.AtLabel d (cv.notify ps) l := by
  cases l with
  | store => exact ⟨h.1.notify ps, h.2⟩
  | woken rc => exact ⟨h.1, h.2.notify ps⟩
  | take op => exact ⟨h.1, h.2.notify ps⟩
  | _ => exact Condvar.Covered.notify h ps

end AtLabel

/-- The proof outline of the calls. -/
def outline [DecidableEq P] (K : TokenKind) (k : ℤ) : Outline (K.program (P := P)) where
  free tr d cv := (K.Room k tr → K.Balance k tr d) ∧ cv.Covered d.toNat
  held tr _ l d cv := (K.Room k tr → K.Balance k tr d) ∧ K.AtLabel d cv l
  lock hl _ h := h.imp_right (AtLabel.of_entry hl)
  act hcode _ h := by
    refine ⟨fun hroom => (h.1 hroom.tail).act hcode (fun hl => ?_) h.2, h.2.act hcode⟩
    subst hl
    exact hroom.lt_max (h.1 hroom.tail) h.2.2
  signal hcode hs h := by
    obtain ⟨rfl, rfl⟩ := notify_of_signal hcode
    refine ⟨fun hroom => (h.1 hroom.tail).keep (by simp) rfl rfl, ?_⟩
    have hc := Condvar.Covered.signal h.2 hs
    rwa [Int.sub_add_cancel] at hc
  broadcast hcode := absurd hcode no_broadcast
  wait hcode _ h := by
    obtain ⟨rfl, hl⟩ := eq_zero_of_wait hcode
    refine ⟨fun hroom => ?_, Condvar.covered_of_nonpos le_rfl⟩
    rcases hl with rfl | rfl
    · exact (h.1 hroom.tail).keep (by simp) rfl rfl
    · exact (h.1 hroom.tail).keep (by simp) rfl rfl
  unlock hcode _ h := by
    obtain ⟨op, rc, rfl, -⟩ := unlock_of_unlock hcode
    exact ⟨fun hroom => (h.1 hroom.tail).keep (by simp) rfl rfl, h.2⟩
  resume hl hp h := ⟨h.1, AtLabel.of_back hl (h.2.retire hp)⟩
  wakeup_free _ h := h.imp_right fun hc => hc.notify _
  wakeup_held _ h := h.imp_right fun ha => ha.notify _

/-! ### Runs -/

/-- The object with the integer `k`, and no call begun; `op p` is the call of process `p`. -/
structure Start (K : TokenKind) (k : CInt) (op : P → Op) (s : State P Label CInt) : Prop where
  data : s.data = k
  owner : s.owner = none
  blocked : s.cv.blocked = ∅
  pc : ∀ p, s.pc p = K.start (op p)

variable [DecidableEq P] {k : CInt} {op : P → Op} {tr : List (Exec P Label CInt)}
  {s : State P Label CInt}

omit [DecidableEq P] in
/-- Before the first call the integer has its initial value. -/
theorem Balance.nil (hk : 0 ≤ k.toInt) (hmax : k.toInt ≤ K.max) :
    K.Balance k.toInt ([] : List (Exec P Label CInt)) k where
  eq := by simp [stores, takes]
  nonneg := hk
  le := hmax
  moves := by simp
  within tr' htr' := by
    obtain rfl := List.suffix_nil.mp htr'
    simpa [stores, takes] using ⟨hk, hmax⟩

/-- The assertions of the outline hold along every run. -/
theorem holds_run (hk : 0 ≤ k.toInt) (hmax : k.toInt ≤ K.max)
    (hr : Run K.program (K.Start k op) tr s) : (K.outline k.toInt).Holds tr s := by
  refine Outline.run (fun s hs => ⟨hs.owner, fun _ => ?_, fun hb => ?_⟩) hr
  · rw [hs.data]
    exact .nil hk hmax
  · simp [hs.blocked] at hb

/-- In every state of a run the integer is the initial value plus the stores minus the takes. -/
theorem balanced (hk : 0 ≤ k.toInt) (hmax : k.toInt ≤ K.max)
    (hr : Run K.program (K.Start k op) tr s) (hroom : K.Room k.toInt tr) :
    K.Balance k.toInt tr s.data := by
  have h := holds_run hk hmax hr
  cases hown : s.owner with
  | none => exact (h.free hown).1 hroom
  | some p => exact (h.held p hown).1 hroom

/-- It is so, too, in every run whose stores all found the integer below its maximum. -/
theorem balanced_of_bounded (hk : 0 ≤ k.toInt) (hmax : k.toInt ≤ K.max)
    (hr : Run K.program (K.Start k op) tr s)
    (hlt : ∀ x ∈ tr, x.label = .store → x.pre.toInt < K.max) : K.Balance k.toInt tr s.data := by
  induction hr with
  | start hs =>
    rw [hs.data]
    exact .nil hk hmax
  | step hr hs ih =>
    rw [List.forall_mem_append] at hlt
    have hb := ih hlt.2
    cases hs with
    | lock => exact hb
    | refuse => exact hb
    | wakeup => exact hb
    | resume => exact hb
    | @act p d l hown hcode =>
      -- The assertion at the label of the holder says that a take finds a token.
      have ha := ((holds_run hk hmax hr).held p hown).2
      exact hb.act hcode (hlt.1 _ (List.mem_singleton_self _)) ha
    | signal hown hcode =>
      obtain ⟨hl, -⟩ := notify_of_signal hcode
      rw [hl]
      exact hb.keep (by simp) rfl rfl
    | broadcast hown hcode => exact absurd hcode no_broadcast
    | wait hown hcode =>
      obtain ⟨-, hl | hl⟩ := eq_zero_of_wait hcode
      · rw [hl]
        exact hb.keep (by simp) rfl rfl
      · rw [hl]
        exact hb.keep (by simp) rfl rfl
    | unlock hown hcode =>
      obtain ⟨o, rc, hl, -⟩ := unlock_of_unlock hcode
      rw [hl]
      exact hb.keep (by simp) rfl rfl

/-- Every store of a run wrote what `put` computes. -/
theorem post_of_store (hr : Run K.program (K.Start k op) tr s) :
    ∀ x ∈ tr, x.label = .store → x.post = K.put x.pre := by
  induction hr with
  | start => simp
  | @step tr es s s' e hr hs ih =>
    rw [List.forall_mem_append]
    refine ⟨?_, ih⟩
    rcases hs.exec_cases with ⟨rfl, -⟩ | ⟨p, i, -, hcode, -, -, rfl⟩
    · simp
    · intro x hx hl
      obtain rfl := List.mem_singleton.mp hx
      have hput : K.code (s.pc p) s.data = some i := hcode
      rw [show s.pc p = .store from hl] at hput
      cases code_cases hput
      rfl

/-- When the mutex is free, every token is covered by a ready waiter, if any waiter is blocked. -/
theorem covered (hk : 0 ≤ k.toInt) (hmax : k.toInt ≤ K.max)
    (hr : Run K.program (K.Start k op) tr s) (hfree : s.owner = none) :
    s.cv.Covered s.data.toNat :=
  ((holds_run hk hmax hr).free hfree).2

/-- So it is when the mutex is held, unless its holder is about to signal, or to test or take. -/
theorem covered_of_held (hk : 0 ≤ k.toInt) (hmax : k.toInt ≤ K.max)
    (hr : Run K.program (K.Start k op) tr s) {p : P} (hown : s.owner = some p)
    (hp : (s.pc p).isPending = false) : s.cv.Covered s.data.toNat := by
  have h : K.AtLabel s.data s.cv (s.pc p) := ((holds_run hk hmax hr).held p hown).2
  cases hl : s.pc p with
  | store =>
    rw [hl] at h
    exact h.1
  | release =>
    rw [hl] at h
    exact h
  | unlock o rc =>
    rw [hl] at h
    exact h
  | done o rc =>
    rw [hl] at h
    exact h
  | _ =>
    rw [hl] at hp
    cases hp

/-! ### What a call did -/

/-- What the instructions of one call did, up to a label: an acquiring call takes one token if it
returns `0`, and none after a test that saw zero if it returns an error; a release stores one token,
unless it coalesced. -/
def Outcome (K : TokenKind) (h : List (Exec P Label CInt)) : Label → Prop
  | .wait | .waitUntil | .expiry _ | .tryWait => stores h = 0 ∧ takes h = 0
  | .release => K.coalesce = true ∧ stores h = 0 ∧ takes h = 0
  | .store => stores h = 0 ∧ takes h = 0 ∧ (K.coalesce = true → lastTest h = some 0)
  | .notify => stores h = 1 ∧ takes h = 0 ∧ (K.coalesce = true → lastTest h = some 0)
  | .woken rc => rc = none ∧ stores h = 0 ∧ takes h = 0
  | .take op => op ≠ .release ∧ stores h = 0 ∧ takes h = 0
  | .unlock .release rc | .done .release rc =>
    rc = none ∧ takes h = 0 ∧
      stores h = if K.coalesce = true ∧ lastTest h ≠ some 0 then 0 else 1
  | .unlock _ rc | .done _ rc =>
    stores h = 0 ∧ takes h = (if rc = none then 1 else 0) ∧ (rc ≠ none → lastTest h = some 0)

omit [DecidableEq P] in
/-- An instruction that writes the integer, or only tests it. -/
theorem Outcome.act {h : List (Exec P Label CInt)} {d d' : CInt} {p : P} {l l' : Label}
    (hcode : K.code l d = some (.act d' l')) (ho : K.Outcome h l) :
    K.Outcome (⟨p, l, d, d', l'⟩ :: h) l' := by
  cases code_cases hcode with
  | releaseStore hd =>
    obtain ⟨-, hs, ht⟩ := ho
    simp [Outcome, stores_cons, takes_cons, lastTest_cons, hs, ht, hd, Label.isTake, Label.isTest]
  | releasePending hd =>
    obtain ⟨hc, hs, ht⟩ := ho
    simpa [Outcome, stores_cons, takes_cons, lastTest_cons, hs, ht, hc, Label.isTake, Label.isTest]
      using hd
  | store =>
    obtain ⟨hs, ht, hl⟩ := ho
    simpa [Outcome, stores_cons, takes_cons, lastTest_cons, hs, ht, Label.isTake, Label.isTest]
      using hl
  | waitTake hd =>
    obtain ⟨hs, ht⟩ := ho
    simp [Outcome, stores_cons, takes_cons, hs, ht, Label.isTake]
  | failed hrc => exact absurd ho.1 hrc
  | again =>
    obtain ⟨-, hs, ht⟩ := ho
    simp [Outcome, stores_cons, takes_cons, hs, ht, Label.isTake]
  | waitUntilTake hd =>
    obtain ⟨hs, ht⟩ := ho
    simp [Outcome, stores_cons, takes_cons, hs, ht, Label.isTake]
  | expired hrc hd =>
    obtain ⟨hs, ht⟩ := ho
    simp [Outcome, stores_cons, takes_cons, lastTest_cons, hs, ht, hd, hrc, Label.isTake,
      Label.isTest]
  | againUntil =>
    obtain ⟨hs, ht⟩ := ho
    simp [Outcome, stores_cons, takes_cons, hs, ht, Label.isTake]
  | busy hd =>
    obtain ⟨hs, ht⟩ := ho
    simp [Outcome, stores_cons, takes_cons, lastTest_cons, hs, ht, hd, Label.isTake, Label.isTest]
  | tryTake hd =>
    obtain ⟨hs, ht⟩ := ho
    simp [Outcome, stores_cons, takes_cons, hs, ht, Label.isTake]
  | @take op =>
    obtain ⟨hop, hs, ht⟩ := ho
    cases op with
    | release => exact absurd rfl hop
    | _ => simp [Outcome, stores_cons, takes_cons, hs, ht, Label.isTake]

omit [DecidableEq P] in
theorem Outcome.unlock {h : List (Exec P Label CInt)} {d : CInt} {p : P} {op : Op} {rc : Status}
    (ho : K.Outcome h (.unlock op rc)) :
    K.Outcome (⟨p, .unlock op rc, d, d, .done op rc⟩ :: h) (.done op rc) := by
  cases op <;>
    simpa [Outcome, stores_cons, takes_cons, lastTest_cons, Label.isTake, Label.isTest] using ho

/-- What a call did, as an assertion on its label. -/
def outcomeLocal (K : TokenKind) : Local (K.program (P := P)) where
  holds _ l h := K.Outcome h l
  refuse _ hl := absurd hl (Set.notMem_empty _)
  act hcode ho := ho.act hcode
  signal hcode ho := by
    obtain ⟨rfl, rfl⟩ := notify_of_signal hcode
    obtain ⟨hs, ht, hl⟩ := ho
    simpa [Outcome, stores_cons, takes_cons, lastTest_cons, hs, ht, Label.isTake, Label.isTest]
      using hl
  broadcast hcode := absurd hcode no_broadcast
  wait hcode ho := by
    obtain ⟨-, rfl | rfl⟩ := eq_zero_of_wait hcode
    · simpa [Outcome, stores_cons, takes_cons, Label.isTake] using ho
    · simpa [Outcome, stores_cons, takes_cons, Label.isTake] using ho
  unlock hcode ho := by
    obtain ⟨op, rc, rfl, rfl⟩ := unlock_of_unlock hcode
    exact ho.unlock
  back {_ h l l'} hl ho := by
    cases l with
    | wait =>
      obtain ⟨rc, hrc, rfl⟩ := hl
      exact ⟨hrc, ho⟩
    | waitUntil =>
      obtain ⟨rc, -, rfl⟩ := hl
      exact ho
    | _ => exact absurd hl (Set.notMem_empty _)

/-- What a call did, in every state of a run. -/
theorem outcome (hr : Run K.program (K.Start k op) tr s) (p : P) :
    K.Outcome (own p tr) (s.pc p) := by
  refine Run.of_local (A := K.outcomeLocal) (fun s hs p => ?_) hr p
  change K.Outcome [] (s.pc p)
  rw [hs.pc]
  cases op p with
  | release =>
    simp only [start]
    split_ifs with hc <;> simp [Outcome, stores, takes, hc]
  | wait => simp [start, Outcome, stores, takes]
  | waitUntil => simp [start, Outcome, stores, takes]
  | tryWait => simp [start, Outcome, stores, takes]

/-- A release stored one token, unless it coalesced. -/
theorem stores_of_done (hr : Run K.program (K.Start k op) tr s) {p : P}
    (hp : s.pc p = .done .release none) :
    stores (own p tr) = if K.coalesce = true ∧ lastTest (own p tr) ≠ some 0 then 0 else 1 := by
  have h := outcome hr p
  rw [hp] at h
  exact h.2.2

/-- An acquiring call that returned `0` took one token. -/
theorem takes_of_done (hr : Run K.program (K.Start k op) tr s) {p : P} {o : Op}
    (ho : o ≠ .release) (hp : s.pc p = .done o none) : takes (own p tr) = 1 := by
  have h := outcome hr p
  rw [hp] at h
  cases o with
  | release => exact absurd rfl ho
  | _ => exact h.2.1

/-- The acquiring calls of `A` that returned `0` took a token each. -/
theorem card_le_takes (hr : Run K.program (K.Start k op) tr s) {A : Finset P}
    (hA : ∀ p ∈ A, ∃ o, o ≠ .release ∧ s.pc p = .done o none) : A.card ≤ takes tr := by
  calc A.card = ∑ p ∈ A, 1 := A.card_eq_sum_ones
    _ = ∑ p ∈ A, takes (own p tr) := by
      refine Finset.sum_congr rfl fun p hp => ?_
      obtain ⟨o, ho, hpc⟩ := hA p hp
      exact (takes_of_done hr ho hpc).symm
    _ ≤ takes tr := sum_takes_own_le A tr

/-- A call that returned an error took no token, and its last test saw none. -/
theorem failed_of_done (hr : Run K.program (K.Start k op) tr s) {p : P} {o : Op} {e : Errno}
    (hp : s.pc p = .done o (some e)) :
    takes (own p tr) = 0 ∧ lastTest (own p tr) = some 0 := by
  have h := outcome hr p
  rw [hp] at h
  cases o with
  | release => exact absurd h.1 (by simp)
  | _ => exact ⟨h.2.1, h.2.2 (by simp)⟩

end TokenKind

end MojitoSys.Sync
