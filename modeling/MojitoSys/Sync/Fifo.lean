import MojitoSys.Sync.Handoff
import Mathlib.Data.Finset.Max
import Mathlib.Data.List.Basic

/-!
# The order of the wakes

A wait links its record at the tail of the queue, and a `wake_one` takes the first record of its
address. A wait that the condition variable returns from without a mark unlinks its record and
links it again, so that it loses its place: the queue is in the order of the last links, and not in
the order in which the waits first linked.

## Main definitions

* `links`: the waits that linked, the newest first.
* `firstLink`, `sinceLink`: when a wait first linked, and how many links there were after its last.
* `Eldest`: the wait on an address that linked first.
* `Fifo`: every `wake_one` hands off to the eldest wait on its address.
* `Overtaken`: the eldest wait on an address linked again behind another one.
* `Orderly`: no wait links again while a younger one is linked on its address.

## Main results

* `queue_step`: what a step does to the queue.
* `LastOrder.run`: the queue is in the order of the last links, in every run.
* `fifo_iff`: the wakes are first-in first-out exactly if no `wake_one` finds its eldest wait
  overtaken.
* `fifo_of_orderly`: so they are if no wait loses its place.
-/

namespace MojitoSys.Sync

open Util Util.Monitor

variable {P : Type*}

/-! ### The links of a trace -/

/-- The waits that linked their records, the newest first. -/
def links (tr : List (Exec P AwLabel (AwSlot P))) : List P :=
  (tr.filter fun x => x.label = .link).map Exec.proc

variable [DecidableEq P]

/-- The place of the first link of a wait among all links. -/
def firstLink (tr : List (Exec P AwLabel (AwSlot P))) (p : P) : ℕ := (links tr).reverse.idxOf p

/-- The number of links after the last link of a wait. -/
def sinceLink (tr : List (Exec P AwLabel (AwSlot P))) (p : P) : ℕ := (links tr).idxOf p

/-- The linked wait on `addr` whose call linked first. -/
def Eldest (tr : List (Exec P AwLabel (AwSlot P))) (d : AwSlot P) (addr : Addr) (p : P) : Prop :=
  LinkedOn d addr p ∧ ∀ q, LinkedOn d addr q → q ≠ p → firstLink tr p < firstLink tr q

/-- Every `wake_one` hands off to the eldest wait on its address, if there is one. -/
def Fifo (call : P → AwCall) (tr : List (Exec P AwLabel (AwSlot P))) : Prop :=
  ∀ x tr', x :: tr' <:+ tr → x.label = .scan → ∀ addr, call x.proc = .wake addr false →
    (∃ q, LinkedOn x.pre addr q) → ∃ p, Eldest tr' x.pre addr p ∧ ∀ q, Marks x q ↔ q = p

/-- The eldest wait on `addr` linked again, behind another one. -/
def Overtaken (tr : List (Exec P AwLabel (AwSlot P))) (d : AwSlot P) (addr : Addr) : Prop :=
  ∃ p q, Eldest tr d addr p ∧ LinkedOn d addr q ∧ sinceLink tr p < sinceLink tr q

/-- No wait links again while a younger wait is linked on its address. -/
def Orderly (call : P → AwCall) (tr : List (Exec P AwLabel (AwSlot P))) : Prop :=
  ∀ x tr', x :: tr' <:+ tr → x.label = .link → x.proc ∈ links tr' →
    ∀ q, LinkedOn x.pre (call x.proc).addr q → firstLink tr' q ≤ firstLink tr' x.proc

section Links

variable {tr es : List (Exec P AwLabel (AwSlot P))} {p q me : P} {d d' : AwSlot P} {l : AwLabel}

omit [DecidableEq P] in
theorem links_append : links (es ++ tr) = links es ++ links tr := by
  simp [links]

omit [DecidableEq P] in
theorem links_link : links (⟨me, .link, d, d', l⟩ :: tr) = me :: links tr := by
  simp [links]

/-- A link does not change when the waits before it linked first. -/
theorem firstLink_cons_of_mem (hp : p ∈ links tr) :
    firstLink (⟨me, .link, d, d', l⟩ :: tr) p = firstLink tr p := by
  rw [firstLink, links_link, List.reverse_cons, List.idxOf_append_of_mem (List.mem_reverse.mpr hp)]
  rfl

/-- The first link of a wait comes after those of the waits before it. -/
theorem firstLink_lt_of_notMem (hp : p ∈ links tr) (hme : me ∉ links tr) :
    firstLink tr p < firstLink (⟨me, .link, d, d', l⟩ :: tr) me := by
  have hlt : firstLink tr p < (links tr).reverse.length :=
    List.idxOf_lt_length_of_mem (List.mem_reverse.mpr hp)
  rw [firstLink, firstLink, links_link, List.reverse_cons,
    List.idxOf_append_of_notMem (by simpa using hme)]
  exact Nat.lt_of_lt_of_le hlt (Nat.le_add_right ..)

theorem sinceLink_link_self : sinceLink (⟨me, .link, d, d', l⟩ :: tr) me = 0 := by
  rw [sinceLink, links_link, List.idxOf_cons_self]

theorem sinceLink_link_of_ne (hp : p ≠ me) :
    sinceLink (⟨me, .link, d, d', l⟩ :: tr) p = sinceLink tr p + 1 := by
  rw [sinceLink, links_link, List.idxOf_cons_ne _ hp.symm]
  rfl

theorem firstLink_ne (hp : p ∈ links tr) (hpq : p ≠ q) : firstLink tr p ≠ firstLink tr q :=
  mt (List.idxOf_inj (List.mem_reverse.mpr hp)).mp hpq

end Links

/-! ### The queue along a run -/

section Queue

variable {call : P → AwCall} {initRc : Status} {i : ℕ} {mem : Memory}
  {tr es : List (Exec P AwLabel (AwSlot P))} {s s' : State P AwLabel (AwSlot P)} {ps : List P}

/-- A step takes records out of the queue, or links one at its end. -/
theorem queue_step (hO : (ledgerOutline call).Holds tr s)
    (hs : Step (awProgram call) mem s es s') (hps : s.data.queue.Holds ps) :
    (links es = [] ∧ s'.data.addr = s.data.addr ∧
        ∃ ps', s'.data.queue.Holds ps' ∧ ps'.Sublist ps) ∨
      ∃ me, es = [⟨me, .link, s.data, s'.data, .park⟩] ∧ me ∉ ps ∧
        s'.data.queue.Holds (ps ++ [me]) ∧
        s'.data.addr = Function.update s.data.addr me (call me).addr := by
  have hkeep {es : List (Exec P AwLabel (AwSlot P))} (hes : links es = [])
      (hd : s'.data = s.data) : links es = [] ∧ s'.data.addr = s.data.addr ∧
        ∃ ps', s'.data.queue.Holds ps' ∧ ps'.Sublist ps :=
    ⟨hes, hd ▸ rfl, ps, hd ▸ hps, List.Sublist.refl ps⟩
  rcases hs.exec_cases with ⟨rfl, hd⟩ | ⟨me, i, hown, hcode, hpost, -, rfl⟩
  · exact Or.inl (hkeep rfl hd)
  have hheld := hO.held me hown
  have hinstr := code_cases hcode
  rw [hpost] at hkeep ⊢
  generalize hc : call me = c at hinstr
  generalize s.pc me = l at hinstr hheld ⊢
  cases hinstr with
  | changed => exact Or.inl (hkeep rfl rfl)
  | unchanged => exact Or.inl (hkeep rfl rfl)
  | handed => exact Or.inl (hkeep rfl rfl)
  | silent => exact Or.inl (hkeep rfl rfl)
  | park => exact Or.inl (hkeep rfl rfl)
  | unlock => exact Or.inl (hkeep rfl rfl)
  | notify => exact Or.inl (hkeep rfl rfl)
  | unlockWake => exact Or.inl (hkeep rfl rfl)
  | leave _ hd =>
    obtain ⟨hq, haddr, -⟩ := AwSlot.unlink_spec hps hd
    exact Or.inl ⟨rfl, haddr, _, hq, List.erase_sublist⟩
  | again _ hd =>
    obtain ⟨hq, haddr, -⟩ := AwSlot.unlink_spec hps hd
    exact Or.inl ⟨rfl, haddr, _, hq, List.erase_sublist⟩
  | scan hd =>
    obtain ⟨hq, -, haddr, -⟩ := AwSlot.wake_spec hps hd
    exact Or.inl ⟨rfl, haddr, _, hq, AwSlot.handOff_sublist⟩
  | arm =>
    have hme : me ∉ ps := by
      obtain ⟨ps', hps', hmem⟩ := (hheld.of_queued id).queue
      rw [← hps.linked_iff, hps'.linked_iff, hmem]
      exact fun hw => hO.awake me hown hw.1
    refine Or.inr ⟨me, rfl, hme, hps.append hme, ?_⟩
    rw [hc]
    rfl

/-- The queue is in the order of the last links. -/
def LastOrder (tr : List (Exec P AwLabel (AwSlot P))) (d : AwSlot P) : Prop :=
  ∃ ps, d.queue.Holds ps ∧ (∀ p ∈ ps, p ∈ links tr) ∧
    ps.Pairwise fun p q => sinceLink tr q < sinceLink tr p

theorem LastOrder.run (hr : Run (awProgram call) (SlotStart initRc call i) tr s) :
    LastOrder tr s.data := by
  induction hr with
  | start h => exact ⟨[], h.queue, by simp, List.Pairwise.nil⟩
  | @step tr es s s' mem hr hs ih =>
    obtain ⟨ps, hps, hmem, hsorted⟩ := ih
    rcases queue_step (slot_holds hr) hs hps with ⟨hes, -, ps', hps', hsub⟩ |
      ⟨me, rfl, hme, hps', -⟩
    · have hlinks : links (es ++ tr) = links tr := by rw [links_append, hes, List.nil_append]
      refine ⟨ps', hps', fun p hp => hlinks ▸ hmem p (hsub.subset hp), ?_⟩
      simp only [sinceLink, hlinks]
      exact hsorted.sublist hsub
    · have hne (p : P) (hp : p ∈ ps) : p ≠ me := by
        rintro rfl
        exact hme hp
      refine ⟨ps ++ [me], hps', fun p hp => ?_, List.pairwise_append.mpr ⟨?_, ?_, ?_⟩⟩
      · rw [List.singleton_append, links_link]
        rcases List.mem_append.mp hp with hp | hp
        · exact List.mem_cons_of_mem _ (hmem p hp)
        · exact List.mem_singleton.mp hp ▸ List.mem_cons_self
      · refine hsorted.imp_of_mem fun {p q} hp hq hlt => ?_
        rw [List.singleton_append, sinceLink_link_of_ne (hne p hp), sinceLink_link_of_ne (hne q hq)]
        exact Nat.succ_lt_succ hlt
      · exact List.pairwise_singleton ..
      · intro p hp q hq
        rw [List.mem_singleton.mp hq, List.singleton_append, sinceLink_link_self,
          sinceLink_link_of_ne (hne p hp)]
        exact Nat.succ_pos _

/-! ### What a `wake_one` takes -/

variable {addr : Addr} {x : Exec P AwLabel (AwSlot P)} {p q : P}

/-- Some linked wait on the address is the eldest. -/
theorem LastOrder.exists_eldest {d : AwSlot P} (h : LastOrder tr d) (hq : ∃ q, LinkedOn d addr q) :
    ∃ p, Eldest tr d addr p := by
  obtain ⟨ps, hps, hmem, -⟩ := h
  obtain ⟨q, hq, haddr⟩ := hq
  have hlinked (p : P) : p ∈ ps.toFinset.filter (d.addr · = addr) ↔ LinkedOn d addr p := by
    rw [Finset.mem_filter, List.mem_toFinset, ← hps.linked_iff]
    rfl
  obtain ⟨p, hp, hmin⟩ := Finset.exists_min_image _ (firstLink tr)
    ⟨q, (hlinked q).mpr ⟨hq, haddr⟩⟩
  have hp := (hlinked p).mp hp
  refine ⟨p, hp, fun q hq hne => lt_of_le_of_ne (hmin q ((hlinked q).mpr hq)) ?_⟩
  exact firstLink_ne (hmem p (hps.linked_iff.mp hp.1)) hne.symm

theorem Eldest.unique {d : AwSlot P} (hp : Eldest tr d addr p)
    (hq : Eldest tr d addr q) : p = q := by
  by_contra hne
  exact lt_asymm (hp.2 q hq.1 (Ne.symm hne)) (hq.2 p hp.1 hne)

/-- The scan of a wake in a run. -/
theorem scan_step (hs : Step (awProgram call) mem s [x] s') (hl : x.label = .scan) :
    ∃ addr all fuel n, call x.proc = .wake addr all ∧ x.pre = s.data ∧
      s.data.wake fuel addr all = some (x.post, n) := by
  rcases hs.exec_cases with ⟨hnil, -⟩ | ⟨me, i, -, hcode, -, -, hx⟩
  · exact absurd hnil (List.cons_ne_nil _ _)
  obtain rfl := List.singleton_inj.mp hx
  have hinstr := code_cases hcode
  rw [show s.pc me = .scan from hl] at hinstr
  generalize call me = c at hinstr ⊢
  cases hinstr with
  | @scan addr all fuel n d' hd => exact ⟨addr, all, fuel, n, rfl, rfl, hd⟩

/-- A `wake_one` takes the wait on its address whose last link is the oldest. -/
theorem exists_marked {tr' : List (Exec P AwLabel (AwSlot P))}
    (hr : Run (awProgram call) (SlotStart initRc call i) tr s) (hx : x :: tr' <:+ tr)
    (hl : x.label = .scan) (hc : call x.proc = .wake addr false)
    (hq : ∃ q, LinkedOn x.pre addr q) :
    LastOrder tr' x.pre ∧ ∃ p, LinkedOn x.pre addr p ∧ (∀ q, Marks x q ↔ q = p) ∧
      ∀ q, LinkedOn x.pre addr q → q ≠ p → sinceLink tr' q < sinceLink tr' p := by
  obtain ⟨mem, s₀, s₁, hr₀, hs⟩ := hr.exists_step hx
  obtain ⟨addr', all, fuel, n, hc', hpre, hd⟩ := scan_step hs hl
  obtain ⟨rfl, rfl⟩ := AwCall.wake.inj (hc.symm.trans hc')
  rw [hpre] at hq ⊢
  refine ⟨LastOrder.run hr₀, ?_⟩
  obtain ⟨ps, hps, -, hsorted⟩ := LastOrder.run hr₀
  obtain ⟨-, -, -, hwoken, -⟩ := AwSlot.wake_spec hps hd
  have hsel : ∃ p ∈ ps, s₀.data.addr p = addr := by
    obtain ⟨q, hq, haddr⟩ := hq
    exact ⟨q, hps.linked_iff.mp hq, haddr⟩
  obtain ⟨l, p, r, rfl, haddr, hbefore, hfirst⟩ := AwSlot.exists_append_of_handOff hsel
  have hp : s₀.data.queue.Linked p := hps.linked_iff.mpr (by simp)
  refine ⟨p, ⟨hp, haddr⟩, fun q => ⟨fun hm => ?_, ?_⟩, fun q hq hne => ?_⟩
  · have hpost := (hwoken q).mp hm.2.2
    rw [hfirst, List.mem_singleton, ← hpre, hm.2.1] at hpost
    simpa using hpost
  · rintro rfl
    exact ⟨hl, hpre ▸ (slot_linked hr₀ hp).2, (hwoken q).mpr (Or.inl (by simp [hfirst]))⟩
  · have hmem : q ∈ l ++ p :: r := hps.linked_iff.mp hq.1
    have hr : q ∈ r := by
      rcases List.mem_append.mp hmem with hql | hqr
      · exact absurd hq.2 (hbefore q hql)
      · exact (List.mem_cons.mp hqr).resolve_left hne
    exact (List.pairwise_cons.mp (List.pairwise_append.mp hsorted).2.1).1 q hr

/-- If the wakes are first-in first-out, then no `wake_one` finds its eldest wait overtaken. -/
theorem Fifo.not_overtaken {tr' : List (Exec P AwLabel (AwSlot P))} (hfifo : Fifo call tr)
    (hr : Run (awProgram call) (SlotStart initRc call i) tr s) (hx : x :: tr' <:+ tr)
    (hl : x.label = .scan) (hc : call x.proc = .wake addr false) : ¬ Overtaken tr' x.pre addr := by
  rintro ⟨p, q, hp, hq, hlt⟩
  obtain ⟨-, p₀, hp₀, hmarks, hlast⟩ := exists_marked hr hx hl hc ⟨q, hq⟩
  obtain ⟨p₁, hp₁, hmarks₁⟩ := hfifo x tr' hx hl addr hc ⟨q, hq⟩
  obtain rfl : p₁ = p₀ := (hmarks p₁).mp ((hmarks₁ p₁).mpr rfl)
  obtain rfl := hp.unique hp₁
  by_cases hqp : q = p
  · exact absurd (hqp ▸ hlt) (lt_irrefl _)
  · exact lt_asymm hlt (hlast q hq hqp)

theorem fifo_of_not_overtaken (hr : Run (awProgram call) (SlotStart initRc call i) tr s)
    (hnone : ∀ x tr', x :: tr' <:+ tr → x.label = .scan → ∀ addr,
      call x.proc = .wake addr false → ¬ Overtaken tr' x.pre addr) : Fifo call tr := by
  intro x tr' hx hl addr hc hq
  obtain ⟨horder, p₀, hp₀, hmarks, hlast⟩ := exists_marked hr hx hl hc hq
  obtain ⟨p, hp⟩ := horder.exists_eldest hq
  by_cases hpp : p = p₀
  · exact ⟨p, hp, hpp ▸ hmarks⟩
  · exact absurd ⟨p, p₀, hp, hp₀, hlast p hp.1 hpp⟩ (hnone x tr' hx hl addr hc)

/-! ### Runs in which no wait loses its place -/

theorem Orderly.of_suffix {tr' : List (Exec P AwLabel (AwSlot P))}
    (h : Orderly call tr) (htr : tr' <:+ tr) : Orderly call tr' :=
  fun x old hx => h x old (hx.trans htr)

/-- The waits on each address are in the order of their first links. -/
theorem Orderly.pairwise (hr : Run (awProgram call) (SlotStart initRc call i) tr s)
    (ho : Orderly call tr) (hps : s.data.queue.Holds ps) :
    ps.Pairwise fun p q => s.data.addr p = s.data.addr q → firstLink tr p < firstLink tr q := by
  induction hr generalizing ps with
  | start h =>
    rw [hps.unique h.queue]
    exact List.Pairwise.nil
  | @step tr es s s' mem hr hs ih =>
    obtain ⟨ps₀, hps₀, hmem, -⟩ := LastOrder.run hr
    have hsorted := ih (ho.of_suffix (List.suffix_append ..)) hps₀
    rcases queue_step (slot_holds hr) hs hps₀ with ⟨hes, haddr, ps', hps', hsub⟩ |
      ⟨me, rfl, hme, hps', haddr⟩
    · rw [hps.unique hps', haddr]
      simp only [firstLink, links_append, hes, List.nil_append]
      exact hsorted.sublist hsub
    · rw [hps.unique hps', haddr, List.singleton_append]
      have hne (p : P) (hp : p ∈ ps₀) : p ≠ me := by
        rintro rfl
        exact hme hp
      refine List.pairwise_append.mpr ⟨?_, List.pairwise_singleton .., fun p hp q hq heq => ?_⟩
      · refine hsorted.imp_of_mem fun {p q} hp hq hlt heq => ?_
        rw [firstLink_cons_of_mem (hmem p hp), firstLink_cons_of_mem (hmem q hq)]
        rw [Function.update_of_ne (hne p hp), Function.update_of_ne (hne q hq)] at heq
        exact hlt heq
      · obtain rfl := List.mem_singleton.mp hq
        rw [Function.update_of_ne (hne p hp), Function.update_self] at heq
        rw [firstLink_cons_of_mem (hmem p hp)]
        by_cases hq : q ∈ links tr
        · rw [firstLink_cons_of_mem hq]
          have hle := ho _ tr List.suffix_rfl rfl hq p ⟨hps₀.linked_iff.mpr hp, heq⟩
          exact lt_of_le_of_ne hle (firstLink_ne (hmem p hp) (hne p hp))
        · exact firstLink_lt_of_notMem (hmem p hp) hq

theorem Orderly.not_overtaken (hr : Run (awProgram call) (SlotStart initRc call i) tr s)
    (ho : Orderly call tr) : ¬ Overtaken tr s.data addr := by
  rintro ⟨p, q, hp, hq, hlt⟩
  obtain ⟨ps, hps, -, hlast⟩ := LastOrder.run hr
  have hboth := hlast.and (ho.pairwise hr hps)
  have hne : p ≠ q := by
    rintro rfl
    exact lt_irrefl _ hlt
  have haddr : s.data.addr q = s.data.addr p := hq.2.trans hp.1.2.symm
  obtain ⟨l, r, rfl⟩ := List.append_of_mem (hps.linked_iff.mp hp.1.1)
  obtain ⟨-, hafter, hbefore⟩ := List.pairwise_append.mp hboth
  rcases List.mem_append.mp (hps.linked_iff.mp hq.1) with hql | hqr
  · have hfirst := (hbefore q hql p List.mem_cons_self).2 haddr
    exact lt_asymm hfirst (hp.2 q hq hne.symm)
  · have hqr := (List.mem_cons.mp hqr).resolve_left hne.symm
    exact lt_asymm hlt ((List.pairwise_cons.mp hafter).1 q hqr).1

theorem Orderly.scans (ho : Orderly call tr)
    (hr : Run (awProgram call) (SlotStart initRc call i) tr s) :
    ∀ x tr', x :: tr' <:+ tr → x.label = .scan → ∀ addr, call x.proc = .wake addr false →
      ¬ Overtaken tr' x.pre addr := by
  intro x tr' hx hl addr hc
  obtain ⟨mem, s₀, s₁, hr₀, hs⟩ := hr.exists_step hx
  obtain ⟨-, -, -, -, -, hpre, -⟩ := scan_step hs hl
  rw [hpre]
  exact (ho.of_suffix ((List.suffix_cons x tr').trans hx)).not_overtaken hr₀

/-- A run in which no wait links twice is orderly. -/
theorem orderly_of_nodup (h : (links tr).Nodup) : Orderly call tr := by
  rintro x tr' ⟨new, rfl⟩ hl hmem
  rw [links_append, show links (x :: tr') = x.proc :: links tr' by simp [links, hl]] at h
  exact absurd hmem (List.nodup_cons.mp (List.nodup_append.mp h).2.1).1

/-- An instruction that does not overtake. -/
theorem Orderly.cons {x : Exec P AwLabel (AwSlot P)} (ho : Orderly call tr)
    (hx : x.label = .link → x.proc ∈ links tr → ∀ q, LinkedOn x.pre (call x.proc).addr q →
      firstLink tr q ≤ firstLink tr x.proc) : Orderly call (x :: tr) := by
  intro y tr' hs
  rcases List.suffix_cons_iff.mp hs with heq | hs
  · obtain ⟨rfl, rfl⟩ := List.cons.inj heq
    exact hx
  · exact ho y tr' hs

variable {trs : ℕ → List (Exec P AwLabel (AwSlot P))} {t : AwTable P}

/-- In every run of the table, the wakes of a slot are first-in first-out if and only if no
`wake_one` finds the eldest wait on its address overtaken. -/
theorem fifo_iff (h : TableRun initRc call trs t) (i : ℕ) :
    Fifo call (trs i) ↔ ∀ x tr', x :: tr' <:+ trs i → x.label = .scan →
      ∀ addr, call x.proc = .wake addr false → ¬ Overtaken tr' x.pre addr :=
  ⟨fun hfifo _ _ hx hl _ hc => hfifo.not_overtaken (h.slot i) hx hl hc,
    fifo_of_not_overtaken (h.slot i)⟩

/-- In every run of the table, the wakes of a slot are first-in first-out if no wait links again
while a younger wait is linked on its address. -/
theorem fifo_of_orderly (h : TableRun initRc call trs t) {i : ℕ} (ho : Orderly call (trs i)) :
    Fifo call (trs i) :=
  fifo_of_not_overtaken (h.slot i) (ho.scans (h.slot i))

end Queue

/-! ### A wait that is overtaken -/

/-- Three waits and two wakes. -/
inductive Caller
  | first
  | second
  | third
  | wake
  | wakeAgain
  deriving DecidableEq, Repr

/-- The waits are on the word at `4`, and the wakes are `wake_one` there. -/
def herd : Caller → AwCall
  | .wake => .wake 4 false
  | .wakeAgain => .wake 4 false
  | _ => .wait 4 0 false

/-- A wait may return from the condition variable for no reason. -/
theorem back_park {p : Caller} : AwLabel.woke none ∈ (awProgram herd).back p .park :=
  ⟨none, rfl, by simp⟩

/-- Two waits link, the second one returns from the condition variable and links again, and the
`wake_one` takes the first one. -/
theorem fifo_iff_two : ∃ trs t, TableRun none herd trs t ∧
    links (trs (slotFor 4)) = [.second, .second, .first] ∧
    (∃ x ∈ trs (slotFor 4), x.label = .scan ∧ Marks x .first) ∧ Fifo herd (trs (slotFor 4)) := by
  have h := tableRun_quietTable herd
  have h := h.step (.slot (i := slotFor 4) (.lock (p := .first) rfl (Or.inl rfl) (by decide)))
  have h := h.step (.slot (i := slotFor 4) (.act (p := .first) rfl ⟨0, rfl⟩))
  have h := h.step (.slot (i := slotFor 4) (.act (p := .first) rfl ⟨0, rfl⟩))
  have h := h.step (.slot (i := slotFor 4) (.wait (p := .first) rfl ⟨0, rfl⟩))
  have h := h.step (.slot (i := slotFor 4) (.lock (p := .second) rfl (Or.inl rfl) (by decide)))
  have h := h.step (.slot (i := slotFor 4) (.act (p := .second) rfl ⟨0, rfl⟩))
  have h := h.step (.slot (i := slotFor 4) (.act (p := .second) rfl ⟨0, rfl⟩))
  have h := h.step (.slot (i := slotFor 4) (.wait (p := .second) rfl ⟨0, rfl⟩))
  have h := h.step (.slot (i := slotFor 4) (.wakeup (p := .second) (by decide)))
  have h := h.step (.slot (i := slotFor 4) (.resume (p := .second) rfl (by decide) back_park))
  have h := h.step (.slot (i := slotFor 4) (.act (p := .second) rfl ⟨3, rfl⟩))
  have h := h.step (.slot (i := slotFor 4) (.act (p := .second) rfl ⟨0, rfl⟩))
  have hlinked (q : Caller) := slot_linked (p := q) (h.slot (slotFor 4))
  have h := h.step (.slot (i := slotFor 4) (.act (p := .second) rfl ⟨0, rfl⟩))
  have h := h.step (.slot (i := slotFor 4) (.wait (p := .second) rfl ⟨0, rfl⟩))
  have h := h.step (.slot (i := slotFor 4)
    (.lock (p := .wake) rfl (Or.inr (by decide)) (by decide)))
  have h := h.step (.slot (i := slotFor 4) (.act (p := .wake) rfl ⟨2, rfl⟩))
  refine ⟨_, _, h, rfl, ?_, (fifo_iff h (slotFor 4)).mpr (Orderly.scans ?_ (h.slot _))⟩
  · exact ⟨_, List.mem_cons_self, rfl, rfl, rfl, rfl⟩
  · -- when the second wait links again, only the first one is linked
    refine .cons (.cons (.cons (orderly_of_nodup (by decide)) fun _ _ q hq => ?_)
      fun hl => absurd hl (by decide)) fun hl => absurd hl (by decide)
    have hqueued := (hlinked q hq.1).1
    cases q with
    | first => decide
    | second => exact Nat.le_refl _
    | _ => exact hqueued.elim

/-- The first `wake_one` takes the first wait and broadcasts. The second wait returns from the
condition variable and links again behind the third one, which the second `wake_one` takes. -/
theorem fifo_overtaken : ∃ trs t, TableRun none herd trs t ∧ ¬ Fifo herd (trs (slotFor 4)) := by
  have h := tableRun_quietTable herd
  have h := h.step (.slot (i := slotFor 4) (.lock (p := .first) rfl (Or.inl rfl) (by decide)))
  have h := h.step (.slot (i := slotFor 4) (.act (p := .first) rfl ⟨0, rfl⟩))
  have h := h.step (.slot (i := slotFor 4) (.act (p := .first) rfl ⟨0, rfl⟩))
  have h := h.step (.slot (i := slotFor 4) (.wait (p := .first) rfl ⟨0, rfl⟩))
  have h := h.step (.slot (i := slotFor 4) (.lock (p := .second) rfl (Or.inl rfl) (by decide)))
  have h := h.step (.slot (i := slotFor 4) (.act (p := .second) rfl ⟨0, rfl⟩))
  have h := h.step (.slot (i := slotFor 4) (.act (p := .second) rfl ⟨0, rfl⟩))
  have h := h.step (.slot (i := slotFor 4) (.wait (p := .second) rfl ⟨0, rfl⟩))
  have h := h.step (.slot (i := slotFor 4) (.lock (p := .third) rfl (Or.inl rfl) (by decide)))
  have h := h.step (.slot (i := slotFor 4) (.act (p := .third) rfl ⟨0, rfl⟩))
  have h := h.step (.slot (i := slotFor 4) (.act (p := .third) rfl ⟨0, rfl⟩))
  have h := h.step (.slot (i := slotFor 4) (.wait (p := .third) rfl ⟨0, rfl⟩))
  have h := h.step (.slot (i := slotFor 4)
    (.lock (p := .wake) rfl (Or.inr (by decide)) (by decide)))
  have h := h.step (.slot (i := slotFor 4) (.act (p := .wake) rfl ⟨2, rfl⟩))
  have h := h.step (.slot (i := slotFor 4) (.broadcast (p := .wake) rfl ⟨0, rfl⟩))
  have h := h.step (.slot (i := slotFor 4) (.unlock (p := .wake) rfl ⟨0, rfl⟩))
  have h := h.step (.slot (i := slotFor 4) (.resume (p := .second) rfl (by decide) back_park))
  have h := h.step (.slot (i := slotFor 4) (.act (p := .second) rfl ⟨3, rfl⟩))
  have h := h.step (.slot (i := slotFor 4) (.act (p := .second) rfl ⟨0, rfl⟩))
  have h := h.step (.slot (i := slotFor 4) (.act (p := .second) rfl ⟨0, rfl⟩))
  have h := h.step (.slot (i := slotFor 4) (.wait (p := .second) rfl ⟨0, rfl⟩))
  have h := h.step (.slot (i := slotFor 4)
    (.lock (p := .wakeAgain) rfl (Or.inr (by decide)) (by decide)))
  have h := h.step (.slot (i := slotFor 4) (.act (p := .wakeAgain) rfl ⟨2, rfl⟩))
  refine ⟨_, _, h, fun hfifo => ?_⟩
  obtain ⟨p, hp, hmarks⟩ := hfifo _ _ List.suffix_rfl rfl 4 rfl
    ⟨.second, ⟨[.third], rfl, rfl, trivial⟩, rfl⟩
  obtain rfl := (hmarks .third).mp ⟨rfl, rfl, rfl⟩
  exact absurd (hp.2 .second ⟨⟨[.third], rfl, rfl, trivial⟩, rfl⟩ (by decide)) (by decide)

end MojitoSys.Sync
