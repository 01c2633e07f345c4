import MojitoSys.Sync.LostWakeup
import MojitoSys.Sync.WaitContract

/-!
# The fallback keeps the contract

The waiter table of macOS against the contract of atomic waits. A wait sleeps, for the contract,
from the moment at which it finds the word as expected: it holds the mutex of its slot until it is
parked, so that no wake comes in between. It is taken when a wake marks its record. What it then
does before it returns, and whether its deadline passes, no longer matters.

## Main definitions

* `AwTable.place`: where a call stands for the contract.
* `shown`, `TableMove`, `fallbackSystem`: the steps of the table, with what they mean for the
  contract.

## Main results

* `TableStep.shown`: every step of the table means something.
* `fallback_simulates`: the fallback keeps the contract of atomic waits.
* `fallback_keeps_contract`: the law, for every run.
-/

namespace MojitoSys.Sync

open Util Util.Monitor

/-- The place in the contract, by the mark on the record. -/
def AwLabel.place (woken : Bool) : AwLabel → Place
  | .absent | .check | .scan => .running
  | .link => .asleep
  | .park | .woke _ => if woken then .handed else .asleep
  | .unlock rc | .done rc => .done rc
  | .notify n | .unlockWake n | .doneWake n => .counted n

theorem AwLabel.place_of_queued {l : AwLabel} (h : l.queued) (woken : Bool) :
    l.place woken = if woken then .handed else .asleep := by
  cases l with
  | park | woke _ => rfl
  | _ => exact absurd h id

/-- The status of the calls that fail at once. -/
def awRefuse (initRc : Status) (c : AwCall) : Status := if c.addr = 0 then some .EFAULT else initRc

section Fallback

variable {P : Type*} [DecidableEq P]

/-- The slot of a call. -/
def AwCall.slot (c : AwCall) : ℕ := slotFor c.addr

/-- Where a call stands. -/
def AwTable.place (call : P → AwCall) (t : AwTable P) (p : P) : Place :=
  ((t.slot (call p).slot).pc p).place ((t.slot (call p).slot).data.woken p)

instance (x : Exec P AwLabel (AwSlot P)) (p : P) : Decidable (Marks x p) :=
  inferInstanceAs (Decidable (_ ∧ _ ∧ _))

/-- What an instruction means for the contract; `ps` are the waits that the scan of a wake marks. -/
def shown (x : Exec P AwLabel (AwSlot P)) (ps : List P) : List (WaitEvent P) :=
  match x.label, x.next with
  | .check, .link => [.slept x.proc]
  | .check, _ => [.differed x.proc]
  | .woke _, .check => [.stirred x.proc]
  | .woke _, .unlock none => [.took x.proc]
  | .woke _, .unlock (some err) => [.failed x.proc err]
  | .scan, _ => [.woke x.proc ps]
  | _, _ => []

/-- The steps of the table, with what they mean for the contract. -/
inductive TableMove (call : P → AwCall) (t : AwTable P) : List (WaitEvent P) → AwTable P → Prop
  | store (addr : Addr) (v : BitVec 32) :
      TableMove call t [.stored addr v] { t with mem := Function.update t.mem addr v }
  | exec {i : ℕ} {x : Exec P AwLabel (AwSlot P)} {s : State P AwLabel (AwSlot P)} {ps : List P}
      (hs : Step (awProgram call) t.mem (t.slot i) [x] s)
      (hps : x.label = .scan → ps.Nodup ∧ ∀ p, p ∈ ps ↔ Marks x p) :
      TableMove call t (shown x ps) { t with slot := Function.update t.slot i s }
  /-- The mutex of the slot is not taken. -/
  | refuse {i : ℕ} {s : State P AwLabel (AwSlot P)} {p : P} {err : Errno}
      (hs : Step (awProgram call) t.mem (t.slot i) [] s) (hp : (t.slot i).pc p ∈
        (awProgram call).entry) (hpc : s.pc = Function.update (t.slot i).pc p (.done (some err))) :
      TableMove call t [.refused p err] { t with slot := Function.update t.slot i s }
  | quiet {i : ℕ} {s : State P AwLabel (AwSlot P)}
      (hs : Step (awProgram call) t.mem (t.slot i) [] s)
      (hpc : ∀ p, (t.slot i).pc p ∈ (awProgram call).entry → s.pc p = (t.slot i).pc p) :
      TableMove call t [] { t with slot := Function.update t.slot i s }

/-- A table after `mjs_aw_init`. -/
structure TableStart (initRc : Status) (call : P → AwCall) (mem : Memory) (t : AwTable P) :
    Prop where
  mem : t.mem = mem
  slot : ∀ i, SlotStart initRc call i (t.slot i)

/-- The fallback. -/
def fallbackSystem (initRc : Status) (call : P → AwCall) (mem : Memory) :
    System (AwTable P) (WaitEvent P) where
  start := TableStart initRc call mem
  step := TableMove call

variable {call : P → AwCall} {initRc : Status} {mem : Memory} {t t' : AwTable P}
  {trs : ℕ → List (Exec P AwLabel (AwSlot P))} {es : List (Exec P AwLabel (AwSlot P))}
  {evs : List (WaitEvent P)} {i : ℕ} {p me : P}

/-- The return of a condition variable refuses nobody. -/
theorem TableMove.resume {l : AwLabel} (hfree : (t.slot i).owner = none)
    (hp : p ∈ (t.slot i).cv.ready) (hpark : (t.slot i).pc p = .park)
    (hl : l ∈ (awProgram call).back p ((t.slot i).pc p)) :
    TableMove call t [] { t with
      slot := Function.update t.slot i ⟨(t.slot i).data, some p, (t.slot i).cv.retire p,
        Function.update (t.slot i).pc p l⟩ } := by
  refine .quiet (.resume hfree hp hl) fun q hq => Function.update_of_ne ?_ ..
  rintro rfl
  rw [hpark] at hq
  simp [awProgram] at hq

/-- The scan of a wake hands off exactly. -/
theorem TableRun.scan_exact (hr : TableRun initRc call trs t) (hown : (t.slot i).owner = some me)
    {instr : Instr (AwSlot P) AwLabel}
    (hcode : (awProgram call).code me t.mem .scan (t.slot i).data instr) :
    ∃ addr all d' ps, call me = .wake addr all ∧ instr = .act d' (.notify ps.length) ∧
      Exact call ⟨me, .scan, (t.slot i).data, d', .notify ps.length⟩ addr all ps ∧
      ∀ p, d'.woken p = true ↔ p ∈ ps ∨ (t.slot i).data.woken p = true := by
  have hledger := ((slot_holds (hr.slot i)).held me hown).ledger
  have hinstr := code_cases hcode
  generalize hc : call me = c at hinstr
  cases hinstr with
  | @scan addr all fuel n d' hd =>
    obtain ⟨ps, hexact, -⟩ := hledger.exact hc hd
    obtain rfl : n = ps.length := by
      have hcount := hexact.count
      injection hcount
    refine ⟨addr, all, d', ps, rfl, rfl, hexact, fun p => ?_⟩
    obtain ⟨qs, hqs, -⟩ := hledger.queue
    obtain ⟨-, -, -, hwoken, -⟩ := AwSlot.wake_spec hqs hd
    constructor
    · intro hp
      by_cases hold : (t.slot i).data.woken p = true
      · exact Or.inr hold
      · exact Or.inl ((hexact.mem p).mpr ⟨rfl, by simpa using hold, hp⟩)
    · rintro (hp | hp)
      · exact ((hexact.mem p).mp hp).2.2
      · exact (hwoken p).mpr (Or.inr hp)

/-- Every step of the table means something for the contract. -/
theorem TableStep.shown (hr : TableRun initRc call trs t) (hs : TableStep call t i es t') :
    ∃ evs, TableMove call t evs t' := by
  cases hs with
  | store addr v => exact ⟨_, .store addr v⟩
  | @slot es s hs =>
    rcases hs.exec_cases with ⟨rfl, -⟩ | ⟨me, instr, hown, hcode, -, -, rfl⟩
    · cases hs with
      | lock hfree hentry hp =>
        exact ⟨_, .quiet (.lock hfree hentry hp) fun _ _ => rfl⟩
      | @refuse p l hown hentry hp hl =>
        obtain ⟨rc, hrc, rfl⟩ := hl
        obtain ⟨err, rfl⟩ := Option.ne_none_iff_exists'.mp hrc
        exact ⟨_, .refuse (.refuse hown hentry hp ⟨_, hrc, rfl⟩) hentry rfl⟩
      | wakeup hp => exact ⟨_, .quiet (.wakeup hp) fun _ _ => rfl⟩
      | @resume p l hfree hp hl =>
        exact ⟨_, .resume hfree hp ((slot_placed (hr.slot i)).waits (Or.inr hp)) hl⟩
    · by_cases hscan : (t.slot i).pc me = .scan
      · rw [hscan] at hcode
        obtain ⟨addr, all, d', ps, -, rfl, hexact, -⟩ := hr.scan_exact hown hcode
        exact ⟨_, .exec hs fun _ => ⟨hexact.nodup, hscan ▸ hexact.mem⟩⟩
      · exact ⟨shown _ [], .exec hs fun h => absurd h hscan⟩

/-! ### The contract -/

/-- The table is that of the contract. -/
structure AwTable.Sound (initRc : Status) (call : P → AwCall) (t : AwTable P) (w : WaitWorld P) :
    Prop where
  run : ∃ trs, TableRun initRc call trs t
  mem : w.mem = t.mem
  place : ∀ p, w.place p = t.place call p

/-- Only a wait with a deadline comes back because its deadline passed. -/
theorem ProcStep.timed {l : AwLabel}
    (hs : ProcStep (awProgram call) p mem l (.woke (some .ETIMEDOUT))) :
    ∃ addr expected, call p = .wait addr expected true := by
  generalize hl : AwLabel.woke (some .ETIMEDOUT) = l' at hs
  cases hs with
  | refuse _ hl' =>
    obtain ⟨rc, -, rfl⟩ := hl'
    cases hl
  | exec hcode =>
    have hinstr := code_cases hcode
    generalize call p = c at hinstr
    cases hinstr <;> cases hl
  | resume hback =>
    cases l with
    | park =>
      obtain ⟨rc, rfl, hrc⟩ := hback
      obtain rfl : some .ETIMEDOUT = rc := by injection hl
      exact hrc rfl
    | _ => exact absurd hback (Set.notMem_empty _)

theorem timed_of_run {s : State P AwLabel (AwSlot P)} {tr : List (Exec P AwLabel (AwSlot P))}
    (hr : Run (awProgram call) (SlotStart initRc call i) tr s)
    (hp : s.pc p = .woke (some .ETIMEDOUT)) :
    ∃ addr expected, call p = .wait addr expected true := by
  induction hr with
  | start h =>
    rw [h.pc] at hp
    rcases awStart_cases initRc i (call p) with h | ⟨_, -, h⟩ | ⟨_, _, _, -, h⟩ | ⟨_, _, -, h⟩ <;>
      cases h.symm.trans hp
  | step _ hs ih =>
    rcases hs.proc p with heq | hproc
    · exact ih (heq.symm.trans hp)
    · rw [hp] at hproc
      exact ProcStep.timed hproc

namespace AwTable.Sound

variable {w : WaitWorld P} {s : State P AwLabel (AwSlot P)}

/-- The calls of one slot take a step. -/
theorem of_slot (h : t.Sound initRc call w) {w' : WaitWorld P}
    (hs : Step (awProgram call) t.mem (t.slot i) es s) (hmem : w'.mem = w.mem)
    (hplace : ∀ p, w'.place p = if (call p).slot = i then (s.pc p).place (s.data.woken p)
      else w.place p) :
    AwTable.Sound initRc call { t with slot := Function.update t.slot i s } w' := by
  obtain ⟨trs, hr⟩ := h.run
  refine ⟨⟨_, hr.step (.slot hs)⟩, hmem.trans h.mem, fun p => ?_⟩
  rw [hplace p, h.place p]
  unfold AwTable.place
  split_ifs with hi
  · simp only [hi, Function.update_self]
  · simp only [Function.update_of_ne hi]

/-- One call of a slot moves. -/
theorem put (h : t.Sound initRc call w) {l : Place}
    (hs : Step (awProgram call) t.mem (t.slot i) es s) (hme : (call me).slot = i)
    (hpc : ∀ p, p ≠ me → s.pc p = (t.slot i).pc p ∧ s.data.woken p = (t.slot i).data.woken p)
    (hl : (s.pc me).place (s.data.woken me) = l) :
    AwTable.Sound initRc call { t with slot := Function.update t.slot i s } (w.put me l) := by
  refine h.of_slot hs rfl fun p => ?_
  by_cases hp : p = me
  · subst hp
    rw [if_pos hme, hl]
    exact Function.update_self ..
  · have hput : (w.put me l).place p = w.place p := Function.update_of_ne hp ..
    rw [hput, h.place p, (hpc p hp).1, (hpc p hp).2]
    split_ifs with hi
    · rw [AwTable.place, hi]
    · rfl

/-- A call stands where its label in its slot says. -/
theorem place_eq (h : t.Sound initRc call w) {l : AwLabel} (hme : (call me).slot = i)
    (hl : (t.slot i).pc me = l) : w.place me = l.place ((t.slot i).data.woken me) := by
  rw [h.place me, AwTable.place, hme, hl]

/-- The holder of the mutex marks nobody else. -/
theorem act (h : t.Sound initRc call w) {instr : Instr (AwSlot P) AwLabel}
    (hs : Step (awProgram call) t.mem (t.slot i) es s) (hme : (call me).slot = i)
    (hdata : s.data = instr.post (t.slot i).data)
    (hpc : s.pc = Function.update (t.slot i).pc me (instr.next ((t.slot i).pc me)))
    (hwoken : ∀ p, p ≠ me →
      (instr.post (t.slot i).data).woken p = (t.slot i).data.woken p) :
    AwTable.Sound initRc call { t with slot := Function.update t.slot i s }
      (w.put me ((instr.next ((t.slot i).pc me)).place
        ((instr.post (t.slot i).data).woken me))) := by
  refine h.put hs hme (fun p hp => ⟨?_, ?_⟩) ?_
  · rw [hpc, Function.update_of_ne hp]
  · rw [hdata, hwoken p hp]
  · rw [hdata, hpc, Function.update_self]

/-- When a wake scans, the waits that sleep on an address of its slot are linked under it. -/
theorem asleepOn_iff (h : t.Sound initRc call w) (hr : TableRun initRc call trs t) {addr : Addr}
    {all : Bool} (hown : (t.slot i).owner = some me) (hl : (t.slot i).pc me = .scan)
    (hc : call me = .wake addr all) (hi : slotFor addr = i) (p : P) :
    w.AsleepOn call addr p ↔ LinkedOn (t.slot i).data addr p := by
  have hplaced := slot_placed (hr.slot i)
  have hledger := ((slot_holds (hr.slot i)).held me hown).ledger
  obtain ⟨qs, hqs, hmem⟩ := hledger.queue
  constructor
  · rintro ⟨hp, expected, timed, hcp⟩
    have hslot : (call p).slot = i := by rw [hcp]; exact hi
    have hne : p ≠ me := by
      rintro rfl
      cases hc.symm.trans hcp
    have hother : (t.slot i).owner ≠ some p := fun ho => hne (Option.some.inj (ho.symm.trans hown))
    rw [h.place_eq hslot rfl] at hp
    -- no other call holds the mutex, so that the wait is parked
    have hpark : (t.slot i).pc p = .park ∧ (t.slot i).data.woken p = false := by
      cases hpc : (t.slot i).pc p with
      | link => exact absurd (hplaced.held (p := p) (by simp [awRegions, hpc])) hother
      | woke rc => exact absurd (hplaced.held (p := p) (by simp [awRegions, hpc])) hother
      | park =>
        rw [hpc] at hp
        refine ⟨rfl, ?_⟩
        by_contra hwoken
        simp [AwLabel.place, hwoken] at hp
      | _ => simp [hpc, AwLabel.place] at hp
    have hwaits : (t.slot i).cv.Waits p :=
      (hplaced.parked (p := p) (by simp [awRegions, hpark.1])).resolve_left hother
    refine ⟨hqs.linked_iff.mpr ((hmem p).mpr ⟨Or.inl hwaits, hpark.2⟩), ?_⟩
    obtain ⟨expected', timed', hkey⟩ := hledger.key (Or.inl hwaits)
    exact (AwCall.wait.inj (hkey.symm.trans hcp)).1
  · intro hp
    obtain ⟨hqueued, hwoken⟩ := slot_linked (hr.slot i) hp.1
    obtain ⟨expected, timed, hkey⟩ := hledger.key ((hmem p).mp (hqs.linked_iff.mp hp.1)).1
    rw [hp.2] at hkey
    have hslot : (call p).slot = i := by rw [hkey]; exact hi
    refine ⟨?_, expected, timed, hkey⟩
    rw [h.place_eq hslot rfl, hwoken, AwLabel.place_of_queued hqueued]
    rfl

/-- The scan of a wake. -/
theorem scan (h : t.Sound initRc call w) {instr : Instr (AwSlot P) AwLabel} {ps : List P}
    (hs : Step (awProgram call) t.mem (t.slot i) es s) (hown : (t.slot i).owner = some me)
    (hl : (t.slot i).pc me = .scan) (hme : (call me).slot = i)
    (hcode : (awProgram call).code me t.mem .scan (t.slot i).data instr)
    (hdata : s.data = instr.post (t.slot i).data)
    (hpc : s.pc = Function.update (t.slot i).pc me (instr.next .scan)) (hnodup : ps.Nodup)
    (hps : ∀ p, p ∈ ps ↔
      Marks ⟨me, .scan, (t.slot i).data, instr.post (t.slot i).data, instr.next .scan⟩ p) :
    (waitContract call (fun p => awRefuse initRc (call p)) mem).permits w (.woke me ps) ∧
      AwTable.Sound initRc call { t with slot := Function.update t.slot i s }
        ((w.hand ps).put me (.counted ps.length)) := by
  obtain ⟨trs, hr⟩ := h.run
  obtain ⟨addr, all, d', ms, hc, rfl, hexact, hwoken⟩ := hr.scan_exact hown hcode
  have hmem (p : P) : p ∈ ps ↔ p ∈ ms := (hps p).trans (hexact.mem p).symm
  have hlen : ps.length = ms.length :=
    ((List.perm_ext_iff_of_nodup hnodup hexact.nodup).mpr hmem).length_eq
  have hasleep := h.asleepOn_iff hr hown hl hc (by rw [← hme, hc]; rfl)
  refine ⟨⟨h.place_eq hme hl, addr, all, hc, hnodup, fun p hp => ?_, fun hall => ?_,
    fun hnil p hp => ?_, fun hall _ p hp => ?_⟩, h.of_slot hs rfl fun p => ?_⟩
  · exact (hasleep p).mpr (hexact.linked p ((hmem p).mp hp))
  · exact hlen ▸ (hexact.one hall).1
  · have hlinked := (hasleep p).mp hp
    rw [hnil, List.length_nil] at hlen
    cases all with
    | false => exact absurd (hlen.trans ((hexact.one rfl).2 ⟨p, hlinked⟩)) (by simp)
    | true =>
      rw [List.length_eq_zero_iff.mp hlen.symm] at hexact
      exact absurd (hexact.every rfl p hlinked) List.not_mem_nil
  · exact (hmem p).mpr (hexact.every hall p ((hasleep p).mp hp))
  · rw [hdata, hpc]
    by_cases hpm : p = me
    · subst hpm
      rw [if_pos hme, Function.update_self, hlen]
      exact Function.update_self ..
    have hput : ((w.hand ps).put me (.counted ps.length)).place p =
        if p ∈ ps then .handed else w.place p := Function.update_of_ne hpm ..
    rw [hput, Function.update_of_ne hpm]
    by_cases hp : p ∈ ps
    · have hlinked := hexact.linked p ((hmem p).mp hp)
      obtain ⟨expected, timed, hcp⟩ := hexact.wait p hlinked
      have hslot : (call p).slot = i := by rw [hcp, ← hme, hc]; rfl
      have htrue : d'.woken p = true := (hwoken p).mpr (Or.inl ((hmem p).mp hp))
      have hqueued := (slot_linked (hr.slot i) hlinked.1).1
      rw [if_pos hp, if_pos hslot, Instr.post, htrue, AwLabel.place_of_queued hqueued]
      rfl
    · rw [if_neg hp]
      split_ifs with hslot
      · have heq : d'.woken p = (t.slot i).data.woken p := by
          rw [Bool.eq_iff_iff, hwoken p]
          exact or_iff_right ((hmem p).not.mp hp)
        rw [Instr.post, heq]
        exact h.place_eq hslot rfl
      · rfl

/-- An instruction means what the contract permits. -/
theorem exec (h : t.Sound initRc call w) {x : Exec P AwLabel (AwSlot P)} {ps : List P}
    (hs : Step (awProgram call) t.mem (t.slot i) [x] s)
    (hps : x.label = .scan → ps.Nodup ∧ ∀ p, p ∈ ps ↔ Marks x p) :
    (waitContract call (fun p => awRefuse initRc (call p)) mem).Accepts w (shown x ps) ∧
      AwTable.Sound initRc call { t with slot := Function.update t.slot i s }
        ((waitContract call (fun p => awRefuse initRc (call p)) mem).after w (shown x ps)) := by
  obtain ⟨trs, hr⟩ := h.run
  obtain ⟨me, instr, hown, hcode, hdata, hpc, hx⟩ := hs.exec_cases.resolve_left (by simp)
  obtain rfl := List.singleton_injective hx
  have hme : (call me).slot = i := by
    by_contra hi
    exact not_code_of_idle (hr.idle hi).1 hcode
  have hplace := h.place_eq hme rfl
  have hact := h.act hs hme hdata hpc
  have hquiet (hw : ∀ p, p ≠ me →
      (instr.post (t.slot i).data).woken p = (t.slot i).data.woken p)
      (hp : w.place me = (instr.next ((t.slot i).pc me)).place
        ((instr.post (t.slot i).data).woken me)) :
      AwTable.Sound initRc call { t with slot := Function.update t.slot i s } w := by
    have hput := hact hw
    rwa [WaitWorld.put_self hp] at hput
  have hinstr := code_cases hcode
  generalize hc : call me = c at hinstr
  generalize hl : (t.slot i).pc me = l at hinstr hplace hact hquiet hps ⊢
  cases hinstr with
  | @changed addr expected timed hne =>
    refine ⟨⟨trivial, hplace, addr, expected, timed, hc, ?_⟩, hact fun _ _ => rfl⟩
    rwa [Automaton.after_nil, h.mem]
  | @unchanged addr expected timed heq =>
    refine ⟨⟨trivial, hplace, addr, expected, timed, hc, ?_⟩, hact fun _ _ => rfl⟩
    rwa [Automaton.after_nil, h.mem]
  | @arm addr expected timed =>
    have harmed : (((t.slot i).data.arm me addr).woken me) = false := by
      simp [AwSlot.arm, AwSlot.link]
    refine ⟨trivial, hquiet (fun p hp => ?_) ?_⟩
    · simp [Instr.post, AwSlot.arm, AwSlot.link, hp]
    · simp [hplace, Instr.post, Instr.next, AwLabel.place, harmed]
  | park => exact ⟨trivial, hquiet (fun _ _ => rfl) hplace⟩
  | handed hw =>
    rw [hw] at hplace
    exact ⟨⟨trivial, hplace⟩, hact fun _ _ => rfl⟩
  | @leave addr expected timed rc fuel d' hw hd hrc =>
    obtain ⟨err, rfl⟩ := Option.ne_none_iff_exists'.mp hrc
    rw [hw] at hplace
    refine ⟨⟨trivial, hplace, addr, expected, timed, hc, ?_⟩,
      hact fun p _ => congrFun (unlinkFrom_woken hd) p⟩
    rintro rfl
    obtain ⟨addr', expected', hc'⟩ := timed_of_run (hr.slot i) hl
    exact (AwCall.wait.inj (hc.symm.trans hc')).2.2
  | again hw hd =>
    rw [hw] at hplace
    exact ⟨⟨trivial, hplace⟩, hact fun p _ => congrFun (unlinkFrom_woken hd) p⟩
  | unlock => exact ⟨trivial, hquiet (fun _ _ => rfl) hplace⟩
  | scan hd =>
    obtain ⟨hnodup, hmarks⟩ := hps rfl
    rw [hl] at hcode hpc
    obtain ⟨hpermits, hsound⟩ := h.scan hs hown hl hme hcode hdata hpc hnodup hmarks
    exact ⟨⟨trivial, hpermits⟩, hsound⟩
  | notify hn => exact ⟨trivial, hquiet (fun _ _ => rfl) hplace⟩
  | silent => exact ⟨trivial, hquiet (fun _ _ => rfl) hplace⟩
  | unlockWake => exact ⟨trivial, hquiet (fun _ _ => rfl) hplace⟩

/-- A step that executes no instruction, and that refuses nobody. -/
theorem quiet (h : t.Sound initRc call w) (hs : Step (awProgram call) t.mem (t.slot i) [] s)
    (hpc : ∀ p, (t.slot i).pc p ∈ (awProgram call).entry → s.pc p = (t.slot i).pc p) :
    AwTable.Sound initRc call { t with slot := Function.update t.slot i s } w := by
  obtain ⟨trs, hr⟩ := h.run
  have hsame (hp : ∀ p, (s.pc p).place (s.data.woken p) =
      ((t.slot i).pc p).place ((t.slot i).data.woken p)) :
      AwTable.Sound initRc call { t with slot := Function.update t.slot i s } w := by
    refine h.of_slot hs rfl fun p => ?_
    split_ifs with hslot
    · rw [hp p, h.place_eq hslot rfl]
    · rfl
  cases hs with
  | lock => exact hsame fun _ => rfl
  | @refuse p l _ hentry _ hl =>
    obtain ⟨rc, -, rfl⟩ := hl
    have heq : AwLabel.done rc = (t.slot i).pc p :=
      (Function.update_self ..).symm.trans (hpc p hentry)
    rw [← heq] at hentry
    simp [awProgram] at hentry
  | wakeup => exact hsame fun _ => rfl
  | @resume p l hfree hp hl =>
    have hpark : (t.slot i).pc p = .park := (slot_placed (hr.slot i)).waits (Or.inr hp)
    rw [hpark] at hl
    obtain ⟨rc, rfl, -⟩ := hl
    refine hsame fun q => ?_
    by_cases hq : q = p
    · subst hq
      simp [hpark, AwLabel.place]
    · simp [hq]

/-- Every step means what the contract permits. -/
theorem step (h : t.Sound initRc call w) (hs : TableMove call t evs t') :
    (waitContract call (fun p => awRefuse initRc (call p)) mem).Accepts w evs ∧
      t'.Sound initRc call
        ((waitContract call (fun p => awRefuse initRc (call p)) mem).after w evs) := by
  cases hs with
  | store addr v =>
    obtain ⟨trs, hr⟩ := h.run
    refine ⟨⟨trivial, trivial⟩, ⟨_, hr.step (.store 0 addr v)⟩, ?_, h.place⟩
    change Function.update w.mem addr v = Function.update t.mem addr v
    rw [h.mem]
  | exec hs hps => exact h.exec hs hps
  | @refuse i s p err hs hp hpc =>
    obtain ⟨trs, hr⟩ := h.run
    have hslot : (call p).slot = i := by
      by_contra hi
      rcases (hr.idle hi).1 with habsent | ⟨rc, hdone⟩
      · simp [habsent, awProgram] at hp
      · simp [hdone, awProgram] at hp
    have hrunning : w.place p = .running := by
      rw [h.place_eq hslot rfl]
      rcases hp with hp | hp
      · rw [hp]
        rfl
      · rw [hp]
        rfl
    refine ⟨⟨trivial, hrunning⟩, h.put hs hslot (fun q hq => ⟨?_, ?_⟩) ?_⟩
    · rw [hpc, Function.update_of_ne hq]
    · have hdata : s.data = (t.slot i).data := by
        rcases hs.exec_cases with ⟨-, hdata⟩ | ⟨_, _, -, -, -, -, hnil⟩
        · exact hdata
        · cases hnil
      rw [hdata]
    · rw [hpc, Function.update_self]
      rfl
  | quiet hs hpc => exact ⟨trivial, h.quiet hs hpc⟩

end AwTable.Sound

/-- The fallback keeps the contract. -/
theorem fallback_simulates (initRc : Status) (call : P → AwCall) (mem : Memory) :
    (fallbackSystem initRc call mem).Simulates
      (waitContract call (fun p => awRefuse initRc (call p)) mem) (AwTable.Sound initRc call) where
  start t ht := by
    refine ⟨⟨_, .start ht.slot⟩, ht.mem.symm, fun p => ?_⟩
    change (if awRefuse initRc (call p) = none then Place.running
      else .done (awRefuse initRc (call p))) = _
    rw [AwTable.place, (ht.slot _).pc]
    unfold awRefuse awStart
    by_cases hnull : (call p).addr = 0
    · simp [hnull, AwLabel.place]
    by_cases hrc : initRc = none
    · have hslot : slotFor (call p).addr = (call p).slot := rfl
      rw [if_neg hnull, if_pos hrc, if_neg hnull, if_neg (not_not.mpr hrc),
        if_neg (not_not.mpr hslot)]
      cases call p <;> rfl
    · rw [if_neg hnull, if_neg hrc, if_neg hnull, if_pos hrc]
      rfl
  step _ _ _ _ h hs := h.step hs

/-- What a program may rely on. -/
structure FallbackLaw (initRc : Status) (call : P → AwCall) (mem : Memory)
    (tr : List (WaitEvent P)) (t : AwTable P) : Prop where
  contract : WaitLaw call (fun p => awRefuse initRc (call p)) mem tr
  world : worldAfter call (fun p => awRefuse initRc (call p)) mem tr = ⟨t.mem, t.place call⟩
  /-- Only the wakes take waits. -/
  ok : ∀ p, t.place call p = .done none →
    p ∈ handedIn tr ∨ ∃ tr' addr expected timed, .differed p :: tr' <:+ tr ∧
      call p = .wait addr expected timed ∧
        (worldAfter call (fun p => awRefuse initRc (call p)) mem tr').mem addr ≠ expected
  /-- A wait times out only with a deadline, and not without a look at the word, unless the table
  or the mutex of the slot fails with that status. -/
  timedOut : ∀ p addr expected timed, call p = .wait addr expected timed →
    t.place call p = .done (some .ETIMEDOUT) → initRc ≠ some .ETIMEDOUT →
      .refused p .ETIMEDOUT ∉ tr → timed = true ∧ ∃ tr', .slept p :: tr' <:+ tr ∧
        (worldAfter call (fun p => awRefuse initRc (call p)) mem tr').mem addr = expected
  /-- No step of the table is left out. -/
  complete : ∀ i es t', TableStep call t i es t' → ∃ evs, TableMove call t evs t'

/-- No step takes a wait outside of a wake. -/
theorem not_strayed_of_run {tr : List (WaitEvent P)}
    (hr : (fallbackSystem initRc call mem).Run tr t) (p : P) : .strayed p ∉ tr := by
  induction hr with
  | start hs => exact List.not_mem_nil
  | step _ hs ih =>
    rw [List.mem_append, not_or]
    refine ⟨fun hmem => ?_, ih⟩
    cases hs with
    | @exec i x s ps hs hps =>
      unfold shown at hmem
      split at hmem <;> simp at hmem
    | _ => simp at hmem

/-- A call that fails at once with `ETIMEDOUT` does so because of the table. -/
theorem awRefuse_ne_timedOut {initRc : Status} (h : initRc ≠ some .ETIMEDOUT) (c : AwCall) :
    awRefuse initRc c ≠ some .ETIMEDOUT := by
  unfold awRefuse
  split_ifs
  · simp
  · exact h

/-- On macOS the calls obey the law of atomic waits that they obey on Linux, in every interleaving
of the calls, of the stores and of the wakeups of the condition variables. -/
theorem fallback_keeps_contract {tr : List (WaitEvent P)}
    (hr : (fallbackSystem initRc call mem).Run tr t) : FallbackLaw initRc call mem tr t := by
  obtain ⟨hacc, hsound⟩ := (fallback_simulates initRc call mem).run hr
  obtain ⟨trs, hrun⟩ := hsound.run
  have hlaw := waitLaw_of_accepts hacc
  have hworld : worldAfter call (fun p => awRefuse initRc (call p)) mem tr =
      ⟨t.mem, t.place call⟩ := WaitWorld.ext hsound.mem (funext hsound.place)
  have hplace (p : P) : (worldAfter call (fun p => awRefuse initRc (call p)) mem tr).place p =
      t.place call p := by rw [hworld]
  refine ⟨hlaw, hworld, fun p hp => ?_, fun p addr expected timed hc hp hinit href => ?_,
    fun i es t' hs => hs.shown hrun⟩
  · exact (hlaw.ok p ((hplace p).trans hp)).imp_right
      fun h => h.resolve_left (not_strayed_of_run hr p)
  · rcases hlaw.timedOut p ((hplace p).trans hp) with hrefuse | hrefused | h
    · exact absurd hrefuse (awRefuse_ne_timedOut hinit (call p))
    · exact absurd hrefused href
    · obtain ⟨tr', addr', expected', hs, hc', heq⟩ := h
      obtain ⟨rfl, rfl, rfl⟩ := AwCall.wait.inj (hc.symm.trans hc')
      exact ⟨rfl, tr', hs, heq⟩

end Fallback

/-- A wait is taken by a wake, and then its deadline passes. -/
theorem fallback_keeps_contract_timeout : ∃ tr t, FallbackLaw none waitAndWake (fun _ => 0) tr t ∧
    handedIn tr = [false] ∧ (t.slot (slotFor 4)).pc true = .doneWake 1 ∧
      (t.slot (slotFor 4)).pc false = .done none := by
  have h : (fallbackSystem none waitAndWake fun _ => 0).Run [] (quietTable waitAndWake) :=
    .start ⟨rfl, fun _ => ⟨⟨trivial, rfl, rfl, List.nodup_nil⟩, rfl, rfl, fun _ => rfl⟩⟩
  have h := h.step (.quiet (i := slotFor 4) (.lock (p := false) rfl (Or.inl rfl) (by decide))
    fun _ _ => rfl)
  have h := h.step (@TableMove.exec _ _ _ _ (slotFor 4) _ _ [] (.act (p := false) rfl ⟨0, rfl⟩)
    fun hl => absurd hl (by decide))
  have h := h.step (@TableMove.exec _ _ _ _ (slotFor 4) _ _ [] (.act (p := false) rfl ⟨0, rfl⟩)
    fun hl => absurd hl (by decide))
  have h := h.step (@TableMove.exec _ _ _ _ (slotFor 4) _ _ [] (.wait (p := false) rfl ⟨0, rfl⟩)
    fun hl => absurd hl (by decide))
  have h := h.step (.quiet (i := slotFor 4) (.lock (p := true) rfl (Or.inr rfl) (by decide))
    fun _ _ => rfl)
  have h := h.step (@TableMove.exec _ _ _ _ (slotFor 4) _ _ [false]
    (.act (p := true) rfl ⟨2, rfl⟩) fun _ => ⟨by simp, by decide⟩)
  have h := h.step (@TableMove.exec _ _ _ _ (slotFor 4) _ _ []
    (.broadcast (p := true) rfl ⟨0, rfl⟩) fun hl => absurd hl (by decide))
  have h := h.step (@TableMove.exec _ _ _ _ (slotFor 4) _ _ []
    (.unlock (p := true) rfl ⟨0, rfl⟩) fun hl => absurd hl (by decide))
  have h := h.step (.resume (i := slotFor 4) (p := false) rfl (by decide) rfl
    ⟨some .ETIMEDOUT, rfl, fun _ => ⟨_, _, rfl⟩⟩)
  have h := h.step (@TableMove.exec _ _ _ _ (slotFor 4) _ _ [] (.act (p := false) rfl ⟨0, rfl⟩)
    fun hl => absurd hl (by decide))
  have h := h.step (@TableMove.exec _ _ _ _ (slotFor 4) _ _ [] (.unlock (p := false) rfl ⟨0, rfl⟩)
    fun hl => absurd hl (by decide))
  exact ⟨_, _, fallback_keeps_contract h, rfl, rfl, rfl⟩

end MojitoSys.Sync
