import MojitoSys.Io.Epoll

/-!
# The token table of the epoll backend

The table refines a finite map from descriptors to tokens. A deleted slot keeps a tombstone, so a
probe path never loses a slot that was not empty; a new descriptor goes to the first tombstone on
its path, or to the empty slot that ends it. The invariant says that no slot on the path to a live
descriptor is empty or holds the same descriptor, and that the table holds what the log of the
calls says.

## Main definitions

* `Entry`, `tableMap`, `lastSet`, `lastUnregistered`: the log of the calls and what it determines.
* `Step`, `Run`: the calls, with their log.
* `TableInv`: the invariant.

## Main results

* `slot_of_holds`, `slot_of_absent`: what `mjs_epoll_slot` returns.
* `TableInv.step`, `tableInv_run`: the invariant is preserved by a step and holds along a run.
* `epoll_table_refines_map`: the table and the delivered events follow the log.
-/

namespace MojitoSys.Io.Epoll

open Util Probing Epoller

/-! ### The log -/

/-- A call on the poller and whether it returned `0`. -/
inductive Entry
  /-- A registration or a modification. -/
  | set (fd : Fd) (token : Token) (ok : Bool)
  | unregister (fd : Fd) (ok : Bool)
  deriving DecidableEq, Repr

/-- The map that the table refines: a successful registration or modification sets a token, an
unregistration removes it whatever the kernel answers. -/
def tableMap (fd : Fd) : List Entry → Option Token
  | [] => none
  | .set x token true :: log => if x = fd then some token else tableMap fd log
  | .set _ _ false :: log => tableMap fd log
  | .unregister x _ :: log => if x = fd then none else tableMap fd log

/-- The token of the last successful registration or modification. -/
def lastSet (fd : Fd) : List Entry → Option Token
  | [] => none
  | .set x token true :: log => if x = fd then some token else lastSet fd log
  | .set _ _ false :: log | .unregister _ _ :: log => lastSet fd log

/-- The last successful call on a descriptor was an unregistration. -/
def lastUnregistered (fd : Fd) : List Entry → Bool
  | [] => false
  | .set x _ true :: log => if x = fd then false else lastUnregistered fd log
  | .unregister x true :: log => if x = fd then true else lastUnregistered fd log
  | .set _ _ false :: log | .unregister _ false :: log => lastUnregistered fd log

/-- A descriptor in the map has the token of its last successful registration or modification,
and its last successful call was no unregistration. -/
theorem tableMap_eq_some {fd : Fd} {token : Token} {log : List Entry}
    (h : tableMap fd log = some token) :
    lastSet fd log = some token ∧ lastUnregistered fd log = false := by
  induction log with
  | nil => cases h
  | cons e log ih =>
    cases e with
    | set x tok ok =>
      cases ok with
      | false => exact ih h
      | true =>
        by_cases hx : x = fd
        · simpa [tableMap, lastSet, lastUnregistered, hx] using h
        · simp only [tableMap, lastSet, lastUnregistered, hx, if_false] at h ⊢
          exact ih h
    | unregister x ok =>
      by_cases hx : x = fd
      · simp [tableMap, hx] at h
      · cases ok <;> simp only [tableMap, lastSet, lastUnregistered, hx, if_false] at h ⊢ <;>
          exact ih h

/-! ### Runs -/

/-- A call on the poller, with its log entry. A descriptor that is not in the table is not
unregistered while the table has no empty slot. -/
inductive Step (p : Epoller) : Entry → Epoller → Prop
  | register (f₁ f₂ : Option Fail) (fd : Fd) (interests : Mask) (token : Token) :
      Step p (.set fd token (p.register f₁ f₂ fd interests token).1.isNone)
        (p.register f₁ f₂ fd interests token).2
  | modify (f : Option Fail) (fd : Fd) (interests : Mask) (token : Token) :
      Step p (.set fd token (p.modify f fd interests token).1.isNone)
        (p.modify f fd interests token).2
  | unregister {f : Option Fail} {fd : Fd} {st : Status} {p' : Epoller}
      (hroom : 0 ≤ fd → (∃ i, i < CAP ∧ p.tableFd i = fd) ∨ ∃ i, i < CAP ∧ p.tableFd i = -1)
      (h : p.unregister f fd = some (st, p')) : Step p (.unregister fd st.isNone) p'

/-- The poller after `mjs_epoll_create`. -/
structure Start (p : Epoller) : Prop where
  tableFd : ∀ i, p.tableFd i = -1
  kernel : ∀ fd, p.kernel fd = if fd = p.wfd then some 0x1 else none

/-- The reachable states of a poller, with the log of the calls. -/
inductive Run : List Entry → Epoller → Prop
  | start {p : Epoller} (h : Start p) : Run [] p
  | step {log : List Entry} {p p' : Epoller} {e : Entry} (hr : Run log p) (hs : Step p e p') :
      Run (e :: log) p'

/-! ### What a probe returns -/

section Probe

variable {t : ℕ → Fd} {fd : Fd} {h i : ℕ}

/-- The probe for `fd` stops at the slot. -/
def Stops (t : ℕ → Fd) (fd : Fd) (i : ℕ) : Prop := t i = -1 ∨ t i = fd

theorem hash_lt (fd : Fd) : hash fd < CAP := by
  have hle : hash fd ≤ CAP - 1 := Nat.and_le_right
  have hc : 0 < CAP := by decide
  omega

theorem next_eq (h : ℕ) : (h + 1) &&& (CAP - 1) = (h + 1) % CAP :=
  and_mask_eq_mod (k := 8) (by decide) _

theorem probe_succ_of_not_stops {n firstTomb : ℕ} (hs : ¬ Stops t fd h) :
    probe t fd (n + 1) h firstTomb = probe t fd n ((h + 1) % CAP)
      (if t h = TOMB ∧ firstTomb = CAP then h else firstTomb) := by
  have hs' : ¬ (t h = -1 ∨ t h = fd) := hs
  rw [probe, if_neg hs', next_eq]

/-- A probe that ends at its descriptor returns the slot, whatever tombstones it met. -/
theorem probe_of_holds {n firstTomb : ℕ} (hh : h < CAP) (hr : Reaches CAP h (Stops t fd) i)
    (hi : t i = fd) (hfd : fd ≠ -1) (hn : dist CAP h i < n) : probe t fd n h firstTomb = i := by
  induction n generalizing h firstTomb with
  | zero => omega
  | succ n ih =>
    by_cases hih : i = h
    · subst hih
      simp [probe, hi, hfd]
    · obtain ⟨hstop, hnext⟩ := hr.succ hh hih
      have hd := dist_succ hh hr.1 hih
      rw [probe_succ_of_not_stops hstop]
      exact ih (Nat.mod_lt _ (by decide)) hnext (by omega)

/-- A probe that ends at an empty slot returns the tombstone it carries, else a tombstone on its
path, else the empty slot. -/
theorem probe_of_empty {n firstTomb : ℕ} (hh : h < CAP) (hr : Reaches CAP h (Stops t fd) i)
    (hi : t i = -1) (hn : dist CAP h i < n) (hft : firstTomb ≤ CAP) :
    (firstTomb < CAP → probe t fd n h firstTomb = firstTomb) ∧
      (firstTomb = CAP → probe t fd n h firstTomb = i ∨
        probe t fd n h firstTomb < CAP ∧ t (probe t fd n h firstTomb) = TOMB ∧
          Before CAP h (probe t fd n h firstTomb) i) := by
  induction n generalizing h firstTomb with
  | zero => omega
  | succ n ih =>
    by_cases hih : i = h
    · subst hih
      refine ⟨fun hlt => by simp [probe, hi, hlt], fun heq => Or.inl ?_⟩
      simp [probe, hi, heq]
    · obtain ⟨hstop, hnext⟩ := hr.succ hh hih
      have hd := dist_succ hh hr.1 hih
      have hlt : (h + 1) % CAP < CAP := Nat.mod_lt _ (by decide)
      rw [probe_succ_of_not_stops hstop]
      by_cases htomb : t h = TOMB ∧ firstTomb = CAP
      · -- the first tombstone of the path
        have hcarry := (ih hlt hnext (by omega) (Nat.le_of_lt hh)).1 hh
        rw [if_pos htomb, hcarry]
        refine ⟨fun hft' => by omega, fun _ => Or.inr ⟨hh, htomb.1, ?_⟩⟩
        rw [Before, dist_self hh]
        omega
      · rw [if_neg htomb]
        obtain ⟨hcarry, hpath⟩ := ih hlt hnext (by omega) hft
        refine ⟨hcarry, fun heq => ?_⟩
        rcases hpath heq with hend | ⟨hlt', htomb', hb⟩
        · exact Or.inl hend
        · exact Or.inr ⟨hlt', htomb', before_of_before_succ hh hr.1 hih hlt' hb⟩

theorem probe_of_full {n firstTomb : ℕ} (hh : h < CAP) (hno : ∀ i, i < CAP → ¬ Stops t fd i) :
    probe t fd n h firstTomb = CAP := by
  induction n generalizing h firstTomb with
  | zero => rfl
  | succ n ih =>
    rw [probe_succ_of_not_stops (hno h hh)]
    exact ih (Nat.mod_lt _ (by decide))

end Probe

/-! ### The invariant -/

/-- The table holds a descriptor with a token. -/
def Holds (p : Epoller) (fd : Fd) (token : Token) : Prop :=
  ∃ i, i < CAP ∧ p.tableFd i = fd ∧ p.tableTok i = token

/-- Every live descriptor of a table ends its own probe. -/
def Reachable (t : ℕ → Fd) : Prop :=
  ∀ i, i < CAP → 0 ≤ t i → Reaches CAP (hash (t i)) (Stops t (t i)) i

/-- The invariant of the table. -/
structure TableInv (log : List Entry) (p : Epoller) : Prop where
  reach : Reachable p.tableFd
  /-- The table holds what the log says. -/
  map : ∀ fd, 0 ≤ fd → ∀ token, Holds p fd token ↔ tableMap fd log = some token
  /-- Only the poller's own descriptor and checked ones are watched. -/
  kernel : ∀ fd, p.kernel fd ≠ none → fd = p.wfd ∨ 0 ≤ fd

section Slot

variable {p : Epoller} {fd : Fd} {i : ℕ}

/-- `mjs_epoll_slot` finds a live descriptor, whatever tombstones lie on its path. -/
theorem slot_of_holds (hr : Reachable p.tableFd) (hfd : 0 ≤ fd) (hi : i < CAP)
    (hti : p.tableFd i = fd) : p.slot fd = i := by
  have hreach := hr i hi (by rw [hti]; exact hfd)
  rw [hti] at hreach
  have hne : fd ≠ -1 := by
    rintro rfl
    cases hfd
  exact probe_of_holds (hash_lt fd) hreach hti hne (dist_lt (by decide))

/-- An absent descriptor gets the empty slot that ends its path or a tombstone before it. -/
theorem slot_of_absent (habs : ∀ j, j < CAP → p.tableFd j ≠ fd)
    (hempty : ∃ e, e < CAP ∧ p.tableFd e = -1) :
    ∃ e, Reaches CAP (hash fd) (Stops p.tableFd fd) e ∧ (p.slot fd = e ∧ p.tableFd e = -1 ∨
      p.slot fd < CAP ∧ p.tableFd (p.slot fd) = TOMB ∧ Before CAP (hash fd) (p.slot fd) e) := by
  obtain ⟨e₀, he₀, hte₀⟩ := hempty
  have hstop : ∃ e, e < CAP ∧ Stops p.tableFd fd e := ⟨e₀, he₀, Or.inl hte₀⟩
  obtain ⟨e, he⟩ := exists_reaches (h := hash fd) hstop
  have hte : p.tableFd e = -1 := he.2.1.resolve_right (habs e he.1)
  refine ⟨e, he, ?_⟩
  rcases (probe_of_empty (hash_lt fd) he hte (dist_lt (by decide)) (Nat.le_refl CAP)).2 rfl with
    hend | htomb
  · exact Or.inl ⟨hend, hte⟩
  · exact Or.inr htomb

/-- Without an empty slot, an absent descriptor gets the sentinel. -/
theorem slot_of_full (habs : ∀ j, j < CAP → p.tableFd j ≠ fd)
    (hfull : ∀ j, j < CAP → p.tableFd j ≠ -1) : p.slot fd = CAP :=
  probe_of_full (hash_lt fd) fun j hj hs => hs.elim (hfull j hj) (habs j hj)

/-- What a slot below the sentinel is: the slot of the descriptor, or a free slot such that nothing
stops the probe before it. -/
theorem slot_cases (hr : Reachable p.tableFd) (hfd : 0 ≤ fd) (hs : p.slot fd < CAP) :
    p.tableFd (p.slot fd) = fd ∨
      (p.tableFd (p.slot fd) = -1 ∨ p.tableFd (p.slot fd) = TOMB) ∧
        (∀ j, j < CAP → p.tableFd j ≠ fd) ∧
        ∀ j, j < CAP → Before CAP (hash fd) j (p.slot fd) → ¬ Stops p.tableFd fd j := by
  by_cases habs : ∀ j, j < CAP → p.tableFd j ≠ fd
  · have hempty : ∃ e, e < CAP ∧ p.tableFd e = -1 := by
      by_contra hfull
      have hcap := slot_of_full habs fun j hj hj' => hfull ⟨j, hj, hj'⟩
      omega
    obtain ⟨e, he, ⟨hse, hte⟩ | ⟨-, htomb, hb⟩⟩ := slot_of_absent habs hempty
    · rw [hse]
      exact Or.inr ⟨Or.inl hte, habs, he.2.2⟩
    · exact Or.inr ⟨Or.inr htomb, habs, fun j hj hbj => he.2.2 j hj (Nat.lt_trans hbj hb)⟩
  · push Not at habs
    obtain ⟨i, hi, hti⟩ := habs
    rw [slot_of_holds hr hfd hi hti]
    exact Or.inl hti

end Slot

/-! ### Writing a slot -/

section Write

variable {t : ℕ → Fd} {fd : Fd} {s : ℕ}

/-- Overwriting a slot that holds no other live descriptor with a value that stops no other probe
keeps the other live descriptors reachable. -/
theorem Reachable.update {v : Fd} (hr : Reachable t) (hv : v ≠ -1)
    (hother : ∀ i, i < CAP → i ≠ s → t i = v → t i < 0)
    (hs : 0 ≤ v → Reaches CAP (hash v) (Stops (Function.update t s v) v) s) :
    Reachable (Function.update t s v) := by
  intro i hi hti
  by_cases his : i = s
  · subst his
    rw [Function.update_self] at hti ⊢
    exact hs hti
  · rw [Function.update_of_ne his] at hti ⊢
    refine (hr i hi hti).congr (Or.inr (Function.update_of_ne his _ _)) fun j _ _ hstop => ?_
    by_cases hjs : j = s
    · -- the new value would have to be the descriptor of the other slot
      subst hjs
      rw [Stops, Function.update_self] at hstop
      rcases hstop with hempty | hsame
      · exact absurd hempty hv
      · exact absurd (hother i hi his hsame.symm) (Int.not_lt.mpr hti)
    · rwa [Stops, Function.update_of_ne hjs] at hstop

end Write

variable {log : List Entry} {p p' : Epoller} {fd : Fd} {token : Token}

/-- Writing a descriptor to its slot keeps every live descriptor reachable. -/
theorem Reachable.put (hr : Reachable p.tableFd) (hfd : 0 ≤ fd) (hs : p.slot fd < CAP) :
    Reachable (Function.update p.tableFd (p.slot fd) fd) := by
  rcases slot_cases hr hfd hs with hheld | ⟨-, habs, hpath⟩
  · rwa [Function.update_eq_self_iff.mpr hheld.symm]
  · have hne : fd ≠ -1 := by
      rintro rfl
      cases hfd
    refine hr.update hne (fun i hi _ hti => absurd hti (habs i hi)) fun _ => ?_
    refine ⟨hs, Or.inr (Function.update_self _ _ _), fun j hj hb hstop => ?_⟩
    have hne : j ≠ p.slot fd := by
      rintro rfl
      exact not_before_self hb
    rw [Stops, Function.update_of_ne hne] at hstop
    exact hpath j hj hb hstop

/-- The poller after a successful registration or modification. -/
def put (p : Epoller) (fd : Fd) (interests : Mask) (token : Token) : Epoller :=
  { p with
    kernel := Function.update p.kernel fd (some (watched interests))
    tableFd := Function.update p.tableFd (p.slot fd) fd
    tableTok := Function.update p.tableTok (p.slot fd) token }

theorem holds_put_self {interests : Mask} {tok : Token} (hr : Reachable p.tableFd) (hfd : 0 ≤ fd)
    (hs : p.slot fd < CAP) : Holds (put p fd interests token) fd tok ↔ token = tok := by
  constructor
  · rintro ⟨i, hi, hti, htok⟩
    have his : i = p.slot fd := by
      by_contra hne
      simp only [put, Function.update_of_ne hne] at hti
      exact hne (slot_of_holds hr hfd hi hti).symm
    simpa [put, his] using htok
  · rintro rfl
    exact ⟨_, hs, Function.update_self _ _ _, Function.update_self _ _ _⟩

theorem holds_put_of_ne {interests : Mask} {x : Fd} {tok : Token} (hr : Reachable p.tableFd)
    (hfd : 0 ≤ fd) (hs : p.slot fd < CAP) (hx : 0 ≤ x) (hne : fd ≠ x) :
    Holds (put p fd interests token) x tok ↔ Holds p x tok := by
  -- the written slot holds `x` neither before nor after
  have hbefore : p.tableFd (p.slot fd) ≠ x := by
    rintro rfl
    rcases slot_cases hr hfd hs with hheld | ⟨hempty | htomb, -⟩
    · exact hne hheld.symm
    · rw [hempty] at hx
      cases hx
    · rw [htomb] at hx
      cases hx
  constructor
  · rintro ⟨i, hi, hti, htok⟩
    have his : i ≠ p.slot fd := by
      rintro rfl
      exact hne (by simpa [put] using hti)
    simp only [put, Function.update_of_ne his] at hti htok
    exact ⟨i, hi, hti, htok⟩
  · rintro ⟨i, hi, hti, htok⟩
    have his : i ≠ p.slot fd := by
      rintro rfl
      exact hbefore hti
    exact ⟨i, hi, by simpa [put, his] using hti, by simpa [put, his] using htok⟩

/-- The poller after an unregistration that leaves the interest list `kernel`. -/
def bury (p : Epoller) (fd : Fd) (kernel : Fd → Option Mask) : Epoller :=
  { p with
    kernel := kernel
    tableFd := if p.tableFd (p.slot fd) = fd then
      Function.update p.tableFd (p.slot fd) TOMB else p.tableFd }

/-- An unregistration keeps the other live descriptors reachable. -/
theorem Reachable.bury (hr : Reachable p.tableFd) (fd : Fd) (kernel : Fd → Option Mask) :
    Reachable (bury p fd kernel).tableFd := by
  unfold Epoll.bury
  dsimp only
  split
  · -- a tombstone stops no probe
    refine hr.update (by decide) (fun i _ _ hti => by rw [hti]; decide) fun h => ?_
    exact absurd h (by decide)
  · exact hr

/-- An unregistration removes the descriptor from the table, and nothing else. -/
theorem holds_bury {x : Fd} {tok : Token} {kernel : Fd → Option Mask} (hr : Reachable p.tableFd)
    (hfd : 0 ≤ fd) (hs : p.slot fd < CAP) (hx : 0 ≤ x) :
    Holds (bury p fd kernel) x tok ↔ fd ≠ x ∧ Holds p x tok := by
  unfold Holds bury
  dsimp only
  rcases slot_cases hr hfd hs with hheld | ⟨-, habs, -⟩
  · rw [if_pos hheld]
    constructor
    · rintro ⟨i, hi, hti, htok⟩
      have his : i ≠ p.slot fd := by
        rintro rfl
        rw [Function.update_self] at hti
        rw [← hti] at hx
        cases hx
      rw [Function.update_of_ne his] at hti
      refine ⟨?_, i, hi, hti, htok⟩
      rintro rfl
      exact his (slot_of_holds hr hfd hi hti).symm
    · rintro ⟨hne, i, hi, hti, htok⟩
      have his : i ≠ p.slot fd := by
        rintro rfl
        exact hne (hheld.symm.trans hti)
      exact ⟨i, hi, by rwa [Function.update_of_ne his], htok⟩
  · rw [if_neg (habs _ hs)]
    refine ⟨fun h => ⟨?_, h⟩, fun h => h.2⟩
    obtain ⟨i, hi, hti, -⟩ := h
    rintro rfl
    exact habs i hi hti

/-! ### What the calls do -/

/-- `ADD` and `MOD` change the interest list if they succeed. -/
theorem ctl_cases (p : Epoller) (f : Option Fail) (op : CtlOp) (fd : Fd) (interests : Mask)
    (hop : op ≠ .del) : (∃ err, p.ctl f op fd interests = (some err, p)) ∨
      p.ctl f op fd interests =
        (none, { p with kernel := Function.update p.kernel fd (some (watched interests)) }) := by
  cases op with
  | del => exact absurd rfl hop
  | add | mod =>
    cases f with
    | some f => exact Or.inl ⟨f.errno, rfl⟩
    | none => cases hk : p.kernel fd <;> simp [ctl, epollCtl, hk]

theorem addOrMod_cases (p : Epoller) (f₁ f₂ : Option Fail) (fd : Fd) (interests : Mask)
    (isAdd : Bool) : (∃ err, p.addOrMod f₁ f₂ fd interests isAdd = (some err, p)) ∨
      p.addOrMod f₁ f₂ fd interests isAdd =
        (none, { p with kernel := Function.update p.kernel fd (some (watched interests)) }) := by
  have hop : (if isAdd then CtlOp.add else CtlOp.mod) ≠ .del := by cases isAdd <;> decide
  unfold addOrMod
  rcases ctl_cases p f₁ _ fd interests hop with ⟨err, h⟩ | h
  · rw [h]
    by_cases he : err = .EEXIST
    · subst he
      cases isAdd with
      | false => exact Or.inl ⟨_, rfl⟩
      | true => exact ctl_cases p f₂ .mod fd interests (by decide)
    · refine Or.inl ⟨err, ?_⟩
      cases err <;> first | exact absurd rfl he | rfl
  · rw [h]
    exact Or.inr rfl

/-- A registration or modification fails and changes nothing, or writes the slot of the
descriptor. -/
theorem set_cases (p : Epoller) (f₁ f₂ : Option Fail) (fd : Fd) (interests : Mask) (token : Token)
    (isAdd : Bool) : (∃ err, p.set f₁ f₂ fd interests token isAdd = (some err, p)) ∨
      0 ≤ fd ∧ p.slot fd < CAP ∧
        p.set f₁ f₂ fd interests token isAdd = (none, put p fd interests token) := by
  unfold Epoller.set
  cases checkInterests interests with
  | some err => exact Or.inl ⟨err, rfl⟩
  | none =>
    by_cases hfd : fd < 0
    · exact Or.inl ⟨.EBADF, if_pos hfd⟩
    by_cases hs : CAP ≤ p.slot fd
    · exact Or.inl ⟨.ENOSPC, by simp [hfd, hs]⟩
    simp only [hfd, hs, if_false]
    rcases addOrMod_cases p f₁ f₂ fd interests isAdd with ⟨err, h⟩ | h
    · exact Or.inl ⟨err, by rw [h]⟩
    · refine Or.inr ⟨Int.not_lt.mp hfd, Nat.lt_of_not_le hs, ?_⟩
      rw [h]
      rfl

/-- `DEL` removes the descriptor from the interest list or changes nothing. -/
theorem ctl_del_cases (p : Epoller) (f : Option Fail) (fd : Fd) (interests : Mask) :
    (p.ctl f .del fd interests).2 = p ∨ (p.ctl f .del fd interests).2 =
      { p with kernel := Function.update p.kernel fd none } := by
  cases f with
  | some f =>
    have hne := f.ne_noent
    left
    simp only [ctl, epollCtl]
    split <;> simp_all
  | none => cases hk : p.kernel fd <;> simp [ctl, epollCtl, hk]

/-- An unregistration buries the descriptor whatever the kernel answers. -/
theorem unregister_eq (p : Epoller) (f : Option Fail) (hfd : 0 ≤ fd) :
    p.unregister f fd = if CAP ≤ p.slot fd then none else
      some ((p.ctl f .del fd 0).1, bury p fd (p.ctl f .del fd 0).2.kernel) := by
  have hneg : ¬ fd < 0 := Int.not_lt.mpr hfd
  unfold Epoller.unregister
  rw [if_neg hneg]
  generalize hr : p.ctl f .del fd 0 = r
  -- `DEL` leaves the table alone
  have htable : r.2 = { p with kernel := r.2.kernel } := by
    rcases ctl_del_cases p f fd 0 with hd | hd <;> rw [hr] at hd <;> rw [hd]
  have hslot : r.2.slot fd = p.slot fd := by rw [htable]; rfl
  have htfd : r.2.tableFd = p.tableFd := by rw [htable]
  simp only [hslot, htfd, bury]
  split_ifs with hfull hheld
  · rfl
  · rw [htable]
  · rw [← htable]

/-- An unregistration checks the descriptor, and otherwise buries it. -/
theorem unregister_cases {f : Option Fail} {st : Status} (h : p.unregister f fd = some (st, p')) :
    (fd < 0 ∧ st = some .EBADF ∧ p' = p) ∨
      0 ≤ fd ∧ p.slot fd < CAP ∧ st = (p.ctl f .del fd 0).1 ∧
        p' = bury p fd (p.ctl f .del fd 0).2.kernel := by
  by_cases hfd : fd < 0
  · rw [Epoller.unregister, if_pos hfd] at h
    cases h
    exact Or.inl ⟨hfd, rfl, rfl⟩
  · rw [unregister_eq p f (Int.not_lt.mp hfd)] at h
    split_ifs at h with hfull
    cases h
    exact Or.inr ⟨Int.not_lt.mp hfd, Nat.lt_of_not_le hfull, rfl, rfl⟩

/-! ### Runs keep the invariant -/

/-- A registration or modification keeps the invariant. -/
theorem TableInv.set (hi : TableInv log p) (f₁ f₂ : Option Fail) (fd : Fd) (interests : Mask)
    (token : Token) (isAdd : Bool) :
    TableInv (.set fd token (p.set f₁ f₂ fd interests token isAdd).1.isNone :: log)
      (p.set f₁ f₂ fd interests token isAdd).2 := by
  rcases set_cases p f₁ f₂ fd interests token isAdd with ⟨err, h⟩ | ⟨hfd, hs, h⟩
  · rw [h]
    exact ⟨hi.reach, hi.map, hi.kernel⟩
  · rw [h]
    refine ⟨hi.reach.put hfd hs, fun x hx tok => ?_, fun x hx => ?_⟩
    · by_cases hne : fd = x
      · subst hne
        rw [holds_put_self hi.reach hfd hs]
        simp [tableMap]
      · rw [holds_put_of_ne hi.reach hfd hs hx hne, hi.map x hx]
        simp [tableMap, hne]
    · by_cases hne : x = fd
      · subst hne
        exact Or.inr hfd
      · simp only [put, Function.update_of_ne hne] at hx
        exact hi.kernel x hx

/-- An unregistration keeps the invariant. -/
theorem TableInv.unregister {f : Option Fail} {st : Status} (hi : TableInv log p)
    (h : p.unregister f fd = some (st, p')) :
    TableInv (.unregister fd st.isNone :: log) p' := by
  obtain ⟨hfd, rfl, rfl⟩ | ⟨hfd, hs, rfl, rfl⟩ := unregister_cases h
  · refine ⟨hi.reach, fun x hx tok => ?_, hi.kernel⟩
    have hne : fd ≠ x := by
      rintro rfl
      exact absurd hfd (Int.not_lt.mpr hx)
    rw [hi.map x hx]
    simp [tableMap, hne]
  · refine ⟨hi.reach.bury fd _, fun x hx tok => ?_, fun x hx => ?_⟩
    · rw [holds_bury hi.reach hfd hs hx, hi.map x hx]
      by_cases hne : fd = x <;> simp [tableMap, hne]
    · apply hi.kernel x
      rcases ctl_del_cases p f fd 0 with hd | hd <;> simp only [Epoll.bury, hd] at hx
      · exact hx
      · by_cases hne : x = fd
        · simp [hne] at hx
        · rwa [Function.update_of_ne hne] at hx

/-- A call keeps the invariant. -/
theorem TableInv.step {e : Entry} (hi : TableInv log p) (hs : Step p e p') :
    TableInv (e :: log) p' := by
  cases hs with
  | register f₁ f₂ fd interests token => exact hi.set f₁ f₂ fd interests token true
  | modify f fd interests token => exact hi.set f none fd interests token false
  | unregister _ h => exact hi.unregister h

/-- The invariant holds along a run. -/
theorem tableInv_run (hr : Run log p) : TableInv log p := by
  induction hr with
  | start h =>
    refine ⟨fun i _ hti => ?_, fun fd hfd tok => ⟨?_, fun h => by cases h⟩, fun fd hfd => ?_⟩
    · rw [h.tableFd i] at hti
      cases hti
    · rintro ⟨i, -, hti, -⟩
      rw [h.tableFd i] at hti
      subst hti
      cases hfd
    · by_contra hno
      rw [h.kernel fd, if_neg fun he => hno (Or.inl he)] at hfd
      exact hfd rfl
  | step _ hs ih => exact ih.step hs

/-! ### Deliveries -/

/-- A delivered event comes from a ready descriptor and carries the token of its slot. -/
theorem holds_of_deliver {cap : ℕ} {ready : List (Fd × Mask)} {ev : PollEvent}
    (h : ev ∈ p.deliver cap ready) :
    (∃ e ∈ ready, e.1 = ev.fd) ∧ ev.fd ≠ p.wfd ∧ Holds p ev.fd ev.token := by
  have hfold : ∀ (ready : List (Fd × Mask)) (events : List PollEvent),
      ev ∈ ready.foldl (p.deliverOne cap) events → ev ∈ events ∨
        (∃ e ∈ ready, e.1 = ev.fd) ∧ ev.fd ≠ p.wfd ∧ Holds p ev.fd ev.token := by
    intro ready
    induction ready with
    | nil => exact fun events h => Or.inl h
    | cons e ready ih =>
      intro events h
      rcases ih _ h with hone | ⟨⟨e', he', hfd⟩, hrest⟩
      · dsimp only [deliverOne] at hone
        split_ifs at hone with hw hcap hslot
        · exact Or.inl hone
        · exact Or.inl hone
        · exact Or.inl hone
        · push Not at hslot
          rcases List.mem_append.mp hone with hold | hnew
          · exact Or.inl hold
          · rw [List.mem_singleton.mp hnew]
            exact Or.inr ⟨⟨e, List.mem_cons_self, rfl⟩, hw, _, hslot.1, hslot.2, rfl⟩
      · exact Or.inr ⟨⟨e', List.mem_cons_of_mem _ he', hfd⟩, hrest⟩
  exact (hfold ready [] h).resolve_left List.not_mem_nil

/-! ### The table refines the map -/

/-- What the table, the deliveries and the failed calls of a poller owe to the log of its calls. -/
structure RefinesMap (log : List Entry) (p : Epoller) : Prop where
  /-- A descriptor is in at most one slot. -/
  unique : ∀ i j, i < CAP → j < CAP → 0 ≤ p.tableFd i → p.tableFd i = p.tableFd j → i = j
  /-- `mjs_epoll_slot` finds every descriptor of the table. -/
  found : ∀ i, i < CAP → 0 ≤ p.tableFd i → p.slot (p.tableFd i) = i
  /-- The stored token is that of the last successful registration or modification. -/
  token : ∀ i, i < CAP → 0 ≤ p.tableFd i → lastSet (p.tableFd i) log = some (p.tableTok i)
  /-- The table is the map that the log determines. -/
  map : ∀ fd, 0 ≤ fd → ∀ token, Holds p fd token ↔ tableMap fd log = some token
  /-- A delivered event carries that token, and its descriptor was not unregistered last. -/
  events : ∀ cap ready, (∀ e ∈ ready, p.kernel e.1 ≠ none) → ∀ ev ∈ p.deliver cap ready,
    lastSet ev.fd log = some ev.token ∧ lastUnregistered ev.fd log = false
  /-- A registration that returns nonzero changes neither the table nor the interest list. -/
  register_failed : ∀ f₁ f₂ fd interests token,
    (p.register f₁ f₂ fd interests token).1 ≠ none →
      (p.register f₁ f₂ fd interests token).2 = p
  /-- A modification that returns nonzero changes neither the table nor the interest list. -/
  modify_failed : ∀ f fd interests token, (p.modify f fd interests token).1 ≠ none →
    (p.modify f fd interests token).2 = p

/-- A registration or modification that returns nonzero changes nothing. -/
theorem set_eq_of_ne_none {f₁ f₂ : Option Fail} {interests : Mask} {isAdd : Bool}
    (h : (p.set f₁ f₂ fd interests token isAdd).1 ≠ none) :
    (p.set f₁ f₂ fd interests token isAdd).2 = p := by
  rcases set_cases p f₁ f₂ fd interests token isAdd with ⟨err, he⟩ | ⟨-, -, he⟩
  · rw [he]
  · rw [he] at h
    exact absurd rfl h

/-- For every sequence of registrations, modifications and unregistrations, with any collisions and
any errors of the kernel, the table refines the map of the log. -/
theorem epoll_table_refines_map (hr : Run log p) : RefinesMap log p := by
  have hi := tableInv_run hr
  have hfound : ∀ i, i < CAP → 0 ≤ p.tableFd i → p.slot (p.tableFd i) = i :=
    fun i hlt hti => slot_of_holds hi.reach hti hlt rfl
  have hlast : ∀ fd, 0 ≤ fd → ∀ token, Holds p fd token →
      lastSet fd log = some token ∧ lastUnregistered fd log = false :=
    fun fd hfd token hh => tableMap_eq_some ((hi.map fd hfd token).mp hh)
  refine ⟨fun i j hil hjl hti hij => ?_, hfound, fun i hil hti => ?_, hi.map,
    fun cap ready hready ev hev => ?_, fun _ _ _ _ _ => set_eq_of_ne_none,
    fun _ _ _ _ => set_eq_of_ne_none⟩
  · rw [← hfound i hil hti, hij, hfound j hjl (hij ▸ hti)]
  · exact (hlast _ hti _ ⟨i, hil, rfl, rfl⟩).1
  · obtain ⟨⟨e, he, hfd⟩, hw, hh⟩ := holds_of_deliver hev
    -- the kernel reports watched descriptors only
    have hk := hready e he
    rw [hfd] at hk
    exact hlast _ ((hi.kernel _ hk).resolve_left hw) _ hh

/-- The poller of the example: its own descriptor is `4`. -/
def fresh : Epoller := ⟨4, fun _ => -1, fun _ => 0, fun fd => if fd = 4 then some 0x1 else none⟩

theorem start_fresh : Start fresh := ⟨fun _ => rfl, fun _ => rfl⟩

/-- The descriptor `3`, registered at its home slot `19`. -/
def homed : Epoller where
  wfd := 4
  tableFd := Function.update (fun _ => -1) 19 3
  tableTok := Function.update (fun _ => 0) 19 30
  kernel := Function.update fresh.kernel 3 (some 0x2001)

/-- The descriptor `259`, displaced by `3` from the same home slot. -/
def displaced : Epoller where
  wfd := 4
  tableFd := Function.update homed.tableFd 20 259
  tableTok := Function.update homed.tableTok 20 40
  kernel := Function.update homed.kernel 259 (some 0x2001)

/-- The same after `3` is unregistered. -/
def tombed : Epoller :=
  { displaced with
    tableFd := Function.update displaced.tableFd 19 TOMB
    kernel := Function.update displaced.kernel 3 none }

/-- The descriptor behind a tombstone is found and delivered with its last token. -/
theorem epoll_table_refines_map_tombstone :
    ∃ log, Run log tombed ∧ tombed.slot 259 = 20 ∧
      tombed.deliver 8 [(259, 0x1)] = [⟨40, 259, READABLE⟩] ∧ RefinesMap log tombed := by
  have h₁ : Step fresh (.set 3 30 true) homed := .register none none 3 READABLE 30
  have h₂ : Step homed (.set 259 40 true) displaced := .register none none 259 READABLE 40
  have hdel : displaced.unregister none 3 = some (none, tombed) := rfl
  have h₃ : Step displaced (.unregister 3 true) tombed :=
    .unregister (fun _ => Or.inl ⟨19, by decide, rfl⟩) hdel
  have hrun := (((Run.start start_fresh).step h₁).step h₂).step h₃
  exact ⟨_, hrun, by decide, by decide, epoll_table_refines_map hrun⟩

end MojitoSys.Io.Epoll
