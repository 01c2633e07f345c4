import Mathlib.Data.Finset.Card
import Mathlib.Data.Fintype.Basic
import Mathlib.Data.Int.Notation
import Mathlib.Logic.Function.Basic

/-!
# Reference counts

An object that several parties share. Each party holds one reference until it drops it, and the
party that drops the last reference frees the object in a step of its own. A party reads and writes
the object only while it holds its reference.

## Main definitions

* `RefCount`: the counter, the number of frees, and the share of every party.
* `RefCount.Step`: the steps of a party.
* `RefCount.Sound`: the counter counts the holders.

## Main results

* `RefCount.Sound.step`: the steps keep the counter sound.
* `RefCount.Step.safe`: nobody accesses the object after it is freed, and it is freed when no
  reference is left.
* `RefCount.Sound.frees_of_gone`: when all parties are done, it is freed once.
-/

namespace MojitoSys.Util

/-- The share of a party in the object. -/
inductive Share
  | holds
  /-- The party dropped the last reference, and has not freed the object. -/
  | freeing
  | gone
  deriving DecidableEq, Repr

/-- How a step accesses the object. -/
inductive Access
  | quiet
  /-- A read or a write. -/
  | touch
  | free
  deriving DecidableEq, Repr

/-- A shared object. -/
@[ext]
structure RefCount (P : Type*) where
  refs : ℤ
  frees : ℕ
  share : P → Share

namespace RefCount

variable {P : Type*} [DecidableEq P] {c c' : RefCount P} {p : P} {a : Access}

/-- A party drops its reference. -/
def unref (c : RefCount P) (p : P) : RefCount P where
  refs := c.refs - 1
  frees := c.frees
  share := Function.update c.share p (if c.refs = 1 then .freeing else .gone)

/-- A party frees the object. -/
def free (c : RefCount P) (p : P) : RefCount P where
  refs := c.refs
  frees := c.frees + 1
  share := Function.update c.share p .gone

/-- The steps of a party. -/
inductive Step (c : RefCount P) (p : P) : Access → RefCount P → Prop
  | quiet : Step c p .quiet c
  | touch (hp : c.share p = .holds) : Step c p .touch c
  | unref (hp : c.share p = .holds) : Step c p .touch (c.unref p)
  | free (hp : c.share p = .freeing) : Step c p .free (c.free p)

variable [Fintype P]

/-- The parties with a given share. -/
def parties (c : RefCount P) (s : Share) : Finset P := Finset.univ.filter fun p => c.share p = s

/-- The counter counts the holders; the object is freed, or about to be, when there are none. -/
structure Sound (c : RefCount P) : Prop where
  refs : c.refs = (c.parties .holds).card
  frees : c.frees + (c.parties .freeing).card = if c.refs = 0 then 1 else 0

omit [DecidableEq P] in
theorem mem_parties {s : Share} : p ∈ c.parties s ↔ c.share p = s := by
  simp [parties]

theorem card_parties_update (c c' : RefCount P) {x : Share} (s : Share)
    (hc : c'.share = Function.update c.share p x) :
    (c'.parties s).card + (if c.share p = s then 1 else 0) =
      (c.parties s).card + if x = s then 1 else 0 := by
  have herase : ((c'.parties s).erase p) = (c.parties s).erase p := by
    ext q
    simp only [Finset.mem_erase, mem_parties, hc]
    refine and_congr_right fun hq => ?_
    rw [Function.update_of_ne hq]
  have hcard : ∀ b : RefCount P, ((b.parties s).erase p).card + (if b.share p = s then 1 else 0) =
      (b.parties s).card := by
    intro b
    split_ifs with hb
    · exact Finset.card_erase_add_one (mem_parties.mpr hb)
    · rw [Finset.erase_eq_of_notMem (fun hp => hb (mem_parties.mp hp)), Nat.add_zero]
  have h := hcard c
  have h' := hcard c'
  have hp : c'.share p = x := by rw [hc, Function.update_self]
  rw [herase, hp] at h'
  omega

omit [DecidableEq P] in
theorem Sound.pos (h : c.Sound) (hp : c.share p = .holds) : 0 < c.refs := by
  have := Finset.card_pos.mpr ⟨p, mem_parties.mpr hp⟩
  rw [h.refs]
  exact Int.natCast_pos.mpr this

theorem Sound.unref (h : c.Sound) (hp : c.share p = .holds) : (c.unref p).Sound := by
  have hpos := h.pos hp
  have hrefs := h.refs
  have hfrees := h.frees
  have hholds := c.card_parties_update (c.unref p) .holds rfl
  have hfreeing := c.card_parties_update (c.unref p) .freeing rfl
  have hrefs' : (c.unref p).refs = c.refs - 1 := rfl
  have hfrees' : (c.unref p).frees = c.frees := rfl
  rw [if_neg hpos.ne'] at hfrees
  rw [hp, if_pos rfl] at hholds
  rw [hp, if_neg (by decide)] at hfreeing
  by_cases hlast : c.refs = 1
  · rw [if_pos hlast, if_neg (by decide)] at hholds
    rw [if_pos hlast, if_pos rfl] at hfreeing
    refine ⟨by omega, ?_⟩
    rw [if_pos (by omega)]
    omega
  · rw [if_neg hlast, if_neg (by decide)] at hholds
    rw [if_neg hlast, if_neg (by decide)] at hfreeing
    refine ⟨by omega, ?_⟩
    rw [if_neg (by omega)]
    omega

theorem Sound.free (h : c.Sound) (hp : c.share p = .freeing) : (c.free p).Sound := by
  have hrefs := h.refs
  have hfrees := h.frees
  have hholds := c.card_parties_update (c.free p) .holds rfl
  have hfreeing := c.card_parties_update (c.free p) .freeing rfl
  have hrefs' : (c.free p).refs = c.refs := rfl
  have hfrees' : (c.free p).frees = c.frees + 1 := rfl
  rw [hp, if_neg (by decide), if_neg (by decide)] at hholds
  rw [hp, if_pos rfl, if_neg (by decide)] at hfreeing
  refine ⟨by omega, ?_⟩
  rw [hrefs', ← hfrees]
  omega

/-- The steps keep the counter sound. -/
theorem Sound.step (h : c.Sound) (hs : c.Step p a c') : c'.Sound := by
  cases hs with
  | quiet => exact h
  | touch => exact h
  | unref hp => exact h.unref hp
  | free hp => exact h.free hp

omit [DecidableEq P] in
theorem Sound.frees_of_holds (h : c.Sound) (hp : c.share p = .holds) : c.frees = 0 := by
  have hfrees := h.frees
  rw [if_neg (h.pos hp).ne'] at hfrees
  omega

omit [DecidableEq P] in
theorem Sound.of_freeing (h : c.Sound) (hp : c.share p = .freeing) : c.refs = 0 ∧ c.frees = 0 := by
  have hfrees := h.frees
  have hcard := Finset.card_pos.mpr ⟨p, mem_parties.mpr hp⟩
  split_ifs at hfrees with hrefs
  · exact ⟨hrefs, by omega⟩
  · omega

/-- Nobody accesses the object after it is freed, and it is freed when no reference is left. -/
theorem Step.safe (h : c.Sound) (hs : c.Step p a c') :
    (a ≠ .quiet → c.frees = 0) ∧ (a = .free → c.refs = 0 ∧ ∀ q, c.share q ≠ .holds) := by
  cases hs with
  | quiet => simp
  | touch hp => exact ⟨fun _ => h.frees_of_holds hp, by simp⟩
  | unref hp => exact ⟨fun _ => h.frees_of_holds hp, by simp⟩
  | free hp =>
    obtain ⟨hrefs, hfrees⟩ := h.of_freeing hp
    exact ⟨fun _ => hfrees, fun _ => ⟨hrefs, fun q hq => (h.pos hq).ne' hrefs⟩⟩

omit [DecidableEq P] in
theorem Sound.frees_le (h : c.Sound) : c.frees ≤ 1 ∧ (0 < c.frees → c.refs = 0) := by
  have hfrees := h.frees
  split_ifs at hfrees with hrefs
  · exact ⟨by omega, fun _ => hrefs⟩
  · exact ⟨by omega, by omega⟩

omit [DecidableEq P] in
/-- When all parties are done, the object is freed once. -/
theorem Sound.frees_of_gone (h : c.Sound) (hgone : ∀ p, c.share p = .gone) : c.frees = 1 := by
  have hempty : ∀ s, s ≠ .gone → c.parties s = ∅ := by
    intro s hs
    refine Finset.eq_empty_of_forall_notMem fun p hp => hs ?_
    rw [← hgone p, mem_parties.mp hp]
  have hrefs := h.refs
  have hfrees := h.frees
  rw [hempty .holds (by decide)] at hrefs
  rw [hempty .freeing (by decide), if_pos (by simpa using hrefs)] at hfrees
  simpa using hfrees

end RefCount

end MojitoSys.Util
