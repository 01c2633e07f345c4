import MojitoSys.Util.Automaton
import Mathlib.Data.List.Nodup
import Mathlib.Logic.Function.Basic

/-!
# Custody of resources under reusable names

A resource is held by one party from the moment that it is made until it is released: it passes from
party to party, only its holder uses it, and only its holder releases it, once. A party may also
lose it, and then nobody releases it.

The parties do not know the resources. Each knows a name, and a table says what a name denotes; the
name of a released resource may come to denote another one. The automaton `custody` says what may
happen to the resources, where an event of a party that acts by its name shows the resource that
the name denoted.

## Main definitions

* `Life`, `CustodyEvent`, `custody`: the automaton.
* `Names`, `Names.make`, `Names.pass`, `Names.release`, `Names.tell`: the table and the names.
* `Names.Keeps`: every party holds the resource that its name denotes.
* `madeIn`, `releasedIn`, `lostIn`: what a trace makes, releases and loses.

## Main results

* `accounted_of_accepts`: no resource is released twice; what was made is held, released or lost.
* `Names.Keeps.make`, `.pass`, `.use`, `.release`, `.lose`: what the steps show is accepted.
* `Names.Keeps.denotes_iff`: a name denotes what was made and not released.
-/

namespace MojitoSys.Util

variable {N H : Type*}

/-- What became of a resource. -/
inductive Life (H : Type*)
  | unborn
  | held (h : H)
  | released
  /-- Nobody holds it and nobody released it. -/
  | lost

/-- What happens to the resources. -/
inductive CustodyEvent (H : Type*)
  | made (h : H) (d : ℕ)
  | passed (h h' : H) (target : Option ℕ)
  | used (h : H) (target : Option ℕ)
  | released (h : H) (target : Option ℕ)
  | lost (h : H) (target : Option ℕ)

/-- The party holds what its name denotes. -/
def HoldsTarget (s : ℕ → Life H) (h : H) (target : Option ℕ) : Prop :=
  ∃ d, target = some d ∧ s d = .held h

/-- The automaton of the resources: nothing is made at the start. -/
def custody (H : Type*) : Automaton (ℕ → Life H) (CustodyEvent H) where
  start := fun _ => .unborn
  permits s
    | .made h d => s d = .unborn ∧ ∀ d', s d' ≠ .held h
    | .passed h h' target => HoldsTarget s h target ∧ ∀ d', s d' ≠ .held h'
    | .used h target | .released h target | .lost h target => HoldsTarget s h target
  next s
    | .made h d => Function.update s d (.held h)
    | .passed _ h' (some d) => Function.update s d (.held h')
    | .released _ (some d) => Function.update s d .released
    | .lost _ (some d) => Function.update s d .lost
    | .used _ _ | .passed _ _ none | .released _ none | .lost _ none => s

/-- Only what is made is no longer unborn. -/
theorem custody_next_unborn {s : ℕ → Life H} {e : CustodyEvent H} {d : ℕ}
    (he : (custody H).permits s e) (hs : s d = .unborn) (hmade : ∀ h, e ≠ .made h d) :
    (custody H).next s e d = .unborn := by
  have hne {h : H} {target : Option ℕ} (ht : HoldsTarget s h target) :
      ∃ d', target = some d' ∧ d ≠ d' := by
    obtain ⟨d', rfl, hs'⟩ := ht
    refine ⟨d', rfl, ?_⟩
    rintro rfl
    rw [hs] at hs'
    cases hs'
  cases e with
  | made h d' =>
    have hd : d ≠ d' := by
      rintro rfl
      exact hmade h rfl
    exact (Function.update_of_ne hd ..).trans hs
  | passed h h' target =>
    obtain ⟨d', rfl, hd⟩ := hne he.1
    exact (Function.update_of_ne hd ..).trans hs
  | used h target => exact hs
  | released h target | lost h target =>
    obtain ⟨d', rfl, hd⟩ := hne he
    exact (Function.update_of_ne hd ..).trans hs

theorem custody_after_unborn {s : ℕ → Life H} {es : List (CustodyEvent H)} {d : ℕ}
    (hes : (custody H).Accepts s es) (hs : s d = .unborn) (hmade : ∀ h, .made h d ∉ es) :
    (custody H).after s es d = .unborn := by
  induction es with
  | nil => exact hs
  | cons e es ih =>
    refine custody_next_unborn hes.2 (ih hes.1 fun h hmem => ?_) fun h heq => ?_
    · exact hmade h (List.mem_cons_of_mem _ hmem)
    · exact hmade h (heq ▸ List.mem_cons_self)

/-! ### Traces -/

/-- The resources that a trace makes. -/
def madeIn (tr : List (CustodyEvent H)) : List ℕ :=
  tr.filterMap fun
    | .made _ d => some d
    | _ => none

/-- The resources that a trace releases. -/
def releasedIn (tr : List (CustodyEvent H)) : List ℕ :=
  tr.filterMap fun
    | .released _ target => target
    | _ => none

/-- The resources that a trace loses. -/
def lostIn (tr : List (CustodyEvent H)) : List ℕ :=
  tr.filterMap fun
    | .lost _ target => target
    | _ => none

section Traces

variable {tr : List (CustodyEvent H)} {s : ℕ → Life H} {d : ℕ}

/-- What a trace did with the resources that are now `s`. -/
structure Accounted (tr : List (CustodyEvent H)) (s : ℕ → Life H) : Prop where
  once : (releasedIn tr).Nodup
  made : ∀ d, d ∈ madeIn tr ↔ s d ≠ .unborn
  released : ∀ d, d ∈ releasedIn tr ↔ s d = .released
  lost : ∀ d, d ∈ lostIn tr ↔ s d = .lost

theorem Accounted.start : Accounted ([] : List (CustodyEvent H)) fun _ => .unborn :=
  ⟨List.nodup_nil, by simp [madeIn], by simp [releasedIn], by simp [lostIn]⟩

/-- One resource gets another life, and the trace says so. -/
theorem Accounted.update {e : CustodyEvent H} {l : Life H} (h : Accounted tr s)
    (honce : (releasedIn (e :: tr)).Nodup)
    (hother : ∀ d', d' ≠ d → (d' ∈ madeIn (e :: tr) ↔ d' ∈ madeIn tr) ∧
      (d' ∈ releasedIn (e :: tr) ↔ d' ∈ releasedIn tr) ∧ (d' ∈ lostIn (e :: tr) ↔ d' ∈ lostIn tr))
    (hmade : d ∈ madeIn (e :: tr) ↔ l ≠ .unborn)
    (hreleased : d ∈ releasedIn (e :: tr) ↔ l = .released)
    (hlost : d ∈ lostIn (e :: tr) ↔ l = .lost) :
    Accounted (e :: tr) (Function.update s d l) := by
  have hcases (P Q : ℕ → Prop) (R : Life H → Prop) (hP : ∀ d', P d' ↔ R (s d'))
      (hQP : ∀ d', d' ≠ d → (Q d' ↔ P d')) (hQ : Q d ↔ R l) (d' : ℕ) :
      Q d' ↔ R (Function.update s d l d') := by
    by_cases hd : d' = d
    · subst hd
      rwa [Function.update_self]
    · rw [Function.update_of_ne hd]
      exact (hQP d' hd).trans (hP d')
  exact ⟨honce,
    hcases (· ∈ madeIn tr) _ (· ≠ .unborn) h.made (fun d' hd => (hother d' hd).1) hmade,
    hcases (· ∈ releasedIn tr) _ (· = .released) h.released (fun d' hd => (hother d' hd).2.1)
      hreleased,
    hcases (· ∈ lostIn tr) _ (· = .lost) h.lost (fun d' hd => (hother d' hd).2.2) hlost⟩

/-- An event keeps the account. -/
theorem Accounted.next {e : CustodyEvent H} (h : Accounted tr s)
    (he : (custody H).permits s e) : Accounted (e :: tr) ((custody H).next s e) := by
  cases e with
  | made x d =>
    have hunborn := he.1
    refine h.update h.once (fun d' hd => ?_) ?_ ?_ ?_
    · simp [madeIn, releasedIn, lostIn, hd]
    · simp [madeIn]
    · have := h.released d
      simpa [releasedIn, hunborn] using this
    · have := h.lost d
      simpa [lostIn, hunborn] using this
  | passed x x' target =>
    obtain ⟨⟨d, rfl, hheld⟩, -⟩ := he
    refine h.update h.once (fun d' hd => ⟨Iff.rfl, Iff.rfl, Iff.rfl⟩) ?_ ?_ ?_
    · have := h.made d
      simpa [madeIn, hheld] using this
    · have := h.released d
      simpa [releasedIn, hheld] using this
    · have := h.lost d
      simpa [lostIn, hheld] using this
  | used x target => exact ⟨h.once, h.made, h.released, h.lost⟩
  | released x target =>
    obtain ⟨d, rfl, hheld⟩ := he
    have hnot : d ∉ releasedIn tr := by simp [h.released, hheld]
    refine h.update (List.nodup_cons.mpr ⟨hnot, h.once⟩) (fun d' hd => ?_) ?_ ?_ ?_
    · simp [madeIn, releasedIn, lostIn, hd]
    · have := h.made d
      simpa [madeIn, hheld] using this
    · simp [releasedIn]
    · have := h.lost d
      simpa [lostIn, hheld] using this
  | lost x target =>
    obtain ⟨d, rfl, hheld⟩ := he
    refine h.update h.once (fun d' hd => ?_) ?_ ?_ ?_
    · simp [madeIn, releasedIn, lostIn, hd]
    · have := h.made d
      simpa [madeIn, hheld] using this
    · have := h.released d
      simpa [releasedIn, hheld] using this
    · simp [lostIn]

/-- No resource is released twice; what was made is held, released or lost. -/
theorem accounted_of_accepts (h : (custody H).Accepts (custody H).start tr) :
    Accounted tr ((custody H).after (custody H).start tr) :=
  h.invariant (P := Accounted) .start fun _ _ hacc he => hacc.next he

end Traces

/-! ### Names -/

/-- What the names denote, how many resources there were, and the name that each party knows. -/
@[ext]
structure Names (N H : Type*) where
  table : N → Option ℕ
  made : ℕ
  name : H → Option N

namespace Names

/-- The resource that the name of a party denotes. -/
def target (w : Names N H) (h : H) : Option ℕ := (w.name h).bind w.table

variable [DecidableEq N] [DecidableEq H]

/-- A resource is made under a name that no party knows. -/
def makeOther (w : Names N H) (n : N) : Names N H :=
  ⟨Function.update w.table n (some w.made), w.made + 1, w.name⟩

/-- A name is given back to the table. -/
def free (w : Names N H) (n : N) : Names N H :=
  { w with table := Function.update w.table n none }

/-- A party learns a name, or forgets the one that it knows. -/
def tell (w : Names N H) (h : H) (n : Option N) : Names N H :=
  { w with name := Function.update w.name h n }

omit [DecidableEq N] in
theorem tell_name_of_ne {w : Names N H} {h x : H} {n : Option N} (hx : x ≠ h) :
    (w.tell h n).name x = w.name x := Function.update_of_ne hx ..

omit [DecidableEq N] in
theorem tell_eq_self {w : Names N H} {h : H} {n : Option N} (hn : w.name h = n) :
    w.tell h n = w := by
  rw [tell, ← hn, Function.update_eq_self]

/-- A party makes a resource. -/
def make (w : Names N H) (h : H) (n : N) : Names N H := (w.makeOther n).tell h (some n)

/-- A party gives its name to another. -/
def pass (w : Names N H) (h h' : H) (n : N) : Names N H := (w.tell h none).tell h' (some n)

/-- A party gives its name back to the table. -/
def release (w : Names N H) (h : H) (n : N) : Names N H := (w.tell h none).free n

/-- Every party holds the resource that its name denotes. -/
structure Keeps (w : Names N H) (s : ℕ → Life H) : Prop where
  fresh : ∀ d, w.made ≤ d → s d = .unborn
  below : ∀ n d, w.table n = some d → d < w.made
  unique : ∀ n n' d, w.table n = some d → w.table n' = some d → n = n'
  holds : ∀ h n, w.name h = some n → ∃ d, w.table n = some d ∧ s d = .held h
  held : ∀ d h, s d = .held h → ∃ n, w.name h = some n ∧ w.table n = some d
  lost : ∀ d, s d = .lost → ∃ n, w.table n = some d
  gone : ∀ n d, w.table n = some d → s d ≠ .released

namespace Keeps

variable {w : Names N H} {s : ℕ → Life H} {h h' : H} {n : N} {d : ℕ}

omit [DecidableEq N] [DecidableEq H] in
theorem start (table : N → Option ℕ) (made : ℕ) (hbelow : ∀ n d, table n = some d → d < made)
    (hunique : ∀ n n' d, table n = some d → table n' = some d → n = n') :
    Keeps (⟨table, made, fun _ => none⟩ : Names N H) fun _ => .unborn :=
  ⟨fun _ _ => rfl, hbelow, hunique, nofun, nofun, nofun, nofun⟩

omit [DecidableEq N] [DecidableEq H] in
theorem target_eq (hk : w.Keeps s) (hn : w.name h = some n) :
    ∃ d, w.target h = some d ∧ w.table n = some d ∧ s d = .held h := by
  obtain ⟨d, hd, hs⟩ := hk.holds h n hn
  exact ⟨d, by rw [target, hn, Option.bind_some, hd], hd, hs⟩

omit [DecidableEq N] [DecidableEq H] in
/-- A party without a name holds nothing. -/
theorem not_held (hk : w.Keeps s) (hn : w.name h = none) (d : ℕ) : s d ≠ .held h := by
  intro hs
  obtain ⟨n, hname, -⟩ := hk.held d h hs
  rw [hn] at hname
  cases hname

omit [DecidableEq N] [DecidableEq H] in
/-- Two parties know different names. -/
theorem name_inj (hk : w.Keeps s) (hn : w.name h = some n) (hn' : w.name h' = some n) :
    h = h' := by
  obtain ⟨d, hd, hs⟩ := hk.holds h n hn
  obtain ⟨d', hd', hs'⟩ := hk.holds h' n hn'
  obtain rfl : d = d' := Option.some.inj (hd.symm.trans hd')
  injection hs.symm.trans hs'

omit [DecidableEq H] in
theorem makeOther (hk : w.Keeps s) (hn : w.table n = none) : (w.makeOther n).Keeps s := by
  have hne {n' : N} {d : ℕ} (hd : w.table n' = some d) : n' ≠ n := by
    rintro rfl
    rw [hn] at hd
    cases hd
  refine ⟨fun d hd => hk.fresh d (Nat.le_of_lt hd), fun n' d hd => ?_, fun n₁ n₂ d h₁ h₂ => ?_,
    fun x n' hx => ?_, fun d x hs => ?_, fun d hs => ?_, fun n' d hd hs => ?_⟩
  · by_cases hnn : n' = n
    · subst hnn
      simp only [Names.makeOther, Function.update_self, Option.some.injEq] at hd
      exact hd ▸ Nat.lt_succ_self _
    · simp only [Names.makeOther, Function.update_of_ne hnn] at hd
      exact Nat.lt_succ_of_lt (hk.below n' d hd)
  · have hold {n₁ : N} (h₁ : w.table n₁ = some d) : d ≠ w.made := Nat.ne_of_lt (hk.below n₁ d h₁)
    simp only [Names.makeOther, Function.update_apply] at h₁ h₂
    split_ifs at h₁ h₂ with hn₁ hn₂ hn₂
    · exact hn₁.trans hn₂.symm
    · exact absurd (Option.some.inj h₁).symm (hold h₂)
    · exact absurd (Option.some.inj h₂).symm (hold h₁)
    · exact hk.unique n₁ n₂ d h₁ h₂
  · obtain ⟨d, hd, hs⟩ := hk.holds x n' hx
    exact ⟨d, (Function.update_of_ne (hne hd) ..).trans hd, hs⟩
  · obtain ⟨n', hx, hd⟩ := hk.held d x hs
    exact ⟨n', hx, (Function.update_of_ne (hne hd) ..).trans hd⟩
  · obtain ⟨n', hd⟩ := hk.lost d hs
    exact ⟨n', (Function.update_of_ne (hne hd) ..).trans hd⟩
  · by_cases hnn : n' = n
    · subst hnn
      simp only [Names.makeOther, Function.update_self, Option.some.injEq] at hd
      rw [hk.fresh d (Nat.le_of_eq hd)] at hs
      cases hs
    · simp only [Names.makeOther, Function.update_of_ne hnn] at hd
      exact hk.gone n' d hd hs

omit [DecidableEq H] in
/-- A name that no party knows is given back. -/
theorem free (hk : w.Keeps s) (hn : ∀ h, w.name h ≠ some n) (hd : w.table n = some d)
    {l : Life H} (hl : l = .unborn ∨ l = .released) :
    (w.free n).Keeps (Function.update s d l) := by
  have htable {n' : N} {d' : ℕ} (hd' : (w.free n).table n' = some d') :
      w.table n' = some d' ∧ d' ≠ d := by
    by_cases hnn : n' = n
    · simp [Names.free, hnn] at hd'
    · have hold : w.table n' = some d' := (Function.update_of_ne hnn ..).symm.trans hd'
      exact ⟨hold, fun hdd => hnn (hk.unique n' n d (hdd ▸ hold) hd)⟩
  have hfree {n' : N} {d' : ℕ} (hd' : w.table n' = some d') (hdd : d' ≠ d) :
      (w.free n).table n' = some d' := by
    refine (Function.update_of_ne ?_ ..).trans hd'
    rintro rfl
    exact hdd (Option.some.inj (hd'.symm.trans hd))
  refine ⟨fun d' hd' => ?_, fun n' d' hd' => hk.below n' d' (htable hd').1,
    fun n₁ n₂ d' h₁ h₂ => hk.unique n₁ n₂ d' (htable h₁).1 (htable h₂).1, fun x n' hx => ?_,
    fun d' x hs' => ?_, fun d' hs' => ?_, fun n' d' hd' hs' => ?_⟩
  · have hne : d' ≠ d := Nat.ne_of_gt (Nat.lt_of_lt_of_le (hk.below n d hd) hd')
    exact (Function.update_of_ne hne ..).trans (hk.fresh d' hd')
  · obtain ⟨d', hd', hs'⟩ := hk.holds x n' hx
    have hdd : d' ≠ d := by
      rintro rfl
      exact hn x (hk.unique n' n d' hd' hd ▸ hx)
    exact ⟨d', hfree hd' hdd, (Function.update_of_ne hdd ..).trans hs'⟩
  · by_cases hdd : d' = d
    · subst hdd
      rcases hl with rfl | rfl <;> simp at hs'
    · rw [Function.update_of_ne hdd] at hs'
      obtain ⟨n', hx, hd'⟩ := hk.held d' x hs'
      exact ⟨n', hx, hfree hd' hdd⟩
  · by_cases hdd : d' = d
    · subst hdd
      rcases hl with rfl | rfl <;> simp at hs'
    · rw [Function.update_of_ne hdd] at hs'
      obtain ⟨n', hd'⟩ := hk.lost d' hs'
      exact ⟨n', hfree hd' hdd⟩
  · obtain ⟨hold, hdd⟩ := htable hd'
    rw [Function.update_of_ne hdd] at hs'
    exact hk.gone n' d' hold hs'

omit [DecidableEq N] in
/-- A party without a name learns that of a resource that nobody holds. -/
theorem learn (hk : w.Keeps s) (hh : w.name h = none) (hd : w.table n = some d)
    (hs : ∀ x, s d ≠ .held x) :
    (w.tell h (some n)).Keeps (Function.update s d (.held h)) := by
  refine ⟨fun d' hd' => ?_, hk.below, hk.unique, fun x n' hx => ?_, fun d' x hs' => ?_,
    fun d' hs' => ?_, fun n' d' hd' hs' => ?_⟩
  · have hne : d' ≠ d := Nat.ne_of_gt (Nat.lt_of_lt_of_le (hk.below n d hd) hd')
    exact (Function.update_of_ne hne ..).trans (hk.fresh d' hd')
  · by_cases hxh : x = h
    · subst hxh
      simp only [tell, Function.update_self, Option.some.injEq] at hx
      exact ⟨d, hx ▸ hd, Function.update_self ..⟩
    · simp only [tell, Function.update_of_ne hxh] at hx
      obtain ⟨d', hd', hs'⟩ := hk.holds x n' hx
      have hne : d' ≠ d := by
        rintro rfl
        exact hs x hs'
      exact ⟨d', hd', (Function.update_of_ne hne ..).trans hs'⟩
  · by_cases hdd : d' = d
    · subst hdd
      rw [Function.update_self] at hs'
      obtain rfl : h = x := by injection hs'
      exact ⟨n, Function.update_self .., hd⟩
    · rw [Function.update_of_ne hdd] at hs'
      obtain ⟨n', hx, hd'⟩ := hk.held d' x hs'
      have hxh : x ≠ h := by
        rintro rfl
        rw [hh] at hx
        cases hx
      exact ⟨n', (Function.update_of_ne hxh ..).trans hx, hd'⟩
  · by_cases hdd : d' = d
    · simp [hdd] at hs'
    · rw [Function.update_of_ne hdd] at hs'
      exact hk.lost d' hs'
  · by_cases hdd : d' = d
    · simp [hdd] at hs'
    · rw [Function.update_of_ne hdd] at hs'
      exact hk.gone n' d' hd' hs'

omit [DecidableEq N] in
/-- A party forgets its name, and the resource is lost. -/
theorem forget (hk : w.Keeps s) (hs : s d = .held h) :
    (w.tell h none).Keeps (Function.update s d .lost) := by
  obtain ⟨n, hn, hd⟩ := hk.held d h hs
  refine ⟨fun d' hd' => ?_, hk.below, hk.unique, fun x n' hx => ?_, fun d' x hs' => ?_,
    fun d' hs' => ?_, fun n' d' hd' hs' => ?_⟩
  · have hne : d' ≠ d := Nat.ne_of_gt (Nat.lt_of_lt_of_le (hk.below n d hd) hd')
    exact (Function.update_of_ne hne ..).trans (hk.fresh d' hd')
  · by_cases hxh : x = h
    · subst hxh
      simp [tell] at hx
    · simp only [tell, Function.update_of_ne hxh] at hx
      obtain ⟨d', hd', hs'⟩ := hk.holds x n' hx
      have hne : d' ≠ d := by
        rintro rfl
        rw [hs] at hs'
        exact hxh (by injection hs' with heq; exact heq.symm)
      exact ⟨d', hd', (Function.update_of_ne hne ..).trans hs'⟩
  · by_cases hdd : d' = d
    · simp [hdd] at hs'
    · rw [Function.update_of_ne hdd] at hs'
      obtain ⟨n', hx, hd'⟩ := hk.held d' x hs'
      have hxh : x ≠ h := by
        rintro rfl
        rw [hn] at hx
        obtain rfl := Option.some.inj hx
        exact hdd (Option.some.inj (hd'.symm.trans hd))
      exact ⟨n', (Function.update_of_ne hxh ..).trans hx, hd'⟩
  · by_cases hdd : d' = d
    · exact ⟨n, hdd ▸ hd⟩
    · rw [Function.update_of_ne hdd] at hs'
      exact hk.lost d' hs'
  · by_cases hdd : d' = d
    · simp [hdd] at hs'
    · rw [Function.update_of_ne hdd] at hs'
      exact hk.gone n' d' hd' hs'

/-! ### Steps -/

theorem make (hk : w.Keeps s) (hn : w.table n = none) (hh : w.name h = none) :
    (custody H).permits s (.made h w.made) ∧
      (w.make h n).Keeps ((custody H).next s (.made h w.made)) := by
  have hunborn : s w.made = .unborn := hk.fresh _ (Nat.le_refl _)
  refine ⟨⟨hunborn, hk.not_held hh⟩, ?_⟩
  exact (hk.makeOther hn).learn hh (Function.update_self ..) fun x hx => by
    rw [hunborn] at hx
    cases hx

omit [DecidableEq N] in
theorem pass (hk : w.Keeps s) (hn : w.name h = some n) (hh : w.name h' = none) :
    (custody H).permits s (.passed h h' (w.target h)) ∧
      (w.pass h h' n).Keeps ((custody H).next s (.passed h h' (w.target h))) := by
  obtain ⟨d, ht, hd, hs⟩ := hk.target_eq hn
  have hne : h' ≠ h := by
    rintro rfl
    rw [hn] at hh
    cases hh
  rw [ht]
  refine ⟨⟨⟨d, rfl, hs⟩, hk.not_held hh⟩, ?_⟩
  have hlost := (hk.forget hs).learn (h := h') (n := n)
    ((Function.update_of_ne hne ..).trans hh) hd (by simp)
  rwa [Function.update_idem] at hlost

omit [DecidableEq N] [DecidableEq H] in
theorem use (hk : w.Keeps s) (hn : w.name h = some n) :
    (custody H).permits s (.used h (w.target h)) := by
  obtain ⟨d, ht, -, hs⟩ := hk.target_eq hn
  exact ⟨d, ht, hs⟩

theorem release (hk : w.Keeps s) (hn : w.name h = some n) :
    (custody H).permits s (.released h (w.target h)) ∧
      (w.release h n).Keeps ((custody H).next s (.released h (w.target h))) := by
  obtain ⟨d, ht, hd, hs⟩ := hk.target_eq hn
  rw [ht]
  refine ⟨⟨d, rfl, hs⟩, ?_⟩
  have hfree := (hk.forget hs).free (n := n) (fun x hx => ?_) hd (Or.inr rfl)
  · rwa [Function.update_idem] at hfree
  by_cases hxh : x = h
  · subst hxh
    simp [tell] at hx
  · simp only [tell, Function.update_of_ne hxh] at hx
    exact hxh (hk.name_inj hx hn)

omit [DecidableEq N] in
theorem lose (hk : w.Keeps s) (hn : w.name h = some n) :
    (custody H).permits s (.lost h (w.target h)) ∧
      (w.tell h none).Keeps ((custody H).next s (.lost h (w.target h))) := by
  obtain ⟨d, ht, -, hs⟩ := hk.target_eq hn
  rw [ht]
  exact ⟨⟨d, rfl, hs⟩, hk.forget hs⟩

omit [DecidableEq H] in
/-- A resource that is none of the parties' business is released. -/
theorem freeOther (hk : w.Keeps s) (hd : w.table n = some d) (hs : s d = .unborn) :
    (w.free n).Keeps s := by
  have hfree := hk.free (n := n) (fun x hx => ?_) hd (Or.inl rfl)
  · rwa [Function.update_eq_self_iff.mpr hs.symm] at hfree
  obtain ⟨d', hd', hs'⟩ := hk.holds x n hx
  rw [← Option.some.inj (hd.symm.trans hd'), hs] at hs'
  cases hs'

omit [DecidableEq N] [DecidableEq H] in
/-- A name denotes what was made and not released. -/
theorem denotes_iff {tr : List (CustodyEvent H)} (hk : w.Keeps s) (hacc : Accounted tr s)
    (hd : d ∈ madeIn tr) : (∃ n, w.table n = some d) ↔ d ∉ releasedIn tr := by
  rw [hacc.released]
  have hmade := (hacc.made d).mp hd
  refine ⟨fun ⟨n, hn⟩ => hk.gone n d hn, fun hrel => ?_⟩
  cases hs : s d with
  | unborn => exact absurd hs hmade
  | held x =>
    obtain ⟨n, -, hn⟩ := hk.held d x hs
    exact ⟨n, hn⟩
  | released => exact absurd hs hrel
  | lost => exact hk.lost d hs

omit [DecidableEq N] [DecidableEq H] in
/-- One party alone knows the name of what was made and neither released nor lost. -/
theorem existsUnique_holder {tr : List (CustodyEvent H)} (hk : w.Keeps s) (hacc : Accounted tr s)
    (hd : d ∈ madeIn tr) (hrel : d ∉ releasedIn tr) (hlost : d ∉ lostIn tr) :
    ∃! h, w.target h = some d := by
  rw [hacc.made] at hd
  rw [hacc.released] at hrel
  rw [hacc.lost] at hlost
  cases hs : s d with
  | unborn => exact absurd hs hd
  | released => exact absurd hs hrel
  | lost => exact absurd hs hlost
  | held x =>
    obtain ⟨n, hn, ht⟩ := hk.held d x hs
    refine ⟨x, by simp [target, hn, ht], fun y hy => ?_⟩
    obtain ⟨n', hn', ht'⟩ := Option.bind_eq_some_iff.mp hy
    obtain rfl := hk.unique n n' d ht ht'
    exact hk.name_inj hn' hn

end Keeps

end Names

end MojitoSys.Util
