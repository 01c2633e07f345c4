import Mathlib.Data.List.Nodup
import Mathlib.Logic.Function.Basic

/-!
# Owned descriptors

`OwnedFd` of `io/handle.mojo`: a descriptor number with a flag that says whether the value is
disposed. `dispose` and the destructor call `close(2)`, `detach` gives the descriptor back to the
caller, and a move takes the value to another place.

The values live in one process. A number of the descriptor table denotes a descriptor, and once it
is released an open elsewhere in the process may return it again for a different one. By the rule
of `mojito_sys.h` every return of `close(2)` has released the descriptor, whatever the status says;
`dispose` keeps the number if the status is not `0`, so that the caller may retry.

## Main definitions

* `OwnedFd`, `OwnedFd.dispose`, `OwnedFd.detach`: the wrapper.
* `Process`, `FdStep`, `FdRun`: any number of wrappers and the rest of the process.
* `ExactlyOnce`: the calls of `close(2)` release each owned descriptor once and nothing else.
* `failed`, `NoRetry`: no value is disposed of after its `close(2)` returned an error.

## Main results

* `FdRun.tracked`: what a value holds, in every run.
* `FdRun.apart`: without retries, a value holds the descriptor that its number denotes.
* `exactly_once_iff`: the closes of a run are exactly-once if and only if the run has no retry.
-/

namespace MojitoSys.Io

/-- `NO_FD`. -/
def NO_FD : Int32 := -1

/-- `struct OwnedFd`. -/
structure OwnedFd where
  fd : Int32
  disposed : Bool
  deriving DecidableEq, Repr

/-- What a call of `dispose` did. -/
structure Disposal where
  value : OwnedFd
  status : Int32
  /-- The number that was passed to `close(2)`. -/
  closed : Option Int32
  deriving DecidableEq, Repr

namespace OwnedFd

/-- `OwnedFd(fd)`. -/
def wrap (fd : Int32) : OwnedFd := ⟨fd, false⟩

/-- `OwnedFd()`. -/
def null : OwnedFd := ⟨NO_FD, true⟩

/-- `dispose`, where `rc` is what `close(2)` returns if it is called. -/
def dispose (self : OwnedFd) (rc : Int32) : Disposal :=
  if self.disposed then ⟨self, 0, none⟩
  else if rc = 0 then ⟨⟨NO_FD, true⟩, rc, some self.fd⟩
  else ⟨self, rc, some self.fd⟩

/-- `detach`: the value afterwards, and the number that the caller gets. -/
def detach (self : OwnedFd) : OwnedFd × Int32 := (⟨NO_FD, true⟩, self.fd)

variable {self : OwnedFd}

theorem dispose_of_disposed (rc : Int32) (h : self.disposed = true) :
    self.dispose rc = ⟨self, 0, none⟩ :=
  if_pos h

/-- A value that is not disposed passes its number to `close(2)`, and is disposed afterwards only
if the status is `0`. -/
theorem dispose_of_live (rc : Int32) (h : self.disposed = false) :
    (self.dispose rc).closed = some self.fd ∧
      ((self.dispose rc).value.disposed = true ↔ rc = 0) := by
  unfold dispose
  rw [if_neg (by simp [h])]
  split_ifs with hrc
  · simp [hrc]
  · simp [hrc, h]

end OwnedFd

/-! ### The process -/

/-- A call of `close(2)` by a value. -/
structure CloseCall where
  fd : Int32
  /-- The descriptor that the number denoted. -/
  target : Option ℕ
  /-- The descriptor that the value owned. -/
  owned : Option ℕ
  deriving DecidableEq, Repr

/-- The places `ι` of the values, and the descriptor table. A descriptor is the open that made
it. -/
structure Process (ι : Type*) where
  table : Int32 → Option ℕ
  /-- How many opens there were. -/
  opened : ℕ
  value : ι → Option OwnedFd
  /-- The descriptor that a value owns by the rule of the ABI. -/
  owned : ι → Option ℕ
  /-- The calls of `close(2)`, the newest first. -/
  closed : List CloseCall

/-- What happens in the process. Where `dispose` and the destructor call `close(2)`, the event has
what it returned. -/
inductive FdEvent (ι : Type*)
  | openFd (n : Int32)
  | closeFd (n : Int32)
  | null (i : ι)
  | wrap (i : ι) (n : Int32)
  | dispose (i : ι) (rc : Option Int32)
  | detach (i : ι)
  | move (i j : ι)
  | destroy (i : ι) (rc : Option Int32)

section Process

variable {ι : Type*} [DecidableEq ι]

/-- No value and no descriptor. -/
def Process.start : Process ι := ⟨fun _ => none, 0, fun _ => none, fun _ => none, []⟩

/-- The value at `i`, and what it owns. -/
def Process.set (p : Process ι) (i : ι) (v : Option OwnedFd) (d : Option ℕ) : Process ι :=
  { p with value := Function.update p.value i v, owned := Function.update p.owned i d }

/-- The value at `i` passes `fd` to `close(2)`: the number is free, and whatever the status, the
value owns nothing. -/
def Process.close (p : Process ι) (i : ι) (fd : Int32) : Process ι :=
  { p with
    table := Function.update p.table fd none
    owned := Function.update p.owned i none
    closed := ⟨fd, p.table fd, p.owned i⟩ :: p.closed }

/-- The value at `i` is disposed of, and `v` is left there. -/
def Process.release (p : Process ι) (i : ι) (v : Option OwnedFd) : Option Int32 → Process ι
  | none => p.set i v (p.owned i)
  | some fd => (p.close i fd).set i v none

/-- `close(2)` on a number that is not open returns an error. -/
def Returns (table : Int32 → Option ℕ) (rc : Int32) (fd : Int32) : Prop := table fd = none → rc ≠ 0

/-- The steps. Opens and closes elsewhere return any free number, and close what no value owns. -/
inductive FdStep (p : Process ι) : FdEvent ι → Process ι → Prop
  | openFd {n : Int32} (hn : 0 ≤ n) (hfree : p.table n = none) :
      FdStep p (.openFd n) { p with
        table := Function.update p.table n (some p.opened)
        opened := p.opened + 1 }
  | closeFd {n : Int32} {d : ℕ} (hn : p.table n = some d) (hd : ∀ i, p.owned i ≠ some d) :
      FdStep p (.closeFd n) { p with table := Function.update p.table n none }
  | null {i : ι} (hi : p.value i = none) : FdStep p (.null i) (p.set i (some .null) none)
  /-- The caller owns the descriptor, and gives it to the value. -/
  | wrap {i : ι} {n : Int32} {d : ℕ} (hi : p.value i = none) (hn : p.table n = some d)
      (hd : ∀ j, p.owned j ≠ some d) : FdStep p (.wrap i n) (p.set i (some (.wrap n)) (some d))
  | dispose {i : ι} {self : OwnedFd} {rc : Int32} (hi : p.value i = some self)
      (hrc : ∀ fd ∈ (self.dispose rc).closed, Returns p.table rc fd) :
      FdStep p (.dispose i ((self.dispose rc).closed.map fun _ => rc))
        (p.release i (some (self.dispose rc).value) (self.dispose rc).closed)
  | detach {i : ι} {self : OwnedFd} (hi : p.value i = some self) :
      FdStep p (.detach i) (p.set i (some self.detach.1) none)
  /-- The destructor of the source does not run. -/
  | move {i j : ι} {self : OwnedFd} (hi : p.value i = some self) (hj : p.value j = none) :
      FdStep p (.move i j) ((p.set i none none).set j (some self) (p.owned i))
  | destroy {i : ι} {self : OwnedFd} {rc : Int32} (hi : p.value i = some self)
      (hrc : ∀ fd ∈ (self.dispose rc).closed, Returns p.table rc fd) :
      FdStep p (.destroy i ((self.dispose rc).closed.map fun _ => rc))
        (p.release i none (self.dispose rc).closed)

/-- The runs of a process, with their events, the newest first. -/
inductive FdRun : List (FdEvent ι) → Process ι → Prop
  | start : FdRun [] .start
  | step {tr : List (FdEvent ι)} {p p' : Process ι} {e : FdEvent ι} (hr : FdRun tr p)
      (hs : FdStep p e p') : FdRun (e :: tr) p'

/-- Every call of `close(2)` releases the descriptor that the value owns, and no descriptor is
released twice. -/
structure ExactlyOnce (log : List CloseCall) : Prop where
  owned : ∀ c ∈ log, ∃ d, c.owned = some d ∧ c.target = some d
  once : (log.filterMap CloseCall.target).Nodup

/-- The last `close(2)` of the value at `i` returned an error, and the value is still there and
was not detached. -/
def failed : List (FdEvent ι) → ι → Bool
  | [] => fun _ => false
  | .openFd _ :: tr => failed tr
  | .closeFd _ :: tr => failed tr
  | .null i :: tr => Function.update (failed tr) i false
  | .wrap i _ :: tr => Function.update (failed tr) i false
  | .dispose i rc :: tr => Function.update (failed tr) i (rc.any (· ≠ 0))
  | .detach i :: tr => Function.update (failed tr) i false
  | .move i j :: tr => Function.update (Function.update (failed tr) i false) j (failed tr i)
  | .destroy i _ :: tr => Function.update (failed tr) i false

/-- The value that the event disposes of. -/
def FdEvent.disposes : FdEvent ι → Option ι
  | .dispose i _ => some i
  | .destroy i _ => some i
  | _ => none

/-- No value is disposed of or destroyed after its `close(2)` returned an error, unless it was
detached before. -/
def NoRetry : List (FdEvent ι) → Prop
  | [] => True
  | e :: tr => NoRetry tr ∧ ∀ i ∈ e.disposes, failed tr i = false

variable {p p' : Process ι} {e : FdEvent ι} {tr : List (FdEvent ι)} {i j : ι}

/-! ### What a value holds -/

/-- The value at `i` and what it owns; the flag says whether its last `close(2)` failed. -/
inductive Tracked (p : Process ι) (i : ι) : Bool → Prop
  | absent (hv : p.value i = none) (ho : p.owned i = none) : Tracked p i false
  | inert {self : OwnedFd} (hv : p.value i = some self) (hd : self.disposed = true)
      (ho : p.owned i = none) : Tracked p i false
  | holds {self : OwnedFd} {d : ℕ} (hv : p.value i = some self) (hd : self.disposed = false)
      (ho : p.owned i = some d) : Tracked p i false
  /-- The number stays, and the descriptor is released. -/
  | retry {self : OwnedFd} (hv : p.value i = some self) (hd : self.disposed = false)
      (ho : p.owned i = none) : Tracked p i true

omit [DecidableEq ι] in
theorem Tracked.congr {q : Process ι} {b c : Bool} (h : Tracked p i b)
    (hv : q.value j = p.value i) (ho : q.owned j = p.owned i) (hb : c = b) : Tracked q j c := by
  subst hb
  cases h with
  | absent hv' ho' => exact .absent (hv.trans hv') (ho.trans ho')
  | inert hv' hd ho' => exact .inert (hv.trans hv') hd (ho.trans ho')
  | holds hv' hd ho' => exact .holds (hv.trans hv') hd (ho.trans ho')
  | retry hv' hd ho' => exact .retry (hv.trans hv') hd (ho.trans ho')

omit [DecidableEq ι] in
/-- A disposed value owns nothing. -/
theorem Tracked.owned_of_disposed {self : OwnedFd} {b : Bool} (h : Tracked p i b)
    (hv : p.value i = some self) (hd : self.disposed = true) : p.owned i = none := by
  cases h with
  | absent _ ho => exact ho
  | inert _ _ ho => exact ho
  | holds hv' hd' =>
    obtain rfl : self = _ := Option.some.inj (hv.symm.trans hv')
    rw [hd] at hd'
    cases hd'
  | retry _ _ ho => exact ho

/-- A step that sets one value, and the flag with it. -/
theorem Tracked.set {q : Process ι} {f : ι → Bool} {v : Option OwnedFd} {d : Option ℕ} {b : Bool}
    (h : ∀ j, Tracked p j (f j)) (hv : q.value = Function.update p.value i v)
    (ho : q.owned = Function.update p.owned i d) (hi : q.value i = v → q.owned i = d →
      Tracked q i b) (j : ι) : Tracked q j (Function.update f i b j) := by
  by_cases hj : j = i
  · subst hj
    rw [Function.update_self]
    exact hi (by rw [hv, Function.update_self]) (by rw [ho, Function.update_self])
  · exact (h j).congr (by rw [hv, Function.update_of_ne hj]) (by rw [ho, Function.update_of_ne hj])
      (Function.update_of_ne hj ..)

theorem Process.release_value (v : Option OwnedFd) (o : Option Int32) :
    (p.release i v o).value = Function.update p.value i v := by
  cases o <;> rfl

theorem Process.release_owned (v : Option OwnedFd) (o : Option Int32) :
    (p.release i v o).owned =
      Function.update p.owned i (if o.isSome then none else p.owned i) := by
  cases o with
  | none => rfl
  | some fd => exact Function.update_idem ..

theorem tracked_step (h : ∀ i, Tracked p i (failed tr i)) (hs : FdStep p e p') (j : ι) :
    Tracked p' j (failed (e :: tr) j) := by
  cases hs with
  | openFd => exact (h j).congr rfl rfl rfl
  | closeFd => exact (h j).congr rfl rfl rfl
  | null => exact Tracked.set h rfl rfl (fun hv ho => .inert hv rfl ho) j
  | wrap => exact Tracked.set h rfl rfl (fun hv ho => .holds hv rfl ho) j
  | detach => exact Tracked.set h rfl rfl (fun hv ho => .inert hv rfl ho) j
  | @dispose i self rc hi =>
    refine Tracked.set h (Process.release_value ..) (Process.release_owned ..) (fun hv ho => ?_) j
    by_cases hd : self.disposed = true
    · rw [OwnedFd.dispose_of_disposed rc hd] at hv ho ⊢
      exact .inert hv hd (ho.trans ((h i).owned_of_disposed hi hd))
    · obtain ⟨hc, hrc⟩ := OwnedFd.dispose_of_live rc (Bool.not_eq_true _ ▸ hd)
      rw [hc] at hv ho ⊢
      by_cases hz : rc = 0
      · simp only [Option.map_some, Option.any_some, hz, ne_eq, not_true_eq_false, decide_false]
        exact .inert (hz ▸ hv) (hz ▸ hrc.mpr hz) ho
      · simp only [Option.map_some, Option.any_some, ne_eq, hz, not_false_eq_true, decide_true]
        exact .retry hv (by simpa [hz] using hrc) ho
  | @destroy i self rc hi =>
    refine Tracked.set h (Process.release_value ..) (Process.release_owned ..) (fun hv ho => ?_) j
    refine .absent hv (ho.trans ?_)
    by_cases hd : self.disposed = true
    · rw [OwnedFd.dispose_of_disposed rc hd]
      exact (h i).owned_of_disposed hi hd
    · rw [(OwnedFd.dispose_of_live rc (Bool.not_eq_true _ ▸ hd)).1]
      rfl
  | @move i k self hi hk =>
    have hclear := Tracked.set (q := p.set i none none) h rfl rfl fun hv ho => .absent hv ho
    exact Tracked.set hclear rfl rfl (fun hv ho => (h i).congr (hv.trans hi.symm) ho rfl) j

/-- The values, in every run. -/
theorem FdRun.tracked (hr : FdRun tr p) (i : ι) : Tracked p i (failed tr i) := by
  induction hr generalizing i with
  | start => exact .absent rfl rfl
  | step _ hs ih => exact tracked_step ih hs i

/-! ### Runs without a retry -/

/-- A value holds the descriptor that its number denotes, and nobody else does. -/
structure Apart (p : Process ι) : Prop where
  fresh : ∀ n d, p.table n = some d → d < p.opened
  unique : ∀ n m d, p.table n = some d → p.table m = some d → n = m
  denotes : ∀ i self d, p.value i = some self → p.owned i = some d → p.table self.fd = some d
  exclusive : ∀ i j d, p.owned i = some d → p.owned j = some d → i = j
  closes : ExactlyOnce p.closed
  released : ∀ d ∈ p.closed.filterMap CloseCall.target, d < p.opened ∧ ∀ n, p.table n ≠ some d

omit [DecidableEq ι] in
/-- A step that frees a number, and takes the descriptor from its owner. -/
theorem Apart.free {q : Process ι} {n : Int32} (h : Apart p)
    (ht : q.table = Function.update p.table n none) (hopened : q.opened = p.opened)
    (hd : ∀ i self d, q.value i = some self → q.owned i = some d →
      p.value i = some self ∧ p.owned i = some d ∧ p.table n ≠ some d)
    (hc : ExactlyOnce q.closed) (hr : ∀ d ∈ q.closed.filterMap CloseCall.target,
      d ∈ p.closed.filterMap CloseCall.target ∨ p.table n = some d)
    (hvalue : ∀ i d, q.owned i = some d → p.owned i = some d) : Apart q := by
  have htable (m : Int32) (d : ℕ) (hm : q.table m = some d) : m ≠ n ∧ p.table m = some d := by
    rw [ht] at hm
    by_cases hmn : m = n
    · rw [hmn, Function.update_self] at hm
      cases hm
    · exact ⟨hmn, by rwa [Function.update_of_ne hmn] at hm⟩
  refine ⟨fun m d hm => ?_, fun m m' d hm hm' => ?_, fun i self d hv ho => ?_,
    fun i j d hi hj => h.exclusive i j d (hvalue i d hi) (hvalue j d hj), hc, fun d hdc => ?_⟩
  · rw [hopened]
    exact h.fresh m d (htable m d hm).2
  · exact h.unique m m' d (htable m d hm).2 (htable m' d hm').2
  · obtain ⟨hv', ho', hne⟩ := hd i self d hv ho
    have hden := h.denotes i self d hv' ho'
    rw [ht, Function.update_of_ne, hden]
    rintro rfl
    exact hne hden
  · rw [hopened]
    rcases hr d hdc with hold | hn
    · exact ⟨(h.released d hold).1, fun m hm => (h.released d hold).2 m (htable m d hm).2⟩
    · exact ⟨h.fresh n d hn, fun m hm =>
        (htable m d hm).1 (h.unique m n d (htable m d hm).2 hn)⟩

/-- A step that sets one value, which then owns what its number denotes. -/
theorem Apart.set {v : Option OwnedFd} {o : Option ℕ} (h : Apart p)
    (hv : ∀ self d, v = some self → o = some d → p.table self.fd = some d)
    (ho : ∀ d, o = some d → ∀ j, j ≠ i → p.owned j ≠ some d) : Apart (p.set i v o) := by
  refine ⟨h.fresh, h.unique, fun j self d hj hd => ?_, fun j k d hj hk => ?_, h.closes, h.released⟩
  · by_cases hji : j = i
    · subst hji
      simp only [Process.set, Function.update_self] at hj hd
      exact hv self d hj hd
    · simp only [Process.set, Function.update_of_ne hji] at hj hd
      exact h.denotes j self d hj hd
  · simp only [Process.set, Function.update_apply] at hj hk
    split_ifs at hj hk with hji hki hki
    · exact hji.trans hki.symm
    · exact absurd hk (ho d hj k hki)
    · exact absurd hj (ho d hk j hji)
    · exact h.exclusive j k d hj hk

/-- A value that is disposed of or destroyed, and whose last `close(2)` did not fail. -/
theorem Apart.release {self : OwnedFd} {v : Option OwnedFd} {rc : Int32} (h : Apart p)
    (ht : Tracked p i false) (hi : p.value i = some self) :
    Apart (p.release i v (self.dispose rc).closed) := by
  by_cases hd : self.disposed = true
  · have ho := ht.owned_of_disposed hi hd
    rw [OwnedFd.dispose_of_disposed rc hd]
    exact h.set (by simp [ho]) (by simp [ho])
  · rw [(OwnedFd.dispose_of_live rc (Bool.not_eq_true _ ▸ hd)).1]
    obtain ⟨d, ho⟩ : ∃ d, p.owned i = some d := by
      cases ht with
      | absent hv => rw [hi] at hv; cases hv
      | inert hv hd' => rw [hi] at hv; cases hv; exact absurd hd' hd
      | holds _ _ ho => exact ⟨_, ho⟩
    have hden := h.denotes i self d hi ho
    have hne (j : ι) (d' : ℕ) (hj : Function.update p.owned i none j = some d') :
        j ≠ i ∧ p.owned j = some d' := by
      by_cases hji : j = i
      · rw [hji, Function.update_self] at hj
        cases hj
      · exact ⟨hji, by rwa [Function.update_of_ne hji] at hj⟩
    have hclose : Apart (p.close i self.fd) := by
      refine h.free (n := self.fd) rfl rfl (fun j self' d' hv ho' => ?_) ?_ (fun d' hd' => ?_)
        fun j d' hj => (hne j d' hj).2
      · refine ⟨hv, (hne j d' ho').2, fun htab => (hne j d' ho').1 ?_⟩
        rw [hden] at htab
        exact h.exclusive j i d' (hne j d' ho').2 (ho.trans htab)
      · refine ⟨fun c hc => ?_, ?_⟩
        · rcases List.mem_cons.mp hc with rfl | hc
          · exact ⟨d, ho, hden⟩
          · exact h.closes.owned c hc
        · simp only [Process.close, List.filterMap_cons, hden]
          exact List.nodup_cons.mpr ⟨fun hd' => (h.released d hd').2 self.fd hden, h.closes.once⟩
      · simp only [Process.close, List.filterMap_cons, hden] at hd'
        rcases List.mem_cons.mp hd' with rfl | hd'
        · exact Or.inr hden
        · exact Or.inl hd'
    exact hclose.set (by simp) (by simp)

theorem apart_step (h : Apart p) (ht : ∀ i, Tracked p i (failed tr i))
    (hretry : ∀ i ∈ e.disposes, failed tr i = false) (hs : FdStep p e p') : Apart p' := by
  cases hs with
  | @openFd n hn hfree =>
    have htable (m : Int32) (d : ℕ) (hm : Function.update p.table n (some p.opened) m = some d) :
        m = n ∧ d = p.opened ∨ p.table m = some d := by
      by_cases hmn : m = n
      · rw [hmn, Function.update_self] at hm
        exact Or.inl ⟨hmn, (Option.some.inj hm).symm⟩
      · rw [Function.update_of_ne hmn] at hm
        exact Or.inr hm
    refine ⟨fun m d hm => ?_, fun m m' d hm hm' => ?_, fun i self d hv ho => ?_, h.exclusive,
      h.closes, fun d hd => ⟨Nat.lt_succ_of_lt (h.released d hd).1, fun m hm => ?_⟩⟩
    · rcases htable m d hm with ⟨-, rfl⟩ | hm
      · exact Nat.lt_succ_self _
      · exact Nat.lt_succ_of_lt (h.fresh m d hm)
    · rcases htable m d hm with ⟨hmn, hd⟩ | hm₁ <;> rcases htable m' d hm' with ⟨hmn', hd'⟩ | hm₂
      · exact hmn.trans hmn'.symm
      · exact absurd (h.fresh m' d hm₂) (hd ▸ Nat.lt_irrefl _)
      · exact absurd (h.fresh m d hm₁) (hd' ▸ Nat.lt_irrefl _)
      · exact h.unique m m' d hm₁ hm₂
    · have hden := h.denotes i self d hv ho
      have hne : self.fd ≠ n := by
        rintro rfl
        rw [hfree] at hden
        cases hden
      exact (Function.update_of_ne hne ..).trans hden
    · rcases htable m d hm with ⟨-, rfl⟩ | hm
      · exact Nat.lt_irrefl _ (h.released _ hd).1
      · exact (h.released d hd).2 m hm
  | @closeFd n d hn hd =>
    refine h.free (n := n) rfl rfl (fun i self d' hv ho => ⟨hv, ho, fun hn' => ?_⟩) h.closes
      (fun d' hd' => Or.inl hd') fun i d' hi => hi
    rw [hn] at hn'
    exact hd i (ho.trans hn'.symm)
  | null => exact h.set (by simp) (by simp)
  | @wrap i n d hi hn hd =>
    refine h.set (fun self d' hself hd' => ?_) fun d' hd' j _ => ?_
    · rw [← Option.some.inj hself, ← hd']
      exact hn
    · rw [← hd']
      exact hd j
  | detach => exact h.set (by simp) (by simp)
  | @dispose i self rc hi => exact h.release (hretry i rfl ▸ ht i) hi
  | @destroy i self rc hi => exact h.release (hretry i rfl ▸ ht i) hi
  | @move i k self hi hk =>
    refine (h.set (i := i) (v := none) (o := none) (by simp) (by simp)).set
      (fun self' d hself hd => ?_) fun d hd j _ hj => ?_
    · rw [← Option.some.inj hself]
      exact h.denotes i self d hi hd
    · by_cases hji : j = i
      · subst hji
        simp [Process.set] at hj
      · simp only [Process.set, Function.update_of_ne hji] at hj
        exact hji (h.exclusive j i d hj hd)

/-- Without a retry, values and descriptors are apart. -/
theorem FdRun.apart (hr : FdRun tr p) (h : NoRetry tr) : Apart p := by
  induction hr with
  | start =>
    refine ⟨?_, ?_, ?_, ?_, ⟨?_, ?_⟩, ?_⟩ <;> simp [Process.start]
  | step hr hs ih => exact apart_step (ih h.1) hr.tracked h.2 hs

/-! ### A retry -/

/-- The log of a run keeps its calls. -/
theorem FdStep.closed_suffix (hs : FdStep p e p') : p.closed <:+ p'.closed := by
  cases hs with
  | @dispose i self rc hi =>
    cases (self.dispose rc).closed with
    | none => exact List.suffix_rfl
    | some fd => exact List.suffix_cons ..
  | @destroy i self rc hi =>
    cases (self.dispose rc).closed with
    | none => exact List.suffix_rfl
    | some fd => exact List.suffix_cons ..
  | _ => exact List.suffix_rfl

/-- A value whose last `close(2)` failed passes its number to `close(2)` again, and owns nothing
there. -/
theorem release_of_failed {self : OwnedFd} {v : Option OwnedFd} {rc : Int32}
    (ht : Tracked p i true) (hi : p.value i = some self) :
    ∃ c ∈ (p.release i v (self.dispose rc).closed).closed, c.owned = none := by
  cases ht with
  | @retry self' hv hd ho =>
    obtain rfl : self = self' := Option.some.inj (hi.symm.trans hv)
    rw [(OwnedFd.dispose_of_live rc hd).1]
    exact ⟨_, List.mem_cons_self, ho⟩

theorem FdStep.unowned_of_retry (hs : FdStep p e p') (ht : ∀ i, Tracked p i (failed tr i))
    (hi : i ∈ e.disposes) (hf : failed tr i = true) : ∃ c ∈ p'.closed, c.owned = none := by
  cases hs with
  | dispose hv =>
    cases hi
    exact release_of_failed (hf ▸ ht i) hv
  | destroy hv =>
    cases hi
    exact release_of_failed (hf ▸ ht i) hv
  | _ => cases hi

theorem FdRun.unowned (hr : FdRun tr p) (h : ¬ NoRetry tr) : ∃ c ∈ p.closed, c.owned = none := by
  induction hr with
  | start => exact absurd trivial h
  | @step tr p p' e hr hs ih =>
    by_cases hold : NoRetry tr
    · have hnot : ¬ ∀ i ∈ e.disposes, failed tr i = false := fun hnew => h ⟨hold, hnew⟩
      push Not at hnot
      obtain ⟨i, hi, hf⟩ := hnot
      exact hs.unowned_of_retry hr.tracked hi (by simpa using hf)
    · obtain ⟨c, hc, ho⟩ := ih hold
      exact ⟨c, hs.closed_suffix.subset hc, ho⟩

/-- In every run, each value passes the descriptors that it owns to `close(2)` at most once and no
number that it does not own, if and only if the run has no retry. -/
theorem exactly_once_iff (hr : FdRun tr p) : ExactlyOnce p.closed ↔ NoRetry tr := by
  constructor
  · intro h
    by_contra hretry
    obtain ⟨c, hc, ho⟩ := hr.unowned hretry
    obtain ⟨d, hd, -⟩ := h.owned c hc
    rw [ho] at hd
    cases hd
  · exact fun h => (hr.apart h).closes

end Process

/-! ### A number that comes back -/

/-- The `close(2)` of a `dispose` fails, an open elsewhere returns the number, and the value is
detached before it is destroyed. -/
theorem exactly_once_iff_detached : ∃ (tr : List (FdEvent Unit)) (p : Process Unit), FdRun tr p ∧
    .dispose () (some (-1)) ∈ tr ∧ p.closed = [⟨3, some 0, some 0⟩] ∧ p.table 3 = some 1 ∧
      ExactlyOnce p.closed := by
  have h := FdRun.start (ι := Unit)
  have h := h.step (.openFd (n := 3) (by decide) rfl)
  have h := h.step (.wrap (i := ()) (n := 3) rfl rfl (by simp [Process.start]))
  have h := h.step (@FdStep.dispose _ _ _ () _ (-1) rfl (by simp [Returns]))
  have h := h.step (.openFd (n := 3) (by decide) rfl)
  have h := h.step (.detach (i := ()) rfl)
  have h := h.step (@FdStep.destroy _ _ _ () _ 0 rfl (by simp [OwnedFd.dispose, OwnedFd.detach]))
  refine ⟨_, _, h, ?_, rfl, rfl, (exactly_once_iff h).mpr ?_⟩
  · simp [OwnedFd.dispose, OwnedFd.wrap]
  · simp [NoRetry, failed, FdEvent.disposes]

/-- The `close(2)` of a `dispose` fails, an open elsewhere returns the number, and the destructor
closes the descriptor of that open. -/
theorem exactly_once_reused : ¬ ∀ (tr : List (FdEvent Unit)) (p : Process Unit), FdRun tr p →
    ExactlyOnce p.closed := by
  intro hall
  have h := FdRun.start (ι := Unit)
  have h := h.step (.openFd (n := 3) (by decide) rfl)
  have h := h.step (.wrap (i := ()) (n := 3) rfl rfl (by simp [Process.start]))
  have h := h.step (@FdStep.dispose _ _ _ () _ (-1) rfl (by simp [Returns]))
  have h := h.step (.openFd (n := 3) (by decide) rfl)
  have h := h.step (@FdStep.destroy _ _ _ () _ 0 rfl (by
    intro fd hfd hclosed
    cases hfd
    cases hclosed))
  obtain ⟨d, hd, -⟩ := (hall _ _ h).owned ⟨3, some 1, none⟩ List.mem_cons_self
  cases hd

end MojitoSys.Io
