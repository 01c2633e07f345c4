import MojitoSys.Sync.Semaphore
import MojitoSys.Sync.Event

/-!
# Destroying a token monitor

`mjs_sem_destroy` and `mjs_event_destroy` first destroy the condition variable, which sets the
pointer to it to `NULL`, and then the mutex. If the second stage fails, the handle is kept without
its condition variable: a release still stores its token but returns `EINVAL`, a wait that would
park returns `EINVAL`, and so does every further attempt to destroy the object.

## Main definitions

* `destroyHandle`, `tokenDestroy`, `mjsSemDestroy`, `mjsEventDestroy`.
* `TokenKind.objectCode`, `TokenKind.objectProgram`: the calls on an object that may have lost its
  condition variable.
* `LifeStep`, `LifeRun`: the calls and the destroys in any order.
* `Usable`: what a failed destroy should leave.

## Main results

* `LifeRun.whole`: an object with its condition variable is a token monitor.
* `LifeRun.lost`: what an object without its condition variable does.
* `failed_destroy_iff`: when a failed destroy leaves the object usable.
-/

namespace MojitoSys.Sync

open Util.Monitor

/-! ### The teardown -/

/-- The answers of `pthread_cond_destroy` and `pthread_mutex_destroy`. -/
structure DestroyAnswers where
  cond : Status
  mutex : Status

/-- The destroy of an inner handle, where the call of the platform answers `rc`. -/
def destroyHandle (rc : Status) : Option ℕ → Status × Option ℕ
  | none => (some .EINVAL, none)
  | some p => if rc ≠ none then (rc, some p) else (none, none)

/-- `mjs_condvar_destroy`. -/
def mjsCondvarDestroy (rc : Status) (c : Option ℕ) : Status × Option ℕ := destroyHandle rc c

/-- `mjs_mutex_destroy`. -/
def mjsMutexDestroy (rc : Status) (m : Option ℕ) : Status × Option ℕ := destroyHandle rc m

/-- `mjs_sem` or `mjs_event`: the pointers to the inner handles, and the monitor. -/
structure TokenObj (P : Type*) where
  m : Option ℕ
  cv : Option ℕ
  mon : State P Label CInt

section Destroy

variable {P : Type*}

/-- The destroy of a handle, which is `none` when it is `NULL`. -/
def tokenDestroy (a : DestroyAnswers) : Option (TokenObj P) → Status × Option (TokenObj P)
  | none => (some .EINVAL, none)
  | some o =>
    match mjsCondvarDestroy a.cond o.cv with
    | (some err, cv) => (some err, some { o with cv := cv })
    | (none, cv) =>
      match mjsMutexDestroy a.mutex o.m with
      | (some err, m) => (some err, some { o with m := m, cv := cv })
      | (none, _) => (none, none)

/-- `mjs_sem_destroy`. -/
def mjsSemDestroy (a : DestroyAnswers) (s : Option (TokenObj P)) :
    Status × Option (TokenObj P) := tokenDestroy a s

/-- `mjs_event_destroy`. -/
def mjsEventDestroy (a : DestroyAnswers) (e : Option (TokenObj P)) :
    Status × Option (TokenObj P) := tokenDestroy a e

/-- What a destroy does: it succeeds, it leaves everything as it is, or it loses the condition
variable. -/
theorem tokenDestroy_cases (a : DestroyAnswers) {o : TokenObj P} (hm : o.m ≠ none) :
    (o.cv ≠ none ∧ a.cond = none ∧ a.mutex = none ∧ tokenDestroy a (some o) = (none, none)) ∨
      (o.cv ≠ none ∧ a.cond ≠ none ∧ tokenDestroy a (some o) = (a.cond, some o)) ∨
      (o.cv = none ∧ tokenDestroy a (some o) = (some .EINVAL, some o)) ∨
      (o.cv ≠ none ∧ a.cond = none ∧ a.mutex ≠ none ∧
        tokenDestroy a (some o) = (a.mutex, some { o with cv := none })) := by
  obtain ⟨cond, mutex⟩ := a
  obtain ⟨m, cv, mon⟩ := o
  cases cv with
  | none => exact Or.inr (Or.inr (Or.inl ⟨rfl, rfl⟩))
  | some c =>
    cases m with
    | none => exact absurd rfl hm
    | some p =>
      cases cond with
      | some err => exact Or.inr (Or.inl ⟨by simp, by simp, rfl⟩)
      | none =>
        cases mutex with
        | none => exact Or.inl ⟨by simp, rfl, rfl, rfl⟩
        | some err => exact Or.inr (Or.inr (Or.inr ⟨by simp, rfl, by simp, rfl⟩))

/-- A handle that is live after a destroy is what it was, or has lost its condition variable. -/
theorem mem_tokenDestroy {a : DestroyAnswers} {h : Option (TokenObj P)} {o' : TokenObj P}
    (hm : ∀ o ∈ h, o.m ≠ none) (ho' : o' ∈ (tokenDestroy a h).2) :
    ∃ o ∈ h, o' = o ∨ o' = { o with cv := none } := by
  cases h with
  | none => simp [tokenDestroy] at ho'
  | some o =>
    refine ⟨o, rfl, ?_⟩
    rcases tokenDestroy_cases a (hm o rfl) with ⟨-, -, -, heq⟩ | ⟨-, -, heq⟩ | ⟨-, heq⟩ |
      ⟨-, -, -, heq⟩
    · simp [heq] at ho'
    · rw [heq] at ho'
      exact Or.inl (Option.some.inj ho').symm
    · rw [heq] at ho'
      exact Or.inl (Option.some.inj ho').symm
    · rw [heq] at ho'
      exact Or.inr (Option.some.inj ho').symm

/-- Without the condition variable every destroy fails. -/
theorem tokenDestroy_of_lost (a : DestroyAnswers) {o : TokenObj P} (hcv : o.cv = none) :
    tokenDestroy a (some o) = (some .EINVAL, some o) := by
  obtain ⟨m, cv, mon⟩ := o
  obtain rfl : cv = none := hcv
  rfl

end Destroy

/-! ### The calls -/

namespace TokenKind

/-- The instruction at a label, when the pointer to the condition variable is `cv`. -/
def objectCode (K : TokenKind) (cv : Option ℕ) (l : Label) (d : CInt) :
    Option (Instr CInt Label) :=
  match cv, K.code l d with
  | none, some (.signal _) => some (.act d (.unlock .release (some .EINVAL)))
  | none, some .wait =>
    match l with
    | .waitUntil => some (.act d (.expiry (some .EINVAL)))
    | _ => some (.act d (.woken (some .EINVAL)))
  | _, i => i

variable {P : Type*}

/-- The program of the calls; its environment is the pointer to the condition variable. -/
def objectProgram (K : TokenKind) : Program P (Option ℕ) Label CInt where
  entry := K.program.entry (P := P)
  refuse := K.program.refuse (P := P)
  code _ cv l d i := K.objectCode cv l d = some i
  back := K.program.back

/-- With its condition variable the object runs the program of the token monitor. -/
theorem step_of_present [DecidableEq P] {K : TokenKind} {c : ℕ} {s s' : State P Label CInt}
    {es : List (Exec P Label CInt)} (hs : Step K.objectProgram (some c) s es s') :
    Step K.program () s es s' := by
  cases hs with
  | lock hfree hentry hp => exact .lock hfree hentry hp
  | refuse hown hentry hp hl => exact .refuse hown hentry hp hl
  | act hown hcode => exact .act hown hcode
  | signal hown hcode hcv => exact .signal hown hcode hcv
  | broadcast hown hcode => exact .broadcast hown hcode
  | wait hown hcode => exact .wait hown hcode
  | unlock hown hcode => exact .unlock hown hcode
  | wakeup hp => exact .wakeup hp
  | resume hfree hp hl => exact .resume hfree hp hl

section Lost

variable {K : TokenKind} {d : CInt} {l l' : Label} {i : Instr CInt Label}

/-- Without its condition variable the object neither signals nor parks. -/
theorem objectCode_none (h : K.objectCode none l d = some i) :
    (∀ l', i ≠ .signal l') ∧ i ≠ .wait ∧
      (l = .notify → i = .act d (.unlock .release (some .EINVAL))) := by
  cases hc : K.code l d with
  | none => simp [objectCode, hc] at h
  | some j =>
    cases code_cases hc with
    | notify =>
      obtain rfl : Instr.act d (.unlock .release (some .EINVAL)) = i := by
        simpa [objectCode, hc] using h
      simp
    | park =>
      obtain rfl : Instr.act d (.woken (some .EINVAL)) = i := by simpa [objectCode, hc] using h
      simp
    | parkUntil =>
      obtain rfl : Instr.act d (.expiry (some .EINVAL)) = i := by simpa [objectCode, hc] using h
      simp
    | _ =>
      simp only [objectCode, hc, Option.some.injEq] at h
      simp [← h]

/-- Without its condition variable nobody parks. -/
theorem blocked_of_lost [DecidableEq P] {s s' : State P Label CInt}
    {es : List (Exec P Label CInt)} (hs : Step K.objectProgram none s es s') :
    s'.cv.blocked ⊆ s.cv.blocked := by
  cases hs with
  | lock => exact Finset.Subset.refl _
  | refuse => exact Finset.Subset.refl _
  | act => exact Finset.Subset.refl _
  | signal hown hcode => exact absurd rfl ((objectCode_none hcode).1 _)
  | broadcast => exact Finset.sdiff_subset
  | wait hown hcode => exact absurd rfl (objectCode_none hcode).2.1
  | unlock => exact Finset.Subset.refl _
  | wakeup => exact Finset.sdiff_subset
  | resume => exact Finset.Subset.refl _

/-- Without its condition variable a release that signals fails. -/
theorem notify_of_lost [DecidableEq P] {s s' : State P Label CInt} {es : List (Exec P Label CInt)}
    (hs : Step K.objectProgram none s es s') :
    ∀ x ∈ es, x.label = .notify → x.next = .unlock .release (some .EINVAL) := by
  rcases hs.exec_cases with ⟨rfl, -⟩ | ⟨p, i, -, hcode, -, -, rfl⟩
  · simp
  · intro x hx hl
    obtain rfl := List.mem_singleton.mp hx
    rw [(objectCode_none hcode).2.2 hl]
    rfl

end Lost

end TokenKind

/-! ### The life of an object -/

/-- An instruction of a call, or a destroy with its answers and its status. -/
inductive LifeEvent (P : Type*)
  | exec (x : Exec P Label CInt)
  | destroy (a : DestroyAnswers) (rc : Status)

section Life

variable {P : Type*} [DecidableEq P]

/-- A step of the calls, or a destroy while nobody waits. -/
inductive LifeStep (K : TokenKind) :
    Option (TokenObj P) → List (LifeEvent P) → Option (TokenObj P) → Prop
  | call {o : TokenObj P} {es : List (Exec P Label CInt)} {mon : State P Label CInt}
      (hm : o.m ≠ none) (hs : Step K.objectProgram o.cv o.mon es mon) :
      LifeStep K (some o) (es.map .exec) (some { o with mon := mon })
  | destroy {h : Option (TokenObj P)} (a : DestroyAnswers)
      (hidle : ∀ o ∈ h, ∀ p, ¬ o.mon.cv.Waits p) :
      LifeStep K h [.destroy a (tokenDestroy a h).1] (tokenDestroy a h).2

/-- The runs from a handle, with their events, the newest first. -/
inductive LifeRun (K : TokenKind) (h₀ : Option (TokenObj P)) :
    List (LifeEvent P) → Option (TokenObj P) → Prop
  | refl : LifeRun K h₀ [] h₀
  | step {tr es : List (LifeEvent P)} {h h' : Option (TokenObj P)} (hr : LifeRun K h₀ tr h)
      (hs : LifeStep K h es h') : LifeRun K h₀ (es ++ tr) h'

/-- A fresh object with the integer `k`; `op p` is the call of process `p`. -/
structure LifeStart (K : TokenKind) (k : CInt) (op : P → Op) (o : TokenObj P) : Prop where
  m : o.m ≠ none
  cv : o.cv ≠ none
  mon : K.Start k op o.mon

/-- What a failed destroy should leave: the object with its integer, that behaves as if the destroy
had not been called, and that can be destroyed. -/
structure Usable (K : TokenKind) (o : TokenObj P) (h : Option (TokenObj P)) : Prop where
  live : ∃ o', h = some o' ∧ o'.mon.data = o.mon.data
  later : ∀ tr, (∃ h', LifeRun K h tr h') ↔ ∃ h', LifeRun K (some o) tr h'
  retry : ∃ a, (tokenDestroy a h).1 = none

/-- The instructions in the events. -/
def execs (tr : List (LifeEvent P)) : List (Exec P Label CInt) :=
  tr.filterMap fun
    | .exec x => some x
    | .destroy _ _ => none

variable {K : TokenKind} {k : CInt} {op : P → Op} {o₀ o o' : TokenObj P} {a : DestroyAnswers}
  {tr : List (LifeEvent P)}

/-- A live handle has its mutex. -/
theorem LifeRun.mutex {h : Option (TokenObj P)} (hr : LifeRun K (some o₀) tr h) (h₀ : o₀.m ≠ none) :
    ∀ o ∈ h, o.m ≠ none := by
  induction hr with
  | refl =>
    rintro o ⟨⟩
    exact h₀
  | step _ hs ih =>
    cases hs with
    | call hm hs =>
      rintro o ⟨⟩
      exact hm
    | destroy a hidle =>
      intro o' ho'
      obtain ⟨o, ho, rfl | rfl⟩ := mem_tokenDestroy ih ho'
      · exact ih _ ho
      · exact ih o ho

omit [DecidableEq P] in
theorem execs_append (tr tr' : List (LifeEvent P)) : execs (tr ++ tr') = execs tr ++ execs tr' :=
  List.filterMap_append

omit [DecidableEq P] in
theorem execs_map (es : List (Exec P Label CInt)) : execs (es.map .exec) = es := by
  simp [execs, List.filterMap_map]

/-- An object that still has its condition variable is a token monitor. -/
theorem LifeRun.whole {h : Option (TokenObj P)} (hr : LifeRun K (some o₀) tr h)
    (h₀ : LifeStart K k op o₀) :
    ∀ o ∈ h, o.cv ≠ none → Run K.program (K.Start k op) (execs tr) o.mon := by
  induction hr with
  | refl =>
    rintro o ⟨⟩ -
    exact .start h₀.mon
  | step hr hs ih =>
    cases hs with
    | @call o es mon hm hs =>
      rintro o' ⟨⟩ hcv
      obtain ⟨c, hc⟩ := Option.ne_none_iff_exists'.mp hcv
      have hstep : Step K.program () o.mon es mon := K.step_of_present (hc ▸ hs)
      rw [execs_append, execs_map]
      exact (ih o rfl hcv).step hstep
    | destroy a hidle =>
      intro o' ho' hcv
      obtain ⟨o, ho, rfl | rfl⟩ := mem_tokenDestroy (hr.mutex h₀.m) ho'
      · exact ih _ ho hcv
      · exact absurd rfl hcv

/-- The release that signals fails, and so does a destroy. -/
def LifeEvent.Fails : LifeEvent P → Prop
  | .exec x => x.label = .notify → x.next = .unlock .release (some .EINVAL)
  | .destroy _ rc => rc = some .EINVAL

/-- An object without its condition variable stays so. Its releases fail after they stored their
token, nobody parks, and it cannot be destroyed. -/
theorem LifeRun.lost {h : Option (TokenObj P)} (hr : LifeRun K (some o) tr h) (hcv : o.cv = none) :
    ∃ o', h = some o' ∧ o'.cv = none ∧ o'.mon.cv.blocked ⊆ o.mon.cv.blocked ∧
      ∀ e ∈ tr, e.Fails := by
  induction hr with
  | refl => exact ⟨o, rfl, hcv, Finset.Subset.refl _, by simp⟩
  | step hr hs ih =>
    obtain ⟨o₁, rfl, hcv₁, hblocked, hfails⟩ := ih
    cases hs with
    | call hm hs =>
      rw [hcv₁] at hs
      refine ⟨_, rfl, hcv₁, (K.blocked_of_lost hs).trans hblocked, fun e he => ?_⟩
      rcases List.mem_append.mp he with he | he
      · obtain ⟨x, hx, rfl⟩ := List.mem_map.mp he
        exact K.notify_of_lost hs x hx
      · exact hfails e he
    | destroy a hidle =>
      rw [tokenDestroy_of_lost a hcv₁]
      refine ⟨o₁, rfl, hcv₁, hblocked, fun e he => ?_⟩
      rcases List.mem_cons.mp he with rfl | he
      · exact rfl
      · exact hfails e he

/-- An object without its condition variable cannot be destroyed. -/
theorem not_usable_of_lost (hcv : o'.cv = none) : ¬ Usable K o (some o') := by
  rintro ⟨-, -, a, hdone⟩
  simp [tokenDestroy_of_lost a hcv] at hdone

/-- A destroy that failed leaves the object usable if and only if the object still had its condition
variable and the destroy of the condition variable is the one that failed. -/
theorem failed_destroy_iff (hr : LifeRun K (some o₀) tr (some o)) (h₀ : LifeStart K k op o₀)
    (hfail : (tokenDestroy a (some o)).1 ≠ none) :
    Usable K o (tokenDestroy a (some o)).2 ↔ o.cv ≠ none ∧ a.cond ≠ none := by
  have hm := hr.mutex h₀.m o rfl
  rcases tokenDestroy_cases a hm with ⟨-, -, -, heq⟩ | ⟨hcv, hcond, heq⟩ | ⟨hcv, heq⟩ |
    ⟨hcv, hcond, -, heq⟩
  · simp [heq] at hfail
  · refine iff_of_true ?_ ⟨hcv, hcond⟩
    rw [heq]
    refine ⟨⟨o, rfl, rfl⟩, fun tr => Iff.rfl, ⟨none, none⟩, ?_⟩
    rcases tokenDestroy_cases ⟨none, none⟩ hm with ⟨-, -, -, hdone⟩ | ⟨-, hne, -⟩ | ⟨hlost, -⟩ |
      ⟨-, -, hne, -⟩
    · rw [hdone]
    · exact absurd rfl hne
    · exact absurd hlost hcv
    · exact absurd rfl hne
  · rw [heq]
    exact iff_of_false (not_usable_of_lost hcv) fun hne => hne.1 hcv
  · rw [heq]
    exact iff_of_false (not_usable_of_lost rfl) fun hne => hne.2 hcond

/-- A fresh object without tokens; one process is going to release. -/
def freshObj (K : TokenKind) : TokenObj Unit where
  m := some 1
  cv := some 2
  mon :=
    { data := 0
      owner := none
      cv := .empty
      pc := fun _ => K.start .release }

/-- The release holds the mutex. -/
def heldObj (K : TokenKind) : TokenObj Unit :=
  { freshObj K with mon := { (freshObj K).mon with owner := some () } }

theorem lifeStart_freshObj (K : TokenKind) :
    LifeStart K 0 (fun _ => .release) (freshObj K) :=
  ⟨by simp [freshObj], by simp [freshObj], rfl, rfl, rfl, fun _ => rfl⟩

theorem not_waits_freshObj (K : TokenKind) (p : Unit) : ¬ (freshObj K).mon.cv.Waits p := by
  simp [freshObj, Condvar.Waits, Condvar.empty]

theorem lifeRun_heldObj (K : TokenKind) : LifeRun K (some (freshObj K)) [] (some (heldObj K)) :=
  LifeRun.refl.step
    (.call (by simp [freshObj]) (.lock rfl ⟨.release, rfl⟩ (not_waits_freshObj K ())))

theorem failed_destroy_iff_busy :
    (mjsEventDestroy ⟨some .EBUSY, none⟩ (some (heldObj event))).1 = some .EBUSY ∧
      Usable event (heldObj event)
        (mjsEventDestroy ⟨some .EBUSY, none⟩ (some (heldObj event))).2 :=
  ⟨rfl, (failed_destroy_iff (lifeRun_heldObj event) (lifeStart_freshObj event) (by decide)).mpr
    ⟨by decide, by decide⟩⟩

/-- While a release holds the mutex, the destroy of the mutex fails. The object has lost its
condition variable: the release stores its permit and fails, and no other destroy succeeds. -/
theorem failed_destroy_loses_condvar : ∃ o' tr' o'',
    LifeStart semaphore 0 (fun _ => .release) (freshObj semaphore) ∧
      LifeRun semaphore (some (freshObj semaphore)) [] (some (heldObj semaphore)) ∧
      (∀ p, ¬ (heldObj semaphore).mon.cv.Waits p) ∧
      mjsSemDestroy ⟨none, some .EBUSY⟩ (some (heldObj semaphore)) = (some .EBUSY, some o') ∧
      ¬ Usable semaphore (heldObj semaphore) (some o') ∧
      LifeRun semaphore (some o') tr' (some o'') ∧
      o''.mon.data = 1 ∧ o''.mon.pc () = .done .release (some .EINVAL) := by
  have h : LifeRun semaphore (some { heldObj semaphore with cv := none }) []
    (some { heldObj semaphore with cv := none }) := .refl
  have h := h.step (.call (by decide) (.act rfl rfl))
  have h := h.step (.call (by decide) (.act rfl rfl))
  have h := h.step (.call (by decide) (.unlock rfl rfl))
  exact ⟨_, _, _, lifeStart_freshObj semaphore, lifeRun_heldObj semaphore,
    not_waits_freshObj semaphore, rfl, not_usable_of_lost rfl, h, rfl, rfl⟩

end Life

end MojitoSys.Sync
