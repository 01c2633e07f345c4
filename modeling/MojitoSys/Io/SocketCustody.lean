import MojitoSys.Io.NativeSocket

/-!
# Custody of socket descriptors

Every descriptor that the C functions of the sockets make has one owner: first the call that made
it, then the socket value or the attempt that the call returns, then whoever the number is passed
to. The owners know it by a number, which may denote another descriptor once it is closed.

## Main definitions

* `SocketWorld.Sound`: what the calls in flight know of the process.
* `SocketWorld.Kept`: the process and the custody of its descriptors.
* `SocketLaw`: what a program may rely on.

## Main results

* `socket_simulates`: the process keeps the custody of its descriptors.
* `sockets_keep_custody`: the law, for every run.
-/

namespace MojitoSys.Io

open Util

section Steps

variable {ι κ τ : Type*} [DecidableEq ι] [DecidableEq κ] [DecidableEq τ]

/-! ### Calls in flight -/

/-- What the calls that have not returned know of the process. -/
structure SocketWorld.Sound (w : SocketWorld ι κ τ) : Prop where
  marked : ∀ n e, w.table n = some e → e.other = false → e.cloexec = false →
    ∃ t c, w.call t = some c ∧ c.fd = n ∧ c.unmarked = true
  /-- The listener of a call is open. -/
  listener : ∀ t c i, w.call t = some c → c.listener = some i →
    ∃ self fd, w.socket i = some self ∧ self.number = some fd
  nonneg : ∀ t c, w.call t = some c → 0 ≤ c.fd

namespace SocketWorld.Sound

variable {w : SocketWorld ι κ τ} {n : Int32}

omit [DecidableEq ι] [DecidableEq κ] [DecidableEq τ] in
theorem not_borrowed (h : w.Sound) {i : ι} (hi : w.socket i = none) : ¬ w.Borrowed i := by
  rintro ⟨t, c, ht, hc⟩
  obtain ⟨self, fd, hself, -⟩ := h.listener t c i ht hc
  rw [hi] at hself
  cases hself

omit [DecidableEq κ] [DecidableEq τ] in
theorem setSocket (h : w.Sound) {i : ι} (v : Option NativeSocket) (hb : ¬ w.Borrowed i) :
    (w.setSocket i v).Sound := by
  refine ⟨h.marked, fun t c j ht hc => ?_, h.nonneg⟩
  have hj : j ≠ i := by
    rintro rfl
    exact hb ⟨t, c, ht, hc⟩
  obtain ⟨self, fd, hself, hfd⟩ := h.listener t c j ht hc
  exact ⟨self, fd, (Function.update_of_ne hj ..).trans hself, hfd⟩

omit [DecidableEq ι] [DecidableEq τ] in
theorem setAttempt (h : w.Sound) (k : κ) (a : Option IoAttempt) : (w.setAttempt k a).Sound :=
  ⟨h.marked, h.listener, h.nonneg⟩

omit [DecidableEq ι] [DecidableEq κ] [DecidableEq τ] in
theorem setTaken (h : w.Sound) (n : Int32) (b : Bool) : (w.setTaken n b).Sound :=
  ⟨h.marked, h.listener, h.nonneg⟩

omit [DecidableEq ι] [DecidableEq κ] [DecidableEq τ] in
/-- The table changes, and no descriptor loses `FD_CLOEXEC`. -/
theorem ofTable {w' : SocketWorld ι κ τ} (h : w.Sound) (hcall : w'.call = w.call)
    (hsocket : w'.socket = w.socket)
    (htable : ∀ n e, w'.table n = some e → e.other = false → e.cloexec = false →
      ∃ e', w.table n = some e' ∧ e'.other = false ∧ e'.cloexec = false) : w'.Sound := by
  refine ⟨fun n e he ho hc => ?_, ?_, ?_⟩
  · obtain ⟨e', he', ho', hc'⟩ := htable n e he ho hc
    rw [hcall]
    exact h.marked n e' he' ho' hc'
  · rw [hcall, hsocket]
    exact h.listener
  · rw [hcall]
    exact h.nonneg

omit [DecidableEq ι] [DecidableEq κ] [DecidableEq τ] in
theorem openOther (h : w.Sound) (n : Int32) (cloexec nonblock : Bool) :
    (w.openFd n true cloexec nonblock).Sound := by
  refine h.ofTable rfl rfl fun m e he ho hc => ?_
  by_cases hm : m = n
  · subst hm
    simp only [openFd, Function.update_self, Option.some.injEq] at he
    subst he
    cases ho
  · exact ⟨e, (Function.update_of_ne hm ..).symm.trans he, ho, hc⟩

omit [DecidableEq ι] [DecidableEq κ] [DecidableEq τ] in
theorem closeFd (h : w.Sound) (n : Int32) : (w.closeFd n).Sound := by
  refine h.ofTable rfl rfl fun m e he ho hc => ?_
  by_cases hm : m = n
  · simp [SocketWorld.closeFd, hm] at he
  · exact ⟨e, (Function.update_of_ne hm ..).symm.trans he, ho, hc⟩

omit [DecidableEq ι] [DecidableEq κ] [DecidableEq τ] in
theorem closeNumber (h : w.Sound) (o : Option Int32) : (w.closeNumber o).Sound := by
  cases o with
  | none => exact h
  | some n => exact h.closeFd n

omit [DecidableEq ι] [DecidableEq κ] [DecidableEq τ] in
theorem setNonblock (h : w.Sound) (n : Int32) (b : Bool) : (w.setNonblock n b).Sound := by
  refine h.ofTable rfl rfl fun m e he ho hc => ?_
  by_cases hm : m = n
  · subst hm
    simp only [SocketWorld.setNonblock, Function.update_self, Option.map_eq_some_iff] at he
    obtain ⟨e', he', rfl⟩ := he
    exact ⟨e', he', ho, hc⟩
  · exact ⟨e, (Function.update_of_ne hm ..).symm.trans he, ho, hc⟩

omit [DecidableEq ι] [DecidableEq κ] [DecidableEq τ] in
theorem setCloexec (h : w.Sound) (n : Int32) :
    (w.setCloexec n).Sound ∧ ∀ e, (w.setCloexec n).table n = some e → e.cloexec = true := by
  have hn (e : Descriptor) (he : (w.setCloexec n).table n = some e) : e.cloexec = true := by
    simp only [SocketWorld.setCloexec, Function.update_self, Option.map_eq_some_iff] at he
    obtain ⟨e', -, rfl⟩ := he
    rfl
  refine ⟨h.ofTable rfl rfl fun m e he ho hc => ?_, hn⟩
  by_cases hm : m = n
  · subst hm
    rw [hn e he] at hc
    cases hc
  · exact ⟨e, (Function.update_of_ne hm ..).symm.trans he, ho, hc⟩

omit [DecidableEq ι] [DecidableEq κ] in
theorem call_setCall {t u : τ} {c : Option (SocketCall ι)} {c' : SocketCall ι}
    (hu : (w.setCall t c).call u = some c') :
    u = t ∧ c = some c' ∨ u ≠ t ∧ w.call u = some c' := by
  by_cases hut : u = t
  · subst hut
    simp only [SocketWorld.setCall, Function.update_self] at hu
    exact Or.inl ⟨rfl, hu⟩
  · exact Or.inr ⟨hut, (Function.update_of_ne hut ..).symm.trans hu⟩

omit [DecidableEq ι] [DecidableEq κ] in
/-- A call goes on with its number, or returns, when the descriptor is marked or closed. -/
theorem setCall (h : w.Sound) {t : τ} {c₀ : SocketCall ι} {c : Option (SocketCall ι)}
    (ht : w.call t = some c₀) (hc : ∀ c' ∈ c, c'.fd = c₀.fd ∧ c'.listener = c₀.listener)
    (hmarked : (∀ e, w.table c₀.fd = some e → e.other = false → e.cloexec = true) ∨
      ∃ c' ∈ c, c'.unmarked = true) : (w.setCall t c).Sound := by
  refine ⟨fun n e he ho hcl => ?_, fun u c' i hu hl => ?_, fun u c' hu => ?_⟩
  · obtain ⟨u, c', hu, hn, hun⟩ := h.marked n e he ho hcl
    by_cases hut : u = t
    · subst hut
      obtain rfl : c₀ = c' := Option.some.inj (ht.symm.trans hu)
      subst hn
      rcases hmarked with hcloexec | ⟨c', hc', hun'⟩
      · rw [hcloexec e he ho] at hcl
        cases hcl
      · exact ⟨u, c', (Function.update_self ..).trans hc', (hc c' hc').1, hun'⟩
    · exact ⟨u, c', (Function.update_of_ne hut ..).trans hu, hn, hun⟩
  · rcases call_setCall hu with ⟨rfl, hc'⟩ | ⟨-, hu⟩
    · exact h.listener u c₀ i ht ((hc c' hc').2 ▸ hl)
    · exact h.listener u c' i hu hl
  · rcases call_setCall hu with ⟨rfl, hc'⟩ | ⟨-, hu⟩
    · exact (hc c' hc').1 ▸ h.nonneg u c₀ ht
    · exact h.nonneg u c' hu

omit [DecidableEq ι] [DecidableEq κ] in
theorem returns (h : w.Sound) {t : τ} {c : SocketCall ι} (ht : w.call t = some c)
    (hmarked : ∀ e, w.table c.fd = some e → e.other = false → e.cloexec = true) :
    (w.setCall t none).Sound :=
  h.setCall ht (by simp) (Or.inl hmarked)

omit [DecidableEq ι] [DecidableEq κ] in
/-- A call makes a descriptor. -/
theorem create (h : w.Sound) {t : τ} {l : Option ι} (nonblock : Bool) (ht : w.call t = none)
    (hn : 0 ≤ n) (hl : ∀ i ∈ l, ∃ self fd, w.socket i = some self ∧ self.number = some fd) :
    ((w.openFd n false false nonblock).setCall t (some (.created l n))).Sound := by
  refine ⟨fun m e he ho hc => ?_, fun u c i hu hi => ?_, fun u c hu => ?_⟩
  · by_cases hm : m = n
    · exact ⟨t, .created l n, Function.update_self .., hm.symm, rfl⟩
    · have hold : w.table m = some e := (Function.update_of_ne hm ..).symm.trans he
      obtain ⟨u, c, hu, hfd, hun⟩ := h.marked m e hold ho hc
      have hut : u ≠ t := by
        rintro rfl
        rw [ht] at hu
        cases hu
      exact ⟨u, c, (Function.update_of_ne hut ..).trans hu, hfd, hun⟩
  · rcases call_setCall hu with ⟨rfl, hc⟩ | ⟨-, hu⟩
    · obtain rfl := Option.some.inj hc
      exact hl i hi
    · exact h.listener u c i hu hi
  · rcases call_setCall hu with ⟨rfl, hc⟩ | ⟨-, hu⟩
    · obtain rfl := Option.some.inj hc
      exact hn
    · exact h.nonneg u c hu

end SocketWorld.Sound

/-! ### Custody -/

/-- The process and the custody of its descriptors. -/
structure SocketWorld.Kept (w : SocketWorld ι κ τ) (s : ℕ → Life (Holder ι κ τ)) : Prop where
  names : w.names.Keeps s
  /-- What other code opened is nobody's. -/
  other : ∀ n e, w.table n = some e → e.other = true → s e.opened = .unborn
  sound : w.Sound

namespace SocketWorld.Kept

variable {host : Host} {w w' : SocketWorld ι κ τ} {s : ℕ → Life (Holder ι κ τ)}
  {es : List (CustodyEvent (Holder ι κ τ))}

omit [DecidableEq ι] [DecidableEq κ] [DecidableEq τ] in
theorem name_socket {i : ι} {self : NativeSocket} (hi : w.socket i = some self) :
    w.names.name (.socket i) = self.number := by
  simp [SocketWorld.names, hi]

omit [DecidableEq ι] [DecidableEq κ] [DecidableEq τ] in
theorem name_call {t : τ} {c : SocketCall ι} (ht : w.call t = some c) :
    w.names.name (.call t) = some c.fd := by
  simp [SocketWorld.names, ht]

omit [DecidableEq ι] [DecidableEq κ] [DecidableEq τ] in
theorem name_taken {n : Int32} (hn : w.taken n = true) : w.names.name (.caller n) = some n :=
  if_pos hn

omit [DecidableEq ι] [DecidableEq κ] [DecidableEq τ] in
/-- What one party knows the caller has not taken. -/
theorem name_caller (h : w.Kept s) {x : Holder ι κ τ} {n : Int32} (hx : w.names.name x = some n)
    (hne : x ≠ .caller n) : w.names.name (.caller n) = none := by
  by_cases hn : w.taken n = true
  · exact absurd (h.names.name_inj hx (name_taken hn)) hne
  · exact if_neg hn

omit [DecidableEq ι] [DecidableEq κ] [DecidableEq τ] in
theorem table_none {n : Int32} (hn : w.table n = none) : w.names.table n = none := by
  simp [SocketWorld.names, hn]

omit [DecidableEq ι] [DecidableEq κ] [DecidableEq τ] in
theorem name_call_none {t : τ} (ht : w.call t = none) : w.names.name (.call t) = none := by
  simp [SocketWorld.names, ht]

omit [DecidableEq ι] [DecidableEq κ] [DecidableEq τ] in
theorem name_socket_none {i : ι} (hi : w.socket i = none) : w.names.name (.socket i) = none := by
  simp [SocketWorld.names, hi]

omit [DecidableEq ι] [DecidableEq κ] [DecidableEq τ] in
theorem name_attempt_none {k : κ} (hk : w.attempt k = none) :
    w.names.name (.attempt k) = none := by
  simp [SocketWorld.names, hk]

omit [DecidableEq ι] [DecidableEq κ] [DecidableEq τ] in
theorem name_attempt {k : κ} {a : IoAttempt} (hk : w.attempt k = some a) :
    w.names.name (.attempt k) = a.number := by
  simp [SocketWorld.names, hk]

/-- A value gives its number back, if it has one. -/
theorem names_close (h : w.Kept s) {i : ι} {self : NativeSocket} {v : Option NativeSocket}
    (hi : w.socket i = some self) (hv : v.bind NativeSocket.number = none) :
    let es := (self.number.map fun _ =>
      CustodyEvent.released (.socket i) (w.names.target (.socket i))).toList
    (custody (Holder ι κ τ)).Accepts s es ∧
      ((w.closeNumber self.number).setSocket i v).names.Keeps
        ((custody (Holder ι κ τ)).after s es) := by
  rw [names_setSocket, hv]
  have hname := name_socket hi
  cases hself : self.number with
  | none =>
    rw [hself] at hname
    refine ⟨trivial, ?_⟩
    rw [closeNumber, Names.tell_eq_self hname]
    exact h.names
  | some n =>
    rw [hself] at hname
    obtain ⟨hp, hk⟩ := h.names.release hname
    rw [closeNumber, names_closeFd]
    exact ⟨⟨trivial, hp⟩, hk⟩

/-- Every step shows what the custody of the descriptors permits. -/
theorem names_step (h : w.Kept s) (hs : SocketStep host w es w') :
    (custody (Holder ι κ τ)).Accepts s es ∧
      w'.names.Keeps ((custody (Holder ι κ τ)).after s es) := by
  cases hs with
  | socket ht hn hfree =>
    obtain ⟨hp, hk⟩ := h.names.make (table_none hfree) (name_call_none ht)
    rw [names_setCall, names_openFd]
    exact ⟨⟨trivial, hp⟩, hk⟩
  | accept nonblock ht hi hb hfd hn hfree =>
    obtain ⟨hp, hk⟩ := h.names.make (table_none hfree) (name_call_none ht)
    rw [names_setCall, names_openFd]
    exact ⟨⟨⟨trivial, h.names.use ((name_socket hi).trans hfd)⟩, hp⟩, hk⟩
  | @create t i n ht hi =>
    have hn : 0 ≤ n := h.sound.nonneg _ _ ht
    obtain ⟨hp, hk⟩ := h.names.pass (name_call ht) (name_socket_none hi)
    rw [names_setSocket, names_setCall, names_setCloexec, Option.bind_some,
      NativeSocket.number_adopt hn]
    exact ⟨⟨trivial, hp⟩, hk⟩
  | @mark t i n ht =>
    have hname : w.names.name (.call t) = (some (SocketCall.marked i n)).map SocketCall.fd :=
      (name_call ht).trans rfl
    rw [names_setCall, names_setCloexec, Names.tell_eq_self hname]
    exact ⟨trivial, h.names⟩
  | @unmark t l n ht =>
    have hname : w.names.name (.call t) = (some (SocketCall.failing l n)).map SocketCall.fd :=
      (name_call ht).trans rfl
    rw [names_setCall, Names.tell_eq_self hname]
    exact ⟨trivial, h.names⟩
  | abandon ht =>
    obtain ⟨hp, hk⟩ := h.names.release (name_call ht)
    rw [names_setCall, names_closeFd]
    exact ⟨⟨trivial, hp⟩, hk⟩
  | abandonChild ht hrc hk =>
    obtain ⟨hp, hkeeps⟩ := h.names.release (name_call ht)
    rw [names_setAttempt, names_setCall, names_closeFd, Option.bind_some,
      IoAttempt.number_ofFailure]
    refine ⟨⟨trivial, hp⟩, ?_⟩
    rwa [Names.tell_eq_self]
    exact (Names.tell_name_of_ne (by simp)).trans (name_attempt_none hk)
  | @inherit t i k _ n _ _ getChild getParent set ht hi hparent hchild hk =>
    have hn : 0 ≤ n := h.sound.nonneg _ _ ht
    obtain ⟨self, fd, hself, hfd⟩ := h.sound.listener _ _ _ ht rfl
    obtain ⟨hp, hkeeps⟩ := h.names.pass (name_call ht) (name_attempt_none hk)
    rw [names_setAttempt, names_setCall, names_setNonblock, Option.bind_some,
      IoAttempt.number_readyFd hn]
    exact ⟨⟨⟨trivial, h.names.use ((name_socket hself).trans hfd)⟩, hp⟩, hkeeps⟩
  | take hk ha hn =>
    obtain ⟨rfl, hnone⟩ := IoAttempt.takeReadyFd_ok ha
    have hname := (name_attempt hk).trans (if_pos hn)
    obtain ⟨hp, hkeeps⟩ := h.names.pass hname (h.name_caller hname (by simp))
    rw [names_setTaken, names_setAttempt, Option.bind_some, hnone]
    exact ⟨⟨trivial, hp⟩, hkeeps⟩
  | takeNone hk ha hn =>
    obtain ⟨rfl, hnone⟩ := IoAttempt.takeReadyFd_ok ha
    have hname := (name_attempt hk).trans (if_neg (Int32.not_le.mpr hn))
    rw [names_setAttempt, Option.bind_some, hnone, Names.tell_eq_self hname]
    exact ⟨trivial, h.names⟩
  | @drop k a hk =>
    have hname := name_attempt hk
    rw [names_setAttempt]
    cases ha : a.number with
    | none =>
      rw [ha] at hname
      rw [Option.bind_none, Names.tell_eq_self hname]
      exact ⟨trivial, h.names⟩
    | some n =>
      rw [ha] at hname
      obtain ⟨hp, hkeeps⟩ := h.names.lose hname
      exact ⟨⟨trivial, hp⟩, hkeeps⟩
  | adopt hn hn₀ hi =>
    obtain ⟨hp, hkeeps⟩ := h.names.pass (name_taken hn) (name_socket_none hi)
    rw [names_setSocket, names_setTaken, Option.bind_some, NativeSocket.number_adopt hn₀]
    exact ⟨⟨trivial, hp⟩, hkeeps⟩
  | adoptNone hself hi =>
    rw [names_setSocket, Option.bind_some, hself, Names.tell_eq_self (name_socket_none hi)]
    exact ⟨trivial, h.names⟩
  | closeTaken hn =>
    obtain ⟨hp, hkeeps⟩ := h.names.release (name_taken hn)
    rw [names_setTaken, names_closeFd]
    exact ⟨⟨trivial, hp⟩, hkeeps⟩
  | @use i self hi hb =>
    have hname := name_socket hi
    cases hself : self.number with
    | none => exact ⟨trivial, h.names⟩
    | some n =>
      rw [hself] at hname
      exact ⟨⟨trivial, h.names.use hname⟩, h.names⟩
  | setNonblocking enabled hi hb hfd =>
    rw [names_setNonblock]
    exact ⟨⟨trivial, h.names.use ((name_socket hi).trans hfd)⟩, h.names⟩
  | transfer rc count eofAtZero hi hb hfd hk =>
    rw [names_setAttempt, Option.bind_some, number_attemptFromRc,
      Names.tell_eq_self (name_attempt_none hk)]
    exact ⟨⟨trivial, h.names.use ((name_socket hi).trans hfd)⟩, h.names⟩
  | @close i self rc hi hb =>
    obtain ⟨hclosed, hvalue⟩ := self.close_spec rc
    rw [hclosed]
    exact h.names_close hi hvalue
  | @destroy i self hi hb =>
    rw [self.del_eq]
    exact h.names_close hi rfl
  | @move i j self hi hb hj =>
    have hname := name_socket hi
    rw [names_setSocket, names_setSocket, Option.bind_some, Option.bind_some,
      NativeSocket.number_null]
    cases hself : self.number with
    | none =>
      rw [hself] at hname
      rw [Names.tell_eq_self hname, Names.tell_eq_self (name_socket_none hj)]
      exact ⟨trivial, h.names⟩
    | some n =>
      rw [hself] at hname
      obtain ⟨hp, hkeeps⟩ := h.names.pass hname (name_socket_none hj)
      exact ⟨⟨trivial, hp⟩, hkeeps⟩
  | openOther cloexec nonblock hfree =>
    rw [names_openFd]
    exact ⟨trivial, h.names.makeOther (table_none hfree)⟩
  | @closeOther n e hn he =>
    rw [names_closeFd]
    refine ⟨trivial, h.names.freeOther (d := e.opened) ?_ (h.other n e hn he)⟩
    simp [SocketWorld.names, hn]

omit [DecidableEq ι] [DecidableEq κ] [DecidableEq τ] in
/-- A descriptor of a call past `FD_CLOEXEC` is marked. -/
theorem cloexec_of_marked (h : w.Kept s) {t : τ} {i : ι} {n : Int32}
    (ht : w.call t = some (.marked i n)) {e : Descriptor} (he : w.table n = some e)
    (ho : e.other = false) : e.cloexec = true := by
  by_contra hc
  obtain ⟨u, c, hu, hn, hun⟩ := h.sound.marked n e he ho (Bool.not_eq_true _ ▸ hc)
  have hname : w.names.name (.call t) = some n := (name_call ht).trans rfl
  have heq := h.names.name_inj hname ((name_call hu).trans (congrArg some hn))
  obtain rfl : t = u := by injection heq
  obtain rfl := Option.some.inj (ht.symm.trans hu)
  cases hun

/-- Every step keeps what the calls in flight know. -/
theorem sound_step (h : w.Kept s) (hs : SocketStep host w es w') : w'.Sound := by
  have hsound := h.sound
  cases hs with
  | socket ht hn hfree => exact hsound.create false ht hn nofun
  | accept nonblock ht hi hb hfd hn hfree =>
    refine hsound.create nonblock ht hn fun j hj => ?_
    obtain rfl := Option.some.inj hj
    exact ⟨_, _, hi, hfd⟩
  | @create t i n ht hi =>
    obtain ⟨hmark, hcl⟩ := hsound.setCloexec n
    refine (hmark.returns ht fun e he _ => hcl e he).setSocket _ ?_
    exact fun ⟨u, c, hu, hc⟩ => (hsound.not_borrowed hi) ⟨u, c, by
      rcases Sound.call_setCall hu with ⟨-, hnone⟩ | ⟨-, hu⟩
      · cases hnone
      · exact hu, hc⟩
  | @mark t i n ht =>
    obtain ⟨hmark, hcl⟩ := hsound.setCloexec n
    exact hmark.setCall ht (by rintro _ ⟨⟩; exact ⟨rfl, rfl⟩) (Or.inl fun e he _ => hcl e he)
  | unmark ht =>
    exact hsound.setCall ht (by rintro _ ⟨⟩; exact ⟨rfl, rfl⟩) (Or.inr ⟨_, rfl, rfl⟩)
  | @abandon t n ht =>
    refine (hsound.closeFd n).returns ht fun e he _ => ?_
    simp [closeFd, SocketCall.fd] at he
  | @abandonChild t i k n rc ht hrc hk =>
    refine ((hsound.closeFd n).returns ht fun e he _ => ?_).setAttempt _ _
    simp [closeFd, SocketCall.fd] at he
  | @inherit t i k self n child parent getChild getParent set ht hi hparent hchild hk =>
    refine ((hsound.setNonblock n _).returns ht fun e he ho => ?_).setAttempt _ _
    simp only [setNonblock, SocketCall.fd, Function.update_self, Option.map_eq_some_iff] at he
    obtain ⟨e', he', rfl⟩ := he
    exact h.cloexec_of_marked (e := e') ht he' ho
  | take hk ha hn => exact (hsound.setAttempt _ _).setTaken _ _
  | takeNone hk ha hn => exact hsound.setAttempt _ _
  | drop hk => exact hsound.setAttempt _ _
  | adopt hn hn₀ hi => exact (hsound.setTaken _ _).setSocket _ (hsound.not_borrowed hi)
  | adoptNone hself hi => exact hsound.setSocket _ (hsound.not_borrowed hi)
  | closeTaken hn => exact (hsound.closeFd _).setTaken _ _
  | use hi hb => exact hsound
  | setNonblocking enabled hi hb hfd => exact hsound.setNonblock _ _
  | transfer rc count eofAtZero hi hb hfd hk => exact hsound.setAttempt _ _
  | @close i self rc hi hb =>
    refine (hsound.closeNumber _).setSocket _ ?_
    cases (self.close rc).closed <;> exact hb
  | @destroy i self hi hb =>
    refine (hsound.closeNumber _).setSocket _ ?_
    cases self.del <;> exact hb
  | move hi hb hj => exact (hsound.setSocket _ hb).setSocket _ (hsound.not_borrowed hj)
  | openOther cloexec nonblock hfree => exact hsound.openOther _ _ _
  | closeOther hn he => exact hsound.closeFd _

omit [DecidableEq ι] [DecidableEq κ] [DecidableEq τ] in
/-- The descriptors of other code stay nobody's where the table keeps them. -/
theorem other_of_table (h : w.Kept s)
    (hes : (custody (Holder ι κ τ)).Accepts s es) (hmade : ∀ x d, .made x d ∈ es → d = w.opened)
    (htable : ∀ n e, w'.table n = some e → e.other = true →
      ∃ e', w.table n = some e' ∧ e'.other = true ∧ e'.opened = e.opened) :
    ∀ n e, w'.table n = some e → e.other = true →
      (custody (Holder ι κ τ)).after s es e.opened = .unborn := by
  intro n e he ho
  obtain ⟨e', he', ho', heq⟩ := htable n e he ho
  rw [← heq]
  refine custody_after_unborn hes (h.other n e' he' ho') fun x hx => ?_
  have hlt := h.names.below n e'.opened (by simp [SocketWorld.names, he'])
  exact Nat.ne_of_lt hlt (hmade x _ hx)

omit [DecidableEq ι] [DecidableEq κ] [DecidableEq τ] in
theorem table_setCloexec {n m : Int32} {e : Descriptor} (he : (w.setCloexec n).table m = some e)
    (ho : e.other = true) : ∃ e', w.table m = some e' ∧ e'.other = true ∧ e'.opened = e.opened := by
  by_cases hm : m = n
  · subst hm
    simp only [setCloexec, Function.update_self, Option.map_eq_some_iff] at he
    obtain ⟨e', he', rfl⟩ := he
    exact ⟨e', he', ho, rfl⟩
  · exact ⟨e, (Function.update_of_ne hm ..).symm.trans he, ho, rfl⟩

omit [DecidableEq ι] [DecidableEq κ] [DecidableEq τ] in
theorem table_setNonblock {n m : Int32} {b : Bool} {e : Descriptor}
    (he : (w.setNonblock n b).table m = some e) (ho : e.other = true) :
    ∃ e', w.table m = some e' ∧ e'.other = true ∧ e'.opened = e.opened := by
  by_cases hm : m = n
  · subst hm
    simp only [setNonblock, Function.update_self, Option.map_eq_some_iff] at he
    obtain ⟨e', he', rfl⟩ := he
    exact ⟨e', he', ho, rfl⟩
  · exact ⟨e, (Function.update_of_ne hm ..).symm.trans he, ho, rfl⟩

omit [DecidableEq ι] [DecidableEq κ] [DecidableEq τ] in
theorem table_closeNumber {m : Int32} {o : Option Int32} {e : Descriptor}
    (he : (w.closeNumber o).table m = some e) : w.table m = some e := by
  cases o with
  | none => exact he
  | some n =>
    by_cases hm : m = n
    · simp [closeNumber, closeFd, hm] at he
    · exact (Function.update_of_ne hm ..).symm.trans he

omit [DecidableEq ι] [DecidableEq κ] [DecidableEq τ] in
theorem table_openFd {n m : Int32} {cloexec nonblock : Bool} {e : Descriptor}
    (he : (w.openFd n false cloexec nonblock).table m = some e) (ho : e.other = true) :
    w.table m = some e := by
  by_cases hm : m = n
  · subst hm
    simp only [openFd, Function.update_self, Option.some.injEq] at he
    subst he
    cases ho
  · exact (Function.update_of_ne hm ..).symm.trans he

/-- Every step keeps the descriptors of other code apart. -/
theorem other_step (h : w.Kept s) (hs : SocketStep host w es w')
    (hes : (custody (Holder ι κ τ)).Accepts s es) :
    ∀ n e, w'.table n = some e → e.other = true →
      (custody (Holder ι κ τ)).after s es e.opened = .unborn := by
  cases hs with
  | socket ht hn hfree | accept nonblock ht hi hb hfd hn hfree =>
    refine h.other_of_table hes (by simp) fun m e he ho => ⟨e, ?_, ho, rfl⟩
    exact table_openFd he ho
  | create ht hi | mark ht =>
    exact h.other_of_table hes (by simp) fun m e he ho => table_setCloexec he ho
  | @abandon t n ht | @abandonChild t i k n rc ht hrc hk | @closeTaken n hn
  | @closeOther n e hn he =>
    refine h.other_of_table hes (by simp) fun m e he ho => ⟨e, ?_, ho, rfl⟩
    exact table_closeNumber (o := some n) he
  | inherit getChild getParent set ht hi hparent hchild hk
  | setNonblocking enabled hi hb hfd =>
    exact h.other_of_table hes (by simp) fun m e he ho => table_setNonblock he ho
  | @close i self rc hi hb =>
    refine h.other_of_table hes (fun x d hx => ?_) fun m e he ho =>
      ⟨e, table_closeNumber he, ho, rfl⟩
    cases hc : (self.close rc).closed <;> simp [hc] at hx
  | @destroy i self hi hb =>
    refine h.other_of_table hes (fun x d hx => ?_) fun m e he ho =>
      ⟨e, table_closeNumber he, ho, rfl⟩
    cases hc : self.del <;> simp [hc] at hx
  | @drop k a hk =>
    refine h.other_of_table hes (fun x d hx => ?_) fun m e he ho => ⟨e, he, ho, rfl⟩
    cases hc : a.number <;> simp [hc] at hx
  | @use i self hi hb | @move i j self hi hb hj =>
    refine h.other_of_table hes (fun x d hx => ?_) fun m e he ho => ⟨e, he, ho, rfl⟩
    cases hc : self.number <;> simp [hc] at hx
  | unmark ht | take hk ha hn | takeNone hk ha hn | adopt hn hn₀ hi | adoptNone hself hi
  | transfer rc count eofAtZero hi hb hfd hk =>
    exact h.other_of_table hes (by simp) fun m e he ho => ⟨e, he, ho, rfl⟩
  | @openOther n cloexec nonblock hfree =>
    intro m e he ho
    by_cases hm : m = n
    · subst hm
      simp only [openFd, Function.update_self, Option.some.injEq] at he
      subst he
      exact h.names.fresh w.opened (Nat.le_refl _)
    · exact h.other m e ((Function.update_of_ne hm ..).symm.trans he) ho

end SocketWorld.Kept

end Steps

section Law

variable {ι κ τ : Type*} [DecidableEq ι] [DecidableEq κ] [DecidableEq τ] {host : Host}
  {w : SocketWorld ι κ τ} {tr : List (CustodyEvent (Holder ι κ τ))}

/-- The process keeps the custody of its descriptors. -/
theorem socket_simulates (host : Host) :
    (socketSystem ι κ τ host).Simulates (custody (Holder ι κ τ)) SocketWorld.Kept where
  start w hw := by
    have hnames : w.names = ⟨w.names.table, w.names.made, fun _ => none⟩ := by
      refine Names.ext rfl rfl (funext fun x => ?_)
      cases x with
      | socket i => simp [SocketWorld.names, hw.socket]
      | attempt k => simp [SocketWorld.names, hw.attempt]
      | caller n => simp [SocketWorld.names, hw.taken]
      | call t => simp [SocketWorld.names, hw.call]
    refine ⟨?_, fun _ _ _ _ => rfl, ?_, ?_, ?_⟩
    · rw [hnames]
      refine Names.Keeps.start _ _ (fun n d hd => ?_) fun n n' d hd hd' => ?_
      · obtain ⟨e, he, rfl⟩ := Option.map_eq_some_iff.mp hd
        exact (hw.other n e he).2
      · obtain ⟨e, he, rfl⟩ := Option.map_eq_some_iff.mp hd
        obtain ⟨e', he', heq⟩ := Option.map_eq_some_iff.mp hd'
        exact hw.unique n n' e e' he he' heq.symm
    · intro n e he ho
      rw [(hw.other n e he).1] at ho
      cases ho
    · intro t c i ht
      rw [hw.call] at ht
      cases ht
    · intro t c ht
      rw [hw.call] at ht
      cases ht
  step _ _ _ _ h hs := by
    obtain ⟨hes, hk⟩ := h.names_step hs
    exact ⟨hes, hk, h.other_step hs hes, h.sound_step hs⟩

/-- Only an attempt loses a descriptor. -/
theorem lost_of_step {es : List (CustodyEvent (Holder ι κ τ))} {w' : SocketWorld ι κ τ}
    (hs : SocketStep host w es w') {x : Holder ι κ τ} {target : Option ℕ}
    (hx : .lost x target ∈ es) : ∃ k, x = .attempt k := by
  cases hs with
  | @drop k a hk =>
    cases ha : a.number with
    | none => simp [ha] at hx
    | some n =>
      simp only [ha, Option.map_some, Option.toList_some, List.mem_singleton] at hx
      injection hx with hx
      exact ⟨k, hx⟩
  | @close i self rc hi hb => cases hc : (self.close rc).closed <;> simp [hc] at hx
  | @destroy i self hi hb => cases hc : self.del <;> simp [hc] at hx
  | @use i self hi hb | @move i j self hi hb hj => cases hc : self.number <;> simp [hc] at hx
  | _ => simp at hx

theorem lost_of_run (hr : (socketSystem ι κ τ host).Run tr w) {x : Holder ι κ τ}
    {target : Option ℕ} (hx : .lost x target ∈ tr) : ∃ k, x = .attempt k := by
  induction hr with
  | start => cases hx
  | step _ hs ih =>
    rcases List.mem_append.mp hx with hx | hx
    · exact lost_of_step hs hx
    · exact ih hx

/-- What a process may rely on. -/
structure SocketLaw (w : SocketWorld ι κ τ) (tr : List (CustodyEvent (Holder ι κ τ))) : Prop where
  /-- A descriptor is used, passed on and closed by its owner only, whatever number it has. -/
  accepted : (custody (Holder ι κ τ)).Accepts (custody (Holder ι κ τ)).start tr
  once : (releasedIn tr).Nodup
  open_iff : ∀ d ∈ madeIn tr, (∃ n e, w.table n = some e ∧ e.opened = d) ↔ d ∉ releasedIn tr
  /-- What is open has one owner, or was in an attempt that was dropped. -/
  owner : ∀ d ∈ madeIn tr, d ∉ releasedIn tr → d ∉ lostIn tr → ∃! x, w.names.target x = some d
  dropped : ∀ x target, .lost x target ∈ tr → ∃ k, x = .attempt k
  cloexec : ∀ n e, w.table n = some e → e.other = false → e.cloexec = true ∨
    ∃ t c, w.call t = some c ∧ c.fd = n ∧ c.unmarked = true

/-- In every run of a process with any number of socket values, attempts and threads, each
descriptor that a C function of the sockets made is closed at most once, by its owner; the ones that
are not closed are open and have one owner each, but for those in attempts that were dropped; and
one without `FD_CLOEXEC` belongs to a call that has not returned. -/
theorem sockets_keep_custody (hr : (socketSystem ι κ τ host).Run tr w) : SocketLaw w tr := by
  obtain ⟨hacc, hk⟩ := (socket_simulates host).run hr
  have haccount := accounted_of_accepts hacc
  refine ⟨hacc, haccount.once, fun d hd => ?_, fun d => hk.names.existsUnique_holder haccount,
    fun _ _ => lost_of_run hr, fun n e he ho => ?_⟩
  · rw [← hk.names.denotes_iff haccount hd]
    simp [SocketWorld.names]
  · cases hc : e.cloexec with
    | true => exact Or.inl rfl
    | false => exact Or.inr (hk.sound.marked n e he ho hc)

/-- A process with nothing open. -/
def emptyWorld : SocketWorld Unit Unit Unit :=
  ⟨fun _ => none, 0, fun _ => none, fun _ => none, fun _ => false, fun _ => none⟩

theorem sockets_keep_custody_closed :
    ∃ w : SocketWorld Unit Unit Unit, SocketLaw w [.released (.socket ()) (some 0),
      .passed (.call ()) (.socket ()) (some 0), .made (.call ()) 0] := by
  have hr₀ : (socketSystem Unit Unit Unit .linux).Run [] emptyWorld :=
    .start ⟨fun _ => rfl, fun _ => rfl, fun _ => rfl, fun _ => rfl, nofun, nofun⟩
  have hr₁ := hr₀.step (@SocketStep.socket _ _ _ _ _ _ _ _ () 3 rfl (by decide) rfl)
  have hr₂ := hr₁.step (@SocketStep.create _ _ _ _ _ _ _ _ () () 3 rfl rfl)
  have hr₃ := hr₂.step (@SocketStep.close _ _ _ _ _ _ _ _ () (.adopt 3) (-5) rfl nofun)
  exact ⟨_, sockets_keep_custody hr₃⟩

end Law

end MojitoSys.Io
