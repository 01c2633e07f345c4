import MojitoSys.Io.OwnedFd
import MojitoSys.Io.SocketAddress
import MojitoSys.Util.Custody

/-!
# Sockets

`NativeSocket` and `IoAttempt` of `io/socket.mojo`, over `mjs_socket.c`. A socket value owns a
descriptor until it is closed, destroyed or moved from; an accepted descriptor arrives in an
attempt, from which the caller takes its number, to give it to another socket value. The C functions
that make a descriptor set `FD_CLOEXEC` in a second system call, and close the descriptor if that
fails.

The values live in one process with any number of threads, where other code opens and closes
descriptors of its own, so that a released number comes to denote another descriptor. A method
borrows its value for as long as it runs.

## Main definitions

* `IoAttempt`, `classifyRc`, `attemptFromRc`, `NativeSocket`: the wrapper.
* `SocketCall`: a C function between the system call that makes a descriptor and its return.
* `SocketWorld`, `SocketStep`, `socketSystem`: the process.
* `SocketWorld.names`: who knows which number.

## Main results

* `NativeSocket.close_spec`, `NativeSocket.del_eq`: a value has no number after `close`, and the
  destructor closes the one that it has.
-/

namespace MojitoSys.Io

open Util

/-! ### Attempts -/

/-- The kinds of an attempt. -/
inductive AttemptKind
  | ready
  | wouldBlock
  | interrupted
  | error
  | closed
  deriving DecidableEq, Repr

/-- What a ready attempt carries. -/
inductive Payload
  | fd
  | count
  deriving DecidableEq, Repr

/-- `struct IoAttempt`. -/
structure IoAttempt where
  kind : AttemptKind
  err : Int32
  count : ℕ
  fd : Int32
  payload : Payload
  deriving DecidableEq, Repr

/-- `_host_eagain`. -/
def hostEagain : Host → Int32
  | .darwin => 35
  | .linux => 11

/-- `EINTR_RAW`. -/
def EINTR_RAW : Int32 := 4

/-- `EINVAL_RC`. -/
def EINVAL_RC : Int32 := -22

/-- `-EBADF`. -/
def EBADF_RC : Int32 := -9

/-- `classify_rc`. -/
def classifyRc (host : Host) (rc : Int32) : AttemptKind :=
  if rc = 0 then .ready
  else if rc = -hostEagain host then .wouldBlock
  else if rc = -EINTR_RAW then .interrupted
  else .error

namespace IoAttempt

/-- `IoAttempt()`. -/
def init : IoAttempt := ⟨.error, 0, 0, NO_FD, .fd⟩

/-- `IoAttempt.ready_count`. -/
def readyCount (n : ℕ) : IoAttempt := { init with kind := .ready, payload := .count, count := n }

/-- `IoAttempt.ready_fd`. -/
def readyFd (accepted : Int32) : IoAttempt :=
  { init with kind := .ready, payload := .fd, fd := accepted }

/-- `IoAttempt.error`. -/
def ofError (rc : Int32) : IoAttempt := { init with kind := .error, err := -rc }

/-- The attempt of a call that failed. -/
def ofFailure (host : Host) (rc : Int32) : IoAttempt :=
  match classifyRc host rc with
  | .wouldBlock => { init with kind := .wouldBlock }
  | .interrupted => { init with kind := .interrupted }
  | .ready | .error | .closed => ofError rc

/-- `take_ready_fd`: the number, unless it raises, and the attempt. -/
def takeReadyFd (a : IoAttempt) : Except Int32 Int32 × IoAttempt :=
  if a.kind ≠ .ready ∨ a.payload ≠ .fd then (.error EINVAL_RC, a)
  else (.ok a.fd, { a with fd := NO_FD })

/-- The number that the attempt carries. -/
def number (a : IoAttempt) : Option Int32 := if 0 ≤ a.fd then some a.fd else none

@[simp]
theorem number_readyFd {n : Int32} (hn : 0 ≤ n) : (readyFd n).number = some n := if_pos hn

@[simp]
theorem number_ofFailure (host : Host) (rc : Int32) : (ofFailure host rc).number = none := by
  unfold ofFailure
  split <;> rfl

/-- A number is taken once. -/
theorem takeReadyFd_ok {a : IoAttempt} {n : Int32} (h : a.takeReadyFd.1 = .ok n) :
    n = a.fd ∧ a.takeReadyFd.2.number = none := by
  unfold takeReadyFd at h ⊢
  split_ifs at h ⊢
  exact ⟨(Except.ok.inj h).symm, rfl⟩

end IoAttempt

/-- `attempt_from_rc`. -/
def attemptFromRc (host : Host) (rc : Int32) (count : ℕ) (eofAtZero : Bool) : IoAttempt :=
  if rc = 0 then
    if eofAtZero ∧ count = 0 then { IoAttempt.init with kind := .closed }
    else .readyCount count
  else .ofFailure host rc

@[simp]
theorem number_attemptFromRc (host : Host) (rc : Int32) (count : ℕ) (eofAtZero : Bool) :
    (attemptFromRc host rc count eofAtZero).number = none := by
  unfold attemptFromRc
  split_ifs
  · rfl
  · rfl
  · exact IoAttempt.number_ofFailure host rc

/-! ### Socket values -/

/-- `struct NativeSocket`. -/
structure NativeSocket where
  fd : Int32
  closed : Bool
  deriving DecidableEq, Repr

/-- What `close` did. -/
structure SocketClosing where
  value : NativeSocket
  status : Int32
  /-- The number that was passed to `close(2)`. -/
  closed : Option Int32
  deriving DecidableEq, Repr

/-- `mjs_socket_close`, where `rc` is what `close(2)` returns: the status, and the number that was
passed to it. -/
def mjsSocketClose (fd rc : Int32) : Int32 × Option Int32 :=
  if fd < 0 then (EBADF_RC, none) else (rc, some fd)

namespace NativeSocket

/-- `NativeSocket()`, and a value that was moved from. -/
def null : NativeSocket := ⟨NO_FD, true⟩

/-- `_adopt`. -/
def adopt (fd : Int32) : NativeSocket := ⟨fd, false⟩

/-- The number that a method passes to the kernel: none if `_require_live` raises, or the C function
returns `-EBADF` at once. -/
def number (self : NativeSocket) : Option Int32 :=
  if self.closed then none else if self.fd < 0 then none else some self.fd

/-- `close`, which raises on a status other than `0`. -/
def close (self : NativeSocket) (rc : Int32) : SocketClosing :=
  if self.closed then ⟨self, EINVAL_RC, none⟩
  else ⟨⟨NO_FD, true⟩, (mjsSocketClose self.fd rc).1, (mjsSocketClose self.fd rc).2⟩

/-- `__del__`: the number that is passed to `close(2)`. -/
def del (self : NativeSocket) : Option Int32 :=
  if self.closed = false ∧ 0 ≤ self.fd then (mjsSocketClose self.fd 0).2 else none

variable {self : NativeSocket}

/-- `close` passes the number of its value to the kernel, and whatever the status, the value has
none afterwards. -/
theorem close_spec (self : NativeSocket) (rc : Int32) :
    (self.close rc).closed = self.number ∧ (self.close rc).value.number = none := by
  unfold close number mjsSocketClose
  cases hc : self.closed with
  | true => simp [hc]
  | false =>
    by_cases hneg : self.fd < 0 <;> simp [hneg]

/-- The destructor closes what the value has. -/
theorem del_eq (self : NativeSocket) : self.del = self.number := by
  unfold del number mjsSocketClose
  cases self.closed with
  | true => simp
  | false =>
    by_cases hneg : self.fd < 0
    · have hnot : ¬ (0 : Int32) ≤ self.fd := Int32.not_le.mpr hneg
      simp [hneg, hnot]
    · have hle : (0 : Int32) ≤ self.fd := Int32.not_lt.mp hneg
      simp [hneg, hle]

@[simp]
theorem number_adopt {n : Int32} (hn : 0 ≤ n) : (adopt n).number = some n := by
  have hnot : ¬ n < 0 := Int32.not_lt.mpr hn
  simp [adopt, number, hnot]

@[simp]
theorem number_adopt_neg {n : Int32} (hn : n < 0) : (adopt n).number = none := by
  simp [adopt, number, hn]

@[simp]
theorem number_null : null.number = none := rfl

end NativeSocket

/-! ### The process -/

/-- The end of `mjs_socket_accept`: whether the child is non-blocking afterwards, from the answers
of the three calls of `fcntl`. -/
def inheritNonblock (child parent : Bool) (getChild getParent set : Bool) : Bool :=
  if getChild ∧ getParent then
    if parent ≠ child then
      if set then parent else child
    else child
  else child

/-- An open descriptor. -/
structure Descriptor where
  /-- How many descriptors were opened before. -/
  opened : ℕ
  /-- It was opened by other code. -/
  other : Bool
  cloexec : Bool
  nonblock : Bool

/-- A call of `mjs_socket_socket` or, with the listener, of `mjs_socket_accept`. -/
inductive SocketCall (ι : Type*)
  /-- The descriptor is made, and `FD_CLOEXEC` not set yet. -/
  | created (listener : Option ι) (fd : Int32)
  /-- `FD_CLOEXEC` could not be set: `close(2)` comes next. -/
  | failing (listener : Option ι) (fd : Int32)
  /-- The flags of an accepted descriptor come next. -/
  | marked (listener : ι) (fd : Int32)

namespace SocketCall

variable {ι : Type*}

/-- The number that the call made. -/
def fd : SocketCall ι → Int32
  | .created _ fd | .failing _ fd | .marked _ fd => fd

/-- The value that the call borrows. -/
def listener : SocketCall ι → Option ι
  | .created l _ | .failing l _ => l
  | .marked i _ => some i

/-- `FD_CLOEXEC` is not set. -/
def unmarked : SocketCall ι → Bool
  | .created _ _ | .failing _ _ => true
  | .marked _ _ => false

end SocketCall

/-- The owners of a descriptor: a socket value, an attempt, the caller who took a number from an
attempt, and a call. -/
inductive Holder (ι κ τ : Type*)
  | socket (i : ι)
  | attempt (k : κ)
  | caller (n : Int32)
  | call (t : τ)
  deriving DecidableEq

/-- The places `ι` of socket values and `κ` of attempts, the threads `τ`, and the descriptor
table. -/
structure SocketWorld (ι κ τ : Type*) where
  table : Int32 → Option Descriptor
  opened : ℕ
  socket : ι → Option NativeSocket
  attempt : κ → Option IoAttempt
  /-- The numbers that the caller took. -/
  taken : Int32 → Bool
  call : τ → Option (SocketCall ι)

namespace SocketWorld

variable {ι κ τ : Type*}

/-- Who knows which number. -/
def names (w : SocketWorld ι κ τ) : Names Int32 (Holder ι κ τ) where
  table n := (w.table n).map Descriptor.opened
  made := w.opened
  name
    | .socket i => (w.socket i).bind NativeSocket.number
    | .attempt k => (w.attempt k).bind IoAttempt.number
    | .caller n => if w.taken n then some n else none
    | .call t => (w.call t).map SocketCall.fd

/-- A running method has the value. -/
def Borrowed (w : SocketWorld ι κ τ) (i : ι) : Prop :=
  ∃ t c, w.call t = some c ∧ c.listener = some i

/-- The kernel opens a descriptor. -/
def openFd (w : SocketWorld ι κ τ) (n : Int32) (other cloexec nonblock : Bool) :
    SocketWorld ι κ τ :=
  { w with
    table := Function.update w.table n (some ⟨w.opened, other, cloexec, nonblock⟩)
    opened := w.opened + 1 }

/-- The kernel releases a number. -/
def closeFd (w : SocketWorld ι κ τ) (n : Int32) : SocketWorld ι κ τ :=
  { w with table := Function.update w.table n none }

/-- `close(2)`, if it is called. -/
def closeNumber (w : SocketWorld ι κ τ) : Option Int32 → SocketWorld ι κ τ
  | some n => w.closeFd n
  | none => w

/-- `FD_CLOEXEC` is set. -/
def setCloexec (w : SocketWorld ι κ τ) (n : Int32) : SocketWorld ι κ τ :=
  { w with
    table := Function.update w.table n ((w.table n).map fun e => { e with cloexec := true }) }

/-- `O_NONBLOCK` is set or cleared. -/
def setNonblock (w : SocketWorld ι κ τ) (n : Int32) (b : Bool) : SocketWorld ι κ τ :=
  { w with
    table := Function.update w.table n ((w.table n).map fun e => { e with nonblock := b }) }

section Set

variable [DecidableEq ι] [DecidableEq κ] [DecidableEq τ]

def setSocket (w : SocketWorld ι κ τ) (i : ι) (v : Option NativeSocket) : SocketWorld ι κ τ :=
  { w with socket := Function.update w.socket i v }

def setAttempt (w : SocketWorld ι κ τ) (k : κ) (a : Option IoAttempt) : SocketWorld ι κ τ :=
  { w with attempt := Function.update w.attempt k a }

def setTaken (w : SocketWorld ι κ τ) (n : Int32) (b : Bool) : SocketWorld ι κ τ :=
  { w with taken := Function.update w.taken n b }

def setCall (w : SocketWorld ι κ τ) (t : τ) (c : Option (SocketCall ι)) : SocketWorld ι κ τ :=
  { w with call := Function.update w.call t c }

/-! ### What the parts of a step do to the names -/

variable {w : SocketWorld ι κ τ}

omit [DecidableEq ι] [DecidableEq κ] [DecidableEq τ] in
@[simp]
theorem names_openFd (n : Int32) (other cloexec nonblock : Bool) :
    (w.openFd n other cloexec nonblock).names = w.names.makeOther n := by
  refine Names.ext (funext fun m => ?_) rfl rfl
  simp only [names, openFd, Names.makeOther, Function.update_apply]
  split_ifs <;> rfl

omit [DecidableEq ι] [DecidableEq κ] [DecidableEq τ] in
@[simp]
theorem names_closeFd (n : Int32) : (w.closeFd n).names = w.names.free n := by
  refine Names.ext (funext fun m => ?_) rfl rfl
  simp only [names, closeFd, Names.free, Function.update_apply]
  split_ifs <;> rfl

omit [DecidableEq ι] [DecidableEq κ] [DecidableEq τ] in
@[simp]
theorem names_setCloexec (n : Int32) : (w.setCloexec n).names = w.names := by
  refine Names.ext (funext fun m => ?_) rfl rfl
  by_cases hm : m = n
  · subst hm
    simp [names, setCloexec, Function.comp_def]
  · simp [names, setCloexec, hm]

omit [DecidableEq ι] [DecidableEq κ] [DecidableEq τ] in
@[simp]
theorem names_setNonblock (n : Int32) (b : Bool) : (w.setNonblock n b).names = w.names := by
  refine Names.ext (funext fun m => ?_) rfl rfl
  by_cases hm : m = n
  · subst hm
    simp [names, setNonblock, Function.comp_def]
  · simp [names, setNonblock, hm]

@[simp]
theorem names_setSocket (i : ι) (v : Option NativeSocket) :
    (w.setSocket i v).names = w.names.tell (.socket i) (v.bind NativeSocket.number) := by
  refine Names.ext rfl rfl (funext fun h => ?_)
  cases h with
  | socket j =>
    by_cases hj : j = i
    · subst hj
      simp [names, setSocket, Names.tell]
    · simp [names, setSocket, Names.tell, hj]
  | attempt k | caller n | call t => exact (Names.tell_name_of_ne (by simp)).symm

@[simp]
theorem names_setAttempt (k : κ) (a : Option IoAttempt) :
    (w.setAttempt k a).names = w.names.tell (.attempt k) (a.bind IoAttempt.number) := by
  refine Names.ext rfl rfl (funext fun h => ?_)
  cases h with
  | attempt j =>
    by_cases hj : j = k
    · subst hj
      simp [names, setAttempt, Names.tell]
    · simp [names, setAttempt, Names.tell, hj]
  | socket i | caller n | call t => exact (Names.tell_name_of_ne (by simp)).symm

@[simp]
theorem names_setTaken (n : Int32) (b : Bool) :
    (w.setTaken n b).names = w.names.tell (.caller n) (if b then some n else none) := by
  refine Names.ext rfl rfl (funext fun h => ?_)
  cases h with
  | caller m =>
    by_cases hm : m = n
    · subst hm
      simp [names, setTaken, Names.tell]
    · simp [names, setTaken, Names.tell, hm]
  | socket i | attempt k | call t => exact (Names.tell_name_of_ne (by simp)).symm

@[simp]
theorem names_setCall (t : τ) (c : Option (SocketCall ι)) :
    (w.setCall t c).names = w.names.tell (.call t) (c.map SocketCall.fd) := by
  refine Names.ext rfl rfl (funext fun h => ?_)
  cases h with
  | call u =>
    by_cases hu : u = t
    · subst hu
      simp [names, setCall, Names.tell]
    · simp [names, setCall, Names.tell, hu]
  | socket i | attempt k | caller n => exact (Names.tell_name_of_ne (by simp)).symm

end Set

end SocketWorld

section Steps

variable {ι κ τ : Type*} [DecidableEq ι] [DecidableEq κ] [DecidableEq τ]

/-- What happens in the process, with what happens to the descriptors. A system call that fails and
changes nothing is a `use` or is left out. -/
inductive SocketStep (host : Host) (w : SocketWorld ι κ τ) :
    List (CustodyEvent (Holder ι κ τ)) → SocketWorld ι κ τ → Prop
  /-- `socket(2)` in `mjs_socket_socket`. -/
  | socket {t : τ} {n : Int32} (ht : w.call t = none) (hn : 0 ≤ n) (hfree : w.table n = none) :
      SocketStep host w [.made (.call t) w.opened]
        ((w.openFd n false false false).setCall t (some (.created none n)))
  /-- `accept(2)` in `mjs_socket_accept`. On Darwin the child inherits `O_NONBLOCK`. -/
  | accept {t : τ} {i : ι} {self : NativeSocket} {n fd : Int32} (nonblock : Bool)
      (ht : w.call t = none) (hi : w.socket i = some self) (hb : ¬ w.Borrowed i)
      (hfd : self.number = some fd) (hn : 0 ≤ n) (hfree : w.table n = none) :
      SocketStep host w
        [.made (.call t) w.opened, .used (.socket i) (w.names.target (.socket i))]
        ((w.openFd n false false nonblock).setCall t (some (.created (some i) n)))
  /-- `FD_CLOEXEC` is set on a descriptor of `socket(2)`, and the wrapper adopts it. -/
  | create {t : τ} {i : ι} {n : Int32} (ht : w.call t = some (.created none n))
      (hi : w.socket i = none) :
      SocketStep host w [.passed (.call t) (.socket i) (w.names.target (.call t))]
        (((w.setCloexec n).setCall t none).setSocket i (some (.adopt n)))
  | mark {t : τ} {i : ι} {n : Int32} (ht : w.call t = some (.created (some i) n)) :
      SocketStep host w [] ((w.setCloexec n).setCall t (some (.marked i n)))
  /-- `FD_CLOEXEC` cannot be set. -/
  | unmark {t : τ} {l : Option ι} {n : Int32} (ht : w.call t = some (.created l n)) :
      SocketStep host w [] (w.setCall t (some (.failing l n)))
  | abandon {t : τ} {n : Int32} (ht : w.call t = some (.failing none n)) :
      SocketStep host w [.released (.call t) (w.names.target (.call t))]
        ((w.closeFd n).setCall t none)
  | abandonChild {t : τ} {i : ι} {k : κ} {n rc : Int32}
      (ht : w.call t = some (.failing (some i) n)) (hrc : rc < 0) (hk : w.attempt k = none) :
      SocketStep host w [.released (.call t) (w.names.target (.call t))]
        (((w.closeFd n).setCall t none).setAttempt k (some (.ofFailure host rc)))
  /-- The flags of the child, and the return of `accept_nonblocking`. -/
  | inherit {t : τ} {i : ι} {k : κ} {self : NativeSocket} {n : Int32} {child parent : Descriptor}
      (getChild getParent set : Bool) (ht : w.call t = some (.marked i n))
      (hi : w.socket i = some self) (hparent : w.table self.fd = some parent)
      (hchild : w.table n = some child) (hk : w.attempt k = none) :
      SocketStep host w
        [.passed (.call t) (.attempt k) (w.names.target (.call t)),
          .used (.socket i) (w.names.target (.socket i))]
        (((w.setNonblock n
            (inheritNonblock child.nonblock parent.nonblock getChild getParent set)).setCall t
          none).setAttempt k (some (.readyFd n)))
  /-- A number is taken from an attempt; a second time it is `NO_FD`. -/
  | take {k : κ} {a : IoAttempt} {n : Int32} (hk : w.attempt k = some a)
      (ha : a.takeReadyFd.1 = .ok n) (hn : 0 ≤ n) :
      SocketStep host w [.passed (.attempt k) (.caller n) (w.names.target (.attempt k))]
        ((w.setAttempt k (some a.takeReadyFd.2)).setTaken n true)
  | takeNone {k : κ} {a : IoAttempt} {n : Int32} (hk : w.attempt k = some a)
      (ha : a.takeReadyFd.1 = .ok n) (hn : n < 0) :
      SocketStep host w [] (w.setAttempt k (some a.takeReadyFd.2))
  /-- An attempt has no destructor. -/
  | drop {k : κ} {a : IoAttempt} (hk : w.attempt k = some a) :
      SocketStep host w
        (a.number.map fun _ => .lost (.attempt k) (w.names.target (.attempt k))).toList
        (w.setAttempt k none)
  | adopt {i : ι} {n : Int32} (hn : w.taken n = true) (hn₀ : 0 ≤ n) (hi : w.socket i = none) :
      SocketStep host w [.passed (.caller n) (.socket i) (w.names.target (.caller n))]
        ((w.setTaken n false).setSocket i (some (.adopt n)))
  /-- The number of a second take is adopted, or a value is made without one. -/
  | adoptNone {i : ι} {self : NativeSocket} (hself : self.number = none)
      (hi : w.socket i = none) : SocketStep host w [] (w.setSocket i (some self))
  /-- The caller closes a number that it took. -/
  | closeTaken {n : Int32} (hn : w.taken n = true) :
      SocketStep host w [.released (.caller n) (w.names.target (.caller n))]
        ((w.closeFd n).setTaken n false)
  /-- `bind`, `listen`, `connect` or `shutdown`. -/
  | use {i : ι} {self : NativeSocket} (hi : w.socket i = some self) (hb : ¬ w.Borrowed i) :
      SocketStep host w
        (self.number.map fun _ => .used (.socket i) (w.names.target (.socket i))).toList w
  | setNonblocking {i : ι} {self : NativeSocket} {fd : Int32} (enabled : Bool)
      (hi : w.socket i = some self) (hb : ¬ w.Borrowed i) (hfd : self.number = some fd) :
      SocketStep host w [.used (.socket i) (w.names.target (.socket i))]
        (w.setNonblock fd enabled)
  /-- `recv` or `send`, or an `accept` that fails, with its attempt. -/
  | transfer {i : ι} {k : κ} {self : NativeSocket} {fd : Int32} (rc : Int32) (count : ℕ)
      (eofAtZero : Bool) (hi : w.socket i = some self) (hb : ¬ w.Borrowed i)
      (hfd : self.number = some fd) (hk : w.attempt k = none) :
      SocketStep host w [.used (.socket i) (w.names.target (.socket i))]
        (w.setAttempt k (some (attemptFromRc host rc count eofAtZero)))
  | close {i : ι} {self : NativeSocket} (rc : Int32) (hi : w.socket i = some self)
      (hb : ¬ w.Borrowed i) :
      SocketStep host w ((self.close rc).closed.map fun _ =>
          .released (.socket i) (w.names.target (.socket i))).toList
        ((w.closeNumber (self.close rc).closed).setSocket i (some (self.close rc).value))
  | destroy {i : ι} {self : NativeSocket} (hi : w.socket i = some self) (hb : ¬ w.Borrowed i) :
      SocketStep host w
        (self.del.map fun _ => .released (.socket i) (w.names.target (.socket i))).toList
        ((w.closeNumber self.del).setSocket i none)
  | move {i j : ι} {self : NativeSocket} (hi : w.socket i = some self) (hb : ¬ w.Borrowed i)
      (hj : w.socket j = none) :
      SocketStep host w (self.number.map fun _ =>
          .passed (.socket i) (.socket j) (w.names.target (.socket i))).toList
        ((w.setSocket i (some .null)).setSocket j (some self))
  | openOther {n : Int32} (cloexec nonblock : Bool) (hfree : w.table n = none) :
      SocketStep host w [] (w.openFd n true cloexec nonblock)
  | closeOther {n : Int32} {e : Descriptor} (hn : w.table n = some e) (he : e.other = true) :
      SocketStep host w [] (w.closeFd n)

/-- A process without socket values, where other code has opened descriptors. -/
structure SocketWorld.Start (w : SocketWorld ι κ τ) : Prop where
  socket : ∀ i, w.socket i = none
  attempt : ∀ k, w.attempt k = none
  taken : ∀ n, w.taken n = false
  call : ∀ t, w.call t = none
  other : ∀ n e, w.table n = some e → e.other = true ∧ e.opened < w.opened
  unique : ∀ n n' e e', w.table n = some e → w.table n' = some e' → e.opened = e'.opened → n = n'

/-- The process. -/
def socketSystem (ι κ τ : Type*) [DecidableEq ι] [DecidableEq κ] [DecidableEq τ] (host : Host) :
    System (SocketWorld ι κ τ) (CustodyEvent (Holder ι κ τ)) where
  start := SocketWorld.Start
  step := SocketStep host

end Steps

end MojitoSys.Io
