import MojitoSys.Io.Poll
import MojitoSys.Util.Probing
import Mathlib.Logic.Function.Basic

/-!
# The epoll backend

The poller of `mjs_epoll.c`: the token table with its tombstones, the entry points over
`epoll_ctl`, and the translation of the events of `epoll_wait`.

The kernel keeps an interest list. `epoll_ctl` behaves as documented: `ADD` of a listed descriptor
is `EEXIST`, `MOD` and `DEL` of an unlisted one are `ENOENT`, and any call may fail with another
error; a call that fails changes nothing. The outcome of a call that could succeed is a parameter
(`Fail`).

## Main definitions

* `Epoller`, `Fail`, `Epoller.epollCtl`.
* `probe`, `Epoller.slot`: `mjs_epoll_slot`.
* `Epoller.ctl`, `Epoller.set`, `Epoller.register`, `Epoller.modify`, `Epoller.unregister`.
* `Epoller.deliver`: the loop of `mjs_epoll_wait`.
-/

namespace MojitoSys.Io.Epoll

open Util

/-- `MJS_EPOLL_TABLE_CAP`. -/
def CAP : ℕ := 256

/-- `MJS_EPOLL_TOMB`. -/
def TOMB : Fd := -2

/-- The poller, with the interest list of the kernel. -/
structure Epoller where
  /-- `wfd`. -/
  wfd : Fd
  /-- `table_fd`: `-1` is an empty slot, `TOMB` a deleted one. -/
  tableFd : ℕ → Fd
  /-- `table_tok`. -/
  tableTok : ℕ → Token
  /-- The interest list: the events watched for a descriptor. -/
  kernel : Fd → Option Mask

/-- An error of `epoll_ctl` that does not depend on the interest list. -/
structure Fail where
  errno : Errno
  ne_exist : errno ≠ .EEXIST
  ne_noent : errno ≠ .ENOENT

/-- The operation of an `epoll_ctl` call. -/
inductive CtlOp
  | add
  | mod
  | del
  deriving DecidableEq, Repr

/-! ### The table -/

/-- The home slot of a descriptor. -/
def hash (fd : Fd) : ℕ := fd.toNat * 2654435761 % 2 ^ 64 &&& (CAP - 1)

/-- The loop of `mjs_epoll_slot`, with the number of steps left, the slot and the first tombstone
seen. -/
def probe (t : ℕ → Fd) (fd : Fd) : ℕ → ℕ → ℕ → ℕ
  | 0, _, _ => CAP
  | n + 1, h, firstTomb =>
    if t h = -1 ∨ t h = fd then
      if t h = -1 ∧ firstTomb < CAP then firstTomb else h
    else
      probe t fd n ((h + 1) &&& (CAP - 1)) (if t h = TOMB ∧ firstTomb = CAP then h else firstTomb)

namespace Epoller

/-- `mjs_epoll_slot`. -/
def slot (p : Epoller) (fd : Fd) : ℕ := probe p.tableFd fd CAP (hash fd) CAP

/-! ### The entry points -/

/-- `epoll_ctl`. -/
def epollCtl (p : Epoller) (fail : Option Fail) (op : CtlOp) (fd : Fd) (events : Mask) :
    Status × Epoller :=
  match fail, op, p.kernel fd with
  | some f, _, _ => (some f.errno, p)
  | none, .add, some _ => (some .EEXIST, p)
  | none, .mod, none => (some .ENOENT, p)
  | none, .del, none => (some .ENOENT, p)
  | none, .add, none => (none, { p with kernel := Function.update p.kernel fd (some events) })
  | none, .mod, some _ => (none, { p with kernel := Function.update p.kernel fd (some events) })
  | none, .del, some _ => (none, { p with kernel := Function.update p.kernel fd none })

/-- The events watched for some interests, with `EPOLLIN`, `EPOLLOUT` and `EPOLLRDHUP`. -/
def watched (interests : Mask) : Mask :=
  flagIf interests READABLE 0x1 ||| flagIf interests WRITABLE 0x4 ||| 0x2000

/-- `mjs_epoll_ctl`. -/
def ctl (p : Epoller) (fail : Option Fail) (op : CtlOp) (fd : Fd) (interests : Mask) :
    Status × Epoller :=
  match op with
  | .del =>
    match p.epollCtl fail .del fd 0 with
    | (some .ENOENT, p) => (none, p)
    | r => r
  | op => p.epollCtl fail op fd (watched interests)

/-- The kernel part of `mjs_epoll_set`: `ADD` falls back to `MOD` on a listed descriptor. -/
def addOrMod (p : Epoller) (f₁ f₂ : Option Fail) (fd : Fd) (interests : Mask) (isAdd : Bool) :
    Status × Epoller :=
  match p.ctl f₁ (if isAdd then .add else .mod) fd interests with
  | (some .EEXIST, p) => if isAdd then p.ctl f₂ .mod fd interests else (some .EEXIST, p)
  | r => r

/-- `mjs_epoll_set`. -/
def set (p : Epoller) (f₁ f₂ : Option Fail) (fd : Fd) (interests : Mask) (token : Token)
    (isAdd : Bool) : Status × Epoller :=
  match checkInterests interests with
  | some err => (some err, p)
  | none =>
    if fd < 0 then (some .EBADF, p)
    else
      let slot := p.slot fd
      if CAP ≤ slot then (some .ENOSPC, p)
      else
        match p.addOrMod f₁ f₂ fd interests isAdd with
        | (some err, p) => (some err, p)
        | (none, p) =>
          (none, { p with
            tableFd := Function.update p.tableFd slot fd
            tableTok := Function.update p.tableTok slot token })

/-- `mjs_epoll_register`. -/
def register (p : Epoller) (f₁ f₂ : Option Fail) (fd : Fd) (interests : Mask) (token : Token) :
    Status × Epoller := p.set f₁ f₂ fd interests token true

/-- `mjs_epoll_modify`. -/
def modify (p : Epoller) (f : Option Fail) (fd : Fd) (interests : Mask) (token : Token) :
    Status × Epoller := p.set f none fd interests token false

/-- `mjs_epoll_unregister`; `none` is an access past the end of the table. -/
def unregister (p : Epoller) (f : Option Fail) (fd : Fd) : Option (Status × Epoller) :=
  if fd < 0 then some (some .EBADF, p)
  else
    let r := p.ctl f .del fd 0
    let slot := r.2.slot fd
    if CAP ≤ slot then none
    else if r.2.tableFd slot = fd then
      some (r.1, { r.2 with tableFd := Function.update r.2.tableFd slot TOMB })
    else some r

/-! ### `mjs_epoll_wait` -/

/-- The event flags of an `epoll_event`, with `EPOLLRDHUP`, `EPOLLHUP` and `EPOLLERR`. -/
def eventFlags (e : Mask) : Mask :=
  flagIf e 0x1 READABLE ||| flagIf e 0x4 WRITABLE ||| flagIf e 0x2010 EOF ||| flagIf e 0x8 ERROR

/-- The body of the loop of `mjs_epoll_wait` on a ready descriptor. -/
def deliverOne (p : Epoller) (cap : ℕ) (events : List PollEvent) (e : Fd × Mask) :
    List PollEvent :=
  if e.1 = p.wfd then events
  else if cap ≤ events.length then events
  else
    let slot := p.slot e.1
    if CAP ≤ slot ∨ p.tableFd slot ≠ e.1 then events
    else events ++ [⟨p.tableTok slot, e.1, eventFlags e.2⟩]

/-- The events that `mjs_epoll_wait` delivers when `epoll_wait` returns `ready`. -/
def deliver (p : Epoller) (cap : ℕ) (ready : List (Fd × Mask)) : List PollEvent :=
  ready.foldl (p.deliverOne cap) []

end Epoller

end MojitoSys.Io.Epoll
