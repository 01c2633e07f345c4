import Mathlib.Data.Int.Notation
import Mathlib.Data.Nat.Notation

/-!
# Poller vocabulary

What the three readiness backends share: the status of a call, the interest bits and their check,
and a delivered event.
-/

namespace MojitoSys.Io

/-- The error numbers that the backends name, and every other one the kernel may return. -/
inductive Errno
  | EINVAL
  | EBADF
  | ENOSPC
  | EAGAIN
  | ENOENT
  | EEXIST
  | EFAULT
  | other (code : ℕ)
  deriving DecidableEq, Repr

/-- `ENOMEM`. -/
def Errno.ENOMEM : Errno := .other 12

/-- `ENOSYS`. -/
def Errno.ENOSYS : Errno := .other 38

/-- The status of an entry point: `none` is `0`, `some e` is `-e`. -/
abbrev Status := Option Errno

/-- A descriptor. -/
abbrev Fd := ℤ

/-- An opaque registration token. -/
abbrev Token := BitVec 64

/-- A mask of interest or event bits. -/
abbrev Mask := BitVec 32

/-- `MJS_POLL_READABLE`. -/
def READABLE : Mask := 0x1

/-- `MJS_POLL_WRITABLE`. -/
def WRITABLE : Mask := 0x2

/-- `MJS_POLL_EOF`. -/
def EOF : Mask := 0x4

/-- `MJS_POLL_ERROR`. -/
def ERROR : Mask := 0x8

/-- The check of the interests, the same in the three backends: only the two registerable bits,
and at least one of them. -/
def checkInterests (interests : Mask) : Status :=
  if interests &&& ~~~(READABLE ||| WRITABLE) ≠ 0 then some .EINVAL
  else if interests = 0 then some .EINVAL
  else none

/-- The fragment `if ((m & test) != 0) flags |= flag`. -/
def flagIf (m test flag : Mask) : Mask := if m &&& test ≠ 0 then flag else 0

/-- `mjs_poll_event`. -/
structure PollEvent where
  token : Token
  fd : Fd
  events : Mask
  deriving DecidableEq, Repr

end MojitoSys.Io
