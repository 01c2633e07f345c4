import Mathlib.Data.Int.Notation
import Mathlib.Data.Nat.Notation

/-!
# Statuses

The calls of the synchronisation and of the thread layer return `0`, or a negative error number,
and the context wrapper raises on a negative one.
-/

namespace MojitoSys

/-- The error numbers that the code of these layers names, and all others. -/
inductive Errno
  | EINVAL
  | EFAULT
  | EBUSY
  | ETIMEDOUT
  | ENOMEM
  | EAGAIN
  | other (code : ℕ)
  deriving DecidableEq, Repr

/-- `EIO`. -/
def EIO : Errno := .other 5

/-- `ENOSPC`. -/
def Errno.ENOSPC : Errno := .other 28

/-- `ENOTSUP` on Linux. -/
def Errno.ENOTSUP : Errno := .other 95

/-- The number of `EINVAL`, for the code that returns it in a register. -/
def EINVAL : ℤ := 22

/-- The status of a call: `none` is `0`, `some e` is `-e`. -/
abbrev Status := Option Errno

end MojitoSys
