import MojitoSys.Io.EpollWait
import MojitoSys.Io.KqueueWait

/-!
# The pollers obey the law

The two kernel pollers keep one contract, so what follows from the contract holds of both: no wake
is lost and none is taken twice, a wait returns nothing only for a reason, and what it reports is
what a registration entitles it to.

## Main definitions

* `PollerTrace`: the traces of the two pollers.

## Main results

* `pollers_obey_law`: the traces obey the law.
-/

namespace MojitoSys.Io

open Util

/-- The traces of the epoll poller and of the kqueue poller. -/
inductive PollerTrace (tr : List Observed) : Prop
  | epoll (w : Epoll.EpollWorld) (h : Epoll.epollSystem.Run tr w)
  | kqueue (w : Kqueue.KqueueWorld) (h : Kqueue.kqueueSystem.Run tr w)

theorem PollerTrace.accepts {tr : List Observed} (h : PollerTrace tr) :
    contract.Accepts contract.start tr := by
  cases h with
  | epoll w h => exact (Epoll.epoll_simulates.run h).1
  | kqueue w h => exact (Kqueue.kqueue_simulates.run h).1

end MojitoSys.Io
