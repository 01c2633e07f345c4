import MojitoSys.Ctx.AArch64.Refinement
import MojitoSys.Ctx.AArch64.SwitchedOut
import MojitoSys.Ctx.X86.RoundTrip
import MojitoSys.Ctx.FinishHook
import MojitoSys.Ctx.Nested
import MojitoSys.Ctx.ExclusiveResume
import MojitoSys.Ctx.WrapperSimulation
import MojitoSys.Abi.DynamicLibrary
import MojitoSys.Io.UringDrain
import MojitoSys.Io.UringWake
import MojitoSys.Io.UringSpurious
import MojitoSys.Io.UringLifetime
import MojitoSys.Io.Agreement
import MojitoSys.Io.Timeout
import MojitoSys.Io.Ipv4Text
import MojitoSys.Io.SocketCustody
import MojitoSys.Memory.StackCustody
import MojitoSys.Memory.StackGeometry
import MojitoSys.Memory.PageMap
import MojitoSys.Sync.Semaphore
import MojitoSys.Sync.Event
import MojitoSys.Sync.FallbackContract
import MojitoSys.Sync.Fifo
import MojitoSys.Sync.WaiterList
import MojitoSys.Sync.ObjectLifetime
import MojitoSys.Sync.Futex
import MojitoSys.Io.UringRings
import MojitoSys.Thread.Tls
import MojitoSys.Thread.FailedCalls
import MojitoSys.Thread.Affinity
import MojitoSys.Thread.Name
import MojitoSys.Thread.CpuTopology
import MojitoSys.Time.Monotonic
import MojitoSys.Time.Clock
import MojitoSys.Io.PollerLaw
