import SoftGpu.Machine
import SoftGpu.Ring
import SoftGpu.RingInvariant
import SoftGpu.RingProtocol
import SoftGpu.KeyMap
import SoftGpu.VramAlloc
import SoftGpu.Tiling
import SoftGpu.Mmu
import SoftGpu.Tlb
import SoftGpu.Binding
import SoftGpu.Managed
import SoftGpu.Residency
import SoftGpu.Mapping
import SoftGpu.Driver
import SoftGpu.FrameOwnership
import SoftGpu.DriverSteps
import SoftGpu.Prefetch
import SoftGpu.OneWay
import SoftGpu.Paging
import SoftGpu.PagingInvariant
import SoftGpu.Eviction
import SoftGpu.TwoWay
import SoftGpu.Staging
import SoftGpu.StagingPool
import SoftGpu.Submit
import SoftGpu.SubmitInvariant
import SoftGpu.SubmitRuns
import SoftGpu.WaitFence
import SoftGpu.StreamOrder
import SoftGpu.EventOrder
import SoftGpu.WaitGraph
import SoftGpu.DeadlockFree
import SoftGpu.Interrupt
import SoftGpu.Gating
import SoftGpu.Doorbell
import SoftGpu.Wakeup
import SoftGpu.Command
import SoftGpu.Patch
import SoftGpu.Execute
import SoftGpu.Backing
import SoftGpu.Replay
import SoftGpu.Attempts
import SoftGpu.CopyExact
import SoftGpu.Kernels
import SoftGpu.Compute
import SoftGpu.Release
import SoftGpu.ReleaseSteps
import SoftGpu.Retained
import SoftGpu.Oversized
import SoftGpu.DeferredFree
import SoftGpu.SubmitFree
import SoftGpu.Runlist
import SoftGpu.Preempt
import SoftGpu.RoundRobin
import SoftGpu.Park
import SoftGpu.Kmod
import SoftGpu.Clock
import SoftGpu.HostFault
import SoftGpu.Retry
import SoftGpu.RetryAttempt
import SoftGpu.RetryEnds
import SoftGpu.HostFaultCycle
import SoftGpu.Pins
import SoftGpu.PriorityFlag
import SoftGpu.Lru
import SoftGpu.TlbLru
import SoftGpu.SlotLog
import SoftGpu.Missed
import SoftGpu.Rollback
import SoftGpu.Newcomers
import SoftGpu.FaultService
import SoftGpu.MatrixProduct
import SoftGpu.FaultStreams
import SoftGpu.WorkingSet
import SoftGpu.LastResort
import SoftGpu.Relay
import SoftGpu.StagedCopy
import SoftGpu.StagedInvariant
import SoftGpu.StagedSteps
import SoftGpu.StagedTurns
import SoftGpu.StagedExact
import SoftGpu.DirectCopy
import SoftGpu.TaggedWord
import SoftGpu.PteWord
import SoftGpu.Answers
import SoftGpu.MmuWords
import SoftGpu.MmuRefine
import SoftGpu.TwoPhase
import SoftGpu.Footprint
import SoftGpu.Transfer
import SoftGpu.Concurrent
import SoftGpu.HappensBefore
import SoftGpu.CallOrder
import SoftGpu.Program
