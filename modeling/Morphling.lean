import Morphling.Matrix.Product
import Morphling.Server.Completion
import Morphling.Server.Stranded
import Morphling.Gate.Queue
import Morphling.Hooks.Transparent
import Morphling.Hooks.Gradient
import Morphling.Gpu.Budget
import Morphling.Wire.Bounds
import Morphling.Wire.Framing
import Morphling.Client.Protocol
import Morphling.Client.Eviction
import Morphling.Scheduler.WorkerContract
import Morphling.Scheduler.SmNotifySource
import Morphling.Timer.VirtualClock
import Morphling.Network.UeventLoop
import Morphling.Network.TimerQueueInv
import Morphling.Scheduler.GreenContext
import Morphling.Checkpoint.CheckpointHandle
import Morphling.Gate.QueuedWork
import Morphling.Server.Accounting
import Morphling.Server.Quarantine
import Morphling.Server.Lifetime
import Morphling.Scheduler.LdpcTrace
import Morphling.Session.FlopsProbe
import Morphling.Server.SchedPolicy
import Morphling.Checkpoint.AioOnce
import Morphling.Checkpoint.AioWait
import Morphling.Scheduler.WorkerShutdown
import Morphling.Network.ZeroCopy
import Morphling.Checkpoint.ShmOffsets
import Morphling.Checkpoint.IndexFile
import Morphling.Analysis.Violations
import Morphling.Analysis.MergeLogs
import Morphling.Analysis.SyncVirtualTime
import Morphling.Memory.CachingAllocator
import Morphling.Analysis.BatchOrder
import Morphling.Server.VtimeLog
import Morphling.Training.Equivalence
