import Jellybean.Framework.System
import Jellybean.Framework.Linearizability
import Jellybean.Framework.Crc
import Jellybean.Framework.CrcDistance
import Jellybean.Framework.Custody
import Jellybean.Framework.Heap
import Jellybean.Framework.Align
import Jellybean.Framework.Rounding
import Jellybean.Framework.Ranks
import Jellybean.Framework.RunningMax
import Jellybean.Framework.SideCounter
import Jellybean.Framework.Linked
import Jellybean.Framework.Json
import Jellybean.Framework.JsonRules
import Jellybean.Framework.Bindings
import Jellybean.Concurrency.MpmcQueue
import Jellybean.Concurrency.MpmcQueueInvariant
import Jellybean.Concurrency.MpmcQueueTickets
import Jellybean.Concurrency.MpmcQueueFifo
import Jellybean.Concurrency.MpmcQueuePhases
import Jellybean.Concurrency.SpscQueue
import Jellybean.Concurrency.SpscQueueInvariant
import Jellybean.Concurrency.SpscQueueSize
import Jellybean.Concurrency.SpscQueueLinearizable
import Jellybean.Concurrency.Seqlock
import Jellybean.Concurrency.SeqlockInvariant
import Jellybean.Concurrency.SeqlockThrows
import Jellybean.Concurrency.SeqlockLinearizable
import Jellybean.Scheduler.WorkStealingDeque
import Jellybean.Scheduler.WorkStealingDequeInvariant
import Jellybean.Scheduler.WorkStealingDequeLinearizable
import Jellybean.Inference.Tensor
import Jellybean.Inference.TorchBackend
import Jellybean.Inference.BatchResponses
import Jellybean.Model.ModelConfig
import Jellybean.Model.ModelConfigFallback
import Jellybean.Model.ModelConfigFile
import Jellybean.Model.ModelRepository
import Jellybean.Model.ModelRepositoryIsolation
import Jellybean.Model.ModelRepositoryCounters
import Jellybean.Model.ModelExecutor
import Jellybean.Model.ModelExecutorInvariant
import Jellybean.Model.ModelExecutorCustody
import Jellybean.Model.ModelExecutorPromises
import Jellybean.Model.ModelExecutorOnce
import Jellybean.Model.ModelExecutorWakeup
import Jellybean.Model.ModelExecutorLifecycle
import Jellybean.Model.ModelExecutorStop
import Jellybean.Model.ModelExecutorMetrics
import Jellybean.Model.ModelExecutorBatching
import Jellybean.Inference.Runtime
import Jellybean.Inference.RuntimeCustody
import Jellybean.Inference.RuntimeInvariant
import Jellybean.Inference.RuntimeRouting
import Jellybean.Inference.RuntimeShutdown
import Jellybean.Server.WireProtocol
import Jellybean.Server.SessionRead
import Jellybean.Server.SessionWrite
import Jellybean.Server.SessionPayload
import Jellybean.Server.SessionValidation
import Jellybean.Server.SessionLifetime
import Jellybean.Server.SessionProgress
import Jellybean.Server.SessionHandles
import Jellybean.Server.InferClient
import Jellybean.Server.Conversation
import Jellybean.Server.ConversationLockstep
import Jellybean.Server.Service
import Jellybean.Server.ServiceInvariant
import Jellybean.Server.ServiceReplies
import Jellybean.Server.ServerConfig
import Jellybean.Server.Startup
import Jellybean.Proto.Crc32c
import Jellybean.Proto.Codec
import Jellybean.Proto.RoundTrip
import Jellybean.Proto.Crc32cAgreement
import Jellybean.Proto.FrameCorruption
import Jellybean.Proto.FrameDistance
import Jellybean.Proto.FrameReencode
import Jellybean.Actor.Message
import Jellybean.Actor.Mailbox
import Jellybean.Actor.MessageCustody
import Jellybean.Actor.MailboxRuns
import Jellybean.Memory.Arena
import Jellybean.Memory.ArenaInvariant
import Jellybean.Memory.ArenaRanges
import Jellybean.Memory.ArenaChain
import Jellybean.Memory.ArenaBytes
import Jellybean.Memory.ArenaRecycling
import Jellybean.Memory.ArenaBounds
import Jellybean.Memory.Slab
import Jellybean.Memory.SlabInvariant
import Jellybean.Memory.SlabSlots
import Jellybean.Memory.SlabMoves
import Jellybean.Memory.SlabThrows
import Jellybean.Reactor.ContinuationPool
import Jellybean.Reactor.ContinuationPoolRuns
import Jellybean.Reactor.ContinuationPoolWakeup
import Jellybean.Reactor.FutureAwaitable
import Jellybean.Reactor.TaskAwait
import Jellybean.Reactor.ReactorQueues
import Jellybean.Reactor.ReactorQueuesInvariant
import Jellybean.Reactor.ReactorFibers
import Jellybean.Reactor.ExternalPending
import Jellybean.Reactor.QueueCounters
import Jellybean.Reactor.TimerWheel
import Jellybean.Reactor.TimerWheelRuns
import Jellybean.Reactor.TimerWheelDelays
import Jellybean.Reactor.ReactorTimers
import Jellybean.Reactor.ReactorTimersInvariant
import Jellybean.Reactor.TimerWheelCallbacks
import Jellybean.Telemetry.LatencyHistogram
import Jellybean.Telemetry.LatencyHistogramRuns
import Jellybean.Telemetry.LatencyHistogramRank
import Jellybean.Telemetry.MetricsExport
import Jellybean.Telemetry.MetricsServer
import Jellybean.Telemetry.MetricsServerOwner
import Jellybean.Telemetry.MetricsServerRuns
import Jellybean.Telemetry.MetricsServerStop
