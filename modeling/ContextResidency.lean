import ContextResidency.HbmInclusion
import ContextResidency.HostCapacity
import ContextResidency.FreePrefill
import ContextResidency.Rollback
import ContextResidency.Closing
import ContextResidency.Uncontended
import ContextResidency.WorkingSet
import ContextResidency.HostGrowth
import ContextResidency.Library.Lru
import ContextResidency.LruInclusion
import ContextResidency.EnginePolicy
import ContextResidency.RoleBias
import ContextResidency.EngineCalls
import ContextResidency.EngineFacts
import ContextResidency.InFlight
import ContextResidency.Storing
import ContextResidency.AtomicEviction
import ContextResidency.EvictionOrder
import ContextResidency.Leases
import ContextResidency.ReuseEstimate
import ContextResidency.StoreStep
import ContextResidency.OwnContext
import ContextResidency.ChainEviction
import ContextResidency.Ranking
import ContextResidency.Foresight
import ContextResidency.Library.Paging
import ContextResidency.Oracle
import ContextResidency.ChainOrder
import ContextResidency.GreedyEviction
import ContextResidency.AdmissionGate
import ContextResidency.HbmPool
import ContextResidency.HbmFootprint
import ContextResidency.Chains
import ContextResidency.PromptChains
import ContextResidency.Namespaces
import ContextResidency.BlockRecords
import ContextResidency.InterArrival
import ContextResidency.OracleEviction
import ContextResidency.EngineHints
import ContextResidency.HintDecoding
import ContextResidency.Library.Fifo
import ContextResidency.Library.Ties
import ContextResidency.Lifetimes
import ContextResidency.QueueTiming
import ContextResidency.ReuseProbability
import ContextResidency.Transcript
import ContextResidency.TranscriptFaults
import ContextResidency.VictimChoice
import ContextResidency.TranscriptTurns
import ContextResidency.PrefillCurve
import ContextResidency.RollbackFlags
import ContextResidency.TraceFile
import ContextResidency.ClockOrigin
import ContextResidency.Reacquires
import ContextResidency.LruRegret
import ContextResidency.ColdStart
import ContextResidency.Gauges
import ContextResidency.TtlAsLru
import ContextResidency.TimeOrder
import ContextResidency.ReportTable
import ContextResidency.BreakEven
import ContextResidency.Invalidations
import ContextResidency.Sessions
import ContextResidency.EngineClock
import ContextResidency.Continuation
import ContextResidency.Launch
