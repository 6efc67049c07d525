import Sglang.MemCache.RadixIsolation
import Sglang.HiCache.LayerDone
import Sglang.HiCache.Hf3fsRestart
import Sglang.Managers.PrefillIdle
import Sglang.Managers.PrefillBudget
import Sglang.Managers.DetokenizerIsolation
import Sglang.Router.LoadCounters
import Sglang.Managers.FutureTokens
import Sglang.Managers.TokenizerForgets
import Sglang.Managers.LoraCounters
import Sglang.Disaggregation.MooncakeStatus
import Sglang.Disaggregation.PrefillRelease
import Sglang.Managers.GrammarQueue
import Sglang.Managers.Communicator
import Sglang.Sampling.Penalties
import Sglang.Managers.Intake
import Sglang.Router.CacheAware
import Sglang.MemCache.KvEvents
import Sglang.Router.IncrementalDecode
import Sglang.Speculative.TokenBitmask
import Sglang.Constrained.ReasonerGrammar
import Sglang.Disaggregation.PipelineStages
import Sglang.Managers.DecodeMemory
import Sglang.Managers.DpDispatch
import Sglang.Managers.HiddenStates
import Sglang.Managers.SessionTree
import Sglang.Lora.MemPool
import Sglang.Eplb.Rebalance
import Sglang.Managers.IgnoreEos
import Sglang.Managers.SchedulePolicy
import Sglang.MemCache.SwaChunkCache
import Sglang.Managers.RwLock
import Sglang.Router.CircuitBreaker
import Sglang.Router.TokenBucket
import Sglang.Parsers.Harmony
