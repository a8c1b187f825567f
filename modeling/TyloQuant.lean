import TyloQuant.PrefixCache.FreshLoads
import TyloQuant.PrefixCache.Leases
import TyloQuant.PrefixCache.Clear
import TyloQuant.PrefixCache.TailRuns
import TyloQuant.MoeCache.Residencies
import TyloQuant.QsaKv.Rows
import TyloQuant.QsaOffload.Attention
import TyloQuant.PagedKv.Allocator
import TyloQuant.Engine.KvAdmission
import TyloQuant.Mtp.Exactness
import TyloQuant.Mtp.Agreement
import TyloQuant.SessionSnapshots.Runs
import TyloQuant.JobManager.Orphans
import TyloQuant.SessionStore.Revisions
import TyloQuant.JobStore.StateHistory
import TyloQuant.Protocol.ReasoningStream
import TyloQuant.Protocol.DsmlStream
import TyloQuant.RuntimePool.RequestSlotRuns
import TyloQuant.StdioClient.Runs
import TyloQuant.TextEmitter.Chunking
import TyloQuant.PrefixCache.BlockFile
import TyloQuant.ContinuousBatch.Runs
import TyloQuant.Shards.Prepend
import TyloQuant.Shards.Finalize
import TyloQuant.TensorParallel.Slices
import TyloQuant.MoeCache.ArenaPlans
import TyloQuant.MoeCache.PinnedArena
import TyloQuant.Scheduler.Delivery
import TyloQuant.RequestExecutor.Lifecycle
import TyloQuant.MoeDispatch.Reuse
import TyloQuant.Nvq.Unpacking
import TyloQuant.Tq.Selections
import TyloQuant.Tq.RowSelection
import TyloQuant.TqExpertCache.Preload
import TyloQuant.Mxfp4Sq.RowData
import TyloQuant.Fp8Sq.Slices
import TyloQuant.Fp8Sq.Agreement
import TyloQuant.Formats.Mxfp4SqSelect
import TyloQuant.Materialize.Resume
import TyloQuant.NgramHash.Runs
import TyloQuant.MemoryBudget.OverCommit
import TyloQuant.NintRowPipeline.Calls
