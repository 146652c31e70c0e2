import Rqmd.Convergence
import Rqmd.UpdateRuns
import Rqmd.Embed
import Rqmd.Lib.Transition
import Rqmd.Moves
import Rqmd.EmbedSteps
import Rqmd.EmbedRuns
import Rqmd.VectorRows
import Rqmd.Coverage
import Rqmd.Consistency
import Rqmd.Commands
import Rqmd.Room
import Rqmd.VectorIds
import Rqmd.Lock
import Rqmd.LockExclusion
import Rqmd.LockRelease
import Rqmd.Purge
import Rqmd.Reload
import Rqmd.Writers
import Rqmd.EmbedOutcome
import Rqmd.Pending
import Rqmd.Backing
import Rqmd.Trails
import Rqmd.Donors
import Rqmd.Upkeep
import Rqmd.Chunking
import Rqmd.Frontmatter
import Rqmd.ChunkSpans
import Rqmd.TableHeaders
import Rqmd.Sections
import Rqmd.Fusion
import Rqmd.Search
import Rqmd.Hybrid
import Rqmd.Results
import Rqmd.Scope
import Rqmd.Fidelity
import Rqmd.Lib.Recency
import Rqmd.ModelCache
import Rqmd.CacheRecency
import Rqmd.QueryCache
import Rqmd.CacheTransparency
import Rqmd.Daemon
import Rqmd.DaemonStop
import Rqmd.LockFailure
import Rqmd.Pidfile
import Rqmd.Lib.Paging
import Rqmd.SearchPages
import Rqmd.Holding
import Rqmd.Refresh
import Rqmd.Timeline
import Rqmd.Watch
import Rqmd.Contents
import Rqmd.StatSkip
import Rqmd.Rename
import Rqmd.Liveness
import Rqmd.Rounds
import Rqmd.Breaks
import Rqmd.FirstChunk
import Rqmd.Document
import Rqmd.Snippet
import Rqmd.Evidence
import Rqmd.Deletes
import Rqmd.Lib.Like
import Rqmd.MultiGet
import Rqmd.MultiGetReport
import Rqmd.Lib.Ranking
import Rqmd.Widening
import Rqmd.FusionLaws
import Rqmd.VectorLeg
import Rqmd.Comparator
import Rqmd.DocumentedOrder
import Rqmd.SectionBudget
import Rqmd.Intent
import Rqmd.Exclusion
import Rqmd.Similar
import Rqmd.CjkSearch
import Rqmd.Versions
import Rqmd.Rebuild
import Rqmd.Headings
import Rqmd.BatchInsert
import Rqmd.EvalMetrics
import Rqmd.Lib.Forest
import Rqmd.PrunedWalk
import Rqmd.CsvOutput
import Rqmd.DocumentWindow
import Rqmd.Lib.Decimal
import Rqmd.Lib.Gregorian
import Rqmd.Timestamps
import Rqmd.ContextTargets
import Rqmd.Highlight
import Rqmd.KeyBackfill
import Rqmd.Reuse
import Rqmd.Recovery
import Rqmd.FenceScan
import Rqmd.FtsRecovery
import Rqmd.HttpFront
import Rqmd.IdleExit
import Rqmd.LeadingComments
import Rqmd.GrammarPrints
import Rqmd.ModelResidency
import Rqmd.ModelDownloads
import Rqmd.Signals
import Rqmd.Hook
import Rqmd.References
import Rqmd.Inference
import Rqmd.OrtBatch
