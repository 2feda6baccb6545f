import UwuContextDb.Version.Ancestry
import UwuContextDb.Version.ConcurrentCommits
import UwuContextDb.Retrieve.BudgetSpec
import UwuContextDb.Facade.Isolation
import UwuContextDb.Version.TimeTravelSpec
import UwuContextDb.Content.AccessPaging
import UwuContextDb.Content.WriteDedup
import UwuContextDb.Version.ConflictSessions
import UwuContextDb.Core.ConcurrentEmit
import UwuContextDb.Content.GraphRevisions
import UwuContextDb.Content.OutboxTimes
import UwuContextDb.Version.BackendRefs
import UwuContextDb.Content.StoreAgreement
import UwuContextDb.Network.Anonymity
import UwuContextDb.Nats.Replay
import UwuContextDb.Retrieve.PlanCache
import UwuContextDb.Version.MergeMap
import UwuContextDb.Wasm.Token
import UwuContextDb.Facade.ConflictBindings
import UwuContextDb.Session.FinishedTasks
import UwuContextDb.Consolidation.SecurityGate
import UwuContextDb.Facade.GatedEntry
import UwuContextDb.Facade.Shutdown
import UwuContextDb.Version.Squash
import UwuContextDb.Version.DeltaText
import UwuContextDb.Version.CausalDag
import UwuContextDb.Version.Log
import UwuContextDb.Version.TemporalIndex
import UwuContextDb.Version.KnowledgeMerge
import UwuContextDb.Version.JsonDiff
import UwuContextDb.Sleeptime.Archived
import UwuContextDb.Sleeptime.Coverage
import UwuContextDb.Content.Traverse
import UwuContextDb.Core.Similarity
import UwuContextDb.Version.CrdtMerge
import UwuContextDb.Marketplace.SemanticMerge
import UwuContextDb.Retrieve.ParallelMerge
import UwuContextDb.Retrieve.BatchEmbed
import UwuContextDb.Core.CutoverRun
import UwuContextDb.Content.OutboxConvergence
import UwuContextDb.Core.Lsh
import UwuContextDb.Content.Hydration
import UwuContextDb.Content.Centrality
import UwuContextDb.Cdt.TreeSearch
import UwuContextDb.Network.QuotaRun
import UwuContextDb.Network.TopKMerge
import UwuContextDb.Network.DomainSketch
import UwuContextDb.Marketplace.Consensus
import UwuContextDb.Marketplace.Feedback
import UwuContextDb.Marketplace.Influence
import UwuContextDb.Marketplace.Discovery
import UwuContextDb.Marketplace.Phylogeny
import UwuContextDb.Marketplace.Verdict
import UwuContextDb.Network.Provenance
import UwuContextDb.Marketplace.Communities
import UwuContextDb.Consolidation.PromptBudget
import UwuContextDb.Consolidation.Contradictions
import UwuContextDb.Consolidation.Cascade
import UwuContextDb.Consolidation.SelfConsistency
import UwuContextDb.Consolidation.TieredCache
import UwuContextDb.Lifecycle.Attempts
import UwuContextDb.Lifecycle.Repeat
import UwuContextDb.Content.ReadAfterWrite
import UwuContextDb.Content.SqlitePaging
