import DistLLM.Raft.StepDown
import DistLLM.Raft.ElectionSafety
import DistLLM.Raft.Commit
import DistLLM.Raft.Replication
import DistLLM.Raft.Progress
import DistLLM.Ha.Fencing
import DistLLM.Pbft.ViewChange
import DistLLM.Pbft.Window
import DistLLM.Scheduler.Accounting
import DistLLM.Scheduler.Ownership
import DistLLM.Scheduler.BatchBudget
import DistLLM.Pool.SwapSpace
import DistLLM.Pool.RoundTrip
import DistLLM.Crdt.Visibility
import DistLLM.Crdt.ReadYourWrites
import DistLLM.Partition.Constraints
import DistLLM.Speculative.Sampling
import DistLLM.Speculative.BatchVerify
import DistLLM.Crdt.GossipConvergence
import DistLLM.SharedLayers.Sharing
import DistLLM.DeltaLog.History
import DistLLM.Wire.RoundTrip
import DistLLM.Scheduler.Running
import DistLLM.Usage.Restarts
import DistLLM.StructuredOutput.Acceptance
import DistLLM.Quota.Fairness
import DistLLM.Reconfig.Rollback
import DistLLM.Kademlia.Lookup
import DistLLM.TieredStore.Freshness
import DistLLM.Paged.Compaction
import DistLLM.Gossip.KeyRotation
import DistLLM.Gossip.Tombstones
import DistLLM.GrammarConstrained.Exactness
import DistLLM.GbnfGrammar.Compilation
import DistLLM.Crdt.Compaction
import DistLLM.Paged.Appending
import DistLLM.Radix.Limits
import DistLLM.Speculative.NgramIndex
import DistLLM.Partition.Evaluation
import DistLLM.Scheduler.InFlight
import DistLLM.Recovery.Capacity
import DistLLM.Speculative.DraftTree
import DistLLM.ConstrainedDecoder.Progress
import DistLLM.ConstrainedDecoder.RegexFsm
import DistLLM.RequestPipeline.Buffer
import DistLLM.RequestPipeline.InFlight
import DistLLM.Scheduler.Promoting
import DistLLM.Kv.Modes
import DistLLM.Kv.Transfer
import DistLLM.HashPrefix.Memory
import DistLLM.RateLimit.Bounds
import DistLLM.RateLimit.Limiter
import DistLLM.ToolCalling.Extraction
import DistLLM.Pool.Refusals
import DistLLM.Kademlia.Splitting
import DistLLM.Kademlia.StoreToken
import DistLLM.Routing.History
import DistLLM.Merkle.Tree
import DistLLM.Recovery.Failures
