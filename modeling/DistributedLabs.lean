import DistributedLabs.FreezeShardClerk
import DistributedLabs.InstallShardFailure
import DistributedLabs.KvraftOnRaftLinearizability
import DistributedLabs.KvsrvLinearizability
import DistributedLabs.MapReduceCleanup
import DistributedLabs.MapReduceEquivalence
import DistributedLabs.MapReduceScheduler
import DistributedLabs.PorcupineEvents
import DistributedLabs.RaftApplyChannel
import DistributedLabs.RaftCatchUp
import DistributedLabs.RaftCommitRule
import DistributedLabs.RaftLogCompaction
import DistributedLabs.RaftLogGuarantees
import DistributedLabs.RaftLogMerge
import DistributedLabs.RaftPersistence
import DistributedLabs.RaftSnapshotInstallation
import DistributedLabs.RebalancedMigration
import DistributedLabs.RsmSubmit
import DistributedLabs.ShardAssignment
import DistributedLabs.ShardGroupReplica
import DistributedLabs.ShardIndependence
import DistributedLabs.ShardServerLists
import DistributedLabs.ShardTransfer
import DistributedLabs.ShardedClerkRouting
