import NvmeofRaft.ByteImage
import NvmeofRaft.StateFrame
import NvmeofRaft.State
import NvmeofRaft.CachedFd
import NvmeofRaft.RingHelpers
import NvmeofRaft.Persist
import NvmeofRaft.Election
import NvmeofRaft.HandleAppendEntries
import NvmeofRaft.Commit
import NvmeofRaft.AppendEntries
import NvmeofRaft.Apply
import NvmeofRaft.Lifecycle
import NvmeofRaft.Cluster
import NvmeofRaft.GuardedRun
import NvmeofRaft.PersistFrame
import NvmeofRaft.View
import NvmeofRaft.SectionView
import NvmeofRaft.LeaderView
import NvmeofRaft.Configuration
import NvmeofRaft.SectionDispatch
import NvmeofRaft.Startup
import NvmeofRaft.Durable
import NvmeofRaft.DurableRuns
import NvmeofRaft.NodeStep
import NvmeofRaft.SlotRecords
import NvmeofRaft.LogEffect
import NvmeofRaft.LogIndex
import NvmeofRaft.BallotEffect
import NvmeofRaft.TermFence
import NvmeofRaft.Authenticity
import NvmeofRaft.ClusterStep
import NvmeofRaft.Majority
import NvmeofRaft.Ballots
import NvmeofRaft.ElectionSafety
import NvmeofRaft.Lines
import NvmeofRaft.FullLog
import NvmeofRaft.Leadership
import NvmeofRaft.Batch
import NvmeofRaft.LogMatching
import NvmeofRaft.Progress
import NvmeofRaft.VoteLedger
import NvmeofRaft.WireCodec
import NvmeofRaft.ApplyOrder
import NvmeofRaft.CommitSignal
import NvmeofRaft.ExtentMap
import NvmeofRaft.RingAllocator
import NvmeofRaft.SlotChain
import NvmeofRaft.SourceFidelity
import NvmeofRaft.RdmaTransport
import NvmeofRaft.ResponsePairing
import NvmeofRaft.BlockCopy
import NvmeofRaft.ReplicationModes
import NvmeofRaft.AppendAnswer
import NvmeofRaft.CopyFootprint
import NvmeofRaft.BatchClamps
import NvmeofRaft.CommitRule
import NvmeofRaft.FastBackoff
import NvmeofRaft.EntryReadBack
import NvmeofRaft.AppendedCommands
import NvmeofRaft.EntryMetas
import NvmeofRaft.AdmittedSlots
import NvmeofRaft.FailedCopy
import NvmeofRaft.OneExtent
import NvmeofRaft.BatchCopy
import NvmeofRaft.ExtentBuild
import NvmeofRaft.HeldLock
import NvmeofRaft.LockOutcome
import NvmeofRaft.PrevInMemory
import NvmeofRaft.AdmittedBatch
import NvmeofRaft.AppendEntriesWire
import NvmeofRaft.BinarySearch
import NvmeofRaft.ExtentAgreement
import NvmeofRaft.ExtentWords
import NvmeofRaft.OversizedBatch
import NvmeofRaft.TrimIndexing
import NvmeofRaft.Commitment
import NvmeofRaft.Confirmation
import NvmeofRaft.LeaderCompleteness
import NvmeofRaft.AgreedCommands
import NvmeofRaft.KeptEntries
import NvmeofRaft.HashStateMachine
import NvmeofRaft.AnsweredCalls
import NvmeofRaft.CallingCluster
import NvmeofRaft.ServerSession
import NvmeofRaft.ClusterSpec
import NvmeofRaft.CallOrder
import NvmeofRaft.ProtoReading
import NvmeofRaft.BlockCopyCalls
import NvmeofRaft.RaftCalls
