import ResDB.Library.WeightedQuorum
import ResDB.Library.AssocMap
import ResDB.Library.Run
import ResDB.Library.MachineInt
import ResDB.Library.TableCode
import ResDB.Library.LinkedLog
import ResDB.Common.Crypto
import ResDB.HotStuff.Message
import ResDB.HotStuff.ProposalManager
import ResDB.HotStuff.VoteStore
import ResDB.HotStuff.SlotReplica
import ResDB.HotStuff.SlotSystem
import ResDB.HotStuff.FaultFree
import ResDB.HotStuff.CommitLog
import ResDB.TdHotstuff.Weights
import ResDB.TdHotstuff.Leader
import ResDB.TdHotstuff.QuorumCert
import ResDB.TdHotstuff.Votes
import ResDB.TdHotstuff.Protocol
import ResDB.TdHotstuff.Chain
import ResDB.SlotHs1.Protocol
import ResDB.HotStuff.GapFree
import ResDB.TdHotstuff.Agreement
import ResDB.TdHotstuff.Binding
import ResDB.HotStuff.Chained
import ResDB.Hs.ProposalManager
import ResDB.Hs1.ProposalManager
import ResDB.Hs2.ProposalManager
import ResDB.HotStuff.CertifiedCommit
import ResDB.Config.ReplicaCounts
import ResDB.HotStuff.CommitOnce
import ResDB.Hs1.Speculation
import ResDB.HotStuff.Window
import ResDB.HotStuff.InOrderDelivery
import ResDB.HotStuff.ViewReplica
import ResDB.HotStuff.ViewSystem
import ResDB.HotStuff.ViewFaultFree
import ResDB.HotStuff.OneProposal
import ResDB.HotStuff.ViewGapFree
import ResDB.Library.ThreeChain
import ResDB.HotStuff.ViewSignatures
import ResDB.HotStuff.ViewVoting
import ResDB.Hs.Agreement
import ResDB.Pbft.Checkpoint
import ResDB.Pbft.Collector
import ResDB.Library.SortedMap
import ResDB.Pbft.Request
import ResDB.Pbft.Replica
import ResDB.Pbft.ViewChange
import ResDB.Pbft.NewView
import ResDB.Library.HashChain
import ResDB.Pbft.StateTransfer
import ResDB.Pbft.OrderedExecution
import ResDB.Pbft.System
import ResDB.Pbft.Commits
import ResDB.Pbft.Agreement
import ResDB.Pbft.NewPrimary
import ResDB.Pbft.Reports
import ResDB.Pbft.NewViewAccepted
import ResDB.Library.Marking
import ResDB.Utxo.Ledger
import ResDB.Utxo.Balances
import ResDB.Recovery.Log
import ResDB.Recovery.NothingLost
import ResDB.Utxo.Authorisation
import ResDB.Library.Service
import ResDB.Storage.MemoryDB
import ResDB.Storage.ResLevelDB
import ResDB.Library.WriteBuffer
import ResDB.Storage.ResRocksDB
import ResDB.Storage.Batching
import ResDB.Pbft.ViewChangeSafety
import ResDB.TdHotstuff.VoteCount
import ResDB.TdHotstuff.NoVoteLost
import ResDB.SlotHs1.Quorum
import ResDB.TdHotstuff.Pacemaker
import ResDB.TdHotstuff.Watermark
import ResDB.HotStuff.LockOrder
import ResDB.HotStuff.Conservation
import ResDB.HotStuff.WireFormat
import ResDB.HotStuff.HashBinding
import ResDB.Library.Wire
import ResDB.Library.Intervals
import ResDB.Library.Memo
import ResDB.TdHotstuff.Election
import ResDB.Client.PerformanceManager
import ResDB.TdHotstuff.BackPressure
import ResDB.Library.PartnerRing
import ResDB.Pbft.SequenceWindow
import ResDB.Library.Backing
import ResDB.Pbft.ResponseManager
import ResDB.Pbft.ProxyBatching
import ResDB.Pbft.ProxyCompletion
import ResDB.Client.ResponseManager
import ResDB.Client.ResultIntegrity
import ResDB.Pbft.VotedExecution
import ResDB.Pbft.DeliveryOrder
import ResDB.Library.Threads
import ResDB.Pbft.CollectorThreads
import ResDB.Pbft.UninterruptedCall
import ResDB.Pbft.CheckpointDigest
import ResDB.Execution.DuplicateManager
import ResDB.Pbft.RejectedProposals
import ResDB.Execution.DuplicateWindow
import ResDB.Storage.TopHistory
import ResDB.Utxo.SingleSpend
import ResDB.Library.Framing
import ResDB.Recovery.Bytes
import ResDB.Recovery.TornWrites
import ResDB.Common.LruCache
import ResDB.Recovery.RangeTracking
import ResDB.Contract.Deployment
import ResDB.Network.Channel
import ResDB.Network.Delivery
import ResDB.Zzy.CommitQueue
import ResDB.Poe.Protocol
import ResDB.Poe.Execution
import ResDB.Geo.Certificates
import ResDB.Library.Sequencer
import ResDB.Geo.GlobalExecutor
import ResDB.Geo.GlobalOrder
import ResDB.Library.Session
import ResDB.Library.Table
import ResDB.Tpcc.Database
import ResDB.Tpcc.Executor
import ResDB.Tpcc.Orders
import ResDB.Tpcc.Blocking
import ResDB.Execution.Preparation
import ResDB.Library.Tokens
import ResDB.Execution.Speculation
import ResDB.Network.Heartbeat
import ResDB.Pbft.Intake
