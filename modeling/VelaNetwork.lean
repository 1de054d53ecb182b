import VelaNetwork.Library.Quorums
import VelaNetwork.Library.Runs
import VelaNetwork.Node
import VelaNetwork.QuorumIntersection
import VelaNetwork.Sample
import VelaNetwork.EngineNetwork
import VelaNetwork.Agreement
import VelaNetwork.Ledger
import VelaNetwork.Supply
import VelaNetwork.Library.OrderedMaps
import VelaNetwork.NodeSteps
import VelaNetwork.Replay
import VelaNetwork.Authorised
import VelaNetwork.Library.Numbering
import VelaNetwork.Nonces
import VelaNetwork.Integrity
import VelaNetwork.Finality
import VelaNetwork.Cluster
import VelaNetwork.NoFork
import VelaNetwork.Provenance
import VelaNetwork.Certificates
import VelaNetwork.Decisions
import VelaNetwork.Library.Ballots
import VelaNetwork.Phases
import VelaNetwork.Equivocation
import VelaNetwork.Library.Duplex
import VelaNetwork.Channels
import VelaNetwork.Inclusion
import VelaNetwork.Sync
import VelaNetwork.Library.MerkleTrees
import VelaNetwork.Merkle
import VelaNetwork.Accounting
import VelaNetwork.Cooldown
import VelaNetwork.Locks
import VelaNetwork.Proposals
import VelaNetwork.FinalizedChain
import VelaNetwork.NewViews
import VelaNetwork.CommitRule
import VelaNetwork.Admission
import VelaNetwork.Rounds
import VelaNetwork.Journal
import VelaNetwork.Broadcasts
import VelaNetwork.HighestQc
import VelaNetwork.Voters
import VelaNetwork.Library.Traces
import VelaNetwork.Effects
import VelaNetwork.Library.PerfectTrees
import VelaNetwork.MerkleRoots
import VelaNetwork.Duplicates
import VelaNetwork.Requests
import VelaNetwork.SendTx
import VelaNetwork.Queries
import VelaNetwork.Balances
import VelaNetwork.History
import VelaNetwork.Addresses
import VelaNetwork.CheckedApply
import VelaNetwork.Overflow
import VelaNetwork.Signatures
import VelaNetwork.BlockStore
import VelaNetwork.Library.Selections
import VelaNetwork.Mempool
import VelaNetwork.CurrentRound
import VelaNetwork.Library.JavaScript
import VelaNetwork.Wallet
import VelaNetwork.Library.Gossip
import VelaNetwork.SyncRequests
import VelaNetwork.Independence
import VelaNetwork.ClosedRounds
import VelaNetwork.SynchronousRounds
import VelaNetwork.Library.SharedLogs
import VelaNetwork.InTurn
import VelaNetwork.Library.Traffic
import VelaNetwork.Traffic
import VelaNetwork.Lockstep
import VelaNetwork.Custody
import VelaNetwork.CatchUp
import VelaNetwork.Explorer
import VelaNetwork.Clients
import VelaNetwork.Cli
import VelaNetwork.KeyedPool
import VelaNetwork.GossipRuns
import VelaNetwork.Redelivery
import VelaNetwork.Library.Conduits
import VelaNetwork.Tasks
