import AuthStorage.Library.BigEndianBits
import AuthStorage.Library.BitReversal
import AuthStorage.Library.BlockHistory
import AuthStorage.Library.Checks
import AuthStorage.Library.FiniteMap
import AuthStorage.Library.LittleEndian
import AuthStorage.Library.PaddedMerkle
import AuthStorage.Library.Partial
import AuthStorage.Library.PrefixCode
import AuthStorage.Library.RadixTrie
import AuthStorage.Library.RecordCode
import AuthStorage.Library.ResidueClasses
import AuthStorage.Library.Rlp
import AuthStorage.Library.RlpNumbers
import AuthStorage.Library.RootsOfUnity
import AuthStorage.Lvmt.AMTCommitment
import AuthStorage.Lvmt.AMTCompleteness
import AuthStorage.Lvmt.AMTOpenings
import AuthStorage.Lvmt.AMTVerify
import AuthStorage.Lvmt.AMTView
import AuthStorage.Lvmt.AMTree
import AuthStorage.Lvmt.BatchMap
import AuthStorage.Lvmt.CacheFamily
import AuthStorage.Lvmt.CommitFaults
import AuthStorage.Lvmt.CommitTotal
import AuthStorage.Lvmt.Crypto
import AuthStorage.Lvmt.Forest
import AuthStorage.Lvmt.ForestChanges
import AuthStorage.Lvmt.ForestCommit
import AuthStorage.Lvmt.ForestOpenings
import AuthStorage.Lvmt.ForestRecords
import AuthStorage.Lvmt.ForestRefinement
import AuthStorage.Lvmt.ForestReopen
import AuthStorage.Lvmt.KeyBits
import AuthStorage.Lvmt.LeafValues
import AuthStorage.Lvmt.Ledger
import AuthStorage.Lvmt.LedgerRecords
import AuthStorage.Lvmt.LedgerRuns
import AuthStorage.Lvmt.LvmtDB
import AuthStorage.Lvmt.LvmtReopen
import AuthStorage.Lvmt.Merkle
import AuthStorage.Lvmt.MerkleArchive
import AuthStorage.Lvmt.MerkleProofs
import AuthStorage.Lvmt.MultiLayerAmt
import AuthStorage.Lvmt.NodeIndex
import AuthStorage.Lvmt.PowCaches
import AuthStorage.Lvmt.ProofReplay
import AuthStorage.Lvmt.ProofShard
import AuthStorage.Lvmt.ProofsAccepted
import AuthStorage.Lvmt.ProveParams
import AuthStorage.Lvmt.Serde
import AuthStorage.Lvmt.SerdeDerive
import AuthStorage.Lvmt.SerdeRoundTrip
import AuthStorage.Lvmt.ShardIndependence
import AuthStorage.Lvmt.SingleAmt
import AuthStorage.Lvmt.SlotCapacity
import AuthStorage.Lvmt.Slots
import AuthStorage.Lvmt.SlotsExclusive
import AuthStorage.Lvmt.Storage
import AuthStorage.Lvmt.TreeCaches
import AuthStorage.Lvmt.VerifyTotal
import AuthStorage.Lvmt.VersionAgreement
import AuthStorage.Lvmt.VersionPacking
import AuthStorage.Lvmt.VersionTree
import AuthStorage.Lvmt.VersionTreeRuns
import AuthStorage.ParityJournaldb.Batch
import AuthStorage.ParityJournaldb.MemoryDb
import AuthStorage.ParityJournaldb.OverlayRecentDb
import AuthStorage.ParityJournaldb.RecentMemory
import AuthStorage.ParityJournaldb.RecentRefinement
import AuthStorage.ParityJournaldb.RecentReopen
import AuthStorage.ParityJournaldb.RecentRuns
import AuthStorage.ParityJournaldb.Traits
import AuthStorage.ParityJournaldb.Util
import AuthStorage.RainblockTrie.Accounts
import AuthStorage.RainblockTrie.Boundary
import AuthStorage.RainblockTrie.Codec
import AuthStorage.RainblockTrie.CommitAccounts
import AuthStorage.RainblockTrie.CommitStands
import AuthStorage.RainblockTrie.CommitWrites
import AuthStorage.RainblockTrie.Counts
import AuthStorage.RainblockTrie.Everywhere
import AuthStorage.RainblockTrie.Filled
import AuthStorage.RainblockTrie.Guarded
import AuthStorage.RainblockTrie.Histories
import AuthStorage.RainblockTrie.Insert
import AuthStorage.RainblockTrie.Kept
import AuthStorage.RainblockTrie.MerklePatriciaTree
import AuthStorage.RainblockTrie.Nibble
import AuthStorage.RainblockTrie.NoDangling
import AuthStorage.RainblockTrie.NoGarbage
import AuthStorage.RainblockTrie.Progress
import AuthStorage.RainblockTrie.Reads
import AuthStorage.RainblockTrie.Remove
import AuthStorage.RainblockTrie.Reopen
import AuthStorage.RainblockTrie.Represents
import AuthStorage.RainblockTrie.RoundTrip
import AuthStorage.RainblockTrie.SafeCommit
import AuthStorage.RainblockTrie.Saved
import AuthStorage.RainblockTrie.Search
import AuthStorage.RainblockTrie.Stands
import AuthStorage.RainblockTrie.Taken
import AuthStorage.RainblockTrie.TopLayer
import AuthStorage.RainblockTrie.TrieNode
import AuthStorage.RainblockTrie.TrieNodeExt
import AuthStorage.Tasks.RealTrace
