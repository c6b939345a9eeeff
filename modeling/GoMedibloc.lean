import GoMedibloc.Framework.Program
import GoMedibloc.Trie.Basic
import GoMedibloc.Trie.Merkle
import GoMedibloc.Trie.Cache
import GoMedibloc.Trie.Update
import GoMedibloc.Trie.Lookup
import GoMedibloc.Trie.Collapse
import GoMedibloc.Trie.Delete
import GoMedibloc.Trie.Contents
import GoMedibloc.Trie.FiniteMap
import GoMedibloc.Trie.Canonical
import GoMedibloc.Trie.Batch
import GoMedibloc.Trie.Session
import GoMedibloc.Trie.Tidy
import GoMedibloc.Trie.SharedStorage
import GoMedibloc.Chain.BlockChain
import GoMedibloc.Chain.Dpos
import GoMedibloc.Chain.ChainManager
import GoMedibloc.Chain.Wakeup
import GoMedibloc.Chain.BlockPool
import GoMedibloc.Chain.Pipeline
import GoMedibloc.Chain.Mint
import GoMedibloc.Framework.Fallible
import GoMedibloc.Framework.FiniteSum
import GoMedibloc.Ledger.Basic
import GoMedibloc.Ledger.Account
import GoMedibloc.Ledger.BlockState
import GoMedibloc.Ledger.Execute
import GoMedibloc.Ledger.Effects
import GoMedibloc.Ledger.Process
import GoMedibloc.Ledger.Run
import GoMedibloc.Ledger.Conservation
import GoMedibloc.Ledger.Points
import GoMedibloc.Ledger.Nonces
import GoMedibloc.Ledger.Registry
import GoMedibloc.Ledger.Mirrors
import GoMedibloc.Ledger.Certificates
import GoMedibloc.Framework.Selection
import GoMedibloc.Chain.Dynasty
import GoMedibloc.Chain.FuturePool
import GoMedibloc.Chain.Recovery
import GoMedibloc.Chain.Pruning
import GoMedibloc.Framework.ObjectHeap
import GoMedibloc.Ledger.MakeBlock
import GoMedibloc.Chain.SharedTransactions
import GoMedibloc.Chain.LibBounds
import GoMedibloc.Framework.CappedGrowth
import GoMedibloc.Ledger.Regeneration
import GoMedibloc.Chain.LinkedPool
import GoMedibloc.Sync.Download
import GoMedibloc.Framework.RoundRobin
import GoMedibloc.Framework.Tally
import GoMedibloc.Pool.Pending
import GoMedibloc.Pool.Views
import GoMedibloc.Pool.Replacement
import GoMedibloc.Framework.HeapOrder
import GoMedibloc.Pool.Waiting
import GoMedibloc.Pool.Manager
import GoMedibloc.Pool.Filling
import GoMedibloc.Block.Data
import GoMedibloc.Block.Usage
import GoMedibloc.Common.HashedHeap
import GoMedibloc.Pool.NonceBucket
import GoMedibloc.Common.RoundRobinSelector
import GoMedibloc.Framework.WorkSlots
import GoMedibloc.Net.Transfer
import GoMedibloc.Net.Dispatcher
import GoMedibloc.Ledger.AliasNames
import GoMedibloc.Wire.Records
import GoMedibloc.Wire.MissingParts
import GoMedibloc.Block.Charges
import GoMedibloc.Block.Replay
import GoMedibloc.Chain.Deduplication
import GoMedibloc.Block.Production
import GoMedibloc.Block.Lineage
import GoMedibloc.Block.Prices
import GoMedibloc.Ledger.VotePower
import GoMedibloc.Ledger.Acceptance
import GoMedibloc.Framework.Overlay
import GoMedibloc.Ledger.Rollback
import GoMedibloc.Framework.TreeOrder
import GoMedibloc.Trie.Iteration
