import Cppforge.Lsm.Proofs.Refine
import Cppforge.Jwt.Proofs.Token
import Cppforge.Auth.Proofs.Restart
import Cppforge.Auth.Proofs.Change
import Cppforge.Auth.Proofs.Lockout
import Cppforge.Auth.Proofs.Calls
import Cppforge.Multiway.Proofs.BTreeRefine
import Cppforge.Multiway.Proofs.BPlusWellFormed
import Cppforge.Concurrent.Proofs.QueueRun
import Cppforge.Filter.Proofs.Bloom
import Cppforge.Filter.Proofs.CuckooRollback
import Cppforge.Filter.Proofs.CuckooMembership
import Cppforge.Hash.Proofs.Ring
import Cppforge.Hash.Proofs.RobinHoodRefine
import Cppforge.Hash.Proofs.CuckooRefine
import Cppforge.Cache.Proofs.LFURefine
import Cppforge.Lists.Proofs.LinkedListRefine
import Cppforge.Persistent.Proofs.VectorRefine
import Cppforge.Lib.Avl
import Cppforge.Balanced.SearchTrees
import Cppforge.Lib.Run
import Cppforge.Balanced.Proofs.AVLRefine
import Cppforge.Spatial.IntervalTree
import Cppforge.Spatial.Proofs.IntervalBalance
import Cppforge.Spatial.Proofs.IntervalRefine
import Cppforge.Balanced.Proofs.SplayRefine
import Cppforge.Lib.SearchTree
import Cppforge.Balanced.Proofs.TreapRefine
import Cppforge.Lib.Links
import Cppforge.Balanced.RedBlackTree
import Cppforge.Balanced.Proofs.RedBlackLinks
import Cppforge.Balanced.Proofs.RedBlackInsert
import Cppforge.Balanced.Proofs.RedBlackDelete
import Cppforge.Balanced.Proofs.RedBlackRefine
import Cppforge.Lib.Selection
import Cppforge.Spatial.PointTrees
import Cppforge.Spatial.Proofs.KDTreeQueries
import Cppforge.Lib.Suffixes
import Cppforge.Strings.AhoCorasick
import Cppforge.Strings.Proofs.Trie
import Cppforge.Lib.LevelOrder
import Cppforge.Strings.Proofs.Links
import Cppforge.Strings.Proofs.Matching
import Cppforge.Strings.Proofs.Exact
import Cppforge.Lib.RegionTree
import Cppforge.Spatial.RTree
import Cppforge.Lib.Picks
import Cppforge.Spatial.Proofs.RTreeSearch
import Cppforge.Spatial.Proofs.RTreeShape
import Cppforge.Lib.Pairing
import Cppforge.Crypto.MerkleTree
import Cppforge.Crypto.Proofs.MerkleProofs
import Cppforge.Multiway.Trie
import Cppforge.Lib.KeyMap
import Cppforge.Multiway.Proofs.TrieRefine
import Cppforge.Lib.Forest
import Cppforge.UnionFind.UnionSet
import Cppforge.UnionFind.Proofs.Rollback
import Cppforge.UnionFind.Proofs.UnionSetRefine
import Cppforge.Lists.Proofs.SkipListRefine
import Cppforge.Lists.Proofs.DequeRefine
import Cppforge.Balanced.Proofs.TreeMapRefine
import Cppforge.Hash.Proofs.LRURefine
import Cppforge.Gen.SnowflakeGenerator
import Cppforge.Gen.Proofs.SnowflakeIds
import Cppforge.Cache.Caches
import Cppforge.Cache.Proofs.Coherence
import Cppforge.Cache.Proofs.FailedWrites
import Cppforge.Scheduler.Proofs.Cancellation
import Cppforge.Concurrent.ConcurrentHashMap
import Cppforge.Concurrent.Proofs.HashMapRefine
import Cppforge.Graphs.Graph
import Cppforge.Graphs.SpanningTrees
import Cppforge.Lib.SpanningForest
import Cppforge.Graphs.Proofs.Kruskal
import Cppforge.Graphs.Proofs.Prim
import Cppforge.Lib.Walks
import Cppforge.Graphs.ShortestPaths
import Cppforge.Graphs.Proofs.Dijkstra
import Cppforge.Graphs.Proofs.BellmanFord
import Cppforge.Graphs.Proofs.TopologicalSort
import Cppforge.Graphs.Proofs.CycleDetection
import Cppforge.Graphs.Proofs.Tarjan
import Cppforge.Lib.AllPairs
import Cppforge.Graphs.Proofs.FloydWarshall
import Cppforge.Lib.Ranges
import Cppforge.Io.NioBuffer
import Cppforge.Io.Proofs.NioFifo
import Cppforge.Io.BufferedStreams
import Cppforge.Io.Proofs.BufferedOutput
import Cppforge.Io.Proofs.BufferedInput
import Cppforge.Hash.Proofs.RobinHoodResize
import Cppforge.Files.Proofs.CsvRoundTrip
import Cppforge.Lib.Bits
import Cppforge.Lib.Weighted
import Cppforge.Probabilistic.Sketches
import Cppforge.Probabilistic.Proofs.TDigest
import Cppforge.Lib.Surplus
import Cppforge.Hash.Proofs.CuckooGrowth
import Cppforge.Hash.Proofs.CuckooReturns
import Cppforge.Hash.Proofs.CuckooMoves
import Cppforge.Hash.Proofs.CuckooIterator
import Cppforge.Spatial.Proofs.IntervalStab
import Cppforge.Range.RangeQueries
import Cppforge.Range.Proofs.FenwickRefine
import Cppforge.Lib.Halving
import Cppforge.Range.Proofs.SegmentRefine
import Cppforge.Range.Proofs.SparseWindows
import Cppforge.Spatial.Proofs.QuadtreeInsert
import Cppforge.Lists.Proofs.RingBufferRefine
import Cppforge.Lib.Passes
import Cppforge.Graphs.Proofs.Passes
import Cppforge.Graphs.Proofs.NegativeCycles
import Cppforge.Graphs.Proofs.Unreachable
import Cppforge.Graphs.Traversal
import Cppforge.Graphs.Proofs.DepthFirst
import Cppforge.Graphs.Proofs.BreadthFirst
import Cppforge.Graphs.Proofs.Overflow
import Cppforge.Graphs.LowLinks
import Cppforge.Graphs.Proofs.BridgesArticulation
import Cppforge.Probabilistic.Proofs.CountMinSketch
import Cppforge.Lib.Numerals
import Cppforge.Toolkit.RadixToolkit
import Cppforge.Toolkit.Proofs.RadixParsing
import Cppforge.Toolkit.Proofs.RadixPrinting
import Cppforge.Crypto.Proofs.SubstitutionCipher
import Cppforge.Io.InputStreams
import Cppforge.Io.Proofs.ExactReads
import Cppforge.Io.Proofs.Pushback
import Cppforge.Io.Proofs.MarkReset
import Cppforge.Scheduler.CronExpression
import Cppforge.Scheduler.Proofs.CronFields
import Cppforge.Scheduler.Proofs.Accounting
import Cppforge.Heaps.Proofs.HeapRefine
import Cppforge.Heaps.Proofs.TopK
import Cppforge.Graphs.Proofs.Bipartite
import Cppforge.Concurrent.ConcurrentQueue
import Cppforge.Concurrent.Proofs.ConcurrentQueueRuns
import Cppforge.Concurrent.TreiberStack
import Cppforge.Concurrent.Proofs.StackRun
import Cppforge.Concurrent.SeqLock
import Cppforge.Concurrent.Proofs.SeqLockRun
import Cppforge.Threads.Proofs.ThreadPoolRuns
import Cppforge.Probabilistic.Proofs.SetSketches
