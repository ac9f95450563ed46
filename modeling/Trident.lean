import Trident.Lib.Glob
import Trident.Lib.Transition
import Trident.Lib.PyText
import Trident.Lib.Streams
import Trident.Scripts.Sysctl
import Trident.Scripts.PagePolicy
import Trident.Scripts.RunIsolation
import Trident.Canneal.AtomicPtr
import Trident.Canneal.RoutingCost
import Trident.Canneal.NetlistFile
import Trident.Canneal.NetlistReader
import Trident.Canneal.ChipCost
import Trident.Gups.Generator
import Trident.Gups.Updates
import Trident.Gups.TableBounds
import Trident.Scripts.CompileResults
import Trident.Scripts.Traverse
import Trident.Scripts.RecordedRuns
import Trident.Scripts.Figures
import Trident.Scripts.Attribution
import Trident.Scripts.LaunchWorkload
import Trident.Lib.Cursor
import Trident.Scripts.VmConfigs
import Trident.Scripts.RewriteOrder
import Trident.Scripts.RewriteRuns
import Trident.Scripts.RewriteConfig
import Trident.Lib.Rounding
import Trident.Common.Clocks
import Trident.Lib.Bisect
import Trident.XsBench.Grids
import Trident.XsBench.GridSearch
import Trident.Graph500.EdgeList
import Trident.Graph500.Offsets
import Trident.Graph500.Scatter
import Trident.Graph500.Pack
import Trident.Lib.Barriers
import Trident.Graph500.PrefixSum
import Trident.Graph500.CreateGraph
import Trident.Lib.BlockQueue
import Trident.Lib.BreadthFirst
import Trident.Graph500.Bitmap
import Trident.Graph500.Search
import Trident.Graph500.TopDown
import Trident.Graph500.BitmapLoops
import Trident.Graph500.QueueFill
import Trident.Graph500.Frontier
import Trident.Graph500.Levels
import Trident.Graph500.SearchLevels
import Trident.Graph500.SearchRuns
import Trident.Lib.Loops
import Trident.Lib.Expansion
import Trident.Lib.FreeList
import Trident.Graph500.SequentialSearch
import Trident.Graph500.MakeBfsTree
import Trident.Lib.BitMaps
import Trident.Graph500.KroneckerEdges
import Trident.Graph500.PermuteEdges
import Trident.Graph500.SampleRoots
import Trident.Graph500.VerifyTree
import Trident.Lib.Forest
import Trident.Gapbs.Graph
import Trident.Gapbs.Afforest
import Trident.Gapbs.LinkCompress
import Trident.Gapbs.Components
import Trident.Gapbs.Builder
import Trident.Gapbs.PrefixSums
import Trident.Gapbs.Insertions
import Trident.Gapbs.Squish
import Trident.Gapbs.EdgeComponents
import Trident.Lib.Distances
import Trident.Gapbs.DeltaStep
import Trident.Gapbs.DeltaRelax
import Trident.Gapbs.DeltaRuns
import Trident.Gapbs.DeltaFrontier
import Trident.Gapbs.Dijkstra
import Trident.Gapbs.SlidingQueue
import Trident.Gapbs.Bfs
import Trident.Gapbs.BottomUp
import Trident.Gapbs.TopDown
import Trident.Gapbs.BfsRuns
import Trident.Gapbs.BfsVerifier
import Trident.Gapbs.ShiloachVishkin
import Trident.Gapbs.CcVerifier
import Trident.Lib.Triangles
import Trident.Gapbs.TriangleCount
import Trident.Gapbs.RelabelByDegree
import Trident.Lib.Records
import Trident.Gapbs.SerializedGraph
import Trident.Gapbs.EdgeListFile
import Trident.HashJoin.ProbeTables
import Trident.Btree.Memory
import Trident.Btree.Operations
import Trident.Btree.NodeSpecs
import Trident.Btree.NodeDeletion
import Trident.Btree.Rows
import Trident.Btree.Growth
import Trident.Btree.Siblings
import Trident.Btree.Shrinking
import Trident.Btree.Leaves
import Trident.Btree.Search
import Trident.Btree.Insertion
import Trident.Btree.Deletion
import Trident.Btree.Contents
import Trident.Btree.Invariants
import Trident.Btree.LeafChain
import Trident.Btree.Workload
import Trident.Btree.Random
import Trident.Btree.Destroy
import Trident.Graph500.ModArith
import Trident.Lib.SkipAhead
import Trident.Graph500.SplittableMrg
import Trident.Graph500.Bernoulli
import Trident.Graph500.MakeGraph
import Trident.Lib.Shuffle
import Trident.Graph500.RandPermute
