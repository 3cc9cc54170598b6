import M2.Lib.Run
import M2.Lib.AndOr
import M2.Lib.Cost
import M2.Lib.Bits
import M2.Lib.Bitmap
import M2.Lib.Heap
import M2.Lib.Appends
import M2.Lib.Tiles
import M2.Lib.ExchangeSort
import M2.Lib.Doubling
import M2.Lib.Runs
import M2.Lib.Gather
import M2.Lib.Checkpoint
import M2.Lib.Binary32
import M2.Lib.LuaPattern
import M2.Fhk.Graph
import M2.Fhk.Define
import M2.Fhk.Build
import M2.Fhk.MapCodes
import M2.Fhk.Degrees
import M2.Fhk.BuildScratch
import M2.Fhk.BuildLayout
import M2.Fhk.BuildEdges
import M2.Fhk.Built
import M2.Fhk.Search
import M2.Fhk.ChainCost
import M2.Fhk.SearchInvariant
import M2.Fhk.SearchUpdate
import M2.Fhk.SearchBounds
import M2.Fhk.SearchSteps
import M2.Fhk.LowerBound
import M2.Fhk.Potential
import M2.Fhk.Termination
import M2.Fhk.Progress
import M2.Fhk.Optimality
import M2.Fhk.Subset
import M2.Mem.Region
import M2.Mem.Frames
import M2.Mem.Layout
import M2.Mem.Restore
import M2.Mem.Savepoint
import M2.Mem.Failure
import M2.Mem.Mapping
import M2.Mem.Trail
import M2.Mem.Memoize
import M2.Mem.Arena
import M2.Mem.ArenaReset
import M2.Mem.Vec
import M2.Mem.VecDelete
import M2.Mem.VecGrow
import M2.Fhk.Scratch
import M2.Fhk.Given
import M2.Fhk.Check
import M2.Fhk.Prune
import M2.Fhk.PruneCost
import M2.Fhk.PruneSteps
import M2.Fhk.PruneInvariant
import M2.Fhk.PruneRun
import M2.Fhk.PruneStart
import M2.Fhk.PruneSelect
import M2.Fhk.PruneBounds
import M2.Fhk.PruneLink
import M2.Fhk.PruneClosed
import M2.Fhk.Status
import M2.Fhk.Setters
import M2.Fhk.SubsetPack
import M2.Fhk.SubsetSize
import M2.Fhk.Missing
import M2.Fhk.PruneHeap
import M2.Fhk.EdgeRule
import M2.Fff.Signature
import M2.Lib.Dfs
import M2.Control.Emit
import M2.Control.Export
import M2.Fhk.Entry
import M2.Fhk.RootQueue
import M2.Fhk.Roots
import M2.Fhk.RootRounds
import M2.Fhk.Instances
import M2.Fhk.PruneEnclose
import M2.Fhk.Grounded
import M2.Fhk.GroundedSteps
import M2.Fhk.Solving
import M2.Lib.Post
import M2.Lib.Writes
import M2.Fhk.Memory
import M2.Fhk.Compute
import M2.Fhk.Returns
import M2.Fhk.Values
import M2.Fhk.ComputeRun
import M2.Fhk.Effects
import M2.Fhk.Ranges
import M2.Fhk.Session
import M2.Fhk.SessionValues
import M2.Fhk.Denotation
import M2.Fhk.SessionOptimal
import M2.Fhk.Turns
import M2.Fhk.Rounds
import M2.Fhk.RoundEnds
import M2.Fhk.BuiltGraph
import M2.Lib.Places
import M2.Fhk.Transform
import M2.Fhk.Carried
import M2.Fhk.PrunePreserve
import M2.Control.Run
import M2.Control.Meaning
import M2.Control.Preserve
import M2.Control.Complete
import M2.Control.Simulator
