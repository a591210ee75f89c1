import Monya.Lib.Loop
import Monya.Lib.Heap
import Monya.Lib.LinkedTree
import Monya.Lib.TreeSearch
import Monya.Lib.StableSort
import Monya.Structures.RBTree
import Monya.Structures.RBLinks
import Monya.Structures.RBInvariant
import Monya.Structures.RBInsert
import Monya.Structures.RBInsertAt
import Monya.Structures.BinaryTree
import Monya.Structures.VecBinaryTree
import Monya.Structures.RBDelete
import Monya.Lib.Owned
import Monya.Structures.Teardown
import Monya.Structures.RBTeardown
import Monya.Lib.Outline
import Monya.Structures.Echo
import Monya.Lib.Stream
import Monya.Common.Types
import Monya.Common.SortedFlag
import Monya.Common.CUnsigned
import Monya.Io.MemoryIO
import Monya.Io.SyncIO
import Monya.Io.SyncAppend
import Monya.Io.VecsReader
import Monya.Io.MemoryUnit
import Monya.Io.ShortFile
import Monya.Io.Transpose
import Monya.ComputeEngine
import Monya.Examples.KdNode
import Monya.Examples.KdBounds
import Monya.Structures.Scheduler
import Monya.Examples.KdBuild
import Monya.Examples.KdInvariant
import Monya.Examples.KdRound
import Monya.Examples.KdLevels
import Monya.Examples.KdHistory
import Monya.Examples.KdShape
import Monya.Examples.KdBalance
import Monya.Examples.KdMain
import Monya.Examples.KdParents
import Monya.Lib.Ring
import Monya.Common.NNVector
import Monya.Common.NNAccess
import Monya.Common.NNCache
import Monya.Common.NNLifetime
import Monya.Validate.BruteForcekNN
import Monya.Common.Metric
import Monya.Lib.Binary
import Monya.Common.Accuracy
import Monya.Structures.Query
import Monya.Examples.KdQuery
import Monya.Examples.KdWalk
import Monya.Examples.KdSearch
import Monya.Lib.Threads
import Monya.Structures.WorkerThread
import Monya.Structures.ThreadPool
import Monya.Structures.HandOut
import Monya.Structures.LevelLog
import Monya.Structures.PoolInvariant
import Monya.Structures.Barrier
import Monya.Structures.Completion
import Monya.Lib.Cells
import Monya.Structures.PoolMoves
import Monya.Structures.Training
import Monya.Structures.Progress
import Monya.Examples.KdRounds
import Monya.Examples.KdThreads
import Monya.Examples.KdRaces
import Monya.Examples.KdTeardown
import Monya.Examples.KdProgress
import Monya.Examples.KdForest
import Monya.Structures.SchedulerLevels
import Monya.Structures.TaskQueue
import Monya.Structures.Shutdown
import Monya.Structures.ShutdownOrder
import Monya.Lib.Ranks
import Monya.Lib.Numpy
import Monya.Lib.NdArray
import Monya.Prototype.BandMatrix
import Monya.Prototype.BandStore
import Monya.Prototype.BandLookup
