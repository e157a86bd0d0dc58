import Difacto.Lib.Reach
import Difacto.Base.WorkloadPool
import Difacto.Base.PoolInvariant
import Difacto.Base.PoolAssignment
import Difacto.Base.PoolAccounting
import Difacto.Solver.DataParallel
import Difacto.Solver.Attribution
import Difacto.Solver.Completion
import Difacto.Solver.Dispatch
import Difacto.Lib.Bytes
import Difacto.Lib.Ints
import Difacto.Lib.Codec
import Difacto.Lib.Decimal
import Difacto.Server.Entry
import Difacto.Server.StorageModes
import Difacto.Server.Handle
import Difacto.Server.Embedding
import Difacto.Base.Binary32
import Difacto.Server.Store
import Difacto.Server.Contents
import Difacto.Base.Localizer
import Difacto.Server.Checkpoint
import Difacto.Server.Counters
import Difacto.Server.Resume
import Difacto.Base.SpMV
import Difacto.Base.SpMM
import Difacto.Base.Inside
import Difacto.Base.SpMMThreads
import Difacto.FM.Loss
import Difacto.FM.Layout
import Difacto.FM.Forward
import Difacto.FM.Gradient
import Difacto.FM.Shape
import Difacto.FM.Addresses
import Difacto.Worker.Minibatch
import Difacto.Solver.Minibatch
import Difacto.Linear.Ftrl
import Difacto.Solver.Scheduler
import Difacto.Linear.Penalty
import Difacto.Linear.Loss
import Difacto.Linear.Store
import Difacto.Lib.Pairs
import Difacto.Base.BinaryClassEvaluation
import Difacto.Linear.Resume
import Difacto.System.Slice
import Difacto.Base.MinibatchIter
import Difacto.System.KeySpace
import Difacto.Solver.Output
import Difacto.Solver.Predict
import Difacto.Base.Remap
import Difacto.Worker.Predict
import Difacto.System.Executor
import Difacto.System.FirstPass
import Difacto.System.KeyCaching
import Difacto.System.KVCache
import Difacto.System.KVWorker
import Difacto.System.OrderedMatch
import Difacto.Io.ReadStream
import Difacto.Io.WriteStream
import Difacto.Io.ListObjects
import Difacto.Solver.StopDecision
import Difacto.Solver.ModelName
import Difacto.Server.Truncation
import Difacto.Base.CompressedRowBlock
import Difacto.Base.Rewind
import Difacto.Base.ParallelSort
import Difacto.Base.CountUniq
import Difacto.Base.RemapExact
import Difacto.Base.ShuffleIter
import Difacto.Base.Shuffle
import Difacto.Base.NegativeSampling
import Difacto.Io.InputSplit
import Difacto.Io.TextParts
import Difacto.Io.WorkloadMessage
import Difacto.Server.DumpedIds
import Difacto.Lib.Pointer
import Difacto.Lib.Loop
import Difacto.Io.TextParser
import Difacto.Io.AdfeaParser
import Difacto.Io.CriteoParser
import Difacto.Io.CriteoChunk
import Difacto.Io.ThreadedIter
import Difacto.Io.Prefetch
import Difacto.Io.DataCells
import Difacto.Io.RecordSplit
import Difacto.Io.RecordIO
import Difacto.Io.RecordIOSplit
import Difacto.Io.RecordChunk
import Difacto.System.Manager
import Difacto.System.Cluster
import Difacto.Base.LocalRows
import Difacto.Base.RowLoss
import Difacto.Lib.Logistic
import Difacto.Linear.Logit
import Difacto.Linear.Worker
import Difacto.Worker.Gradient
