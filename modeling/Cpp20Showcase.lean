import Cpp20Showcase.Lib.TransitionSystem
import Cpp20Showcase.Lib.Atomic
import Cpp20Showcase.Lib.HappensBefore
import Cpp20Showcase.Lib.WrappingCounter
import Cpp20Showcase.Lib.Linearizable
import Cpp20Showcase.Lib.Exclusion
import Cpp20Showcase.Lib.Headcount
import Cpp20Showcase.Lib.ForkJoin
import Cpp20Showcase.Lib.UniqueHandle
import Cpp20Showcase.Lib.Traced
import Cpp20Showcase.Lib.Representatives
import Cpp20Showcase.Lib.SignedInt
import Cpp20Showcase.Lib.CountedLoop
import Cpp20Showcase.Lib.NestedMatching
import Cpp20Showcase.Lib.Decimal
import Cpp20Showcase.Lib.View
import Cpp20Showcase.Lib.CellMemory
import Cpp20Showcase.Lib.LayoutRight
import Cpp20Showcase.Concepts.Stack
import Cpp20Showcase.Concepts.Numeric
import Cpp20Showcase.Format.FormatTable
import Cpp20Showcase.Ranges.StableUnique
import Cpp20Showcase.Ranges.SlidingSum
import Cpp20Showcase.Ranges.Pipelines
import Cpp20Showcase.Ranges.Flatten
import Cpp20Showcase.Lockfree.SpscQueue
import Cpp20Showcase.Lockfree.SpscInvariant
import Cpp20Showcase.Lockfree.SpscSafety
import Cpp20Showcase.Lockfree.SpscSizeApprox
import Cpp20Showcase.Lockfree.SpscLinearizable
import Cpp20Showcase.Lockfree.SpscTransfer
import Cpp20Showcase.Lockfree.SpscStressTest
import Cpp20Showcase.Lockfree.SpscIntrospection
import Cpp20Showcase.Lockfree.SpscMoves
import Cpp20Showcase.Lockfree.SpscWaitFree
import Cpp20Showcase.Lockfree.SpscHappensBefore
import Cpp20Showcase.AtomicModel.MessageChannel
import Cpp20Showcase.AtomicModel.RelaxedCounter
import Cpp20Showcase.AtomicModel.Spinlock
import Cpp20Showcase.AtomicModel.SpinlockHappensBefore
import Cpp20Showcase.AtomicModel.SeqCstFlag
import Cpp20Showcase.AtomicModel.SeqCstProgress
import Cpp20Showcase.AtomicModel.LazySingleton
import Cpp20Showcase.AtomicModel.SingletonLife
import Cpp20Showcase.AtomicModel.SingletonHappensBefore
import Cpp20Showcase.Coroutines.Generator
import Cpp20Showcase.Coroutines.GeneratorDelivery
import Cpp20Showcase.Coroutines.GeneratorDrain
import Cpp20Showcase.Coroutines.GeneratorTake
import Cpp20Showcase.Coroutines.Irange
import Cpp20Showcase.Coroutines.Fibonacci
import Cpp20Showcase.Coroutines.Task
import Cpp20Showcase.Coroutines.TaskTransparency
import Cpp20Showcase.Coroutines.TaskEager
import Cpp20Showcase.Coroutines.TaskWaits
import Cpp20Showcase.Coroutines.FrameOwnership
import Cpp20Showcase.Jthread.SemaphoreRateLimit
import Cpp20Showcase.Jthread.BarrierPhases
import Cpp20Showcase.Jthread.BarrierLockStep
import Cpp20Showcase.Jthread.LatchSum
import Cpp20Showcase.Jthread.StoppableWorker
import Cpp20Showcase.Views.MatrixOps
import Cpp20Showcase.Views.MatrixSpecs
import Cpp20Showcase.Views.Adjoint
import Cpp20Showcase.Views.InPlace
import Cpp20Showcase.Benchmarks.MutexQueue
