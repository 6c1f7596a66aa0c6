import Mthpc.StepSystem
import Mthpc.Rcu
import Mthpc.GracePeriod
import Mthpc.Barrier
import Mthpc.FreshBarrier
import Mthpc.ThreadGroup
import Mthpc.AsyncReap
import Mthpc.StartBarrier
import Mthpc.BarrierReuse
import Mthpc.BarrierProgram
import Mthpc.ThreadJoin
import Mthpc.ThreadReturns
import Mthpc.ThreadNodes
import Mthpc.RcuRegistry
import Mthpc.RcuThread
import Mthpc.ListHead
import Mthpc.ListSequences
import Mthpc.SafePtr
import Mthpc.SafePtrNesting
import Mthpc.SafePtrNodes
import Mthpc.SafePtrOwnership
import Mthpc.SafePtrRelease
import Mthpc.AllocTable
import Mthpc.SafePtrAlloc
import Mthpc.SafePtrBorrow
import Mthpc.SafePtrSections
import Mthpc.TaskConservation
import Mthpc.TaskRoles
import Mthpc.TaskAwait
import Mthpc.TaskOrder
import Mthpc.WorkqueueCpus
import Mthpc.WorkqueueLifetime
import Mthpc.WorkqueueLocks
import Mthpc.WorkqueueWaits
import Mthpc.WorkqueueConservation
import Mthpc.ReaderWord
import Mthpc.BarrierObject
import Mthpc.GroupCycles
import Mthpc.WorkqueueDrain
import Mthpc.WorkqueueFutex
import Mthpc.RcuMeta
import Mthpc.AllocFailure
import Mthpc.RcuList
import Mthpc.RcuSettles
import Mthpc.RcuPointer
import Mthpc.RcuReaders
import Mthpc.RcuListUsers
import Mthpc.RcuWorkqueue
import Mthpc.WorkqueueMemory
import Mthpc.TaskWorks
import Mthpc.Scopes
import Mthpc.ScopedLock
import Mthpc.ScopedReaders
