import OptimisticLocking.Library.Transition
import OptimisticLocking.Library.AtomicObject
import OptimisticLocking.Library.LinkedList
import OptimisticLocking.Library.OrderedList
import OptimisticLocking.Sync.Lock
import OptimisticLocking.Sync.LockProtocol
import OptimisticLocking.Sync.Guard
import OptimisticLocking.Sync.Validation
import OptimisticLocking.Sync.Epoch
import OptimisticLocking.Sync.Reclamation
import OptimisticLocking.Sync.IdleSlots
import OptimisticLocking.Sync.LimboOrder
import OptimisticLocking.Sync.Rounds
import OptimisticLocking.Sync.EpochTest
import OptimisticLocking.Sync.VersionCarry
import OptimisticLocking.Sync.StaleWord
import OptimisticLocking.Sync.NestedGuards
import OptimisticLocking.Sync.Unwinding
import OptimisticLocking.Sync.CounterTest
import OptimisticLocking.List.SortedList
import OptimisticLocking.List.Calls
import OptimisticLocking.List.Interleaving
import OptimisticLocking.List.ChainInvariant
import OptimisticLocking.List.Linearizability
import OptimisticLocking.List.LookUpOutput
import OptimisticLocking.List.SafeReclamation
import OptimisticLocking.List.ForwardTraversal
import OptimisticLocking.List.TakingEffect
import OptimisticLocking.List.AtomicMap
import OptimisticLocking.List.MutexInterleaving
import OptimisticLocking.List.MutexAtomicMap
import OptimisticLocking.List.Faults
import OptimisticLocking.List.Restarts
import OptimisticLocking.List.MutexCompletion
import OptimisticLocking.List.Limbo
import OptimisticLocking.List.MapRefinement
import OptimisticLocking.List.InsertReturns
import OptimisticLocking.List.Ownership
import OptimisticLocking.Common.Utils
import OptimisticLocking.Postgresql.Server
import OptimisticLocking.Postgresql.Deposit
import OptimisticLocking.Postgresql.Payment
import OptimisticLocking.Postgresql.Alone
import OptimisticLocking.Postgresql.Completion
import OptimisticLocking.List.Destruction
import OptimisticLocking.Sync.GracePeriod
