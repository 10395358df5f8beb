import Mathlib.Data.Fintype.Basic
import Mathlib.Data.List.FinRange
import Mathlib.Order.Lattice.Nat
import Mathlib.Tactic.Common

/-!
# `EpochHandler`

The epoch-based reclamation of `epoch.cc`.  Epochs are the numbers below `2 ^ 64`, with the wrap
of `fetch_add` written out.  The handler is generic in the number `n` of its slots, so that an
index into `local_epoch` or `to_free_ptr` is a `Fin n`; `noThreads` is the clamp by which the
constructor fixes `n`.

* `minEpoch` — the scan of `FreeOutdatedPtr` when nobody interferes, with its specification
  `le_minEpoch_iff`.
* `outdatedCount` — the index at which the freeing loop stops.  `freeOutdatedPtr` frees what is
  before it and erases exactly that.

`Sync/Reclamation.lean` takes the same operations apart into atomic steps.
-/

namespace OptLock

structure ToFreePointer (Ptr : Type) where
  ptr : Ptr
  epoch : ℕ
  deriving DecidableEq, Repr

structure EpochHandler (n : ℕ) (Ptr : Type) where
  globalEpoch : ℕ
  localEpoch : Fin n → ℕ
  toFreePtr : Fin n → List (ToFreePointer Ptr)

namespace EpochHandler

variable {n : ℕ} {Ptr : Type}

/-- `MAX_VALUE`, the local epoch of a thread that is in no guard. -/
def maxValue : ℕ := 2 ^ 64 - 1

/-- `MAX_NUMBER_OF_WORKER`. -/
def maxNumberOfWorker : ℕ := 128

/-- The number of slots that the constructor makes for `noThreads` threads. -/
def noThreads (noThreads : ℕ) : ℕ := min noThreads maxNumberOfWorker

/-- The constructor: the atomics of `local_epoch` are value-initialised, to `0`. -/
def init : EpochHandler n Ptr :=
  { globalEpoch := 0, localEpoch := fun _ => 0, toFreePtr := fun _ => [] }

def advanceGlobalEpoch (h : EpochHandler n Ptr) : EpochHandler n Ptr :=
  { h with globalEpoch := (h.globalEpoch + 1) % 2 ^ 64 }

def deferFreePointer (h : EpochHandler n Ptr) (tid : Fin n) (ptr : Ptr) : EpochHandler n Ptr :=
  { h with toFreePtr :=
      Function.update h.toFreePtr tid (h.toFreePtr tid ++ [⟨ptr, h.localEpoch tid⟩]) }

/-- The minimum of all local epochs, taken slot by slot. -/
def minEpoch (h : EpochHandler n Ptr) : ℕ :=
  (List.finRange n).foldl (fun m i => min m (h.localEpoch i)) maxValue

/-- The index at which the loop of `FreeOutdatedPtr` stops. -/
def outdatedCount (minEpoch : ℕ) : List (ToFreePointer Ptr) → ℕ
  | [] => 0
  | e :: l => if e.epoch ≥ minEpoch then 0 else outdatedCount minEpoch l + 1

/-- The pointers freed, and what is left. -/
def freeOutdatedPtr (h : EpochHandler n Ptr) (tid : Fin n) : List Ptr × EpochHandler n Ptr :=
  let idx := outdatedCount h.minEpoch (h.toFreePtr tid)
  (((h.toFreePtr tid).take idx).map (·.ptr),
    { h with toFreePtr := Function.update h.toFreePtr tid ((h.toFreePtr tid).drop idx) })

/-- The `erase` of the first `idx` entries. -/
def erasePrefix (h : EpochHandler n Ptr) (tid : Fin n) (idx : ℕ) : EpochHandler n Ptr :=
  { h with toFreePtr := Function.update h.toFreePtr tid ((h.toFreePtr tid).drop idx) }

/-- The store of the constructor of an `EpochGuard`, after it loaded `epoch` from the global
epoch. -/
def publish (h : EpochHandler n Ptr) (tid : Fin n) (epoch : ℕ) : EpochHandler n Ptr :=
  { h with localEpoch := Function.update h.localEpoch tid epoch }

/-- The destructor of an `EpochGuard`. -/
def leave (h : EpochHandler n Ptr) (tid : Fin n) : EpochHandler n Ptr :=
  { h with localEpoch := Function.update h.localEpoch tid maxValue }

/-- The pointers that the destructor of the handler frees, in order. -/
def destroy (h : EpochHandler n Ptr) : List Ptr :=
  (List.finRange n).flatMap fun tid => (h.toFreePtr tid).map (·.ptr)

@[simp] lemma deferFreePointer_localEpoch (h : EpochHandler n Ptr) (tid : Fin n) (ptr : Ptr) :
    (h.deferFreePointer tid ptr).localEpoch = h.localEpoch := rfl

/-! ## The scan and the loop -/

lemma le_foldl_min_iff (f : Fin n → ℕ) (slots : List (Fin n)) (m a : ℕ) :
    m ≤ slots.foldl (fun m i => min m (f i)) a ↔ m ≤ a ∧ ∀ i ∈ slots, m ≤ f i := by
  induction slots generalizing a with
  | nil => simp
  | cons i slots ih => simp [ih, and_assoc]

/-- The scan computes the minimum of the local epochs. -/
theorem le_minEpoch_iff (h : EpochHandler n Ptr) (m : ℕ) :
    m ≤ h.minEpoch ↔ m ≤ maxValue ∧ ∀ i, m ≤ h.localEpoch i := by
  simp [minEpoch, le_foldl_min_iff]

/-- The scan from slot `i` on, when the slots before it gave `m`. -/
def scanFrom (h : EpochHandler n Ptr) (i m : ℕ) : ℕ :=
  ((List.finRange n).drop i).foldl (fun m i => min m (h.localEpoch i)) m

lemma scanFrom_zero (h : EpochHandler n Ptr) : h.scanFrom 0 maxValue = h.minEpoch := rfl

lemma scanFrom_of_lt (h : EpochHandler n Ptr) {i : ℕ} (m : ℕ) (hi : i < n) :
    h.scanFrom i m = h.scanFrom (i + 1) (min m (h.localEpoch ⟨i, hi⟩)) := by
  rw [scanFrom, List.drop_eq_getElem_cons (by rwa [List.length_finRange]), List.foldl_cons,
    List.getElem_finRange]
  rfl

lemma scanFrom_of_le (h : EpochHandler n Ptr) {i : ℕ} (m : ℕ) (hi : n ≤ i) :
    h.scanFrom i m = m := by
  rw [scanFrom, List.drop_eq_nil_of_le (by rwa [List.length_finRange]), List.foldl_nil]

/-- The loop of `FreeOutdatedPtr` at the entry `idx`: it stops. -/
lemma outdatedCount_drop_of_stop {m idx : ℕ} {l : List (ToFreePointer Ptr)}
    (hstop : ∀ e ∈ l[idx]?, m ≤ e.epoch) : outdatedCount m (l.drop idx) = 0 := by
  cases he : l[idx]? with
  | none =>
      rw [List.drop_eq_nil_of_le (List.getElem?_eq_none_iff.mp he)]
      rfl
  | some e =>
      obtain ⟨hlt, rfl⟩ := List.getElem?_eq_some_iff.mp he
      rw [List.drop_eq_getElem_cons hlt, outdatedCount, if_pos (hstop _ he)]

/-- The loop of `FreeOutdatedPtr` at the entry `idx`: it goes on. -/
lemma outdatedCount_drop_of_lt {m idx : ℕ} {l : List (ToFreePointer Ptr)} {e : ToFreePointer Ptr}
    (he : l[idx]? = some e) (hold : e.epoch < m) :
    outdatedCount m (l.drop idx) = outdatedCount m (l.drop (idx + 1)) + 1 := by
  obtain ⟨hlt, rfl⟩ := List.getElem?_eq_some_iff.mp he
  rw [List.drop_eq_getElem_cons hlt, outdatedCount, if_neg (Nat.not_le_of_lt hold)]

/-- The loop stops at the first entry that is not outdated. -/
lemma take_outdatedCount (minEpoch : ℕ) (l : List (ToFreePointer Ptr)) :
    l.take (outdatedCount minEpoch l) = l.takeWhile (·.epoch < minEpoch) := by
  induction l with
  | nil => rfl
  | cons e l ih =>
      by_cases h : e.epoch ≥ minEpoch
      · simp [outdatedCount, h]
      · simp [outdatedCount, h, ih, Nat.lt_of_not_le h]

lemma drop_outdatedCount (minEpoch : ℕ) (l : List (ToFreePointer Ptr)) :
    l.drop (outdatedCount minEpoch l) = l.dropWhile (·.epoch < minEpoch) := by
  induction l with
  | nil => rfl
  | cons e l ih =>
      by_cases h : e.epoch ≥ minEpoch
      · simp [outdatedCount, h]
      · simp [outdatedCount, h, ih, Nat.lt_of_not_le h]

end EpochHandler

end OptLock
