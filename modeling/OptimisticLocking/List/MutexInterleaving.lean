import OptimisticLocking.List.Enabled

/-!
# Threads on one `MutexSortedList`

The interleaving model of the other list.  `std::shared_mutex` is taken by one writer or by any
number of readers; a thread that has to wait for it has no step.  Between taking the mutex and
giving it back, the code of the two lists is the same, access for access, but for the end of a
`Delete`, which frees the node here.

* `SharedMutex`, `MutexPc`, `MutexSt.step` — the model.
* **`MutexSt.step_effect`** — everything that one step can do.
-/

namespace OptLock

open LinkedList OrderedList HybridLock Transition

/-- A `std::shared_mutex`. -/
structure SharedMutex (n : ℕ) where
  owner : Option (Fin n)
  sharers : Finset (Fin n)
  deriving DecidableEq

/-- Where a thread is: the next access, with the local variables. -/
inductive MutexPc (T A W : Type)
  /-- Between two calls; what the last one returned. -/
  | outside (returned : Option Bool)
  /-- In the constructor of the `std::unique_lock`. -/
  | lock (w : Writer T)
  /-- In the constructor of the `std::shared_lock`. -/
  | lockShared (value : T)
  | inside (pc : ListPc T A W)
  /-- `Delete`: `free(current)`. -/
  | free (current : A)
  /-- The destructor of the `std::unique_lock`. -/
  | unlock (returned : Option Bool)
  /-- The destructor of the `std::shared_lock`. -/
  | unlockShared (found : Bool)
  deriving DecidableEq, Repr

structure MutexSt (n : ℕ) (T A W : Type) where
  mutex : SharedMutex n
  heap : Heap A (List W)
  pc : Fin n → MutexPc T A W
  /-- The words of the output parameter. -/
  result : Fin n → List W

inductive MutexAct (n : ℕ) (T A : Type)
  | call (t : Fin n) (c : Call T)
  /-- The next access of the call that `t` is inside; `fresh` is the address that a `malloc`
  in it returns. -/
  | resume (t : Fin n) (fresh : A)
  deriving DecidableEq

/-- What follows an access of the body, with what `OptimisticSortedList` does in its place. -/
def MutexPc.behind {T A W : Type} : ListPc T A W → MutexPc T A W
  | .deferFreePointer current => .free current
  | .unlockCall ret => .unlock ret
  | .validate _ found => .unlockShared found
  | pc => .inside pc

namespace MutexSt

variable {n : ℕ} {T A W : Type}

def init : MutexSt n T A W :=
  { mutex := ⟨none, ∅⟩, heap := { root := none, node := fun _ => none }
    pc := fun _ => .outside none, result := fun _ => [] }

def setPc (s : MutexSt n T A W) (t : Fin n) (pc : MutexPc T A W) : MutexSt n T A W :=
  { s with pc := Function.update s.pc t pc }

@[simp] lemma setPc_mutex (s : MutexSt n T A W) (t : Fin n) (pc : MutexPc T A W) :
    (s.setPc t pc).mutex = s.mutex := rfl

@[simp] lemma setPc_heap (s : MutexSt n T A W) (t : Fin n) (pc : MutexPc T A W) :
    (s.setPc t pc).heap = s.heap := rfl

@[simp] lemma setPc_pc (s : MutexSt n T A W) (t : Fin n) (pc : MutexPc T A W) :
    (s.setPc t pc).pc = Function.update s.pc t pc := rfl

@[simp] lemma setPc_result (s : MutexSt n T A W) (t : Fin n) (pc : MutexPc T A W) :
    (s.setPc t pc).result = s.result := rfl

/-- What the accesses of the body at `pc` can see. -/
def body (s : MutexSt n T A W) (pc : ListPc T A W) : ListSt n T A W :=
  { lock := .init, handler := .init, heap := s.heap, pc := fun _ => pc, state := fun _ => 0
    result := s.result }

variable {cmp : T → T → Ordering} (L : Layout W cmp)

/-- The first access of a call. -/
def call (s : MutexSt n T A W) (t : Fin n) : Call T → MutexSt n T A W
  | .insert value => s.setPc t (.lock (.insert value))
  | .lookUp value result =>
      { s.setPc t (.lockShared value) with
        result := Function.update s.result t (L.words result) }
  | .delete value => s.setPc t (.lock (.delete value))

variable [DecidableEq A]

/-- The next access of a thread that is inside a call. -/
def resume (s : MutexSt n T A W) (t : Fin n) (fresh : A) : Option (MutexSt n T A W) :=
  match s.pc t with
  | .outside _ => none
  | .lock w =>
      if s.mutex.owner = none ∧ s.mutex.sharers = ∅ then
        some { s.setPc t (.inside w.start) with mutex := { s.mutex with owner := some t } }
      else none
  | .lockShared value =>
      if s.mutex.owner = none then
        some { s.setPc t (.inside (.searchRoot (.lookUp value))) with
          mutex := { s.mutex with sharers := insert t s.mutex.sharers } }
      else none
  | .inside pc =>
      ((s.body pc).resume L t fresh).map fun b =>
        { s.setPc t (.behind (b.pc t)) with
          heap := b.heap
          result := b.result }
  | .free current =>
      (s.heap.node current).map fun _ =>
        { s.setPc t (.unlock (some true)) with heap := s.heap.free current }
  | .unlock ret => some { s.setPc t (.outside ret) with mutex := { s.mutex with owner := none } }
  | .unlockShared found =>
      some { s.setPc t (.outside (some found)) with
        mutex := { s.mutex with sharers := s.mutex.sharers.erase t } }

/-- One step.  A thread that is inside a call starts no other. -/
def step (s : MutexSt n T A W) : MutexAct n T A → Option (MutexSt n T A W)
  | .call t c =>
      match s.pc t with
      | .outside _ => some (s.call L t c)
      | _ => none
  | .resume t fresh => s.resume L t fresh

end MutexSt

/-! ## What one step can do -/

/-- Everything an enabled action can do to the state. -/
inductive MutexEffect {n : ℕ} {T A W : Type} [DecidableEq A] {cmp : T → T → Ordering}
    (L : Layout W cmp) (s : MutexSt n T A W) : MutexAct n T A → MutexSt n T A W → Prop
  | call (t : Fin n) (c : Call T) (ret : Option Bool) (hpc : s.pc t = .outside ret) :
      MutexEffect L s (.call t c) (s.call L t c)
  | lock (t : Fin n) (fresh : A) (w : Writer T) (hpc : s.pc t = .lock w)
      (hfree : s.mutex.owner = none) (hempty : s.mutex.sharers = ∅) :
      MutexEffect L s (.resume t fresh)
        { s.setPc t (.inside w.start) with mutex := { s.mutex with owner := some t } }
  | lockShared (t : Fin n) (fresh : A) (value : T) (hpc : s.pc t = .lockShared value)
      (hfree : s.mutex.owner = none) :
      MutexEffect L s (.resume t fresh) { s.setPc t (.inside (.searchRoot (.lookUp value))) with
        mutex := { s.mutex with sharers := insert t s.mutex.sharers } }
  | access (t : Fin n) (fresh : A) (pc : ListPc T A W) (hpc : s.pc t = .inside pc)
      (b : ListSt n T A W) (haccess : (s.body pc).resume L t fresh = some b) :
      MutexEffect L s (.resume t fresh) { s.setPc t (.behind (b.pc t)) with
        heap := b.heap
        result := b.result }
  | free (t : Fin n) (fresh : A) (current : A) (hpc : s.pc t = .free current) :
      MutexEffect L s (.resume t fresh)
        { s.setPc t (.unlock (some true)) with heap := s.heap.free current }
  | unlock (t : Fin n) (fresh : A) (ret : Option Bool) (hpc : s.pc t = .unlock ret) :
      MutexEffect L s (.resume t fresh)
        { s.setPc t (.outside ret) with mutex := { s.mutex with owner := none } }
  | unlockShared (t : Fin n) (fresh : A) (found : Bool) (hpc : s.pc t = .unlockShared found) :
      MutexEffect L s (.resume t fresh) { s.setPc t (.outside (some found)) with
        mutex := { s.mutex with sharers := s.mutex.sharers.erase t } }

/-- **Inversion of `step`.** -/
theorem MutexSt.step_effect {n : ℕ} {T A W : Type} [DecidableEq A] {cmp : T → T → Ordering}
    {L : Layout W cmp} {s s' : MutexSt n T A W} {a : MutexAct n T A}
    (h : s.step L a = some s') : MutexEffect L s a s' := by
  cases a with
  | call t c =>
      simp only [step] at h
      split at h
      · next ret hpc =>
          cases h
          exact .call t c ret hpc
      · cases h
  | resume t fresh =>
      rw [step, resume] at h
      split at h
      case h_1 => cases h
      case h_2 w hpc =>
          split_ifs at h with hfree
          cases h
          exact .lock t fresh w hpc hfree.1 hfree.2
      case h_3 value hpc =>
          split_ifs at h with hfree
          cases h
          exact .lockShared t fresh value hpc hfree
      case h_4 pc hpc =>
          obtain ⟨b, hb, rfl⟩ := Option.map_eq_some_iff.mp h
          exact .access t fresh pc hpc b hb
      case h_5 current hpc =>
          obtain ⟨node, -, rfl⟩ := Option.map_eq_some_iff.mp h
          exact .free t fresh current hpc
      case h_6 ret hpc =>
          cases h
          exact .unlock t fresh ret hpc
      case h_7 found hpc =>
          cases h
          exact .unlockShared t fresh found hpc

end OptLock
