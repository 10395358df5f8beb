import OptimisticLocking.List.Calls
import OptimisticLocking.Sync.LockProtocol

/-!
# Threads on one `OptimisticSortedList`

The interleaving model of `list.cc`: every load and store of the lock word, of `root_`, of a `next`
pointer, of an epoch, and of *one word* of a value is a step of its own.  What a thread does
between two of them touches nothing that another thread can see and belongs to the step before.

Addresses are of any type, `NewNode` may return any address that is not allocated, a freed one
included.  An access through the null pointer or to memory that is not allocated is not enabled,
and neither is what follows a failed assertion.

* `Layout` — a value in memory, as words that are read and written one at a time.
* `ListPc` — where a thread is; `ListSt.read` — the steps that only read; `ListSt.step`.
* **`ListSt.step_effect`** — everything that one step can do.
-/

namespace OptLock

open LinkedList OrderedList HybridLock Transition

/-- How a value of type `T` lies in memory.  `compare` is `<=>` with a value on the left that was
read word by word; on words that are no value, it may be anything. -/
structure Layout (W : Type) {T : Type} (cmp : T → T → Ordering) where
  size : ℕ
  size_pos : 0 < size
  words : T → List W
  length_words : ∀ x, (words x).length = size
  compare : List W → T → Ordering
  compare_words : ∀ x v, compare (words x) v = cmp x v

/-- The operations that lock the list exclusively. -/
inductive Writer (T : Type)
  | insert (value : T)
  | delete (value : T)
  deriving DecidableEq, Repr

/-- Whose search loop it is. -/
inductive Searcher (T : Type)
  | lookUp (value : T)
  | writer (w : Writer T)
  deriving DecidableEq, Repr

def Writer.value {T : Type} : Writer T → T
  | .insert value => value
  | .delete value => value

def Searcher.value {T : Type} : Searcher T → T
  | .lookUp value => value
  | .writer w => w.value

/-- The two tests in the body of the search loop. -/
inductive LoopTest
  | greater
  | equal
  deriving DecidableEq, Repr

/-- Where a thread is: the next access, with the local variables. -/
inductive ListPc (T A W : Type)
  /-- Between two calls; what the last one returned. -/
  | outside (returned : Option Bool)
  /-- In the constructor of an EXCLUSIVE guard: the load of the word. -/
  | lockLoad (w : Writer T)
  | lockCas (w : Writer T) (oldState : Word)
  /-- `Insert`: `root_ == nullptr`. -/
  | headTest (value : T)
  /-- `Insert`: the load of `root_` in `root_->value <=> value > 0`. -/
  | headNode (value : T)
  /-- `Insert`: the next word of that value; `read` are the words before it. -/
  | headCompare (value : T) (current : A) (read : List W)
  /-- The load of `root_` that starts the search loop. -/
  | searchRoot (op : Searcher T)
  /-- The next word of `current->value` in one of the two tests.  `LookUp` makes no use of
  `prev`. -/
  | compare (op : Searcher T) (test : LoopTest) (prev : Option A) (current : A) (read : List W)
  /-- `current = current->next`. -/
  | next (op : Searcher T) (current : A)
  /-- `Insert`: the load of `root_` that `NewNode` is called with. -/
  | newHead (value : T)
  /-- `Insert`: `assert(prev->next != nullptr)`. -/
  | assertNext (value : T) (prev : Option A)
  /-- `Insert`: the load of `prev->next` in `prev->next->value = value`. -/
  | overwriteNode (value : T) (prev : Option A)
  /-- `Insert`: the store of word `i` of the value. -/
  | overwrite (value : T) (current : A) (i : ℕ)
  /-- `Insert`: the load of `prev->next` that `NewNode` is called with. -/
  | splice (value : T) (prev : Option A)
  /-- `Delete`: the load of `current->next`. -/
  | unlink (prev : Option A) (current : A)
  /-- The store to `root_` or `dst->next`.  `victim` is the node that `Delete` unlinks. -/
  | link (dst target victim : Option A)
  | deferFreePointer (current : A)
  /-- The destructor of an EXCLUSIVE guard. -/
  | unlockCall (returned : Option Bool)
  /-- Inside `UnlockExclusive`. -/
  | unlocking (returned : Option Bool)
  /-- In the constructor of an `EpochGuard`: the load of the global epoch. -/
  | epochLoad (value : T)
  | epochStore (value : T) (epoch : ℕ)
  /-- In the constructor of an OPTIMISTIC guard: a round of its loop. -/
  | optimisticLock (value : T)
  /-- `LookUp`: word `i` of `result = current->value`. -/
  | copy (value : T) (current : A) (i : ℕ)
  /-- The destructor of an OPTIMISTIC guard. -/
  | validate (value : T) (found : Bool)
  /-- The destructor of an `EpochGuard`; `none` when a `RestartException` is on its way. -/
  | epochLeave (value : T) (returned : Option Bool)
  /-- In the scan of `FreeOutdatedPtr`, in front of slot `i`. -/
  | scanning (i minEpoch : ℕ)
  | freeing (minEpoch idx : ℕ)
  deriving DecidableEq, Repr

structure ListSt (n : ℕ) (T A W : Type) where
  lock : LockSt (Fin n)
  handler : EpochHandler n A
  heap : Heap A (List W)
  pc : Fin n → ListPc T A W
  /-- `state_` of the guard of the last attempt. -/
  state : Fin n → Word
  /-- The words of the output parameter. -/
  result : Fin n → List W

inductive ListAct (n : ℕ) (T A : Type)
  | call (t : Fin n) (c : Call T)
  /-- Call `FreeOutdatedPtr` for the own slot. -/
  | freeOutdatedPtr (t : Fin n)
  | advanceGlobalEpoch
  /-- The next access of the call that `t` is inside; `fresh` is the address that a `malloc`
  in it returns. -/
  | resume (t : Fin n) (fresh : A)
  deriving DecidableEq

/-- The thread that takes an action. -/
def ListAct.thread {n : ℕ} {T A : Type} : ListAct n T A → Option (Fin n)
  | .call t _ | .freeOutdatedPtr t | .resume t _ => some t
  | .advanceGlobalEpoch => none

/-! ## Control -/

section control

variable {T A W : Type}

/-- The first access under the lock. -/
def Writer.start : Writer T → ListPc T A W
  | .insert value => .headTest value
  | .delete value => .searchRoot (.writer (.delete value))

/-- Behind the search loop, when nothing was found. -/
def Searcher.notFound (prev : Option A) : Searcher T → ListPc T A W
  | .lookUp value => .validate value false
  | .writer (.insert value) => .splice value prev
  | .writer (.delete _) => .unlockCall (some false)

/-- Behind the search loop, when `current` was found. -/
def Searcher.found (prev : Option A) (current : A) : Searcher T → ListPc T A W
  | .lookUp value => .copy value current 0
  | .writer (.insert value) => .assertNext value prev
  | .writer (.delete _) => .unlink prev current

/-- The condition of the search loop. -/
def Searcher.loop (op : Searcher T) (prev : Option A) : Option A → ListPc T A W
  | none => op.notFound prev
  | some current => .compare op .greater prev current []

/-- Behind the destructor of the `EpochGuard`. -/
def ListPc.left (value : T) : Option Bool → ListPc T A W
  | none => .epochLoad value
  | some found => .outside (some found)

/-- Behind a test in the body of the loop. -/
def Searcher.tested (op : Searcher T) (prev : Option A) (current : A) (o : Ordering) :
    LoopTest → ListPc T A W
  | .greater => if o = .gt then op.notFound prev else .compare op .equal prev current []
  | .equal => if o = .eq then op.found prev current else .next op current

variable {cmp : T → T → Ordering} (L : Layout W cmp)

/-- One more word of `current->value` was read in a test. -/
def Layout.compared (op : Searcher T) (test : LoopTest) (prev : Option A) (current : A)
    (read : List W) : ListPc T A W :=
  if read.length < L.size then .compare op test prev current read
  else op.tested prev current (L.compare read op.value) test

/-- One more word of `root_->value` was read. -/
def Layout.headCompared (value : T) (current : A) (read : List W) : ListPc T A W :=
  if read.length < L.size then .headCompare value current read
  else if L.compare read value = .gt then .newHead value
  else .searchRoot (.writer (.insert value))

end control

/-! ## The steps -/

namespace ListSt

variable {n : ℕ} {T A W : Type}

def init : ListSt n T A W :=
  { lock := .init, handler := .init, heap := { root := none, node := fun _ => none }
    pc := fun _ => .outside none, state := fun _ => 0, result := fun _ => [] }

def setPc (s : ListSt n T A W) (t : Fin n) (pc : ListPc T A W) : ListSt n T A W :=
  { s with pc := Function.update s.pc t pc }

@[simp] lemma setPc_lock (s : ListSt n T A W) (t : Fin n) (pc : ListPc T A W) :
    (s.setPc t pc).lock = s.lock := rfl

@[simp] lemma setPc_handler (s : ListSt n T A W) (t : Fin n) (pc : ListPc T A W) :
    (s.setPc t pc).handler = s.handler := rfl

@[simp] lemma setPc_heap (s : ListSt n T A W) (t : Fin n) (pc : ListPc T A W) :
    (s.setPc t pc).heap = s.heap := rfl

@[simp] lemma setPc_pc (s : ListSt n T A W) (t : Fin n) (pc : ListPc T A W) :
    (s.setPc t pc).pc = Function.update s.pc t pc := rfl

@[simp] lemma setPc_state (s : ListSt n T A W) (t : Fin n) (pc : ListPc T A W) :
    (s.setPc t pc).state = s.state := rfl

@[simp] lemma setPc_result (s : ListSt n T A W) (t : Fin n) (pc : ListPc T A W) :
    (s.setPc t pc).result = s.result := rfl

/-- The access behind `p->`. -/
def deref (s : ListSt n T A W) (p : Option A) : Option (Node A (List W)) := p.bind s.heap.node

variable {cmp : T → T → Ordering} (L : Layout W cmp)

/-- The steps that change nothing but the local variables of `t`. -/
def read (s : ListSt n T A W) (t : Fin n) : Option (ListPc T A W) :=
  match s.pc t with
  | .lockLoad w => some (.lockCas w s.lock.stateAndVersion)
  | .headTest value =>
      some (match s.heap.root with
        | none => .newHead value
        | some _ => .headNode value)
  | .headNode value => s.heap.root.map fun current => .headCompare value current []
  | .headCompare value current read => do
      let node ← s.heap.node current
      let word ← node.value[read.length]?
      some (L.headCompared value current (read ++ [word]))
  | .searchRoot op => some (op.loop none s.heap.root)
  | .compare op test prev current read => do
      let node ← s.heap.node current
      let word ← node.value[read.length]?
      some (L.compared op test prev current (read ++ [word]))
  | .next op current => do
      let node ← s.heap.node current
      some (op.loop (some current) node.next)
  | .assertNext value prev => do
      let node ← s.deref prev
      node.next.map fun _ => .overwriteNode value prev
  | .overwriteNode value prev => do
      let node ← s.deref prev
      node.next.map fun current => .overwrite value current 0
  | .unlink prev current => do
      let node ← s.heap.node current
      some (.link prev node.next (some current))
  | .epochLoad value => some (.epochStore value s.handler.globalEpoch)
  | .validate value found =>
      let restart := HybridGuard.mustRestart (s.state t) s.lock.stateAndVersion
      some (.epochLeave value (if restart then none else some found))
  | .scanning i m =>
      some (if hi : i < n then .scanning (i + 1) (min m (s.handler.localEpoch ⟨i, hi⟩))
        else .freeing m 0)
  | _ => none

/-- The first access of a call. -/
def call (s : ListSt n T A W) (t : Fin n) : Call T → ListSt n T A W
  | .insert value => s.setPc t (.lockLoad (.insert value))
  | .lookUp value result =>
      { s.setPc t (.epochLoad value) with
        result := Function.update s.result t (L.words result) }
  | .delete value => s.setPc t (.lockLoad (.delete value))

variable [DecidableEq A]

/-- `NewNode(value, next)`; the node will be stored behind `dst`. -/
def newNode (s : ListSt n T A W) (t : Fin n) (fresh : A) (value : T) (dst next : Option A) :
    Option (ListSt n T A W) :=
  match s.heap.node fresh with
  | some _ => none
  | none =>
      some { s.setPc t (.link dst (some fresh) none) with
        heap := s.heap.alloc fresh ⟨L.words value, next⟩ }

/-- A round of the freeing loop, or the `erase` behind it. -/
def freeStep (s : ListSt n T A W) (t : Fin n) (m idx : ℕ) : Option (ListSt n T A W) :=
  let stop := { s.setPc t (.outside none) with handler := s.handler.erasePrefix t idx }
  match (s.handler.toFreePtr t)[idx]? with
  | none => some stop
  | some e =>
      if e.epoch ≥ m then some stop
      else (s.heap.node e.ptr).map fun _ =>
        { s.setPc t (.freeing m (idx + 1)) with heap := s.heap.free e.ptr }

/-- The next access of a thread that is inside a call. -/
def resume (s : ListSt n T A W) (t : Fin n) (fresh : A) : Option (ListSt n T A W) :=
  match s.pc t with
  | .lockCas w old =>
      (s.lock.step (.tryLockExclusive t old)).map fun lock =>
        { s.setPc t (if s.lock.returned (.tryLockExclusive t old) = some true then w.start
            else .lockLoad w) with lock := lock }
  | .newHead value => s.newNode L t fresh value none s.heap.root
  | .splice value prev => do
      let node ← s.deref prev
      s.newNode L t fresh value prev node.next
  | .overwrite value current i => do
      let node ← s.heap.node current
      let word ← (L.words value)[i]?
      some { s.setPc t (if i + 1 < L.size then .overwrite value current (i + 1)
          else .unlockCall none) with
        heap := s.heap.setValue current (node.value.set i word) }
  | .link dst target victim =>
      if ∀ p ∈ dst, (s.heap.node p).isSome then
        some { s.setPc t (match victim with
            | none => .unlockCall none
            | some current => .deferFreePointer current) with
          heap := s.heap.link dst target }
      else none
  | .deferFreePointer current =>
      some { s.setPc t (.unlockCall (some true)) with
        handler := s.handler.deferFreePointer t current }
  | .unlockCall ret =>
      (s.lock.step (.release t .unlockExclusive)).map fun lock =>
        { s.setPc t (.unlocking ret) with lock := lock }
  | .unlocking ret =>
      (s.lock.step (.resume t false)).map fun lock =>
        { s.setPc t (if lock.pc t = .idle then .outside ret else .unlocking ret) with
          lock := lock }
  | .epochStore value epoch =>
      some { s.setPc t (.optimisticLock value) with handler := s.handler.publish t epoch }
  | .optimisticLock value =>
      let w := s.lock.stateAndVersion
      some { s.setPc t (if lockState w = HybridLock.exclusive then .optimisticLock value
          else .searchRoot (.lookUp value)) with
        state := Function.update s.state t w }
  | .copy value current i => do
      let node ← s.heap.node current
      let word ← node.value[i]?
      some { s.setPc t (if i + 1 < L.size then .copy value current (i + 1)
          else .validate value true) with
        result := Function.update s.result t ((s.result t).set i word) }
  | .epochLeave value ret =>
      some { s.setPc t (.left value ret) with handler := s.handler.leave t }
  | .freeing m idx => s.freeStep t m idx
  | _ => (s.read L t).map (s.setPc t)

/-- One step.  A thread that is inside a call starts no other. -/
def step (s : ListSt n T A W) : ListAct n T A → Option (ListSt n T A W)
  | .call t c =>
      match s.pc t with
      | .outside _ => some (s.call L t c)
      | _ => none
  | .freeOutdatedPtr t =>
      match s.pc t with
      | .outside _ => some (s.setPc t (.scanning 0 EpochHandler.maxValue))
      | _ => none
  | .advanceGlobalEpoch => some { s with handler := s.handler.advanceGlobalEpoch }
  | .resume t fresh => s.resume L t fresh

end ListSt

/-! ## What one step can do -/

/-- The node that `Insert` is about to make: stored behind `dst`, in front of `next`. -/
inductive ListSt.Allocates {n : ℕ} {T A W : Type} (s : ListSt n T A W) (t : Fin n) :
    (value : T) → (dst next : Option A) → Prop
  | head (value : T) (hpc : s.pc t = .newHead value) : Allocates s t value none s.heap.root
  | inner (value : T) (p : A) (node : Node A (List W)) (hpc : s.pc t = .splice value (some p))
      (hnode : s.heap.node p = some node) : Allocates s t value (some p) node.next

/-- Every step that only reads, with what it has read. -/
inductive ReadEffect {n : ℕ} {T A W : Type} {cmp : T → T → Ordering} (L : Layout W cmp)
    (s : ListSt n T A W) (t : Fin n) : ListPc T A W → Prop
  | lockLoad (w : Writer T) (hpc : s.pc t = .lockLoad w) :
      ReadEffect L s t (.lockCas w s.lock.stateAndVersion)
  | headNull (value : T) (hpc : s.pc t = .headTest value) (hroot : s.heap.root = none) :
      ReadEffect L s t (.newHead value)
  | headTest (value : T) (hpc : s.pc t = .headTest value) : ReadEffect L s t (.headNode value)
  | headNode (value : T) (hpc : s.pc t = .headNode value) (current : A)
      (hroot : s.heap.root = some current) : ReadEffect L s t (.headCompare value current [])
  | headCompare (value : T) (current : A) (read : List W)
      (hpc : s.pc t = .headCompare value current read) (node : Node A (List W))
      (hnode : s.heap.node current = some node) (word : W)
      (hword : node.value[read.length]? = some word) :
      ReadEffect L s t (L.headCompared value current (read ++ [word]))
  | searchRoot (op : Searcher T) (hpc : s.pc t = .searchRoot op) :
      ReadEffect L s t (op.loop none s.heap.root)
  | compare (op : Searcher T) (test : LoopTest) (prev : Option A) (current : A) (read : List W)
      (hpc : s.pc t = .compare op test prev current read) (node : Node A (List W))
      (hnode : s.heap.node current = some node) (word : W)
      (hword : node.value[read.length]? = some word) :
      ReadEffect L s t (L.compared op test prev current (read ++ [word]))
  | next (op : Searcher T) (current : A) (hpc : s.pc t = .next op current)
      (node : Node A (List W)) (hnode : s.heap.node current = some node) :
      ReadEffect L s t (op.loop (some current) node.next)
  | assertNext (value : T) (prev : Option A) (hpc : s.pc t = .assertNext value prev) :
      ReadEffect L s t (.overwriteNode value prev)
  | overwriteNode (value : T) (p : A) (hpc : s.pc t = .overwriteNode value (some p))
      (node : Node A (List W)) (hnode : s.heap.node p = some node) (current : A)
      (hnext : node.next = some current) : ReadEffect L s t (.overwrite value current 0)
  | unlink (prev : Option A) (current : A) (hpc : s.pc t = .unlink prev current)
      (node : Node A (List W)) (hnode : s.heap.node current = some node) :
      ReadEffect L s t (.link prev node.next (some current))
  | epochLoad (value : T) (hpc : s.pc t = .epochLoad value) :
      ReadEffect L s t (.epochStore value s.handler.globalEpoch)
  | restart (value : T) (found : Bool) (hpc : s.pc t = .validate value found) :
      ReadEffect L s t (.epochLeave value none)
  | valid (value : T) (found : Bool) (hpc : s.pc t = .validate value found)
      (hvalid : HybridGuard.mustRestart (s.state t) s.lock.stateAndVersion = false) :
      ReadEffect L s t (.epochLeave value (some found))
  | scan (i m : ℕ) (hpc : s.pc t = .scanning i m) (hi : i < n) :
      ReadEffect L s t (.scanning (i + 1) (min m (s.handler.localEpoch ⟨i, hi⟩)))
  | scanned (i m : ℕ) (hpc : s.pc t = .scanning i m) (hi : n ≤ i) :
      ReadEffect L s t (.freeing m 0)

/-- Everything an enabled action can do to the state, one constructor per kind of access. -/
inductive ListEffect {n : ℕ} {T A W : Type} [DecidableEq A] {cmp : T → T → Ordering}
    (L : Layout W cmp) (s : ListSt n T A W) : ListAct n T A → ListSt n T A W → Prop
  | call (t : Fin n) (c : Call T) (ret : Option Bool) (hpc : s.pc t = .outside ret) :
      ListEffect L s (.call t c) (s.call L t c)
  | freeOutdatedPtr (t : Fin n) (ret : Option Bool) (hpc : s.pc t = .outside ret) :
      ListEffect L s (.freeOutdatedPtr t) (s.setPc t (.scanning 0 EpochHandler.maxValue))
  | advanceGlobalEpoch :
      ListEffect L s .advanceGlobalEpoch { s with handler := s.handler.advanceGlobalEpoch }
  | read (t : Fin n) (fresh : A) (pc : ListPc T A W) (hread : ReadEffect L s t pc) :
      ListEffect L s (.resume t fresh) (s.setPc t pc)
  | lockRefused (t : Fin n) (fresh : A) (w : Writer T) (old : Word)
      (hpc : s.pc t = .lockCas w old) :
      ListEffect L s (.resume t fresh) (s.setPc t (.lockLoad w))
  | lockAcquired (t : Fin n) (fresh : A) (w : Writer T) (old : Word)
      (hpc : s.pc t = .lockCas w old) (lock : LockSt (Fin n))
      (hstep : s.lock.step (.tryLockExclusive t old) = some lock)
      (hexcl : lock.exclusive = t ::ₘ s.lock.exclusive) :
      ListEffect L s (.resume t fresh) { s.setPc t w.start with lock := lock }
  | newNode (t : Fin n) (fresh : A) (value : T) (dst next : Option A)
      (halloc : s.Allocates t value dst next) (hfresh : s.heap.node fresh = none) :
      ListEffect L s (.resume t fresh) { s.setPc t (.link dst (some fresh) none) with
        heap := s.heap.alloc fresh ⟨L.words value, next⟩ }
  | overwrite (t : Fin n) (fresh : A) (value : T) (current : A) (i : ℕ)
      (hpc : s.pc t = .overwrite value current i) (node : Node A (List W))
      (hnode : s.heap.node current = some node) (word : W)
      (hword : (L.words value)[i]? = some word) :
      ListEffect L s (.resume t fresh) { s.setPc t
          (if i + 1 < L.size then .overwrite value current (i + 1) else .unlockCall none) with
        heap := s.heap.setValue current (node.value.set i word) }
  | linkNew (t : Fin n) (fresh : A) (dst target : Option A)
      (hpc : s.pc t = .link dst target none) :
      ListEffect L s (.resume t fresh) { s.setPc t (.unlockCall none) with
        heap := s.heap.link dst target }
  | linkPast (t : Fin n) (fresh : A) (dst target : Option A) (victim : A)
      (hpc : s.pc t = .link dst target (some victim)) :
      ListEffect L s (.resume t fresh) { s.setPc t (.deferFreePointer victim) with
        heap := s.heap.link dst target }
  | deferFreePointer (t : Fin n) (fresh : A) (current : A)
      (hpc : s.pc t = .deferFreePointer current) :
      ListEffect L s (.resume t fresh) { s.setPc t (.unlockCall (some true)) with
        handler := s.handler.deferFreePointer t current }
  | unlockCall (t : Fin n) (fresh : A) (ret : Option Bool) (hpc : s.pc t = .unlockCall ret)
      (lock : LockSt (Fin n)) (hstep : s.lock.step (.release t .unlockExclusive) = some lock) :
      ListEffect L s (.resume t fresh) { s.setPc t (.unlocking ret) with lock := lock }
  | unlocking (t : Fin n) (fresh : A) (ret : Option Bool) (hpc : s.pc t = .unlocking ret)
      (lock : LockSt (Fin n)) (hstep : s.lock.step (.resume t false) = some lock) :
      ListEffect L s (.resume t fresh) { s.setPc t
          (if lock.pc t = .idle then .outside ret else .unlocking ret) with
        lock := lock }
  | publish (t : Fin n) (fresh : A) (value : T) (epoch : ℕ)
      (hpc : s.pc t = .epochStore value epoch) :
      ListEffect L s (.resume t fresh) { s.setPc t (.optimisticLock value) with
        handler := s.handler.publish t epoch }
  | optimisticLock (t : Fin n) (fresh : A) (value : T) (hpc : s.pc t = .optimisticLock value) :
      ListEffect L s (.resume t fresh) { s.setPc t
          (if lockState s.lock.stateAndVersion = HybridLock.exclusive then .optimisticLock value
            else .searchRoot (.lookUp value)) with
        state := Function.update s.state t s.lock.stateAndVersion }
  | copy (t : Fin n) (fresh : A) (value : T) (current : A) (i : ℕ)
      (hpc : s.pc t = .copy value current i) (node : Node A (List W))
      (hnode : s.heap.node current = some node) (word : W) (hword : node.value[i]? = some word) :
      ListEffect L s (.resume t fresh) { s.setPc t
          (if i + 1 < L.size then .copy value current (i + 1) else .validate value true) with
        result := Function.update s.result t ((s.result t).set i word) }
  | leave (t : Fin n) (fresh : A) (value : T) (ret : Option Bool)
      (hpc : s.pc t = .epochLeave value ret) :
      ListEffect L s (.resume t fresh) { s.setPc t (.left value ret) with
        handler := s.handler.leave t }
  | free (t : Fin n) (fresh : A) (m idx : ℕ) (hpc : s.pc t = .freeing m idx)
      (e : ToFreePointer A) (he : (s.handler.toFreePtr t)[idx]? = some e) (hold : e.epoch < m) :
      ListEffect L s (.resume t fresh) { s.setPc t (.freeing m (idx + 1)) with
        heap := s.heap.free e.ptr }
  | erased (t : Fin n) (fresh : A) (m idx : ℕ) (hpc : s.pc t = .freeing m idx) :
      ListEffect L s (.resume t fresh) { s.setPc t (.outside none) with
        handler := s.handler.erasePrefix t idx }

namespace ListSt

variable {n : ℕ} {T A W : Type} [DecidableEq A] {cmp : T → T → Ordering} {L : Layout W cmp}
  {s s' : ListSt n T A W} {t : Fin n} {fresh : A}

omit [DecidableEq A] in
lemma read_effect {pc : ListPc T A W} (h : s.read L t = some pc) : ReadEffect L s t pc := by
  unfold read at h
  split at h
  case h_1 w hpc =>
    cases h
    exact .lockLoad w hpc
  case h_2 value hpc =>
    cases hroot : s.heap.root with
    | none =>
        rw [hroot, Option.some.injEq] at h
        exact h ▸ .headNull value hpc hroot
    | some current =>
        rw [hroot, Option.some.injEq] at h
        exact h ▸ .headTest value hpc
  case h_3 value hpc =>
    obtain ⟨current, hroot, rfl⟩ := Option.map_eq_some_iff.mp h
    exact .headNode value hpc current hroot
  case h_4 value current read hpc =>
    obtain ⟨node, hnode, h⟩ := Option.bind_eq_some_iff.mp h
    obtain ⟨word, hword, h⟩ := Option.bind_eq_some_iff.mp h
    cases h
    exact .headCompare value current read hpc node hnode word hword
  case h_5 op hpc =>
    cases h
    exact .searchRoot op hpc
  case h_6 op test prev current read hpc =>
    obtain ⟨node, hnode, h⟩ := Option.bind_eq_some_iff.mp h
    obtain ⟨word, hword, h⟩ := Option.bind_eq_some_iff.mp h
    cases h
    exact .compare op test prev current read hpc node hnode word hword
  case h_7 op current hpc =>
    obtain ⟨node, hnode, h⟩ := Option.bind_eq_some_iff.mp h
    cases h
    exact .next op current hpc node hnode
  case h_8 value prev hpc =>
    obtain ⟨node, -, h⟩ := Option.bind_eq_some_iff.mp h
    obtain ⟨current, -, rfl⟩ := Option.map_eq_some_iff.mp h
    exact .assertNext value prev hpc
  case h_9 value prev hpc =>
    obtain ⟨node, hnode, h⟩ := Option.bind_eq_some_iff.mp h
    obtain ⟨current, hnext, rfl⟩ := Option.map_eq_some_iff.mp h
    obtain ⟨p, rfl, hp⟩ := Option.bind_eq_some_iff.mp hnode
    exact .overwriteNode value p hpc node hp current hnext
  case h_10 prev current hpc =>
    obtain ⟨node, hnode, h⟩ := Option.bind_eq_some_iff.mp h
    cases h
    exact .unlink prev current hpc node hnode
  case h_11 value hpc =>
    cases h
    exact .epochLoad value hpc
  case h_12 value found hpc =>
    cases h
    cases hvalid : HybridGuard.mustRestart (s.state t) s.lock.stateAndVersion with
    | true => exact .restart value found hpc
    | false => exact .valid value found hpc hvalid
  case h_13 i m hpc =>
    cases h
    by_cases hi : i < n
    · rw [dif_pos hi]
      exact .scan i m hpc hi
    · rw [dif_neg hi]
      exact .scanned i m hpc (Nat.le_of_not_lt hi)
  case h_14 => cases h

lemma newNode_effect {value : T} {dst next : Option A} (halloc : s.Allocates t value dst next)
    (h : s.newNode L t fresh value dst next = some s') :
    ListEffect L s (.resume t fresh) s' := by
  unfold newNode at h
  split at h
  · cases h
  · next hfresh =>
      cases h
      exact .newNode t fresh value dst next halloc hfresh

lemma freeStep_effect {m idx : ℕ} (hpc : s.pc t = .freeing m idx)
    (h : s.freeStep t m idx = some s') : ListEffect L s (.resume t fresh) s' := by
  unfold freeStep at h
  split at h
  · cases h
    exact .erased t fresh m idx hpc
  · next e he =>
      split_ifs at h with hold
      · cases h
        exact .erased t fresh m idx hpc
      · obtain ⟨node, -, rfl⟩ := Option.map_eq_some_iff.mp h
        exact .free t fresh m idx hpc e he (Nat.lt_of_not_le hold)

/-- A round of the loop in which the constructor of the guard acquires the lock. -/
lemma lockCas_effect {w : Writer T} {old : Word} (hpc : s.pc t = .lockCas w old)
    {lock : LockSt (Fin n)} (hstep : s.lock.step (.tryLockExclusive t old) = some lock) :
    ListEffect L s (.resume t fresh)
      { s.setPc t (if s.lock.returned (.tryLockExclusive t old) = some true then w.start
          else .lockLoad w) with lock := lock } := by
  rcases LockSt.tryLockExclusive_outcome hstep with ⟨hret, rfl⟩ | ⟨hret, hexcl⟩
  · rw [if_neg (by simp [hret])]
    exact .lockRefused t fresh w old hpc
  · rw [if_pos hret]
    exact .lockAcquired t fresh w old hpc lock hstep hexcl

lemma resume_effect (h : s.resume L t fresh = some s') : ListEffect L s (.resume t fresh) s' := by
  unfold resume at h
  split at h
  case h_1 w old hpc =>
    obtain ⟨lock, hstep, rfl⟩ := Option.map_eq_some_iff.mp h
    exact lockCas_effect hpc hstep
  case h_2 value hpc => exact newNode_effect (.head value hpc) h
  case h_3 value prev hpc =>
    obtain ⟨node, hnode, h⟩ := Option.bind_eq_some_iff.mp h
    obtain ⟨p, rfl, hp⟩ := Option.bind_eq_some_iff.mp hnode
    exact newNode_effect (.inner value p node hpc hp) h
  case h_4 value current i hpc =>
    obtain ⟨node, hnode, h⟩ := Option.bind_eq_some_iff.mp h
    obtain ⟨word, hword, h⟩ := Option.bind_eq_some_iff.mp h
    cases h
    exact .overwrite t fresh value current i hpc node hnode word hword
  case h_5 dst target victim hpc =>
    split_ifs at h
    cases h
    cases victim with
    | none => exact .linkNew t fresh dst target hpc
    | some victim => exact .linkPast t fresh dst target victim hpc
  case h_6 current hpc =>
    cases h
    exact .deferFreePointer t fresh current hpc
  case h_7 ret hpc =>
    obtain ⟨lock, hstep, rfl⟩ := Option.map_eq_some_iff.mp h
    exact .unlockCall t fresh ret hpc lock hstep
  case h_8 ret hpc =>
    obtain ⟨lock, hstep, rfl⟩ := Option.map_eq_some_iff.mp h
    exact .unlocking t fresh ret hpc lock hstep
  case h_9 value epoch hpc =>
    cases h
    exact .publish t fresh value epoch hpc
  case h_10 value hpc =>
    cases h
    exact .optimisticLock t fresh value hpc
  case h_11 value current i hpc =>
    obtain ⟨node, hnode, h⟩ := Option.bind_eq_some_iff.mp h
    obtain ⟨word, hword, h⟩ := Option.bind_eq_some_iff.mp h
    cases h
    exact .copy t fresh value current i hpc node hnode word hword
  case h_12 value ret hpc =>
    cases h
    exact .leave t fresh value ret hpc
  case h_13 m idx hpc => exact freeStep_effect hpc h
  case h_14 =>
    obtain ⟨pc, hread, rfl⟩ := Option.map_eq_some_iff.mp h
    exact .read t fresh pc (read_effect hread)

/-- **Inversion of `step`.**  Every proof about a step goes through this, none unfolds it. -/
theorem step_effect {a : ListAct n T A} (h : s.step L a = some s') : ListEffect L s a s' := by
  cases a with
  | call t c =>
      simp only [step] at h
      split at h
      · next ret hpc =>
          cases h
          exact .call t c ret hpc
      · cases h
  | freeOutdatedPtr t =>
      simp only [step] at h
      split at h
      · next ret hpc =>
          cases h
          exact .freeOutdatedPtr t ret hpc
      · cases h
  | advanceGlobalEpoch =>
      cases h
      exact .advanceGlobalEpoch
  | resume t fresh => exact resume_effect h

/-- **Frame.**  A step leaves what belongs to the other threads. -/
theorem step_frame {a : ListAct n T A} (h : s.step L a = some s') {u : Fin n}
    (hu : a.thread ≠ some u) :
    s'.pc u = s.pc u ∧ s'.state u = s.state u ∧ s'.result u = s.result u ∧
      s'.handler.localEpoch u = s.handler.localEpoch u ∧
      s'.handler.toFreePtr u = s.handler.toFreePtr u := by
  cases a with
  | call t c =>
      have hne : u ≠ t := fun hut => hu (hut ▸ rfl)
      cases step_effect h with
      | call _ _ ret hpc => cases c <;> simp [call, hne]
  | freeOutdatedPtr t =>
      have hne : u ≠ t := fun hut => hu (hut ▸ rfl)
      cases step_effect h with
      | freeOutdatedPtr _ ret hpc => simp [hne]
  | advanceGlobalEpoch =>
      cases step_effect h with
      | advanceGlobalEpoch => exact ⟨rfl, rfl, rfl, rfl, rfl⟩
  | resume t fresh =>
      have hne : u ≠ t := fun hut => hu (hut ▸ rfl)
      cases step_effect h <;>
        simp [hne, EpochHandler.deferFreePointer, EpochHandler.publish, EpochHandler.leave,
          EpochHandler.erasePrefix]

/-- Nothing takes back a release of the lock. -/
lemma releases_le {a : ListAct n T A} (h : s.step L a = some s') :
    s.lock.releases ≤ s'.lock.releases := by
  cases step_effect h with
  | call t c ret hpc => cases c <;> exact Nat.le_refl _
  | lockAcquired t fresh w old hpc lock hstep hexcl =>
      exact LockInv.releases_le (a := .tryLockExclusive t old)
        (restrict_eq_some.mpr ⟨trivial, hstep⟩)
  | unlockCall t fresh ret hpc lock hstep => exact (LockInv.release_exclusive hstep).2.1.ge
  | unlocking t fresh ret hpc lock hstep =>
      exact LockInv.releases_le (a := .resume t false) (restrict_eq_some.mpr ⟨trivial, hstep⟩)
  | _ => exact Nat.le_refl _

end ListSt

/-! ## A layout to run -/

/-- Numbers are equivalent when they agree from the third digit on. -/
abbrev byHundreds : ℕ → ℕ → Ordering := compareOn (· / 100)

/-- A number in three words, of which the first decides. -/
def digits : Layout ℕ byHundreds where
  size := 3
  size_pos := by decide
  words x := [x / 100, x / 10 % 10, x % 10]
  length_words _ := rfl
  compare read v :=
    match read with
    | hundreds :: _ => compare hundreds (v / 100)
    | [] => .lt
  compare_words _ _ := rfl

/-- The next `k` accesses of `t`. -/
def resumes {n : ℕ} (t : Fin n) (k : ℕ) (fresh : ℕ) : List (ListAct n ℕ ℕ) :=
  List.replicate k (.resume t fresh)

end OptLock
