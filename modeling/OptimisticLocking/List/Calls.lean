import OptimisticLocking.List.SortedList
import OptimisticLocking.Sync.Guard
import OptimisticLocking.Sync.Epoch

/-!
# Calls to the two lists, one after another

`MutexSortedList` and `OptimisticSortedList` as their callers see them when no two calls overlap.

A call that waits for something only another thread could do never returns: it is a
`Fault.hang`.  The `std::shared_mutex` of `MutexSortedList` is always free between two calls, so it
does not appear; the `HybridLock` of `OptimisticSortedList` is not always free, so it does.

* `Call`, `Outcome` — what is called and what comes back.
* `MutexSortedList.call` and `OptimisticSortedList.call` — the code.
* `mapCall` — the purpose: the same calls on a map that stores one value for each class.
* **`MutexSortedList.call_effect`**, **`OptimisticSortedList.call_effect`** — what each call does
  to a list that holds a map.
-/

namespace OptLock

open LinkedList OrderedList HybridLock

inductive Call (T : Type)
  | insert (value : T)
  /-- `result` is what the output parameter holds before the call. -/
  | lookUp (value result : T)
  | delete (value : T)
  deriving DecidableEq, Repr

inductive Outcome (T : Type)
  | inserted
  /-- `result` is what the output parameter holds after the call. -/
  | lookedUp (found : Bool) (result : T)
  | deleted (found : Bool)
  deriving DecidableEq, Repr

def Call.IsInsert {T : Type} : Call T → Prop
  | .insert _ => True
  | _ => False

instance {T : Type} (c : Call T) : Decidable c.IsInsert := by
  cases c <;> unfold Call.IsInsert <;> infer_instance

/-- The calls that lock the list exclusively. -/
def Call.isWriter {T : Type} : Call T → Bool
  | .lookUp _ _ => false
  | _ => true

variable {T : Type}

/-- What a call to an ordered map does. -/
def mapCall (cmp : T → T → Ordering) (m : ClassMap T) : Call T → Outcome T × ClassMap T
  | .insert value => (.inserted, m.insert cmp value)
  | .lookUp value result =>
      match m value with
      | some x => (.lookedUp true x, m)
      | none => (.lookedUp false result, m)
  | .delete value => (.deleted (m value).isSome, m.erase cmp value)

/-! ## `MutexSortedList` -/

abbrev MutexSortedList (T : Type) := ListMem T

namespace MutexSortedList

variable (cmp : T → T → Ordering)

def insert (s : MutexSortedList T) (value : T) : Except Fault (MutexSortedList T) :=
  s.insertInto cmp value

def lookUp (s : MutexSortedList T) (value result : T) : Except Fault (Bool × T) :=
  s.lookUpIn cmp value result

def delete (s : MutexSortedList T) (value : T) : Except Fault (Bool × MutexSortedList T) := do
  let (s, current) ← s.deleteFrom cmp value
  match current with
  | none => return (false, s)
  | some a =>
      let s ← s.free a
      return (true, s)

def call (s : MutexSortedList T) : Call T → Except Fault (Outcome T × MutexSortedList T)
  | .insert value => do
      let s ← MutexSortedList.insert cmp s value
      return (.inserted, s)
  | .lookUp value result => do
      let (found, result) ← MutexSortedList.lookUp cmp s value result
      return (.lookedUp found result, s)
  | .delete value => do
      let (found, s) ← MutexSortedList.delete cmp s value
      return (.deleted found, s)

/-- `~MutexSortedList`. -/
def destroy (s : MutexSortedList T) : Except Fault (ListMem T) :=
  ListMem.destroyChain (s.allocated + 1) s

end MutexSortedList

/-! ## `OptimisticSortedList` -/

/-- The list with its lock and the `EpochHandler` it was constructed with. -/
structure OptimisticSortedList (T : Type) (n : ℕ) where
  mem : ListMem T
  lock : Word
  epoch : EpochHandler n ℕ

namespace OptimisticSortedList

variable {n : ℕ}

def init : OptimisticSortedList T n :=
  { mem := .empty, lock := HybridLock.init, epoch := .init }

/-- Indexing a vector of the handler with a `thread_id`. -/
def slot (tid : ℕ) : Except Fault (Fin n) :=
  if h : tid < n then .ok ⟨tid, h⟩ else .error (.outOfRange tid)

/-- The constructor of a guard in mode `EXCLUSIVE`.  Nobody else changes the word, so the first
round succeeds or no round ever does. -/
def lockExclusive (s : OptimisticSortedList T n) : Except Fault (OptimisticSortedList T n) :=
  match tryLockExclusive s.lock s.lock with
  | (true, w) => .ok { s with lock := w }
  | (false, _) => .error .hang

/-- The destructor of a guard in mode `EXCLUSIVE`. -/
def unlockExclusive (s : OptimisticSortedList T n) : Except Fault (OptimisticSortedList T n) :=
  if isExclusivelyLocked s.lock then .ok { s with lock := HybridLock.unlockExclusive s.lock }
  else .error .assertion

def publish (s : OptimisticSortedList T n) (t : Fin n) : OptimisticSortedList T n :=
  { s with epoch := s.epoch.publish t s.epoch.globalEpoch }

def leave (s : OptimisticSortedList T n) (t : Fin n) : OptimisticSortedList T n :=
  { s with epoch := s.epoch.leave t }

def deferFreePointer (s : OptimisticSortedList T n) (t : Fin n) (a : ℕ) :
    OptimisticSortedList T n :=
  { s with epoch := s.epoch.deferFreePointer t a }

variable (cmp : T → T → Ordering)

def insert (s : OptimisticSortedList T n) (value : T) :
    Except Fault (OptimisticSortedList T n) := do
  let s ← s.lockExclusive
  let mem ← s.mem.insertInto cmp value
  { s with mem := mem }.unlockExclusive

/-- Without other threads a failed validation would fail again in every round. -/
def lookUp (s : OptimisticSortedList T n) (tid : ℕ) (value result : T) :
    Except Fault ((Bool × T) × OptimisticSortedList T n) := do
  let t ← slot tid
  let s := s.publish t
  if lockState s.lock = HybridLock.exclusive then .error .hang
  else
    let state := s.lock
    let out ← s.mem.lookUpIn cmp value result
    if HybridGuard.mustRestart state s.lock then .error .hang
    else return (out, s.leave t)

def delete (s : OptimisticSortedList T n) (tid : ℕ) (value : T) :
    Except Fault (Bool × OptimisticSortedList T n) := do
  let s ← s.lockExclusive
  let (mem, current) ← s.mem.deleteFrom cmp value
  let s := { s with mem := mem }
  match current with
  | none =>
      let s ← s.unlockExclusive
      return (false, s)
  | some a =>
      let t ← slot tid
      let s ← (s.deferFreePointer t a).unlockExclusive
      return (true, s)

/-- A call by the thread whose `thread_id` is `tid`. -/
def call (s : OptimisticSortedList T n) (tid : ℕ) :
    Call T → Except Fault (Outcome T × OptimisticSortedList T n)
  | .insert value => do
      let s ← s.insert cmp value
      return (.inserted, s)
  | .lookUp value result => do
      let ((found, result), s) ← s.lookUp cmp tid value result
      return (.lookedUp found result, s)
  | .delete value => do
      let (found, s) ← s.delete cmp tid value
      return (.deleted found, s)

def advanceGlobalEpoch (s : OptimisticSortedList T n) : OptimisticSortedList T n :=
  { s with epoch := s.epoch.advanceGlobalEpoch }

def freeOutdatedPtr (s : OptimisticSortedList T n) (tid : ℕ) :
    Except Fault (OptimisticSortedList T n) := do
  let t ← slot tid
  let (ptrs, epoch) := s.epoch.freeOutdatedPtr t
  let mem ← ptrs.foldlM ListMem.free s.mem
  return { s with mem := mem, epoch := epoch }

/-- `~OptimisticSortedList`. -/
def destroyList (s : OptimisticSortedList T n) : Except Fault (OptimisticSortedList T n) := do
  let mem ← ListMem.destroyChain (s.mem.allocated + 1) s.mem
  return { s with mem := mem }

/-- `~EpochHandler`. -/
def destroyEpoch (s : OptimisticSortedList T n) : Except Fault (OptimisticSortedList T n) := do
  let mem ← s.epoch.destroy.foldlM ListMem.free s.mem
  return { s with mem := mem }

end OptimisticSortedList

/-! ## The map that a list holds -/

/-- In a sorted chain, nothing behind the place where the search stopped is below the value. -/
lemma Stop.gt_of_sorted {A : Type} {cmp : T → T → Ordering} [Std.TransCmp cmp] {value : T}
    {stopped : List (A × T)} (h : Stop cmp value stopped false)
    (hs : Sorted cmp (stopped.map Prod.snd)) : ∀ y ∈ stopped.map Prod.snd, cmp y value = .gt := by
  cases h with
  | atEnd => simp
  | greater c l hc =>
      intro y hy
      rcases List.mem_cons.mp hy with rfl | hy
      · exact hc
      · exact hs.gt_of_head (by simp [hc]) y hy

namespace ListMem

variable {cmp : T → T → Ordering} {m m' : ListMem T} {l l₁ l₂ : List (ℕ × T)} {map : ClassMap T}
  {value : T}

/-- The chain is finite and ascending and stores what the map does. -/
def Holds (cmp : T → T → Ordering) (m : ListMem T) (map : ClassMap T) : Prop :=
  ∃ l, m.Chain l ∧ Represents cmp (l.map Prod.snd) map

lemma holds_empty : (empty : ListMem T).Holds cmp ClassMap.empty :=
  ⟨[], rfl, Represents.empty⟩

section preorder

variable [Std.TransCmp cmp]

/-- Where the search stops without having found the value, the map does not store it. -/
lemma lookup_of_stop (hr : Represents cmp ((l₁ ++ l₂).map Prod.snd) map)
    (hlt : ∀ y ∈ l₁, cmp y.2 value = .lt) (hstop : Stop cmp value l₂ false) : map value = none := by
  have hs := hr.sorted
  rw [List.map_append] at hs
  rw [hr.lookup, List.map_append]
  exact lookup_of_split (List.forall_mem_map.mpr hlt)
    (hstop.gt_of_sorted (sorted_append.mp hs).2.1)

lemma lookup_of_mem {c : ℕ × T} (hr : Represents cmp ((l₁ ++ c :: l₂).map Prod.snd) map)
    (heq : cmp c.2 value = .eq) : map value = some c.2 := by
  have hs := hr.sorted
  rw [List.map_append, List.map_cons] at hs
  rw [hr.lookup, List.map_append, List.map_cons]
  exact (hs.lookup_of_eq heq).1

/-- An `Insert` that returns has inserted. -/
lemma InsertEffect.holds (h : InsertEffect cmp m value l (.ok m'))
    (hr : Represents cmp (l.map Prod.snd) map) : m'.Holds cmp (map.insert cmp value) := by
  cases h with
  | splice l₁ l₂ hl hlt hstop m' hchain halloc hfreed =>
      subst hl
      have hs := hr.sorted
      rw [List.map_append] at hr hs
      refine ⟨_, hchain, ?_⟩
      rw [List.map_append, List.map_cons]
      exact hr.splice (List.forall_mem_map.mpr hlt)
        (hstop.gt_of_sorted (sorted_append.mp hs).2.1)
  | overwrite l₁ c l₂ hl heq m' hchain halloc hfreed =>
      subst hl
      rw [List.map_append, List.map_cons] at hr
      refine ⟨_, hchain, ?_⟩
      rw [List.map_append, List.map_cons]
      exact hr.overwrite heq

/-- `LookUp` returns, with the answer of the map. -/
lemma Holds.lookUpIn (h : m.Holds cmp map) (value result : T) :
    m.lookUpIn cmp value result =
      .ok (match map value with | some x => (true, x) | none => (false, result)) := by
  obtain ⟨l, hc, hr⟩ := h
  rcases hc.lookUpIn_effect cmp value result with
    ⟨l₁, c, l₂, rfl, heq, hout⟩ | ⟨l₁, l₂, rfl, hlt, hstop, hout⟩
  · rw [hout, lookup_of_mem hr heq]
  · rw [hout, lookup_of_stop hr hlt hstop]

/-- What `Delete` leaves, and which node it unlinked. -/
lemma Holds.deleteFrom (h : m.Holds cmp map) (value : T) :
    ∃ m' current, m.deleteFrom cmp value = .ok (m', current) ∧
      current.isSome = (map value).isSome ∧ m'.Holds cmp (map.erase cmp value) ∧
      ∀ a, current = some a → ∃ m'', m'.free a = .ok m'' ∧
        m''.Holds cmp (map.erase cmp value) := by
  obtain ⟨l, hc, hr⟩ := h
  obtain ⟨⟨m', current⟩, hout, heffect⟩ := hc.deleteFrom_effect cmp value
  refine ⟨m', current, hout, ?_⟩
  cases heffect with
  | unlink l₁ c l₂ hl hlt heq m' hchain halloc hfreed =>
      subst hl
      have hnodup := hc.nodup
      have hlive := (m.live c.1).mp (by simp [hc.node_eq])
      rw [List.map_append, List.map_cons, List.nodup_middle, List.nodup_cons] at hnodup
      have herase : Represents cmp ((l₁ ++ l₂).map Prod.snd) (map.erase cmp value) := by
        rw [List.map_append, List.map_cons] at hr
        rw [List.map_append]
        exact hr.unlink heq
      refine ⟨by simp [lookup_of_mem hr heq], ⟨_, hchain, herase⟩, ?_⟩
      intro a ha
      obtain rfl : c.1 = a := Option.some.inj ha
      obtain ⟨m'', hfree, hchain', -⟩ := hchain.free_eq (halloc ▸ hlive.1) (hfreed ▸ hlive.2)
        (by simpa using hnodup.1)
      exact ⟨m'', hfree, _, hchain', herase⟩
  | absent l₁ l₂ hl hlt hstop =>
      subst hl
      have hnone := lookup_of_stop hr hlt hstop
      refine ⟨by simp [hnone], ⟨_, hc, hr.erase_of_none ?_⟩, by simp⟩
      rw [← hr.lookup, hnone]

end preorder

/-- An `Insert` returns a list that holds the value, or runs into the null pointer. -/
lemma Holds.insertInto [Std.TransCmp cmp] (h : m.Holds cmp map) (value : T) :
    (∃ m', m.insertInto cmp value = .ok m' ∧ m'.Holds cmp (map.insert cmp value)) ∨
      m.insertInto cmp value = .error .nullPointer := by
  obtain ⟨l, hc, hr⟩ := h
  have heffect := hc.insertInto_effect cmp value
  revert heffect
  cases m.insertInto cmp value with
  | ok m' =>
      intro heffect
      exact .inl ⟨m', rfl, heffect.holds hr⟩
  | error e =>
      intro heffect
      cases heffect
      exact .inr rfl

end ListMem

/-! ## What each call does -/

/-- **A call to `MutexSortedList`** answers like the map, except that `Insert` may not return. -/
theorem MutexSortedList.call_effect {cmp : T → T → Ordering} [Std.TransCmp cmp]
    {s : MutexSortedList T} {map : ClassMap T} (h : s.Holds cmp map) (c : Call T) :
    (∃ s', MutexSortedList.call cmp s c = .ok ((mapCall cmp map c).1, s') ∧
      s'.Holds cmp (mapCall cmp map c).2) ∨
    (c.IsInsert ∧ ∃ e, MutexSortedList.call cmp s c = .error e) := by
  cases c with
  | insert value =>
      rcases h.insertInto value with ⟨m', hok, hm'⟩ | herror
      · exact .inl ⟨m', by simp [call, MutexSortedList.insert, hok, mapCall], hm'⟩
      · have hcall : MutexSortedList.call cmp s (.insert value) = .error .nullPointer := by
          simp [call, MutexSortedList.insert, herror]
        exact .inr ⟨trivial, _, hcall⟩
  | lookUp value result =>
      have hout := h.lookUpIn value result
      left
      refine ⟨s, ?_, ?_⟩ <;> cases hmap : map value <;> simp [call, lookUp, hout, hmap, mapCall, h]
  | delete value =>
      obtain ⟨m', current, hout, hfound, hm', hcurrent⟩ := h.deleteFrom value
      left
      cases current with
      | none => exact ⟨m', by simp [call, delete, hout, mapCall, ← hfound], hm'⟩
      | some a =>
          obtain ⟨m'', hfree, hm''⟩ := hcurrent a rfl
          exact ⟨m'', by simp [call, delete, hout, hfree, mapCall, ← hfound], hm''⟩

namespace OptimisticSortedList

variable {cmp : T → T → Ordering} {n : ℕ} {s : OptimisticSortedList T n}

/-- As long as fewer than `2 ^ 56` exclusive sections have ended, the word counts them. -/
lemma lockExclusive_eq (hlt : s.lock.toNat < 2 ^ 56) :
    s.lockExclusive = .ok { s with lock := sameVersionNewState s.lock HybridLock.exclusive } := by
  have hfree : lockState s.lock = unlocked := by
    apply BitVec.eq_of_toNat_eq
    rw [lockState_toNat, Nat.div_eq_of_lt hlt]
    rfl
  rw [lockExclusive, tryLockExclusive_self, if_pos hfree]

/-- After `2 ^ 56` of them the carry is taken for a reader, and no later one begins. -/
lemma lockExclusive_hang (hmax : s.lock.toNat = 2 ^ 56) : s.lockExclusive = .error .hang := by
  have hbusy : lockState s.lock ≠ unlocked := by
    intro h
    have := congrArg BitVec.toNat h
    rw [lockState_toNat, hmax] at this
    cases this
  rw [lockExclusive, tryLockExclusive_self, if_neg hbusy]

/-- The end of an exclusive section. -/
lemma unlockExclusive_eq {w : Word} (hlock : s.lock = sameVersionNewState w HybridLock.exclusive)
    (hlt : w.toNat < 2 ^ 56) :
    ∃ w', s.unlockExclusive = .ok { s with lock := w' } ∧ w'.toNat = w.toNat + 1 := by
  have hstate : lockState s.lock = HybridLock.exclusive := by
    rw [hlock, lockState_sameVersionNewState w (by decide)]
  refine ⟨HybridLock.unlockExclusive s.lock, ?_, ?_⟩
  · rw [unlockExclusive, if_pos ((isExclusivelyLocked_iff _).mpr hstate)]
  · rw [toNat_unlockExclusive, hlock, version_sameVersionNewState, version_toNat]
    omega

/-- `LookUp` returns unless the lock is left exclusive. -/
lemma lookUp_eq [Std.TransCmp cmp] {map : ClassMap T} (h : s.mem.Holds cmp map)
    (hlock : s.lock.toNat ≤ 2 ^ 56) (tid : Fin n) (value result : T) :
    s.lookUp cmp tid value result =
      .ok (match map value with | some x => (true, x) | none => (false, result),
        (s.publish tid).leave tid) := by
  have hslot : slot (n := n) tid = .ok tid := dif_pos tid.isLt
  have hout : (s.publish tid).mem.lookUpIn cmp value result = _ := h.lookUpIn value result
  have hfree : lockState (s.publish tid).lock ≠ HybridLock.exclusive := by
    intro hx
    have hsame : (s.publish tid).lock = s.lock := rfl
    have hstate := congrArg BitVec.toNat hx
    rw [lockState_toNat, hsame] at hstate
    have : HybridLock.exclusive.toNat = 255 := rfl
    omega
  simp [lookUp, hslot, hout, hfree, HybridGuard.mustRestart]

/-- **A call to `OptimisticSortedList`** by a thread with a slot of its own answers like the map.
`Insert` may run into the null pointer, and a writer hangs once `2 ^ 56` exclusive sections have
ended. -/
theorem call_effect [Std.TransCmp cmp] {map : ClassMap T} (h : s.mem.Holds cmp map)
    (hlock : s.lock.toNat ≤ 2 ^ 56) (tid : Fin n) (c : Call T) :
    (∃ s', s.call cmp tid c = .ok ((mapCall cmp map c).1, s') ∧
      s'.mem.Holds cmp (mapCall cmp map c).2 ∧
      s'.lock.toNat = s.lock.toNat + c.isWriter.toNat ∧ s'.lock.toNat ≤ 2 ^ 56) ∨
    (c.IsInsert ∧ ∃ e, s.call cmp tid c = .error e) ∨
    (c.isWriter = true ∧ s.lock.toNat = 2 ^ 56 ∧ s.call cmp tid c = .error .hang) := by
  have hslot : slot (n := n) tid = .ok tid := dif_pos tid.isLt
  cases c with
  | insert value =>
      rcases Nat.lt_or_eq_of_le hlock with hlt | hmax
      · rcases h.insertInto value with ⟨m', hok, hm'⟩ | herror
        · obtain ⟨w', hunlock, hw'⟩ := unlockExclusive_eq (s := { s with
            mem := m', lock := sameVersionNewState s.lock HybridLock.exclusive }) rfl hlt
          refine .inl ⟨{ s with mem := m', lock := w' }, ?_, hm', hw', by simp only; omega⟩
          simp [call, insert, lockExclusive_eq hlt, hok, hunlock, mapCall]
        · have hcall : s.call cmp tid (.insert value) = .error .nullPointer := by
            simp [call, insert, lockExclusive_eq hlt, herror]
          exact .inr (.inl ⟨trivial, _, hcall⟩)
      · exact .inr (.inr ⟨rfl, hmax, by simp [call, insert, lockExclusive_hang hmax]⟩)
  | lookUp value result =>
      left
      have hout := lookUp_eq h hlock tid value result
      refine ⟨(s.publish tid).leave tid, ?_, ?_, rfl, hlock⟩
      · cases hmap : map value <;> simp [call, hout, hmap, mapCall]
      · have hmem : ((s.publish tid).leave tid).mem = s.mem := rfl
        cases hmap : map value <;> simp [mapCall, hmap, hmem, h]
  | delete value =>
      rcases Nat.lt_or_eq_of_le hlock with hlt | hmax
      · obtain ⟨m', current, hout, hfound, hm', -⟩ := h.deleteFrom value
        left
        cases current with
        | none =>
            obtain ⟨w', hunlock, hw'⟩ := unlockExclusive_eq (s := { s with
              mem := m', lock := sameVersionNewState s.lock HybridLock.exclusive }) rfl hlt
            refine ⟨{ s with mem := m', lock := w' }, ?_, hm', hw', by simp only; omega⟩
            simp [call, delete, lockExclusive_eq hlt, hout, hunlock, mapCall, ← hfound]
        | some a =>
            obtain ⟨w', hunlock, hw'⟩ := unlockExclusive_eq
              (s := deferFreePointer { s with
                mem := m', lock := sameVersionNewState s.lock HybridLock.exclusive } tid a) rfl hlt
            refine ⟨deferFreePointer { s with mem := m', lock := w' } tid a, ?_, hm', hw', by
              simp only [deferFreePointer]; omega⟩
            simp [call, delete, lockExclusive_eq hlt, hout, hslot, hunlock, mapCall, ← hfound]
            rfl
      · exact .inr (.inr ⟨rfl, hmax, by simp [call, delete, lockExclusive_hang hmax]⟩)

end OptimisticSortedList

end OptLock
