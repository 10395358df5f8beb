import OptimisticLocking.List.Interleaving
import Mathlib.Algebra.BigOperators.Group.Finset.Basic
import Mathlib.Data.Fintype.BigOperators

/-!
# The invariant of the interleaved list

Whatever the threads do, `root_` leads through a finite chain of nodes, and one thread at most is
about to change it.

* `ListSt.Accounts` — every allocated node is in exactly one place: in the chain, on the way into
  or out of it, or waiting to be freed.
* `PcOk` — what a thread knows of the chain from where it is.  It is stated on the words in
  memory, so that it is the same for the thread that holds the lock and for a `LookUp` that
  nothing has interfered with.
* `Stored` — between two writes of words, the chain stores whole values, in ascending order.
* **`ListInv.step`** — every step keeps the invariant.
-/

namespace OptLock

open LinkedList OrderedList HybridLock Transition

/-! ## Values that are written word by word -/

section words

variable {W : Type}

/-- The first `i` words of `new`, then those of `old`. -/
def partly (i : ℕ) (new old : List W) : List W := new.take i ++ old.drop i

@[simp] lemma partly_zero (new old : List W) : partly 0 new old = old := by
  simp [partly]

lemma partly_length {new old : List W} {i : ℕ} (hlen : old.length = new.length)
    (hi : new.length ≤ i) : partly i new old = new := by
  rw [partly, List.take_of_length_le hi, List.drop_of_length_le (by omega), List.append_nil]

/-- One word more. -/
lemma partly_set {new old : List W} {i : ℕ} {word : W} (hlen : old.length = new.length)
    (hword : new[i]? = some word) : (partly i new old).set i word = partly (i + 1) new old := by
  obtain ⟨hi, rfl⟩ := List.getElem?_eq_some_iff.mp hword
  have htake : (new.take i).length = i := by
    rw [List.length_take]
    omega
  have hdrop : old.drop i = old[i] :: old.drop (i + 1) := List.drop_eq_getElem_cons (by omega)
  rw [partly, List.set_append_right _ _ (by omega), htake, Nat.sub_self, hdrop, List.set_cons_zero,
    partly, List.take_succ_eq_append_getElem hi, List.append_assoc]
  rfl

lemma prefix_snoc {read w : List W} {word : W} (h : read <+: w)
    (hword : w[read.length]? = some word) : read ++ [word] <+: w := by
  obtain ⟨rest, rfl⟩ := h
  cases rest with
  | nil => simp at hword
  | cons x rest =>
      obtain rfl : x = word := by simpa using hword
      exact ⟨rest, by simp⟩

end words

/-! ## Where the nodes are -/

namespace ListPc

variable {T A W : Type}

/-- Nodes that are in no list: on the way into the chain, or on the way out of it. -/
def inFlight : ListPc T A W → List A
  | .link _ target none => target.toList
  | .deferFreePointer current => [current]
  | _ => []

/-- Of the entries of the own limbo list, those not freed yet. -/
def waiting (entries : List (ToFreePointer A)) : ListPc T A W → List (ToFreePointer A)
  | .freeing _ idx => entries.drop idx
  | _ => entries

/-- In front of an access that is made under the lock. -/
def critical : ListPc T A W → Bool
  | .headTest _ | .headNode _ | .headCompare _ _ _ | .newHead _ | .assertNext _ _
  | .overwriteNode _ _ | .overwrite _ _ _ | .splice _ _ | .unlink _ _ | .link _ _ _
  | .deferFreePointer _ | .unlockCall _ | .unlocking _ => true
  | .searchRoot (.writer _) | .compare (.writer _) _ _ _ _ | .next (.writer _) _ => true
  | _ => false

/-- While a value in the chain is being overwritten. -/
def overwriting : ListPc T A W → Bool
  | .overwrite _ _ _ => true
  | _ => false

/-- Inside `FreeOutdatedPtr`. -/
def reclaiming : ListPc T A W → Bool
  | .scanning _ _ | .freeing _ _ => true
  | _ => false

/-- The argument of the `LookUp` in progress. -/
def lookingUp : ListPc T A W → Option T
  | .epochLoad value | .epochStore value _ | .optimisticLock value | .copy value _ _
  | .validate value _ | .epochLeave value _ => some value
  | .searchRoot (.lookUp value) | .compare (.lookUp value) _ _ _ _ | .next (.lookUp value) _ =>
      some value
  | _ => none

end ListPc

section control

variable {T A W : Type} {cmp : T → T → Ordering} (L : Layout W cmp)

@[simp] lemma critical_start (w : Writer T) : (w.start : ListPc T A W).critical = true := by
  cases w <;> rfl

@[simp] lemma inFlight_start (w : Writer T) : (w.start : ListPc T A W).inFlight = [] := by
  cases w <;> rfl

@[simp] lemma waiting_start (w : Writer T) (entries : List (ToFreePointer A)) :
    (w.start : ListPc T A W).waiting entries = entries := by
  cases w <;> rfl

/-- What does not change for a thread at a step that only reads: whether it is under the lock,
which nodes it is responsible for, which value it looks up, and whether it reclaims. -/
structure SameRole (pc pc' : ListPc T A W) : Prop where
  critical : pc'.critical = pc.critical
  inFlight : pc'.inFlight = pc.inFlight
  waiting : ∀ entries, pc'.waiting entries = pc.waiting entries
  lookingUp : pc'.lookingUp = pc.lookingUp
  reclaiming : pc'.reclaiming = pc.reclaiming

lemma SameRole.trans {pc₁ pc₂ pc₃ : ListPc T A W} (h : SameRole pc₁ pc₂) (h' : SameRole pc₂ pc₃) :
    SameRole pc₁ pc₃ where
  critical := h'.critical.trans h.critical
  inFlight := h'.inFlight.trans h.inFlight
  waiting := fun entries => (h'.waiting entries).trans (h.waiting entries)
  lookingUp := h'.lookingUp.trans h.lookingUp
  reclaiming := h'.reclaiming.trans h.reclaiming

variable (op : Searcher T) (test : LoopTest) (prev : Option A) (current : A) (read : List W)

lemma SameRole.notFound :
    SameRole (.searchRoot op) (op.notFound prev : ListPc T A W) := by
  rcases op with v | (v | v) <;> exact ⟨rfl, rfl, fun _ => rfl, rfl, rfl⟩

lemma SameRole.found :
    SameRole (.searchRoot op) (op.found prev current : ListPc T A W) := by
  rcases op with v | (v | v) <;> exact ⟨rfl, rfl, fun _ => rfl, rfl, rfl⟩

lemma SameRole.compare :
    SameRole (.searchRoot op) (.compare op test prev current read : ListPc T A W) := by
  rcases op with v | w <;> exact ⟨rfl, rfl, fun _ => rfl, rfl, rfl⟩

lemma SameRole.of_compare :
    SameRole (.compare op test prev current read : ListPc T A W) (.searchRoot op) := by
  rcases op with v | w <;> exact ⟨rfl, rfl, fun _ => rfl, rfl, rfl⟩

lemma SameRole.of_next :
    SameRole (.next op current : ListPc T A W) (.searchRoot op) := by
  rcases op with v | w <;> exact ⟨rfl, rfl, fun _ => rfl, rfl, rfl⟩

lemma SameRole.next :
    SameRole (.searchRoot op) (.next op current : ListPc T A W) := by
  rcases op with v | w <;> exact ⟨rfl, rfl, fun _ => rfl, rfl, rfl⟩

lemma SameRole.loop (p : Option A) :
    SameRole (.searchRoot op) (op.loop prev p : ListPc T A W) := by
  cases p with
  | none => exact .notFound op prev
  | some current => exact .compare op .greater prev current []

lemma SameRole.tested (o : Ordering) :
    SameRole (.searchRoot op) (op.tested prev current o test : ListPc T A W) := by
  cases test with
  | greater =>
      rw [Searcher.tested]
      split_ifs
      · exact .notFound op prev
      · exact .compare op .equal prev current []
  | equal =>
      rw [Searcher.tested]
      split_ifs
      · exact .found op prev current
      · exact .next op current

lemma SameRole.compared : SameRole (.searchRoot op) (L.compared op test prev current read) := by
  rw [Layout.compared]
  split_ifs
  · exact .compare op test prev current read
  · exact .tested op test prev current _

lemma SameRole.headCompared (value : T) (read' : List W) :
    SameRole (.headCompare value current read') (L.headCompared value current read) := by
  rw [Layout.headCompared]
  split_ifs <;> exact ⟨rfl, rfl, fun _ => rfl, rfl, rfl⟩

lemma ReadEffect.sameRole {n : ℕ} {s : ListSt n T A W} {t : Fin n} {pc : ListPc T A W}
    (h : ReadEffect L s t pc) : SameRole (s.pc t) pc := by
  cases h with
  | headCompare value current read hpc => exact hpc ▸ .headCompared L current _ value read
  | searchRoot op hpc => exact hpc ▸ .loop op none _
  | compare op test prev current read hpc =>
      exact hpc ▸ .trans (.of_compare ..) (.compared L op test prev current _)
  | next op current hpc => exact hpc ▸ .trans (.of_next op current) (.loop op (some current) _)
  | scanned i m hpc => exact hpc ▸ ⟨rfl, rfl, fun _ => List.drop_zero, rfl, rfl⟩
  | lockLoad _ hpc | headNull _ hpc | headTest _ hpc | headNode _ hpc | assertNext _ _ hpc
  | overwriteNode _ _ hpc | unlink _ _ hpc | epochLoad _ hpc | restart _ _ hpc | valid _ _ hpc
  | scan _ _ hpc => exact hpc ▸ ⟨rfl, rfl, fun _ => rfl, rfl, rfl⟩

end control

/-- Every step by which `t` gets into `FreeOutdatedPtr`, or stays inside of it. -/
inductive ReclaimEffect {n : ℕ} {T A W : Type} [DecidableEq A] (s : ListSt n T A W) (t : Fin n) :
    ListSt n T A W → Prop
  | call (ret : Option Bool) (hpc : s.pc t = .outside ret) :
      ReclaimEffect s t (s.setPc t (.scanning 0 EpochHandler.maxValue))
  | scan (i m : ℕ) (hpc : s.pc t = .scanning i m) (hi : i < n) :
      ReclaimEffect s t
        (s.setPc t (.scanning (i + 1) (min m (s.handler.localEpoch ⟨i, hi⟩))))
  | scanned (i m : ℕ) (hpc : s.pc t = .scanning i m) (hi : n ≤ i) :
      ReclaimEffect s t (s.setPc t (.freeing m 0))
  | free (m idx : ℕ) (hpc : s.pc t = .freeing m idx) (e : ToFreePointer A)
      (he : (s.handler.toFreePtr t)[idx]? = some e) (hold : e.epoch < m) :
      ReclaimEffect s t { s.setPc t (.freeing m (idx + 1)) with heap := s.heap.free e.ptr }

/-- **Inversion of the steps of `FreeOutdatedPtr`**, but for the last. -/
theorem ListSt.reclaim_effect {n : ℕ} {T A W : Type} [DecidableEq A] {cmp : T → T → Ordering}
    {L : Layout W cmp} {s s' : ListSt n T A W} {t : Fin n} {a : ListAct n T A}
    (hstep : s.step L a = some s') (ht : a.thread = some t)
    (hrec : (s'.pc t).reclaiming = true) : ReclaimEffect s t s' := by
  cases step_effect hstep with
  | advanceGlobalEpoch => cases ht
  | call u c =>
      obtain rfl : u = t := Option.some.inj ht
      cases c <;> simp [call, ListPc.reclaiming] at hrec
  | freeOutdatedPtr u ret hpc =>
      obtain rfl : u = t := Option.some.inj ht
      exact .call ret hpc
  | read u fresh pc hread =>
      obtain rfl : u = t := Option.some.inj ht
      rw [setPc_pc, Function.update_self, hread.sameRole.reclaiming] at hrec
      cases hread with
      | scan i m hpc hi => exact .scan i m hpc hi
      | scanned i m hpc hi => exact .scanned i m hpc hi
      | lockLoad _ hpc | headNull _ hpc | headTest _ hpc | headNode _ hpc | headCompare _ _ _ hpc
      | searchRoot _ hpc | compare _ _ _ _ _ hpc | next _ _ hpc | assertNext _ _ hpc
      | overwriteNode _ _ hpc | unlink _ _ hpc | epochLoad _ hpc | restart _ _ hpc
      | valid _ _ hpc =>
          rw [hpc] at hrec
          cases hrec
  | free u fresh m idx hpc e he hold =>
      obtain rfl : u = t := Option.some.inj ht
      exact .free m idx hpc e he hold
  | lockAcquired u fresh w =>
      obtain rfl : u = t := Option.some.inj ht
      cases w <;> simp [Writer.start, ListPc.reclaiming] at hrec
  | leave u fresh value ret =>
      obtain rfl : u = t := Option.some.inj ht
      cases ret <;> simp [ListPc.left, ListPc.reclaiming] at hrec
  | overwrite u | unlocking u | optimisticLock u | copy u =>
      obtain rfl : u = t := Option.some.inj ht
      simp only [setPc_pc, Function.update_self] at hrec
      split_ifs at hrec <;> cases hrec
  | lockRefused u | newNode u | linkNew u | linkPast u | deferFreePointer u | unlockCall u
  | publish u | erased u =>
      obtain rfl : u = t := Option.some.inj ht
      simp only [setPc_pc, Function.update_self] at hrec
      cases hrec

namespace ListSt

variable {n : ℕ} {T A W : Type} (s : ListSt n T A W)

/-- Of the entries of the limbo list of `t`, those not freed yet. -/
def waiting (t : Fin n) : List (ToFreePointer A) := (s.pc t).waiting (s.handler.toFreePtr t)

/-- The nodes that `t` is responsible for. -/
def held (t : Fin n) : List A := (s.pc t).inFlight ++ (s.waiting t).map (·.ptr)

/-- The nodes outside of the chain. -/
def owned : Multiset A := ∑ t, (s.held t : Multiset A)

/-- Every allocated node is in exactly one place. -/
structure Accounts (l : List (A × List W)) : Prop where
  nodup : ((l.map Prod.fst : Multiset A) + s.owned).Nodup
  mem : ∀ a, a ∈ (l.map Prod.fst : Multiset A) + s.owned ↔ (s.heap.node a).isSome

variable {s} {s' : ListSt n T A W} {l l' : List (A × List W)} {t : Fin n}

lemma mem_owned {a : A} : a ∈ s.owned ↔ ∃ t, a ∈ s.held t := by
  simp [owned, Multiset.mem_sum]

lemma held_of_pc {pc : ListPc T A W} (hpc : s.pc t = pc) :
    s.held t = pc.inFlight ++ (pc.waiting (s.handler.toFreePtr t)).map (·.ptr) := by
  rw [held, waiting, hpc]

/-- In front of a round of the freeing loop. -/
lemma held_of_freeing {m idx : ℕ} (hpc : s.pc t = .freeing m idx) {e : ToFreePointer A}
    (he : (s.handler.toFreePtr t)[idx]? = some e) :
    s.held t = e.ptr :: ((s.handler.toFreePtr t).drop (idx + 1)).map (·.ptr) := by
  obtain ⟨hlt, rfl⟩ := List.getElem?_eq_some_iff.mp he
  rw [held_of_pc hpc, ← List.map_cons, ← List.drop_eq_getElem_cons hlt]
  rfl

lemma held_congr {u : Fin n} (hpc : s'.pc u = s.pc u)
    (hlist : s'.handler.toFreePtr u = s.handler.toFreePtr u) : s'.held u = s.held u := by
  rw [held, held, waiting, waiting, hpc, hlist]

/-- When one thread's nodes change, the nodes outside of the chain change by as much. -/
lemma owned_add (hothers : ∀ u, u ≠ t → s'.held u = s.held u) :
    s'.owned + (s.held t : Multiset A) = s.owned + (s'.held t : Multiset A) := by
  have hsame : ∑ u ∈ Finset.univ.erase t, (s'.held u : Multiset A)
      = ∑ u ∈ Finset.univ.erase t, (s.held u : Multiset A) := by
    refine Finset.sum_congr rfl ?_
    intro u hu
    rw [hothers u (Finset.ne_of_mem_erase hu)]
  rw [owned, owned, ← Finset.sum_erase_add _ _ (Finset.mem_univ t),
    ← Finset.sum_erase_add _ _ (Finset.mem_univ t), hsame]
  exact add_right_comm ..

/-- A step that moves nodes between places at most. -/
lemma Accounts.move (h : s.Accounts l)
    (htotal : (l'.map Prod.fst : Multiset A) + s'.owned = (l.map Prod.fst : Multiset A) + s.owned)
    (hsome : ∀ a, (s'.heap.node a).isSome = (s.heap.node a).isSome) : s'.Accounts l' where
  nodup := htotal ▸ h.nodup
  mem := by
    intro a
    rw [htotal, hsome]
    exact h.mem a

/-- A node in the chain is in no other place. -/
lemma Accounts.notMem_chain (h : s.Accounts l) {a : A} (ha : a ∈ s.held t) :
    a ∉ l.map Prod.fst := by
  intro hl
  exact Multiset.disjoint_left.mp (Multiset.nodup_add.mp h.nodup).2.2 hl (mem_owned.mpr ⟨t, ha⟩)

/-- No two threads are responsible for one node. -/
lemma Accounts.notMem_held (h : s.Accounts l) {a : A} {u : Fin n} (hu : u ≠ t)
    (ha : a ∈ s.held t) : a ∉ s.held u := by
  intro ha'
  have hnodup := (Multiset.nodup_add.mp h.nodup).2.1
  rw [owned, ← Finset.add_sum_erase _ _ (Finset.mem_univ t)] at hnodup
  refine Multiset.disjoint_left.mp (Multiset.nodup_add.mp hnodup).2.2 ha ?_
  exact Multiset.mem_sum.mpr ⟨u, Finset.mem_erase.mpr ⟨hu, Finset.mem_univ u⟩, ha'⟩

variable {l₁ l₂ : List (A × List W)} {c : A × List W}

lemma addrs_middle : ((l₁ ++ c :: l₂).map Prod.fst : Multiset A)
    = c.1 ::ₘ ((l₁ ++ l₂).map Prod.fst : Multiset A) := by
  rw [List.map_append, List.map_cons, List.map_append, Multiset.cons_coe, Multiset.coe_eq_coe]
  exact List.perm_middle

lemma Accounts.link (h : s.Accounts (l₁ ++ l₂)) (howned : s.owned = c.1 ::ₘ s'.owned)
    (hsome : ∀ a, (s'.heap.node a).isSome = (s.heap.node a).isSome) :
    s'.Accounts (l₁ ++ c :: l₂) := by
  refine h.move ?_ hsome
  rw [addrs_middle, howned, Multiset.cons_add, Multiset.add_cons]

lemma Accounts.unlink (h : s.Accounts (l₁ ++ c :: l₂)) (howned : s'.owned = c.1 ::ₘ s.owned)
    (hsome : ∀ a, (s'.heap.node a).isSome = (s.heap.node a).isSome) :
    s'.Accounts (l₁ ++ l₂) := by
  refine h.move ?_ hsome
  rw [addrs_middle, howned, Multiset.cons_add, Multiset.add_cons]

section updates

variable [DecidableEq A] {a : A}

lemma Accounts.alloc {node : Node A (List W)} (h : s.Accounts l) (hfresh : s.heap.node a = none)
    (howned : s'.owned = a ::ₘ s.owned) (hheap : s'.heap = s.heap.alloc a node) :
    s'.Accounts l where
  nodup := by
    rw [howned, Multiset.add_cons, Multiset.nodup_cons]
    refine ⟨?_, h.nodup⟩
    rw [h.mem, hfresh]
    exact nofun
  mem := by
    intro b
    rw [howned, Multiset.add_cons, Multiset.mem_cons, h.mem, hheap, Heap.alloc_node]
    by_cases hb : b = a
    · simp [hb]
    · simp [hb]

lemma Accounts.free (h : s.Accounts l) (howned : s.owned = a ::ₘ s'.owned)
    (hheap : s'.heap = s.heap.free a) : s'.Accounts l := by
  have hnodup := h.nodup
  rw [howned, Multiset.add_cons, Multiset.nodup_cons] at hnodup
  refine ⟨hnodup.2, ?_⟩
  intro b
  rw [hheap, Heap.free_node]
  by_cases hb : b = a
  · rw [hb]
    simpa using hnodup.1
  · have hmem := h.mem b
    rw [howned, Multiset.add_cons, Multiset.mem_cons, or_iff_right hb] at hmem
    rwa [Function.update_of_ne hb]

end updates

end ListSt

/-! ## What a thread knows of the chain -/

section knowledge

variable {T A W : Type} {cmp : T → T → Ordering} (L : Layout W cmp)

/-- The cells in memory of a list of values. -/
def Layout.cells (l : List (A × T)) : List (A × List W) := l.map fun c => (c.1, L.words c.2)

/-- The chain stores whole values, in ascending order. -/
def Stored (l : List (A × List W)) : Prop :=
  ∃ values, l = L.cells values ∧ (Std.TransCmp cmp → Sorted cmp (values.map Prod.snd))

/-- What is known in front of an access, when the chain is `l`. -/
def PcOk (heap : Heap A (List W)) (result : List W) (l : List (A × List W)) :
    ListPc T A W → Prop
  | .headCompare _ current read => ∃ w l₂, l = (current, w) :: l₂ ∧ read <+: w
  | .newHead value => Stop L.compare value l false
  | .compare op test prev current read => ∃ l₁ w l₂, l = l₁ ++ (current, w) :: l₂ ∧
      prev = lastAddr l₁ ∧ (∀ y ∈ l₁, L.compare y.2 op.value = .lt) ∧ read <+: w ∧
      (test = .equal → L.compare w op.value ≠ .gt)
  | .next op current => ∃ l₁ w l₂, l = l₁ ++ (current, w) :: l₂ ∧
      ∀ y ∈ l₁ ++ [(current, w)], L.compare y.2 op.value = .lt
  | .assertNext value prev | .overwriteNode value prev => ∃ l₁ c l₂, l = l₁ ++ c :: l₂ ∧
      prev = lastAddr l₁ ∧ L.compare c.2 value = .eq
  | .overwrite value current i => ∃ v₁ x v₂, cmp x value = .eq ∧
      l = L.cells v₁ ++ (current, partly i (L.words value) (L.words x)) :: L.cells v₂ ∧
      (Std.TransCmp cmp → Sorted cmp ((v₁ ++ (current, x) :: v₂).map Prod.snd))
  | .splice value prev => ∃ l₁ l₂, l = l₁ ++ l₂ ∧ prev = lastAddr l₁ ∧
      (∀ y ∈ l₁, L.compare y.2 value = .lt) ∧ Stop L.compare value l₂ false
  | .unlink prev current => ∃ l₁ w l₂, l = l₁ ++ (current, w) :: l₂ ∧ prev = lastAddr l₁
  | .link dst target none => ∃ l₁ l₂ a value, l = l₁ ++ l₂ ∧ dst = lastAddr l₁ ∧
      target = some a ∧ heap.node a = some ⟨L.words value, firstAddr l₂⟩ ∧
      (∀ y ∈ l₁, L.compare y.2 value = .lt) ∧ Stop L.compare value l₂ false
  | .link dst target (some victim) => ∃ l₁ w l₂, l = l₁ ++ (victim, w) :: l₂ ∧
      dst = lastAddr l₁ ∧ target = firstAddr l₂
  | .copy value current i => ∃ l₁ w l₂ old, l = l₁ ++ (current, w) :: l₂ ∧
      L.compare w value = .eq ∧ old.length = L.size ∧ result = partly i w old
  | .validate value true => ∃ c ∈ l, L.compare c.2 value = .eq ∧ result = c.2
  | .validate value false => ∃ l₁ l₂, l = l₁ ++ l₂ ∧
      (∀ y ∈ l₁, L.compare y.2 value = .lt) ∧ Stop L.compare value l₂ false
  | _ => True

variable {L} {heap : Heap A (List W)} {result : List W} {l l₁ l₂ : List (A × List W)}
  {op : Searcher T} {test : LoopTest} {prev : Option A} {current : A} {read w : List W} {value : T}

/-! ### Values and words -/

lemma cells_append (v₁ v₂ : List (A × T)) : L.cells (v₁ ++ v₂) = L.cells v₁ ++ L.cells v₂ :=
  List.map_append

@[simp] lemma cells_cons (c : A × T) (values : List (A × T)) :
    L.cells (c :: values) = (c.1, L.words c.2) :: L.cells values := rfl

lemma cells_eq_append {values : List (A × T)} (h : L.cells values = l₁ ++ l₂) :
    ∃ v₁ v₂, values = v₁ ++ v₂ ∧ L.cells v₁ = l₁ ∧ L.cells v₂ = l₂ :=
  List.map_eq_append_iff.mp h

lemma cells_eq_append_cons {values : List (A × T)}
    (h : L.cells values = l₁ ++ (current, w) :: l₂) :
    ∃ v₁ x v₂, values = v₁ ++ (current, x) :: v₂ ∧ L.cells v₁ = l₁ ∧ L.words x = w ∧
      L.cells v₂ = l₂ := by
  obtain ⟨v₁, rest, rfl, h₁, h₂⟩ := cells_eq_append h
  obtain ⟨c, v₂, rfl, hc, hv₂⟩ := List.map_eq_cons_iff.mp h₂
  obtain ⟨rfl, hw⟩ := Prod.mk.inj hc
  exact ⟨v₁, c.2, v₂, rfl, h₁, hw, hv₂⟩

lemma below_of_cells {values : List (A × T)} (h : ∀ y ∈ L.cells values, L.compare y.2 value = .lt) :
    ∀ y ∈ values.map Prod.snd, cmp y value = .lt := by
  intro y hy
  obtain ⟨c, hc, rfl⟩ := List.mem_map.mp hy
  rw [← L.compare_words]
  exact h (c.1, L.words c.2) (List.mem_map_of_mem hc)

lemma Stop.of_cells {values : List (A × T)} {found : Bool}
    (h : Stop L.compare value (L.cells values) found) : Stop cmp value values found := by
  cases values with
  | nil =>
      cases h
      exact .atEnd
  | cons c values =>
      cases h with
      | greater _ _ hgt => exact .greater c values (L.compare_words c.2 value ▸ hgt)
      | equal _ _ heq => exact .equal c values (L.compare_words c.2 value ▸ heq)

lemma Stored.length (h : Stored L l) {c : A × List W} (hc : c ∈ l) : c.2.length = L.size := by
  obtain ⟨values, rfl, -⟩ := h
  obtain ⟨x, -, rfl⟩ := List.mem_map.mp hc
  exact L.length_words x.2

/-- What is known depends on the new node of `Insert` only. -/
lemma PcOk.of_heap {heap' : Heap A (List W)} {pc : ListPc T A W} (h : PcOk L heap result l pc)
    (hsame : ∀ a ∈ pc.inFlight, heap'.node a = heap.node a) : PcOk L heap' result l pc := by
  cases pc with
  | link dst target victim =>
      cases victim with
      | none =>
          obtain ⟨l₁, l₂, a, value, hl, hdst, rfl, hnode, hlt, hstop⟩ := h
          exact ⟨l₁, l₂, a, value, hl, hdst, rfl, (hsame a List.mem_cons_self).trans hnode, hlt,
            hstop⟩
      | some victim => exact h
  | validate value found => cases found <;> exact h
  | _ => exact h

/-! ### Where the reads lead -/

lemma PcOk.notFound (hl : l = l₁ ++ l₂) (hprev : prev = lastAddr l₁)
    (hlt : ∀ y ∈ l₁, L.compare y.2 op.value = .lt) (hstop : Stop L.compare op.value l₂ false) :
    PcOk L heap result l (op.notFound prev) := by
  rcases op with v | (v | v)
  · exact ⟨l₁, l₂, hl, hlt, hstop⟩
  · exact ⟨l₁, l₂, hl, hprev, hlt, hstop⟩
  · trivial

lemma PcOk.found (hl : l = l₁ ++ (current, w) :: l₂) (hprev : prev = lastAddr l₁)
    (heq : L.compare w op.value = .eq) (hresult : ∀ v, op = .lookUp v → result.length = L.size) :
    PcOk L heap result l (op.found prev current) := by
  rcases op with v | (v | v)
  · exact ⟨l₁, w, l₂, result, hl, heq, hresult v rfl, (partly_zero w result).symm⟩
  · exact ⟨l₁, (current, w), l₂, hl, hprev, heq⟩
  · exact ⟨l₁, w, l₂, hl, hprev⟩

lemma PcOk.loop (hl : l = l₁ ++ l₂) (hprev : prev = lastAddr l₁)
    (hlt : ∀ y ∈ l₁, L.compare y.2 op.value = .lt) :
    PcOk L heap result l (op.loop prev (firstAddr l₂)) := by
  cases l₂ with
  | nil => exact .notFound hl hprev hlt .atEnd
  | cons c l₂ => exact ⟨l₁, c.2, l₂, hl, hprev, hlt, List.nil_prefix, nofun⟩

lemma PcOk.tested (hl : l = l₁ ++ (current, w) :: l₂) (hprev : prev = lastAddr l₁)
    (hlt : ∀ y ∈ l₁, L.compare y.2 op.value = .lt)
    (hngt : test = .equal → L.compare w op.value ≠ .gt)
    (hresult : ∀ v, op = .lookUp v → result.length = L.size) :
    PcOk L heap result l (op.tested prev current (L.compare w op.value) test) := by
  cases test with
  | greater =>
      rw [Searcher.tested]
      split_ifs with hgt
      · exact .notFound hl hprev hlt (.greater (current, w) l₂ hgt)
      · exact ⟨l₁, w, l₂, hl, hprev, hlt, List.nil_prefix, fun _ => hgt⟩
  | equal =>
      rw [Searcher.tested]
      split_ifs with heq
      · exact .found hl hprev heq hresult
      · refine ⟨l₁, w, l₂, hl, ?_⟩
        -- neither greater nor equivalent
        have hcmp : L.compare w op.value = .lt := by
          cases hcase : L.compare w op.value with
          | lt => rfl
          | eq => exact absurd hcase heq
          | gt => exact absurd hcase (hngt rfl)
        intro y hy
        rcases List.mem_append.mp hy with hy | hy
        · exact hlt y hy
        · rw [List.mem_singleton.mp hy]
          exact hcmp

lemma PcOk.compared (hl : l = l₁ ++ (current, w) :: l₂) (hprev : prev = lastAddr l₁)
    (hlt : ∀ y ∈ l₁, L.compare y.2 op.value = .lt) (hread : read <+: w) (hlen : w.length = L.size)
    (hngt : test = .equal → L.compare w op.value ≠ .gt)
    (hresult : ∀ v, op = .lookUp v → result.length = L.size) :
    PcOk L heap result l (L.compared op test prev current read) := by
  rw [Layout.compared]
  split_ifs with hmore
  · exact ⟨l₁, w, l₂, hl, hprev, hlt, hread, hngt⟩
  · obtain rfl : read = w := hread.eq_of_length_le (by omega)
    exact .tested hl hprev hlt hngt hresult

lemma PcOk.headCompared (hl : l = (current, w) :: l₂) (hread : read <+: w)
    (hlen : w.length = L.size) :
    PcOk L heap result l (L.headCompared value current read) := by
  rw [Layout.headCompared]
  split_ifs with hmore hgt
  · exact ⟨w, l₂, hl, hread⟩
  · obtain rfl : read = w := hread.eq_of_length_le (by omega)
    rw [hl]
    exact .greater (current, read) l₂ hgt
  · trivial

/-- **What a read adds.**  For the thread under the lock as for a `LookUp`, a step that only reads
leads from what was known to what is to be known. -/
theorem ReadEffect.pcOk {n : ℕ} {s : ListSt n T A W} {t : Fin n} {pc : ListPc T A W}
    (h : ReadEffect L s t pc) (hc : s.heap.Chain l) (hstored : Stored L l)
    (hresult : ∀ v, (s.pc t).lookingUp = some v → (s.result t).length = L.size)
    (hok : PcOk L s.heap (s.result t) l (s.pc t)) : PcOk L s.heap (s.result t) l pc := by
  have hroot := hc.root_eq
  cases h with
  | headNull value hpc hnull =>
      cases l with
      | nil => exact .atEnd
      | cons c l =>
          rw [hnull] at hroot
          cases hroot
  | headNode value hpc current hsome =>
      cases l with
      | nil =>
          rw [hsome] at hroot
          cases hroot
      | cons c l =>
          rw [hsome, firstAddr_cons, Option.some.injEq] at hroot
          exact ⟨c.2, l, by rw [hroot], List.nil_prefix⟩
  | headCompare value current read hpc node hnode word hword =>
      rw [hpc] at hok
      obtain ⟨w, l₂, rfl, hread⟩ := hok
      have hcell : s.heap.Chain ([] ++ (current, w) :: l₂) := hc
      rw [hcell.node_eq, Option.some.injEq] at hnode
      subst hnode
      exact .headCompared rfl (prefix_snoc hread hword) (hstored.length List.mem_cons_self)
  | searchRoot op hpc =>
      rw [hroot]
      exact .loop (List.nil_append l).symm rfl (by simp)
  | compare op test prev current read hpc node hnode word hword =>
      rw [hpc] at hok hresult
      obtain ⟨l₁, w, l₂, rfl, hprev, hlt, hread, hngt⟩ := hok
      rw [hc.node_eq, Option.some.injEq] at hnode
      subst hnode
      refine .compared rfl hprev hlt (prefix_snoc hread hword)
        (hstored.length (c := (current, w)) (by simp)) hngt ?_
      rintro v rfl
      exact hresult v rfl
  | next op current hpc node hnode =>
      rw [hpc] at hok
      obtain ⟨l₁, w, l₂, rfl, hlt⟩ := hok
      rw [hc.node_eq, Option.some.injEq] at hnode
      subst hnode
      exact .loop (by simp) (by simp) hlt
  | assertNext value prev hpc =>
      rw [hpc] at hok
      exact hok
  | overwriteNode value p hpc node hnode current hnext =>
      rw [hpc] at hok
      obtain ⟨l₁, c, l₂, rfl, hprev, heq⟩ := hok
      -- the cell behind the last one of `l₁` is `c`
      obtain ⟨l₀, x, rfl⟩ := exists_eq_append_of_lastAddr hprev.symm
      have hcell : s.heap.Chain (l₀ ++ (p, x) :: c :: l₂) := by simpa using hc
      rw [hcell.node_eq, Option.some.injEq] at hnode
      subst hnode
      rw [firstAddr_cons, Option.some.injEq] at hnext
      subst hnext
      obtain ⟨values, hvalues, hsorted⟩ := hstored
      obtain ⟨v₁, y, v₂, rfl, h₁, hw, h₂⟩ := cells_eq_append_cons hvalues.symm
      refine ⟨v₁, y, v₂, ?_, ?_, hsorted⟩
      · rw [← L.compare_words, hw]
        exact heq
      · rw [partly_zero, h₁, hw, h₂]
  | unlink prev current hpc node hnode =>
      rw [hpc] at hok
      obtain ⟨l₁, w, l₂, rfl, hprev⟩ := hok
      rw [hc.node_eq, Option.some.injEq] at hnode
      subst hnode
      exact ⟨l₁, w, l₂, rfl, hprev, rfl⟩
  | _ => trivial

end knowledge

/-! ## The invariant -/

/-- The invariant, with the cells `l` of the chain. -/
structure ListInv {n : ℕ} {T A W : Type} {cmp : T → T → Ordering} (L : Layout W cmp)
    (s : ListSt n T A W) (l : List (A × List W)) : Prop where
  lock : LockInv s.lock
  /-- The thread that holds the lock is the one in front of an access made under it. -/
  roles : ∀ t, t ∈ s.lock.exclusive ↔ (s.pc t).critical = true
  chain : s.heap.Chain l
  accounts : s.Accounts l
  writer : ∀ t ∈ s.lock.exclusive, PcOk L s.heap (s.result t) l (s.pc t)
  stored : (∀ t, (s.pc t).overwriting = false) → Stored L l
  result : ∀ t v, (s.pc t).lookingUp = some v → (s.result t).length = L.size

namespace ListInv

variable {n : ℕ} {T A W : Type} {cmp : T → T → Ordering} {L : Layout W cmp}
  {s s' : ListSt n T A W} {l l' : List (A × List W)} {t : Fin n} {pc : ListPc T A W}

lemma init : ListInv L (ListSt.init : ListSt n T A W) [] where
  lock := .init
  roles := fun t => by simp [ListSt.init, LockSt.init, ListPc.critical]
  chain := rfl
  accounts := by
    have hnone : (ListSt.init : ListSt n T A W).owned = 0 := by
      simp [ListSt.owned, ListSt.held, ListSt.waiting, ListSt.init, EpochHandler.init,
        ListPc.inFlight, ListPc.waiting]
    refine ⟨?_, ?_⟩
    · simp [hnone]
    · intro a
      rw [hnone]
      simp [ListSt.init]
  writer := fun t ht => absurd ht (Multiset.notMem_zero t)
  stored := fun _ => ⟨[], rfl, fun _ => List.Pairwise.nil⟩
  result := fun t v hv => by simp [ListSt.init, ListPc.lookingUp] at hv

/-- One thread at most holds the lock. -/
lemma eq_of_mem (h : ListInv L s l) {u : Fin n} (ht : t ∈ s.lock.exclusive)
    (hu : u ∈ s.lock.exclusive) : u = t := by
  rwa [(h.lock.heldExclusively_of_mem ht).1, Multiset.mem_singleton] at hu

lemma notMem_of_pc (h : ListInv L s l) (hpc : s.pc t = pc) (hcrit : pc.critical = false) :
    t ∉ s.lock.exclusive := by
  rw [h.roles, hpc, hcrit]
  exact Bool.false_ne_true

lemma mem_of_pc (h : ListInv L s l) (hpc : s.pc t = pc) (hcrit : pc.critical = true) :
    t ∈ s.lock.exclusive := by
  rw [h.roles, hpc, hcrit]

/-- A value is being overwritten by the thread that holds the lock only. -/
lemma overwriting_mem (h : ListInv L s l) (hover : (s.pc t).overwriting = true) :
    t ∈ s.lock.exclusive := by
  rw [h.roles]
  cases hpc : s.pc t <;> simp_all [ListPc.overwriting, ListPc.critical]

lemma stored_of_free (h : ListInv L s l) (hfree : s.lock.exclusive = 0) : Stored L l := by
  refine h.stored ?_
  intro t
  rw [← Bool.not_eq_true]
  intro hover
  have hmem := h.overwriting_mem hover
  rw [hfree] at hmem
  exact absurd hmem (Multiset.notMem_zero t)

lemma stored_of_writer (h : ListInv L s l) (ht : t ∈ s.lock.exclusive)
    (hover : (s.pc t).overwriting = false) : Stored L l := by
  refine h.stored ?_
  intro u
  rw [← Bool.not_eq_true]
  intro hu
  rw [h.eq_of_mem ht (h.overwriting_mem hu), hover] at hu
  cases hu

/-! ### Steps that leave the heap -/

/-- A step of `t` that leaves the heap, and the nodes that `t` is responsible for. -/
lemma frame (h : ListInv L s l) (hpc : s'.pc = Function.update s.pc t pc)
    (hheap : s'.heap = s.heap) (hlock : LockInv s'.lock)
    (hothers : ∀ u, u ≠ t → (u ∈ s'.lock.exclusive ↔ u ∈ s.lock.exclusive))
    (hrole : t ∈ s'.lock.exclusive ↔ pc.critical = true)
    (hlists : ∀ u, u ≠ t → s'.handler.toFreePtr u = s.handler.toFreePtr u)
    (hheld : (s'.held t : Multiset A) = s.held t)
    (hresult : ∀ u, u ≠ t → s'.result u = s.result u)
    (hlen : ∀ v, pc.lookingUp = some v → (s'.result t).length = L.size)
    (hover : (s.pc t).overwriting = true → pc.overwriting = true)
    (hok : t ∈ s'.lock.exclusive → PcOk L s.heap (s'.result t) l pc) : ListInv L s' l where
  lock := hlock
  roles := by
    intro u
    rw [hpc]
    by_cases hu : u = t
    · rw [hu, Function.update_self]
      exact hrole
    · rw [Function.update_of_ne hu]
      exact (hothers u hu).trans (h.roles u)
  chain := hheap ▸ h.chain
  accounts := by
    refine h.accounts.move (congrArg _ ?_) (fun a => by rw [hheap])
    have hadd := ListSt.owned_add (s := s) (t := t) fun u hu =>
      ListSt.held_congr (by rw [hpc, Function.update_of_ne hu]) (hlists u hu)
    rw [hheld] at hadd
    exact add_right_cancel hadd
  writer := by
    intro u hmem
    rw [hpc, hheap]
    by_cases hu : u = t
    · subst hu
      rw [Function.update_self]
      exact hok hmem
    · rw [Function.update_of_ne hu, hresult u hu]
      exact h.writer u ((hothers u hu).mp hmem)
  stored := by
    intro hall
    refine h.stored ?_
    intro u
    have hu := hall u
    rw [← Bool.not_eq_true] at hu ⊢
    rw [hpc] at hu
    by_cases hut : u = t
    · rw [hut, Function.update_self] at hu
      exact fun hpc => hu (hover (hut ▸ hpc))
    · rwa [Function.update_of_ne hut] at hu
  result := by
    intro u v hv
    rw [hpc] at hv
    by_cases hu : u = t
    · rw [hu, Function.update_self] at hv
      rw [hu]
      exact hlen v hv
    · rw [Function.update_of_ne hu] at hv
      rw [hresult u hu]
      exact h.result u v hv

/-- A step of `t` that leaves the lock and the limbo lists as well. -/
lemma frame_local (h : ListInv L s l) (hpc : s'.pc = Function.update s.pc t pc)
    (hheap : s'.heap = s.heap) (hlock : s'.lock = s.lock)
    (hlists : s'.handler.toFreePtr = s.handler.toFreePtr)
    (hcrit : pc.critical = (s.pc t).critical) (hflight : pc.inFlight = (s.pc t).inFlight)
    (hwait : ∀ entries, pc.waiting entries = (s.pc t).waiting entries)
    (hresult : ∀ u, u ≠ t → s'.result u = s.result u)
    (hlen : ∀ v, pc.lookingUp = some v → (s'.result t).length = L.size)
    (hover : (s.pc t).overwriting = true → pc.overwriting = true)
    (hok : t ∈ s.lock.exclusive → PcOk L s.heap (s'.result t) l pc) : ListInv L s' l := by
  refine h.frame hpc hheap (hlock ▸ h.lock) (fun _ _ => by rw [hlock]) ?_
    (fun u _ => congrFun hlists u) ?_ hresult hlen hover (hlock ▸ hok)
  · rw [hlock, h.roles, hcrit]
  · rw [ListSt.held_of_pc (s := s') (by rw [hpc, Function.update_self]), hflight, hwait, hlists]
    rfl

/-- A step of a thread outside of the lock that makes it responsible for no other nodes. -/
lemma frame_unlocked (h : ListInv L s l) (hpc : s'.pc = Function.update s.pc t pc)
    {pc₀ : ListPc T A W} (hpc₀ : s.pc t = pc₀)
    (hheap : s'.heap = s.heap) (hlock : s'.lock = s.lock)
    (hlists : s'.handler.toFreePtr = s.handler.toFreePtr)
    (hcrit₀ : pc₀.critical = false) (hcrit : pc.critical = false)
    (hflight : pc.inFlight = pc₀.inFlight)
    (hwait : ∀ entries, pc.waiting entries = pc₀.waiting entries)
    (hresult : ∀ u, u ≠ t → s'.result u = s.result u)
    (hlen : ∀ v, pc.lookingUp = some v → (s'.result t).length = L.size) : ListInv L s' l := by
  subst hpc₀
  have hout := h.notMem_of_pc rfl hcrit₀
  refine h.frame_local hpc hheap hlock hlists (hcrit.trans hcrit₀.symm) hflight hwait hresult hlen
    ?_ (fun hmem => absurd hmem hout)
  intro hover
  exact absurd (h.overwriting_mem hover) hout

lemma call (h : ListInv L s l) {ret : Option Bool} (hpc : s.pc t = .outside ret) (c : Call T) :
    ListInv L (s.call L t c) l := by
  cases c with
  | insert value =>
      exact h.frame_unlocked rfl hpc rfl rfl rfl rfl rfl rfl (fun _ => rfl) (fun _ _ => rfl) nofun
  | lookUp value result =>
      refine h.frame_unlocked rfl hpc rfl rfl rfl rfl rfl rfl (fun _ => rfl) ?_ ?_
      · intro u hu
        exact Function.update_of_ne hu ..
      · intro v _
        show (Function.update s.result t (L.words result) t).length = L.size
        rw [Function.update_self, L.length_words]
  | delete value =>
      exact h.frame_unlocked rfl hpc rfl rfl rfl rfl rfl rfl (fun _ => rfl) (fun _ _ => rfl) nofun

lemma read (h : ListInv L s l) (hread : ReadEffect L s t pc) : ListInv L (s.setPc t pc) l := by
  have hrole := hread.sameRole
  have hover : (s.pc t).overwriting = false := by
    cases hread <;> simp_all [ListPc.overwriting]
  refine h.frame_local rfl rfl rfl rfl hrole.critical hrole.inFlight hrole.waiting
    (fun _ _ => rfl) ?_ ?_ ?_
  · intro v hv
    exact h.result t v (hrole.lookingUp ▸ hv)
  · rw [hover]
    exact nofun
  · intro ht
    exact hread.pcOk h.chain (h.stored_of_writer ht hover) (h.result t) (h.writer t ht)

lemma freeOutdatedPtr (h : ListInv L s l) {ret : Option Bool} (hpc : s.pc t = .outside ret) :
    ListInv L (s.setPc t (.scanning 0 EpochHandler.maxValue)) l :=
  h.frame_unlocked rfl hpc rfl rfl rfl rfl rfl rfl (fun _ => rfl) (fun _ _ => rfl) nofun

lemma advanceGlobalEpoch (h : ListInv L s l) :
    ListInv L { s with handler := s.handler.advanceGlobalEpoch } l :=
  ⟨h.lock, h.roles, h.chain, h.accounts.move rfl (fun _ => rfl), h.writer, h.stored, h.result⟩

lemma lockRefused (h : ListInv L s l) {w : Writer T} {old : Word} (hpc : s.pc t = .lockCas w old) :
    ListInv L (s.setPc t (.lockLoad w)) l :=
  h.frame_unlocked rfl hpc rfl rfl rfl rfl rfl rfl (fun _ => rfl) (fun _ _ => rfl) nofun

lemma publish (h : ListInv L s l) {value : T} {epoch : ℕ} (hpc : s.pc t = .epochStore value epoch) :
    ListInv L { s.setPc t (.optimisticLock value) with
      handler := s.handler.publish t epoch } l := by
  refine h.frame_unlocked rfl hpc rfl rfl rfl rfl rfl rfl (fun _ => rfl) (fun _ _ => rfl) ?_
  intro v hv
  exact h.result t v (hpc ▸ hv)

lemma optimisticLock (h : ListInv L s l) {value : T} (hpc : s.pc t = .optimisticLock value)
    {state : Fin n → Word} (hnext : pc = .optimisticLock value ∨ pc = .searchRoot (.lookUp value)) :
    ListInv L { s.setPc t pc with state := state } l := by
  have hlen : ∀ v, some value = some v → (s.result t).length = L.size :=
    fun v hv => h.result t v (hpc ▸ hv)
  rcases hnext with rfl | rfl
  · exact h.frame_unlocked rfl hpc rfl rfl rfl rfl rfl rfl (fun _ => rfl) (fun _ _ => rfl) hlen
  · exact h.frame_unlocked rfl hpc rfl rfl rfl rfl rfl rfl (fun _ => rfl) (fun _ _ => rfl) hlen

lemma copy (h : ListInv L s l) {value : T} {current : A} {i : ℕ} {word : W}
    (hpc : s.pc t = .copy value current i)
    (hnext : pc = .copy value current (i + 1) ∨ pc = .validate value true) :
    ListInv L { s.setPc t pc with
      result := Function.update s.result t ((s.result t).set i word) } l := by
  have hresult : ∀ u, u ≠ t →
      Function.update s.result t ((s.result t).set i word) u = s.result u :=
    fun u hu => Function.update_of_ne hu ..
  have hlen : ∀ v, some value = some v →
      (Function.update s.result t ((s.result t).set i word) t).length = L.size := by
    intro v hv
    rw [Function.update_self, List.length_set]
    exact h.result t v (hpc ▸ hv)
  rcases hnext with rfl | rfl
  · exact h.frame_unlocked rfl hpc rfl rfl rfl rfl rfl rfl (fun _ => rfl) hresult hlen
  · exact h.frame_unlocked rfl hpc rfl rfl rfl rfl rfl rfl (fun _ => rfl) hresult hlen

lemma leave (h : ListInv L s l) {value : T} {ret : Option Bool}
    (hpc : s.pc t = .epochLeave value ret) :
    ListInv L { s.setPc t (.left value ret) with handler := s.handler.leave t } l := by
  cases ret with
  | none =>
      refine h.frame_unlocked rfl hpc rfl rfl rfl rfl rfl rfl (fun _ => rfl) (fun _ _ => rfl) ?_
      intro v hv
      exact h.result t v (hpc ▸ hv)
  | some found =>
      exact h.frame_unlocked rfl hpc rfl rfl rfl rfl rfl rfl (fun _ => rfl) (fun _ _ => rfl) nofun

/-! ### Steps of the lock -/

lemma lockAcquired (h : ListInv L s l) {w : Writer T} {old : Word} {lock : LockSt (Fin n)}
    (hpc : s.pc t = .lockCas w old) (hstep : s.lock.step (.tryLockExclusive t old) = some lock)
    (hexcl : lock.exclusive = t ::ₘ s.lock.exclusive) :
    ListInv L { s.setPc t w.start with lock := lock } l := by
  have hlock := h.lock.step (a := .tryLockExclusive t old) (restrict_eq_some.mpr ⟨trivial, hstep⟩)
  refine h.frame rfl rfl hlock ?_ ?_ (fun _ _ => rfl) ?_ (fun _ _ => rfl) ?_ ?_ ?_
  · intro u hu
    simp [hexcl, hu]
  · simp [hexcl]
  · rw [ListSt.held_of_pc (Function.update_self ..), ListSt.held_of_pc hpc, inFlight_start,
      waiting_start]
    rfl
  · cases w <;> exact nofun
  · rw [hpc]
    exact nofun
  · intro _
    cases w <;> trivial

lemma unlockCall (h : ListInv L s l) {ret : Option Bool} {lock : LockSt (Fin n)}
    (hpc : s.pc t = .unlockCall ret)
    (hstep : s.lock.step (.release t .unlockExclusive) = some lock) :
    ListInv L { s.setPc t (.unlocking ret) with lock := lock } l := by
  have hmem := h.mem_of_pc hpc rfl
  have hlock := h.lock.step (a := .release t .unlockExclusive)
    (restrict_eq_some.mpr ⟨hmem, hstep⟩)
  have hexcl := (LockInv.release_exclusive hstep).1
  refine h.frame rfl rfl hlock (fun u _ => ?_) ?_ (fun _ _ => rfl) ?_ (fun _ _ => rfl) nofun ?_
    (fun _ => trivial)
  · show u ∈ lock.exclusive ↔ _
    rw [hexcl]
  · exact iff_of_true (hexcl ▸ hmem) rfl
  · rw [ListSt.held_of_pc (Function.update_self ..), ListSt.held_of_pc hpc]
    rfl
  · rw [hpc]
    exact nofun

lemma unlocking (h : ListInv L s l) {ret : Option Bool} {lock : LockSt (Fin n)}
    (hpc : s.pc t = .unlocking ret) (hstep : s.lock.step (.resume t false) = some lock) :
    ListInv L { s.setPc t (if lock.pc t = .idle then .outside ret else .unlocking ret) with
      lock := lock } l := by
  have hmem := h.mem_of_pc hpc rfl
  have hlock := h.lock.step (a := .resume t false) (restrict_eq_some.mpr ⟨trivial, hstep⟩)
  have hheld := ListSt.held_of_pc hpc
  rcases h.lock.resume_outcome hmem hstep with ⟨hexcl, -, hbusy⟩ | ⟨hexcl, -, hidle⟩
  · rw [if_neg hbusy]
    refine h.frame rfl rfl hlock (fun u _ => ?_) ?_ (fun _ _ => rfl) ?_ (fun _ _ => rfl) nofun ?_
      (fun _ => trivial)
    · show u ∈ lock.exclusive ↔ _
      rw [hexcl]
    · exact iff_of_true (hexcl ▸ hmem) rfl
    · rw [ListSt.held_of_pc (Function.update_self ..), hheld]
      rfl
    · rw [hpc]
      exact nofun
  · rw [if_pos hidle]
    have hnone : lock.exclusive = 0 := by
      rw [hexcl, (h.lock.heldExclusively_of_mem hmem).1, Multiset.erase_singleton]
    refine h.frame rfl rfl hlock (fun u hu => ?_) ?_ (fun _ _ => rfl) ?_ (fun _ _ => rfl) nofun ?_
      (fun _ => trivial)
    · show u ∈ lock.exclusive ↔ _
      rw [hexcl, Multiset.mem_erase_of_ne hu]
    · refine iff_of_false ?_ Bool.false_ne_true
      show t ∉ lock.exclusive
      rw [hnone]
      exact Multiset.notMem_zero t
    · rw [ListSt.held_of_pc (Function.update_self ..), hheld]
      rfl
    · rw [hpc]
      exact nofun

/-! ### Steps of the limbo lists -/

lemma deferFreePointer (h : ListInv L s l) {current : A}
    (hpc : s.pc t = .deferFreePointer current) :
    ListInv L { s.setPc t (.unlockCall (some true)) with
      handler := s.handler.deferFreePointer t current } l := by
  have hmem := h.mem_of_pc hpc rfl
  refine h.frame rfl rfl h.lock (fun _ _ => Iff.rfl) (iff_of_true hmem rfl) ?_ ?_ (fun _ _ => rfl)
    ?_ ?_ (fun _ => trivial)
  · intro u hu
    exact Function.update_of_ne hu ..
  · rw [ListSt.held_of_pc (Function.update_self ..), ListSt.held_of_pc hpc]
    simp [ListPc.inFlight, ListPc.waiting, EpochHandler.deferFreePointer]
  · intro v hv
    cases hv
  · rw [hpc]
    intro hover
    cases hover

lemma erased (h : ListInv L s l) {m idx : ℕ} (hpc : s.pc t = .freeing m idx) :
    ListInv L { s.setPc t (.outside none) with handler := s.handler.erasePrefix t idx } l := by
  have hout := h.notMem_of_pc hpc rfl
  refine h.frame rfl rfl h.lock (fun _ _ => Iff.rfl) (iff_of_false hout Bool.false_ne_true) ?_ ?_
    (fun _ _ => rfl) ?_ ?_ (fun _ => trivial)
  · intro u hu
    exact Function.update_of_ne hu ..
  · rw [ListSt.held_of_pc (Function.update_self ..), ListSt.held_of_pc hpc]
    simp [ListPc.inFlight, ListPc.waiting, EpochHandler.erasePrefix]
  · intro v hv
    cases hv
  · rw [hpc]
    intro hover
    cases hover

/-! ### Writes of the thread that holds the lock -/

/-- A write to the list. -/
lemma write (h : ListInv L s l) (hmem : t ∈ s.lock.exclusive)
    (hpc : s'.pc = Function.update s.pc t pc) (hlock : s'.lock = s.lock)
    (hresult : s'.result = s.result) (hcrit : pc.critical = true) (hlook : pc.lookingUp = none)
    (hchain : s'.heap.Chain l') (haccounts : s'.Accounts l')
    (hok : PcOk L s'.heap (s.result t) l' pc)
    (hstored : pc.overwriting = false → Stored L l') : ListInv L s' l' where
  lock := hlock ▸ h.lock
  roles := by
    intro u
    rw [hpc, hlock]
    by_cases hu : u = t
    · rw [hu, Function.update_self]
      exact iff_of_true hmem hcrit
    · rw [Function.update_of_ne hu]
      exact h.roles u
  chain := hchain
  accounts := haccounts
  writer := by
    intro u hu
    obtain rfl := h.eq_of_mem hmem (hlock ▸ hu)
    rw [hpc, hresult, Function.update_self]
    exact hok
  stored := by
    intro hall
    refine hstored ?_
    have ht := hall t
    rwa [hpc, Function.update_self] at ht
  result := by
    intro u v hv
    rw [hpc] at hv
    rw [hresult]
    by_cases hu : u = t
    · rw [hu, Function.update_self, hlook] at hv
      cases hv
    · rw [Function.update_of_ne hu] at hv
      exact h.result u v hv

/-- How the nodes outside of the chain change at such a step. -/
lemma owned_write (s s' : ListSt n T A W) (hpc : s'.pc = Function.update s.pc t pc)
    (hhandler : s'.handler = s.handler)
    (hwait : ∀ entries, pc.waiting entries = (s.pc t).waiting entries) {x x₀ : List A}
    (hflight : pc.inFlight = x) (hflight₀ : (s.pc t).inFlight = x₀) :
    s'.owned + (x₀ : Multiset A) = s.owned + (x : Multiset A) := by
  have hadd : s'.owned + (s.held t : Multiset A) = s.owned + (s'.held t : Multiset A) :=
    ListSt.owned_add fun u hu =>
      ListSt.held_congr (by rw [hpc, Function.update_of_ne hu]) (by rw [hhandler])
  have hself : s'.held t = x ++ ((s.pc t).waiting (s.handler.toFreePtr t)).map (·.ptr) := by
    rw [ListSt.held, ListSt.waiting, hpc, Function.update_self, hhandler, hwait, hflight]
  rw [hself, ListSt.held, ListSt.waiting, hflight₀, ← Multiset.coe_add, ← Multiset.coe_add,
    ← add_assoc, ← add_assoc] at hadd
  exact add_right_cancel hadd

/-- Where the new node belongs. -/
lemma allocates (h : ListInv L s l) {value : T} {dst next : Option A}
    (halloc : s.Allocates t value dst next) :
    t ∈ s.lock.exclusive ∧ (s.pc t).inFlight = [] ∧
      (∀ entries, (s.pc t).waiting entries = entries) ∧ (s.pc t).overwriting = false ∧
      ∃ l₁ l₂, l = l₁ ++ l₂ ∧ dst = lastAddr l₁ ∧ next = firstAddr l₂ ∧
        (∀ y ∈ l₁, L.compare y.2 value = .lt) ∧ Stop L.compare value l₂ false := by
  cases halloc with
  | head hpc =>
      have hmem := h.mem_of_pc hpc rfl
      have hok := h.writer t hmem
      rw [hpc] at hok ⊢
      exact ⟨hmem, rfl, fun _ => rfl, rfl, [], l, rfl, rfl, h.chain.root_eq, by simp, hok⟩
  | inner p node hpc hnode =>
      have hmem := h.mem_of_pc hpc rfl
      have hok := h.writer t hmem
      rw [hpc] at hok ⊢
      obtain ⟨l₁, l₂, rfl, hprev, hlt, hstop⟩ := hok
      refine ⟨hmem, rfl, fun _ => rfl, rfl, l₁, l₂, rfl, hprev, ?_, hlt, hstop⟩
      obtain ⟨l₀, x, rfl⟩ := exists_eq_append_of_lastAddr hprev.symm
      have hcell : s.heap.Chain (l₀ ++ (p, x) :: l₂) := by simpa using h.chain
      rw [hcell.node_eq, Option.some.injEq] at hnode
      rw [← hnode]

variable [DecidableEq A]

lemma newNode (h : ListInv L s l) {value : T} {dst next : Option A} {fresh : A}
    (halloc : s.Allocates t value dst next) (hfresh : s.heap.node fresh = none) :
    ListInv L { s.setPc t (.link dst (some fresh) none) with
      heap := s.heap.alloc fresh ⟨L.words value, next⟩ } l := by
  obtain ⟨hmem, hflight, hwait, hover, l₁, l₂, rfl, rfl, rfl, hlt, hstop⟩ := h.allocates halloc
  refine h.write hmem rfl rfl rfl rfl rfl (h.chain.alloc hfresh)
    (h.accounts.alloc hfresh ?_ rfl) ?_ (fun _ => h.stored_of_writer hmem hover)
  · have howned := owned_write s { s.setPc t (.link (lastAddr l₁) (some fresh) none) with
        heap := s.heap.alloc fresh ⟨L.words value, firstAddr l₂⟩ }
      rfl rfl (fun entries => (hwait entries).symm) (x := [fresh]) rfl hflight
    rw [Multiset.coe_nil, add_zero] at howned
    rw [howned, ← Multiset.singleton_add, add_comm]
    rfl
  · exact ⟨l₁, l₂, fresh, value, rfl, rfl, rfl, Function.update_self .., hlt, hstop⟩

lemma overwrite (h : ListInv L s l) {value : T} {current : A} {i : ℕ}
    (hpc : s.pc t = .overwrite value current i) {node : Node A (List W)}
    (hnode : s.heap.node current = some node) {word : W} (hword : (L.words value)[i]? = some word) :
    ∃ l', ListInv L { s.setPc t
        (if i + 1 < L.size then .overwrite value current (i + 1) else .unlockCall none) with
      heap := s.heap.setValue current (node.value.set i word) } l' := by
  have hmem := h.mem_of_pc hpc rfl
  have hok := h.writer t hmem
  rw [hpc] at hok
  obtain ⟨v₁, x, v₂, heq, rfl, hsorted⟩ := hok
  rw [h.chain.node_eq, Option.some.injEq] at hnode
  subst hnode
  have hlen : (L.words x).length = (L.words value).length := by
    rw [L.length_words, L.length_words]
  have hchain := h.chain.setValue (w := partly (i + 1) (L.words value) (L.words x))
  refine ⟨L.cells v₁ ++ (current, partly (i + 1) (L.words value) (L.words x)) :: L.cells v₂, ?_⟩
  show ListInv L { s.setPc t _ with heap := s.heap.setValue current ((partly i _ _).set i word) } _
  rw [partly_set hlen hword]
  have hflight₀ : (s.pc t).inFlight = [] := by
    rw [hpc]
    rfl
  have hmove : ∀ pc : ListPc T A W, pc.inFlight = [] → (∀ entries, pc.waiting entries = entries) →
      ListSt.Accounts { s.setPc t pc with
        heap := s.heap.setValue current (partly (i + 1) (L.words value) (L.words x)) }
      (L.cells v₁ ++ (current, partly (i + 1) (L.words value) (L.words x)) :: L.cells v₂) := by
    intro pc hflight hwait
    refine h.accounts.move ?_ (s.heap.setValue_isSome current · _)
    have howned := owned_write s { s.setPc t pc with
        heap := s.heap.setValue current (partly (i + 1) (L.words value) (L.words x)) }
      rfl rfl (fun entries => by rw [hwait, hpc]; rfl) hflight hflight₀
    rw [add_right_cancel howned]
    simp
  split_ifs with hmore
  · exact h.write hmem rfl rfl rfl rfl rfl hchain (hmove _ rfl fun _ => rfl)
      ⟨v₁, x, v₂, heq, rfl, hsorted⟩ nofun
  · refine h.write hmem rfl rfl rfl rfl rfl hchain (hmove _ rfl fun _ => rfl) trivial ?_
    intro _
    -- the last word: the cell holds the new value
    refine ⟨v₁ ++ (current, value) :: v₂, ?_, ?_⟩
    · rw [cells_append, cells_cons, partly_length hlen (by rw [L.length_words]; omega)]
    · intro hcmp
      have hs := hsorted hcmp
      rw [List.map_append, List.map_cons] at hs ⊢
      exact sorted_overwrite hs heq

/-- The store that links the new node. -/
lemma linkNew (h : ListInv L s l) {dst target : Option A} (hpc : s.pc t = .link dst target none) :
    ∃ l₁ c l₂, l = l₁ ++ l₂ ∧ target = some c.1 ∧
      ListInv L { s.setPc t (.unlockCall none) with heap := s.heap.link dst target }
        (l₁ ++ c :: l₂) := by
  have hmem := h.mem_of_pc hpc rfl
  have hstored := h.stored_of_writer hmem (by rw [hpc]; rfl)
  have hok := h.writer t hmem
  rw [hpc] at hok
  obtain ⟨l₁, l₂, a, value, rfl, rfl, rfl, hnode, hlt, hstop⟩ := hok
  have hheld : a ∈ s.held t := by
    rw [ListSt.held_of_pc hpc]
    exact List.mem_cons_self
  have hout := h.accounts.notMem_chain hheld
  rw [List.map_append, List.mem_append, not_or] at hout
  have hchain := h.chain.insert (c := (a, L.words value)) hnode hout.1
  refine ⟨l₁, (a, L.words value), l₂, rfl, rfl,
    h.write hmem rfl rfl rfl rfl rfl hchain ?_ trivial ?_⟩
  · refine h.accounts.link ?_ (s.heap.link_isSome _ _)
    have hflight₀ : (s.pc t).inFlight = [a] := by
      rw [hpc]
      rfl
    have howned := owned_write s { s.setPc t (.unlockCall none) with
        heap := s.heap.link (lastAddr l₁) (some a) }
      rfl rfl (fun entries => by rw [hpc]; rfl) (x := []) rfl hflight₀
    rw [Multiset.coe_nil, add_zero, add_comm] at howned
    exact howned.symm
  · intro _
    obtain ⟨values, hvalues, hsorted⟩ := hstored
    obtain ⟨v₁, v₂, rfl, rfl, rfl⟩ := cells_eq_append hvalues.symm
    refine ⟨v₁ ++ (a, value) :: v₂, by rw [cells_append, cells_cons], ?_⟩
    intro hcmp
    have hs := hsorted hcmp
    rw [List.map_append] at hs
    rw [List.map_append, List.map_cons]
    exact sorted_splice hs (below_of_cells hlt)
      (hstop.of_cells.gt_of_sorted (sorted_append.mp hs).2.1)

/-- The store that unlinks a node. -/
lemma linkPast (h : ListInv L s l) {dst target : Option A} {victim : A}
    (hpc : s.pc t = .link dst target (some victim)) :
    ∃ l₁ w l₂, l = l₁ ++ (victim, w) :: l₂ ∧ target = firstAddr l₂ ∧
      ListInv L { s.setPc t (.deferFreePointer victim) with heap := s.heap.link dst target }
        (l₁ ++ l₂) := by
  have hmem := h.mem_of_pc hpc rfl
  have hstored := h.stored_of_writer hmem (by rw [hpc]; rfl)
  have hok := h.writer t hmem
  rw [hpc] at hok
  obtain ⟨l₁, w, l₂, rfl, rfl, rfl⟩ := hok
  refine ⟨l₁, w, l₂, rfl, rfl, h.write hmem rfl rfl rfl rfl rfl h.chain.unlink ?_ trivial ?_⟩
  · refine h.accounts.unlink ?_ (s.heap.link_isSome _ _)
    have hflight₀ : (s.pc t).inFlight = [] := by
      rw [hpc]
      rfl
    have howned := owned_write s { s.setPc t (.deferFreePointer victim) with
        heap := s.heap.link (lastAddr l₁) (firstAddr l₂) }
      rfl rfl (fun entries => by rw [hpc]; rfl) (x := [victim]) rfl hflight₀
    rw [Multiset.coe_nil, add_zero, add_comm] at howned
    exact howned
  · intro _
    obtain ⟨values, hvalues, hsorted⟩ := hstored
    obtain ⟨v₁, x, v₂, rfl, rfl, -, rfl⟩ := cells_eq_append_cons hvalues.symm
    refine ⟨v₁ ++ v₂, (cells_append v₁ v₂).symm, ?_⟩
    intro hcmp
    have hs := hsorted hcmp
    rw [List.map_append, List.map_cons] at hs
    rw [List.map_append]
    exact sorted_unlink hs

/-- A round of the freeing loop. -/
lemma free (h : ListInv L s l) {m idx : ℕ} (hpc : s.pc t = .freeing m idx) {e : ToFreePointer A}
    (he : (s.handler.toFreePtr t)[idx]? = some e) :
    ListInv L { s.setPc t (.freeing m (idx + 1)) with heap := s.heap.free e.ptr } l := by
  have hheld := ListSt.held_of_freeing hpc he
  have hmem : e.ptr ∈ s.held t := by
    rw [hheld]
    exact List.mem_cons_self
  have hout := h.notMem_of_pc hpc rfl
  refine ⟨h.lock, ?_, h.chain.free (h.accounts.notMem_chain hmem), h.accounts.free ?_ rfl, ?_, ?_,
    ?_⟩
  · intro u
    by_cases hu : u = t
    · rw [hu, ListSt.setPc_pc, Function.update_self]
      exact iff_of_false hout Bool.false_ne_true
    · rw [ListSt.setPc_pc, Function.update_of_ne hu]
      exact h.roles u
  · have howned :
        ListSt.owned { s.setPc t (.freeing m (idx + 1)) with heap := s.heap.free e.ptr }
        + (s.held t : Multiset A) = s.owned + _ :=
      ListSt.owned_add fun u hu => ListSt.held_congr (Function.update_of_ne hu ..) rfl
    rw [hheld, ListSt.held_of_pc (Function.update_self ..), ← Multiset.cons_coe,
      Multiset.add_cons, ← Multiset.cons_add] at howned
    exact (add_right_cancel howned).symm
  · intro u hmem'
    have hu : u ≠ t := fun hu => hout (hu ▸ hmem')
    rw [ListSt.setPc_pc, Function.update_of_ne hu]
    refine (h.writer u hmem').of_heap ?_
    intro b hb
    refine Function.update_of_ne ?_ ..
    rintro rfl
    exact h.accounts.notMem_held hu hmem (List.mem_append_left _ hb)
  · intro hall
    refine h.stored ?_
    intro u
    by_cases hu : u = t
    · rw [hu, hpc]
      rfl
    · have hover := hall u
      rwa [ListSt.setPc_pc, Function.update_of_ne hu] at hover
  · intro u v hv
    by_cases hu : u = t
    · rw [hu, ListSt.setPc_pc, Function.update_self] at hv
      cases hv
    · rw [ListSt.setPc_pc, Function.update_of_ne hu] at hv
      exact h.result u v hv

/-- **The step lemma.** -/
theorem step (h : ListInv L s l) {a : ListAct n T A} (hstep : s.step L a = some s') :
    ∃ l', ListInv L s' l' := by
  cases ListSt.step_effect hstep with
  | call t c ret hpc => exact ⟨l, h.call hpc c⟩
  | freeOutdatedPtr t ret hpc => exact ⟨l, h.freeOutdatedPtr hpc⟩
  | advanceGlobalEpoch => exact ⟨l, h.advanceGlobalEpoch⟩
  | read t fresh pc hread => exact ⟨l, h.read hread⟩
  | lockRefused t fresh w old hpc => exact ⟨l, h.lockRefused hpc⟩
  | lockAcquired t fresh w old hpc lock hlock hexcl => exact ⟨l, h.lockAcquired hpc hlock hexcl⟩
  | newNode t fresh value dst next halloc hfresh => exact ⟨l, h.newNode halloc hfresh⟩
  | overwrite t fresh value current i hpc node hnode word hword =>
      exact h.overwrite hpc hnode hword
  | linkNew t fresh dst target hpc =>
      obtain ⟨l₁, c, l₂, -, -, h'⟩ := h.linkNew hpc
      exact ⟨_, h'⟩
  | linkPast t fresh dst target victim hpc =>
      obtain ⟨l₁, w, l₂, -, -, h'⟩ := h.linkPast hpc
      exact ⟨_, h'⟩
  | deferFreePointer t fresh current hpc => exact ⟨l, h.deferFreePointer hpc⟩
  | unlockCall t fresh ret hpc lock hlock => exact ⟨l, h.unlockCall hpc hlock⟩
  | unlocking t fresh ret hpc lock hlock => exact ⟨l, h.unlocking hpc hlock⟩
  | publish t fresh value epoch hpc => exact ⟨l, h.publish hpc⟩
  | optimisticLock t fresh value hpc => exact ⟨l, h.optimisticLock hpc (by split_ifs <;> simp)⟩
  | copy t fresh value current i hpc node hnode word hword =>
      exact ⟨l, h.copy hpc (by split_ifs <;> simp)⟩
  | leave t fresh value ret hpc => exact ⟨l, h.leave hpc⟩
  | free t fresh m idx hpc e he hold => exact ⟨l, h.free hpc he⟩
  | erased t fresh m idx hpc => exact ⟨l, h.erased hpc⟩

/-- **The run lemma.** -/
theorem run {tr : List (ListAct n T A)} (hrun : Transition.run (ListSt.step L) .init tr = some s) :
    ∃ l, ListInv L s l :=
  run_invariant (I := fun s => ∃ l, ListInv L s l) (fun _ _ _ ⟨_, h⟩ hstep => h.step hstep)
    ⟨[], init⟩ hrun

end ListInv

end OptLock
