import OptimisticLocking.Library.LinkedList
import OptimisticLocking.Library.OrderedList
import Mathlib.Data.List.Perm.Subperm

/-!
# What the two sorted lists share

The bodies of `Insert`, `LookUp` and `Delete` in `list.cc`, run by one thread that holds the lock:
`MutexSortedList` and `OptimisticSortedList` differ in the lock around them and in what becomes
of an unlinked node.

Addresses are the numbers of the `NewNode` calls, so `allocated` is the next address and two
nodes never share one.  A call returns or runs into a `Fault`; the loops take the number of nodes
ever allocated as fuel, and running out of it means that the chain is cyclic.

* `ListMem` — `root_`, the nodes, and the addresses freed so far.
* `ListMem.search` — the loop of the three operations, with its specification
  `Chain.search_stop`.
* `insertInto`, `lookUpIn`, `deleteFrom` — the bodies.  **`Chain.insertInto_effect`**,
  **`Chain.lookUpIn_effect`** and **`Chain.deleteFrom_effect`** say everything that each can do to
  the chain, for any comparison.
-/

namespace OptLock

open LinkedList OrderedList

/-- What a call can run into instead of returning. -/
inductive Fault
  | nullPointer
  | invalidAddress (a : ℕ)
  | invalidFree (a : ℕ)
  | assertion
  /-- A vector is indexed out of its range. -/
  | outOfRange (index : ℕ)
  /-- A loop that never ends. -/
  | hang
  deriving DecidableEq, Repr

namespace Fault

variable {α β : Type}

@[simp] lemma ok_bind (a : α) (f : α → Except Fault β) : (Except.ok a >>= f) = f a := rfl

@[simp] lemma error_bind (e : Fault) (f : α → Except Fault β) :
    ((Except.error e : Except Fault α) >>= f) = .error e := rfl

@[simp] lemma pure_eq_ok (a : α) : (pure a : Except Fault α) = .ok a := rfl

/-- A sequence that returns went through both its parts. -/
lemma bind_eq_ok {x : Except Fault α} {f : α → Except Fault β} {b : β} :
    (x >>= f) = .ok b ↔ ∃ a, x = .ok a ∧ f a = .ok b := by
  cases x <;> simp

end Fault

/-- Why the search loop stopped in front of the cells `l`, with what it found. -/
inductive Stop {A V T : Type} (cmp : V → T → Ordering) (value : T) : List (A × V) → Bool → Prop
  | atEnd : Stop cmp value [] false
  | greater (c : A × V) (l : List (A × V)) (hc : cmp c.2 value = .gt) :
      Stop cmp value (c :: l) false
  | equal (c : A × V) (l : List (A × V)) (hc : cmp c.2 value = .eq) : Stop cmp value (c :: l) true

/-- `root_`, the memory that `NewNode` allocates in, and what `free` was called on. -/
structure ListMem (T : Type) where
  heap : Heap ℕ T
  allocated : ℕ
  freed : List ℕ
  /-- The nodes are those at the addresses handed out and not freed. -/
  live : ∀ a, (heap.node a).isSome ↔ a < allocated ∧ a ∉ freed
  freed_lt : ∀ a ∈ freed, a < allocated

namespace ListMem

variable {T : Type}

def empty : ListMem T :=
  { heap := { root := none, node := fun _ => none }, allocated := 0, freed := []
    live := by simp
    freed_lt := by simp }

/-- The same memory after an update that neither allocates nor frees. -/
def withHeap (m : ListMem T) (heap : Heap ℕ T)
    (hlive : ∀ a, (heap.node a).isSome = (m.heap.node a).isSome) : ListMem T :=
  { m with heap := heap, live := fun a => by rw [hlive]; exact m.live a }

/-- The access behind `p->`. -/
def deref (m : ListMem T) : Option ℕ → Except Fault (Node ℕ T)
  | none => .error .nullPointer
  | some a =>
      match m.heap.node a with
      | none => .error (.invalidAddress a)
      | some n => .ok n

lemma node_eq_none (m : ListMem T) {a : ℕ} (ha : m.allocated ≤ a) : m.heap.node a = none := by
  have hlive := (m.live a).not
  simp only [Option.not_isSome_iff_eq_none] at hlive
  exact hlive.mpr fun h => by omega

/-- `NewNode`: the address of the new node, and the memory with it. -/
def newNode (m : ListMem T) (value : T) (next : Option ℕ) : ℕ × ListMem T :=
  (m.allocated, { m with
    heap := m.heap.alloc m.allocated ⟨value, next⟩
    allocated := m.allocated + 1
    live := by
      intro a
      have hnew : m.allocated ∉ m.freed := fun h => by
        have := m.freed_lt _ h
        omega
      by_cases ha : a = m.allocated
      · simp [ha, hnew]
      · rw [Heap.alloc_node, Function.update_of_ne ha, m.live a]
        exact and_congr_left fun _ => by omega
    freed_lt := fun a ha => Nat.lt_succ_of_lt (m.freed_lt a ha) })

/-- `root_ = target`, or `dst->next = target`. -/
def link (m : ListMem T) (dst target : Option ℕ) : ListMem T :=
  m.withHeap (m.heap.link dst target) (m.heap.link_isSome dst target)

/-- `a->value = value`. -/
def setValue (m : ListMem T) (a : ℕ) (value : T) : ListMem T :=
  m.withHeap (m.heap.setValue a value) fun b => m.heap.setValue_isSome a b value

def free (m : ListMem T) (a : ℕ) : Except Fault (ListMem T) :=
  if h : (m.heap.node a).isSome then
    .ok { m with
      heap := m.heap.free a
      freed := m.freed ++ [a]
      live := by
        intro b
        by_cases hb : b = a
        · simp [hb]
        · rw [Heap.free_node, Function.update_of_ne hb, m.live b]
          simp [hb]
      freed_lt := by
        intro b hb
        rcases List.mem_append.mp hb with hb | hb
        · exact m.freed_lt b hb
        · rw [List.mem_singleton.mp hb]
          exact ((m.live a).mp h).1 }
  else .error (.invalidFree a)

/-! ## The bodies of the operations -/

variable (cmp : T → T → Ordering)

/-- The search loop, entered with `prev` and `current`: whether an equivalent value was found, and
the two pointers at the exit. -/
def search (m : ListMem T) (value : T) :
    (fuel : ℕ) → (prev current : Option ℕ) → Except Fault (Bool × Option ℕ × Option ℕ)
  | 0, _, _ => .error .hang
  | _ + 1, prev, none => .ok (false, prev, none)
  | fuel + 1, prev, some a => do
      let n ← m.deref (some a)
      if cmp n.value value = .gt then return (false, prev, some a)
      if cmp n.value value = .eq then return (true, prev, some a)
      search m value fuel (some a) n.next

/-- The loop from `root_`. -/
def searchRoot (m : ListMem T) (value : T) : Except Fault (Bool × Option ℕ × Option ℕ) :=
  m.search cmp value (m.allocated + 1) none m.heap.root

/-- `root_ == nullptr || root_->value <=> value > 0`. -/
def belongsAtHead (m : ListMem T) (value : T) : Except Fault Bool :=
  match m.heap.root with
  | none => .ok true
  | some a => do
      let n ← m.deref (some a)
      return cmp n.value value = .gt

/-- The body of `Insert`. -/
def insertInto (m : ListMem T) (value : T) : Except Fault (ListMem T) := do
  if ← m.belongsAtHead cmp value then
    let (a, m) := m.newNode value m.heap.root
    return m.link none (some a)
  let (found, prev, _) ← m.searchRoot cmp value
  -- `prev` is null here when the search ended at the head
  let p ← m.deref prev
  if found then
    match p.next with
    | none => .error .assertion
    | some c =>
        let _ ← m.deref (some c)
        return m.setValue c value
  else
    let (a, m) := m.newNode value p.next
    return m.link prev (some a)

/-- The body of `LookUp`: the result, and what the output parameter holds then. -/
def lookUpIn (m : ListMem T) (value result : T) : Except Fault (Bool × T) := do
  let (found, _, current) ← m.searchRoot cmp value
  if found then
    let c ← m.deref current
    return (true, c.value)
  else
    return (false, result)

/-- The body of `Delete`: the memory after the unlinking, and the unlinked node. -/
def deleteFrom (m : ListMem T) (value : T) : Except Fault (ListMem T × Option ℕ) := do
  let (found, prev, current) ← m.searchRoot cmp value
  if found then
    let c ← m.deref current
    match prev with
    | none => return (m.link none c.next, current)
    | some p =>
        let _ ← m.deref (some p)
        return (m.link (some p) c.next, current)
  else
    return (m, none)

/-- The destructor of either list: the loop that frees the chain. -/
def destroyChain : (fuel : ℕ) → ListMem T → Except Fault (ListMem T)
  | 0, _ => .error .hang
  | fuel + 1, m =>
      match m.heap.root with
      | none => .ok m
      | some a => do
          let n ← m.deref (some a)
          let m ← m.free a
          destroyChain fuel (m.link none n.next)

/-! ## The chain -/

/-- The cells of the list, from `root_` on. -/
def Chain (m : ListMem T) (l : List (ℕ × T)) : Prop := m.heap.Chain l

variable {cmp} {m : ListMem T} {l l₁ l₂ : List (ℕ × T)} {c : ℕ × T} {value : T}

lemma Chain.node_eq (hc : m.Chain (l₁ ++ c :: l₂)) :
    m.heap.node c.1 = some ⟨c.2, firstAddr l₂⟩ := Heap.Chain.node_eq hc

lemma Chain.deref_eq (hc : m.Chain (l₁ ++ c :: l₂)) :
    m.deref (some c.1) = .ok ⟨c.2, firstAddr l₂⟩ := by
  simp [deref, hc.node_eq]

lemma Chain.addr_lt (hc : m.Chain l) : ∀ a ∈ l.map Prod.fst, a < m.allocated := by
  intro a ha
  obtain ⟨n, hn⟩ := Heap.Seg.exists_of_mem hc ha
  by_contra hge
  rw [m.node_eq_none (by omega)] at hn
  cases hn

/-- The chain is no longer than the number of nodes ever allocated. -/
lemma Chain.length_le (hc : m.Chain l) : l.length ≤ m.allocated := by
  have hsub : l.map Prod.fst ⊆ List.range m.allocated := by
    intro a ha
    exact List.mem_range.mpr (hc.addr_lt a ha)
  simpa using (List.subperm_of_subset hc.nodup hsub).length_le

/-! ## The search -/

lemma search_stop_aux (cmp : T → T → Ordering) (value : T) (l₀ l : List (ℕ × T))
    (hc : m.Chain (l₀ ++ l)) {fuel : ℕ}
    (hfuel : l.length < fuel) (hlt : ∀ y ∈ l₀, cmp y.2 value = .lt) :
    ∃ l₁ l₂ found, l₀ ++ l = l₁ ++ l₂ ∧ (∀ y ∈ l₁, cmp y.2 value = .lt) ∧
      Stop cmp value l₂ found ∧
      m.search cmp value fuel (lastAddr l₀) (firstAddr l) =
        .ok (found, lastAddr l₁, firstAddr l₂) := by
  induction l generalizing l₀ fuel with
  | nil =>
      cases fuel with
      | zero => cases hfuel
      | succ fuel => exact ⟨l₀, [], false, rfl, hlt, .atEnd, rfl⟩
  | cons c l ih =>
      cases fuel with
      | zero => cases hfuel
      | succ fuel =>
          have hderef := hc.deref_eq
          cases hcmp : cmp c.2 value with
          | gt =>
              refine ⟨l₀, c :: l, false, rfl, hlt, .greater c l hcmp, ?_⟩
              simp [search, hderef, hcmp]
          | eq =>
              refine ⟨l₀, c :: l, true, rfl, hlt, .equal c l hcmp, ?_⟩
              simp [search, hderef, hcmp]
          | lt =>
              have hlt' : ∀ y ∈ l₀ ++ [c], cmp y.2 value = .lt := by
                intro y hy
                rcases List.mem_append.mp hy with hy | hy
                · exact hlt y hy
                · rw [List.mem_singleton.mp hy]
                  exact hcmp
              obtain ⟨l₁, l₂, found, hsplit, h₁, hstop, hsearch⟩ :=
                ih (l₀ ++ [c]) (by simpa using hc) (Nat.lt_of_succ_lt_succ hfuel) hlt'
              refine ⟨l₁, l₂, found, by simpa using hsplit, h₁, hstop, ?_⟩
              simpa [search, hderef, hcmp] using hsearch

/-- **The search loop** ends, and it stops at the first cell that is not below the value. -/
theorem Chain.search_stop (hc : m.Chain l) (cmp : T → T → Ordering) (value : T) :
    ∃ l₁ l₂ found, l = l₁ ++ l₂ ∧ (∀ y ∈ l₁, cmp y.2 value = .lt) ∧ Stop cmp value l₂ found ∧
      m.searchRoot cmp value = .ok (found, lastAddr l₁, firstAddr l₂) := by
  have hlen := hc.length_le
  rw [searchRoot, Heap.Chain.root_eq hc]
  exact search_stop_aux cmp value [] l hc (by omega) (by simp)

/-! ## What the bodies do -/

@[simp] lemma newNode_fst (m : ListMem T) (value : T) (next : Option ℕ) :
    (m.newNode value next).1 = m.allocated := rfl

@[simp] lemma newNode_allocated (m : ListMem T) (value : T) (next : Option ℕ) :
    (m.newNode value next).2.allocated = m.allocated + 1 := rfl

@[simp] lemma newNode_freed (m : ListMem T) (value : T) (next : Option ℕ) :
    (m.newNode value next).2.freed = m.freed := rfl

@[simp] lemma link_allocated (m : ListMem T) (dst target : Option ℕ) :
    (m.link dst target).allocated = m.allocated := rfl

@[simp] lemma link_freed (m : ListMem T) (dst target : Option ℕ) :
    (m.link dst target).freed = m.freed := rfl

/-- A new node, linked behind a prefix of the chain in front of the rest of it. -/
lemma Chain.insertNode (hc : m.Chain (l₁ ++ l₂)) (value : T) :
    ((m.newNode value (firstAddr l₂)).2.link (lastAddr l₁) (some m.allocated)).Chain
      (l₁ ++ (m.allocated, value) :: l₂) := by
  have hnew : m.heap.node m.allocated = none := m.node_eq_none (Nat.le_refl _)
  have hold : (m.newNode value (firstAddr l₂)).2.Chain (l₁ ++ l₂) := Heap.Chain.alloc hc hnew
  refine Heap.Chain.insert (c := (m.allocated, value)) hold (Function.update_self ..) ?_
  intro hmem
  refine Nat.lt_irrefl m.allocated (hc.addr_lt m.allocated ?_)
  rw [List.map_append]
  exact List.mem_append_left _ hmem

/-- A node is unlinked. -/
lemma Chain.unlinkNode (hc : m.Chain (l₁ ++ c :: l₂)) :
    (m.link (lastAddr l₁) (firstAddr l₂)).Chain (l₁ ++ l₂) := Heap.Chain.unlink hc

/-- Everything `Insert` can do to the chain `l`. -/
inductive InsertEffect (cmp : T → T → Ordering) (m : ListMem T) (value : T) (l : List (ℕ × T)) :
    Except Fault (ListMem T) → Prop
  | splice (l₁ l₂ : List (ℕ × T)) (hl : l = l₁ ++ l₂) (hlt : ∀ y ∈ l₁, cmp y.2 value = .lt)
      (hstop : Stop cmp value l₂ false) (m' : ListMem T)
      (hchain : m'.Chain (l₁ ++ (m.allocated, value) :: l₂))
      (halloc : m'.allocated = m.allocated + 1) (hfreed : m'.freed = m.freed) :
      InsertEffect cmp m value l (.ok m')
  | overwrite (l₁ : List (ℕ × T)) (c : ℕ × T) (l₂ : List (ℕ × T)) (hl : l = l₁ ++ c :: l₂)
      (heq : cmp c.2 value = .eq) (m' : ListMem T)
      (hchain : m'.Chain (l₁ ++ (c.1, value) :: l₂)) (halloc : m'.allocated = m.allocated)
      (hfreed : m'.freed = m.freed) : InsertEffect cmp m value l (.ok m')
  /-- The head is equivalent: there is no previous node to go through. -/
  | nullPrev (c : ℕ × T) (l₂ : List (ℕ × T)) (hl : l = c :: l₂) (heq : cmp c.2 value = .eq) :
      InsertEffect cmp m value l (.error .nullPointer)

lemma Chain.belongsAtHead_eq (hc : m.Chain l) (cmp : T → T → Ordering) (value : T) :
    m.belongsAtHead cmp value = .ok (l.head?.all fun c => cmp c.2 value = .gt) := by
  cases l with
  | nil => simp [belongsAtHead, Heap.Chain.root_eq hc]
  | cons c l =>
      have hc' : m.Chain ([] ++ c :: l) := hc
      have hderef := hc'.deref_eq
      simp [belongsAtHead, Heap.Chain.root_eq hc, hderef]

/-- **`Insert`.** -/
theorem Chain.insertInto_effect (hc : m.Chain l) (cmp : T → T → Ordering) (value : T) :
    InsertEffect cmp m value l (m.insertInto cmp value) := by
  have hroot := Heap.Chain.root_eq hc
  have hhead := hc.belongsAtHead_eq cmp value
  by_cases hfirst : (l.head?.all fun c => cmp c.2 value = .gt) = true
  · -- a new head
    have hstop : Stop cmp value l false := by
      cases l with
      | nil => exact .atEnd
      | cons c l => exact .greater c l (by simpa using hfirst)
    have heq : m.insertInto cmp value =
        .ok ((m.newNode value (firstAddr l)).2.link none (some m.allocated)) := by
      simp [insertInto, hhead, hfirst, hroot]
    have hc' : m.Chain ([] ++ l) := hc
    rw [heq]
    exact .splice [] l rfl (by simp) hstop _ (hc'.insertNode value) rfl rfl
  · rw [Bool.not_eq_true] at hfirst
    rw [hfirst] at hhead
    obtain ⟨l₁, l₂, found, rfl, hlt, hstop, hsearch⟩ := hc.search_stop cmp value
    cases hl₁ : lastAddr l₁ with
    | none =>
        obtain rfl : l₁ = [] := by simpa [lastAddr] using hl₁
        cases hstop with
        | atEnd => simp at hfirst
        | greater c l₂ hgt => simp [hgt] at hfirst
        | equal c l₂ heq =>
            have hfault : m.insertInto cmp value = .error .nullPointer := by
              simp [insertInto, hhead, hsearch, deref]
            rw [hfault]
            exact .nullPrev c l₂ rfl heq
    | some p =>
        obtain ⟨l₀, x, rfl⟩ := exists_eq_append_of_lastAddr hl₁
        have hcell : m.Chain (l₀ ++ (p, x) :: l₂) := by simpa using hc
        have hprev := hcell.deref_eq
        cases found with
        | false =>
            have heq : m.insertInto cmp value =
                .ok ((m.newNode value (firstAddr l₂)).2.link (some p) (some m.allocated)) := by
              simp [insertInto, hhead, hsearch, hprev]
            rw [heq]
            have hchain := hc.insertNode value
            rw [hl₁] at hchain
            exact .splice _ l₂ rfl hlt hstop _ hchain rfl rfl
        | true =>
            cases hstop with
            | equal c l₂ hc₂ =>
                have hderef := hc.deref_eq
                have heq : m.insertInto cmp value = .ok (m.setValue c.1 value) := by
                  simp [insertInto, hhead, hsearch, hprev, hderef]
                rw [heq]
                exact .overwrite _ c l₂ rfl hc₂ _ (Heap.Chain.setValue hc) rfl rfl

/-- **`LookUp`** finds what is equivalent, or leaves the output parameter. -/
theorem Chain.lookUpIn_effect (hc : m.Chain l) (cmp : T → T → Ordering) (value result : T) :
    (∃ l₁ c l₂, l = l₁ ++ c :: l₂ ∧ cmp c.2 value = .eq ∧
      m.lookUpIn cmp value result = .ok (true, c.2)) ∨
    (∃ l₁ l₂, l = l₁ ++ l₂ ∧ (∀ y ∈ l₁, cmp y.2 value = .lt) ∧ Stop cmp value l₂ false ∧
      m.lookUpIn cmp value result = .ok (false, result)) := by
  obtain ⟨l₁, l₂, found, rfl, hlt, hstop, hsearch⟩ := hc.search_stop cmp value
  cases found with
  | false => exact .inr ⟨l₁, l₂, rfl, hlt, hstop, by simp [lookUpIn, hsearch]⟩
  | true =>
      cases hstop with
      | equal c l₂ heq =>
          exact .inl ⟨l₁, c, l₂, rfl, heq, by simp [lookUpIn, hsearch, hc.deref_eq]⟩

/-- Everything `Delete` can do to the chain `l`. -/
inductive DeleteEffect (cmp : T → T → Ordering) (m : ListMem T) (value : T) (l : List (ℕ × T)) :
    ListMem T × Option ℕ → Prop
  | unlink (l₁ : List (ℕ × T)) (c : ℕ × T) (l₂ : List (ℕ × T)) (hl : l = l₁ ++ c :: l₂)
      (hlt : ∀ y ∈ l₁, cmp y.2 value = .lt) (heq : cmp c.2 value = .eq) (m' : ListMem T)
      (hchain : m'.Chain (l₁ ++ l₂))
      (halloc : m'.allocated = m.allocated) (hfreed : m'.freed = m.freed) :
      DeleteEffect cmp m value l (m', some c.1)
  | absent (l₁ l₂ : List (ℕ × T)) (hl : l = l₁ ++ l₂) (hlt : ∀ y ∈ l₁, cmp y.2 value = .lt)
      (hstop : Stop cmp value l₂ false) : DeleteEffect cmp m value l (m, none)

/-- **`Delete`** returns, and unlinks what is equivalent. -/
theorem Chain.deleteFrom_effect (hc : m.Chain l) (cmp : T → T → Ordering) (value : T) :
    ∃ out, m.deleteFrom cmp value = .ok out ∧ DeleteEffect cmp m value l out := by
  obtain ⟨l₁, l₂, found, rfl, hlt, hstop, hsearch⟩ := hc.search_stop cmp value
  cases found with
  | false => exact ⟨_, by simp [deleteFrom, hsearch], .absent l₁ l₂ rfl hlt hstop⟩
  | true =>
      cases hstop with
      | equal c l₂ heq =>
          have hderef := hc.deref_eq
          refine ⟨(m.link (lastAddr l₁) (firstAddr l₂), some c.1), ?_,
            .unlink l₁ c l₂ rfl hlt heq _ hc.unlinkNode rfl rfl⟩
          cases hl₁ : lastAddr l₁ with
          | none => simp [deleteFrom, hsearch, hderef, hl₁]
          | some p =>
              obtain ⟨l₀, x, rfl⟩ := exists_eq_append_of_lastAddr hl₁
              have hcell : m.Chain (l₀ ++ (p, x) :: c :: l₂) := by simpa using hc
              have hprev := hcell.deref_eq
              simp [deleteFrom, hsearch, hderef, hl₁, hprev]

/-! ## Freeing -/

lemma free_eq (m : ListMem T) {a : ℕ} (hlt : a < m.allocated) (hfreed : a ∉ m.freed) :
    ∃ m', m.free a = .ok m' ∧ m'.heap = m.heap.free a ∧ m'.allocated = m.allocated ∧
      m'.freed = m.freed ++ [a] := by
  have hlive : (m.heap.node a).isSome := (m.live a).mpr ⟨hlt, hfreed⟩
  exact ⟨_, dif_pos hlive, rfl, rfl, rfl⟩

/-- Freeing nodes outside of the chain keeps it. -/
lemma Chain.free_eq (hc : m.Chain l) {a : ℕ} (hlt : a < m.allocated) (hfreed : a ∉ m.freed)
    (ha : a ∉ l.map Prod.fst) :
    ∃ m', m.free a = .ok m' ∧ m'.Chain l ∧ m'.allocated = m.allocated ∧
      m'.freed = m.freed ++ [a] := by
  obtain ⟨m', hfree, hheap, halloc, hfreed'⟩ := m.free_eq hlt hfreed
  refine ⟨m', hfree, ?_, halloc, hfreed'⟩
  rw [Chain, hheap]
  exact Heap.Chain.free hc ha

end ListMem

end OptLock
