import OptimisticLocking.List.SafeReclamation

/-!
# A traversal moves forward

`LookUp` follows next pointers while `Insert` and `Delete` write them, and a node that it stands
at may have been unlinked long ago, its successors unlinked in their turn, and new nodes linked
beside them.  The order of the chain says nothing about such nodes.  What every single write keeps
is an order on the whole heap: every next pointer, in the chain or not, leads to a greater value.

* `WalkSt` — the interleaved list with what a traversal is measured by: the value of each node,
  the nodes that were ever made, and those that the attempt of each `LookUp` has visited.
* `NodesOk` — the nodes hold their values, and all links go forward.
* `VisitsOk` — what an attempt has visited is in order.
* **`traversals_move_forward`** — an attempt visits greater and greater values, whether or not it
  will be found valid.
-/

namespace OptLock

open LinkedList OrderedList HybridLock Transition

/-- Threads on one list, and the course of their traversals. -/
structure WalkSt (n : ℕ) (T A W : Type) where
  list : ListSt n T A W
  /-- The value that was stored last in the node: by `NewNode`, or by an overwrite that is
  complete. -/
  value : A → Option T
  /-- What `NewNode` has returned. -/
  nodes : List A
  /-- The nodes that the last attempt of `LookUp` has come to, with the values they had then. -/
  visited : Fin n → List (A × T)

namespace WalkSt

variable {n : ℕ} {T A W : Type}

def init : WalkSt n T A W :=
  { list := .init, value := fun _ => none, nodes := [], visited := fun _ => [] }

/-- The visit of the node behind a pointer. -/
def visit (w : WalkSt n T A W) (p : Option A) : List (A × T) :=
  (p.bind fun q => (w.value q).map (q, ·)).toList

variable [DecidableEq A] {cmp : T → T → Ordering} (L : Layout W cmp)

/-- What the next access of `t` does to the course. -/
def track (w : WalkSt n T A W) (t : Fin n) (fresh : A) : WalkSt n T A W :=
  match w.list.pc t with
  | .newHead value | .splice value _ =>
      { w with
        value := Function.update w.value fresh (some value)
        nodes := fresh :: w.nodes }
  | .overwrite value current i =>
      if i + 1 < L.size then w
      else { w with value := Function.update w.value current (some value) }
  | .searchRoot (.lookUp _) =>
      { w with visited := Function.update w.visited t (w.visit w.list.heap.root) }
  | .next (.lookUp _) current =>
      { w with
        visited := Function.update w.visited t
          (w.visited t ++ w.visit ((w.list.heap.node current).bind (·.next))) }
  | _ => w

/-- One step of the list. -/
def step (w : WalkSt n T A W) (a : ListAct n T A) : Option (WalkSt n T A W) :=
  (w.list.step L a).map fun s =>
    match a with
    | .resume t fresh => { w.track L t fresh with list := s }
    | _ => { w with list := s }

/-- What is noted of the traversals has no influence on the list. -/
lemma step_list (w : WalkSt n T A W) (a : ListAct n T A) :
    (w.step L a).map WalkSt.list = w.list.step L a := by
  cases hs : w.list.step L a with
  | none => simp [step, hs]
  | some s => cases a <;> simp [step, hs]

end WalkSt

/-- The node at `p` holds the value `x`: whole, or partly overwritten by an equivalent one. -/
def ListSt.NodeHolds {n : ℕ} {T A W : Type} {cmp : T → T → Ordering} (L : Layout W cmp)
    (s : ListSt n T A W) (p : A) (x : T) : Prop :=
  ∃ node, s.heap.node p = some node ∧ (node.value = L.words x ∨ ∃ t v i,
    s.pc t = .overwrite v p i ∧ cmp x v = .eq ∧ node.value = partly i (L.words v) (L.words x))

/-- The step frees no node. -/
def ListSt.KeepsNodes {n : ℕ} {T A W : Type} [DecidableEq A] {cmp : T → T → Ordering}
    (L : Layout W cmp) (s : ListSt n T A W) (a : ListAct n T A) : Prop :=
  ∀ s' p, s.step L a = some s' → ¬ s.Frees s' p

/-- Traversals move forward. -/
structure MovesForward {n : ℕ} {T A W : Type} {cmp : T → T → Ordering} (L : Layout W cmp)
    (w : WalkSt n T A W) : Prop where
  /-- Every allocated node, in the chain or not, whose next is not null points to a node with a
  strictly greater value. -/
  ascending : ∀ p node, w.list.heap.node p = some node →
    ∃ x, w.value p = some x ∧ w.list.NodeHolds L p x ∧
      ∀ q, node.next = some q → ∃ y, w.value q = some y ∧ w.list.NodeHolds L q y ∧ cmp x y = .lt
  /-- A value that is written in one step is whole at every moment. -/
  whole : L.size = 1 → ∀ p node x, w.list.heap.node p = some node → w.value p = some x →
    node.value = L.words x
  /-- Each attempt visits strictly increasing values. -/
  increasing : ∀ t, Sorted cmp ((w.visited t).map Prod.snd)
  /-- It visits no node twice. -/
  nodup : ∀ t, ((w.visited t).map Prod.fst).Nodup
  /-- It visits at most as many nodes as were ever allocated. -/
  bounded : ∀ t, (w.visited t).length ≤ w.nodes.length
  /-- The node where it stands is the last one visited. -/
  last : ∀ t p, (w.list.pc t).position none = some p → lastAddr (w.visited t) = some p

/-! ## Control -/

section control

variable {T A W : Type} {cmp : T → T → Ordering} (L : Layout W cmp) (op : Searcher T)
  (test : LoopTest) (prev : Option A) (current : A) (read : List W)

lemma overwriting_start (w : Writer T) : (w.start : ListPc T A W).overwriting = false := by
  cases w <;> rfl

lemma overwriting_notFound : (op.notFound prev : ListPc T A W).overwriting = false := by
  rcases op with v | (v | v) <;> rfl

lemma overwriting_found : (op.found prev current : ListPc T A W).overwriting = false := by
  rcases op with v | (v | v) <;> rfl

lemma overwriting_loop (p : Option A) : (op.loop prev p : ListPc T A W).overwriting = false := by
  cases p with
  | none => exact overwriting_notFound op prev
  | some current => rfl

lemma overwriting_compared : (L.compared op test prev current read).overwriting = false := by
  rw [Layout.compared]
  split_ifs
  · rfl
  · cases test with
    | greater =>
        rw [Searcher.tested]
        split_ifs
        · exact overwriting_notFound op prev
        · rfl
    | equal =>
        rw [Searcher.tested]
        split_ifs
        · exact overwriting_found op prev current
        · rfl

lemma overwriting_headCompared (value : T) :
    (L.headCompared value current read).overwriting = false := by
  rw [Layout.headCompared]
  split_ifs <;> rfl

/-- Values in the same words are equivalent. -/
lemma Layout.cmp_congr {x y : T} (h : L.words x = L.words y) (z : T) : cmp x z = cmp y z := by
  rw [← L.compare_words, h, L.compare_words]

end control

section lock

variable {n : ℕ} {T A W : Type} {cmp : T → T → Ordering} {L : Layout W cmp} {s : ListSt n T A W}
  {l : List (A × List W)} {t : Fin n}

/-- While the thread that holds the lock overwrites nothing, nobody does. -/
lemma ListInv.not_overwriting (h : ListInv L s l) (hmem : t ∈ s.lock.exclusive)
    (hover : (s.pc t).overwriting = false) (u : Fin n) (v : T) (p : A) (i : ℕ) :
    s.pc u ≠ .overwrite v p i := by
  intro hu
  have hu' : (s.pc u).overwriting = true := by
    rw [hu]
    rfl
  rw [h.eq_of_mem hmem (h.overwriting_mem hu'), hover] at hu'
  cases hu'

/-- A step of `t` after which it overwrites nothing starts no overwrite. -/
lemma overwrite_of_update {s' : ListSt n T A W} {pc : ListPc T A W}
    (hpc : s'.pc = Function.update s.pc t pc) (hnew : pc.overwriting = false) {u : Fin n} {v : T}
    {p : A} {i : ℕ} (hu : s'.pc u = .overwrite v p i) : s.pc u = .overwrite v p i := by
  rw [hpc] at hu
  by_cases hut : u = t
  · rw [hut, Function.update_self] at hu
    rw [hu] at hnew
    cases hnew
  · rwa [Function.update_of_ne hut] at hu

/-- A node that is freed is one that was allocated. -/
lemma ListInv.not_keepsNodes [DecidableEq A] (h : ListInv L s l) {fresh : A} {m idx : ℕ}
    (hpc : s.pc t = .freeing m idx) {e : ToFreePointer A}
    (he : (s.handler.toFreePtr t)[idx]? = some e)
    (hstep : s.step L (.resume t fresh) = some { s.setPc t (.freeing m (idx + 1)) with
      heap := s.heap.free e.ptr }) : ¬ s.KeepsNodes L (.resume t fresh) := by
  intro hkeeps
  have hmem : e.ptr ∈ s.held t := by
    rw [ListSt.held_of_freeing hpc he]
    exact List.mem_cons_self
  refine hkeeps _ e.ptr hstep ⟨?_, Function.update_self ..⟩
  rw [← h.accounts.mem]
  exact Multiset.mem_add.mpr (.inr (ListSt.mem_owned.mpr ⟨t, hmem⟩))

end lock

/-! ## The order of the heap -/

/-- The value at `q` is greater than the one at `p`. -/
def Before {T A : Type} (cmp : T → T → Ordering) (value : A → Option T) (nodes : List A)
    (p q : A) : Prop :=
  q ∈ nodes ∧ ∃ x y, value p = some x ∧ value q = some y ∧ cmp x y = .lt

/-- The values of the nodes change within their classes. -/
def KeepsValues {T A : Type} (cmp : T → T → Ordering) (nodes : List A)
    (value value' : A → Option T) : Prop :=
  ∀ p ∈ nodes, ∀ x, value p = some x → ∃ y, value' p = some y ∧ cmp x y = .eq

lemma Before.of_keepsValues {T A : Type} {cmp : T → T → Ordering} [Std.TransCmp cmp]
    {value value' : A → Option T} {nodes nodes' : List A} {p q : A}
    (h : Before cmp value nodes p q) (hp : p ∈ nodes) (hkeeps : KeepsValues cmp nodes value value')
    (hsub : nodes ⊆ nodes') : Before cmp value' nodes' p q := by
  obtain ⟨hq, x, y, hx, hy, hlt⟩ := h
  obtain ⟨x', hx', hxx⟩ := hkeeps p hp x hx
  obtain ⟨y', hy', hyy⟩ := hkeeps q hq y hy
  refine ⟨hsub hq, x', y', hx', hy', ?_⟩
  rw [← Std.TransCmp.congr_left hxx, ← Std.TransCmp.congr_right hyy]
  exact hlt

lemma keepsValues_refl {T A : Type} {cmp : T → T → Ordering} [Std.TransCmp cmp]
    (value : A → Option T) (nodes : List A) : KeepsValues cmp nodes value value := by
  intro p _ x hx
  exact ⟨x, hx, Std.ReflCmp.compare_self⟩

/-- A value that nobody has seen. -/
lemma keepsValues_of_notMem {T A : Type} [DecidableEq A] {cmp : T → T → Ordering} [Std.TransCmp cmp]
    {value : A → Option T} {nodes : List A} {fresh : A} (hfresh : fresh ∉ nodes) (v : T) :
    KeepsValues cmp nodes value (Function.update value fresh (some v)) := by
  intro p hp x hx
  have hne : p ≠ fresh := fun heq => hfresh (heq ▸ hp)
  exact ⟨x, by rwa [Function.update_of_ne hne], Std.ReflCmp.compare_self⟩

/-- A value that is replaced by an equivalent one. -/
lemma keepsValues_of_equiv {T A : Type} [DecidableEq A] {cmp : T → T → Ordering} [Std.TransCmp cmp]
    {value : A → Option T} {nodes : List A} {current : A} {x v : T} (hx : value current = some x)
    (heq : cmp x v = .eq) :
    KeepsValues cmp nodes value (Function.update value current (some v)) := by
  intro p _ y hy
  by_cases hp : p = current
  · subst hp
    obtain rfl : x = y := Option.some.inj (hx.symm.trans hy)
    exact ⟨v, Function.update_self .., heq⟩
  · exact ⟨y, by rwa [Function.update_of_ne hp], Std.ReflCmp.compare_self⟩

/-- The nodes are those that were ever made, each holds its value, and all links go forward. -/
structure NodesOk {n : ℕ} {T A W : Type} {cmp : T → T → Ordering} (L : Layout W cmp)
    (s : ListSt n T A W) (value : A → Option T) (nodes : List A) : Prop where
  allocated : ∀ p, p ∈ nodes ↔ (s.heap.node p).isSome
  whole : ∀ p node, s.heap.node p = some node → (∀ t v i, s.pc t ≠ .overwrite v p i) →
    ∃ x, value p = some x ∧ node.value = L.words x
  torn : ∀ t v p i, s.pc t = .overwrite v p i → i < L.size ∧ ∃ node x,
    s.heap.node p = some node ∧ value p = some x ∧ cmp x v = .eq ∧
      node.value = partly i (L.words v) (L.words x)
  forward : s.heap.Forward (Before cmp value nodes)

namespace NodesOk

variable {n : ℕ} {T A W : Type} {cmp : T → T → Ordering} {L : Layout W cmp}
  {s s' : ListSt n T A W} {l : List (A × List W)} {t : Fin n} {pc : ListPc T A W}
  {value : A → Option T} {nodes : List A}

lemma init : NodesOk L (ListSt.init : ListSt n T A W) (fun _ => none) [] where
  allocated := fun p => by simp [ListSt.init]
  whole := by
    intro p node hnode
    cases hnode
  torn := by
    intro t v p i hpc
    cases hpc
  forward := by
    intro p node q hnode
    cases hnode

/-- Every node has its value. -/
lemma holds (h : NodesOk L s value nodes) {p : A} (hp : p ∈ nodes) :
    ∃ x, value p = some x ∧ s.NodeHolds L p x := by
  obtain ⟨node, hnode⟩ := Option.isSome_iff_exists.mp ((h.allocated p).mp hp)
  by_cases hover : ∃ t v i, s.pc t = .overwrite v p i
  · obtain ⟨t, v, i, hpc⟩ := hover
    obtain ⟨-, node', x, hnode', hx, heq, hwords⟩ := h.torn t v p i hpc
    exact ⟨x, hx, node', hnode', .inr ⟨t, v, i, hpc, heq, hwords⟩⟩
  · obtain ⟨x, hx, hwords⟩ := h.whole p node hnode fun t v i hpc => hover ⟨t, v, i, hpc⟩
    exact ⟨x, hx, node, hnode, .inl hwords⟩

lemma notMem_of_none (h : NodesOk L s value nodes) {p : A} (hp : s.heap.node p = none) :
    p ∉ nodes := by
  rw [h.allocated, hp]
  exact Bool.false_ne_true

/-- A step that leaves the heap, of a thread that overwrites nothing. -/
lemma frame (h : NodesOk L s value nodes) (hheap : s'.heap = s.heap)
    (hpc : s'.pc = Function.update s.pc t pc) (hold : (s.pc t).overwriting = false)
    (hnew : pc.overwriting = false) : NodesOk L s' value nodes := by
  have hback : s.pc = Function.update s'.pc t (s.pc t) := by
    rw [hpc, Function.update_idem, Function.update_eq_self]
  refine ⟨?_, ?_, ?_, ?_⟩
  · rw [hheap]
    exact h.allocated
  · intro p node hnode hfree
    rw [hheap] at hnode
    exact h.whole p node hnode fun u v i hu => hfree u v i (overwrite_of_update hback hold hu)
  · intro u v p i hu
    rw [hheap]
    exact h.torn u v p i (overwrite_of_update hpc hnew hu)
  · rw [hheap]
    exact h.forward

/-- The value of a node in the chain, while nothing is overwritten. -/
lemma value_of_cell (h : NodesOk L s value nodes) (hinv : ListInv L s l)
    (hfree : ∀ u v p i, s.pc u ≠ .overwrite v p i) {c : A × List W} (hc : c ∈ l) :
    ∃ x, value c.1 = some x ∧ c.2 = L.words x := by
  obtain ⟨l₁, l₂, rfl⟩ := List.append_of_mem hc
  exact h.whole c.1 _ hinv.chain.node_eq fun u v i => hfree u v c.1 i

/-- `Insert` comes to the node that it will overwrite. -/
lemma overwriteNode (h : NodesOk L s value nodes) (hinv : ListInv L s l) {v : T} {p : A}
    (hpc : s.pc t = .overwriteNode v (some p)) {node : Node A (List W)}
    (hnode : s.heap.node p = some node) {current : A} (hnext : node.next = some current) :
    NodesOk L (s.setPc t (.overwrite v current 0)) value nodes := by
  have hmem := hinv.mem_of_pc hpc rfl
  have hfree := hinv.not_overwriting hmem (by rw [hpc]; rfl)
  have hok : PcOk L s.heap (s.result t) l (.overwrite v current 0) := by
    refine ReadEffect.pcOk (.overwriteNode v p hpc node hnode current hnext) hinv.chain
      (hinv.stored_of_writer hmem (by rw [hpc]; rfl)) (hinv.result t) (hinv.writer t hmem)
  obtain ⟨v₁, x', v₂, heq, rfl, -⟩ := hok
  rw [partly_zero] at hinv
  obtain ⟨x, hx, hwords⟩ := h.value_of_cell hinv hfree (c := (current, L.words x')) (by simp)
  refine ⟨h.allocated, ?_, ?_, h.forward⟩
  · intro q node' hnode' _
    exact h.whole q node' hnode' fun u v i => hfree u v q i
  · intro u v' q i hu
    rw [ListSt.setPc_pc] at hu
    by_cases hut : u = t
    · rw [hut, Function.update_self, ListPc.overwrite.injEq] at hu
      obtain ⟨rfl, rfl, rfl⟩ := hu
      refine ⟨L.size_pos, _, x, hinv.chain.node_eq, hx, ?_, ?_⟩
      · rw [← L.cmp_congr hwords]
        exact heq
      · rw [partly_zero]
        exact hwords
    · rw [Function.update_of_ne hut] at hu
      exact absurd hu (hfree u v' q i)

/-- Stores to next pointers, by a thread that overwrites nothing. -/
lemma link [DecidableEq A] (h : NodesOk L s value nodes)
    (hfree : ∀ u v p i, s.pc u ≠ .overwrite v p i) {dst target : Option A}
    (hheap : s'.heap = s.heap.link dst target) (hpc : s'.pc = Function.update s.pc t pc)
    (hnew : pc.overwriting = false)
    (hforward : ∀ p q, dst = some p → target = some q → Before cmp value nodes p q) :
    NodesOk L s' value nodes where
  allocated := by
    intro p
    rw [hheap, s.heap.link_isSome]
    exact h.allocated p
  whole := by
    intro p node hnode _
    rw [hheap] at hnode
    -- the value of a node is not where its pointer is
    have hold : ∃ node₀, s.heap.node p = some node₀ ∧ node₀.value = node.value := by
      cases dst with
      | none => exact ⟨node, hnode, rfl⟩
      | some d =>
          by_cases hp : p = d
          · subst hp
            rw [Heap.link_some_node, Function.update_self] at hnode
            obtain ⟨node₀, hnode₀, rfl⟩ := Option.map_eq_some_iff.mp hnode
            exact ⟨node₀, hnode₀, rfl⟩
          · rw [Heap.link_some_node, Function.update_of_ne hp] at hnode
            exact ⟨node, hnode, rfl⟩
    obtain ⟨node₀, hnode₀, hvalue⟩ := hold
    rw [← hvalue]
    exact h.whole p node₀ hnode₀ fun u v i => hfree u v p i
  torn := by
    intro u v p i hu
    exact absurd (overwrite_of_update hpc hnew hu) (hfree u v p i)
  forward := by
    rw [hheap]
    exact h.forward.link hforward

variable [Std.TransCmp cmp]

/-- The new node of `Insert` leads forward from the start. -/
lemma newNode [DecidableEq A] (h : NodesOk L s value nodes) (hinv : ListInv L s l) {v : T}
    {dst next : Option A} {fresh : A} (halloc : s.Allocates t v dst next)
    (hfresh : s.heap.node fresh = none) :
    NodesOk L { s.setPc t (.link dst (some fresh) none) with
        heap := s.heap.alloc fresh ⟨L.words v, next⟩ }
      (Function.update value fresh (some v)) (fresh :: nodes) := by
  obtain ⟨hmem, -, -, hover, l₁, l₂, rfl, rfl, rfl, -, hstop⟩ := hinv.allocates halloc
  have hfree := hinv.not_overwriting hmem hover
  have hout : ∀ p, (s.heap.node p).isSome → p ≠ fresh := by
    rintro p hp rfl
    rw [hfresh] at hp
    cases hp
  refine ⟨?_, ?_, ?_, ?_⟩
  · intro p
    rw [Heap.alloc_node, List.mem_cons, h.allocated]
    by_cases hp : p = fresh <;> simp [hp]
  · intro p node hnode _
    by_cases hp : p = fresh
    · subst hp
      rw [Heap.alloc_node, Function.update_self, Option.some.injEq] at hnode
      exact ⟨v, Function.update_self .., hnode ▸ rfl⟩
    · rw [Heap.alloc_node, Function.update_of_ne hp] at hnode
      rw [Function.update_of_ne hp]
      exact h.whole p node hnode fun u v i => hfree u v p i
  · intro u v' p i hu
    exact absurd (overwrite_of_update rfl rfl hu) (hfree u v' p i)
  · have hold : s.heap.Forward (Before cmp (Function.update value fresh (some v))
        (fresh :: nodes)) := by
      refine h.forward.mono ?_
      intro p q hp hbefore
      exact hbefore.of_keepsValues ((h.allocated p).mpr hp)
        (keepsValues_of_notMem (h.notMem_of_none hfresh) v) (List.subset_cons_self _ _)
    refine hold.alloc ?_
    intro q hq
    -- the search stopped in front of `q`
    cases hstop with
    | atEnd => cases hq
    | greater c l₂ hgt =>
        obtain rfl : c.1 = q := Option.some.inj hq
        obtain ⟨y, hy, hwords⟩ := h.value_of_cell hinv hfree (c := c) (by simp)
        have hsome : (s.heap.node c.1).isSome := by
          rw [hinv.chain.node_eq]
          rfl
        rw [hwords, L.compare_words] at hgt
        refine ⟨List.mem_cons_of_mem _ ((h.allocated c.1).mpr hsome), v, y,
          Function.update_self .., ?_, Std.OrientedCmp.lt_of_gt hgt⟩
        rwa [Function.update_of_ne (hout c.1 hsome)]

/-- The store that links the new node. -/
lemma linkNew [DecidableEq A] (h : NodesOk L s value nodes) (hinv : ListInv L s l)
    {dst target : Option A} (hpc : s.pc t = .link dst target none) :
    NodesOk L { s.setPc t (.unlockCall none) with heap := s.heap.link dst target } value nodes := by
  have hmem := hinv.mem_of_pc hpc rfl
  have hfree := hinv.not_overwriting hmem (by rw [hpc]; rfl)
  have hok := hinv.writer t hmem
  rw [hpc] at hok
  obtain ⟨l₁, l₂, a, v, rfl, rfl, rfl, hnode, hlt, -⟩ := hok
  refine h.link hfree rfl rfl rfl ?_
  intro p q hp hq
  obtain rfl : a = q := Option.some.inj hq
  obtain ⟨l₀, w, rfl⟩ := exists_eq_append_of_lastAddr hp
  obtain ⟨x, hx, hwords⟩ := h.value_of_cell hinv hfree (c := (p, w)) (by simp)
  obtain ⟨y, hy, hwords'⟩ := h.whole a _ hnode fun u v i => hfree u v a i
  have hxv : cmp x v = .lt := by
    rw [← L.compare_words, ← hwords]
    exact hlt (p, w) (by simp)
  refine ⟨(h.allocated a).mpr (by rw [hnode]; rfl), x, y, hx, hy, ?_⟩
  -- `y` and `v` are in the same words
  have hyx : cmp y x = .gt := by
    rw [← L.cmp_congr hwords']
    exact Std.OrientedCmp.gt_of_lt hxv
  exact Std.OrientedCmp.lt_of_gt hyx

/-- The store that unlinks a node goes past it. -/
lemma linkPast [DecidableEq A] (h : NodesOk L s value nodes) (hinv : ListInv L s l)
    {dst target : Option A} {victim : A} (hpc : s.pc t = .link dst target (some victim)) :
    NodesOk L { s.setPc t (.deferFreePointer victim) with heap := s.heap.link dst target }
      value nodes := by
  have hmem := hinv.mem_of_pc hpc rfl
  have hfree := hinv.not_overwriting hmem (by rw [hpc]; rfl)
  have hok := hinv.writer t hmem
  rw [hpc] at hok
  obtain ⟨l₁, w, l₂, rfl, rfl, rfl⟩ := hok
  refine h.link hfree rfl rfl rfl ?_
  intro p q hp hq
  obtain ⟨l₀, w', rfl⟩ := exists_eq_append_of_lastAddr hp
  have hcell : s.heap.Chain (l₀ ++ (p, w') :: (victim, w) :: l₂) := by simpa using hinv.chain
  obtain ⟨-, x, y, hx, hy, hxy⟩ := h.forward p _ victim hcell.node_eq rfl
  obtain ⟨hq, y', z, hy', hz, hyz⟩ := h.forward victim _ q hinv.chain.node_eq hq
  obtain rfl : y = y' := Option.some.inj (hy.symm.trans hy')
  exact ⟨hq, x, z, hx, hz, Std.TransCmp.lt_trans hxy hyz⟩

/-- A write to the value of the node that `t` overwrites, which leaves it torn or whole. -/
lemma setValue [DecidableEq A] (h : NodesOk L s value nodes) (hinv : ListInv L s l) {v : T}
    {current : A} {i : ℕ} (hpc : s.pc t = .overwrite v current i) {node : Node A (List W)}
    (hnode : s.heap.node current = some node) {w : List W} {value' : A → Option T} {x : T}
    (hx : value' current = some x)
    (hself : (∃ v' j, pc = .overwrite v' current j ∧ j < L.size ∧ cmp x v' = .eq ∧
        w = partly j (L.words v') (L.words x)) ∨ (pc.overwriting = false ∧ w = L.words x))
    (hothers : ∀ p, p ≠ current → value' p = value p)
    (hkeeps : KeepsValues cmp nodes value value') :
    NodesOk L { s.setPc t pc with heap := s.heap.setValue current w } value' nodes := by
  have hmem := hinv.mem_of_pc hpc rfl
  have hunique : ∀ u v' p j, s.pc u = .overwrite v' p j → u = t := by
    intro u v' p j hu
    exact hinv.eq_of_mem hmem (hinv.mem_of_pc hu rfl)
  have hwrite : (s.heap.setValue current w).node current = some ⟨w, node.next⟩ := by
    rw [Heap.setValue_node, Function.update_self, hnode]
    rfl
  refine ⟨?_, ?_, ?_, ?_⟩
  · intro p
    show p ∈ nodes ↔ ((s.heap.setValue current w).node p).isSome
    rw [Heap.setValue_isSome]
    exact h.allocated p
  · intro p node' hnode' hfree
    by_cases hp : p = current
    · subst hp
      rw [hwrite, Option.some.injEq] at hnode'
      rcases hself with ⟨v', j, rfl, -⟩ | ⟨-, hw⟩
      · exact absurd (Function.update_self ..) (hfree t v' j)
      · exact ⟨x, hx, hnode' ▸ hw⟩
    · rw [Heap.setValue_node, Function.update_of_ne hp] at hnode'
      rw [hothers p hp]
      refine h.whole p node' hnode' ?_
      intro u v' j hu
      obtain rfl := hunique u v' p j hu
      rw [hpc, ListPc.overwrite.injEq] at hu
      exact hp hu.2.1.symm
  · intro u v' p j hu
    by_cases hut : u = t
    · rw [hut, ListSt.setPc_pc, Function.update_self] at hu
      rcases hself with ⟨v'', j', rfl, hj, heq, hw⟩ | ⟨hover, -⟩
      · obtain ⟨rfl, rfl, rfl⟩ := ListPc.overwrite.inj hu
        exact ⟨hj, _, x, hwrite, hx, heq, hw⟩
      · rw [hu] at hover
        cases hover
    · rw [ListSt.setPc_pc, Function.update_of_ne hut] at hu
      exact absurd (hunique u v' p j hu) hut
  · refine (h.forward.mono ?_).setValue
    intro p q hp hbefore
    exact hbefore.of_keepsValues ((h.allocated p).mpr hp) hkeeps (List.Subset.refl _)

/-- The store of a word, and with the last word the node has its new value. -/
lemma overwrite [DecidableEq A] (h : NodesOk L s value nodes) (hinv : ListInv L s l) {v : T}
    {current : A} {i : ℕ} (hpc : s.pc t = .overwrite v current i) {node : Node A (List W)}
    (hnode : s.heap.node current = some node) {word : W} (hword : (L.words v)[i]? = some word) :
    NodesOk L { s.setPc t
        (if i + 1 < L.size then .overwrite v current (i + 1) else .unlockCall none) with
      heap := s.heap.setValue current (node.value.set i word) }
      (if i + 1 < L.size then value else Function.update value current (some v)) nodes := by
  obtain ⟨-, node', x, hnode', hx, heq, hwords⟩ := h.torn t v current i hpc
  obtain rfl : node = node' := Option.some.inj (hnode.symm.trans hnode')
  have hlen : (L.words x).length = (L.words v).length := by
    rw [L.length_words, L.length_words]
  rw [hwords, partly_set hlen hword]
  split_ifs with hmore
  · exact h.setValue hinv hpc hnode hx (.inl ⟨v, i + 1, rfl, hmore, heq, rfl⟩) (fun _ _ => rfl)
      (keepsValues_refl _ _)
  · refine h.setValue hinv hpc hnode (Function.update_self ..) (.inr ⟨rfl, ?_⟩)
      (fun p hp => Function.update_of_ne hp ..) (keepsValues_of_equiv hx heq)
    exact partly_length hlen (by rw [L.length_words]; omega)

end NodesOk

/-! ## What an attempt has visited -/

/-- The visits are in order, the nodes have kept the values they had then, and the attempt stands
at the last of them, if it stands at a node. -/
structure VisitsOk {T A : Type} (cmp : T → T → Ordering) (value : A → Option T) (nodes : List A)
    (position : Option A) (visited : List (A × T)) : Prop where
  sorted : Sorted cmp (visited.map Prod.snd)
  known : ∀ c ∈ visited, c.1 ∈ nodes ∧ ∃ x, value c.1 = some x ∧ cmp c.2 x = .eq
  last : ∀ p, position = some p → lastAddr visited = some p

namespace VisitsOk

variable {T A : Type} {cmp : T → T → Ordering} {value value' : A → Option T} {nodes nodes' : List A}
  {position position' : Option A} {visited : List (A × T)}

lemma nil : VisitsOk cmp value nodes none [] where
  sorted := List.Pairwise.nil
  known := by
    intro c hc
    cases hc
  last := by
    intro p hp
    cases hp

variable [Std.TransCmp cmp]

lemma mono (h : VisitsOk cmp value nodes position visited)
    (hkeeps : KeepsValues cmp nodes value value') (hsub : nodes ⊆ nodes')
    (hpos : ∀ p, position' = some p → position = some p) :
    VisitsOk cmp value' nodes' position' visited where
  sorted := h.sorted
  known := by
    intro c hc
    obtain ⟨hmem, x, hx, heq⟩ := h.known c hc
    obtain ⟨y, hy, heq'⟩ := hkeeps c.1 hmem x hx
    exact ⟨hsub hmem, y, hy, Std.TransCmp.eq_trans heq heq'⟩
  last := fun p hp => h.last p (hpos p hp)

/-- The first visit. -/
lemma start {p : A} {x : T} (hp : p ∈ nodes) (hx : value p = some x) :
    VisitsOk cmp value nodes (some p) [(p, x)] where
  sorted := List.pairwise_singleton _ _
  known := by
    intro c hc
    rw [List.mem_singleton.mp hc]
    exact ⟨hp, x, hx, Std.ReflCmp.compare_self⟩
  last := fun _ hq => hq

/-- The next visit. -/
lemma next {current q : A} {y : T} (h : VisitsOk cmp value nodes (some current) visited)
    (hbefore : Before cmp value nodes current q) (hy : value q = some y) :
    VisitsOk cmp value nodes (some q) (visited ++ [(q, y)]) := by
  obtain ⟨hq, x, y', hx, hy', hlt⟩ := hbefore
  obtain rfl : y = y' := Option.some.inj (hy.symm.trans hy')
  obtain ⟨visited, x₀, rfl⟩ := exists_eq_append_of_lastAddr (h.last current rfl)
  -- the value that `current` had when it was visited is equivalent to the one it has now
  obtain ⟨-, x', hx', heq⟩ := h.known (current, x₀) (by simp)
  obtain rfl : x = x' := Option.some.inj (hx.symm.trans hx')
  have hlast : cmp x₀ y = .lt := Std.TransCmp.lt_of_eq_of_lt heq hlt
  have hsorted := h.sorted
  rw [List.map_append] at hsorted
  refine ⟨?_, ?_, ?_⟩
  · rw [List.map_append, List.map_append]
    refine sorted_append.mpr ⟨hsorted, List.pairwise_singleton _ _, ?_⟩
    intro a ha b hb
    rw [List.mem_singleton.mp hb]
    rcases List.mem_append.mp ha with ha | ha
    · have hax : cmp a x₀ = .lt := (sorted_append.mp hsorted).2.2 a ha x₀ (by simp)
      exact Std.TransCmp.lt_trans hax hlast
    · rw [List.mem_singleton.mp ha]
      exact hlast
  · intro c hc
    rcases List.mem_append.mp hc with hc | hc
    · exact h.known c hc
    · rw [List.mem_singleton.mp hc]
      exact ⟨hq, y, hy, Std.ReflCmp.compare_self⟩
  · intro p hp
    rw [lastAddr_append_singleton, ← hp]

/-- Of one node, the values at two visits would be equivalent. -/
lemma nodup (h : VisitsOk cmp value nodes position visited) :
    (visited.map Prod.fst).Nodup := by
  have hsorted : visited.Pairwise fun a b => cmp a.2 b.2 = .lt := List.pairwise_map.mp h.sorted
  refine List.pairwise_map.mpr (hsorted.imp_of_mem ?_)
  intro a b ha hb hlt heq
  obtain ⟨-, x, hx, hax⟩ := h.known a ha
  obtain ⟨-, y, hy, hby⟩ := h.known b hb
  obtain rfl : x = y := by
    rw [heq] at hx
    exact Option.some.inj (hx.symm.trans hy)
  rw [Std.TransCmp.congr_left hax, Std.OrientedCmp.eq_symm hby] at hlt
  cases hlt

lemma length_le (h : VisitsOk cmp value nodes position visited) :
    visited.length ≤ nodes.length := by
  have hsub : visited.map Prod.fst ⊆ nodes := by
    intro p hp
    obtain ⟨c, hc, rfl⟩ := List.mem_map.mp hp
    exact (h.known c hc).1
  rw [← List.length_map (f := Prod.fst)]
  exact (List.subperm_of_subset h.nodup hsub).length_le

end VisitsOk

/-! ## The invariant -/

/-- The heap goes forward, and so have all attempts. -/
structure WalkInv {n : ℕ} {T A W : Type} {cmp : T → T → Ordering} (L : Layout W cmp)
    (w : WalkSt n T A W) : Prop where
  nodes : NodesOk L w.list w.value w.nodes
  visits : ∀ t, VisitsOk cmp w.value w.nodes ((w.list.pc t).position none) (w.visited t)

namespace WalkInv

variable {n : ℕ} {T A W : Type} {cmp : T → T → Ordering} {L : Layout W cmp} {w : WalkSt n T A W}
  {s' : ListSt n T A W} {l : List (A × List W)} {t : Fin n} {pc : ListPc T A W}

lemma init : WalkInv L (WalkSt.init : WalkSt n T A W) := ⟨.init, fun _ => .nil⟩

variable [Std.TransCmp cmp]

/-- A step after which the heap is in order, and `t` stands at no other node than before. -/
lemma of_nodes (h : WalkInv L w) {value' : A → Option T} {nodes' : List A}
    (hnodes : NodesOk L s' value' nodes') (hpc : s'.pc = Function.update w.list.pc t pc)
    (hpos : ∀ p, pc.position none = some p → (w.list.pc t).position none = some p)
    (hkeeps : KeepsValues cmp w.nodes w.value value') (hsub : w.nodes ⊆ nodes') :
    WalkInv L { w with list := s', value := value', nodes := nodes' } := by
  refine ⟨hnodes, ?_⟩
  intro u
  refine (h.visits u).mono hkeeps hsub ?_
  show ∀ p, (s'.pc u).position none = some p → _
  rw [hpc]
  by_cases hu : u = t
  · rw [hu, Function.update_self]
    exact hpos
  · rw [Function.update_of_ne hu]
    exact fun _ => id

/-- A step that leaves the heap and comes to no node, of a thread that overwrites nothing. -/
lemma frame (h : WalkInv L w) (hheap : s'.heap = w.list.heap)
    (hpc : s'.pc = Function.update w.list.pc t pc) (hold : (w.list.pc t).overwriting = false)
    (hnew : pc.overwriting = false)
    (hpos : ∀ p, pc.position none = some p → (w.list.pc t).position none = some p) :
    WalkInv L { w with list := s' } :=
  h.of_nodes (h.nodes.frame hheap hpc hold hnew) hpc hpos (keepsValues_refl _ _)
    (List.Subset.refl _)

omit [Std.TransCmp cmp] in
/-- A step of `LookUp` that comes to a node, or to the end. -/
lemma of_visit (h : WalkInv L w) {visited : List (A × T)} (hheap : s'.heap = w.list.heap)
    (hpc : s'.pc = Function.update w.list.pc t pc) (hold : (w.list.pc t).overwriting = false)
    (hnew : pc.overwriting = false)
    (hvisit : VisitsOk cmp w.value w.nodes (pc.position none) visited) :
    WalkInv L { w with list := s', visited := Function.update w.visited t visited } := by
  refine ⟨h.nodes.frame hheap hpc hold hnew, ?_⟩
  intro u
  show VisitsOk cmp w.value w.nodes ((s'.pc u).position none)
    (Function.update w.visited t visited u)
  rw [hpc]
  by_cases hu : u = t
  · rw [hu, Function.update_self, Function.update_self]
    exact hvisit
  · rw [Function.update_of_ne hu, Function.update_of_ne hu]
    exact h.visits u

/-- The load of `root_`, with which an attempt starts. -/
lemma searchRoot (h : WalkInv L w) (hinv : ListInv L w.list l) {v : T}
    (hpc : w.list.pc t = .searchRoot (.lookUp v)) :
    WalkInv L { w with
      list := w.list.setPc t ((Searcher.lookUp v).loop none w.list.heap.root)
      visited := Function.update w.visited t (w.visit w.list.heap.root) } := by
  refine h.of_visit rfl rfl (by rw [hpc]; rfl) (overwriting_loop ..) ?_
  rw [position_loop, hinv.chain.root_eq]
  cases l with
  | nil => exact .nil
  | cons c l =>
      have hcell : w.list.heap.Chain ([] ++ c :: l) := hinv.chain
      have hmem : c.1 ∈ w.nodes := by
        rw [h.nodes.allocated, hcell.node_eq]
        rfl
      obtain ⟨x, hx, -⟩ := h.nodes.holds hmem
      have hvisit : w.visit (firstAddr (c :: l)) = [(c.1, x)] := by simp [WalkSt.visit, hx]
      rw [hvisit]
      exact .start hmem hx

/-- `current = current->next`. -/
lemma next (h : WalkInv L w) {v : T} {current : A} (hpc : w.list.pc t = .next (.lookUp v) current)
    {node : Node A (List W)} (hnode : w.list.heap.node current = some node) :
    WalkInv L { w with
      list := w.list.setPc t ((Searcher.lookUp v).loop (some current) node.next)
      visited := Function.update w.visited t (w.visited t ++ w.visit node.next) } := by
  refine h.of_visit rfl rfl (by rw [hpc]; rfl) (overwriting_loop ..) ?_
  have hvisits := h.visits t
  rw [hpc] at hvisits
  rw [position_loop]
  cases hnext : node.next with
  | none =>
      rw [WalkSt.visit, Option.bind_none, Option.toList_none, List.append_nil]
      exact hvisits.mono (keepsValues_refl _ _) (List.Subset.refl _) nofun
  | some q =>
      have hbefore := h.nodes.forward current node q hnode hnext
      obtain ⟨y, hy, -⟩ := h.nodes.holds hbefore.1
      have hvisit : w.visit (some q) = [(q, y)] := by simp [WalkSt.visit, hy]
      rw [hvisit]
      exact hvisits.next hbefore hy

variable [DecidableEq A]

/-- A step that only reads. -/
lemma read (h : WalkInv L w) (hinv : ListInv L w.list l) {fresh : A}
    (hread : ReadEffect L w.list t pc) :
    WalkInv L { w.track L t fresh with list := w.list.setPc t pc } := by
  cases hread with
  | searchRoot op hpc =>
      cases op with
      | lookUp v =>
          simp only [WalkSt.track, hpc]
          exact h.searchRoot hinv hpc
      | writer o =>
          simp only [WalkSt.track, hpc]
          refine h.frame rfl rfl (by rw [hpc]; rfl) (overwriting_loop ..) ?_
          rw [position_loop]
          exact nofun
  | next op current hpc node hnode =>
      cases op with
      | lookUp v =>
          simp only [WalkSt.track, hpc, hnode]
          exact h.next hpc hnode
      | writer o =>
          simp only [WalkSt.track, hpc]
          refine h.frame rfl rfl (by rw [hpc]; rfl) (overwriting_loop ..) ?_
          rw [position_loop]
          exact nofun
  | compare op test prev current read hpc =>
      simp only [WalkSt.track, hpc]
      refine h.frame rfl rfl (by rw [hpc]; rfl) (overwriting_compared ..) ?_
      rw [hpc]
      rcases position_compared L op test prev none current (read ++ [_]) with hpos | hpos
      · rw [hpos]
        exact nofun
      · rw [hpos]
        exact fun _ => id
  | headCompare value current read hpc =>
      simp only [WalkSt.track, hpc]
      refine h.frame rfl rfl (by rw [hpc]; rfl) (overwriting_headCompared ..) ?_
      rw [position_headCompared]
      exact nofun
  | overwriteNode value p hpc node hnode current hnext =>
      simp only [WalkSt.track, hpc]
      exact h.of_nodes (h.nodes.overwriteNode hinv hpc hnode hnext) rfl nofun
        (keepsValues_refl _ _) (List.Subset.refl _)
  | lockLoad _ hpc | headNull _ hpc | headTest _ hpc | headNode _ hpc | assertNext _ _ hpc
  | unlink _ _ hpc | epochLoad _ hpc | restart _ _ hpc | valid _ _ hpc | scan _ _ hpc
  | scanned _ _ hpc =>
      simp only [WalkSt.track, hpc]
      exact h.frame rfl rfl (by rw [hpc]; rfl) rfl nofun

/-- **The step lemma.** -/
theorem step {w' : WalkSt n T A W} {a : ListAct n T A} (h : WalkInv L w)
    (hinv : ListInv L w.list l) (hkeeps : w.list.KeepsNodes L a)
    (hstep : w.step L a = some w') : WalkInv L w' := by
  obtain ⟨s', hs', rfl⟩ := Option.map_eq_some_iff.mp hstep
  cases ListSt.step_effect hs' with
  | call t c ret hpc =>
      cases c <;> exact h.frame rfl rfl (by rw [hpc]; rfl) rfl nofun
  | freeOutdatedPtr t ret hpc => exact h.frame rfl rfl (by rw [hpc]; rfl) rfl nofun
  | advanceGlobalEpoch => exact ⟨⟨h.nodes.allocated, h.nodes.whole, h.nodes.torn,
      h.nodes.forward⟩, h.visits⟩
  | read t fresh pc hread => exact h.read hinv hread
  | newNode t fresh v dst next halloc hfresh =>
      have hwalk := h.of_nodes (h.nodes.newNode hinv halloc hfresh) rfl nofun
        (keepsValues_of_notMem (h.nodes.notMem_of_none hfresh) v) (List.subset_cons_self _ _)
      cases halloc with
      | head hpc | inner _ _ hpc =>
          simp only [WalkSt.track, hpc]
          exact hwalk
  | overwrite t fresh v current i hpc node hnode word hword =>
      simp only [WalkSt.track, hpc]
      have hnodes := h.nodes.overwrite hinv hpc hnode hword
      obtain ⟨-, -, x, -, hx, heq, -⟩ := h.nodes.torn t v current i hpc
      split_ifs at hnodes ⊢ with hmore
      · exact h.of_nodes hnodes rfl nofun (keepsValues_refl _ _) (List.Subset.refl _)
      · exact h.of_nodes hnodes rfl nofun (keepsValues_of_equiv hx heq) (List.Subset.refl _)
  | linkNew t fresh dst target hpc =>
      simp only [WalkSt.track, hpc]
      exact h.of_nodes (h.nodes.linkNew hinv hpc) rfl nofun (keepsValues_refl _ _)
        (List.Subset.refl _)
  | linkPast t fresh dst target victim hpc =>
      simp only [WalkSt.track, hpc]
      exact h.of_nodes (h.nodes.linkPast hinv hpc) rfl nofun (keepsValues_refl _ _)
        (List.Subset.refl _)
  | lockRefused t fresh _ _ hpc | deferFreePointer t fresh _ hpc | unlockCall t fresh _ hpc
  | publish t fresh _ _ hpc | erased t fresh _ _ hpc =>
      simp only [WalkSt.track, hpc]
      exact h.frame rfl rfl (by rw [hpc]; rfl) rfl nofun
  | lockAcquired t fresh o old hpc =>
      simp only [WalkSt.track, hpc]
      refine h.frame rfl rfl (by rw [hpc]; rfl) (overwriting_start o) ?_
      cases o <;> exact nofun
  | unlocking t fresh ret hpc =>
      simp only [WalkSt.track, hpc]
      refine h.frame rfl rfl (by rw [hpc]; rfl) ?_ ?_ <;> split_ifs <;> first | rfl | exact nofun
  | optimisticLock t fresh v hpc =>
      simp only [WalkSt.track, hpc]
      refine h.frame rfl rfl (by rw [hpc]; rfl) ?_ ?_ <;> split_ifs <;> first | rfl | exact nofun
  | copy t fresh v current i hpc =>
      simp only [WalkSt.track, hpc]
      refine h.frame rfl rfl (by rw [hpc]; rfl) (by split_ifs <;> rfl) ?_
      rw [hpc]
      split_ifs
      · exact fun _ => id
      · exact nofun
  | leave t fresh v ret hpc =>
      simp only [WalkSt.track, hpc]
      cases ret <;> exact h.frame rfl rfl (by rw [hpc]; rfl) rfl nofun
  | free t fresh m idx hpc e he hold => exact absurd hkeeps (hinv.not_keepsNodes hpc he hs')

end WalkInv

/-- In a list in which links and attempts go forward, traversals do. -/
lemma WalkInv.movesForward {n : ℕ} {T A W : Type} {cmp : T → T → Ordering} [Std.TransCmp cmp]
    {L : Layout W cmp} {w : WalkSt n T A W} (h : WalkInv L w) : MovesForward L w := by
  have hmem : ∀ p node, w.list.heap.node p = some node → p ∈ w.nodes := by
    intro p node hnode
    rw [h.nodes.allocated, hnode]
    rfl
  refine ⟨?_, ?_, fun t => (h.visits t).sorted, fun t => (h.visits t).nodup,
    fun t => (h.visits t).length_le, fun t => (h.visits t).last⟩
  · intro p node hnode
    obtain ⟨x, hx, hholds⟩ := h.nodes.holds (hmem p node hnode)
    refine ⟨x, hx, hholds, ?_⟩
    intro q hq
    obtain ⟨hq, x', y, hx', hy, hlt⟩ := h.nodes.forward p node q hnode hq
    obtain rfl : x = x' := Option.some.inj (hx.symm.trans hx')
    obtain ⟨y', hy', hholds'⟩ := h.nodes.holds hq
    obtain rfl : y = y' := Option.some.inj (hy.symm.trans hy')
    exact ⟨y, hy, hholds', hlt⟩
  · intro hsize p node x hnode hx
    obtain ⟨x', hx', node', hnode', hwords⟩ := h.nodes.holds (hmem p node hnode)
    obtain rfl : x = x' := Option.some.inj (hx.symm.trans hx')
    obtain rfl : node = node' := Option.some.inj (hnode.symm.trans hnode')
    rcases hwords with hwords | ⟨t, v, i, hpc, -, hwords⟩
    · exact hwords
    · -- in front of the only word, nothing has been overwritten
      obtain ⟨hi, -⟩ := h.nodes.torn t v p i hpc
      obtain rfl : i = 0 := by omega
      rw [hwords, partly_zero]

/-- **Traversals move forward.**  While no node memory is freed, every next pointer of every
allocated node leads to a node with a strictly greater value, and each attempt of `LookUp`, valid
or not, visits strictly increasing values. -/
theorem traversals_move_forward {n : ℕ} {T A W : Type} [DecidableEq A] {cmp : T → T → Ordering}
    [Std.TransCmp cmp] (L : Layout W cmp) {tr : List (ListAct n T A)} {s : ListSt n T A W}
    (hkeeps : EveryStep (ListSt.step L) (ListSt.KeepsNodes L) ListSt.init tr)
    (hrun : run (ListSt.step L) ListSt.init tr = some s) :
    ∃ w, run (WalkSt.step L) WalkSt.init tr = some w ∧ w.list = s ∧ MovesForward L w := by
  have hwalk := run_map (σ := ListSt n T A W) WalkSt.list (WalkSt.step_list L) WalkSt.init tr
  have hlist : run (ListSt.step L) (WalkSt.init : WalkSt n T A W).list tr = some s := hrun
  rw [hlist] at hwalk
  obtain ⟨w, hw, rfl⟩ := Option.map_eq_some_iff.mp hwalk
  refine ⟨w, hw, rfl, WalkInv.movesForward ?_⟩
  have hall := run_invariant_of_everyStep
    (I := fun w : WalkSt n T A W => (∃ l, ListInv L w.list l) ∧ WalkInv L w)
    (fun w a w' ⟨⟨l, hinv⟩, h⟩ hok hstep => by
      have hstep' : w.list.step L a = some w'.list := by
        rw [← WalkSt.step_list, hstep]
        rfl
      exact ⟨hinv.step hstep', h.step hinv hok hstep⟩)
    ⟨⟨[], .init⟩, .init⟩ (EveryStep.of_map WalkSt.list (WalkSt.step_list L) hkeeps) hw
  exact hall.2

/-- While nobody is inside `FreeOutdatedPtr`, no node is freed. -/
lemma ListSt.keepsNodes_of_not_reclaiming {n : ℕ} {T A W : Type} [DecidableEq A]
    {cmp : T → T → Ordering} {L : Layout W cmp} {s : ListSt n T A W} (a : ListAct n T A)
    (h : ∀ t, (s.pc t).reclaiming = false) : s.KeepsNodes L a := by
  intro s' p hstep hfrees
  obtain ⟨t, m, idx, e, hpc, -⟩ := frees_cases hstep hfrees
  have ht := h t
  rw [hpc] at ht
  cases ht

/-- Thread `1` stands at node `2` when thread `0` deletes it, deletes its successor and inserts a
value of the same class behind its predecessor.  The attempt goes on to node `3`, which is in the
chain no more. -/
theorem traversals_move_forward_unlinked :
    ∃ (tr : List (ListAct 2 ℕ ℕ)) (w : WalkSt 2 ℕ ℕ ℕ),
      run (WalkSt.step digits) WalkSt.init tr = some w ∧
        w.list.heap.node 1 = some ⟨[1, 0, 0], some 4⟩ ∧
        w.visited 1 = [(1, 100), (2, 200), (3, 300)] ∧ MovesForward digits w := by
  let tr : List (ListAct 2 ℕ ℕ) :=
    .call 0 (.insert 100) :: resumes 0 8 1 ++ .call 0 (.insert 200) :: resumes 0 20 2 ++
      .call 0 (.insert 300) :: resumes 0 27 3 ++ .call 1 (.lookUp 300 0) :: resumes 1 12 0 ++
      .call 0 (.delete 200) :: resumes 0 22 0 ++ .call 0 (.delete 300) :: resumes 0 22 0 ++
      .call 0 (.insert 250) :: resumes 0 20 4 ++ resumes 1 7 0
  have hsome : (run (ListSt.step digits) (ListSt.init : ListSt 2 ℕ ℕ ℕ) tr).isSome := by
    decide +kernel
  have hall : (run (WalkSt.step digits) (WalkSt.init : WalkSt 2 ℕ ℕ ℕ) tr).map
      (fun w => (w.list.heap.node 1, w.visited 1)) =
        some (some ⟨[1, 0, 0], some 4⟩, [(1, 100), (2, 200), (3, 300)]) := by decide +kernel
  have hidle : EveryStep (ListSt.step digits) (fun s _ => ∀ t, (s.pc t).reclaiming = false)
      (ListSt.init : ListSt 2 ℕ ℕ ℕ) tr := by decide +kernel
  obtain ⟨s, hrun⟩ := Option.isSome_iff_exists.mp hsome
  obtain ⟨w, hw, -, hforward⟩ := traversals_move_forward digits
    (hidle.imp fun _ a => ListSt.keepsNodes_of_not_reclaiming a) hrun
  rw [hw, Option.map_some, Option.some.injEq, Prod.mk.injEq] at hall
  exact ⟨tr, w, hw, hall.1, hall.2, hforward⟩

end OptLock
