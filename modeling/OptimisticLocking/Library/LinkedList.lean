import Mathlib.Data.List.Induction
import Mathlib.Data.List.Nodup
import Mathlib.Logic.Function.Basic
import Mathlib.Tactic.Common

/-!
# Singly linked lists in a heap

A heap is a root pointer and a partial map from addresses to nodes.  Addresses and values are
arbitrary types.

* `Heap.Seg` — the nodes of a list of cells are linked one to the next, from one pointer to
  another.  `Heap.Chain` is the case from the root to the null pointer.
* `Heap.link`, `Heap.setValue`, `Heap.alloc`, `Heap.free` — the updates.  A pointer field is
  named by the node in front of it, `none` being the root.
* **`Heap.Chain.link`** — replacing what follows a prefix of the chain.  `Heap.Chain.insert` and
  `Heap.Chain.unlink` are its two cases.
* `Heap.Chain.nodup` — a chain visits no address twice.
* `Heap.freeAll`, `Heap.freeChain` — the loops that free, and what they leave.
* `Heap.Leads` — what is found by following the next pointers, in the chain or not, and how the
  updates change it.
* `Heap.Forward` — every next pointer, in the chain or not, goes along a relation, and what an
  update has to show for it.
-/

namespace LinkedList

variable {A V : Type*}

/-- A node of the list: a value and the pointer to the next node. -/
structure Node (A V : Type*) where
  value : V
  next : Option A
  deriving DecidableEq, Repr

/-- A root pointer and the allocated nodes. -/
structure Heap (A V : Type*) where
  root : Option A
  node : A → Option (Node A V)

/-- The address of the last cell, which is where the pointer behind the cells is stored. -/
def lastAddr (l : List (A × V)) : Option A := l.getLast?.map Prod.fst

/-- The address of the first cell. -/
def firstAddr (l : List (A × V)) : Option A := l.head?.map Prod.fst

@[simp] lemma lastAddr_nil : lastAddr ([] : List (A × V)) = none := rfl

@[simp] lemma lastAddr_append_singleton (l : List (A × V)) (c : A × V) :
    lastAddr (l ++ [c]) = some c.1 := by
  simp [lastAddr]

@[simp] lemma firstAddr_nil : firstAddr ([] : List (A × V)) = none := rfl

@[simp] lemma firstAddr_cons (c : A × V) (l : List (A × V)) : firstAddr (c :: l) = some c.1 := rfl

/-- A list with a last address ends with a cell at it. -/
lemma exists_eq_append_of_lastAddr {l : List (A × V)} {p : A} (h : lastAddr l = some p) :
    ∃ l' v, l = l' ++ [(p, v)] := by
  induction l using List.reverseRecOn with
  | nil => cases h
  | append_singleton l c ih =>
      rw [lastAddr_append_singleton, Option.some.injEq] at h
      exact ⟨l, c.2, by rw [← h]⟩

lemma mem_of_lastAddr {l : List (A × V)} {p : A} (h : lastAddr l = some p) :
    p ∈ l.map Prod.fst := by
  obtain ⟨l', v, rfl⟩ := exists_eq_append_of_lastAddr h
  simp

namespace Heap

/-! ## Segments -/

/-- From the pointer `p`, the nodes hold the cells of `l` in order; the last of them points to
`q`. -/
def Seg (node : A → Option (Node A V)) : Option A → List (A × V) → Option A → Prop
  | p, [], q => p = q
  | p, c :: l, q => p = some c.1 ∧ ∃ next, node c.1 = some ⟨c.2, next⟩ ∧ Seg node next l q

variable {node : A → Option (Node A V)}

@[simp] lemma seg_nil {p q : Option A} : Seg node p [] q ↔ p = q := Iff.rfl

lemma seg_cons {p q : Option A} {c : A × V} {l : List (A × V)} :
    Seg node p (c :: l) q ↔ p = some c.1 ∧ ∃ next, node c.1 = some ⟨c.2, next⟩ ∧
      Seg node next l q := Iff.rfl

lemma seg_append {p q : Option A} {l l' : List (A × V)} :
    Seg node p (l ++ l') q ↔ ∃ r, Seg node p l r ∧ Seg node r l' q := by
  induction l generalizing p with
  | nil => simp
  | cons c l ih =>
      simp only [List.cons_append, seg_cons, ih]
      constructor
      · rintro ⟨hp, next, hc, r, hl, hl'⟩
        exact ⟨r, ⟨hp, next, hc, hl⟩, hl'⟩
      · rintro ⟨r, ⟨hp, next, hc, hl⟩, hl'⟩
        exact ⟨hp, next, hc, r, hl, hl'⟩

/-- The pointer in front of a segment that ends at null is determined by its cells. -/
lemma seg_start {p : Option A} {l : List (A × V)} (h : Seg node p l none) : p = firstAddr l := by
  cases l with
  | nil => exact h
  | cons c l => exact h.1

/-- A segment depends on the nodes of its cells only. -/
lemma Seg.frame {node' : A → Option (Node A V)} {p q : Option A} {l : List (A × V)}
    (h : Seg node p l q) (hsame : ∀ a ∈ l.map Prod.fst, node' a = node a) : Seg node' p l q := by
  induction l generalizing p with
  | nil => exact h
  | cons c l ih =>
      obtain ⟨hp, next, hc, hl⟩ := h
      have hhead : node' c.1 = node c.1 := hsame c.1 (by simp)
      have htail : ∀ a ∈ l.map Prod.fst, node' a = node a :=
        fun a ha => hsame a (by simp [ha])
      exact ⟨hp, next, hhead.trans hc, ih hl htail⟩

lemma Seg.update_of_notMem [DecidableEq A] {p q : Option A} {l : List (A × V)} {a : A}
    {n : Option (Node A V)} (h : Seg node p l q) (ha : a ∉ l.map Prod.fst) :
    Seg (Function.update node a n) p l q := by
  refine h.frame ?_
  intro b hb
  have hne : b ≠ a := fun heq => ha (heq ▸ hb)
  exact Function.update_of_ne hne ..

/-- What a pointer leads to is unique. -/
lemma Seg.unique {p : Option A} {l l' : List (A × V)} (h : Seg node p l none)
    (h' : Seg node p l' none) : l = l' := by
  induction l generalizing p l' with
  | nil =>
      cases l' with
      | nil => rfl
      | cons c l' =>
          rw [seg_nil] at h
          cases h.symm.trans h'.1
  | cons c l ih =>
      cases l' with
      | nil =>
          rw [seg_nil] at h'
          cases h'.symm.trans h.1
      | cons c' l' =>
          obtain ⟨hp, next, hc, hl⟩ := h
          obtain ⟨hp', next', hc', hl'⟩ := h'
          have haddr : c.1 = c'.1 := Option.some.inj (hp.symm.trans hp')
          rw [haddr, hc', Option.some.injEq, Node.mk.injEq] at hc
          have hcell : c = c' := Prod.ext haddr hc.1.symm
          rw [hcell, ih hl (hc.2 ▸ hl')]

/-- A segment that ends at null is acyclic. -/
lemma Seg.nodup {p : Option A} {l : List (A × V)} (h : Seg node p l none) :
    (l.map Prod.fst).Nodup := by
  induction l generalizing p with
  | nil => simp
  | cons c l ih =>
      obtain ⟨hp, next, hc, hl⟩ := h
      rw [List.map_cons, List.nodup_cons]
      refine ⟨?_, ih hl⟩
      intro hmem
      obtain ⟨c', hc', haddr⟩ := List.mem_map.mp hmem
      obtain ⟨s, t, rfl⟩ := List.append_of_mem hc'
      -- the later visit of `c.1` would start a segment that is as long as the whole one
      obtain ⟨r, hs, ht⟩ := seg_append.mp hl
      have hr : r = some c.1 := by rw [ht.1, haddr]
      have hwhole : Seg node (some c.1) (c :: (s ++ c' :: t)) none := ⟨rfl, next, hc, hl⟩
      have hlen := congrArg List.length (hwhole.unique (hr ▸ ht))
      simp at hlen
      omega

/-- The node of a cell, with the pointer to the rest. -/
lemma Seg.node_eq {p : Option A} {l l' : List (A × V)} {c : A × V}
    (h : Seg node p (l ++ c :: l') none) : node c.1 = some ⟨c.2, firstAddr l'⟩ := by
  obtain ⟨r, -, -, next, hc, hl'⟩ := seg_append.mp h
  rw [hc, seg_start hl']

lemma Seg.exists_of_mem {p q : Option A} {l : List (A × V)} {a : A} (h : Seg node p l q)
    (ha : a ∈ l.map Prod.fst) : ∃ n, node a = some n := by
  obtain ⟨c, hc, rfl⟩ := List.mem_map.mp ha
  obtain ⟨s, t, rfl⟩ := List.append_of_mem hc
  obtain ⟨r, -, -, next, hnode, -⟩ := seg_append.mp h
  exact ⟨_, hnode⟩

/-! ## The chain from the root and its updates -/

/-- The cells from the root to the null pointer. -/
def Chain (h : Heap A V) (l : List (A × V)) : Prop := Seg h.node h.root l none

variable [DecidableEq A]

/-- Store `target` in the pointer behind `dst`, the root when `dst` is null. -/
def link (h : Heap A V) (dst target : Option A) : Heap A V :=
  match dst with
  | none => { h with root := target }
  | some p => { h with
      node := Function.update h.node p ((h.node p).map fun n => { n with next := target }) }

def setValue (h : Heap A V) (a : A) (v : V) : Heap A V :=
  { h with node := Function.update h.node a ((h.node a).map fun n => { n with value := v }) }

def alloc (h : Heap A V) (a : A) (n : Node A V) : Heap A V :=
  { h with node := Function.update h.node a (some n) }

def free (h : Heap A V) (a : A) : Heap A V :=
  { h with node := Function.update h.node a none }

@[simp] lemma link_none (h : Heap A V) (target : Option A) :
    h.link none target = { h with root := target } := rfl

@[simp] lemma link_some_root (h : Heap A V) (p : A) (target : Option A) :
    (h.link (some p) target).root = h.root := rfl

@[simp] lemma link_some_node (h : Heap A V) (p : A) (target : Option A) :
    (h.link (some p) target).node =
      Function.update h.node p ((h.node p).map fun n => { n with next := target }) := rfl

@[simp] lemma setValue_root (h : Heap A V) (a : A) (v : V) : (h.setValue a v).root = h.root := rfl

@[simp] lemma setValue_node (h : Heap A V) (a : A) (v : V) :
    (h.setValue a v).node =
      Function.update h.node a ((h.node a).map fun n => { n with value := v }) := rfl

@[simp] lemma alloc_root (h : Heap A V) (a : A) (n : Node A V) : (h.alloc a n).root = h.root := rfl

@[simp] lemma alloc_node (h : Heap A V) (a : A) (n : Node A V) :
    (h.alloc a n).node = Function.update h.node a (some n) := rfl

@[simp] lemma free_root (h : Heap A V) (a : A) : (h.free a).root = h.root := rfl

@[simp] lemma free_node (h : Heap A V) (a : A) :
    (h.free a).node = Function.update h.node a none := rfl

/-- The updates of a field neither allocate nor free. -/
lemma link_isSome (h : Heap A V) (dst target : Option A) (a : A) :
    ((h.link dst target).node a).isSome = (h.node a).isSome := by
  cases dst with
  | none => rfl
  | some p => by_cases ha : a = p <;> simp [ha]

lemma setValue_isSome (h : Heap A V) (a b : A) (v : V) :
    ((h.setValue a v).node b).isSome = (h.node b).isSome := by
  by_cases hb : b = a <;> simp [hb]

variable {h : Heap A V} {l l₁ l₂ l₃ : List (A × V)}

omit [DecidableEq A] in
lemma Chain.nodup (hc : h.Chain l) : (l.map Prod.fst).Nodup := Seg.nodup hc

omit [DecidableEq A] in
lemma Chain.unique {l' : List (A × V)} (hc : h.Chain l) (hc' : h.Chain l') : l = l' :=
  Seg.unique hc hc'

omit [DecidableEq A] in
lemma Chain.root_eq (hc : h.Chain l) : h.root = firstAddr l := seg_start hc

omit [DecidableEq A] in
lemma Chain.node_eq {c : A × V} (hc : h.Chain (l₁ ++ c :: l₂)) :
    h.node c.1 = some ⟨c.2, firstAddr l₂⟩ := Seg.node_eq hc

omit [DecidableEq A] in
/-- The cells behind a prefix of the chain. -/
lemma Chain.tail (hc : h.Chain (l₁ ++ l₂)) : Seg h.node (firstAddr l₂) l₂ none := by
  obtain ⟨r, -, h₂⟩ := seg_append.mp hc
  exact seg_start h₂ ▸ h₂

/-- **Relinking.**  When what follows the prefix `l₁` is replaced by what `target` leads to, the
chain is `l₁` and then that. -/
theorem Chain.link {target : Option A} (hc : h.Chain (l₁ ++ l₂))
    (htarget : Seg h.node target l₃ none)
    (hdisj : ∀ p, lastAddr l₁ = some p → p ∉ l₃.map Prod.fst) :
    (h.link (lastAddr l₁) target).Chain (l₁ ++ l₃) := by
  induction l₁ using List.reverseRecOn with
  | nil => exact htarget
  | append_singleton l c ih =>
      rw [lastAddr_append_singleton] at hdisj ⊢
      have hnodup := hc.nodup
      obtain ⟨r, hr, -⟩ := seg_append.mp hc
      obtain ⟨q, hl, hq, next, hnode, -⟩ := seg_append.mp hr
      have hfresh : c.1 ∉ l.map Prod.fst := by
        intro hmem
        simp only [List.map_append, List.append_assoc, List.map_cons,
          List.singleton_append] at hnodup
        exact (List.nodup_append.mp hnodup).2.2 c.1 hmem c.1 (by simp) rfl
      rw [Chain, List.append_assoc, seg_append]
      refine ⟨q, hl.update_of_notMem hfresh, hq, target, ?_, ?_⟩
      · show Function.update _ _ _ _ = _
        rw [Function.update_self, hnode]
        rfl
      · exact htarget.update_of_notMem (hdisj c.1 rfl)

/-- A node that points to the rest of the chain is linked behind the prefix `l₁`. -/
theorem Chain.insert {c : A × V} (hc : h.Chain (l₁ ++ l₂))
    (hnode : h.node c.1 = some ⟨c.2, firstAddr l₂⟩) (hout : c.1 ∉ l₁.map Prod.fst) :
    (h.link (lastAddr l₁) (some c.1)).Chain (l₁ ++ c :: l₂) := by
  have hnodup := hc.nodup
  rw [List.map_append, List.nodup_append] at hnodup
  refine hc.link ⟨rfl, firstAddr l₂, hnode, hc.tail⟩ ?_
  intro p hp
  have hp₁ := mem_of_lastAddr hp
  rw [List.map_cons, List.mem_cons]
  rintro (rfl | hp₂)
  · exact hout hp₁
  · exact hnodup.2.2 p hp₁ p hp₂ rfl

/-- A node is unlinked. -/
theorem Chain.unlink {c : A × V} (hc : h.Chain (l₁ ++ c :: l₂)) :
    (h.link (lastAddr l₁) (firstAddr l₂)).Chain (l₁ ++ l₂) := by
  have hnodup := hc.nodup
  rw [List.map_append, List.map_cons, List.nodup_append] at hnodup
  have hsplit : h.Chain ((l₁ ++ [c]) ++ l₂) := by simpa using hc
  refine hc.link hsplit.tail ?_
  intro p hp hp₂
  exact hnodup.2.2 p (mem_of_lastAddr hp) p (List.mem_cons_of_mem _ hp₂) rfl

/-- Overwriting the value of a cell. -/
theorem Chain.setValue {a : A} {v w : V} (hc : h.Chain (l₁ ++ (a, v) :: l₂)) :
    (h.setValue a w).Chain (l₁ ++ (a, w) :: l₂) := by
  have hnodup := hc.nodup
  obtain ⟨r, h₁, hr, next, hnode, h₂⟩ := seg_append.mp hc
  simp only [List.map_append, List.map_cons, List.nodup_append, List.nodup_cons] at hnodup
  obtain ⟨-, ⟨hout₂, -⟩, hout₁⟩ := hnodup
  have hfresh : a ∉ l₁.map Prod.fst := fun hmem => hout₁ a hmem a (by simp) rfl
  rw [Chain, seg_append]
  refine ⟨r, h₁.update_of_notMem hfresh, hr, next, ?_, h₂.update_of_notMem hout₂⟩
  show Function.update _ _ _ _ = _
  rw [Function.update_self, hnode]
  rfl

/-- Allocation outside of the chain. -/
lemma Chain.alloc {a : A} {n : Node A V} (hc : h.Chain l) (ha : h.node a = none) :
    (h.alloc a n).Chain l := by
  refine Seg.update_of_notMem hc ?_
  intro hmem
  obtain ⟨m, hm⟩ := Seg.exists_of_mem hc hmem
  rw [ha] at hm
  cases hm

/-- Freeing a node outside of the chain. -/
lemma Chain.free {a : A} (hc : h.Chain l) (ha : a ∉ l.map Prod.fst) : (h.free a).Chain l :=
  Seg.update_of_notMem hc ha

/-! ## Freeing everything -/

/-- An allocation at one address more. -/
lemma count_alloc {a : A} {n : Node A V} (ha : h.node a = none) (b : A) :
    ((h.alloc a n).node b).isSome.toNat = [a].count b + (h.node b).isSome.toNat := by
  by_cases hb : b = a
  · subst hb
    simp [ha]
  · simp [hb, Ne.symm hb]

/-- One allocated address less. -/
lemma count_free {a : A} (ha : (h.node a).isSome) (b : A) :
    [a].count b + ((h.free a).node b).isSome.toNat = (h.node b).isSome.toNat := by
  by_cases hb : b = a
  · subst hb
    simp [ha]
  · simp [hb, Ne.symm hb]

/-- Free one address after the other; each has to be allocated. -/
def freeAll : List A → Heap A V → Option (Heap A V)
  | [], h => some h
  | a :: ptrs, h => (h.node a).bind fun _ => freeAll ptrs (h.free a)

lemma freeAll_eq {ptrs : List A} (hnodup : ptrs.Nodup) (hsome : ∀ a ∈ ptrs, (h.node a).isSome) :
    ∃ h', freeAll ptrs h = some h' ∧ h'.root = h.root ∧
      ∀ b, h'.node b = if b ∈ ptrs then none else h.node b := by
  induction ptrs generalizing h with
  | nil => exact ⟨h, rfl, rfl, by simp⟩
  | cons a ptrs ih =>
      obtain ⟨hout, hnodup⟩ := List.nodup_cons.mp hnodup
      obtain ⟨n, hn⟩ := Option.isSome_iff_exists.mp (hsome a List.mem_cons_self)
      have hrest : ∀ b ∈ ptrs, ((h.free a).node b).isSome := by
        intro b hb
        have hne : b ≠ a := fun heq => hout (heq ▸ hb)
        rw [free_node, Function.update_of_ne hne]
        exact hsome b (List.mem_cons_of_mem _ hb)
      obtain ⟨h', hfree, hroot, hnode⟩ := ih hnodup hrest
      refine ⟨h', by rw [freeAll, hn, Option.bind_some, hfree], hroot, ?_⟩
      intro b
      rw [hnode, free_node]
      by_cases hb : b = a
      · simp [hb]
      · simp [hb]

/-- Free the node at the root and go on with its successor, until the root is null; the freed
addresses. -/
def freeChain : (fuel : ℕ) → Heap A V → Option (List A × Heap A V)
  | 0, _ => none
  | fuel + 1, h =>
      match h.root with
      | none => some ([], h)
      | some a => do
          let n ← h.node a
          let (freed, h') ← freeChain fuel ((h.free a).link none n.next)
          some (a :: freed, h')

lemma Chain.freeChain_eq {fuel : ℕ} (hc : h.Chain l) (hfuel : l.length < fuel) :
    ∃ h', h.freeChain fuel = some (l.map Prod.fst, h') ∧
      ∀ b, h'.node b = if b ∈ l.map Prod.fst then none else h.node b := by
  induction fuel generalizing h l with
  | zero => cases hfuel
  | succ fuel ih =>
      rw [freeChain, hc.root_eq]
      cases l with
      | nil => exact ⟨h, rfl, by simp⟩
      | cons c l =>
          have hcell : h.Chain ([] ++ c :: l) := hc
          have hout : c.1 ∉ l.map Prod.fst := (List.nodup_cons.mp hc.nodup).1
          have htail : ((h.free c.1).link none (firstAddr l)).Chain l := by
            have hsplit : h.Chain ([c] ++ l) := hc
            exact hsplit.tail.update_of_notMem hout
          obtain ⟨h', hfree, hnode⟩ := ih htail (Nat.lt_of_succ_lt_succ hfuel)
          refine ⟨h', ?_, ?_⟩
          · simp only [firstAddr_cons, hcell.node_eq, Option.bind_eq_bind, Option.bind_some, hfree,
              List.map_cons]
          · intro b
            rw [hnode, link_none, free_node]
            by_cases hb : b = c.1
            · simp [hb]
            · simp only [Function.update_of_ne hb, List.map_cons, List.mem_cons, hb, false_or]

/-- **Nothing is left.**  The chain and the addresses of a list are what is allocated, each once:
both can be freed, in either order. -/
theorem Chain.freeChain_freeAll {fuel : ℕ} {ptrs : List A} (hc : h.Chain l)
    (hnodup : (l.map Prod.fst ++ ptrs).Nodup)
    (hmem : ∀ a, a ∈ l.map Prod.fst ++ ptrs ↔ (h.node a).isSome) (hfuel : l.length < fuel) :
    (∃ h₁ h₂, h.freeChain fuel = some (l.map Prod.fst, h₁) ∧ h₁.freeAll ptrs = some h₂ ∧
      ∀ a, h₂.node a = none) ∧
    ∃ h₁ h₂, h.freeAll ptrs = some h₁ ∧ h₁.freeChain fuel = some (l.map Prod.fst, h₂) ∧
      ∀ a, h₂.node a = none := by
  obtain ⟨-, hptrs, hdisj⟩ := List.nodup_append.mp hnodup
  have hout : ∀ a ∈ ptrs, a ∉ l.map Prod.fst := fun a ha hl => hdisj a hl a ha rfl
  have hrest : ∀ a, a ∉ l.map Prod.fst → a ∉ ptrs → h.node a = none := by
    intro a hl hptr
    have hnone : ¬ (h.node a).isSome := by
      rw [← hmem a, List.mem_append]
      exact not_or.mpr ⟨hl, hptr⟩
    simpa using hnone
  constructor
  · obtain ⟨h₁, hchain, hnode⟩ := hc.freeChain_eq hfuel
    have hsome : ∀ a ∈ ptrs, (h₁.node a).isSome := by
      intro a ha
      rw [hnode, if_neg (hout a ha), ← hmem]
      exact List.mem_append_right _ ha
    obtain ⟨h₂, hfree, -, hnode'⟩ := freeAll_eq hptrs hsome
    refine ⟨h₁, h₂, hchain, hfree, ?_⟩
    intro a
    rw [hnode', hnode]
    split_ifs with hptr hl
    · rfl
    · rfl
    · exact hrest a hl hptr
  · have hsome : ∀ a ∈ ptrs, (h.node a).isSome :=
      fun a ha => (hmem a).mp (List.mem_append_right _ ha)
    obtain ⟨h₁, hfree, hroot, hnode⟩ := freeAll_eq hptrs hsome
    have hchain₁ : h₁.Chain l := by
      rw [Chain, hroot]
      refine hc.frame ?_
      intro a ha
      rw [hnode, if_neg fun hptr => hout a hptr ha]
    obtain ⟨h₂, hchain, hnode'⟩ := hchain₁.freeChain_eq hfuel
    refine ⟨h₁, h₂, hfree, hchain, ?_⟩
    intro a
    rw [hnode', hnode]
    split_ifs with hl hptr
    · rfl
    · rfl
    · exact hrest a hl hptr

/-! ## What a pointer leads to -/

omit [DecidableEq A] in
/-- Following the next pointers from `p`, one comes to `a`. -/
inductive Leads (node : A → Option (Node A V)) : Option A → A → Prop
  | here (a : A) : Leads node (some a) a
  | next {a b : A} {n : Node A V} (hn : node a = some n) (h : Leads node n.next b) :
      Leads node (some a) b

variable {node node' : A → Option (Node A V)} {p : Option A} {a b : A}

omit [DecidableEq A] in
lemma Leads.isSome (h : Leads node p b) : p.isSome := by
  cases h <;> rfl

omit [DecidableEq A] in
/-- A segment that ends at null leads to its own cells. -/
lemma Seg.mem_of_leads (hs : Seg node p l none) (h : Leads node p b) : b ∈ l.map Prod.fst := by
  induction h generalizing l with
  | here a =>
      cases l with
      | nil => cases hs
      | cons c l => simp [Option.some.inj hs.1]
  | next hn _ ih =>
      cases l with
      | nil => cases hs
      | cons c l =>
          obtain ⟨ha, next, hnode, hs⟩ := hs
          rw [← Option.some.inj ha, hn, Option.some.injEq] at hnode
          subst hnode
          exact List.mem_cons_of_mem _ (ih hs)

omit [DecidableEq A] in
/-- Nodes whose next pointers are as they were lead on as they did. -/
lemma Leads.of_next (h : Leads node' p b)
    (hnext : ∀ a n', Leads node p a → node' a = some n' →
      ∃ n, node a = some n ∧ n.next = n'.next) : Leads node p b := by
  induction h with
  | here a => exact .here a
  | next hn h ih =>
      obtain ⟨n, hnode, heq⟩ := hnext _ _ (.here _) hn
      refine .next hnode (heq ▸ ih ?_)
      intro c n' hc hc'
      exact hnext c n' (.next hnode (heq ▸ hc)) hc'

/-- What a pointer leads to after a store to a next pointer or to the root, it led to before, or
it is what was stored that leads to it. -/
lemma Leads.of_link {dst target : Option A} (hl : Leads (h.link dst target).node p b) :
    Leads h.node p b ∨ Leads (h.link dst target).node target b := by
  cases dst with
  | none => exact .inl hl
  | some d =>
      induction hl with
      | here a => exact .inl (.here a)
      | @next a b n hn hl ih =>
          by_cases ha : a = d
          · subst ha
            rw [link_some_node, Function.update_self] at hn
            obtain ⟨n₀, -, rfl⟩ := Option.map_eq_some_iff.mp hn
            exact .inr hl
          · rw [link_some_node, Function.update_of_ne ha] at hn
            exact ih.imp_left (.next hn)

lemma Leads.of_setValue {v : V} (hl : Leads (h.setValue a v).node p b) : Leads h.node p b := by
  refine hl.of_next ?_
  intro c n' _ hc
  by_cases hca : c = a
  · subst hca
    rw [setValue_node, Function.update_self] at hc
    obtain ⟨n, hn, rfl⟩ := Option.map_eq_some_iff.mp hc
    exact ⟨n, hn, rfl⟩
  · rw [setValue_node, Function.update_of_ne hca] at hc
    exact ⟨n', hc, rfl⟩

/-- A new node is led to by those pointers only that dangled at its address. -/
lemma Leads.of_alloc {n : Node A V} (hl : Leads (h.alloc a n).node p b)
    (ha : ¬ Leads h.node p a) : Leads h.node p b := by
  refine hl.of_next ?_
  intro c n' hc hc'
  have hca : c ≠ a := by
    rintro rfl
    exact ha hc
  rw [alloc_node, Function.update_of_ne hca] at hc'
  exact ⟨n', hc', rfl⟩

lemma Leads.of_free (hl : Leads (h.free a).node p b) : Leads h.node p b := by
  refine hl.of_next ?_
  intro c n' _ hc
  by_cases hca : c = a
  · subst hca
    rw [free_node, Function.update_self] at hc
    cases hc
  · rw [free_node, Function.update_of_ne hca] at hc
    exact ⟨n', hc, rfl⟩

/-! ## Links that go forward -/

omit [DecidableEq A] in
/-- Every next pointer goes along `R`, from the node that holds it. -/
def Forward (R : A → A → Prop) (h : Heap A V) : Prop :=
  ∀ p n q, h.node p = some n → n.next = some q → R p q

variable {R R' : A → A → Prop}

omit [DecidableEq A] in
lemma Forward.mono (hf : h.Forward R) (himp : ∀ p q, (h.node p).isSome → R p q → R' p q) :
    h.Forward R' := by
  intro p n q hn hq
  exact himp p q (by rw [hn]; rfl) (hf p n q hn hq)

lemma Forward.link {dst target : Option A} (hf : h.Forward R)
    (hnew : ∀ p q, dst = some p → target = some q → R p q) : (h.link dst target).Forward R := by
  cases dst with
  | none => exact hf
  | some d =>
      intro p n q hn hq
      by_cases hp : p = d
      · subst hp
        rw [link_some_node, Function.update_self] at hn
        obtain ⟨n₀, -, rfl⟩ := Option.map_eq_some_iff.mp hn
        exact hnew p q rfl hq
      · rw [link_some_node, Function.update_of_ne hp] at hn
        exact hf p n q hn hq

lemma Forward.setValue {v : V} (hf : h.Forward R) : (h.setValue a v).Forward R := by
  intro p n q hn hq
  by_cases hp : p = a
  · subst hp
    rw [setValue_node, Function.update_self] at hn
    obtain ⟨n₀, hn₀, rfl⟩ := Option.map_eq_some_iff.mp hn
    exact hf p n₀ q hn₀ hq
  · rw [setValue_node, Function.update_of_ne hp] at hn
    exact hf p n q hn hq

lemma Forward.alloc {n : Node A V} (hf : h.Forward R) (hnew : ∀ q, n.next = some q → R a q) :
    (h.alloc a n).Forward R := by
  intro p n' q hn hq
  by_cases hp : p = a
  · subst hp
    rw [alloc_node, Function.update_self, Option.some.injEq] at hn
    exact hnew q (hn ▸ hq)
  · rw [alloc_node, Function.update_of_ne hp] at hn
    exact hf p n' q hn hq

end Heap

end LinkedList
