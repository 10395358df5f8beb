import OptimisticLocking.List.TakingEffect

/-!
# Which accesses are enabled

An access through the null pointer, or to memory that is not allocated, is not enabled.  Under the
lock there is one such access: an `Insert` of a value that is equivalent to the one at the head
finds it with `prev == nullptr`.

* `Ready` — what a thread knows of its next access besides `PcOk`.
* **`Ready.of_read`** — the reads keep it.
* `ListSt.AtNull` — that access; **`ListSt.access_enabled`** — what is known suffices for every
  other.
-/

namespace OptLock

open LinkedList OrderedList HybridLock Transition

/-- The accesses between taking the lock and giving it back. -/
def ListPc.inBody {T A W : Type} : ListPc T A W → Bool
  | .headTest _ | .headNode _ | .headCompare _ _ _ | .searchRoot _ | .compare _ _ _ _ _ | .next _ _
  | .newHead _ | .assertNext _ _ | .overwriteNode _ _ | .overwrite _ _ _ | .splice _ _
  | .unlink _ _ | .link _ _ _ | .copy _ _ _ => true
  | _ => false

/-- Where the accesses of the body lead: to another one, or to the end of the body. -/
inductive Onward {T A W : Type} : ListPc T A W → Prop
  | body (pc : ListPc T A W) (h : pc.inBody = true) : Onward pc
  | answered (value : T) (found : Bool) : Onward (.validate value found)
  | unlock (ret : Option Bool) : Onward (.unlockCall ret)

section definitions

variable {T A W : Type} {cmp : T → T → Ordering} (L : Layout W cmp)

/-- There is a node at the head, and its value is not above `value`. -/
def HeadNotAbove (l : List (A × List W)) (value : T) : Prop :=
  ∃ c l₂, l = c :: l₂ ∧ L.compare c.2 value ≠ .gt

/-- The part of a search that belongs to an `Insert` begins behind a test of the head. -/
def SearchReady (l : List (A × List W)) (op : Searcher T) : Prop :=
  ∀ value, op = .writer (.insert value) → HeadNotAbove L l value

/-- What is known in front of an access besides `PcOk`, when the chain is `l`: the number of the
next word, and for `Insert` that the search begins at a node that it may go past. -/
def Ready (l : List (A × List W)) : ListPc T A W → Prop
  | .headNode _ => l ≠ []
  | .headCompare _ _ read => read.length < L.size
  | .searchRoot op | .next op _ => SearchReady L l op
  | .compare op _ _ _ read => read.length < L.size ∧ SearchReady L l op
  | .splice value _ | .assertNext value _ => HeadNotAbove L l value
  | .overwriteNode _ prev => prev.isSome
  | .overwrite _ _ i | .copy _ _ i => i < L.size
  | _ => True

/-- `Insert` has found its value at the head, where it has no `prev`. -/
def ListSt.AtNull {n : ℕ} (s : ListSt n T A W) (t : Fin n) : Prop :=
  ∃ value head node, s.pc t = .assertNext value none ∧ s.heap.root = some head ∧
    s.heap.node head = some node ∧ L.compare node.value value = .eq

end definitions

variable {n : ℕ} {T A W : Type} {cmp : T → T → Ordering} {L : Layout W cmp}
  {s : ListSt n T A W} {t : Fin n} {l : List (A × List W)} {pc : ListPc T A W} {op : Searcher T}
  {test : LoopTest} {prev : Option A} {current : A} {read : List W} {value : T} {fresh : A}

/-! ## Where the reads lead -/

lemma Onward.notFound : Onward (op.notFound prev : ListPc T A W) := by
  rcases op with v | (v | v)
  · exact .answered v false
  · exact .body _ rfl
  · exact .unlock (some false)

lemma Onward.found : Onward (op.found prev current : ListPc T A W) := by
  rcases op with v | (v | v) <;> exact .body _ rfl

lemma Onward.loop (p : Option A) : Onward (op.loop prev p : ListPc T A W) := by
  cases p with
  | none => exact .notFound
  | some current => exact .body _ rfl

lemma Onward.compared : Onward (L.compared op test prev current read) := by
  rw [Layout.compared]
  split_ifs
  · exact .body _ rfl
  · cases test with
    | greater =>
        rw [Searcher.tested]
        split_ifs
        · exact .notFound
        · exact .body _ rfl
    | equal =>
        rw [Searcher.tested]
        split_ifs
        · exact .found
        · exact .body _ rfl

lemma ReadEffect.onward (h : ReadEffect L s t pc) (hbody : (s.pc t).inBody = true) :
    Onward pc := by
  cases h with
  | lockLoad _ hpc | epochLoad _ hpc | restart _ _ hpc | valid _ _ hpc | scan _ _ hpc
  | scanned _ _ hpc =>
      rw [hpc] at hbody
      cases hbody
  | headCompare =>
      rw [Layout.headCompared]
      split_ifs <;> exact .body _ rfl
  | searchRoot | next => exact .loop _
  | compare => exact .compared
  | _ => exact .body _ rfl

/-! ## What the reads add -/

lemma Ready.notFound (h : SearchReady L l op) : Ready L l (op.notFound prev) := by
  rcases op with v | (v | v)
  · trivial
  · exact h v rfl
  · trivial

lemma Ready.found (h : SearchReady L l op) : Ready L l (op.found prev current) := by
  rcases op with v | (v | v)
  · exact L.size_pos
  · exact h v rfl
  · trivial

lemma Ready.loop (h : SearchReady L l op) (p : Option A) : Ready L l (op.loop prev p) := by
  cases p with
  | none => exact .notFound h
  | some current => exact ⟨L.size_pos, h⟩

lemma Ready.compared (h : SearchReady L l op) :
    Ready L l (L.compared op test prev current read) := by
  rw [Layout.compared]
  split_ifs with hmore
  · exact ⟨hmore, h⟩
  · cases test with
    | greater =>
        rw [Searcher.tested]
        split_ifs
        · exact .notFound h
        · exact ⟨L.size_pos, h⟩
    | equal =>
        rw [Searcher.tested]
        split_ifs
        · exact .found h
        · exact h

/-- **What a read adds.** -/
theorem Ready.of_read (h : Ready L l (s.pc t)) (hread : s.read L t = some pc) (hc : s.heap.Chain l)
    (hlen : ∀ c ∈ l, c.2.length = L.size)
    (hok : (s.pc t).critical = true → PcOk L s.heap (s.result t) l (s.pc t)) : Ready L l pc := by
  cases ListSt.read_effect hread with
  | headTest value hpc =>
      rintro rfl
      have hroot : s.heap.root = none := hc.root_eq
      simp [ListSt.read, hpc, hroot] at hread
  | headNode value hpc current hroot => exact L.size_pos
  | headCompare value current read hpc node hnode word hword =>
      rw [hpc] at hok
      obtain ⟨w, l₂, rfl, hw⟩ := hok rfl
      have hcell : s.heap.Chain ([] ++ (current, w) :: l₂) := hc
      rw [hcell.node_eq, Option.some.injEq] at hnode
      subst hnode
      have hlast := (prefix_snoc hw hword).eq_of_length_le
      rw [hlen (current, w) List.mem_cons_self] at hlast
      rw [Layout.headCompared]
      split_ifs with hmore hgt
      · exact hmore
      · trivial
      · rw [hlast (by omega)] at hgt
        rintro v hv
        cases hv
        exact ⟨(current, w), l₂, rfl, hgt⟩
  | searchRoot op hpc =>
      rw [hpc] at h
      exact .loop h _
  | compare op test prev current read hpc =>
      rw [hpc] at h
      exact .compared h.2
  | next op current hpc =>
      rw [hpc] at h
      exact .loop h _
  | assertNext value prev hpc =>
      -- the null pointer was not enabled
      cases prev with
      | none => simp [ListSt.read, hpc, ListSt.deref] at hread
      | some p => exact rfl
  | overwriteNode => exact L.size_pos
  | _ => trivial

/-! ## The accesses -/

/-- A cell that a thread is at, and the next word of its value. -/
lemma exists_word (hc : s.heap.Chain l) (hlen : ∀ c ∈ l, c.2.length = L.size)
    {l₁ l₂ : List (A × List W)} {w : List W} (hl : l = l₁ ++ (current, w) :: l₂) {i : ℕ}
    (hi : i < L.size) :
    ∃ node word, s.heap.node current = some node ∧ node.value[i]? = some word := by
  subst hl
  have hsize : i < w.length := by rwa [hlen (current, w) (by simp)]
  exact ⟨_, w[i], hc.node_eq, List.getElem?_eq_getElem hsize⟩

variable [DecidableEq A]

/-- The next access only reads. -/
lemma ListSt.read_of_resume (h : ReadEffect L s t pc)
    (hresume : s.resume L t fresh = some (s.setPc t pc)) : s.read L t = some pc := by
  have hmap : (s.read L t).map (s.setPc t) = some (s.setPc t pc) := by
    rw [← hresume]
    cases h <;> simp only [ListSt.resume, *]
  obtain ⟨pc', hread, heq⟩ := Option.map_eq_some_iff.mp hmap
  have hself := congrFun (congrArg ListSt.pc heq) t
  rw [ListSt.setPc_pc, ListSt.setPc_pc, Function.update_self, Function.update_self] at hself
  rw [hread, hself]

/-- **What is known suffices.**  Under the lock, the next access is enabled, unless it goes through
the null pointer. -/
theorem ListSt.access_enabled (hc : s.heap.Chain l) (hlen : ∀ c ∈ l, c.2.length = L.size)
    (hok : PcOk L s.heap (s.result t) l (s.pc t)) (hready : Ready L l (s.pc t))
    (hbody : (s.pc t).inBody = true) (hfresh : s.heap.node fresh = none) :
    (s.resume L t fresh).isSome ∨ s.AtNull L t := by
  cases hpc : s.pc t with
  | outside | lockLoad | lockCas | deferFreePointer | unlockCall | unlocking | epochLoad
  | epochStore | optimisticLock | validate | epochLeave | scanning | freeing =>
      rw [hpc] at hbody
      cases hbody
  | headTest value => exact .inl (by simp [resume, ListSt.read, hpc])
  | searchRoot op => exact .inl (by simp [resume, ListSt.read, hpc])
  | headNode value =>
      rw [hpc] at hready
      cases l with
      | nil => exact absurd rfl hready
      | cons c l => exact .inl (by simp [resume, ListSt.read, hpc, hc.root_eq])
  | headCompare value current read =>
      rw [hpc] at hok hready
      obtain ⟨w, l₂, hl, hw⟩ := hok
      have hl' : l = [] ++ (current, w) :: l₂ := hl
      obtain ⟨node, word, hnode, hword⟩ := exists_word hc hlen hl' hready
      exact .inl (by simp [resume, ListSt.read, hpc, hnode, hword])
  | compare op test prev current read =>
      rw [hpc] at hok hready
      obtain ⟨l₁, w, l₂, hl, -⟩ := hok
      obtain ⟨node, word, hnode, hword⟩ := exists_word hc hlen hl hready.1
      exact .inl (by simp [resume, ListSt.read, hpc, hnode, hword])
  | next op current =>
      rw [hpc] at hok
      obtain ⟨l₁, w, l₂, rfl, -⟩ := hok
      exact .inl (by simp [resume, ListSt.read, hpc, hc.node_eq])
  | newHead value => exact .inl (by simp [resume, newNode, hpc, hfresh])
  | assertNext value prev =>
      rw [hpc] at hok
      obtain ⟨l₁, c, l₂, rfl, hprev, heq⟩ := hok
      rcases List.eq_nil_or_concat l₁ with rfl | ⟨l₀, x, rfl⟩
      · -- the search has not gone past the head
        have hhead : s.heap.Chain ([] ++ c :: l₂) := hc
        exact .inr ⟨value, c.1, _, by rw [hpc, hprev]; rfl, hhead.root_eq, hhead.node_eq, heq⟩
      · have hcell : s.heap.Chain (l₀ ++ x :: c :: l₂) := by simpa using hc
        refine .inl ?_
        simp [resume, ListSt.read, hpc, hprev, deref, hcell.node_eq]
  | overwriteNode value prev =>
      rw [hpc] at hok hready
      obtain ⟨l₁, c, l₂, rfl, hprev, -⟩ := hok
      obtain ⟨p, rfl⟩ := Option.isSome_iff_exists.mp hready
      obtain ⟨l₀, x, rfl⟩ := exists_eq_append_of_lastAddr hprev.symm
      have hcell : s.heap.Chain (l₀ ++ (p, x) :: c :: l₂) := by simpa using hc
      exact .inl (by simp [resume, ListSt.read, hpc, deref, hcell.node_eq])
  | overwrite value current i =>
      rw [hpc] at hok hready
      obtain ⟨v₁, x, v₂, -, rfl, -⟩ := hok
      have hword : (L.words value)[i]? = some _ :=
        List.getElem?_eq_getElem (by rw [L.length_words]; exact hready)
      refine .inl ?_
      rw [resume, hpc]
      simp only [hc.node_eq, hword]
      rfl
  | splice value prev =>
      rw [hpc] at hok hready
      obtain ⟨l₁, l₂, rfl, hprev, -, hstop⟩ := hok
      obtain ⟨c, l₃, hl, hngt⟩ := hready
      rcases List.eq_nil_or_concat l₁ with rfl | ⟨l₀, x, rfl⟩
      · -- the search has gone past the head
        rw [List.nil_append] at hl
        subst hl
        cases hstop with
        | greater _ _ hgt => exact absurd hgt hngt
      · have hcell : s.heap.Chain (l₀ ++ x :: l₂) := by simpa using hc
        refine .inl ?_
        simp [resume, newNode, hpc, hprev, deref, hcell.node_eq, hfresh]
  | unlink prev current =>
      rw [hpc] at hok
      obtain ⟨l₁, w, l₂, rfl, -⟩ := hok
      exact .inl (by simp [resume, ListSt.read, hpc, hc.node_eq])
  | link dst target victim =>
      rw [hpc] at hok
      obtain ⟨l₁, l₂, rfl, rfl⟩ : ∃ l₁ l₂, l = l₁ ++ l₂ ∧ dst = lastAddr l₁ := by
        cases victim with
        | none =>
            obtain ⟨l₁, l₂, -, -, hl, hdst, -⟩ := hok
            exact ⟨l₁, l₂, hl, hdst⟩
        | some victim =>
            obtain ⟨l₁, w, l₂, hl, hdst, -⟩ := hok
            exact ⟨l₁, _, hl, hdst⟩
      have hdst : ∀ p ∈ lastAddr l₁, (s.heap.node p).isSome := by
        intro p hp
        obtain ⟨l₀, x, rfl⟩ := exists_eq_append_of_lastAddr hp
        have hcell : s.heap.Chain (l₀ ++ (p, x) :: l₂) := by simpa using hc
        rw [hcell.node_eq]
        rfl
      exact .inl (by simpa [resume, hpc] using hdst)
  | copy value current i =>
      rw [hpc] at hok hready
      obtain ⟨l₁, w, l₂, old, hl, -⟩ := hok
      obtain ⟨node, word, hnode, hword⟩ := exists_word hc hlen hl hready
      exact .inl (by simp [resume, hpc, hnode, hword])

end OptLock
