import OptimisticLocking.List.Enabled
import OptimisticLocking.List.SafeReclamation

/-!
# What can go wrong in `OptimisticSortedList`

An access that is not enabled is undefined behaviour of the code: it goes through the null pointer,
or to memory that is not allocated, or it follows a failed assertion.

* `ListSt.AtNull`, `ListSt.AtUnallocated` — the two faults.
* `AccessInv` — what is known in front of every access; `AccessInv.step` — it is kept.
* **`optimisticSortedList_faults`** — there are no others; and where the tags cover the readers,
  there is only the first.
-/

namespace OptLock

open LinkedList OrderedList HybridLock Transition

/-! ## The faults -/

section definitions

variable {T A W : Type} {cmp : T → T → Ordering} (L : Layout W cmp)

/-- The number of the next word is that of a word. -/
def ListPc.Indexed : ListPc T A W → Prop
  | .headCompare _ _ read | .compare _ _ _ _ read => read.length < L.size
  | .overwrite _ _ i | .copy _ _ i => i < L.size
  | _ => True

/-- Inside a call. -/
def ListPc.inCall : ListPc T A W → Bool
  | .outside _ => false
  | _ => true

/-- Inside `UnlockExclusive`. -/
def ListPc.releasing : ListPc T A W → Bool
  | .unlocking _ => true
  | _ => false

/-- `LookUp` is about to read at an address that is not allocated at this moment.  An address that
was freed and given out again is allocated. -/
def ListSt.AtUnallocated {n : ℕ} (s : ListSt n T A W) (t : Fin n) : Prop :=
  ∃ p, (s.pc t).position none = some p ∧ s.heap.node p = none

end definitions

/-! ## What is known in front of an access -/

/-- What is known in front of every access, with the cells `l` of the chain. -/
structure AccessInv {n : ℕ} {T A W : Type} {cmp : T → T → Ordering} (L : Layout W cmp)
    (s : ListSt n T A W) (l : List (A × List W)) : Prop where
  list : ListInv L s l
  words : ∀ a node, s.heap.node a = some node → node.value.length = L.size
  indexed : ∀ t, (s.pc t).Indexed L
  ready : ∀ t, (s.pc t).critical = true → Ready L l (s.pc t)
  places : ∀ t, s.lock.pc t = .idle ↔ (s.pc t).releasing = false

section reads

variable {n : ℕ} {T A W : Type} {cmp : T → T → Ordering} {L : Layout W cmp}
  {s : ListSt n T A W} {t : Fin n} {pc : ListPc T A W} {op : Searcher T} {test : LoopTest}
  {prev : Option A} {current : A} {read : List W}

lemma indexed_notFound : (op.notFound prev : ListPc T A W).Indexed L := by
  rcases op with v | (v | v) <;> trivial

lemma indexed_found : (op.found prev current : ListPc T A W).Indexed L := by
  rcases op with v | (v | v)
  · exact L.size_pos
  · trivial
  · trivial

lemma indexed_loop (p : Option A) : (op.loop prev p : ListPc T A W).Indexed L := by
  cases p with
  | none => exact indexed_notFound
  | some current => exact L.size_pos

lemma indexed_compared : (L.compared op test prev current read).Indexed L := by
  rw [Layout.compared]
  split_ifs with hmore
  · exact hmore
  · cases test with
    | greater =>
        rw [Searcher.tested]
        split_ifs
        · exact indexed_notFound
        · exact L.size_pos
    | equal =>
        rw [Searcher.tested]
        split_ifs
        · exact indexed_found
        · trivial

lemma ReadEffect.indexed (h : ReadEffect L s t pc) : pc.Indexed L := by
  cases h with
  | headNode | overwriteNode => exact L.size_pos
  | headCompare value current read =>
      rw [Layout.headCompared]
      split_ifs with hmore
      · exact hmore
      · trivial
      · trivial
  | searchRoot | next => exact indexed_loop _
  | compare => exact indexed_compared
  | _ => trivial

lemma releasing_loop (p : Option A) : (op.loop prev p : ListPc T A W).releasing = false := by
  cases p with
  | none => rcases op with v | (v | v) <;> rfl
  | some current => rfl

lemma releasing_compared : (L.compared op test prev current read).releasing = false := by
  rw [Layout.compared]
  split_ifs
  · rfl
  · cases test <;> rw [Searcher.tested] <;> split_ifs <;>
      first | rfl | (rcases op with v | (v | v) <;> rfl)

/-- No read is made inside `UnlockExclusive`. -/
lemma ReadEffect.releasing (h : ReadEffect L s t pc) :
    (s.pc t).releasing = false ∧ pc.releasing = false := by
  cases h with
  | headCompare value current read hpc =>
      rw [hpc, Layout.headCompared]
      refine ⟨rfl, ?_⟩
      split_ifs <;> rfl
  | searchRoot op hpc => exact ⟨hpc ▸ rfl, releasing_loop _⟩
  | next op current hpc => exact ⟨hpc ▸ rfl, releasing_loop _⟩
  | compare op test prev current read hpc => exact ⟨hpc ▸ rfl, releasing_compared⟩
  | lockLoad _ hpc | headNull _ hpc | headTest _ hpc | headNode _ hpc | assertNext _ _ hpc
  | overwriteNode _ _ hpc | unlink _ _ hpc | epochLoad _ hpc | restart _ _ hpc | valid _ _ hpc
  | scan _ _ hpc | scanned _ _ hpc =>
      rw [hpc]
      exact ⟨rfl, rfl⟩

end reads

/-! ## It is kept -/

section steps

variable {n : ℕ} {T A W : Type} [DecidableEq A] {cmp : T → T → Ordering} {L : Layout W cmp}
  {s s' : ListSt n T A W} {a : ListAct n T A} {t u : Fin n} {l l' : List (A × List W)}

/-- The words of a node are stored one at a time, but none is added. -/
lemma ListSt.words_step (h : ∀ b node, s.heap.node b = some node → node.value.length = L.size)
    (hstep : s.step L a = some s') :
    ∀ b node, s'.heap.node b = some node → node.value.length = L.size := by
  have hlink : ∀ dst target b node, (s.heap.link dst target).node b = some node →
      node.value.length = L.size := by
    intro dst target b node hnode
    cases dst with
    | none => exact h b node hnode
    | some p =>
        rw [Heap.link_some_node] at hnode
        by_cases hb : b = p
        · rw [hb, Function.update_self, Option.map_eq_some_iff] at hnode
          obtain ⟨old, hold, rfl⟩ := hnode
          exact h p old hold
        · rw [Function.update_of_ne hb] at hnode
          exact h b node hnode
  cases ListSt.step_effect hstep with
  | call t c => cases c <;> exact h
  | newNode t fresh value dst next halloc hfresh =>
      intro b node hnode
      rw [Heap.alloc_node] at hnode
      by_cases hb : b = fresh
      · rw [hb, Function.update_self, Option.some.injEq] at hnode
        rw [← hnode]
        exact L.length_words value
      · rw [Function.update_of_ne hb] at hnode
        exact h b node hnode
  | overwrite t fresh value current i hpc old hold word hword =>
      intro b node hnode
      rw [Heap.setValue_node] at hnode
      by_cases hb : b = current
      · rw [hb, Function.update_self, Option.map_eq_some_iff] at hnode
        obtain ⟨_, _, rfl⟩ := hnode
        exact (List.length_set ..).trans (h current old hold)
      · rw [Function.update_of_ne hb] at hnode
        exact h b node hnode
  | linkNew t fresh dst target => exact hlink dst target
  | linkPast t fresh dst target => exact hlink dst target
  | free t fresh m idx hpc e =>
      intro b node hnode
      rw [Heap.free_node] at hnode
      by_cases hb : b = e.ptr
      · rw [hb, Function.update_self] at hnode
        cases hnode
      · rw [Function.update_of_ne hb] at hnode
        exact h b node hnode
  | _ => exact h

/-- What an access leaves its thread at. -/
lemma ListSt.indexed_step (h : ∀ u, (s.pc u).Indexed L) (hstep : s.step L a = some s') :
    ∀ u, (s'.pc u).Indexed L := by
  have hset : ∀ (t : Fin n) (pc : ListPc T A W), pc.Indexed L →
      ∀ u, (Function.update s.pc t pc u).Indexed L := by
    intro t pc hpc u
    by_cases hu : u = t
    · rwa [hu, Function.update_self]
    · rw [Function.update_of_ne hu]
      exact h u
  cases ListSt.step_effect hstep with
  | call t c => cases c <;> exact hset t _ trivial
  | freeOutdatedPtr t => exact hset t _ trivial
  | advanceGlobalEpoch => exact h
  | read t fresh pc hread => exact hset t pc hread.indexed
  | lockAcquired t fresh w => exact hset t _ (by cases w <;> trivial)
  | overwrite t fresh value current i | copy t fresh value current i =>
      refine hset t _ ?_
      split_ifs with hmore
      · exact hmore
      · trivial
  | leave t fresh value ret => exact hset t _ (by rcases ret with _ | _ <;> trivial)
  | unlocking t | optimisticLock t => exact hset t _ (by split_ifs <;> trivial)
  | lockRefused t | newNode t | linkNew t | linkPast t | deferFreePointer t | unlockCall t
  | publish t | free t | erased t => exact hset t _ trivial

/-- A thread is inside `UnlockExclusive` where its guard is. -/
lemma ListSt.places_step (h : ∀ u, s.lock.pc u = .idle ↔ (s.pc u).releasing = false)
    (hstep : s.step L a = some s') :
    ∀ u, s'.lock.pc u = .idle ↔ (s'.pc u).releasing = false := by
  have hset : ∀ (t : Fin n) (pc₀ pc : ListPc T A W), s.pc t = pc₀ → pc₀.releasing = false →
      pc.releasing = false →
      ∀ u, s.lock.pc u = .idle ↔ (Function.update s.pc t pc u).releasing = false := by
    intro t pc₀ pc hpc₀ hbefore hafter u
    by_cases hu : u = t
    · rw [hu, Function.update_self, h, hpc₀, hbefore, hafter]
    · rw [Function.update_of_ne hu]
      exact h u
  cases ListSt.step_effect hstep with
  | call t c ret hpc => cases c <;> exact hset t _ _ hpc rfl rfl
  | freeOutdatedPtr t ret hpc => exact hset t _ _ hpc rfl rfl
  | advanceGlobalEpoch => exact h
  | read t fresh pc hread => exact hset t _ pc rfl hread.releasing.1 hread.releasing.2
  | lockAcquired t fresh w old hpc lock hlock =>
      have hstart : (w.start : ListPc T A W).releasing = false := by
        cases w <;> rfl
      rw [show _ = s.lock.pc from LockSt.tryLockExclusive_pc hlock]
      exact hset t _ _ hpc rfl hstart
  | overwrite t fresh value current i hpc | copy t fresh value current i hpc =>
      exact hset t _ _ hpc rfl (by split_ifs <;> rfl)
  | leave t fresh value ret hpc => exact hset t _ _ hpc rfl (by rcases ret with _ | _ <;> rfl)
  | optimisticLock t fresh value hpc => exact hset t _ _ hpc rfl (by split_ifs <;> rfl)
  | newNode t fresh value dst next halloc =>
      cases halloc with
      | head hpc | inner _ _ hpc => exact hset t _ _ hpc rfl rfl
  | unlockCall t fresh ret hpc lock hlock =>
      obtain ⟨-, hbusy, hothers⟩ := LockSt.release_pc hlock
      intro u
      show lock.pc u = .idle ↔ (Function.update s.pc t _ u).releasing = false
      by_cases hu : u = t
      · rw [hu, Function.update_self]
        exact iff_of_false hbusy nofun
      · rw [Function.update_of_ne hu, hothers u hu]
        exact h u
  | unlocking t fresh ret hpc lock hlock =>
      intro u
      show lock.pc u = .idle ↔ (Function.update s.pc t _ u).releasing = false
      by_cases hu : u = t
      · rw [hu, Function.update_self]
        split_ifs with hidle
        · exact iff_of_true hidle rfl
        · exact iff_of_false hidle nofun
      · rw [Function.update_of_ne hu, LockSt.resume_pc hlock hu]
        exact h u
  | lockRefused t fresh w old hpc | linkNew t fresh dst target hpc
  | linkPast t fresh dst target victim hpc | deferFreePointer t fresh current hpc
  | publish t fresh value epoch hpc | free t fresh m idx hpc | erased t fresh m idx hpc =>
      exact hset t _ _ hpc rfl rfl

/-- While one thread holds the lock, no other changes the chain. -/
lemma ListInv.chain_of_other (h : ListInv L s l) (hstep : s.step L a = some s')
    (hother : a.thread ≠ some u) (hmem : u ∈ s.lock.exclusive) : s'.heap.Chain l := by
  have hfree : ∀ (t : Fin n) (pc : ListPc T A W), s.pc t = pc → pc.critical = true →
      ListAct.thread a = some t → False := by
    rintro t pc hpc hcrit ha
    exact hother (ha.trans (congrArg some (h.eq_of_mem hmem (h.mem_of_pc hpc hcrit))))
  cases ListSt.step_effect hstep with
  | call t c => cases c <;> exact h.chain
  | newNode t fresh value dst next halloc =>
      cases halloc with
      | head hpc | inner _ _ hpc => exact (hfree t _ hpc rfl rfl).elim
  | overwrite t fresh value current i hpc | linkNew t fresh dst target hpc
  | linkPast t fresh dst target victim hpc => exact (hfree t _ hpc rfl rfl).elim
  | free t fresh m idx hpc e he =>
      refine h.chain.free (h.accounts.notMem_chain (t := t) ?_)
      rw [ListSt.held_of_freeing hpc he]
      exact List.mem_cons_self
  | _ => exact h.chain

namespace AccessInv

omit [DecidableEq A] in
lemma init : AccessInv L (ListSt.init : ListSt n T A W) [] where
  list := .init
  words := nofun
  indexed := fun _ => trivial
  ready := nofun
  places := fun _ => iff_of_true rfl rfl

omit [DecidableEq A] in
lemma length_of_mem (h : AccessInv L s l) : ∀ c ∈ l, c.2.length = L.size := by
  intro c hc
  obtain ⟨l₁, l₂, rfl⟩ := List.append_of_mem hc
  exact h.words c.1 _ h.list.chain.node_eq

/-- What a thread knows after its own step. -/
lemma ready_own (h : AccessInv L s l) (hlist : ListInv L s' l') (hstep : s.step L a = some s')
    (ha : a.thread = some t) (hcrit : (s'.pc t).critical = true) : Ready L l' (s'.pc t) := by
  cases ListSt.step_effect hstep with
  | advanceGlobalEpoch => cases ha
  | call u c =>
      cases ha
      cases c <;> simp [ListSt.call, Ready]
  | read u fresh pc hread =>
      cases ha
      rw [ListSt.setPc_pc, Function.update_self] at hcrit ⊢
      have hcrit₀ := hread.sameRole.critical.symm.trans hcrit
      obtain rfl := Heap.Chain.unique hlist.chain h.list.chain
      exact (h.ready t hcrit₀).of_read (ListSt.read_of_resume hread hstep) h.list.chain
        h.length_of_mem fun hmem => h.list.writer t ((h.list.roles t).mpr hmem)
  | lockAcquired u fresh w =>
      cases ha
      rw [ListSt.setPc_pc, Function.update_self]
      cases w with
      | insert v => trivial
      | delete v => rintro _ ⟨⟩
  | overwrite u | copy u =>
      cases ha
      rw [ListSt.setPc_pc, Function.update_self]
      split_ifs with hmore
      · exact hmore
      · trivial
  | leave u fresh value ret =>
      cases ha
      rw [ListSt.setPc_pc, Function.update_self]
      rcases ret with _ | _ <;> trivial
  | optimisticLock u =>
      cases ha
      rw [ListSt.setPc_pc, Function.update_self]
      split_ifs
      · trivial
      · rintro _ ⟨⟩
  | unlocking u =>
      cases ha
      rw [ListSt.setPc_pc, Function.update_self]
      split_ifs <;> trivial
  | freeOutdatedPtr u | lockRefused u | newNode u | linkNew u | linkPast u | deferFreePointer u
  | unlockCall u | publish u | free u | erased u =>
      cases ha
      rw [ListSt.setPc_pc, Function.update_self]
      trivial

/-- **The step lemma.** -/
theorem step (h : AccessInv L s l) (hstep : s.step L a = some s') : ∃ l', AccessInv L s' l' := by
  obtain ⟨l', hlist⟩ := h.list.step hstep
  refine ⟨l', hlist, ListSt.words_step h.words hstep, ListSt.indexed_step h.indexed hstep, ?_,
    ListSt.places_step h.places hstep⟩
  intro u hcrit
  by_cases hown : a.thread = some u
  · exact h.ready_own hlist hstep hown hcrit
  · -- the others leave the chain while `u` holds the lock
    rw [(ListSt.step_frame hstep hown).1] at hcrit ⊢
    have hchain := h.list.chain_of_other hstep hown ((h.list.roles u).mpr hcrit)
    obtain rfl := Heap.Chain.unique hlist.chain hchain
    exact h.ready u hcrit

/-- **The run lemma.** -/
theorem run {tr : List (ListAct n T A)}
    (hrun : Transition.run (ListSt.step L) ListSt.init tr = some s) : ∃ l, AccessInv L s l :=
  run_invariant (I := fun s => ∃ l, AccessInv L s l) (fun _ _ _ ⟨_, h⟩ hstep => h.step hstep)
    ⟨[], init⟩ hrun

end AccessInv

/-! ## The accesses -/

namespace AccessInv

variable {fresh : A}

/-- Under the lock. -/
lemma enabled_of_critical (h : AccessInv L s l) (hcrit : (s.pc t).critical = true)
    (hfresh : s.heap.node fresh = none) :
    (s.resume L t fresh).isSome ∨ s.AtNull L t := by
  have hmem := (h.list.roles t).mpr hcrit
  have hidle := h.places t
  cases hpc : s.pc t with
  | deferFreePointer current => exact .inl (by simp [ListSt.resume, hpc])
  | unlockCall ret =>
      rw [hpc] at hidle
      have hcall : (s.lock.step (.release t .unlockExclusive)).isSome := by
        rw [LockSt.step, if_pos (hidle.mpr rfl)]
        rfl
      exact .inl (by simpa [ListSt.resume, hpc] using hcall)
  | unlocking ret =>
      rw [hpc] at hidle
      have hplace := h.list.lock.pcs t
      have hnext : (s.lock.step (.resume t false)).isSome := by
        rw [LockSt.step, LockSt.resume]
        cases hlock : s.lock.pc t with
        | idle =>
            have hfalse := hidle.mp hlock
            cases hfalse
        | aborted =>
            rw [hlock] at hplace
            exact hplace.elim
        | unlockSharedCas old =>
            simp only []
            split <;> rfl
        | releaseLoad | releaseStore | unlockSharedLoad => rfl
      exact .inl (by simpa [ListSt.resume, hpc] using hnext)
  | outside | lockLoad | lockCas | epochLoad | epochStore | optimisticLock | copy | validate
  | epochLeave | scanning | freeing =>
      rw [hpc] at hcrit
      cases hcrit
  | _ =>
      have hbody : (s.pc t).inBody = true := by
        rw [hpc]
        rfl
      exact ListSt.access_enabled h.list.chain h.length_of_mem (h.list.writer t hmem)
        (h.ready t hcrit) hbody hfresh

/-- Without the lock. -/
lemma enabled_of_not_critical (h : AccessInv L s l) (hcrit : (s.pc t).critical = false)
    (hcall : (s.pc t).inCall = true) (hlive : ¬ s.AtUnallocated t) :
    (s.resume L t fresh).isSome := by
  have hidle := h.places t
  have hindex := h.indexed t
  -- the node that a `LookUp` reads is there, with all its words
  have hword : ∀ current i, (s.pc t).position none = some current → i < L.size →
      ∃ node word, s.heap.node current = some node ∧ node.value[i]? = some word := by
    intro current i hpos hi
    cases hnode : s.heap.node current with
    | none => exact absurd ⟨current, hpos, hnode⟩ hlive
    | some node =>
        have hsize : i < node.value.length := by rwa [h.words current node hnode]
        exact ⟨node, _, rfl, List.getElem?_eq_getElem hsize⟩
  cases hpc : s.pc t with
  | outside =>
      rw [hpc] at hcall
      cases hcall
  | lockLoad | epochLoad | epochStore | optimisticLock | validate | epochLeave | scanning
  | searchRoot => simp [ListSt.resume, ListSt.read, hpc]
  | lockCas w old =>
      rw [hpc] at hidle
      have hstep : (s.lock.step (.tryLockExclusive t old)).isSome := by
        rw [LockSt.step, if_pos (hidle.mpr rfl)]
        split <;> rfl
      simpa [ListSt.resume, hpc] using hstep
  | compare op test prev current read =>
      cases op with
      | writer w =>
          rw [hpc] at hcrit
          cases hcrit
      | lookUp value =>
          rw [hpc] at hindex hword
          obtain ⟨node, word, hnode, hword⟩ := hword current read.length rfl hindex
          simp [ListSt.resume, ListSt.read, hpc, hnode, hword]
  | next op current =>
      cases op with
      | writer w =>
          rw [hpc] at hcrit
          cases hcrit
      | lookUp value =>
          rw [hpc] at hword
          obtain ⟨node, word, hnode, -⟩ := hword current 0 rfl L.size_pos
          simp [ListSt.resume, ListSt.read, hpc, hnode]
  | copy value current i =>
      rw [hpc] at hindex hword
      obtain ⟨node, word, hnode, hword⟩ := hword current i rfl hindex
      simp [ListSt.resume, hpc, hnode, hword]
  | freeing m idx =>
      simp only [ListSt.resume, hpc, ListSt.freeStep]
      split
      · rfl
      · next e he =>
          split_ifs
          · rfl
          · -- a node that waits to be freed is allocated
            have halloc : (s.heap.node e.ptr).isSome := by
              refine (h.list.accounts.mem e.ptr).mp (Multiset.mem_add.mpr (.inr ?_))
              refine ListSt.mem_owned.mpr ⟨t, ?_⟩
              rw [ListSt.held_of_freeing hpc he]
              exact List.mem_cons_self
            simpa using halloc
  | _ =>
      rw [hpc] at hcrit
      cases hcrit

end AccessInv

omit [DecidableEq A] in
/-- Memory that a covered `LookUp` holds has not been freed. -/
lemma ReachInv.not_atUnallocated (h : ReachInv s) : ¬ s.AtUnallocated t := by
  rintro ⟨p, hpos, hnode⟩
  have hroot : (s.pc t).position s.heap.root = some p := by
    rcases position_cases (s.pc t) with hcase | ⟨q, hq⟩
    · rw [hcase] at hpos
      cases hpos
    · rw [hq, ← hpos, hq]
  have hlive := h.allocated t p (by rw [ListSt.Reaches, hroot]; exact .here p)
  rw [hnode] at hlive
  cases hlive

end steps

/-- **The faults of the list.**  Any number of threads run `Insert`, `Delete`, `LookUp` and
`FreeOutdatedPtr` on one list, in any interleaving, while `malloc` has an address to give.  The next
access of a thread that is inside a call is defined exactly when it is neither that of an `Insert`
that has found its value at the head, nor that of a `LookUp` to an address that is not allocated at
this moment; and the latter does not come about when each deferral has a tag that covers the readers
of the node. -/
theorem optimisticSortedList_faults {n : ℕ} {T A W : Type} [DecidableEq A]
    {cmp : T → T → Ordering} (L : Layout W cmp) {tr : List (ListAct n T A)} {s : ListSt n T A W}
    (hrun : run (ListSt.step L) ListSt.init tr = some s) {t : Fin n} {fresh : A}
    (hcall : (s.pc t).inCall = true) (hfresh : s.heap.node fresh = none) :
    ((s.step L (.resume t fresh)).isSome ↔ ¬ s.AtNull L t ∧ ¬ s.AtUnallocated t) ∧
    (EveryStep (ListSt.step L) ListSt.DeferCovered ListSt.init tr → ¬ s.AtUnallocated t) := by
  obtain ⟨l, h⟩ := AccessInv.run hrun
  refine ⟨⟨?_, ?_⟩, ?_⟩
  · intro hsome
    refine ⟨?_, ?_⟩
    · rintro ⟨value, head, node, hpc, -⟩
      simp [ListSt.step, ListSt.resume, ListSt.read, ListSt.deref, hpc] at hsome
    · rintro ⟨p, hpos, hnode⟩
      cases hpc : s.pc t with
      | compare op test prev current read =>
          cases op <;> rw [hpc] at hpos <;> cases hpos
          simp [ListSt.step, ListSt.resume, ListSt.read, hpc, hnode] at hsome
      | next op current =>
          cases op <;> rw [hpc] at hpos <;> cases hpos
          simp [ListSt.step, ListSt.resume, ListSt.read, hpc, hnode] at hsome
      | copy value current i =>
          rw [hpc] at hpos
          cases hpos
          simp [ListSt.step, ListSt.resume, hpc, hnode] at hsome
      | searchRoot op => cases op <;> rw [hpc] at hpos <;> cases hpos
      | _ =>
          rw [hpc] at hpos
          cases hpos
  · rintro ⟨hnull, hlive⟩
    cases hcrit : (s.pc t).critical with
    | true => exact (h.enabled_of_critical hcrit hfresh).resolve_right hnull
    | false => exact h.enabled_of_not_critical hcrit hcall hlive
  · intro hcovered
    have hall := run_invariant_of_everyStep
      (I := fun s : ListSt n T A W => (∃ l, ListInv L s l) ∧ ReachInv s)
      (fun s a s' hboth hok hstep => by
        obtain ⟨⟨l, hinv⟩, hreach⟩ := hboth
        obtain ⟨l', hinv'⟩ := hinv.step hstep
        exact ⟨⟨l', hinv'⟩, hreach.step hinv hinv' hok hstep⟩)
      ⟨⟨[], .init⟩, .init⟩ hcovered hrun
    exact hall.2.not_atUnallocated

/-- Thread `1` holds node `7` while thread `0` unlinks and defers it. -/
theorem optimisticSortedList_faults_deferred :
    ∃ s : ListSt 2 ℕ ℕ ℕ,
      run (ListSt.step digits) ListSt.init
        (.call 0 (.insert 412) :: resumes 0 8 7 ++ .call 1 (.lookUp 412 0) :: resumes 1 4 0 ++
          .call 0 (.delete 412) :: resumes 0 15 0) = some s ∧
      s.pc 1 = .compare (.lookUp 412) .greater none 7 [] ∧
      ((s.step digits (.resume 1 0)).isSome ↔ ¬ s.AtNull digits 1 ∧ ¬ s.AtUnallocated 1) ∧
      ¬ s.AtUnallocated 1 := by
  let tr : List (ListAct 2 ℕ ℕ) :=
    .call 0 (.insert 412) :: resumes 0 8 7 ++ .call 1 (.lookUp 412 0) :: resumes 1 4 0 ++
      .call 0 (.delete 412) :: resumes 0 15 0
  have hall : (run (ListSt.step digits) (ListSt.init : ListSt 2 ℕ ℕ ℕ) tr).map
      (fun s => (s.pc 1, s.heap.node 0)) =
        some (.compare (.lookUp 412) .greater none 7 [], none) := by
    decide +kernel
  have hslots : EveryStep (ListSt.step digits) ListSt.SlotsCovered
      (ListSt.init : ListSt 2 ℕ ℕ ℕ) tr := by decide +kernel
  obtain ⟨s, hrun, hs⟩ := Option.map_eq_some_iff.mp hall
  obtain ⟨hpc, hfresh⟩ := Prod.mk.inj hs
  obtain ⟨hiff, hcovered⟩ := optimisticSortedList_faults digits hrun (t := 1)
    (by rw [hpc]; rfl) hfresh
  exact ⟨s, hrun, hpc, hiff,
    hcovered (hslots.imp fun _ _ => ListSt.SlotsCovered.deferCovered)⟩

end OptLock
