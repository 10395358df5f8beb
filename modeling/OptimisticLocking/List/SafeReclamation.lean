import OptimisticLocking.List.ChainInvariant

/-!
# What a `LookUp` may still reach is not freed

`LookUp` publishes an epoch before it reads `root_`, and `Delete` leaves the unlinked node to
`FreeOutdatedPtr`.  But `Delete` has no `EpochGuard` of its own: the tag of the node is whatever
the slot of the deleting thread holds.  When that is below the epoch of a `LookUp` that can still
reach the node, nothing keeps the node any longer than that `LookUp`.

* `ListSt.Reaches` — the nodes that an attempt of `LookUp` holds or can come to.
* `ListSt.Safe` — no step frees such a node.
* `DeferCovered` — the condition: no `LookUp` that reaches the deferred node has published an
  epoch above the slot of the deleting thread.
* **`no_reader_exposed`**, and **`stale_slot_exposes_reader`** where the condition fails.
-/

namespace OptLock

open LinkedList OrderedList HybridLock Transition

/-! ## What an attempt can reach -/

section position

variable {T A W : Type}

/-- `LookUp` only: the writers search under the lock. -/
def Searcher.pointer (p : Option A) : Searcher T → Option A
  | .lookUp _ => p
  | .writer _ => none

/-- The pointer from which an attempt inside its guards goes on. -/
def ListPc.position (root : Option A) : ListPc T A W → Option A
  | .optimisticLock _ => root
  | .searchRoot op => op.pointer root
  | .compare op _ _ current _ | .next op current => op.pointer (some current)
  | .copy _ current _ => some current
  | _ => none

/-- In `Delete`, in front of `DeferFreePointer`. -/
def ListPc.defers : ListPc T A W → Bool
  | .deferFreePointer _ => true
  | _ => false

/-- The pointer is `root_`, or a pointer that the thread holds. -/
lemma position_cases (pc : ListPc T A W) :
    (∀ root, pc.position root = root) ∨ ∃ q, ∀ root, pc.position root = q := by
  cases pc with
  | optimisticLock => exact .inl fun _ => rfl
  | searchRoot op =>
      cases op with
      | lookUp => exact .inl fun _ => rfl
      | writer => exact .inr ⟨none, fun _ => rfl⟩
  | _ => exact .inr ⟨_, fun _ => rfl⟩

variable {cmp : T → T → Ordering} (L : Layout W cmp) (op : Searcher T) (test : LoopTest)
  (prev root : Option A) (current : A) (read : List W)

lemma position_notFound : (op.notFound prev : ListPc T A W).position root = none := by
  rcases op with v | (v | v) <;> rfl

lemma position_found :
    (op.found prev current : ListPc T A W).position root = op.pointer (some current) := by
  rcases op with v | (v | v) <;> rfl

lemma position_loop (p : Option A) :
    (op.loop prev p : ListPc T A W).position root = op.pointer p := by
  cases p with
  | none =>
      rw [Searcher.loop, position_notFound]
      cases op <;> rfl
  | some current => rfl

lemma position_tested (o : Ordering) :
    (op.tested prev current o test : ListPc T A W).position root = none ∨
      (op.tested prev current o test : ListPc T A W).position root
        = op.pointer (some current) := by
  cases test with
  | greater =>
      rw [Searcher.tested]
      split_ifs
      · exact .inl (position_notFound op prev root)
      · exact .inr rfl
  | equal =>
      rw [Searcher.tested]
      split_ifs
      · exact .inr (position_found op prev root current)
      · exact .inr rfl

lemma position_compared :
    (L.compared op test prev current read).position root = none ∨
      (L.compared op test prev current read).position root = op.pointer (some current) := by
  rw [Layout.compared]
  split_ifs
  · exact .inr rfl
  · exact position_tested op test prev root current _

lemma position_headCompared (value : T) :
    (L.headCompared value current read).position root = none := by
  rw [Layout.headCompared]
  split_ifs <;> rfl

end position

namespace ListSt

variable {n : ℕ} {T A W : Type}

/-- `r` is in an attempt of `LookUp`, inside its guards, and holds a pointer to `p` or can come to
it by following next pointers. -/
def Reaches (s : ListSt n T A W) (r : Fin n) (p : A) : Prop :=
  Heap.Leads s.heap.node ((s.pc r).position s.heap.root) p

/-- From `s` to `s'`, the node at `p` was freed. -/
def Frees (s s' : ListSt n T A W) (p : A) : Prop :=
  (s.heap.node p).isSome ∧ s'.heap.node p = none

variable [DecidableEq A] {cmp : T → T → Ordering}

/-- No step frees a node that a `LookUp` reaches. -/
def Safe (L : Layout W cmp) (s : ListSt n T A W) : Prop :=
  ∀ a s' p, s.step L a = some s' → s.Frees s' p → ∀ r, ¬ s.Reaches r p

/-- The tag that a deferral takes covers every `LookUp` that reaches the node. -/
def DeferCovered (s : ListSt n T A W) : ListAct n T A → Prop
  | .resume t _ => ∀ p, s.pc t = .deferFreePointer p → ∀ r, s.Reaches r p →
      s.handler.localEpoch r ≤ s.handler.localEpoch t
  | _ => True

/-- A condition on the slots that is enough: no attempt inside its guards has published an epoch
above the slot of the deleting thread. -/
def SlotsCovered (s : ListSt n T A W) : ListAct n T A → Prop
  | .resume t _ => (s.pc t).defers = true → ∀ r, ((s.pc r).position s.heap.root).isSome →
      s.handler.localEpoch r ≤ s.handler.localEpoch t
  | _ => True

instance (s : ListSt n T A W) : (a : ListAct n T A) → Decidable (s.SlotsCovered a)
  | .resume t _ =>
      inferInstanceAs (Decidable ((s.pc t).defers = true →
        ∀ r, ((s.pc r).position s.heap.root).isSome →
          s.handler.localEpoch r ≤ s.handler.localEpoch t))
  | .call _ _ | .freeOutdatedPtr _ | .advanceGlobalEpoch => .isTrue trivial

omit [DecidableEq A] in
lemma SlotsCovered.deferCovered {s : ListSt n T A W} {a : ListAct n T A} (h : s.SlotsCovered a) :
    s.DeferCovered a := by
  cases a with
  | resume t fresh =>
      intro p hpc r hreach
      exact h (by rw [hpc]; rfl) r hreach.isSome
  | _ => trivial

end ListSt

section steps

variable {n : ℕ} {T A W : Type} {cmp : T → T → Ordering} {L : Layout W cmp}
  {s s' : ListSt n T A W} {l l' : List (A × List W)} {t r : Fin n} {p : A}

/-- A read takes a thread nowhere that it could not come to. -/
lemma ReadEffect.leads {pc : ListPc T A W} (h : ReadEffect L s t pc)
    (hl : Heap.Leads s.heap.node (pc.position s.heap.root) p) : s.Reaches t p := by
  cases h with
  | headCompare value current read hpc =>
      rw [position_headCompared] at hl
      cases hl
  | searchRoot op hpc =>
      rw [position_loop] at hl
      rw [ListSt.Reaches, hpc]
      exact hl
  | compare op test prev current read hpc =>
      rw [ListSt.Reaches, hpc]
      rcases position_compared L op test prev s.heap.root current (read ++ [_]) with hpos | hpos
      · rw [hpos] at hl
        cases hl
      · rw [hpos] at hl
        exact hl
  | next op current hpc node hnode =>
      rw [position_loop] at hl
      rw [ListSt.Reaches, hpc]
      cases op with
      | lookUp value => exact .next hnode hl
      | writer w => cases hl
  | _ => cases hl

variable [DecidableEq A] {a : ListAct n T A}

/-- Outside of the chain, a step adds nothing to what a pointer leads to. -/
lemma leads_old (h : ListInv L s l) (h' : ListInv L s' l') (hstep : s.step L a = some s')
    (hp : p ∉ l'.map Prod.fst) {q : Option A}
    (hq : ∀ b, Heap.Leads s.heap.node q b → (s.heap.node b).isSome)
    (hl : Heap.Leads s'.heap.node q p) : Heap.Leads s.heap.node q p := by
  cases ListSt.step_effect hstep with
  | call t c => cases c <;> exact hl
  | newNode t fresh value dst next halloc hfresh =>
      refine hl.of_alloc ?_
      intro hb
      have hsome := hq fresh hb
      rw [hfresh] at hsome
      cases hsome
  | overwrite => exact hl.of_setValue
  | linkNew t fresh dst target hpc =>
      obtain ⟨l₁, c, l₂, -, rfl, h''⟩ := h.linkNew hpc
      obtain rfl := h'.chain.unique h''.chain
      rcases hl.of_link with hl | hl
      · exact hl
      · have hmem := h''.chain.tail.mem_of_leads hl
        rw [List.map_append] at hp
        exact absurd (List.mem_append_right _ hmem) hp
  | linkPast t fresh dst target victim hpc =>
      obtain ⟨l₁, w, l₂, -, rfl, h''⟩ := h.linkPast hpc
      obtain rfl := h'.chain.unique h''.chain
      rcases hl.of_link with hl | hl
      · exact hl
      · have hmem := h''.chain.tail.mem_of_leads hl
        rw [List.map_append] at hp
        exact absurd (List.mem_append_right _ hmem) hp
  | free => exact hl.of_free
  | _ => exact hl

/-- Outside of the chain, an attempt comes to nothing that it could not come to before. -/
lemma reaches_old (h : ListInv L s l) (h' : ListInv L s' l') (hstep : s.step L a = some s')
    (hp : p ∉ l'.map Prod.fst) (halloc : ∀ b, s.Reaches r b → (s.heap.node b).isSome)
    (hreach : s'.Reaches r p) : s.Reaches r p := by
  -- what `root_` leads to is the chain
  have hroot : ¬ Heap.Leads s'.heap.node s'.heap.root p :=
    fun hl => hp (Heap.Seg.mem_of_leads h'.chain hl)
  by_cases hr : a.thread = some r
  · rw [ListSt.Reaches] at hreach
    cases ListSt.step_effect hstep with
    | call t c =>
        obtain rfl : t = r := Option.some.inj hr
        cases c <;> simp only [ListSt.call, ListSt.setPc_pc, Function.update_self] at hreach <;>
          cases hreach
    | advanceGlobalEpoch => cases hr
    | read t fresh pc hread =>
        obtain rfl : t = r := Option.some.inj hr
        rw [ListSt.setPc_pc, Function.update_self] at hreach
        exact hread.leads hreach
    | lockAcquired t fresh w =>
        obtain rfl : t = r := Option.some.inj hr
        simp only [ListSt.setPc_pc, Function.update_self] at hreach
        cases w <;> cases hreach
    | overwrite t | unlocking t =>
        obtain rfl : t = r := Option.some.inj hr
        simp only [ListSt.setPc_pc, Function.update_self] at hreach
        split_ifs at hreach <;> cases hreach
    | publish t =>
        obtain rfl : t = r := Option.some.inj hr
        simp only [ListSt.setPc_pc, Function.update_self] at hreach
        exact absurd hreach hroot
    | optimisticLock t =>
        obtain rfl : t = r := Option.some.inj hr
        simp only [ListSt.setPc_pc, Function.update_self] at hreach
        split_ifs at hreach <;> exact absurd hreach hroot
    | copy t fresh value current i hpc =>
        obtain rfl : t = r := Option.some.inj hr
        simp only [ListSt.setPc_pc, Function.update_self] at hreach
        rw [ListSt.Reaches, hpc]
        split_ifs at hreach
        · exact hreach
        · cases hreach
    | leave t fresh value ret =>
        obtain rfl : t = r := Option.some.inj hr
        simp only [ListSt.setPc_pc, Function.update_self] at hreach
        cases ret <;> cases hreach
    | freeOutdatedPtr t | lockRefused t | newNode t | linkNew t | linkPast t | deferFreePointer t
    | unlockCall t | free t | erased t =>
        obtain rfl : t = r := Option.some.inj hr
        simp only [ListSt.setPc_pc, Function.update_self] at hreach
        cases hreach
  · obtain ⟨hpc, -⟩ := ListSt.step_frame hstep hr
    rw [ListSt.Reaches, hpc] at hreach
    rcases position_cases (s.pc r) with hpos | ⟨q, hpos⟩
    · rw [hpos] at hreach
      exact absurd hreach hroot
    · rw [hpos] at hreach
      refine leads_old h h' hstep hp ?_ ?_
      · exact halloc
      · rw [hpos]
        exact hreach

/-- An attempt that reaches a node keeps the epoch it has published. -/
lemma localEpoch_of_reaches (hstep : s.step L a = some s') (hreach : s.Reaches r p) :
    s'.handler.localEpoch r = s.handler.localEpoch r := by
  by_cases hr : a.thread = some r
  · cases ListSt.step_effect hstep with
    | call t c => cases c <;> rfl
    | publish t fresh value epoch hpc | leave t fresh value ret hpc =>
        obtain rfl : t = r := Option.some.inj hr
        rw [ListSt.Reaches, hpc] at hreach
        cases hreach
    | _ => rfl
  · exact (ListSt.step_frame hstep hr).2.2.2.1

omit [DecidableEq A] in
/-- An entry that `t` still has after a step from one access to the next, it had before. -/
lemma mem_waiting_of_pc {pc pc' : ListPc T A W} (hpc : s.pc t = pc) (hpc' : s'.pc t = pc')
    {e : ToFreePointer A} (he : e ∈ s'.waiting t)
    (hsub : e ∈ pc'.waiting (s'.handler.toFreePtr t) → e ∈ pc.waiting (s.handler.toFreePtr t)) :
    e ∈ s.waiting t := by
  rw [ListSt.waiting, hpc'] at he
  rw [ListSt.waiting, hpc]
  exact hsub he

/-- Where the entries of the limbo lists come from. -/
lemma waiting_step (hstep : s.step L a = some s') {e : ToFreePointer A} (he : e ∈ s'.waiting t) :
    e ∈ s.waiting t ∨ ∃ fresh, a = .resume t fresh ∧ s.pc t = .deferFreePointer e.ptr ∧
      e.epoch = s.handler.localEpoch t := by
  by_cases ht : a.thread = some t
  · cases ListSt.step_effect hstep with
    | advanceGlobalEpoch => cases ht
    | call u c ret hpc =>
        obtain rfl : u = t := Option.some.inj ht
        left
        cases c <;>
          · refine mem_waiting_of_pc hpc (Function.update_self ..) he ?_
            exact id
    | read u fresh pc hread =>
        obtain rfl : u = t := Option.some.inj ht
        refine .inl (mem_waiting_of_pc rfl (Function.update_self ..) he ?_)
        rw [hread.sameRole.waiting]
        exact id
    | newNode u fresh value dst next halloc =>
        obtain rfl : u = t := Option.some.inj ht
        cases halloc with
        | head hpc | inner _ _ hpc =>
            refine .inl (mem_waiting_of_pc hpc (Function.update_self ..) he ?_)
            exact id
    | lockAcquired u fresh w old hpc =>
        obtain rfl : u = t := Option.some.inj ht
        refine .inl (mem_waiting_of_pc hpc (Function.update_self ..) he ?_)
        rw [waiting_start]
        exact id
    | deferFreePointer u fresh current hpc =>
        obtain rfl : u = t := Option.some.inj ht
        have hmem : e ∈ s.handler.toFreePtr u ∨ e = ⟨current, s.handler.localEpoch u⟩ := by
          simpa [ListSt.waiting, ListPc.waiting, EpochHandler.deferFreePointer] using he
        rcases hmem with hmem | rfl
        · left
          rw [ListSt.waiting, hpc]
          exact hmem
        · exact .inr ⟨fresh, rfl, hpc, rfl⟩
    | free u fresh m idx hpc =>
        obtain rfl : u = t := Option.some.inj ht
        refine .inl (mem_waiting_of_pc hpc (Function.update_self ..) he ?_)
        intro hmem
        rw [ListPc.waiting, ← List.drop_drop] at hmem
        exact List.mem_of_mem_drop hmem
    | erased u fresh m idx hpc =>
        obtain rfl : u = t := Option.some.inj ht
        refine .inl (mem_waiting_of_pc hpc (Function.update_self ..) he ?_)
        intro hmem
        simpa [EpochHandler.erasePrefix, ListPc.waiting] using hmem
    | leave u fresh value ret hpc =>
        obtain rfl : u = t := Option.some.inj ht
        refine .inl (mem_waiting_of_pc hpc (Function.update_self ..) he ?_)
        cases ret <;> exact id
    | overwrite u _ _ _ _ hpc | unlocking u _ _ hpc | optimisticLock u _ _ hpc
    | copy u _ _ _ _ hpc =>
        obtain rfl : u = t := Option.some.inj ht
        refine .inl (mem_waiting_of_pc hpc (Function.update_self ..) he ?_)
        split_ifs <;> exact id
    | freeOutdatedPtr u _ hpc | lockRefused u _ _ _ hpc | linkNew u _ _ _ hpc
    | linkPast u _ _ _ _ hpc | unlockCall u _ _ hpc | publish u _ _ _ hpc =>
        obtain rfl : u = t := Option.some.inj ht
        refine .inl (mem_waiting_of_pc hpc (Function.update_self ..) he ?_)
        exact id
  · obtain ⟨hpc, -, -, -, hlist⟩ := ListSt.step_frame hstep ht
    rw [ListSt.waiting, hpc, hlist] at he
    exact .inl he

/-- Only the freeing loop frees, and only what is outdated. -/
lemma frees_cases (hstep : s.step L a = some s') (hfrees : s.Frees s' p) :
    ∃ t m idx e, s.pc t = .freeing m idx ∧ (s.handler.toFreePtr t)[idx]? = some e ∧
      e.epoch < m ∧ e.ptr = p := by
  obtain ⟨hsome, hnone⟩ := hfrees
  have hkept : (s'.heap.node p).isSome = (s.heap.node p).isSome → False := by
    rw [hsome, hnone]
    exact nofun
  cases ListSt.step_effect hstep with
  | call t c => cases c <;> exact (hkept rfl).elim
  | newNode t fresh value dst next halloc hfresh =>
      have hne : p ≠ fresh := by
        rintro rfl
        rw [hfresh] at hsome
        cases hsome
      exact (hkept (by simp [hne])).elim
  | overwrite => exact (hkept (s.heap.setValue_isSome ..)).elim
  | linkNew | linkPast => exact (hkept (s.heap.link_isSome ..)).elim
  | free t fresh m idx hpc e he hold =>
      refine ⟨t, m, idx, e, hpc, he, hold, ?_⟩
      by_contra hne
      exact hkept (by simp [Ne.symm hne])
  | _ => exact (hkept rfl).elim

end steps

/-! ## The invariant -/

/-- What a thread inside `FreeOutdatedPtr` knows of those that reach its own entries. -/
def ListSt.ReclaimOk {n : ℕ} {T A W : Type} (s : ListSt n T A W) (t : Fin n) :
    ListPc T A W → Prop
  | .scanning i m => ∀ e ∈ s.waiting t, ∀ r, s.Reaches r e.ptr → r.val < i →
      m ≤ s.handler.localEpoch r
  | .freeing m _ => ∀ e ∈ s.waiting t, ∀ r, s.Reaches r e.ptr → m ≤ s.handler.localEpoch r
  | _ => True

structure ReachInv {n : ℕ} {T A W : Type} (s : ListSt n T A W) : Prop where
  allocated : ∀ r p, s.Reaches r p → (s.heap.node p).isSome
  tag : ∀ t, ∀ e ∈ s.waiting t, ∀ r, s.Reaches r e.ptr → s.handler.localEpoch r ≤ e.epoch
  reclaim : ∀ t, s.ReclaimOk t (s.pc t)

namespace ReachInv

variable {n : ℕ} {T A W : Type} {cmp : T → T → Ordering} {L : Layout W cmp}
  {s s' : ListSt n T A W} {l l' : List (A × List W)} {t r : Fin n}

lemma init : ReachInv (ListSt.init : ListSt n T A W) where
  allocated := by
    intro r p hreach
    cases hreach
  tag := by
    intro t e he
    cases he
  reclaim := fun _ => trivial

lemma reclaimOk_of_not {pc : ListPc T A W} (h : pc.reclaiming = false) : s.ReclaimOk t pc := by
  cases pc with
  | scanning | freeing => cases h
  | _ => trivial

lemma mem_waiting {m idx : ℕ} (hpc : s.pc t = .freeing m idx) {e : ToFreePointer A}
    (he : (s.handler.toFreePtr t)[idx]? = some e) : e ∈ s.waiting t := by
  obtain ⟨hlt, rfl⟩ := List.getElem?_eq_some_iff.mp he
  rw [ListSt.waiting, hpc, ListPc.waiting, List.drop_eq_getElem_cons hlt]
  exact List.mem_cons_self

variable [DecidableEq A] {a : ListAct n T A}

/-- Nothing is freed that an attempt reaches. -/
theorem safe (h : ReachInv s) : s.Safe L := by
  intro a s' p hstep hfrees r hreach
  obtain ⟨t, m, idx, e, hpc, he, hold, rfl⟩ := frees_cases hstep hfrees
  have hmem := mem_waiting hpc he
  have hreclaim := h.reclaim t
  rw [hpc] at hreclaim
  have hmin : m ≤ s.handler.localEpoch r := hreclaim e hmem r hreach
  have htag := h.tag t e hmem r hreach
  omega

/-- An attempt that reaches an entry of a limbo list did so before. -/
lemma reaches_waiting (h : ReachInv s) (hinv : ListInv L s l) (h' : ListInv L s' l')
    (hstep : s.step L a = some s') {e : ToFreePointer A} (he : e ∈ s'.waiting t)
    (hreach : s'.Reaches r e.ptr) :
    s.Reaches r e.ptr ∧ s'.handler.localEpoch r = s.handler.localEpoch r := by
  have hheld : e.ptr ∈ s'.held t := List.mem_append_right _ (List.mem_map_of_mem he)
  have hold := reaches_old hinv h' hstep (h'.accounts.notMem_chain hheld) (h.allocated r) hreach
  exact ⟨hold, localEpoch_of_reaches hstep hold⟩

lemma step_allocated (h : ReachInv s) (hinv : ListInv L s l) (h' : ListInv L s' l')
    (hstep : s.step L a = some s') {p : A} (hreach : s'.Reaches r p) :
    (s'.heap.node p).isSome := by
  by_cases hp : p ∈ l'.map Prod.fst
  · obtain ⟨node, hnode⟩ := Heap.Seg.exists_of_mem h'.chain hp
    rw [hnode]
    rfl
  · have hold := reaches_old hinv h' hstep hp (h.allocated r) hreach
    -- it was allocated, and it was not freed
    by_contra hnone
    rw [Option.not_isSome_iff_eq_none] at hnone
    exact h.safe a s' p hstep ⟨h.allocated r p hold, hnone⟩ r hold

lemma step_tag (h : ReachInv s) (hinv : ListInv L s l) (h' : ListInv L s' l')
    (hcovered : s.DeferCovered a) (hstep : s.step L a = some s') {e : ToFreePointer A}
    (he : e ∈ s'.waiting t) (hreach : s'.Reaches r e.ptr) :
    s'.handler.localEpoch r ≤ e.epoch := by
  obtain ⟨hold, hepoch⟩ := h.reaches_waiting hinv h' hstep he hreach
  rw [hepoch]
  rcases waiting_step hstep he with hmem | ⟨fresh, rfl, hpc, htag⟩
  · exact h.tag t e hmem r hold
  · rw [htag]
    exact hcovered e.ptr hpc r hold

/-- What a thread inside `FreeOutdatedPtr` knows survives the steps that leave it there. -/
lemma step_reclaim (h : ReachInv s) (hinv : ListInv L s l) (h' : ListInv L s' l')
    (hstep : s.step L a = some s') (hrec : (s.pc t).reclaiming = true) {e : ToFreePointer A}
    (he : e ∈ s'.waiting t) (hreach : s'.Reaches r e.ptr) :
    e ∈ s.waiting t ∧ s.Reaches r e.ptr ∧
      s'.handler.localEpoch r = s.handler.localEpoch r := by
  refine ⟨?_, h.reaches_waiting hinv h' hstep he hreach⟩
  rcases waiting_step hstep he with hmem | ⟨fresh, -, hpc, -⟩
  · exact hmem
  · rw [hpc] at hrec
    cases hrec

lemma step_reclaimOk (h : ReachInv s) (hinv : ListInv L s l) (h' : ListInv L s' l')
    (hstep : s.step L a = some s') : s'.ReclaimOk t (s'.pc t) := by
  have hkept : (s.pc t).reclaiming = true → ∀ e ∈ s'.waiting t, ∀ r, s'.Reaches r e.ptr →
      e ∈ s.waiting t ∧ s.Reaches r e.ptr ∧
        s'.handler.localEpoch r = s.handler.localEpoch r :=
    fun hrec e he r hreach => h.step_reclaim hinv h' hstep hrec he hreach
  have hok := h.reclaim t
  by_cases ht : a.thread = some t
  · by_cases hrec : (s'.pc t).reclaiming = true
    · cases ListSt.reclaim_effect hstep ht hrec with
      | call ret hpc =>
          rw [ListSt.setPc_pc, Function.update_self]
          intro e he r hreach hlt
          exact absurd hlt (Nat.not_lt_zero _)
      | scan i m hpc hi =>
          rw [hpc] at hok hkept
          rw [ListSt.setPc_pc, Function.update_self]
          intro e he r hreach hlt
          obtain ⟨hmem, hold, hepoch⟩ := hkept rfl e he r hreach
          rw [hepoch]
          rcases Nat.lt_succ_iff_lt_or_eq.mp hlt with hlt | heq
          · exact (Nat.min_le_left _ _).trans (hok e hmem r hold hlt)
          · obtain rfl : r = ⟨i, hi⟩ := Fin.ext heq
            exact Nat.min_le_right _ _
      | scanned i m hpc hi =>
          rw [hpc] at hok hkept
          rw [ListSt.setPc_pc, Function.update_self]
          intro e he r hreach
          obtain ⟨hmem, hold, hepoch⟩ := hkept rfl e he r hreach
          rw [hepoch]
          exact hok e hmem r hold (by omega)
      | free m idx hpc e₀ he₀ hold =>
          rw [hpc] at hok hkept
          simp only [ListSt.setPc_pc, Function.update_self]
          intro e he r hreach
          obtain ⟨hmem, hreach, hepoch⟩ := hkept rfl e he r hreach
          exact hok e hmem r hreach
    · exact reclaimOk_of_not (Bool.eq_false_of_not_eq_true hrec)
  · rw [(ListSt.step_frame hstep ht).1]
    cases hpc : s.pc t with
    | scanning i m =>
        rw [hpc] at hok hkept
        intro e he r hreach hlt
        obtain ⟨hmem, hreach, hepoch⟩ := hkept rfl e he r hreach
        rw [hepoch]
        exact hok e hmem r hreach hlt
    | freeing m idx =>
        rw [hpc] at hok hkept
        intro e he r hreach
        obtain ⟨hmem, hreach, hepoch⟩ := hkept rfl e he r hreach
        rw [hepoch]
        exact hok e hmem r hreach
    | _ => trivial

/-- **The step lemma.** -/
theorem step (h : ReachInv s) (hinv : ListInv L s l) (h' : ListInv L s' l')
    (hcovered : s.DeferCovered a) (hstep : s.step L a = some s') : ReachInv s' where
  allocated := fun _ _ => h.step_allocated hinv h' hstep
  tag := fun _ _ he _ => h.step_tag hinv h' hcovered hstep he
  reclaim := fun _ => h.step_reclaimOk hinv h' hstep

end ReachInv

/-! ## The list never exposes a reader when the tags cover the readers -/

/-- **Safe reclamation.**  Any number of threads run `Insert`, `Delete`, `LookUp`, and
`FreeOutdatedPtr` on one list, in any interleaving.  When each deferral finds no attempt of
`LookUp` that reaches the node and has published an epoch above the slot of the deleting thread,
no node is freed while such an attempt holds a pointer to it or can still come to it. -/
theorem no_reader_exposed {n : ℕ} {T A W : Type} [DecidableEq A] {cmp : T → T → Ordering}
    (L : Layout W cmp) {tr : List (ListAct n T A)} {s : ListSt n T A W}
    (hcovered : EveryStep (ListSt.step L) ListSt.DeferCovered ListSt.init tr)
    (hrun : run (ListSt.step L) ListSt.init tr = some s) : s.Safe L := by
  have hall := run_invariant_of_everyStep
    (I := fun s : ListSt n T A W => (∃ l, ListInv L s l) ∧ ReachInv s)
    (fun s a s' ⟨⟨l, hinv⟩, h⟩ hok hstep => by
      obtain ⟨l', h'⟩ := hinv.step hstep
      exact ⟨⟨l', h'⟩, h.step hinv h' hok hstep⟩)
    ⟨⟨[], .init⟩, .init⟩ hcovered hrun
  exact hall.2.safe

/-- Thread `0` unlinks and defers node `7` while thread `1` holds it, both in epoch 0, and frees it
after thread `1` has returned. -/
theorem no_reader_exposed_same_epoch :
    ∃ (tr : List (ListAct 2 ℕ ℕ)) (s : ListSt 2 ℕ ℕ ℕ),
      run (ListSt.step digits) ListSt.init tr = some s ∧ s.heap.node 7 = none ∧
        s.Safe digits := by
  let tr : List (ListAct 2 ℕ ℕ) :=
    .call 0 (.insert 412) :: resumes 0 8 7 ++ .call 1 (.lookUp 412 0) :: resumes 1 4 0 ++
      .call 0 (.delete 412) :: resumes 0 15 0 ++ resumes 1 17 0 ++
      .call 0 (.lookUp 412 0) :: resumes 0 6 0 ++ .freeOutdatedPtr 0 :: resumes 0 5 0
  have hall : (run (ListSt.step digits) (ListSt.init : ListSt 2 ℕ ℕ ℕ) tr).map
      (fun s => s.heap.node 7) = some none := by decide +kernel
  have hslots : EveryStep (ListSt.step digits) ListSt.SlotsCovered
      (ListSt.init : ListSt 2 ℕ ℕ ℕ) tr := by decide +kernel
  obtain ⟨s, hrun, hfreed⟩ := Option.map_eq_some_iff.mp hall
  exact ⟨tr, s, hrun, hfreed,
    no_reader_exposed digits (hslots.imp fun _ _ => ListSt.SlotsCovered.deferCovered) hrun⟩

/-- The epoch advances, and thread `1` looks up 412 in epoch 1 and holds its node.  The slot of
thread `0` has never been used: its `Delete` defers the node with the tag 0.  A `LookUp` of its own
sets the slot to `MAX_VALUE`, and `FreeOutdatedPtr` finds the minimum 1 and frees the node. -/
theorem stale_slot_exposes_reader :
    ∃ (tr : List (ListAct 2 ℕ ℕ)) (s s' : ListSt 2 ℕ ℕ ℕ) (a : ListAct 2 ℕ ℕ),
      run (ListSt.step digits) ListSt.init tr = some s ∧ s.step digits a = some s' ∧
        s.pc 1 = .compare (.lookUp 412) .greater none 7 [] ∧ s.Reaches 1 7 ∧ s.Frees s' 7 := by
  let tr : List (ListAct 2 ℕ ℕ) :=
    .call 0 (.insert 412) :: resumes 0 8 7 ++
      .advanceGlobalEpoch :: .call 1 (.lookUp 412 0) :: resumes 1 4 0 ++
      .call 0 (.delete 412) :: resumes 0 15 0 ++ .call 0 (.lookUp 412 0) :: resumes 0 6 0 ++
      .freeOutdatedPtr 0 :: resumes 0 3 0
  have hbefore : (run (ListSt.step digits) (ListSt.init : ListSt 2 ℕ ℕ ℕ) tr).map
      (fun s => (s.pc 1, s.heap.node 7)) =
        some (.compare (.lookUp 412) .greater none 7 [], some ⟨[4, 1, 2], none⟩) := by
    decide +kernel
  have hafter : (run (ListSt.step digits) (ListSt.init : ListSt 2 ℕ ℕ ℕ)
      (tr ++ [.resume 0 0])).map (fun s => s.heap.node 7) = some none := by decide +kernel
  obtain ⟨s, hrun, hs⟩ := Option.map_eq_some_iff.mp hbefore
  obtain ⟨hpc, hnode⟩ := Prod.mk.inj hs
  obtain ⟨s', hrun', hfreed⟩ := Option.map_eq_some_iff.mp hafter
  obtain ⟨m, hm, hstep⟩ := run_snoc_eq_some.mp hrun'
  obtain rfl : s = m := Option.some.inj (hrun.symm.trans hm)
  refine ⟨tr, s, s', _, hrun, hstep, hpc, ?_, ?_, hfreed⟩
  · rw [ListSt.Reaches, hpc]
    exact .here 7
  · rw [hnode]
    rfl

end OptLock
