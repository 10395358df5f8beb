import Mathlib.Algebra.Order.BigOperators.Group.Finset
import OptimisticLocking.List.MutexAtomicMap

/-!
# Calls to `MutexSortedList` are completed

A thread that waits for the mutex takes no step, and a thread that has it takes boundedly many.  So
the calls that are in progress cannot go on for ever, however their accesses are interleaved; and as
long as one is in progress, some thread has a step, unless an `Insert` has stopped at the null
pointer.

* `ListPc.work` — an upper bound for the accesses that are left of the body.
* `MutexSt.potential` — the same for all threads together; `MutexInv.potential_lt` — every access
  lowers it.
* `MutexInv.exists_step` — no deadlock.
* **`mutexSortedList_completes`** — both together.
-/

namespace OptLock

open LinkedList OrderedList HybridLock Transition AtomicObject

/-! ## The accesses that are left -/

section work

variable {T A W : Type} [DecidableEq A] {cmp : T → T → Ordering} (L : Layout W cmp)

/-- The number of cells behind the node `current`. -/
def cellsBehind (l : List (A × List W)) (current : A) : ℕ :=
  (l.dropWhile fun c => c.1 ≠ current).length - 1

/-- The accesses to one node in the search loop. -/
def Layout.perNode : ℕ := 2 * L.size + 1

/-- More than the accesses behind the search loop. -/
def Layout.afterSearch : ℕ := L.size + 3

/-- An upper bound for the accesses of the body from here on, when the chain is `l`. -/
@[simp]
def ListPc.work (l : List (A × List W)) : ListPc T A W → ℕ
  | .headTest _ => l.length * L.perNode + L.afterSearch + L.size + 3
  | .headNode _ => l.length * L.perNode + L.afterSearch + L.size + 2
  | .headCompare _ _ read => l.length * L.perNode + L.afterSearch + 1 + (L.size - read.length)
  | .searchRoot _ => l.length * L.perNode + L.afterSearch + 1
  | .compare _ .greater _ current read =>
      cellsBehind l current * L.perNode + L.afterSearch + (L.perNode - read.length)
  | .compare _ .equal _ current read =>
      cellsBehind l current * L.perNode + L.afterSearch + (L.size + 1 - read.length)
  | .next _ current => cellsBehind l current * L.perNode + L.afterSearch + 1
  | .assertNext _ _ => L.size + 2
  | .overwriteNode _ _ => L.size + 1
  | .overwrite _ _ i | .copy _ _ i => L.size - i
  | .newHead _ | .splice _ _ | .unlink _ _ => 2
  | .link _ _ _ => 1
  | _ => 0

def Searcher.inserts : Searcher T → Bool
  | .writer (.insert _) => true
  | _ => false

/-- A value is on its way into the list. -/
def ListPc.inserting : ListPc T A W → Bool
  | .headTest _ | .headNode _ | .headCompare _ _ _ | .newHead _ | .assertNext _ _
  | .overwriteNode _ _ | .overwrite _ _ _ | .splice _ _ | .link _ _ none => true
  | .searchRoot op | .compare op _ _ _ _ | .next op _ => op.inserts
  | _ => false

def MutexPc.inserting : MutexPc T A W → Bool
  | .lock (.insert _) => true
  | .inside pc => pc.inserting
  | _ => false

/-- An upper bound for the accesses of a call from here on, when the chain is `l` and has at most
`most` cells when the thread gets the mutex. -/
def MutexPc.cost (most : ℕ) (l : List (A × List W)) : MutexPc T A W → ℕ
  | .outside _ => 0
  | .lock _ | .lockShared _ => most * L.perNode + L.afterSearch + L.size + 6
  | .inside pc => pc.work L l + 2
  | .free _ => 2
  | .unlock _ | .unlockShared _ => 1

end work

/-- At most as many cells will the chain have, until the next call. -/
def MutexSt.most {n : ℕ} {T A W : Type} (s : MutexSt n T A W) (l : List (A × List W)) : ℕ :=
  l.length + ∑ t, (s.pc t).inserting.toNat

/-- An upper bound for the accesses of all calls in progress. -/
def MutexSt.potential {n : ℕ} {T A W : Type} [DecidableEq A] {cmp : T → T → Ordering}
    (L : Layout W cmp) (s : MutexSt n T A W) (l : List (A × List W)) : ℕ :=
  ∑ t, (s.pc t).cost L (s.most l) l

/-- Inside a call. -/
def MutexPc.inCall {T A W : Type} : MutexPc T A W → Bool
  | .outside _ => false
  | _ => true

/-- The action goes on with a call. -/
def MutexAct.continues {n : ℕ} {T A : Type} : MutexAct n T A → Bool
  | .call _ _ => false
  | .resume _ _ => true

/-- `Insert` is in front of the access through the null pointer. -/
def MutexSt.AtNull {n : ℕ} {T A W : Type} {cmp : T → T → Ordering} (L : Layout W cmp)
    (s : MutexSt n T A W) (t : Fin n) : Prop :=
  ∃ pc, s.pc t = .inside pc ∧ (s.body pc).AtNull L t

/-! ### Every access of the body leaves less -/

section work

variable {n : ℕ} {T A W : Type} [DecidableEq A] {cmp : T → T → Ordering} {L : Layout W cmp}
  {s : ListSt n T A W} {t : Fin n} {l l₁ l₂ : List (A × List W)} {pc : ListPc T A W}
  {op : Searcher T} {test : LoopTest} {prev : Option A} {current : A} {read w : List W}

lemma cellsBehind_eq (hnodup : ((l₁ ++ (current, w) :: l₂).map Prod.fst).Nodup) :
    cellsBehind (l₁ ++ (current, w) :: l₂) current = l₂.length := by
  have hout : ∀ c ∈ l₁, c.1 ≠ current := by
    rintro c hc rfl
    rw [List.map_append, List.map_cons] at hnodup
    exact (List.nodup_append.mp hnodup).2.2 c.1 (List.mem_map_of_mem hc) c.1 List.mem_cons_self rfl
  rw [cellsBehind, List.dropWhile_append_of_pos (by simpa using hout)]
  simp

lemma work_notFound_lt : (op.notFound prev : ListPc T A W).work L l < L.afterSearch := by
  rcases op with v | (v | v) <;> simp [Searcher.notFound, ListPc.work, Layout.afterSearch]

lemma work_found_lt : (op.found prev current : ListPc T A W).work L l < L.afterSearch := by
  rcases op with v | (v | v) <;> simp [Searcher.found, ListPc.work, Layout.afterSearch]

lemma work_loop_le (hnodup : (l.map Prod.fst).Nodup) (hl : l = l₁ ++ l₂) :
    (op.loop prev (firstAddr l₂) : ListPc T A W).work L l
      ≤ l₂.length * L.perNode + L.afterSearch := by
  cases l₂ with
  | nil => exact (work_notFound_lt.le).trans (Nat.le_add_left _ _)
  | cons c l₂ =>
      subst hl
      have hbehind := cellsBehind_eq hnodup
      show cellsBehind (l₁ ++ (c.1, c.2) :: l₂) c.1 * L.perNode + L.afterSearch + (L.perNode - 0)
        ≤ _
      rw [hbehind, List.length_cons, Nat.succ_mul]
      omega

lemma work_compared_lt (hmore : read.length < L.size) (word : W) :
    (L.compared op test prev current (read ++ [word])).work L l
      < (ListPc.compare op test prev current read : ListPc T A W).work L l := by
  have hlen : (read ++ [word]).length = read.length + 1 := by simp
  rw [Layout.compared, hlen]
  split_ifs with hagain
  · cases test <;> simp only [ListPc.work, hlen, Layout.perNode] <;> omega
  · cases test with
    | greater =>
        rw [Searcher.tested]
        split_ifs
        · refine work_notFound_lt.trans_le ?_
          simp only [ListPc.work]
          omega
        · simp only [ListPc.work, Layout.perNode, List.length_nil]
          omega
    | equal =>
        rw [Searcher.tested]
        split_ifs
        · refine work_found_lt.trans_le ?_
          simp only [ListPc.work]
          omega
        · simp only [ListPc.work]
          omega

lemma work_headCompared_lt {value : T} (hmore : read.length < L.size) (word : W) :
    (L.headCompared value current (read ++ [word])).work L l
      < (ListPc.headCompare value current read : ListPc T A W).work L l := by
  have hlen : (read ++ [word]).length = read.length + 1 := by simp
  rw [Layout.headCompared, hlen]
  split_ifs <;> simp only [ListPc.work, hlen, Layout.afterSearch] <;> omega

/-- **Every read of the body leaves less.** -/
theorem ReadEffect.work_lt (h : ReadEffect L s t pc) (hc : s.heap.Chain l)
    (hbody : (s.pc t).inBody = true) (hready : Ready L l (s.pc t))
    (hok : PcOk L s.heap (s.result t) l (s.pc t)) : pc.work L l < (s.pc t).work L l := by
  cases h with
  | lockLoad _ hpc | epochLoad _ hpc | restart _ _ hpc | valid _ _ hpc | scan _ _ hpc
  | scanned _ _ hpc =>
      rw [hpc] at hbody
      cases hbody
  | headNull value hpc | headTest value hpc | headNode value hpc | assertNext value prev hpc
  | overwriteNode value p hpc | unlink prev current hpc =>
      rw [hpc]
      simp only [ListPc.work, List.length_nil]
      omega
  | headCompare value current read hpc =>
      rw [hpc] at hready ⊢
      exact work_headCompared_lt hready _
  | searchRoot op hpc =>
      rw [hpc, hc.root_eq]
      exact Nat.lt_succ_of_le (work_loop_le hc.nodup (List.nil_append l).symm)
  | compare op test prev current read hpc =>
      rw [hpc] at hready ⊢
      exact work_compared_lt hready.1 _
  | next op current hpc node hnode =>
      rw [hpc] at hok ⊢
      obtain ⟨l₁, w, l₂, rfl, -⟩ := hok
      rw [hc.node_eq, Option.some.injEq] at hnode
      subst hnode
      have hsplit : l₁ ++ (current, w) :: l₂ = (l₁ ++ [(current, w)]) ++ l₂ := by simp
      rw [ListPc.work, cellsBehind_eq hc.nodup]
      exact Nat.lt_succ_of_le (work_loop_le hc.nodup hsplit)

omit [DecidableEq A] in
lemma inserting_notFound : (op.notFound prev : ListPc T A W).inserting = op.inserts := by
  rcases op with v | (v | v) <;> rfl

omit [DecidableEq A] in
lemma inserting_found : (op.found prev current : ListPc T A W).inserting = op.inserts := by
  rcases op with v | (v | v) <;> rfl

omit [DecidableEq A] in
lemma inserting_loop (p : Option A) : (op.loop prev p : ListPc T A W).inserting = op.inserts := by
  cases p with
  | none => exact inserting_notFound
  | some current => rfl

omit [DecidableEq A] in
lemma inserting_compared : (L.compared op test prev current read).inserting = op.inserts := by
  rw [Layout.compared]
  split_ifs
  · rfl
  · cases test with
    | greater =>
        rw [Searcher.tested]
        split_ifs
        · exact inserting_notFound
        · rfl
    | equal =>
        rw [Searcher.tested]
        split_ifs
        · exact inserting_found
        · rfl

omit [DecidableEq A] in
lemma ReadEffect.inserting (h : ReadEffect L s t pc) (hbody : (s.pc t).inBody = true) :
    pc.inserting = (s.pc t).inserting := by
  cases h with
  | lockLoad _ hpc | epochLoad _ hpc | restart _ _ hpc | valid _ _ hpc | scan _ _ hpc
  | scanned _ _ hpc =>
      rw [hpc] at hbody
      cases hbody
  | headCompare value current read hpc =>
      rw [hpc, Layout.headCompared]
      split_ifs <;> rfl
  | searchRoot op hpc => exact (inserting_loop _).trans (hpc ▸ rfl)
  | next op current hpc => exact (inserting_loop _).trans (hpc ▸ rfl)
  | compare op test prev current read hpc => exact inserting_compared.trans (hpc ▸ rfl)
  | headNull _ hpc | headTest _ hpc | headNode _ hpc | assertNext _ _ hpc
  | overwriteNode _ _ hpc | unlink _ _ hpc => rw [hpc]; rfl

end work

/-! ## All threads together -/

section cost

variable {T A W : Type} [DecidableEq A] {cmp : T → T → Ordering} {L : Layout W cmp}
  {l l' : List (A × List W)} {pc : MutexPc T A W} {p : ListPc T A W} {most most' : ℕ}

lemma cost_mono (hle : most ≤ most') : pc.cost L most l ≤ pc.cost L most' l := by
  have hmul := Nat.mul_le_mul_right L.perNode hle
  cases pc <;> simp only [MutexPc.cost] <;> omega

/-- In no call, or in front of the mutex, a thread has nothing to do with the chain. -/
lemma cost_of_idle (hown : pc.owns = false) (hshare : pc.shares = false) (hle : most ≤ most') :
    pc.cost L most l' ≤ pc.cost L most' l := by
  cases pc with
  | outside | lock | lockShared => exact cost_mono hle
  | inside p =>
      rw [MutexPc.shares, show p.critical = false from hown] at hshare
      cases hshare
  | free | unlock => cases hown
  | unlockShared => cases hshare

lemma cost_behind_le : (MutexPc.behind p).cost L most l ≤ p.work L l + 2 := by
  cases p <;> simp [MutexPc.behind, MutexPc.cost]

omit [DecidableEq A] in
lemma inserting_behind : (MutexPc.behind p).inserting = p.inserting := by
  cases p <;> rfl

end cost

namespace MutexInv

variable {n : ℕ} {T A W : Type} [DecidableEq A] {cmp : T → T → Ordering} {L : Layout W cmp}
  {s s' : MutexSt n T A W} {w : St n (ClassMap T) (Call T) (Outcome (List W))}
  {l l' : List (A × List W)} {values : List (A × T)} {t u : Fin n} {pc : MutexPc T A W}
  {p p₀ : ListPc T A W} {fresh : A}

omit [DecidableEq A] in
lemma most_le (hpc : s'.pc = Function.update s.pc t pc)
    (hle : l'.length + pc.inserting.toNat ≤ l.length + (s.pc t).inserting.toNat) :
    s'.most l' ≤ s.most l := by
  have hsum := sum_add_eq_sum_add (g := fun u => (s'.pc u).inserting.toNat)
    (f := fun u => (s.pc u).inserting.toNat) t fun u hu => by rw [hpc, Function.update_of_ne hu]
  rw [hpc, Function.update_self, ← hpc] at hsum
  rw [MutexSt.most, MutexSt.most]
  omega

/-- A step of `t` after which `t` has less to do, and nobody else has more. -/
lemma potential_lt_of (hpc : s'.pc = Function.update s.pc t pc)
    (hle : l'.length + pc.inserting.toNat ≤ l.length + (s.pc t).inserting.toNat)
    (hothers : ∀ u, u ≠ t → ∀ most, most ≤ s.most l →
      (s.pc u).cost L most l' ≤ (s.pc u).cost L (s.most l) l)
    (hself : ∀ most, most ≤ s.most l → pc.cost L most l' < (s.pc t).cost L (s.most l) l) :
    s'.potential L l' < s.potential L l := by
  have hmost := most_le hpc hle
  refine Finset.sum_lt_sum ?_ ⟨t, Finset.mem_univ t, ?_⟩
  · intro u _
    rw [hpc]
    by_cases hu : u = t
    · rw [hu, Function.update_self]
      exact (hself _ hmost).le
    · rw [Function.update_of_ne hu]
      exact hothers u hu _ hmost
  · rw [hpc, Function.update_self]
    exact hself _ hmost

/-- A step of `t` that leaves the chain. -/
lemma potential_lt_of_same (hpc : s'.pc = Function.update s.pc t pc)
    (hinsert : pc.inserting = true → (s.pc t).inserting = true)
    (hself : pc.cost L (s.most l) l < (s.pc t).cost L (s.most l) l) :
    s'.potential L l < s.potential L l := by
  refine potential_lt_of hpc ?_ (fun u _ most hle => cost_mono hle)
    (fun most hle => (cost_mono hle).trans_lt hself)
  exact Nat.add_le_add_left (Bool.toNat_le_toNat hinsert) _

/-- A step of the thread that holds the mutex exclusively. -/
lemma potential_lt_of_owner (h : MutexInv L s w l values) (hown : s.mutex.owner = some t)
    (hpc : s'.pc = Function.update s.pc t pc)
    (hle : l'.length + pc.inserting.toNat ≤ l.length + (s.pc t).inserting.toNat)
    (hself : pc.cost L (s.most l) l' < (s.pc t).cost L (s.most l) l) :
    s'.potential L l' < s.potential L l := by
  refine potential_lt_of hpc hle ?_ (fun most hmost => (cost_mono hmost).trans_lt hself)
  intro u hu most hmost
  obtain ⟨howns, hshare⟩ := h.mutex.idle_of_owner hown hu
  exact cost_of_idle howns hshare hmost

/-- An access of the body that leaves the chain. -/
lemma potential_lt_of_access (hpc₀ : s.pc t = .inside p₀)
    (hpc : s'.pc = Function.update s.pc t (.behind p))
    (hinsert : p.inserting = true → p₀.inserting = true) (hwork : p.work L l < p₀.work L l) :
    s'.potential L l < s.potential L l := by
  refine potential_lt_of_same hpc ?_ ?_
  · rw [inserting_behind, hpc₀]
    exact hinsert
  · rw [hpc₀]
    exact cost_behind_le.trans_lt (Nat.add_lt_add_right hwork 2)

/-- An access of the body. -/
lemma access_lt [Std.TransCmp cmp] (h : MutexInv L s w l values) (hpc₀ : s.pc t = .inside p₀)
    {b : ListSt n T A W} (haccess : (s.body p₀).resume L t fresh = some b)
    (hpc : s'.pc = Function.update s.pc t (.behind (b.pc t))) (hheap : s'.heap = b.heap)
    (hchain : s'.heap.Chain l') : s'.potential L l' < s.potential L l := by
  obtain ⟨hbody, hok, hready⟩ := (h.thread t).body p₀ hpc₀
  have hbody' : ∀ p, p₀ = p → p.inBody = true := by
    rintro _ rfl
    exact hbody
  rw [hheap] at hchain
  cases ListSt.resume_effect haccess with
  | read _ _ pc hread =>
      obtain rfl := Heap.Chain.unique hchain h.chain
      rw [ListSt.setPc_pc, Function.update_self] at hpc
      have hwork : pc.work L l' < p₀.work L l' := hread.work_lt h.chain hbody hready hok
      refine potential_lt_of_access hpc₀ hpc ?_ hwork
      rw [hread.inserting hbody]
      exact id
  | newNode _ _ value dst next halloc hfresh =>
      obtain rfl := Heap.Chain.unique hchain (h.chain.alloc hfresh)
      rw [ListSt.setPc_pc, Function.update_self] at hpc
      have hbefore : p₀.inserting = true ∧ p₀.work L l' = 2 := by
        cases halloc with
        | head hp | inner _ _ hp =>
            cases (show p₀ = _ from hp)
            exact ⟨rfl, rfl⟩
      refine potential_lt_of_access hpc₀ hpc (fun _ => hbefore.1) ?_
      rw [hbefore.2]
      exact Nat.one_lt_two
  | overwrite _ _ value current i hp node hnode word hword =>
      cases hp
      have hown := h.owner_of_critical hpc₀ rfl
      have hcontents := h.writer t hown
      rw [hpc₀] at hcontents
      obtain ⟨l'', hchain', hfst, -⟩ := TakesEffect.overwrite h.chain hcontents h.represents
        hnode hword
      obtain rfl := Heap.Chain.unique hchain hchain'
      have hlength : l'.length = l.length := by
        simpa using congrArg List.length hfst
      rw [ListSt.setPc_pc, Function.update_self] at hpc
      refine h.potential_lt_of_owner hown hpc ?_ ?_
      · rw [hpc₀, inserting_behind, hlength]
        split_ifs <;> simp [ListPc.inserting, MutexPc.inserting]
      · rw [hpc₀]
        refine cost_behind_le.trans_lt (Nat.add_lt_add_right ?_ 2)
        have hi : i < L.size := hready
        split_ifs <;> simp only [ListPc.work] <;> omega
  | linkNew _ _ dst target hp =>
      cases hp
      have hown := h.owner_of_critical hpc₀ rfl
      have hl := h.eq_cells hpc₀ rfl
      obtain ⟨c, hcalled, hpending, -⟩ := h.called hpc₀ rfl
      have hout : ∀ b ∈ target, b ∉ l.map Prod.fst := by
        rintro b rfl
        refine (h.thread t).apart b ?_
        rw [hpc₀]
        exact List.mem_cons_self
      obtain ⟨v₁, b, value, v₂, rfl, rfl, heffect⟩ := TakesEffect.link h.chain hl h.represents hok
        hpending hout
      obtain rfl := Heap.Chain.unique hchain heffect.chain
      rw [ListSt.setPc_pc, Function.update_self] at hpc
      refine h.potential_lt_of_owner hown hpc ?_ ?_
      · rw [hpc₀, hl]
        simp [MutexPc.behind, MutexPc.inserting, ListPc.inserting, Layout.cells]
        omega
      · rw [hpc₀]
        simp [MutexPc.behind, MutexPc.cost]
  | linkPast _ _ dst target victim hp =>
      cases hp
      have hown := h.owner_of_critical hpc₀ rfl
      have hl := h.eq_cells hpc₀ rfl
      obtain ⟨c, hcalled, hpending, -⟩ := h.called hpc₀ rfl
      obtain ⟨v₁, x, v₂, rfl, heffect⟩ := TakesEffect.unlink h.chain hl h.represents hok hpending
      obtain rfl := Heap.Chain.unique hchain heffect.chain
      rw [ListSt.setPc_pc, Function.update_self] at hpc
      refine h.potential_lt_of_owner hown hpc ?_ ?_
      · rw [hpc₀, hl]
        simp [MutexPc.behind, MutexPc.inserting, ListPc.inserting, Layout.cells]
      · rw [hpc₀]
        simp [MutexPc.behind, MutexPc.cost, ListPc.work]
  | copy _ _ value current i hp node hnode word hword =>
      cases hp
      obtain rfl := Heap.Chain.unique hchain h.chain
      rw [ListSt.setPc_pc, Function.update_self] at hpc
      have hi : i < L.size := hready
      refine potential_lt_of_access hpc₀ hpc ?_ ?_
      · split_ifs <;> simp [ListPc.inserting]
      · split_ifs <;> simp only [ListPc.work] <;> omega
  | lockRefused _ _ _ _ hp | lockAcquired _ _ _ _ hp | deferFreePointer _ _ _ hp
  | unlockCall _ _ _ hp | unlocking _ _ _ hp | publish _ _ _ _ hp | optimisticLock _ _ _ hp
  | leave _ _ _ _ hp | free _ _ _ _ hp | erased _ _ _ _ hp =>
      have hin := hbody' _ hp
      cases hin

/-- **Every access lowers the potential.** -/
theorem potential_lt [Std.TransCmp cmp] (h : MutexInv L s w l values)
    (hstep : s.step L (.resume t fresh) = some s') (hchain : s'.heap.Chain l') :
    s'.potential L l' < s.potential L l := by
  have hmost : l.length * L.perNode ≤ s.most l * L.perNode :=
    Nat.mul_le_mul_right _ (Nat.le_add_right _ _)
  cases MutexSt.step_effect hstep with
  | lock _ _ o hpc hfree hempty =>
      obtain rfl := Heap.Chain.unique hchain h.chain
      refine potential_lt_of_same rfl ?_ ?_
      · rw [hpc]
        cases o <;> exact id
      · rw [hpc]
        cases o <;> simp only [MutexPc.cost, Writer.start, ListPc.work] <;> omega
  | lockShared _ _ value hpc hfree =>
      obtain rfl := Heap.Chain.unique hchain h.chain
      refine potential_lt_of_same rfl (by rintro ⟨⟩) ?_
      rw [hpc]
      simp only [MutexPc.cost, ListPc.work]
      omega
  | access _ _ p hpc b haccess => exact h.access_lt hpc haccess rfl rfl hchain
  | free _ _ current hpc =>
      have hout : current ∉ l.map Prod.fst := by
        refine (h.thread t).apart current ?_
        rw [hpc]
        exact List.mem_cons_self
      obtain rfl := Heap.Chain.unique hchain (h.chain.free hout)
      refine potential_lt_of_same rfl (by rintro ⟨⟩) ?_
      rw [hpc]
      exact Nat.one_lt_two
  | unlock _ _ ret hpc =>
      obtain rfl := Heap.Chain.unique hchain h.chain
      refine potential_lt_of_same rfl (by rintro ⟨⟩) ?_
      rw [hpc]
      exact Nat.one_pos
  | unlockShared _ _ found hpc =>
      obtain rfl := Heap.Chain.unique hchain h.chain
      refine potential_lt_of_same rfl (by rintro ⟨⟩) ?_
      rw [hpc]
      exact Nat.one_pos

/-! ## No deadlock -/

/-- A thread that has the mutex does not wait. -/
lemma exists_step_of_holder (h : MutexInv L s w l values)
    (hhold : (s.pc t).owns = true ∨ (s.pc t).shares = true) (hfresh : s.heap.node fresh = none) :
    (s.step L (.resume t fresh)).isSome ∨ s.AtNull L t := by
  rw [MutexSt.step, MutexSt.resume, MutexSt.AtNull]
  cases hpc : s.pc t with
  | outside | lock | lockShared =>
      rw [hpc] at hhold
      rcases hhold with hown | hshare
      · cases hown
      · cases hshare
  | inside p =>
      obtain ⟨hbody, hok, hready⟩ := (h.thread t).body p hpc
      rcases ListSt.access_enabled (s := s.body p) (t := t) h.chain h.length_of_mem hok hready
        hbody hfresh with hsome | hnull
      · exact .inl (by simpa using hsome)
      · exact .inr ⟨p, rfl, hnull⟩
  | free current =>
      have hsome : (s.heap.node current).isSome := by
        rw [h.allocated]
        refine .inr ⟨t, ?_⟩
        rw [hpc]
        exact List.mem_cons_self
      exact .inl (by simpa using hsome)
  | unlock | unlockShared => exact .inl rfl

/-- **No deadlock.**  While a thread is inside a call, some thread has a step, or is stuck at the
null pointer. -/
theorem exists_step (h : MutexInv L s w l values) (hbusy : (s.pc t).inCall = true)
    (hfresh : s.heap.node fresh = none) :
    ∃ u, (s.step L (.resume u fresh)).isSome ∨ s.AtNull L u := by
  cases hown : s.mutex.owner with
  | some u => exact ⟨u, h.exists_step_of_holder (.inl ((h.mutex.owner u).mp hown)) hfresh⟩
  | none =>
      rcases s.mutex.sharers.eq_empty_or_nonempty with hempty | ⟨u, hu⟩
      · -- nobody holds the mutex: `t` is in front of it
        refine ⟨t, .inl ?_⟩
        have hout : (s.pc t).owns = false ∧ (s.pc t).shares = false := by
          rw [← Bool.not_eq_true, ← h.mutex.owner, ← Bool.not_eq_true, ← h.mutex.sharers, hown,
            hempty]
          exact ⟨nofun, Finset.notMem_empty t⟩
        rw [MutexSt.step, MutexSt.resume]
        cases hpc : s.pc t with
        | outside =>
            rw [hpc] at hbusy
            cases hbusy
        | lock o => simp [hown, hempty]
        | lockShared value => simp [hown]
        | inside p =>
            rw [hpc] at hout
            simp [MutexPc.owns, MutexPc.shares] at hout
        | free | unlock =>
            rw [hpc] at hout
            cases hout.1
        | unlockShared =>
            rw [hpc] at hout
            cases hout.2
      · exact ⟨u, h.exists_step_of_holder (.inr ((h.mutex.sharers u).mp hu)) hfresh⟩

end MutexInv

/-- **Calls are completed.**  From every reachable state, the accesses of the calls in progress come
to an end after a bounded number, in whichever order the threads take them; and when no thread has
an access left, although `malloc` has an address to give, then every call has returned, or there is
an `Insert` at the null pointer: its value is equivalent to the one at the head. -/
theorem mutexSortedList_completes {n : ℕ} {T A W : Type} [DecidableEq A]
    {cmp : T → T → Ordering} [Std.TransCmp cmp] (L : Layout W cmp) {tr : List (MutexAct n T A)}
    {s : MutexSt n T A W} (hrun : run (MutexSt.step L) MutexSt.init tr = some s) :
    ∃ bound, ∀ tr' s', (∀ a ∈ tr', a.continues = true) → run (MutexSt.step L) s tr' = some s' →
      tr'.length ≤ bound ∧
      ∀ fresh, s'.heap.node fresh = none → (∀ t, s'.step L (.resume t fresh) = none) →
        (∀ t, (s'.pc t).inCall = false) ∨ ∃ t, s'.AtNull L t := by
  obtain ⟨w, l, values, h⟩ := MutexInv.run hrun
  have hlower : ∀ (s : MutexSt n T A W) (k : ℕ) (a : MutexAct n T A) (s' : MutexSt n T A W),
      (∃ w l values, MutexInv L s w l values ∧ s.potential L l = k) → a.continues = true →
      s.step L a = some s' →
      ∃ k', (∃ w l values, MutexInv L s' w l values ∧ s'.potential L l = k') ∧ k' < k := by
    rintro s _ a s' ⟨w, l, values, h, rfl⟩ hok hstep
    obtain ⟨w', -, l', values', h'⟩ := h.step hstep
    cases a with
    | call => cases hok
    | resume t fresh => exact ⟨_, ⟨w', l', values', h', rfl⟩, h.potential_lt hstep h'.chain⟩
  refine ⟨s.potential L l, ?_⟩
  intro tr' s' hcontinues hrun'
  obtain ⟨k, ⟨w', l', values', h', -⟩, hle⟩ := length_add_le_of_decreasing hlower
    ⟨w, l, values, h, rfl⟩ hcontinues hrun'
  refine ⟨(Nat.le_add_right _ k).trans hle, ?_⟩
  intro fresh hfresh hstuck
  by_cases hbusy : ∃ t, (s'.pc t).inCall = true
  · obtain ⟨t, ht⟩ := hbusy
    obtain ⟨u, hu | hnull⟩ := h'.exists_step ht hfresh
    · rw [hstuck u] at hu
      cases hu
    · exact .inr ⟨u, hnull⟩
  · exact .inl (by simpa using hbusy)

/-- Two threads look up at once, while a third has to wait for both. -/
theorem mutexSortedList_completes_waiting :
    ∃ s, run (MutexSt.step digits) (MutexSt.init : MutexSt 3 ℕ ℕ ℕ)
        (.call 0 (.insert 117) :: List.replicate 5 (.resume 0 7) ++
          [.call 1 (.lookUp 400 0), .call 2 (.lookUp 905 33), .call 0 (.insert 478),
            .resume 1 0, .resume 2 0]) = some s ∧
      s.step digits (.resume 0 0) = none ∧
      ∃ bound, ∀ tr' s', (∀ a ∈ tr', a.continues = true) →
        run (MutexSt.step digits) s tr' = some s' → tr'.length ≤ bound ∧
        ∀ fresh, s'.heap.node fresh = none → (∀ t, s'.step digits (.resume t fresh) = none) →
          (∀ t, (s'.pc t).inCall = false) ∨ ∃ t, s'.AtNull digits t := by
  let tr : List (MutexAct 3 ℕ ℕ) := .call 0 (.insert 117) :: List.replicate 5 (.resume 0 7) ++
    [.call 1 (.lookUp 400 0), .call 2 (.lookUp 905 33), .call 0 (.insert 478), .resume 1 0,
      .resume 2 0]
  have hwaits : ((run (MutexSt.step digits) (MutexSt.init : MutexSt 3 ℕ ℕ ℕ) tr).map
      fun s => (s.step digits (.resume 0 0)).isNone) = some true := by
    decide +kernel
  obtain ⟨s, hrun, hnone⟩ := Option.map_eq_some_iff.mp hwaits
  exact ⟨s, hrun, Option.isNone_iff_eq_none.mp hnone, mutexSortedList_completes digits hrun⟩

end OptLock

