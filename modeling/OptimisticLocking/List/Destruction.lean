import OptimisticLocking.List.MutexAtomicMap
import Mathlib.Algebra.BigOperators.Fin

/-!
# The memory of both lists, from the first `malloc` to the destructors

What `nodes_accounted` says of completed calls, for calls that are interleaved, and for addresses
that `malloc` may return again once they are freed: an address is freed as often as it was returned.

* `ListSt.allocated`, `ListSt.freed`, `MutexSt.allocated`, `MutexSt.freed` — the calls of `malloc`
  and `free`.
* `ListSt.count_step`, `MutexSt.count_step` — the ledger of one step.
* `ListInv.quiet` — where the nodes are once no thread is inside a call.
* **`optimisticSortedList_released`**, **`mutexSortedList_released`**
-/

namespace OptLock

open LinkedList Transition

/-! ## `OptimisticSortedList` -/

namespace ListSt

variable {n : ℕ} {T A W : Type}

/-- The address that the `malloc` of `NewNode` returns, when the step is one. -/
def allocated (s : ListSt n T A W) : ListAct n T A → Option A
  | .resume t fresh =>
      match s.pc t with
      | .newHead _ | .splice _ _ => some fresh
      | _ => none
  | _ => none

/-- The argument of the `free` in `FreeOutdatedPtr`, when the step is one. -/
def freed (s : ListSt n T A W) : ListAct n T A → Option A
  | .resume t _ =>
      match s.pc t with
      | .freeing m idx =>
          ((s.handler.toFreePtr t)[idx]?.filter fun e => e.epoch < m).map (·.ptr)
      | _ => none
  | _ => none

variable {cmp : T → T → Ordering} {L : Layout W cmp} {s s' : ListSt n T A W} {t : Fin n}

lemma allocated_of_read {pc : ListPc T A W} (h : ReadEffect L s t pc) (fresh : A) :
    s.allocated (.resume t fresh) = none ∧ s.freed (.resume t fresh) = none := by
  cases h <;> simp [allocated, freed, *]

variable [DecidableEq A]

/-- A round of the freeing loop frees an allocated address, or it is the last one. -/
lemma count_freeStep {m idx : ℕ} (hpc : s.pc t = .freeing m idx)
    (h : s.freeStep t m idx = some s') (fresh b : A) :
    (s.freed (.resume t fresh)).toList.count b + (s'.heap.node b).isSome.toNat
      = (s.heap.node b).isSome.toNat := by
  simp only [freeStep] at h
  split at h
  · next he =>
      cases h
      simp [freed, hpc, he]
  · next e he =>
      split_ifs at h with hyoung
      · cases h
        simp [freed, hpc, he, Option.filter, Nat.not_lt.mpr hyoung]
      · obtain ⟨node, hnode, rfl⟩ := Option.map_eq_some_iff.mp h
        have hfreed : s.freed (.resume t fresh) = some e.ptr := by
          simp [freed, hpc, he, Nat.lt_of_not_le hyoung]
        have hsome : (s.heap.node e.ptr).isSome := by
          rw [hnode]
          rfl
        rw [hfreed]
        exact Heap.count_free hsome b

/-- **The ledger of one step.** -/
theorem count_step {a : ListAct n T A} (h : s.step L a = some s') (b : A) :
    (s.freed a).toList.count b + (s'.heap.node b).isSome.toNat
      = (s.allocated a).toList.count b + (s.heap.node b).isSome.toNat := by
  cases step_effect h with
  | call t c => cases c <;> simp [allocated, freed, call]
  | freeOutdatedPtr | advanceGlobalEpoch => simp [allocated, freed]
  | read t fresh pc hread =>
      obtain ⟨hallocated, hfreed⟩ := allocated_of_read hread fresh
      rw [hallocated, hfreed, setPc_heap]
  | newNode t fresh value dst next halloc hfresh =>
      have hallocated : s.allocated (.resume t fresh) = some fresh := by
        cases halloc <;> simp [allocated, *]
      have hfreed : s.freed (.resume t fresh) = none := by
        cases halloc <;> simp [freed, *]
      rw [hallocated, hfreed, Heap.count_alloc hfresh]
      exact Nat.zero_add _
  | overwrite t fresh value current i hpc =>
      simp only [allocated, freed, hpc, Heap.setValue_isSome]
  | linkNew t fresh dst target hpc | linkPast t fresh dst target victim hpc =>
      simp only [allocated, freed, hpc, Heap.link_isSome]
  | free t fresh m idx hpc | erased t fresh m idx hpc =>
      simp only [step, resume, hpc] at h
      rw [count_freeStep hpc h]
      simp [allocated, hpc]
  | _ => simp [allocated, freed, *]

end ListSt

/-- With no thread inside a call, each node is in the chain or in a limbo list. -/
lemma ListInv.quiet {n : ℕ} {T A W : Type} {cmp : T → T → Ordering} {L : Layout W cmp}
    {s : ListSt n T A W} {l : List (A × List W)} (h : ListInv L s l)
    (hquiet : ∀ t, ∃ ret, s.pc t = .outside ret) :
    (l.map Prod.fst ++ s.handler.destroy).Nodup ∧
      ∀ a, a ∈ l.map Prod.fst ++ s.handler.destroy ↔ (s.heap.node a).isSome := by
  have howned : s.owned = (s.handler.destroy : Multiset A) := by
    have hheld : ∀ t, s.held t = (s.handler.toFreePtr t).map (·.ptr) := by
      intro t
      obtain ⟨ret, hpc⟩ := hquiet t
      exact ListSt.held_of_pc hpc
    simp only [ListSt.owned, hheld, Fin.sum_univ_def, EpochHandler.destroy]
    induction List.finRange n with
    | nil => rfl
    | cons t slots ih =>
        rw [List.map_cons, List.sum_cons, ih, List.flatMap_cons, Multiset.coe_add]
  have hnodup := h.accounts.nodup
  have hmem := h.accounts.mem
  rw [howned, Multiset.coe_add] at hnodup hmem
  exact ⟨Multiset.coe_nodup.mp hnodup, hmem⟩

/-- **No node is lost and none is freed twice.**  Any number of threads run `Insert`, `Delete`,
`LookUp` and `FreeOutdatedPtr` on one `OptimisticSortedList`, in any interleaving of their accesses
to allocated memory; any other access ends the run of its thread.  Once all of them are between two
calls, the destructors of the list and of the `EpochHandler`, in either order, free allocated
addresses only and leave none.  What `malloc` returned, from the first call on, is what
`FreeOutdatedPtr` and the two destructors freed, as often each. -/
theorem optimisticSortedList_released {n : ℕ} {T A W : Type} [DecidableEq A]
    {cmp : T → T → Ordering} (L : Layout W cmp) {tr : List (ListAct n T A)} {s : ListSt n T A W}
    (hrun : run (ListSt.step L) ListSt.init tr = some s)
    (hquiet : ∀ t, ∃ ret, s.pc t = .outside ret) :
    ∃ chain fuel,
      (∃ h₁ h₂, s.heap.freeChain fuel = some (chain, h₁) ∧
        h₁.freeAll s.handler.destroy = some h₂ ∧ ∀ a, h₂.node a = none) ∧
      (∃ h₁ h₂, s.heap.freeAll s.handler.destroy = some h₁ ∧
        h₁.freeChain fuel = some (chain, h₂) ∧ ∀ a, h₂.node a = none) ∧
      (history (fun s a _ => s.freed a) (ListSt.step L) ListSt.init tr
          ++ (chain ++ s.handler.destroy)).Perm
        (history (fun s a _ => s.allocated a) (ListSt.step L) ListSt.init tr) := by
  obtain ⟨l, h⟩ := ListInv.run hrun
  obtain ⟨hnodup, hmem⟩ := h.quiet hquiet
  obtain ⟨hlist, hhandler⟩ := h.chain.freeChain_freeAll hnodup hmem (Nat.lt_succ_self _)
  exact ⟨l.map Prod.fst, l.length + 1, hlist, hhandler,
    history_perm (p := fun s a => (s.heap.node a).isSome)
      (fun _ _ _ hstep => ListSt.count_step hstep) hrun (fun _ => rfl) hnodup hmem⟩

/-- Node `7` is freed by `FreeOutdatedPtr`, its address is returned again, and the node that is
there now waits in the limbo list of thread `0` when the destructors run. -/
theorem optimisticSortedList_released_reused :
    ∃ (s : ListSt 2 ℕ ℕ ℕ) (chain : List ℕ) (fuel : ℕ) (h₁ h₂ : Heap ℕ (List ℕ)),
      run (ListSt.step digits) ListSt.init
        (.call 0 (.insert 412) :: resumes 0 8 7 ++ .call 0 (.delete 412) :: resumes 0 15 0 ++
          .call 0 (.lookUp 500 0) :: resumes 0 6 0 ++ .call 1 (.lookUp 500 0) :: resumes 1 6 0 ++
          .freeOutdatedPtr 0 :: resumes 0 5 0 ++ .call 0 (.insert 300) :: resumes 0 8 7 ++
          .call 0 (.insert 500) :: resumes 0 20 8 ++ .call 0 (.delete 300) :: resumes 0 15 0) =
        some s ∧
      s.heap.freeChain fuel = some (chain, h₁) ∧ h₁.freeAll s.handler.destroy = some h₂ ∧
      (∀ a, h₂.node a = none) ∧ ([7] ++ (chain ++ s.handler.destroy)).Perm [7, 7, 8] := by
  let tr : List (ListAct 2 ℕ ℕ) :=
    .call 0 (.insert 412) :: resumes 0 8 7 ++ .call 0 (.delete 412) :: resumes 0 15 0 ++
      .call 0 (.lookUp 500 0) :: resumes 0 6 0 ++ .call 1 (.lookUp 500 0) :: resumes 1 6 0 ++
      .freeOutdatedPtr 0 :: resumes 0 5 0 ++ .call 0 (.insert 300) :: resumes 0 8 7 ++
      .call 0 (.insert 500) :: resumes 0 20 8 ++ .call 0 (.delete 300) :: resumes 0 15 0
  have hall : (run (ListSt.step digits) (ListSt.init : ListSt 2 ℕ ℕ ℕ) tr).map
      (fun s => (s.pc 0, s.pc 1)) = some (.outside (some true), .outside (some false)) := by
    decide +kernel
  have hfreed : history (fun s a _ => s.freed a) (ListSt.step digits)
      (ListSt.init : ListSt 2 ℕ ℕ ℕ) tr = [7] := by
    decide +kernel
  have hallocated : history (fun s a _ => s.allocated a) (ListSt.step digits)
      (ListSt.init : ListSt 2 ℕ ℕ ℕ) tr = [7, 7, 8] := by
    decide +kernel
  obtain ⟨s, hrun, hs⟩ := Option.map_eq_some_iff.mp hall
  obtain ⟨h0, h1⟩ := Prod.mk.inj hs
  have hquiet : ∀ t, ∃ ret, s.pc t = .outside ret := by
    rw [Fin.forall_fin_two]
    exact ⟨⟨_, h0⟩, ⟨_, h1⟩⟩
  obtain ⟨chain, fuel, ⟨h₁, h₂, hlist, hhandler, hnone⟩, -, hperm⟩ :=
    optimisticSortedList_released digits hrun hquiet
  rw [hfreed, hallocated] at hperm
  exact ⟨s, chain, fuel, h₁, h₂, hrun, hlist, hhandler, hnone, hperm⟩

/-! ## `MutexSortedList` -/

namespace MutexSt

variable {n : ℕ} {T A W : Type}

/-- The address that the `malloc` of `NewNode` returns, when the step is one. -/
def allocated (s : MutexSt n T A W) : MutexAct n T A → Option A
  | .resume t fresh =>
      match s.pc t with
      | .inside pc => (s.body pc).allocated (.resume t fresh)
      | _ => none
  | _ => none

/-- The argument of the `free` in `Delete`, when the step is one. -/
def freed (s : MutexSt n T A W) : MutexAct n T A → Option A
  | .resume t _ =>
      match s.pc t with
      | .free current => some current
      | _ => none
  | _ => none

variable {cmp : T → T → Ordering} {L : Layout W cmp} {s s' : MutexSt n T A W} [DecidableEq A]

omit [DecidableEq A] in
/-- The limbo lists, of which there are none here, stay out of it. -/
lemma body_freed (pc : ListPc T A W) (t : Fin n) (fresh : A) :
    (s.body pc).freed (.resume t fresh) = none := by
  cases pc <;> rfl

/-- **The ledger of one step.** -/
theorem count_step {a : MutexAct n T A} (h : s.step L a = some s') (b : A) :
    (s.freed a).toList.count b + (s'.heap.node b).isSome.toNat
      = (s.allocated a).toList.count b + (s.heap.node b).isSome.toNat := by
  cases step_effect h with
  | call t c => cases c <;> simp [allocated, freed, call]
  | access t fresh pc hpc m haccess =>
      have hbody := ListSt.count_step (L := L) (a := .resume t fresh) haccess b
      rw [body_freed] at hbody
      simpa [allocated, freed, hpc, body] using hbody
  | free t fresh current hpc =>
      have hsome : (s.heap.node current).isSome := by
        simp only [step, resume, hpc] at h
        obtain ⟨node, hnode, -⟩ := Option.map_eq_some_iff.mp h
        rw [hnode]
        rfl
      have hcount := Heap.count_free hsome b
      simpa [allocated, freed, hpc] using hcount
  | _ => simp [allocated, freed, *]

end MutexSt

/-- **No node is lost and none is freed twice.**  The same for one `MutexSortedList`, where `Delete`
frees. -/
theorem mutexSortedList_released {n : ℕ} {T A W : Type} [DecidableEq A]
    {cmp : T → T → Ordering} [Std.TransCmp cmp] (L : Layout W cmp) {tr : List (MutexAct n T A)}
    {s : MutexSt n T A W} (hrun : run (MutexSt.step L) MutexSt.init tr = some s)
    (hquiet : ∀ t, ∃ ret, s.pc t = .outside ret) :
    ∃ chain fuel h', s.heap.freeChain fuel = some (chain, h') ∧ (∀ a, h'.node a = none) ∧
      (history (fun s a _ => s.freed a) (MutexSt.step L) MutexSt.init tr ++ chain).Perm
        (history (fun s a _ => s.allocated a) (MutexSt.step L) MutexSt.init tr) := by
  obtain ⟨w, l, values, h⟩ := MutexInv.run hrun
  have hmem : ∀ a, a ∈ l.map Prod.fst ++ [] ↔ (s.heap.node a).isSome := by
    intro a
    rw [List.append_nil, h.allocated]
    refine ⟨.inl, ?_⟩
    rintro (ha | ⟨t, ha⟩)
    · exact ha
    · obtain ⟨ret, hpc⟩ := hquiet t
      rw [hpc] at ha
      cases ha
  have hnodup : (l.map Prod.fst ++ []).Nodup := (List.append_nil _).symm ▸ h.chain.nodup
  obtain ⟨⟨h₁, h₂, hlist, hnil, hnone⟩, -⟩ :=
    h.chain.freeChain_freeAll hnodup hmem (Nat.lt_succ_self _)
  cases hnil
  refine ⟨l.map Prod.fst, l.length + 1, h₁, hlist, hnone, ?_⟩
  rw [← List.append_nil (l.map Prod.fst)]
  exact history_perm (p := fun s a => (s.heap.node a).isSome)
    (fun _ _ _ hstep => MutexSt.count_step hstep) hrun (fun _ => rfl) hnodup hmem

/-- Node `7` is freed by a `Delete` that waited for the mutex, and its address is returned again. -/
theorem mutexSortedList_released_reused :
    ∃ (chain : List ℕ) (fuel : ℕ) (s : MutexSt 2 ℕ ℕ ℕ) (h' : Heap ℕ (List ℕ)),
      s.heap.root = some 7 ∧ s.heap.freeChain fuel = some (chain, h') ∧
      (∀ a, h'.node a = none) ∧ ([7] ++ chain).Perm [7, 7, 8] := by
  let accesses (t : Fin 2) (k fresh : ℕ) : List (MutexAct 2 ℕ ℕ) :=
    List.replicate k (.resume t fresh)
  let tr : List (MutexAct 2 ℕ ℕ) :=
    .call 0 (.insert 412) :: accesses 0 2 0 ++ .call 1 (.delete 412) :: accesses 0 3 7 ++
      accesses 1 12 0 ++ .call 0 (.insert 300) :: accesses 0 5 7 ++
      .call 1 (.insert 500) :: accesses 1 17 8
  have hall : (run (MutexSt.step digits) (MutexSt.init : MutexSt 2 ℕ ℕ ℕ) tr).map
      (fun s => (s.pc 0, s.pc 1, s.heap.root)) =
        some (.outside none, .outside none, some 7) := by
    decide +kernel
  have hfreed : history (fun s a _ => s.freed a) (MutexSt.step digits)
      (MutexSt.init : MutexSt 2 ℕ ℕ ℕ) tr = [7] := by
    decide +kernel
  have hallocated : history (fun s a _ => s.allocated a) (MutexSt.step digits)
      (MutexSt.init : MutexSt 2 ℕ ℕ ℕ) tr = [7, 7, 8] := by
    decide +kernel
  obtain ⟨s, hrun, hs⟩ := Option.map_eq_some_iff.mp hall
  obtain ⟨h0, hs⟩ := Prod.mk.inj hs
  obtain ⟨h1, hroot⟩ := Prod.mk.inj hs
  have hquiet : ∀ t, ∃ ret, s.pc t = .outside ret := by
    rw [Fin.forall_fin_two]
    exact ⟨⟨_, h0⟩, ⟨_, h1⟩⟩
  obtain ⟨chain, fuel, h', hlist, hnone, hperm⟩ := mutexSortedList_released digits hrun hquiet
  rw [hfreed, hallocated] at hperm
  exact ⟨chain, fuel, s, h', hroot, hlist, hnone, hperm⟩

end OptLock
