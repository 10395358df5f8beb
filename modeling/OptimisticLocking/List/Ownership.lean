import OptimisticLocking.Library.Transition
import OptimisticLocking.List.Calls
import Mathlib.Data.List.FinRange
import Mathlib.Data.List.Perm.Basic

/-!
# Where the nodes are

Every node that `NewNode` ever allocated is in the chain, in one limbo list, or freed.  The
comparison of the values plays no part in this, so it is arbitrary here.

* `OptimisticSortedList.step` — completed calls mixed with `AdvanceGlobalEpoch` and
  `FreeOutdatedPtr`.
* `ListMem.Accounts` — the addresses of the chain, those waiting to be freed and those freed are
  together a permutation of all addresses handed out, so each is there once.
* **`nodes_accounted`** — the partition in every reachable state, and what the destructors do.
-/

namespace OptLock

open LinkedList Transition

/-! ## The limbo lists -/

namespace EpochHandler

variable {n : ℕ} {Ptr : Type}

/-- Changing one of the lists changes that part of their concatenation. -/
lemma flatMap_update_perm {α : Type} (f : Fin n → List α) (t : Fin n) (x : List α) :
    ((List.finRange n).flatMap (Function.update f t x)).Perm
      (x ++ ((List.finRange n).erase t).flatMap f) := by
  have hsplit := List.perm_cons_erase (List.mem_finRange t)
  refine (hsplit.flatMap_right _).trans ?_
  have hrest : ((List.finRange n).erase t).flatMap (Function.update f t x) =
      ((List.finRange n).erase t).flatMap f := by
    refine List.flatMap_congr ?_
    intro u hu
    have hne : u ≠ t := by
      rintro rfl
      exact (List.nodup_finRange n).not_mem_erase hu
    exact Function.update_of_ne hne ..
  rw [List.flatMap_cons, Function.update_self, hrest]

lemma destroy_perm (h : EpochHandler n Ptr) (t : Fin n) :
    h.destroy.Perm ((h.toFreePtr t).map (·.ptr) ++
      ((List.finRange n).erase t).flatMap fun u => (h.toFreePtr u).map (·.ptr)) := by
  have hself := flatMap_update_perm (fun u => (h.toFreePtr u).map (·.ptr)) t
    ((h.toFreePtr t).map (·.ptr))
  rwa [Function.update_eq_self] at hself

lemma destroy_update (h : EpochHandler n Ptr) (t : Fin n) (l : List (ToFreePointer Ptr)) :
    destroy { h with toFreePtr := Function.update h.toFreePtr t l } =
      (List.finRange n).flatMap
        (Function.update (fun u => (h.toFreePtr u).map (·.ptr)) t (l.map (·.ptr))) := by
  refine List.flatMap_congr ?_
  intro u _
  by_cases hu : u = t
  · subst hu
    simp
  · simp [Function.update_of_ne hu]

/-- A deferral adds one entry to one list. -/
lemma destroy_deferFreePointer (h : EpochHandler n Ptr) (t : Fin n) (p : Ptr) :
    (h.deferFreePointer t p).destroy.Perm (p :: h.destroy) := by
  have hupdate := destroy_update h t (h.toFreePtr t ++ [⟨p, h.localEpoch t⟩])
  rw [deferFreePointer, hupdate]
  refine (flatMap_update_perm _ t _).trans ?_
  rw [List.map_append, List.append_assoc]
  exact List.perm_middle.trans ((h.destroy_perm t).symm.cons p)

/-- What `FreeOutdatedPtr` frees is exactly what it erases. -/
lemma destroy_freeOutdatedPtr (h : EpochHandler n Ptr) (t : Fin n) :
    h.destroy.Perm ((h.freeOutdatedPtr t).1 ++ (h.freeOutdatedPtr t).2.destroy) := by
  have hupdate := destroy_update h t
    ((h.toFreePtr t).drop (outdatedCount h.minEpoch (h.toFreePtr t)))
  simp only [freeOutdatedPtr]
  rw [hupdate]
  refine (h.destroy_perm t).trans ?_
  refine List.Perm.trans ?_ ((flatMap_update_perm _ t _).symm.append_left _)
  rw [← List.append_assoc, ← List.map_append, List.take_append_drop]

end EpochHandler

/-! ## Accounting for the nodes of one list -/

namespace ListMem

variable {T : Type} {cmp : T → T → Ordering} {m m' : ListMem T} {l : List (ℕ × T)}
  {limbo : List ℕ} {value : T}

/-- Each address handed out is exactly once in the chain `l`, in `limbo` or among the freed. -/
structure Accounts (m : ListMem T) (l : List (ℕ × T)) (limbo : List ℕ) : Prop where
  chain : m.Chain l
  perm : (l.map Prod.fst ++ limbo ++ m.freed).Perm (List.range m.allocated)

lemma accounts_empty : (empty : ListMem T).Accounts [] [] := ⟨rfl, .refl _⟩

lemma Accounts.of_perm {limbo' : List ℕ} (h : m.Accounts l limbo) (hperm : limbo'.Perm limbo) :
    m.Accounts l limbo' :=
  ⟨h.chain, ((hperm.append_left _).append_right _).trans h.perm⟩

/-- A waiting address can be freed, and then it is among the freed. -/
lemma Accounts.free {a : ℕ} (h : m.Accounts l (a :: limbo)) :
    ∃ m', m.free a = .ok m' ∧ m'.Accounts l limbo ∧ m'.allocated = m.allocated := by
  have hperm : (a :: (l.map Prod.fst ++ limbo ++ m.freed)).Perm (List.range m.allocated) := by
    have hmiddle : (a :: (l.map Prod.fst ++ (limbo ++ m.freed))).Perm
        (l.map Prod.fst ++ a :: (limbo ++ m.freed)) := List.perm_middle.symm
    refine List.Perm.trans ?_ h.perm
    simpa using hmiddle
  have hlt : a < m.allocated := List.mem_range.mp (hperm.mem_iff.mp (by simp))
  have hout : a ∉ l.map Prod.fst ++ limbo ++ m.freed :=
    (List.nodup_cons.mp (hperm.nodup_iff.mpr List.nodup_range)).1
  simp only [List.mem_append, not_or] at hout
  obtain ⟨m', hfree, hchain, halloc, hfreed⟩ := h.chain.free_eq hlt hout.2 hout.1.1
  refine ⟨m', hfree, ⟨hchain, ?_⟩, halloc⟩
  rw [halloc, hfreed, ← List.append_assoc]
  exact (List.perm_append_singleton _ _).trans hperm

/-- The loops that free one address after the other. -/
lemma Accounts.freeAll (ptrs : List ℕ) (h : m.Accounts l (ptrs ++ limbo)) :
    ∃ m', ptrs.foldlM ListMem.free m = .ok m' ∧ m'.Accounts l limbo ∧
      m'.allocated = m.allocated := by
  induction ptrs generalizing m with
  | nil => exact ⟨m, rfl, h, rfl⟩
  | cons a ptrs ih =>
      obtain ⟨m₁, hfree, h₁, halloc₁⟩ := h.free
      obtain ⟨m₂, hrest, h₂, halloc₂⟩ := ih h₁
      exact ⟨m₂, by simp [hfree, hrest], h₂, halloc₂.trans halloc₁⟩

/-- The destructor of a list moves the chain to the freed. -/
lemma Accounts.destroyChain {fuel : ℕ} (h : m.Accounts l limbo) (hfuel : l.length < fuel) :
    ∃ m', ListMem.destroyChain fuel m = .ok m' ∧ m'.Accounts [] limbo ∧
      m'.allocated = m.allocated := by
  induction l generalizing m fuel with
  | nil =>
      cases fuel with
      | zero => cases hfuel
      | succ fuel =>
          have hroot : m.heap.root = none := h.chain
          exact ⟨m, by simp [ListMem.destroyChain, hroot], h, rfl⟩
  | cons c l ih =>
      cases fuel with
      | zero => cases hfuel
      | succ fuel =>
          have hc : m.Chain ([] ++ c :: l) := h.chain
          have hroot : m.heap.root = some c.1 := Heap.Chain.root_eq h.chain
          have hderef := hc.deref_eq
          have hnodup := h.chain.nodup
          rw [List.map_cons, List.nodup_cons] at hnodup
          obtain ⟨hlt, hout⟩ := (m.live c.1).mp (by simp [hc.node_eq])
          obtain ⟨m₁, hfree, hheap, halloc₁, hfreed⟩ := m.free_eq hlt hout
          -- the rest of the chain does not use the freed node
          have hnext : (m₁.link none (firstAddr l)).Accounts l limbo := by
            refine ⟨?_, ?_⟩
            · show Heap.Seg m₁.heap.node (firstAddr l) l none
              rw [hheap]
              have htail : m.heap.Chain ([c] ++ l) := h.chain
              exact htail.tail.update_of_notMem hnodup.1
            · show (l.map Prod.fst ++ limbo ++ m₁.freed).Perm (List.range m₁.allocated)
              rw [hfreed, halloc₁, ← List.append_assoc]
              exact (List.perm_append_singleton _ _).trans h.perm
          obtain ⟨m₂, hrest, h₂, halloc₂⟩ := ih hnext (Nat.lt_of_succ_lt_succ hfuel)
          exact ⟨m₂, by simp [ListMem.destroyChain, hroot, hderef, hfree, hrest], h₂,
            halloc₂.trans halloc₁⟩

lemma InsertEffect.accounts (heffect : InsertEffect cmp m value l (.ok m'))
    (h : m.Accounts l limbo) : ∃ l', m'.Accounts l' limbo := by
  have hperm := h.perm
  cases heffect with
  | splice l₁ l₂ hl hlt hstop m' hchain halloc hfreed =>
      subst hl
      refine ⟨_, hchain, ?_⟩
      rw [halloc, hfreed, List.range_succ]
      refine List.Perm.trans ?_ (hperm.append_right [m.allocated])
      refine List.Perm.trans ?_ (List.perm_append_singleton _ _).symm
      simp
  | overwrite l₁ c l₂ hl heq m' hchain halloc hfreed =>
      subst hl
      refine ⟨_, hchain, ?_⟩
      rw [halloc, hfreed]
      simpa using hperm

lemma DeleteEffect.accounts {out : ListMem T × Option ℕ}
    (heffect : DeleteEffect cmp m value l out) (h : m.Accounts l limbo) :
    ∃ l', out.1.Accounts l' (out.2.toList ++ limbo) := by
  have hperm := h.perm
  cases heffect with
  | unlink l₁ c l₂ hl hlt heq m' hchain halloc hfreed =>
      subst hl
      refine ⟨_, hchain, ?_⟩
      rw [halloc, hfreed]
      refine List.Perm.trans ?_ hperm
      simp only [List.map_append, List.map_cons, Option.toList_some, List.append_assoc,
        List.cons_append]
      rw [List.perm_append_left_iff]
      exact List.perm_middle
  | absent l₁ l₂ hl hlt hstop => exact ⟨l, h⟩

lemma Accounts.insertInto (h : m.Accounts l limbo) (hok : m.insertInto cmp value = .ok m') :
    ∃ l', m'.Accounts l' limbo := by
  have heffect := h.chain.insertInto_effect cmp value
  rw [hok] at heffect
  exact heffect.accounts h

lemma Accounts.deleteFrom {current : Option ℕ} (h : m.Accounts l limbo)
    (hok : m.deleteFrom cmp value = .ok (m', current)) :
    ∃ l', m'.Accounts l' (current.toList ++ limbo) := by
  obtain ⟨out, hok', heffect⟩ := h.chain.deleteFrom_effect cmp value
  obtain rfl : out = (m', current) := Except.ok.inj (hok'.symm.trans hok)
  exact heffect.accounts h

/-- The destructor of a list leaves nothing but what others hold. -/
lemma Accounts.destroy (h : m.Accounts l limbo) :
    ∃ m', ListMem.destroyChain (m.allocated + 1) m = .ok m' ∧ m'.Accounts [] limbo ∧
      m'.allocated = m.allocated :=
  h.destroyChain (Nat.lt_succ_of_le h.chain.length_le)

lemma Accounts.freed_perm (h : m.Accounts [] []) : m.freed.Perm (List.range m.allocated) := by
  simpa using h.perm

end ListMem

/-! ## `MutexSortedList` -/

namespace MutexSortedList

variable {T : Type} (cmp : T → T → Ordering)

/-- A completed call.  `delete_returns`: a `Delete` is never cut short by its `free`. -/
def step (s : MutexSortedList T) (c : Call T) : Option (MutexSortedList T) :=
  match MutexSortedList.call cmp s c with
  | .ok (_, s') => some s'
  | .error _ => none

variable {cmp} {s s' : MutexSortedList T}

lemma step_accounts {c : Call T} (h : ∃ l, s.Accounts l []) (hstep : step cmp s c = some s') :
    ∃ l, s'.Accounts l [] := by
  obtain ⟨l, h⟩ := h
  obtain ⟨out, hcall⟩ : ∃ out, MutexSortedList.call cmp s c = .ok (out, s') := by
    simp only [step] at hstep
    split at hstep
    · next out s₁ hcall => exact ⟨out, by rw [hcall, Option.some.inj hstep]⟩
    · cases hstep
  cases c with
  | insert value =>
      obtain ⟨m', hok, hout⟩ := Fault.bind_eq_ok.mp hcall
      cases hout
      exact h.insertInto hok
  | lookUp value result =>
      obtain ⟨found, -, hout⟩ := Fault.bind_eq_ok.mp hcall
      cases hout
      exact ⟨l, h⟩
  | delete value =>
      obtain ⟨found, hdelete, hout⟩ := Fault.bind_eq_ok.mp hcall
      cases hout
      obtain ⟨⟨m', current⟩, hok, hrest⟩ := Fault.bind_eq_ok.mp hdelete
      obtain ⟨l', h'⟩ := h.deleteFrom hok
      cases current with
      | none =>
          cases hrest
          exact ⟨l', h'⟩
      | some a =>
          obtain ⟨m₁, hfree, h₁, -⟩ := h'.free
          obtain ⟨m₂, hfree', hout⟩ := Fault.bind_eq_ok.mp hrest
          obtain rfl : m₁ = m₂ := Except.ok.inj (hfree.symm.trans hfree')
          cases hout
          exact ⟨l', h₁⟩

/-- A `Delete` returns: the node that it has unlinked can be freed. -/
lemma delete_returns (h : ∃ l, s.Accounts l []) (value : T) :
    ∃ out, MutexSortedList.delete cmp s value = .ok out := by
  obtain ⟨l, h⟩ := h
  obtain ⟨⟨m', current⟩, hok, heffect⟩ := h.chain.deleteFrom_effect cmp value
  obtain ⟨l', h'⟩ := heffect.accounts h
  cases current with
  | none => exact ⟨(false, m'), by simp [MutexSortedList.delete, hok]⟩
  | some a =>
      obtain ⟨m₁, hfree, -, -⟩ := h'.free
      exact ⟨(true, m₁), by simp [MutexSortedList.delete, hok, hfree]⟩

theorem accounts {calls : List (Call T)} (hrun : run (step cmp) ListMem.empty calls = some s) :
    ∃ l, s.Accounts l [] :=
  run_invariant (I := fun s : MutexSortedList T => ∃ l, s.Accounts l [])
    (fun _ _ _ h hstep => step_accounts h hstep) ⟨[], ListMem.accounts_empty⟩ hrun

end MutexSortedList

/-! ## `OptimisticSortedList` -/

/-- What happens to a list and its handler: completed calls by the threads, and reclamation. -/
inductive ListEvent (T : Type)
  | call (tid : ℕ) (c : Call T)
  | advanceGlobalEpoch
  | freeOutdatedPtr (tid : ℕ)
  deriving DecidableEq, Repr

namespace OptimisticSortedList

variable {T : Type} {n : ℕ} (cmp : T → T → Ordering)

def step (s : OptimisticSortedList T n) : ListEvent T → Option (OptimisticSortedList T n)
  | .call tid c =>
      match s.call cmp tid c with
      | .ok (_, s') => some s'
      | .error _ => none
  | .advanceGlobalEpoch => some s.advanceGlobalEpoch
  | .freeOutdatedPtr tid =>
      match s.freeOutdatedPtr tid with
      | .ok s' => some s'
      | .error _ => none

/-- Each node is once in the chain, in one entry of one limbo list, or freed once. -/
def Accounted (s : OptimisticSortedList T n) : Prop := ∃ l, s.mem.Accounts l s.epoch.destroy

variable {cmp} {s s' : OptimisticSortedList T n}

lemma accounted_init : (init : OptimisticSortedList T n).Accounted := by
  refine ⟨[], rfl, ?_⟩
  have hnone : (EpochHandler.init : EpochHandler n ℕ).destroy = [] := by
    simp [EpochHandler.destroy, EpochHandler.init]
  simp [init, hnone, ListMem.empty]

lemma lockExclusive_ok (h : s.lockExclusive = .ok s') : s'.mem = s.mem ∧ s'.epoch = s.epoch := by
  simp only [lockExclusive] at h
  split at h <;> cases h
  exact ⟨rfl, rfl⟩

lemma unlockExclusive_ok (h : s.unlockExclusive = .ok s') :
    s'.mem = s.mem ∧ s'.epoch = s.epoch := by
  simp only [unlockExclusive] at h
  split at h <;> cases h
  exact ⟨rfl, rfl⟩

lemma slot_ok {tid : ℕ} {t : Fin n} (h : slot tid = .ok t) : tid = t := by
  simp only [slot] at h
  split at h <;> cases h
  rfl

lemma Accounted.insert {value : T} (h : s.Accounted) (hok : s.insert cmp value = .ok s') :
    s'.Accounted := by
  obtain ⟨l, h⟩ := h
  obtain ⟨s₁, hlock, hrest⟩ := Fault.bind_eq_ok.mp hok
  obtain ⟨mem, hbody, hunlock⟩ := Fault.bind_eq_ok.mp hrest
  obtain ⟨hmem, hepoch⟩ := lockExclusive_ok hlock
  obtain ⟨hmem', hepoch'⟩ := unlockExclusive_ok hunlock
  rw [hmem] at hbody
  obtain ⟨l', h'⟩ := h.insertInto hbody
  refine ⟨l', ?_⟩
  rw [hmem', hepoch']
  simpa only [hepoch] using h'

lemma Accounted.delete {tid : ℕ} {value : T} {found : Bool} (h : s.Accounted)
    (hok : s.delete cmp tid value = .ok (found, s')) : s'.Accounted := by
  obtain ⟨l, h⟩ := h
  obtain ⟨s₁, hlock, hrest⟩ := Fault.bind_eq_ok.mp hok
  obtain ⟨⟨mem, current⟩, hbody, hrest⟩ := Fault.bind_eq_ok.mp hrest
  obtain ⟨hmem, hepoch⟩ := lockExclusive_ok hlock
  rw [hmem] at hbody
  obtain ⟨l', h'⟩ := h.deleteFrom hbody
  refine ⟨l', ?_⟩
  cases current with
  | none =>
      obtain ⟨s₂, hunlock, hout⟩ := Fault.bind_eq_ok.mp hrest
      cases hout
      obtain ⟨hmem', hepoch'⟩ := unlockExclusive_ok hunlock
      rw [hmem', hepoch']
      simpa only [hepoch, Option.toList_none, List.nil_append] using h'
  | some a =>
      obtain ⟨t, -, hrest⟩ := Fault.bind_eq_ok.mp hrest
      obtain ⟨s₂, hunlock, hout⟩ := Fault.bind_eq_ok.mp hrest
      cases hout
      obtain ⟨hmem', hepoch'⟩ := unlockExclusive_ok hunlock
      rw [hmem', hepoch']
      simp only [deferFreePointer, hepoch]
      exact h'.of_perm (s.epoch.destroy_deferFreePointer t a)

/-- `LookUp` changes no node and no limbo list. -/
lemma Accounted.lookUp {tid : ℕ} {value result : T} {out : Bool × T} (h : s.Accounted)
    (hok : s.lookUp cmp tid value result = .ok (out, s')) : s'.Accounted := by
  obtain ⟨t, -, hrest⟩ := Fault.bind_eq_ok.mp hok
  dsimp only at hrest
  split at hrest
  · cases hrest
  obtain ⟨found, -, hrest⟩ := Fault.bind_eq_ok.mp hrest
  split at hrest
  · cases hrest
  cases hrest
  exact h

/-- `FreeOutdatedPtr` never fails on a list that accounts for its nodes. -/
lemma Accounted.freeOutdatedPtr (h : s.Accounted) (t : Fin n) :
    ∃ s', s.freeOutdatedPtr t = .ok s' ∧ s'.Accounted := by
  obtain ⟨l, h⟩ := h
  have hslot : slot (n := n) t = .ok t := dif_pos t.isLt
  obtain ⟨m', hfree, h', -⟩ :=
    (h.of_perm (s.epoch.destroy_freeOutdatedPtr t).symm).freeAll _
  refine ⟨{ s with mem := m', epoch := (s.epoch.freeOutdatedPtr t).2 }, ?_, l, h'⟩
  simp [OptimisticSortedList.freeOutdatedPtr, hslot, hfree]

lemma step_accounted {e : ListEvent T} (h : s.Accounted) (hstep : step cmp s e = some s') :
    s'.Accounted := by
  cases e with
  | call tid c =>
      obtain ⟨out, hcall⟩ : ∃ out, s.call cmp tid c = .ok (out, s') := by
        simp only [step] at hstep
        split at hstep
        · next out s₁ hcall => exact ⟨out, by rw [hcall, Option.some.inj hstep]⟩
        · cases hstep
      cases c with
      | insert value =>
          obtain ⟨s₁, hok, hout⟩ := Fault.bind_eq_ok.mp hcall
          cases hout
          exact h.insert hok
      | lookUp value result =>
          obtain ⟨⟨found, s₁⟩, hok, hout⟩ := Fault.bind_eq_ok.mp hcall
          cases hout
          exact h.lookUp hok
      | delete value =>
          obtain ⟨⟨found, s₁⟩, hok, hout⟩ := Fault.bind_eq_ok.mp hcall
          cases hout
          exact h.delete hok
  | advanceGlobalEpoch =>
      cases hstep
      exact h
  | freeOutdatedPtr tid =>
      simp only [step] at hstep
      split at hstep
      · next s₁ hok =>
          obtain rfl : s₁ = s' := Option.some.inj hstep
          obtain ⟨t, hslot, -⟩ := Fault.bind_eq_ok.mp hok
          obtain ⟨s₂, hok', h₂⟩ := h.freeOutdatedPtr t
          rw [slot_ok hslot] at hok
          exact Except.ok.inj (hok'.symm.trans hok) ▸ h₂
      · cases hstep

theorem accounted {tr : List (ListEvent T)} (hrun : run (step cmp) init tr = some s) :
    s.Accounted :=
  run_invariant (fun _ _ _ h hstep => step_accounted h hstep) accounted_init hrun

/-- The list first, then the handler. -/
lemma Accounted.destroyList_destroyEpoch (h : s.Accounted) :
    ∃ s₁ s₂, s.destroyList = .ok s₁ ∧ s₁.destroyEpoch = .ok s₂ ∧
      s₂.mem.freed.Perm (List.range s.mem.allocated) := by
  obtain ⟨l, h⟩ := h
  obtain ⟨m₁, hlist, h₁, halloc₁⟩ := h.destroy
  rw [← List.append_nil s.epoch.destroy] at h₁
  obtain ⟨m₂, hepoch, h₂, halloc₂⟩ := h₁.freeAll _
  refine ⟨{ s with mem := m₁ }, { s with mem := m₂ }, ?_, ?_, ?_⟩
  · simp [destroyList, hlist]
  · simp [destroyEpoch, hepoch]
  · exact halloc₁ ▸ halloc₂ ▸ h₂.freed_perm

/-- The handler first, then the list. -/
lemma Accounted.destroyEpoch_destroyList (h : s.Accounted) :
    ∃ s₁ s₂, s.destroyEpoch = .ok s₁ ∧ s₁.destroyList = .ok s₂ ∧
      s₂.mem.freed.Perm (List.range s.mem.allocated) := by
  obtain ⟨l, h⟩ := h
  rw [← List.append_nil s.epoch.destroy] at h
  obtain ⟨m₁, hepoch, h₁, halloc₁⟩ := h.freeAll _
  obtain ⟨m₂, hlist, h₂, halloc₂⟩ := h₁.destroy
  refine ⟨{ s with mem := m₁ }, { s with mem := m₂ }, ?_, ?_, ?_⟩
  · simp [destroyEpoch, hepoch]
  · simp [destroyList, hlist]
  · exact halloc₁ ▸ halloc₂ ▸ h₂.freed_perm

end OptimisticSortedList

/-! ## Both lists -/

/-- **Nodes are neither lost nor freed twice.**  The addresses are the numbers below `allocated`.
In every reachable state those in the chain, those in the limbo lists (`EpochHandler.destroy` is
their concatenation) and those freed are a permutation of them; neither `FreeOutdatedPtr` nor the
`free` in `MutexSortedList::Delete` ever fails; and after the destructors, in either order, the
freed addresses are such a permutation. -/
theorem nodes_accounted {T : Type} (cmp : T → T → Ordering) :
    (∀ n tr (s : OptimisticSortedList T n),
      run (OptimisticSortedList.step cmp) OptimisticSortedList.init tr = some s →
        (∃ l, s.mem.Chain l ∧ (l.map Prod.fst ++ s.epoch.destroy ++ s.mem.freed).Perm
          (List.range s.mem.allocated)) ∧
        (∀ t : Fin n, ∃ s', s.freeOutdatedPtr t = .ok s') ∧
        (∃ s₁ s₂, s.destroyList = .ok s₁ ∧ s₁.destroyEpoch = .ok s₂ ∧
          s₂.mem.freed.Perm (List.range s.mem.allocated)) ∧
        (∃ s₁ s₂, s.destroyEpoch = .ok s₁ ∧ s₁.destroyList = .ok s₂ ∧
          s₂.mem.freed.Perm (List.range s.mem.allocated))) ∧
    (∀ calls (s : MutexSortedList T),
      run (MutexSortedList.step cmp) ListMem.empty calls = some s →
        (∃ l, s.Chain l ∧ (l.map Prod.fst ++ s.freed).Perm (List.range s.allocated)) ∧
        (∀ value, ∃ out, MutexSortedList.delete cmp s value = .ok out) ∧
        ∃ m, MutexSortedList.destroy s = .ok m ∧ m.freed.Perm (List.range s.allocated)) := by
  constructor
  · intro n tr s hrun
    have h := OptimisticSortedList.accounted hrun
    refine ⟨?_, ?_, h.destroyList_destroyEpoch, h.destroyEpoch_destroyList⟩
    · obtain ⟨l, hl⟩ := h
      exact ⟨l, hl.chain, hl.perm⟩
    · intro t
      obtain ⟨s', hok, -⟩ := h.freeOutdatedPtr t
      exact ⟨s', hok⟩
  · intro calls s hrun
    have haccounts := MutexSortedList.accounts hrun
    refine ⟨?_, MutexSortedList.delete_returns haccounts, ?_⟩
    · obtain ⟨l, h⟩ := haccounts
      exact ⟨l, h.chain, by simpa using h.perm⟩
    · obtain ⟨l, h⟩ := haccounts
      obtain ⟨m, hdestroy, hm, halloc⟩ := h.destroy
      exact ⟨m, hdestroy, halloc ▸ hm.freed_perm⟩

/-- A node in each of the three places: thread `1` deletes in epoch 0, the epoch advances, and
thread `1` frees; then thread `0`, back from a `LookUp`, deletes.  And a `MutexSortedList` with a
node in each of its two places, which its destructor then frees. -/
theorem nodes_accounted_three_places :
    (∃ s, run (OptimisticSortedList.step (compare : ℕ → ℕ → Ordering))
        (OptimisticSortedList.init : OptimisticSortedList ℕ 2)
        [.call 0 (.insert 3), .call 0 (.insert 2), .call 0 (.insert 1), .call 1 (.delete 2),
          .call 0 (.lookUp 1 0), .advanceGlobalEpoch, .call 1 (.lookUp 1 0), .freeOutdatedPtr 1,
          .call 0 (.delete 1)] = some s ∧
      s.mem.heap.root = some 0 ∧ s.epoch.destroy = [2] ∧ s.mem.freed = [1] ∧
      ∃ l, s.mem.Chain l ∧ (l.map Prod.fst ++ s.epoch.destroy ++ s.mem.freed).Perm
        (List.range s.mem.allocated)) ∧
    ∃ s m : MutexSortedList ℕ, run (MutexSortedList.step compare) ListMem.empty
        [.insert 2, .insert 1, .delete 2] = some s ∧
      s.heap.root = some 1 ∧ s.freed = [0] ∧ (∃ out, MutexSortedList.delete compare s 1 = .ok out) ∧
      MutexSortedList.destroy s = .ok m ∧ m.freed.Perm [0, 1] := by
  constructor
  · have hrun : ∃ s, run (OptimisticSortedList.step (compare : ℕ → ℕ → Ordering))
        (OptimisticSortedList.init : OptimisticSortedList ℕ 2)
        [.call 0 (.insert 3), .call 0 (.insert 2), .call 0 (.insert 1), .call 1 (.delete 2),
          .call 0 (.lookUp 1 0), .advanceGlobalEpoch, .call 1 (.lookUp 1 0), .freeOutdatedPtr 1,
          .call 0 (.delete 1)] = some s := ⟨_, rfl⟩
    obtain ⟨s, hrun⟩ := hrun
    refine ⟨s, hrun, ?_, ?_, ?_, ((nodes_accounted compare).1 2 _ s hrun).1⟩
    all_goals
      cases hrun
      rfl
  · have hrun : ∃ s : MutexSortedList ℕ, run (MutexSortedList.step compare) ListMem.empty
        [.insert 2, .insert 1, .delete 2] = some s ∧
        s.heap.root = some 1 ∧ s.freed = [0] ∧ s.allocated = 2 := ⟨_, rfl, rfl, rfl, rfl⟩
    obtain ⟨s, hrun, hroot, hfreed, hallocated⟩ := hrun
    obtain ⟨-, hdelete, m, hdestroy, hperm⟩ := (nodes_accounted compare).2 _ s hrun
    rw [hallocated] at hperm
    exact ⟨s, m, hrun, hroot, hfreed, hdelete 1, hdestroy, hperm⟩

end OptLock
