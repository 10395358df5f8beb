import OptimisticLocking.List.ChainInvariant

/-!
# `LookUp` is linearizable

A `LookUp` walks the chain without the lock.  What it knows is worth nothing once a writer has
come in between, but then the validation throws: the version of its snapshot is gone for good.
So what it knows is stated under the condition that the validation would succeed now, and the
load of the validation is the moment at which the answer is right.

* `ReaderInv` — what a `LookUp` knows as long as its snapshot is valid.
* `Answers` — the list answers a `LookUp` as it did.
* **`lookUp_linearizable`** — every `LookUp` that returns was answered by the list at one moment
  of the call.
-/

namespace OptLock

open LinkedList OrderedList HybridLock Transition

/-! ## What a `LookUp` knows -/

structure ReaderInv {n : ℕ} {T A W : Type} {cmp : T → T → Ordering} (L : Layout W cmp)
    (s : ListSt n T A W) (l : List (A × List W)) : Prop where
  version : ∀ t, (version (s.state t)).toNat ≤ s.lock.releases
  reader : ∀ t, HybridGuard.mustRestart (s.state t) s.lock.stateAndVersion = false →
    PcOk L s.heap (s.result t) l (s.pc t)

lemma mustRestart_eq_false {state latestState : Word}
    (h : HybridGuard.mustRestart state latestState = false) :
    lockState latestState ≠ HybridLock.exclusive ∧ version latestState = version state := by
  simpa [HybridGuard.mustRestart] using h

namespace ReaderInv

variable {n : ℕ} {T A W : Type} {cmp : T → T → Ordering} {L : Layout W cmp}
  {s s' : ListSt n T A W} {l l' : List (A × List W)} {t : Fin n} {pc : ListPc T A W}

lemma init : ReaderInv L (ListSt.init : ListSt n T A W) [] where
  version := fun _ => (by decide : (HybridLock.version 0).toNat ≤ 0)
  reader := fun _ _ => trivial

/-- A snapshot that is valid shows a list that nobody is changing. -/
lemma free_of_valid (h : ListInv L s l) {state : Word}
    (hvalid : HybridGuard.mustRestart state s.lock.stateAndVersion = false) :
    s.lock.exclusive = 0 :=
  h.lock.exclusive_eq_zero_iff.mpr (mustRestart_eq_false hvalid).1

/-- While the lock is held, no snapshot is valid. -/
lemma of_exclusive (h' : ListInv L s' l') (ht : t ∈ s'.lock.exclusive)
    (hversion : ∀ u, (HybridLock.version (s'.state u)).toNat ≤ s'.lock.releases) :
    ReaderInv L s' l' where
  version := hversion
  reader := by
    intro u hvalid
    rw [free_of_valid h' hvalid] at ht
    exact absurd ht (Multiset.notMem_zero t)

/-- A step of `t` that leaves the lock, and the nodes that other threads know of. -/
lemma frame (h : ReaderInv L s l) (hlock : s'.lock = s.lock)
    (hpc : s'.pc = Function.update s.pc t pc) (hstate : ∀ u, u ≠ t → s'.state u = s.state u)
    (hversion : (HybridLock.version (s'.state t)).toNat ≤ s.lock.releases)
    (hresult : ∀ u, u ≠ t → s'.result u = s.result u)
    (hheap : ∀ u, u ≠ t → ∀ a ∈ (s.pc u).inFlight, s'.heap.node a = s.heap.node a)
    (hok : HybridGuard.mustRestart (s'.state t) s.lock.stateAndVersion = false →
      PcOk L s'.heap (s'.result t) l pc) : ReaderInv L s' l where
  version := by
    intro u
    rw [hlock]
    by_cases hu : u = t
    · rw [hu]
      exact hversion
    · rw [hstate u hu]
      exact h.version u
  reader := by
    intro u hvalid
    rw [hlock] at hvalid
    rw [hpc]
    by_cases hu : u = t
    · subst hu
      rw [Function.update_self]
      exact hok hvalid
    · rw [hstate u hu] at hvalid
      rw [Function.update_of_ne hu, hresult u hu]
      exact (h.reader u hvalid).of_heap (hheap u hu)

/-- A step of `t` that leaves the snapshots, the outputs and the nodes as well. -/
lemma frame_local (h : ReaderInv L s l) (hlock : s'.lock = s.lock)
    (hpc : s'.pc = Function.update s.pc t pc) (hstate : s'.state = s.state)
    (hresult : s'.result = s.result) (hheap : s'.heap = s.heap)
    (hok : HybridGuard.mustRestart (s.state t) s.lock.stateAndVersion = false →
      PcOk L s.heap (s.result t) l pc) : ReaderInv L s' l := by
  refine h.frame hlock hpc (fun u _ => by rw [hstate]) ?_ (fun u _ => by rw [hresult])
    (fun u _ a _ => by rw [hheap]) ?_
  · rw [hstate]
    exact h.version t
  · rw [hstate, hresult, hheap]
    exact hok

/-- When the lock is released, every snapshot is out of date. -/
lemma unlocking (h : ReaderInv L s l) (hinv : ListInv L s l) (h' : ListInv L s' l')
    {ret : Option Bool} (hpc : s.pc t = .unlocking ret)
    (hstep : s.lock.step (.resume t false) = some s'.lock) (hstate : s'.state = s.state)
    (hfew : s'.lock.releases < 2 ^ 56) : ReaderInv L s' l' := by
  have hmem := hinv.mem_of_pc hpc rfl
  rcases hinv.lock.resume_outcome hmem hstep with ⟨hexcl, hreleases, -⟩ | ⟨-, hreleases, -⟩
  · refine of_exclusive (t := t) h' (hexcl ▸ hmem) ?_
    intro u
    rw [hstate, hreleases]
    exact h.version u
  · have hold : ∀ u, (HybridLock.version (s'.state u)).toNat ≤ s.lock.releases := by
      intro u
      rw [hstate]
      exact h.version u
    refine ⟨fun u => (hold u).trans (by omega), ?_⟩
    intro u hvalid
    have hword := h'.lock.version
    rw [(mustRestart_eq_false hvalid).2] at hword
    have := hold u
    omega

end ReaderInv

/-- One more word was copied to the output parameter. -/
lemma PcOk.copied {T A W : Type} {cmp : T → T → Ordering} {L : Layout W cmp}
    {heap : Heap A (List W)} {result : List W} {l : List (A × List W)} {value : T} {current : A}
    {i : ℕ} (h : PcOk L heap result l (.copy value current i)) (hc : heap.Chain l)
    (hstored : Stored L l) {node : Node A (List W)} (hnode : heap.node current = some node)
    {word : W} (hword : node.value[i]? = some word) :
    PcOk L heap (result.set i word) l
      (if i + 1 < L.size then .copy value current (i + 1) else .validate value true) := by
  obtain ⟨l₁, w, l₂, old, rfl, heq, hlen, rfl⟩ := h
  have hsize : w.length = L.size := hstored.length (c := (current, w)) (by simp)
  rw [hc.node_eq, Option.some.injEq] at hnode
  subst hnode
  rw [partly_set (hlen.trans hsize.symm) hword]
  split_ifs with hmore
  · exact ⟨l₁, w, l₂, old, rfl, heq, hlen, rfl⟩
  · exact ⟨(current, w), by simp, heq, partly_length (hlen.trans hsize.symm) (by omega)⟩

namespace ReaderInv

variable {n : ℕ} {T A W : Type} [DecidableEq A] {cmp : T → T → Ordering} {L : Layout W cmp}
  {s s' : ListSt n T A W} {l l' : List (A × List W)}

/-- **The step lemma.** -/
theorem step (h : ReaderInv L s l) (hinv : ListInv L s l) (h' : ListInv L s' l')
    {a : ListAct n T A} (hstep : s.step L a = some s') (hfew : s'.lock.releases < 2 ^ 56) :
    ReaderInv L s' l' := by
  cases ListSt.step_effect hstep with
  | call t c ret hpc =>
      obtain rfl := h'.chain.unique (hinv.call hpc c).chain
      cases c with
      | lookUp value result =>
          exact h.frame rfl rfl (fun _ _ => rfl) (h.version t)
            (fun u hu => Function.update_of_ne hu ..) (fun _ _ _ _ => rfl) fun _ => trivial
      | _ =>
          exact h.frame_local rfl rfl rfl rfl rfl fun _ => trivial
  | freeOutdatedPtr t ret hpc =>
      obtain rfl := h'.chain.unique hinv.chain
      exact h.frame_local rfl rfl rfl rfl rfl fun _ => trivial
  | advanceGlobalEpoch =>
      obtain rfl := h'.chain.unique hinv.chain
      exact ⟨h.version, h.reader⟩
  | read t fresh pc hread =>
      obtain rfl := h'.chain.unique hinv.chain
      refine h.frame_local rfl rfl rfl rfl rfl ?_
      intro hvalid
      exact hread.pcOk hinv.chain (hinv.stored_of_free (free_of_valid hinv hvalid))
        (hinv.result t) (h.reader t hvalid)
  | lockRefused t fresh w old hpc =>
      obtain rfl := h'.chain.unique hinv.chain
      exact h.frame_local rfl rfl rfl rfl rfl fun _ => trivial
  | lockAcquired t fresh w old hpc lock hlock hexcl =>
      refine of_exclusive (t := t) h' (by simp [hexcl]) ?_
      intro u
      exact (h.version u).trans (ListSt.releases_le hstep)
  | newNode t fresh value dst next halloc hfresh =>
      exact of_exclusive (t := t) h' (hinv.allocates halloc).1 h.version
  | overwrite t fresh value current i hpc node hnode word hword =>
      exact of_exclusive (t := t) h' (hinv.mem_of_pc hpc rfl) h.version
  | linkNew t fresh dst target hpc =>
      exact of_exclusive (t := t) h' (hinv.mem_of_pc hpc rfl) h.version
  | linkPast t fresh dst target victim hpc =>
      exact of_exclusive (t := t) h' (hinv.mem_of_pc hpc rfl) h.version
  | deferFreePointer t fresh current hpc =>
      exact of_exclusive (t := t) h' (hinv.mem_of_pc hpc rfl) h.version
  | unlockCall t fresh ret hpc lock hlock =>
      obtain ⟨hexcl, hreleases, -⟩ := LockInv.release_exclusive hlock
      refine of_exclusive (t := t) h' ?_ ?_
      · show t ∈ lock.exclusive
        rw [hexcl]
        exact hinv.mem_of_pc hpc rfl
      · intro u
        show _ ≤ lock.releases
        rw [hreleases]
        exact h.version u
  | unlocking t fresh ret hpc lock hlock => exact h.unlocking hinv h' hpc hlock rfl hfew
  | publish t fresh value epoch hpc =>
      obtain rfl := h'.chain.unique hinv.chain
      exact h.frame_local rfl rfl rfl rfl rfl fun _ => trivial
  | optimisticLock t fresh value hpc =>
      obtain rfl := h'.chain.unique hinv.chain
      refine h.frame rfl rfl (fun u hu => Function.update_of_ne hu ..) ?_ (fun _ _ => rfl)
        (fun _ _ _ _ => rfl) ?_
      · -- the snapshot is as recent as can be
        have hsnap : (HybridLock.version s.lock.stateAndVersion).toNat ≤ s.lock.releases := by
          rw [hinv.lock.version]
          exact Nat.mod_le _ _
        simpa using hsnap
      · intro _
        split_ifs <;> trivial
  | copy t fresh value current i hpc node hnode word hword =>
      obtain rfl := h'.chain.unique hinv.chain
      refine h.frame rfl rfl (fun _ _ => rfl) (h.version t)
        (fun u hu => Function.update_of_ne hu ..) (fun _ _ _ _ => rfl) ?_
      intro hvalid
      have hok := h.reader t hvalid
      have hstored := hinv.stored_of_free (free_of_valid hinv hvalid)
      rw [hpc] at hok
      show PcOk L s.heap (Function.update s.result t _ t) _ _
      rw [Function.update_self]
      exact hok.copied hinv.chain hstored hnode hword
  | leave t fresh value ret hpc =>
      obtain rfl := h'.chain.unique hinv.chain
      refine h.frame_local rfl rfl rfl rfl rfl ?_
      intro _
      cases ret <;> trivial
  | free t fresh m idx hpc e he hold =>
      obtain rfl := h'.chain.unique (hinv.free hpc he).chain
      refine h.frame rfl rfl (fun _ _ => rfl) (h.version t) (fun _ _ => rfl) ?_ fun _ => trivial
      intro u hu a ha
      refine Function.update_of_ne ?_ ..
      rintro rfl
      have hmem : e.ptr ∈ s.held t := by
        rw [ListSt.held_of_freeing hpc he]
        exact List.mem_cons_self
      exact hinv.accounts.notMem_held hu hmem (List.mem_append_left _ ha)
  | erased t fresh m idx hpc =>
      obtain rfl := h'.chain.unique hinv.chain
      exact h.frame_local rfl rfl rfl rfl rfl fun _ => trivial

/-- **The run lemma.** -/
theorem run {s₀ : ListSt n T A W} {tr : List (ListAct n T A)}
    (h₀ : ∃ l, ListInv L s₀ l ∧ ReaderInv L s₀ l)
    (hrun : Transition.run (ListSt.step L) s₀ tr = some s) (hfew : s.lock.releases < 2 ^ 56) :
    ∃ l, ListInv L s l ∧ ReaderInv L s l := by
  have hall := run_invariant
    (I := fun s : ListSt n T A W =>
      ∃ l, ListInv L s l ∧ (s.lock.releases < 2 ^ 56 → ReaderInv L s l)) ?_ ?_ hrun
  · obtain ⟨l, hinv, h⟩ := hall
    exact ⟨l, hinv, h hfew⟩
  · rintro s a s' ⟨l, hinv, h⟩ hstep
    obtain ⟨l', h'⟩ := hinv.step hstep
    refine ⟨l', h', ?_⟩
    intro hfew
    have hle := ListSt.releases_le hstep
    exact (h (by omega)).step hinv h' hstep hfew
  · obtain ⟨l, hinv, h⟩ := h₀
    exact ⟨l, hinv, fun _ => h⟩

end ReaderInv

/-! ## The answer -/

section answer

variable {n : ℕ} {T A W : Type} {cmp : T → T → Ordering} (L : Layout W cmp)

/-- The list stores the values of `l`, each of them whole. -/
def ListSt.Holds (s : ListSt n T A W) (l : List (A × T)) : Prop := s.heap.Chain (L.cells l)

/-- The list answers a `LookUp(value, result)` that returned `found` and left the words `result`:
it stores an equivalent value, and it is that one, or it stores none. -/
def Answers (value : T) (found : Bool) (result : List W) (s : ListSt n T A W) : Prop :=
  ∃ l, s.Holds L l ∧ (found = true → ∃ c ∈ l, cmp c.2 value = .eq ∧ result = L.words c.2) ∧
    (found = false → ∀ c ∈ l, cmp c.2 value ≠ .eq)

variable {L} {s s' : ListSt n T A W} {l : List (A × List W)} {t : Fin n} {value : T} {found : Bool}

/-- **The linearization point.**  Where the validation is about to succeed, the list answers as
the attempt did. -/
theorem answers_of_valid [Std.TransCmp cmp] (hinv : ListInv L s l) (h : ReaderInv L s l)
    (hpc : s.pc t = .validate value found)
    (hvalid : HybridGuard.mustRestart (s.state t) s.lock.stateAndVersion = false) :
    Answers L value found (s.result t) s := by
  have hok := h.reader t hvalid
  obtain ⟨values, rfl, hsorted⟩ := hinv.stored_of_free (ReaderInv.free_of_valid hinv hvalid)
  have hs := hsorted inferInstance
  rw [hpc] at hok
  refine ⟨values, hinv.chain, ?_, ?_⟩
  · rintro rfl
    obtain ⟨c, hc, heq, hresult⟩ := hok
    obtain ⟨x, hx, rfl⟩ := List.mem_map.mp hc
    exact ⟨x, hx, (L.compare_words x.2 value).symm.trans heq, hresult⟩
  · rintro rfl
    obtain ⟨l₁, l₂, hl, hlt, hstop⟩ := hok
    obtain ⟨v₁, v₂, rfl, rfl, rfl⟩ := cells_eq_append hl
    rw [List.map_append] at hs
    have hnone := lookup_of_split (below_of_cells hlt)
      (hstop.of_cells.gt_of_sorted (sorted_append.mp hs).2.1)
    rw [← List.map_append, lookup_eq_none] at hnone
    intro c hc
    exact hnone c.2 (List.mem_map_of_mem hc)

/-- What an attempt that was validated is about to return. -/
def ListPc.returning : ListPc T A W → Option Bool
  | .epochLeave _ ret => ret
  | _ => none

section control

variable (op : Searcher T) (test : LoopTest) (prev : Option A) (current : A) (read : List W)

@[simp] lemma returning_notFound : (op.notFound prev : ListPc T A W).returning = none := by
  rcases op with v | (v | v) <;> rfl

@[simp] lemma returning_found : (op.found prev current : ListPc T A W).returning = none := by
  rcases op with v | (v | v) <;> rfl

@[simp] lemma returning_loop (p : Option A) :
    (op.loop prev p : ListPc T A W).returning = none := by
  cases p with
  | none => exact returning_notFound op prev
  | some current => rfl

@[simp] lemma returning_tested (o : Ordering) :
    (op.tested prev current o test : ListPc T A W).returning = none := by
  cases test with
  | greater =>
      rw [Searcher.tested]
      split_ifs
      · exact returning_notFound op prev
      · rfl
  | equal =>
      rw [Searcher.tested]
      split_ifs
      · exact returning_found op prev current
      · rfl

@[simp] lemma returning_compared : (L.compared op test prev current read).returning = none := by
  rw [Layout.compared]
  split_ifs
  · rfl
  · simp

@[simp] lemma returning_headCompared :
    (L.headCompared value current read).returning = none := by
  rw [Layout.headCompared]
  split_ifs <;> rfl

end control

/-- Only a validation that succeeded leads to a return. -/
lemma ReadEffect.validated {pc : ListPc T A W} (h : ReadEffect L s t pc)
    (hret : pc.returning = some found) :
    ∃ value, s.pc t = .validate value found ∧
      HybridGuard.mustRestart (s.state t) s.lock.stateAndVersion = false := by
  cases h with
  | valid value b hpc hvalid =>
      obtain rfl : b = found := Option.some.inj hret
      exact ⟨value, hpc, hvalid⟩
  | headCompare | searchRoot | compare | next => simp at hret
  | _ => cases hret

end answer

/-! ## From the call to the return -/

/-- An action by which `t` begins a call. -/
def ListAct.Begins {n : ℕ} {T A : Type} (t : Fin n) : ListAct n T A → Prop
  | .call u _ | .freeOutdatedPtr u => u = t
  | _ => False

instance {n : ℕ} {T A : Type} (t : Fin n) (a : ListAct n T A) : Decidable (a.Begins t) := by
  cases a <;> unfold ListAct.Begins <;> infer_instance

/-- In a call that `t` is inside, `t` takes the next access. -/
lemma ListAct.eq_resume {n : ℕ} {T A : Type} {t : Fin n} {a : ListAct n T A}
    (ht : a.thread = some t) (hbegins : ¬ a.Begins t) : ∃ fresh, a = .resume t fresh := by
  cases a with
  | call u c => exact absurd (Option.some.inj ht) hbegins
  | freeOutdatedPtr u => exact absurd (Option.some.inj ht) hbegins
  | advanceGlobalEpoch => cases ht
  | resume u fresh =>
      obtain rfl : u = t := Option.some.inj ht
      exact ⟨fresh, rfl⟩

/-- Everything that the next access of a `LookUp` can do. -/
inductive LookUpEffect {n : ℕ} {T A W : Type} {cmp : T → T → Ordering} (L : Layout W cmp)
    (s : ListSt n T A W) (t : Fin n) (value : T) : ListSt n T A W → Prop
  | read (pc : ListPc T A W) (hread : ReadEffect L s t pc) (hlook : pc.lookingUp = some value) :
      LookUpEffect L s t value (s.setPc t pc)
  | publish (epoch : ℕ) (hpc : s.pc t = .epochStore value epoch) :
      LookUpEffect L s t value { s.setPc t (.optimisticLock value) with
        handler := s.handler.publish t epoch }
  | optimisticLock (pc : ListPc T A W) (hpc : s.pc t = .optimisticLock value)
      (hnext : pc = .optimisticLock value ∨ pc = .searchRoot (.lookUp value)) :
      LookUpEffect L s t value { s.setPc t pc with
        state := Function.update s.state t s.lock.stateAndVersion }
  | copy (current : A) (i : ℕ) (pc : ListPc T A W) (word : W) (hpc : s.pc t = .copy value current i)
      (hnext : pc = .copy value current (i + 1) ∨ pc = .validate value true) :
      LookUpEffect L s t value { s.setPc t pc with
        result := Function.update s.result t ((s.result t).set i word) }
  | leave (ret : Option Bool) (hpc : s.pc t = .epochLeave value ret) :
      LookUpEffect L s t value { s.setPc t (.left value ret) with handler := s.handler.leave t }

/-- **Inversion of the accesses of a `LookUp`.** -/
theorem ListSt.lookUp_effect {n : ℕ} {T A W : Type} [DecidableEq A] {cmp : T → T → Ordering}
    {L : Layout W cmp} {s s' : ListSt n T A W} {t : Fin n} {value : T} {fresh : A}
    (hlook : (s.pc t).lookingUp = some value) (hstep : s.step L (.resume t fresh) = some s') :
    LookUpEffect L s t value s' := by
  cases step_effect hstep with
  | read _ _ pc hread => exact .read pc hread (hread.sameRole.lookingUp.trans hlook)
  | publish _ _ v epoch hpc =>
      rw [hpc] at hlook
      cases hlook
      exact .publish epoch hpc
  | optimisticLock _ _ v hpc =>
      rw [hpc] at hlook
      cases hlook
      exact .optimisticLock _ hpc (by split_ifs <;> simp)
  | copy _ _ v current i hpc node hnode word =>
      rw [hpc] at hlook
      cases hlook
      exact .copy current i _ word hpc (by split_ifs <;> simp)
  | leave _ _ v ret hpc =>
      rw [hpc] at hlook
      cases hlook
      exact .leave ret hpc
  | newNode _ _ v dst next halloc hfresh =>
      cases halloc with
      | head hpc | inner _ _ hpc =>
          rw [hpc] at hlook
          cases hlook
  | lockRefused _ _ _ _ hpc | lockAcquired _ _ _ _ hpc | overwrite _ _ _ _ _ hpc
  | linkNew _ _ _ _ hpc | linkPast _ _ _ _ _ hpc | deferFreePointer _ _ _ hpc
  | unlockCall _ _ _ hpc | unlocking _ _ _ hpc | free _ _ _ _ hpc | erased _ _ _ _ hpc =>
      rw [hpc] at hlook
      cases hlook

section progress

variable {n : ℕ} {T A W : Type} [DecidableEq A] {cmp : T → T → Ordering} (L : Layout W cmp)

/-- Where a call of `LookUp` by `t` is, after the actions `tr` since its beginning in `s₁`. -/
inductive Progress (t : Fin n) (value : T) (s₁ : ListSt n T A W) (tr : List (ListAct n T A))
    (s : ListSt n T A W) : Prop
  /-- As soon as it is known what the call will return, the list has answered so. -/
  | running (hlook : (s.pc t).lookingUp = some value)
      (hret : ∀ found, (s.pc t).returning = some found →
        Once (ListSt.step L) (Answers L value found (s.result t)) s₁ tr)
  | returned (found : Bool) (hpc : s.pc t = .outside (some found))
      (hret : Once (ListSt.step L) (Answers L value found (s.result t)) s₁ tr)

variable {L} {s₁ s s' : ListSt n T A W} {l : List (A × List W)} {t u : Fin n} {value : T}
  {tr : List (ListAct n T A)} {a : ListAct n T A} {fresh : A}

/-- A thread that is in no call has no next access. -/
lemma resume_outside {ret : Option Bool} (hpc : s.pc t = .outside ret) :
    s.resume L t fresh = none := by
  simp [ListSt.resume, ListSt.read, hpc]

/-- Steps of the other threads. -/
lemma Progress.others (h : Progress L t value s₁ tr s) (hstep : s.step L a = some s')
    (ht : a.thread ≠ some t) : Progress L t value s₁ (tr ++ [a]) s' := by
  obtain ⟨hpc, -, hresult, -⟩ := ListSt.step_frame hstep ht
  cases h with
  | running hlook hret =>
      refine .running (hpc ▸ hlook) ?_
      intro found hfound
      rw [hresult]
      exact (hret found (hpc ▸ hfound)).snoc a
  | returned found hout hret => exact .returned found (hpc ▸ hout) (hresult ▸ hret.snoc a)

/-- A step of the call. -/
lemma Progress.resume [Std.TransCmp cmp] (h : Progress L t value s₁ tr s) (hinv : ListInv L s l)
    (hr : ReaderInv L s l) (hrun : run (ListSt.step L) s₁ tr = some s)
    (hstep : s.step L (.resume t fresh) = some s') :
    Progress L t value s₁ (tr ++ [.resume t fresh]) s' := by
  cases h with
  | returned found hout hret =>
      rw [ListSt.step, resume_outside hout] at hstep
      cases hstep
  | running hlook hret =>
      cases ListSt.lookUp_effect hlook hstep with
      | read pc hread hlook' =>
          refine .running (by simpa using hlook') ?_
          intro found hfound
          rw [ListSt.setPc_pc, Function.update_self] at hfound
          obtain ⟨v, hpc, hvalid⟩ := hread.validated hfound
          obtain rfl : v = value := by
            rw [hpc] at hlook
            exact Option.some.inj hlook
          -- this load was the moment
          exact (Once.now hrun (answers_of_valid hinv hr hpc hvalid)).snoc _
      | publish epoch hpc =>
          refine .running ?_ ?_
          · simp [ListPc.lookingUp]
          · simp [ListPc.returning]
      | optimisticLock pc hpc hnext =>
          rcases hnext with rfl | rfl <;> refine .running ?_ ?_ <;>
            simp [ListPc.lookingUp, ListPc.returning]
      | copy current i pc word hpc hnext =>
          rcases hnext with rfl | rfl <;> refine .running ?_ ?_ <;>
            simp [ListPc.lookingUp, ListPc.returning]
      | leave ret hpc =>
          rw [hpc] at hret
          cases ret with
          | none =>
              refine .running ?_ ?_
              · simp [ListPc.left, ListPc.lookingUp]
              · simp [ListPc.left, ListPc.returning]
          | some found =>
              exact .returned found (Function.update_self ..) ((hret found rfl).snoc _)

/-- **The step lemma.** -/
theorem Progress.step [Std.TransCmp cmp] (h : Progress L t value s₁ tr s) (hinv : ListInv L s l)
    (hr : ReaderInv L s l) (hrun : run (ListSt.step L) s₁ tr = some s) (hbegins : ¬ a.Begins t)
    (hstep : s.step L a = some s') : Progress L t value s₁ (tr ++ [a]) s' := by
  by_cases ht : a.thread = some t
  · obtain ⟨fresh, rfl⟩ := ListAct.eq_resume ht hbegins
    exact h.resume hinv hr hrun hstep
  · exact h.others hstep ht

end progress

/-- **`LookUp` is linearizable.**  Any number of threads run `Insert`, `Delete`, `LookUp` and the
reclamation on one list, in any interleaving of their accesses.  While fewer than `2 ^ 56`
exclusive sections have ended, every `LookUp` that returned was answered by the list at one
moment between its call and its return, by a whole value or by none. -/
theorem lookUp_linearizable {n : ℕ} {T A W : Type} [DecidableEq A] {cmp : T → T → Ordering}
    [Std.TransCmp cmp] (L : Layout W cmp) {tr₀ tr : List (ListAct n T A)}
    {s₀ s₁ s₂ : ListSt n T A W} {t : Fin n} {value result : T} {found : Bool}
    (hreach : run (ListSt.step L) ListSt.init tr₀ = some s₀)
    (hcall : s₀.step L (.call t (.lookUp value result)) = some s₁)
    (hrun : run (ListSt.step L) s₁ tr = some s₂) (hbegins : ∀ a ∈ tr, ¬ a.Begins t)
    (hreturn : s₂.pc t = .outside (some found)) (hfew : s₂.lock.releases < 2 ^ 56) :
    ∃ pre post s l, tr = pre ++ post ∧ run (ListSt.step L) s₁ pre = some s ∧ s.Holds L l ∧
      (found = true → ∃ c ∈ l, cmp c.2 value = .eq ∧ s₂.result t = L.words c.2) ∧
      (found = false → ∀ c ∈ l, cmp c.2 value ≠ .eq) := by
  have hle : s₁.lock.releases ≤ s₂.lock.releases :=
    run_monotone (f := fun s => s.lock.releases) (fun _ _ _ => ListSt.releases_le) hrun
  have hcalled : run (ListSt.step L) ListSt.init (tr₀ ++ [.call t (.lookUp value result)])
      = some s₁ := run_snoc_eq_some.mpr ⟨s₀, hreach, hcall⟩
  have hinv₁ := ReaderInv.run ⟨[], .init, .init⟩ hcalled (by omega)
  have hprogress : s₂.lock.releases < 2 ^ 56 → (∀ a ∈ tr, ¬ a.Begins t) →
      Progress L t value s₁ tr s₂ := by
    refine run_invariant_of_trace (I := fun tr s => s.lock.releases < 2 ^ 56 →
      (∀ a ∈ tr, ¬ a.Begins t) → Progress L t value s₁ tr s) ?_ ?_ hrun
    · intro tr s a s' htr ih hstep hfew' hbegins'
      have hfew : s.lock.releases < 2 ^ 56 := by
        have := ListSt.releases_le hstep
        omega
      obtain ⟨l, hinv, hr⟩ := ReaderInv.run hinv₁ htr hfew
      exact (ih hfew fun b hb => hbegins' b (by simp [hb])).step hinv hr htr
        (hbegins' a (by simp)) hstep
    · intro _ _
      cases ListSt.step_effect hcall with
      | call _ _ ret hpc =>
          refine .running ?_ ?_
          · simp [ListSt.call, ListPc.lookingUp]
          · simp [ListSt.call, ListPc.returning]
  cases hprogress hfew hbegins with
  | running hlook hret =>
      rw [hreturn] at hlook
      cases hlook
  | returned b hpc hret =>
      obtain rfl : b = found := by
        rw [hpc] at hreturn
        exact Option.some.inj (ListPc.outside.inj hreturn)
      obtain ⟨pre, post, s, hsplit, hpre, l, hl⟩ := hret
      exact ⟨pre, post, s, l, hsplit, hpre, hl⟩

/-- Thread `1` looks up 400 and has copied two words of 412 when thread `0` overwrites it with 478.
The first attempt leaves the words of 418, which was never stored; the second returns 478. -/
theorem lookUp_linearizable_overwritten :
    ∃ (tr₀ tr : List (ListAct 2 ℕ ℕ)) (s₁ s₂ : ListSt 2 ℕ ℕ ℕ),
      run (ListSt.step digits) ListSt.init (tr₀ ++ [.call 1 (.lookUp 400 0)]) = some s₁ ∧
      run (ListSt.step digits) s₁ tr = some s₂ ∧ s₂.pc 1 = .outside (some true) ∧
      ∃ pre post s l, tr = pre ++ post ∧ run (ListSt.step digits) s₁ pre = some s ∧
        s.Holds digits l ∧ ∃ c ∈ l, s₂.result 1 = digits.words c.2 := by
  let tr₀ : List (ListAct 2 ℕ ℕ) :=
    .call 0 (.insert 117) :: resumes 0 8 7 ++ .call 0 (.insert 412) :: resumes 0 20 8
  let tr : List (ListAct 2 ℕ ℕ) :=
    resumes 1 19 0 ++ .call 0 (.insert 478) :: resumes 0 29 0 ++ resumes 1 25 0
  have hall : (run (ListSt.step digits) (ListSt.init : ListSt 2 ℕ ℕ ℕ)
      (tr₀ ++ .call 1 (.lookUp 400 0) :: tr)).map (fun s => (s.pc 1, s.lock.releases))
        = some (.outside (some true), 3) := by decide +kernel
  obtain ⟨s₂, hrun, hend⟩ := Option.map_eq_some_iff.mp hall
  obtain ⟨hreturn, hreleases⟩ := Prod.mk.inj hend
  obtain ⟨s₀, hreach, hrest⟩ := run_append_eq_some.mp hrun
  obtain ⟨s₁, hcall, hrun⟩ := run_cons_eq_some.mp hrest
  obtain ⟨pre, post, s, l, hsplit, hpre, hl, hfound, -⟩ :=
    lookUp_linearizable digits hreach hcall hrun (by decide) hreturn (by omega)
  obtain ⟨c, hc, -, hresult⟩ := hfound rfl
  exact ⟨tr₀, tr, s₁, s₂, run_snoc_eq_some.mpr ⟨s₀, hreach, hcall⟩, hrun, hreturn, pre, post, s, l,
    hsplit, hpre, hl, c, hc, hresult⟩

end OptLock
