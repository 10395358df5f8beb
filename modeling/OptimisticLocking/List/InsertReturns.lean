import OptimisticLocking.List.MapRefinement

/-!
# When `Insert` returns

`Insert` tests whether the value belongs in front of the head, with `> 0`, and then searches.  A
head that is equivalent to the value stops the search before `prev` has been set, and the
overwrite goes through the null pointer.  In front of every other node that the search can stop
at there is a previous one.

* `ListMem.HeadEquivalent` — the lists on which that happens.
* `Inserted` — what an `Insert` that returns has done.
* **`inserts_return_iff`** — both lists.  `OptimisticSortedList` has to get its lock as well, which
  the carry out of the version makes impossible after `2 ^ 56` calls of `Insert` and `Delete`.
-/

namespace OptLock

open LinkedList OrderedList HybridLock Transition

variable {T σ : Type}

/-- The value in the first node is equivalent to `value`. -/
def ListMem.HeadEquivalent (cmp : T → T → Ordering) (m : ListMem T) (value : T) : Prop :=
  ∃ a n, m.heap.root = some a ∧ m.heap.node a = some n ∧ cmp n.value value = .eq

/-- The call of `Insert(value)` on a list with memory `m` returned: the list stores `value` for its
class and the same as before for every other class. -/
def Inserted (cmp : T → T → Ordering) (mem : σ → ListMem T) (m : ListMem T) (value : T)
    (result : Except Fault (Outcome T × σ)) : Prop :=
  ∃ s l l', result = .ok (.inserted, s) ∧ m.Chain l ∧ (mem s).Chain l' ∧
    Sorted cmp (l'.map Prod.snd) ∧ ∀ k, lookup cmp k (l'.map Prod.snd) =
      if cmp k value = .eq then some value else lookup cmp k (l.map Prod.snd)

namespace ListMem

variable {cmp : T → T → Ordering} {m : ListMem T} {l : List (ℕ × T)} {c : ℕ × T} {value : T}

lemma Chain.headEquivalent_iff (hc : m.Chain l) :
    m.HeadEquivalent cmp value ↔ ∃ c ∈ l.head?, cmp c.2 value = .eq := by
  cases l with
  | nil => simp [HeadEquivalent, Heap.Chain.root_eq hc, firstAddr]
  | cons c l =>
      have hc' : m.Chain ([] ++ c :: l) := hc
      simp [HeadEquivalent, Heap.Chain.root_eq hc, firstAddr, hc'.node_eq]

/-- With an equivalent head the search ends where it starts, without a previous node. -/
lemma Chain.insertInto_of_head_eq (hc : m.Chain (c :: l)) (heq : cmp c.2 value = .eq) :
    m.insertInto cmp value = .error .nullPointer := by
  have hhead := hc.belongsAtHead_eq cmp value
  have hc' : m.Chain ([] ++ c :: l) := hc
  have hsearch : m.searchRoot cmp value = .ok (true, none, some c.1) := by
    simp [searchRoot, Heap.Chain.root_eq hc, firstAddr, search, hc'.deref_eq, heq]
  simp [insertInto, hhead, heq, hsearch, deref]

variable [Std.TransCmp cmp] {map : ClassMap T}

/-- `Insert` returns exactly when the head is not equivalent. -/
lemma Holds.insertInto_cases (h : m.Holds cmp map) (value : T) :
    (¬ m.HeadEquivalent cmp value ∧ ∃ m', m.insertInto cmp value = .ok m' ∧
        m'.Holds cmp (map.insert cmp value)) ∨
      (m.HeadEquivalent cmp value ∧ m.insertInto cmp value = .error .nullPointer) := by
  obtain ⟨l, hc, hr⟩ := h
  by_cases hhead : m.HeadEquivalent cmp value
  · obtain ⟨c, hmem, heq⟩ := hc.headEquivalent_iff.mp hhead
    cases l with
    | nil => cases hmem
    | cons c' l =>
        cases hmem
        exact .inr ⟨hhead, hc.insertInto_of_head_eq heq⟩
  · have heffect := hc.insertInto_effect cmp value
    generalize m.insertInto cmp value = out at heffect
    cases out with
    | ok m' => exact .inl ⟨hhead, m', rfl, heffect.holds hr⟩
    | error e =>
        cases heffect with
        | nullPrev c l₂ hl heq =>
            exact absurd (hc.headEquivalent_iff.mpr ⟨c, by rw [hl]; rfl, heq⟩) hhead

omit [Std.TransCmp cmp] in
/-- A list that holds a map and one that holds it after the insertion. -/
lemma Holds.inserted {s : σ} {mem : σ → ListMem T} (h : m.Holds cmp map)
    (h' : (mem s).Holds cmp (map.insert cmp value)) :
    Inserted cmp mem m value (.ok (.inserted, s)) := by
  obtain ⟨l, hc, hr⟩ := h
  obtain ⟨l', hc', hr'⟩ := h'
  refine ⟨s, l, l', rfl, hc, hc', hr'.sorted, fun k => ?_⟩
  rw [← hr'.lookup, ← hr.lookup, ClassMap.insert]

end ListMem

lemma not_inserted_of_error {cmp : T → T → Ordering} {mem : σ → ListMem T} {m : ListMem T}
    {value : T} {e : Fault} :
    ¬ Inserted cmp mem m value (.error e : Except Fault (Outcome T × σ)) := by
  rintro ⟨s, l, l', hok, -⟩
  cases hok

lemma MutexSortedList.inserted_iff {cmp : T → T → Ordering} [Std.TransCmp cmp]
    {s : MutexSortedList T} {map : ClassMap T} (h : s.Holds cmp map) (value : T) :
    Inserted cmp id s value (MutexSortedList.call cmp s (.insert value))
      ↔ ¬ s.HeadEquivalent cmp value := by
  rcases h.insertInto_cases value with ⟨hhead, m', hok, hm'⟩ | ⟨hhead, herror⟩
  · have hcall : MutexSortedList.call cmp s (.insert value) = .ok (.inserted, m') := by
      simp [call, MutexSortedList.insert, hok]
    rw [hcall]
    exact iff_of_true (h.inserted hm') hhead
  · have hcall : MutexSortedList.call cmp s (.insert value) = .error .nullPointer := by
      simp [call, MutexSortedList.insert, herror]
    rw [hcall]
    exact iff_of_false not_inserted_of_error (not_not.mpr hhead)

lemma OptimisticSortedList.inserted_iff {cmp : T → T → Ordering} [Std.TransCmp cmp] {n : ℕ}
    {s : OptimisticSortedList T n} {map : ClassMap T} (h : s.mem.Holds cmp map)
    (hlock : s.lock.toNat ≤ 2 ^ 56) (tid : Fin n) (value : T) :
    Inserted cmp OptimisticSortedList.mem s.mem value (s.call cmp tid (.insert value))
      ↔ ¬ s.mem.HeadEquivalent cmp value ∧ s.lock.toNat < 2 ^ 56 := by
  rcases Nat.lt_or_eq_of_le hlock with hlt | hmax
  · rcases h.insertInto_cases value with ⟨hhead, m', hok, hm'⟩ | ⟨hhead, herror⟩
    · obtain ⟨w', hunlock, -⟩ := unlockExclusive_eq (s := { s with
        mem := m', lock := sameVersionNewState s.lock HybridLock.exclusive }) rfl hlt
      have hcall : s.call cmp tid (.insert value)
          = .ok (.inserted, { s with mem := m', lock := w' }) := by
        simp [call, insert, lockExclusive_eq hlt, hok, hunlock]
      rw [hcall]
      exact iff_of_true (h.inserted hm') ⟨hhead, hlt⟩
    · have hcall : s.call cmp tid (.insert value) = .error .nullPointer := by
        simp [call, insert, lockExclusive_eq hlt, herror]
      rw [hcall]
      exact iff_of_false not_inserted_of_error fun hand => hand.1 hhead
  · have hcall : s.call cmp tid (.insert value) = .error .hang := by
      simp [call, insert, lockExclusive_hang hmax]
    rw [hcall]
    exact iff_of_false not_inserted_of_error fun hand => by omega

/-- **`Insert` returns**, with the value stored and everything else as it was, exactly when the
head is not equivalent to the value; on `OptimisticSortedList` fewer than `2 ^ 56` exclusive
sections must have come before it. -/
theorem inserts_return_iff (cmp : T → T → Ordering) [Std.TransCmp cmp] :
    (∀ calls s, run (logged (MutexSortedList.call cmp)) (ListMem.empty, []) calls = some s →
      ∀ value, Inserted cmp id s.1 value (MutexSortedList.call cmp s.1 (.insert value))
        ↔ ¬ s.1.HeadEquivalent cmp value) ∧
    (∀ n (calls : List (Fin n × Call T)) s,
      run (logged (OptimisticSortedList.clientCall cmp)) (.init, []) calls = some s →
      ∀ tid value, Inserted cmp OptimisticSortedList.mem s.1.mem value
          (OptimisticSortedList.clientCall cmp s.1 (tid, .insert value))
        ↔ ¬ s.1.mem.HeadEquivalent cmp value ∧ OptimisticSortedList.writers calls < 2 ^ 56) := by
  constructor
  · intro calls s hrun value
    exact MutexSortedList.inserted_iff (MutexSortedList.simulates cmp hrun).holds value
  · intro n calls s hrun tid value
    obtain ⟨hholds, -, hcount, hle⟩ := OptimisticSortedList.simulates cmp hrun
    rw [← hcount]
    exact OptimisticSortedList.inserted_iff hholds hle tid value

/-- Behind a smaller head. -/
theorem inserts_return_behind :
    ∃ s, run (logged (MutexSortedList.call (compare : ℕ → ℕ → Ordering))) (ListMem.empty, [])
        [.insert 1] = some s ∧
      Inserted compare id s.1 2 (MutexSortedList.call compare s.1 (.insert 2)) := by
  have hrun : run (logged (MutexSortedList.call (compare : ℕ → ℕ → Ordering))) (ListMem.empty, [])
      [.insert 1] = some _ := rfl
  refine ⟨_, hrun, ((inserts_return_iff compare).1 _ _ hrun 2).mpr ?_⟩
  rintro ⟨a, n, hroot, hnode, heq⟩
  cases hroot
  cases hnode
  exact absurd heq (by decide)

/-- Inserting the same value twice. -/
theorem insert_twice_null :
    (∃ s, run (logged (MutexSortedList.call (compare : ℕ → ℕ → Ordering))) (ListMem.empty, [])
        [.insert 2] = some s ∧
      MutexSortedList.call compare s.1 (.insert 2) = .error .nullPointer) ∧
    ∃ s, run (logged (OptimisticSortedList.clientCall (compare : ℕ → ℕ → Ordering)))
        ((.init : OptimisticSortedList ℕ 1), []) [(0, .insert 2)] = some s ∧
      OptimisticSortedList.clientCall compare s.1 (0, .insert 2) = .error .nullPointer := by
  have hmutex : run (logged (MutexSortedList.call (compare : ℕ → ℕ → Ordering)))
      (ListMem.empty, []) [.insert 2] = some _ := rfl
  have hoptimistic : run (logged (OptimisticSortedList.clientCall (compare : ℕ → ℕ → Ordering)))
      ((.init : OptimisticSortedList ℕ 1), []) [(0, .insert 2)] = some _ := rfl
  exact ⟨⟨_, hmutex, rfl⟩, ⟨_, hoptimistic, rfl⟩⟩

end OptLock
