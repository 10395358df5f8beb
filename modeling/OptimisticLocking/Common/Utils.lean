import OptimisticLocking.Library.Transition
import OptimisticLocking.List.Ownership

/-!
# Thread ids

`InitializeThread` of `utils.cc` numbers the workers of a process from one counter, and the list
indexes the vectors of its `EpochHandler` with these numbers.

* `Process` — the counter, the `thread_id` of each worker, and a list on `EpochHandler(n)`.  The
  ghosts are the order in which the workers initialised and the indices they used.
* `Process.Avoids` — the condition: the worker that initialises last of the `n` stays away from the
  vectors.
* **`slots_in_range_iff`** — the indices are in range exactly under that condition, since the
  numbers are `1 … n` and the indices `0 … n - 1`.  They are private always.
-/

namespace OptLock

open LinkedList Transition HybridLock

/-- A process with workers `0 … n - 1` and a main thread. -/
structure Process (T : Type) (n : ℕ) where
  workerAtomicInt : ℕ
  threadId : Fin n → ℕ
  list : OptimisticSortedList T (EpochHandler.noThreads n)
  /-- An index was out of range, and what the process does then is undefined. -/
  crashed : Bool
  /-- Ghost: the workers in the order of their `InitializeThread`. -/
  initialized : List (Fin n)
  /-- Ghost: who indexed `local_epoch` or `to_free_ptr`, and with what. -/
  used : List (Fin n × ℕ)

inductive ProcessAct (T : Type) (n : ℕ)
  | initializeThread (w : Fin n)
  | work (w : Fin n) (c : Call T)
  /-- `Insert` by the main thread. -/
  | insert (value : T)
  deriving DecidableEq

/-- Whether a call that came to this outcome indexed the vectors: `LookUp` always, `Delete` when
it found something. -/
def Outcome.indexes {T : Type} : Outcome T → Bool
  | .inserted => false
  | .lookedUp _ _ => true
  | .deleted found => found

namespace Process

variable {T : Type} {n : ℕ} (cmp : T → T → Ordering)

def init : Process T n :=
  { workerAtomicInt := 0, threadId := fun _ => 0, list := .init, crashed := false,
    initialized := [], used := [] }

def initializeThread (s : Process T n) (w : Fin n) : Process T n :=
  { s with
    workerAtomicInt := s.workerAtomicInt + 1
    threadId := Function.update s.threadId w (s.workerAtomicInt + 1)
    initialized := s.initialized ++ [w] }

/-- A completed call of worker `w`, or one that indexes out of range. -/
def work (s : Process T n) (w : Fin n) (c : Call T) : Option (Process T n) :=
  match s.list.call cmp (s.threadId w) c with
  | .ok (out, list) =>
      some { s with
        list := list
        used := if out.indexes then (w, s.threadId w) :: s.used else s.used }
  | .error (.outOfRange i) => some { s with crashed := true, used := (w, i) :: s.used }
  | .error _ => none

/-- Each worker initialises once, before it works. -/
def step (s : Process T n) : ProcessAct T n → Option (Process T n)
  | .initializeThread w =>
      if s.crashed = false ∧ w ∉ s.initialized then some (s.initializeThread w) else none
  | .work w c => if s.crashed = false ∧ w ∈ s.initialized then s.work cmp w c else none
  | .insert value =>
      if s.crashed = false then
        match s.list.insert cmp value with
        | .ok list => some { s with list := list }
        | .error _ => none
      else none

/-- Every index used so far is in the range of the vectors. -/
def InRange (s : Process T n) : Prop := ∀ u ∈ s.used, u.2 < EpochHandler.noThreads n

/-- No two workers used the same index. -/
def Private (s : Process T n) : Prop := ∀ u ∈ s.used, ∀ u' ∈ s.used, u.2 = u'.2 → u.1 = u'.1

/-- The first stored value that is not below `value` is equivalent to it. -/
def Stores (s : Process T n) (value : T) : Prop :=
  ∃ l₁ c l₂, s.list.mem.Chain (l₁ ++ c :: l₂) ∧ (∀ y ∈ l₁, cmp y.2 value = .lt) ∧
    cmp c.2 value = .eq

/-- The worker that was the `n`-th to initialise neither looks up nor deletes what is stored. -/
def Avoids (s : Process T n) : ProcessAct T n → Prop
  | .work w (.lookUp _ _) => s.initialized[n - 1]? ≠ some w
  | .work w (.delete value) => s.initialized[n - 1]? = some w → ¬ s.Stores cmp value
  | _ => True

end Process

/-! ## What a call does with the slot -/

/-- Two walks along the same cells do not stop differently. -/
lemma Stop.not_equal {T : Type} {cmp : T → T → Ordering} {value : T}
    {l₁ l₂ l₁' l₂' : List (ℕ × T)} {c : ℕ × T} (hstop : Stop cmp value l₂ false)
    (hlt : ∀ y ∈ l₁, cmp y.2 value = .lt) (hlt' : ∀ y ∈ l₁', cmp y.2 value = .lt)
    (heq : cmp c.2 value = .eq) : l₁ ++ l₂ ≠ l₁' ++ c :: l₂' := by
  induction l₁ generalizing l₁' with
  | nil =>
      intro hsplit
      cases hstop with
      | atEnd => simp at hsplit
      | greater c' l hgt =>
          cases l₁' with
          | nil =>
              obtain rfl : c' = c := (List.cons.inj hsplit).1
              rw [hgt] at heq
              cases heq
          | cons y l₁' =>
              obtain rfl : c' = y := (List.cons.inj hsplit).1
              have hlt := hlt' c' (by simp)
              rw [hgt] at hlt
              cases hlt
  | cons x l₁ ih =>
      intro hsplit
      cases l₁' with
      | nil =>
          obtain rfl : x = c := (List.cons.inj hsplit).1
          have hlt := hlt x (by simp)
          rw [heq] at hlt
          cases hlt
      | cons y l₁' =>
          rw [List.cons_append, List.cons_append, List.cons.injEq] at hsplit
          exact ih (fun z hz => hlt z (by simp [hz])) (fun z hz => hlt' z (by simp [hz])) hsplit.2

namespace OptimisticSortedList

variable {T : Type} {n : ℕ} {cmp : T → T → Ordering} {s : OptimisticSortedList T n}
  {l : List (ℕ × T)} {tid : ℕ} {value : T}

lemma slot_cases (tid : ℕ) :
    (∃ t : Fin n, slot tid = .ok t ∧ tid < n) ∨
      ((slot tid : Except Fault (Fin n)) = .error (.outOfRange tid) ∧ n ≤ tid) := by
  by_cases h : tid < n
  · exact .inl ⟨⟨tid, h⟩, dif_pos h, h⟩
  · exact .inr ⟨dif_neg h, Nat.le_of_not_lt h⟩

lemma lockExclusive_cases (s : OptimisticSortedList T n) :
    (∃ s₁, s.lockExclusive = .ok s₁ ∧ s₁.mem = s.mem) ∨ s.lockExclusive = .error .hang := by
  cases hlock : s.lockExclusive with
  | ok s₁ => exact .inl ⟨s₁, rfl, (lockExclusive_ok hlock).1⟩
  | error e =>
      simp only [lockExclusive] at hlock
      split at hlock <;> cases hlock
      exact .inr rfl

/-- The release fails on its assertion or not at all. -/
lemma unlockExclusive_cases (s : OptimisticSortedList T n) :
    (∃ s₁, s.unlockExclusive = .ok s₁) ∨ s.unlockExclusive = .error .assertion := by
  cases hx : isExclusivelyLocked s.lock with
  | false => exact .inr (by simp [unlockExclusive, hx])
  | true =>
      exact .inl ⟨{ s with lock := HybridLock.unlockExclusive s.lock }, by
        simp [unlockExclusive, hx]⟩

variable (cmp)

/-- `Insert` indexes nothing. -/
lemma insert_cases (hc : s.mem.Chain l) (value : T) :
    (∃ s', s.insert cmp value = .ok s') ∨
      ∃ e ∈ [Fault.hang, .nullPointer, .assertion], s.insert cmp value = .error e := by
  rcases s.lockExclusive_cases with ⟨s₁, hlock, hmem⟩ | hhang
  swap
  · exact .inr ⟨.hang, by simp, by simp [insert, hhang]⟩
  have heffect := hc.insertInto_effect cmp value
  cases hbody : s.mem.insertInto cmp value with
  | ok mem =>
      rcases unlockExclusive_cases { s₁ with mem := mem } with ⟨s₂, hs₂⟩ | hfail
      · exact .inl ⟨s₂, by simp [insert, hlock, hmem, hbody, hs₂]⟩
      · exact .inr ⟨.assertion, by simp, by simp [insert, hlock, hmem, hbody, hfail]⟩
  | error e =>
      rw [hbody] at heffect
      cases heffect
      exact .inr ⟨.nullPointer, by simp, by simp [insert, hlock, hmem, hbody]⟩

lemma lookUp_cases (hc : s.mem.Chain l) (tid : ℕ) (value result : T) :
    (∃ out s', s.lookUp cmp tid value result = .ok (out, s') ∧ tid < n) ∨
    (s.lookUp cmp tid value result = .error (.outOfRange tid) ∧ n ≤ tid) ∨
    s.lookUp cmp tid value result = .error .hang := by
  rcases slot_cases tid with ⟨t, hslot, hlt⟩ | ⟨hslot, hge⟩
  · have hbody : ∃ out, (s.publish t).mem.lookUpIn cmp value result = .ok out := by
      rcases hc.lookUpIn_effect cmp value result with
        ⟨-, c, -, -, -, hout⟩ | ⟨-, -, -, -, -, hout⟩
      · exact ⟨_, hout⟩
      · exact ⟨_, hout⟩
    obtain ⟨out, hbody⟩ := hbody
    by_cases hx : lockState (s.publish t).lock = HybridLock.exclusive
    · exact .inr (.inr (by simp [lookUp, hslot, hx]))
    · refine .inl ⟨out, (s.publish t).leave t, ?_, hlt⟩
      simp [lookUp, hslot, hx, hbody, HybridGuard.mustRestart]
  · exact .inr (.inl ⟨by simp [lookUp, hslot], hge⟩)

lemma delete_cases (hc : s.mem.Chain l) (tid : ℕ) (value : T) :
    (∃ s', s.delete cmp tid value = .ok (false, s') ∧
      ∃ l₁ l₂, l = l₁ ++ l₂ ∧ (∀ y ∈ l₁, cmp y.2 value = .lt) ∧ Stop cmp value l₂ false) ∨
    ((∃ l₁ c l₂, l = l₁ ++ c :: l₂ ∧ (∀ y ∈ l₁, cmp y.2 value = .lt) ∧ cmp c.2 value = .eq) ∧
      ((∃ s', s.delete cmp tid value = .ok (true, s') ∧ tid < n) ∨
        (s.delete cmp tid value = .error (.outOfRange tid) ∧ n ≤ tid))) ∨
    ∃ e ∈ [Fault.hang, .assertion], s.delete cmp tid value = .error e := by
  rcases s.lockExclusive_cases with ⟨s₁, hlock, hmem⟩ | hhang
  swap
  · exact .inr (.inr ⟨.hang, by simp, by simp [delete, hhang]⟩)
  obtain ⟨⟨mem, current⟩, hbody, heffect⟩ := hc.deleteFrom_effect cmp value
  cases heffect with
  | unlink l₁ c l₂ hl hlt heq m' hchain halloc hfreed =>
      rcases slot_cases (n := n) tid with ⟨t, hslot, htid⟩ | ⟨hslot, hge⟩
      · rcases unlockExclusive_cases (deferFreePointer { s₁ with mem := mem } t c.1) with
          ⟨s₃, hs₃⟩ | hfail
        · refine .inr (.inl ⟨⟨l₁, c, l₂, hl, hlt, heq⟩, .inl ⟨s₃, ?_, htid⟩⟩)
          simp [delete, hlock, hmem, hbody, hslot, hs₃]
        · refine .inr (.inr ⟨.assertion, by simp, ?_⟩)
          simp [delete, hlock, hmem, hbody, hslot, hfail]
      · refine .inr (.inl ⟨⟨l₁, c, l₂, hl, hlt, heq⟩, .inr ⟨?_, hge⟩⟩)
        simp [delete, hlock, hmem, hbody, hslot]
  | absent l₁ l₂ hl hlt hstop =>
      rcases unlockExclusive_cases { s₁ with mem := s.mem } with ⟨s₃, hs₃⟩ | hfail
      · exact .inl ⟨s₃, by simp [delete, hlock, hmem, hbody, hs₃], l₁, l₂, hl, hlt, hstop⟩
      · exact .inr (.inr ⟨.assertion, by simp, by simp [delete, hlock, hmem, hbody, hfail]⟩)

end OptimisticSortedList

/-! ## The numbering -/

namespace Process

variable {T : Type} {n : ℕ} {cmp : T → T → Ordering} {s s' : Process T n}

/-- The `k`-th worker to initialise has the number `k`, counted from one. -/
structure Numbered (s : Process T n) : Prop where
  nodup : s.initialized.Nodup
  counter : s.workerAtomicInt = s.initialized.length
  threadId : ∀ k w, s.initialized[k]? = some w → s.threadId w = k + 1
  used : ∀ u ∈ s.used, u.1 ∈ s.initialized ∧ u.2 = s.threadId u.1
  list : s.crashed = false → s.list.Accounted

lemma numbered_init : Numbered (init : Process T n) where
  nodup := List.nodup_nil
  counter := rfl
  threadId := by simp [init]
  used := by simp [init]
  list := fun _ => OptimisticSortedList.accounted_init

/-- A number belongs to one worker. -/
lemma Numbered.eq_of_threadId (h : s.Numbered) {w w' : Fin n} (hw : w ∈ s.initialized)
    (hw' : w' ∈ s.initialized) (heq : s.threadId w = s.threadId w') : w = w' := by
  obtain ⟨k, hk⟩ := List.mem_iff_getElem?.mp hw
  obtain ⟨k', hk'⟩ := List.mem_iff_getElem?.mp hw'
  rw [h.threadId k w hk, h.threadId k' w' hk', Nat.add_right_cancel_iff] at heq
  rw [heq, hk', Option.some.injEq] at hk
  exact hk.symm

lemma Numbered.private (h : s.Numbered) : s.Private := by
  intro u hu u' hu' heq
  obtain ⟨hw, hid⟩ := h.used u hu
  obtain ⟨hw', hid'⟩ := h.used u' hu'
  exact h.eq_of_threadId hw hw' (by rw [← hid, ← hid', heq])

/-- The number of a worker is in range unless it is the last of `n`. -/
lemma Numbered.threadId_lt_iff (h : s.Numbered) (h₁ : 1 ≤ n) (h₂ : n ≤ 128) {w : Fin n}
    (hw : w ∈ s.initialized) :
    s.threadId w < EpochHandler.noThreads n ↔ s.initialized[n - 1]? ≠ some w := by
  have hsize : EpochHandler.noThreads n = n := by
    simp only [EpochHandler.noThreads, EpochHandler.maxNumberOfWorker]
    omega
  have hlen : s.initialized.length ≤ n := by
    simpa using h.nodup.length_le_card
  obtain ⟨k, hk⟩ := List.mem_iff_getElem?.mp hw
  have hklt : k < s.initialized.length := (List.getElem?_eq_some_iff.mp hk).1
  rw [hsize, h.threadId k w hk]
  constructor
  · intro hlt hlast
    have := h.threadId (n - 1) w hlast
    have := h.threadId k w hk
    omega
  · intro hne
    by_contra hge
    have hkn : k = n - 1 := by omega
    exact hne (hkn ▸ hk)

/-- Everything a call of a worker can do to the process. -/
inductive WorkEffect (cmp : T → T → Ordering) (s : Process T n) (w : Fin n) (c : Call T) :
    Process T n → Prop
  /-- The vectors were not indexed. -/
  | quiet (list : OptimisticSortedList T (EpochHandler.noThreads n)) (hlist : list.Accounted)
      (havoids : s.Avoids cmp (.work w c)) : WorkEffect cmp s w c { s with list := list }
  | index (list : OptimisticSortedList T (EpochHandler.noThreads n)) (crashed : Bool)
      (hlist : crashed = false → list.Accounted)
      (havoids : s.Avoids cmp (.work w c) ↔ s.threadId w < EpochHandler.noThreads n) :
      WorkEffect cmp s w c
        { s with list := list, crashed := crashed, used := (w, s.threadId w) :: s.used }

lemma work_effect (h : s.Numbered) (h₁ : 1 ≤ n) (h₂ : n ≤ 128) {w : Fin n} {c : Call T}
    (hcrash : s.crashed = false) (hw : w ∈ s.initialized) (hwork : s.work cmp w c = some s') :
    WorkEffect cmp s w c s' := by
  have hacc := h.list hcrash
  have hlast := h.threadId_lt_iff h₁ h₂ hw
  have hnext : ∀ out list, s.list.call cmp (s.threadId w) c = .ok (out, list) →
      list.Accounted := by
    intro out list hcall
    have hstep : s.list.step cmp (.call (s.threadId w) c) = some list := by
      simp [OptimisticSortedList.step, hcall]
    exact OptimisticSortedList.step_accounted hacc hstep
  obtain ⟨l, hl⟩ := hacc
  cases c with
  | insert value =>
      rcases OptimisticSortedList.insert_cases cmp hl.chain value with ⟨list, hok⟩ | ⟨e, he, herr⟩
      · have hcall : s.list.call cmp (s.threadId w) (.insert value) = .ok (.inserted, list) := by
          simp [OptimisticSortedList.call, hok]
        simp only [work, hcall] at hwork
        cases hwork
        exact .quiet list (hnext _ _ hcall) trivial
      · have hcall : s.list.call cmp (s.threadId w) (.insert value) = .error e := by
          simp only [OptimisticSortedList.call, herr]
          rfl
        simp only [List.mem_cons, List.not_mem_nil, or_false] at he
        rcases he with rfl | rfl | rfl <;> simp [work, hcall] at hwork
  | lookUp value result =>
      have havoids : s.Avoids cmp (.work w (.lookUp value result)) ↔
          s.threadId w < EpochHandler.noThreads n := hlast.symm
      rcases OptimisticSortedList.lookUp_cases cmp hl.chain (s.threadId w) value result with
        ⟨out, list, hok, hlt⟩ | ⟨herr, hge⟩ | hhang
      · have hcall : s.list.call cmp (s.threadId w) (.lookUp value result) =
            .ok (.lookedUp out.1 out.2, list) := by
          simp [OptimisticSortedList.call, hok]
        simp only [work, hcall] at hwork
        cases hwork
        exact .index list s.crashed (fun _ => hnext _ _ hcall) havoids
      · have hcall : s.list.call cmp (s.threadId w) (.lookUp value result) =
            .error (.outOfRange (s.threadId w)) := by
          simp only [OptimisticSortedList.call, herr]
          rfl
        simp only [work, hcall] at hwork
        cases hwork
        exact .index s.list true (fun hfalse => Bool.noConfusion hfalse) havoids
      · have hcall : s.list.call cmp (s.threadId w) (.lookUp value result) = .error .hang := by
          simp only [OptimisticSortedList.call, hhang]
          rfl
        simp [work, hcall] at hwork
  | delete value =>
      rcases OptimisticSortedList.delete_cases cmp hl.chain (s.threadId w) value with
        ⟨list, hok, l₁, l₂, rfl, hlt, hstop⟩ | ⟨⟨l₁, c, l₂, rfl, hlt, heq⟩, hfound⟩ | ⟨e, he, herr⟩
      · have hcall : s.list.call cmp (s.threadId w) (.delete value) =
            .ok (.deleted false, list) := by
          simp [OptimisticSortedList.call, hok]
        simp only [work, hcall] at hwork
        cases hwork
        refine .quiet list (hnext _ _ hcall) ?_
        rintro - ⟨l₁', c, l₂', hchain, hlt', heq⟩
        exact hstop.not_equal hlt hlt' heq (Heap.Chain.unique hl.chain hchain)
      · have hstores : s.Stores cmp value := ⟨l₁, c, l₂, hl.chain, hlt, heq⟩
        have havoids : s.Avoids cmp (.work w (.delete value)) ↔
            s.threadId w < EpochHandler.noThreads n := by
          rw [hlast]
          exact ⟨fun h hw => h hw hstores, fun h hw => absurd hw h⟩
        rcases hfound with ⟨list, hok, -⟩ | ⟨herr, -⟩
        · have hcall : s.list.call cmp (s.threadId w) (.delete value) =
              .ok (.deleted true, list) := by
            simp [OptimisticSortedList.call, hok]
          simp only [work, hcall] at hwork
          cases hwork
          exact .index list s.crashed (fun _ => hnext _ _ hcall) havoids
        · have hcall : s.list.call cmp (s.threadId w) (.delete value) =
              .error (.outOfRange (s.threadId w)) := by
            simp only [OptimisticSortedList.call, herr]
            rfl
          simp only [work, hcall] at hwork
          cases hwork
          exact .index s.list true (fun hfalse => Bool.noConfusion hfalse) havoids
      · have hcall : s.list.call cmp (s.threadId w) (.delete value) = .error e := by
          simp only [OptimisticSortedList.call, herr]
          rfl
        simp only [List.mem_cons, List.not_mem_nil, or_false] at he
        rcases he with rfl | rfl <;> simp [work, hcall] at hwork

/-- **The step lemma.**  A step that meets the condition, and no other, keeps the indices in
range. -/
theorem step_inRange (h : s.Numbered) (h₁ : 1 ≤ n) (h₂ : n ≤ 128) {a : ProcessAct T n}
    (hstep : step cmp s a = some s') :
    s'.Numbered ∧ (s'.InRange ↔ s.InRange ∧ s.Avoids cmp a) := by
  cases a with
  | initializeThread w =>
      simp only [step] at hstep
      split_ifs at hstep with hcond
      cases hstep
      refine ⟨⟨?_, ?_, ?_, ?_, h.list⟩, (and_iff_left trivial).symm⟩
      · exact List.nodup_append.mpr ⟨h.nodup, List.nodup_singleton w, by
          rintro a ha b hb rfl
          exact hcond.2 (List.mem_singleton.mp hb ▸ ha)⟩
      · simp [initializeThread, h.counter]
      · intro k v hk
        simp only [initializeThread] at hk ⊢
        rw [List.getElem?_append] at hk
        split_ifs at hk with hlt
        · have hv : v ≠ w := by
            rintro rfl
            exact hcond.2 (List.mem_of_getElem? hk)
          rw [Function.update_of_ne hv]
          exact h.threadId k v hk
        · obtain ⟨hk', hv⟩ := List.getElem?_eq_some_iff.mp hk
          simp only [List.length_singleton] at hk'
          have hv' : w = v := by simpa using hv
          rw [← hv', Function.update_self, h.counter]
          omega
      · intro u hu
        obtain ⟨hin, hid⟩ := h.used u hu
        have hne : u.1 ≠ w := fun heq => hcond.2 (heq ▸ hin)
        exact ⟨List.mem_append_left _ hin, hid.trans (Function.update_of_ne hne ..).symm⟩
  | insert value =>
      simp only [step] at hstep
      split_ifs at hstep with hcond
      split at hstep
      · next list hok =>
          cases hstep
          refine ⟨⟨h.nodup, h.counter, h.threadId, h.used, fun hc => ?_⟩,
            (and_iff_left trivial).symm⟩
          exact (h.list hc).insert hok
      · cases hstep
  | work w c =>
      simp only [step] at hstep
      split_ifs at hstep with hcond
      cases work_effect h h₁ h₂ hcond.1 hcond.2 hstep with
      | quiet list hlist havoids =>
          exact ⟨⟨h.nodup, h.counter, h.threadId, h.used, fun _ => hlist⟩,
            (and_iff_left havoids).symm⟩
      | index list crashed hlist havoids =>
          refine ⟨⟨h.nodup, h.counter, h.threadId, ?_, hlist⟩, ?_⟩
          · intro u hu
            rcases List.mem_cons.mp hu with rfl | hu
            · exact ⟨hcond.2, rfl⟩
            · exact h.used u hu
          · simp [InRange, havoids, and_comm]

/-- The run lemma. -/
lemma run_inRange (h₁ : 1 ≤ n) (h₂ : n ≤ 128) {tr : List (ProcessAct T n)}
    (hrun : run (step cmp) init tr = some s) :
    s.Numbered ∧ (s.InRange ↔ EveryStep (step cmp) (Avoids cmp) init tr) := by
  refine run_invariant_of_trace (I := fun tr s =>
    s.Numbered ∧ (s.InRange ↔ EveryStep (step cmp) (Avoids cmp) init tr)) ?_ ?_ hrun
  · rintro tr s a s' hprev ⟨hnum, hiff⟩ hstep
    obtain ⟨hnum', hiff'⟩ := step_inRange hnum h₁ h₂ hstep
    exact ⟨hnum', by rw [hiff', hiff, everyStep_snoc hprev]⟩
  · exact ⟨numbered_init, iff_of_true (by simp [InRange, init]) .nil⟩

end Process

/-- **Thread slots.**  With `n` workers on `EpochHandler(n)`, every index is in range and no two
workers share one exactly in the runs in which the worker that initialises `n`-th never looks up
and never deletes a stored value. -/
theorem slots_in_range_iff {T : Type} (cmp : T → T → Ordering) {n : ℕ} (h₁ : 1 ≤ n) (h₂ : n ≤ 128)
    {tr : List (ProcessAct T n)} {s : Process T n}
    (hrun : run (Process.step cmp) Process.init tr = some s) :
    (s.InRange ∧ s.Private) ↔
      EveryStep (Process.step cmp) (Process.Avoids cmp) Process.init tr := by
  obtain ⟨hnum, hiff⟩ := Process.run_inRange h₁ h₂ hrun
  rw [← hiff]
  exact and_iff_left hnum.private

/-- Two workers, of which the last to initialise only inserts. -/
theorem slots_in_range_iff_two :
    ∃ s, run (Process.step (compare : ℕ → ℕ → Ordering)) (Process.init : Process ℕ 2)
        [.initializeThread 1, .initializeThread 0, .work 0 (.insert 4), .work 1 (.lookUp 4 0),
          .work 1 (.delete 4)] = some s ∧
      s.used = [(1, 1), (1, 1)] ∧
      EveryStep (Process.step compare) (Process.Avoids compare) (Process.init : Process ℕ 2)
        [.initializeThread 1, .initializeThread 0, .work 0 (.insert 4), .work 1 (.lookUp 4 0),
          .work 1 (.delete 4)] := by
  have hrun : ∃ s, run (Process.step (compare : ℕ → ℕ → Ordering)) (Process.init : Process ℕ 2)
      [.initializeThread 1, .initializeThread 0, .work 0 (.insert 4), .work 1 (.lookUp 4 0),
        .work 1 (.delete 4)] = some s ∧ s.used = [(1, 1), (1, 1)] := ⟨_, rfl, rfl⟩
  obtain ⟨s, hrun, hused⟩ := hrun
  refine ⟨s, hrun, hused, (slots_in_range_iff compare (by decide) (by decide) hrun).mp ⟨?_, ?_⟩⟩
  · rw [Process.InRange, hused]
    decide
  · rw [Process.Private, hused]
    decide

/-- A single worker on a handler with a single slot: its number is `1`. -/
theorem lookUp_out_of_range :
    ∃ s, run (Process.step (compare : ℕ → ℕ → Ordering)) (Process.init : Process ℕ 1)
        [.initializeThread 0, .work 0 (.lookUp 4 0)] = some s ∧
      s.used = [(0, 1)] ∧ EpochHandler.noThreads 1 = 1 ∧ ¬ s.InRange := by
  refine ⟨_, rfl, rfl, rfl, ?_⟩
  intro hrange
  exact absurd (hrange (0, 1) (by decide)) (by decide)

end OptLock
