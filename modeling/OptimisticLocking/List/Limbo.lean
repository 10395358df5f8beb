import OptimisticLocking.List.ChainInvariant
import OptimisticLocking.Sync.Reclamation

/-!
# Deleted nodes that are never reclaimed

`FreeOutdatedPtr` frees what was deferred below the minimum of all slots, and that is `MAX_VALUE`
at most.  `LookUp` opens an `EpochGuard`, `Delete` does not: what it defers has the tag that the
slot of its thread happens to hold.  After the first guard of the thread that is `MAX_VALUE`,
unless the caller has opened another guard around the `Delete`.

* `LimboSt` — threads on one list whose callers may also open an `EpochGuard` themselves.
* `ListSt.Collectable` — every tag in a limbo list is below `MAX_VALUE`.  Only a deferral changes
  this: `ListSt.collectable_step`.
* `ListSt.Collecting` — inside `FreeOutdatedPtr` while all slots are idle.
* **`deleted_reclaimable_iff`**, and **`idle_delete_stuck`** where a tag is `MAX_VALUE`.
-/

namespace OptLock

open LinkedList OrderedList HybridLock Transition

/-! ## Guards of the callers -/

/-- Threads on one list and its handler. -/
structure LimboSt (n : ℕ) (T A W : Type) where
  list : ListSt n T A W
  /-- The `EpochGuard` that the caller has opened outside of all calls. -/
  guard : Fin n → GuardPc
  /-- The slots that have been through an `EpochGuard`. -/
  through : Fin n → Bool

inductive LimboAct (n : ℕ) (T A : Type)
  | list (a : ListAct n T A)
  /-- The constructor of an `EpochGuard`: the load of the global epoch. -/
  | enter (t : Fin n)
  /-- The constructor of an `EpochGuard`: the store to the slot. -/
  | publish (t : Fin n)
  /-- The destructor of an `EpochGuard`. -/
  | leave (t : Fin n)
  deriving DecidableEq

namespace LimboSt

variable {n : ℕ} {T A W : Type}

def init : LimboSt n T A W :=
  { list := .init, guard := fun _ => .outside, through := fun _ => false }

/-- The slots that have been through a guard when the next access of `t` was made: the destructor
of the guard in `LookUp` completes one. -/
def throughAfter (s : LimboSt n T A W) : ListAct n T A → Fin n → Bool
  | .resume t _ =>
      match s.list.pc t with
      | .epochLeave _ _ => Function.update s.through t true
      | _ => s.through
  | _ => s.through

/-- Not in the middle of the constructor of a guard. -/
def mayAct (s : LimboSt n T A W) (a : ListAct n T A) : Bool :=
  match a.thread with
  | none => true
  | some t =>
      match s.guard t with
      | .entering _ => false
      | _ => true

variable {cmp : T → T → Ordering} [DecidableEq A] (L : Layout W cmp)

/-- One step.  Callers do not nest their guards. -/
def step (s : LimboSt n T A W) : LimboAct n T A → Option (LimboSt n T A W)
  | .list a =>
      if s.mayAct a then
        (s.list.step L a).map fun list => { s with list := list, through := s.throughAfter a }
      else none
  | .enter t =>
      match s.list.pc t, s.guard t with
      | .outside _, .outside =>
          some { s with
            guard := Function.update s.guard t (.entering s.list.handler.globalEpoch) }
      | _, _ => none
  | .publish t =>
      match s.guard t with
      | .entering epoch =>
          some { s with
            list := { s.list with handler := s.list.handler.publish t epoch }
            guard := Function.update s.guard t .inside }
      | _ => none
  | .leave t =>
      match s.list.pc t, s.guard t with
      | .outside _, .inside =>
          some { s with
            list := { s.list with handler := s.list.handler.leave t }
            guard := Function.update s.guard t .outside
            through := Function.update s.through t true }
      | _, _ => none

end LimboSt

/-- Everything an enabled action can do to the state. -/
inductive LimboEffect {n : ℕ} {T A W : Type} [DecidableEq A] {cmp : T → T → Ordering}
    (L : Layout W cmp) (s : LimboSt n T A W) : LimboAct n T A → LimboSt n T A W → Prop
  | list (a : ListAct n T A) (list : ListSt n T A W) (hstep : s.list.step L a = some list) :
      LimboEffect L s (.list a) { s with list := list, through := s.throughAfter a }
  | enter (t : Fin n) (hguard : s.guard t = .outside) :
      LimboEffect L s (.enter t) { s with
        guard := Function.update s.guard t (.entering s.list.handler.globalEpoch) }
  | publish (t : Fin n) (epoch : ℕ) (hguard : s.guard t = .entering epoch) :
      LimboEffect L s (.publish t) { s with
        list := { s.list with handler := s.list.handler.publish t epoch }
        guard := Function.update s.guard t .inside }
  | leave (t : Fin n) (hguard : s.guard t = .inside) :
      LimboEffect L s (.leave t) { s with
        list := { s.list with handler := s.list.handler.leave t }
        guard := Function.update s.guard t .outside
        through := Function.update s.through t true }

/-- **Inversion of `step`.** -/
theorem LimboSt.step_effect {n : ℕ} {T A W : Type} [DecidableEq A] {cmp : T → T → Ordering}
    {L : Layout W cmp} {s s' : LimboSt n T A W} {a : LimboAct n T A}
    (h : s.step L a = some s') : LimboEffect L s a s' := by
  cases a with
  | list a =>
      simp only [step] at h
      split_ifs at h
      obtain ⟨list, hstep, rfl⟩ := Option.map_eq_some_iff.mp h
      exact .list a list hstep
  | enter t =>
      simp only [step] at h
      split at h
      · next ret _ hguard =>
          cases h
          exact .enter t hguard
      · cases h
  | publish t =>
      simp only [step] at h
      split at h
      · next epoch hguard =>
          cases h
          exact .publish t epoch hguard
      · cases h
  | leave t =>
      simp only [step] at h
      split at h
      · next ret _ hguard =>
          cases h
          exact .leave t hguard
      · cases h

/-! ## What becomes of a tag -/

section tags

variable {n : ℕ} {T A W : Type}

/-- The minimum that `FreeOutdatedPtr` works with is `MAX_VALUE` at most; what it has freed had
lower tags. -/
def ListPc.ScanOk (entries : List (ToFreePointer A)) : ListPc T A W → Prop
  | .scanning _ m => m ≤ EpochHandler.maxValue
  | .freeing m idx =>
      m ≤ EpochHandler.maxValue ∧ ∀ e ∈ entries.take idx, e.epoch < EpochHandler.maxValue
  | _ => True

namespace ListSt

def ScansOk (s : ListSt n T A W) : Prop := ∀ t, (s.pc t).ScanOk (s.handler.toFreePtr t)

/-- Every tag in the limbo list of `t` is below `MAX_VALUE`. -/
def Collectable (s : ListSt n T A W) (t : Fin n) : Prop :=
  ∀ e ∈ s.handler.toFreePtr t, e.epoch < EpochHandler.maxValue

/-- When the next access of `t` is the deferral of a node, its slot is below `MAX_VALUE`. -/
def DefersBelowMax (s : ListSt n T A W) (t : Fin n) : Prop :=
  match s.pc t with
  | .deferFreePointer _ => s.handler.localEpoch t < EpochHandler.maxValue
  | _ => True

lemma defersBelowMax_iff (s : ListSt n T A W) (t : Fin n) :
    (match s.pc t with
      | .deferFreePointer _ => decide (s.handler.localEpoch t < EpochHandler.maxValue)
      | _ => true) = true ↔ s.DefersBelowMax t := by
  unfold DefersBelowMax
  split <;> simp

instance (s : ListSt n T A W) (t : Fin n) : Decidable (s.DefersBelowMax t) :=
  decidable_of_bool _ (s.defersBelowMax_iff t)

end ListSt

lemma scanOk_of_not {pc : ListPc T A W} {entries : List (ToFreePointer A)}
    (h : pc.reclaiming = false) : pc.ScanOk entries := by
  cases pc with
  | scanning | freeing => cases h
  | _ => trivial

variable {cmp : T → T → Ordering} {L : Layout W cmp} {s s' : ListSt n T A W} {t : Fin n}

/-- No step that only reads defers a node. -/
lemma ReadEffect.defersBelowMax {pc : ListPc T A W} (h : ReadEffect L s t pc) :
    s.DefersBelowMax t := by
  rw [ListSt.DefersBelowMax]
  cases h <;> simp [*]

namespace ListSt

variable [DecidableEq A] {a : ListAct n T A}

/-- **The step lemma** of the scans. -/
theorem ScansOk.step (h : s.ScansOk) (hstep : s.step L a = some s') : s'.ScansOk := by
  intro t
  by_cases ht : a.thread = some t
  · by_cases hrec : (s'.pc t).reclaiming = true
    · have hok := h t
      cases ListSt.reclaim_effect hstep ht hrec with
      | call ret hpc =>
          rw [setPc_pc, Function.update_self]
          exact Nat.le_refl _
      | scan i m hpc hi =>
          rw [hpc] at hok
          rw [setPc_pc, Function.update_self]
          exact (Nat.min_le_left ..).trans hok
      | scanned i m hpc hi =>
          rw [hpc] at hok
          rw [setPc_pc, Function.update_self]
          exact ⟨hok, by simp⟩
      | free m idx hpc e he hold =>
          rw [hpc] at hok
          rw [setPc_pc, Function.update_self]
          refine ⟨hok.1, ?_⟩
          intro e' he'
          rw [setPc_handler, List.take_add_one, he] at he'
          rcases List.mem_append.mp he' with hbefore | hlast
          · exact hok.2 e' hbefore
          · obtain rfl : e' = e := by simpa using hlast
            exact Nat.lt_of_lt_of_le hold hok.1
    · exact scanOk_of_not (Bool.eq_false_of_not_eq_true hrec)
  · obtain ⟨hpc, -, -, -, hlist⟩ := ListSt.step_frame hstep ht
    rw [hpc, hlist]
    exact h t

/-- **The step lemma** of the tags. -/
theorem collectable_step (h : s.ScansOk) (hstep : s.step L a = some s') :
    s'.Collectable t ↔ s.Collectable t ∧ (a.thread = some t → s.DefersBelowMax t) := by
  by_cases ht : a.thread = some t
  · rw [forall_prop_of_true ht]
    cases ListSt.step_effect hstep with
    | advanceGlobalEpoch => cases ht
    | call u c ret hpc =>
        obtain rfl : u = t := Option.some.inj ht
        rw [DefersBelowMax, hpc]
        cases c <;> exact (and_iff_left trivial).symm
    | freeOutdatedPtr u ret hpc =>
        obtain rfl : u = t := Option.some.inj ht
        rw [DefersBelowMax, hpc]
        exact (and_iff_left trivial).symm
    | read u fresh pc hread =>
        obtain rfl : u = t := Option.some.inj ht
        exact (and_iff_left hread.defersBelowMax).symm
    | deferFreePointer u fresh current hpc =>
        obtain rfl : u = t := Option.some.inj ht
        rw [DefersBelowMax, hpc]
        simp [Collectable, EpochHandler.deferFreePointer, or_imp, forall_and]
    | erased u fresh m idx hpc =>
        obtain rfl : u = t := Option.some.inj ht
        have hok := h u
        rw [hpc] at hok
        rw [DefersBelowMax, hpc]
        refine Iff.trans ?_ (and_iff_left trivial).symm
        -- what was erased had tags below `MAX_VALUE`
        constructor
        · intro hall e he
          rw [← List.take_append_drop idx (s.handler.toFreePtr u)] at he
          rcases List.mem_append.mp he with hbefore | hafter
          · exact hok.2 e hbefore
          · exact hall e (by simpa [EpochHandler.erasePrefix] using hafter)
        · intro hall e he
          refine hall e (List.mem_of_mem_drop (i := idx) ?_)
          simpa [EpochHandler.erasePrefix] using he
    | newNode u fresh value dst next halloc =>
        obtain rfl : u = t := Option.some.inj ht
        cases halloc with
        | head hpc | inner _ _ hpc =>
            rw [DefersBelowMax, hpc]
            exact (and_iff_left trivial).symm
    | lockRefused u _ _ _ hpc | lockAcquired u _ _ _ hpc | overwrite u _ _ _ _ hpc
    | linkNew u _ _ _ hpc | linkPast u _ _ _ _ hpc | unlockCall u _ _ hpc | unlocking u _ _ hpc
    | publish u _ _ _ hpc | optimisticLock u _ _ hpc | copy u _ _ _ _ hpc | leave u _ _ _ hpc
    | free u _ _ _ hpc =>
        obtain rfl : u = t := Option.some.inj ht
        rw [DefersBelowMax, hpc]
        exact (and_iff_left trivial).symm
  · obtain ⟨-, -, -, -, hlist⟩ := ListSt.step_frame hstep ht
    rw [Collectable, hlist]
    exact (and_iff_left fun hown => absurd hown ht).symm

/-- A `LookUp` that returns leaves the slot idle; nothing else that leads out of a `LookUp` or stays
outside of one stores to the slot. -/
lemma resume_idle {fresh : A} (hstep : s.step L (.resume t fresh) = some s')
    (hlook : (s'.pc t).lookingUp = none) :
    ((s.pc t).lookingUp = none ∧ s'.handler.localEpoch t = s.handler.localEpoch t) ∨
      s'.handler.localEpoch t = EpochHandler.maxValue := by
  cases ListSt.step_effect hstep with
  | read _ _ pc hread =>
      rw [setPc_pc, Function.update_self, hread.sameRole.lookingUp] at hlook
      exact .inl ⟨hlook, rfl⟩
  | leave _ _ value ret hpc => exact .inr (Function.update_self ..)
  | publish => simp [ListPc.lookingUp] at hlook
  | optimisticLock | copy =>
      simp only [setPc_pc, Function.update_self] at hlook
      split_ifs at hlook <;> cases hlook
  | newNode _ _ value dst next halloc =>
      cases halloc with
      | head hpc | inner _ _ hpc => exact .inl ⟨by rw [hpc]; rfl, rfl⟩
  | lockRefused _ _ _ _ hpc | lockAcquired _ _ _ _ hpc | overwrite _ _ _ _ _ hpc
  | linkNew _ _ _ _ hpc | linkPast _ _ _ _ _ hpc | deferFreePointer _ _ _ hpc
  | unlockCall _ _ _ hpc | unlocking _ _ _ hpc | free _ _ _ _ hpc | erased _ _ _ _ hpc =>
      exact .inl ⟨by rw [hpc]; rfl, rfl⟩

end ListSt

end tags

/-! ## The invariant -/

namespace LimboSt

variable {n : ℕ} {T A W : Type}

/-- A `Delete` of `t` defers its node while the slot of `t` is below `MAX_VALUE`. -/
def DefersBelowMax (t : Fin n) (s : LimboSt n T A W) : LimboAct n T A → Prop
  | .list a => a.thread = some t → s.list.DefersBelowMax t
  | _ => True

instance (t : Fin n) (s : LimboSt n T A W) (a : LimboAct n T A) :
    Decidable (s.DefersBelowMax t a) := by
  unfold DefersBelowMax
  split <;> infer_instance

/-- All calls have returned, and nobody is inside an `EpochGuard`. -/
def Quiet (s : LimboSt n T A W) : Prop :=
  ∀ t, (∃ ret, s.list.pc t = .outside ret) ∧ s.guard t = .outside

variable {s : LimboSt n T A W} {t : Fin n}

lemma throughAfter_of_ne {a : ListAct n T A} (ht : a.thread ≠ some t) :
    s.throughAfter a t = s.through t := by
  cases a with
  | resume u fresh =>
      have hne : t ≠ u := fun htu => ht (htu ▸ rfl)
      cases hpc : s.list.pc u with
      | epochLeave => simp [throughAfter, hpc, hne]
      | _ => simp [throughAfter, hpc]
  | _ => rfl

/-- Only a `LookUp` takes its slot through a guard. -/
lemma throughAfter_of_none {fresh : A} (hlook : (s.list.pc t).lookingUp = none) :
    s.throughAfter (.resume t fresh) = s.through := by
  rw [throughAfter]
  split
  · next hpc =>
      rw [hpc] at hlook
      cases hlook
  · rfl

end LimboSt

structure LimboInv {n : ℕ} {T A W : Type} {cmp : T → T → Ordering} (L : Layout W cmp)
    (s : LimboSt n T A W) : Prop where
  list : ∃ l, ListInv L s.list l
  scans : s.list.ScansOk
  /-- A slot that has been through a guard is idle outside of the next. -/
  idle : ∀ t, s.through t = true → s.guard t ≠ .inside → (s.list.pc t).lookingUp = none →
    s.list.handler.localEpoch t = EpochHandler.maxValue

namespace LimboInv

variable {n : ℕ} {T A W : Type} {cmp : T → T → Ordering} {L : Layout W cmp}
  {s s' : LimboSt n T A W}

lemma init : LimboInv L (LimboSt.init : LimboSt n T A W) where
  list := ⟨[], .init⟩
  scans := fun _ => trivial
  idle := nofun

variable [DecidableEq A] {a : LimboAct n T A}

omit [DecidableEq A] in
/-- The invariant of the list says nothing about the slots. -/
lemma of_slots {list : ListSt n T A W} {l : List (A × List W)} (h : ListInv L list l)
    {handler : EpochHandler n A} (hlists : handler.toFreePtr = list.handler.toFreePtr) :
    ListInv L { list with handler := handler } l := by
  have howned : ListSt.owned { list with handler := handler } = list.owned := by
    refine Finset.sum_congr rfl ?_
    intro u _
    rw [ListSt.held, ListSt.held, ListSt.waiting, ListSt.waiting, hlists]
  exact ⟨h.lock, h.roles, h.chain, h.accounts.move (congrArg _ howned) (fun _ => rfl), h.writer,
    h.stored, h.result⟩

/-- A step of the list. -/
lemma step_idle (h : LimboInv L s) {a : ListAct n T A} {list : ListSt n T A W}
    (hstep : s.list.step L a = some list) (t : Fin n) (hthrough : s.throughAfter a t = true)
    (hguard : s.guard t ≠ .inside) (hlook : (list.pc t).lookingUp = none) :
    list.handler.localEpoch t = EpochHandler.maxValue := by
  by_cases ht : a.thread = some t
  · cases a with
    | advanceGlobalEpoch => cases ht
    | call u c =>
        obtain rfl : u = t := Option.some.inj ht
        cases ListSt.step_effect hstep with
        | call _ _ ret hpc =>
            have hslot := h.idle u hthrough hguard (by rw [hpc]; rfl)
            cases c <;> exact hslot
    | freeOutdatedPtr u =>
        obtain rfl : u = t := Option.some.inj ht
        cases ListSt.step_effect hstep with
        | freeOutdatedPtr _ ret hpc => exact h.idle u hthrough hguard (by rw [hpc]; rfl)
    | resume u fresh =>
        obtain rfl : u = t := Option.some.inj ht
        rcases ListSt.resume_idle hstep hlook with ⟨hlook', hslot⟩ | hslot
        · rw [LimboSt.throughAfter_of_none hlook'] at hthrough
          rw [hslot]
          exact h.idle u hthrough hguard hlook'
        · exact hslot
  · obtain ⟨hpc, -, -, hslot, -⟩ := ListSt.step_frame hstep ht
    rw [LimboSt.throughAfter_of_ne ht] at hthrough
    rw [hslot]
    exact h.idle t hthrough hguard (hpc ▸ hlook)

/-- **The step lemma.** -/
theorem step (h : LimboInv L s) (hstep : s.step L a = some s') : LimboInv L s' := by
  obtain ⟨l, hlist⟩ := h.list
  cases LimboSt.step_effect hstep with
  | list a list hlistStep =>
      exact ⟨hlist.step hlistStep, h.scans.step hlistStep, h.step_idle hlistStep⟩
  | enter t hguard =>
      refine ⟨h.list, h.scans, ?_⟩
      intro u hthrough hguard' hlook
      refine h.idle u hthrough ?_ hlook
      by_cases hu : u = t
      · rw [hu, hguard]
        nofun
      · simpa [hu] using hguard'
  | publish t epoch hguard =>
      refine ⟨⟨l, of_slots hlist rfl⟩, h.scans, ?_⟩
      intro u hthrough hguard' hlook
      by_cases hu : u = t
      · exact absurd (hu ▸ Function.update_self ..) hguard'
      · have hold : s.guard u ≠ .inside := by simpa [hu] using hguard'
        simpa [EpochHandler.publish, hu] using h.idle u hthrough hold hlook
  | leave t hguard =>
      refine ⟨⟨l, of_slots hlist rfl⟩, h.scans, ?_⟩
      intro u hthrough hguard' hlook
      by_cases hu : u = t
      · simp [EpochHandler.leave, hu]
      · have hold : s.guard u ≠ .inside := by simpa [hu] using hguard'
        have hbefore : s.through u = true := by simpa [hu] using hthrough
        simpa [EpochHandler.leave, hu] using h.idle u hbefore hold hlook

/-- **The run lemma.**  Every tag in the limbo list of `t` is below `MAX_VALUE` exactly when every
deferral of `t` so far has found its slot below it. -/
theorem run {tr : List (LimboAct n T A)} (t : Fin n)
    (hrun : Transition.run (LimboSt.step L) .init tr = some s) :
    LimboInv L s ∧ (s.list.Collectable t ↔
      EveryStep (LimboSt.step L) (LimboSt.DefersBelowMax t) LimboSt.init tr) := by
  refine run_invariant_of_trace (I := fun tr s => LimboInv L s ∧ (s.list.Collectable t ↔
    EveryStep (LimboSt.step L) (LimboSt.DefersBelowMax t) LimboSt.init tr)) ?_ ?_ hrun
  · intro tr s a s' htr ih hstep
    obtain ⟨hinv, hall⟩ := ih
    refine ⟨hinv.step hstep, ?_⟩
    rw [everyStep_snoc htr, ← hall]
    cases LimboSt.step_effect hstep with
    | list a list hlistStep => exact ListSt.collectable_step hinv.scans hlistStep
    | _ => exact (and_iff_left trivial).symm
  · refine ⟨.init, iff_of_true ?_ .nil⟩
    intro e he
    cases he

end LimboInv

/-! ## `FreeOutdatedPtr` while all slots are idle -/

namespace ListSt

variable {n : ℕ} {T A W : Type} {cmp : T → T → Ordering} (L : Layout W cmp)

/-- Called for `t`, `FreeOutdatedPtr` has returned and has left nothing. -/
def Collected (s : ListSt n T A W) (t : Fin n) : Prop :=
  s.pc t = .outside none ∧ s.handler.toFreePtr t = []

/-- `AdvanceGlobalEpoch` and then `FreeOutdatedPtr(t)` leave the limbo list of `t` empty.  `fresh`
is an address that no `malloc` of theirs returns. -/
def Reclaimable [DecidableEq A] (s : ListSt n T A W) (t : Fin n) (fresh : A) : Prop :=
  ∃ k s', run (ListSt.step L) s
      (.advanceGlobalEpoch :: .freeOutdatedPtr t :: List.replicate k (.resume t fresh)) = some s' ∧
    s'.Collected t

/-- How far `FreeOutdatedPtr` has come when all slots are idle: the minimum is `MAX_VALUE`. -/
inductive CollectPos (s : ListSt n T A W) (t : Fin n) : Prop
  | scanning (i : ℕ) (hpc : s.pc t = .scanning i EpochHandler.maxValue)
  | freeing (idx : ℕ) (hpc : s.pc t = .freeing EpochHandler.maxValue idx)
  | collected (h : s.Collected t)

structure Collecting (t : Fin n) (s : ListSt n T A W) : Prop where
  list : ∃ l, ListInv L s l
  slots : ∀ u, s.handler.localEpoch u = EpochHandler.maxValue
  tags : s.Collectable t
  pos : s.CollectPos t

/-- The accesses that are still to come, at most. -/
def collectMeasure (s : ListSt n T A W) (t : Fin n) : ℕ :=
  match s.pc t with
  | .scanning i _ => (n - i) + (s.handler.toFreePtr t).length + 2
  | .freeing _ idx => (s.handler.toFreePtr t).length - idx + 1
  | _ => 0

variable {L} [DecidableEq A] {s s' : ListSt n T A W} {t : Fin n} {fresh : A}

/-- **The step lemma.** -/
theorem Collecting.step (fresh : A) (h : Collecting L t s) (hgoal : ¬ s.Collected t) :
    ∃ s', s.step L (.resume t fresh) = some s' ∧ Collecting L t s' ∧
      (s'.Collected t ∨ s'.collectMeasure t < s.collectMeasure t) := by
  obtain ⟨l, hlist⟩ := h.list
  cases h.pos with
  | scanning i hpc =>
      by_cases hi : i < n
      · have hstep : s.step L (.resume t fresh) =
            some (s.setPc t (.scanning (i + 1) EpochHandler.maxValue)) := by
          simp [ListSt.step, resume, read, hpc, hi, h.slots]
        refine ⟨_, hstep, ⟨hlist.step hstep, h.slots, h.tags, ?_⟩, .inr ?_⟩
        · exact .scanning (i + 1) (Function.update_self ..)
        · simp only [collectMeasure, hpc, setPc_pc, Function.update_self, setPc_handler]
          omega
      · have hstep : s.step L (.resume t fresh) =
            some (s.setPc t (.freeing EpochHandler.maxValue 0)) := by
          simp [ListSt.step, resume, read, hpc, hi]
        refine ⟨_, hstep, ⟨hlist.step hstep, h.slots, h.tags, ?_⟩, .inr ?_⟩
        · exact .freeing 0 (Function.update_self ..)
        · simp only [collectMeasure, hpc, setPc_pc, Function.update_self, setPc_handler]
          omega
  | freeing idx hpc =>
      cases he : (s.handler.toFreePtr t)[idx]? with
      | none =>
          have hlen := List.getElem?_eq_none_iff.mp he
          have hstep : s.step L (.resume t fresh) = some { s.setPc t (.outside none) with
              handler := s.handler.erasePrefix t idx } := by
            simp [ListSt.step, resume, hpc, freeStep, he]
          have hdone : Collected { s.setPc t (.outside none) with
              handler := s.handler.erasePrefix t idx } t := by
            refine ⟨Function.update_self .., ?_⟩
            simp [EpochHandler.erasePrefix, List.drop_eq_nil_of_le hlen]
          refine ⟨_, hstep, ⟨hlist.step hstep, h.slots, ?_, .collected hdone⟩, .inl hdone⟩
          rw [Collectable, hdone.2]
          exact fun e he' => absurd he' List.not_mem_nil
      | some e =>
          have htag := h.tags e (List.mem_of_getElem? he)
          -- a node that waits to be freed is allocated
          have halloc : (s.heap.node e.ptr).isSome := by
            refine (hlist.accounts.mem e.ptr).mp (Multiset.mem_add.mpr (.inr ?_))
            refine mem_owned.mpr ⟨t, ?_⟩
            rw [held_of_freeing hpc he]
            exact List.mem_cons_self
          obtain ⟨node, hnode⟩ := Option.isSome_iff_exists.mp halloc
          have hstep : s.step L (.resume t fresh) = some
              { s.setPc t (.freeing EpochHandler.maxValue (idx + 1)) with
                heap := s.heap.free e.ptr } := by
            simp [ListSt.step, resume, hpc, freeStep, he, hnode, Nat.not_le_of_lt htag]
          have hlt := (List.getElem?_eq_some_iff.mp he).1
          refine ⟨_, hstep, ⟨hlist.step hstep, h.slots, h.tags, ?_⟩, .inr ?_⟩
          · exact .freeing (idx + 1) (Function.update_self ..)
          · simp only [collectMeasure, hpc, setPc_pc, Function.update_self, setPc_handler]
            omega
  | collected hdone => exact absurd hdone hgoal

/-- When all slots are idle, a limbo list whose tags are below `MAX_VALUE` is emptied. -/
theorem reclaimable_of_idle {l : List (A × List W)} (h : ListInv L s l) {ret : Option Bool}
    (hpc : s.pc t = .outside ret) (hslots : ∀ u, s.handler.localEpoch u = EpochHandler.maxValue)
    (htags : s.Collectable t) : s.Reclaimable L t fresh := by
  let s₁ : ListSt n T A W := { s with handler := s.handler.advanceGlobalEpoch }
  let s₂ : ListSt n T A W := s₁.setPc t (.scanning 0 EpochHandler.maxValue)
  have hadvance : s.step L .advanceGlobalEpoch = some s₁ := rfl
  have hcall : s₁.step L (.freeOutdatedPtr t) = some s₂ := by
    have hpc₁ : s₁.pc t = .outside ret := hpc
    rw [ListSt.step, hpc₁]
  have hinv₂ : Collecting L t s₂ :=
    ⟨⟨l, h.advanceGlobalEpoch.freeOutdatedPtr hpc⟩, hslots, htags,
      .scanning 0 (Function.update_self ..)⟩
  obtain ⟨s', hrepeats, -, hdone⟩ := exists_repeats_of_decreasing
    (I := Collecting L t) (G := fun s => s.Collected t) (f := fun s => s.collectMeasure t)
    (fun _ hcollecting hgoal => hcollecting.step fresh hgoal) hinv₂
  obtain ⟨k, hrun⟩ := exists_run_of_repeats hrepeats
  exact ⟨k, s', run_cons_eq_some.mpr ⟨s₁, hadvance, run_cons_eq_some.mpr ⟨s₂, hcall, hrun⟩⟩, hdone⟩

/-- An entry with the tag `MAX_VALUE` is never freed. -/
theorem not_reclaimable_of_stuck (h : s.ScansOk) (hstuck : ¬ s.Collectable t) :
    ¬ s.Reclaimable L t fresh := by
  rintro ⟨k, s', hrun, -, hempty⟩
  obtain ⟨-, hstuck'⟩ := run_invariant (I := fun s => s.ScansOk ∧ ¬ s.Collectable t)
    (fun _ _ _ hinv hstep =>
      ⟨hinv.1.step hstep, fun hall => hinv.2 ((collectable_step hinv.1 hstep).mp hall).1⟩)
    ⟨h, hstuck⟩ hrun
  refine hstuck' ?_
  rw [Collectable, hempty]
  nofun

end ListSt

/-! ## When deleted nodes can be reclaimed -/

/-- **Reclamation.**  Any number of threads run `Insert`, `Delete`, `LookUp`, `AdvanceGlobalEpoch`
and `FreeOutdatedPtr`, with guards of their own around them or not, in any interleaving.  When
every slot has been through a guard, all calls have returned and nobody is inside a guard,
`AdvanceGlobalEpoch` and `FreeOutdatedPtr(t)` leave nothing in the limbo list of `t`, exactly when
every `Delete` of `t` deferred its node while the slot of `t` was below `MAX_VALUE`. -/
theorem deleted_reclaimable_iff {n : ℕ} {T A W : Type} [DecidableEq A] {cmp : T → T → Ordering}
    (L : Layout W cmp) (fresh : A) {tr : List (LimboAct n T A)} {s : LimboSt n T A W}
    (hrun : run (LimboSt.step L) LimboSt.init tr = some s)
    (hthrough : ∀ t, s.through t = true) (hquiet : s.Quiet) (t : Fin n) :
    s.list.Reclaimable L t fresh ↔
      EveryStep (LimboSt.step L) (LimboSt.DefersBelowMax t) LimboSt.init tr := by
  obtain ⟨hinv, htags⟩ := LimboInv.run t hrun
  rw [← htags]
  obtain ⟨l, hlist⟩ := hinv.list
  obtain ⟨⟨ret, hpc⟩, -⟩ := hquiet t
  have hslots : ∀ u, s.list.handler.localEpoch u = EpochHandler.maxValue := by
    intro u
    obtain ⟨⟨ret, hpc⟩, hguard⟩ := hquiet u
    refine hinv.idle u (hthrough u) ?_ (by rw [hpc]; rfl)
    rw [hguard]
    nofun
  constructor
  · intro hreclaimable
    by_contra hstuck
    exact ListSt.not_reclaimable_of_stuck hinv.scans hstuck hreclaimable
  · exact ListSt.reclaimable_of_idle hlist hpc hslots

/-- Thread `0` deletes 412 inside a guard of its own while thread `1` looks it up.  When both are
through, the node is waiting with the tag 0 and can be reclaimed. -/
theorem deleted_reclaimable_guarded :
    ∃ (tr : List (LimboAct 2 ℕ ℕ)) (s : LimboSt 2 ℕ ℕ ℕ),
      run (LimboSt.step digits) LimboSt.init tr = some s ∧
      s.list.handler.toFreePtr 0 = [⟨7, 0⟩] ∧ s.list.Reclaimable digits 0 0 := by
  let before : List (ListAct 2 ℕ ℕ) :=
    .call 0 (.insert 412) :: resumes 0 8 7 ++ .call 1 (.lookUp 412 0) :: resumes 1 5 0
  let inside : List (ListAct 2 ℕ ℕ) := .call 0 (.delete 412) :: resumes 0 15 0
  let tr : List (LimboAct 2 ℕ ℕ) :=
    before.map .list ++ .enter 0 :: .publish 0 :: inside.map .list ++
      .leave 0 :: (resumes 1 16 0).map .list
  have hslots : (run (LimboSt.step digits) (LimboSt.init : LimboSt 2 ℕ ℕ ℕ) tr).map
      (fun s => (s.list.handler.toFreePtr 0, s.through 0, s.through 1)) =
        some ([⟨7, 0⟩], true, true) := by decide +kernel
  have hends : (run (LimboSt.step digits) (LimboSt.init : LimboSt 2 ℕ ℕ ℕ) tr).map
      (fun s => (s.list.pc 0, s.list.pc 1, s.guard 0, s.guard 1)) =
        some (.outside (some true), .outside (some false), .outside, .outside) := by
    decide +kernel
  obtain ⟨s, hrun, hslots⟩ := Option.map_eq_some_iff.mp hslots
  rw [hrun] at hends
  simp only [Option.map_some, Option.some.injEq, Prod.mk.injEq] at hslots hends
  obtain ⟨hlist, hthrough₀, hthrough₁⟩ := hslots
  obtain ⟨hpc₀, hpc₁, hguard₀, hguard₁⟩ := hends
  have hthrough : ∀ t, s.through t = true :=
    Fin.forall_fin_two.mpr ⟨hthrough₀, hthrough₁⟩
  have hquiet : s.Quiet := Fin.forall_fin_two.mpr ⟨⟨⟨_, hpc₀⟩, hguard₀⟩, ⟨⟨_, hpc₁⟩, hguard₁⟩⟩
  exact ⟨tr, s, hrun, hlist,
    (deleted_reclaimable_iff digits 0 hrun hthrough hquiet 0).mpr (by decide +kernel)⟩

/-- A thread that has looked something up inserts and deletes 412.  The node waits with the tag
`MAX_VALUE`, and stays. -/
theorem idle_delete_stuck :
    ∃ (tr : List (LimboAct 1 ℕ ℕ)) (s : LimboSt 1 ℕ ℕ ℕ),
      run (LimboSt.step digits) LimboSt.init tr = some s ∧ (∀ t, s.through t = true) ∧ s.Quiet ∧
      s.list.handler.toFreePtr 0 = [⟨7, EpochHandler.maxValue⟩] ∧
      ∀ fresh, ¬ s.list.Reclaimable digits 0 fresh := by
  let tr : List (ListAct 1 ℕ ℕ) :=
    .call 0 (.lookUp 412 0) :: resumes 0 6 0 ++ .call 0 (.insert 412) :: resumes 0 8 7 ++
      .call 0 (.delete 412) :: resumes 0 15 0
  have hall : (run (LimboSt.step digits) (LimboSt.init : LimboSt 1 ℕ ℕ ℕ) (tr.map .list)).map
      (fun s => (s.list.handler.toFreePtr 0, s.through 0, s.list.pc 0, s.guard 0)) =
        some ([⟨7, EpochHandler.maxValue⟩], true, .outside (some true), .outside) := by
    decide +kernel
  obtain ⟨s, hrun, hend⟩ := Option.map_eq_some_iff.mp hall
  simp only [Prod.mk.injEq] at hend
  obtain ⟨hlist, hthrough, hpc, hguard⟩ := hend
  have hquiet : s.Quiet := Fin.forall_fin_one.mpr ⟨⟨_, hpc⟩, hguard⟩
  refine ⟨tr.map .list, s, hrun, Fin.forall_fin_one.mpr hthrough, hquiet, hlist, ?_⟩
  intro fresh
  refine ListSt.not_reclaimable_of_stuck (LimboInv.run 0 hrun).1.scans ?_
  rw [ListSt.Collectable, hlist]
  simp

end OptLock
