import OptimisticLocking.Library.Transition
import OptimisticLocking.Sync.Epoch

/-!
# Threads on one `EpochHandler`

The interleaving model of `epoch.cc`: every load and store of an epoch is a step of its own, so
the two steps of entering a guard and the slot-by-slot scan of `FreeOutdatedPtr` mix freely with
the steps of other threads.

A deferred pointer carries a ghost, the threads that were inside a guard when it was deferred and
have not left that guard since.  Reclamation is safe when a pointer is freed only after they all
left.

* `EpochSt.step` — the code; `Disciplined` — its callers defer inside their own guard and reclaim
  outside of it.  `EpochSt.step_effect` — everything that one step can do.
* `TagCovers` — the condition under which the code is safe: at a deferral, no thread is inside a
  guard with a later epoch than the tag.  The tag is the epoch of the *deferring thread's* guard,
  and that thread may have entered long before the readers.
* `EpochInv` — what a covered tag gives: the slots of the readers stay at or below it.
-/

namespace OptLock

open Transition

/-- A deferred pointer and the threads whose guards it was deferred in. -/
structure Pinned (n : ℕ) (Ptr : Type) where
  ptr : Ptr
  readers : Finset (Fin n)
  deriving DecidableEq

/-- Where a thread is with respect to its `EpochGuard`. -/
inductive GuardPc
  | outside
  /-- In the constructor: the global epoch is loaded, the store comes next. -/
  | entering (epoch : ℕ)
  | inside
  deriving DecidableEq, Repr

/-- Where a thread is inside `FreeOutdatedPtr`. -/
inductive ReclaimPc
  | idle
  /-- The slots before `i` have been scanned. -/
  | scanning (i minEpoch : ℕ)
  | freeing (minEpoch idx : ℕ)
  deriving DecidableEq, Repr

structure EpochSt (n : ℕ) (Ptr : Type) where
  handler : EpochHandler n (Pinned n Ptr)
  guard : Fin n → GuardPc
  reclaim : Fin n → ReclaimPc
  /-- What was freed, latest first, with the readers it had at that moment. -/
  freed : List (Pinned n Ptr)

inductive EpochAct (n : ℕ) (Ptr : Type)
  | advanceGlobalEpoch
  /-- The constructor of an `EpochGuard`: the load of the global epoch. -/
  | enter (t : Fin n)
  /-- The constructor of an `EpochGuard`: the store to the slot. -/
  | publish (t : Fin n)
  /-- The destructor of an `EpochGuard`. -/
  | leave (t : Fin n)
  | deferFreePointer (t : Fin n) (p : Ptr)
  /-- Call `FreeOutdatedPtr`. -/
  | freeOutdatedPtr (t : Fin n)
  /-- The next step of the call of `FreeOutdatedPtr` that `t` is inside. -/
  | reclaim (t : Fin n)

namespace EpochHandler

variable {n : ℕ} {Ptr : Type}

/-- Thread `t` left its guard: it no longer pins what was deferred meanwhile. -/
def unpin (h : EpochHandler n (Pinned n Ptr)) (t : Fin n) : EpochHandler n (Pinned n Ptr) :=
  { h with
    toFreePtr := fun u => (h.toFreePtr u).map fun e =>
      { e with ptr := { e.ptr with readers := e.ptr.readers.erase t } } }

end EpochHandler

namespace EpochSt

variable {n : ℕ} {Ptr : Type}

def init : EpochSt n Ptr :=
  { handler := EpochHandler.init, guard := fun _ => .outside, reclaim := fun _ => .idle,
    freed := [] }

/-- The threads inside a guard. -/
def inside (s : EpochSt n Ptr) : Finset (Fin n) := Finset.univ.filter fun r => s.guard r = .inside

/-- One step of `FreeOutdatedPtr`: a load of the scan, a round of the freeing loop, or the
`erase`. -/
def reclaimStep (s : EpochSt n Ptr) (t : Fin n) : Option (EpochSt n Ptr) :=
  match s.reclaim t with
  | .idle => none
  | .scanning i m =>
      if hi : i < n then
        some { s with reclaim :=
          Function.update s.reclaim t (.scanning (i + 1) (min m (s.handler.localEpoch ⟨i, hi⟩))) }
      else some { s with reclaim := Function.update s.reclaim t (.freeing m 0) }
  | .freeing m idx =>
      let stop : EpochSt n Ptr := { s with
        handler := s.handler.erasePrefix t idx
        reclaim := Function.update s.reclaim t .idle }
      match (s.handler.toFreePtr t)[idx]? with
      | none => some stop
      | some e =>
          if e.epoch ≥ m then some stop
          else some { s with
            reclaim := Function.update s.reclaim t (.freeing m (idx + 1))
            freed := e.ptr :: s.freed }

/-- One atomic step.  A thread inside `FreeOutdatedPtr` or inside the constructor of a guard
starts nothing else; guards are not nested. -/
def step (s : EpochSt n Ptr) : EpochAct n Ptr → Option (EpochSt n Ptr)
  | .advanceGlobalEpoch => some { s with handler := s.handler.advanceGlobalEpoch }
  | .enter t =>
      if s.guard t = .outside ∧ s.reclaim t = .idle then
        some { s with guard := Function.update s.guard t (.entering s.handler.globalEpoch) }
      else none
  | .publish t =>
      match s.guard t with
      | .entering epoch =>
          some { s with
            handler := s.handler.publish t epoch, guard := Function.update s.guard t .inside }
      | _ => none
  | .leave t =>
      if s.guard t = .inside ∧ s.reclaim t = .idle then
        some { s with
          handler := (s.handler.leave t).unpin t, guard := Function.update s.guard t .outside }
      else none
  | .deferFreePointer t p =>
      match s.guard t, s.reclaim t with
      | .entering _, _ => none
      | _, .idle => some { s with handler := s.handler.deferFreePointer t ⟨p, s.inside⟩ }
      | _, _ => none
  | .freeOutdatedPtr t =>
      match s.guard t, s.reclaim t with
      | .entering _, _ => none
      | _, .idle =>
          some { s with
            reclaim := Function.update s.reclaim t (.scanning 0 EpochHandler.maxValue) }
      | _, _ => none
  | .reclaim t => s.reclaimStep t

/-- Pointers are deferred inside the own guard and reclaimed outside of it. -/
def Disciplined (s : EpochSt n Ptr) : EpochAct n Ptr → Prop
  | .deferFreePointer t _ => s.guard t = .inside
  | .freeOutdatedPtr t => s.guard t = .outside
  | _ => True

instance (s : EpochSt n Ptr) (a : EpochAct n Ptr) : Decidable (s.Disciplined a) := by
  cases a <;> unfold Disciplined <;> infer_instance

def clientStep : EpochSt n Ptr → EpochAct n Ptr → Option (EpochSt n Ptr) :=
  restrict Disciplined step

/-- No pointer was freed while a thread was inside a guard it had entered before the deferral. -/
def Safe (s : EpochSt n Ptr) : Prop := ∀ d ∈ s.freed, d.readers = ∅

/-- The tag that a deferral would take covers everybody who is inside a guard. -/
def TagCovers (s : EpochSt n Ptr) : EpochAct n Ptr → Prop
  | .deferFreePointer t _ =>
      ∀ r, s.guard r = .inside → s.handler.localEpoch r ≤ s.handler.localEpoch t
  | _ => True

instance (s : EpochSt n Ptr) (a : EpochAct n Ptr) : Decidable (s.TagCovers a) := by
  cases a <;> unfold TagCovers <;> infer_instance

/-! ## What one step can do -/

end EpochSt

/-- Everything an enabled action can do to the state, one constructor per outcome. -/
inductive EpochEffect {n : ℕ} {Ptr : Type} (s : EpochSt n Ptr) :
    EpochAct n Ptr → EpochSt n Ptr → Prop
  | advanceGlobalEpoch :
      EpochEffect s .advanceGlobalEpoch { s with handler := s.handler.advanceGlobalEpoch }
  | enter (t : Fin n) (hguard : s.guard t = .outside) (hidle : s.reclaim t = .idle) :
      EpochEffect s (.enter t) { s with
        guard := Function.update s.guard t (.entering s.handler.globalEpoch) }
  | publish (t : Fin n) (epoch : ℕ) (hguard : s.guard t = .entering epoch) :
      EpochEffect s (.publish t) { s with
        handler := s.handler.publish t epoch, guard := Function.update s.guard t .inside }
  | leave (t : Fin n) (hguard : s.guard t = .inside) (hidle : s.reclaim t = .idle) :
      EpochEffect s (.leave t) { s with
        handler := (s.handler.leave t).unpin t, guard := Function.update s.guard t .outside }
  | deferFreePointer (t : Fin n) (p : Ptr) (hidle : s.reclaim t = .idle) :
      EpochEffect s (.deferFreePointer t p) { s with
        handler := s.handler.deferFreePointer t ⟨p, s.inside⟩ }
  | freeOutdatedPtr (t : Fin n) (hidle : s.reclaim t = .idle) :
      EpochEffect s (.freeOutdatedPtr t) { s with
        reclaim := Function.update s.reclaim t (.scanning 0 EpochHandler.maxValue) }
  | scan (t : Fin n) (i m : ℕ) (hpc : s.reclaim t = .scanning i m) (hi : i < n) :
      EpochEffect s (.reclaim t) { s with
        reclaim := Function.update s.reclaim t
          (.scanning (i + 1) (min m (s.handler.localEpoch ⟨i, hi⟩))) }
  | scanned (t : Fin n) (i m : ℕ) (hpc : s.reclaim t = .scanning i m) (hi : n ≤ i) :
      EpochEffect s (.reclaim t) { s with
        reclaim := Function.update s.reclaim t (.freeing m 0) }
  | free (t : Fin n) (m idx : ℕ) (hpc : s.reclaim t = .freeing m idx)
      (e : ToFreePointer (Pinned n Ptr)) (he : (s.handler.toFreePtr t)[idx]? = some e)
      (hold : e.epoch < m) :
      EpochEffect s (.reclaim t) { s with
        reclaim := Function.update s.reclaim t (.freeing m (idx + 1)), freed := e.ptr :: s.freed }
  | erased (t : Fin n) (m idx : ℕ) (hpc : s.reclaim t = .freeing m idx)
      (hstop : ∀ e ∈ (s.handler.toFreePtr t)[idx]?, m ≤ e.epoch) :
      EpochEffect s (.reclaim t) { s with
        handler := s.handler.erasePrefix t idx, reclaim := Function.update s.reclaim t .idle }

namespace EpochSt

variable {n : ℕ} {Ptr : Type} {s s' : EpochSt n Ptr}

lemma reclaimStep_effect {t : Fin n} (h : s.reclaimStep t = some s') :
    EpochEffect s (.reclaim t) s' := by
  unfold reclaimStep at h
  split at h
  case h_1 => cases h
  case h_2 i m hpc =>
    split_ifs at h with hi
    · cases h
      exact .scan t i m hpc hi
    · cases h
      exact .scanned t i m hpc (Nat.le_of_not_lt hi)
  case h_3 m idx hpc =>
    dsimp only at h
    split at h
    case h_1 hnone =>
      cases h
      exact .erased t m idx hpc (by simp [hnone])
    case h_2 e he =>
      split_ifs at h with hold
      · cases h
        exact .erased t m idx hpc (by simpa [he] using hold)
      · cases h
        exact .free t m idx hpc e he (Nat.lt_of_not_le hold)

/-- **Inversion of `step`.**  Every invariant of a run is derived from this. -/
theorem step_effect {a : EpochAct n Ptr} (h : s.step a = some s') : EpochEffect s a s' := by
  cases a with
  | advanceGlobalEpoch =>
      cases h
      exact .advanceGlobalEpoch
  | enter t =>
      simp only [step] at h
      split_ifs at h with hpc
      cases h
      exact .enter t hpc.1 hpc.2
  | publish t =>
      simp only [step] at h
      split at h
      · next epoch hpc =>
          cases h
          exact .publish t epoch hpc
      · cases h
  | leave t =>
      simp only [step] at h
      split_ifs at h with hpc
      cases h
      exact .leave t hpc.1 hpc.2
  | deferFreePointer t p =>
      simp only [step] at h
      split at h
      · cases h
      · next hidle _ =>
          cases h
          exact .deferFreePointer t p hidle
      · cases h
  | freeOutdatedPtr t =>
      simp only [step] at h
      split at h
      · cases h
      · next hidle _ =>
          cases h
          exact .freeOutdatedPtr t hidle
      · cases h
  | reclaim t => exact reclaimStep_effect h

/-! ## `FreeOutdatedPtr` when nobody interferes -/

lemma repeats_scan {t : Fin n} {i m : ℕ} (hpc : s.reclaim t = .scanning i m) :
    Repeats step (.reclaim t) s { s with
      reclaim := Function.update s.reclaim t (.freeing (s.handler.scanFrom i m) 0) } := by
  induction hk : n - i generalizing s i m with
  | zero =>
      have hi : n ≤ i := by omega
      refine .single ?_
      simp [step, reclaimStep, hpc, hi.not_gt, EpochHandler.scanFrom_of_le s.handler m hi]
  | succ k ih =>
      have hi : i < n := by omega
      have hload : s.step (.reclaim t) = some { s with
          reclaim := Function.update s.reclaim t
            (.scanning (i + 1) (min m (s.handler.localEpoch ⟨i, hi⟩))) } := by
        simp [step, reclaimStep, hpc, hi]
      refine .head hload ?_
      have hleft : n - (i + 1) = k := by omega
      have hrest := ih (s := { s with
          reclaim := Function.update s.reclaim t
            (.scanning (i + 1) (min m (s.handler.localEpoch ⟨i, hi⟩))) })
        (Function.update_self ..) hleft
      rw [EpochHandler.scanFrom_of_lt s.handler m hi]
      simpa only [Function.update_idem] using hrest

lemma repeats_free {t : Fin n} {m idx : ℕ} (hpc : s.reclaim t = .freeing m idx) :
    ∃ freed, Repeats step (.reclaim t) s { s with
      handler := s.handler.erasePrefix t
        (idx + EpochHandler.outdatedCount m ((s.handler.toFreePtr t).drop idx))
      reclaim := Function.update s.reclaim t .idle
      freed := freed } := by
  induction hk : (s.handler.toFreePtr t).length - idx generalizing s idx with
  | zero =>
      have hnone : (s.handler.toFreePtr t)[idx]? = none :=
        List.getElem?_eq_none_iff.mpr (by omega)
      refine ⟨s.freed, .single ?_⟩
      rw [EpochHandler.outdatedCount_drop_of_stop (by simp [hnone])]
      simp [step, reclaimStep, hpc, hnone]
  | succ k ih =>
      have hlt : idx < (s.handler.toFreePtr t).length := by omega
      have he := List.getElem?_eq_getElem hlt
      by_cases hold : (s.handler.toFreePtr t)[idx].epoch ≥ m
      · refine ⟨s.freed, .single ?_⟩
        rw [EpochHandler.outdatedCount_drop_of_stop (by simpa [he] using hold)]
        simp [step, reclaimStep, hpc, he, hold]
      · have hfree : s.step (.reclaim t) = some { s with
            reclaim := Function.update s.reclaim t (.freeing m (idx + 1))
            freed := (s.handler.toFreePtr t)[idx].ptr :: s.freed } := by
          simp [step, reclaimStep, hpc, he, hold]
        have hleft : (s.handler.toFreePtr t).length - (idx + 1) = k := by omega
        obtain ⟨freed, hrest⟩ := ih (s := { s with
            reclaim := Function.update s.reclaim t (.freeing m (idx + 1))
            freed := (s.handler.toFreePtr t)[idx].ptr :: s.freed })
          (Function.update_self ..) hleft
        refine ⟨freed, .head hfree ?_⟩
        rw [EpochHandler.outdatedCount_drop_of_lt he (Nat.lt_of_not_le hold)]
        simpa only [Function.update_idem, Nat.add_assoc, Nat.add_comm 1] using hrest

/-- The steps of a call that nobody interferes with compute `freeOutdatedPtr`. -/
theorem repeats_freeOutdatedPtr {t : Fin n}
    (hpc : s.reclaim t = .scanning 0 EpochHandler.maxValue) :
    ∃ freed, Repeats step (.reclaim t) s { s with
      handler := (s.handler.freeOutdatedPtr t).2
      reclaim := Function.update s.reclaim t .idle
      freed := freed } := by
  have hscan := repeats_scan hpc
  obtain ⟨freed, hfree⟩ := repeats_free (s := { s with
    reclaim := Function.update s.reclaim t
      (.freeing (s.handler.scanFrom 0 EpochHandler.maxValue) 0) }) (Function.update_self ..)
  refine ⟨freed, hscan.trans ?_⟩
  simp only [Function.update_idem, EpochHandler.scanFrom_zero, List.drop_zero,
    Nat.zero_add] at hfree
  exact hfree

/-! ## The invariant -/

/-- What a thread inside `FreeOutdatedPtr` knows of the readers of its own limbo list. -/
def ReclaimOk (s : EpochSt n Ptr) (t : Fin n) : ReclaimPc → Prop
  | .idle => True
  | .scanning i m => ∀ e ∈ s.handler.toFreePtr t, ∀ r ∈ e.ptr.readers,
      r.val < i → m ≤ s.handler.localEpoch r
  | .freeing m _ => ∀ e ∈ s.handler.toFreePtr t, ∀ r ∈ e.ptr.readers,
      m ≤ s.handler.localEpoch r

end EpochSt

structure EpochInv {n : ℕ} {Ptr : Type} (s : EpochSt n Ptr) : Prop where
  pinned : ∀ t, ∀ e ∈ s.handler.toFreePtr t, ∀ r ∈ e.ptr.readers,
    s.guard r = .inside ∧ s.handler.localEpoch r ≤ e.epoch
  reclaim : ∀ t, s.ReclaimOk t (s.reclaim t)
  safe : s.Safe

namespace EpochInv

variable {n : ℕ} {Ptr : Type} {s s' : EpochSt n Ptr}

lemma init : EpochInv (EpochSt.init : EpochSt n Ptr) where
  pinned := by
    intro t e he
    cases he
  reclaim := fun _ => trivial
  safe := by
    intro d hd
    cases hd

/-- A step that changes the slots of no reader, and adds no entry, keeps what is known. -/
lemma of_slots (h : EpochInv s) {handler : EpochHandler n (Pinned n Ptr)} {guard : Fin n → GuardPc}
    (hsub : ∀ t, ∀ e ∈ handler.toFreePtr t, ∀ r ∈ e.ptr.readers,
      ∃ e' ∈ s.handler.toFreePtr t, r ∈ e'.ptr.readers ∧ e'.epoch = e.epoch)
    (hslot : ∀ r, s.guard r = .inside → (∃ t, ∃ e ∈ handler.toFreePtr t, r ∈ e.ptr.readers) →
      guard r = .inside ∧ handler.localEpoch r = s.handler.localEpoch r) :
    EpochInv { s with handler := handler, guard := guard } := by
  have hkeep : ∀ t, ∀ e ∈ handler.toFreePtr t, ∀ r ∈ e.ptr.readers,
      guard r = .inside ∧ handler.localEpoch r = s.handler.localEpoch r := by
    intro t e he r hr
    obtain ⟨e', he', hr', -⟩ := hsub t e he r hr
    exact hslot r (h.pinned t e' he' r hr').1 ⟨t, e, he, hr⟩
  refine ⟨?_, ?_, h.safe⟩
  · intro t e he r hr
    obtain ⟨e', he', hr', hepoch⟩ := hsub t e he r hr
    obtain ⟨hguard, hlocal⟩ := hkeep t e he r hr
    refine ⟨hguard, ?_⟩
    show handler.localEpoch r ≤ e.epoch
    rw [hlocal, ← hepoch]
    exact (h.pinned t e' he' r hr').2
  · intro t
    have hok := h.reclaim t
    show EpochSt.ReclaimOk _ t (s.reclaim t)
    cases hpc : s.reclaim t with
    | idle => trivial
    | scanning i m =>
        intro e he r hr hlt
        obtain ⟨e', he', hr', -⟩ := hsub t e he r hr
        rw [hpc] at hok
        show m ≤ handler.localEpoch r
        rw [(hkeep t e he r hr).2]
        exact hok e' he' r hr' hlt
    | freeing m idx =>
        intro e he r hr
        obtain ⟨e', he', hr', -⟩ := hsub t e he r hr
        rw [hpc] at hok
        show m ≤ handler.localEpoch r
        rw [(hkeep t e he r hr).2]
        exact hok e' he' r hr'

/-- A thread moves inside `FreeOutdatedPtr`. -/
lemma setReclaim (h : EpochInv s) {t : Fin n} {pc : ReclaimPc} (hok : s.ReclaimOk t pc) :
    EpochInv { s with reclaim := Function.update s.reclaim t pc } where
  pinned := h.pinned
  reclaim := by
    intro u
    have hsame : ∀ pc', s.ReclaimOk u pc' →
        EpochSt.ReclaimOk { s with reclaim := Function.update s.reclaim t pc } u pc' := by
      intro pc' hpc'
      cases pc' <;> exact hpc'
    by_cases hu : u = t
    · subst hu
      simp only [Function.update_self]
      exact hsame pc hok
    · simp only [Function.update_of_ne hu]
      exact hsame _ (h.reclaim u)
  safe := h.safe

lemma leave (h : EpochInv s) (t : Fin n) :
    EpochInv { s with
      handler := (s.handler.leave t).unpin t, guard := Function.update s.guard t .outside } := by
  refine h.of_slots ?_ ?_
  · intro u e he r hr
    obtain ⟨e', he', rfl⟩ := List.mem_map.mp he
    exact ⟨e', he', Finset.mem_of_mem_erase hr, rfl⟩
  · rintro r hr ⟨u, e, he, hmem⟩
    obtain ⟨e', he', rfl⟩ := List.mem_map.mp he
    have hne : r ≠ t := Finset.ne_of_mem_erase hmem
    rw [Function.update_of_ne hne]
    exact ⟨hr, Function.update_of_ne hne ..⟩

lemma publish (h : EpochInv s) {t : Fin n} {epoch : ℕ} (hpc : s.guard t = .entering epoch) :
    EpochInv { s with
      handler := s.handler.publish t epoch, guard := Function.update s.guard t .inside } := by
  refine h.of_slots (fun u e he r hr => ⟨e, he, hr, rfl⟩) ?_
  intro r hr _
  have hne : r ≠ t := by
    rintro rfl
    rw [hr] at hpc
    cases hpc
  rw [Function.update_of_ne hne]
  exact ⟨hr, Function.update_of_ne hne ..⟩

lemma enter (h : EpochInv s) {t : Fin n} (hpc : s.guard t = .outside) (epoch : ℕ) :
    EpochInv { s with guard := Function.update s.guard t (.entering epoch) } := by
  refine h.of_slots (fun u e he r hr => ⟨e, he, hr, rfl⟩) ?_
  intro r hr _
  have hne : r ≠ t := by
    rintro rfl
    rw [hr] at hpc
    cases hpc
  rw [Function.update_of_ne hne]
  exact ⟨hr, rfl⟩

/-- A deferral whose tag covers the readers. -/
lemma deferFreePointer (h : EpochInv s) {t : Fin n} {p : Ptr} (hidle : s.reclaim t = .idle)
    (hcovers : s.TagCovers (.deferFreePointer t p)) :
    EpochInv { s with handler := s.handler.deferFreePointer t ⟨p, s.inside⟩ } := by
  have hmem : ∀ u, ∀ e ∈ (s.handler.deferFreePointer t ⟨p, s.inside⟩).toFreePtr u,
      e ∈ s.handler.toFreePtr u ∨
        (u = t ∧ e = ⟨⟨p, s.inside⟩, s.handler.localEpoch t⟩) := by
    intro u e he
    by_cases hu : u = t
    · subst hu
      simpa [EpochHandler.deferFreePointer] using he
    · simp only [EpochHandler.deferFreePointer, Function.update_of_ne hu] at he
      exact .inl he
  refine ⟨?_, ?_, h.safe⟩
  · intro u e he r hr
    rcases hmem u e he with hold | ⟨-, rfl⟩
    · exact h.pinned u e hold r hr
    · have hin : s.guard r = .inside := by simpa [EpochSt.inside] using hr
      exact ⟨hin, hcovers r hin⟩
  · intro u
    have hok := h.reclaim u
    show EpochSt.ReclaimOk _ u (s.reclaim u)
    by_cases hu : u = t
    · rw [hu, hidle]
      trivial
    · have hlist : (s.handler.deferFreePointer t ⟨p, s.inside⟩).toFreePtr u
          = s.handler.toFreePtr u := Function.update_of_ne hu ..
      cases hpc : s.reclaim u with
      | idle => trivial
      | scanning i m =>
          rw [hpc] at hok
          simpa [EpochSt.ReclaimOk, hlist] using hok
      | freeing m idx =>
          rw [hpc] at hok
          simpa [EpochSt.ReclaimOk, hlist] using hok

/-- A load of the scan. -/
lemma scan (h : EpochInv s) {t : Fin n} {i m : ℕ} (hpc : s.reclaim t = .scanning i m)
    (hi : i < n) :
    s.ReclaimOk t (.scanning (i + 1) (min m (s.handler.localEpoch ⟨i, hi⟩))) := by
  have hok := h.reclaim t
  rw [hpc] at hok
  intro e he r hr hlt
  rcases Nat.lt_succ_iff_lt_or_eq.mp hlt with hlt | heq
  · exact (Nat.min_le_left _ _).trans (hok e he r hr hlt)
  · have hr' : r = ⟨i, hi⟩ := Fin.ext heq
    rw [hr']
    exact Nat.min_le_right _ _

/-- The `erase` at the end of the freeing loop. -/
lemma erasePrefix (h : EpochInv s) (t : Fin n) (idx : ℕ) :
    EpochInv { s with
      handler := s.handler.erasePrefix t idx, reclaim := Function.update s.reclaim t .idle } := by
  have hsub : EpochInv { s with handler := s.handler.erasePrefix t idx } := by
    refine h.of_slots ?_ (fun r hr _ => ⟨hr, rfl⟩)
    intro u e he r hr
    refine ⟨e, ?_, hr, rfl⟩
    by_cases hu : u = t
    · subst hu
      simp only [EpochHandler.erasePrefix, Function.update_self] at he
      exact List.mem_of_mem_drop he
    · simpa only [EpochHandler.erasePrefix, Function.update_of_ne hu] using he
  exact hsub.setReclaim trivial

/-- A reader of an outdated entry would have kept the minimum down. -/
lemma readers_eq_empty (h : EpochInv s) {t : Fin n} {m idx : ℕ} (hpc : s.reclaim t = .freeing m idx)
    {e : ToFreePointer (Pinned n Ptr)} (he : (s.handler.toFreePtr t)[idx]? = some e)
    (hold : e.epoch < m) : e.ptr.readers = ∅ := by
  have hmem := List.mem_of_getElem? he
  have hok := h.reclaim t
  rw [hpc] at hok
  refine Finset.eq_empty_of_forall_notMem ?_
  intro r hr
  have hle := (h.pinned t e hmem r hr).2
  have hmin : m ≤ s.handler.localEpoch r := hok e hmem r hr
  omega

/-- A round of the freeing loop. -/
lemma freed (h : EpochInv s) {t : Fin n} {m idx : ℕ} (hpc : s.reclaim t = .freeing m idx)
    {e : ToFreePointer (Pinned n Ptr)} (he : (s.handler.toFreePtr t)[idx]? = some e)
    (hold : e.epoch < m) :
    EpochInv { s with
      reclaim := Function.update s.reclaim t (.freeing m (idx + 1))
      freed := e.ptr :: s.freed } := by
  have hok : s.ReclaimOk t (.freeing m (idx + 1)) := by
    have hok := h.reclaim t
    rw [hpc] at hok
    exact hok
  have hinv := h.setReclaim hok
  refine ⟨hinv.pinned, ?_, ?_⟩
  · intro u
    have hu := hinv.reclaim u
    revert hu
    cases Function.update s.reclaim t (.freeing m (idx + 1)) u <;> exact id
  · intro d hd
    rcases List.mem_cons.mp hd with rfl | hd
    · exact h.readers_eq_empty hpc he hold
    · exact h.safe d hd

/-- **The step lemma.** -/
theorem step (h : EpochInv s) {a : EpochAct n Ptr} (hcovers : s.TagCovers a)
    (hstep : EpochSt.step s a = some s') : EpochInv s' := by
  cases EpochSt.step_effect hstep with
  | advanceGlobalEpoch =>
      exact h.of_slots (fun u e he r hr => ⟨e, he, hr, rfl⟩) (fun r hr _ => ⟨hr, rfl⟩)
  | enter t hguard hidle => exact h.enter hguard _
  | publish t epoch hguard => exact h.publish hguard
  | leave t hguard hidle => exact h.leave t
  | deferFreePointer t p hidle => exact h.deferFreePointer hidle hcovers
  | freeOutdatedPtr t hidle =>
      refine h.setReclaim ?_
      intro e _ r _ hlt
      exact absurd hlt (Nat.not_lt_zero _)
  | scan t i m hpc hi => exact h.setReclaim (h.scan hpc hi)
  | scanned t i m hpc hi =>
      refine h.setReclaim ?_
      have hok := h.reclaim t
      rw [hpc] at hok
      intro e he r hr
      exact hok e he r hr (by omega)
  | free t m idx hpc e he hold => exact h.freed hpc he hold
  | erased t m idx hpc hstop => exact h.erasePrefix t idx

end EpochInv

/-! ## Reclamation is safe when the tags cover the readers -/

/-- **Epoch reclamation.**  In every run of disciplined threads in which each deferral finds no
thread inside a guard with a later epoch, no pointer is freed while a thread is still inside a
guard that it entered before the pointer was deferred. -/
theorem reclamation_safe {n : ℕ} {Ptr : Type} {tr : List (EpochAct n Ptr)} {s : EpochSt n Ptr}
    (hcovers : EveryStep EpochSt.clientStep EpochSt.TagCovers EpochSt.init tr)
    (hrun : run EpochSt.clientStep EpochSt.init tr = some s) : s.Safe :=
  (run_invariant_of_everyStep (I := EpochInv)
    (fun _ _ _ h hok hstep => h.step hok (restrict_eq_some.mp hstep).2)
    EpochInv.init hcovers hrun).safe

/-- A reader and a deleter enter in the same epoch; the pointer is freed after the reader left. -/
theorem reclamation_safe_same_epoch :
    ∃ s : EpochSt 2 ℕ, run EpochSt.clientStep EpochSt.init
        [.enter 1, .enter 0, .publish 0, .publish 1, .deferFreePointer 0 7, .leave 1, .leave 0,
          .freeOutdatedPtr 0, .reclaim 0, .reclaim 0, .reclaim 0, .reclaim 0] = some s ∧
      s.freed.map (·.ptr) = [7] ∧ s.Safe := by
  have hrun : run EpochSt.clientStep (EpochSt.init : EpochSt 2 ℕ)
      [.enter 1, .enter 0, .publish 0, .publish 1, .deferFreePointer 0 7, .leave 1, .leave 0,
        .freeOutdatedPtr 0, .reclaim 0, .reclaim 0, .reclaim 0, .reclaim 0] = some _ := rfl
  exact ⟨_, hrun, rfl, reclamation_safe (by decide) hrun⟩

/-- Thread `0` enters in epoch 0, the epoch advances, thread `1` enters in epoch 1.  Only then
does thread `0` defer the pointer, and its own old epoch is the tag: once it has left, nothing
keeps the pointer, although thread `1` is still inside. -/
theorem stale_tag_frees_under_reader :
    ∃ s : EpochSt 2 ℕ, run EpochSt.clientStep EpochSt.init
        [.enter 0, .publish 0, .advanceGlobalEpoch, .enter 1, .publish 1, .deferFreePointer 0 7,
          .leave 0, .freeOutdatedPtr 0, .reclaim 0, .reclaim 0, .reclaim 0, .reclaim 0] = some s ∧
      s.guard 1 = .inside ∧ s.freed = [⟨7, {1}⟩] ∧ ¬ s.Safe := by
  refine ⟨_, rfl, rfl, by decide, ?_⟩
  intro hsafe
  exact absurd (hsafe _ (List.mem_cons_self ..)) (by decide)

end OptLock
