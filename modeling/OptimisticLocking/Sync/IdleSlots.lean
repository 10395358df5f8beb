import OptimisticLocking.Sync.Reclamation

/-!
# Which slots hold reclamation back

The minimum that `FreeOutdatedPtr` takes runs over the slots of all threads, so a slot must not
count unless its thread is inside a guard.  The destructor of `EpochGuard` sees to that by storing
`MAX_VALUE`; the constructor of `EpochHandler` does not, and a slot that no guard has written yet
keeps the minimum at `0`.

* `IdleSlots` — what the minimum is meant to be: the least epoch of the threads inside a guard.
* `SlotInv` — what each slot holds, by its history.
* **`idle_slots_iff`** — the slots are as they should be exactly when each has been written by a
  guard.
-/

namespace OptLock

open Transition EpochHandler

variable {n : ℕ} {Ptr : Type}

/-- The calls of `AdvanceGlobalEpoch`. -/
def EpochAct.isAdvance : EpochAct n Ptr → Bool
  | .advanceGlobalEpoch => true
  | _ => false

/-- How often the actions advance the global epoch. -/
def advances (tr : List (EpochAct n Ptr)) : ℕ := tr.countP EpochAct.isAdvance

/-- Idle threads do not hold reclamation back: exactly they are marked, and the minimum, taken at
once or slot by slot, is that of the threads inside a guard. -/
structure IdleSlots (s : EpochSt n Ptr) : Prop where
  marked : ∀ t, s.handler.localEpoch t = maxValue ↔ s.guard t ≠ .inside
  minEpoch : s.handler.minEpoch = s.inside.fold min maxValue s.handler.localEpoch
  scan : ∀ t i m (hi : i < n), s.reclaim t = .scanning i m →
    min m (s.handler.localEpoch ⟨i, hi⟩) =
      if s.guard ⟨i, hi⟩ = .inside then min m (s.handler.localEpoch ⟨i, hi⟩) else m

/-! ## The history of a slot -/

lemma advances_snoc (tr : List (EpochAct n Ptr)) (a : EpochAct n Ptr) :
    advances (tr ++ [a]) = advances tr + a.isAdvance.toNat := by
  cases h : a.isAdvance <;> simp [advances, h]

lemma advances_le_snoc (tr : List (EpochAct n Ptr)) (a : EpochAct n Ptr) :
    advances tr ≤ advances (tr ++ [a]) := by
  rw [advances_snoc]
  exact Nat.le_add_right _ _

/-- What the slot of `t` holds after the actions `tr`. -/
structure SlotOk (tr : List (EpochAct n Ptr)) (s : EpochSt n Ptr) (t : Fin n) : Prop where
  entering : ∀ epoch, s.guard t = .entering epoch → epoch ≤ advances tr
  inside : s.guard t = .inside → .publish t ∈ tr ∧ s.handler.localEpoch t ≤ advances tr
  idle : .publish t ∈ tr → s.guard t ≠ .inside → s.handler.localEpoch t = maxValue
  unused : .publish t ∉ tr → s.handler.localEpoch t = 0

structure SlotInv (tr : List (EpochAct n Ptr)) (s : EpochSt n Ptr) : Prop where
  global : s.handler.globalEpoch ≤ advances tr
  slots : ∀ t, SlotOk tr s t
  scanning : ∀ t i m, s.reclaim t = .scanning i m → m ≤ maxValue

section slots

variable {tr : List (EpochAct n Ptr)} {s s' : EpochSt n Ptr} {t : Fin n} {a : EpochAct n Ptr}

/-- A step that leaves the slot and the guard of `t` alone. -/
lemma SlotOk.frame (h : SlotOk tr s t) (ha : a ≠ .publish t) (hguard : s'.guard t = s.guard t)
    (hlocal : s'.handler.localEpoch t = s.handler.localEpoch t) : SlotOk (tr ++ [a]) s' t := by
  have hle := advances_le_snoc tr a
  have hmem : .publish t ∈ tr ++ [a] ↔ .publish t ∈ tr := by simp [ha.symm]
  refine ⟨?_, ?_, ?_, ?_⟩
  · intro epoch hpc
    exact (h.entering epoch (hguard ▸ hpc)).trans hle
  · intro hpc
    rw [hmem, hlocal]
    exact ⟨(h.inside (hguard ▸ hpc)).1, (h.inside (hguard ▸ hpc)).2.trans hle⟩
  · intro hpub hpc
    rw [hlocal]
    exact h.idle (hmem.mp hpub) (hguard ▸ hpc)
  · intro hpub
    rw [hlocal]
    exact h.unused (fun h' => hpub (hmem.mpr h'))

/-- The load of the global epoch by the constructor of a guard. -/
lemma SlotOk.enter (h : SlotOk tr s t) (hglobal : s.handler.globalEpoch ≤ advances tr)
    (hguard : s.guard t = .outside) (hguard' : s'.guard t = .entering s.handler.globalEpoch)
    (hlocal : s'.handler.localEpoch t = s.handler.localEpoch t) :
    SlotOk (tr ++ [.enter t]) s' t := by
  have hmem : .publish t ∈ tr ++ [EpochAct.enter t] ↔ .publish t ∈ tr := by simp
  refine ⟨?_, ?_, ?_, ?_⟩
  · intro epoch hpc
    rw [hguard', GuardPc.entering.injEq] at hpc
    exact hpc ▸ hglobal.trans (advances_le_snoc tr _)
  · intro hpc
    rw [hguard'] at hpc
    cases hpc
  · intro hpub _
    rw [hlocal]
    exact h.idle (hmem.mp hpub) (by simp [hguard])
  · intro hpub
    rw [hlocal]
    exact h.unused (fun h' => hpub (hmem.mpr h'))

/-- The store of the constructor. -/
lemma SlotOk.publish (h : SlotOk tr s t) {epoch : ℕ} (hguard : s.guard t = .entering epoch)
    (hguard' : s'.guard t = .inside) (hlocal : s'.handler.localEpoch t = epoch) :
    SlotOk (tr ++ [.publish t]) s' t := by
  have hmem : EpochAct.publish t ∈ tr ++ [.publish t] := by simp
  refine ⟨?_, ?_, ?_, ?_⟩
  · intro e hpc
    rw [hguard'] at hpc
    cases hpc
  · intro _
    rw [hlocal]
    exact ⟨hmem, (h.entering epoch hguard).trans (advances_le_snoc tr _)⟩
  · intro _ hpc
    exact absurd hguard' hpc
  · intro hpub
    exact absurd hmem hpub

/-- The destructor. -/
lemma SlotOk.leave (h : SlotOk tr s t) (hguard : s.guard t = .inside)
    (hguard' : s'.guard t = .outside) (hlocal : s'.handler.localEpoch t = maxValue) :
    SlotOk (tr ++ [.leave t]) s' t := by
  refine ⟨?_, ?_, ?_, ?_⟩
  · intro epoch hpc
    rw [hguard'] at hpc
    cases hpc
  · intro hpc
    rw [hguard'] at hpc
    cases hpc
  · intro _ _
    exact hlocal
  · intro hpub
    exact absurd (List.mem_append_left _ (h.inside hguard).1) hpub

namespace SlotInv

lemma init : SlotInv [] (EpochSt.init : EpochSt n Ptr) where
  global := Nat.zero_le _
  slots := by
    intro t
    exact ⟨nofun, nofun, nofun, fun _ => rfl⟩
  scanning := by
    intro t i m hpc
    cases hpc

/-- A step of a guard of `t`. -/
lemma of_thread (h : SlotInv tr s) (ha : ∀ u, u ≠ t → a ≠ .publish u)
    (hself : SlotOk (tr ++ [a]) s' t) (hguard : ∀ u, u ≠ t → s'.guard u = s.guard u)
    (hlocal : ∀ u, u ≠ t → s'.handler.localEpoch u = s.handler.localEpoch u)
    (hglobal : s'.handler.globalEpoch = s.handler.globalEpoch) (hreclaim : s'.reclaim = s.reclaim) :
    SlotInv (tr ++ [a]) s' where
  global := by
    rw [hglobal]
    exact h.global.trans (advances_le_snoc tr a)
  slots := by
    intro u
    by_cases hu : u = t
    · exact hu ▸ hself
    · exact (h.slots u).frame (ha u hu) (hguard u hu) (hlocal u hu)
  scanning := by
    rw [hreclaim]
    exact h.scanning

/-- A step inside `FreeOutdatedPtr`, or one that defers. -/
lemma of_reclaim (h : SlotInv tr s) (ha : ∀ u, a ≠ .publish u) (hguard : s'.guard = s.guard)
    (hlocal : s'.handler.localEpoch = s.handler.localEpoch)
    (hglobal : s'.handler.globalEpoch = s.handler.globalEpoch) {pc : ReclaimPc}
    (hreclaim : s'.reclaim = Function.update s.reclaim t pc)
    (hpc : ∀ i m, pc = .scanning i m → m ≤ maxValue) : SlotInv (tr ++ [a]) s' where
  global := by
    rw [hglobal]
    exact h.global.trans (advances_le_snoc tr a)
  slots := by
    intro u
    exact (h.slots u).frame (ha u) (congrFun hguard u) (congrFun hlocal u)
  scanning := by
    intro u i m hu
    rw [hreclaim] at hu
    by_cases hut : u = t
    · rw [hut, Function.update_self] at hu
      exact hpc i m hu
    · rw [Function.update_of_ne hut] at hu
      exact h.scanning u i m hu

/-- **The step lemma.** -/
theorem step (h : SlotInv tr s) (hstep : s.step a = some s') : SlotInv (tr ++ [a]) s' := by
  cases EpochSt.step_effect hstep with
  | advanceGlobalEpoch =>
      refine ⟨?_, fun u => (h.slots u).frame nofun rfl rfl, h.scanning⟩
      rw [advances_snoc]
      exact (Nat.mod_le _ _).trans (Nat.succ_le_succ h.global)
  | enter t hguard =>
      refine h.of_thread (fun _ _ => nofun) ?_ (fun u hu => Function.update_of_ne hu ..)
        (fun _ _ => rfl) rfl rfl
      exact (h.slots t).enter h.global hguard (Function.update_self ..) rfl
  | publish t epoch hguard =>
      refine h.of_thread ?_ ?_ (fun u hu => Function.update_of_ne hu ..)
        (fun u hu => Function.update_of_ne hu ..) rfl rfl
      · rintro u hu ⟨⟩
        exact hu rfl
      · exact (h.slots t).publish hguard (Function.update_self ..) (Function.update_self ..)
  | leave t hguard =>
      refine h.of_thread (fun _ _ => nofun) ?_ (fun u hu => Function.update_of_ne hu ..)
        (fun u hu => Function.update_of_ne hu ..) rfl rfl
      exact (h.slots t).leave hguard (Function.update_self ..) (Function.update_self ..)
  | deferFreePointer t p hidle =>
      refine h.of_reclaim (fun _ => nofun) rfl rfl rfl (Function.update_eq_self t _).symm ?_
      exact h.scanning t
  | freeOutdatedPtr t =>
      refine h.of_reclaim (fun _ => nofun) rfl rfl rfl rfl ?_
      rintro i m ⟨⟩
      exact Nat.le_refl _
  | scan t i m hpc hi =>
      refine h.of_reclaim (fun _ => nofun) rfl rfl rfl rfl ?_
      rintro j m' ⟨⟩
      exact (Nat.min_le_left _ _).trans (h.scanning t i m hpc)
  | scanned t | free t | erased t =>
      exact h.of_reclaim (fun _ => nofun) rfl rfl rfl rfl (fun _ _ => nofun)

/-- **The run lemma.** -/
theorem run (hrun : Transition.run EpochSt.step EpochSt.init tr = some s) : SlotInv tr s :=
  run_invariant_of_trace (I := SlotInv) (fun _ _ _ _ _ h hstep => h.step hstep) init hrun

/-- Where a slot has been written, it holds `MAX_VALUE` exactly when its thread is idle. -/
lemma marked_iff (h : SlotInv tr s) (hadv : advances tr < 2 ^ 64 - 1) (hused : .publish t ∈ tr) :
    s.handler.localEpoch t = maxValue ↔ s.guard t ≠ .inside := by
  constructor
  · intro hmax hin
    have hle := ((h.slots t).inside hin).2
    rw [hmax, maxValue] at hle
    omega
  · exact (h.slots t).idle hused

end SlotInv

end slots

/-! ## The minimum over the threads inside a guard -/

/-- A slot at `MAX_VALUE` does not count. -/
lemma EpochSt.minEpoch_eq_fold {s : EpochSt n Ptr}
    (hidle : ∀ t, s.guard t ≠ .inside → s.handler.localEpoch t = maxValue) :
    s.handler.minEpoch = s.inside.fold min maxValue s.handler.localEpoch := by
  refine eq_of_forall_le_iff ?_
  intro m
  rw [le_minEpoch_iff, Finset.le_fold_min]
  refine and_congr_right ?_
  intro hm
  constructor
  · intro h t _
    exact h t
  · intro h t
    by_cases hin : s.guard t = .inside
    · exact h t (by simp [EpochSt.inside, hin])
    · rw [hidle t hin]
      exact hm

/-- **Idle threads.**  While the global epoch has been advanced fewer than `2 ^ 64 - 1` times, the
idle threads are marked and do not count in the minimum exactly when the slot of every thread has
been written by an `EpochGuard`. -/
theorem idle_slots_iff {tr : List (EpochAct n Ptr)} {s : EpochSt n Ptr}
    (hadv : advances tr < 2 ^ 64 - 1) (hrun : run EpochSt.step EpochSt.init tr = some s) :
    IdleSlots s ↔ ∀ t, .publish t ∈ tr := by
  have h := SlotInv.run hrun
  constructor
  · intro hidle t
    by_contra hunused
    have hout : s.guard t ≠ .inside := fun hin => hunused ((h.slots t).inside hin).1
    have hmax := (hidle.marked t).mpr hout
    rw [(h.slots t).unused hunused] at hmax
    exact absurd hmax (by decide)
  · intro hused
    have hmarked : ∀ t, s.handler.localEpoch t = maxValue ↔ s.guard t ≠ .inside :=
      fun t => h.marked_iff hadv (hused t)
    refine ⟨hmarked, EpochSt.minEpoch_eq_fold fun t => (hmarked t).mpr, ?_⟩
    intro t i m hi hpc
    split_ifs with hin
    · rfl
    · rw [(hmarked ⟨i, hi⟩).mpr hin]
      exact Nat.min_eq_left (h.scanning t i m hpc)

/-- Two threads have been through a guard each, and one of them is inside its second. -/
theorem idle_slots_iff_two :
    ∃ s : EpochSt 2 ℕ, run EpochSt.step EpochSt.init
        [.enter 0, .publish 0, .enter 1, .advanceGlobalEpoch, .publish 1, .leave 0, .leave 1,
          .enter 1, .publish 1] = some s ∧ s.handler.minEpoch = 1 ∧ IdleSlots s := by
  have hrun : run EpochSt.step (EpochSt.init : EpochSt 2 ℕ)
      [.enter 0, .publish 0, .enter 1, .advanceGlobalEpoch, .publish 1, .leave 0, .leave 1,
        .enter 1, .publish 1] = some _ := rfl
  refine ⟨_, hrun, rfl, (idle_slots_iff (by decide) hrun).mpr ?_⟩
  rw [Fin.forall_fin_two]
  simp

/-- One worker that enters and leaves its guard on slot `1`, as the ids of `InitializeThread` have
it, and a slot `0` that nobody uses: all threads are idle, and the minimum is `0`. -/
theorem unused_slot_holds_back :
    ∃ s : EpochSt 2 ℕ, run EpochSt.step EpochSt.init [.enter 1, .publish 1, .leave 1] = some s ∧
      s.inside = ∅ ∧ s.handler.minEpoch = 0 ∧ ¬ IdleSlots s := by
  refine ⟨_, rfl, by decide, rfl, ?_⟩
  intro hidle
  exact absurd ((hidle.marked 0).mpr (by decide)) (by decide)

end OptLock
