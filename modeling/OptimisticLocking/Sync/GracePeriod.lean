import OptimisticLocking.Sync.LimboOrder

/-!
# A limbo list is a queue

What `DeferFreePointer` appends to a list, `FreeOutdatedPtr` frees in the same order, each entry
once, whoever runs it and whatever the tags are.  An entry is freed at the latest by the first call
that begins when no slot, and no thread on its way into a guard, is at its tag or before.  The calls
on one list do not overlap, and nothing is deferred to it while the loop goes through it.

* `EpochSt.deferred`, `EpochSt.waiting` — the entry that a step appends to a list, and those that
  are not freed yet.
* **`limbo_fifo`** — freed and waiting entries are those deferred, in their order.
* `Past` — the moment from which on an epoch holds nothing back.
* **`grace_period`** — a call that begins then frees every entry of that epoch.
-/

namespace OptLock

open Transition EpochHandler

variable {n : ℕ} {Ptr : Type}

/-! ## First in, first out -/

namespace EpochSt

/-- The entry that a step appends to the list of `t`. -/
def deferred (t : Fin n) (s : EpochSt n Ptr) : EpochAct n Ptr → Option (ToFreePointer Ptr)
  | .deferFreePointer u p => if u = t then some ⟨p, s.handler.localEpoch t⟩ else none
  | _ => none

/-- The entries of the list of `t` that are not freed yet. -/
def waiting (s : EpochSt n Ptr) (t : Fin n) : List (ToFreePointer Ptr) :=
  match s.reclaim t with
  | .freeing _ idx => (s.limbo t).drop idx
  | _ => s.limbo t

variable {s s' : EpochSt n Ptr} {a : EpochAct n Ptr} {t : Fin n}

lemma waiting_of_not_freeing (h : ∀ m idx, s.reclaim t ≠ .freeing m idx) :
    s.waiting t = s.limbo t := by
  rw [waiting]
  split
  · next m idx hpc => exact absurd hpc (h m idx)
  · rfl

lemma waiting_of_idle (h : s.reclaim t = .idle) : s.waiting t = s.limbo t := by
  rw [waiting, h]

lemma waiting_of_scanning {i m : ℕ} (h : s.reclaim t = .scanning i m) :
    s.waiting t = s.limbo t := by
  rw [waiting, h]

lemma waiting_of_freeing {m idx : ℕ} (h : s.reclaim t = .freeing m idx) :
    s.waiting t = (s.limbo t).drop idx := by
  rw [waiting, h]

/-- The entries of the list of `t` that the step `a` from `s` to `s'` takes from those that wait are
those that it frees; it adds those that it defers. -/
def Moves (t : Fin n) (s s' : EpochSt n Ptr) (a : EpochAct n Ptr) : Prop :=
  ∃ done, freedBy t s s' a = done.map (·.ptr) ∧
    s.waiting t ++ (deferred t s a).toList = done ++ s'.waiting t

/-- A step that has nothing to do with the list. -/
lemma moves_frame (hfreed : freedBy t s s' a = []) (hdeferred : deferred t s a = none)
    (hlist : s'.limbo t = s.limbo t) (hreclaim : s'.reclaim t = s.reclaim t) :
    Moves t s s' a := by
  refine ⟨[], hfreed, ?_⟩
  rw [hdeferred, waiting, waiting, hlist, hreclaim]
  exact List.append_nil _

/-- A step of a call on the list of `t` takes the entry that it frees from the front. -/
lemma moves_reclaim (heffect : EpochEffect s (.reclaim t) s') : Moves t s s' (.reclaim t) := by
  cases heffect with
  | scan _ i m hpc hi =>
      refine ⟨[], by simp [freedBy], ?_⟩
      rw [waiting_of_scanning hpc, waiting_of_scanning (Function.update_self ..)]
      simp [deferred, limbo]
  | scanned _ i m hpc hi =>
      refine ⟨[], by simp [freedBy], ?_⟩
      rw [waiting_of_scanning hpc, waiting_of_freeing (Function.update_self ..)]
      simp [deferred, limbo]
  | free _ m idx hpc e he hold =>
      have hget : (s.limbo t)[idx]? = some ⟨e.ptr.ptr, e.epoch⟩ := by
        simp [limbo, he]
      obtain ⟨hlt, heq⟩ := List.getElem?_eq_some_iff.mp hget
      refine ⟨[⟨e.ptr.ptr, e.epoch⟩], by simp [freedBy], ?_⟩
      rw [waiting_of_freeing hpc, waiting_of_freeing (Function.update_self ..),
        List.drop_eq_getElem_cons hlt, heq]
      simp [deferred, limbo]
  | erased _ m idx hpc hstop =>
      refine ⟨[], by simp [freedBy], ?_⟩
      rw [waiting_of_freeing hpc, waiting_of_idle (Function.update_self ..), limbo_erasePrefix]
      simp [deferred]

/-- **The step lemma.** -/
theorem moves_step (hstep : s.sharedStep a = some s') : Moves t s s' a := by
  cases sharedStep_effect hstep with
  | advanceGlobalEpoch | enter | publish => exact moves_frame rfl rfl rfl rfl
  | leave u => exact moves_frame rfl rfl (limbo_unpin s _ u t _ rfl) rfl
  | deferFreePointer u p hguard hloop =>
      by_cases hu : u = t
      · subst hu
        set s' : EpochSt n Ptr := { s with handler := s.handler.deferFreePointer u ⟨p, s.inside⟩ }
        have hafter : s'.waiting u = s'.limbo u := waiting_of_not_freeing hloop
        refine ⟨[], rfl, ?_⟩
        rw [hafter, waiting_of_not_freeing hloop, limbo_deferFreePointer]
        simp [deferred]
      · exact moves_frame rfl (if_neg hu)
          (limbo_deferFreePointer_of_ne s (Ne.symm hu) ⟨p, s.inside⟩) rfl
  | freeOutdatedPtr u hidle =>
      by_cases hu : u = t
      · subst hu
        refine ⟨[], rfl, ?_⟩
        rw [waiting_of_idle hidle, waiting_of_scanning (Function.update_self ..)]
        simp [deferred, limbo]
      · exact moves_frame rfl rfl rfl (Function.update_of_ne (Ne.symm hu) ..)
  | reclaim u _ heffect =>
      by_cases hu : u = t
      · subst hu
        exact moves_reclaim heffect
      · obtain ⟨hlist, hreclaim⟩ := frame_reclaim heffect (Ne.symm hu)
        exact moves_frame (if_neg hu) rfl hlist hreclaim

/-- The entries that were deferred to the list of `t` along a run. -/
def deferredAlong (t : Fin n) : EpochSt n Ptr → List (EpochAct n Ptr) → List (ToFreePointer Ptr) :=
  history (fun s a _ => s.deferred t a) sharedStep

/-- **The run lemma.** -/
theorem moves_run {tr : List (EpochAct n Ptr)} (hrun : run sharedStep init tr = some s) :
    ∃ done, freedAlong t init tr = done.map (·.ptr) ∧
      deferredAlong t init tr = done ++ s.waiting t := by
  refine run_invariant_of_trace (I := fun tr s => ∃ done,
    freedAlong t init tr = done.map (·.ptr) ∧ deferredAlong t init tr = done ++ s.waiting t)
    ?_ ⟨[], rfl, rfl⟩ hrun
  rintro tr s a s' htr ⟨done, hfreed, hdeferred⟩ hstep
  obtain ⟨new, hnew, hmoved⟩ := moves_step (t := t) hstep
  refine ⟨done ++ new, ?_, ?_⟩
  · rw [freedAlong_snoc htr hstep, hfreed, hnew, List.map_append]
  · rw [deferredAlong, history_snoc htr hstep, ← deferredAlong, hdeferred, List.append_assoc,
      hmoved, List.append_assoc]

end EpochSt

/-- **A limbo list is a queue.**  Any thread may run `FreeOutdatedPtr` on any list, in any
interleaving with guards, deferrals and advances, where no two calls on one list overlap and nothing
is deferred to a list while the loop of a call goes through it.  The entries that were deferred to a
list are, in that order, those whose pointers were freed by calls on it, each once, and then those
that are still waiting. -/
theorem limbo_fifo {tr : List (EpochAct n Ptr)} {s : EpochSt n Ptr}
    (hrun : run EpochSt.sharedStep EpochSt.init tr = some s) (t : Fin n) :
    ∃ done, EpochSt.freedAlong t EpochSt.init tr = done.map (·.ptr) ∧
      EpochSt.deferredAlong t EpochSt.init tr = done ++ s.waiting t :=
  EpochSt.moves_run hrun

/-- Thread `1` goes through the list of thread `0`; one of its two pointers is freed. -/
theorem limbo_fifo_two :
    ∃ s : EpochSt 2 ℕ, run EpochSt.sharedStep EpochSt.init
        [.enter 1, .publish 1, .enter 0, .publish 0, .deferFreePointer 0 7, .leave 1, .leave 0,
          .advanceGlobalEpoch, .enter 0, .publish 0, .deferFreePointer 0 8, .freeOutdatedPtr 0,
          .reclaim 0, .reclaim 0, .reclaim 0, .reclaim 0] = some s ∧
      s.waiting 0 = [⟨8, 1⟩] ∧
      ∃ done, [7] = done.map (·.ptr) ∧ [⟨7, 0⟩, ⟨8, 1⟩] = done ++ s.waiting 0 := by
  have hrun : run EpochSt.sharedStep (EpochSt.init : EpochSt 2 ℕ)
      [.enter 1, .publish 1, .enter 0, .publish 0, .deferFreePointer 0 7, .leave 1, .leave 0,
        .advanceGlobalEpoch, .enter 0, .publish 0, .deferFreePointer 0 8, .freeOutdatedPtr 0,
        .reclaim 0, .reclaim 0, .reclaim 0, .reclaim 0] = some _ := rfl
  exact ⟨_, hrun, rfl, limbo_fifo hrun 0⟩

/-! ## When an epoch is past -/

/-- No slot shows epoch `e` or an earlier one, and none will. -/
structure Past (e : ℕ) (s : EpochSt n Ptr) : Prop where
  clock : e < s.handler.globalEpoch
  entering : ∀ u epoch, s.guard u = .entering epoch → e < epoch
  slots : ∀ u, e < s.handler.localEpoch u

/-- What a call of `FreeOutdatedPtr` that began then has seen. -/
def ScanPast (e : ℕ) : ReclaimPc → Prop
  | .idle => True
  | .scanning _ m | .freeing m _ => e < m

namespace Past

variable {e : ℕ} {s s' s₀ : EpochSt n Ptr} {a : EpochAct n Ptr} {t : Fin n}

lemma of_guard (h : Past e s) (hclock : s'.handler.globalEpoch = s.handler.globalEpoch)
    (hentering : ∀ u, u ≠ t → s'.guard u = s.guard u)
    (hslots : ∀ u, u ≠ t → s'.handler.localEpoch u = s.handler.localEpoch u)
    (hself : (∀ epoch, s'.guard t = .entering epoch → e < epoch) ∧ e < s'.handler.localEpoch t) :
    Past e s' where
  clock := hclock ▸ h.clock
  entering := by
    intro u epoch hguard
    by_cases hu : u = t
    · subst hu
      exact hself.1 epoch hguard
    · exact h.entering u epoch (hentering u hu ▸ hguard)
  slots := by
    intro u
    by_cases hu : u = t
    · exact hu ▸ hself.2
    · exact hslots u hu ▸ h.slots u

/-- **The step lemma**, while the global epoch does not wrap. -/
theorem step (h : Past e s) (hwrap : s.handler.globalEpoch < maxValue)
    (hstep : s.sharedStep a = some s') : Past e s' := by
  cases EpochSt.sharedStep_effect hstep with
  | advanceGlobalEpoch =>
      refine ⟨?_, h.entering, h.slots⟩
      show e < (s.handler.globalEpoch + 1) % 2 ^ 64
      rw [Nat.mod_eq_of_lt (by rw [maxValue] at hwrap; omega)]
      exact h.clock.trans (Nat.lt_succ_self _)
  | enter u hguard =>
      refine h.of_guard (t := u) rfl (fun v hv => Function.update_of_ne hv ..) (fun _ _ => rfl)
        ⟨?_, h.slots u⟩
      intro epoch hnow
      simp only [Function.update_self, GuardPc.entering.injEq] at hnow
      exact hnow ▸ h.clock
  | publish u epoch hguard =>
      refine h.of_guard (t := u) rfl (fun v hv => Function.update_of_ne hv ..)
        (fun v hv => Function.update_of_ne hv ..) ⟨?_, ?_⟩
      · simp
      · simpa [EpochHandler.publish] using h.entering u epoch hguard
  | leave u hguard =>
      refine h.of_guard (t := u) rfl (fun v hv => Function.update_of_ne hv ..)
        (fun v hv => Function.update_of_ne hv ..) ⟨?_, ?_⟩
      · simp
      · simpa [EpochHandler.leave, EpochHandler.unpin] using h.clock.trans hwrap
  | deferFreePointer | freeOutdatedPtr => exact ⟨h.clock, h.entering, h.slots⟩
  | reclaim u _ heffect => cases heffect <;> exact ⟨h.clock, h.entering, h.slots⟩

/-- The scan of a call on the list of `t` sees later epochs only. -/
lemma scan (h : Past e s) (hwrap : s.handler.globalEpoch < maxValue)
    (hscan : ScanPast e (s.reclaim t)) (hstep : s.sharedStep a = some s') :
    ScanPast e (s'.reclaim t) := by
  have hmax : e < maxValue := h.clock.trans hwrap
  cases EpochSt.sharedStep_effect hstep with
  | advanceGlobalEpoch | enter | publish | leave | deferFreePointer => exact hscan
  | freeOutdatedPtr u hidle =>
      by_cases hu : t = u
      · subst hu
        simpa [ScanPast] using hmax
      · simpa [Function.update_of_ne hu] using hscan
  | reclaim u _ heffect =>
      by_cases hu : t = u
      · subst hu
        cases heffect with
        | scan _ i m hpc hi =>
            rw [hpc] at hscan
            simpa [ScanPast] using And.intro hscan (h.slots ⟨i, hi⟩)
        | scanned _ i m hpc | free _ m idx hpc =>
            rw [hpc] at hscan
            simpa [ScanPast] using hscan
        | erased => simp [ScanPast]
      · rw [(EpochSt.frame_reclaim heffect hu).2]
        exact hscan

/-- **The run lemma.** -/
theorem run {tr : List (EpochAct n Ptr)} (h : Past e s₀)
    (hwrap : s₀.handler.globalEpoch + advances tr < maxValue)
    (hrun : Transition.run EpochSt.sharedStep s₀ tr = some s) :
    Past e s ∧ (ScanPast e (s₀.reclaim t) → ScanPast e (s.reclaim t)) := by
  have hall : s.handler.globalEpoch ≤ s₀.handler.globalEpoch + advances tr ∧
      (s₀.handler.globalEpoch + advances tr < maxValue →
        Past e s ∧ (ScanPast e (s₀.reclaim t) → ScanPast e (s.reclaim t))) := by
    refine run_invariant_of_trace (I := fun tr s =>
      s.handler.globalEpoch ≤ s₀.handler.globalEpoch + advances tr ∧
        (s₀.handler.globalEpoch + advances tr < maxValue →
          Past e s ∧ (ScanPast e (s₀.reclaim t) → ScanPast e (s.reclaim t))))
      ?_ ⟨Nat.le_refl _, fun _ => ⟨h, id⟩⟩ hrun
    rintro tr m a m' - ⟨hle, ih⟩ hstep
    have hnext := EpochSt.globalEpoch_le hstep
    rw [advances_snoc]
    refine ⟨by omega, ?_⟩
    intro hwrap
    obtain ⟨hpast, hscan⟩ := ih (by omega)
    exact ⟨hpast.step (by omega) hstep,
      fun hinit => hpast.scan (by omega) (hscan hinit) hstep⟩
  exact hall.2 hwrap

end Past

lemma advances_append (tr tr' : List (EpochAct n Ptr)) :
    advances (tr ++ tr') = advances tr + advances tr' := List.countP_append

/-- The global epoch counts the advances. -/
lemma globalEpoch_le_advances {tr : List (EpochAct n Ptr)} {s : EpochSt n Ptr}
    (hrun : run EpochSt.sharedStep EpochSt.init tr = some s) :
    s.handler.globalEpoch ≤ advances tr := by
  refine run_invariant_of_trace (I := fun tr s => s.handler.globalEpoch ≤ advances tr) ?_
    (Nat.zero_le _) hrun
  intro tr s a s' _ ih hstep
  rw [advances_snoc]
  exact (EpochSt.globalEpoch_le hstep).trans (Nat.add_le_add_right ih _)

/-- **A grace period is enough.**  Once the global epoch is beyond `e`, and every slot and every
thread on its way into a guard as well, a call of `FreeOutdatedPtr` that begins, by whichever
thread, and whatever happens meanwhile (but for another call on the list and deferrals to it during
the loop), leaves nothing of epoch `e` or before: all entries with such a tag that were ever
deferred to the list are among those that have been freed, each once and in the order of their
deferral. -/
theorem grace_period {e m : ℕ} {t : Fin n} {pre mid during : List (EpochAct n Ptr)}
    {s₂ s₀ s₁ s : EpochSt n Ptr}
    (hadv : advances (pre ++ mid ++ (.freeOutdatedPtr t :: during ++ [.reclaim t])) < 2 ^ 64 - 1)
    (hpre : run EpochSt.sharedStep EpochSt.init pre = some s₂) (hpast : Past e s₂)
    (hmid : run EpochSt.sharedStep s₂ mid = some s₀) (hcall : FreeCall t m during s₀ s₁ s) :
    (∀ x ∈ s.limbo t, e < x.epoch) ∧
    ∃ done,
      EpochSt.freedAlong t EpochSt.init
          (pre ++ mid ++ (.freeOutdatedPtr t :: during ++ [.reclaim t])) = done.map (·.ptr) ∧
        EpochSt.deferredAlong t EpochSt.init
          (pre ++ mid ++ (.freeOutdatedPtr t :: during ++ [.reclaim t])) = done ++ s.limbo t := by
  have hmid₀ : run EpochSt.sharedStep EpochSt.init (pre ++ mid) = some s₀ :=
    run_append_eq_some.mpr ⟨s₂, hpre, hmid⟩
  have hrun : run EpochSt.sharedStep EpochSt.init
      (pre ++ mid ++ (.freeOutdatedPtr t :: during ++ [.reclaim t])) = some s :=
    run_append_eq_some.mpr ⟨s₀, hmid₀, run_snoc_eq_some.mpr ⟨s₁, hcall.run, hcall.erase⟩⟩
  -- what the scan has seen
  have hm : e < m := by
    have hglobal := globalEpoch_le_advances hpre
    have hglobal₀ := globalEpoch_le_advances hmid₀
    rw [advances_append, advances_append] at hadv
    rw [advances_append] at hadv hglobal₀
    have hpast₀ : Past e s₀ := (hpast.run (t := t) (by rw [maxValue]; omega) hmid).1
    have hscan : ScanPast e (s₁.reclaim t) := by
      refine (hpast₀.run (by rw [maxValue]; omega) hcall.run).2 ?_
      obtain ⟨s', hstart, -⟩ := run_cons_eq_some.mp hcall.run
      cases EpochSt.sharedStep_effect hstart with
      | freeOutdatedPtr _ hidle => simp [ScanPast, hidle]
    obtain ⟨idx, hpc⟩ := hcall.loop
    rwa [hpc] at hscan
  have hkept : ∀ x ∈ s.limbo t, e < x.epoch := by
    obtain ⟨-, -, hlist, -⟩ :=
      (freeOutdatedPtr_exact hadv hrun).2 t m (pre ++ mid) during s₀ s₁ rfl hmid₀ hcall
    intro x hx
    rw [hlist, List.mem_filter, decide_eq_true_eq] at hx
    exact hm.trans_le hx.2
  obtain ⟨done, hfreed, hdeferred⟩ := EpochSt.moves_run (t := t) hrun
  rw [EpochSt.waiting_of_idle hcall.done] at hdeferred
  exact ⟨hkept, done, hfreed, hdeferred⟩

/-- Pointer `7` is deferred in epoch 0, which thread `1` is inside of as well.  Both have left when
the epoch is advanced; the call begins when thread `0` is inside again. -/
theorem grace_period_two :
    ∃ s₂ s₀ s₁ s : EpochSt 2 ℕ,
      run EpochSt.sharedStep EpochSt.init
        [.enter 1, .publish 1, .enter 0, .publish 0, .deferFreePointer 0 7, .leave 1, .leave 0,
          .advanceGlobalEpoch] = some s₂ ∧
      run EpochSt.sharedStep s₂ [.enter 0, .publish 0, .deferFreePointer 0 8] = some s₀ ∧
      FreeCall 0 1 [.reclaim 0, .reclaim 0, .leave 0, .reclaim 0, .reclaim 0] s₀ s₁ s ∧
      ∀ x ∈ s.limbo 0, 0 < x.epoch := by
  obtain ⟨s₂, s₀, s₁, s, hpre, hmid, hcall, hclock, hentering, hslots⟩ :
      ∃ s₂ s₀ s₁ s : EpochSt 2 ℕ,
        run EpochSt.sharedStep EpochSt.init
          [.enter 1, .publish 1, .enter 0, .publish 0, .deferFreePointer 0 7, .leave 1, .leave 0,
            .advanceGlobalEpoch] = some s₂ ∧
        run EpochSt.sharedStep s₂ [.enter 0, .publish 0, .deferFreePointer 0 8] = some s₀ ∧
        FreeCall 0 1 [.reclaim 0, .reclaim 0, .leave 0, .reclaim 0, .reclaim 0] s₀ s₁ s ∧
        0 < s₂.handler.globalEpoch ∧ (∀ u, s₂.guard u = .outside) ∧
        ∀ u, 0 < s₂.handler.localEpoch u :=
    ⟨_, _, _, _, rfl, rfl, ⟨rfl, by simp, ⟨1, rfl⟩, rfl, rfl⟩, by decide, by decide, by decide⟩
  have hpast : Past 0 s₂ := by
    refine ⟨hclock, ?_, hslots⟩
    intro u epoch hguard
    rw [hentering u] at hguard
    cases hguard
  exact ⟨s₂, s₀, s₁, s, hpre, hmid, hcall, (grace_period (by decide) hpre hpast hmid hcall).1⟩

end OptLock
