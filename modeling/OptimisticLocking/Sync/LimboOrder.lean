import OptimisticLocking.Sync.IdleSlots

/-!
# The order of a limbo list

`FreeOutdatedPtr` stops at the first entry that is not outdated and erases what is before it.
That this is the filter which its comment promises needs `to_free_ptr[t]` to be in the order of
its epochs, and nothing in the code keeps it so: an entry is tagged with what its thread read of
the global epoch when it entered its guard, two steps before the slot shows it.

* `EpochSt.sharedStep` — the steps of `EpochSt.step` when any thread may run `FreeOutdatedPtr` on
  the list of any other, at any time.  `SharedEffect` — everything that one of them can do.
* `EpochSt.clock` — the epoch that a deferral of `t` could be tagged with next.  It never falls,
  and `LimboOrder` says that a limbo list followed by the clock of its thread is in order.
* `CallOk`, `Scanned` — where a call of `FreeOutdatedPtr` is, as invariants of its steps.
* **`freeOutdatedPtr_exact`** — the lists are in order, and a call frees exactly the outdated
  entries.
-/

namespace OptLock

open Transition EpochHandler

variable {n : ℕ} {Ptr : Type}

namespace EpochSt

/-- `to_free_ptr[t]` as the code has it, without the readers that a pointer was deferred under. -/
def limbo (s : EpochSt n Ptr) (t : Fin n) : List (ToFreePointer Ptr) :=
  (s.handler.toFreePtr t).map fun e => ⟨e.ptr.ptr, e.epoch⟩

/-- One atomic step, where `FreeOutdatedPtr` on the list of `t` is run by any thread, whatever `t`
does meanwhile.  Pointers are deferred by `t` inside its own guard, which is not nested.  The
vector is not synchronized: a loop that goes through it excludes deferrals to it, and a call of
`FreeOutdatedPtr` excludes another one on the same list. -/
def sharedStep (s : EpochSt n Ptr) : EpochAct n Ptr → Option (EpochSt n Ptr)
  | .advanceGlobalEpoch => some { s with handler := s.handler.advanceGlobalEpoch }
  | .enter t =>
      if s.guard t = .outside then
        some { s with guard := Function.update s.guard t (.entering s.handler.globalEpoch) }
      else none
  | .publish t =>
      match s.guard t with
      | .entering epoch =>
          some { s with
            handler := s.handler.publish t epoch, guard := Function.update s.guard t .inside }
      | _ => none
  | .leave t =>
      if s.guard t = .inside then
        some { s with
          handler := (s.handler.leave t).unpin t, guard := Function.update s.guard t .outside }
      else none
  | .deferFreePointer t p =>
      match s.guard t, s.reclaim t with
      | .inside, .freeing _ _ => none
      | .inside, _ => some { s with handler := s.handler.deferFreePointer t ⟨p, s.inside⟩ }
      | _, _ => none
  | .freeOutdatedPtr t =>
      match s.reclaim t with
      | .idle =>
          some { s with
            reclaim := Function.update s.reclaim t (.scanning 0 EpochHandler.maxValue) }
      | _ => none
  | .reclaim t => s.reclaimStep t

end EpochSt

/-- Everything a step can do when `FreeOutdatedPtr` is run by any thread. -/
inductive SharedEffect (s : EpochSt n Ptr) : EpochAct n Ptr → EpochSt n Ptr → Prop
  | advanceGlobalEpoch :
      SharedEffect s .advanceGlobalEpoch { s with handler := s.handler.advanceGlobalEpoch }
  | enter (t : Fin n) (hguard : s.guard t = .outside) :
      SharedEffect s (.enter t) { s with
        guard := Function.update s.guard t (.entering s.handler.globalEpoch) }
  | publish (t : Fin n) (epoch : ℕ) (hguard : s.guard t = .entering epoch) :
      SharedEffect s (.publish t) { s with
        handler := s.handler.publish t epoch, guard := Function.update s.guard t .inside }
  | leave (t : Fin n) (hguard : s.guard t = .inside) :
      SharedEffect s (.leave t) { s with
        handler := (s.handler.leave t).unpin t, guard := Function.update s.guard t .outside }
  | deferFreePointer (t : Fin n) (p : Ptr) (hguard : s.guard t = .inside)
      (hloop : ∀ m idx, s.reclaim t ≠ .freeing m idx) :
      SharedEffect s (.deferFreePointer t p) { s with
        handler := s.handler.deferFreePointer t ⟨p, s.inside⟩ }
  | freeOutdatedPtr (t : Fin n) (hidle : s.reclaim t = .idle) :
      SharedEffect s (.freeOutdatedPtr t) { s with
        reclaim := Function.update s.reclaim t (.scanning 0 EpochHandler.maxValue) }
  | reclaim (t : Fin n) (s' : EpochSt n Ptr) (heffect : EpochEffect s (.reclaim t) s') :
      SharedEffect s (.reclaim t) s'

namespace EpochSt

variable {s s' : EpochSt n Ptr} {a : EpochAct n Ptr}

/-- **Inversion of `sharedStep`.** -/
theorem sharedStep_effect (h : s.sharedStep a = some s') : SharedEffect s a s' := by
  cases a with
  | advanceGlobalEpoch =>
      cases h
      exact .advanceGlobalEpoch
  | enter t =>
      simp only [sharedStep] at h
      split_ifs at h with hguard
      cases h
      exact .enter t hguard
  | publish t =>
      simp only [sharedStep] at h
      split at h
      · next epoch hguard =>
          cases h
          exact .publish t epoch hguard
      · cases h
  | leave t =>
      simp only [sharedStep] at h
      split_ifs at h with hguard
      cases h
      exact .leave t hguard
  | deferFreePointer t p =>
      simp only [sharedStep] at h
      split at h
      · cases h
      · next hguard hloop =>
          cases h
          exact .deferFreePointer t p hguard hloop
      · cases h
  | freeOutdatedPtr t =>
      simp only [sharedStep] at h
      split at h
      · next hidle =>
          cases h
          exact .freeOutdatedPtr t hidle
      · cases h
  | reclaim t => exact .reclaim t s' (reclaimStep_effect h)

/-! ## The clock of a thread -/

/-- The epoch that `t` has read last, and would read now if it is in no guard. -/
def clock (s : EpochSt n Ptr) (t : Fin n) : ℕ :=
  match s.guard t with
  | .outside => s.handler.globalEpoch
  | .entering epoch => epoch
  | .inside => s.handler.localEpoch t

lemma clock_of_outside {t : Fin n} (h : s.guard t = .outside) :
    s.clock t = s.handler.globalEpoch := by
  rw [clock, h]

lemma clock_of_entering {t : Fin n} {epoch : ℕ} (h : s.guard t = .entering epoch) :
    s.clock t = epoch := by
  rw [clock, h]

lemma clock_of_inside {t : Fin n} (h : s.guard t = .inside) :
    s.clock t = s.handler.localEpoch t := by
  rw [clock, h]

/-- The global epoch moves only when it is advanced. -/
lemma globalEpoch_le (h : s.sharedStep a = some s') :
    s'.handler.globalEpoch ≤ s.handler.globalEpoch + a.isAdvance.toNat := by
  cases sharedStep_effect h with
  | advanceGlobalEpoch => exact Nat.mod_le _ _
  | reclaim t _ heffect => cases heffect <;> exact Nat.le_refl _
  | enter | publish | leave | deferFreePointer | freeOutdatedPtr => exact Nat.le_refl _

/-- The entries of a list survive the end of a guard. -/
lemma limbo_unpin (s : EpochSt n Ptr) (h : EpochHandler n (Pinned n Ptr)) (t u : Fin n)
    (guard : Fin n → GuardPc) (heq : h.toFreePtr = s.handler.toFreePtr) :
    limbo { s with handler := h.unpin t, guard := guard } u = s.limbo u := by
  simp [limbo, unpin, heq, Function.comp_def]

lemma limbo_deferFreePointer (s : EpochSt n Ptr) (t : Fin n) (p : Pinned n Ptr) :
    limbo { s with handler := s.handler.deferFreePointer t p } t
      = s.limbo t ++ [⟨p.ptr, s.handler.localEpoch t⟩] := by
  simp [limbo, EpochHandler.deferFreePointer]

lemma limbo_deferFreePointer_of_ne (s : EpochSt n Ptr) {t u : Fin n} (hu : u ≠ t)
    (p : Pinned n Ptr) :
    limbo { s with handler := s.handler.deferFreePointer t p } u = s.limbo u := by
  simp [limbo, EpochHandler.deferFreePointer, Function.update_of_ne hu]

lemma limbo_erasePrefix (s : EpochSt n Ptr) (t : Fin n) (idx : ℕ) (reclaim : Fin n → ReclaimPc) :
    limbo { s with handler := s.handler.erasePrefix t idx, reclaim := reclaim } t
      = (s.limbo t).drop idx := by
  simp [limbo, EpochHandler.erasePrefix, List.map_drop]

/-- A step of a call on the list of `t` leaves the other lists and calls. -/
lemma frame_reclaim {t u : Fin n} (heffect : EpochEffect s (.reclaim t) s') (hu : u ≠ t) :
    s'.limbo u = s.limbo u ∧ s'.reclaim u = s.reclaim u := by
  cases heffect <;> simp [limbo, EpochHandler.erasePrefix, Function.update_of_ne hu]

end EpochSt

/-- A limbo list is in order and its thread's clock has reached its last entry; no clock is ahead
of the global epoch. -/
structure LimboOrder (s : EpochSt n Ptr) : Prop where
  ordered : ∀ t, (s.limbo t).Pairwise (·.epoch ≤ ·.epoch)
  reached : ∀ t, ∀ e ∈ s.limbo t, e.epoch ≤ s.clock t
  clock_le : ∀ t, s.clock t ≤ s.handler.globalEpoch

namespace LimboOrder

variable {s s' : EpochSt n Ptr} {a : EpochAct n Ptr}

lemma init : LimboOrder (EpochSt.init : EpochSt n Ptr) where
  ordered := fun _ => .nil
  reached := by
    intro t e he
    cases he
  clock_le := fun _ => Nat.le_refl _

/-- A step that adds no entry and sets no clock back. -/
lemma of_sublist (h : LimboOrder s) (hlist : ∀ t, (s'.limbo t).Sublist (s.limbo t))
    (hclock : ∀ t, s.clock t ≤ s'.clock t ∧ s'.clock t ≤ s'.handler.globalEpoch) :
    LimboOrder s' where
  ordered := fun t => (h.ordered t).sublist (hlist t)
  reached := fun t e he => (h.reached t e ((hlist t).subset he)).trans (hclock t).1
  clock_le := fun t => (hclock t).2

/-- The global epoch goes on. -/
lemma advance (h : LimboOrder s) (hlist : ∀ u, s'.limbo u = s.limbo u) (hguard : s'.guard = s.guard)
    (hlocal : s'.handler.localEpoch = s.handler.localEpoch)
    (hglobal : s.handler.globalEpoch ≤ s'.handler.globalEpoch) : LimboOrder s' := by
  refine h.of_sublist (fun u => hlist u ▸ List.Sublist.refl _) ?_
  intro u
  have hle := h.clock_le u
  cases hpc : s.guard u with
  | outside =>
      have hpc' : s'.guard u = .outside := by rw [hguard, hpc]
      rw [EpochSt.clock_of_outside hpc, EpochSt.clock_of_outside hpc']
      exact ⟨hglobal, Nat.le_refl _⟩
  | entering epoch =>
      have hpc' : s'.guard u = .entering epoch := by rw [hguard, hpc]
      rw [EpochSt.clock_of_entering hpc] at hle ⊢
      rw [EpochSt.clock_of_entering hpc']
      exact ⟨Nat.le_refl _, hle.trans hglobal⟩
  | inside =>
      have hpc' : s'.guard u = .inside := by rw [hguard, hpc]
      rw [EpochSt.clock_of_inside hpc] at hle ⊢
      rw [EpochSt.clock_of_inside hpc', hlocal]
      exact ⟨Nat.le_refl _, hle.trans hglobal⟩

/-- A step of the guard of `t`, at which only the clock of `t` can go on. -/
lemma of_guard (h : LimboOrder s) {t : Fin n} (hlist : ∀ u, s'.limbo u = s.limbo u)
    (hglobal : s'.handler.globalEpoch = s.handler.globalEpoch)
    (hguard : ∀ u, u ≠ t → s'.guard u = s.guard u)
    (hlocal : ∀ u, u ≠ t → s'.handler.localEpoch u = s.handler.localEpoch u)
    (hself : s.clock t ≤ s'.clock t ∧ s'.clock t ≤ s.handler.globalEpoch) : LimboOrder s' := by
  refine h.of_sublist (fun u => hlist u ▸ List.Sublist.refl _) ?_
  intro u
  rw [hglobal]
  by_cases hu : u = t
  · exact hu ▸ hself
  · have hsame : s'.clock u = s.clock u := by
      simp only [EpochSt.clock, hguard u hu, hlocal u hu, hglobal]
    rw [hsame]
    exact ⟨Nat.le_refl _, h.clock_le u⟩

/-- A deferral inside the own guard is tagged with the clock. -/
lemma deferFreePointer (h : LimboOrder s) {t : Fin n} (p : Pinned n Ptr)
    (hguard : s.guard t = .inside) :
    LimboOrder { s with handler := s.handler.deferFreePointer t p } := by
  set s' : EpochSt n Ptr := { s with handler := s.handler.deferFreePointer t p } with hs'
  have hother : ∀ u, u ≠ t → s'.limbo u = s.limbo u := by
    intro u hu
    exact EpochSt.limbo_deferFreePointer_of_ne s hu p
  have hself : s'.limbo t = s.limbo t ++ [⟨p.ptr, s.clock t⟩] := by
    rw [EpochSt.clock_of_inside hguard]
    exact EpochSt.limbo_deferFreePointer s t p
  refine ⟨?_, ?_, h.clock_le⟩
  · intro u
    by_cases hu : u = t
    · rw [hu, hself, List.pairwise_append]
      refine ⟨h.ordered t, List.pairwise_singleton _ _, ?_⟩
      intro e he e' he'
      rw [List.mem_singleton.mp he']
      exact h.reached t e he
    · rw [hother u hu]
      exact h.ordered u
  · intro u e he
    by_cases hu : u = t
    · rw [hu, hself, List.mem_append, List.mem_singleton] at he
      rcases he with he | rfl
      · exact hu ▸ h.reached t e he
      · exact hu ▸ Nat.le_refl _
    · rw [hother u hu] at he
      exact h.reached u e he

/-- A step inside `FreeOutdatedPtr` only takes entries away. -/
lemma reclaim (h : LimboOrder s) {t : Fin n} (heffect : EpochEffect s (.reclaim t) s') :
    LimboOrder s' := by
  have hother : ∀ u, u ≠ t → s'.limbo u = s.limbo u :=
    fun u hu => (EpochSt.frame_reclaim heffect hu).1
  cases heffect with
  | scan | scanned | free => exact ⟨h.ordered, h.reached, h.clock_le⟩
  | erased =>
      refine h.of_sublist ?_ (fun u => ⟨Nat.le_refl _, h.clock_le u⟩)
      intro u
      by_cases hu : u = t
      · subst hu
        rw [EpochSt.limbo_erasePrefix]
        exact List.drop_sublist ..
      · rw [hother u hu]

/-- **The step lemma.**  Only the wrap of the global epoch could set a clock back. -/
theorem step (h : LimboOrder s) (hwrap : s.handler.globalEpoch + 1 < 2 ^ 64)
    (hstep : s.sharedStep a = some s') : LimboOrder s' := by
  cases EpochSt.sharedStep_effect hstep with
  | advanceGlobalEpoch =>
      refine h.advance (fun _ => rfl) rfl rfl ?_
      calc s.handler.globalEpoch ≤ s.handler.globalEpoch + 1 := Nat.le_succ _
        _ = (s.handler.globalEpoch + 1) % 2 ^ 64 := (Nat.mod_eq_of_lt hwrap).symm
  | enter t hguard =>
      refine h.of_guard (fun _ => rfl) rfl (fun u hu => Function.update_of_ne hu ..)
        (fun _ _ => rfl) ?_
      rw [EpochSt.clock_of_outside hguard, EpochSt.clock_of_entering (Function.update_self ..)]
      exact ⟨Nat.le_refl _, Nat.le_refl _⟩
  | publish t epoch hguard =>
      have hle := h.clock_le t
      refine h.of_guard (fun _ => rfl) rfl (fun u hu => Function.update_of_ne hu ..)
        (fun u hu => Function.update_of_ne hu ..) ?_
      rw [EpochSt.clock_of_entering hguard] at hle ⊢
      rw [EpochSt.clock_of_inside (Function.update_self ..)]
      simpa [EpochHandler.publish] using hle
  | leave t hguard =>
      refine h.of_guard (fun u => EpochSt.limbo_unpin s _ t u _ rfl) rfl
        (fun u hu => Function.update_of_ne hu ..) (fun u hu => Function.update_of_ne hu ..) ?_
      have hclock : EpochSt.clock { s with
          handler := (s.handler.leave t).unpin t
          guard := Function.update s.guard t .outside } t = s.handler.globalEpoch :=
        EpochSt.clock_of_outside (Function.update_self ..)
      rw [hclock]
      exact ⟨h.clock_le t, Nat.le_refl _⟩
  | deferFreePointer t p hguard => exact h.deferFreePointer _ hguard
  | freeOutdatedPtr t => exact ⟨h.ordered, h.reached, h.clock_le⟩
  | reclaim t _ heffect => exact h.reclaim heffect

/-- **The run lemma.** -/
theorem run {tr : List (EpochAct n Ptr)} (hadv : advances tr < 2 ^ 64 - 1)
    (hrun : Transition.run EpochSt.sharedStep EpochSt.init tr = some s) : LimboOrder s := by
  have hinv : advances tr < 2 ^ 64 - 1 → LimboOrder s ∧ s.handler.globalEpoch ≤ advances tr := by
    refine run_invariant_of_trace
      (I := fun tr m => advances tr < 2 ^ 64 - 1 →
        LimboOrder m ∧ m.handler.globalEpoch ≤ advances tr)
      ?_ (fun _ => ⟨init, Nat.le_refl _⟩) hrun
    intro tr m a m' _ ih hstep hadv
    have hle := advances_le_snoc tr a
    obtain ⟨h, hglobal⟩ := ih (by omega)
    refine ⟨h.step (by omega) hstep, ?_⟩
    exact (EpochSt.globalEpoch_le hstep).trans (by rw [advances_snoc]; omega)
  exact (hinv hadv).1

end LimboOrder

/-! ## A prefix that is a filter -/

section filter

/-- Where a test that has failed holds of nothing behind, what comes before the first failure is
all that passes. -/
lemma takeWhile_dropWhile_eq_filter {α : Type} {p : α → Bool} {l : List α}
    (h : l.Pairwise fun a b => p b = true → p a = true) :
    l.takeWhile p = l.filter p ∧ l.dropWhile p = l.filter (!p ·) := by
  induction l with
  | nil => exact ⟨rfl, rfl⟩
  | cons a l ih =>
      obtain ⟨hhead, htail⟩ := List.pairwise_cons.mp h
      obtain ⟨htake, hdrop⟩ := ih htail
      by_cases ha : p a = true
      · simp [ha, htake, hdrop]
      · have hrest : ∀ b ∈ l, ¬ p b = true := fun b hb hpb => ha (hhead b hb hpb)
        have hnone : l.filter p = [] := List.filter_eq_nil_iff.mpr hrest
        have hall : l.filter (!p ·) = l := by
          rw [List.filter_eq_self]
          intro b hb
          simp [hrest b hb]
        simp [ha, hnone, hall]

variable {m : ℕ} {l : List (ToFreePointer Ptr)}

lemma pairwise_outdated (hord : l.Pairwise (·.epoch ≤ ·.epoch)) :
    l.Pairwise fun e e' => decide (e'.epoch < m) = true → decide (e.epoch < m) = true := by
  refine hord.imp ?_
  intro e e' hle hlt
  rw [decide_eq_true_eq] at hlt ⊢
  exact hle.trans_lt hlt

/-- In a list in order, what comes before the first young entry is all that is outdated. -/
lemma takeWhile_outdated (hord : l.Pairwise (·.epoch ≤ ·.epoch)) :
    l.takeWhile (·.epoch < m) = l.filter (·.epoch < m) :=
  (takeWhile_dropWhile_eq_filter (pairwise_outdated hord)).1

lemma dropWhile_outdated (hord : l.Pairwise (·.epoch ≤ ·.epoch)) :
    l.dropWhile (·.epoch < m) = l.filter (m ≤ ·.epoch) := by
  rw [(takeWhile_dropWhile_eq_filter (pairwise_outdated hord)).2]
  refine List.filter_congr ?_
  intro e _
  rw [← decide_not]
  exact decide_eq_decide.mpr Nat.not_lt

end filter

/-! ## One call of `FreeOutdatedPtr` -/

namespace EpochSt

variable {s s' : EpochSt n Ptr} {a : EpochAct n Ptr} {t : Fin n}

/-- What the step `a` from `s` to `s'` frees for a call on the list of `t`. -/
def freedBy (t : Fin n) (s s' : EpochSt n Ptr) : EpochAct n Ptr → List Ptr
  | .reclaim u =>
      if u = t then (s'.freed.take (s'.freed.length - s.freed.length)).map (·.ptr) else []
  | _ => []

/-- What the actions from `s` on free for calls on the list of `t`, in order. -/
def freedAlong (t : Fin n) : EpochSt n Ptr → List (EpochAct n Ptr) → List Ptr
  | _, [] => []
  | s, a :: tr =>
      match s.sharedStep a with
      | none => []
      | some s' => freedBy t s s' a ++ freedAlong t s' tr

lemma freedAlong_snoc {tr : List (EpochAct n Ptr)} {s₁ : EpochSt n Ptr}
    (hrun : run sharedStep s tr = some s₁) (hstep : s₁.sharedStep a = some s') :
    freedAlong t s (tr ++ [a]) = freedAlong t s tr ++ freedBy t s₁ s' a := by
  induction tr generalizing s with
  | nil =>
      rw [run_nil, Option.some.injEq] at hrun
      subst hrun
      simp [freedAlong, hstep]
  | cons b tr ih =>
      obtain ⟨s₂, hb, hrest⟩ := run_cons_eq_some.mp hrun
      simp [freedAlong, hb, ih hrest]

end EpochSt

namespace EpochSt

/-- The slot that the step `a` loads for a call on the list of `t`, with what it finds there. -/
def loadedBy (t : Fin n) (s : EpochSt n Ptr) : EpochAct n Ptr → Option (Fin n × ℕ)
  | .reclaim u =>
      match s.reclaim u with
      | .scanning i _ =>
          if h : i < n ∧ u = t then some (⟨i, h.1⟩, s.handler.localEpoch ⟨i, h.1⟩) else none
      | _ => none
  | _ => none

/-- The slots that are loaded for calls on the list of `t`, from `s` on. -/
def loadedAlong (t : Fin n) : EpochSt n Ptr → List (EpochAct n Ptr) → List (Fin n × ℕ) :=
  history (fun s a _ => s.loadedBy t a) sharedStep

end EpochSt

/-- What a call that has loaded `loads` keeps: it goes through the slots in order, and has their
minimum. -/
def Scanned (loads : List (Fin n × ℕ)) : ReclaimPc → Prop
  | .idle => True
  | .scanning i m => loads.map Prod.fst = (List.finRange n).take i ∧
      m = (loads.map Prod.snd).foldl min maxValue
  | .freeing m _ => loads.map Prod.fst = List.finRange n ∧
      m = (loads.map Prod.snd).foldl min maxValue

namespace Scanned

variable {loads : List (Fin n × ℕ)} {s s' : EpochSt n Ptr} {t : Fin n} {a : EpochAct n Ptr}

/-- A step that leaves the call alone. -/
lemma frame (h : Scanned loads (s.reclaim t)) (hreclaim : s'.reclaim t = s.reclaim t)
    (hloaded : s.loadedBy t a = none) :
    Scanned (loads ++ (s.loadedBy t a).toList) (s'.reclaim t) := by
  rw [hloaded, hreclaim]
  simpa using h

/-- A step of the call itself. -/
lemma reclaim (h : Scanned loads (s.reclaim t)) (heffect : EpochEffect s (.reclaim t) s') :
    Scanned (loads ++ (s.loadedBy t (.reclaim t)).toList) (s'.reclaim t) := by
  cases heffect with
  | scan _ i m hpc hi =>
      rw [hpc] at h
      obtain ⟨hslots, rfl⟩ := h
      have hloaded : s.loadedBy t (.reclaim t) = some (⟨i, hi⟩, s.handler.localEpoch ⟨i, hi⟩) := by
        simp [EpochSt.loadedBy, hpc, hi]
      simp only [Function.update_self, hloaded, Option.toList_some]
      refine ⟨?_, by simp⟩
      rw [List.map_append, hslots, List.take_add_one]
      simp [hi]
  | scanned _ i m hpc hi =>
      rw [hpc] at h
      obtain ⟨hslots, hm⟩ := h
      have hloaded : s.loadedBy t (.reclaim t) = none := by
        simp [EpochSt.loadedBy, hpc, Nat.not_lt.mpr hi]
      have hall : (List.finRange n).take i = List.finRange n :=
        List.take_of_length_le (by simpa using hi)
      simp only [Function.update_self, hloaded, Option.toList_none, List.append_nil]
      exact ⟨hslots.trans hall, hm⟩
  | free _ m idx hpc e he hold =>
      have hloaded : s.loadedBy t (.reclaim t) = none := by simp [EpochSt.loadedBy, hpc]
      rw [hpc] at h
      simp only [Function.update_self, hloaded, Option.toList_none, List.append_nil]
      exact h
  | erased =>
      simp only [Function.update_self]
      trivial

/-- **The step lemma.** -/
theorem step (h : Scanned loads (s.reclaim t)) (ha : a ≠ .freeOutdatedPtr t)
    (hstep : s.sharedStep a = some s') :
    Scanned (loads ++ (s.loadedBy t a).toList) (s'.reclaim t) := by
  cases EpochSt.sharedStep_effect hstep with
  | advanceGlobalEpoch | enter | publish | leave | deferFreePointer => exact h.frame rfl rfl
  | freeOutdatedPtr u hidle =>
      have hu : t ≠ u := by
        rintro rfl
        exact ha rfl
      exact h.frame (Function.update_of_ne hu ..) rfl
  | reclaim u _ heffect =>
      by_cases hu : u = t
      · subst hu
        exact h.reclaim heffect
      · refine h.frame (EpochSt.frame_reclaim heffect (Ne.symm hu)).2 ?_
        rw [EpochSt.loadedBy]
        split
        · exact dif_neg fun hself => hu hself.2
        · rfl

/-- **The run lemma.** -/
theorem run {during : List (EpochAct n Ptr)} {s₀ : EpochSt n Ptr}
    (h : Scanned ([] : List (Fin n × ℕ)) (s₀.reclaim t)) (honce : .freeOutdatedPtr t ∉ during)
    (hrun : Transition.run EpochSt.sharedStep s₀ during = some s) :
    Scanned (EpochSt.loadedAlong t s₀ during) (s.reclaim t) := by
  refine run_invariant_of_trace (I := fun tr m => .freeOutdatedPtr t ∉ tr →
    Scanned (EpochSt.loadedAlong t s₀ tr) (m.reclaim t)) ?_ ?_ hrun honce
  · intro tr m a m' hm ih hstep honce
    rw [List.mem_append, List.mem_singleton, not_or] at honce
    rw [EpochSt.loadedAlong, history_snoc hm hstep]
    exact (ih honce.1).step (Ne.symm honce.2) hstep
  · exact fun _ => h

end Scanned

/-- A whole call of `FreeOutdatedPtr` on the list of `t`, with the steps that others take
meanwhile: `during` leads from its start in `s₀` to its `erase` in `s₁`, and `m` is the minimum
that its scan has found. -/
structure FreeCall (t : Fin n) (m : ℕ) (during : List (EpochAct n Ptr))
    (s₀ s₁ s : EpochSt n Ptr) : Prop where
  run : run EpochSt.sharedStep s₀ (.freeOutdatedPtr t :: during) = some s₁
  once : .freeOutdatedPtr t ∉ during
  loop : ∃ idx, s₁.reclaim t = .freeing m idx
  erase : s₁.sharedStep (.reclaim t) = some s
  done : s.reclaim t = .idle

/-- Where a call on the list of `t` is: it started with the entries `l`, and has freed `freed`. -/
def CallOk (l : List (ToFreePointer Ptr)) (freed : List Ptr) (s : EpochSt n Ptr) (t : Fin n) :
    ReclaimPc → Prop
  | .idle => True
  | .scanning _ _ => l <+: s.limbo t ∧ freed = []
  | .freeing m idx => l <+: s.limbo t ∧ freed = ((s.limbo t).take idx).map (·.ptr) ∧
      outdatedCount m (s.limbo t) = idx + outdatedCount m ((s.limbo t).drop idx)

namespace CallOk

variable {l : List (ToFreePointer Ptr)} {freed : List Ptr} {s s' : EpochSt n Ptr} {t : Fin n}
  {a : EpochAct n Ptr}

/-- A step that leaves the list and the call alone, and frees nothing for it. -/
lemma frame (h : CallOk l freed s t (s.reclaim t)) (hlist : s'.limbo t = s.limbo t)
    (hreclaim : s'.reclaim t = s.reclaim t) (hfreed : EpochSt.freedBy t s s' a = []) :
    CallOk l (freed ++ EpochSt.freedBy t s s' a) s' t (s'.reclaim t) := by
  rw [hfreed, List.append_nil, hreclaim]
  cases hpc : s.reclaim t with
  | idle => trivial
  | scanning i m =>
      rw [hpc] at h
      simpa only [CallOk, hlist] using h
  | freeing m idx =>
      rw [hpc] at h
      simpa only [CallOk, hlist] using h

/-- A deferral adds to the list at its end, and not while the loop is going through it. -/
lemma deferFreePointer (h : CallOk l freed s t (s.reclaim t)) (p : Pinned n Ptr)
    (hloop : ∀ m idx, s.reclaim t ≠ .freeing m idx) :
    CallOk l freed { s with handler := s.handler.deferFreePointer t p } t (s.reclaim t) := by
  cases hpc : s.reclaim t with
  | idle => trivial
  | scanning i m =>
      rw [hpc] at h
      refine ⟨?_, h.2⟩
      rw [EpochSt.limbo_deferFreePointer]
      exact h.1.trans (List.prefix_append _ _)
  | freeing m idx => exact absurd hpc (hloop m idx)

/-- A step of the call itself. -/
lemma reclaim (h : CallOk l freed s t (s.reclaim t)) (heffect : EpochEffect s (.reclaim t) s') :
    CallOk l (freed ++ EpochSt.freedBy t s s' (.reclaim t)) s' t (s'.reclaim t) := by
  cases heffect with
  | scan _ i m hpc hi =>
      rw [hpc] at h
      obtain ⟨hpre, rfl⟩ := h
      simp only [Function.update_self]
      exact ⟨hpre, by simp [EpochSt.freedBy]⟩
  | scanned _ i m hpc hi =>
      rw [hpc] at h
      obtain ⟨hpre, rfl⟩ := h
      simp only [Function.update_self]
      exact ⟨hpre, by simp [EpochSt.freedBy], by simp [EpochSt.limbo]⟩
  | free _ m idx hpc e he hold =>
      rw [hpc] at h
      obtain ⟨hpre, rfl, hcount⟩ := h
      have hget : (s.limbo t)[idx]? = some ⟨e.ptr.ptr, e.epoch⟩ := by
        simp [EpochSt.limbo, he]
      simp only [Function.update_self]
      refine ⟨hpre, ?_, ?_⟩
      · show _ = ((s.limbo t).take (idx + 1)).map (·.ptr)
        rw [List.take_add_one, hget]
        simp [EpochSt.freedBy]
      · show outdatedCount m (s.limbo t) = _ + outdatedCount m ((s.limbo t).drop (idx + 1))
        rw [hcount, outdatedCount_drop_of_lt hget hold]
        omega
  | erased _ m idx hpc hstop =>
      simp only [Function.update_self]
      trivial

/-- **The step lemma.** -/
theorem step (h : CallOk l freed s t (s.reclaim t)) (ha : a ≠ .freeOutdatedPtr t)
    (hstep : s.sharedStep a = some s') :
    CallOk l (freed ++ EpochSt.freedBy t s s' a) s' t (s'.reclaim t) := by
  cases EpochSt.sharedStep_effect hstep with
  | advanceGlobalEpoch | enter | publish => exact h.frame rfl rfl rfl
  | leave u => exact h.frame (EpochSt.limbo_unpin s _ u t _ rfl) rfl rfl
  | deferFreePointer u p hguard hloop =>
      by_cases hu : u = t
      · subst hu
        simpa [EpochSt.freedBy] using h.deferFreePointer ⟨p, s.inside⟩ hloop
      · exact h.frame (EpochSt.limbo_deferFreePointer_of_ne s (Ne.symm hu) _) rfl rfl
  | freeOutdatedPtr u hidle =>
      have hu : t ≠ u := by
        rintro rfl
        exact ha rfl
      exact h.frame rfl (Function.update_of_ne hu ..) rfl
  | reclaim u _ heffect =>
      by_cases hu : u = t
      · subst hu
        exact h.reclaim heffect
      · have hframe := EpochSt.frame_reclaim heffect (Ne.symm hu)
        exact h.frame hframe.1 hframe.2 (if_neg hu)

/-- **The run lemma.** -/
theorem run {during : List (EpochAct n Ptr)} {s₀ : EpochSt n Ptr}
    (h : CallOk l [] s₀ t (s₀.reclaim t)) (honce : .freeOutdatedPtr t ∉ during)
    (hrun : Transition.run EpochSt.sharedStep s₀ during = some s) :
    CallOk l (EpochSt.freedAlong t s₀ during) s t (s.reclaim t) := by
  refine run_invariant_of_trace
    (I := fun tr m => .freeOutdatedPtr t ∉ tr →
      CallOk l (EpochSt.freedAlong t s₀ tr) m t (m.reclaim t))
    ?_ (fun _ => h) hrun honce
  intro tr m a m' hm ih hstep honce
  rw [List.mem_append, List.mem_singleton, not_or] at honce
  rw [EpochSt.freedAlong_snoc hm hstep]
  exact (ih honce.1).step (Ne.symm honce.2) hstep

end CallOk

/-- A call loads every slot once, in their order, and `m` is the minimum of what it has found. -/
theorem FreeCall.scanned {t : Fin n} {m : ℕ} {during : List (EpochAct n Ptr)}
    {s₀ s₁ s : EpochSt n Ptr} (hcall : FreeCall t m during s₀ s₁ s) :
    (EpochSt.loadedAlong t s₀ (.freeOutdatedPtr t :: during)).map Prod.fst = List.finRange n ∧
      m = ((EpochSt.loadedAlong t s₀ (.freeOutdatedPtr t :: during)).map Prod.snd).foldl min
        maxValue := by
  obtain ⟨s', hstart, hduring⟩ := run_cons_eq_some.mp hcall.run
  obtain ⟨idx, hpc⟩ := hcall.loop
  have hinit : Scanned ([] : List (Fin n × ℕ)) (s'.reclaim t) := by
    cases EpochSt.sharedStep_effect hstart with
    | freeOutdatedPtr => simp [Scanned]
  have hscanned := hinit.run hcall.once hduring
  rw [hpc] at hscanned
  rw [EpochSt.loadedAlong, history_cons hstart]
  exact hscanned

/-- What a call frees and leaves, whatever the order of the list: what is before the first entry
that is not outdated, and the rest. -/
theorem FreeCall.frees_takeWhile {t : Fin n} {m : ℕ} {during : List (EpochAct n Ptr)}
    {s₀ s₁ s : EpochSt n Ptr} (hcall : FreeCall t m during s₀ s₁ s) :
    EpochSt.freedAlong t s₀ (.freeOutdatedPtr t :: during ++ [.reclaim t])
        = ((s₁.limbo t).takeWhile (·.epoch < m)).map (·.ptr) ∧
      s.limbo t = (s₁.limbo t).dropWhile (·.epoch < m) ∧ s₀.limbo t <+: s₁.limbo t := by
  obtain ⟨s', hstart, hduring⟩ := run_cons_eq_some.mp hcall.run
  obtain ⟨idx, hpc⟩ := hcall.loop
  have hinit : CallOk (s₀.limbo t) [] s' t (s'.reclaim t) ∧ s'.freed = s₀.freed := by
    cases EpochSt.sharedStep_effect hstart with
    | freeOutdatedPtr =>
        simp only [Function.update_self]
        exact ⟨⟨List.prefix_refl _, rfl⟩, trivial⟩
  have hok := hinit.1.run hcall.once hduring
  rw [hpc] at hok
  obtain ⟨hpre, hfreed, hcount⟩ := hok
  rw [EpochSt.freedAlong_snoc hcall.run hcall.erase, EpochSt.freedAlong]
  simp only [hstart]
  rw [hfreed]
  -- the last step found the end of the list or an entry that is not outdated
  cases EpochSt.reclaimStep_effect hcall.erase with
  | scan _ i m' hpc' | scanned _ i m' hpc' => simp [hpc] at hpc'
  | free =>
      have hdone := hcall.done
      simp at hdone
  | erased _ m' idx' hpc' hstop =>
      obtain ⟨rfl, rfl⟩ := ReclaimPc.freeing.inj (hpc.symm.trans hpc')
      have hend : outdatedCount m ((s₁.limbo t).drop idx) = 0 := by
        refine outdatedCount_drop_of_stop ?_
        simpa [EpochSt.limbo] using hstop
      rw [hend, Nat.add_zero] at hcount
      refine ⟨?_, ?_, hpre⟩
      · rw [← take_outdatedCount, hcount]
        simp [EpochSt.freedBy]
      · rw [EpochSt.limbo_erasePrefix, ← drop_outdatedCount, hcount]

/-- **Stopping at the first young entry loses nothing.**  While the global epoch has been advanced
fewer than `2 ^ 64 - 1` times, every limbo list is in the order of its epochs, and a call of
`FreeOutdatedPtr` loads every slot and frees exactly the entries below the minimum of what it found
there, each once, and keeps the others in their order. -/
theorem freeOutdatedPtr_exact {tr : List (EpochAct n Ptr)} {s : EpochSt n Ptr}
    (hadv : advances tr < 2 ^ 64 - 1) (hrun : run EpochSt.sharedStep EpochSt.init tr = some s) :
    (∀ t, (s.limbo t).Pairwise (·.epoch ≤ ·.epoch)) ∧
    ∀ t m pre during s₀ s₁, tr = pre ++ (.freeOutdatedPtr t :: during ++ [.reclaim t]) →
      run EpochSt.sharedStep EpochSt.init pre = some s₀ → FreeCall t m during s₀ s₁ s →
      ((EpochSt.loadedAlong t s₀ (.freeOutdatedPtr t :: during)).map Prod.fst = List.finRange n ∧
        m = ((EpochSt.loadedAlong t s₀ (.freeOutdatedPtr t :: during)).map Prod.snd).foldl min
          maxValue) ∧
      EpochSt.freedAlong t s₀ (.freeOutdatedPtr t :: during ++ [.reclaim t])
          = ((s₁.limbo t).filter (·.epoch < m)).map (·.ptr) ∧
        s.limbo t = (s₁.limbo t).filter (m ≤ ·.epoch) ∧ s₀.limbo t <+: s₁.limbo t := by
  refine ⟨(LimboOrder.run hadv hrun).ordered, ?_⟩
  intro t m pre during s₀ s₁ hsplit hpre hcall
  have hrun₁ : run EpochSt.sharedStep EpochSt.init (pre ++ .freeOutdatedPtr t :: during)
      = some s₁ := run_append_eq_some.mpr ⟨s₀, hpre, hcall.run⟩
  have hle : advances (pre ++ .freeOutdatedPtr t :: during) ≤ advances tr := by
    rw [hsplit, ← List.append_assoc]
    exact advances_le_snoc ..
  have hord := (LimboOrder.run (by omega) hrun₁).ordered t
  refine ⟨hcall.scanned, ?_⟩
  rw [← takeWhile_outdated hord, ← dropWhile_outdated hord]
  exact hcall.frees_takeWhile

/-- Another thread runs `FreeOutdatedPtr` on the list of thread `0`, which is inside its second
guard, defers a third pointer while the slots are scanned, and leaves before the first one is
freed. -/
theorem freeOutdatedPtr_exact_two :
    ∃ s₀ s₁ s : EpochSt 2 ℕ, run EpochSt.sharedStep EpochSt.init
        [.enter 1, .publish 1, .enter 0, .publish 0, .deferFreePointer 0 7, .leave 1, .leave 0,
          .advanceGlobalEpoch, .enter 0, .publish 0, .deferFreePointer 0 8] = some s₀ ∧
      FreeCall 0 1 [.reclaim 0, .deferFreePointer 0 9, .reclaim 0, .reclaim 0, .leave 0, .reclaim 0]
        s₀ s₁ s ∧
      EpochSt.freedAlong 0 s₀ [.freeOutdatedPtr 0, .reclaim 0, .deferFreePointer 0 9, .reclaim 0,
        .reclaim 0, .leave 0, .reclaim 0, .reclaim 0] = [7] ∧
      s.limbo 0 = [⟨8, 1⟩, ⟨9, 1⟩] := by
  obtain ⟨s₀, s₁, s, hpre, hcall, hlist⟩ : ∃ s₀ s₁ s : EpochSt 2 ℕ,
      run EpochSt.sharedStep EpochSt.init
        [.enter 1, .publish 1, .enter 0, .publish 0, .deferFreePointer 0 7, .leave 1, .leave 0,
          .advanceGlobalEpoch, .enter 0, .publish 0, .deferFreePointer 0 8] = some s₀ ∧
      FreeCall 0 1 [.reclaim 0, .deferFreePointer 0 9, .reclaim 0, .reclaim 0, .leave 0, .reclaim 0]
        s₀ s₁ s ∧
      s₁.limbo 0 = [⟨7, 0⟩, ⟨8, 1⟩, ⟨9, 1⟩] :=
    ⟨_, _, _, rfl, ⟨rfl, by simp, ⟨1, rfl⟩, rfl, rfl⟩, rfl⟩
  have hrun := run_append_eq_some.mpr
    ⟨s₀, hpre, run_snoc_eq_some.mpr ⟨s₁, hcall.run, hcall.erase⟩⟩
  obtain ⟨-, hfreed, hkept, -⟩ :=
    (freeOutdatedPtr_exact (by decide) hrun).2 0 1 _ _ s₀ s₁ rfl hpre hcall
  rw [hlist] at hfreed hkept
  exact ⟨s₀, s₁, s, hpre, hcall, hfreed, hkept⟩

end OptLock
