import OptimisticLocking.Library.Transition
import OptimisticLocking.Sync.Epoch

/-!
# One thread with several `EpochGuard`s

An `EpochGuard` knows its slot and nothing of the guards around it: every constructor stores the
global epoch, every destructor stores `MAX_VALUE`.  This file follows one thread that opens guards
inside guards on its own slot, as `LookUp` does when its caller already holds one.

* `NestSt` — the handler and the epochs that the live guards have published, innermost first.
* `openedLast` — whether the last thing that happened to a guard was its construction.
* **`nested_guards`** — what the slot holds: the epoch of the innermost guard as long as no guard
  has been destroyed since that one was opened, and `MAX_VALUE` from then on.
-/

namespace OptLock

open Transition EpochHandler

structure NestSt (n : ℕ) (Ptr : Type) where
  handler : EpochHandler n Ptr
  /-- In a constructor: the global epoch is loaded, the store comes next. -/
  entering : Option ℕ
  /-- The epochs that the live guards have published, innermost first. -/
  live : List ℕ

inductive NestAct
  | advanceGlobalEpoch
  /-- The constructor of an `EpochGuard`: the load of the global epoch. -/
  | enter
  /-- The constructor of an `EpochGuard`: the store to the slot. -/
  | publish
  /-- The destructor of the innermost guard. -/
  | leave
  deriving DecidableEq, Repr

namespace NestSt

variable {n : ℕ} {Ptr : Type}

def init : NestSt n Ptr := { handler := .init, entering := none, live := [] }

/-- One access, by the thread of slot `t` or by whoever advances the global epoch. -/
def step (t : Fin n) (s : NestSt n Ptr) : NestAct → Option (NestSt n Ptr)
  | .advanceGlobalEpoch => some { s with handler := s.handler.advanceGlobalEpoch }
  | .enter =>
      match s.entering with
      | none => some { s with entering := some s.handler.globalEpoch }
      | some _ => none
  | .publish =>
      s.entering.map fun epoch =>
        { handler := s.handler.publish t epoch, entering := none, live := epoch :: s.live }
  | .leave =>
      match s.entering, s.live with
      | none, _ :: live => some { handler := s.handler.leave t, entering := none, live := live }
      | _, _ => none

end NestSt

/-- The last guard event of the actions is the store of a constructor. -/
def openedLast (tr : List NestAct) : Bool :=
  tr.foldl (fun opened a =>
    match a with
    | .publish => true
    | .leave => false
    | _ => opened) false

lemma openedLast_snoc (tr : List NestAct) (a : NestAct) :
    openedLast (tr ++ [a]) =
      match a with
      | .publish => true
      | .leave => false
      | _ => openedLast tr := by
  cases a <;> simp [openedLast]

/-- What the slot holds while a guard is alive. -/
structure NestInv {n : ℕ} {Ptr : Type} (t : Fin n) (tr : List NestAct) (s : NestSt n Ptr) :
    Prop where
  opened : openedLast tr = true → ∃ rest, s.live = s.handler.localEpoch t :: rest
  closed : openedLast tr = false → s.live ≠ [] → s.handler.localEpoch t = maxValue

namespace NestInv

variable {n : ℕ} {Ptr : Type} {t : Fin n} {tr : List NestAct} {s s' : NestSt n Ptr}

lemma init : NestInv t [] (NestSt.init : NestSt n Ptr) where
  opened := nofun
  closed := fun _ hlive => absurd rfl hlive

/-- **The step lemma.** -/
theorem step (h : NestInv t tr s) {a : NestAct} (hstep : s.step t a = some s') :
    NestInv t (tr ++ [a]) s' := by
  cases a with
  | advanceGlobalEpoch =>
      cases hstep
      exact ⟨by rw [openedLast_snoc]; exact h.opened, by rw [openedLast_snoc]; exact h.closed⟩
  | enter =>
      simp only [NestSt.step] at hstep
      split at hstep <;> cases hstep
      exact ⟨by rw [openedLast_snoc]; exact h.opened, by rw [openedLast_snoc]; exact h.closed⟩
  | publish =>
      obtain ⟨epoch, -, rfl⟩ := Option.map_eq_some_iff.mp hstep
      have hself : (s.handler.publish t epoch).localEpoch t = epoch := Function.update_self ..
      refine ⟨fun _ => ⟨s.live, by rw [hself]⟩, ?_⟩
      rw [openedLast_snoc]
      exact nofun
  | leave =>
      simp only [NestSt.step] at hstep
      split at hstep <;> cases hstep
      refine ⟨?_, fun _ _ => Function.update_self ..⟩
      rw [openedLast_snoc]
      exact nofun

/-- **The run lemma.** -/
theorem run (hrun : Transition.run (NestSt.step t) NestSt.init tr = some s) : NestInv t tr s :=
  run_invariant_of_trace (I := NestInv t) (fun _ _ _ _ _ h hstep => h.step hstep) init hrun

end NestInv

/-- A step that leaves `MAX_VALUE` in the slot found it there, destroyed a guard, whichever, or
published that very epoch. -/
lemma NestSt.slot_eq_max {n : ℕ} {Ptr : Type} {t : Fin n} {s s' : NestSt n Ptr} {a : NestAct}
    (hstep : s.step t a = some s') (hmax : s'.handler.localEpoch t = maxValue) :
    s.handler.localEpoch t = maxValue ∨ a = .leave ∨ a = .publish ∧ s.entering = some maxValue := by
  cases a with
  | advanceGlobalEpoch =>
      cases hstep
      exact .inl hmax
  | enter =>
      simp only [NestSt.step] at hstep
      split at hstep <;> cases hstep
      exact .inl hmax
  | publish =>
      obtain ⟨epoch, hentering, rfl⟩ := Option.map_eq_some_iff.mp hstep
      have hself : (s.handler.publish t epoch).localEpoch t = epoch := Function.update_self ..
      rw [hself] at hmax
      exact .inr (.inr ⟨rfl, hmax ▸ hentering⟩)
  | leave => exact .inr (.inl rfl)

/-- **Nested guards.**  While guards are alive, the slot holds the epoch of the innermost one if no
guard has been destroyed since it was opened, and `MAX_VALUE` otherwise.  So the epoch of the
outermost guard stays an upper bound exactly as long as nothing nested has been destroyed since the
last opening and the innermost guard has published no later epoch; and every destruction, not only
that of the outermost guard, leaves `MAX_VALUE`. -/
theorem nested_guards {n : ℕ} {Ptr : Type} {t : Fin n} {tr : List NestAct} {s : NestSt n Ptr}
    (hrun : run (NestSt.step t) NestSt.init tr = some s) :
    (∀ hlive : s.live ≠ [],
      s.handler.localEpoch t = (if openedLast tr then s.live.head hlive else maxValue) ∧
      (s.handler.localEpoch t ≤ s.live.getLast hlive ↔
        if openedLast tr then s.live.head hlive ≤ s.live.getLast hlive
        else maxValue ≤ s.live.getLast hlive)) ∧
    ∀ a s', s.step t a = some s' → s'.handler.localEpoch t = maxValue →
      s.handler.localEpoch t = maxValue ∨ a = .leave ∨
        a = .publish ∧ s.entering = some maxValue := by
  have h := NestInv.run hrun
  refine ⟨?_, fun a s' hstep hmax => NestSt.slot_eq_max hstep hmax⟩
  intro hlive
  have hslot : s.handler.localEpoch t =
      if openedLast tr then s.live.head hlive else maxValue := by
    split_ifs with hopened
    · obtain ⟨rest, hhead⟩ := h.opened hopened
      simp only [hhead, List.head_cons]
    · exact h.closed (Bool.eq_false_of_not_eq_true hopened) hlive
  refine ⟨hslot, ?_⟩
  rw [hslot]
  split_ifs <;> rfl

/-- Two guards opened in one epoch: the inner one changes nothing while it is alive. -/
theorem nested_guards_same_epoch :
    ∃ s : NestSt 1 ℕ, run (NestSt.step 0) NestSt.init
        [.advanceGlobalEpoch, .enter, .publish, .enter, .publish, .advanceGlobalEpoch] = some s ∧
      s.live = [1, 1] ∧ s.handler.localEpoch 0 ≤ 1 := by
  have hrun : run (NestSt.step 0) (NestSt.init : NestSt 1 ℕ)
      [.advanceGlobalEpoch, .enter, .publish, .enter, .publish, .advanceGlobalEpoch] = some _ := rfl
  exact ⟨_, hrun, rfl, (((nested_guards hrun).1 (by decide)).2).mpr (by decide)⟩

/-- A guard opened and destroyed inside another: the outer one is alive with epoch `0`, and the slot
is already `MAX_VALUE`.  Before that, a guard opened after an advance has raised it to `1`. -/
theorem inner_guard_ends_protection :
    (∃ s : NestSt 1 ℕ, run (NestSt.step 0) NestSt.init
        [.enter, .publish, .advanceGlobalEpoch, .enter, .publish] = some s ∧
      s.live = [1, 0] ∧ ¬ s.handler.localEpoch 0 ≤ 0) ∧
    ∃ s : NestSt 1 ℕ, run (NestSt.step 0) NestSt.init
        [.enter, .publish, .enter, .publish, .leave] = some s ∧
      s.live = [0] ∧ s.handler.localEpoch 0 = maxValue ∧ ¬ s.handler.localEpoch 0 ≤ 0 := by
  refine ⟨⟨_, rfl, rfl, by decide⟩, ⟨_, rfl, rfl, rfl, by decide⟩⟩

end OptLock
