import OptimisticLocking.Sync.Reclamation

/-!
# Rounds between barriers

The protocol of `TestEpoch NormalOperation`.  A round starts when every worker has finished the
one before; in it each worker reclaims, opens a guard, defers one pointer, closes the guard, and
worker `0` then advances the global epoch.  Within a round the accesses of the workers interleave
in any way.

A deferred pointer carries the number of its round, which the code does not store.  Rounds are
numbered from `0`, so at the start of a round the global epoch is its number.

* `RoundSt.step` — one access of a worker, or the barrier.
* `Limbo` — what a limbo list looks like at the start of a round: at most two entries, and only the
  last of them may be as young as the round before.
* `RoundSt.DefersBelowMax` — worker `0`, which advances the global epoch, has not come to
  `MAX_VALUE`.
* **`limbo_bounded`** — until then no list grows beyond two entries.  After that an entry that is
  tagged with `MAX_VALUE` is never freed.
-/

namespace OptLock

open Transition EpochHandler

/-- What a worker does next. -/
inductive RoundPc
  | freeOutdatedPtr
  /-- Inside `FreeOutdatedPtr`. -/
  | reclaim
  | enter
  | publish
  | deferFreePointer
  | leave
  /-- Worker `0` only. -/
  | advanceGlobalEpoch
  /-- At the barrier. -/
  | done
  deriving DecidableEq, Repr

/-- The handler, its `n + 1` workers, and the number of the round. -/
structure RoundSt (n : ℕ) (Ptr : Type) where
  epochs : EpochSt (n + 1) (Ptr × ℕ)
  pc : Fin (n + 1) → RoundPc
  round : ℕ

inductive RoundAct (n : ℕ) (Ptr : Type)
  /-- The next access of worker `t`; `p` is what it defers in this round. -/
  | work (t : Fin (n + 1)) (p : Ptr)
  | barrier

namespace RoundPc

variable {n : ℕ} {Ptr : Type}

/-- The access of worker `t`. -/
def act (t : Fin n) (p : Ptr) : RoundPc → Option (EpochAct n Ptr)
  | .freeOutdatedPtr => some (.freeOutdatedPtr t)
  | .reclaim => some (.reclaim t)
  | .enter => some (.enter t)
  | .publish => some (.publish t)
  | .deferFreePointer => some (.deferFreePointer t p)
  | .leave => some (.leave t)
  | .advanceGlobalEpoch => some .advanceGlobalEpoch
  | .done => none

/-- Where worker `t` is after its access, which led to `e`. -/
def next (t : Fin (n + 1)) (e : EpochSt (n + 1) Ptr) : RoundPc → RoundPc
  | .freeOutdatedPtr => .reclaim
  | .reclaim => if e.reclaim t = .idle then .enter else .reclaim
  | .enter => .publish
  | .publish => .deferFreePointer
  | .deferFreePointer => .leave
  | .leave => if t = 0 then .advanceGlobalEpoch else .done
  | .advanceGlobalEpoch => .done
  | .done => .done

end RoundPc

namespace RoundSt

variable {n : ℕ} {Ptr : Type}

def init : RoundSt n Ptr :=
  { epochs := .init, pc := fun _ => .freeOutdatedPtr, round := 0 }

def step (s : RoundSt n Ptr) : RoundAct n Ptr → Option (RoundSt n Ptr)
  | .work t p => do
      let a ← (s.pc t).act t (p, s.round)
      let epochs ← s.epochs.step a
      some { s with epochs := epochs, pc := Function.update s.pc t ((s.pc t).next t epochs) }
  | .barrier =>
      if ∀ t, s.pc t = .done then
        some { s with pc := fun _ => .freeOutdatedPtr, round := s.round + 1 }
      else none

/-- The entries of a limbo list: their epochs and the rounds they were deferred in. -/
def entries (s : RoundSt n Ptr) (t : Fin (n + 1)) : List (ℕ × ℕ) :=
  (s.epochs.handler.toFreePtr t).map fun e => (e.epoch, e.ptr.ptr.2)

/-- No limbo list has more than two entries, and what was freed was deferred in an earlier
round. -/
def Bounded (s : RoundSt n Ptr) : Prop :=
  (∀ t, (s.epochs.handler.toFreePtr t).length ≤ 2) ∧ ∀ d ∈ s.epochs.freed, d.ptr.2 < s.round

/-- Worker `0` defers no pointer while its slot is `MAX_VALUE`. -/
def DefersBelowMax (s : RoundSt n Ptr) : RoundAct n Ptr → Prop
  | .work t _ =>
      t = 0 → s.pc 0 = .deferFreePointer → s.epochs.handler.localEpoch 0 ≠ maxValue
  | .barrier => True

instance (s : RoundSt n Ptr) (a : RoundAct n Ptr) : Decidable (s.DefersBelowMax a) := by
  cases a <;> unfold DefersBelowMax <;> infer_instance

end RoundSt

/-! ## The invariant -/

/-- A limbo list at the start of round `r`. -/
structure Limbo (r : ℕ) (l : List (ℕ × ℕ)) : Prop where
  length : l.length ≤ 2
  epoch : ∀ e ∈ l, e.1 ≤ r
  old : ∀ e ∈ l.dropLast, e.1 < r
  round : ∀ e ∈ l, e.2 < r

/-- A limbo list between the reclamation and the deferral of round `r`. -/
structure Reclaimed (r : ℕ) (l : List (ℕ × ℕ)) : Prop where
  length : l.length ≤ 1
  epoch : ∀ e ∈ l, e.1 ≤ r
  round : ∀ e ∈ l, e.2 < r

lemma Limbo.nil (r : ℕ) : Limbo r [] := ⟨by simp, by simp, by simp, by simp⟩

/-- The deferral of round `r`, with the old epoch or the new one. -/
lemma Reclaimed.deferred {r tag : ℕ} {l : List (ℕ × ℕ)} (h : Reclaimed r l) (htag : tag ≤ r + 1) :
    Limbo (r + 1) (l ++ [(tag, r)]) where
  length := by
    have := h.length
    simp only [List.length_append, List.length_singleton]
    omega
  epoch := by
    intro e he
    rcases List.mem_append.mp he with he | he
    · exact (h.epoch e he).trans (Nat.le_succ r)
    · rw [List.mem_singleton.mp he]
      exact htag
  old := by
    intro e he
    rw [List.dropLast_concat] at he
    exact Nat.lt_succ_of_le (h.epoch e he)
  round := by
    intro e he
    rcases List.mem_append.mp he with he | he
    · exact (h.round e he).trans (Nat.lt_succ_self r)
    · rw [List.mem_singleton.mp he]
      exact Nat.lt_succ_self r

/-- The freeing loop stops at the last entry or behind it. -/
lemma Limbo.reclaimed {r m idx : ℕ} {l : List (ℕ × ℕ)} (h : Limbo r l) (hm : r ≤ m)
    (hstop : ∀ e ∈ l[idx]?, m ≤ e.1) : Reclaimed r (l.drop idx) where
  length := by
    by_contra hlt
    rw [List.length_drop] at hlt
    have hidx : idx < l.dropLast.length := by
      rw [List.length_dropLast]
      omega
    have hsome : l[idx]? = some l.dropLast[idx] := by
      rw [List.getElem?_eq_getElem (by rw [List.length_dropLast] at hidx; omega),
        List.getElem_dropLast]
    have hold := h.old _ (List.getElem_mem hidx)
    have := hstop _ hsome
    omega
  epoch := fun e he => h.epoch e (List.mem_of_mem_drop he)
  round := fun e he => h.round e (List.mem_of_mem_drop he)

namespace RoundSt

variable {n : ℕ} {Ptr : Type}

lemma round_of_work {s s' : RoundSt n Ptr} {t : Fin (n + 1)} {p : Ptr}
    (hstep : s.step (.work t p) = some s') : s'.round = s.round := by
  obtain ⟨a, -, hstep⟩ := Option.bind_eq_some_iff.mp hstep
  obtain ⟨epochs, -, hs'⟩ := Option.bind_eq_some_iff.mp hstep
  cases hs'
  rfl

lemma round_le {s s' : RoundSt n Ptr} {a : RoundAct n Ptr} (hstep : s.step a = some s') :
    s.round ≤ s'.round := by
  cases a with
  | work t p => exact (round_of_work hstep).ge
  | barrier =>
      simp only [step] at hstep
      split_ifs at hstep
      cases hstep
      exact Nat.le_succ _

/-- The minimum that a worker inside `FreeOutdatedPtr` has taken so far. -/
def ScanOk (r : ℕ) : ReclaimPc → Prop
  | .idle => True
  | .scanning _ m | .freeing m _ => r ≤ m

/-- What is known of a worker from where it is in its round. -/
def WorkerOk (s : RoundSt n Ptr) (t : Fin (n + 1)) : RoundPc → Prop
  | .freeOutdatedPtr => Limbo s.round (s.entries t)
  | .reclaim => Limbo s.round (s.entries t) ∧ ScanOk s.round (s.epochs.reclaim t)
  | .enter => Reclaimed s.round (s.entries t)
  | .publish => Reclaimed s.round (s.entries t) ∧ ∀ epoch, s.epochs.guard t = .entering epoch →
      s.round ≤ epoch ∧ epoch ≤ s.round + 1
  | .deferFreePointer => Reclaimed s.round (s.entries t) ∧
      s.epochs.handler.localEpoch t ≤ s.round + 1
  | .leave => Limbo (s.round + 1) (s.entries t)
  | .advanceGlobalEpoch => t = 0 ∧ Limbo (s.round + 1) (s.entries t) ∧
      s.epochs.handler.localEpoch t = maxValue
  | .done => Limbo (s.round + 1) (s.entries t) ∧ s.epochs.handler.localEpoch t = maxValue

/-- What is known of worker `0` besides: its epoch is the round. -/
def FirstOk (s : RoundSt n Ptr) : RoundPc → Prop
  | .publish => ∀ epoch, s.epochs.guard 0 = .entering epoch → epoch = s.round
  | .deferFreePointer => s.epochs.handler.localEpoch 0 = s.round
  | .leave | .advanceGlobalEpoch | .done => s.round < maxValue
  | _ => True

end RoundSt

structure RoundInv {n : ℕ} {Ptr : Type} (s : RoundSt n Ptr) : Prop where
  round : s.round ≤ maxValue
  global : s.epochs.handler.globalEpoch = s.round + if s.pc 0 = .done then 1 else 0
  slots : ∀ t, s.round ≤ s.epochs.handler.localEpoch t
  workers : ∀ t, s.WorkerOk t (s.pc t)
  first : s.FirstOk (s.pc 0)
  freed : ∀ d ∈ s.epochs.freed, d.ptr.2 < s.round

namespace RoundInv

variable {n : ℕ} {Ptr : Type} {s : RoundSt n Ptr} {t u : Fin (n + 1)}

lemma init : RoundInv (RoundSt.init : RoundSt n Ptr) where
  round := Nat.zero_le _
  global := rfl
  slots := fun _ => Nat.le_refl _
  workers := fun _ => .nil 0
  first := trivial
  freed := by
    intro d hd
    cases hd

/-- A worker whose slot, guard, list and progress are as they were. -/
lemma workerOk_frame {s' : RoundSt n Ptr} {pc : RoundPc} (h : s.WorkerOk u pc)
    (hround : s'.round = s.round) (hentries : s'.entries u = s.entries u)
    (hguard : s'.epochs.guard u = s.epochs.guard u)
    (hreclaim : s'.epochs.reclaim u = s.epochs.reclaim u)
    (hslot : s'.epochs.handler.localEpoch u = s.epochs.handler.localEpoch u) :
    s'.WorkerOk u pc := by
  cases pc <;> simpa only [RoundSt.WorkerOk, hround, hentries, hguard, hreclaim, hslot] using h

lemma firstOk_frame {s' : RoundSt n Ptr} {pc : RoundPc} (h : s.FirstOk pc)
    (hround : s'.round = s.round) (hguard : s'.epochs.guard 0 = s.epochs.guard 0)
    (hslot : s'.epochs.handler.localEpoch 0 = s.epochs.handler.localEpoch 0) : s'.FirstOk pc := by
  cases pc with
  | publish => exact fun epoch hepoch => (h epoch (hguard ▸ hepoch)).trans hround.symm
  | deferFreePointer => exact hslot.trans (h.trans hround.symm)
  | leave | advanceGlobalEpoch | done => exact hround.trans_lt h
  | _ => trivial

/-- An access of worker `t` that does not advance the global epoch. -/
lemma of_worker (h : RoundInv s) {epochs : EpochSt (n + 1) (Ptr × ℕ)} {pc : RoundPc}
    (hglobal : epochs.handler.globalEpoch = s.epochs.handler.globalEpoch)
    (hdone : t = 0 → (pc = .done ↔ s.pc 0 = .done))
    (hslot : s.round ≤ epochs.handler.localEpoch t)
    (hslots : ∀ u, u ≠ t → epochs.handler.localEpoch u = s.epochs.handler.localEpoch u)
    (hguard : ∀ u, u ≠ t → epochs.guard u = s.epochs.guard u)
    (hreclaim : ∀ u, u ≠ t → epochs.reclaim u = s.epochs.reclaim u)
    (hentries : ∀ u, u ≠ t →
      RoundSt.entries { s with epochs := epochs, pc := Function.update s.pc t pc } u = s.entries u)
    (hself : RoundSt.WorkerOk { s with epochs := epochs, pc := Function.update s.pc t pc } t pc)
    (hfirst : t = 0 →
      RoundSt.FirstOk { s with epochs := epochs, pc := Function.update s.pc t pc } pc)
    (hfreed : ∀ d ∈ epochs.freed, d.ptr.2 < s.round) :
    RoundInv { s with epochs := epochs, pc := Function.update s.pc t pc } where
  round := h.round
  global := by
    show epochs.handler.globalEpoch = s.round + if Function.update s.pc t pc 0 = .done then 1 else 0
    rw [hglobal, h.global]
    by_cases ht : t = 0
    · subst ht
      simp [hdone rfl]
    · rw [Function.update_of_ne (Ne.symm ht)]
  slots := by
    intro u
    by_cases hu : u = t
    · exact hu ▸ hslot
    · exact (h.slots u).trans_eq (hslots u hu).symm
  workers := by
    intro u
    by_cases hu : u = t
    · subst hu
      simpa using hself
    · have hok := h.workers u
      simp only [Function.update_of_ne hu]
      exact workerOk_frame hok rfl (hentries u hu) (hguard u hu) (hreclaim u hu) (hslots u hu)
  first := by
    by_cases ht : t = 0
    · subst ht
      simpa using hfirst rfl
    · have hok := h.first
      simp only [Function.update_of_ne (Ne.symm ht)]
      exact firstOk_frame hok rfl (hguard 0 (Ne.symm ht)) (hslots 0 (Ne.symm ht))
  freed := hfreed

/-- The call of `FreeOutdatedPtr`, a load of its scan, or a round of its loop: the worker stays
inside. -/
lemma reclaiming (h : RoundInv s) (hpc : s.pc t ≠ .done) (hlimbo : Limbo s.round (s.entries t))
    (pc : ReclaimPc) (hscan : RoundSt.ScanOk s.round pc)
    {freed : List (Pinned (n + 1) (Ptr × ℕ))} (hfreed : ∀ d ∈ freed, d.ptr.2 < s.round) :
    RoundInv { s with
      epochs := { s.epochs with
        reclaim := Function.update s.epochs.reclaim t pc, freed := freed }
      pc := Function.update s.pc t .reclaim } := by
  refine h.of_worker rfl ?_ (h.slots t) (fun _ _ => rfl) (fun _ _ => rfl)
    (fun u hu => Function.update_of_ne hu ..) (fun _ _ => rfl) ?_ (fun _ => trivial) hfreed
  · rintro rfl
    simp [hpc]
  · refine ⟨hlimbo, ?_⟩
    simpa using hscan

/-- The `erase` at the end of `FreeOutdatedPtr`. -/
lemma erased (h : RoundInv s) (hpc : s.pc t ≠ .done) (hlimbo : Limbo s.round (s.entries t))
    {m idx : ℕ} (hm : s.round ≤ m)
    (hstop : ∀ e ∈ (s.epochs.handler.toFreePtr t)[idx]?, m ≤ e.epoch) :
    RoundInv { s with
      epochs := { s.epochs with
        handler := s.epochs.handler.erasePrefix t idx
        reclaim := Function.update s.epochs.reclaim t .idle }
      pc := Function.update s.pc t .enter } := by
  refine h.of_worker rfl ?_ (h.slots t) (fun _ _ => rfl) (fun _ _ => rfl)
    (fun u hu => Function.update_of_ne hu ..) ?_ ?_ (fun _ => trivial) h.freed
  · rintro rfl
    simp [hpc]
  · intro u hu
    simp [RoundSt.entries, EpochHandler.erasePrefix, Function.update_of_ne hu]
  · have hstop' : ∀ e ∈ (s.entries t)[idx]?, m ≤ e.1 := by
      intro e he
      rw [RoundSt.entries, List.getElem?_map, Option.mem_def, Option.map_eq_some_iff] at he
      obtain ⟨e', he', rfl⟩ := he
      exact hstop e' he'
    have hreclaimed := hlimbo.reclaimed hm hstop'
    simpa [RoundSt.WorkerOk, RoundSt.entries, EpochHandler.erasePrefix] using hreclaimed

/-- The load of the constructor: worker `0` may have advanced the global epoch already. -/
lemma enter (h : RoundInv s) (hpc : s.pc t ≠ .done) (hok : Reclaimed s.round (s.entries t)) :
    RoundInv { s with
      epochs := { s.epochs with
        guard := Function.update s.epochs.guard t (.entering s.epochs.handler.globalEpoch) }
      pc := Function.update s.pc t .publish } := by
  refine h.of_worker rfl ?_ (h.slots t) (fun _ _ => rfl) (fun u hu => Function.update_of_ne hu ..)
    (fun _ _ => rfl) (fun _ _ => rfl) ?_ ?_ h.freed
  · rintro rfl
    simp [hpc]
  · refine ⟨hok, ?_⟩
    intro epoch hepoch
    simp only [Function.update_self, GuardPc.entering.injEq] at hepoch
    rw [← hepoch, h.global]
    show s.round ≤ _ ∧ _ ≤ s.round + 1
    split_ifs <;> omega
  · rintro rfl epoch hepoch
    simp only [Function.update_self, GuardPc.entering.injEq] at hepoch
    rw [← hepoch, h.global, if_neg hpc]
    rfl

/-- The store of the constructor. -/
lemma publish (h : RoundInv s) (hpc : s.pc t ≠ .done) (hok : Reclaimed s.round (s.entries t))
    {epoch : ℕ} (hle : s.round ≤ epoch) (hle' : epoch ≤ s.round + 1)
    (hfirst : t = 0 → epoch = s.round) :
    RoundInv { s with
      epochs := { s.epochs with
        handler := s.epochs.handler.publish t epoch
        guard := Function.update s.epochs.guard t .inside }
      pc := Function.update s.pc t .deferFreePointer } := by
  have hself : (s.epochs.handler.publish t epoch).localEpoch t = epoch := Function.update_self ..
  refine h.of_worker rfl ?_ (hle.trans_eq hself.symm) (fun u hu => Function.update_of_ne hu ..)
    (fun u hu => Function.update_of_ne hu ..) (fun _ _ => rfl) (fun _ _ => rfl) ?_ ?_ h.freed
  · rintro rfl
    simp [hpc]
  · exact ⟨hok, hself.trans_le hle'⟩
  · rintro rfl
    exact hself.trans (hfirst rfl)

lemma deferFreePointer (h : RoundInv s) (hpc : s.pc t = .deferFreePointer)
    (hbelow : t = 0 → s.epochs.handler.localEpoch 0 ≠ maxValue)
    (hok : Reclaimed s.round (s.entries t))
    (htag : s.epochs.handler.localEpoch t ≤ s.round + 1) (p : Ptr)
    (readers : Finset (Fin (n + 1))) :
    RoundInv { s with
      epochs := { s.epochs with
        handler := s.epochs.handler.deferFreePointer t ⟨(p, s.round), readers⟩ }
      pc := Function.update s.pc t .leave } := by
  refine h.of_worker rfl ?_ (h.slots t) (fun _ _ => rfl) (fun _ _ => rfl) (fun _ _ => rfl) ?_ ?_
    ?_ h.freed
  · rintro rfl
    simp [hpc]
  · intro u hu
    simp [RoundSt.entries, EpochHandler.deferFreePointer, Function.update_of_ne hu]
  · have hlimbo := hok.deferred htag
    simpa [RoundSt.WorkerOk, RoundSt.entries, EpochHandler.deferFreePointer] using hlimbo
  · rintro rfl
    have hslot := h.first
    rw [hpc] at hslot
    exact lt_of_le_of_ne h.round fun heq => hbelow rfl (hslot.trans heq)

/-- The destructor of the guard.  It unpins what others have deferred, and leaves the entries. -/
lemma leave (h : RoundInv s) (hpc : s.pc t = .leave)
    (hok : Limbo (s.round + 1) (s.entries t)) {pc : RoundPc}
    (hnext : pc = if t = 0 then .advanceGlobalEpoch else .done) :
    RoundInv { s with
      epochs := { s.epochs with
        handler := (s.epochs.handler.leave t).unpin t
        guard := Function.update s.epochs.guard t .outside }
      pc := Function.update s.pc t pc } := by
  have hself : ((s.epochs.handler.leave t).unpin t).localEpoch t = maxValue :=
    Function.update_self ..
  have hentries : ∀ u, RoundSt.entries { s with
      epochs := { s.epochs with
        handler := (s.epochs.handler.leave t).unpin t
        guard := Function.update s.epochs.guard t .outside }
      pc := Function.update s.pc t pc } u = s.entries u := by
    intro u
    simp [RoundSt.entries, EpochHandler.unpin, EpochHandler.leave, List.map_map,
      Function.comp_def]
  refine h.of_worker rfl ?_ (h.round.trans_eq hself.symm)
    (fun u hu => Function.update_of_ne hu ..) (fun u hu => Function.update_of_ne hu ..)
    (fun _ _ => rfl) (fun u _ => hentries u) ?_ ?_ h.freed
  · rintro rfl
    simp [hpc, hnext]
  · have hlimbo : Limbo (s.round + 1) (RoundSt.entries _ t) := (hentries t).symm ▸ hok
    rw [hnext]
    split_ifs with ht
    · exact ⟨ht, hlimbo, hself⟩
    · exact ⟨hlimbo, hself⟩
  · rintro rfl
    have hlt := h.first
    rw [hpc] at hlt
    rw [hnext, if_pos rfl]
    exact hlt

lemma advanceGlobalEpoch (h : RoundInv s) (hpc : s.pc 0 = .advanceGlobalEpoch)
    (hok : s.WorkerOk 0 .done) :
    RoundInv { s with
      epochs := { s.epochs with handler := s.epochs.handler.advanceGlobalEpoch }
      pc := Function.update s.pc 0 .done } where
  round := h.round
  global := by
    have hlt : s.round < maxValue := by simpa [RoundSt.FirstOk, hpc] using h.first
    show (s.epochs.handler.globalEpoch + 1) % 2 ^ 64 = _
    rw [h.global]
    simp only [hpc, reduceCtorEq, if_false, Function.update_self, if_true]
    rw [maxValue] at hlt
    omega
  slots := h.slots
  workers := by
    intro u
    by_cases hu : u = 0
    · subst hu
      simp only [Function.update_self]
      exact workerOk_frame hok rfl rfl rfl rfl rfl
    · simp only [Function.update_of_ne hu]
      exact workerOk_frame (h.workers u) rfl rfl rfl rfl rfl
  first := by
    have hlt := h.first
    rw [hpc] at hlt
    simp only [Function.update_self]
    exact hlt
  freed := h.freed

/-- Every access of a worker. -/
lemma work (h : RoundInv s) {p : Ptr} (hbelow : s.DefersBelowMax (.work t p))
    {s' : RoundSt n Ptr} (hstep : s.step (.work t p) = some s') : RoundInv s' := by
  obtain ⟨a, hact, hstep⟩ := Option.bind_eq_some_iff.mp hstep
  obtain ⟨epochs, hepochs, hs'⟩ := Option.bind_eq_some_iff.mp hstep
  have heffect := EpochSt.step_effect hepochs
  have hok := h.workers t
  cases hs'
  cases hpc : s.pc t with
  | freeOutdatedPtr =>
      rw [hpc] at hact hok
      cases hact
      cases heffect with
      | freeOutdatedPtr _ hidle =>
          exact h.reclaiming (by simp [hpc]) hok (.scanning 0 maxValue) h.round h.freed
  | reclaim =>
      rw [hpc] at hact hok
      cases hact
      obtain ⟨hlimbo, hscan⟩ := hok
      cases heffect with
      | scan _ i m hr hi =>
          rw [hr] at hscan
          simp only [RoundPc.next, Function.update_self, reduceCtorEq, if_false]
          exact h.reclaiming (by simp [hpc]) hlimbo (.scanning _ _)
            (Nat.le_min.mpr ⟨hscan, h.slots _⟩) h.freed
      | scanned _ i m hr hi =>
          rw [hr] at hscan
          simp only [RoundPc.next, Function.update_self, reduceCtorEq, if_false]
          exact h.reclaiming (by simp [hpc]) hlimbo (.freeing m 0) hscan h.freed
      | free _ m idx hr e he hold =>
          rw [hr] at hscan
          simp only [RoundPc.next, Function.update_self, reduceCtorEq, if_false]
          refine h.reclaiming (by simp [hpc]) hlimbo (.freeing m (idx + 1)) hscan ?_
          intro d hd
          rcases List.mem_cons.mp hd with rfl | hd
          · have hmem : (e.epoch, e.ptr.ptr.2) ∈ s.entries t :=
              List.mem_map_of_mem (List.mem_of_getElem? he)
            exact hlimbo.round _ hmem
          · exact h.freed d hd
      | erased _ m idx hr hstop =>
          rw [hr] at hscan
          simp only [RoundPc.next, Function.update_self, if_true]
          exact h.erased (by simp [hpc]) hlimbo hscan hstop
  | enter =>
      rw [hpc] at hact hok
      cases hact
      cases heffect with
      | enter _ hguard hidle => exact h.enter (by simp [hpc]) hok
  | publish =>
      rw [hpc] at hact hok
      cases hact
      cases heffect with
      | publish _ epoch hguard =>
          obtain ⟨hle, hle'⟩ := hok.2 epoch hguard
          refine h.publish (by simp [hpc]) hok.1 hle hle' ?_
          rintro rfl
          have hfirst := h.first
          rw [hpc] at hfirst
          exact hfirst epoch hguard
  | deferFreePointer =>
      rw [hpc] at hact hok
      cases hact
      cases heffect with
      | deferFreePointer _ _ hidle =>
          refine h.deferFreePointer hpc ?_ hok.1 hok.2 p _
          rintro rfl
          exact hbelow rfl hpc
  | leave =>
      rw [hpc] at hact hok
      cases hact
      cases heffect with
      | leave _ hguard hidle => exact h.leave hpc hok rfl
  | advanceGlobalEpoch =>
      rw [hpc] at hact hok
      cases hact
      cases heffect with
      | advanceGlobalEpoch =>
          obtain ⟨rfl, hdone⟩ := hok
          exact h.advanceGlobalEpoch hpc hdone
  | done =>
      rw [hpc] at hact
      cases hact

/-- The barrier: every worker is done, and the next round starts. -/
lemma barrier (h : RoundInv s) (hdone : ∀ t, s.pc t = .done) :
    RoundInv { s with pc := fun _ => .freeOutdatedPtr, round := s.round + 1 } := by
  have hok : ∀ t, s.WorkerOk t .done := fun t => hdone t ▸ h.workers t
  have hlt : s.round < maxValue := by simpa [RoundSt.FirstOk, hdone 0] using h.first
  refine ⟨hlt, ?_, ?_, fun t => (hok t).1, trivial,
    fun d hd => (h.freed d hd).trans (Nat.lt_succ_self _)⟩
  · show s.epochs.handler.globalEpoch = s.round + 1 + 0
    rw [h.global, if_pos (hdone 0)]
  · intro t
    exact hlt.trans_eq (hok t).2.symm

/-- **The step lemma.** -/
theorem step (h : RoundInv s) {a : RoundAct n Ptr} (hbelow : s.DefersBelowMax a)
    {s' : RoundSt n Ptr} (hstep : s.step a = some s') : RoundInv s' := by
  cases a with
  | work t p => exact h.work hbelow hstep
  | barrier =>
      simp only [RoundSt.step] at hstep
      split_ifs at hstep with hdone
      cases hstep
      exact h.barrier hdone

lemma bounded (h : RoundInv s) : s.Bounded := by
  refine ⟨?_, h.freed⟩
  intro t
  have hok := h.workers t
  have hlength : (s.entries t).length = (s.epochs.handler.toFreePtr t).length := List.length_map ..
  rw [← hlength]
  cases hpc : s.pc t <;> rw [hpc] at hok
  case freeOutdatedPtr | leave => exact hok.length
  case reclaim | done => exact hok.1.length
  case enter => exact hok.length.trans (Nat.le_succ 1)
  case publish | deferFreePointer => exact hok.1.length.trans (Nat.le_succ 1)
  case advanceGlobalEpoch => exact hok.2.1.length

/-- The first `2 ^ 64 - 1` rounds are not long enough for worker `0` to come to `MAX_VALUE`. -/
lemma defersBelowMax (h : RoundInv s) (hround : s.round < maxValue) (a : RoundAct n Ptr) :
    s.DefersBelowMax a := by
  cases a with
  | work t p =>
      rintro rfl hpc hmax
      have hslot := h.first
      rw [hpc] at hslot
      exact hround.ne (hslot.symm.trans hmax)
  | barrier => trivial

end RoundInv

/-- A run in the first `2 ^ 64 - 1` rounds. -/
lemma everyStep_defersBelowMax {n : ℕ} {Ptr : Type} {tr : List (RoundAct n Ptr)} {s : RoundSt n Ptr}
    (hround : s.round < maxValue) (hrun : run RoundSt.step RoundSt.init tr = some s) :
    EveryStep RoundSt.step RoundSt.DefersBelowMax RoundSt.init tr := by
  have hinv : s.round < maxValue →
      EveryStep RoundSt.step RoundSt.DefersBelowMax RoundSt.init tr ∧ RoundInv s := by
    refine run_invariant_of_trace (I := fun tr (s : RoundSt n Ptr) => s.round < maxValue →
      EveryStep RoundSt.step RoundSt.DefersBelowMax RoundSt.init tr ∧ RoundInv s)
      ?_ (fun _ => ⟨.nil, .init⟩) hrun
    intro tr s a s' hpre ih hstep hround
    have hround' := (RoundSt.round_le hstep).trans_lt hround
    obtain ⟨hok, hs⟩ := ih hround'
    have hbelow := hs.defersBelowMax hround' a
    exact ⟨(everyStep_snoc hpre).mpr ⟨hok, hbelow⟩, hs.step hbelow hstep⟩
  exact (hinv hround).1

/-- **Limbo lists stay bounded.**  For any number of workers, in every state of a run in which
worker `0` has deferred no pointer while its slot was `MAX_VALUE`, no limbo list has more than two
entries and nothing has been freed in the round it was deferred in. -/
theorem limbo_bounded {n : ℕ} {Ptr : Type} {tr : List (RoundAct n Ptr)} {s : RoundSt n Ptr}
    (hbelow : EveryStep RoundSt.step RoundSt.DefersBelowMax RoundSt.init tr)
    (hrun : run RoundSt.step RoundSt.init tr = some s) : s.Bounded :=
  (run_invariant_of_everyStep (I := RoundInv) (fun _ _ _ h hok hstep => h.step hok hstep) .init
    hbelow hrun).bounded

/-- Two workers.  In the first round worker `1` loads the global epoch after worker `0` has advanced
it; in the second, both free their first pointers, and worker `0` has deferred another one. -/
theorem limbo_bounded_two :
    ∃ s : RoundSt 1 ℕ, run RoundSt.step RoundSt.init
        (List.replicate 10 (.work 0 7) ++ List.replicate 9 (.work 1 8) ++ .barrier ::
          (List.replicate 11 (.work 0 7) ++ List.replicate 6 (.work 1 8))) = some s ∧
      s.entries 0 = [(1, 1)] ∧ s.entries 1 = [] ∧ s.Bounded := by
  have hrun : run RoundSt.step (RoundSt.init : RoundSt 1 ℕ)
      (List.replicate 10 (.work 0 7) ++ List.replicate 9 (.work 1 8) ++ .barrier ::
        (List.replicate 11 (.work 0 7) ++ List.replicate 6 (.work 1 8))) = some _ := rfl
  exact ⟨_, hrun, rfl, rfl, limbo_bounded (everyStep_defersBelowMax (by decide) hrun) hrun⟩

/-! ## One worker alone, past the largest epoch -/

namespace RoundSt

variable {n : ℕ} {Ptr : Type}

/-- A call of `FreeOutdatedPtr` that no other worker interferes with. -/
lemma repeats_reclaim {s : RoundSt n Ptr} {t : Fin (n + 1)} (p : Ptr)
    {epochs : EpochSt (n + 1) (Ptr × ℕ)} (hpc : s.pc t = .reclaim)
    (hbusy : s.epochs.reclaim t ≠ .idle) (hidle : epochs.reclaim t = .idle)
    (h : Repeats EpochSt.step (.reclaim t) s.epochs epochs) :
    Repeats step (.work t p) s { s with
      epochs := epochs, pc := Function.update s.pc t .enter } := by
  generalize hs : s.epochs = start at h
  induction h using Relation.ReflTransGen.head_induction_on generalizing s with
  | refl => exact absurd (hs ▸ hidle) hbusy
  | @head a c hstep hrest ih =>
      subst hs
      by_cases hc : c.reclaim t = .idle
      · -- no further step is enabled
        have hlast : c = epochs := by
          rcases hrest.cases_head with heq | ⟨d, hd, -⟩
          · exact heq
          · simp [EpochSt.step, EpochSt.reclaimStep, hc] at hd
        subst hlast
        refine .single ?_
        simp [step, hpc, RoundPc.act, RoundPc.next, hstep, hc]
      · have hstep' : s.step (.work t p) = some { s with
            epochs := c, pc := Function.update s.pc t .reclaim } := by
          simp [step, hpc, RoundPc.act, RoundPc.next, hstep, hc]
        refine .head hstep' ?_
        have hrest' := ih (s := { s with epochs := c, pc := Function.update s.pc t .reclaim })
          (Function.update_self ..) hc rfl
        simpa only [Function.update_idem] using hrest'

end RoundSt

/-- One worker, alone, at the start of a round: its limbo list holds the epochs `limbo`. -/
structure AloneAt (s : RoundSt 0 Unit) (limbo : List ℕ) : Prop where
  pc : s.pc 0 = .freeOutdatedPtr
  guard : s.epochs.guard 0 = .outside
  reclaim : s.epochs.reclaim 0 = .idle
  slot : s.epochs.handler.localEpoch 0 = maxValue ∨ limbo = []
  limbo : (s.epochs.handler.toFreePtr 0).map (·.epoch) = limbo

/-- What one worker does alone after its reclamation. -/
lemma alone_defers {s : RoundSt 0 Unit} (hpc : s.pc 0 = .enter)
    (hguard : s.epochs.guard 0 = .outside) (hidle : s.epochs.reclaim 0 = .idle) :
    ∃ s', run RoundSt.step s (List.replicate 5 (.work 0 ()) ++ [.barrier]) = some s' ∧
      s'.round = s.round + 1 ∧
      s'.epochs.handler.globalEpoch = (s.epochs.handler.globalEpoch + 1) % 2 ^ 64 ∧
      AloneAt s' ((s.epochs.handler.toFreePtr 0).map (·.epoch) ++
        [s.epochs.handler.globalEpoch]) := by
  simp only [List.replicate, List.cons_append, List.nil_append, run_cons]
  simp only [RoundSt.step, hpc, RoundPc.act, RoundPc.next, EpochSt.step, hguard, hidle,
    Option.bind_eq_bind, Option.bind_some, Function.update_self, Function.update_idem,
    and_self, if_true, Fin.isValue, run_nil]
  refine ⟨_, rfl, rfl, rfl, rfl, rfl, hidle, .inl ?_, ?_⟩
  · simp [EpochHandler.advanceGlobalEpoch, EpochHandler.unpin, EpochHandler.leave]
  · simp [EpochHandler.advanceGlobalEpoch, EpochHandler.unpin, EpochHandler.leave,
      EpochHandler.deferFreePointer, EpochHandler.publish]

/-- What `FreeOutdatedPtr` leaves to one worker alone. -/
lemma AloneAt.limboAfter {s : RoundSt 0 Unit} {limbo : List ℕ} (h : AloneAt s limbo) :
    ((s.epochs.handler.freeOutdatedPtr 0).2.toFreePtr 0).map (·.epoch) =
      limbo.dropWhile (· < maxValue) := by
  have hlimbo := h.limbo
  simp only [freeOutdatedPtr, Function.update_self, drop_outdatedCount]
  rcases h.slot with hslot | rfl
  · have hmin : s.epochs.handler.minEpoch = maxValue := by
      simp [minEpoch, List.finRange_succ, hslot]
    rw [hmin, ← hlimbo, List.dropWhile_map]
    rfl
  · rw [List.map_eq_nil_iff.mp hlimbo]
    rfl

/-- A round of one worker alone: it frees what is outdated and defers with the global epoch. -/
lemma AloneAt.exists_run {s : RoundSt 0 Unit} {limbo : List ℕ} (h : AloneAt s limbo) :
    ∃ tr s', run RoundSt.step s tr = some s' ∧ s'.round = s.round + 1 ∧
      s'.epochs.handler.globalEpoch = (s.epochs.handler.globalEpoch + 1) % 2 ^ 64 ∧
      AloneAt s' (limbo.dropWhile (· < maxValue) ++ [s.epochs.handler.globalEpoch]) := by
  set called : RoundSt 0 Unit := { s with
    epochs := { s.epochs with
      reclaim := Function.update s.epochs.reclaim 0 (.scanning 0 maxValue) }
    pc := Function.update s.pc 0 .reclaim } with hcalled
  have hcall : s.step (.work 0 ()) = some called := by
    simp [RoundSt.step, h.pc, RoundPc.act, RoundPc.next, EpochSt.step, h.guard, h.reclaim, hcalled]
  have hscan : called.epochs.reclaim 0 = .scanning 0 maxValue := by simp [hcalled]
  obtain ⟨freed, hfree⟩ := EpochSt.repeats_freeOutdatedPtr hscan
  have hrounds := RoundSt.repeats_reclaim () (by simp [hcalled]) (by simp [hscan])
    (by simp) hfree
  obtain ⟨k, hk⟩ := exists_run_of_repeats hrounds
  obtain ⟨s', hrun, hround, hglobal, hs'⟩ := alone_defers (s := { called with
    epochs := { called.epochs with
      handler := (called.epochs.handler.freeOutdatedPtr 0).2
      reclaim := Function.update called.epochs.reclaim 0 .idle
      freed := freed }
    pc := Function.update called.pc 0 .enter }) (by simp) h.guard (by simp)
  have hround' := run_cons_eq_some.mpr ⟨called, hcall, run_append_eq_some.mpr ⟨_, hk, hrun⟩⟩
  refine ⟨_, s', hround', hround, hglobal, ?_⟩
  rw [← h.limboAfter]
  exact hs'

/-- After `r` rounds alone, the one entry left is tagged with the last epoch. -/
lemma AloneAt.exists_run_init (r : ℕ) (hr : r < maxValue) :
    ∃ tr s, run RoundSt.step RoundSt.init tr = some s ∧ s.round = r + 1 ∧
      s.epochs.handler.globalEpoch = r + 1 ∧ AloneAt s [r] := by
  induction r with
  | zero =>
      have hinit : AloneAt RoundSt.init [] := ⟨rfl, rfl, rfl, .inr rfl, rfl⟩
      obtain ⟨tr, s, hrun, hround, hglobal, hs⟩ := hinit.exists_run
      exact ⟨tr, s, hrun, hround, hglobal, hs⟩
  | succ r ih =>
      obtain ⟨tr, s, hrun, hround, hglobal, hs⟩ := ih (by omega)
      obtain ⟨tr', s', hrun', hround', hglobal', hs'⟩ := hs.exists_run
      refine ⟨tr ++ tr', s', run_append_eq_some.mpr ⟨s, hrun, hrun'⟩, by omega, ?_, ?_⟩
      · rw [hglobal', hglobal]
        rw [maxValue] at hr
        omega
      · have hold : r < maxValue := by omega
        simpa [hglobal, hold] using hs'

/-- One worker alone.  In its round `2 ^ 64`, it defers with the tag `MAX_VALUE`; two rounds later
the list has three entries. -/
theorem limbo_unbounded_after_wrap :
    ∃ (tr : List (RoundAct 0 Unit)) (s : RoundSt 0 Unit),
      run RoundSt.step RoundSt.init tr = some s ∧ s.round = 2 ^ 64 + 2 ∧ ¬ s.Bounded := by
  obtain ⟨tr, s, hrun, hround, hglobal, hs⟩ :=
    AloneAt.exists_run_init (maxValue - 1) (by decide)
  obtain ⟨tr₁, s₁, hrun₁, hround₁, hglobal₁, hs₁⟩ := hs.exists_run
  obtain ⟨tr₂, s₂, hrun₂, hround₂, hglobal₂, hs₂⟩ := hs₁.exists_run
  obtain ⟨tr₃, s₃, hrun₃, hround₃, hglobal₃, hs₃⟩ := hs₂.exists_run
  refine ⟨tr ++ (tr₁ ++ (tr₂ ++ tr₃)), s₃, ?_, ?_, ?_⟩
  · simp [run_append, hrun, hrun₁, hrun₂, hrun₃]
  · rw [hround₃, hround₂, hround₁, hround]
    rfl
  · intro hbounded
    have hlimbo := congrArg List.length hs₃.limbo
    rw [hglobal₂, hglobal₁, hglobal] at hlimbo
    have hlength := hbounded.1 0
    rw [List.length_map] at hlimbo
    rw [hlimbo] at hlength
    revert hlength
    decide

end OptLock
