import OptimisticLocking.Sync.LockProtocol
import OptimisticLocking.Sync.Guard

/-!
# Optimistic validation

One OPTIMISTIC `HybridGuard` and the data its lock protects, while any number of threads work on
the lock.  The data is a family of cells that are read and written one at a time; a cell is
written only by a thread that holds the lock exclusively.

The steps of the guard are the load of one round of the spin loop of `OptimisticLock`, the reads of
its owner, and the load of `ValidateOptimisticLock`.

* `Untouched` — the invariant of a window without exclusive holds: since the snapshot nobody
  released, nobody holds, so nothing was written.
* `version_eq_iff` — while fewer than `2 ^ 56` releases have completed since the snapshot, the
  version is back at its value exactly if none has.
-/

namespace OptLock

open HybridLock Transition

/-- Where the guard is. -/
inductive GuardPhase
  /-- In the constructor, in the loop of `OptimisticLock`. -/
  | spinning
  /-- Constructed; `state_` holds the snapshot. -/
  | live
  /-- `ValidateOptimisticLock` returned. -/
  | returned
  /-- `ValidateOptimisticLock` threw a `RestartException`. -/
  | threw
  deriving DecidableEq, Repr

/-- The lock, its data, and the guard; `reads` is what the owner of the guard has read. -/
structure ValidationSt (Tid Cell Val : Type) where
  lock : LockSt Tid
  data : Cell → Val
  phase : GuardPhase
  state : Word
  reads : List (Cell × Val)

inductive ValidationAct (Tid Cell Val : Type)
  | lock (a : LockAct Tid)
  /-- Thread `t` writes a cell. -/
  | write (t : Tid) (c : Cell) (v : Val)
  /-- The load of one round of `OptimisticLock`. -/
  | optimisticLock
  /-- The owner of the guard reads a cell. -/
  | read (c : Cell)
  | validateOptimisticLock

namespace ValidationSt

variable {Tid Cell Val : Type} [DecidableEq Tid] [DecidableEq Cell]

def init (data : Cell → Val) : ValidationSt Tid Cell Val :=
  { lock := LockSt.init, data := data, phase := .spinning, state := 0, reads := [] }

def step (s : ValidationSt Tid Cell Val) :
    ValidationAct Tid Cell Val → Option (ValidationSt Tid Cell Val)
  | .lock a => (LockSt.clientStep s.lock a).map fun l => { s with lock := l }
  | .write t c v =>
      -- a thread inside a call does not write
      if t ∈ s.lock.exclusive ∧ s.lock.pc t = .idle then
        some { s with data := Function.update s.data c v }
      else none
  | .optimisticLock =>
      if s.phase = .spinning then
        let w := s.lock.stateAndVersion
        some { s with
          state := w, phase := if lockState w = HybridLock.exclusive then .spinning else .live }
      else none
  | .read c =>
      if s.phase = .live then some { s with reads := (c, s.data c) :: s.reads } else none
  | .validateOptimisticLock =>
      if s.phase = .live then
        some { s with phase :=
          if HybridGuard.mustRestart s.state s.lock.stateAndVersion then .threw else .returned }
      else none

/-- Nobody holds the lock exclusively. -/
def NoExclusive (s : ValidationSt Tid Cell Val) : Prop := s.lock.exclusive = 0

/-- The snapshot of a window: the state after the load that ended the spin loop. -/
structure Snapshot (s : ValidationSt Tid Cell Val) : Prop where
  lock : LockInv s.lock
  phase : s.phase = .live
  state : s.state = s.lock.stateAndVersion
  free : s.lock.exclusive = 0
  reads : s.reads = []

/-- What is known at a moment of the window that `s₁` opened, after the actions `tr`. -/
structure Window (s₁ : ValidationSt Tid Cell Val) (tr : List (ValidationAct Tid Cell Val))
    (s : ValidationSt Tid Cell Val) : Prop where
  lock : LockInv s.lock
  releases : s₁.lock.releases ≤ s.lock.releases
  phase : s.phase ≠ .spinning
  state : s.state = s₁.state
  /-- The history is free of exclusive holds exactly when there is none now and none ended. -/
  history : Throughout step NoExclusive s₁ tr ↔
    s.lock.releases = s₁.lock.releases ∧ s.lock.exclusive = 0
  /-- Then nothing was written, and everything read was read as it was. -/
  untouched : s.lock.releases = s₁.lock.releases → s.lock.exclusive = 0 →
    s.data = s₁.data ∧ ∀ x ∈ s.reads, x.2 = s₁.data x.1

lemma Window.start {s₁ : ValidationSt Tid Cell Val} (h : Snapshot s₁) : Window s₁ [] s₁ where
  lock := h.lock
  releases := Nat.le_refl _
  phase := by
    rw [h.phase]
    decide
  state := rfl
  history := by
    refine iff_of_true (fun pre post m hsplit hpre => ?_) ⟨rfl, h.free⟩
    obtain ⟨rfl, -⟩ := List.append_eq_nil_iff.mp hsplit.symm
    rw [run_nil, Option.some.injEq] at hpre
    exact hpre ▸ h.free
  untouched := fun _ _ => ⟨rfl, by simp [h.reads]⟩

variable {s₁ s s' : ValidationSt Tid Cell Val} {tr : List (ValidationAct Tid Cell Val)}

/-- A step that leaves the lock alone keeps the history. -/
lemma Window.history_of_lock_eq (h : Window s₁ tr s) {a : ValidationAct Tid Cell Val}
    (hrun : run step s₁ (tr ++ [a]) = some s') (hlock : s'.lock = s.lock) :
    Throughout step NoExclusive s₁ (tr ++ [a]) ↔
      s'.lock.releases = s₁.lock.releases ∧ s'.lock.exclusive = 0 := by
  rw [throughout_snoc hrun, h.history, NoExclusive, hlock]
  exact and_iff_left_of_imp And.right

/-- A step of a thread on the lock. -/
lemma Window.lockStep (h : Window s₁ tr s) {a : LockAct Tid} {l : LockSt Tid}
    (hrun : run step s₁ (tr ++ [.lock a]) = some { s with lock := l })
    (hstep : LockSt.clientStep s.lock a = some l) :
    Window s₁ (tr ++ [.lock a]) { s with lock := l } := by
  have hle := LockInv.releases_le hstep
  have hstart := h.releases
  -- back at the releases of the snapshot without an exclusive holder, there was none before
  have hback : l.releases = s₁.lock.releases → l.exclusive = 0 →
      s.lock.releases = s₁.lock.releases ∧ s.lock.exclusive = 0 := by
    intro hrel hx'
    refine ⟨by omega, ?_⟩
    by_contra hx
    have := LockInv.releases_of_exclusive_ne_zero hx hx' hstep
    omega
  exact {
    lock := h.lock.step hstep
    releases := hstart.trans hle
    phase := h.phase
    state := h.state
    history := by
      rw [throughout_snoc hrun, h.history]
      constructor
      · rintro ⟨⟨hrel, hx⟩, hx'⟩
        exact ⟨(h.lock.releases_of_exclusive_eq_zero hx hstep).trans hrel, hx'⟩
      · rintro ⟨hrel, hx'⟩
        exact ⟨hback hrel hx', hx'⟩
    untouched := fun hrel hx' => by
      obtain ⟨hrel, hx⟩ := hback hrel hx'
      exact h.untouched hrel hx }

theorem Window.step (h : Window s₁ tr s) {a : ValidationAct Tid Cell Val}
    (hprev : run step s₁ tr = some s) (hstep : step s a = some s') : Window s₁ (tr ++ [a]) s' := by
  have hrun : run ValidationSt.step s₁ (tr ++ [a]) = some s' :=
    run_snoc_eq_some.mpr ⟨s, hprev, hstep⟩
  cases a with
  | lock a =>
      simp only [ValidationSt.step, Option.map_eq_some_iff] at hstep
      obtain ⟨l, hl, rfl⟩ := hstep
      exact h.lockStep hrun hl
  | write t c v =>
      simp only [ValidationSt.step] at hstep
      split_ifs at hstep with hheld
      cases hstep
      refine ⟨h.lock, h.releases, h.phase, h.state, h.history_of_lock_eq hrun rfl, fun _ hx => ?_⟩
      -- the writer holds exclusively
      exact absurd (hx ▸ hheld.1) (Multiset.notMem_zero t)
  | optimisticLock =>
      simp only [ValidationSt.step] at hstep
      split_ifs at hstep with hphase <;> exact absurd hphase h.phase
  | read c =>
      simp only [ValidationSt.step] at hstep
      split_ifs at hstep with hphase
      cases hstep
      refine ⟨h.lock, h.releases, h.phase, h.state, h.history_of_lock_eq hrun rfl,
        fun hrel hx => ?_⟩
      obtain ⟨hdata, hreads⟩ := h.untouched hrel hx
      refine ⟨hdata, fun x hmem => ?_⟩
      rcases List.mem_cons.mp hmem with rfl | hmem
      · exact congrFun hdata c
      · exact hreads x hmem
  | validateOptimisticLock =>
      simp only [ValidationSt.step] at hstep
      split_ifs at hstep with hphase hrestart
      · cases hstep
        exact ⟨h.lock, h.releases, nofun, h.state, h.history_of_lock_eq hrun rfl, h.untouched⟩
      · cases hstep
        exact ⟨h.lock, h.releases, nofun, h.state, h.history_of_lock_eq hrun rfl, h.untouched⟩

/-- The run lemma of a window. -/
theorem Snapshot.window (h : Snapshot s₁) (hrun : run ValidationSt.step s₁ tr = some s) :
    Window s₁ tr s :=
  run_invariant_of_trace (I := Window s₁) (fun _ _ _ _ hprev hI hstep => hI.step hprev hstep)
    (Window.start h) hrun

/-- The invariant of the lock in every state of the system. -/
lemma lockInv {data : Cell → Val} (hrun : run ValidationSt.step (init data) tr = some s) :
    LockInv s.lock ∧ (s.phase = .spinning → s.reads = []) := by
  refine run_invariant (I := fun s : ValidationSt Tid Cell Val =>
    LockInv s.lock ∧ (s.phase = .spinning → s.reads = [])) ?_ ⟨LockInv.init, fun _ => rfl⟩ hrun
  rintro s a s' ⟨hlock, hreads⟩ hstep
  cases a with
  | lock a =>
      simp only [ValidationSt.step, Option.map_eq_some_iff] at hstep
      obtain ⟨l, hl, rfl⟩ := hstep
      exact ⟨hlock.step hl, hreads⟩
  | write t c v =>
      simp only [ValidationSt.step] at hstep
      split_ifs at hstep
      cases hstep
      exact ⟨hlock, hreads⟩
  | optimisticLock =>
      simp only [ValidationSt.step] at hstep
      split_ifs at hstep with hphase <;> cases hstep <;> exact ⟨hlock, fun _ => hreads hphase⟩
  | read c =>
      simp only [ValidationSt.step] at hstep
      split_ifs at hstep with hphase
      cases hstep
      exact ⟨hlock, fun hspin => absurd (hphase.symm.trans hspin) (by decide)⟩
  | validateOptimisticLock =>
      simp only [ValidationSt.step] at hstep
      split_ifs at hstep <;> cases hstep <;> exact ⟨hlock, nofun⟩

/-- The load that ends the spin loop opens a window. -/
lemma snapshot_of_optimisticLock {s₀ : ValidationSt Tid Cell Val} (hlock : LockInv s₀.lock)
    (hreads : s₀.phase = .spinning → s₀.reads = [])
    (hstep : ValidationSt.step s₀ .optimisticLock = some s₁) (hlive : s₁.phase = .live) :
    Snapshot s₁ := by
  simp only [ValidationSt.step] at hstep
  by_cases hphase : s₀.phase = .spinning
  · rw [if_pos hphase] at hstep
    cases hstep
    have hfree : lockState s₀.lock.stateAndVersion ≠ HybridLock.exclusive := by
      intro hx
      rw [if_pos hx] at hlive
      cases hlive
    exact ⟨hlock, hlive, rfl, hlock.exclusive_eq_zero_iff.mpr hfree, hreads hphase⟩
  · rw [if_neg hphase] at hstep
    cases hstep

/-- The version is back at its value exactly if no release has completed. -/
lemma Window.version_eq_iff (h : Window s₁ tr s) (h₁ : Snapshot s₁)
    (hfew : s.lock.releases - s₁.lock.releases < 2 ^ 56) :
    version s.lock.stateAndVersion = version s.state ↔
      s.lock.releases = s₁.lock.releases := by
  have hle := h.releases
  have hv := h.lock.version
  have hv₁ := h₁.lock.version
  rw [h.state, h₁.state]
  constructor
  · intro heq
    rw [heq, hv₁] at hv
    omega
  · intro hrel
    refine BitVec.eq_of_toNat_eq ?_
    rw [hv, hv₁, hrel]

/-- `ValidateOptimisticLock` at the end of a window, decided by the history. -/
lemma Window.mustRestart_iff (h : Window s₁ tr s) (h₁ : Snapshot s₁)
    (hfew : s.lock.releases - s₁.lock.releases < 2 ^ 56) :
    HybridGuard.mustRestart s.state s.lock.stateAndVersion = false ↔
      Throughout ValidationSt.step NoExclusive s₁ tr := by
  have hversion := h.version_eq_iff h₁ hfew
  have hx := h.lock.exclusive_eq_zero_iff
  rw [h.history, ← hversion, hx]
  simp [HybridGuard.mustRestart, and_comm]

end ValidationSt

/-- The actions by which a thread can come to hold the lock exclusively. -/
def ValidationAct.LocksExclusive {Tid Cell Val : Type} : ValidationAct Tid Cell Val → Prop
  | .lock (.tryLockExclusive _ _) => True
  | .lock (.upgradeLock _ _ _) => True
  | _ => False

namespace ValidationSt

variable {Tid Cell Val : Type} [DecidableEq Tid] [DecidableEq Cell]

/-- Shared traffic does not start an exclusive hold. -/
lemma noExclusive_step {s s' : ValidationSt Tid Cell Val} {a : ValidationAct Tid Cell Val}
    (hx : NoExclusive s) (ha : ¬ a.LocksExclusive) (hstep : ValidationSt.step s a = some s') :
    NoExclusive s' := by
  cases a with
  | lock a =>
      simp only [ValidationSt.step, Option.map_eq_some_iff] at hstep
      obtain ⟨l, hl, rfl⟩ := hstep
      show l.exclusive = 0
      cases LockSt.step_effect (restrict_eq_some.mp hl).2 with
      | lockExclusive t old hpc hfree => exact absurd trivial ha
      | upgrade t old spurious hpc hone => exact absurd trivial ha
      | releaseStore t r old spurious hpc =>
          rw [NoExclusive] at hx
          show s.lock.exclusive.erase t = 0
          rw [hx]
          rfl
      | _ => exact hx
  | write t c v =>
      simp only [ValidationSt.step] at hstep
      split_ifs at hstep
      cases hstep
      exact hx
  | optimisticLock =>
      simp only [ValidationSt.step] at hstep
      split_ifs at hstep <;> cases hstep <;> exact hx
  | read c =>
      simp only [ValidationSt.step] at hstep
      split_ifs at hstep
      cases hstep
      exact hx
  | validateOptimisticLock =>
      simp only [ValidationSt.step] at hstep
      split_ifs at hstep <;> cases hstep <;> exact hx

end ValidationSt

open ValidationSt in
/-- **Optimistic validation is exact.**  `s₀` is any reachable state, `s₁` the state after the
load that ends the spin loop, `s₂` the state in which `ValidateOptimisticLock` loads and `s₃` the
one it leaves.  It returns iff nobody held the lock exclusively at any moment of the window; so
it does when the window had shared traffic only; and when it returns, every read in the window
saw the data of the snapshot. -/
theorem validation_exact {Tid Cell Val : Type} [DecidableEq Tid] [DecidableEq Cell]
    {data : Cell → Val} {tr₀ tr : List (ValidationAct Tid Cell Val)}
    {s₀ s₁ s₂ s₃ : ValidationSt Tid Cell Val}
    (hreach : run ValidationSt.step (ValidationSt.init data) tr₀ = some s₀)
    (hload : ValidationSt.step s₀ .optimisticLock = some s₁) (hlive : s₁.phase = .live)
    (hrun : run ValidationSt.step s₁ tr = some s₂)
    (hvalidate : ValidationSt.step s₂ .validateOptimisticLock = some s₃)
    (hfew : s₂.lock.releases - s₁.lock.releases < 2 ^ 56) :
    (s₃.phase = .returned ↔ Throughout ValidationSt.step NoExclusive s₁ tr) ∧
    ((∀ a ∈ tr, ¬ a.LocksExclusive) → s₃.phase = .returned) ∧
    (s₃.phase = .returned → ∀ x ∈ s₃.reads, x.2 = s₁.data x.1) := by
  obtain ⟨hlock, hreads⟩ := lockInv hreach
  have hsnap := snapshot_of_optimisticLock hlock hreads hload hlive
  have hwin := hsnap.window hrun
  have hiff := hwin.mustRestart_iff hsnap hfew
  -- what the validation leaves
  simp only [ValidationSt.step] at hvalidate
  by_cases hphase : s₂.phase = .live
  swap
  · rw [if_neg hphase] at hvalidate
    cases hvalidate
  rw [if_pos hphase] at hvalidate
  cases hvalidate
  have hreturned : (if HybridGuard.mustRestart s₂.state s₂.lock.stateAndVersion = true
      then GuardPhase.threw else GuardPhase.returned) = .returned ↔
      Throughout ValidationSt.step NoExclusive s₁ tr := by
    rw [← hiff]
    cases HybridGuard.mustRestart s₂.state s₂.lock.stateAndVersion <;> simp
  refine ⟨hreturned, fun hshared => hreturned.mpr ?_, fun hret => ?_⟩
  · rintro pre post m rfl hpre
    have hsteps : EveryStep ValidationSt.step (fun _ a => ¬ a.LocksExclusive) s₁ pre :=
      everyStep_of_forall fun a ha => hshared a (List.mem_append_left post ha)
    exact run_invariant_of_everyStep (fun _ _ _ hx ha h => noExclusive_step hx ha h)
      hsnap.free hsteps hpre
  · obtain ⟨hrel, hx⟩ := hwin.history.mp (hreturned.mp hret)
    exact (hwin.untouched hrel hx).2

/-- A reader joins while the guard is live, and the guard returns with what it read. -/
theorem validation_exact_shared :
    ∃ s : ValidationSt Bool Unit ℕ, run ValidationSt.step (ValidationSt.init fun _ => 7)
        [.optimisticLock, .lock (.tryLockShared true HybridLock.init), .read (),
          .validateOptimisticLock] = some s ∧
      s.phase = .returned ∧ ∀ x ∈ s.reads, x.2 = 7 := by
  have hreach : run ValidationSt.step (ValidationSt.init fun _ => 7 : ValidationSt Bool Unit ℕ) []
      = some (ValidationSt.init fun _ => 7) := rfl
  obtain ⟨-, hshared, hreads⟩ := validation_exact hreach rfl rfl
    (show run ValidationSt.step _ [.lock (.tryLockShared true HybridLock.init), .read ()] = _
      from rfl) rfl (by decide)
  have hret := hshared (by simp [ValidationAct.LocksExclusive])
  exact ⟨_, rfl, hret, hreads hret⟩

end OptLock
