import OptimisticLocking.Sync.LockProtocol

/-!
# The version counter and the state byte

`NextVersionNewState` shifts the state byte out, adds one and ors the new state in.  At the
largest version the addition carries into bit 56.  `DowngradeLock` stores that very bit, so the
carry goes unnoticed; `UnlockExclusive` stores no bit there, so it leaves a reader that nobody is.
No operation takes that reader away again: `UnlockShared` and `UpgradeLock` are called by
readers, and while it is there `TryLockExclusive` fails.

* `ReleasesCleanly` — what a release of a word is for.
* `UnlockFits` — every step but the store of an `UnlockExclusive` at the largest version.
* `LockSt.Leaked` — nobody holds exclusively and the state byte counts one reader too many.
-/

namespace OptLock

open HybridLock Transition

/-- Both releases of the word `w` leave the state they announce and the next version. -/
def ReleasesCleanly (w : Word) : Prop :=
  lockState (unlockExclusive w) = unlocked ∧ lockState (downgradeLock w) = 1 ∧
    (version (unlockExclusive w)).toNat = ((version w).toNat + 1) % 2 ^ 56 ∧
    (version (downgradeLock w)).toNat = ((version w).toNat + 1) % 2 ^ 56

lemma releasesCleanly_iff (w : Word) : ReleasesCleanly w ↔ (version w).toNat + 1 < 2 ^ 56 := by
  have hunlock := version_nextVersionNewState w (n := unlocked) (.inl rfl)
  have hdowngrade := version_nextVersionNewState w (n := 1) (.inr rfl)
  constructor
  · rintro ⟨hfree, -⟩
    rw [lockState_unlockExclusive] at hfree
    by_contra hlarge
    rw [if_neg hlarge] at hfree
    exact absurd hfree (by decide)
  · intro hfits
    refine ⟨?_, lockState_downgradeLock w, hunlock, hdowngrade⟩
    rw [lockState_unlockExclusive, if_pos hfits]

/-- Every access that does not release an exclusive hold keeps the version, whatever the word and
whatever word the caller names. -/
lemma version_of_access (cur old : Word) (spurious : Bool) :
    version (tryLockExclusive cur old).2 = version cur ∧
      version (tryLockShared cur old).2 = version cur ∧
      version (upgradeLock spurious cur old).2 = version cur ∧
      version (unlockShared spurious cur old).2 = version cur := by
  refine ⟨?_, ?_, ?_, ?_⟩
  · rcases tryLockExclusive_cases cur old with hcas | ⟨-, hcas⟩ <;>
      simp [hcas, version_sameVersionNewState]
  · rcases tryLockShared_cases cur old with hcas | ⟨-, hcas⟩ <;>
      simp [hcas, version_sameVersionNewState]
  · rcases upgradeLock_cases spurious cur old with hcas | ⟨-, hcas⟩ <;>
      simp [hcas, version_sameVersionNewState]
  · rcases unlockShared_cases spurious cur old with hcas | ⟨-, hcas⟩ <;>
      simp [hcas, version_sameVersionNewState]

/-- A thread about to store at the end of `UnlockExclusive` loaded a version that is not the
largest. -/
def LockPc.UnlockFits (pc : LockPc) : Prop :=
  match pc with
  | .releaseStore .unlockExclusive old => (version old).toNat + 1 < 2 ^ 56
  | _ => True

instance : DecidablePred LockPc.UnlockFits
  | .releaseStore .unlockExclusive old =>
      inferInstanceAs (Decidable ((version old).toNat + 1 < 2 ^ 56))
  | .releaseStore .downgradeLock _ | .idle | .releaseLoad _ | .unlockSharedLoad
  | .unlockSharedCas _ | .aborted => .isTrue trivial

namespace LockSt

variable {Tid : Type}

/-- The step is not the store of an `UnlockExclusive` of the largest version. -/
def UnlockFits (s : LockSt Tid) : LockAct Tid → Prop
  | .resume t _ => (s.pc t).UnlockFits
  | _ => True

instance (s : LockSt Tid) : (a : LockAct Tid) → Decidable (s.UnlockFits a)
  | .resume t _ => inferInstanceAs (Decidable (s.pc t).UnlockFits)
  | .tryLockExclusive _ _ | .tryLockShared _ _ | .upgradeLock _ _ _ | .release _ _
  | .unlockShared _ => .isTrue trivial

/-- Nobody holds the lock exclusively and the state byte counts one reader more than there are. -/
def Leaked (s : LockSt Tid) : Prop :=
  s.exclusive = 0 ∧ (lockState s.stateAndVersion).toNat = s.shared.card + 1

end LockSt

namespace LockInv

variable {Tid : Type} {s s' : LockSt Tid}

lemma card_of_not_leaked (h : LockInv s) (hx : s.exclusive = 0) (hleak : ¬ s.Leaked) :
    (lockState s.stateAndVersion).toNat = s.shared.card := by
  rcases h.holders with ⟨⟨t, ht⟩, -⟩ | ⟨phantom, -, hword, -, hph, -⟩
  · rw [hx] at ht
    exact absurd ht.symm (Multiset.singleton_ne_zero t)
  · have hzero : phantom ≠ 1 := fun hone => hleak ⟨hx, hone ▸ hword⟩
    omega

/-- Without a holder the lock is free exactly when no reader has been leaked. -/
lemma lockState_eq_unlocked_iff (h : LockInv s) (hx : s.exclusive = 0) (hs : s.shared = 0) :
    lockState s.stateAndVersion = unlocked ↔ ¬ s.Leaked := by
  have hzero : unlocked.toNat = 0 := rfl
  constructor
  · rintro hfree ⟨-, hcount⟩
    rw [hfree, hzero] at hcount
    omega
  · intro hleak
    have hcard := h.card_of_not_leaked hx hleak
    rw [hs, Multiset.card_zero] at hcard
    exact BitVec.eq_of_toNat_eq hcard

variable [DecidableEq Tid]

/-- The word a release leaves is leaked exactly when it is the store of an `UnlockExclusive` at
the largest version. -/
lemma leaked_releaseStore (h : LockInv s) {t : Tid} {r : Release} {old : Word} (spurious : Bool)
    (hpc : s.pc t = .releaseStore r old)
    (hword : s'.stateAndVersion = r.stored old) (hx : s'.exclusive = s.exclusive.erase t)
    (hs : s'.shared = if r = .downgradeLock then t ::ₘ s.shared else s.shared) :
    s'.Leaked ↔ ¬ s.UnlockFits (.resume t spurious) := by
  have hok := h.pcs t
  rw [hpc] at hok
  obtain ⟨ht, rfl⟩ := hok
  obtain ⟨hexcl, hshared, -⟩ := h.heldExclusively_of_mem ht
  have hnone : s'.exclusive = 0 := by rw [hx, hexcl, Multiset.erase_singleton]
  cases r with
  | unlockExclusive =>
      have hfits : s.UnlockFits (.resume t spurious)
          ↔ (HybridLock.version s.stateAndVersion).toNat + 1 < 2 ^ 56 := by
        simp [LockSt.UnlockFits, hpc, LockPc.UnlockFits]
      have hcard : s'.shared.card = 0 := by simp [hs, hshared]
      have hstate : lockState s'.stateAndVersion
          = if (HybridLock.version s.stateAndVersion).toNat + 1 < 2 ^ 56 then unlocked else 1 := by
        rw [hword]
        exact lockState_unlockExclusive _
      rw [LockSt.Leaked, hfits, hcard, hstate]
      split_ifs with hlt
      · exact iff_of_false (fun hleaked => absurd hleaked.2 (by decide)) (not_not_intro hlt)
      · exact iff_of_true ⟨hnone, by decide⟩ hlt
  | downgradeLock =>
      have hfits : s.UnlockFits (.resume t spurious) := by
        simp [LockSt.UnlockFits, hpc, LockPc.UnlockFits]
      have hcard : s'.shared.card = 1 := by simp [hs, hshared]
      have hstate : lockState s'.stateAndVersion = 1 := by
        rw [hword]
        exact lockState_downgradeLock _
      rw [LockSt.Leaked, hcard, hstate]
      simp [hfits]

/-- **What a step does to the leak.**  A leaked reader stays; one appears only with the store of
an `UnlockExclusive` at the largest version. -/
lemma leaked_step (h : LockInv s) {a : LockAct Tid} (hstep : LockSt.clientStep s a = some s') :
    s'.Leaked ↔ s.Leaked ∨ ¬ s.UnlockFits a := by
  obtain ⟨hheld, hstep⟩ := restrict_eq_some.mp hstep
  cases LockSt.step_effect hstep with
  | refused a hret =>
      cases a with
      | resume t spurious => simp [LockSt.returned] at hret
      | _ => simp [LockSt.UnlockFits]
  | lockExclusive t old hpc hfree =>
      have hnot : ¬ s.Leaked := by
        rintro ⟨-, hcount⟩
        rw [hfree] at hcount
        exact absurd hcount (by simp [unlocked])
      simpa [LockSt.Leaked, LockSt.UnlockFits] using hnot
  | lockShared t old hpc hroom =>
      have hlt : (lockState s.stateAndVersion).toNat < 254 := hroom
      have hstate := (lockState_addReader (v := s.stateAndVersion) (by omega)).1
      simp only [LockSt.Leaked, LockSt.UnlockFits, hstate, Multiset.card_cons]
      simp
  | upgrade t old spurious hpc hone =>
      have hpos := Multiset.card_pos_iff_exists_mem.mpr ⟨t, hheld⟩
      have hnot : ¬ s.Leaked := by
        rintro ⟨-, hcount⟩
        rw [hone] at hcount
        have : (1 : Word).toNat = 1 := rfl
        omega
      simpa [LockSt.Leaked, LockSt.UnlockFits] using hnot
  | releaseCall t r hpc => simp [LockSt.Leaked, LockSt.UnlockFits]
  | releaseLoad t r spurious hpc =>
      simp [LockSt.Leaked, LockSt.UnlockFits, LockPc.UnlockFits, hpc]
  | releaseStore t r old spurious hpc =>
      have hok := h.pcs t
      rw [hpc] at hok
      have hnot : ¬ s.Leaked := fun hleak => by
        rw [LockSt.PcOk, hleak.1] at hok
        exact absurd hok.1 (Multiset.notMem_zero t)
      rw [h.leaked_releaseStore spurious hpc rfl rfl rfl]
      simp [hnot]
  | unlockSharedCall t hpc => simp [LockSt.Leaked, LockSt.UnlockFits]
  | unlockSharedLoad t spurious hpc =>
      simp [LockSt.Leaked, LockSt.UnlockFits, LockPc.UnlockFits, hpc]
  | unlockSharedRetry t old spurious hpc =>
      simp [LockSt.Leaked, LockSt.UnlockFits, LockPc.UnlockFits, hpc]
  | unlockSharedDone t spurious hpc =>
      have hfits : s.UnlockFits (.resume t spurious) := by
        simp [LockSt.UnlockFits, hpc, LockPc.UnlockFits]
      have hok := h.pcs t
      rw [hpc] at hok
      obtain ⟨ht, hlocked⟩ := hok
      have hpos := ((isSharedLocked_iff _).mp hlocked).1
      have hcard : (s.shared.erase t).card = s.shared.card - 1 := Multiset.card_erase_of_mem ht
      have hcount := Multiset.card_pos_iff_exists_mem.mpr ⟨t, ht⟩
      have hstate := (lockState_dropReader hpos).1
      simp only [LockSt.Leaked, hstate, hcard, hfits, not_true, or_false]
      refine and_congr_right fun _ => ?_
      omega

end LockInv

/-- **The run lemma.**  A run leaks a reader exactly when one of its `UnlockExclusive` calls
stores at the largest version. -/
lemma LockSt.leaked_iff {Tid : Type} [DecidableEq Tid] {tr : List (LockAct Tid)} {s : LockSt Tid}
    (hrun : run LockSt.clientStep LockSt.init tr = some s) :
    s.Leaked ↔ ¬ EveryStep LockSt.clientStep LockSt.UnlockFits LockSt.init tr := by
  refine run_invariant_of_trace (I := fun tr s => s.Leaked
    ↔ ¬ EveryStep LockSt.clientStep LockSt.UnlockFits LockSt.init tr) ?_ ?_ hrun
  · intro tr s a s' hpre ih hstep
    rw [(LockInv.init.run hpre).leaked_step hstep, ih, everyStep_snoc hpre, not_and_or]
  · simp [EveryStep.nil, LockSt.Leaked, LockSt.init, lockState_init, unlocked]

/-- **The version and the state byte.**  The two releases of a word do what they announce exactly
when the version is not the largest; after a run of disciplined callers a lock without holders can
be acquired exactly when no `UnlockExclusive` of the run stored at the largest version; no other
access moves the version. -/
theorem releases_clean_iff {Tid : Type} [DecidableEq Tid] :
    (∀ w, ReleasesCleanly w ↔ (version w).toNat + 1 < 2 ^ 56) ∧
    (∀ (tr : List (LockAct Tid)) (s : LockSt Tid),
      run LockSt.clientStep LockSt.init tr = some s → s.exclusive = 0 → s.shared = 0 →
        ((tryLockExclusive s.stateAndVersion s.stateAndVersion).1 = true
          ↔ EveryStep LockSt.clientStep LockSt.UnlockFits LockSt.init tr)) ∧
    (∀ cur old spurious, version (tryLockExclusive cur old).2 = version cur ∧
      version (tryLockShared cur old).2 = version cur ∧
      version (upgradeLock spurious cur old).2 = version cur ∧
      version (unlockShared spurious cur old).2 = version cur) := by
  refine ⟨releasesCleanly_iff, ?_, version_of_access⟩
  intro tr s hrun hx hs
  have hacquired : (tryLockExclusive s.stateAndVersion s.stateAndVersion).1 = true
      ↔ lockState s.stateAndVersion = unlocked := by
    rw [tryLockExclusive_self]
    split_ifs with hfree <;> simp [hfree]
  rw [hacquired, (LockInv.init.run hrun).lockState_eq_unlocked_iff hx hs, LockSt.leaked_iff hrun,
    not_not]

/-- The statement on one exclusive section of one thread. -/
theorem releases_clean_once :
    ∃ s : LockSt Unit,
      run LockSt.clientStep LockSt.init
        [.tryLockExclusive () HybridLock.init, .release () .unlockExclusive, .resume () false,
          .resume () false] = some s ∧
      (tryLockExclusive s.stateAndVersion s.stateAndVersion).1 = true := by
  have hrun : run LockSt.clientStep (LockSt.init : LockSt Unit)
      [.tryLockExclusive () HybridLock.init, .release () .unlockExclusive, .resume () false,
        .resume () false] = some _ := rfl
  exact ⟨_, hrun, (releases_clean_iff.2.1 _ _ hrun rfl rfl).mpr (by decide)⟩

/-- Held exclusively at the largest version: `UnlockExclusive` leaves one reader, and the lock
that nobody holds is not acquired. -/
theorem unlocked_into_reader :
    ∃ w, isExclusivelyLocked w = true ∧ (version w).toNat + 1 = 2 ^ 56 ∧
      lockState (unlockExclusive w) = 1 ∧ ¬ ReleasesCleanly w ∧
      (tryLockExclusive (unlockExclusive w) (unlockExclusive w)).1 = false := by
  have hstate : lockState (unlockExclusive (BitVec.allOnes 64)) = 1 := by decide
  refine ⟨BitVec.allOnes 64, by decide, by decide, hstate, ?_, by decide⟩
  rintro ⟨hfree, -⟩
  rw [hstate] at hfree
  exact absurd hfree (by decide)

end OptLock
