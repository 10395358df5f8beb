import OptimisticLocking.Sync.Epoch
import OptimisticLocking.Sync.Guard
import OptimisticLocking.Sync.VersionCarry

/-!
# A `RestartException` leaves a scope

The guards that one thread `me` has alive inside a `try` block form a stack.  An exception, thrown
by the destructor of a guard that fails its validation or by `HandleSegfault`, destroys the
guards of the stack from the innermost to the outermost.  A destructor that throws meanwhile ends
the process.

The destructors that run after a throw by `HandleSegfault` are those that the compiler has noted for
the access that faulted, which is not a call; what it notes there is a parameter.

* `UnwindTable` — this parameter.
* `ScopeSt.next` — the next access of the thread: what the destructor of the innermost guard does,
  one access of the lock word at a time, at the end of a block or during unwinding alike.
* `ScopeSt.step` — these accesses interleaved with those of disciplined other threads.
* `ScopeSt.Scoped` — a thread in a scope: the live guards own what their modes say.
* `UnwoundCleanly` — what unwinding is for.
* `ScopeSt.NextFits` — the accesses that do their part of it, and `UnwindTable.Complete` — the
  tables that do theirs.
* **`unwinding_clean_iff`** — unwinding is clean exactly when all of them do.
-/

namespace OptLock

open HybridLock Transition

/-- The `state_` of a guard.  `taken` is a ghost: the exclusive releases of the lock so far, when
the word was read. -/
structure GuardState where
  word : Word
  taken : ℕ
  deriving DecidableEq

/-- A guard object on the stack of a thread.  The slot of an `EpochGuard` is the one that
`thread_id` selects in its handler. -/
inductive LiveGuard (Lid Hid : Type)
  | hybrid (lock : Lid) (mode : GuardMode) (state : GuardState)
  | epoch (handler : Hid)
  deriving DecidableEq

/-- Which live guards are destroyed after a throw by `HandleSegfault`.  A compiler notes this for
the calls of a function; for an access of memory it may list some of the guards only, or have no
entry, and then the process ends (`none`).  So it does at a second fault, as `SIGSEGV` stays
blocked. -/
structure UnwindTable (Lid Hid : Type) where
  landed : List (LiveGuard Lid Hid) → Option (List (LiveGuard Lid Hid))
  sublist : ∀ scope rest, landed scope = some rest → rest.Sublist scope

/-- What the thread is doing with its scope. -/
inductive ScopeCtl
  | running
  /-- A `RestartException` is being propagated. -/
  | unwinding
  /-- The exception has reached the `catch`. -/
  | caught
  /-- `std::terminate` -/
  | terminated
  deriving DecidableEq, Repr

/-- A completed `Unlock`: the word it found and the word it left. -/
structure GuardRelease (Lid : Type) where
  lock : Lid
  mode : GuardMode
  found : Word
  left : Word
  deriving DecidableEq

/-- `log` is a ghost: the completed releases, latest first. -/
structure ScopeSt (Tid Lid Hid : Type) where
  lock : Lid → LockSt Tid
  localEpoch : Hid → ℕ
  /-- Innermost guard first. -/
  scope : List (LiveGuard Lid Hid)
  ctl : ScopeCtl
  log : List (GuardRelease Lid)

inductive ScopeAct (Tid Lid : Type)
  /-- An access of another thread. -/
  | other (l : Lid) (a : LockAct Tid)
  | handleSegfault
  | next (spurious : Bool)
  deriving DecidableEq

/-- The thread that takes the action. -/
def LockAct.thread {Tid : Type} : LockAct Tid → Tid
  | .tryLockExclusive t _ | .tryLockShared t _ | .upgradeLock t _ _ | .release t _
  | .unlockShared t | .resume t _ => t

/-- The call that `Unlock` makes. -/
def GuardMode.unlockCall {Tid : Type} (me : Tid) : GuardMode → Option (LockAct Tid)
  | .shared => some (.unlockShared me)
  | .exclusive => some (.release me .unlockExclusive)
  | _ => none

namespace ScopeSt

variable {Tid Lid Hid : Type} [DecidableEq Tid] [DecidableEq Lid] [DecidableEq Hid]

/-- `throw RestartException()`; a second exception during unwinding is the end. -/
def throwRestart (s : ScopeSt Tid Lid Hid) : ScopeSt Tid Lid Hid :=
  { s with ctl := if s.ctl = .running then .unwinding else .terminated }

/-- The next access of the call that releases lock `l`. -/
def unlock (me : Tid) (s : ScopeSt Tid Lid Hid) (l : Lid) (mode : GuardMode)
    (rest : List (LiveGuard Lid Hid)) (call : LockAct Tid) (spurious : Bool) :
    Option (ScopeSt Tid Lid Hid) :=
  let access := if (s.lock l).pc me = .idle then call else .resume me spurious
  ((s.lock l).step access).map fun m =>
    if m.pc me = .idle then
      { s with
        lock := Function.update s.lock l m
        scope := rest
        log := ⟨l, mode, (s.lock l).stateAndVersion, m.stateAndVersion⟩ :: s.log }
    else { s with lock := Function.update s.lock l m }

/-- The destructor of a `HybridGuard` that was innermost. -/
def destroyHybrid (me : Tid) (s : ScopeSt Tid Lid Hid) (l : Lid) (mode : GuardMode)
    (state : GuardState) (rest : List (LiveGuard Lid Hid)) (spurious : Bool) :
    Option (ScopeSt Tid Lid Hid) :=
  match mode with
  | .optimistic =>
      let latestState := (s.lock l).stateAndVersion
      if HybridGuard.mustRestart state.word latestState then
        some { s with scope := rest }.throwRestart
      else some { s with scope := rest }
  | mode =>
      match mode.unlockCall me with
      | some call => s.unlock me l mode rest call spurious
      | none => some { s with scope := rest }

/-- The next access of the thread. -/
def next (me : Tid) (s : ScopeSt Tid Lid Hid) (spurious : Bool) : Option (ScopeSt Tid Lid Hid) :=
  if s.ctl = .running ∨ s.ctl = .unwinding then
    match s.scope with
    | [] => if s.ctl = .unwinding then some { s with ctl := .caught } else none
    | .epoch h :: rest => some { s with
        localEpoch := Function.update s.localEpoch h EpochHandler.maxValue
        scope := rest }
    | .hybrid l mode state :: rest => s.destroyHybrid me l mode state rest spurious
  else none

/-- One access: of the thread, or of another one that keeps to the discipline of callers. -/
def step (table : UnwindTable Lid Hid) (me : Tid) (s : ScopeSt Tid Lid Hid) :
    ScopeAct Tid Lid → Option (ScopeSt Tid Lid Hid)
  | .other l a =>
      if a.thread ≠ me ∧ s.ctl ≠ .terminated then
        ((s.lock l).clientStep a).map fun m => { s with lock := Function.update s.lock l m }
      else none
  | .handleSegfault =>
      if s.ctl = .running then
        match table.landed s.scope with
        | some rest => some { s with scope := rest }.throwRestart
        | none => some { s with ctl := .terminated }
      else none
  | .next spurious => s.next me spurious

end ScopeSt

/-! ## What unwinding is for -/

/-- The lock and the mode of a guard whose destructor has a lock to release. -/
def LiveGuard.owned {Lid Hid : Type} : LiveGuard Lid Hid → Option (Lid × GuardMode)
  | .hybrid l .shared _ => some (l, .shared)
  | .hybrid l .exclusive _ => some (l, .exclusive)
  | _ => none

/-- How many holds of `mode` the thread has on the lock. -/
def LockSt.holds {Tid : Type} [DecidableEq Tid] (s : LockSt Tid) (me : Tid) : GuardMode → ℕ
  | .shared => s.shared.count me
  | .exclusive => s.exclusive.count me
  | _ => 0

/-- The release took the hold out of the word it found. -/
def GuardRelease.Freed {Lid : Type} (r : GuardRelease Lid) : Prop :=
  if r.mode = .exclusive then lockState r.left = unlocked
  else (lockState r.left).toNat + 1 = (lockState r.found).toNat

instance {Lid : Type} (r : GuardRelease Lid) : Decidable r.Freed := by
  unfold GuardRelease.Freed
  infer_instance

section

variable {Tid Lid Hid : Type} [DecidableEq Tid] [DecidableEq Lid]

/-- How many guards of the stack own lock `l` in `mode`. -/
def ownedCount (scope : List (LiveGuard Lid Hid)) (l : Lid) (mode : GuardMode) : ℕ :=
  (scope.filterMap LiveGuard.owned).count (l, mode)

/-- A thread in a scope, between two of its statements: the locks are in states that disciplined
threads reach, the thread is inside no call, and it holds what its guards own. -/
structure ScopeSt.Scoped (me : Tid) (s : ScopeSt Tid Lid Hid) : Prop where
  reached : ∀ l, ∃ tr, run LockSt.clientStep LockSt.init tr = some (s.lock l)
  idle : ∀ l, (s.lock l).pc me = .idle
  owned : ∀ l mode, ownedCount s.scope l mode ≤ (s.lock l).holds me mode
  /-- An optimistic guard has read the word of its lock while nobody held it exclusively. -/
  snapshots : ∀ l state, .hybrid l .optimistic state ∈ s.scope → ∃ m tr₀ tr,
    run LockSt.clientStep LockSt.init tr₀ = some m ∧ m.exclusive = 0 ∧
      state = ⟨m.stateAndVersion, m.releases⟩ ∧ run LockSt.clientStep m tr = some (s.lock l)
  running : s.ctl = .running
  log : s.log = []

/-- The guards that an exception thrown by the action leaves behind; a guard whose destructor throws
is gone. -/
def ScopeSt.stackAt (s : ScopeSt Tid Lid Hid) : ScopeAct Tid Lid → List (LiveGuard Lid Hid)
  | .next _ => s.scope.tail
  | _ => s.scope

/-- From `s`, where an exception starts in front of the guards `stack`, to `s'`: it has reached the
`catch`, every owned lock has been released, innermost first, and every `EpochGuard` has cleared its
slot. -/
structure UnwoundCleanly (me : Tid) (stack : List (LiveGuard Lid Hid))
    (s s' : ScopeSt Tid Lid Hid) : Prop where
  caught : s'.ctl = .caught
  released : s'.log.reverse.map (fun r => (r.lock, r.mode)) = stack.filterMap LiveGuard.owned
  freed : ∀ r ∈ s'.log, r.Freed
  holds : ∀ l mode, (s'.lock l).holds me mode + ownedCount stack l mode
    = (s.lock l).holds me mode
  slots : ∀ h, .epoch h ∈ stack → s'.localEpoch h = EpochHandler.maxValue

/-- Of the guards `stack`, those in `landed` are all that own a lock or have a slot to clear. -/
def Landed (landed stack : List (LiveGuard Lid Hid)) (localEpoch : Hid → ℕ) : Prop :=
  landed.filterMap LiveGuard.owned = stack.filterMap LiveGuard.owned ∧
    ∀ h, .epoch h ∈ stack → .epoch h ∈ landed ∨ localEpoch h = EpochHandler.maxValue

/-- The table lists for the fault every guard that owns a lock or has a slot to clear. -/
def UnwindTable.Complete (table : UnwindTable Lid Hid) (s : ScopeSt Tid Lid Hid) :
    ScopeAct Tid Lid → Prop
  | .handleSegfault => ∃ rest, table.landed s.scope = some rest ∧ Landed rest s.scope s.localEpoch
  | _ => True

/-- The next access of the destructor of a guard does its part.  Nobody holds the lock of an
optimistic guard exclusively, and the exclusive holds that ended since its snapshot are none, or a
multiple of `2 ^ 56`; an exclusive guard does not store at the largest version. -/
def LiveGuard.NextFits (me : Tid) (lock : Lid → LockSt Tid) : LiveGuard Lid Hid → Prop
  | .hybrid l .optimistic state =>
      (lock l).exclusive = 0 ∧ 2 ^ 56 ∣ (lock l).releases - state.taken
  | .hybrid l .exclusive _ => ((lock l).pc me).UnlockFits
  | _ => True

instance (me : Tid) (lock : Lid → LockSt Tid) :
    (g : LiveGuard Lid Hid) → Decidable (g.NextFits me lock)
  | .hybrid l .optimistic state =>
      inferInstanceAs (Decidable (_ ∧ 2 ^ 56 ∣ (lock l).releases - state.taken))
  | .hybrid l .exclusive _ => inferInstanceAs (Decidable ((lock l).pc me).UnlockFits)
  | .hybrid _ .shared _ | .hybrid _ .moved _ | .epoch _ => .isTrue trivial

/-- The access does its part of unwinding. -/
def ScopeSt.NextFits (me : Tid) (s : ScopeSt Tid Lid Hid) : ScopeAct Tid Lid → Prop
  | .next _ => s.scope.head?.all fun g => g.NextFits me s.lock
  | _ => True

instance (me : Tid) (s : ScopeSt Tid Lid Hid) (a : ScopeAct Tid Lid) :
    Decidable (s.NextFits me a) := by
  cases a <;> unfold ScopeSt.NextFits <;> infer_instance

omit [DecidableEq Lid] in
lemma ScopeSt.nextFits_nil {me : Tid} {s : ScopeSt Tid Lid Hid} (hscope : s.scope = [])
    (spurious : Bool) : s.NextFits me (.next spurious) := by
  simp [ScopeSt.NextFits, hscope]

omit [DecidableEq Lid] in
lemma ScopeSt.nextFits_cons {me : Tid} {s : ScopeSt Tid Lid Hid} {g : LiveGuard Lid Hid}
    {rest : List (LiveGuard Lid Hid)} (hscope : s.scope = g :: rest) (spurious : Bool) :
    s.NextFits me (.next spurious) ↔ g.NextFits me s.lock := by
  simp [ScopeSt.NextFits, hscope]

end

/-! ## One lock

What an access of another thread leaves alone, and what the accesses of `Unlock` do to the lock of
a guard that owns it.
-/

/-- Where a thread is inside the call that a guard of the given mode releases its lock with. -/
inductive Unlocking : GuardMode → LockPc → Prop
  | load : Unlocking .exclusive (.releaseLoad .unlockExclusive)
  | store (old : Word) : Unlocking .exclusive (.releaseStore .unlockExclusive old)
  | sharedLoad : Unlocking .shared .unlockSharedLoad
  | sharedCas (old : Word) : Unlocking .shared (.unlockSharedCas old)

/-- Everything one access of `Unlock` can do, one constructor per outcome. -/
inductive UnlockEffect {Tid : Type} [DecidableEq Tid] (me : Tid) (s : LockSt Tid) :
    GuardMode → LockSt Tid → Prop
  | inside (mode : GuardMode) (pc : LockPc) (hpc : Unlocking mode pc)
      (hfits : (s.pc me).UnlockFits) : UnlockEffect me s mode (s.setPc me pc)
  | unlockExclusive (hpc : s.pc me = .releaseStore .unlockExclusive s.stateAndVersion) :
      UnlockEffect me s .exclusive { s.setPc me .idle with
        stateAndVersion := HybridLock.unlockExclusive s.stateAndVersion
        exclusive := s.exclusive.erase me
        releases := s.releases + 1 }
  | unlockShared (hpos : 0 < (lockState s.stateAndVersion).toNat) :
      UnlockEffect me s .shared { s.setPc me .idle with
        stateAndVersion :=
          sameVersionNewState s.stateAndVersion (lockState s.stateAndVersion - 1)
        shared := s.shared.erase me }

lemma Unlocking.ne_idle {mode : GuardMode} {pc : LockPc} (h : Unlocking mode pc) : pc ≠ .idle := by
  cases h <;> exact nofun

namespace LockSt

variable {Tid : Type} [DecidableEq Tid] {s s' : LockSt Tid} {me : Tid}

/-- An access of another thread neither moves `me` inside a call nor touches its holds. -/
lemma clientStep_frame {a : LockAct Tid} (hne : a.thread ≠ me) (hstep : s.clientStep a = some s') :
    s'.pc me = s.pc me ∧ ∀ mode, s'.holds me mode = s.holds me mode := by
  have hcounts : s'.pc me = s.pc me ∧ s'.exclusive.count me = s.exclusive.count me ∧
      s'.shared.count me = s.shared.count me := by
    cases step_effect (restrict_eq_some.mp hstep).2 with
    | refused _ _ => exact ⟨rfl, rfl, rfl⟩
    | lockExclusive t old _ _ => exact ⟨rfl, Multiset.count_cons_of_ne hne.symm _, rfl⟩
    | lockShared t old _ _ => exact ⟨rfl, rfl, Multiset.count_cons_of_ne hne.symm _⟩
    | upgrade t old spurious _ _ =>
        exact ⟨rfl, Multiset.count_cons_of_ne hne.symm _, Multiset.count_erase_of_ne hne.symm _⟩
    | releaseStore t r old spurious _ =>
        refine ⟨Function.update_of_ne hne.symm .., Multiset.count_erase_of_ne hne.symm _, ?_⟩
        split_ifs with hdown
        · exact Multiset.count_cons_of_ne hne.symm _
        · rfl
    | unlockSharedDone t spurious _ =>
        exact ⟨Function.update_of_ne hne.symm .., rfl, Multiset.count_erase_of_ne hne.symm _⟩
    | _ => exact ⟨Function.update_of_ne hne.symm .., rfl, rfl⟩
  obtain ⟨hpc, hexcl, hshared⟩ := hcounts
  refine ⟨hpc, fun mode => ?_⟩
  cases mode with
  | shared => exact hshared
  | exclusive => exact hexcl
  | optimistic => rfl
  | moved => rfl

lemma held_of_unlockCall {mode : GuardMode} {call : LockAct Tid}
    (hcall : mode.unlockCall me = some call) (hholds : 0 < s.holds me mode) : s.Held call := by
  cases mode with
  | shared =>
      cases hcall
      exact Multiset.count_pos.mp hholds
  | exclusive =>
      cases hcall
      exact Multiset.count_pos.mp hholds
  | optimistic => cases hcall
  | moved => cases hcall

/-- **Inversion of one access of `Unlock`.** -/
lemma unlock_effect (hinv : LockInv s) {mode : GuardMode} {call : LockAct Tid} {spurious : Bool}
    (hcall : mode.unlockCall me = some call)
    (hpc : s.pc me = .idle ∨ Unlocking mode (s.pc me))
    (hstep : s.step (if s.pc me = .idle then call else .resume me spurious) = some s')
    (hholds : 0 < s.holds me mode) : UnlockEffect me s mode s' := by
  have hok := hinv.pcs me
  by_cases hidle : s.pc me = .idle
  · have hfits : (s.pc me).UnlockFits := by rw [hidle]; trivial
    rw [if_pos hidle] at hstep
    have hheld := held_of_unlockCall hcall hholds
    cases mode with
    | shared =>
        cases hcall
        cases step_effect hstep with
        | refused _ hret => simp [returned] at hret
        | unlockSharedCall _ _ => exact .inside _ _ .sharedLoad hfits
    | exclusive =>
        cases hcall
        cases step_effect hstep with
        | refused _ hret => simp [returned] at hret
        | releaseCall _ _ _ =>
            have hword := (hinv.heldExclusively_of_mem hheld).2.2
            rw [if_pos ((isExclusivelyLocked_iff _).mpr hword)]
            exact .inside _ _ .load hfits
    | optimistic => cases hcall
    | moved => cases hcall
  · rw [if_neg hidle] at hstep
    have hunlocking := hpc.resolve_left hidle
    generalize hnow : s.pc me = now at hunlocking hok
    cases step_effect hstep with
    | refused _ hret => simp [returned] at hret
    | releaseLoad _ r _ hat =>
        rw [hat] at hnow
        subst hnow
        cases hunlocking
        exact .inside _ _ (.store _) (by rw [hat]; trivial)
    | releaseStore _ r old _ hat =>
        rw [hat] at hnow
        subst hnow
        cases hunlocking
        obtain ⟨-, rfl⟩ := hok
        exact .unlockExclusive hat
    | unlockSharedLoad _ _ hat =>
        rw [hat] at hnow
        subst hnow
        cases hunlocking
        rw [if_pos (hinv.isSharedLocked hok)]
        exact .inside _ _ (.sharedCas _) (by rw [hat]; trivial)
    | unlockSharedRetry _ old _ hat =>
        rw [hat] at hnow
        subst hnow
        cases hunlocking
        exact .inside _ _ .sharedLoad (by rw [hat]; trivial)
    | unlockSharedDone _ _ hat =>
        rw [hat] at hnow
        subst hnow
        cases hunlocking
        exact .unlockShared ((isSharedLocked_iff _).mp hok.2).1

/-- An access inside `Unlock` keeps the holds of the thread; the last one gives up its own. -/
lemma holds_of_unlockEffect {mode : GuardMode} (h : UnlockEffect me s mode s')
    (hholds : 0 < s.holds me mode) :
    (s'.pc me ≠ .idle ∧ Unlocking mode (s'.pc me) ∧ (s.pc me).UnlockFits ∧
        ∀ mode', s'.holds me mode' = s.holds me mode') ∨
      (s'.pc me = .idle ∧
        ∀ mode', s'.holds me mode' + (if mode' = mode then 1 else 0) = s.holds me mode') := by
  cases h with
  | inside _ pc hpc hfits =>
      have hat : (s.setPc me pc).pc me = pc := Function.update_self ..
      rw [hat]
      refine .inl ⟨hpc.ne_idle, hpc, hfits, fun mode' => ?_⟩
      cases mode' <;> rfl
  | unlockExclusive hpc =>
      refine .inr ⟨Function.update_self .., fun mode' => ?_⟩
      have hcount := Multiset.count_erase_self me s.exclusive
      cases mode' with
      | exclusive =>
          simp only [holds] at hholds ⊢
          simp only [hcount, if_true]
          omega
      | _ => rfl
  | unlockShared hpos =>
      refine .inr ⟨Function.update_self .., fun mode' => ?_⟩
      have hcount := Multiset.count_erase_self me s.shared
      cases mode' with
      | shared =>
          simp only [holds] at hholds ⊢
          simp only [hcount, if_true]
          omega
      | _ => rfl

/-- What the last access of `Unlock` leaves in the word. -/
lemma freed_of_unlockEffect {Lid : Type} (Hid : Type) {mode : GuardMode}
    (lock : Lid → LockSt Tid) (l : Lid) (h : UnlockEffect me (lock l) mode s')
    (hidle : s'.pc me = .idle) (state : GuardState) :
    GuardRelease.Freed ⟨l, mode, (lock l).stateAndVersion, s'.stateAndVersion⟩
      ↔ (LiveGuard.hybrid l mode state : LiveGuard Lid Hid).NextFits me lock := by
  cases h with
  | inside _ pc hpc _ =>
      rw [setPc_pc, Function.update_self] at hidle
      exact absurd hidle hpc.ne_idle
  | unlockExclusive hpc =>
      have hfits : (LiveGuard.hybrid l .exclusive state : LiveGuard Lid Hid).NextFits me lock
          ↔ (version (lock l).stateAndVersion).toNat + 1 < 2 ^ 56 := by
        simp only [LiveGuard.NextFits, hpc, LockPc.UnlockFits]
      rw [hfits, GuardRelease.Freed, if_pos rfl]
      show lockState (HybridLock.unlockExclusive _) = unlocked ↔ _
      rw [lockState_unlockExclusive]
      split_ifs with hlt
      · exact iff_of_true rfl hlt
      · exact iff_of_false (by decide) hlt
  | unlockShared hpos =>
      have hstate := (lockState_dropReader hpos).1
      have hmode : GuardMode.shared ≠ .exclusive := by decide
      refine iff_of_true ?_ trivial
      rw [GuardRelease.Freed, if_neg hmode, hstate]
      exact Nat.sub_add_cancel hpos

/-- How many accesses `Unlock` still needs when nobody interferes. -/
def unlockRank (s : LockSt Tid) (me : Tid) : ℕ :=
  match s.pc me with
  | .idle => 4
  | .unlockSharedCas old => if old = s.stateAndVersion then 1 else 3
  | .releaseLoad _ | .unlockSharedLoad => 2
  | _ => 1

omit [DecidableEq Tid] in
lemma unlockRank_le (s : LockSt Tid) (me : Tid) : s.unlockRank me ≤ 4 := by
  unfold unlockRank
  cases s.pc me with
  | unlockSharedCas old => exact (ite_le_sup _ _ _).trans (by simp)
  | _ => simp

/-- Alone, `Unlock` is never stuck and comes to its end. -/
lemma exists_unlock (hinv : LockInv s) {mode : GuardMode} {call : LockAct Tid}
    (hcall : mode.unlockCall me = some call)
    (hpc : s.pc me = .idle ∨ Unlocking mode (s.pc me)) (hholds : 0 < s.holds me mode) :
    ∃ s', s.step (if s.pc me = .idle then call else .resume me false) = some s' ∧
      (s'.pc me = .idle ∨ s'.unlockRank me < s.unlockRank me) := by
  by_cases hidle : s.pc me = .idle
  · rw [if_pos hidle]
    have hheld := held_of_unlockCall hcall hholds
    cases mode with
    | shared =>
        cases hcall
        have hcalled : s.step (.unlockShared me) = some (s.setPc me .unlockSharedLoad) := by
          simp [step, hidle]
        exact ⟨_, hcalled, .inr (by simp [unlockRank, hidle])⟩
    | exclusive =>
        cases hcall
        have hword := (hinv.heldExclusively_of_mem hheld).2.2
        have hlocked := (isExclusivelyLocked_iff _).mpr hword
        have hcalled : s.step (.release me .unlockExclusive)
            = some (s.setPc me (.releaseLoad .unlockExclusive)) := by
          simp [step, hidle, hlocked]
        exact ⟨_, hcalled, .inr (by simp [unlockRank, hidle])⟩
    | optimistic => cases hcall
    | moved => cases hcall
  · rw [if_neg hidle]
    have hok := hinv.pcs me
    have hunlocking := hpc.resolve_left hidle
    generalize hnow : s.pc me = now at hunlocking hok
    cases hunlocking with
    | load =>
        have hloaded : s.step (.resume me false)
            = some (s.setPc me (.releaseStore .unlockExclusive s.stateAndVersion)) := by
          simp [step, resume, hnow]
        exact ⟨_, hloaded, .inr (by simp [unlockRank, hnow])⟩
    | store old =>
        have hstored : s.step (.resume me false) = some { s.setPc me .idle with
            stateAndVersion := Release.unlockExclusive.stored old
            exclusive := s.exclusive.erase me
            releases := s.releases + 1 } := by
          simp [step, resume, hnow]
        exact ⟨_, hstored, .inl (Function.update_self ..)⟩
    | sharedLoad =>
        have hlocked := hinv.isSharedLocked hok
        have hloaded : s.step (.resume me false)
            = some (s.setPc me (.unlockSharedCas s.stateAndVersion)) := by
          simp [step, resume, hnow, hlocked]
        exact ⟨_, hloaded, .inr (by simp [unlockRank, hnow])⟩
    | sharedCas old =>
        by_cases hsame : s.stateAndVersion = old
        · subst hsame
          have hdropped : s.step (.resume me false) = some { s.setPc me .idle with
              stateAndVersion :=
                sameVersionNewState s.stateAndVersion (lockState s.stateAndVersion - 1)
              shared := s.shared.erase me } := by
            simp [step, resume, hnow, unlockShared_self]
          exact ⟨_, hdropped, .inl (Function.update_self ..)⟩
        · rcases unlockShared_cases false s.stateAndVersion old with hcas | ⟨heq, -⟩
          · have hagain : s.step (.resume me false) = some (s.setPc me .unlockSharedLoad) := by
              simp [step, resume, hnow, hcas, setPc]
            exact ⟨_, hagain, .inr (by simp [unlockRank, hnow, Ne.symm hsame])⟩
          · exact absurd heq hsame

end LockSt

/-! ## The invariant of unwinding

`s₁` is the state in which the exception starts.
-/

variable {Tid Lid Hid : Type} [DecidableEq Tid] [DecidableEq Lid]

structure UnwindInv (me : Tid) (s₁ s : ScopeSt Tid Lid Hid) : Prop where
  locks : ∀ l, LockInv (s.lock l)
  started : s.ctl ≠ .running
  caught : s.ctl = .caught → s.scope = []
  stack : ∃ done, s₁.scope = done ++ s.scope ∧
    s.log.reverse.map (fun r => (r.lock, r.mode)) = done.filterMap LiveGuard.owned ∧
    ∀ h, (.epoch h ∈ done → s.localEpoch h = EpochHandler.maxValue) ∧
      (.epoch h ∉ done → s.localEpoch h = s₁.localEpoch h)
  owned : ∀ l mode, ownedCount s₁.scope l mode ≤ (s₁.lock l).holds me mode
  holds : ∀ l mode, (s.lock l).holds me mode + ownedCount s₁.scope l mode
    = (s₁.lock l).holds me mode + ownedCount s.scope l mode
  pcs : ∀ l, (s.lock l).pc me = .idle ∨
    ∃ mode state rest, s.scope = .hybrid l mode state :: rest ∧ Unlocking mode ((s.lock l).pc me)
  snapshots : ∀ l state, .hybrid l .optimistic state ∈ s.scope →
    (version state.word).toNat = state.taken % 2 ^ 56 ∧ state.taken ≤ (s.lock l).releases

omit [DecidableEq Tid] in
/-- The validation of an optimistic guard, said through what was done since its snapshot. -/
lemma mustRestart_iff {s : LockSt Tid} (hinv : LockInv s) {state : GuardState}
    (hword : (version state.word).toNat = state.taken % 2 ^ 56)
    (hle : state.taken ≤ s.releases) :
    HybridGuard.mustRestart state.word s.stateAndVersion = false ↔
      s.exclusive = 0 ∧ 2 ^ 56 ∣ s.releases - state.taken := by
  have hversion : version s.stateAndVersion = version state.word ↔
      2 ^ 56 ∣ s.releases - state.taken := by
    rw [← BitVec.toNat_inj, hinv.version, hword]
    omega
  rw [hinv.exclusive_eq_zero_iff, ← hversion]
  simp [HybridGuard.mustRestart]

omit [DecidableEq Lid] in
lemma Unlocking.owned {mode : GuardMode} {pc : LockPc} (h : Unlocking mode pc) (l : Lid)
    (state : GuardState) :
    (LiveGuard.hybrid l mode state : LiveGuard Lid Hid).owned = some (l, mode) := by
  cases h <;> rfl

omit [DecidableEq Tid] [DecidableEq Lid] in
lemma owned_of_unlockCall {me : Tid} {mode : GuardMode} {call : LockAct Tid}
    (hcall : mode.unlockCall me = some call) (l : Lid) (state : GuardState) :
    (LiveGuard.hybrid l mode state : LiveGuard Lid Hid).owned = some (l, mode) := by
  cases mode with
  | shared => rfl
  | exclusive => rfl
  | optimistic => cases hcall
  | moved => cases hcall

lemma ownedCount_cons_of_none {g : LiveGuard Lid Hid} (hnone : g.owned = none)
    (rest : List (LiveGuard Lid Hid)) (l : Lid) (mode : GuardMode) :
    ownedCount (g :: rest) l mode = ownedCount rest l mode := by
  rw [ownedCount, List.filterMap_cons_none hnone, ownedCount]

lemma ownedCount_cons_of_some {g : LiveGuard Lid Hid} {l₀ : Lid} {mode₀ : GuardMode}
    (hsome : g.owned = some (l₀, mode₀)) (rest : List (LiveGuard Lid Hid)) (l : Lid)
    (mode : GuardMode) : ownedCount (g :: rest) l mode
      = ownedCount rest l mode + if l = l₀ ∧ mode = mode₀ then 1 else 0 := by
  have hkey : ((l₀, mode₀) == (l, mode)) = true ↔ l = l₀ ∧ mode = mode₀ := by
    rw [beq_iff_eq, eq_comm, Prod.mk.injEq]
  rw [ownedCount, List.filterMap_cons_some hsome, List.count_cons, ownedCount,
    if_congr hkey rfl rfl]

namespace UnwindInv

variable {me : Tid} {s₁ s : ScopeSt Tid Lid Hid}

lemma enough (hinv : UnwindInv me s₁ s) (l : Lid) (mode : GuardMode) :
    ownedCount s.scope l mode ≤ (s.lock l).holds me mode := by
  have howned := hinv.owned l mode
  have hholds := hinv.holds l mode
  omega

/-- The owner of the innermost guard holds its lock. -/
lemma holds_pos (hinv : UnwindInv me s₁ s) {l : Lid} {mode : GuardMode} {state : GuardState}
    {rest : List (LiveGuard Lid Hid)} (hscope : s.scope = .hybrid l mode state :: rest)
    (howned : (LiveGuard.hybrid l mode state : LiveGuard Lid Hid).owned = some (l, mode)) :
    0 < (s.lock l).holds me mode := by
  have henough := hinv.enough l mode
  have hcount : 0 < ownedCount s.scope l mode := by
    rw [hscope, ownedCount_cons_of_some howned, if_pos ⟨rfl, rfl⟩]
    exact Nat.succ_pos _
  omega

/-- A guard that owns nothing has been destroyed. -/
lemma pop (hinv : UnwindInv me s₁ s) {g : LiveGuard Lid Hid} {rest : List (LiveGuard Lid Hid)}
    (hscope : s.scope = g :: rest) (hnone : g.owned = none) {localEpoch : Hid → ℕ}
    {ctl : ScopeCtl} (hctl : ctl = .unwinding ∨ ctl = .terminated)
    (hslots : ∀ h, (g = .epoch h → localEpoch h = EpochHandler.maxValue) ∧
      (g ≠ .epoch h → localEpoch h = s.localEpoch h)) :
    UnwindInv me s₁ { s with
      localEpoch := localEpoch
      scope := rest
      ctl := ctl } where
  locks := hinv.locks
  started := by rcases hctl with rfl | rfl <;> exact nofun
  caught := fun hcaught => by rcases hctl with rfl | rfl <;> cases hcaught
  stack := by
    obtain ⟨done, hsplit, hlog, hdone⟩ := hinv.stack
    refine ⟨done ++ [g], ?_, ?_, fun h => ?_⟩
    · rw [hsplit, hscope, List.append_assoc, List.singleton_append]
    · rw [List.filterMap_append, List.filterMap_cons_none hnone, List.filterMap_nil,
        List.append_nil]
      exact hlog
    · rw [List.mem_append, List.mem_singleton]
      by_cases hg : g = .epoch h
      · exact ⟨fun _ => (hslots h).1 hg, fun hnot => absurd (.inr hg.symm) hnot⟩
      · rw [or_iff_left (Ne.symm hg)]
        have hsame : localEpoch h = s.localEpoch h := (hslots h).2 hg
        simpa only [hsame] using hdone h
  owned := hinv.owned
  holds := fun l mode => by
    have hholds := hinv.holds l mode
    rw [hscope, ownedCount_cons_of_none hnone] at hholds
    exact hholds
  pcs := fun l => by
    rcases hinv.pcs l with hidle | ⟨mode, state, rest', hscope', hunlocking⟩
    · exact .inl hidle
    · rw [hscope] at hscope'
      obtain ⟨rfl, -⟩ := List.cons.inj hscope'
      rw [hunlocking.owned] at hnone
      cases hnone
  snapshots := fun l state hmem =>
    hinv.snapshots l state (hscope ▸ List.mem_cons_of_mem g hmem)

/-- A lock is as it was, or has taken another step. -/
lemma locks_update (hinv : UnwindInv me s₁ s) {l : Lid} {m : LockSt Tid} (hlock : LockInv m)
    (l' : Lid) : LockInv (Function.update s.lock l m l') := by
  by_cases hl : l' = l
  · subst hl
    simpa using hlock
  · simpa [hl] using hinv.locks l'

lemma snapshots_update (hinv : UnwindInv me s₁ s) {l : Lid} {m : LockSt Tid}
    (hreleases : (s.lock l).releases ≤ m.releases) {l' : Lid} {state : GuardState}
    (hmem : .hybrid l' .optimistic state ∈ s.scope) :
    (version state.word).toNat = state.taken % 2 ^ 56 ∧
      state.taken ≤ (Function.update s.lock l m l').releases := by
  obtain ⟨hword, hle⟩ := hinv.snapshots l' state hmem
  refine ⟨hword, ?_⟩
  by_cases hl : l' = l
  · subst hl
    simpa using hle.trans hreleases
  · simpa [hl] using hle

/-- An access of a lock that leaves the holds of the thread as they are. -/
lemma setLock (hinv : UnwindInv me s₁ s) {l : Lid} {m : LockSt Tid} (hlock : LockInv m)
    (hholds : ∀ mode, m.holds me mode = (s.lock l).holds me mode)
    (hreleases : (s.lock l).releases ≤ m.releases)
    (hpc : m.pc me = .idle ∨
      ∃ mode state rest, s.scope = .hybrid l mode state :: rest ∧ Unlocking mode (m.pc me)) :
    UnwindInv me s₁ { s with lock := Function.update s.lock l m } where
  locks := hinv.locks_update hlock
  started := hinv.started
  caught := hinv.caught
  stack := hinv.stack
  owned := hinv.owned
  holds := fun l' mode => by
    have hbefore := hinv.holds l' mode
    by_cases hl : l' = l
    · subst hl
      rw [← hholds mode] at hbefore
      simpa using hbefore
    · simpa [hl] using hbefore
  pcs := fun l' => by
    by_cases hl : l' = l
    · subst hl
      simpa using hpc
    · simpa [hl] using hinv.pcs l'
  snapshots := fun _ _ hmem => hinv.snapshots_update hreleases hmem

/-- The innermost guard has released its lock. -/
lemma release (hinv : UnwindInv me s₁ s) {l : Lid} {mode : GuardMode} {state : GuardState}
    {rest : List (LiveGuard Lid Hid)} (hscope : s.scope = .hybrid l mode state :: rest)
    (howned : (LiveGuard.hybrid l mode state : LiveGuard Lid Hid).owned = some (l, mode))
    (hctl : s.ctl = .unwinding) {m : LockSt Tid} (hlock : LockInv m)
    (hreleases : (s.lock l).releases ≤ m.releases) (hidle : m.pc me = .idle)
    (hholds : ∀ mode', m.holds me mode' + (if mode' = mode then 1 else 0)
      = (s.lock l).holds me mode') (found left : Word) :
    UnwindInv me s₁ { s with
      lock := Function.update s.lock l m
      scope := rest
      log := ⟨l, mode, found, left⟩ :: s.log } where
  locks := hinv.locks_update hlock
  started := hinv.started
  caught := fun hcaught => by
    rw [hctl] at hcaught
    cases hcaught
  stack := by
    obtain ⟨done, hsplit, hlog, hdone⟩ := hinv.stack
    refine ⟨done ++ [.hybrid l mode state], ?_, ?_, fun h => ?_⟩
    · rw [hsplit, hscope, List.append_assoc, List.singleton_append]
    · rw [List.filterMap_append, List.filterMap_cons_some howned, List.filterMap_nil,
        List.reverse_cons, List.map_append, hlog]
      rfl
    · simpa using hdone h
  owned := hinv.owned
  holds := fun l' mode' => by
    have hbefore := hinv.holds l' mode'
    rw [hscope, ownedCount_cons_of_some howned] at hbefore
    by_cases hl : l' = l
    · subst hl
      have hdrop := hholds mode'
      rw [← hdrop] at hbefore
      by_cases hmode : mode' = mode
      · simp only [hmode, and_self, if_true] at hbefore
        simp only [hmode, Function.update_self]
        omega
      · simpa [hmode] using hbefore
    · simpa [hl] using hbefore
  pcs := fun l' => by
    by_cases hl : l' = l
    · subst hl
      exact .inl (by simpa using hidle)
    · rcases hinv.pcs l' with hidle' | ⟨mode', state', rest', hscope', -⟩
      · exact .inl (by simpa [hl] using hidle')
      · rw [hscope] at hscope'
        cases hscope'
        exact absurd rfl hl
  snapshots := fun _ _ hmem =>
    hinv.snapshots_update hreleases (hscope ▸ List.mem_cons_of_mem _ hmem)

end UnwindInv

/-! ## What an access of the thread can do -/

variable [DecidableEq Hid]

/-- Everything the next access of the thread can do, one constructor per outcome. -/
inductive NextEffect (me : Tid) (s : ScopeSt Tid Lid Hid) (spurious : Bool) :
    ScopeSt Tid Lid Hid → Prop
  | caught (hscope : s.scope = []) (hctl : s.ctl = .unwinding) :
      NextEffect me s spurious { s with ctl := .caught }
  | epochEnd (h : Hid) (rest : List (LiveGuard Lid Hid)) (hscope : s.scope = .epoch h :: rest) :
      NextEffect me s spurious { s with
        localEpoch := Function.update s.localEpoch h EpochHandler.maxValue
        scope := rest }
  | restart (l : Lid) (state : GuardState) (rest : List (LiveGuard Lid Hid))
      (hscope : s.scope = .hybrid l .optimistic state :: rest)
      (hmust : HybridGuard.mustRestart state.word (s.lock l).stateAndVersion = true) :
      NextEffect me s spurious { s with
        scope := rest
        ctl := if s.ctl = .running then .unwinding else .terminated }
  | validated (l : Lid) (state : GuardState) (rest : List (LiveGuard Lid Hid))
      (hscope : s.scope = .hybrid l .optimistic state :: rest)
      (hmust : HybridGuard.mustRestart state.word (s.lock l).stateAndVersion = false) :
      NextEffect me s spurious { s with scope := rest }
  | moved (l : Lid) (state : GuardState) (rest : List (LiveGuard Lid Hid))
      (hscope : s.scope = .hybrid l .moved state :: rest) :
      NextEffect me s spurious { s with scope := rest }
  | inside (l : Lid) (mode : GuardMode) (state : GuardState) (rest : List (LiveGuard Lid Hid))
      (call : LockAct Tid) (m : LockSt Tid) (hscope : s.scope = .hybrid l mode state :: rest)
      (hcall : mode.unlockCall me = some call)
      (hstep : (s.lock l).step (if (s.lock l).pc me = .idle then call else .resume me spurious)
        = some m) (hpc : m.pc me ≠ .idle) :
      NextEffect me s spurious { s with lock := Function.update s.lock l m }
  | released (l : Lid) (mode : GuardMode) (state : GuardState) (rest : List (LiveGuard Lid Hid))
      (call : LockAct Tid) (m : LockSt Tid) (hscope : s.scope = .hybrid l mode state :: rest)
      (hcall : mode.unlockCall me = some call)
      (hstep : (s.lock l).step (if (s.lock l).pc me = .idle then call else .resume me spurious)
        = some m) (hpc : m.pc me = .idle) :
      NextEffect me s spurious { s with
        lock := Function.update s.lock l m
        scope := rest
        log := ⟨l, mode, (s.lock l).stateAndVersion, m.stateAndVersion⟩ :: s.log }

namespace ScopeSt

variable {me : Tid} {s s' : ScopeSt Tid Lid Hid}

lemma unlock_eq_some {l : Lid} {mode : GuardMode} {state : GuardState}
    {rest : List (LiveGuard Lid Hid)} {call : LockAct Tid} {spurious : Bool}
    (hscope : s.scope = .hybrid l mode state :: rest)
    (hcall : mode.unlockCall me = some call)
    (h : s.unlock me l mode rest call spurious = some s') : NextEffect me s spurious s' := by
  obtain ⟨m, hstep, hm⟩ := Option.map_eq_some_iff.mp h
  by_cases hpc : m.pc me = .idle
  · rw [if_pos hpc] at hm
    subst hm
    exact .released l mode state rest call m hscope hcall hstep hpc
  · rw [if_neg hpc] at hm
    subst hm
    exact .inside l mode state rest call m hscope hcall hstep hpc

/-- **Inversion of `next`.** -/
theorem next_effect {spurious : Bool} (h : s.next me spurious = some s') :
    (s.ctl = .running ∨ s.ctl = .unwinding) ∧ NextEffect me s spurious s' := by
  unfold next at h
  by_cases hctl : s.ctl = .running ∨ s.ctl = .unwinding
  · rw [if_pos hctl] at h
    refine ⟨hctl, ?_⟩
    split at h
    · rename_i hscope
      split_ifs at h with hunwinding
      cases h
      exact .caught hscope hunwinding
    · rename_i handler rest hscope
      cases h
      exact .epochEnd handler rest hscope
    · rename_i l mode state rest hscope
      cases mode with
      | optimistic =>
          simp only [destroyHybrid] at h
          split_ifs at h with hmust
          · cases h
            exact .restart l state rest hscope hmust
          · cases h
            exact .validated l state rest hscope (by simpa using hmust)
      | moved =>
          cases h
          exact .moved l state rest hscope
      | shared => exact unlock_eq_some hscope rfl h
      | exclusive => exact unlock_eq_some hscope rfl h
  · rw [if_neg hctl] at h
    cases h

end ScopeSt

/-! ## What a step does to unwinding -/

/-- The process has ended, or a release has left its hold behind. -/
def ScopeSt.Spoilt (s : ScopeSt Tid Lid Hid) : Prop :=
  s.ctl = .terminated ∨ ∃ r ∈ s.log, ¬ r.Freed

/-- A bound on the accesses that are left when nobody interferes. -/
def ScopeSt.work (me : Tid) (s : ScopeSt Tid Lid Hid) : ℕ :=
  5 * s.scope.length + match s.scope with
    | .hybrid l _ _ :: _ => (s.lock l).unlockRank me
    | _ => 0

namespace UnwindInv

variable {table : UnwindTable Lid Hid} {me : Tid} {s₁ s s' : ScopeSt Tid Lid Hid}

omit [DecidableEq Hid] in
lemma other (hinv : UnwindInv me s₁ s) {l : Lid} {a : LockAct Tid} {m : LockSt Tid}
    (hne : a.thread ≠ me) (hstep : (s.lock l).clientStep a = some m) :
    UnwindInv me s₁ { s with lock := Function.update s.lock l m } := by
  obtain ⟨hpc, hholds⟩ := LockSt.clientStep_frame hne hstep
  refine hinv.setLock ((hinv.locks l).step hstep) hholds (LockInv.releases_le hstep) ?_
  rw [hpc]
  exact hinv.pcs l

omit [DecidableEq Hid] in
lemma pc_of_innermost (hinv : UnwindInv me s₁ s) {l : Lid} {mode : GuardMode} {state : GuardState}
    {rest : List (LiveGuard Lid Hid)} (hscope : s.scope = .hybrid l mode state :: rest) :
    (s.lock l).pc me = .idle ∨ Unlocking mode ((s.lock l).pc me) := by
  rcases hinv.pcs l with hidle | ⟨mode', state', rest', hscope', hunlocking⟩
  · exact .inl hidle
  · rw [hscope] at hscope'
    cases hscope'
    exact .inr hunlocking

omit [DecidableEq Hid] in
/-- An access of `Unlock` by the thread, while its guard is innermost. -/
lemma unlock (hinv : UnwindInv me s₁ s) {l : Lid} {mode : GuardMode} {state : GuardState}
    {rest : List (LiveGuard Lid Hid)} {call : LockAct Tid} {spurious : Bool} {m : LockSt Tid}
    (hscope : s.scope = .hybrid l mode state :: rest) (hcall : mode.unlockCall me = some call)
    (hstep : (s.lock l).step (if (s.lock l).pc me = .idle then call else .resume me spurious)
      = some m) :
    LockInv m ∧ (s.lock l).releases ≤ m.releases ∧ UnlockEffect me (s.lock l) mode m ∧
      0 < (s.lock l).holds me mode := by
  have hholds := hinv.holds_pos hscope (owned_of_unlockCall hcall l state)
  have hclient : (s.lock l).clientStep
      (if (s.lock l).pc me = .idle then call else .resume me spurious) = some m := by
    refine restrict_eq_some.mpr ⟨?_, hstep⟩
    split_ifs
    · exact LockSt.held_of_unlockCall hcall hholds
    · trivial
  exact ⟨(hinv.locks l).step hclient, LockInv.releases_le hclient,
    LockSt.unlock_effect (hinv.locks l) hcall (hinv.pc_of_innermost hscope) hstep hholds, hholds⟩

omit [DecidableEq Hid] in
lemma nextFits_iff (hinv : UnwindInv me s₁ s) {l : Lid} {state : GuardState}
    {rest : List (LiveGuard Lid Hid)} (hscope : s.scope = .hybrid l .optimistic state :: rest) :
    HybridGuard.mustRestart state.word (s.lock l).stateAndVersion = false ↔
      (LiveGuard.hybrid l .optimistic state : LiveGuard Lid Hid).NextFits me s.lock := by
  obtain ⟨hword, hle⟩ := hinv.snapshots l state (hscope ▸ List.mem_cons_self)
  exact mustRestart_iff (hinv.locks l) hword hle

/-- **The step lemma.**  Unwinding is spoilt by exactly the accesses that do not do their part. -/
theorem step (hinv : UnwindInv me s₁ s) {a : ScopeAct Tid Lid}
    (hstep : s.step table me a = some s') :
    UnwindInv me s₁ s' ∧ (s'.Spoilt ↔ s.Spoilt ∨ ¬ s.NextFits me a) := by
  cases a with
  | other l a =>
      simp only [ScopeSt.step] at hstep
      split_ifs at hstep with hother
      obtain ⟨m, hm, rfl⟩ := Option.map_eq_some_iff.mp hstep
      exact ⟨hinv.other hother.1 hm, by simp [ScopeSt.Spoilt, ScopeSt.NextFits]⟩
  | handleSegfault =>
      simp only [ScopeSt.step, if_neg hinv.started] at hstep
      cases hstep
  | next spurious =>
      obtain ⟨hactive, heffect⟩ := ScopeSt.next_effect hstep
      have hctl := hactive.resolve_left hinv.started
      have halive : s.ctl ≠ .terminated := by rw [hctl]; exact nofun
      cases heffect with
      | caught hscope _ =>
          refine ⟨?_, by simp [ScopeSt.Spoilt, ScopeSt.nextFits_nil hscope, halive]⟩
          exact {
            locks := hinv.locks
            started := nofun
            caught := fun _ => hscope
            stack := hinv.stack
            owned := hinv.owned
            holds := hinv.holds
            pcs := hinv.pcs
            snapshots := hinv.snapshots }
      | epochEnd h rest hscope =>
          refine ⟨hinv.pop hscope rfl (.inl hctl) fun h' => ⟨fun hg => ?_, fun hg => ?_⟩,
            by simp [ScopeSt.Spoilt, ScopeSt.nextFits_cons hscope, LiveGuard.NextFits]⟩
          · rw [LiveGuard.epoch.inj hg, Function.update_self]
          · exact Function.update_of_ne (fun heq => hg (congrArg _ heq.symm)) ..
      | restart l state rest hscope hmust =>
          have hnext : (if s.ctl = .running then ScopeCtl.unwinding else .terminated)
              = .terminated := if_neg hinv.started
          have hfits := hinv.nextFits_iff hscope
          refine ⟨hinv.pop hscope rfl (.inr hnext) fun h => ⟨nofun, fun _ => rfl⟩, ?_⟩
          refine iff_of_true (.inl hnext) (.inr ?_)
          rw [ScopeSt.nextFits_cons hscope, ← hfits, hmust]
          exact nofun
      | validated l state rest hscope hmust =>
          have hfits := (hinv.nextFits_iff hscope).mp hmust
          exact ⟨hinv.pop hscope rfl (.inl hctl) fun h => ⟨nofun, fun _ => rfl⟩,
            by simp [ScopeSt.Spoilt, ScopeSt.nextFits_cons hscope, hfits]⟩
      | moved l state rest hscope =>
          exact ⟨hinv.pop hscope rfl (.inl hctl) fun h => ⟨nofun, fun _ => rfl⟩,
            by simp [ScopeSt.Spoilt, ScopeSt.nextFits_cons hscope, LiveGuard.NextFits]⟩
      | inside l mode state rest call m hscope hcall haccess hpc =>
          obtain ⟨hlock, hreleases, hunlock, hpos⟩ := hinv.unlock hscope hcall haccess
          rcases LockSt.holds_of_unlockEffect hunlock hpos with
            ⟨-, hunlocking, hfits, hsame⟩ | ⟨hidle, -⟩
          · refine ⟨hinv.setLock hlock hsame hreleases
              (.inr ⟨mode, state, rest, hscope, hunlocking⟩), ?_⟩
            have hnext :
                (LiveGuard.hybrid l mode state : LiveGuard Lid Hid).NextFits me s.lock := by
              cases mode with
              | exclusive => exact hfits
              | optimistic => cases hcall
              | shared => trivial
              | moved => trivial
            simp [ScopeSt.Spoilt, ScopeSt.nextFits_cons hscope, hnext]
          · exact absurd hidle hpc
      | released l mode state rest call m hscope hcall haccess hpc =>
          obtain ⟨hlock, hreleases, hunlock, hpos⟩ := hinv.unlock hscope hcall haccess
          rcases LockSt.holds_of_unlockEffect hunlock hpos with ⟨hne, -⟩ | ⟨hidle, hdrop⟩
          · exact absurd hpc hne
          · refine ⟨hinv.release hscope (owned_of_unlockCall hcall l state) hctl hlock hreleases
              hidle hdrop _ _, ?_⟩
            have hfreed := LockSt.freed_of_unlockEffect Hid s.lock l hunlock hidle state
            simp [ScopeSt.Spoilt, ScopeSt.nextFits_cons hscope, hfreed, halive, or_comm]

/-- **The run lemma.** -/
lemma run (hinv : UnwindInv me s₁ s₁) {tr : List (ScopeAct Tid Lid)}
    (hrun : Transition.run (ScopeSt.step table me) s₁ tr = some s) :
    UnwindInv me s₁ s ∧ (s.Spoilt ↔
      s₁.Spoilt ∨ ¬ EveryStep (ScopeSt.step table me) (ScopeSt.NextFits me) s₁ tr) := by
  refine run_invariant_of_trace (I := fun tr s => UnwindInv me s₁ s ∧ (s.Spoilt ↔
    s₁.Spoilt ∨ ¬ EveryStep (ScopeSt.step table me) (ScopeSt.NextFits me) s₁ tr)) ?_ ?_ hrun
  · rintro tr s a s' hpre ⟨hs, hspoilt⟩ hstep
    obtain ⟨hs', hspoilt'⟩ := hs.step hstep
    exact ⟨hs', by rw [hspoilt', hspoilt, everyStep_snoc hpre, not_and_or, or_assoc]⟩
  · exact ⟨hinv, by simp [EveryStep.nil]⟩

omit [DecidableEq Hid] in
/-- At the `catch` all guards of the stack have been destroyed. -/
lemma finished (hinv : UnwindInv me s₁ s) (hcaught : s.ctl = .caught) :
    s.log.reverse.map (fun r => (r.lock, r.mode)) = s₁.scope.filterMap LiveGuard.owned ∧
      (∀ l mode, (s.lock l).holds me mode + ownedCount s₁.scope l mode
        = (s₁.lock l).holds me mode) ∧
      ∀ h, (.epoch h ∈ s₁.scope → s.localEpoch h = EpochHandler.maxValue) ∧
        (.epoch h ∉ s₁.scope → s.localEpoch h = s₁.localEpoch h) := by
  have hnil := hinv.caught hcaught
  obtain ⟨done, hsplit, hlog, hslots⟩ := hinv.stack
  rw [hnil, List.append_nil] at hsplit
  subst hsplit
  refine ⟨hlog, fun l mode => ?_, hslots⟩
  have hholds := hinv.holds l mode
  rwa [hnil] at hholds

omit [DecidableEq Hid] in
/-- Unwinding that has stopped was clean when it has not been spoilt, and all guards of the stack
that have something to do were among those to be destroyed. -/
lemma unwoundCleanly_iff (hinv : UnwindInv me s₁ s) (hend : s.ctl ≠ .unwinding)
    (stack : List (LiveGuard Lid Hid)) :
    UnwoundCleanly me stack s₁ s ↔ Landed s₁.scope stack s₁.localEpoch ∧ ¬ s.Spoilt := by
  constructor
  · intro hclean
    obtain ⟨hlog, -, hslots⟩ := hinv.finished hclean.caught
    refine ⟨⟨hlog.symm.trans hclean.released, fun h hmem => ?_⟩, ?_⟩
    · by_cases hlanded : .epoch h ∈ s₁.scope
      · exact .inl hlanded
      · exact .inr ((hslots h).2 hlanded ▸ hclean.slots h hmem)
    · rintro (hterminated | ⟨r, hr, hbad⟩)
      · rw [hclean.caught] at hterminated
        cases hterminated
      · exact hbad (hclean.freed r hr)
  · rintro ⟨⟨howned, hlanded⟩, hgood⟩
    have hcaught : s.ctl = .caught := by
      cases hctl : s.ctl with
      | running => exact absurd hctl hinv.started
      | unwinding => exact absurd hctl hend
      | caught => rfl
      | terminated => exact absurd (.inl hctl) hgood
    obtain ⟨hlog, hholds, hslots⟩ := hinv.finished hcaught
    exact {
      caught := hcaught
      released := hlog.trans howned
      freed := fun r hr => by
        by_contra hbad
        exact hgood (.inr ⟨r, hr, hbad⟩)
      holds := fun l mode => by
        rw [← hholds l mode, ownedCount, ownedCount, howned]
      slots := fun h hmem => by
        by_cases hin : .epoch h ∈ s₁.scope
        · exact (hslots h).1 hin
        · rw [(hslots h).2 hin]
          exact (hlanded h hmem).resolve_left hin }

/-! ### Unwinding comes to its end -/

omit [DecidableEq Tid] [DecidableEq Lid] [DecidableEq Hid] in
lemma work_lt_of_pop {g : LiveGuard Lid Hid} {rest : List (LiveGuard Lid Hid)}
    (hscope : s.scope = g :: rest) (hscope' : s'.scope = rest) : s'.work me < s.work me := by
  have hrank : s'.work me ≤ 5 * rest.length + 4 := by
    rw [ScopeSt.work, hscope']
    refine Nat.add_le_add_left ?_ _
    split
    · exact LockSt.unlockRank_le _ me
    · exact Nat.zero_le 4
  have hlow : 5 * (rest.length + 1) ≤ s.work me := by
    rw [ScopeSt.work, hscope, List.length_cons]
    exact Nat.le_add_right _ _
  omega

/-- Alone, the thread can always go on unwinding, and every access brings it nearer the end. -/
lemma exists_next (hinv : UnwindInv me s₁ s) (hctl : s.ctl = .unwinding) :
    ∃ s', s.step table me (.next false) = some s' ∧ UnwindInv me s₁ s' ∧
      (s'.ctl ≠ .unwinding ∨ s'.work me < s.work me) := by
  suffices h : ∃ s', s.next me false = some s' ∧
      (s'.ctl ≠ .unwinding ∨ s'.work me < s.work me) by
    obtain ⟨s', hnext, hless⟩ := h
    have hstep : s.step table me (.next false) = some s' := hnext
    exact ⟨s', hstep, (hinv.step hstep).1, hless⟩
  rw [ScopeSt.next, if_pos (.inr hctl)]
  cases hscope : s.scope with
  | nil => exact ⟨_, if_pos hctl, .inl nofun⟩
  | cons g rest =>
      cases g with
      | epoch h => exact ⟨_, rfl, .inr (work_lt_of_pop hscope rfl)⟩
      | hybrid l mode state =>
          have hunlock : ∀ call, mode.unlockCall me = some call →
              ∃ s', s.unlock me l mode rest call false = some s' ∧
                (s'.ctl ≠ .unwinding ∨ s'.work me < s.work me) := by
            intro call hcall
            obtain ⟨m, hm, hdone⟩ := LockSt.exists_unlock (hinv.locks l) hcall
              (hinv.pc_of_innermost hscope)
              (hinv.holds_pos hscope (owned_of_unlockCall hcall l state))
            by_cases hidle : m.pc me = .idle
            · refine ⟨_, by rw [ScopeSt.unlock, hm, Option.map_some, if_pos hidle], .inr ?_⟩
              exact work_lt_of_pop hscope rfl
            · refine ⟨_, by rw [ScopeSt.unlock, hm, Option.map_some, if_neg hidle], .inr ?_⟩
              have hrank := hdone.resolve_left hidle
              simp only [ScopeSt.work, hscope, Function.update_self]
              omega
          cases mode with
          | optimistic =>
              by_cases hmust : HybridGuard.mustRestart state.word (s.lock l).stateAndVersion = true
              · refine ⟨_, if_pos hmust, .inl ?_⟩
                simp [ScopeSt.throwRestart, hctl]
              · exact ⟨_, if_neg hmust, .inr (work_lt_of_pop hscope rfl)⟩
          | moved => exact ⟨_, rfl, .inr (work_lt_of_pop hscope rfl)⟩
          | shared => exact hunlock _ rfl
          | exclusive => exact hunlock _ rfl

/-- Alone, the thread finishes unwinding. -/
lemma exists_end (hinv : UnwindInv me s₁ s) :
    ∃ s', Repeats (ScopeSt.step table me) (.next false) s s' ∧ s'.ctl ≠ .unwinding := by
  obtain ⟨s', hrepeats, -, hend⟩ := exists_repeats_of_decreasing (I := UnwindInv me s₁)
    (G := fun s => s.ctl ≠ .unwinding) (f := ScopeSt.work me)
    (fun m hm hgoal => hm.exists_next (not_not.mp hgoal)) hinv
  exact ⟨s', hrepeats, hend⟩

end UnwindInv

/-! ## The throw -/

omit [DecidableEq Hid] in
/-- Unwinding starts with the guards `rest` of the scope. -/
lemma ScopeSt.Scoped.unwindInv {me : Tid} {s : ScopeSt Tid Lid Hid} (hs : s.Scoped me)
    {rest : List (LiveGuard Lid Hid)} (hrest : rest.Sublist s.scope) (s₁ : ScopeSt Tid Lid Hid)
    (heq : s₁ = { s with scope := rest, ctl := .unwinding }) :
    UnwindInv me s₁ s₁ ∧ ¬ s₁.Spoilt := by
  subst heq
  refine ⟨?_, by simp [ScopeSt.Spoilt, hs.log]⟩
  exact {
    locks := fun l => by
      obtain ⟨tr, hrun⟩ := hs.reached l
      exact LockInv.init.run hrun
    started := nofun
    caught := nofun
    stack := ⟨[], rfl, by rw [hs.log]; rfl, fun h => ⟨nofun, fun _ => rfl⟩⟩
    owned := fun l mode => ((hrest.filterMap _).count_le _).trans (hs.owned l mode)
    holds := fun _ _ => rfl
    pcs := fun l => .inl (hs.idle l)
    snapshots := fun l state hmem => by
      obtain ⟨m, tr₀, tr, hreach, -, rfl, hrun⟩ := hs.snapshots l state (hrest.subset hmem)
      exact ⟨(LockInv.init.run hreach).version,
        run_monotone (fun _ _ _ hstep => LockInv.releases_le hstep) hrun⟩ }

/-- The moment an exception is thrown: the guards that are left are those to be unwound, or the
process ends. -/
lemma ScopeSt.Scoped.throw {table : UnwindTable Lid Hid} {me : Tid} {s s₁ : ScopeSt Tid Lid Hid}
    {a : ScopeAct Tid Lid} (hs : s.Scoped me) (hstep : s.step table me a = some s₁)
    (hctl : s₁.ctl ≠ .running) :
    (s₁.ctl = .terminated ∧ ¬ table.Complete s a) ∨
      (UnwindInv me s₁ s₁ ∧ ¬ s₁.Spoilt ∧
        (table.Complete s a ↔ Landed s₁.scope (s.stackAt a) s₁.localEpoch)) := by
  cases a with
  | other l a =>
      simp only [ScopeSt.step] at hstep
      split_ifs at hstep with hother
      obtain ⟨m, -, rfl⟩ := Option.map_eq_some_iff.mp hstep
      exact absurd hs.running hctl
  | handleSegfault =>
      simp only [ScopeSt.step, if_pos hs.running] at hstep
      cases hlanded : table.landed s.scope with
      | none =>
          rw [hlanded, Option.some.injEq] at hstep
          subst hstep
          exact .inl ⟨rfl, by simp [UnwindTable.Complete, hlanded]⟩
      | some rest =>
          rw [hlanded, Option.some.injEq] at hstep
          subst hstep
          obtain ⟨hinv, hgood⟩ := hs.unwindInv (table.sublist _ _ hlanded)
            { s with scope := rest }.throwRestart (by rw [ScopeSt.throwRestart, if_pos hs.running])
          refine .inr ⟨hinv, hgood, ?_⟩
          simp [UnwindTable.Complete, hlanded, ScopeSt.throwRestart, ScopeSt.stackAt]
  | next spurious =>
      have hrunning : s.ctl ≠ .unwinding := by rw [hs.running]; exact nofun
      cases (ScopeSt.next_effect hstep).2 with
      | caught hscope hunwinding => exact absurd hunwinding hrunning
      | restart l state rest hscope hmust =>
          have hrest : rest.Sublist s.scope := hscope ▸ List.sublist_cons_self ..
          obtain ⟨hinv, hgood⟩ := hs.unwindInv hrest
            { s with scope := rest }.throwRestart (by rw [ScopeSt.throwRestart, if_pos hs.running])
          refine .inr ⟨hinv, hgood, ?_⟩
          have hstack : s.stackAt (.next spurious : ScopeAct Tid Lid) = rest := by
            rw [ScopeSt.stackAt, hscope, List.tail_cons]
          rw [hstack]
          exact iff_of_true trivial ⟨rfl, fun h hmem => .inl hmem⟩
      | epochEnd h rest hscope => exact absurd hs.running hctl
      | validated l state rest hscope hmust => exact absurd hs.running hctl
      | moved l state rest hscope => exact absurd hs.running hctl
      | inside l mode state rest call m hscope hcall haccess hpc => exact absurd hs.running hctl
      | released l mode state rest call m hscope hcall haccess hpc => exact absurd hs.running hctl

/-- A process that has ended stays so. -/
lemma ScopeSt.terminated_of_run {table : UnwindTable Lid Hid} {me : Tid}
    {s s' : ScopeSt Tid Lid Hid} {tr : List (ScopeAct Tid Lid)} (hctl : s.ctl = .terminated)
    (hrun : run (ScopeSt.step table me) s tr = some s') : s'.ctl = .terminated := by
  refine run_invariant (I := fun s : ScopeSt Tid Lid Hid => s.ctl = .terminated) ?_ hctl hrun
  intro s a s' hctl hstep
  cases a <;> simp [ScopeSt.step, ScopeSt.next, hctl] at hstep

/-- **A restart unwinds the scope.**  From the throw on, in every interleaving with the other
threads: when the exception has stopped, it was propagated cleanly exactly when the guards that had
something to do were all to be destroyed, which is in question after a throw by `HandleSegfault`
only, and every access of the destructors did its part.  And it does stop when the thread is left
alone. -/
theorem unwinding_clean_iff {table : UnwindTable Lid Hid} {me : Tid} {s s₁ : ScopeSt Tid Lid Hid}
    {a : ScopeAct Tid Lid} (hs : s.Scoped me) (hthrow : s.step table me a = some s₁)
    (hctl : s₁.ctl ≠ .running) (tr : List (ScopeAct Tid Lid)) (s' : ScopeSt Tid Lid Hid)
    (hrun : run (ScopeSt.step table me) s₁ tr = some s') :
    (s'.ctl ≠ .unwinding → (UnwoundCleanly me (s.stackAt a) s₁ s' ↔
      table.Complete s a ∧ EveryStep (ScopeSt.step table me) (ScopeSt.NextFits me) s₁ tr)) ∧
    ∃ m, Repeats (ScopeSt.step table me) (.next false) s' m ∧ m.ctl ≠ .unwinding := by
  rcases hs.throw hthrow hctl with ⟨hended, hincomplete⟩ | ⟨hstart, hgood, hcomplete⟩
  · have hended' := ScopeSt.terminated_of_run hended hrun
    refine ⟨fun _ => iff_of_false (fun hclean => ?_) fun h => hincomplete h.1, s', .refl, ?_⟩
    · have hcaught := hclean.caught
      rw [hended'] at hcaught
      cases hcaught
    · rw [hended']
      exact nofun
  · obtain ⟨hinv, hspoilt⟩ := hstart.run hrun
    refine ⟨fun hend => ?_, hinv.exists_end⟩
    rw [hinv.unwoundCleanly_iff hend, hspoilt, or_iff_right hgood, not_not, hcomplete]

/-- Thread `true` in a scope with one epoch handler, after the given accesses of the locks. -/
def ScopeSt.afterAccesses (tr : Bool → List (LockAct Bool)) (scope : List (LiveGuard Bool Unit)) :
    ScopeSt Bool Bool Unit :=
  { lock := fun l => (run LockSt.clientStep LockSt.init (tr l)).getD LockSt.init
    localEpoch := fun _ => 0
    scope := scope
    ctl := .running
    log := [] }

/-- The optimistic guards were constructed first. -/
lemma ScopeSt.scoped_afterAccesses {tr : Bool → List (LockAct Bool)}
    {scope : List (LiveGuard Bool Unit)}
    (hrun : ∀ l, (run LockSt.clientStep LockSt.init (tr l)).isSome)
    (hidle : ∀ l, ((afterAccesses tr scope).lock l).pc true = .idle)
    (howned : ∀ l mode,
      ownedCount scope l mode ≤ ((afterAccesses tr scope).lock l).holds true mode)
    (hnew : ∀ l state, .hybrid l .optimistic state ∈ scope → state = ⟨HybridLock.init, 0⟩) :
    (afterAccesses tr scope).Scoped true := by
  have hlock : ∀ l, run LockSt.clientStep LockSt.init (tr l)
      = some ((afterAccesses tr scope).lock l) := by
    intro l
    obtain ⟨m, hm⟩ := Option.isSome_iff_exists.mp (hrun l)
    simp [afterAccesses, hm]
  exact {
    reached := fun l => ⟨tr l, hlock l⟩
    idle := hidle
    owned := howned
    snapshots := fun l state hmem =>
      ⟨LockSt.init, [], tr l, rfl, rfl, hnew l state hmem, hlock l⟩
    running := rfl
    log := rfl }

/-- The other thread locks and unlocks exclusively. -/
def writerSection : List (LockAct Bool) :=
  [.tryLockExclusive false HybridLock.init, .release false .unlockExclusive, .resume false false,
    .resume false false]

def LiveGuard.isEpoch {Lid Hid : Type} : LiveGuard Lid Hid → Bool
  | .epoch _ => true
  | .hybrid _ _ _ => false

/-- A table that lists nothing but `EpochGuard`s. -/
def UnwindTable.epochGuards (Lid Hid : Type) : UnwindTable Lid Hid where
  landed scope := some (scope.filter LiveGuard.isEpoch)
  sublist := by
    rintro scope rest ⟨⟩
    exact List.filter_sublist

/-- Inside a shared guard, an optimistic one whose lock a writer has had meanwhile. -/
def mixedScope : ScopeSt Bool Bool Unit :=
  .afterAccesses (fun l => if l then writerSection else [.tryLockShared true HybridLock.init])
    [.hybrid true .optimistic ⟨HybridLock.init, 0⟩, .hybrid false .shared ⟨0, 0⟩,
      .hybrid false .optimistic ⟨HybridLock.init, 0⟩, .epoch ()]

/-- The scope of a `LookUp` whose list a writer has changed. -/
def lookUpScope : ScopeSt Bool Bool Unit :=
  .afterAccesses (fun _ => writerSection)
    [.hybrid true .optimistic ⟨HybridLock.init, 0⟩, .epoch ()]

/-- The destructor of the guard whose lock was written throws, and the rest of the scope is unwound;
so is the scope of a `LookUp` whose traversal faults, for which only the `EpochGuard` is listed. -/
theorem unwinding_clean_mixed :
    (∃ s₁ s', mixedScope.step (.epochGuards Bool Unit) true (.next false) = some s₁ ∧
      run (ScopeSt.step (.epochGuards Bool Unit) true) s₁ (List.replicate 6 (.next false))
        = some s' ∧
      UnwoundCleanly true (mixedScope.stackAt (.next false : ScopeAct Bool Bool)) s₁ s') ∧
    ∃ s₁ s', lookUpScope.step (.epochGuards Bool Unit) true .handleSegfault = some s₁ ∧
      run (ScopeSt.step (.epochGuards Bool Unit) true) s₁ (List.replicate 2 (.next false))
        = some s' ∧
      UnwoundCleanly true (lookUpScope.stackAt (.handleSegfault : ScopeAct Bool Bool)) s₁ s' := by
  have hmixed : mixedScope.Scoped true := ScopeSt.scoped_afterAccesses
    (fun l => by cases l <;> rfl) (fun l => by cases l <;> rfl)
    (fun l mode => by cases l <;> cases mode <;> decide) (by simp)
  have hthrow : mixedScope.step (.epochGuards Bool Unit) true (.next false)
      = some { mixedScope with scope := mixedScope.scope.tail }.throwRestart := rfl
  have hrun : run (ScopeSt.step (.epochGuards Bool Unit) true)
      { mixedScope with scope := mixedScope.scope.tail }.throwRestart
      (List.replicate 6 (.next false)) = some _ := rfl
  have hlookUp : lookUpScope.Scoped true := ScopeSt.scoped_afterAccesses (fun _ => rfl)
    (fun _ => rfl) (fun _ _ => Nat.zero_le _) (by simp)
  have hfault : lookUpScope.step (.epochGuards Bool Unit) true .handleSegfault
      = some { lookUpScope with scope := [.epoch ()] }.throwRestart := rfl
  have hrun' : run (ScopeSt.step (.epochGuards Bool Unit) true)
      { lookUpScope with scope := [.epoch ()] }.throwRestart
      (List.replicate 2 (.next false)) = some _ := rfl
  refine ⟨⟨_, _, hthrow, hrun, ?_⟩, _, _, hfault, hrun', ?_⟩
  · exact ((unwinding_clean_iff hmixed hthrow nofun _ _ hrun).1 nofun).mpr ⟨trivial, by decide⟩
  · refine ((unwinding_clean_iff hlookUp hfault nofun _ _ hrun').1 nofun).mpr ⟨?_, by decide⟩
    exact ⟨[.epoch ()], rfl, rfl, fun h hmem => .inl (by simp)⟩

/-- An optimistic guard inside another one on the same lock, which a writer has had meanwhile. -/
def nestedScope : ScopeSt Bool Bool Unit :=
  .afterAccesses (fun _ => writerSection)
    [.hybrid true .optimistic ⟨HybridLock.init, 0⟩, .hybrid true .optimistic ⟨HybridLock.init, 0⟩,
      .epoch ()]

/-- The destructor of the inner guard throws, and then that of the outer one. -/
theorem second_exception_terminates :
    ∃ s₁ s', nestedScope.Scoped true ∧
      nestedScope.step (.epochGuards Bool Unit) true (.next false) = some s₁ ∧
      s₁.ctl = .unwinding ∧
      run (ScopeSt.step (.epochGuards Bool Unit) true) s₁ [.next false] = some s' ∧
      s'.ctl = .terminated ∧ s'.localEpoch () = 0 ∧
      ¬ UnwoundCleanly true (nestedScope.stackAt (.next false : ScopeAct Bool Bool)) s₁ s' := by
  have hs : nestedScope.Scoped true := ScopeSt.scoped_afterAccesses (fun _ => rfl)
    (fun _ => rfl) (fun _ _ => Nat.zero_le _) (by simp)
  have hthrow : nestedScope.step (.epochGuards Bool Unit) true (.next false) = some _ := rfl
  refine ⟨_, _, hs, hthrow, rfl, rfl, rfl, rfl, fun hclean => ?_⟩
  have hcaught := hclean.caught
  cases hcaught

end OptLock
