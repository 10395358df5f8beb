import OptimisticLocking.Library.Transition
import OptimisticLocking.Sync.Lock
import Mathlib.Data.Finset.Card

/-!
# Threads on one `HybridLock`

The interleaving model of `lock.cc`.  One action is one atomic access to the word (or the call
that precedes it), so the load and the store inside `UnlockExclusive` and `DowngradeLock`, and the
load and the compare-exchange of a round of `UnlockShared`, are separate steps of their thread.

The state carries three ghosts the code does not have: which threads hold the lock exclusively,
which hold it shared (a multiset: one thread may take the shared lock several times, as
`SerializeOperation` of `test/lock.cc` does), and how many exclusive releases have completed.

* `LockSt.step` — the accesses, for arbitrary callers and arbitrary (stale) arguments.
* `Held` — the discipline of the callers: release or upgrade only what you hold.
* `LockInv` — the invariant.  It is stated for runs of any length: after `2 ^ 56` releases the
  carry of `nextVersionNewState` may have left a reader that nobody is, and the invariant keeps
  count of it.  While fewer releases than that have completed there is none.
-/

namespace OptLock

open HybridLock Transition

/-- The two calls that end an exclusive hold. -/
inductive Release
  | unlockExclusive
  | downgradeLock
  deriving DecidableEq, Repr

/-- The word a release stores after loading `old`. -/
def Release.stored : Release → Word → Word
  | .unlockExclusive, old => HybridLock.unlockExclusive old
  | .downgradeLock, old => HybridLock.downgradeLock old

/-- Where a thread is inside a call that takes several steps. -/
inductive LockPc
  | idle
  /-- The assertion of the release passed; its load comes next. -/
  | releaseLoad (r : Release)
  /-- Between the load and the store of a release. -/
  | releaseStore (r : Release) (old : Word)
  /-- At the top of the loop of `UnlockShared`. -/
  | unlockSharedLoad
  /-- Between the load and the compare-exchange of a round of `UnlockShared`. -/
  | unlockSharedCas (oldStateWVersion : Word)
  /-- An assertion failed. -/
  | aborted
  deriving DecidableEq, Repr

/-- The lock word, the threads inside calls, and the ghosts. -/
structure LockSt (Tid : Type) where
  stateAndVersion : Word
  pc : Tid → LockPc
  exclusive : Multiset Tid
  shared : Multiset Tid
  releases : ℕ

inductive LockAct (Tid : Type)
  | tryLockExclusive (t : Tid) (oldStateWVersion : Word)
  | tryLockShared (t : Tid) (oldStateWVersion : Word)
  | upgradeLock (t : Tid) (oldStateWVersion : Word) (spurious : Bool)
  /-- Call `UnlockExclusive` or `DowngradeLock`: the load of the assertion. -/
  | release (t : Tid) (r : Release)
  /-- Call `UnlockShared`. -/
  | unlockShared (t : Tid)
  /-- The next access of the call thread `t` is inside. -/
  | resume (t : Tid) (spurious : Bool)
  deriving DecidableEq

namespace LockSt

variable {Tid : Type} [DecidableEq Tid]

/-- A freshly constructed lock. -/
def init : LockSt Tid :=
  { stateAndVersion := HybridLock.init, pc := fun _ => .idle, exclusive := 0, shared := 0,
    releases := 0 }

def setPc (s : LockSt Tid) (t : Tid) (pc : LockPc) : LockSt Tid :=
  { s with pc := Function.update s.pc t pc }

/-- The access of a thread that is inside a call. -/
def resume (s : LockSt Tid) (t : Tid) (spurious : Bool) : Option (LockSt Tid) :=
  match s.pc t with
  | .idle => none
  | .aborted => none
  | .releaseLoad r => some (s.setPc t (.releaseStore r s.stateAndVersion))
  | .releaseStore r old =>
      some { s.setPc t .idle with
        stateAndVersion := r.stored old
        exclusive := s.exclusive.erase t
        shared := if r = .downgradeLock then t ::ₘ s.shared else s.shared
        releases := s.releases + 1 }
  | .unlockSharedLoad =>
      let old := s.stateAndVersion
      some (s.setPc t (if isSharedLocked old then .unlockSharedCas old else .aborted))
  | .unlockSharedCas old =>
      match HybridLock.unlockShared spurious s.stateAndVersion old with
      | (true, w) =>
          some { s.setPc t .idle with stateAndVersion := w, shared := s.shared.erase t }
      | (false, w) => some { s.setPc t .unlockSharedLoad with stateAndVersion := w }

/-- One atomic access.  `none`: a thread that is inside a call starts no other. -/
def step (s : LockSt Tid) : LockAct Tid → Option (LockSt Tid)
  | .tryLockExclusive t old =>
      if s.pc t = .idle then
        match HybridLock.tryLockExclusive s.stateAndVersion old with
        | (true, w) => some { s with stateAndVersion := w, exclusive := t ::ₘ s.exclusive }
        | (false, w) => some { s with stateAndVersion := w }
      else none
  | .tryLockShared t old =>
      if s.pc t = .idle then
        match HybridLock.tryLockShared s.stateAndVersion old with
        | (true, w) => some { s with stateAndVersion := w, shared := t ::ₘ s.shared }
        | (false, w) => some { s with stateAndVersion := w }
      else none
  | .upgradeLock t old spurious =>
      if s.pc t = .idle then
        match HybridLock.upgradeLock spurious s.stateAndVersion old with
        | (true, w) =>
            some { s with
              stateAndVersion := w, exclusive := t ::ₘ s.exclusive, shared := s.shared.erase t }
        | (false, w) => some { s with stateAndVersion := w }
      else none
  | .release t r =>
      if s.pc t = .idle then
        some (s.setPc t
          (if isExclusivelyLocked s.stateAndVersion then .releaseLoad r else .aborted))
      else none
  | .unlockShared t =>
      if s.pc t = .idle then some (s.setPc t .unlockSharedLoad) else none
  | .resume t spurious => s.resume t spurious

/-- What a `Try…` or `Upgrade…` call returns when its access happens in state `s`. -/
def returned (s : LockSt Tid) : LockAct Tid → Option Bool
  | .tryLockExclusive _ old => some (HybridLock.tryLockExclusive s.stateAndVersion old).1
  | .tryLockShared _ old => some (HybridLock.tryLockShared s.stateAndVersion old).1
  | .upgradeLock _ old spurious => some (HybridLock.upgradeLock spurious s.stateAndVersion old).1
  | _ => none

/-- The discipline of the callers: a thread releases or upgrades only what it holds. -/
def Held (s : LockSt Tid) : LockAct Tid → Prop
  | .release t _ => t ∈ s.exclusive
  | .unlockShared t => t ∈ s.shared
  | .upgradeLock t _ _ => t ∈ s.shared
  | _ => True

instance (s : LockSt Tid) (a : LockAct Tid) : Decidable (s.Held a) := by
  cases a <;> unfold Held <;> infer_instance

/-- The steps of disciplined callers. -/
def clientStep : LockSt Tid → LockAct Tid → Option (LockSt Tid) := restrict Held step

@[simp] lemma setPc_stateAndVersion (s : LockSt Tid) (t : Tid) (pc : LockPc) :
    (s.setPc t pc).stateAndVersion = s.stateAndVersion := rfl

@[simp] lemma setPc_exclusive (s : LockSt Tid) (t : Tid) (pc : LockPc) :
    (s.setPc t pc).exclusive = s.exclusive := rfl

@[simp] lemma setPc_shared (s : LockSt Tid) (t : Tid) (pc : LockPc) :
    (s.setPc t pc).shared = s.shared := rfl

@[simp] lemma setPc_releases (s : LockSt Tid) (t : Tid) (pc : LockPc) :
    (s.setPc t pc).releases = s.releases := rfl

@[simp] lemma setPc_pc (s : LockSt Tid) (t : Tid) (pc : LockPc) :
    (s.setPc t pc).pc = Function.update s.pc t pc := rfl

end LockSt

/-! ## What one step can do -/

/-- Everything an enabled action can do to the state, one constructor per outcome. -/
inductive LockEffect {Tid : Type} [DecidableEq Tid] (s : LockSt Tid) :
    LockAct Tid → LockSt Tid → Prop
  /-- A `Try…` or `Upgrade…` call returned false. -/
  | refused (a : LockAct Tid) (hret : s.returned a = some false) : LockEffect s a s
  | lockExclusive (t : Tid) (old : Word) (hpc : s.pc t = .idle)
      (hfree : lockState s.stateAndVersion = unlocked) :
      LockEffect s (.tryLockExclusive t old) { s with
        stateAndVersion := sameVersionNewState s.stateAndVersion HybridLock.exclusive
        exclusive := t ::ₘ s.exclusive }
  | lockShared (t : Tid) (old : Word) (hpc : s.pc t = .idle)
      (hroom : lockState s.stateAndVersion < maxShared) :
      LockEffect s (.tryLockShared t old) { s with
        stateAndVersion :=
          sameVersionNewState s.stateAndVersion (lockState s.stateAndVersion + 1)
        shared := t ::ₘ s.shared }
  | upgrade (t : Tid) (old : Word) (spurious : Bool) (hpc : s.pc t = .idle)
      (hone : lockState s.stateAndVersion = 1) :
      LockEffect s (.upgradeLock t old spurious) { s with
        stateAndVersion := sameVersionNewState s.stateAndVersion HybridLock.exclusive
        exclusive := t ::ₘ s.exclusive
        shared := s.shared.erase t }
  | releaseCall (t : Tid) (r : Release) (hpc : s.pc t = .idle) :
      LockEffect s (.release t r)
        (s.setPc t (if isExclusivelyLocked s.stateAndVersion then .releaseLoad r else .aborted))
  | releaseLoad (t : Tid) (r : Release) (spurious : Bool) (hpc : s.pc t = .releaseLoad r) :
      LockEffect s (.resume t spurious) (s.setPc t (.releaseStore r s.stateAndVersion))
  | releaseStore (t : Tid) (r : Release) (old : Word) (spurious : Bool)
      (hpc : s.pc t = .releaseStore r old) :
      LockEffect s (.resume t spurious) { s.setPc t .idle with
        stateAndVersion := r.stored old
        exclusive := s.exclusive.erase t
        shared := if r = .downgradeLock then t ::ₘ s.shared else s.shared
        releases := s.releases + 1 }
  | unlockSharedCall (t : Tid) (hpc : s.pc t = .idle) :
      LockEffect s (.unlockShared t) (s.setPc t .unlockSharedLoad)
  | unlockSharedLoad (t : Tid) (spurious : Bool) (hpc : s.pc t = .unlockSharedLoad) :
      LockEffect s (.resume t spurious) (s.setPc t
        (if isSharedLocked s.stateAndVersion then .unlockSharedCas s.stateAndVersion
          else .aborted))
  | unlockSharedRetry (t : Tid) (old : Word) (spurious : Bool)
      (hpc : s.pc t = .unlockSharedCas old) :
      LockEffect s (.resume t spurious) (s.setPc t .unlockSharedLoad)
  | unlockSharedDone (t : Tid) (spurious : Bool)
      (hpc : s.pc t = .unlockSharedCas s.stateAndVersion) :
      LockEffect s (.resume t spurious) { s.setPc t .idle with
        stateAndVersion :=
          sameVersionNewState s.stateAndVersion (lockState s.stateAndVersion - 1)
        shared := s.shared.erase t }

namespace LockSt

variable {Tid : Type} [DecidableEq Tid]

lemma resume_effect {s s' : LockSt Tid} {t : Tid} {spurious : Bool}
    (h : s.resume t spurious = some s') : LockEffect s (.resume t spurious) s' := by
  unfold resume at h
  split at h
  case h_1 hpc => cases h
  case h_2 hpc => cases h
  case h_3 r hpc =>
    cases h
    exact .releaseLoad t r spurious hpc
  case h_4 r old hpc =>
    cases h
    exact .releaseStore t r old spurious hpc
  case h_5 hpc =>
    cases h
    exact .unlockSharedLoad t spurious hpc
  case h_6 old hpc =>
    rcases unlockShared_cases spurious s.stateAndVersion old with hcas | ⟨rfl, hcas⟩
    · rw [hcas] at h
      cases h
      exact .unlockSharedRetry t old spurious hpc
    · rw [hcas] at h
      cases h
      exact .unlockSharedDone t spurious hpc

/-- **Inversion of `step`.**  Every proof about a step goes through this, none unfolds it. -/
theorem step_effect {s s' : LockSt Tid} {a : LockAct Tid} (h : s.step a = some s') :
    LockEffect s a s' := by
  cases a with
  | tryLockExclusive t old =>
      simp only [step] at h
      split_ifs at h with hpc
      rcases tryLockExclusive_cases s.stateAndVersion old with hcas | ⟨hfree, hcas⟩
      · rw [hcas] at h
        cases h
        exact .refused _ (by simp [returned, hcas])
      · rw [hcas] at h
        cases h
        exact .lockExclusive t old hpc hfree
  | tryLockShared t old =>
      simp only [step] at h
      split_ifs at h with hpc
      rcases tryLockShared_cases s.stateAndVersion old with hcas | ⟨hroom, hcas⟩
      · rw [hcas] at h
        cases h
        exact .refused _ (by simp [returned, hcas])
      · rw [hcas] at h
        cases h
        exact .lockShared t old hpc hroom
  | upgradeLock t old spurious =>
      simp only [step] at h
      split_ifs at h with hpc
      rcases upgradeLock_cases spurious s.stateAndVersion old with hcas | ⟨hone, hcas⟩
      · rw [hcas] at h
        cases h
        exact .refused _ (by simp [returned, hcas])
      · rw [hcas] at h
        cases h
        exact .upgrade t old spurious hpc hone
  | release t r =>
      simp only [step] at h
      by_cases hpc : s.pc t = .idle
      · rw [if_pos hpc] at h
        cases h
        exact .releaseCall t r hpc
      · rw [if_neg hpc] at h
        cases h
  | unlockShared t =>
      simp only [step] at h
      split_ifs at h with hpc
      cases h
      exact .unlockSharedCall t hpc
  | resume t spurious => exact resume_effect h

/-- A call that returns false changes nothing. -/
lemma step_of_returned_false {s s' : LockSt Tid} {a : LockAct Tid}
    (hret : s.returned a = some false) (h : s.step a = some s') : s' = s := by
  cases a with
  | tryLockExclusive t old =>
      simp only [step] at h
      split_ifs at h with hpc
      rcases tryLockExclusive_cases s.stateAndVersion old with hcas | ⟨-, hcas⟩
      · rw [hcas] at h
        cases h
        rfl
      · simp [returned, hcas] at hret
  | tryLockShared t old =>
      simp only [step] at h
      split_ifs at h with hpc
      rcases tryLockShared_cases s.stateAndVersion old with hcas | ⟨-, hcas⟩
      · rw [hcas] at h
        cases h
        rfl
      · simp [returned, hcas] at hret
  | upgradeLock t old spurious =>
      simp only [step] at h
      split_ifs at h with hpc
      rcases upgradeLock_cases spurious s.stateAndVersion old with hcas | ⟨-, hcas⟩
      · rw [hcas] at h
        cases h
        rfl
      · simp [returned, hcas] at hret
  | release t r => simp [returned] at hret
  | unlockShared t => simp [returned] at hret
  | resume t spurious => simp [returned] at hret

/-- The two outcomes of `TryLockExclusive`. -/
lemma tryLockExclusive_outcome {s s' : LockSt Tid} {t : Tid} {old : Word}
    (h : s.step (.tryLockExclusive t old) = some s') :
    (s.returned (.tryLockExclusive t old) = some false ∧ s' = s) ∨
      (s.returned (.tryLockExclusive t old) = some true ∧ s'.exclusive = t ::ₘ s.exclusive) := by
  simp only [step] at h
  split_ifs at h with hpc
  rcases tryLockExclusive_cases s.stateAndVersion old with hcas | ⟨-, hcas⟩
  · rw [hcas] at h
    cases h
    exact .inl ⟨by simp [returned, hcas], rfl⟩
  · rw [hcas] at h
    cases h
    exact .inr ⟨by simp [returned, hcas], rfl⟩

/-! Inside which calls a step leaves the threads. -/

lemma tryLockExclusive_pc {s s' : LockSt Tid} {t : Tid} {old : Word}
    (h : s.step (.tryLockExclusive t old) = some s') : s'.pc = s.pc := by
  cases step_effect h <;> rfl

lemma release_pc {s s' : LockSt Tid} {t : Tid} {r : Release}
    (h : s.step (.release t r) = some s') :
    s.pc t = .idle ∧ s'.pc t ≠ .idle ∧ ∀ u, u ≠ t → s'.pc u = s.pc u := by
  cases step_effect h with
  | refused _ hret => simp [returned] at hret
  | releaseCall _ _ hpc =>
      refine ⟨hpc, ?_, fun u hu => Function.update_of_ne hu ..⟩
      rw [setPc_pc, Function.update_self]
      split_ifs <;> exact nofun

lemma resume_pc {s s' : LockSt Tid} {t u : Tid} {spurious : Bool}
    (h : s.step (.resume t spurious) = some s') (hu : u ≠ t) : s'.pc u = s.pc u := by
  cases step_effect h with
  | refused _ hret => simp [returned] at hret
  | _ => exact Function.update_of_ne hu ..

end LockSt

/-! ## The invariant -/

/-- Somebody holds the lock exclusively: it is exactly one thread and nobody shares. -/
def LockSt.HeldExclusively {Tid : Type} (s : LockSt Tid) : Prop :=
  (∃ t, s.exclusive = {t}) ∧ s.shared = 0 ∧ lockState s.stateAndVersion = HybridLock.exclusive

/-- Nobody holds the lock exclusively, and the state byte counts the shared holds.  `phantom` is
the reader left behind by the carry of a release at the largest version. -/
def LockSt.NotExclusive {Tid : Type} (s : LockSt Tid) (phantom : ℕ) : Prop :=
  s.exclusive = 0 ∧ (lockState s.stateAndVersion).toNat = s.shared.card + phantom ∧
    s.shared.card + phantom ≤ 254 ∧ phantom ≤ 1 ∧ (phantom = 1 → 2 ^ 56 ≤ s.releases)

/-- What is known of a thread from where it is inside a call. -/
def LockSt.PcOk {Tid : Type} (s : LockSt Tid) (t : Tid) : LockPc → Prop
  | .idle => True
  | .releaseLoad _ => t ∈ s.exclusive
  | .releaseStore _ old => t ∈ s.exclusive ∧ old = s.stateAndVersion
  | .unlockSharedLoad => t ∈ s.shared
  | .unlockSharedCas old => t ∈ s.shared ∧ isSharedLocked old = true
  | .aborted => False

structure LockInv {Tid : Type} (s : LockSt Tid) : Prop where
  version : (version s.stateAndVersion).toNat = s.releases % 2 ^ 56
  holders : s.HeldExclusively ∨ ∃ phantom, s.NotExclusive phantom
  pcs : ∀ t, s.PcOk t (s.pc t)

namespace LockInv

variable {Tid : Type} {s : LockSt Tid}

lemma init : LockInv (LockSt.init : LockSt Tid) where
  version := version_init
  holders :=
    .inr ⟨0, rfl, congrArg BitVec.toNat lockState_init, Nat.zero_le _, Nat.zero_le _, nofun⟩
  pcs := fun _ => trivial

/-- The state byte tells whether the lock is held exclusively. -/
lemma exclusive_eq_zero_iff (h : LockInv s) :
    s.exclusive = 0 ↔ lockState s.stateAndVersion ≠ HybridLock.exclusive := by
  rcases h.holders with ⟨⟨t, ht⟩, -, hword⟩ | ⟨phantom, hnone, hword, hle, -⟩
  · simp [ht, hword]
  · refine ⟨fun _ hx => ?_, fun _ => hnone⟩
    have : HybridLock.exclusive.toNat = 255 := rfl
    rw [hx] at hword
    omega

lemma notExclusive (h : LockInv s) (hx : lockState s.stateAndVersion ≠ HybridLock.exclusive) :
    ∃ phantom, s.NotExclusive phantom := by
  rcases h.holders with ⟨-, -, hword⟩ | hnone
  · exact absurd hword hx
  · exact hnone

lemma heldExclusively_of_mem (h : LockInv s) {t : Tid} (ht : t ∈ s.exclusive) :
    s.exclusive = {t} ∧ s.shared = 0 ∧ lockState s.stateAndVersion = HybridLock.exclusive := by
  rcases h.holders with ⟨⟨u, hu⟩, hshared, hword⟩ | ⟨phantom, hnone, -⟩
  · rw [hu, Multiset.mem_singleton] at ht
    exact ⟨ht ▸ hu, hshared, hword⟩
  · rw [hnone] at ht
    exact absurd ht (Multiset.notMem_zero t)

/-- A thread inside a release or inside `UnlockShared` is a holder. -/
lemma pc_eq_idle (h : LockInv s) {t : Tid} (hx : t ∉ s.exclusive) (hs : t ∉ s.shared) :
    s.pc t = .idle := by
  have hpc := h.pcs t
  cases hcase : s.pc t with
  | idle => rfl
  | releaseLoad r => rw [hcase] at hpc; exact absurd hpc hx
  | releaseStore r old => rw [hcase] at hpc; exact absurd hpc.1 hx
  | unlockSharedLoad => rw [hcase] at hpc; exact absurd hpc hs
  | unlockSharedCas old => rw [hcase] at hpc; exact absurd hpc.1 hs
  | aborted => rw [hcase] at hpc; exact absurd hpc id

/-- While nobody holds exclusively, what is known of a thread survives any change of the word
that leaves it a sharer. -/
lemma pcOk_of_shared (h : LockInv s) {s' : LockSt Tid} (hx : s.exclusive = 0) {u : Tid}
    (hs : u ∈ s.shared → u ∈ s'.shared) : s'.PcOk u (s.pc u) := by
  have hpc := h.pcs u
  have hnot : u ∉ s.exclusive := by rw [hx]; exact Multiset.notMem_zero u
  cases hcase : s.pc u with
  | idle => trivial
  | releaseLoad r => rw [hcase] at hpc; exact absurd hpc hnot
  | releaseStore r old => rw [hcase] at hpc; exact absurd hpc.1 hnot
  | unlockSharedLoad => rw [hcase] at hpc; exact hs hpc
  | unlockSharedCas old => rw [hcase] at hpc; exact ⟨hs hpc.1, hpc.2⟩
  | aborted => rw [hcase] at hpc; exact hpc

/-- The assertion of `UnlockShared`: to a sharer the word shows between one and 254 readers. -/
lemma isSharedLocked (h : LockInv s) {t : Tid} (ht : t ∈ s.shared) :
    isSharedLocked s.stateAndVersion = true := by
  have hpos := Multiset.card_pos_iff_exists_mem.mpr ⟨t, ht⟩
  rcases h.holders with ⟨-, hshared, -⟩ | ⟨phantom, -, hword, hle, -⟩
  · rw [hshared] at ht
    exact absurd ht (Multiset.notMem_zero t)
  · rw [isSharedLocked_iff]
    omega

/-! ### Preservation, one lemma per outcome -/

lemma lockShared (h : LockInv s) {t : Tid} (hroom : lockState s.stateAndVersion < maxShared) :
    LockInv { s with
      stateAndVersion := sameVersionNewState s.stateAndVersion (lockState s.stateAndVersion + 1)
      shared := t ::ₘ s.shared } := by
  have hlt : (lockState s.stateAndVersion).toNat < 254 := hroom
  obtain ⟨phantom, hx, hword, hle, hph⟩ := h.notExclusive (fun hx => by
    rw [hx] at hlt
    exact absurd hlt (by decide))
  obtain ⟨hstate, hversion⟩ := lockState_addReader (v := s.stateAndVersion) (by omega)
  exact {
    version := by
      rw [hversion]
      exact h.version
    holders := .inr ⟨phantom, hx, by
      rw [hstate, Multiset.card_cons]
      omega, by
      rw [Multiset.card_cons]
      omega, hph⟩
    pcs := fun u => h.pcOk_of_shared hx fun hu => Multiset.mem_cons_of_mem hu }

variable [DecidableEq Tid]

/-- A step that only moves a thread inside its call. -/
lemma setPc (h : LockInv s) {t : Tid} {pc : LockPc} (hok : s.PcOk t pc) :
    LockInv (s.setPc t pc) where
  version := h.version
  holders := h.holders
  pcs := fun u => by
    have hsame : ∀ pc', s.PcOk u pc' → (s.setPc t pc).PcOk u pc' := fun pc' hpc' => by
      cases pc' <;> exact hpc'
    rw [LockSt.setPc_pc]
    by_cases hu : u = t
    · subst hu
      rw [Function.update_self]
      exact hsame pc hok
    · rw [Function.update_of_ne hu]
      exact hsame _ (h.pcs u)

/-- A thread goes from being nobody in particular to holding exclusively, either from the free
word or from being its only sharer.  In both cases no other thread is inside a call. -/
lemma enterExclusive (h : LockInv s) {t : Tid} (hpc : s.pc t = .idle) (hx : s.exclusive = 0)
    (hs : ∀ u, u ∈ s.shared → u = t) {shared' : Multiset Tid} (hs' : shared' = 0) :
    LockInv { s with
      stateAndVersion := sameVersionNewState s.stateAndVersion HybridLock.exclusive
      exclusive := t ::ₘ s.exclusive
      shared := shared' } where
  version := by
    rw [version_sameVersionNewState]
    exact h.version
  holders := .inl ⟨⟨t, by rw [hx]; rfl⟩, hs', lockState_sameVersionNewState _ (by decide)⟩
  pcs := fun u => by
    have hidle : s.pc u = .idle := by
      by_cases hu : u = t
      · exact hu ▸ hpc
      · exact h.pc_eq_idle (by rw [hx]; exact Multiset.notMem_zero u) (fun hmem => hu (hs u hmem))
    show LockSt.PcOk _ u (s.pc u)
    rw [hidle]
    trivial

lemma lockExclusive (h : LockInv s) {t : Tid} (hpc : s.pc t = .idle)
    (hfree : lockState s.stateAndVersion = unlocked) :
    LockInv { s with
      stateAndVersion := sameVersionNewState s.stateAndVersion HybridLock.exclusive
      exclusive := t ::ₘ s.exclusive } := by
  obtain ⟨phantom, hx, hword, -⟩ := h.notExclusive (by rw [hfree]; decide)
  have hshared : s.shared = 0 := by
    have : unlocked.toNat = 0 := rfl
    rw [hfree] at hword
    exact Multiset.card_eq_zero.mp (by omega)
  exact h.enterExclusive hpc hx (fun u hu => by simp [hshared] at hu) hshared

lemma upgrade (h : LockInv s) {t : Tid} (hpc : s.pc t = .idle)
    (hone : lockState s.stateAndVersion = 1) (ht : t ∈ s.shared) :
    LockInv { s with
      stateAndVersion := sameVersionNewState s.stateAndVersion HybridLock.exclusive
      exclusive := t ::ₘ s.exclusive
      shared := s.shared.erase t } := by
  obtain ⟨phantom, hx, hword, -⟩ := h.notExclusive (by rw [hone]; decide)
  -- the one reader the state byte counts is the upgrading thread itself
  have hcard : s.shared.card = 1 := by
    have : (1 : Word).toNat = 1 := rfl
    have := Multiset.card_pos_iff_exists_mem.mpr ⟨t, ht⟩
    rw [hone] at hword
    omega
  obtain ⟨u, hu⟩ := Multiset.card_eq_one.mp hcard
  rw [hu, Multiset.mem_singleton] at ht
  subst ht
  exact h.enterExclusive hpc hx (fun v hv => by simpa [hu] using hv)
    (by rw [hu, Multiset.erase_singleton])

lemma unlockSharedDone (h : LockInv s) {t : Tid}
    (hpc : s.pc t = .unlockSharedCas s.stateAndVersion) :
    LockInv { s.setPc t .idle with
      stateAndVersion := sameVersionNewState s.stateAndVersion (lockState s.stateAndVersion - 1)
      shared := s.shared.erase t } := by
  have hok := h.pcs t
  rw [hpc] at hok
  obtain ⟨ht, hlocked⟩ := hok
  rw [isSharedLocked_iff] at hlocked
  obtain ⟨phantom, hx, hword, hle, hph⟩ := h.notExclusive (fun hx => by
    rw [hx] at hlocked
    exact absurd hlocked.2 (by decide))
  obtain ⟨hstate, hversion⟩ := lockState_dropReader hlocked.1
  have hpos := Multiset.card_pos_iff_exists_mem.mpr ⟨t, ht⟩
  have hcard : (s.shared.erase t).card = s.shared.card - 1 := Multiset.card_erase_of_mem ht
  exact {
    version := by
      rw [hversion]
      exact h.version
    holders := .inr ⟨phantom, hx, by
      rw [hstate, hcard]
      omega, by
      rw [hcard]
      omega, hph⟩
    pcs := fun u => by
      by_cases hu : u = t
      · subst hu
        show LockSt.PcOk _ u (Function.update s.pc u .idle u)
        rw [Function.update_self]
        trivial
      · show LockSt.PcOk _ u (Function.update s.pc t .idle u)
        rw [Function.update_of_ne hu]
        exact h.pcOk_of_shared hx fun hmem => (Multiset.mem_erase_of_ne hu).mpr hmem }

/-- The word a holder stores when it releases.  The carry of `UnlockExclusive` is the phantom
reader; `DowngradeLock` or-s it into the bit of its own reader. -/
lemma lockState_stored (r : Release) (v : Word) :
    ∃ phantom, (lockState (r.stored v)).toNat = (if r = .downgradeLock then 1 else 0) + phantom ∧
      phantom ≤ 1 ∧ (phantom = 1 → 2 ^ 56 ≤ (HybridLock.version v).toNat + 1) := by
  cases r with
  | unlockExclusive =>
      rw [Release.stored, lockState_unlockExclusive]
      by_cases hv : (HybridLock.version v).toNat + 1 < 2 ^ 56
      · rw [if_pos hv]
        exact ⟨0, rfl, by omega, nofun⟩
      · rw [if_neg hv]
        exact ⟨1, rfl, by omega, fun _ => by omega⟩
  | downgradeLock =>
      rw [Release.stored, lockState_downgradeLock]
      exact ⟨0, rfl, by omega, nofun⟩

lemma version_stored (r : Release) (v : Word) :
    (HybridLock.version (r.stored v)).toNat = ((HybridLock.version v).toNat + 1) % 2 ^ 56 := by
  cases r with
  | unlockExclusive => exact version_nextVersionNewState v (.inl rfl)
  | downgradeLock => exact version_nextVersionNewState v (.inr rfl)

lemma releaseStore (h : LockInv s) {t : Tid} {r : Release} {old : Word}
    (hpc : s.pc t = .releaseStore r old) :
    LockInv { s.setPc t .idle with
      stateAndVersion := r.stored old
      exclusive := s.exclusive.erase t
      shared := if r = .downgradeLock then t ::ₘ s.shared else s.shared
      releases := s.releases + 1 } := by
  have hok := h.pcs t
  rw [hpc] at hok
  obtain ⟨ht, rfl⟩ := hok
  obtain ⟨hexcl, hshared, -⟩ := h.heldExclusively_of_mem ht
  have hversion := h.version
  obtain ⟨phantom, hstate, hph, hwrap⟩ := lockState_stored r s.stateAndVersion
  have hcard : (if r = .downgradeLock then t ::ₘ s.shared else s.shared).card
      = if r = .downgradeLock then 1 else 0 := by
    rw [hshared]
    split_ifs <;> rfl
  exact {
    version := by
      rw [version_stored, hversion]
      show (s.releases % 2 ^ 56 + 1) % 2 ^ 56 = (s.releases + 1) % 2 ^ 56
      omega
    holders := .inr ⟨phantom, by rw [hexcl, Multiset.erase_singleton], by
      rw [hcard]
      exact hstate, by
      rw [hcard]
      split_ifs <;> omega, hph, fun hone => by
      have := hwrap hone
      show 2 ^ 56 ≤ s.releases + 1
      omega⟩
    pcs := fun u => by
      have hidle : Function.update s.pc t LockPc.idle u = .idle := by
        by_cases hu : u = t
        · rw [hu, Function.update_self]
        · rw [Function.update_of_ne hu]
          exact h.pc_eq_idle (by rw [hexcl, Multiset.mem_singleton]; exact hu)
            (by rw [hshared]; exact Multiset.notMem_zero u)
      show LockSt.PcOk _ u (Function.update s.pc t .idle u)
      rw [hidle]
      trivial }

/-- **The step lemma.**  Every step of disciplined callers keeps the invariant. -/
theorem step (h : LockInv s) {a : LockAct Tid} (hstep : LockSt.clientStep s a = some s') :
    LockInv s' := by
  obtain ⟨hheld, hstep⟩ := restrict_eq_some.mp hstep
  cases LockSt.step_effect hstep with
  | refused _ => exact h
  | lockExclusive t old hpc hfree => exact h.lockExclusive hpc hfree
  | lockShared t old _ hroom => exact h.lockShared hroom
  | upgrade t old spurious hpc hone => exact h.upgrade hpc hone hheld
  | releaseCall t r _ =>
      -- the assertion holds: the caller is the exclusive holder
      have hword := (h.heldExclusively_of_mem hheld).2.2
      rw [if_pos ((isExclusivelyLocked_iff _).mpr hword)]
      exact h.setPc hheld
  | releaseLoad t r spurious hpc =>
      have hok := h.pcs t
      rw [hpc] at hok
      exact h.setPc ⟨hok, rfl⟩
  | releaseStore t r old spurious hpc => exact h.releaseStore hpc
  | unlockSharedCall t _ => exact h.setPc hheld
  | unlockSharedLoad t spurious hpc =>
      have hok : t ∈ s.shared := by
        have hok := h.pcs t
        rw [hpc] at hok
        exact hok
      have hlocked := h.isSharedLocked hok
      rw [if_pos hlocked]
      exact h.setPc ⟨hok, hlocked⟩
  | unlockSharedRetry t old spurious hpc =>
      have hok := h.pcs t
      rw [hpc] at hok
      exact h.setPc hok.1
  | unlockSharedDone t spurious hpc => exact h.unlockSharedDone hpc

/-- While nobody holds exclusively no release completes. -/
lemma releases_of_exclusive_eq_zero (h : LockInv s) (hx : s.exclusive = 0) {a : LockAct Tid}
    (hstep : LockSt.clientStep s a = some s') : s'.releases = s.releases := by
  cases LockSt.step_effect (restrict_eq_some.mp hstep).2 with
  | releaseStore t r old spurious hpc =>
      have hok := h.pcs t
      rw [hpc, LockSt.PcOk, hx] at hok
      exact absurd hok.1 (Multiset.notMem_zero t)
  | _ => rfl

/-- An exclusive hold ends only with a completed release. -/
lemma releases_of_exclusive_ne_zero {a : LockAct Tid} (hx : s.exclusive ≠ 0)
    (hx' : s'.exclusive = 0) (hstep : LockSt.clientStep s a = some s') :
    s'.releases = s.releases + 1 := by
  cases LockSt.step_effect (restrict_eq_some.mp hstep).2 with
  | releaseStore t r old spurious hpc => rfl
  | lockExclusive t old hpc hfree => exact absurd hx' (Multiset.cons_ne_zero)
  | upgrade t old spurious hpc hone => exact absurd hx' (Multiset.cons_ne_zero)
  | _ => exact absurd hx' hx

/-- Inside `UnlockExclusive`: the load, or the store that ends the hold. -/
lemma resume_outcome (h : LockInv s) {t : Tid} {spurious : Bool} (ht : t ∈ s.exclusive)
    (hstep : s.step (.resume t spurious) = some s') :
    (s'.exclusive = s.exclusive ∧ s'.releases = s.releases ∧ s'.pc t ≠ .idle) ∨
      (s'.exclusive = s.exclusive.erase t ∧ s'.releases = s.releases + 1 ∧ s'.pc t = .idle) := by
  have hok := h.pcs t
  have hshared := (h.heldExclusively_of_mem ht).2.1
  cases LockSt.step_effect hstep with
  | refused _ hret => simp [LockSt.returned] at hret
  | releaseLoad _ r _ hpc => exact .inl ⟨rfl, rfl, by simp⟩
  | releaseStore _ r old _ hpc =>
      exact .inr ⟨rfl, rfl, Function.update_self ..⟩
  | unlockSharedLoad _ _ hpc =>
      rw [hpc, LockSt.PcOk, hshared] at hok
      exact absurd hok (Multiset.notMem_zero t)
  | unlockSharedRetry _ old _ hpc =>
      rw [hpc, LockSt.PcOk, hshared] at hok
      exact absurd hok.1 (Multiset.notMem_zero t)
  | unlockSharedDone _ _ hpc =>
      rw [hpc, LockSt.PcOk, hshared] at hok
      exact absurd hok.1 (Multiset.notMem_zero t)

/-- The call of `UnlockExclusive`. -/
lemma release_exclusive {t : Tid} {r : Release} (hstep : s.step (.release t r) = some s') :
    s'.exclusive = s.exclusive ∧ s'.releases = s.releases ∧
      s'.stateAndVersion = s.stateAndVersion := by
  cases LockSt.step_effect hstep with
  | refused _ hret => simp [LockSt.returned] at hret
  | releaseCall _ _ hpc => exact ⟨rfl, rfl, rfl⟩

lemma releases_le {a : LockAct Tid} (hstep : LockSt.clientStep s a = some s') :
    s.releases ≤ s'.releases := by
  cases LockSt.step_effect (restrict_eq_some.mp hstep).2 with
  | releaseStore t r old spurious hpc => exact Nat.le_succ _
  | _ => exact Nat.le_refl _

/-- **The run lemma.** -/
theorem run (h : LockInv s) {tr : List (LockAct Tid)}
    (hrun : Transition.run LockSt.clientStep s tr = some s') : LockInv s' :=
  run_invariant (I := LockInv) (fun _ _ _ hs hstep => hs.step hstep) h hrun

end LockInv

/-! ## Who holds the lock

`LockInv` allows for the phantom reader; before `2 ^ 56` releases have completed there is none.
-/

/-- **Holder invariant.**  In every state that disciplined threads reach while fewer than
`2 ^ 56` releases have completed, the word tells who holds the lock; a refused call changed
nothing; no assertion has failed. -/
theorem holder_invariant {Tid : Type} [DecidableEq Tid] {tr : List (LockAct Tid)} {s : LockSt Tid}
    (hrun : run LockSt.clientStep LockSt.init tr = some s) (hcount : s.releases < 2 ^ 56) :
    (((∃ t, s.exclusive = {t}) ∧ s.shared = 0 ∧ lockState s.stateAndVersion = 255) ∨
      (s.exclusive = 0 ∧ (lockState s.stateAndVersion).toNat = s.shared.card ∧
        (s.shared.Nodup → (lockState s.stateAndVersion).toNat = s.shared.toFinset.card) ∧
        s.shared.card ≤ 254)) ∧
    (∀ a s', s.returned a = some false → LockSt.clientStep s a = some s' → s' = s) ∧
    ∀ t, s.pc t ≠ .aborted := by
  have hinv := LockInv.init.run hrun
  refine ⟨?_, fun a s' hret hstep => ?_, fun t hpc => ?_⟩
  · rcases hinv.holders with hheld | ⟨phantom, hx, hword, hle, hph, hwrap⟩
    · exact .inl hheld
    · have hzero : phantom = 0 := by
        by_contra hne
        exact absurd (hwrap (by omega)) (by omega)
      subst hzero
      refine .inr ⟨hx, hword, fun hnodup => ?_, hle⟩
      rw [Multiset.toFinset_card_of_nodup hnodup]
      exact hword
  · exact LockSt.step_of_returned_false hret (restrict_eq_some.mp hstep).2
  · have hok := hinv.pcs t
    rw [hpc] at hok
    exact hok

/-- One thread locks and downgrades, another joins it. -/
theorem holder_invariant_downgraded :
    ∃ s : LockSt Bool,
      run LockSt.clientStep LockSt.init
        [.tryLockExclusive true HybridLock.init, .release true .downgradeLock,
          .resume true false, .resume true false,
          .tryLockShared false (HybridLock.downgradeLock 0)] = some s ∧
      s.shared.card = 2 ∧ ∀ t, s.pc t ≠ .aborted := by
  have hrun : run LockSt.clientStep (LockSt.init : LockSt Bool)
      [.tryLockExclusive true HybridLock.init, .release true .downgradeLock,
        .resume true false, .resume true false,
        .tryLockShared false (HybridLock.downgradeLock 0)] = some _ := rfl
  exact ⟨_, hrun, rfl, (holder_invariant hrun (by decide)).2.2⟩

end OptLock
