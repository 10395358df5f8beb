import OptimisticLocking.Library.Transition
import OptimisticLocking.Sync.Lock
import Mathlib.Data.Finset.Card

/-!
# `HybridGuard` objects

The scoped guards of `guard.cc`, used by one thread on any number of locks.  A program is a list
of `GuardAct`s: constructions, move-assignments, explicit `Unlock` and `ValidateOptimisticLock`
calls, destructions.  A move from a temporary is a construction, an assignment and a destruction.

Besides the fields of the code a guard carries a ghost `ticket`, the number of the acquisition or
snapshot it was constructed with; `operator=` copies it with the other fields.  `held` and `log`
are ghosts too: the acquisitions not yet released, and everything that was done to the locks.

* `GuardEnv.step` — the code.  A constructor that would spin for ever is a step that is not
  enabled: in one thread nobody else changes the word.
* `GuardEnv.CleanReleases` — what the guards are for: every acquisition is released once, by the
  matching call, and stays held until then.
* `CleanStep` — the steps on which the code keeps it.  `operator=` neither releases what its
  target holds nor disarms its source, so a move-assignment is clean only when there is nothing
  to release and nothing to disarm, or when it does not come to the assignments.
-/

namespace OptLock

open HybridLock Transition

inductive GuardMode
  | optimistic
  | shared
  | exclusive
  | moved
  deriving DecidableEq, Repr

/-- A guard object; `lock`, `mode` and `state` are its fields `lock_`, `mode_`, `state_`. -/
structure HybridGuard (Lid : Type) where
  lock : Lid
  mode : GuardMode
  state : Word
  ticket : ℕ
  deriving DecidableEq

/-- The test of `ValidateOptimisticLock` on the word it loads: a restart is needed. -/
def HybridGuard.mustRestart (state latestState : Word) : Bool :=
  lockState latestState == HybridLock.exclusive || version latestState != version state

/-- An acquisition by a constructor: its number, the lock and the mode. -/
structure Hold (Lid : Type) where
  ticket : ℕ
  lock : Lid
  mode : GuardMode
  deriving DecidableEq

inductive GuardEvent (Lid : Type)
  | acquired (x : Hold Lid)
  | released (x : Hold Lid)
  | snapshot (ticket : ℕ)
  | validated (ticket : ℕ)
  /-- A `RestartException` was thrown. -/
  | restart
  /-- The `std::logic_error` of a constructor called with mode `MOVED`. -/
  | logicError
  deriving DecidableEq

/-- The locks and the live guard objects of one thread. -/
structure GuardEnv (Lid Gid : Type) where
  lock : Lid → Word
  guard : Gid → Option (HybridGuard Lid)
  nextTicket : ℕ
  held : Multiset (Hold Lid)
  log : List (GuardEvent Lid)
  /-- An assertion of the lock failed. -/
  aborted : Bool

inductive GuardAct (Lid Gid : Type)
  | construct (g : Gid) (l : Lid) (mode : GuardMode)
  /-- `dst = std::move(src)` -/
  | moveAssign (dst src : Gid)
  | unlock (g : Gid)
  | validateOptimisticLock (g : Gid)
  | destroy (g : Gid)
  deriving DecidableEq

variable {Lid Gid : Type} [DecidableEq Lid] [DecidableEq Gid]

namespace HybridGuard

def hold (h : HybridGuard Lid) : Hold Lid := ⟨h.ticket, h.lock, h.mode⟩

/-- The guard owns an acquisition. -/
def Owns (h : HybridGuard Lid) : Prop := h.mode = .shared ∨ h.mode = .exclusive

instance (h : HybridGuard Lid) : Decidable h.Owns := by
  unfold Owns
  infer_instance

/-- The guard has been disarmed. -/
def disarm (h : HybridGuard Lid) : HybridGuard Lid := { h with mode := .moved }

end HybridGuard

namespace GuardEnv

/-- No guards, and every lock freshly constructed. -/
def init : GuardEnv Lid Gid :=
  { lock := fun _ => HybridLock.init, guard := fun _ => none, nextTicket := 0, held := 0,
    log := [], aborted := false }

def setGuard (e : GuardEnv Lid Gid) (g : Gid) (h : Option (HybridGuard Lid)) : GuardEnv Lid Gid :=
  { e with guard := Function.update e.guard g h }

def emit (e : GuardEnv Lid Gid) (ev : GuardEvent Lid) : GuardEnv Lid Gid :=
  { e with log := ev :: e.log }

/-- A constructor took `l` in `mode` and left the word `w`. -/
def acquire (e : GuardEnv Lid Gid) (g : Gid) (l : Lid) (mode : GuardMode) (w : Word) :
    GuardEnv Lid Gid :=
  { e with
    lock := Function.update e.lock l w
    guard := Function.update e.guard g (some ⟨l, mode, 0, e.nextTicket⟩)
    nextTicket := e.nextTicket + 1
    held := ⟨e.nextTicket, l, mode⟩ ::ₘ e.held
    log := .acquired ⟨e.nextTicket, l, mode⟩ :: e.log }

/-- The constructor. -/
def construct (e : GuardEnv Lid Gid) (g : Gid) (l : Lid) : GuardMode → Option (GuardEnv Lid Gid)
  | .optimistic =>
      if lockState (e.lock l) = HybridLock.exclusive then none
      else some { (e.emit (.snapshot e.nextTicket)).setGuard g
            (some ⟨l, .optimistic, e.lock l, e.nextTicket⟩) with nextTicket := e.nextTicket + 1 }
  | .shared =>
      match HybridLock.tryLockShared (e.lock l) (e.lock l) with
      | (true, w) => some (e.acquire g l .shared w)
      | (false, _) => none
  | .exclusive =>
      match HybridLock.tryLockExclusive (e.lock l) (e.lock l) with
      | (true, w) => some (e.acquire g l .exclusive w)
      | (false, _) => none
  | .moved => some (e.emit .logicError)

/-- The call of the lock succeeded and left the word `w`; guard `g` is disarmed. -/
def released (e : GuardEnv Lid Gid) (g : Gid) (h : HybridGuard Lid) (w : Word) :
    GuardEnv Lid Gid :=
  { e with
    lock := Function.update e.lock h.lock w
    guard := Function.update e.guard g (some h.disarm)
    held := e.held.erase h.hold
    log := .released h.hold :: e.log }

/-- `Unlock`: the assertions are those of `UnlockShared` and `UnlockExclusive`. -/
def unlock (e : GuardEnv Lid Gid) (g : Gid) (h : HybridGuard Lid) : GuardEnv Lid Gid :=
  match h.mode with
  | .shared =>
      if isSharedLocked (e.lock h.lock) then
        e.released g h (HybridLock.unlockShared false (e.lock h.lock) (e.lock h.lock)).2
      else { e with aborted := true }
  | .exclusive =>
      if isExclusivelyLocked (e.lock h.lock) then
        e.released g h (HybridLock.unlockExclusive (e.lock h.lock))
      else { e with aborted := true }
  | _ => e

/-- `ValidateOptimisticLock`: whether it threw, and what it left. -/
def validateOptimisticLock (e : GuardEnv Lid Gid) (g : Gid) (h : HybridGuard Lid) :
    Bool × GuardEnv Lid Gid :=
  if h.mode ≠ .optimistic then (false, e)
  else
    let e := (e.emit (.validated h.ticket)).setGuard g (some h.disarm)
    let latestState := e.lock h.lock
    if HybridGuard.mustRestart h.state latestState then (true, e.emit .restart) else (false, e)

/-- The assignments of `operator=`; `src` is read after the validation of the target. -/
def copyFields (e : GuardEnv Lid Gid) (dst src : Gid) : GuardEnv Lid Gid :=
  match e.guard src with
  | some other => e.setGuard dst (some other)
  | none => e

/-- `operator=(HybridGuard &&)`: an exception of the validation skips the assignments. -/
def moveAssign (e : GuardEnv Lid Gid) (dst src : Gid) (this : HybridGuard Lid) :
    GuardEnv Lid Gid :=
  if this.mode = .optimistic then
    match e.validateOptimisticLock dst this with
    | (true, e') => e'
    | (false, e') => e'.copyFields dst src
  else e.copyFields dst src

/-- The destructor. -/
def destroy (e : GuardEnv Lid Gid) (g : Gid) (h : HybridGuard Lid) : GuardEnv Lid Gid :=
  match h.mode with
  | .optimistic => (e.validateOptimisticLock g h).2.setGuard g none
  | _ => (e.unlock g h).setGuard g none

/-- One statement of the thread.  Calls are made on live objects only. -/
def exec (e : GuardEnv Lid Gid) : GuardAct Lid Gid → Option (GuardEnv Lid Gid)
  | .construct g l mode =>
      match e.guard g with
      | none => e.construct g l mode
      | some _ => none
  | .moveAssign dst src =>
      match e.guard dst, e.guard src with
      | some this, some _ => some (e.moveAssign dst src this)
      | _, _ => none
  | .unlock g => (e.guard g).map fun h => e.unlock g h
  | .validateOptimisticLock g => (e.guard g).map fun h => (e.validateOptimisticLock g h).2
  | .destroy g => (e.guard g).map fun h => e.destroy g h

/-- A statement, unless a failed assertion has ended the process. -/
def step (e : GuardEnv Lid Gid) (a : GuardAct Lid Gid) : Option (GuardEnv Lid Gid) :=
  if e.aborted then none else e.exec a

/-! ## What the guards are for -/

/-- The word of lock `l` shows that the lock is held in `mode`. -/
def HeldIn (e : GuardEnv Lid Gid) (l : Lid) : GuardMode → Prop
  | .shared => isSharedLocked (e.lock l) = true
  | .exclusive => isExclusivelyLocked (e.lock l) = true
  | _ => True

/-- Every acquisition is released exactly once and by the matching call: never more often than it
was acquired, and as often once no guard is left.  While a guard owns it, it is not released and
the lock is held.  A snapshot is validated at most once. -/
structure CleanReleases (e : GuardEnv Lid Gid) : Prop where
  notAborted : e.aborted = false
  acquiredOnce : ∀ x, e.log.count (.acquired x) ≤ 1
  releasedOnce : ∀ x, e.log.count (.released x) ≤ e.log.count (.acquired x)
  owned : ∀ g h, e.guard g = some h → h.Owns →
    e.log.count (.acquired h.hold) = 1 ∧ e.log.count (.released h.hold) = 0 ∧
      e.HeldIn h.lock h.mode
  validatedOnce : ∀ k, e.log.count (.validated k) ≤ e.log.count (.snapshot k) ∧
    e.log.count (.snapshot k) ≤ 1
  drained : (∀ g, e.guard g = none) →
    (∀ l, lockState (e.lock l) = unlocked) ∧
      ∀ x, e.log.count (.released x) = e.log.count (.acquired x)

end GuardEnv

/-- The version of a lock has room for one more exclusive release. -/
def VersionRoom (w : Word) : Prop := (version w).toNat + 1 < 2 ^ 56

/-- The guard `g` is not one that is about to release a lock at the largest version. -/
def GuardEnv.ReleaseFits (e : GuardEnv Lid Gid) (g : Gid) : Prop :=
  ∀ h, e.guard g = some h → h.mode = .exclusive → VersionRoom (e.lock h.lock)

/-- The guard `g` is optimistic, and a writer has had its lock since its snapshot. -/
def GuardEnv.Stale (e : GuardEnv Lid Gid) (g : Gid) : Prop :=
  ∃ h, e.guard g = some h ∧ h.mode = .optimistic ∧
    HybridGuard.mustRestart h.state (e.lock h.lock) = true

/-- The steps on which the code keeps `CleanReleases`.  With a stale target `operator=` throws
before its assignments. -/
def CleanStep (e : GuardEnv Lid Gid) : GuardAct Lid Gid → Prop
  | .moveAssign dst src => dst = src ∨ e.Stale dst ∨
      (∀ h, e.guard src = some h → h.mode = .moved) ∧ (∀ h, e.guard dst = some h → ¬ h.Owns)
  | .unlock g => e.ReleaseFits g
  | .destroy g => e.ReleaseFits g
  | _ => True

/-! ## The invariant of clean programs

It speaks of the armed guards only: what a disarmed guard still carries is never used again.
-/

namespace GuardEnv

/-- `g` is a guard that the destructor still has work for. -/
def Armed (e : GuardEnv Lid Gid) (g : Gid) (h : HybridGuard Lid) : Prop :=
  e.guard g = some h ∧ h.mode ≠ .moved

/-- The word of `l` counts the holds on `l`. -/
def WordOk (e : GuardEnv Lid Gid) (l : Lid) : Prop :=
  (lockState (e.lock l) = HybridLock.exclusive ∧ e.held.countP (·.lock = l) = 1 ∧
      ∀ x ∈ e.held, x.lock = l → x.mode = .exclusive) ∨
    ((lockState (e.lock l)).toNat = e.held.countP (·.lock = l) ∧
      e.held.countP (·.lock = l) ≤ 254 ∧ ∀ x ∈ e.held, x.lock = l → x.mode = .shared)

/-- Tickets are handed out in order: nothing carries a ticket that is still to come. -/
structure TicketsOk (e : GuardEnv Lid Gid) : Prop where
  armed : ∀ g h, e.Armed g h → h.ticket < e.nextTicket
  acquired : ∀ x : Hold Lid, e.nextTicket ≤ x.ticket → e.log.count (.acquired x) = 0
  snapshot : ∀ k, e.nextTicket ≤ k → e.log.count (.snapshot k) = 0

omit [DecidableEq Lid] in
lemma armed_setGuard_inactive {e : GuardEnv Lid Gid} {g : Gid} {new : Option (HybridGuard Lid)}
    (hold : ∀ h, ¬ e.Armed g h) (hnew : ∀ h, new = some h → h.mode = .moved) (g' : Gid)
    (h : HybridGuard Lid) : (e.setGuard g new).Armed g' h ↔ e.Armed g' h := by
  by_cases heq : g' = g
  · subst heq
    refine iff_of_false (fun ⟨hg, hmode⟩ => hmode (hnew h ?_)) (hold h)
    simpa [setGuard] using hg
  · simp [Armed, setGuard, Function.update_of_ne heq]

omit [DecidableEq Lid] in
lemma armed_update_disarm {e : GuardEnv Lid Gid} {g : Gid} {h₀ : HybridGuard Lid} {g' : Gid}
    {h : HybridGuard Lid} :
    (e.setGuard g (some h₀.disarm)).Armed g' h ↔ g' ≠ g ∧ e.Armed g' h := by
  by_cases heq : g' = g
  · subst heq
    refine iff_of_false (fun ⟨hg, hmode⟩ => hmode ?_) (fun hne => hne.1 rfl)
    have : h₀.disarm = h := by simpa [setGuard] using hg
    rw [← this]
    rfl
  · simp [Armed, setGuard, heq]

omit [DecidableEq Lid] in
lemma armed_update_new {e : GuardEnv Lid Gid} {g : Gid} {h₀ : HybridGuard Lid} {g' : Gid}
    {h : HybridGuard Lid} (hfree : e.guard g = none) (hmode : h₀.mode ≠ .moved) :
    (e.setGuard g (some h₀)).Armed g' h ↔ (g' = g ∧ h = h₀) ∨ e.Armed g' h := by
  by_cases heq : g' = g
  · subst heq
    constructor
    · rintro ⟨hg, -⟩
      have : h₀ = h := by simpa [setGuard] using hg
      exact .inl ⟨rfl, this.symm⟩
    · rintro (⟨-, rfl⟩ | ⟨hg, -⟩)
      · exact ⟨by simp [setGuard], hmode⟩
      · rw [hfree] at hg
        cases hg
  · simp [Armed, setGuard, heq]

omit [DecidableEq Gid] in
/-- The word of a lock that is not written and keeps its holds. -/
lemma WordOk.of_held {e e' : GuardEnv Lid Gid} {l : Lid} (h : e.WordOk l)
    (hlock : e'.lock l = e.lock l)
    (hcount : e'.held.countP (·.lock = l) = e.held.countP (·.lock = l))
    (hsub : ∀ x ∈ e'.held, x.lock = l → x ∈ e.held) : e'.WordOk l := by
  unfold WordOk
  rw [hlock, hcount]
  rcases h with ⟨hword, hone, hmode⟩ | ⟨hword, hle, hmode⟩
  · exact .inl ⟨hword, hone, fun x hx hxl => hmode x (hsub x hx hxl) hxl⟩
  · exact .inr ⟨hword, hle, fun x hx hxl => hmode x (hsub x hx hxl) hxl⟩

end GuardEnv

structure GuardInv (e : GuardEnv Lid Gid) : Prop where
  notAborted : e.aborted = false
  tickets : e.TicketsOk
  balance : ∀ x, e.log.count (.acquired x) = e.log.count (.released x) + e.held.count x
  acquiredOnce : ∀ x, e.log.count (.acquired x) ≤ 1
  validatedOnce : ∀ k, e.log.count (.validated k) ≤ e.log.count (.snapshot k) ∧
    e.log.count (.snapshot k) ≤ 1
  distinct : ∀ g g' h h', e.Armed g h → e.Armed g' h' → h.ticket = h'.ticket → g = g'
  owned : ∀ g h, e.Armed g h → h.Owns → h.hold ∈ e.held
  owner : ∀ x ∈ e.held, ∃ g h, e.Armed g h ∧ h.Owns ∧ h.hold = x
  optimistic : ∀ g h, e.Armed g h → h.mode = .optimistic →
    e.log.count (.snapshot h.ticket) = 1 ∧ e.log.count (.validated h.ticket) = 0
  word : ∀ l, e.WordOk l

omit [DecidableEq Lid] in
lemma HybridGuard.Owns.armed {h : HybridGuard Lid} (hown : h.Owns) : h.mode ≠ .moved := by
  rcases hown with hmode | hmode <;> rw [hmode] <;> decide

namespace GuardInv

omit [DecidableEq Gid] in
lemma init : GuardInv (GuardEnv.init : GuardEnv Lid Gid) where
  notAborted := rfl
  tickets := ⟨fun _ _ h => (nomatch h.1), fun _ _ => rfl, fun _ _ => rfl⟩
  balance := fun _ => rfl
  acquiredOnce := fun _ => Nat.zero_le 1
  validatedOnce := fun _ => ⟨Nat.le_refl 0, Nat.zero_le 1⟩
  distinct := fun _ _ _ _ h => nomatch h.1
  owned := fun _ _ h => nomatch h.1
  owner := fun x hx => absurd hx (Multiset.notMem_zero x)
  optimistic := fun _ _ h => nomatch h.1
  word := fun _ => .inr ⟨congrArg BitVec.toNat lockState_init, Nat.zero_le _,
    fun x hx => absurd hx (Multiset.notMem_zero x)⟩

variable {e : GuardEnv Lid Gid}

omit [DecidableEq Gid] in
/-- A lock with a hold on it shows the mode of the hold. -/
lemma word_of_held (hinv : GuardInv e) {x : Hold Lid} (hx : x ∈ e.held) :
    (x.mode = .exclusive ∧ lockState (e.lock x.lock) = HybridLock.exclusive ∧
        e.held.countP (·.lock = x.lock) = 1) ∨
      (x.mode = .shared ∧ (lockState (e.lock x.lock)).toNat = e.held.countP (·.lock = x.lock) ∧
        0 < e.held.countP (·.lock = x.lock) ∧ e.held.countP (·.lock = x.lock) ≤ 254) := by
  rcases hinv.word x.lock with ⟨hword, hone, hmode⟩ | ⟨hword, hle, hmode⟩
  · exact .inl ⟨hmode x hx rfl, hword, hone⟩
  · exact .inr ⟨hmode x hx rfl, hword, Multiset.countP_pos.mpr ⟨x, hx, rfl⟩, hle⟩

omit [DecidableEq Gid] in
lemma heldIn (hinv : GuardInv e) {x : Hold Lid} (hx : x ∈ e.held) : e.HeldIn x.lock x.mode := by
  rcases hinv.word_of_held hx with ⟨hmode, hword, -⟩ | ⟨hmode, hword, hlow, hhigh⟩
  · rw [hmode]
    exact (isExclusivelyLocked_iff _).mpr hword
  · rw [hmode]
    exact (isSharedLocked_iff _).mpr (by omega)

omit [DecidableEq Gid] in
theorem cleanReleases (hinv : GuardInv e) : e.CleanReleases where
  notAborted := hinv.notAborted
  acquiredOnce := hinv.acquiredOnce
  releasedOnce := fun x => by
    have := hinv.balance x
    omega
  owned := fun g h hg hown => by
    have hmem := hinv.owned g h ⟨hg, hown.armed⟩ hown
    have hpos := Multiset.count_pos.mpr hmem
    have hbal := hinv.balance h.hold
    have hle := hinv.acquiredOnce h.hold
    exact ⟨by omega, by omega, hinv.heldIn hmem⟩
  validatedOnce := hinv.validatedOnce
  drained := fun hnone => by
    have hempty : e.held = 0 := by
      refine Multiset.eq_zero_of_forall_notMem fun x hx => ?_
      obtain ⟨g, h, ⟨hg, -⟩, -⟩ := hinv.owner x hx
      rw [hnone g] at hg
      cases hg
    refine ⟨fun l => ?_, fun x => ?_⟩
    · rcases hinv.word l with ⟨-, hone, -⟩ | ⟨hword, -, -⟩
      · rw [hempty, Multiset.countP_zero] at hone
        cases hone
      · rw [hempty, Multiset.countP_zero] at hword
        exact BitVec.eq_of_toNat_eq hword
    · have := hinv.balance x
      rw [hempty, Multiset.count_zero] at this
      omega

/-! ### Preservation -/

/-- A guard that is not armed is replaced by one that is not armed, or disappears. -/
lemma setInactive (hinv : GuardInv e) {g : Gid} {new : Option (HybridGuard Lid)}
    (hold : ∀ h, ¬ e.Armed g h) (hnew : ∀ h, new = some h → h.mode = .moved) :
    GuardInv (e.setGuard g new) := by
  have harmed := GuardEnv.armed_setGuard_inactive hold hnew
  exact {
    notAborted := hinv.notAborted
    tickets := ⟨fun g' h hg' => hinv.tickets.armed g' h ((harmed g' h).mp hg'),
      hinv.tickets.acquired, hinv.tickets.snapshot⟩
    balance := hinv.balance
    acquiredOnce := hinv.acquiredOnce
    validatedOnce := hinv.validatedOnce
    distinct := fun g₁ g₂ h₁ h₂ hg₁ hg₂ =>
      hinv.distinct g₁ g₂ h₁ h₂ ((harmed g₁ h₁).mp hg₁) ((harmed g₂ h₂).mp hg₂)
    owned := fun g' h hg' => hinv.owned g' h ((harmed g' h).mp hg')
    owner := fun x hx => by
      obtain ⟨g', h, hg', hrest⟩ := hinv.owner x hx
      exact ⟨g', h, (harmed g' h).mpr hg', hrest⟩
    optimistic := fun g' h hg' => hinv.optimistic g' h ((harmed g' h).mp hg')
    word := hinv.word }

omit [DecidableEq Gid] in
/-- Throwing an exception is not an event of any lock. -/
lemma emit (hinv : GuardInv e) {ev : GuardEvent Lid} (hev : ev = .restart ∨ ev = .logicError) :
    GuardInv (e.emit ev) := by
  have hacq : ∀ x, (e.emit ev).log.count (.acquired x) = e.log.count (.acquired x) := by
    rcases hev with rfl | rfl <;> simp [GuardEnv.emit]
  have hrel : ∀ x, (e.emit ev).log.count (.released x) = e.log.count (.released x) := by
    rcases hev with rfl | rfl <;> simp [GuardEnv.emit]
  have hsnap : ∀ k, (e.emit ev).log.count (.snapshot k) = e.log.count (.snapshot k) := by
    rcases hev with rfl | rfl <;> simp [GuardEnv.emit]
  have hval : ∀ k, (e.emit ev).log.count (.validated k) = e.log.count (.validated k) := by
    rcases hev with rfl | rfl <;> simp [GuardEnv.emit]
  exact {
    notAborted := hinv.notAborted
    tickets := ⟨hinv.tickets.armed, fun x hx => (hacq x).trans (hinv.tickets.acquired x hx),
      fun k hk => (hsnap k).trans (hinv.tickets.snapshot k hk)⟩
    balance := fun x => by
      rw [hacq, hrel]
      exact hinv.balance x
    acquiredOnce := fun x => by
      rw [hacq]
      exact hinv.acquiredOnce x
    validatedOnce := fun k => by
      rw [hval, hsnap]
      exact hinv.validatedOnce k
    distinct := hinv.distinct
    owned := hinv.owned
    owner := hinv.owner
    optimistic := fun g h hg hmode => by
      rw [hsnap, hval]
      exact hinv.optimistic g h hg hmode
    word := hinv.word }

/-- An optimistic guard is validated, and thereby disarmed. -/
lemma validated (hinv : GuardInv e) {g : Gid} {h : HybridGuard Lid} (hg : e.guard g = some h)
    (hmode : h.mode = .optimistic) :
    GuardInv ((e.emit (.validated h.ticket)).setGuard g (some h.disarm)) := by
  set e' := (e.emit (.validated h.ticket)).setGuard g (some h.disarm) with he'
  have hthis : e.Armed g h := ⟨hg, by rw [hmode]; decide⟩
  have harmed : ∀ g' h', e'.Armed g' h' ↔ g' ≠ g ∧ e.Armed g' h' :=
    fun g' h' => GuardEnv.armed_update_disarm
  obtain ⟨hsnapThis, hvalThis⟩ := hinv.optimistic g h hthis hmode
  have hacq : ∀ x, e'.log.count (.acquired x) = e.log.count (.acquired x) := by
    simp [he', GuardEnv.emit, GuardEnv.setGuard]
  have hrel : ∀ x, e'.log.count (.released x) = e.log.count (.released x) := by
    simp [he', GuardEnv.emit, GuardEnv.setGuard]
  have hsnap : ∀ k, e'.log.count (.snapshot k) = e.log.count (.snapshot k) := by
    simp [he', GuardEnv.emit, GuardEnv.setGuard]
  have hval : ∀ k, k ≠ h.ticket → e'.log.count (.validated k) = e.log.count (.validated k) :=
    fun k hk => List.count_cons_of_ne (by simpa using hk.symm)
  have hvalSelf : e'.log.count (.validated h.ticket) = 1 := by
    show List.count _ (_ :: _) = 1
    rw [List.count_cons_self]
    omega
  exact {
    notAborted := hinv.notAborted
    tickets := ⟨fun g' h' hg' => hinv.tickets.armed g' h' ((harmed g' h').mp hg').2,
      fun x hx => (hacq x).trans (hinv.tickets.acquired x hx),
      fun k hk => (hsnap k).trans (hinv.tickets.snapshot k hk)⟩
    balance := fun x => by
      rw [hacq, hrel]
      exact hinv.balance x
    acquiredOnce := fun x => by
      rw [hacq]
      exact hinv.acquiredOnce x
    validatedOnce := fun k => by
      by_cases hk : k = h.ticket
      · subst hk
        rw [hvalSelf, hsnap, hsnapThis]
        omega
      · rw [hval k hk, hsnap]
        exact hinv.validatedOnce k
    distinct := fun g₁ g₂ h₁ h₂ hg₁ hg₂ =>
      hinv.distinct g₁ g₂ h₁ h₂ ((harmed g₁ h₁).mp hg₁).2 ((harmed g₂ h₂).mp hg₂).2
    owned := fun g' h' hg' => hinv.owned g' h' ((harmed g' h').mp hg').2
    owner := fun x hx => by
      obtain ⟨g', h', hg', hown, hhold⟩ := hinv.owner x hx
      refine ⟨g', h', (harmed g' h').mpr ⟨?_, hg'⟩, hown, hhold⟩
      -- the owner is not `g`, which is optimistic
      rintro rfl
      have : h = h' := Option.some.inj (hg.symm.trans hg'.1)
      rw [HybridGuard.Owns, ← this, hmode] at hown
      rcases hown with hown | hown <;> cases hown
    optimistic := fun g' h' hg' hmode' => by
      obtain ⟨hne, hg''⟩ := (harmed g' h').mp hg'
      rw [hsnap, hval _ fun heq => hne (hinv.distinct g' g h' h hg'' hthis heq)]
      exact hinv.optimistic g' h' hg'' hmode'
    word := hinv.word }

/-- An owning guard released its lock, and is thereby disarmed.  What the word is afterwards is
left to the two modes. -/
lemma released (hinv : GuardInv e) {g : Gid} {h : HybridGuard Lid} {w : Word}
    (hg : e.guard g = some h) (hown : h.Owns) (hword : (e.released g h w).WordOk h.lock) :
    GuardInv (e.released g h w) := by
  set e' := e.released g h w with he'
  have hthis : e.Armed g h := ⟨hg, hown.armed⟩
  have hmem := hinv.owned g h hthis hown
  have harmed : ∀ g' h', e'.Armed g' h' ↔ g' ≠ g ∧ e.Armed g' h' :=
    fun g' h' => GuardEnv.armed_update_disarm
  have hacq : ∀ x, e'.log.count (.acquired x) = e.log.count (.acquired x) := by
    simp [he', GuardEnv.released]
  have hsnap : ∀ k, e'.log.count (.snapshot k) = e.log.count (.snapshot k) := by
    simp [he', GuardEnv.released]
  have hval : ∀ k, e'.log.count (.validated k) = e.log.count (.validated k) := by
    simp [he', GuardEnv.released]
  have hbalance : ∀ x, e'.log.count (.released x) + e'.held.count x
      = e.log.count (.released x) + e.held.count x := fun x => by
    show List.count _ (_ :: _) + Multiset.count x (e.held.erase h.hold) = _
    by_cases hx : x = h.hold
    · subst hx
      have hpos := Multiset.count_pos.mpr hmem
      rw [List.count_cons_self, Multiset.count_erase_self]
      omega
    · rw [List.count_cons_of_ne (by simpa using Ne.symm hx), Multiset.count_erase_of_ne hx]
  exact {
    notAborted := hinv.notAborted
    tickets := ⟨fun g' h' hg' => hinv.tickets.armed g' h' ((harmed g' h').mp hg').2,
      fun x hx => (hacq x).trans (hinv.tickets.acquired x hx),
      fun k hk => (hsnap k).trans (hinv.tickets.snapshot k hk)⟩
    balance := fun x => by
      rw [hacq, hbalance]
      exact hinv.balance x
    acquiredOnce := fun x => by
      rw [hacq]
      exact hinv.acquiredOnce x
    validatedOnce := fun k => by
      rw [hval, hsnap]
      exact hinv.validatedOnce k
    distinct := fun g₁ g₂ h₁ h₂ hg₁ hg₂ =>
      hinv.distinct g₁ g₂ h₁ h₂ ((harmed g₁ h₁).mp hg₁).2 ((harmed g₂ h₂).mp hg₂).2
    owned := fun g' h' hg' hown' => by
      obtain ⟨hne, hg''⟩ := (harmed g' h').mp hg'
      refine (Multiset.mem_erase_of_ne fun heq => hne ?_).mpr (hinv.owned g' h' hg'' hown')
      exact hinv.distinct g' g h' h hg'' hthis (congrArg Hold.ticket heq)
    owner := fun x hx => by
      obtain ⟨g', h', hg', hown', hhold⟩ := hinv.owner x (Multiset.mem_of_mem_erase hx)
      refine ⟨g', h', (harmed g' h').mpr ⟨?_, hg'⟩, hown', hhold⟩
      -- the hold of `g` occurs once, so it is gone
      rintro rfl
      have hsame : h = h' := Option.some.inj (hg.symm.trans hg'.1)
      subst hsame
      have hpos := Multiset.count_pos.mpr hx
      have hbal := hinv.balance h.hold
      have hle := hinv.acquiredOnce h.hold
      rw [← hhold] at hpos
      have hself : (e.held.erase h.hold).count h.hold = e.held.count h.hold - 1 :=
        Multiset.count_erase_self ..
      have hpos' : 0 < (e.held.erase h.hold).count h.hold := hpos
      omega
    optimistic := fun g' h' hg' hmode' => by
      rw [hsnap, hval]
      exact hinv.optimistic g' h' ((harmed g' h').mp hg').2 hmode'
    word := fun l => by
      by_cases hl : l = h.lock
      · exact hl ▸ hword
      · have hlock : e'.lock l = e.lock l := Function.update_of_ne hl ..
        have hcount : e'.held.countP (·.lock = l) = e.held.countP (·.lock = l) := by
          show (e.held.erase h.hold).countP (·.lock = l) = _
          rw [← Multiset.cons_erase hmem, Multiset.erase_cons_head,
            Multiset.countP_cons_of_neg _ (fun heq => hl heq.symm)]
        exact (hinv.word l).of_held hlock hcount fun x hx _ => Multiset.mem_of_mem_erase hx }

omit [DecidableEq Gid] in
/-- The released lock carries one hold less. -/
lemma countP_erase_hold {h : HybridGuard Lid} (hmem : h.hold ∈ e.held) :
    (e.held.erase h.hold).countP (·.lock = h.lock) + 1 = e.held.countP (·.lock = h.lock) := by
  have hcons := congrArg (Multiset.countP (·.lock = h.lock)) (Multiset.cons_erase hmem)
  rw [Multiset.countP_cons, if_pos (show h.hold.lock = h.lock from rfl)] at hcons
  exact hcons

lemma unlockShared (hinv : GuardInv e) {g : Gid} {h : HybridGuard Lid} (hg : e.guard g = some h)
    (hmode : h.mode = .shared) :
    isSharedLocked (e.lock h.lock) = true ∧
      GuardInv (e.released g h
        (HybridLock.unlockShared false (e.lock h.lock) (e.lock h.lock)).2) := by
  have hown : h.Owns := .inl hmode
  have hmem := hinv.owned g h ⟨hg, hown.armed⟩ hown
  have hheld := hinv.heldIn hmem
  rw [show h.hold.mode = .shared from hmode] at hheld
  refine ⟨hheld, hinv.released hg hown (.inr ?_)⟩
  rcases hinv.word_of_held hmem with ⟨hx, -⟩ | ⟨-, hword, hpos, hle⟩
  · rw [show h.hold.mode = .shared from hmode] at hx
    cases hx
  · rw [show h.hold.lock = h.lock from rfl] at hword hpos hle
    have hcount := countP_erase_hold hmem
    have hstate := (lockState_dropReader (v := e.lock h.lock) (by omega)).1
    refine ⟨?_, (show (e.held.erase h.hold).countP (·.lock = h.lock) ≤ 254 by omega),
      fun x hx hl => ?_⟩
    · show (lockState (Function.update e.lock h.lock _ h.lock)).toNat
        = (e.held.erase h.hold).countP (·.lock = h.lock)
      rw [Function.update_self, unlockShared_self, hstate]
      omega
    · rcases hinv.word h.lock with ⟨-, -, hall⟩ | ⟨-, -, hall⟩
      · have := hall h.hold hmem rfl
        rw [show h.hold.mode = .shared from hmode] at this
        cases this
      · exact hall x (Multiset.mem_of_mem_erase hx) hl

lemma unlockExclusive (hinv : GuardInv e) {g : Gid} {h : HybridGuard Lid}
    (hg : e.guard g = some h) (hmode : h.mode = .exclusive) (hroom : VersionRoom (e.lock h.lock)) :
    isExclusivelyLocked (e.lock h.lock) = true ∧
      GuardInv (e.released g h (HybridLock.unlockExclusive (e.lock h.lock))) := by
  have hown : h.Owns := .inr hmode
  have hmem := hinv.owned g h ⟨hg, hown.armed⟩ hown
  have hheld := hinv.heldIn hmem
  rw [show h.hold.mode = .exclusive from hmode] at hheld
  refine ⟨hheld, hinv.released hg hown (.inr ?_)⟩
  rcases hinv.word_of_held hmem with ⟨-, -, hone⟩ | ⟨hx, -⟩
  · rw [show h.hold.lock = h.lock from rfl] at hone
    have hcount := countP_erase_hold hmem
    have hnone : (e.held.erase h.hold).countP (·.lock = h.lock) = 0 := by omega
    refine ⟨?_, (hnone.le.trans (Nat.zero_le _)), fun x hx hl => ?_⟩
    · show (lockState (Function.update e.lock h.lock _ h.lock)).toNat
        = (e.held.erase h.hold).countP (·.lock = h.lock)
      have hroom' : (version (e.lock h.lock)).toNat + 1 < 2 ^ 56 := hroom
      rw [Function.update_self, lockState_unlockExclusive, if_pos hroom', hnone]
      rfl
    · exact absurd hl (Multiset.countP_eq_zero.mp hnone x hx)
  · rw [show h.hold.mode = .exclusive from hmode] at hx
    cases hx

/-- `Unlock`, when the version has room: afterwards the guard is armed only if it is optimistic. -/
theorem unlock (hinv : GuardInv e) {g : Gid} {h : HybridGuard Lid} (hg : e.guard g = some h)
    (hroom : h.mode = .exclusive → VersionRoom (e.lock h.lock)) :
    GuardInv (e.unlock g h) ∧ (h.mode ≠ .optimistic → ∀ h', ¬ (e.unlock g h).Armed g h') := by
  have hnotArmed : ∀ w h', ¬ (e.released g h w).Armed g h' := fun w h' hg' =>
    (GuardEnv.armed_update_disarm.mp hg').1 rfl
  cases hmode : h.mode with
  | optimistic =>
      simp only [GuardEnv.unlock, hmode]
      exact ⟨hinv, fun hne => absurd rfl hne⟩
  | moved =>
      simp only [GuardEnv.unlock, hmode]
      refine ⟨hinv, fun _ h' hg' => hg'.2 ?_⟩
      rw [← Option.some.inj (hg.symm.trans hg'.1), hmode]
  | shared =>
      obtain ⟨hheld, hinv'⟩ := hinv.unlockShared hg hmode
      simp only [GuardEnv.unlock, hmode, if_pos hheld]
      exact ⟨hinv', fun _ => hnotArmed _⟩
  | exclusive =>
      obtain ⟨hheld, hinv'⟩ := hinv.unlockExclusive hg hmode (hroom hmode)
      simp only [GuardEnv.unlock, hmode, if_pos hheld]
      exact ⟨hinv', fun _ => hnotArmed _⟩

/-- `ValidateOptimisticLock`, whether it throws or not: afterwards the guard is not optimistic. -/
theorem validateOptimisticLock (hinv : GuardInv e) {g : Gid} {h : HybridGuard Lid}
    (hg : e.guard g = some h) :
    GuardInv (e.validateOptimisticLock g h).2 ∧
      (h.mode = .optimistic → ∀ h', ¬ (e.validateOptimisticLock g h).2.Armed g h') := by
  unfold GuardEnv.validateOptimisticLock
  by_cases hmode : h.mode = .optimistic
  · have hinv' := hinv.validated hg hmode
    have hnot : ∀ h', ¬ ((e.emit (.validated h.ticket)).setGuard g (some h.disarm)).Armed g h' :=
      fun h' hg' => (GuardEnv.armed_update_disarm.mp hg').1 rfl
    rw [if_neg (not_not_intro hmode)]
    dsimp only
    split_ifs
    · exact ⟨hinv'.emit (.inl rfl), fun _ h' hg' => hnot h' hg'⟩
    · exact ⟨hinv', fun _ => hnot⟩
  · rw [if_pos hmode]
    exact ⟨hinv, fun hopt => absurd hopt hmode⟩

section new

variable {e' : GuardEnv Lid Gid} {g : Gid} {new : HybridGuard Lid}

omit [DecidableEq Gid] in
/-- With a new guard, all tickets are still below the next one. -/
lemma ticket_lt_new (hinv : GuardInv e) (hticket : new.ticket = e.nextTicket)
    (harmed : ∀ g' h', e'.Armed g' h' ↔ (g' = g ∧ h' = new) ∨ e.Armed g' h') (g' : Gid)
    (h' : HybridGuard Lid) (hg' : e'.Armed g' h') : h'.ticket < e.nextTicket + 1 := by
  rcases (harmed g' h').mp hg' with ⟨-, rfl⟩ | hg''
  · rw [hticket]
    exact Nat.lt_succ_self _
  · exact Nat.lt_succ_of_lt (hinv.tickets.armed g' h' hg'')

omit [DecidableEq Gid] in
/-- No other guard has the ticket of a new one. -/
lemma distinct_new (hinv : GuardInv e) (hticket : new.ticket = e.nextTicket)
    (harmed : ∀ g' h', e'.Armed g' h' ↔ (g' = g ∧ h' = new) ∨ e.Armed g' h') (g₁ g₂ : Gid)
    (h₁ h₂ : HybridGuard Lid) (hg₁ : e'.Armed g₁ h₁) (hg₂ : e'.Armed g₂ h₂)
    (heq : h₁.ticket = h₂.ticket) : g₁ = g₂ := by
  have hother : ∀ g' h', e.Armed g' h' → h'.ticket ≠ new.ticket := by
    intro g' h' hg'
    rw [hticket]
    exact Nat.ne_of_lt (hinv.tickets.armed g' h' hg')
  rcases (harmed g₁ h₁).mp hg₁ with ⟨rfl, rfl⟩ | ha₁ <;>
    rcases (harmed g₂ h₂).mp hg₂ with ⟨rfl, rfl⟩ | ha₂
  · rfl
  · exact absurd heq.symm (hother g₂ h₂ ha₂)
  · exact absurd heq (hother g₁ h₁ ha₁)
  · exact hinv.distinct g₁ g₂ h₁ h₂ ha₁ ha₂ heq

end new

/-- A constructor takes a snapshot. -/
lemma snapshot (hinv : GuardInv e) {g : Gid} (hfree : e.guard g = none) {l : Lid} :
    GuardInv { (e.emit (.snapshot e.nextTicket)).setGuard g
      (some ⟨l, .optimistic, e.lock l, e.nextTicket⟩) with nextTicket := e.nextTicket + 1 } := by
  set new : HybridGuard Lid := ⟨l, .optimistic, e.lock l, e.nextTicket⟩ with hnew
  set e' : GuardEnv Lid Gid := { (e.emit (.snapshot e.nextTicket)).setGuard g (some new) with
    nextTicket := e.nextTicket + 1 } with he'
  have harmed : ∀ g' h', e'.Armed g' h' ↔ (g' = g ∧ h' = new) ∨ e.Armed g' h' :=
    fun g' h' => GuardEnv.armed_update_new hfree (by simp [hnew])
  have hacq : ∀ x, e'.log.count (.acquired x) = e.log.count (.acquired x) := by
    simp [he', GuardEnv.emit, GuardEnv.setGuard]
  have hrel : ∀ x, e'.log.count (.released x) = e.log.count (.released x) := by
    simp [he', GuardEnv.emit, GuardEnv.setGuard]
  have hval : ∀ k, e'.log.count (.validated k) = e.log.count (.validated k) := by
    simp [he', GuardEnv.emit, GuardEnv.setGuard]
  have hsnap : ∀ k, k ≠ e.nextTicket → e'.log.count (.snapshot k) = e.log.count (.snapshot k) :=
    fun k hk => List.count_cons_of_ne (by simpa using hk.symm)
  have hold := hinv.tickets.snapshot e.nextTicket (Nat.le_refl _)
  have hsnapSelf : e'.log.count (.snapshot e.nextTicket) = 1 := by
    show List.count _ (_ :: _) = 1
    rw [List.count_cons_self, hold]
  exact {
    notAborted := hinv.notAborted
    tickets := ⟨hinv.ticket_lt_new rfl harmed,
      fun x hx => (hacq x).trans (hinv.tickets.acquired x (Nat.le_of_succ_le hx)),
      fun k hk =>
        (hsnap k (Nat.ne_of_gt hk)).trans (hinv.tickets.snapshot k (Nat.le_of_succ_le hk))⟩
    balance := fun x => by
      rw [hacq, hrel]
      exact hinv.balance x
    acquiredOnce := fun x => by
      rw [hacq]
      exact hinv.acquiredOnce x
    validatedOnce := fun k => by
      rw [hval]
      by_cases hk : k = e.nextTicket
      · subst hk
        have := (hinv.validatedOnce e.nextTicket).1
        rw [hsnapSelf]
        omega
      · rw [hsnap k hk]
        exact hinv.validatedOnce k
    distinct := hinv.distinct_new rfl harmed
    owned := fun g' h' hg' hown => by
      rcases (harmed g' h').mp hg' with ⟨-, rfl⟩ | hg''
      · rcases hown with hown | hown <;> cases hown
      · exact hinv.owned g' h' hg'' hown
    owner := fun x hx => by
      obtain ⟨g', h', hg', hrest⟩ := hinv.owner x hx
      exact ⟨g', h', (harmed g' h').mpr (.inr hg'), hrest⟩
    optimistic := fun g' h' hg' hmode => by
      rcases (harmed g' h').mp hg' with ⟨-, rfl⟩ | hg''
      · have := (hinv.validatedOnce e.nextTicket).1
        rw [hval]
        exact ⟨hsnapSelf, by show e.log.count (.validated e.nextTicket) = 0; omega⟩
      · rw [hval, hsnap _ (Nat.ne_of_lt (hinv.tickets.armed g' h' hg''))]
        exact hinv.optimistic g' h' hg'' hmode
    word := hinv.word }

/-- A constructor takes a lock.  What the word is afterwards is left to the two modes. -/
lemma acquire (hinv : GuardInv e) {g : Gid} (hfree : e.guard g = none) {l : Lid}
    {mode : GuardMode} {w : Word} (hmode : mode = .shared ∨ mode = .exclusive)
    (hword : (e.acquire g l mode w).WordOk l) : GuardInv (e.acquire g l mode w) := by
  set new : HybridGuard Lid := ⟨l, mode, 0, e.nextTicket⟩ with hnew
  set e' := e.acquire g l mode w with he'
  have hown : new.Owns := hmode
  have harmed : ∀ g' h', e'.Armed g' h' ↔ (g' = g ∧ h' = new) ∨ e.Armed g' h' :=
    fun g' h' => GuardEnv.armed_update_new hfree hown.armed
  have hrel : ∀ x, e'.log.count (.released x) = e.log.count (.released x) := by
    simp [he', GuardEnv.acquire]
  have hsnap : ∀ k, e'.log.count (.snapshot k) = e.log.count (.snapshot k) := by
    simp [he', GuardEnv.acquire]
  have hval : ∀ k, e'.log.count (.validated k) = e.log.count (.validated k) := by
    simp [he', GuardEnv.acquire]
  have hacq : ∀ x, x ≠ new.hold → e'.log.count (.acquired x) = e.log.count (.acquired x) :=
    fun x hx => List.count_cons_of_ne fun heq => hx (GuardEvent.acquired.inj heq).symm
  have hacqSelf : e'.log.count (.acquired new.hold) = e.log.count (.acquired new.hold) + 1 :=
    List.count_cons_self
  have hfresh : e.log.count (.acquired new.hold) = 0 :=
    hinv.tickets.acquired new.hold (Nat.le_refl _)
  exact {
    notAborted := hinv.notAborted
    tickets := ⟨hinv.ticket_lt_new rfl harmed,
      fun x hx => by
        have hne : x ≠ new.hold := fun heq => by
          rw [heq] at hx
          exact absurd hx (Nat.not_succ_le_self _)
        exact (hacq x hne).trans (hinv.tickets.acquired x (Nat.le_of_succ_le hx)),
      fun k hk => (hsnap k).trans (hinv.tickets.snapshot k (Nat.le_of_succ_le hk))⟩
    balance := fun x => by
      rw [hrel]
      show _ = _ + Multiset.count x (new.hold ::ₘ e.held)
      have hbal := hinv.balance x
      by_cases hx : x = new.hold
      · subst hx
        rw [hacqSelf, Multiset.count_cons_self]
        omega
      · rw [hacq x hx, Multiset.count_cons_of_ne hx]
        exact hbal
    acquiredOnce := fun x => by
      by_cases hx : x = new.hold
      · subst hx
        rw [hacqSelf, hfresh]
      · rw [hacq x hx]
        exact hinv.acquiredOnce x
    validatedOnce := fun k => by
      rw [hval, hsnap]
      exact hinv.validatedOnce k
    distinct := hinv.distinct_new rfl harmed
    owned := fun g' h' hg' hown' => by
      rcases (harmed g' h').mp hg' with ⟨-, rfl⟩ | hg''
      · exact Multiset.mem_cons_self _ _
      · exact Multiset.mem_cons_of_mem (hinv.owned g' h' hg'' hown')
    owner := fun x hx => by
      rcases Multiset.mem_cons.mp hx with rfl | hx
      · exact ⟨g, new, (harmed g new).mpr (.inl ⟨rfl, rfl⟩), hown, rfl⟩
      · obtain ⟨g', h', hg', hrest⟩ := hinv.owner x hx
        exact ⟨g', h', (harmed g' h').mpr (.inr hg'), hrest⟩
    optimistic := fun g' h' hg' hopt => by
      rcases (harmed g' h').mp hg' with ⟨-, rfl⟩ | hg''
      · rw [HybridGuard.Owns, hopt] at hown
        rcases hown with hown | hown <;> cases hown
      · rw [hsnap, hval]
        exact hinv.optimistic g' h' hg'' hopt
    word := fun l' => by
      by_cases hl : l' = l
      · exact hl ▸ hword
      · have hlock : e'.lock l' = e.lock l' := Function.update_of_ne hl ..
        have hcount : e'.held.countP (·.lock = l') = e.held.countP (·.lock = l') :=
          Multiset.countP_cons_of_neg _ fun heq => hl heq.symm
        have hmem : ∀ x ∈ e'.held, x.lock = l' → x ∈ e.held := fun x hx hxl => by
          rcases Multiset.mem_cons.mp hx with rfl | hx
          · exact absurd hxl (Ne.symm hl)
          · exact hx
        exact (hinv.word l').of_held hlock hcount hmem }

omit [DecidableEq Gid] in
/-- The taken lock carries one hold more. -/
lemma countP_cons_hold (held : Multiset (Hold Lid)) (k : ℕ) (l : Lid) (mode : GuardMode) :
    (⟨k, l, mode⟩ ::ₘ held).countP (·.lock = l) = held.countP (·.lock = l) + 1 := by
  rw [Multiset.countP_cons]
  exact congrArg _ (if_pos rfl)

theorem construct {e' : GuardEnv Lid Gid} (hinv : GuardInv e) {g : Gid} (hfree : e.guard g = none)
    {l : Lid} {mode : GuardMode} (h : e.construct g l mode = some e') : GuardInv e' := by
  cases mode with
  | optimistic =>
      simp only [GuardEnv.construct] at h
      split_ifs at h
      cases h
      exact hinv.snapshot hfree
  | shared =>
      simp only [GuardEnv.construct] at h
      rcases tryLockShared_cases (e.lock l) (e.lock l) with hcas | ⟨hroom, hcas⟩
      · rw [hcas] at h
        cases h
      · rw [hcas] at h
        cases h
        have hlt : (lockState (e.lock l)).toNat < 254 := hroom
        obtain ⟨hstate, -⟩ := lockState_addReader (v := e.lock l) (by omega)
        rcases hinv.word l with ⟨hx, -, -⟩ | ⟨hword, hle, hall⟩
        · rw [hx] at hlt
          exact absurd hlt (by decide)
        · have hcount := countP_cons_hold e.held e.nextTicket l .shared
          refine hinv.acquire hfree (.inl rfl) (.inr ⟨?_, ?_, fun x hx hl => ?_⟩)
          · show (lockState (Function.update e.lock l _ l)).toNat = Multiset.countP _ (_ ::ₘ _)
            rw [Function.update_self, hstate, hcount, hword]
          · show Multiset.countP _ (_ ::ₘ _) ≤ 254
            rw [hcount]
            omega
          · rcases Multiset.mem_cons.mp hx with rfl | hx
            · rfl
            · exact hall x hx hl
  | exclusive =>
      simp only [GuardEnv.construct] at h
      rcases tryLockExclusive_cases (e.lock l) (e.lock l) with hcas | ⟨hunlocked, hcas⟩
      · rw [hcas] at h
        cases h
      · rw [hcas] at h
        cases h
        rcases hinv.word l with ⟨hx, -, -⟩ | ⟨hword, hle, hall⟩
        · rw [hunlocked] at hx
          exact absurd hx (by decide)
        · have hnone : e.held.countP (·.lock = l) = 0 := by
            rw [← hword, hunlocked]
            rfl
          refine hinv.acquire hfree (.inr rfl) (.inl ⟨?_, ?_, fun x hx hl => ?_⟩)
          · show lockState (Function.update e.lock l _ l) = _
            rw [Function.update_self, lockState_sameVersionNewState _ (by decide)]
          · show Multiset.countP _ (_ ::ₘ _) = 1
            rw [countP_cons_hold, hnone]
          · rcases Multiset.mem_cons.mp hx with rfl | hx
            · rfl
            · exact absurd hl (Multiset.countP_eq_zero.mp hnone x hx)
  | moved =>
      simp only [GuardEnv.construct, Option.some.injEq] at h
      exact h ▸ hinv.emit (.inr rfl)

omit [DecidableEq Lid] in
/-- Assigning a guard to itself copies its fields onto themselves. -/
lemma copyFields_self (e : GuardEnv Lid Gid) (g : Gid) : e.copyFields g g = e := by
  unfold GuardEnv.copyFields
  split
  · next other hg => simp [GuardEnv.setGuard, ← hg]
  · rfl

/-- A disarmed source is copied over a target that is not armed. -/
lemma copyFields (hinv : GuardInv e) {dst src : Gid} (hdst : ∀ h, ¬ e.Armed dst h)
    (hsrc : ∀ h, e.guard src = some h → h.mode = .moved) : GuardInv (e.copyFields dst src) := by
  unfold GuardEnv.copyFields
  split
  · next other hother =>
      exact hinv.setInactive hdst fun h heq => hsrc h (by rw [hother, heq])
  · exact hinv

omit [DecidableEq Lid] in
lemma guard_validateOptimisticLock {g g' : Gid} (h : HybridGuard Lid) (hne : g' ≠ g) :
    (e.validateOptimisticLock g h).2.guard g' = e.guard g' := by
  have hset : (e.setGuard g (some h.disarm)).guard g' = e.guard g' := Function.update_of_ne hne ..
  unfold GuardEnv.validateOptimisticLock
  dsimp only
  split_ifs
  · rfl
  · exact hset
  · exact hset

omit [DecidableEq Lid] in
lemma validateOptimisticLock_of_mustRestart {g : Gid} {h : HybridGuard Lid}
    (hmode : h.mode = .optimistic)
    (hmust : HybridGuard.mustRestart h.state (e.lock h.lock) = true) :
    (e.validateOptimisticLock g h).1 = true := by
  have hmust' : HybridGuard.mustRestart h.state
      (((e.emit (.validated h.ticket)).setGuard g (some h.disarm)).lock h.lock) = true := hmust
  rw [GuardEnv.validateOptimisticLock, if_neg (not_not_intro hmode)]
  dsimp only
  rw [if_pos hmust']

/-- `operator=`: a self-assignment, an exception of the validation, or a disarmed source and nothing
to release in the target. -/
theorem moveAssign (hinv : GuardInv e) {dst src : Gid} {this : HybridGuard Lid}
    (hdst : e.guard dst = some this) (hclean : CleanStep e (.moveAssign dst src)) :
    GuardInv (e.moveAssign dst src this) := by
  unfold GuardEnv.moveAssign
  by_cases hopt : this.mode = .optimistic
  · rw [if_pos hopt]
    obtain ⟨hinv', hnot⟩ := hinv.validateOptimisticLock hdst
    have hother : ∀ g', g' ≠ dst → (e.validateOptimisticLock dst this).2.guard g' = e.guard g' :=
      fun g' hne => guard_validateOptimisticLock this hne
    generalize hval : e.validateOptimisticLock dst this = r at hinv' hnot hother
    obtain ⟨threw, e'⟩ := r
    cases threw with
    | true => exact hinv'
    | false =>
        show GuardInv (e'.copyFields dst src)
        rcases eq_or_ne src dst with rfl | hne
        · rw [copyFields_self]
          exact hinv'
        · rcases hclean with heq | ⟨h, hh, hmode, hmust⟩ | ⟨hsrc, -⟩
          · exact absurd heq.symm hne
          · obtain rfl : this = h := Option.some.inj (hdst.symm.trans hh)
            have hthrew := validateOptimisticLock_of_mustRestart (g := dst) hmode hmust
            rw [hval] at hthrew
            cases hthrew
          · exact hinv'.copyFields (hnot hopt) fun h hh => hsrc h (by rw [← hother src hne, hh])
  · rw [if_neg hopt]
    rcases hclean with rfl | ⟨h, hh, hmode, -⟩ | ⟨hsrc, htgt⟩
    · rw [copyFields_self]
      exact hinv
    · exact absurd (Option.some.inj (hdst.symm.trans hh) ▸ hmode) hopt
    · refine hinv.copyFields (fun h hh => ?_) hsrc
      have hsame : this = h := Option.some.inj (hdst.symm.trans hh.1)
      subst hsame
      have hown := htgt this hdst
      cases hmode : this.mode with
      | optimistic => exact hopt hmode
      | shared => exact hown (.inl hmode)
      | exclusive => exact hown (.inr hmode)
      | moved => exact hh.2 hmode

theorem destroy (hinv : GuardInv e) {g : Gid} {h : HybridGuard Lid} (hg : e.guard g = some h)
    (hroom : h.mode = .exclusive → VersionRoom (e.lock h.lock)) : GuardInv (e.destroy g h) := by
  cases hmode : h.mode with
  | optimistic =>
      obtain ⟨hinv', hnot⟩ := hinv.validateOptimisticLock hg
      simp only [GuardEnv.destroy, hmode]
      exact hinv'.setInactive (hnot hmode) nofun
  | _ =>
      obtain ⟨hinv', hnot⟩ := hinv.unlock hg hroom
      simp only [GuardEnv.destroy, hmode]
      exact hinv'.setInactive (hnot (by rw [hmode]; decide)) nofun

/-- **The step lemma.** -/
theorem step {e' : GuardEnv Lid Gid} (hinv : GuardInv e) {a : GuardAct Lid Gid}
    (hclean : CleanStep e a) (h : e.step a = some e') : GuardInv e' := by
  simp only [GuardEnv.step, hinv.notAborted, Bool.false_eq_true, if_false] at h
  cases a with
  | construct g l mode =>
      cases hg : e.guard g with
      | none =>
          simp only [GuardEnv.exec, hg] at h
          exact hinv.construct hg h
      | some _ =>
          simp only [GuardEnv.exec, hg] at h
          cases h
  | moveAssign dst src =>
      simp only [GuardEnv.exec] at h
      split at h
      · next this _ hdst hsrc =>
          cases h
          exact hinv.moveAssign hdst hclean
      · cases h
  | unlock g =>
      simp only [GuardEnv.exec, Option.map_eq_some_iff] at h
      obtain ⟨x, hg, rfl⟩ := h
      exact (hinv.unlock hg (hclean x hg)).1
  | validateOptimisticLock g =>
      simp only [GuardEnv.exec, Option.map_eq_some_iff] at h
      obtain ⟨x, hg, rfl⟩ := h
      exact (hinv.validateOptimisticLock hg).1
  | destroy g =>
      simp only [GuardEnv.exec, Option.map_eq_some_iff] at h
      obtain ⟨x, hg, rfl⟩ := h
      exact hinv.destroy hg (hclean x hg)

end GuardInv

/-! ## Guards release every acquisition exactly once -/

/-- **Clean releases.**  In every program whose steps are all clean, the guards release each
acquisition exactly once. -/
theorem guards_release_once {tr : List (GuardAct Lid Gid)} {e : GuardEnv Lid Gid}
    (hclean : EveryStep GuardEnv.step CleanStep GuardEnv.init tr)
    (hrun : run GuardEnv.step GuardEnv.init tr = some e) : e.CleanReleases :=
  (run_invariant_of_everyStep (I := GuardInv) (fun _ _ _ hinv hok h => hinv.step hok h)
    GuardInv.init hclean hrun).cleanReleases

/-- Two readers of one lock, one of them gone. -/
theorem guards_release_once_readers :
    ∃ e : GuardEnv ℕ ℕ, run GuardEnv.step GuardEnv.init
        [.construct 0 0 .shared, .construct 1 0 .shared, .destroy 0] = some e ∧
      lockState (e.lock 0) = 1 ∧ e.CleanReleases := by
  have hrun : run GuardEnv.step (GuardEnv.init : GuardEnv ℕ ℕ)
      [.construct 0 0 .shared, .construct 1 0 .shared, .destroy 0] = some _ := rfl
  refine ⟨_, hrun, rfl, guards_release_once ?_ hrun⟩
  refine .cons trivial fun _ h₀ => .cons trivial fun _ h₁ => .cons ?_ fun _ _ => .nil
  cases h₀
  cases h₁
  rintro h hg hmode
  cases hg
  cases hmode

/-- `guard0 = HybridGuard(&lock1, EXCLUSIVE)` while `guard0` holds `lock0`: the temporary is
destroyed with the fields it was copied from, so `guard0` owns a lock that is free, and nobody
owns `lock0`, which stays locked. -/
theorem move_assign_from_temporary :
    ∃ e : GuardEnv ℕ ℕ, run GuardEnv.step GuardEnv.init
        [.construct 0 0 .exclusive, .construct 1 1 .exclusive, .moveAssign 0 1, .destroy 1]
        = some e ∧
      (∃ h, e.guard 0 = some h ∧ h.lock = 1 ∧ h.mode = .exclusive) ∧
      lockState (e.lock 1) = unlocked ∧ lockState (e.lock 0) = HybridLock.exclusive ∧
      ¬ e.CleanReleases := by
  refine ⟨_, rfl, ⟨_, rfl, rfl, rfl⟩, rfl, rfl, fun hclean => ?_⟩
  have hheld := (hclean.owned 0 _ rfl (.inr rfl)).2.2
  exact absurd hheld Bool.false_ne_true

end OptLock
