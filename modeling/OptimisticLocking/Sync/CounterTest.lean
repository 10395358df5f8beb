import OptimisticLocking.Sync.Unwinding
import Mathlib.Algebra.BigOperators.Fin
import Mathlib.Algebra.Order.BigOperators.Group.Finset

/-!
# The counter of the lock test

`NormalOperation` and `HeavyOperation` of `test/lock.cc`.  Threads with an even index take the lock
exclusively and increment a counter that is not atomic, those with an odd index take it shared and
read the counter.  The main thread sleeps, clears `is_running` and joins them.

* `CounterSt.step` — one access of a thread: to the lock word, to the counter, or to `is_running`.
* `CounterSt.givesUp` — a thread finds `is_running` cleared in its `while` loop.  It then goes on
  without the lock.
* **`counter_exact`** — as long as no thread gives up, no increment is lost and no check fails.
-/

namespace OptLock

open Transition HybridLock

/-- The two tests.  `NormalOperation` has no `for` loop and goes through its section once. -/
inductive CounterTest
  | normalOperation
  | heavyOperation (noOps : ℕ)
  deriving DecidableEq, Repr

/-- What a thread does next.  `idx` counts the times it went through its section. -/
inductive CounterPc
  /-- The condition of the `for` loop. -/
  | loop (idx : ℕ)
  | load (idx : ℕ)
  /-- `TryLockExclusive` or `TryLockShared`. -/
  | tryLock (idx : ℕ) (oldStatW : Word)
  /-- The condition of the `while` loop; `flag` is false. -/
  | spin (idx : ℕ)
  /-- The load of `counter++`, or the first one of `EXPECT_TRUE`. -/
  | counter (idx : ℕ)
  /-- The store of `counter++`, or the second load of `EXPECT_TRUE`. -/
  | counted (idx : ℕ) (value : ℤ)
  /-- In front of `UnlockExclusive` or `UnlockShared`, or inside it. -/
  | unlock (idx : ℕ)
  | finished (idx : ℕ)
  deriving DecidableEq, Repr

/-- `failed`: some `EXPECT_TRUE` has failed.  `counter` is an `int`; `counter_exact` says that it
stays in the range of one. -/
structure CounterSt (n : ℕ) where
  lock : LockSt (Fin n)
  counter : ℤ
  isRunning : Bool
  failed : Bool
  pc : Fin n → CounterPc

inductive CounterAct (n : ℕ)
  | work (t : Fin n) (spurious : Bool)
  /-- The main thread clears `is_running`. -/
  | stop
  deriving DecidableEq

namespace CounterTest

def noOps : CounterTest → ℕ
  | .normalOperation => 1
  | .heavyOperation noOps => noOps

/-- What the checks of the test compare the counter with; `n` is `NO_THREADS`. -/
def expected (n : ℕ) : CounterTest → ℕ
  | .normalOperation => n / 2
  | .heavyOperation noOps => n * noOps / 2

def start : CounterTest → CounterPc
  | .normalOperation => .spin 0
  | .heavyOperation _ => .loop 0

/-- Behind the section. -/
def again (idx : ℕ) : CounterTest → CounterPc
  | .normalOperation => .finished (idx + 1)
  | .heavyOperation _ => .loop (idx + 1)

/-- How thread `t` takes the lock. -/
def mode {n : ℕ} (t : Fin n) : GuardMode := if t.val % 2 = 0 then .exclusive else .shared

def tryLock {n : ℕ} (t : Fin n) (old : Word) : LockAct (Fin n) :=
  if t.val % 2 = 0 then .tryLockExclusive t old else .tryLockShared t old

def unlock {n : ℕ} (t : Fin n) : LockAct (Fin n) :=
  if t.val % 2 = 0 then .release t .unlockExclusive else .unlockShared t

end CounterTest

namespace CounterSt

variable {n : ℕ}

def init (test : CounterTest) : CounterSt n :=
  { lock := .init, counter := 0, isRunning := true, failed := false, pc := fun _ => test.start }

def setPc (s : CounterSt n) (t : Fin n) (pc : CounterPc) : CounterSt n :=
  { s with pc := Function.update s.pc t pc }

/-- The next access of thread `t`. -/
def work (test : CounterTest) (s : CounterSt n) (t : Fin n) (spurious : Bool) :
    Option (CounterSt n) :=
  match s.pc t with
  | .loop idx =>
      some (s.setPc t (if idx < test.noOps ∧ s.isRunning then .load idx else .finished idx))
  | .load idx => some (s.setPc t (.tryLock idx s.lock.stateAndVersion))
  | .tryLock idx old => do
      let a := CounterTest.tryLock t old
      let lock ← s.lock.step a
      let flag := s.lock.returned a = some true
      some { s.setPc t (if flag then .counter idx else .spin idx) with lock := lock }
  | .spin idx => some (s.setPc t (if s.isRunning then .load idx else .counter idx))
  | .counter idx =>
      if CounterTest.mode t = .exclusive ∨ 0 ≤ s.counter then
        some (s.setPc t (.counted idx s.counter))
      else some { s.setPc t (.unlock idx) with failed := true }
  | .counted idx value =>
      if CounterTest.mode t = .exclusive then
        some { s.setPc t (.unlock idx) with counter := value + 1 }
      else
        some { s.setPc t (.unlock idx) with
          failed := s.failed || decide (test.expected n < s.counter) }
  | .unlock idx => do
      let a := if s.lock.pc t = .idle then CounterTest.unlock t else .resume t spurious
      let lock ← s.lock.step a
      some { s.setPc t (if lock.pc t = .idle then test.again idx else .unlock idx) with
        lock := lock }
  | .finished _ => none

def step (test : CounterTest) (s : CounterSt n) : CounterAct n → Option (CounterSt n)
  | .work t spurious => s.work test t spurious
  | .stop => some { s with isRunning := false }

/-- The thread leaves its `while` loop without the lock. -/
def givesUp (s : CounterSt n) : CounterAct n → Bool
  | .work t _ =>
      match s.pc t with
      | .spin _ => !s.isRunning
      | _ => false
  | .stop => false

end CounterSt

/-! ## What holds while nobody gives up -/

namespace CounterPc

/-- The thread has taken the lock and not given it back. -/
def inside : CounterPc → Bool
  | .counter _ | .counted _ _ | .unlock _ => true
  | _ => false

/-- How often the thread has incremented the counter, if it takes the lock in `mode`. -/
def increments (mode : GuardMode) : CounterPc → ℕ
  | .loop idx | .load idx | .tryLock idx _ | .spin idx | .counter idx | .counted idx _
  | .finished idx => if mode = .exclusive then idx else 0
  | .unlock idx => if mode = .exclusive then idx + 1 else 0

end CounterPc

namespace CounterSt

variable {n : ℕ}

/-- The increments of all threads. -/
def increments (pc : Fin n → CounterPc) : ℕ := ∑ t, (pc t).increments (CounterTest.mode t)

/-- What is known of a thread from where it is. -/
def ThreadOk (test : CounterTest) (s : CounterSt n) : CounterPc → Prop
  | .loop idx => idx ≤ test.noOps
  | .load idx | .tryLock idx _ | .spin idx | .counter idx | .unlock idx => idx < test.noOps
  | .counted idx value => idx < test.noOps ∧ value = s.counter
  | .finished idx => idx ≤ test.noOps ∧ (s.isRunning = true → idx = test.noOps)

end CounterSt

structure CounterInv {n : ℕ} (test : CounterTest) (s : CounterSt n) : Prop where
  lock : LockInv s.lock
  holds : ∀ t mode, s.lock.holds t mode
    = if (s.pc t).inside = true ∧ mode = CounterTest.mode t then 1 else 0
  unlocking : ∀ t, s.lock.pc t = .idle ∨
    Unlocking (CounterTest.mode t) (s.lock.pc t) ∧ ∃ idx, s.pc t = .unlock idx
  counter : s.counter = CounterSt.increments s.pc
  thread : ∀ t, s.ThreadOk test (s.pc t)
  failed : s.failed = false

namespace CounterTest

variable {n : ℕ} {t : Fin n}

lemma mode_cases (t : Fin n) :
    (mode t = .exclusive ∧ ∀ old, tryLock t old = .tryLockExclusive t old) ∨
      (mode t = .shared ∧ ∀ old, tryLock t old = .tryLockShared t old) := by
  by_cases ht : t.val % 2 = 0
  · exact .inl ⟨if_pos ht, fun _ => if_pos ht⟩
  · exact .inr ⟨if_neg ht, fun _ => if_neg ht⟩

lemma unlockCall_mode (t : Fin n) : (mode t).unlockCall t = some (unlock t) := by
  rw [mode, unlock]
  split_ifs <;> rfl

lemma thread_tryLock (t : Fin n) (old : Word) : (tryLock t old).thread = t := by
  rw [tryLock]
  split_ifs <;> rfl

lemma thread_unlock (t : Fin n) : (unlock t).thread = t := by
  rw [unlock]
  split_ifs <;> rfl

lemma held_tryLock (s : LockSt (Fin n)) (t : Fin n) (old : Word) : s.Held (tryLock t old) := by
  rw [tryLock]
  split_ifs <;> trivial

/-- A refused attempt changes nothing. -/
lemma tryLock_refused {s s' : LockSt (Fin n)} {old : Word}
    (h : s.step (tryLock t old) = some s') (hret : s.returned (tryLock t old) ≠ some true) :
    s' = s := by
  refine LockSt.step_of_returned_false ?_ h
  rcases mode_cases t with ⟨-, htry⟩ | ⟨-, htry⟩
  all_goals
    rw [htry] at hret ⊢
    exact congrArg some (Bool.eq_false_iff.mpr fun htrue => hret (congrArg some htrue))

/-- An attempt that succeeds gives the thread its hold. -/
lemma tryLock_granted {s s' : LockSt (Fin n)} {old : Word}
    (h : s.step (tryLock t old) = some s') (hret : s.returned (tryLock t old) = some true) :
    s'.pc t = s.pc t ∧
      ∀ mode', s'.holds t mode' = s.holds t mode' + if mode' = mode t then 1 else 0 := by
  rcases mode_cases t with ⟨hmode, htry⟩ | ⟨hmode, htry⟩
  · rw [htry] at h hret
    rw [hmode]
    cases LockSt.step_effect h with
    | refused _ hfalse =>
        rw [hfalse] at hret
        cases hret
    | lockExclusive _ _ hpc hfree =>
        refine ⟨rfl, fun mode' => ?_⟩
        cases mode' with
        | exclusive => exact Multiset.count_cons_self ..
        | _ => rfl
  · rw [htry] at h hret
    rw [hmode]
    cases LockSt.step_effect h with
    | refused _ hfalse =>
        rw [hfalse] at hret
        cases hret
    | lockShared _ _ hpc hroom =>
        refine ⟨rfl, fun mode' => ?_⟩
        cases mode' with
        | shared => exact Multiset.count_cons_self ..
        | _ => rfl

end CounterTest

namespace CounterInv

variable {n : ℕ} {test : CounterTest} {s s' : CounterSt n} {t u : Fin n} {pc : CounterPc}

lemma init : CounterInv test (CounterSt.init test : CounterSt n) where
  lock := .init
  holds := by
    intro t mode
    cases test <;> cases mode <;> rfl
  unlocking := fun _ => .inl rfl
  counter := by
    show (0 : ℤ) = (∑ t : Fin n, test.start.increments (CounterTest.mode t) : ℕ)
    cases test <;> simp [CounterTest.start, CounterPc.increments]
  thread := by
    intro t
    cases test with
    | normalOperation => exact Nat.one_pos
    | heavyOperation noOps => exact Nat.zero_le _
  failed := rfl

lemma increments_update (pc : Fin n → CounterPc) (t : Fin n) (p : CounterPc) :
    CounterSt.increments (Function.update pc t p) + (pc t).increments (CounterTest.mode t) =
      CounterSt.increments pc + p.increments (CounterTest.mode t) := by
  have hsum := sum_add_eq_sum_add (g := fun u =>
      (Function.update pc t p u).increments (CounterTest.mode u))
    (f := fun u => (pc u).increments (CounterTest.mode u)) t
    fun u hu => by rw [Function.update_of_ne hu]
  rwa [Function.update_self] at hsum

/-- The thread inside with an exclusive hold is the only one inside. -/
lemma eq_of_inside (h : CounterInv test s) (hmode : CounterTest.mode t = .exclusive)
    (ht : (s.pc t).inside = true) (hu : (s.pc u).inside = true) : u = t := by
  have hmem : t ∈ s.lock.exclusive := by
    have hcount := h.holds t .exclusive
    rw [if_pos ⟨ht, hmode.symm⟩] at hcount
    exact Multiset.count_pos.mp (Nat.one_pos.trans_eq hcount.symm)
  obtain ⟨hexclusive, hshared, -⟩ := h.lock.heldExclusively_of_mem hmem
  have hcount := h.holds u (CounterTest.mode u)
  rw [if_pos ⟨hu, rfl⟩] at hcount
  rcases CounterTest.mode_cases u with ⟨hmode', -⟩ | ⟨hmode', -⟩
  · rw [hmode'] at hcount
    have hmem' : u ∈ s.lock.exclusive := Multiset.count_pos.mp (Nat.one_pos.trans_eq hcount.symm)
    rwa [hexclusive, Multiset.mem_singleton] at hmem'
  · rw [hmode'] at hcount
    have hmem' : u ∈ s.lock.shared := Multiset.count_pos.mp (Nat.one_pos.trans_eq hcount.symm)
    rw [hshared] at hmem'
    exact absurd hmem' (Multiset.notMem_zero u)

/-- A step of thread `t`.  It may store to the counter if it holds the lock exclusively. -/
lemma of_step (h : CounterInv test s) (hlock : LockInv s'.lock)
    (hpc : s'.pc = Function.update s.pc t pc) (hrunning : s'.isRunning = s.isRunning)
    (hframe : ∀ u, u ≠ t → s'.lock.pc u = s.lock.pc u ∧
      ∀ mode, s'.lock.holds u mode = s.lock.holds u mode)
    (hholds : ∀ mode, s'.lock.holds t mode
      = if pc.inside = true ∧ mode = CounterTest.mode t then 1 else 0)
    (hunlocking : s'.lock.pc t = .idle ∨
      Unlocking (CounterTest.mode t) (s'.lock.pc t) ∧ ∃ idx, pc = .unlock idx)
    (hcounter : s'.counter + (s.pc t).increments (CounterTest.mode t)
      = s.counter + pc.increments (CounterTest.mode t))
    (hstore : s'.counter = s.counter ∨
      CounterTest.mode t = .exclusive ∧ (s.pc t).inside = true)
    (hok : s'.ThreadOk test pc) (hfailed : s'.failed = false) : CounterInv test s' where
  lock := hlock
  holds := by
    intro u mode
    by_cases hu : u = t
    · subst hu
      rw [hholds, hpc, Function.update_self]
    · rw [(hframe u hu).2, h.holds, hpc, Function.update_of_ne hu]
  unlocking := by
    intro u
    by_cases hu : u = t
    · subst hu
      rwa [hpc, Function.update_self]
    · rw [(hframe u hu).1, hpc, Function.update_of_ne hu]
      exact h.unlocking u
  counter := by
    have htotal := increments_update s.pc t pc
    rw [← hpc] at htotal
    have hnow := h.counter
    omega
  thread := by
    intro u
    by_cases hu : u = t
    · subst hu
      rwa [hpc, Function.update_self]
    · rw [hpc, Function.update_of_ne hu]
      have hsame := h.thread u
      cases hat : s.pc u with
      | counted idx value =>
          rw [hat] at hsame
          refine ⟨hsame.1, hsame.2.trans ?_⟩
          rcases hstore with hstore | ⟨hmode, hinside⟩
          · exact hstore.symm
          · exact absurd (h.eq_of_inside hmode hinside (by rw [hat]; rfl)) hu
      | finished idx =>
          rw [hat] at hsame
          exact ⟨hsame.1, hrunning ▸ hsame.2⟩
      | _ =>
          rw [hat] at hsame
          exact hsame
  failed := hfailed

/-- A step that does not touch the lock. -/
lemma of_local (h : CounterInv test s) (hlock : s'.lock = s.lock)
    (hpc : s'.pc = Function.update s.pc t pc) (hrunning : s'.isRunning = s.isRunning)
    (hinside : pc.inside = (s.pc t).inside) (hunlock : ∀ idx, s.pc t ≠ .unlock idx)
    (hcounter : s'.counter + (s.pc t).increments (CounterTest.mode t)
      = s.counter + pc.increments (CounterTest.mode t))
    (hstore : s'.counter = s.counter ∨
      CounterTest.mode t = .exclusive ∧ (s.pc t).inside = true)
    (hok : s'.ThreadOk test pc) (hfailed : s'.failed = false) : CounterInv test s' := by
  have hidle : s.lock.pc t = .idle := by
    rcases h.unlocking t with hidle | ⟨-, idx, hat⟩
    · exact hidle
    · exact absurd hat (hunlock idx)
  refine h.of_step ?_ hpc hrunning ?_ ?_ ?_ hcounter hstore hok hfailed
  all_goals rw [hlock]
  · exact h.lock
  · exact fun u _ => ⟨rfl, fun _ => rfl⟩
  · exact fun mode => by rw [h.holds, hinside]
  · exact .inl hidle

/-- A step that changes nothing but where the thread is. -/
lemma setPc (h : CounterInv test s) {old : CounterPc} (hat : s.pc t = old)
    (hinside : pc.inside = old.inside) (hunlock : ∀ idx, old ≠ .unlock idx)
    (hincrements : pc.increments (CounterTest.mode t) = old.increments (CounterTest.mode t))
    (hok : s.ThreadOk test pc) : CounterInv test (s.setPc t pc) := by
  subst hat
  exact h.of_local rfl rfl rfl hinside hunlock (by rw [hincrements]; rfl) (.inl rfl) hok h.failed

lemma increments_le_of_ok (h : s.ThreadOk test pc) (mode : GuardMode) :
    pc.increments mode ≤ if mode = .exclusive then test.noOps else 0 := by
  cases pc <;> simp only [CounterSt.ThreadOk] at h <;> simp only [CounterPc.increments] <;>
    split_ifs <;> omega

lemma sum_range_even (m k : ℕ) :
    ∑ i ∈ Finset.range (m + m), (if i % 2 = 0 then k else 0) = m * k := by
  induction m with
  | zero => rw [Nat.zero_mul, Finset.sum_range_zero]
  | succ m ih =>
      have hsplit : m + 1 + (m + 1) = m + m + 1 + 1 := by omega
      have heven : (m + m) % 2 = 0 := by omega
      have hodd : (m + m + 1) % 2 ≠ 0 := by omega
      rw [hsplit, Finset.sum_range_succ, Finset.sum_range_succ, ih, if_pos heven, if_neg hodd,
        Nat.succ_mul, Nat.add_zero]

/-- Half of the threads increment. -/
lemma sum_exclusive (hn : Even n) (k : ℕ) :
    ∑ t : Fin n, (if CounterTest.mode t = .exclusive then k else 0) = n * k / 2 := by
  have hmode : ∀ t : Fin n, (if CounterTest.mode t = .exclusive then k else 0)
      = if t.val % 2 = 0 then k else 0 := by
    intro t
    rw [CounterTest.mode]
    split_ifs <;> simp_all
  rw [Finset.sum_congr rfl fun t _ => hmode t,
    Fin.sum_univ_eq_sum_range (fun i => if i % 2 = 0 then k else 0) n]
  obtain ⟨m, rfl⟩ := hn
  rw [sum_range_even, Nat.add_mul, ← Nat.two_mul, Nat.mul_div_cancel_left _ Nat.two_pos]

lemma expected_eq (test : CounterTest) (n : ℕ) : test.expected n = n * test.noOps / 2 := by
  cases test with
  | normalOperation => rw [CounterTest.expected, CounterTest.noOps, Nat.mul_one]
  | heavyOperation noOps => rfl

lemma increments_le (h : CounterInv test s) (hn : Even n) :
    CounterSt.increments s.pc ≤ test.expected n := by
  rw [expected_eq, ← sum_exclusive hn]
  exact Finset.sum_le_sum fun t _ => increments_le_of_ok (h.thread t) _

/-- The attempt that succeeds. -/
lemma locked (h : CounterInv test s) {idx : ℕ} {old : Word} (hat : s.pc t = .tryLock idx old)
    {lock : LockSt (Fin n)} (hlock : s.lock.step (CounterTest.tryLock t old) = some lock)
    (hret : s.lock.returned (CounterTest.tryLock t old) = some true) :
    CounterInv test { s.setPc t (.counter idx) with lock := lock } := by
  have hclient : s.lock.clientStep (CounterTest.tryLock t old) = some lock :=
    restrict_eq_some.mpr ⟨CounterTest.held_tryLock .., hlock⟩
  obtain ⟨hpc, hholds⟩ := CounterTest.tryLock_granted hlock hret
  have hok := h.thread t
  rw [hat] at hok
  refine h.of_step (h.lock.step hclient) rfl rfl ?_ ?_ (.inl ?_) (by rw [hat]; rfl) (.inl rfl) hok
    h.failed
  · intro u hu
    exact LockSt.clientStep_frame (by rw [CounterTest.thread_tryLock]; exact hu.symm) hclient
  · intro mode
    rw [hholds, h.holds, hat]
    simp [CounterPc.inside]
  · show lock.pc t = .idle
    rw [hpc]
    rcases h.unlocking t with hidle | ⟨-, idx', hat'⟩
    · exact hidle
    · rw [hat] at hat'
      cases hat'

/-- An access of `UnlockExclusive` or `UnlockShared`. -/
lemma unlock (h : CounterInv test s) {idx : ℕ} (hat : s.pc t = .unlock idx) {spurious : Bool}
    {lock : LockSt (Fin n)}
    (hlock : s.lock.step (if s.lock.pc t = .idle then CounterTest.unlock t
      else .resume t spurious) = some lock) :
    CounterInv test { s.setPc t
      (if lock.pc t = .idle then test.again idx else .unlock idx) with lock := lock } := by
  have hcount := h.holds t (CounterTest.mode t)
  rw [hat, if_pos ⟨rfl, rfl⟩] at hcount
  have hpos : 0 < s.lock.holds t (CounterTest.mode t) := Nat.one_pos.trans_eq hcount.symm
  have hcall := CounterTest.unlockCall_mode t
  have hclient : s.lock.clientStep (if s.lock.pc t = .idle then CounterTest.unlock t
      else .resume t spurious) = some lock := by
    refine restrict_eq_some.mpr ⟨?_, hlock⟩
    split_ifs
    · exact LockSt.held_of_unlockCall hcall hpos
    · trivial
  have hthread : (if s.lock.pc t = .idle then CounterTest.unlock t
      else .resume t spurious).thread = t := by
    split_ifs
    · exact CounterTest.thread_unlock t
    · rfl
  have hframe : ∀ u, u ≠ t → lock.pc u = s.lock.pc u ∧
      ∀ mode, lock.holds u mode = s.lock.holds u mode := fun u hu =>
    LockSt.clientStep_frame (by rw [hthread]; exact hu.symm) hclient
  have hok := h.thread t
  rw [hat] at hok
  have heffect := LockSt.unlock_effect h.lock hcall ((h.unlocking t).imp_right And.left) hlock hpos
  rcases LockSt.holds_of_unlockEffect heffect hpos with
    ⟨hbusy, hunlocking, -, hholds⟩ | ⟨hidle, hholds⟩
  · rw [if_neg hbusy]
    refine h.of_step (h.lock.step hclient) rfl rfl hframe ?_ (.inr ⟨hunlocking, idx, rfl⟩)
      (by rw [hat]; rfl) (.inl rfl) hok h.failed
    intro mode
    rw [hholds, h.holds, hat]
  · rw [if_pos hidle]
    refine h.of_step (h.lock.step hclient) rfl rfl hframe ?_ (.inl hidle) ?_ (.inl rfl) ?_ h.failed
    · intro mode
      have hheld := hholds mode
      have hinside : (CounterPc.unlock idx).inside = true := rfl
      have hout : (test.again idx).inside = false := by cases test <;> rfl
      rw [h.holds, hat, hinside] at hheld
      rw [hout, if_neg fun hand => Bool.false_ne_true hand.1]
      simp only [true_and] at hheld
      exact Nat.add_eq_right.mp hheld
    · rw [hat]
      cases test <;> rfl
    · cases test with
      | normalOperation =>
          have hone : idx + 1 = 1 := congrArg Nat.succ (Nat.lt_one_iff.mp hok)
          exact ⟨hone.le, fun _ => hone⟩
      | heavyOperation noOps => exact hok

/-- **The step lemma.** -/
theorem step (h : CounterInv test s) (hn : Even n) {a : CounterAct n} (hkept : s.givesUp a = false)
    (hstep : s.step test a = some s') : CounterInv test s' := by
  cases a with
  | stop =>
      cases hstep
      refine { h with thread := fun t => ?_ }
      have hok := h.thread t
      cases hat : s.pc t with
      | finished idx =>
          rw [hat] at hok
          exact ⟨hok.1, nofun⟩
      | _ =>
          rw [hat] at hok
          exact hok
  | work t spurious =>
      have hok := h.thread t
      simp only [CounterSt.step, CounterSt.work] at hstep
      cases hat : s.pc t with
      | loop idx =>
          simp only [hat] at hstep
          rw [hat] at hok
          cases hstep
          by_cases hmore : idx < test.noOps ∧ s.isRunning = true
          · rw [if_pos hmore]
            exact h.setPc hat rfl (by simp) rfl hmore.1
          · rw [if_neg hmore]
            refine h.setPc hat rfl (by simp) rfl ⟨hok, fun hrunning => ?_⟩
            exact hok.antisymm (Nat.le_of_not_lt fun hlt => hmore ⟨hlt, hrunning⟩)
      | load idx =>
          simp only [hat] at hstep
          rw [hat] at hok
          cases hstep
          exact h.setPc hat rfl (by simp) rfl hok
      | tryLock idx old =>
          simp only [hat] at hstep
          rw [hat] at hok
          obtain ⟨lock, hlock, hs'⟩ := Option.bind_eq_some_iff.mp hstep
          cases hs'
          by_cases hret : s.lock.returned (CounterTest.tryLock t old) = some true
          · rw [if_pos hret]
            exact h.locked hat hlock hret
          · rw [if_neg hret]
            obtain rfl := CounterTest.tryLock_refused hlock hret
            exact h.setPc hat rfl (by simp) rfl hok
      | spin idx =>
          simp only [hat] at hstep
          rw [hat] at hok
          simp only [CounterSt.givesUp, hat, Bool.not_eq_false'] at hkept
          rw [if_pos hkept] at hstep
          cases hstep
          exact h.setPc hat rfl (by simp) rfl hok
      | counter idx =>
          simp only [hat] at hstep
          rw [hat] at hok
          have hpos : 0 ≤ s.counter := h.counter ▸ Int.natCast_nonneg _
          rw [if_pos (.inr hpos)] at hstep
          cases hstep
          exact h.setPc hat rfl (by simp) rfl ⟨hok, rfl⟩
      | counted idx value =>
          simp only [hat] at hstep
          rw [hat] at hok
          obtain ⟨hlt, rfl⟩ := hok
          by_cases hmode : CounterTest.mode t = .exclusive
          · rw [if_pos hmode] at hstep
            cases hstep
            refine h.of_local rfl rfl rfl (by rw [hat]; rfl) (by simp [hat]) ?_
              (.inr ⟨hmode, by rw [hat]; rfl⟩) hlt h.failed
            rw [hat]
            simp only [CounterPc.increments, if_pos hmode]
            omega
          · rw [if_neg hmode] at hstep
            cases hstep
            refine h.of_local rfl rfl rfl (by rw [hat]; rfl) (by simp [hat]) ?_ (.inl rfl) hlt ?_
            · rw [hat]
              simp only [CounterPc.increments, if_neg hmode]
              rfl
            · have hle := h.increments_le hn
              have hcounter := h.counter
              have hnot : ¬ (test.expected n : ℤ) < s.counter := by omega
              simp [h.failed, hnot]
      | unlock idx =>
          simp only [hat] at hstep
          obtain ⟨lock, hlock, hs'⟩ := Option.bind_eq_some_iff.mp hstep
          cases hs'
          exact h.unlock hat hlock
      | finished idx =>
          simp only [hat] at hstep
          cases hstep

/-- **The run lemma.** -/
theorem run (hn : Even n) {tr : List (CounterAct n)}
    (hrun : Transition.run (CounterSt.step test) (CounterSt.init test) tr = some s)
    (hkept : EveryStep (CounterSt.step test) (fun s a => s.givesUp a = false)
      (CounterSt.init test) tr) : CounterInv test s :=
  run_invariant_of_everyStep (fun _ _ _ hs hok hstep => hs.step hn hok hstep) init hkept hrun

end CounterInv

/-- **No increment is lost.**  An even number of threads run `NormalOperation` or `HeavyOperation`,
where the product in the last check does not overflow; their accesses are interleaved in any way,
and none gives up the lock.  Then at every moment no check has failed, a thread that increments the
counter is alone at it, and the counter is the number of the increments so far, which an `int` can
hold.  When all threads have finished before `is_running` is cleared, it has the value that the last
check of the test expects. -/
theorem counter_exact {n : ℕ} (test : CounterTest) (hn : Even n)
    (hint : n * test.noOps < 2 ^ 31) {tr : List (CounterAct n)} {s : CounterSt n}
    (hrun : run (CounterSt.step test) (CounterSt.init test) tr = some s)
    (hkept : EveryStep (CounterSt.step test) (fun s a => s.givesUp a = false)
      (CounterSt.init test) tr) :
    (s.failed = false ∧ ∀ t, s.lock.pc t ≠ .aborted) ∧
    (∀ t u, CounterTest.mode t = .exclusive → (s.pc t).inside = true → (s.pc u).inside = true →
      u = t) ∧
    (s.counter = CounterSt.increments s.pc ∧ s.counter < 2 ^ 31) ∧
    ((∀ t, ∃ idx, s.pc t = .finished idx) → s.isRunning = true →
      s.counter = test.expected n) := by
  have h := CounterInv.run hn hrun hkept
  refine ⟨⟨h.failed, ?_⟩, fun t u => h.eq_of_inside, ⟨h.counter, ?_⟩, ?_⟩
  · intro t habort
    have hok := h.lock.pcs t
    rw [habort] at hok
    exact hok
  · have hle := h.increments_le hn
    have hcounter := h.counter
    rw [CounterInv.expected_eq] at hle
    omega
  · intro hfinished hrunning
    have hfull : ∀ t ∈ Finset.univ, (s.pc t).increments (CounterTest.mode t)
        = if CounterTest.mode t = .exclusive then test.noOps else 0 := by
      intro t _
      obtain ⟨idx, hat⟩ := hfinished t
      have hok := h.thread t
      rw [hat] at hok
      rw [hat, CounterPc.increments, hok.2 hrunning]
    rw [h.counter, CounterInv.expected_eq, ← CounterInv.sum_exclusive hn,
      CounterSt.increments, Finset.sum_congr rfl hfull]

/-- The reader of `NormalOperation` is refused once, and sees the counter incremented. -/
theorem counter_exact_refused :
    ∃ s : CounterSt 2,
      run (CounterSt.step .normalOperation) (CounterSt.init .normalOperation)
        ([.work 1 false, .work 1 false] ++ List.replicate 3 (.work 0 false) ++ [.work 1 false] ++
          List.replicate 5 (.work 0 false) ++ List.replicate 8 (.work 1 false)) = some s ∧
      s.counter = 1 := by
  let tr : List (CounterAct 2) :=
    [.work 1 false, .work 1 false] ++ List.replicate 3 (.work 0 false) ++ [.work 1 false] ++
      List.replicate 5 (.work 0 false) ++ List.replicate 8 (.work 1 false)
  have hall : (run (CounterSt.step .normalOperation) (CounterSt.init .normalOperation) tr).map
      (fun s => (s.pc 0, s.pc 1, s.isRunning)) = some (.finished 1, .finished 1, true) := by
    decide +kernel
  have hkept : EveryStep (CounterSt.step .normalOperation) (fun s a => s.givesUp a = false)
      (CounterSt.init .normalOperation) tr := by decide +kernel
  obtain ⟨s, hrun, hs⟩ := Option.map_eq_some_iff.mp hall
  obtain ⟨h₀, hs⟩ := Prod.mk.inj hs
  obtain ⟨h₁, hrunning⟩ := Prod.mk.inj hs
  have hfinished : ∀ t, ∃ idx, s.pc t = .finished idx :=
    Fin.forall_fin_two.mpr ⟨⟨1, h₀⟩, ⟨1, h₁⟩⟩
  exact ⟨s, hrun,
    (counter_exact .normalOperation (by decide) (by decide) hrun hkept).2.2.2 hfinished hrunning⟩

/-- A writer that gives up overwrites the increment of thread `0` and releases its lock, so that
the assertion in its `UnlockExclusive` fails. -/
example :
    (run (CounterSt.step .normalOperation) (CounterSt.init .normalOperation)
      (List.replicate 4 (.work 0 false) ++ [.stop, .work 2 false, .work 2 false, .work 0 false] ++
        List.replicate 4 (.work 2 false) ++ [.work 0 false] : List (CounterAct 4))).map
      (fun s => (s.counter, s.pc 2, s.lock.pc 0)) = some (1, .finished 1, .aborted) := by
  decide +kernel

end OptLock
