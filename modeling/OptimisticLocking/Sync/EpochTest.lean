import OptimisticLocking.Sync.Rounds
import Mathlib.Algebra.Order.BigOperators.Group.Finset

/-!
# The semaphores of the epoch test

`TestEpoch NormalOperation` as it is written.  The main thread gives every worker a token, for one
round each, and is to wait until all workers have finished the round.  It waits on
`signal_main_to_thread` though, the semaphores it has just released, and not on
`signal_thread_to_main`: it takes back the tokens that no worker has taken yet.

* `EpochTestSt.step` — one access of a worker or of the main thread.
* `EpochTestInv` — a token is with its worker, or in its semaphore, or the main thread does not
  wait for it any more.
* **`epochTest_deadlocks`** — the test comes to an end in no interleaving.
-/

namespace OptLock

open Transition EpochHandler

/-- Where the main thread is. -/
inductive MainPc
  /-- It releases the semaphore of worker `tid`. -/
  | release (loopEpoch tid : ℕ)
  | acquire (loopEpoch tid : ℕ)
  /-- The assertion on the limbo lists. -/
  | check (loopEpoch : ℕ)
  | join (tid : ℕ)
  /-- All workers are joined; the last assertions come next. -/
  | joined
  | passed
  | failed
  deriving DecidableEq, Repr

/-- Where a worker is in its loop. -/
inductive WorkerPc
  | acquire (loopEpoch : ℕ)
  /-- In the operations on the handler. -/
  | body (loopEpoch : ℕ) (pc : RoundPc)
  /-- It reads the pointer that worker `tid` has for this epoch. -/
  | read (loopEpoch tid : ℕ)
  | release (loopEpoch : ℕ)
  | finished
  deriving DecidableEq, Repr

/-- The handler, the counters of the semaphores, and `n + 1` workers.  The handler has a slot for
each of them, as its constructor makes them for `128` workers at most.  The pointer that worker `t`
has for an epoch is named by `t` and the epoch. -/
structure EpochTestSt (n : ℕ) where
  epochs : EpochSt (n + 1) (Fin (n + 1) × ℕ)
  mainToThread : Fin (n + 1) → ℕ
  threadToMain : Fin (n + 1) → ℕ
  main : MainPc
  worker : Fin (n + 1) → WorkerPc

inductive EpochTestAct (n : ℕ)
  | main
  | work (t : Fin (n + 1))
  deriving DecidableEq, Repr

/-- The head of the loop of the main thread. -/
def MainPc.loop (noEntries loopEpoch : ℕ) : MainPc :=
  if loopEpoch ≤ noEntries then .release loopEpoch 0 else .join 0

/-- The head of the loop of a worker. -/
def WorkerPc.loop (noEntries loopEpoch : ℕ) : WorkerPc :=
  if loopEpoch ≤ noEntries then .acquire loopEpoch else .finished

/-- Behind an operation on the handler.  The reads come before the deferral. -/
def WorkerPc.next (loopEpoch : ℕ) : RoundPc → WorkerPc
  | .deferFreePointer => .read loopEpoch 0
  | .done => .release loopEpoch
  | pc => .body loopEpoch pc

namespace EpochTestSt

variable {n : ℕ}

def init (noEntries : ℕ) : EpochTestSt n :=
  { epochs := .init, mainToThread := fun _ => 0, threadToMain := fun _ => 0,
    main := .loop noEntries 1, worker := fun _ => .loop noEntries 1 }

/-- No limbo list has more than two entries. -/
def Short (s : EpochTestSt n) : Prop := ∀ t, (s.epochs.handler.toFreePtr t).length ≤ 2

instance (s : EpochTestSt n) : Decidable s.Short :=
  inferInstanceAs (Decidable (∀ t, (s.epochs.handler.toFreePtr t).length ≤ 2))

/-- The next access of the main thread. -/
def mainStep (noEntries : ℕ) (s : EpochTestSt n) : Option (EpochTestSt n) :=
  match s.main with
  | .release e tid =>
      if h : tid < n + 1 then
        some { s with
          mainToThread := Function.update s.mainToThread ⟨tid, h⟩ (s.mainToThread ⟨tid, h⟩ + 1)
          main := .release e (tid + 1) }
      else some { s with main := .acquire e 0 }
  | .acquire e tid =>
      if h : tid < n + 1 then
        if 0 < s.mainToThread ⟨tid, h⟩ then
          some { s with
            mainToThread := Function.update s.mainToThread ⟨tid, h⟩ (s.mainToThread ⟨tid, h⟩ - 1)
            main := .acquire e (tid + 1) }
        else none
      else some { s with main := .check e }
  | .check e => some { s with main := if s.Short then .loop noEntries (e + 1) else .failed }
  | .join tid =>
      if h : tid < n + 1 then
        if s.worker ⟨tid, h⟩ = .finished then some { s with main := .join (tid + 1) } else none
      else some { s with main := .joined }
  | .joined =>
      some { s with
        main := if s.epochs.handler.globalEpoch = noEntries ∧ s.Short then .passed else .failed }
  | .passed | .failed => none

/-- The next access of worker `t`. -/
def work (noEntries : ℕ) (s : EpochTestSt n) (t : Fin (n + 1)) : Option (EpochTestSt n) :=
  match s.worker t with
  | .acquire e =>
      if 0 < s.mainToThread t then
        some { s with
          mainToThread := Function.update s.mainToThread t (s.mainToThread t - 1)
          worker := Function.update s.worker t (.body e .freeOutdatedPtr) }
      else none
  | .body e pc => do
      let a ← pc.act t (t, e)
      let epochs ← s.epochs.step a
      some { s with
        epochs := epochs
        worker := Function.update s.worker t (.next e (pc.next t epochs)) }
  | .read e tid =>
      if h : tid < n + 1 then
        if ∀ d ∈ s.epochs.freed, d.ptr ≠ (⟨tid, h⟩, e) then
          some { s with worker := Function.update s.worker t (.read e (tid + 1)) }
        else none
      else some { s with worker := Function.update s.worker t (.body e .deferFreePointer) }
  | .release e =>
      some { s with
        threadToMain := Function.update s.threadToMain t (s.threadToMain t + 1)
        worker := Function.update s.worker t (.loop noEntries (e + 1)) }
  | .finished => none

def step (noEntries : ℕ) (s : EpochTestSt n) : EpochTestAct n → Option (EpochTestSt n)
  | .main => s.mainStep noEntries
  | .work t => s.work noEntries t

end EpochTestSt

/-! ## The tokens -/

/-- The tokens that a worker has taken. -/
def WorkerPc.taken (noEntries : ℕ) : WorkerPc → ℕ
  | .acquire e => e - 1
  | .body e _ | .read e _ | .release e => e
  | .finished => noEntries

/-- How often a worker has told the main thread that it is through. -/
def WorkerPc.notified (noEntries : ℕ) : WorkerPc → ℕ
  | .acquire e | .body e _ | .read e _ | .release e => e - 1
  | .finished => noEntries

/-- The token of worker `tid` is out: the main thread has not taken it back. -/
def MainPc.pending (tid : ℕ) : MainPc → ℕ
  | .release _ k => if tid < k then 1 else 0
  | .acquire _ k => if tid < k then 0 else 1
  | _ => 0

/-- Where the main thread may be: it never gets beyond the first `join`. -/
def MainPc.Ok (noEntries : ℕ) : MainPc → Prop
  | .release e _ | .acquire e _ | .check e => 0 < e ∧ e ≤ noEntries
  | .join tid => tid = 0
  | .joined | .passed | .failed => False

/-- What is known of a worker from where it is: it is inside its guard, or inside
`FreeOutdatedPtr`, and so many pointers wait in its limbo list. -/
def WorkerPc.Ok (guard : GuardPc) (reclaim : ReclaimPc) (limbo : ℕ) : WorkerPc → Prop
  | .acquire e => 0 < e ∧ guard = .outside ∧ reclaim = .idle ∧ limbo = e - 1
  | .body e .freeOutdatedPtr | .body e .enter =>
      0 < e ∧ guard = .outside ∧ reclaim = .idle ∧ limbo = 0
  | .body e .reclaim => 0 < e ∧ guard = .outside ∧ reclaim ≠ .idle ∧ limbo = 0
  | .body e .publish =>
      0 < e ∧ (∃ epoch, guard = .entering epoch) ∧ reclaim = .idle ∧ limbo = 0
  | .read e _ | .body e .deferFreePointer =>
      0 < e ∧ guard = .inside ∧ reclaim = .idle ∧ limbo = 0
  | .body e .leave => 0 < e ∧ guard = .inside ∧ reclaim = .idle ∧ limbo = 1
  | .body e .advanceGlobalEpoch | .release e =>
      0 < e ∧ guard = .outside ∧ reclaim = .idle ∧ limbo = 1
  | .finished => guard = .outside ∧ reclaim = .idle ∧ limbo = 1
  | .body _ .done => False

structure EpochTestInv {n : ℕ} (noEntries : ℕ) (s : EpochTestSt n) : Prop where
  main : s.main.Ok noEntries
  tokens : ∀ t : Fin (n + 1),
    (s.worker t).taken noEntries + s.mainToThread t = s.main.pending t
  signals : ∀ t, s.threadToMain t = (s.worker t).notified noEntries
  workers : ∀ t, (s.worker t).Ok (s.epochs.guard t) (s.epochs.reclaim t)
    (s.epochs.handler.toFreePtr t).length
  freed : s.epochs.freed = []

namespace EpochTestInv

variable {n noEntries : ℕ} {s s' : EpochTestSt n} {t u : Fin (n + 1)} {w : WorkerPc}

lemma pending_le (pc : MainPc) (tid : ℕ) : pc.pending tid ≤ 1 := by
  cases pc with
  | release | acquire =>
      simp only [MainPc.pending]
      split_ifs <;> omega
  | _ => exact Nat.zero_le 1

lemma notified_le (w : WorkerPc) : w.notified noEntries ≤ w.taken noEntries := by
  cases w <;> simp only [WorkerPc.notified, WorkerPc.taken] <;> omega

/-- No worker takes a second token. -/
lemma taken_le (h : EpochTestInv noEntries s) (t : Fin (n + 1)) :
    (s.worker t).taken noEntries ≤ 1 := by
  have htokens := h.tokens t
  have hpending := pending_le s.main t
  omega

lemma loop_of_pos (hpos : 0 < noEntries) :
    WorkerPc.loop noEntries 1 = .acquire 1 ∧ MainPc.loop noEntries 1 = .release 1 0 :=
  ⟨if_pos hpos, if_pos hpos⟩

lemma init (hpos : 0 < noEntries) :
    EpochTestInv noEntries (EpochTestSt.init noEntries : EpochTestSt n) := by
  obtain ⟨hworker, hmain⟩ := loop_of_pos hpos
  refine ⟨?_, ?_, ?_, ?_, rfl⟩
  · rw [EpochTestSt.init, hmain]
    exact ⟨Nat.one_pos, hpos⟩
  · intro t
    simp only [EpochTestSt.init, hworker, hmain]
    rfl
  · intro t
    simp only [EpochTestSt.init, hworker]
    rfl
  · intro t
    simp only [EpochTestSt.init, hworker]
    exact ⟨Nat.one_pos, rfl, rfl, rfl⟩

/-- A step of worker `t`. -/
lemma of_worker (h : EpochTestInv noEntries s) (hmain : s'.main = s.main)
    (hworker : s'.worker = Function.update s.worker t w)
    (hframe : ∀ u, u ≠ t → s'.mainToThread u = s.mainToThread u ∧
      s'.threadToMain u = s.threadToMain u ∧ s'.epochs.guard u = s.epochs.guard u ∧
      s'.epochs.reclaim u = s.epochs.reclaim u ∧
      (s'.epochs.handler.toFreePtr u).length = (s.epochs.handler.toFreePtr u).length)
    (htokens : w.taken noEntries + s'.mainToThread t
      = (s.worker t).taken noEntries + s.mainToThread t)
    (hsignals : s'.threadToMain t = w.notified noEntries)
    (hok : w.Ok (s'.epochs.guard t) (s'.epochs.reclaim t)
      (s'.epochs.handler.toFreePtr t).length)
    (hfreed : s'.epochs.freed = []) : EpochTestInv noEntries s' where
  main := hmain ▸ h.main
  tokens := by
    intro u
    by_cases hu : u = t
    · subst hu
      rw [hworker, Function.update_self, htokens, hmain, h.tokens]
    · rw [hworker, Function.update_of_ne hu, (hframe u hu).1, hmain, h.tokens]
  signals := by
    intro u
    by_cases hu : u = t
    · subst hu
      rw [hworker, Function.update_self, hsignals]
    · rw [hworker, Function.update_of_ne hu, (hframe u hu).2.1, h.signals]
  workers := by
    intro u
    by_cases hu : u = t
    · subst hu
      rwa [hworker, Function.update_self]
    · obtain ⟨-, -, hguard, hreclaim, hlimbo⟩ := hframe u hu
      rw [hworker, Function.update_of_ne hu, hguard, hreclaim, hlimbo]
      exact h.workers u
  freed := hfreed

/-- What an operation of worker `t` on the handler leaves alone. -/
lemma act_frame {p : Fin (n + 1) × ℕ} {pc : RoundPc} {a : EpochAct (n + 1) (Fin (n + 1) × ℕ)}
    {e e' : EpochSt (n + 1) (Fin (n + 1) × ℕ)} (hact : pc.act t p = some a)
    (heffect : EpochEffect e a e') (hu : u ≠ t) :
    e'.guard u = e.guard u ∧ e'.reclaim u = e.reclaim u ∧
      (e'.handler.toFreePtr u).length = (e.handler.toFreePtr u).length := by
  cases pc <;> cases hact <;> cases heffect <;>
    simp [Function.update_of_ne hu, EpochHandler.publish, EpochHandler.leave, EpochHandler.unpin,
      EpochHandler.deferFreePointer, EpochHandler.erasePrefix, EpochHandler.advanceGlobalEpoch]

/-- Where an operation on the handler leaves its worker.  It frees nothing: the limbo list is
empty. -/
lemma body_ok {e : ℕ} {p : Fin (n + 1) × ℕ} {pc : RoundPc}
    {a : EpochAct (n + 1) (Fin (n + 1) × ℕ)} {h h' : EpochSt (n + 1) (Fin (n + 1) × ℕ)}
    (hok : (WorkerPc.body e pc).Ok (h.guard t) (h.reclaim t) (h.handler.toFreePtr t).length)
    (hact : pc.act t p = some a) (heffect : EpochEffect h a h') :
    (WorkerPc.next e (pc.next t h')).Ok (h'.guard t) (h'.reclaim t)
      (h'.handler.toFreePtr t).length ∧ h'.freed = h.freed := by
  cases pc with
  | freeOutdatedPtr =>
      cases hact
      cases heffect with
      | freeOutdatedPtr _ hidle =>
          obtain ⟨he, hguard, -, hlimbo⟩ := hok
          exact ⟨⟨he, hguard, by simp, hlimbo⟩, rfl⟩
  | reclaim =>
      cases hact
      obtain ⟨he, hguard, -, hlimbo⟩ := hok
      cases heffect with
      | scan _ i m hpc hi | scanned _ i m hpc hi =>
          simp only [RoundPc.next, Function.update_self, reduceCtorEq, if_false]
          exact ⟨⟨he, hguard, by simp, hlimbo⟩, trivial⟩
      | free _ m idx hpc d hd hold =>
          rw [List.eq_nil_of_length_eq_zero hlimbo] at hd
          cases hd
      | erased _ m idx hpc hstop =>
          simp only [RoundPc.next, Function.update_self, if_true]
          exact ⟨⟨he, hguard, rfl, by simp [erasePrefix, hlimbo]⟩, trivial⟩
  | enter =>
      cases hact
      cases heffect with
      | enter _ hguard hidle =>
          obtain ⟨he, -, -, hlimbo⟩ := hok
          exact ⟨⟨he, ⟨_, Function.update_self ..⟩, hidle, hlimbo⟩, rfl⟩
  | publish =>
      cases hact
      cases heffect with
      | publish _ epoch hguard =>
          obtain ⟨he, -, hidle, hlimbo⟩ := hok
          exact ⟨⟨he, Function.update_self .., hidle, hlimbo⟩, rfl⟩
  | deferFreePointer =>
      cases hact
      cases heffect with
      | deferFreePointer _ _ hidle =>
          obtain ⟨he, hguard, -, hlimbo⟩ := hok
          exact ⟨⟨he, hguard, hidle, by simp [deferFreePointer, hlimbo]⟩, rfl⟩
  | leave =>
      cases hact
      cases heffect with
      | leave _ hguard hidle =>
          obtain ⟨he, -, -, hlimbo⟩ := hok
          have hlimbo' : (((h.handler.leave t).unpin t).toFreePtr t).length = 1 := by
            simp [unpin, EpochHandler.leave, hlimbo]
          simp only [RoundPc.next]
          split_ifs
          all_goals exact ⟨⟨he, Function.update_self .., hidle, hlimbo'⟩, trivial⟩
  | advanceGlobalEpoch =>
      cases hact
      cases heffect with
      | advanceGlobalEpoch =>
          obtain ⟨he, hguard, hidle, hlimbo⟩ := hok
          exact ⟨⟨he, hguard, hidle, hlimbo⟩, rfl⟩
  | done => cases hact

lemma limbo_le (h : EpochTestInv noEntries s) (t : Fin (n + 1)) :
    (s.epochs.handler.toFreePtr t).length ≤ 1 := by
  have hok := h.workers t
  have htaken := h.taken_le t
  cases hw : s.worker t with
  | acquire e =>
      rw [hw] at hok htaken
      exact hok.2.2.2.trans_le htaken
  | body e pc =>
      rw [hw] at hok
      cases pc <;> simp only [WorkerPc.Ok] at hok <;> omega
  | _ =>
      rw [hw] at hok
      simp only [WorkerPc.Ok] at hok
      omega

lemma short (h : EpochTestInv noEntries s) : s.Short :=
  fun t => (h.limbo_le t).trans (Nat.le_succ 1)

/-- The token that a worker takes is the first one. -/
lemma first_of_token (h : EpochTestInv noEntries s) {e : ℕ} (hw : s.worker t = .acquire e)
    (htoken : 0 < s.mainToThread t) : e = 1 := by
  have hok := h.workers t
  have htokens := h.tokens t
  have hpending := pending_le s.main t
  rw [hw] at hok htokens
  have he := hok.1
  rw [WorkerPc.taken] at htokens
  omega

/-- An access of a worker. -/
lemma work (h : EpochTestInv noEntries s) (hpos : 0 < noEntries)
    (hstep : s.work noEntries t = some s') : EpochTestInv noEntries s' := by
  have htaken := h.taken_le t
  have hsignals := h.signals t
  have hok := h.workers t
  rw [EpochTestSt.work] at hstep
  cases hw : s.worker t with
  | acquire e =>
      simp only [hw] at hstep
      rw [hw] at hsignals hok
      split_ifs at hstep with htoken
      cases hstep
      obtain rfl := h.first_of_token hw htoken
      refine h.of_worker rfl rfl (fun u hu => ⟨Function.update_of_ne hu .., rfl, rfl, rfl, rfl⟩)
        ?_ hsignals hok h.freed
      rw [hw]
      simp only [Function.update_self, WorkerPc.taken]
      omega
  | body e pc =>
      simp only [hw] at hstep
      rw [hw] at hsignals hok
      obtain ⟨a, hact, hstep⟩ := Option.bind_eq_some_iff.mp hstep
      obtain ⟨epochs, hepochs, hs'⟩ := Option.bind_eq_some_iff.mp hstep
      cases hs'
      have heffect := EpochSt.step_effect hepochs
      obtain ⟨hnext, hfreed⟩ := body_ok hok hact heffect
      refine h.of_worker rfl rfl (fun u hu => ⟨rfl, rfl, act_frame hact heffect hu⟩) ?_ ?_ hnext
        (hfreed.trans h.freed)
      · rw [hw]
        cases hpc : pc.next t epochs <;> rfl
      · cases hpc : pc.next t epochs <;> exact hsignals
  | read e tid =>
      simp only [hw] at hstep
      rw [hw] at hsignals hok
      split_ifs at hstep
      all_goals
        cases hstep
        exact h.of_worker rfl rfl (fun u hu => ⟨rfl, rfl, rfl, rfl, rfl⟩) (by rw [hw]; rfl)
          hsignals hok h.freed
  | release e =>
      simp only [hw] at hstep
      rw [hw] at hsignals hok htaken
      cases hstep
      obtain ⟨he, hguard, hidle, hlimbo⟩ := hok
      have hone : e = 1 := Nat.le_antisymm htaken he
      subst hone
      refine h.of_worker rfl rfl
        (fun u hu => ⟨rfl, Function.update_of_ne hu .., rfl, rfl, rfl⟩) ?_ ?_ ?_ h.freed
      all_goals
        rw [WorkerPc.loop]
        split_ifs with hmore
      · rw [hw]
        rfl
      · rw [hw]
        simp only [WorkerPc.taken]
        omega
      · simp only [Function.update_self, hsignals, WorkerPc.notified]
      · simp only [Function.update_self, hsignals, WorkerPc.notified]
        omega
      · exact ⟨Nat.two_pos, hguard, hidle, hlimbo⟩
      · exact ⟨hguard, hidle, hlimbo⟩
  | finished =>
      simp only [hw] at hstep
      cases hstep

/-- The main thread gives a token to worker `tid` or takes it back. -/
lemma tokens_update (h : EpochTestInv noEntries s) {pc : MainPc} {tid k : ℕ} (htid : tid < n + 1)
    (hself : k + s.main.pending tid = s.mainToThread ⟨tid, htid⟩ + pc.pending tid)
    (hothers : ∀ u, u ≠ tid → pc.pending u = s.main.pending u) (u : Fin (n + 1)) :
    (s.worker u).taken noEntries + Function.update s.mainToThread ⟨tid, htid⟩ k u
      = pc.pending u := by
  have htokens := h.tokens u
  by_cases hu : u = ⟨tid, htid⟩
  · subst hu
    rw [Function.update_self]
    simp only at htokens ⊢
    omega
  · rw [Function.update_of_ne hu, htokens]
    exact (hothers u fun heq => hu (Fin.ext heq)).symm

/-- The first `join` waits for ever: worker `0` has taken no token. -/
lemma mainStep_join (h : EpochTestInv noEntries s) (hpos : 0 < noEntries) {tid : ℕ}
    (hm : s.main = .join tid) : s.mainStep noEntries = none := by
  have hok := h.main
  rw [hm] at hok
  obtain rfl : tid = 0 := hok
  have htokens := h.tokens 0
  have hbusy : s.worker ⟨0, Nat.succ_pos n⟩ ≠ .finished := by
    intro hw
    rw [show s.worker 0 = .finished from hw, hm] at htokens
    simp only [WorkerPc.taken, MainPc.pending] at htokens
    omega
  simp only [EpochTestSt.mainStep, hm]
  rw [dif_pos (Nat.succ_pos n), if_neg hbusy]

/-- An access of the main thread. -/
lemma mainStep (h : EpochTestInv noEntries s) (hpos : 0 < noEntries)
    (hstep : s.mainStep noEntries = some s') : EpochTestInv noEntries s' := by
  have hok := h.main
  rw [EpochTestSt.mainStep] at hstep
  cases hm : s.main with
  | release e tid | acquire e tid =>
      simp only [hm] at hstep
      rw [hm] at hok
      split_ifs at hstep with htid
      · cases hstep
        refine { h with main := hok, tokens := h.tokens_update htid ?_ ?_ }
        · rw [hm]
          simp only [MainPc.pending]
          split_ifs <;> omega
        · intro u hu
          rw [hm]
          simp only [MainPc.pending]
          split_ifs <;> omega
      · cases hstep
        refine { h with main := hok, tokens := fun u => ?_ }
        rw [h.tokens, hm]
        exact if_pos (u.isLt.trans_le (Nat.le_of_not_lt htid))
  | check e =>
      simp only [hm] at hstep
      rw [hm] at hok
      rw [if_pos h.short, MainPc.loop] at hstep
      split_ifs at hstep with hmore
      · cases hstep
        exact { h with
          main := ⟨Nat.succ_pos e, hmore⟩, tokens := fun u => by rw [h.tokens, hm]; rfl }
      · cases hstep
        exact { h with main := rfl, tokens := fun u => by rw [h.tokens, hm]; rfl }
  | join tid =>
      rw [← EpochTestSt.mainStep, h.mainStep_join hpos hm] at hstep
      cases hstep
  | joined | passed | failed =>
      rw [hm] at hok
      exact hok.elim

/-- **The step lemma.** -/
theorem step (h : EpochTestInv noEntries s) (hpos : 0 < noEntries) {a : EpochTestAct n}
    (hstep : s.step noEntries a = some s') : EpochTestInv noEntries s' := by
  cases a with
  | main => exact h.mainStep hpos hstep
  | work t => exact h.work hpos hstep

end EpochTestInv

/-! ## The accesses that are left -/

/-- The loads that are left of a call of `FreeOutdatedPtr` on an empty list, with `k` slots. -/
def ReclaimPc.rank (k : ℕ) : ReclaimPc → ℕ
  | .idle => 0
  | .scanning i _ => k - i + 2
  | .freeing _ _ => 1

/-- The accesses that are left to a worker, one of `k`, for the one token that it may take. -/
def WorkerPc.rank (k : ℕ) (reclaim : ReclaimPc) : WorkerPc → ℕ
  | .acquire e => if e = 1 then 2 * k + 11 else 0
  | .body _ .freeOutdatedPtr => 2 * k + 10
  | .body _ .reclaim => k + 7 + reclaim.rank k
  | .body _ .enter => k + 7
  | .body _ .publish => k + 6
  | .read _ tid => k - tid + 5
  | .body _ .deferFreePointer => 4
  | .body _ .leave => 3
  | .body _ .advanceGlobalEpoch => 2
  | .release _ => 1
  | .body _ .done | .finished => 0

/-- The accesses that are left to the main thread before the first `join`. -/
def MainPc.rank (k noEntries : ℕ) : MainPc → ℕ
  | .release e tid => (noEntries - e) * (2 * k + 3) + (k - tid + k + 3)
  | .acquire e tid => (noEntries - e) * (2 * k + 3) + (k - tid + 2)
  | .check e => (noEntries - e) * (2 * k + 3) + 1
  | _ => 0

def EpochTestSt.rank {n : ℕ} (noEntries : ℕ) (s : EpochTestSt n) : ℕ :=
  s.main.rank (n + 1) noEntries + ∑ t, (s.worker t).rank (n + 1) (s.epochs.reclaim t)

namespace EpochTestInv

variable {n noEntries : ℕ} {s s' : EpochTestSt n} {t u : Fin (n + 1)} {w : WorkerPc}

lemma mainStep_rank (h : EpochTestInv noEntries s) (hpos : 0 < noEntries)
    (hstep : s.mainStep noEntries = some s') : s'.rank noEntries < s.rank noEntries := by
  have hok := h.main
  rw [EpochTestSt.mainStep] at hstep
  cases hm : s.main with
  | release e tid | acquire e tid =>
      simp only [hm] at hstep
      split_ifs at hstep with htid
      all_goals
        cases hstep
        simp only [EpochTestSt.rank, hm, MainPc.rank]
        omega
  | check e =>
      simp only [hm] at hstep
      rw [if_pos h.short, MainPc.loop] at hstep
      split_ifs at hstep with hmore
      · cases hstep
        have hsplit : noEntries - e = noEntries - (e + 1) + 1 := by omega
        have hround : (noEntries - e) * (2 * (n + 1) + 3)
            = (noEntries - (e + 1)) * (2 * (n + 1) + 3) + (2 * (n + 1) + 3) := by
          rw [hsplit, Nat.add_mul, Nat.one_mul]
        simp only [EpochTestSt.rank, hm, MainPc.rank]
        omega
      · cases hstep
        simp only [EpochTestSt.rank, hm, MainPc.rank]
        omega
  | join tid =>
      rw [← EpochTestSt.mainStep, h.mainStep_join hpos hm] at hstep
      cases hstep
  | joined | passed | failed =>
      rw [hm] at hok
      exact hok.elim

/-- An operation on the handler leaves its worker less. -/
lemma body_rank {e : ℕ} {p : Fin (n + 1) × ℕ} {pc : RoundPc}
    {a : EpochAct (n + 1) (Fin (n + 1) × ℕ)} {h h' : EpochSt (n + 1) (Fin (n + 1) × ℕ)}
    (hok : (WorkerPc.body e pc).Ok (h.guard t) (h.reclaim t) (h.handler.toFreePtr t).length)
    (hact : pc.act t p = some a) (heffect : EpochEffect h a h') :
    (WorkerPc.next e (pc.next t h')).rank (n + 1) (h'.reclaim t)
      < (WorkerPc.body e pc).rank (n + 1) (h.reclaim t) := by
  cases pc with
  | freeOutdatedPtr =>
      cases hact
      cases heffect with
      | freeOutdatedPtr _ hidle =>
          simp only [RoundPc.next, WorkerPc.next, WorkerPc.rank, Function.update_self,
            ReclaimPc.rank]
          omega
  | reclaim =>
      cases hact
      cases heffect with
      | scan _ i m hpc hi =>
          simp only [RoundPc.next, Function.update_self, reduceCtorEq, if_false, WorkerPc.next,
            WorkerPc.rank, hpc, ReclaimPc.rank]
          omega
      | scanned _ i m hpc hi =>
          simp only [RoundPc.next, Function.update_self, reduceCtorEq, if_false, WorkerPc.next,
            WorkerPc.rank, hpc, ReclaimPc.rank]
          omega
      | free _ m idx hpc d hd hold =>
          rw [List.eq_nil_of_length_eq_zero hok.2.2.2] at hd
          cases hd
      | erased _ m idx hpc hstop =>
          simp only [RoundPc.next, Function.update_self, if_true, WorkerPc.next, WorkerPc.rank,
            hpc, ReclaimPc.rank]
          omega
  | leave =>
      simp only [RoundPc.next]
      split_ifs <;> simp [WorkerPc.next, WorkerPc.rank]
  | done => cases hact
  | _ =>
      simp only [RoundPc.next, WorkerPc.next, WorkerPc.rank]
      omega

/-- A step of worker `t` that leaves it less. -/
lemma rank_lt_of (hmain : s'.main = s.main) (hworker : s'.worker = Function.update s.worker t w)
    (hframe : ∀ u, u ≠ t → s'.epochs.reclaim u = s.epochs.reclaim u)
    (hlt : w.rank (n + 1) (s'.epochs.reclaim t)
      < (s.worker t).rank (n + 1) (s.epochs.reclaim t)) :
    s'.rank noEntries < s.rank noEntries := by
  have hsum := sum_add_eq_sum_add (g := fun u =>
      (s'.worker u).rank (n + 1) (s'.epochs.reclaim u))
    (f := fun u => (s.worker u).rank (n + 1) (s.epochs.reclaim u)) t
    fun u hu => by rw [hworker, Function.update_of_ne hu, hframe u hu]
  rw [hworker, Function.update_self, ← hworker] at hsum
  rw [EpochTestSt.rank, EpochTestSt.rank, hmain]
  omega

lemma work_rank (h : EpochTestInv noEntries s) (hstep : s.work noEntries t = some s') :
    s'.rank noEntries < s.rank noEntries := by
  have hok := h.workers t
  rw [EpochTestSt.work] at hstep
  cases hw : s.worker t with
  | acquire e =>
      simp only [hw] at hstep
      split_ifs at hstep with htoken
      cases hstep
      refine rank_lt_of rfl rfl (fun _ _ => rfl) ?_
      rw [hw, WorkerPc.rank, WorkerPc.rank, if_pos (h.first_of_token hw htoken)]
      exact Nat.lt_succ_self _
  | body e pc =>
      simp only [hw] at hstep
      rw [hw] at hok
      obtain ⟨a, hact, hstep⟩ := Option.bind_eq_some_iff.mp hstep
      obtain ⟨epochs, hepochs, hs'⟩ := Option.bind_eq_some_iff.mp hstep
      cases hs'
      have heffect := EpochSt.step_effect hepochs
      refine rank_lt_of rfl rfl (fun u hu => (act_frame hact heffect hu).2.1) ?_
      rw [hw]
      exact body_rank hok hact heffect
  | read e tid =>
      simp only [hw] at hstep
      split_ifs at hstep with htid hread
      all_goals
        cases hstep
        refine rank_lt_of rfl rfl (fun _ _ => rfl) ?_
        rw [hw]
        simp only [WorkerPc.rank]
        omega
  | release e =>
      simp only [hw] at hstep
      rw [hw] at hok
      cases hstep
      refine rank_lt_of rfl rfl (fun _ _ => rfl) ?_
      have he := hok.1
      rw [hw, WorkerPc.loop]
      split_ifs with hmore
      · rw [WorkerPc.rank, if_neg (by omega)]
        exact Nat.one_pos
      · exact Nat.one_pos
  | finished =>
      simp only [hw] at hstep
      cases hstep

/-! ### Who waits -/

/-- A call of `FreeOutdatedPtr` that is not over has a next step. -/
lemma reclaimStep_isSome {e : EpochSt (n + 1) (Fin (n + 1) × ℕ)} (hbusy : e.reclaim t ≠ .idle) :
    (e.reclaimStep t).isSome := by
  rw [EpochSt.reclaimStep]
  split
  · next hidle => exact absurd hidle hbusy
  · split_ifs <;> rfl
  · dsimp only
    split
    · rfl
    · split_ifs <;> rfl

/-- A worker that has a token can go on. -/
lemma work_isSome (h : EpochTestInv noEntries s) (hacquire : ∀ e, s.worker t ≠ .acquire e)
    (hfinished : s.worker t ≠ .finished) : (s.work noEntries t).isSome := by
  have hok := h.workers t
  cases hw : s.worker t with
  | acquire e => exact absurd hw (hacquire e)
  | finished => exact absurd hw hfinished
  | release e => simp [EpochTestSt.work, hw]
  | read e tid =>
      simp only [EpochTestSt.work, hw, h.freed]
      split_ifs with htid hread
      · rfl
      · exact absurd (fun d hd => absurd hd List.not_mem_nil) hread
      · rfl
  | body e pc =>
      rw [hw] at hok
      simp only [EpochTestSt.work, hw]
      cases pc with
      | reclaim =>
          obtain ⟨-, -, hbusy, -⟩ := hok
          obtain ⟨epochs, hepochs⟩ := Option.isSome_iff_exists.mp (reclaimStep_isSome hbusy)
          simp [RoundPc.act, EpochSt.step, hepochs]
      | publish =>
          obtain ⟨-, ⟨epoch, hguard⟩, -⟩ := hok
          simp [RoundPc.act, EpochSt.step, hguard]
      | advanceGlobalEpoch => rfl
      | done => exact hok.elim
      | freeOutdatedPtr | enter | deferFreePointer | leave =>
          obtain ⟨-, hguard, hidle, -⟩ := hok
          simp [RoundPc.act, EpochSt.step, hguard, hidle]

/-- A worker that has taken no token is in front of its first. -/
lemma worker_of_taken_eq_zero (h : EpochTestInv noEntries s) (hpos : 0 < noEntries)
    (htaken : (s.worker t).taken noEntries = 0) : s.worker t = .acquire 1 := by
  have hok := h.workers t
  cases hw : s.worker t with
  | acquire e =>
      rw [hw] at hok htaken
      have he := hok.1
      rw [WorkerPc.taken] at htaken
      exact congrArg WorkerPc.acquire (by omega)
  | finished =>
      rw [hw] at htaken
      exact absurd htaken hpos.ne'
  | body e pc =>
      rw [hw] at hok htaken
      cases pc with
      | done => exact hok.elim
      | _ => exact absurd htaken hok.1.ne'
  | read e tid =>
      rw [hw] at hok htaken
      exact absurd htaken hok.1.ne'
  | release e =>
      rw [hw] at hok htaken
      exact absurd htaken hok.1.ne'

/-- When nobody has a step left, the main thread waits for a token that a worker has taken, or for
a worker that waits for its first. -/
lemma stuck (h : EpochTestInv noEntries s) (hpos : 0 < noEntries)
    (hstuck : ∀ a, s.step noEntries a = none) :
    (∃ e, ∃ t : Fin (n + 1), s.main = .acquire e t ∧
      (s.worker t = .acquire 2 ∨ s.worker t = .finished)) ∨
    s.main = .join 0 ∧ ∀ t, s.worker t = .acquire 1 := by
  have hmain := hstuck .main
  have hok := h.main
  simp only [EpochTestSt.step, EpochTestSt.mainStep] at hmain
  cases hm : s.main with
  | release e tid =>
      simp only [hm] at hmain
      split_ifs at hmain
  | acquire e tid =>
      simp only [hm] at hmain
      split_ifs at hmain with htid htoken
      refine .inl ⟨e, ⟨tid, htid⟩, rfl, ?_⟩
      have htokens := h.tokens ⟨tid, htid⟩
      rw [hm, MainPc.pending, if_neg (Nat.lt_irrefl tid)] at htokens
      have htaken : (s.worker ⟨tid, htid⟩).taken noEntries = 1 := by omega
      have hnone := hstuck (.work ⟨tid, htid⟩)
      have hwork : ¬ (s.work noEntries ⟨tid, htid⟩).isSome := by
        rw [EpochTestSt.step] at hnone
        rw [hnone]
        exact Bool.false_ne_true
      by_cases hfinished : s.worker ⟨tid, htid⟩ = .finished
      · exact .inr hfinished
      · by_contra hother
        refine hwork (h.work_isSome (fun e' hw => hother (.inl ?_)) hfinished)
        rw [hw, WorkerPc.taken] at htaken
        rw [hw]
        exact congrArg WorkerPc.acquire (by omega)
  | check e =>
      simp only [hm] at hmain
      cases hmain
  | join tid =>
      rw [hm] at hok
      obtain rfl : tid = 0 := hok
      refine .inr ⟨rfl, fun t => h.worker_of_taken_eq_zero hpos ?_⟩
      have htokens := h.tokens t
      rw [hm] at htokens
      simp only [MainPc.pending] at htokens
      omega
  | joined | passed | failed =>
      rw [hm] at hok
      exact hok.elim

lemma rank_init (hpos : 0 < noEntries) :
    (EpochTestSt.init noEntries : EpochTestSt n).rank noEntries
      = noEntries * (2 * n + 5) + (n + 1) * (2 * n + 13) := by
  obtain ⟨hworker, hmain⟩ := loop_of_pos hpos
  have hfirst : (WorkerPc.acquire 1).rank (n + 1) .idle = 2 * n + 13 := by
    rw [WorkerPc.rank, if_pos rfl]
    omega
  have hrounds : noEntries * (2 * n + 5) = (noEntries - 1) * (2 * n + 5) + (2 * n + 5) := by
    rw [← Nat.succ_mul, Nat.succ_eq_add_one, Nat.sub_add_cancel hpos]
  have hround : 2 * (n + 1) + 3 = 2 * n + 5 := by omega
  have hworkers : ∑ _t : Fin (n + 1), (2 * n + 13) = (n + 1) * (2 * n + 13) := by
    rw [Finset.sum_const_nat fun _ _ => rfl, Finset.card_univ, Fintype.card_fin]
  simp only [EpochTestSt.rank, EpochTestSt.init, EpochSt.init, hworker, hmain, hfirst,
    MainPc.rank, hworkers, hround]
  omega

/-- **The run lemma.** -/
theorem run (hpos : 0 < noEntries) {tr : List (EpochTestAct n)}
    (hrun : Transition.run (EpochTestSt.step noEntries) (EpochTestSt.init noEntries) tr = some s) :
    EpochTestInv noEntries s :=
  run_invariant (I := EpochTestInv noEntries) (fun _ _ _ hs hstep => hs.step hpos hstep)
    (init hpos) hrun

end EpochTestInv

/-- **The epoch test does not come to an end.**  Let there be any number of entries and of workers,
but no more than the handler makes slots for.  However the accesses of the threads interleave, a
bounded number of them is all there is, and the main thread is then neither at its last assertions
nor has it failed one: it waits for a token that a worker has taken, or in the first `join` for a
worker that waits for its first token.  Until then each worker has deferred one pointer at most and
none was freed, so the assertion on the limbo lists tests nothing, and no semaphore exceeds its
maximum. -/
theorem epochTest_deadlocks {n noEntries : ℕ} (hpos : 0 < noEntries)
    (hworkers : n + 1 ≤ maxNumberOfWorker)
    {tr : List (EpochTestAct n)} {s : EpochTestSt n}
    (hrun : run (EpochTestSt.step noEntries) (EpochTestSt.init noEntries) tr = some s) :
    noThreads (n + 1) = n + 1 ∧
    tr.length ≤ noEntries * (2 * n + 5) + (n + 1) * (2 * n + 13) ∧
    (s.main ≠ .joined ∧ s.main ≠ .passed ∧ s.main ≠ .failed) ∧
    ((∀ a, s.step noEntries a = none) →
      (∃ e, ∃ t : Fin (n + 1), s.main = .acquire e t ∧
        (s.worker t = .acquire 2 ∨ s.worker t = .finished)) ∨
      s.main = .join 0 ∧ ∀ t, s.worker t = .acquire 1) ∧
    s.epochs.freed = [] ∧
    ∀ t, (s.epochs.handler.toFreePtr t).length ≤ 1 ∧ s.mainToThread t ≤ 1 ∧
      s.threadToMain t ≤ 1 := by
  have h := EpochTestInv.run hpos hrun
  refine ⟨Nat.min_eq_left hworkers, ?_, ?_, h.stuck hpos, h.freed, fun t => ⟨h.limbo_le t, ?_, ?_⟩⟩
  · have hall : ∀ a ∈ tr, (fun _ : EpochTestAct n => True) a := fun _ _ => trivial
    have hdecreases : ∀ (s : EpochTestSt n) (k : ℕ) (a : EpochTestAct n) (s' : EpochTestSt n),
        EpochTestInv noEntries s ∧ s.rank noEntries = k → True → s.step noEntries a = some s' →
        ∃ k', (EpochTestInv noEntries s' ∧ s'.rank noEntries = k') ∧ k' < k := by
      rintro s k a s' ⟨hs, rfl⟩ - hstep
      refine ⟨_, ⟨hs.step hpos hstep, rfl⟩, ?_⟩
      cases a with
      | main => exact hs.mainStep_rank hpos hstep
      | work t => exact hs.work_rank hstep
    obtain ⟨k, -, hle⟩ :=
      length_add_le_of_decreasing hdecreases ⟨EpochTestInv.init hpos, rfl⟩ hall hrun
    rw [EpochTestInv.rank_init hpos] at hle
    exact (Nat.le_add_right _ _).trans hle
  · have hok := h.main
    refine ⟨?_, ?_, ?_⟩
    all_goals
      intro hm
      rw [hm] at hok
      exact hok
  · have htokens := h.tokens t
    have hpending := EpochTestInv.pending_le s.main t
    omega
  · rw [h.signals t]
    exact (EpochTestInv.notified_le _).trans (h.taken_le t)

/-- Two workers take their tokens before the main thread does. -/
theorem epochTest_deadlocks_two :
    ∃ s : EpochTestSt 1,
      run (EpochTestSt.step 2) (EpochTestSt.init 2)
        (List.replicate 3 .main ++ List.replicate 15 (.work 0) ++ List.replicate 14 (.work 1))
        = some s ∧
      (∀ a, s.step 2 a = none) ∧ s.main = .acquire 1 0 ∧ s.epochs.freed = [] := by
  let tr : List (EpochTestAct 1) :=
    List.replicate 3 .main ++ List.replicate 15 (.work 0) ++ List.replicate 14 (.work 1)
  have hall : (run (EpochTestSt.step 2) (EpochTestSt.init 2) tr).map
      (fun s => (s.main, s.worker 0, s.worker 1, s.mainToThread 0, s.mainToThread 1)) =
        some (.acquire 1 0, .acquire 2, .acquire 2, 0, 0) := by decide +kernel
  obtain ⟨s, hrun, hs⟩ := Option.map_eq_some_iff.mp hall
  simp only [Prod.mk.injEq] at hs
  obtain ⟨hmain, hw₀, hw₁, h₀, h₁⟩ := hs
  obtain ⟨-, -, -, -, hfreed, -⟩ := epochTest_deadlocks Nat.two_pos (by decide) hrun
  refine ⟨s, hrun, ?_, hmain, hfreed⟩
  intro a
  cases a with
  | main => simp [EpochTestSt.step, EpochTestSt.mainStep, hmain, h₀]
  | work t =>
      revert t
      refine Fin.forall_fin_two.mpr ⟨?_, ?_⟩
      · simp [EpochTestSt.step, EpochTestSt.work, hw₀, h₀]
      · simp [EpochTestSt.step, EpochTestSt.work, hw₁, h₁]

end OptLock
