import OptimisticLocking.List.Linearizability

/-!
# How often a `LookUp` restarts

An attempt is thrown away when the lock has been acquired exclusively since its snapshot.  Attempts
do not overlap, and an `Insert` or a `Delete` acquires the lock once.

* `ListSt.restart`, `ListSt.acquisition`, `ListSt.writerCall` — what is counted.
* `ListSt.stale` — the debt: the attempt in progress will be thrown away.
* **`lookUp_restarts_bounded`** — there are no more restarts than writers.
-/

namespace OptLock

open LinkedList OrderedList HybridLock Transition

/-! ## What is counted -/

section definitions

variable {n : ℕ} {T A W : Type}

/-- From the snapshot of an attempt to its validation. -/
def ListPc.attempting : ListPc T A W → Bool
  | .searchRoot (.lookUp _) | .compare (.lookUp _) _ _ _ _ | .next (.lookUp _) _ | .copy _ _ _
  | .validate _ _ => true
  | _ => false

/-- In the constructor of an EXCLUSIVE guard. -/
def ListPc.waits : ListPc T A W → Bool
  | .lockLoad _ | .lockCas _ _ => true
  | _ => false

/-- The validation has thrown. -/
def ListPc.restarts : ListPc T A W → ListPc T A W → Bool
  | .validate _ _, .epochLeave _ none => true
  | _, _ => false

namespace ListSt

/-- `t` throws an attempt away. -/
def restart (t : Fin n) (s : ListSt n T A W) (a : ListAct n T A) (s' : ListSt n T A W) :
    Option Unit :=
  if a.thread = some t ∧ (s.pc t).restarts (s'.pc t) = true then some () else none

/-- The lock is acquired exclusively. -/
def acquisition (s : ListSt n T A W) (a : ListAct n T A) (s' : ListSt n T A W) : Option (Fin n) :=
  a.thread.filter fun u => (s.pc u).waits && (s'.pc u).critical

/-- `Insert` or `Delete` is called. -/
def writerCall (_ : ListSt n T A W) (a : ListAct n T A) (_ : ListSt n T A W) : Option (Call T) :=
  match a with
  | .call _ c => if c.isWriter then some c else none
  | _ => none

/-- The calls that wait for the lock. -/
def waiters (s : ListSt n T A W) : ℕ := ∑ u, (s.pc u).waits.toNat

/-- `t` is inside an attempt that will not be validated. -/
def stale (t : Fin n) (s : ListSt n T A W) : Bool :=
  (s.pc t).attempting && HybridGuard.mustRestart (s.state t) s.lock.stateAndVersion

end ListSt

end definitions

/-! ## Restarts and acquisitions -/

section steps

variable {n : ℕ} {T A W : Type} {cmp : T → T → Ordering} {L : Layout W cmp}
  {s s' : ListSt n T A W} {a : ListAct n T A} {t u : Fin n} {l : List (A × List W)}
  {pc : ListPc T A W}

lemma lookingUp_of_attempting (h : pc.attempting = true) : pc.lookingUp.isSome := by
  cases pc with
  | searchRoot op | compare op | next op => cases op <;> first | rfl | cases h
  | copy | validate => rfl
  | _ => cases h

/-- A read inside an attempt was made inside of it. -/
lemma ReadEffect.attempting (h : ReadEffect L s t pc) (hafter : pc.attempting = true) :
    (s.pc t).attempting = true := by
  have hlook := lookingUp_of_attempting hafter
  rw [h.sameRole.lookingUp] at hlook
  cases h with
  | searchRoot op hpc | compare op _ _ _ _ hpc | next op _ hpc =>
      rw [hpc] at hlook ⊢
      cases op with
      | lookUp => rfl
      | writer => cases hlook
  | epochLoad | restart | valid => cases hafter
  | lockLoad _ hpc | headNull _ hpc | headTest _ hpc | headNode _ hpc | headCompare _ _ _ hpc
  | assertNext _ _ hpc | overwriteNode _ _ hpc | unlink _ _ hpc | scan _ _ hpc | scanned _ _ hpc =>
      rw [hpc] at hlook
      cases hlook

variable [DecidableEq A]

/-- The word is changed by an acquisition, or while somebody holds the lock. -/
lemma ListSt.acquisition_of_word (h : ListInv L s l) (hstep : s.step L a = some s')
    (hword : s'.lock.stateAndVersion ≠ s.lock.stateAndVersion) :
    (s.acquisition a s').isSome ∨ lockState s.lock.stateAndVersion = HybridLock.exclusive := by
  cases ListSt.step_effect hstep with
  | call t c => cases c <;> exact absurd rfl hword
  | lockAcquired t fresh w old hpc lock hlock =>
      refine .inl ?_
      simp [acquisition, ListAct.thread, hpc, ListPc.waits]
  | unlockCall t fresh ret hpc lock hlock =>
      exact absurd (LockInv.release_exclusive hlock).2.2 hword
  | unlocking t fresh ret hpc lock hlock =>
      exact .inr (h.lock.heldExclusively_of_mem (h.mem_of_pc hpc rfl)).2.2
  | _ => exact absurd rfl hword

/-- An attempt that is thrown away was stale. -/
lemma ListSt.stale_of_restart (hstep : s.step L a = some s') (ha : a.thread = some t)
    (hrestarts : (s.pc t).restarts (s'.pc t) = true) :
    s.stale t = true ∧ s'.stale t = false := by
  cases hpc : s.pc t with
  | validate value found =>
      have hafter : s'.pc t = .epochLeave value
          (if HybridGuard.mustRestart (s.state t) s.lock.stateAndVersion then none
            else some found) := by
        cases a with
        | advanceGlobalEpoch => cases ha
        | call u c =>
            cases ha
            simp [step, hpc] at hstep
        | freeOutdatedPtr u =>
            cases ha
            simp [step, hpc] at hstep
        | resume u fresh =>
            cases ha
            simp only [step, resume, read, hpc, Option.map_some, Option.some.injEq] at hstep
            rw [← hstep]
            exact Function.update_self ..
      rw [hpc, hafter] at hrestarts
      rw [stale, stale, hpc, hafter]
      cases hmust : HybridGuard.mustRestart (s.state t) s.lock.stateAndVersion with
      | true => exact ⟨rfl, rfl⟩
      | false =>
          rw [hmust] at hrestarts
          cases hrestarts
  | _ =>
      rw [hpc] at hrestarts
      cases hrestarts

/-- The steps of a thread do not make its own attempt stale. -/
lemma ListSt.stale_of_own (hstep : s.step L a = some s') (ha : a.thread = some t)
    (hstale : s'.stale t = true) : s.stale t = true := by
  rw [stale, Bool.and_eq_true] at hstale ⊢
  obtain ⟨hafter, hmust⟩ := hstale
  cases ListSt.step_effect hstep with
  | advanceGlobalEpoch => cases ha
  | call u c =>
      cases ha
      cases c <;> simp [ListSt.call, ListPc.attempting] at hafter
  | read u fresh pc hread =>
      cases ha
      rw [setPc_pc, Function.update_self] at hafter
      exact ⟨hread.attempting hafter, hmust⟩
  | optimisticLock u fresh value hpc =>
      cases ha
      rw [setPc_pc, Function.update_self] at hafter
      split_ifs at hafter with hexcl
      · cases hafter
      · -- the snapshot has just been taken
        replace hmust : HybridGuard.mustRestart
            (Function.update s.state t s.lock.stateAndVersion t) s.lock.stateAndVersion = true :=
          hmust
        rw [Function.update_self] at hmust
        simp [HybridGuard.mustRestart, hexcl] at hmust
  | copy u fresh value current i hpc =>
      cases ha
      exact ⟨by rw [hpc]; rfl, hmust⟩
  | lockAcquired u fresh w =>
      cases ha
      rw [setPc_pc, Function.update_self] at hafter
      cases w <;> cases hafter
  | leave u fresh value ret =>
      cases ha
      rw [setPc_pc, Function.update_self] at hafter
      rcases ret with _ | _ <;> cases hafter
  | overwrite u | unlocking u =>
      cases ha
      rw [setPc_pc, Function.update_self] at hafter
      split_ifs at hafter <;> cases hafter
  | freeOutdatedPtr u | lockRefused u | newNode u | linkNew u | linkPast u | deferFreePointer u
  | unlockCall u | publish u | free u | erased u =>
      cases ha
      rw [setPc_pc, Function.update_self] at hafter
      cases hafter

/-- The steps of the others make it stale with an acquisition only. -/
lemma ListSt.stale_of_other (h : ListInv L s l) (hstep : s.step L a = some s')
    (ha : a.thread ≠ some t) (hstale : s'.stale t = true) :
    s.stale t = true ∨ (s.acquisition a s').isSome := by
  obtain ⟨hpc, hstate, -⟩ := step_frame hstep ha
  rw [stale, Bool.and_eq_true, hpc, hstate] at hstale
  rw [stale, Bool.and_eq_true, and_iff_right hstale.1]
  by_cases hword : s'.lock.stateAndVersion = s.lock.stateAndVersion
  · exact .inl (hword ▸ hstale.2)
  · rcases acquisition_of_word h hstep hword with hacq | hexcl
    · exact .inr hacq
    · exact .inl (by simp [HybridGuard.mustRestart, hexcl])

/-- **What one step adds.**  A restart settles a debt that an acquisition has made. -/
lemma ListSt.restart_step (h : ListInv L s l) (hstep : s.step L a = some s') :
    (s.restart t a s').toList.length + (s'.stale t).toNat
      ≤ (s.acquisition a s').toList.length + (s.stale t).toNat := by
  rw [restart]
  by_cases ha : a.thread = some t
  · by_cases hrestarts : (s.pc t).restarts (s'.pc t) = true
    · obtain ⟨hbefore, hafter⟩ := stale_of_restart hstep ha hrestarts
      rw [if_pos ⟨ha, hrestarts⟩, hbefore, hafter]
      exact Nat.le_add_left _ _
    · rw [if_neg fun hboth => hrestarts hboth.2]
      have hdebt := Bool.toNat_le_toNat (stale_of_own hstep ha)
      exact (Nat.zero_add _).trans_le (hdebt.trans (Nat.le_add_left _ _))
  · rw [if_neg fun hboth => ha hboth.1]
    cases hafter : s'.stale t with
    | false => exact Nat.zero_le _
    | true =>
        rcases stale_of_other h hstep ha hafter with hbefore | hacq
        · rw [hbefore]
          exact Nat.le_add_left _ _
        · obtain ⟨u, hu⟩ := Option.isSome_iff_exists.mp hacq
          rw [hu]
          exact Nat.le_add_right _ _

/-! ## Acquisitions and calls -/

omit [DecidableEq A] in
lemma waits_of_read (h : ReadEffect L s t pc) : pc.waits = (s.pc t).waits := by
  have hloop : ∀ (op : Searcher T) (prev p : Option A),
      (op.loop prev p : ListPc T A W).waits = false := by
    intro op prev p
    cases p with
    | none => rcases op with v | (v | v) <;> rfl
    | some current => rfl
  cases h with
  | searchRoot op hpc => rw [hpc, hloop]; rfl
  | next op current hpc => rw [hpc, hloop]; rfl
  | headCompare value current read hpc =>
      rw [hpc, Layout.headCompared]
      split_ifs <;> rfl
  | compare op test prev current read hpc =>
      rw [hpc, Layout.compared]
      split_ifs
      · rfl
      · cases test <;> rw [Searcher.tested] <;> split_ifs <;>
          first | rfl | (rcases op with v | (v | v) <;> rfl)
  | lockLoad _ hpc | headNull _ hpc | headTest _ hpc | headNode _ hpc | assertNext _ _ hpc
  | overwriteNode _ _ hpc | unlink _ _ hpc | epochLoad _ hpc | restart _ _ hpc | valid _ _ hpc
  | scan _ _ hpc | scanned _ _ hpc => rw [hpc]; rfl

/-- A thread waits from the call on, until it acquires the lock. -/
lemma ListSt.waits_own (hstep : s.step L a = some s') (ha : a.thread = some t) :
    (s.acquisition a s').toList.length + (s'.pc t).waits.toNat
      = (s.writerCall a s').toList.length + (s.pc t).waits.toNat := by
  have hidle : ∀ pc₀ pc : ListPc T A W, s.pc t = pc₀ → s'.pc t = pc → pc₀.waits = false →
      pc.waits = false → s.writerCall a s' = none →
      (s.acquisition a s').toList.length + (s'.pc t).waits.toNat
        = (s.writerCall a s').toList.length + (s.pc t).waits.toNat := by
    rintro pc₀ pc hbefore hafter hpc₀ hpc hcall
    rw [acquisition, ha, hcall, hbefore, hafter, hpc₀, hpc]
    simp [hbefore, hpc₀]
  cases ListSt.step_effect hstep with
  | advanceGlobalEpoch => cases ha
  | call u c ret hpc =>
      cases ha
      cases c <;>
        simp [acquisition, writerCall, ListAct.thread, ListSt.call, ListPc.waits, Call.isWriter,
          hpc]
  | read u fresh pc hread =>
      cases ha
      have hcrit : (s.pc t).waits = true → pc.critical = false := by
        intro hwaits
        rw [hread.sameRole.critical]
        cases hpc : s.pc t <;> rw [hpc] at hwaits <;> first | rfl | cases hwaits
      simp only [acquisition, writerCall, ListAct.thread, setPc_pc, Function.update_self,
        waits_of_read hread]
      cases hwaits : (s.pc t).waits with
      | false => simp [hwaits]
      | true => simp [hwaits, hcrit hwaits]
  | lockRefused u fresh w old hpc =>
      cases ha
      simp [acquisition, writerCall, ListAct.thread, ListPc.waits, ListPc.critical, hpc]
  | lockAcquired u fresh w old hpc =>
      cases ha
      have hstart : (w.start : ListPc T A W).waits = false := by
        cases w <;> rfl
      have hbefore : (s.pc t).waits = true := by
        rw [hpc]
        rfl
      simp [acquisition, writerCall, ListAct.thread, hstart, hbefore]
  | newNode u fresh value dst next halloc =>
      cases ha
      cases halloc with
      | head hpc | inner _ _ hpc => exact hidle _ _ hpc (Function.update_self ..) rfl rfl rfl
  | overwrite u fresh value current i hpc | copy u fresh value current i hpc =>
      cases ha
      exact hidle _ _ hpc (Function.update_self ..) rfl (by split_ifs <;> rfl) rfl
  | unlocking u fresh ret hpc | optimisticLock u fresh value hpc =>
      cases ha
      exact hidle _ _ hpc (Function.update_self ..) rfl (by split_ifs <;> rfl) rfl
  | leave u fresh value ret hpc =>
      cases ha
      exact hidle _ _ hpc (Function.update_self ..) rfl (by rcases ret with _ | _ <;> rfl) rfl
  | freeOutdatedPtr u ret hpc =>
      cases ha
      exact hidle _ _ hpc (Function.update_self ..) rfl rfl rfl
  | linkNew u fresh dst target hpc | linkPast u fresh dst target victim hpc
  | deferFreePointer u fresh current hpc | unlockCall u fresh ret hpc | publish u fresh value e hpc
  | free u fresh m idx hpc | erased u fresh m idx hpc =>
      cases ha
      exact hidle _ _ hpc (Function.update_self ..) rfl rfl rfl

lemma ListSt.waiters_step (hstep : s.step L a = some s') :
    (s.acquisition a s').toList.length + s'.waiters
      = (s.writerCall a s').toList.length + s.waiters := by
  cases hthread : a.thread with
  | none =>
      cases a with
      | advanceGlobalEpoch =>
          cases ListSt.step_effect hstep
          rfl
      | call | freeOutdatedPtr | resume => cases hthread
  | some t =>
      have hown := waits_own hstep hthread
      have hsum := sum_add_eq_sum_add (g := fun u => (s'.pc u).waits.toNat)
        (f := fun u => (s.pc u).waits.toNat) t fun u hu => by
          have hne : a.thread ≠ some u := by
            rw [hthread]
            exact fun heq => hu (Option.some.inj heq).symm
          rw [(step_frame hstep hne).1]
      rw [waiters, waiters]
      omega

end steps

/-- **Restarts are bounded.**  Any number of threads run `Insert`, `Delete`, `LookUp` and
`FreeOutdatedPtr` on one list; a thread that comes to an access through null or to memory that is
not allocated goes no further.  Whatever part of a run is looked at, at whose beginning `t` is in no
call: `t` restarts its `LookUp`s no more often than the lock is acquired exclusively, and that is no
more often than there are writers that wait at the beginning or are called later. -/
theorem lookUp_restarts_bounded {n : ℕ} {T A W : Type} [DecidableEq A] {cmp : T → T → Ordering}
    (L : Layout W cmp) {tr₀ tr : List (ListAct n T A)} {s₀ s : ListSt n T A W}
    (hreach : run (ListSt.step L) ListSt.init tr₀ = some s₀) {t : Fin n} {ret : Option Bool}
    (hout : s₀.pc t = .outside ret) (hrun : run (ListSt.step L) s₀ tr = some s) :
    (history (ListSt.restart t) (ListSt.step L) s₀ tr).length
        ≤ (history ListSt.acquisition (ListSt.step L) s₀ tr).length ∧
      (history ListSt.acquisition (ListSt.step L) s₀ tr).length
        ≤ (history ListSt.writerCall (ListSt.step L) s₀ tr).length + s₀.waiters := by
  have hrestarts : (history (ListSt.restart t) (ListSt.step L) s₀ tr).length + (s.stale t).toNat
      ≤ (history ListSt.acquisition (ListSt.step L) s₀ tr).length + (s₀.stale t).toNat :=
    length_history_le (I := fun s => ∃ l, ListInv L s l) (f := fun s => (s.stale t).toNat)
      (fun _ _ _ ⟨_, h⟩ hstep => h.step hstep)
      (fun _ _ _ ⟨_, h⟩ hstep => ListSt.restart_step h hstep) (ListInv.run hreach) hrun
  have hacquisitions : (history ListSt.acquisition (ListSt.step L) s₀ tr).length + s.waiters
      ≤ (history ListSt.writerCall (ListSt.step L) s₀ tr).length + s₀.waiters :=
    length_history_le (I := fun _ => True) (f := ListSt.waiters) (fun _ _ _ _ _ => trivial)
      (fun _ _ _ _ hstep => (ListSt.waiters_step hstep).le) trivial hrun
  have hfresh : s₀.stale t = false := by
    rw [ListSt.stale, hout]
    rfl
  rw [hfresh] at hrestarts
  exact ⟨(Nat.le_add_right _ _).trans hrestarts, (Nat.le_add_right _ _).trans hacquisitions⟩

/-- An `Insert` costs the `LookUp` of thread `1` its first attempt. -/
theorem lookUp_restarts_bounded_once :
    ∃ s₀ s : ListSt 2 ℕ ℕ ℕ, ∃ tr : List (ListAct 2 ℕ ℕ),
      run (ListSt.step digits) ListSt.init (.call 0 (.insert 412) :: resumes 0 8 7) = some s₀ ∧
      run (ListSt.step digits) s₀ tr = some s ∧
      (history (ListSt.restart 1) (ListSt.step digits) s₀ tr).length = 1 ∧
      1 ≤ (history ListSt.acquisition (ListSt.step digits) s₀ tr).length ∧
      (history ListSt.acquisition (ListSt.step digits) s₀ tr).length
        ≤ (history ListSt.writerCall (ListSt.step digits) s₀ tr).length + s₀.waiters := by
  let pre : List (ListAct 2 ℕ ℕ) := .call 0 (.insert 412) :: resumes 0 8 7
  let tr : List (ListAct 2 ℕ ℕ) :=
    .call 1 (.lookUp 412 0) :: resumes 1 4 0 ++ .call 0 (.insert 117) :: resumes 0 12 8 ++
      resumes 1 11 0
  have hall : ((run (ListSt.step digits) (ListSt.init : ListSt 2 ℕ ℕ ℕ) pre).map fun s₀ =>
      (s₀.pc 1, (run (ListSt.step digits) s₀ tr).isSome,
        (history (ListSt.restart 1) (ListSt.step digits) s₀ tr).length)) =
        some (.outside none, true, 1) := by
    decide +kernel
  obtain ⟨s₀, hreach, hs₀⟩ := Option.map_eq_some_iff.mp hall
  obtain ⟨hout, hrest⟩ := Prod.mk.inj hs₀
  obtain ⟨hsome, hone⟩ := Prod.mk.inj hrest
  obtain ⟨s, hrun⟩ := Option.isSome_iff_exists.mp hsome
  obtain ⟨hrestarts, hacquisitions⟩ := lookUp_restarts_bounded digits hreach hout hrun
  exact ⟨s₀, s, tr, hreach, hrun, hone, hone ▸ hrestarts, hacquisitions⟩

end OptLock
