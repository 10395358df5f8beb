import OptimisticLocking.List.Linearizability

/-!
# The output of a `LookUp` that finds nothing

`MutexSortedList::LookUp` writes `result` only when it returns `true`.  `OptimisticSortedList`
writes it inside an attempt, before the destructor of the guard has validated that attempt.  When
the validation throws, the words that were copied stay where they are, and the next attempt may
find nothing.

* `ListPc.foundNode` — the attempt has found a node; without another, the call returns `true`.
* `ListSt.DiscardsCopy` — the validation throws such an attempt away.
* **`failed_lookUp_output`**, and **`discarded_copy_stays`** where that happens.
-/

namespace OptLock

open LinkedList OrderedList HybridLock Transition

section control

variable {T A W : Type}

/-- From the moment the search has found a node to the end of the attempt. -/
def ListPc.foundNode : ListPc T A W → Bool
  | .copy _ _ _ => true
  | .validate _ found => found
  | .epochLeave _ ret => ret = some true
  | .outside ret => ret = some true
  | _ => false

end control

section output

variable {n : ℕ} {T A W : Type} {cmp : T → T → Ordering} {L : Layout W cmp}
  {s s' : ListSt n T A W} {t : Fin n} {value result : T}

/-- The next step of `t` throws away an attempt that has found a node. -/
def ListSt.DiscardsCopy (s : ListSt n T A W) (t : Fin n) : Prop :=
  match s.pc t with
  | .validate _ found =>
      found = true ∧ HybridGuard.mustRestart (s.state t) s.lock.stateAndVersion = true
  | _ => False

instance (s : ListSt n T A W) (t : Fin n) : Decidable (s.DiscardsCopy t) := by
  unfold ListSt.DiscardsCopy
  split <;> infer_instance

/-- No step of `t` throws away an attempt that has found a node. -/
def ListSt.KeepsCopy (t : Fin n) (s : ListSt n T A W) (a : ListAct n T A) : Prop :=
  a.thread = some t → ¬ s.DiscardsCopy t

instance (t : Fin n) : (s : ListSt n T A W) → (a : ListAct n T A) → Decidable (s.KeepsCopy t a) :=
  fun _ _ => inferInstanceAs (Decidable (_ → _))

/-- The only step that reads and ends an attempt that has found a node is its validation. -/
lemma ReadEffect.foundNode {pc : ListPc T A W} (h : ReadEffect L s t pc)
    (hfound : pc.foundNode = false) :
    (s.pc t).foundNode = false ∨ ∃ value, s.pc t = .validate value true := by
  cases h with
  | restart value found hpc | valid value found hpc =>
      cases found with
      | false => exact .inl (by rw [hpc]; rfl)
      | true => exact .inr ⟨value, hpc⟩
  | lockLoad _ hpc | headNull _ hpc | headTest _ hpc | headNode _ hpc | headCompare _ _ _ hpc
  | searchRoot _ hpc | compare _ _ _ _ _ hpc | next _ _ hpc | assertNext _ _ hpc
  | overwriteNode _ _ hpc | unlink _ _ hpc | epochLoad _ hpc | scan _ _ hpc | scanned _ _ hpc =>
      exact .inl (by rw [hpc]; rfl)

/-! ## From the call to the return -/

/-- A call `LookUp(value, result)` by `t`: the output is written only by an attempt that has found
a node. -/
structure OutputInv (L : Layout W cmp) (t : Fin n) (value result : T) (s : ListSt n T A W) :
    Prop where
  inside : (s.pc t).lookingUp = some value ∨ ∃ found, s.pc t = .outside (some found)
  output : (s.pc t).foundNode = false → s.result t = L.words result

variable [DecidableEq A] {a : ListAct n T A} {fresh : A}

/-- A validation that does not throw leads to the return. -/
lemma ListSt.validate_kept {v : T} (hpc : s.pc t = .validate v true) (hkeeps : ¬ s.DiscardsCopy t)
    (hstep : s.step L (.resume t fresh) = some s') : s'.pc t = .epochLeave v (some true) := by
  have hvalid : HybridGuard.mustRestart (s.state t) s.lock.stateAndVersion = false := by
    simpa [ListSt.DiscardsCopy, hpc] using hkeeps
  simp only [ListSt.step, ListSt.resume, ListSt.read, hpc, hvalid, Option.map_some,
    Option.some.injEq] at hstep
  rw [← hstep]
  exact Function.update_self ..

namespace OutputInv

lemma call (hcall : s.step L (.call t (.lookUp value result)) = some s') :
    OutputInv L t value result s' := by
  cases ListSt.step_effect hcall with
  | call _ _ ret hpc =>
      refine ⟨.inl ?_, fun _ => ?_⟩
      · simp [ListSt.call, ListPc.lookingUp]
      · simp [ListSt.call]

lemma others (h : OutputInv L t value result s) (hstep : s.step L a = some s')
    (ht : a.thread ≠ some t) : OutputInv L t value result s' := by
  obtain ⟨hpc, -, hresult, -⟩ := ListSt.step_frame hstep ht
  refine ⟨?_, ?_⟩
  · rw [hpc]
    exact h.inside
  · rw [hpc, hresult]
    exact h.output

/-- A step of the call. -/
lemma resume (h : OutputInv L t value result s) (hkeeps : ¬ s.DiscardsCopy t)
    (hstep : s.step L (.resume t fresh) = some s') : OutputInv L t value result s' := by
  rcases h.inside with hlook | ⟨found, hout⟩
  · cases ListSt.lookUp_effect hlook hstep with
    | read pc hread hlook' =>
        refine ⟨.inl (by simpa using hlook'), ?_⟩
        intro hfound
        have hpc' : pc.foundNode = false := by simpa using hfound
        rcases hread.foundNode hpc' with hbefore | ⟨v, hpc⟩
        · exact h.output hbefore
        · rw [ListSt.validate_kept hpc hkeeps hstep] at hfound
          cases hfound
    | publish epoch hpc =>
        refine ⟨.inl ?_, fun _ => h.output (by rw [hpc]; rfl)⟩
        simp [ListPc.lookingUp]
    | optimisticLock pc hpc hnext =>
        refine ⟨.inl ?_, fun _ => h.output (by rw [hpc]; rfl)⟩
        rcases hnext with rfl | rfl <;> simp [ListPc.lookingUp]
    | copy current i pc word hpc hnext =>
        refine ⟨.inl ?_, ?_⟩
        · rcases hnext with rfl | rfl <;> simp [ListPc.lookingUp]
        · rcases hnext with rfl | rfl <;> simp [ListPc.foundNode]
    | leave ret hpc =>
        have hout := h.output
        rw [hpc] at hout
        cases ret with
        | none =>
            refine ⟨.inl ?_, fun _ => hout rfl⟩
            simp [ListPc.left, ListPc.lookingUp]
        | some found =>
            refine ⟨.inr ⟨found, Function.update_self ..⟩, ?_⟩
            rw [ListSt.setPc_pc, Function.update_self]
            exact hout
  · rw [ListSt.step, resume_outside hout] at hstep
    cases hstep

/-- **The step lemma.** -/
theorem step (h : OutputInv L t value result s) (hbegins : ¬ a.Begins t) (hkeeps : s.KeepsCopy t a)
    (hstep : s.step L a = some s') : OutputInv L t value result s' := by
  by_cases ht : a.thread = some t
  · obtain ⟨fresh, rfl⟩ := ListAct.eq_resume ht hbegins
    exact h.resume (hkeeps ht) hstep
  · exact h.others hstep ht

end OutputInv

end output

/-- **A `LookUp` that finds nothing leaves the output alone** when no attempt that has found a node
is thrown away.  Any number of other threads take any actions in between, from any state of the
list. -/
theorem failed_lookUp_output {n : ℕ} {T A W : Type} [DecidableEq A] {cmp : T → T → Ordering}
    (L : Layout W cmp) {tr : List (ListAct n T A)} {s₀ s₁ s₂ : ListSt n T A W} {t : Fin n}
    {value result : T} (hcall : s₀.step L (.call t (.lookUp value result)) = some s₁)
    (hrun : run (ListSt.step L) s₁ tr = some s₂) (hbegins : ∀ a ∈ tr, ¬ a.Begins t)
    (hkeeps : EveryStep (ListSt.step L) (ListSt.KeepsCopy t) s₁ tr)
    (hreturn : s₂.pc t = .outside (some false)) : s₂.result t = L.words result := by
  have hinv : OutputInv L t value result s₂ :=
    run_invariant_of_everyStep (I := OutputInv L t value result)
      (fun _ _ _ h hok hstep => h.step hok.1 hok.2 hstep) (.call hcall)
      ((everyStep_of_forall hbegins).and hkeeps) hrun
  exact hinv.output (by rw [hreturn]; rfl)

/-- Thread `1` inserts 412 into the empty list in the middle of the search for 300.  The attempt is
thrown away, the second one passes 412 by, and the output is still 999. -/
theorem failed_lookUp_output_restarted :
    ∃ (s₁ s₂ : ListSt 2 ℕ ℕ ℕ) (tr : List (ListAct 2 ℕ ℕ)),
      ListSt.init.step digits (.call 0 (.lookUp 300 999)) = some s₁ ∧
      run (ListSt.step digits) s₁ tr = some s₂ ∧ s₂.lock.releases = 1 ∧
      s₂.pc 0 = .outside (some false) ∧ s₂.result 0 = digits.words 999 := by
  let tr : List (ListAct 2 ℕ ℕ) :=
    resumes 0 4 0 ++ .call 1 (.insert 412) :: resumes 1 8 7 ++ resumes 0 11 0
  have hall : (run (ListSt.step digits) (ListSt.init : ListSt 2 ℕ ℕ ℕ)
      (.call 0 (.lookUp 300 999) :: tr)).map (fun s => (s.pc 0, s.lock.releases))
        = some (.outside (some false), 1) := by decide +kernel
  obtain ⟨s₂, hrun, hend⟩ := Option.map_eq_some_iff.mp hall
  obtain ⟨hreturn, hreleases⟩ := Prod.mk.inj hend
  obtain ⟨s₁, hcall, hrun⟩ := run_cons_eq_some.mp hrun
  have hkeeps : EveryStep (ListSt.step digits) (ListSt.KeepsCopy 0) s₁ tr := by
    have hall : EveryStep (ListSt.step digits) (ListSt.KeepsCopy 0) (ListSt.init : ListSt 2 ℕ ℕ ℕ)
        (.call 0 (.lookUp 300 999) :: tr) := by decide +kernel
    exact (everyStep_cons.mp hall).2 s₁ hcall
  exact ⟨s₁, s₂, tr, hcall, hrun, hreleases, hreturn,
    failed_lookUp_output digits hcall hrun (by decide) hkeeps hreturn⟩

/-- Thread `0` looks up 400 and has copied 412 when thread `1` deletes that node.  The validation
throws, the second attempt finds nothing, and the call returns `false` with 412 in the output that
was 999. -/
theorem discarded_copy_stays :
    ∃ (tr₀ tr : List (ListAct 2 ℕ ℕ)) (s₀ s₁ s₂ : ListSt 2 ℕ ℕ ℕ),
      run (ListSt.step digits) ListSt.init tr₀ = some s₀ ∧
      s₀.step digits (.call 0 (.lookUp 400 999)) = some s₁ ∧
      run (ListSt.step digits) s₁ tr = some s₂ ∧ (∀ a ∈ tr, ¬ a.Begins 0) ∧
      s₂.pc 0 = .outside (some false) ∧ s₂.result 0 = digits.words 412 ∧
      s₂.result 0 ≠ digits.words 999 := by
  let tr₀ : List (ListAct 2 ℕ ℕ) := .call 1 (.insert 412) :: resumes 1 8 7
  let tr : List (ListAct 2 ℕ ℕ) :=
    resumes 0 13 0 ++ .call 1 (.delete 400) :: resumes 1 15 0 ++ resumes 0 8 0
  have hall : (run (ListSt.step digits) (ListSt.init : ListSt 2 ℕ ℕ ℕ)
      (tr₀ ++ .call 0 (.lookUp 400 999) :: tr)).map (fun s => (s.pc 0, s.result 0))
        = some (.outside (some false), [4, 1, 2]) := by decide +kernel
  obtain ⟨s₂, hrun, hend⟩ := Option.map_eq_some_iff.mp hall
  obtain ⟨hreturn, hresult⟩ := Prod.mk.inj hend
  obtain ⟨s₀, hreach, hrest⟩ := run_append_eq_some.mp hrun
  obtain ⟨s₁, hcall, hrun⟩ := run_cons_eq_some.mp hrest
  refine ⟨tr₀, tr, s₀, s₁, s₂, hreach, hcall, hrun, by decide, hreturn, hresult, ?_⟩
  rw [hresult]
  decide

end OptLock
