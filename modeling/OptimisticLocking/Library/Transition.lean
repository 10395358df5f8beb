import Mathlib.Algebra.BigOperators.Group.Finset.Basic
import Mathlib.Data.List.Induction
import Mathlib.Logic.Relation
import Mathlib.Tactic.Common

/-!
# Runs of an action-driven transition function

A system is given by a partial function `step : σ → ι → Option σ`: the action carries every
choice the scheduler makes, and `none` says that the action is not enabled.  An interleaving of
any number of threads is then a list of actions, and a run is the fold of `step` over it.

* `run` — the state after a list of actions, with `run_append` to split a run at a moment.
* `run_invariant` — what one step preserves, a whole run preserves.
* `run_invariant_of_trace` — the same for a predicate that also reads the actions taken so far.
* `run_map` — a system that notes something besides its state runs as it does without.
* `restrict` — the system whose callers keep to a discipline `ok`.
* `EveryStep` — the runs each step of which meets a condition on the state before it.
  `exists_run_of_everyStep` is the progress rule.
* `Repeats` — one action taken again and again: a call that nobody interferes with.
  `exists_repeats_of_decreasing` is the termination rule.
* `Throughout`, `Once` — a predicate that holds at every moment of a run, or at one of them, both
  ends included.
* `history` — what an observer sees of a run.  `yields_of_simulation` is the simulation rule,
  `history_perm` the ledger rule.
-/

namespace Transition

variable {σ ι : Type*} {step : σ → ι → Option σ}

/-- The state after the actions `tr`, when every one of them is enabled in its turn. -/
def run (step : σ → ι → Option σ) (s : σ) (tr : List ι) : Option σ :=
  tr.foldlM step s

@[simp] lemma run_nil (s : σ) : run step s [] = some s := rfl

@[simp] lemma run_cons (s : σ) (a : ι) (tr : List ι) :
    run step s (a :: tr) = (step s a).bind fun s' => run step s' tr := rfl

lemma run_append (s : σ) (tr tr' : List ι) :
    run step s (tr ++ tr') = (run step s tr).bind fun s' => run step s' tr' := by
  simp only [run, List.foldlM_append]
  rfl

lemma run_snoc (s : σ) (tr : List ι) (a : ι) :
    run step s (tr ++ [a]) = (run step s tr).bind fun s' => step s' a := by
  rw [run_append]
  congr 1
  funext s'
  simp

lemma run_append_eq_some {s s' : σ} {tr tr' : List ι} :
    run step s (tr ++ tr') = some s' ↔ ∃ m, run step s tr = some m ∧ run step m tr' = some s' := by
  rw [run_append, Option.bind_eq_some_iff]

lemma run_cons_eq_some {s s' : σ} {a : ι} {tr : List ι} :
    run step s (a :: tr) = some s' ↔ ∃ m, step s a = some m ∧ run step m tr = some s' := by
  rw [run_cons, Option.bind_eq_some_iff]

lemma run_snoc_eq_some {s s' : σ} {tr : List ι} {a : ι} :
    run step s (tr ++ [a]) = some s' ↔ ∃ m, run step s tr = some m ∧ step m a = some s' := by
  rw [run_snoc, Option.bind_eq_some_iff]

/-! ## Invariants -/

/-- **The invariant rule.**  What every step preserves, every run preserves. -/
theorem run_invariant {I : σ → Prop} (hstep : ∀ s a s', I s → step s a = some s' → I s')
    {s s' : σ} {tr : List ι} (hs : I s) (hrun : run step s tr = some s') : I s' := by
  induction tr generalizing s with
  | nil =>
      rw [run_nil, Option.some.injEq] at hrun
      exact hrun ▸ hs
  | cons a tr ih =>
      obtain ⟨m, hm, hrest⟩ := run_cons_eq_some.mp hrun
      exact ih (hstep s a m hs hm) hrest

/-- **The invariant rule with history.**  The predicate may read the actions taken since the
start; one step extends them at the end. -/
theorem run_invariant_of_trace {I : List ι → σ → Prop} {s₀ : σ}
    (hstep : ∀ tr s a s', run step s₀ tr = some s → I tr s → step s a = some s' →
      I (tr ++ [a]) s')
    (h₀ : I [] s₀) {tr : List ι} {s : σ} (hrun : run step s₀ tr = some s) : I tr s := by
  induction tr using List.reverseRecOn generalizing s with
  | nil =>
      rw [run_nil, Option.some.injEq] at hrun
      exact hrun ▸ h₀
  | append_singleton tr a ih =>
      obtain ⟨m, hm, hlast⟩ := run_snoc_eq_some.mp hrun
      exact hstep tr m a s hm (ih hm) hlast

/-- A quantity that no step decreases is not decreased by a run. -/
theorem run_monotone {f : σ → ℕ} (hstep : ∀ s a s', step s a = some s' → f s ≤ f s')
    {s s' : σ} {tr : List ι} (hrun : run step s tr = some s') : f s ≤ f s' :=
  run_invariant (I := fun x => f s ≤ f x) (fun m a m' hm h => Nat.le_trans hm (hstep m a m' h))
    (Nat.le_refl _) hrun

/-- What a system notes besides its state does not change its runs. -/
lemma run_map {τ : Type*} {step' : τ → ι → Option τ} (f : τ → σ)
    (hmap : ∀ w a, (step' w a).map f = step (f w) a) (w : τ) (tr : List ι) :
    (run step' w tr).map f = run step (f w) tr := by
  induction tr generalizing w with
  | nil => rfl
  | cons a tr ih =>
      rw [run_cons, run_cons, ← hmap w a]
      cases step' w a with
      | none => rfl
      | some w' => exact ih w'

/-- The same, where the systems agree only as long as an invariant holds. -/
lemma run_map_of_invariant {τ : Type*} {step' : τ → ι → Option τ} (f : τ → σ) {I : σ → Prop}
    (hI : ∀ s a s', I s → step s a = some s' → I s')
    (hmap : ∀ w a, I (f w) → (step' w a).map f = step (f w) a) {w : τ} (hw : I (f w))
    (tr : List ι) : (run step' w tr).map f = run step (f w) tr := by
  induction tr generalizing w with
  | nil => rfl
  | cons a tr ih =>
      have hstep := hmap w a hw
      rw [run_cons, run_cons, ← hstep]
      cases hw' : step' w a with
      | none => rfl
      | some w' =>
          rw [hw', Option.map_some] at hstep
          exact ih (hI _ a _ hw hstep.symm)

/-! ## Disciplined callers -/

/-- The system in which an action is taken only where `ok` allows it. -/
def restrict (ok : σ → ι → Prop) [∀ s a, Decidable (ok s a)] (step : σ → ι → Option σ) :
    σ → ι → Option σ :=
  fun s a => if ok s a then step s a else none

@[simp] lemma restrict_eq_some {ok : σ → ι → Prop} [∀ s a, Decidable (ok s a)] {s s' : σ} {a : ι} :
    restrict ok step s a = some s' ↔ ok s a ∧ step s a = some s' := by
  simp [restrict]

/-! ## Runs whose steps meet a condition -/

/-- Every action of `tr` is taken in a state in which `ok` holds of it. -/
def EveryStep (step : σ → ι → Option σ) (ok : σ → ι → Prop) (s : σ) (tr : List ι) : Prop :=
  ∀ pre a post m, tr = pre ++ a :: post → run step s pre = some m → ok m a

lemma EveryStep.nil {ok : σ → ι → Prop} {s : σ} : EveryStep step ok s [] := by
  rintro pre a post m hsplit -
  simp at hsplit

lemma EveryStep.cons {ok : σ → ι → Prop} {s : σ} {a : ι} {tr : List ι} (ha : ok s a)
    (htr : ∀ m, step s a = some m → EveryStep step ok m tr) : EveryStep step ok s (a :: tr) := by
  intro pre b post m hsplit hpre
  cases pre with
  | nil =>
      obtain ⟨rfl, -⟩ := List.cons.inj hsplit
      rw [run_nil, Option.some.injEq] at hpre
      exact hpre ▸ ha
  | cons c pre =>
      obtain ⟨rfl, hrest⟩ := List.cons.inj hsplit
      obtain ⟨m', hm', hpre'⟩ := run_cons_eq_some.mp hpre
      exact htr m' hm' pre b post m hrest hpre'

lemma EveryStep.imp {ok ok' : σ → ι → Prop} {s : σ} {tr : List ι}
    (h : EveryStep step ok s tr) (himp : ∀ m a, ok m a → ok' m a) : EveryStep step ok' s tr :=
  fun pre a post m hsplit hpre => himp m a (h pre a post m hsplit hpre)

lemma EveryStep.and {ok ok' : σ → ι → Prop} {s : σ} {tr : List ι} (h : EveryStep step ok s tr)
    (h' : EveryStep step ok' s tr) : EveryStep step (fun m a => ok m a ∧ ok' m a) s tr :=
  fun pre a post m hsplit hpre => ⟨h pre a post m hsplit hpre, h' pre a post m hsplit hpre⟩

/-- What a system notes besides its state does not change the conditions its steps meet. -/
lemma EveryStep.of_map {τ : Type*} {step' : τ → ι → Option τ} (f : τ → σ)
    (hmap : ∀ w a, (step' w a).map f = step (f w) a) {ok : σ → ι → Prop} {w : τ} {tr : List ι}
    (h : EveryStep step ok (f w) tr) : EveryStep step' (fun w a => ok (f w) a) w tr := by
  intro pre a post m hsplit hpre
  refine h pre a post (f m) hsplit ?_
  rw [← run_map f hmap, hpre]
  rfl

/-- A condition on the action alone. -/
lemma everyStep_of_forall {ok : ι → Prop} {s : σ} {tr : List ι} (h : ∀ a ∈ tr, ok a) :
    EveryStep step (fun _ a => ok a) s tr := by
  rintro pre a post m rfl -
  exact h a (by simp)

lemma everyStep_cons {ok : σ → ι → Prop} {s : σ} {a : ι} {tr : List ι} :
    EveryStep step ok s (a :: tr) ↔ ok s a ∧ ∀ m ∈ step s a, EveryStep step ok m tr := by
  refine ⟨fun h => ⟨h [] a tr s rfl rfl, ?_⟩, fun h => .cons h.1 h.2⟩
  intro m hm pre b post m' hsplit hpre
  exact h (a :: pre) b post m' (by rw [hsplit, List.cons_append])
    (run_cons_eq_some.mpr ⟨m, hm, hpre⟩)

lemma everyStep_snoc {ok : σ → ι → Prop} {s m : σ} {a : ι} {tr : List ι}
    (hm : run step s tr = some m) :
    EveryStep step ok s (tr ++ [a]) ↔ EveryStep step ok s tr ∧ ok m a := by
  induction tr generalizing s with
  | nil =>
      rw [run_nil, Option.some.injEq] at hm
      subst hm
      simp [everyStep_cons, EveryStep.nil]
  | cons b tr ih =>
      obtain ⟨m', hm', hrest⟩ := run_cons_eq_some.mp hm
      rw [List.cons_append, everyStep_cons, everyStep_cons]
      simp [hm', ih hrest, and_assoc]

/-- Whether a run of given actions meets a decidable condition can be computed. -/
instance EveryStep.decidable {ok : σ → ι → Prop} [∀ s a, Decidable (ok s a)] :
    (s : σ) → (tr : List ι) → Decidable (EveryStep step ok s tr)
  | _, [] => .isTrue .nil
  | _, _ :: tr =>
      have : DecidablePred fun m => EveryStep step ok m tr := fun m => EveryStep.decidable m tr
      decidable_of_iff _ everyStep_cons.symm

/-- Actions that are each enabled in their turn have a run. -/
lemma exists_run_of_everyStep {s : σ} {tr : List ι}
    (h : EveryStep step (fun m a => (step m a).isSome) s tr) : ∃ s', run step s tr = some s' := by
  induction tr generalizing s with
  | nil => exact ⟨s, rfl⟩
  | cons a tr ih =>
      obtain ⟨ha, htr⟩ := everyStep_cons.mp h
      obtain ⟨m, hm⟩ := Option.isSome_iff_exists.mp ha
      obtain ⟨s', hs'⟩ := ih (htr m hm)
      exact ⟨s', run_cons_eq_some.mpr ⟨m, hm, hs'⟩⟩

/-- What every step that meets the condition preserves, a run of such steps preserves. -/
theorem run_invariant_of_everyStep {I : σ → Prop} {ok : σ → ι → Prop}
    (hstep : ∀ s a s', I s → ok s a → step s a = some s' → I s')
    {s s' : σ} {tr : List ι} (hs : I s) (hok : EveryStep step ok s tr)
    (hrun : run step s tr = some s') : I s' := by
  induction tr generalizing s with
  | nil =>
      rw [run_nil, Option.some.injEq] at hrun
      exact hrun ▸ hs
  | cons a tr ih =>
      obtain ⟨m, hm, hrest⟩ := run_cons_eq_some.mp hrun
      obtain ⟨ha, htr⟩ := everyStep_cons.mp hok
      exact ih (hstep s a m hs ha hm) (htr m hm) hrest

/-! ## One action again and again -/

/-- The action `a`, taken some number of times, leads from `s` to `s'`. -/
abbrev Repeats (step : σ → ι → Option σ) (a : ι) : σ → σ → Prop :=
  Relation.ReflTransGen fun s s' => step s a = some s'

lemma exists_run_of_repeats {a : ι} {s s' : σ} (h : Repeats step a s s') :
    ∃ k, run step s (List.replicate k a) = some s' := by
  induction h using Relation.ReflTransGen.head_induction_on with
  | refl => exact ⟨0, rfl⟩
  | head hstep _ ih =>
      obtain ⟨k, hk⟩ := ih
      exact ⟨k + 1, run_cons_eq_some.mpr ⟨_, hstep, hk⟩⟩

/-- **The termination rule.**  An action that can be taken until the goal is reached, and that
lowers a measure until then, reaches the goal when it is taken again and again. -/
theorem exists_repeats_of_decreasing {I G : σ → Prop} {f : σ → ℕ} {a : ι}
    (hstep : ∀ s, I s → ¬ G s → ∃ s', step s a = some s' ∧ I s' ∧ (G s' ∨ f s' < f s))
    {s : σ} (hs : I s) : ∃ s', Repeats step a s s' ∧ I s' ∧ G s' := by
  induction hf : f s using Nat.strongRecOn generalizing s with
  | ind k ih =>
      by_cases hgoal : G s
      · exact ⟨s, .refl, hs, hgoal⟩
      · obtain ⟨m, hm, hI, hdone | hlt⟩ := hstep s hs hgoal
        · exact ⟨m, .single hm, hI, hdone⟩
        · obtain ⟨s', hrest, hI', hdone⟩ := ih (f m) (hf ▸ hlt) hI rfl
          exact ⟨s', .head hm hrest, hI', hdone⟩

/-- **Runs that come to an end.**  When every action of a kind lowers a measure, a run of such
actions is no longer than the measure is at its start. -/
theorem length_add_le_of_decreasing {M : σ → ℕ → Prop} {ok : ι → Prop}
    (hstep : ∀ s k a s', M s k → ok a → step s a = some s' → ∃ k', M s' k' ∧ k' < k)
    {s s' : σ} {k : ℕ} {tr : List ι} (hs : M s k) (hok : ∀ a ∈ tr, ok a)
    (hrun : run step s tr = some s') : ∃ k', M s' k' ∧ tr.length + k' ≤ k := by
  induction tr generalizing s k with
  | nil =>
      rw [run_nil, Option.some.injEq] at hrun
      exact ⟨k, hrun ▸ hs, by simp⟩
  | cons a tr ih =>
      obtain ⟨m, hm, hrest⟩ := run_cons_eq_some.mp hrun
      obtain ⟨j, hj, hlt⟩ := hstep s k a m hs (hok a List.mem_cons_self) hm
      obtain ⟨k', hk', hle⟩ := ih hj (fun b hb => hok b (List.mem_cons_of_mem a hb)) hrest
      exact ⟨k', hk', by rw [List.length_cons]; omega⟩

/-- **Runs that come to an end but for setbacks.**  When every action lowers a measure, but for some
that raise it by a constant, a run is no longer than the measure is at its start and than the
setbacks make up for. -/
theorem length_add_le_of_setbacks {I : σ → Prop} {ok : ι → Prop} {f : σ → ℕ} {setback : ι → Bool}
    {k : ℕ} (hI : ∀ s a s', I s → ok a → step s a = some s' → I s')
    (hstep : ∀ s a s', I s → ok a → step s a = some s' →
      f s' + 1 ≤ f s + if setback a then k else 0)
    {s s' : σ} {tr : List ι} (hs : I s) (hok : ∀ a ∈ tr, ok a) (hrun : run step s tr = some s') :
    tr.length + f s' ≤ f s + k * tr.countP setback := by
  induction tr generalizing s with
  | nil =>
      rw [run_nil, Option.some.injEq] at hrun
      subst hrun
      simp
  | cons a tr ih =>
      obtain ⟨m, hm, hrest⟩ := run_cons_eq_some.mp hrun
      have ha : ok a := hok a List.mem_cons_self
      have hhead := hstep s a m hs ha hm
      have htail := ih (hI s a m hs ha hm) (fun b hb => hok b (List.mem_cons_of_mem a hb)) hrest
      rw [List.length_cons, List.countP_cons, Nat.mul_add]
      split_ifs at hhead ⊢ <;> omega

/-- A measure that sums over the threads changes by what the part of one thread does, when no other
part changes. -/
lemma sum_add_eq_sum_add {T : Type*} [Fintype T] [DecidableEq T] {f g : T → ℕ} (t : T)
    (hothers : ∀ u, u ≠ t → g u = f u) : ∑ u, g u + f t = ∑ u, f u + g t := by
  have hsame : ∑ u ∈ Finset.univ.erase t, g u = ∑ u ∈ Finset.univ.erase t, f u :=
    Finset.sum_congr rfl fun u hu => hothers u (Finset.ne_of_mem_erase hu)
  rw [← Finset.add_sum_erase _ _ (Finset.mem_univ t),
    ← Finset.add_sum_erase _ _ (Finset.mem_univ t), hsame]
  omega

/-! ## Moments of a run -/

/-- `P` holds at every moment of the run of `tr` from `s`, the two ends included. -/
def Throughout (step : σ → ι → Option σ) (P : σ → Prop) (s : σ) (tr : List ι) : Prop :=
  ∀ pre post m, tr = pre ++ post → run step s pre = some m → P m

lemma Throughout.finish {P : σ → Prop} {s s' : σ} {tr : List ι} (h : Throughout step P s tr)
    (hrun : run step s tr = some s') : P s' :=
  h tr [] s' (List.append_nil tr).symm hrun

lemma throughout_snoc {P : σ → Prop} {s s' : σ} {tr : List ι} {a : ι}
    (hrun : run step s (tr ++ [a]) = some s') :
    Throughout step P s (tr ++ [a]) ↔ Throughout step P s tr ∧ P s' := by
  constructor
  · intro h
    refine ⟨fun pre post m hsplit hpre => ?_, h.finish hrun⟩
    exact h pre (post ++ [a]) m (by rw [hsplit, List.append_assoc]) hpre
  · rintro ⟨h, hlast⟩ pre post m hsplit hpre
    -- the moment is either inside `tr` or the very end
    rcases List.eq_nil_or_concat post with rfl | ⟨post', b, rfl⟩
    · rw [List.append_nil] at hsplit
      rw [← hsplit, hrun, Option.some.injEq] at hpre
      exact hpre ▸ hlast
    · rw [List.concat_eq_append, ← List.append_assoc] at hsplit
      exact h pre post' m (List.append_inj' hsplit rfl).1 hpre

/-- `P` holds at some moment of the run of `tr` from `s`, the two ends included. -/
def Once (step : σ → ι → Option σ) (P : σ → Prop) (s : σ) (tr : List ι) : Prop :=
  ∃ pre post m, tr = pre ++ post ∧ run step s pre = some m ∧ P m

lemma Once.now {P : σ → Prop} {s s' : σ} {tr : List ι} (hrun : run step s tr = some s')
    (h : P s') : Once step P s tr :=
  ⟨tr, [], s', (List.append_nil tr).symm, hrun, h⟩

lemma Once.snoc {P : σ → Prop} {s : σ} {tr : List ι} (h : Once step P s tr) (a : ι) :
    Once step P s (tr ++ [a]) := by
  obtain ⟨pre, post, m, rfl, hm⟩ := h
  exact ⟨pre, post ++ [a], m, List.append_assoc .., hm⟩

/-! ## What an observer sees -/

section history

variable {E : Type*} {observe : σ → ι → σ → Option E}

/-- What is seen of the steps of a run, in their order; most steps are not seen at all. -/
def history (observe : σ → ι → σ → Option E) (step : σ → ι → Option σ) (s : σ) : List ι → List E
  | [] => []
  | a :: tr =>
      match step s a with
      | some s' => (observe s a s').toList ++ history observe step s' tr
      | none => []

lemma history_cons {s s' : σ} {a : ι} (h : step s a = some s') (tr : List ι) :
    history observe step s (a :: tr)
      = (observe s a s').toList ++ history observe step s' tr := by
  rw [history, h]

lemma history_append {s m : σ} {tr : List ι} (hrun : run step s tr = some m) (tr' : List ι) :
    history observe step s (tr ++ tr')
      = history observe step s tr ++ history observe step m tr' := by
  induction tr generalizing s with
  | nil =>
      rw [run_nil, Option.some.injEq] at hrun
      subst hrun
      rfl
  | cons a tr ih =>
      obtain ⟨m', hm', hrest⟩ := run_cons_eq_some.mp hrun
      rw [List.cons_append, history_cons hm', history_cons hm', ih hrest, List.append_assoc]

lemma history_snoc {s m s' : σ} {tr : List ι} {a : ι} (hrun : run step s tr = some m)
    (hstep : step m a = some s') :
    history observe step s (tr ++ [a])
      = history observe step s tr ++ (observe m a s').toList := by
  rw [history_append hrun, history_cons hstep, history, List.append_nil]

/-- **The amortised rule.**  When in every step one thing is seen no more often than another, but
for what a debt grows by, so it is in every run. -/
theorem length_history_le {E' : Type*} {observe' : σ → ι → σ → Option E'} {I : σ → Prop} {f : σ → ℕ}
    (hI : ∀ s a s', I s → step s a = some s' → I s')
    (hstep : ∀ s a s', I s → step s a = some s' →
      (observe s a s').toList.length + f s' ≤ (observe' s a s').toList.length + f s)
    {s s' : σ} {tr : List ι} (hs : I s) (hrun : run step s tr = some s') :
    (history observe step s tr).length + f s' ≤ (history observe' step s tr).length + f s := by
  induction tr generalizing s with
  | nil =>
      rw [run_nil, Option.some.injEq] at hrun
      subst hrun
      exact Nat.le_refl _
  | cons a tr ih =>
      obtain ⟨m, hm, hrest⟩ := run_cons_eq_some.mp hrun
      have hhead := hstep s a m hs hm
      have htail := ih (hI s a m hs hm) hrest
      rw [history_cons hm, history_cons hm, List.length_append, List.length_append]
      omega

/-- When every step adds to the living what it is seen to bring and takes what it is seen to remove,
so does every run. -/
lemma count_history {A : Type*} [DecidableEq A] {brought removed : σ → ι → σ → Option A}
    {p : σ → A → Bool}
    (hstep : ∀ s x s', step s x = some s' → ∀ a,
      (removed s x s').toList.count a + (p s' a).toNat
        = (brought s x s').toList.count a + (p s a).toNat)
    {s s' : σ} {tr : List ι} (hrun : run step s tr = some s') (a : A) :
    (history removed step s tr).count a + (p s' a).toNat
      = (history brought step s tr).count a + (p s a).toNat := by
  induction tr generalizing s with
  | nil =>
      rw [run_nil, Option.some.injEq] at hrun
      subst hrun
      rfl
  | cons x tr ih =>
      obtain ⟨m, hm, hrest⟩ := run_cons_eq_some.mp hrun
      have hhead := hstep s x m hm a
      have htail := ih hrest
      rw [history_cons hm, history_cons hm, List.count_append, List.count_append]
      omega

/-- **The ledger rule.**  When nothing lives at first, what was brought in a run is what was removed
and what lives at its end. -/
theorem history_perm {A : Type*} [DecidableEq A] {brought removed : σ → ι → σ → Option A}
    {p : σ → A → Bool}
    (hstep : ∀ s x s', step s x = some s' → ∀ a,
      (removed s x s').toList.count a + (p s' a).toNat
        = (brought s x s').toList.count a + (p s a).toNat)
    {s s' : σ} {tr : List ι} (hrun : run step s tr = some s') (hempty : ∀ a, p s a = false)
    {rest : List A} (hnodup : rest.Nodup) (hmem : ∀ a, a ∈ rest ↔ p s' a = true) :
    (history removed step s tr ++ rest).Perm (history brought step s tr) := by
  rw [List.perm_iff_count]
  intro a
  have hledger := count_history hstep hrun a
  rw [hempty a, Bool.toNat_false, Nat.add_zero] at hledger
  rw [List.count_append, ← hledger, hnodup.count, Nat.add_right_inj]
  by_cases ha : p s' a = true
  · rw [if_pos ((hmem a).mpr ha), ha, Bool.toNat_true]
  · rw [if_neg fun hin => ha ((hmem a).mp hin), Bool.eq_false_iff.mpr ha, Bool.toNat_false]

/-- Some run leads from `s` to `s'`, and `obs` is what is seen of it. -/
def Yields (observe : σ → ι → σ → Option E) (step : σ → ι → Option σ) (s : σ) (obs : List E)
    (s' : σ) : Prop :=
  ∃ tr, run step s tr = some s' ∧ history observe step s tr = obs

lemma Yields.refl (s : σ) : Yields observe step s [] s := ⟨[], rfl, rfl⟩

lemma Yields.single {s s' : σ} {a : ι} (h : step s a = some s') :
    Yields observe step s (observe s a s').toList s' := by
  refine ⟨[a], by rw [run_cons, h]; rfl, ?_⟩
  rw [history_cons h, history, List.append_nil]

lemma Yields.trans {s m s' : σ} {obs obs' : List E} (h : Yields observe step s obs m)
    (h' : Yields observe step m obs' s') : Yields observe step s (obs ++ obs') s' := by
  obtain ⟨tr, hrun, rfl⟩ := h
  obtain ⟨tr', hrun', rfl⟩ := h'
  exact ⟨tr ++ tr', run_append_eq_some.mpr ⟨m, hrun, hrun'⟩, history_append hrun tr'⟩

/-- **The simulation rule.**  When every step of one system is matched by a run of another in which
the same is seen, so is every run.  `G` is a condition that holds up to the end of the run. -/
theorem yields_of_simulation {τ κ : Type*} {step' : τ → κ → Option τ}
    {observe' : τ → κ → τ → Option E} {G : σ → Prop} {R : σ → τ → Prop}
    (hG : ∀ s a s', step s a = some s' → G s' → G s)
    (hstep : ∀ s a s' w, R s w → step s a = some s' → G s' →
      ∃ w', Yields observe' step' w (observe s a s').toList w' ∧ R s' w')
    {s₀ s : σ} {w₀ : τ} {tr : List ι} (h₀ : R s₀ w₀) (hrun : run step s₀ tr = some s) (hs : G s) :
    ∃ w, Yields observe' step' w₀ (history observe step s₀ tr) w ∧ R s w := by
  refine run_invariant_of_trace (I := fun tr s => G s →
    ∃ w, Yields observe' step' w₀ (history observe step s₀ tr) w ∧ R s w) ?_ ?_ hrun hs
  · intro tr s a s' htr ih hs' hG'
    obtain ⟨w, hw, hR⟩ := ih (hG s a s' hs' hG')
    obtain ⟨w', hw', hR'⟩ := hstep s a s' w hR hs' hG'
    exact ⟨w', history_snoc htr hs' ▸ hw.trans hw', hR'⟩
  · intro _
    exact ⟨w₀, .refl w₀, h₀⟩

end history

end Transition
