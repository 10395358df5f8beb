import OptimisticLocking.Library.Transition
import OptimisticLocking.List.Calls

/-!
# Both lists refine an ordered map

Sequences of calls, one after another.  A call that does not return is not a step, so a sequence
has a run exactly when all of its calls return; the state of a run carries the outcomes so far.

* `logged` — the client that makes the calls; `mapRun` — the same calls to the map.
* `RefinesMap` — after every call, the outcomes are those of the map and the chain stores what
  the map does.
* **`lists_refine_map`** — `MutexSortedList` refines the map.  So does `OptimisticSortedList`,
  unless a `Delete` comes after `2 ^ 56` calls of `Insert` and `Delete`: the carry out of the
  version of its lock is then taken for a reader that never leaves, and `Delete` waits for ever.
-/

namespace OptLock

open LinkedList OrderedList Transition

variable {T σ ι : Type}

/-- A client that makes calls and notes what they return. -/
def logged (call : σ → ι → Except Fault (Outcome T × σ)) :
    σ × List (Outcome T) → ι → Option (σ × List (Outcome T)) :=
  fun s c =>
    match call s.1 c with
    | .ok (out, s') => some (s', s.2 ++ [out])
    | .error _ => none

/-- The map after the calls, and what they return. -/
def mapRun (cmp : T → T → Ordering) (calls : List (Call T)) : ClassMap T × List (Outcome T) :=
  calls.foldl (fun s c => ((mapCall cmp s.1 c).2, s.2 ++ [(mapCall cmp s.1 c).1]))
    (ClassMap.empty, [])

/-- After each of the calls, all of them so far have returned what the map returns, and the chain
from `root_` is finite and acyclic, strictly increasing, and stores what the map does. -/
def RefinesMap (cmp : T → T → Ordering) (call : σ → ι → Except Fault (Outcome T × σ))
    (mem : σ → ListMem T) (callOf : ι → Call T) (init : σ) (calls : List ι) : Prop :=
  ∀ pre, pre <+: calls → ∃ s, run (logged call) (init, []) pre = some s ∧
    s.2 = (mapRun cmp (pre.map callOf)).2 ∧
    ∃ l, (mem s.1).Chain l ∧ (l.map Prod.fst).Nodup ∧ Sorted cmp (l.map Prod.snd) ∧
      ∀ k, (mapRun cmp (pre.map callOf)).1 k = lookup cmp k (l.map Prod.snd)

/-- The `Insert` calls return. -/
def InsertsReturn (call : σ → ι → Except Fault (Outcome T × σ)) (callOf : ι → Call T) (init : σ)
    (calls : List ι) : Prop :=
  EveryStep (logged call) (fun s c => (callOf c).IsInsert → ((logged call) s c).isSome)
    (init, []) calls

section logged

variable {cmp : T → T → Ordering} {call : σ → ι → Except Fault (Outcome T × σ)}
  {mem : σ → ListMem T} {callOf : ι → Call T} {init : σ}

lemma mapRun_snoc (calls : List (Call T)) (c : Call T) :
    mapRun cmp (calls ++ [c]) =
      ((mapCall cmp (mapRun cmp calls).1 c).2,
        (mapRun cmp calls).2 ++ [(mapCall cmp (mapRun cmp calls).1 c).1]) := by
  simp [mapRun]

lemma logged_eq_some {s s' : σ × List (Outcome T)} {c : ι} :
    logged call s c = some s' ↔ ∃ out, call s.1 c = .ok (out, s'.1) ∧ s'.2 = s.2 ++ [out] := by
  obtain ⟨s, log⟩ := s
  obtain ⟨s', log'⟩ := s'
  cases hcall : call s c with
  | error e => simp [logged, hcall]
  | ok out =>
      obtain ⟨out, s₁⟩ := out
      simp only [logged, hcall, Option.some.injEq, Prod.mk.injEq, Except.ok.injEq]
      constructor
      · rintro ⟨rfl, rfl⟩
        exact ⟨out, ⟨rfl, rfl⟩, rfl⟩
      · rintro ⟨out', ⟨rfl, rfl⟩, rfl⟩
        exact ⟨rfl, rfl⟩

/-- What the calls so far establish: the list holds the map, the outcomes are those of the map,
and `I` of the calls and the list. -/
structure Simulates (cmp : T → T → Ordering) (mem : σ → ListMem T) (callOf : ι → Call T)
    (I : List ι → σ → Prop) (pre : List ι) (s : σ × List (Outcome T)) : Prop where
  holds : (mem s.1).Holds cmp (mapRun cmp (pre.map callOf)).1
  log : s.2 = (mapRun cmp (pre.map callOf)).2
  aux : I pre s.1

variable {I : List ι → σ → Prop}

/-- **The run lemma.**  If every call that returns answers like the map and leaves a list that holds
the map, so do any number of calls. -/
theorem simulates_of_run
    (hcall : ∀ pre s c map out s', I pre s → (mem s).Holds cmp map → call s c = .ok (out, s') →
      out = (mapCall cmp map (callOf c)).1 ∧ (mem s').Holds cmp (mapCall cmp map (callOf c)).2 ∧
        I (pre ++ [c]) s')
    (hmem : (mem init).Holds cmp ClassMap.empty) (hI : I [] init) {calls : List ι}
    {s : σ × List (Outcome T)} (hrun : run (logged call) (init, []) calls = some s) :
    Simulates cmp mem callOf I calls s := by
  refine run_invariant_of_trace (I := Simulates cmp mem callOf I) ?_ ⟨hmem, rfl, hI⟩ hrun
  intro pre s c s' _ hs hstep
  obtain ⟨out, hok, hlog⟩ := logged_eq_some.mp hstep
  obtain ⟨hout, hholds, haux⟩ := hcall pre s.1 c _ out s'.1 hs.aux hs.holds hok
  refine ⟨?_, ?_, haux⟩
  · rw [List.map_append, List.map_singleton, mapRun_snoc]
    exact hholds
  · rw [List.map_append, List.map_singleton, mapRun_snoc, hlog, hs.log, hout]

/-- Calls that all return refine the map. -/
lemma refinesMap_of_run
    (hsim : ∀ pre s, run (logged call) (init, []) pre = some s →
      Simulates cmp mem callOf I pre s) {calls : List ι} {s : σ × List (Outcome T)}
    (hrun : run (logged call) (init, []) calls = some s) :
    RefinesMap cmp call mem callOf init calls := by
  rintro pre ⟨post, rfl⟩
  obtain ⟨m, hpre, -⟩ := run_append_eq_some.mp hrun
  obtain ⟨⟨l, hc, hr⟩, hlog, -⟩ := hsim pre m hpre
  exact ⟨m, hpre, hlog, l, hc, Heap.Chain.nodup hc, hr.sorted, hr.lookup⟩

/-- Calls of which each either returns or is an `Insert`, and in which the `Insert`s return. -/
lemma exists_run_of_insertsReturn {calls : List ι}
    (hprogress : ∀ pre c post s, calls = pre ++ c :: post →
      run (logged call) (init, []) pre = some s →
        ((logged call) s c).isSome ∨ (callOf c).IsInsert)
    (hinserts : InsertsReturn call callOf init calls) :
    ∃ s, run (logged call) (init, []) calls = some s := by
  refine exists_run_of_everyStep ?_
  intro pre c post s hsplit hpre
  rcases hprogress pre c post s hsplit hpre with hsome | hinsert
  · exact hsome
  · exact hinserts pre c post s hsplit hpre hinsert

end logged

/-! ## `MutexSortedList` -/

section mutex

variable (cmp : T → T → Ordering) [Std.TransCmp cmp]

lemma MutexSortedList.simulates {calls : List (Call T)}
    {s : MutexSortedList T × List (Outcome T)}
    (hrun : run (logged (MutexSortedList.call cmp)) (ListMem.empty, []) calls = some s) :
    Simulates cmp id id (fun _ _ => True) calls s := by
  refine simulates_of_run ?_ ListMem.holds_empty trivial hrun
  intro pre s c map out s' _ (hs : s.Holds cmp map) hok
  rcases MutexSortedList.call_effect hs c with ⟨s₁, hcall, hs₁⟩ | ⟨-, e, hcall⟩
  · rw [hcall, Except.ok.injEq, Prod.mk.injEq] at hok
    obtain ⟨rfl, rfl⟩ := hok
    exact ⟨rfl, hs₁, trivial⟩
  · rw [hcall] at hok
    cases hok

lemma MutexSortedList.refinesMap {calls : List (Call T)}
    (hinserts : InsertsReturn (MutexSortedList.call cmp) id ListMem.empty calls) :
    RefinesMap cmp (MutexSortedList.call cmp) id id ListMem.empty calls := by
  obtain ⟨s, hrun⟩ := exists_run_of_insertsReturn (fun pre c post s _ hpre => by
    have hs : s.1.Holds cmp _ := (MutexSortedList.simulates cmp hpre).holds
    rcases MutexSortedList.call_effect hs c with ⟨s₁, hcall, -⟩ | ⟨hinsert, -⟩
    · exact .inl (by simp [logged, hcall])
    · exact .inr hinsert) hinserts
  exact refinesMap_of_run (fun pre s h => MutexSortedList.simulates cmp h) hrun

end mutex

/-! ## `OptimisticSortedList` -/

namespace OptimisticSortedList

variable {n : ℕ} (cmp : T → T → Ordering)

/-- A call together with the thread that makes it. -/
def clientCall (s : OptimisticSortedList T n) (c : Fin n × Call T) :
    Except Fault (Outcome T × OptimisticSortedList T n) :=
  s.call cmp c.1 c.2

/-- The number of calls that lock the list exclusively. -/
def writers (calls : List (Fin n × Call T)) : ℕ := calls.countP fun c => c.2.isWriter

lemma writers_snoc (calls : List (Fin n × Call T)) (c : Fin n × Call T) :
    writers (calls ++ [c]) = writers calls + c.2.isWriter.toNat := by
  cases h : c.2.isWriter <;> simp [writers, h]

/-- The word of the lock counts the exclusive sections, up to the carry. -/
def LockCounts (calls : List (Fin n × Call T)) (s : OptimisticSortedList T n) : Prop :=
  s.lock.toNat = writers calls ∧ s.lock.toNat ≤ 2 ^ 56

variable [Std.TransCmp cmp]

lemma simulates {calls : List (Fin n × Call T)}
    {s : OptimisticSortedList T n × List (Outcome T)}
    (hrun : run (logged (clientCall cmp)) (init, []) calls = some s) :
    Simulates cmp OptimisticSortedList.mem Prod.snd LockCounts calls s := by
  refine simulates_of_run ?_ ListMem.holds_empty ⟨rfl, Nat.zero_le _⟩ hrun
  rintro pre s ⟨tid, c⟩ map out s' ⟨hcount, hle⟩ hs hok
  rcases call_effect hs hle tid c with ⟨s₁, hcall, hs₁, hlock, hle₁⟩ | ⟨-, e, hcall⟩ | ⟨-, -, hcall⟩
  · rw [clientCall, hcall, Except.ok.injEq, Prod.mk.injEq] at hok
    obtain ⟨rfl, rfl⟩ := hok
    exact ⟨rfl, hs₁, by rw [writers_snoc, hlock, hcount], hle₁⟩
  all_goals
    rw [clientCall, hcall] at hok
    cases hok

lemma refinesMap {calls : List (Fin n × Call T)}
    (hinserts : InsertsReturn (clientCall cmp) Prod.snd init calls)
    (hdeletes : ∀ pre tid value post, calls = pre ++ (tid, .delete value) :: post →
      writers pre < 2 ^ 56) :
    RefinesMap cmp (clientCall cmp) OptimisticSortedList.mem Prod.snd init calls := by
  obtain ⟨s, hrun⟩ := exists_run_of_insertsReturn (fun pre c post s hsplit hpre => by
    obtain ⟨tid, c⟩ := c
    obtain ⟨hs, -, hcount, hle⟩ := simulates cmp hpre
    rcases call_effect hs hle tid c with ⟨s₁, hcall, -⟩ | ⟨hinsert, -⟩ | ⟨hwriter, hmax, -⟩
    · exact .inl (by simp [logged, clientCall, hcall])
    · exact .inr hinsert
    · cases c with
      | insert value => exact .inr trivial
      | lookUp value result => cases hwriter
      | delete value =>
          have := hdeletes pre tid value post hsplit
          omega) hinserts
  exact refinesMap_of_run (fun pre s h => simulates cmp h) hrun

/-- A `Delete` that returns is preceded by fewer than `2 ^ 56` exclusive sections. -/
lemma writers_lt_of_refinesMap {calls : List (Fin n × Call T)}
    (href : RefinesMap cmp (clientCall cmp) OptimisticSortedList.mem Prod.snd init calls)
    {pre post : List (Fin n × Call T)} {tid : Fin n} {value : T}
    (hsplit : calls = pre ++ (tid, .delete value) :: post) : writers pre < 2 ^ 56 := by
  obtain ⟨s', hrun, -⟩ := href (pre ++ [(tid, .delete value)]) ⟨post, by simp [hsplit]⟩
  obtain ⟨s, hpre, hstep⟩ := run_snoc_eq_some.mp hrun
  obtain ⟨hs, -, hcount, hle⟩ := simulates cmp hpre
  obtain ⟨out, hok, -⟩ := logged_eq_some.mp hstep
  rcases call_effect hs hle tid (.delete value) with
    ⟨s₁, -, -, hlock, hle₁⟩ | ⟨hinsert, -⟩ | ⟨-, -, hcall⟩
  · simp only [Call.isWriter, Bool.toNat_true] at hlock
    omega
  · cases hinsert
  · rw [clientCall, hcall] at hok
    cases hok

end OptimisticSortedList

/-! ## Both lists -/

/-- **Both lists refine an ordered map**, for every total preorder and every sequence of calls whose
`Insert`s return; `OptimisticSortedList` exactly when each `Delete` finds fewer than `2 ^ 56`
exclusive sections before it. -/
theorem lists_refine_map (cmp : T → T → Ordering) [Std.TransCmp cmp] :
    (∀ calls, InsertsReturn (MutexSortedList.call cmp) id ListMem.empty calls →
      RefinesMap cmp (MutexSortedList.call cmp) id id ListMem.empty calls) ∧
    (∀ n (calls : List (Fin n × Call T)),
      InsertsReturn (OptimisticSortedList.clientCall cmp) Prod.snd .init calls →
      (RefinesMap cmp (OptimisticSortedList.clientCall cmp) OptimisticSortedList.mem Prod.snd .init
          calls ↔
        ∀ pre tid value post, calls = pre ++ (tid, .delete value) :: post →
          OptimisticSortedList.writers pre < 2 ^ 56)) := by
  refine ⟨fun calls hinserts => MutexSortedList.refinesMap cmp hinserts, ?_⟩
  intro n calls hinserts
  constructor
  · intro href pre tid value post hsplit
    exact OptimisticSortedList.writers_lt_of_refinesMap cmp href hsplit
  · intro hdeletes
    exact OptimisticSortedList.refinesMap cmp hinserts hdeletes

/-- A new head, a tail, an overwrite in place, and an unlinked head. -/
theorem lists_refine_map_short :
    RefinesMap (compare : ℕ → ℕ → Ordering) (MutexSortedList.call compare) id id ListMem.empty
      [.insert 2, .insert 1, .insert 2, .lookUp 2 0, .delete 1] ∧
    RefinesMap (compare : ℕ → ℕ → Ordering) (OptimisticSortedList.clientCall compare)
      OptimisticSortedList.mem Prod.snd (.init : OptimisticSortedList ℕ 2)
      [(0, .insert 2), (1, .insert 1), (0, .insert 2), (0, .lookUp 2 0), (1, .delete 1)] := by
  obtain ⟨hmutex, hoptimistic⟩ := lists_refine_map (compare : ℕ → ℕ → Ordering)
  refine ⟨hmutex _ (by unfold InsertsReturn; decide), (hoptimistic 2 _ ?_).mpr ?_⟩
  · unfold InsertsReturn
    decide
  · intro pre tid value post hsplit
    have hlen := congrArg List.length hsplit
    have hcount : OptimisticSortedList.writers pre ≤ pre.length := List.countP_le_length
    simp at hlen
    omega

/-- After `2 ^ 56` calls of `Delete` on the empty list, the next one does not return. -/
theorem delete_hangs_after_carry :
    InsertsReturn (OptimisticSortedList.clientCall (compare : ℕ → ℕ → Ordering)) Prod.snd
      (.init : OptimisticSortedList ℕ 1) (List.replicate (2 ^ 56 + 1) (0, .delete 0)) ∧
    ¬ RefinesMap (compare : ℕ → ℕ → Ordering) (OptimisticSortedList.clientCall compare)
      OptimisticSortedList.mem Prod.snd (.init : OptimisticSortedList ℕ 1)
      (List.replicate (2 ^ 56 + 1) (0, .delete 0)) := by
  constructor
  · intro pre c post m hsplit _ hinsert
    have hmem : c ∈ List.replicate (2 ^ 56 + 1) ((0, .delete 0) : Fin 1 × Call ℕ) := by
      rw [hsplit]
      simp
    rw [List.eq_of_mem_replicate hmem] at hinsert
    cases hinsert
  · intro href
    have hsplit : List.replicate (2 ^ 56 + 1) ((0, .delete 0) : Fin 1 × Call ℕ) =
        List.replicate (2 ^ 56) (0, .delete 0) ++ (0, .delete 0) :: [] :=
      List.replicate_succ'
    have hlt := OptimisticSortedList.writers_lt_of_refinesMap compare href hsplit
    rw [OptimisticSortedList.writers, List.countP_replicate] at hlt
    simp [Call.isWriter] at hlt

end OptLock
