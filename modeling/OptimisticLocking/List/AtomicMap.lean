import OptimisticLocking.Library.AtomicObject
import OptimisticLocking.List.Linearizability
import OptimisticLocking.List.TakingEffect

/-!
# `OptimisticSortedList` is an atomic map

`Insert`, `Delete` and `LookUp` together: what any number of threads see of one list is what an
ordered map would show that is changed by one call at a time.

* `Returned` — what a caller may rely on; `ListSt.event` — the calls and the returns of a run.
* `Linearizes` — the list, next to the map that it stands for.
* **`optimisticSortedList_linearizable`** — every history is linearizable.
-/

namespace OptLock

open LinkedList OrderedList HybridLock Transition AtomicObject

/-! ## What the callers see -/

/-- What a call has returned.  The output parameter of a `LookUp` counts only when it returned
`true`. -/
inductive Returned (W : Type)
  | inserted
  | lookedUp (result : Option (List W))
  | deleted (found : Bool)
  deriving DecidableEq, Repr

/-- What comes back from `Insert` and from `Delete`. -/
def Returned.ofWriter {W : Type} : Option Bool → Returned W
  | none => .inserted
  | some found => .deleted found

/-- What comes back from `LookUp`. -/
def Returned.ofLookUp {W : Type} (result : List W) (found : Bool) : Returned W :=
  .lookedUp (if found then some result else none)

def Outcome.returned {T W : Type} {cmp : T → T → Ordering} (L : Layout W cmp) :
    Outcome T → Returned W
  | .inserted => .inserted
  | .lookedUp found result => .ofLookUp (L.words result) found
  | .deleted found => .deleted found

/-- A call to the map, with what its caller sees of the outcome. -/
def atomicMap {T W : Type} {cmp : T → T → Ordering} (L : Layout W cmp) (m : ClassMap T)
    (c : Call T) : Returned W × ClassMap T :=
  ((mapCall cmp m c).1.returned L, (mapCall cmp m c).2)

/-- What is returned by the access that leads from one place to another. -/
def ListPc.returned {T A W : Type} (result : List W) :
    ListPc T A W → ListPc T A W → Option (Returned W)
  | .unlocking _, .outside ret => some (.ofWriter ret)
  | .epochLeave _ _, .outside (some found) => some (.ofLookUp result found)
  | _, _ => none

/-- The calls and the returns.  The reclamation is seen by nobody. -/
def ListSt.event {n : ℕ} {T A W : Type} (s : ListSt n T A W) (a : ListAct n T A)
    (s' : ListSt n T A W) : Option (Event n (Call T) (Returned W)) :=
  match a with
  | .call t c => some (.call t c)
  | .resume t _ => ((s.pc t).returned (s'.result t) (s'.pc t)).map (.ret t)
  | .freeOutdatedPtr _ | .advanceGlobalEpoch => none

/-! ## The list next to the map -/

section stage

variable {T A W : Type} {cmp : T → T → Ordering} {L : Layout W cmp} {heap heap' : Heap A (List W)}
  {result : List W} {l l' : List (A × List W)} {pc : ListPc T A W} {op : Searcher T} {c : Call T}
  {stage : Stage (Call T) (Returned W)}

/-- Where a thread is in no call, or in one that has taken effect. -/
def ListPc.settled (result : List W) : ListPc T A W → Option (Stage (Call T) (Returned W))
  | .outside _ | .scanning _ _ | .freeing _ _ => some .idle
  | .deferFreePointer _ => some (.done (.deleted true))
  | .unlockCall ret | .unlocking ret => some (.done (.ofWriter ret))
  | .epochLeave _ (some found) => some (.done (.ofLookUp result found))
  | _ => none

/-- How far the call of a thread has come, where the thread is and the chain is `l`. -/
def StageOk (L : Layout W cmp) (heap : Heap A (List W)) (result : List W)
    (l : List (A × List W)) (pc : ListPc T A W) (stage : Stage (Call T) (Returned W)) : Prop :=
  match pc.settled result with
  | some settled => stage = settled
  | none => ∃ c, stage = .called c ∧ Pending L heap l pc c

lemma StageOk.of_settled (h : pc.settled result = some stage) :
    StageOk L heap result l pc stage := by
  rw [StageOk, h]

lemma StageOk.eq (h : StageOk L heap result l pc stage) {settled : Stage (Call T) (Returned W)}
    (hpc : pc.settled result = some settled) : stage = settled := by
  rwa [StageOk, hpc] at h

lemma Pending.settled (h : Pending L heap l pc c) : pc.settled result = none := by
  cases pc with
  | epochLeave value ret =>
      cases ret with
      | none => rfl
      | some found =>
          obtain ⟨op, hop, -⟩ := h
          cases hop
  | outside | deferFreePointer | unlockCall | unlocking | scanning | freeing =>
      obtain ⟨op, hop, -⟩ := h
      cases hop
  | _ => rfl

lemma StageOk.of_pending (h : Pending L heap l pc c) :
    StageOk L heap result l pc (.called c) := by
  rw [StageOk, h.settled]
  exact ⟨c, rfl, h⟩

lemma StageOk.called (h : StageOk L heap result l pc stage) (hpc : pc.settled result = none) :
    ∃ c, stage = .called c ∧ Pending L heap l pc c := by
  rwa [StageOk, hpc] at h

/-- What changes in the heap changes nothing for a thread to which it does not matter. -/
lemma StageOk.imp (h : StageOk L heap result l pc stage)
    (himp : ∀ c, Pending L heap l pc c → Pending L heap' l' pc c) :
    StageOk L heap' result l' pc stage := by
  rw [StageOk] at h ⊢
  split at h
  · exact h
  · obtain ⟨c, hcalled, hpending⟩ := h
    exact ⟨c, hcalled, himp c hpending⟩

end stage

/-- The list in state `s` stands for the map of `w`, and its calls have come as far. -/
structure Linearizes {n : ℕ} {T A W : Type} {cmp : T → T → Ordering} (L : Layout W cmp)
    (s : ListSt n T A W) (w : St n (ClassMap T) (Call T) (Returned W)) (l : List (A × List W))
    (values : List (A × T)) : Prop where
  inv : ListInv L s l
  reader : ReaderInv L s l
  represents : Represents cmp (values.map Prod.snd) w.obj
  free : s.lock.exclusive = 0 → l = L.cells values
  writer : ∀ t ∈ s.lock.exclusive, Contents L l values (s.pc t)
  stage : ∀ t, StageOk L s.heap (s.result t) l (s.pc t) (w.stage t)

namespace Linearizes

variable {n : ℕ} {T A W : Type} {cmp : T → T → Ordering} {L : Layout W cmp}
  {s s' : ListSt n T A W} {w w' : St n (ClassMap T) (Call T) (Returned W)}
  {l l' : List (A × List W)} {values values' : List (A × T)} {t : Fin n} {pc pc₀ : ListPc T A W}

lemma init : Linearizes L (ListSt.init : ListSt n T A W) (AtomicObject.init .empty) [] [] where
  inv := .init
  reader := .init
  represents := .empty
  free := fun _ => rfl
  writer := fun t ht => absurd ht (Multiset.notMem_zero t)
  stage := fun _ => .of_settled rfl

/-- A step of `t` that leaves the chain and the map. -/
lemma frame (h : Linearizes L s w l values) (hinv : ListInv L s' l) (hreader : ReaderInv L s' l)
    (hpc : s'.pc = Function.update s.pc t pc)
    (hresult : ∀ u, u ≠ t → s'.result u = s.result u)
    (hheap : ∀ u, u ≠ t → ∀ a ∈ (s.pc u).inFlight, s'.heap.node a = s.heap.node a)
    (hobj : w'.obj = w.obj) (hstages : ∀ u, u ≠ t → w'.stage u = w.stage u)
    (hfree : s'.lock.exclusive = 0 → l = L.cells values)
    (hwriter : ∀ u ∈ s'.lock.exclusive, Contents L l values (s'.pc u))
    (hstage : StageOk L s'.heap (s'.result t) l pc (w'.stage t)) :
    Linearizes L s' w' l values where
  inv := hinv
  reader := hreader
  represents := hobj ▸ h.represents
  free := hfree
  writer := hwriter
  stage := by
    intro u
    rw [hpc]
    by_cases hu : u = t
    · subst hu
      rw [Function.update_self]
      exact hstage
    · rw [Function.update_of_ne hu, hresult u hu, hstages u hu]
      exact (h.stage u).imp fun c hpending => hpending.of_heap (hheap u hu)

/-- A step of `t` that leaves the lock as well, and stores nothing. -/
lemma frame_local (h : Linearizes L s w l values) (hinv : ListInv L s' l)
    (hreader : ReaderInv L s' l) (hpc : s'.pc = Function.update s.pc t pc)
    (hlock : s'.lock.exclusive = s.lock.exclusive)
    (hresult : ∀ u, u ≠ t → s'.result u = s.result u)
    (hheap : ∀ u, u ≠ t → ∀ a ∈ (s.pc u).inFlight, s'.heap.node a = s.heap.node a)
    (hobj : w'.obj = w.obj) (hstages : ∀ u, u ≠ t → w'.stage u = w.stage u)
    (hwriter : t ∈ s.lock.exclusive → Contents L l values pc)
    (hstage : StageOk L s'.heap (s'.result t) l pc (w'.stage t)) :
    Linearizes L s' w' l values := by
  refine h.frame hinv hreader hpc hresult hheap hobj hstages (hlock ▸ h.free) ?_ hstage
  intro u hu
  rw [hlock] at hu
  rw [hpc]
  by_cases hut : u = t
  · subst hut
    rw [Function.update_self]
    exact hwriter hu
  · rw [Function.update_of_ne hut]
    exact h.writer u hu

/-- A step of the thread that holds the lock. -/
lemma write (h : Linearizes L s w l values) (hinv : ListInv L s' l') (hreader : ReaderInv L s' l')
    (hmem : t ∈ s'.lock.exclusive) (hpc : s'.pc = Function.update s.pc t pc)
    (hresult : ∀ u, u ≠ t → s'.result u = s.result u)
    (hrepresents : Represents cmp (values'.map Prod.snd) w'.obj)
    (hstages : ∀ u, u ≠ t → w'.stage u = w.stage u) (hcontents : Contents L l' values' pc)
    (hstage : StageOk L s'.heap (s'.result t) l' pc (w'.stage t)) :
    Linearizes L s' w' l' values' where
  inv := hinv
  reader := hreader
  represents := hrepresents
  free := by
    intro hfree
    rw [hfree] at hmem
    exact absurd hmem (Multiset.notMem_zero t)
  writer := by
    intro u hu
    obtain rfl := hinv.eq_of_mem hmem hu
    rw [hpc, Function.update_self]
    exact hcontents
  stage := by
    intro u
    by_cases hu : u = t
    · subst hu
      rw [hpc, Function.update_self]
      exact hstage
    · have hout : (s'.pc u).critical = false := by
        rw [← Bool.not_eq_true, ← hinv.roles]
        exact fun hmem' => hu (hinv.eq_of_mem hmem hmem')
      rw [hpc, Function.update_of_ne hu] at hout ⊢
      rw [hresult u hu, hstages u hu]
      exact (h.stage u).imp fun c hpending => hpending.of_not_critical hout

/-- While nobody overwrites a value, the chain stores the values of the map. -/
lemma eq_cells (h : Linearizes L s w l values) (hmem : t ∈ s.lock.exclusive)
    (hover : (s.pc t).overwriting = false) : l = L.cells values :=
  (h.writer t hmem).eq_cells hover

lemma settled (h : Linearizes L s w l values) (hpc : s.pc t = pc)
    {stage : Stage (Call T) (Returned W)} (hsettled : pc.settled (s.result t) = some stage) :
    w.stage t = stage :=
  (h.stage t).eq (hpc ▸ hsettled)

lemma called (h : Linearizes L s w l values) (hpc : s.pc t = pc)
    (hsettled : pc.settled (s.result t) = none) :
    ∃ c, w.stage t = .called c ∧ Pending L s.heap l pc c := by
  subst hpc
  exact (h.stage t).called hsettled

end Linearizes

/-! ## The steps -/

/-- What one step of the list shows, the map can show too, and the list goes on standing for it. -/
def Matched {n : ℕ} {T A W : Type} {cmp : T → T → Ordering} (L : Layout W cmp)
    (s : ListSt n T A W) (a : ListAct n T A) (s' : ListSt n T A W)
    (w : St n (ClassMap T) (Call T) (Returned W)) : Prop :=
  ∃ w', AtomicObject.Shows (atomicMap L) w (s.event a s').toList w' ∧
    ∃ l values, Linearizes L s' w' l values

namespace Linearizes

variable {n : ℕ} {T A W : Type} {cmp : T → T → Ordering} {L : Layout W cmp}
  {s s' : ListSt n T A W} {w w' : St n (ClassMap T) (Call T) (Returned W)}
  {l l' : List (A × List W)} {values values' : List (A × T)} {t : Fin n} {pc pc₀ : ListPc T A W}
  {a : ListAct n T A} {fresh : A} {c : Call T} {out : Outcome T}

/-- The map does nothing. -/
lemma matched (h : Linearizes L s' w l values) (hevent : s.event a s' = none) :
    Matched L s a s' w := by
  refine ⟨w, ?_, l, values, h⟩
  rw [hevent]
  exact .refl w

/-- The call takes effect. -/
lemma matched_take (h : Linearizes L s' (w.take (atomicMap L) t c) l values)
    (hcalled : w.stage t = .called c) (hevent : s.event a s' = none) : Matched L s a s' w := by
  refine ⟨_, ?_, l, values, h⟩
  rw [hevent]
  exact shows_take hcalled

/-- The call returns. -/
lemma matched_ret {returned : Returned W} (h : Linearizes L s' (w.setStage t .idle) l values)
    (hdone : w.stage t = .done returned) (hevent : s.event a s' = some (.ret t returned)) :
    Matched L s a s' w := by
  refine ⟨_, ?_, l, values, h⟩
  rw [hevent]
  exact shows_ret hdone

/-- A step of a thread outside of the lock, in a call that has come no further. -/
lemma outside (h : Linearizes L s w l values) (hpc₀ : s.pc t = pc₀) (hcrit : pc₀.critical = false)
    (hinv : ListInv L s' l) (hreader : ReaderInv L s' l)
    (hpc : s'.pc = Function.update s.pc t pc) (hlock : s'.lock = s.lock)
    (hresult : ∀ u, u ≠ t → s'.result u = s.result u)
    (hheap : ∀ u, u ≠ t → ∀ a ∈ (s.pc u).inFlight, s'.heap.node a = s.heap.node a)
    (hstage : StageOk L s'.heap (s'.result t) l pc (w.stage t)) (hevent : s.event a s' = none) :
    Matched L s a s' w := by
  have hout : t ∉ s.lock.exclusive := h.inv.notMem_of_pc hpc₀ hcrit
  exact (h.frame_local hinv hreader hpc (by rw [hlock]) hresult hheap rfl (fun _ _ => rfl)
    (fun hmem => absurd hmem hout) hstage).matched hevent

/-- A step of the thread that holds the lock, in a call that has come no further. -/
lemma inside (h : Linearizes L s w l values) (hmem : t ∈ s'.lock.exclusive)
    (hinv : ListInv L s' l') (hreader : ReaderInv L s' l')
    (hpc : s'.pc = Function.update s.pc t pc) (hresult : s'.result = s.result)
    (hcontents : Contents L l' values pc)
    (hstage : StageOk L s'.heap (s.result t) l' pc (w.stage t)) (hevent : s.event a s' = none) :
    Matched L s a s' w :=
  (h.write hinv hreader hmem hpc (fun _ _ => by rw [hresult]) h.represents (fun _ _ => rfl)
    hcontents (hresult ▸ hstage)).matched hevent

/-- The call of the thread that holds the lock takes effect. -/
lemma taken (h : Linearizes L s w l values) (hmem : t ∈ s'.lock.exclusive)
    (hinv : ListInv L s' l') (hreader : ReaderInv L s' l')
    (hpc : s'.pc = Function.update s.pc t pc) (hresult : s'.result = s.result)
    (hcalled : w.stage t = .called c) (heffect : TakesEffect L w.obj c out s'.heap values')
    (hover : pc.overwriting = false)
    (hsettled : pc.settled (s.result t) = some (.done (out.returned L)))
    (hevent : s.event a s' = none) : Matched L s a s' w := by
  have hl : l' = L.cells values' := hinv.chain.unique heffect.chain
  have htaken : Linearizes L s' (w.take (atomicMap L) t c) l' values' := by
    refine h.write hinv hreader hmem hpc (fun _ _ => by rw [hresult]) heffect.represents
      (fun u hu => Function.update_of_ne hu ..) (.of_eq_cells hl hover) (.of_settled ?_)
    rw [hresult, hsettled, take_stage, Function.update_self, atomicMap, heffect.outcome]
  exact htaken.matched_take hcalled hevent

lemma call (h : Linearizes L s w l values) {ret : Option Bool} (hpc : s.pc t = .outside ret)
    (hinv : ListInv L (s.call L t c) l) (hreader : ReaderInv L (s.call L t c) l) :
    Matched L s (.call t c) (s.call L t c) w := by
  have hidle : w.stage t = .idle := h.settled hpc rfl
  have hout : t ∉ s.lock.exclusive := h.inv.notMem_of_pc hpc rfl
  have hstages : ∀ u, u ≠ t → (w.setStage t (.called c)).stage u = w.stage u :=
    fun u hu => Function.update_of_ne hu ..
  have hstage : ∀ heap result pc, Pending L heap l pc c →
      StageOk L heap result l pc ((w.setStage t (.called c)).stage t) := by
    intro heap result pc hpending
    rw [setStage_self]
    exact .of_pending hpending
  refine ⟨w.setStage t (.called c), shows_call hidle, l, values, ?_⟩
  cases c with
  | lookUp value result =>
      exact h.frame_local hinv hreader rfl rfl (fun u hu => Function.update_of_ne hu ..)
        (fun _ _ _ _ => rfl) rfl hstages (fun hmem => absurd hmem hout)
        (hstage _ _ _ (.of_serves rfl ⟨result, rfl⟩))
  | insert value =>
      exact h.frame_local hinv hreader rfl rfl (fun _ _ => rfl) (fun _ _ _ _ => rfl) rfl hstages
        (fun hmem => absurd hmem hout) (hstage _ _ _ (.of_serves rfl rfl))
  | delete value =>
      exact h.frame_local hinv hreader rfl rfl (fun _ _ => rfl) (fun _ _ _ _ => rfl) rfl hstages
        (fun hmem => absurd hmem hout) (hstage _ _ _ (.of_serves rfl rfl))

/-! ### Reads -/

/-- The validation succeeds. -/
lemma validated [Std.TransCmp cmp] (h : Linearizes L s w l values) {value : T} {found : Bool}
    (hpc : s.pc t = .validate value found)
    (hvalid : HybridGuard.mustRestart (s.state t) s.lock.stateAndVersion = false)
    (hs' : s' = s.setPc t (.epochLeave value (some found))) (hinv : ListInv L s' l)
    (hreader : ReaderInv L s' l) (hevent : s.event a s' = none) : Matched L s a s' w := by
  have hout : t ∉ s.lock.exclusive := h.inv.notMem_of_pc hpc rfl
  obtain ⟨c, hcalled, hpending⟩ := h.called hpc rfl
  obtain ⟨result, rfl⟩ := hpending.serves rfl
  have hok := h.reader.reader t hvalid
  rw [hpc] at hok
  obtain ⟨x, heffect, hwords⟩ := TakesEffect.answer h.inv.chain
    (h.free (ReaderInv.free_of_valid h.inv hvalid)) h.represents hok result
  have hreturned : (Outcome.lookedUp found x).returned L = .ofLookUp (s.result t) found := by
    rw [Outcome.returned, hwords]
    cases found <;> rfl
  subst hs'
  have htaken : Linearizes L (s.setPc t (.epochLeave value (some found)))
      (w.take (atomicMap L) t (.lookUp value result)) l values := by
    refine h.frame_local hinv hreader rfl rfl (fun _ _ => rfl) (fun _ _ _ _ => rfl) ?_
      (fun u hu => Function.update_of_ne hu ..) (fun hmem => absurd hmem hout) (.of_settled ?_)
    · rw [take_obj, atomicMap, mapCall_lookUp]
    · rw [take_stage, Function.update_self, atomicMap, heffect.outcome, hreturned]
      rfl
  exact htaken.matched_take hcalled hevent

lemma read [Std.TransCmp cmp] (h : Linearizes L s w l values) (hread : ReadEffect L s t pc)
    (hinv : ListInv L (s.setPc t pc) l) (hreader : ReaderInv L (s.setPc t pc) l) :
    Matched L s (.resume t fresh) (s.setPc t pc) w := by
  have hover : (s.pc t).overwriting = false := by
    cases hread <;> simp_all [ListPc.overwriting]
  have hevent : s.event (.resume t fresh) (s.setPc t pc) = none := by
    cases hread <;> simp [ListSt.event, ListPc.returned, *]
  have hcontents : t ∈ s.lock.exclusive → Contents L l values pc := by
    intro hmem
    exact hread.contents (h.eq_cells hmem hover) (hread.pcOk h.inv.chain
      (h.inv.stored_of_writer hmem hover) (h.inv.result t) (h.inv.writer t hmem))
  cases hsettled : (s.pc t).settled (s.result t) with
  | some stage =>
      -- the scan of the reclamation
      cases hread with
      | scan i m hpc hi | scanned i m hpc hi =>
          exact h.outside hpc rfl hinv hreader rfl rfl (fun _ _ => rfl) (fun _ _ _ _ => rfl)
            (.of_settled (congrArg some (h.settled hpc rfl).symm)) hevent
      | lockLoad _ hpc | headNull _ hpc | headTest _ hpc | headNode _ hpc | headCompare _ _ _ hpc
      | searchRoot _ hpc | compare _ _ _ _ _ hpc | next _ _ hpc | assertNext _ _ hpc
      | overwriteNode _ _ hpc | unlink _ _ hpc | epochLoad _ hpc | restart _ _ hpc
      | valid _ _ hpc =>
          rw [hpc] at hsettled
          cases hsettled
  | none =>
      obtain ⟨c, hcalled, hpending⟩ := h.called rfl hsettled
      have hpending' := hread.pending h.inv.chain (fun hcrit => by
        have hmem := (h.inv.roles t).mpr hcrit
        exact ⟨h.inv.stored_of_writer hmem hover, h.inv.writer t hmem⟩) hpending
      rcases hpending' with hpending' | habsent | ⟨value, found, hpc, rfl, hvalid⟩
      · exact (h.frame_local hinv hreader rfl rfl (fun _ _ => rfl) (fun _ _ _ _ => rfl) rfl
          (fun _ _ => rfl) hcontents (hcalled ▸ .of_pending hpending')).matched hevent
      · obtain ⟨-, -, -, rfl, -⟩ := id habsent
        have hmem : t ∈ s.lock.exclusive := hinv.mem_of_pc (Function.update_self ..) rfl
        exact h.taken hmem hinv hreader rfl rfl hcalled
          (.absent h.inv.chain (h.eq_cells hmem hover) h.represents habsent) rfl rfl hevent
      · exact h.validated hpc hvalid rfl hinv hreader hevent

/-! ### Steps of the lock -/

lemma lockAcquired (h : Linearizes L s w l values) {o : Writer T} {old : Word}
    {lock : LockSt (Fin n)} (hpc : s.pc t = .lockCas o old)
    (hexcl : lock.exclusive = t ::ₘ s.lock.exclusive)
    (hs' : s' = { s.setPc t o.start with lock := lock })
    (hinv : ListInv L s' l) (hreader : ReaderInv L s' l)
    (hevent : s.event a s' = none) : Matched L s a s' w := by
  subst hs'
  have hmem : t ∈ lock.exclusive := by
    rw [hexcl]
    exact Multiset.mem_cons_self t _
  have hfree : s.lock.exclusive = 0 := by
    have hone : lock.exclusive = {t} := (hinv.lock.heldExclusively_of_mem hmem).1
    rw [hexcl] at hone
    exact (Multiset.cons_inj_right t).mp hone
  obtain ⟨c, hcalled, hpending⟩ := h.called hpc rfl
  refine h.inside hmem hinv hreader rfl rfl
    (.of_eq_cells (h.free hfree) (overwriting_start o)) ?_ hevent
  rw [hcalled]
  exact .of_pending (.of_serves (by cases o <;> rfl) (hpending.serves rfl))

lemma unlocking (h : Linearizes L s w l values) {ret : Option Bool} {lock : LockSt (Fin n)}
    (hpc : s.pc t = .unlocking ret) (hstep : s.lock.step (.resume t false) = some lock)
    (hs' : s' = { s.setPc t (if lock.pc t = .idle then .outside ret else .unlocking ret) with
      lock := lock })
    (hinv : ListInv L s' l) (hreader : ReaderInv L s' l) :
    Matched L s (.resume t fresh) s' w := by
  have hmem := h.inv.mem_of_pc hpc rfl
  have hvalues := h.eq_cells hmem (by rw [hpc]; rfl)
  have hdone := h.settled hpc rfl
  rcases h.inv.lock.resume_outcome hmem hstep with ⟨hexcl, -, hbusy⟩ | ⟨hexcl, -, hidle⟩
  · rw [if_neg hbusy] at hs'
    subst hs'
    refine h.inside (t := t) ?_ hinv hreader rfl rfl hvalues
      (.of_settled (congrArg some hdone.symm)) (by simp [ListSt.event, ListPc.returned, hpc])
    exact hexcl ▸ hmem
  · rw [if_pos hidle] at hs'
    subst hs'
    have hnone : lock.exclusive = 0 := by
      rw [hexcl, (h.inv.lock.heldExclusively_of_mem hmem).1, Multiset.erase_singleton]
    have hreturned : Linearizes L { s.setPc t (.outside ret) with lock := lock }
        (w.setStage t .idle) l values := by
      refine h.frame hinv hreader rfl (fun _ _ => rfl) (fun _ _ _ _ => rfl) rfl
        (fun u hu => Function.update_of_ne hu ..) (fun _ => hvalues) ?_
        (.of_settled (congrArg some (setStage_self w t .idle).symm))
      intro u hu
      rw [hnone] at hu
      exact absurd hu (Multiset.notMem_zero u)
    exact hreturned.matched_ret hdone (by simp [ListSt.event, ListPc.returned, hpc])

/-! ### Steps of a `LookUp` -/

/-- The destructor of the `EpochGuard`, and the return. -/
lemma leave (h : Linearizes L s w l values) {value : T} {ret : Option Bool}
    (hpc : s.pc t = .epochLeave value ret)
    (hs' : s' = { s.setPc t (.left value ret) with handler := s.handler.leave t })
    (hinv : ListInv L s' l) (hreader : ReaderInv L s' l) :
    Matched L s (.resume t fresh) s' w := by
  subst hs'
  cases ret with
  | none =>
      obtain ⟨c, hcalled, hpending⟩ := h.called hpc rfl
      exact h.outside hpc rfl hinv hreader rfl rfl (fun _ _ => rfl) (fun _ _ _ _ => rfl)
        (hcalled ▸ .of_pending (.of_serves rfl (hpending.serves rfl)))
        (by simp [ListSt.event, ListPc.returned, ListPc.left, hpc])
  | some found =>
      have hout : t ∉ s.lock.exclusive := h.inv.notMem_of_pc hpc rfl
      have hreturned : Linearizes L
          { s.setPc t (.outside (some found)) with handler := s.handler.leave t }
          (w.setStage t .idle) l values :=
        h.frame_local hinv hreader rfl rfl (fun _ _ => rfl) (fun _ _ _ _ => rfl) rfl
          (fun u hu => Function.update_of_ne hu ..) (fun hmem => absurd hmem hout)
          (.of_settled (congrArg some (setStage_self w t .idle).symm))
      exact hreturned.matched_ret (h.settled hpc rfl)
        (by simp [ListSt.event, ListPc.returned, hpc])

/-! ### Stores -/

variable [DecidableEq A]

lemma newNode (h : Linearizes L s w l values) {value : T} {dst next : Option A}
    (halloc : s.Allocates t value dst next)
    (hs' : s' = { s.setPc t (.link dst (some fresh) none) with
      heap := s.heap.alloc fresh ⟨L.words value, next⟩ })
    (hinv : ListInv L s' l) (hreader : ReaderInv L s' l) :
    Matched L s (.resume t fresh) s' w := by
  obtain ⟨hmem, -, -, hover, -⟩ := h.inv.allocates halloc
  have hpending : w.stage t = .called (.insert value) := by
    cases halloc with
    | head hpc | inner _ _ hpc =>
        obtain ⟨c, hcalled, hpending⟩ := h.called hpc rfl
        exact hcalled.trans (congrArg _ (hpending.serves rfl))
  have hevent : s.event (.resume t fresh) s' = none := by
    cases halloc with
    | head hpc | inner _ _ hpc => simp [ListSt.event, ListPc.returned, hpc]
  subst hs'
  refine h.inside hmem hinv hreader rfl rfl (h.eq_cells hmem hover) ?_ hevent
  rw [hpending]
  refine .of_pending ⟨value, rfl, ?_⟩
  intro a ha
  obtain rfl := Option.mem_some_iff.mp ha
  simp [Heap.alloc_node]

/-- The store that links the new node. -/
lemma linkNew [Std.TransCmp cmp] (h : Linearizes L s w l values) {dst target : Option A}
    (hpc : s.pc t = .link dst target none) (hs' : s' = { s.setPc t (.unlockCall none) with
      heap := s.heap.link dst target })
    (hinv : ListInv L s' l') (hreader : ReaderInv L s' l') :
    Matched L s (.resume t fresh) s' w := by
  have hmem := h.inv.mem_of_pc hpc rfl
  have hok := h.inv.writer t hmem
  rw [hpc] at hok
  obtain ⟨c, hcalled, hpending⟩ := h.called hpc rfl
  have hout : ∀ a ∈ target, a ∉ l.map Prod.fst := by
    rintro a rfl
    refine h.inv.accounts.notMem_chain (t := t) ?_
    rw [ListSt.held_of_pc hpc]
    exact List.mem_cons_self
  obtain ⟨v₁, a, value, v₂, -, -, heffect⟩ := TakesEffect.link h.inv.chain
    (h.eq_cells hmem (by rw [hpc]; rfl)) h.represents hok hpending hout
  subst hs'
  exact h.taken hmem hinv hreader rfl rfl hcalled heffect rfl rfl
    (by simp [ListSt.event, ListPc.returned, hpc])

/-- The store that unlinks a node. -/
lemma linkPast [Std.TransCmp cmp] (h : Linearizes L s w l values) {dst target : Option A}
    {victim : A} (hpc : s.pc t = .link dst target (some victim))
    (hs' : s' = { s.setPc t (.deferFreePointer victim) with heap := s.heap.link dst target })
    (hinv : ListInv L s' l') (hreader : ReaderInv L s' l') :
    Matched L s (.resume t fresh) s' w := by
  have hmem := h.inv.mem_of_pc hpc rfl
  have hok := h.inv.writer t hmem
  rw [hpc] at hok
  obtain ⟨c, hcalled, hpending⟩ := h.called hpc rfl
  obtain ⟨v₁, x, v₂, -, heffect⟩ := TakesEffect.unlink h.inv.chain
    (h.eq_cells hmem (by rw [hpc]; rfl)) h.represents hok hpending
  subst hs'
  exact h.taken hmem hinv hreader rfl rfl hcalled heffect rfl rfl
    (by simp [ListSt.event, ListPc.returned, hpc])

/-- The store of a word of a value. -/
lemma overwrite [Std.TransCmp cmp] (h : Linearizes L s w l values) {value : T} {current : A} {i : ℕ}
    (hpc : s.pc t = .overwrite value current i) {node : Node A (List W)}
    (hnode : s.heap.node current = some node) {word : W} (hword : (L.words value)[i]? = some word)
    (hs' : s' = { s.setPc t
        (if i + 1 < L.size then .overwrite value current (i + 1) else .unlockCall none) with
      heap := s.heap.setValue current (node.value.set i word) })
    (hinv : ListInv L s' l') (hreader : ReaderInv L s' l') :
    Matched L s (.resume t fresh) s' w := by
  have hmem := h.inv.mem_of_pc hpc rfl
  have hcontents := h.writer t hmem
  rw [hpc] at hcontents
  obtain ⟨c, hcalled, hpending⟩ := h.called hpc rfl
  obtain rfl : c = .insert value := hpending.serves rfl
  have hevent : s.event (.resume t fresh) s' = none := by
    simp [ListSt.event, ListPc.returned, hpc]
  obtain ⟨l'', hchain, -, hmore, hlast⟩ := TakesEffect.overwrite h.inv.chain hcontents h.represents
    hnode hword
  subst hs'
  obtain rfl := hinv.chain.unique hchain
  split_ifs at hinv hreader hevent ⊢ with hi
  · refine h.inside hmem hinv hreader rfl rfl hmore ?_ hevent
    rw [hcalled]
    exact .of_pending (.of_serves rfl rfl)
  · obtain ⟨values', heffect⟩ := hlast hi
    exact h.taken hmem hinv hreader rfl rfl hcalled heffect rfl rfl hevent

/-- **The step lemma.** -/
theorem step [Std.TransCmp cmp] (h : Linearizes L s w l values) (hstep : s.step L a = some s')
    (hfew : s'.lock.releases < 2 ^ 56) : Matched L s a s' w := by
  obtain ⟨l', hinv⟩ := h.inv.step hstep
  have hreader := h.reader.step h.inv hinv hstep hfew
  have hsame : s'.heap = s.heap → l' = l := fun hheap => (hheap ▸ hinv.chain).unique h.inv.chain
  cases ListSt.step_effect hstep with
  | call t c ret hpc =>
      obtain rfl := hsame (by cases c <;> rfl)
      exact h.call hpc hinv hreader
  | freeOutdatedPtr t ret hpc =>
      obtain rfl := hsame rfl
      exact h.outside hpc rfl hinv hreader rfl rfl (fun _ _ => rfl) (fun _ _ _ _ => rfl)
        (.of_settled (congrArg some (h.settled hpc rfl).symm)) rfl
  | advanceGlobalEpoch =>
      obtain rfl := hsame rfl
      exact matched ⟨hinv, hreader, h.represents, h.free, h.writer, h.stage⟩ rfl
  | read t fresh pc hread =>
      obtain rfl := hsame rfl
      exact h.read hread hinv hreader
  | lockAcquired t fresh o old hpc lock hlock hexcl =>
      obtain rfl := hsame rfl
      exact h.lockAcquired hpc hexcl rfl hinv hreader
        (by simp [ListSt.event, ListPc.returned, hpc])
  | newNode t fresh value dst next halloc hfresh =>
      obtain rfl := hinv.chain.unique (h.inv.newNode halloc hfresh).chain
      exact h.newNode halloc rfl hinv hreader
  | overwrite t fresh value current i hpc node hnode word hword =>
      exact h.overwrite hpc hnode hword rfl hinv hreader
  | linkNew t fresh dst target hpc => exact h.linkNew hpc rfl hinv hreader
  | linkPast t fresh dst target victim hpc => exact h.linkPast hpc rfl hinv hreader
  | deferFreePointer t fresh current hpc =>
      obtain rfl := hsame rfl
      have hmem := h.inv.mem_of_pc hpc rfl
      exact h.inside (t := t) hmem hinv hreader rfl rfl (h.eq_cells hmem (by rw [hpc]; rfl))
        (.of_settled (congrArg some (h.settled hpc rfl).symm))
        (by simp [ListSt.event, ListPc.returned, hpc])
  | unlockCall t fresh ret hpc lock hlock =>
      obtain rfl := hsame rfl
      have hmem := h.inv.mem_of_pc hpc rfl
      refine h.inside (t := t) ?_ hinv hreader rfl rfl (h.eq_cells hmem (by rw [hpc]; rfl))
        (.of_settled (congrArg some (h.settled hpc rfl).symm))
        (by simp [ListSt.event, ListPc.returned, hpc])
      show t ∈ lock.exclusive
      rwa [(LockInv.release_exclusive hlock).1]
  | unlocking t fresh ret hpc lock hlock =>
      obtain rfl := hsame rfl
      exact h.unlocking hpc hlock rfl hinv hreader
  | leave t fresh value ret hpc =>
      obtain rfl := hsame rfl
      exact h.leave hpc rfl hinv hreader
  | lockRefused t fresh o old hpc | publish t fresh value epoch hpc =>
      obtain rfl := hsame rfl
      obtain ⟨c, hcalled, hpending⟩ := h.called hpc rfl
      exact h.outside hpc rfl hinv hreader rfl rfl (fun _ _ => rfl) (fun _ _ _ _ => rfl)
        (hcalled ▸ .of_pending (.of_serves rfl (hpending.serves rfl)))
        (by simp [ListSt.event, ListPc.returned, hpc])
  | optimisticLock t fresh value hpc =>
      obtain rfl := hsame rfl
      obtain ⟨c, hcalled, hpending⟩ := h.called hpc rfl
      exact h.outside hpc rfl hinv hreader rfl rfl (fun _ _ => rfl) (fun _ _ _ _ => rfl)
        (hcalled ▸ .of_pending (.of_serves (by split_ifs <;> rfl) (hpending.serves rfl)))
        (by simp [ListSt.event, ListPc.returned, hpc])
  | copy t fresh value current i hpc node hnode word hword =>
      obtain rfl := hsame rfl
      obtain ⟨c, hcalled, hpending⟩ := h.called hpc rfl
      exact h.outside hpc rfl hinv hreader rfl rfl (fun u hu => Function.update_of_ne hu ..)
        (fun _ _ _ _ => rfl)
        (hcalled ▸ .of_pending (.of_serves (by split_ifs <;> rfl) (hpending.serves rfl)))
        (by simp [ListSt.event, ListPc.returned, hpc])
  | free t fresh m idx hpc e he hold =>
      obtain rfl := hinv.chain.unique (h.inv.free hpc he).chain
      refine h.outside hpc rfl hinv hreader rfl rfl (fun _ _ => rfl) ?_
        (.of_settled (congrArg some (h.settled hpc rfl).symm))
        (by simp [ListSt.event, ListPc.returned, hpc])
      intro u hu a ha
      refine Function.update_of_ne ?_ ..
      rintro rfl
      have hheld : e.ptr ∈ s.held t := by
        rw [ListSt.held_of_freeing hpc he]
        exact List.mem_cons_self
      exact h.inv.accounts.notMem_held hu hheld (List.mem_append_left _ ha)
  | erased t fresh m idx hpc =>
      obtain rfl := hsame rfl
      exact h.outside hpc rfl hinv hreader rfl rfl (fun _ _ => rfl) (fun _ _ _ _ => rfl)
        (.of_settled (congrArg some (h.settled hpc rfl).symm))
        (by simp [ListSt.event, ListPc.returned, hpc])

end Linearizes

/-- **The list is an atomic map.**  Any number of threads run `Insert`, `Delete`, `LookUp` and the
reclamation on one list, in any interleaving of their accesses; a thread that comes to an access
through null or to memory that is not allocated goes no further.  While fewer than `2 ^ 56`
exclusive sections have ended, what they see is a history of an ordered map on which each of their
calls takes effect at one moment between the call and its return. -/
theorem optimisticSortedList_linearizable {n : ℕ} {T A W : Type} [DecidableEq A]
    {cmp : T → T → Ordering} [Std.TransCmp cmp] (L : Layout W cmp) {tr : List (ListAct n T A)}
    {s : ListSt n T A W} (hrun : run (ListSt.step L) ListSt.init tr = some s)
    (hfew : s.lock.releases < 2 ^ 56) :
    Linearizable (atomicMap L) ClassMap.empty
      (history ListSt.event (ListSt.step L) ListSt.init tr) := by
  refine linearizable_of_simulation (G := fun s => s.lock.releases < 2 ^ 56)
    (R := fun s w => ∃ l values, Linearizes L s w l values) ?_ ?_ ⟨[], [], .init⟩ hrun hfew
  · intro s a s' hstep hfew
    exact (ListSt.releases_le hstep).trans_lt hfew
  · rintro s a s' w ⟨l, values, h⟩ hstep hfew
    exact h.step hstep hfew

/-- Thread `1` looks up 400 while thread `0` overwrites 412 with 478, and has copied two words of
412 by then; a `Delete` follows that finds nothing. -/
theorem optimisticSortedList_linearizable_overlapping :
    Linearizable (atomicMap digits) ClassMap.empty
      [.call (0 : Fin 2) (.insert 117), .ret 0 .inserted, .call 0 (.insert 412), .ret 0 .inserted,
        .call 1 (.lookUp 400 0), .call 0 (.insert 478), .ret 0 .inserted,
        .ret 1 (.lookedUp (some [4, 7, 8])), .call 1 (.delete 900), .ret 1 (.deleted false)] := by
  let tr : List (ListAct 2 ℕ ℕ) :=
    .call 0 (.insert 117) :: resumes 0 8 7 ++ .call 0 (.insert 412) :: resumes 0 20 8 ++
      .call 1 (.lookUp 400 0) :: resumes 1 19 0 ++ .call 0 (.insert 478) :: resumes 0 29 0 ++
      resumes 1 25 0 ++ .call 1 (.delete 900) :: resumes 1 20 0
  have hall : (run (ListSt.step digits) (ListSt.init : ListSt 2 ℕ ℕ ℕ) tr).map
      (fun s => s.lock.releases) = some 4 := by decide +kernel
  have hhistory : history ListSt.event (ListSt.step digits) (ListSt.init : ListSt 2 ℕ ℕ ℕ) tr =
      [.call 0 (.insert 117), .ret 0 .inserted, .call 0 (.insert 412), .ret 0 .inserted,
        .call 1 (.lookUp 400 0), .call 0 (.insert 478), .ret 0 .inserted,
        .ret 1 (.lookedUp (some [4, 7, 8])), .call 1 (.delete 900), .ret 1 (.deleted false)] := by
    decide +kernel
  obtain ⟨s, hrun, hreleases⟩ := Option.map_eq_some_iff.mp hall
  rw [← hhistory]
  exact optimisticSortedList_linearizable digits hrun (by omega)

end OptLock
