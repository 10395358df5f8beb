import OptimisticLocking.Library.AtomicObject
import OptimisticLocking.List.Linearizability
import OptimisticLocking.List.MutexInterleaving

/-!
# `MutexSortedList` is an atomic map

The other list, with any number of threads.  Under the shared lock nothing changes, so that what a
`LookUp` knows stays true; under the exclusive lock nobody else looks.

* `MutexOk` — who holds the mutex, read off where the threads are.
* `MutexInv` — the list, next to the map that it stands for, and where every node is.
* **`mutexSortedList_linearizable`** — every history is linearizable, and a `LookUp` that finds
  nothing leaves its output parameter.
-/

namespace OptLock

open LinkedList OrderedList HybridLock Transition AtomicObject

/-! ## What the callers see -/

/-- What comes back from `Insert` and from `Delete`. -/
def Outcome.ofWriter {X : Type} : Option Bool → Outcome X
  | none => .inserted
  | some found => .deleted found

/-- The outcome, with the words of the output parameter. -/
def Outcome.words {T W : Type} {cmp : T → T → Ordering} (L : Layout W cmp) :
    Outcome T → Outcome (List W)
  | .inserted => .inserted
  | .lookedUp found result => .lookedUp found (L.words result)
  | .deleted found => .deleted found

/-- A call to the map, with what its caller sees of the outcome. -/
def mutexMap {T W : Type} {cmp : T → T → Ordering} (L : Layout W cmp) (m : ClassMap T)
    (c : Call T) : Outcome (List W) × ClassMap T :=
  ((mapCall cmp m c).1.words L, (mapCall cmp m c).2)

/-- The calls and the returns. -/
def MutexSt.event {n : ℕ} {T A W : Type} (s : MutexSt n T A W) (a : MutexAct n T A)
    (_ : MutexSt n T A W) : Option (Event n (Call T) (Outcome (List W))) :=
  match a with
  | .call t c => some (.call t c)
  | .resume t _ =>
      match s.pc t with
      | .unlock ret => some (.ret t (.ofWriter ret))
      | .unlockShared found => some (.ret t (.lookedUp found (s.result t)))
      | _ => none

/-! ## Who holds the mutex -/

namespace MutexPc

variable {T A W : Type}

/-- In front of an access that is made under the exclusive lock. -/
def owns : MutexPc T A W → Bool
  | .inside pc => pc.critical
  | .free _ | .unlock _ => true
  | _ => false

/-- In front of an access that is made under the shared lock. -/
def shares : MutexPc T A W → Bool
  | .inside pc => !pc.critical
  | .unlockShared _ => true
  | _ => false

/-- Nodes that are in no list. -/
def inFlight : MutexPc T A W → List A
  | .inside pc => pc.inFlight
  | .free current => [current]
  | _ => []

variable (pc : ListPc T A W)

@[simp] lemma owns_behind : (behind pc).owns = pc.critical := by
  cases pc <;> rfl

@[simp] lemma shares_behind : (behind pc).shares = !pc.critical := by
  cases pc <;> rfl

lemma behind_of_inBody (h : pc.inBody = true) : behind pc = .inside pc := by
  cases pc <;> first | rfl | cases h

end MutexPc

/-- The mutex is held by those who are in front of an access that needs it. -/
structure MutexOk {n : ℕ} {T A W : Type} (m : SharedMutex n) (pc : Fin n → MutexPc T A W) :
    Prop where
  owner : ∀ t, m.owner = some t ↔ (pc t).owns = true
  sharers : ∀ t, t ∈ m.sharers ↔ (pc t).shares = true
  exclusion : m.owner.isSome → m.sharers = ∅

namespace MutexOk

variable {n : ℕ} {T A W : Type} {m m' : SharedMutex n} {pc : Fin n → MutexPc T A W} {t u : Fin n}
  {p : MutexPc T A W}

/-- A step of `t` that changes nothing for the others. -/
lemma update (h : MutexOk m pc)
    (howner : ∀ u, u ≠ t → (m'.owner = some u ↔ m.owner = some u))
    (hsharers : ∀ u, u ≠ t → (u ∈ m'.sharers ↔ u ∈ m.sharers))
    (hown : m'.owner = some t ↔ p.owns = true) (hshare : t ∈ m'.sharers ↔ p.shares = true)
    (hexcl : m'.owner.isSome → m'.sharers = ∅) : MutexOk m' (Function.update pc t p) where
  owner := by
    intro u
    by_cases hu : u = t
    · rw [hu, Function.update_self]
      exact hown
    · rw [Function.update_of_ne hu]
      exact (howner u hu).trans (h.owner u)
  sharers := by
    intro u
    by_cases hu : u = t
    · rw [hu, Function.update_self]
      exact hshare
    · rw [Function.update_of_ne hu]
      exact (hsharers u hu).trans (h.sharers u)
  exclusion := hexcl

lemma of_same (h : MutexOk m pc) (hown : p.owns = (pc t).owns) (hshare : p.shares = (pc t).shares) :
    MutexOk m (Function.update pc t p) :=
  h.update (fun _ _ => Iff.rfl) (fun _ _ => Iff.rfl) (hown ▸ h.owner t) (hshare ▸ h.sharers t)
    h.exclusion

lemma lock (h : MutexOk m pc) (hfree : m.owner = none) (hempty : m.sharers = ∅)
    (hown : p.owns = true) (hshare : p.shares = false) :
    MutexOk { m with owner := some t } (Function.update pc t p) := by
  refine h.update (fun u hu => ?_) (fun _ _ => Iff.rfl) (iff_of_true rfl hown) ?_ (fun _ => hempty)
  · rw [hfree]
    exact iff_of_false (fun heq => hu (Option.some.inj heq).symm) (Option.some_ne_none u).symm
  · rw [hempty, hshare]
    exact iff_of_false (Finset.notMem_empty t) Bool.false_ne_true

lemma lockShared (h : MutexOk m pc) (hfree : m.owner = none) (hown : p.owns = false)
    (hshare : p.shares = true) :
    MutexOk { m with sharers := insert t m.sharers } (Function.update pc t p) := by
  refine h.update (fun _ _ => Iff.rfl) (fun u hu => ?_) ?_
    (iff_of_true (Finset.mem_insert_self t _) hshare) ?_
  · rw [Finset.mem_insert, or_iff_right hu]
  · rw [hfree, hown]
    exact iff_of_false (Option.some_ne_none t).symm Bool.false_ne_true
  · rw [hfree]
    exact nofun

lemma unlock (h : MutexOk m pc) (hmem : m.owner = some t) (hown : p.owns = false)
    (hshare : p.shares = false) :
    MutexOk { m with owner := none } (Function.update pc t p) := by
  refine h.update (fun u hu => ?_) (fun _ _ => Iff.rfl) ?_ ?_ nofun
  · rw [hmem]
    exact iff_of_false (Option.some_ne_none u).symm fun heq => hu (Option.some.inj heq).symm
  · rw [hown]
    exact iff_of_false (Option.some_ne_none t).symm Bool.false_ne_true
  · rw [h.exclusion (by rw [hmem]; rfl), hshare]
    exact iff_of_false (Finset.notMem_empty t) Bool.false_ne_true

lemma unlockShared (h : MutexOk m pc) (hmem : t ∈ m.sharers) (hown : p.owns = false)
    (hshare : p.shares = false) :
    MutexOk { m with sharers := m.sharers.erase t } (Function.update pc t p) := by
  have hfree : m.owner = none := by
    rw [← Option.not_isSome_iff_eq_none]
    intro hsome
    rw [h.exclusion hsome] at hmem
    exact absurd hmem (Finset.notMem_empty t)
  refine h.update (fun _ _ => Iff.rfl) (fun u hu => ?_) ?_ ?_ ?_
  · rw [Finset.mem_erase, and_iff_right hu]
  · rw [hfree, hown]
    exact iff_of_false (Option.some_ne_none t).symm Bool.false_ne_true
  · rw [hshare]
    exact iff_of_false (Finset.notMem_erase t _) Bool.false_ne_true
  · rw [hfree]
    exact nofun

/-- While one thread holds the mutex exclusively, no other does anything to the list. -/
lemma idle_of_owner (h : MutexOk m pc) (hmem : m.owner = some t) (hu : u ≠ t) :
    (pc u).owns = false ∧ (pc u).shares = false := by
  constructor
  · rw [← Bool.not_eq_true, ← h.owner, hmem]
    exact fun heq => hu (Option.some.inj heq).symm
  · rw [← Bool.not_eq_true, ← h.sharers, h.exclusion (by rw [hmem]; rfl)]
    exact Finset.notMem_empty u

end MutexOk

/-! ## The list next to the map -/

section thread

variable {T A W : Type} {cmp : T → T → Ordering} (L : Layout W cmp)

/-- `LookUp` has begun to write its output parameter. -/
def ListPc.copying : ListPc T A W → Bool
  | .copy _ _ _ => true
  | _ => false

/-- Where a thread is in no call, or in one that has taken effect. -/
def MutexPc.settled (result : List W) : MutexPc T A W → Option (Stage (Call T) (Outcome (List W)))
  | .outside _ => some .idle
  | .free _ => some (.done (.deleted true))
  | .unlock ret => some (.done (.ofWriter ret))
  | .unlockShared found => some (.done (.lookedUp found result))
  | _ => none

/-- `c` is the call that a thread is inside of, and it has not taken effect. -/
def MutexPending (heap : Heap A (List W)) (l : List (A × List W)) (result : List W) :
    MutexPc T A W → Call T → Prop
  | .lock w, c => c = w.call
  | .lockShared value, c => ∃ r, c = .lookUp value r ∧ result = L.words r
  | .inside pc, c => Pending L heap l pc c ∧
      (pc.copying = false → ∀ value r, c = .lookUp value r → result = L.words r)
  | _, _ => False

/-- How far the call of a thread has come, where the thread is and the chain is `l`. -/
def MutexStageOk (heap : Heap A (List W)) (l : List (A × List W)) (result : List W)
    (pc : MutexPc T A W) (stage : Stage (Call T) (Outcome (List W))) : Prop :=
  match pc.settled result with
  | some settled => stage = settled
  | none => ∃ c, stage = .called c ∧ MutexPending L heap l result pc c

/-- What is known of a thread. -/
structure MutexThreadOk (heap : Heap A (List W)) (l : List (A × List W)) (result : List W)
    (pc : MutexPc T A W) (stage : Stage (Call T) (Outcome (List W))) : Prop where
  body : ∀ p, pc = .inside p → p.inBody = true ∧ PcOk L heap result l p ∧ Ready L l p
  length : ∀ p v, pc = .inside p → p.lookingUp = some v → result.length = L.size
  apart : ∀ a ∈ pc.inFlight, a ∉ l.map Prod.fst
  stage : MutexStageOk L heap l result pc stage

/-- How the values that the map stores lie in the chain `l`, while the thread at `pc` holds the
mutex exclusively. -/
def MutexContents (l : List (A × List W)) (values : List (A × T)) : MutexPc T A W → Prop
  | .inside pc => Contents L l values pc
  | _ => l = L.cells values

end thread

/-- The list in state `s` stands for the map of `w`, and every allocated node is in the chain or in
the hands of the thread that holds the mutex. -/
structure MutexInv {n : ℕ} {T A W : Type} {cmp : T → T → Ordering} (L : Layout W cmp)
    (s : MutexSt n T A W) (w : St n (ClassMap T) (Call T) (Outcome (List W)))
    (l : List (A × List W)) (values : List (A × T)) : Prop where
  mutex : MutexOk s.mutex s.pc
  chain : s.heap.Chain l
  allocated : ∀ a, (s.heap.node a).isSome ↔ a ∈ l.map Prod.fst ∨ ∃ t, a ∈ (s.pc t).inFlight
  represents : Represents cmp (values.map Prod.snd) w.obj
  free : s.mutex.owner = none → l = L.cells values
  writer : ∀ t, s.mutex.owner = some t → MutexContents L l values (s.pc t)
  thread : ∀ t, MutexThreadOk L s.heap l (s.result t) (s.pc t) (w.stage t)

section thread

variable {T A W : Type} {cmp : T → T → Ordering} {L : Layout W cmp} {heap heap' : Heap A (List W)}
  {result : List W} {l l' : List (A × List W)} {values : List (A × T)} {pc : MutexPc T A W}
  {p : ListPc T A W} {c : Call T} {stage : Stage (Call T) (Outcome (List W))}

lemma MutexStageOk.of_settled (h : pc.settled result = some stage) :
    MutexStageOk L heap l result pc stage := by
  rw [MutexStageOk, h]

lemma MutexStageOk.of_pending (h : MutexPending L heap l result pc c) :
    MutexStageOk L heap l result pc (.called c) := by
  cases pc with
  | lock | lockShared | inside => exact ⟨c, rfl, h⟩
  | _ => cases h

/-- In no call, or in front of the mutex, a thread relies on nothing. -/
lemma MutexThreadOk.of_idle (h : MutexThreadOk L heap l result pc stage) (hown : pc.owns = false)
    (hshare : pc.shares = false) : MutexThreadOk L heap' l' result pc stage := by
  have hstage := h.stage
  cases pc with
  | outside | lock | lockShared => exact ⟨nofun, nofun, nofun, hstage⟩
  | inside p =>
      simp only [MutexPc.owns, MutexPc.shares] at hown hshare
      rw [hown] at hshare
      cases hshare
  | free | unlock => cases hown
  | unlockShared => cases hshare

/-- A thread that has nothing in its hands, and has nothing to know of the body. -/
lemma MutexThreadOk.of_stage (hbody : ∀ p, pc ≠ .inside p)
    (hapart : ∀ a ∈ pc.inFlight, a ∉ l.map Prod.fst)
    (hstage : MutexStageOk L heap l result pc stage) : MutexThreadOk L heap l result pc stage where
  body := fun p hp => absurd hp (hbody p)
  length := fun p _ hp => absurd hp (hbody p)
  apart := hapart
  stage := hstage

lemma MutexPc.owns_of_inFlight {a : A} (h : a ∈ pc.inFlight) : pc.owns = true := by
  cases pc with
  | inside p =>
      cases p with
      | link | deferFreePointer => rfl
      | _ => cases h
  | free | unlock => rfl
  | _ => cases h

lemma MutexPc.inFlight_eq_nil (hout : pc.owns = false) : pc.inFlight = [] := by
  rw [List.eq_nil_iff_forall_not_mem]
  intro a ha
  rw [MutexPc.owns_of_inFlight ha] at hout
  cases hout

end thread

namespace MutexInv

variable {n : ℕ} {T A W : Type} {cmp : T → T → Ordering} {L : Layout W cmp}
  {s s' : MutexSt n T A W} {w w' : St n (ClassMap T) (Call T) (Outcome (List W))}
  {l l' : List (A × List W)} {values values' : List (A × T)} {t u : Fin n} {pc : MutexPc T A W}
  {p : ListPc T A W}

lemma init : MutexInv L (MutexSt.init : MutexSt n T A W) (AtomicObject.init .empty) [] [] where
  mutex := ⟨fun _ => iff_of_false nofun nofun, fun t => iff_of_false (Finset.notMem_empty t) nofun,
    nofun⟩
  chain := rfl
  allocated := fun a => iff_of_false nofun (by simp [MutexSt.init, MutexPc.inFlight])
  represents := .empty
  free := fun _ => rfl
  writer := nofun
  thread := fun t => .of_stage nofun nofun (.of_settled rfl)

/-- While `t` holds the mutex exclusively, nodes are in the chain or in its hands. -/
lemma allocated_iff (h : MutexInv L s w l values) (hown : s.mutex.owner = some t) (a : A) :
    (s.heap.node a).isSome ↔ a ∈ l.map Prod.fst ∨ a ∈ (s.pc t).inFlight := by
  rw [h.allocated]
  refine or_congr_right ⟨?_, fun ha => ⟨t, ha⟩⟩
  rintro ⟨u, ha⟩
  obtain rfl : t = u := Option.some.inj
    (hown.symm.trans ((h.mutex.owner u).mpr (MutexPc.owns_of_inFlight ha)))
  exact ha

/-- A step of `t` that leaves the chain and the map. -/
lemma frame (h : MutexInv L s w l values) (hpc : s'.pc = Function.update s.pc t pc)
    (hmutex : MutexOk s'.mutex s'.pc) (hheap : s'.heap = s.heap)
    (hflight : pc.inFlight = (s.pc t).inFlight)
    (hresult : ∀ u, u ≠ t → s'.result u = s.result u) (hobj : w'.obj = w.obj)
    (hstages : ∀ u, u ≠ t → w'.stage u = w.stage u)
    (hfree : s'.mutex.owner = none → l = L.cells values)
    (hwriter : ∀ u, s'.mutex.owner = some u → MutexContents L l values (s'.pc u))
    (hthread : MutexThreadOk L s.heap l (s'.result t) pc (w'.stage t)) :
    MutexInv L s' w' l values where
  mutex := hmutex
  chain := hheap ▸ h.chain
  allocated := by
    intro a
    rw [hheap, h.allocated]
    refine or_congr_right (exists_congr fun u => ?_)
    rw [hpc]
    by_cases hu : u = t
    · rw [hu, Function.update_self, hflight]
    · rw [Function.update_of_ne hu]
  represents := hobj ▸ h.represents
  free := hfree
  writer := hwriter
  thread := by
    intro u
    rw [hpc, hheap]
    by_cases hu : u = t
    · subst hu
      rw [Function.update_self]
      exact hthread
    · rw [Function.update_of_ne hu, hresult u hu, hstages u hu]
      exact h.thread u

/-- A step of `t` that leaves the mutex as well. -/
lemma frame_local (h : MutexInv L s w l values) (hpc : s'.pc = Function.update s.pc t pc)
    (hmutex : s'.mutex = s.mutex) (hown : pc.owns = (s.pc t).owns)
    (hshare : pc.shares = (s.pc t).shares) (hheap : s'.heap = s.heap)
    (hflight : pc.inFlight = (s.pc t).inFlight)
    (hresult : ∀ u, u ≠ t → s'.result u = s.result u) (hobj : w'.obj = w.obj)
    (hstages : ∀ u, u ≠ t → w'.stage u = w.stage u)
    (hcontents : s.mutex.owner = some t → MutexContents L l values pc)
    (hthread : MutexThreadOk L s.heap l (s'.result t) pc (w'.stage t)) :
    MutexInv L s' w' l values := by
  refine h.frame hpc ?_ hheap hflight hresult hobj hstages (hmutex ▸ h.free) ?_ hthread
  · rw [hmutex, hpc]
    exact h.mutex.of_same hown hshare
  · intro u hu
    rw [hmutex] at hu
    rw [hpc]
    by_cases hut : u = t
    · subst hut
      rw [Function.update_self]
      exact hcontents hu
    · rw [Function.update_of_ne hut]
      exact h.writer u hu

/-- A step of the thread that holds the mutex exclusively. -/
lemma write (h : MutexInv L s w l values) (hown : s.mutex.owner = some t)
    (hpc : s'.pc = Function.update s.pc t pc) (hmutex : s'.mutex = s.mutex)
    (howns : pc.owns = true) (hshare : pc.shares = false) (hchain : s'.heap.Chain l')
    (hallocated : ∀ a, (s'.heap.node a).isSome ↔ a ∈ l'.map Prod.fst ∨ a ∈ pc.inFlight)
    (hresult : s'.result = s.result)
    (hrepresents : Represents cmp (values'.map Prod.snd) w'.obj)
    (hstages : ∀ u, u ≠ t → w'.stage u = w.stage u) (hcontents : MutexContents L l' values' pc)
    (hthread : MutexThreadOk L s'.heap l' (s.result t) pc (w'.stage t)) :
    MutexInv L s' w' l' values' where
  mutex := by
    have hheld := h.mutex.exclusion (by rw [hown]; rfl)
    rw [hmutex, hpc]
    refine h.mutex.update (fun _ _ => Iff.rfl) (fun _ _ => Iff.rfl) (iff_of_true hown howns) ?_
      (fun _ => hheld)
    rw [hheld, hshare]
    exact iff_of_false (Finset.notMem_empty t) Bool.false_ne_true
  chain := hchain
  allocated := by
    intro a
    rw [hallocated, hpc]
    refine or_congr_right ⟨fun ha => ⟨t, by rwa [Function.update_self]⟩, ?_⟩
    rintro ⟨u, ha⟩
    by_cases hu : u = t
    · rwa [hu, Function.update_self] at ha
    · rw [Function.update_of_ne hu, MutexPc.inFlight_eq_nil (h.mutex.idle_of_owner hown hu).1] at ha
      cases ha
  represents := hrepresents
  free := by
    rw [hmutex, hown]
    exact nofun
  writer := by
    intro u hu
    rw [hmutex, hown, Option.some.injEq] at hu
    rw [hpc, hu, Function.update_self]
    exact hcontents
  thread := by
    intro u
    rw [hpc, hresult]
    by_cases hu : u = t
    · subst hu
      rw [Function.update_self]
      exact hthread
    · rw [Function.update_of_ne hu, hstages u hu]
      obtain ⟨howns', hshare'⟩ := h.mutex.idle_of_owner hown hu
      exact (h.thread u).of_idle howns' hshare'

lemma settled (h : MutexInv L s w l values) (hpc : s.pc t = pc)
    {stage : Stage (Call T) (Outcome (List W))} (hsettled : pc.settled (s.result t) = some stage) :
    w.stage t = stage := by
  have hstage := (h.thread t).stage
  rwa [MutexStageOk, hpc, hsettled] at hstage

lemma called (h : MutexInv L s w l values) (hpc : s.pc t = pc)
    (hsettled : pc.settled (s.result t) = none) :
    ∃ c, w.stage t = .called c ∧ MutexPending L s.heap l (s.result t) pc c := by
  have hstage := (h.thread t).stage
  rwa [MutexStageOk, hpc, hsettled] at hstage

lemma length_of_mem (h : MutexInv L s w l values) : ∀ x ∈ l, x.2.length = L.size := by
  cases hown : s.mutex.owner with
  | none =>
      rw [h.free hown]
      exact fun x hx => length_cells hx
  | some u =>
      have hcontents := h.writer u hown
      cases hpc : s.pc u with
      | inside p =>
          rw [hpc] at hcontents
          exact hcontents.length
      | _ =>
          rw [hpc] at hcontents
          rw [show l = L.cells values from hcontents]
          exact fun x hx => length_cells hx

/-- While nobody overwrites a value, the chain stores the values of the map. -/
lemma eq_cells (h : MutexInv L s w l values) (hpc : s.pc t = .inside p)
    (hover : p.overwriting = false) : l = L.cells values := by
  cases hown : s.mutex.owner with
  | none => exact h.free hown
  | some u =>
      by_cases hu : t = u
      · have hcontents := h.writer u hown
        rw [← hu, hpc] at hcontents
        exact hcontents.eq_cells hover
      · obtain ⟨howns, hshare⟩ := h.mutex.idle_of_owner hown hu
        rw [hpc, MutexPc.owns] at howns
        rw [hpc, MutexPc.shares, howns] at hshare
        cases hshare

end MutexInv

/-! ## The steps -/

/-- What one step of the list shows, the map can show too, and the list goes on standing for it. -/
def MutexMatched {n : ℕ} {T A W : Type} {cmp : T → T → Ordering} (L : Layout W cmp)
    (s : MutexSt n T A W) (a : MutexAct n T A) (s' : MutexSt n T A W)
    (w : St n (ClassMap T) (Call T) (Outcome (List W))) : Prop :=
  ∃ w', AtomicObject.Shows (mutexMap L) w (s.event a s').toList w' ∧
    ∃ l values, MutexInv L s' w' l values

namespace MutexInv

variable {n : ℕ} {T A W : Type} {cmp : T → T → Ordering} {L : Layout W cmp}
  {s s' : MutexSt n T A W} {w w' : St n (ClassMap T) (Call T) (Outcome (List W))}
  {l l' : List (A × List W)} {values values' : List (A × T)} {t u : Fin n} {pc : MutexPc T A W}
  {p p₀ : ListPc T A W} {a : MutexAct n T A} {c : Call T} {out : Outcome T}

/-- The map does nothing. -/
lemma matched (h : MutexInv L s' w l values) (hevent : s.event a s' = none) :
    MutexMatched L s a s' w := by
  refine ⟨w, ?_, l, values, h⟩
  rw [hevent]
  exact .refl w

/-- The call takes effect. -/
lemma matched_take (h : MutexInv L s' (w.take (mutexMap L) t c) l values)
    (hcalled : w.stage t = .called c) (hevent : s.event a s' = none) :
    MutexMatched L s a s' w := by
  refine ⟨_, ?_, l, values, h⟩
  rw [hevent]
  exact shows_take hcalled

/-- The call returns. -/
lemma matched_ret {returned : Outcome (List W)} (h : MutexInv L s' (w.setStage t .idle) l values)
    (hdone : w.stage t = .done returned) (hevent : s.event a s' = some (.ret t returned)) :
    MutexMatched L s a s' w := by
  refine ⟨_, ?_, l, values, h⟩
  rw [hevent]
  exact shows_ret hdone

/-- The call of the thread that holds the mutex exclusively takes effect. -/
lemma taken (h : MutexInv L s w l values) (hown : s.mutex.owner = some t)
    (hpc : s'.pc = Function.update s.pc t pc) (hmutex : s'.mutex = s.mutex)
    (howns : pc.owns = true) (hshare : pc.shares = false) (hbody : ∀ p, pc ≠ .inside p)
    (hresult : s'.result = s.result) (hcalled : w.stage t = .called c)
    (heffect : TakesEffect L w.obj c out s'.heap values')
    (hallocated : ∀ a, (s'.heap.node a).isSome ↔ a ∈ values'.map Prod.fst ∨ a ∈ pc.inFlight)
    (hapart : ∀ a ∈ pc.inFlight, a ∉ values'.map Prod.fst)
    (hsettled : pc.settled (s.result t) = some (.done (out.words L)))
    (hevent : s.event a s' = none) : MutexMatched L s a s' w := by
  have htaken : MutexInv L s' (w.take (mutexMap L) t c) (L.cells values') values' := by
    refine h.write hown hpc hmutex howns hshare heffect.chain (by rwa [cells_fst]) hresult
      heffect.represents (fun u hu => Function.update_of_ne hu ..) ?_
      (.of_stage hbody (by rwa [cells_fst]) (.of_settled ?_))
    · cases pc with
      | inside p => exact absurd rfl (hbody p)
      | _ => rfl
    · rw [hsettled, take_stage, Function.update_self, mutexMap, heffect.outcome]
  exact htaken.matched_take hcalled hevent

lemma call (h : MutexInv L s w l values) {ret : Option Bool} (hpc : s.pc t = .outside ret)
    (c : Call T) : MutexMatched L s (.call t c) (s.call L t c) w := by
  have hidle : w.stage t = .idle := h.settled hpc rfl
  have hout : s.mutex.owner ≠ some t := by
    rw [ne_eq, h.mutex.owner, hpc]
    exact Bool.false_ne_true
  have hstages : ∀ u, u ≠ t → (w.setStage t (.called c)).stage u = w.stage u :=
    fun u hu => Function.update_of_ne hu ..
  have hthread : ∀ result pc, (∀ p, pc ≠ .inside p) → pc.inFlight = [] →
      MutexPending L s.heap l result pc c →
      MutexThreadOk L s.heap l result pc ((w.setStage t (.called c)).stage t) := by
    intro result pc hbody hflight hpending
    rw [setStage_self]
    exact .of_stage hbody (by rw [hflight]; exact nofun) (.of_pending hpending)
  refine ⟨w.setStage t (.called c), shows_call hidle, l, values, ?_⟩
  cases c with
  | insert value =>
      exact h.frame_local rfl rfl (by rw [hpc]; rfl) (by rw [hpc]; rfl) rfl (by rw [hpc]; rfl)
        (fun _ _ => rfl) rfl hstages (fun hown => absurd hown hout)
        (hthread _ _ nofun rfl rfl)
  | lookUp value result =>
      exact h.frame_local rfl rfl (by rw [hpc]; rfl) (by rw [hpc]; rfl) rfl (by rw [hpc]; rfl)
        (fun u hu => Function.update_of_ne hu ..) rfl hstages (fun hown => absurd hown hout)
        (hthread _ _ nofun rfl ⟨result, rfl, Function.update_self ..⟩)
  | delete value =>
      exact h.frame_local rfl rfl (by rw [hpc]; rfl) (by rw [hpc]; rfl) rfl (by rw [hpc]; rfl)
        (fun _ _ => rfl) rfl hstages (fun hown => absurd hown hout)
        (hthread _ _ nofun rfl rfl)

/-! ### Steps of the mutex -/

lemma lock (h : MutexInv L s w l values) {o : Writer T} (hpc : s.pc t = .lock o)
    (hfree : s.mutex.owner = none) (hempty : s.mutex.sharers = ∅)
    (hs' : s' = { s.setPc t (.inside o.start) with mutex := { s.mutex with owner := some t } })
    (hevent : s.event a s' = none) : MutexMatched L s a s' w := by
  obtain ⟨c, hcalled, rfl⟩ := h.called hpc rfl
  have hl := h.free hfree
  have hstart : (o.start : ListPc T A W).serving = some (.writer o) := by
    cases o <;> rfl
  have hthread : MutexThreadOk L s.heap l (s.result t) (.inside o.start) (.called o.call) := by
    refine ⟨?_, ?_, ?_, .of_pending ⟨.of_serves hstart rfl, ?_⟩⟩
    · intro p hp
      cases hp
      cases o with
      | insert v => exact ⟨rfl, trivial, trivial⟩
      | delete v => exact ⟨rfl, trivial, fun v' hv' => by cases hv'⟩
    · intro p v hp hlook
      cases hp
      cases o <;> cases hlook
    · intro a ha
      cases o <;> cases ha
    · intro _ v r hcall
      cases o <;> cases hcall
  subst hs'
  have hlocked : MutexInv L
      { s.setPc t (.inside o.start) with mutex := { s.mutex with owner := some t } }
      w l values := by
    refine h.frame rfl (h.mutex.lock hfree hempty ?_ ?_) rfl ?_ (fun _ _ => rfl) rfl
      (fun _ _ => rfl) nofun ?_ (hcalled ▸ hthread)
    · exact critical_start o
    · rw [MutexPc.shares, critical_start]
      rfl
    · rw [hpc]
      exact inFlight_start o
    · intro u hu
      obtain rfl := Option.some.inj hu
      show MutexContents L l values (Function.update s.pc t _ t)
      rw [Function.update_self]
      exact .of_eq_cells hl (overwriting_start o)
  exact hlocked.matched hevent

lemma lockShared (h : MutexInv L s w l values) {value : T} (hpc : s.pc t = .lockShared value)
    (hfree : s.mutex.owner = none)
    (hs' : s' = { s.setPc t (.inside (.searchRoot (.lookUp value))) with
      mutex := { s.mutex with sharers := insert t s.mutex.sharers } })
    (hevent : s.event a s' = none) : MutexMatched L s a s' w := by
  obtain ⟨c, hcalled, r, rfl, hresult⟩ := h.called hpc rfl
  have hthread : MutexThreadOk L s.heap l (s.result t) (.inside (.searchRoot (.lookUp value)))
      (.called (.lookUp value r)) := by
    refine ⟨?_, ?_, nofun, .of_pending ⟨.of_serves rfl ⟨r, rfl⟩, ?_⟩⟩
    · intro p hp
      cases hp
      exact ⟨rfl, trivial, fun v hv => by cases hv⟩
    · intro p v _ _
      rw [hresult, L.length_words]
    · intro _ v r' hcall
      cases hcall
      exact hresult
  subst hs'
  have hlocked : MutexInv L { s.setPc t (.inside (.searchRoot (.lookUp value))) with
      mutex := { s.mutex with sharers := insert t s.mutex.sharers } } w l values := by
    refine h.frame rfl (h.mutex.lockShared hfree rfl rfl) rfl ?_ (fun _ _ => rfl) rfl
      (fun _ _ => rfl) (fun _ => h.free hfree) ?_ (hcalled ▸ hthread)
    · rw [hpc]
      rfl
    · intro u hu
      rw [hfree] at hu
      cases hu
  exact hlocked.matched hevent

lemma unlock (h : MutexInv L s w l values) {ret : Option Bool} (hpc : s.pc t = .unlock ret)
    (hs' : s' = { s.setPc t (.outside ret) with mutex := { s.mutex with owner := none } })
    (hevent : s.event a s' = some (.ret t (.ofWriter ret))) : MutexMatched L s a s' w := by
  have hown : s.mutex.owner = some t := by
    rw [h.mutex.owner, hpc]
    rfl
  have hcontents := h.writer t hown
  rw [hpc] at hcontents
  subst hs'
  have hreturned : MutexInv L
      { s.setPc t (.outside ret) with mutex := { s.mutex with owner := none } }
      (w.setStage t .idle) l values := by
    refine h.frame rfl (h.mutex.unlock hown rfl rfl) rfl ?_ (fun _ _ => rfl) rfl
      (fun u hu => Function.update_of_ne hu ..) (fun _ => hcontents) nofun
      (.of_stage nofun nofun (.of_settled (congrArg some (setStage_self w t .idle).symm)))
    rw [hpc]
    rfl
  exact hreturned.matched_ret (h.settled hpc rfl) hevent

lemma unlockShared (h : MutexInv L s w l values) {found : Bool} (hpc : s.pc t = .unlockShared found)
    (hs' : s' = { s.setPc t (.outside (some found)) with
      mutex := { s.mutex with sharers := s.mutex.sharers.erase t } })
    (hevent : s.event a s' = some (.ret t (.lookedUp found (s.result t)))) :
    MutexMatched L s a s' w := by
  have hmem : t ∈ s.mutex.sharers := by
    rw [h.mutex.sharers, hpc]
    rfl
  have hfree : s.mutex.owner = none := by
    rw [← Option.not_isSome_iff_eq_none]
    intro hsome
    rw [h.mutex.exclusion hsome] at hmem
    exact absurd hmem (Finset.notMem_empty t)
  subst hs'
  have hreturned : MutexInv L { s.setPc t (.outside (some found)) with
      mutex := { s.mutex with sharers := s.mutex.sharers.erase t } }
      (w.setStage t .idle) l values := by
    refine h.frame rfl (h.mutex.unlockShared hmem rfl rfl) rfl ?_ (fun _ _ => rfl) rfl
      (fun u hu => Function.update_of_ne hu ..) (fun _ => h.free hfree) ?_
      (.of_stage nofun nofun (.of_settled (congrArg some (setStage_self w t .idle).symm)))
    · rw [hpc]
      rfl
    · intro u hu
      rw [hfree] at hu
      cases hu
  exact hreturned.matched_ret (h.settled hpc rfl) hevent

/-! ### Accesses that store nothing -/

/-- An access of the body that leaves the heap, in a call that has not taken effect before. -/
lemma reached [Std.TransCmp cmp] (h : MutexInv L s w l values) (hpc₀ : s.pc t = .inside p₀)
    (hpc : s'.pc = Function.update s.pc t (.behind p)) (hmutex : s'.mutex = s.mutex)
    (hheap : s'.heap = s.heap) (hresult : ∀ u, u ≠ t → s'.result u = s.result u)
    (hcrit : p.critical = p₀.critical) (hflight : p.inFlight = p₀.inFlight)
    (hnext : p.inBody = true ∨ ∃ value found, p = .validate value found)
    (hok : PcOk L s.heap (s'.result t) l p) (hready : Ready L l p)
    (hlen : ∀ v, p.lookingUp = some v → (s'.result t).length = L.size)
    (hcalled : w.stage t = .called c) (hpending : Pending L s.heap l p c)
    (hkept : p.copying = false → (∀ v, p ≠ .validate v true) →
      ∀ v r, c = .lookUp v r → s'.result t = L.words r)
    (hcontents : s.mutex.owner = some t → Contents L l values p) (hevent : s.event a s' = none) :
    MutexMatched L s a s' w := by
  have howns : (MutexPc.behind p).owns = (s.pc t).owns := by
    rw [MutexPc.owns_behind, hcrit, hpc₀]
    rfl
  have hshares : (MutexPc.behind p).shares = (s.pc t).shares := by
    rw [MutexPc.shares_behind, hcrit, hpc₀]
    rfl
  rcases hnext with hbody | ⟨value, found, rfl⟩
  · rw [MutexPc.behind_of_inBody p hbody] at hpc howns hshares
    have hthread : MutexThreadOk L s.heap l (s'.result t) (.inside p) (w.stage t) := by
      rw [hcalled]
      refine ⟨?_, ?_, ?_, .of_pending ⟨hpending, fun hcopy => hkept hcopy ?_⟩⟩
      · intro p' hp'
        cases hp'
        exact ⟨hbody, hok, hready⟩
      · intro p' v hp' hv
        cases hp'
        exact hlen v hv
      · intro b hb
        refine (h.thread t).apart b ?_
        rw [hpc₀]
        show b ∈ p₀.inFlight
        exact hflight ▸ (show b ∈ p.inFlight from hb)
      · rintro v rfl
        cases hbody
    refine (h.frame_local hpc hmutex howns hshares hheap ?_ hresult rfl (fun _ _ => rfl) hcontents
      hthread).matched hevent
    rw [hpc₀]
    exact hflight
  · -- the answer of a `LookUp`
    have hl : l = L.cells values := by
      refine h.eq_cells hpc₀ ?_
      cases p₀ with
      | overwrite => cases hcrit
      | _ => rfl
    obtain ⟨r, rfl⟩ := hpending.serves rfl
    obtain ⟨x, heffect, hwords⟩ := TakesEffect.answer h.chain hl h.represents hok r
    have hfinal : L.words x = s'.result t := by
      cases found with
      | true => exact hwords
      | false => exact hwords.trans (hkept rfl nofun value r rfl).symm
    have htaken : MutexInv L s' (w.take (mutexMap L) t (.lookUp value r)) l values := by
      refine h.frame_local hpc hmutex howns hshares hheap ?_ hresult ?_
        (fun u hu => Function.update_of_ne hu ..) (fun _ => hl)
        (.of_stage nofun nofun (.of_settled ?_))
      · rw [hpc₀]
        exact hflight
      · rw [take_obj, mutexMap, mapCall_lookUp]
      · rw [take_stage, Function.update_self, mutexMap, heffect.outcome, Outcome.words, hfinal]
        rfl
    exact htaken.matched_take hcalled hevent

lemma read [Std.TransCmp cmp] (h : MutexInv L s w l values) (hpc₀ : s.pc t = .inside p₀)
    (hread : (s.body p₀).read L t = some p) (hs' : s' = s.setPc t (.behind p))
    (hevent : s.event a s' = none) : MutexMatched L s a s' w := by
  have heffect : ReadEffect L (s.body p₀) t p := ListSt.read_effect hread
  have hover : p₀.overwriting = false := by
    cases heffect <;> simp_all [MutexSt.body, ListPc.overwriting]
  have hcopy : p₀.copying = false := by
    cases heffect <;> simp_all [MutexSt.body, ListPc.copying]
  have hl := h.eq_cells hpc₀ hover
  have hstored : Stored L l := ⟨values, hl, fun _ => h.represents.sorted⟩
  obtain ⟨hbody, hok, hready⟩ := (h.thread t).body p₀ hpc₀
  obtain ⟨c, hcalled, hpending, hkept⟩ := h.called hpc₀ rfl
  have hrole : SameRole p₀ p := heffect.sameRole
  have hok' : PcOk L s.heap (s.result t) l p :=
    heffect.pcOk h.chain hstored ((h.thread t).length p₀ · hpc₀) hok
  have hready' : Ready L l p := Ready.of_read hready hread h.chain h.length_of_mem fun _ => hok
  subst hs'
  rcases heffect.pending h.chain (fun _ => ⟨hstored, hok⟩) hpending with
    hpending' | habsent | ⟨value, found, hval, -⟩
  · refine h.reached hpc₀ rfl rfl rfl (fun _ _ => rfl) hrole.critical hrole.inFlight ?_ hok' hready'
      ?_ hcalled hpending' ?_ ?_ hevent
    · cases heffect.onward hbody with
      | body _ hp => exact .inl hp
      | answered value found => exact .inr ⟨value, found, rfl⟩
      | unlock ret =>
          obtain ⟨op, hop, -⟩ := hpending'
          cases hop
    · intro v hv
      exact (h.thread t).length p₀ v hpc₀ (hrole.lookingUp ▸ hv)
    · exact fun _ _ => hkept hcopy
    · intro hown
      exact heffect.contents hl hok'
  · obtain ⟨-, -, -, rfl, -⟩ := id habsent
    have hown : s.mutex.owner = some t := by
      rw [h.mutex.owner, hpc₀]
      exact hrole.critical.symm
    have hflight : p₀.inFlight = [] := hrole.inFlight.symm
    refine h.taken hown rfl rfl rfl rfl (by rintro _ ⟨⟩) rfl hcalled
      (.absent h.chain hl h.represents habsent) ?_ (by rintro _ ⟨⟩) rfl hevent
    intro b
    show (s.heap.node b).isSome ↔ _
    rw [h.allocated_iff hown, hpc₀, hl]
    simp [MutexPc.inFlight, MutexPc.behind, hflight]
  · cases (show p₀ = .validate value found from hval)
    cases hbody

/-- `LookUp` copies one more word. -/
lemma copy [Std.TransCmp cmp] (h : MutexInv L s w l values) {value : T} {current : A} {i : ℕ}
    (hpc₀ : s.pc t = .inside (.copy value current i)) {node : Node A (List W)}
    (hnode : s.heap.node current = some node) {word : W} (hword : node.value[i]? = some word)
    (hs' : s' = { s.setPc t (.behind
        (if i + 1 < L.size then .copy value current (i + 1) else .validate value true)) with
      result := Function.update s.result t ((s.result t).set i word) })
    (hevent : s.event a s' = none) : MutexMatched L s a s' w := by
  have hl := h.eq_cells hpc₀ rfl
  have hstored : Stored L l := ⟨values, hl, fun _ => h.represents.sorted⟩
  obtain ⟨-, hok, hready⟩ := (h.thread t).body _ hpc₀
  obtain ⟨c, hcalled, hpending, -⟩ := h.called hpc₀ rfl
  have hserves : (Searcher.lookUp value).Serves c := hpending.serves rfl
  have hlen := (h.thread t).length _ value hpc₀ rfl
  have hok' := hok.copied h.chain hstored hnode hword
  have hresult : ∀ u, u ≠ t → s'.result u = s.result u := by
    subst hs'
    exact fun u hu => Function.update_of_ne hu ..
  have hself : s'.result t = (s.result t).set i word := by
    subst hs'
    exact Function.update_self ..
  have hsize : (s'.result t).length = L.size := by
    rw [hself, List.length_set, hlen]
  split_ifs at hs' hok' with hmore
  · exact h.reached (p := .copy value current (i + 1)) hpc₀ (by rw [hs']; rfl) (by rw [hs']; rfl)
      (by rw [hs']; rfl) hresult rfl rfl (.inl rfl) (hself ▸ hok') hmore (fun _ _ => hsize) hcalled
      (.of_serves rfl hserves) nofun (fun _ => hl) hevent
  · exact h.reached (p := .validate value true) hpc₀ (by rw [hs']; rfl) (by rw [hs']; rfl)
      (by rw [hs']; rfl) hresult rfl rfl (.inr ⟨value, true, rfl⟩) (hself ▸ hok') trivial
      (fun _ _ => hsize) hcalled (.of_serves rfl hserves) (fun _ hne => absurd rfl (hne value))
      (fun _ => hl) hevent

/-! ### Stores -/

/-- An access under the exclusive lock after which the call has not taken effect. -/
lemma stored (h : MutexInv L s w l values) (hown : s.mutex.owner = some t)
    (hpc : s'.pc = Function.update s.pc t (.inside p)) (hmutex : s'.mutex = s.mutex)
    (hresult : s'.result = s.result) (hcrit : p.critical = true) (hlook : p.lookingUp = none)
    (hbody : p.inBody = true) (hchain : s'.heap.Chain l')
    (hallocated : ∀ a, (s'.heap.node a).isSome ↔ a ∈ l'.map Prod.fst ∨ a ∈ p.inFlight)
    (hapart : ∀ a ∈ p.inFlight, a ∉ l'.map Prod.fst) (hcontents : Contents L l' values p)
    (hok : PcOk L s'.heap (s.result t) l' p) (hready : Ready L l' p)
    (hcalled : w.stage t = .called c) (hpending : Pending L s'.heap l' p c)
    (hwriter : c.isWriter = true) (hevent : s.event a s' = none) : MutexMatched L s a s' w := by
  have hthread : MutexThreadOk L s'.heap l' (s.result t) (.inside p) (w.stage t) := by
    rw [hcalled]
    refine ⟨?_, ?_, hapart, .of_pending ⟨hpending, ?_⟩⟩
    · intro p' hp'
      cases hp'
      exact ⟨hbody, hok, hready⟩
    · intro p' v hp' hv
      cases hp'
      rw [hlook] at hv
      cases hv
    · rintro - v r rfl
      cases hwriter
  have hshare : (MutexPc.inside p).shares = false := by
    rw [MutexPc.shares, hcrit]
    rfl
  exact (h.write hown hpc hmutex hcrit hshare hchain hallocated hresult h.represents
    (fun _ _ => rfl) hcontents hthread).matched hevent

lemma owner_of_critical (h : MutexInv L s w l values) (hpc₀ : s.pc t = .inside p₀)
    (hcrit : p₀.critical = true) : s.mutex.owner = some t := by
  rw [h.mutex.owner, hpc₀]
  exact hcrit

variable [DecidableEq A] {fresh : A}

lemma newNode (h : MutexInv L s w l values) (hpc₀ : s.pc t = .inside p₀) {value : T}
    {dst next : Option A} (halloc : (s.body p₀).Allocates t value dst next)
    (hfresh : s.heap.node fresh = none)
    (hs' : s' = { s.setPc t (.inside (.link dst (some fresh) none)) with
      heap := s.heap.alloc fresh ⟨L.words value, next⟩ })
    (hevent : s.event a s' = none) : MutexMatched L s a s' w := by
  obtain ⟨-, hok, -⟩ := (h.thread t).body p₀ hpc₀
  obtain ⟨hserving, hcrit, hflight, hover⟩ := halloc.serving
  have hown := h.owner_of_critical hpc₀ hcrit
  have hl := h.eq_cells hpc₀ hover
  obtain ⟨c, hcalled, hpending, -⟩ := h.called hpc₀ rfl
  obtain rfl : c = .insert value := hpending.serves hserving
  obtain ⟨l₁, l₂, rfl, rfl, rfl, hlt, hstop⟩ := halloc.split h.chain hok
  have hchain := h.chain.alloc (n := ⟨L.words value, firstAddr l₂⟩) hfresh
  have hnode : (s.heap.alloc fresh ⟨L.words value, firstAddr l₂⟩).node fresh
      = some ⟨L.words value, firstAddr l₂⟩ := Function.update_self ..
  subst hs'
  refine h.stored (c := .insert value) hown rfl rfl rfl rfl rfl rfl hchain ?_ ?_ hl
    ⟨l₁, l₂, fresh, value, rfl, rfl, rfl, hnode, hlt, hstop⟩ trivial hcalled ⟨value, rfl, ?_⟩ rfl
    hevent
  · intro b
    have hold := h.allocated_iff hown b
    rw [hpc₀, show (MutexPc.inside p₀).inFlight = [] from hflight] at hold
    rw [Heap.alloc_node]
    by_cases hb : b = fresh
    · simp [hb, ListPc.inFlight]
    · rw [Function.update_of_ne hb, hold]
      simp [hb, ListPc.inFlight]
  · intro b hb
    obtain rfl : b = fresh := by simpa [ListPc.inFlight] using hb
    intro hmem
    have hsome := (h.allocated b).mpr (.inl hmem)
    rw [hfresh] at hsome
    cases hsome
  · intro b hb
    obtain rfl := Option.mem_some_iff.mp hb
    rw [hnode]
    rfl

/-- The store of a word of a value. -/
lemma overwrite [Std.TransCmp cmp] (h : MutexInv L s w l values) {value : T} {current : A} {i : ℕ}
    (hpc₀ : s.pc t = .inside (.overwrite value current i)) {node : Node A (List W)}
    (hnode : s.heap.node current = some node) {word : W} (hword : (L.words value)[i]? = some word)
    (hs' : s' = { s.setPc t (.behind
        (if i + 1 < L.size then .overwrite value current (i + 1) else .unlockCall none)) with
      heap := s.heap.setValue current (node.value.set i word) })
    (hevent : s.event a s' = none) : MutexMatched L s a s' w := by
  have hown := h.owner_of_critical hpc₀ rfl
  have hcontents := h.writer t hown
  rw [hpc₀] at hcontents
  obtain ⟨c, hcalled, hpending, -⟩ := h.called hpc₀ rfl
  obtain rfl : c = .insert value := hpending.serves rfl
  obtain ⟨l', hchain, hfst, hmore, hlast⟩ := TakesEffect.overwrite h.chain hcontents h.represents
    hnode hword
  have hallocated : ∀ b, ((s.heap.setValue current (node.value.set i word)).node b).isSome ↔
      b ∈ l'.map Prod.fst := by
    intro b
    rw [s.heap.setValue_isSome current b, h.allocated_iff hown, hpc₀, hfst]
    simp [MutexPc.inFlight, ListPc.inFlight]
  split_ifs at hs' with hi
  · subst hs'
    obtain ⟨v₁, x, v₂, hvalues, heq, hl'⟩ := hmore
    refine h.stored (p := .overwrite value current (i + 1)) hown rfl rfl rfl rfl rfl rfl hchain ?_
      (by rintro _ ⟨⟩) ⟨v₁, x, v₂, hvalues, heq, hl'⟩ ⟨v₁, x, v₂, heq, hl', ?_⟩ hi hcalled
      (.of_serves rfl rfl) rfl hevent
    · intro b
      rw [hallocated]
      simp [ListPc.inFlight]
    · intro _
      rw [← hvalues]
      exact h.represents.sorted
  · obtain ⟨values', heffect⟩ := hlast hi
    obtain rfl := hchain.unique heffect.chain
    subst hs'
    refine h.taken hown (rfl : _ = Function.update s.pc t (.unlock none)) rfl rfl rfl
      (by rintro _ ⟨⟩) rfl hcalled heffect ?_ (by rintro _ ⟨⟩) rfl hevent
    intro b
    rw [hallocated, cells_fst]
    simp [MutexPc.inFlight]

/-- The store that links the new node. -/
lemma linkNew [Std.TransCmp cmp] (h : MutexInv L s w l values) {dst target : Option A}
    (hpc₀ : s.pc t = .inside (.link dst target none))
    (hs' : s' = { s.setPc t (.unlock none) with heap := s.heap.link dst target })
    (hevent : s.event a s' = none) : MutexMatched L s a s' w := by
  have hown := h.owner_of_critical hpc₀ rfl
  have hl := h.eq_cells hpc₀ rfl
  obtain ⟨-, hok, -⟩ := (h.thread t).body _ hpc₀
  obtain ⟨c, hcalled, hpending, -⟩ := h.called hpc₀ rfl
  have hout : ∀ b ∈ target, b ∉ l.map Prod.fst := by
    rintro b rfl
    refine (h.thread t).apart b ?_
    rw [hpc₀]
    exact List.mem_cons_self
  obtain ⟨v₁, b, value, v₂, rfl, rfl, heffect⟩ := TakesEffect.link h.chain hl h.represents hok
    hpending hout
  subst hs'
  refine h.taken hown rfl rfl rfl rfl nofun rfl hcalled heffect ?_ nofun rfl hevent
  intro d
  show ((s.heap.link dst (some b)).node d).isSome ↔ _
  rw [s.heap.link_isSome, h.allocated_iff hown, hpc₀, hl, cells_fst]
  simp [MutexPc.inFlight, ListPc.inFlight, or_comm, or_left_comm]

/-- The store that unlinks a node. -/
lemma linkPast [Std.TransCmp cmp] (h : MutexInv L s w l values) {dst target : Option A}
    {victim : A} (hpc₀ : s.pc t = .inside (.link dst target (some victim)))
    (hs' : s' = { s.setPc t (.free victim) with heap := s.heap.link dst target })
    (hevent : s.event a s' = none) : MutexMatched L s a s' w := by
  have hown := h.owner_of_critical hpc₀ rfl
  have hl := h.eq_cells hpc₀ rfl
  obtain ⟨-, hok, -⟩ := (h.thread t).body _ hpc₀
  obtain ⟨c, hcalled, hpending, -⟩ := h.called hpc₀ rfl
  obtain ⟨v₁, x, v₂, rfl, heffect⟩ := TakesEffect.unlink h.chain hl h.represents hok hpending
  subst hs'
  refine h.taken hown rfl rfl rfl rfl nofun rfl hcalled heffect ?_ ?_ rfl hevent
  · intro d
    show ((s.heap.link dst target).node d).isSome ↔ _
    rw [s.heap.link_isSome, h.allocated_iff hown, hpc₀, hl, cells_fst]
    simp [MutexPc.inFlight, ListPc.inFlight, or_comm, or_left_comm]
  · intro d hd
    obtain rfl : d = victim := by simpa [MutexPc.inFlight] using hd
    have hnodup := h.chain.nodup
    rw [hl, cells_fst, List.map_append, List.map_cons, List.nodup_middle, List.nodup_cons,
      ← List.map_append] at hnodup
    exact hnodup.1

/-- `Delete` frees the node. -/
lemma freed (h : MutexInv L s w l values) {current : A} (hpc₀ : s.pc t = .free current)
    (hs' : s' = { s.setPc t (.unlock (some true)) with heap := s.heap.free current })
    (hevent : s.event a s' = none) : MutexMatched L s a s' w := by
  have hown : s.mutex.owner = some t := by
    rw [h.mutex.owner, hpc₀]
    rfl
  have hl := h.writer t hown
  rw [hpc₀] at hl
  have hout : current ∉ l.map Prod.fst := by
    refine (h.thread t).apart current ?_
    rw [hpc₀]
    exact List.mem_cons_self
  subst hs'
  have hfreed : MutexInv L { s.setPc t (.unlock (some true)) with heap := s.heap.free current }
      w l values := by
    refine h.write hown rfl rfl rfl rfl (h.chain.free hout) ?_ rfl h.represents
      (fun _ _ => rfl) hl
      (.of_stage nofun nofun (.of_settled (congrArg some (h.settled hpc₀ rfl).symm)))
    intro b
    have hold := h.allocated_iff hown b
    rw [hpc₀] at hold
    show ((s.heap.free current).node b).isSome ↔ _
    rw [Heap.free_node]
    by_cases hb : b = current
    · rw [hb, Function.update_self]
      simpa [MutexPc.inFlight] using hout
    · rw [Function.update_of_ne hb, hold]
      simp [hb, MutexPc.inFlight]
  exact hfreed.matched hevent

/-- An access of the body. -/
lemma access [Std.TransCmp cmp] (h : MutexInv L s w l values) (hpc₀ : s.pc t = .inside p₀)
    {b : ListSt n T A W} (haccess : (s.body p₀).resume L t fresh = some b)
    (hs' : s' = { s.setPc t (.behind (b.pc t)) with
      heap := b.heap
      result := b.result })
    (hevent : s.event a s' = none) : MutexMatched L s a s' w := by
  have hbody : ∀ p, p₀ = p → p.inBody = true := by
    rintro _ rfl
    exact ((h.thread t).body p₀ hpc₀).1
  cases ListSt.resume_effect haccess with
  | read _ _ pc hread =>
      refine h.read hpc₀ (ListSt.read_of_resume hread haccess) ?_ hevent
      rw [hs', ListSt.setPc_pc, Function.update_self]
      rfl
  | newNode _ _ value dst next halloc hfresh =>
      refine h.newNode hpc₀ halloc hfresh ?_ hevent
      rw [hs', ListSt.setPc_pc, Function.update_self]
      rfl
  | overwrite _ _ value current i hpc node hnode word hword =>
      cases hpc
      refine h.overwrite hpc₀ hnode hword ?_ hevent
      rw [hs', ListSt.setPc_pc, Function.update_self]
      rfl
  | linkNew _ _ dst target hpc =>
      cases hpc
      exact h.linkNew hpc₀ (by rw [hs', ListSt.setPc_pc, Function.update_self]; rfl) hevent
  | linkPast _ _ dst target victim hpc =>
      cases hpc
      exact h.linkPast hpc₀ (by rw [hs', ListSt.setPc_pc, Function.update_self]; rfl) hevent
  | copy _ _ value current i hpc node hnode word hword =>
      cases hpc
      exact h.copy hpc₀ hnode hword (by rw [hs', ListSt.setPc_pc, Function.update_self]; rfl) hevent
  | lockRefused _ _ _ _ hpc | lockAcquired _ _ _ _ hpc | deferFreePointer _ _ _ hpc
  | unlockCall _ _ _ hpc | unlocking _ _ _ hpc | publish _ _ _ _ hpc | optimisticLock _ _ _ hpc
  | leave _ _ _ _ hpc | free _ _ _ _ hpc | erased _ _ _ _ hpc =>
      have hin := hbody _ hpc
      cases hin

/-- **The step lemma.** -/
theorem step [Std.TransCmp cmp] (h : MutexInv L s w l values) (hstep : s.step L a = some s') :
    MutexMatched L s a s' w := by
  cases MutexSt.step_effect hstep with
  | call t c ret hpc => exact h.call hpc c
  | lock t fresh o hpc hfree hempty =>
      exact h.lock hpc hfree hempty rfl (by simp [MutexSt.event, hpc])
  | lockShared t fresh value hpc hfree =>
      exact h.lockShared hpc hfree rfl (by simp [MutexSt.event, hpc])
  | access t fresh p hpc b haccess =>
      exact h.access hpc haccess rfl (by simp [MutexSt.event, hpc])
  | free t fresh current hpc => exact h.freed hpc rfl (by simp [MutexSt.event, hpc])
  | unlock t fresh ret hpc => exact h.unlock hpc rfl (by simp [MutexSt.event, hpc])
  | unlockShared t fresh found hpc =>
      exact h.unlockShared hpc rfl (by simp [MutexSt.event, hpc])

/-- **The run lemma.** -/
theorem run [Std.TransCmp cmp] {tr : List (MutexAct n T A)}
    (hrun : Transition.run (MutexSt.step L) .init tr = some s) :
    ∃ w l values, MutexInv L s w l values :=
  run_invariant (I := fun s => ∃ w l values, MutexInv L s w l values)
    (fun _ _ _ ⟨_, _, _, h⟩ hstep => by
      obtain ⟨w', -, l', values', h'⟩ := h.step hstep
      exact ⟨w', l', values', h'⟩)
    ⟨_, _, _, init⟩ hrun

end MutexInv

/-- **The list is an atomic map.**  Any number of threads run `Insert`, `Delete` and `LookUp` on one
`MutexSortedList`, in any interleaving of their accesses.  What they see, the output parameter of a
`LookUp` that finds nothing included, is a history of an ordered map on which each of their calls
takes effect at one moment between the call and its return. -/
theorem mutexSortedList_linearizable {n : ℕ} {T A W : Type} [DecidableEq A]
    {cmp : T → T → Ordering} [Std.TransCmp cmp] (L : Layout W cmp) {tr : List (MutexAct n T A)}
    {s : MutexSt n T A W} (hrun : run (MutexSt.step L) MutexSt.init tr = some s) :
    Linearizable (mutexMap L) ClassMap.empty
      (history MutexSt.event (MutexSt.step L) MutexSt.init tr) := by
  refine linearizable_of_simulation (G := fun _ => True)
    (R := fun s w => ∃ l values, MutexInv L s w l values) (fun _ _ _ _ _ => trivial) ?_
    ⟨[], [], .init⟩ hrun trivial
  rintro s a s' w ⟨l, values, h⟩ hstep -
  exact h.step hstep

/-- Two threads are inside `LookUp` at once, while a third waits for the mutex to overwrite the
value that they find; a `LookUp` that finds nothing leaves its output parameter. -/
theorem mutexSortedList_linearizable_shared :
    Linearizable (mutexMap digits) ClassMap.empty
      [.call (0 : Fin 3) (.insert 117), .ret 0 .inserted, .call 0 (.insert 412), .ret 0 .inserted,
        .call 1 (.lookUp 400 0), .call 2 (.lookUp 905 33), .call 0 (.insert 478),
        .ret 1 (.lookedUp true [4, 1, 2]), .ret 2 (.lookedUp false [0, 3, 3]), .ret 0 .inserted,
        .call 1 (.delete 400), .ret 1 (.deleted true)] := by
  let accesses (t : Fin 3) (k fresh : ℕ) : List (MutexAct 3 ℕ ℕ) :=
    List.replicate k (.resume t fresh)
  let tr : List (MutexAct 3 ℕ ℕ) :=
    .call 0 (.insert 117) :: accesses 0 5 7 ++ .call 0 (.insert 412) :: accesses 0 17 8 ++
      .call 1 (.lookUp 400 0) :: accesses 1 9 0 ++ .call 2 (.lookUp 905 33) :: accesses 2 9 0 ++
      .call 0 (.insert 478) :: accesses 1 10 0 ++ accesses 2 8 0 ++ accesses 0 26 0 ++
      .call 1 (.delete 400) :: accesses 1 19 0
  have hall : (run (MutexSt.step digits) (MutexSt.init : MutexSt 3 ℕ ℕ ℕ) tr).isSome := by
    decide +kernel
  have hhistory : history MutexSt.event (MutexSt.step digits) (MutexSt.init : MutexSt 3 ℕ ℕ ℕ) tr =
      [.call 0 (.insert 117), .ret 0 .inserted, .call 0 (.insert 412), .ret 0 .inserted,
        .call 1 (.lookUp 400 0), .call 2 (.lookUp 905 33), .call 0 (.insert 478),
        .ret 1 (.lookedUp true [4, 1, 2]), .ret 2 (.lookedUp false [0, 3, 3]), .ret 0 .inserted,
        .call 1 (.delete 400), .ret 1 (.deleted true)] := by
    decide +kernel
  obtain ⟨s, hrun⟩ := Option.isSome_iff_exists.mp hall
  rw [← hhistory]
  exact mutexSortedList_linearizable digits hrun

end OptLock
