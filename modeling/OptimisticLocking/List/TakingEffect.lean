import OptimisticLocking.List.ForwardTraversal

/-!
# When a call takes effect

The two lists run the same code between taking the lock and giving it back.  A call takes effect
with one of its accesses: with the store to `root_` or to `next` that links or unlinks a node, with
the store of the last word of a value, with the access by which a `Delete` learns that there is
nothing to delete, and with the one by which a `LookUp` has its answer.

* `Pending` — the call that a thread is inside of, and that has not taken effect.
* `Contents` — how the values that the map stores lie in the chain.
* `TakesEffect` — the values in the chain, and the outcome, are those after the call.
* **`ReadEffect.pending`** — what a read does to a call.
* **`TakesEffect.link`**, **`TakesEffect.unlink`**, **`TakesEffect.overwrite`**,
  **`TakesEffect.absent`**, **`TakesEffect.answer`** — the accesses that matter.
-/

namespace OptLock

open LinkedList OrderedList HybridLock Transition

variable {T A W : Type}

def Writer.call : Writer T → Call T
  | .insert value => .insert value
  | .delete value => .delete value

/-- The call that a search belongs to. -/
def Searcher.Serves : Searcher T → Call T → Prop
  | .lookUp value, c => ∃ result, c = .lookUp value result
  | .writer w, c => c = w.call

/-- The call that has not taken effect yet, where the place alone says which. -/
def ListPc.serving : ListPc T A W → Option (Searcher T)
  | .lockLoad w | .lockCas w _ => some (.writer w)
  | .headTest value | .headNode value | .headCompare value _ _ | .newHead value
  | .assertNext value _ | .overwriteNode value _ | .overwrite value _ _ | .splice value _ =>
      some (.writer (.insert value))
  | .searchRoot op | .compare op _ _ _ _ | .next op _ => some op
  | .epochLoad value | .epochStore value _ | .optimisticLock value | .copy value _ _
  | .validate value _ | .epochLeave value none => some (.lookUp value)
  | _ => none

section definitions

variable {cmp : T → T → Ordering} (L : Layout W cmp)

/-- `c` is the call that a thread is inside of, and it has not taken effect.  The chain is `l`. -/
def Pending (heap : Heap A (List W)) (l : List (A × List W)) : ListPc T A W → Call T → Prop
  | .unlink _ victim, c | .link _ _ (some victim), c =>
      ∃ value, c = .delete value ∧ ∀ w, (victim, w) ∈ l → L.compare w value = .eq
  | .link _ target none, c =>
      ∃ value, c = .insert value ∧ ∀ a ∈ target, (heap.node a).map (·.value) = some (L.words value)
  | pc, c => ∃ op ∈ pc.serving, op.Serves c

/-- How the values that the map stores lie in the chain `l`, while the thread at `pc` holds the
lock: a value that is being overwritten is the old one until the last word is stored. -/
def Contents (l : List (A × List W)) (values : List (A × T)) : ListPc T A W → Prop
  | .overwrite value current i => ∃ v₁ x v₂, values = v₁ ++ (current, x) :: v₂ ∧
      cmp x value = .eq ∧
      l = L.cells v₁ ++ (current, partly i (L.words value) (L.words x)) :: L.cells v₂
  | _ => l = L.cells values

/-- The list stores the values that the map `m` stores after the call `c`, and `out` is what the
call returns. -/
structure TakesEffect (m : ClassMap T) (c : Call T) (out : Outcome T) (heap : Heap A (List W))
    (values : List (A × T)) : Prop where
  chain : heap.Chain (L.cells values)
  represents : Represents cmp (values.map Prod.snd) (mapCall cmp m c).2
  outcome : (mapCall cmp m c).1 = out

end definitions

variable {cmp : T → T → Ordering} {L : Layout W cmp} {heap heap' : Heap A (List W)}
  {result : List W} {l l' l₁ l₂ : List (A × List W)} {values : List (A × T)} {m : ClassMap T}
  {pc : ListPc T A W} {op : Searcher T} {c : Call T} {test : LoopTest} {prev : Option A}
  {current : A} {read w : List W} {value : T}

/-! ## How far a call has come -/

/-- Without the lock, a call relies on the chain for nothing. -/
lemma Pending.of_not_critical (h : Pending L heap l pc c) (hcrit : pc.critical = false) :
    Pending L heap' l' pc c := by
  cases pc with
  | link | unlink => cases hcrit
  | _ => exact h

/-- A call relies on no node outside of the chain but the new one. -/
lemma Pending.of_heap (h : Pending L heap l pc c)
    (hsame : ∀ a ∈ pc.inFlight, heap'.node a = heap.node a) : Pending L heap' l pc c := by
  cases pc with
  | link dst target victim =>
      cases victim with
      | none =>
          obtain ⟨value, hc, hnode⟩ := h
          refine ⟨value, hc, ?_⟩
          intro a ha
          rw [hsame a (Option.mem_toList.mpr ha)]
          exact hnode a ha
      | some victim => exact h
  | _ => exact h

lemma Pending.of_serves (hpc : pc.serving = some op) (hserves : op.Serves c) :
    Pending L heap l pc c := by
  cases pc with
  | link dst target victim => cases victim <;> cases hpc
  | unlink => cases hpc
  | _ => exact ⟨op, hpc, hserves⟩

lemma Pending.serves (h : Pending L heap l pc c) (hpc : pc.serving = some op) : op.Serves c := by
  have hserves : ∀ {o : Option (Searcher T)}, o = some op → (∃ op ∈ o, op.Serves c) →
      op.Serves c := by
    rintro _ rfl ⟨op', hop, hc⟩
    obtain rfl := Option.mem_some_iff.mp hop
    exact hc
  cases pc with
  | link dst target victim => cases victim <;> cases hpc
  | unlink => cases hpc
  | _ => exact hserves hpc h

lemma Contents.eq_cells (h : Contents L l values pc) (hover : pc.overwriting = false) :
    l = L.cells values := by
  cases pc with
  | overwrite value current i => cases hover
  | _ => exact h

lemma Contents.of_eq_cells (h : l = L.cells values) (hover : pc.overwriting = false) :
    Contents L l values pc := by
  cases pc with
  | overwrite value current i => cases hover
  | _ => exact h

@[simp] lemma cells_fst (values : List (A × T)) :
    (L.cells values).map Prod.fst = values.map Prod.fst := by
  simp [Layout.cells]

lemma length_cells {x : A × List W} (hx : x ∈ L.cells values) : x.2.length = L.size := by
  obtain ⟨y, -, rfl⟩ := List.mem_map.mp hx
  exact L.length_words y.2

/-- Every cell is as long as a value, torn or not. -/
lemma Contents.length (h : Contents L l values pc) : ∀ x ∈ l, x.2.length = L.size := by
  cases pc with
  | overwrite value current i =>
      obtain ⟨v₁, y, v₂, -, -, rfl⟩ := h
      intro x hx
      rcases List.mem_append.mp hx with hx | hx
      · exact length_cells hx
      · rcases List.mem_cons.mp hx with rfl | hx
        · show (partly i (L.words value) (L.words y)).length = L.size
          rw [partly, List.length_append, List.length_take, List.length_drop, L.length_words,
            L.length_words]
          omega
        · exact length_cells hx
  | _ =>
      intro x hx
      rw [show l = L.cells values from h] at hx
      exact length_cells hx

/-! ## What the search has come to -/

/-- What an access of the search loop shows, of which `Delete` keeps only a part. -/
inductive SearchOk (L : Layout W cmp) (l : List (A × List W)) (op : Searcher T) :
    ListPc T A W → Prop
  | absent (prev : Option A) (l₁ l₂ : List (A × List W)) (hl : l = l₁ ++ l₂)
      (hlt : ∀ y ∈ l₁, L.compare y.2 op.value = .lt) (hstop : Stop L.compare op.value l₂ false) :
      SearchOk L l op (op.notFound prev)
  | found (prev : Option A) (current : A) (l₁ : List (A × List W)) (w : List W)
      (l₂ : List (A × List W)) (hl : l = l₁ ++ (current, w) :: l₂)
      (heq : L.compare w op.value = .eq) : SearchOk L l op (op.found prev current)
  | going (pc : ListPc T A W) (hpc : pc.serving = some op) : SearchOk L l op pc

lemma SearchOk.loop (prev : Option A) (hl : l = l₁ ++ l₂)
    (hlt : ∀ y ∈ l₁, L.compare y.2 op.value = .lt) :
    SearchOk L l op (op.loop prev (firstAddr l₂)) := by
  cases l₂ with
  | nil => exact .absent prev l₁ [] hl hlt .atEnd
  | cons c l₂ => exact .going _ rfl

lemma SearchOk.tested (prev : Option A) (hl : l = l₁ ++ (current, w) :: l₂)
    (hlt : ∀ y ∈ l₁, L.compare y.2 op.value = .lt) :
    SearchOk L l op (op.tested prev current (L.compare w op.value) test) := by
  cases test with
  | greater =>
      rw [Searcher.tested]
      split_ifs with hgt
      · exact .absent prev l₁ _ hl hlt (.greater (current, w) l₂ hgt)
      · exact .going _ rfl
  | equal =>
      rw [Searcher.tested]
      split_ifs with heq
      · exact .found prev current l₁ w l₂ hl heq
      · exact .going _ rfl

lemma SearchOk.compared (prev : Option A) (hl : l = l₁ ++ (current, w) :: l₂)
    (hlt : ∀ y ∈ l₁, L.compare y.2 op.value = .lt) (hread : read <+: w)
    (hlen : w.length = L.size) : SearchOk L l op (L.compared op test prev current read) := by
  rw [Layout.compared]
  split_ifs with hmore
  · exact .going _ rfl
  · obtain rfl : read = w := hread.eq_of_length_le (by omega)
    exact .tested prev hl hlt

/-- A `Delete` has learnt that there is nothing to delete. -/
def FoundAbsent (L : Layout W cmp) (l : List (A × List W)) (pc : ListPc T A W) (c : Call T) :
    Prop :=
  ∃ value l₁ l₂, pc = .unlockCall (some false) ∧ c = .delete value ∧ l = l₁ ++ l₂ ∧
    (∀ y ∈ l₁, L.compare y.2 value = .lt) ∧ Stop L.compare value l₂ false

lemma SearchOk.pending (h : SearchOk L l op pc) (hnodup : (l.map Prod.fst).Nodup)
    (hserves : op.Serves c) : Pending L heap l pc c ∨ FoundAbsent L l pc c := by
  cases h with
  | absent prev l₁ l₂ hl hlt hstop =>
      rcases op with v | (v | v)
      · exact .inl (.of_serves rfl hserves)
      · exact .inl (.of_serves rfl hserves)
      · exact .inr ⟨v, l₁, l₂, rfl, hserves, hl, hlt, hstop⟩
  | found prev current l₁ w l₂ hl heq =>
      rcases op with v | (v | v)
      · exact .inl (.of_serves rfl hserves)
      · exact .inl (.of_serves rfl hserves)
      · refine .inl ⟨v, hserves, ?_⟩
        intro w' hw'
        obtain rfl : w' = w := by
          have hw : (current, w) ∈ l := hl ▸ List.mem_append_right _ List.mem_cons_self
          exact (Prod.mk.inj (List.inj_on_of_nodup_map hnodup hw' hw rfl)).2
        exact heq
  | going pc hpc => exact .inl (.of_serves hpc hserves)

lemma serving_loop (v : T) (p : Option A) :
    ((Searcher.lookUp v).loop prev p : ListPc T A W).serving = some (.lookUp v) := by
  cases p <;> rfl

lemma serving_compared (v : T) :
    (L.compared (.lookUp v) test prev current read).serving = some (.lookUp v) := by
  rw [Layout.compared]
  split_ifs
  · rfl
  · cases test <;> rw [Searcher.tested] <;> split_ifs <;> rfl

lemma serving_headCompared :
    (L.headCompared value current read).serving = some (.writer (.insert value)) := by
  rw [Layout.headCompared]
  split_ifs <;> rfl

/-- **What a read does to a call.**  It takes effect when a `Delete` has learnt that there is
nothing to delete, and when a `LookUp` is validated; no other read matters. -/
theorem ReadEffect.pending {n : ℕ} {s : ListSt n T A W} {t : Fin n} (h : ReadEffect L s t pc)
    (hc : s.heap.Chain l)
    (hknown : (s.pc t).critical = true → Stored L l ∧ PcOk L s.heap (s.result t) l (s.pc t))
    (hpending : Pending L s.heap l (s.pc t) c) :
    Pending L s.heap l pc c ∨ FoundAbsent L l pc c ∨
      ∃ value found, s.pc t = .validate value found ∧ pc = .epochLeave value (some found) ∧
        HybridGuard.mustRestart (s.state t) s.lock.stateAndVersion = false := by
  cases h with
  | lockLoad _ hpc | headNull _ hpc | headTest _ hpc | headNode _ hpc | assertNext _ _ hpc
  | overwriteNode _ _ hpc | epochLoad _ hpc | restart _ _ hpc =>
      exact .inl (.of_serves rfl (hpending.serves (by rw [hpc]; rfl)))
  | headCompare value current read hpc =>
      exact .inl (.of_serves serving_headCompared (hpending.serves (by rw [hpc]; rfl)))
  | searchRoot op hpc =>
      have hserves : op.Serves c := hpending.serves (by rw [hpc]; rfl)
      cases op with
      | lookUp v => exact .inl (.of_serves (serving_loop v _) hserves)
      | writer w =>
          rw [hc.root_eq]
          exact ((SearchOk.loop none (List.nil_append l).symm (by simp)).pending hc.nodup
            hserves).imp_right .inl
  | compare op test prev current read hpc node hnode word hword =>
      have hserves : op.Serves c := hpending.serves (by rw [hpc]; rfl)
      cases op with
      | lookUp v => exact .inl (.of_serves (serving_compared v) hserves)
      | writer w =>
          rw [hpc] at hknown
          obtain ⟨hstored, l₁, w', l₂, rfl, hprev, hlt, hread, -⟩ := hknown rfl
          rw [hc.node_eq, Option.some.injEq] at hnode
          subst hnode
          exact ((SearchOk.compared prev rfl hlt (prefix_snoc hread hword)
            (hstored.length (c := (current, w')) (by simp))).pending hc.nodup
            hserves).imp_right .inl
  | next op current hpc node hnode =>
      have hserves : op.Serves c := hpending.serves (by rw [hpc]; rfl)
      cases op with
      | lookUp v => exact .inl (.of_serves (serving_loop v _) hserves)
      | writer w =>
          rw [hpc] at hknown
          obtain ⟨-, l₁, w', l₂, rfl, hlt⟩ := hknown rfl
          rw [hc.node_eq, Option.some.injEq] at hnode
          subst hnode
          exact ((SearchOk.loop (some current) (by simp) hlt).pending hc.nodup
            hserves).imp_right .inl
  | unlink prev current hpc =>
      rw [hpc] at hpending
      exact .inl hpending
  | scan i m hpc | scanned i m hpc =>
      rw [hpc] at hpending
      obtain ⟨op, hop, -⟩ := hpending
      cases hop
  | valid value found hpc hvalid => exact .inr (.inr ⟨value, found, hpc, rfl, hvalid⟩)

/-- A read that learns where a value lies that is going to be overwritten. -/
lemma ReadEffect.contents {n : ℕ} {s : ListSt n T A W} {t : Fin n} (h : ReadEffect L s t pc)
    (hl : l = L.cells values) (hok : PcOk L heap result l pc) : Contents L l values pc := by
  cases h with
  | overwriteNode value p hpc node hnode current hnext =>
      obtain ⟨v₁, x, v₂, heq, hcells, -⟩ := hok
      rw [partly_zero] at hcells
      obtain ⟨u₁, y, u₂, rfl, h₁, hwords, h₂⟩ := cells_eq_append_cons (hl.symm.trans hcells)
      refine ⟨u₁, y, u₂, rfl, ?_, ?_⟩
      · rw [L.cmp_congr hwords]
        exact heq
      · rw [partly_zero, hl, cells_append, cells_cons]
  | headCompare => exact .of_eq_cells hl (overwriting_headCompared ..)
  | searchRoot | next => exact .of_eq_cells hl (overwriting_loop ..)
  | compare => exact .of_eq_cells hl (overwriting_compared ..)
  | _ => exact .of_eq_cells hl rfl

/-- Where the new node belongs. -/
lemma ListSt.Allocates.split {n : ℕ} {s : ListSt n T A W} {t : Fin n} {dst next : Option A}
    (h : s.Allocates t value dst next) (hc : s.heap.Chain l)
    (hok : PcOk L s.heap (s.result t) l (s.pc t)) :
    ∃ l₁ l₂, l = l₁ ++ l₂ ∧ dst = lastAddr l₁ ∧ next = firstAddr l₂ ∧
      (∀ y ∈ l₁, L.compare y.2 value = .lt) ∧ Stop L.compare value l₂ false := by
  cases h with
  | head hpc =>
      rw [hpc] at hok
      exact ⟨[], l, rfl, rfl, hc.root_eq, by simp, hok⟩
  | inner p node hpc hnode =>
      rw [hpc] at hok
      obtain ⟨l₁, l₂, rfl, hprev, hlt, hstop⟩ := hok
      refine ⟨l₁, l₂, rfl, hprev, ?_, hlt, hstop⟩
      obtain ⟨l₀, x, rfl⟩ := exists_eq_append_of_lastAddr hprev.symm
      have hcell : s.heap.Chain (l₀ ++ (p, x) :: l₂) := by simpa using hc
      rw [hcell.node_eq, Option.some.injEq] at hnode
      rw [← hnode]

lemma ListSt.Allocates.serving {n : ℕ} {s : ListSt n T A W} {t : Fin n} {dst next : Option A}
    (h : s.Allocates t value dst next) :
    (s.pc t).serving = some (.writer (.insert value)) ∧ (s.pc t).critical = true ∧
      (s.pc t).inFlight = [] ∧ (s.pc t).overwriting = false := by
  cases h with
  | head hpc | inner _ _ hpc =>
      rw [hpc]
      exact ⟨rfl, rfl, rfl, rfl⟩

/-! ## The accesses that matter -/

lemma Layout.cmp_congr_right [Std.OrientedCmp cmp] {x y : T} (h : L.words x = L.words y) (z : T) :
    cmp z x = cmp z y := by
  calc
    cmp z x = (cmp x z).swap := Std.OrientedCmp.eq_swap
    _ = (cmp y z).swap := by rw [L.cmp_congr h]
    _ = cmp z y := Std.OrientedCmp.eq_swap.symm

lemma mapCall_lookUp (m : ClassMap T) (value result : T) :
    mapCall cmp m (.lookUp value result)
      = (.lookedUp (m value).isSome ((m value).getD result), m) := by
  cases h : m value <;> simp [mapCall, h]

namespace TakesEffect

variable [Std.TransCmp cmp]

/-- `Delete` has nothing to delete. -/
theorem absent (hc : heap.Chain l) (hl : l = L.cells values)
    (hr : Represents cmp (values.map Prod.snd) m) (h : FoundAbsent L l pc c) :
    TakesEffect L m c (.deleted false) heap values := by
  obtain ⟨value, l₁, l₂, -, rfl, hsplit, hlt, hstop⟩ := h
  obtain ⟨v₁, v₂, rfl, rfl, rfl⟩ := cells_eq_append (hl.symm.trans hsplit)
  have hs := hr.sorted
  rw [List.map_append] at hs
  have hnone : OrderedList.lookup cmp value ((v₁ ++ v₂).map Prod.snd) = none := by
    rw [List.map_append]
    exact lookup_of_split (below_of_cells hlt)
      (hstop.of_cells.gt_of_sorted (sorted_append.mp hs).2.1)
  refine ⟨hl ▸ hc, hr.erase_of_none hnone, ?_⟩
  rw [mapCall, hr.lookup, hnone]
  rfl

/-- `LookUp` has its answer. -/
theorem answer (hc : heap.Chain l) (hl : l = L.cells values)
    (hr : Represents cmp (values.map Prod.snd) m) {found : Bool}
    (h : PcOk L heap result l (.validate value found)) (r : T) :
    ∃ x, TakesEffect L m (.lookUp value r) (.lookedUp found x) heap values ∧
      L.words x = if found then result else L.words r := by
  subst hl
  cases found with
  | true =>
      obtain ⟨w, hw, heq, rfl⟩ := h
      obtain ⟨x, hx, rfl⟩ := List.mem_map.mp hw
      have hfound : m value = some x.2 := by
        rw [hr.lookup]
        exact hr.sorted.lookup_of_mem (List.mem_map_of_mem hx)
          ((L.compare_words x.2 value).symm.trans heq)
      refine ⟨x.2, ⟨hc, ?_, ?_⟩, rfl⟩
      · rw [mapCall_lookUp]
        exact hr
      · rw [mapCall_lookUp, hfound]
        rfl
  | false =>
      obtain ⟨l₁, l₂, hsplit, hlt, hstop⟩ := h
      obtain ⟨v₁, v₂, rfl, rfl, rfl⟩ := cells_eq_append hsplit
      have hs := hr.sorted
      rw [List.map_append] at hs
      have hnone : m value = none := by
        rw [hr.lookup, List.map_append]
        exact lookup_of_split (below_of_cells hlt)
          (hstop.of_cells.gt_of_sorted (sorted_append.mp hs).2.1)
      refine ⟨r, ⟨hc, ?_, ?_⟩, rfl⟩
      · rw [mapCall_lookUp]
        exact hr
      · rw [mapCall_lookUp, hnone]
        rfl

variable [DecidableEq A]

/-- The store that links the new node. -/
theorem link {dst target : Option A} (hc : heap.Chain l) (hl : l = L.cells values)
    (hr : Represents cmp (values.map Prod.snd) m)
    (hok : PcOk L heap result l (.link dst target none))
    (hpending : Pending L heap l (.link dst target none) c)
    (hout : ∀ a ∈ target, a ∉ l.map Prod.fst) :
    ∃ v₁ a value v₂, values = v₁ ++ v₂ ∧ target = some a ∧
      TakesEffect L m c .inserted (heap.link dst target) (v₁ ++ (a, value) :: v₂) := by
  obtain ⟨l₁, l₂, a, v, hsplit, rfl, rfl, hnode, hlt, hstop⟩ := hok
  obtain ⟨value, rfl, hwords⟩ := hpending
  -- the node holds the words of both
  replace hwords : L.words v = L.words value := by
    have hvalue := hwords a (Option.mem_some_self a)
    rw [hnode] at hvalue
    exact Option.some.inj hvalue
  have hnot := hout a (Option.mem_some_self a)
  rw [hsplit, List.map_append, List.mem_append, not_or] at hnot
  have hchain := hsplit ▸ hc
  obtain ⟨v₁, v₂, rfl, rfl, rfl⟩ := cells_eq_append (hl.symm.trans hsplit)
  rw [List.map_append] at hr
  have hbelow := below_of_cells hlt
  have habove := hstop.of_cells.gt_of_sorted (sorted_append.mp hr.sorted).2.1
  simp only [L.cmp_congr_right hwords] at hbelow habove
  refine ⟨v₁, a, value, v₂, rfl, rfl, ?_, ?_, rfl⟩
  · rw [cells_append, cells_cons]
    exact hchain.insert (c := (a, L.words value)) (hwords ▸ hnode) hnot.1
  · rw [List.map_append, List.map_cons]
    exact hr.splice hbelow habove

/-- The store that unlinks a node. -/
theorem unlink {dst target : Option A} {victim : A} (hc : heap.Chain l) (hl : l = L.cells values)
    (hr : Represents cmp (values.map Prod.snd) m)
    (hok : PcOk L heap result l (.link dst target (some victim)))
    (hpending : Pending L heap l (.link dst target (some victim)) c) :
    ∃ v₁ x v₂, values = v₁ ++ (victim, x) :: v₂ ∧
      TakesEffect L m c (.deleted true) (heap.link dst target) (v₁ ++ v₂) := by
  obtain ⟨l₁, w, l₂, hsplit, rfl, rfl⟩ := hok
  obtain ⟨value, rfl, hequal⟩ := hpending
  have hchain := hsplit ▸ hc
  obtain ⟨v₁, x, v₂, rfl, rfl, rfl, rfl⟩ := cells_eq_append_cons (hl.symm.trans hsplit)
  have heq : cmp x value = .eq := by
    rw [← L.compare_words]
    exact hequal _ (hsplit ▸ List.mem_append_right _ List.mem_cons_self)
  rw [List.map_append, List.map_cons] at hr
  refine ⟨v₁, x, v₂, rfl, ?_, ?_, ?_⟩
  · rw [cells_append]
    exact hchain.unlink
  · rw [List.map_append]
    exact hr.unlink heq
  · rw [mapCall, hr.lookup, (hr.sorted.lookup_of_eq heq).1]
    rfl

/-- The store of a word of a value; with the last one, the cell holds the new value. -/
theorem overwrite {i : ℕ} (hc : heap.Chain l)
    (hcontents : Contents L l values (.overwrite value current i))
    (hr : Represents cmp (values.map Prod.snd) m) {node : Node A (List W)}
    (hnode : heap.node current = some node) {word : W}
    (hword : (L.words value)[i]? = some word) :
    ∃ l', (heap.setValue current (node.value.set i word)).Chain l' ∧
      l'.map Prod.fst = l.map Prod.fst ∧ Contents L l' values (.overwrite value current (i + 1)) ∧
      (¬ i + 1 < L.size → ∃ values', TakesEffect L m (.insert value) .inserted
        (heap.setValue current (node.value.set i word)) values') := by
  obtain ⟨v₁, x, v₂, rfl, heq, rfl⟩ := hcontents
  have hlen : (L.words x).length = (L.words value).length := by
    rw [L.length_words, L.length_words]
  rw [hc.node_eq, Option.some.injEq] at hnode
  subst hnode
  have hstored := hc.setValue (w := partly (i + 1) (L.words value) (L.words x))
  rw [partly_set hlen hword]
  refine ⟨_, hstored, by simp, ⟨v₁, x, v₂, rfl, heq, rfl⟩, ?_⟩
  intro hlast
  have hwhole : partly (i + 1) (L.words value) (L.words x) = L.words value :=
    partly_length hlen (by rw [L.length_words]; omega)
  rw [List.map_append, List.map_cons] at hr
  refine ⟨v₁ ++ (current, value) :: v₂, ?_, ?_, rfl⟩
  · rw [hwhole] at hstored ⊢
    rw [cells_append, cells_cons]
    exact hstored
  · rw [List.map_append, List.map_cons]
    exact hr.overwrite heq

end TakesEffect

end OptLock
