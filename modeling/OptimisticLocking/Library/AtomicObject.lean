import OptimisticLocking.Library.Transition

/-!
# Atomic objects

An object that threads share and that is changed by one operation at a time.  A thread calls an
operation, later the operation takes effect all at once, and later still the thread gets the
outcome.  Callers see the calls and the returns, not the moments in between.

* `AtomicObject.step` — the object, for an `apply` that says what each operation does.
* `Linearizable` — a history of calls and returns that such an object can show: between each
  call and its return there is a moment at which the operation happened.
* **`linearizable_of_simulation`** — a system whose steps are matched by the object's shows
  linearizable histories only.
-/

namespace AtomicObject

open Transition

/-- What the callers see. -/
inductive Event (n : ℕ) (Op Out : Type*)
  | call (t : Fin n) (op : Op)
  | ret (t : Fin n) (out : Out)
  deriving DecidableEq, Repr

/-- How far the call of a thread has come. -/
inductive Stage (Op Out : Type*)
  | idle
  | called (op : Op)
  /-- The operation has taken effect. -/
  | done (out : Out)
  deriving DecidableEq, Repr

structure St (n : ℕ) (S Op Out : Type*) where
  obj : S
  stage : Fin n → Stage Op Out

inductive Act (n : ℕ) (Op : Type*)
  | call (t : Fin n) (op : Op)
  | take (t : Fin n)
  | ret (t : Fin n)
  deriving DecidableEq, Repr

variable {n : ℕ} {S Op Out : Type*}

def init (obj : S) : St n S Op Out := { obj := obj, stage := fun _ => .idle }

def St.setStage (w : St n S Op Out) (t : Fin n) (stage : Stage Op Out) : St n S Op Out :=
  { w with stage := Function.update w.stage t stage }

@[simp] lemma setStage_obj (w : St n S Op Out) (t : Fin n) (stage : Stage Op Out) :
    (w.setStage t stage).obj = w.obj := rfl

@[simp] lemma setStage_stage (w : St n S Op Out) (t : Fin n) (stage : Stage Op Out) :
    (w.setStage t stage).stage = Function.update w.stage t stage := rfl

lemma setStage_self (w : St n S Op Out) (t : Fin n) (stage : Stage Op Out) :
    (w.setStage t stage).stage t = stage := Function.update_self ..

/-- The operation `op` of `t` takes effect. -/
def St.take (apply : S → Op → Out × S) (w : St n S Op Out) (t : Fin n) (op : Op) :
    St n S Op Out :=
  { w.setStage t (.done (apply w.obj op).1) with obj := (apply w.obj op).2 }

@[simp] lemma take_obj (apply : S → Op → Out × S) (w : St n S Op Out) (t : Fin n) (op : Op) :
    (w.take apply t op).obj = (apply w.obj op).2 := rfl

@[simp] lemma take_stage (apply : S → Op → Out × S) (w : St n S Op Out) (t : Fin n) (op : Op) :
    (w.take apply t op).stage = Function.update w.stage t (.done (apply w.obj op).1) := rfl

def step (apply : S → Op → Out × S) (w : St n S Op Out) : Act n Op → Option (St n S Op Out)
  | .call t op =>
      match w.stage t with
      | .idle => some (w.setStage t (.called op))
      | _ => none
  | .take t =>
      match w.stage t with
      | .called op => some (w.take apply t op)
      | _ => none
  | .ret t =>
      match w.stage t with
      | .done _ => some (w.setStage t .idle)
      | _ => none

def observe (w : St n S Op Out) (a : Act n Op) (_ : St n S Op Out) : Option (Event n Op Out) :=
  match a with
  | .call t op => some (.call t op)
  | .take _ => none
  | .ret t =>
      match w.stage t with
      | .done out => some (.ret t out)
      | _ => none

/-- What the object shows between two of its states. -/
abbrev Shows (apply : S → Op → Out × S) (w : St n S Op Out) (obs : List (Event n Op Out))
    (w' : St n S Op Out) : Prop :=
  Yields observe (step apply) w obs w'

section shows

variable {apply : S → Op → Out × S} {w : St n S Op Out} {t : Fin n} {op : Op} {out : Out}

lemma shows_call (h : w.stage t = .idle) :
    Shows apply w [.call t op] (w.setStage t (.called op)) :=
  Yields.single (a := Act.call t op) (by rw [step, h])

lemma shows_take (h : w.stage t = .called op) : Shows apply w [] (w.take apply t op) :=
  Yields.single (a := Act.take t) (by rw [step, h])

lemma shows_ret (h : w.stage t = .done out) : Shows apply w [.ret t out] (w.setStage t .idle) := by
  have hsingle : Shows apply w (observe w (.ret t) _).toList (w.setStage t .idle) :=
    Yields.single (a := Act.ret t) (by rw [step, h])
  rwa [observe, h] at hsingle

end shows

/-- A history that the object can show, when it starts as `obj`. -/
def Linearizable (apply : S → Op → Out × S) (obj : S) (h : List (Event n Op Out)) : Prop :=
  ∃ w, Shows apply (init obj) h w

/-- **The linearization rule.**  Each step of the system is matched by some steps of the object
that show the same. -/
theorem linearizable_of_simulation {σ ι : Type*} {sysStep : σ → ι → Option σ}
    {event : σ → ι → σ → Option (Event n Op Out)} {apply : S → Op → Out × S} {obj : S}
    {G : σ → Prop} {R : σ → St n S Op Out → Prop}
    (hG : ∀ s a s', sysStep s a = some s' → G s' → G s)
    (hstep : ∀ s a s' w, R s w → sysStep s a = some s' → G s' →
      ∃ w', Shows apply w (event s a s').toList w' ∧ R s' w')
    {s₀ s : σ} {tr : List ι} (h₀ : R s₀ (init obj)) (hrun : run sysStep s₀ tr = some s)
    (hs : G s) : Linearizable apply obj (history event sysStep s₀ tr) := by
  obtain ⟨w, hw, -⟩ := yields_of_simulation hG hstep h₀ hrun hs
  exact ⟨w, hw⟩

end AtomicObject
