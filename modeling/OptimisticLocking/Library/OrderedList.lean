import Mathlib.Data.List.Induction
import Mathlib.Tactic.Common

/-!
# Ordered maps over a three-way comparison

`cmp` is a total preorder: equivalent values may differ.  A map stores one value for each class of
equivalent values and is kept as a strictly ascending list.

* `ClassMap` — the map, as the function that finds what is stored for a class.
* `Sorted`, `lookup` — its representation by a list; `Represents` connects the two.
* **`Represents.splice`**, **`Represents.overwrite`**, **`Represents.unlink`** — the three ways to
  change the list at the place where an early-exit search stopped, and what they do to the map.
-/

namespace OrderedList

variable {T : Type*}

/-- What is stored for the class of a value. -/
abbrev ClassMap (T : Type*) := T → Option T

namespace ClassMap

variable (cmp : T → T → Ordering)

def empty : ClassMap T := fun _ => none

/-- Store `v` for its class. -/
def insert (v : T) (m : ClassMap T) : ClassMap T := fun k => if cmp k v = .eq then some v else m k

/-- Store nothing for the class of `v`. -/
def erase (v : T) (m : ClassMap T) : ClassMap T := fun k => if cmp k v = .eq then none else m k

end ClassMap

variable {cmp : T → T → Ordering}

/-- Strictly ascending. -/
def Sorted (cmp : T → T → Ordering) (l : List T) : Prop := l.Pairwise fun a b => cmp a b = .lt

/-- The stored value that is equivalent to `k`. -/
def lookup (cmp : T → T → Ordering) (k : T) : List T → Option T
  | [] => none
  | x :: l => if cmp x k = .eq then some x else lookup cmp k l

@[simp] lemma lookup_nil (k : T) : lookup cmp k [] = none := rfl

lemma lookup_cons (k x : T) (l : List T) :
    lookup cmp k (x :: l) = if cmp x k = .eq then some x else lookup cmp k l := rfl

lemma lookup_append (k : T) (l l' : List T) :
    lookup cmp k (l ++ l') = (lookup cmp k l).or (lookup cmp k l') := by
  induction l with
  | nil => simp
  | cons x l ih =>
      by_cases h : cmp x k = .eq
      · simp [lookup_cons, h]
      · simp [lookup_cons, h, ih]

lemma lookup_eq_none {k : T} {l : List T} : lookup cmp k l = none ↔ ∀ x ∈ l, cmp x k ≠ .eq := by
  induction l with
  | nil => simp
  | cons x l ih => by_cases h : cmp x k = .eq <;> simp [lookup_cons, h, ih]

lemma sorted_append {l l' : List T} :
    Sorted cmp (l ++ l') ↔ Sorted cmp l ∧ Sorted cmp l' ∧ ∀ a ∈ l, ∀ b ∈ l', cmp a b = .lt :=
  List.pairwise_append

lemma sorted_cons {x : T} {l : List T} :
    Sorted cmp (x :: l) ↔ (∀ b ∈ l, cmp x b = .lt) ∧ Sorted cmp l := List.pairwise_cons

section preorder

variable [Std.TransCmp cmp] {l₁ l₂ : List T} {v x : T}

/-- What is behind a value that is not below `v` is above `v`. -/
lemma Sorted.gt_of_head {l : List T} (h : Sorted cmp (x :: l)) (hx : cmp x v ≠ .lt) :
    ∀ y ∈ l, cmp y v = .gt := by
  intro y hy
  have hlt : cmp x y = .lt := (sorted_cons.mp h).1 y hy
  cases hv : cmp x v with
  | lt => exact absurd hv hx
  | eq => exact Std.TransCmp.gt_of_gt_of_eq (Std.OrientedCmp.gt_of_lt hlt) hv
  | gt => exact Std.TransCmp.gt_trans (Std.OrientedCmp.gt_of_lt hlt) hv

omit [Std.TransCmp cmp] in
/-- Where an early-exit search stops in front of a greater value, nothing is equivalent. -/
lemma lookup_of_split (h₁ : ∀ y ∈ l₁, cmp y v = .lt) (h₂ : ∀ y ∈ l₂, cmp y v = .gt) :
    lookup cmp v (l₁ ++ l₂) = none := by
  rw [lookup_eq_none]
  intro y hy
  rcases List.mem_append.mp hy with hy | hy
  · simp [h₁ y hy]
  · simp [h₂ y hy]

lemma sorted_splice (h : Sorted cmp (l₁ ++ l₂)) (h₁ : ∀ y ∈ l₁, cmp y v = .lt)
    (h₂ : ∀ y ∈ l₂, cmp y v = .gt) : Sorted cmp (l₁ ++ v :: l₂) := by
  obtain ⟨hs₁, hs₂, hcross⟩ := sorted_append.mp h
  refine sorted_append.mpr ⟨hs₁, sorted_cons.mpr ⟨?_, hs₂⟩, ?_⟩
  · intro b hb
    exact Std.OrientedCmp.lt_of_gt (h₂ b hb)
  · intro a ha b hb
    rcases List.mem_cons.mp hb with rfl | hb
    · exact h₁ a ha
    · exact hcross a ha b hb

lemma sorted_overwrite (h : Sorted cmp (l₁ ++ x :: l₂)) (hx : cmp x v = .eq) :
    Sorted cmp (l₁ ++ v :: l₂) := by
  obtain ⟨hs₁, hs₂, hcross⟩ := sorted_append.mp h
  obtain ⟨hx₂, hs₂⟩ := sorted_cons.mp hs₂
  refine sorted_splice (sorted_append.mpr ⟨hs₁, hs₂, fun a ha b hb => ?_⟩) ?_ ?_
  · exact hcross a ha b (by simp [hb])
  · intro y hy
    exact Std.TransCmp.lt_of_lt_of_eq (hcross y hy x (by simp)) hx
  · intro y hy
    exact Std.TransCmp.gt_of_gt_of_eq (Std.OrientedCmp.gt_of_lt (hx₂ y hy)) hx

omit [Std.TransCmp cmp] in
lemma sorted_unlink (h : Sorted cmp (l₁ ++ x :: l₂)) : Sorted cmp (l₁ ++ l₂) := by
  obtain ⟨hs₁, hs₂, hcross⟩ := sorted_append.mp h
  exact sorted_append.mpr ⟨hs₁, (sorted_cons.mp hs₂).2,
    fun a ha b hb => hcross a ha b (by simp [hb])⟩

/-- In a sorted list, only `x` itself is equivalent to `x`. -/
lemma Sorted.lookup_of_eq (h : Sorted cmp (l₁ ++ x :: l₂)) (hx : cmp x v = .eq) :
    lookup cmp v (l₁ ++ x :: l₂) = some x ∧ lookup cmp v (l₁ ++ l₂) = none := by
  obtain ⟨hs₁, hs₂, hcross⟩ := sorted_append.mp h
  have hlt : ∀ y ∈ l₁, cmp y v = .lt :=
    fun y hy => Std.TransCmp.lt_of_lt_of_eq (hcross y hy x (by simp)) hx
  have hgt : ∀ y ∈ l₂, cmp y v = .gt := hs₂.gt_of_head (by simp [hx])
  have hnone₁ : lookup cmp v l₁ = none := by
    rw [lookup_eq_none]
    intro y hy
    simp [hlt y hy]
  refine ⟨?_, lookup_of_split hlt hgt⟩
  rw [lookup_append, hnone₁, lookup_cons, if_pos hx]
  rfl

lemma Sorted.lookup_of_mem {l : List T} (h : Sorted cmp l) (hmem : x ∈ l) (hx : cmp x v = .eq) :
    lookup cmp v l = some x := by
  obtain ⟨l₁, l₂, rfl⟩ := List.append_of_mem hmem
  exact (h.lookup_of_eq hx).1

/-! ## The represented map -/

/-- The list stores exactly what the map does. -/
structure Represents (cmp : T → T → Ordering) (l : List T) (m : ClassMap T) : Prop where
  sorted : Sorted cmp l
  lookup : ∀ k, m k = lookup cmp k l

omit [Std.TransCmp cmp] in
lemma Represents.empty : Represents cmp [] ClassMap.empty where
  sorted := List.Pairwise.nil
  lookup := fun _ => rfl

variable {m : ClassMap T}

/-- Between the smaller and the greater values, a new value is stored. -/
theorem Represents.splice (h : Represents cmp (l₁ ++ l₂) m) (h₁ : ∀ y ∈ l₁, cmp y v = .lt)
    (h₂ : ∀ y ∈ l₂, cmp y v = .gt) : Represents cmp (l₁ ++ v :: l₂) (m.insert cmp v) where
  sorted := sorted_splice h.sorted h₁ h₂
  lookup := by
    intro k
    by_cases hk : cmp k v = .eq
    · have hv : cmp v k = .eq := Std.OrientedCmp.eq_symm hk
      rw [((sorted_splice h.sorted h₁ h₂).lookup_of_eq hv).1, ClassMap.insert, if_pos hk]
    · have hv : cmp v k ≠ .eq := fun hv => hk (Std.OrientedCmp.eq_symm hv)
      rw [ClassMap.insert, if_neg hk, h.lookup, lookup_append, lookup_append, lookup_cons,
        if_neg hv]

/-- The value of a class is replaced. -/
theorem Represents.overwrite (h : Represents cmp (l₁ ++ x :: l₂) m) (hx : cmp x v = .eq) :
    Represents cmp (l₁ ++ v :: l₂) (m.insert cmp v) where
  sorted := sorted_overwrite h.sorted hx
  lookup := by
    intro k
    by_cases hk : cmp k v = .eq
    · have hv : cmp v k = .eq := Std.OrientedCmp.eq_symm hk
      rw [((sorted_overwrite h.sorted hx).lookup_of_eq hv).1, ClassMap.insert, if_pos hk]
    · have hv : cmp v k ≠ .eq := fun hv => hk (Std.OrientedCmp.eq_symm hv)
      have hxk : cmp x k ≠ .eq := by rwa [Std.TransCmp.congr_left hx]
      rw [ClassMap.insert, if_neg hk, h.lookup, lookup_append, lookup_append, lookup_cons,
        lookup_cons, if_neg hv, if_neg hxk]

/-- The value of a class is removed. -/
theorem Represents.unlink (h : Represents cmp (l₁ ++ x :: l₂) m) (hx : cmp x v = .eq) :
    Represents cmp (l₁ ++ l₂) (m.erase cmp v) where
  sorted := sorted_unlink h.sorted
  lookup := by
    intro k
    by_cases hk : cmp k v = .eq
    · have hxk : cmp x k = .eq := Std.TransCmp.eq_trans hx (Std.OrientedCmp.eq_symm hk)
      rw [(h.sorted.lookup_of_eq hxk).2, ClassMap.erase, if_pos hk]
    · have hxk : cmp x k ≠ .eq := by
        rw [Std.TransCmp.congr_left hx]
        exact fun hv => hk (Std.OrientedCmp.eq_symm hv)
      rw [ClassMap.erase, if_neg hk, h.lookup, lookup_append, lookup_append, lookup_cons,
        if_neg hxk]

/-- Removing a class that is not stored. -/
lemma Represents.erase_of_none (h : Represents cmp l₁ m) (hv : OrderedList.lookup cmp v l₁ = none) :
    Represents cmp l₁ (m.erase cmp v) where
  sorted := h.sorted
  lookup := by
    intro k
    by_cases hk : cmp k v = .eq
    · rw [ClassMap.erase, if_pos hk, eq_comm, lookup_eq_none]
      intro y hy heq
      exact lookup_eq_none.mp hv y hy (Std.TransCmp.eq_trans heq hk)
    · rw [ClassMap.erase, if_neg hk, h.lookup]

end preorder

end OrderedList
