import Mathlib.Data.Finset.Card

/-!
# Who holds a reference to what

Objects that come and go, each of which holds a reference to at most one thing.  What a reference
count should be is the number of the objects that are there and refer to the thing
(`Holders.count`), and it follows them one by one (`count_add`, `count_remove`).  Before that, two
lemmas on maps that are changed at one place.
-/

set_option autoImplicit false

namespace Machine

section Update

variable {K V : Type} [DecidableEq K] {f : K → Option V} {k k' : K} {v v' : V}

theorem update_eq_some (h : Function.update f k (some v) k' = some v') :
    (k' = k ∧ v' = v) ∨ (k' ≠ k ∧ f k' = some v') := by
  by_cases e : k' = k
  · subst e
    rw [Function.update_self] at h
    exact Or.inl ⟨rfl, (Option.some_inj.1 h).symm⟩
  · rw [Function.update_of_ne e] at h
    exact Or.inr ⟨e, h⟩

theorem update_none_eq_some (h : Function.update f k none k' = some v') :
    k' ≠ k ∧ f k' = some v' := by
  by_cases e : k' = k
  · subst e
    rw [Function.update_self] at h
    exact absurd h (by simp)
  · rw [Function.update_of_ne e] at h
    exact ⟨e, h⟩

end Update

/-- The objects that are there, and what each of them refers to. -/
structure Holders (H P : Type) where
  live : Finset H
  ptr : H → Option P

namespace Holders

variable {H P : Type}

/-- Nobody is there. -/
def empty : Holders H P := ⟨∅, fun _ ↦ none⟩

/-- How many objects refer to a thing. -/
def count [DecidableEq P] (t : Holders H P) (p : P) : Nat :=
  (t.live.filter fun x ↦ t.ptr x = some p).card

theorem count_eq_zero_iff [DecidableEq P] {t : Holders H P} {p : P} :
    t.count p = 0 ↔ ∀ x ∈ t.live, t.ptr x ≠ some p := by
  rw [count, Finset.card_eq_zero, Finset.filter_eq_empty_iff]

variable [DecidableEq H]

/-- An object is made. -/
def add (t : Holders H P) (x : H) (o : Option P) : Holders H P :=
  ⟨insert x t.live, Function.update t.ptr x o⟩

/-- An object is destroyed. -/
def remove (t : Holders H P) (x : H) : Holders H P := ⟨t.live.erase x, t.ptr⟩

section Add

variable {t : Holders H P} {x y : H} {o : Option P}

@[simp] theorem ptr_add_self : (t.add x o).ptr x = o := Function.update_self ..

theorem ptr_add_of_ne (h : y ≠ x) : (t.add x o).ptr y = t.ptr y := Function.update_of_ne h _ _

theorem mem_live_add : y ∈ (t.add x o).live ↔ y = x ∨ y ∈ t.live := Finset.mem_insert

theorem mem_live_remove : y ∈ (t.remove x).live ↔ y ≠ x ∧ y ∈ t.live := Finset.mem_erase

end Add

variable [DecidableEq P] {t : Holders H P} {x : H} {p : P}

/-- One object more. -/
theorem count_add (hx : x ∉ t.live) (o : Option P) :
    (t.add x o).count p = t.count p + if o = some p then 1 else 0 := by
  have hold : (t.live.filter fun y ↦ (t.add x o).ptr y = some p) =
      t.live.filter fun y ↦ t.ptr y = some p := by
    refine Finset.filter_congr fun y hy ↦ ?_
    rw [ptr_add_of_ne (by rintro rfl; exact hx hy)]
  rw [count, count, add, Finset.filter_insert]
  change (if (t.add x o).ptr x = some p then _ else _ : Finset H).card = _
  rw [ptr_add_self]
  split
  · rw [Finset.card_insert_of_notMem (fun h ↦ hx (Finset.mem_of_mem_filter x h))]
    exact congrArg (·.card + 1) hold
  · exact congrArg Finset.card hold

/-- One object less. -/
theorem count_remove (hx : x ∈ t.live) :
    (t.remove x).count p + (if t.ptr x = some p then 1 else 0) = t.count p := by
  rw [count, count, remove, Finset.filter_erase]
  split
  · rename_i hp
    exact Finset.card_erase_add_one (Finset.mem_filter.2 ⟨hx, hp⟩)
  · rename_i hp
    have hnot : x ∉ t.live.filter fun y ↦ t.ptr y = some p := fun h ↦ hp (Finset.mem_filter.1 h).2
    exact congrArg Finset.card (Finset.erase_eq_of_notMem hnot)

end Holders

end Machine
