import Mathlib.Algebra.BigOperators.Group.List.Basic
import Mathlib.Algebra.Ring.Int.Defs
import Mathlib.Data.List.Basic

/-!
# Ordered maps

A map from keys to values that is iterated in the order of its keys, as the list of its entries.
The keys are in strictly increasing order, and so there is one entry for each; a list that is not so
is not a map.

`OrderedMap.ofEntries` makes a map of any list of entries, by assigning them one after another.  The
entries of a map are a list that it makes the same map of.

What is assigned to a key replaces what was there, so a sum over the values changes by the
difference (`OrderedMap.total_insert`).
-/

set_option autoImplicit false

namespace Machine

open Std

variable {K V : Type} {cmp : K → K → Ordering}

/-- A map with keys that are compared by `cmp`. -/
structure OrderedMap (cmp : K → K → Ordering) (V : Type) where
  entries : List (K × V)
  sorted : entries.Pairwise fun p q ↦ cmp p.1 q.1 = .lt

/-- Find the place of a key, and assign a value to it. -/
def assign (cmp : K → K → Ordering) (a : K) (b : V) : List (K × V) → List (K × V)
  | [] => [(a, b)]
  | p :: l =>
    match cmp p.1 a with
    | .lt => p :: assign cmp a b l
    | .eq => (p.1, b) :: l
    | .gt => (a, b) :: p :: l

/-- The keys afterwards are those before, and the new one. -/
theorem mem_assign {a : K} {b : V} {l : List (K × V)} {q : K × V} (h : q ∈ assign cmp a b l) :
    q.1 = a ∨ ∃ p ∈ l, q.1 = p.1 := by
  induction l with
  | nil => exact Or.inl (by rw [List.mem_singleton.1 h])
  | cons p l ih =>
    rw [assign] at h
    split at h
    · rcases List.mem_cons.1 h with rfl | hq
      · exact Or.inr ⟨q, List.mem_cons_self, rfl⟩
      · rcases ih hq with heq | ⟨p', hp', heq⟩
        · exact Or.inl heq
        · exact Or.inr ⟨p', List.mem_cons_of_mem _ hp', heq⟩
    · rcases List.mem_cons.1 h with rfl | hq
      · exact Or.inr ⟨p, List.mem_cons_self, rfl⟩
      · exact Or.inr ⟨q, List.mem_cons_of_mem _ hq, rfl⟩
    · rcases List.mem_cons.1 h with rfl | hq
      · exact Or.inl rfl
      · exact Or.inr ⟨q, hq, rfl⟩

theorem sorted_assign [TransCmp cmp] {a : K} {b : V} {l : List (K × V)}
    (h : l.Pairwise fun p q ↦ cmp p.1 q.1 = .lt) :
    (assign cmp a b l).Pairwise fun p q ↦ cmp p.1 q.1 = .lt := by
  induction l with
  | nil => exact List.pairwise_singleton _ _
  | cons p l ih =>
    obtain ⟨hp, hl⟩ := List.pairwise_cons.1 h
    rw [assign]
    split
    · rename_i hlt
      refine List.pairwise_cons.2 ⟨fun q hq ↦ ?_, ih hl⟩
      rcases mem_assign hq with heq | ⟨p', hp', heq⟩
      · rw [heq]; exact hlt
      · rw [heq]; exact hp p' hp'
    · exact List.pairwise_cons.2 ⟨hp, hl⟩
    · rename_i hgt
      have hlt : cmp a p.1 = .lt := OrientedCmp.gt_iff_lt.1 hgt
      refine List.pairwise_cons.2 ⟨fun q hq ↦ ?_, h⟩
      rcases List.mem_cons.1 hq with rfl | hq
      · exact hlt
      · exact TransCmp.lt_trans hlt (hp q hq)

/-- A key that is greater than all others goes to the end. -/
theorem assign_of_lt {a : K} {b : V} {l : List (K × V)} (h : ∀ p ∈ l, cmp p.1 a = .lt) :
    assign cmp a b l = l ++ [(a, b)] := by
  induction l with
  | nil => rfl
  | cons p l ih =>
    rw [assign, h p List.mem_cons_self, List.cons_append]
    exact congrArg _ (ih fun q hq ↦ h q (List.mem_cons_of_mem _ hq))

/-- The value at a key. -/
def lookup (cmp : K → K → Ordering) (a : K) : List (K × V) → Option V
  | [] => none
  | p :: l => if cmp p.1 a = .eq then some p.2 else lookup cmp a l

theorem exists_of_lookup {a : K} {b : V} {l : List (K × V)} (h : lookup cmp a l = some b) :
    ∃ p ∈ l, cmp p.1 a = .eq ∧ p.2 = b := by
  induction l with
  | nil => exact absurd h (by simp [lookup])
  | cons p l ih =>
    rw [lookup] at h
    split at h
    · rename_i heq
      exact ⟨p, List.mem_cons_self, heq, Option.some_inj.1 h⟩
    · obtain ⟨q, hq, hqa⟩ := ih h
      exact ⟨q, List.mem_cons_of_mem _ hq, hqa⟩

theorem lookup_eq_none {a : K} {l : List (K × V)} (h : ∀ p ∈ l, cmp p.1 a ≠ .eq) :
    lookup cmp a l = none := by
  induction l with
  | nil => rfl
  | cons p l ih =>
    rw [lookup, if_neg (h p List.mem_cons_self)]
    exact ih fun q hq ↦ h q (List.mem_cons_of_mem _ hq)

theorem lookup_assign_self [ReflCmp cmp] (a : K) (b : V) (l : List (K × V)) :
    lookup cmp a (assign cmp a b l) = some b := by
  induction l with
  | nil => rw [assign, lookup, if_pos ReflCmp.compare_self]
  | cons p l ih =>
    rw [assign]
    split
    · rename_i hlt
      rw [lookup, if_neg (by simp [hlt]), ih]
    · rename_i heq
      rw [lookup, if_pos heq]
    · rw [lookup, if_pos ReflCmp.compare_self]

/-- A key that is there stays there. -/
theorem isSome_lookup_assign {a a' : K} {b : V} {l : List (K × V)}
    (h : (lookup cmp a' l).isSome) : (lookup cmp a' (assign cmp a b l)).isSome := by
  induction l with
  | nil => exact absurd h (by simp [lookup])
  | cons p l ih =>
    rw [lookup] at h
    rw [assign]
    split
    · rw [lookup]
      split at h
      · rename_i heq
        rw [if_pos heq]
        rfl
      · rename_i hne
        rw [if_neg hne]
        exact ih h
    · rw [lookup]
      split at h
      · rename_i heq
        rw [if_pos heq]
        rfl
      · rename_i hne
        rw [if_neg hne]
        exact h
    · rw [lookup]
      split
      · rfl
      · exact h

/-- The entries afterwards have the new value, or they were there before. -/
theorem snd_of_mem_assign {a : K} {b : V} {l : List (K × V)} {q : K × V}
    (h : q ∈ assign cmp a b l) : q.2 = b ∨ q ∈ l := by
  induction l with
  | nil => exact Or.inl (by rw [List.mem_singleton.1 h])
  | cons p l ih =>
    rw [assign] at h
    split at h
    · rcases List.mem_cons.1 h with rfl | hq
      · exact Or.inr List.mem_cons_self
      · exact (ih hq).imp id (List.mem_cons_of_mem _)
    · rcases List.mem_cons.1 h with rfl | hq
      · exact Or.inl rfl
      · exact Or.inr (List.mem_cons_of_mem _ hq)
    · rcases List.mem_cons.1 h with rfl | hq
      · exact Or.inl rfl
      · exact Or.inr hq

theorem sum_assign [TransCmp cmp] (f : V → Int) {a : K} {b : V} {l : List (K × V)}
    (h : l.Pairwise fun p q ↦ cmp p.1 q.1 = .lt) :
    ((assign cmp a b l).map fun p ↦ f p.2).sum =
      (l.map fun p ↦ f p.2).sum - ((lookup cmp a l).map f).getD 0 + f b := by
  induction l with
  | nil => simp [assign, lookup]
  | cons p l ih =>
    obtain ⟨hp, hl⟩ := List.pairwise_cons.1 h
    rw [assign]
    split
    · rename_i hlt
      rw [List.map_cons, List.sum_cons, ih hl, lookup, if_neg (by simp [hlt]), List.map_cons,
        List.sum_cons]
      omega
    · rename_i heq
      rw [lookup, if_pos heq]
      simp only [List.map_cons, List.sum_cons, Option.map_some, Option.getD_some]
      omega
    · rename_i hgt
      have hnone : lookup cmp a (p :: l) = none := by
        refine lookup_eq_none fun q hq ↦ ?_
        have hlt : cmp a p.1 = .lt := OrientedCmp.gt_iff_lt.1 hgt
        have hqa : cmp q.1 a = .gt := by
          rcases List.mem_cons.1 hq with rfl | hq
          · exact hgt
          · exact OrientedCmp.gt_iff_lt.2 (TransCmp.lt_trans hlt (hp q hq))
        simp [hqa]
      rw [hnone]
      simp only [List.map_cons, List.sum_cons, Option.map_none, Option.getD_none]
      omega

namespace OrderedMap

@[ext] theorem ext {m m' : OrderedMap cmp V} (h : m.entries = m'.entries) : m = m' := by
  cases m
  cases m'
  cases h
  rfl

def empty : OrderedMap cmp V := ⟨[], List.Pairwise.nil⟩

def insert [TransCmp cmp] (m : OrderedMap cmp V) (p : K × V) : OrderedMap cmp V :=
  ⟨assign cmp p.1 p.2 m.entries, sorted_assign m.sorted⟩

/-- The value at a key. -/
def get? (m : OrderedMap cmp V) (a : K) : Option V := lookup cmp a m.entries

/-- The sum of a quantity over the values. -/
def total (m : OrderedMap cmp V) (f : V → Int) : Int := (m.entries.map fun p ↦ f p.2).sum

theorem total_insert [TransCmp cmp] (m : OrderedMap cmp V) (p : K × V) (f : V → Int) :
    (m.insert p).total f = m.total f - ((m.get? p.1).map f).getD 0 + f p.2 :=
  sum_assign f m.sorted

/-- Assign the entries one after another. -/
def ofEntries [TransCmp cmp] (l : List (K × V)) : OrderedMap cmp V := l.foldl insert empty

theorem entries_foldl_insert [TransCmp cmp] (m : OrderedMap cmp V) {l : List (K × V)}
    (h : (m.entries ++ l).Pairwise fun p q ↦ cmp p.1 q.1 = .lt) :
    (l.foldl insert m).entries = m.entries ++ l := by
  induction l generalizing m with
  | nil => simp
  | cons p l ih =>
    have hins : (m.insert p).entries = m.entries ++ [p] :=
      assign_of_lt fun q hq ↦ (List.pairwise_append.1 h).2.2 q hq p List.mem_cons_self
    rw [List.foldl_cons, ih, hins, List.append_assoc]
    · rfl
    · rw [hins, List.append_assoc]
      exact h

/-- A map is made of its own entries. -/
theorem ofEntries_entries [TransCmp cmp] (m : OrderedMap cmp V) : ofEntries m.entries = m :=
  ext (entries_foldl_insert empty m.sorted)

end OrderedMap

/-! ## Orders of composite keys -/

theorem transCmp_on {A : Type} [TransCmp cmp] (f : A → K) : TransCmp fun a b ↦ cmp (f a) (f b) :=
  { eq_swap := OrientedCmp.eq_swap, isLE_trans := TransCmp.isLE_trans }

/-- Pairs in lexicographic order. -/
def comparePair (cmp : K → K → Ordering) (cmp' : V → V → Ordering) : K × V → K × V → Ordering :=
  compareLex (fun p q ↦ cmp p.1 q.1) fun p q ↦ cmp' p.2 q.2

instance transCmp_comparePair {cmp' : V → V → Ordering} [TransCmp cmp] [TransCmp cmp'] :
    TransCmp (comparePair cmp cmp') := by
  have hfst : TransCmp fun p q : K × V ↦ cmp p.1 q.1 := transCmp_on Prod.fst
  have hsnd : TransCmp fun p q : K × V ↦ cmp' p.2 q.2 := transCmp_on Prod.snd
  exact inferInstanceAs (TransCmp (compareLex _ _))

/-- Maps in lexicographic order. -/
def compareMap (cmp : K → K → Ordering) (cmp' : V → V → Ordering) (m m' : OrderedMap cmp V) :
    Ordering :=
  List.compareLex (comparePair cmp cmp') m.entries m'.entries

instance transCmp_compareMap {cmp' : V → V → Ordering} [TransCmp cmp] [TransCmp cmp'] :
    TransCmp (compareMap cmp cmp') :=
  transCmp_on OrderedMap.entries

end Machine
