import Mathlib.Data.List.Nodup
import Mathlib.Logic.Relation

/-!
# Trees that are given by lists of edges

A graph has vertices `V`, some of which are live, and each vertex has a list of edges; `tgt e` is
where the edge `e` leads.  It is a tree (`IsTree`) if edges lead to live vertices only, no edge
leads to the root, no two edges lead to the same vertex, and every live vertex can be reached from
the root.

A tree stays one when a leaf is added (`IsTree.addLeaf`) or taken away (`IsTree.removeLeaf`).
-/

set_option autoImplicit false

namespace Machine

variable {V E : Type} {tgt : E → V} {root : V} {live live' : V → Prop} {edges edges' : V → List E}

/-- There is an edge from one vertex to the other. -/
def Joined (tgt : E → V) (edges : V → List E) (v w : V) : Prop := ∃ e ∈ edges v, tgt e = w

/-- The vertex can be reached from the root. -/
def Reachable (tgt : E → V) (root : V) (edges : V → List E) : V → Prop :=
  Relation.ReflTransGen (Joined tgt edges) root

/-- What can be reached is in every set that has the root in it and that no edge leaves. -/
theorem Reachable.of_closed {S : V → Prop} {v : V} (h : Reachable tgt root edges v) (hroot : S root)
    (hclosed : ∀ w, S w → ∀ e ∈ edges w, S (tgt e)) : S v := by
  induction h with
  | refl => exact hroot
  | tail _ hab ih =>
    obtain ⟨e, he, rfl⟩ := hab
    exact hclosed _ ih e he

/-- The live vertices and the edges are a tree. -/
structure IsTree (tgt : E → V) (root : V) (live : V → Prop) (edges : V → List E) : Prop where
  live_root : live root
  live_src : ∀ v, ∀ e ∈ edges v, live v
  live_tgt : ∀ v, ∀ e ∈ edges v, live (tgt e)
  ne_root : ∀ v, ∀ e ∈ edges v, tgt e ≠ root
  nodup : ∀ v, (edges v).Nodup
  unique : ∀ v w, ∀ e ∈ edges v, ∀ e' ∈ edges w, tgt e = tgt e' → v = w ∧ e = e'
  reachable : ∀ v, live v → Reachable tgt root edges v

namespace IsTree

variable (h : IsTree tgt root live edges)
include h

/-- Every vertex but the root has one edge that leads to it. -/
theorem exists_edge {v : V} (hv : live v) (hne : v ≠ root) :
    ∃ w, Reachable tgt root edges w ∧ ∃ e ∈ edges w, tgt e = v := by
  rcases (Relation.ReflTransGen.cases_tail (h.reachable v hv)) with heq | ⟨w, hw, hvw⟩
  · exact absurd heq hne
  · exact ⟨w, hw, hvw⟩

section Leaf

variable [DecidableEq V] {v : V} {e : E}

/-- **A leaf is added.** -/
theorem addLeaf (hv : live v) (he : ¬ live (tgt e)) (hlive : ∀ w, live' w ↔ live w ∨ w = tgt e)
    (hedges : ∀ w, edges' w = if w = v then edges v ++ [e] else edges w) :
    IsTree tgt root live' edges' := by
  have hmem : ∀ {w e'}, e' ∈ edges' w ↔ e' ∈ edges w ∨ (w = v ∧ e' = e) := by
    intro w e'
    rw [hedges]
    by_cases hw : w = v
    · subst hw
      simp
    · simp [hw]
  have hold : ∀ {w e'}, e' ∈ edges w → tgt e' ≠ tgt e :=
    fun he' heq ↦ he (heq ▸ h.live_tgt _ _ he')
  have hreach : ∀ w, Reachable tgt root edges w → Reachable tgt root edges' w :=
    Relation.ReflTransGen.mono (fun a b ⟨e', he', hb⟩ ↦ ⟨e', hmem.2 (Or.inl he'), hb⟩) root
  refine ⟨(hlive root).2 (Or.inl h.live_root), fun w e' he' ↦ ?_, fun w e' he' ↦ ?_,
    fun w e' he' ↦ ?_, fun w ↦ ?_, fun w w' e₁ he₁ e₂ he₂ heq ↦ ?_, fun w hw ↦ ?_⟩
  · rcases hmem.1 he' with he' | ⟨rfl, -⟩
    · exact (hlive w).2 (Or.inl (h.live_src w e' he'))
    · exact (hlive w).2 (Or.inl hv)
  · rcases hmem.1 he' with he' | ⟨-, rfl⟩
    · exact (hlive _).2 (Or.inl (h.live_tgt w e' he'))
    · exact (hlive _).2 (Or.inr rfl)
  · rcases hmem.1 he' with he' | ⟨-, rfl⟩
    · exact h.ne_root w e' he'
    · intro heq
      exact he (heq ▸ h.live_root)
  · rw [hedges]
    split
    · rw [← List.concat_eq_append, List.nodup_concat]
      exact ⟨fun hin ↦ hold hin rfl, h.nodup v⟩
    · exact h.nodup w
  · rcases hmem.1 he₁ with he₁ | ⟨rfl, rfl⟩
    · rcases hmem.1 he₂ with he₂ | ⟨-, rfl⟩
      · exact h.unique w w' e₁ he₁ e₂ he₂ heq
      · exact absurd heq (hold he₁)
    · rcases hmem.1 he₂ with he₂ | ⟨rfl, rfl⟩
      · exact absurd heq.symm (hold he₂)
      · exact ⟨rfl, rfl⟩
  · rcases (hlive w).1 hw with hw | rfl
    · exact hreach w (h.reachable w hw)
    · exact (hreach v (h.reachable v hv)).tail ⟨e, hmem.2 (Or.inr ⟨rfl, rfl⟩), rfl⟩

/-- **A leaf is taken away.** -/
theorem removeLeaf {l₁ l₂ : List E} (hv : edges v = l₁ ++ e :: l₂) (hleaf : edges (tgt e) = [])
    (hlive : ∀ w, live' w ↔ live w ∧ w ≠ tgt e)
    (hedges : ∀ w, edges' w = if w = v then l₁ ++ l₂ else edges w) :
    IsTree tgt root live' edges' := by
  have hnd : (l₁ ++ e :: l₂).Nodup := hv ▸ h.nodup v
  have hev : e ∈ edges v := by rw [hv]; simp
  have hmem : ∀ {w e'}, e' ∈ edges' w ↔ e' ∈ edges w ∧ tgt e' ≠ tgt e := by
    intro w e'
    rw [hedges]
    by_cases hw : w = v
    · subst hw
      rw [if_pos rfl, hv]
      have hne : e ∉ l₁ ++ l₂ := (List.nodup_middle.1 hnd).notMem
      have hsub : l₁ ++ l₂ ⊆ l₁ ++ e :: l₂ :=
        ((List.sublist_cons_self e l₂).append_left l₁).subset
      constructor
      · refine fun hin ↦ ⟨hsub hin, fun heq ↦ hne ?_⟩
        rw [← (h.unique w w e' (hv ▸ hsub hin) e hev heq).2]
        exact hin
      · rintro ⟨hin, hne'⟩
        rw [List.mem_append, List.mem_cons] at hin
        rcases hin with hin | rfl | hin
        · exact List.mem_append_left _ hin
        · exact absurd rfl hne'
        · exact List.mem_append_right _ hin
    · rw [if_neg hw]
      refine ⟨fun hin ↦ ⟨hin, fun heq ↦ hw ?_⟩, fun hin ↦ hin.1⟩
      exact (h.unique w v e' hin e hev heq).1
  -- a way to another vertex does not go through the leaf
  have hreach : ∀ w, Reachable tgt root edges w → w ≠ tgt e → Reachable tgt root edges' w := by
    intro w hw
    induction hw with
    | refl => exact fun _ ↦ .refl
    | @tail a b hra hab ih =>
      obtain ⟨e', he', rfl⟩ := hab
      intro hne
      have ha : a ≠ tgt e := by
        rintro rfl
        rw [hleaf] at he'
        exact absurd he' (by simp)
      exact (ih ha).tail ⟨e', hmem.2 ⟨he', hne⟩, rfl⟩
  refine ⟨(hlive root).2 ⟨h.live_root, (h.ne_root v e hev).symm⟩, fun w e' he' ↦ ?_,
    fun w e' he' ↦ ?_, fun w e' he' ↦ h.ne_root w e' (hmem.1 he').1, fun w ↦ ?_,
    fun w w' e₁ he₁ e₂ he₂ ↦ h.unique w w' e₁ (hmem.1 he₁).1 e₂ (hmem.1 he₂).1, fun w hw ↦ ?_⟩
  · refine (hlive w).2 ⟨h.live_src w e' (hmem.1 he').1, ?_⟩
    rintro rfl
    have := (hmem.1 he').1
    rw [hleaf] at this
    exact absurd this (by simp)
  · exact (hlive _).2 ⟨h.live_tgt w e' (hmem.1 he').1, (hmem.1 he').2⟩
  · rw [hedges]
    split
    · exact (List.nodup_middle.1 hnd).of_cons
    · exact h.nodup w
  · obtain ⟨hw, hne⟩ := (hlive w).1 hw
    exact hreach w (h.reachable w hw) hne

end Leaf

end IsTree

end Machine
