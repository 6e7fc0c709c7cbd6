import Mathlib.Data.Fin.VecNotation
import Yfs.Client.Running

/-!
# Operations take effect at once

Several clients work on one file system.  An operation is a sequence of steps, but it might as well
take effect all at once (`linearizable`).  The lock that it holds protects one inode only, and some
operations use two.

* Most operations use the inode whose lock they hold and no other.  They take effect when they end.
* `create`, `mkdir` and `symlink` make an inode, too.  Which one depends on the inodes that others
  have made before, so they take effect at the moment at which they make it.  What they do to the
  new inode later is not protected by a lock.  But nobody else gets to know of that inode before the
  operation ends: it is then that it exists (`Existing`).

`unlink` is not among these operations; it removes an inode under the lock of another one.

The order in which the operations take effect is built up as they go, and never changes except at
its end.  Two steps that cannot be exchanged are in that order, and so the history can be sorted by
it.
-/

set_option autoImplicit false

namespace Yfs
namespace Client

open Machine
open Extent (File Store inumOf)

variable {ι : Type} {op : ι → Op} {s₀ : State} {P P' : Clients ι}
  {phase : ι → Phase} {order : List ι} {t u : ι} {x : Act Cmd.Ans} {g' : Phase}

/-- The inode that the operation is about exists, when it begins: it is live, and the operation that
has made it, if it has been made since, has ended. -/
def Existing (op : ι → Op) (P : Clients ι) (t : ι) : Prop :=
  t ∉ P.hist.map Prod.fst →
    inumOf (op t).target = (op t).target ∧ P.state.files (op t).target ≠ none ∧
      ∀ e ∈ P.hist, ∀ type, e.2 = ⟨.create type, .ok (op t).target⟩ → P.Ended e.1

/-- The operation has begun, and uses this inode. -/
def Touches (op : ι → Op) (phase : ι → Phase) (u : ι) (i : Nat) : Prop :=
  phase u ≠ .idle ∧ (i = (op u).target ∨ (phase u).made = some i)

/-- The operations take effect in this order. -/
structure Linear (op : ι → Op) (P : Clients ι) (phase : ι → Phase) (order : List ι) : Prop where
  locked : Locked op P phase
  live : ∀ t, phase t ≠ .idle →
    inumOf (op t).target = (op t).target ∧ P.state.files (op t).target ≠ none
  made : ∀ t i, (phase t).made = some i → P.state.files i ≠ none
  nodup : order.Nodup
  /-- The operations that have made an inode, and those that have ended, have taken effect. -/
  mem : ∀ t, t ∈ order ↔ (phase t).made ≠ none ∨ P.Ended t
  /-- Others that have used the inode of a running operation have taken effect before. -/
  before : ∀ t u, (phase t).Holds → ¬ P.Ended t → u ≠ t → Touches op phase u (op t).target →
    Pool.Before order u t
  /-- Nobody else uses the inode that a running operation has made. -/
  fresh : ∀ t u i, (phase t).Holds → ¬ P.Ended t → (phase t).made = some i → u ≠ t →
    ¬ Touches op phase u i
  sorted : P.hist.Pairwise fun e e' ↦ e.1 ≠ e'.1 → Conflict e.2 e'.2 → Pool.Before order e.1 e'.1
  /-- An operation that has ended before another one has begun has taken effect before. -/
  realTime : ∀ t u, t ≠ u → P.Ended t → phase u ≠ .idle →
    ¬ [u, t].Sublist (P.hist.map Prod.fst) → Pool.Before order t u

theorem linear_called (s₀ : State) (op : ι → Op) : Linear op (called s₀ op) (fun _ ↦ .idle) [] where
  locked := locked_called s₀ op
  live := by simp
  made := by simp [Phase.made]
  nodup := List.nodup_nil
  mem t := by
    simp only [List.not_mem_nil, Phase.made, ne_eq, not_true_eq_false, false_or, false_iff]
    rintro ⟨o, ho⟩
    cases o <;> exact absurd ho (by simp [called, Op.prog, Prog.ofExcept, Prog.ask,
      bind, Prog.bind])
  before := by rintro t u ⟨made, h⟩; exact absurd h (by simp)
  fresh := by rintro t u i ⟨made, h⟩; exact absurd h (by simp)
  sorted := List.Pairwise.nil
  realTime t u _ _ h := absurd rfl h

/-! ## Before the step -/

theorem Locked.ended_of_not_holds (hL : Locked op P phase) (hu : phase u ≠ .idle)
    (hh : ¬ (phase u).Holds) : P.Ended u := by
  have hob := hL.obeys u
  cases hg : phase u with
  | idle => exact absurd hg hu
  | holding made => exact absurd ⟨made, hg⟩ hh
  | done made =>
    rw [hg] at hob
    cases hp : P.prog u with
    | pure a => exact ⟨.ok a, hp⟩
    | throw e => exact ⟨.error e, hp⟩
    | call c k =>
      rw [hp] at hob
      cases c <;> exact hob.1.elim

namespace Linear

variable (h : Linear op P phase order)
include h

theorem live_of_touches {i : Nat} (hu : Touches op phase u i) : P.state.files i ≠ none := by
  rcases hu.2 with rfl | hi
  · exact (h.live u hu.1).2
  · exact h.made u i hi

theorem touches_of_mem (hrm : ∀ t, (op t).removes = false) {e : ι × Act Cmd.Ans} (he : e ∈ P.hist)
    {i : Nat} (hi : inodeOf e.2 = some i) : Touches op phase e.1 i := by
  have hw := h.locked.within e he
  refine ⟨hw.started, ?_⟩
  rcases hw.inode i hi with rfl | hm | ⟨hr, -⟩
  · exact Or.inl (h.live e.1 hw.started).1
  · exact Or.inr hm
  · exact absurd hr (by simp [hrm])

theorem notMem_of_running (hrun : ¬ P.Ended t) (hmade : (phase t).made = none) : t ∉ order := by
  rw [h.mem t]
  rintro (hm | hm)
  · exact hm hmade
  · exact hrun hm

/-- **Whoever has done something that the step cannot be exchanged with has taken effect
before.** -/
theorem clear (hrm : ∀ t, (op t).removes = false) (hst : StepOf op P P' phase t x g')
    {e : ι × Act Cmd.Ans} (he : e ∈ P.hist) (hne : e.1 ≠ t) (hc : Conflict e.2 x) :
    Pool.Before order e.1 t := by
  have hw := h.locked.within e he
  have hm := hst.move
  generalize hg : phase t = g at hm
  generalize hs : P.state = s at hm
  generalize P'.state = s' at hm
  cases hm with
  | acquire hfree =>
    have hlock : (op e.1).target = (op t).target := by
      rcases hc with ⟨lid, he', hx⟩ | ⟨i, -, hx⟩ | ⟨-, hx⟩
      · exact (hw.lock lid he').symm.trans (Option.some_inj.1 hx).symm
      · exact absurd hx (by simp [inodeOf, Cmd.inode])
      · exact absurd hx (by simp [Cmd.allocates])
    have hfree' : ¬ (phase e.1).Holds := fun hh ↦ by
      have := h.locked.held e.1 hh
      rw [hs, hlock, hfree] at this
      exact absurd this (by simp)
    have hended := h.locked.ended_of_not_holds hw.started hfree'
    exact Pool.before_of_notMem ((h.mem e.1).2 (Or.inr hended))
      (h.notMem_of_running hst.running (by rw [hg]; rfl))
  | release =>
    have hlock : (op e.1).target = (op t).target := by
      rcases hc with ⟨lid, he', hx⟩ | ⟨i, -, hx⟩ | ⟨-, hx⟩
      · exact (hw.lock lid he').symm.trans (Option.some_inj.1 hx).symm
      · exact absurd hx (by simp [inodeOf, Cmd.inode])
      · exact absurd hx (by simp [Cmd.allocates])
    exact h.before t e.1 ⟨_, hg⟩ hst.running hne ⟨hw.started, Or.inl hlock.symm⟩
  | @access _ _ made _ id _ hid hx hkeep =>
    obtain ⟨i, hei, hxi⟩ : ∃ i, inodeOf e.2 = some i ∧ inodeOf x = some i := by
      rcases hc with ⟨lid, -, hl⟩ | hi | ⟨-, ha⟩
      · exact absurd hl (by simp [lock_eq_none hx.inode])
      · exact hi
      · exact absurd ha (by simp [hkeep])
    obtain rfl := Option.some_inj.1 (hx.inode.symm.trans hxi)
    have htouch := h.touches_of_mem hrm he hei
    rcases hid with rfl | hid
    · rw [(h.live t (by rw [hg]; simp)).1] at htouch
      exact h.before t e.1 ⟨_, hg⟩ hst.running hne htouch
    · have hmade : (phase t).made = some id := by rw [hg]; exact hid
      rw [(h.locked.made t id hmade).1] at htouch
      exact absurd htouch (h.fresh t e.1 id ⟨_, hg⟩ hst.running hmade hne)
  | @create _ _ type i f hx =>
    have hcreated : (phase e.1).made ≠ none := by
      rcases hc with ⟨lid, -, hl⟩ | ⟨j, hej, hxj⟩ | ⟨ha, -⟩
      · exact absurd hl (by simp [Cmd.lock])
      · obtain rfl := Option.some_inj.1 (hx.inode.symm.trans hxj)
        have hlive := h.live_of_touches (h.touches_of_mem hrm he hej)
        exact absurd (hs ▸ (Store.firstFree_bounds hx.free).2) hlive
      · exact (hw.allocates ha).resolve_right (by simp [hrm])
    exact Pool.before_of_notMem ((h.mem e.1).2 (Or.inl hcreated))
      (h.notMem_of_running hst.running (by rw [hg]; rfl))
  | remove hr => exact absurd hr (by simp [hrm])

end Linear

/-! ## After the step -/

/-- A step that does not remove an inode leaves it live. -/
theorem Move.live_of_ne {op : Op} {g : Phase} {s s' : State} (hm : Move op g x s s' g') {i : Nat}
    (hne : ∀ id, x.cmd = .remove id → inumOf id ≠ i) (hi : s.files i ≠ none) :
    s'.files i ≠ none := by
  cases hm with
  | acquire => exact hi
  | release => exact hi
  | @access _ _ _ _ id o _ hx hkeep =>
    rw [hx.eq]
    simp only [Function.update_apply]
    split
    · rename_i heq
      have hsame := hx.live hkeep
      rw [heq] at hi
      cases o with
      | none =>
        rw [Option.isNone_none, eq_comm, Option.isNone_iff_eq_none] at hsame
        exact absurd hsame hi
      | some f => simp
    · exact hi
  | @create _ _ _ j _ hx =>
    rw [hx.eq]
    simp only [Function.update_apply]
    split
    · simp
    · exact hi
  | @remove _ _ _ id hr hx =>
    rw [hx.eq]
    simp only [Function.update_of_ne (Ne.symm (hne id rfl))]
    exact hi

theorem Move.removes_of_remove {op : Op} {g : Phase} {s s' : State} {id : Nat}
    (hm : Move op g x s s' g') (h : x.cmd = .remove id) : op.removes = true := by
  cases hm with
  | remove hr => exact hr
  | access _ _ hkeep => exact absurd hkeep (by simp [h, Cmd.allocates])
  | _ => exact absurd h (by simp)

theorem Move.live {op : Op} {g : Phase} {s s' : State} (hm : Move op g x s s' g')
    (hrm : op.removes = false) {i : Nat} (hi : s.files i ≠ none) : s'.files i ≠ none :=
  hm.live_of_ne (fun _ h ↦ absurd (hm.removes_of_remove h) (by simp [hrm])) hi

/-- A step that begins an operation. -/
theorem Move.idle_or_holds {op : Op} {g : Phase} {s s' : State} (hm : Move op g x s s' g') :
    (g = .idle ∧ g' = .holding none) ∨ g.Holds := by
  cases hm with
  | acquire => exact Or.inl ⟨rfl, rfl⟩
  | _ => exact Or.inr ⟨_, rfl⟩

section Step

variable [DecidableEq ι]

/-- What an operation has come to use is what it is about, or an inode that was free. -/
theorem touches_cases (hst : StepOf op P P' phase t x g') {i : Nat}
    (hu : Touches op (Function.update phase t g') u i) :
    Touches op phase u i ∨ (u = t ∧
      ((phase t = .idle ∧ i = (op t).target) ∨ P.state.files i = none)) := by
  by_cases hne : u = t
  · subst hne
    rw [Touches, Function.update_self] at hu
    rcases hu.2 with rfl | hmade
    · by_cases hidle : phase u = .idle
      · exact Or.inr ⟨rfl, Or.inl ⟨hidle, rfl⟩⟩
      · exact Or.inl ⟨hidle, Or.inl rfl⟩
    · rcases hst.move.made_cases hmade with hold | ⟨hfree, -⟩
      · refine Or.inl ⟨fun hidle ↦ ?_, Or.inr hold⟩
        rw [hidle] at hold
        exact absurd hold (by simp [Phase.made])
      · exact Or.inr ⟨rfl, Or.inr (Store.firstFree_bounds hfree).2⟩
  · rw [Touches, Function.update_of_ne hne] at hu
    exact Or.inl hu

namespace Linear

variable (h : Linear op P phase order)
include h

omit [DecidableEq ι] in
theorem exists_of_idle (hex : Existing op P t) (hidle : phase t = .idle) :
    inumOf (op t).target = (op t).target ∧ P.state.files (op t).target ≠ none ∧
      ∀ u, (phase u).made = some (op t).target → P.Ended u := by
  obtain ⟨h₁, h₂, h₃⟩ := hex fun hmem ↦ by
    obtain ⟨e, he, rfl⟩ := List.mem_map.1 hmem
    exact (h.locked.within e he).started hidle
  refine ⟨h₁, h₂, fun u hu ↦ ?_⟩
  obtain ⟨-, type, hmem⟩ := h.locked.made u _ hu
  exact h₃ _ hmem type rfl

/-- When an operation begins, whoever has used its inode has taken effect. -/
theorem before_of_begins (hex : Existing op P t) (hst : StepOf op P P' phase t x g')
    (hL' : Locked op P' (Function.update phase t g')) (hidle : phase t = .idle)
    (hg' : g' = .holding none) (hne : u ≠ t) (hu : Touches op phase u (op t).target) :
    Pool.Before order u t := by
  have hnot : t ∉ order := h.notMem_of_running hst.running (by rw [hidle]; rfl)
  refine Pool.before_of_notMem ((h.mem u).2 (Or.inr ?_)) hnot
  rcases hu.2 with heq | hmade
  · -- the operation has got the lock, so `u` does not hold it any more
    refine h.locked.ended_of_not_holds hu.1 fun hh ↦ hne ?_
    refine hL'.unique u t ?_ ?_ heq.symm
    · rwa [Function.update_of_ne hne]
    · rw [Function.update_self]
      exact ⟨_, hg'⟩
  · exact (h.exists_of_idle hex hidle).2.2 u hmade

theorem before_step (hex : Existing op P t) (hst : StepOf op P P' phase t x g')
    (hL' : Locked op P' (Function.update phase t g')) (new : List ι) {v : ι}
    (hv : (Function.update phase t g' v).Holds) (hrun : ¬ P'.Ended v) (hne : u ≠ v)
    (hu : Touches op (Function.update phase t g') u (op v).target) :
    Pool.Before (order ++ new) u v := by
  by_cases hvt : v = t
  · subst hvt
    rw [Touches, Function.update_of_ne hne] at hu
    rcases hst.move.idle_or_holds with ⟨hidle, hg'⟩ | hh
    · exact (h.before_of_begins hex hst hL' hidle hg' hne hu).append new
    · exact (h.before v u hh hst.running hne hu).append new
  · have hv' : (phase v).Holds := by rwa [Function.update_of_ne hvt] at hv
    have hrun' : ¬ P.Ended v := by rwa [Pool.Ended, ← hst.other v hvt]
    rcases touches_cases hst hu with hold | ⟨rfl, ⟨hidle, heq⟩ | hfree⟩
    · exact (h.before v u hv' hrun' hne hold).append new
    · -- `v` holds the lock that `u` has just got
      refine absurd (hL'.unique u v ?_ hv heq.symm) hne
      rw [Function.update_self]
      rcases hst.move.idle_or_holds with ⟨-, hg'⟩ | ⟨made, hh⟩
      · exact ⟨_, hg'⟩
      · exact absurd (hidle.symm.trans hh) (by simp)
    · obtain ⟨made, hh⟩ := hv'
      exact absurd hfree (h.live v (by rw [hh]; simp)).2

theorem fresh_step (hex : Existing op P t) (hst : StepOf op P P' phase t x g') {v : ι} {i : Nat}
    (hv : (Function.update phase t g' v).Holds) (hrun : ¬ P'.Ended v)
    (hmade : (Function.update phase t g' v).made = some i) (hne : u ≠ v) :
    ¬ Touches op (Function.update phase t g') u i := by
  intro hu
  by_cases hvt : v = t
  · subst hvt
    rw [Touches, Function.update_of_ne hne] at hu
    rw [Function.update_self] at hmade
    rcases hst.move.made_cases hmade with hold | ⟨hfree, -⟩
    · rcases hst.move.idle_or_holds with ⟨hidle, -⟩ | hh
      · rw [hidle] at hold
        exact absurd hold (by simp [Phase.made])
      · exact h.fresh v u i hh hst.running hold hne hu
    · exact h.live_of_touches hu (Store.firstFree_bounds hfree).2
  · have hrun' : ¬ P.Ended v := by rwa [Pool.Ended, ← hst.other v hvt]
    rw [Function.update_of_ne hvt] at hv hmade
    rcases touches_cases hst hu with hold | ⟨rfl, ⟨hidle, rfl⟩ | hfree⟩
    · exact h.fresh v u i hv hrun' hmade hne hold
    · exact hrun' ((h.exists_of_idle hex hidle).2.2 v hmade)
    · exact h.made v i hmade hfree

theorem realTime_step (hst : StepOf op P P' phase t x g') (new : List ι) {v : ι} (hne : v ≠ u)
    (hended : P'.Ended v) (hu : Function.update phase t g' u ≠ .idle)
    (hsub : ¬ [u, v].Sublist (P'.hist.map Prod.fst)) : Pool.Before (order ++ new) v u := by
  rw [hst.hist, List.map_append] at hsub
  have hold : ¬ [u, v].Sublist (P.hist.map Prod.fst) :=
    fun hs ↦ hsub (hs.trans (List.sublist_append_left _ _))
  by_cases hvt : v = t
  · -- the last step was one of `v`, and there was one of `u` before
    subst hvt
    rw [Function.update_of_ne (Ne.symm hne)] at hu
    exact absurd (Pool.sublist_append_of_mem (h.locked.mem_of_started hu) (by simp)) hsub
  · have hended' : P.Ended v := by rwa [Pool.Ended, ← hst.other v hvt]
    by_cases hidle : phase u = .idle
    · have hut : u = t := by
        by_contra hne'
        exact hu ((Function.update_of_ne hne' _ _).trans hidle)
      subst hut
      have hnot := h.notMem_of_running hst.running (by rw [hidle]; rfl)
      exact (Pool.before_of_notMem ((h.mem v).2 (Or.inr hended')) hnot).append new
    · exact (h.realTime v u hne hended' hidle hold).append new

/-- The operation takes effect now, or it does not. -/
theorem exists_new (hst : StepOf op P P' phase t x g') :
    ∃ new : List ι, (order ++ new).Nodup ∧ ∀ u, u ∈ order ++ new ↔
      (Function.update phase t g' u).made ≠ none ∨ P'.Ended u := by
  have hother : ∀ u, u ≠ t →
      (u ∈ order ↔ (Function.update phase t g' u).made ≠ none ∨ P'.Ended u) := by
    intro u hu
    rw [h.mem u, Function.update_of_ne hu, Pool.Ended, Pool.Ended, hst.other u hu]
  have hkeep : t ∈ order → g'.made ≠ none := by
    intro ht
    obtain ⟨i, hi⟩ := Option.ne_none_iff_exists'.1 (((h.mem t).1 ht).resolve_right hst.running)
    rw [hst.move.made_mono hi]
    simp
  by_cases hnow : t ∉ order ∧ (g'.made ≠ none ∨ P'.Ended t)
  · refine ⟨[t], ?_, fun u ↦ ?_⟩
    · exact List.nodup_append.2 ⟨h.nodup, List.nodup_singleton t, by
        rintro u hu v hv rfl
        exact hnow.1 (List.mem_singleton.1 hv ▸ hu)⟩
    · rw [List.mem_append, List.mem_singleton]
      by_cases hu : u = t
      · subst hu
        rw [Function.update_self]
        simp only [or_true, true_iff]
        exact hnow.2
      · rw [or_iff_left hu, hother u hu]
  · refine ⟨[], by rw [List.append_nil]; exact h.nodup, fun u ↦ ?_⟩
    rw [List.append_nil]
    by_cases hu : u = t
    · subst hu
      rw [Function.update_self]
      refine ⟨fun ht ↦ Or.inl (hkeep ht), fun hg ↦ ?_⟩
      by_contra hnot
      exact hnow ⟨hnot, hg⟩
    · exact hother u hu

/-- **The operations go on taking effect one after another.** -/
theorem step (hrm : ∀ t, (op t).removes = false) (hex : Existing op P t)
    (hs : Client.step P t = some P') :
    ∃ phase' order', Linear op P' phase' order' := by
  obtain ⟨x, g', hst, hL'⟩ := h.locked.step hs
  obtain ⟨new, hnodup, hmem⟩ := h.exists_new hst
  refine ⟨Function.update phase t g', order ++ new, hL', fun u hu ↦ ?_, fun u i hi ↦ ?_, hnodup,
    hmem, fun v u hv hrun hne hu ↦ h.before_step hex hst hL' new hv hrun hne hu,
    fun v u i hv hrun hi hne ↦ h.fresh_step hex hst hv hrun hi hne, ?_,
    fun v u hne hended hu hsub ↦ h.realTime_step hst new hne hended hu hsub⟩
  · by_cases hidle : phase u = .idle
    · have hut : u = t := by
        by_contra hne
        exact hu ((Function.update_of_ne hne _ _).trans hidle)
      subst hut
      obtain ⟨h₁, h₂, -⟩ := h.exists_of_idle hex hidle
      exact ⟨h₁, hst.move.live (hrm u) h₂⟩
    · obtain ⟨h₁, h₂⟩ := h.live u hidle
      exact ⟨h₁, hst.move.live (hrm t) h₂⟩
  · by_cases hu : u = t
    · subst hu
      rw [Function.update_self] at hi
      rcases hst.move.made_cases hi with hold | ⟨-, hlive, -⟩
      · exact hst.move.live (hrm u) (h.made u i hold)
      · exact hlive
    · rw [Function.update_of_ne hu] at hi
      exact hst.move.live (hrm t) (h.made u i hi)
  · rw [hst.hist, List.pairwise_append]
    refine ⟨h.sorted.imp fun {e e'} hold hne hc ↦ (hold hne hc).append new,
      List.pairwise_singleton _ _, fun e he e' he' hne hc ↦ ?_⟩
    obtain rfl := List.mem_singleton.1 he'
    exact (h.clear hrm hst he hne hc).append new

end Linear

/-- When all operations have ended, they have taken effect in the order that has been built up. -/
theorem Linear.serial {res : ι → Except Fault Result} (hlin : Linear op P phase order)
    (hsound : Pool.Sound handler (fun t ↦ (op t).prog) s₀ P)
    (hres : ∀ t, P.prog t = .ofExcept (res t)) :
    (∀ t, t ∈ order) ∧
      (∀ t u, t ≠ u → ¬ [u, t].Sublist (P.hist.map Prod.fst) → [t, u].Sublist order) ∧
      Prog.evalAll handler (order.map fun t ↦ (op t).prog) s₀ = some (order.map res, P.state) := by
  have hended : ∀ t, P.Ended t := fun t ↦ ⟨_, hres t⟩
  have hall : ∀ t, t ∈ order := fun t ↦ (hlin.mem t).2 (Or.inr (hended t))
  have hstarted : ∀ t, phase t ≠ .idle := by
    intro t hidle
    have hob := hlin.locked.obeys t
    rw [hres t, hidle] at hob
    cases hr : res t with
    | ok r =>
      rw [hr] at hob
      obtain ⟨made, hd⟩ := hob
      exact absurd hd (by simp)
    | error e =>
      rw [hr] at hob
      obtain ⟨made, hd⟩ := hob
      exact absurd hd (by simp)
  refine ⟨hall, fun t u hne hsub ↦ ?_, ?_⟩
  · exact (hlin.realTime t u hne (hended t) (hstarted u) hsub).2 (hall u)
  · refine hsound.serial hlin.nodup (fun e _ ↦ hall e.1) (fun t _ ↦ hres t) ?_
    refine hlin.sorted.imp fun {e e'} hold hne hsub ↦ swaps fun hc ↦ hsub ?_
    exact (hold hne hc).2 (hall e'.1)

/-- **Operations take effect at once.**  Operations of any number of clients, none of them an
`unlink`, are executed step by step in any order, each beginning when its inode exists.  When all
have ended, their results and the contents of all inodes are those that some order of the operations
gives when they are executed one after another.  An operation that has ended before another one has
begun comes first in that order. -/
theorem linearizable (op : ι → Op) (s₀ : State) (res : ι → Except Fault Result)
    (hrm : ∀ t, (op t).removes = false) {run : List ι} {P : Clients ι}
    (hrun : run.foldlM Client.step (called s₀ op) = some P)
    (hex : Along Client.step (Existing op) (called s₀ op) run)
    (hres : ∀ t, P.prog t = .ofExcept (res t)) :
    ∃ order : List ι, order.Nodup ∧ (∀ t, t ∈ order) ∧
      (∀ t u, t ≠ u → ¬ [u, t].Sublist run → [t, u].Sublist order) ∧
      Prog.evalAll handler (order.map fun t ↦ (op t).prog) s₀ = some (order.map res, P.state) := by
  have hstep : ∀ (P : Clients ι) t P',
      (Pool.Sound handler (fun t ↦ (op t).prog) s₀ P ∧ ∃ phase order, Linear op P phase order) →
      Existing op P t → Client.step P t = some P' →
      Pool.Sound handler (fun t ↦ (op t).prog) s₀ P' ∧ ∃ phase order, Linear op P' phase order := by
    rintro P t P' ⟨hsound, phase, order, hlin⟩ hex hs
    exact ⟨hsound.step hs, hlin.step hrm hex hs⟩
  obtain ⟨hsound, phase, order, hlin⟩ := along_induction hstep run _ P hex
    ⟨Pool.sound_start, _, _, linear_called s₀ op⟩ hrun
  have hsched : P.hist.map Prod.fst = run := Pool.map_fst_hist hrun
  obtain ⟨hall, hreal, heval⟩ := hlin.serial hsound hres
  exact ⟨order, hlin.nodup, hall, hsched ▸ hreal, heval⟩

/-! ## Which inodes exist -/

theorem Move.free_of_create {op : Op} {g : Phase} {s s' : State} {type i : Nat}
    (hm : Move op g ⟨.create type, .ok i⟩ s s' g') : s.files i = none ∧ s'.files i ≠ none := by
  cases hm with
  | access _ _ hkeep => exact absurd hkeep (by simp [Cmd.allocates])
  | create hx =>
    refine ⟨(Store.firstFree_bounds hx.free).2, ?_⟩
    rw [hx.eq]
    simp

/-- The inodes are those that were there in the beginning, and those that have been made since, each
of them by one operation. -/
structure Made (s₀ : State) (P : Clients ι) : Prop where
  kept : ∀ i, s₀.files i ≠ none → P.state.files i ≠ none
  new : ∀ e ∈ P.hist, ∀ type i, e.2 = ⟨.create type, .ok i⟩ →
    s₀.files i = none ∧ P.state.files i ≠ none
  once : ∀ e ∈ P.hist, ∀ e' ∈ P.hist, ∀ type type' i, e.2 = ⟨.create type, .ok i⟩ →
    e'.2 = ⟨.create type', .ok i⟩ → e.1 = e'.1

omit [DecidableEq ι] in
theorem made_called (s₀ : State) (op : ι → Op) : Made s₀ (called s₀ op) :=
  ⟨fun _ hi ↦ hi, by simp [called], by simp [called]⟩

theorem Made.step (h : Made s₀ P) (hL : Locked op P phase) (hrm : ∀ t, (op t).removes = false)
    (hs : Client.step P t = some P') : Made s₀ P' := by
  obtain ⟨x, g', hst, -⟩ := hL.step hs
  have hlive : ∀ i, P.state.files i ≠ none → P'.state.files i ≠ none :=
    fun i hi ↦ hst.move.live (hrm t) hi
  -- what the step makes was not there
  have hfresh : ∀ type i, x = ⟨.create type, .ok i⟩ →
      P.state.files i = none ∧ P'.state.files i ≠ none := by
    rintro type i rfl
    exact hst.move.free_of_create
  have hmem : ∀ e ∈ P'.hist, e ∈ P.hist ∨ e = (t, x) := by simp [hst.hist]
  refine ⟨fun i hi ↦ hlive i (h.kept i hi), fun e he type i hx ↦ ?_,
    fun e he e' he' type type' i hx hx' ↦ ?_⟩
  · rcases hmem e he with he | rfl
    · exact (h.new e he type i hx).imp_right (hlive i)
    · obtain ⟨hfree, hlive'⟩ := hfresh type i hx
      exact ⟨by by_contra hi; exact h.kept i hi hfree, hlive'⟩
  · rcases hmem e he with he | rfl <;> rcases hmem e' he' with he' | rfl
    · exact h.once e he e' he' type type' i hx hx'
    · exact absurd (hfresh type' i hx').1 (h.new e he type i hx).2
    · exact absurd (hfresh type i hx).1 (h.new e' he' type' i hx').2
    · rfl

omit [DecidableEq ι] in
/-- An inode that was there in the beginning exists, and so does one that an operation has made
which has ended. -/
theorem Made.existing (h : Made s₀ P) (hnum : inumOf (op t).target = (op t).target)
    (hthere : s₀.files (op t).target ≠ none ∨ ∃ e ∈ P.hist, ∃ type,
      e.2 = ⟨.create type, .ok (op t).target⟩ ∧ P.Ended e.1) : Existing op P t := by
  rintro -
  rcases hthere with hold | ⟨e, he, type, hx, hended⟩
  · exact ⟨hnum, h.kept _ hold, fun e he type hx ↦ absurd (h.new e he type _ hx).1 hold⟩
  · refine ⟨hnum, (h.new e he type _ hx).2, fun e' he' type' hx' ↦ ?_⟩
    rwa [← h.once e he e' he' type type' _ hx hx']

/-- An inode that is live from the beginning exists all the time. -/
theorem along_existing (hrm : ∀ t, (op t).removes = false)
    (hlive : ∀ t, inumOf (op t).target = (op t).target ∧ s₀.files (op t).target ≠ none)
    (run : List ι) : Along Client.step (Existing op) (called s₀ op) run := by
  refine along_of_invariant (P := fun P ↦ (∃ phase, Locked op P phase) ∧ Made s₀ P) ?_ ?_
    ⟨⟨_, locked_called s₀ op⟩, made_called s₀ op⟩ run
  · rintro P t ⟨-, hmade⟩
    exact hmade.existing (hlive t).1 (Or.inl (hlive t).2)
  · rintro P t P' ⟨⟨phase, hL⟩, hmade⟩ hs
    obtain ⟨x, g', -, hL'⟩ := hL.step hs
    exact ⟨⟨_, hL'⟩, hmade.step hL hrm hs⟩

end Step

/-- A file system with a file in it. -/
def sampleFiles : Store
  | 1 => some ⟨Extent.tDir, []⟩
  | 2 => some ⟨Extent.tFile, [104]⟩
  | _ => none

/-- One client makes a file in the root directory while another one appends to file 2. -/
def sampleOps : Fin 2 → Op := ![.create 1 [97] 0, .write 2 1 [105]]

theorem run_sampleOps :
    ∃ P, [0, 1, 0, 0, 1, 0, 1, 0, 0, 1, 0].foldlM step
      (called ⟨sampleFiles, fun _ ↦ false⟩ sampleOps)
        = some P ∧
      ∀ t, P.prog t = .ofExcept (![.ok (.ino 0 3), .ok (.written 0 1)] t) :=
  ⟨_, rfl, Fin.forall_fin_two.2 ⟨rfl, rfl⟩⟩

theorem linearizable_sample :
    ∃ P, [0, 1, 0, 0, 1, 0, 1, 0, 0, 1, 0].foldlM step
      (called ⟨sampleFiles, fun _ ↦ false⟩ sampleOps)
        = some P ∧
      ∃ order : List (Fin 2), order.Nodup ∧ (∀ t, t ∈ order) ∧
        Prog.evalAll handler (order.map fun t ↦ (sampleOps t).prog) ⟨sampleFiles, fun _ ↦ false⟩
          = some (order.map ![.ok (.ino 0 3), .ok (.written 0 1)], P.state) := by
  have hlive : ∀ t, inumOf (sampleOps t).target = (sampleOps t).target ∧
      sampleFiles (sampleOps t).target ≠ none :=
    Fin.forall_fin_two.2 ⟨⟨rfl, by decide⟩, rfl, by decide⟩
  have hrm : ∀ t, (sampleOps t).removes = false := Fin.forall_fin_two.2 ⟨rfl, rfl⟩
  obtain ⟨P, hrun, hres⟩ := run_sampleOps
  obtain ⟨order, hnd, hall, -, heval⟩ := linearizable sampleOps ⟨sampleFiles, fun _ ↦ false⟩
    ![.ok (.ino 0 3), .ok (.written 0 1)] hrm hrun (along_existing hrm hlive _) hres
  exact ⟨P, hrun, order, hnd, hall, heval⟩

end Client
end Yfs
