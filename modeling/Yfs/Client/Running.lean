import Yfs.Client.Locking
import Yfs.Client.System

/-!
# Operations of several clients

The operations that the clients have called are threads of one pool.  It makes no difference which
client an operation belongs to: a client that calls one operation after another is one that starts
the next operation when the last has ended, and all that is said is about every order of the steps.

`Move` says once what a step of an operation can be.  From it comes what is true of every run
(`Locked`): an operation that holds a lock is the only one that does, and everything in the history
was done by an operation that was allowed to do it.
-/

set_option autoImplicit false

namespace Yfs
namespace Client

open Machine
open Extent (File Store inumOf)

variable {ι : Type} [DecidableEq ι] {op : ι → Op} {s₀ : State}

/-- Operations that are being executed. -/
abbrev Clients (ι : Type) := Pool Cmd Cmd.Ans Fault State Result ι

/-- The operations have been called. -/
def called (s₀ : State) (op : ι → Op) : Clients ι := ⟨s₀, fun t ↦ (op t).prog, []⟩

/-- An operation takes a step. -/
abbrev step : Clients ι → ι → Option (Clients ι) := Pool.step handler

/-! ## Steps -/

/-- What a step of an operation can be. -/
inductive Move (op : Op) : Phase → Act Cmd.Ans → State → State → Phase → Prop
  | acquire {s : State} (hfree : s.held op.target = false) :
      Move op .idle ⟨.acquire op.target, ()⟩ s
        ⟨s.files, Function.update s.held op.target true⟩ (.holding none)
  | release {s : State} {made : Option Nat} :
      Move op (.holding made) ⟨.release op.target, ()⟩ s
        ⟨s.files, Function.update s.held op.target false⟩ (.done made)
  | access {s s' : State} {made : Option Nat} {x : Act Cmd.Ans} {id : Nat} {o : Option File}
      (hid : id = op.target ∨ made = some id) (hx : InodeStep x s s' (inumOf id) o)
      (hkeep : x.cmd.allocates = false) : Move op (.holding made) x s s' (.holding made)
  | create {s s' : State} {type i : Nat} {f : File}
      (hx : CreateStep ⟨.create type, .ok i⟩ s s' i f) :
      Move op (.holding none) ⟨.create type, .ok i⟩ s s' (.holding (some i))
  | remove {s s' : State} {made : Option Nat} {id : Nat} (hrm : op.removes = true)
      (hx : InodeStep ⟨.remove id, .ok ()⟩ s s' (inumOf id) none) :
      Move op (.holding made) ⟨.remove id, .ok ()⟩ s s' (.holding made)

/-- **A command that is allowed is a step that an operation can take.** -/
theorem move_of_allowed {op : Op} {g : Phase} {c : Cmd} {a : c.Ans} {s s' : State}
    (hc : (discipline op.target op.removes).allowed g c) (h : handler c s = some (a, s')) :
    ∃ g', (discipline op.target op.removes).next g c a = some g' ∧ Move op g ⟨c, a⟩ s s' g' := by
  cases g with
  | idle =>
    cases c with
    | acquire lid =>
      obtain rfl : lid = op.target := hc
      rw [handler] at h
      split at h
      · exact absurd h (by simp)
      · rename_i hfree
        obtain ⟨rfl, rfl⟩ := Prod.mk.inj (Option.some_inj.1 h)
        exact ⟨_, rfl, .acquire (by simpa using hfree)⟩
    | _ => exact hc.elim
  | done made => cases c <;> exact hc.elim
  | holding made =>
    cases c with
    | acquire lid => exact hc.elim
    | release lid =>
      obtain rfl : lid = op.target := hc
      obtain ⟨rfl, rfl⟩ := Prod.mk.inj (Option.some_inj.1 h)
      exact ⟨_, rfl, .release⟩
    | create type =>
      obtain rfl : made = none := hc
      obtain ⟨i, rfl, hx⟩ := handler_create h
      exact ⟨_, rfl, .create hx⟩
    | get id =>
      obtain ⟨o, ht, hx⟩ := handler_inodeAt rfl rfl h
      obtain ⟨rfl, -⟩ := Prod.mk.inj (Option.some_inj.1 ht)
      exact ⟨_, rfl, .access (Or.inl hc) hx rfl⟩
    | getattr id =>
      obtain ⟨o, ht, hx⟩ := handler_inodeAt rfl rfl h
      obtain ⟨rfl, -⟩ := Prod.mk.inj (Option.some_inj.1 ht)
      exact ⟨_, rfl, .access (Or.inl hc) hx rfl⟩
    | put id buf =>
      obtain ⟨o, ht, hx⟩ := handler_inodeAt rfl rfl h
      obtain ⟨f, -, he⟩ := Option.map_eq_some_iff.1 ht
      obtain ⟨rfl, -⟩ := Prod.mk.inj he
      exact ⟨_, rfl, .access hc hx rfl⟩
    | remove id =>
      obtain ⟨o, ht, hx⟩ := handler_inodeAt rfl rfl h
      obtain ⟨rfl, rfl⟩ := Prod.mk.inj (Option.some_inj.1 ht)
      exact ⟨_, rfl, .remove hc hx⟩

theorem lock_eq_none {x : Act Cmd.Ans} {i : Nat} (h : inodeOf x = some i) : x.cmd.lock = none := by
  obtain ⟨c, a⟩ := x
  cases c with
  | acquire lid => exact absurd h (by simp [inodeOf, Cmd.inode])
  | release lid => exact absurd h (by simp [inodeOf, Cmd.inode])
  | _ => rfl

theorem inumOf_of_firstFree {σ : Store} {i : Nat} (h : σ.firstFree = some i) : inumOf i = i := by
  obtain ⟨hi, -⟩ := Store.firstFree_bounds h
  exact Nat.mod_eq_of_lt (by omega)

namespace Move

variable {op : Op} {g g' : Phase} {x : Act Cmd.Ans} {s s' : State}

theorem ne_idle (h : Move op g x s s' g') : g' ≠ .idle := by
  cases h <;> simp

theorem made_mono (h : Move op g x s s' g') {i : Nat} (hi : g.made = some i) :
    g'.made = some i := by
  cases h with
  | acquire => exact hi
  | release => exact hi
  | access => exact hi
  | create => exact absurd hi (by simp [Phase.made])
  | remove => exact hi

theorem held_of_ne (h : Move op g x s s' g') {lid : Nat} (hne : lid ≠ op.target) :
    s'.held lid = s.held lid := by
  cases h with
  | acquire => exact Function.update_of_ne hne _ _
  | release => exact Function.update_of_ne hne _ _
  | access _ hx => rw [hx.eq]
  | create hx => rw [hx.eq]
  | remove _ hx => rw [hx.eq]

theorem made_cases (h : Move op g x s s' g') {i : Nat} (hi : g'.made = some i) :
    g.made = some i ∨ (s.files.firstFree = some i ∧ s'.files i ≠ none ∧
      ∃ type, x = ⟨.create type, .ok i⟩) := by
  cases h with
  | acquire => exact absurd hi (by simp [Phase.made])
  | release => exact Or.inl hi
  | access => exact Or.inl hi
  | create hx =>
    obtain rfl := Option.some_inj.1 hi
    refine Or.inr ⟨hx.free, ?_, _, rfl⟩
    rw [hx.eq]
    simp only [Function.update_self, ne_eq, reduceCtorEq, not_false_eq_true]
  | remove => exact Or.inl hi

theorem cmd_of_idle (h : Move op g x s s' g') (hg : g = .idle) : x.cmd = .acquire op.target := by
  cases h with
  | acquire => rfl
  | _ => exact absurd hg (by simp)

/-- A step is taken with the lock, or the lock is free. -/
theorem holds_or_free (h : Move op g x s s' g') : g.Holds ∨ s.held op.target = false := by
  cases h with
  | acquire hfree => exact Or.inr hfree
  | _ => exact Or.inl ⟨_, rfl⟩

/-- Whoever holds the lock now has held it before, or the lock was free. -/
theorem holds_cases (h : Move op g x s s' g') (hg : g'.Holds) :
    (g.Holds ∧ s'.held op.target = s.held op.target) ∨
      (s.held op.target = false ∧ s'.held op.target = true) := by
  cases h with
  | acquire hfree => exact Or.inr ⟨hfree, Function.update_self ..⟩
  | release =>
    obtain ⟨made, h⟩ := hg
    exact absurd h (by simp)
  | access _ hx => exact Or.inl ⟨⟨_, rfl⟩, by rw [hx.eq]⟩
  | create hx => exact Or.inl ⟨⟨_, rfl⟩, by rw [hx.eq]⟩
  | remove _ hx => exact Or.inl ⟨⟨_, rfl⟩, by rw [hx.eq]⟩

end Move

/-! ## What is true of every run -/

/-- What an operation that has got so far may have done. -/
structure Within (op : Op) (g : Phase) (x : Act Cmd.Ans) : Prop where
  started : g ≠ .idle
  lock : ∀ lid, x.cmd.lock = some lid → lid = op.target
  inode : ∀ i, inodeOf x = some i →
    i = inumOf op.target ∨ g.made = some i ∨ (op.removes = true ∧ ∃ id, x.cmd = .remove id)
  allocates : x.cmd.allocates = true → g.made ≠ none ∨ op.removes = true
  released : ∀ lid, x.cmd = .release lid → g.Done

/-- What the locks are good for. -/
structure Locked (op : ι → Op) (P : Clients ι) (phase : ι → Phase) : Prop where
  obeys : ∀ t, (P.prog t).Obeys (discipline (op t).target (op t).removes) (fun g _ ↦ g.Done)
    Phase.Holds (phase t)
  within : ∀ e ∈ P.hist, Within (op e.1) (phase e.1) e.2
  acquired : ∀ t, phase t ≠ .idle → ∃ e ∈ P.hist, e.1 = t ∧ e.2.cmd = .acquire (op t).target
  made : ∀ t i, (phase t).made = some i →
    inumOf i = i ∧ ∃ type, (t, (⟨.create type, .ok i⟩ : Act Cmd.Ans)) ∈ P.hist
  held : ∀ t, (phase t).Holds → P.state.held (op t).target = true
  unique : ∀ t u, (phase t).Holds → (phase u).Holds → (op t).target = (op u).target → t = u

variable {P P' : Clients ι} {phase : ι → Phase} {t : ι}

omit [DecidableEq ι] in
theorem Locked.mem_of_started (hL : Locked op P phase) (ht : phase t ≠ .idle) :
    t ∈ P.hist.map Prod.fst := by
  obtain ⟨e, he, rfl, -⟩ := hL.acquired t ht
  exact List.mem_map_of_mem he

omit [DecidableEq ι] in
theorem locked_called (s₀ : State) (op : ι → Op) : Locked op (called s₀ op) fun _ ↦ .idle where
  obeys t := (op t).obeys
  within := by simp [called]
  acquired := by simp
  made := by simp [Phase.made]
  held := by rintro t ⟨made, h⟩; exact absurd h (by simp)
  unique := by rintro t u ⟨made, h⟩; exact absurd h (by simp)

/-- Operation `t` has taken the step `x`. -/
structure StepOf (op : ι → Op) (P P' : Clients ι) (phase : ι → Phase) (t : ι) (x : Act Cmd.Ans)
    (g' : Phase) : Prop where
  hist : P'.hist = P.hist ++ [(t, x)]
  other : ∀ u, u ≠ t → P'.prog u = P.prog u
  running : ¬ P.Ended t
  allowed : (discipline (op t).target (op t).removes).allowed (phase t) x.cmd
  move : Move (op t) (phase t) x P.state P'.state g'

namespace Within

variable {op : Op} {g g' : Phase} {x y : Act Cmd.Ans} {s s' : State}

theorem mono (h : Within op g y) (hm : Move op g x s s' g') : Within op g' y where
  started := hm.ne_idle
  lock := h.lock
  inode i hi := by
    rcases h.inode i hi with h | h | h
    · exact Or.inl h
    · exact Or.inr (Or.inl (hm.made_mono h))
    · exact Or.inr (Or.inr h)
  allocates ha := by
    rcases h.allocates ha with h | h
    · obtain ⟨i, hi⟩ := Option.ne_none_iff_exists'.1 h
      exact Or.inl (by rw [hm.made_mono hi]; simp)
    · exact Or.inr h
  released lid hl := by
    obtain ⟨made, hg⟩ := h.released lid hl
    cases hm <;> exact absurd hg (by simp)

theorem of_move (hmade : ∀ i, g.made = some i → inumOf i = i) (hm : Move op g x s s' g') :
    Within op g' x := by
  refine ⟨hm.ne_idle, fun lid hl ↦ ?_, fun i hi ↦ ?_, fun ha ↦ ?_, fun lid hl ↦ ?_⟩
  · cases hm with
    | acquire => exact (Option.some_inj.1 hl).symm
    | release => exact (Option.some_inj.1 hl).symm
    | access _ hx => exact absurd hl (by simp [lock_eq_none hx.inode])
    | create hx => exact absurd hl (by simp [Cmd.lock])
    | remove _ hx => exact absurd hl (by simp [Cmd.lock])
  · cases hm with
    | acquire => exact absurd hi (by simp [inodeOf, Cmd.inode])
    | release => exact absurd hi (by simp [inodeOf, Cmd.inode])
    | access hid hx =>
      obtain rfl := Option.some_inj.1 (hx.inode.symm.trans hi)
      rcases hid with rfl | hid
      · exact Or.inl rfl
      · exact Or.inr (Or.inl (by rw [hmade _ hid]; exact hid))
    | create hx => exact Or.inr (Or.inl (Option.some_inj.1 (hx.inode.symm.trans hi) ▸ rfl))
    | remove hrm hx => exact Or.inr (Or.inr ⟨hrm, _, rfl⟩)
  · cases hm with
    | acquire => exact absurd ha (by simp [Cmd.allocates])
    | release => exact absurd ha (by simp [Cmd.allocates])
    | access _ _ hkeep => exact absurd ha (by simp [hkeep])
    | create => exact Or.inl (by simp [Phase.made])
    | remove hrm => exact Or.inr hrm
  · cases hm with
    | acquire => exact absurd hl (by simp)
    | release => exact ⟨_, rfl⟩
    | access _ hx =>
      have hnone := lock_eq_none hx.inode
      rw [hl] at hnone
      exact absurd hnone (by simp [Cmd.lock])
    | create => exact absurd hl (by simp)
    | remove => exact absurd hl (by simp)

end Within

/-- **The locks do what they should**, whatever step is taken next. -/
theorem Locked.step (hL : Locked op P phase) (hs : Client.step P t = some P') :
    ∃ x g', StepOf op P P' phase t x g' ∧ Locked op P' (Function.update phase t g') := by
  obtain ⟨c, k, a, s', hp, hc, rfl⟩ := Pool.step_cases hs
  have hob := hL.obeys t
  rw [hp] at hob
  obtain ⟨g', hnext, hmove⟩ := move_of_allowed hob.1 hc
  refine ⟨⟨c, a⟩, g', ⟨rfl, fun u hu ↦ Function.update_of_ne hu _ _, ?_, hob.1, hmove⟩, ?_⟩
  · rintro ⟨o, ho⟩
    rw [hp] at ho
    cases o <;> exact absurd ho (by simp [Prog.ofExcept])
  have hself : Function.update phase t g' t = g' := Function.update_self ..
  have hother : ∀ {u}, u ≠ t → Function.update phase t g' u = phase u :=
    fun hu ↦ Function.update_of_ne hu _ _
  -- nobody else holds the lock
  have halone : ∀ u, u ≠ t → (phase u).Holds → (op u).target ≠ (op t).target := by
    intro u hne hu heq
    rcases hmove.holds_or_free with hg | hfree
    · exact hne (hL.unique u t hu hg heq)
    · have := hL.held u hu
      rw [heq, hfree] at this
      exact absurd this (by simp)
  constructor
  · intro u
    by_cases hu : u = t
    · subst hu
      simp only [Function.update_self]
      exact hob.2 a g' hnext
    · simp only [Function.update_of_ne hu]
      exact hL.obeys u
  · intro e he
    rcases List.mem_append.1 he with he | he
    · by_cases hu : e.1 = t
      · have := hL.within e he
        rw [hu] at this ⊢
        rw [hself]
        exact this.mono hmove
      · rw [hother hu]
        exact hL.within e he
    · obtain rfl := List.mem_singleton.1 he
      rw [hself]
      exact .of_move (fun i hi ↦ (hL.made t i hi).1) hmove
  · intro u hu
    by_cases hidle : phase u = .idle
    · have hut : u = t := by
        by_contra hne
        exact hu ((hother hne).trans hidle)
      subst hut
      refine ⟨(u, ⟨c, a⟩), List.mem_append_right _ (List.mem_singleton.2 rfl), rfl, ?_⟩
      exact hmove.cmd_of_idle hidle
    · obtain ⟨e, he, hrest⟩ := hL.acquired u hidle
      exact ⟨e, List.mem_append_left _ he, hrest⟩
  · intro u i hi
    by_cases hne : u = t
    · subst hne
      rw [hself] at hi
      rcases hmove.made_cases hi with hold | ⟨hfree, -, type, hx⟩
      · obtain ⟨h₁, type, h₂⟩ := hL.made u i hold
        exact ⟨h₁, type, List.mem_append_left _ h₂⟩
      · exact ⟨inumOf_of_firstFree hfree, type, by rw [hx]; simp⟩
    · rw [hother hne] at hi
      obtain ⟨h₁, type, h₂⟩ := hL.made u i hi
      exact ⟨h₁, type, List.mem_append_left _ h₂⟩
  · intro u hu
    by_cases hne : u = t
    · subst hne
      rw [hself] at hu
      rcases hmove.holds_cases hu with ⟨hg, heq⟩ | ⟨-, heq⟩
      · exact heq.trans (hL.held _ hg)
      · exact heq
    · rw [hother hne] at hu
      exact (hmove.held_of_ne (halone u hne hu)).trans (hL.held u hu)
  · intro u v hu hv heq
    by_cases hut : u = t
    · by_cases hvt : v = t
      · rw [hut, hvt]
      · rw [hother hvt] at hv
        exact absurd (hut ▸ heq.symm) (halone v hvt hv)
    · rw [hother hut] at hu
      by_cases hvt : v = t
      · exact absurd (hvt ▸ heq) (halone u hut hu)
      · rw [hother hvt] at hv
        exact hL.unique u v hu hv heq

end Client
end Yfs
