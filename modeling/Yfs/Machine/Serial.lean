import Mathlib.Data.List.Basic
import Mathlib.Data.Finset.Dedup
import Mathlib.Data.Fintype.Basic
import Yfs.Machine.Prog
import Yfs.Machine.Run

/-!
# Programs that are interleaved

Several programs issue commands to one machine, a command at a time and in any order.  When does
that come to the same as executing the programs one after another?

The *history* of an execution is the list of the commands that have been issued, each with its
answer and with the thread that has issued it.  Two neighbours in the history that belong to
different threads may be exchanged if the machine gives the same answers and ends in the same state
either way.  So if there is an order of the threads such that the commands of a later thread can
always be exchanged with the commands of an earlier one that they stand before, then the history can
be sorted into a serial one, thread by thread (`Trace.serialize`).  That is a fact about histories.
As each program has received the same answers as in the serial history, it has gone the same way
(`Pool.Sound.serial`).

The handler of the machine is partial: a command may have to wait.
-/

set_option autoImplicit false

namespace Machine

variable {Cmd : Type} {Ans : Cmd → Type} {E S α ι : Type}

/-! ## Histories -/

/-- A command with its answer. -/
structure Act (Ans : Cmd → Type) where
  cmd : Cmd
  ans : Ans cmd

/-- The machine goes from one state to another with these commands and answers. -/
inductive Trace (h : (c : Cmd) → S → Option (Ans c × S)) : S → List (Act Ans) → S → Prop
  | nil (s : S) : Trace h s [] s
  | cons {s s₁ s₂ : S} {x : Act Ans} {l : List (Act Ans)} :
      h x.cmd s = some (x.ans, s₁) → Trace h s₁ l s₂ → Trace h s (x :: l) s₂

/-- `x` and then `y` can be exchanged. -/
def Swaps (h : (c : Cmd) → S → Option (Ans c × S)) (x y : Act Ans) : Prop :=
  ∀ s s', Trace h s [x, y] s' → Trace h s [y, x] s'

variable {h : (c : Cmd) → S → Option (Ans c × S)} {s s' s'' : S} {l l' : List (Act Ans)}
  {x y : Act Ans}

namespace Trace

theorem append (h₁ : Trace h s l s') (h₂ : Trace h s' l' s'') : Trace h s (l ++ l') s'' := by
  induction h₁ with
  | nil => exact h₂
  | cons hx _ ih => exact cons hx (ih h₂)

theorem of_append : ∀ {l : List (Act Ans)} {s : S}, Trace h s (l ++ l') s'' →
    ∃ s', Trace h s l s' ∧ Trace h s' l' s''
  | [], s, ht => ⟨s, nil s, ht⟩
  | x :: l, s, ht => by
    cases ht with
    | cons hx ht =>
      obtain ⟨s', h₁, h₂⟩ := of_append ht
      exact ⟨s', cons hx h₁, h₂⟩

theorem single (hx : h x.cmd s = some (x.ans, s')) : Trace h s [x] s' := cons hx (nil s')

/-- A command moves to the end of a list of commands that it can be exchanged with. -/
theorem move (hswap : ∀ y ∈ l, Swaps h x y) (ht : Trace h s (x :: l ++ l') s') :
    Trace h s (l ++ x :: l') s' := by
  induction l generalizing s with
  | nil => exact ht
  | cons y l ih =>
    have hxy : Trace h s ([x, y] ++ (l ++ l')) s' := ht
    obtain ⟨s₁, h₁, h₂⟩ := of_append hxy
    have hyx := hswap y List.mem_cons_self s s₁ h₁
    cases hyx with
    | cons hy hx =>
      refine cons hy (ih (fun z hz ↦ hswap z (List.mem_cons_of_mem _ hz)) ?_)
      exact hx.append h₂

variable {H : List (ι × Act Ans)}

/-- The commands of some threads move to the front. -/
theorem partition {p : ι → Bool}
    (hswap : H.Pairwise fun e e' ↦ p e.1 = false → p e'.1 = true → Swaps h e.2 e'.2)
    (ht : Trace h s (H.map Prod.snd) s') :
    Trace h s
      ((H.filter fun e ↦ p e.1).map Prod.snd ++ (H.filter fun e ↦ !p e.1).map Prod.snd) s' := by
  induction H generalizing s with
  | nil => exact ht
  | cons e H ih =>
    rw [List.pairwise_cons] at hswap
    cases ht with
    | cons hx ht =>
      have ih := ih hswap.2 ht
      cases hp : p e.1 with
      | true =>
        rw [List.filter_cons_of_pos (by simpa using hp), List.filter_cons_of_neg (by simp [hp])]
        exact cons hx ih
      | false =>
        rw [List.filter_cons_of_neg (by simp [hp]), List.filter_cons_of_pos (by simp [hp])]
        refine move (fun y hy ↦ ?_) (cons hx ih)
        obtain ⟨e', he', rfl⟩ := List.mem_map.1 hy
        obtain ⟨he', hp'⟩ := List.mem_filter.1 he'
        exact hswap.1 e' he' hp hp'

end Trace

variable [DecidableEq ι]

/-- What one thread has done. -/
def actsOf (H : List (ι × Act Ans)) (t : ι) : List (Act Ans) :=
  (H.filter fun e ↦ e.1 = t).map Prod.snd

omit [DecidableEq ι] in
/-- Two elements of a list without repetitions come in one order only. -/
theorem not_sublist_cons {t u : ι} {order : List ι} (hnd : (t :: order).Nodup) :
    ¬ [u, t].Sublist (t :: order) := by
  intro hsub
  rw [List.nodup_cons] at hnd
  cases hsub with
  | cons _ hsub => exact hnd.1 (hsub.subset (by simp))
  | cons_cons _ hsub => exact hnd.1 (hsub.subset (by simp))

/-- **Sorting a history.**  Every two commands of different threads that stand in the history
against the order of the threads can be exchanged; so the history can be sorted by that order. -/
theorem Trace.serialize {order : List ι} {H : List (ι × Act Ans)} (hnd : order.Nodup)
    (hall : ∀ e ∈ H, e.1 ∈ order)
    (hswap : H.Pairwise fun e e' ↦ e.1 ≠ e'.1 → ¬ [e.1, e'.1].Sublist order → Swaps h e.2 e'.2)
    (ht : Trace h s (H.map Prod.snd) s') : Trace h s (order.flatMap (actsOf H)) s' := by
  induction order generalizing H s with
  | nil =>
    obtain rfl : H = [] := List.eq_nil_iff_forall_not_mem.2 fun e he ↦ absurd (hall e he) (by simp)
    exact ht
  | cons t order ih =>
    -- the commands of `t` move to the front
    have ht := Trace.partition (p := fun u ↦ u = t) (hswap.imp fun {e e'} hs hne heq ↦ ?_) ht
    rotate_left
    · have hne : e.1 ≠ t := of_decide_eq_false hne
      have heq : e'.1 = t := of_decide_eq_true heq
      refine hs (heq ▸ hne) ?_
      rw [heq]
      exact not_sublist_cons hnd
    obtain ⟨s₁, h₁, h₂⟩ := Trace.of_append ht
    rw [List.flatMap_cons]
    refine h₁.append ?_
    rw [List.nodup_cons] at hnd
    have hrest : ∀ u ∈ order, actsOf (H.filter fun e ↦ !decide (e.1 = t)) u = actsOf H u := by
      intro u hu
      have hne : u ≠ t := fun e ↦ hnd.1 (e ▸ hu)
      rw [actsOf, actsOf, List.filter_filter]
      congr 1
      refine List.filter_congr fun e _ ↦ ?_
      by_cases he : e.1 = u
      · simp [he, hne]
      · simp [he]
    have hmap : order.flatMap (actsOf H)
        = order.flatMap (actsOf (H.filter fun e ↦ !decide (e.1 = t))) :=
      List.flatMap_congr fun u hu ↦ (hrest u hu).symm
    rw [hmap]
    refine ih hnd.2 (fun e he ↦ ?_) ?_ h₂
    · obtain ⟨he, hne⟩ := List.mem_filter.1 he
      refine (List.mem_cons.1 (hall e he)).resolve_left ?_
      simpa using hne
    · refine (List.Pairwise.filter _ hswap).imp_of_mem fun {e e'} he he' hs hne hsub ↦ ?_
      have het : e.1 ≠ t := by simpa using (List.mem_filter.1 he).2
      refine hs hne fun hcons ↦ ?_
      cases hcons with
      | cons _ hsub' => exact hsub hsub'
      | cons_cons _ _ => exact het rfl

/-! ## Programs -/

/-- A program issues a command and goes on with the answer. -/
inductive Takes : Prog Cmd Ans E α → Act Ans → Prog Cmd Ans E α → Prop
  | call (c : Cmd) (a : Ans c) (k : Ans c → Prog Cmd Ans E α) : Takes (.call c k) ⟨c, a⟩ (k a)

/-- A program that has issued these commands and received these answers. -/
inductive Follows (p : Prog Cmd Ans E α) : List (Act Ans) → Prog Cmd Ans E α → Prop
  | nil : Follows p [] p
  | snoc {l : List (Act Ans)} {x : Act Ans} {q q' : Prog Cmd Ans E α} :
      Follows p l q → Takes q x q' → Follows p (l ++ [x]) q'

theorem Follows.eval {p q : Prog Cmd Ans E α} (hf : Follows p l q) (ht : Trace h s l s') :
    p.eval h s = q.eval h s' := by
  induction hf generalizing s' with
  | nil =>
    cases ht
    rfl
  | snoc _ hx ih =>
    obtain ⟨s₁, h₁, h₂⟩ := Trace.of_append ht
    rw [ih h₁]
    cases hx with
    | call c a k =>
      cases h₂ with
      | cons hc hnil =>
        cases hnil
        rw [Prog.eval, show h c s₁ = _ from hc]
        rfl

/-! ## Pools -/

/-- Threads that share a machine: its state, what is left of the programs, and the history. -/
structure Pool (Cmd : Type) (Ans : Cmd → Type) (E S α ι : Type) where
  state : S
  prog : ι → Prog Cmd Ans E α
  hist : List (ι × Act Ans) := []

namespace Pool

/-- Thread `t` issues its next command. -/
def step (h : (c : Cmd) → S → Option (Ans c × S)) (P : Pool Cmd Ans E S α ι) (t : ι) :
    Option (Pool Cmd Ans E S α ι) :=
  match P.prog t with
  | .call c k =>
    (h c P.state).map fun r ↦
      ⟨r.2, Function.update P.prog t (k r.1), P.hist ++ [(t, ⟨c, r.1⟩)]⟩
  | _ => none

variable {P P' : Pool Cmd Ans E S α ι} {t : ι}

theorem step_cases (hs : step h P t = some P') :
    ∃ c k a s', P.prog t = .call c k ∧ h c P.state = some (a, s') ∧
      P' = ⟨s', Function.update P.prog t (k a), P.hist ++ [(t, ⟨c, a⟩)]⟩ := by
  rw [step] at hs
  split at hs
  · rename_i c k hp
    obtain ⟨⟨a, s'⟩, hc, rfl⟩ := Option.map_eq_some_iff.1 hs
    exact ⟨c, k, a, s', hp, hc, rfl⟩
  · exact absurd hs (by simp)

theorem step_of_call {p : ι → Prog Cmd Ans E α} {H : List (ι × Act Ans)} {c : Cmd}
    {k : Ans c → Prog Cmd Ans E α} {a : Ans c} (hp : p t = .call c k) (hc : h c s = some (a, s')) :
    step h ⟨s, p, H⟩ t = some ⟨s', Function.update p t (k a), H ++ [(t, ⟨c, a⟩)]⟩ := by
  simp only [step, hp, hc, Option.map_some]

/-- The history says who has issued the commands of a run. -/
theorem map_fst_hist {run : List ι} (hrun : run.foldlM (step h) P = some P') :
    P'.hist.map Prod.fst = P.hist.map Prod.fst ++ run := by
  induction run generalizing P with
  | nil =>
    obtain rfl : P = P' := by simpa using hrun
    rw [List.append_nil]
  | cons t run ih =>
    rw [List.foldlM_cons, Option.bind_eq_bind, Option.bind_eq_some_iff] at hrun
    obtain ⟨P₁, hs, hrun⟩ := hrun
    obtain ⟨c, k, a, s', -, -, rfl⟩ := step_cases hs
    rw [ih hrun, List.map_append, List.append_assoc]
    rfl

/-- The history explains the state of the machine and that of the programs. -/
structure Sound (h : (c : Cmd) → S → Option (Ans c × S)) (p₀ : ι → Prog Cmd Ans E α) (s₀ : S)
    (P : Pool Cmd Ans E S α ι) : Prop where
  trace : Trace h s₀ (P.hist.map Prod.snd) P.state
  follows : ∀ t, Follows (p₀ t) (actsOf P.hist t) (P.prog t)

variable {p₀ : ι → Prog Cmd Ans E α} {s₀ : S}

theorem sound_start : Sound h p₀ s₀ ⟨s₀, p₀, []⟩ := ⟨.nil s₀, fun _ ↦ .nil⟩

theorem Sound.step (hP : Sound h p₀ s₀ P) (hs : P.step h t = some P') : Sound h p₀ s₀ P' := by
  obtain ⟨c, k, a, s', hp, hc, rfl⟩ := step_cases hs
  refine ⟨?_, fun u ↦ ?_⟩
  · rw [List.map_append]
    exact hP.trace.append (.single hc)
  · have hu := hP.follows u
    simp only [actsOf, List.filter_append, List.map_append, Function.update_apply]
    split
    · rename_i e
      subst e
      rw [hp] at hu
      rw [List.filter_cons_of_pos (by simp)]
      exact hu.snoc (.call c a k)
    · rename_i hne
      rw [List.filter_cons_of_neg (by simpa using Ne.symm hne), List.filter_nil, List.map_nil,
        List.append_nil]
      exact hu

/-- The thread has come to the end of its program. -/
def Ended (P : Pool Cmd Ans E S α ι) (t : ι) : Prop := ∃ o, P.prog t = .ofExcept o

/-- **An execution that can be sorted is serial.** -/
theorem Sound.serial (hP : Sound h p₀ s₀ P) {order : List ι} {res : ι → Except E α}
    (hnd : order.Nodup) (hall : ∀ e ∈ P.hist, e.1 ∈ order)
    (hres : ∀ t ∈ order, P.prog t = .ofExcept (res t))
    (hswap : P.hist.Pairwise fun e e' ↦
      e.1 ≠ e'.1 → ¬ [e.1, e'.1].Sublist order → Swaps h e.2 e'.2) :
    Prog.evalAll h (order.map p₀) s₀ = some (order.map res, P.state) := by
  have ht := Trace.serialize hnd hall hswap hP.trace
  clear hnd hall hswap
  generalize s₀ = s at ht
  induction order generalizing s with
  | nil =>
    cases ht
    rfl
  | cons t order ih =>
    rw [List.flatMap_cons] at ht
    obtain ⟨s₁, h₁, h₂⟩ := Trace.of_append ht
    have hf := (hP.follows t).eval h₁
    rw [hres t List.mem_cons_self, Prog.eval_ofExcept] at hf
    rw [List.map_cons, List.map_cons, Prog.evalAll_cons]
    exact ⟨_, _, s₁, hf, ih (fun u hu ↦ hres u (List.mem_cons_of_mem _ hu)) s₁ h₂, rfl⟩

/-! ### Threads that do not disturb each other -/

/-- The next command of thread `t` can be exchanged with everything that other threads have done
which have not ended. -/
def Undisturbing (h : (c : Cmd) → S → Option (Ans c × S)) (P : Pool Cmd Ans E S α ι) (t : ι) :
    Prop :=
  ∀ c k, P.prog t = .call c k → ∀ a s', h c P.state = some (a, s') →
    ∀ e ∈ P.hist, e.1 ≠ t → ¬ P.Ended e.1 → Swaps h e.2 ⟨c, a⟩

/-- In the order so far, `t` comes before `u`, wherever `u` may come to stand. -/
def Before (order : List ι) (t u : ι) : Prop := t ∈ order ∧ (u ∈ order → [t, u].Sublist order)

omit [DecidableEq ι] in
theorem sublist_append_of_mem {t u : ι} {l l' : List ι} (ht : t ∈ l) (hu : u ∈ l') :
    [t, u].Sublist (l ++ l') :=
  (List.singleton_sublist.2 ht).append (List.singleton_sublist.2 hu)

omit [DecidableEq ι] in
/-- What comes later goes to the end. -/
theorem Before.append {order : List ι} {t u : ι} (h : Before order t u) (new : List ι) :
    Before (order ++ new) t u := by
  refine ⟨List.mem_append_left _ h.1, fun hm ↦ ?_⟩
  rcases List.mem_append.1 hm with hm | hm
  · exact (h.2 hm).trans (List.sublist_append_left _ _)
  · exact sublist_append_of_mem h.1 hm

omit [DecidableEq ι] in
theorem before_of_notMem {order : List ι} {t u : ι} (ht : t ∈ order) (hu : u ∉ order) :
    Before order t u := ⟨ht, fun h ↦ absurd h hu⟩

/-- The threads in `done` have ended, in this order, and what stands in the way of another order is
in agreement with it. -/
structure Committed (h : (c : Cmd) → S → Option (Ans c × S)) (P : Pool Cmd Ans E S α ι)
    (done : List ι) : Prop where
  nodup : done.Nodup
  ended : ∀ t ∈ done, P.Ended t
  mem : ∀ e ∈ P.hist, P.Ended e.1 → e.1 ∈ done
  swaps : P.hist.Pairwise fun e e' ↦ e.1 ≠ e'.1 → ¬ Swaps h e.2 e'.2 → Before done e.1 e'.1

/-- If thread `t` ends with this command, it is the next in the order. -/
theorem Committed.step {done : List ι} (hP : Committed h P done) (hu : Undisturbing h P t)
    (hs : P.step h t = some P') : ∃ new, (∀ u ∈ new, u = t) ∧ Committed h P' (done ++ new) := by
  obtain ⟨c, k, a, s', hp, hc, hP'⟩ := step_cases hs
  have hhist : P'.hist = P.hist ++ [(t, ⟨c, a⟩)] := by rw [hP']
  have hother : ∀ {u}, u ≠ t → (P'.Ended u ↔ P.Ended u) := by
    intro u hne
    rw [Ended, Ended, hP']
    simp only [Function.update_of_ne hne]
  have htd : t ∉ done := by
    intro hm
    obtain ⟨o, ho⟩ := hP.ended t hm
    rw [hp] at ho
    cases o <;> exact absurd ho (by simp [Prog.ofExcept])
  -- what the new command cannot be exchanged with belongs to threads that have ended
  have hnew : ∀ e ∈ P.hist, e.1 ≠ t → ¬ Swaps h e.2 ⟨c, a⟩ → e.1 ∈ done := by
    intro e he hne hsw
    refine hP.mem e he ?_
    by_contra hfin
    exact hsw (hu c k hp a s' hc e he hne hfin)
  obtain ⟨new, hnd, hmem, hfin⟩ : ∃ new : List ι, new.Nodup ∧ (∀ u ∈ new, u = t ∧ P'.Ended t) ∧
      (P'.Ended t → t ∈ new) := by
    by_cases hfin : P'.Ended t
    · exact ⟨[t], by simp, by simp [hfin], by simp⟩
    · exact ⟨[], by simp, by simp, fun h ↦ absurd h hfin⟩
  refine ⟨new, fun u hu ↦ (hmem u hu).1, ?_, fun u hu ↦ ?_, fun e he hf ↦ ?_, ?_⟩
  · refine List.nodup_append.2 ⟨hP.nodup, hnd, fun u hu v hv ↦ ?_⟩
    rintro rfl
    exact htd ((hmem u hv).1 ▸ hu)
  · rcases List.mem_append.1 hu with hu | hu
    · exact (hother fun e ↦ htd (e ▸ hu)).2 (hP.ended u hu)
    · obtain ⟨rfl, hf⟩ := hmem u hu
      exact hf
  · by_cases hne : e.1 = t
    · exact List.mem_append_right _ (hne ▸ hfin (hne ▸ hf))
    · rw [hhist, List.mem_append, List.mem_singleton] at he
      have he := he.resolve_right fun heq ↦ hne (congrArg Prod.fst heq)
      exact List.mem_append_left _ (hP.mem e he ((hother hne).1 hf))
  · rw [hhist, List.pairwise_append]
    refine ⟨hP.swaps.imp fun {e e'} hold hne hsw ↦ (hold hne hsw).append new,
      List.pairwise_singleton _ _, fun e he e' he' hne hsw ↦ ?_⟩
    obtain rfl := List.mem_singleton.1 he'
    exact (before_of_notMem (hnew e he hne hsw) htd).append new

/-- **Threads that do not disturb each other.**  If no step disturbs a thread that has not ended,
then the threads, once they have all ended, have gone the way that they would have gone one after
another. -/
theorem serial_of_undisturbing [Fintype ι] (res : ι → Except E α) {run : List ι}
    (hrun : run.foldlM (step h) ⟨s₀, p₀, []⟩ = some P)
    (hu : Along (step h) (Undisturbing h) ⟨s₀, p₀, []⟩ run)
    (hres : ∀ t, P.prog t = .ofExcept (res t)) :
    ∃ order : List ι, order.Nodup ∧ (∀ t, t ∈ order) ∧
      Prog.evalAll h (order.map p₀) s₀ = some (order.map res, P.state) := by
  have hinit : Sound h p₀ s₀ ⟨s₀, p₀, []⟩ ∧ ∃ done, Committed h ⟨s₀, p₀, []⟩ done :=
    ⟨sound_start, [], by simp, by simp, by simp, by simp⟩
  have hstep : ∀ (P : Pool Cmd Ans E S α ι) t P', (Sound h p₀ s₀ P ∧ ∃ done, Committed h P done) →
      Undisturbing h P t → P.step h t = some P' → Sound h p₀ s₀ P' ∧
        ∃ done, Committed h P' done := by
    rintro P t P' ⟨hsound, done, hdone⟩ hu hs
    obtain ⟨new, -, hnew⟩ := hdone.step hu hs
    exact ⟨hsound.step hs, _, hnew⟩
  obtain ⟨hsound, done, hdone⟩ := along_induction hstep run _ P hu hinit hrun
  -- the threads that have not issued any command come last
  let rest := (Finset.univ.filter fun t ↦ t ∉ done).toList
  have hmem : ∀ t, t ∈ done ++ rest := by
    intro t
    by_cases ht : t ∈ done
    · exact List.mem_append_left _ ht
    · exact List.mem_append_right _ (by simpa [rest] using ht)
  have hnd : (done ++ rest).Nodup := by
    refine List.nodup_append.2 ⟨hdone.nodup, Finset.nodup_toList _, fun t ht u hu ↦ ?_⟩
    rintro rfl
    have : t ∉ done := by simpa [rest] using hu
    exact this ht
  refine ⟨done ++ rest, hnd, hmem, ?_⟩
  refine hsound.serial hnd (fun e _ ↦ hmem e.1) (fun t _ ↦ hres t) ?_
  refine hdone.swaps.imp_of_mem fun {e e'} he he' hold hne hsub ↦ ?_
  by_contra hsw
  obtain ⟨-, h₂⟩ := hold hne hsw
  exact hsub ((h₂ (hdone.mem e' he' ⟨_, hres _⟩)).trans (List.sublist_append_left _ _))

end Pool

/-! ## Memory -/

section Memory

variable {A V : Type} [DecidableEq A]

namespace MemCmd

/-- The cell that is read or written. -/
def addr : MemCmd A V → A
  | read a | write a _ => a

/-- Whether the cell is written. -/
def isWrite : MemCmd A V → Bool
  | read _ => false
  | write _ _ => true

/-- Two commands are for one cell, and one of them writes to it. -/
def Conflict (c c' : MemCmd A V) : Prop := c.addr = c'.addr ∧ (c.isWrite = true ∨ c'.isWrite = true)

/-- A memory that never makes anybody wait. -/
abbrev handler (c : MemCmd A V) (m : A → V) : Option (c.Ans × (A → V)) := some (c.exec m)

theorem swaps {x y : Act (MemCmd.Ans (A := A) (V := V))} (hc : ¬ x.cmd.Conflict y.cmd) :
    Swaps handler x y := by
  intro m m' ht
  obtain ⟨c, a⟩ := x
  obtain ⟨c', a'⟩ := y
  cases ht with
  | cons hx ht =>
    cases ht with
    | cons hy hnil =>
      cases hnil
      rename_i m₁
      cases c with
      | read b =>
        obtain ⟨rfl, rfl⟩ : m b = a ∧ m = m₁ := Prod.mk.inj (Option.some_inj.1 hx)
        cases c' with
        | read b' =>
          obtain ⟨rfl, rfl⟩ : m b' = a' ∧ m = m' := Prod.mk.inj (Option.some_inj.1 hy)
          exact .cons rfl (.single rfl)
        | write b' v' =>
          obtain ⟨-, rfl⟩ : () = a' ∧ Function.update m b' v' = m' :=
            Prod.mk.inj (Option.some_inj.1 hy)
          have hne : b ≠ b' := fun e ↦ hc ⟨e, Or.inr rfl⟩
          refine .cons rfl (.single ?_)
          have hb : Function.update m b' v' b = m b := Function.update_of_ne hne v' m
          exact congrArg (fun w ↦ some (w, Function.update m b' v')) hb
      | write b v =>
        obtain ⟨-, rfl⟩ : () = a ∧ Function.update m b v = m₁ := Prod.mk.inj (Option.some_inj.1 hx)
        cases c' with
        | read b' =>
          obtain ⟨rfl, rfl⟩ : Function.update m b v b' = a' ∧ Function.update m b v = m' :=
            Prod.mk.inj (Option.some_inj.1 hy)
          have hne : b ≠ b' := fun e ↦ hc ⟨e, Or.inl rfl⟩
          refine .cons ?_ (.single rfl)
          have hb : m b' = Function.update m b v b' :=
            (Function.update_of_ne (Ne.symm hne) v m).symm
          exact congrArg (fun w ↦ some (w, m)) hb
        | write b' v' =>
          obtain ⟨-, rfl⟩ : () = a' ∧ Function.update (Function.update m b v) b' v' = m' :=
            Prod.mk.inj (Option.some_inj.1 hy)
          have hne : b ≠ b' := fun e ↦ hc ⟨e, Or.inl rfl⟩
          refine .cons rfl (.single ?_)
          exact congrArg (fun w ↦ some ((), w)) (Function.update_comm hne v v' m).symm

end MemCmd

end Memory

end Machine
