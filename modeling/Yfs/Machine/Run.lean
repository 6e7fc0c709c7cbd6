import Mathlib.Data.List.Basic

/-!
# Runs of a deterministic machine

A machine is a function `step : S → A → Option S`: the state after an action, or `none` if the
action is impossible.  A run is a list of actions, and `run.foldlM step s` is the state it leads to.
All the nondeterminism of a concurrent system is in the choice of the actions.

Two induction rules: one for what holds along every run, one for what holds along the runs whose
steps all meet a condition.
-/

set_option autoImplicit false

namespace Machine

variable {S A : Type}

/-- The condition `G` holds at every step of the run. -/
def Along (step : S → A → Option S) (G : S → A → Prop) : S → List A → Prop
  | _, [] => True
  | s, a :: run => G s a ∧ ∀ s', step s a = some s' → Along step G s' run

variable {step : S → A → Option S} {G : S → A → Prop} {P : S → Prop}

/-- An invariant under the steps that meet a condition holds at the end of a run all of whose steps
meet it. -/
theorem along_induction (hstep : ∀ s a s', P s → G s a → step s a = some s' → P s') :
    ∀ (run : List A) (s s' : S), Along step G s run → P s → run.foldlM step s = some s' → P s'
  | [], s, s', _, hs, h => by
    obtain rfl : s = s' := by simpa using h
    exact hs
  | a :: run, s, s', hG, hs, h => by
    rw [List.foldlM_cons, Option.bind_eq_bind, Option.bind_eq_some_iff] at h
    obtain ⟨s₁, h₁, h⟩ := h
    exact along_induction hstep run s₁ s' (hG.2 s₁ h₁) (hstep s a s₁ hs hG.1 h₁) h

theorem along_cons {a : A} {run : List A} {s s' : S} (hs : step s a = some s') (hG : G s a)
    (h : Along step G s' run) : Along step G s (a :: run) := by
  refine ⟨hG, fun s₁ h₁ ↦ ?_⟩
  obtain rfl := Option.some_inj.1 (hs.symm.trans h₁)
  exact h

/-- What follows from an invariant holds at every step. -/
theorem along_of_invariant (hG : ∀ s a, P s → G s a)
    (hstep : ∀ s a s', P s → step s a = some s' → P s') {s : S} (hs : P s) (run : List A) :
    Along step G s run := by
  induction run generalizing s with
  | nil => trivial
  | cons a run ih => exact ⟨hG s a hs, fun s' h ↦ ih (hstep s a s' hs h)⟩

theorem Along.and {G' : S → A → Prop} {run : List A} {s : S} (h : Along step G s run)
    (h' : Along step G' s run) : Along step (fun s a ↦ G s a ∧ G' s a) s run := by
  induction run generalizing s with
  | nil => trivial
  | cons a run ih => exact ⟨⟨h.1, h'.1⟩, fun s' hs ↦ ih (h.2 s' hs) (h'.2 s' hs)⟩

/-- An invariant under the steps that meet a condition holds at all of them. -/
theorem Along.and_invariant (hstep : ∀ s a s', P s → G s a → step s a = some s' → P s')
    {run : List A} {s : S} (h : Along step G s run) (hs : P s) :
    Along step (fun s a ↦ G s a ∧ P s) s run := by
  induction run generalizing s with
  | nil => trivial
  | cons a run ih => exact ⟨⟨h.1, hs⟩, fun s' hs' ↦ ih (h.2 s' hs') (hstep s a s' hs h.1 hs')⟩

/-- Two conditions that agree on the steps that can be taken hold along the same runs.  The
invariant need only be kept by the steps that meet the second one. -/
theorem along_congr {G' : S → A → Prop} (hstep : ∀ s a s', P s → G' s a → step s a = some s' → P s')
    (hG : ∀ s a s', P s → step s a = some s' → (G s a ↔ G' s a)) :
    ∀ (run : List A) (s s' : S), P s → run.foldlM step s = some s' →
      (Along step G s run ↔ Along step G' s run)
  | [], _, _, _, _ => Iff.rfl
  | a :: run, s, s', hs, h => by
    rw [List.foldlM_cons, Option.bind_eq_bind, Option.bind_eq_some_iff] at h
    obtain ⟨s₁, h₁, h⟩ := h
    have hcond := hG s a s₁ hs h₁
    constructor
    · intro hall
      have hs₁ := hstep s a s₁ hs (hcond.1 hall.1) h₁
      exact along_cons h₁ (hcond.1 hall.1) ((along_congr hstep hG run s₁ s' hs₁ h).1 (hall.2 s₁ h₁))
    · intro hall
      have hs₁ := hstep s a s₁ hs hall.1 h₁
      exact along_cons h₁ (hcond.2 hall.1) ((along_congr hstep hG run s₁ s' hs₁ h).2 (hall.2 s₁ h₁))

/-- For a condition that can be decided, a run can be checked. -/
instance decidableAlong [∀ s a, Decidable (G s a)] :
    (s : S) → (run : List A) → Decidable (Along step G s run)
  | _, [] => isTrue trivial
  | s, a :: run =>
    match hs : step s a with
    | none =>
      decidable_of_iff (G s a) ⟨fun hG ↦ ⟨hG, fun s' h ↦ absurd (hs.symm.trans h) (by simp)⟩,
        And.left⟩
    | some s' =>
      have := decidableAlong s' run
      decidable_of_iff (G s a ∧ Along step G s' run)
        ⟨fun h ↦ ⟨h.1, fun s₁ h₁ ↦ Option.some_inj.1 (hs.symm.trans h₁) ▸ h.2⟩,
          fun h ↦ ⟨h.1, h.2 s' hs⟩⟩

theorem Along.mono {G' : S → A → Prop} (himp : ∀ s a, G s a → G' s a) {run : List A} {s : S}
    (h : Along step G s run) : Along step G' s run := by
  induction run generalizing s with
  | nil => trivial
  | cons a run ih => exact ⟨himp s a h.1, fun s' hs ↦ ih (h.2 s' hs)⟩

/-- Every run meets the trivial condition. -/
theorem along_true (s : S) (run : List A) : Along step (fun _ _ ↦ True) s run := by
  induction run generalizing s with
  | nil => trivial
  | cons a run ih => exact ⟨trivial, fun s' _ ↦ ih s'⟩

/-- An invariant holds at the end of every run. -/
theorem run_induction (hstep : ∀ s a s', P s → step s a = some s' → P s') {run : List A} {s s' : S}
    (hs : P s) (h : run.foldlM step s = some s') : P s' :=
  along_induction (fun s a s' hs _ ↦ hstep s a s' hs) run s s' (along_true s run) hs h

/-! ## Where a run can lead -/

/-- The machine can get from one state to another by steps that meet a condition. -/
def Leads (step : S → A → Option S) (G : S → A → Prop) (s s' : S) : Prop :=
  ∃ run, run.foldlM step s = some s' ∧ Along step G s run

namespace Leads

theorem refl (s : S) : Leads step G s s := ⟨[], rfl, trivial⟩

theorem head {a : A} {s s' s'' : S} (hs : step s a = some s') (hG : G s a)
    (h : Leads step G s' s'') : Leads step G s s'' := by
  obtain ⟨run, hrun, halong⟩ := h
  exact ⟨a :: run, by rw [List.foldlM_cons, hs]; exact hrun, along_cons hs hG halong⟩

theorem trans {s s' s'' : S} (h : Leads step G s s') (h' : Leads step G s' s'') :
    Leads step G s s'' := by
  obtain ⟨run, hrun, halong⟩ := h
  induction run generalizing s with
  | nil =>
    obtain rfl : s = s' := by simpa using hrun
    exact h'
  | cons a run ih =>
    rw [List.foldlM_cons, Option.bind_eq_bind, Option.bind_eq_some_iff] at hrun
    obtain ⟨s₁, hs, hrun⟩ := hrun
    exact head hs halong.1 (ih hrun (halong.2 s₁ hs))

end Leads

/-! ## What a run brings about -/

/-- Everything that is seen in the steps of a run, in order. -/
def observe {X : Type} (step : S → A → Option S) (see : S → A → S → List X) : S → List A → List X
  | _, [] => []
  | s, a :: run =>
    match step s a with
    | none => []
    | some s' => see s a s' ++ observe step see s' run

/-- **First in, first out.**  If every step takes from the front of a line what goes out in it, and
puts at the back what comes in, then a run that starts with an empty line lets out the first of
those it has let in, in the same order. -/
theorem fifo {X : Type} {enter leave : S → A → S → List X} {line : S → List X}
    (hstep : ∀ s a s', P s → step s a = some s' → P s')
    (hline : ∀ s a s', P s → step s a = some s' →
      line s ++ enter s a s' = leave s a s' ++ line s') :
    ∀ (run : List A) (s s' : S), P s → run.foldlM step s = some s' →
      line s ++ observe step enter s run = observe step leave s run ++ line s'
  | [], s, s', _, h => by
    obtain rfl : s = s' := by simpa using h
    simp [observe]
  | a :: run, s, s', hs, h => by
    rw [List.foldlM_cons, Option.bind_eq_bind, Option.bind_eq_some_iff] at h
    obtain ⟨s₁, h₁, h⟩ := h
    have ih := fifo hstep hline run s₁ s' (hstep s a s₁ hs h₁) h
    simp only [observe, h₁]
    rw [← List.append_assoc, hline s a s₁ hs h₁, List.append_assoc, ih, List.append_assoc]

end Machine
