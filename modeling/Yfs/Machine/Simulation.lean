import Yfs.Machine.Run

/-!
# A machine that does what another one does

A machine is described twice, once in detail and once as its users see it.  A step of the detailed
machine is a step of the other one, or several, or none that its users can see.  If related states
stay related, then every run of the detailed machine is a run of the other one (`run_simulation`),
and whose steps come in which order can be read off either of them.  If it is one step for one step,
the detailed machine can also follow the other one (`run_lockstep`).
-/

set_option autoImplicit false

namespace Machine

variable {S S' A A' : Type} {step : S → A → Option S} {step' : S' → A' → Option S'}
  {G : S → A → Prop} {R : S → S' → Prop}

/-- **Simulation.**  The steps that `a` can amount to on the second machine are among `see a`. -/
theorem run_simulation (see : A → List A')
    (hstep : ∀ s a s' u, R s u → G s a → step s a = some s' →
      ∃ (acts : List A') (u' : S'), acts.Sublist (see a) ∧ acts.foldlM step' u = some u' ∧
        R s' u') :
    ∀ (run : List A) (s s' : S) (u : S'), Along step G s run → R s u → run.foldlM step s = some s' →
      ∃ (run' : List A') (u' : S'), run'.Sublist (run.flatMap see) ∧ run'.foldlM step' u = some u' ∧
        R s' u'
  | [], s, s', u, _, hR, h => by
    obtain rfl : s = s' := by simpa using h
    exact ⟨[], u, List.Sublist.refl _, rfl, hR⟩
  | a :: run, s, s', u, hG, hR, h => by
    rw [List.foldlM_cons, Option.bind_eq_bind, Option.bind_eq_some_iff] at h
    obtain ⟨s₁, h₁, h⟩ := h
    obtain ⟨acts, u₁, hacts, hu₁, hR₁⟩ := hstep s a s₁ u hR hG.1 h₁
    obtain ⟨run', u', hrun', hu', hR'⟩ := run_simulation see hstep run s₁ s' u₁ (hG.2 s₁ h₁) hR₁ h
    refine ⟨acts ++ run', u', ?_, ?_, hR'⟩
    · rw [List.flatMap_cons]
      exact hacts.append hrun'
    · rw [List.foldlM_append, hu₁]
      exact hu'

/-- **Lockstep.**  If one machine can follow every step of the other, then it can follow every run,
and what holds of every step that it takes holds along the run. -/
theorem run_lockstep {step' : S' → A → Option S'} (G' : S' → A → Prop)
    (hstep : ∀ s a s' u, R s u → G s a → step s a = some s' →
      G' u a ∧ ∃ u', step' u a = some u' ∧ R s' u') :
    ∀ (run : List A) (s s' : S) (u : S'), Along step G s run → R s u → run.foldlM step s = some s' →
      Along step' G' u run ∧ ∃ u', run.foldlM step' u = some u' ∧ R s' u'
  | [], s, s', u, _, hR, h => by
    obtain rfl : s = s' := by simpa using h
    exact ⟨trivial, u, rfl, hR⟩
  | a :: run, s, s', u, hG, hR, h => by
    rw [List.foldlM_cons, Option.bind_eq_bind, Option.bind_eq_some_iff] at h
    obtain ⟨s₁, h₁, h⟩ := h
    obtain ⟨hG', u₁, hu₁, hR₁⟩ := hstep s a s₁ u hR hG.1 h₁
    obtain ⟨halong, u', hu', hR'⟩ := run_lockstep G' hstep run s₁ s' u₁ (hG.2 s₁ h₁) hR₁ h
    refine ⟨along_cons hu₁ hG' halong, u', ?_, hR'⟩
    rw [List.foldlM_cons, hu₁]
    exact hu'

end Machine
