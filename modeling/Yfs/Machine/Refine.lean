import Yfs.Machine.Prog

/-!
# One program on two machines

A program is executed by a handler `h` with states `S`, and by a handler `g` with states `T` that
does the same things in more detail.  If every command that `h` answers is answered by `g`, from
related states and with related states after it, then the program ends in the same way on both
machines (`eval_simulation`).

Two things make this useful for handlers that do not quite agree.  The answers need not be equal: it
is enough if the program cannot tell one from the other (`Respects`).  And the commands that `g`
answers may be fewer, as long as the program does not issue the others (`Always`).  If the program
passes on what it cannot tell apart, its results are not equal either, but they look the same
(`Related`, `eval_related`).
-/

set_option autoImplicit false

namespace Machine
namespace Prog

variable {Cmd : Type} {Ans : Cmd → Type} {E S T α β : Type}

/-! ## Commands that are issued -/

/-- Whatever command the program comes to issue when it is executed alone, `P` holds of it and of
the state that it finds. -/
def Always (h : (c : Cmd) → S → Option (Ans c × S)) (P : Cmd → S → Prop) :
    Prog Cmd Ans E α → S → Prop
  | .pure _, _ => True
  | .throw _, _ => True
  | .call c k, s => P c s ∧ ∀ a s', h c s = some (a, s') → (k a).Always h P s'

variable {h : (c : Cmd) → S → Option (Ans c × S)} {P : Cmd → S → Prop} {s s' : S}

theorem always_ask_bind {c : Cmd} {f : Ans c → Prog Cmd Ans E β} (hc : P c s)
    (hf : ∀ a s', h c s = some (a, s') → (f a).Always h P s') : (ask c >>= f).Always h P s :=
  ⟨hc, hf⟩

theorem Always.bind {p : Prog Cmd Ans E α} {f : α → Prog Cmd Ans E β} (hp : p.Always h P s)
    (hf : ∀ a s', p.eval h s = some (.ok a, s') → (f a).Always h P s') :
    (p >>= f).Always h P s := by
  induction p generalizing s with
  | pure a => exact hf a s rfl
  | throw e => trivial
  | call c k ih =>
    refine ⟨hp.1, fun a s' hc ↦ ih a (hp.2 a s' hc) fun b s'' hb ↦ hf b s'' ?_⟩
    rw [eval, hc]
    exact hb

theorem Always.map {p : Prog Cmd Ans E α} (hp : p.Always h P s) (f : α → β) :
    (f <$> p).Always h P s :=
  hp.bind fun _ _ _ ↦ trivial

/-- What every command keeps, the program keeps. -/
theorem Always.eval_induction {I : S → Prop} {p : Prog Cmd Ans E α} {o : Except E α}
    (hI : ∀ {c s a s'}, P c s → I s → h c s = some (a, s') → I s') (hp : p.Always h P s)
    (hs : I s) (he : p.eval h s = some (o, s')) : I s' := by
  induction p generalizing s with
  | pure a => exact (Prod.mk.inj (Option.some_inj.1 he)).2 ▸ hs
  | throw e => exact (Prod.mk.inj (Option.some_inj.1 he)).2 ▸ hs
  | call c k ih =>
    obtain ⟨⟨a, s₁⟩, hc, hk⟩ := Option.bind_eq_some_iff.1 he
    exact ih a (hp.2 a s₁ hc) (hI hp.1 hs hc) hk

instance decidableAlways [∀ c s, Decidable (P c s)] :
    (p : Prog Cmd Ans E α) → (s : S) → Decidable (p.Always h P s)
  | .pure _, _ | .throw _, _ => isTrue trivial
  | .call c k, s =>
    match hc : h c s with
    | none => decidable_of_iff (P c s)
      ⟨fun hP ↦ ⟨hP, fun a s' h' ↦ absurd (hc.symm.trans h') (by simp)⟩, And.left⟩
    | some (a, s') =>
      have := decidableAlways (k a) s'
      decidable_of_iff (P c s ∧ (k a).Always h P s')
        ⟨fun hP ↦ ⟨hP.1, fun a₁ s₁ h₁ ↦ by
          obtain ⟨rfl, rfl⟩ := Prod.mk.inj (Option.some_inj.1 (hc.symm.trans h₁))
          exact hP.2⟩, fun hP ↦ ⟨hP.1, hP.2 a s' hc⟩⟩

/-! ## Answers that look the same -/

/-- The program does not tell related answers apart. -/
def Respects (R : (c : Cmd) → Ans c → Ans c → Prop) : Prog Cmd Ans E α → Prop
  | .pure _ => True
  | .throw _ => True
  | .call c k => (∀ a b, R c a b → k a = k b) ∧ ∀ a, (k a).Respects R

variable {R : (c : Cmd) → Ans c → Ans c → Prop}

theorem respects_ask_bind {c : Cmd} {f : Ans c → Prog Cmd Ans E β}
    (heq : ∀ a b, R c a b → f a = f b) (hf : ∀ a, (f a).Respects R) : (ask c >>= f).Respects R :=
  ⟨heq, hf⟩

theorem Respects.bind {p : Prog Cmd Ans E α} {f : α → Prog Cmd Ans E β} (hp : p.Respects R)
    (hf : ∀ a, (f a).Respects R) : (p >>= f).Respects R := by
  induction p with
  | pure a => exact hf a
  | throw e => trivial
  | call c k ih => exact ⟨fun a b hab ↦ congrArg (· >>= f) (hp.1 a b hab), fun a ↦ ih a (hp.2 a)⟩

theorem Respects.map {p : Prog Cmd Ans E α} (hp : p.Respects R) (f : α → β) :
    (f <$> p).Respects R :=
  hp.bind fun _ ↦ trivial

/-! ## Simulation -/

/-- **The same outcome on both machines.** -/
theorem eval_simulation {g : (c : Cmd) → T → Option (Ans c × T)} {Q : S → T → Prop}
    (hstep : ∀ {c s t a s'}, P c s → Q s t → h c s = some (a, s') →
      ∃ b t', g c t = some (b, t') ∧ R c a b ∧ Q s' t')
    {p : Prog Cmd Ans E α} (hp : p.Respects R) {t : T} {o : Except E α} (ha : p.Always h P s)
    (hQ : Q s t) (he : p.eval h s = some (o, s')) : ∃ t', p.eval g t = some (o, t') ∧ Q s' t' := by
  induction p generalizing s t with
  | pure a =>
    obtain ⟨rfl, rfl⟩ := Prod.mk.inj (Option.some_inj.1 he)
    exact ⟨t, rfl, hQ⟩
  | throw e =>
    obtain ⟨rfl, rfl⟩ := Prod.mk.inj (Option.some_inj.1 he)
    exact ⟨t, rfl, hQ⟩
  | call c k ih =>
    obtain ⟨⟨a, s₁⟩, hc, hk⟩ := Option.bind_eq_some_iff.1 he
    obtain ⟨b, t₁, hg, hab, hQ₁⟩ := hstep ha.1 hQ hc
    obtain ⟨t', ht', hQ'⟩ := ih a (hp.2 a) (ha.2 a s₁ hc) hQ₁ hk
    refine ⟨t', ?_, hQ'⟩
    rw [eval, hg, Option.bind_some, ← hp.1 a b hab]
    exact ht'

/-- **A program that is stuck on the second machine.**  If a command is fatal there, then a program
that comes to issue it on the first one does not get any further on the second. -/
theorem eval_eq_none_of_issues {g : (c : Cmd) → T → Option (Ans c × T)} {Q : S → T → Prop}
    {F : Cmd → S → Prop}
    (hstep : ∀ {c s t a s'}, P c s → Q s t → h c s = some (a, s') →
      ∃ b t', g c t = some (b, t') ∧ R c a b ∧ Q s' t')
    (hfatal : ∀ {c s t}, F c s → Q s t → g c t = none)
    {p : Prog Cmd Ans E α} (hp : p.Respects R) {t : T} {n : Nat} {c : Cmd}
    {k : Ans c → Prog Cmd Ans E α} {s₁ : S} (ha : p.Always h (fun c s ↦ P c s ∨ F c s) s)
    (hQ : Q s t) (hi : Issues h n p s c k s₁) (hF : F c s₁) : p.eval g t = none := by
  induction hi generalizing t with
  | here c k s => rw [eval, hfatal hF hQ, Option.bind_none]
  | @later _ c₀ _ _ _ _ _ _ a hc _ ih =>
    rcases ha.1 with hP | hF₀
    · obtain ⟨b, t₁, hg, hab, hQ₁⟩ := hstep hP hQ hc
      rw [eval, hg, Option.bind_some, ← hp.1 a b hab]
      exact ih (hp.2 a) (ha.2 a _ hc) hQ₁ hF
    · rw [eval, hfatal hF₀ hQ, Option.bind_none]

/-! ## Results that look the same -/

/-- Programs that issue the same commands as long as the answers look the same, and have results
that are related. -/
inductive Related (R : (c : Cmd) → Ans c → Ans c → Prop) (O : α → α → Prop) :
    Prog Cmd Ans E α → Prog Cmd Ans E α → Prop
  | pure {a b : α} (hO : O a b) : Related R O (.pure a) (.pure b)
  | throw (e : E) : Related R O (.throw e) (.throw e)
  | call (c : Cmd) {k k' : Ans c → Prog Cmd Ans E α}
      (hk : ∀ a b, R c a b → Related R O (k a) (k' b)) :
    Related R O (.call c k) (.call c k')

variable {O : α → α → Prop} {O' : β → β → Prop}

theorem Related.ask_bind {c : Cmd} {f f' : Ans c → Prog Cmd Ans E β}
    (hf : ∀ a b, R c a b → Related R O' (f a) (f' b)) : Related R O' (ask c >>= f) (ask c >>= f') :=
  .call c hf

theorem Related.bind {p p' : Prog Cmd Ans E α} {f f' : α → Prog Cmd Ans E β} (hp : Related R O p p')
    (hf : ∀ a b, O a b → Related R O' (f a) (f' b)) : Related R O' (p >>= f) (p' >>= f') := by
  induction hp with
  | pure hO => exact hf _ _ hO
  | throw e => exact .throw e
  | call c _ ih => exact .call c ih

/-- A program that does not tell answers apart is related to itself, and so is what follows it. -/
theorem Respects.related_bind {p : Prog Cmd Ans E α} {f f' : α → Prog Cmd Ans E β}
    (hp : p.Respects R)
    (hf : ∀ a, Related R O' (f a) (f' a)) : Related R O' (p >>= f) (p >>= f') := by
  induction p with
  | pure a => exact hf a
  | throw e => exact .throw e
  | call c k ih =>
    refine .call c fun a b hab ↦ ?_
    rw [← hp.1 a b hab]
    exact ih a (hp.2 a)

/-- **The same outcome on both machines**, up to what results look like. -/
theorem eval_related {g : (c : Cmd) → T → Option (Ans c × T)} {Q : S → T → Prop}
    (hstep : ∀ {c s t a s'}, P c s → Q s t → h c s = some (a, s') →
      ∃ b t', g c t = some (b, t') ∧ R c a b ∧ Q s' t')
    {p p' : Prog Cmd Ans E α} (hp : Related R O p p') {t : T} {a : α} (ha : p.Always h P s)
    (hQ : Q s t) (he : p.eval h s = some (.ok a, s')) :
    ∃ b t', p'.eval g t = some (.ok b, t') ∧ O a b ∧ Q s' t' := by
  induction hp generalizing s t with
  | pure hO =>
    obtain ⟨ha, rfl⟩ := Prod.mk.inj (Option.some_inj.1 he)
    obtain rfl := Except.ok.inj ha
    exact ⟨_, t, rfl, hO, hQ⟩
  | throw e => exact absurd (Prod.mk.inj (Option.some_inj.1 he)).1 (by simp)
  | call c _ ih =>
    obtain ⟨⟨x, s₁⟩, hc, hk⟩ := Option.bind_eq_some_iff.1 he
    obtain ⟨y, t₁, hg, hxy, hQ₁⟩ := hstep ha.1 hQ hc
    obtain ⟨b, t', ht', hO, hQ'⟩ := ih x y hxy (ha.2 x s₁ hc) hQ₁ hk
    refine ⟨b, t', ?_, hO, hQ'⟩
    rw [eval, hg]
    exact ht'

/-- What is known of the commands on the first machine can be said of those on the second. -/
theorem Related.always {g : (c : Cmd) → T → Option (Ans c × T)} {Q : S → T → Prop}
    {P' : Cmd → T → Prop}
    (hstep : ∀ {c s t a s'}, P c s → Q s t → h c s = some (a, s') →
      ∃ b t', g c t = some (b, t') ∧ R c a b ∧ Q s' t')
    (hP' : ∀ {c s t}, P c s → Q s t → P' c t) {p p' : Prog Cmd Ans E α} (hp : Related R O p p')
    {t : T} {o : Except E α} (ha : p.Always h P s) (hQ : Q s t) (he : p.eval h s = some (o, s')) :
    p'.Always g P' t := by
  induction hp generalizing s t with
  | pure hO => trivial
  | throw e => trivial
  | call c _ ih =>
    obtain ⟨⟨x, s₁⟩, hc, hk⟩ := Option.bind_eq_some_iff.1 he
    refine ⟨hP' ha.1 hQ, fun y t₁ hg ↦ ?_⟩
    obtain ⟨y', t₁', hg', hxy, hQ₁⟩ := hstep ha.1 hQ hc
    obtain ⟨rfl, rfl⟩ := Prod.mk.inj (Option.some_inj.1 (hg.symm.trans hg'))
    exact ih x _ hxy (ha.2 x s₁ hc) hQ₁ hk

end Prog
end Machine
