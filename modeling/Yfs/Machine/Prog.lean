import Mathlib.Logic.Function.Basic

/-!
# Programs that issue commands

`Prog Cmd Ans E α` is a program that issues commands from `Cmd`, one at a time, goes on with the
answer to each, and ends with a value of type `α` or a fault from `E`.  A program is only its text;
what a command does is up to whoever executes it.

* `Prog.run` executes a program alone: every command is answered at once by a handler that keeps a
  state.  The lemmas about `run` are the usual rules for sequencing.
* `Prog.eval` does so where a command may have to wait, and says what state a fault leaves behind;
  `Prog.evalAll` executes one program after another.

`MemCmd A V` is the set of commands of a memory with addresses `A` and cells of type `V`.
-/

set_option autoImplicit false

namespace Machine

/-- A program. -/
inductive Prog (Cmd : Type) (Ans : Cmd → Type) (E α : Type) where
  /-- The end of the program. -/
  | pure (a : α)
  /-- The program has crashed. -/
  | throw (e : E)
  /-- Issue a command and go on with the answer. -/
  | call (c : Cmd) (k : Ans c → Prog Cmd Ans E α)

namespace Prog

variable {Cmd : Type} {Ans : Cmd → Type} {E S α β : Type}

/-- One program after another. -/
protected def bind (p : Prog Cmd Ans E α) (f : α → Prog Cmd Ans E β) : Prog Cmd Ans E β :=
  match p with
  | .pure a => f a
  | .throw e => .throw e
  | .call c k => .call c fun a ↦ (k a).bind f

instance : Monad (Prog Cmd Ans E) where
  pure := .pure
  bind := .bind

/-- The program that issues one command. -/
def ask (c : Cmd) : Prog Cmd Ans E (Ans c) := .call c .pure

/-- The command that a program issues next. -/
def next : Prog Cmd Ans E α → Option Cmd
  | .call c _ => some c
  | _ => none

/-- Execute a program alone. -/
def run (h : (c : Cmd) → S → Ans c × S) : Prog Cmd Ans E α → S → Except E (α × S)
  | .pure a, s => .ok (a, s)
  | .throw e, _ => .error e
  | .call c k, s => (k (h c s).1).run h (h c s).2

variable {h : (c : Cmd) → S → Ans c × S} {s s' : S} {a : α}

@[simp] theorem run_pure : (Pure.pure a : Prog Cmd Ans E α).run h s = .ok (a, s) := rfl

@[simp] theorem run_throw (e : E) : (throw e : Prog Cmd Ans E α).run h s = .error e := rfl

@[simp] theorem run_ask (c : Cmd) : (ask c : Prog Cmd Ans E (Ans c)).run h s = .ok (h c s) := rfl

/-- Sequencing. -/
theorem run_bind (p : Prog Cmd Ans E α) (f : α → Prog Cmd Ans E β) (s : S) :
    (p >>= f).run h s = (p.run h s).bind fun r ↦ (f r.1).run h r.2 := by
  induction p generalizing s with
  | pure a => rfl
  | throw e => rfl
  | call c k ih => exact ih (h c s).1 (h c s).2

/-- The first part ends well, and the second goes on from there. -/
theorem run_bind_ok {p : Prog Cmd Ans E α} {f : α → Prog Cmd Ans E β}
    (hp : p.run h s = .ok (a, s')) : (p >>= f).run h s = (f a).run h s' := by
  rw [run_bind, hp]
  rfl

/-- A sequence that ends well consists of two parts that do. -/
theorem run_bind_eq_ok {p : Prog Cmd Ans E α} {f : α → Prog Cmd Ans E β} {b : β} :
    (p >>= f).run h s = .ok (b, s') ↔
      ∃ a s₁, p.run h s = .ok (a, s₁) ∧ (f a).run h s₁ = .ok (b, s') := by
  rw [run_bind]
  cases hp : p.run h s with
  | error e => simp [Except.bind]
  | ok r =>
    refine ⟨fun h ↦ ⟨r.1, r.2, rfl, h⟩, ?_⟩
    rintro ⟨a, s₁, he, hf⟩
    obtain rfl := Except.ok.inj he
    exact hf

/-- A sequence that crashes does so in the first part, or in the second. -/
theorem run_bind_eq_error {p : Prog Cmd Ans E α} {f : α → Prog Cmd Ans E β} {e : E} :
    (p >>= f).run h s = .error e ↔
      p.run h s = .error e ∨ ∃ a s₁, p.run h s = .ok (a, s₁) ∧ (f a).run h s₁ = .error e := by
  rw [run_bind]
  cases p.run h s with
  | error e' => simp [Except.bind]
  | ok r =>
    refine ⟨fun h ↦ Or.inr ⟨r.1, r.2, rfl, h⟩, ?_⟩
    rintro (he | ⟨a, s₁, he, hf⟩)
    · exact absurd he (by simp)
    · obtain rfl := Except.ok.inj he
      exact hf

@[simp] theorem run_ask_bind (c : Cmd) (f : Ans c → Prog Cmd Ans E β) :
    (ask c >>= f).run h s = (f (h c s).1).run h (h c s).2 := rfl

@[simp] theorem run_map (p : Prog Cmd Ans E α) (f : α → β) :
    (f <$> p).run h s = (p.run h s).map fun r ↦ (f r.1, r.2) := by
  change (p >>= fun a ↦ Pure.pure (f a)).run h s = _
  rw [run_bind]
  cases p.run h s <;> rfl

/-- A program that does not crash, whatever it is answered. -/
def Total : Prog Cmd Ans E α → Prop
  | .pure _ => True
  | .throw _ => False
  | .call _ k => ∀ a, (k a).Total

theorem total_ask (c : Cmd) : (ask c : Prog Cmd Ans E (Ans c)).Total := fun _ ↦ trivial

theorem Total.bind {p : Prog Cmd Ans E α} {f : α → Prog Cmd Ans E β} (hp : p.Total)
    (hf : ∀ a, (f a).Total) : (p >>= f).Total := by
  induction p with
  | pure a => exact hf a
  | throw e => exact hp.elim
  | call c k ih => exact fun a ↦ ih a (hp a)

theorem Total.exists_run {p : Prog Cmd Ans E α} (hp : p.Total) (h : (c : Cmd) → S → Ans c × S)
    (s : S) : ∃ a s', p.run h s = .ok (a, s') := by
  induction p generalizing s with
  | pure a => exact ⟨a, s, rfl⟩
  | throw e => exact hp.elim
  | call c k ih => exact ih _ (hp _) _

/-! ### Commands that may have to wait -/

/-- A program that has come to its end. -/
def ofExcept : Except E α → Prog Cmd Ans E α
  | .ok a => .pure a
  | .error e => .throw e

/-- Execute a program alone; `none` if a command waits for ever. -/
def eval (h : (c : Cmd) → S → Option (Ans c × S)) :
    Prog Cmd Ans E α → S → Option (Except E α × S)
  | .pure a, s => some (.ok a, s)
  | .throw e, s => some (.error e, s)
  | .call c k, s => (h c s).bind fun r ↦ (k r.1).eval h r.2

/-- Execute programs one after another. -/
def evalAll (h : (c : Cmd) → S → Option (Ans c × S)) :
    List (Prog Cmd Ans E α) → S → Option (List (Except E α) × S)
  | [], s => some ([], s)
  | p :: ps, s => do
    let (o, s₁) ← p.eval h s
    let (os, s₂) ← evalAll h ps s₁
    some (o :: os, s₂)

theorem eval_ofExcept (h : (c : Cmd) → S → Option (Ans c × S)) (o : Except E α) (s : S) :
    (ofExcept o : Prog Cmd Ans E α).eval h s = some (o, s) := by
  cases o <;> rfl

theorem evalAll_cons {h : (c : Cmd) → S → Option (Ans c × S)} {p : Prog Cmd Ans E α}
    {ps : List (Prog Cmd Ans E α)} {s s' : S} {os : List (Except E α)} :
    evalAll h (p :: ps) s = some (os, s') ↔ ∃ o os' s₁, p.eval h s = some (o, s₁) ∧
      evalAll h ps s₁ = some (os', s') ∧ os = o :: os' := by
  simp only [evalAll, Option.bind_eq_bind, Option.bind_eq_some_iff, Prod.exists]
  constructor
  · rintro ⟨o, s₁, h₁, os', s₂, h₂, he⟩
    obtain ⟨rfl, rfl⟩ := Prod.mk.inj (Option.some_inj.1 he)
    exact ⟨o, os', s₁, h₁, h₂, rfl⟩
  · rintro ⟨o, os', s₁, h₁, h₂, rfl⟩
    exact ⟨o, s₁, h₁, os', s', h₂, rfl⟩

theorem evalAll_append {h : (c : Cmd) → S → Option (Ans c × S)} {ps ps' : List (Prog Cmd Ans E α)}
    {s s₁ s' : S} {os os' : List (Except E α)} (h₁ : evalAll h ps s = some (os, s₁))
    (h₂ : evalAll h ps' s₁ = some (os', s')) :
    evalAll h (ps ++ ps') s = some (os ++ os', s') := by
  induction ps generalizing s os with
  | nil =>
    obtain ⟨rfl, rfl⟩ := Prod.mk.inj (Option.some_inj.1 h₁)
    exact h₂
  | cons p ps ih =>
    obtain ⟨o, os₁, s₂, hp, hps, rfl⟩ := evalAll_cons.1 h₁
    exact evalAll_cons.2 ⟨o, _, s₂, hp, ih hps, rfl⟩

/-- Sequencing. -/
theorem eval_bind (h : (c : Cmd) → S → Option (Ans c × S)) (p : Prog Cmd Ans E α)
    (f : α → Prog Cmd Ans E β) (s : S) :
    (p >>= f).eval h s = (p.eval h s).bind fun r ↦
      match r.1 with
      | .ok a => (f a).eval h r.2
      | .error e => some (.error e, r.2) := by
  induction p generalizing s with
  | pure a => rfl
  | throw e => rfl
  | call c k ih =>
    change ((h c s).bind fun r ↦ (k r.1 >>= f).eval h r.2) = _
    simp only [eval, Option.bind_assoc, ih]

/-- A sequence that ends well consists of two parts that do. -/
theorem eval_bind_eq_ok {h : (c : Cmd) → S → Option (Ans c × S)} {p : Prog Cmd Ans E α}
    {f : α → Prog Cmd Ans E β} {s s' : S} {b : β} :
    (p >>= f).eval h s = some (.ok b, s') ↔
      ∃ a s₁, p.eval h s = some (.ok a, s₁) ∧ (f a).eval h s₁ = some (.ok b, s') := by
  rw [eval_bind, Option.bind_eq_some_iff]
  constructor
  · rintro ⟨⟨o, s₁⟩, hp, hf⟩
    cases o with
    | ok a => exact ⟨a, s₁, hp, hf⟩
    | error e => exact absurd hf (by simp)
  · rintro ⟨a, s₁, hp, hf⟩
    exact ⟨_, hp, hf⟩

/-- A sequence that crashes does so in the first part, or in the second. -/
theorem eval_bind_eq_error {h : (c : Cmd) → S → Option (Ans c × S)} {p : Prog Cmd Ans E α}
    {f : α → Prog Cmd Ans E β} {s s' : S} {e : E} :
    (p >>= f).eval h s = some (.error e, s') ↔ p.eval h s = some (.error e, s') ∨
      ∃ a s₁, p.eval h s = some (.ok a, s₁) ∧ (f a).eval h s₁ = some (.error e, s') := by
  rw [eval_bind, Option.bind_eq_some_iff]
  constructor
  · rintro ⟨⟨o, s₁⟩, hp, hf⟩
    cases o with
    | ok a => exact Or.inr ⟨a, s₁, hp, hf⟩
    | error e' =>
      obtain ⟨he, rfl⟩ := Prod.mk.inj (Option.some_inj.1 hf)
      exact Or.inl (by rw [hp, Except.error.inj he])
  · rintro (hp | ⟨a, s₁, hp, hf⟩)
    · exact ⟨_, hp, rfl⟩
    · exact ⟨_, hp, hf⟩

theorem eval_ask_bind_eq_ok {h : (c : Cmd) → S → Option (Ans c × S)} {c : Cmd}
    {f : Ans c → Prog Cmd Ans E β} {s s' : S} {b : β} :
    (ask c >>= f).eval h s = some (.ok b, s') ↔
      ∃ a s₁, h c s = some (a, s₁) ∧ (f a).eval h s₁ = some (.ok b, s') := by
  change ((h c s).bind fun r ↦ (f r.1).eval h r.2) = _ ↔ _
  rw [Option.bind_eq_some_iff, Prod.exists]

/-- When a program is executed alone, it comes to issue this command after `n` others; `k` is what
it does with the answer, and `s₁` is the state it finds. -/
inductive Issues (h : (c : Cmd) → S → Option (Ans c × S)) {α : Type} :
    Nat → Prog Cmd Ans E α → S → (c : Cmd) → (Ans c → Prog Cmd Ans E α) → S → Prop
  | here (c : Cmd) (k : Ans c → Prog Cmd Ans E α) (s : S) : Issues h 0 (.call c k) s c k s
  | later {n : Nat} {c c' : Cmd} {k : Ans c → Prog Cmd Ans E α} {k' : Ans c' → Prog Cmd Ans E α}
      {s s' s₁ : S} {a : Ans c} (hc : h c s = some (a, s')) (hk : Issues h n (k a) s' c' k' s₁) :
      Issues h (n + 1) (.call c k) s c' k' s₁

/-- How many commands a program issues when it is executed alone. -/
def steps (h : (c : Cmd) → S → Option (Ans c × S)) : Prog Cmd Ans E α → S → Nat
  | .pure _, _ | .throw _, _ => 0
  | .call c k, s => (h c s).elim 0 fun r ↦ (k r.1).steps h r.2 + 1

theorem steps_bind {h : (c : Cmd) → S → Option (Ans c × S)} {p : Prog Cmd Ans E α}
    {f : α → Prog Cmd Ans E β} {s s' : S} {a : α} (hp : p.eval h s = some (.ok a, s')) :
    (p >>= f).steps h s = p.steps h s + (f a).steps h s' := by
  induction p generalizing s with
  | pure b =>
    obtain ⟨he, rfl⟩ := Prod.mk.inj (Option.some_inj.1 hp)
    obtain rfl := Except.ok.inj he
    exact (Nat.zero_add _).symm
  | throw e => exact absurd (Prod.mk.inj (Option.some_inj.1 hp)).1 (by simp)
  | call c k ih =>
    obtain ⟨⟨b, s₂⟩, hc, he⟩ := Option.bind_eq_some_iff.1 hp
    change (h c s).elim 0 (fun r ↦ (k r.1 >>= f).steps h r.2 + 1) = _
    rw [steps, hc, Option.elim_some, Option.elim_some, ih b he, Nat.add_right_comm]

/-- A command of a sequence is one of the first part, or of the second after the first has ended. -/
theorem Issues.bind_cases {h : (c : Cmd) → S → Option (Ans c × S)} {n : Nat}
    {p : Prog Cmd Ans E α} {f : α → Prog Cmd Ans E β} {s s₁ : S} {c : Cmd}
    {k : Ans c → Prog Cmd Ans E β} (hi : Issues h n (p >>= f) s c k s₁) :
    (∃ k', Issues h n p s c k' s₁ ∧ k = fun a ↦ k' a >>= f) ∨
      ∃ a s' m, p.eval h s = some (.ok a, s') ∧ n = p.steps h s + m ∧
        Issues h m (f a) s' c k s₁ := by
  induction p generalizing s n with
  | pure a => exact Or.inr ⟨a, s, n, rfl, (Nat.zero_add n).symm, hi⟩
  | throw e => cases hi
  | call c₀ k₀ ih =>
    cases hi with
    | here => exact Or.inl ⟨k₀, .here _ k₀ _, rfl⟩
    | later hc hk =>
      rcases ih _ hk with ⟨k', hk', rfl⟩ | ⟨a, s', m, ha, rfl, hk'⟩
      · exact Or.inl ⟨k', .later hc hk', rfl⟩
      · refine Or.inr ⟨a, s', m, by rw [eval, hc]; exact ha, ?_, hk'⟩
        rw [steps, hc]
        exact Nat.add_right_comm _ _ _

theorem Issues.bind {h : (c : Cmd) → S → Option (Ans c × S)} {n : Nat} {p : Prog Cmd Ans E α}
    {s s₁ : S} {c : Cmd} {k : Ans c → Prog Cmd Ans E α} (hi : Issues h n p s c k s₁)
    (f : α → Prog Cmd Ans E β) : Issues h n (p >>= f) s c (fun a ↦ k a >>= f) s₁ := by
  induction hi with
  | here c k s => exact .here c (fun a ↦ k a >>= f) s
  | later hc _ ih => exact .later hc ih

theorem Issues.after {h : (c : Cmd) → S → Option (Ans c × S)} {m : Nat} {p : Prog Cmd Ans E α}
    {f : α → Prog Cmd Ans E β} {s s' s₁ : S} {c : Cmd} {k : Ans c → Prog Cmd Ans E β} {a : α}
    (hi : Issues h m (f a) s' c k s₁) (hp : p.eval h s = some (.ok a, s')) :
    Issues h (m + p.steps h s) (p >>= f) s c k s₁ := by
  induction p generalizing s with
  | pure b =>
    obtain ⟨he, rfl⟩ := Prod.mk.inj (Option.some_inj.1 hp)
    obtain rfl := Except.ok.inj he
    exact hi
  | throw e => exact absurd (Prod.mk.inj (Option.some_inj.1 hp)).1 (by simp)
  | call c₀ k₀ ih =>
    obtain ⟨⟨b, s₂⟩, hc, he⟩ := Option.bind_eq_some_iff.1 hp
    rw [steps, hc]
    exact .later hc (ih b he)

/-- A program is stuck if and only if it comes to a command that is. -/
theorem eval_eq_none_iff {h : (c : Cmd) → S → Option (Ans c × S)} {p : Prog Cmd Ans E α} {s : S} :
    p.eval h s = none ↔ ∃ n c k s₁, Issues h n p s c k s₁ ∧ h c s₁ = none := by
  induction p generalizing s with
  | pure a =>
    refine ⟨fun he ↦ absurd he (by simp [eval]), ?_⟩
    rintro ⟨n, c, k, s₁, hi, -⟩
    cases hi
  | throw e =>
    refine ⟨fun he ↦ absurd he (by simp [eval]), ?_⟩
    rintro ⟨n, c, k, s₁, hi, -⟩
    cases hi
  | call c k ih =>
    constructor
    · intro he
      cases hc : h c s with
      | none => exact ⟨0, c, k, s, .here c k s, hc⟩
      | some r =>
        rw [eval, hc] at he
        obtain ⟨n, c', k', s₁, hi, hnone⟩ := (ih r.1).1 he
        exact ⟨n + 1, c', k', s₁, .later hc hi, hnone⟩
    · rintro ⟨n, c', k', s₁, hi, hnone⟩
      cases hi with
      | here => rw [eval, hnone]; rfl
      | later hc hk =>
        rw [eval, hc]
        exact (ih _).2 ⟨_, c', k', s₁, hk, hnone⟩

/-- Where no command has to wait, `eval` is `run`. -/
theorem run_of_eval {g : (c : Cmd) → S → Ans c × S} {p : Prog Cmd Ans E α} {s s' : S} {a : α}
    (hp : p.eval (fun c s ↦ some (g c s)) s = some (.ok a, s')) : p.run g s = .ok (a, s') := by
  induction p generalizing s with
  | pure b =>
    obtain ⟨he, rfl⟩ := Prod.mk.inj (Option.some_inj.1 hp)
    rw [← Except.ok.inj he]
    rfl
  | throw e => exact absurd (Prod.mk.inj (Option.some_inj.1 hp)).1 (by simp)
  | call c k ih => exact ih _ hp

end Prog

/-! ## Memory -/

/-- Read a cell or write one. -/
inductive MemCmd (A V : Type) where
  | read (a : A)
  | write (a : A) (v : V)

/-- What a memory answers. -/
@[reducible] def MemCmd.Ans {A V : Type} : MemCmd A V → Type
  | .read _ => V
  | .write _ _ => Unit

/-- The memory executes a command. -/
def MemCmd.exec {A V : Type} [DecidableEq A] :
    (c : MemCmd A V) → (A → V) → c.Ans × (A → V)
  | .read a, m => (m a, m)
  | .write a v, m => ((), Function.update m a v)

end Machine
