import Yfs.Machine.Prog

/-!
# What a program may do

A *discipline* says which commands a program may issue, depending on what it has done before.  What
it has done before is summed up in a ghost state, which the answers change; an answer that nobody
expects to occur is one for which there is no next state.

That a program obeys a discipline (`Obeys`) is a statement about its text alone: the program may be
executed alone or with others, and by any machine that gives the answers that are expected.  It is
proved along the text, with one rule for each way of putting programs together.  A postcondition
says what the ghost state is when the program ends, another one when it ends with a fault.
-/

set_option autoImplicit false

namespace Machine

/-- Which commands may be issued, and what the answers change. -/
structure Discipline (Cmd : Type) (Ans : Cmd → Type) (G : Type) where
  allowed : G → Cmd → Prop
  next : G → (c : Cmd) → Ans c → Option G

namespace Prog

variable {Cmd : Type} {Ans : Cmd → Type} {E G α β : Type} {D : Discipline Cmd Ans G}
  {Q Q' : G → α → Prop} {R : G → Prop} {g g' : G}

/-- The program issues only commands that are allowed, and ends as it should. -/
def Obeys (D : Discipline Cmd Ans G) (Q : G → α → Prop) (R : G → Prop) :
    Prog Cmd Ans E α → G → Prop
  | .pure a, g => Q g a
  | .throw _, g => R g
  | .call c k, g => D.allowed g c ∧ ∀ a g', D.next g c a = some g' → (k a).Obeys D Q R g'

namespace Obeys

theorem mono {p : Prog Cmd Ans E α} (h : p.Obeys D Q R g) (hQ : ∀ g a, Q g a → Q' g a) :
    p.Obeys D Q' R g := by
  induction p generalizing g with
  | pure a => exact hQ g a h
  | throw e => exact h
  | call c k ih => exact ⟨h.1, fun a g' hg' ↦ ih a (h.2 a g' hg')⟩

/-- Sequencing. -/
theorem bind {p : Prog Cmd Ans E α} {f : α → Prog Cmd Ans E β} {Q : G → β → Prop}
    (h : p.Obeys D (fun g a ↦ (f a).Obeys D Q R g) R g) : (p >>= f).Obeys D Q R g := by
  induction p generalizing g with
  | pure a => exact h
  | throw e => exact h
  | call c k ih => exact ⟨h.1, fun a g' hg' ↦ ih a (h.2 a g' hg')⟩

theorem map {p : Prog Cmd Ans E α} {f : α → β} {Q : G → β → Prop}
    (h : p.Obeys D (fun g a ↦ Q g (f a)) R g) : (f <$> p).Obeys D Q R g :=
  bind (f := fun a ↦ Pure.pure (f a)) h

/-- A command, and what follows. -/
theorem ask_bind {c : Cmd} {f : Ans c → Prog Cmd Ans E β} {Q : G → β → Prop} (hc : D.allowed g c)
    (h : ∀ a g', D.next g c a = some g' → (f a).Obeys D Q R g') : (ask c >>= f).Obeys D Q R g :=
  ⟨hc, h⟩

end Obeys

end Prog

end Machine
