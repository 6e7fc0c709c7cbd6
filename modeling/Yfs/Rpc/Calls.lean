import Yfs.Machine.Holders
import Yfs.Machine.Monitor
import Yfs.Rpc.System

/-!
# Calls in progress

For every call in progress `rpcc::calls_` has a pointer to a `caller`, which is a local variable of
`call1`.  Two other threads follow these pointers: the one that receives replies, in `got_pdu`, and
the one that gives up on the server, in `cancel`.  Nobody may do so when `call1` has returned.

`call1` waits on the condition variable of its own `caller`.  `cancel` makes all the calls fail, and
then waits until they have returned, on `destroy_wait_c_`; from then on no call can begin.

A section is what a thread does between locking `m_` and unlocking it.  The section in which `call1`
looks whether there is a reply is the exception: it locks the mutex of the `caller` only, but that
is the only thing it looks at.  Sending is left out here, and so is the time: a wait of `call1` may
come to an end whenever it pleases.

* No pointer dangles, and a call that has been cancelled returns `cancel_failure` (`calls_live`).
* As long as one thread at a time calls `cancel`, no wakeup is lost: `cancel` returns as soon as the
  calls have returned, which they do, and nothing is left for the destructor to complain about
  (`cancel_complete`).
-/

set_option autoImplicit false

namespace Yfs
namespace Rpc
namespace Calls

open Machine

variable {T : Type}

/-! ## State -/

/-- The `caller` of a call, on the stack of the thread that makes it. -/
structure Frame extends Caller where
  xid : Nat

/-- `rpcc`, and the stacks of the threads. -/
structure Rpcc (T : Type) where
  /-- The value of `xid_`, if it had more than 32 bits. -/
  xid : Nat := 1
  bindDone : Bool := false
  srvNonce : Nat := 0
  destroyWait : Bool := false
  /-- `calls_`: for each number the thread on whose stack the `caller` is. -/
  calls : List (Nat × T) := []
  frame : T → Option Frame := fun _ ↦ none
  xidRepWindow : List Nat := [0]
  /-- The calls that have returned. -/
  returned : List (Nat × Outcome) := []
  /-- The calls that were in progress when `cancel` was called. -/
  cancelled : List Nat := []
  /-- A pointer to a `caller` that is gone has been followed. -/
  dangling : Bool := false

/-- The condition variable of the `caller` of a thread, and `destroy_wait_c_`. -/
inductive Cond (T : Type) where
  | done (t : T)
  | destroyWait
  deriving DecidableEq

/-- The sections. -/
inductive Sect where
  /-- `call1` takes a number. -/
  | begin (proc : Nat)
  /-- It waits for the reply. -/
  | await
  /-- It takes the call off the list. -/
  | finish
  /-- It returns. -/
  | ret
  /-- The end of `rpcc::bind`. -/
  | bound (r : Nat)
  | gotPdu (b : Reply)
  | cancel
  /-- The loop at the end of `cancel`. -/
  | cancelLoop
  deriving DecidableEq

/-! ## Sections -/

section Code

variable [DecidableEq T]

/-- Follow a pointer to the `caller` of thread `u`. -/
def deref (s : Rpcc T) (u : T) (k : Frame → Section (Rpcc T) (Cond T) Sect) :
    Section (Rpcc T) (Cond T) Sect :=
  match s.frame u with
  | some f => k f
  | none => { state := { s with dangling := true }, after := .leave }

/-- One round of the loop in `cancel`. -/
def force (s : Rpcc T) (p : Nat × T) : Rpcc T :=
  let s := { s with cancelled := p.1 :: s.cancelled }
  match s.frame p.2 with
  | some f =>
    let f := { f with done := true, intret := cancelFailure }
    { s with frame := Function.update s.frame p.2 (some f) }
  | none => { s with dangling := true }

/-- One round of the other loop. -/
def cancelLoop (s : Rpcc T) : Section (Rpcc T) (Cond T) Sect :=
  if s.calls ≠ [] then
    { state := { s with destroyWait := true }, after := .wait .destroyWait .cancelLoop }
  else { state := s, after := .leave }

/-- `rpcc::call1`, `rpcc::bind`, `rpcc::got_pdu` and `rpcc::cancel`, section by section. -/
def sect (t : T) : Sect → Rpcc T → Section (Rpcc T) (Cond T) Sect
  | .begin proc, s =>
    -- `bind_failure`
    if (proc ≠ bind ∧ s.bindDone = false) ∨ (proc = bind ∧ s.bindDone = true) then
      { state := s, after := .leave }
    -- `cancel_failure`
    else if s.destroyWait then { state := s, after := .leave }
    else
      let x := s.xid % 2 ^ 32
      { state :=
          { s with
            xid := s.xid + 1
            calls := s.calls.filter (fun p ↦ p.1 ≠ x) ++ [(x, t)]
            frame := Function.update s.frame t (some { proc, xid := x }) }
        after := .go .await }
  | .await, s =>
    deref s t fun f ↦
      if f.done then { state := s, after := .go .finish }
      else { state := s, after := .wait (.done t) .await }
  | .finish, s =>
    deref s t fun f ↦
      { state :=
          { s with
            calls := s.calls.filter fun p ↦ p.1 ≠ f.xid
            xidRepWindow := updateXidRep s.xidRepWindow f.xid }
        signals := if s.destroyWait then [.destroyWait] else []
        after := .go .ret }
  | .ret, s =>
    deref s t fun f ↦
      { state :=
          { s with
            frame := Function.update s.frame t none
            returned :=
              (f.xid, ⟨f.proc, if f.done then f.intret else timeoutFailure, f.un⟩) :: s.returned }
        after := .leave }
  | .bound r, s => { state := { s with bindDone := true, srvNonce := r }, after := .leave }
  | .gotPdu b, s =>
    let s := { s with xidRepWindow := updateXidRep s.xidRepWindow b.xid }
    match s.calls.lookup b.xid with
    | none => { state := s, after := .leave }
    | some u =>
      deref s u fun f ↦
        { state :=
            if f.done then s
            else
              let f := { f with done := true, intret := b.ret, un := b.body }
              { s with frame := Function.update s.frame u (some f) }
          signals := [.done u]
          after := .leave }
  | .cancel, s =>
    { cancelLoop (s.calls.foldl force s) with signals := s.calls.map fun p ↦ .done p.2 }
  | .cancelLoop, s => cancelLoop s

/-- What a thread may begin with. -/
def entry : Sect → Bool
  | .begin _ | .bound _ | .gotPdu _ | .cancel => true
  | _ => false

/-- `rpcc`.  In the end `call1` waits no longer. -/
def rpcc : Monitor (Rpcc T) (Cond T) Sect T where
  entry _ := entry
  sect := sect
  expires c := if c = .await then some .finish else none

end Code

/-- A client, and the threads that use it. -/
abbrev Users (T : Type) := Crowd (Rpcc T) (Cond T) Sect T

/-! ## Pointers -/

/-- Is the thread at a place in `call1` where its call is on the list? -/
def InCall (o : Option Sect) : Prop := o = some .await ∨ o = some .finish

/-- The pointers in `calls_` are those to the `caller`s of the calls in progress, each under its
number, and no two calls have the same one.  A call that has been cancelled knows it. -/
structure Live (s : Rpcc T) (place : T → Option Sect) : Prop where
  mem_calls : ∀ x t, (x, t) ∈ s.calls ↔ InCall (place t) ∧ ∃ f, s.frame t = some f ∧ f.xid = x
  frame : ∀ t, (∃ f, s.frame t = some f) ↔ InCall (place t) ∨ place t = some .ret
  sole : ∀ t u f g, s.frame t = some f → s.frame u = some g → f.xid = g.xid → t = u
  frame_lt : ∀ t f, s.frame t = some f → f.xid < s.xid
  cancelled_lt : ∀ x ∈ s.cancelled, x < s.xid
  cancelled : ∀ t f, s.frame t = some f → f.xid ∈ s.cancelled → f.done = true ∧
    f.intret = cancelFailure
  returned : ∀ p ∈ s.returned, p.1 < s.xid ∧ ∀ t f, s.frame t = some f → f.xid ≠ p.1
  returned_cancelled : ∀ p ∈ s.returned, p.1 ∈ s.cancelled → p.2.ret = cancelFailure
  dangling : s.dangling = false

namespace Live

variable {s : Rpcc T} {place : T → Option Sect} {t : T}

theorem exists_frame (h : Live s place) (ht : InCall (place t)) : ∃ f, s.frame t = some f :=
  (h.frame t).2 (Or.inl ht)

theorem frame_of_mem (h : Live s place) {p : Nat × T} (hp : p ∈ s.calls) :
    ∃ f, s.frame p.2 = some f ∧ f.xid = p.1 :=
  ((h.mem_calls p.1 p.2).1 hp).2

variable [DecidableEq T]

/-- A thread moves, and nothing depends on it. -/
theorem move (h : Live s place) {o : Option Sect} (hin : InCall o ↔ InCall (place t))
    (hret : o = some .ret ↔ place t = some .ret) : Live s (Function.update place t o) := by
  have hsame : ∀ u, (InCall (Function.update place t o u) ↔ InCall (place u)) ∧
      (Function.update place t o u = some .ret ↔ place u = some .ret) := by
    intro u
    rw [Function.update_apply]
    split
    · rename_i hu
      subst hu
      exact ⟨hin, hret⟩
    · exact ⟨Iff.rfl, Iff.rfl⟩
  exact { h with
    mem_calls := fun x u ↦ by rw [(hsame u).1]; exact h.mem_calls x u
    frame := fun u ↦ by rw [(hsame u).1, (hsame u).2]; exact h.frame u }

omit [DecidableEq T] in
/-- A number that has not been used is not on the list. -/
theorem filter_calls (h : Live s place) : s.calls.filter (fun p ↦ p.1 ≠ s.xid) = s.calls := by
  refine List.filter_eq_self.2 fun p hp ↦ decide_eq_true fun hx ↦ ?_
  obtain ⟨f, hf, hfp⟩ := h.frame_of_mem hp
  exact absurd (h.frame_lt p.2 f hf) (by rw [hfp, hx]; exact Nat.lt_irrefl _)

/-- A call begins, with a number that has not been used. -/
theorem begin (h : Live s place) (hx : s.xid < 2 ^ 32) {proc : Nat}
    (ht : place t = some (.begin proc)) :
    Live { s with
        xid := s.xid + 1
        calls := s.calls.filter (fun p ↦ p.1 ≠ s.xid % 2 ^ 32) ++ [(s.xid % 2 ^ 32, t)]
        frame := Function.update s.frame t (some { proc, xid := s.xid % 2 ^ 32 }) }
      (Function.update place t (some .await)) := by
  rw [Nat.mod_eq_of_lt hx, h.filter_calls]
  have hlt : ∀ u f, Function.update s.frame t (some { proc, xid := s.xid }) u = some f →
      f.xid < s.xid + 1 := by
    intro u f hu
    rcases update_eq_some hu with ⟨-, rfl⟩ | ⟨-, hu⟩
    · exact Nat.lt_succ_self _
    · exact Nat.lt_succ_of_lt (h.frame_lt u f hu)
  refine ⟨fun x u ↦ ?_, fun u ↦ ?_, fun u v f g hu hv hfg ↦ ?_, hlt, fun x hx ↦ ?_,
    fun u f hu hf ↦ ?_, fun p hp ↦ ⟨?_, fun u f hu ↦ ?_⟩, h.returned_cancelled, h.dangling⟩
  · by_cases hut : u = t
    · subst hut
      have hnot : (x, u) ∉ s.calls := fun hmem ↦ by
        have := ((h.mem_calls x u).1 hmem).1
        simp [InCall, ht] at this
      simp [hnot, InCall, eq_comm]
    · simp [hut, h.mem_calls x u]
  · by_cases hut : u = t
    · subst hut
      simp [InCall]
    · simp [hut, h.frame u]
  · rcases update_eq_some hu with ⟨rfl, rfl⟩ | ⟨-, hu'⟩ <;>
      rcases update_eq_some hv with ⟨rfl, rfl⟩ | ⟨-, hv'⟩
    · rfl
    · exact absurd hfg (Nat.ne_of_gt (h.frame_lt v g hv'))
    · exact absurd hfg (Nat.ne_of_lt (h.frame_lt u f hu'))
    · exact h.sole u v f g hu' hv' hfg
  · exact Nat.lt_succ_of_lt (h.cancelled_lt x hx)
  · rcases update_eq_some hu with ⟨-, rfl⟩ | ⟨-, hu⟩
    · exact absurd (h.cancelled_lt _ hf) (Nat.lt_irrefl _)
    · exact h.cancelled u f hu hf
  · exact Nat.lt_succ_of_lt (h.returned p hp).1
  · rcases update_eq_some hu with ⟨-, rfl⟩ | ⟨-, hu⟩
    · exact Nat.ne_of_gt (h.returned p hp).1
    · exact (h.returned p hp).2 u f hu

/-- A call is taken off the list. -/
theorem finish (h : Live s place) (ht : place t = some .finish) {f : Frame}
    (hf : s.frame t = some f) (window : List Nat) :
    Live { s with calls := s.calls.filter fun p ↦ p.1 ≠ f.xid, xidRepWindow := window }
      (Function.update place t (some .ret)) := by
  refine { h with mem_calls := fun x u ↦ ?_, frame := fun u ↦ ?_ }
  · rw [List.mem_filter, h.mem_calls x u, decide_eq_true_iff]
    by_cases hut : u = t
    · subst hut
      simp only [Function.update_self, hf, Option.some_inj]
      refine ⟨?_, fun hin ↦ absurd hin.1 (by simp [InCall])⟩
      rintro ⟨⟨-, g, rfl, rfl⟩, hne⟩
      exact absurd rfl hne
    · rw [Function.update_of_ne hut]
      refine ⟨And.left, fun hin ↦ ⟨hin, ?_⟩⟩
      obtain ⟨-, g, hg, rfl⟩ := hin
      exact fun hgf ↦ hut (h.sole u t g f hg hf hgf)
  · by_cases hut : u = t
    · subst hut
      simp [hf]
    · rw [Function.update_of_ne hut]
      exact h.frame u

/-- A call returns. -/
theorem ret (h : Live s place) (ht : place t = some .ret) {f : Frame} (hf : s.frame t = some f) :
    Live { s with
        frame := Function.update s.frame t none
        returned := (f.xid, ⟨f.proc, if f.done then f.intret else timeoutFailure, f.un⟩) ::
          s.returned }
      (Function.update place t none) := by
  have hold : ∀ u g, Function.update s.frame t none u = some g → u ≠ t ∧ s.frame u = some g :=
    fun _ _ ↦ update_none_eq_some
  refine ⟨fun x u ↦ ?_, fun u ↦ ?_, fun u v f g hu hv ↦ h.sole u v f g (hold u f hu).2
    (hold v g hv).2, fun u f hu ↦ h.frame_lt u f (hold u f hu).2, h.cancelled_lt,
    fun u f hu ↦ h.cancelled u f (hold u f hu).2, fun p hp ↦ ?_, fun p hp hc ↦ ?_, h.dangling⟩
  · rw [h.mem_calls x u]
    by_cases hut : u = t
    · subst hut
      simp [InCall, ht]
    · simp [hut]
  · by_cases hut : u = t
    · subst hut
      simp [InCall]
    · simp [hut, h.frame u]
  · rcases List.mem_cons.1 hp with rfl | hp
    · exact ⟨h.frame_lt t f hf, fun u g hu hgf ↦ (hold u g hu).1
        (h.sole u t g f (hold u g hu).2 hf hgf)⟩
    · exact ⟨(h.returned p hp).1, fun u g hu ↦ (h.returned p hp).2 u g (hold u g hu).2⟩
  · rcases List.mem_cons.1 hp with rfl | hp
    · obtain ⟨hdone, hint⟩ := h.cancelled t f hf hc
      simp only [hdone, hint, if_true]
    · exact h.returned_cancelled p hp hc

/-- Something is written into the `caller` of a call. -/
theorem write (h : Live s place) {f g : Frame} (hf : s.frame t = some f) (hg : g.xid = f.xid)
    {cancelled : List Nat} (hnew : ∀ x ∈ cancelled, x ∈ s.cancelled ∨ x = f.xid)
    (hc : g.xid ∈ cancelled → g.done = true ∧ g.intret = cancelFailure) :
    Live { s with frame := Function.update s.frame t (some g), cancelled } place := by
  -- whoever has a `caller` now had one with the same number before
  have hold : ∀ u f', Function.update s.frame t (some g) u = some f' →
      ∃ f₀, s.frame u = some f₀ ∧ f₀.xid = f'.xid := by
    intro u f' hu
    rcases update_eq_some hu with ⟨rfl, rfl⟩ | ⟨-, hu⟩
    · exact ⟨f, hf, hg.symm⟩
    · exact ⟨f', hu, rfl⟩
  have hiff : ∀ (u : T) (Q : Nat → Prop),
      (∃ f', Function.update s.frame t (some g) u = some f' ∧ Q f'.xid) ↔
      ∃ f', s.frame u = some f' ∧ Q f'.xid := by
    intro u Q
    rw [Function.update_apply]
    split
    · rename_i hut
      subst hut
      simp [hf, hg]
    · rfl
  refine ⟨fun x u ↦ ?_, fun u ↦ ?_, fun u v f₁ f₂ hu hv hff ↦ ?_, fun u f' hu ↦ ?_, fun x hx ↦ ?_,
    fun u f' hu hc' ↦ ?_, fun p hp ↦ ⟨(h.returned p hp).1, fun u f' hu ↦ ?_⟩, fun p hp hc' ↦ ?_,
    h.dangling⟩
  · rw [hiff u (· = x)]
    exact h.mem_calls x u
  · have := hiff u fun _ ↦ True
    simp only [and_true] at this
    rw [this]
    exact h.frame u
  · obtain ⟨g₁, hg₁, he₁⟩ := hold u f₁ hu
    obtain ⟨g₂, hg₂, he₂⟩ := hold v f₂ hv
    exact h.sole u v g₁ g₂ hg₁ hg₂ (he₁.trans (hff.trans he₂.symm))
  · obtain ⟨f₀, hf₀, he⟩ := hold u f' hu
    exact he ▸ h.frame_lt u f₀ hf₀
  · rcases hnew x hx with hx | rfl
    · exact h.cancelled_lt x hx
    · exact h.frame_lt t f hf
  · rcases update_eq_some hu with ⟨rfl, rfl⟩ | ⟨hut, hu⟩
    · exact hc hc'
    · rcases hnew _ hc' with hc' | hc'
      · exact h.cancelled u f' hu hc'
      · exact absurd (h.sole u t f' f hu hf hc') hut
  · obtain ⟨f₀, hf₀, he⟩ := hold u f' hu
    exact he ▸ (h.returned p hp).2 u f₀ hf₀
  · rcases hnew _ hc' with hc' | hc'
    · exact h.returned_cancelled p hp hc'
    · exact absurd hc'.symm ((h.returned p hp).2 t f hf)

/-- A call in progress is cancelled. -/
theorem forced (h : Live s place) {p : Nat × T} (hp : p ∈ s.calls) : Live (force s p) place := by
  obtain ⟨f, hf, hx⟩ := h.frame_of_mem hp
  rw [force]
  simp only [hf]
  refine h.write (g := { f with done := true, intret := cancelFailure }) hf rfl (fun x hx' ↦ ?_)
    fun _ ↦ ⟨rfl, rfl⟩
  rcases List.mem_cons.1 hx' with rfl | hx'
  · exact Or.inr hx.symm
  · exact Or.inl hx'

omit [DecidableEq T] in
/-- What has been set does not matter here. -/
theorem congr_flags (h : Live s place) (bindDone destroyWait : Bool) (srvNonce : Nat)
    (window : List Nat) :
    Live { s with bindDone, destroyWait, srvNonce, xidRepWindow := window } place :=
  { h with }

end Live

section Force

variable [DecidableEq T] {s : Rpcc T}

@[simp] theorem calls_force (p : Nat × T) : (force s p).calls = s.calls := by
  rw [force]
  split <;> rfl

@[simp] theorem cancelled_force (p : Nat × T) : (force s p).cancelled = p.1 :: s.cancelled := by
  rw [force]
  split <;> rfl

@[simp] theorem destroyWait_force (p : Nat × T) : (force s p).destroyWait = s.destroyWait := by
  rw [force]
  split <;> rfl

theorem frame_force {p : Nat × T} {u : T} (hu : u ≠ p.2) : (force s p).frame u = s.frame u := by
  rw [force]
  split
  · exact Function.update_of_ne hu _ _
  · rfl

variable (l : List (Nat × T))

@[simp] theorem calls_foldl_force : (l.foldl force s).calls = s.calls := by
  induction l generalizing s with
  | nil => rfl
  | cons p l ih => rw [List.foldl_cons, ih, calls_force]

@[simp] theorem destroyWait_foldl_force : (l.foldl force s).destroyWait = s.destroyWait := by
  induction l generalizing s with
  | nil => rfl
  | cons p l ih => rw [List.foldl_cons, ih, destroyWait_force]

theorem mem_cancelled_foldl {x : Nat} :
    x ∈ (l.foldl force s).cancelled ↔ x ∈ l.map Prod.fst ∨ x ∈ s.cancelled := by
  induction l generalizing s with
  | nil => simp
  | cons p l ih =>
    rw [List.foldl_cons, ih, cancelled_force, List.mem_cons, List.map_cons, List.mem_cons]
    exact or_left_comm.trans or_assoc.symm

theorem frame_foldl_force {u : T} (hu : u ∉ l.map Prod.snd) :
    (l.foldl force s).frame u = s.frame u := by
  induction l generalizing s with
  | nil => rfl
  | cons p l ih =>
    rw [List.map_cons, List.mem_cons, not_or] at hu
    rw [List.foldl_cons, ih hu.2, frame_force hu.1]

/-- The loop in `cancel`. -/
theorem Live.foldl_force {place : T → Option Sect} (h : Live s place) (hl : l ⊆ s.calls) :
    Live (l.foldl force s) place := by
  induction l generalizing s with
  | nil => exact h
  | cons p l ih =>
    refine ih (h.forced (hl List.mem_cons_self)) fun q hq ↦ ?_
    rw [calls_force]
    exact hl (List.mem_cons_of_mem p hq)

end Force

section Keeps

variable [DecidableEq T]

theorem Live.cancelLoop {s : Rpcc T} {place : T → Option Sect} {t : T} {c : Sect} (h : Live s place)
    (ht : place t = some c) (hc : c = .cancel ∨ c = .cancelLoop) :
    Live (cancelLoop s).state (Function.update place t (cancelLoop s).after.at?) := by
  rw [Calls.cancelLoop]
  split
  · refine Live.move (h.congr_flags s.bindDone true s.srvNonce s.xidRepWindow) ?_ ?_ <;>
      rcases hc with rfl | rfl <;> simp [After.at?, InCall, ht]
  · refine h.move ?_ ?_ <;> rcases hc with rfl | rfl <;> simp [After.at?, InCall, ht]

/-- A reply arrives. -/
theorem Live.gotPdu {s : Rpcc T} {place : T → Option Sect} {t : T} {b : Reply} (h : Live s place)
    (ht : place t = some (.gotPdu b)) :
    Live (sect t (.gotPdu b) s).state
      (Function.update place t (sect t (.gotPdu b) s).after.at?) := by
  have hout : ∀ {s' : Rpcc T}, Live s' place → Live s' (Function.update place t none) :=
    fun h' ↦ h'.move (by simp [InCall, ht]) (by simp [ht])
  have hwin := h.congr_flags s.bindDone s.destroyWait s.srvNonce (updateXidRep s.xidRepWindow b.xid)
  rw [sect]
  cases hu : s.calls.lookup b.xid with
  | none => exact hout hwin
  | some u =>
    have hmem : (b.xid, u) ∈ s.calls := by
      obtain ⟨l₁, l₂, hl, -⟩ := List.lookup_eq_some_iff.1 hu
      rw [hl]
      exact List.mem_append_right _ List.mem_cons_self
    obtain ⟨f, hf, -⟩ := h.frame_of_mem hmem
    simp only [deref, hf]
    refine hout ?_
    split
    · exact hwin
    · rename_i hdone
      refine hwin.write (g := { f with done := true, intret := b.ret, un := b.body }) hf rfl
        (fun x hx ↦ Or.inl hx) fun hc ↦ ?_
      exact absurd (h.cancelled u f hf hc).1 hdone

theorem xid_force (s : Rpcc T) (p : Nat × T) : (force s p).xid = s.xid := by
  rw [force]
  split <;> rfl

theorem xid_foldl_force (l : List (Nat × T)) (s : Rpcc T) : (l.foldl force s).xid = s.xid := by
  induction l generalizing s with
  | nil => rfl
  | cons p l ih => rw [List.foldl_cons, ih, xid_force]

/-- Numbers are not given back. -/
theorem xid_le_sect (t : T) (c : Sect) (s : Rpcc T) : s.xid ≤ (sect t c s).state.xid := by
  have hderef : ∀ {u : T} {k : Frame → Section (Rpcc T) (Cond T) Sect},
      (∀ f, (k f).state.xid = s.xid) → (deref s u k).state.xid = s.xid := by
    intro u k hk
    rw [deref]
    split
    · exact hk _
    · rfl
  have hloop : ∀ s' : Rpcc T, (Calls.cancelLoop s').state.xid = s'.xid := by
    intro s'
    rw [Calls.cancelLoop]
    split <;> rfl
  cases c with
  | begin proc =>
    rw [sect]
    split
    · exact le_rfl
    · split
      · exact le_rfl
      · exact Nat.le_succ _
  | await => exact (hderef fun f ↦ by split <;> rfl).ge
  | finish | ret => exact (hderef fun f ↦ rfl).ge
  | bound r => exact le_rfl
  | gotPdu b =>
    rw [sect]
    split
    · exact le_rfl
    · rw [deref]
      split
      · dsimp only
        split <;> exact le_rfl
      · exact le_rfl
  | cancel => exact ((hloop _).trans (xid_foldl_force s.calls s)).ge
  | cancelLoop => exact (hloop s).ge

/-- As long as the numbers have not been used up. -/
theorem live_keeps (G : (T → Option Sect) → T → Sect → Prop) [Fintype T] :
    Monitor.Keeps (rpcc (T := T)) G fun s place ↦ s.xid ≤ 2 ^ 32 → Live s place where
  call s place t c h ht hc _ hx := by
    have h := h hx
    have hne : c ≠ .await ∧ c ≠ .finish ∧ c ≠ .ret := by
      change entry c = true at hc
      refine ⟨?_, ?_, ?_⟩ <;> rintro rfl <;> exact absurd hc (by decide)
    exact h.move (by simp [InCall, ht, hne.1, hne.2.1]) (by simp [ht, hne.2.2])
  expire s place t c c' h ht hc hx := by
    have h := h hx
    have hawait : c = .await ∧ .finish = c' := by simpa [rpcc] using hc
    obtain ⟨rfl, rfl⟩ := hawait
    exact h.move (by simp [InCall, ht]) (by simp [ht])
  run s place t c h ht hx := by
    change (sect t c s).state.xid ≤ 2 ^ 32 at hx
    have h := h ((xid_le_sect t c s).trans hx)
    change Live (sect t c s).state (Function.update place t (sect t c s).after.at?)
    cases c with
    | begin proc =>
      rw [sect] at hx ⊢
      split at hx
      · rename_i hbind
        rw [if_pos hbind]
        exact h.move (by simp [After.at?, InCall, ht]) (by simp [After.at?, ht])
      · rename_i hbind
        rw [if_neg hbind]
        split at hx
        · rename_i hwait
          rw [if_pos hwait]
          exact h.move (by simp [After.at?, InCall, ht]) (by simp [After.at?, ht])
        · rename_i hwait
          rw [if_neg hwait]
          exact h.begin hx ht
    | await =>
      obtain ⟨f, hf⟩ := h.exists_frame (Or.inl ht)
      simp only [sect, deref, hf]
      split <;> exact h.move (by simp [After.at?, InCall, ht]) (by simp [After.at?, ht])
    | finish =>
      obtain ⟨f, hf⟩ := h.exists_frame (Or.inr ht)
      simp only [sect, deref, hf]
      exact h.finish ht hf _
    | ret =>
      obtain ⟨f, hf⟩ := (h.frame t).2 (Or.inr ht)
      simp only [sect, deref, hf]
      exact h.ret ht hf
    | bound r =>
      refine Live.move (h.congr_flags true s.destroyWait r s.xidRepWindow) ?_ ?_ <;>
        simp [sect, After.at?, InCall, ht]
    | gotPdu b => exact h.gotPdu ht
    | cancel => exact (h.foldl_force s.calls (List.Subset.refl _)).cancelLoop ht (Or.inl rfl)
    | cancelLoop => exact h.cancelLoop ht (Or.inr rfl)

end Keeps

/-! ## One thread that cancels -/

/-- Is the thread in `cancel`? -/
def Cancels (o : Option Sect) : Prop := o = some .cancel ∨ o = some .cancelLoop

instance (o : Option Sect) : Decidable (Cancels o) := inferInstanceAs (Decidable (_ ∨ _))

/-- A thread that calls `cancel` is alone in there. -/
def OneCancels (place : T → Option Sect) (_ : T) (c : Sect) : Prop :=
  c = .cancel → ∀ u, ¬Cancels (place u)

instance [Fintype T] (place : T → Option Sect) (t : T) (c : Sect) :
    Decidable (OneCancels place t c) :=
  inferInstanceAs (Decidable (_ → _))

/-- At most one thread is in `cancel`.  Once it waits, all the calls that are still on the list have
been cancelled, and it waits until there are none. -/
structure Closing (s : Rpcc T) (place : T → Option Sect) : Prop where
  one : ∀ t u, Cancels (place t) → Cancels (place u) → t = u
  closed : ∀ t, place t = some .cancelLoop → s.destroyWait = true
  cancelled : s.destroyWait = true → ∀ p ∈ s.calls, p.1 ∈ s.cancelled
  loops : s.destroyWait = true → s.calls ≠ [] → ∃ t, place t = some .cancelLoop

/-- What the sections do that are not part of `cancel`. -/
structure Aside (s : Rpcc T) (p : Section (Rpcc T) (Cond T) Sect) : Prop where
  after : ¬Cancels p.after.at?
  destroyWait : p.state.destroyWait = s.destroyWait
  calls : s.destroyWait = true → p.state.calls ⊆ s.calls
  cancelled : p.state.cancelled = s.cancelled

section Aside

variable {s : Rpcc T}

theorem aside_same {p : Section (Rpcc T) (Cond T) Sect} (hafter : ¬Cancels p.after.at?)
    (hdestroy : p.state.destroyWait = s.destroyWait) (hcalls : p.state.calls = s.calls)
    (hcancelled : p.state.cancelled = s.cancelled) : Aside s p :=
  ⟨hafter, hdestroy, fun _ ↦ hcalls ▸ List.Subset.refl _, hcancelled⟩

variable [DecidableEq T]

omit [DecidableEq T] in
theorem aside_deref {u : T} {k : Frame → Section (Rpcc T) (Cond T) Sect} (hk : ∀ f, Aside s (k f)) :
    Aside s (deref s u k) := by
  rw [deref]
  split
  · exact hk _
  · exact aside_same (by simp [Cancels, After.at?]) rfl rfl rfl

theorem aside_sect (t : T) {c : Sect} (hc : ¬Cancels (some c)) : Aside s (sect t c s) := by
  have hleave : ¬Cancels (After.leave : After (Cond T) Sect).at? := by simp [Cancels, After.at?]
  cases c with
  | begin proc =>
    rw [sect]
    split
    · exact aside_same hleave rfl rfl rfl
    · split
      · exact aside_same hleave rfl rfl rfl
      · rename_i hw
        exact ⟨by simp [Cancels, After.at?], rfl, fun hw' ↦ absurd hw' hw, rfl⟩
  | await =>
    refine aside_deref fun f ↦ ?_
    split <;> exact aside_same (by simp [Cancels, After.at?]) rfl rfl rfl
  | finish =>
    exact aside_deref fun f ↦ ⟨by simp [Cancels, After.at?], rfl,
      fun _ p hp ↦ List.mem_of_mem_filter hp, rfl⟩
  | ret => exact aside_deref fun f ↦ aside_same hleave rfl rfl rfl
  | bound r => exact aside_same hleave rfl rfl rfl
  | gotPdu b =>
    rw [sect]
    cases s.calls.lookup b.xid with
    | none => exact aside_same hleave rfl rfl rfl
    | some u =>
      cases hu : s.frame u with
      | none =>
        simp only [deref, hu]
        exact aside_same hleave rfl rfl rfl
      | some f =>
        simp only [deref, hu]
        refine aside_same hleave ?_ ?_ ?_ <;> split <;> rfl
  | cancel => exact absurd (Or.inl rfl) hc
  | cancelLoop => exact absurd (Or.inr rfl) hc

end Aside

namespace Closing

variable [DecidableEq T] {s s' : Rpcc T} {place : T → Option Sect} {t : T}

/-- A thread moves that is not in `cancel`. -/
theorem move (h : Closing s place) {p : Section (Rpcc T) (Cond T) Sect} (hp : Aside s p)
    (ht : ¬Cancels (place t)) : Closing p.state (Function.update place t p.after.at?) := by
  have hsame : ∀ u, Cancels (Function.update place t p.after.at? u) → u ≠ t ∧
      Cancels (place u) := by
    intro u hu
    rw [Function.update_apply] at hu
    split at hu
    · exact absurd hu hp.after
    · exact ⟨by assumption, hu⟩
  refine ⟨fun u v hu hv ↦ h.one u v (hsame u hu).2 (hsame v hv).2, fun u hu ↦ ?_, fun hw q hq ↦ ?_,
    fun hw hne ↦ ?_⟩
  · rw [Function.update_of_ne (hsame u (Or.inr hu)).1] at hu
    exact hp.destroyWait.trans (h.closed u hu)
  · rw [hp.destroyWait] at hw
    rw [hp.cancelled]
    exact h.cancelled hw q (hp.calls hw hq)
  · rw [hp.destroyWait] at hw
    obtain ⟨u, hu⟩ := h.loops hw fun hnil ↦ hne (List.subset_nil.1 (hnil ▸ hp.calls hw))
    have hut : u ≠ t := by
      rintro rfl
      exact ht (Or.inr hu)
    exact ⟨u, by rw [Function.update_of_ne hut]; exact hu⟩

/-- The loop at the end of `cancel`. -/
theorem cancelLoop (h : Closing s place) (ht : Cancels (place t))
    (hc : ∀ p ∈ s'.calls, p.1 ∈ s'.cancelled) :
    Closing (cancelLoop s').state (Function.update place t (cancelLoop s').after.at?) := by
  have hother : ∀ u, u ≠ t → ¬Cancels (place u) := fun u hut hu ↦ hut (h.one u t hu ht)
  have hself : ∀ o u, Cancels (Function.update place t o u) → u = t := by
    intro o u hu
    by_contra hut
    rw [Function.update_of_ne hut] at hu
    exact hother u hut hu
  rw [Calls.cancelLoop]
  split
  · exact ⟨fun u v hu hv ↦ (hself _ u hu).trans (hself _ v hv).symm, fun _ _ ↦ rfl, fun _ ↦ hc,
      fun _ _ ↦ ⟨t, by rw [Function.update_self]; rfl⟩⟩
  · rename_i hnil
    have hcalls : s'.calls = [] := not_not.1 hnil
    refine ⟨fun u v hu hv ↦ (hself _ u hu).trans (hself _ v hv).symm, fun u hu ↦ ?_,
      fun _ p hp ↦ absurd hp (by rw [hcalls]; simp), fun _ hne ↦ absurd hcalls hne⟩
    obtain rfl := hself _ u (Or.inr hu)
    exact absurd hu (by simp [After.at?])

end Closing

theorem closing_keeps [DecidableEq T] : Monitor.Keeps (rpcc (T := T)) OneCancels Closing where
  call s place t c h ht hc hG := by
    by_cases hcancel : c = .cancel
    · subst hcancel
      have hno := hG rfl
      have hself : ∀ u, Cancels (Function.update place t (some .cancel) u) → u = t := by
        intro u hu
        by_contra hut
        rw [Function.update_of_ne hut] at hu
        exact hno u hu
      refine ⟨fun u v hu hv ↦ (hself u hu).trans (hself v hv).symm, fun u hu ↦ ?_, h.cancelled,
        fun hw hne ↦ ?_⟩
      · obtain rfl := hself u (Or.inr hu)
        exact absurd hu (by simp)
      · obtain ⟨u, hu⟩ := h.loops hw hne
        exact absurd (Or.inr hu) (hno u)
    · have hloop : c ≠ .cancelLoop := by
        rintro rfl
        exact absurd hc (by simp [rpcc, entry])
      have haside : Aside s { state := s, after := .go c } :=
        aside_same (by simp [Cancels, After.at?, hcancel, hloop]) rfl rfl rfl
      exact h.move haside (by simp [Cancels, ht])
  expire s place t c c' h ht hc := by
    have hawait : c = .await ∧ .finish = c' := by simpa [rpcc] using hc
    obtain ⟨rfl, rfl⟩ := hawait
    have haside : Aside s { state := s, after := .go .finish } :=
      aside_same (by simp [Cancels, After.at?]) rfl rfl rfl
    exact h.move haside (by simp [Cancels, ht])
  run s place t c h ht := by
    by_cases hc : Cancels (some c)
    · rcases hc with hc | hc <;> obtain rfl := Option.some_inj.1 hc
      · refine h.cancelLoop (Or.inl ht) fun p hp ↦ ?_
        rw [calls_foldl_force] at hp
        exact (mem_cancelled_foldl s.calls).2 (Or.inl (List.mem_map_of_mem hp))
      · exact h.cancelLoop (Or.inr ht) (h.cancelled (h.closed t ht))
    · exact h.move (aside_sect t hc) (ht ▸ hc)

/-! ## Waiting -/

/-- There is nothing to do for those who wait on the condition: the call has no reply yet, or there
are still calls. -/
def idle : Cond T → Rpcc T → Prop
  | .done t, s => ∀ f, s.frame t = some f → f.done = false
  | .destroyWait, s => s.destroyWait = true ∧ s.calls ≠ []

/-- Who waits on what. -/
def WaitsOn (t : T) (k : Cond T) (c : Sect) : Prop :=
  (k = .done t ∧ c = .await) ∨ (k = .destroyWait ∧ c = .cancelLoop)

section Waiting

variable [DecidableEq T] {s : Rpcc T} {t : T} {c c' : Sect} {k : Cond T}

omit [DecidableEq T] in
theorem of_cancelLoop_wait (h : (cancelLoop s).after = .wait k c') :
    k = .destroyWait ∧ c' = .cancelLoop ∧ idle k (cancelLoop s).state := by
  rw [cancelLoop] at h ⊢
  split at h
  · rename_i hne
    obtain ⟨rfl, rfl⟩ := After.wait.inj h
    rw [if_pos hne]
    exact ⟨rfl, rfl, rfl, hne⟩
  · exact absurd h (by simp)

/-- A section that waits. -/
theorem of_wait (h : (sect t c s).after = .wait k c') :
    WaitsOn t k c' ∧ (k = .destroyWait → Cancels (some c)) ∧ idle k (sect t c s).state := by
  cases c with
  | begin proc =>
    rw [sect] at h
    split at h
    · exact absurd h (by simp)
    · split at h <;> exact absurd h (by simp)
  | await =>
    rw [sect] at h ⊢
    cases hf : s.frame t with
    | none => exact absurd h (by simp [deref, hf])
    | some f =>
      cases hd : f.done with
      | true => exact absurd h (by simp [deref, hf, hd])
      | false =>
        obtain ⟨rfl, rfl⟩ : .done t = k ∧ .await = c' := by simpa [deref, hf, hd] using h
        refine ⟨Or.inl ⟨rfl, rfl⟩, by simp, ?_⟩
        simp only [deref, hf, hd, idle]
        intro g hg
        obtain rfl := Option.some_inj.1 (hf.symm.trans hg)
        exact hd
  | finish | ret =>
    rw [sect, deref] at h
    split at h <;> exact absurd h (by simp)
  | bound r => exact absurd h (by simp [sect])
  | gotPdu b =>
    rw [sect] at h
    split at h
    · exact absurd h (by simp)
    · rw [deref] at h
      split at h <;> exact absurd h (by simp)
  | cancel =>
    obtain ⟨rfl, rfl, hidle⟩ := of_cancelLoop_wait h
    exact ⟨Or.inr ⟨rfl, rfl⟩, fun _ ↦ Or.inl rfl, hidle⟩
  | cancelLoop =>
    obtain ⟨rfl, rfl, hidle⟩ := of_cancelLoop_wait h
    exact ⟨Or.inr ⟨rfl, rfl⟩, fun _ ↦ Or.inr rfl, hidle⟩

omit [DecidableEq T] in
theorem frame_cancelLoop (s : Rpcc T) : (cancelLoop s).state.frame = s.frame := by
  rw [cancelLoop]
  split <;> rfl

/-- A call gets its result with a signal only. -/
theorem frame_of_not_signal {u : T} (hu : .done u ∉ (sect t c s).signals) {f : Frame}
    (hf : (sect t c s).state.frame u = some f) : f.done = false ∨ s.frame u = some f := by
  cases c with
  | begin proc =>
    rw [sect] at hf
    split at hf
    · exact Or.inr hf
    · split at hf
      · exact Or.inr hf
      · rcases update_eq_some hf with ⟨-, rfl⟩ | ⟨-, hf⟩
        · exact Or.inl rfl
        · exact Or.inr hf
  | await =>
    rw [sect, deref] at hf
    split at hf
    · split at hf <;> exact Or.inr hf
    · exact Or.inr hf
  | finish =>
    rw [sect, deref] at hf
    split at hf <;> exact Or.inr hf
  | ret =>
    rw [sect, deref] at hf
    split at hf
    · exact Or.inr (update_none_eq_some hf).2
    · exact Or.inr hf
  | bound r => exact Or.inr hf
  | gotPdu b =>
    rw [sect] at hf hu
    cases hlook : s.calls.lookup b.xid with
    | none =>
      simp only [hlook] at hf
      exact Or.inr hf
    | some v =>
      cases hv : s.frame v with
      | none =>
        simp only [hlook, deref, hv] at hf
        exact Or.inr hf
      | some g =>
        simp only [hlook, deref, hv, List.mem_singleton, Cond.done.injEq] at hf hu
        split at hf
        · exact Or.inr hf
        · rcases update_eq_some hf with ⟨rfl, -⟩ | ⟨-, hf⟩
          · exact absurd rfl hu
          · exact Or.inr hf
  | cancel =>
    have hnot : u ∉ s.calls.map Prod.snd := by
      intro hmem
      obtain ⟨p, hp, rfl⟩ := List.mem_map.1 hmem
      exact hu (List.mem_map.2 ⟨p, hp, rfl⟩)
    change (cancelLoop (s.calls.foldl force s)).state.frame u = some f at hf
    rw [frame_cancelLoop, frame_foldl_force _ hnot] at hf
    exact Or.inr hf
  | cancelLoop =>
    change (cancelLoop s).state.frame u = some f at hf
    rw [frame_cancelLoop] at hf
    exact Or.inr hf

/-- After `cancel` has begun to wait, the list of calls changes with a signal only. -/
theorem calls_of_not_signal (hw : s.destroyWait = true) (hs : .destroyWait ∉ (sect t c s).signals) :
    (sect t c s).state.calls = s.calls := by
  have hloop : ∀ s' : Rpcc T, (cancelLoop s').state.calls = s'.calls := by
    intro s'
    rw [cancelLoop]
    split <;> rfl
  cases c with
  | begin proc =>
    simp only [sect, hw, if_true]
    split <;> rfl
  | await =>
    rw [sect, deref]
    split
    · split <;> rfl
    · rfl
  | finish =>
    cases hf : s.frame t with
    | none => simp only [sect, deref, hf]
    | some f => exact absurd (by simp [sect, deref, hf, hw]) hs
  | ret =>
    rw [sect, deref]
    split <;> rfl
  | bound r => rfl
  | gotPdu b =>
    rw [sect]
    split
    · rfl
    · rw [deref]
      split
      · dsimp only
        split <;> rfl
      · rfl
  | cancel => exact (hloop _).trans (calls_foldl_force s.calls)
  | cancelLoop => exact hloop s

theorem destroyWait_sect (hw : s.destroyWait = true) : (sect t c s).state.destroyWait = true := by
  have hloop : ∀ s' : Rpcc T, s'.destroyWait = true → (cancelLoop s').state.destroyWait = true := by
    intro s' hw'
    rw [cancelLoop]
    split
    · rfl
    · exact hw'
  by_cases hc : Cancels (some c)
  · rcases hc with hc | hc <;> obtain rfl := Option.some_inj.1 hc
    · exact hloop _ ((destroyWait_foldl_force s.calls).trans hw)
    · exact hloop s hw
  · exact (aside_sect t hc).destroyWait.trans hw

theorem rouses : Monitor.Rouses (rpcc (T := T)) idle where
  wait _ _ _ _ _ h := (of_wait h).2.2
  signal t c s k hidle hk := by
    cases k with
    | done u =>
      intro f hf
      rcases frame_of_not_signal hk hf with hd | hf
      · exact hd
      · exact hidle f hf
    | destroyWait =>
      have hcalls : (sect t c s).state.calls = s.calls := calls_of_not_signal hidle.1 hk
      exact ⟨destroyWait_sect hidle.1, fun hnil ↦ hidle.2 (hcalls.symm.trans hnil)⟩

end Waiting

/-! ## Runs -/

section Runs

variable [DecidableEq T] [Fintype T]

/-- A client that has just been made. -/
def init : Users T := ⟨{}, fun _ ↦ .out⟩

/-- One thread at a time calls `cancel`. -/
abbrev Alone (w : Users T) (a : Turn (Cond T) Sect T) : Prop := Monitor.Admits OneCancels w a

omit [DecidableEq T] [Fintype T] in
theorem live_init : Live ({} : Rpcc T) (init : Users T).place := by
  refine ⟨?_, ?_, ?_, ?_, ?_, ?_, ?_, ?_, rfl⟩ <;> simp [init, Crowd.place, Thread.at?, InCall]

omit [DecidableEq T] [Fintype T] in
theorem closing_init : Closing ({} : Rpcc T) (init : Users T).place := by
  refine ⟨?_, ?_, ?_, ?_⟩ <;> simp [init, Crowd.place, Thread.at?, Cancels]

/-- What is true as long as one thread at a time calls `cancel`. -/
structure Calm (w : Users T) : Prop where
  closing : Closing w.state w.place
  waits : ∀ u k c, w.thread u = .asleep k c → WaitsOn u k c
  quiet : Monitor.Quiet idle w

theorem Calm.step {w w' : Users T} {a : Turn (Cond T) Sect T} (h : Calm w) (ha : Alone w a)
    (hs : rpcc.step w a = some w') : Calm w' where
  closing := closing_keeps.step h.closing ha hs
  waits := Monitor.waits_step (fun _ _ _ _ _ hw ↦ (of_wait hw).1) h.waits hs
  quiet := by
    refine h.quiet.step rouses (fun t c k c' ht hwait u c₁ hu ↦ ?_) hs
    obtain ⟨hon, hcan, -⟩ := of_wait hwait
    have hplace : ∀ {v : T} {x : Thread (Cond T) Sect}, w.thread v = x → w.place v = x.at? :=
      fun hx ↦ congrArg Thread.at? hx
    -- whoever is ready does not sleep, and only `t` itself could be asleep here
    have hsame : u = t := by
      rcases h.waits u k c₁ hu with ⟨rfl, -⟩ | ⟨rfl, rfl⟩
      · rcases hon with ⟨hk, -⟩ | ⟨hk, -⟩
        · exact Cond.done.inj hk
        · exact absurd hk (by simp)
      · refine h.closing.one u t (Or.inr (hplace hu)) ?_
        rw [hplace ht]
        exact hcan rfl
    subst hsame
    exact absurd (ht.symm.trans hu) (by simp)

omit [DecidableEq T] [Fintype T] in
theorem calm_init : Calm (init : Users T) :=
  ⟨closing_init, by simp [init], by simp [init], by simp [init]⟩

variable {run : List (Turn (Cond T) Sect T)} {w : Users T}

theorem live_of_run (hrun : run.foldlM rpcc.step init = some w) (hcalls : w.state.xid ≤ 2 ^ 32) :
    Live w.state w.place := by
  have hstep : ∀ (w : Users T) a w', (w.state.xid ≤ 2 ^ 32 → Live w.state w.place) →
      rpcc.step w a = some w' → w'.state.xid ≤ 2 ^ 32 → Live w'.state w'.place := by
    intro w a w' h hs
    refine (live_keeps fun _ _ _ ↦ True).step h ?_ hs
    cases a <;> trivial
  exact run_induction hstep (fun _ ↦ live_init) hrun hcalls

/-- **No pointer dangles.**  Whatever the threads do, while there are fewer than `2 ^ 32` calls:
nobody follows a pointer to a `caller` that is gone, every pointer in `calls_` is to the `caller`
with that number, so that a reply reaches the call it is for, and a call that was in progress when
`cancel` was called returns `cancel_failure` if it returns. -/
theorem calls_live (hrun : run.foldlM rpcc.step init = some w) (hcalls : w.state.xid ≤ 2 ^ 32) :
    w.state.dangling = false ∧
      (∀ x t, (x, t) ∈ w.state.calls → ∃ f, w.state.frame t = some f ∧ f.xid = x) ∧
      ∀ p ∈ w.state.returned, p.1 ∈ w.state.cancelled → p.2.ret = cancelFailure := by
  have h := live_of_run hrun hcalls
  exact ⟨h.dangling, fun x t hp ↦ h.frame_of_mem hp, h.returned_cancelled⟩

/-- A thread makes a call and another one cancels it. -/
def givingUp : List (Turn (Cond Bool) Sect Bool) :=
  [.call true (.bound 5), .run true fun _ ↦ none, .call false (.begin 7), .run false fun _ ↦ none,
    .run false fun _ ↦ none, .call true .cancel, .run true fun _ ↦ some false,
    .run false fun _ ↦ none, .run false fun _ ↦ some true, .run false fun _ ↦ none,
    .run true fun _ ↦ none]

theorem calls_live_givingUp : ∃ w, givingUp.foldlM rpcc.step init = some w ∧
    w.state.returned = [(1, ⟨7, cancelFailure, []⟩)] ∧ w.state.dangling = false :=
  ⟨_, rfl, rfl, (calls_live (show givingUp.foldlM rpcc.step init = some _ from rfl)
    (by decide)).1⟩

/-- **Cancelling comes to an end.**  Suppose that one thread at a time calls `cancel`, and that
there are fewer than `2 ^ 32` calls.  When no thread is awake, nobody is asleep in `cancel`, and
whoever is asleep in `call1` has no reply and has not been cancelled.  And when a `cancel` that had
to wait has returned, there are no calls in progress, for good. -/
theorem cancel_complete (hrun : run.foldlM rpcc.step init = some w) (hcalls : w.state.xid ≤ 2 ^ 32)
    (halone : Along rpcc.step Alone init run) :
    ((∀ u c, w.thread u ≠ .ready c) → ∀ t k c, w.thread t = .asleep k c →
        c = .await ∧ ∃ f, w.state.frame t = some f ∧ f.done = false ∧ f.xid ∉ w.state.cancelled) ∧
      (w.state.destroyWait = true → (∀ t, w.place t ≠ some .cancelLoop) → w.state.calls = []) := by
  have hlive := live_of_run hrun hcalls
  have hcalm : Calm w :=
    along_induction (fun _ _ _ h ha hs ↦ h.step ha hs) run init w halone calm_init hrun
  -- whoever sleeps in `call1` has no reply
  have hasleep : ∀ t k, w.thread t = .asleep k .await → ∃ f, w.state.frame t = some f ∧
      f.done = false := by
    intro t k ht
    obtain ⟨f, hf⟩ := hlive.exists_frame (t := t) (Or.inl (congrArg Thread.at? ht))
    rcases hcalm.waits t k .await ht with ⟨rfl, -⟩ | ⟨-, hc⟩
    · exact ⟨f, hf, hcalm.quiet.idle t _ _ ht f hf⟩
    · exact absurd hc (by simp)
  refine ⟨fun hrest t k c ht ↦ ?_, fun hw hno ↦ ?_⟩
  · rcases hcalm.waits t k c ht with ⟨-, rfl⟩ | ⟨rfl, rfl⟩
    · obtain ⟨f, hf, hd⟩ := hasleep t k ht
      refine ⟨rfl, f, hf, hd, fun hc ↦ ?_⟩
      exact absurd (hlive.cancelled t f hf hc).1 (by simp [hd])
    · -- some call is still in progress, and has been cancelled; but then it would be awake
      obtain ⟨hw, hne⟩ := hcalm.quiet.idle t _ _ ht
      obtain ⟨p, hp⟩ := List.exists_mem_of_ne_nil _ hne
      obtain ⟨f, hf, hx⟩ := hlive.frame_of_mem hp
      have hdone := (hlive.cancelled p.2 f hf (hx ▸ hcalm.closing.cancelled hw p hp)).1
      have hin := ((hlive.mem_calls p.1 p.2).1 hp).1
      cases hth : w.thread p.2 with
      | out => exact absurd hin (by simp [InCall, Crowd.place, hth, Thread.at?])
      | ready c => exact absurd hth (hrest p.2 c)
      | asleep k c =>
        rcases hcalm.waits p.2 k c hth with ⟨-, rfl⟩ | ⟨-, rfl⟩
        · obtain ⟨g, hg, hd⟩ := hasleep p.2 k hth
          obtain rfl := Option.some_inj.1 (hf.symm.trans hg)
          exact absurd hdone (by simp [hd])
        · exact absurd hin (by simp [InCall, Crowd.place, hth, Thread.at?])
  · by_contra hne
    obtain ⟨t, ht⟩ := hcalm.closing.loops hw hne
    exact hno t ht

theorem cancel_complete_givingUp : ∃ w, givingUp.foldlM rpcc.step init = some w ∧
    w.state.destroyWait = true ∧ w.state.calls = [] :=
  ⟨_, rfl, rfl, (cancel_complete (show givingUp.foldlM rpcc.step init = some _ from rfl)
    (by decide) (by decide)).2 rfl (by decide)⟩

/-- With two threads in `cancel` one of them is left asleep, for `call1` signals once. -/
def bothGivingUp : List (Turn (Cond (Fin 3)) Sect (Fin 3)) :=
  [.call 1 (.bound 5), .run 1 fun _ ↦ none, .call 0 (.begin 7), .run 0 fun _ ↦ none,
    .run 0 fun _ ↦ none, .call 1 .cancel, .run 1 fun _ ↦ some 0, .call 2 .cancel,
    .run 2 fun _ ↦ none, .run 0 fun _ ↦ none, .run 0 fun _ ↦ some 1, .run 0 fun _ ↦ none,
    .run 1 fun _ ↦ none]

example : ∃ w, bothGivingUp.foldlM rpcc.step init = some w ∧ w.thread 0 = .out ∧ w.thread 1 = .out ∧
    w.thread 2 = .asleep .destroyWait .cancelLoop ∧ w.state.calls = [] :=
  ⟨_, rfl, rfl, rfl, rfl, rfl⟩

end Runs

end Calls
end Rpc
end Yfs
