import Yfs.Machine.Monitor

/-!
# The bounded queue

`fifo<T>` is the queue between the threads that receive requests and the pool of threads that serve
them.  It is protected by a mutex and has two condition variables: `deq` waits on one of them while
the queue is empty, and `enq` on the other one while it is full, unless it has been told not to
block.  Each of the two signals the condition that the other waits on.

* What comes out is what has been let in, in the same order (`fifo_order`), and the queue never gets
  longer than it may.
* It does not matter that `pthread_cond_signal` wakes one thread only, nor which one, nor that
  others may get ahead of it: nobody is left asleep although there is something in the queue, or
  room in it (`fifo_awake`).
-/

set_option autoImplicit false

namespace Yfs
namespace Rpc
namespace Fifo

open Machine

variable {α T : Type}

/-- `non_empty_c_` and `has_space_c_`. -/
inductive Cond where
  | nonEmpty
  | hasSpace
  deriving DecidableEq

/-- A call with its arguments. -/
inductive Call (α : Type) where
  | enq (e : α) (blocking : Bool)
  | deq
  | size
  deriving DecidableEq

/-- What a call returns. -/
inductive Ret (α : Type) where
  | bool (b : Bool)
  | elem (e : α)

/-- There is room for one more; `max_` is 0 for a queue without a limit. -/
def HasRoom (max : Nat) (q : List α) : Prop := max = 0 ∨ q.length < max

instance (max : Nat) (q : List α) : Decidable (HasRoom max q) :=
  inferInstanceAs (Decidable (_ ∨ _))

/-- One pass through the loop of `fifo::enq`, `fifo::deq` or `fifo::size`. -/
def sect (max : Nat) : Call α → List α → Section (List α) Cond (Call α)
  | .enq e blocking, q =>
    if HasRoom max q then { state := q ++ [e], signals := [.nonEmpty], after := .leave }
    else if blocking then { state := q, after := .wait .hasSpace (.enq e blocking) }
    else { state := q, after := .leave }
  | .deq, [] => { state := [], after := .wait .nonEmpty .deq }
  | .deq, _ :: q =>
    { state := q, signals := if max ≠ 0 ∧ q.length < max then [.hasSpace] else [], after := .leave }
  | .size, q => { state := q, after := .leave }

/-- What it returns, if it does. -/
def returns (max : Nat) (q : List α) : Call α → Option (Ret α)
  | .enq _ blocking =>
    if HasRoom max q then some (.bool true) else if blocking then none else some (.bool false)
  | .deq => q.head?.map .elem
  | .size => some (.bool !q.isEmpty)

/-- `fifo<T>`. -/
def fifo (max : Nat) : Monitor (List α) Cond (Call α) T where
  entry _ _ := true
  sect _ := sect max

/-- A queue, and the threads that use it. -/
abbrev Queue (α T : Type) := Crowd (List α) Cond (Call α) T

/-- What is let in with a step. -/
def accepted (max : Nat) (w : Queue α T) (a : Turn Cond (Call α) T) (_ : Queue α T) : List α :=
  match a with
  | .run t _ =>
    match w.thread t with
    | .ready (.enq e b) =>
      match returns max w.state (.enq e b) with
      | some (.bool true) => [e]
      | _ => []
    | _ => []
  | _ => []

/-- What is taken out with it. -/
def taken (max : Nat) (w : Queue α T) (a : Turn Cond (Call α) T) (_ : Queue α T) : List α :=
  match a with
  | .run t _ =>
    match w.thread t with
    | .ready .deq =>
      match returns max w.state .deq with
      | some (.elem e) => [e]
      | _ => []
    | _ => []
  | _ => []

/-! ## What a section does -/

section Sections

variable {max : Nat} {q : List α}

/-- The queue is not longer than it may be. -/
def Bounded (max : Nat) (q : List α) : Prop := max ≠ 0 → q.length ≤ max

theorem bounded_sect (c : Call α) (h : Bounded max q) : Bounded max (sect max c q).state := by
  intro hmax
  have hq := h hmax
  cases c with
  | enq e blocking =>
    rw [sect]
    split
    · rename_i hroom
      have hlt := hroom.resolve_left hmax
      simp only [List.length_append, List.length_singleton]
      omega
    · split <;> exact hq
  | deq =>
    cases q with
    | nil => exact hq
    | cons e q =>
      rw [List.length_cons] at hq
      exact Nat.le_of_succ_le hq
  | size => exact hq

/-- The condition that a call may wait on. -/
def kind (max : Nat) : Call α → Option Cond
  | .enq _ blocking => if blocking ∧ max ≠ 0 then some .hasSpace else none
  | .deq => some .nonEmpty
  | .size => none

/-- What those who wait on a condition are waiting for: elements of the queue, or free places. -/
def room (max : Nat) : Cond → List α → Nat
  | .nonEmpty, q => q.length
  | .hasSpace, q => max - q.length

theorem room_of_wait {c c' : Call α} {k : Cond} (h : (sect max c q).after = .wait k c') :
    kind max c' = some k ∧ room max k (sect max c q).state = 0 := by
  cases c with
  | enq e blocking =>
    by_cases hroom : HasRoom max q
    · exact absurd h (by simp [sect, hroom])
    · cases blocking with
      | false => exact absurd h (by simp [sect, hroom])
      | true =>
        obtain ⟨rfl, rfl⟩ : .hasSpace = k ∧ .enq e true = c' := by simpa [sect, hroom] using h
        have hfull : max ≠ 0 ∧ max ≤ q.length := by simpa [HasRoom] using hroom
        simp only [sect, if_neg hroom, if_true, kind, room]
        exact ⟨by simp [hfull.1], by omega⟩
  | deq =>
    cases q with
    | nil =>
      obtain ⟨rfl, rfl⟩ := After.wait.inj h
      exact ⟨rfl, rfl⟩
    | cons e q => exact absurd h (by simp [sect])
  | size => exact absurd h (by simp [sect])

/-- What a call that goes on takes away, and what it signals. -/
theorem room_sect (c : Call α) (k : Cond) (hgo : ∀ c', (sect max c q).after ≠ .wait k c') :
    room max k (sect max c q).state + (if kind max c = some k then 1 else 0) ≤
      room max k q + (if k ∈ (sect max c q).signals then 1 else 0) := by
  cases c with
  | enq e blocking =>
    by_cases hroom : HasRoom max q
    · simp only [sect, if_pos hroom]
      cases k with
      | nonEmpty => cases blocking <;> simp [kind, room]
      | hasSpace =>
        simp only [kind, room, List.length_append, List.length_singleton, List.mem_singleton]
        rcases hroom with rfl | hlt
        · simp
        · split <;> simp <;> omega
    · cases blocking with
      | false => simp [sect, hroom, kind]
      | true =>
        cases k with
        | nonEmpty => simp [sect, hroom, kind]
        | hasSpace => exact absurd (by simp [sect, hroom]) (hgo (.enq e true))
  | deq =>
    cases q with
    | nil =>
      cases k with
      | nonEmpty => exact absurd rfl (hgo .deq)
      | hasSpace => simp [sect, kind]
    | cons e q =>
      cases k with
      | nonEmpty => simp [sect, kind, room]
      | hasSpace =>
        simp only [sect, kind, room, List.length_cons]
        by_cases hlt : max ≠ 0 ∧ q.length < max
        · simp [if_pos hlt]
          omega
        · simp [if_neg hlt]
          omega
  | size => simp [sect, kind]

end Sections

/-! ## First in, first out -/

section Order

variable [DecidableEq α] [DecidableEq T] [Fintype T] {max : Nat}

/-- A step takes from the front and puts at the back. -/
theorem line_step {w w' : Queue α T} {a : Turn Cond (Call α) T}
    (hs : (fifo max).step w a = some w') :
    w.state ++ accepted max w a w' = taken max w a w' ++ w'.state := by
  obtain ⟨t, c, rfl, -, -, rfl⟩ | ⟨t, pick, c, rfl, ht, -, rfl⟩ | ⟨t, c', k, c, rfl, -, -, rfl⟩ :=
    Monitor.step_cases hs
  · simp [accepted, taken]
  · simp only [accepted, taken, ht, fifo]
    cases c with
    | enq e blocking =>
      by_cases hroom : HasRoom max w.state
      · simp [returns, sect, hroom]
      · cases blocking <;> simp [returns, sect, hroom]
    | deq =>
      cases hq : w.state with
      | nil => simp [returns, sect]
      | cons e q => simp [returns, sect]
    | size => simp [sect]
  · simp [accepted, taken]

theorem bounded_step {w w' : Queue α T} {a : Turn Cond (Call α) T} (h : Bounded max w.state)
    (hs : (fifo max).step w a = some w') : Bounded max w'.state := by
  obtain ⟨t, c, -, -, -, rfl⟩ | ⟨t, pick, c, -, -, -, rfl⟩ | ⟨t, c', k, c, -, -, -, rfl⟩ :=
    Monitor.step_cases hs
  · exact h
  · exact bounded_sect c h
  · exact h

/-- **First in, first out.**  Whatever the threads do and in whatever order they get the mutex: what
has been let in is what has been taken out, in the same order, followed by what is in the queue.
The queue is never longer than its limit, if it has one. -/
theorem fifo_order (max : Nat) {run : List (Turn Cond (Call α) T)} {w : Queue α T}
    (hrun : run.foldlM (fifo max).step ⟨[], fun _ ↦ .out⟩ = some w) :
    observe (fifo max).step (accepted max) ⟨[], fun _ ↦ .out⟩ run =
        observe (fifo max).step (taken max) ⟨[], fun _ ↦ .out⟩ run ++ w.state ∧
      (max ≠ 0 → w.state.length ≤ max) := by
  refine ⟨?_, ?_⟩
  · have hline : ∀ (w : Queue α T) a w', True → (fifo max).step w a = some w' →
        w.state ++ accepted max w a w' = taken max w a w' ++ w'.state :=
          fun _ _ _ _ hs ↦ line_step hs
    have h := Machine.fifo (fun _ _ _ _ _ ↦ trivial) hline run ⟨[], fun _ ↦ .out⟩ w trivial hrun
    simpa using h
  · exact run_induction (P := fun w : Queue α T ↦ Bounded max w.state)
      (fun _ _ _ h hs ↦ bounded_step h hs) (fun _ ↦ Nat.zero_le _) hrun

/-- Two threads and a queue for one element: the second `enq` waits until the first element has been
taken out. -/
def exchange : List (Turn Cond (Call Nat) Bool) :=
  [.call false (.enq 1 true), .run false fun _ ↦ none, .call false (.enq 2 true),
    .run false fun _ ↦ none, .call true .deq, .run true fun _ ↦ some false, .run false fun _ ↦ none]

theorem fifo_order_exchange : ∃ w, exchange.foldlM (fifo 1).step ⟨[], fun _ ↦ .out⟩ = some w ∧
    w.state = [2] ∧
    observe (fifo 1).step (accepted 1) ⟨[], fun _ ↦ .out⟩ exchange =
      observe (fifo 1).step (taken 1) ⟨[], fun _ ↦ .out⟩ exchange ++ [2] :=
  ⟨_, rfl, rfl,
    (fifo_order 1 (show exchange.foldlM (fifo 1).step ⟨[], fun _ ↦ .out⟩ = some _ from rfl)).1⟩

/-! ## Nobody sleeps in vain -/

omit [DecidableEq α] [DecidableEq T] [Fintype T] in
theorem signals (max : Nat) :
    (fifo max : Monitor (List α) Cond (Call α) T).Signals (kind max) (room max) (Bounded max) where
  inv _ c _ h := bounded_sect c h
  wait _ _ _ _ _ _ h := room_of_wait h
  room _ c _ k _ h := room_sect c k h

/-- **Nobody sleeps in vain.**  When no thread is awake inside the queue, whoever sleeps in `deq`
does so because the queue is empty, and whoever sleeps in `enq` because it is full. -/
theorem fifo_awake (max : Nat) {run : List (Turn Cond (Call α) T)} {w : Queue α T}
    (hrun : run.foldlM (fifo max).step ⟨[], fun _ ↦ .out⟩ = some w)
    (hrest : ∀ u c, w.thread u ≠ .ready c) (t : T) :
    (∀ k, w.thread t = .asleep k .deq → w.state = []) ∧
      ∀ k e b, w.thread t = .asleep k (.enq e b) → max ≠ 0 ∧ w.state.length = max := by
  have henough := Monitor.enough_of_run (signals max) (fun _ ↦ Nat.zero_le _) hrun
  refine ⟨fun k ht ↦ ?_, fun k e b ht ↦ ?_⟩
  · obtain rfl : .nonEmpty = k := by simpa [kind] using henough.waits t k _ ht
    exact List.length_eq_zero_iff.1 (henough.room_eq_zero hrest ht)
  · have hk := henough.waits t k _ ht
    rw [kind] at hk
    split at hk
    · rename_i hb
      obtain rfl := Option.some_inj.1 hk
      have hfull : max - w.state.length = 0 := henough.room_eq_zero hrest ht
      have hle := henough.inv hb.2
      exact ⟨hb.2, by omega⟩
    · exact absurd hk (by simp)

/-- The threads of the run below. -/
inductive Thread
  | first
  | second
  | third
  deriving DecidableEq

instance : Fintype Thread := ⟨{.first, .second, .third}, fun t ↦ by cases t <;> decide⟩

/-- Two threads sleep in `deq`.  The third lets an element in and wakes the first; but it has taken
the element out again before that one gets the mutex, which then goes back to sleep. -/
def overtaken : List (Turn Cond (Call Nat) Thread) :=
  [.call .first .deq, .run .first fun _ ↦ none, .call .second .deq, .run .second fun _ ↦ none,
    .call .third (.enq 7 true), .run .third fun _ ↦ some .first, .call .third .deq,
    .run .third fun _ ↦ none, .run .first fun _ ↦ none]

theorem fifo_awake_overtaken : ∃ w, overtaken.foldlM (fifo 5).step ⟨[], fun _ ↦ .out⟩ = some w ∧
    w.thread .first = .asleep .nonEmpty .deq ∧ w.thread .second = .asleep .nonEmpty .deq ∧
    w.state = [] := by
  refine ⟨_, rfl, rfl, rfl,
    (fifo_awake 5 (show overtaken.foldlM _ _ = some _ from rfl) ?_ .second).1 .nonEmpty rfl⟩
  intro u c h
  cases u with
  | first | second | third => cases h

end Order

end Fifo
end Rpc
end Yfs
