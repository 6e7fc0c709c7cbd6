import Mathlib.Data.Fintype.Basic
import Mathlib.Data.Finset.Card
import Mathlib.Data.Fintype.Card
import Yfs.Machine.Run

/-!
# Monitors

A state that is protected by a mutex, and threads that work on it in critical sections.  A section
that cannot go on waits on a condition variable, which unlocks the mutex; somebody else's section
signals the condition, and the thread that is woken by that locks the mutex and tries again.

Nothing is assumed about which of the threads that sleep on a condition is woken, nor about when a
thread that has been woken gets the mutex: others may come first.  A thread may also wake up for no
reason, and a wait may come to an end because the time is up.

A signal wakes one thread only.  Is that enough, or can it be that a thread sleeps on although it
could go on?  That it is enough follows, for one condition, from a count: as long as somebody sleeps
on it, there is at least one thread awake for everything that there is to be had (`Monitor.Enough`).
What sections have to do for that is in `Monitor.Signals`.  Where no two threads ever sleep on one
condition it is simpler: a signal cannot go to the wrong thread (`Monitor.Quiet`).
-/

set_option autoImplicit false

namespace Machine

/-- What a thread does after a section. -/
inductive After (K C : Type) where
  /-- It waits on a condition, and then begins a section. -/
  | wait (k : K) (c : C)
  /-- It goes on to another section. -/
  | go (c : C)
  /-- It leaves. -/
  | leave
  deriving DecidableEq

/-- The section that comes next. -/
def After.at? {K C : Type} : After K C → Option C
  | .wait _ c => some c
  | .go c => some c
  | .leave => none

/-- What a section does. -/
structure Section (S K C : Type) where
  state : S
  signals : List K := []
  after : After K C

/-- The sections, and which of them a thread that comes from outside may begin with.  A thread that
has waited too long in a section may go on to the one that `expires` names. -/
structure Monitor (S K C T : Type) where
  entry : T → C → Bool
  sect : T → C → S → Section S K C
  expires : C → Option C := fun _ ↦ none

/-- Where a thread is. -/
inductive Thread (K C : Type) where
  | out
  /-- About to lock the mutex. -/
  | ready (c : C)
  | asleep (k : K) (c : C)
  deriving DecidableEq

/-- The protected state, and the threads. -/
structure Crowd (S K C T : Type) where
  state : S
  thread : T → Thread K C := fun _ ↦ .out

/-- What can happen. -/
inductive Turn (K C T : Type) where
  /-- A thread arrives. -/
  | call (t : T) (c : C)
  /-- A thread gets the mutex and executes its section.  If the section signals condition `k`, then
  `pick k` is woken. -/
  | run (t : T) (pick : K → Option T)
  /-- A thread wakes up without having been signalled. -/
  | wake (t : T) (c : C)

variable {S K C T : Type}

namespace Thread

/-- The thread after a section. -/
def next : After K C → Thread K C
  | .wait k c => asleep k c
  | .go c' => ready c'
  | .leave => out

/-- The section that the thread will begin with when it gets the mutex. -/
def at? : Thread K C → Option C
  | out => none
  | ready c => some c
  | asleep _ c => some c

theorem next_eq_asleep {a : After K C} {k : K} {c : C} : next a = asleep k c ↔ a = .wait k c := by
  cases a <;> simp [next]

@[simp] theorem at?_next (a : After K C) : (next a).at? = a.at? := by cases a <;> rfl

variable [DecidableEq K]

/-- Is the thread asleep on condition `k`? -/
def sleepsOn (k : K) : Thread K C → Bool
  | asleep k' _ => k' = k
  | _ => false

theorem sleepsOn_iff {x : Thread K C} {k : K} : x.sleepsOn k = true ↔ ∃ c, x = asleep k c := by
  cases x <;> simp [sleepsOn]

variable [DecidableEq T]

/-- A thread that sleeps on one of the signalled conditions, and is picked, begins again. -/
def woken (t : T) (signals : List K) (pick : K → Option T) : Thread K C → Thread K C
  | asleep k c => if k ∈ signals ∧ pick k = some t then ready c else asleep k c
  | x => x

variable {x : Thread K C} {t : T} {signals : List K} {pick : K → Option T}

/-- Whoever sleeps after a signal has slept before. -/
theorem asleep_of_woken {k : K} {c : C} (h : x.woken t signals pick = asleep k c) :
    x = asleep k c := by
  cases x with
  | asleep k' c' =>
    rw [woken] at h
    split at h
    · exact absurd h (by simp)
    · exact h
  | out | ready => exact absurd h (by simp [woken])

@[simp] theorem at?_woken : (x.woken t signals pick).at? = x.at? := by
  cases x with
  | asleep k c =>
    rw [woken]
    split <;> rfl
  | out | ready => rfl

end Thread

/-- Which section each thread is in, or is about to begin. -/
def Crowd.place (w : Crowd S K C T) : T → Option C := fun u ↦ (w.thread u).at?

variable [DecidableEq T]

theorem Crowd.place_update (w : Crowd S K C T) (s : S) (t : T) (x : Thread K C) :
    (⟨s, Function.update w.thread t x⟩ : Crowd S K C T).place =
    Function.update w.place t x.at? := by
  funext u
  simp only [Crowd.place, Function.update_apply]
  split <;> rfl

variable [DecidableEq K]

@[simp] theorem Crowd.place_woken (s : S) (thread : T → Thread K C) (signals : List K)
    (pick : K → Option T) :
    (⟨s, fun u ↦ (thread u).woken u signals pick⟩ : Crowd S K C T).place =
      (⟨s, thread⟩ : Crowd S K C T).place :=
  funext fun _ ↦ Thread.at?_woken

namespace Monitor

/-- If anybody sleeps on a condition that is signalled, somebody is picked. -/
def Picks [Fintype T] (thread : T → Thread K C) (signals : List K) (pick : K → Option T) : Prop :=
  ∀ k ∈ signals, (∃ u, (thread u).sleepsOn k = true) →
    ∃ u, pick k = some u ∧ (thread u).sleepsOn k = true

instance [Fintype T] (thread : T → Thread K C) (signals : List K) (pick : K → Option T) :
    Decidable (Picks thread signals pick) :=
  inferInstanceAs (Decidable (∀ k ∈ signals, _ → _))

variable [DecidableEq C]

/-- One step. -/
def step [Fintype T] (M : Monitor S K C T) (w : Crowd S K C T) : Turn K C T → Option (Crowd S K C T)
  | .call t c =>
    if w.thread t = .out ∧ M.entry t c then
      some { w with thread := Function.update w.thread t (.ready c) }
    else none
  | .run t pick =>
    match w.thread t with
    | .ready c =>
      let p := M.sect t c w.state
      let thread := Function.update w.thread t (Thread.next p.after)
      if Picks thread p.signals pick then
        some ⟨p.state, fun u ↦ (thread u).woken u p.signals pick⟩
      else none
    | _ => none
  | .wake t c' =>
    match w.thread t with
    | .asleep _ c =>
      if c' = c ∨ M.expires c = some c' then
        some { w with thread := Function.update w.thread t (.ready c') }
      else none
    | _ => none

variable [Fintype T] {M : Monitor S K C T} {w w' : Crowd S K C T} {a : Turn K C T}

theorem step_cases (hs : M.step w a = some w') :
    (∃ t c, a = .call t c ∧ w.thread t = .out ∧ M.entry t c = true ∧
      w' = { w with thread := Function.update w.thread t (.ready c) }) ∨
    (∃ t pick c, a = .run t pick ∧ w.thread t = .ready c ∧
      Picks (Function.update w.thread t (Thread.next (M.sect t c w.state).after))
        (M.sect t c w.state).signals pick ∧
      w' = ⟨(M.sect t c w.state).state, fun u ↦ Thread.woken u (M.sect t c w.state).signals pick
        (Function.update w.thread t (Thread.next (M.sect t c w.state).after) u)⟩) ∨
    ∃ t c' k c, a = .wake t c' ∧ w.thread t = .asleep k c ∧ (c' = c ∨ M.expires c = some c') ∧
      w' = { w with thread := Function.update w.thread t (.ready c') } := by
  cases a with
  | call t c =>
    obtain ⟨⟨hout, hentry⟩, he⟩ := Option.ite_none_right_eq_some.1 hs
    exact Or.inl ⟨t, c, rfl, hout, hentry, (Option.some_inj.1 he).symm⟩
  | run t pick =>
    rw [step] at hs
    split at hs
    · rename_i c ht
      obtain ⟨hpick, he⟩ := Option.ite_none_right_eq_some.1 hs
      exact Or.inr (Or.inl ⟨t, pick, c, rfl, ht, hpick, (Option.some_inj.1 he).symm⟩)
    · exact absurd hs (by simp)
  | wake t c' =>
    rw [step] at hs
    split at hs
    · rename_i k c ht
      obtain ⟨hc', he⟩ := Option.ite_none_right_eq_some.1 hs
      exact Or.inr (Or.inr ⟨t, c', k, c, rfl, ht, hc', (Option.some_inj.1 he).symm⟩)
    · exact absurd hs (by simp)

/-! ## Invariants -/

/-- What sections have to do, so that a property of the state and of where the threads are is an
invariant.  `G` says which thread may begin with which section, and where the others are then. -/
structure Keeps (M : Monitor S K C T) (G : (T → Option C) → T → C → Prop)
    (P : S → (T → Option C) → Prop) : Prop where
  call : ∀ s p t c, P s p → p t = none → M.entry t c = true → G p t c →
    P s (Function.update p t (some c))
  run : ∀ s p t c, P s p → p t = some c →
    P (M.sect t c s).state (Function.update p t (M.sect t c s).after.at?)
  expire : ∀ s p t c c', P s p → p t = some c → M.expires c = some c' →
    P s (Function.update p t (some c'))

/-- Threads begin with what they may begin with. -/
def Admits (G : (T → Option C) → T → C → Prop) (w : Crowd S K C T) : Turn K C T → Prop
  | .call t c => G w.place t c
  | _ => True

instance (G : (T → Option C) → T → C → Prop) [∀ p t c, Decidable (G p t c)] (w : Crowd S K C T) :
    (a : Turn K C T) → Decidable (Admits G w a)
  | .call t c => inferInstanceAs (Decidable (G w.place t c))
  | .run _ _ | .wake _ _ => isTrue trivial

variable {G : (T → Option C) → T → C → Prop} {P : S → (T → Option C) → Prop}

theorem Keeps.step (hM : Keeps M G P) (h : P w.state w.place) (hG : Admits G w a)
    (hs : M.step w a = some w') : P w'.state w'.place := by
  obtain ⟨t, c, rfl, hout, hentry, rfl⟩ | ⟨t, pick, c, -, ht, -, rfl⟩ |
    ⟨t, c', k, c, -, ht, hc', rfl⟩ := step_cases hs
  · rw [Crowd.place_update]
    exact hM.call _ _ t c h (by rw [Crowd.place, hout]; rfl) hentry hG
  · have hplace := hM.run _ _ t c h (by rw [Crowd.place, ht]; rfl)
    rw [← Thread.at?_next, ← w.place_update (M.sect t c w.state).state] at hplace
    rwa [Crowd.place_woken]
  · have hat : w.place t = some c := by rw [Crowd.place, ht]; rfl
    rw [Crowd.place_update]
    rcases hc' with rfl | hc'
    · rw [show (Thread.ready c' : Thread K C).at? = w.place t from hat.symm,
        Function.update_eq_self]
      exact h
    · exact hM.expire _ _ t c c' h hat hc'

/-- What holds whenever a thread waits holds of every thread that sleeps. -/
theorem waits_step {R : T → K → C → Prop}
    (hR : ∀ t c s k c', (M.sect t c s).after = .wait k c' → R t k c')
    (h : ∀ u k c, w.thread u = .asleep k c → R u k c) (hs : M.step w a = some w') :
    ∀ u k c, w'.thread u = .asleep k c → R u k c := by
  have hready : ∀ t c, ∀ u k c', Function.update w.thread t (.ready c) u = .asleep k c' →
      R u k c' := by
    intro t c u k c' hu
    rw [Function.update_apply] at hu
    split at hu
    · exact absurd hu (by simp)
    · exact h u k c' hu
  obtain ⟨t, c, -, -, -, rfl⟩ | ⟨t, pick, c, -, ht, -, rfl⟩ | ⟨t, c', k, c, -, -, -, rfl⟩ :=
    step_cases hs
  · exact hready t c
  · intro u k c' hu
    have hsleep := Thread.asleep_of_woken hu
    rw [Function.update_apply] at hsleep
    split at hsleep
    · rename_i hut
      exact hut ▸ hR t c w.state k c' (Thread.next_eq_asleep.1 hsleep)
    · exact h u k c' hsleep
  · exact hready t c'

/-! ## Is one thread enough? -/

/-- Is the thread awake, in a section that may wait on condition `k`? -/
def wants (kind : C → Option K) (k : K) : Thread K C → Bool
  | .ready c => kind c = some k
  | _ => false

/-- The threads that are. -/
def awake (kind : C → Option K) (k : K) (thread : T → Thread K C) : Finset T :=
  Finset.univ.filter fun u ↦ wants kind k (thread u) = true

/-- What sections have to do, so that signals are enough.  Of the things that those who wait on
condition `k` are waiting for there are `room k`.  Whoever waits has found none.  Whoever goes on
has taken one, and whoever adds one signals the condition. -/
structure Signals (M : Monitor S K C T) (kind : C → Option K) (room : K → S → Nat) (I : S → Prop) :
    Prop where
  inv : ∀ t c s, I s → I (M.sect t c s).state
  wait : ∀ t c s k c', I s → (M.sect t c s).after = .wait k c' →
    kind c' = some k ∧ room k (M.sect t c s).state = 0
  room : ∀ t c s k, I s → (∀ c', (M.sect t c s).after ≠ .wait k c') →
    room k (M.sect t c s).state + (if kind c = some k then 1 else 0) ≤
      room k s + (if k ∈ (M.sect t c s).signals then 1 else 0)

/-- As long as somebody sleeps on a condition, enough threads are awake. -/
structure Enough (kind : C → Option K) (room : K → S → Nat) (I : S → Prop) (w : Crowd S K C T) :
    Prop where
  inv : I w.state
  waits : ∀ u k c, w.thread u = .asleep k c → kind c = some k
  room : ∀ k, (∃ u, (w.thread u).sleepsOn k = true) → room k w.state ≤ (awake kind k w.thread).card

variable {kind : C → Option K} {room : K → S → Nat} {I : S → Prop} {k : K} {thread : T → Thread K C}

omit [DecidableEq T] [DecidableEq C] in
@[simp] theorem mem_awake {u : T} : u ∈ awake kind k thread ↔ wants kind k (thread u) = true := by
  simp only [awake, Finset.mem_filter, Finset.mem_univ, true_and]

omit [DecidableEq C] in
theorem card_awake_update (kind : C → Option K) (k : K) (thread : T → Thread K C) (t : T)
    (x : Thread K C) :
    (awake kind k (Function.update thread t x)).card + (if wants kind k (thread t) then 1 else 0) =
      (awake kind k thread).card + (if wants kind k x then 1 else 0) := by
  have hsplit : ∀ th : T → Thread K C, (awake kind k th).card =
      ((Finset.univ.erase t).filter fun u ↦ wants kind k (th u) = true).card +
        (if wants kind k (th t) then 1 else 0) := by
    intro th
    rw [awake, ← Finset.insert_erase (Finset.mem_univ t), Finset.filter_insert]
    split
    · rw [Finset.card_insert_of_notMem (by simp), Finset.insert_erase (Finset.mem_univ t)]
    · rw [Finset.insert_erase (Finset.mem_univ t), Nat.add_zero]
  have hsame : ((Finset.univ.erase t).filter
        fun u ↦ wants kind k (Function.update thread t x u) = true) =
      (Finset.univ.erase t).filter fun u ↦ wants kind k (thread u) = true := by
    refine Finset.filter_congr fun u hu ↦ ?_
    rw [Function.update_of_ne (Finset.ne_of_mem_erase hu)]
  rw [hsplit, hsplit thread, hsame, Function.update_self]
  omega

omit [DecidableEq C] in
/-- Those who are woken are awake, and so are those who were awake before. -/
theorem card_awake_woken {signals : List K} {pick : K → Option T}
    (hkind : ∀ u k c, thread u = .asleep k c → kind c = some k) (hpick : Picks thread signals pick)
    (hsleep : ∃ u, (thread u).sleepsOn k = true) :
    (awake kind k thread).card + (if k ∈ signals then 1 else 0) ≤
      (awake kind k fun u ↦ (thread u).woken u signals pick).card := by
  have hsub : awake kind k thread ⊆ awake kind k fun u ↦ (thread u).woken u signals pick := by
    intro u hu
    rw [mem_awake] at hu ⊢
    cases ht : thread u with
    | ready c => rwa [ht] at hu
    | out | asleep => simp [ht, wants] at hu
  split
  · rename_i hk
    obtain ⟨u, hu, hs⟩ := hpick k hk hsleep
    obtain ⟨c, hc⟩ := Thread.sleepsOn_iff.1 hs
    have hnot : u ∉ awake kind k thread := by rw [mem_awake, hc]; simp [wants]
    rw [← Finset.card_insert_of_notMem hnot]
    refine Finset.card_le_card (Finset.insert_subset ?_ hsub)
    rw [mem_awake, hc]
    simp [Thread.woken, hk, hu, wants, hkind u k c hc]
  · exact Finset.card_le_card hsub

omit [DecidableEq C] in
/-- A thread that arrives, or wakes up by itself, does no harm. -/
theorem Enough.ready (h : Enough kind room I w) {t : T} (c : C)
    (hnot : ∀ c₀, w.thread t ≠ .ready c₀) :
    Enough kind room I { w with thread := Function.update w.thread t (.ready c) } where
  inv := h.inv
  waits u k c' hu := by
    by_cases hut : u = t
    · subst hut
      exact absurd hu (by simp)
    · exact h.waits u k c' (by simpa [Function.update_of_ne hut] using hu)
  room k := by
    rintro ⟨u, hu⟩
    have hut : u ≠ t := by
      rintro rfl
      exact absurd hu (by simp [Thread.sleepsOn])
    have hold := h.room k ⟨u, by simpa [Function.update_of_ne hut] using hu⟩
    have hcount := card_awake_update kind k w.thread t (.ready c)
    have hzero : wants kind k (w.thread t) = false := by
      cases ht : w.thread t with
      | ready c₀ => exact absurd ht (hnot c₀)
      | out | asleep => rfl
    rw [hzero] at hcount
    simp only [Bool.false_eq_true, if_false] at hcount
    change _ ≤ (awake kind k (Function.update w.thread t (.ready c))).card
    exact hold.trans (by omega)

omit [DecidableEq C] in
/-- A section. -/
theorem Enough.run (h : Enough kind room I w) (hM : Signals M kind room I) {t : T} {c : C}
    {pick : K → Option T} (ht : w.thread t = .ready c)
    (hpick : Picks (Function.update w.thread t (Thread.next (M.sect t c w.state).after))
      (M.sect t c w.state).signals pick) :
    Enough kind room I ⟨(M.sect t c w.state).state,
      fun u ↦ Thread.woken u (M.sect t c w.state).signals pick
        (Function.update w.thread t (Thread.next (M.sect t c w.state).after) u)⟩ := by
  have hwait := hM.wait t c w.state
  have hroom := hM.room t c w.state
  have hinv := hM.inv t c w.state h.inv
  generalize M.sect t c w.state = p at *
  generalize hth : Function.update w.thread t (Thread.next p.after) = thread at *
  -- the thread itself sleeps only if it has found nothing
  have hself : ∀ k c', thread t = .asleep k c' → p.after = .wait k c' := by
    intro k c' hs
    rw [← hth, Function.update_self] at hs
    exact Thread.next_eq_asleep.1 hs
  have hother : ∀ u, u ≠ t → thread u = w.thread u := by
    intro u hu
    rw [← hth, Function.update_of_ne hu]
  have hwaits : ∀ u k c', thread u = .asleep k c' → kind c' = some k := by
    intro u k c' hu
    by_cases hut : u = t
    · subst hut
      exact (hwait k c' h.inv (hself k c' hu)).1
    · exact h.waits u k c' (by rwa [← hother u hut])
  refine ⟨hinv, fun u k c' hu ↦ hwaits u k c' (Thread.asleep_of_woken hu), ?_⟩
  · rintro k ⟨u, hu⟩
    obtain ⟨c', hc'⟩ := Thread.sleepsOn_iff.1 hu
    have hsleep := Thread.asleep_of_woken hc'
    change room k p.state ≤ _
    by_cases ha : ∃ c₁, p.after = .wait k c₁
    · obtain ⟨c₁, ha⟩ := ha
      rw [(hwait k c₁ h.inv ha).2]
      exact Nat.zero_le _
    · rw [not_exists] at ha
      have hut : u ≠ t := by
        rintro rfl
        exact ha c' (hself k c' hsleep)
      have hold := h.room k ⟨u, by rw [← hother u hut, Thread.sleepsOn_iff]; exact ⟨c', hsleep⟩⟩
      have hnew := hroom k h.inv ha
      have hwoken := card_awake_woken hwaits hpick ⟨u, Thread.sleepsOn_iff.2 ⟨c', hsleep⟩⟩
      have hcount := card_awake_update kind k w.thread t (Thread.next p.after)
      have hwas : wants kind k (w.thread t) = decide (kind c = some k) := by rw [ht]; rfl
      rw [hth, hwas] at hcount
      simp only [decide_eq_true_eq] at hcount
      change _ ≤ (awake kind k fun u ↦ (thread u).woken u p.signals pick).card
      omega

/-- **One thread is enough**, at every step. -/
theorem Enough.step (h : Enough kind room I w) (hM : Signals M kind room I)
    (hs : M.step w a = some w') : Enough kind room I w' := by
  obtain ⟨t, c, -, hout, -, rfl⟩ | ⟨t, pick, c, -, ht, hpick, rfl⟩ | ⟨t, c', k, c, -, ht, -, rfl⟩ :=
    step_cases hs
  · exact h.ready c (by simp [hout])
  · exact h.run hM ht hpick
  · exact h.ready c' (by simp [ht])

/-- One thread is enough, in every run from a state in which no thread is inside. -/
theorem enough_of_run (hM : Signals M kind room I) {s : S} (hs : I s) {run : List (Turn K C T)}
    (hrun : run.foldlM M.step ⟨s, fun _ ↦ .out⟩ = some w) : Enough kind room I w :=
  run_induction (fun _ _ _ h hs ↦ h.step hM hs) ⟨hs, by simp, by simp [Thread.sleepsOn]⟩ hrun

omit [DecidableEq T] [DecidableEq C] in
/-- **Nobody sleeps in vain.**  When nobody is awake, there is nothing to be had for those who
sleep. -/
theorem Enough.room_eq_zero (h : Enough kind room I w) (hrest : ∀ u c, w.thread u ≠ .ready c)
    {t : T} {c : C} (ht : w.thread t = .asleep k c) : room k w.state = 0 := by
  have hnone : awake kind k w.thread = ∅ := by
    refine Finset.eq_empty_of_forall_notMem fun u hu ↦ ?_
    rw [mem_awake] at hu
    cases hth : w.thread u with
    | ready c' => exact hrest u c' hth
    | out | asleep => simp [hth, wants] at hu
  have hle := h.room k ⟨t, Thread.sleepsOn_iff.2 ⟨c, ht⟩⟩
  rw [hnone, Finset.card_empty] at hle
  exact Nat.le_zero.1 hle

/-! ## One sleeper for each condition -/

/-- What sections have to do if no two threads sleep on one condition.  Whoever waits on condition
`k` leaves a state in which there is nothing to do for those who wait on it, and whoever puts an end
to that signals the condition. -/
structure Rouses (M : Monitor S K C T) (idle : K → S → Prop) : Prop where
  wait : ∀ t c s k c', (M.sect t c s).after = .wait k c' → idle k (M.sect t c s).state
  signal : ∀ t c s k, idle k s → k ∉ (M.sect t c s).signals → idle k (M.sect t c s).state

/-- No two threads sleep on one condition, and there is nothing to do for those who sleep. -/
structure Quiet (idle : K → S → Prop) (w : Crowd S K C T) : Prop where
  alone : ∀ u v k c c', w.thread u = .asleep k c → w.thread v = .asleep k c' → u = v
  idle : ∀ u k c, w.thread u = .asleep k c → idle k w.state

variable {idle : K → S → Prop}

omit [DecidableEq K] [DecidableEq C] [Fintype T] in
theorem Quiet.ready (h : Quiet idle w) (t : T) (c : C) :
    Quiet idle { w with thread := Function.update w.thread t (.ready c) } := by
  have hold : ∀ u k c', Function.update w.thread t (.ready c) u = .asleep k c' →
      w.thread u = .asleep k c' := by
    intro u k c' hu
    rw [Function.update_apply] at hu
    split at hu
    · exact absurd hu (by simp)
    · exact hu
  exact ⟨fun u v k c₁ c₂ hu hv ↦ h.alone u v k c₁ c₂ (hold u k c₁ hu) (hold v k c₂ hv),
    fun u k c' hu ↦ h.idle u k c' (hold u k c' hu)⟩

/-- **A signal does not get lost**, if whoever waits on a condition is the only one who does. -/
theorem Quiet.step (h : Quiet idle w) (hM : Rouses M idle)
    (hfree : ∀ t c k c', w.thread t = .ready c → (M.sect t c w.state).after = .wait k c' →
      ∀ u c₁, w.thread u ≠ .asleep k c₁)
    (hs : M.step w a = some w') : Quiet idle w' := by
  obtain ⟨t, c, -, -, -, rfl⟩ | ⟨t, pick, c, -, ht, hpick, rfl⟩ | ⟨t, c', k, c, -, -, -, rfl⟩ :=
    step_cases hs
  · exact h.ready t c
  · have hwait := hM.wait t c w.state
    have hsignal := hM.signal t c w.state
    have hnobody := fun k c' ↦ hfree t c k c' ht
    generalize M.sect t c w.state = p at *
    generalize hth : Function.update w.thread t (Thread.next p.after) = thread at *
    -- a thread that sleeps is the one that has just begun to, or one that slept before
    have hcases : ∀ u k c', thread u = .asleep k c' →
        u = t ∧ p.after = .wait k c' ∨ u ≠ t ∧ w.thread u = .asleep k c' := by
      intro u k c' hu
      rw [← hth, Function.update_apply] at hu
      split at hu
      · exact Or.inl ⟨by assumption, Thread.next_eq_asleep.1 hu⟩
      · exact Or.inr ⟨by assumption, hu⟩
    have halone : ∀ u v k c₁ c₂, thread u = .asleep k c₁ → thread v = .asleep k c₂ → u = v := by
      intro u v k c₁ c₂ hu hv
      rcases hcases u k c₁ hu with ⟨rfl, ha⟩ | ⟨-, hu'⟩ <;>
        rcases hcases v k c₂ hv with ⟨rfl, ha'⟩ | ⟨-, hv'⟩
      · rfl
      · exact absurd hv' (hnobody k c₁ ha v c₂)
      · exact absurd hu' (hnobody k c₂ ha' u c₁)
      · exact h.alone u v k c₁ c₂ hu' hv'
    refine ⟨fun u v k c₁ c₂ hu hv ↦
      halone u v k c₁ c₂ (Thread.asleep_of_woken hu) (Thread.asleep_of_woken hv),
        fun u k c' hu ↦ ?_⟩
    have hsleep := Thread.asleep_of_woken hu
    rcases hcases u k c' hsleep with ⟨-, ha⟩ | ⟨-, hu'⟩
    · exact hwait k c' ha
    · refine hsignal k (h.idle u k c' hu') fun hk ↦ ?_
      -- the one who is picked can only be `u`
      obtain ⟨v, hv, hsv⟩ := hpick k hk ⟨u, Thread.sleepsOn_iff.2 ⟨c', hsleep⟩⟩
      obtain ⟨c₁, hc₁⟩ := Thread.sleepsOn_iff.1 hsv
      obtain rfl := halone u v k c' c₁ hsleep hc₁
      change (thread u).woken u p.signals pick = _ at hu
      rw [hsleep, Thread.woken, if_pos ⟨hk, hv⟩] at hu
      exact absurd hu (by simp)
  · exact h.ready t c'

end Monitor
end Machine
