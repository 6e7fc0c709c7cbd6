import Yfs.Lock.Correct

/-!
# The lock service as its users see it

To a thread a lock is something that it does not have, is waiting for, has, or is giving back
(`PC.tenure`).  This file says what there is to know about the service in these terms, for those who
only call `acquire` and `release`:

* a step of a thread changes nothing about the locks of all other threads, and takes its own thread
  one of these stages on or leaves it where it is (`State.Ok.tenure_step`);
* two threads never have the same lock (`State.Ok.eq_of_held`);
* if nobody inside a call can move, then whoever waits for a lock waits for a thread that has it
  (`State.Ok.held_of_blocked`).
-/

set_option autoImplicit false

namespace Yfs
namespace Lock

variable {C T : Type}

/-- What a lock is to a thread. -/
inductive Tenure where
  | out | acquiring | held | releasing
  deriving DecidableEq, Repr

namespace PC

/-- Read it off the program counter. -/
def tenure : PC C → Tenure
  | .out => .out
  | .waitEmpty _ | .waitQueue _ | .waitRetry _ | .acquire _ => .acquiring
  | .held => .held
  | .release _ => .releasing

variable {p q : PC C}

theorem tenure_eq_held : p.tenure = .held ↔ p = .held := by
  cases p <;> simp [tenure]

theorem tenure_eq_out : p.tenure = .out ↔ p = .out := by
  cases p <;> simp [tenure]

/-- A signal does not change it. -/
theorem tenure_of_calm (h : p.calm = q.calm) : p.tenure = q.tenure := by
  have hcalm : ∀ r : PC C, r.calm.tenure = r.tenure := fun r ↦ by cases r <;> rfl
  rw [← hcalm p, h, hcalm q]

theorem resting_of_inRpc (h : p.inRpc = true) : p.resting = false := by
  cases p <;> simp_all [resting, inRpc]

theorem inRpc_of_releasing (h : p.tenure = .releasing) : p.inRpc = true := by
  cases p <;> simp_all [tenure, inRpc]

theorem tenure_of_inCall (h : p.inCall = true) : p.tenure = .acquiring ∨ p.tenure = .releasing := by
  cases p <;> simp_all [tenure, inCall]

end PC

/-- A section of `acquire` ends with the lock, or on the way to it. -/
theorem Next.tenure_pc (n : Next) :
    (n.pc : PC C).tenure = .acquiring ∨ (n.pc : PC C).tenure = .held := by
  cases n <;> simp [Next.pc, PC.tenure]

/-! ## Calls -/

/-- What lock `lid` is to thread `t`. -/
def State.tenure (s : State C T) (lid : Lid) (t : T) : Tenure := ((s.lane lid).pc t).tenure

/-- A step of the service, inside a call of `acquire` or `release`, and whether the call returns
with it.  While the call goes on, the lock is to the thread one of `during`, and it returns when the
lock has come to be `g`. -/
def State.call (step : State C T → T × Lid → Option (State C T)) (s : State C T) (t : T) (lid : Lid)
    (during : List Tenure) (g : Tenure) : Option (State C T × Bool) :=
  if s.tenure lid t ∈ during then
    (step s (t, lid)).map fun s' ↦ (s', s'.tenure lid t = g)
  else none

section Call

variable {step : State C T → T × Lid → Option (State C T)} {s s' : State C T} {t : T} {lid : Lid}
  {during : List Tenure} {g : Tenure}

theorem State.of_call {returned : Bool} (h : s.call step t lid during g = some (s', returned)) :
    s.tenure lid t ∈ during ∧ step s (t, lid) = some s' ∧
      (returned = true ↔ s'.tenure lid t = g) := by
  obtain ⟨hduring, h⟩ := Option.ite_none_right_eq_some.1 h
  obtain ⟨s', hs, he⟩ := Option.map_eq_some_iff.1 h
  obtain ⟨rfl, rfl⟩ := Prod.mk.inj he
  exact ⟨hduring, hs, decide_eq_true_iff⟩

theorem State.step_of_call_eq_none (h : s.call step t lid during g = none)
    (hduring : s.tenure lid t ∈ during) : step s (t, lid) = none := by
  rw [call, if_pos hduring, Option.map_eq_none_iff] at h
  exact h

end Call

/-! ## What a step does -/

variable [DecidableEq C] [DecidableEq T] {N : Cluster C T}

namespace Lane

variable {s s' : Lane C T} {t : T} {f : Option Fault}

theorem tenure_of_ne (hs : s.step N t = some (s', f)) {x : T} (hx : x ≠ t) :
    (s'.pc x).tenure = (s.pc x).tenure :=
  PC.tenure_of_calm (sameOthers_step hs x hx)

omit [DecidableEq C] in
theorem tenure_setPc (s₀ : Lane C T) (p : PC C) : ((s₀.setPc t p).pc t).tenure = p.tenure := by
  simp only [setPc, Function.update_self]

omit [DecidableEq C] in
theorem tenure_signal (s₀ : Lane C T) (w : Option T) (x : T) :
    ((s₀.signal w).pc x).tenure = (s₀.pc x).tenure :=
  PC.tenure_of_calm (signal_calm s₀ w x)

theorem tenure_finish (r : ClientLock T × Next) :
    ((s.finish N t r).1.pc t).tenure = .acquiring ∨ ((s.finish N t r).1.pc t).tenure = .held := by
  rw [finish, tenure_setPc]
  exact r.2.tenure_pc

/-- A release call in the chain of a thread leaves that thread where it is. -/
theorem tenure_relStep {c : C} {k : Rel → PC C} {g : Tenure} {r : Rel} (hk : ∀ r, (k r).tenure = g)
    (ht : (s.pc t).tenure = g) (hs : s.relStep N t c k r = some (s', f)) :
    (s'.pc t).tenure = g := by
  cases r <;> simp only [relStep] at hs
  · split at hs <;> cases hs
    · exact ht
    · rw [tenure_setPc, hk]
    · rw [tenure_setPc, hk]
  · cases hs
    rw [tenure_setPc, hk]
  · split at hs
    · cases hs
      rw [tenure_setPc, hk]
    · split at hs <;> cases hs
      · exact ht
      · rw [tenure_signal, tenure_setPc, hk]
  · cases hs
    rw [tenure_setPc, hk]
  · cases hs

theorem tenure_acqStep {q : Acq C} (ht : (s.pc t).tenure = .acquiring)
    (hs : s.acqStep N t q = some (s', f)) :
    (s'.pc t).tenure = .acquiring ∨ (s'.pc t).tenure = .held := by
  rw [acqStep.eq_def] at hs
  split at hs
  · split at hs <;> cases hs
    · exact Or.inl ht
    · exact Or.inl (tenure_setPc _ _)
  · cases hs
    exact Or.inl (tenure_setPc _ _)
  · split at hs <;> cases hs
    · exact Or.inl (tenure_setPc _ _)
    · exact Or.inl (tenure_setPc _ _)
  · cases hs
    exact Or.inl ((tenure_signal _ _ _).trans (tenure_setPc _ _))
  · exact Or.inl (tenure_relStep (fun _ ↦ rfl) ht hs)
  · cases hs
    exact Or.inl (tenure_setPc _ _)
  · cases hs
    exact tenure_finish _

theorem tenure_finishRelease {r : Option (ClientLock T × Option T)}
    (hr : (s.finishRelease N t r).2 = none) : ((s.finishRelease N t r).1.pc t).tenure = .out := by
  cases r with
  | none => exact absurd hr (by simp [finishRelease])
  | some r => exact (tenure_signal _ _ _).trans (tenure_setPc _ _)

/-- On the way to the lock. -/
theorem tenure_of_acquiring (ht : (s.pc t).tenure = .out ∨ (s.pc t).tenure = .acquiring)
    (hs : s.step N t = some (s', f)) :
    (s'.pc t).tenure = .acquiring ∨ (s'.pc t).tenure = .held := by
  cases hp : s.pc t with
  | out =>
    simp only [step, hp] at hs
    cases hs
    exact tenure_finish _
  | waitEmpty b | waitQueue b | waitRetry b =>
    cases b <;> simp only [step, hp] at hs <;> cases hs
    exact tenure_finish _
  | acquire q =>
    simp only [step, hp] at hs
    exact tenure_acqStep (by rw [hp]; rfl) hs
  | held | release r => simp [hp, PC.tenure] at ht

/-- On the way back. -/
theorem tenure_of_releasing (ht : (s.pc t).tenure = .held ∨ (s.pc t).tenure = .releasing)
    (hs : s.step N t = some (s', none)) :
    (s'.pc t).tenure = .releasing ∨ (s'.pc t).tenure = .out := by
  cases hp : s.pc t with
  | held =>
    simp only [step, hp] at hs
    split at hs
    · cases hs
      exact Or.inr (tenure_setPc _ _)
    · split at hs
      · cases hs
        exact Or.inl (tenure_setPc _ _)
      · have hout := Option.some_inj.1 hs
        rw [← show (s.finishRelease N t _).1 = s' from congrArg Prod.fst hout]
        exact Or.inr (tenure_finishRelease (congrArg Prod.snd hout))
  | release r =>
    cases r with
    | reply ret =>
      simp only [step, hp] at hs
      have hout := Option.some_inj.1 hs
      rw [← show (s.finishRelease N t _).1 = s' from congrArg Prod.fst hout]
      exact Or.inr (tenure_finishRelease (congrArg Prod.snd hout))
    | request | unlocked | retry | retried =>
      simp only [step, hp] at hs
      exact Or.inl (tenure_relStep (k := .release) (fun _ ↦ rfl) (by rw [hp]; rfl) hs)
  | out | waitEmpty | waitQueue | waitRetry | acquire => simp [hp, PC.tenure] at ht

/-- A thread that does not wait for a signal can move. -/
theorem isSome_step (ht : (s.pc t).resting = false ∨ s.pc t = .out ∨ s.pc t = .held) :
    (s.step N t).isSome = true := by
  have hrel : ∀ {c : C} {k : Rel → PC C} {r : Rel}, (∀ ret, r ≠ .reply ret) →
      (s.relStep N t c k r).isSome = true := by
    intro c k r hr
    cases r with
    | reply ret => exact absurd rfl (hr ret)
    | unlocked | retried => rfl
    | request =>
      simp only [relStep]
      split <;> rfl
    | retry cid =>
      simp only [relStep]
      split
      · rfl
      · split <;> rfl
  cases hp : s.pc t with
  | out => simp only [step, hp]; rfl
  | held =>
    simp only [step, hp]
    split
    · rfl
    · split <;> rfl
  | waitEmpty b | waitQueue b | waitRetry b =>
    cases b with
    | false => simp [hp, PC.resting] at ht
    | true => simp only [step, hp]; rfl
  | release r =>
    cases r with
    | reply ret => simp only [step, hp]; rfl
    | request | unlocked | retry | retried =>
      simp only [step, hp]
      exact hrel (by simp)
  | acquire q =>
    simp only [step, hp]
    cases q with
    | request =>
      simp only [acqStep]
      split <;> rfl
    | unlocked | revoked | reply => rfl
    | revoke ret cid =>
      simp only [acqStep]
      split <;> rfl
    | releasing ret c r =>
      cases r with
      | reply ret' => rfl
      | request | unlocked | retry | retried =>
        simp only [acqStep]
        exact hrel (by simp)

end Lane

/-! ## The service -/

/-- Nothing has changed but what lock `lid` is to thread `t`. -/
structure OnlyThread (s s' : State C T) (t : T) (lid : Lid) : Prop where
  other : ∀ x l, x ≠ t ∨ l ≠ lid → s'.tenure l x = s.tenure l x
  busy : s'.busy t = none ∨ s'.busy t = some lid
  otherBusy : ∀ x, x ≠ t → s'.busy x = s.busy x

/-- What a step of thread `t` with lock `lid` changes. -/
structure TenureStep (s s' : State C T) (t : T) (lid : Lid) : Prop
    extends OnlyThread s s' t lid where
  acquiring : s.tenure lid t = .out ∨ s.tenure lid t = .acquiring →
    s'.tenure lid t = .acquiring ∨ s'.tenure lid t = .held
  releasing : s.tenure lid t = .held ∨ s.tenure lid t = .releasing →
    s'.tenure lid t = .releasing ∨ s'.tenure lid t = .out

namespace State.Ok

variable {s s' : State C T} {t : T} {lid : Lid} (h : s.Ok N)
include h

/-- **One step, as its users see it.** -/
theorem tenure_step (hs : Lock.step N s (t, lid) = some s') : TenureStep s s' t lid := by
  obtain ⟨⟨f, hl⟩, hsame⟩ := lane_of_step hs
  obtain ⟨-, hbusy, hothers⟩ := busy_of_step hs
  refine ⟨⟨fun x l hne ↦ ?_, hbusy, hothers⟩, fun ht ↦ Lane.tenure_of_acquiring ht hl, fun ht ↦ ?_⟩
  · by_cases hlid : l = lid
    · subst hlid
      exact Lane.tenure_of_ne hl (hne.resolve_right (by simp))
    · rw [State.tenure, hsame l hlid, State.tenure]
  · -- only an acquire can bring a process down
    obtain ⟨a, hrep, hi⟩ := h.lane lid
    obtain ⟨-, rfl⟩ | ⟨-, -, hpc, -⟩ := hrep.step hi hl
    · exact Lane.tenure_of_releasing ht hl
    · rw [State.tenure, hpc] at ht
      exact absurd ht (by simp [PC.tenure])

omit h in
/-- A thread is no longer inside the call once it has returned. -/
theorem busy_of_returned (hs : Lock.step N s (t, lid) = some s')
    (ht : s'.tenure lid t = .held ∨ s'.tenure lid t = .out) : s'.busy t = none := by
  simp only [Lock.step] at hs
  split at hs
  · obtain ⟨⟨l, f⟩, -, rfl⟩ := Option.map_eq_some_iff.1 hs
    simp only [State.tenure, Function.update_self] at ht ⊢
    rw [if_neg]
    intro hin
    rcases PC.tenure_of_inCall hin with he | he <;> rcases ht with ht | ht <;>
      exact absurd (he.symm.trans ht) (by simp)
  · exact absurd hs (by simp)

omit [DecidableEq C] [DecidableEq T] in
/-- Two threads never have the same lock. -/
theorem eq_of_held {t' : T} (ht : s.tenure lid t = .held) (ht' : s.tenure lid t' = .held) :
    t' = t := by
  obtain ⟨a, hrep, hi⟩ := h.lane lid
  obtain ⟨⟨b, hb⟩, rest, hq⟩ := hrep.mode_of_held (PC.tenure_eq_held.1 ht)
  obtain ⟨⟨b', hb'⟩, rest', hq'⟩ := hrep.mode_of_held (PC.tenure_eq_held.1 ht')
  have howner : N.owner t' = N.owner t :=
    hi.owner_unique (by simp [hb, Mode.owns]) (by simp [hb', Mode.owns])
  rw [howner, hq] at hq'
  exact (List.cons_eq_cons.1 hq').1.symm

variable (hid : ∀ c, N.id c ≠ "")
include hid

omit [DecidableEq C] [DecidableEq T] in
theorem fault_eq_none (p : Place C) : s.fault p = none := by
  cases hf : s.fault p with
  | none => rfl
  | some f =>
    obtain ⟨-, -, c, hc⟩ := h.fault p f hf
    exact absurd hc (hid c)

/-- A thread that is not inside another call, and does not wait for a signal, can move. -/
theorem isSome_step (hbusy : s.busy t = none ∨ s.busy t = some lid)
    (ht : ((s.lane lid).pc t).resting = false ∨ s.tenure lid t = .out ∨ s.tenure lid t = .held) :
    (Lock.step N s (t, lid)).isSome = true := by
  simp only [Lock.step]
  rw [if_pos ⟨hbusy, h.fault_eq_none hid _⟩, Option.isSome_map]
  refine Lane.isSome_step ?_
  rwa [State.tenure, PC.tenure_eq_out, PC.tenure_eq_held] at ht

/-- **Nobody waits for nobody.**  If no thread that is inside a call can move, then a lock that a
thread is waiting for is one that another thread has. -/
theorem held_of_blocked
    (hblocked : ∀ x l, ((s.lane l).pc x).inCall = true → Lock.step N s (x, l) = none)
    (ht : s.tenure lid t = .acquiring) : ∃ t', s.tenure lid t' = .held := by
  have hrest : ∀ x, ((s.lane lid).pc x).resting = true := by
    intro x
    by_contra hx
    rw [Bool.not_eq_true] at hx
    have hin : ((s.lane lid).pc x).inCall = true := by
      cases hp : (s.lane lid).pc x <;> simp_all [PC.resting, PC.inCall]
    have hsome := h.isSome_step hid (Or.inr (h.busy x lid hin)) (Or.inl hx)
    rw [hblocked x lid hin] at hsome
    exact absurd hsome (by simp)
  obtain ⟨a, hrep, hi⟩ := h.lane lid
  have hout : (s.lane lid).own t ≠ .out := by
    intro e
    rw [State.tenure] at ht
    cases hp : (s.lane lid).pc t with
    | out => simp [hp, PC.tenure] at ht
    | acquire q => cases q <;> simp [Lane.own, hp, PC.own] at e
    | held | waitEmpty | waitQueue | waitRetry | release => simp [Lane.own, hp, PC.own] at e
  have hmem := ((hrep.client (N.owner t)).mem t).2 ⟨rfl, hout⟩
  obtain ⟨w, hw⟩ : ∃ w, (s.lane lid).pc w = .held := by
    rcases hrep.front_of_resting hrest (List.ne_nil_of_mem hmem) with hheld | hm
    · exact hheld
    · exact hrep.held_of_parked hi hrest hm
  exact ⟨w, PC.tenure_eq_held.2 hw⟩

end State.Ok

end Lock
end Yfs
