import Yfs.Machine.Run
import Yfs.Lock.Refinement

/-!
# What the lock service guarantees

Every lane of a reachable state represents a protocol state that satisfies the protocol invariant
(`Reachable.ok`), so what there is to say about the service can be said by looking at modes:

* two threads never have the same lock, because two owners would both be the recorded holder;
* when the service has come to rest and somebody is still waiting, somebody has the lock: a parked
  client is in the waiter set, a lock with waiters is being revoked, and a revoke that is not on its
  way is known to the owner;
* the server's assertions hold, provided that no client introduces itself by the empty string.
-/

set_option autoImplicit false

namespace Yfs
namespace Lock

variable {C T : Type} {N : Cluster C T}

/-! ## What a step leaves alone

A thread's step can wake another thread, but not move it. -/

/-- A program counter without the mark of a signal. -/
def PC.calm : PC C → PC C
  | .waitEmpty _ => .waitEmpty false
  | .waitQueue _ => .waitQueue false
  | .waitRetry _ => .waitRetry false
  | p => p

theorem PC.inCall_of_calm {p q : PC C} (h : p.calm = q.calm) : p.inCall = q.inCall := by
  cases p <;> cases q <;> simp_all [PC.calm, PC.inCall]

namespace Lane

variable {s s' : Lane C T} {t : T}

/-- No thread but `t` has moved. -/
def SameOthers (t : T) (s s' : Lane C T) : Prop :=
  ∀ x, x ≠ t → (s'.pc x).calm = (s.pc x).calm

/-- Every thread but `t` is inside a call afterwards if and only if it was before. -/
def SameCalls (t : T) (s s' : Lane C T) : Prop :=
  ∀ x, x ≠ t → (s'.pc x).inCall = (s.pc x).inCall

variable [DecidableEq T]

theorem sameOthers_setPc (s₀ : Lane C T) (hs : s₀.pc = s.pc) (p : PC C) :
    SameOthers t s (s₀.setPc t p) := by
  intro x hx
  simp only [setPc, hs, Function.update_of_ne hx]

/-- A wait stays a wait. -/
theorem signal_calm (s : Lane C T) (w : Option T) (x : T) :
    ((s.signal w).pc x).calm = (s.pc x).calm := by
  cases w with
  | none => rfl
  | some w =>
    rw [Lane.signal]
    split <;> rename_i hw
    all_goals try rfl
    all_goals
      simp only [setPc, Function.update_apply]
      split
      · rename_i e; rw [e, hw]; rfl
      · rfl

theorem SameOthers.signal (h : SameOthers t s s') (w : Option T) : SameOthers t s (s'.signal w) :=
  fun x hx ↦ (signal_calm s' w x).trans (h x hx)

variable [DecidableEq C]

theorem sameOthers_finish (r : ClientLock T × Next) : SameOthers t s (s.finish N t r).1 :=
  sameOthers_setPc _ rfl _

theorem sameOthers_finishRelease (r : Option (ClientLock T × Option T)) :
    SameOthers t s (s.finishRelease N t r).1 := by
  cases r with
  | none => exact fun _ _ ↦ rfl
  | some r => exact (sameOthers_setPc _ rfl _).signal r.2

theorem sameOthers_relStep {c : C} {k : Rel → PC C} {r : Rel} {f : Option Fault}
    (hs : s.relStep N t c k r = some (s', f)) : SameOthers t s s' := by
  cases r <;> simp only [relStep] at hs
  · split at hs <;> cases hs
    · exact fun _ _ ↦ rfl
    · exact sameOthers_setPc _ rfl _
    · exact sameOthers_setPc _ rfl _
  · cases hs; exact sameOthers_setPc _ rfl _
  · split at hs
    · cases hs; exact sameOthers_setPc _ rfl _
    · split at hs <;> cases hs
      · exact fun _ _ ↦ rfl
      · exact (sameOthers_setPc _ rfl _).signal _
  · cases hs; exact sameOthers_setPc _ rfl _
  · cases hs

theorem sameOthers_acqStep {q : Acq C} {f : Option Fault}
    (hs : s.acqStep N t q = some (s', f)) : SameOthers t s s' := by
  rw [acqStep.eq_def] at hs
  split at hs
  · split at hs <;> cases hs
    · exact fun _ _ ↦ rfl
    · exact sameOthers_setPc _ rfl _
  · cases hs; exact sameOthers_setPc _ rfl _
  · split at hs <;> cases hs
    · exact sameOthers_setPc _ rfl _
    · exact sameOthers_setPc _ rfl _
  · cases hs; exact (sameOthers_setPc _ rfl _).signal _
  · exact sameOthers_relStep hs
  · cases hs; exact sameOthers_setPc _ rfl _
  · cases hs; exact sameOthers_finish _

theorem sameOthers_step {f : Option Fault} (hs : s.step N t = some (s', f)) :
    SameOthers t s s' := by
  rw [step] at hs
  split at hs
  · cases hs; exact sameOthers_finish _
  · split at hs
    · cases hs; exact sameOthers_setPc _ rfl _
    · split at hs
      · cases hs; exact sameOthers_setPc _ rfl _
      · obtain rfl : _ = s' := congrArg Prod.fst (Option.some.inj hs)
        exact sameOthers_finishRelease _
  · cases hs; exact sameOthers_finish _
  · cases hs; exact sameOthers_finish _
  · cases hs; exact sameOthers_finish _
  · cases hs
  · cases hs
  · cases hs
  · exact sameOthers_acqStep hs
  · obtain rfl : _ = s' := congrArg Prod.fst (Option.some.inj hs)
    exact sameOthers_finishRelease _
  · exact sameOthers_relStep hs

theorem sameCalls_step {f : Option Fault} (hs : s.step N t = some (s', f)) : SameCalls t s s' :=
  fun x hx ↦ PC.inCall_of_calm (sameOthers_step hs x hx)

end Lane

variable [DecidableEq C] [DecidableEq T]

/-! ## Reachable states -/

/-- What holds in every state of the service. -/
structure State.Ok (N : Cluster C T) (s : State C T) : Prop where
  /-- Every lane represents a protocol state that is in order. -/
  lane : ∀ lid, ∃ a, Rep N (s.lane lid) a ∧ a.Inv N
  /-- A thread is inside a call for the lock it is recorded to be busy with. -/
  busy : ∀ t lid, ((s.lane lid).pc t).inCall = true → s.busy t = some lid
  /-- Nothing goes wrong except at the server, and there only if a client has no name. -/
  fault : ∀ p f, s.fault p = some f → p = .server ∧ f = .verify ∧ ∃ c, N.id c = ""

/-- A lane that moves goes on representing a protocol state that is in order. -/
theorem Rep.ok_step {l l' : Lane C T} {a : Abs C T} {t : T} {f : Option Fault} (h : Rep N l a)
    (hi : a.Inv N) (hs : l.step N t = some (l', f)) : ∃ a', Rep N l' a' ∧ a'.Inv N := by
  obtain ⟨⟨a', ha, h'⟩, -⟩ | ⟨rfl, -⟩ := h.step hi hs
  · rcases ha with rfl | ha
    · exact ⟨a', h', hi⟩
    · exact ⟨a', h', hi.step ha⟩
  · exact ⟨a, h, hi⟩

theorem State.Ok.step {s s' : State C T} (h : s.Ok N) {t : T} {lid : Lid}
    (hs : step N s (t, lid) = some s') : s'.Ok N := by
  simp only [Lock.step] at hs
  split at hs
  · rename_i hg
    rw [Option.map_eq_some_iff] at hs
    obtain ⟨⟨l, f⟩, hl, rfl⟩ := hs
    obtain ⟨a, hrep, hi⟩ := h.lane lid
    refine ⟨fun lid' ↦ ?_, fun x lid' hx ↦ ?_, fun p f' hf ↦ ?_⟩
    · by_cases e : lid' = lid
      · subst e
        simpa using hrep.ok_step hi hl
      · simpa [Function.update_of_ne e] using h.lane lid'
    · by_cases e : lid' = lid
      · subst e
        by_cases ex : x = t
        · subst ex
          simp only [Function.update_self] at hx ⊢
          simp [hx]
        · simp only [Function.update_self, Function.update_of_ne ex] at hx ⊢
          exact h.busy x lid' ((Lane.sameCalls_step hl x ex).symm.trans hx)
      · simp only [Function.update_of_ne e] at hx
        have hb := h.busy x lid' hx
        have ex : x ≠ t := by
          rintro rfl
          rw [hb] at hg
          exact e (by simpa using hg.1)
        simpa only [Function.update_of_ne ex] using hb
    · obtain ⟨-, rfl⟩ | ⟨-, rfl, hpc, hid⟩ := hrep.step hi hl
      · exact h.fault p f' (by simpa using hf)
      · simp only [Option.isSome_some, if_true, hpc, PC.place, Function.update_apply] at hf
        split at hf
        · rename_i ep
          exact ⟨ep, (Option.some_inj.1 hf).symm, hid⟩
        · exact h.fault p f' hf
  · exact absurd hs (by simp)

theorem Reachable.ok {s : State C T} (h : Reachable N s) : s.Ok N := by
  obtain ⟨run, hrun⟩ := h
  refine Machine.run_induction (fun s a s' hs hstep ↦ hs.step hstep) ?_ hrun
  exact ⟨fun _ ↦ ⟨{}, rep_init N, Abs.inv_init N⟩, by simp [PC.inCall], by simp⟩

/-- A step moves one lane. -/
theorem lane_of_step {s s' : State C T} {x : T × Lid} (hs : step N s x = some s') :
    (∃ f, (s.lane x.2).step N x.1 = some (s'.lane x.2, f)) ∧
      ∀ lid, lid ≠ x.2 → s'.lane lid = s.lane lid := by
  simp only [step] at hs
  split at hs
  · rw [Option.map_eq_some_iff] at hs
    obtain ⟨⟨l, f⟩, hl, rfl⟩ := hs
    exact ⟨⟨f, by simpa using hl⟩, fun lid hne ↦ Function.update_of_ne hne _ _⟩
  · exact absurd hs (by simp)

/-- A thread is in one call at a time. -/
theorem busy_of_step {s s' : State C T} {t : T} {lid : Lid} (hs : step N s (t, lid) = some s') :
    (s.busy t = none ∨ s.busy t = some lid) ∧ (s'.busy t = none ∨ s'.busy t = some lid) ∧
      ∀ x, x ≠ t → s'.busy x = s.busy x := by
  simp only [step] at hs
  split at hs
  · rename_i hg
    rw [Option.map_eq_some_iff] at hs
    obtain ⟨⟨l, f⟩, -, rfl⟩ := hs
    refine ⟨hg.1, ?_, fun x hx ↦ Function.update_of_ne hx _ _⟩
    simp only [Function.update_self]
    split
    · exact Or.inr rfl
    · exact Or.inl rfl
  · exact absurd hs (by simp)

/-- Locks do not interfere: a run that never touches a lock leaves its lane alone. -/
theorem lane_of_untouched {lid : Lid} :
    ∀ (run : List (T × Lid)) {s s' : State C T}, (∀ x ∈ run, x.2 ≠ lid) →
      run.foldlM (step N) s = some s' → s'.lane lid = s.lane lid
  | [], s, s', _, h => by
    obtain rfl : s = s' := by simpa using h
    rfl
  | (t, lid') :: run, s, s', hrun, h => by
    rw [List.foldlM_cons, Option.bind_eq_bind, Option.bind_eq_some_iff] at h
    obtain ⟨s₁, h₁, h⟩ := h
    rw [lane_of_untouched run (fun x hx ↦ hrun x (List.mem_cons_of_mem _ hx)) h]
    exact (lane_of_step h₁).2 lid (hrun _ List.mem_cons_self).symm

/-! ## Mutual exclusion -/

omit [DecidableEq C] [DecidableEq T] in
/-- A thread that has the lock is the first in its client's queue, and its client owns the lock. -/
theorem Rep.mode_of_held {l : Lane C T} {a : Abs C T} {t : T} (h : Rep N l a)
    (ht : l.pc t = .held) :
    (∃ b, a.mode (N.owner t) = .locked b) ∧ ∃ rest, (l.lockOf (N.owner t)).queue = t :: rest := by
  have hown : l.own t = .held := by simp [Lane.own, ht, PC.own]
  have hc := h.client (N.owner t)
  have hfits := hc.fits rfl (by simp [hown]) (by simp [hown])
  rw [hown] at hfits
  exact ⟨hfits, hc.queue_eq rfl (by simp [hown]) (by simp [hown])⟩

/-- **Mutual exclusion.**  In no reachable state have two threads, of the same client or not, both
returned from `acquire(lid)` without having called `release(lid)` since. -/
theorem held_unique {s : State C T} (h : Reachable N s) {lid : Lid} {t t' : T}
    (ht : (s.lane lid).pc t = .held) (ht' : (s.lane lid).pc t' = .held) : t' = t := by
  obtain ⟨a, hrep, hi⟩ := h.ok.lane lid
  obtain ⟨⟨b, hb⟩, rest, hq⟩ := hrep.mode_of_held ht
  obtain ⟨⟨b', hb'⟩, rest', hq'⟩ := hrep.mode_of_held ht'
  have howner : N.owner t' = N.owner t :=
    hi.owner_unique (by simp [hb, Mode.owns]) (by simp [hb', Mode.owns])
  rw [howner, hq] at hq'
  exact (List.cons_eq_cons.1 hq').1.symm

/-- Two clients with a thread each. -/
def twoClients : Cluster Bool Bool where
  id c := if c then "b" else "a"
  clientAt s := if s = "a" then some false else if s = "b" then some true else none
  clientAt_eq s c := by
    by_cases ha : s = "a"
    · subst ha; cases c <;> simp
    · by_cases hb : s = "b"
      · subst hb; cases c <;> simp
      · cases c <;> simp [ha, hb, Ne.symm ha, Ne.symm hb]
  owner := id

/-- The first client gets lock 1; the second asks for it and is turned away, and the first is told
that its lock is wanted. -/
def contended : List (Bool × Lid) :=
  List.replicate 3 (false, 1) ++ List.replicate 6 (true, 1)

/-- The first client gives the lock back, and the second asks again and gets it. -/
def handedOver : List (Bool × Lid) :=
  contended ++ List.replicate 6 (false, 1) ++ List.replicate 3 (true, 1)

theorem handedOver_isSome : (handedOver.foldlM (step twoClients) {}).isSome = true := by decide

theorem held_unique_handedOver :
    ∃ s, handedOver.foldlM (step twoClients) {} = some s ∧ (s.lane 1).pc true = .held ∧
      ∀ t', (s.lane 1).pc t' = .held → t' = true := by
  have hrun := (Option.some_get handedOver_isSome).symm
  have hheld : (((handedOver.foldlM (step twoClients) {}).get handedOver_isSome).lane 1).pc true
      = .held := by decide
  exact ⟨_, hrun, hheld, fun t' ht' ↦ held_unique ⟨handedOver, hrun⟩ hheld ht'⟩

/-! ## Nothing gets lost -/

/-- Is the thread inside `acquire`? -/
def PC.inAcquire : PC C → Bool
  | .waitEmpty _ | .waitQueue _ | .waitRetry _ | .acquire _ => true
  | _ => false

/-- Is the thread waiting for an RPC, or for one of the calls its RPC has led to? -/
def PC.inRpc : PC C → Bool
  | .acquire _ | .release _ => true
  | _ => false

/-- The service is at rest: no RPC is in flight or being handled, and no thread that is inside
`acquire` or `release` can take a step. -/
structure State.Quiescent (N : Cluster C T) (s : State C T) : Prop where
  noRpc : ∀ t lid, ((s.lane lid).pc t).inRpc = false
  stuck : ∀ t lid, ((s.lane lid).pc t).inCall = true → step N s (t, lid) = none

omit [DecidableEq C] in
/-- A chain that brings a lock back has not reached the server. -/
theorem Carry.rel_of_brings {k : Carry C} {c : C} (h : k.brings = some c) :
    k = .rel c .request := by
  cases k with
  | rel d r => cases r <;> simp_all [Carry.brings]
  | nothing | revoke => simp [Carry.brings] at h

omit [DecidableEq C] in
theorem Carry.rel_of_owesRetry {k : Carry C} (h : k.owesRetry = true) :
    ∃ c, k = .rel c .unlocked ∨ ∃ cid, k = .rel c (.retry cid) := by
  cases k with
  | rel c r => cases r <;> simp_all [Carry.owesRetry]
  | nothing | revoke => simp [Carry.owesRetry] at h

omit [DecidableEq C] in
theorem PC.eq_of_own_asking {p : PC C} (h : p.own = .asking) : p = .acquire .request := by
  cases p with
  | acquire q => cases q <;> simp_all [PC.own]
  | out | held | waitEmpty | waitQueue | waitRetry | release => simp [PC.own] at h

namespace Lane

/-- A revoke for client `c` has been decided on and not been handled. -/
def RevokeOnWay (N : Cluster C T) (s : Lane C T) (c : C) : Prop :=
  ∃ t ret, s.pc t = .acquire (.unlocked ret) ∨ s.pc t = .acquire (.revoke ret (N.id c))

/-- A release call of client `c` is at stage `r`: the client's thread has made it, or its revoke
handler. -/
def Releasing (N : Cluster C T) (s : Lane C T) (c : C) (r : Rel) : Prop :=
  ∃ t, (s.pc t = .release r ∧ N.owner t = c) ∨ ∃ ret, s.pc t = .acquire (.releasing ret c r)

/-- A retry for client `c` has been decided on and not been handled. -/
def RetryOnWay (N : Cluster C T) (s : Lane C T) (c : C) : Prop :=
  ∃ d, s.Releasing N d .unlocked ∨ s.Releasing N d (.retry (N.id c))

/-- An acquire of client `c` is on its way. -/
def AcquireOnWay (N : Cluster C T) (s : Lane C T) (c : C) : Prop :=
  ∃ t, N.owner t = c ∧ s.pc t = .acquire .request

variable {s : Lane C T} {t : T} {c : C}

omit [DecidableEq C] [DecidableEq T]

theorem revokeOnWay_of_owes (h : (s.carry N t).owesRevoke = true)
    (hcid : ∀ cid, (s.carry N t).revokeCid = some cid → cid = N.id c) : s.RevokeOnWay N c := by
  cases hp : s.pc t with
  | acquire q =>
    cases q with
    | unlocked ret => exact ⟨t, ret, Or.inl hp⟩
    | revoke ret cid =>
      obtain rfl := hcid cid (by simp [carry, hp, PC.carry, Carry.revokeCid])
      exact ⟨t, ret, Or.inr hp⟩
    | request | releasing | revoked | reply =>
      simp [carry, hp, PC.carry, Carry.owesRevoke] at h
  | out | held | waitEmpty | waitQueue | waitRetry | release =>
    simp [carry, hp, PC.carry, Carry.owesRevoke] at h

theorem releasing_of_carry {r : Rel} (h : s.carry N t = .rel c r) : s.Releasing N c r := by
  cases hp : s.pc t with
  | acquire q =>
    cases q with
    | releasing ret d r' =>
      simp only [carry, hp, PC.carry, Carry.rel.injEq] at h
      obtain ⟨rfl, rfl⟩ := h
      exact ⟨t, Or.inr ⟨ret, hp⟩⟩
    | request | unlocked | revoke | revoked | reply => simp [carry, hp, PC.carry] at h
  | release r' =>
    simp only [carry, hp, PC.carry, Carry.rel.injEq] at h
    obtain ⟨rfl, rfl⟩ := h
    exact ⟨t, Or.inl ⟨hp, rfl⟩⟩
  | out | held | waitEmpty | waitQueue | waitRetry => simp [carry, hp, PC.carry] at h

theorem carry_of_releasing {r : Rel} (h : s.Releasing N c r) : ∃ t, s.carry N t = .rel c r := by
  obtain ⟨t, ⟨hp, rfl⟩ | ⟨ret, hp⟩⟩ := h
  · exact ⟨t, by simp [carry, hp, PC.carry]⟩
  · exact ⟨t, by simp [carry, hp, PC.carry]⟩

end Lane

/-- What a thread can be doing in a service at rest. -/
def PC.resting : PC C → Bool
  | .out | .held | .waitEmpty false | .waitQueue false | .waitRetry false => true
  | _ => false

omit [DecidableEq C] in
theorem PC.carry_of_resting {o : C} {p : PC C} (h : p.resting = true) : p.carry o = .nothing := by
  cases p with
  | acquire q => simp [PC.resting] at h
  | release r => simp [PC.resting] at h
  | out | held | waitEmpty | waitQueue | waitRetry => rfl

/-- In a service at rest every thread is. -/
theorem State.Ok.resting {s : State C T} (h : s.Ok N) (hq : s.Quiescent N) (t : T) (lid : Lid) :
    ((s.lane lid).pc t).resting = true := by
  have hrpc := hq.noRpc t lid
  have hstuck := hq.stuck t lid
  have hbusy := h.busy t lid
  have hup : s.fault (.client (N.owner t)) = none := by
    cases hf : s.fault (.client (N.owner t)) with
    | none => rfl
    | some f => exact absurd (h.fault _ f hf).1 (by simp)
  -- a thread that has been signalled could go on
  have hgo : ((s.lane lid).pc t).inCall = true →
      ((s.lane lid).pc t).place N t = .client (N.owner t) →
      (s.lane lid).step N t = none := by
    intro hin hplace
    have hnone := hstuck hin
    simp only [Lock.step, hplace] at hnone
    rw [if_pos ⟨Or.inr (hbusy hin), hup⟩] at hnone
    simpa using hnone
  cases hp : (s.lane lid).pc t with
  | out | held => rfl
  | waitEmpty b | waitQueue b | waitRetry b =>
    cases b with
    | false => rfl
    | true =>
      have := hgo (by rw [hp]; rfl) (by rw [hp]; rfl)
      simp [Lane.step, hp] at this
  | acquire q | release q => simp [hp, PC.inRpc] at hrpc

namespace Rep

variable {l : Lane C T} {a : Abs C T}

omit [DecidableEq C] [DecidableEq T]

/-- In a lane at rest no lock is on its way back. -/
theorem not_releasing_of_resting (h : Rep N l a) (hrest : ∀ x, (l.pc x).resting = true) (c : C) :
    (a.mode c).releasing = false := by
  have hnothing : ∀ x, l.carry N x = .nothing := fun x ↦ PC.carry_of_resting (hrest x)
  cases hm : a.mode c with
  | relReq t =>
    have := (h.token.relReq c t).1 hm
    simp [hnothing, Carry.brings] at this
  | relDone t =>
    have := (h.token.relDone c t).1 hm
    simp [hnothing, Carry.brought] at this
  | idle | asking | parked | granted | locked | free => rfl

/-- In a lane at rest the first thread in a client's queue has the lock or waits for a retry. -/
theorem front_of_resting (h : Rep N l a) (hrest : ∀ x, (l.pc x).resting = true) {c : C}
    (hq : (l.lockOf c).queue ≠ []) : (∃ w, l.pc w = .held) ∨ a.mode c = .parked false := by
  obtain ⟨w, rest, hq⟩ := List.exists_cons_of_ne_nil hq
  have hfits := (h.client c).front w (by rw [hq]; rfl)
  have hr := hrest w
  cases hp : l.pc w with
  | held => exact Or.inl ⟨w, hp⟩
  | waitRetry b =>
    cases b with
    | false => exact Or.inr (by simpa [Lane.own, hp, PC.own, Own.Fits] using hfits)
    | true => simp [hp, PC.resting] at hr
  | waitEmpty b =>
    cases b with
    | false =>
      have := h.not_releasing_of_resting hrest c
      simp [Lane.own, hp, PC.own, Own.Fits, this] at hfits
    | true => simp [hp, PC.resting] at hr
  | waitQueue b =>
    cases b with
    | false => simp [Lane.own, hp, PC.own, Own.Fits] at hfits
    | true => simp [hp, PC.resting] at hr
  | out => simp [Lane.own, hp, PC.own, Own.Fits] at hfits
  | acquire q | release q => simp [hp, PC.resting] at hr

/-- A client in the middle of something has a thread queued. -/
theorem queue_ne_nil (h : Rep N l a) {c : C} (hidle : a.mode c ≠ .idle) (hfree : a.mode c ≠ .free)
    (hrel : (a.mode c).releasing = false) : (l.lockOf c).queue ≠ [] := by
  intro hq
  rcases (h.client c).empty hq with hm | hm | hm
  · exact hidle hm
  · exact hfree hm
  · simp [hrel] at hm

/-- **Progress at rest.**  A parked client is among the waiters, so its lock is being revoked, so
the owner knows, and its thread has the lock. -/
theorem held_of_parked (h : Rep N l a) (hi : a.Inv N) (hrest : ∀ x, (l.pc x).resting = true) {c : C}
    (hm : a.mode c = .parked false) : ∃ w, l.pc w = .held := by
  have hnothing : ∀ x, l.carry N x = .nothing := fun x ↦ PC.carry_of_resting (hrest x)
  have hrevoke : a.revoke = none := Option.eq_none_iff_forall_ne_some.2 fun t ht ↦ by
    have := (h.token.revoke t).1 ht
    simp [hnothing, Carry.owesRevoke] at this
  have hretry : a.retry = none := Option.eq_none_iff_forall_ne_some.2 fun t ht ↦ by
    have := (h.token.retry t).1 ht
    simp [hnothing, Carry.owesRetry] at this
  have hrel := h.not_releasing_of_resting hrest
  -- only the modes `idle`, `free`, `locked` and `parked false` are at rest
  have key : ∀ d, a.mode d ≠ .idle → a.mode d ≠ .free → a.mode d ≠ .parked false →
      ∃ w, l.pc w = .held := fun d h1 h2 h3 ↦
    (h.front_of_resting hrest (h.queue_ne_nil h1 h2 (hrel d))).resolve_right h3
  have hwaiter : a.server.waiter ≠ ∅ := by
    rcases hi.parked c hm with hw | ⟨-, -, hne⟩
    · exact Finset.ne_empty_of_mem hw
    · exact absurd hretry hne
  cases hst : a.server.state with
  | free => exact absurd (hi.noWaiter (Or.inl hst)) hwaiter
  | locked => exact absurd (hi.noWaiter (Or.inr hst)) hwaiter
  | retrying =>
    obtain ⟨d, -, -, ⟨hne, -⟩ | ⟨-, hd | hd⟩⟩ := hi.retrying hst
    · exact absurd hretry hne
    · exact key d (by simp [hd]) (by simp [hd]) (by simp [hd])
    · exact key d (by simp [hd]) (by simp [hd]) (by simp [hd])
  | revoking =>
    obtain ⟨d, hd⟩ := (hi.revoking hst).resolve_left (by simp [hrevoke])
    exact key d (fun e ↦ by simp [e, Mode.told] at hd) (fun e ↦ by simp [e, Mode.told] at hd)
      (fun e ↦ by simp [e, Mode.told] at hd)

/-- A lock that is wanted back: the revoke is on its way, or remembered, or has led to a release. -/
theorem revoke_located (h : Rep N l a) (hi : a.Inv N) (hst : a.server.state = .revoking) :
    ∃ c, a.server.holder = N.id c ∧ (l.RevokeOnWay N c ∨
      ((l.lockOf c).revokeLater = true ∧
        ((l.lockOf c).state = .acquiring ∨ (l.lockOf c).state = .locked)) ∨
      l.Releasing N c .request) := by
  rcases hi.revoking hst with hr | ⟨c, hc⟩
  · obtain ⟨c, hc, -⟩ := hi.holder (Or.inr hst)
    obtain ⟨t, ht⟩ := Option.ne_none_iff_exists'.1 hr
    refine ⟨c, hc, Or.inl (Lane.revokeOnWay_of_owes ((h.token.revoke t).1 ht) fun cid hcid ↦ ?_)⟩
    rw [← hc]
    exact h.token.revokeCid t cid hcid
  · refine ⟨c, (hi.owner c (Mode.owns_of_told hc)).2, Or.inr ?_⟩
    have hcl := h.client c
    cases hm : a.mode c with
    | idle | asking | parked | free | relDone => simp [hm, Mode.told] at hc
    | granted b =>
      obtain rfl : b = true := by simpa [hm, Mode.told] using hc
      rw [hm] at hcl
      exact Or.inl ⟨hcl.revokeLater.2 (Or.inl rfl), Or.inl hcl.state⟩
    | locked b =>
      obtain rfl : b = true := by simpa [hm, Mode.told] using hc
      rw [hm] at hcl
      exact Or.inl ⟨hcl.revokeLater.2 (Or.inr (Or.inl rfl)), Or.inr hcl.state⟩
    | relReq t =>
      refine Or.inr (Lane.releasing_of_carry (t := t) ?_)
      exact Carry.rel_of_brings ((h.token.relReq c t).1 hm)

/-- A retryer: the retry is on its way, or remembered, or has led to an acquire. -/
theorem retry_located (h : Rep N l a) (hi : a.Inv N) (hst : a.server.state = .retrying) :
    ∃ c, a.server.retryer = N.id c ∧ (l.RetryOnWay N c ∨ (l.lockOf c).retryEarlier = true ∨
      l.AcquireOnWay N c) := by
  obtain ⟨c, hc, -, hm⟩ := hi.retrying hst
  refine ⟨c, hc, ?_⟩
  rcases hm with ⟨hr, -⟩ | ⟨-, hm | hm⟩
  · obtain ⟨t, ht⟩ := Option.ne_none_iff_exists'.1 hr
    obtain ⟨d, hd | ⟨cid, hd⟩⟩ := Carry.rel_of_owesRetry ((h.token.retry t).1 ht)
    · exact Or.inl ⟨d, Or.inl (Lane.releasing_of_carry hd)⟩
    · obtain rfl : cid = N.id c := hc ▸ h.token.retryCid t cid (by rw [hd]; rfl)
      exact Or.inl ⟨d, Or.inr (Lane.releasing_of_carry hd)⟩
  · exact Or.inr (Or.inl ((h.client c).retryEarlier.2 hm))
  · obtain ⟨w, rest, hq⟩ := List.exists_cons_of_ne_nil
      (h.queue_ne_nil (c := c) (by simp [hm]) (by simp [hm]) (by simp [hm, Mode.releasing]))
    have hfits := (h.client c).front w (by rw [hq]; rfl)
    have hw := ((h.client c).mem w).1 (by rw [hq]; exact List.mem_cons_self)
    rw [hm] at hfits
    refine Or.inr (Or.inr ⟨w, hw.1, ?_⟩)
    exact PC.eq_of_own_asking (hfits.eq_asking)

end Rep

/-- **Nothing gets lost.**  In a service at rest, a thread inside `acquire(lid)` waits for a thread
that has `lid`.  And in any state of the service, a lock that is `REVOKING` has its revoke on the
way to the holder, or remembered by it, or turned into a release that is on its way; a lock that is
`RETRYING` has its retry on the way to the retryer, or remembered by it, or turned into an acquire
that is on its way. -/
theorem nothing_lost {s : State C T} (h : Reachable N s) (lid : Lid) :
    (s.Quiescent N → ∀ t, ((s.lane lid).pc t).inAcquire = true →
      ∃ t', (s.lane lid).pc t' = .held) ∧
    (∀ l, (s.lane lid).server = some l → l.state = .revoking →
      ∃ c, l.holder = N.id c ∧ ((s.lane lid).RevokeOnWay N c ∨
        (((s.lane lid).lockOf c).revokeLater = true ∧
          (((s.lane lid).lockOf c).state = .acquiring ∨ ((s.lane lid).lockOf c).state = .locked)) ∨
        (s.lane lid).Releasing N c .request)) ∧
    (∀ l, (s.lane lid).server = some l → l.state = .retrying →
      ∃ c, l.retryer = N.id c ∧ ((s.lane lid).RetryOnWay N c ∨
        ((s.lane lid).lockOf c).retryEarlier = true ∨ (s.lane lid).AcquireOnWay N c)) := by
  obtain ⟨a, hrep, hi⟩ := h.ok.lane lid
  refine ⟨fun hq t ht ↦ ?_, fun l hl hst ↦ ?_, fun l hl hst ↦ ?_⟩
  · have hrest := fun x ↦ h.ok.resting hq x lid
    have hout : (s.lane lid).own t ≠ .out := by
      intro e
      cases hp : (s.lane lid).pc t with
      | out => simp [hp, PC.inAcquire] at ht
      | acquire q => cases q <;> simp [Lane.own, hp, PC.own] at e
      | held | waitEmpty | waitQueue | waitRetry | release => simp [Lane.own, hp, PC.own] at e
    have hmem := ((hrep.client (N.owner t)).mem t).2 ⟨rfl, hout⟩
    rcases hrep.front_of_resting hrest (List.ne_nil_of_mem hmem) with hheld | hm
    · exact hheld
    · exact hrep.held_of_parked hi hrest hm
  · obtain rfl : a.server = l := by rw [hrep.server, hl]; rfl
    exact hrep.revoke_located hi hst
  · obtain rfl : a.server = l := by rw [hrep.server, hl]; rfl
    exact hrep.retry_located hi hst

theorem contended_isSome : (contended.foldlM (step twoClients) {}).isSome = true := by decide

/-- The second client's thread waits for a retry, and the service is at rest. -/
theorem contended_quiescent :
    ((contended.foldlM (step twoClients) {}).get contended_isSome).Quiescent twoClients := by
  have hrun := (Option.some_get contended_isSome).symm
  have hother : ∀ lid, lid ≠ 1 →
      ((contended.foldlM (step twoClients) {}).get contended_isSome).lane lid = {} := by
    intro lid hlid
    refine lane_of_untouched contended (fun x hx ↦ ?_) hrun
    have hall : contended.all (fun x ↦ x.2 = 1) = true := by decide
    rw [of_decide_eq_true (List.all_eq_true.1 hall x hx)]
    exact hlid.symm
  refine ⟨fun t lid ↦ ?_, fun t lid hin ↦ ?_⟩
  · by_cases e : lid = 1
    · subst e; revert t; decide
    · rw [hother lid e]; rfl
  · by_cases e : lid = 1
    · subst e; revert t; decide
    · rw [hother lid e] at hin
      exact absurd hin (by simp [PC.inCall])

theorem nothing_lost_contended :
    ∃ s, contended.foldlM (step twoClients) {} = some s ∧ s.Quiescent twoClients ∧
      ((s.lane 1).pc true).inAcquire = true ∧ ∃ t', (s.lane 1).pc t' = .held := by
  have hrun := (Option.some_get contended_isSome).symm
  have hin : ((((contended.foldlM (step twoClients) {}).get contended_isSome).lane 1).pc
      true).inAcquire = true := by decide
  exact ⟨_, hrun, contended_quiescent, hin,
    (nothing_lost ⟨contended, hrun⟩ 1).1 contended_quiescent true hin⟩

/-! ## The server's assertions -/

/-- **No assertion fires.**  Between clients with non-empty names nothing ever goes wrong, at the
server or at a client; and this is because every assertion holds whenever it is reached. -/
theorem server_verified (hid : ∀ c, N.id c ≠ "") {s : State C T} (h : Reachable N s) :
    (∀ p, s.fault p = none) ∧
    ∀ lid,
      (∀ l, (s.lane lid).server = some l →
        (l.state = .free ∨ l.state = .locked → l.waiter = ∅) ∧
        (l.state = .revoking → l.waiter ≠ ∅) ∧
        (l.state = .locked ∨ l.state = .revoking → ∀ t, (s.lane lid).pc t = .acquire .request →
          l.otherHolder (N.id (N.owner t)) = true)) ∧
      ∀ c, (s.lane lid).Releasing N c .request → ∃ l, (s.lane lid).server = some l ∧
        l.state = .revoking ∧ N.id c = l.holder ∧ ∃ w, begin? l.waiter = some w := by
  refine ⟨fun p ↦ ?_, fun lid ↦ ?_⟩
  · cases hf : s.fault p with
    | none => rfl
    | some f =>
      obtain ⟨-, -, c, hc⟩ := h.ok.fault p f hf
      exact absurd hc (hid c)
  · obtain ⟨a, hrep, hi⟩ := h.ok.lane lid
    refine ⟨fun l hl ↦ ?_, fun c hc ↦ ?_⟩
    · obtain rfl : a.server = l := by rw [hrep.server, hl]; rfl
      exact ⟨hi.noWaiter, hi.someWaiter,
        fun hst t ht ↦ hi.otherHolder hid (hrep.mode_of_request ht) hst⟩
    · obtain ⟨t, ht⟩ := Lane.carry_of_releasing hc
      obtain ⟨hst, hc, hw, -⟩ := hi.release_ok ((hrep.token.relReq c t).2 (by rw [ht]; rfl))
      exact ⟨a.server, hrep.server_of_state (by simp [hst]), hst, hc,
        begin?_isSome (Finset.nonempty_iff_ne_empty.2 hw)⟩

theorem server_verified_twoClients :
    ∃ s, handedOver.foldlM (step twoClients) {} = some s ∧ s.fault .server = none := by
  have hrun := (Option.some_get handedOver_isSome).symm
  exact ⟨_, hrun, (server_verified (by decide) ⟨handedOver, hrun⟩).1 .server⟩

end Lock
end Yfs
