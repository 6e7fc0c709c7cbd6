import Mathlib.Algebra.BigOperators.Fin
import Mathlib.Algebra.Order.BigOperators.Group.Finset
import Yfs.Lock.Threads

/-!
# The dispatch pools

An `rpcs` runs its handlers on a pool of six threads.  A handler that calls somebody keeps its
thread until the reply is there, and on the lock server both handlers make such calls: `acquire`
sends a revoke and `release` sends a retry.  A chain of calls can therefore occupy several threads
at a time, and a request that finds no free thread has to wait.

`poolStep` is the service with that restriction.  The pools of the clients never matter, since a
callback that is to be dispatched at a client occupies a thread of the server already, and so at
most five others do (`State.PoolOk.client_lt`).  The server's own pool does matter.  A revoke
handler gives a free lock back by a `release` call, and that call needs a thread of the server as
well.  When six `acquire` handlers wait for six such revokes there is none left, now and forever
(`wedged_acquires`, `Wedged.run`).  With at most five `acquire` handlers on the server at a time
this does not happen (`not_wedged_of_roomy`), and somebody can always go on (`exists_poolStep`).
-/

set_option autoImplicit false

namespace Yfs
namespace Lock

open Machine

variable {C T : Type} [DecidableEq C]

/-! ## Threads that are occupied -/

/-- How many dispatch threads of a process a call of `lock_protocol::release` occupies. -/
def Rel.load : Rel → Place C → Nat
  | .unlocked, .server | .retry _, .server | .retried, .server => 1
  | _, _ => 0

/-- How many dispatch threads of a process the chain of a thread occupies. -/
def PC.load : PC C → Place C → Nat
  | .acquire (.unlocked _), .server | .acquire (.revoke _ _), .server
  | .acquire (.revoked _), .server => 1
  | .acquire (.releasing _ _ r), .server => 1 + r.load (.server : Place C)
  | .acquire (.releasing _ c _), .client c' => if c' = c then 1 else 0
  | .release r, p => r.load p
  | _, _ => 0

/-- Whether the chain has started an `acquire` handler that has not returned. -/
def PC.handled : PC C → Nat
  | .acquire (.unlocked _) | .acquire (.revoke _ _) | .acquire (.releasing _ _ _)
  | .acquire (.revoked _) => 1
  | _ => 0

/-- The process that has to dispatch a request of a release call next. -/
def Rel.dispatchedAt (N : Cluster C T) : Rel → Option (Place C)
  | .request => some .server
  | .retry cid => (N.clientAt cid).map .client
  | _ => none

/-- The process that has to dispatch a request of the chain next. -/
def PC.dispatchedAt (N : Cluster C T) : PC C → Option (Place C)
  | .acquire .request => some .server
  | .acquire (.revoke _ cid) => (N.clientAt cid).map .client
  | .acquire (.releasing _ _ r) | .release r => r.dispatchedAt N
  | _ => none

/-- The `ThrPool` of an `rpcs` has this many threads. -/
def poolSize : Nat := 6

namespace State

/-- The call chain of a thread. -/
def chain (s : State C T) (t : T) : PC C :=
  match s.busy t with
  | none => .out
  | some lid => (s.lane lid).pc t

variable [Fintype T]

/-- How many dispatch threads of a process are occupied. -/
def load (s : State C T) (p : Place C) : Nat := ∑ t, (s.chain t).load p

/-- How many `acquire` handlers there are on the server. -/
def handlers (s : State C T) : Nat := ∑ t, (s.chain t).handled

/-- All threads of the server's pool are inside `call_client`, and each of them waits for a revoke
handler that is inside a `release` call which the server has not dispatched. -/
structure Wedged (s : State C T) : Prop where
  full : s.load .server = poolSize
  blocked : ∀ t, (s.chain t).load .server ≠ 0 →
    ∃ ret c, s.chain t = .acquire (.releasing ret c .request)

end State

section Step

variable [DecidableEq T] [Fintype T]

/-- One step of the service with its pools: a request is dispatched only if there is a free
thread. -/
def poolStep (N : Cluster C T) (s : State C T) (x : T × Lid) : Option (State C T) :=
  match ((s.lane x.2).pc x.1).dispatchedAt N with
  | none => step N s x
  | some p => if s.load p < poolSize then step N s x else none

/-- Some steps inside a call, of which only the last may return. -/
def State.callFor (N : Cluster C T) (s : State C T) (t : T) (lid : Lid) (during : List Tenure)
    (g : Tenure) : Nat → Option (State C T × Bool)
  | 0 => some (s, false)
  | n + 1 => (s.call (poolStep N) t lid during g).bind fun (s', returned) ↦
    if returned then if n = 0 then some (s', true) else none
    else s'.callFor N t lid during g n

/-- An `acquire` is dispatched only while there are fewer than five `acquire` handlers. -/
def Roomy (s : State C T) (x : T × Lid) : Prop :=
  (s.lane x.2).pc x.1 = .acquire .request → s.handlers < 5

instance (s : State C T) (x : T × Lid) : Decidable (Roomy s x) :=
  inferInstanceAs (Decidable (_ → _))

end Step

/-! ## What a step does to a chain -/

variable {N : Cluster C T}

/-- A release call takes at most one more thread, at the process that dispatches its request. -/
def Rel.Grows (N : Cluster C T) (r r' : Rel) : Prop :=
  ∀ q : Place C, r'.load q ≤ r.load q + if r.dispatchedAt N = some q then 1 else 0

theorem Rel.grows_request (r : Rel) : Rel.request.Grows N r := by
  intro q
  cases q <;> cases r <;> simp [Rel.load, Rel.dispatchedAt]

/-- Once it has been dispatched a release call takes no more threads. -/
theorem Rel.grows_of_load {r r' : Rel}
    (h : r'.load (.server : Place C) ≤ r.load (.server : Place C)) : r.Grows N r' := by
  intro q
  cases q with
  | server => exact Nat.le_add_right_of_le h
  | client c => cases r' <;> exact Nat.zero_le _

/-- So does a whole chain, and it takes on an `acquire` handler only at its start. -/
structure PC.Grows (N : Cluster C T) (p p' : PC C) : Prop where
  load : ∀ q, p'.load q ≤ p.load q + if p.dispatchedAt N = some q then 1 else 0
  handled : p'.handled ≤ p.handled + if p = .acquire .request then 1 else 0

theorem PC.Grows.refl (p : PC C) : p.Grows N p :=
  ⟨fun _ ↦ Nat.le_add_right _ _, Nat.le_add_right _ _⟩

theorem Rel.Grows.release {r r' : Rel} (h : r.Grows N r') :
    (PC.release r : PC C).Grows N (.release r') :=
  ⟨h, by simp [PC.handled]⟩

theorem Rel.Grows.releasing {r r' : Rel} (h : r.Grows N r') (ret : Status) (c : C) :
    (PC.acquire (.releasing ret c r)).Grows N (.acquire (.releasing ret c r')) := by
  refine ⟨fun q ↦ ?_, by simp [PC.handled]⟩
  cases q with
  | server =>
    simp only [PC.load, PC.dispatchedAt]
    rw [Nat.add_assoc]
    exact Nat.add_le_add_left (h .server) 1
  | client c' => exact Nat.le_add_right _ _

theorem PC.load_of_calm {p q : PC C} (h : p.calm = q.calm) : p.load = q.load := by
  cases p <;> cases q <;> simp_all [PC.calm] <;> rfl

omit [DecidableEq C] in
theorem PC.handled_of_calm {p q : PC C} (h : p.calm = q.calm) : p.handled = q.handled := by
  cases p <;> cases q <;> simp_all [PC.calm, PC.handled]

theorem PC.Grows.of_calm {p p' q : PC C} (h : p.Grows N p') (hq : q.calm = p'.calm) :
    p.Grows N q :=
  ⟨fun x ↦ by rw [PC.load_of_calm hq]; exact h.load x,
    by rw [PC.handled_of_calm hq]; exact h.handled⟩

/-- A thread that is in no RPC occupies nothing. -/
theorem PC.load_of_inRpc {p : PC C} (h : p.inRpc = false) (q : Place C) : p.load q = 0 := by
  cases p <;> simp_all [PC.inRpc, PC.load]

omit [DecidableEq C] in
theorem PC.dispatchedAt_of_inRpc {p : PC C} (h : p.inRpc = false) : p.dispatchedAt N = none := by
  cases p <;> simp_all [PC.inRpc, PC.dispatchedAt]

omit [DecidableEq C] in
theorem PC.handled_of_inRpc {p : PC C} (h : p.inRpc = false) : p.handled = 0 := by
  cases p <;> simp_all [PC.inRpc, PC.handled]

theorem PC.grows_of_le {p p' : PC C} (h : ∀ q, p'.load q ≤ p.load q)
    (hh : p'.handled ≤ p.handled) : p.Grows N p' :=
  ⟨fun q ↦ Nat.le_add_right_of_le (h q), Nat.le_add_right_of_le hh⟩

theorem PC.grows_of_inRpc {p p' : PC C} (h : p'.inRpc = false) : p.Grows N p' :=
  PC.grows_of_le (fun q ↦ by simp [PC.load_of_inRpc h q]) (by simp [PC.handled_of_inRpc h])

/-- The server dispatches an acquire. -/
theorem PC.grows_request (needRevoke : Bool) (ret : Status) :
    (PC.acquire .request : PC C).Grows N
      (.acquire (if needRevoke then .unlocked ret else .reply ret)) := by
  refine ⟨fun q ↦ ?_, ?_⟩
  · cases needRevoke <;> cases q <;> simp [PC.load, PC.dispatchedAt]
  · cases needRevoke <;> simp [PC.handled]

/-- A client dispatches a revoke. -/
theorem PC.grows_revoke (needRelease : Bool) (ret : Status) {cid : String} {c : C}
    (hc : N.clientAt cid = some c) :
    (PC.acquire (.revoke ret cid) : PC C).Grows N
      (.acquire (if needRelease then .releasing ret c .request else .revoked ret)) := by
  refine ⟨fun q ↦ ?_, ?_⟩
  · cases needRelease <;> cases q <;>
      simp [PC.load, PC.dispatchedAt, Rel.load, hc, eq_comm (a := c)]
  · cases needRelease <;> simp [PC.handled]

variable [DecidableEq T]

namespace Lane

variable {s s' : Lane C T} {t : T}

omit [DecidableEq C] in
theorem signal_setPc_calm (s : Lane C T) (t : T) (p : PC C) (w : Option T) :
    (((s.setPc t p).signal w).pc t).calm = p.calm := by
  rw [signal_calm]
  simp [setPc]

/-- A section of `acquire` is over. -/
theorem grows_finish {p : PC C} (r : ClientLock T × Next) :
    p.Grows N ((s.finish N t r).1.pc t) := by
  have hpc : (s.finish N t r).1.pc t = r.2.pc := by simp [finish, setPc]
  rw [hpc]
  -- the thread is about to call, and nothing has been dispatched
  refine PC.grows_of_le (fun q ↦ ?_) ?_
  · cases r.2 <;> exact Nat.zero_le _
  · cases r.2 <;> exact Nat.zero_le _

theorem grows_finishRelease (r : Option (ClientLock T × Option T)) :
    (s.pc t).Grows N ((s.finishRelease N t r).1.pc t) := by
  cases r with
  | none => exact .refl _
  | some r =>
    exact (PC.grows_of_inRpc (by rfl)).of_calm
      (signal_setPc_calm (s.setLock (N.owner t) r.1) t .out r.2)

/-- A release call moves on, or the server goes down. -/
theorem grows_relStep {c : C} {k : Rel → PC C} {r : Rel} {f : Option Fault} (hpc : s.pc t = k r)
    (hs : s.relStep N t c k r = some (s', f)) :
    ∃ r', r.Grows N r' ∧ (s'.pc t).calm = (k r').calm := by
  cases r <;> simp only [relStep] at hs
  · split at hs <;> cases hs
    · exact ⟨_, Rel.grows_request _, congrArg PC.calm hpc⟩
    · exact ⟨_, Rel.grows_request _, signal_setPc_calm s t _ none⟩
    · exact ⟨_, Rel.grows_request _, signal_setPc_calm _ t _ none⟩
  · cases hs; exact ⟨_, Rel.grows_of_load (by simp [Rel.load]), signal_setPc_calm s t _ none⟩
  · split at hs
    · cases hs; exact ⟨_, Rel.grows_of_load (by simp [Rel.load]), signal_setPc_calm s t _ none⟩
    · split at hs <;> cases hs
      · exact ⟨_, Rel.grows_of_load le_rfl, congrArg PC.calm hpc⟩
      · exact ⟨_, Rel.grows_of_load (by simp [Rel.load]), signal_setPc_calm _ t _ _⟩
  · cases hs; exact ⟨_, Rel.grows_of_load (by simp [Rel.load]), signal_setPc_calm s t _ none⟩
  · cases hs

theorem grows_acqStep {q : Acq C} {f : Option Fault} (hpc : s.pc t = .acquire q)
    (hs : s.acqStep N t q = some (s', f)) : (PC.acquire q).Grows N (s'.pc t) := by
  rw [acqStep.eq_def] at hs
  split at hs
  · split at hs <;> cases hs
    · rw [hpc]
      exact .refl _
    · exact (PC.grows_request _ _).of_calm (signal_setPc_calm _ t _ none)
  · cases hs
    refine (PC.grows_of_le (fun q ↦ ?_) ?_).of_calm (signal_setPc_calm s t _ none)
    · cases q <;> exact le_rfl
    · exact le_rfl
  · split at hs <;> cases hs
    · refine (PC.grows_of_le (fun q ↦ ?_) ?_).of_calm (signal_setPc_calm s t _ none)
      · cases q <;> exact le_rfl
      · exact le_rfl
    · rename_i hc
      exact (PC.grows_revoke _ _ hc).of_calm (signal_setPc_calm _ t _ none)
  · cases hs
    refine (PC.grows_of_le (fun q ↦ ?_) ?_).of_calm (signal_setPc_calm _ t _ _)
    · cases q
      · exact Nat.le_add_right _ _
      · exact Nat.zero_le _
    · exact le_rfl
  · obtain ⟨r', hgrows, hcalm⟩ := grows_relStep hpc hs
    exact (hgrows.releasing _ _).of_calm hcalm
  · cases hs
    exact (PC.grows_of_le (fun _ ↦ Nat.zero_le _) (Nat.zero_le _)).of_calm
      (signal_setPc_calm s t (.acquire (.reply _)) none)
  · cases hs
    exact grows_finish _

theorem grows_step {f : Option Fault} (hs : s.step N t = some (s', f)) :
    (s.pc t).Grows N (s'.pc t) := by
  rw [step] at hs
  split at hs
  · cases hs; exact grows_finish _
  · split at hs
    · cases hs
      exact (PC.grows_of_inRpc rfl).of_calm (signal_setPc_calm s t .out none)
    · split at hs
      · cases hs
        exact (PC.grows_of_le (fun _ ↦ Nat.zero_le _) (Nat.zero_le _)).of_calm
          (signal_setPc_calm _ t (.release .request) none)
      · obtain rfl : _ = s' := congrArg Prod.fst (Option.some.inj hs)
        exact grows_finishRelease _
  · cases hs; exact grows_finish _
  · cases hs; exact grows_finish _
  · cases hs; exact grows_finish _
  · cases hs
  · cases hs
  · cases hs
  · rename_i hpc
    rw [hpc]
    exact grows_acqStep hpc hs
  · obtain rfl : _ = s' := congrArg Prod.fst (Option.some.inj hs)
    exact grows_finishRelease _
  · rename_i hpc
    obtain ⟨r', hgrows, hcalm⟩ := grows_relStep hpc hs
    rw [hpc]
    exact hgrows.release.of_calm hcalm

end Lane

/-! ## What a step does to the pools -/

omit [DecidableEq C] in
theorem PC.inRpc_of_not_inCall {p : PC C} (h : p.inCall = false) : p.inRpc = false := by
  cases p <;> simp_all [PC.inCall, PC.inRpc]

omit [DecidableEq T] [DecidableEq C] in
/-- A thread's chain is what it does about the lock it can go on with, if that is an RPC. -/
theorem State.Ok.chain_cases {s : State C T} (h : s.Ok N) {t : T} {lid : Lid}
    (hbusy : s.busy t = none ∨ s.busy t = some lid) :
    s.chain t = (s.lane lid).pc t ∨
      ((s.chain t).inRpc = false ∧ ((s.lane lid).pc t).inRpc = false) := by
  rcases hbusy with hnone | hsome
  · refine Or.inr ⟨by simp [State.chain, hnone, PC.inRpc], PC.inRpc_of_not_inCall ?_⟩
    cases hcall : ((s.lane lid).pc t).inCall with
    | false => rfl
    | true => exact absurd (h.busy t lid hcall) (by simp [hnone])
  · exact Or.inl (by simp [State.chain, hsome])

omit [DecidableEq T] in
/-- For the pools there is no difference. -/
theorem State.Ok.chain_eq {s : State C T} (h : s.Ok N) {t : T} {lid : Lid}
    (hbusy : s.busy t = none ∨ s.busy t = some lid) :
    (∀ q, (s.chain t).load q = ((s.lane lid).pc t).load q) ∧
      (s.chain t).handled = ((s.lane lid).pc t).handled := by
  rcases h.chain_cases hbusy with heq | ⟨hchain, hpc⟩
  · rw [heq]
    exact ⟨fun _ ↦ rfl, rfl⟩
  · exact ⟨fun q ↦ by rw [PC.load_of_inRpc hchain, PC.load_of_inRpc hpc],
      by rw [PC.handled_of_inRpc hchain, PC.handled_of_inRpc hpc]⟩

/-- What a step of thread `t` does to the chains. -/
structure ChainStep (N : Cluster C T) (s s' : State C T) (t : T) (lid : Lid) : Prop where
  others : ∀ x, x ≠ t → (s'.chain x).calm = (s.chain x).calm
  load : ∀ q, (s'.chain t).load q ≤
    (s.chain t).load q + if ((s.lane lid).pc t).dispatchedAt N = some q then 1 else 0
  handled : (s'.chain t).handled ≤
    (s.chain t).handled + if (s.lane lid).pc t = .acquire .request then 1 else 0

theorem State.Ok.chain_step {s s' : State C T} (h : s.Ok N) {t : T} {lid : Lid}
    (hs : Lock.step N s (t, lid) = some s') : ChainStep N s s' t lid := by
  obtain ⟨⟨f, hl⟩, hlane⟩ := lane_of_step hs
  obtain ⟨hbusy, hbusy', hothers⟩ := busy_of_step hs
  obtain ⟨hload, hhandled⟩ := h.chain_eq hbusy
  obtain ⟨hload', hhandled'⟩ := (h.step hs).chain_eq hbusy'
  have hgrows := Lane.grows_step hl
  refine ⟨fun x hx ↦ ?_, fun q ↦ ?_, ?_⟩
  · simp only [State.chain, hothers x hx]
    cases s.busy x with
    | none => rfl
    | some lid' =>
      by_cases hlid : lid' = lid
      · rw [hlid]
        exact Lane.sameOthers_step hl x hx
      · simp only [hlane lid' hlid]
  · rw [hload', hload]
    exact hgrows.load q
  · rw [hhandled', hhandled]
    exact hgrows.handled

variable [Fintype T]

/-- One summand grows. -/
theorem sum_le_of_others {f f' : T → Nat} {t : T} {d : Nat} (ht : f' t ≤ f t + d)
    (hx : ∀ x, x ≠ t → f' x = f x) : ∑ x, f' x ≤ (∑ x, f x) + d := by
  have hrest : ∑ x ∈ Finset.univ.erase t, f' x = ∑ x ∈ Finset.univ.erase t, f x :=
    Finset.sum_congr rfl fun x hmem ↦ hx x (Finset.ne_of_mem_erase hmem)
  rw [← Finset.add_sum_erase _ f' (Finset.mem_univ t),
    ← Finset.add_sum_erase _ f (Finset.mem_univ t), hrest]
  omega

theorem ChainStep.load_le {s s' : State C T} {t : T} {lid : Lid} (h : ChainStep N s s' t lid)
    (q : Place C) :
    s'.load q ≤ s.load q + if ((s.lane lid).pc t).dispatchedAt N = some q then 1 else 0 :=
  sum_le_of_others (h.load q) fun x hx ↦ congrFun (PC.load_of_calm (h.others x hx)) q

theorem ChainStep.handlers_le {s s' : State C T} {t : T} {lid : Lid} (h : ChainStep N s s' t lid) :
    s'.handlers ≤ s.handlers + if (s.lane lid).pc t = .acquire .request then 1 else 0 :=
  sum_le_of_others h.handled fun x hx ↦ PC.handled_of_calm (h.others x hx)

/-! ## Runs with pools -/

theorem step_of_poolStep {s s' : State C T} {x : T × Lid} (hs : poolStep N s x = some s') :
    step N s x = some s' ∧
      ∀ p, ((s.lane x.2).pc x.1).dispatchedAt N = some p → s.load p < poolSize := by
  rw [poolStep] at hs
  split at hs
  · rename_i hnone
    exact ⟨hs, fun p hp ↦ absurd hp (by simp [hnone])⟩
  · rename_i q hsome
    split at hs
    · rename_i hlt
      refine ⟨hs, fun p hp ↦ ?_⟩
      rw [hsome, Option.some_inj] at hp
      rwa [← hp]
    · exact absurd hs (by simp)

/-- What holds in every state of the service with pools. -/
structure State.PoolOk (N : Cluster C T) (s : State C T) : Prop where
  ok : s.Ok N
  load : ∀ p, s.load p ≤ poolSize

theorem poolOk_init : ({} : State C T).PoolOk N := by
  refine ⟨Reachable.ok ⟨[], rfl⟩, fun p ↦ ?_⟩
  simp [State.load, State.chain, PC.load]

theorem State.PoolOk.step {s s' : State C T} (h : s.PoolOk N) {x : T × Lid}
    (hs : poolStep N s x = some s') : s'.PoolOk N := by
  obtain ⟨hstep, hroom⟩ := step_of_poolStep hs
  refine ⟨h.ok.step hstep, fun p ↦ ?_⟩
  have hle := (h.ok.chain_step hstep).load_le p
  have hload := h.load p
  split at hle
  · rename_i hp
    have hlt := hroom p hp
    omega
  · omega

/-- A chain never occupies more threads of a client than of the server. -/
theorem PC.load_client_le (p : PC C) (c : C) : p.load (.client c) ≤ p.load .server := by
  cases p with
  | acquire a =>
    cases a with
    | releasing ret d r =>
      simp only [PC.load]
      split <;> omega
    | request | unlocked | revoke | revoked | reply => simp [PC.load]
  | release r => cases r <;> simp [PC.load, Rel.load]
  | out | held | waitEmpty | waitQueue | waitRetry => simp [PC.load]

omit [DecidableEq T] [Fintype T] in
/-- If it is about to occupy one it occupies fewer. -/
theorem PC.load_client_lt {p : PC C} {c : C} (h : p.dispatchedAt N = some (.client c)) (d : C) :
    p.load (.client d) < p.load .server := by
  cases p with
  | acquire a =>
    cases a with
    | releasing ret e r =>
      cases r with
      | retry cid =>
        simp only [PC.load, Rel.load]
        split <;> omega
      | request | unlocked | retried | reply => simp [PC.dispatchedAt, Rel.dispatchedAt] at h
    | revoke ret cid => simp [PC.load]
    | request | unlocked | revoked | reply => simp [PC.dispatchedAt] at h
  | release r => cases r <;> simp_all [PC.load, Rel.load, PC.dispatchedAt, Rel.dispatchedAt]
  | out | held | waitEmpty | waitQueue | waitRetry => simp [PC.dispatchedAt] at h

omit [DecidableEq T] in
/-- There is always a free thread for a callback. -/
theorem State.PoolOk.client_lt {s : State C T} (h : s.PoolOk N) {t : T} {c : C}
    (ht : (s.chain t).dispatchedAt N = some (.client c)) (d : C) :
    s.load (.client d) < poolSize := by
  have hlt : s.load (.client d) < s.load .server :=
    Finset.sum_lt_sum (fun x _ ↦ PC.load_client_le _ d) ⟨t, Finset.mem_univ t,
      PC.load_client_lt ht d⟩
  exact lt_of_lt_of_le hlt (h.load .server)

/-! ## Wedged -/

omit [DecidableEq C] in
theorem PC.handled_le_one (p : PC C) : p.handled ≤ 1 := by
  cases p with
  | acquire a => cases a <;> simp [PC.handled]
  | out | held | waitEmpty | waitQueue | waitRetry | release => simp [PC.handled]

omit [DecidableEq T] [DecidableEq C] in
/-- Four threads do not get into the way of one another. -/
theorem roomy_of_card (h : Fintype.card T < 5) (s : State C T) (x : T × Lid) : Roomy s x := by
  intro _
  refine lt_of_le_of_lt ?_ h
  calc s.handlers ≤ ∑ _t : T, 1 := Finset.sum_le_sum fun t _ ↦ (s.chain t).handled_le_one
    _ = Fintype.card T := by simp

theorem PC.handled_le_load (p : PC C) : p.handled ≤ p.load .server := by
  cases p with
  | acquire a => cases a <;> simp [PC.handled, PC.load]
  | out | held | waitEmpty | waitQueue | waitRetry | release => simp [PC.handled]

omit [DecidableEq T] in
/-- In a wedged state all threads of the server's pool run `acquire` handlers. -/
theorem State.Wedged.handlers {s : State C T} (h : s.Wedged) : s.handlers = poolSize := by
  rw [← h.full]
  refine Finset.sum_congr rfl fun t _ ↦ ?_
  by_cases hzero : (s.chain t).load .server = 0
  · have hle := PC.handled_le_load (s.chain t)
    omega
  · obtain ⟨ret, c, ht⟩ := h.blocked t hzero
    rw [ht]
    rfl

omit [DecidableEq C] in
theorem PC.eq_of_calm_acquire {p : PC C} {a : Acq C} (h : p.calm = .acquire a) :
    p = .acquire a := by
  cases p <;> simp_all [PC.calm]

/-- Nobody who can take a step of a wedged service has a thread of the server's. -/
theorem State.Wedged.step {s s' : State C T} (hok : s.Ok N) (h : s.Wedged) {x : T × Lid}
    (hs : poolStep N s x = some s') : s'.Wedged := by
  obtain ⟨t, lid⟩ := x
  obtain ⟨hstep, hroom⟩ := step_of_poolStep hs
  have hchain := hok.chain_step hstep
  have hnot : ((s.lane lid).pc t).dispatchedAt N ≠ some .server := by
    intro hp
    have hlt := hroom .server hp
    rw [h.full] at hlt
    exact absurd hlt (by simp)
  have hzero : (s.chain t).load .server = 0 := by
    by_contra hne
    obtain ⟨ret, c, ht⟩ := h.blocked t hne
    rcases hok.chain_cases (busy_of_step hstep).1 with heq | ⟨hrpc, -⟩
    · exact hnot (by rw [← heq, ht]; rfl)
    · rw [ht] at hrpc
      exact absurd hrpc (by simp [PC.inRpc])
  have hzero' : (s'.chain t).load .server = 0 := by
    have hle := hchain.load .server
    rw [hzero, if_neg hnot] at hle
    omega
  have hsame : ∀ y, (s'.chain y).load .server = (s.chain y).load .server := by
    intro y
    by_cases hy : y = t
    · rw [hy, hzero, hzero']
    · exact congrFun (PC.load_of_calm (hchain.others y hy)) _
  refine ⟨?_, fun y hy ↦ ?_⟩
  · rw [← h.full]
    exact Finset.sum_congr rfl fun y _ ↦ hsame y
  · have hne : y ≠ t := by
      rintro rfl
      exact hy hzero'
    obtain ⟨ret, c, hc⟩ := h.blocked y (by rwa [← hsame y])
    have hcalm := hchain.others y hne
    rw [hc] at hcalm
    exact ⟨ret, c, PC.eq_of_calm_acquire hcalm⟩

/-- **A wedged service stays so**, whatever happens next. -/
theorem State.Wedged.run {s s' : State C T} (hok : s.Ok N) (h : s.Wedged) {run : List (T × Lid)}
    (hrun : run.foldlM (poolStep N) s = some s') : s'.Wedged := by
  have hboth : s'.Ok N ∧ s'.Wedged := by
    refine run_induction (P := fun s ↦ s.Ok N ∧ s.Wedged) ?_ ⟨hok, h⟩ hrun
    intro s x s' ⟨hok, hw⟩ hs
    exact ⟨hok.step (step_of_poolStep hs).1, hw.step hok hs⟩
  exact hboth.2

/-- One client with one thread and one with six. -/
def oneAndSix : Cluster Bool (Fin 7) where
  id := twoClients.id
  clientAt := twoClients.clientAt
  clientAt_eq := twoClients.clientAt_eq
  owner t := t ≠ 0

/-- The six locks that everybody wants. -/
def sixLocks : List (Fin 7 × Lid) := [(1, 1), (2, 2), (3, 3), (4, 4), (5, 5), (6, 6)]

/-- The first client acquires and releases six locks, one after another, and keeps them in its
cache. -/
def fillCache : List (Fin 7 × Lid) := sixLocks.flatMap fun x ↦ List.replicate 4 (0, x.2)

/-- Then each thread of the second client asks for one of them.  All six requests are dispatched,
all six handlers find out that the first client has the lock, and all six revokes are handled. -/
def sixAcquires : List (Fin 7 × Lid) :=
  fillCache ++ sixLocks ++ sixLocks ++ sixLocks ++ sixLocks

theorem sixAcquires_runs :
    ∃ s, sixAcquires.foldlM (poolStep oneAndSix) {} = some s ∧ s.load .server = poolSize ∧
      s.chain 0 = .out ∧ ∀ t ≠ 0, s.chain t = .acquire (.releasing .retry false .request) :=
  ⟨_, rfl, by decide +kernel, by decide +kernel, by decide +kernel⟩

/-- Six handlers of the server wait for revokes, each revoke handler waits for a release, and there
is no thread left to dispatch one. -/
theorem wedged_acquires :
    ∃ s, sixAcquires.foldlM (poolStep oneAndSix) {} = some s ∧ s.Wedged := by
  obtain ⟨s, hrun, hfull, hout, hsix⟩ := sixAcquires_runs
  refine ⟨s, hrun, hfull, fun t ht ↦ ?_⟩
  by_cases hzero : t = 0
  · rw [hzero, hout] at ht
    exact absurd rfl ht
  · exact ⟨_, _, hsix t hzero⟩

/-! ## With fewer handlers -/

/-- What holds in every state if an `acquire` is dispatched only while there are fewer than five
`acquire` handlers. -/
structure State.RoomyOk (N : Cluster C T) (s : State C T) : Prop extends s.PoolOk N where
  handlers : s.handlers ≤ 5

theorem roomyOk_init : ({} : State C T).RoomyOk N :=
  ⟨poolOk_init, by simp [State.handlers, State.chain, PC.handled]⟩

theorem State.RoomyOk.step {s s' : State C T} (h : s.RoomyOk N) {x : T × Lid} (hroom : Roomy s x)
    (hs : poolStep N s x = some s') : s'.RoomyOk N := by
  refine ⟨h.toPoolOk.step hs, ?_⟩
  have hle := h.handlers
  have hnext := (h.ok.chain_step (step_of_poolStep hs).1).handlers_le
  split at hnext
  · rename_i hpc
    have hlt := hroom hpc
    omega
  · omega

/-- **No wedge with five handlers.**  If an `acquire` is dispatched only while there are fewer than
five `acquire` handlers on the server, its pool does not wedge. -/
theorem not_wedged_of_roomy (run : List (T × Lid)) (s : State C T)
    (hrun : run.foldlM (poolStep N) {} = some s) (hroomy : Along (poolStep N) Roomy {} run) :
    ¬ s.Wedged := by
  intro hwedged
  have hok : s.RoomyOk N :=
    along_induction (fun _ _ _ h hroom hs ↦ h.step hroom hs) run {} s hroomy roomyOk_init hrun
  have hle := hok.handlers
  rw [hwedged.handlers] at hle
  exact absurd hle (by simp [poolSize])

/-- The same with five threads, and the first release is dispatched after all. -/
def fiveAcquires : List (Fin 7 × Lid) :=
  fillCache ++ sixLocks.take 5 ++ sixLocks.take 5 ++ sixLocks.take 5 ++ sixLocks.take 5 ++ [(1, 1)]

theorem fiveAcquires_runs : ∃ s, fiveAcquires.foldlM (poolStep oneAndSix) {} = some s ∧
    s.chain 1 = .acquire (.releasing .retry false .unlocked) :=
  ⟨_, rfl, by decide +kernel⟩

theorem not_wedged_fiveAcquires : ∃ s, fiveAcquires.foldlM (poolStep oneAndSix) {} = some s ∧
    s.chain 1 = .acquire (.releasing .retry false .unlocked) ∧ ¬ s.Wedged := by
  obtain ⟨s, hrun, hone⟩ := fiveAcquires_runs
  exact ⟨s, hrun, hone, not_wedged_of_roomy fiveAcquires s hrun (by decide +kernel)⟩

/-! ## Somebody can go on -/

omit [DecidableEq C] in
theorem PC.inCall_of_inRpc {p : PC C} (h : p.inRpc = true) : p.inCall = true := by
  cases p <;> simp_all [PC.inCall, PC.inRpc]

omit [DecidableEq T] [Fintype T] in
/-- A chain that waits for the server occupies a thread of it only by its `acquire` handler. -/
theorem PC.load_eq_handled {p : PC C} (h : p.dispatchedAt N = some .server) :
    p.load .server = p.handled := by
  cases p with
  | acquire a =>
    cases a with
    | releasing ret c r =>
      cases r <;> simp_all [PC.load, Rel.load, PC.handled, PC.dispatchedAt, Rel.dispatchedAt]
    | request => rfl
    | unlocked | revoke | revoked | reply => simp [PC.dispatchedAt] at h
  | release r =>
    cases r <;> simp_all [PC.load, Rel.load, PC.handled, PC.dispatchedAt, Rel.dispatchedAt]
  | out | held | waitEmpty | waitQueue | waitRetry => simp [PC.dispatchedAt] at h

omit [DecidableEq T] [Fintype T] [DecidableEq C] in
theorem State.Ok.chain_of_inRpc {s : State C T} (h : s.Ok N) {t : T} {lid : Lid}
    (ht : ((s.lane lid).pc t).inRpc = true) : s.chain t = (s.lane lid).pc t := by
  simp [State.chain, h.busy t lid (PC.inCall_of_inRpc ht)]

omit [Fintype T] in
/-- Without pools everybody who is inside an RPC can go on. -/
theorem State.Ok.exists_step {s : State C T} (h : s.Ok N) (hid : ∀ c, N.id c ≠ "") {t : T}
    {lid : Lid} (ht : ((s.lane lid).pc t).inRpc = true) : ∃ s', Lock.step N s (t, lid) = some s' :=
  Option.isSome_iff_exists.1 (h.isSome_step hid (Or.inr (h.busy t lid (PC.inCall_of_inRpc ht)))
    (Or.inl (PC.resting_of_inRpc ht)))

/-- **The pools let somebody go on.**  While somebody is inside an RPC and there is a thread of the
server's that runs no `acquire` handler, somebody inside an RPC can take a step. -/
theorem exists_poolStep {s : State C T} (h : s.PoolOk N) (hid : ∀ c, N.id c ≠ "")
    (hroom : s.handlers < poolSize) {t : T} {lid : Lid}
    (ht : ((s.lane lid).pc t).inRpc = true) :
    ∃ t' lid' s', ((s.lane lid').pc t').inRpc = true ∧ poolStep N s (t', lid') = some s' := by
  by_cases hfree : ∃ t' lid', ((s.lane lid').pc t').inRpc = true ∧
      ((s.lane lid').pc t').dispatchedAt N ≠ some .server
  · -- nothing of the server's is needed
    obtain ⟨t', lid', hrpc, hnot⟩ := hfree
    obtain ⟨s', hs⟩ := h.ok.exists_step hid hrpc
    refine ⟨t', lid', s', hrpc, ?_⟩
    cases hat : ((s.lane lid').pc t').dispatchedAt N with
    | none => simpa only [poolStep, hat] using hs
    | some p =>
      cases p with
      | server => exact absurd hat hnot
      | client c =>
        have hlt := h.client_lt (by rw [h.ok.chain_of_inRpc hrpc]; exact hat) c
        simpa only [poolStep, hat, if_pos hlt] using hs
  · -- everybody waits for the server, and so only `acquire` handlers occupy it
    push Not at hfree
    have hload : s.load .server = s.handlers := by
      refine Finset.sum_congr rfl fun x _ ↦ ?_
      cases hb : s.busy x with
      | none => simp [State.chain, hb, PC.load, PC.handled]
      | some lid' =>
        have hx : s.chain x = (s.lane lid').pc x := by simp [State.chain, hb]
        rw [hx]
        cases hrpc : ((s.lane lid').pc x).inRpc with
        | false => rw [PC.load_of_inRpc hrpc, PC.handled_of_inRpc hrpc]
        | true => exact PC.load_eq_handled (hfree x lid' hrpc)
    obtain ⟨s', hs⟩ := h.ok.exists_step hid ht
    refine ⟨t, lid, s', ht, ?_⟩
    simpa only [poolStep, hfree t lid ht, hload, if_pos hroom] using hs

end Lock
end Yfs
