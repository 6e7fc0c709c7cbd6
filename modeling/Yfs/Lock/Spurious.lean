import Yfs.Machine.Run
import Yfs.Lock.Queue

/-!
# Waits that return without a signal

`pthread_cond_wait` may return although nobody has signalled the condition.  The usual remedy is a
loop around the wait, and there is none around the three waits of `lock_client_cache`: a thread that
comes back looks at `lock.state` and takes its turn, whether it is its turn or not.

This file is about one client, with any number of threads, and whatever the server may send: any
reply to an RPC, any revoke and any retry, at any time.  So what is proved here does not depend on
the server keeping to the protocol.  What it depends on is the queue.  A thread that is not at the
front of the queue waits for its turn, and nothing else (`Inv.front`); hence at most one thread can
have the lock.  Two of the waits are executed at the front of the queue, and their returning early
does no harm.  The third is the wait of those behind.  If it returns while the lock is `LOCKED`, the
thread goes off with the lock of another (`woken_too_early`); if it returns while the lock is being
acquired or given back, the thread returns with the mutex locked, and with that the client has come
to a stop.
-/

set_option autoImplicit false

namespace Yfs
namespace Lock

open Machine

/-- What a thread's condition being signalled does to the thread. -/
def PC.signalled {C : Type} : PC C → PC C
  | .waitEmpty _ => .waitEmpty true
  | .waitQueue _ => .waitQueue true
  | .waitRetry _ => .waitRetry true
  | p => p

theorem PC.signalled_eq_out {C : Type} {p : PC C} : p.signalled = .out ↔ p = .out := by
  cases p <;> simp [signalled]

theorem PC.signalled_eq_held {C : Type} {p : PC C} : p.signalled = .held ↔ p = .held := by
  cases p <;> simp [signalled]

/-- One client and one lock.  Which client it is, and how far its RPCs have got, is of no concern
here. -/
structure Solo (T : Type) where
  /-- The entry of `lock_pool`. -/
  lock : ClientLock T := {}
  /-- What each thread is doing. -/
  pc : T → PC Unit := fun _ ↦ .out
  /-- How many revoke handlers are inside their RPC. -/
  releasing : Nat := 0
  /-- The client is down, or nobody will ever unlock its mutex. -/
  fault : Option Fault := none

/-- What can happen to the client. -/
inductive SoloEvent (T : Type) where
  /-- The thread calls `acquire` or `release`, or returns from a wait after a signal. -/
  | go (t : T)
  /-- The thread returns from a wait without one. -/
  | wake (t : T)
  /-- The reply to the thread's `lock_protocol::acquire` arrives. -/
  | acquired (t : T) (ret : Status)
  /-- The reply to the thread's `lock_protocol::release` arrives. -/
  | released (t : T)
  /-- A revoke arrives. -/
  | revoke
  /-- The reply to the `lock_protocol::release` of a revoke handler arrives. -/
  | revoked
  /-- A retry arrives. -/
  | retry
  deriving DecidableEq

namespace Solo

variable {T : Type} [DecidableEq T]

/-- `pthread_cond_signal`. -/
def signal (pc : T → PC Unit) : Option T → T → PC Unit
  | none => pc
  | some w => Function.update pc w (pc w).signalled

/-- End of a section of `acquire` in thread `t`. -/
def finish (s : Solo T) (t : T) (r : ClientLock T × Next) : Solo T :=
  { s with lock := r.1, pc := Function.update s.pc t r.2.pc, fault := r.2.fault }

/-- End of `release` in thread `t`. -/
def finishRelease (s : Solo T) (t : T) : Option (ClientLock T × Option T) → Solo T
  | none => { s with fault := some .frontOfEmpty }
  | some (l, w) => { s with lock := l, pc := signal (Function.update s.pc t .out) w }

/-- The next step of a thread that need not wait for an RPC. -/
def goStep (s : Solo T) (t : T) : Option (Solo T) :=
  match s.pc t with
  | .out => some (s.finish t (s.lock.acquire t))
  | .held =>
    if s.lock.revokeLater then
      some { s with
        lock := s.lock.releaseRevoked, pc := Function.update s.pc t (.release .request) }
    else some (s.finishRelease t s.lock.releaseKept)
  | .waitEmpty true => some (s.finish t s.lock.acquireServer)
  | .waitQueue true => some (s.finish t s.lock.acquireWoken)
  | .waitRetry true => some (s.finish t s.lock.acquireServerRetried)
  | _ => none

/-- The step of a thread that has not been signalled. -/
def wakeStep (s : Solo T) (t : T) : Option (Solo T) :=
  match s.pc t with
  | .waitEmpty false => some (s.finish t s.lock.acquireServer)
  | .waitQueue false => some (s.finish t s.lock.acquireWoken)
  | .waitRetry false => some (s.finish t s.lock.acquireServerRetried)
  | _ => none

/-- One step of the client.  All of them are critical sections of its mutex, and so there are none
any more when the mutex is kept. -/
def step (s : Solo T) (ev : SoloEvent T) : Option (Solo T) :=
  if s.fault = none then
    match ev with
    | .go t => s.goStep t
    | .wake t => s.wakeStep t
    | .acquired t ret =>
      match s.pc t with
      | .acquire _ => some (s.finish t (s.lock.acquireServerReply ret))
      | _ => none
    | .released t =>
      match s.pc t with
      | .release _ => some (s.finishRelease t s.lock.releaseReply)
      | _ => none
    | .revoke =>
      let (l, needRelease) := s.lock.revokeHandler
      some { s with lock := l, releasing := if needRelease then s.releasing + 1 else s.releasing }
    | .revoked =>
      if 0 < s.releasing then
        let (l, w) := s.lock.revokeReply
        some { s with lock := l, pc := signal s.pc w, releasing := s.releasing - 1 }
      else none
    | .retry =>
      match s.lock.retryHandler with
      | none => some { s with fault := some .frontOfEmpty }
      | some (l, w) => some { s with lock := l, pc := signal s.pc (some w) }
  else none

/-- No two threads have returned from `acquire` without having called `release`. -/
def Exclusive (s : Solo T) : Prop := ∀ t t', s.pc t = .held → s.pc t' = .held → t = t'

/-- Nobody behind the front of the queue is woken for nothing, unless the lock is being acquired or
given back. -/
def Patient (s : Solo T) : SoloEvent T → Prop
  | .wake t => s.pc t = .waitQueue false → s.lock.state = .acquiring ∨ s.lock.state = .releasing
  | _ => True

/-! ## The queue decides -/

/-- The threads and the queue. -/
structure Inv (s : Solo T) : Prop where
  nodup : s.lock.queue.Nodup
  mem : ∀ t, t ∈ s.lock.queue ↔ s.pc t ≠ .out
  /-- Behind the front there is nothing but waiting for the signal. -/
  front : ∀ t, s.pc t ≠ .out → s.pc t ≠ .waitQueue false → s.lock.queue.head? = some t
  /-- A lock that a thread has is not on its way. -/
  state : ∀ t, s.pc t = .held → s.lock.state = .locked ∨ s.lock.state = .none

variable {s s' : Solo T} {t : T}

omit [DecidableEq T] in
theorem inv_init : Inv ({} : Solo T) := by
  refine ⟨List.nodup_nil, fun t ↦ ?_, fun t h ↦ absurd rfl h, fun t h ↦ absurd h (by simp)⟩
  simp

namespace Inv

omit [DecidableEq T] in
theorem head_of_held (h : Inv s) (ht : s.pc t = .held) : s.lock.queue.head? = some t :=
  h.front t (by simp [ht]) (by simp [ht])

omit [DecidableEq T] in
theorem exclusive (h : Inv s) : Exclusive s := fun _ _ ht ht' ↦
  Option.some_inj.1 ((h.head_of_held ht).symm.trans (h.head_of_held ht'))

omit [DecidableEq T] in
theorem eq_of_front (h : Inv s) (ht : s.lock.queue.head? = some t) {u : T} (hout : s.pc u ≠ .out)
    (hwait : s.pc u ≠ .waitQueue false) : u = t :=
  Option.some_inj.1 ((h.front u hout hwait).symm.trans ht)

end Inv

/-- What is kept: while the client is running, the invariant; and what follows from it in any
case. -/
def Safe (s : Solo T) : Prop := Exclusive s ∧ (s.fault = none → Inv s)

omit [DecidableEq T] in
theorem Inv.safe (h : Inv s) : Safe s := ⟨h.exclusive, fun _ ↦ h⟩

end Solo

theorem Next.pc_ne_out (n : Next) : (n.pc : PC Unit) ≠ .out := by
  cases n <;> simp [Next.pc]

theorem Next.eq_ret {n : Next} (h : (n.pc : PC Unit) = .held) (hf : n.fault = none) : n = .ret := by
  cases n <;> simp_all [Next.pc, Next.fault]

namespace ClientLock

variable {T : Type} {l : ClientLock T} {t : T}

/-! A thread that has returned from `acquire` in an orderly manner has left the lock `LOCKED`. -/

theorem acquireServerLoop_ret (h : l.acquireServerLoop.2 = .ret) :
    l.acquireServerLoop.1.state = .locked := by
  rw [acquireServerLoop] at h ⊢
  split at h <;> exact absurd h (by simp)

theorem acquireServerRetried_ret (h : l.acquireServerRetried.2 = .ret) :
    l.acquireServerRetried.1.state = .locked :=
  acquireServerLoop_ret h

theorem acquireServerReply_ret {ret : Status} (h : (l.acquireServerReply ret).2 = .ret) :
    (l.acquireServerReply ret).1.state = .locked := by
  cases ret with
  | ok => rfl
  | retry =>
    simp only [acquireServerReply] at h ⊢
    split at h
    · rename_i hearly
      rw [if_pos hearly]
      exact acquireServerRetried_ret h
    · exact absurd h (by simp)
  | _ => exact acquireServerLoop_ret h

theorem retryHandler_eq {r : ClientLock T × T} (h : l.retryHandler = some r) :
    l.queue.head? = some r.2 ∧ r.1.state = l.state := by
  rw [retryHandler] at h
  split at h
  · exact absurd h (by simp)
  · rename_i hq
    rw [← Option.some_inj.1 h, hq]
    exact ⟨rfl, rfl⟩

theorem acquireWoken_ret (h : l.acquireWoken.2 = .ret) : l.acquireWoken.1.state = .locked := by
  cases hs : l.state <;> simp_all [acquireWoken, acquireServer]

theorem acquire_ret (h : (l.acquire t).2 = .ret) : (l.acquire t).1.state = .locked := by
  cases hs : l.state <;> cases hq : l.queue.isEmpty <;> simp_all [acquire, acquireServer]

end ClientLock

namespace Solo

variable {T : Type} [DecidableEq T] {s s' : Solo T} {t : T}

/-- The thread at the front of the queue moves on, and the queue stays as it is. -/
theorem Inv.moveFront (h : Inv s) (hfront : s.lock.queue.head? = some t) {l : ClientLock T}
    {p : PC Unit} {f : Option Fault} (hq : l.queue = s.lock.queue) (hp : p ≠ .out)
    (hheld : p = .held → f = none → l.state = .locked) :
    Safe { s with lock := l, pc := Function.update s.pc t p, fault := f } := by
  have honly : ∀ u, Function.update s.pc t p u = .held → u = t := by
    intro u hu
    by_contra hne
    rw [Function.update_of_ne hne] at hu
    exact hne (h.eq_of_front hfront (by simp [hu]) (by simp [hu]))
  refine ⟨fun u u' hu hu' ↦ (honly u hu).trans (honly u' hu').symm, fun hfault ↦ ?_⟩
  refine ⟨hq ▸ h.nodup, fun u ↦ ?_, fun u hout hwait ↦ ?_, fun u hu ↦ ?_⟩
  all_goals dsimp only at *
  · rw [hq]
    by_cases hu : u = t
    · rw [hu, Function.update_self]
      exact iff_of_true (List.mem_of_mem_head? hfront) hp
    · rw [Function.update_of_ne hu, h.mem u]
  · rw [hq]
    by_cases hu : u = t
    · rw [hfront, hu]
    · rw [Function.update_of_ne hu] at hout hwait
      exact h.front u hout hwait
  · obtain rfl := honly u hu
    rw [Function.update_self] at hu
    exact Or.inl (hheld hu hfault)

/-- A section of `acquire` at the front of the queue. -/
theorem Inv.finish (h : Inv s) (hfront : s.lock.queue.head? = some t) {r : ClientLock T × Next}
    (hq : r.1.queue = s.lock.queue) (hret : r.2 = .ret → r.1.state = .locked) :
    Safe (s.finish t r) :=
  h.moveFront hfront hq (Next.pc_ne_out _) fun hheld hfault ↦ hret (Next.eq_ret hheld hfault)

/-- The first section of `acquire`. -/
theorem Inv.enter (h : Inv s) (hpc : s.pc t = .out) : Safe (s.finish t (s.lock.acquire t)) := by
  have hnew : t ∉ s.lock.queue := fun hmem ↦ (h.mem t).1 hmem hpc
  have hqueue : (s.finish t (s.lock.acquire t)).lock.queue = s.lock.queue ++ [t] :=
    ClientLock.acquire_queue ..
  have hself : (s.finish t (s.lock.acquire t)).pc t = (s.lock.acquire t).2.pc :=
    Function.update_self ..
  have hother : ∀ u, u ≠ t → (s.finish t (s.lock.acquire t)).pc u = s.pc u := fun u hu ↦
    Function.update_of_ne hu ..
  have hnodup : (s.lock.queue ++ [t]).Nodup := by
    rw [← List.concat_eq_append, List.nodup_concat]
    exact ⟨hnew, h.nodup⟩
  have hmem : ∀ u, u ∈ s.lock.queue ++ [t] ↔ (s.finish t (s.lock.acquire t)).pc u ≠ .out := by
    intro u
    rw [List.mem_append, List.mem_singleton]
    by_cases hu : u = t
    · subst hu
      rw [hself]
      exact iff_of_true (Or.inr rfl) (Next.pc_ne_out _)
    · rw [hother u hu, ← h.mem u]
      exact or_iff_left hu
  by_cases hempty : s.lock.queue = []
  · -- everybody else is outside
    have honly : ∀ u, (s.finish t (s.lock.acquire t)).pc u ≠ .out → u = t := by
      intro u hu
      simpa [hempty] using (hmem u).2 hu
    refine ⟨fun u u' hu hu' ↦ (honly u (by simp [hu])).trans (honly u' (by simp [hu'])).symm,
      fun hfault ↦ ⟨hqueue ▸ hnodup, hqueue ▸ hmem, fun u hout _ ↦ ?_, fun u hu ↦ ?_⟩⟩
    · rw [hqueue, hempty, honly u hout]
      rfl
    · obtain rfl := honly u (by simp [hu])
      exact Or.inl (ClientLock.acquire_ret (Next.eq_ret (hself.symm.trans hu) hfault))
  · have hacquire : s.lock.acquire t
        = ({ s.lock with queue := s.lock.queue ++ [t] }, .waitQueue) := by
      simp [ClientLock.acquire, hempty]
    have hwait : (s.finish t (s.lock.acquire t)).pc t = .waitQueue false := by
      rw [hself, hacquire]
      rfl
    have hstate : (s.finish t (s.lock.acquire t)).lock.state = s.lock.state := by
      rw [Solo.finish, hacquire]
    refine Inv.safe ⟨hqueue ▸ hnodup, hqueue ▸ hmem, fun u hout hu ↦ ?_, fun u hu ↦ ?_⟩
    · have hne : u ≠ t := fun heq ↦ hu (heq ▸ hwait)
      rw [hother u hne] at hout hu
      rw [hqueue, List.head?_append, h.front u hout hu, Option.some_or]
    · have hne : u ≠ t := by
        rintro rfl
        exact absurd (hwait.symm.trans hu) (by simp)
      rw [hother u hne] at hu
      rw [hstate]
      exact h.state u hu

omit [DecidableEq T] in
/-- The last section of `release` takes the front off the queue, and signals the next in it. -/
theorem ClientLock.releaseTail_of_cons {l : ClientLock T} {rest : List T}
    (hl : l.queue = t :: rest) :
    ∃ l', l.releaseTail = some (l', rest.head?) ∧ l'.queue = rest := by
  cases rest <;> exact ⟨_, by rw [ClientLock.releaseTail, hl]; rfl, rfl⟩

theorem signal_self (pc : T → PC Unit) (u : T) : signal pc (some u) u = (pc u).signalled :=
  Function.update_self ..

theorem signal_of_ne (pc : T → PC Unit) {w : Option T} {u : T} (h : w ≠ some u) :
    signal pc w u = pc u := by
  cases w with
  | none => rfl
  | some w => exact Function.update_of_ne (fun heq ↦ h (by rw [heq])) ..

/-- The last section of `release`: the next in the queue has been signalled, the others go on
waiting. -/
theorem Inv.leave (h : Inv s) (hfront : s.lock.queue.head? = some t) {l : ClientLock T}
    (hl : l.queue = s.lock.queue) : Safe (s.finishRelease t l.releaseTail) := by
  obtain ⟨rest, hq⟩ := List.head?_eq_some_iff.1 hfront
  obtain ⟨l', htail, hq'⟩ := ClientLock.releaseTail_of_cons (hl.trans hq)
  have hnodup := h.nodup
  rw [hq, List.nodup_cons] at hnodup
  have hmem : ∀ u, u ∈ rest ↔ Function.update s.pc t .out u ≠ .out := by
    intro u
    by_cases hu : u = t
    · rw [hu, Function.update_self]
      exact iff_of_false hnodup.1 (by simp)
    · rw [Function.update_of_ne hu, ← h.mem u, hq, List.mem_cons]
      exact (or_iff_right hu).symm
  have hbehind : ∀ u ∈ rest, Function.update s.pc t .out u = .waitQueue false := by
    intro u hu
    have hne : u ≠ t := fun heq ↦ hnodup.1 (heq ▸ hu)
    have hout := (hmem u).1 hu
    rw [Function.update_of_ne hne] at hout ⊢
    by_contra hwait
    exact hne (h.eq_of_front hfront hout hwait)
  rw [htail, finishRelease]
  refine Inv.safe ⟨hq' ▸ hnodup.2, fun u ↦ ?_, fun u hout hwait ↦ ?_, fun u hu ↦ ?_⟩
  all_goals dsimp only at *
  · rw [hq', hmem u]
    by_cases hu : rest.head? = some u
    · rw [hu, signal_self, ne_eq, ne_eq, PC.signalled_eq_out]
    · rw [signal_of_ne _ hu]
  · rw [hq']
    by_contra hu
    rw [signal_of_ne _ hu] at hout hwait
    exact hwait (hbehind u ((hmem u).2 hout))
  · -- nobody has the lock
    exfalso
    have hheld : Function.update s.pc t .out u = .held := by
      by_cases hw : rest.head? = some u
      · rwa [hw, signal_self, PC.signalled_eq_held] at hu
      · rwa [signal_of_ne _ hw] at hu
    have hwait := hbehind u ((hmem u).2 (by simp [hheld]))
    exact absurd (hheld.symm.trans hwait) (by simp)

/-- The handlers of the server's calls wake the front of the queue, or nobody. -/
theorem Inv.handled (h : Inv s) {l : ClientLock T} {w : Option T} {n : Nat}
    (hq : l.queue = s.lock.queue) (hw : ∀ u, w = some u → s.lock.queue.head? = some u)
    (hstate : ∀ u, s.pc u = .held → l.state = .locked ∨ l.state = .none) :
    Inv { s with lock := l, pc := signal s.pc w, releasing := n } := by
  refine ⟨hq ▸ h.nodup, fun u ↦ ?_, fun u hout hwait ↦ ?_, fun u hu ↦ ?_⟩
  all_goals dsimp only at *
  · rw [hq, h.mem u]
    by_cases hu : w = some u
    · rw [hu, signal_self, ne_eq, ne_eq, PC.signalled_eq_out]
    · rw [signal_of_ne _ hu]
  · rw [hq]
    by_cases hu : w = some u
    · exact hw u hu
    · rw [signal_of_ne _ hu] at hout hwait
      exact h.front u hout hwait
  · refine hstate u ?_
    by_cases hw : w = some u
    · rwa [hw, signal_self, PC.signalled_eq_held] at hu
    · rwa [signal_of_ne _ hw] at hu

/-! ## Runs -/

theorem Inv.goStep (h : Inv s) (hs : s.goStep t = some s') : Safe s' := by
  have hfront := h.front t
  rw [Solo.goStep] at hs
  split at hs
  all_goals rename_i hpc
  · cases hs
    exact h.enter hpc
  · rw [hpc] at hfront
    split at hs
    · cases hs
      exact h.moveFront (hfront (by simp) (by simp)) rfl (by simp) (by simp)
    · cases hs
      exact h.leave (hfront (by simp) (by simp)) rfl
  · rw [hpc] at hfront
    cases hs
    exact h.finish (hfront (by simp) (by simp)) rfl (by simp [ClientLock.acquireServer])
  · rw [hpc] at hfront
    cases hs
    exact h.finish (hfront (by simp) (by simp)) (ClientLock.acquireWoken_queue _)
      ClientLock.acquireWoken_ret
  · rw [hpc] at hfront
    cases hs
    exact h.finish (hfront (by simp) (by simp)) (ClientLock.acquireServerRetried_queue _)
      ClientLock.acquireServerRetried_ret
  · exact absurd hs (by simp)

theorem Inv.wakeStep (h : Inv s) (hpatient : Patient s (.wake t)) (hs : s.wakeStep t = some s') :
    Safe s' := by
  have hfront := h.front t
  rw [Solo.wakeStep] at hs
  split at hs
  all_goals rename_i hpc
  · rw [hpc] at hfront
    cases hs
    exact h.finish (hfront (by simp) (by simp)) rfl (by simp [ClientLock.acquireServer])
  · -- the thread returns with the mutex, and nobody else has the lock
    have hstate := hpatient hpc
    have hwoken : s.lock.acquireWoken = (s.lock, .retLocked) := by
      rcases hstate with hstate | hstate <;> simp [ClientLock.acquireWoken, hstate]
    cases hs
    rw [hwoken]
    have honly : ∀ u, (s.finish t (s.lock, .retLocked)).pc u = .held → u = t := by
      intro u hu
      by_contra hne
      have hheld : s.pc u = .held := (Function.update_of_ne hne ..).symm.trans hu
      rcases hstate with hstate | hstate <;> exact absurd (h.state u hheld) (by simp [hstate])
    exact ⟨fun u u' hu hu' ↦ (honly u hu).trans (honly u' hu').symm, fun hfault ↦
      absurd hfault (by simp [Solo.finish, Next.fault])⟩
  · rw [hpc] at hfront
    cases hs
    exact h.finish (hfront (by simp) (by simp)) (ClientLock.acquireServerRetried_queue _)
      ClientLock.acquireServerRetried_ret
  · exact absurd hs (by simp)

/-- **A step keeps at most one thread in possession of the lock**, unless it wakes a thread that is
not at the front of the queue. -/
theorem Safe.step {ev : SoloEvent T} (h : Safe s) (hpatient : Patient s ev)
    (hs : s.step ev = some s') : Safe s' := by
  rw [Solo.step.eq_def] at hs
  split at hs
  · replace h := h.2 ‹_›
    cases ev with
    | go t => exact h.goStep hs
    | wake t => exact h.wakeStep hpatient hs
    | acquired t ret =>
      dsimp only at hs
      split at hs
      · rename_i hpc
        cases hs
        exact h.finish (h.front t (by simp [hpc]) (by simp [hpc]))
          (ClientLock.acquireServerReply_queue _ _) ClientLock.acquireServerReply_ret
      · exact absurd hs (by simp)
    | released t =>
      dsimp only at hs
      split at hs
      · rename_i hpc
        cases hs
        exact h.leave (h.front t (by simp [hpc]) (by simp [hpc])) rfl
      · exact absurd hs (by simp)
    | revoke =>
      cases hs
      refine (h.handled (w := none) (ClientLock.revokeHandler_queue _) (by simp) fun u hu ↦ ?_).safe
      -- a lock that somebody has is not free
      rcases h.state u hu with hstate | hstate <;> simp [ClientLock.revokeHandler, hstate]
    | revoked =>
      dsimp only at hs
      split at hs
      · cases hs
        exact (h.handled (l := s.lock.revokeReply.1) rfl (fun u hu ↦ hu) fun _ _ ↦ Or.inr rfl).safe
      · exact absurd hs (by simp)
    | retry =>
      dsimp only at hs
      split at hs
      · cases hs
        exact ⟨h.exclusive, fun hfault ↦ absurd hfault (by simp)⟩
      · rename_i l w hr
        cases hs
        have hw := ClientLock.retryHandler_eq hr
        refine (h.handled (ClientLock.retryHandler_queue hr) (fun u hu ↦ ?_) fun u hu ↦ ?_).safe
        · rw [← hu]
          exact hw.1
        · rw [hw.2]
          exact h.state u hu
  · exact absurd hs (by simp)

/-- **No two threads of a client have a lock at the same time**, whatever the server sends and
whenever the waits of the thread at the front of the queue return, if nobody behind it is woken for
nothing while the lock is `LOCKED`, `NONE` or `FREE`. -/
theorem exclusive_of_patient (run : List (SoloEvent T)) (s : Solo T)
    (hpatient : Along step Patient ({} : Solo T) run) (hrun : run.foldlM step {} = some s) :
    Exclusive s :=
  (along_induction (fun _ _ _ h hp hs ↦ Safe.step h hp hs) run {} s hpatient inv_init.safe hrun).1

instance decidablePatient (s : Solo T) : (ev : SoloEvent T) → Decidable (Patient s ev)
  | .wake t => inferInstanceAs (Decidable (s.pc t = .waitQueue false →
      s.lock.state = .acquiring ∨ s.lock.state = .releasing))
  | .go _ | .acquired _ _ | .released _ | .revoke | .revoked | .retry => isTrue trivial

/-- The first thread is told to wait for a retry and does not; the second waits for its turn. -/
def hasty : List (SoloEvent Nat) :=
  [.go 0, .acquired 0 .retry, .wake 0, .acquired 0 .ok, .go 1, .go 0, .go 1]

theorem exclusive_hasty : ∃ s, hasty.foldlM step {} = some s ∧ s.pc 1 = .held ∧ Exclusive s :=
  ⟨_, rfl, rfl, exclusive_of_patient hasty _ (by decide) rfl⟩

/-- The first thread has the lock, and the second does not wait. -/
theorem woken_too_early : ∃ s, [SoloEvent.go 0, .acquired 0 .ok, .go 1, .wake 1].foldlM step {}
    = some s ∧ ¬ Exclusive (s : Solo Nat) :=
  ⟨_, rfl, fun h ↦ absurd (h 0 1 rfl rfl) (by decide)⟩

end Solo

end Lock
end Yfs
