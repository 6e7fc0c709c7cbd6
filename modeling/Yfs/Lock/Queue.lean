import Yfs.Lock.Correct

/-!
# The threads of one client

A client hands a lock from thread to thread through `lock.queue`.  A thread enters the queue at the
start of `acquire` and leaves it at the end of `release`; in between it waits, and then it has the
lock.  `Turn` says what a step can do to the queue and to the thread that takes it, and there are
four things only: a thread enters, stays where it is, obtains the lock, or leaves.

The order in which the threads obtain the lock comes out of it.  The threads that are queued and do
not have the lock form a line; whoever enters goes to the back of the line, and whoever obtains the
lock was at its front.
-/

set_option autoImplicit false

namespace Yfs
namespace Lock

open Machine

variable {C T : Type}

/-! ## Stages -/

/-- How far a thread has got on its way through the queue. -/
inductive Stage where
  | out
  /-- It has called `acquire`. -/
  | waiting
  /-- It has returned from `acquire`, and not from the `release` after it. -/
  | having
  deriving DecidableEq, Repr

def PC.stage : PC C → Stage
  | .out => .out
  | .held | .release _ => .having
  | _ => .waiting

theorem PC.stage_of_calm {p q : PC C} (h : p.calm = q.calm) : p.stage = q.stage := by
  cases p <;> cases q <;> simp_all [PC.calm, PC.stage]

theorem PC.eq_out_of_calm {p : PC C} (h : p.calm = .out) : p = .out := by
  cases p <;> simp_all [PC.calm]

theorem PC.own_eq_out {p : PC C} : p.own = .out ↔ p.stage = .out := by
  cases p with
  | acquire a => cases a <;> simp [PC.own, PC.stage]
  | out | held | waitEmpty | waitQueue | waitRetry | release => simp [PC.own, PC.stage]

theorem PC.own_ne_of_having {p : PC C} (h : p.stage = .having) :
    p.own ≠ .out ∧ p.own ≠ .waitQueue false := by
  cases p <;> simp_all [PC.own, PC.stage]

/-- A section of `acquire` ends with the lock or on the way to it. -/
theorem Next.pc_cases (n : Next) : (n.pc : PC C) = .held ∨ (n.pc : PC C).stage = .waiting := by
  cases n <;> simp [Next.pc, PC.stage]

/-! ## Queues

Only the first section of `acquire` and the last of `release` change the queue. -/

namespace ClientLock

variable (l : ClientLock T)

theorem acquireServerLoop_queue : l.acquireServerLoop.1.queue = l.queue := by
  rw [acquireServerLoop]
  split <;> rfl

theorem acquireServerRetried_queue : l.acquireServerRetried.1.queue = l.queue :=
  acquireServerLoop_queue _

theorem acquireServerReply_queue (ret : Status) :
    (l.acquireServerReply ret).1.queue = l.queue := by
  rw [acquireServerReply.eq_def]
  split
  · rfl
  · split
    · exact acquireServerRetried_queue l
    · rfl
  · exact acquireServerLoop_queue l

theorem acquireWoken_queue : l.acquireWoken.1.queue = l.queue := by
  rw [acquireWoken]
  split <;> rfl

theorem acquire_queue (t : T) : (l.acquire t).1.queue = l.queue ++ [t] := by
  rw [acquire]
  split
  · dsimp only
    split <;> rfl
  · rfl

theorem revokeHandler_queue : l.revokeHandler.1.queue = l.queue := by
  rw [revokeHandler]
  split <;> rfl

variable {l}

theorem retryHandler_queue {r : ClientLock T × T} (h : l.retryHandler = some r) :
    r.1.queue = l.queue := by
  rw [retryHandler] at h
  split at h
  · exact absurd h (by simp)
  · rw [← Option.some_inj.1 h]

theorem releaseTail_queue {r : ClientLock T × Option T} (h : l.releaseTail = some r) :
    r.1.queue = l.queue.tail := by
  rw [releaseTail] at h
  split at h
  · exact absurd h (by simp)
  · rename_i hq
    rw [← Option.some_inj.1 h, hq]
    rfl
  · rename_i hq
    rw [← Option.some_inj.1 h, hq]
    rfl

end ClientLock

variable [DecidableEq C] [DecidableEq T] {N : Cluster C T}

namespace Lane

/-- `lock.queue` of a client. -/
def queue (s : Lane C T) (c : C) : List T := (s.lockOf c).queue

omit [DecidableEq C] in
@[simp] theorem setPc_queue (s : Lane C T) (t : T) (p : PC C) : (s.setPc t p).queue = s.queue := rfl

omit [DecidableEq C] [DecidableEq T] in
@[simp] theorem setServer_queue (s : Lane C T) (l : ServerLock) : (s.setServer l).queue = s.queue :=
  rfl

omit [DecidableEq C] in
@[simp] theorem signal_queue (s : Lane C T) (w : Option T) : (s.signal w).queue = s.queue := by
  funext c
  rw [queue, signal_lockOf, queue]

omit [DecidableEq T] in
theorem setLock_queue (s : Lane C T) (c : C) (l : ClientLock T) :
    (s.setLock c l).queue = Function.update s.queue c l.queue := by
  funext c'
  rw [queue, setLock_lockOf, Function.update_apply]
  split <;> rfl

omit [DecidableEq T] in
/-- A section that leaves the queue of its client alone. -/
theorem setLock_queue_eq {s : Lane C T} {c : C} {l : ClientLock T}
    (h : l.queue = (s.lockOf c).queue) : (s.setLock c l).queue = s.queue := by
  rw [setLock_queue, h]
  exact Function.update_eq_self c s.queue

/-! ## One step -/

/-- What a step of thread `t` does to the queues and to the thread. -/
inductive Turn (N : Cluster C T) (t : T) (s s' : Lane C T) : Prop
  | enter (hpc : s.pc t = .out) (hpc' : s'.pc t = .held ∨ (s'.pc t).stage = .waiting)
      (hq : s'.queue = Function.update s.queue (N.owner t) (s.queue (N.owner t) ++ [t]))
  | stay (hpc : (s.pc t).stage ≠ .out) (hpc' : (s'.pc t).stage = (s.pc t).stage)
      (hheld : s'.pc t = .held → s.pc t = .held) (hq : s'.queue = s.queue)
  | obtains (hpc : (s.pc t).stage = .waiting) (hpc' : s'.pc t = .held) (hq : s'.queue = s.queue)
  | leave (hpc : (s.pc t).stage = .having) (hpc' : s'.pc t = .out)
      (hq : s'.queue = Function.update s.queue (N.owner t) (s.queue (N.owner t)).tail)

variable {s s' : Lane C T} {t : T}

omit [DecidableEq T] in
/-- Nothing has happened. -/
theorem turn_refl (h : (s.pc t).stage ≠ .out) : Turn N t s s :=
  .stay h rfl (fun h ↦ h) rfl

/-- A thread moves on within a call chain. -/
theorem turn_setPc {s₀ : Lane C T} (hq : s₀.queue = s.queue) (p : PC C)
    (hstage : p.stage = (s.pc t).stage) (hout : p.stage ≠ .out) (hheld : p.calm ≠ .held)
    (w : Option T) : Turn N t s ((s₀.setPc t p).signal w) := by
  have hpc : (s₀.setPc t p).pc t = p := by simp [setPc]
  have hcalm := signal_calm (s₀.setPc t p) w t
  rw [hpc] at hcalm
  refine .stay (by rwa [← hstage]) ((PC.stage_of_calm hcalm).trans hstage) ?_ (by simpa using hq)
  intro h
  rw [h] at hcalm
  exact absurd hcalm.symm hheld

/-- A section of `acquire` that comes after the first. -/
theorem turn_finish (h : (s.pc t).stage = .waiting) {r : ClientLock T × Next}
    (hq : r.1.queue = (s.lockOf (N.owner t)).queue) : Turn N t s (s.finish N t r).1 := by
  have hq' : (s.finish N t r).1.queue = s.queue := by
    rw [finish, setPc_queue, setLock_queue_eq hq]
  have hpc : (s.finish N t r).1.pc t = r.2.pc := by simp [finish, setPc]
  rcases r.2.pc_cases with hheld | hwait
  · exact .obtains h (hpc.trans hheld) hq'
  · refine .stay (by simp [h]) (by rw [hpc, hwait, h]) ?_ hq'
    intro hh
    rw [hpc.symm.trans hh] at hwait
    exact absurd hwait (by simp [PC.stage])

/-- The last section of `release`. -/
theorem turn_finishRelease (h : (s.pc t).stage = .having) {l : ClientLock T}
    (hl : l.queue = s.queue (N.owner t)) :
    Turn N t s (s.finishRelease N t l.releaseTail).1 := by
  cases hr : l.releaseTail with
  | none => exact turn_refl (by simp [h])
  | some r =>
    refine .leave h ?_ ?_
    · refine PC.eq_out_of_calm ?_
      rw [finishRelease, signal_calm]
      simp [setPc, PC.calm]
    · rw [finishRelease, signal_queue, setPc_queue, setLock_queue, ClientLock.releaseTail_queue hr,
        hl]

theorem turn_relStep {c : C} (k : Rel → PC C) {r : Rel} {f : Option Fault}
    (hk : ∀ r, (k r).stage = (s.pc t).stage) (hout : (s.pc t).stage ≠ .out)
    (hheld : ∀ r, (k r).calm ≠ .held) (hs : s.relStep N t c k r = some (s', f)) :
    Turn N t s s' := by
  have hstay : ∀ {s₀ : Lane C T} (_ : s₀.queue = s.queue) (r : Rel) (w : Option T),
      Turn N t s ((s₀.setPc t (k r)).signal w) := fun hq r w ↦
    turn_setPc hq (k r) (hk r) (by rw [hk r]; exact hout) (hheld r) w
  cases r <;> simp only [relStep] at hs
  · split at hs <;> cases hs
    · exact turn_refl hout
    · exact hstay rfl _ none
    · exact hstay (setServer_queue s _) _ none
  · cases hs; exact hstay rfl _ none
  · split at hs
    · cases hs; exact hstay rfl _ none
    · split at hs <;> cases hs
      · exact turn_refl hout
      · rename_i hr
        exact hstay (setLock_queue_eq (ClientLock.retryHandler_queue hr)) _ _
  · cases hs; exact hstay rfl _ none
  · cases hs

theorem turn_acqStep {q : Acq C} {f : Option Fault} (hpc : s.pc t = .acquire q)
    (hs : s.acqStep N t q = some (s', f)) : Turn N t s s' := by
  have hwait : (s.pc t).stage = .waiting := by rw [hpc]; rfl
  have hout : (s.pc t).stage ≠ .out := by simp [hwait]
  have hstay : ∀ {s₀ : Lane C T} (_ : s₀.queue = s.queue) (a : Acq C) (w : Option T),
      Turn N t s ((s₀.setPc t (.acquire a)).signal w) := fun hq a w ↦
    turn_setPc hq (.acquire a) hwait.symm (by simp [PC.stage]) (by simp [PC.calm]) w
  rw [acqStep.eq_def] at hs
  split at hs
  · split at hs <;> cases hs
    · exact turn_refl hout
    · exact hstay (setServer_queue s _) _ none
  · cases hs; exact hstay rfl _ none
  · split at hs <;> cases hs
    · exact hstay rfl _ none
    · exact hstay (setLock_queue_eq (ClientLock.revokeHandler_queue _)) _ none
  · cases hs; exact hstay (by exact setLock_queue_eq rfl) _ _
  · exact turn_relStep _ (fun _ ↦ by rw [hwait]; rfl) hout (fun _ ↦ by simp [PC.calm]) hs
  · cases hs; exact hstay rfl _ none
  · cases hs; exact turn_finish hwait (ClientLock.acquireServerReply_queue _ _)

theorem turn_step {f : Option Fault} (hs : s.step N t = some (s', f)) : Turn N t s s' := by
  rw [step] at hs
  split at hs
  · rename_i hpc
    cases hs
    refine .enter hpc ?_ ?_
    · simpa [finish, setPc] using Next.pc_cases _
    · rw [setPc_queue, setLock_queue, ClientLock.acquire_queue]
      rfl
  · rename_i hpc
    have hhave : (s.pc t).stage = .having := by rw [hpc]; rfl
    split at hs
    · rename_i hnone
      cases hs
      refine .leave hhave (by simp [setPc]) ?_
      have hq : s.queue (N.owner t) = [] := by simp [queue, lockOf, hnone]
      rw [setPc_queue, hq, List.tail_nil, ← hq, Function.update_eq_self]
    · rename_i l hl
      have hq : l.queue = s.queue (N.owner t) := by simp [queue, lockOf, hl]
      split at hs
      · cases hs
        have hq' : (s.setLock (N.owner t) l.releaseRevoked).queue = s.queue := setLock_queue_eq hq
        exact turn_setPc hq' (.release .request) hhave.symm (by simp [PC.stage])
          (by simp [PC.calm]) none
      · obtain rfl : _ = s' := congrArg Prod.fst (Option.some.inj hs)
        exact turn_finishRelease hhave hq
  · rename_i hpc
    cases hs; exact turn_finish (by rw [hpc]; rfl) rfl
  · rename_i hpc
    cases hs; exact turn_finish (by rw [hpc]; rfl) (ClientLock.acquireWoken_queue _)
  · rename_i hpc
    cases hs; exact turn_finish (by rw [hpc]; rfl) (ClientLock.acquireServerRetried_queue _)
  · cases hs
  · cases hs
  · cases hs
  · rename_i hpc
    exact turn_acqStep hpc hs
  · rename_i hpc
    obtain rfl : _ = s' := congrArg Prod.fst (Option.some.inj hs)
    exact turn_finishRelease (by rw [hpc]; rfl) rfl
  · rename_i hpc
    have hhave : (s.pc t).stage = .having := by rw [hpc]; rfl
    exact turn_relStep .release (fun _ ↦ hhave.symm) (by simp [hhave])
      (fun _ ↦ by simp [PC.calm]) hs

/-! ## The line -/

/-- The threads of client `c` that are queued and do not have the lock. -/
def line (s : Lane C T) (c : C) : List T :=
  (s.queue c).filter fun x ↦ (s.pc x).stage ≠ .having

/-- The thread that has entered `lock.queue` of client `c` in a step of `t`. -/
def entered (c : C) (t : T) (s s' : Lane C T) : List T :=
  if t ∉ s.queue c ∧ t ∈ s'.queue c then [t] else []

/-- The thread of client `c` that has returned from `acquire` in a step of `t`. -/
def obtained (N : Cluster C T) (c : C) (t : T) (s s' : Lane C T) : List T :=
  if N.owner t = c ∧ s.pc t ≠ .held ∧ s'.pc t = .held then [t] else []

omit [DecidableEq C] [DecidableEq T] in
/-- Threads that have not moved stand in line as before. -/
theorem filter_stage (h : SameOthers t s s') {l : List T} (ht : t ∉ l) :
    l.filter (fun x ↦ (s'.pc x).stage ≠ .having) = l.filter (fun x ↦ (s.pc x).stage ≠ .having) := by
  refine List.filter_congr fun x hx ↦ ?_
  have hne : x ≠ t := by
    rintro rfl
    exact ht hx
  rw [PC.stage_of_calm (h x hne)]

omit [DecidableEq T] in
theorem Turn.queue_of_ne (h : Turn N t s s') {c : C} (hc : c ≠ N.owner t) :
    s'.queue c = s.queue c := by
  cases h with
  | enter _ _ hq => rw [hq, Function.update_of_ne hc]
  | stay _ _ _ hq => rw [hq]
  | obtains _ _ hq => rw [hq]
  | leave _ _ hq => rw [hq, Function.update_of_ne hc]

end Lane

namespace Rep

variable {s s' : Lane C T} {a a' : Abs C T} {t : T} {f : Option Fault} {c : C}

omit [DecidableEq C] [DecidableEq T] in
/-- The queue is the threads of the client that have anything to do with the lock. -/
theorem mem_queue (h : Rep N s a) : t ∈ s.queue c ↔ N.owner t = c ∧ (s.pc t).stage ≠ .out := by
  rw [Lane.queue, (h.client c).mem t, Lane.own, Ne, PC.own_eq_out]

omit [DecidableEq C] [DecidableEq T] in
/-- A thread that has the lock is the first in the queue. -/
theorem queue_of_having (h : Rep N s a) (ht : (s.pc t).stage = .having) :
    ∃ rest, s.queue (N.owner t) = t :: rest ∧ t ∉ rest := by
  have hc := h.client (N.owner t)
  obtain ⟨hout, hwait⟩ := PC.own_ne_of_having ht
  obtain ⟨rest, hq⟩ := hc.queue_eq rfl hout hwait
  have hnd := hc.nodup
  rw [hq, List.nodup_cons] at hnd
  exact ⟨rest, hq, hnd.1⟩

/-- A thread enters. -/
theorem line_enter (h : Rep N s a) (h' : Rep N s' a') (hothers : Lane.SameOthers t s s')
    (hpc : s.pc t = .out) (hpc' : s'.pc t = .held ∨ (s'.pc t).stage = .waiting)
    (hq : s'.queue (N.owner t) = s.queue (N.owner t) ++ [t]) :
    s.line (N.owner t) ++ Lane.entered (N.owner t) t s s' =
      Lane.obtained N (N.owner t) t s s' ++ s'.line (N.owner t) := by
  have hnot : t ∉ s.queue (N.owner t) := by simp [h.mem_queue, hpc, PC.stage]
  have hin : Lane.entered (N.owner t) t s s' = [t] := by simp [Lane.entered, hnot, hq]
  have hline : s'.line (N.owner t) =
      s.line (N.owner t) ++ [t].filter fun x ↦ (s'.pc x).stage ≠ .having := by
    rw [Lane.line, hq, List.filter_append, Lane.filter_stage hothers hnot, Lane.line]
  rcases hpc' with hheld | hwait
  · -- the lock was in the cache, and so nobody was queued
    obtain ⟨rest, hq', -⟩ := h'.queue_of_having (by rw [hheld]; rfl)
    rw [hq, List.append_eq_cons_iff] at hq'
    have hnil : s.queue (N.owner t) = [] := by
      rcases hq' with ⟨hnil, -⟩ | ⟨xs, hcons, -⟩
      · exact hnil
      · exact absurd (by rw [hcons]; exact List.mem_cons_self) hnot
    have hline₀ : s.line (N.owner t) = [] := by simp [Lane.line, hnil]
    simp [hin, hline, hline₀, Lane.obtained, hpc, hheld, PC.stage]
  · have hne : s'.pc t ≠ .held := by
      intro hheld
      simp [hheld, PC.stage] at hwait
    simp [hin, hline, Lane.obtained, hne, hwait]

/-- A thread stays where it is. -/
theorem line_stay (hothers : Lane.SameOthers t s s') (hpc' : (s'.pc t).stage = (s.pc t).stage)
    (hheld : s'.pc t = .held → s.pc t = .held) (hq : s'.queue = s.queue) :
    s.line c ++ Lane.entered c t s s' = Lane.obtained N c t s s' ++ s'.line c := by
  have hin : Lane.entered c t s s' = [] := by simp [Lane.entered, hq]
  have hout : Lane.obtained N c t s s' = [] := by
    simp only [Lane.obtained, ite_eq_right_iff]
    rintro ⟨-, hne, heq⟩
    exact absurd (hheld heq) hne
  have hstage : ∀ x, (s'.pc x).stage = (s.pc x).stage := by
    intro x
    by_cases hx : x = t
    · rw [hx, hpc']
    · exact PC.stage_of_calm (hothers x hx)
  simp only [hin, hout, Lane.line, hq, hstage, List.append_nil, List.nil_append]

/-- A thread obtains the lock. -/
theorem line_obtains (h' : Rep N s' a') (hothers : Lane.SameOthers t s s')
    (hpc : (s.pc t).stage = .waiting) (hpc' : s'.pc t = .held) (hq : s'.queue = s.queue) :
    s.line (N.owner t) ++ Lane.entered (N.owner t) t s s' =
      Lane.obtained N (N.owner t) t s s' ++ s'.line (N.owner t) := by
  obtain ⟨rest, hq', hrest⟩ := h'.queue_of_having (by rw [hpc']; rfl)
  have hne : s.pc t ≠ .held := by
    intro hheld
    simp [hheld, PC.stage] at hpc
  have hline : s'.line (N.owner t) = rest.filter fun x ↦ (s.pc x).stage ≠ .having := by
    rw [Lane.line, hq', List.filter_cons_of_neg (by simp [hpc', PC.stage]),
      Lane.filter_stage hothers hrest]
  have hline₀ : s.line (N.owner t) = t :: rest.filter fun x ↦ (s.pc x).stage ≠ .having := by
    rw [Lane.line, ← hq, hq', List.filter_cons_of_pos (by simp [hpc])]
  simp [hline, hline₀, Lane.entered, hq, Lane.obtained, hne, hpc']

/-- A thread leaves. -/
theorem line_leave (h : Rep N s a) (hothers : Lane.SameOthers t s s')
    (hpc : (s.pc t).stage = .having) (hpc' : s'.pc t = .out)
    (hq : s'.queue (N.owner t) = (s.queue (N.owner t)).tail) :
    s.line (N.owner t) ++ Lane.entered (N.owner t) t s s' =
      Lane.obtained N (N.owner t) t s s' ++ s'.line (N.owner t) := by
  obtain ⟨rest, hq₀, hrest⟩ := h.queue_of_having hpc
  rw [hq₀, List.tail_cons] at hq
  have hline : s'.line (N.owner t) = s.line (N.owner t) := by
    rw [Lane.line, hq, Lane.filter_stage hothers hrest, Lane.line, hq₀,
      List.filter_cons_of_neg (by simp [hpc])]
  simp [hline, Lane.entered, hq, hrest, Lane.obtained, hpc']

/-- Whoever enters goes to the back of the line, and whoever obtains the lock was at its front. -/
theorem line_step (h : Rep N s a) (h' : Rep N s' a') (hs : s.step N t = some (s', f)) (c : C) :
    s.line c ++ Lane.entered c t s s' = Lane.obtained N c t s s' ++ s'.line c := by
  have hturn := Lane.turn_step hs
  have hothers := Lane.sameOthers_step hs
  by_cases hc : c = N.owner t
  · subst hc
    cases hturn with
    | enter hpc hpc' hq => exact h.line_enter h' hothers hpc hpc' (by rw [hq, Function.update_self])
    | stay hpc hpc' hheld hq => exact line_stay hothers hpc' hheld hq
    | obtains hpc hpc' hq => exact h'.line_obtains hothers hpc hpc' hq
    | leave hpc hpc' hq => exact h.line_leave hothers hpc hpc' (by rw [hq, Function.update_self])
  · -- a step of another client's thread
    have hq := hturn.queue_of_ne hc
    have hnot : t ∉ s.queue c := fun ht ↦ hc (h.mem_queue.1 ht).1.symm
    have hline : s'.line c = s.line c := by
      rw [Lane.line, hq, Lane.filter_stage hothers hnot, Lane.line]
    simp [hline, Lane.entered, hq, Lane.obtained, Ne.symm hc]

end Rep

/-! ## Whole runs -/

/-- The threads of client `c` that have entered `lock.queue` for `lid`, in order. -/
def entered (N : Cluster C T) (lid : Lid) (c : C) (run : List (T × Lid)) : List T :=
  observe (step N) (fun s x s' ↦ Lane.entered c x.1 (s.lane lid) (s'.lane lid)) {} run

/-- The threads of client `c` that have returned from `acquire(lid)`, in order. -/
def obtained (N : Cluster C T) (lid : Lid) (c : C) (run : List (T × Lid)) : List T :=
  observe (step N) (fun s x s' ↦ Lane.obtained N c x.1 (s.lane lid) (s'.lane lid)) {} run

theorem State.Ok.line_step {s s' : State C T} (h : s.Ok N) {x : T × Lid}
    (hs : Lock.step N s x = some s') (lid : Lid) (c : C) :
    (s.lane lid).line c ++ Lane.entered c x.1 (s.lane lid) (s'.lane lid) =
      Lane.obtained N c x.1 (s.lane lid) (s'.lane lid) ++ (s'.lane lid).line c := by
  obtain ⟨⟨f, hl⟩, hother⟩ := lane_of_step hs
  by_cases hlid : lid = x.2
  · subst hlid
    obtain ⟨a, hrep, -⟩ := h.lane x.2
    obtain ⟨a', hrep', -⟩ := (h.step hs).lane x.2
    exact hrep.line_step hrep' hl c
  · rw [hother lid hlid]
    simp [Lane.entered, Lane.obtained]

theorem ok_init : ({} : State C T).Ok N :=
  Reachable.ok ⟨[], rfl⟩

/-- The threads of a client obtain a lock in the order in which they have entered its queue. -/
theorem obtained_prefix {run : List (T × Lid)} {s : State C T}
    (hrun : run.foldlM (step N) {} = some s) (lid : Lid) (c : C) :
    obtained N lid c run <+: entered N lid c run := by
  have hfifo := fifo (fun s x s' (hs : s.Ok N) h ↦ hs.step h)
    (fun s x s' hs h ↦ hs.line_step h lid c) run {} s ok_init hrun
  exact ⟨(s.lane lid).line c, hfifo.symm⟩

/-- What a client promises to its threads, at the end of a run. -/
structure ClientSafe (N : Cluster C T) (run : List (T × Lid)) (s : State C T) : Prop where
  /-- Whoever has returned from `acquire` has the lock, and is the first in the queue. -/
  returned : ∀ t lid, (s.lane lid).pc t = .held →
    ((s.lane lid).lockOf (N.owner t)).state = .locked ∧
      ((s.lane lid).lockOf (N.owner t)).queue.head? = some t
  /-- No call has returned with the mutex locked, and nobody has applied `front` or `pop` to an
  empty queue. -/
  sound : ∀ c, s.fault (.client c) = none
  /-- First come, first served. -/
  order : ∀ lid c, obtained N lid c run <+: entered N lid c run

/-- **The cache is safe against its own threads.** -/
theorem clientSafe (run : List (T × Lid)) (s : State C T)
    (hrun : run.foldlM (step N) {} = some s) : ClientSafe N run s := by
  have hok := Reachable.ok ⟨run, hrun⟩
  refine ⟨fun t lid ht ↦ ?_, fun c ↦ ?_, obtained_prefix hrun⟩
  · obtain ⟨a, hrep, -⟩ := hok.lane lid
    obtain ⟨⟨b, hmode⟩, rest, hq⟩ := hrep.mode_of_held ht
    have hstate := (hrep.client (N.owner t)).state
    rw [hmode] at hstate
    exact ⟨hstate, by rw [hq]; rfl⟩
  · cases hf : s.fault (.client c) with
    | none => rfl
    | some f => exact absurd (hok.fault _ f hf).1 (by simp)

/-- Two clients with two threads each. -/
def twoThreads : Cluster Bool (Bool × Bool) where
  id := twoClients.id
  clientAt := twoClients.clientAt
  clientAt_eq := twoClients.clientAt_eq
  owner := Prod.fst

/-- Both threads of the first client ask for lock 1, one of the second client does so too, and the
first client's threads have their turns before it gives the lock back. -/
def handedOn : List ((Bool × Bool) × Lid) :=
  List.replicate 3 ((false, true), 1) ++ [((false, false), 1)] ++ [((false, true), 1)] ++
    [((false, false), 1)] ++ List.replicate 6 ((true, true), 1) ++
    List.replicate 6 ((false, false), 1) ++ List.replicate 3 ((true, true), 1)

theorem handedOn_runs :
    ∃ s, handedOn.foldlM (step twoThreads) {} = some s ∧ (s.lane 1).pc (true, true) = .held ∧
      obtained twoThreads 1 false handedOn = [(false, true), (false, false)] :=
  ⟨_, rfl, by decide, by decide⟩

theorem clientSafe_handedOn :
    ∃ s, handedOn.foldlM (step twoThreads) {} = some s ∧ (s.lane 1).pc (true, true) = .held ∧
      obtained twoThreads 1 false handedOn = [(false, true), (false, false)] ∧
      ClientSafe twoThreads handedOn s := by
  obtain ⟨s, hrun, hheld, hobtained⟩ := handedOn_runs
  exact ⟨s, hrun, hheld, hobtained, clientSafe handedOn s hrun⟩

end Lock
end Yfs
