import Yfs.Lock.Protocol

/-!
# One client from the inside

A client's part of the system is its lock record and what its own threads are doing.  Of a call
chain that a thread has started, the client sees only whether the call has been looked at by the
server and what the answer is going to be; `Own` is a program counter with the rest forgotten.

`ClientOk` says when a client *is* in a mode: its threads form a queue, everybody but the first is
waiting for a turn, and the first one is doing what the mode says.  It mentions one client only,
which is the point of it: a step somewhere else cannot disturb it (`ClientOk.congr`), and each
critical section of the client's code is one lemma about it.
-/

set_option autoImplicit false

namespace Yfs
namespace Lock

variable {C T : Type}

/-- What a client can see of one of its threads. -/
inductive Own where
  | out
  | held
  | waitEmpty (sig : Bool)
  | waitQueue (sig : Bool)
  | waitRetry (sig : Bool)
  /-- The server has not looked at the thread's acquire. -/
  | asking
  /-- The thread's acquire will return this. -/
  | answered (ret : Status)
  | releasing

/-- Forget the call chain behind a program counter. -/
def PC.own : PC C → Own
  | .out => .out
  | .held => .held
  | .waitEmpty b => .waitEmpty b
  | .waitQueue b => .waitQueue b
  | .waitRetry b => .waitRetry b
  | .acquire .request => .asking
  | .acquire (.unlocked ret) => .answered ret
  | .acquire (.revoke ret _) => .answered ret
  | .acquire (.releasing ret _ _) => .answered ret
  | .acquire (.revoked ret) => .answered ret
  | .acquire (.reply ret) => .answered ret
  | .release _ => .releasing

/-- What a signal does to a thread. -/
def Own.signal : Own → Own
  | .waitEmpty _ => .waitEmpty true
  | .waitQueue _ => .waitQueue true
  | .waitRetry _ => .waitRetry true
  | o => o

/-- What the thread at the front of the queue may be doing in a given mode. -/
def Own.Fits : Own → Mode T → Prop
  | .held, m => ∃ b, m = .locked b
  | .waitEmpty true, m => m = .idle
  | .waitEmpty false, m => m.releasing = true
  | .waitQueue true, m => m = .idle ∨ ∃ b, m = .locked b
  | .waitRetry b, m => m = .parked b
  | .asking, m => m = .asking
  | .answered ret, m => (ret = .ok ∧ ∃ b, m = .granted b) ∨ (ret = .retry ∧ ∃ b, m = .parked b)
  | .releasing, m => m.releasing = true
  | .out, _ | .waitQueue false, _ => False

theorem Own.signal_ne_out {o : Own} (h : o ≠ .out) : o.signal ≠ .out := by
  cases o <;> simp_all [Own.signal]

theorem Own.signal_ne_releasing {o : Own} (h : o ≠ .releasing) : o.signal ≠ .releasing := by
  cases o <;> simp_all [Own.signal]

/-- Whoever fits a lock on its way back either brings it back or waits until it is gone. -/
theorem Own.Fits.of_releasing {o : Own} {m : Mode T} (h : o.Fits m) (hm : m.releasing = true) :
    o = .waitEmpty false ∨ o = .releasing := by
  rcases o with _ | _ | b | b | b | _ | ret | _
  all_goals try cases b
  all_goals cases m <;> simp_all [Own.Fits, Mode.releasing]

/-- Whoever fits a lock on its way back fits it at every stage of the way. -/
theorem Own.Fits.releasing_of_releasing {o : Own} {m m' : Mode T} (h : o.Fits m)
    (hm : m.releasing = true) (hm' : m'.releasing = true) : o.Fits m' := by
  rcases h.of_releasing hm with rfl | rfl <;> exact hm'

/-- A retry for the first thread of a parked client: it wakes, or will find the flag. -/
theorem Own.Fits.signal_parked {o : Own} (h : o.Fits (.parked false : Mode T)) :
    o.signal.Fits (.parked true : Mode T) := by
  rcases o with _ | _ | b | b | b | _ | ret | _
  all_goals try cases b
  all_goals simp_all [Own.Fits, Own.signal, Mode.releasing]

theorem Own.Fits.eq_asking {o : Own} (h : o.Fits (.asking : Mode T)) : o = .asking := by
  rcases o with _ | _ | b | b | b | _ | ret | _
  all_goals try cases b
  all_goals simp_all [Own.Fits, Mode.releasing]

/-- A revoke for an owner that cannot give the lock back moves none of its threads. -/
theorem Own.Fits.noted {o : Own} {m m' : Mode T} (h : o.Fits m)
    (hm : (m = .granted false ∧ m' = .granted true) ∨ (m = .locked false ∧ m' = .locked true)) :
    o.Fits m' := by
  rcases o with _ | _ | b | b | b | _ | ret | _
  all_goals try cases b
  all_goals rcases hm with ⟨rfl, rfl⟩ | ⟨rfl, rfl⟩ <;> simp_all [Own.Fits, Mode.releasing]

/-- The `state` field of a client's lock in each mode. -/
def Mode.state : Mode T → ClientState
  | .idle => .none
  | .asking | .parked _ | .granted _ => .acquiring
  | .locked _ => .locked
  | .free => .free
  | .relReq _ | .relDone _ => .releasing

/-- Client `c` is in mode `m`. -/
structure ClientOk (owner : T → C) (own : T → Own) (c : C) (l : ClientLock T) (m : Mode T) :
    Prop where
  /-- No thread is queued twice. -/
  nodup : l.queue.Nodup
  /-- The queue is the threads of the client that have anything to do with the lock. -/
  mem : ∀ t, t ∈ l.queue ↔ owner t = c ∧ own t ≠ .out
  /-- Behind the first thread everybody waits. -/
  tail : ∀ t ∈ l.queue.tail, own t = .waitQueue false
  /-- The first thread does what the mode says. -/
  front : ∀ t, l.queue.head? = some t → (own t).Fits m
  /-- In most modes there is a first thread. -/
  empty : l.queue = [] → m = .idle ∨ m = .free ∨ m.releasing = true
  state : l.state = m.state
  /-- A revoke is remembered by an owner, until the reply to the release it leads to. -/
  revokeLater : l.revokeLater = true ↔
    m = .granted true ∨ m = .locked true ∨ ∃ t, l.queue.head? = some t ∧ own t = .releasing
  retryEarlier : l.retryEarlier = true ↔ m = .parked true

namespace ClientOk

variable [DecidableEq T] {owner : T → C} {own : T → Own} {c : C} {l l' : ClientLock T}
  {m m' : Mode T} {t : T}

omit [DecidableEq T] in
/-- A thread that is neither out nor waiting for its turn is the first in the queue. -/
theorem queue_eq (h : ClientOk owner own c l m) (ht : owner t = c) (hout : own t ≠ .out)
    (hwait : own t ≠ .waitQueue false) : ∃ rest, l.queue = t :: rest := by
  have hmem := (h.mem t).2 ⟨ht, hout⟩
  cases hq : l.queue with
  | nil => simp [hq] at hmem
  | cons x rest =>
    rw [hq, List.mem_cons] at hmem
    rcases hmem with rfl | hmem
    · exact ⟨rest, rfl⟩
    · exact absurd (h.tail t (by rw [hq]; exact hmem)) hwait

omit [DecidableEq T] in
/-- The first thread of the queue fits the mode. -/
theorem fits (h : ClientOk owner own c l m) (ht : owner t = c) (hout : own t ≠ .out)
    (hwait : own t ≠ .waitQueue false) : (own t).Fits m := by
  obtain ⟨rest, hq⟩ := h.queue_eq ht hout hwait
  exact h.front t (by rw [hq]; rfl)

omit [DecidableEq T] in
/-- Nobody is queued for a lock that lies in the cache. -/
theorem queue_of_free (h : ClientOk owner own c l .free) : l.queue = [] := by
  cases hq : l.queue with
  | nil => rfl
  | cons x rest =>
    have hf := h.front x (by rw [hq]; rfl)
    rcases ho : own x with _ | _ | b | b | b | _ | _ | _
    all_goals rw [ho] at hf
    all_goals try cases b
    all_goals simp [Own.Fits, Mode.releasing] at hf

omit [DecidableEq T] in
/-- A client does not notice what other clients' threads do. -/
theorem congr (h : ClientOk owner own c l m) {own' : T → Own}
    (heq : ∀ t, owner t = c → own' t = own t) : ClientOk owner own' c l m := by
  have hq : ∀ t ∈ l.queue, own' t = own t := fun t ht ↦ heq t ((h.mem t).1 ht).1
  refine ⟨h.nodup, ?_, ?_, ?_, h.empty, h.state, ?_, h.retryEarlier⟩
  · intro t
    rw [h.mem t]
    exact and_congr_right fun ht ↦ by rw [heq t ht]
  · intro t ht
    rw [hq t (List.mem_of_mem_tail ht)]
    exact h.tail t ht
  · intro t ht
    rw [hq t (List.mem_of_head? ht)]
    exact h.front t ht
  · rw [h.revokeLater]
    refine or_congr_right (or_congr_right (exists_congr fun t ↦ and_congr_right fun ht ↦ ?_))
    rw [hq t (List.mem_of_head? ht)]

/-- The first thread of the queue moves on, and with it the client. -/
theorem setFront (h : ClientOk owner own c l m) {rest : List T} (hq : l.queue = t :: rest)
    (hq' : l'.queue = l.queue) {o : Own} (hout : o ≠ .out) (hfits : o.Fits m')
    (hstate : l'.state = m'.state)
    (hrevoke : l'.revokeLater = true ↔ m' = .granted true ∨ m' = .locked true ∨ o = .releasing)
    (hretry : l'.retryEarlier = true ↔ m' = .parked true) :
    ClientOk owner (Function.update own t o) c l' m' := by
  have hnd : t ∉ rest := by
    have := h.nodup
    rw [hq, List.nodup_cons] at this
    exact this.1
  have hown := (h.mem t).1 (by rw [hq]; exact List.mem_cons_self)
  refine ⟨hq' ▸ h.nodup, ?_, ?_, ?_, ?_, hstate, ?_, hretry⟩
  · intro x
    rw [hq', h.mem x, Function.update_apply]
    split
    · rename_i e; subst e; simp [hown, hout]
    · rfl
  · intro x hx
    rw [hq', hq] at hx
    have hne : x ≠ t := by rintro rfl; exact hnd hx
    rw [Function.update_of_ne hne]
    exact h.tail x (by rw [hq]; exact hx)
  · intro x hx
    rw [hq', hq, List.head?_cons, Option.some_inj] at hx
    subst hx
    simpa using hfits
  · intro he
    rw [hq', hq] at he
    exact absurd he (by simp)
  · simp [hrevoke, hq', hq]

omit [DecidableEq T] in
/-- The client changes its mode and no thread moves. -/
theorem setMode (h : ClientOk owner own c l m) (hq' : l'.queue = l.queue)
    (hfront : ∀ t, l.queue.head? = some t → (own t).Fits m')
    (hempty : l.queue = [] → m' = .idle ∨ m' = .free ∨ m'.releasing = true)
    (hstate : l'.state = m'.state)
    (hrevoke : l'.revokeLater = true ↔ m' = .granted true ∨ m' = .locked true ∨
      ∃ t, l.queue.head? = some t ∧ own t = .releasing)
    (hretry : l'.retryEarlier = true ↔ m' = .parked true) : ClientOk owner own c l' m' := by
  refine ⟨hq' ▸ h.nodup, fun t ↦ ?_, fun t ht ↦ ?_, fun t ht ↦ ?_, fun he ↦ ?_, hstate, ?_, hretry⟩
  · rw [hq']; exact h.mem t
  · rw [hq'] at ht; exact h.tail t ht
  · rw [hq'] at ht; exact hfront t ht
  · rw [hq'] at he; exact hempty he
  · rw [hq']; exact hrevoke

/-- A thread joins a queue that is not empty. -/
theorem push (h : ClientOk owner own c l m) (ht : owner t = c) (hout : own t = .out)
    (hq : l.queue ≠ []) :
    ClientOk owner (Function.update own t (.waitQueue false)) c
      { l with queue := l.queue ++ [t] } m := by
  have hnot : t ∉ l.queue := fun hm ↦ ((h.mem t).1 hm).2 hout
  have heq : ∀ x ∈ l.queue, Function.update own t (.waitQueue false) x = own x := by
    intro x hx
    refine Function.update_of_ne ?_ _ _
    rintro rfl
    exact hnot hx
  obtain ⟨y, ys, hy⟩ := List.exists_cons_of_ne_nil hq
  have hhead : (l.queue ++ [t]).head? = l.queue.head? := by simp [hy]
  refine ⟨?_, ?_, ?_, ?_, by simp, h.state, ?_, h.retryEarlier⟩
  · simpa [List.nodup_append] using ⟨h.nodup, fun x hx e ↦ hnot (e ▸ hx)⟩
  · intro x
    rw [List.mem_append, List.mem_singleton, h.mem x, Function.update_apply]
    split
    · rename_i e; subst e; simp [ht]
    · rename_i e; simp [e]
  · intro x hx
    simp only [hy, List.cons_append, List.tail_cons, List.mem_append, List.mem_singleton] at hx
    rcases hx with hx | rfl
    · rw [heq x (by rw [hy]; exact List.mem_cons_of_mem _ hx)]
      exact h.tail x (by rw [hy]; exact hx)
    · simp
  · intro x hx
    rw [hhead] at hx
    rw [heq x (List.mem_of_head? hx)]
    exact h.front x hx
  · rw [h.revokeLater, hhead]
    refine or_congr_right (or_congr_right (exists_congr fun x ↦ and_congr_right fun hx ↦ ?_))
    rw [heq x (List.mem_of_head? hx)]

/-- A thread finds the queue empty. -/
theorem pushEmpty (h : ClientOk owner own c l m) (ht : owner t = c) (hq : l.queue = [])
    (hq' : l'.queue = [t]) {o : Own} (hout : o ≠ .out) (hfits : o.Fits m')
    (hstate : l'.state = m'.state)
    (hrevoke : l'.revokeLater = true ↔ m' = .granted true ∨ m' = .locked true ∨ o = .releasing)
    (hretry : l'.retryEarlier = true ↔ m' = .parked true) :
    ClientOk owner (Function.update own t o) c l' m' := by
  refine ⟨by simp [hq'], ?_, by simp [hq'], ?_, by simp [hq'], hstate, by simp [hrevoke, hq'],
    hretry⟩
  · intro x
    have hx := h.mem x
    rw [hq] at hx
    rw [hq', List.mem_singleton, Function.update_apply]
    split
    · rename_i e; subst e; simp [ht, hout]
    · rename_i e; simpa [e] using hx
  · intro x hx
    simp only [hq', List.head?_cons, Option.some.injEq] at hx
    subst hx
    simpa using hfits

/-- The last thread leaves. -/
theorem popLast (h : ClientOk owner own c l m) (hq : l.queue = [t]) (hq' : l'.queue = [])
    (hm : m' = .idle ∨ m' = .free) (hstate : l'.state = m'.state) (hrevoke : l'.revokeLater = false)
    (hretry : l'.retryEarlier = false) :
    ClientOk owner (Function.update own t .out) c l' m' := by
  refine ⟨by simp [hq'], ?_, by simp [hq'], by simp [hq'], fun _ ↦ ?_, hstate, ?_, ?_⟩
  · intro x
    have hx := h.mem x
    rw [hq, List.mem_singleton] at hx
    rw [hq', Function.update_apply]
    split
    · simp
    · rename_i e; simpa [e] using hx
  · rcases hm with rfl | rfl <;> simp
  · rcases hm with rfl | rfl <;> simp [hrevoke, hq']
  · rcases hm with rfl | rfl <;> simp [hretry]

/-- The first thread leaves and wakes the one behind it. -/
theorem popWake (h : ClientOk owner own c l m) {w : T} {rest : List T}
    (hq : l.queue = t :: w :: rest) (hq' : l'.queue = w :: rest)
    (hm : m' = .idle ∨ m' = .locked false) (hstate : l'.state = m'.state)
    (hrevoke : l'.revokeLater = false) (hretry : l'.retryEarlier = false) :
    ClientOk owner
      (Function.update (Function.update own t .out) w (.waitQueue true)) c l' m' := by
  have hnd := h.nodup
  rw [hq, List.nodup_cons, List.nodup_cons] at hnd
  obtain ⟨ht, hw, hnd⟩ := hnd
  rw [List.mem_cons, not_or] at ht
  have hown := (h.mem w).1 (by simp [hq])
  refine ⟨by simp [hq', hw, hnd], ?_, ?_, ?_, by simp [hq'], hstate, ?_, ?_⟩
  · intro x
    have hx := h.mem x
    rw [hq, List.mem_cons] at hx
    rw [hq', Function.update_apply, Function.update_apply]
    split
    · rename_i e; subst e; simp [hown]
    · split
      · rename_i e; subst e; simp [ht]
      · rename_i e; simpa [e] using hx
  · intro x hx
    rw [hq', List.tail_cons] at hx
    have h1 : x ≠ w := by rintro rfl; exact hw hx
    have h2 : x ≠ t := by rintro rfl; exact ht.2 hx
    rw [Function.update_of_ne h1, Function.update_of_ne h2]
    exact h.tail x (by simp [hq, hx])
  · intro x hx
    simp only [hq', List.head?_cons, Option.some.injEq] at hx
    subst hx
    rcases hm with rfl | rfl <;> simp [Own.Fits]
  · rcases hm with rfl | rfl <;> simp [hrevoke, hq']
  · rcases hm with rfl | rfl <;> simp [hretry]

end ClientOk

end Lock
end Yfs
