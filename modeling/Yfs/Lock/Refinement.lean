import Yfs.Lock.ClientInv

/-!
# The lock service refines its protocol

A lane of the system represents a protocol state when the server's locks agree, every client is in
its mode, and the debts are where the protocol says they are: the chain that owes a revoke, the
chain that owes a retry, the chain that carries a lock back to the server.  `Carry` reads that last
part off a program counter.

`Rep.step` is the refinement: a step of the system is a step of the protocol or none at all.  The
only way for a process to go down is for the server to be asked by a client without a name.
-/

set_option autoImplicit false

namespace Yfs
namespace Lock

variable {C T : Type}

/-- What a call chain owes to somebody. -/
inductive Carry (C : Type) where
  | nothing
  /-- A revoke, for this id if it has been read already. -/
  | revoke (cid : Option String)
  /-- A release of client `c`. -/
  | rel (c : C) (r : Rel)

/-- Read it off the program counter of a thread of client `o`. -/
def PC.carry (o : C) : PC C → Carry C
  | .acquire (.unlocked _) => .revoke none
  | .acquire (.revoke _ cid) => .revoke (some cid)
  | .acquire (.releasing _ c r) => .rel c r
  | .release r => .rel o r
  | _ => .nothing

namespace Carry

/-- Is a revoke still to be delivered? -/
@[grind] def owesRevoke : Carry C → Bool
  | .revoke _ => true
  | _ => false

/-- The name the revoke is addressed to. -/
@[grind] def revokeCid : Carry C → Option String
  | .revoke cid => cid
  | _ => none

/-- The client whose lock has not reached the server yet. -/
@[grind] def brings : Carry C → Option C
  | .rel c .request => some c
  | _ => none

/-- The client whose lock has reached the server. -/
@[grind] def brought : Carry C → Option C
  | .rel _ .request => none
  | .rel c _ => some c
  | _ => none

/-- Is a retry still to be delivered? -/
@[grind] def owesRetry : Carry C → Bool
  | .rel _ .unlocked | .rel _ (.retry _) => true
  | _ => false

/-- The name the retry is addressed to. -/
@[grind] def retryCid : Carry C → Option String
  | .rel _ (.retry cid) => some cid
  | _ => none

end Carry

/-- The debts are where the protocol state says. -/
structure TokenOk (k : T → Carry C) (a : Abs C T) : Prop where
  revoke : ∀ t, a.revoke = some t ↔ (k t).owesRevoke = true
  /-- The name that was read is still the holder's. -/
  revokeCid : ∀ t cid, (k t).revokeCid = some cid → cid = a.server.holder
  relReq : ∀ c t, a.mode c = .relReq t ↔ (k t).brings = some c
  relDone : ∀ c t, a.mode c = .relDone t ↔ (k t).brought = some c
  retry : ∀ t, a.retry = some t ↔ (k t).owesRetry = true
  /-- The name that was read is still the retryer's. -/
  retryCid : ∀ t cid, (k t).retryCid = some cid → cid = a.server.retryer

namespace Lane

/-- What the clients see of their threads. -/
def own (s : Lane C T) (t : T) : Own := (s.pc t).own

/-- What the call chains owe. -/
def carry (N : Cluster C T) (s : Lane C T) (t : T) : Carry C := (s.pc t).carry (N.owner t)

variable (s : Lane C T) (N : Cluster C T) (t : T) (c : C)

@[simp] theorem setServer_own (l : ServerLock) : (s.setServer l).own = s.own := rfl
@[simp] theorem setServer_carry (l : ServerLock) : (s.setServer l).carry N = s.carry N := rfl
@[simp] theorem setServer_lockOf (l : ServerLock) : (s.setServer l).lockOf = s.lockOf := rfl
@[simp] theorem setServer_server (l : ServerLock) : (s.setServer l).server = some l := rfl

section SetLock

variable [DecidableEq C]

@[simp] theorem setLock_own (l : ClientLock T) : (s.setLock c l).own = s.own := rfl
@[simp] theorem setLock_carry (l : ClientLock T) : (s.setLock c l).carry N = s.carry N := rfl
@[simp] theorem setLock_server (l : ClientLock T) : (s.setLock c l).server = s.server := rfl

theorem setLock_lockOf (l : ClientLock T) (c' : C) :
    (s.setLock c l).lockOf c' = if c' = c then l else s.lockOf c' := by
  simp only [lockOf, setLock, Function.update_apply]
  split <;> rfl

end SetLock

variable [DecidableEq T]

@[simp] theorem setPc_own (p : PC C) : (s.setPc t p).own = Function.update s.own t p.own := by
  funext x
  simp only [own, setPc, Function.update_apply]
  split <;> rfl

@[simp] theorem setPc_carry (p : PC C) :
    (s.setPc t p).carry N = Function.update (s.carry N) t (p.carry (N.owner t)) := by
  funext x
  simp only [carry, setPc, Function.update_apply]
  split
  · rename_i e; rw [e]
  · rfl

@[simp] theorem setPc_lockOf (p : PC C) : (s.setPc t p).lockOf = s.lockOf := rfl
@[simp] theorem setPc_server (p : PC C) : (s.setPc t p).server = s.server := rfl

@[simp] theorem signal_none : s.signal none = s := rfl

@[simp] theorem signal_own (w : T) :
    (s.signal (some w)).own = Function.update s.own w (s.own w).signal := by
  rw [signal]
  cases h : s.pc w with
  | waitEmpty b => simp [own, h, PC.own, Own.signal]
  | waitQueue b => simp [own, h, PC.own, Own.signal]
  | waitRetry b => simp [own, h, PC.own, Own.signal]
  | out => simp [own, h, PC.own, Own.signal]
  | held => simp [own, h, PC.own, Own.signal]
  | acquire a =>
    have : (s.own w).signal = s.own w := by cases a <;> simp [own, h, PC.own, Own.signal]
    simp [this]
  | release r => simp [own, h, PC.own, Own.signal]

@[simp] theorem signal_carry (w : Option T) : (s.signal w).carry N = s.carry N := by
  cases w with
  | none => rfl
  | some w =>
    have key : ∀ p : PC C, p.carry (N.owner w) = .nothing → (s.pc w).carry (N.owner w) = .nothing →
        (s.setPc w p).carry N = s.carry N := by
      intro p hp hw
      rw [setPc_carry, hp, ← hw]
      exact Function.update_eq_self w (s.carry N)
    rw [signal]
    split
    · rename_i h; exact key _ rfl (by rw [h]; rfl)
    · rename_i h; exact key _ rfl (by rw [h]; rfl)
    · rename_i h; exact key _ rfl (by rw [h]; rfl)
    · rfl

@[simp] theorem signal_lockOf (w : Option T) : (s.signal w).lockOf = s.lockOf := by
  cases w with
  | none => rfl
  | some w => rw [signal]; split <;> rfl

@[simp] theorem signal_server (w : Option T) : (s.signal w).server = s.server := by
  cases w with
  | none => rfl
  | some w => rw [signal]; split <;> rfl

end Lane

/-- A lane of the system represents a protocol state. -/
structure Rep (N : Cluster C T) (s : Lane C T) (a : Abs C T) : Prop where
  server : a.server = s.server.getD {}
  client : ∀ c, ClientOk N.owner s.own c (s.lockOf c) (a.mode c)
  token : TokenOk (s.carry N) a

theorem rep_init (N : Cluster C T) : Rep N ({} : Lane C T) {} := by
  refine ⟨rfl, fun c ↦ ?_, ?_⟩
  · constructor <;> simp [Lane.own, Lane.lockOf, PC.own, Mode.state]
  · constructor <;> simp [Lane.carry, PC.carry, Carry.owesRevoke, Carry.revokeCid, Carry.brings,
      Carry.brought, Carry.owesRetry, Carry.retryCid]

/-! ## Debts

One lemma for each way in which a debt is made, moves or is paid. -/

namespace TokenOk

variable {k : T → Carry C} {a : Abs C T} {t : T} {c : C}

/-- A client that neither starts nor stops giving the lock back. -/
theorem setMode [DecidableEq C] (h : TokenOk k a) (m : Mode T) (hold : (a.mode c).releasing = false)
    (hnew : m.releasing = false) : TokenOk k (a.setMode c m) where
  revoke := h.revoke
  revokeCid := h.revokeCid
  relReq c' t := by
    rw [Abs.setMode_mode, ← h.relReq]
    split
    · rename_i e; subst e
      exact ⟨fun h' ↦ by simp [h', Mode.releasing] at hnew, fun h' ↦ by
        simp [h', Mode.releasing] at hold⟩
    · rfl
  relDone c' t := by
    rw [Abs.setMode_mode, ← h.relDone]
    split
    · rename_i e; subst e
      exact ⟨fun h' ↦ by simp [h', Mode.releasing] at hnew, fun h' ↦ by
        simp [h', Mode.releasing] at hold⟩
    · rfl
  retry := h.retry
  retryCid := h.retryCid

/-- The server's lock changes, but not a name that somebody has read. -/
theorem setServer (h : TokenOk k a) {l : ServerLock}
    (hh : a.revoke ≠ none → l.holder = a.server.holder)
    (hr : a.retry ≠ none → l.retryer = a.server.retryer) : TokenOk k { a with server := l } where
  revoke := h.revoke
  revokeCid t cid ht := by
    have hn : a.revoke = some t := (h.revoke t).2 <| by
      revert ht; cases k t <;> simp [Carry.revokeCid, Carry.owesRevoke]
    exact (h.revokeCid t cid ht).trans (hh (by simp [hn])).symm
  relReq := h.relReq
  relDone := h.relDone
  retry := h.retry
  retryCid t cid ht := by
    have hn : a.retry = some t := (h.retry t).2 <| by
      revert ht
      rcases k t with _ | _ | ⟨c, r⟩
      · simp [Carry.retryCid]
      · simp [Carry.retryCid]
      · cases r <;> simp [Carry.retryCid, Carry.owesRetry]
    exact (h.retryCid t cid ht).trans (hr (by simp [hn])).symm

variable [DecidableEq T]

/-- A chain takes on a revoke. -/
theorem oweRevoke (h : TokenOk k a) (ht : k t = .nothing) (hr : a.revoke = none) :
    TokenOk (Function.update k t (.revoke none)) { a with revoke := some t } := by
  obtain ⟨revoke, revokeCid, relReq, relDone, retry, retryCid⟩ := h
  constructor <;> grind [Function.update_apply]

/-- It reads the holder's name. -/
theorem readHolder (h : TokenOk k a) (ht : k t = .revoke none) :
    TokenOk (Function.update k t (.revoke (some a.server.holder))) a := by
  obtain ⟨revoke, revokeCid, relReq, relDone, retry, retryCid⟩ := h
  constructor <;> grind [Function.update_apply]

/-- It delivers the revoke. -/
theorem payRevoke (h : TokenOk k a) {x : Option String} (ht : k t = .revoke x) :
    TokenOk (Function.update k t .nothing) { a with revoke := none } := by
  obtain ⟨revoke, revokeCid, relReq, relDone, retry, retryCid⟩ := h
  constructor <;> grind [Function.update_apply]

/-- A chain starts to carry the lock of client `c` back. -/
theorem takeBack [DecidableEq C] (h : TokenOk k a) (ht : k t = .nothing)
    (hc : (a.mode c).releasing = false) :
    TokenOk (Function.update k t (.rel c .request)) (a.setMode c (.relReq t)) := by
  obtain ⟨revoke, revokeCid, relReq, relDone, retry, retryCid⟩ := h
  constructor <;> grind [Function.update_apply]

/-- It delivers the lock, and takes on a retry. -/
theorem oweRetry [DecidableEq C] (h : TokenOk k a) (ht : k t = .rel c .request)
    (hr : a.retry = none) :
    TokenOk (Function.update k t (.rel c .unlocked))
      { a.setMode c (.relDone t) with retry := some t } := by
  have hmode : a.mode c = .relReq t := (h.relReq c t).2 (by rw [ht]; rfl)
  obtain ⟨revoke, revokeCid, relReq, relDone, retry, retryCid⟩ := h
  constructor <;> grind [Function.update_apply]

/-- It reads the retryer's name. -/
theorem readRetryer (h : TokenOk k a) (ht : k t = .rel c .unlocked) :
    TokenOk (Function.update k t (.rel c (.retry a.server.retryer))) a := by
  obtain ⟨revoke, revokeCid, relReq, relDone, retry, retryCid⟩ := h
  constructor <;> grind [Function.update_apply]

/-- It delivers the retry. -/
theorem payRetry (h : TokenOk k a) {cid : String} (ht : k t = .rel c (.retry cid)) :
    TokenOk (Function.update k t (.rel c .retried)) { a with retry := none } := by
  obtain ⟨revoke, revokeCid, relReq, relDone, retry, retryCid⟩ := h
  constructor <;> grind [Function.update_apply]

/-- The server's handler of the release returns. -/
theorem relReply (h : TokenOk k a) (ht : k t = .rel c .retried) (ret : Status) :
    TokenOk (Function.update k t (.rel c (.reply ret))) a := by
  obtain ⟨revoke, revokeCid, relReq, relDone, retry, retryCid⟩ := h
  constructor <;> grind [Function.update_apply]

/-- The client learns that the lock is gone. -/
theorem relEnd [DecidableEq C] (h : TokenOk k a) {ret : Status} (ht : k t = .rel c (.reply ret)) :
    TokenOk (Function.update k t .nothing) (a.setMode c .idle) := by
  have hmode : a.mode c = .relDone t := (h.relDone c t).2 (by rw [ht]; rfl)
  obtain ⟨revoke, revokeCid, relReq, relDone, retry, retryCid⟩ := h
  constructor <;> grind [Function.update_apply]

end TokenOk

/-! ## One step -/

variable [DecidableEq C] [DecidableEq T]

namespace Rep

variable {N : Cluster C T} {s s' : Lane C T} {a : Abs C T} {t : T} {c : C}

/-- The system moves as the protocol allows. -/
def Sim (N : Cluster C T) (a : Abs C T) (s' : Lane C T) : Prop :=
  ∃ a', (a' = a ∨ Abs.Step N a a') ∧ Rep N s' a'

omit [DecidableEq C] [DecidableEq T] in
/-- A lock that is not free is in the server's pool. -/
theorem server_of_state (h : Rep N s a) (hst : a.server.state ≠ .free) :
    s.server = some a.server := by
  have hsv := h.server
  cases he : s.server with
  | none => rw [he] at hsv; simp [hsv] at hst
  | some sl => rw [he] at hsv; rw [hsv]; rfl

omit [DecidableEq T] in
/-- Only threads of client `c` have moved, and that client is in order. -/
theorem client_of (h : Rep N s a) {own' : T → Own} {lockOf' : C → ClientLock T} {mode' : C → Mode T}
    (hown : ∀ x, N.owner x ≠ c → own' x = s.own x) (hlock : ∀ d, d ≠ c → lockOf' d = s.lockOf d)
    (hmode : ∀ d, d ≠ c → mode' d = a.mode d) (hc : ClientOk N.owner own' c (lockOf' c) (mode' c))
    (d : C) : ClientOk N.owner own' d (lockOf' d) (mode' d) := by
  by_cases e : d = c
  · rw [e]; exact hc
  · rw [hlock d e, hmode d e]
    refine (h.client d).congr fun x hx ↦ hown x ?_
    rw [hx]
    exact e

omit [DecidableEq C] in
theorem own_of_ne (x : T) (o : Own) (hx : N.owner x ≠ N.owner t) :
    Function.update s.own t o x = s.own x :=
  Function.update_of_ne (by rintro rfl; exact hx rfl) o s.own

/-- A thread that owes nothing finishes a section of `acquire`, and its client is in mode `m`
afterwards. -/
theorem finish (h : Rep N s a) (ht : s.carry N t = .nothing) {l : ClientLock T} {nx : Next}
    {m : Mode T}
    (hc : ClientOk N.owner (Function.update s.own t (nx.pc (C := C)).own) (N.owner t) l m)
    (hm : m = a.mode (N.owner t) ∨
      (a.mode (N.owner t)).releasing = false ∧ m.releasing = false) :
    Rep N (s.finish N t (l, nx)).1 (a.setMode (N.owner t) m) := by
  have hcarry : ((s.finish N t (l, nx)).1).carry N = s.carry N := by
    have hnx : (nx.pc (C := C)).carry (N.owner t) = .nothing := by cases nx <;> rfl
    simp only [Lane.finish, Lane.setPc_carry, Lane.setLock_carry, hnx, ← ht,
      Function.update_eq_self]
  refine ⟨by simpa [Lane.finish] using h.server, ?_, ?_⟩
  · have hown : ((s.finish N t (l, nx)).1).own
        = Function.update s.own t (nx.pc (C := C)).own := by simp [Lane.finish]
    rw [hown]
    refine h.client_of (fun x hx ↦ own_of_ne x _ hx) (fun d hd ↦ ?_) (fun d hd ↦ ?_) ?_
    · simp [Lane.finish, Lane.setLock_lockOf, hd]
    · rw [Abs.setMode_mode, if_neg hd]
    · simpa [Lane.finish, Lane.setLock_lockOf] using hc
  · rw [hcarry]
    rcases hm with rfl | ⟨h1, h2⟩
    · rw [show a.setMode (N.owner t) (a.mode (N.owner t)) = a by simp [Abs.setMode]]
      exact h.token
    · exact h.token.setMode m h1 h2

/-- The same, when the client stays in its mode. -/
theorem finish_same (h : Rep N s a) (ht : s.carry N t = .nothing) {l : ClientLock T} {nx : Next}
    (hc : ClientOk N.owner (Function.update s.own t (nx.pc (C := C)).own) (N.owner t) l
      (a.mode (N.owner t))) : Rep N (s.finish N t (l, nx)).1 a := by
  have hrep := h.finish ht hc (Or.inl rfl)
  rwa [show a.setMode (N.owner t) (a.mode (N.owner t)) = a by simp [Abs.setMode]] at hrep

/-- A thread calls `acquire`. -/
theorem acquire (h : Rep N s a) (ht : s.pc t = .out) :
    Sim N a (s.finish N t ((s.lockOf (N.owner t)).acquire t)).1 ∧
      (s.finish N t ((s.lockOf (N.owner t)).acquire t)).2 = none := by
  have hcarry : s.carry N t = .nothing := by simp [Lane.carry, ht, PC.carry]
  have hout : s.own t = .out := by simp [Lane.own, ht, PC.own]
  have hc := h.client (N.owner t)
  simp only [ClientLock.acquire]
  split
  · rename_i hq
    rw [List.isEmpty_iff] at hq
    rcases hc.empty hq with hm | hm | hm
    · have hst := hc.state
      simp only [hst, hm, Mode.state, ClientLock.acquireServer]
      refine ⟨⟨_, Or.inr (.ask hm), h.finish (m := .asking) hcarry ?_ (Or.inr ?_)⟩, rfl⟩
      · refine hc.pushEmpty rfl hq (by simp [hq]) (by simp [Next.pc, PC.own])
          (by simp [Next.pc, PC.own, Own.Fits]) rfl ?_ ?_
        · simp [hc.revokeLater, hm, hq, Next.pc, PC.own]
        · simp [hc.retryEarlier, hm]
      · simp [hm, Mode.releasing]
    · have hst := hc.state
      simp only [hst, hm, Mode.state]
      refine ⟨⟨_, Or.inr (.take hm), h.finish (m := .locked false) hcarry ?_ (Or.inr ?_)⟩, rfl⟩
      · refine hc.pushEmpty rfl hq (by simp [hq]) (by simp [Next.pc, PC.own])
          (by simp [Next.pc, PC.own, Own.Fits]) rfl ?_ ?_
        · simp [hc.revokeLater, hm, hq, Next.pc, PC.own]
        · simp [hc.retryEarlier, hm]
      · simp [hm, Mode.releasing]
    · have hst : (s.lockOf (N.owner t)).state = .releasing := by
        rw [hc.state]
        revert hm
        cases a.mode (N.owner t) <;> simp [Mode.releasing, Mode.state]
      simp only [hst]
      refine ⟨⟨a, Or.inl rfl, h.finish_same hcarry ?_⟩, rfl⟩
      refine hc.pushEmpty rfl hq (by simp [hq]) (by simp [Next.pc, PC.own])
        (by simpa [Next.pc, PC.own, Own.Fits] using hm) (hst.symm.trans hc.state) ?_ hc.retryEarlier
      simp [hc.revokeLater, hq, Next.pc, PC.own]
  · rename_i hq
    exact ⟨⟨a, Or.inl rfl, h.finish_same hcarry (hc.push rfl hout (by simpa using hq))⟩, rfl⟩

/-- A thread that was waiting for the end of a release goes to the server. -/
theorem wokenEmpty (h : Rep N s a) (ht : s.pc t = .waitEmpty true) :
    Sim N a (s.finish N t (s.lockOf (N.owner t)).acquireServer).1 ∧
      (s.finish N t (s.lockOf (N.owner t)).acquireServer).2 = none := by
  have hcarry : s.carry N t = .nothing := by simp [Lane.carry, ht, PC.carry]
  have hown : s.own t = .waitEmpty true := by simp [Lane.own, ht, PC.own]
  have hc := h.client (N.owner t)
  obtain ⟨rest, hq⟩ := hc.queue_eq rfl (by simp [hown]) (by simp [hown])
  have hm : a.mode (N.owner t) = .idle := by
    have := hc.front t (by simp [hq])
    rwa [hown] at this
  refine ⟨⟨_, Or.inr (.ask hm), h.finish (m := .asking) hcarry ?_ (Or.inr ?_)⟩, rfl⟩
  · refine hc.setFront hq (by rfl) (by simp [Next.pc, PC.own]) (by simp [Next.pc, PC.own, Own.Fits])
      rfl
      ?_ ?_
    · simp [hc.revokeLater, hm, hq, hown, Next.pc, PC.own]
    · simp [hc.retryEarlier, hm]
  · simp [hm, Mode.releasing]

/-- A thread has reached the front of the queue. -/
theorem wokenQueue (h : Rep N s a) (ht : s.pc t = .waitQueue true) :
    Sim N a (s.finish N t (s.lockOf (N.owner t)).acquireWoken).1 ∧
      (s.finish N t (s.lockOf (N.owner t)).acquireWoken).2 = none := by
  have hcarry : s.carry N t = .nothing := by simp [Lane.carry, ht, PC.carry]
  have hown : s.own t = .waitQueue true := by simp [Lane.own, ht, PC.own]
  have hc := h.client (N.owner t)
  obtain ⟨rest, hq⟩ := hc.queue_eq rfl (by simp [hown]) (by simp [hown])
  have hfits := hc.front t (by simp [hq])
  rw [hown] at hfits
  have hst := hc.state
  rcases hfits with hm | ⟨b, hm⟩
  · rw [hm] at hst
    simp only [ClientLock.acquireWoken, hst, Mode.state, ClientLock.acquireServer]
    refine ⟨⟨_, Or.inr (.ask hm), h.finish (m := .asking) hcarry ?_ (Or.inr ?_)⟩, rfl⟩
    · refine hc.setFront hq (by rfl) (by simp [Next.pc, PC.own])
        (by simp [Next.pc, PC.own, Own.Fits])
        rfl ?_ ?_
      · simp [hc.revokeLater, hm, hq, hown, Next.pc, PC.own]
      · simp [hc.retryEarlier, hm]
    · simp [hm, Mode.releasing]
  · rw [hm] at hst
    simp only [ClientLock.acquireWoken, hst, Mode.state]
    refine ⟨⟨a, Or.inl rfl, h.finish_same hcarry ?_⟩, rfl⟩
    refine hc.setFront hq (by rfl) (by simp [Next.pc, PC.own])
      (by simp [Next.pc, PC.own, Own.Fits, hm]) hc.state ?_ hc.retryEarlier
    simp [hc.revokeLater, hq, hown, Next.pc, PC.own]

/-- A parked client that has been called asks again; whether its thread had to wait for the call or
not makes no difference. -/
theorem retried (h : Rep N s a) (hcarry : s.carry N t = .nothing) (hout : s.own t ≠ .out)
    (hwait : s.own t ≠ .waitQueue false) (hm : a.mode (N.owner t) = .parked true) :
    Sim N a (s.finish N t (s.lockOf (N.owner t)).acquireServerRetried).1 ∧
      (s.finish N t (s.lockOf (N.owner t)).acquireServerRetried).2 = none := by
  have hc := h.client (N.owner t)
  obtain ⟨rest, hq⟩ := hc.queue_eq rfl hout hwait
  have hst := hc.state
  rw [hm] at hst
  simp only [ClientLock.acquireServerRetried, ClientLock.acquireServerLoop, hst, Mode.state,
    if_true]
  refine ⟨⟨_, Or.inr (.reask hm), h.finish (m := .asking) hcarry ?_ (Or.inr ?_)⟩, rfl⟩
  · refine hc.setFront hq (by rfl) (by simp [Next.pc, PC.own]) (by simp [Next.pc, PC.own, Own.Fits])
      rfl ?_ (by simp)
    have hno : s.own t ≠ .releasing := by
      intro e
      have := hc.front t (by simp [hq])
      simp [e, hm, Own.Fits, Mode.releasing] at this
    simp [hc.revokeLater, hm, hq, hno, Next.pc, PC.own]
  · simp [hm, Mode.releasing]

theorem wokenRetry (h : Rep N s a) (ht : s.pc t = .waitRetry true) :
    Sim N a (s.finish N t (s.lockOf (N.owner t)).acquireServerRetried).1 ∧
      (s.finish N t (s.lockOf (N.owner t)).acquireServerRetried).2 = none := by
  have hown : s.own t = .waitRetry true := by simp [Lane.own, ht, PC.own]
  have hfits := (h.client (N.owner t)).fits rfl (by simp [hown]) (by simp [hown])
  rw [hown] at hfits
  exact h.retried (by simp [Lane.carry, ht, PC.carry]) (by simp [hown]) (by simp [hown]) hfits

/-- The reply to an acquire arrives. -/
theorem acquireReply (h : Rep N s a) {ret : Status} (ht : s.pc t = .acquire (.reply ret)) :
    Sim N a (s.finish N t ((s.lockOf (N.owner t)).acquireServerReply ret)).1 ∧
      (s.finish N t ((s.lockOf (N.owner t)).acquireServerReply ret)).2 = none := by
  have hcarry : s.carry N t = .nothing := by simp [Lane.carry, ht, PC.carry]
  have hown : s.own t = .answered ret := by simp [Lane.own, ht, PC.own]
  have hc := h.client (N.owner t)
  obtain ⟨rest, hq⟩ := hc.queue_eq rfl (by simp [hown]) (by simp [hown])
  have hfits := hc.front t (by simp [hq])
  rw [hown] at hfits
  rcases hfits with ⟨rfl, b, hm⟩ | ⟨rfl, b, hm⟩
  · refine ⟨⟨_, Or.inr (.enter hm), h.finish (m := .locked b) hcarry ?_ (Or.inr ?_)⟩, rfl⟩
    · refine hc.setFront hq (by rfl) (by simp [Next.pc, PC.own])
        (by simp [Next.pc, PC.own, Own.Fits])
        rfl ?_ ?_
      · simp [hc.revokeLater, hm, hq, hown, Next.pc, PC.own]
      · simp [hc.retryEarlier, hm]
    · simp [hm, Mode.releasing]
  · have hearly := hc.retryEarlier
    simp only [ClientLock.acquireServerReply]
    cases b with
    | true =>
      rw [if_pos (hearly.2 hm)]
      exact h.retried hcarry (by simp [hown]) (by simp [hown]) hm
    | false =>
      rw [if_neg (by rw [hearly, hm]; simp)]
      refine ⟨⟨a, Or.inl rfl, h.finish_same hcarry ?_⟩, rfl⟩
      refine hc.setFront hq (by rfl) (by simp [Next.pc, PC.own])
        (by simp [Next.pc, PC.own, Own.Fits, hm]) hc.state ?_ hearly
      simp [hc.revokeLater, hq, hown, Next.pc, PC.own]

/-- The end of `release`: the thread leaves the queue and wakes the next one. -/
theorem leave (h : Rep N s a) {l : ClientLock T} {rest : List T} {m : Mode T}
    (hq : (s.lockOf (N.owner t)).queue = t :: rest) (hq' : l.queue = t :: rest)
    (hretry : l.retryEarlier = false)
    (hlast : rest = [] → (m = .idle ∨ m = .free) ∧ l.state = m.state)
    (hmore : rest ≠ [] → (m = .idle ∨ m = .locked false) ∧
      (if l.revokeLater then l.state else .locked) = m.state)
    (htok : TokenOk (Function.update (s.carry N) t .nothing) (a.setMode (N.owner t) m)) :
    Rep N (s.finishRelease N t l.releaseTail).1 (a.setMode (N.owner t) m) ∧
      (s.finishRelease N t l.releaseTail).2 = none := by
  have hc := h.client (N.owner t)
  cases rest with
  | nil =>
    simp only [ClientLock.releaseTail, hq', Lane.finishRelease, Lane.signal_none, and_true]
    refine ⟨by simpa using h.server, ?_, by simpa [PC.carry] using htok⟩
    simp only [Lane.setPc_own, Lane.setLock_own, Lane.setPc_lockOf]
    refine h.client_of (fun x hx ↦ own_of_ne x _ hx) (fun d hd ↦ ?_) (fun d hd ↦ ?_) ?_
    · simp [Lane.setLock_lockOf, hd]
    · rw [Abs.setMode_mode, if_neg hd]
    · simp only [Lane.setLock_lockOf, if_true, Abs.setMode_self]
      exact hc.popLast hq rfl (hlast rfl).1 (hlast rfl).2 rfl hretry
  | cons w rest =>
    have hwt : w ≠ t := by
      have := hc.nodup
      rw [hq, List.nodup_cons] at this
      rintro rfl
      exact this.1 List.mem_cons_self
    have hw : s.own w = .waitQueue false := hc.tail w (by simp [hq])
    have hwo : N.owner w = N.owner t := ((hc.mem w).1 (by simp [hq])).1
    simp only [ClientLock.releaseTail, hq', Lane.finishRelease, and_true]
    refine ⟨by simpa using h.server, ?_, by simpa [PC.carry] using htok⟩
    simp only [Lane.signal_own, Lane.setPc_own, Lane.setLock_own, Lane.signal_lockOf,
      Lane.setPc_lockOf, Function.update_of_ne hwt, hw, Own.signal]
    refine h.client_of (c := N.owner t) (fun x hx ↦ ?_) (fun d hd ↦ ?_) (fun d hd ↦ ?_) ?_
    · rw [Function.update_of_ne (by rintro rfl; exact hx hwo)]
      exact own_of_ne x _ hx
    · simp [Lane.setLock_lockOf, hd]
    · rw [Abs.setMode_mode, if_neg hd]
    · simp only [Lane.setLock_lockOf, if_true, Abs.setMode_self]
      exact hc.popWake hq rfl (hmore (by simp)).1 (hmore (by simp)).2 rfl hretry

/-- A thread calls `release`. -/
theorem release (h : Rep N s a) (ht : s.pc t = .held) {f : Option Fault}
    (hs : s.step N t = some (s', f)) : Sim N a s' ∧ f = none := by
  have hcarry : s.carry N t = .nothing := by simp [Lane.carry, ht, PC.carry]
  have hown : s.own t = .held := by simp [Lane.own, ht, PC.own]
  have hc := h.client (N.owner t)
  obtain ⟨rest, hq⟩ := hc.queue_eq rfl (by simp [hown]) (by simp [hown])
  obtain ⟨b, hm⟩ : ∃ b, a.mode (N.owner t) = .locked b := by
    have := hc.front t (by simp [hq])
    rwa [hown] at this
  have hearly : (s.lockOf (N.owner t)).retryEarlier = false := by
    have := hc.retryEarlier
    simpa [hm] using this
  simp only [Lane.step, ht] at hs
  split at hs
  · -- the lock is in the pool: the thread is queued in it
    rename_i hnone
    simp [Lane.lockOf, hnone] at hq
  · rename_i lock hlock
    have hl : s.lockOf (N.owner t) = lock := by simp [Lane.lockOf, hlock]
    have hlater : lock.revokeLater = true ↔ b = true := by
      have := hc.revokeLater
      rw [hl] at this hq
      simpa [hm, hown, hq] using this
    rw [hl] at hc hearly
    split at hs
    · rename_i hr
      obtain rfl := hlater.1 hr
      simp only [Option.some.injEq, Prod.mk.injEq] at hs
      obtain ⟨rfl, rfl⟩ := hs
      refine ⟨⟨_, Or.inr (.giveBack t hm), by simpa using h.server, ?_, ?_⟩, rfl⟩
      · simp only [Lane.setPc_own, Lane.setLock_own, Lane.setPc_lockOf, PC.own]
        refine h.client_of (fun x hx ↦ own_of_ne x _ hx) (fun d hd ↦ ?_) (fun d hd ↦ ?_) ?_
        · simp [Lane.setLock_lockOf, hd]
        · rw [Abs.setMode_mode, if_neg hd]
        · simp only [Lane.setLock_lockOf, if_true, Abs.setMode_self]
          rw [hl] at hq
          exact hc.setFront hq (by rfl) (by simp) (by simp [Own.Fits, Mode.releasing]) rfl
            (by simp [ClientLock.releaseRevoked, hr]) (by simp [ClientLock.releaseRevoked, hearly])
      · simp only [Lane.setPc_carry, Lane.setLock_carry, PC.carry]
        exact h.token.takeBack hcarry (by simp [hm, Mode.releasing])
    · rename_i hr
      have hb : b = false := by simpa [hr] using hlater
      subst hb
      simp only [Option.some.injEq] at hs
      have hnothing : Function.update (s.carry N) t .nothing = s.carry N := by
        rw [← hcarry, Function.update_eq_self]
      have hrl : lock.revokeLater = false := by simpa using hr
      rw [hl] at hq
      -- the lock stays with the client: in its cache, or with the next thread
      by_cases hrest : rest = []
      · have hrep := h.leave (l := { lock with state := .free }) (m := .free) (by rw [hl]; exact hq)
          hq hearly (fun _ ↦ ⟨Or.inr rfl, rfl⟩) (fun hne ↦ absurd hrest hne)
          (by rw [hnothing]; exact h.token.setMode _ (by simp [hm, Mode.releasing]) rfl)
        rw [ClientLock.releaseKept] at hs
        rw [hs] at hrep
        exact ⟨⟨_, Or.inr (.keep hm), hrep.1⟩, hrep.2⟩
      · have hrep := h.leave (l := { lock with state := .free }) (m := .locked false)
          (by rw [hl]; exact hq) hq hearly (fun he ↦ absurd he hrest)
          (fun _ ↦ ⟨Or.inr rfl, by simp [hrl, Mode.state]⟩)
          (by rw [hnothing]; exact h.token.setMode _ (by simp [hm, Mode.releasing]) rfl)
        rw [ClientLock.releaseKept] at hs
        rw [hs, ← hm, show a.setMode (N.owner t) (a.mode (N.owner t)) = a by simp [Abs.setMode]]
          at hrep
        exact ⟨⟨a, Or.inl rfl, hrep.1⟩, hrep.2⟩

/-- The reply to a thread's own release arrives. -/
theorem releaseReply (h : Rep N s a) {ret : Status} (ht : s.pc t = .release (.reply ret)) :
    Sim N a (s.finishRelease N t (s.lockOf (N.owner t)).releaseReply).1 ∧
      (s.finishRelease N t (s.lockOf (N.owner t)).releaseReply).2 = none := by
  have hcarry : s.carry N t = .rel (N.owner t) (.reply ret) := by
    simp [Lane.carry, ht, PC.carry]
  have hown : s.own t = .releasing := by simp [Lane.own, ht, PC.own]
  have hc := h.client (N.owner t)
  obtain ⟨rest, hq⟩ := hc.queue_eq rfl (by simp [hown]) (by simp [hown])
  have hm : a.mode (N.owner t) = .relDone t :=
    (h.token.relDone _ t).2 (by rw [hcarry]; rfl)
  have hlater : (s.lockOf (N.owner t)).revokeLater = true :=
    hc.revokeLater.2 (Or.inr (Or.inr ⟨t, by simp [hq], hown⟩))
  have hearly : (s.lockOf (N.owner t)).retryEarlier = false := by
    have := hc.retryEarlier
    simpa [hm] using this
  have hrep := h.leave (l := { s.lockOf (N.owner t) with state := .none }) (m := .idle) hq hq hearly
    (fun _ ↦ ⟨Or.inl rfl, rfl⟩) (fun _ ↦ ⟨Or.inl rfl, by simp [hlater, Mode.state]⟩)
    (h.token.relEnd hcarry)
  exact ⟨⟨_, Or.inr (.done hm), hrep.1⟩, hrep.2⟩

omit [DecidableEq C] in
/-- A chain moves on in a way that no client can see. -/
theorem move (h : Rep N s a) {p : PC C} (hown : p.own = s.own t)
    (htok : TokenOk (Function.update (s.carry N) t (p.carry (N.owner t))) a) :
    Rep N (s.setPc t p) a := by
  refine ⟨h.server, fun d ↦ ?_, by simpa using htok⟩
  rw [Lane.setPc_own, hown, Function.update_eq_self, Lane.setPc_lockOf]
  exact h.client d

omit [DecidableEq C] [DecidableEq T] in
/-- A client with an acquire under way is asking. -/
theorem mode_of_request (h : Rep N s a) (ht : s.pc t = .acquire .request) :
    a.mode (N.owner t) = .asking := by
  have hown : s.own t = .asking := by simp [Lane.own, ht, PC.own]
  have hfits := (h.client (N.owner t)).fits rfl (by simp [hown]) (by simp [hown])
  rwa [hown] at hfits

/-- An acquire reaches the server. -/
theorem serveAcquire (h : Rep N s a) (hi : a.Inv N) (ht : s.pc t = .acquire .request)
    {f : Option Fault} (hs : s.acqStep N t .request = some (s', f)) :
    (Sim N a s' ∧ f = none) ∨ (f = some .verify ∧ s' = s ∧ ∃ c, N.id c = "") := by
  have hcarry : s.carry N t = .nothing := by simp [Lane.carry, ht, PC.carry]
  have hown : s.own t = .asking := by simp [Lane.own, ht, PC.own]
  have hc := h.client (N.owner t)
  obtain ⟨rest, hq⟩ := hc.queue_eq rfl (by simp [hown]) (by simp [hown])
  have hm := h.mode_of_request ht
  have hsrv : ServerLock.acquire s.server (N.id (N.owner t))
      = ServerLock.acquire (some a.server) (N.id (N.owner t)) := by
    rw [h.server]; rfl
  simp only [Lane.acqStep, hsrv] at hs
  split at hs
  · -- the server goes down
    rename_i f' herr
    simp only [Option.some.injEq, Prod.mk.injEq] at hs
    obtain ⟨rfl, rfl⟩ := hs
    refine Or.inr ⟨?_, rfl, ?_⟩
    · rw [ServerLock.acquire_error herr]
    · by_contra hne
      obtain ⟨r, hr⟩ := hi.acquire_ok (by simpa using hne) hm
      rw [hr] at herr
      exact absurd herr (by simp)
  · rename_i l ret need hok
    simp only [Option.some.injEq, Prod.mk.injEq] at hs
    obtain ⟨rfl, rfl⟩ := hs
    refine Or.inl ⟨?_, rfl⟩
    obtain ⟨hret, hneed, hh, hr⟩ := hi.served hm hok
    have key : ∀ m : Mode T, (Own.answered ret).Fits m → m.state = .acquiring →
        m.releasing = false → (m ≠ .granted true ∧ m ≠ .locked true ∧ m ≠ .parked true) →
        Rep N ((s.setServer l).setPc t (.acquire (if need then .unlocked ret else .reply ret)))
          { a.setMode (N.owner t) m with
            server := l, revoke := if need then some t else a.revoke } := by
      intro m hfits hst hrel hne
      refine ⟨rfl, ?_, ?_⟩
      · have hown' : (PC.acquire (C := C) (if need then .unlocked ret else .reply ret)).own
            = .answered ret := by cases need <;> rfl
        simp only [Lane.setPc_own, hown', Lane.setPc_lockOf, Lane.setServer_own,
          Lane.setServer_lockOf]
        refine h.client_of (c := N.owner t) (fun x hx ↦ own_of_ne x _ hx) (fun d hd ↦ rfl)
          (fun d hd ↦ ?_) ?_
        · rw [Abs.setMode_mode, if_neg hd]
        · rw [Abs.setMode_self]
          refine hc.setFront hq (by rfl) (by simp) hfits ?_ ?_ ?_
          · exact hc.state.trans (by rw [hm, hst]; rfl)
          · have := hc.revokeLater
            simpa [hm, hq, hown, hne] using this
          · have := hc.retryEarlier
            simpa [hm, hne] using this
      · have h1 := (h.token.setMode (c := N.owner t) m (by simp [hm, Mode.releasing])
          hrel).setServer (l := l) hh hr
        simp only [Lane.setPc_carry, Lane.setServer_carry]
        cases need with
        | false =>
          have hkeep : Function.update (s.carry N) t .nothing = s.carry N := by
            rw [← hcarry, Function.update_eq_self]
          simpa [PC.carry, hkeep] using h1
        | true => simpa [PC.carry] using h1.oweRevoke hcarry (hneed rfl)
    rcases hret with rfl | rfl
    · exact ⟨_, Or.inr (.grant t hm hok), key _ (Or.inl ⟨rfl, _, rfl⟩) rfl rfl (by simp)⟩
    · exact ⟨_, Or.inr (.park t hm hok), key _ (Or.inr ⟨rfl, _, rfl⟩) rfl rfl (by simp)⟩

/-- A release reaches the server, whoever sent it. -/
theorem serveRelease (h : Rep N s a) (hi : a.Inv N) {k : Rel → PC C}
    (hown : ∀ r, (k r).own = s.own t) (hk : ∀ r, (k r).carry (N.owner t) = .rel c r)
    (ht : s.carry N t = .rel c .request) {f : Option Fault}
    (hs : s.relStep N t c k .request = some (s', f)) : Sim N a s' ∧ f = none := by
  have hm : a.mode c = .relReq t := (h.token.relReq c t).2 (by rw [ht]; rfl)
  obtain ⟨hst, hid, -, l, hl⟩ := hi.release_ok hm
  have hsrv := h.server_of_state (by simp [hst])
  simp only [Lane.relStep, hsrv, hl, Option.some.injEq, Prod.mk.injEq] at hs
  obtain ⟨rfl, rfl⟩ := hs
  refine ⟨⟨_, Or.inr (.release hm hl), rfl, ?_, ?_⟩, rfl⟩
  · simp only [Lane.setPc_own, Lane.setServer_own, hown, Function.update_eq_self,
      Lane.setPc_lockOf, Lane.setServer_lockOf]
    have hc := h.client c
    refine h.client_of (c := c) (fun _ _ ↦ rfl) (fun _ _ ↦ rfl) (fun d hd ↦ ?_) ?_
    · rw [Abs.setMode_mode, if_neg hd]
    · rw [Abs.setMode_self]
      refine hc.setMode (by rfl) (fun x hx ↦ ?_) (fun _ ↦ Or.inr (Or.inr rfl))
        (hc.state.trans (by rw [hm]; rfl)) ?_ ?_
      · have := hc.front x hx
        rw [hm] at this
        exact this.releasing_of_releasing rfl rfl
      · have := hc.revokeLater
        simpa [hm] using this
      · have := hc.retryEarlier
        simpa [hm] using this
  · have hret : a.retry = none := by
      by_contra hne
      exact absurd ((hi.retry hne).symm.trans hst) (by simp)
    have hrev : a.revoke = none := (hi.told c (by simp [hm, Mode.told])).2
    have h1 := (h.token.setServer (l := l) (fun hne ↦ absurd hrev hne)
      (fun hne ↦ absurd hret hne)).oweRetry ht hret
    simp only [Lane.setPc_carry, Lane.setServer_carry, hk]
    exact h1

/-- A retry reaches the retryer. -/
theorem serveRetry (h : Rep N s a) (hi : a.Inv N) {k : Rel → PC C} {cid : String}
    (hown : ∀ r, (k r).own = s.own t) (hk : ∀ r, (k r).carry (N.owner t) = .rel c r)
    (ht : s.carry N t = .rel c (.retry cid)) {f : Option Fault}
    (hs : s.relStep N t c k (.retry cid) = some (s', f)) : Sim N a s' ∧ f = none := by
  have hcid : cid = a.server.retryer := h.token.retryCid t cid (by rw [ht]; rfl)
  have hret : a.retry = some t := (h.token.retry t).2 (by rw [ht]; rfl)
  obtain ⟨d, hd, -, hm⟩ := hi.retrying (hi.retry (by simp [hret]))
  have hm : a.mode d = .parked false := by simpa [hret] using hm
  have hat : N.clientAt cid = some d := (N.clientAt_eq cid d).2 (by rw [hcid, hd])
  have hc := h.client d
  -- the parked client's queue is not empty, and its first thread waits for this retry or is
  -- still inside the acquire that the retry has overtaken
  obtain ⟨w, rest, hq⟩ : ∃ w rest, (s.lockOf d).queue = w :: rest := by
    cases hq : (s.lockOf d).queue with
    | nil => have := hc.empty hq; simp [hm, Mode.releasing] at this
    | cons w rest => exact ⟨w, rest, rfl⟩
  have hfits := hc.front w (by simp [hq])
  simp only [Lane.relStep, hat, ClientLock.retryHandler, hq, Option.some.injEq,
    Prod.mk.injEq] at hs
  obtain ⟨rfl, rfl⟩ := hs
  refine ⟨⟨_, Or.inr (.wake (by simp [hret]) (by rw [hd]) hm), by simpa using h.server, ?_, ?_⟩,
    rfl⟩
  · simp only [Lane.signal_own, Lane.setPc_own, Lane.setLock_own, hown, Function.update_eq_self,
      Lane.signal_lockOf, Lane.setPc_lockOf]
    have hwo : N.owner w = d := ((hc.mem w).1 (by simp [hq])).1
    refine h.client_of (c := d) (fun x hx ↦ ?_) (fun e he ↦ ?_) (fun e he ↦ ?_) ?_
    · exact Function.update_of_ne (by rintro rfl; exact hx hwo) _ _
    · simp [Lane.setLock_lockOf, he]
    · rw [Abs.setMode_mode, if_neg he]
    · rw [Abs.setMode_self]
      simp only [Lane.setLock_lockOf, if_true]
      have hno : s.own w ≠ .releasing := by
        intro e; rw [e, hm] at hfits; simp [Own.Fits, Mode.releasing] at hfits
      refine hc.setFront hq hq.symm ?_ ?_ (hc.state.trans (by rw [hm]; rfl)) ?_ (by simp)
      · exact Own.signal_ne_out fun e ↦ by rw [e, hm] at hfits; exact hfits
      · rw [hm] at hfits; exact hfits.signal_parked
      · have := hc.revokeLater
        have hno' := Own.signal_ne_releasing hno
        simpa [hm, hq, hno, hno'] using this
  · have h1 := (h.token.payRetry ht).setMode (c := d) (.parked true)
      (by simp [hm, Mode.releasing]) rfl
    simp only [Lane.signal_carry, Lane.setPc_carry, Lane.setLock_carry, hk]
    exact h1

/-- A step of a release call, whoever made it.  The client that started the chain cannot see how far
the call has got, and the chain owes what the call says. -/
theorem relStep (h : Rep N s a) (hi : a.Inv N) {k : Rel → PC C} {r : Rel}
    (hown : ∀ r, (k r).own = s.own t) (hk : ∀ r, (k r).carry (N.owner t) = .rel c r)
    (ht : s.carry N t = .rel c r) {f : Option Fault}
    (hs : s.relStep N t c k r = some (s', f)) : Sim N a s' ∧ f = none := by
  cases r with
  | request => exact h.serveRelease hi hown hk ht hs
  | unlocked =>
    simp only [Lane.relStep, Option.some.injEq, Prod.mk.injEq] at hs
    obtain ⟨rfl, rfl⟩ := hs
    refine ⟨⟨a, Or.inl rfl, h.move (hown _) ?_⟩, rfl⟩
    rw [hk, ← h.server]
    exact h.token.readRetryer ht
  | retry cid => exact h.serveRetry hi hown hk ht hs
  | retried =>
    simp only [Lane.relStep, Option.some.injEq, Prod.mk.injEq] at hs
    obtain ⟨rfl, rfl⟩ := hs
    refine ⟨⟨a, Or.inl rfl, h.move (hown _) ?_⟩, rfl⟩
    rw [hk]
    exact h.token.relReply ht _
  | reply ret => simp [Lane.relStep] at hs

/-- A revoke reaches the holder. -/
theorem serveRevoke (h : Rep N s a) (hi : a.Inv N) {ret : Status} {cid : String}
    (ht : s.pc t = .acquire (.revoke ret cid)) {f : Option Fault}
    (hs : s.acqStep N t (.revoke ret cid) = some (s', f)) : Sim N a s' ∧ f = none := by
  have hcarry : s.carry N t = .revoke (some cid) := by simp [Lane.carry, ht, PC.carry]
  have hown : s.own t = .answered ret := by simp [Lane.own, ht, PC.own]
  have hrev : a.revoke = some t := (h.token.revoke t).2 (by rw [hcarry]; rfl)
  have hcid : cid = a.server.holder := h.token.revokeCid t cid (by rw [hcarry]; rfl)
  obtain ⟨d, hd, howns⟩ := hi.holder (Or.inr (hi.revoke (by simp [hrev])))
  have hat : N.clientAt cid = some d := (N.clientAt_eq cid d).2 (by rw [hcid, hd])
  have htold : (a.mode d).told = false := by
    by_contra hne
    exact absurd ((hi.told d (by simpa using hne)).2.symm.trans hrev) (by simp)
  have hc := h.client d
  have hpay := h.token.payRevoke hcarry
  -- whatever the client does, the thread behind the chain still has its answer coming
  have key : ∀ (l : ClientLock T) (p : Acq C) (m : Mode T), (PC.acquire p).own = .answered ret →
      ClientOk N.owner s.own d l m →
      TokenOk (Function.update (s.carry N) t ((PC.acquire p).carry (N.owner t)))
        { a.setMode d m with revoke := none } →
      Rep N ((s.setLock d l).setPc t (.acquire p)) { a.setMode d m with revoke := none } := by
    intro l p m hp hl htok
    refine ⟨h.server, ?_, by simpa using htok⟩
    rw [Lane.setPc_own, Lane.setLock_own, hp, ← hown, Function.update_eq_self, Lane.setPc_lockOf]
    refine h.client_of (c := d) (fun _ _ ↦ rfl) (fun e he ↦ ?_) (fun e he ↦ ?_) ?_
    · simp [Lane.setLock_lockOf, he]
    · exact (Abs.setMode_mode ..).trans (if_neg he)
    · simpa [Lane.setLock_lockOf] using hl
  have hnote : ∀ m : Mode T, (a.mode d = .granted false ∧ m = .granted true) ∨
      (a.mode d = .locked false ∧ m = .locked true) → Sim N a
        ((s.setLock d { s.lockOf d with revokeLater := true }).setPc t
          (.acquire (.revoked ret))) := by
    intro m hm
    refine ⟨_, Or.inr (.note (by simp [hrev]) hd rfl hm), key _ _ m rfl ?_ ?_⟩
    · refine hc.setMode rfl (fun x hx ↦ ?_) (fun he ↦ ?_) ?_ ?_ ?_
      · exact (hc.front x hx).noted hm
      · have := hc.empty he
        rcases hm with ⟨hm, -⟩ | ⟨hm, -⟩ <;> simp [hm, Mode.releasing] at this
      · rw [hc.state]; rcases hm with ⟨hm, rfl⟩ | ⟨hm, rfl⟩ <;> rw [hm] <;> rfl
      · rcases hm with ⟨-, rfl⟩ | ⟨-, rfl⟩ <;> simp
      · have := hc.retryEarlier
        rcases hm with ⟨hm, rfl⟩ | ⟨hm, rfl⟩ <;> simpa [hm] using this
    · refine hpay.setMode m ?_ ?_
      · rcases hm with ⟨hm, -⟩ | ⟨hm, -⟩ <;> simp [hm, Mode.releasing]
      · rcases hm with ⟨-, rfl⟩ | ⟨-, rfl⟩ <;> rfl
  have hnoted : (a.mode d).state ≠ .free →
      (s.lockOf d).revokeHandler = ({ s.lockOf d with revokeLater := true }, false) :=
    fun hne ↦ if_neg (by rw [hc.state]; exact hne)
  simp only [Lane.acqStep, hat, Option.some.injEq, Prod.mk.injEq] at hs
  obtain ⟨rfl, rfl⟩ := hs
  refine ⟨?_, rfl⟩
  cases hm : a.mode d with
  | idle | asking | parked | relDone => simp [hm, Mode.owns] at howns
  | relReq => simp [hm, Mode.told] at htold
  | granted b =>
    obtain rfl : b = false := by simpa [hm, Mode.told] using htold
    rw [hnoted (by simp [hm, Mode.state])]
    exact hnote _ (Or.inl ⟨hm, rfl⟩)
  | locked b =>
    obtain rfl : b = false := by simpa [hm, Mode.told] using htold
    rw [hnoted (by simp [hm, Mode.state])]
    exact hnote _ (Or.inr ⟨hm, rfl⟩)
  | free =>
    rw [hm] at hc
    have hq := hc.queue_of_free
    rw [show (s.lockOf d).revokeHandler = ({ s.lockOf d with state := .releasing }, true) from
      if_pos hc.state]
    refine ⟨_, Or.inr (.giveUp t (by simp [hrev]) hd hm), key _ _ _ rfl ?_ ?_⟩
    · refine hc.setMode rfl (by simp [hq]) (fun _ ↦ Or.inr (Or.inr rfl)) rfl ?_ ?_
      · simpa [hq] using hc.revokeLater
      · simpa using hc.retryEarlier
    · have h1 := hpay.takeBack (t := t) (c := d) (by simp) (by simp [hm, Mode.releasing])
      rw [Function.update_idem] at h1
      exact h1

omit [DecidableEq C] [DecidableEq T] in
/-- A thread that is giving the lock back carries the lock. -/
theorem mode_of_releasing (h : Rep N s a) {w : T} (hw : s.own w = .releasing) :
    a.mode (N.owner w) = .relReq w ∨ a.mode (N.owner w) = .relDone w := by
  cases hp : s.pc w with
  | release r =>
    have hcarry : s.carry N w = .rel (N.owner w) r := by simp [Lane.carry, hp, PC.carry]
    cases r with
    | request => exact Or.inl ((h.token.relReq _ w).2 (by rw [hcarry]; rfl))
    | unlocked | retry | retried | reply =>
      exact Or.inr ((h.token.relDone _ w).2 (by rw [hcarry]; rfl))
  | acquire q => cases q <;> simp [Lane.own, hp, PC.own] at hw
  | out | held | waitEmpty | waitQueue | waitRetry => simp [Lane.own, hp, PC.own] at hw

/-- The reply to a release by a revoke handler arrives. -/
theorem revokeReply (h : Rep N s a) {ret ret' : Status}
    (ht : s.pc t = .acquire (.releasing ret c (.reply ret'))) {f : Option Fault}
    (hs : s.acqStep N t (.releasing ret c (.reply ret')) = some (s', f)) :
    Sim N a s' ∧ f = none := by
  have hcarry : s.carry N t = .rel c (.reply ret') := by simp [Lane.carry, ht, PC.carry]
  have hown : s.own t = .answered ret := by simp [Lane.own, ht, PC.own]
  have hm : a.mode c = .relDone t := (h.token.relDone c t).2 (by rw [hcarry]; rfl)
  have hc := h.client c
  have hlater := hc.revokeLater
  have hearly := hc.retryEarlier
  simp only [Lane.acqStep, ClientLock.revokeReply, Option.some.injEq, Prod.mk.injEq] at hs
  obtain ⟨rfl, rfl⟩ := hs
  refine ⟨⟨_, Or.inr (.done hm), by simpa using h.server, ?_, ?_⟩, rfl⟩
  · cases hq : (s.lockOf c).queue with
    | nil =>
      simp only [List.head?_nil, Lane.signal_none, Lane.setPc_own, Lane.setLock_own, PC.own, ← hown,
        Function.update_eq_self, Lane.setPc_lockOf]
      refine h.client_of (c := c) (fun _ _ ↦ rfl) (fun e he ↦ ?_) (fun e he ↦ ?_) ?_
      · simp [Lane.setLock_lockOf, he]
      · rw [Abs.setMode_mode, if_neg he]
      · simp only [Lane.setLock_lockOf, if_true, Abs.setMode_self]
        exact hc.setMode hq.symm (by simp [hq]) (fun _ ↦ Or.inl rfl) rfl
          (by simpa [hm, hq] using hlater) (by simpa [hm] using hearly)
    | cons w rest =>
      have hwo : N.owner w = c := ((hc.mem w).1 (by simp [hq])).1
      -- the first thread in the queue came while the lock was on its way, and waits
      have hw : s.own w = .waitEmpty false := by
        have hfits := hc.front w (by simp [hq])
        rw [hm] at hfits
        refine (hfits.of_releasing rfl).resolve_right fun hr ↦ ?_
        have hmode := h.mode_of_releasing hr
        rw [hwo, hm] at hmode
        obtain rfl : t = w := by simpa using hmode
        exact absurd (hr.symm.trans hown) (by simp)
      simp only [List.head?_cons, Lane.signal_own, Lane.setPc_own, Lane.setLock_own, PC.own, ← hown,
        Function.update_eq_self, Lane.signal_lockOf, Lane.setPc_lockOf, hw, Own.signal]
      refine h.client_of (c := c) (fun x hx ↦ ?_) (fun e he ↦ ?_) (fun e he ↦ ?_) ?_
      · exact Function.update_of_ne (by rintro rfl; exact hx hwo) _ _
      · simp [Lane.setLock_lockOf, he]
      · rw [Abs.setMode_mode, if_neg he]
      · simp only [Lane.setLock_lockOf, if_true, Abs.setMode_self]
        exact hc.setFront hq hq.symm (by simp) rfl rfl (by simpa [hm, hq, hw] using hlater)
          (by simpa [hm] using hearly)
  · simpa [PC.carry] using h.token.relEnd hcarry

/-- **Refinement.**  A step of the system is a step of the protocol, or one that the protocol does
not see; the server goes down only in an acquire, and only if some client has no name. -/
theorem step (h : Rep N s a) (hi : a.Inv N) {f : Option Fault}
    (hs : s.step N t = some (s', f)) :
    (Sim N a s' ∧ f = none) ∨
      (s' = s ∧ f = some .verify ∧ s.pc t = .acquire .request ∧ ∃ c, N.id c = "") := by
  -- the sections of client code that end in `finish` or `finishRelease`
  have hfin : ∀ {r : Lane.Out C T}, some r = some (s', f) → Sim N a r.1 ∧ r.2 = none →
      Sim N a s' ∧ f = none := by
    rintro r hr hsim
    obtain rfl := Option.some_inj.1 hr
    exact hsim
  cases ht : s.pc t with
  | out =>
    simp only [Lane.step, ht] at hs
    exact Or.inl (hfin hs (h.acquire ht))
  | held => exact Or.inl (h.release ht hs)
  | waitEmpty b =>
    cases b <;> simp only [Lane.step, ht] at hs
    · exact absurd hs (by simp)
    · exact Or.inl (hfin hs (h.wokenEmpty ht))
  | waitQueue b =>
    cases b <;> simp only [Lane.step, ht] at hs
    · exact absurd hs (by simp)
    · exact Or.inl (hfin hs (h.wokenQueue ht))
  | waitRetry b =>
    cases b <;> simp only [Lane.step, ht] at hs
    · exact absurd hs (by simp)
    · exact Or.inl (hfin hs (h.wokenRetry ht))
  | release r =>
    have hown : s.own t = .releasing := by simp [Lane.own, ht, PC.own]
    have hcarry : s.carry N t = .rel (N.owner t) r := by simp [Lane.carry, ht, PC.carry]
    cases r with
    | reply ret =>
      simp only [Lane.step, ht] at hs
      exact Or.inl (hfin hs (h.releaseReply ht))
    | request | unlocked | retry | retried =>
      simp only [Lane.step, ht] at hs
      exact Or.inl (h.relStep (k := .release) hi (fun _ ↦ hown.symm) (fun _ ↦ rfl) hcarry hs)
  | acquire q =>
    simp only [Lane.step, ht] at hs
    cases q with
    | request =>
      obtain hsim | ⟨hf, hsame, hid⟩ := h.serveAcquire hi ht hs
      · exact Or.inl hsim
      · exact Or.inr ⟨hsame, hf, rfl, hid⟩
    | unlocked ret =>
      simp only [Lane.acqStep, Option.some.injEq, Prod.mk.injEq] at hs
      obtain ⟨rfl, rfl⟩ := hs
      refine Or.inl ⟨⟨a, Or.inl rfl, h.move (by simp [Lane.own, ht, PC.own]) ?_⟩, rfl⟩
      rw [← h.server]
      exact h.token.readHolder (by simp [Lane.carry, ht, PC.carry])
    | revoke ret cid => exact Or.inl (h.serveRevoke hi ht hs)
    | releasing ret c r =>
      have hown : s.own t = .answered ret := by simp [Lane.own, ht, PC.own]
      have hcarry : s.carry N t = .rel c r := by simp [Lane.carry, ht, PC.carry]
      cases r with
      | reply ret' => exact Or.inl (h.revokeReply ht hs)
      | request | unlocked | retry | retried =>
        exact Or.inl (h.relStep (k := fun r ↦ .acquire (.releasing ret c r)) hi
          (fun _ ↦ hown.symm) (fun _ ↦ rfl) hcarry hs)
    | revoked ret =>
      simp only [Lane.acqStep, Option.some.injEq, Prod.mk.injEq] at hs
      obtain ⟨rfl, rfl⟩ := hs
      refine Or.inl ⟨⟨a, Or.inl rfl, h.move (by simp [Lane.own, ht, PC.own]) ?_⟩, rfl⟩
      have hcarry : s.carry N t = .nothing := by simp [Lane.carry, ht, PC.carry]
      rw [show (PC.acquire (.reply ret)).carry (N.owner t) = s.carry N t from hcarry.symm,
        Function.update_eq_self]
      exact h.token
    | reply ret => exact Or.inl (hfin hs (h.acquireReply ht))

end Rep

end Lock
end Yfs
