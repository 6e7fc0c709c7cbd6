import Mathlib.Logic.Function.Basic
import Yfs.Lock.Client

/-!
# The lock service as one system

Any number of clients, any number of threads on each, one server.  All RPCs here are synchronous:
the caller is blocked until the reply is there.  So when a thread calls `acquire`, the handler it
starts on the server, the revoke that handler sends, the release *that* handler sends and the retry
at the end of it are one chain in which only the last link can move.  The chain is recorded in the
program counter of the thread that started it, and a message in flight is a chain whose next step
has not been taken yet: the delay before the step is the delay of the message.  Every call is
executed exactly once and returns, and nothing else about timing or order is assumed.

Different lock ids share nothing but the two mutexes and the threads, so the state of the service is
a `Lane` per lock id, together with what the threads and the processes are up to.

The server reads `lock.holder` and `lock.retryer` again *after* it has unlocked its mutex, to find
out whom to call.  Those reads are steps of their own (`Acq.unlocked`, `Rel.unlocked`).
-/

set_option autoImplicit false

namespace Yfs
namespace Lock

/-- `lock_protocol::lockid_t`. -/
abbrev Lid := UInt64

/-- The fixed part of a deployment: the clients, the strings they introduce themselves by and listen
at, and the threads that run on each. -/
structure Cluster (C T : Type) where
  /-- The `id` of a client. -/
  id : C → String
  /-- The client that a `handle` for this string is bound to. -/
  clientAt : String → Option C
  /-- A handle reaches the client with that id; in particular no two clients have the same. -/
  clientAt_eq : ∀ s c, clientAt s = some c ↔ id c = s
  /-- The client a thread belongs to. -/
  owner : T → C

theorem Cluster.id_injective {C T : Type} (N : Cluster C T) : Function.Injective N.id := by
  intro c c' h
  have h1 := (N.clientAt_eq (N.id c') c).2 h
  rw [(N.clientAt_eq (N.id c') c').2 rfl, Option.some_inj] at h1
  exact h1.symm

/-- How far a call of `lock_protocol::release` has got. -/
inductive Rel where
  /-- The request is on its way to the server. -/
  | request
  /-- The handler has unlocked the server's mutex and is about to read `lock.retryer`. -/
  | unlocked
  /-- A retry for the client with this id is on its way. -/
  | retry (cid : String)
  /-- The retry has been handled and its reply is on its way to the server. -/
  | retried
  /-- The reply is on its way to the client. -/
  | reply (ret : Status)
  deriving DecidableEq, Repr

/-- How far a call of `lock_protocol::acquire` has got. -/
inductive Acq (C : Type) where
  /-- The request is on its way to the server. -/
  | request
  /-- The handler has unlocked the server's mutex and is about to read `lock.holder`. -/
  | unlocked (ret : Status)
  /-- A revoke for the client with this id is on its way. -/
  | revoke (ret : Status) (cid : String)
  /-- The revoke handler of client `c` has called `release`. -/
  | releasing (ret : Status) (c : C) (r : Rel)
  /-- The revoke has been handled and its reply is on its way to the server. -/
  | revoked (ret : Status)
  /-- The reply is on its way to the client. -/
  | reply (ret : Status)
  deriving DecidableEq, Repr

/-- What a thread is doing about one lock.  The flag of a wait says whether its condition has been
signalled. -/
inductive PC (C : Type) where
  /-- It neither has nor wants the lock. -/
  | out
  /-- It has returned from `acquire` and has not called `release`. -/
  | held
  /-- In `acquire`, waiting for a release by the client's revoke handler to end. -/
  | waitEmpty (sig : Bool)
  /-- In `acquire`, waiting for its turn. -/
  | waitQueue (sig : Bool)
  /-- In `acquire_server`, waiting for a retry. -/
  | waitRetry (sig : Bool)
  /-- In `acquire_server`, inside the RPC. -/
  | acquire (a : Acq C)
  /-- In `release`, inside the RPC. -/
  | release (r : Rel)
  deriving DecidableEq, Repr

/-- Where a thread goes after a section of `acquire`. -/
def Next.pc {C : Type} : Next → PC C
  | .call => .acquire .request
  | .waitEmpty => .waitEmpty false
  | .waitQueue => .waitQueue false
  | .waitRetry => .waitRetry false
  | .ret => .held
  | .retLocked => .held

/-- The one section that a thread leaves with the mutex locked. -/
def Next.fault : Next → Option Fault
  | .retLocked => some .mutexKept
  | _ => none

/-- A process of the service. -/
inductive Place (C : Type) where
  | server
  | client (c : C)
  deriving DecidableEq, Repr

/-- Everything that concerns one lock id. -/
structure Lane (C T : Type) where
  /-- The entry of the server's `lock_pool`. -/
  server : Option ServerLock := none
  /-- The entry of each client's `lock_pool`. -/
  client : C → Option (ClientLock T) := fun _ ↦ none
  /-- What each thread is doing about this lock. -/
  pc : T → PC C := fun _ ↦ .out

namespace Lane

variable {C T : Type} [DecidableEq C] [DecidableEq T]

/-- `lock_pool[lid]` of a client. -/
def lockOf (s : Lane C T) (c : C) : ClientLock T := (s.client c).getD {}

/-- Store a client's lock. -/
def setLock (s : Lane C T) (c : C) (l : ClientLock T) : Lane C T :=
  { s with client := Function.update s.client c (some l) }

/-- Store the server's lock. -/
def setServer (s : Lane C T) (l : ServerLock) : Lane C T := { s with server := some l }

/-- Move a thread. -/
def setPc (s : Lane C T) (t : T) (p : PC C) : Lane C T :=
  { s with pc := Function.update s.pc t p }

/-- A `pthread_cond_signal`: it wakes the thread if it is waiting, and is lost otherwise. -/
def signal (s : Lane C T) : Option T → Lane C T
  | none => s
  | some t =>
    match s.pc t with
    | .waitEmpty _ => s.setPc t (.waitEmpty true)
    | .waitQueue _ => s.setPc t (.waitQueue true)
    | .waitRetry _ => s.setPc t (.waitRetry true)
    | _ => s

end Lane

/-- The process that executes the next step of a release call made by client `c`. -/
def Rel.place {C T : Type} (N : Cluster C T) (c : C) : Rel → Place C
  | .request | .unlocked | .retried => .server
  | .retry cid => match N.clientAt cid with
    | some c' => .client c'
    | none => .server
  | .reply _ => .client c

/-- The process that executes the next step of a thread. -/
def PC.place {C T : Type} (N : Cluster C T) (t : T) : PC C → Place C
  | .acquire .request | .acquire (.unlocked _) | .acquire (.revoked _) => .server
  | .acquire (.revoke _ cid) => match N.clientAt cid with
    | some c => .client c
    | none => .server
  | .acquire (.releasing _ c r) => r.place N c
  | .release r => r.place N (N.owner t)
  | _ => .client (N.owner t)

namespace Lane

variable {C T : Type} [DecidableEq C] [DecidableEq T] (N : Cluster C T)

/-- What one step leaves behind: the new lane, and a fault of the process that took the step. -/
abbrev Out (C T : Type) := Lane C T × Option Fault

/-- End of a section of `acquire` in thread `t`. -/
def finish (s : Lane C T) (t : T) (r : ClientLock T × Next) : Out C T :=
  ((s.setLock (N.owner t) r.1).setPc t r.2.pc, r.2.fault)

/-- End of `release` in thread `t`. -/
def finishRelease (s : Lane C T) (t : T) (r : Option (ClientLock T × Option T)) : Out C T :=
  match r with
  | none => (s, some .frontOfEmpty)
  | some (l, w) => (((s.setLock (N.owner t) l).setPc t .out).signal w, none)

/-- One step of a release call made by client `c` in the chain of thread `t`.  `k` puts the new
position of the call back into the thread's program counter. -/
def relStep (s : Lane C T) (t : T) (c : C) (k : Rel → PC C) : Rel → Option (Out C T)
  | .request =>
    match ServerLock.release s.server (N.id c) with
    | .error f => some (s, some f)
    | .ok none => some (s.setPc t (k (.reply .noEnt)), none)
    | .ok (some l) => some ((s.setServer l).setPc t (k .unlocked), none)
  | .unlocked => some (s.setPc t (k (.retry (s.server.getD {}).retryer)), none)
  | .retry cid =>
    match N.clientAt cid with
    | none => some (s.setPc t (k .retried), none)
    | some c' =>
      match (s.lockOf c').retryHandler with
      | none => some (s, some .frontOfEmpty)
      | some (l, w) => some (((s.setLock c' l).setPc t (k .retried)).signal (some w), none)
  | .retried => some (s.setPc t (k (.reply .ok)), none)
  | .reply _ => none

/-- One step of an acquire call of thread `t`. -/
def acqStep (s : Lane C T) (t : T) : Acq C → Option (Out C T)
  | .request =>
    match ServerLock.acquire s.server (N.id (N.owner t)) with
    | .error f => some (s, some f)
    | .ok (l, ret, needRevoke) =>
      some ((s.setServer l).setPc t
        (.acquire (if needRevoke then .unlocked ret else .reply ret)), none)
  | .unlocked ret => some (s.setPc t (.acquire (.revoke ret (s.server.getD {}).holder)), none)
  | .revoke ret cid =>
    match N.clientAt cid with
    | none => some (s.setPc t (.acquire (.revoked ret)), none)
    | some c =>
      let (l, needRelease) := (s.lockOf c).revokeHandler
      some ((s.setLock c l).setPc t
        (.acquire (if needRelease then .releasing ret c .request else .revoked ret)), none)
  | .releasing ret c (.reply _) =>
    let (l, w) := (s.lockOf c).revokeReply
    some (((s.setLock c l).setPc t (.acquire (.revoked ret))).signal w, none)
  | .releasing ret c r => s.relStep N t c (fun r ↦ .acquire (.releasing ret c r)) r
  | .revoked ret => some (s.setPc t (.acquire (.reply ret)), none)
  | .reply ret => some (s.finish N t ((s.lockOf (N.owner t)).acquireServerReply ret))

/-- The next step of thread `t` as far as this lock is concerned; `none` if it is blocked.  A thread
outside any call takes the step of calling `acquire` or `release`. -/
def step (s : Lane C T) (t : T) : Option (Out C T) :=
  let lock := s.lockOf (N.owner t)
  match s.pc t with
  | .out => some (s.finish N t (lock.acquire t))
  | .held =>
    match s.client (N.owner t) with
    | none => some (s.setPc t .out, none)
    | some lock =>
      if lock.revokeLater then
        some ((s.setLock (N.owner t) lock.releaseRevoked).setPc t (.release .request), none)
      else some (s.finishRelease N t lock.releaseKept)
  | .waitEmpty true => some (s.finish N t lock.acquireServer)
  | .waitQueue true => some (s.finish N t lock.acquireWoken)
  | .waitRetry true => some (s.finish N t lock.acquireServerRetried)
  | .waitEmpty false | .waitQueue false | .waitRetry false => none
  | .acquire a => s.acqStep N t a
  | .release (.reply _) => some (s.finishRelease N t lock.releaseReply)
  | .release r => s.relStep N t (N.owner t) .release r

end Lane

/-! ## The whole service -/

/-- Is the thread inside `acquire` or `release`? -/
def PC.inCall {C : Type} : PC C → Bool
  | .out | .held => false
  | _ => true

/-- The state of the service. -/
structure State (C T : Type) where
  /-- The part that concerns each lock id. -/
  lane : Lid → Lane C T := fun _ ↦ {}
  /-- The lock id of the call a thread is inside of. -/
  busy : T → Option Lid := fun _ ↦ none
  /-- Processes that are down, or whose mutex nobody will ever unlock. -/
  fault : Place C → Option Fault := fun _ ↦ none

variable {C T : Type} [DecidableEq C] [DecidableEq T] (N : Cluster C T)

/-- One step of the service: thread `t` moves on with lock `lid`.  A thread is inside one call at a
time, though it may hold any number of locks, and a process that is down takes no steps. -/
def step (s : State C T) (a : T × Lid) : Option (State C T) :=
  let (t, lid) := a
  let p := ((s.lane lid).pc t).place N t
  if (s.busy t = none ∨ s.busy t = some lid) ∧ s.fault p = none then
    ((s.lane lid).step N t).map fun (l, f) ↦
      { lane := Function.update s.lane lid l
        busy := Function.update s.busy t (if (l.pc t).inCall then some lid else none)
        fault := if f.isSome then Function.update s.fault p f else s.fault }
  else none

/-- The states that the service can reach. -/
def Reachable (s : State C T) : Prop :=
  ∃ run : List (T × Lid), run.foldlM (step N) {} = some s

end Lock
end Yfs
