import Yfs.Lock.Server

/-!
# The caching lock client

A `lock_client_cache` keeps, for every lock id it has met, the state of its own copy of the lock,
two flags that remember a message which arrived too early, and the queue of the threads that want
the lock.  The thread at the front of the queue is the one that holds the lock, or is busy getting
it or giving it back.

Every method is a sequence of critical sections of the client's mutex with an RPC or a condition
wait between two of them, and each definition below is one such section.  What a thread does when
the section is over is its `Next`.

`acquire` allocates a fresh `cond_t` on every call and queues a pointer to it.  A thread is inside
at most one `acquire` of a given lock, so the queue is modelled as the list of the *threads* whose
condition it holds.
-/

set_option autoImplicit false

namespace Yfs
namespace Lock

/-- The anonymous `state` enumeration of `lock_client_cache::lock_t`. -/
inductive ClientState where
  | none | acquiring | free | releasing | locked
  deriving DecidableEq, Repr

/-- `lock_client_cache::lock_t`. -/
structure ClientLock (T : Type) where
  /-- A revoke arrived while the lock could not be given back. -/
  revokeLater : Bool := false
  /-- A retry arrived, perhaps before the `RETRY` it refers to. -/
  retryEarlier : Bool := false
  /-- Where the client's copy of the lock is in its life. -/
  state : ClientState := .none
  /-- The threads that hold or want the lock, in order of arrival. -/
  queue : List T := []

/-- What a thread goes on to after a critical section of `acquire` or `acquire_server`. -/
inductive Next where
  /-- It has unlocked the mutex and calls `lock_protocol::acquire`. -/
  | call
  /-- It waits because another thread of the client is giving the lock back. -/
  | waitEmpty
  /-- It waits for its turn in the queue. -/
  | waitQueue
  /-- It waits for a retry. -/
  | waitRetry
  /-- It has unlocked the mutex and returns to its caller. -/
  | ret
  /-- It returns to its caller with the mutex still locked. -/
  | retLocked
  deriving DecidableEq, Repr

namespace ClientLock

variable {T : Type}

/-- The head of `acquire_server`, down to its first RPC. -/
def acquireServer (lock : ClientLock T) : ClientLock T × Next :=
  ({ lock with state := .acquiring }, .call)

/-- The test of the `while` of `acquire_server`.  When it fails the function returns 0 without
having unlocked. -/
def acquireServerLoop (lock : ClientLock T) : ClientLock T × Next :=
  if lock.state = .acquiring then (lock, .call) else (lock, .retLocked)

/-- `acquire_server` once the thread has waited for a retry, or has found that it need not. -/
def acquireServerRetried (lock : ClientLock T) : ClientLock T × Next :=
  acquireServerLoop { lock with retryEarlier := false }

/-- `acquire_server` when its RPC has returned. -/
def acquireServerReply (lock : ClientLock T) (ret : Status) : ClientLock T × Next :=
  match ret with
  | .ok => ({ lock with state := .locked }, .ret)
  | .retry => if lock.retryEarlier then acquireServerRetried lock else (lock, .waitRetry)
  | _ => acquireServerLoop lock

/-- The first section of `acquire`. -/
def acquire (lock : ClientLock T) (t : T) : ClientLock T × Next :=
  if lock.queue.isEmpty then
    let lock := { lock with queue := lock.queue ++ [t] }
    match lock.state with
    | .none => acquireServer lock
    | .free => ({ lock with state := .locked }, .ret)
    | _ => (lock, .waitEmpty)
  else ({ lock with queue := lock.queue ++ [t] }, .waitQueue)

/-- The rest of `acquire` for a thread that found the queue occupied and has been woken. -/
def acquireWoken (lock : ClientLock T) : ClientLock T × Next :=
  match lock.state with
  | .none => acquireServer lock
  | .free => ({ lock with state := .locked }, .ret)
  | .locked => (lock, .ret)
  | _ => (lock, .retLocked)

/-- The end of `release`, from the comment "dequeue waiter" on.  Also returns the thread whose
condition is signalled; `none` stands for `front()` of an empty queue. -/
def releaseTail (lock : ClientLock T) : Option (ClientLock T × Option T) :=
  match lock.queue with
  | [] => none
  | _ :: [] => some ({ lock with queue := [], revokeLater := false }, none)
  | _ :: t :: rest =>
    let state := if lock.revokeLater then lock.state else .locked
    some ({ lock with queue := t :: rest, state := state, revokeLater := false }, some t)

/-- The first section of `release` when the lock has been asked back: the lock is on its way to the
server. -/
def releaseRevoked (lock : ClientLock T) : ClientLock T :=
  { lock with state := .releasing }

/-- The first section of `release` when nobody has asked for the lock. -/
def releaseKept (lock : ClientLock T) : Option (ClientLock T × Option T) :=
  releaseTail { lock with state := .free }

/-- The second section of `release`, after the RPC. -/
def releaseReply (lock : ClientLock T) : Option (ClientLock T × Option T) :=
  releaseTail { lock with state := .none }

/-- The first section of `revoke_handler`, and whether it goes on to call the server. -/
def revokeHandler (lock : ClientLock T) : ClientLock T × Bool :=
  if lock.state = .free then ({ lock with state := .releasing }, true)
  else ({ lock with revokeLater := true }, false)

/-- The second section of `revoke_handler`, after the RPC, and the thread it signals. -/
def revokeReply (lock : ClientLock T) : ClientLock T × Option T :=
  ({ lock with state := .none }, lock.queue.head?)

/-- `retry_handler`, and the thread it signals. -/
def retryHandler (lock : ClientLock T) : Option (ClientLock T × T) :=
  match lock.queue with
  | [] => none
  | t :: _ => some ({ lock with retryEarlier := true }, t)

end ClientLock

end Lock
end Yfs
