import Mathlib.Data.Finset.Max
import Mathlib.Data.String.Basic

/-!
# The caching lock server

`lock_server_cache` keeps one `lock_t` per lock id: who holds the lock, who has been told to retry,
and which clients are waiting.  A request is served in one critical section of the server's mutex,
and `ServerLock.acquire` and `ServerLock.release` are those two sections.  What the handlers do
*after* they drop the mutex — the revoke and retry callbacks — is not here: it happens at another
time, and `Yfs.Lock.System` gives it steps of its own.

Both sections contain `VERIFY`s, and a `VERIFY` that fails aborts the server for everybody.  So they
return an `Except Fault`: the error is the process going down, not a status sent to a client.
-/

set_option autoImplicit false

namespace Yfs
namespace Lock

/-- `lock_protocol::xxstatus`. -/
inductive Status where
  | ok | retry | rpcErr | noEnt | ioErr
  deriving DecidableEq, Repr

/-- Ways for a process of the lock service to stop making sense. -/
inductive Fault where
  /-- A `VERIFY` was evaluated and was false. -/
  | verify
  /-- `*begin()` of an empty `std::set`. -/
  | beginOfEmpty
  /-- `front()` or `pop()` of an empty `std::queue`. -/
  | frontOfEmpty
  /-- A call returned to its caller without unlocking the client's mutex. -/
  | mutexKept
  deriving DecidableEq, Repr

/-- The anonymous `state` enumeration of `lock_server_cache::lock_t`. -/
inductive ServerState where
  | free | locked | revoking | retrying
  deriving DecidableEq, Repr

/-- `lock_server_cache::lock_t`.  The ids are the clients' `host:port` strings, and the empty string
stands for nobody. -/
structure ServerLock where
  /-- The client that owns the lock. -/
  holder : String := ""
  /-- The client that has been told to ask again. -/
  retryer : String := ""
  /-- The clients that were answered `RETRY` and have not been told to ask again. -/
  waiter : Finset String := ∅
  /-- Where the lock is in its life. -/
  state : ServerState := .free
  deriving DecidableEq

/-- `*waiter.begin()`: a `std::set` is iterated in increasing order. -/
def begin? (w : Finset String) : Option String :=
  if h : w.Nonempty then some (w.min' h) else none

theorem begin?_mem {w : Finset String} {s : String} (h : begin? w = some s) : s ∈ w := by
  rw [begin?] at h
  split at h
  · rename_i hw
    rw [Option.some_inj] at h
    exact h ▸ w.min'_mem hw
  · exact absurd h (by simp)

theorem begin?_isSome {w : Finset String} (h : w.Nonempty) : ∃ s, begin? w = some s :=
  ⟨w.min' h, by rw [begin?, dif_pos h]⟩

namespace ServerLock

/-- `VERIFY(!(lock.holder.empty() || id.empty() || lock.holder == id))`. -/
def otherHolder (lock : ServerLock) (id : String) : Bool :=
  !(lock.holder.isEmpty || id.isEmpty || lock.holder == id)

/-- The critical section of `lock_server_cache::acquire`.  Besides the lock it returns the status
for the client and `need_revoke`. -/
def acquire (entry : Option ServerLock) (id : String) :
    Except Fault (ServerLock × Status × Bool) :=
  let lock := entry.getD {}
  match lock.state with
  | .free =>
    if lock.waiter = ∅ then .ok ({ lock with state := .locked, holder := id }, .ok, false)
    else .error .verify
  | .locked =>
    if lock.waiter = ∅ ∧ lock.otherHolder id then
      .ok ({ lock with state := .revoking, waiter := insert id lock.waiter }, .retry, true)
    else .error .verify
  | .revoking =>
    if lock.waiter ≠ ∅ ∧ lock.otherHolder id then
      .ok ({ lock with waiter := insert id lock.waiter }, .retry, false)
    else .error .verify
  | .retrying =>
    if lock.retryer = id then
      let lock := { lock with retryer := "", holder := id }
      if lock.waiter ≠ ∅ then .ok ({ lock with state := .revoking }, .ok, true)
      else .ok ({ lock with state := .locked }, .ok, false)
    else .ok ({ lock with waiter := insert id lock.waiter }, .retry, false)

/-- The critical section of `lock_server_cache::release`.  A lock the server has never heard of is
answered `NOENT`, and no retry is sent for it: that is the `none`. -/
def release (entry : Option ServerLock) (id : String) : Except Fault (Option ServerLock) :=
  match entry with
  | none => .ok none
  | some lock =>
    if lock.state = .revoking ∧ id = lock.holder then
      match begin? lock.waiter with
      | none => .error .beginOfEmpty
      | some w =>
        .ok (some { lock with
          state := .retrying, retryer := w, waiter := lock.waiter.erase w, holder := "" })
    else .error .verify

/-- An acquire meets the server in one of its four states.  Only a free lock and a lock that is
waiting for this very client can be granted. -/
theorem acquire_cases {sl l : ServerLock} {id : String} {ret : Status} {need : Bool}
    (h : acquire (some sl) id = .ok (l, ret, need)) :
    (sl.state = .free ∧ sl.waiter = ∅ ∧ ret = .ok ∧ need = false ∧
      l = { sl with state := .locked, holder := id }) ∨
    (sl.state = .locked ∧ sl.waiter = ∅ ∧ sl.otherHolder id = true ∧ ret = .retry ∧ need = true ∧
      l = { sl with state := .revoking, waiter := insert id sl.waiter }) ∨
    (sl.state = .revoking ∧ sl.waiter ≠ ∅ ∧ sl.otherHolder id = true ∧ ret = .retry ∧
      need = false ∧ l = { sl with waiter := insert id sl.waiter }) ∨
    (sl.state = .retrying ∧ sl.retryer = id ∧ ret = .ok ∧ need = decide (sl.waiter ≠ ∅) ∧
      l = { sl with state := if sl.waiter ≠ ∅ then .revoking else .locked,
                    retryer := "", holder := id }) ∨
    (sl.state = .retrying ∧ sl.retryer ≠ id ∧ ret = .retry ∧ need = false ∧
      l = { sl with waiter := insert id sl.waiter }) := by
  simp only [acquire, Option.getD_some] at h
  cases hs : sl.state with
  | free =>
    simp only [hs] at h
    split at h
    · rename_i hw
      simp only [Except.ok.injEq, Prod.mk.injEq] at h
      obtain ⟨rfl, rfl, rfl⟩ := h
      exact Or.inl ⟨rfl, hw, rfl, rfl, rfl⟩
    · simp at h
  | locked =>
    simp only [hs] at h
    split at h
    · rename_i hw
      simp only [Except.ok.injEq, Prod.mk.injEq] at h
      obtain ⟨rfl, rfl, rfl⟩ := h
      exact Or.inr (Or.inl ⟨rfl, hw.1, hw.2, rfl, rfl, rfl⟩)
    · simp at h
  | revoking =>
    simp only [hs] at h
    split at h
    · rename_i hw
      simp only [Except.ok.injEq, Prod.mk.injEq] at h
      obtain ⟨rfl, rfl, rfl⟩ := h
      exact Or.inr (Or.inr (Or.inl ⟨rfl, hw.1, hw.2, rfl, rfl, by rw [← hs]⟩))
    · simp at h
  | retrying =>
    simp only [hs] at h
    split at h
    · rename_i hid
      split at h
      · rename_i hw
        simp only [Except.ok.injEq, Prod.mk.injEq] at h
        obtain ⟨rfl, rfl, rfl⟩ := h
        exact Or.inr (Or.inr (Or.inr (Or.inl ⟨rfl, hid, rfl, by simpa using hw, by simp [hw]⟩)))
      · rename_i hw
        simp only [Except.ok.injEq, Prod.mk.injEq] at h
        obtain ⟨rfl, rfl, rfl⟩ := h
        exact Or.inr (Or.inr (Or.inr (Or.inl ⟨rfl, hid, rfl, by simpa using hw, by simp [hw]⟩)))
    · rename_i hid
      simp only [Except.ok.injEq, Prod.mk.injEq] at h
      obtain ⟨rfl, rfl, rfl⟩ := h
      exact Or.inr (Or.inr (Or.inr (Or.inr ⟨rfl, hid, rfl, rfl, by rw [← hs]⟩)))

/-- The server goes down on an acquire in one way only. -/
theorem acquire_error {e : Option ServerLock} {id : String} {f : Fault}
    (h : acquire e id = .error f) : f = .verify := by
  simp only [acquire] at h
  cases hs : (e.getD {}).state with
  | free => simp only [hs] at h; split at h <;> simp_all
  | locked => simp only [hs] at h; split at h <;> simp_all
  | revoking => simp only [hs] at h; split at h <;> simp_all
  | retrying => simp only [hs] at h; split at h <;> [split at h; skip] <;> simp at h

end ServerLock

end Lock
end Yfs
