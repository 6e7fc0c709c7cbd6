import Yfs.Lock.Client

/-!
# Requests that are sent again

`acquire_server` treats every result of its RPC that is neither `OK` nor `RETRY` in one way: it
makes the call again (`acquireServerReply_of_failed`).  One such result is the time-out of
`rpcc::call1`, and the server may have processed the request all the same.  The RPC library does not
recognise the second call as a repetition of the first, since it has a number of its own.  So the
server sees the request twice.

A client that was told to wait can be told so as often as it likes (`acquire_again`).  A client that
was given the lock cannot ask for it again: the server takes it for granted that the holder of a
lock does not, and goes down.  The two cases are told apart by what the server knew before the first
request (`absorbed_iff`).
-/

set_option autoImplicit false

namespace Yfs
namespace Lock

/-- After a failed call `acquire_server` calls again, unless another thread has taken the lock out
of its hands. -/
theorem ClientLock.acquireServerReply_of_failed {T : Type} {lock : ClientLock T} {ret : Status}
    (hok : ret ≠ .ok) (hretry : ret ≠ .retry) (hstate : lock.state = .acquiring) :
    lock.acquireServerReply ret = (lock, .call) := by
  cases ret <;> simp_all [acquireServerReply, acquireServerLoop]

namespace ServerLock

/-- The server gives the lock to whoever asks first, or to the client it has told to ask again. -/
def grants (lock : ServerLock) (id : String) : Bool :=
  (lock.state = .free ∧ lock.waiter = ∅) ∨ (lock.state = .retrying ∧ lock.retryer = id)

/-- A lock that is granted is granted without further ado. -/
theorem acquire_of_grants {entry : Option ServerLock} {id : String}
    (h : (entry.getD {}).grants id = true) :
    ∃ l need, acquire entry id = .ok (l, .ok, need) := by
  rw [grants, decide_eq_true_eq] at h
  rcases h with ⟨hstate, hwaiter⟩ | ⟨hstate, hretryer⟩
  · simp only [acquire, hstate, if_pos hwaiter]
    exact ⟨_, _, rfl⟩
  · simp only [acquire, hstate, if_pos hretryer]
    split <;> exact ⟨_, _, rfl⟩

/-- The holder of a lock does not ask for it. -/
theorem acquire_holder {lock : ServerLock} {id : String}
    (hstate : lock.state = .locked ∨ lock.state = .revoking) (hholder : lock.holder = id) :
    acquire (some lock) id = .error .verify := by
  have hother : lock.otherHolder id = false := by simp [otherHolder, hholder]
  rcases hstate with hstate | hstate
  · simp [acquire, hstate, hother]
  · simp [acquire, hstate, hother]

/-- A client that waits for the lock to be given back is told to wait. -/
theorem acquire_waiting {lock : ServerLock} {id : String} (hstate : lock.state = .revoking)
    (hid : id ∈ lock.waiter) (hother : lock.otherHolder id = true) :
    acquire (some lock) id = .ok (lock, .retry, false) := by
  have hne : lock.waiter ≠ ∅ := Finset.ne_empty_of_mem hid
  simp only [acquire, Option.getD_some, hstate, if_pos (And.intro hne hother),
    Finset.insert_eq_of_mem hid]
  rw [← hstate]

/-- **The same request once more.**  The client has been given the lock, and now the server goes
down; or it has been told to wait, and now it is told so again and nothing changes. -/
theorem acquire_again {entry : Option ServerLock} {l : ServerLock} {id : String} {ret : Status}
    {need : Bool} (h : acquire entry id = .ok (l, ret, need)) :
    ((entry.getD {}).grants id = true ∧ ret = .ok ∧ acquire (some l) id = .error .verify) ∨
    ((entry.getD {}).grants id = false ∧ ret = .retry ∧
      acquire (some l) id = .ok (l, .retry, false)) := by
  have hsome : acquire (some (entry.getD {})) id = .ok (l, ret, need) := h
  generalize entry.getD {} = sl at hsome ⊢
  rcases acquire_cases hsome with ⟨hs, hw, rfl, -, rfl⟩ | ⟨hs, hw, hother, rfl, -, rfl⟩ |
    ⟨hs, hw, hother, rfl, -, rfl⟩ | ⟨hs, hr, rfl, -, rfl⟩ | ⟨hs, hr, rfl, -, rfl⟩
  · exact Or.inl ⟨by simp [grants, hs, hw], rfl, acquire_holder (Or.inl rfl) rfl⟩
  · exact Or.inr ⟨by simp [grants, hs], rfl,
      acquire_waiting rfl (Finset.mem_insert_self ..) hother⟩
  · exact Or.inr ⟨by simp [grants, hs], rfl,
      acquire_waiting hs (Finset.mem_insert_self ..) hother⟩
  · refine Or.inl ⟨by simp [grants, hs, hr], rfl, acquire_holder ?_ rfl⟩
    dsimp only
    split
    · exact Or.inr rfl
    · exact Or.inl rfl
  · exact Or.inr ⟨by simp [grants, hs, hr], rfl, by simp [acquire, hs, hr]⟩

/-- A request that has been processed can be processed again right away: no `VERIFY` fails, the lock
stays with whoever has it, and a client that was given the lock is told so once more. -/
def Absorbed (entry : Option ServerLock) (id : String) : Prop :=
  ∀ l ret need, acquire entry id = .ok (l, ret, need) →
    ∃ l' ret' need', acquire (some l) id = .ok (l', ret', need') ∧ l'.holder = l.holder ∧
      (ret = .ok → ret' = .ok)

/-- **An acquire can be repeated if and only if it does not get the lock.** -/
theorem absorbed_iff (entry : Option ServerLock) (id : String) :
    Absorbed entry id ↔ (entry.getD {}).grants id = false := by
  constructor
  · intro habsorbed
    by_contra hgrants
    rw [Bool.not_eq_false] at hgrants
    obtain ⟨l, need, h⟩ := acquire_of_grants hgrants
    obtain ⟨l', ret', need', hagain, -⟩ := habsorbed l .ok need h
    rcases acquire_again h with ⟨-, -, herror⟩ | ⟨hfalse, -⟩
    · exact absurd (hagain.symm.trans herror) (by simp)
    · exact absurd hgrants (by simp [hfalse])
  · intro hgrants l ret need h
    rcases acquire_again h with ⟨htrue, -⟩ | ⟨-, rfl, hagain⟩
    · exact absurd hgrants (by simp [htrue])
    · exact ⟨l, .retry, false, hagain, rfl, fun hok ↦ absurd hok (by simp)⟩

/-- The first acquire of a lock takes the server down if its reply is lost. -/
theorem lost_grant : ¬ Absorbed none "a" := by
  intro h
  obtain ⟨l', ret', need', hagain, -⟩ := h { state := .locked, holder := "a" } .ok false rfl
  rw [acquire_holder (Or.inl rfl) rfl] at hagain
  exact absurd hagain (by simp)

end ServerLock

end Lock
end Yfs
