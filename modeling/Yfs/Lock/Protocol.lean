import Yfs.Lock.System

/-!
# The protocol without its threads

What the server needs to know about a client is much less than what is in the client: is it asking,
has it been told to wait, does it have the lock, is it giving it back.  `Mode` is that much, and an
`Abs` state is the server's lock, the mode of every client, and the two kinds of message whose
delivery everybody depends on — the revoke and the retry that have been decided but not delivered.
Queues, condition variables and the shapes of the call chains are gone.

`Abs.Step` lists what can happen, and `Abs.Inv` is the invariant that ties the server's view of the
clients to the clients' own.  The two `VERIFY` lemmas at the end are what that invariant is for: a
server in such a state never meets a request it considers impossible.
-/

set_option autoImplicit false

namespace Yfs
namespace Lock

/-- What a client is to the server, for one lock.  The flag says whether the message that is meant
for a client in this mode — a retry for a parked one, a revoke for an owner — has reached it.  A
lock on its way back remembers the thread whose call chain carries it. -/
inductive Mode (T : Type) where
  /-- The client has nothing to do with the lock. -/
  | idle
  /-- Its acquire has not been looked at yet. -/
  | asking
  /-- Its acquire was answered `RETRY`. -/
  | parked (told : Bool)
  /-- Its acquire was answered `OK`, and it does not know yet. -/
  | granted (told : Bool)
  /-- It owns the lock and one of its threads has it. -/
  | locked (told : Bool)
  /-- It owns the lock and keeps it for later. -/
  | free
  /-- Its release has not been looked at yet. -/
  | relReq (t : T)
  /-- Its release has been served, and it does not know yet. -/
  | relDone (t : T)

namespace Mode

variable {T : Type}

/-- Does the lock belong to a client in this mode? -/
@[grind] def owns : Mode T → Bool
  | .granted _ | .locked _ | .free | .relReq _ => true
  | _ => false

/-- Does a client in this mode know that the lock is wanted back? -/
@[grind] def told : Mode T → Bool
  | .granted b | .locked b => b
  | .relReq _ => true
  | _ => false

/-- Is a client in this mode giving the lock back? -/
@[grind] def releasing : Mode T → Bool
  | .relReq _ | .relDone _ => true
  | _ => false

theorem owns_of_told {m : Mode T} (h : m.told = true) : m.owns = true := by
  cases m <;> simp_all [told, owns]

end Mode

/-- The protocol state for one lock. -/
structure Abs (C T : Type) where
  /-- The server's lock. -/
  server : ServerLock := {}
  /-- The mode of each client. -/
  mode : C → Mode T := fun _ ↦ .idle
  /-- The chain that owes the holder a revoke. -/
  revoke : Option T := none
  /-- The chain that owes the retryer a retry. -/
  retry : Option T := none

namespace Abs

variable {C T : Type} [DecidableEq C]

/-- Change the mode of one client. -/
def setMode (a : Abs C T) (c : C) (m : Mode T) : Abs C T :=
  { a with mode := Function.update a.mode c m }

@[simp, grind =] theorem setMode_server (a : Abs C T) (c : C) (m : Mode T) :
    (a.setMode c m).server = a.server := rfl

@[simp, grind =] theorem setMode_revoke (a : Abs C T) (c : C) (m : Mode T) :
    (a.setMode c m).revoke = a.revoke := rfl

@[simp, grind =] theorem setMode_retry (a : Abs C T) (c : C) (m : Mode T) :
    (a.setMode c m).retry = a.retry := rfl

@[simp] theorem setMode_self (a : Abs C T) (c : C) (m : Mode T) :
    (a.setMode c m).mode c = m := by simp [setMode]

@[grind =] theorem setMode_mode (a : Abs C T) (c c' : C) (m : Mode T) :
    (a.setMode c m).mode c' = if c' = c then m else a.mode c' := by
  simp [setMode, Function.update_apply]

/-- What can happen to one lock, as far as the server and the clients' modes are concerned. -/
inductive Step (N : Cluster C T) (a : Abs C T) : Abs C T → Prop
  /-- A thread of an idle client sends an acquire. -/
  | ask {c : C} (h : a.mode c = .idle) : Step N a (a.setMode c .asking)
  /-- The server grants an acquire. -/
  | grant {c : C} (t : T) {l : ServerLock} {need : Bool} (h : a.mode c = .asking)
      (hl : ServerLock.acquire (some a.server) (N.id c) = .ok (l, .ok, need)) :
      Step N a { a.setMode c (.granted false) with
        server := l, revoke := if need then some t else a.revoke }
  /-- The server turns an acquire away. -/
  | park {c : C} (t : T) {l : ServerLock} {need : Bool} (h : a.mode c = .asking)
      (hl : ServerLock.acquire (some a.server) (N.id c) = .ok (l, .retry, need)) :
      Step N a { a.setMode c (.parked false) with
        server := l, revoke := if need then some t else a.revoke }
  /-- The `OK` arrives. -/
  | enter {c : C} {b : Bool} (h : a.mode c = .granted b) : Step N a (a.setMode c (.locked b))
  /-- A thread takes the lock out of the client's cache. -/
  | take {c : C} (h : a.mode c = .free) : Step N a (a.setMode c (.locked false))
  /-- A thread puts the lock into the client's cache. -/
  | keep {c : C} (h : a.mode c = .locked false) : Step N a (a.setMode c .free)
  /-- A revoke arrives at a client that cannot give the lock back yet. -/
  | note {c : C} {m m' : Mode T} (hr : a.revoke ≠ none) (hh : a.server.holder = N.id c)
      (h : a.mode c = m)
      (hm : (m = .granted false ∧ m' = .granted true) ∨ (m = .locked false ∧ m' = .locked true)) :
      Step N a { a.setMode c m' with revoke := none }
  /-- A revoke arrives at a client that has the lock in its cache. -/
  | giveUp {c : C} (t : T) (hr : a.revoke ≠ none) (hh : a.server.holder = N.id c)
      (h : a.mode c = .free) : Step N a { a.setMode c (.relReq t) with revoke := none }
  /-- A thread is done with a lock that is wanted back. -/
  | giveBack {c : C} (t : T) (h : a.mode c = .locked true) : Step N a (a.setMode c (.relReq t))
  /-- The server serves a release. -/
  | release {c : C} {t : T} {l : ServerLock} (h : a.mode c = .relReq t)
      (hl : ServerLock.release (some a.server) (N.id c) = .ok (some l)) :
      Step N a { a.setMode c (.relDone t) with server := l, retry := some t }
  /-- A retry arrives. -/
  | wake {c : C} (hr : a.retry ≠ none) (hh : a.server.retryer = N.id c)
      (h : a.mode c = .parked false) : Step N a { a.setMode c (.parked true) with retry := none }
  /-- A client that was told to retry asks again. -/
  | reask {c : C} (h : a.mode c = .parked true) : Step N a (a.setMode c .asking)
  /-- The reply to a release arrives. -/
  | done {c : C} {t : T} (h : a.mode c = .relDone t) : Step N a (a.setMode c .idle)

/-- **The protocol invariant.**  Ownership is what the server thinks it is, a lock is wanted back
exactly when somebody is waiting for it, and each decision to call a client back is in one place: in
flight, or known to the client. -/
structure Inv (N : Cluster C T) (a : Abs C T) : Prop where
  /-- Whoever owns the lock is the recorded holder. -/
  owner : ∀ c, (a.mode c).owns = true →
    (a.server.state = .locked ∨ a.server.state = .revoking) ∧ a.server.holder = N.id c
  /-- The recorded holder owns the lock. -/
  holder : a.server.state = .locked ∨ a.server.state = .revoking →
    ∃ c, a.server.holder = N.id c ∧ (a.mode c).owns = true
  /-- An owner that knows of the revoke has been sent it. -/
  told : ∀ c, (a.mode c).told = true → a.server.state = .revoking ∧ a.revoke = none
  /-- A lock that is wanted back has its revoke in flight or delivered. -/
  revoking : a.server.state = .revoking → a.revoke ≠ none ∨ ∃ c, (a.mode c).told = true
  /-- Revokes are sent only for locks that are wanted back. -/
  revoke : a.revoke ≠ none → a.server.state = .revoking
  /-- The waiter set holds clients that are parked and have not been called. -/
  waiter : ∀ w ∈ a.server.waiter, ∃ c, w = N.id c ∧ a.mode c = .parked false
  /-- A parked client is a waiter, or its retry is in flight. -/
  parked : ∀ c, a.mode c = .parked false → N.id c ∈ a.server.waiter ∨
    (a.server.state = .retrying ∧ a.server.retryer = N.id c ∧ a.retry ≠ none)
  /-- A parked client that has been called is the retryer. -/
  called : ∀ c, a.mode c = .parked true →
    a.server.state = .retrying ∧ a.server.retryer = N.id c ∧ a.retry = none
  /-- The retryer has not asked again, or its new acquire has not been looked at. -/
  retrying : a.server.state = .retrying → ∃ c, a.server.retryer = N.id c ∧
    N.id c ∉ a.server.waiter ∧ (a.retry ≠ none ∧ a.mode c = .parked false ∨
      a.retry = none ∧ (a.mode c = .parked true ∨ a.mode c = .asking))
  /-- Retries are sent only to a retryer. -/
  retry : a.retry ≠ none → a.server.state = .retrying
  /-- Nobody waits for a lock that is free or undisputed. -/
  noWaiter : a.server.state = .free ∨ a.server.state = .locked → a.server.waiter = ∅
  /-- Somebody waits for a lock that is wanted back. -/
  someWaiter : a.server.state = .revoking → a.server.waiter ≠ ∅

omit [DecidableEq C] in
theorem inv_init (N : Cluster C T) : Inv N ({} : Abs C T) := by
  constructor <;> simp [Mode.owns, Mode.told]

/-! ## The invariant is kept

Six of the thirteen steps change nothing the invariant can see: the client owns the lock afterwards
if it did before, knows what it knew, and is neither parked nor about to answer a retry. -/

variable {N : Cluster C T} {a : Abs C T} {c : C}

theorem Inv.setMode_of_same (h : Inv N a) {m : Mode T} (howns : m.owns = (a.mode c).owns)
    (htold : m.told = (a.mode c).told) (hold : ∀ b, a.mode c ≠ .parked b)
    (hask : a.mode c ≠ .asking) (hnew : ∀ b, m ≠ .parked b) : Inv N (a.setMode c m) where
  owner c' := by
    rw [setMode_mode]
    split
    · rename_i e; subst e; rw [howns]; exact h.owner c'
    · exact h.owner c'
  holder hs := by
    obtain ⟨d, hd, ho⟩ := h.holder hs
    refine ⟨d, hd, ?_⟩
    rw [setMode_mode]
    split
    · rename_i e; rwa [howns, ← e]
    · exact ho
  told c' := by
    rw [setMode_mode]
    split
    · rename_i e; subst e; rw [htold]; exact h.told c'
    · exact h.told c'
  revoking hs := by
    refine (h.revoking hs).imp_right ?_
    rintro ⟨d, hd⟩
    refine ⟨d, ?_⟩
    rw [setMode_mode]
    split
    · rename_i e; rwa [htold, ← e]
    · exact hd
  revoke := h.revoke
  waiter w hw := by
    obtain ⟨d, hd, hp⟩ := h.waiter w hw
    have e : d ≠ c := by rintro rfl; exact hold _ hp
    exact ⟨d, hd, by rw [setMode_mode, if_neg e, hp]⟩
  parked c' hc' := by
    rw [setMode_mode] at hc'
    split at hc'
    · exact absurd hc' (hnew _)
    · exact h.parked c' hc'
  called c' hc' := by
    rw [setMode_mode] at hc'
    split at hc'
    · exact absurd hc' (hnew _)
    · exact h.called c' hc'
  retrying hs := by
    obtain ⟨d, hd, hw, hm⟩ := h.retrying hs
    have e : d ≠ c := by
      rintro rfl
      rcases hm with ⟨-, hm⟩ | ⟨-, hm | hm⟩
      · exact hold _ hm
      · exact hold _ hm
      · exact hask hm
    exact ⟨d, hd, hw, by rw [setMode_mode, if_neg e]; exact hm⟩
  retry := h.retry
  noWaiter := h.noWaiter
  someWaiter := h.someWaiter

/-- A revoke has reached the holder: the debt moves from the message to the client's mode. -/
theorem Inv.delivered (h : Inv N a) (hr : a.revoke ≠ none) (hh : a.server.holder = N.id c)
    {m : Mode T} (howns : m.owns = true) (htold : m.told = true) (hold : (a.mode c).owns = true)
    (hnew : ∀ b, m ≠ .parked b) : Inv N { a.setMode c m with revoke := none } where
  owner c' hc' := by
    by_cases e : c' = c
    · subst e; exact h.owner c' hold
    · exact h.owner c' (by simpa [setMode_mode, e] using hc')
  holder _ := ⟨c, hh, by simpa using howns⟩
  told c' hc' := by
    refine ⟨h.revoke hr, rfl⟩
  revoking _ := Or.inr ⟨c, by simpa using htold⟩
  revoke hn := absurd rfl hn
  waiter w hw := by
    obtain ⟨d, hd, hp⟩ := h.waiter w hw
    have e : d ≠ c := by rintro rfl; simp [hp, Mode.owns] at hold
    exact ⟨d, hd, by simp [setMode_mode, e, hp]⟩
  parked c' hc' := by
    by_cases e : c' = c
    · subst e; exact absurd (by simpa using hc') (hnew false)
    · exact h.parked c' (by simpa [setMode_mode, e] using hc')
  called c' hc' := by
    by_cases e : c' = c
    · subst e; exact absurd (by simpa using hc') (hnew true)
    · exact h.called c' (by simpa [setMode_mode, e] using hc')
  retrying hs := by
    have := (h.revoke hr).symm.trans hs
    exact absurd this (by simp)
  retry := h.retry
  noWaiter := h.noWaiter
  someWaiter := h.someWaiter

omit [DecidableEq C] in
/-- Only one client owns the lock. -/
theorem Inv.owner_unique (h : Inv N a) {d : C} (hc : (a.mode c).owns = true)
    (hd : (a.mode d).owns = true) : d = c :=
  N.id_injective ((h.owner d hd).2.symm.trans (h.owner c hc).2)

omit [DecidableEq C] in
/-- The retryer is one client, and it is not among the waiters. -/
theorem Inv.retryer_notMem (h : Inv N a) (hs : a.server.state = .retrying)
    (hh : a.server.retryer = N.id c) : N.id c ∉ a.server.waiter := by
  obtain ⟨d, hd, hw, -⟩ := h.retrying hs
  rwa [hh.symm.trans hd]

omit [DecidableEq C] in
/-- In a state without an owner nobody owns the lock or knows of a revoke. -/
theorem Inv.not_owns (h : Inv N a) (hl : a.server.state ≠ .locked)
    (hr : a.server.state ≠ .revoking) (d : C) : (a.mode d).owns = false := by
  cases ho : (a.mode d).owns with
  | false => rfl
  | true => exact absurd (h.owner d ho).1 (by simp [hl, hr])

/-- A retry has reached the retryer. -/
theorem Inv.woken (h : Inv N a) (hr : a.retry ≠ none) (hh : a.server.retryer = N.id c) :
    Inv N { a.setMode c (.parked true) with retry := none } := by
  have hs : a.server.state = .retrying := h.retry hr
  have hinj := N.id_injective
  have hnot := h.retryer_notMem hs hh
  have hno := h.not_owns (by simp [hs]) (by simp [hs])
  obtain ⟨owner, holder, told, revoking, revoke, waiter, parked, called, retrying, retry,
      noW, someW⟩ :=
    h
  constructor <;> grind

/-- A client that was called asks again. -/
theorem Inv.reasked (h : Inv N a) (hc : a.mode c = .parked true) :
    Inv N (a.setMode c .asking) := by
  obtain ⟨hs, hh, hr⟩ := h.called c hc
  have hinj := N.id_injective
  have hnot := h.retryer_notMem hs hh
  have hno := h.not_owns (by simp [hs]) (by simp [hs])
  obtain ⟨owner, holder, told, revoking, revoke, waiter, parked, called, retrying, retry,
      noW, someW⟩ :=
    h
  constructor <;> grind

/-- A release has been served: ownership is gone, and the next client has a retry coming. -/
theorem Inv.released (h : Inv N a) {t : T} {l : ServerLock} (hc : a.mode c = .relReq t)
    (hl : ServerLock.release (some a.server) (N.id c) = .ok (some l)) :
    Inv N { a.setMode c (.relDone t) with server := l, retry := some t } := by
  have hinj := N.id_injective
  have hrev : a.revoke = none := (h.told c (by simp [hc, Mode.told])).2
  have hone : ∀ d, d ≠ c → (a.mode d).owns = false := by
    intro d hd
    by_contra ho
    exact hd (h.owner_unique (by simp [hc, Mode.owns]) (by simpa using ho))
  have hnone : ∀ d, d ≠ c → (a.mode d).told = false := by
    intro d hd
    by_contra ho
    have := Mode.owns_of_told (by simpa using ho)
    rw [hone d hd] at this
    exact absurd this (by simp)
  simp only [ServerLock.release] at hl
  split at hl
  · rename_i hv
    split at hl
    · simp at hl
    · rename_i w hw
      have hw' := begin?_mem hw
      simp only [Except.ok.injEq, Option.some.injEq] at hl
      subst hl
      obtain ⟨owner, holder, told, revoking, revoke, waiter, parked, called, retrying, retry, noW,
        someW⟩ := h
      constructor <;> grind
  · simp at hl

/-- The lock has been granted. -/
theorem Inv.granted (h : Inv N a) (t : T) {l : ServerLock} {need : Bool} (hc : a.mode c = .asking)
    (hl : ServerLock.acquire (some a.server) (N.id c) = .ok (l, .ok, need)) :
    Inv N { a.setMode c (.granted false) with
      server := l, revoke := if need then some t else a.revoke } := by
  have hinj := N.id_injective
  obtain ⟨hs, -, -, rfl, rfl⟩ | ⟨-, -, -, hr, -⟩ | ⟨-, -, -, hr, -⟩ | ⟨hs, hid, -, rfl, rfl⟩ |
    ⟨-, -, hr, -⟩ := ServerLock.acquire_cases hl
  · have hno := h.not_owns (by simp [hs]) (by simp [hs])
    obtain ⟨owner, holder, told, revoking, revoke, waiter, parked, called, retrying, retry, noW,
      someW⟩ := h
    constructor <;> grind
  · exact absurd hr (by simp)
  · exact absurd hr (by simp)
  · have hno := h.not_owns (by simp [hs]) (by simp [hs])
    have hnot := h.retryer_notMem hs hid
    obtain ⟨owner, holder, told, revoking, revoke, waiter, parked, called, retrying, retry, noW,
      someW⟩ := h
    constructor <;> grind
  · exact absurd hr (by simp)

/-- The client has been turned away. -/
theorem Inv.turnedAway (h : Inv N a) (t : T) {l : ServerLock} {need : Bool}
    (hc : a.mode c = .asking)
    (hl : ServerLock.acquire (some a.server) (N.id c) = .ok (l, .retry, need)) :
    Inv N { a.setMode c (.parked false) with
      server := l, revoke := if need then some t else a.revoke } := by
  have hinj := N.id_injective
  obtain ⟨-, -, hr, -⟩ | ⟨hs, -, -, -, rfl, rfl⟩ | ⟨hs, -, -, -, rfl, rfl⟩ | ⟨-, -, hr, -⟩ |
    ⟨hs, hid, -, rfl, rfl⟩ := ServerLock.acquire_cases hl
  · exact absurd hr (by simp)
  · obtain ⟨owner, holder, told, revoking, revoke, waiter, parked, called, retrying, retry, noW,
      someW⟩ := h
    constructor <;> simp only [setMode_mode, setMode_retry, Finset.mem_insert] <;> grind
  · obtain ⟨owner, holder, told, revoking, revoke, waiter, parked, called, retrying, retry, noW,
      someW⟩ := h
    constructor <;> simp only [setMode_mode, setMode_retry, Finset.mem_insert] <;> grind
  · exact absurd hr (by simp)
  · have hno := h.not_owns (by simp [hs]) (by simp [hs])
    obtain ⟨owner, holder, told, revoking, revoke, waiter, parked, called, retrying, retry, noW,
      someW⟩ := h
    constructor <;> simp only [setMode_mode, setMode_retry, Finset.mem_insert] <;> grind

/-- **Every protocol step keeps the invariant.** -/
theorem Inv.step {a' : Abs C T} (h : Inv N a) (hs : Step N a a') : Inv N a' := by
  cases hs with
  | ask hc =>
    exact h.setMode_of_same (by simp [hc, Mode.owns]) (by simp [hc, Mode.told]) (by simp [hc])
      (by simp [hc]) (by simp)
  | grant t hc hl => exact h.granted t hc hl
  | park t hc hl => exact h.turnedAway t hc hl
  | enter hc =>
    exact h.setMode_of_same (by simp [hc, Mode.owns]) (by simp [hc, Mode.told]) (by simp [hc])
      (by simp [hc]) (by simp)
  | take hc =>
    exact h.setMode_of_same (by simp [hc, Mode.owns]) (by simp [hc, Mode.told]) (by simp [hc])
      (by simp [hc]) (by simp)
  | keep hc =>
    exact h.setMode_of_same (by simp [hc, Mode.owns]) (by simp [hc, Mode.told]) (by simp [hc])
      (by simp [hc]) (by simp)
  | note hr hh hc hm =>
    rcases hm with ⟨rfl, rfl⟩ | ⟨rfl, rfl⟩
    · exact h.delivered hr hh rfl rfl (by simp [hc, Mode.owns]) (by simp)
    · exact h.delivered hr hh rfl rfl (by simp [hc, Mode.owns]) (by simp)
  | giveUp t hr hh hc => exact h.delivered hr hh rfl rfl (by simp [hc, Mode.owns]) (by simp)
  | giveBack t hc =>
    exact h.setMode_of_same (by simp [hc, Mode.owns]) (by simp [hc, Mode.told]) (by simp [hc])
      (by simp [hc]) (by simp)
  | release hc hl => exact h.released hc hl
  | wake hr hh _ => exact h.woken hr hh
  | reask hc => exact h.reasked hc
  | done hc =>
    exact h.setMode_of_same (by simp [hc, Mode.owns]) (by simp [hc, Mode.told]) (by simp [hc])
      (by simp [hc]) (by simp)

/-! ## The server's assertions

In a state with the invariant, a request that a client may have sent passes every `VERIFY`. -/

omit [DecidableEq C] in
/-- A client that asks for a lock is not the one that is recorded to hold it. -/
theorem Inv.otherHolder (h : Inv N a) (hid : ∀ c, N.id c ≠ "") (hc : a.mode c = .asking)
    (hs : a.server.state = .locked ∨ a.server.state = .revoking) :
    a.server.otherHolder (N.id c) = true := by
  obtain ⟨d, hd, ho⟩ := h.holder hs
  have hne : N.id d ≠ N.id c := by
    intro e
    rw [N.id_injective e, hc] at ho
    exact absurd ho (by simp [Mode.owns])
  simp [ServerLock.otherHolder, hd, hid, hne]

omit [DecidableEq C] in
/-- An acquire can only fail the test that neither the holder nor the client is nobody. -/
theorem Inv.acquire_ok (h : Inv N a) (hid : ∀ c, N.id c ≠ "") (hc : a.mode c = .asking) :
    ∃ r, ServerLock.acquire (some a.server) (N.id c) = .ok r := by
  have hother := h.otherHolder hid hc
  simp only [ServerLock.acquire, Option.getD_some]
  cases hs : a.server.state with
  | free => simp [h.noWaiter (Or.inl hs)]
  | locked => simp [h.noWaiter (Or.inr hs), hother (Or.inl hs)]
  | revoking => simp [h.someWaiter hs, hother (Or.inr hs)]
  | retrying => simp only; split <;> [split; skip] <;> exact ⟨_, rfl⟩

omit [DecidableEq C] in
/-- What serving an acquire does to the messages that are already under way: the answer is `OK` or
`RETRY`, a revoke is owed only if none was, and the names that earlier handlers have read stay. -/
theorem Inv.served (h : Inv N a) (hc : a.mode c = .asking) {l : ServerLock} {ret : Status}
    {need : Bool} (hl : ServerLock.acquire (some a.server) (N.id c) = .ok (l, ret, need)) :
    (ret = .ok ∨ ret = .retry) ∧ (need = true → a.revoke = none) ∧
      (a.revoke ≠ none → l.holder = a.server.holder) ∧
      (a.retry ≠ none → l.retryer = a.server.retryer) := by
  have hrev : a.server.state ≠ .revoking → a.revoke = none := fun hs ↦ by
    by_contra hne
    exact hs (h.revoke hne)
  have hret : a.server.state ≠ .retrying → a.retry = none := fun hs ↦ by
    by_contra hne
    exact hs (h.retry hne)
  obtain ⟨hs, -, rfl, -, rfl⟩ | ⟨hs, -, -, rfl, -, rfl⟩ | ⟨hs, -, -, rfl, rfl, rfl⟩ |
    ⟨hs, hid, rfl, -, rfl⟩ | ⟨hs, -, rfl, -, rfl⟩ := ServerLock.acquire_cases hl
  · exact ⟨Or.inl rfl, fun _ ↦ hrev (by simp [hs]), fun hne ↦ absurd (hrev (by simp [hs])) hne,
      fun _ ↦ rfl⟩
  · exact ⟨Or.inr rfl, fun _ ↦ hrev (by simp [hs]), fun _ ↦ rfl, fun _ ↦ rfl⟩
  · exact ⟨Or.inr rfl, by simp, fun _ ↦ rfl, fun _ ↦ rfl⟩
  · refine ⟨Or.inl rfl, fun _ ↦ hrev (by simp [hs]), fun hne ↦ absurd (hrev (by simp [hs])) hne,
      fun hne ↦ ?_⟩
    -- the retryer has already been called, or it would not be asking
    obtain ⟨d, hd, -, hm⟩ := h.retrying hs
    have hdc : d = c := N.id_injective (hd.symm.trans hid)
    rcases hm with ⟨-, hm⟩ | ⟨hn, -⟩
    · rw [hdc, hc] at hm
      exact absurd hm (by simp)
    · exact absurd hn hne
  · exact ⟨Or.inr rfl, fun _ ↦ hrev (by simp [hs]), fun _ ↦ rfl, fun _ ↦ rfl⟩

omit [DecidableEq C] in
/-- A release arrives only for a lock that is wanted back, from its holder, while somebody waits. -/
theorem Inv.release_ok (h : Inv N a) {t : T} (hc : a.mode c = .relReq t) :
    a.server.state = .revoking ∧ N.id c = a.server.holder ∧ a.server.waiter ≠ ∅ ∧
      ∃ l, ServerLock.release (some a.server) (N.id c) = .ok (some l) := by
  have hs := (h.told c (by simp [hc, Mode.told])).1
  have hh := (h.owner c (by simp [hc, Mode.owns])).2
  have hw := h.someWaiter hs
  obtain ⟨w, hw'⟩ := begin?_isSome (Finset.nonempty_iff_ne_empty.2 hw)
  exact ⟨hs, hh.symm, hw, by simp [ServerLock.release, hs, hh, hw']⟩

end Abs

end Lock
end Yfs
