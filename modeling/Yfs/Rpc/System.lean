import Mathlib.Algebra.Group.Nat.Defs
import Mathlib.Logic.Function.Basic
import Yfs.Rpc.Window

/-!
# Clients, a server, and a network that loses and repeats messages

The client's side of a call is `rpcc::call1`.  It takes a number for the call and a header that
acknowledges earlier ones, sends the request, sends it again when the connection has died, waits,
and in the end takes the call off the list of calls in progress, with a reply or without one.
Replies arrive in `rpcc::got_pdu`, on another thread.

The server's side is `rpcs::dispatch`, which is run by a pool of threads.  A thread looks the
request up in the window of the client.  If the request is new it invokes the handler, saves the
reply and sends it.  The window is locked while it is looked at and while the reply is saved, but
not in between.

A step of the model is one critical section of either program, or something that takes place outside
of one: a message arrives, or the handler is invoked, or it returns.  The network is the set of the
messages that have ever been sent.  Any of them may arrive at any time, any number of times, or
never; so a client need not send a request twice for the server to receive it twice.
-/

set_option autoImplicit false

namespace Yfs
namespace Rpc

/-! ## Constants -/

/-- `rpc_const::bind`, the procedure that returns the server's nonce. -/
abbrev bind : Nat := 1

abbrev timeoutFailure : Int := -1
abbrev atmostonceFailure : Int := -4
abbrev oldsrvFailure : Int := -5
abbrev cancelFailure : Int := -7

/-- `operator<<` of an `unsigned int`: four bytes, the most significant one first. -/
def packInt (n : Nat) : List UInt8 :=
  [.ofNat (n / 2 ^ 24), .ofNat (n / 2 ^ 16), .ofNat (n / 2 ^ 8), .ofNat n]

/-- `operator>>` of an `int` from a body that contains nothing else. -/
def unpackInt : List UInt8 → Option Nat
  | [a, b, c, d] => some (a.toNat * 2 ^ 24 + b.toNat * 2 ^ 16 + c.toNat * 2 ^ 8 + d.toNat)
  | _ => none

theorem unpackInt_packInt {n : Nat} (h : n < 2 ^ 32) : unpackInt (packInt n) = some n := by
  simp only [packInt, unpackInt, UInt8.toNat_ofNat', Option.some.injEq]
  omega

/-- Some clients and a server. -/
structure Service (C : Type) where
  /-- `clt_nonce_`. -/
  nonce : C → Nat
  nonce_ne_zero : ∀ c, nonce c ≠ 0
  nonce_injective : Function.Injective nonce
  /-- `nonce_` of the server. -/
  srvNonce : Nat
  srvNonce_lt : srvNonce < 2 ^ 32
  /-- The procedures that are registered besides `bind`. -/
  procs : Nat → Bool

/-! ## State -/

/-- `req_header`, and the client at the other end of the connection. -/
structure Request (C : Type) where
  src : C
  xid : Nat
  proc : Nat
  cltNonce : Nat
  srvNonce : Nat
  xidRep : Nat
  deriving DecidableEq

/-- `rpcc::caller`: a call in progress. -/
structure Caller where
  proc : Nat
  done : Bool := false
  intret : Int := 0
  un : List UInt8 := []

/-- How a call of `call1` ended: what it was for, what it returned, and the body of the reply. -/
structure Outcome where
  proc : Nat
  ret : Int
  body : List UInt8
  deriving DecidableEq

/-- `rpcc`. -/
structure Client where
  xid : Nat := 1
  bindDone : Bool := false
  srvNonce : Nat := 0
  destroyWait : Bool := false
  calls : Nat → Option Caller := fun _ ↦ none
  xidRepWindow : List Nat := [0]
  /-- The calls that have returned. -/
  returned : Nat → Option Outcome := fun _ ↦ none

/-- Where a thread is in `rpcs::dispatch`. -/
inductive Job (C : Type) where
  /-- At the start. -/
  | dispatch (h : Request C)
  /-- Before `checkduplicate_and_update`. -/
  | check (h : Request C)
  /-- The request is new, and the handler is about to be invoked. -/
  | call (h : Request C)
  /-- In the handler. -/
  | handler (h : Request C)
  /-- Before `add_reply`. -/
  | addReply (h : Request C) (b : Reply)
  /-- About to send a reply. -/
  | send (dst : C) (b : Reply)

/-- A result of the handler, with the nonce and the number of the call that it is for. -/
structure Result where
  nonce : Nat
  xid : Nat
  ret : Int
  body : List UInt8
  deriving DecidableEq

/-- The clients, the network, and the server. -/
structure State (C : Type) where
  client : C → Client := fun _ ↦ {}
  /-- The requests that have been sent. -/
  requests : List (Request C) := []
  /-- The replies that have been sent, and to whom. -/
  replies : List (C × Reply) := []
  /-- `reply_window_`. -/
  window : Nat → List Entry := fun _ ↦ []
  /-- What the threads of the pool are at. -/
  pool : Nat → Option (Job C) := fun _ ↦ none
  /-- The invocations of the handler, by nonce and number. -/
  invoked : List (Nat × Nat) := []
  /-- What the handler has returned. -/
  results : List Result := []

variable {C : Type}

/-! ## The client -/

namespace Client

variable (cl : Client)

/-- `call1` takes a number. -/
def start (proc : Nat) : Client :=
  { cl with xid := cl.xid + 1, calls := Function.update cl.calls cl.xid (some { proc }) }

/-- `rpcc::got_pdu`. -/
def gotPdu (b : Reply) : Client :=
  { cl with
    xidRepWindow := updateXidRep cl.xidRepWindow b.xid
    calls :=
      match cl.calls b.xid with
      | some ca =>
        if ca.done then cl.calls
        else
          Function.update cl.calls b.xid
            (some { ca with done := true, intret := b.ret, un := b.body })
      | none => cl.calls }

/-- The end of `call1`, after a reply or a timeout. -/
def finish (xid : Nat) (ca : Caller) : Client :=
  { cl with
    calls := Function.update cl.calls xid none
    xidRepWindow := updateXidRep cl.xidRepWindow xid
    returned := Function.update cl.returned xid
      (some ⟨ca.proc, if ca.done then ca.intret else timeoutFailure, ca.un⟩) }

/-- `rpcc::cancel`, up to where it starts waiting for the calls to return. -/
def cancel : Client :=
  { cl with
    calls := fun x ↦ (cl.calls x).map fun ca ↦ { ca with done := true, intret := cancelFailure }
    destroyWait := cl.destroyWait || (List.range cl.xid).any fun x ↦ (cl.calls x).isSome }

variable {cl} {x xid : Nat} {ca ca' : Caller}

theorem calls_start {proc : Nat} (h : (cl.start proc).calls x = some ca) :
    (x = cl.xid ∧ ca = { proc }) ∨ (x ≠ cl.xid ∧ cl.calls x = some ca) := by
  simp only [start, Function.update_apply] at h
  split at h
  · rename_i e
    exact Or.inl ⟨e, (Option.some_inj.1 h).symm⟩
  · rename_i hne
    exact Or.inr ⟨hne, h⟩

theorem calls_gotPdu {b : Reply} (h : (cl.gotPdu b).calls x = some ca) :
    ∃ ca', cl.calls x = some ca' ∧ ca.proc = ca'.proc ∧
      ((ca = ca' ∧ (x = b.xid → ca.done = true)) ∨
        (x = b.xid ∧ ca.done = true ∧ ca.intret = b.ret ∧ ca.un = b.body)) := by
  cases hcall : cl.calls b.xid with
  | none =>
    simp only [gotPdu, hcall] at h
    refine ⟨ca, h, rfl, Or.inl ⟨rfl, ?_⟩⟩
    rintro rfl
    exact absurd h (by simp [hcall])
  | some ca' =>
    simp only [gotPdu, hcall] at h
    split at h
    · rename_i hd
      refine ⟨ca, h, rfl, Or.inl ⟨rfl, ?_⟩⟩
      rintro rfl
      obtain rfl := Option.some_inj.1 (h.symm.trans hcall)
      exact hd
    · rw [Function.update_apply] at h
      split at h
      · rename_i e
        obtain rfl := Option.some_inj.1 h
        exact ⟨ca', e ▸ hcall, rfl, Or.inr ⟨e, rfl, rfl, rfl⟩⟩
      · rename_i hne
        exact ⟨ca, h, rfl, Or.inl ⟨rfl, fun e ↦ absurd e hne⟩⟩

theorem calls_finish (h : (cl.finish xid ca').calls x = some ca) :
    x ≠ xid ∧ cl.calls x = some ca := by
  simp only [finish, Function.update_apply] at h
  split at h
  · exact absurd h (by simp)
  · rename_i hne
    exact ⟨hne, h⟩

theorem returned_finish {o : Outcome} (h : (cl.finish xid ca).returned x = some o) :
    (x = xid ∧ o = ⟨ca.proc, if ca.done then ca.intret else timeoutFailure, ca.un⟩) ∨
      cl.returned x = some o := by
  simp only [finish, Function.update_apply] at h
  split at h
  · rename_i e
    exact Or.inl ⟨e, (Option.some_inj.1 h).symm⟩
  · exact Or.inr h

theorem calls_cancel (h : cl.cancel.calls x = some ca) :
    ∃ ca', cl.calls x = some ca' ∧ ca = { ca' with done := true, intret := cancelFailure } := by
  obtain ⟨ca', hca', rfl⟩ := Option.map_eq_some_iff.1 h
  exact ⟨ca', hca', rfl⟩

end Client

section Client

variable [DecidableEq C] (S : Service C) (s : State C) (c : C)

/-- Replace a client. -/
def State.setClient (cl : Client) : State C := { s with client := Function.update s.client c cl }

/-- `call1` up to where it starts waiting.  It is not a step if `call1` returns at once, because the
client is not bound, or is bound already, or is being destroyed. -/
def issue (proc : Nat) : Option (State C) :=
  let cl := s.client c
  if (proc ≠ bind ∧ cl.bindDone = false) ∨ (proc = bind ∧ cl.bindDone = true) then none
  else if cl.destroyWait then none
  else if cl.xid < 2 ^ 32 then
    let h := ⟨c, cl.xid, proc, S.nonce c, cl.srvNonce, cl.xidRepWindow.headD 0⟩
    some { s.setClient c (cl.start proc) with requests := h :: s.requests }
  else none

/-- The end of `rpcc::bind`. -/
def bound (xid : Nat) : Option (State C) :=
  let cl := s.client c
  match cl.returned xid with
  | some o =>
    if o.proc = bind ∧ o.ret = 0 then
      (unpackInt o.body).map fun r ↦ s.setClient c { cl with bindDone := true, srvNonce := r }
    else none
  | none => none

end Client

/-! ## The server -/

section Server

variable (S : Service C) (s : State C) (t : Nat)

/-- What thread `t` does next. -/
def State.setJob (j : Option (Job C)) : State C := { s with pool := Function.update s.pool t j }

/-- Replace the window for a nonce. -/
def State.setWindow (n : Nat) (l : List Entry) : State C :=
  { s with window := Function.update s.window n l }

/-- `rpcs::dispatch`, from one critical section to the next. -/
def dispatch : Job C → Option (State C)
  | .dispatch h =>
    if h.srvNonce ≠ 0 ∧ h.srvNonce ≠ S.srvNonce then
      some (s.setJob t (some (.send h.src ⟨h.xid, oldsrvFailure, []⟩)))
    -- `VERIFY(0)`
    else if h.proc ≠ bind ∧ S.procs h.proc = false then none
    else some (s.setJob t (some (.check h)))
  | .check h =>
    if h.cltNonce ≠ 0 then
      match checkduplicateAndUpdate (s.window h.cltNonce) h.xid h.xidRep with
      | (.new, l) => some ((s.setWindow h.cltNonce l).setJob t (some (.call h)))
      | (.inProgress, l) => some ((s.setWindow h.cltNonce l).setJob t none)
      | (.done b, l) => some ((s.setWindow h.cltNonce l).setJob t (some (.send h.src b)))
      | (.forgotten, l) =>
        some ((s.setWindow h.cltNonce l).setJob t
          (some (.send h.src ⟨h.xid, atmostonceFailure, []⟩)))
    else some (s.setJob t (some (.call h)))
  | .call h =>
    some { s.setJob t (some (.handler h)) with invoked := (h.cltNonce, h.xid) :: s.invoked }
  | .handler _ => none
  | .addReply h b =>
    let s' := s.setJob t (some (.send h.src b))
    if h.cltNonce > 0 then
      some (s'.setWindow h.cltNonce (addReply (s.window h.cltNonce) h.xid b))
    else some s'
  | .send dst b => some { s.setJob t none with replies := (dst, b) :: s.replies }

/-- The handler returns.  It may return anything that `dispatch` does not abort on; the one for
`bind` returns the nonce. -/
def handlerReturns (ret : Int) (body : List UInt8) : Option (State C) :=
  match s.pool t with
  | some (.handler h) =>
    if 0 ≤ ret ∧ (h.proc = bind → ret = 0 ∧ body = packInt S.srvNonce) then
      some
        { s.setJob t (some (.addReply h ⟨h.xid, ret, body⟩)) with
          results := ⟨h.cltNonce, h.xid, ret, body⟩ :: s.results }
    else none
  | _ => none

end Server

/-! ## Steps -/

/-- What can happen. -/
inductive Event (C : Type) where
  /-- Client `c` calls a procedure. -/
  | issue (c : C) (proc : Nat)
  /-- A reply arrives. -/
  | gotReply (c : C) (b : Reply)
  /-- `call1` returns, with the reply or because the time is up. -/
  | finish (c : C) (xid : Nat)
  /-- A call for `bind` has returned. -/
  | bound (c : C) (xid : Nat)
  | cancel (c : C)
  /-- A request arrives, and thread `t` of the pool takes it. -/
  | gotRequest (t : Nat) (h : Request C)
  /-- Thread `t` goes on. -/
  | dispatch (t : Nat)
  /-- The handler that thread `t` has invoked returns. -/
  | handlerReturns (t : Nat) (ret : Int) (body : List UInt8)

variable [DecidableEq C]

/-- A step of the system. -/
def step (S : Service C) (s : State C) : Event C → Option (State C)
  | .issue c proc => issue S s c proc
  | .gotReply c b =>
    if (c, b) ∈ s.replies then some (s.setClient c ((s.client c).gotPdu b)) else none
  | .finish c xid =>
    ((s.client c).calls xid).map fun ca ↦ s.setClient c ((s.client c).finish xid ca)
  | .bound c xid => bound s c xid
  | .cancel c => some (s.setClient c (s.client c).cancel)
  | .gotRequest t h =>
    if h ∈ s.requests ∧ (s.pool t).isNone then some (s.setJob t (some (.dispatch h))) else none
  | .dispatch t => (s.pool t).bind (dispatch S s t)
  | .handlerReturns t ret body => handlerReturns S s t ret body

/-! ## What has happened in a step -/

variable {S : Service C} {s s' : State C} {c : C}

theorem of_issue {proc : Nat} (h : issue S s c proc = some s') :
    (proc = bind ↔ (s.client c).bindDone = false) ∧ (s.client c).destroyWait = false ∧
      (s.client c).xid < 2 ^ 32 ∧
      s' = { s.setClient c ((s.client c).start proc) with
        requests := ⟨c, (s.client c).xid, proc, S.nonce c, (s.client c).srvNonce,
          (s.client c).xidRepWindow.headD 0⟩ :: s.requests } := by
  simp only [issue, Option.ite_none_left_eq_some, Option.ite_none_right_eq_some, Option.some_inj,
    not_or, not_and, Bool.not_eq_true] at h
  obtain ⟨⟨hno, hyes⟩, hdestroy, hxid, rfl⟩ := h
  exact ⟨⟨hyes, not_imp_not.1 hno⟩, hdestroy, hxid, rfl⟩

theorem of_bound {x : Nat} (h : bound s c x = some s') :
    ∃ o r, (s.client c).returned x = some o ∧ o.proc = bind ∧ o.ret = 0 ∧
      unpackInt o.body = some r ∧
      s' = s.setClient c { s.client c with bindDone := true, srvNonce := r } := by
  rw [bound] at h
  cases ho : (s.client c).returned x with
  | none => simp [ho] at h
  | some o =>
    simp only [ho, Option.ite_none_right_eq_some, Option.map_eq_some_iff] at h
    obtain ⟨⟨hproc, hret⟩, r, hr, rfl⟩ := h
    exact ⟨o, r, rfl, hproc, hret, hr, rfl⟩

omit [DecidableEq C] in
theorem of_handlerReturns {t : Nat} {ret : Int} {body : List UInt8}
    (h : handlerReturns S s t ret body = some s') :
    ∃ h', s.pool t = some (.handler h') ∧ 0 ≤ ret ∧
      (h'.proc = bind → ret = 0 ∧ body = packInt S.srvNonce) ∧
      s' = { s.setJob t (some (.addReply h' ⟨h'.xid, ret, body⟩)) with
        results := ⟨h'.cltNonce, h'.xid, ret, body⟩ :: s.results } := by
  rw [handlerReturns] at h
  split at h
  · rename_i h' hjob
    obtain ⟨⟨hret, hbody⟩, hs⟩ := Option.ite_none_right_eq_some.1 h
    exact ⟨h', hjob, hret, hbody, (Option.some_inj.1 hs).symm⟩
  · exact absurd h (by simp)

end Rpc
end Yfs
