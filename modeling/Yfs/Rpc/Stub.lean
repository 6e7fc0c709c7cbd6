import Yfs.Rpc.Message
import Yfs.Rpc.System

/-!
# Remote calls

`rpcc::call` marshals its arguments, and `rpcs::reg` wraps a method in a handler that unmarshals
them, invokes the method, and marshals what it has returned.  Both are templates: the types of the
arguments are those at the place of the call on one side, and those of the method on the other.
Nothing compares them.  If the types do not fit, then a process aborts: the server, when there are
not exactly enough bytes for the arguments of the method, or the client, when there are not for the
result.

`Server.call` is one call from its beginning to its end: the request is marshalled, received and
dispatched, and the reply comes back.  That messages get lost or are repeated is left to other
files.

* If the types are the same on both sides, then a remote call is a local one (`Server.call_eq`).
* If the bytes of the arguments are not those of arguments of the method, then the server goes down
  (`Server.exists_abort`).

The calls of `rpcc::bind`, `extent_client`, `lock_client_cache` and `lock_server_cache` are of the
first kind (`call_of_site`).  Those of `lock_client` are not: its methods send the id of the
connection before the number of the lock, as the server without a cache would have it.
`lock_client_cache` has its own `acquire` and `release`, but inherits `stat`, which is what
`lock_demo` calls (`stat_aborts`).
-/

set_option autoImplicit false

namespace Yfs
namespace Rpc

open Machine Unmarshall

/-- `rpc_const::unmarshal_args_failure`. -/
abbrev unmarshalArgsFailure : Int32 := -2

/-! ## Stubs -/

/-- A method, as `rpcs::reg` sees it: the types of its arguments and of its result, and what it does
to the state of the server, unless it does not return. -/
structure Handler (S : Type) where
  args : List Ty
  ret : Ty
  meth : List Value → S → Option ((Int32 × ret.Val) × S)

variable {S : Type}

/-- The method `fn` of the class that `rpcs::reg` defines. -/
def Handler.fn (f : Handler S) (req : Unmarshall) (rep : Marshall) (s : S) :
    Option ((Int32 × Marshall) × S) :=
  match (extractAll f.args).eval exec req with
  | some (.ok vs, req) =>
    if req.okdone then
      (f.meth vs s).bind fun ((b, r), s) ↦ (f.ret.marshall r rep).map fun rep ↦ ((b, rep), s)
    else some ((unmarshalArgsFailure, rep), s)
  | _ => none

/-- `nonce_` and `procs_`. -/
structure Server (S : Type) where
  nonce : UInt32
  procs : Int32 → Option (Handler S)

/-- `rpcs::dispatch` of a request that is new.  The reply, if there is one; `none` if the server
aborts.  `mem` is what the memory happens to contain that is allocated for the reply. -/
def Server.dispatch (srv : Server S) (mem : Nat → UInt8) (req : Unmarshall) (s : S) :
    Option (Option Marshall × S) :=
  match unpackReqHeader.eval exec req with
  | some (.ok h, req) =>
    let rep := Marshall.new mem
    if req.ok = false then some (none, s)
    else if h.srvNonce ≠ 0 ∧ h.srvNonce ≠ srv.nonce then
      (rep.packReplyHeader ⟨h.xid, .ofInt oldsrvFailure⟩).map fun rep ↦ (some rep, s)
    else
      match srv.procs h.proc with
      -- `VERIFY(0)`
      | none => none
      | some f =>
        (f.fn req rep s).bind fun ((ret, rep), s) ↦
          -- `VERIFY(0)`, and `VERIFY(rh.ret >= 0)`
          if ret = unmarshalArgsFailure ∨ ret < 0 then none
          else (rep.packReplyHeader ⟨h.xid, ret⟩).map fun rep ↦ (some rep, s)
  | _ => none

/-- The end of `rpcc::call_m`. -/
def callM (R : Ty) (intret : Int32) (u : Unmarshall) : Option (Int32 × Option R.Val) :=
  if intret < 0 then some (intret, none)
  else
    match R.extract.eval exec u with
    -- `VERIFY(0)`
    | some (.ok r, u) => if u.okdone then some (intret, some r) else none
    | _ => none

/-- A call, and its way to the server and back. -/
def Server.call (srv : Server S) (mem mem' : Nat → UInt8) (h : ReqHeader) (vs : List Value) (R : Ty)
    (s : S) : Option ((Int32 × Option R.Val) × S) := do
  let req ← marshallAll vs (Marshall.new mem)
  let req ← req.packReqHeader h
  let (rep, s) ← srv.dispatch mem' req.received s
  let rep ← rep
  match unpackReplyHeader.eval exec rep.received with
  | some (.ok rh, u) => if u.ok then (callM R rh.ret (takeIn u)).map fun o ↦ (o, s) else none
  | _ => none

/-! ## Messages that arrive -/

section Messages

variable {mem : Nat → UInt8} {bs : List UInt8} {m : Marshall} {u u' : Unmarshall}

/-- Behind a header there is what has been written. -/
theorem exists_received {H : Type} {fields : Decode H} {q : Parser H} {xs : List Int32} (hd : H)
    (hxs : xs.length ≤ 5) (hp : Parses fields q)
    (hq : ∀ rest, q (encodeHeader xs ++ rest) = some (hd, rest))
    (hm : (Marshall.new mem).Emits bs m) :
    ∃ m' u, Marshall.packHeader xs m = some m' ∧
      (unpackHeader fields).eval exec m'.received = some (.ok hd, u) ∧ u.ok = true ∧
      u.ind = headerSz ∧ headerSz ≤ u.sz ∧ u.rest = bs := by
  have hind : m.ind = headerSz + bs.length := hm.ind
  have hcontent : m.content = bs := by
    rw [Marshall.content, hind, hm.buf, Nat.add_sub_cancel_left]
    exact read_write _ _ _
  obtain ⟨m', hm', hind', hbuf⟩ := exists_packHeader hxs m
  obtain ⟨-, ⟨rest, hrest⟩, hdrop⟩ := bytes_of_packHeader hxs (by omega) hind' hbuf
  obtain ⟨u, he, hok, -⟩ := hp.complete (u := { m'.received with ind := rpcSz }) rfl
    ((congrArg q hrest).trans (hq rest))
  have hubuf : u.buf = m'.bytes := (hp.moves he).buf
  refine ⟨m', { u with ind := headerSz }, hm', eval_unpackHeader.2 ⟨u, he, rfl⟩, hok, rfl, ?_, ?_⟩
  · rw [sz, hubuf, length_bytes]
    omega
  · exact (congrArg (List.drop headerSz) hubuf).trans (hdrop.trans hcontent)

/-- What is left is read to its end. -/
theorem exists_okdone {α : Type} {p : Decode α} {q : Parser α} {a : α} (hp : Parses p q)
    (hok : u.ok = true) (hle : u.ind ≤ u.sz) (hq : q u.rest = some (a, [])) :
    ∃ u', p.eval exec u = some (.ok a, u') ∧ u'.okdone = true := by
  obtain ⟨u', he, hok', hnil⟩ := hp.complete hok hq
  have hmoves := hp.moves he
  have hlen := rest_length u'
  have hsz := hmoves.sz_eq
  rw [hnil, List.length_nil] at hlen
  have hind : u'.ind = u'.sz := by
    rcases hmoves.ind_le with h | h <;> omega
  exact ⟨u', he, by rw [Unmarshall.okdone, hok', hind]; simp⟩

theorem parse_of_okdone {α : Type} {p : Decode α} {q : Parser α} {a : α} (hp : Parses p q)
    (he : p.eval exec u = some (.ok a, u')) (hdone : u'.okdone = true) :
    q u.rest = some (a, []) := by
  rw [Unmarshall.okdone, Bool.and_eq_true, beq_iff_eq] at hdone
  rw [hp.sound he hdone.1]
  have hnil : u'.rest = [] := by rw [Unmarshall.rest, hdone.2]; exact List.drop_length
  rw [hnil]

theorem rest_takeIn (hind : u.ind = headerSz) : (takeIn u).rest = u.rest := by
  rw [Unmarshall.rest, Unmarshall.rest, hind, takeIn]

/-- A request is sent. -/
theorem exists_request (mem : Nat → UInt8) (h : ReqHeader) {vs : List Value}
    (hsize : headerSz + (encodeAll vs).length < 2 ^ 30) :
    ∃ m m' u, marshallAll vs (Marshall.new mem) = some m ∧ m.packReqHeader h = some m' ∧
      unpackReqHeader.eval exec m'.received = some (.ok h, u) ∧ u.ok = true ∧ u.ind ≤ u.sz ∧
      u.rest = encodeAll vs := by
  obtain ⟨m, hm, hemits⟩ := writes_marshallAll vs (Marshall.new mem) hsize
  obtain ⟨m', u, hm', he, hok, hind, hle, hrest⟩ :=
    exists_received h (by simp) parses_reqFields h.parse_encodeHeader hemits
  exact ⟨m, m', u, hm, hm', he, hok, hind ▸ hle, hrest⟩

end Messages

/-! ## A remote call is a local one -/

namespace Server

variable {srv : Server S} {f : Handler S} {h : ReqHeader} {vs : List Value} {s s' : S}
  {b : Int32} (mem mem' : Nat → UInt8)

/-- The method is invoked with the arguments that have been sent. -/
theorem fn_eq {req : Unmarshall} {r : f.ret.Val} (hok : req.ok = true) (hle : req.ind ≤ req.sz)
    (hrest : req.rest = encodeAll vs) (hsize : (encodeAll vs).length < 2 ^ 32)
    (hargs : vs.map Value.ty = f.args) (hmeth : f.meth vs s = some ((b, r), s'))
    (hret : headerSz + (f.ret.encode r).length < 2 ^ 30) :
    ∃ rep, f.fn req (Marshall.new mem) s = some ((b, rep), s') ∧
      (Marshall.new mem).Emits (f.ret.encode r) rep := by
  have hparse : parseAll f.args req.rest = some (vs, []) := by
    rw [hrest, ← hargs, ← List.append_nil (encodeAll vs)]
    exact parseAll_encodeAll hsize []
  obtain ⟨u, he, hdone⟩ := exists_okdone (parses_extractAll f.args) hok hle hparse
  obtain ⟨rep, hrep, hemits⟩ := f.ret.writes_marshall r (Marshall.new mem) hret
  refine ⟨rep, ?_, hemits⟩
  rw [Handler.fn, he]
  simp only [hdone, if_true, hmeth, Option.bind_some, hrep, Option.map_some]

/-- **A remote call is a local one.**  If the types at the place of the call are those of the
method, then the call returns what the method returns, and the state of the server is what the
method has made of it. -/
theorem call_eq {r : f.ret.Val} (hproc : srv.procs h.proc = some f)
    (hsrv : h.srvNonce = 0 ∨ h.srvNonce = srv.nonce) (hargs : vs.map Value.ty = f.args)
    (hsize : headerSz + (encodeAll vs).length < 2 ^ 30)
    (hmeth : f.meth vs s = some ((b, r), s')) (hb : 0 ≤ b)
    (hret : headerSz + (f.ret.encode r).length < 2 ^ 30) :
    srv.call mem mem' h vs f.ret s = some ((b, some r), s') := by
  obtain ⟨m, m', u, hm, hm', he, hok, hle, hrest⟩ := exists_request mem h hsize
  obtain ⟨rep, hrep, hemits⟩ := fn_eq mem' hok hle hrest (by omega) hargs hmeth hret
  obtain ⟨rep', u', hrep', he', hok', hind', hle', hrest'⟩ :=
    exists_received (⟨h.xid, b⟩ : ReplyHeader) (by simp) parses_replyFields
      (ReplyHeader.parse_encodeHeader ⟨h.xid, b⟩) hemits
  have hparse : f.ret.parse (takeIn u').rest = some (r, []) := by
    rw [rest_takeIn hind', hrest', ← List.append_nil (f.ret.encode r)]
    exact f.ret.parse_encode r (by omega) []
  have hin : (takeIn u').ok = true := decide_eq_true hle'
  obtain ⟨u₂, he₂, hdone⟩ := exists_okdone (f.ret.parses_extract) hin hle' hparse
  have hne : ¬(b = unmarshalArgsFailure ∨ b < 0) := by
    rintro (rfl | hlt)
    · exact absurd hb (by decide)
    · exact absurd hb (Int32.not_le.2 hlt)
  have hnonce : ¬(h.srvNonce ≠ 0 ∧ h.srvNonce ≠ srv.nonce) := by
    rintro ⟨h₁, h₂⟩
    exact hsrv.elim h₁ h₂
  have hdispatch : srv.dispatch mem' m'.received s = some (some rep', s') := by
    rw [dispatch, he]
    simp only [hok, hnonce, hproc, hrep, Option.bind_some, hne, if_false, Bool.true_eq_false]
    rw [show rep.packReplyHeader ⟨h.xid, b⟩ = some rep' from hrep', Option.map_some]
  have hcallM : callM f.ret b (takeIn u') = some (b, some r) := by
    rw [callM, if_neg (fun hlt ↦ hne (Or.inr hlt)), he₂]
    simp only [hdone, if_true]
  have hunpack : unpackReplyHeader.eval exec rep'.received = some (.ok ⟨h.xid, b⟩, u') := he'
  simp only [call, hm, hm', hdispatch, Option.bind_eq_bind, Option.bind_some, hunpack,
    hok', if_true, hcallM, Option.map_some]

/-- **The server goes down** if the bytes are not those of arguments of the method. -/
theorem exists_abort (hproc : srv.procs h.proc = some f)
    (hsrv : h.srvNonce = 0 ∨ h.srvNonce = srv.nonce)
    (hsize : headerSz + (encodeAll vs).length < 2 ^ 30)
    (hparse : ∀ ws, parseAll f.args (encodeAll vs) ≠ some (ws, [])) :
    ∃ m m', marshallAll vs (Marshall.new mem) = some m ∧ m.packReqHeader h = some m' ∧
      srv.dispatch mem' m'.received s = none := by
  obtain ⟨m, m', u, hm, hm', he, hok, hle, hrest⟩ := exists_request mem h hsize
  refine ⟨m, m', hm, hm', ?_⟩
  have hnonce : ¬(h.srvNonce ≠ 0 ∧ h.srvNonce ≠ srv.nonce) := by
    rintro ⟨h₁, h₂⟩
    exact hsrv.elim h₁ h₂
  rw [dispatch, he]
  simp only [hok, hnonce, hproc, if_false, Bool.true_eq_false]
  have hfn : f.fn u (Marshall.new mem') s = none ∨
      ∃ rep, f.fn u (Marshall.new mem') s = some ((unmarshalArgsFailure, rep), s) := by
    rw [Handler.fn]
    split
    · rename_i ws u' hex
      cases hdone : u'.okdone with
      | false => exact Or.inr ⟨_, rfl⟩
      | true =>
        have hparsed := hrest ▸ parse_of_okdone (parses_extractAll f.args) hex hdone
        exact absurd hparsed (hparse ws)
    · exact Or.inl rfl
  rcases hfn with hfn | ⟨rep, hfn⟩ <;> simp [hfn]

end Server

/-! ## Registration -/

/-- `rpcs::reg1`; a procedure is registered once. -/
def Server.reg1 (srv : Server S) (p : Int32 × Handler S) : Option (Server S) :=
  if (srv.procs p.1).isSome then none
  else some { srv with procs := Function.update srv.procs p.1 (some p.2) }

/-- `rpcs::rpcbind`. -/
def rpcbind (nonce : UInt32) : Handler S where
  args := [.scalar .int]
  ret := .scalar .int
  meth _ s := some ((0, nonce.toInt32), s)

/-- A server: `bind` is registered when it is made, and then the procedures of the service. -/
def rpcs (nonce : UInt32) (handlers : List (Int32 × Handler S)) : Option (Server S) :=
  ((1, rpcbind nonce) :: handlers).foldlM Server.reg1 ⟨nonce, fun _ ↦ none⟩

section Registration

variable {srv : Server S} (handlers : List (Int32 × Handler S))

theorem exists_reg1 {p : Int32 × Handler S} (hp : srv.procs p.1 = none) :
    ∃ srv', srv.reg1 p = some srv' ∧ srv'.nonce = srv.nonce ∧ srv'.procs p.1 = some p.2 ∧
      ∀ x, x ≠ p.1 → srv'.procs x = srv.procs x :=
  ⟨_, if_neg (by simp [hp]), rfl, Function.update_self .., fun _ hx ↦ Function.update_of_ne hx _ _⟩

theorem exists_foldlM_reg1 (srv : Server S) (hnodup : (handlers.map Prod.fst).Nodup)
    (hnew : ∀ p ∈ handlers, srv.procs p.1 = none) :
    ∃ srv', handlers.foldlM Server.reg1 srv = some srv' ∧ srv'.nonce = srv.nonce ∧
      (∀ p ∈ handlers, srv'.procs p.1 = some p.2) ∧
      ∀ x, x ∉ handlers.map Prod.fst → srv'.procs x = srv.procs x := by
  induction handlers generalizing srv with
  | nil => exact ⟨srv, rfl, rfl, by simp, fun _ _ ↦ rfl⟩
  | cons p handlers ih =>
    obtain ⟨hp, hnodup⟩ := List.nodup_cons.1 hnodup
    obtain ⟨srv₁, hreg, hnonce₁, hself, hother⟩ := exists_reg1 (hnew p List.mem_cons_self)
    have hnew₁ : ∀ q ∈ handlers, srv₁.procs q.1 = none := by
      intro q hq
      rw [hother q.1 fun hqp ↦ hp (hqp ▸ List.mem_map_of_mem hq)]
      exact hnew q (List.mem_cons_of_mem p hq)
    obtain ⟨srv', hsrv', hnonce, hprocs, hkeep⟩ := ih srv₁ hnodup hnew₁
    refine ⟨srv', ?_, hnonce.trans hnonce₁, fun q hq ↦ ?_, fun x hx ↦ ?_⟩
    · rw [List.foldlM_cons, hreg]
      exact hsrv'
    · rcases List.mem_cons.1 hq with rfl | hq
      · rw [hkeep q.1 hp, hself]
      · exact hprocs q hq
    · rw [List.map_cons, List.mem_cons, not_or] at hx
      rw [hkeep x hx.2, hother x hx.1]

/-- **Registration succeeds** if the numbers are different, and then every procedure is found. -/
theorem exists_rpcs (nonce : UInt32) (hnodup : (1 :: handlers.map Prod.fst).Nodup) :
    ∃ srv, rpcs nonce handlers = some srv ∧ srv.nonce = nonce ∧
      ∀ p ∈ (1, rpcbind nonce) :: handlers, srv.procs p.1 = some p.2 := by
  obtain ⟨srv, hsrv, hnonce, hprocs, -⟩ :=
    exists_foldlM_reg1 ((1, rpcbind nonce) :: handlers) ⟨nonce, fun _ ↦ none⟩ hnodup fun _ _ ↦ rfl
  exact ⟨srv, hsrv, hnonce, hprocs⟩

end Registration

/-! ## The procedures of this program -/

/-- The servers: `extent_smain`, `lock_smain`, and the one that every `lock_client_cache` has. -/
inductive Service.Name where
  | extent
  | lock
  | rlock
  deriving DecidableEq

/-- A procedure number with the types that go with it, on one side or the other. -/
structure Signature where
  proc : Int32
  args : List Ty
  ret : Ty
  deriving DecidableEq

def signature (p : Int32 × Handler S) : Signature := ⟨p.1, p.2.args, p.2.ret⟩

namespace Proc

/-- `extent_protocol::rpc_numbers`. -/
abbrev put : Int32 := 0x6001
abbrev get : Int32 := 0x6002
abbrev getattr : Int32 := 0x6003
abbrev remove : Int32 := 0x6004
abbrev create : Int32 := 0x6005

/-- `lock_protocol::rpc_numbers`. -/
abbrev acquire : Int32 := 0x7001
abbrev release : Int32 := 0x7002
abbrev stat : Int32 := 0x7003

/-- `rlock_protocol::rpc_numbers`. -/
abbrev revoke : Int32 := 0x8001
abbrev retry : Int32 := 0x8002

end Proc

/-- The types of the methods that are registered. -/
def registered : Service.Name → List Signature
  | .extent =>
    [⟨Proc.get, [.scalar .ull], .string⟩, ⟨Proc.getattr, [.scalar .ull], .attr⟩,
      ⟨Proc.put, [.scalar .ull, .string], .scalar .int⟩,
      ⟨Proc.remove, [.scalar .ull], .scalar .int⟩,
      ⟨Proc.create, [.scalar .uint], .scalar .ull⟩]
  | .lock =>
    [⟨Proc.stat, [.scalar .ull], .scalar .int⟩,
      ⟨Proc.release, [.scalar .ull, .string], .scalar .int⟩,
      ⟨Proc.acquire, [.scalar .ull, .string], .scalar .int⟩]
  | .rlock =>
    [⟨Proc.revoke, [.scalar .ull], .scalar .int⟩, ⟨Proc.retry, [.scalar .ull], .scalar .int⟩]

/-- The places where procedures are called, with the types of the arguments there: `rpcc::bind`,
which is called with every server, `extent_client`, `lock_client_cache`, and
`lock_server_cache::call_client`. -/
def sites : List (Service.Name × Signature) :=
  [(.extent, ⟨1, [.scalar .int], .scalar .int⟩), (.lock, ⟨1, [.scalar .int], .scalar .int⟩),
    (.rlock, ⟨1, [.scalar .int], .scalar .int⟩),
    (.extent, ⟨Proc.create, [.scalar .uint], .scalar .ull⟩),
    (.extent, ⟨Proc.get, [.scalar .ull], .string⟩),
    (.extent, ⟨Proc.getattr, [.scalar .ull], .attr⟩),
    (.extent, ⟨Proc.put, [.scalar .ull, .string], .scalar .int⟩),
    (.extent, ⟨Proc.remove, [.scalar .ull], .scalar .int⟩),
    (.lock, ⟨Proc.acquire, [.scalar .ull, .string], .scalar .int⟩),
    (.lock, ⟨Proc.release, [.scalar .ull, .string], .scalar .int⟩),
    (.rlock, ⟨Proc.revoke, [.scalar .ull], .scalar .int⟩),
    (.rlock, ⟨Proc.retry, [.scalar .ull], .scalar .int⟩)]

theorem nodup_registered (name : Service.Name) :
    (1 :: (registered name).map Signature.proc).Nodup := by
  cases name <;> decide

theorem mem_of_site {site : Service.Name × Signature} (h : site ∈ sites) :
    site.2 ∈ ⟨1, [.scalar .int], .scalar .int⟩ :: registered site.1 := by
  have hall : ∀ site ∈ sites, site.2 ∈ ⟨1, [.scalar .int], .scalar .int⟩ :: registered site.1 :=
    by decide
  exact hall site h

section Program

variable {handlers : List (Int32 × Handler S)} {name : Service.Name}

theorem exists_server (hreg : handlers.map signature = registered name) (nonce : UInt32) :
    ∃ srv, rpcs nonce handlers = some srv ∧ srv.nonce = nonce ∧
      ∀ sig ∈ ⟨1, [.scalar .int], .scalar .int⟩ :: registered name,
        ∃ f, (sig.proc, f) ∈ (1, rpcbind nonce) :: handlers ∧ srv.procs sig.proc = some f ∧
          f.args = sig.args ∧ f.ret = sig.ret := by
  have hnums : handlers.map Prod.fst = (registered name).map Signature.proc := by
    rw [← hreg, List.map_map]
    rfl
  obtain ⟨srv, hsrv, hnonce, hprocs⟩ := exists_rpcs handlers nonce
    (by rw [hnums]; exact nodup_registered name)
  refine ⟨srv, hsrv, hnonce, fun sig hsig ↦ ?_⟩
  rcases List.mem_cons.1 hsig with rfl | hsig
  · exact ⟨_, List.mem_cons_self, hprocs _ List.mem_cons_self, rfl, rfl⟩
  · rw [← hreg] at hsig
    obtain ⟨p, hp, rfl⟩ := List.mem_map.1 hsig
    have hmem := List.mem_cons_of_mem (1, rpcbind nonce) hp
    exact ⟨p.2, hmem, hprocs p hmem, rfl, rfl⟩

/-- **The two sides agree.**  The procedures of a service can be registered.  And at each of the
`sites`, whatever the methods do: if the nonce of the request is 0 or that of the server, the
request and the reply are less than `2 ^ 30` bytes long, and the method returns a status that is not
negative, then the call returns the status and the result of the method, and leaves the server as
the method has left it. -/
theorem call_of_site {site : Service.Name × Signature} (hsite : site ∈ sites)
    (hreg : handlers.map signature = registered site.1) (nonce : UInt32) :
    ∃ srv f, rpcs nonce handlers = some srv ∧
      (site.2.proc, f) ∈ (1, rpcbind nonce) :: handlers ∧ f.ret = site.2.ret ∧
      ∀ (h : ReqHeader) (vs : List Value) (s s' : S) (b : Int32) (r : f.ret.Val)
        (mem mem' : Nat → UInt8),
        h.proc = site.2.proc → h.srvNonce = 0 ∨ h.srvNonce = nonce →
        vs.map Value.ty = site.2.args → headerSz + (encodeAll vs).length < 2 ^ 30 →
        f.meth vs s = some ((b, r), s') → 0 ≤ b → headerSz + (f.ret.encode r).length < 2 ^ 30 →
        srv.call mem mem' h vs f.ret s = some ((b, some r), s') := by
  obtain ⟨srv, hsrv, hnonce, hprocs⟩ := exists_server hreg nonce
  obtain ⟨f, hmem, hf, hargs, hret⟩ := hprocs _ (mem_of_site hsite)
  refine ⟨srv, f, hsrv, hmem, hret, ?_⟩
  intro h vs s s' b r mem mem' hproc hsn hvs hsize hmeth hb hsize'
  exact Server.call_eq mem mem' (hproc ▸ hf) (by rw [hnonce]; exact hsn) (hvs.trans hargs.symm)
    hsize hmeth hb hsize'

/-- A method that counts how often it is invoked. -/
def counting (args : List Ty) : Handler Nat where
  args := args
  ret := .scalar .int
  meth _ n := some ((0, (0 : Int32)), n + 1)

theorem call_of_site_retry : ∃ srv,
    rpcs 7 [(Proc.revoke, counting [.scalar .ull]), (Proc.retry, counting [.scalar .ull])] =
      some srv ∧
    srv.call (fun _ ↦ 0) (fun _ ↦ 0) ⟨3, Proc.retry, 1, 7, 2⟩ [⟨.scalar .ull, (5 : UInt64)⟩]
      (.scalar .int) 41 = some ((0, some (0 : Int32)), 42) := by
  have hsite : (.rlock, ⟨Proc.retry, [.scalar .ull], .scalar .int⟩) ∈ sites := by decide
  have hreg :
      [(Proc.revoke, counting [.scalar .ull]), (Proc.retry, counting [.scalar .ull])].map signature
        = registered .rlock := rfl
  obtain ⟨srv, f, hsrv, hmem, -, hcall⟩ := call_of_site hsite hreg 7
  have hbind : Proc.retry ≠ 1 := by decide
  have hrevoke : Proc.retry ≠ Proc.revoke := by decide
  obtain rfl : f = counting [.scalar .ull] := by simpa [hbind, hrevoke] using hmem
  exact ⟨srv, hsrv, hcall _ _ _ _ _ _ _ _ rfl (Or.inr rfl) rfl (by decide +kernel) rfl (by decide)
    (by decide +kernel)⟩

/-- **`lock_client::stat` brings the lock server down.**  It sends the id of the client and the
number of the lock, and `lock_server_cache::stat` takes the number of the lock only. -/
theorem stat_aborts (hreg : handlers.map signature = registered .lock)
    (nonce : UInt32) (id : UInt32) (lid : UInt64) (h : ReqHeader) (hproc : h.proc = Proc.stat)
    (hsn : h.srvNonce = 0 ∨ h.srvNonce = nonce) (mem mem' : Nat → UInt8) (s : S) :
    ∃ srv m m', rpcs nonce handlers = some srv ∧
      marshallAll [⟨.scalar .uint, id⟩, ⟨.scalar .ull, lid⟩] (Marshall.new mem) = some m ∧
      m.packReqHeader h = some m' ∧ srv.dispatch mem' m'.received s = none := by
  obtain ⟨srv, hsrv, hnonce, hprocs⟩ := exists_server hreg nonce
  obtain ⟨f, -, hf, hargs, -⟩ := hprocs ⟨Proc.stat, [.scalar .ull], .scalar .int⟩ (by decide)
  -- twelve bytes are sent, and eight are taken
  have hlen : (encodeAll [⟨.scalar .uint, id⟩, ⟨.scalar .ull, lid⟩]).length = 12 := by
    simp [encodeAll, Ty.encode, Scalar.width]
  have hparse : ∀ ws, parseAll f.args (encodeAll [⟨.scalar .uint, id⟩, ⟨.scalar .ull, lid⟩]) ≠
      some (ws, []) := by
    intro ws hws
    have htakes : Takes (parseAll [.scalar .ull]) 8 :=
      ((takes_parseNat 8).map _).bind fun _ ↦ (takes_pure []).bind fun _ ↦ takes_pure _
    obtain ⟨vs, hvs⟩ := htakes.enough (hlen ▸ (by decide : 8 ≤ 12))
    rw [hargs, hvs] at hws
    have hnil := congrArg List.length (Prod.mk.inj (Option.some_inj.1 hws)).2
    rw [List.length_drop, hlen] at hnil
    exact absurd hnil (by decide)
  obtain ⟨m, m', hm, hm', hdown⟩ := Server.exists_abort mem mem' (s := s)
    (hproc ▸ hf) (by rw [hnonce]; exact hsn) (by rw [hlen]; decide) hparse
  exact ⟨srv, m, m', hsrv, hm, hm', hdown⟩

/-- `lock_demo`. -/
theorem stat_aborts_demo : ∃ srv m m',
    rpcs 7 [(Proc.stat, counting [.scalar .ull]), (Proc.release, counting [.scalar .ull, .string]),
      (Proc.acquire, counting [.scalar .ull, .string])] = some srv ∧
    marshallAll [⟨.scalar .uint, (9 : UInt32)⟩, ⟨.scalar .ull, (1 : UInt64)⟩]
      (Marshall.new fun _ ↦ 0) = some m ∧
    m.packReqHeader ⟨3, Proc.stat, 9, 7, 2⟩ = some m' ∧
    srv.dispatch (fun _ ↦ 0) m'.received 0 = none :=
  stat_aborts rfl 7 9 1 ⟨3, Proc.stat, 9, 7, 2⟩ rfl (Or.inr rfl) (fun _ ↦ 0) (fun _ ↦ 0) 0

end Program

end Rpc
end Yfs
